import Mathlib
import ExprGraph.Proofs.Derivative.Independence
import ExprGraph.Proofs.Derivative.Recall

/-!
# Sparse Jacobians

A sparse Jacobian leaves the memo knowing the entries of the dense one, which are therefore the same
nodes.  It stores those of them that are no zero literals, and such an entry tells of a dependence,
since the derivative of what does not depend on a variable is a zero literal.
-/

namespace ExprGraph

open ExprGraph.Graph Workspace

theorem Graph.isZero_eq_false_iff {g : Graph} {h : Handle} :
    g.isZero h = false ↔ g.node h ≠ .ok (.lit 0.0) ∧ g.node h ≠ .ok (.lit (-0.0)) := by
  rw [← Bool.not_eq_true, isZero_iff, ← not_or, not_congr]
  constructor
  · rintro ⟨v, hn, hv⟩
    rcases of_decide_eq_true hv with rfl | rfl
    · exact .inl hn
    · exact .inr hn
  · rintro (hn | hn)
    · exact ⟨_, hn, by decide⟩
    · exact ⟨_, hn, by decide⟩

/-- A sparse matrix stores the entries of a dense one that are no zero literals, row by row, and
finds what it stores and nothing else. -/
structure SparseMatrix.Represents (m : SparseMatrix) (dense : Matrix Handle) (g : Graph) :
    Prop where
  rows_eq : m.rows = dense.rows
  cols_eq : m.cols = dense.cols
  sorted : m.Sorted
  mem_iff {r c : Nat} {d : Handle} : (r, c, d) ∈ m.entries ↔
    dense.get? r c = some d ∧ g.node d ≠ .ok (.lit 0.0) ∧ g.node d ≠ .ok (.lit (-0.0))
  get?_eq_some_iff {r c : Nat} {d : Handle} : m.get? r c = some d ↔ (r, c, d) ∈ m.entries
  get?_eq_none_iff {r c : Nat} : m.get? r c = none ↔ ∀ d, (r, c, d) ∉ m.entries

theorem SparseMatrix.represents_table (g : Graph) (outputs vars : List Handle)
    (entry : Handle → Handle → Handle) :
    (table g.isZero outputs vars entry).Represents (Matrix.table outputs vars entry) g where
  rows_eq := rfl
  cols_eq := rfl
  sorted := sorted_table
  mem_iff := mem_table.trans (and_congr_right fun _ => Graph.isZero_eq_false_iff)
  get?_eq_some_iff := sorted_table.get?_eq_some_iff
  get?_eq_none_iff := sorted_table.get?_eq_none_iff

/-- A variable lies below a node whose derivative is known to be no zero literal. -/
theorem Workspace.Knows.reaches {w : Workspace} {node var d : Handle} (hw : w.Trusted)
    (hknown : w.Knows node var d) (hzero : w.graph.isZero d = false) :
    w.graph.Reaches node var := by
  by_contra hnot
  have hsynced : w.Synced := ⟨hw.ready.graph, hknown.1, hw.honest.memo hknown.1⟩
  rw [isZero_of_node (DiffM.node_of_known hsynced hknown.2 hnot)] at hzero
  cases hzero

/-- The known derivative of a variable by itself is the literal one. -/
theorem Workspace.Knows.node_self {w : Workspace} {var d : Handle} (hw : w.Trusted)
    (hvar : w.graph.IsVariable var) (hknown : w.Knows var var d) :
    w.graph.node d = .ok (.lit 1.0) := by
  obtain ⟨id, name, hn⟩ := hvar
  have hrun := hw.replays hknown (Nat.lt_succ_self _) w.graph hw.ready.graph (.refl _)
  rw [BuildM.differentiateBelow, bind_of_ok (BuildM.inspect_eq hn)] at hrun
  simp only [if_true] at hrun
  exact (BuildM.literal_gives_node hw.ready.graph 1.0 d w.graph hrun).2

namespace DiffM

variable {w : Workspace} {outputs vars : List Handle}

/-- A sparse Jacobian is the sparse table of what is known afterwards. -/
theorem sparseJacobian_recalls (hw : w.Trusted) (hargs : w.graph.Differentiable outputs vars []) :
    Succeeds Remembers (sparseJacobian outputs vars) w fun m w' =>
      m = SparseMatrix.table w'.graph.isZero outputs vars
        (fun out var => w'.memo.derivativeOf var out) ∧
        ∀ out ∈ outputs, ∀ var ∈ vars, w'.Knows out var (w'.memo.derivativeOf var out) := by
  apply Succeeds.bind_eq (resolveColumns_eq none hargs)
  obtain ⟨rows, w', hrun, hremembers, hrows⟩ :=
    derivativeRows_recalls hw hargs.live hargs.isVariable
  obtain ⟨rfl, hknown⟩ := rows_of_knows hrows
  have hentries := sparseRows_of_rows hw.ready hrun 0
  exact .of_eq (bind_of_ok hentries) hremembers ⟨rfl, hknown⟩

end DiffM

end ExprGraph

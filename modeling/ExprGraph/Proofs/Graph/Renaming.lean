import Mathlib
import ExprGraph.Proofs.Graph.Growth

/-!
# Nodes under a renaming

Nodes that are the same up to the names of their operands, and up to the order of the operands of a
commutative operator, look the same to the identities of the operators and to folding.  So these
apply alike to operands that look alike, in one graph or in two.
-/

namespace ExprGraph

/-- The second operands are the first ones, or the two operands of a commutative operator the other
way round. -/
inductive Op.Rearranges (op : Op) : List Handle → List Handle → Prop
  | same (args : List Handle) : Rearranges op args args
  | swap (hop : op.isCommutative = true) (a b : Handle) : Rearranges op [a, b] [b, a]

namespace Op.Rearranges

variable {op : Op} {args args' args'' : List Handle}

theorem symm (hargs : op.Rearranges args args') : op.Rearranges args' args := by
  cases hargs with
  | same => exact .same args
  | swap hop a b => exact .swap hop b a

theorem trans (hfirst : op.Rearranges args args') (hrest : op.Rearranges args' args'') :
    op.Rearranges args args'' := by
  cases hfirst with
  | same => exact hrest
  | swap hop a b =>
      cases hrest with
      | same => exact .swap hop a b
      | swap => exact .same [a, b]

theorem map (hargs : op.Rearranges args args') (φ : Handle → Handle) :
    op.Rearranges (args.map φ) (args'.map φ) := by
  cases hargs with
  | same => exact .same (args.map φ)
  | swap hop a b => exact .swap hop (φ a) (φ b)

theorem arrange (op : Op) (args : List Handle) : op.Rearranges args (op.arrange args) := by
  unfold Op.arrange
  split
  · next a b =>
    split
    · next hswap => exact .swap hswap.1 a b
    · exact .same [a, b]
  · exact .same args

/-- The operands of any other operator stay as they are. -/
theorem eq_of_not_commutative (hargs : op.Rearranges args args') (hop : op.isCommutative = false) :
    args' = args := by
  cases hargs with
  | same => rfl
  | swap hcommutative => cases hop.symm.trans hcommutative

end Op.Rearranges

/-- A node and what it is under a renaming of handles: a variable of the same name, the same
literal, or the same operator and operands, up to the order of the operands of a commutative
operator. -/
inductive Node.Renamed (φ : Handle → Handle) : Node → Node → Prop
  | var (id id' : Nat) (name : String) : Renamed φ (.var id name) (.var id' name)
  | lit (v : Float) : Renamed φ (.lit v) (.lit v)
  | app {op : Op} {args args' : List Handle} (hargs : op.Rearranges (args.map φ) args') :
      Renamed φ (.app ⟨op, args⟩) (.app ⟨op, args'⟩)

/-- What an identity makes of an application, with another name for the node it names. -/
def Simplified.map (φ : Handle → Handle) : Simplified → Simplified
  | .same h => .same (φ h)
  | .literal v => .literal v
  | .negation h => .negation (φ h)
  | .keep => .keep

theorem Node.Renamed.refl (n : Node) : n.Renamed (fun a => a) n := by
  cases n with
  | var id name => exact .var id id name
  | lit v => exact .lit v
  | app app => exact .app (by rw [List.map_id']; exact .same app.args)

theorem Simplified.map_id (simplified : Simplified) :
    simplified.map (fun a => a) = simplified := by
  cases simplified <;> rfl

namespace Graph

variable {g g' : Graph} {φ : Handle → Handle} {op : Op} {args : List Handle}

/-- Operands in one graph look like their renamings in another: the nodes are the same up to the
renaming, and different operands stay different. -/
structure Resembles (g : Graph) (φ : Handle → Handle) (g' : Graph) (args : List Handle) :
    Prop where
  node {a : Handle} : a ∈ args → ∃ n n', g.node a = .ok n ∧ g'.node (φ a) = .ok n' ∧ n.Renamed φ n'
  eq_iff {a b : Handle} : a ∈ args → b ∈ args → (φ a = φ b ↔ a = b)

theorem Resembles.holds_eq (hargs : g.Resembles φ g' args) {p : Node → Bool}
    (hp : ∀ {n n'}, n.Renamed φ n' → p n' = p n) {a : Handle} (ha : a ∈ args) :
    g'.holds p (φ a) = g.holds p a := by
  obtain ⟨n, n', hn, hn', hrenamed⟩ := hargs.node ha
  rw [holds, holds, hn, hn']
  exact hp hrenamed

/-- Folding sees the same literals. -/
theorem Resembles.literalValues?_map (hargs : g.Resembles φ g' args) :
    g'.literalValues? (args.map φ) = g.literalValues? args := by
  induction args with
  | nil => rfl
  | cons a rest ih =>
      have hrest : g.Resembles φ g' rest :=
        ⟨fun hb => hargs.node (List.mem_cons_of_mem a hb),
          fun hb hc => hargs.eq_iff (List.mem_cons_of_mem a hb) (List.mem_cons_of_mem a hc)⟩
      obtain ⟨n, n', hn, hn', hrenamed⟩ := hargs.node List.mem_cons_self
      rw [List.map_cons, literalValues?, literalValues?, hn, hn']
      cases hrenamed with
      | var => rfl
      | lit v => exact congrArg (Option.map (v :: ·)) (ih hrest)
      | app => rfl

/-- No identity applies to the wrong number of operands. -/
theorem simplify_of_length_ne (hlength : args.length ≠ op.arity) : g.simplify op args = .keep := by
  unfold simplify
  split <;> first | rfl | exact absurd rfl hlength

/-- Identities apply alike. -/
theorem Resembles.simplify_map (hargs : g.Resembles φ g' args) (op : Op) :
    g'.simplify op (args.map φ) = (g.simplify op args).map φ := by
  have hzero : ∀ a ∈ args, g'.isZero (φ a) = g.isZero a :=
    fun a ha => hargs.holds_eq (by rintro _ _ ⟨⟩ <;> rfl) ha
  have hone : ∀ a ∈ args, g'.isOne (φ a) = g.isOne a :=
    fun a ha => hargs.holds_eq (by rintro _ _ ⟨⟩ <;> rfl) ha
  have hnegOne : ∀ a ∈ args, g'.isNegOne (φ a) = g.isNegOne a :=
    fun a ha => hargs.holds_eq (by rintro _ _ ⟨⟩ <;> rfl) ha
  have heq : ∀ a ∈ args, ∀ b ∈ args, φ a = φ b ↔ a = b := fun a ha b hb => hargs.eq_iff ha hb
  by_cases hlength : args.length = op.arity
  · cases op with
    | add | sub | mul | div | pow =>
        obtain ⟨a, b, rfl⟩ := List.length_eq_two.mp hlength
        simp only [List.map_cons, List.map_nil, simplify, hzero a (by simp), hzero b (by simp),
          hone a (by simp), hone b (by simp), hnegOne a (by simp), hnegOne b (by simp),
          heq a (by simp) b (by simp)]
        split_ifs <;> rfl
    | neg =>
        obtain ⟨a, rfl⟩ := List.length_eq_one_iff.mp hlength
        obtain ⟨n, n', hn, hn', hrenamed⟩ := hargs.node (List.mem_singleton_self a)
        simp only [List.map_cons, List.map_nil, simplify, hn, hn']
        cases hrenamed with
        | var => rfl
        | lit => rfl
        | @app inner operands operands' hoperands =>
            cases inner with
            | neg =>
                rw [hoperands.eq_of_not_commutative rfl]
                rcases operands with _ | ⟨b, _ | ⟨c, rest⟩⟩ <;> rfl
            | _ => rfl
    | ifElse =>
        obtain ⟨c, a, b, rfl⟩ := List.length_eq_three.mp hlength
        obtain ⟨n, n', hn, hn', hrenamed⟩ := hargs.node List.mem_cons_self
        simp only [List.map_cons, List.map_nil, simplify, hn, hn', heq a (by simp) b (by simp)]
        cases hrenamed with
        | var => split <;> rfl
        | lit v =>
            dsimp only
            split_ifs <;> rfl
        | app => split <;> rfl
    | _ => rfl
  · rw [simplify_of_length_ne hlength, simplify_of_length_ne (by rwa [List.length_map])]
    rfl

end Graph

end ExprGraph

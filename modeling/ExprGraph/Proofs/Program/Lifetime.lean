import Mathlib
import ExprGraph.Program.Compile
import ExprGraph.Program.Liveness
import ExprGraph.Proofs.Outcome
import ExprGraph.Proofs.Graph.Below

/-!
# Lifetimes

Two tables are made before a program is emitted: the position of every input, and how long every
value is needed.  The second one says of an operand that this is its last use exactly when the value
is not needed after the node that uses it.
-/

namespace ExprGraph

namespace Graph

/-- An input is found at the place it is listed first; there is no other one. -/
theorem indexInputs_getElem? {g : Graph} {position : Nat} {inputs : List Handle}
    {positions found : Std.HashMap Handle Nat}
    (hindex : g.indexInputs position inputs positions = .ok found) (h : Handle) :
    found[h]? = (positions[h]?).or ((inputs.idxOf? h).map (position + ·)) := by
  induction inputs generalizing position positions with
  | nil =>
      cases hindex
      simp
  | cons first rest ih =>
      rw [indexInputs] at hindex
      obtain ⟨n, -, hindex⟩ := exists_of_bind_eq_ok hindex
      split_ifs at hindex with hvar hknown
      rw [ih hindex, Std.HashMap.getElem?_insert, List.idxOf?_cons]
      by_cases hfirst : first = h
      · subst hfirst
        have hnone : positions[first]? = none := by
          simpa [Std.HashMap.contains_iff_mem] using hknown
        simp [hnone]
      · simp only [beq_iff_eq, hfirst, if_false, Option.map_map]
        congr 2
        funext place
        simp only [Function.comp_apply]
        omega

/-- Noting the operands of one node. -/
theorem foldl_insert_getElem? (args : List Handle) (lifetime : Lifetime)
    (noted : Std.HashMap Handle Lifetime) (h : Handle) :
    (args.foldl (fun noted a => noted.insert a lifetime) noted)[h]? =
      if h ∈ args then some lifetime else noted[h]? := by
  induction args generalizing noted with
  | nil => simp
  | cons a rest ih =>
      rw [List.foldl_cons, ih, Std.HashMap.getElem?_insert]
      by_cases hrest : h ∈ rest
      · simp [hrest]
      · by_cases ha : a = h
        · simp [ha]
        · simp [hrest, ha, Ne.symm ha]

theorem operands_eq_ok {g : Graph} {h : Handle} {args : List Handle}
    (hargs : g.operands h = .ok args) : g.argsOf h = args := by
  obtain ⟨n, hn, hpure⟩ := exists_of_bind_eq_ok hargs
  rw [argsOf_of_node hn]
  exact Except.ok.inj hpure

/-- A node keeps its entry when nothing in the order uses it; otherwise its last user is noted. -/
theorem noteUses_getElem? {g : Graph} {index : Nat} {order : List Handle}
    {noted found : Std.HashMap Handle Lifetime}
    (hnote : g.noteUses index order noted = .ok found) (h : Handle) :
    if order.any (fun user => (g.argsOf user).contains h) then
      ∃ last, index ≤ last ∧ found[h]? = some (.upTo last)
    else found[h]? = noted[h]? := by
  induction order generalizing index noted with
  | nil =>
      cases hnote
      simp
  | cons user rest ih =>
      rw [noteUses] at hnote
      obtain ⟨args, hargs, hnote⟩ := exists_of_bind_eq_ok hnote
      have hrest := ih hnote
      rw [foldl_insert_getElem?] at hrest
      rw [List.any_cons, operands_eq_ok hargs]
      by_cases hlater : rest.any (fun user => (g.argsOf user).contains h) = true
      · rw [if_pos hlater] at hrest
        obtain ⟨last, hlast, hfound⟩ := hrest
        rw [hlater, Bool.or_true, if_pos rfl]
        exact ⟨last, by omega, hfound⟩
      · rw [if_neg hlater] at hrest
        rw [Bool.eq_false_iff.mpr hlater, Bool.or_false]
        by_cases hmem : h ∈ args
        · rw [if_pos hmem] at hrest
          rw [if_pos (List.contains_iff_mem.mpr hmem)]
          exact ⟨index, Nat.le_refl _, hrest⟩
        · rw [if_neg hmem] at hrest
          rw [if_neg (by simpa using hmem)]
          exact hrest

theorem noteUses_append {g : Graph} {index : Nat} {before after : List Handle}
    {noted found : Std.HashMap Handle Lifetime}
    (hnote : g.noteUses index (before ++ after) noted = .ok found) :
    ∃ between, g.noteUses index before noted = .ok between ∧
      g.noteUses (index + before.length) after between = .ok found := by
  induction before generalizing index noted with
  | nil => exact ⟨noted, rfl, hnote⟩
  | cons user rest ih =>
      rw [List.cons_append, noteUses] at hnote
      obtain ⟨args, hargs, hnote⟩ := exists_of_bind_eq_ok hnote
      obtain ⟨between, hbefore, hafter⟩ := ih hnote
      refine ⟨between, ?_, ?_⟩
      · rw [noteUses, hargs]
        exact hbefore
      · rwa [List.length_cons, Nat.add_comm rest.length, ← Nat.add_assoc]

/-- The last use of an operand is noted at the user after which it is not needed. -/
theorem lifetimes_eq_upTo_iff {g : Graph} {before after outputs : List Handle} {user a : Handle}
    {found : Std.HashMap Handle Lifetime}
    (hfound : g.lifetimes (before ++ user :: after) outputs = .ok found)
    (ha : a ∈ g.argsOf user) :
    found[a]? = some (.upTo before.length) ↔ g.neededAfter outputs after a = false := by
  obtain ⟨noted, hnote, hpure⟩ := exists_of_bind_eq_ok hfound
  obtain rfl := Except.ok.inj hpure
  rw [foldl_insert_getElem?, neededAfter, Bool.or_eq_false_iff]
  by_cases hout : a ∈ outputs
  · simp [hout]
  · obtain ⟨between, -, hrest⟩ := noteUses_append hnote
    rw [Nat.zero_add, noteUses] at hrest
    obtain ⟨args, hargs, hrest⟩ := exists_of_bind_eq_ok hrest
    rw [operands_eq_ok hargs] at ha
    have hlast := noteUses_getElem? hrest a
    rw [foldl_insert_getElem?, if_pos ha] at hlast
    by_cases hlater : after.any (fun user => (g.argsOf user).contains a) = true
    · rw [if_pos hlater] at hlast
      obtain ⟨last, hle, hnoted⟩ := hlast
      rw [if_neg hout, hnoted, hlater]
      simp only [Option.some.injEq, Lifetime.upTo.injEq, Bool.true_eq_false, and_false,
        iff_false]
      omega
    · rw [if_neg hlater] at hlast
      rw [if_neg hout, hlast, Bool.eq_false_iff.mpr hlater]
      simp [hout]

/-- What is needed after a node was needed before it, unless it is that node. -/
theorem neededAfter_cons {g : Graph} {outputs rest : List Handle} {user h : Handle} :
    g.neededAfter outputs (user :: rest) h = true ↔
      h ∈ g.argsOf user ∨ g.neededAfter outputs rest h = true := by
  simp only [neededAfter, List.any_cons, Bool.or_eq_true, List.contains_iff_mem]
  tauto

end Graph

end ExprGraph

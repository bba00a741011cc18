import Mathlib
import ExprGraph.Proofs.Graph.Evaluation
import ExprGraph.Proofs.Graph.Traversal

/-!
# What lies below some roots

The nodes below some roots as a set, and what a walk tells about it: how many nodes there are of
some kind, and which variables, in the order in which the written-out expressions use them first.
A walk from roots that are not all live is refused with the error of the first that is not.
-/

namespace ExprGraph

section FirstOccurrences

variable {α : Type} [BEq α] [LawfulBEq α]

theorem nodup_eraseDups (as : List α) : as.eraseDups.Nodup := by
  generalize hlength : as.length = length
  induction length using Nat.strong_induction_on generalizing as with
  | h length ih =>
      cases as with
      | nil => exact List.nodup_nil
      | cons a rest =>
          rw [List.eraseDups_cons]
          refine List.nodup_cons.mpr ⟨by simp, ih _ ?_ _ rfl⟩
          have hle := List.length_filter_le (fun b => !b == a) rest
          rw [List.length_cons] at hlength
          omega

theorem eraseDups_of_nodup {as : List α} (has : as.Nodup) : as.eraseDups = as := by
  induction as with
  | nil => rfl
  | cons a rest ih =>
      obtain ⟨hnew, hrest⟩ := List.nodup_cons.mp has
      have hkept : rest.filter (fun b => !b == a) = rest :=
        List.filter_eq_self.mpr fun b hb => by simpa using ne_of_mem_of_not_mem hb hnew
      rw [List.eraseDups_cons, hkept, ih hrest]

theorem eraseDups_append_of_subset {as bs : List α} (hsub : bs ⊆ as) :
    (as ++ bs).eraseDups = as.eraseDups := by
  have hnone : bs.removeAll as = [] :=
    List.filter_eq_nil_iff.mpr fun b hb => by simpa using hsub hb
  rw [List.eraseDups_append, hnone, List.eraseDups_nil, List.append_nil]

theorem eraseDups_eraseDups_append (as bs : List α) :
    (as.eraseDups ++ bs).eraseDups = (as ++ bs).eraseDups := by
  have hsame : bs.removeAll as.eraseDups = bs.removeAll as :=
    List.filter_congr fun b _ => by simp
  rw [List.eraseDups_append, List.eraseDups_append, eraseDups_of_nodup (nodup_eraseDups as), hsame]

end FirstOccurrences

namespace Graph

variable {g : Graph} {roots order : List Handle}

/-- The nodes below some roots, the roots among them. -/
def below (g : Graph) (roots : List Handle) : Set Handle :=
  {h | ∃ root ∈ roots, g.Reaches root h}

/-- The variables of the expression that a node stands for, from left to right and as often as the
expression uses them when it is written out without sharing. -/
def uses (g : Graph) (h : Handle) : List Handle :=
  if g.holds Node.isVariable h then [h]
  else (g.argsOf h).flatMap fun a => if g.placeOf a < g.placeOf h then g.uses a else []
termination_by g.placeOf h

/-- What lies below live roots stays the same. -/
theorem WellFormed.below_extends {g' : Graph} (hg : g.WellFormed) (hext : g.Extends g')
    (hlive : ∀ root ∈ roots, g.Live root) : g'.below roots = g.below roots := by
  ext h
  exact exists_congr fun root => and_congr_right fun hroot =>
    hg.reaches_iff hext (hlive root hroot)

/-! ### Counting -/

/-- Only finitely many nodes lie below some roots, whether or not these are live. -/
theorem WellFormed.finite_below (hg : g.WellFormed) (roots : List Handle) :
    (g.below roots).Finite := by
  refine ((roots ++ (List.range g.nodes.size).map g.handleAt).finite_toSet).subset ?_
  rintro h ⟨root, hroot, hreach⟩
  cases hreach with
  | refl => exact List.mem_append_left _ hroot
  | step ha hreach =>
      obtain ⟨n, hn⟩ := hg.live_of_reaches (hg.live_of_mem_argsOf ha) hreach
      refine List.mem_append_right _ (List.mem_map.mpr ⟨g.placeOf h, ?_, ?_⟩)
      · exact List.mem_range.mpr (placeOf_lt_of_live ⟨n, hn⟩)
      · exact (eq_handleAt_of_node hn).1.symm

theorem IsOrder.ncard_filter (horder : g.IsOrder (fun _ => false) roots order)
    (p : Handle → Bool) : {h ∈ g.below roots | p h}.ncard = (order.filter p).length := by
  have hset : {h ∈ g.below roots | p h} = ((order.filter p).toFinset : Set Handle) := by
    ext h
    rw [List.coe_toFinset, Set.mem_ofPred_eq, Set.mem_ofPred_eq, List.mem_filter, horder.mem_iff]
    rfl
  rw [hset, Set.ncard_coe_finset, List.toFinset_card_of_nodup (horder.nodup.filter p)]

theorem IsOrder.ncard_below (horder : g.IsOrder (fun _ => false) roots order) :
    (g.below roots).ncard = order.length := by
  simpa using horder.ncard_filter fun _ => true

/-- An order that skips something is no longer than one that does not. -/
theorem IsOrder.length_le_ncard {skip : Handle → Bool} (horder : g.IsOrder skip roots order)
    (hg : g.WellFormed) (hlive : ∀ root ∈ roots, g.Live root) :
    order.length ≤ (g.below roots).ncard := by
  obtain ⟨all, -, hall⟩ := hg.order_eq hlive
  rw [hall.ncard_below]
  exact (horder.nodup.subperm fun h hh => hall.mem_iff.mpr (horder.reached hh)).length_le

/-! ### Variables in the order of first use -/

theorem holds_isVariable_iff {h : Handle} :
    g.holds Node.isVariable h = true ↔ g.IsVariable h := by
  unfold holds IsVariable
  cases g.node h with
  | error e => simp
  | ok n => cases n <;> simp [Node.isVariable]

theorem argsOf_of_isVariable {h : Handle} (hvar : g.IsVariable h) : g.argsOf h = [] := by
  obtain ⟨id, name, hn⟩ := hvar
  rw [argsOf_of_node hn]
  rfl

theorem uses_of_isVariable {h : Handle} (hvar : g.IsVariable h) : g.uses h = [h] := by
  rw [uses, if_pos (holds_isVariable_iff.mpr hvar)]

theorem WellFormed.uses_of_not_isVariable (hg : g.WellFormed) {h : Handle}
    (hvar : ¬ g.IsVariable h) : g.uses h = (g.argsOf h).flatMap g.uses := by
  rw [uses, if_neg (holds_isVariable_iff.not.mpr hvar)]
  exact List.flatMap_congr fun a ha => if_pos (hg.placeOf_lt_of_mem_argsOf ha)

theorem WellFormed.uses_eq (hg : g.WellFormed) (h : Handle) :
    g.uses h = if g.holds Node.isVariable h then [h] else (g.argsOf h).flatMap g.uses := by
  split
  · next hvar => exact uses_of_isVariable (holds_isVariable_iff.mp hvar)
  · next hvar => exact hg.uses_of_not_isVariable (holds_isVariable_iff.not.mp hvar)

/-- An expression uses the variables that lie below its node. -/
theorem WellFormed.mem_uses_iff (hg : g.WellFormed) {h x : Handle} (hlive : g.Live h) :
    x ∈ g.uses h ↔ g.IsVariable x ∧ g.Reaches h x := by
  induction h, hlive using hg.induction with
  | step h n hn ih =>
      by_cases hvar : g.IsVariable h
      · rw [uses_of_isVariable hvar, List.mem_singleton]
        constructor
        · rintro rfl
          exact ⟨hvar, .refl x⟩
        · rintro ⟨-, hreach⟩
          cases hreach with
          | refl => rfl
          | step ha => simp [argsOf_of_isVariable hvar] at ha
      · rw [hg.uses_of_not_isVariable hvar, List.mem_flatMap]
        have hbelow : ∀ a ∈ g.argsOf h, (x ∈ g.uses a ↔ g.IsVariable x ∧ g.Reaches a x) :=
          fun a ha => ih a (hg.live_of_mem_argsOf ha) (argsOf_of_node hn ▸ ha)
        constructor
        · rintro ⟨a, ha, hx⟩
          obtain ⟨hx, hreach⟩ := (hbelow a ha).mp hx
          exact ⟨hx, .step ha hreach⟩
        · rintro ⟨hx, hreach⟩
          cases hreach with
          | refl => exact absurd hx hvar
          | step ha hreach => exact ⟨_, ha, (hbelow _ ha).mpr ⟨hx, hreach⟩⟩

/-- A list of presented nodes that a visit can go on with. -/
structure Presented (g : Graph) (presented : List Handle) : Prop where
  nodup : presented.Nodup
  operandsFirst : g.OperandsFirst (fun _ => false) presented

theorem presented_nil : g.Presented [] :=
  ⟨List.nodup_nil, by simp [OperandsFirst]⟩

theorem Presented.foldl_present {presented : List Handle} (hpresented : g.Presented presented)
    (hg : g.WellFormed) {hs : List Handle} (hlive : ∀ h ∈ hs, g.Live h) :
    g.Presented (hs.foldl (fun found h => g.present h found) presented) := by
  obtain ⟨result, hresult⟩ := Presents.exists_of_live hg (fun _ => false) hs presented hlive
  rw [hresult.foldl_present hg]
  exact ⟨hresult.nodup hg hpresented.nodup, hresult.operandsFirst hpresented.operandsFirst⟩

/-- The variables that visiting a node adds are those that it uses first. -/
def AddsUses (g : Graph) (h : Handle) : Prop :=
  ∀ presented, g.Presented presented →
    (g.present h presented).filter (g.holds Node.isVariable) =
      (presented.filter (g.holds Node.isVariable) ++ g.uses h).eraseDups

theorem Presented.filter_foldl_present {presented : List Handle}
    (hpresented : g.Presented presented) (hg : g.WellFormed) {hs : List Handle}
    (hlive : ∀ h ∈ hs, g.Live h) (hadds : ∀ h ∈ hs, g.AddsUses h) :
    (hs.foldl (fun found h => g.present h found) presented).filter (g.holds Node.isVariable) =
      (presented.filter (g.holds Node.isVariable) ++ hs.flatMap g.uses).eraseDups := by
  induction hs generalizing presented with
  | nil => simp [eraseDups_of_nodup (hpresented.nodup.filter _)]
  | cons h rest ih =>
      obtain ⟨hhead, hrest⟩ := List.forall_mem_cons.mp hlive
      obtain ⟨haddsHead, haddsRest⟩ := List.forall_mem_cons.mp hadds
      have hnext : g.Presented (g.present h presented) :=
        hpresented.foldl_present hg (List.forall_mem_singleton.mpr hhead)
      rw [List.foldl_cons, ih hnext hrest haddsRest, haddsHead presented hpresented,
        eraseDups_eraseDups_append, List.append_assoc, List.flatMap_cons]

theorem WellFormed.addsUses (hg : g.WellFormed) {h : Handle} (hlive : g.Live h) :
    g.AddsUses h := by
  induction h, hlive using hg.induction with
  | step h n hn ih =>
      intro presented hpresented
      by_cases hknown : h ∈ presented
      · rw [present_of_mem hknown]
        -- its variables have been presented with it
        have hsub : g.uses h ⊆ presented.filter (g.holds Node.isVariable) := by
          intro x hx
          obtain ⟨hvar, hreach⟩ := (hg.mem_uses_iff ⟨n, hn⟩).mp hx
          exact List.mem_filter.mpr ⟨hpresented.operandsFirst.mem_of_reaches hknown hreach,
            holds_isVariable_iff.mpr hvar⟩
        rw [eraseDups_append_of_subset hsub, eraseDups_of_nodup (hpresented.nodup.filter _)]
      · have hargs : ∀ a ∈ g.argsOf h, g.Live a := fun a ha => hg.live_of_mem_argsOf ha
        have hbelow := hpresented.filter_foldl_present hg hargs fun a ha =>
          ih a (hargs a ha) (argsOf_of_node hn ▸ ha)
        rw [hg.present_of_not_mem hknown, List.filter_append, hbelow]
        by_cases hvar : g.IsVariable h
        · have hnew : (presented.filter (g.holds Node.isVariable) ++ [h]).Nodup := by
            rw [← List.concat_eq_append]
            exact (hpresented.nodup.filter _).concat fun hmem =>
              hknown (List.mem_of_mem_filter hmem)
          rw [argsOf_of_isVariable hvar, uses_of_isVariable hvar, List.flatMap_nil,
            List.append_nil, eraseDups_of_nodup (hpresented.nodup.filter _),
            eraseDups_of_nodup hnew, List.filter_cons_of_pos (holds_isVariable_iff.mpr hvar),
            List.filter_nil]
        · rw [hg.uses_of_not_isVariable hvar,
            List.filter_cons_of_neg (holds_isVariable_iff.not.mpr hvar), List.filter_nil,
            List.append_nil]

/-- The variables of the post-order are those of the roots, in the order of first use. -/
theorem WellFormed.filter_postorder (hg : g.WellFormed) (hlive : ∀ root ∈ roots, g.Live root) :
    (g.postorder roots).filter (g.holds Node.isVariable) = (roots.flatMap g.uses).eraseDups :=
  presented_nil.filter_foldl_present hg hlive fun root hroot => hg.addsUses (hlive root hroot)

/-! ### What a walk gives -/

theorem WellFormed.isOrder_of_order (hg : g.WellFormed) (hrun : g.order roots = .ok order) :
    g.IsOrder (fun _ => false) roots order := by
  cases hvalid : g.validate roots with
  | error e =>
      rw [Graph.order, hvalid] at hrun
      cases hrun
  | ok done =>
      obtain ⟨order', hrun', horder⟩ := hg.order_eq (validate_eq_ok_iff.mp hvalid)
      cases hrun.symm.trans hrun'
      exact horder

theorem withNodes_of_live {hs : List Handle} (hlive : ∀ h ∈ hs, g.Live h) :
    ∃ entries, g.withNodes hs = .ok entries ∧ entries.map Prod.fst = hs ∧
      ∀ entry ∈ entries, g.node entry.1 = .ok entry.2 := by
  induction hs with
  | nil => exact ⟨[], rfl, rfl, nofun⟩
  | cons h rest ih =>
      obtain ⟨⟨n, hn⟩, hrest⟩ := List.forall_mem_cons.mp hlive
      obtain ⟨entries, hentries, hfst, hnodes⟩ := ih hrest
      refine ⟨(h, n) :: entries, ?_, by rw [List.map_cons, hfst],
        List.forall_mem_cons.mpr ⟨hn, hnodes⟩⟩
      rw [withNodes, hn, hentries]
      rfl

/-- Choosing among the entries of a walk is choosing among their handles. -/
theorem map_fst_filter {entries : List (Handle × Node)}
    (hentries : ∀ entry ∈ entries, g.node entry.1 = .ok entry.2) (p : Node → Bool) :
    (entries.filter fun entry => p entry.2).map Prod.fst =
      (entries.map Prod.fst).filter (g.holds p) := by
  rw [List.filter_map]
  congr 1
  exact List.filter_congr fun entry hentry => by simp [holds, hentries entry hentry]

/-- What a traversal from live roots gives: the depth-first post-order, and what is read off it. -/
structure Traversed (g : Graph) (roots : List Handle) : Prop where
  order : g.order roots = .ok (g.postorder roots)
  nodup : (g.postorder roots).Nodup
  mem_iff {h : Handle} : h ∈ g.postorder roots ↔ h ∈ g.below roots
  operandsFirst : g.OperandsFirst (fun _ => false) (g.postorder roots)
  /-- What is reached from earlier roots comes first. -/
  isPrefix {earlier later : List Handle} : roots = earlier ++ later →
    g.postorder earlier <+: g.postorder roots
  walk : ∃ entries, g.walk roots = .ok entries ∧ entries.map Prod.fst = g.postorder roots ∧
    ∀ entry ∈ entries, g.node entry.1 = .ok entry.2
  variablesBelow : ∃ found, g.variablesBelow roots = .ok found ∧ found.Nodup ∧
    (∀ x, x ∈ found ↔ g.IsVariable x ∧ x ∈ g.below roots) ∧
    found = (roots.flatMap g.uses).eraseDups
  operationCount : g.operationCount roots =
    .ok {h ∈ g.below roots | g.holds Node.isOperation h}.ncard

/-- The nodes below further roots come after those below earlier ones. -/
theorem postorder_prefix (g : Graph) (earlier later : List Handle) :
    g.postorder earlier <+: g.postorder (earlier ++ later) := by
  rw [postorder, postorder, List.foldl_append]
  generalize earlier.foldl (fun found h => g.present h found) [] = start
  induction later generalizing start with
  | nil => exact List.prefix_rfl
  | cons h rest ih => exact (prefix_present g h start).trans (ih _)

theorem WellFormed.mem_flatMap_uses_iff (hg : g.WellFormed)
    (hlive : ∀ root ∈ roots, g.Live root) {x : Handle} :
    x ∈ roots.flatMap g.uses ↔ g.IsVariable x ∧ x ∈ g.below roots := by
  rw [List.mem_flatMap]
  constructor
  · rintro ⟨root, hroot, hx⟩
    obtain ⟨hvar, hreach⟩ := (hg.mem_uses_iff (hlive root hroot)).mp hx
    exact ⟨hvar, root, hroot, hreach⟩
  · rintro ⟨hvar, root, hroot, hreach⟩
    exact ⟨root, hroot, (hg.mem_uses_iff (hlive root hroot)).mpr ⟨hvar, hreach⟩⟩

theorem WellFormed.traversed (hg : g.WellFormed) (hlive : ∀ root ∈ roots, g.Live root) :
    g.Traversed roots := by
  obtain ⟨hrun, horder⟩ := hg.order_eq_postorder hlive
  obtain ⟨entries, hentries, hfst, hnodes⟩ := withNodes_of_live fun _ => horder.live
  have hwalk : g.walk roots = .ok entries := by
    simp [Graph.walk, hrun, hentries, liftError, bind, Except.bind]
  have hvariables : g.variablesBelow roots = .ok (roots.flatMap g.uses).eraseDups := by
    simp only [Graph.variablesBelow, hwalk, bind, Except.bind, pure, Except.pure]
    rw [map_fst_filter hnodes, hfst, hg.filter_postorder hlive]
  exact {
    order := hrun
    nodup := horder.nodup
    mem_iff := horder.mem_iff
    operandsFirst := horder.operandsFirst
    isPrefix := fun hsplit => hsplit ▸ g.postorder_prefix _ _
    walk := ⟨entries, hwalk, hfst, hnodes⟩
    variablesBelow := ⟨_, hvariables, nodup_eraseDups _,
      fun x => List.mem_eraseDups.trans (hg.mem_flatMap_uses_iff hlive), rfl⟩
    operationCount := by
      simp only [Graph.operationCount, hwalk, bind, Except.bind, pure, Except.pure]
      rw [horder.ncard_filter, ← hfst, ← map_fst_filter hnodes, List.length_map] }

/-- A traversal is refused with an error. -/
structure TraversalRefused (g : Graph) (roots : List Handle) (e : GraphError) : Prop where
  order : g.order roots = .error (.refused e)
  walk : g.walk roots = .error (.refused e)
  variablesBelow : g.variablesBelow roots = .error (.refused e)
  operationCount : g.operationCount roots = .error (.refused e)

/-- The error of a list of handles is that of the first one that names no node. -/
theorem validate_of_split {before after : List Handle} {h : Handle} {e : GraphError}
    (hbefore : ∀ b ∈ before, g.Live b) (he : g.node h = .error e) :
    g.validate (before ++ h :: after) = .error e := by
  induction before with
  | nil => rw [List.nil_append, validate, he]; rfl
  | cons b before ih =>
      obtain ⟨⟨n, hn⟩, hbefore⟩ := List.forall_mem_cons.mp hbefore
      rw [List.cons_append, validate, hn]
      exact ih hbefore

/-- The first root that names no node gives the error. -/
theorem traversalRefused_of_split {before after : List Handle} {root : Handle} {e : GraphError}
    (hbefore : ∀ b ∈ before, g.Live b) (he : g.node root = .error e) :
    g.TraversalRefused (before ++ root :: after) e := by
  have horder : g.order (before ++ root :: after) = .error (.refused e) := by
    rw [Graph.order, validate_of_split hbefore he]
    rfl
  have hwalk : g.walk (before ++ root :: after) = .error (.refused e) := by
    rw [Graph.walk, horder]
    rfl
  refine ⟨horder, hwalk, ?_, ?_⟩
  · rw [Graph.variablesBelow, hwalk]
    rfl
  · rw [Graph.operationCount, hwalk]
    rfl

end Graph

end ExprGraph

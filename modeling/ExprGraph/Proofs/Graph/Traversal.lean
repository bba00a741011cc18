import Mathlib
import ExprGraph.Graph.Walk
import ExprGraph.Graph.Postorder
import ExprGraph.Proofs.Graph.WellFormed

/-!
# Traversal

A walk keeps its pending work in a list and gives up after a number of steps.  The same order by
plain recursion is `Presents`: a node that has been presented is passed over, any other is presented
after its operands.  On a well-formed graph a walk never runs out of steps and its order is that of
the recursion; so every node comes once, after its operands, and is reached from a root.
-/

namespace ExprGraph

theorem Op.arity_le (op : Op) : op.arity ≤ 3 := by
  cases op <;> decide

namespace Graph

/-- Presenting some nodes and what lies below them, from left to right, extends a list of presented
nodes by those that are not yet among them.  Operands that `skip` accepts are not looked at. -/
inductive Presents (g : Graph) (skip : Handle → Bool) :
    List Handle → List Handle → List Handle → Prop
  | nil (presented : List Handle) : Presents g skip [] presented presented
  | known {h : Handle} {rest presented result : List Handle} (hknown : h ∈ presented)
      (hrest : Presents g skip rest presented result) :
      Presents g skip (h :: rest) presented result
  | visit {h : Handle} {rest presented below result : List Handle} (hlive : g.Live h)
      (hnew : h ∉ presented)
      (hbelow : Presents g skip
        ((g.argsOf h).filter fun a => !presented.contains a && !skip a) presented below)
      (hrest : Presents g skip rest (below ++ [h]) result) :
      Presents g skip (h :: rest) presented result

theorem Extends.argsOf_eq {g g' : Graph} (hext : g.Extends g') {h : Handle} (hlive : g.Live h) :
    g'.argsOf h = g.argsOf h := by
  obtain ⟨n, hn⟩ := hlive
  rw [argsOf, argsOf, hn, hext.node_eq hn]

/-- Every node of an order comes after its operands, those aside that `skip` accepts. -/
def OperandsFirst (g : Graph) (skip : Handle → Bool) (order : List Handle) : Prop :=
  ∀ before h after, order = before ++ h :: after →
    ∀ a ∈ g.argsOf h, skip a = true ∨ a ∈ before

/-- What a walk from some roots presents. -/
structure IsOrder (g : Graph) (skip : Handle → Bool) (roots order : List Handle) : Prop where
  nodup : order.Nodup
  live {h : Handle} : h ∈ order → g.Live h
  mem {root : Handle} : root ∈ roots → root ∈ order
  operandsFirst : g.OperandsFirst skip order
  reached {h : Handle} : h ∈ order → ∃ root ∈ roots, g.Reaches root h

theorem argsOf_of_node {g : Graph} {h : Handle} {n : Node} (hn : g.node h = .ok n) :
    g.argsOf h = n.args := by
  simp [argsOf, hn]

theorem operands_of_live {g : Graph} {h : Handle} (hlive : g.Live h) :
    g.operands h = .ok (g.argsOf h) := by
  obtain ⟨n, hn⟩ := hlive
  simp [operands, argsOf, hn, bind, Except.bind, pure, Except.pure]

/-- Operands exist at applications only. -/
theorem exists_app_of_mem_argsOf {g : Graph} {h a : Handle} (ha : a ∈ g.argsOf h) :
    ∃ app, g.node h = .ok (.app app) ∧ a ∈ app.args := by
  unfold argsOf at ha
  split at ha
  · next n hn =>
    cases n with
    | var => cases ha
    | lit => cases ha
    | app app => exact ⟨app, hn, ha⟩
  · cases ha

namespace WellFormed

variable {g : Graph}

theorem live_of_mem_argsOf (hg : g.WellFormed) {h a : Handle} (ha : a ∈ g.argsOf h) :
    g.Live a := by
  obtain ⟨app, hn, ha⟩ := exists_app_of_mem_argsOf ha
  exact hg.live hn ha

theorem placeOf_lt_of_mem_argsOf (hg : g.WellFormed) {h a : Handle} (ha : a ∈ g.argsOf h) :
    g.placeOf a < g.placeOf h := by
  obtain ⟨app, hn, ha⟩ := exists_app_of_mem_argsOf ha
  exact hg.earlier hn ha

theorem length_argsOf_le (hg : g.WellFormed) (h : Handle) : (g.argsOf h).length ≤ 3 := by
  unfold argsOf
  split
  · next n hn =>
    cases n with
    | var => simp [Node.args]
    | lit => simp [Node.args]
    | app app =>
        rw [Node.args, hg.arity hn]
        exact app.op.arity_le
  · simp

theorem placeOf_le_of_reaches (hg : g.WellFormed) {h b : Handle} (hreach : g.Reaches h b) :
    g.placeOf b ≤ g.placeOf h := by
  induction hreach with
  | refl => exact Nat.le_refl _
  | step ha _ ih => exact ih.trans (hg.placeOf_lt_of_mem_argsOf ha).le

theorem live_of_reaches (hg : g.WellFormed) {h b : Handle} (hlive : g.Live h)
    (hreach : g.Reaches h b) : g.Live b := by
  induction hreach with
  | refl => exact hlive
  | step ha _ ih => exact ih (hg.live_of_mem_argsOf ha)

/-- What lies below a node stays the same. -/
theorem reaches_iff {g' : Graph} (hg : g.WellFormed) (hext : g.Extends g') {h b : Handle}
    (hlive : g.Live h) : g'.Reaches h b ↔ g.Reaches h b := by
  constructor
  · intro hreach
    induction hreach with
    | refl => exact .refl _
    | step ha _ ih =>
        rw [hext.argsOf_eq hlive] at ha
        exact .step ha (ih (hg.live_of_mem_argsOf ha))
  · intro hreach
    induction hreach with
    | refl => exact .refl _
    | step ha _ ih =>
        have ha' := ha
        rw [← hext.argsOf_eq hlive] at ha'
        exact .step ha' (ih (hg.live_of_mem_argsOf ha))

/-- No node lies below its own operands. -/
theorem not_reaches_of_mem_argsOf (hg : g.WellFormed) {h a : Handle} (ha : a ∈ g.argsOf h) :
    ¬ g.Reaches a h := by
  intro hreach
  exact absurd (hg.placeOf_le_of_reaches hreach) (hg.placeOf_lt_of_mem_argsOf ha).not_ge

end WellFormed

theorem OperandsFirst.concat {g : Graph} {skip : Handle → Bool} {order : List Handle} {h : Handle}
    (horder : g.OperandsFirst skip order)
    (hargs : ∀ a ∈ g.argsOf h, skip a = true ∨ a ∈ order) :
    g.OperandsFirst skip (order ++ [h]) := by
  intro before b after hsplit a ha
  rcases List.eq_nil_or_concat after with rfl | ⟨tail, last, rfl⟩
  · obtain ⟨rfl, hlast⟩ := List.append_inj' hsplit rfl
    obtain rfl : h = b := by simpa using hlast
    exact hargs a ha
  · have hsplit' : order ++ [h] = (before ++ b :: tail) ++ [last] := by
      simpa [List.concat_eq_append] using hsplit
    obtain ⟨hinit, -⟩ := List.append_inj' hsplit' rfl
    exact horder before b tail hinit a ha

namespace Presents

variable {g : Graph} {skip : Handle → Bool} {hs presented result : List Handle}

theorem isPrefix (hp : g.Presents skip hs presented result) : presented <+: result := by
  induction hp with
  | nil => exact List.prefix_rfl
  | known _ _ ih => exact ih
  | visit _ _ _ _ ihbelow ihrest =>
      exact ihbelow.trans ((List.prefix_append _ _).trans ihrest)

theorem mem_of_mem (hp : g.Presents skip hs presented result) :
    ∀ h ∈ hs, h ∈ result := by
  induction hp with
  | nil => simp
  | known hknown hrest ih =>
      exact List.forall_mem_cons.mpr ⟨hrest.isPrefix.subset hknown, ih⟩
  | visit _ _ _ hrest _ ihrest =>
      exact List.forall_mem_cons.mpr ⟨hrest.isPrefix.subset (by simp), ihrest⟩

theorem live (hp : g.Presents skip hs presented result) (hstart : ∀ h ∈ presented, g.Live h) :
    ∀ h ∈ result, g.Live h := by
  induction hp with
  | nil => exact hstart
  | known _ _ ih => exact ih hstart
  | visit hlive _ _ _ ihbelow ihrest =>
      apply ihrest
      intro h hh
      rcases List.mem_append.mp hh with hold | hnew
      · exact ihbelow hstart h hold
      · exact List.mem_singleton.mp hnew ▸ hlive

theorem reached (hp : g.Presents skip hs presented result) :
    ∀ b ∈ result, b ∈ presented ∨ ∃ h ∈ hs, g.Reaches h b := by
  induction hp with
  | nil => exact fun b hb => .inl hb
  | known _ _ ih =>
      intro b hb
      exact (ih b hb).imp_right fun ⟨h, hh, hreach⟩ => ⟨h, List.mem_cons_of_mem _ hh, hreach⟩
  | @visit root rest presented below result _ _ _ _ ihbelow ihrest =>
      intro b hb
      rcases ihrest b hb with hmem | ⟨h, hh, hreach⟩
      · rcases List.mem_append.mp hmem with hold | hself
        · apply (ihbelow b hold).imp_right
          rintro ⟨a, ha, hreach⟩
          exact ⟨root, List.mem_cons_self, .step (List.mem_of_mem_filter ha) hreach⟩
        · rw [List.mem_singleton.mp hself]
          exact .inr ⟨root, List.mem_cons_self, .refl root⟩
      · exact .inr ⟨h, List.mem_cons_of_mem _ hh, hreach⟩

/-- A node is not presented while its operands are. -/
theorem not_mem_below {h : Handle} {below : List Handle} (hg : g.WellFormed) (hnew : h ∉ presented)
    (hbelow : g.Presents skip
      ((g.argsOf h).filter fun a => !presented.contains a && !skip a) presented below) :
    h ∉ below := by
  intro hmem
  rcases hbelow.reached h hmem with hold | ⟨a, ha, hreach⟩
  · exact hnew hold
  · exact hg.not_reaches_of_mem_argsOf (List.mem_of_mem_filter ha) hreach

theorem nodup (hg : g.WellFormed) (hp : g.Presents skip hs presented result)
    (hstart : presented.Nodup) : result.Nodup := by
  induction hp with
  | nil => exact hstart
  | known _ _ ih => exact ih hstart
  | visit _ hnew hbelow _ ihbelow ihrest =>
      apply ihrest
      rw [← List.concat_eq_append]
      exact (ihbelow hstart).concat (not_mem_below hg hnew hbelow)

theorem operandsFirst (hp : g.Presents skip hs presented result)
    (hstart : g.OperandsFirst skip presented) : g.OperandsFirst skip result := by
  induction hp with
  | nil => exact hstart
  | known _ _ ih => exact ih hstart
  | @visit h rest presented below result _ _ hbelow _ ihbelow ihrest =>
      refine ihrest ((ihbelow hstart).concat fun a ha => ?_)
      by_cases hskip : skip a = true
      · exact .inl hskip
      by_cases hold : a ∈ presented
      · exact .inr (hbelow.isPrefix.subset hold)
      · refine .inr (hbelow.mem_of_mem a (List.mem_filter.mpr ⟨ha, ?_⟩))
        simp [hskip, hold]

theorem isOrder (hg : g.WellFormed) (hp : g.Presents skip hs [] result) :
    g.IsOrder skip hs result where
  nodup := hp.nodup hg List.nodup_nil
  live := hp.live (by simp) _
  mem := hp.mem_of_mem _
  operandsFirst := hp.operandsFirst (by simp [OperandsFirst])
  reached hmem := (hp.reached _ hmem).resolve_left (by simp)

/-- Live nodes can be presented, whatever has been presented before. -/
theorem exists_of_live (hg : g.WellFormed) (skip : Handle → Bool) (hs presented : List Handle)
    (hlive : ∀ h ∈ hs, g.Live h) : ∃ result, g.Presents skip hs presented result := by
  have hbounded : ∀ bound, ∀ hs : List Handle, (∀ h ∈ hs, g.Live h ∧ g.placeOf h < bound) →
      ∀ presented, ∃ result, g.Presents skip hs presented result := by
    intro bound
    induction bound with
    | zero =>
        intro hs hbound presented
        cases hs with
        | nil => exact ⟨presented, .nil presented⟩
        | cons h rest => exact absurd (hbound h List.mem_cons_self).2 (Nat.not_lt_zero _)
    | succ bound ih =>
        intro hs hbound
        induction hs with
        | nil => exact fun presented => ⟨presented, .nil presented⟩
        | cons h rest ihrest =>
            intro presented
            obtain ⟨hhead, hrest⟩ := List.forall_mem_cons.mp hbound
            by_cases hknown : h ∈ presented
            · obtain ⟨result, hresult⟩ := ihrest hrest presented
              exact ⟨result, .known hknown hresult⟩
            · obtain ⟨below, hbelow⟩ :=
                ih ((g.argsOf h).filter fun a => !presented.contains a && !skip a)
                  (fun a ha => by
                    have hmem := List.mem_of_mem_filter ha
                    have hplace := hg.placeOf_lt_of_mem_argsOf hmem
                    exact ⟨hg.live_of_mem_argsOf hmem, by omega⟩) presented
              obtain ⟨result, hresult⟩ := ihrest hrest (below ++ [h])
              exact ⟨result, .visit hhead.1 hknown hbelow hresult⟩
  exact hbounded g.nodes.size hs (fun h hh => ⟨hlive h hh, placeOf_lt_of_live (hlive h hh)⟩)
    presented

/-- The walk takes the same operands to be fresh as the recursion does. -/
theorem filter_fresh_eq {args presented busy : List Handle} {entered : Std.HashSet Handle}
    (hentered : ∀ x, x ∈ entered ↔ x ∈ presented ∨ x ∈ busy) (hargs : ∀ a ∈ args, a ∉ busy) :
    (args.filter fun a => !entered.contains a && !skip a) =
      args.filter fun a => !presented.contains a && !skip a := by
  apply List.filter_congr
  intro a ha
  have hsame : entered.contains a = presented.contains a := by
    rw [Bool.eq_iff_iff, Std.HashSet.contains_iff_mem, hentered, List.contains_iff_mem,
      or_iff_left (hargs a ha)]
  rw [hsame]

/-- A walk with `hs` on top of its pending work presents them within a bounded number of steps: one
for every node of `hs`, four for every node presented.  Nodes in `busy` have been entered and not
yet left, so they lie above all of `hs`. -/
theorem walkFrom_eq (hg : g.WellFormed) (hp : g.Presents skip hs presented result)
    (busy : List Handle) (hbusy : ∀ h ∈ hs, ∀ b ∈ busy, g.placeOf h < g.placeOf b)
    (entered : Std.HashSet Handle)
    (hentered : ∀ x, x ∈ entered ↔ x ∈ presented ∨ x ∈ busy) :
    ∃ cost entered', cost ≤ hs.length + 4 * (result.length - presented.length) ∧
      (∀ x, x ∈ entered' ↔ x ∈ result ∨ x ∈ busy) ∧
      ∀ steps rest,
        g.walkFrom skip (steps + cost) ⟨hs.map .enter ++ rest, entered, presented.toArray⟩ =
          g.walkFrom skip steps ⟨rest, entered', result.toArray⟩ := by
  induction hp generalizing busy entered with
  | nil => exact ⟨0, entered, Nat.zero_le _, hentered, fun _ _ => rfl⟩
  | @known h rest presented result hknown hrest ih =>
      obtain ⟨hhead, hbusy⟩ := List.forall_mem_cons.mp hbusy
      obtain ⟨cost, entered', hcost, hentered', hwalk⟩ := ih busy hbusy entered hentered
      have hin : entered.contains h = true :=
        Std.HashSet.contains_iff_mem.mpr ((hentered h).mpr (.inl hknown))
      refine ⟨cost + 1, entered', ?_, hentered', fun steps rest => ?_⟩
      · rw [List.length_cons]
        omega
      · rw [← Nat.add_assoc, List.map_cons, List.cons_append, walkFrom]
        dsimp only
        rw [if_pos hin]
        exact hwalk steps rest
  | @visit h rest presented below result hlive hnew hbelow hrest ihbelow ihrest =>
      obtain ⟨hhead, hbusy⟩ := List.forall_mem_cons.mp hbusy
      have hplace : ∀ a ∈ g.argsOf h, ∀ b ∈ h :: busy, g.placeOf a < g.placeOf b := by
        intro a ha
        have hself := hg.placeOf_lt_of_mem_argsOf ha
        exact List.forall_mem_cons.mpr ⟨hself, fun b hb => hself.trans (hhead b hb)⟩
      have hnotBusy : h ∉ busy := fun hmem => Nat.lt_irrefl _ (hhead h hmem)
      have hinsert : ∀ x, x ∈ entered.insert h ↔ x ∈ presented ∨ x ∈ h :: busy := by
        intro x
        rw [Std.HashSet.mem_insert, hentered, List.mem_cons, beq_iff_eq]
        tauto
      obtain ⟨costBelow, enteredBelow, hcostBelow, hinBelow, hwalkBelow⟩ :=
        ihbelow (h :: busy) (fun a ha => hplace a (List.mem_of_mem_filter ha))
          (entered.insert h) hinsert
      obtain ⟨costRest, enteredRest, hcostRest, hinRest, hwalkRest⟩ :=
        ihrest busy hbusy enteredBelow fun x => by
          rw [hinBelow, List.mem_append, List.mem_singleton, List.mem_cons]
          tauto
      have hfresh : ((g.argsOf h).filter fun a => !(entered.insert h).contains a && !skip a) =
          (g.argsOf h).filter fun a => !presented.contains a && !skip a :=
        filter_fresh_eq hinsert fun a ha hmem => Nat.lt_irrefl _ (hplace a ha a hmem)
      have hout : entered.contains h = false := by
        rw [Bool.eq_false_iff, ne_eq, Std.HashSet.contains_iff_mem, hentered]
        exact fun hmem => hmem.elim hnew hnotBusy
      refine ⟨1 + costRest + 1 + costBelow, enteredRest, ?_, hinRest, fun steps pending => ?_⟩
      · have hlow := hbelow.isPrefix.length_le
        have hhigh := hrest.isPrefix.length_le
        have hfew := (List.length_filter_le
          (fun a => !presented.contains a && !skip a) (g.argsOf h)).trans (hg.length_argsOf_le h)
        rw [List.length_append, List.length_singleton] at hhigh hcostRest
        rw [List.length_cons]
        omega
      · have hsteps : steps + (1 + costRest + 1 + costBelow) =
            (steps + costRest + 1 + costBelow) + 1 := by omega
        rw [hsteps, List.map_cons, List.cons_append, walkFrom]
        dsimp only
        rw [hout, if_neg Bool.false_ne_true, operands_of_live hlive]
        dsimp only
        rw [hfresh]
        rw [hwalkBelow, walkFrom]
        dsimp only
        rw [List.push_toArray]
        exact hwalkRest steps pending

end Presents

theorem IsOrder.length_le {g : Graph} {skip : Handle → Bool} {roots order : List Handle}
    (horder : g.IsOrder skip roots order) : order.length ≤ g.size := by
  have hplaces : (order.map g.placeOf).Nodup := by
    apply (List.nodup_map_iff_inj_on horder.nodup).mpr
    intro h hh h' hh' hplace
    exact eq_of_placeOf_eq (horder.live hh) (horder.live hh') hplace
  have hsub : order.map g.placeOf ⊆ List.range g.size := by
    intro place hplace
    obtain ⟨h, hh, rfl⟩ := List.mem_map.mp hplace
    exact List.mem_range.mpr (placeOf_lt_of_live (horder.live hh))
  have hlength := (hplaces.subperm hsub).length_le
  rwa [List.length_map, List.length_range] at hlength

/-- A list that holds a node after its operands holds what lies below the node. -/
theorem OperandsFirst.mem_of_reaches {g : Graph} {order : List Handle}
    (horder : g.OperandsFirst (fun _ => false) order) {h b : Handle} (hh : h ∈ order)
    (hreach : g.Reaches h b) : b ∈ order := by
  induction hreach with
  | refl => exact hh
  | @step user a _ ha _ ih =>
      obtain ⟨before, after, hsplit⟩ := List.append_of_mem hh
      have hbefore := (horder before user after hsplit a ha).resolve_left Bool.false_ne_true
      exact ih (hsplit ▸ List.mem_append_left _ hbefore)

/-- A walk that skips nothing presents what is reached from a root. -/
theorem IsOrder.mem_iff {g : Graph} {roots order : List Handle} {h : Handle}
    (horder : g.IsOrder (fun _ => false) roots order) :
    h ∈ order ↔ ∃ root ∈ roots, g.Reaches root h := by
  refine ⟨horder.reached, ?_⟩
  rintro ⟨root, hroot, hreach⟩
  exact horder.operandsFirst.mem_of_reaches (horder.mem hroot) hreach

/-- A walk from live roots does what the recursion does. -/
theorem WellFormed.orderSkipping_presents {g : Graph} (hg : g.WellFormed) (skip : Handle → Bool)
    {roots : List Handle} (hlive : ∀ root ∈ roots, g.Live root) :
    ∃ order, g.orderSkipping skip roots = .ok order ∧ g.Presents skip roots [] order := by
  obtain ⟨order, hpresents⟩ := Presents.exists_of_live hg skip roots [] hlive
  obtain ⟨cost, entered, hcost, -, hwalk⟩ :=
    hpresents.walkFrom_eq hg [] (by simp) {} (by simp)
  refine ⟨order, ?_, hpresents⟩
  have hroom : ∃ spare, g.walkSteps roots = (spare + 1) + cost := by
    have hlength := (hpresents.isOrder hg).length_le
    rw [List.length_nil, Nat.sub_zero] at hcost
    exact ⟨g.walkSteps roots - 1 - cost, by rw [walkSteps]; omega⟩
  obtain ⟨spare, hspare⟩ := hroom
  have hrun := hwalk (spare + 1) []
  rw [List.append_nil] at hrun
  rw [orderSkipping, hspare]
  exact hrun.trans (by rw [walkFrom])

/-- Roots that have been presented before may be left out. -/
theorem foldl_present_filter (g : Graph) {presented start : List Handle} (roots : List Handle)
    (hstart : ∀ h ∈ presented, h ∈ start) :
    (roots.filter fun h => !presented.contains h).foldl (fun found h => g.present h found) start =
      roots.foldl (fun found h => g.present h found) start := by
  induction roots generalizing start with
  | nil => rfl
  | cons root rest ih =>
      rw [List.foldl_cons]
      by_cases hroot : root ∈ presented
      · rw [List.filter_cons_of_neg (by simpa using hroot), present_of_mem (hstart root hroot)]
        exact ih hstart
      · rw [List.filter_cons_of_pos (by simpa using hroot), List.foldl_cons]
        exact ih fun h hh => (prefix_present g root start).subset (hstart h hh)

/-- A visit of a new node presents its operands, from left to right, and then the node. -/
theorem WellFormed.present_of_not_mem {g : Graph} (hg : g.WellFormed) {h : Handle}
    {presented : List Handle} (hnew : h ∉ presented) :
    g.present h presented =
      (g.argsOf h).foldl (fun found a => g.present a found) presented ++ [h] := by
  rw [present, if_neg hnew]
  congr 1
  apply List.foldl_ext
  intro found a ha
  rw [if_pos (hg.placeOf_lt_of_mem_argsOf ha)]

theorem WellFormed.present_eq {g : Graph} (hg : g.WellFormed) (h : Handle)
    (presented : List Handle) :
    g.present h presented =
      if h ∈ presented then presented
      else (g.argsOf h).foldl (fun found a => g.present a found) presented ++ [h] := by
  split
  · next hknown => exact present_of_mem hknown
  · next hnew => exact hg.present_of_not_mem hnew

/-- The relation presents what the recursion does. -/
theorem Presents.foldl_present {g : Graph} (hg : g.WellFormed) {hs presented result : List Handle}
    (hp : g.Presents (fun _ => false) hs presented result) :
    hs.foldl (fun found h => g.present h found) presented = result := by
  induction hp with
  | nil => rfl
  | known hknown _ ih => rw [List.foldl_cons, present_of_mem hknown, ih]
  | visit _ hnew _ _ ihbelow ihrest =>
      simp only [Bool.not_false, Bool.and_true] at ihbelow
      rw [foldl_present_filter g _ fun _ hh => hh] at ihbelow
      rw [List.foldl_cons, hg.present_of_not_mem hnew, ihbelow, ihrest]

/-- A walk from live roots ends with an order. -/
theorem WellFormed.orderSkipping_eq {g : Graph} (hg : g.WellFormed) (skip : Handle → Bool)
    {roots : List Handle} (hlive : ∀ root ∈ roots, g.Live root) :
    ∃ order, g.orderSkipping skip roots = .ok order ∧ g.IsOrder skip roots order := by
  obtain ⟨order, hrun, hpresents⟩ := hg.orderSkipping_presents skip hlive
  exact ⟨order, hrun, hpresents.isOrder hg⟩

theorem WellFormed.order_eq {g : Graph} (hg : g.WellFormed) {roots : List Handle}
    (hlive : ∀ root ∈ roots, g.Live root) :
    ∃ order, g.order roots = .ok order ∧ g.IsOrder (fun _ => false) roots order := by
  obtain ⟨order, hrun, horder⟩ := hg.orderSkipping_eq (fun _ => false) hlive
  refine ⟨order, ?_, horder⟩
  rw [Graph.order, validate_eq_ok_iff.mpr hlive]
  exact hrun

/-- The order of a walk from live roots is the depth-first post-order. -/
theorem WellFormed.order_eq_postorder {g : Graph} (hg : g.WellFormed) {roots : List Handle}
    (hlive : ∀ root ∈ roots, g.Live root) :
    g.order roots = .ok (g.postorder roots) ∧
      g.IsOrder (fun _ => false) roots (g.postorder roots) := by
  obtain ⟨order, hrun, hpresents⟩ := hg.orderSkipping_presents (fun _ => false) hlive
  have hsame : g.postorder roots = order := hpresents.foldl_present hg
  rw [hsame, Graph.order, validate_eq_ok_iff.mpr hlive]
  exact ⟨hrun, hpresents.isOrder hg⟩

end Graph

end ExprGraph

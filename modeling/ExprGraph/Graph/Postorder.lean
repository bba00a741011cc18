import ExprGraph.Graph.Basic

/-!
# Reachability and post-order

What lies below a node, and the depth-first post-order by plain recursion: a node is presented
after its operands from left to right, unless it has been presented before.
-/

namespace ExprGraph

namespace Graph

/-- The operands of a node; none of a leaf, or when the handle names no node. -/
def argsOf (g : Graph) (h : Handle) : List Handle :=
  match g.node h with
  | .ok n => n.args
  | .error _ => []

/-- A node is reached from itself and from every user of a node it is reached from. -/
inductive Reaches (g : Graph) : Handle → Handle → Prop
  | refl (h : Handle) : Reaches g h h
  | step {h a b : Handle} : a ∈ g.argsOf h → Reaches g a b → Reaches g h b

theorem Reaches.trans {g : Graph} {a b c : Handle} (hab : g.Reaches a b) (hbc : g.Reaches b c) :
    g.Reaches a c := by
  induction hab with
  | refl => exact hbc
  | step harg _ ih => exact .step harg (ih hbc)

/-- Extends a list of presented nodes by a node and what lies below it. -/
def present (g : Graph) (h : Handle) (presented : List Handle) : List Handle :=
  if h ∈ presented then presented
  else
    (g.argsOf h).foldl
      (fun presented a =>
        if g.placeOf a < g.placeOf h then g.present a presented else presented)
      presented ++ [h]
termination_by g.placeOf h

/-- The depth-first post-order of what lies below some roots. -/
def postorder (g : Graph) (roots : List Handle) : List Handle :=
  roots.foldl (fun presented root => g.present root presented) []

theorem present_of_mem {g : Graph} {h : Handle} {presented : List Handle} (hh : h ∈ presented) :
    g.present h presented = presented := by
  rw [present, if_pos hh]

/-- A node is presented by its own visit. -/
theorem mem_present_self (g : Graph) (h : Handle) (presented : List Handle) :
    h ∈ g.present h presented := by
  rw [present]
  split
  · assumption
  · simp

/-- A visit keeps what has been presented, in its order. -/
theorem prefix_present (g : Graph) (h : Handle) (presented : List Handle) :
    presented <+: g.present h presented := by
  fun_induction present g h presented with
  | case1 => exact List.prefix_rfl
  | case2 h presented _ ih =>
    have hfold : ∀ (args : List Handle) (start : List Handle),
        start <+: args.foldl
          (fun presented a =>
            if g.placeOf a < g.placeOf h then g.present a presented else presented) start := by
      intro args
      induction args with
      | nil => exact fun start => List.prefix_rfl
      | cons a rest ihrest =>
        intro start
        refine List.IsPrefix.trans ?_ (ihrest _)
        dsimp only
        split
        · next hplace => exact ih start a hplace
        · exact List.prefix_rfl
    exact (hfold _ presented).trans (List.prefix_append _ _)

end Graph

end ExprGraph

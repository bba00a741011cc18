import ExprGraph.Graph.Basic
import ExprGraph.Interpretation

/-!
# Meaning

The value of a node under an interpretation, by recursion from a node to its operands.  A node has
a value when all variables below it have one.  The recursion goes to earlier nodes only, so it
ends on every graph; operands of nodes that were built are earlier.
-/

namespace ExprGraph

universe u

namespace Graph

variable {α : Type u}

/-- The value of a node, given the values of variables. -/
def value? (g : Graph) (interp : Interpretation α) (assign : Handle → Option α) (h : Handle) :
    Option α :=
  match g.node h with
  | .error _ => none
  | .ok (.var ..) => assign h
  | .ok (.lit v) => some (interp.literal v)
  | .ok (.app app) => do
    let values ← app.args.mapM fun a =>
      if g.placeOf a < g.placeOf h then g.value? interp assign a else none
    interp.applied? app.op values
termination_by g.placeOf h

theorem value?_of_error {g : Graph} {interp : Interpretation α} {assign : Handle → Option α}
    {h : Handle} {e : GraphError} (hn : g.node h = .error e) : g.value? interp assign h = none := by
  rw [value?, hn]

theorem value?_of_var {g : Graph} {interp : Interpretation α} {assign : Handle → Option α}
    {h : Handle} {id : Nat} {name : String} (hn : g.node h = .ok (.var id name)) :
    g.value? interp assign h = assign h := by
  rw [value?, hn]

theorem value?_of_lit {g : Graph} {interp : Interpretation α} {assign : Handle → Option α}
    {h : Handle} {v : Float} (hn : g.node h = .ok (.lit v)) :
    g.value? interp assign h = some (interp.literal v) := by
  rw [value?, hn]

/-- The value of an application whose operands were made before it. -/
theorem value?_of_app {g : Graph} {interp : Interpretation α} {assign : Handle → Option α}
    {h : Handle} {app : Application} (hn : g.node h = .ok (.app app))
    (hearlier : ∀ a ∈ app.args, g.placeOf a < g.placeOf h) :
    g.value? interp assign h =
      (app.args.mapM fun a => g.value? interp assign a) >>= interp.applied? app.op := by
  have hargs : ∀ args : List Handle, (∀ a ∈ args, g.placeOf a < g.placeOf h) →
      (args.mapM fun a =>
        if g.placeOf a < g.placeOf h then g.value? interp assign a else none) =
      args.mapM fun a => g.value? interp assign a := by
    intro args hall
    induction args with
    | nil => rfl
    | cons a rest ih =>
      simp only [List.mapM_cons]
      rw [if_pos (hall a (by simp)), ih fun b hb => hall b (by simp [hb])]
  rw [value?, hn]
  simp only [hargs app.args hearlier]

end Graph

end ExprGraph

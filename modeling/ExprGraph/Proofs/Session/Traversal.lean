import Mathlib
import ExprGraph.Proofs.Graph.Below
import ExprGraph.Proofs.Session.Independence

/-!
# Traversals in sessions

On every graph that requests lead to, a walk with its list of pending work comes to an end and gives
the depth-first post-order of the plain recursion.  So it meets every node below the roots once and
after its operands, and the variables in the order in which the expressions use them first.
-/

namespace ExprGraph

open ExprGraph.Graph

namespace Session

variable {s : Session} {graph : Nat} {g : Graph}

/-- A walk from live roots gives the order of the recursion and what is read off it; of roots that
are not all live the first one that is not gives the error.  The recursions behind `postorder` and
`uses` go to the operands without condition here. -/
theorem Reachable.traversal (hs : s.Reachable) (hg : s.graph? graph = some g) :
    (∀ h presented, g.present h presented =
      if h ∈ presented then presented
      else (g.argsOf h).foldl (fun found a => g.present a found) presented ++ [h]) ∧
    (∀ h, g.uses h =
      if g.holds Node.isVariable h then [h] else (g.argsOf h).flatMap g.uses) ∧
    (∀ roots, (∀ root ∈ roots, g.Live root) → g.Traversed roots) ∧
    ∀ before root after e, (∀ b ∈ before, g.Live b) → g.node root = .error e →
      g.TraversalRefused (before ++ root :: after) e := by
  have hwf := hs.wellFormed.graph hg
  exact ⟨hwf.present_eq, hwf.uses_eq, fun roots => hwf.traversed,
    fun before root after e => traversalRefused_of_split⟩

/-- The power comes after its operands although it is the first root, and once although it is the
last root too.  Of two unusable roots the first gives the error. -/
theorem traversal_cube :
    let x : Handle := ⟨0, 0, 1⟩
    let three : Handle := ⟨1, 0, 1⟩
    let power : Handle := ⟨2, 0, 1⟩
    cube.Reachable ∧ cube.graph? 0 = some cubeGraph ∧
    (∀ root ∈ [power, x, power], cubeGraph.Live root) ∧
    cubeGraph.order [power, x, power] = .ok [x, three, power] ∧
    cubeGraph.variablesBelow [power, x, power] = .ok [x] ∧
    (∀ b ∈ [power], cubeGraph.Live b) ∧
    cubeGraph.node ⟨7, 0, 1⟩ = .error (.staleNode 0 0) ∧
    cubeGraph.order [power, ⟨7, 0, 1⟩, ⟨0, 0, 2⟩] = .error (.refused (.staleNode 0 0)) := by
  intro x three power
  obtain ⟨hpresent, huses, htraversed, hrefused⟩ := reachable_cube.traversal graph?_cube
  have hlive : ∀ root ∈ [power, x, power], cubeGraph.Live root := by
    simp only [List.forall_mem_cons]
    exact ⟨⟨_, rfl⟩, ⟨_, rfl⟩, ⟨_, rfl⟩, nofun⟩
  have hx : ∀ presented, cubeGraph.present x presented =
      if x ∈ presented then presented else presented ++ [x] := hpresent x
  have hthree : ∀ presented, cubeGraph.present three presented =
      if three ∈ presented then presented else presented ++ [three] := hpresent three
  have hpower : ∀ presented, cubeGraph.present power presented =
      if power ∈ presented then presented
      else cubeGraph.present three (cubeGraph.present x presented) ++ [power] := hpresent power
  have horder : cubeGraph.postorder [power, x, power] = [x, three, power] := by
    simp only [postorder, List.foldl_cons, List.foldl_nil, hpower, hx, hthree]
    rfl
  have huseX : cubeGraph.uses x = [x] := huses x
  have huseThree : cubeGraph.uses three = [] := huses three
  have husePower : cubeGraph.uses power = [x] := by
    have hargs : cubeGraph.uses power = cubeGraph.uses x ++ (cubeGraph.uses three ++ []) :=
      huses power
    rw [hargs, huseX, huseThree]
    rfl
  obtain ⟨found, hfound, -, -, hfirst⟩ := (htraversed _ hlive).variablesBelow
  have hvars : found = [x] := by
    simp only [hfirst, List.flatMap_cons, List.flatMap_nil, huseX, husePower]
    rfl
  have hstale : cubeGraph.node ⟨7, 0, 1⟩ = .error (.staleNode 0 0) := rfl
  have hbefore : ∀ b ∈ [power], cubeGraph.Live b := List.forall_mem_singleton.mpr ⟨_, rfl⟩
  exact ⟨reachable_cube, graph?_cube, hlive, horder ▸ (htraversed _ hlive).order,
    hvars ▸ hfound, hbefore, hstale, (hrefused _ _ _ _ hbefore hstale).order⟩

end Session

end ExprGraph

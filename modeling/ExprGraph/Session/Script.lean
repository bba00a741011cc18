import ExprGraph.Session.Basic

/-!
# Scripts

A script is a list of building calls whose operands are results of its own earlier steps.  It names
them by their numbers, so it can be run on any graph.  What a run shows is, for every step, what the
step has given and how many nodes the graph has after it.
-/

namespace ExprGraph

/-- A building call, with the numbers of earlier results as operands. -/
inductive ScriptStep where
  | declare (name : String)
  | declareMany (stem : String) (count : Nat)
  | literal (value : Float)
  | operation (op : Op) (args : List Nat)
  | powLiteral (a : Nat) (exponent : Float)
  | square (a : Nat)
  | scale (factor : Float) (a : Nat)
  | sum (terms : List Nat)
  | product (factors : List Nat)
  | dot (left right : List Nat)
deriving DecidableEq

namespace ScriptStep

/-- The numbers of the results a step uses. -/
def uses : ScriptStep → List Nat
  | declare _ | declareMany _ _ | literal _ => []
  | operation _ args => args
  | powLiteral a _ | square a | scale _ a => [a]
  | sum nodes | product nodes => nodes
  | dot left right => left ++ right

/-- The call of a step, given the results by their numbers. -/
def call (result : Nat → Handle) : ScriptStep → Call
  | declare name => .declare name
  | declareMany stem count => .declareMany stem count
  | literal v => .literal v
  | operation op args => .operation op (args.map result)
  | powLiteral a exponent => .powLiteral (result a) exponent
  | square a => .square (result a)
  | scale factor a => .scale factor (result a)
  | sum terms => .sum (terms.map result)
  | product factors => .product (factors.map result)
  | dot left right => .dot (left.map result) (right.map result)

end ScriptStep

/-- What a step of a script shows. -/
structure ScriptOutcome where
  /-- The handles the step has given, or its failure. -/
  answer : Except Failure (List Handle)
  /-- The number of nodes after the step; nothing if there is no such graph. -/
  size : Option Nat

/-- The handles a step has given; none if it has failed. -/
def ScriptOutcome.results (outcome : ScriptOutcome) : List Handle :=
  match outcome.answer with
  | .ok handles => handles
  | .error _ => []

/-- A session on which a script is being run. -/
structure ScriptRun where
  session : Session
  /-- What the steps so far have shown. -/
  outcomes : List ScriptOutcome := []

namespace ScriptRun

/-- The results of all steps so far, in order. -/
def results (r : ScriptRun) : List Handle := r.outcomes.flatMap ScriptOutcome.results

/-- Takes down what a step has shown. -/
def record (graph : Nat) (r : ScriptRun) (answer : Except Failure Answer) (session : Session) :
    ScriptRun where
  session := session
  outcomes := r.outcomes ++ [⟨answer.map Answer.toList, (session.graph? graph).map Graph.size⟩]

/-- Runs a step on a graph.  A step that uses a result there is none of does nothing. -/
def step (graph : Nat) (r : ScriptRun) (step : ScriptStep) : ScriptRun :=
  if ∀ number ∈ step.uses, number < r.results.length then
    let (answer, session) :=
      r.session.step (.call graph none (step.call fun number => r.results.getD number default))
    r.record graph answer session
  else r.record graph (.error (.fault .missingEntry)) r.session

end ScriptRun

/-- Runs a script on a graph of a session. -/
def Session.runScript (s : Session) (graph : Nat) (script : List ScriptStep) : ScriptRun :=
  script.foldl (ScriptRun.step graph) { session := s }

end ExprGraph

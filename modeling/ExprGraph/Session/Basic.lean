import ExprGraph.Session.Call

/-!
# Sessions

A session holds several graphs and memos.  The graphs draw the ids of their variables from one
supply, so variables of different graphs are told apart, and every graph has an identity of its
own.
-/

namespace ExprGraph

/-- Some graphs and memos that are in use together. -/
structure Session where
  graphs : Array Graph := #[]
  memos : Array Memo := #[]
  /-- The identity of the next graph. -/
  nextGraph : UInt32 := 1
  /-- The id of the next variable of any graph. -/
  nextVariable : Nat := 1

/-- A step of a session.  Graphs and memos are named by their numbers. -/
inductive Request where
  | newGraph (folds : Bool)
  | clear (graph : Nat)
  | newMemo
  | resetMemo (memo : Nat)
  /-- Runs a call on a graph, with a memo or with a fresh one that is dropped afterwards. -/
  | call (graph : Nat) (memo : Option Nat) (call : Call)
deriving DecidableEq

namespace Session

/-- A session without graphs and memos. -/
def start : Session := {}

/-- The graph of a number, drawing from the supply of the session. -/
def graph? (s : Session) (graph : Nat) : Option Graph :=
  s.graphs[graph]?.map fun g => { g with nextVariable := s.nextVariable }

/-- The memo a call uses. -/
def memoFor (s : Session) (memo : Option Nat) : Memo :=
  ((memo.bind fun index => s.memos[index]?)).getD Memo.empty

/-- The session without the graph and memo that a call is at work on, which leaves the call their
only owner. -/
def lend (s : Session) (graph : Nat) (memo : Option Nat) : Session :=
  { s with
    graphs := s.graphs.setIfInBounds graph (Graph.empty 0 true)
    memos := match memo with
      | some index => s.memos.setIfInBounds index Memo.empty
      | none => s.memos }

/-- The session after a call has left its graph and memo as given. -/
def store (s : Session) (graph : Nat) (memo : Option Nat) (w : Workspace) : Session :=
  { s with
    graphs := s.graphs.setIfInBounds graph w.graph
    memos := match memo with
      | some index => s.memos.setIfInBounds index w.memo
      | none => s.memos
    nextVariable := w.graph.nextVariable }

/-- Runs a request.  The session as it has become stays, also when the request fails. -/
def step (s : Session) : Request → Except Failure Answer × Session
  | .newGraph folds =>
    (.ok .done,
      { s with
        graphs := s.graphs.push (Graph.empty s.nextGraph folds)
        nextGraph := s.nextGraph + 1 })
  | .clear graph => (.ok .done, { s with graphs := s.graphs.modify graph Graph.clear })
  | .newMemo => (.ok .done, { s with memos := s.memos.push Memo.empty })
  | .resetMemo memo => (.ok .done, { s with memos := s.memos.modify memo fun _ => Memo.empty })
  | .call graph memo call =>
    match s.graph? graph with
    | none => (.error (.fault .missingEntry), s)
    | some g =>
      let own := s.memoFor memo
      let rest := s.lend graph memo
      match call.run ⟨g, own⟩ with
      | .ok answer w => (.ok answer, rest.store graph memo w)
      | .error e w => (.error e, rest.store graph memo w)

theorem store_lend (s : Session) (graph : Nat) (memo : Option Nat) (w : Workspace) :
    (s.lend graph memo).store graph memo w = s.store graph memo w := by
  cases memo <;> simp [lend, store]

/-- The session after some requests. -/
def run (s : Session) (requests : List Request) : Session :=
  requests.foldl (fun s request => (s.step request).2) s

/-- The sessions that requests lead to. -/
def Reachable (s : Session) : Prop := ∃ requests, s = start.run requests

theorem reachable_start : start.Reachable := ⟨[], rfl⟩

theorem Reachable.step {s : Session} (hs : s.Reachable) (request : Request) :
    (s.step request).2.Reachable := by
  obtain ⟨requests, rfl⟩ := hs
  exact ⟨requests ++ [request], by simp [run]⟩

end Session

end ExprGraph

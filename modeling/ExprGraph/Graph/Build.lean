import ExprGraph.Graph.Basic
import ExprGraph.Scalar.Float

/-!
# Building

Every node is made through the functions of this module.  An operation is first simplified by an
identity of its operator, then folded to a literal when all its operands are literals, and last
looked up among the operations made before; only when all three find nothing is a node made.
Operands of commutative operators are stored in the order of their slots, so both ways of writing
them lead to one node.
-/

namespace ExprGraph

/-- What an identity of an operator makes of an application. -/
inductive Simplified where
  /-- The application is one of the nodes there are. -/
  | same (h : Handle)
  | literal (v : Float)
  /-- The application is the negation of a node. -/
  | negation (h : Handle)
  /-- No identity applies. -/
  | keep
deriving DecidableEq

/-- The operands in the order they are stored in. -/
def Op.arrange (op : Op) : List Handle → List Handle
  | [a, b] => if op.isCommutative ∧ b.slot < a.slot then [b, a] else [a, b]
  | args => args

namespace Op

theorem arrange_eq_or (op : Op) (args : List Handle) :
    op.arrange args = args ∨ ∃ a b, args = [a, b] ∧ op.arrange args = [b, a] := by
  unfold arrange
  split
  · next a b =>
    split
    · exact .inr ⟨a, b, rfl, rfl⟩
    · exact .inl rfl
  · exact .inl rfl

@[simp] theorem length_arrange (op : Op) (args : List Handle) :
    (op.arrange args).length = args.length := by
  rcases op.arrange_eq_or args with hsame | ⟨a, b, rfl, hswap⟩
  · rw [hsame]
  · rw [hswap]
    rfl

@[simp] theorem mem_arrange {op : Op} {args : List Handle} {h : Handle} :
    h ∈ op.arrange args ↔ h ∈ args := by
  rcases op.arrange_eq_or args with hsame | ⟨a, b, rfl, hswap⟩
  · rw [hsame]
  · rw [hswap]
    simp [or_comm]

theorem arrange_of_swap {op : Op} {a b : Handle} (hop : op.isCommutative = true)
    (hslot : b.slot < a.slot) : op.arrange [a, b] = [b, a] := by
  simp [arrange, hop, hslot]

theorem arrange_of_le {op : Op} {a b : Handle} (hslot : a.slot ≤ b.slot) :
    op.arrange [a, b] = [a, b] := by
  simp [arrange, Nat.not_lt.mpr hslot]

/-- Operands in order stay as they are. -/
theorem arrange_arrange (op : Op) (args : List Handle) :
    op.arrange (op.arrange args) = op.arrange args := by
  rcases op.arrange_eq_or args with hsame | ⟨a, b, rfl, hswap⟩
  · rw [hsame, hsame]
  · by_cases hslot : b.slot ≤ a.slot
    · rw [hswap, arrange_of_le hslot]
    · rw [arrange_of_le (by omega)] at hswap
      rw [arrange_of_le (by omega), arrange_of_le (by omega)]

end Op

namespace Graph

/-- Appends a node and gives its handle. -/
def push (g : Graph) (n : Node) : Handle × Graph :=
  (g.handleAt g.nodes.size, { g with nodes := g.nodes.push n })

theorem node_push_self (g : Graph) (n : Node) : (g.push n).2.node (g.push n).1 = .ok n := by
  have hplace : g.nodes.size < (g.push n).2.nodes.size := by simp [push]
  have hnode := (g.push n).2.node_handleAt hplace
  simpa [push, handleAt] using hnode

/-- A new node leaves the nodes there were as they are. -/
theorem node_push_of_node {g : Graph} {h : Handle} {m : Node} (n : Node)
    (hm : g.node h = .ok m) : (g.push n).2.node h = .ok m := by
  obtain ⟨hhandle, hfound⟩ := eq_handleAt_of_node hm
  obtain ⟨hplace, rfl⟩ := Array.getElem?_eq_some_iff.mp hfound
  have hroom : g.placeOf h < (g.push n).2.nodes.size := by
    simp only [push, Array.size_push]
    omega
  have hnode := (g.push n).2.node_handleAt hroom
  have hsame : (g.push n).2.handleAt (g.placeOf h) = h := hhandle.symm
  rw [hsame] at hnode
  rw [hnode]
  simp only [push]
  rw [Array.getElem_push_lt hplace]

/-- Makes a new variable.  No two calls give the same node, whatever the names. -/
def declare (g : Graph) (name : String) : Handle × Graph :=
  let (h, g) := g.push (.var g.nextVariable name)
  (h, { g with nextVariable := g.nextVariable + 1 })

/-- Makes new variables named by a stem and the numbers from `first` on. -/
def declareFrom (g : Graph) (stem : String) (first : Nat) : Nat → List Handle × Graph
  | 0 => ([], g)
  | count + 1 =>
    let (h, g) := g.declare (stem ++ toString first)
    let (rest, g) := g.declareFrom stem (first + 1) count
    (h :: rest, g)

/-- Makes new variables named by a stem and the numbers from one on. -/
def declareMany (g : Graph) (stem : String) (count : Nat) : List Handle × Graph :=
  g.declareFrom stem 1 count

/-- The node of a literal.  Zeros of either sign are two literals, and all `nan`s are one. -/
def literal (g : Graph) (v : Float) : Handle × Graph :=
  match g.literals[v.toBits]? with
  | some h => (h, g)
  | none =>
    let (h, g) := g.push (.lit v)
    (h, { g with literals := g.literals.insert v.toBits h })

/-- The node of an application whose operands are already in order. -/
def share (g : Graph) (app : Application) : Handle × Graph :=
  match g.operations[app]? with
  | some h => (h, g)
  | none =>
    let (h, g) := g.push (.app app)
    (h, { g with operations := g.operations.insert app h })

/-- The identity of the operator that applies to the operands.  The operands are looked at one
level deep. -/
def simplify (g : Graph) : Op → List Handle → Simplified
  | .add, [a, b] =>
    if g.isZero a then .same b
    else if g.isZero b then .same a
    else .keep
  | .sub, [a, b] =>
    if g.isZero b then .same a
    else if a = b then .literal 0.0
    else if g.isZero a then .negation b
    else .keep
  | .mul, [a, b] =>
    if g.isZero a || g.isZero b then .literal 0.0
    else if g.isOne a then .same b
    else if g.isOne b then .same a
    else if g.isNegOne a then .negation b
    else if g.isNegOne b then .negation a
    else .keep
  | .div, [a, b] =>
    if g.isOne b then .same a
    else if g.isNegOne b then .negation a
    else if g.isZero a && !g.isZero b then .same a
    else .keep
  | .pow, [a, b] =>
    if g.isZero b then .literal 1.0
    else if g.isOne b then .same a
    else .keep
  | .neg, [a] =>
    match g.node a with
    | .ok (.app ⟨.neg, [inner]⟩) => .same inner
    | _ => .keep
  | .ifElse, [c, a, b] =>
    if a = b then .same a
    else
      match g.node c with
      | .ok (.lit v) => if isZeroLiteral v then .same b else .same a
      | _ => .keep
  | _, _ => .keep

/-- The values of the operands, when all of them are literals. -/
def literalValues? (g : Graph) : List Handle → Option (List Float)
  | [] => some []
  | h :: rest =>
    match g.node h with
    | .ok (.lit v) => (g.literalValues? rest).map (v :: ·)
    | _ => none

/-- The node of an application no identity applies to: folded if possible, shared otherwise. -/
def settle (g : Graph) (op : Op) (args : List Handle) : Handle × Graph :=
  match if g.folds then g.literalValues? args else none with
  | some values => g.literal (op.eval values)
  | none => g.share ⟨op, op.arrange args⟩

/-- The node of the negation of a node. -/
def negate (g : Graph) (a : Handle) : Handle × Graph :=
  match g.simplify .neg [a] with
  | .same h => (h, g)
  | _ => g.settle .neg [a]

/-- The node of an application.  The operands must be live. -/
def build (g : Graph) (op : Op) (args : List Handle) : Handle × Graph :=
  match g.simplify op args with
  | .same h => (h, g)
  | .literal v => g.literal v
  | .negation a => g.negate a
  | .keep => g.settle op args

end Graph

/-- Work on a graph.  The graph as it has become stays, also when the work fails. -/
abbrev BuildM := EStateM Failure Graph

namespace BuildM

/-- Reads the graph. -/
def inspect {α : Type} (f : Graph → Except GraphError α) : BuildM α := fun g =>
  match f g with
  | .ok a => .ok a g
  | .error e => .error (.refused e) g

/-- Extends the graph. -/
def extend {α : Type} (f : Graph → α × Graph) : BuildM α := fun g =>
  match f g with
  | (a, g) => .ok a g

/-- Fails with an error. -/
def refuse {α : Type} (e : GraphError) : BuildM α := fun g => .error (.refused e) g

/-- Fails with a fault. -/
def fault {α : Type} (f : Fault) : BuildM α := fun g => .error (.fault f) g

/-- The node of a literal. -/
def literal (v : Float) : BuildM Handle := extend fun g => g.literal v

/-- The node of an application.  The number of operands is checked before the operands are. -/
def operation (op : Op) (args : List Handle) : BuildM Handle := do
  if args.length ≠ op.arity then
    refuse (.arityMismatch op args.length)
  else
    inspect fun g => g.validate args
    extend fun g => g.build op args

/-- A node raised to a literal exponent. -/
def powLiteral (a : Handle) (exponent : Float) : BuildM Handle := do
  let e ← literal exponent
  operation .pow [a, e]

/-- The product of a node with itself. -/
def square (a : Handle) : BuildM Handle := operation .mul [a, a]

/-- A literal multiple of a node. -/
def scale (factor : Float) (a : Handle) : BuildM Handle := do
  let c ← literal factor
  operation .mul [c, a]

/-- The sum of nodes from left to right; zero for none. -/
def sum : List Handle → BuildM Handle
  | [] => literal 0.0
  | first :: rest => do
    inspect fun g => g.validate [first]
    rest.foldlM (fun total term => operation .add [total, term]) first

/-- The product of nodes from left to right; one for none. -/
def product : List Handle → BuildM Handle
  | [] => literal 1.0
  | first :: rest => do
    inspect fun g => g.validate [first]
    rest.foldlM (fun total factor => operation .mul [total, factor]) first

/-- The dot product of two lists of nodes.  All products are made before they are summed. -/
def dot (left right : List Handle) : BuildM Handle := do
  if left.length ≠ right.length then
    refuse (.sizeMismatch left.length right.length)
  else
    let terms ← (left.zip right).mapM fun (a, b) => operation .mul [a, b]
    sum terms

end BuildM

end ExprGraph

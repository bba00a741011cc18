import ExprGraph.Error

/-!
# Programs

A compiled graph is a program over numbered slots.  Every instruction writes one slot, after it has
read its operands, so it may write one of the slots it reads.
-/

namespace ExprGraph

/-- A single step of a program. -/
inductive Instruction where
  /-- Copies an input. -/
  | input (dst index : Nat)
  | literal (dst : Nat) (value : Float)
  | unary (op : Op) (dst a : Nat)
  | binary (op : Op) (dst a b : Nat)
  /-- Copies the first or second branch, by a condition. -/
  | select (dst cond first second : Nat)
deriving DecidableEq

namespace Instruction

/-- The slot an instruction writes. -/
def dst : Instruction → Nat
  | input dst _ => dst
  | literal dst _ => dst
  | unary _ dst _ => dst
  | binary _ dst _ _ => dst
  | select dst _ _ _ => dst

/-- The slots an instruction reads, in order. -/
def sources : Instruction → List Nat
  | input .. => []
  | literal .. => []
  | unary _ _ a => [a]
  | binary _ _ a b => [a, b]
  | select _ c a b => [c, a, b]

/-- The instruction that applies an operator to slots; none when the operator does not take that
many operands. -/
def ofApplication? (op : Op) (dst : Nat) : List Nat → Option Instruction
  | [a] => some (unary op dst a)
  | [a, b] => some (binary op dst a b)
  | [c, a, b] => if op = .ifElse then some (select dst c a b) else none
  | _ => none

/-- The text of an instruction in a listing. -/
def text : Instruction → String
  | input dst index => s!"r{dst} = in[{index}]"
  | literal dst value => s!"r{dst} = " ++ literalText value
  | unary op dst a => s!"r{dst} = " ++ op.name ++ s!"(r{a})"
  | binary op dst a b => s!"r{dst} = " ++ op.name ++ s!"(r{a}, r{b})"
  | select dst c a b => s!"r{dst} = if_else(r{c}, r{a}, r{b})"

end Instruction

/-- A compiled graph.  It does not depend on the graph any more. -/
structure Program where
  instructions : List Instruction
  /-- The slot of every output entry, in row-major order. -/
  outputs : List Nat
  /-- The number of slots a run needs. -/
  slotCount : Nat
  /-- The number of inputs a run reads. -/
  inputCount : Nat
  /-- The shape of the outputs. -/
  shape : Shape
deriving DecidableEq

namespace Program

/-- The text of a program: a line for every instruction, then the slots of the outputs. -/
def listing (p : Program) : String :=
  let lines := p.instructions.map fun i => i.text ++ "\n"
  let outputs := p.outputs.map fun slot => s!"r{slot}"
  String.join lines ++ "out " ++ p.shape.text ++ " = [" ++ ", ".intercalate outputs ++ "]"

end Program

end ExprGraph

/-!
# Operators

The closed set of operators an expression may apply, with their operand counts, their names and
the operators whose operand order carries no meaning.
-/

namespace ExprGraph

/-- An operator of an expression graph. -/
inductive Op where
  | add | sub | mul | div | pow | neg
  | abs | sign | min | max
  | sqrt | cbrt | exp | ln
  | sin | cos | tan | asin | acos | atan | atan2
  | sinh | cosh | tanh
  | lt | le | gt | ge | eq | ne
  | ifElse
deriving DecidableEq, Hashable, Repr, Inhabited

namespace Op

/-- Every operator, in the order of declaration. -/
def all : List Op :=
  [add, sub, mul, div, pow, neg, abs, sign, min, max, sqrt, cbrt, exp, ln, sin, cos, tan, asin,
    acos, atan, atan2, sinh, cosh, tanh, lt, le, gt, ge, eq, ne, ifElse]

/-- The number of operands an operator takes. -/
def arity : Op → Nat
  | neg | abs | sign | sqrt | cbrt | exp | ln | sin | cos | tan | asin | acos | atan | sinh | cosh
  | tanh => 1
  | add | sub | mul | div | pow | min | max | atan2 | lt | le | gt | ge | eq | ne => 2
  | ifElse => 3

/-- Operators that may be written in either operand order.  `min` and `max` are not among them:
their derivative settles a tie in favour of the operand written first. -/
def isCommutative : Op → Bool
  | add | mul | eq | ne => true
  | _ => false

/-- Operators whose result is a truth value, one or zero. -/
def isComparison : Op → Bool
  | lt | le | gt | ge | eq | ne => true
  | _ => false

/-- The name of an operator in listings and messages. -/
def name : Op → String
  | add => "add"
  | sub => "sub"
  | mul => "mul"
  | div => "div"
  | pow => "pow"
  | neg => "neg"
  | abs => "abs"
  | sign => "sign"
  | min => "min"
  | max => "max"
  | sqrt => "sqrt"
  | cbrt => "cbrt"
  | exp => "exp"
  | ln => "ln"
  | sin => "sin"
  | cos => "cos"
  | tan => "tan"
  | asin => "asin"
  | acos => "acos"
  | atan => "atan"
  | atan2 => "atan2"
  | sinh => "sinh"
  | cosh => "cosh"
  | tanh => "tanh"
  | lt => "lt"
  | le => "le"
  | gt => "gt"
  | ge => "ge"
  | eq => "eq"
  | ne => "ne"
  | ifElse => "if_else"

/-- The operator of a given name. -/
def ofName? (text : String) : Option Op :=
  all.find? fun op => op.name == text

theorem mem_all (op : Op) : op ∈ all := by
  cases op <;> decide

theorem arity_eq_two_of_isCommutative {op : Op} (hop : op.isCommutative = true) :
    op.arity = 2 := by
  cases op <;> simp_all [isCommutative, arity]

end Op

end ExprGraph

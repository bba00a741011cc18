import ExprGraph.Derivative.Formula

/-!
# Local partial derivatives

The rules of differentiation, one formula for every operator and operand.  A rule may use the node
itself: the derivative of `exp a` is that very node.

Where an operator is not differentiable the rules choose a convention.  The derivative of `abs` is
the sign, hence zero at zero; `sign` and the comparisons have derivative zero; `max` and `min`
settle a tie in favour of the first operand; the derivative of `ifElse` by a branch is one where it
takes that branch, and zero elsewhere.
-/

namespace ExprGraph

open Formula

/-- The partial derivative of an application by one of its operands. -/
def Op.partialBy (op : Op) (index : Nat) : Formula :=
  let a := operand 0
  let b := operand 1
  let one := literal 1.0
  match op with
  | .add => one
  | .sub => literal (if index = 0 then 1.0 else -1.0)
  | .mul => operand (1 - index)
  | .div =>
    if index = 0 then binary .div one b
    else unary .neg (binary .div self b)
  | .pow =>
    if index = 0 then binary .mul b (binary .pow a (binary .sub b one))
    else binary .mul self (unary .ln a)
  | .neg => literal (-1.0)
  | .abs => unary .sign a
  | .sign | .lt | .le | .gt | .ge | .eq | .ne => literal 0.0
  | .max => if index = 0 then binary .ge a b else binary .lt a b
  | .min => if index = 0 then binary .le a b else binary .gt a b
  | .sqrt => binary .div (literal 0.5) self
  | .cbrt => binary .div (literal (1.0 / 3.0)) (square self)
  | .exp => self
  | .ln => binary .div one a
  | .sin => unary .cos a
  | .cos => unary .neg (unary .sin a)
  | .tan => binary .add one (square self)
  | .asin => binary .div one (coLeg a)
  | .acos => after (coLeg a) (binary .div (literal (-1.0)) (coLeg a))
  | .atan => binary .div one (binary .add one (square a))
  | .atan2 =>
    let norm := binary .add (square b) (square a)
    if index = 0 then binary .div b norm
    else unary .neg (binary .div a norm)
  | .sinh => unary .cosh a
  | .cosh => unary .sinh a
  | .tanh => binary .sub one (square self)
  | .ifElse =>
    let zero := literal 0.0
    match index with
    | 0 => after one zero
    | 1 => select a one zero
    | _ => after one (select a zero one)

end ExprGraph

import ExprGraph.Scalar
import ExprGraph.Scalar.CubeRoot

/-!
# Double and single precision scalars

The two floating-point formats a program can run in.  Literals are double precision numbers; a
single precision scalar rounds them.  The single precision arithmetic and square root round the
exact result; the other single precision functions round that of the double precision function.
-/

namespace ExprGraph

instance : Scalar Float where
  ofLiteral v := v
  zero := 0.0
  one := 1.0
  nan := 0.0 / 0.0
  add := Float.add
  sub := Float.sub
  mul := Float.mul
  div := Float.div
  pow := Float.pow
  neg := Float.neg
  abs := Float.abs
  min a b := if a.isNaN then b else if b.isNaN then a else if b < a then b else a
  max a b := if a.isNaN then b else if b.isNaN then a else if a < b then b else a
  sqrt := Float.sqrt
  cbrt := cubeRoot
  exp := Float.exp
  ln := Float.log
  sin := Float.sin
  cos := Float.cos
  tan := Float.tan
  asin := Float.asin
  acos := Float.acos
  atan := Float.atan
  atan2 := Float.atan2
  sinh := Float.sinh
  cosh := Float.cosh
  tanh := Float.tanh
  lt a b := a < b
  le a b := a ≤ b
  same a b := a == b

/-- A single precision function from a double precision one. -/
def viaDouble (f : Float → Float) (a : Float32) : Float32 := (f a.toFloat).toFloat32

/-- A single precision function of two arguments from a double precision one. -/
def viaDouble2 (f : Float → Float → Float) (a b : Float32) : Float32 :=
  (f a.toFloat b.toFloat).toFloat32

instance : Scalar Float32 where
  ofLiteral v := v.toFloat32
  zero := 0.0
  one := 1.0
  nan := 0.0 / 0.0
  add := Float32.add
  sub := Float32.sub
  mul := Float32.mul
  div := Float32.div
  pow := viaDouble2 Float.pow
  neg := Float32.neg
  abs := Float32.abs
  min a b := if a.isNaN then b else if b.isNaN then a else if b < a then b else a
  max a b := if a.isNaN then b else if b.isNaN then a else if a < b then b else a
  sqrt := Float32.sqrt
  cbrt := viaDouble cubeRoot
  exp := viaDouble Float.exp
  ln := viaDouble Float.log
  sin := viaDouble Float.sin
  cos := viaDouble Float.cos
  tan := viaDouble Float.tan
  asin := viaDouble Float.asin
  acos := viaDouble Float.acos
  atan := viaDouble Float.atan
  atan2 := viaDouble2 Float.atan2
  sinh := viaDouble Float.sinh
  cosh := viaDouble Float.cosh
  tanh := viaDouble Float.tanh
  lt a b := a < b
  le a b := a ≤ b
  same a b := a == b

end ExprGraph

/-!
# The fields of a double precision number

A double precision number is a sign, a biased exponent of eleven bits and a fraction of fifty-two
bits.
-/

namespace ExprGraph

/-- The weight of the leading bit of a significand of fifty-three bits. -/
def leadingBit : Nat := 1 <<< 52

/-- The weight of the sign among the bits of a number. -/
def signBit : Nat := 1 <<< 63

/-- The fields of a double precision number. -/
structure FloatFields where
  negative : Bool
  biasedExponent : Nat
  fraction : Nat
deriving DecidableEq, Repr

namespace FloatFields

/-- The fields of a number. -/
def ofFloat (v : Float) : FloatFields :=
  let bits := v.toBits.toNat
  { negative := signBit ≤ bits
    biasedExponent := bits / leadingBit % 2048
    fraction := bits % leadingBit }

/-- Whether the fields are those of an infinity or of `nan`. -/
def isSpecial (f : FloatFields) : Bool := f.biasedExponent == 2047

/-- Whether the fields are those of a zero. -/
def isZero (f : FloatFields) : Bool := f.biasedExponent == 0 && f.fraction == 0

/-- A finite number is `significand * 2 ^ exponent`, apart from its sign. -/
def significand (f : FloatFields) : Nat :=
  if f.biasedExponent = 0 then f.fraction else leadingBit + f.fraction

/-- The exponent that goes with the significand. -/
def exponent (f : FloatFields) : Int :=
  if f.biasedExponent = 0 then -1074 else f.biasedExponent - 1075

/-- Whether the next number toward zero is only half as far away as the next one away from it. -/
def isLowerEnd (f : FloatFields) : Bool := f.fraction == 0 && 1 < f.biasedExponent

/-- The number `significand * 2 ^ exponent` for a significand of fifty-three bits, or `2 ^ 53`. -/
def pack (negative : Bool) (significand : Nat) (exponent : Int) : Float :=
  let magnitude := (exponent + 1075).toNat * leadingBit + (significand - leadingBit)
  Float.ofBits ((if negative then signBit else 0) + magnitude).toUInt64

end FloatFields

end ExprGraph

import ExprGraph.Decimal.Shortest
import ExprGraph.Scalar.Fields

/-!
# Plain decimal text

Numbers written without an exponent.  A style fixes what the text of a number leaves open: the
choice between equally near decimals, the ending of whole numbers, and the words for what is not a
finite number.
-/

namespace ExprGraph

/-- The decisions of plain decimal text. -/
structure PlainStyle where
  tie : TieRule
  /-- What follows the digits of a whole number. -/
  wholeEnding : String
  nan : String
  infinity : String
deriving Repr

/-- A run of zeros. -/
def zeros (n : Nat) : String := String.ofList (List.replicate n '0')

/-- The text of a decimal, without an exponent. -/
def Decimal.plain (d : Decimal) (wholeEnding : String) : String :=
  let text := toString d.digits
  match d.exponent with
  | .ofNat n => text ++ zeros n ++ wholeEnding
  | .negSucc n =>
    let places := n + 1
    let padded := (zeros (places + 1 - text.length) ++ text).toList
    let whole := padded.length - places
    String.ofList (padded.take whole) ++ "." ++ String.ofList (padded.drop whole)

/-- The text of a double precision number in a style. -/
def PlainStyle.render (style : PlainStyle) (v : Float) : String :=
  let f := FloatFields.ofFloat v
  let sign := if f.negative then "-" else ""
  if f.isSpecial then
    if f.fraction = 0 then sign ++ style.infinity else style.nan
  else if f.isZero then sign ++ "0" ++ style.wholeEnding
  else
    let interval := RoundingInterval.ofBinary f.significand f.exponent f.isLowerEnd
    sign ++ ((interval.shortest style.tie).trim).plain style.wholeEnding

end ExprGraph

/-!
# Shortest decimals

The decimal with the fewest digits among the reals that round to a given double precision number,
and of those with equally few digits the one nearest to it.  All arithmetic is exact: a positive
finite number is the quotient of two natural numbers, and so are the ends of the interval of reals
that round to it.
-/

namespace ExprGraph

/-- The nonnegative decimal `digits * 10 ^ exponent`. -/
structure Decimal where
  digits : Nat
  exponent : Int
deriving DecidableEq, Repr

/-- Which of two equally near decimals is chosen. -/
inductive TieRule where
  | up
  | even
deriving DecidableEq, Repr

/-- The reals between `low / den` and `high / den` round to `value / den`. -/
structure RoundingInterval where
  low : Nat
  value : Nat
  high : Nat
  den : Nat
  /-- Whether the ends round to the value as well. -/
  closed : Bool
deriving Repr

namespace RoundingInterval

/-- The interval of the number `mantissa * 2 ^ exponent`.  Below a power of two the next number is
only half as far away. -/
def ofBinary (mantissa : Nat) (exponent : Int) (narrowBelow : Bool) : RoundingInterval :=
  let scale := 1 <<< (exponent - 2).toNat
  { low := (4 * mantissa - (if narrowBelow then 1 else 2)) * scale
    value := 4 * mantissa * scale
    high := (4 * mantissa + 2) * scale
    den := 1 <<< (2 - exponent).toNat
    closed := mantissa % 2 == 0 }

/-- Whether `candidate * 10 ^ grid` rounds to the value. -/
def holds (r : RoundingInterval) (grid : Int) (candidate : Nat) : Bool :=
  let shift := Nat.pow 10 (-grid).toNat
  let point := candidate * (r.den * Nat.pow 10 grid.toNat)
  if r.closed then r.low * shift ≤ point && point ≤ r.high * shift
  else r.low * shift < point && point < r.high * shift

/-- The multiple of `10 ^ grid` nearest to the value that rounds to it. -/
def nearest? (r : RoundingInterval) (tie : TieRule) (grid : Int) : Option Nat :=
  let shifted := r.value * Nat.pow 10 (-grid).toNat
  let unit := r.den * Nat.pow 10 grid.toNat
  let lower := shifted / unit
  match r.holds grid lower, r.holds grid (lower + 1) with
  | true, true =>
    if 2 * shifted < (2 * lower + 1) * unit then some lower
    else if (2 * lower + 1) * unit < 2 * shifted then some (lower + 1)
    else match tie with
      | .up => some (lower + 1)
      | .even => some (if lower % 2 == 0 then lower else lower + 1)
  | true, false => some lower
  | false, true => some (lower + 1)
  | false, false => none

/-- What is found on a grid rounds to the value. -/
theorem holds_of_nearest? {r : RoundingInterval} {tie : TieRule} {grid : Int} {digits : Nat}
    (hfound : r.nearest? tie grid = some digits) : r.holds grid digits = true := by
  unfold nearest? at hfound
  dsimp only at hfound
  split at hfound
  · next hlower hupper =>
    split at hfound
    · cases hfound
      exact hlower
    · split at hfound
      · cases hfound
        exact hupper
      · split at hfound
        · cases hfound
          exact hupper
        · split at hfound
          · cases hfound
            exact hlower
          · cases hfound
            exact hupper
  · next hlower _ =>
    cases hfound
    exact hlower
  · next _ hupper =>
    cases hfound
    exact hupper
  · cases hfound

/-- The number of decimal digits of a natural number, none for zero. -/
def decimalLength (n : Nat) : Nat :=
  if n = 0 then 0 else decimalLength (n / 10) + 1

/-- The exponent of the leading decimal digit of the value. -/
def leadingExponent (r : RoundingInterval) : Int :=
  if r.den ≤ r.value then (decimalLength (r.value / r.den) : Int) - 1
  else -(decimalLength ((r.den - 1) / r.value) : Int)

/-- The first hit on the grids from `grid` down to finer ones. -/
def search (r : RoundingInterval) (tie : TieRule) : Nat → Int → Option Decimal
  | 0, _ => none
  | tries + 1, grid =>
    match r.nearest? tie grid with
    | some digits => some ⟨digits, grid⟩
    | none => search r tie tries (grid - 1)

/-- What a search finds rounds to the value. -/
theorem holds_of_search {r : RoundingInterval} {tie : TieRule} {tries : Nat} {grid : Int}
    {d : Decimal} (hfound : r.search tie tries grid = some d) :
    r.holds d.exponent d.digits = true := by
  induction tries generalizing grid with
  | zero => cases hfound
  | succ tries ih =>
    rw [search] at hfound
    split at hfound
    · next digits hnear =>
      cases hfound
      exact holds_of_nearest? hnear
    · exact ih hfound

/-- The shortest decimal of the interval.  Seventeen digits always suffice. -/
def shortest (r : RoundingInterval) (tie : TieRule) : Decimal :=
  (r.search tie 17 r.leadingExponent).getD ⟨0, 0⟩

end RoundingInterval

/-- The same decimal without zeros at the end of its digits. -/
def Decimal.trim (d : Decimal) : Decimal :=
  if d.digits ≠ 0 ∧ d.digits % 10 = 0 then
    Decimal.trim ⟨d.digits / 10, d.exponent + 1⟩
  else d
termination_by d.digits
decreasing_by omega

end ExprGraph

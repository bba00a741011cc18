import ExprGraph.Scalar.Fields

/-!
# Cube roots

The cube root rounded to the nearest double precision number.  The root is taken exactly among the
natural numbers, with more bits than the result has, and then rounded once.
-/

namespace ExprGraph

/-- The cube of a natural number. -/
def cube (n : Nat) : Nat := n * n * n

/-- The greatest extension of `root` by `bits` more bits whose cube does not exceed `n`. -/
def cubeRootFrom (n : Nat) : Nat → Nat → Nat
  | 0, root => root
  | bits + 1, root =>
    let next := root + 1 <<< bits
    if cube next ≤ n then cubeRootFrom n bits next else cubeRootFrom n bits root

theorem cube_cubeRootFrom_le {n : Nat} (bits : Nat) {root : Nat} (hroot : cube root ≤ n) :
    cube (cubeRootFrom n bits root) ≤ n := by
  induction bits generalizing root with
  | zero => exact hroot
  | succ bits ih =>
    simp only [cubeRootFrom]
    split
    · next hnext => exact ih hnext
    · exact ih hroot

theorem lt_cube_cubeRootFrom_succ {n : Nat} (bits : Nat) {root : Nat}
    (hbound : n < cube (root + 1 <<< bits)) : n < cube (cubeRootFrom n bits root + 1) := by
  induction bits generalizing root with
  | zero => simpa [cubeRootFrom] using hbound
  | succ bits ih =>
    simp only [cubeRootFrom]
    split
    · apply ih
      have hsplit : root + 1 <<< bits + 1 <<< bits = root + 1 <<< (bits + 1) := by
        rw [Nat.shiftLeft_succ]
        omega
      rwa [hsplit]
    · next hnext => exact ih (Nat.lt_of_not_ge hnext)

/-- The significand of fifty-three bits nearest to a number, and the power of two it is scaled
by.  Ties go to the even significand. -/
def roundSignificand (n : Nat) : Nat × Nat :=
  let drop := n.log2 - 52
  let kept := n >>> drop
  let rest := n % (1 <<< drop)
  let half := (1 <<< drop) / 2
  if half < rest ∨ (rest = half ∧ 0 < drop ∧ kept % 2 = 1) then (kept + 1, drop) else (kept, drop)

/-- The cube root of a number, rounded to nearest. -/
def cubeRoot (v : Float) : Float :=
  let f := FloatFields.ofFloat v
  if f.isSpecial || f.isZero then v
  else
    let m := f.significand
    -- the scaled significand has 166 to 170 bits, and its root at least 56
    let shift := 166 - m.log2 + (f.exponent - (166 - m.log2 : Nat)).emod 3
    let scaled := m <<< shift.toNat
    let root := cubeRootFrom scaled 58 0
    let sticky := if cube root = scaled then 2 * root else 2 * root + 1
    let (significand, drop) := roundSignificand sticky
    FloatFields.pack f.negative significand ((f.exponent - shift) / 3 - 1 + drop)

end ExprGraph

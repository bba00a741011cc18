import Mathlib
import ExprGraph.Proofs.Graph.Building

/-!
# Taking numbers apart

A double precision number is taken apart into its sign, exponent and mantissa, and put together
again from them.  Nothing is lost on the way: every number comes back, and a mantissa that has only
grown by zeros is rounded to what it was.
-/

namespace ExprGraph

open Float.Model Float.Model.UnpackedFloat

theorem toBitVec_ofBitVec (bit : BitVec 1) : (Sign.ofBitVec bit).toBitVec = bit := by
  revert bit
  decide

/-- Sign, exponent and mantissa make up the pattern that they have been read from. -/
theorem packComponents_unpack (bits : BitVec Format.binary64.numBits) :
    packComponents .binary64 (Sign.ofBitVec (unpackSign bits)) (unpackExponent bits)
      (unpackMantissa bits) = bits := by
  have hbound : bits.toNat < 2 ^ 64 := bits.isLt
  have hsign : (unpackSign bits).toNat = bits.toNat / 2 ^ 63 % 2 := by
    simp [unpackSign, Nat.shiftRight_eq_div_pow]
  have hexponent : (unpackExponent bits).toNat = bits.toNat / 2 ^ 52 % 2 ^ 11 := by
    simp [unpackExponent, Nat.shiftRight_eq_div_pow]
  have hmantissa : (unpackMantissa bits).toNat = bits.toNat % 2 ^ 52 := by
    simp [unpackMantissa]
  refine BitVec.eq_of_toNat_eq ?_
  rw [packComponents, toBitVec_ofBitVec, BitVec.toNat_append, BitVec.toNat_append,
    ← Nat.shiftLeft_add_eq_or_of_lt (unpackExponent bits).isLt,
    ← Nat.shiftLeft_add_eq_or_of_lt (unpackMantissa bits).isLt, Nat.shiftLeft_eq, Nat.shiftLeft_eq,
    hsign, hexponent, hmantissa]
  change (bits.toNat / 2 ^ 63 % 2 * 2 ^ 11 + bits.toNat / 2 ^ 52 % 2 ^ 11) * 2 ^ 52 +
    bits.toNat % 2 ^ 52 = bits.toNat
  omega

/-- A finite number that is read from a pattern is a subnormal or a normal one. -/
theorem finite_of_unpack {bits : BitVec Format.binary64.numBits} {s : Sign} {m : Nat} {e : Int}
    {hm : 0 < m} (hbits : UnpackedFloat.unpack .binary64 bits = .finite s m e hm) :
    s = Sign.ofBitVec (unpackSign bits) ∧
      ((unpackExponent bits = 0#_ ∧ m = (unpackMantissa bits).toNat ∧ e = -1074) ∨
        (0 < (unpackExponent bits).toNat ∧ (unpackExponent bits).toNat < 2047 ∧
          m = 2 ^ 52 + (unpackMantissa bits).toNat ∧ e = (unpackExponent bits).toNat - 1075)) := by
  have hbound : (unpackExponent bits).toNat < 2 ^ 11 := (unpackExponent bits).isLt
  unfold UnpackedFloat.unpack at hbits
  dsimp only at hbits
  split_ifs at hbits with hspecial hmantissa hsubnormal hmantissa
  · injection hbits with hs hm' he
    rw [hsubnormal] at he
    exact ⟨hs.symm, .inl ⟨hsubnormal, hm'.symm, he.symm⟩⟩
  · injection hbits with hs hm' he
    refine ⟨hs.symm, .inr ⟨?_, ?_, ?_, he.symm⟩⟩
    · exact Nat.pos_of_ne_zero fun hzero => hsubnormal (BitVec.eq_of_toNat_eq hzero)
    · have hne : (unpackExponent bits).toNat ≠ 2047 :=
        fun hlast => hspecial (BitVec.eq_of_toNat_eq hlast)
      omega
    · rw [← hm', BitVec.toNat_append, ← Nat.shiftLeft_add_eq_or_of_lt (unpackMantissa bits).isLt]
      rfl

theorem targetExponent_eq (m : Nat) (e : Int) :
    Format.binary64.targetExponent (totalExponent m e) = max (m.log2 + 1 + e - 53) (-1074) := rfl

/-- The exponent of a finite number is the one that its format asks for. -/
theorem targetExponent_of_unpack {bits : BitVec Format.binary64.numBits} {s : Sign} {m : Nat}
    {e : Int} {hm : 0 < m} (hbits : UnpackedFloat.unpack .binary64 bits = .finite s m e hm) :
    Format.binary64.targetExponent (totalExponent m e) = e := by
  have hmantissa : (unpackMantissa bits).toNat < 2 ^ 52 := (unpackMantissa bits).isLt
  rw [targetExponent_eq]
  obtain ⟨-, ⟨-, rfl, rfl⟩ | ⟨hpos, -, rfl, rfl⟩⟩ := finite_of_unpack hbits
  · have hlog : (unpackMantissa bits).toNat.log2 < 52 := (Nat.log2_lt hm.ne').mpr hmantissa
    omega
  · have hlog : (2 ^ 52 + (unpackMantissa bits).toNat).log2 = 52 :=
      (Nat.log2_eq_iff hm.ne').mpr ⟨Nat.le_add_right _ _, by omega⟩
    omega

/-- What is read from a pattern is packed into that pattern again. -/
theorem pack_unpack {bits : BitVec Format.binary64.numBits} (hvalid : Format.binary64.Valid bits) :
    UnpackedFloat.pack .binary64 (UnpackedFloat.unpack .binary64 bits) = bits := by
  have hparts := packComponents_unpack bits
  cases hbits : UnpackedFloat.unpack .binary64 bits with
  | notANumber =>
      unfold UnpackedFloat.unpack at hbits
      dsimp only at hbits
      split_ifs at hbits with hspecial hmantissa
      exact (hvalid.eq_packedNaN hspecial hmantissa).symm
  | infinity s =>
      unfold UnpackedFloat.unpack at hbits
      dsimp only at hbits
      split_ifs at hbits with hspecial hmantissa
      cases hbits
      rwa [hspecial, hmantissa] at hparts
  | zero s =>
      unfold UnpackedFloat.unpack at hbits
      dsimp only at hbits
      split_ifs at hbits with hspecial hmantissa hexponent hmantissa
      cases hbits
      rwa [hexponent, hmantissa] at hparts
  | finite s m e hm =>
      have hmantissa : (unpackMantissa bits).toNat < 2 ^ 52 := (unpackMantissa bits).isLt
      rw [UnpackedFloat.pack]
      obtain ⟨rfl, ⟨hexponent, rfl, rfl⟩ | ⟨hpos, hlt, rfl, rfl⟩⟩ := finite_of_unpack hbits
      · have hlog : (unpackMantissa bits).toNat.log2 < 52 := (Nat.log2_lt hm.ne').mpr hmantissa
        have hsmall : (unpackMantissa bits).toNat.log2 + 1 ≠ Format.binary64.mantissaBits := by
          change _ ≠ 53
          omega
        rwa [if_neg (by decide), if_neg hsmall, BitVec.ofNat_toNat, BitVec.setWidth_eq,
          ← hexponent]
      · have hlog : (2 ^ 52 + (unpackMantissa bits).toNat).log2 + 1 =
            Format.binary64.mantissaBits :=
          congrArg (· + 1) ((Nat.log2_eq_iff hm.ne').mpr ⟨Nat.le_add_right _ _, by omega⟩)
        have hbiased : ((unpackExponent bits).toNat - 1075 + Format.binary64.exponentBias +
            Format.binary64.mantissaBitsWithoutImplicit : Int).toNat =
              (unpackExponent bits).toNat := by
          change ((unpackExponent bits).toNat - 1075 + 1023 + 52 : Int).toNat = _
          omega
        have hroom : ¬ 2 ^ Format.binary64.exponentBits ≤ (unpackExponent bits).toNat + 1 := by
          change ¬ 2048 ≤ _
          omega
        have himplicit : BitVec.ofNat Format.binary64.mantissaBitsWithoutImplicit
            (2 ^ 52 + (unpackMantissa bits).toNat) = unpackMantissa bits := by
          refine BitVec.eq_of_toNat_eq ?_
          rw [BitVec.toNat_ofNat]
          change (2 ^ 52 + _) % 2 ^ 52 = _
          omega
        rwa [hbiased, if_neg hroom, if_pos hlog, himplicit, BitVec.ofNat_toNat,
          BitVec.setWidth_eq]

/-- A number is what it is when it has been taken apart and put together again. -/
theorem ofModel_pack_unpack (x : Float) : Float.ofModel (pack x.toModel.unpack) = x := by
  refine float_eq_of_toBits_eq (UInt64.toBitVec_inj.mp ?_)
  exact pack_unpack x.toModel.valid

/-- Zeros shifted out of a mantissa leave nothing behind. -/
theorem shiftRight_exact (m k : Nat) :
    (⟨2 ^ k * m, false, false⟩ : ExtendedMantissa) >>> k = ⟨m, false, false⟩ := by
  have hrepeat : ∀ k m, Nat.repeat ExtendedMantissa.shiftRightOne k ⟨2 ^ k * m, false, false⟩ =
      ⟨m, false, false⟩ := by
    intro k
    induction k with
    | zero => simp [Nat.repeat]
    | succ k ih =>
        intro m
        rw [Nat.repeat, Nat.pow_succ, Nat.mul_assoc, ih]
        simp [ExtendedMantissa.shiftRightOne]
  exact hrepeat k m

/-- A mantissa that has grown by zeros is rounded to what it was. -/
theorem roundWithAccuracy_of_target {s : Sign} {m : Nat} {e : Int} (hm : 0 < m)
    (htarget : Format.binary64.targetExponent (totalExponent m e) = e) (k : Nat) :
    roundWithAccuracy .binary64 s (2 ^ k * m) (e - k) .exact = .finite s m e hm := by
  have hlog : (2 ^ k * m).log2 = k + m.log2 := by
    refine (Nat.log2_eq_iff (Nat.mul_pos (Nat.two_pow_pos k) hm).ne').mpr ⟨?_, ?_⟩
    · rw [Nat.pow_add]
      exact Nat.mul_le_mul_left _ (Nat.log2_self_le hm.ne')
    · rw [Nat.add_assoc, Nat.pow_add]
      exact Nat.mul_lt_mul_of_pos_left Nat.lt_log2_self (Nat.two_pow_pos k)
  have htotal : totalExponent (2 ^ k * m) (e - k) = totalExponent m e := by
    rw [totalExponent, totalExponent, hlog]
    push_cast
    ring
  have hfirst : shiftToTargetExponent .binary64 (2 ^ k * m) (e - k) .exact =
      (⟨m, false, false⟩, e) := by
    have hamount : (e - (e - k)).toNat = k := by omega
    rw [shiftToTargetExponent, htotal, htarget, shiftToExponent, hamount]
    simp [ExtendedMantissa.ofMantissaAndAccuracy, shiftRight_exact]
  have hagain : shiftToTargetExponent .binary64 m e .exact = (⟨m, false, false⟩, e) := by
    rw [shiftToTargetExponent, htarget, shiftToExponent, Int.sub_self]
    exact Prod.ext rfl (Int.add_zero e)
  rw [roundWithAccuracy, hfirst]
  dsimp only
  have hrounded : ExtendedMantissa.roundedMantissa ⟨m, false, false⟩ = m := rfl
  rw [hrounded, hagain]
  exact dif_neg hm.ne'

end ExprGraph

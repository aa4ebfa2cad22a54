import Nachos.Machine.Mipssim
import Mathlib.Data.Nat.ModEq
import Mathlib.Algebra.Order.Ring.Nat

/-!
# The double word product

`Mult` looks at the bits of `a` one at a time and adds a shifted copy of `b` for each one that is
set. The two words of the sum and the two words of the shifted copy are kept by hand, and `a` is
shifted right as a signed number whichever product is asked for.
-/

namespace Nachos

def doubleWord (hi lo : Word) : Nat := hi.toNat * 2 ^ 32 + lo.toNat

def signedDoubleWord (hi lo : Word) : Int := hi.toInt * 2 ^ 32 + lo.toNat

private theorem doubleWord_lt (hi lo : Word) : doubleWord hi lo < 2 ^ 64 := by
  have hhi := hi.isLt
  have hlo := lo.isLt
  simp only [doubleWord]
  omega

/-! ## One turn of the loop -/

private theorem doubleWord_carryAdd (hi lo bHi bLo : Word) :
    doubleWord ((if lo + bLo < bLo then hi + 1 else hi) + bHi) (lo + bLo) ≡
      doubleWord hi lo + doubleWord bHi bLo [MOD 2 ^ 64] := by
  have hlo := lo.isLt
  have hbLo := bLo.isLt
  have hhi := hi.isLt
  have hbHi := bHi.isLt
  by_cases hcarry : lo + bLo < bLo
  · rw [if_pos hcarry]
    simp only [BitVec.lt_def, BitVec.toNat_add] at hcarry
    have hone : (1 : Word).toNat = 1 := rfl
    simp only [doubleWord, Nat.ModEq, BitVec.toNat_add, hone]
    omega
  · rw [if_neg hcarry]
    simp only [BitVec.lt_def, BitVec.toNat_add] at hcarry
    simp only [doubleWord, Nat.ModEq, BitVec.toNat_add]
    omega

private theorem and_top_ne_zero (x : Word) : x &&& 0x80000000 ≠ 0 ↔ 2 ^ 31 ≤ x.toNat := by
  have htop : (0x80000000 : Word) = BitVec.twoPow 32 31 := rfl
  rw [htop, BitVec.and_twoPow, ← BitVec.msb_eq_getLsbD_last, BitVec.msb_eq_decide]
  by_cases h : 2 ^ 31 ≤ x.toNat
  · simp only [h, decide_true, if_true, ne_eq, iff_true]
    decide
  · simp only [h, decide_false, iff_false, not_not]
    rfl

private theorem toNat_double (x : Word) : (x <<< 1).toNat = 2 * x.toNat % 2 ^ 32 := by
  rw [BitVec.toNat_shiftLeft, Nat.shiftLeft_eq, Nat.mul_comm]

private theorem toNat_double_or_one (x : Word) :
    ((x <<< 1) ||| 1).toNat = 2 * x.toNat % 2 ^ 32 + 1 := by
  have hdisjoint : (x <<< 1) &&& 1 = 0 := by
    apply BitVec.eq_of_toNat_eq
    have hone : (1 : Word).toNat = 1 := rfl
    have hzero : (0 : Word).toNat = 0 := rfl
    rw [BitVec.toNat_and, toNat_double, hone, hzero, Nat.and_one_is_mod]
    omega
  rw [← BitVec.add_eq_or_of_and_eq_zero _ _ hdisjoint, BitVec.toNat_add, toNat_double]
  have hone : (1 : Word).toNat = 1 := rfl
  omega

private theorem doubleWord_shift (bHi bLo : Word) :
    doubleWord (if bLo &&& 0x80000000 ≠ 0 then (bHi <<< 1) ||| 1 else bHi <<< 1) (bLo <<< 1) ≡
      2 * doubleWord bHi bLo [MOD 2 ^ 64] := by
  have hbLo := bLo.isLt
  have hbHi := bHi.isLt
  by_cases htop : bLo &&& 0x80000000 ≠ 0
  · rw [if_pos htop]
    rw [and_top_ne_zero] at htop
    simp only [doubleWord, Nat.ModEq, toNat_double, toNat_double_or_one]
    omega
  · rw [if_neg htop]
    rw [and_top_ne_zero] at htop
    simp only [doubleWord, Nat.ModEq, toNat_double]
    omega

private theorem and_one_ne_zero (a : Word) : a &&& 1 ≠ 0 ↔ a.toNat % 2 = 1 := by
  have hone : (1 : Word).toNat = 1 := rfl
  have hzero : (0 : Word).toNat = 0 := rfl
  rw [ne_eq, ← BitVec.toNat_inj, BitVec.toNat_and, hone, hzero, Nat.and_one_is_mod]
  omega

private theorem eq_one_of_last {a : Word} (hbit : a &&& 1 ≠ 0) (hrest : a &&& 0xfffffffe = 0) :
    a.toNat = 1 := by
  have hsplit : a = a &&& 1 := by
    calc a = a &&& (0xfffffffe ||| 1) := (BitVec.and_allOnes).symm
      _ = (a &&& 0xfffffffe) ||| (a &&& 1) := BitVec.and_or_distrib_left
      _ = a &&& 1 := by rw [hrest]; exact BitVec.zero_or
  have hodd := (and_one_ne_zero a).mp hbit
  have hle : a.toNat ≤ 1 := by
    rw [hsplit, BitVec.toNat_and]
    exact Nat.and_le_right
  omega

private theorem toNat_sshiftRight_one_mod (a : Word) {n : Nat} (hn : n < 32) :
    (a.sshiftRight 1).toNat % 2 ^ n = a.toNat / 2 % 2 ^ n := by
  have ha := a.isLt
  have hdvd : 2 ^ n ∣ 2 ^ 31 := Nat.pow_dvd_pow 2 (by omega)
  by_cases hmsb : a.msb = true
  · have htop : 2 ^ 31 ≤ a.toNat := by
      simpa only [BitVec.msb_eq_decide, decide_eq_true_eq] using hmsb
    have hshift : (a.sshiftRight 1).toNat = 2 ^ 31 + a.toNat / 2 := by
      rw [BitVec.toNat_sshiftRight_of_msb_true hmsb, Nat.shiftRight_one]
      omega
    obtain ⟨c, hc⟩ := hdvd
    rw [hshift, hc, Nat.mul_add_mod]
  · have hfalse : a.msb = false := by simpa using hmsb
    rw [BitVec.toNat_sshiftRight_of_msb_false hfalse, Nat.shiftRight_one]

private theorem doubleWord_turn (a hi lo bHi bLo : Word) :
    doubleWord
        (if a &&& 1 ≠ 0 then (if lo + bLo < bLo then hi + 1 else hi) + bHi else hi)
        (if a &&& 1 ≠ 0 then lo + bLo else lo) ≡
      doubleWord hi lo + a.toNat % 2 * doubleWord bHi bLo [MOD 2 ^ 64] := by
  by_cases hbit : a &&& 1 ≠ 0
  · rw [if_pos hbit, if_pos hbit, (and_one_ne_zero a).mp hbit, Nat.one_mul]
    exact doubleWord_carryAdd hi lo bHi bLo
  · have heven : a.toNat % 2 = 0 := by
      rw [and_one_ne_zero] at hbit
      omega
    rw [if_neg hbit, if_neg hbit, heven, Nat.zero_mul, Nat.add_zero]

/-! ## The loop -/

private theorem multLoop_modEq {n : Nat} (hn : n ≤ 32) (a bLo bHi lo hi : Word) :
    doubleWord (multLoop n a bLo bHi lo hi).1 (multLoop n a bLo bHi lo hi).2 ≡
      doubleWord hi lo + a.toNat % 2 ^ n * doubleWord bHi bLo [MOD 2 ^ 64] := by
  induction n generalizing a bLo bHi lo hi with
  | zero =>
    rw [Nat.pow_zero, Nat.mod_one, Nat.zero_mul, Nat.add_zero]
    exact Nat.ModEq.rfl
  | succ n ih =>
    have hturn := doubleWord_turn a hi lo bHi bLo
    by_cases hexit : a &&& 1 ≠ 0 ∧ a &&& 0xfffffffe = 0
    · -- the turns that are skipped would add nothing
      have hone := eq_one_of_last hexit.1 hexit.2
      have hlast : a.toNat % 2 ^ (n + 1) = a.toNat % 2 := by
        rw [hone]
        exact Nat.mod_eq_of_lt (Nat.one_lt_two_pow (Nat.succ_ne_zero n))
      simp only [multLoop, if_pos hexit]
      rw [hlast]
      exact hturn
    · have hbits : a.toNat % 2 ^ (n + 1) = a.toNat % 2 + 2 * (a.toNat / 2 % 2 ^ n) := by
        rw [Nat.pow_succ, Nat.mul_comm, Nat.mod_mul]
      have hlater := Nat.ModEq.mul_left (a.toNat / 2 % 2 ^ n) (doubleWord_shift bHi bLo)
      simp only [multLoop, if_neg hexit]
      apply (ih (by omega) ..).trans
      rw [toNat_sshiftRight_one_mod a (by omega), hbits, Nat.add_mul, ← Nat.add_assoc]
      apply hturn.add
      rw [Nat.mul_left_comm, ← Nat.mul_assoc] at hlater
      exact hlater

private theorem multLoop_product (a b : Word) :
    doubleWord (multLoop 32 a b 0 0 0).1 (multLoop 32 a b 0 0 0).2 = a.toNat * b.toNat := by
  have hloop := multLoop_modEq (Nat.le_refl 32) a b 0 0 0
  have hfits : a.toNat * b.toNat < 2 ^ 64 := by
    calc a.toNat * b.toNat < 2 ^ 32 * 2 ^ 32 := Nat.mul_lt_mul'' a.isLt b.isLt
      _ = 2 ^ 64 := rfl
  have hstart : doubleWord 0 0 + a.toNat % 2 ^ 32 * doubleWord 0 b = a.toNat * b.toNat := by
    rw [Nat.mod_eq_of_lt a.isLt]
    simp [doubleWord]
  rw [hstart] at hloop
  exact hloop.eq_of_lt_of_lt (doubleWord_lt ..) hfits

/-! ## Signs -/

private theorem slt_zero (a : Word) : a.slt 0 = true ↔ 2 ^ 31 ≤ a.toNat := by
  have hmsb : a.slt 0 = a.msb := BitVec.slt_zero_eq_msb
  rw [hmsb, BitVec.msb_eq_decide, decide_eq_true_eq]

private theorem toInt_word (a : Word) :
    a.toInt = if 2 ^ 31 ≤ a.toNat then (a.toNat : Int) - (2 : Int) ^ 32 else (a.toNat : Int) := by
  rw [BitVec.toInt_eq_toNat_cond]
  split <;> split <;> omega

private theorem toNat_magnitude (a : Word) :
    (if a.slt 0 = true then -a else a).toNat = a.toInt.natAbs := by
  have ha := a.isLt
  rw [toInt_word]
  by_cases hneg : a.slt 0 = true
  · have htop := (slt_zero a).mp hneg
    rw [if_pos hneg, if_pos htop, BitVec.toNat_neg]
    omega
  · have htop := mt (slt_zero a).mpr hneg
    rw [if_neg hneg, if_neg htop, Int.natAbs_natCast]

private theorem signedDoubleWord_small {hi lo : Word} (hsmall : doubleWord hi lo < 2 ^ 63) :
    signedDoubleWord hi lo = doubleWord hi lo := by
  have hlo := lo.isLt
  rw [doubleWord] at hsmall
  rw [signedDoubleWord, doubleWord, toInt_word, if_neg (by omega)]
  push_cast
  rfl

private theorem signedDoubleWord_negate {hi lo : Word} (hpos : 0 < doubleWord hi lo)
    (hsmall : doubleWord hi lo < 2 ^ 63) :
    signedDoubleWord (if ~~~lo + 1 = 0 then ~~~hi + 1 else ~~~hi) (~~~lo + 1) =
      -(doubleWord hi lo : Int) := by
  have hhi := hi.isLt
  have hlo := lo.isLt
  have hone : (1 : Word).toNat = 1 := rfl
  have hzero : (0 : Word).toNat = 0 := rfl
  rw [doubleWord] at hpos hsmall
  simp only [signedDoubleWord, doubleWord, toInt_word]
  by_cases hcarry : ~~~lo + 1 = 0
  · rw [if_pos hcarry]
    rw [← BitVec.toNat_inj, BitVec.toNat_add, BitVec.toNat_not, hone, hzero] at hcarry
    simp only [BitVec.toNat_add, BitVec.toNat_not, hone]
    split <;> omega
  · rw [if_neg hcarry]
    rw [← BitVec.toNat_inj, BitVec.toNat_add, BitVec.toNat_not, hone, hzero] at hcarry
    simp only [BitVec.toNat_add, BitVec.toNat_not, hone]
    split <;> omega

private theorem toInt_neg_iff (a : Word) : a.slt 0 = true ↔ a.toInt < 0 := by
  have ha := a.isLt
  rw [slt_zero, toInt_word]
  split <;> omega

private theorem toInt_mul_sign (a b : Word) :
    a.toInt * b.toInt =
      if (a.slt 0 != b.slt 0) = true then -((a.toInt.natAbs * b.toInt.natAbs : Nat) : Int)
      else ((a.toInt.natAbs * b.toInt.natAbs : Nat) : Int) := by
  rw [← Int.natAbs_mul]
  have hsign : (a.slt 0 != b.slt 0) = true ↔ ¬(a.toInt < 0 ↔ b.toInt < 0) := by
    rw [← toInt_neg_iff, ← toInt_neg_iff, bne_iff_ne, ne_eq, Bool.eq_iff_iff]
  by_cases hne : (a.slt 0 != b.slt 0) = true
  · rw [if_pos hne]
    have hnonpos : a.toInt * b.toInt ≤ 0 := by
      rw [hsign] at hne
      rcases lt_or_ge a.toInt 0 with ha | ha
      · exact Int.mul_nonpos_of_nonpos_of_nonneg ha.le (by omega)
      · exact Int.mul_nonpos_of_nonneg_of_nonpos ha (by omega)
    omega
  · rw [if_neg hne]
    have hnonneg : 0 ≤ a.toInt * b.toInt := by
      rw [hsign] at hne
      rcases lt_or_ge a.toInt 0 with ha | ha
      · exact Int.mul_nonneg_of_nonpos_of_nonpos ha.le (by omega)
      · exact Int.mul_nonneg ha (by omega)
    omega

private theorem magnitude_mul_lt (a b : Word) : a.toInt.natAbs * b.toInt.natAbs < 2 ^ 63 := by
  have hbound (x : Word) : x.toInt.natAbs ≤ 2 ^ 31 := by
    have hx := x.isLt
    rw [toInt_word]
    split <;> omega
  calc a.toInt.natAbs * b.toInt.natAbs ≤ 2 ^ 31 * 2 ^ 31 := Nat.mul_le_mul (hbound a) (hbound b)
    _ < 2 ^ 63 := by decide

/-! ## Both products -/

private theorem mult_unsigned (a b : Word) :
    doubleWord (mult a b false).1 (mult a b false).2 = a.toNat * b.toNat := by
  by_cases hzero : a = 0 ∨ b = 0
  · rw [mult, if_pos hzero]
    rcases hzero with rfl | rfl <;> simp [doubleWord]
  · rw [mult, if_neg hzero]
    simp only [Bool.false_and, Bool.false_eq_true, false_and, if_false]
    exact multLoop_product a b

private theorem mult_signed (a b : Word) :
    signedDoubleWord (mult a b true).1 (mult a b true).2 = a.toInt * b.toInt := by
  by_cases hzero : a = 0 ∨ b = 0
  · rw [mult, if_pos hzero]
    rcases hzero with rfl | rfl <;> simp [signedDoubleWord]
  · have hproduct := multLoop_product (if a.slt 0 = true then -a else a)
      (if b.slt 0 = true then -b else b)
    rw [toNat_magnitude, toNat_magnitude] at hproduct
    have hsmall := magnitude_mul_lt a b
    have hpos : 0 < a.toInt.natAbs * b.toInt.natAbs := by
      rw [not_or] at hzero
      have hnonzero {x : Word} (hx : x ≠ 0) : x.toInt ≠ 0 :=
        fun h => hx (BitVec.toInt_inj.mp h)
      exact Nat.mul_pos (Int.natAbs_pos.mpr (hnonzero hzero.1))
        (Int.natAbs_pos.mpr (hnonzero hzero.2))
    rw [← hproduct] at hsmall hpos
    rw [mult, if_neg hzero, toInt_mul_sign, ← hproduct]
    simp only [Bool.true_and, true_and]
    by_cases hneg : (a.slt 0 != b.slt 0) = true
    · rw [if_pos hneg, if_pos hneg]
      exact signedDoubleWord_negate hpos hsmall
    · rw [if_neg hneg, if_neg hneg]
      exact signedDoubleWord_small hsmall

/-- `Mult` gives both words of the product, for signed and for unsigned operands. -/
theorem mult_full_product (a b : Word) :
    (mult a b true).1.toInt * 2 ^ 32 + (mult a b true).2.toNat = a.toInt * b.toInt ∧
      (mult a b false).1.toNat * 2 ^ 32 + (mult a b false).2.toNat = a.toNat * b.toNat :=
  ⟨mult_signed a b, mult_unsigned a b⟩

end Nachos

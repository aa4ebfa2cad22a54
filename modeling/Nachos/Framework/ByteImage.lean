import Nachos.Framework.Int32
import Mathlib.Logic.Function.Basic

/-!
# Objects as their bytes

An object in memory or on a storage device is the function from offsets to bytes. The 32-bit
words of an array are its bytes four at a time, least significant byte first.
-/

namespace Framework

abbrev Image := Nat → BitVec 8

namespace Image

/-- The `k`-th word of an object. -/
def word (img : Image) (k : Nat) : BitVec 32 :=
  img (4 * k + 3) ++ img (4 * k + 2) ++ img (4 * k + 1) ++ img (4 * k)

/-- Stores into the `k`-th word. -/
def setWord (img : Image) (k : Nat) (w : BitVec 32) : Image :=
  fun a => if a / 4 = k then w.extractLsb' (8 * (a % 4)) 8 else img a

def setByte (img : Image) (a : Nat) (b : BitVec 8) : Image := Function.update img a b

/-- Copies `n` bytes of `src` to offset `off`. -/
def blit (dst : Image) (off : Nat) (src : Image) (n : Nat) : Image :=
  fun a => if off ≤ a ∧ a < off + n then src (a - off) else dst a

/-- Two objects have the same first `n` bytes. -/
def AgreeTo (n : Nat) (x y : Image) : Prop := ∀ a < n, x a = y a

theorem AgreeTo.trans {n : Nat} {x y z : Image} (h : AgreeTo n x y) (h' : AgreeTo n y z) :
    AgreeTo n x z :=
  fun a ha => (h a ha).trans (h' a ha)

/-! ## Words -/

/-- A number that fits into a word is stored as it is. -/
theorem toInt_ofInt {x : Int} (h : -2 ^ 31 ≤ x ∧ x < 2 ^ 31) :
    (BitVec.ofInt 32 x).toInt = x :=
  int32_of_range h

theorem word_congr {x y : Image} {k : Nat} (h : ∀ j < 4, x (4 * k + j) = y (4 * k + j)) :
    x.word k = y.word k := by
  have h₀ : x (4 * k) = y (4 * k) := h 0 (by decide)
  simp only [word, h₀, h 1 (by decide), h 2 (by decide), h 3 (by decide)]

theorem AgreeTo.word {n k : Nat} {x y : Image} (h : AgreeTo n x y) (hk : 4 * k + 4 ≤ n) :
    x.word k = y.word k := by
  apply word_congr
  intro j hj
  exact h _ (by omega)

private theorem bytes_append (w : BitVec 32) :
    (w.extractLsb' 24 8 ++ w.extractLsb' 16 8 ++ w.extractLsb' 8 8 ++ w.extractLsb' 0 8 :
      BitVec 32) = w := by
  apply BitVec.eq_of_getLsbD_eq
  intro i hi
  simp only [BitVec.getLsbD_append, BitVec.getLsbD_extractLsb']
  rcases (by omega : i < 8 ∨ 8 ≤ i ∧ i < 16 ∨ 16 ≤ i ∧ i < 24 ∨ 24 ≤ i) with h | h | h | h
  · simp [h]
  · have h₁ : ¬ i < 8 := by omega
    have h₂ : i - 8 < 8 := by omega
    have h₃ : 8 + (i - 8) = i := by omega
    simp [h₁, h₂, h₃]
  · have h₁ : ¬ i < 8 := by omega
    have h₂ : ¬ i - 8 < 8 := by omega
    have h₃ : i - 8 - 8 < 8 := by omega
    have h₄ : 16 + (i - 8 - 8) = i := by omega
    simp [h₁, h₂, h₃, h₄]
  · have h₁ : ¬ i < 8 := by omega
    have h₂ : ¬ i - 8 < 8 := by omega
    have h₃ : ¬ i - 8 - 8 < 8 := by omega
    have h₄ : i - 8 - 8 - 8 < 8 := by omega
    have h₅ : 24 + (i - 8 - 8 - 8) = i := by omega
    simp [h₁, h₂, h₃, h₄, h₅]

@[simp] theorem word_setWord_self (img : Image) (k : Nat) (w : BitVec 32) :
    (img.setWord k w).word k = w := by
  have hdiv : ∀ j < 4, (4 * k + j) / 4 = k := by omega
  have hmod : ∀ j < 4, (4 * k + j) % 4 = j := by omega
  have h₀ : 4 * k / 4 = k := by omega
  have h₀' : 4 * k % 4 = 0 := by omega
  simp only [word, setWord, hdiv 1 (by decide), hdiv 2 (by decide), hdiv 3 (by decide),
    hmod 1 (by decide), hmod 2 (by decide), hmod 3 (by decide), h₀, h₀', if_true]
  exact bytes_append w

theorem setWord_of_ne {img : Image} {k a : Nat} (w : BitVec 32) (h : a / 4 ≠ k) :
    img.setWord k w a = img a := by
  simp [setWord, h]

theorem word_setWord_of_ne {img : Image} {k j : Nat} (w : BitVec 32) (h : j ≠ k) :
    (img.setWord k w).word j = img.word j := by
  apply word_congr
  intro i hi
  exact setWord_of_ne w (by omega)

theorem word_setWord (img : Image) (k j : Nat) (w : BitVec 32) :
    (img.setWord k w).word j = if j = k then w else img.word j := by
  split
  next h => rw [h, word_setWord_self]
  next h => exact word_setWord_of_ne w h

@[simp] theorem setByte_self (img : Image) (a : Nat) (b : BitVec 8) : img.setByte a b a = b := by
  simp [setByte]

theorem setByte_of_ne {img : Image} {a a' : Nat} (b : BitVec 8) (h : a' ≠ a) :
    img.setByte a b a' = img a' := by
  simp [setByte, h]

theorem word_setByte_of_ne {img : Image} {a k : Nat} (b : BitVec 8) (h : a / 4 ≠ k) :
    (img.setByte a b).word k = img.word k := by
  apply word_congr
  intro j hj
  exact setByte_of_ne b (by omega)

/-! ## Copies -/

theorem blit_of_mem {dst src : Image} {off n a : Nat} (h : off ≤ a) (h' : a < off + n) :
    dst.blit off src n a = src (a - off) := by
  simp [blit, h, h']

theorem blit_of_notMem {dst src : Image} {off n a : Nat} (h : a < off ∨ off + n ≤ a) :
    dst.blit off src n a = dst a := by
  have hout : ¬ (off ≤ a ∧ a < off + n) := by omega
  simp only [blit, hout, if_false]

theorem blit_zero_agreeTo (dst src : Image) (n : Nat) : AgreeTo n (dst.blit 0 src n) src := by
  intro a ha
  rw [blit_of_mem (Nat.zero_le a) (by omega)]
  rfl

end Image
end Framework

import Mathlib.Tactic.Common
import Mathlib.Algebra.Group.Nat.Defs
import Mathlib.Algebra.GroupWithZero.Nat

/-!
# Memory as bytes

A memory gives a byte for each address, and addresses wrap around. A number is stored with its
least significant byte first.
-/

namespace Framework

abbrev ByteMemory (w : Nat) := BitVec w → BitVec 8

namespace ByteMemory

variable {w : Nat}

/-- The number that the `n` bytes at an address make up. -/
def compose (mem : ByteMemory w) (a : BitVec w) : Nat → Nat
  | 0 => 0
  | n + 1 => (mem a).toNat + 256 * compose mem (a + 1) n

/-- The memory after the low `n` bytes of a number have been stored at an address. -/
def overlay (mem : ByteMemory w) (a : BitVec w) (n value : Nat) : ByteMemory w := fun x =>
  if (x - a).toNat < n then BitVec.ofNat 8 (value / 256 ^ (x - a).toNat) else mem x

theorem overlay_of_notMem {mem : ByteMemory w} {a x : BitVec w} {n : Nat} (value : Nat)
    (h : ¬ (x - a).toNat < n) : overlay mem a n value x = mem x := if_neg h

theorem add_ofNat_succ (a : BitVec w) (i : Nat) :
    a + 1 + BitVec.ofNat w i = a + BitVec.ofNat w (i + 1) := by
  have hsucc : BitVec.ofNat w (i + 1) = 1 + BitVec.ofNat w i := by
    rw [Nat.add_comm i 1, BitVec.ofNat_add]
    rfl
  rw [hsucc, BitVec.add_assoc]

theorem compose_congr {mem mem' : ByteMemory w} {a : BitVec w} {n : Nat}
    (h : ∀ i < n, mem (a + BitVec.ofNat w i) = mem' (a + BitVec.ofNat w i)) :
    compose mem a n = compose mem' a n := by
  induction n generalizing a with
  | zero => rfl
  | succ n ih =>
    have hhead := h 0 (Nat.succ_pos n)
    rw [BitVec.add_zero] at hhead
    have htail : compose mem (a + 1) n = compose mem' (a + 1) n := by
      apply ih
      intro i hi
      rw [add_ofNat_succ]
      exact h (i + 1) (Nat.succ_lt_succ hi)
    rw [compose, compose, hhead, htail]

theorem compose_lt (mem : ByteMemory w) (a : BitVec w) (n : Nat) : compose mem a n < 256 ^ n := by
  induction n generalizing a with
  | zero => exact Nat.one_pos
  | succ n ih =>
    have hhead := (mem a).isLt
    have htail := ih (a + 1)
    rw [compose, Nat.pow_succ]
    omega

/-- The bytes of the number are those in memory. -/
theorem compose_div (mem : ByteMemory w) (a : BitVec w) {n i : Nat} (hi : i < n) :
    compose mem a n / 256 ^ i % 256 = (mem (a + BitVec.ofNat w i)).toNat := by
  induction n generalizing a i with
  | zero => omega
  | succ n ih =>
    have hhead := (mem a).isLt
    rw [compose]
    cases i with
    | zero =>
      rw [Nat.pow_zero, Nat.div_one, BitVec.add_zero]
      omega
    | succ i =>
      have hdiv : ((mem a).toNat + 256 * compose mem (a + 1) n) / 256 = compose mem (a + 1) n := by
        omega
      rw [Nat.pow_succ, Nat.mul_comm (256 ^ i), ← Nat.div_div_eq_div_mul, hdiv, ih (a + 1) (by omega),
        add_ofNat_succ]

/-- What has been stored is read back. -/
theorem compose_eq_mod {mem : ByteMemory w} {a : BitVec w} {n : Nat} (value : Nat)
    (h : ∀ i < n, mem (a + BitVec.ofNat w i) = BitVec.ofNat 8 (value / 256 ^ i)) :
    compose mem a n = value % 256 ^ n := by
  induction n generalizing a value with
  | zero => rw [compose, Nat.pow_zero, Nat.mod_one]
  | succ n ih =>
    have hhead := h 0 (Nat.succ_pos n)
    rw [BitVec.add_zero, Nat.pow_zero, Nat.div_one] at hhead
    have htail : compose mem (a + 1) n = value / 256 % 256 ^ n := by
      apply ih
      intro i hi
      rw [add_ofNat_succ, h (i + 1) (Nat.succ_lt_succ hi), Nat.div_div_eq_div_mul, Nat.pow_succ,
        Nat.mul_comm (256 ^ i)]
    rw [compose, hhead, htail, BitVec.toNat_ofNat, Nat.pow_succ 256, Nat.mul_comm (256 ^ n),
      Nat.mod_mul]

theorem compose_overlay_self (mem : ByteMemory w) (a : BitVec w) {n : Nat} (hn : n ≤ 2 ^ w)
    (value : Nat) : compose (overlay mem a n value) a n = value % 256 ^ n := by
  apply compose_eq_mod
  intro i hi
  have hoff : (a + BitVec.ofNat w i - a).toNat = i := by
    rw [BitVec.add_comm, BitVec.add_sub_cancel, BitVec.toNat_ofNat]
    exact Nat.mod_eq_of_lt (by omega)
  rw [overlay, hoff, if_pos hi]

/-! ## Words of two and four bytes -/

theorem toNat_append_byte {n : Nat} (x : BitVec n) (y : BitVec 8) :
    (x ++ y).toNat = y.toNat + 256 * x.toNat := by
  rw [BitVec.toNat_append, ← Nat.shiftLeft_add_eq_or_of_lt y.isLt, Nat.shiftLeft_eq]
  omega

theorem ofNat_compose_one (mem : ByteMemory w) (a : BitVec w) :
    BitVec.ofNat 8 (mem.compose a 1) = mem a := by
  simp only [compose, Nat.mul_zero, Nat.add_zero, BitVec.ofNat_toNat, BitVec.setWidth_eq]

theorem ofNat_compose_two (mem : ByteMemory w) (a : BitVec w) :
    BitVec.ofNat 16 (mem.compose a 2) = mem (a + 1) ++ mem a := by
  apply BitVec.eq_of_toNat_eq
  have h₀ := (mem a).isLt
  have h₁ := (mem (a + 1)).isLt
  rw [toNat_append_byte, BitVec.toNat_ofNat]
  simp only [compose]
  omega

theorem ofNat_compose_four (mem : ByteMemory w) (a : BitVec w) :
    BitVec.ofNat 32 (mem.compose a 4) =
      mem (a + BitVec.ofNat w 3) ++ mem (a + BitVec.ofNat w 2) ++ mem (a + BitVec.ofNat w 1) ++
        mem a := by
  apply BitVec.eq_of_toNat_eq
  have h₀ := (mem a).isLt
  have h₁ := (mem (a + BitVec.ofNat w 1)).isLt
  have h₂ := (mem (a + BitVec.ofNat w 2)).isLt
  have h₃ := (mem (a + BitVec.ofNat w 3)).isLt
  have htwo : a + 1 + 1 = a + BitVec.ofNat w 2 := add_ofNat_succ a 1
  have hthree : a + 1 + 1 + 1 = a + BitVec.ofNat w 3 := by
    rw [htwo, BitVec.add_assoc]
    exact congrArg (a + ·) (BitVec.ofNat_add 2 1).symm
  have hone : a + 1 = a + BitVec.ofNat w 1 := rfl
  simp only [toNat_append_byte, BitVec.toNat_ofNat, compose]
  rw [hthree, htwo, hone]
  omega

/-- A byte of a word. -/
theorem extractLsb'_byte (value : BitVec 32) (k : Nat) :
    value.extractLsb' (8 * k) 8 = BitVec.ofNat 8 (value.toNat / 256 ^ k) := by
  apply BitVec.eq_of_toNat_eq
  rw [BitVec.extractLsb'_toNat, BitVec.toNat_ofNat, Nat.shiftRight_eq_div_pow, Nat.pow_mul]

end ByteMemory

/-! ## The bytes of a word -/

def byte (x : BitVec 32) (i : Nat) : BitVec 8 := x.extractLsb' (8 * i) 8

theorem eq_of_byte {x y : BitVec 32} (h : ∀ i < 4, byte x i = byte y i) : x = y := by
  apply BitVec.eq_of_getLsbD_eq
  intro j hj
  have hbit := congrArg (fun b => b.getLsbD (j % 8)) (h (j / 8) (by omega))
  have hlt : j % 8 < 8 := Nat.mod_lt _ (by decide)
  have hj' : 8 * (j / 8) + j % 8 = j := by omega
  simpa [byte, BitVec.getLsbD_extractLsb', hlt, hj'] using hbit

theorem byte_or (x y : BitVec 32) (i : Nat) : byte (x ||| y) i = byte x i ||| byte y i :=
  BitVec.extractLsb'_or ..

theorem byte_and (x y : BitVec 32) (i : Nat) : byte (x &&& y) i = byte x i &&& byte y i :=
  BitVec.extractLsb'_and ..

theorem byte_shiftLeft (x : BitVec 32) (n : Nat) {i : Nat} (hi : i < 4) :
    byte (x <<< (8 * n)) i = if n ≤ i then byte x (i - n) else 0#8 := by
  apply BitVec.eq_of_getLsbD_eq
  intro j hj
  by_cases hn : n ≤ i
  · have h₁ : 8 * i + j < 32 := by omega
    have h₂ : ¬ 8 * i + j < 8 * n := by omega
    have h₃ : 8 * i + j - 8 * n = 8 * (i - n) + j := by omega
    rw [if_pos hn, byte, byte, BitVec.getLsbD_extractLsb', BitVec.getLsbD_extractLsb',
      BitVec.getLsbD_shiftLeft]
    simp [h₁, h₂, h₃]
  · have h₂ : 8 * i + j < 8 * n := by omega
    rw [if_neg hn, byte, BitVec.getLsbD_extractLsb', BitVec.getLsbD_shiftLeft]
    simp [h₂]

/-- Bytes that do not reach the sign are the same after an arithmetic shift. -/
theorem byte_sshiftRight (x : BitVec 32) {n i : Nat} (hi : i + n < 4) :
    byte (x.sshiftRight (8 * n)) i = byte x (i + n) := by
  apply BitVec.eq_of_getLsbD_eq
  intro j hj
  have h₁ : ¬ 32 ≤ 8 * i + j := by omega
  have h₂ : 8 * n + (8 * i + j) = 8 * (i + n) + j := by omega
  have h₃ : 8 * (i + n) + j < 32 := by omega
  rw [byte, byte, BitVec.getLsbD_extractLsb', BitVec.getLsbD_extractLsb', BitVec.getLsbD_sshiftRight]
  simp [h₁, h₂, h₃]

/-- A mask for the low `n` bytes. -/
def LowMask (mask : BitVec 32) (n : Nat) : Prop :=
  ∀ i < 4, byte mask i = if i < n then BitVec.allOnes 8 else 0#8

def HighMask (mask : BitVec 32) (n : Nat) : Prop :=
  ∀ i < 4, byte mask i = if i < n then 0#8 else BitVec.allOnes 8

instance (mask : BitVec 32) (n : Nat) : Decidable (LowMask mask n) :=
  inferInstanceAs (Decidable (∀ i < 4, _))

instance (mask : BitVec 32) (n : Nat) : Decidable (HighMask mask n) :=
  inferInstanceAs (Decidable (∀ i < 4, _))

/-- The low bytes of one word and the high bytes of another. -/
theorem byte_masked {low high : BitVec 32} {n i : Nat} (hlow : LowMask low n)
    (hhigh : HighMask high n) (hi : i < 4) (x y : BitVec 32) :
    byte ((x &&& high) ||| (y &&& low)) i = if i < n then byte y i else byte x i := by
  rw [byte_or, byte_and, byte_and, hlow i hi, hhigh i hi]
  split
  · rw [BitVec.and_zero, BitVec.zero_or, BitVec.and_allOnes]
  · rw [BitVec.and_zero, BitVec.or_zero, BitVec.and_allOnes]

/-- The same where the high bytes are moved up instead of masked. -/
theorem byte_masked_shiftLeft {low : BitVec 32} {n i : Nat} (hlow : LowMask low n) (hi : i < 4)
    (x y : BitVec 32) :
    byte ((x &&& low) ||| (y <<< (8 * n))) i = if n ≤ i then byte y (i - n) else byte x i := by
  rw [byte_or, byte_and, hlow i hi, byte_shiftLeft y n hi]
  by_cases hn : n ≤ i
  · rw [if_neg (by omega), if_pos hn, BitVec.and_zero, BitVec.zero_or, if_pos hn]
  · rw [if_pos (by omega), if_neg hn, BitVec.or_zero, BitVec.and_allOnes, if_neg hn]

namespace ByteMemory

theorem byte_compose {w : Nat} (mem : ByteMemory w) (a : BitVec w) {i : Nat} (hi : i < 4) :
    byte (BitVec.ofNat 32 (mem.compose a 4)) i = mem (a + BitVec.ofNat w i) := by
  have hlt : mem.compose a 4 < 2 ^ 32 := compose_lt mem a 4
  apply BitVec.eq_of_toNat_eq
  rw [byte, extractLsb'_byte, BitVec.toNat_ofNat, BitVec.toNat_ofNat, Nat.mod_eq_of_lt hlt]
  exact compose_div mem a hi

theorem overlay_four {w : Nat} (mem : ByteMemory w) (a x : BitVec w) (value : BitVec 32) :
    mem.overlay a 4 value.toNat x =
      if (x - a).toNat < 4 then byte value (x - a).toNat else mem x := by
  rw [overlay, byte, extractLsb'_byte]

end ByteMemory
end Framework

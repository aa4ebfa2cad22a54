import Nachos.Framework.MipsIsa
import Nachos.Machine.UnalignedPair

/-!
# The simulator and the architecture

`OneInstruction` against the definition of MIPS I, for the instructions that compute in
registers, branch and jump.
-/

namespace Nachos

open Framework

/-! ## Decoding -/

def OpCode.mnemonic : OpCode → Option Mips.Mnemonic
  | .add => some .add
  | .addi => some .addi
  | .addiu => some .addiu
  | .addu => some .addu
  | .sub => some .sub
  | .subu => some .subu
  | .and => some .and
  | .andi => some .andi
  | .or => some .or
  | .ori => some .ori
  | .xor => some .xor
  | .xori => some .xori
  | .nor => some .nor
  | .lui => some .lui
  | .sll => some .sll
  | .sllv => some .sllv
  | .sra => some .sra
  | .srav => some .srav
  | .slt => some .slt
  | .slti => some .slti
  | .sltiu => some .sltiu
  | .sltu => some .sltu
  | .mfhi => some .mfhi
  | .mflo => some .mflo
  | .mthi => some .mthi
  | .mtlo => some .mtlo
  | .beq => some .beq
  | .bne => some .bne
  | .blez => some .blez
  | .bgtz => some .bgtz
  | .bltz => some .bltz
  | .bgez => some .bgez
  | .bltzal => some .bltzal
  | .bgezal => some .bgezal
  | .j => some .j
  | .jal => some .jal
  | .jr => some .jr
  | .jalr => some .jalr
  | _ => none

/-- How `Decode` reads the rest of the word. -/
def formatOf : Mips.Mnemonic → Format
  | .add | .addu | .sub | .subu | .and | .or | .xor | .nor | .sll | .sllv | .sra | .srav | .slt
  | .sltu | .mfhi | .mflo | .mthi | .mtlo | .jr | .jalr => .rfmt
  | .j | .jal => .jfmt
  | _ => .ifmt

/-- An entry of `opTable` says the same as the architecture. -/
def OpInfo.agrees (k : Nat) : OpInfo → Bool
  | .special => k = 0
  | .bcond => k = 1
  | .op opCode format =>
    2 ≤ k ∧ opCode.mnemonic = Mips.primaryOp k ∧
      ∀ op ∈ Mips.primaryOp k, formatOf op = format

private theorem opTable_agrees : ∀ k < 64, (opTable.getD k (.op .res .ifmt)).agrees k = true := by
  decide

private theorem specialTable_agrees :
    ∀ k < 64, (specialTable.getD k .res).mnemonic = Mips.specialOp k ∧
    ∀ op ∈ Mips.specialOp k, formatOf op = .rfmt := by
  decide

theorem toNat_field {value : Word} {n k mask : Nat} (hmask : mask = 2 ^ k - 1) (hk : k ≤ 32) :
    ((value >>> n) &&& BitVec.ofNat 32 mask).toNat = value.toNat / 2 ^ n % 2 ^ k := by
  have hpow := Nat.pow_le_pow_right (n := 2) (by decide) hk
  have hpos := Nat.two_pow_pos k
  have hlt : mask < 2 ^ 32 := by omega
  rw [BitVec.toNat_and, BitVec.toNat_ofNat, Nat.mod_eq_of_lt hlt, hmask,
    Nat.and_two_pow_sub_one_eq_mod, BitVec.toNat_ushiftRight, Nat.shiftRight_eq_div_pow]

private theorem toNat_lowField {value : Word} {k mask : Nat} (hmask : mask = 2 ^ k - 1)
    (hk : k ≤ 32) :
    (value &&& BitVec.ofNat 32 mask).toNat = value.toNat % 2 ^ k := by
  have h : ((value >>> 0) &&& BitVec.ofNat 32 mask).toNat = value.toNat / 2 ^ 0 % 2 ^ k :=
    toNat_field hmask hk
  rw [BitVec.ushiftRight_zero, Nat.pow_zero, Nat.div_one] at h
  exact h

private theorem regimm_iff (value : Word) {k : Nat} (hk : k < 32) {b : Word}
    (hb : b.toNat = k * 2 ^ 16) :
    value &&& (0x1f0000 : Word) = b ↔ Mips.rtField value.toNat = k := by
  have hmask : ∀ i < 32, (0x1f0000#32).getLsbD i =
      (!decide (i < 16) && (0x1f#32).getLsbD (i - 16)) := by decide
  have hshift : value &&& (0x1f0000 : Word) = ((value >>> 16) &&& (0x1f : Word)) <<< 16 := by
    apply BitVec.eq_of_getLsbD_eq
    intro i hi
    rw [BitVec.getLsbD_and, BitVec.getLsbD_shiftLeft, BitVec.getLsbD_and,
      BitVec.getLsbD_ushiftRight]
    show (value.getLsbD i && (0x1f0000#32).getLsbD i) = _
    rw [hmask i hi]
    by_cases h : i < 16
    · simp [h]
    · have hsum : 16 + (i - 16) = i := by omega
      simp [h, hi, hsum]
  have hfield : ((value >>> 16) &&& (0x1f : Word)).toNat = Mips.rtField value.toNat :=
    toNat_field (n := 16) (k := 5) (by decide) (by decide)
  have hlt : Mips.rtField value.toNat < 32 := Nat.mod_lt _ (by decide)
  rw [hshift, ← BitVec.toNat_inj, BitVec.toNat_shiftLeft, hfield, Nat.shiftLeft_eq, hb]
  omega

private theorem regimm_cases : ∀ k < 32, k = 0 ∨ k = 1 ∨ k = 16 ∨ k = 17 ∨
    (k ≠ 0 ∧ k ≠ 1 ∧ k ≠ 16 ∧ k ≠ 17) ∧ Mips.regimmOp k = none := by
  decide

private theorem decode_mnemonic (value : Word) :
    (decode value).opCode.mnemonic = Mips.mnemonic value.toNat ∧
      ∀ op ∈ Mips.mnemonic value.toNat, (decode value).extra = (formatOf op).extra value := by
  have hlt := value.isLt
  have hop : ((value >>> 26) &&& 0x3f).toNat = Mips.opField value.toNat := by
    have h : ((value >>> 26) &&& 0x3f).toNat = value.toNat / 2 ^ 26 % 2 ^ 6 :=
      toNat_field (n := 26) (k := 6) (by decide) (by decide)
    rw [h, Mips.opField]
    omega
  have hfunct : (value &&& 0x3f).toNat = Mips.functField value.toNat :=
    toNat_lowField (k := 6) (by decide) (by decide)
  have hop_lt : Mips.opField value.toNat < 64 := by
    rw [Mips.opField]
    omega
  have hentry := opTable_agrees _ hop_lt
  simp only [decode, hop, hfunct, Mips.mnemonic]
  cases he : opTable.getD (Mips.opField value.toNat) (.op .res .ifmt) with
  | special =>
    rw [he] at hentry
    have hk : Mips.opField value.toNat = 0 := of_decide_eq_true hentry
    obtain ⟨hname, hformat⟩ := specialTable_agrees (Mips.functField value.toNat)
      (Nat.mod_lt _ (by decide))
    simp only [if_pos hk]
    refine ⟨hname, fun op h => ?_⟩
    rw [hformat op h]
  | bcond =>
    rw [he] at hentry
    have hk : Mips.opField value.toNat = 1 := of_decide_eq_true hentry
    have hbltz := regimm_iff value (k := 0) (by decide) (b := 0) (by decide)
    have hbgez := regimm_iff value (k := 1) (by decide) (b := 0x10000) (by decide)
    have hbltzal := regimm_iff value (k := 16) (by decide) (b := 0x100000) (by decide)
    have hbgezal := regimm_iff value (k := 17) (by decide) (b := 0x110000) (by decide)
    simp only [hk, if_neg (show ¬ (1 : Nat) = 0 by decide), if_true, hbltz, hbgez, hbltzal, hbgezal]
    rcases regimm_cases (Mips.rtField value.toNat) (Nat.mod_lt _ (by decide)) with
      h | h | h | h | ⟨⟨h₀, h₁, h₂, h₃⟩, hnone⟩
    · rw [h]
      exact ⟨rfl, by rintro op ⟨⟩; rfl⟩
    · rw [h]
      exact ⟨rfl, by rintro op ⟨⟩; rfl⟩
    · rw [h]
      exact ⟨rfl, by rintro op ⟨⟩; rfl⟩
    · rw [h]
      exact ⟨rfl, by rintro op ⟨⟩; rfl⟩
    · rw [if_neg h₀, if_neg h₁, if_neg h₂, if_neg h₃, hnone]
      exact ⟨rfl, fun op h => nomatch h⟩
  | op opCode format =>
    rw [he] at hentry
    obtain ⟨hk, hname, hformat⟩ := of_decide_eq_true hentry
    simp only [if_neg (show ¬ Mips.opField value.toNat = 0 by omega),
      if_neg (show ¬ Mips.opField value.toNat = 1 by omega)]
    refine ⟨hname, fun op h => ?_⟩
    rw [hformat op h]

/-! ## Values -/

section Values

variable {v x y : Word} {a b : Int} {n : Nat}

private theorem eq_ofInt_of_toNat (h : v.toNat = n) : v = BitVec.ofInt 32 n := by
  rw [BitVec.ofInt_natCast, ← h, BitVec.ofNat_toNat, BitVec.setWidth_eq]

private theorem eq_ofInt_toInt (v : Word) : v = BitVec.ofInt 32 (Mips.signed 32 v.toNat) := by
  rw [Mips.signed_toNat, BitVec.ofInt_toInt]

private theorem eq_ofInt_add (hx : x = BitVec.ofInt 32 a) (hy : y = BitVec.ofInt 32 b) :
    x + y = BitVec.ofInt 32 (a + b) := by
  rw [hx, hy, BitVec.ofInt_add]

private theorem eq_ofInt_sub (hx : x = BitVec.ofInt 32 a) (hy : y = BitVec.ofInt 32 b) :
    x - y = BitVec.ofInt 32 (a - b) := by
  rw [hx, hy, Int.sub_eq_add_neg, BitVec.ofInt_add, BitVec.ofInt_neg, BitVec.sub_eq_add_neg]

private theorem eq_ofInt_shiftLeft (x : Word) (n : Nat) :
    x <<< n = BitVec.ofInt 32 (x.toNat * 2 ^ n) := by
  have hcast : (x.toNat * 2 ^ n : Int) = (x.toNat <<< n : Nat) := by
    rw [Nat.shiftLeft_eq]
    push_cast
    rfl
  rw [hcast, BitVec.ofInt_natCast]
  rfl

private theorem eq_ofInt_sshiftRight (x : Word) (n : Nat) :
    x.sshiftRight n = BitVec.ofInt 32 (Mips.signed 32 x.toNat / 2 ^ n) := by
  rw [Mips.signed_toNat, BitVec.sshiftRight, Int.shiftRight_eq_div_pow]
  push_cast
  rfl

private theorem eq_ofInt_not (x : Word) : ~~~x = BitVec.ofInt 32 (2 ^ 32 - 1 - x.toNat) := by
  have hlt := x.isLt
  have hcast : (2 ^ 32 - 1 - x.toNat : Int) = (2 ^ 32 - 1 - x.toNat : Nat) := by omega
  rw [hcast]
  exact eq_ofInt_of_toNat BitVec.toNat_not

private theorem and_signBit (x : Word) : x &&& signBit = 0 ↔ x.msb = false := by
  have hbit : ∀ i < 31, signBit.getLsbD i = false := by decide
  rw [BitVec.msb_eq_getLsbD_last]
  constructor
  · intro h
    have hlast := congrArg (fun z : Word => z.getLsbD 31) h
    simpa [signBit] using hlast
  · intro h
    apply BitVec.eq_of_getLsbD_eq
    intro i hi
    show (x &&& signBit).getLsbD i = (0#32).getLsbD i
    rw [BitVec.getLsbD_and, BitVec.getLsbD_zero]
    by_cases hlast : i = 31
    · rw [hlast, h, Bool.false_and]
    · rw [hbit i (by omega), Bool.and_false]

private theorem nonnegative_iff (x : Word) :
    (x &&& signBit == 0) = true ↔ 0 ≤ Mips.signed 32 x.toNat := by
  rw [beq_iff_eq, and_signBit, Mips.signed_toNat, BitVec.msb_eq_toInt, decide_eq_false_iff_not,
    Int.not_lt]

private theorem negative_iff (x : Word) :
    (x &&& signBit != 0) = true ↔ Mips.signed 32 x.toNat < 0 := by
  rw [bne_iff_ne, ne_eq, ← beq_iff_eq, nonnegative_iff, Int.not_le]

private theorem xor_signBit (x y : Word) :
    (x ^^^ y) &&& signBit = 0 ↔ (2 ^ 31 ≤ x.toNat ↔ 2 ^ 31 ≤ y.toNat) := by
  rw [and_signBit, BitVec.msb_xor, bne_eq_false_iff_eq, BitVec.msb_eq_decide,
    BitVec.msb_eq_decide, decide_eq_decide]

private theorem add_overflow (x y : Word) :
    (x ^^^ y) &&& signBit = 0 ∧ (x ^^^ (x + y)) &&& signBit ≠ 0 ↔
      ¬ Mips.Fits (Mips.signed 32 x.toNat + Mips.signed 32 y.toNat) := by
  have hx := x.isLt
  have hy := y.isLt
  rw [ne_eq, xor_signBit, xor_signBit, BitVec.toNat_add]
  simp only [Mips.Fits, Mips.signed]
  split <;> split <;> omega

private theorem sub_overflow (x y : Word) :
    (x ^^^ y) &&& signBit ≠ 0 ∧ (x ^^^ (x - y)) &&& signBit ≠ 0 ↔
      ¬ Mips.Fits (Mips.signed 32 x.toNat - Mips.signed 32 y.toNat) := by
  have hx := x.isLt
  have hy := y.isLt
  rw [ne_eq, ne_eq, xor_signBit, xor_signBit, BitVec.toNat_sub]
  simp only [Mips.Fits, Mips.signed]
  split <;> split <;> omega

/-! The rest of the word, in the three formats. -/

theorem toNat_shamt (w : Word) : (Format.rfmt.extra w).toNat = Mips.shamtField w.toNat :=
  toNat_field (n := 6) (k := 5) (by decide) (by decide)

private theorem toNat_target (w : Word) : (Format.jfmt.extra w).toNat = Mips.targetField w.toNat :=
  toNat_lowField (k := 26) (by decide) (by decide)

theorem toNat_and_31 (x : Word) : (x &&& 0x1f).toNat = x.toNat % 32 :=
  toNat_lowField (k := 5) (by decide) (by decide)

private theorem extra_immediate (w : Word) :
    (Format.ifmt.extra w).toInt = Mips.signed 16 (Mips.immediateField w.toNat) := by
  rw [Format.extra, BitVec.toInt_signExtend_of_le (by decide), ← Mips.signed_toNat,
    BitVec.extractLsb'_toNat, Nat.shiftRight_zero]
  rfl

private theorem eq_ofInt_immediate {w extra : Word} (h : extra = Format.ifmt.extra w) :
    extra = BitVec.ofInt 32 (Mips.signed 16 (Mips.immediateField w.toNat)) := by
  rw [← extra_immediate, ← h, BitVec.ofInt_toInt]

private theorem addi_overflow (x : Word) {w extra : Word} (h : extra = Format.ifmt.extra w) :
    (x ^^^ extra) &&& signBit = 0 ∧ (extra ^^^ (x + extra)) &&& signBit ≠ 0 ↔
      ¬ Mips.Fits (Mips.signed 32 x.toNat + Mips.signed 16 (Mips.immediateField w.toNat)) := by
  rw [← extra_immediate, ← h, ← Mips.signed_toNat, Int.add_comm, ← add_overflow,
    BitVec.xor_comm x, BitVec.add_comm x]

private theorem toNat_immediate (w : Word) :
    (Format.ifmt.extra w &&& 0xffff).toNat = Mips.immediateField w.toNat := by
  have hlow : (Format.ifmt.extra w &&& 0xffff).toNat = (Format.ifmt.extra w).toNat % 2 ^ 16 :=
    toNat_lowField (k := 16) (by decide) (by decide)
  have hint := extra_immediate w
  have himm : Mips.immediateField w.toNat < 2 ^ 16 := Nat.mod_lt _ (by decide)
  have hlt := (Format.ifmt.extra w).isLt
  rw [hlow]
  rw [← Mips.signed_toNat] at hint
  simp only [Mips.signed] at hint
  split at hint <;> split at hint <;> omega

private theorem eq_ofInt_upper {w extra : Word} (h : extra = Format.ifmt.extra w) :
    extra <<< 16 = BitVec.ofInt 32 (Mips.immediateField w.toNat * 2 ^ 16) := by
  have hlow := toNat_immediate w
  have hmod : (Format.ifmt.extra w &&& 0xffff).toNat = (Format.ifmt.extra w).toNat % 2 ^ 16 :=
    toNat_lowField (k := 16) (by decide) (by decide)
  have hcast : (Mips.immediateField w.toNat * 2 ^ 16 : Int) =
      (Mips.immediateField w.toNat * 2 ^ 16 : Nat) := by
    push_cast
    rfl
  rw [hcast, h]
  apply eq_ofInt_of_toNat
  rw [BitVec.toNat_shiftLeft, Nat.shiftLeft_eq]
  omega

end Values

/-! ## The switch -/

def isaState (registers : Nat → Word) : Mips.State where
  gpr k := if k < 32 then (registers k).toNat else 0
  hi := (registers hiReg).toNat
  lo := (registers loReg).toNat
  pc := (registers pcReg).toNat
  nextPC := (registers nextPCReg).toNat

private theorem isaState_gpr (r : Nat → Word) {k : Nat} (hk : k < 32) :
    (isaState r).gpr k = (r k).toNat := if_pos hk

/-- The switch asks for what the architecture asks for. -/
inductive Effect.Implements (s : Mips.State) : Effect → Mips.Action → Prop
  | put {r : Nat} {v : Word} {z : Int} (hr : r < 32) (hv : v = BitVec.ofInt 32 z) :
    Implements s (.write r v) (.put r z)
  | putExact {r : Nat} {v : Word} {z : Int} (hr : r < 32) (hv : v = BitVec.ofInt 32 z)
    (hz : Mips.Fits z) : Implements s (.write r v) (.putExact r z)
  | overflow {r : Nat} {z : Int} (hz : ¬ Mips.Fits z) :
    Implements s (.raise .overflow 0) (.putExact r z)
  | putHi {v : Word} {z : Int} (hv : v = BitVec.ofInt 32 z) :
    Implements s (.write hiReg v) (.putHi z)
  | putLo {v : Word} {z : Int} (hv : v = BitVec.ofInt 32 z) :
    Implements s (.write loReg v) (.putLo z)
  | jump {p : Word} {z : Int} (hp : p = BitVec.ofInt 32 z) : Implements s (.jump p) (.jump z)
  | link {r : Nat} {v p : Word} {z : Int} (hr : r < 32) (hv : v = BitVec.ofInt 32 (s.pc + 8))
    (hp : p = BitVec.ofInt 32 z) : Implements s (.link r v p) (.link r z)
  | unpredictable {r : Nat} {v p : Word} (hr : r < 32) :
    Implements s (.link r v p) .unpredictable

namespace Effect.Implements

variable {s : Mips.State} {d : Nat} {v : Word} {z : Int}

private theorem of_test {p : Prop} [Decidable p] (hd : d < 32) (hv : v = BitVec.ofInt 32 z)
    (hp : p ↔ ¬ Mips.Fits z) :
    Implements s (if p then .raise .overflow 0 else .write d v) (.putExact d z) := by
  by_cases h : p
  · rw [if_pos h]
    exact overflow (hp.mp h)
  · rw [if_neg h]
    exact putExact hd hv (not_not.mp (mt hp.mpr h))

private theorem of_compare {p q : Prop} [Decidable p] [Decidable q] (hd : d < 32) (hpq : p ↔ q) :
    Implements s (.write d (if p then 1 else 0)) (.put d (if q then 1 else 0)) := by
  apply put hd
  by_cases h : p
  · rw [if_pos h, if_pos (hpq.mp h)]
    rfl
  · rw [if_neg h, if_neg (mt hpq.mpr h)]
    rfl

private theorem of_link {w link : Nat} {p : Word} (hlink : link < 32)
    (hv : v = BitVec.ofInt 32 (s.pc + 8)) (hp : Mips.rsField w ≠ link → p = BitVec.ofInt 32 z) :
    Implements s (.link link v p) (Mips.State.linked w link z) := by
  rw [Mips.State.linked]
  by_cases h : Mips.rsField w = link
  · rw [if_pos h]
    exact unpredictable hlink
  · rw [if_neg h]
    exact Implements.link hlink hv (hp h)

end Effect.Implements

section Switch

variable {r : Nat → Word}

private theorem pcAfter_eq (hnext : r nextPCReg = r pcReg + 4) :
    r nextPCReg + 4 = BitVec.ofInt 32 ((isaState r).pc + 8) := by
  have hpc : r pcReg = BitVec.ofInt 32 (isaState r).pc := eq_ofInt_of_toNat rfl
  have height : ((isaState r).pc + 8 : Int) = (isaState r).pc + 4 + 4 := by omega
  rw [hnext, height]
  exact eq_ofInt_add (eq_ofInt_add hpc rfl) rfl

private theorem branch_eq (hnext : r nextPCReg = r pcReg + 4) {w extra : Word}
    (hextra : extra = Format.ifmt.extra w) {taken : Bool} {p : Prop} [Decidable p]
    (hp : taken = true ↔ p) :
    branch r extra taken = BitVec.ofInt 32 ((isaState r).branch w.toNat p) := by
  have hpc : r pcReg = BitVec.ofInt 32 (isaState r).pc := eq_ofInt_of_toNat rfl
  rw [branch, Mips.State.branch]
  by_cases h : p
  · have hoffset : indexToAddr extra =
        BitVec.ofInt 32 (4 * Mips.signed 16 (Mips.immediateField w.toNat)) := by
      rw [← extra_immediate, ← hextra, BitVec.ofInt_mul, BitVec.ofInt_toInt, indexToAddr]
      apply BitVec.eq_of_toNat_eq
      rw [BitVec.toNat_shiftLeft, BitVec.toNat_mul, Nat.shiftLeft_eq, Nat.mul_comm]
      rfl
    rw [if_pos (hp.mpr h), if_pos h, hnext]
    exact eq_ofInt_add (eq_ofInt_add hpc rfl) hoffset
  · rw [if_neg (mt hp.mp h), if_neg h]
    exact pcAfter_eq hnext

private theorem and_region {x : Word} (hx : x.toNat < 2 ^ 28) : x &&& 0xf0000000 = 0 := by
  have hbit : ∀ i < 28, (0xf0000000#32).getLsbD i = false := by decide
  apply BitVec.eq_of_getLsbD_eq
  intro i hi
  show (x &&& 0xf0000000#32).getLsbD i = (0#32).getLsbD i
  rw [BitVec.getLsbD_and, BitVec.getLsbD_zero]
  by_cases h : i < 28
  · rw [hbit i h, Bool.and_false]
  · have hlt : x.toNat < 2 ^ i :=
      Nat.lt_of_lt_of_le hx (Nat.pow_le_pow_right (by decide) (by omega))
    rw [BitVec.getLsbD, Nat.testBit_lt_two_pow hlt, Bool.false_and]

private theorem region_eq (hpc : (r pcReg).toNat < memorySize) (hnext : r nextPCReg = r pcReg + 4)
    {w extra : Word} (hextra : extra = Format.jfmt.extra w) :
    ((r nextPCReg + 4) &&& 0xf0000000) ||| indexToAddr extra =
      BitVec.ofInt 32 ((isaState r).region w.toNat) := by
  simp only [memorySize, numPhysPages, pageSize] at hpc
  have hafter : (r nextPCReg + 4).toNat < 2 ^ 28 := by
    rw [hnext, BitVec.toNat_add, BitVec.toNat_add]
    show ((_ + 4) % 2 ^ 32 + 4) % 2 ^ 32 < _
    omega
  have hregion : (isaState r).region w.toNat = (4 * Mips.targetField w.toNat : Nat) := by
    have hlow : (((r pcReg).toNat : Int) + 4) / 2 ^ 28 = 0 := by omega
    rw [Mips.State.region]
    show (((r pcReg).toNat : Int) + 4) / 2 ^ 28 * 2 ^ 28 + _ = _
    rw [hlow]
    omega
  have htarget : Mips.targetField w.toNat < 2 ^ 26 := Nat.mod_lt _ (by decide)
  rw [and_region hafter, hregion]
  apply eq_ofInt_of_toNat
  show (0#32 ||| extra <<< 2).toNat = _
  rw [BitVec.zero_or, BitVec.toNat_shiftLeft, hextra, toNat_target, Nat.shiftLeft_eq]
  omega

private theorem execute_implements (w : Word) (hpc : (r pcReg).toNat < memorySize)
    (hnext : r nextPCReg = r pcReg + 4) {op : Mips.Mnemonic}
    (hop : (decode w).opCode.mnemonic = some op) :
    (execute (decode w) r).Implements (isaState r) ((isaState r).action w.toNat op) := by
  obtain ⟨hname, hextra⟩ := decode_mnemonic w
  replace hextra := hextra op (hname.symm.trans hop)
  obtain ⟨hrs, hrt, hrd⟩ := decode_registers w
  obtain ⟨hrs_lt, hrt_lt, hrd_lt⟩ := decode_fields w
  replace hrs : (decode w).rs = Mips.rsField w.toNat :=
    hrs.trans (toNat_field (n := 21) (k := 5) (by decide) (by decide))
  replace hrt : (decode w).rt = Mips.rtField w.toNat :=
    hrt.trans (toNat_field (n := 16) (k := 5) (by decide) (by decide))
  replace hrd : (decode w).rd = Mips.rdField w.toNat :=
    hrd.trans (toNat_field (n := 11) (k := 5) (by decide) (by decide))
  have hgs := isaState_gpr r hrs_lt
  have hgt := isaState_gpr r hrt_lt
  generalize decode w = i at *
  obtain ⟨opCode, rs, rt, rd, extra⟩ := i
  dsimp only at *
  subst hrs hrt hrd
  have hs : r (Mips.rsField w.toNat) = BitVec.ofInt 32 ((isaState r).gpr (Mips.rsField w.toNat)) :=
    eq_ofInt_of_toNat hgs.symm
  have ht : r (Mips.rtField w.toNat) = BitVec.ofInt 32 ((isaState r).gpr (Mips.rtField w.toNat)) :=
    eq_ofInt_of_toNat hgt.symm
  cases opCode with
  | add =>
    cases hop
    simp only [execute, Mips.State.action, hgs, hgt]
    exact .of_test hrd_lt (eq_ofInt_add (eq_ofInt_toInt _) (eq_ofInt_toInt _)) (add_overflow _ _)
  | addi =>
    cases hop
    simp only [execute, Mips.State.action, hgs]
    exact .of_test hrt_lt (eq_ofInt_add (eq_ofInt_toInt _) (eq_ofInt_immediate hextra))
      (addi_overflow _ hextra)
  | addiu =>
    cases hop
    exact .put hrt_lt (eq_ofInt_add hs (eq_ofInt_immediate hextra))
  | addu =>
    cases hop
    exact .put hrd_lt (eq_ofInt_add hs ht)
  | sub =>
    cases hop
    simp only [execute, Mips.State.action, hgs, hgt]
    exact .of_test hrd_lt (eq_ofInt_sub (eq_ofInt_toInt _) (eq_ofInt_toInt _)) (sub_overflow _ _)
  | subu =>
    cases hop
    exact .put hrd_lt (eq_ofInt_sub hs ht)
  | and =>
    cases hop
    simp only [execute, Mips.State.action, hgs, hgt]
    exact .put hrd_lt (eq_ofInt_of_toNat (BitVec.toNat_and _ _))
  | andi =>
    cases hop
    simp only [execute, Mips.State.action, hgs, ← toNat_immediate, hextra]
    exact .put hrt_lt (eq_ofInt_of_toNat (BitVec.toNat_and _ _))
  | or =>
    cases hop
    simp only [execute, Mips.State.action, hgs, hgt]
    exact .put hrd_lt (eq_ofInt_of_toNat (BitVec.toNat_or _ _))
  | ori =>
    cases hop
    simp only [execute, Mips.State.action, hgs, ← toNat_immediate, hextra]
    exact .put hrt_lt (eq_ofInt_of_toNat (BitVec.toNat_or _ _))
  | xor =>
    cases hop
    simp only [execute, Mips.State.action, hgs, hgt]
    exact .put hrd_lt (eq_ofInt_of_toNat (BitVec.toNat_xor _ _))
  | xori =>
    cases hop
    simp only [execute, Mips.State.action, hgs, ← toNat_immediate, hextra]
    exact .put hrt_lt (eq_ofInt_of_toNat (BitVec.toNat_xor _ _))
  | nor =>
    cases hop
    simp only [execute, Mips.State.action, hgs, hgt, ← BitVec.toNat_or]
    exact .put hrd_lt (eq_ofInt_not _)
  | lui =>
    cases hop
    exact .put hrt_lt (eq_ofInt_upper hextra)
  | sll =>
    cases hop
    simp only [execute, Mips.State.action, hgt, ← toNat_shamt, hextra]
    exact .put hrd_lt (eq_ofInt_shiftLeft _ _)
  | sllv =>
    cases hop
    simp only [execute, Mips.State.action, hgs, hgt, ← toNat_and_31]
    exact .put hrd_lt (eq_ofInt_shiftLeft _ _)
  | sra =>
    cases hop
    simp only [execute, Mips.State.action, hgt, ← toNat_shamt, hextra]
    exact .put hrd_lt (eq_ofInt_sshiftRight _ _)
  | srav =>
    cases hop
    simp only [execute, Mips.State.action, hgs, hgt, ← toNat_and_31]
    exact .put hrd_lt (eq_ofInt_sshiftRight _ _)
  | slt =>
    cases hop
    simp only [execute, Mips.State.action, hgs, hgt]
    exact .of_compare hrd_lt decide_eq_true_iff
  | slti =>
    cases hop
    simp only [execute, Mips.State.action, hgs, ← extra_immediate, hextra]
    exact .of_compare hrt_lt decide_eq_true_iff
  | sltiu =>
    cases hop
    simp only [execute, Mips.State.action, hgs]
    rw [← Mips.toNat_ofInt_wrap, ← eq_ofInt_immediate hextra]
    exact .of_compare hrt_lt BitVec.lt_def
  | sltu =>
    cases hop
    simp only [execute, Mips.State.action, hgs, hgt]
    exact .of_compare hrd_lt BitVec.lt_def
  | mfhi =>
    cases hop
    exact .put hrd_lt (eq_ofInt_of_toNat rfl)
  | mflo =>
    cases hop
    exact .put hrd_lt (eq_ofInt_of_toNat rfl)
  | mthi =>
    cases hop
    exact .putHi hs
  | mtlo =>
    cases hop
    exact .putLo hs
  | beq =>
    cases hop
    apply Effect.Implements.jump
    apply branch_eq hnext hextra
    rw [hgs, hgt, beq_iff_eq, BitVec.toNat_inj]
  | bne =>
    cases hop
    apply Effect.Implements.jump
    apply branch_eq hnext hextra
    rw [hgs, hgt, bne_iff_ne]
    exact not_congr BitVec.toNat_inj.symm
  | blez =>
    cases hop
    apply Effect.Implements.jump
    apply branch_eq hnext hextra
    rw [hgs]
    exact decide_eq_true_iff
  | bgtz =>
    cases hop
    apply Effect.Implements.jump
    apply branch_eq hnext hextra
    rw [hgs]
    exact decide_eq_true_iff
  | bltz =>
    cases hop
    apply Effect.Implements.jump
    apply branch_eq hnext hextra
    rw [hgs, negative_iff]
  | bgez =>
    cases hop
    apply Effect.Implements.jump
    apply branch_eq hnext hextra
    rw [hgs, nonnegative_iff]
  | bltzal =>
    cases hop
    apply Effect.Implements.of_link (by decide) (pcAfter_eq hnext)
    intro hne
    apply branch_eq hnext hextra
    rw [Function.update_of_ne hne, hgs, negative_iff]
  | bgezal =>
    cases hop
    apply Effect.Implements.of_link (by decide) (pcAfter_eq hnext)
    intro hne
    apply branch_eq hnext hextra
    rw [Function.update_of_ne hne, hgs, nonnegative_iff]
  | j =>
    cases hop
    exact .jump (region_eq hpc hnext hextra)
  | jal =>
    cases hop
    exact .link (by decide) (pcAfter_eq hnext) (region_eq hpc hnext hextra)
  | jr =>
    cases hop
    exact .jump hs
  | jalr =>
    cases hop
    apply Effect.Implements.of_link hrd_lt (pcAfter_eq hnext)
    intro hne
    rw [Function.update_of_ne hne]
    exact hs
  | _ => cases hop

end Switch

/-! ## One instruction -/

namespace Vm

variable {m m' m₁ : Vm} {vir : Int} {w : Word} {k r : Nat} {v p : Word}

private theorem isaState_advance (h : m.registers loadReg = 0)
    (hnext : m.registers nextPCReg = m.registers pcReg + 4) {z : Int} (hp : p = BitVec.ofInt 32 z)
    {s : Mips.State} (hgpr : ∀ k < 32, s.gpr k = if k = 0 then 0 else (m.registers k).toNat)
    (hout : ∀ k, ¬ k < 32 → s.gpr k = 0) (hhi : s.hi = (m.registers hiReg).toNat)
    (hlo : s.lo = (m.registers loReg).toNat) (hpc : s.pc = (m.registers pcReg).toNat) :
    isaState (m.advance 0 0 p).registers = s.goto z := by
  have hkeep : ∀ {k}, 32 ≤ k → k < loadReg → commit m.registers k = m.registers k := by
    intro k hlow hk
    rw [commit_idle h hk, if_neg (by omega)]
  have hreg : ∀ {k}, k < loadReg → _ := fun hk => advance_register m 0 0 p hk
  ext k
  · show (if k < 32 then ((m.advance 0 0 p).registers k).toNat else 0) = s.gpr k
    by_cases hk : k < 32
    · rw [if_pos hk, hgpr k hk, advance_general m _ _ _ hk,
        commit_idle h (Nat.lt_trans hk (by decide))]
      split <;> rfl
    · rw [if_neg hk, hout k hk]
  · show ((m.advance 0 0 p).registers hiReg).toNat = s.hi
    rw [hhi, ← hkeep (k := hiReg) (by decide) (by decide), hreg (by decide)]
    rfl
  · show ((m.advance 0 0 p).registers loReg).toNat = s.lo
    rw [hlo, ← hkeep (k := loReg) (by decide) (by decide), hreg (by decide)]
    rfl
  · show ((m.advance 0 0 p).registers pcReg).toNat = Mips.wrap (s.pc + 4)
    rw [hreg (by decide), if_neg (by decide), if_pos rfl, hkeep (by decide) (by decide), hnext, hpc,
      ← Mips.toNat_ofInt_wrap,
      eq_ofInt_add (eq_ofInt_of_toNat rfl) (show (4 : Word) = BitVec.ofInt 32 4 from rfl)]
  · show ((m.advance 0 0 p).registers nextPCReg).toNat = Mips.wrap z
    rw [hreg (by decide), if_pos rfl, ← Mips.toNat_ofInt_wrap, ← hp]

private theorem Idle.isaState_keep (h : m.Idle)
    (hnext : m.registers nextPCReg = m.registers pcReg + 4)
    (hkeep : ∀ k, k ≠ hiReg → k ≠ loReg → m'.registers k = m.registers k) {z : Int}
    (hp : p = BitVec.ofInt 32 z) :
    isaState (m'.advance 0 0 p).registers =
      { isaState m.registers with
        hi := (m'.registers hiReg).toNat, lo := (m'.registers loReg).toNat }.goto z := by
  apply isaState_advance
  · rw [hkeep _ (by decide) (by decide), h.loadReg]
  · rw [hkeep _ (by decide) (by decide), hkeep _ (by decide) (by decide), hnext]
  · exact hp
  · intro k hk
    rw [hkeep k (by simp only [hiReg]; omega) (by simp only [loReg]; omega)]
    show (isaState m.registers).gpr k = _
    rw [isaState_gpr _ hk]
    by_cases hzero : k = 0
    · rw [if_pos hzero, hzero, h.zero]
      rfl
    · rw [if_neg hzero]
  · exact fun k hk => if_neg hk
  · rfl
  · rfl
  · exact congrArg BitVec.toNat (hkeep _ (by decide) (by decide)).symm

private theorem Idle.isaState_put (h : m.Idle)
    (hnext : m.registers nextPCReg = m.registers pcReg + 4)
    (hr : r < 32) {y z : Int} (hv : v = BitVec.ofInt 32 y) (hp : p = BitVec.ofInt 32 z) :
    isaState ((m.writeReg r v).advance 0 0 p).registers =
      ((isaState m.registers).write r (Mips.wrap y)).goto z := by
  have hother : ∀ k, k ≠ r → (m.writeReg r v).registers k = m.registers k :=
    fun k hk => Function.update_of_ne hk _ _
  have hlarge : ∀ k, 32 ≤ k → (m.writeReg r v).registers k = m.registers k :=
    fun k hk => hother k (by omega)
  apply isaState_advance
  · rw [hlarge _ (by decide), h.loadReg]
  · rw [hlarge _ (by decide), hlarge _ (by decide), hnext]
  · exact hp
  · intro k hk
    show (if k = r ∧ k ≠ 0 then Mips.wrap y else (isaState m.registers).gpr k) = _
    rw [isaState_gpr _ hk]
    by_cases hzero : k = 0
    · rw [if_neg (fun hn => hn.2 hzero), if_pos hzero, hzero, h.zero]
      rfl
    · rw [if_neg hzero]
      by_cases hkr : k = r
      · rw [if_pos ⟨hkr, hzero⟩, hkr, ← Mips.toNat_ofInt_wrap, ← hv]
        exact congrArg BitVec.toNat (Function.update_self r v m.registers).symm
      · rw [if_neg (fun hn => hkr hn.1), hother k hkr]
  · intro k hk
    show (if k = r ∧ k ≠ 0 then _ else (isaState m.registers).gpr k) = 0
    rw [if_neg (by omega)]
    exact if_neg hk
  · exact congrArg BitVec.toNat (hlarge _ (by decide)).symm
  · exact congrArg BitVec.toNat (hlarge _ (by decide)).symm
  · exact congrArg BitVec.toNat (hlarge _ (by decide)).symm

/-- What the machine has done from `before` on is what the architecture asks for. -/
def Obeys (before : Mips.State) (m' : Vm) (raised : Option ExceptionType) : Mips.Outcome → Prop
  | .next s => raised = none ∧ isaState m'.registers = s
  | .overflow => raised = some .overflow ∧ isaState m'.registers = before
  | .unpredictable => True

private theorem idle_advance (m : Vm) (p : Word) : (m.advance 0 0 p).Idle :=
  ⟨rfl, rfl⟩

theorem Idle.raiseException_register (h : m.Idle) (hk : k < Nachos.loadReg) :
    (m.raiseException v).registers k = m.registers k :=
  (Vm.raiseException_register m v hk).trans (h.commit hk)

theorem idle_raiseException (m : Vm) (v : Word) : (m.raiseException v).Idle :=
  ⟨rfl, rfl⟩

private theorem isaState_congr {s t : Nat → Word} (h : ∀ k < loadReg, s k = t k) :
    isaState s = isaState t := by
  ext k
  · show (if k < 32 then (s k).toNat else 0) = if k < 32 then (t k).toNat else 0
    by_cases hk : k < 32
    · rw [if_pos hk, if_pos hk, h k (Nat.lt_of_lt_of_le hk (by decide))]
    · rw [if_neg hk, if_neg hk]
  · exact congrArg BitVec.toNat (h _ (by decide))
  · exact congrArg BitVec.toNat (h _ (by decide))
  · exact congrArg BitVec.toNat (h _ (by decide))
  · exact congrArg BitVec.toNat (h _ (by decide))

private theorem Idle.carryOut_obeys (h : m.Idle)
    (hnext : m.registers nextPCReg = m.registers pcReg + 4)
    (access : Nat → MemoryAccess) {e : Effect} {a : Mips.Action}
    (hea : e.Implements (isaState m.registers) a) :
    ∃ m' raised, m.carryOut access (m.registers nextPCReg + 4) e = some (m', raised) ∧ m'.Idle ∧
      Obeys (isaState m.registers) m' raised ((isaState m.registers).perform a) := by
  have hafter := pcAfter_eq hnext
  cases hea with
  | put hr hv => exact ⟨_, none, rfl, idle_advance _ _, rfl, h.isaState_put hnext hr hv hafter⟩
  | putExact hr hv hz =>
    refine ⟨_, none, rfl, idle_advance _ _, ?_⟩
    rw [Mips.State.perform, if_pos hz]
    exact ⟨rfl, h.isaState_put hnext hr hv hafter⟩
  | overflow hz =>
    refine ⟨_, some .overflow, rfl, idle_raiseException m 0, ?_⟩
    rw [Mips.State.perform, if_neg hz]
    exact ⟨rfl, isaState_congr fun k hk => h.raiseException_register hk⟩
  | putHi hv =>
    refine ⟨_, none, rfl, idle_advance _ _, rfl, ?_⟩
    rw [h.isaState_keep hnext (fun k hk _ => Function.update_of_ne hk _ _) hafter,
      ← Mips.toNat_ofInt_wrap, ← hv]
    rfl
  | putLo hv =>
    refine ⟨_, none, rfl, idle_advance _ _, rfl, ?_⟩
    rw [h.isaState_keep hnext (fun k _ hk => Function.update_of_ne hk _ _) hafter,
      ← Mips.toNat_ofInt_wrap, ← hv]
    rfl
  | jump hp => exact ⟨_, none, rfl, idle_advance _ _, rfl, h.isaState_keep hnext (fun _ _ _ => rfl) hp⟩
  | link hr hv hp => exact ⟨_, none, rfl, idle_advance _ _, rfl, h.isaState_put hnext hr hv hp⟩
  | unpredictable hr => exact ⟨_, none, rfl, idle_advance _ _, trivial⟩

theorem Idle.readMem (h : m.Idle) {addr : Word} {size : Nat}
    (hread : m.readMem addr size vir = some (m₁, v)) :
    m₁.Idle ∧ ∀ k < Nachos.loadReg, m₁.registers k = m.registers k := by
  rcases readMem_registers hread with hreg | hreg
  · exact ⟨⟨hreg ▸ h.loadReg, hreg ▸ h.zero⟩, fun k _ => congrFun hreg k⟩
  · have hidle := idle_raiseException m addr
    refine ⟨⟨hreg ▸ hidle.loadReg, hreg ▸ hidle.zero⟩, fun k hk => ?_⟩
    rw [hreg, h.raiseException_register hk]

theorem oneInstruction_of_fetch (hfetch : m.readMem (m.registers pcReg) 4 vir = some (m₁, w)) :
    m.oneInstruction vir = m₁.carryOut (fun _ => memory vir) (m₁.registers nextPCReg + 4)
      (execute (decode w) m₁.registers) := by
  have hread : (memory vir).readMem m (m.registers pcReg) 4 = some (m₁, w) := hfetch
  simp only [oneInstruction, instruction, hread, Option.bind_eq_bind, Option.bind_some]

/-- An integer, compare, branch or jump instruction does what the architecture says. -/
theorem integer_instructions {m m₁ : Vm} {vir : Int} {w : Word} {op : Mips.Mnemonic}
    (hop : (decode w).opCode.mnemonic = some op) (hidle : m.Idle)
    (hpc : (m.registers pcReg).toNat < memorySize)
    (hnext : m.registers nextPCReg = m.registers pcReg + 4)
    (hfetch : m.readMem (m.registers pcReg) 4 vir = some (m₁, w)) :
    ∃ m' raised outcome, m.oneInstruction vir = some (m', raised) ∧ m'.Idle ∧
      (isaState m.registers).step w.toNat = some outcome ∧
      Obeys (isaState m.registers) m' raised outcome := by
  obtain ⟨hidle₁, hregs⟩ := hidle.readMem hfetch
  have hstate : isaState m₁.registers = isaState m.registers := isaState_congr hregs
  have hpc₁ := hregs pcReg (by decide)
  have hnext₁ := hregs nextPCReg (by decide)
  have hseq : m₁.registers nextPCReg = m₁.registers pcReg + 4 := by rw [hpc₁, hnext₁, hnext]
  have heffect := execute_implements w (by rw [hpc₁]; exact hpc) hseq hop
  obtain ⟨m', raised, hrun, hidle', hobeys⟩ :=
    hidle₁.carryOut_obeys hseq (fun _ => memory vir) heffect
  rw [hstate] at hobeys
  refine ⟨m', raised, _, ?_, hidle', ?_, hobeys⟩
  · rw [oneInstruction_of_fetch hfetch, hrun]
  · rw [Mips.State.step, ← (decode_mnemonic w).1, hop]
    rfl

/-- A machine with the instruction `addi $1, $2, -1`. -/
def addiProgram (x : Word) : Vm :=
  let bytes : List Byte := [0xff, 0xff, 0x41, 0x20]
  { loadProgram with
    registers := fun k => if k = 2 then x else if k = nextPCReg then 4 else 0,
    mainMemory := fun a => bytes.getD a 0 }

theorem integer_instructions_addi : ∃ m', (addiProgram 0x80000000).oneInstruction 0 =
      some (m', some .overflow) ∧ m'.Idle ∧
    isaState m'.registers = isaState (addiProgram 0x80000000).registers := by
  have hfetch : ((addiProgram 0x80000000).readMem 0 4 0).map Prod.snd = some 0x2041ffff := by
    decide +kernel
  obtain ⟨⟨m₁, w⟩, hread, hw⟩ := Option.map_eq_some_iff.mp hfetch
  obtain rfl : w = 0x2041ffff := hw
  obtain ⟨m', raised, outcome, hrun, hidle, hstep, hobeys⟩ :=
    integer_instructions (show (decode 0x2041ffff).opCode.mnemonic = some .addi by decide)
      ⟨rfl, rfl⟩ (by decide) rfl hread
  have hout : (isaState (addiProgram 0x80000000).registers).step (0x2041ffff : Word).toNat =
      some .overflow := rfl
  obtain rfl : .overflow = outcome := Option.some.inj (hout.symm.trans hstep)
  obtain ⟨rfl, hstate⟩ := hobeys
  exact ⟨m', hrun, hidle, hstate⟩

end Vm

end Nachos

import Nachos.Machine.Isa

/-!
# Right shifts and divisions

`SRL` and `SRLV` go through a variable that is an `int`, so the host shifts in the sign. `DIV`
guards against a divisor of zero, and there is one more pair of operands that the host cannot
divide.
-/

namespace Nachos

open Framework

/-! ## Logical shifts -/

private theorem opTable_not_shift : ∀ k < 64, (match opTable.getD k (.op .res .ifmt) with
    | .op opCode _ => decide (opCode ≠ .srl ∧ opCode ≠ .srlv)
    | _ => true) = true := by
  decide

private theorem decode_shift {w : Word} (h : (decode w).opCode = .srl ∨ (decode w).opCode = .srlv) :
    (decode w).extra = Format.rfmt.extra w := by
  have hk : ((w >>> 26) &&& 0x3f).toNat < 64 := by
    have hfield : ((w >>> 26) &&& 0x3f).toNat = w.toNat / 2 ^ 26 % 2 ^ 6 :=
      toNat_field (n := 26) (k := 6) (by decide) (by decide)
    omega
  have htable := opTable_not_shift _ hk
  unfold decode at h ⊢
  dsimp only at h ⊢
  cases he : opTable.getD ((w >>> 26) &&& 0x3f).toNat (.op .res .ifmt) with
  | special => rfl
  | op opCode format =>
    rw [he] at h htable
    have hne := of_decide_eq_true htable
    exact absurd h (not_or.mpr hne)
  | bcond =>
    rw [he] at h
    dsimp only at h
    repeat' split at h
    all_goals rcases h with h | h <;> cases h

/-- The shift amount of an instruction: a field of the word, or the low five bits of `rs`. -/
def shiftAmount (w : Word) (r : Nat → Word) : Nat :=
  if (decode w).opCode = .srl then Mips.shamtField w.toNat else (r (decode w).rs).toNat % 32

private theorem execute_shift (w : Word) (r : Nat → Word)
    (h : (decode w).opCode = .srl ∨ (decode w).opCode = .srlv) :
    execute (decode w) r =
      .write (decode w).rd ((r (decode w).rt).sshiftRight (shiftAmount w r)) := by
  have hextra := decode_shift h
  rcases h with h | h
  · rw [shiftAmount, if_pos h, ← toNat_shamt, ← hextra]
    simp only [execute, h]
  · rw [shiftAmount, if_neg (by rw [h]; decide), ← toNat_and_31]
    simp only [execute, h]

private theorem sshiftRight_logical (x : Word) (s : Nat) :
    (x.sshiftRight s).toNat = x.toNat / 2 ^ s ↔ s = 0 ∨ x.toNat < 2 ^ 31 := by
  have hlt := x.isLt
  constructor
  · intro h
    by_contra hn
    obtain ⟨hs, hx⟩ := not_or.mp hn
    -- the sign stays, but a shift by one bit or more would have cleared it
    have hsign : (x.sshiftRight s).msb = true := by
      rw [BitVec.msb_sshiftRight, BitVec.msb_eq_decide, decide_eq_true_iff]
      omega
    rw [BitVec.msb_eq_decide, decide_eq_true_iff, h] at hsign
    have hpow : 2 ^ 1 ≤ 2 ^ s := Nat.pow_le_pow_right (by decide) (by omega)
    have hhalf : x.toNat / 2 ^ s ≤ x.toNat / 2 ^ 1 := Nat.div_le_div_left hpow (by decide)
    omega
  · rintro (rfl | hx)
    · rw [BitVec.sshiftRight_zero, Nat.pow_zero, Nat.div_one]
    · have hsign : x.msb = false := by
        rw [BitVec.msb_eq_decide, decide_eq_false_iff_not]
        omega
      rw [BitVec.sshiftRight_eq_of_msb_false hsign, BitVec.toNat_ushiftRight,
        Nat.shiftRight_eq_div_pow]

/-! ## Rotation -/

def written (r : Nat → Word) (w : Word) : Nat → Word :=
  match execute (decode w) r with
  | .write d v => Function.update r d v
  | _ => r

/-- `srl $9, $8, s; sll $10, $8, 32 - s; or $8, $9, $10`. -/
def rotateProgram (s : Nat) : List Word :=
  [0x00084802 + BitVec.ofNat 32 (64 * s), 0x00085000 + BitVec.ofNat 32 (64 * (32 - s)), 0x012a4025]

def rotated (x : Word) (s : Nat) : Word :=
  (rotateProgram s).foldl written (fun k => if k = 8 then x else 0) 8

private theorem decode_rotate : ∀ s < 32,
    decode (0x00084802 + BitVec.ofNat 32 (64 * s)) =
        { opCode := .srl, rs := 0, rt := 8, rd := 9, extra := BitVec.ofNat 32 s } ∧
      decode (0x00085000 + BitVec.ofNat 32 (64 * s)) =
        { opCode := .sll, rs := 0, rt := 8, rd := 10, extra := BitVec.ofNat 32 s } := by
  decide +kernel

private theorem decode_or : decode 0x012a4025 =
    { opCode := .or, rs := 9, rt := 10, rd := 8, extra := 0 } := by
  decide +kernel

variable {x : Word} {s : Nat}

private theorem rotated_eq (hs : 0 < s) (hs' : s < 32) :
    rotated x s = x.sshiftRight s ||| x <<< (32 - s) := by
  have hsrl := (decode_rotate s hs').1
  have hsll := (decode_rotate (32 - s) (by omega)).2
  have hright : (BitVec.ofNat 32 s).toNat = s := by
    rw [BitVec.toNat_ofNat]
    omega
  have hleft : (BitVec.ofNat 32 (32 - s)).toNat = 32 - s := by
    rw [BitVec.toNat_ofNat]
    omega
  simp only [rotated, rotateProgram, List.foldl_cons, List.foldl_nil, written, hsrl, hsll,
    decode_or, execute, hright, hleft, Function.update_apply]
  rfl

private theorem getLsbD_rotated (hs : 0 < s) (hs' : s < 32) {i : Nat} (hi : i < 32) :
    (rotated x s).getLsbD i =
      if i < 32 - s then x.getLsbD (s + i) else (x.msb || x.getLsbD (i - (32 - s))) := by
  have hwidth : decide (32 ≤ i) = false := decide_eq_false (by omega)
  rw [rotated_eq hs hs', BitVec.getLsbD_or, BitVec.getLsbD_sshiftRight, BitVec.getLsbD_shiftLeft]
  by_cases h : i < 32 - s
  · have hin : s + i < 32 := by omega
    simp [h, hin, hwidth, hi]
  · have hout : ¬ s + i < 32 := by omega
    simp [h, hout, hwidth, hi]

private theorem getLsbD_rotateRight (hs' : s < 32) {i : Nat} (hi : i < 32) :
    (x.rotateRight s).getLsbD i =
      if i < 32 - s then x.getLsbD (s + i) else x.getLsbD (i - (32 - s)) := by
  rw [BitVec.getLsbD_rotateRight, Nat.mod_eq_of_lt hs']
  by_cases h : i < 32 - s
  · simp [h]
  · simp [h, hi]

private theorem rotated_rotateRight (hs : 0 < s) (hs' : s < 32) :
    rotated x s = x.rotateRight s ↔ x.msb = false ∨ ∀ i < s, x.getLsbD i = true := by
  constructor
  · intro h
    by_cases hsign : x.msb = false
    · exact .inl hsign
    · right
      intro i hi
      have hbit := congrArg (fun y : Word => y.getLsbD (32 - s + i)) h
      have hindex : 32 - s + i - (32 - s) = i := by omega
      have hnot : ¬ 32 - s + i < 32 - s := by omega
      simp only [getLsbD_rotated hs hs' (show 32 - s + i < 32 by omega),
        getLsbD_rotateRight hs' (show 32 - s + i < 32 by omega), if_neg hnot, hindex,
        Bool.not_eq_false _ ▸ hsign, Bool.true_or] at hbit
      exact hbit.symm
  · intro h
    apply BitVec.eq_of_getLsbD_eq
    intro i hi
    rw [getLsbD_rotated hs hs' hi, getLsbD_rotateRight hs' hi]
    by_cases hlow : i < 32 - s
    · rw [if_pos hlow, if_pos hlow]
    · rw [if_neg hlow, if_neg hlow]
      rcases h with hsign | hones
      · rw [hsign, Bool.false_or]
      · rw [hones _ (by omega), Bool.or_true]

private theorem msb_rotated (hs : 0 < s) (hs' : s < 32) :
    (rotated x s).msb = (x.msb || x.getLsbD (s - 1)) := by
  have hindex : 32 - 1 - (32 - s) = s - 1 := by omega
  rw [BitVec.msb_eq_getLsbD_last, getLsbD_rotated hs hs' (by decide), if_neg (by omega), hindex]

private theorem getLsbD_back (hs : 0 < s) (hs' : s < 32) {i : Nat} (hi : i < 32) :
    (rotated (rotated x s) (32 - s)).getLsbD i =
      if i < s then (x.msb || x.getLsbD i) else (x.msb || x.getLsbD (s - 1) || x.getLsbD i) := by
  have hback : 32 - (32 - s) = s := by omega
  rw [getLsbD_rotated (by omega) (by omega) hi, msb_rotated hs hs', hback]
  by_cases h : i < s
  · have hindex : 32 - s + i - (32 - s) = i := by omega
    rw [if_pos h, if_pos h, getLsbD_rotated hs hs' (by omega), if_neg (by omega), hindex]
  · have hindex : s + (i - s) = i := by omega
    rw [if_neg h, if_neg h, getLsbD_rotated hs hs' (by omega), if_pos (by omega), hindex]

private theorem rotated_back (hs : 0 < s) (hs' : s < 32) :
    rotated (rotated x s) (32 - s) = x ↔
      x.msb = false ∧ x.getLsbD (s - 1) = false ∨ ∀ i < 32, x.getLsbD i = true := by
  constructor
  · intro h
    have hbit : ∀ i < 32, x.getLsbD i =
        if i < s then (x.msb || x.getLsbD i)
        else (x.msb || x.getLsbD (s - 1) || x.getLsbD i) := by
      intro i hi
      rw [← getLsbD_back hs hs' hi, h]
    cases hsign : x.msb with
    | false =>
      have htop := hbit 31 (by decide)
      have hlast : x.getLsbD 31 = false := by rwa [BitVec.msb_eq_getLsbD_last] at hsign
      rw [if_neg (by omega), hsign, hlast, Bool.false_or, Bool.or_false] at htop
      exact .inl ⟨rfl, htop.symm⟩
    | true =>
      right
      intro i hi
      have hi' := hbit i hi
      rw [hsign, Bool.true_or, Bool.true_or, Bool.true_or, ite_self] at hi'
      exact hi'
  · intro h
    apply BitVec.eq_of_getLsbD_eq
    intro i hi
    rw [getLsbD_back hs hs' hi]
    rcases h with ⟨hsign, hcarry⟩ | hones
    · rw [hsign, hcarry, Bool.false_or, Bool.false_or, Bool.false_or, ite_self]
    · rw [hones i hi, Bool.or_true, Bool.or_true, ite_self]

/-- Right shifts are logical up to the sign, and so are the rotations made of them. -/
theorem logical_shifts (w : Word) (r : Nat → Word) (x : Word) {s : Nat}
    (h : (decode w).opCode = .srl ∨ (decode w).opCode = .srlv) (hs : 0 < s) (hs' : s < 32) :
    (∃ v, execute (decode w) r = .write (decode w).rd v ∧
      (v.toNat = (r (decode w).rt).toNat / 2 ^ shiftAmount w r ↔
        shiftAmount w r = 0 ∨ (r (decode w).rt).toNat < 2 ^ 31)) ∧
    (rotated x s = x.rotateRight s ↔ x.msb = false ∨ ∀ i < s, x.getLsbD i = true) ∧
    (rotated (rotated x s) (32 - s) = x ↔
      x.msb = false ∧ x.getLsbD (s - 1) = false ∨ ∀ i < 32, x.getLsbD i = true) := by
  refine ⟨⟨_, execute_shift w r h, sshiftRight_logical _ _⟩, ?_, ?_⟩
  · exact rotated_rotateRight hs hs'
  · exact rotated_back hs hs'

/-- `srl $1, $2, 4` and a rotation by four bits, with the sign clear. -/
theorem logical_shifts_clear : ∃ v, execute (decode 0x00020902) (fun _ => 0x70000013) = .write 1 v ∧
    v.toNat = 0x07000001 ∧ rotated 0x70000013 4 = 0x37000001 ∧
    rotated (rotated 0x70000013 4) 28 = 0x70000013 := by
  have hshift : shiftAmount 0x00020902 (fun _ => 0x70000013) = 4 := by decide +kernel
  obtain ⟨⟨v, hexec, hvalue⟩, hrotate, hback⟩ := logical_shifts 0x00020902 (fun _ => 0x70000013)
    0x70000013 (s := 4) (.inl (by decide +kernel)) (by decide) (by decide)
  have hclear := hvalue.mpr (.inr (by decide))
  rw [hshift] at hclear
  exact ⟨v, hexec, hclear, hrotate.mpr (.inl (by decide)),
    hback.mpr (.inl ⟨by decide, by decide⟩)⟩

/-- `srl $1, $2, 1` and a rotation by one bit, with the sign set. -/
theorem logical_shifts_sign :
    (decode 0x00020842).opCode = .srl ∧ shiftAmount 0x00020842 (fun _ => 0x80000000) = 1 ∧
      execute (decode 0x00020842) (fun _ => 0x80000000) = .write 1 0xc0000000 ∧
      (0xc0000000 : Word).toNat ≠ (0x80000000 : Word).toNat / 2 ^ 1 ∧
      rotated 0x80000000 1 ≠ BitVec.rotateRight 0x80000000 1 ∧
      rotated (rotated 0x80000000 1) 31 ≠ 0x80000000 := by
  refine ⟨rfl, rfl, rfl, by decide, by decide +kernel, by decide +kernel⟩

/-! ## Division -/

/-- Quotient and remainder of a division towards zero. -/
structure Divided (a b quotient remainder : Int) : Prop where
  product : quotient * b + remainder = a
  small : remainder.natAbs < b.natAbs
  sign : remainder = 0 ∨ remainder.sign = a.sign

private theorem divided_tdiv (a : Int) {b : Int} (hb : b ≠ 0) :
    Divided a b (a.tdiv b) (a.tmod b) where
  product := Int.tdiv_mul_add_tmod a b
  small := by
    rw [Int.natAbs_tmod]
    exact Nat.mod_lt _ (Int.natAbs_pos.mpr hb)
  sign := by
    have hsign := Int.sign_tmod a b
    by_cases hdvd : b ∣ a
    · rw [if_pos hdvd] at hsign
      exact .inl (Int.sign_eq_zero_iff_zero.mp hsign)
    · rw [if_neg hdvd] at hsign
      exact .inr hsign

/-- What `DIV` and `DIVU` leave in `LoReg` and `HiReg`. -/
def DividedBy (op : OpCode) (rs rt lo hi : Word) : Prop :=
  if op = .div then Divided rs.toInt rt.toInt lo.toInt hi.toInt
  else Divided rs.toNat rt.toNat lo.toNat hi.toNat

/-- The operands of `DIV` whose quotient is not a number of 32 bits. -/
def Unrepresentable (op : OpCode) (rs rt : Word) : Prop := op = .div ∧ rs = signBit ∧ rt = -1

private theorem execute_div {i : Instruction} {r : Nat → Word}
    (hop : i.opCode = .div ∨ i.opCode = .divu) (h : ¬ Unrepresentable i.opCode (r i.rs) (r i.rt)) :
    ∃ hi lo, execute i r = .hiLo hi lo ∧
      (r i.rt ≠ 0 → DividedBy i.opCode (r i.rs) (r i.rt) lo hi) := by
  rcases hop with hop | hop
  · by_cases hzero : r i.rt = 0
    · refine ⟨0, 0, ?_, fun hne => absurd hzero hne⟩
      simp only [execute, hop, if_pos hzero]
    · have hfits : ¬ (r i.rs = signBit ∧ r i.rt = -1) := fun hn => h ⟨hop, hn⟩
      refine ⟨(r i.rs).srem (r i.rt), (r i.rs).sdiv (r i.rt), ?_, fun _ => ?_⟩
      · simp only [execute, hop, if_neg hzero, if_neg hfits]
      have hquot : ((r i.rs).sdiv (r i.rt)).toInt = (r i.rs).toInt.tdiv (r i.rt).toInt := by
        apply BitVec.toInt_sdiv_of_ne_or_ne
        exact Decidable.not_and_iff_or_not.mp hfits
      rw [DividedBy, if_pos hop, hquot, BitVec.toInt_srem]
      apply divided_tdiv
      intro hz
      exact hzero (BitVec.eq_of_toInt_eq hz)
  · by_cases hzero : r i.rt = 0
    · refine ⟨0, 0, ?_, fun hne => absurd hzero hne⟩
      simp only [execute, hop, if_pos hzero]
    · refine ⟨(r i.rs).umod (r i.rt), (r i.rs).udiv (r i.rt), ?_, fun _ => ?_⟩
      · simp only [execute, hop, if_neg hzero]
      have hne : ((r i.rt).toNat : Int) ≠ 0 := by
        intro hz
        exact hzero (BitVec.eq_of_toNat_eq (Int.ofNat.inj hz))
      have hdiv := divided_tdiv ((r i.rs).toNat : Int) hne
      rw [DividedBy, if_neg (by rw [hop]; decide)]
      exact hdiv

namespace Vm

variable {m m₁ : Vm} {vir : Int} {w : Word}

theorem wellFormed_readMem (h : WellFormed m.registers) {addr : Word} {size : Nat}
    (hread : m.readMem addr size vir = some (m₁, w)) : WellFormed m₁.registers := by
  rcases readMem_registers hread with hreg | hreg
  · rw [hreg]
    exact h
  · have hidle := idle_raiseException m addr
    rw [hreg]
    exact ⟨hidle.zero, by rw [hidle.loadReg]; decide⟩

private theorem advance_hiLo {n : Vm} (h : (n.registers loadReg).toNat < 32) (p : Word) {k : Nat}
    (hk : k = hiReg ∨ k = loReg) : (n.advance 0 0 p).registers k = n.registers k := by
  have hother : k ≠ 0 ∧ k ≠ nextPCReg ∧ k ≠ pcReg ∧ k ≠ prevPCReg ∧
      k ≠ (n.registers loadReg).toNat ∧ k < loadReg := by
    simp only [hiReg, loReg, nextPCReg, pcReg, prevPCReg, loadReg] at *
    omega
  obtain ⟨h₀, h₁, h₂, h₃, h₄, hlt⟩ := hother
  rw [advance_register n _ _ _ hlt, if_neg h₁, if_neg h₂, if_neg h₃, commit_of_ne h₀ hlt h₄]

/-- A division is defined, and right where there is a divisor, but for one pair of operands. -/
theorem division_defined {m m₁ : Vm} {vir : Int} {w : Word} (hm : WellFormed m.registers)
    (hfetch : m.readMem (m.registers pcReg) 4 vir = some (m₁, w))
    (hop : (decode w).opCode = .div ∨ (decode w).opCode = .divu) :
    (∃ m', m.oneInstruction vir = some (m', none) ∧
      (m₁.registers (decode w).rt ≠ 0 →
        DividedBy (decode w).opCode (m₁.registers (decode w).rs) (m₁.registers (decode w).rt)
          (m'.registers loReg) (m'.registers hiReg))) ↔
    ¬ Unrepresentable (decode w).opCode (m₁.registers (decode w).rs)
      (m₁.registers (decode w).rt) := by
  rw [oneInstruction_of_fetch hfetch]
  constructor
  · rintro ⟨m', hrun, -⟩ ⟨hdiv, hrs, hrt⟩
    have hne : ¬ m₁.registers (decode w).rt = 0 := by
      rw [hrt]
      decide
    have hexec : execute (decode w) m₁.registers = .undefined := by
      simp only [execute, hdiv, if_neg hne, if_pos (And.intro hrs hrt)]
    rw [hexec] at hrun
    cases hrun
  · intro h
    have hpending := (wellFormed_readMem hm hfetch).pending
    obtain ⟨hi, lo, hexec, hresult⟩ := execute_div hop h
    rw [hexec]
    have hkept : (((m₁.writeReg loReg lo).writeReg hiReg hi).registers loadReg).toNat < 32 := hpending
    refine ⟨_, rfl, ?_⟩
    rw [advance_hiLo hkept _ (.inr rfl), advance_hiLo hkept _ (.inl rfl)]
    exact hresult

/-- A machine with the instruction `div $1, $2`. -/
def divProgram (x y : Word) : Vm :=
  let bytes : List Byte := [0x1a, 0x00, 0x22, 0x00]
  { loadProgram with
    registers := fun k => if k = 1 then x else if k = 2 then y else if k = nextPCReg then 4 else 0,
    mainMemory := fun a => bytes.getD a 0 }

theorem division_defined_seven : ∃ m', (divProgram (-7) 2).oneInstruction 0 = some (m', none) ∧
    DividedBy .div (-7) 2 (m'.registers loReg) (m'.registers hiReg) := by
  have hfetch : ((divProgram (-7) 2).readMem 0 4 0).map
      (fun p => (p.2, p.1.registers 1, p.1.registers 2)) = some (0x0022001a, -7, 2) := by
    decide +kernel
  obtain ⟨⟨m₁, w⟩, hread, hw⟩ := Option.map_eq_some_iff.mp hfetch
  simp only [Prod.mk.injEq] at hw
  obtain ⟨rfl, hx, hy⟩ := hw
  have hdecode : (decode 0x0022001a).opCode = .div ∧ (decode 0x0022001a).rs = 1 ∧
      (decode 0x0022001a).rt = 2 := by decide +kernel
  obtain ⟨hop, hrs, hrt⟩ := hdecode
  have hdefined := division_defined (m := divProgram (-7) 2) ⟨rfl, by decide⟩ hread (.inl hop)
  rw [hop, hrs, hrt, hx, hy] at hdefined
  obtain ⟨m', hrun, hresult⟩ := hdefined.mpr (fun h => absurd h.2.1 (by decide))
  exact ⟨m', hrun, hresult (by decide)⟩

/-- The least number divided by `-1`. -/
theorem division_undefined : ((divProgram signBit (-1)).readMem 0 4 0).map Prod.snd =
      some 0x0022001a ∧ (decode 0x0022001a).opCode = .div ∧
    (divProgram signBit (-1)).oneInstruction 0 = none := by
  have hnone : ((divProgram signBit (-1)).oneInstruction 0).isNone = true := by decide +kernel
  exact ⟨by decide +kernel, by decide +kernel, Option.isNone_iff_eq_none.mp hnone⟩

end Vm

end Nachos

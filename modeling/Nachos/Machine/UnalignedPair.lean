import Nachos.Machine.UserMemory

/-!
# Pairs of unaligned accesses

`LWR` and `LWL` each merge a part of an aligned word into a register, `SWR` and `SWL` merge a
part of a register into an aligned word. Two of them, one for each end of four bytes, make up an
access to a word at any address.
-/

namespace Nachos

open Framework

/-! ## The merges by bytes -/

variable {k i : Nat}

private theorem byte_mergeLWR (hk : k < 4) (hi : i < 4) (old value : Word) :
    byte (mergeLWR k old value) i = if i < 4 - k then byte value (i + k) else byte old i := by
  -- the shifted word is only looked at below the sign that was shifted in
  have hshift : ∀ {n : Nat} {x : Word}, n = k → x = value.sshiftRight (8 * n) → ∀ {high low : Word},
      HighMask high (4 - k) → LowMask low (4 - k) →
      byte ((old &&& high) ||| (x &&& low)) i =
        if i < 4 - k then byte value (i + k) else byte old i := by
    rintro n x rfl rfl high low hhigh hlow
    rw [byte_masked hlow hhigh hi]
    split
    · rw [byte_sshiftRight value (by omega)]
    · rfl
  interval_cases k
  · rw [if_pos (by omega)]
    rfl
  · exact hshift (n := 1) rfl rfl (by decide) (by decide)
  · exact hshift (n := 2) rfl rfl (by decide) (by decide)
  · exact hshift (n := 3) rfl rfl (by decide) (by decide)

private theorem byte_mergeLWL (hk : k < 4) (hi : i < 4) (old value : Word) :
    byte (mergeLWL k old value) i =
      if 3 - k ≤ i then byte value (i - (3 - k)) else byte old i := by
  interval_cases k
  · exact byte_masked_shiftLeft (n := 3) (by decide) hi old value
  · exact byte_masked_shiftLeft (n := 2) (by decide) hi old value
  · exact byte_masked_shiftLeft (n := 1) (by decide) hi old value
  · rw [if_pos (by omega)]
    rfl

private theorem byte_mergeSWL (hk : k < 4) (hi : i < 4) (rt value : Word) :
    byte (mergeSWL k rt value) i = if i < k + 1 then byte rt (i + (3 - k)) else byte value i := by
  have hshift : ∀ {n : Nat} {x : Word}, n = 3 - k → x = rt.sshiftRight (8 * n) →
      ∀ {high low : Word}, HighMask high (k + 1) → LowMask low (k + 1) →
      byte ((value &&& high) ||| (x &&& low)) i =
        if i < k + 1 then byte rt (i + (3 - k)) else byte value i := by
    rintro n x rfl rfl high low hhigh hlow
    rw [byte_masked hlow hhigh hi]
    split
    · rw [byte_sshiftRight rt (by omega)]
    · rfl
  interval_cases k
  · exact hshift (n := 3) rfl rfl (by decide) (by decide)
  · exact hshift (n := 2) rfl rfl (by decide) (by decide)
  · exact hshift (n := 1) rfl rfl (by decide) (by decide)
  · rw [if_pos (by omega)]
    rfl

private theorem byte_mergeSWR (hk : k < 4) (hi : i < 4) (rt value : Word) :
    byte (mergeSWR k rt value) i = if k ≤ i then byte rt (i - k) else byte value i := by
  interval_cases k
  · rw [if_pos (by omega)]
    rfl
  · exact byte_masked_shiftLeft (n := 1) (by decide) hi value rt
  · exact byte_masked_shiftLeft (n := 2) (by decide) hi value rt
  · exact byte_masked_shiftLeft (n := 3) (by decide) hi value rt

/-! ## The words an address touches -/

def wordAddr (a : Word) : Word := a - (a &&& 3)

def byteIndex (a : Word) : Nat := (a &&& 3).toNat

private theorem byteIndex_eq (a : Word) : byteIndex a = a.toNat % 4 := Vm.toNat_and_three a

private theorem byteIndex_lt (a : Word) : byteIndex a < 4 := by
  rw [byteIndex_eq]
  exact Nat.mod_lt _ (by decide)

private theorem toNat_wordAddr (a : Word) : (wordAddr a).toNat = a.toNat - a.toNat % 4 := by
  have hlt := a.isLt
  rw [wordAddr, BitVec.toNat_sub, Vm.toNat_and_three]
  omega

private theorem wordAddr_aligned (a : Word) : Vm.Aligned (wordAddr a) 4 := by
  rw [Vm.Aligned, toNat_wordAddr]
  omega

private theorem wordAddr_page (a : Word) : (wordAddr a).toNat / pageSize = a.toNat / pageSize := by
  rw [toNat_wordAddr]
  simp only [pageSize]
  omega

def wordAt (mem : ByteMemory 32) (a : Word) : Word := BitVec.ofNat 32 (mem.compose (wordAddr a) 4)

private theorem byteIndex_add_three (a : Word) : byteIndex (a + 3) = (byteIndex a + 3) % 4 := by
  have hlt := a.isLt
  rw [byteIndex_eq, byteIndex_eq, BitVec.toNat_add]
  show (a.toNat + 3) % 2 ^ 32 % 4 = _
  omega

private theorem toNat_add_ofNat (x : Word) (i : Nat) :
    (x + BitVec.ofNat 32 i).toNat = (x.toNat + i) % 2 ^ 32 := by
  rw [BitVec.toNat_add, BitVec.toNat_ofNat]
  omega

private theorem byte_wordAt (mem : ByteMemory 32) (a : Word) (hi : i < 4 - byteIndex a) :
    byte (wordAt mem a) (i + byteIndex a) = mem (a + BitVec.ofNat 32 i) := by
  have hlt := a.isLt
  have hindex := byteIndex_eq a
  rw [wordAt, ByteMemory.byte_compose _ _ (by omega)]
  apply congrArg mem
  apply BitVec.eq_of_toNat_eq
  rw [toNat_add_ofNat, toNat_add_ofNat, toNat_wordAddr]
  omega

private theorem byte_wordAt_last (mem : ByteMemory 32) (a : Word) (hi : i < 4)
    (hlast : 3 - byteIndex (a + 3) ≤ i) :
    byte (wordAt mem (a + 3)) (i - (3 - byteIndex (a + 3))) = mem (a + BitVec.ofNat 32 i) := by
  have hlt := a.isLt
  have hk := byteIndex_lt (a + 3)
  rw [wordAt, ByteMemory.byte_compose _ _ (by omega)]
  apply congrArg mem
  apply BitVec.eq_of_toNat_eq
  have hindex := byteIndex_eq (a + 3)
  have hthree : (a + 3).toNat = (a.toNat + 3) % 2 ^ 32 := BitVec.toNat_add a 3
  rw [toNat_add_ofNat, toNat_add_ofNat, toNat_wordAddr]
  omega

private theorem mergeLWL_mergeLWR (mem : ByteMemory 32) (a old : Word) :
    mergeLWL (byteIndex (a + 3)) (mergeLWR (byteIndex a) old (wordAt mem a)) (wordAt mem (a + 3)) =
      BitVec.ofNat 32 (mem.compose a 4) := by
  have hk := byteIndex_lt a
  have hk' := byteIndex_add_three a
  apply eq_of_byte
  intro i hi
  rw [byte_mergeLWL (byteIndex_lt _) hi, ByteMemory.byte_compose mem a hi]
  by_cases hlast : 3 - byteIndex (a + 3) ≤ i
  · rw [if_pos hlast, byte_wordAt_last mem a hi hlast]
  · have hfirst : i < 4 - byteIndex a := by omega
    rw [if_neg hlast, byte_mergeLWR hk hi, if_pos hfirst, byte_wordAt mem a hfirst]

private theorem mergeLWR_mergeLWL (mem : ByteMemory 32) (a old : Word) :
    mergeLWR (byteIndex a) (mergeLWL (byteIndex (a + 3)) old (wordAt mem (a + 3))) (wordAt mem a) =
      BitVec.ofNat 32 (mem.compose a 4) := by
  have hk := byteIndex_lt a
  have hk' := byteIndex_add_three a
  apply eq_of_byte
  intro i hi
  rw [byte_mergeLWR hk hi, ByteMemory.byte_compose mem a hi]
  by_cases hfirst : i < 4 - byteIndex a
  · rw [if_pos hfirst, byte_wordAt mem a hfirst]
  · have hlast : 3 - byteIndex (a + 3) ≤ i := by omega
    rw [if_neg hfirst, byte_mergeLWL (byteIndex_lt _) hi, if_pos hlast,
      byte_wordAt_last mem a hi hlast]

private theorem overlay_mergeSWR (mem : ByteMemory 32) (a rt x : Word) :
    mem.overlay (wordAddr a) 4 (mergeSWR (byteIndex a) rt (wordAt mem a)).toNat x =
      if (x - a).toNat < 4 - byteIndex a then byte rt (x - a).toNat else mem x := by
  have hx := x.isLt
  have ha := a.isLt
  have hk := byteIndex_lt a
  have hindex := byteIndex_eq a
  have hword : (x - wordAddr a).toNat = (2 ^ 32 - (a.toNat - a.toNat % 4) + x.toNat) % 2 ^ 32 := by
    rw [BitVec.toNat_sub, toNat_wordAddr]
  have hoff : (x - a).toNat = (2 ^ 32 - a.toNat + x.toNat) % 2 ^ 32 := BitVec.toNat_sub x a
  rw [ByteMemory.overlay_four]
  by_cases hin : (x - wordAddr a).toNat < 4
  · rw [if_pos hin, byte_mergeSWR hk hin]
    by_cases hbyte : byteIndex a ≤ (x - wordAddr a).toNat
    · rw [if_pos hbyte, if_pos (by omega)]
      exact congrArg (byte rt) (by omega)
    · rw [if_neg hbyte, if_neg (by omega), wordAt, ByteMemory.byte_compose _ _ hin,
        BitVec.ofNat_toNat, BitVec.setWidth_eq, BitVec.add_comm, BitVec.sub_add_cancel]
  · rw [if_neg hin, if_neg (by omega)]

private theorem overlay_mergeSWL (mem : ByteMemory 32) (a rt x : Word) :
    mem.overlay (wordAddr (a + 3)) 4
        (mergeSWL (byteIndex (a + 3)) rt (wordAt mem (a + 3))).toNat x =
      if 3 - byteIndex (a + 3) ≤ (x - a).toNat ∧ (x - a).toNat < 4 then byte rt (x - a).toNat
      else mem x := by
  have hx := x.isLt
  have ha := a.isLt
  have hk := byteIndex_lt (a + 3)
  have hindex := byteIndex_eq (a + 3)
  have hthree : (a + 3).toNat = (a.toNat + 3) % 2 ^ 32 := BitVec.toNat_add a 3
  have hword : (x - wordAddr (a + 3)).toNat =
      (2 ^ 32 - ((a + 3).toNat - (a + 3).toNat % 4) + x.toNat) % 2 ^ 32 := by
    rw [BitVec.toNat_sub, toNat_wordAddr]
  have hoff : (x - a).toNat = (2 ^ 32 - a.toNat + x.toNat) % 2 ^ 32 := BitVec.toNat_sub x a
  rw [ByteMemory.overlay_four]
  by_cases hin : (x - wordAddr (a + 3)).toNat < 4
  · rw [if_pos hin, byte_mergeSWL hk hin]
    by_cases hbyte : (x - wordAddr (a + 3)).toNat < byteIndex (a + 3) + 1
    · rw [if_pos hbyte, if_pos (by omega)]
      exact congrArg (byte rt) (by omega)
    · rw [if_neg hbyte, if_neg (by omega), wordAt, ByteMemory.byte_compose _ _ hin,
        BitVec.ofNat_toNat, BitVec.setWidth_eq, BitVec.add_comm, BitVec.sub_add_cancel]
  · rw [if_neg hin, if_neg (by omega)]

/-! ## The instructions -/

namespace Vm

variable {m m' : Vm} {pc addr : Word} {op : OpCode} {rt : Nat}

/-- The program has an access of the given kind at `pc`. -/
structure AccessAt (m : Vm) (pc : Word) (op : OpCode) (rt : Nat) (addr : Word) : Prop where
  fetchable : m.Fetchable pc
  opCode : (m.instructionAt pc).opCode = op
  register : (m.instructionAt pc).rt = rt
  address : m.registers (m.instructionAt pc).rs + (m.instructionAt pc).extra = addr

/-- No load is pending and register 0 is zero. -/
structure Idle (m : Vm) : Prop where
  loadReg : m.registers loadReg = 0
  zero : m.registers 0 = 0

theorem Idle.commit (h : m.Idle) {k : Nat} (hk : k < Nachos.loadReg) :
    Nachos.commit m.registers k = m.registers k := by
  rw [commit_idle h.loadReg hk]
  by_cases hzero : k = 0
  · rw [if_pos hzero, hzero, h.zero]
  · rw [if_neg hzero]

theorem Idle.advance_general (h : m.Idle) {k : Nat} (hk : k < 32) (nextLoadReg : Nat)
    (nextLoadValue pcAfter : Word) :
    (m.advance nextLoadReg nextLoadValue pcAfter).registers k = m.registers k :=
  (Vm.advance_general m _ _ _ hk).trans (h.commit (Nat.lt_trans hk (by decide)))

private theorem Idle.advance_pc (h : m.Idle) (nextLoadReg : Nat) (nextLoadValue pcAfter : Word) :
    (m.advance nextLoadReg nextLoadValue pcAfter).registers pcReg = m.registers nextPCReg := by
  rw [advance_register m _ _ _ (by decide), if_neg (by decide), if_pos rfl, h.commit (by decide)]

namespace AccessAt

private theorem rt_lt (h : m.AccessAt pc op rt addr) : rt < 32 := by
  rw [← h.register]
  exact (decode_fields _).2.1

private theorem address_of (h : m.AccessAt pc op rt addr) {r : Nat → Word}
    (hr : ∀ k < 32, r k = m.registers k) :
    r (m.instructionAt pc).rs + (m.instructionAt pc).extra = addr := by
  have hlt : (m.instructionAt pc).rs < 32 := (decode_fields _).1
  rw [hr _ hlt, h.address]

private theorem execute_lwr (h : m.AccessAt pc .lwr rt addr) {r : Nat → Word}
    (hr : ∀ k < 32, r k = m.registers k) : execute (m.instructionAt pc) r =
      .mergeLoad (wordAddr addr) rt (mergeLWR (byteIndex addr)) := by
  simp only [execute, h.opCode, h.address_of hr, h.register]
  rfl

private theorem execute_lwl (h : m.AccessAt pc .lwl rt addr) {r : Nat → Word}
    (hr : ∀ k < 32, r k = m.registers k) : execute (m.instructionAt pc) r =
      .mergeLoad (wordAddr addr) rt (mergeLWL (byteIndex addr)) := by
  simp only [execute, h.opCode, h.address_of hr, h.register]
  rfl

private theorem execute_swr (h : m.AccessAt pc .swr rt addr) {r : Nat → Word}
    (hr : ∀ k < 32, r k = m.registers k) : execute (m.instructionAt pc) r =
      .mergeStore (wordAddr addr) rt (mergeSWR (byteIndex addr)) := by
  simp only [execute, h.opCode, h.address_of hr, h.register]
  rfl

private theorem execute_swl (h : m.AccessAt pc .swl rt addr) {r : Nat → Word}
    (hr : ∀ k < 32, r k = m.registers k) : execute (m.instructionAt pc) r =
      .mergeStore (wordAddr addr) rt (mergeSWL (byteIndex addr)) := by
  simp only [execute, h.opCode, h.address_of hr, h.register]
  rfl

end AccessAt

private theorem present_wordAddr (h : m.Present addr) : m.Present (wordAddr addr) := by
  rw [Present, wordAddr_page]
  exact h

private theorem writable_wordAddr (h : m.Writable addr) : m.Writable (wordAddr addr) := by
  rw [Writable, wordAddr_page]
  exact h

private theorem mergeLoad_step (hfetch : m.Fetchable (m.registers pcReg))
    {merge : Word → Word → Word}
    (hexec : execute (m.instructionAt (m.registers pcReg)) m.registers =
      .mergeLoad (wordAddr addr) rt merge) (hres : m.Present addr) :
    ∃ m', m.instruction (fun _ => Vm.resident false) = some (m', none) ∧ SamePages m m' ∧
      m'.user = m.user ∧ m'.registers = (m.advance rt
        (merge (mergeOperand m.registers rt) (wordAt m.user addr))
        (m.registers nextPCReg + 4)).registers := by
  obtain ⟨m₁, hpages₁, huser₁, hreg₁, hinstr⟩ := hfetch.instruction_eq
  obtain ⟨m₂, hread, hpages₂, hmem₂, hreg₂⟩ := readMem_user
    (hpages₁.resident.mpr (present_wordAddr hres)) (wordAddr_aligned addr) (.inr (.inr rfl))
  rw [huser₁] at hread
  have hregs : m₂.registers = m.registers := hreg₂.trans hreg₁
  refine ⟨m₂.advance rt (merge (mergeOperand m.registers rt) (wordAt m.user addr))
    (m.registers nextPCReg + 4), ?_, (hpages₁.trans hpages₂).trans (advance_samePages m₂ _ _ _),
    ?_, ?_⟩
  · rw [hinstr, hexec]
    simp only [carryOut, hread, Option.bind_eq_bind, Option.bind_some, hregs]
    rfl
  · rw [advance_user, hpages₂.user_eq hmem₂, huser₁]
  · simp only [advance, hregs]

private theorem mergeStore_step (hfetch : m.Fetchable (m.registers pcReg))
    {merge : Word → Word → Word}
    (hexec : execute (m.instructionAt (m.registers pcReg)) m.registers =
      .mergeStore (wordAddr addr) rt merge) (hsep : m.Separate) (hres : m.Present addr)
    (hw : m.Writable addr) :
    ∃ m', m.instruction (fun _ => Vm.resident false) = some (m', none) ∧ SamePages m m' ∧
      m'.user = m.user.overlay (wordAddr addr) 4
        (merge (m.registers rt) (wordAt m.user addr)).toNat ∧
      m'.registers = (m.advance 0 0 (m.registers nextPCReg + 4)).registers := by
  obtain ⟨m₁, hpages₁, huser₁, hreg₁, hinstr⟩ := hfetch.instruction_eq
  obtain ⟨m₂, hread, hpages₂, hmem₂, hreg₂⟩ := readMem_user
    (hpages₁.resident.mpr (present_wordAddr hres)) (wordAddr_aligned addr) (.inr (.inr rfl))
  have hpages := hpages₁.trans hpages₂
  obtain ⟨m₃, hwrite, hpages₃, huser₃, hreg₃⟩ := writeMem_user (hpages.separate hsep)
    (hpages.resident.mpr (present_wordAddr hres)) (hpages.isWritable.mpr (writable_wordAddr hw))
    (wordAddr_aligned addr) (.inr (.inr rfl)) (merge (m.registers rt) (wordAt m.user addr))
  have huser₂ : m₂.user = m.user := (hpages₂.user_eq hmem₂).trans huser₁
  have hregs : m₂.registers = m.registers := hreg₂.trans hreg₁
  rw [huser₁] at hread
  have hwrite' : (Vm.resident false).writeMem m₂ (wordAddr addr) 4
      (merge (m₂.registers rt) (userValue m.user (wordAddr addr) 4)) = some m₃ := by
    rw [hregs]
    exact hwrite
  refine ⟨m₃.advance 0 0 (m.registers nextPCReg + 4), ?_,
    (hpages.trans hpages₃).trans (advance_samePages m₃ _ _ _), ?_, ?_⟩
  · rw [hinstr, hexec]
    simp only [carryOut, hread, hwrite', Option.bind_eq_bind, Option.bind_some]
  · rw [advance_user, huser₃, huser₂]
  · simp only [advance, hreg₃, hregs]

/-! ## The pairs -/

/-- `LWR rt, 0(addr)` and `LWL rt, 3(addr)`, in either order. -/
def LoadPair (m : Vm) (rt : Nat) (addr : Word) : Prop :=
  (m.AccessAt (m.registers pcReg) .lwr rt addr ∧
    m.AccessAt (m.registers nextPCReg) .lwl rt (addr + 3)) ∨
  (m.AccessAt (m.registers pcReg) .lwl rt (addr + 3) ∧
    m.AccessAt (m.registers nextPCReg) .lwr rt addr)

/-- `SWR rt, 0(addr)` and `SWL rt, 3(addr)`, in either order. -/
def StorePair (m : Vm) (rt : Nat) (addr : Word) : Prop :=
  (m.AccessAt (m.registers pcReg) .swr rt addr ∧
    m.AccessAt (m.registers nextPCReg) .swl rt (addr + 3)) ∨
  (m.AccessAt (m.registers pcReg) .swl rt (addr + 3) ∧
    m.AccessAt (m.registers nextPCReg) .swr rt addr)

private theorem mergeOperand_advance (m : Vm) (rt : Nat) (value pcAfter : Word) :
    mergeOperand (m.advance rt value pcAfter).registers rt = value := if_pos rfl

private theorem Idle.mergeOperand_eq (h : m.Idle) (hrt : rt < 32) (hzero : rt ≠ 0) :
    mergeOperand m.registers rt = m.registers rt := by
  apply if_neg
  rw [h.loadReg, ← BitVec.toNat_inj]
  have hmod : ((rt : Nat) : Word).toNat = rt := Nat.mod_eq_of_lt (by omega)
  rw [hmod]
  exact hzero.symm

private theorem run_two {m₁ : Vm} (vir : Int)
    (h₁ : m.instruction (fun _ => Vm.resident false) = some (m₁, none))
    (h₂ : m₁.instruction (fun _ => Vm.resident false) = some (m', none)) :
    m.run vir 2 = some m' := by
  rw [run, oneInstruction_of_resident vir h₁]
  dsimp only
  rw [run, oneInstruction_of_resident vir h₂]
  rfl

private theorem mergeLoad_pair (hidle : m.Idle) (hrt : rt < 32) (hzero : rt ≠ 0) {a₁ a₂ : Word}
    {f₁ f₂ : Word → Word → Word} (hf₁ : m.Fetchable (m.registers pcReg))
    (hf₂ : m.Fetchable (m.registers nextPCReg))
    (he₁ : ∀ r, (∀ k < 32, r k = m.registers k) →
      execute (m.instructionAt (m.registers pcReg)) r = .mergeLoad (wordAddr a₁) rt f₁)
    (he₂ : ∀ r, (∀ k < 32, r k = m.registers k) →
      execute (m.instructionAt (m.registers nextPCReg)) r = .mergeLoad (wordAddr a₂) rt f₂)
    (hp₁ : m.Present a₁) (hp₂ : m.Present a₂) (vir : Int) :
    ∃ m', m.run vir 2 = some m' ∧ SamePages m m' ∧ m'.user = m.user ∧
      m'.Pending rt (f₂ (f₁ (m.registers rt) (wordAt m.user a₁)) (wordAt m.user a₂)) := by
  obtain ⟨m₁, hstep₁, hpages₁, huser₁, hreg₁⟩ :=
    mergeLoad_step hf₁ (he₁ _ fun _ _ => rfl) hp₁
  have hpc : m₁.registers pcReg = m.registers nextPCReg := by
    rw [hreg₁]
    exact hidle.advance_pc _ _ _
  have hinstr : m₁.instructionAt (m.registers nextPCReg) = m.instructionAt (m.registers nextPCReg) := by
    rw [instructionAt, huser₁]
    rfl
  have he : execute (m₁.instructionAt (m₁.registers pcReg)) m₁.registers =
      .mergeLoad (wordAddr a₂) rt f₂ := by
    rw [hpc, hinstr]
    apply he₂
    intro k hk
    rw [hreg₁]
    exact hidle.advance_general hk _ _ _
  have hf : m₁.Fetchable (m₁.registers pcReg) := by
    rw [hpc]
    exact ⟨hf₂.aligned, hpages₁.resident.mpr hf₂.resident⟩
  obtain ⟨m₂, hstep₂, hpages₂, huser₂, hreg₂⟩ :=
    mergeLoad_step hf he (hpages₁.resident.mpr hp₂)
  refine ⟨m₂, run_two vir hstep₁ hstep₂, hpages₁.trans hpages₂, huser₂.trans huser₁, ?_⟩
  have hpending := (pending_advance m₁ rt
    (f₂ (mergeOperand m₁.registers rt) (wordAt m₁.user a₂)) (m₁.registers nextPCReg + 4)).of_registers
      hreg₂
  rwa [hreg₁, mergeOperand_advance, hidle.mergeOperand_eq hrt hzero, huser₁] at hpending

theorem LoadPair.run (h : m.LoadPair rt addr) (hidle : m.Idle) (hzero : rt ≠ 0)
    (hp : m.Present addr) (hp' : m.Present (addr + 3)) (vir : Int) :
    rt < 32 ∧ ∃ m', m.run vir 2 = some m' ∧ SamePages m m' ∧ m'.user = m.user ∧
      m'.Pending rt (BitVec.ofNat 32 (m.user.compose addr 4)) := by
  rcases h with ⟨hr, hl⟩ | ⟨hl, hr⟩
  · have hrt := hr.rt_lt
    have hrun := mergeLoad_pair hidle hrt hzero hr.fetchable hl.fetchable
      (fun r => hr.execute_lwr) (fun r => hl.execute_lwl) hp hp' vir
    rw [mergeLWL_mergeLWR] at hrun
    exact ⟨hrt, hrun⟩
  · have hrt := hr.rt_lt
    have hrun := mergeLoad_pair hidle hrt hzero hl.fetchable hr.fetchable
      (fun r => hl.execute_lwl) (fun r => hr.execute_lwr) hp' hp vir
    rw [mergeLWR_mergeLWL] at hrun
    exact ⟨hrt, hrun⟩

private theorem mergeStore_pair (hidle : m.Idle) (hrt : rt < 32) (hsep : m.Separate) {a₁ a₂ : Word}
    {f₁ f₂ : Word → Word → Word} (hf₁ : m.Fetchable (m.registers pcReg))
    (hf₂ : m.Fetchable (m.registers nextPCReg))
    (he₁ : ∀ r, (∀ k < 32, r k = m.registers k) →
      execute (m.instructionAt (m.registers pcReg)) r = .mergeStore (wordAddr a₁) rt f₁)
    (he₂ : ∀ r, (∀ k < 32, r k = m.registers k) →
      execute (m.instructionAt (m.registers nextPCReg)) r = .mergeStore (wordAddr a₂) rt f₂)
    (hp₁ : m.Present a₁) (hp₂ : m.Present a₂) (hw₁ : m.Writable a₁) (hw₂ : m.Writable a₂)
    {mem : ByteMemory 32} (hmem : m.user.overlay (wordAddr a₁) 4
      (f₁ (m.registers rt) (wordAt m.user a₁)).toNat = mem)
    (hkept : ∀ i < 4, mem (m.registers nextPCReg + BitVec.ofNat 32 i) =
      m.user (m.registers nextPCReg + BitVec.ofNat 32 i)) (vir : Int) :
    ∃ m', m.run vir 2 = some m' ∧ SamePages m m' ∧
      m'.user = mem.overlay (wordAddr a₂) 4 (f₂ (m.registers rt) (wordAt mem a₂)).toNat := by
  obtain ⟨m₁, hstep₁, hpages₁, huser₁, hreg₁⟩ :=
    mergeStore_step hf₁ (he₁ _ fun _ _ => rfl) hsep hp₁ hw₁
  rw [hmem] at huser₁
  have hpc : m₁.registers pcReg = m.registers nextPCReg := by
    rw [hreg₁]
    exact hidle.advance_pc _ _ _
  have hgeneral : ∀ k < 32, m₁.registers k = m.registers k := by
    intro k hk
    rw [hreg₁]
    exact hidle.advance_general hk _ _ _
  have hinstr : m₁.instructionAt (m.registers nextPCReg) =
      m.instructionAt (m.registers nextPCReg) := by
    apply instructionAt_congr
    intro i hi
    rw [huser₁]
    exact hkept i hi
  have he : execute (m₁.instructionAt (m₁.registers pcReg)) m₁.registers =
      .mergeStore (wordAddr a₂) rt f₂ := by
    rw [hpc, hinstr]
    exact he₂ _ hgeneral
  have hf : m₁.Fetchable (m₁.registers pcReg) := by
    rw [hpc]
    exact ⟨hf₂.aligned, hpages₁.resident.mpr hf₂.resident⟩
  obtain ⟨m₂, hstep₂, hpages₂, huser₂, -⟩ := mergeStore_step hf he (hpages₁.separate hsep)
    (hpages₁.resident.mpr hp₂) (hpages₁.isWritable.mpr hw₂)
  rw [huser₁, hgeneral rt hrt] at huser₂
  exact ⟨m₂, run_two vir hstep₁ hstep₂, hpages₁.trans hpages₂, huser₂⟩

theorem StorePair.run (h : m.StorePair rt addr) (hidle : m.Idle) (hsep : m.Separate)
    (hp : m.Present addr) (hp' : m.Present (addr + 3)) (hw : m.Writable addr)
    (hw' : m.Writable (addr + 3))
    (hspare : (ByteStore.mk addr 4 (m.registers rt)).Spares (m.registers nextPCReg)) (vir : Int) :
    ∃ m', m.run vir 2 = some m' ∧ SamePages m m' ∧
      m'.user = m.user.overlay addr 4 (m.registers rt).toNat := by
  have hk := byteIndex_add_three addr
  have hlt := byteIndex_lt addr
  rcases h with ⟨hr, hl⟩ | ⟨hl, hr⟩
  · obtain ⟨m', hrun, hpages, huser⟩ := mergeStore_pair hidle hr.rt_lt hsep hr.fetchable
      hl.fetchable (fun r => hr.execute_swr) (fun r => hl.execute_swl) hp hp' hw hw' rfl
      (fun i hi => (overlay_mergeSWR _ _ _ _).trans (if_neg fun hin => hspare i hi (by
        simp only [ByteStore.Covers]
        omega))) vir
    refine ⟨m', hrun, hpages, ?_⟩
    funext x
    rw [huser, overlay_mergeSWL, overlay_mergeSWR, ByteMemory.overlay_four]
    by_cases hin : (x - addr).toNat < 4
    · rw [if_pos hin]
      by_cases hlast : 3 - byteIndex (addr + 3) ≤ (x - addr).toNat ∧ (x - addr).toNat < 4
      · rw [if_pos hlast]
      · rw [if_neg hlast, if_pos (by omega)]
    · rw [if_neg hin, if_neg fun hlast => hin hlast.2, if_neg (by omega)]
  · obtain ⟨m', hrun, hpages, huser⟩ := mergeStore_pair hidle hr.rt_lt hsep hl.fetchable
      hr.fetchable (fun r => hl.execute_swl) (fun r => hr.execute_swr) hp' hp hw' hw rfl
      (fun i hi => (overlay_mergeSWL _ _ _ _).trans (if_neg fun hin => hspare i hi hin.2)) vir
    refine ⟨m', hrun, hpages, ?_⟩
    funext x
    rw [huser, overlay_mergeSWR, overlay_mergeSWL, ByteMemory.overlay_four]
    by_cases hin : (x - addr).toNat < 4
    · rw [if_pos hin]
      by_cases hfirst : (x - addr).toNat < 4 - byteIndex addr
      · rw [if_pos hfirst]
      · rw [if_neg hfirst, if_pos ⟨by omega, hin⟩]
    · rw [if_neg hin, if_neg (by omega), if_neg fun hlast => hin hlast.2]

/-- The load is delivered: at once when it is committed, or with the next instruction. -/
def Delivers (m : Vm) (rt : Nat) (value : Word) (vir : Int) : Prop :=
  m.drain.registers rt = value ∧
    ∀ m₁ e, m.instruction (fun _ => Vm.resident false) = some (m₁, e) →
      m.oneInstruction vir = some (m₁, e) ∧ m₁.registers rt = value

/-- The pairs are exact at every address, and what has been stored is loaded again. -/
theorem unaligned_pairs {m : Vm} {addr : Word} {rt : Nat} (hzero : rt ≠ 0) (hidle : m.Idle)
    (hpresent : ∀ i < 4, m.Present (addr + BitVec.ofNat 32 i)) (vir : Int) :
    (m.LoadPair rt addr → ∃ m', m.run vir 2 = some m' ∧ SamePages m m' ∧ m'.user = m.user ∧
      m'.Delivers rt (BitVec.ofNat 32 (m.user.compose addr 4)) vir) ∧
    (m.StorePair rt addr → m.Separate → (∀ i < 4, m.Writable (addr + BitVec.ofNat 32 i)) →
      (ByteStore.mk addr 4 (m.registers rt)).Spares (m.registers nextPCReg) →
      ∃ m', m.run vir 2 = some m' ∧ SamePages m m' ∧
        m'.user = m.user.overlay addr 4 (m.registers rt).toNat ∧
        ∀ r rt', rt' ≠ 0 → (m'.withRegisters r).Idle → (m'.withRegisters r).LoadPair rt' addr →
          ∃ m'', (m'.withRegisters r).run vir 2 = some m'' ∧ m''.user = m'.user ∧
            m''.Delivers rt' (m.registers rt) vir) := by
  have hp : m.Present addr := by
    have hfirst := hpresent 0 (by decide)
    rwa [BitVec.add_zero] at hfirst
  have hp' : m.Present (addr + 3) := hpresent 3 (by decide)
  constructor
  · intro hload
    obtain ⟨hrt, m', hrun, hpages, huser, hpending⟩ := hload.run hidle hzero hp hp' vir
    exact ⟨m', hrun, hpages, huser, hpending.delivered_all hrt hzero vir⟩
  · intro hstore hsep hwritable hspare
    have hw : m.Writable addr := by
      have hfirst := hwritable 0 (by decide)
      rwa [BitVec.add_zero] at hfirst
    obtain ⟨m', hrun, hpages, huser⟩ := hstore.run hidle hsep hp hp' hw (hwritable 3 (by decide))
      hspare vir
    refine ⟨m', hrun, hpages, huser, ?_⟩
    intro r rt' hzero' hidle' hload
    obtain ⟨hrt', m'', hrun', -, huser', hpending⟩ := hload.run hidle' hzero'
      (hpages.resident.mpr hp) (hpages.resident.mpr hp') vir
    have hvalue : BitVec.ofNat 32 ((m'.withRegisters r).user.compose addr 4) = m.registers rt := by
      show BitVec.ofNat 32 (m'.user.compose addr 4) = _
      rw [huser, ByteMemory.compose_overlay_self _ _ (by decide)]
      apply BitVec.eq_of_toNat_eq
      have hlt := (m.registers rt).isLt
      rw [BitVec.toNat_ofNat]
      omega
    rw [hvalue] at hpending
    exact ⟨m'', hrun', huser', hpending.delivered_all hrt' hzero' vir⟩

/-- A machine with the program `swr $2, 0($1); swl $2, 3($1); lwr $3, 0($1); lwl $3, 3($1)`, and
two pages in frames that are not next to each other. -/
def pairProgram : Vm :=
  let bytes : List Byte :=
    [0, 0, 0x22, 0xb8, 3, 0, 0x22, 0xa8, 0, 0, 0x23, 0x98, 3, 0, 0x23, 0x88]
  { loadProgram with
    registers := fun k =>
      if k = 1 then 126 else if k = 2 then 0x11223344 else if k = nextPCReg then 4 else 0,
    mainMemory := fun a => bytes.getD a 0,
    pageTableSize := 2,
    tables := fun _ v =>
      { virtualPage := v, physicalPage := 5 * v, valid := true, readOnly := false, use := false,
        dirty := false, diskFile := "" } }

def pairRegisters : Nat → Word := fun k =>
  if k = 1 then 126 else if k = pcReg then 8 else if k = nextPCReg then 12 else 0

theorem unaligned_pairs_two_pages : ∃ m' m'', pairProgram.run 0 2 = some m' ∧
    (m'.withRegisters pairRegisters).run 0 2 = some m'' ∧
    m''.drain.registers 3 = 0x11223344 := by
  have hpresent : ∀ i < 4, pairProgram.Present (126 + BitVec.ofNat 32 i) := by decide
  have hwritable : ∀ i < 4, pairProgram.Writable (126 + BitVec.ofNat 32 i) := by decide
  have hsep : pairProgram.Separate := by
    intro v v' p h h'
    obtain ⟨t, -, -, hm⟩ := userFrame_eq_some.mp h
    obtain ⟨t', -, -, hm'⟩ := userFrame_eq_some.mp h'
    have hv : 5 * (v : Int) = p := hm.physicalPage
    have hv' : 5 * (v' : Int) = p := hm'.physicalPage
    omega
  have hswr : pairProgram.AccessAt (pairProgram.registers pcReg) .swr 2 126 :=
    ⟨⟨by decide, by decide⟩, rfl, rfl, rfl⟩
  have hswl : pairProgram.AccessAt (pairProgram.registers nextPCReg) .swl 2 (126 + 3) :=
    ⟨⟨by decide, by decide⟩, rfl, rfl, rfl⟩
  have hzero : 2 ≠ 0 := by decide
  obtain ⟨m', hrun, hpages, huser, hload⟩ := (unaligned_pairs hzero ⟨rfl, rfl⟩ hpresent 0).2 (.inl ⟨hswr, hswl⟩) hsep hwritable (by decide)
  have hinstr : ∀ pc, (m'.withRegisters pairRegisters).instructionAt pc = decode (BitVec.ofNat 32
      ((pairProgram.user.overlay 126 4 (pairProgram.registers 2).toNat).compose pc 4)) := by
    intro pc
    rw [← huser]
    rfl
  have hlwr : (m'.withRegisters pairRegisters).AccessAt 8 .lwr 3 126 := by
    refine ⟨⟨by decide, hpages.resident.mpr (by decide)⟩, ?_, ?_, ?_⟩ <;> rw [hinstr] <;> rfl
  have hlwl : (m'.withRegisters pairRegisters).AccessAt 12 .lwl 3 (126 + 3) := by
    refine ⟨⟨by decide, hpages.resident.mpr (by decide)⟩, ?_, ?_, ?_⟩ <;> rw [hinstr] <;> rfl
  obtain ⟨m'', hrun', -, hdelivers⟩ := hload pairRegisters 3 (by decide) ⟨rfl, rfl⟩
    (.inl ⟨hlwr, hlwl⟩)
  exact ⟨m', m'', hrun, hrun', hdelivers.1⟩

end Vm
end Nachos

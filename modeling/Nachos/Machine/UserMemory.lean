import Nachos.Machine.LoadDelay
import Nachos.Framework.ByteMemory
import Mathlib.Data.Nat.Bitwise
import Mathlib.Tactic.IntervalCases

/-!
# The memory of a user program

Through its page table a program sees bytes at virtual addresses. On resident pages the loads
and stores of the machine are those of a byte memory, least significant byte first.
-/

namespace Nachos

open Framework

namespace Vm

def userFrame (m : Vm) (v : Nat) : Option Nat :=
  m.pageTable.bind fun t =>
    let entry := m.tables t v
    if v < m.pageTableSize ∧ entry.valid = true ∧ 0 ≤ entry.physicalPage ∧
        entry.physicalPage < numPhysPages then some entry.physicalPage.toNat
    else none

def writable (m : Vm) (v : Nat) : Bool :=
  m.pageTable.any fun t => !(m.tables t v).readOnly

def user (m : Vm) : ByteMemory 32 := fun a =>
  match m.userFrame (a.toNat / pageSize) with
  | some p => m.mainMemory (p * pageSize + a.toNat % pageSize)
  | none => 0

def Present (m : Vm) (a : Word) : Prop := (m.userFrame (a.toNat / pageSize)).isSome = true

def Writable (m : Vm) (a : Word) : Prop := m.writable (a.toNat / pageSize) = true

instance (m : Vm) (a : Word) : Decidable (m.Present a) := inferInstanceAs (Decidable (_ = true))

instance (m : Vm) (a : Word) : Decidable (m.Writable a) := inferInstanceAs (Decidable (_ = true))

def Separate (m : Vm) : Prop := ∀ v v' p, m.userFrame v = some p → m.userFrame v' = some p → v = v'

/-- The pages are where they were. -/
structure SamePages (m m' : Vm) : Prop where
  frame : m'.userFrame = m.userFrame
  writable : m'.writable = m.writable
  files : m'.files = m.files

namespace SamePages

variable {m m₁ m' : Vm}

theorem refl (m : Vm) : SamePages m m := ⟨rfl, rfl, rfl⟩

theorem trans (h : SamePages m m₁) (h' : SamePages m₁ m') : SamePages m m' :=
  ⟨h'.frame.trans h.frame, h'.writable.trans h.writable, h'.files.trans h.files⟩

theorem resident (h : SamePages m m') {a : Word} : m'.Present a ↔ m.Present a := by
  rw [Present, Present, h.frame]

theorem isWritable (h : SamePages m m') {a : Word} : m'.Writable a ↔ m.Writable a := by
  rw [Writable, Writable, h.writable]

theorem separate (h : SamePages m m') (hsep : m.Separate) : m'.Separate := by
  rw [Separate, h.frame]
  exact hsep

theorem user_eq (h : SamePages m m') (hmem : m'.mainMemory = m.mainMemory) : m'.user = m.user := by
  funext a
  rw [user, user, h.frame, hmem]

end SamePages

variable {m m' : Vm} {addr : Word} {size p : Nat}

theorem userFrame_eq_some {v : Nat} : m.userFrame v = some p ↔
    ∃ t, m.pageTable = some t ∧ v < m.pageTableSize ∧ Mapped (m.tables t v) p := by
  rw [userFrame]
  cases hpt : m.pageTable with
  | none => simp
  | some t =>
    rw [Option.bind_some]
    constructor
    · intro h
      dsimp only at h
      split at h
      next hc =>
        have hp := Option.some.inj h
        exact ⟨t, rfl, hc.1, hc.2.1, by omega, by omega⟩
      next => cases h
    · rintro ⟨t', ht, hv, hm⟩
      obtain rfl := Option.some.inj ht
      have hphys := hm.physicalPage
      have hbound := hm.bound
      rw [if_pos ⟨hv, hm.valid, by omega, by omega⟩, hphys, Int.toNat_natCast]

private theorem touch_samePages (m : Vm) (t v q : Nat) (writing : Bool) :
    SamePages m (m.touch t v q writing) := by
  have hentry : ∀ t' v', ((m.touch t v q writing).tables t' v').valid = (m.tables t' v').valid ∧
      ((m.touch t v q writing).tables t' v').physicalPage = (m.tables t' v').physicalPage ∧
      ((m.touch t v q writing).tables t' v').readOnly = (m.tables t' v').readOnly := by
    intro t' v'
    simp only [touch, setEntry]
    by_cases ht : t' = t
    · subst ht
      rw [Function.update_self]
      by_cases hv : v' = v
      · subst hv
        rw [Function.update_self]
        exact ⟨rfl, rfl, rfl⟩
      · rw [Function.update_of_ne hv]
        exact ⟨rfl, rfl, rfl⟩
    · rw [Function.update_of_ne ht]
      exact ⟨rfl, rfl, rfl⟩
  constructor
  case frame =>
    funext v'
    have hpt : (m.touch t v q writing).pageTable = m.pageTable := rfl
    have hsize : (m.touch t v q writing).pageTableSize = m.pageTableSize := rfl
    simp only [userFrame, hpt, hsize, (hentry _ v').1, (hentry _ v').2.1]
  case writable =>
    funext v'
    have hpt : (m.touch t v q writing).pageTable = m.pageTable := rfl
    simp only [writable, hpt, (hentry _ v').2.2]
  case files => rfl

private theorem translate_resident (hframe : m.userFrame (addr.toNat / pageSize) = some p)
    (hal : Aligned addr size) (hs : size = 1 ∨ size = 2 ∨ size = 4) (writing : Bool)
    (hw : writing = true → m.Writable addr) :
    ∃ m₁, m.translate addr size writing = some (m₁, .ok (p * pageSize + addr.toNat % pageSize)) ∧
      SamePages m m₁ ∧ m₁.mainMemory = m.mainMemory ∧ m₁.registers = m.registers := by
  obtain ⟨t, hpt, hv, hm⟩ := userFrame_eq_some.mp hframe
  refine ⟨_, translate_frame hpt hv hal hs hm ?_, touch_samePages _ _ _ _ _, rfl, rfl⟩
  intro hwriting
  have hwrite := hw hwriting
  rw [Writable, writable, hpt] at hwrite
  simpa using hwrite

private theorem toNat_add_offset (hal : Aligned addr size) (hs : size = 1 ∨ size = 2 ∨ size = 4)
    {i : Nat} (hi : i < size) : (addr + BitVec.ofNat 32 i).toNat = addr.toNat + i := by
  have hlt := addr.isLt
  rw [BitVec.toNat_add, BitVec.toNat_ofNat]
  unfold Aligned at hal
  omega

private theorem user_offset (hframe : m.userFrame (addr.toNat / pageSize) = some p)
    (hal : Aligned addr size) (hs : size = 1 ∨ size = 2 ∨ size = 4) {i : Nat} (hi : i < size) :
    m.user (addr + BitVec.ofNat 32 i) =
      m.mainMemory (p * pageSize + addr.toNat % pageSize + i) := by
  have hin := hal.within hs
  have hpage : (addr.toNat + i) / pageSize = addr.toNat / pageSize := by
    simp only [pageSize] at *
    omega
  have hoff : (addr.toNat + i) % pageSize = addr.toNat % pageSize + i := by
    simp only [pageSize] at *
    omega
  rw [user, toNat_add_offset hal hs hi, hpage, hframe, hoff, Nat.add_assoc]

/-- What `ReadMem` makes of the bytes. -/
def userValue (mem : ByteMemory 32) (a : Word) : Nat → Word
  | 1 => (BitVec.ofNat 8 (mem.compose a 1)).signExtend 32
  | 2 => (BitVec.ofNat 16 (mem.compose a 2)).setWidth 32
  | _ => BitVec.ofNat 32 (mem.compose a 4)

private theorem fetch_user (hframe : m.userFrame (addr.toNat / pageSize) = some p)
    (hal : Aligned addr size) (hs : size = 1 ∨ size = 2 ∨ size = 4) :
    fetch m.mainMemory size (p * pageSize + addr.toNat % pageSize) =
      some (userValue m.user addr size) := by
  have hbyte : ∀ i < size, m.mainMemory (p * pageSize + addr.toNat % pageSize + i) =
      m.user (addr + BitVec.ofNat 32 i) := fun i hi => (user_offset hframe hal hs hi).symm
  rcases hs with rfl | rfl | rfl
  · have h₀ := hbyte 0 (by decide)
    rw [Nat.add_zero, BitVec.add_zero] at h₀
    rw [fetch, userValue, ByteMemory.ofNat_compose_one, h₀]
  · have h₀ := hbyte 0 (by decide)
    rw [Nat.add_zero, BitVec.add_zero] at h₀
    rw [fetch, userValue, ByteMemory.ofNat_compose_two, h₀, hbyte 1 (by decide)]
    rfl
  · have h₀ := hbyte 0 (by decide)
    rw [Nat.add_zero, BitVec.add_zero] at h₀
    show fetch m.mainMemory 4 _ = some (BitVec.ofNat 32 (m.user.compose addr 4))
    rw [fetch, ByteMemory.ofNat_compose_four, h₀, hbyte 1 (by decide), hbyte 2 (by decide),
      hbyte 3 (by decide)]

/-- `ReadMem` on a resident page. -/
theorem readMem_user (hres : m.Present addr) (hal : Aligned addr size)
    (hs : size = 1 ∨ size = 2 ∨ size = 4) :
    ∃ m₁, (Vm.resident false).readMem m addr size = some (m₁, userValue m.user addr size) ∧
      SamePages m m₁ ∧ m₁.mainMemory = m.mainMemory ∧ m₁.registers = m.registers := by
  obtain ⟨p, hframe⟩ := Option.isSome_iff_exists.mp hres
  obtain ⟨m₁, htr, hpages, hmem, hreg⟩ := translate_resident hframe hal hs false
    (fun h => by cases h)
  refine ⟨m₁, ?_, hpages, hmem, hreg⟩
  simp only [Vm.resident, htr, hmem, fetch_user hframe hal hs, Option.bind_eq_bind,
    Option.bind_some, Bool.false_eq_true, if_false]

/-- `WriteMem` on a resident page changes the bytes it is given and no other. -/
theorem writeMem_user (hsep : m.Separate) (hres : m.Present addr) (hw : m.Writable addr)
    (hal : Aligned addr size) (hs : size = 1 ∨ size = 2 ∨ size = 4) (value : Word) :
    ∃ m₁, (Vm.resident false).writeMem m addr size value = some m₁ ∧ SamePages m m₁ ∧
      m₁.user = m.user.overlay addr size value.toNat ∧ m₁.registers = m.registers := by
  obtain ⟨p, hframe⟩ := Option.isSome_iff_exists.mp hres
  obtain ⟨m₁, htr, hpages, hmem, hreg⟩ := translate_resident hframe hal hs true fun _ => hw
  obtain ⟨memory, hstore⟩ : ∃ memory,
      store m₁.mainMemory size (p * pageSize + addr.toNat % pageSize) value = some memory :=
    ⟨_, if_pos hs⟩
  have hsame : SamePages m { m₁ with mainMemory := memory } := ⟨hpages.frame, hpages.writable, hpages.files⟩
  refine ⟨{ m₁ with mainMemory := memory }, ?_, hsame, ?_, hreg⟩
  · simp only [Vm.resident, htr, hstore, Option.bind_eq_bind, Option.bind_some,
      Bool.false_eq_true, if_false]
  · have hin := hal.within hs
    funext x
    have hx := x.isLt
    have haddr := addr.isLt
    -- the addresses of the access are those at its offset in the page of `addr`
    have hrange : (x - addr).toNat < size ↔ x.toNat / pageSize = addr.toNat / pageSize ∧
        addr.toNat % pageSize ≤ x.toNat % pageSize ∧
        x.toNat % pageSize < addr.toNat % pageSize + size := by
      rw [BitVec.toNat_sub]
      simp only [pageSize] at *
      omega
    rw [user, hsame.frame, ByteMemory.overlay]
    cases hx : m.userFrame (x.toNat / pageSize) with
    | none =>
      have hout : ¬ (x - addr).toNat < size := by
        rw [hrange]
        rintro ⟨hpage, -⟩
        rw [hpage, hframe] at hx
        cases hx
      rw [if_neg hout, user, hx]
    | some q =>
      dsimp only
      by_cases hpage : x.toNat / pageSize = addr.toNat / pageSize
      · rw [hpage, hframe] at hx
        obtain rfl := Option.some.inj hx
        rw [store_page hstore, hmem]
        have huser : m.user x = m.mainMemory (p * pageSize + x.toNat % pageSize) := by
          rw [user, hpage, hframe]
        by_cases hbyte : addr.toNat % pageSize ≤ x.toNat % pageSize ∧
            x.toNat % pageSize < addr.toNat % pageSize + size
        · have hoff : (x - addr).toNat = x.toNat % pageSize - addr.toNat % pageSize := by
            rw [BitVec.toNat_sub]
            simp only [pageSize] at *
            omega
          rw [if_pos hbyte, if_pos (hrange.mpr ⟨hpage, hbyte⟩), hoff, ByteMemory.extractLsb'_byte]
        · rw [if_neg hbyte, if_neg fun h => hbyte (hrange.mp h).2, huser]
      · have hq : q ≠ p := by
          rintro rfl
          exact hpage (hsep _ _ _ hx hframe)
        rw [store_other hstore hin hq (Nat.mod_lt _ (by decide)), hmem,
          if_neg fun h => hpage (hrange.mp h).1, user, hx]

/-! ## Instructions -/

def instructionAt (m : Vm) (pc : Word) : Instruction :=
  decode (BitVec.ofNat 32 (m.user.compose pc 4))

/-- The machine can fetch an instruction there. -/
structure Fetchable (m : Vm) (pc : Word) : Prop where
  aligned : Aligned pc 4
  resident : m.Present pc

theorem Fetchable.instruction_eq (h : m.Fetchable (m.registers pcReg)) :
    ∃ m₁, SamePages m m₁ ∧ m₁.user = m.user ∧ m₁.registers = m.registers ∧
      m.instruction (fun _ => Vm.resident false) =
        m₁.carryOut (fun _ => Vm.resident false) (m.registers nextPCReg + 4)
          (execute (m.instructionAt (m.registers pcReg)) m.registers) := by
  obtain ⟨m₁, hread, hpages, hmem, hreg⟩ := readMem_user h.resident h.aligned (.inr (.inr rfl))
  refine ⟨m₁, hpages, hpages.user_eq hmem, hreg, ?_⟩
  simp only [Vm.instruction, hread, Option.bind_eq_bind, Option.bind_some, hreg]
  rfl

theorem advance_samePages (m : Vm) (nextLoadReg : Nat) (nextLoadValue pcAfter : Word) :
    SamePages m (m.advance nextLoadReg nextLoadValue pcAfter) := ⟨rfl, rfl, rfl⟩

theorem advance_user (m : Vm) (nextLoadReg : Nat) (nextLoadValue pcAfter : Word) :
    (m.advance nextLoadReg nextLoadValue pcAfter).user = m.user := rfl

private theorem withRegisters_samePages (m : Vm) (r : Nat → Word) :
    SamePages m (m.withRegisters r) :=
  ⟨rfl, rfl, rfl⟩

/-- A pending load. -/
structure Pending (m : Vm) (rt : Nat) (value : Word) : Prop where
  loadReg : m.registers loadReg = rt
  loadValue : m.registers loadValueReg = value

theorem pending_advance (m : Vm) (rt : Nat) (value pcAfter : Word) :
    (m.advance rt value pcAfter).Pending rt value := ⟨rfl, rfl⟩

namespace Pending

variable {rt : Nat} {value : Word}

private theorem toNat_loadReg (h : m.Pending rt value) (hrt : rt < 32) :
    (m.registers Nachos.loadReg).toNat = rt := by
  rw [h.loadReg]
  exact Nat.mod_eq_of_lt (by omega)

theorem of_update (h : m.Pending rt value) {k : Nat} (hk : k < Nachos.loadReg ∨ k = badVAddrReg)
    (x : Word) : (m.writeReg k x).Pending rt value := by
  simp only [Nachos.loadReg, badVAddrReg] at hk
  constructor
  · exact (Function.update_of_ne (by simp only [Nachos.loadReg]; omega) _ _).trans h.loadReg
  · exact (Function.update_of_ne (by simp only [loadValueReg]; omega) _ _).trans h.loadValue

theorem of_registers (h : m.Pending rt value) (hreg : m'.registers = m.registers) :
    m'.Pending rt value :=
  ⟨(congrFun hreg _).trans h.loadReg, (congrFun hreg _).trans h.loadValue⟩

private theorem delivered_commit (h : m.Pending rt value) (hrt : rt < 32) (hzero : rt ≠ 0) :
    commit m.registers rt = value := by
  have htarget := h.toNat_loadReg hrt
  have hcommit := commit_target (s := m.registers) (by rwa [htarget])
    (by rw [htarget]; exact Nat.lt_trans hrt (by decide))
  rwa [htarget, h.loadValue] at hcommit

private theorem delivered_advance (h : m.Pending rt value) (hrt : rt < 32) (hzero : rt ≠ 0)
    (nextLoadReg : Nat) (nextLoadValue pcAfter : Word) :
    (m.advance nextLoadReg nextLoadValue pcAfter).registers rt = value := by
  rw [advance_general m _ _ _ hrt]
  exact h.delivered_commit hrt hzero

private theorem delivered (h : m.Pending rt value) (hrt : rt < 32) (hzero : rt ≠ 0)
    {r : Option ExceptionType} (hnext : m.instruction (fun _ => Vm.resident false) = some (m', r)) :
    m'.registers rt = value := by
  obtain ⟨⟨m₁, raw⟩, hfetch, hnext⟩ := Option.bind_eq_some_iff.mp hnext
  have h₁ : m₁.Pending rt value := h.of_registers (resident_readMem hfetch).1
  have hwithin := execute_within (decode raw) m₁.registers
  have hbound := Instruction.lt_loadReg (decode_fields raw)
  have hlt : ∀ k ∈ (decode raw).writes, k < Nachos.loadReg ∨ k = badVAddrReg := fun k hk =>
    .inl (hbound k (List.mem_append_right _ hk))
  dsimp only at hnext
  generalize execute (decode raw) m₁.registers = e at hwithin hnext
  cases e with
  | write k x =>
    obtain ⟨rfl, -⟩ := Prod.mk.inj (Option.some.inj hnext)
    exact (h₁.of_update (hlt k hwithin) x).delivered_advance hrt hzero _ _ _
  | hiLo hi lo =>
    obtain ⟨rfl, -⟩ := Prod.mk.inj (Option.some.inj hnext)
    exact ((h₁.of_update (k := loReg) (by decide) lo).of_update (k := hiReg) (by decide)
      hi).delivered_advance hrt hzero _ _ _
  | jump pc =>
    obtain ⟨rfl, -⟩ := Prod.mk.inj (Option.some.inj hnext)
    exact h₁.delivered_advance hrt hzero _ _ _
  | link k x pc =>
    obtain ⟨rfl, -⟩ := Prod.mk.inj (Option.some.inj hnext)
    exact (h₁.of_update (hlt k hwithin) x).delivered_advance hrt hzero _ _ _
  | load addr size k extend =>
    obtain ⟨⟨m₂, v⟩, hread, hnext⟩ := Option.bind_eq_some_iff.mp hnext
    obtain ⟨rfl, -⟩ := Prod.mk.inj (Option.some.inj hnext)
    exact (h₁.of_registers (resident_readMem hread).1).delivered_advance hrt hzero _ _ _
  | mergeLoad addr k merge =>
    obtain ⟨⟨m₂, v⟩, hread, hnext⟩ := Option.bind_eq_some_iff.mp hnext
    obtain ⟨rfl, -⟩ := Prod.mk.inj (Option.some.inj hnext)
    exact (h₁.of_registers (resident_readMem hread).1).delivered_advance hrt hzero _ _ _
  | store addr size x =>
    obtain ⟨m₂, hstore, hnext⟩ := Option.bind_eq_some_iff.mp hnext
    obtain ⟨rfl, -⟩ := Prod.mk.inj (Option.some.inj hnext)
    exact (h₁.of_registers (resident_writeMem hstore).1).delivered_advance hrt hzero _ _ _
  | mergeStore addr k merge =>
    obtain ⟨⟨m₂, v⟩, hread, hnext⟩ := Option.bind_eq_some_iff.mp hnext
    obtain ⟨m₃, hstore, hnext⟩ := Option.bind_eq_some_iff.mp hnext
    obtain ⟨rfl, -⟩ := Prod.mk.inj (Option.some.inj hnext)
    exact ((h₁.of_registers (resident_readMem hread).1).of_registers
      (resident_writeMem hstore).1).delivered_advance hrt hzero _ _ _
  | raise which badVAddr =>
    obtain ⟨rfl, -⟩ := Prod.mk.inj (Option.some.inj hnext)
    exact (h₁.of_update (.inr rfl) badVAddr).delivered_commit hrt hzero
  | undefined => cases hnext

end Pending

/-! ## Runs of stores -/

/-- What a store instruction stores. -/
structure ByteStore where
  addr : Word
  size : Nat
  value : Word

def storeOf (i : Instruction) (r : Nat → Word) : Option ByteStore :=
  match i.opCode with
  | .sb => some ⟨r i.rs + i.extra, 1, r i.rt⟩
  | .sh => some ⟨r i.rs + i.extra, 2, r i.rt⟩
  | .sw => some ⟨r i.rs + i.extra, 4, r i.rt⟩
  | _ => none

namespace ByteStore

def apply (mem : ByteMemory 32) (s : ByteStore) : ByteMemory 32 := mem.overlay s.addr s.size s.value.toNat

def Covers (s : ByteStore) (a : Word) : Prop := (a - s.addr).toNat < s.size

def Spares (s : ByteStore) (pc : Word) : Prop := ∀ i < 4, ¬ s.Covers (pc + BitVec.ofNat 32 i)

instance (s : ByteStore) (a : Word) : Decidable (s.Covers a) := inferInstanceAs (Decidable (_ < _))

instance (s : ByteStore) (pc : Word) : Decidable (s.Spares pc) :=
  inferInstanceAs (Decidable (∀ i < 4, ¬ s.Covers (pc + BitVec.ofNat 32 i)))

end ByteStore

private theorem storeOf_eq_some {i : Instruction} {r : Nat → Word} {s : ByteStore}
    (h : storeOf i r = some s) :
    execute i r = .store s.addr s.size s.value ∧ (s.size = 1 ∨ s.size = 2 ∨ s.size = 4) := by
  obtain ⟨opCode, rs, rt, rd, extra⟩ := i
  cases opCode <;> simp only [storeOf, reduceCtorEq] at h <;> cases h
  · exact ⟨rfl, .inl rfl⟩
  · exact ⟨rfl, .inr (.inl rfl)⟩
  · exact ⟨rfl, .inr (.inr rfl)⟩

/-- With the registers `r` the machine is about to execute an aligned store to a resident and
writable page. -/
structure StoreReady (m : Vm) (r : Nat → Word) (s : ByteStore) : Prop where
  fetchable : m.Fetchable (r pcReg)
  store : storeOf (m.instructionAt (r pcReg)) r = some s
  aligned : Aligned s.addr s.size
  resident : m.Present s.addr
  writable : m.Writable s.addr

theorem instructionAt_congr {pc : Word}
    (h : ∀ i < 4, m'.user (pc + BitVec.ofNat 32 i) = m.user (pc + BitVec.ofNat 32 i)) :
    m'.instructionAt pc = m.instructionAt pc := by
  rw [instructionAt, instructionAt, ByteMemory.compose_congr h]

private theorem instructionAt_store {s : ByteStore} {pc : Word} (huser : m'.user = s.apply m.user)
    (h : s.Spares pc) : m'.instructionAt pc = m.instructionAt pc := by
  apply instructionAt_congr
  intro i hi
  rw [huser]
  exact ByteMemory.overlay_of_notMem _ (h i hi)

theorem StoreReady.kept {r : Nat → Word} {s : ByteStore} (h : m.StoreReady r s)
    (hpages : SamePages m m') (hsame : m'.instructionAt (r pcReg) = m.instructionAt (r pcReg)) :
    m'.StoreReady r s := by
  constructor
  case fetchable => exact ⟨h.fetchable.aligned, hpages.resident.mpr h.fetchable.resident⟩
  case store =>
    rw [hsame]
    exact h.store
  case aligned => exact h.aligned
  case resident => exact hpages.resident.mpr h.resident
  case writable => exact hpages.isWritable.mpr h.writable

theorem StoreReady.step {r : Nat → Word} {s : ByteStore} (h : m.StoreReady r s)
    (hsep : m.Separate) :
    ∃ m', (m.withRegisters r).instruction (fun _ => Vm.resident false) = some (m', none) ∧
      SamePages m m' ∧ m'.user = s.apply m.user := by
  obtain ⟨hexec, hs⟩ := storeOf_eq_some h.store
  have hfetch : (m.withRegisters r).Fetchable ((m.withRegisters r).registers pcReg) :=
    ⟨h.fetchable.aligned, h.fetchable.resident⟩
  obtain ⟨m₁, hpages₁, huser₁, -, hinstr⟩ := hfetch.instruction_eq
  have hpages : SamePages m m₁ := (withRegisters_samePages m r).trans hpages₁
  obtain ⟨m₂, hwrite, hpages₂, huser₂, -⟩ := writeMem_user (hpages.separate hsep)
    (hpages.resident.mpr h.resident) (hpages.isWritable.mpr h.writable) h.aligned hs s.value
  have hexec' : execute ((m.withRegisters r).instructionAt ((m.withRegisters r).registers pcReg))
      (m.withRegisters r).registers = .store s.addr s.size s.value := hexec
  refine ⟨m₂.advance 0 0 (r nextPCReg + 4), ?_,
    (hpages.trans hpages₂).trans (advance_samePages m₂ _ _ _), ?_⟩
  · rw [hinstr, hexec']
    simp only [carryOut, hwrite, Option.bind_eq_bind, Option.bind_some]
    rfl
  · rw [advance_user, huser₂, huser₁]
    rfl

/-- `OneInstruction` again and again, each time with the registers the program has brought about
in between. -/
def runWith (vir : Int) (m : Vm) : List (Nat → Word) → Option Vm
  | [] => some m
  | r :: rs =>
    match (m.withRegisters r).oneInstruction vir with
    | some (m₁, none) => runWith vir m₁ rs
    | _ => none

private theorem runWith_stores (hsep : m.Separate) (stores : List ((Nat → Word) × ByteStore))
    (hready : ∀ x ∈ stores, m.StoreReady x.1 x.2)
    (hspare : ∀ x ∈ stores, ∀ y ∈ stores, x.2.Spares (y.1 pcReg)) (vir : Int) :
    ∃ m', runWith vir m (stores.map Prod.fst) = some m' ∧ SamePages m m' ∧
      m'.user = (stores.map Prod.snd).foldl ByteStore.apply m.user := by
  induction stores generalizing m with
  | nil => exact ⟨m, rfl, .refl m, rfl⟩
  | cons x stores ih =>
    obtain ⟨m₁, hstep, hpages, huser⟩ := (hready x List.mem_cons_self).step hsep
    have hready₁ : ∀ y ∈ stores, m₁.StoreReady y.1 y.2 := by
      intro y hy
      apply (hready y (List.mem_cons_of_mem x hy)).kept hpages
      exact instructionAt_store huser
        (hspare x List.mem_cons_self y (List.mem_cons_of_mem x hy))
    obtain ⟨m', hrun, hpages', huser'⟩ := ih (hpages.separate hsep) hready₁
      (fun y hy z hz => hspare y (List.mem_cons_of_mem x hy) z (List.mem_cons_of_mem x hz))
    refine ⟨m', ?_, hpages.trans hpages', ?_⟩
    · rw [List.map_cons, runWith, oneInstruction_of_resident vir hstep]
      exact hrun
    · rw [huser', huser, List.map_cons, List.foldl_cons]

/-! ## Loads -/

private theorem toNat_and_one (x : Word) : (x &&& 1).toNat = x.toNat % 2 := by
  rw [BitVec.toNat_and]
  exact Nat.and_two_pow_sub_one_eq_mod x.toNat 1

theorem toNat_and_three (x : Word) : (x &&& 3).toNat = x.toNat % 4 := by
  rw [BitVec.toNat_and]
  exact Nat.and_two_pow_sub_one_eq_mod x.toNat 2

private theorem signExtend_byte (b : BitVec 8) :
    (if b.signExtend 32 &&& 0x80 ≠ 0 then b.signExtend 32 ||| 0xffffff00
      else b.signExtend 32 &&& 0xff) = b.signExtend 32 := by
  revert b
  decide +kernel

private theorem zeroExtend_byte (b : BitVec 8) : b.signExtend 32 &&& 0xff = b.setWidth 32 := by
  revert b
  decide +kernel

private theorem zeroExtend_half (h : BitVec 16) : h.setWidth 32 &&& 0xffff = h.setWidth 32 := by
  apply BitVec.eq_of_toNat_eq
  have hlt := h.isLt
  rw [BitVec.toNat_and, BitVec.toNat_setWidth]
  show h.toNat % 2 ^ 32 &&& (2 ^ 16 - 1) = _
  rw [Nat.and_two_pow_sub_one_eq_mod]
  omega

private theorem half_sign (h : BitVec 16) : h.setWidth 32 &&& 0x8000 ≠ 0 ↔ h.msb = true := by
  have hlt := h.isLt
  rw [BitVec.toNat_ne, BitVec.toNat_and, BitVec.toNat_setWidth, BitVec.msb_eq_decide]
  show h.toNat % 2 ^ 32 &&& 2 ^ 15 ≠ 0 ↔ _
  rw [Nat.and_two_pow, Nat.mod_eq_of_lt (by omega), decide_eq_true_eq, Nat.toNat_testBit]
  omega

private theorem signExtend_half (h : BitVec 16) :
    (if h.setWidth 32 &&& 0x8000 ≠ 0 then h.setWidth 32 ||| 0xffff0000
      else h.setWidth 32 &&& 0xffff) = h.signExtend 32 := by
  have hlt := h.isLt
  by_cases hm : h.msb = true
  · rw [if_pos ((half_sign h).mpr hm)]
    apply BitVec.eq_of_toNat_eq
    rw [BitVec.toNat_or, BitVec.toNat_signExtend, hm, BitVec.toNat_setWidth, Nat.or_comm]
    show 0xffff <<< 16 ||| h.toNat % 2 ^ 32 = _
    rw [← Nat.shiftLeft_add_eq_or_of_lt (by omega), Nat.shiftLeft_eq, if_pos rfl]
    omega
  · rw [if_neg (mt (half_sign h).mp hm), zeroExtend_half,
      BitVec.signExtend_eq_setWidth_of_msb_false]
    simpa using hm

structure ByteLoad where
  opCode : OpCode
  addr : Word
  rt : Nat

def loadOf (i : Instruction) (r : Nat → Word) : Option ByteLoad :=
  match i.opCode with
  | .lb | .lbu | .lh | .lhu | .lw => some ⟨i.opCode, r i.rs + i.extra, i.rt⟩
  | _ => none

namespace ByteLoad

def bytes (l : ByteLoad) : Nat :=
  match l.opCode with
  | .lb | .lbu => 1
  | .lh | .lhu => 2
  | _ => 4

/-- The value on a byte memory: the bytes composed, and extended to a word. -/
def value (l : ByteLoad) (mem : ByteMemory 32) : Word :=
  match l.opCode with
  | .lb => (BitVec.ofNat 8 (mem.compose l.addr 1)).signExtend 32
  | .lbu => (BitVec.ofNat 8 (mem.compose l.addr 1)).setWidth 32
  | .lh => (BitVec.ofNat 16 (mem.compose l.addr 2)).signExtend 32
  | .lhu => (BitVec.ofNat 16 (mem.compose l.addr 2)).setWidth 32
  | _ => BitVec.ofNat 32 (mem.compose l.addr 4)

private theorem bytes_cases (l : ByteLoad) : l.bytes = 1 ∨ l.bytes = 2 ∨ l.bytes = 4 := by
  rw [bytes]
  split
  · exact .inl rfl
  · exact .inl rfl
  · exact .inr (.inl rfl)
  · exact .inr (.inl rfl)
  · exact .inr (.inr rfl)

end ByteLoad

private theorem loadOf_eq_some {i : Instruction} {r : Nat → Word} {l : ByteLoad}
    (h : loadOf i r = some l) (hal : Aligned l.addr l.bytes) :
    ∃ extend, execute i r = .load l.addr l.bytes l.rt extend ∧
      ∀ mem, extend (userValue mem l.addr l.bytes) = l.value mem := by
  obtain ⟨opCode, rs, rt, rd, extra⟩ := i
  have htwo : ∀ x : Word, Aligned x 2 → ¬ x &&& 1 ≠ 0 := by
    intro x hx
    rw [BitVec.toNat_ne, toNat_and_one]
    unfold Aligned at hx
    show ¬ x.toNat % 2 ≠ 0
    omega
  have hfour : ∀ x : Word, Aligned x 4 → ¬ x &&& 3 ≠ 0 := by
    intro x hx
    rw [BitVec.toNat_ne, toNat_and_three]
    unfold Aligned at hx
    show ¬ x.toNat % 4 ≠ 0
    omega
  cases opCode <;> simp only [loadOf, reduceCtorEq] at h <;> cases h
  case lb => exact ⟨_, rfl, fun mem => signExtend_byte _⟩
  case lbu => exact ⟨_, rfl, fun mem => zeroExtend_byte _⟩
  case lh => exact ⟨_, if_neg (htwo _ hal), fun mem => signExtend_half _⟩
  case lhu => exact ⟨_, if_neg (htwo _ hal), fun mem => zeroExtend_half _⟩
  case lw => exact ⟨_, if_neg (hfour _ hal), fun mem => rfl⟩

/-- With the registers `r` the machine is about to execute an aligned load from a resident page. -/
structure LoadReady (m : Vm) (r : Nat → Word) (l : ByteLoad) : Prop where
  fetchable : m.Fetchable (r pcReg)
  load : loadOf (m.instructionAt (r pcReg)) r = some l
  aligned : Aligned l.addr l.bytes
  resident : m.Present l.addr

theorem LoadReady.kept {r : Nat → Word} {l : ByteLoad} (h : m.LoadReady r l)
    (hpages : SamePages m m') (hsame : m'.instructionAt (r pcReg) = m.instructionAt (r pcReg)) :
    m'.LoadReady r l := by
  constructor
  case fetchable => exact ⟨h.fetchable.aligned, hpages.resident.mpr h.fetchable.resident⟩
  case load =>
    rw [hsame]
    exact h.load
  case aligned => exact h.aligned
  case resident => exact hpages.resident.mpr h.resident

theorem LoadReady.step {r : Nat → Word} {l : ByteLoad} (h : m.LoadReady r l) :
    ∃ m', (m.withRegisters r).instruction (fun _ => Vm.resident false) = some (m', none) ∧
      SamePages m m' ∧ m'.user = m.user ∧ m'.Pending l.rt (l.value m.user) := by
  obtain ⟨extend, hexec, hvalue⟩ := loadOf_eq_some h.load h.aligned
  have hfetch : (m.withRegisters r).Fetchable ((m.withRegisters r).registers pcReg) :=
    ⟨h.fetchable.aligned, h.fetchable.resident⟩
  obtain ⟨m₁, hpages₁, huser₁, -, hinstr⟩ := hfetch.instruction_eq
  have hpages : SamePages m m₁ := (withRegisters_samePages m r).trans hpages₁
  obtain ⟨m₂, hread, hpages₂, hmem₂, -⟩ :=
    readMem_user (hpages.resident.mpr h.resident) h.aligned l.bytes_cases
  have hexec' : execute ((m.withRegisters r).instructionAt ((m.withRegisters r).registers pcReg))
      (m.withRegisters r).registers = .load l.addr l.bytes l.rt extend := hexec
  have huser : m₁.user = m.user := huser₁
  rw [huser] at hread
  refine ⟨m₂.advance l.rt (l.value m.user) (r nextPCReg + 4), ?_,
    (hpages.trans hpages₂).trans (advance_samePages m₂ _ _ _), ?_, pending_advance _ _ _ _⟩
  · rw [hinstr, hexec']
    simp only [carryOut, hread, Option.bind_eq_bind, Option.bind_some, hvalue]
    rfl
  · rw [advance_user, hpages₂.user_eq hmem₂, huser]

private theorem foldl_apply_of_notMem {stores : List ByteStore} {mem : ByteMemory 32} {a : Word}
    (h : ∀ s ∈ stores, ¬ s.Covers a) : stores.foldl ByteStore.apply mem a = mem a := by
  induction stores generalizing mem with
  | nil => rfl
  | cons s stores ih =>
    rw [List.foldl_cons, ih fun s' hs' => h s' (List.mem_cons_of_mem s hs')]
    exact ByteMemory.overlay_of_notMem _ (h s List.mem_cons_self)

private theorem loadOf_rt_lt {pc : Word} {r : Nat → Word} {l : ByteLoad}
    (h : loadOf (m.instructionAt pc) r = some l) : l.rt < 32 := by
  have hlt := (decode_fields (BitVec.ofNat 32 (m.user.compose pc 4))).2.1
  rw [loadOf] at h
  split at h <;> cases h <;> exact hlt

theorem Pending.delivered_all {rt : Nat} {value : Word} (h : m.Pending rt value) (hrt : rt < 32)
    (hzero : rt ≠ 0) (vir : Int) : m.drain.registers rt = value ∧
      ∀ m₁ e, m.instruction (fun _ => Vm.resident false) = some (m₁, e) →
        m.oneInstruction vir = some (m₁, e) ∧ m₁.registers rt = value :=
  ⟨h.delivered_commit hrt hzero, fun _ _ hnext =>
    ⟨oneInstruction_of_resident vir hnext, h.delivered hrt hzero hnext⟩⟩

/-- A load after any stores sees the bytes that were stored last, and no other byte has changed. -/
theorem loads_see_stores {m : Vm} (hsep : m.Separate) (stores : List ((Nat → Word) × ByteStore))
    (hstores : ∀ x ∈ stores, m.StoreReady x.1 x.2) {r : Nat → Word} {l : ByteLoad}
    (hload : m.LoadReady r l)
    (hspare : ∀ x ∈ stores, ∀ pc ∈ r pcReg :: stores.map fun y => y.1 pcReg, x.2.Spares pc)
    (vir : Int) :
    ∃ m₁ m₂, runWith vir m (stores.map Prod.fst) = some m₁ ∧ SamePages m m₁ ∧
      m₁.user = (stores.map Prod.snd).foldl ByteStore.apply m.user ∧
      (∀ a, (∀ x ∈ stores, ¬ x.2.Covers a) → m₁.user a = m.user a) ∧
      (m₁.withRegisters r).oneInstruction vir = some (m₂, none) ∧ SamePages m m₂ ∧
      m₂.user = m₁.user ∧ m₂.Pending l.rt (l.value m₁.user) ∧
      (l.rt ≠ 0 → m₂.drain.registers l.rt = l.value m₁.user ∧
        ∀ m₃ e, m₂.instruction (fun _ => Vm.resident false) = some (m₃, e) →
          m₂.oneInstruction vir = some (m₃, e) ∧ m₃.registers l.rt = l.value m₁.user) := by
  have hcode : ∀ x ∈ stores, ∀ y ∈ stores, x.2.Spares (y.1 pcReg) := by
    intro x hx y hy
    exact hspare x hx _ (List.mem_cons_of_mem _ (List.mem_map_of_mem hy))
  obtain ⟨m₁, hrun, hpages, huser⟩ := runWith_stores hsep stores hstores hcode vir
  have hother : ∀ a, (∀ x ∈ stores, ¬ x.2.Covers a) → m₁.user a = m.user a := by
    intro a ha
    rw [huser]
    apply foldl_apply_of_notMem
    intro s hs
    obtain ⟨x, hx, rfl⟩ := List.mem_map.mp hs
    exact ha x hx
  have hkept : m₁.instructionAt (r pcReg) = m.instructionAt (r pcReg) := by
    apply instructionAt_congr
    intro i hi
    exact hother _ fun x hx => hspare x hx _ List.mem_cons_self i hi
  obtain ⟨m₂, hstep, hpages₂, huser₂, hpending⟩ := (hload.kept hpages hkept).step
  refine ⟨m₁, m₂, hrun, hpages, huser, hother, oneInstruction_of_resident vir hstep,
    hpages.trans hpages₂, huser₂, hpending, ?_⟩
  intro hzero
  exact hpending.delivered_all (loadOf_rt_lt hload.load) hzero vir

/-- A machine with the program `sw $2, 64($0); sb $3, 65($0); lh $4, 64($0)`. -/
def storeProgram : Vm :=
  let bytes : List Byte := [0x40, 0, 0x02, 0xac, 0x41, 0, 0x03, 0xa0, 0x40, 0, 0x04, 0x84]
  { loadProgram with mainMemory := fun a => bytes.getD a 0 }

/-- Its registers before the instruction at `pc`. -/
def storeRegisters (pc : Word) : Nat → Word := fun k =>
  if k = 2 then 0x11223344 else if k = 3 then 0x80
  else if k = pcReg then pc else if k = nextPCReg then pc + 4 else 0

theorem loads_see_stores_half : ∃ m₁ m₂,
    runWith 0 storeProgram [storeRegisters 0, storeRegisters 4] = some m₁ ∧
      (m₁.withRegisters (storeRegisters 8)).oneInstruction 0 = some (m₂, none) ∧
      m₂.drain.registers 4 = 0xffff8044 := by
  have hpage : ∀ v p, storeProgram.userFrame v = some p → v = 0 := by
    intro v p h
    obtain ⟨-, -, hv, -⟩ := userFrame_eq_some.mp h
    exact Nat.lt_one_iff.mp hv
  have hsep : storeProgram.Separate := by
    intro v v' p h h'
    rw [hpage v p h, hpage v' p h']
  have hsw : storeProgram.StoreReady (storeRegisters 0) ⟨64, 4, 0x11223344⟩ :=
    ⟨⟨by decide, by decide⟩, rfl, by decide, by decide, by decide⟩
  have hsb : storeProgram.StoreReady (storeRegisters 4) ⟨65, 1, 0x80⟩ :=
    ⟨⟨by decide, by decide⟩, rfl, by decide, by decide, by decide⟩
  have hlh : storeProgram.LoadReady (storeRegisters 8) ⟨.lh, 64, 4⟩ :=
    ⟨⟨by decide, by decide⟩, rfl, by decide, by decide⟩
  have hstores : ∀ x ∈ [(storeRegisters 0, ByteStore.mk 64 4 0x11223344),
      (storeRegisters 4, ByteStore.mk 65 1 0x80)], storeProgram.StoreReady x.1 x.2 :=
    List.forall_mem_cons.mpr ⟨hsw, List.forall_mem_singleton.mpr hsb⟩
  have hpcs : ∀ s : ByteStore, s.Spares 8 → s.Spares 0 → s.Spares 4 →
      ∀ pc ∈ ([8, 0, 4] : List Word), s.Spares pc := fun s h₈ h₀ h₄ =>
    List.forall_mem_cons.mpr ⟨h₈, List.forall_mem_cons.mpr ⟨h₀, List.forall_mem_singleton.mpr h₄⟩⟩
  have hsw' := hpcs ⟨64, 4, 0x11223344⟩ (by decide) (by decide) (by decide)
  have hsb' := hpcs ⟨65, 1, 0x80⟩ (by decide) (by decide) (by decide)
  obtain ⟨m₁, m₂, hrun, -, huser, -, hstep, -, -, -, hdelivered⟩ :=
    loads_see_stores hsep _ hstores hlh
      (List.forall_mem_cons.mpr ⟨hsw', List.forall_mem_singleton.mpr hsb'⟩) 0
  refine ⟨m₁, m₂, hrun, hstep, ?_⟩
  rw [(hdelivered (by decide)).1, huser]
  rfl

end Vm
end Nachos

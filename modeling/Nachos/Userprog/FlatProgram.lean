import Nachos.Userprog.Transparency
import Nachos.Machine.LoadDelay

/-!
# A program alone and on the paged machine

A program has registers and a memory that lies at its own addresses. It runs the instructions of
the simulated machine, but its accesses go to that memory at once. On the paged machine the same
instruction may fault up to three times, and every fault finishes the pending load; as long as
the instruction leaves the register of that load alone the two end in the same place.
-/

namespace Nachos

open Framework

/-! ## The specification -/

/-- A program that has a machine for itself. -/
structure Program where
  registers : Nat → Word
  memory : Nat → Byte
  numPages : Nat

/-- Accesses to `numPages` pages that lie at their own addresses. -/
def flatMemory (numPages : Nat) : MemoryAccess where
  readMem m addr size :=
    if Vm.Aligned addr size ∧ addr.toNat / pageSize < numPages then
      (fetch m.mainMemory size addr.toNat).map fun value => (m, value)
    else none
  writeMem m addr size value :=
    if Vm.Aligned addr size ∧ addr.toNat / pageSize < numPages then
      (store m.mainMemory size addr.toNat value).map fun memory => { m with mainMemory := memory }
    else none

namespace Program

/-- The machine of the program. It has no page table. -/
def machine (p : Program) : Vm :=
  { Vm.new (fun _ => none) with registers := p.registers, mainMemory := p.memory }

def withMachine (p : Program) (m : Vm) : Program :=
  { p with registers := m.registers, memory := m.mainMemory }

/-- `OneInstruction` on the machine of the program. -/
def instruction (p : Program) : Option (Vm × Option ExceptionType) :=
  p.machine.instruction fun _ => flatMemory p.numPages

def fetched (p : Program) : Option Instruction :=
  ((flatMemory p.numPages).readMem p.machine (p.registers pcReg) 4).map fun r => decode r.2

end Program

/-! ## Faults of an instruction that are harmless -/

def Effect.address : Effect → Option Word
  | .load addr _ _ _ | .mergeLoad addr _ _ | .store addr _ _ | .mergeStore addr _ _ => some addr
  | _ => none

/-- The fetch and the access to the data cause no page fault, or a harmless one. -/
structure Vm.BenignInstruction (m : Vm) (vir : Int) : Prop where
  fetch : m.Benign (.read (m.registers pcReg) 4 vir)
  data : ∀ m₁ raw, m.readMem (m.registers pcReg) 4 vir = some (m₁, raw) →
    ∀ addr ∈ (execute (decode raw) m₁.registers).address, m₁.Benign (.read addr 4 vir)

/-! ## The registers a program can tell apart -/

/-- The registers up to `LoadValueReg`. Those behind are set by page faults. -/
def visible (r : Nat → Word) (k : Nat) : Word := if k < badVAddrReg then r k else 0

theorem visible_apply (r : Nat → Word) {k : Nat} (hk : k < badVAddrReg) : visible r k = r k :=
  if_pos hk

theorem visible_below (r : Nat → Word) {k : Nat} (hk : k < loadReg) : visible r k = r k :=
  visible_apply r (Nat.lt_trans hk (by decide))

theorem visible_update (r : Nat → Word) {k : Nat} (hk : k < badVAddrReg) (x : Word) :
    visible (Function.update r k x) = Function.update (visible r) k x := by
  funext j
  simp only [visible, Function.update_apply]
  by_cases hj : j = k
  · rw [if_pos hj, if_pos hj, hj, if_pos hk]
  · rw [if_neg hj, if_neg hj]

private theorem visible_update_hidden (r : Nat → Word) {k : Nat} (hk : ¬ k < badVAddrReg)
    (x : Word) :
    visible (Function.update r k x) = visible r := by
  funext j
  by_cases hj : j < badVAddrReg
  · have hne : j ≠ k := by
      rintro rfl
      exact hk hj
    rw [visible_apply _ hj, visible_apply _ hj, Function.update_of_ne hne]
  · rw [visible, visible, if_neg hj, if_neg hj]

private theorem visible_delayedLoad {r : Nat → Word} (h : (r loadReg).toNat < 32)
    (nextReg nextValue : Word) :
    visible (Vm.delayedLoad r nextReg nextValue) = Vm.delayedLoad (visible r) nextReg nextValue := by
  have hlt : (r loadReg).toNat < badVAddrReg := Nat.lt_trans h (by decide)
  simp only [Vm.delayedLoad]
  rw [visible_update _ (by decide), visible_update _ (by decide), visible_update _ (by decide),
    visible_update _ hlt]
  rfl

theorem visible_commit {r : Nat → Word} (h : (r loadReg).toNat < 32) :
    visible (commit r) = commit (visible r) := visible_delayedLoad h 0 0

theorem WellFormed.visible {r : Nat → Word} (h : WellFormed r) : WellFormed (visible r) :=
  ⟨h.zero, h.pending⟩

namespace Vm

variable {m : Vm}

private theorem visible_raiseException (h : (m.registers loadReg).toNat < 32) (badVAddr : Word) :
    visible (m.raiseException badVAddr).registers = commit (visible m.registers) := by
  have hload : (Function.update m.registers badVAddrReg badVAddr loadReg).toNat < 32 := by
    rw [Function.update_of_ne (by decide)]
    exact h
  show visible (commit (Function.update m.registers badVAddrReg badVAddr)) = _
  rw [visible_commit hload, visible_update_hidden _ (by decide)]

private theorem visible_advance (h : (m.registers loadReg).toNat < 32) (nextLoadReg : Nat)
    (nextLoadValue pcAfter : Word) :
    visible (m.advance nextLoadReg nextLoadValue pcAfter).registers =
      ((m.withRegisters (visible m.registers)).advance nextLoadReg nextLoadValue
        pcAfter).registers := by
  have hbelow : ∀ k < badVAddrReg, visible (delayedLoad m.registers nextLoadReg nextLoadValue) k =
      delayedLoad m.registers nextLoadReg nextLoadValue k := fun k hk => visible_apply _ hk
  simp only [advance, withRegisters_registers]
  rw [visible_update _ (by decide), visible_update _ (by decide), visible_update _ (by decide),
    ← visible_delayedLoad h]
  simp only [hbelow pcReg (by decide), Function.update_apply, hbelow nextPCReg (by decide)]

private theorem mergeOperand_visible (r : Nat → Word) {rt : Nat} (hrt : rt < 32) :
    mergeOperand (visible r) rt = mergeOperand r rt := by
  have hrt' : visible r rt = r rt := visible_apply r (Nat.lt_trans hrt (by decide))
  simp only [mergeOperand, hrt', visible_apply r (show loadReg < badVAddrReg by decide),
    visible_apply r (show loadValueReg < badVAddrReg by decide)]

/-! ## Accesses keep the address spaces -/

/-- The same address spaces and the same one on the machine. -/
structure SameSpaces (m m' : Vm) : Prop where
  pageTable : m'.pageTable = m.pageTable
  pageTableSize : m'.pageTableSize = m.pageTableSize
  fileAddr : m'.fileAddr = m.fileAddr
  spaces : m'.spaces = m.spaces

theorem SameSpaces.refl (m : Vm) : SameSpaces m m := ⟨rfl, rfl, rfl, rfl⟩

theorem SameSpaces.trans {m' m'' : Vm} (h : SameSpaces m m') (h' : SameSpaces m' m'') :
    SameSpaces m m'' :=
  ⟨h'.pageTable.trans h.pageTable, h'.pageTableSize.trans h.pageTableSize,
    h'.fileAddr.trans h.fileAddr, h'.spaces.trans h.spaces⟩

private theorem Inv.access_sameSpaces (h : m.Inv) {m' : Vm} {addr : Word} {size physAddr : Nat}
    {writing : Bool} {vir : Int} (hacc : m.access addr size writing vir = some (m', physAddr)) :
    SameSpaces m m' := by
  have hend : ∀ m₁ : Vm, SameSpaces m m₁ →
      m₁.translate addr size writing = some (m', .ok physAddr) → SameSpaces m m' := by
    intro m₁ hsame htr
    obtain ⟨t, phy, -, -, -, -, -, rfl⟩ := translate_ok htr
    exact ⟨hsame.pageTable, hsame.pageTableSize, hsame.fileAddr, hsame.spaces⟩
  obtain ⟨m₁, rfl | ⟨hfirst, hfault⟩, hlast⟩ := access_cases hacc
  · exact hend _ (.refl m₁) hlast
  · obtain ⟨t, ref, w, input, -, -, -, -, -, -, rfl⟩ := h.fault_cases hfirst hfault
    refine hend _ ?_ hlast
    exact ⟨rfl, rfl, rfl, rfl⟩

end Vm

namespace Paged

variable {s : Paged}

private theorem Inv.access_succeeds (h : s.Inv) {t : Nat} (hpt : s.vm.pageTable = some t)
    {addr : Word} {size : Nat} {vir : Int} (hs : size = 1 ∨ size = 2 ∨ size = 4)
    (hal : Vm.Aligned addr size) (hin : addr.toNat / pageSize < s.vm.pageTableSize)
    (hben : s.vm.Benign (.read addr size vir)) (writing : Bool) :
    ∃ m' physAddr, s.vm.access addr size writing vir = some (m', physAddr) := by
  have ht := h.vm.current_lt hpt
  cases hf : s.vm.frame (t, addr.toNat / pageSize) with
  | some phy => exact ⟨_, _, h.vm.access_resident hpt hin hal hs hf writing vir⟩
  | none =>
    obtain ⟨-, ref, w, hown⟩ := h.vm.victim_owner (Nat.zero_lt_of_lt ht)
    have hharm := hben t ref w hpt hf hown
    obtain ⟨input, hinput⟩ := Option.isSome_iff_exists.mp
      (Vm.writeBack_isSome ref w (h.vm.entry t ht 0 (by decide)).file)
    have hpos : ∀ i < pageSize, ∀ p, reloadOffset s.vm.fileAddr
        (addr.toNat / pageSize * pageSize + i : Nat) = some p → 0 ≤ p := by
      intro i hi p hp
      rw [h.vm.fileAddr_current hpt] at hp
      exact Vm.position_nonneg (hharm.backed i hi) hp
    exact ⟨_, _, h.vm.access_afterFault hpt hin hal hs hf hown hinput hpos writing vir⟩

/-- The paged machine runs the program `n` in space `t`. -/
structure Runs (s : Paged) (t numPages : Nat) (n : Vm) : Prop where
  inv : s.Inv
  current : s.vm.pageTable = some t
  pages : s.vm.pageTableSize = numPages
  memory : s.flat t = n.mainMemory
  registers : Drained (visible n.registers) (visible s.vm.registers)

variable {t numPages : Nat} {n n' : Vm} {vir : Int}

private theorem size_of_fetch {memory : Nat → Byte} {size physAddr : Nat} {value : Word}
    (h : fetch memory size physAddr = some value) : size = 1 ∨ size = 2 ∨ size = 4 := by
  obtain ⟨-, -, hs⟩ := fetch_isSome memory physAddr h
  exact hs

private theorem size_of_store {memory memory' : Nat → Byte} {size physAddr : Nat} {value : Word}
    (h : store memory size physAddr value = some memory') : size = 1 ∨ size = 2 ∨ size = 4 := by
  obtain ⟨-, -, hs⟩ := store_isSome memory physAddr value h
  exact hs

/-- An access keeps the program running: its registers are as before, or with the pending load
finished. -/
theorem Runs.access (h : s.Runs t numPages n) {addr : Word} {size : Nat} (writing : Bool)
    (hs : size = 1 ∨ size = 2 ∨ size = 4) (hal : Vm.Aligned addr size)
    (hin : addr.toNat / pageSize < numPages) (hben : s.vm.Benign (.read addr size vir)) :
    ∃ m₁ phy, s.vm.access addr size writing vir =
        some (m₁.touch t (addr.toNat / pageSize) phy writing,
          phy * pageSize + addr.toNat % pageSize) ∧
      Inv { vm := m₁, flat := s.flat } ∧ t < m₁.nextTable ∧
      m₁.frame (t, addr.toNat / pageSize) = some phy ∧ s.vm.SameSpaces m₁ ∧
      Drained (visible n.registers) (visible m₁.registers) := by
  rw [← h.pages] at hin
  obtain ⟨m', physAddr, hacc⟩ := h.inv.access_succeeds h.current hs hal hin hben writing
  have hsame := h.inv.vm.access_sameSpaces hacc
  have hregisters := Vm.access_registers hacc
  obtain ⟨m₁, t', phy, hpt, hinv, ht, hf, -, rfl, rfl⟩ := h.inv.access hacc hben
  obtain rfl : t' = t := Option.some.inj (hpt.symm.trans h.current)
  refine ⟨m₁, phy, hacc, hinv, ht, hf, ⟨hsame.pageTable, hsame.pageTableSize, hsame.fileAddr,
    hsame.spaces⟩, ?_⟩
  have hsame₁ : (m₁.touch t' (addr.toNat / pageSize) phy writing).registers = m₁.registers := rfl
  rw [hsame₁] at hregisters
  rcases hregisters with heq | heq
  · rw [heq]
    exact h.registers
  · rw [heq, Vm.visible_raiseException h.inv.vm.loadTarget]
    exact h.registers.drain

theorem Runs.readMem (h : s.Runs t numPages n) (vir : Int) {addr value : Word} {size : Nat}
    (hread : (flatMemory numPages).readMem n addr size = some (n', value))
    (hben : s.vm.Benign (.read addr size vir)) :
    n' = n ∧ ∃ m', s.vm.readMem addr size vir = some (m', value) ∧
      Runs { vm := m', flat := s.flat } t numPages n ∧ s.vm.SameSpaces m' ∧
      ∃ phy, m'.frame (t, addr.toNat / pageSize) = some phy := by
  simp only [flatMemory] at hread
  split at hread
  next hok =>
    obtain ⟨v, hfetch, heq⟩ := Option.map_eq_some_iff.mp hread
    obtain ⟨rfl, rfl⟩ := Prod.mk.inj heq
    have hs := size_of_fetch hfetch
    obtain ⟨m₁, phy, hacc, hinv, -, hf, hsame, hdrained⟩ :=
      h.access false hs hok.1 hok.2 hben
    have hvalue : fetch m₁.mainMemory size (phy * pageSize + addr.toNat % pageSize) = some v := by
      rw [hinv.fetch_resident hf hok.1 hs, ← hfetch, ← h.memory]
    refine ⟨rfl, m₁.touch t (addr.toNat / pageSize) phy false, ?_, ?_, ?_, phy, ?_⟩
    · rw [Vm.readMem_of_access hacc, Vm.touch_mainMemory, hvalue]
      rfl
    · exact ⟨hinv.touch t _ phy, hsame.pageTable.trans h.current,
        hsame.pageTableSize.trans h.pages, h.memory, hdrained⟩
    · exact ⟨hsame.pageTable, hsame.pageTableSize, hsame.fileAddr, hsame.spaces⟩
    · rw [Vm.frame_touch]
      exact hf
  next => contradiction

theorem Runs.writeMem (h : s.Runs t numPages n) (vir : Int) {addr value : Word} {size : Nat}
    (hwrite : (flatMemory numPages).writeMem n addr size value = some n')
    (hben : s.vm.Benign (.read addr size vir)) :
    n'.registers = n.registers ∧ ∃ m', s.vm.writeMem addr size value vir = some m' ∧
      Runs { vm := m', flat := Function.update s.flat t n'.mainMemory } t numPages n' ∧
      s.vm.SameSpaces m' := by
  simp only [flatMemory] at hwrite
  split at hwrite
  next hok =>
    obtain ⟨flat, hstore, rfl⟩ := Option.map_eq_some_iff.mp hwrite
    have hs := size_of_store hstore
    obtain ⟨m₁, phy, hacc, hinv, ht, hf, hsame, hdrained⟩ :=
      h.access true hs hok.1 hok.2 hben
    obtain ⟨memory, hmem, -⟩ := store_isSome
      (m₁.touch t (addr.toNat / pageSize) phy true).mainMemory
      (phy * pageSize + addr.toNat % pageSize) value hstore
    refine ⟨rfl, { m₁.touch t (addr.toNat / pageSize) phy true with mainMemory := memory },
      ?_, ?_, ?_⟩
    · rw [Vm.writeMem_of_access hacc, hmem]
      rfl
    · constructor
      · rw [← h.memory, ← Nat.div_add_mod' addr.toNat pageSize] at hstore
        exact hinv.store ht hf (hok.1.within hs) hmem hstore
      · exact hsame.pageTable.trans h.current
      · exact hsame.pageTableSize.trans h.pages
      · exact Function.update_self _ _ _
      · exact hdrained
    · exact ⟨hsame.pageTable, hsame.pageTableSize, hsame.fileAddr, hsame.spaces⟩
  next => contradiction

/-! ## One instruction -/

theorem Inv.withRegisters (h : s.Inv) {r : Nat → Word} (hr : (r loadReg).toNat < 32) :
    Inv { vm := s.vm.withRegisters r, flat := s.flat } :=
  ⟨h.vm.withRegisters hr, h.resident, h.stored⟩

theorem Runs.stored {m' : Vm} (h : Runs { vm := m', flat := s.flat } t numPages n') :
    Runs { vm := m', flat := Function.update s.flat t n'.mainMemory } t numPages n' := by
  have hsame : Function.update s.flat t n'.mainMemory = s.flat := by
    rw [← h.memory]
    exact Function.update_eq_self _ _
  rw [hsame]
  exact h

theorem Runs.finish (h : s.Runs t numPages n) {r q : Nat → Word}
    (hr : commit (visible r) = commit (visible q)) (hload : (r loadReg).toNat < 32)
    (hload' : (q loadReg).toNat < 32) {next : Nat} (hnext : next < 32) {v v' : Word}
    (hv : next = 0 ∨ v = v') (pcAfter : Word) :
    Runs { vm := (s.vm.withRegisters r).advance next v pcAfter, flat := s.flat } t numPages
      ((n.withRegisters q).advance next v' pcAfter) := by
  have hwf := Vm.wellFormed_advance (n.withRegisters q) hnext v' pcAfter
  constructor
  · exact h.inv.withRegisters (Vm.wellFormed_advance (s.vm.withRegisters r) hnext v pcAfter).pending
  · exact h.current
  · exact h.pages
  · exact h.memory
  · have hsame : visible ((s.vm.withRegisters r).advance next v pcAfter).registers =
        ((n.withRegisters (visible q)).advance next v pcAfter).registers := by
      have heq := congrArg Vm.registers (Vm.advance_congr (m := n) hr next v pcAfter)
      rw [Vm.visible_advance (by exact hload)]
      exact heq
    rw [hsame, Vm.visible_advance (by exact hload')]
    rcases hv with rfl | rfl
    · exact Vm.drained_advance_zero _ _ _ _
    · exact .refl (Vm.wellFormed_advance _ hnext _ _)

theorem Runs.carryOut (h : s.Runs t numPages n) {i : Instruction} {e : Effect} {pcAfter : Word}
    {raised : Option ExceptionType} (hwf : WellFormed n.registers)
    (hazard : NoHazard i n.registers) (hwithin : e.Within i) (hrt : i.rt < 32)
    (hbound : ∀ k ∈ i.reads ++ i.writes, k < loadReg)
    (hben : ∀ addr ∈ e.address, s.vm.Benign (.read addr 4 vir))
    (hflat : n.carryOut (fun _ => flatMemory numPages) pcAfter e = some (n', raised)) :
    ∃ m', s.vm.carryOut (fun _ => Vm.memory vir) pcAfter e = some (m', raised) ∧
      Runs { vm := m', flat := Function.update s.flat t n'.mainMemory } t numPages n' ∧
      WellFormed n'.registers ∧ s.vm.SameSpaces m' := by
  have hload := h.inv.vm.loadTarget
  -- a register the instruction writes
  have hwrite : ∀ k ∈ i.writes, ∀ x pc,
      Runs { vm := (s.vm.writeReg k x).advance 0 0 pc, flat := s.flat } t numPages
        ((n.writeReg k x).advance 0 0 pc) := by
    intro k hk x pc
    have hlt := hbound k (List.mem_append_right _ hk)
    have hlt' : k < badVAddrReg := Nat.lt_trans hlt (by decide)
    have hother : loadReg ≠ k := by omega
    apply h.finish (r := Function.update s.vm.registers k x)
      (q := Function.update n.registers k x) _ _ _ (by decide) (.inl rfl)
    · rw [visible_update _ hlt', visible_update _ hlt']
      exact h.registers.write hlt (hazard k (List.mem_append_right _ hk)) x
    · rw [Function.update_of_ne hother]
      exact hload
    · rw [Function.update_of_ne hother]
      exact hwf.pending
  cases e with
  | write r value =>
    obtain ⟨rfl, rfl⟩ := Prod.mk.inj (Option.some.inj hflat)
    exact ⟨_, rfl, (hwrite r hwithin value pcAfter).stored, Vm.wellFormed_advance _ (by decide) _ _,
      rfl, rfl, rfl, rfl⟩
  | hiLo hi lo =>
    obtain ⟨rfl, rfl⟩ := Prod.mk.inj (Option.some.inj hflat)
    refine ⟨_, rfl, ?_, Vm.wellFormed_advance _ (by decide) _ _, rfl, rfl, rfl, rfl⟩
    apply Runs.stored
    have hpending := hwf.pending
    have hlo := h.registers.update (k := loReg) (by decide) (by decide)
      (by rw [visible_apply _ (by decide)]; simp only [loReg]; omega) lo
    have hhi := hlo.update (k := hiReg) (by decide) (by decide)
      (by rw [Function.update_of_ne (by decide), visible_apply _ (by decide)]; simp only [hiReg]; omega)
      hi
    apply h.finish (r := Function.update (Function.update s.vm.registers loReg lo) hiReg hi)
      (q := Function.update (Function.update n.registers loReg lo) hiReg hi) _ _ _ (by decide)
      (.inl rfl)
    · rw [visible_update _ (by decide), visible_update _ (by decide), visible_update _ (by decide),
        visible_update _ (by decide)]
      exact hhi.committed
    · rw [Function.update_of_ne (by decide), Function.update_of_ne (by decide)]
      exact hload
    · rw [Function.update_of_ne (by decide), Function.update_of_ne (by decide)]
      exact hpending
  | jump pc =>
    obtain ⟨rfl, rfl⟩ := Prod.mk.inj (Option.some.inj hflat)
    exact ⟨_, rfl, (h.finish h.registers.committed hload hwf.pending (by decide) (.inl rfl) pc).stored,
      Vm.wellFormed_advance _ (by decide) _ _, rfl, rfl, rfl, rfl⟩
  | link r value pc =>
    obtain ⟨rfl, rfl⟩ := Prod.mk.inj (Option.some.inj hflat)
    exact ⟨_, rfl, (hwrite r hwithin value pc).stored, Vm.wellFormed_advance _ (by decide) _ _,
      rfl, rfl, rfl, rfl⟩
  | load addr size rt extend =>
    obtain ⟨⟨n₁, value⟩, hread, hflat⟩ := Option.bind_eq_some_iff.mp hflat
    obtain ⟨rfl, rfl⟩ := Prod.mk.inj (Option.some.inj hflat)
    obtain ⟨rfl, m₁, hpaged, h₁, hsame, -⟩ := h.readMem vir hread (hben addr rfl)
    have hrt' : rt < 32 := hwithin ▸ hrt
    have hpaged' : (Vm.memory vir).readMem s.vm addr size = some (m₁, value) := hpaged
    refine ⟨m₁.advance rt (extend value) pcAfter, ?_, ?_, Vm.wellFormed_advance _ hrt' _ _,
      hsame.pageTable, hsame.pageTableSize, hsame.fileAddr, hsame.spaces⟩
    · simp only [Vm.carryOut, hpaged', Option.bind_eq_bind, Option.bind_some]
    · exact (h₁.finish h₁.registers.committed h₁.inv.vm.loadTarget hwf.pending hrt' (.inr rfl)
        pcAfter).stored
  | mergeLoad addr rt merge =>
    obtain ⟨⟨n₁, value⟩, hread, hflat⟩ := Option.bind_eq_some_iff.mp hflat
    obtain ⟨rfl, rfl⟩ := Prod.mk.inj (Option.some.inj hflat)
    obtain ⟨rfl, m₁, hpaged, h₁, hsame, -⟩ := h.readMem vir hread (hben addr rfl)
    have hrt' : rt < 32 := hwithin ▸ hrt
    have hpaged' : (Vm.memory vir).readMem s.vm addr 4 = some (m₁, value) := hpaged
    refine ⟨m₁.advance rt (merge (Vm.mergeOperand m₁.registers rt) value) pcAfter, ?_, ?_,
      Vm.wellFormed_advance _ hrt' _ _, hsame.pageTable, hsame.pageTableSize, hsame.fileAddr,
      hsame.spaces⟩
    · simp only [Vm.carryOut, hpaged', Option.bind_eq_bind, Option.bind_some]
    · apply Runs.stored
      apply h₁.finish h₁.registers.committed h₁.inv.vm.loadTarget hwf.pending hrt' _ pcAfter
      by_cases hzero : rt = 0
      · exact .inl hzero
      · right
        rw [← Vm.mergeOperand_visible m₁.registers hrt', ← Vm.mergeOperand_visible n₁.registers hrt',
          h₁.registers.mergeOperand hwf.visible hrt' hzero]
  | store addr size value =>
    obtain ⟨n₁, hstore, hflat⟩ := Option.bind_eq_some_iff.mp hflat
    obtain ⟨rfl, rfl⟩ := Prod.mk.inj (Option.some.inj hflat)
    obtain ⟨hregisters, m₁, hpaged, h₁, hsame⟩ := h.writeMem vir hstore (hben addr rfl)
    have hpaged' : (Vm.memory vir).writeMem s.vm addr size value = some m₁ := hpaged
    refine ⟨m₁.advance 0 0 pcAfter, ?_, ?_, Vm.wellFormed_advance _ (by decide) _ _,
      hsame.pageTable, hsame.pageTableSize, hsame.fileAddr, hsame.spaces⟩
    · simp only [Vm.carryOut, hpaged', Option.bind_eq_bind, Option.bind_some]
    · rw [← hregisters] at hwf
      exact h₁.finish h₁.registers.committed h₁.inv.vm.loadTarget hwf.pending (by decide) (.inl rfl)
        pcAfter
  | mergeStore addr rt merge =>
    obtain ⟨⟨n₁, value⟩, hread, hflat⟩ := Option.bind_eq_some_iff.mp hflat
    obtain ⟨n₂, hstore, hflat⟩ := Option.bind_eq_some_iff.mp hflat
    obtain ⟨rfl, rfl⟩ := Prod.mk.inj (Option.some.inj hflat)
    obtain ⟨rfl, m₁, hpaged, h₁, hsame, phy, hf⟩ := h.readMem vir hread (hben addr rfl)
    -- the page that was read is still there
    have hben₁ : m₁.Benign (.read addr 4 vir) := by
      intro t' ref w hpt hnone
      obtain rfl : t' = t := Option.some.inj (hpt.symm.trans h₁.current)
      rw [hf] at hnone
      contradiction
    have hmem : rt ∈ i.reads ++ i.writes := List.mem_append_left _ hwithin
    have hvalue : m₁.registers rt = n₁.registers rt := by
      have hagree := h₁.registers.agree hwf.visible (hbound rt hmem) (hazard rt hmem)
      rwa [visible_below _ (hbound rt hmem), visible_below _ (hbound rt hmem)] at hagree
    obtain ⟨hregisters, m₂, hpaged₂, h₂, hsame₂⟩ := h₁.writeMem vir hstore hben₁
    have hpaged' : (Vm.memory vir).readMem s.vm addr 4 = some (m₁, value) := hpaged
    have hpaged₂' : (Vm.memory vir).writeMem m₁ addr 4 (merge (n₁.registers rt) value) =
        some m₂ := hpaged₂
    have hboth := hsame.trans hsame₂
    refine ⟨m₂.advance 0 0 pcAfter, ?_, ?_, Vm.wellFormed_advance _ (by decide) _ _,
      hboth.pageTable, hboth.pageTableSize, hboth.fileAddr, hboth.spaces⟩
    · simp only [Vm.carryOut, hpaged', Option.bind_eq_bind, Option.bind_some, hvalue, hpaged₂']
    · rw [← hregisters] at hwf
      exact h₂.finish h₂.registers.committed h₂.inv.vm.loadTarget hwf.pending (by decide) (.inl rfl)
        pcAfter
  | raise which badVAddr =>
    obtain ⟨rfl, rfl⟩ := Prod.mk.inj (Option.some.inj hflat)
    have hzero : ∀ m : Vm, (m.raiseException badVAddr).registers loadReg = 0 := by
      intro m
      exact commit_loadReg (Function.update m.registers badVAddrReg badVAddr)
    refine ⟨_, rfl, ?_, ⟨rfl, ?_⟩, rfl, rfl, rfl, rfl⟩
    · apply Runs.stored
      constructor
      · apply h.inv.withRegisters
        show ((s.vm.raiseException badVAddr).registers loadReg).toNat < 32
        rw [hzero]
        decide
      · exact h.current
      · exact h.pages
      · exact h.memory
      · rw [Vm.visible_raiseException hload, Vm.visible_raiseException hwf.pending,
          h.registers.committed]
        exact .refl ⟨commit_zero _, by rw [commit_loadReg]; decide⟩
    · rw [hzero]
      decide
  | undefined => cases hflat

/-- An instruction that a program makes alone is the instruction the paged machine makes for it,
if the faults on the way are harmless. -/
theorem Runs.instruction (h : s.Runs t numPages n) {raised : Option ExceptionType}
    (hwf : WellFormed n.registers)
    (hazard : ∀ n₁ raw, (flatMemory numPages).readMem n (n.registers pcReg) 4 = some (n₁, raw) →
      NoHazard (decode raw) n.registers)
    (hben : s.vm.BenignInstruction vir)
    (hflat : n.instruction (fun _ => flatMemory numPages) = some (n', raised)) :
    ∃ m', s.vm.oneInstruction vir = some (m', raised) ∧
      Runs { vm := m', flat := Function.update s.flat t n'.mainMemory } t numPages n' ∧
      WellFormed n'.registers ∧ s.vm.SameSpaces m' := by
  obtain ⟨⟨n₁, raw⟩, hfetch, hrest⟩ := Option.bind_eq_some_iff.mp hflat
  have hno := hazard n₁ raw hfetch
  have hfields := decode_fields raw
  have hbound := Instruction.lt_loadReg hfields
  have hpc : s.vm.registers pcReg = n.registers pcReg := by
    have hagree := Vm.drained_pc (m := n.withRegisters (visible n.registers)) h.registers
      hwf.visible (k := pcReg) (by decide) (by decide)
    exact hagree
  rw [← hpc] at hfetch
  obtain ⟨rfl, m₁, hread, h₁, hsame, -⟩ := h.readMem vir hfetch hben.fetch
  have hnext : m₁.registers nextPCReg = n₁.registers nextPCReg := by
    have hagree := Vm.drained_pc (m := n₁.withRegisters (visible n₁.registers)) h₁.registers
      hwf.visible (k := nextPCReg) (by decide) (by decide)
    exact hagree
  have hexecute : execute (decode raw) m₁.registers = execute (decode raw) n₁.registers := by
    apply execute_congr _ hnext
    intro k hk
    have hmem := List.mem_append_left (decode raw).writes hk
    have hagree := h₁.registers.agree hwf.visible (hbound k hmem) (hno k hmem)
    rwa [visible_below _ (hbound k hmem), visible_below _ (hbound k hmem)] at hagree
  have hdata : ∀ addr ∈ (execute (decode raw) n₁.registers).address,
      m₁.Benign (.read addr 4 vir) := by
    rw [← hexecute]
    exact hben.data m₁ raw hread
  obtain ⟨m', hm', hruns, hwf', hsame'⟩ := h₁.carryOut hwf hno (execute_within _ _) hfields.2.1
    hbound hdata hrest
  refine ⟨m', ?_, hruns, hwf', hsame.trans hsame'⟩
  have hread' : (Vm.memory vir).readMem s.vm (s.vm.registers pcReg) 4 = some (m₁, raw) := hread
  simp only [Vm.oneInstruction, Vm.instruction, hread', Option.bind_eq_bind, Option.bind_some,
    hnext, hexecute]
  exact hm'

theorem Runs.commit_eq (h : s.Runs t numPages n) (hwf : WellFormed n.registers) {k : Nat}
    (hk : k < loadReg) : commit s.vm.registers k = commit n.registers k := by
  rw [← visible_below (commit s.vm.registers) hk, ← visible_below (commit n.registers) hk,
    visible_commit h.inv.vm.loadTarget, visible_commit hwf.pending, h.registers.committed]

end Paged

end Nachos

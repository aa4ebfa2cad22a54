import Nachos.Machine.Mipssim
import Nachos.Userprog.Effects

/-!
# Pending loads

A load reaches its register one instruction later, or earlier, when an exception or an interrupt
makes the machine finish it. A program that leaves the register of a pending load alone cannot
tell the difference: the two machines agree again as soon as the load is committed.
-/

namespace Nachos

namespace Instruction

/-- The registers an instruction reads, apart from the program counters. `LWL` and `LWR` find the
register they merge into also while its load is pending. -/
def reads (i : Instruction) : List Nat :=
  match i.opCode with
  | .addi | .addiu | .andi | .bgez | .bgezal | .bgtz | .blez | .bltz | .bltzal | .jalr | .jr | .lb
  | .lbu | .lh | .lhu | .lw | .lwl | .lwr | .mthi | .mtlo | .ori | .slti | .sltiu | .xori => [i.rs]
  | .add | .addu | .and | .beq | .bne | .div | .divu | .mult | .multu | .nor | .or | .sb | .sh
  | .sllv | .slt | .sltu | .srav | .srlv | .sub | .subu | .sw | .swl | .swr | .xor => [i.rs, i.rt]
  | .sll | .sra | .srl => [i.rt]
  | .mfhi => [hiReg]
  | .mflo => [loReg]
  | .j | .jal | .lui | .syscall | .unimp | .res => []

/-- The registers an instruction writes at once. A load does not write its register. -/
def writes (i : Instruction) : List Nat :=
  match i.opCode with
  | .add | .addu | .and | .jalr | .mfhi | .mflo | .nor | .or | .sll | .sllv | .slt | .sltu | .sra
  | .srav | .srl | .srlv | .sub | .subu | .xor => [i.rd]
  | .addi | .addiu | .andi | .lui | .ori | .slti | .sltiu | .xori => [i.rt]
  | .bgezal | .bltzal | .jal => [linkReg]
  | .div | .divu | .mult | .multu => [hiReg, loReg]
  | .mthi => [hiReg]
  | .mtlo => [loReg]
  | _ => []

end Instruction

private theorem field_lt (value : Word) (n : Nat) : ((value >>> n) &&& 0x1f).toNat < 32 := by
  rw [BitVec.toNat_and]
  exact Nat.lt_of_le_of_lt Nat.and_le_right (by decide)

theorem decode_registers (value : Word) :
    (decode value).rs = ((value >>> 21) &&& 0x1f).toNat ∧
      (decode value).rt = ((value >>> 16) &&& 0x1f).toNat ∧
      (decode value).rd = ((value >>> 11) &&& 0x1f).toNat := by
  unfold decode
  dsimp only
  split
  next => exact ⟨rfl, rfl, rfl⟩
  next => exact ⟨rfl, rfl, rfl⟩
  next =>
    split
    next => exact ⟨rfl, rfl, rfl⟩
    next =>
      split
      next => exact ⟨rfl, rfl, rfl⟩
      next =>
        split
        next => exact ⟨rfl, rfl, rfl⟩
        next =>
          split
          next => exact ⟨rfl, rfl, rfl⟩
          next => exact ⟨rfl, rfl, rfl⟩

theorem decode_fields (value : Word) :
    (decode value).rs < 32 ∧ (decode value).rt < 32 ∧ (decode value).rd < 32 := by
  obtain ⟨hrs, hrt, hrd⟩ := decode_registers value
  rw [hrs, hrt, hrd]
  exact ⟨field_lt value 21, field_lt value 16, field_lt value 11⟩

theorem Instruction.lt_loadReg {i : Instruction} (h : i.rs < 32 ∧ i.rt < 32 ∧ i.rd < 32) :
    ∀ k ∈ i.reads ++ i.writes, k < loadReg := by
  obtain ⟨opCode, rs, rt, rd, extra⟩ := i
  dsimp only at h
  cases opCode <;> simp [reads, writes, loadReg, linkReg, hiReg, loReg] <;> omega

/-- The switch looks at nothing but the registers the instruction reads and `NextPCReg`. -/
theorem execute_congr {i : Instruction} {s t : Nat → Word} (hreads : ∀ k ∈ i.reads, t k = s k)
    (hnext : t nextPCReg = s nextPCReg) : execute i t = execute i s := by
  obtain ⟨opCode, rs, rt, rd, extra⟩ := i
  have hupdate : ∀ k v, t rs = s rs → Function.update t k v rs = Function.update s k v rs := by
    intro k v h
    by_cases hk : rs = k
    · subst hk
      simp only [Function.update_self]
    · simp only [Function.update_of_ne hk, h]
  have hbranch : ∀ b, branch t extra b = branch s extra b := by
    intro b
    simp only [branch, hnext]
  cases opCode <;>
    simp only [Instruction.reads, List.mem_cons, List.not_mem_nil, or_false, forall_eq_or_imp,
      forall_eq, false_implies, implies_true] at hreads <;>
    simp only [execute, hreads, hnext, hbranch, hupdate]

/-- What an effect touches is among the registers of the instruction. -/
def Effect.Within (i : Instruction) : Effect → Prop
  | .write r _ => r ∈ i.writes
  | .hiLo _ _ => hiReg ∈ i.writes ∧ loReg ∈ i.writes
  | .link r _ _ => r ∈ i.writes
  | .load _ _ rt _ => rt = i.rt
  | .mergeLoad _ rt _ => rt = i.rt
  | .mergeStore _ rt _ => rt ∈ i.reads
  | _ => True

theorem execute_within (i : Instruction) (registers : Nat → Word) :
    (execute i registers).Within i := by
  obtain ⟨opCode, rs, rt, rd, extra⟩ := i
  cases opCode <;> simp only [execute] <;> (repeat' split) <;>
    simp [Effect.Within, Instruction.writes, Instruction.reads]

/-! ## Committing a load -/

/-- `DelayedLoad(0, 0)`. -/
def commit (registers : Nat → Word) : Nat → Word := Vm.delayedLoad registers 0 0

theorem delayedLoad_apply (s : Nat → Word) (nextReg nextValue : Word) (k : Nat) :
    Vm.delayedLoad s nextReg nextValue k =
      if k = 0 then 0 else if k = loadValueReg then nextValue else if k = loadReg then nextReg
      else if k = (s loadReg).toNat then s loadValueReg else s k := by
  simp only [Vm.delayedLoad, Function.update_apply]

private theorem delayedLoad_eq (s : Nat → Word) (nextReg nextValue : Word) :
    Vm.delayedLoad s nextReg nextValue =
      Function.update (Function.update (commit s) loadReg nextReg) loadValueReg nextValue := by
  funext k
  simp only [commit, delayedLoad_apply, Function.update_apply]
  by_cases hzero : k = 0
  · rw [hzero]
    rfl
  · by_cases hvalue : k = loadValueReg
    · simp only [if_neg hzero, if_pos hvalue]
    · by_cases hreg : k = loadReg
      · simp only [if_neg hzero, if_neg hvalue, if_pos hreg]
      · simp only [if_neg hzero, if_neg hvalue, if_neg hreg]

private theorem commit_below {s : Nat → Word} {k : Nat} (hzero : k ≠ 0) (hk : k < loadReg) :
    commit s k = if k = (s loadReg).toNat then s loadValueReg else s k := by
  have hvalue : k ≠ loadValueReg := by
    simp only [loadReg, loadValueReg] at *
    omega
  rw [commit, delayedLoad_apply, if_neg hzero, if_neg hvalue, if_neg (Nat.ne_of_lt hk)]

theorem commit_of_ne {s : Nat → Word} {k : Nat} (hzero : k ≠ 0) (hk : k < loadReg)
    (hne : k ≠ (s loadReg).toNat) : commit s k = s k := by
  rw [commit_below hzero hk, if_neg hne]

theorem commit_target {s : Nat → Word} (hzero : (s loadReg).toNat ≠ 0)
    (hlt : (s loadReg).toNat < loadReg) : commit s (s loadReg).toNat = s loadValueReg := by
  rw [commit_below hzero hlt, if_pos rfl]

theorem commit_idle {s : Nat → Word} {k : Nat} (h : s loadReg = 0) (hk : k < loadReg) :
    commit s k = if k = 0 then 0 else s k := by
  by_cases hzero : k = 0
  · rw [if_pos hzero, hzero]
    rfl
  · rw [if_neg hzero]
    apply commit_of_ne hzero hk
    rw [h]
    exact hzero

@[simp] theorem commit_zero (s : Nat → Word) : commit s 0 = 0 := rfl

@[simp] theorem commit_loadReg (s : Nat → Word) : commit s loadReg = 0 := by
  simp only [commit, delayedLoad_apply]
  grind

private theorem commit_update {s : Nat → Word} {k : Nat} (hk : k < loadReg)
    (hne : k ≠ (s loadReg).toNat ∨ k = 0) (x : Word) :
    commit (Function.update s k x) = if k = 0 then commit s else Function.update (commit s) k x := by
  have hload : loadReg ≠ k := by omega
  have hvalue : loadValueReg ≠ k := by
    simp only [loadReg, loadValueReg] at *
    omega
  by_cases hzero : k = 0
  · rw [if_pos hzero]
    funext j
    simp only [commit, delayedLoad_apply, Function.update_apply]
    grind
  · rw [if_neg hzero]
    funext j
    simp only [commit, delayedLoad_apply, Function.update_apply]
    grind

private theorem commit_commit (s : Nat → Word) : commit (commit s) = commit s := by
  funext k
  simp only [commit, delayedLoad_apply]
  grind

/-- The register file of a machine: register 0 is zero and a pending load is to a general
register. -/
structure WellFormed (registers : Nat → Word) : Prop where
  zero : registers 0 = 0
  pending : (registers loadReg).toNat < 32

/-- The instruction neither reads nor writes the register of the pending load. -/
def NoHazard (i : Instruction) (registers : Nat → Word) : Prop :=
  ∀ k ∈ i.reads ++ i.writes, k = (registers loadReg).toNat → k = 0

instance (i : Instruction) (registers : Nat → Word) : Decidable (NoHazard i registers) :=
  inferInstanceAs (Decidable (∀ k ∈ _, _))

/-- The registers `t` are `s`, whose pending load may have been committed. -/
structure Drained (s t : Nat → Word) : Prop where
  committed : commit t = commit s
  zero : t 0 = 0
  pending : t loadReg = 0 ∨ t loadReg = s loadReg ∧ t loadValueReg = s loadValueReg

namespace Drained

variable {s t : Nat → Word}

theorem refl (h : WellFormed s) : Drained s s := ⟨rfl, h.zero, .inr ⟨rfl, rfl⟩⟩

theorem drain (h : Drained s t) : Drained s (commit t) :=
  ⟨(commit_commit t).trans h.committed, commit_zero t, .inl (commit_loadReg t)⟩

private theorem drainIf (h : Drained s t) (drains : Bool) :
    Drained s (if drains then commit t else t) := by
  cases drains
  · exact h
  · exact h.drain

private theorem ne_pending (h : Drained s t) {k : Nat} (hne : k ≠ (s loadReg).toNat) :
    k ≠ (t loadReg).toNat ∨ k = 0 := by
  rcases h.pending with hload | ⟨hload, -⟩
  · rw [hload]
    by_cases hzero : k = 0
    · exact .inr hzero
    · exact .inl hzero
  · rw [hload]
    exact .inl hne

theorem agree (h : Drained s t) (hs : WellFormed s) {k : Nat} (hk : k < loadReg)
    (hne : k = (s loadReg).toNat → k = 0) : t k = s k := by
  by_cases hzero : k = 0
  · rw [hzero, h.zero, hs.zero]
  · have hs' : k ≠ (s loadReg).toNat := fun heq => hzero (hne heq)
    have ht' : k ≠ (t loadReg).toNat := (h.ne_pending hs').resolve_right hzero
    rw [← commit_of_ne hzero hk ht', h.committed, commit_of_ne hzero hk hs']

theorem write (h : Drained s t) {k : Nat} (hk : k < loadReg)
    (hne : k = (s loadReg).toNat → k = 0) (x : Word) :
    commit (Function.update t k x) = commit (Function.update s k x) := by
  have hs : k ≠ (s loadReg).toNat ∨ k = 0 := by
    by_cases heq : k = (s loadReg).toNat
    · exact .inr (hne heq)
    · exact .inl heq
  have ht : k ≠ (t loadReg).toNat ∨ k = 0 := by
    rcases hs with hs | hzero
    · exact h.ne_pending hs
    · exact .inr hzero
  rw [commit_update hk ht, commit_update hk hs, h.committed]

theorem update (h : Drained s t) {k : Nat} (hk : k < loadReg) (hzero : k ≠ 0)
    (hne : k ≠ (s loadReg).toNat) (x : Word) :
    Drained (Function.update s k x) (Function.update t k x) := by
  have hload : loadReg ≠ k := by omega
  have hvalue : loadValueReg ≠ k := by
    simp only [loadReg, loadValueReg] at *
    omega
  constructor
  case committed => exact h.write hk (fun heq => absurd heq hne) x
  case zero =>
    rw [Function.update_of_ne hzero.symm]
    exact h.zero
  case pending =>
    simp only [Function.update_of_ne hload, Function.update_of_ne hvalue]
    exact h.pending

/-- What `LWL` and `LWR` start from does not depend on it. -/
theorem mergeOperand (h : Drained s t) (hs : WellFormed s) {rt : Nat} (hrt : rt < 32)
    (hzero : rt ≠ 0) : Vm.mergeOperand t rt = Vm.mergeOperand s rt := by
  have hcast : ∀ w : Word, w = (rt : Word) ↔ w.toNat = rt := by
    intro w
    rw [← BitVec.toNat_inj]
    have hmod : (rt : Word).toNat = rt := Nat.mod_eq_of_lt (by omega)
    rw [hmod]
  have hlt : rt < loadReg := Nat.lt_trans hrt (by decide)
  unfold Vm.mergeOperand
  by_cases hsame : s loadReg = rt
  · have htarget : (s loadReg).toNat = rt := (hcast _).mp hsame
    rw [if_pos hsame]
    rcases h.pending with hload | ⟨hload, hvalue⟩
    · -- the load has been committed, and its value is in the register
      have hne : ¬ t loadReg = rt := by
        rw [hcast, hload]
        exact fun heq => hzero heq.symm
      have ht : rt ≠ (t loadReg).toNat := by
        rw [hload]
        exact hzero
      rw [if_neg hne, ← commit_of_ne hzero hlt ht, h.committed]
      subst htarget
      exact commit_target hzero hlt
    · rw [if_pos (hload.trans hsame), hvalue]
  · have hne : rt ≠ (s loadReg).toNat := fun heq => hsame ((hcast _).mpr heq.symm)
    have ht : ¬ t loadReg = rt := by
      rw [hcast]
      exact fun heq => ((h.ne_pending hne).resolve_right hzero) heq.symm
    rw [if_neg hsame, if_neg ht]
    exact h.agree hs hlt fun heq => absurd heq hne

end Drained

/-! ## Resident pages -/

namespace Vm

def withRegisters (m : Vm) (registers : Nat → Word) : Vm := { m with registers := registers }

@[simp] theorem withRegisters_registers (m : Vm) (r : Nat → Word) :
    (m.withRegisters r).registers = r := rfl

@[simp] theorem withRegisters_self (m : Vm) : m.withRegisters m.registers = m := rfl

def drain (m : Vm) : Vm := m.withRegisters (commit m.registers)

/-- Accesses to resident pages, with or without an additional `DelayedLoad(0, 0)`. -/
def resident (drains : Bool) : MemoryAccess where
  readMem m addr size := do
    let (m₁, result) ← m.translate addr size false
    match result with
    | .ok physAddr =>
      let value ← fetch m₁.mainMemory size physAddr
      some (if drains then m₁.drain else m₁, value)
    | .error _ => none
  writeMem m addr size value := do
    let (m₁, result) ← m.translate addr size true
    match result with
    | .ok physAddr =>
      let memory ← store m₁.mainMemory size physAddr value
      some (if drains then drain { m₁ with mainMemory := memory }
        else { m₁ with mainMemory := memory })
    | .error _ => none

private theorem translate_withRegisters (m : Vm) (r : Nat → Word) (addr : Word) (size : Nat)
    (writing : Bool) : (m.withRegisters r).translate addr size writing =
      (m.translate addr size writing).map fun p => (p.1.withRegisters r, p.2) := by
  have hpt : (m.withRegisters r).pageTable = m.pageTable := rfl
  have hsize : (m.withRegisters r).pageTableSize = m.pageTableSize := rfl
  have htables : (m.withRegisters r).tables = m.tables := rfl
  simp only [translate, hpt, hsize, htables]
  split
  · rfl
  · split
    · rfl
    · split
      · rfl
      · split
        · rfl
        · split
          · rfl
          · split
            · rfl
            · split
              · rfl
              · rfl

private theorem translate_registers {m m' : Vm} {addr : Word} {size : Nat} {writing : Bool}
    {result : Except ExceptionType Nat} (h : m.translate addr size writing = some (m', result)) :
    m'.registers = m.registers := by
  have hsame := translate_withRegisters m m.registers addr size writing
  rw [withRegisters_self, h] at hsame
  exact congrArg (fun p : Vm × Except ExceptionType Nat => p.1.registers) (Option.some.inj hsame)

private theorem invalidate_registers {m m' : Vm} {phy : Nat} {vir : Int}
    (h : m.invalidate phy vir = some m') : m'.registers = m.registers := by
  unfold invalidate at h
  split at h
  · cases h
    rfl
  · obtain ⟨v, -, h⟩ := Option.bind_eq_some_iff.mp h
    cases h
    rfl

private theorem findFreeFrame_registers (m : Vm) (virAddr : Int) (ref : Nat) :
    (m.findFreeFrame virAddr ref).2.registers = m.registers := by
  unfold findFreeFrame
  split <;> rfl

private theorem enter_registers {m m' : Vm} {t phy : Nat} {vpn vir : Int}
    (h : ((arrayIndex numPhysPages vpn).bind fun v =>
      (m.files (m.tables t v).diskFile).bind fun input =>
      ((List.range pageSize).foldlM (fillByte input m.fileAddr v phy) m.mainMemory).bind fun memory =>
      ({ m with mainMemory := memory }.invalidate phy vir).bind fun m₃ =>
        some (m₃.assign t v phy)) = some m') : m'.registers = m.registers := by
  obtain ⟨v, -, h⟩ := Option.bind_eq_some_iff.mp h
  obtain ⟨input, -, h⟩ := Option.bind_eq_some_iff.mp h
  obtain ⟨memory, -, h⟩ := Option.bind_eq_some_iff.mp h
  obtain ⟨m₃, hinvalid, h⟩ := Option.bind_eq_some_iff.mp h
  have hkept := invalidate_registers hinvalid
  cases h
  exact hkept

private theorem pageFault_registers {m m' : Vm} {vir : Int} (h : m.pageFault vir = some m') :
    m'.registers = m.registers := by
  simp only [pageFault, Option.bind_eq_bind] at h
  obtain ⟨t, -, h⟩ := Option.bind_eq_some_iff.mp h
  have hfree := findFreeFrame_registers m ((m.registers badVAddrReg).toInt.tdiv pageSize) t
  split at h
  · obtain ⟨r, hevict, h⟩ := Option.bind_eq_some_iff.mp h
    obtain ⟨-, -, -, -, -, -, hfiles⟩ := evict_cases hevict
    rw [enter_registers h, hfiles]
    exact hfree
  · exact (enter_registers h).trans hfree

theorem access_registers {m m' : Vm} {addr : Word} {size physAddr : Nat} {writing : Bool}
    {vir : Int} (h : m.access addr size writing vir = some (m', physAddr)) :
    m'.registers = m.registers ∨ m'.registers = (m.raiseException addr).registers := by
  obtain ⟨m₁, hfirst, hsecond⟩ := access_cases h
  rw [translate_registers hsecond]
  rcases hfirst with rfl | ⟨-, hfault⟩
  · exact .inl rfl
  · exact .inr (pageFault_registers hfault)

theorem readMem_registers {m m' : Vm} {addr value : Word} {size : Nat} {vir : Int}
    (h : m.readMem addr size vir = some (m', value)) :
    m'.registers = m.registers ∨ m'.registers = (m.raiseException addr).registers := by
  obtain ⟨⟨m₁, physAddr⟩, haccess, h⟩ := Option.bind_eq_some_iff.mp h
  obtain ⟨v, -, h⟩ := Option.bind_eq_some_iff.mp h
  cases h
  exact access_registers haccess

theorem resident_readMem {m m₁ : Vm} {addr value : Word} {size : Nat}
    (h : (resident false).readMem m addr size = some (m₁, value)) :
    m₁.registers = m.registers ∧ ∀ (t : Nat → Word) (drains : Bool),
      (resident drains).readMem (m.withRegisters t) addr size =
        some (m₁.withRegisters (if drains then commit t else t), value) := by
  simp only [resident, Option.bind_eq_bind] at h
  obtain ⟨⟨m₂, result⟩, htranslate, h⟩ := Option.bind_eq_some_iff.mp h
  cases result with
  | error e => cases h
  | ok physAddr =>
    obtain ⟨v, hfetch, h⟩ := Option.bind_eq_some_iff.mp h
    obtain ⟨rfl, rfl⟩ := Prod.mk.inj (Option.some.inj h)
    refine ⟨translate_registers htranslate, ?_⟩
    intro t drains
    have hmemory : (m₂.withRegisters t).mainMemory = m₂.mainMemory := rfl
    simp only [resident, translate_withRegisters, htranslate, Option.map_some, Option.bind_eq_bind,
      Option.bind_some, hmemory, hfetch]
    cases drains <;> rfl

theorem resident_writeMem {m m₁ : Vm} {addr value : Word} {size : Nat}
    (h : (resident false).writeMem m addr size value = some m₁) :
    m₁.registers = m.registers ∧ ∀ (t : Nat → Word) (drains : Bool),
      (resident drains).writeMem (m.withRegisters t) addr size value =
        some (m₁.withRegisters (if drains then commit t else t)) := by
  simp only [resident, Option.bind_eq_bind] at h
  obtain ⟨⟨m₂, result⟩, htranslate, h⟩ := Option.bind_eq_some_iff.mp h
  cases result with
  | error e => cases h
  | ok physAddr =>
    obtain ⟨memory, hstore, h⟩ := Option.bind_eq_some_iff.mp h
    obtain rfl := Option.some.inj h
    have hregisters : m₂.registers = m.registers := translate_registers htranslate
    refine ⟨hregisters, ?_⟩
    intro t drains
    have hmemory : (m₂.withRegisters t).mainMemory = m₂.mainMemory := rfl
    simp only [resident, translate_withRegisters, htranslate, Option.map_some, Option.bind_eq_bind,
      Option.bind_some, hmemory, hstore]
    cases drains <;> rfl

/-! ## One instruction with and without drains -/

theorem advance_congr {m : Vm} {s t : Nat → Word} (h : commit t = commit s) (nextLoadReg : Nat)
    (nextLoadValue pcAfter : Word) :
    (m.withRegisters t).advance nextLoadReg nextLoadValue pcAfter =
      (m.withRegisters s).advance nextLoadReg nextLoadValue pcAfter := by
  simp only [advance, withRegisters, delayedLoad_eq, h]

@[simp] theorem advance_zero (m : Vm) (nextLoadReg : Nat) (nextLoadValue pcAfter : Word) :
    (m.advance nextLoadReg nextLoadValue pcAfter).registers 0 = 0 := rfl

@[simp] theorem advance_loadReg (m : Vm) (nextLoadReg : Nat) (nextLoadValue pcAfter : Word) :
    (m.advance nextLoadReg nextLoadValue pcAfter).registers loadReg = nextLoadReg := rfl

theorem advance_register (m : Vm) (nextLoadReg : Nat) (nextLoadValue pcAfter : Word) {k : Nat}
    (hk : k < loadReg) :
    (m.advance nextLoadReg nextLoadValue pcAfter).registers k =
      if k = nextPCReg then pcAfter else if k = pcReg then commit m.registers nextPCReg
      else if k = prevPCReg then commit m.registers pcReg else commit m.registers k := by
  have hbelow : ∀ j < loadReg,
      delayedLoad m.registers nextLoadReg nextLoadValue j = commit m.registers j := by
    intro j hj
    have hvalue : j ≠ loadValueReg := by
      simp only [loadReg, loadValueReg] at *
      omega
    rw [delayedLoad_eq, Function.update_of_ne hvalue, Function.update_of_ne (Nat.ne_of_lt hj)]
  rw [← hbelow k hk, ← hbelow pcReg (by decide), ← hbelow nextPCReg (by decide)]
  simp only [advance, Function.update_apply]
  rfl

theorem advance_general (m : Vm) (nextLoadReg : Nat) (nextLoadValue pcAfter : Word) {k : Nat}
    (hk : k < 32) :
    (m.advance nextLoadReg nextLoadValue pcAfter).registers k = commit m.registers k := by
  have hother : k < loadReg ∧ k ≠ nextPCReg ∧ k ≠ pcReg ∧ k ≠ prevPCReg := by
    simp only [loadReg, nextPCReg, pcReg, prevPCReg]
    omega
  rw [advance_register m _ _ _ hother.1, if_neg hother.2.1, if_neg hother.2.2.1,
    if_neg hother.2.2.2]

theorem raiseException_register (m : Vm) (badVAddr : Word) {k : Nat} (hk : k < loadReg) :
    (m.raiseException badVAddr).registers k = commit m.registers k := by
  have hbad : k ≠ badVAddrReg := by
    simp only [loadReg, badVAddrReg] at *
    omega
  have hload : loadReg ≠ badVAddrReg := by decide
  have hvalue : loadValueReg ≠ badVAddrReg := by decide
  simp only [raiseException, commit, delayedLoad_apply, Function.update_of_ne hbad,
    Function.update_of_ne hload, Function.update_of_ne hvalue]

theorem wellFormed_advance (m : Vm) {nextLoadReg : Nat} (h : nextLoadReg < 32)
    (nextLoadValue pcAfter : Word) :
    WellFormed (m.advance nextLoadReg nextLoadValue pcAfter).registers := by
  constructor
  case zero => exact m.advance_zero _ _ _
  case pending =>
    rw [advance_loadReg]
    exact Nat.lt_of_le_of_lt (Nat.mod_le _ _) h

theorem drained_advance_zero (m : Vm) (v v' pcAfter : Word) :
    Drained (m.advance 0 v pcAfter).registers (m.advance 0 v' pcAfter).registers := by
  constructor
  case committed =>
    funext k
    simp only [advance, commit, delayedLoad_apply, Function.update_apply]
    grind
  case zero => exact m.advance_zero _ _ _
  case pending => exact .inl (m.advance_loadReg _ _ _)

variable {m m' : Vm} {i : Instruction} {pcAfter : Word} {t : Nat → Word}

private theorem drained_same (h : WellFormed m'.registers) :
    WellFormed m'.registers ∧ ∃ t', some (m', (none : Option ExceptionType)) =
      some (m'.withRegisters t', none) ∧ Drained m'.registers t' :=
  ⟨h, m'.registers, rfl, .refl h⟩

private theorem carryOut_drained {e : Effect} (hwithin : e.Within i) (hrt : i.rt < 32)
    (hbound : ∀ k ∈ i.reads ++ i.writes, k < loadReg) (hs : WellFormed m.registers)
    (hazard : NoHazard i m.registers) (ht : Drained m.registers t) (drains : Nat → Bool)
    (h : m.carryOut (fun _ => resident false) pcAfter e = some (m', none)) :
    WellFormed m'.registers ∧ ∃ t', (m.withRegisters t).carryOut (fun n => resident (drains n))
      pcAfter e = some (m'.withRegisters t', none) ∧ Drained m'.registers t' := by
  have hwrite : ∀ k ∈ i.writes, ∀ x pc, ((m.withRegisters t).writeReg k x).advance 0 0 pc =
      (m.writeReg k x).advance 0 0 pc := by
    intro k hk x pc
    apply advance_congr
    exact ht.write (hbound k (List.mem_append_right _ hk))
      (hazard k (List.mem_append_right _ hk)) x
  -- the end of an instruction after an access
  have hafter : ∀ {m₁ : Vm}, m₁.registers = m.registers → ∀ {t₁}, Drained m.registers t₁ →
      ∀ n v, (m₁.withRegisters t₁).advance n v pcAfter = m₁.advance n v pcAfter := by
    intro m₁ hregisters t₁ ht₁ n v
    rw [← hregisters] at ht₁
    exact advance_congr ht₁.committed n v pcAfter
  cases e with
  | write r value =>
    obtain ⟨rfl, -⟩ := Prod.mk.inj (Option.some.inj h)
    rw [carryOut, hwrite r hwithin]
    exact drained_same (wellFormed_advance _ (by decide) _ _)
  | hiLo hi lo =>
    obtain ⟨rfl, -⟩ := Prod.mk.inj (Option.some.inj h)
    have hpending := hs.pending
    have hlo := ht.update (k := loReg) (by decide) (by decide)
      (by simp only [loReg]; omega) lo
    have hhi := hlo.update (k := hiReg) (by decide) (by decide)
      (by rw [Function.update_of_ne (by decide)]; simp only [hiReg]; omega) hi
    have heq : (((m.withRegisters t).writeReg loReg lo).writeReg hiReg hi).advance 0 0 pcAfter =
        ((m.writeReg loReg lo).writeReg hiReg hi).advance 0 0 pcAfter :=
      advance_congr hhi.committed 0 0 pcAfter
    rw [carryOut, heq]
    exact drained_same (wellFormed_advance _ (by decide) _ _)
  | jump pc =>
    obtain ⟨rfl, -⟩ := Prod.mk.inj (Option.some.inj h)
    rw [carryOut, advance_congr ht.committed]
    exact drained_same (wellFormed_advance _ (by decide) _ _)
  | link r value pc =>
    obtain ⟨rfl, -⟩ := Prod.mk.inj (Option.some.inj h)
    rw [carryOut, hwrite r hwithin]
    exact drained_same (wellFormed_advance _ (by decide) _ _)
  | load addr size rt extend =>
    obtain ⟨⟨m₁, value⟩, hread, h⟩ := Option.bind_eq_some_iff.mp h
    obtain ⟨rfl, -⟩ := Prod.mk.inj (Option.some.inj h)
    obtain ⟨hregisters, hdrained⟩ := resident_readMem hread
    have hrt' : rt < 32 := hwithin ▸ hrt
    simp only [carryOut, hdrained, Option.bind_eq_bind, Option.bind_some]
    rw [hafter hregisters (ht.drainIf _)]
    exact drained_same (wellFormed_advance _ hrt' _ _)
  | mergeLoad addr rt merge =>
    obtain ⟨⟨m₁, value⟩, hread, h⟩ := Option.bind_eq_some_iff.mp h
    obtain ⟨rfl, -⟩ := Prod.mk.inj (Option.some.inj h)
    obtain ⟨hregisters, hdrained⟩ := resident_readMem hread
    have hrt' : rt < 32 := hwithin ▸ hrt
    simp only [carryOut, hdrained, Option.bind_eq_bind, Option.bind_some]
    rw [hafter hregisters (ht.drainIf _)]
    by_cases hzero : rt = 0
    · subst hzero
      exact ⟨wellFormed_advance _ hrt' _ _, _, rfl, drained_advance_zero _ _ _ _⟩
    · rw [withRegisters_registers, (ht.drainIf _).mergeOperand hs hrt' hzero, ← hregisters]
      exact drained_same (wellFormed_advance _ hrt' _ _)
  | store addr size value =>
    obtain ⟨m₁, hstore, h⟩ := Option.bind_eq_some_iff.mp h
    obtain ⟨rfl, -⟩ := Prod.mk.inj (Option.some.inj h)
    obtain ⟨hregisters, hdrained⟩ := resident_writeMem hstore
    simp only [carryOut, hdrained, Option.bind_eq_bind, Option.bind_some]
    rw [hafter hregisters (ht.drainIf _)]
    exact drained_same (wellFormed_advance _ (by decide) _ _)
  | mergeStore addr rt merge =>
    obtain ⟨⟨m₁, value⟩, hread, h⟩ := Option.bind_eq_some_iff.mp h
    obtain ⟨m₂, hstore, h⟩ := Option.bind_eq_some_iff.mp h
    obtain ⟨rfl, -⟩ := Prod.mk.inj (Option.some.inj h)
    obtain ⟨hregisters, hdrained⟩ := resident_readMem hread
    obtain ⟨hregisters', hdrained'⟩ := resident_writeMem hstore
    have hmem : rt ∈ i.reads ++ i.writes := List.mem_append_left _ hwithin
    have hvalue := (ht.drainIf (drains 1)).agree hs (hbound rt hmem) (hazard rt hmem)
    rw [← hregisters] at hvalue
    simp only [carryOut, hdrained, Option.bind_eq_bind, Option.bind_some, withRegisters_registers,
      hvalue, hdrained']
    rw [hafter (hregisters'.trans hregisters) ((ht.drainIf _).drainIf _)]
    exact drained_same (wellFormed_advance _ (by decide) _ _)
  | raise which badVAddr => cases h
  | undefined => cases h

def fetched (m : Vm) : Option Instruction :=
  ((resident false).readMem m (m.registers pcReg) 4).map fun p => decode p.2

theorem drained_pc (ht : Drained m.registers t) (hs : WellFormed m.registers) {k : Nat}
    (hk : 32 ≤ k) (hk' : k < loadReg) : t k = m.registers k := by
  have hpending := hs.pending
  exact ht.agree hs hk' fun heq => by omega

private theorem instruction_drained (hs : WellFormed m.registers)
    (hazard : ∀ i ∈ m.fetched, NoHazard i m.registers) (ht : Drained m.registers t)
    (drains : Nat → Bool) (h : m.instruction (fun _ => resident false) = some (m', none)) :
    WellFormed m'.registers ∧ ∃ t', (m.withRegisters t).instruction
      (fun n => resident (drains n)) = some (m'.withRegisters t', none) ∧
      Drained m'.registers t' := by
  obtain ⟨⟨m₁, raw⟩, hfetch, h⟩ := Option.bind_eq_some_iff.mp h
  have hi : decode raw ∈ m.fetched := by
    rw [fetched, hfetch]
    rfl
  have hno := hazard _ hi
  have hfields := decode_fields raw
  have hbound := Instruction.lt_loadReg hfields
  obtain ⟨hregisters, hdrained⟩ := resident_readMem hfetch
  rw [← hregisters] at hs ht hno
  have ht₁ := ht.drainIf (drains 0)
  have hnext := drained_pc ht₁ hs (k := nextPCReg) (by decide) (by decide)
  have hexecute : execute (decode raw) (if drains 0 then commit t else t) =
      execute (decode raw) m₁.registers := by
    apply execute_congr _ hnext
    intro k hk
    have hmem := List.mem_append_left (decode raw).writes hk
    exact ht₁.agree hs (hbound k hmem) (hno k hmem)
  have hpc : t pcReg = m.registers pcReg := by
    rw [← hregisters]
    exact drained_pc ht hs (by decide) (by decide)
  have hrest := carryOut_drained (execute_within _ _) hfields.2.1 hbound hs hno ht₁ drains h
  simp only [instruction, withRegisters_registers, hpc, hdrained, Option.bind_eq_bind,
    Option.bind_some, hnext, hexecute]
  exact hrest

end Vm

/-! ## Runs -/

/-- What happens between two instructions and in them. -/
inductive DrainEvent
  | instruction (drains : Nat → Bool)
  | drain

def instructions : List DrainEvent → Nat
  | [] => 0
  | .instruction _ :: events => instructions events + 1
  | .drain :: events => instructions events

namespace Vm

variable {m m' : Vm}

/-- `OneInstruction` called `n` times, as long as there is no exception. -/
def run (m : Vm) (vir : Int) : Nat → Option Vm
  | 0 => some m
  | n + 1 =>
    match m.oneInstruction vir with
    | some (m₁, none) => m₁.run vir n
    | _ => none

def runDrained (m : Vm) : List DrainEvent → Option Vm
  | [] => some m
  | .drain :: events => m.drain.runDrained events
  | .instruction drains :: events =>
    match m.instruction fun n => resident (drains n) with
    | some (m₁, none) => m₁.runDrained events
    | _ => none

/-- A run of `n` instructions on resident pages, without an exception, in which none touches the
register of a pending load. -/
inductive HazardFree : Nat → Vm → Vm → Prop
  | done (m : Vm) : HazardFree 0 m m
  | step {n : Nat} {m m₁ m' : Vm} (hazard : ∀ i ∈ m.fetched, NoHazard i m.registers)
      (h : m.instruction (fun _ => resident false) = some (m₁, none))
      (rest : HazardFree n m₁ m') : HazardFree (n + 1) m m'

def hazardFree? (m : Vm) : Nat → Option Vm
  | 0 => some m
  | n + 1 =>
    if ∀ i ∈ m.fetched, NoHazard i m.registers then
      match m.instruction fun _ => resident false with
      | some (m₁, none) => m₁.hazardFree? n
      | _ => none
    else none

private theorem hazardFree?_sound {n : Nat} (h : m.hazardFree? n = some m') :
    HazardFree n m m' := by
  induction n generalizing m with
  | zero =>
    obtain rfl := Option.some.inj h
    exact .done m
  | succ n ih =>
    rw [hazardFree?] at h
    split at h
    next hazard =>
      split at h
      next m₁ hstep => exact .step hazard hstep (ih h)
      next => cases h
    next => cases h

private theorem runDrained_of_drained {events : List DrainEvent} {t : Nat → Word}
    (hrun : HazardFree (instructions events) m m') (hs : WellFormed m.registers)
    (ht : Drained m.registers t) :
    ∃ t', (m.withRegisters t).runDrained events = some (m'.withRegisters t') ∧
      Drained m'.registers t' := by
  induction events generalizing m t with
  | nil =>
    cases hrun
    exact ⟨t, rfl, ht⟩
  | cons e events ih =>
    cases e with
    | drain =>
      show ∃ t', (m.withRegisters (commit t)).runDrained events = _ ∧ _
      exact ih hrun hs ht.drain
    | instruction drains =>
      cases hrun with
      | step hazard h rest =>
        obtain ⟨hs₁, t₁, h₁, ht₁⟩ := instruction_drained hs hazard ht drains h
        obtain ⟨t', hrest, ht'⟩ := ih rest hs₁ ht₁
        refine ⟨t', ?_, ht'⟩
        simp only [runDrained, h₁]
        exact hrest

theorem memory_readMem {m₁ : Vm} {addr value : Word} {size : Nat} (vir : Int)
    (h : (resident false).readMem m addr size = some (m₁, value)) :
    (memory vir).readMem m addr size = some (m₁, value) := by
  simp only [resident, Option.bind_eq_bind] at h
  obtain ⟨⟨m₂, result⟩, htranslate, h⟩ := Option.bind_eq_some_iff.mp h
  cases result with
  | error e => cases h
  | ok physAddr =>
    obtain ⟨v, hfetch, h⟩ := Option.bind_eq_some_iff.mp h
    obtain ⟨rfl, rfl⟩ := Prod.mk.inj (Option.some.inj h)
    show m.readMem addr size vir = _
    rw [readMem_of_access (access_hit htranslate), hfetch]
    rfl

private theorem memory_writeMem {m₁ : Vm} {addr value : Word} {size : Nat} (vir : Int)
    (h : (resident false).writeMem m addr size value = some m₁) :
    (memory vir).writeMem m addr size value = some m₁ := by
  simp only [resident, Option.bind_eq_bind] at h
  obtain ⟨⟨m₂, result⟩, htranslate, h⟩ := Option.bind_eq_some_iff.mp h
  cases result with
  | error e => cases h
  | ok physAddr =>
    obtain ⟨memory, hstore, h⟩ := Option.bind_eq_some_iff.mp h
    obtain rfl := Option.some.inj h
    show m.writeMem addr size value vir = _
    rw [writeMem_of_access (access_hit htranslate), hstore]
    rfl

private theorem carryOut_memory {e : Effect} {pcAfter : Word} {r : Vm × Option ExceptionType}
    (vir : Int) (h : m.carryOut (fun _ => resident false) pcAfter e = some r) :
    m.carryOut (fun _ => memory vir) pcAfter e = some r := by
  cases e with
  | write r value => exact h
  | hiLo hi lo => exact h
  | jump pc => exact h
  | link r value pc => exact h
  | load addr size rt extend =>
    obtain ⟨⟨m₁, value⟩, hread, h⟩ := Option.bind_eq_some_iff.mp h
    simp only [carryOut, memory_readMem vir hread, Option.bind_eq_bind, Option.bind_some]
    exact h
  | mergeLoad addr rt merge =>
    obtain ⟨⟨m₁, value⟩, hread, h⟩ := Option.bind_eq_some_iff.mp h
    simp only [carryOut, memory_readMem vir hread, Option.bind_eq_bind, Option.bind_some]
    exact h
  | store addr size value =>
    obtain ⟨m₁, hstore, h⟩ := Option.bind_eq_some_iff.mp h
    simp only [carryOut, memory_writeMem vir hstore, Option.bind_eq_bind, Option.bind_some]
    exact h
  | mergeStore addr rt merge =>
    obtain ⟨⟨m₁, value⟩, hread, h⟩ := Option.bind_eq_some_iff.mp h
    obtain ⟨m₂, hstore, h⟩ := Option.bind_eq_some_iff.mp h
    simp only [carryOut, memory_readMem vir hread, memory_writeMem vir hstore, Option.bind_eq_bind,
      Option.bind_some]
    exact h
  | raise which badVAddr => exact h
  | undefined => exact h

theorem oneInstruction_of_resident {r : Vm × Option ExceptionType} (vir : Int)
    (h : m.instruction (fun _ => resident false) = some r) : m.oneInstruction vir = some r := by
  obtain ⟨⟨m₁, raw⟩, hfetch, h⟩ := Option.bind_eq_some_iff.mp h
  simp only [oneInstruction, instruction, memory_readMem vir hfetch, Option.bind_eq_bind,
    Option.bind_some]
  exact carryOut_memory vir h

theorem HazardFree.run {n : Nat} (h : HazardFree n m m') (vir : Int) :
    m.run vir n = some m' := by
  induction h with
  | done m => rfl
  | step hazard h rest ih =>
    rw [Vm.run, oneInstruction_of_resident vir h]
    exact ih

end Vm

/-- Additional drains are invisible: once its last load is committed, the machine is the one that
executed the same instructions without them. -/
theorem draining_invisible {m m' : Vm} (hm : WellFormed m.registers) (events : List DrainEvent)
    (hrun : Vm.HazardFree (instructions events) m m') :
    (∀ vir, m.run vir (instructions events) = some m') ∧
      ∃ m₁, m.runDrained events = some m₁ ∧ m₁.drain = m'.drain := by
  constructor
  · intro vir
    exact hrun.run vir
  · obtain ⟨t, hdrained, ht⟩ := Vm.runDrained_of_drained hrun hm (Drained.refl hm)
    refine ⟨m'.withRegisters t, hdrained, ?_⟩
    show m'.withRegisters (commit t) = m'.withRegisters (commit m'.registers)
    rw [ht.committed]

/-- A machine before the program `lw $1, 64($0); addiu $2, $0, 5; addu $3, $1, $2`. -/
def loadProgram : Vm :=
  let bytes : List Byte :=
    [0x40, 0x00, 0x01, 0x8c, 0x05, 0x00, 0x02, 0x24, 0x21, 0x18, 0x22, 0x00] ++
      List.replicate 52 0 ++ [7]
  { Vm.new (fun _ => none) with
    registers := fun k => if k = nextPCReg then 4 else 0,
    mainMemory := fun a => bytes.getD a 0,
    pageTable := some 0, pageTableSize := 1,
    tables := fun _ _ =>
      { virtualPage := 0, physicalPage := 0, valid := true, readOnly := false, use := false,
        dirty := false, diskFile := "" } }

theorem draining_invisible_load : ∃ m', loadProgram.run 0 3 = some m' ∧
    m'.drain.registers 3 = 12 ∧ ∃ m₁, loadProgram.runDrained [.instruction fun _ => false, .drain,
      .instruction fun _ => false, .instruction fun _ => true] = some m₁ ∧
      m₁.drain = m'.drain := by
  have hsome : ((loadProgram.hazardFree? 3).map fun m' => m'.drain.registers 3) = some 12 := by
    decide +kernel
  obtain ⟨m', hrun, hvalue⟩ := Option.map_eq_some_iff.mp hsome
  have hdrain := draining_invisible (m := loadProgram) ⟨by decide, by decide⟩
    [.instruction fun _ => false, .drain, .instruction fun _ => false, .instruction fun _ => true]
    (Vm.hazardFree?_sound hrun)
  exact ⟨m', hdrain.1 0, hvalue, hdrain.2⟩

end Nachos

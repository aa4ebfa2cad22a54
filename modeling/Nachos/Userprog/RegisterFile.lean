import Nachos.Userprog.Syscall
import Nachos.Userprog.UserState
import Nachos.Machine.ShiftDivide

/-!
# The register file

`DelayedLoad` stores through an index that is itself kept in a register, so everything that writes
registers has to leave a register number in `LoadReg`: the instructions, the traps, the system
calls, the interrupts and the context switches.
-/

namespace Nachos

open Framework

/-! ## The numbers of the operations -/

/-- The numbers given to the operations in `mipssim.h`. -/
def OpCode.number : OpCode → Nat
  | .add => 1 | .addi => 2 | .addiu => 3 | .addu => 4 | .and => 5 | .andi => 6 | .beq => 7
  | .bgez => 8 | .bgezal => 9 | .bgtz => 10 | .blez => 11 | .bltz => 12 | .bltzal => 13
  | .bne => 14 | .div => 16 | .divu => 17 | .j => 18 | .jal => 19 | .jalr => 20 | .jr => 21
  | .lb => 22 | .lbu => 23 | .lh => 24 | .lhu => 25 | .lui => 26 | .lw => 27 | .lwl => 28
  | .lwr => 29 | .mfhi => 31 | .mflo => 32 | .mthi => 34 | .mtlo => 35 | .mult => 36 | .multu => 37
  | .nor => 38 | .or => 39 | .ori => 40 | .sb => 42 | .sh => 43 | .sll => 44 | .sllv => 45
  | .slt => 46 | .slti => 47 | .sltiu => 48 | .sltu => 49 | .sra => 50 | .srav => 51 | .srl => 52
  | .srlv => 53 | .sub => 54 | .subu => 55 | .sw => 56 | .swl => 57 | .swr => 58 | .xor => 59
  | .xori => 60 | .syscall => 61 | .unimp => 62 | .res => 63

/-- `SPECIAL`. -/
abbrev specialNumber : Nat := 100

/-- `BCOND`. -/
abbrev bcondNumber : Nat := 101

def OpInfo.number : OpInfo → Nat
  | .op opCode _ => opCode.number
  | .special => specialNumber
  | .bcond => bcondNumber

/-- `opCode` as `Instruction::Decode` computes it, a number. -/
def decodeNumber (value : Word) : Nat :=
  let opCode := (opTable.map OpInfo.number).getD ((value >>> 26) &&& 0x3f).toNat 0
  if opCode = specialNumber then
    (specialTable.map OpCode.number).getD (value &&& 0x3f).toNat 0
  else if opCode = bcondNumber then
    let i := value &&& 0x1f0000
    if i = 0 then OpCode.number .bltz
    else if i = 0x10000 then OpCode.number .bgez
    else if i = 0x100000 then OpCode.number .bltzal
    else if i = 0x110000 then OpCode.number .bgezal
    else OpCode.number .unimp
  else opCode

/-- The cases of the switch in `OneInstruction`. -/
def switchCases : List Nat :=
  ([.add, .addi, .addiu, .addu, .and, .andi, .beq, .bgezal, .bgez, .bgtz, .blez, .bltzal, .bltz,
    .bne, .div, .divu, .jal, .j, .jalr, .jr, .lb, .lbu, .lh, .lhu, .lui, .lw, .lwl, .lwr, .mfhi,
    .mflo, .mthi, .mtlo, .mult, .multu, .nor, .or, .ori, .sb, .sh, .sll, .sllv, .slt, .slti, .sltiu,
    .sltu, .sra, .srav, .srl, .srlv, .sub, .subu, .sw, .swl, .swr, .syscall, .xor, .xori, .res,
    .unimp] : List OpCode).map OpCode.number

private theorem number_mem_switchCases (opCode : OpCode) : opCode.number ∈ switchCases := by
  cases opCode <;> decide

private theorem number_lt_special (opCode : OpCode) : opCode.number < specialNumber := by
  cases opCode <;> decide

private theorem table_index_lt (value : Word) : ((value >>> 26) &&& 0x3f).toNat < opTable.length ∧
    (value &&& 0x3f).toNat < specialTable.length := by
  constructor
  · rw [BitVec.toNat_and]
    exact Nat.lt_of_le_of_lt Nat.and_le_right (by decide)
  · rw [BitVec.toNat_and]
    exact Nat.lt_of_le_of_lt Nat.and_le_right (by decide)

private theorem getD_map_of_lt {α β : Type} (f : α → β) {l : List α} {i : Nat} (h : i < l.length)
    (d : α) (d' : β) : (l.map f).getD i d' = f (l.getD i d) := by
  simp [List.getD, List.getElem?_eq_getElem h]

private theorem decode_number (value : Word) :
    (decode value).opCode.number = decodeNumber value := by
  obtain ⟨hop, hspecial⟩ := table_index_lt value
  unfold decode decodeNumber
  dsimp only
  rw [getD_map_of_lt OpInfo.number hop (.op .res .ifmt), getD_map_of_lt OpCode.number hspecial .res]
  cases opTable.getD ((value >>> 26) &&& 0x3f).toNat (.op .res .ifmt) with
  | op opCode format =>
    have hlt := number_lt_special opCode
    have hspecial : (OpInfo.op opCode format).number ≠ specialNumber := Nat.ne_of_lt hlt
    have hbcond : (OpInfo.op opCode format).number ≠ bcondNumber :=
      Nat.ne_of_lt (Nat.lt_trans hlt (by decide))
    rw [if_neg hspecial, if_neg hbcond]
    rfl
  | special => simp only [OpInfo.number, if_true]
  | bcond =>
    have hne : bcondNumber ≠ specialNumber := by decide
    simp only [OpInfo.number, if_neg hne, if_true]
    repeat' split
    all_goals rfl

/-! ## The instructions -/

theorem WellFormed.update {r : Nat → Word} (h : WellFormed r) {k : Nat} (hzero : k ≠ 0)
    (hload : k ≠ loadReg) (value : Word) : WellFormed (Function.update r k value) := by
  constructor
  case zero =>
    rw [Function.update_of_ne hzero.symm]
    exact h.zero
  case pending =>
    rw [Function.update_of_ne hload.symm]
    exact h.pending

private theorem wellFormed_delayedLoad (r : Nat → Word) {nextReg : Word} (h : nextReg.toNat < 32)
    (nextValue : Word) : WellFormed (Vm.delayedLoad r nextReg nextValue) := by
  constructor
  case zero => rw [delayedLoad_apply, if_pos rfl]
  case pending =>
    rw [delayedLoad_apply, if_neg (by decide), if_neg (by decide), if_pos rfl]
    exact h

private theorem WellFormed.delayedLoad_special {r : Nat → Word} (h : WellFormed r)
    (nextReg nextValue : Word) {k : Nat} (hk : 32 ≤ k) (hload : k ≠ loadReg)
    (hvalue : k ≠ loadValueReg) :
    Vm.delayedLoad r nextReg nextValue k = r k := by
  have hpending := h.pending
  rw [delayedLoad_apply, if_neg (by omega), if_neg hvalue, if_neg hload, if_neg (by omega)]

namespace Vm

variable {m m' : Vm}

private theorem wellFormed_raiseException (m : Vm) (badVAddr : Word) :
    WellFormed (m.raiseException badVAddr).registers :=
  wellFormed_delayedLoad _ (by decide) _

private theorem wellFormed_carryOut {i : Instruction} {e : Effect} (hwithin : e.Within i)
    (hrt : i.rt < 32) {access : Nat → MemoryAccess} {pcAfter : Word} {which : Option ExceptionType}
    (h : m.carryOut access pcAfter e = some (m', which)) : WellFormed m'.registers := by
  cases e with
  | write r value | hiLo hi lo | jump p | link r value p =>
    cases h
    exact wellFormed_advance _ (by decide) _ _
  | load addr size rt extend =>
    obtain ⟨⟨m₁, value⟩, -, h⟩ := Option.bind_eq_some_iff.mp h
    cases h
    obtain rfl : rt = i.rt := hwithin
    exact wellFormed_advance _ hrt _ _
  | mergeLoad addr rt merge =>
    obtain ⟨⟨m₁, value⟩, -, h⟩ := Option.bind_eq_some_iff.mp h
    cases h
    obtain rfl : rt = i.rt := hwithin
    exact wellFormed_advance _ hrt _ _
  | store addr size value =>
    obtain ⟨m₁, -, h⟩ := Option.bind_eq_some_iff.mp h
    cases h
    exact wellFormed_advance _ (by decide) _ _
  | mergeStore addr rt merge =>
    obtain ⟨⟨m₁, value⟩, -, h⟩ := Option.bind_eq_some_iff.mp h
    obtain ⟨m₂, -, h⟩ := Option.bind_eq_some_iff.mp h
    cases h
    exact wellFormed_advance _ (by decide) _ _
  | raise which badVAddr =>
    cases h
    exact wellFormed_raiseException m badVAddr
  | undefined => cases h

private theorem wellFormed_instruction {access : Nat → MemoryAccess} {which : Option ExceptionType}
    (h : m.instruction access = some (m', which)) : WellFormed m'.registers := by
  obtain ⟨⟨m₁, raw⟩, -, h⟩ := Option.bind_eq_some_iff.mp h
  exact wellFormed_carryOut (execute_within _ _) (decode_fields raw).2.1 h

/-! ## The system calls -/

private theorem wellFormed_writeReg (h : WellFormed m.registers) {k : Nat} (hzero : k ≠ 0)
    (hload : k ≠ loadReg) (value : Word) : WellFormed (m.writeReg k value).registers :=
  h.update hzero hload value

private theorem wellFormed_incrementPC (h : WellFormed m.registers) :
    WellFormed m.incrementPC.registers := by
  apply wellFormed_writeReg _ (by decide) (by decide)
  apply wellFormed_writeReg _ (by decide) (by decide)
  exact wellFormed_writeReg h (by decide) (by decide) _

private theorem wellFormed_returnPoint (h : WellFormed m.registers) :
    WellFormed m.returnPoint.registers := by
  apply wellFormed_writeReg _ (by decide) (by decide)
  apply wellFormed_writeReg _ (by decide) (by decide)
  exact wellFormed_writeReg h (by decide) (by decide) _

private theorem wellFormed_copyIn {vir : Nat → Int} {left turns : Nat} {buf : Word}
    {buffer buffer' : Nat → Byte} (h : WellFormed m.registers)
    (hcopy : copyIn vir left m buf buffer = some (m', turns, buffer')) :
    WellFormed m'.registers := by
  induction left generalizing m buf buffer with
  | zero => cases hcopy
  | succ left ih =>
    simp only [copyIn, Option.bind_eq_bind] at hcopy
    obtain ⟨⟨m₁, ch⟩, hread, hcopy⟩ := Option.bind_eq_some_iff.mp hcopy
    have hm₁ := wellFormed_readMem h hread
    split at hcopy
    · exact ih hm₁ hcopy
    · cases hcopy
      exact hm₁

private theorem wellFormed_syscall {host : HostSystem} {stack : Nat → Byte} {vir : Nat → Int}
    (h : WellFormed m.registers) (hcall : m.syscall host stack vir = some m') :
    WellFormed m'.registers := by
  have hreturn {n : Vm} (hn : WellFormed n.registers) (result : Word) :
      WellFormed (n.writeReg 2 result).incrementPC.registers :=
    wellFormed_incrementPC (wellFormed_writeReg hn (by decide) (by decide) result)
  unfold syscall at hcall
  dsimp only at hcall
  split at hcall
  next => cases hcall
  split at hcall
  next =>
    cases hcall
    exact wellFormed_returnPoint (wellFormed_writeReg h (by decide) (by decide) _)
  split at hcall
  next =>
    obtain ⟨⟨m₁, result⟩, hwrite, hcall⟩ := Option.bind_eq_some_iff.mp hcall
    obtain ⟨⟨m₂, turns, buffer⟩, hcopy, hwrite⟩ := Option.bind_eq_some_iff.mp hwrite
    cases hwrite
    cases hcall
    exact hreturn (wellFormed_copyIn h hcopy) _
  split at hcall
  next =>
    cases hcall
    exact hreturn h _
  split at hcall
  next =>
    cases hcall
    exact hreturn h _
  split at hcall
  next =>
    cases hcall
    exact hreturn h _
  next => cases hcall

/-- An instruction together with the exceptions it raises. `ExceptionHandler` returns from page
faults, inside of the accesses, and from system calls. -/
def turn (host : HostSystem) (stack : Nat → Byte) (vir callVir : Nat → Int) (m : Vm) : Option Vm :=
  match m.instruction fun n => memory (vir n) with
  | some (m', none) => some m'
  | some (m', some .syscall) => m'.syscall host stack callVir
  | _ => none

private theorem wellFormed_turn {host : HostSystem} {stack : Nat → Byte} {vir callVir : Nat → Int}
    (h : m.turn host stack vir callVir = some m') : WellFormed m'.registers := by
  unfold turn at h
  split at h
  next m₁ hrun =>
    cases h
    exact wellFormed_instruction hrun
  next m₁ hrun => exact wellFormed_syscall (wellFormed_instruction hrun) h
  next => cases h

end Vm

/-! ## Threads and address spaces -/

private theorem wellFormed_copyRegisters {r : Nat → Word} (h : WellFormed r) (target : Nat → Word) :
    WellFormed (copyRegisters r target) := by
  constructor
  case zero =>
    rw [copyRegisters, if_pos (by decide)]
    exact h.zero
  case pending =>
    rw [copyRegisters, if_pos (by decide)]
    exact h.pending

theorem wellFormed_initRegisters (m : Vm) (addrSpace : AddrSpace) :
    WellFormed (UserState.initRegisters m addrSpace) := by
  have hzero : WellFormed (copyRegisters (fun _ => 0) m.registers) :=
    wellFormed_copyRegisters ⟨rfl, by decide⟩ _
  exact (hzero.update (by decide) (by decide) 4).update (by decide) (by decide) _

/-- The machine and what is kept of it. `saved` are the address spaces for which `SaveState` has
been called; before that nothing has been stored into their registers. -/
structure Simulation where
  user : UserState
  saved : Nat → Bool

inductive SimLabel
  /-- `AddrSpace::Execute` of another program, with its `InitRegisters` -/
  | execute (a : Nat)
  | instruction (host : HostSystem) (stack : Nat → Byte) (vir callVir : Nat → Int)
  /-- `DelayedLoad` for a general register, as the code calls it -/
  | delayedLoad (nextReg nextValue : Word)
  | saveState (a : Nat)
  | restoreState (a : Nat)
  /-- `Scheduler::Run` -/
  | run (next : Nat) (finishing : Bool)

namespace Simulation

/-- `SaveState` stores all the registers of the address space. -/
def withSaved (s : Simulation) (user : UserState) (a : Nat) : Simulation :=
  { user := user, saved := Function.update s.saved a true }

/-- `Run` calls `SaveState` for the address space of the current thread. -/
def switchSaves (s : Simulation) : Nat → Bool :=
  match s.user.space s.user.currentThread with
  | some a => Function.update s.saved a true
  | none => s.saved

def withVm (s : Simulation) (vm : Vm) : Simulation := { s with user := { s.user with vm := vm } }

def step (s : Simulation) : SimLabel → Option Simulation
  | .execute a => do
    let user ← s.user.execute a
    some { s with user := user }
  | .instruction host stack vir callVir => do
    let vm ← s.user.vm.turn host stack vir callVir
    some (s.withVm vm)
  | .delayedLoad nextReg nextValue =>
    if nextReg.toNat < 32 then
      some (s.withVm { s.user.vm with
        registers := Vm.delayedLoad s.user.vm.registers nextReg nextValue })
    else none
  | .saveState a => some (s.withSaved (s.user.saveState a) a)
  | .restoreState a =>
    if s.saved a then do
      let addrSpace ← s.user.vm.spaces a
      some { s with user := s.user.restoreState a addrSpace }
    else none
  | .run next finishing => do
    let user ← s.user.run next finishing
    some { user := user, saved := s.switchSaves }

end Simulation

/-- All runs that begin with the `InitRegisters` of a program, on any machine, while no other
thread is inside `Scheduler::Run`. -/
def registerSystem : System Simulation SimLabel where
  init s := (∃ before a, before.suspended = (fun _ => none) ∧
      UserState.execute before a = some s.user) ∧ s.saved = fun _ => false
  step s l s' := s.step l = some s'

namespace Simulation

variable {s s' : Simulation}

/-- The registers of the machine and those that have been saved are well formed, and a thread
inside of `Run` has saved those of its address space. -/
structure Inv (s : Simulation) : Prop where
  machine : WellFormed s.user.vm.registers
  saved : ∀ a, s.saved a = true → WellFormed (s.user.sReg a)
  running : s.user.suspended s.user.currentThread = none
  suspended : ∀ v a, (s.user.suspended v).isSome = true → s.user.space v = some a →
    s.saved a = true

theorem Inv.withVm (h : s.Inv) {vm : Vm} (hvm : WellFormed vm.registers) : (s.withVm vm).Inv :=
  ⟨hvm, h.saved, h.running, h.suspended⟩

private theorem wellFormed_execute {u u' : UserState} {a : Nat} (h : u.execute a = some u') :
    WellFormed u'.vm.registers ∧ u'.suspended = u.suspended ∧
      u'.currentThread = u.currentThread ∧ u'.sReg = u.sReg ∧
      ∀ v, v ≠ u.currentThread → u'.space v = u.space v := by
  obtain ⟨addrSpace, -, h⟩ := Option.bind_eq_some_iff.mp h
  cases h
  exact ⟨wellFormed_initRegisters _ _, rfl, rfl, rfl, fun v hv => Function.update_of_ne hv _ _⟩

theorem Inv.init (h : registerSystem.init s) : s.Inv := by
  obtain ⟨⟨before, a, hnone, hexec⟩, hsaved⟩ := h
  obtain ⟨hwf, hsuspended, -⟩ := wellFormed_execute hexec
  constructor
  case machine => exact hwf
  case saved =>
    intro b hb
    rw [hsaved] at hb
    cases hb
  case running => rw [hsuspended, hnone]
  case suspended =>
    intro v b hv
    rw [hsuspended, hnone] at hv
    cases hv

theorem Inv.execute (h : s.Inv) {a : Nat} {user : UserState}
    (hexec : s.user.execute a = some user) : { s with user := user }.Inv := by
  obtain ⟨hwf, hsuspended, hcurrent, hreg, hspace⟩ := wellFormed_execute hexec
  constructor
  case machine => exact hwf
  case saved =>
    intro b hb
    show WellFormed (user.sReg b)
    rw [hreg]
    exact h.saved b hb
  case running =>
    show user.suspended user.currentThread = none
    rw [hsuspended, hcurrent]
    exact h.running
  case suspended =>
    intro v b (hv : (user.suspended v).isSome = true) (hb : user.space v = some b)
    rw [hsuspended] at hv
    have hne : v ≠ s.user.currentThread := by
      rintro rfl
      rw [h.running] at hv
      cases hv
    rw [hspace v hne] at hb
    exact h.suspended v b hv hb

theorem Inv.saveState (h : s.Inv) (a : Nat) : (s.withSaved (s.user.saveState a) a).Inv := by
  constructor
  case machine => exact h.machine
  case saved =>
    intro b hb
    show WellFormed (Function.update s.user.sReg a _ b)
    by_cases hba : b = a
    · rw [hba, Function.update_self]
      exact wellFormed_copyRegisters h.machine _
    · rw [Function.update_of_ne hba]
      have hold : Function.update s.saved a true b = true := hb
      rw [Function.update_of_ne hba] at hold
      exact h.saved b hold
  case running => exact h.running
  case suspended =>
    intro v b hv hb
    show Function.update s.saved a true b = true
    by_cases hba : b = a
    · rw [hba, Function.update_self]
    · rw [Function.update_of_ne hba]
      exact h.suspended v b hv hb

theorem Inv.restoreState (h : s.Inv) {a : Nat} (ha : s.saved a = true) (addrSpace : AddrSpace) :
    { s with user := s.user.restoreState a addrSpace }.Inv :=
  ⟨wellFormed_copyRegisters (h.saved a ha) _, h.saved, h.running, h.suspended⟩

private theorem switchSaves_self {a : Nat} (ha : s.user.space s.user.currentThread = some a) :
    s.switchSaves a = true := by
  rw [switchSaves, ha]
  exact Function.update_self _ _ _

private theorem switchSaves_other {a : Nat} (ha : s.user.space s.user.currentThread ≠ some a) :
    s.switchSaves a = s.saved a := by
  unfold switchSaves
  cases hb : s.user.space s.user.currentThread with
  | none => rfl
  | some b =>
    have hne : a ≠ b := fun h => ha (h ▸ hb)
    exact Function.update_of_ne hne _ _

/-- Before `SWITCH`, everything that has been saved is well formed. -/
theorem Inv.switchOut_saved (h : s.Inv) (finishing : Bool) {a : Nat}
    (ha : s.switchSaves a = true) : WellFormed ((s.user.switchOut finishing).sReg a) := by
  by_cases hcur : s.user.space s.user.currentThread = some a
  · constructor
    case zero =>
      rw [UserState.switchOut_sReg_self finishing hcur (by decide)]
      exact h.machine.zero
    case pending =>
      rw [UserState.switchOut_sReg_self finishing hcur (by decide)]
      exact h.machine.pending
  · rw [UserState.switchOut_sReg_other finishing hcur]
    rw [switchSaves_other hcur] at ha
    exact h.saved a ha

/-- A thread that waits behind `SWITCH` has saved the registers of its address space. -/
theorem Inv.switchOut_suspended (h : s.Inv) (finishing : Bool) {v a : Nat}
    (hv : ((s.user.switchOut finishing).suspended v).isSome = true)
    (ha : s.user.space v = some a) : s.switchSaves a = true := by
  by_cases hcur : s.user.space s.user.currentThread = some a
  · exact switchSaves_self hcur
  · have hne : v ≠ s.user.currentThread := fun heq => hcur (heq ▸ ha)
    rw [switchSaves_other hcur]
    rw [UserState.switchOut_suspended, if_neg hne] at hv
    exact h.suspended v a hv ha

theorem Inv.run (h : s.Inv) {next : Nat} {finishing : Bool} {user : UserState}
    (hrun : s.user.run next finishing = some user) :
    { user := user, saved := s.switchSaves : Simulation }.Inv := by
  obtain ⟨-, hcurrent, hspace, hreg, hsuspended⟩ := UserState.switchIn_keeps hrun
  constructor
  case machine =>
    show WellFormed user.vm.registers
    unfold UserState.run UserState.switchIn at hrun
    split at hrun
    next m a hv ha =>
      obtain ⟨addrSpace, -, hrun⟩ := Option.bind_eq_some_iff.mp hrun
      cases hrun
      rw [UserState.switchOut_space] at ha
      have hsaves := h.switchOut_suspended finishing (v := next) (by rw [hv]; rfl) ha
      exact wellFormed_copyRegisters (h.switchOut_saved finishing hsaves) _
    next =>
      cases hrun
      show WellFormed (s.user.switchOut finishing).vm.registers
      rw [UserState.switchOut_vm]
      exact h.machine
  case saved =>
    intro a ha
    show WellFormed (user.sReg a)
    rw [hreg]
    exact h.switchOut_saved finishing ha
  case running =>
    show user.suspended user.currentThread = none
    rw [hsuspended, hcurrent, Function.update_self]
  case suspended =>
    intro v a (hv : (user.suspended v).isSome = true) (ha : user.space v = some a)
    have hne : v ≠ next := by
      rintro rfl
      rw [hsuspended, Function.update_self] at hv
      cases hv
    rw [hsuspended, Function.update_of_ne hne] at hv
    rw [hspace, UserState.switchOut_space] at ha
    exact h.switchOut_suspended finishing hv ha

theorem Inv.step (h : s.Inv) {l : SimLabel} (hs : s.step l = some s') : s'.Inv := by
  cases l with
  | execute a =>
    obtain ⟨user, hexec, hs⟩ := Option.bind_eq_some_iff.mp hs
    cases hs
    exact h.execute hexec
  | instruction host stack vir callVir =>
    obtain ⟨vm, hturn, hs⟩ := Option.bind_eq_some_iff.mp hs
    cases hs
    exact h.withVm (Vm.wellFormed_turn hturn)
  | delayedLoad nextReg nextValue =>
    simp only [Simulation.step] at hs
    split at hs
    next hlt =>
      cases hs
      exact h.withVm (wellFormed_delayedLoad _ hlt _)
    next => cases hs
  | saveState a =>
    cases hs
    exact h.saveState a
  | restoreState a =>
    simp only [Simulation.step] at hs
    split at hs
    next ha =>
      obtain ⟨addrSpace, -, hs⟩ := Option.bind_eq_some_iff.mp hs
      cases hs
      exact h.restoreState ha addrSpace
    next => cases hs
  | run next finishing =>
    obtain ⟨user, hrun, hs⟩ := Option.bind_eq_some_iff.mp hs
    cases hs
    exact h.run hrun

theorem inv_inductive : registerSystem.Inductive Inv where
  init _ h := Inv.init h
  step _ _ _ h hs := h.step hs

end Simulation

/-- Every word decodes to general registers and an operation of the switch, and in every run
register 0 is zero and `DelayedLoad` finds the number of a general register, so the special
registers that it does not set itself are left alone. -/
theorem register_file_kept :
    (∀ value : Word, (decode value).rs < 32 ∧ (decode value).rt < 32 ∧ (decode value).rd < 32 ∧
      decodeNumber value ∈ switchCases ∧ (decode value).opCode.number = decodeNumber value) ∧
    ∀ s, registerSystem.Reachable s →
      s.user.vm.registers 0 = 0 ∧ (s.user.vm.registers loadReg).toNat < 32 ∧
      ∀ nextReg nextValue k, 32 ≤ k → k ≠ loadReg → k ≠ loadValueReg →
        Vm.delayedLoad s.user.vm.registers nextReg nextValue k = s.user.vm.registers k := by
  constructor
  · intro value
    obtain ⟨hrs, hrt, hrd⟩ := decode_fields value
    have hnumber := decode_number value
    refine ⟨hrs, hrt, hrd, ?_, hnumber⟩
    rw [← hnumber]
    exact number_mem_switchCases _
  · intro s hr
    have h := (Simulation.inv_inductive.of_reachable hr).machine
    exact ⟨h.zero, h.pending, fun r v _ hk hload hvalue => h.delayedLoad_special r v hk hload hvalue⟩

/-- Thread 0 before the execution of a program that begins with a load. -/
def loadingUser : UserState :=
  { vm := { loadProgram with
      spaces := fun _ => some { pageTable := 0, numPages := 1, fileAddr := fun _ => 0 } },
    currentThread := 0, space := fun _ => none, userRegisters := fun _ _ => 0,
    sReg := fun _ _ => 0xdeadbeef, suspended := fun _ => none }

/-- The load is pending when the thread is switched out, and again when it is back. -/
def loadAcrossSwitch : List SimLabel :=
  [.instruction (Vm.plainHost []) (fun _ => 0) (fun _ => 0) (fun _ => 0), .run 1 false,
    .delayedLoad 0 0, .run 0 false]

theorem register_file_kept_switch : ∃ s, registerSystem.Reachable s ∧
    s.user.vm.registers loadReg = 1 ∧ s.user.vm.registers loadValueReg = 7 ∧
    Vm.delayedLoad s.user.vm.registers 0 0 pcReg = 4 := by
  have hbegin : ((loadingUser.execute 0).bind fun user =>
      (loadAcrossSwitch.foldlM Simulation.step { user := user, saved := fun _ => false }).map fun s =>
        (s.user.vm.registers loadReg, s.user.vm.registers loadValueReg,
          s.user.vm.registers pcReg)) = some (1, 7, 4) := by
    decide +kernel
  obtain ⟨user, hexec, hrun⟩ := Option.bind_eq_some_iff.mp hbegin
  obtain ⟨s, hrun, hregs⟩ := Option.map_eq_some_iff.mp hrun
  simp only [Prod.mk.injEq] at hregs
  have hr : registerSystem.Reachable s :=
    .foldlM (fun _ _ _ h => h) loadAcrossSwitch (.init ⟨⟨loadingUser, 0, rfl, hexec⟩, rfl⟩) hrun
  obtain ⟨-, -, hspecial⟩ := register_file_kept.2 s hr
  refine ⟨s, hr, hregs.1, hregs.2.1, ?_⟩
  rw [hspecial 0 0 pcReg (by decide) (by decide) (by decide)]
  exact hregs.2.2

end Nachos

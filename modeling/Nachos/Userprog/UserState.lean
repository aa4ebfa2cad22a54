import Nachos.Userprog.AddrSpace

/-!
# The user registers across context switches

`Scheduler::Run` saves the registers of a user program twice, in the thread and in its address
space, and restores them in that order, so what a thread gets back is the copy of its address
space. The stack of a thread is not modelled: a thread inside `Run` carries the machine it was
switched out with, to be compared with the machine it gets back.
-/

namespace Nachos

open Framework

abbrev numTotalRegs : Nat := 40

abbrev stackReg : Nat := 29

/-- The loop over `NumTotalRegs` that copies one set of registers over another. -/
def copyRegisters (source target : Nat → Word) (i : Nat) : Word :=
  if i < numTotalRegs then source i else target i

/-- The machine and what `Run` keeps of the user programs. Threads and address spaces are
numbers; `suspended` is the machine at the switch for every thread inside `Run`. -/
structure UserState where
  vm : Vm
  currentThread : Nat
  space : Nat → Option Nat
  userRegisters : Nat → Nat → Word
  sReg : Nat → Nat → Word
  suspended : Nat → Option Vm

namespace UserState

/-- `Thread::SaveUserState`. -/
def saveUserState (s : UserState) (u : Nat) : UserState :=
  { s with userRegisters := Function.update s.userRegisters u
             (copyRegisters s.vm.registers (s.userRegisters u)) }

/-- `Thread::RestoreUserState`. -/
def restoreUserState (s : UserState) (u : Nat) : UserState :=
  { s with vm := { s.vm with registers := copyRegisters (s.userRegisters u) s.vm.registers } }

/-- `AddrSpace::SaveState`. -/
def saveState (s : UserState) (a : Nat) : UserState :=
  { s with sReg := Function.update s.sReg a (copyRegisters s.vm.registers (s.sReg a)) }

/-- `AddrSpace::RestoreState`. -/
def restoreState (s : UserState) (a : Nat) (addrSpace : AddrSpace) : UserState :=
  { s with vm := { s.vm.restoreState addrSpace with
                   registers := copyRegisters (s.sReg a) s.vm.registers } }

/-- `Scheduler::Run` up to `SWITCH`. A finishing thread never comes back. -/
def switchOut (s : UserState) (finishing : Bool) : UserState :=
  let old := s.currentThread
  let saved := match s.space old with
    | some a => (s.saveUserState old).saveState a
    | none => s
  { saved with suspended := Function.update s.suspended old
                 (if finishing then none else some s.vm) }

/-- `Scheduler::Run` from `SWITCH` on, in the thread that gets the processor. A thread that is
not inside `Run` begins its procedure instead. -/
def switchIn (s : UserState) (next : Nat) : Option UserState :=
  let s₁ := { s with currentThread := next, suspended := Function.update s.suspended next none }
  match s.suspended next, s.space next with
  | some _, some a => do
    let addrSpace ← s.vm.spaces a
    some ((s₁.restoreUserState next).restoreState a addrSpace)
  | _, _ => some s₁

/-- `Scheduler::Run`. -/
def run (s : UserState) (next : Nat) (finishing : Bool) : Option UserState :=
  (s.switchOut finishing).switchIn next

/-- `AddrSpace::InitRegisters`. -/
def initRegisters (m : Vm) (addrSpace : AddrSpace) : Nat → Word :=
  let r := copyRegisters (fun _ => 0) m.registers
  Function.update (Function.update r nextPCReg 4) stackReg
    (BitVec.ofInt 32 (addrSpace.numPages * pageSize - 16))

/-- `AddrSpace::Execute` up to the first instruction. -/
def execute (s : UserState) (a : Nat) : Option UserState := do
  let addrSpace ← s.vm.spaces a
  some { s with space := Function.update s.space s.currentThread (some a),
                vm := { s.vm.restoreState addrSpace with
                        registers := initRegisters s.vm addrSpace } }

end UserState

/-- What happens to the machine: the running thread changes it in any way, starts a program, or
gives up the processor. -/
inductive UserLabel
  | change (vm : Vm)
  | execute (a : Nat)
  | run (next : Nat) (finishing : Bool)

/-- All runs of threads with any space fields on any machine. The address spaces are objects of
the kernel: a change of the machine does not move them. -/
def userSystem : System UserState UserLabel where
  init s := s.suspended = fun _ => none
  step s l s' := match l with
    | .change vm => (∀ a addrSpace, s.vm.spaces a = some addrSpace →
        vm.spaces a = some addrSpace) ∧ s' = { s with vm := vm }
    | .execute a => s.execute a = some s'
    | .run next finishing => s.run next finishing = some s'

/-- The page-table registers of the machine are those of the address space. -/
structure Vm.Installed (m : Vm) (addrSpace : AddrSpace) : Prop where
  pageTable : m.pageTable = some addrSpace.pageTable
  pageTableSize : m.pageTableSize = addrSpace.numPages
  fileAddr : m.fileAddr = addrSpace.fileAddr

/-- The user part of the machine, all of its registers and the page-table registers, is what it
was in `m`. -/
structure Vm.SameUserState (m m' : Vm) : Prop where
  registers : ∀ i < numTotalRegs, m'.registers i = m.registers i
  pageTable : m'.pageTable = m.pageTable
  pageTableSize : m'.pageTableSize = m.pageTableSize
  fileAddr : m'.fileAddr = m.fileAddr

/-- A user thread is switched out while no other thread inside `Run` has its address space, and
with the page table of that space on the machine. -/
def UserState.Undisturbed (s : UserState) : UserLabel → Prop
  | .run _ _ => ∀ a, s.space s.currentThread = some a →
      (∀ v, v ≠ s.currentThread → (s.suspended v).isSome = true → s.space v ≠ some a) ∧
      ∃ addrSpace, s.vm.spaces a = some addrSpace ∧ s.vm.Installed addrSpace
  | _ => True

namespace UserState

variable {s s' : UserState}

/-- The copy in its address space is what a thread inside `Run` was switched out with. -/
structure Inv (s : UserState) : Prop where
  running : s.suspended s.currentThread = none
  saved : ∀ v m a, s.suspended v = some m → s.space v = some a →
    ∃ addrSpace, s.vm.spaces a = some addrSpace ∧ m.Installed addrSpace ∧
      ∀ i < numTotalRegs, s.sReg a i = m.registers i

@[simp] theorem switchOut_vm (finishing : Bool) : (s.switchOut finishing).vm = s.vm := by
  cases hsp : s.space s.currentThread with
  | none => simp only [switchOut, hsp]
  | some a => simp only [switchOut, hsp, saveState, saveUserState]

@[simp] theorem switchOut_space (finishing : Bool) :
    (s.switchOut finishing).space = s.space := by
  cases hsp : s.space s.currentThread with
  | none => simp only [switchOut, hsp]
  | some a => simp only [switchOut, hsp, saveState, saveUserState]

theorem switchOut_suspended (finishing : Bool) (v : Nat) :
    (s.switchOut finishing).suspended v =
      if v = s.currentThread then if finishing then none else some s.vm else s.suspended v := by
  unfold switchOut
  exact Function.update_apply _ _ _ _

theorem switchOut_sReg_other (finishing : Bool) {b : Nat}
    (hb : s.space s.currentThread ≠ some b) : (s.switchOut finishing).sReg b = s.sReg b := by
  cases hsp : s.space s.currentThread with
  | none => simp only [switchOut, hsp]
  | some a =>
    have hne : b ≠ a := fun h => hb (h ▸ hsp)
    simp only [switchOut, hsp, saveState, saveUserState, Function.update_of_ne hne]

theorem switchOut_sReg_self (finishing : Bool) {a i : Nat}
    (ha : s.space s.currentThread = some a) (hi : i < numTotalRegs) :
    (s.switchOut finishing).sReg a i = s.vm.registers i := by
  have hreg : (s.switchOut finishing).sReg a = copyRegisters s.vm.registers (s.sReg a) := by
    simp only [switchOut, ha, saveState, saveUserState, Function.update_self]
  rw [hreg, copyRegisters, if_pos hi]

theorem Inv.switchOut_saved (h : s.Inv) {next : Nat} {finishing : Bool}
    (hc : s.Undisturbed (.run next finishing)) {v a : Nat} {m : Vm}
    (hv : (s.switchOut finishing).suspended v = some m) (ha : s.space v = some a) :
    ∃ addrSpace, s.vm.spaces a = some addrSpace ∧ m.Installed addrSpace ∧
      ∀ i < numTotalRegs, (s.switchOut finishing).sReg a i = m.registers i := by
  rw [switchOut_suspended] at hv
  by_cases hcur : v = s.currentThread
  · subst hcur
    cases finishing with
    | true => simp at hv
    | false =>
      obtain rfl : s.vm = m := by simpa using hv
      obtain ⟨-, addrSpace, hspace, hinst⟩ := hc a ha
      exact ⟨addrSpace, hspace, hinst, fun i hi => switchOut_sReg_self false ha hi⟩
  · rw [if_neg hcur] at hv
    have hne : s.space s.currentThread ≠ some a := by
      intro hshare
      exact (hc a hshare).1 v hcur (by rw [hv]; rfl) ha
    rw [switchOut_sReg_other finishing hne]
    exact h.saved v m a hv ha

theorem switchIn_restored {next a : Nat} {m : Vm} {addrSpace : AddrSpace}
    (hsusp : s.suspended next = some m) (hspace : s.space next = some a)
    (haddr : s.vm.spaces a = some addrSpace) (hinst : m.Installed addrSpace)
    (hreg : ∀ i < numTotalRegs, s.sReg a i = m.registers i) (h : s.switchIn next = some s') :
    m.SameUserState s'.vm := by
  simp only [switchIn, hsusp, hspace, haddr, Option.bind_eq_bind, Option.bind_some,
    Option.some.injEq] at h
  subst h
  constructor
  · intro i hi
    show copyRegisters (s.sReg a) _ i = m.registers i
    rw [copyRegisters, if_pos hi]
    exact hreg i hi
  · exact hinst.pageTable.symm
  · exact hinst.pageTableSize.symm
  · exact hinst.fileAddr.symm

theorem switchIn_keeps {next : Nat} (h : s.switchIn next = some s') :
    s'.vm.spaces = s.vm.spaces ∧ s'.currentThread = next ∧ s'.space = s.space ∧
      s'.sReg = s.sReg ∧ s'.suspended = Function.update s.suspended next none := by
  unfold switchIn at h
  split at h
  · obtain ⟨addrSpace, -, h⟩ := Option.bind_eq_some_iff.mp h
    cases h
    exact ⟨rfl, rfl, rfl, rfl, rfl⟩
  · cases h
    exact ⟨rfl, rfl, rfl, rfl, rfl⟩

theorem Inv.run (h : s.Inv) {next : Nat} {finishing : Bool}
    (hc : s.Undisturbed (.run next finishing)) (hs : s.run next finishing = some s') :
    s'.Inv := by
  obtain ⟨hspaces, hcur, hspace, hreg, hsusp⟩ := switchIn_keeps hs
  constructor
  · rw [hsusp, hcur, Function.update_self]
  · intro v m a hv ha
    rw [hsusp] at hv
    have hne : v ≠ next := by
      intro heq
      rw [heq, Function.update_self] at hv
      contradiction
    rw [Function.update_of_ne hne] at hv
    rw [hspace, switchOut_space] at ha
    rw [hspaces, switchOut_vm, hreg]
    exact h.switchOut_saved hc hv ha

theorem Inv.execute (h : s.Inv) {a : Nat} (hs : s.execute a = some s') : s'.Inv := by
  obtain ⟨addrSpace, -, hs⟩ := Option.bind_eq_some_iff.mp hs
  cases hs
  constructor
  · exact h.running
  · intro v m b hv hb
    have hne : v ≠ s.currentThread := by
      intro heq
      have hnone := h.running
      rw [← heq] at hnone
      exact Option.some_ne_none m (hv.symm.trans hnone)
    have hb' : s.space v = some b := by
      rw [← hb]
      exact (Function.update_of_ne hne _ _).symm
    exact h.saved v m b hv hb'

theorem Inv.change (h : s.Inv) {vm : Vm}
    (hkeep : ∀ a addrSpace, s.vm.spaces a = some addrSpace → vm.spaces a = some addrSpace) :
    { s with vm := vm }.Inv := by
  constructor
  · exact h.running
  · intro v m a hv ha
    obtain ⟨addrSpace, hspace, hinst, hreg⟩ := h.saved v m a hv ha
    exact ⟨addrSpace, hkeep a addrSpace hspace, hinst, hreg⟩

theorem inv_inductive : (userSystem.restrict Undisturbed).Inductive Inv where
  init s hs := by
    have hnone : ∀ v, s.suspended v = none := fun v => congrFun hs v
    constructor
    · exact hnone _
    · intro v m a hv
      rw [hnone v] at hv
      contradiction
  step s l s' h hst := by
    obtain ⟨hc, hs⟩ := hst
    cases l with
    | change vm =>
      obtain ⟨hkeep, rfl⟩ := hs
      exact h.change hkeep
    | execute a => exact h.execute hs
    | run next finishing => exact h.run hc hs

end UserState

/-- In every run without a disturbed switch, a user thread that comes back from `Run` finds the
registers and the page table it was switched out with. -/
theorem user_state_survives {s s' : UserState}
    (hr : (userSystem.restrict UserState.Undisturbed).Reachable s) {next : Nat}
    {finishing : Bool}
    (hst : (userSystem.restrict UserState.Undisturbed).step s (.run next finishing) s')
    {m : Vm} (hsusp : (s.switchOut finishing).suspended next = some m)
    (huser : (s.space next).isSome = true) : m.SameUserState s'.vm := by
  have h := UserState.inv_inductive.of_reachable hr
  obtain ⟨hc, hs⟩ := hst
  obtain ⟨a, ha⟩ := Option.isSome_iff_exists.mp huser
  obtain ⟨addrSpace, hspace, hinst, hreg⟩ := h.switchOut_saved hc hsusp ha
  apply UserState.switchIn_restored hsusp _ _ hinst hreg hs
  · rw [UserState.switchOut_space, ha]
  · rw [UserState.switchOut_vm, hspace]

/-- A machine with address spaces of nine pages on which no program runs yet. -/
def idleMachine : UserState where
  vm := { Vm.new fun _ => none with
          spaces := fun a => some { pageTable := a, numPages := 9, fileAddr := fun _ => 0 } }
  currentThread := 0
  space := fun _ => none
  userRegisters := fun _ _ => 0
  sReg := fun _ _ => 0
  suspended := fun _ => none

def firstProgram : UserState := (idleMachine.execute 0).getD idleMachine

def secondThread : UserState := (firstProgram.run 1 false).getD firstProgram

/-- It executes space `a`. -/
def secondProgram (a : Nat) : UserState := (secondThread.execute a).getD secondThread

def registerSet (a : Nat) : UserState :=
  { secondProgram a with
    vm := { (secondProgram a).vm with
            registers := Function.update (secondProgram a).vm.registers 5 1 } }

private theorem registerSet_reachable (a : Nat) :
    (userSystem.restrict UserState.Undisturbed).Reachable (registerSet a) := by
  have hr₁ : (userSystem.restrict UserState.Undisturbed).Reachable firstProgram := by
    have hinit : (userSystem.restrict UserState.Undisturbed).init idleMachine := rfl
    exact .step (l := .execute 0) (.init hinit) ⟨trivial, rfl⟩
  have hc : firstProgram.Undisturbed (.run 1 false) := by
    intro b hb
    constructor
    · intro v _ hv
      exact absurd hv Bool.false_ne_true
    · obtain rfl : 0 = b := Option.some.inj hb
      exact ⟨_, rfl, rfl, rfl, rfl⟩
  have hr₂ : (userSystem.restrict UserState.Undisturbed).Reachable secondThread :=
    hr₁.step (l := .run 1 false) ⟨hc, rfl⟩
  have hr₃ : (userSystem.restrict UserState.Undisturbed).Reachable (secondProgram a) :=
    hr₂.step (l := .execute a) ⟨trivial, rfl⟩
  exact hr₃.step (l := .change (registerSet a).vm) ⟨trivial, fun _ _ h => h, rfl⟩

private theorem registerSet_suspended (a : Nat) :
    ((registerSet a).switchOut false).suspended 0 = some firstProgram.vm := rfl

/-- With an address space of its own, thread 0 comes back to its registers. -/
theorem user_state_survives_two :
    ∃ s', (registerSet 1).run 0 false = some s' ∧ firstProgram.vm.SameUserState s'.vm := by
  have hc : (registerSet 1).Undisturbed (.run 0 false) := by
    intro a ha
    obtain rfl : 1 = a := Option.some.inj ha
    constructor
    · intro v hv _ hspace
      have hother : (registerSet 1).space v = Function.update (fun _ => none) 0 (some 0) v :=
        Function.update_of_ne hv _ _
      rw [hother, Function.update_apply] at hspace
      split at hspace
      · exact absurd (Option.some.inj hspace) Nat.zero_ne_one
      · contradiction
    · exact ⟨_, rfl, rfl, rfl, rfl⟩
  exact ⟨_, rfl, user_state_survives (registerSet_reachable 1) ⟨hc, rfl⟩
    (registerSet_suspended 1) rfl⟩

/-- In the same address space it comes back to a register of the other thread. -/
theorem user_state_survives_shared :
    userSystem.Reachable (registerSet 0) ∧
      ((registerSet 0).switchOut false).suspended 0 = some firstProgram.vm ∧
      (registerSet 0).space 0 = some 0 ∧
      ∃ s', (registerSet 0).run 0 false = some s' ∧
        firstProgram.vm.registers 5 = 0 ∧ s'.vm.registers 5 = 1 := by
  refine ⟨(registerSet_reachable 0).of_restrict, registerSet_suspended 0, rfl, ?_⟩
  exact ⟨_, rfl, rfl, rfl⟩

end Nachos

import Nachos.Framework.X86
import Nachos.Framework.Run
import Nachos.Machine.Machine

/-!
# The context switch

`SWITCH` and `ThreadRoot` of `switch.s` for the x86, instruction by instruction, with the
thread objects they read and write and the first stack frame that `StackAllocate` builds. Each
thread leaves the CPU inside a call of `SWITCH`. Whatever the threads do to memory in between,
short of writing the words a suspended thread comes back through, each call returns with every
register as it was.
-/

namespace Nachos

open Framework Framework.X86

/-! ## The offsets of switch.h -/

/-- `_ESP`, `_EAX` to `_EDI`. -/
def regOffset : Reg → Word
  | .esp => 0
  | .eax => 4
  | .ebx => 8
  | .ecx => 12
  | .edx => 16
  | .ebp => 20
  | .esi => 24
  | .edi => 28

/-- `_PC`. -/
def pcOffset : Word := 32

def pcState : Nat := 32 / 4 - 1

def initialPCState : Nat := 24 / 4 - 1

def initialArgState : Nat := 16 / 4 - 1

def whenDonePCState : Nat := 28 / 4 - 1

def startupPCState : Nat := 12 / 4 - 1

def initialPC : Operand := .reg .esi

def initialArg : Operand := .reg .edx

def whenDonePC : Operand := .reg .edi

def startupPC : Operand := .reg .ecx

/-! ## The routines of switch.s -/

/-- From the entry of `SWITCH` to the load of the pointer to `t2`. -/
def switchSave (eaxSave : Word) : List Instr := [
  .movl (.reg .eax) (.abs eaxSave),
  .movl (.disp 4 .esp) (.reg .eax),
  .movl (.reg .ebx) (.disp (regOffset .ebx) .eax),
  .movl (.reg .ecx) (.disp (regOffset .ecx) .eax),
  .movl (.reg .edx) (.disp (regOffset .edx) .eax),
  .movl (.reg .esi) (.disp (regOffset .esi) .eax),
  .movl (.reg .edi) (.disp (regOffset .edi) .eax),
  .movl (.reg .ebp) (.disp (regOffset .ebp) .eax),
  .movl (.reg .esp) (.disp (regOffset .esp) .eax),
  .movl (.abs eaxSave) (.reg .ebx),
  .movl (.reg .ebx) (.disp (regOffset .eax) .eax),
  .movl (.disp 0 .esp) (.reg .ebx),
  .movl (.reg .ebx) (.disp pcOffset .eax)]

/-- From the load of the pointer to `t2` to the return. -/
def switchRestore (eaxSave : Word) : List Instr := [
  .movl (.disp 8 .esp) (.reg .eax),
  .movl (.disp (regOffset .eax) .eax) (.reg .ebx),
  .movl (.reg .ebx) (.abs eaxSave),
  .movl (.disp (regOffset .ebx) .eax) (.reg .ebx),
  .movl (.disp (regOffset .ecx) .eax) (.reg .ecx),
  .movl (.disp (regOffset .edx) .eax) (.reg .edx),
  .movl (.disp (regOffset .esi) .eax) (.reg .esi),
  .movl (.disp (regOffset .edi) .eax) (.reg .edi),
  .movl (.disp (regOffset .ebp) .eax) (.reg .ebp),
  .movl (.disp (regOffset .esp) .eax) (.reg .esp),
  .movl (.disp pcOffset .eax) (.reg .eax),
  -- the return address goes over the first argument of the call that is resumed
  .movl (.reg .eax) (.disp 4 .esp),
  .movl (.abs eaxSave) (.reg .eax)]

def switchCode (eaxSave : Word) : List Instr := switchSave eaxSave ++ switchRestore eaxSave ++ [.ret]

def threadRootCode : List Instr := [
  .pushl (.reg .ebp),
  .movl (.reg .esp) (.reg .ebp),
  .pushl initialArg,
  .call startupPC,
  .call initialPC,
  .call whenDonePC,
  .movl (.reg .ebp) (.reg .esp),
  .popl (.reg .ebp),
  .ret]

/-- The text of the program, with the addresses of the routines and of the variable `_eax_save`. -/
structure Text where
  code : X86.Code
  switch : Word
  threadRoot : Word
  threadBegin : Word
  threadFinish : Word
  eaxSave : Word

structure Text.Linked (x : Text) : Prop where
  switch : ∃ a, Placed x.code x.switch (switchCode x.eaxSave) a
  threadRoot : ∃ a, Placed x.code x.threadRoot threadRootCode a

/-! ## Threads -/

/-- In words. -/
def stackSize : Nat := 8 * 1024

def stackFencepost : Word := 0xdedbeef

def machineStateSize : Nat := 75

/-- The part of a thread object up to its member `stack`. -/
def threadBytes : Nat := 4 + 4 * machineStateSize + 4 + 4

def stackOffset : Word := BitVec.ofNat 32 (4 + 4 * machineStateSize + 4)

/-- The address of an element of `machineState`. -/
def machineState (thread : Word) (i : Nat) : Word := thread + BitVec.ofNat 32 (4 + 4 * i)

/-- `stack + StackSize - 4`. -/
def firstStackTop (stack : Word) : Word := stack + BitVec.ofNat 32 (4 * (stackSize - 4))

/-- The stores of `Thread::StackAllocate`, once `AllocBoundedArray` has given it the stack. -/
def stackAllocate (x : Text) (mem : ByteMemory 32) (thread stack func arg : Word) : ByteMemory 32 :=
  let stackTop := firstStackTop stack - 4
  let mem := store mem (thread + stackOffset) stack
  let mem := store mem (thread + regOffset .esp) stackTop
  let mem := store mem stackTop x.threadRoot
  let mem := store mem stack stackFencepost
  let mem := store mem (machineState thread pcState) x.threadRoot
  let mem := store mem (machineState thread startupPCState) x.threadBegin
  let mem := store mem (machineState thread initialPCState) func
  let mem := store mem (machineState thread initialArgState) arg
  store mem (machineState thread whenDonePCState) x.threadFinish

/-- How a thread that is not running left the CPU: in a call of `SWITCH`, entered with the CPU in
this state, or never, since it was forked. -/
inductive Suspension
  | called (cpu : X86.State)
  | forked (stack func arg : Word)

/-- The registers and the address with which a suspended thread comes back to the CPU. -/
def Suspension.Resumes (x : Text) (reg : Reg → Word) (eip : Word) : Suspension → Prop
  | .called cpu =>
      reg = Function.update cpu.reg .esp (cpu.reg .esp + 4) ∧ eip = load cpu.mem (cpu.reg .esp)
  | .forked stack func arg =>
      eip = x.threadRoot ∧ reg .ecx = x.threadBegin ∧ reg .esi = func ∧ reg .edx = arg ∧
        reg .edi = x.threadFinish ∧ reg .esp = firstStackTop stack

/-- The span of memory that was set aside for a thread's stack. -/
structure StackSpan where
  base : Word
  bytes : Nat

structure Switching where
  cpu : X86.State
  running : Word
  stackOf : Word → Option StackSpan
  suspended : Word → Option Suspension

inductive SwitchLabel
  /-- the code of the running thread has taken the CPU to another state -/
  | compute (cpu : X86.State)
  | fork (thread stack func arg : Word)
  | switch (next : Word)
  | delete (thread : Word)

namespace Switching

/-- What `SWITCH` reads of a suspended thread: the first fields of its object and the top of its
stack. -/
def area (mem : ByteMemory 32) (t : Word) : Set Word :=
  span t 36 ∪ span (load mem (t + regOffset .esp)) 8

def footprint (t : Word) (stack : StackSpan) : Set Word :=
  span t threadBytes ∪ span stack.base stack.bytes

/-- The thread object and the stack share no byte with one another, with those of another thread,
or with `_eax_save`. -/
structure Fresh (x : Text) (s : Switching) (t : Word) (stack : StackSpan) : Prop where
  new : s.stackOf t = none
  own : Disjoint (span t threadBytes) (span stack.base stack.bytes)
  others : ∀ u st, s.stackOf u = some st → Disjoint (footprint t stack) (footprint u st)
  eaxSave : Disjoint (footprint t stack) (span x.eaxSave 4)

/-- The running thread is at the entry of `SWITCH (running, next)`, with its stack pointer inside
its stack. -/
structure Calls (x : Text) (s : Switching) (next : Word) : Prop where
  eip : s.cpu.eip = x.switch
  oldThread : load s.cpu.mem (s.cpu.reg .esp + 4) = s.running
  nextThread : load s.cpu.mem (s.cpu.reg .esp + 8) = next
  stack : ∃ st, s.stackOf s.running = some st ∧
    span (s.cpu.reg .esp) 12 ⊆ span st.base st.bytes
  next : next = s.running ∨ (s.suspended next).isSome

/-- The suspended threads once the running one has entered `SWITCH`. -/
def suspend (s : Switching) : Word → Option Suspension :=
  Function.update s.suspended s.running (some (.called s.cpu))

/-- The number of instructions of `SWITCH`. -/
def switchLength : Nat := 27

inductive Step (x : Text) (s : Switching) : SwitchLabel → Switching → Prop
  | compute {cpu : X86.State}
      (h : ∀ t, (s.suspended t).isSome → Set.EqOn cpu.mem s.cpu.mem (area s.cpu.mem t)) :
      Step x s (.compute cpu) { s with cpu := cpu }
  | fork {t stack func arg : Word} (h : Fresh x s t ⟨stack, 4 * stackSize⟩) :
      Step x s (.fork t stack func arg)
        { s with
          cpu.mem := stackAllocate x s.cpu.mem t stack func arg
          stackOf := Function.update s.stackOf t (some ⟨stack, 4 * stackSize⟩)
          suspended := Function.update s.suspended t (some (.forked stack func arg)) }
  | switch {next : Word} {cpu : X86.State} (h : Calls x s next)
      (hrun : steps x.code switchLength s.cpu = some cpu) :
      Step x s (.switch next)
        { s with
          cpu := cpu
          running := next
          suspended := Function.update s.suspend next none }
  | delete {t : Word} (h : t ≠ s.running) :
      Step x s (.delete t)
        { s with
          stackOf := Function.update s.stackOf t none
          suspended := Function.update s.suspended t none }

end Switching

/-- At the start the main thread runs alone, on a stack that Nachos did not allocate. -/
def switchSystem (x : Text) : System Switching SwitchLabel where
  init s := (∃ st, s.stackOf = Function.update (fun _ => none) s.running (some st) ∧
      Disjoint (span s.running threadBytes) (span st.base st.bytes) ∧
      Disjoint (Switching.footprint s.running st) (span x.eaxSave 4)) ∧
    s.suspended = fun _ => none
  step := Switching.Step x

/-! ## The two halves of SWITCH -/

section Halves

variable {eaxSave t : Word} {s : X86.State}

/-- The registers that are stored straight into the object of the old thread. -/
def storedRegs : List Reg := [.ebx, .ecx, .edx, .esi, .edi, .ebp, .esp]

private theorem storedRegs_fields : Fields regOffset 36 storedRegs where
  inside := by decide
  apart := by decide
  bound := by decide

private theorem regFields :
    Fields regOffset 32 [.eax, .ebx, .ecx, .edx, .esi, .edi, .ebp, .esp] where
  inside := by decide
  apart := by decide
  bound := by decide

private theorem regOffset_disjoint {r q : Reg} (h : r ≠ q) (t : Word) :
    Disjoint (span (t + regOffset r) 4) (span (t + regOffset q) 4) :=
  regFields.disjoint (by cases r <;> decide) (by cases q <;> decide) h t

private theorem pcOffset_disjoint (r : Reg) (t : Word) :
    Disjoint (span (t + regOffset r) 4) (span (t + pcOffset) 4) :=
  span_disjoint (by cases r <;> decide) (by decide)

private theorem regOffset_subset (r : Reg) (t : Word) : span (t + regOffset r) 4 ⊆ span t 36 :=
  span_subset (by cases r <;> decide)

private theorem switchSave_eq : switchSave eaxSave =
    [.movl (.reg .eax) (.abs eaxSave), .movl (.disp 4 .esp) (.reg .eax)] ++
      (saveRegs regOffset .eax storedRegs ++
        [.movl (.abs eaxSave) (.reg .ebx), .movl (.reg .ebx) (.disp (regOffset .eax) .eax),
          .movl (.disp 0 .esp) (.reg .ebx), .movl (.reg .ebx) (.disp pcOffset .eax)]) := rfl

private theorem switchRestore_eq : switchRestore eaxSave =
    [.movl (.disp 8 .esp) (.reg .eax), .movl (.disp (regOffset .eax) .eax) (.reg .ebx),
        .movl (.reg .ebx) (.abs eaxSave)] ++
      (loadRegs regOffset .eax storedRegs ++
        ([.movl (.disp pcOffset .eax) (.reg .eax), .movl (.reg .eax) (.disp 4 .esp)] ++
          [.movl (.abs eaxSave) (.reg .eax)])) := rfl

private theorem block_load_eax (s : X86.State) :
    s.block [.movl (.abs eaxSave) (.reg .eax)] = s.set .eax (load s.mem eaxSave) := rfl

/-- The words of the call and the object of the old thread are apart from `_eax_save` and from one
another. -/
structure SaveApart (eaxSave t esp : Word) : Prop where
  object : Disjoint (span t 36) (span eaxSave 4)
  frame : Disjoint (span esp 12) (span eaxSave 4)
  own : Disjoint (span t 36) (span esp 12)

/-- The fields of the old thread's object hold its registers, and the rest of memory is as it
was. -/
private theorem switchSave_spec (h : SaveApart eaxSave t (s.reg .esp))
    (ht : load s.mem (s.reg .esp + 4) = t) :
    (s.block (switchSave eaxSave)).reg .esp = s.reg .esp ∧
      (∀ r, load (s.block (switchSave eaxSave)).mem (t + regOffset r) = s.reg r) ∧
      Set.EqOn (s.block (switchSave eaxSave)).mem s.mem (span t 36 ∪ span eaxSave 4)ᶜ := by
  -- up to the load of `t1`
  let s₁ := s.block [.movl (.reg .eax) (.abs eaxSave), .movl (.disp 4 .esp) (.reg .eax)]
  have hmem₁ : s₁.mem = store s.mem eaxSave (s.reg .eax) := rfl
  have heax₁ : s₁.reg .eax = t := by
    rw [← ht]
    exact load_store_of_disjoint (h.frame.mono_left (span_subset (by decide))).symm
  have hreg₁ : ∀ r, r ≠ .eax → s₁.reg r = s.reg r := fun r hr => Function.update_of_ne hr _ _
  -- the seven registers
  let s₂ := s₁.block (saveRegs regOffset .eax storedRegs)
  have hreg₂ : s₂.reg = s₁.reg := (s₁.block_saveRegs_reg).1
  have hfields₂ : ∀ r, r ∈ storedRegs → load s₂.mem (t + regOffset r) = s.reg r := by
    intro r hr
    rw [← heax₁, s₁.load_block_saveRegs storedRegs_fields hr]
    exact hreg₁ r (by rintro rfl; exact absurd hr (by decide))
  have heq₂ : Set.EqOn s₂.mem s₁.mem (span t 36)ᶜ :=
    heax₁ ▸ s₁.block_saveRegs_eqOn storedRegs_fields
  have hsaved₂ : load s₂.mem eaxSave = s.reg .eax := by
    rw [load_congr (heq₂.mono (Set.subset_compl_iff_disjoint_left.mpr h.object)), hmem₁,
      load_store_self]
  -- `eax` itself, and the return address
  let s₃ := s₂.block [.movl (.abs eaxSave) (.reg .ebx),
    .movl (.reg .ebx) (.disp (regOffset .eax) .eax), .movl (.disp 0 .esp) (.reg .ebx),
    .movl (.reg .ebx) (.disp pcOffset .eax)]
  have hs₃ : s.block (switchSave eaxSave) = s₃ := by
    rw [switchSave_eq, State.block_append, State.block_append]
  have hesp : s₃.reg .esp = s.reg .esp := (congrFun hreg₂ .esp).trans (hreg₁ .esp (by decide))
  have hmem₃ : ∃ v, s₃.mem =
      store (store s₂.mem (t + regOffset .eax) (s.reg .eax)) (t + pcOffset) v := by
    have heax₂ : s₂.reg .eax = t := (congrFun hreg₂ .eax).trans heax₁
    rw [← hsaved₂, ← heax₂]
    exact ⟨_, rfl⟩
  obtain ⟨v, hmem₃⟩ := hmem₃
  rw [hs₃]
  refine ⟨hesp, fun r => ?_, ?_⟩
  · rw [hmem₃, load_store_of_disjoint (pcOffset_disjoint r t).symm]
    by_cases hr : r = .eax
    · rw [hr, load_store_self]
    · have hin : r ∈ storedRegs := by
        revert hr
        cases r <;> decide
      rw [load_store_of_disjoint (regOffset_disjoint (Ne.symm hr) t), hfields₂ r hin]
  · have hobject : ∀ c : Word, c.toNat + 4 ≤ 36 → ∀ (mem : ByteMemory 32) (v : Word),
        Set.EqOn (store mem (t + c) v) mem (span t 36)ᶜ := by
      intro c hc mem v
      exact store_eqOn (Set.disjoint_compl_right_iff_subset.mpr (span_subset hc))
    have hleft : (span t 36 ∪ span eaxSave 4)ᶜ ⊆ (span t 36)ᶜ :=
      Set.compl_subset_compl.mpr Set.subset_union_left
    have hright : (span t 36 ∪ span eaxSave 4)ᶜ ⊆ (span eaxSave 4)ᶜ :=
      Set.compl_subset_compl.mpr Set.subset_union_right
    have heq₁ : Set.EqOn s₁.mem s.mem (span eaxSave 4)ᶜ := store_eqOn disjoint_compl_right
    rw [hmem₃]
    exact ((hobject pcOffset (by decide) _ _).trans
      ((hobject (regOffset .eax) (by decide) _ _).trans heq₂)).mono hleft |>.trans (heq₁.mono hright)

/-- Every register comes from the object of the new thread; the word at the top of its stack is
left alone. -/
private theorem switchRestore_spec {top : Word} (ht : load s.mem (s.reg .esp + 8) = t)
    (hobject : Disjoint (span t 36) (span eaxSave 4)) (htop : load s.mem (t + regOffset .esp) = top)
    (hframe : Disjoint (span top 8) (span eaxSave 4)) :
    (∀ r, (s.block (switchRestore eaxSave)).reg r = load s.mem (t + regOffset r)) ∧
      load (s.block (switchRestore eaxSave)).mem top = load s.mem top ∧
      Set.EqOn (s.block (switchRestore eaxSave)).mem s.mem
        (span eaxSave 4 ∪ span (top + 4) 4)ᶜ := by
  have hfield : ∀ (r : Reg) (v : Word),
      load (store s.mem eaxSave v) (t + regOffset r) = load s.mem (t + regOffset r) := by
    intro r v
    exact load_store_of_disjoint (hobject.mono_left (regOffset_subset r t)).symm
  have hslot : Disjoint (span (top + 4) 4) (span eaxSave 4) :=
    hframe.mono_left (span_subset (by decide))
  -- `_eax_save` takes the new `eax`
  let s₁ := s.block [.movl (.disp 8 .esp) (.reg .eax), .movl (.disp (regOffset .eax) .eax) (.reg .ebx),
    .movl (.reg .ebx) (.abs eaxSave)]
  have heax₁ : s₁.reg .eax = t := ht
  have hmem₁ : s₁.mem = store s.mem eaxSave (load s.mem (t + regOffset .eax)) := by
    rw [← ht]
    rfl
  -- the seven registers
  let s₂ := s₁.block (loadRegs regOffset .eax storedRegs)
  have hload : s₂.mem = s₁.mem ∧ s₂.eip = s₁.eip ∧ ∀ r, s₂.reg r =
      if r ∈ storedRegs then load s₁.mem (s₁.reg .eax + regOffset r) else s₁.reg r :=
    State.block_loadRegs (by decide) (by decide) s₁
  obtain ⟨hmem₂, -, hregs₂⟩ := hload
  have hreg₂ : ∀ r, r ≠ .eax → s₂.reg r = load s.mem (t + regOffset r) := by
    intro r hr
    have hin : r ∈ storedRegs := by
      revert hr
      cases r <;> decide
    refine (hregs₂ r).trans ?_
    rw [if_pos hin, heax₁, hmem₁, hfield]
  -- the argument slot, and `eax`
  let s₃ := s₂.block [.movl (.disp pcOffset .eax) (.reg .eax), .movl (.reg .eax) (.disp 4 .esp)]
  have hs₃ : s.block (switchRestore eaxSave) = s₃.set .eax (load s₃.mem eaxSave) := by
    rw [switchRestore_eq, State.block_append, State.block_append, State.block_append, block_load_eax]
  have hmem₃ : ∃ v, s₃.mem = store s₁.mem (top + 4) v := by
    have hesp : s₂.reg .esp = top := (hreg₂ .esp (by decide)).trans htop
    refine ⟨load s₂.mem (s₂.reg .eax + pcOffset), ?_⟩
    rw [← hesp, ← hmem₂]
    rfl
  obtain ⟨v, hmem₃⟩ := hmem₃
  rw [hs₃]
  refine ⟨fun r => ?_, ?_, ?_⟩
  · by_cases hr : r = .eax
    · subst hr
      rw [State.set_reg_self, hmem₃, load_store_of_disjoint hslot, hmem₁, load_store_self]
    · have hslotted : s₃.reg r = s₂.reg r := Function.update_of_ne hr _ _
      rw [State.set_reg_of_ne _ _ hr, hslotted, hreg₂ r hr]
  · have happart : Disjoint (span top 4) (span (top + 4) 4) :=
      span_disjoint_add (by decide) (by decide)
    have hfirst : Disjoint (span top 4) (span eaxSave 4) :=
      hframe.mono_left (span_mono (by decide))
    rw [State.set_mem, hmem₃, load_store_of_disjoint happart.symm, hmem₁, load_store_of_disjoint hfirst.symm]
  · have hfirst : Set.EqOn s₁.mem s.mem (span eaxSave 4)ᶜ := by
      rw [hmem₁]
      exact store_eqOn disjoint_compl_right
    have hsecond : Set.EqOn s₃.mem s₁.mem (span (top + 4) 4)ᶜ := by
      rw [hmem₃]
      exact store_eqOn disjoint_compl_right
    rw [State.set_mem, Set.compl_union]
    exact (hsecond.mono Set.inter_subset_right).trans (hfirst.mono Set.inter_subset_left)

end Halves

/-! ## What memory holds of a suspended thread -/

namespace Switching

variable {x : Text} {s s' : Switching} {mem mem' : ByteMemory 32} {t next : Word} {st : StackSpan}
  {y : Suspension}

/-- The registers a thread gets back: the stack pointer is past the return address. -/
def restoredReg (mem : ByteMemory 32) (t : Word) : Reg → Word :=
  Function.update (fun r => load mem (t + regOffset r)) .esp (load mem (t + regOffset .esp) + 4)

def returnAddress (mem : ByteMemory 32) (t : Word) : Word := load mem (load mem (t + regOffset .esp))

structure Saved (x : Text) (mem : ByteMemory 32) (t : Word) (st : StackSpan) (y : Suspension) :
    Prop where
  inStack : span (load mem (t + regOffset .esp)) 8 ⊆ span st.base st.bytes
  resumes : y.Resumes x (restoredReg mem t) (returnAddress mem t)

private theorem Saved.area_subset (h : Saved x mem t st y) : area mem t ⊆ footprint t st :=
  Set.union_subset_union (span_mono (by decide)) h.inStack

/-- The bytes that `SWITCH` reads decide what it restores. -/
theorem Saved.congr (h : Saved x mem t st y) (heq : Set.EqOn mem' mem (area mem t)) :
    Saved x mem' t st y := by
  have hfield : ∀ r, load mem' (t + regOffset r) = load mem (t + regOffset r) := by
    intro r
    exact load_congr (heq.mono ((regOffset_subset r t).trans Set.subset_union_left))
  have hreturn : returnAddress mem' t = returnAddress mem t := by
    unfold returnAddress
    rw [hfield]
    exact load_congr (heq.mono ((span_mono (by decide)).trans Set.subset_union_right))
  have hreg : restoredReg mem' t = restoredReg mem t := by
    unfold restoredReg
    rw [hfield, funext hfield]
  refine ⟨?_, ?_⟩
  · rw [hfield]
    exact h.inStack
  · rw [hreg, hreturn]
    exact h.resumes

/-- Where the objects and stacks of the live threads are, and what each suspended one has saved. -/
structure Inv (x : Text) (s : Switching) : Prop where
  live : ∃ st, s.stackOf s.running = some st
  own : ∀ t st, s.stackOf t = some st → Disjoint (span t threadBytes) (span st.base st.bytes)
  apart : ∀ t u st st', s.stackOf t = some st → s.stackOf u = some st' → t ≠ u →
    Disjoint (footprint t st) (footprint u st')
  eaxSave : ∀ t st, s.stackOf t = some st → Disjoint (footprint t st) (span x.eaxSave 4)
  saved : ∀ t y, s.suspended t = some y →
    t ≠ s.running ∧ ∃ st, s.stackOf t = some st ∧ Saved x s.cpu.mem t st y

private theorem Inv.compute (h : Inv x s) {cpu : X86.State}
    (hcpu : ∀ t, (s.suspended t).isSome → Set.EqOn cpu.mem s.cpu.mem (area s.cpu.mem t)) :
    Inv x { s with cpu := cpu } := by
  refine ⟨h.live, h.own, h.apart, h.eaxSave, fun t y ht => ?_⟩
  obtain ⟨hne, st, hst, hsaved⟩ := h.saved t y ht
  exact ⟨hne, st, hst, hsaved.congr (hcpu t (Option.isSome_of_mem ht))⟩

/-! ## Fork and delete -/

private theorem firstStackTop_sub (stack : Word) : firstStackTop stack - 4 = stack + 32748 := by
  unfold firstStackTop stackSize
  grind

private theorem stackAllocate_eq (x : Text) (mem : ByteMemory 32) (t stack func arg : Word) :
    stackAllocate x mem t stack func arg = storeAll mem [(t + stackOffset, stack),
      (t + regOffset .esp, stack + 32748), (stack + 32748, x.threadRoot), (stack, stackFencepost),
      (t + pcOffset, x.threadRoot), (t + regOffset .ecx, x.threadBegin), (t + regOffset .esi, func),
      (t + regOffset .edx, arg), (t + regOffset .edi, x.threadFinish)] := by
  unfold stackAllocate
  simp only [firstStackTop_sub]
  rfl

private theorem stackAllocate_eqOn (x : Text) (mem : ByteMemory 32) (t stack func arg : Word) :
    Set.EqOn (stackAllocate x mem t stack func arg) mem (footprint t ⟨stack, 4 * stackSize⟩)ᶜ := by
  have hobject : ∀ c : Word, c.toNat + 4 ≤ threadBytes →
      Disjoint (span (t + c) 4) (footprint t ⟨stack, 4 * stackSize⟩)ᶜ := by
    intro c hc
    exact Set.disjoint_compl_right_iff_subset.mpr ((span_subset hc).trans Set.subset_union_left)
  have htop : Disjoint (span (stack + 32748) 4) (footprint t ⟨stack, 4 * stackSize⟩)ᶜ :=
    Set.disjoint_compl_right_iff_subset.mpr
      ((span_subset (n := 4 * stackSize) (by decide)).trans Set.subset_union_right)
  have hbase : Disjoint (span stack 4) (footprint t ⟨stack, 4 * stackSize⟩)ᶜ :=
    Set.disjoint_compl_right_iff_subset.mpr
      ((span_mono (m := 4 * stackSize) (by decide)).trans Set.subset_union_right)
  rw [stackAllocate_eq]
  apply storeAll_eqOn
  simp only [List.forall_mem_cons, List.not_mem_nil, false_implies, implies_true, and_true]
  exact ⟨hobject _ (by decide), hobject _ (by decide), htop, hbase, hobject _ (by decide),
    hobject _ (by decide), hobject _ (by decide), hobject _ (by decide), hobject _ (by decide)⟩

private theorem stackAllocate_saved (x : Text) (mem : ByteMemory 32) {t stack : Word}
    (func arg : Word) (h : Disjoint (span t threadBytes) (span stack (4 * stackSize))) :
    Saved x (stackAllocate x mem t stack func arg) t ⟨stack, 4 * stackSize⟩
      (.forked stack func arg) := by
  have hstack : ∀ c : Word, c.toNat + 4 ≤ threadBytes →
      Disjoint (span (t + c) 4) (span stack 4) := by
    intro c hc
    exact h.mono (span_subset hc) (span_mono (by decide))
  have htop : ∀ c : Word, c.toNat + 4 ≤ threadBytes →
      Disjoint (span (t + c) 4) (span (stack + 32748) 4) := by
    intro c hc
    exact h.mono (span_subset hc) (span_subset (by decide))
  have hends : Disjoint (span stack 4) (span (stack + 32748) 4) :=
    span_disjoint_add (by decide) (by decide)
  have hfields : ∀ c d : Word, (c.toNat + 4 ≤ d.toNat ∨ d.toNat + 4 ≤ c.toNat) ∧
      c.toNat + 4 ≤ 2 ^ 32 ∧ d.toNat + 4 ≤ 2 ^ 32 → Disjoint (span (t + c) 4) (span (t + d) 4) := by
    rintro c d ⟨hlt | hlt, hc, hd⟩
    · exact span_disjoint hlt hd
    · exact (span_disjoint hlt hc).symm
  have hword : ∀ a v, (a, v) ∈ [(t + stackOffset, stack), (t + regOffset .esp, stack + 32748),
      (stack + 32748, x.threadRoot), (stack, stackFencepost), (t + pcOffset, x.threadRoot),
      (t + regOffset .ecx, x.threadBegin), (t + regOffset .esi, func), (t + regOffset .edx, arg),
      (t + regOffset .edi, x.threadFinish)] → load (stackAllocate x mem t stack func arg) a = v := by
    intro a v hav
    rw [stackAllocate_eq]
    refine load_storeAll ?_ hav
    simp only [List.pairwise_cons, List.forall_mem_cons, List.not_mem_nil, false_implies,
      implies_true, and_true, List.Pairwise.nil]
    -- the object's words against one another and against the two words of the stack
    exact ⟨⟨hfields _ _ (by decide), htop _ (by decide), hstack _ (by decide), hfields _ _ (by decide),
        hfields _ _ (by decide), hfields _ _ (by decide), hfields _ _ (by decide),
        hfields _ _ (by decide)⟩,
      ⟨htop _ (by decide), hstack _ (by decide), hfields _ _ (by decide), hfields _ _ (by decide),
        hfields _ _ (by decide), hfields _ _ (by decide), hfields _ _ (by decide)⟩,
      ⟨hends.symm, (htop _ (by decide)).symm, (htop _ (by decide)).symm, (htop _ (by decide)).symm,
        (htop _ (by decide)).symm, (htop _ (by decide)).symm⟩,
      ⟨(hstack _ (by decide)).symm, (hstack _ (by decide)).symm, (hstack _ (by decide)).symm,
        (hstack _ (by decide)).symm, (hstack _ (by decide)).symm⟩,
      ⟨hfields _ _ (by decide), hfields _ _ (by decide), hfields _ _ (by decide),
        hfields _ _ (by decide)⟩,
      ⟨hfields _ _ (by decide), hfields _ _ (by decide), hfields _ _ (by decide)⟩,
      ⟨hfields _ _ (by decide), hfields _ _ (by decide)⟩, hfields _ _ (by decide)⟩
  have hesp := hword (t + regOffset .esp) (stack + 32748) (by simp)
  refine ⟨?_, ?_⟩
  · rw [hesp]
    exact span_subset (n := 4 * stackSize) (by decide)
  · have hroot : returnAddress (stackAllocate x mem t stack func arg) t = x.threadRoot := by
      unfold returnAddress
      rw [hesp]
      exact hword _ _ (by simp)
    have hother : ∀ r v, r ≠ .esp → load (stackAllocate x mem t stack func arg) (t + regOffset r) = v →
        restoredReg (stackAllocate x mem t stack func arg) t r = v := by
      intro r v hr hv
      exact (Function.update_of_ne hr _ _).trans hv
    have htopReg : restoredReg (stackAllocate x mem t stack func arg) t .esp = firstStackTop stack := by
      have hfour : stack + 32748 + 4 = firstStackTop stack := by
        rw [← firstStackTop_sub, BitVec.sub_add_cancel]
      rw [← hfour, ← hesp]
      exact Function.update_self _ _ _
    exact ⟨hroot, hother _ _ (by decide) (hword _ _ (by simp)),
      hother _ _ (by decide) (hword _ _ (by simp)), hother _ _ (by decide) (hword _ _ (by simp)),
      hother _ _ (by decide) (hword _ _ (by simp)), htopReg⟩

private theorem ne_of_stackOf {u : Word} {st' : StackSpan} (ht : s.stackOf t = none)
    (hu : s.stackOf u = some st') : u ≠ t := by
  rintro rfl
  exact absurd (ht.symm.trans hu) (by simp)

theorem Inv.fork (h : Inv x s) {stack func arg : Word} (hf : Fresh x s t ⟨stack, 4 * stackSize⟩) :
    Inv x { s with
      cpu.mem := stackAllocate x s.cpu.mem t stack func arg
      stackOf := Function.update s.stackOf t (some ⟨stack, 4 * stackSize⟩)
      suspended := Function.update s.suspended t (some (.forked stack func arg)) } := by
  obtain ⟨running, hrunning⟩ := h.live
  have hne : s.running ≠ t := ne_of_stackOf hf.new hrunning
  have hcases : ∀ u st, Function.update s.stackOf t (some ⟨stack, 4 * stackSize⟩) u = some st →
      (u = t ∧ st = ⟨stack, 4 * stackSize⟩) ∨ (u ≠ t ∧ s.stackOf u = some st) := by
    intro u st hu
    by_cases he : u = t
    · subst he
      rw [Function.update_self] at hu
      exact .inl ⟨rfl, (Option.some.inj hu).symm⟩
    · rw [Function.update_of_ne he] at hu
      exact .inr ⟨he, hu⟩
  refine ⟨⟨running, ?_⟩, ?_, ?_, ?_, ?_⟩
  · exact (Function.update_of_ne hne _ _).trans hrunning
  · intro u st hu
    obtain ⟨rfl, rfl⟩ | ⟨-, hu⟩ := hcases u st hu
    · exact hf.own
    · exact h.own u st hu
  · intro u v st st' hu hv huv
    obtain ⟨rfl, rfl⟩ | ⟨-, huOld⟩ := hcases u st hu
    · obtain ⟨rfl, rfl⟩ | ⟨-, hvOld⟩ := hcases v st' hv
      · exact absurd rfl huv
      · exact hf.others v st' hvOld
    · obtain ⟨rfl, rfl⟩ | ⟨-, hvOld⟩ := hcases v st' hv
      · exact (hf.others u st huOld).symm
      · exact h.apart u v st st' huOld hvOld huv
  · intro u st hu
    obtain ⟨rfl, rfl⟩ | ⟨-, hu⟩ := hcases u st hu
    · exact hf.eaxSave
    · exact h.eaxSave u st hu
  · intro u y hu
    by_cases he : u = t
    · subst he
      obtain rfl := Option.some.inj ((Function.update_self u _ s.suspended).symm.trans hu)
      exact ⟨hne.symm, _, Function.update_self _ _ _, stackAllocate_saved x _ func arg hf.own⟩
    · obtain ⟨hrun, st, hst, hsaved⟩ := h.saved u y ((Function.update_of_ne he _ _).symm.trans hu)
      refine ⟨hrun, st, (Function.update_of_ne he _ _).trans hst, hsaved.congr ?_⟩
      -- the new object and stack are apart from those of every other thread
      apply (stackAllocate_eqOn x s.cpu.mem t stack func arg).mono
      exact hsaved.area_subset.trans
        (Set.subset_compl_iff_disjoint_left.mpr (hf.others u st hst))

theorem Inv.delete (h : Inv x s) (ht : t ≠ s.running) :
    Inv x { s with
      stackOf := Function.update s.stackOf t none
      suspended := Function.update s.suspended t none } := by
  have hold : ∀ u st, Function.update s.stackOf t none u = some st → s.stackOf u = some st := by
    intro u st hu
    by_cases he : u = t
    · subst he
      simp at hu
    · rwa [Function.update_of_ne he] at hu
  obtain ⟨running, hrunning⟩ := h.live
  refine ⟨⟨running, ?_⟩, fun u st hu => h.own u st (hold u st hu),
    fun u v st st' hu hv => h.apart u v st st' (hold u st hu) (hold v st' hv),
    fun u st hu => h.eaxSave u st (hold u st hu), fun u y hu => ?_⟩
  · exact (Function.update_of_ne ht.symm _ _).trans hrunning
  · have he : u ≠ t := by
      rintro rfl
      simp at hu
    obtain ⟨hrun, st, hst, hsaved⟩ := h.saved u y ((Function.update_of_ne he _ _).symm.trans hu)
    exact ⟨hrun, st, (Function.update_of_ne he _ _).trans hst, hsaved⟩

/-! ## One switch -/

/-- The bytes that a switch from `s` to a thread with this stack pointer may write. -/
def switchWrites (x : Text) (s : Switching) (esp : Word) : Set Word :=
  span s.running 36 ∪ span x.eaxSave 4 ∪ span esp 4

private theorem Inv.saveApart (h : Inv x s) (hc : Calls x s next) :
    SaveApart x.eaxSave s.running (s.cpu.reg .esp) := by
  obtain ⟨st, hst, hstack⟩ := hc.stack
  have hobject : span s.running 36 ⊆ span s.running threadBytes := span_mono (by decide)
  have heax := h.eaxSave _ _ hst
  exact ⟨heax.mono_left (hobject.trans Set.subset_union_left),
    heax.mono_left (hstack.trans Set.subset_union_right), (h.own _ _ hst).mono hobject hstack⟩

private theorem Inv.saved_of_suspend (h : Inv x s) (hc : Calls x s next) {y : Suspension}
    (hy : s.suspend t = some y) :
    ∃ st, s.stackOf t = some st ∧ Saved x (s.cpu.block (switchSave x.eaxSave)).mem t st y := by
  obtain ⟨-, hfields, heq⟩ := switchSave_spec (h.saveApart hc) hc.oldThread
  obtain ⟨running, hrunning, hstack⟩ := hc.stack
  by_cases he : t = s.running
  · subst he
    obtain rfl := Option.some.inj ((Function.update_self _ _ s.suspended).symm.trans hy)
    refine ⟨running, hrunning, ?_, ?_⟩
    · rw [hfields]
      exact (span_mono (by decide)).trans hstack
    · have hreturn : load (s.cpu.block (switchSave x.eaxSave)).mem (s.cpu.reg .esp) =
          load s.cpu.mem (s.cpu.reg .esp) := by
        have hword : span (s.cpu.reg .esp) 4 ⊆ span (s.cpu.reg .esp) 12 := span_mono (by decide)
        apply load_congr
        apply heq.mono
        rw [Set.subset_compl_iff_disjoint_left, Set.disjoint_union_left]
        exact ⟨(h.saveApart hc).own.mono_right hword, ((h.saveApart hc).frame.mono_left hword).symm⟩
      refine ⟨?_, ?_⟩
      · unfold restoredReg
        rw [funext hfields, hfields]
      · unfold returnAddress
        rw [hfields, hreturn]
  · obtain ⟨-, st, hst, hsaved⟩ := h.saved t y ((Function.update_of_ne he _ _).symm.trans hy)
    refine ⟨st, hst, hsaved.congr (heq.mono ?_)⟩
    rw [Set.subset_compl_iff_disjoint_left, Set.disjoint_union_left]
    have hobject : span s.running 36 ⊆ footprint s.running running :=
      (span_mono (by decide)).trans Set.subset_union_left
    exact ⟨(h.apart _ _ _ _ hrunning hst (Ne.symm he)).mono hobject hsaved.area_subset,
      ((h.eaxSave _ _ hst).mono_left hsaved.area_subset).symm⟩

/-- `SWITCH` runs to its return and gives the CPU to a thread as it was suspended. -/
theorem Inv.runs (h : Inv x s) (hx : x.Linked) (hc : Calls x s next) :
    ∃ cpu y, steps x.code switchLength s.cpu = some cpu ∧ s.suspend next = some y ∧
      y.Resumes x cpu.reg cpu.eip ∧
      Set.EqOn cpu.mem s.cpu.mem (switchWrites x s (cpu.reg .esp))ᶜ ∧
      ∀ t z, t ≠ next → s.suspend t = some z →
        ∃ st, s.stackOf t = some st ∧ Saved x cpu.mem t st z := by
  obtain ⟨y, hy⟩ : ∃ y, s.suspend next = some y := by
    by_cases he : next = s.running
    · rw [he]
      exact ⟨_, Function.update_self _ _ _⟩
    · obtain ⟨y, hy⟩ := Option.isSome_iff_exists.mp (hc.next.resolve_left he)
      exact ⟨y, (Function.update_of_ne he _ _).trans hy⟩
  obtain ⟨st, hst, hsaved⟩ := h.saved_of_suspend hc hy
  obtain ⟨hesp, -, heqSave⟩ := switchSave_spec (h.saveApart hc) hc.oldThread
  let u := s.cpu.block (switchSave x.eaxSave)
  let top := load u.mem (next + regOffset .esp)
  have hobject : Disjoint (span next 36) (span x.eaxSave 4) :=
    (h.eaxSave _ _ hst).mono_left ((span_mono (by decide)).trans Set.subset_union_left)
  have hframe : Disjoint (span top 8) (span x.eaxSave 4) :=
    (h.eaxSave _ _ hst).mono_left (hsaved.inStack.trans Set.subset_union_right)
  -- the second argument is still there
  have hnext : load u.mem (u.reg .esp + 8) = next := by
    have hword : span (s.cpu.reg .esp + 8) 4 ⊆ span (s.cpu.reg .esp) 12 := span_subset (by decide)
    rw [hesp, ← hc.nextThread]
    apply load_congr
    apply heqSave.mono
    rw [Set.subset_compl_iff_disjoint_left, Set.disjoint_union_left]
    exact ⟨(h.saveApart hc).own.mono_right hword, ((h.saveApart hc).frame.mono_left hword).symm⟩
  obtain ⟨hregs, htop, heqRestore⟩ := switchRestore_spec hnext hobject rfl hframe
  let v := u.block (switchRestore x.eaxSave)
  -- the instructions up to the return, and the return
  obtain ⟨a, hplaced⟩ := hx.switch
  obtain ⟨b, hblock, next', hret, -⟩ := hplaced.split
  have hrun : steps x.code (switchSave x.eaxSave ++ switchRestore x.eaxSave).length s.cpu =
      some { v with eip := b } := by
    have hfalls : ∀ i ∈ switchSave x.eaxSave ++ switchRestore x.eaxSave, i.Falls := by
      simp [switchSave, switchRestore, Instr.Falls]
    rw [Placed.steps (hc.eip.symm ▸ hblock) hfalls, State.block_append]
  let cpu := ({ v with eip := b } : X86.State).exec next' .ret
  have hcpu : steps x.code switchLength s.cpu = some cpu := by
    have hlength : switchLength =
        (switchSave x.eaxSave ++ switchRestore x.eaxSave).length + 1 := rfl
    rw [hlength, steps_add _ 1 hrun]
    simp [steps, step, hret, cpu]
  have hreg : cpu.reg = restoredReg u.mem next := by
    have hv : v.reg = fun r => load u.mem (next + regOffset r) := funext hregs
    change Function.update v.reg .esp (v.reg .esp + 4) = _
    rw [hv]
    rfl
  have heip : cpu.eip = returnAddress u.mem next := by
    change load v.mem (v.reg .esp) = _
    rw [hregs .esp]
    exact htop
  have hmem : cpu.mem = v.mem := rfl
  have hespNext : cpu.reg .esp = top + 4 := by
    rw [hreg]
    exact Function.update_self _ _ _
  have heq : Set.EqOn cpu.mem u.mem (span x.eaxSave 4 ∪ span (cpu.reg .esp) 4)ᶜ := by
    rw [hespNext, hmem]
    exact heqRestore
  refine ⟨cpu, y, hcpu, hy, ?_, ?_, fun t z ht hz => ?_⟩
  · rw [hreg, heip]
    exact hsaved.resumes
  · have hsave : Set.EqOn u.mem s.cpu.mem (span s.running 36 ∪ span x.eaxSave 4)ᶜ := heqSave
    unfold switchWrites
    refine (heq.mono ?_).trans (hsave.mono (Set.compl_subset_compl.mpr Set.subset_union_left))
    rw [Set.union_assoc]
    exact Set.compl_subset_compl.mpr Set.subset_union_right
  · obtain ⟨st', hst', hsaved'⟩ := h.saved_of_suspend hc hz
    refine ⟨st', hst', hsaved'.congr (heq.mono ?_)⟩
    rw [Set.subset_compl_iff_disjoint_left, Set.disjoint_union_left, hespNext]
    have hslot : span (top + 4) 4 ⊆ footprint next st :=
      (span_subset (by decide)).trans (hsaved.inStack.trans Set.subset_union_right)
    exact ⟨((h.eaxSave _ _ hst').mono_left hsaved'.area_subset).symm,
      (h.apart _ _ _ _ hst hst' (Ne.symm ht)).mono hslot hsaved'.area_subset⟩

theorem Inv.switch (h : Inv x s) (hx : x.Linked) (hc : Calls x s next) {cpu : X86.State}
    (hrun : steps x.code switchLength s.cpu = some cpu) :
    Inv x { s with
      cpu := cpu
      running := next
      suspended := Function.update s.suspend next none } := by
  obtain ⟨cpu', y, hcpu, hy, -, -, hothers⟩ := h.runs hx hc
  obtain rfl : cpu = cpu' := Option.some.inj (hrun.symm.trans hcpu)
  obtain ⟨st, hst, -⟩ := h.saved_of_suspend hc hy
  refine ⟨⟨st, hst⟩, h.own, h.apart, h.eaxSave, fun t z hz => ?_⟩
  have hne : t ≠ next := by
    rintro rfl
    simp at hz
  exact ⟨hne, hothers t z hne ((Function.update_of_ne hne _ _).symm.trans hz)⟩

theorem inv_inductive (hx : x.Linked) : (switchSystem x).Inductive (Inv x) where
  init s hs := by
    obtain ⟨⟨st, hst, hown, heax⟩, hnone⟩ := hs
    have hmain : ∀ t st', s.stackOf t = some st' → t = s.running ∧ st' = st := by
      intro t st' ht
      rw [hst] at ht
      by_cases he : t = s.running
      · subst he
        rw [Function.update_self] at ht
        exact ⟨rfl, (Option.some.inj ht).symm⟩
      · rw [Function.update_of_ne he] at ht
        exact absurd ht (by simp)
    refine ⟨⟨st, ?_⟩, ?_, ?_, ?_, ?_⟩
    · rw [hst]
      exact Function.update_self _ _ _
    · intro t st' ht
      obtain ⟨rfl, rfl⟩ := hmain t st' ht
      exact hown
    · intro t u st' st'' ht hu hne
      obtain ⟨rfl, -⟩ := hmain t st' ht
      obtain ⟨rfl, -⟩ := hmain u st'' hu
      exact absurd rfl hne
    · intro t st' ht
      obtain ⟨rfl, rfl⟩ := hmain t st' ht
      exact heax
    · intro t y ht
      rw [hnone] at ht
      exact absurd ht (by simp)
  step s l s' h hs := by
    cases hs with
    | compute hcpu => exact h.compute hcpu
    | fork hf => exact h.fork hf
    | switch hc hrun => exact h.switch hx hc hrun
    | delete ht => exact h.delete ht

end Switching

open Switching

/-- In every run, when a thread calls `SWITCH`, the routine runs to its return and the other thread
has the registers and the return address with which it gave up the CPU, however many switches lie
in between; a thread may also switch to itself. -/
theorem switch_resumes (x : Text) (hx : x.Linked) {s : Switching} {next : Word}
    (hr : (switchSystem x).Reachable s) (hc : Calls x s next) :
    ∃ cpu y, steps x.code switchLength s.cpu = some cpu ∧ s.suspend next = some y ∧
      y.Resumes x cpu.reg cpu.eip ∧
      Set.EqOn cpu.mem s.cpu.mem (switchWrites x s (cpu.reg .esp))ᶜ := by
  have hinv := (inv_inductive hx).of_reachable hr
  obtain ⟨cpu, y, hcpu, hy, hresumes, heq, -⟩ := hinv.runs hx hc
  exact ⟨cpu, y, hcpu, hy, hresumes, heq⟩

/-! A program whose text has the two routines one after the other, and a main thread that is about
to switch. -/

namespace Switching

def sampleText : Text where
  code := X86.Code.ofList 0x1000 (switchCode 0x9000 ++ threadRootCode)
  switch := 0x1000
  threadRoot := 0x101b
  threadBegin := 0x2000
  threadFinish := 0x2100
  eaxSave := 0x9000

theorem sampleText_linked : sampleText.Linked where
  switch := ⟨_, placed_ofList 0x1000 (switchCode 0x9000 ++ threadRootCode) (by decide)
    (k := 0) (n := 27) (by decide)⟩
  threadRoot := ⟨_, placed_ofList 0x1000 (switchCode 0x9000 ++ threadRootCode) (by decide)
    (k := 27) (n := 9) (by decide)⟩

/-- The first argument of the call is the word of four ones, the second that of four twos. -/
def sampleSwitching : Switching where
  cpu := {
    reg := fun _ => 0x100000
    eip := 0x1000
    mem := fun a => if (a - 0x100008).toNat < 4 then 2 else 1 }
  running := 0x01010101
  stackOf := Function.update (fun _ => none) 0x01010101 (some ⟨0x100000, 0x1000⟩)
  suspended := fun _ => none

private theorem sampleSwitching_init : (switchSystem sampleText).init sampleSwitching := by
  refine ⟨⟨_, rfl, ?_, ?_⟩, rfl⟩
  · exact (span_disjoint_of_le (by decide) (by decide)).symm
  · refine Set.disjoint_union_left.mpr ⟨?_, ?_⟩
    · exact (span_disjoint_of_le (by decide) (by decide)).symm
    · exact (span_disjoint_of_le (by decide) (by decide)).symm

private theorem sampleFork_fresh :
    Fresh sampleText sampleSwitching 0x02020202 ⟨0x03000000, 4 * stackSize⟩ where
  new := rfl
  own := span_disjoint_of_le (by decide) (by decide)
  others u st hu := by
    by_cases he : u = 0x01010101
    · subst he
      obtain rfl : (⟨0x100000, 0x1000⟩ : StackSpan) = st := Option.some.inj hu
      refine Set.disjoint_union_left.mpr ⟨Set.disjoint_union_right.mpr ⟨?_, ?_⟩,
        Set.disjoint_union_right.mpr ⟨?_, ?_⟩⟩
      · exact (span_disjoint_of_le (by decide) (by decide)).symm
      · exact (span_disjoint_of_le (by decide) (by decide)).symm
      · exact (span_disjoint_of_le (by decide) (by decide)).symm
      · exact (span_disjoint_of_le (by decide) (by decide)).symm
    · have hnone : sampleSwitching.stackOf u = none :=
        Function.update_of_ne he _ fun _ => none
      exact absurd (hnone.symm.trans hu) (by simp)
  eaxSave := Set.disjoint_union_left.mpr ⟨(span_disjoint_of_le (by decide) (by decide)).symm,
    (span_disjoint_of_le (by decide) (by decide)).symm⟩

/-- The main thread has forked a thread that is to run the procedure at `0x4000`. -/
def sampleForked : Switching := { sampleSwitching with
  cpu.mem := stackAllocate sampleText sampleSwitching.cpu.mem 0x02020202 0x03000000 0x4000 7
  stackOf := Function.update sampleSwitching.stackOf 0x02020202 (some ⟨0x03000000, 4 * stackSize⟩)
  suspended := Function.update sampleSwitching.suspended 0x02020202
    (some (.forked 0x03000000 0x4000 7)) }

theorem sampleForked_reachable : (switchSystem sampleText).Reachable sampleForked :=
  .step (.init sampleSwitching_init) (l := .fork 0x02020202 0x03000000 0x4000 7)
    (.fork sampleFork_fresh)

theorem sampleForked_calls : Calls sampleText sampleForked 0x02020202 := by
  have hkept : ∀ a : Word, 0x100000 ≤ a.toNat → a.toNat + 4 ≤ 0x100010 →
      load sampleForked.cpu.mem a = load sampleSwitching.cpu.mem a := by
    intro a ha ha'
    apply load_congr
    apply (stackAllocate_eqOn _ _ _ _ _ _).mono
    refine Set.subset_compl_iff_disjoint_left.mpr (Set.disjoint_union_left.mpr ⟨?_, ?_⟩)
    · exact (span_disjoint_of_le (by simp; omega) (by decide)).symm
    · exact (span_disjoint_of_le (by simp; omega) (by decide)).symm
  refine ⟨rfl, ?_, ?_, ⟨⟨0x100000, 0x1000⟩, ?_, span_mono (by decide)⟩, .inr ?_⟩
  · exact (hkept 0x100004 (by decide) (by decide)).trans (by decide)
  · exact (hkept 0x100008 (by decide) (by decide)).trans (by decide)
  · simp [sampleForked, sampleSwitching]
  · simp [sampleForked]

end Switching

theorem switch_resumes_forked : ∃ cpu y,
    steps sampleText.code switchLength sampleForked.cpu = some cpu ∧
      sampleForked.suspend 0x02020202 = some y ∧ y.Resumes sampleText cpu.reg cpu.eip ∧
      Set.EqOn cpu.mem sampleForked.cpu.mem
        (switchWrites sampleText sampleForked (cpu.reg .esp))ᶜ :=
  switch_resumes sampleText sampleText_linked sampleForked_reachable sampleForked_calls

end Nachos

import Nachos.Threads.Conservation

/-!
# Interrupt levels and machine modes

The interrupt level and the machine status are two variables for all threads, and the values
that are to be put back wait on the stacks of the threads. A run is traced: which code each
thread is in, which calls of `Fork`, `Yield`, `P` and `V` are open and with which level they were
entered, and with which level they returned.
-/

namespace Nachos

open Framework

/-! ## What the frames of a stack will leave -/

/-- The interrupt level when the rest of a routine is done, from the level it goes on with. -/
def Frame.levelAfter : Frame → IntStatus → IntStatus
  | .setLevel now, _ => now
  | .oneTick, _ | .inOneTick _, _ | .begin, _ => .intOn
  | .sleepLoop _, _ => .intOff
  | .restoreStatus _, l | .yield, l | .pLoop _, l | .inIdle _, l | .afterSwitch, l => l

def levelAfter (frames : List Frame) (l : IntStatus) : IntStatus :=
  frames.foldl (fun l f => f.levelAfter l) l

@[simp] theorem levelAfter_nil (l : IntStatus) : levelAfter [] l = l := rfl

@[simp] theorem levelAfter_cons (f : Frame) (frames : List Frame) (l : IntStatus) :
    levelAfter (f :: frames) l = levelAfter frames (f.levelAfter l) := rfl

private theorem levelAfter_append (frames rest : List Frame) (l : IntStatus) :
    levelAfter (frames ++ rest) l = levelAfter rest (levelAfter frames l) := by
  rw [levelAfter, List.foldl_append]
  rfl

/-- With this stack the machine status is `now`, and it is `base` when the stack is empty. -/
def Mode (base : MachineStatus) : List Frame → MachineStatus → Prop
  | [], now => now = base
  | .restoreStatus old :: st, now => now = .systemMode ∧ Mode base st old
  | .oneTick :: st, now => Mode base st now
  | .inOneTick old :: st, now => now = old ∧ Mode base st old
  | .inIdle _ :: st, now => now = .idleMode ∧ Mode base st .systemMode
  | _ :: st, now => now = .systemMode ∧ Mode base st .systemMode

namespace Kernel

/-- The level a thread goes on with: every `SWITCH` is made with interrupts off. -/
def levelOf (k : Kernel) (t : ThreadId) : IntStatus :=
  if t = k.currentThread then k.level else .intOff

def statusOf (k : Kernel) (t : ThreadId) : MachineStatus :=
  if t = k.currentThread then k.machineStatus else .systemMode

/-- The next step calls `SWITCH`. -/
def switching (k : Kernel) : Bool :=
  match k.stack k.currentThread with
  | .yield :: _ => true
  | .sleepLoop _ :: _ => !k.readyList.isEmpty
  | _ => false

/-- The current thread has put the frames `new` on its stack; it may also have been switched away
from, in system mode and with interrupts off. -/
structure Pushed (k k' : Kernel) (new : List Frame) : Prop where
  stack : k'.stack = Function.update k.stack k.currentThread (new ++ k.stack k.currentThread)
  created : ∀ t, k'.status t = .justCreated → k.status t = .justCreated
  current : k'.currentThread = k.currentThread ∨
    (new ≠ [] ∧ k'.level = .intOff ∧ k'.machineStatus = .systemMode)

section Pushed

variable {k k' : Kernel}

theorem Pushed.of_push (new : List Frame) (hstack : k'.stack = (k.push new).stack)
    (hstatus : k'.status = k.status) (hcurrent : k'.currentThread = k.currentThread) :
    k.Pushed k' new := by
  refine ⟨hstack, ?_, .inl hcurrent⟩
  intro t ht
  rwa [hstatus] at ht

theorem Pushed.of_pop (hstack : k'.stack = k.stack) (hstatus : k'.status = k.status)
    (hcurrent : k'.currentThread = k.currentThread) : k.Pushed k' [] := by
  apply Pushed.of_push [] _ hstatus hcurrent
  rw [hstack]
  exact (Function.update_eq_self _ _).symm

private theorem levelOf_of_eq {t : ThreadId} (h : t = k.currentThread) :
    k.levelOf t = k.level := if_pos h

private theorem statusOf_of_eq {t : ThreadId} (h : t = k.currentThread) :
    k.statusOf t = k.machineStatus := if_pos h

private theorem levelOf_of_off (h : k.level = .intOff) (t : ThreadId) : k.levelOf t = .intOff := by
  rw [levelOf]
  split
  next => exact h
  next => rfl

private theorem statusOf_of_system (h : k.machineStatus = .systemMode) (t : ThreadId) :
    k.statusOf t = .systemMode := by
  rw [statusOf]
  split
  next => exact h
  next => rfl

theorem update_status_created {status : ThreadId → ThreadStatus} {t u : ThreadId}
    {st : ThreadStatus} (hst : st ≠ .justCreated)
    (h : Function.update status t st u = .justCreated) : status u = .justCreated := by
  by_cases hu : u = t
  · rw [hu, Function.update_self] at h
    exact absurd h hst
  · rwa [Function.update_of_ne hu] at h

/-- What `ReadyToRun` leaves alone. -/
theorem readyToRun_some {t : ThreadId} (h : k.readyToRun t = some k') :
    k.level = .intOff ∧ k'.stack = k.stack ∧ k'.level = k.level ∧
      k'.currentThread = k.currentThread ∧ k'.machineStatus = k.machineStatus ∧
      k'.status = Function.update k.status t .ready := by
  simp only [readyToRun] at h
  split at h
  next hl =>
    obtain ⟨readyList, -, hk⟩ := Option.bind_eq_some_iff.mp h
    obtain rfl := Option.some.inj hk
    exact ⟨hl, rfl, rfl, rfl, rfl, rfl⟩
  next => cases h

theorem findNextToRun_some {next : Option ThreadId} (h : k.findNextToRun = some (next, k')) :
    k.level = .intOff ∧ ∃ readyList, k' = { k with readyList := readyList } := by
  simp only [findNextToRun] at h
  split at h
  next hl =>
    split at h
    next => exact ⟨hl, k.readyList, (Prod.mk.inj (Option.some.inj h)).2.symm⟩
    next readyList _ => exact ⟨hl, readyList, (Prod.mk.inj (Option.some.inj h)).2.symm⟩
  next => cases h

theorem run_some {next : ThreadId} {finishing : Bool} (h : k.run next finishing = some k') :
    k.level = .intOff ∧ k' = k.switchTo next finishing := by
  simp only [run] at h
  split at h
  next hl => exact ⟨hl.1, (Option.some.inj h).symm⟩
  next => cases h

theorem Pushed.switchTo (next : ThreadId) (finishing : Bool) (hl : k.level = .intOff)
    (hm : k.machineStatus = .systemMode) : k.Pushed (k.switchTo next finishing) [.afterSwitch] := by
  refine ⟨rfl, ?_, .inr ⟨by simp, hl, hm⟩⟩
  intro t ht
  exact update_status_created (by decide) ht

end Pushed

/-- A frame of the current thread has been carried on: the level and the mode are on their way
to where the frame was to leave them. After `Halt` there is no mode. -/
structure Carried (k k' : Kernel) (f : Frame) (new : List Frame) : Prop where
  pushed : k.Pushed k' new
  level : levelAfter new (k'.levelOf k.currentThread) = f.levelAfter k.level
  mode : k'.halted = false → ∀ base st, Mode base (f :: st) k.machineStatus →
    Mode base (new ++ st) (k'.statusOf k.currentThread)

section Carried

variable {k k' : Kernel}

theorem Carried.of_push {f : Frame} {new : List Frame} (hpushed : k.Pushed k' new)
    (hcurrent : k'.currentThread = k.currentThread)
    (hlevel : levelAfter new k'.level = f.levelAfter k.level)
    (hmode : ∀ base st, Mode base (f :: st) k.machineStatus →
      Mode base (new ++ st) k'.machineStatus) : k.Carried k' f new := by
  refine ⟨hpushed, ?_, fun _ => ?_⟩
  · rwa [levelOf_of_eq hcurrent.symm]
  · rwa [statusOf_of_eq hcurrent.symm]

private theorem carried_setLevel {now : IntStatus} (h : k.setLevel now = some k') :
    ∃ new, k.Carried k' (.setLevel now) new := by
  simp only [Kernel.setLevel] at h
  split at h
  next =>
    obtain rfl := Option.some.inj h
    split
    next hon =>
      refine ⟨[.oneTick], .of_push (.of_push _ rfl rfl rfl) rfl ?_ ?_⟩
      · rw [hon.1]
        rfl
      · intro base st hm
        rw [hm.1]
        exact hm.2
    next =>
      refine ⟨[], .of_push (.of_pop rfl rfl rfl) rfl rfl ?_⟩
      intro base st hm
      rw [hm.1]
      exact hm.2
  next => cases h

private theorem carried_oneTick :
    k.Carried ({ k with level := .intOff }.push [.inOneTick k.machineStatus]) .oneTick
      [.inOneTick k.machineStatus] := by
  refine .of_push (.of_push _ rfl rfl rfl) rfl rfl ?_
  intro base st hm
  exact ⟨rfl, hm⟩

private theorem carried_inOneTick (old : MachineStatus) :
    ∃ new, k.Carried (k.endOneTick old) (.inOneTick old) new := by
  simp only [endOneTick]
  split
  next =>
    refine ⟨[.yield, .restoreStatus old], .of_push (.of_push _ rfl rfl rfl) rfl rfl ?_⟩
    intro base st hm
    exact ⟨rfl, rfl, hm.2⟩
  next =>
    refine ⟨[], .of_push (.of_pop rfl rfl rfl) rfl rfl ?_⟩
    intro base st hm
    show Mode base st k.machineStatus
    rw [hm.1]
    exact hm.2

private theorem Carried.of_switch {f : Frame} {new : List Frame} (hpushed : k.Pushed k' new)
    (hl : k'.level = .intOff) (hm : k'.machineStatus = .systemMode)
    (hlevel : levelAfter new .intOff = f.levelAfter k.level)
    (hmode : ∀ base st, Mode base (f :: st) k.machineStatus →
      Mode base (new ++ st) .systemMode) : k.Carried k' f new := by
  refine ⟨hpushed, ?_, fun _ => ?_⟩
  · rwa [levelOf_of_off hl]
  · rwa [statusOf_of_system hm]

private theorem carried_yield (hm : k.machineStatus = .systemMode) (h : k.yield = some k') :
    ∃ new, k.Carried k' .yield new := by
  simp only [Kernel.yield, Option.bind_eq_bind] at h
  obtain ⟨k₁, hready, h⟩ := Option.bind_eq_some_iff.mp h
  obtain ⟨⟨next, k₂⟩, hfind, h⟩ := Option.bind_eq_some_iff.mp h
  obtain ⟨-, hstack, hlevel, hcurrent, hmode, hstatus⟩ := readyToRun_some hready
  obtain ⟨-, readyList, rfl⟩ := findNextToRun_some hfind
  cases next with
  | none => cases h
  | some t =>
    obtain ⟨-, rfl⟩ := run_some h
    refine ⟨[.afterSwitch, .setLevel k.level], .of_switch ?_ hlevel (hmode.trans hm) rfl ?_⟩
    · refine ⟨?_, ?_, .inr ⟨by simp, hlevel, hmode.trans hm⟩⟩
      · simp only [switchTo, push, hstack, hcurrent, Function.update_self, Function.update_idem,
          List.cons_append, List.nil_append]
      · intro u hu
        have hu' := update_status_created (by decide) hu
        rw [show (push { k₁ with readyList := readyList } [.setLevel k.level]).status =
          Function.update k.status k.currentThread .ready from hstatus] at hu'
        exact update_status_created (by decide) hu'
    · intro base st hst
      exact ⟨rfl, rfl, hst.2⟩

private theorem carried_pLoop {s : SemId} (h : k.pLoop s = some k') :
    ∃ new, k.Carried k' (.pLoop s) new := by
  simp only [Kernel.pLoop, Option.bind_eq_bind] at h
  obtain ⟨⟨sem, taken⟩, -, h⟩ := Option.bind_eq_some_iff.mp h
  split at h
  next =>
    obtain rfl := Option.some.inj h
    refine ⟨[], .of_push (.of_pop rfl rfl rfl) rfl rfl ?_⟩
    intro base st hm
    show Mode base st k.machineStatus
    rw [hm.1]
    exact hm.2
  next =>
    simp only [Kernel.sleep] at h
    split at h
    next hl =>
      obtain rfl := Option.some.inj h
      have hl' : k.level = .intOff := hl
      refine ⟨[.sleepLoop false, .pLoop s], .of_push ⟨?_, ?_, .inl rfl⟩ rfl ?_ ?_⟩
      · simp only [push, Function.update_self, Function.update_idem, List.cons_append,
          List.nil_append]
      · intro t ht
        exact update_status_created (by decide) ht
      · exact hl'.symm
      · intro base st hm
        exact ⟨hm.1, rfl, hm.2⟩
    next => cases h

private theorem carried_sleepLoop {finishing : Bool} (hm : k.machineStatus = .systemMode)
    (h : k.sleepLoop finishing = some k') : ∃ new, k.Carried k' (.sleepLoop finishing) new := by
  simp only [Kernel.sleepLoop, Option.bind_eq_bind] at h
  obtain ⟨⟨next, k₁⟩, hfind, h⟩ := Option.bind_eq_some_iff.mp h
  obtain ⟨hl, readyList, rfl⟩ := findNextToRun_some hfind
  cases next with
  | none =>
    obtain rfl := Option.some.inj h
    refine ⟨[.inIdle false, .sleepLoop finishing], .of_push (.of_push _ rfl rfl rfl) rfl rfl ?_⟩
    intro base st hst
    exact ⟨rfl, rfl, hst.2⟩
  | some t =>
    obtain ⟨-, rfl⟩ := run_some h
    have hpushed := Pushed.switchTo (k := { k with readyList := readyList }) t finishing hl hm
    refine ⟨[.afterSwitch], .of_switch ⟨hpushed.stack, hpushed.created, hpushed.current⟩ hl hm rfl ?_⟩
    intro base st hst
    exact ⟨rfl, hst.2⟩

theorem checkToBeDestroyed_some (h : k.checkToBeDestroyed = some k') :
    k'.stack = k.stack ∧ k'.status = k.status ∧ k'.currentThread = k.currentThread ∧
      k'.level = k.level ∧ k'.machineStatus = k.machineStatus := by
  simp only [checkToBeDestroyed] at h
  split at h
  next =>
    obtain rfl := Option.some.inj h
    exact ⟨rfl, rfl, rfl, rfl, rfl⟩
  next =>
    split at h
    next => cases h
    next =>
      obtain rfl := Option.some.inj h
      exact ⟨rfl, rfl, rfl, rfl, rfl⟩

private theorem carried_resume {f : Frame} {base : MachineStatus} {st : List Frame}
    (hm : Mode base (f :: st) k.machineStatus) (h : k.resume f = some k') :
    ∃ new, k.Carried k' f new := by
  cases f with
  | setLevel now => exact carried_setLevel h
  | oneTick =>
    obtain rfl := Option.some.inj h
    exact ⟨_, carried_oneTick⟩
  | inOneTick old =>
    obtain rfl := Option.some.inj h
    exact carried_inOneTick old
  | restoreStatus old =>
    obtain rfl := Option.some.inj h
    exact ⟨[], .of_push (.of_pop rfl rfl rfl) rfl rfl fun base st hm => hm.2⟩
  | yield => exact carried_yield hm.1 h
  | pLoop s => exact carried_pLoop h
  | sleepLoop finishing => exact carried_sleepLoop hm.1 h
  | inIdle fired =>
    cases fired with
    | true =>
      obtain rfl := Option.some.inj h
      exact ⟨[], .of_push (.of_pop rfl rfl rfl) rfl rfl fun base st hm => hm.2⟩
    | false =>
      obtain rfl := Option.some.inj h
      refine ⟨[], .of_pop rfl rfl rfl, levelOf_of_eq rfl, ?_⟩
      intro hrunning
      cases hrunning
  | afterSwitch =>
    simp only [Kernel.resume] at h
    split at h
    next hl =>
      obtain ⟨hstack, hstatus, hcurrent, hlevel, hmode⟩ := checkToBeDestroyed_some h
      refine ⟨[], .of_push (.of_pop hstack hstatus hcurrent) hcurrent hlevel ?_⟩
      intro base st hm
      rw [hmode, hm.1]
      exact hm.2
    next => cases h
  | begin =>
    simp only [Kernel.resume, Option.bind_eq_bind] at h
    obtain ⟨k₁, hcheck, h⟩ := Option.bind_eq_some_iff.mp h
    obtain ⟨hstack, hstatus, hcurrent, hlevel, hmode⟩ := checkToBeDestroyed_some hcheck
    obtain rfl := Option.some.inj h
    refine ⟨[.setLevel .intOn], .of_push (.of_push _ ?_ hstatus hcurrent) hcurrent rfl ?_⟩
    · simp only [push, hstack, hcurrent]
    · intro base st hm
      exact ⟨hmode.trans hm.1, hm.2⟩

end Carried

/-- The stacks once `Fork` has set up the stack of the new thread. -/
def spawned (k : Kernel) : Op → Kernel
  | .fork t => { k with stack := Function.update k.stack t [.begin] }
  | _ => k

end Kernel

/-! ## Traced runs -/

/-- The code a thread is in, outside the routines that have frames. -/
inductive Code
  /-- a kernel thread -/
  | kernel
  /-- the loop of `Machine::Run` -/
  | user
  /-- `ExceptionHandler` -/
  | handler
  /-- `SysWrite`, which reads the memory of the user program -/
  | sysWrite
  /-- `ExceptionHandler` for a page fault of `SysWrite` -/
  | fault
  deriving DecidableEq

namespace Code

/-- The status set on the way from one code to another: `Machine::Run` sets UserMode, and
`RaiseException` sets SystemMode before the handler and UserMode after it. -/
def enter : Code → Code → Option MachineStatus
  | .kernel, .user => some .userMode
  | .user, .handler => some .systemMode
  | .user, .sysWrite => some .systemMode
  | .handler, .user => some .userMode
  | .sysWrite, .fault => some .systemMode
  | .fault, .sysWrite => some .userMode
  | .sysWrite, .user => some .userMode
  | _, _ => none

/-- The routines the code calls. `SysWrite` calls none: after a page fault it runs in UserMode. -/
def allows : Code → Op → Bool
  | .user, .oneTick => true
  | .user, _ | .sysWrite, _ => false
  | _, .oneTick | _, .setStatus _ => false
  | _, _ => true

def base : Code → MachineStatus
  | .user | .sysWrite => .userMode
  | _ => .systemMode

private theorem enter_base {c c' : Code} {st : MachineStatus} (h : c.enter c' = some st)
    (hne : c' ≠ .sysWrite) : st = c'.base := by
  cases c <;> cases c' <;>
    first
      | exact absurd rfl hne
      | exact (Option.some.inj h).symm
      | cases h

end Code

/-- The routines whose level on return is compared with the level on entry. -/
inductive Routine
  | fork
  | yield
  | p
  | v
  deriving DecidableEq

def Op.routine : Op → Option Routine
  | .fork _ => some .fork
  | .yield => some .yield
  | .p _ => some .p
  | .v _ => some .v
  | _ => none

/-- A call that has not returned: the level it was entered with and the height of the stack of
its caller. -/
structure OpenCall where
  routine : Routine
  level : IntStatus
  height : Nat
  deriving DecidableEq

/-- The kernel and the history of its runs: the code of each thread, its open calls, and the
calls that have returned with the level they left. -/
structure Traced where
  kernel : Kernel
  code : ThreadId → Code
  calls : ThreadId → List OpenCall
  returned : List (OpenCall × IntStatus)

inductive TracedEvent
  | event (e : Event)
  | enter (c : Code)
  | instruction

namespace Traced

/-- The calls an event opens. `OneTick` calls `Yield` with interrupts on. -/
def opened (k k' : Kernel) : Event → List OpenCall
  | .call op =>
    match op.routine with
    | some r => [{ routine := r, level := k.level, height := (k.stack k.currentThread).length }]
    | none => []
  | .step =>
    match k.stack k.currentThread with
    | .inOneTick _ :: rest =>
      if k.yieldOnReturn then
        [{ routine := .yield, level := k'.level, height := rest.length + 1 }]
      else []
    | _ => []
  | .handler _ => []

/-- Notes an event. A call has returned when the stack of its thread is down to the height of the
caller. -/
def record (s : Traced) (e : Event) (k' : Kernel) : Traced :=
  let t := s.kernel.currentThread
  let calls := opened s.kernel k' e ++ s.calls t
  let height := (k'.stack t).length
  { s with
    kernel := k',
    calls := Function.update s.calls t (calls.filter fun c => c.height < height),
    returned := s.returned ++ (calls.filter fun c => height ≤ c.height).map (·, k'.level) }

def allows (s : Traced) : Event → Bool
  | .call op => (s.code s.kernel.currentThread).allows op
  | _ => true

def atCode (s : Traced) : Bool :=
  !s.kernel.halted && (s.kernel.stack s.kernel.currentThread).isEmpty

/-- The current thread goes on in other code, with the status set on the way. -/
def entered (s : Traced) (c : Code) (st : MachineStatus) : Traced :=
  { s with
    kernel := { s.kernel with machineStatus := st },
    code := Function.update s.code s.kernel.currentThread c }

def next (s : Traced) : TracedEvent → Option Traced
  | .event e => if s.allows e then (s.kernel.next e).map (s.record e) else none
  | .enter c =>
    if s.atCode then
      ((s.code s.kernel.currentThread).enter c).map (s.entered c)
    else none
  | .instruction =>
    if s.atCode && decide (s.code s.kernel.currentThread = .user) then some s else none

def new (p : ThreadId → Int) (n : SemId → Nat) : Traced :=
  { kernel := .new p n, code := fun _ => .kernel, calls := fun _ => [], returned := [] }

end Traced

def tracedSystem (p : ThreadId → Int) (n : SemId → Nat) : System Traced TracedEvent where
  init s := s = .new p n
  step s l s' := s.next l = some s'

namespace Traced

/-- The open calls of a thread will return with the level they were entered with. -/
def Promised (calls : List OpenCall) (st : List Frame) (l : IntStatus) : Prop :=
  ∀ c ∈ calls, c.height < st.length ∧ levelAfter (st.take (st.length - c.height)) l = c.level

theorem Promised.nil (st : List Frame) (l : IntStatus) : Promised [] st l := by
  intro c hc
  cases hc

private theorem Promised.carry {calls : List OpenCall} {f : Frame} {rest new : List Frame}
    {l l' : IntStatus} (h : Promised calls (f :: rest) l)
    (hlevel : levelAfter new l' = f.levelAfter l) {c : OpenCall} (hc : c ∈ calls) :
    levelAfter ((new ++ rest).take ((new ++ rest).length - c.height)) l' = c.level := by
  obtain ⟨hheight, hafter⟩ := h c hc
  rw [List.length_cons] at hheight
  have hold : (f :: rest).length - c.height = (rest.length - c.height) + 1 := by
    rw [List.length_cons]
    omega
  have hnew : (new ++ rest).length - c.height = new.length + (rest.length - c.height) := by
    rw [List.length_append]
    omega
  rw [hold, List.take_succ_cons, levelAfter_cons] at hafter
  rw [hnew, List.take_length_add_append, levelAfter_append, hlevel]
  exact hafter

private theorem Promised.level_of_returned {calls : List OpenCall} {f : Frame}
    {rest new : List Frame} {l l' : IntStatus} (h : Promised calls (f :: rest) l)
    (hlevel : levelAfter new l' = f.levelAfter l) {c : OpenCall} (hc : c ∈ calls)
    (hge : (new ++ rest).length ≤ c.height) : new = [] ∧ l' = c.level := by
  obtain ⟨hheight, hafter⟩ := h c hc
  rw [List.length_cons] at hheight
  rw [List.length_append] at hge
  have hnil : new = [] := List.length_eq_zero_iff.mp (by omega)
  have hold : (f :: rest).length - c.height = 0 + 1 := by
    rw [List.length_cons]
    omega
  rw [hold, List.take_succ_cons, List.take_zero, levelAfter_cons, levelAfter_nil, ← hlevel, hnil]
    at hafter
  exact ⟨hnil, hafter⟩

/-- What holds in every state of a traced run. -/
structure Inv (s : Traced) : Prop where
  kernel : s.kernel.Inv
  promised : ∀ t, Promised (s.calls t) (s.kernel.stack t) (s.kernel.levelOf t)
  returned : ∀ r ∈ s.returned, r.2 = r.1.level
  mode : s.kernel.halted = false → ∀ t, s.code t ≠ .sysWrite →
    Mode (s.code t).base (s.kernel.stack t) (s.kernel.statusOf t)
  writing : ∀ t, s.code t = .sysWrite → s.kernel.stack t = [] ∧ t = s.kernel.currentThread
  created : ∀ t, s.kernel.status t = .justCreated → s.code t = .kernel ∧ s.calls t = []

variable {s : Traced}

/-- The stack of the current thread has the frames `new` on top of `rest`, and the other threads
go on as they would have. -/
structure Moved (s : Traced) (k' : Kernel) (new rest : List Frame) : Prop where
  kernel : k'.Inv
  stack : k'.stack s.kernel.currentThread = new ++ rest
  other : ∀ t, t ≠ s.kernel.currentThread → s.kernel.status t ≠ .justCreated →
    k'.stack t = s.kernel.stack t
  spawned : ∀ t, s.kernel.status t = .justCreated → k'.stack t = s.kernel.stack t ∨
    k'.stack t = [.begin]
  created : ∀ t, k'.status t = .justCreated → s.kernel.status t = .justCreated
  current : k'.currentThread = s.kernel.currentThread ∨
    (new ≠ [] ∧ k'.level = .intOff ∧ k'.machineStatus = .systemMode)

section Moved

variable {k' : Kernel} {new rest : List Frame}

private theorem Moved.levelOf_other (hmoved : s.Moved k' new rest) {t : ThreadId}
    (ht : t ≠ s.kernel.currentThread) : k'.levelOf t = s.kernel.levelOf t := by
  rw [Kernel.levelOf, Kernel.levelOf, if_neg ht]
  rcases hmoved.current with hsame | ⟨-, hoff, -⟩
  · rw [hsame, if_neg ht]
  · exact Kernel.levelOf_of_off hoff t

private theorem Moved.statusOf_other (hmoved : s.Moved k' new rest) {t : ThreadId}
    (ht : t ≠ s.kernel.currentThread) : k'.statusOf t = .systemMode := by
  rcases hmoved.current with hsame | ⟨-, -, hsystem⟩
  · rw [Kernel.statusOf, hsame, if_neg ht]
  · exact Kernel.statusOf_of_system hsystem t

theorem Inv.record (h : s.Inv) (hrunning : s.kernel.halted = false) {e : Event}
    (hmoved : s.Moved k' new rest)
    (hcode : s.code s.kernel.currentThread ≠ .sysWrite)
    (hopen : ∀ c ∈ opened s.kernel k' e ++ s.calls s.kernel.currentThread,
      c.height < (new ++ rest).length →
        levelAfter ((new ++ rest).take ((new ++ rest).length - c.height))
          (k'.levelOf s.kernel.currentThread) = c.level)
    (hreturn : ∀ c ∈ opened s.kernel k' e ++ s.calls s.kernel.currentThread,
      (new ++ rest).length ≤ c.height → k'.level = c.level)
    (hmode : k'.halted = false → Mode (s.code s.kernel.currentThread).base (new ++ rest)
      (k'.statusOf s.kernel.currentThread)) : (s.record e k').Inv := by
  constructor
  case kernel => exact hmoved.kernel
  case promised =>
    intro t
    by_cases ht : t = s.kernel.currentThread
    · subst ht
      simp only [Traced.record, Function.update_self, hmoved.stack]
      intro c hc
      obtain ⟨hmem, hlt⟩ := List.mem_filter.mp hc
      have hlt := of_decide_eq_true hlt
      exact ⟨hlt, hopen c hmem hlt⟩
    · simp only [Traced.record, Function.update_of_ne ht, hmoved.levelOf_other ht]
      by_cases hcreated : s.kernel.status t = .justCreated
      · rw [(h.created t hcreated).2]
        exact Promised.nil _ _
      · rw [hmoved.other t ht hcreated]
        exact h.promised t
  case returned =>
    intro r hr
    rcases List.mem_append.mp hr with hr | hr
    · exact h.returned r hr
    · obtain ⟨c, hc, rfl⟩ := List.mem_map.mp hr
      obtain ⟨hmem, hge⟩ := List.mem_filter.mp hc
      have hge := of_decide_eq_true hge
      rw [hmoved.stack] at hge
      exact hreturn c hmem hge
  case mode =>
    intro hhalted t hc
    by_cases ht : t = s.kernel.currentThread
    · subst ht
      simp only [Traced.record, hmoved.stack]
      exact hmode hhalted
    · simp only [Traced.record, hmoved.statusOf_other ht]
      have hold := h.mode hrunning t hc
      rw [Kernel.statusOf, if_neg ht] at hold
      by_cases hcreated : s.kernel.status t = .justCreated
      · rcases hmoved.spawned t hcreated with hsame | hbegin
        · rw [hsame]
          exact hold
        · rw [hbegin, (h.created t hcreated).1]
          exact ⟨rfl, rfl⟩
      · rw [hmoved.other t ht hcreated]
        exact hold
  case writing =>
    intro t hc
    have ht := (h.writing t hc).2
    rw [ht] at hc
    exact absurd hc hcode
  case created =>
    intro t ht
    have hcreated := hmoved.created t ht
    have hne : t ≠ s.kernel.currentThread := by
      rintro rfl
      exact h.kernel.created hcreated
    simp only [Traced.record, Function.update_of_ne hne]
    exact h.created t hcreated

end Moved

private theorem Inv.calls_nil (h : s.Inv) (hstack : s.kernel.stack s.kernel.currentThread = []) :
    s.calls s.kernel.currentThread = [] := by
  rw [List.eq_nil_iff_forall_not_mem]
  intro c hc
  have hheight := (h.promised _ c hc).1
  rw [hstack] at hheight
  exact absurd hheight (Nat.not_lt_zero _)

private theorem Moved.of_pushed {k k' : Kernel} {new rest : List Frame} (hpushed : k.Pushed k' new)
    (hk : k'.Inv) (hcurrent : k.currentThread = s.kernel.currentThread) (hrest : k.stack k.currentThread = rest)
    (hstack : ∀ t, t ≠ s.kernel.currentThread → s.kernel.status t ≠ .justCreated →
      k.stack t = s.kernel.stack t)
    (hspawned : ∀ t, s.kernel.status t = .justCreated → t ≠ s.kernel.currentThread →
      k.stack t = s.kernel.stack t ∨ k.stack t = [.begin])
    (hstatus : ∀ t, k.status t = s.kernel.status t)
    (hrunning : s.kernel.status s.kernel.currentThread ≠ .justCreated) :
    s.Moved k' new rest := by
  have hother : ∀ t, t ≠ s.kernel.currentThread → k'.stack t = k.stack t := by
    intro t ht
    rw [hpushed.stack, hcurrent, Function.update_of_ne ht]
  constructor
  case kernel => exact hk
  case stack => rw [hpushed.stack, ← hcurrent, Function.update_self, hrest]
  case other =>
    intro t ht hc
    rw [hother t ht, hstack t ht hc]
  case spawned =>
    intro t hc
    have ht : t ≠ s.kernel.currentThread := by
      rintro rfl
      exact hrunning hc
    rw [hother t ht]
    exact hspawned t hc ht
  case created =>
    intro t ht
    rw [← hstatus]
    exact hpushed.created t ht
  case current =>
    rw [← hcurrent]
    exact hpushed.current

private theorem opened_step {k k' : Kernel} {f : Frame} {rest : List Frame}
    (hst : k.stack k.currentThread = f :: rest)
    (hexec : { k with stack := Function.update k.stack k.currentThread rest }.resume f = some k')
    {c : OpenCall} (hc : c ∈ opened k k' .step) :
    ∃ old, k'.stack k.currentThread = .yield :: .restoreStatus old :: rest ∧
      k'.currentThread = k.currentThread ∧ c.level = k'.level ∧ c.height = rest.length + 1 := by
  simp only [opened, hst] at hc
  cases f with
  | inOneTick old =>
    dsimp only at hc
    split at hc
    next hyield =>
      obtain rfl := List.mem_singleton.mp hc
      obtain rfl := Option.some.inj hexec
      refine ⟨old, ?_, ?_, rfl, rfl⟩
      · simp only [Kernel.endOneTick, hyield, if_true, Kernel.push, Function.update_self,
          List.cons_append, List.nil_append]
      · simp only [Kernel.endOneTick, hyield, if_true, Kernel.push]
    next => cases hc
  | _ => cases hc

theorem Inv.step (h : s.Inv) {k' : Kernel} (he : s.kernel.enabled .step)
    (hexec : s.kernel.exec .step = some k') : (s.record .step k').Inv := by
  have hk' : k'.Inv := by
    obtain ⟨k₁, hk₁, hinv⟩ := h.kernel.exec he
    obtain rfl := Option.some.inj (hexec.symm.trans hk₁)
    exact hinv
  obtain ⟨hrunning, hnonempty⟩ := he
  have hcode : s.code s.kernel.currentThread ≠ .sysWrite :=
    fun hc => hnonempty (h.writing _ hc).1
  cases hst : s.kernel.stack s.kernel.currentThread with
  | nil => exact absurd hst hnonempty
  | cons f rest =>
    simp only [Kernel.exec, hst] at hexec
    have hmode := h.mode hrunning s.kernel.currentThread hcode
    rw [hst, Kernel.statusOf_of_eq rfl] at hmode
    obtain ⟨new, hcarried⟩ := Kernel.carried_resume (k := { s.kernel with
      stack := Function.update s.kernel.stack s.kernel.currentThread rest }) hmode hexec
    have hmoved : s.Moved k' new rest := by
      apply Moved.of_pushed hcarried.pushed hk' rfl (Function.update_self _ _ _) _ _
        (fun _ => rfl) h.kernel.created
      · intro t ht _
        exact Function.update_of_ne ht _ _
      · intro t _ ht
        exact .inl (Function.update_of_ne ht _ _)
    have hpromised := h.promised s.kernel.currentThread
    rw [hst, Kernel.levelOf_of_eq rfl] at hpromised
    have hlevel : levelAfter new (k'.levelOf s.kernel.currentThread) =
        f.levelAfter s.kernel.level := hcarried.level
    apply h.record hrunning hmoved hcode
    · intro c hc _
      rcases List.mem_append.mp hc with hc | hc
      · obtain ⟨old, hstack, hcurrent, hl, hheight⟩ := opened_step hst hexec hc
        rw [← hmoved.stack, hstack, hheight, Kernel.levelOf_of_eq hcurrent.symm, hl]
        have hone : (Frame.yield :: .restoreStatus old :: rest).length - (rest.length + 1) = 1 := by
          simp only [List.length_cons]
          omega
        rw [hone]
        rfl
      · exact hpromised.carry hlevel hc
    · intro c hc hge
      rcases List.mem_append.mp hc with hc | hc
      · obtain ⟨old, hstack, -, -, hheight⟩ := opened_step hst hexec hc
        rw [← hmoved.stack, hstack, hheight] at hge
        simp only [List.length_cons] at hge
        omega
      · obtain ⟨hnil, hl⟩ := hpromised.level_of_returned hlevel hc hge
        rcases hmoved.current with hsame | ⟨hne, -⟩
        · rw [← hl, Kernel.levelOf_of_eq hsame.symm]
        · exact absurd hnil hne
    · intro hhalted
      exact hcarried.mode hhalted _ _ hmode

/-- What a call from the code of a thread puts on the empty stack. -/
structure Called (k k' : Kernel) (op : Op) (new : List Frame) : Prop where
  pushed : (k.spawned op).Pushed k' new
  current : k'.currentThread = k.currentThread
  level : op.routine.isSome = true → new ≠ [] ∧ levelAfter new k'.level = k.level
  mode : op = .oneTick ∨ k.machineStatus = .systemMode →
    Mode k.machineStatus new k'.machineStatus

/-- `V` up to its second `SetLevel`. -/
theorem v_some {k k' : Kernel} {i : SemId} (h : k.v i = some k') :
    k'.stack = k.stack ∧ k'.level = k.level ∧ k'.currentThread = k.currentThread ∧
      k'.machineStatus = k.machineStatus ∧ k'.halted = k.halted ∧ k'.inHandler = k.inHandler ∧
      ∀ t, k'.status t = .justCreated → k.status t = .justCreated := by
  simp only [Kernel.v] at h
  split at h
  next =>
    obtain rfl := Option.some.inj h
    exact ⟨rfl, rfl, rfl, rfl, rfl, rfl, fun _ => id⟩
  next t _ =>
    simp only [Kernel.readyToRun] at h
    split at h
    next =>
      obtain ⟨readyList, -, hk⟩ := Option.bind_eq_some_iff.mp h
      obtain rfl := Option.some.inj hk
      exact ⟨rfl, rfl, rfl, rfl, rfl, rfl, fun u hu => Kernel.update_status_created (by decide) hu⟩
    next => cases h

theorem called {k k' : Kernel} {op : Op} {code : Code} (hallowed : code.allows op = true)
    (h : k.call op = some k') : ∃ new, Called k k' op new := by
  cases op with
  | fork t =>
    simp only [Kernel.call, Option.bind_eq_bind] at h
    obtain ⟨k₁, hready, h⟩ := Option.bind_eq_some_iff.mp h
    obtain ⟨-, hstack, -, hcurrent, hmode, hstatus⟩ := Kernel.readyToRun_some hready
    obtain rfl := Option.some.inj h
    refine ⟨[.setLevel k.level], ⟨?_, ?_, .inl hcurrent⟩, hcurrent,
      fun _ => ⟨by simp, rfl⟩, ?_⟩
    · simp only [Kernel.push, hstack, hcurrent, Kernel.spawned]
    · intro u hu
      have hu : k₁.status u = .justCreated := hu
      rw [hstatus] at hu
      exact Kernel.update_status_created (by decide) hu
    · intro hsystem
      have hsystem := hsystem.resolve_left (by simp)
      exact ⟨hmode.trans hsystem, hsystem.symm⟩
  | yield =>
    obtain rfl := Option.some.inj h
    refine ⟨[.yield], .of_push _ rfl rfl rfl, rfl, fun _ => ⟨by simp, rfl⟩, ?_⟩
    intro hsystem
    have hsystem := hsystem.resolve_left (by simp)
    exact ⟨hsystem, hsystem.symm⟩
  | finish =>
    simp only [Kernel.call, Kernel.sleep, if_true] at h
    obtain rfl := Option.some.inj h
    refine ⟨[.sleepLoop true], ⟨rfl, ?_, .inl rfl⟩, rfl, ?_, ?_⟩
    · intro u hu
      exact Kernel.update_status_created (by decide) hu
    · intro hroutine
      cases hroutine
    · intro hsystem
      have hsystem := hsystem.resolve_left (by simp)
      exact ⟨hsystem, hsystem.symm⟩
  | p i =>
    obtain rfl := Option.some.inj h
    refine ⟨[.pLoop i, .setLevel k.level], .of_push _ rfl rfl rfl, rfl,
      fun _ => ⟨by simp, rfl⟩, ?_⟩
    intro hsystem
    have hsystem := hsystem.resolve_left (by simp)
    exact ⟨hsystem, rfl, hsystem.symm⟩
  | v i =>
    simp only [Kernel.call, Option.bind_eq_bind] at h
    obtain ⟨k₁, hv, h⟩ := Option.bind_eq_some_iff.mp h
    obtain ⟨hstack, -, hcurrent, hmode, -, -, hstatus⟩ := v_some hv
    obtain rfl := Option.some.inj h
    refine ⟨[.setLevel k.level], ⟨?_, hstatus, .inl hcurrent⟩, hcurrent,
      fun _ => ⟨by simp, rfl⟩, ?_⟩
    · simp only [Kernel.push, hstack, hcurrent, Kernel.spawned]
    · intro hsystem
      have hsystem := hsystem.resolve_left (by simp)
      exact ⟨hmode.trans hsystem, hsystem.symm⟩
  | setLevel now =>
    obtain rfl := Option.some.inj h
    refine ⟨[.setLevel now], .of_push _ rfl rfl rfl, rfl, ?_, ?_⟩
    · intro hroutine
      cases hroutine
    · intro hsystem
      have hsystem := hsystem.resolve_left (by simp)
      exact ⟨hsystem, hsystem.symm⟩
  | oneTick =>
    obtain rfl := Option.some.inj h
    refine ⟨[.oneTick], .of_push _ rfl rfl rfl, rfl, ?_, fun _ => rfl⟩
    intro hroutine
    cases hroutine
  | setStatus st => cases code <;> cases hallowed

theorem enabled_call {k : Kernel} {op : Op} (he : k.enabled (.call op)) :
    k.halted = false ∧ k.stack k.currentThread = [] ∧
      ∀ t, op = .fork t → k.status t = .justCreated := by
  cases op with
  | fork t =>
    refine ⟨he.1, he.2.1, ?_⟩
    intro u hu
    rw [← Op.fork.inj hu]
    exact he.2.2
  | _ =>
    refine ⟨he.1, he.2, ?_⟩
    intro u hu
    cases hu

private theorem spawned_stack {k : Kernel} {op : Op} {t : ThreadId}
    (hfork : ∀ u, op = .fork u → k.status u = .justCreated) :
    (k.status t ≠ .justCreated → (k.spawned op).stack t = k.stack t) ∧
      ((k.spawned op).stack t = k.stack t ∨ (k.spawned op).stack t = [.begin]) := by
  cases op with
  | fork u =>
    by_cases hu : t = u
    · refine ⟨fun hne => absurd (hu ▸ hfork u rfl) hne, .inr ?_⟩
      rw [hu]
      exact Function.update_self _ _ _
    · have hsame : (k.spawned (.fork u)).stack t = k.stack t := Function.update_of_ne hu _ _
      exact ⟨fun _ => hsame, .inl hsame⟩
  | _ => exact ⟨fun _ => rfl, .inl rfl⟩

theorem Inv.call (h : s.Inv) {op : Op} {k' : Kernel} (he : s.kernel.enabled (.call op))
    (hallowed : s.allows (.call op) = true) (hexec : s.kernel.exec (.call op) = some k') :
    (s.record (.call op) k').Inv := by
  have hk' : k'.Inv := by
    obtain ⟨k₁, hk₁, hinv⟩ := h.kernel.exec he
    obtain rfl := Option.some.inj (hexec.symm.trans hk₁)
    exact hinv
  obtain ⟨hrunning, hempty, hfork⟩ := enabled_call he
  have hcode : s.code s.kernel.currentThread ≠ .sysWrite := by
    intro hc
    simp only [allows, hc] at hallowed
    cases op <;> cases hallowed
  obtain ⟨new, hcalled⟩ := called hallowed hexec
  have hkeep : (s.kernel.spawned op).currentThread = s.kernel.currentThread ∧
      ∀ t, (s.kernel.spawned op).status t = s.kernel.status t := by
    cases op <;> exact ⟨rfl, fun _ => rfl⟩
  have hmoved : s.Moved k' new [] := by
    apply Moved.of_pushed hcalled.pushed hk' hkeep.1 _ _ _ hkeep.2 h.kernel.created
    · rw [hkeep.1, (spawned_stack hfork).1 h.kernel.created]
      exact hempty
    · intro t _ hc
      exact (spawned_stack hfork).1 hc
    · intro t _ _
      exact (spawned_stack hfork).2
  have hmode := h.mode hrunning s.kernel.currentThread hcode
  rw [hempty, Kernel.statusOf_of_eq rfl] at hmode
  have hopened : ∀ c ∈ opened s.kernel k' (.call op) ++ s.calls s.kernel.currentThread,
      op.routine.isSome = true ∧ c.level = s.kernel.level ∧ c.height = 0 := by
    intro c hc
    rw [h.calls_nil hempty, List.append_nil] at hc
    simp only [opened, hempty, List.length_nil] at hc
    split at hc
    next r hr =>
      obtain rfl := List.mem_singleton.mp hc
      exact ⟨by rw [hr]; rfl, rfl, rfl⟩
    next => cases hc
  apply h.record hrunning hmoved hcode
  · intro c hc _
    obtain ⟨hroutine, hlevel, hheight⟩ := hopened c hc
    rw [hheight, hlevel, Nat.sub_zero, List.take_length, List.append_nil,
      Kernel.levelOf_of_eq hcalled.current.symm]
    exact (hcalled.level hroutine).2
  · intro c hc hge
    obtain ⟨hroutine, -, hheight⟩ := hopened c hc
    rw [hheight, List.append_nil] at hge
    exact absurd (List.length_eq_zero_iff.mp (Nat.le_zero.mp hge)) (hcalled.level hroutine).1
  · intro _
    rw [List.append_nil, Kernel.statusOf_of_eq hcalled.current.symm, ← hmode]
    apply hcalled.mode
    -- only user code calls `OneTick`, and the other code runs in system mode
    simp only [allows] at hallowed
    cases hc : s.code s.kernel.currentThread with
    | user =>
      rw [hc] at hallowed
      cases op <;> first | exact .inl rfl | cases hallowed
    | sysWrite => exact absurd hc hcode
    | kernel =>
      rw [hc] at hmode
      exact .inr hmode
    | handler =>
      rw [hc] at hmode
      exact .inr hmode
    | fault =>
      rw [hc] at hmode
      exact .inr hmode

/-- A handler leaves the level, the mode and the stacks as they are, up to the note in `Idle`. -/
theorem handler_some {k k' : Kernel} {a : HandlerAction} (h : k.exec (.handler a) = some k') :
    k'.stack = Function.update k.stack k.currentThread (Kernel.fired (k.stack k.currentThread)) ∧
      k'.level = k.level ∧ k'.currentThread = k.currentThread ∧
      k'.machineStatus = k.machineStatus ∧ k'.halted = k.halted ∧
      ∀ t, k'.status t = .justCreated → k.status t = .justCreated := by
  simp only [Kernel.exec, Option.bind_eq_bind] at h
  obtain ⟨k₁, hhandle, h⟩ := Option.bind_eq_some_iff.mp h
  obtain rfl := Option.some.inj h
  cases a with
  | p i =>
    simp only [Kernel.handle, Kernel.setLevel] at hhandle
    split at hhandle
    next hl =>
      obtain rfl := Option.some.inj hhandle
      have hoff : k.level = .intOff := hl.resolve_right (by simp)
      simp only [hoff, reduceCtorEq, false_and, if_false]
      exact ⟨trivial, trivial, trivial, trivial, trivial, fun _ => id⟩
    next => cases hhandle
  | v i =>
    simp only [Kernel.handle, Option.bind_eq_bind] at hhandle
    obtain ⟨k₂, hv, hset⟩ := Option.bind_eq_some_iff.mp hhandle
    obtain ⟨hstack, -, hcurrent, hmode, hhalted, hin, hstatus⟩ := v_some hv
    simp only [Kernel.setLevel] at hset
    split at hset
    next hl =>
      obtain rfl := Option.some.inj hset
      have hoff : k.level = .intOff := hl.resolve_right (by rw [hin]; simp)
      simp only [hoff, reduceCtorEq, false_and, if_false]
      exact ⟨by rw [hstack, hcurrent], trivial, hcurrent, hmode, hhalted, hstatus⟩
    next => cases hset
  | alarm =>
    simp only [Kernel.handle] at hhandle
    split at hhandle
    next =>
      split at hhandle
      next =>
        obtain rfl := Option.some.inj hhandle
        exact ⟨rfl, rfl, rfl, rfl, rfl, fun _ => id⟩
      next => cases hhandle
    next =>
      obtain rfl := Option.some.inj hhandle
      exact ⟨rfl, rfl, rfl, rfl, rfl, fun _ => id⟩

private theorem fired_spec (st : List Frame) :
    (Kernel.fired st).length = st.length ∧
      (∀ n l, levelAfter ((Kernel.fired st).take n) l = levelAfter (st.take n) l) ∧
      ∀ base now, Mode base st now → Mode base (Kernel.fired st) now := by
  cases st with
  | nil => exact ⟨rfl, fun _ _ => rfl, fun _ _ => id⟩
  | cons f rest =>
    cases f with
    | inIdle b =>
      refine ⟨rfl, ?_, fun _ _ => id⟩
      intro n l
      cases n with
      | zero => rfl
      | succ n => rfl
    | _ => exact ⟨rfl, fun _ _ => rfl, fun _ _ => id⟩

theorem enabled_handler {k : Kernel} {a : HandlerAction} (he : k.enabled (.handler a)) :
    k.halted = false ∧ Kernel.interruptible (k.stack k.currentThread) = true := by
  cases a with
  | p i => exact ⟨he.1, he.2.1⟩
  | v i => exact he
  | alarm => exact he

theorem Inv.handler (h : s.Inv) {a : HandlerAction} {k' : Kernel}
    (he : s.kernel.enabled (.handler a)) (hexec : s.kernel.exec (.handler a) = some k') :
    (s.record (.handler a) k').Inv := by
  have hk' : k'.Inv := by
    obtain ⟨k₁, hk₁, hinv⟩ := h.kernel.exec he
    obtain rfl := Option.some.inj (hexec.symm.trans hk₁)
    exact hinv
  obtain ⟨hrunning, hinside⟩ := enabled_handler he
  have hcode : s.code s.kernel.currentThread ≠ .sysWrite := by
    intro hc
    rw [(h.writing _ hc).1] at hinside
    cases hinside
  obtain ⟨hstack, hlevel, hcurrent, hstatus, -, hcreated⟩ := handler_some hexec
  obtain ⟨hlength, hafter, hmode⟩ := fired_spec (s.kernel.stack s.kernel.currentThread)
  have hother : ∀ t, t ≠ s.kernel.currentThread → k'.stack t = s.kernel.stack t := by
    intro t ht
    rw [hstack, Function.update_of_ne ht]
  have hmoved : s.Moved k' (Kernel.fired (s.kernel.stack s.kernel.currentThread)) [] := by
    constructor
    case kernel => exact hk'
    case stack => rw [hstack, Function.update_self, List.append_nil]
    case other => exact fun t ht _ => hother t ht
    case spawned =>
      intro t hc
      exact .inl (hother t fun ht => h.kernel.created (ht ▸ hc))
    case created => exact hcreated
    case current => exact .inl hcurrent
  have hpromised := h.promised s.kernel.currentThread
  apply h.record hrunning hmoved hcode
  · intro c hc _
    rw [List.append_nil, hlength, hafter, Kernel.levelOf_of_eq hcurrent.symm, hlevel]
    have hold := (hpromised c hc).2
    rwa [Kernel.levelOf_of_eq rfl] at hold
  · intro c hc hge
    rw [List.append_nil, hlength] at hge
    exact absurd (hpromised c hc).1 (Nat.not_lt.mpr hge)
  · intro _
    rw [List.append_nil, Kernel.statusOf_of_eq hcurrent.symm, hstatus]
    have hold := h.mode hrunning s.kernel.currentThread hcode
    rw [Kernel.statusOf_of_eq rfl] at hold
    exact hmode _ _ hold

theorem Inv.enter (h : s.Inv) {c : Code} {st : MachineStatus} (hat : s.atCode = true)
    (henter : (s.code s.kernel.currentThread).enter c = some st) :
    (s.entered c st).Inv := by
  obtain ⟨hhalted, hempty⟩ := Bool.and_eq_true_iff.mp hat
  have hempty := List.isEmpty_iff.mp hempty
  have hrunning : s.kernel.halted = false := by
    rwa [Bool.not_eq_true'] at hhalted
  constructor
  case kernel =>
    have he : s.kernel.enabled (.call (.setStatus st)) := ⟨hrunning, hempty⟩
    obtain ⟨k₁, hk₁, hinv⟩ := h.kernel.exec he
    obtain rfl := Option.some.inj hk₁
    exact hinv
  case promised => exact h.promised
  case returned => exact h.returned
  case mode =>
    intro _ t
    simp only [entered]
    by_cases ht : t = s.kernel.currentThread
    · subst ht
      rw [Function.update_self, hempty, Kernel.statusOf_of_eq rfl]
      exact fun hc => Code.enter_base henter hc
    · rw [Function.update_of_ne ht, Kernel.statusOf, if_neg ht]
      intro hc
      have hold := h.mode hrunning t hc
      rwa [Kernel.statusOf, if_neg ht] at hold
  case writing =>
    intro t
    simp only [entered]
    by_cases ht : t = s.kernel.currentThread
    · subst ht
      exact fun _ => ⟨hempty, rfl⟩
    · rw [Function.update_of_ne ht]
      exact h.writing t
  case created =>
    intro t ht
    have hne : t ≠ s.kernel.currentThread := by
      rintro rfl
      exact h.kernel.created ht
    simp only [entered, Function.update_of_ne hne]
    exact h.created t ht

theorem Inv.init (p : ThreadId → Int) (n : SemId → Nat) : Inv (.new p n) := by
  constructor
  case kernel => exact Kernel.Inv.init p n
  case promised => exact fun t => Promised.nil _ _
  case returned =>
    intro r hr
    cases hr
  case mode =>
    intro _ t _
    exact Kernel.statusOf_of_system rfl t
  case writing =>
    intro t hc
    cases hc
  case created => exact fun _ _ => ⟨rfl, rfl⟩

theorem Inv.next (h : s.Inv) {l : TracedEvent} {s' : Traced} (hnext : s.next l = some s') :
    s'.Inv := by
  cases l with
  | event e =>
    simp only [Traced.next] at hnext
    split at hnext
    next hallowed =>
      obtain ⟨k', hk', rfl⟩ := Option.map_eq_some_iff.mp hnext
      simp only [Kernel.next] at hk'
      split at hk'
      next he =>
        cases e with
        | call op => exact h.call he hallowed hk'
        | step => exact h.step he hk'
        | handler a => exact h.handler he hk'
      next => cases hk'
    next => cases hnext
  | enter c =>
    simp only [Traced.next] at hnext
    split at hnext
    next hat =>
      obtain ⟨st, henter, rfl⟩ := Option.map_eq_some_iff.mp hnext
      exact h.enter hat henter
    next => cases hnext
  | instruction =>
    simp only [Traced.next] at hnext
    split at hnext
    next =>
      obtain rfl := Option.some.inj hnext
      exact h
    next => cases hnext

theorem inv_inductive (p : ThreadId → Int) (n : SemId → Nat) :
    (tracedSystem p n).Inductive Inv where
  init s h := by
    rw [h]
    exact Inv.init p n
  step s l s' h hst := h.next hst

end Traced

/-- What the interrupt level and the machine status are relied on for. -/
structure Disciplined (s : Traced) : Prop where
  /-- no ASSERT of the next event fails -/
  asserts : ∀ e, s.kernel.enabled e → (s.kernel.exec e).isSome
  /-- the ASSERT of `CheckIfDue`, where it is entered and while its handlers run -/
  checkIfDue : Kernel.interruptible (s.kernel.stack s.kernel.currentThread) = true →
    s.kernel.level = .intOff
  returned : ∀ r ∈ s.returned, r.2 = r.1.level
  switch : s.kernel.halted = false → s.kernel.switching = true →
    s.kernel.machineStatus = .systemMode
  instruction : ∀ s', s.next .instruction = some s' → s.kernel.machineStatus = .userMode

private theorem place_interruptible {st : List Frame} {level : IntStatus} {d : Option ThreadId}
    {r fin : Bool} (h : Place st level d r fin) (hi : Kernel.interruptible st = true) :
    level = .intOff := by
  cases h with
  | code hcold =>
    cases st with
    | nil => cases hi
    | cons f rest =>
      have hf := hcold f List.mem_cons_self
      cases f <;>
        first
          | exact absurd hf Bool.false_ne_true
          | exact absurd hi Bool.false_ne_true
  | p _ _ => cases hi
  | tick _ _ => rfl
  | switched _ => rfl
  | sleeping _ => cases hi
  | idling _ _ => rfl

/-- In every run of threads and interrupts no ASSERT fails, `CheckIfDue` runs with interrupts
off, every call of `Fork`, `Yield`, `P` and `V` that returns does so with the interrupt level it
was entered with, `SWITCH` is called in SystemMode, and user instructions are executed in
UserMode. -/
theorem interrupt_discipline (p : ThreadId → Int) (n : SemId → Nat) {s : Traced}
    (hr : (tracedSystem p n).Reachable s) : Disciplined s := by
  have h := (Traced.inv_inductive p n).of_reachable hr
  constructor
  case asserts =>
    intro e he
    obtain ⟨k', hk', -⟩ := h.kernel.exec he
    rw [hk']
    rfl
  case checkIfDue => exact place_interruptible h.kernel.place
  case returned => exact h.returned
  case switch =>
    intro hrunning hswitch
    have hcode : s.code s.kernel.currentThread ≠ .sysWrite := by
      intro hc
      rw [Kernel.switching, (h.writing _ hc).1] at hswitch
      cases hswitch
    have hmode := h.mode hrunning s.kernel.currentThread hcode
    rw [Kernel.statusOf_of_eq rfl] at hmode
    rw [Kernel.switching] at hswitch
    split at hswitch
    next hst =>
      rw [hst] at hmode
      exact hmode.1
    next hst =>
      rw [hst] at hmode
      exact hmode.1
    next => cases hswitch
  case instruction =>
    intro s' hnext
    simp only [Traced.next] at hnext
    split at hnext
    next hcond =>
      obtain ⟨hat, huser⟩ := Bool.and_eq_true_iff.mp hcond
      obtain ⟨hhalted, hempty⟩ := Bool.and_eq_true_iff.mp hat
      have huser := of_decide_eq_true huser
      have hmode := h.mode (by rwa [Bool.not_eq_true'] at hhalted) s.kernel.currentThread
        (by rw [huser]; decide)
      rw [List.isEmpty_iff.mp hempty, huser, Kernel.statusOf_of_eq rfl] at hmode
      exact hmode
    next => cases hnext

/-- The main thread forks thread 1 and enables interrupts; the timer makes it yield in the middle
of `SetLevel`. Thread 1 starts a user program, and the timer makes it yield after an
instruction. -/
private def timeSlices : List TracedEvent :=
  [.event (.call (.fork 1)), .event .step, .event (.call (.setLevel .intOn)), .event .step,
    .event .step, .event (.handler .alarm), .event .step, .event .step, .event .step, .event .step,
    .event .step, .event .step, .enter .user, .instruction, .event (.call .oneTick), .event .step,
    .event (.handler .alarm), .event .step, .event .step, .event .step, .event .step, .event .step,
    .event .step, .event .step, .instruction]

theorem interrupt_discipline_slices :
    ∃ s, (tracedSystem (fun _ => 5) fun _ => 0).Reachable s ∧
      s.returned = [(⟨.fork, .intOff, 0⟩, .intOff), (⟨.yield, .intOn, 1⟩, .intOn)] ∧
      s.kernel.currentThread = 1 ∧ s.calls 0 = [⟨.yield, .intOn, 1⟩] ∧ Disciplined s := by
  have hrun : (timeSlices.foldlM Traced.next (.new (fun _ => 5) fun _ => 0)).isSome := by
    decide
  let s := (timeSlices.foldlM Traced.next (.new (fun _ => 5) fun _ => 0)).get hrun
  have hr : (tracedSystem (fun _ => 5) fun _ => 0).Reachable s :=
    .foldlM (fun _ _ _ h => h) timeSlices (.init rfl) (Option.some_get hrun).symm
  exact ⟨s, hr, rfl, rfl, rfl, interrupt_discipline _ _ hr⟩

end Nachos

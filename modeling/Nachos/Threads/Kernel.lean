import Nachos.Threads.Semaphore
import Nachos.Machine.Interrupt

/-!
# Threads, scheduler and interrupts

One processor runs `currentThread`. Code that runs without a context switch is one step; a
routine that can be left in the middle (`SetLevel`, `OneTick`, `Yield`, `P`, `Sleep`, `Idle`,
the rest of `Run` after `SWITCH`) leaves a frame on the stack of its thread for what is still
to be done. Interrupt handlers run between the steps of `OneTick` and of `Idle`. A failed
ASSERT is `none`.
-/

namespace Nachos

open Framework

abbrev SemId := Nat

inductive ThreadStatus
  | justCreated
  | running
  | ready
  | blocked
  deriving DecidableEq

/-- What a routine left on the stack of its thread has still to do. -/
inductive Frame
  | setLevel (now : IntStatus)
  | oneTick
  /-- inside the `CheckIfDue` of `OneTick` -/
  | inOneTick (oldStatus : MachineStatus)
  /-- the assignment after the `Yield` of `OneTick` -/
  | restoreStatus (oldStatus : MachineStatus)
  | yield
  /-- at the loop test of `P` -/
  | pLoop (s : SemId)
  /-- at the loop test of `Sleep` -/
  | sleepLoop (finishing : Bool)
  /-- inside the `CheckIfDue` of `Idle`; `fired` once a handler has been called -/
  | inIdle (fired : Bool)
  /-- in `Run`, back from `SWITCH` -/
  | afterSwitch
  /-- a forked thread about to enter `Begin` -/
  | begin
  deriving DecidableEq

/-- The kernel's variables. The last three fields record the history: the threads that have
called `Finish`, the number of calls of `ReadyToRun`, and when each thread had its latest one. -/
structure Kernel where
  currentThread : ThreadId
  status : ThreadId → ThreadStatus
  priority : ThreadId → Int
  stack : ThreadId → List Frame
  readyList : List ThreadId
  toBeDestroyed : Option ThreadId
  semaphore : SemId → Semaphore
  level : IntStatus
  inHandler : Bool
  yieldOnReturn : Bool
  machineStatus : MachineStatus
  halted : Bool
  finished : ThreadId → Bool
  readyCount : Nat
  readyAt : ThreadId → Nat

/-- `Thread::setPriority`. -/
def setPriority (p : Int) : Int :=
  if p > 7 then 7 else if p < 1 then 1 else p

namespace Kernel

/-- `Kernel::Initialize` up to the first use of a thread, with the priorities given to the
constructors of the other threads and the initial values of the semaphores. -/
def new (p : ThreadId → Int) (n : SemId → Nat) : Kernel :=
  { currentThread := 0,
    status := Function.update (fun _ => .justCreated) 0 .running,
    priority := Function.update (fun t => setPriority (p t)) 0 (setPriority 0),
    stack := fun _ => [], readyList := [], toBeDestroyed := none,
    semaphore := fun s => .new (n s), level := .intOff, inHandler := false,
    yieldOnReturn := false, machineStatus := .systemMode, halted := false,
    finished := fun _ => false, readyCount := 0, readyAt := fun _ => 0 }

/-- `Scheduler::Compare`. -/
def compare (k : Kernel) (x y : ThreadId) : Int :=
  if k.priority x > k.priority y then -1
  else if k.priority x = k.priority y then 0
  else 1

/-- `Scheduler::ReadyToRun`. -/
def readyToRun (k : Kernel) (t : ThreadId) : Option Kernel :=
  if k.level = .intOff then do
    let readyList ← sortedListInsert k.compare k.readyList t
    some { k with status := Function.update k.status t .ready, readyList := readyList,
                  readyCount := k.readyCount + 1,
                  readyAt := Function.update k.readyAt t k.readyCount }
  else none

/-- `Scheduler::FindNextToRun`. -/
def findNextToRun (k : Kernel) : Option (Option ThreadId × Kernel) :=
  if k.level = .intOff then
    match k.readyList with
    | [] => some (none, k)
    | t :: readyList => some (some t, { k with readyList := readyList })
  else none

def push (k : Kernel) (frames : List Frame) : Kernel :=
  { k with stack := Function.update k.stack k.currentThread
             (frames ++ k.stack k.currentThread) }

/-- `Scheduler::Run` up to `SWITCH`. -/
def run (k : Kernel) (nextThread : ThreadId) (finishing : Bool) : Option Kernel :=
  if k.level = .intOff ∧ (finishing = true → k.toBeDestroyed = none) then
    some { k.push [.afterSwitch] with
      toBeDestroyed := if finishing then some k.currentThread else k.toBeDestroyed,
      currentThread := nextThread,
      status := Function.update k.status nextThread .running }
  else none

/-- `Scheduler::CheckToBeDestroyed`, with the ASSERT of the destructor of `Thread`. -/
def checkToBeDestroyed (k : Kernel) : Option Kernel :=
  match k.toBeDestroyed with
  | none => some k
  | some t => if t = k.currentThread then none else some { k with toBeDestroyed := none }

/-- `Interrupt::SetLevel`. -/
def setLevel (k : Kernel) (now : IntStatus) : Option Kernel :=
  if now = .intOff ∨ k.inHandler = false then
    let k' := { k with level := now }
    some (if now = .intOn ∧ k.level = .intOff then k'.push [.oneTick] else k')
  else none

/-- The part of `Semaphore::V` between the two calls of `SetLevel`. -/
def v (k : Kernel) (s : SemId) : Option Kernel :=
  match (k.semaphore s).v with
  | (sem, none) => some { k with semaphore := Function.update k.semaphore s sem }
  | (sem, some t) =>
    { k with semaphore := Function.update k.semaphore s sem }.readyToRun t

/-- `Thread::Sleep` up to its loop. -/
def sleep (k : Kernel) (finishing : Bool) : Option Kernel :=
  if k.level = .intOff then
    some ({ k with status := Function.update k.status k.currentThread .blocked }.push
      [.sleepLoop finishing])
  else none

/-- `Thread::Yield` up to the `SWITCH` of `Run`. -/
def yield (k : Kernel) : Option Kernel := do
  let k₁ ← { k with level := .intOff }.readyToRun k.currentThread
  let (next, k₂) ← k₁.findNextToRun
  match next with
  | none => none
  | some nextThread => (k₂.push [.setLevel k.level]).run nextThread false

/-- One test of the loop in `Semaphore::P`. -/
def pLoop (k : Kernel) (s : SemId) : Option Kernel := do
  let (sem, taken) ← (k.semaphore s).test k.currentThread
  let k₁ := { k with semaphore := Function.update k.semaphore s sem }
  if taken then some k₁ else (k₁.push [.pLoop s]).sleep false

/-- One test of the loop in `Thread::Sleep`. -/
def sleepLoop (k : Kernel) (finishing : Bool) : Option Kernel := do
  let (next, k₁) ← k.findNextToRun
  match next with
  | none => some ({ k₁ with machineStatus := .idleMode }.push
      [.inIdle false, .sleepLoop finishing])
  | some nextThread => k₁.run nextThread finishing

/-- The end of `Interrupt::OneTick`. -/
def endOneTick (k : Kernel) (oldStatus : MachineStatus) : Kernel :=
  if k.yieldOnReturn then
    { k with level := .intOn, yieldOnReturn := false, machineStatus := .systemMode }.push
      [.yield, .restoreStatus oldStatus]
  else { k with level := .intOn }

/-- Goes on with a frame that has just been taken off the stack of the current thread. -/
def resume (k : Kernel) : Frame → Option Kernel
  | .setLevel now => k.setLevel now
  | .oneTick => some ({ k with level := .intOff }.push [.inOneTick k.machineStatus])
  | .inOneTick oldStatus => some (k.endOneTick oldStatus)
  | .restoreStatus oldStatus => some { k with machineStatus := oldStatus }
  | .yield => k.yield
  | .pLoop s => k.pLoop s
  | .sleepLoop finishing => k.sleepLoop finishing
  | .inIdle true => some { k with machineStatus := .systemMode }
  | .inIdle false => some { k with halted := true }
  | .afterSwitch => if k.level = .intOff then k.checkToBeDestroyed else none
  | .begin => do
    let k₁ ← k.checkToBeDestroyed
    some (k₁.push [.setLevel .intOn])

end Kernel

/-- What the code of a thread calls. -/
inductive Op
  | fork (t : ThreadId)
  | yield
  | finish
  | p (s : SemId)
  | v (s : SemId)
  | setLevel (now : IntStatus)
  | oneTick
  | setStatus (st : MachineStatus)

/-- What the code of an interrupt handler does; `alarm` is `Alarm::CallBack`. -/
inductive HandlerAction
  | p (s : SemId)
  | v (s : SemId)
  | alarm

inductive Event
  | call (op : Op)
  | step
  | handler (a : HandlerAction)

namespace Kernel

def call (k : Kernel) : Op → Option Kernel
  | .fork t => do
    let k₁ ← { k with level := .intOff, stack := Function.update k.stack t [.begin] }.readyToRun t
    some (k₁.push [.setLevel k.level])
  | .yield => some (k.push [.yield])
  | .finish =>
    { k with level := .intOff,
             finished := Function.update k.finished k.currentThread true }.sleep true
  | .p s => some ({ k with level := .intOff }.push [.pLoop s, .setLevel k.level])
  | .v s => do
    let k₁ ← { k with level := .intOff }.v s
    some (k₁.push [.setLevel k.level])
  | .setLevel now => some (k.push [.setLevel now])
  | .oneTick => some (k.push [.oneTick])
  | .setStatus st => some { k with machineStatus := st }

/-- The body of a handler, called with `inHandler` set. -/
def handle (k : Kernel) : HandlerAction → Option Kernel
  | .p s =>
    { k with level := .intOff,
             semaphore := Function.update k.semaphore s (k.semaphore s).take }.setLevel k.level
  | .v s => do
    let k₁ ← { k with level := .intOff }.v s
    k₁.setLevel k.level
  | .alarm =>
    if k.machineStatus ≠ .idleMode then
      if k.inHandler then some { k with yieldOnReturn := true } else none
    else some k

/-- `CheckIfDue` has called a handler. -/
def fired : List Frame → List Frame
  | .inIdle _ :: rest => .inIdle true :: rest
  | frames => frames

/-- The current thread is inside `CheckIfDue`. -/
def interruptible : List Frame → Bool
  | .inOneTick _ :: _ => true
  | .inIdle _ :: _ => true
  | _ => false

/-- The events the machine can see next. A thread is forked once; a handler has no thread to
put to sleep, so it does not call `P` on an empty semaphore. -/
def enabled (k : Kernel) : Event → Prop
  | .call (.fork t) =>
    k.halted = false ∧ k.stack k.currentThread = [] ∧ k.status t = .justCreated
  | .call _ => k.halted = false ∧ k.stack k.currentThread = []
  | .step => k.halted = false ∧ k.stack k.currentThread ≠ []
  | .handler (.p s) =>
    k.halted = false ∧ interruptible (k.stack k.currentThread) = true ∧
      (k.semaphore s).value ≠ 0
  | .handler _ => k.halted = false ∧ interruptible (k.stack k.currentThread) = true

instance (k : Kernel) : (e : Event) → Decidable (k.enabled e)
  | .call (.fork _) | .handler (.p _) => inferInstanceAs (Decidable (_ ∧ _ ∧ _))
  | .call .yield | .call .finish | .call (.p _) | .call (.v _) | .call (.setLevel _)
  | .call .oneTick | .call (.setStatus _) | .step | .handler (.v _) | .handler .alarm =>
    inferInstanceAs (Decidable (_ ∧ _))

def exec (k : Kernel) : Event → Option Kernel
  | .call op => k.call op
  | .step =>
    match k.stack k.currentThread with
    | [] => none
    | frame :: rest =>
      { k with stack := Function.update k.stack k.currentThread rest }.resume frame
  | .handler a => do
    let k₁ ← { k with inHandler := true }.handle a
    some { k₁ with inHandler := false,
                   stack := Function.update k₁.stack k₁.currentThread
                     (fired (k₁.stack k₁.currentThread)) }

end Kernel

def Kernel.next (k : Kernel) (e : Event) : Option Kernel :=
  if k.enabled e then k.exec e else none

def kernelSystem (p : ThreadId → Int) (n : SemId → Nat) : System Kernel Event where
  init k := k = .new p n
  step k e k' := k.enabled e ∧ k.exec e = some k'

theorem Kernel.next_cases {k k' : Kernel} {e : Event} (h : k.next e = some k') :
    k.enabled e ∧ k.exec e = some k' := by
  unfold Kernel.next at h
  split at h
  next he => exact ⟨he, h⟩
  next => contradiction

theorem Kernel.next_step {p : ThreadId → Int} {n : SemId → Nat} {k k' : Kernel} {e : Event}
    (h : k.next e = some k') : (kernelSystem p n).step k e k' :=
  Kernel.next_cases h

end Nachos

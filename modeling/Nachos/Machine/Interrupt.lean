import Nachos.Framework.Run
import Nachos.Lib.List

/-!
# The interrupt simulation

Devices schedule interrupts at a simulated time, and `CheckIfDue` calls the handlers of those
that are due. Time advances in three places: in `OneTick`, by an amount that depends on the mode,
and in `Idle`, to the next pending interrupt. What a handler does is not fixed: every call comes
with the list of its requests. After its `CheckIfDue`, `OneTick` may call `Yield`; what other
threads do then, and the assignment to `status` at the end, are later events of the run.
-/

namespace Nachos

open Framework

inductive IntStatus
  | intOff
  | intOn
  deriving DecidableEq

inductive MachineStatus
  | idleMode
  | systemMode
  | userMode
  deriving DecidableEq

inductive IntType
  | timerInt
  | diskInt
  | consoleWriteInt
  | consoleReadInt
  | networkSendInt
  | networkRecvInt
  deriving DecidableEq

/-- Allocated objects are told apart by their number. -/
structure PendingInterrupt where
  serial : Nat
  callOnInterrupt : Nat
  when : Int
  type : IntType
  deriving DecidableEq

/-- `PendingCompare`. -/
def pendingCompare (x y : PendingInterrupt) : Int :=
  if x.when < y.when then -1 else if x.when > y.when then 1 else 0

/-- A call of a handler: when it was and in which `CheckIfDue`. -/
structure Firing where
  interrupt : PendingInterrupt
  time : Int
  check : Nat
  deriving DecidableEq

abbrev userTick : Int := 1

abbrev systemTick : Int := 10

/-- The interrupt simulation and the tick counters, which are numbers without bound: a run is
taken to be too short for them to overflow. The last three fields record the history: the number
of interrupts scheduled, the calls of handlers, and for every `CheckIfDue` the time it compared
with. -/
structure Interrupt where
  level : IntStatus
  pending : List PendingInterrupt
  inHandler : Bool
  yieldOnReturn : Bool
  status : MachineStatus
  totalTicks : Int
  idleTicks : Int
  systemTicks : Int
  userTicks : Int
  halted : Bool
  scheduled : Nat
  fired : List Firing
  checks : List Int

/-- A request made by the code of a handler. -/
inductive HandlerCall
  | schedule (toCall : Nat) (fromNow : Int) (type : IntType)
  | setLevel (now : IntStatus)
  | yieldOnReturn

namespace Interrupt

/-- `Interrupt::Interrupt`, with the counters of `Statistics`. -/
def new : Interrupt where
  level := .intOff
  pending := []
  inHandler := false
  yieldOnReturn := false
  status := .systemMode
  totalTicks := 0
  idleTicks := 0
  systemTicks := 0
  userTicks := 0
  halted := false
  scheduled := 0
  fired := []
  checks := []

/-- `Interrupt::Schedule`. -/
def schedule (s : Interrupt) (toCall : Nat) (fromNow : Int) (type : IntType) :
    Option Interrupt := do
  let toOccur : PendingInterrupt :=
    { serial := s.scheduled, callOnInterrupt := toCall, when := s.totalTicks + fromNow,
      type := type }
  if 0 < fromNow then
    let pending ← sortedListInsert pendingCompare s.pending toOccur
    some { s with pending := pending, scheduled := s.scheduled + 1 }
  else none

/-- What the code of a handler can ask for. A handler that enables interrupts fails the ASSERT
of `SetLevel`, so `SetLevel` does not reach `OneTick` here. -/
def handlerCall (s : Interrupt) : HandlerCall → Option Interrupt
  | .schedule toCall fromNow type => s.schedule toCall fromNow type
  | .setLevel now =>
    if now = .intOff ∨ s.inHandler = false then some { s with level := now } else none
  | .yieldOnReturn => if s.inHandler then some { s with yieldOnReturn := true } else none

/-- The body of the loop in `CheckIfDue`: the front of the list is removed and its handler
called. -/
def fireNext (s : Interrupt) (calls : List HandlerCall) : Option Interrupt :=
  match s.pending with
  | [] => none
  | next :: pending =>
    calls.foldlM handlerCall
      { s with
        pending := pending,
        fired := s.fired ++
          [{ interrupt := next, time := s.totalTicks, check := s.checks.length - 1 }] }

def frontDue (s : Interrupt) : Bool :=
  match s.pending with
  | [] => false
  | next :: _ => next.when ≤ s.totalTicks

/-- The loop of `CheckIfDue` for at most `fuel` turns. The handler called after `n` others does
`handler n`. The outer `none` is a failed ASSERT, the inner one a loop that is not over. -/
def checkLoop (handler : Nat → List HandlerCall) : Nat → Interrupt → Option (Option Interrupt)
  | 0, _ => some none
  | fuel + 1, s => do
    let s₁ ← s.fireNext (handler s.fired.length)
    if s₁.frontDue then checkLoop handler fuel s₁ else some (some s₁)

/-- Notes the time a `CheckIfDue` compares with. -/
def noteCheck (s : Interrupt) : Interrupt := { s with checks := s.checks ++ [s.totalTicks] }

def advanceTo (s : Interrupt) (next : PendingInterrupt) : Interrupt :=
  if s.totalTicks < next.when then
    { s with idleTicks := s.idleTicks + (next.when - s.totalTicks), totalTicks := next.when }
  else s

/-- `Interrupt::CheckIfDue`. -/
def checkIfDue (handler : Nat → List HandlerCall) (fuel : Nat) (advanceClock : Bool)
    (s : Interrupt) : Option (Option (Bool × Interrupt)) :=
  if s.level = .intOff then
    match s.pending with
    | [] => some (some (false, s.noteCheck))
    | next :: _ =>
      if s.totalTicks < next.when ∧ advanceClock = false then
        some (some (false, s.noteCheck))
      else do
        let done ← checkLoop handler fuel { (s.advanceTo next).noteCheck with inHandler := true }
        some (done.map fun s₁ => (true, { s₁ with inHandler := false }))
  else none

/-- `Interrupt::OneTick` up to its `CheckIfDue`. -/
def tick (s : Interrupt) : Interrupt :=
  if s.status = .systemMode then
    { s with level := .intOff, totalTicks := s.totalTicks + systemTick,
             systemTicks := s.systemTicks + systemTick }
  else
    { s with level := .intOff, totalTicks := s.totalTicks + userTick,
             userTicks := s.userTicks + userTick }

/-- `Interrupt::OneTick` after its `CheckIfDue`, up to the call of `Yield`. -/
def endTick (s : Interrupt) : Interrupt :=
  if s.yieldOnReturn then
    { s with level := .intOn, yieldOnReturn := false, status := .systemMode }
  else { s with level := .intOn }

/-- `Interrupt::OneTick`. -/
def oneTick (handler : Nat → List HandlerCall) (fuel : Nat) (s : Interrupt) :
    Option (Option Interrupt) := do
  let done ← checkIfDue handler fuel false s.tick
  some (done.map fun r => r.2.endTick)

/-- `Interrupt::SetLevel`. -/
def setLevel (handler : Nat → List HandlerCall) (fuel : Nat) (s : Interrupt) (now : IntStatus) :
    Option (Option Interrupt) :=
  if now = .intOff ∨ s.inHandler = false then
    if now = .intOn ∧ s.level = .intOff then oneTick handler fuel { s with level := now }
    else some (some { s with level := now })
  else none

/-- `Interrupt::Idle`; without a pending interrupt it ends in `Halt`. -/
def idle (handler : Nat → List HandlerCall) (fuel : Nat) (s : Interrupt) :
    Option (Option Interrupt) := do
  let done ← checkIfDue handler fuel true { s with status := .idleMode }
  some (done.map fun r =>
    if r.1 then { r.2 with status := .systemMode } else { r.2 with halted := true })

end Interrupt

/-- The calls into the simulation, each with what the handlers it calls will do. `setStatus` is
an assignment to `status`. -/
inductive InterruptLabel
  | schedule (toCall : Nat) (fromNow : Int) (type : IntType)
  | oneTick (handler : Nat → List HandlerCall)
  | setLevel (now : IntStatus) (handler : Nat → List HandlerCall)
  | idle (handler : Nat → List HandlerCall)
  | setStatus (st : MachineStatus)

/-- One call, its loop with at most `fuel` turns. -/
def Interrupt.exec (fuel : Nat) (s : Interrupt) : InterruptLabel → Option (Option Interrupt)
  | .schedule toCall fromNow type => (s.schedule toCall fromNow type).map some
  | .oneTick handler => s.oneTick handler fuel
  | .setLevel now handler => s.setLevel handler fuel now
  | .idle handler => s.idle handler fuel
  | .setStatus st => some (some { s with status := st })

/-- All runs of the simulation; a call takes as many turns as it needs. -/
def interruptSystem : System Interrupt InterruptLabel where
  init s := s = .new
  step s l s' := s.halted = false ∧ ∃ fuel, s.exec fuel l = some (some s')

end Nachos

import Nachos.Machine.Delivery
import Nachos.Framework.Refinement

/-!
# The timer and time slices

The timer device has one interrupt pending: its handler calls the alarm and schedules the next
one, after `TimerTicks` or a random delay. The alarm asks for a `Yield` unless the machine idles,
and the `OneTick` that called the handler makes it. The other devices schedule interrupts of their
own and ask for no `Yield`.
-/

namespace Nachos

open Framework

/-! ## The device -/

abbrev timerTicks : Int := 100

/-- The timer object of the alarm, among the objects with an interrupt. -/
abbrev alarmTimer : Nat := 0

/-- `Alarm::CallBack`. -/
def alarmCallBack (status : MachineStatus) : List HandlerCall :=
  if status ≠ .idleMode then [.yieldOnReturn] else []

structure Timer where
  randomize : Bool
  disable : Bool

namespace Timer

/-- The delay of `Timer::SetInterrupt`; `random` is what `RandomNumber` returns. -/
def delay (t : Timer) (random : Nat) : Int :=
  if t.randomize then 1 + random % (timerTicks * 2) else timerTicks

/-- `Timer::SetInterrupt`. -/
def setInterrupt (t : Timer) (random : Nat) : List HandlerCall :=
  if t.disable then [] else [.schedule alarmTimer (t.delay random) .timerInt]

/-- `Timer::CallBack`. -/
def callBack (t : Timer) (status : MachineStatus) (random : Nat) : List HandlerCall :=
  alarmCallBack status ++ t.setInterrupt random

def shortest (t : Timer) : Int := if t.randomize then 1 else timerTicks

def longest (t : Timer) : Int := if t.randomize then timerTicks * 2 else timerTicks

private theorem delay_mem (t : Timer) (random : Nat) :
    t.shortest ≤ t.delay random ∧ t.delay random ≤ t.longest := by
  unfold shortest delay longest timerTicks
  split
  · omega
  · exact ⟨le_rfl, le_rfl⟩

private theorem shortest_pos (t : Timer) : 0 < t.shortest := by
  unfold shortest
  split
  · decide
  · decide

end Timer

def HandlerCall.OfDevice : HandlerCall → Prop
  | .schedule toCall _ _ => toCall ≠ alarmTimer
  | .setLevel _ => True
  | .yieldOnReturn => False

def Timer.Answers (t : Timer) (status : MachineStatus) (random : Nat) (p : PendingInterrupt)
    (calls : List HandlerCall) : Prop :=
  if p.callOnInterrupt = alarmTimer then calls = t.callBack status random
  else ∀ c ∈ calls, c.OfDevice

namespace Interrupt

/-- Whether `OneTick` goes on to `Yield`. -/
def yieldsInTick (handler : Nat → List HandlerCall) (fuel : Nat) (s : Interrupt) : Bool :=
  match checkIfDue handler fuel false s.tick with
  | some (some r) => r.2.yieldOnReturn
  | _ => false

/-- Whether a call into the simulation comes to a `Yield`. -/
def yieldsIn (fuel : Nat) (s : Interrupt) : InterruptLabel → Bool
  | .oneTick handler => s.yieldsInTick handler fuel
  | .setLevel now handler =>
    decide (now = .intOn ∧ s.level = .intOff) && { s with level := now }.yieldsInTick handler fuel
  | _ => false

end Interrupt

namespace InterruptLabel

def handler : InterruptLabel → Nat → List HandlerCall
  | .oneTick handler | .setLevel _ handler | .idle handler => handler
  | .schedule _ _ _ | .setStatus _ => fun _ => []

def statusIn (s : Interrupt) : InterruptLabel → MachineStatus
  | .idle _ => .idleMode
  | _ => s.status

/-- The kernel schedules nothing for the timer and sets the status of the machine to
`SystemMode` and `UserMode` only. -/
def OfKernel : InterruptLabel → Prop
  | .schedule toCall _ _ => toCall ≠ alarmTimer
  | .setStatus st => st ≠ .idleMode
  | _ => True

def Busy : InterruptLabel → Prop
  | .idle _ => False
  | _ => True

end InterruptLabel

/-! ## Runs -/

/-- The simulation with its timer; `yields` are the times at which `OneTick` called `Yield`. -/
structure TimeSharing where
  interrupt : Interrupt
  timer : Timer
  yields : List Int

inductive TimerLabel
  /-- a call into the simulation, and the random numbers its handlers draw -/
  | call (l : InterruptLabel) (random : Nat → Nat)
  /-- `Timer::Disable` -/
  | disable

def TimerLabel.Busy : TimerLabel → Prop
  | .call l _ => l.Busy
  | .disable => True

namespace TimeSharing

/-- The interrupts that the call delivered were handled by their devices. -/
def Handled (timer : Timer) (s s' : Interrupt) (l : InterruptLabel) (random : Nat → Nat) : Prop :=
  ∀ n r, s.fired.length ≤ n → s'.fired[n]? = some r →
    timer.Answers (l.statusIn s) (random n) r.interrupt (l.handler n)

def timers (s : Interrupt) : List PendingInterrupt :=
  s.pending.filter fun p => p.callOnInterrupt = alarmTimer

inductive Step : TimeSharing → TimerLabel → TimeSharing → Prop
  | call {s : TimeSharing} {l : InterruptLabel} {random : Nat → Nat} {fuel : Nat} {i : Interrupt}
      (hlive : s.interrupt.halted = false) (hl : l.OfKernel)
      (hi : s.interrupt.exec fuel l = some (some i))
      (hhandled : Handled s.timer s.interrupt i l random) :
      Step s (.call l random)
        { s with interrupt := i,
                 yields := if s.interrupt.yieldsIn fuel l then s.yields ++ [i.totalTicks]
                           else s.yields }
  | disable {s : TimeSharing} :
      Step s .disable { s with timer := { s.timer with disable := true } }

/-- `Kernel::Initialize` with the constructor of `Alarm`. -/
def start (randomize : Bool) (random : Nat) : Option TimeSharing := do
  let timer : Timer := { randomize := randomize, disable := false }
  let i ← (timer.setInterrupt random).foldlM Interrupt.handlerCall .new
  some { interrupt := i, timer := timer, yields := [] }

end TimeSharing

def timeSharing (randomize : Bool) : System TimeSharing TimerLabel where
  init s := ∃ random, TimeSharing.start randomize random = some s
  step := TimeSharing.Step

namespace TimeSharing

variable {timer : Timer} {yields : List Int} {s s' : Interrupt}

/-! ## What the timer has pending -/

/-- One interrupt, not far in the future; none only when the timer is disabled. -/
inductive Armed (timer : Timer) (s : Interrupt) : Prop
  | pending (p : PendingInterrupt) (h : timers s = [p]) (htype : p.type = .timerInt)
      (hnear : p.when ≤ s.totalTicks + timer.longest)
  | off (h : timers s = []) (hdisable : timer.disable = true)

/-- What holds also while handlers run. The times of the calls of `Yield` so far are `yields`;
the next one may be asked for already. -/
structure Ticking (timer : Timer) (yields : List Int) (s : Interrupt) : Prop where
  armed : Armed timer s
  later : ∀ p ∈ timers s, ∀ t ∈ yields, t + timer.shortest ≤ p.when
  asked : s.yieldOnReturn = true → s.status ≠ .idleMode ∧
    (∀ p ∈ timers s, s.totalTicks + timer.shortest ≤ p.when) ∧
    ∀ t ∈ yields, t + timer.shortest ≤ s.totalTicks

/-- Handlers do not move the clock; a `Yield` that was asked for stays asked for, and when the
interrupt of the timer goes, it was due and one is asked for unless the machine idles. -/
structure Serves (s s' : Interrupt) : Prop where
  status : s'.status = s.status
  totalTicks : s'.totalTicks = s.totalTicks
  halted : s'.halted = s.halted
  sticky : s.yieldOnReturn = true → s'.yieldOnReturn = true
  served : s.status ≠ .idleMode → ∀ p ∈ timers s,
    p ∈ timers s' ∨ (s'.yieldOnReturn = true ∧ p.when ≤ s.totalTicks)

theorem Serves.trans {s₁ s₂ s₃ : Interrupt} (h : Serves s₁ s₂) (h' : Serves s₂ s₃) :
    Serves s₁ s₃ where
  status := h'.status.trans h.status
  totalTicks := h'.totalTicks.trans h.totalTicks
  halted := h'.halted.trans h.halted
  sticky hs := h'.sticky (h.sticky hs)
  served hs p hp := by
    rcases h.served hs p hp with hp | ⟨hy, hdue⟩
    · have hserved := h'.served (by rwa [h.status]) p hp
      rwa [h.totalTicks] at hserved
    · exact .inr ⟨h'.sticky hy, hdue⟩

/-- The state is the same for the timer. -/
structure Alike (s s' : Interrupt) : Prop where
  timers : timers s' = timers s
  status : s'.status = s.status
  totalTicks : s'.totalTicks = s.totalTicks
  halted : s'.halted = s.halted
  yieldOnReturn : s'.yieldOnReturn = s.yieldOnReturn

theorem Alike.trans {s₁ s₂ s₃ : Interrupt} (h : Alike s₁ s₂) (h' : Alike s₂ s₃) : Alike s₁ s₃ where
  timers := h'.timers.trans h.timers
  status := h'.status.trans h.status
  totalTicks := h'.totalTicks.trans h.totalTicks
  halted := h'.halted.trans h.halted
  yieldOnReturn := h'.yieldOnReturn.trans h.yieldOnReturn

theorem Alike.serves (h : Alike s s') : Serves s s' where
  status := h.status
  totalTicks := h.totalTicks
  halted := h.halted
  sticky hs := h.yieldOnReturn.trans hs
  served _ p hp := .inl (by rwa [h.timers])

theorem Armed.congr (h : Armed timer s) (htimers : timers s' = timers s)
    (htime : s.totalTicks ≤ s'.totalTicks) : Armed timer s' := by
  cases h with
  | pending p h htype hnear =>
    exact .pending p (htimers.trans h) htype (hnear.trans (Int.add_le_add_right htime _))
  | off h hdisable => exact .off (htimers.trans h) hdisable

private theorem Ticking.alike (h : Ticking timer yields s) (ha : Alike s s') :
    Ticking timer yields s' where
  armed := h.armed.congr ha.timers ha.totalTicks.ge
  later := by
    rw [ha.timers]
    exact h.later
  asked := by
    rw [ha.timers, ha.yieldOnReturn, ha.status, ha.totalTicks]
    exact h.asked

/-! ## Handlers -/

private theorem schedule_eq {toCall : Nat} {fromNow : Int} {type : IntType}
    (h : s.schedule toCall fromNow type = some s') :
    0 < fromNow ∧ s' = { s with
      pending := s.pending.orderedInsert (fun x y => pendingCompare x y < 0)
        { serial := s.scheduled, callOnInterrupt := toCall, when := s.totalTicks + fromNow,
          type := type },
      scheduled := s.scheduled + 1 } := by
  unfold Interrupt.schedule at h
  split at h
  next hpos =>
    obtain ⟨pending, hins, h⟩ := Option.bind_eq_some_iff.mp h
    unfold sortedListInsert at hins
    split at hins
    next => contradiction
    next =>
      cases hins
      cases h
      exact ⟨hpos, rfl⟩
  next => contradiction

private theorem timers_insert_other {p : PendingInterrupt} (hp : p.callOnInterrupt ≠ alarmTimer)
    (l : List PendingInterrupt) :
    (l.orderedInsert (fun x y => pendingCompare x y < 0) p).filter
        (fun q => q.callOnInterrupt = alarmTimer) =
      l.filter fun q => q.callOnInterrupt = alarmTimer := by
  induction l with
  | nil => simpa using hp
  | cons q l ih =>
    rw [List.orderedInsert_cons]
    split
    · exact List.filter_cons_of_neg (by simpa using hp)
    · rw [List.filter_cons, List.filter_cons, ih]

private theorem timers_insert_own {p : PendingInterrupt} (hp : p.callOnInterrupt = alarmTimer)
    {l : List PendingInterrupt} (hl : (l.filter fun q => q.callOnInterrupt = alarmTimer) = []) :
    (l.orderedInsert (fun x y => pendingCompare x y < 0) p).filter
        (fun q => q.callOnInterrupt = alarmTimer) = [p] := by
  have hperm := (List.perm_orderedInsert (fun x y => pendingCompare x y < 0) p l).filter
    fun q => decide (q.callOnInterrupt = alarmTimer)
  rw [List.filter_cons_of_pos (by simpa using hp), hl] at hperm
  exact List.perm_singleton.mp hperm

private theorem alike_schedule {toCall : Nat} {fromNow : Int} {type : IntType}
    (hother : toCall ≠ alarmTimer) (h : s.schedule toCall fromNow type = some s') :
    Alike s s' := by
  obtain ⟨-, rfl⟩ := schedule_eq h
  exact ⟨timers_insert_other hother _, rfl, rfl, rfl, rfl⟩

private theorem alike_handlerCall {c : HandlerCall} (hc : c.OfDevice)
    (h : s.handlerCall c = some s') : Alike s s' := by
  cases c with
  | schedule toCall fromNow type => exact alike_schedule hc h
  | setLevel now =>
    simp only [Interrupt.handlerCall] at h
    split at h
    · cases h
      exact ⟨rfl, rfl, rfl, rfl, rfl⟩
    · contradiction
  | yieldOnReturn => exact hc.elim

private theorem alike_device (calls : List HandlerCall) (hc : ∀ c ∈ calls, c.OfDevice)
    (h : calls.foldlM Interrupt.handlerCall s = some s') : Alike s s' := by
  induction calls generalizing s with
  | nil =>
    obtain rfl : s = s' := Option.some.inj h
    exact ⟨rfl, rfl, rfl, rfl, rfl⟩
  | cons c calls ih =>
    rw [List.foldlM_cons] at h
    obtain ⟨s₁, hcall, h⟩ := Option.bind_eq_some_iff.mp h
    have hhead := alike_handlerCall (hc c (List.mem_cons_self ..)) hcall
    exact hhead.trans (ih (fun d hd => hc d (List.mem_cons_of_mem _ hd)) h)

private theorem setInterrupt_armed {random : Nat}
    (h : (timer.setInterrupt random).foldlM Interrupt.handlerCall s = some s')
    (hnone : timers s = []) :
    Armed timer s' ∧ (∀ p ∈ timers s', s.totalTicks + timer.shortest ≤ p.when) ∧
      s'.status = s.status ∧ s'.totalTicks = s.totalTicks ∧ s'.halted = s.halted ∧
      s'.yieldOnReturn = s.yieldOnReturn := by
  unfold Timer.setInterrupt at h
  split at h
  next hdisable =>
    obtain rfl : s = s' := Option.some.inj h
    exact ⟨.off hnone hdisable, by simp [hnone], rfl, rfl, rfl, rfl⟩
  next =>
    rw [List.foldlM_cons] at h
    obtain ⟨s₁, hsched, h⟩ := Option.bind_eq_some_iff.mp h
    obtain rfl : s₁ = s' := Option.some.inj h
    obtain ⟨-, rfl⟩ := schedule_eq hsched
    have hdelay := timer.delay_mem random
    refine ⟨.pending _ (timers_insert_own rfl hnone) rfl ?_, ?_, rfl, rfl, rfl, rfl⟩
    · exact Int.add_le_add_left hdelay.2 _
    · intro p hp
      rw [timers, timers_insert_own rfl hnone, List.mem_singleton] at hp
      rw [hp]
      exact Int.add_le_add_left hdelay.1 _

private theorem alarm_calls {status : MachineStatus}
    (h : (alarmCallBack status).foldlM Interrupt.handlerCall s = some s') :
    s' = { s with yieldOnReturn := s.yieldOnReturn || decide (status ≠ .idleMode) } := by
  unfold alarmCallBack at h
  split at h
  next hawake =>
    rw [List.foldlM_cons] at h
    obtain ⟨s₁, hcall, h⟩ := Option.bind_eq_some_iff.mp h
    obtain rfl : s₁ = s' := Option.some.inj h
    simp only [Interrupt.handlerCall] at hcall
    split at hcall
    · simp [← Option.some.inj hcall, hawake]
    · contradiction
  next hidle =>
    obtain rfl : s = s' := Option.some.inj h
    simp [hidle]

/-! ## The loop -/

private theorem Ticking.fireTimer (h : Ticking timer yields s) {next : PendingInterrupt}
    {rest : List PendingInterrupt} (hpend : s.pending = next :: rest)
    (hown : next.callOnInterrupt = alarmTimer) (hdue : next.when ≤ s.totalTicks) {random : Nat}
    (hs : (timer.callBack s.status random).foldlM Interrupt.handlerCall (s.called next rest) =
      some s') : Ticking timer yields s' ∧ Serves s s' := by
  have htimers : timers s = next :: timers (s.called next rest) := by
    rw [timers, hpend, List.filter_cons_of_pos (by simpa using hown)]
    rfl
  have hnone : timers (s.called next rest) = [] := by
    cases h.armed with
    | pending p hp _ _ => exact (List.cons.inj (htimers.symm.trans hp)).2
    | off hoff _ => rw [hoff] at htimers; contradiction
  rw [Timer.callBack, List.foldlM_append] at hs
  obtain ⟨s₁, halarm, hs⟩ := Option.bind_eq_some_iff.mp hs
  obtain rfl := alarm_calls halarm
  obtain ⟨harmed, hlater, hstatus, htotal, hhalted, hyield⟩ := setInterrupt_armed hs hnone
  have hpast : ∀ t ∈ yields, t + timer.shortest ≤ s.totalTicks := by
    intro t ht
    have hnext : next ∈ timers s := by rw [htimers]; exact List.mem_cons_self ..
    exact (h.later next hnext t ht).trans hdue
  have hyield : s'.yieldOnReturn = (s.yieldOnReturn || decide (s.status ≠ .idleMode)) := hyield
  have hstatus : s'.status = s.status := hstatus
  have htotal : s'.totalTicks = s.totalTicks := htotal
  have hlater : ∀ p ∈ timers s', s.totalTicks + timer.shortest ≤ p.when := hlater
  constructor
  · constructor
    case armed => exact harmed
    case later =>
      intro p hp t ht
      have hp := hlater p hp
      have ht := hpast t ht
      have hpos := timer.shortest_pos
      omega
    case asked =>
      intro hasked
      rw [hstatus, htotal]
      refine ⟨?_, hlater, hpast⟩
      rw [hyield, Bool.or_eq_true, decide_eq_true_eq] at hasked
      rcases hasked with hasked | hawake
      · exact (h.asked hasked).1
      · exact hawake
  · refine ⟨hstatus, htotal, hhalted, ?_, ?_⟩
    · intro hy
      rw [hyield, hy, Bool.true_or]
    · intro hawake p hp
      rw [htimers, hnone, List.mem_singleton] at hp
      right
      rw [hyield, decide_eq_true hawake, Bool.or_true, hp]
      exact ⟨rfl, hdue⟩

theorem Ticking.fireNext (h : Ticking timer yields s) (hdue : s.frontDue = true)
    {calls : List HandlerCall} {random : Nat}
    (hcalls : ∀ p ∈ s.pending.head?, timer.Answers s.status random p calls)
    (hs : s.fireNext calls = some s') : Ticking timer yields s' ∧ Serves s s' := by
  obtain ⟨next, rest, hpend, hle⟩ := Interrupt.frontDue_iff.mp hdue
  simp only [Interrupt.fireNext, hpend] at hs
  have hnext := hcalls next (by rw [hpend]; rfl)
  unfold Timer.Answers at hnext
  split at hnext
  next hown =>
    rw [hnext] at hs
    exact h.fireTimer hpend hown hle hs
  next hother =>
    have hcalled : Alike s (s.called next rest) := by
      refine ⟨?_, rfl, rfl, rfl, rfl⟩
      rw [timers, timers, hpend, List.filter_cons_of_neg (by simpa using hother)]
      rfl
    have halike := hcalled.trans (alike_device calls hnext hs)
    exact ⟨h.alike halike, halike.serves⟩

private theorem fireNext_fired {calls : List HandlerCall} (hs : s.fireNext calls = some s') :
    ∃ p r, s.pending.head? = some p ∧ r.interrupt = p ∧ s'.fired = s.fired ++ [r] := by
  unfold Interrupt.fireNext at hs
  split at hs
  next => contradiction
  next next rest hpend =>
    refine ⟨next, _, by rw [hpend]; rfl, ?_, (Interrupt.handler_extends calls hs).fired⟩
    rfl

private theorem checkLoop_fired {handler : Nat → List HandlerCall} (fuel : Nat)
    (hs : Interrupt.checkLoop handler fuel s = some (some s')) : s.fired <+: s'.fired := by
  induction fuel generalizing s with
  | zero => simp [Interrupt.checkLoop] at hs
  | succ fuel ih =>
    obtain ⟨s₁, hfire, hs⟩ := Option.bind_eq_some_iff.mp hs
    obtain ⟨p, r, -, -, hfired⟩ := fireNext_fired hfire
    have hpre : s.fired <+: s₁.fired := ⟨[r], hfired.symm⟩
    split at hs
    next => exact hpre.trans (ih hs)
    next =>
      obtain rfl : s₁ = s' := Option.some.inj (Option.some.inj hs)
      exact hpre

theorem Ticking.checkLoop {handler : Nat → List HandlerCall} {random : Nat → Nat} (fuel : Nat)
    (h : Ticking timer yields s) (hdue : s.frontDue = true)
    (hs : Interrupt.checkLoop handler fuel s = some (some s'))
    (hhandled : ∀ n r, s.fired.length ≤ n → s'.fired[n]? = some r →
      timer.Answers s.status (random n) r.interrupt (handler n)) :
    Ticking timer yields s' ∧ Serves s s' := by
  induction fuel generalizing s with
  | zero => simp [Interrupt.checkLoop] at hs
  | succ fuel ih =>
    obtain ⟨s₁, hfire, hs⟩ := Option.bind_eq_some_iff.mp hs
    obtain ⟨p, r, hhead, hrp, hfired⟩ := fireNext_fired hfire
    have hgrown : s₁.fired <+: s'.fired := by
      split at hs
      next => exact checkLoop_fired fuel hs
      next =>
        obtain rfl : s₁ = s' := Option.some.inj (Option.some.inj hs)
        exact List.prefix_rfl
    have hat : s'.fired[s.fired.length]? = some r := by
      obtain ⟨more, hmore⟩ := hgrown
      rw [← hmore, hfired, List.append_assoc, List.getElem?_append_right le_rfl, Nat.sub_self]
      rfl
    have hanswers := hhandled _ r le_rfl hat
    rw [hrp] at hanswers
    obtain ⟨h₁, hserves⟩ := h.fireNext hdue
      (fun q hq => by rwa [Option.mem_unique hq hhead]) hfire
    split at hs
    next hdue₁ =>
      have hlonger : s.fired.length ≤ s₁.fired.length := by
        rw [hfired, List.length_append]
        exact Nat.le_add_right _ _
      obtain ⟨h₂, hserves₂⟩ := ih h₁ hdue₁ hs fun n r' hn hr' => by
        rw [hserves.status]
        exact hhandled n r' (hlonger.trans hn) hr'
      exact ⟨h₂, hserves.trans hserves₂⟩
    next =>
      obtain rfl : s₁ = s' := Option.some.inj (Option.some.inj hs)
      exact ⟨h₁, hserves⟩

/-! ## Calls into the simulation -/

private theorem advanceTo_alike (next : PendingInterrupt) :
    timers (s.advanceTo next) = timers s ∧ (s.advanceTo next).status = s.status ∧
      (s.advanceTo next).halted = s.halted ∧
      (s.advanceTo next).yieldOnReturn = s.yieldOnReturn := by
  unfold Interrupt.advanceTo
  split
  · exact ⟨rfl, rfl, rfl, rfl⟩
  · exact ⟨rfl, rfl, rfl, rfl⟩

private theorem Ticking.later_clock (h : Ticking timer yields s) (hcalm : s.yieldOnReturn = false)
    (htimers : timers s' = timers s) (hyield : s'.yieldOnReturn = s.yieldOnReturn)
    (htime : s.totalTicks ≤ s'.totalTicks) : Ticking timer yields s' where
  armed := h.armed.congr htimers htime
  later := by
    rw [htimers]
    exact h.later
  asked hasked := by
    rw [hyield, hcalm] at hasked
    contradiction

/-- A `CheckIfDue`: the timer is served, and with an interrupt pending it fires when the clock
is to be advanced. -/
structure Checked (timer : Timer) (yields : List Int) (s : Interrupt) (advanceClock b : Bool)
    (s' : Interrupt) : Prop where
  ticking : Ticking timer yields s'
  status : s'.status = s.status
  halted : s'.halted = s.halted
  forward : s.totalTicks ≤ s'.totalTicks
  still : advanceClock = false → s'.totalTicks = s.totalTicks
  served : s.status ≠ .idleMode → ∀ p ∈ timers s,
    p ∈ timers s' ∨ (s'.yieldOnReturn = true ∧ p.when ≤ s'.totalTicks)
  fires : advanceClock = true → timers s ≠ [] → b = true

theorem Ticking.checkIfDue (h : Ticking timer yields s) (hat : s.AtCheck)
    (hcalm : s.yieldOnReturn = false) {handler : Nat → List HandlerCall} {random : Nat → Nat}
    {fuel : Nat} {advanceClock b : Bool}
    (hs : Interrupt.checkIfDue handler fuel advanceClock s = some (some (b, s')))
    (hhandled : ∀ n r, s.fired.length ≤ n → s'.fired[n]? = some r →
      timer.Answers s.status (random n) r.interrupt (handler n)) :
    Checked timer yields s advanceClock b s' := by
  unfold Interrupt.checkIfDue at hs
  split at hs
  next =>
    split at hs
    next hpend =>
      cases hs
      refine ⟨h.alike ⟨rfl, rfl, rfl, rfl, rfl⟩, rfl, rfl, le_rfl, fun _ => rfl,
        fun _ p hp => .inl hp, ?_⟩
      intro _ hne
      rw [timers, hpend] at hne
      contradiction
    next next rest hpend =>
      split at hs
      next hnot =>
        cases hs
        refine ⟨h.alike ⟨rfl, rfl, rfl, rfl, rfl⟩, rfl, rfl, le_rfl, fun _ => rfl,
          fun _ p hp => .inl hp, ?_⟩
        intro hadvance
        rw [hnot.2] at hadvance
        contradiction
      next hgoes =>
        obtain ⟨done, hloop, hs⟩ := Option.bind_eq_some_iff.mp hs
        obtain ⟨s₁, rfl, heq⟩ := Option.map_eq_some_iff.mp (Option.some.inj hs)
        cases heq
        obtain ⟨htimers, hstatus, hhalted, hyield⟩ := advanceTo_alike (s := s) next
        have hfired := (Interrupt.advanceTo_pending (s := s) next).2.1
        have htime : s.totalTicks ≤ (s.advanceTo next).totalTicks := by
          rw [Interrupt.advanceTo_totalTicks]
          exact le_max_left _ _
        have hstart : Ticking timer yields { (s.advanceTo next).noteCheck with inHandler := true } :=
          h.later_clock hcalm htimers hyield htime
        obtain ⟨h₁, hserves⟩ := hstart.checkLoop fuel (hat.inLoop hpend).2 hloop
          fun n r hn hr => by
            rw [show ({ (s.advanceTo next).noteCheck with inHandler := true } : Interrupt).status =
              s.status from hstatus]
            exact hhandled n r (hfired ▸ hn) hr
        refine ⟨h₁.alike ⟨rfl, rfl, rfl, rfl, rfl⟩, hserves.status.trans hstatus,
          hserves.halted.trans hhalted, htime.trans hserves.totalTicks.ge, ?_, ?_, fun _ _ => rfl⟩
        · intro hstill
          have hdue : next.when ≤ s.totalTicks := by
            by_contra hlater
            exact hgoes ⟨Int.not_le.mp hlater, hstill⟩
          refine hserves.totalTicks.trans ?_
          rw [← max_eq_left hdue]
          exact Interrupt.advanceTo_totalTicks next
        · intro hawake p hp
          have hserved := hserves.served (fun hidle => hawake (hstatus.symm.trans hidle)) p
            (htimers ▸ hp)
          rwa [← hserves.totalTicks] at hserved
  next => contradiction

/-- What a call does; `b` when it comes to a `Yield`. -/
structure Ticked (timer : Timer) (yields : List Int) (s : Interrupt) (busy : Prop) (b : Bool)
    (s' : Interrupt) : Prop where
  ticking : Ticking timer (if b then yields ++ [s'.totalTicks] else yields) s'
  calm : s'.yieldOnReturn = false
  awake : s'.halted = false → s'.status ≠ .idleMode
  halted : timers s ≠ [] → s'.halted = s.halted
  forward : s.totalTicks ≤ s'.totalTicks
  short : busy → s'.totalTicks ≤ s.totalTicks + systemTick
  served : busy → ∀ p ∈ timers s, p ∈ timers s' ∨ (b = true ∧ p.when ≤ s'.totalTicks)
  apart : b = true → ∀ t ∈ yields, t + timer.shortest ≤ s'.totalTicks

theorem Ticking.quiet (h : Ticking timer yields s) (hcalm : s.yieldOnReturn = false)
    (hawake : s'.status ≠ .idleMode) (htimers : timers s' = timers s)
    (hyield : s'.yieldOnReturn = s.yieldOnReturn) (htotal : s'.totalTicks = s.totalTicks)
    (hhalted : s'.halted = s.halted) (busy : Prop) : Ticked timer yields s busy false s' where
  ticking := h.later_clock hcalm htimers hyield htotal.ge
  calm := hyield.trans hcalm
  awake _ := hawake
  halted _ := hhalted
  forward := htotal.ge
  short _ := htotal.le.trans (Int.le_add_of_nonneg_right (by decide))
  served _ p hp := .inl (by rwa [htimers])
  apart hb := absurd hb (by simp)

private theorem tick_alike (s : Interrupt) : timers s.tick = timers s ∧ s.tick.status = s.status ∧
    s.tick.halted = s.halted ∧ s.tick.yieldOnReturn = s.yieldOnReturn ∧
    s.tick.fired = s.fired ∧ s.totalTicks ≤ s.tick.totalTicks ∧
    s.tick.totalTicks ≤ s.totalTicks + systemTick := by
  unfold Interrupt.tick
  split
  · exact ⟨rfl, rfl, rfl, rfl, rfl, Int.le_add_of_nonneg_right (by decide), le_rfl⟩
  · refine ⟨rfl, rfl, rfl, rfl, rfl, Int.le_add_of_nonneg_right (by decide), ?_⟩
    exact Int.add_le_add_left (by decide) _

theorem Ticking.oneTick (h : Ticking timer yields s) (hinv : s.Inv)
    (hcalm : s.yieldOnReturn = false) (hawake : s.status ≠ .idleMode)
    {handler : Nat → List HandlerCall} {random : Nat → Nat} {fuel : Nat}
    (hs : s.oneTick handler fuel = some (some s'))
    (hhandled : ∀ n r, s.fired.length ≤ n → s'.fired[n]? = some r →
      timer.Answers s.status (random n) r.interrupt (handler n)) (busy : Prop) :
    Ticked timer yields s busy (s.yieldsInTick handler fuel) s' := by
  obtain ⟨done, hcheck, hs⟩ := Option.bind_eq_some_iff.mp hs
  obtain ⟨⟨b, s₁⟩, rfl, rfl⟩ := Option.map_eq_some_iff.mp (Option.some.inj hs)
  obtain ⟨htimers, hstatus, hhalted, hyield, hfired, htime, hshort⟩ := tick_alike s
  have hend : timers s₁.endTick = timers s₁ ∧ s₁.endTick.totalTicks = s₁.totalTicks ∧
      s₁.endTick.halted = s₁.halted ∧ s₁.endTick.fired = s₁.fired ∧
      s₁.endTick.yieldOnReturn = false ∧
      (s₁.status ≠ .idleMode → s₁.endTick.status ≠ .idleMode) := by
    unfold Interrupt.endTick
    split
    next => exact ⟨rfl, rfl, rfl, rfl, rfl, fun _ => by simp⟩
    next hno => exact ⟨rfl, rfl, rfl, rfl, by simpa using hno, id⟩
  obtain ⟨htimers₁, htotal₁, hhalted₁, hfired₁, hyield₁, hstatus₁⟩ := hend
  have hb : s.yieldsInTick handler fuel = s₁.yieldOnReturn := by
    rw [Interrupt.yieldsInTick, hcheck]
  have hchecked := (h.later_clock hcalm htimers hyield htime).checkIfDue hinv.tick
    (hyield.trans hcalm) hcheck fun n r hn hr => by
      rw [hstatus]
      rw [hfired] at hn
      rw [hfired₁] at hhandled
      exact hhandled n r hn hr
  rw [hb]
  constructor
  case ticking =>
    constructor
    case armed => exact hchecked.ticking.armed.congr htimers₁ htotal₁.ge
    case later =>
      rw [htimers₁, htotal₁]
      intro p hp t ht
      split at ht
      next hasked =>
        rcases List.mem_append.mp ht with ht | ht
        · exact hchecked.ticking.later p hp t ht
        · rw [List.mem_singleton.mp ht]
          exact (hchecked.ticking.asked hasked).2.1 p hp
      next => exact hchecked.ticking.later p hp t ht
    case asked =>
      intro hasked
      rw [hyield₁] at hasked
      contradiction
  case calm => exact hyield₁
  case awake =>
    intro _
    apply hstatus₁
    rw [hchecked.status, hstatus]
    exact hawake
  case halted => exact fun _ => hhalted₁.trans (hchecked.halted.trans hhalted)
  case forward => exact htime.trans (hchecked.forward.trans htotal₁.ge)
  case short => exact fun _ => (htotal₁.trans (hchecked.still rfl)).le.trans hshort
  case served =>
    intro _ p hp
    rw [htimers₁, htotal₁]
    exact hchecked.served (fun hidle => hawake (hstatus.symm.trans hidle)) p (by rwa [htimers])
  case apart =>
    intro hasked t ht
    rw [htotal₁]
    exact (hchecked.ticking.asked hasked).2.2 t ht

/-- The machine idles until some interrupt; the timer asks for no `Yield` then. -/
theorem Ticking.idle (h : Ticking timer yields s) (hinv : s.Inv)
    (hcalm : s.yieldOnReturn = false) {handler : Nat → List HandlerCall} {random : Nat → Nat}
    {fuel : Nat} (hs : s.idle handler fuel = some (some s'))
    (hhandled : ∀ n r, s.fired.length ≤ n → s'.fired[n]? = some r →
      timer.Answers .idleMode (random n) r.interrupt (handler n)) :
    Ticked timer yields s False false s' := by
  obtain ⟨done, hcheck, hs⟩ := Option.bind_eq_some_iff.mp hs
  obtain ⟨⟨b, s₁⟩, rfl, rfl⟩ := Option.map_eq_some_iff.mp (Option.some.inj hs)
  have hidling : Ticking timer yields { s with status := .idleMode } :=
    h.later_clock hcalm rfl rfl le_rfl
  have hfired : (if b then { s₁ with status := .systemMode } else { s₁ with halted := true } :
      Interrupt).fired = s₁.fired := by
    split
    · rfl
    · rfl
  have hchecked := hidling.checkIfDue hinv.idling hcalm hcheck fun n r hn hr =>
    hhandled n r hn (hfired.symm ▸ hr)
  have hcalm₁ : s₁.yieldOnReturn = false := by
    by_contra hasked
    exact (hchecked.ticking.asked (Bool.eq_true_of_not_eq_false hasked)).1 hchecked.status
  cases b with
  | true =>
    refine ⟨hchecked.ticking.later_clock hcalm₁ rfl rfl le_rfl, hcalm₁, fun _ => by simp,
      fun _ => hchecked.halted, hchecked.forward, False.elim, False.elim, fun hb => absurd hb (by simp)⟩
  | false =>
    refine ⟨hchecked.ticking.later_clock hcalm₁ rfl rfl le_rfl, hcalm₁, fun hlive => ?_,
      fun hne => ?_, hchecked.forward, False.elim, False.elim, fun hb => absurd hb (by simp)⟩
    · exact absurd hlive (by simp)
    · exact absurd (hchecked.fires rfl hne) (by simp)

theorem Ticking.exec (h : Ticking timer yields s) (hinv : s.Inv)
    (hcalm : s.yieldOnReturn = false) (hawake : s.status ≠ .idleMode) {l : InterruptLabel}
    (hl : l.OfKernel) {random : Nat → Nat} {fuel : Nat} (hs : s.exec fuel l = some (some s'))
    (hhandled : Handled timer s s' l random) :
    Ticked timer yields s l.Busy (s.yieldsIn fuel l) s' := by
  cases l with
  | schedule toCall fromNow type =>
    obtain ⟨s₁, hsched, heq⟩ := Option.map_eq_some_iff.mp hs
    cases heq
    have halike := alike_schedule hl hsched
    exact h.quiet hcalm (fun hidle => hawake (halike.status.symm.trans hidle)) halike.timers
      halike.yieldOnReturn halike.totalTicks halike.halted _
  | oneTick handler => exact h.oneTick hinv hcalm hawake hs hhandled _
  | setLevel now handler =>
    have hnow : { s with level := now }.Inv := hinv.congr rfl rfl rfl rfl ⟨rfl, rfl, rfl, rfl⟩
    have hticking : Ticking timer yields { s with level := now } :=
      h.alike ⟨rfl, rfl, rfl, rfl, rfl⟩
    simp only [Interrupt.exec, Interrupt.setLevel] at hs
    simp only [Interrupt.yieldsIn]
    split at hs
    · split at hs
      next hon =>
        rw [decide_eq_true hon, Bool.true_and]
        have hticked := hticking.oneTick hnow hcalm hawake hs hhandled
          (InterruptLabel.setLevel now handler).Busy
        exact ⟨hticked.ticking, hticked.calm, hticked.awake, hticked.halted, hticked.forward,
          hticked.short, hticked.served, hticked.apart⟩
      next hoff =>
        obtain rfl := Option.some.inj (Option.some.inj hs)
        rw [decide_eq_false hoff, Bool.false_and]
        have hnow : ({ s with level := now } : Interrupt).status ≠ .idleMode := hawake
        exact h.quiet hcalm hnow rfl rfl rfl rfl _
    · contradiction
  | idle handler => exact h.idle hinv hcalm hs hhandled
  | setStatus st =>
    obtain rfl := Option.some.inj (Option.some.inj hs)
    have hst : ({ s with status := st } : Interrupt).status ≠ .idleMode := hl
    exact h.quiet hcalm hst rfl rfl rfl rfl _

/-! ## Every run -/

/-- Between the calls into the simulation. -/
structure Inv (randomize : Bool) (s : TimeSharing) : Prop where
  mode : s.timer.randomize = randomize
  delivery : s.interrupt.Inv
  ticking : Ticking s.timer s.yields s.interrupt
  calm : s.interrupt.yieldOnReturn = false
  awake : s.interrupt.halted = false → s.interrupt.status ≠ .idleMode
  live : s.timer.disable = false → s.interrupt.halted = false
  spaced : s.yields.Pairwise fun a b => a + s.timer.shortest ≤ b
  past : ∀ t ∈ s.yields, t ≤ s.interrupt.totalTicks

theorem Inv.start {randomize : Bool} {random : Nat} {s : TimeSharing}
    (h : start randomize random = some s) : s.Inv randomize := by
  obtain ⟨i, hi, h⟩ := Option.bind_eq_some_iff.mp h
  cases h
  have hnone : timers Interrupt.new = [] := rfl
  obtain ⟨harmed, -, hstatus, htotal, hhalted, hyield⟩ := setInterrupt_armed hi hnone
  have hdelivery : i.Inv := by
    simp only [Timer.setInterrupt, Bool.false_eq_true, if_false, List.foldlM_cons,
      List.foldlM_nil] at hi
    obtain ⟨s₁, hsched, hi⟩ := Option.bind_eq_some_iff.mp hi
    obtain rfl : s₁ = i := Option.some.inj hi
    have hexec : Interrupt.exec 0 .new (.schedule alarmTimer
        (Timer.delay { randomize := randomize, disable := false } random) .timerInt) =
        some (some s₁) := congrArg (Option.map some) hsched
    exact Interrupt.Inv.new.exec hexec
  constructor
  case mode => rfl
  case delivery => exact hdelivery
  case ticking => exact ⟨harmed, by simp, fun hasked => by rw [hyield] at hasked; contradiction⟩
  case calm => exact hyield
  case awake => exact fun _ => by rw [hstatus]; simp [Interrupt.new]
  case live => exact fun _ => hhalted
  case spaced => exact .nil
  case past => simp

private theorem Inv.timers_ne_nil {randomize : Bool} {s : TimeSharing} (h : s.Inv randomize)
    (hon : s.timer.disable = false) : timers s.interrupt ≠ [] := by
  cases h.ticking.armed with
  | pending p hp _ _ => simp [hp]
  | off _ hdisable => rw [hon] at hdisable; contradiction

theorem Inv.step {randomize : Bool} {s s' : TimeSharing} {l : TimerLabel} (h : s.Inv randomize)
    (hs : Step s l s') : s'.Inv randomize := by
  cases hs with
  | @call l random fuel i hlive hl hi hhandled =>
    have hticked := h.ticking.exec h.delivery h.calm (h.awake hlive) hl hi hhandled
    constructor
    case mode => exact h.mode
    case delivery => exact h.delivery.exec hi
    case ticking => exact hticked.ticking
    case calm => exact hticked.calm
    case awake => exact hticked.awake
    case live => exact fun hon => (hticked.halted (h.timers_ne_nil hon)).trans hlive
    case spaced =>
      show (if _ then _ else _ : List Int).Pairwise _
      split
      next hb =>
        apply List.pairwise_append.mpr
        refine ⟨h.spaced, List.pairwise_singleton .., ?_⟩
        intro t ht u hu
        rw [List.mem_singleton.mp hu]
        exact hticked.apart hb t ht
      next => exact h.spaced
    case past =>
      intro t ht
      have hforward := hticked.forward
      simp only at ht
      split at ht
      next =>
        rcases List.mem_append.mp ht with ht | ht
        · exact (h.past t ht).trans hforward
        · rw [List.mem_singleton.mp ht]
      next => exact (h.past t ht).trans hforward
  | disable =>
    have hticking := h.ticking
    constructor
    case mode => exact h.mode
    case delivery => exact h.delivery
    case ticking =>
      refine ⟨?_, hticking.later, hticking.asked⟩
      cases hticking.armed with
      | pending p hp htype hnear => exact .pending p hp htype hnear
      | off hnone _ => exact .off hnone rfl
    case calm => exact h.calm
    case awake => exact h.awake
    case live => exact fun hon => absurd hon (by simp)
    case spaced => exact h.spaced
    case past => exact h.past

theorem inv_inductive (randomize : Bool) : (timeSharing randomize).Inductive (Inv randomize) where
  init _ hs := hs.elim fun _ => .start
  step _ _ _ h hs := h.step hs

/-- An interrupt of the timer that is no longer pending has led to a `Yield`. -/
theorem Inv.served {randomize : Bool} {s s' : TimeSharing} (h : s.Inv randomize)
    {p : PendingInterrupt} (hp : p ∈ timers s.interrupt) {ls : List TimerLabel}
    (hrun : (timeSharing randomize).Trace s ls s') (hbusy : ∀ l ∈ ls, l.Busy) :
    s'.Inv randomize ∧ (p ∈ timers s'.interrupt ∨
      ∃ t ∈ s'.yields, p.when ≤ t ∧ t < p.when + systemTick) := by
  induction hrun with
  | nil => exact ⟨h, .inl hp⟩
  | step hrun hs ih =>
    obtain ⟨h₁, hserved⟩ := ih fun l hl => hbusy l (List.mem_append_left _ hl)
    refine ⟨h₁.step hs, ?_⟩
    have hlast := hbusy _ (List.mem_append_right _ (List.mem_singleton_self _))
    cases hs with
    | @call _ random fuel i hlive hl hi hhandled =>
      have hticked := h₁.ticking.exec h₁.delivery h₁.calm (h₁.awake hlive) hl hi hhandled
      rcases hserved with hpend | ⟨t, ht, hdue⟩
      · rcases hticked.served hlast p hpend with hpend' | ⟨hb, hdue⟩
        · exact .inl hpend'
        · have hbefore := h₁.delivery.calm p (List.mem_filter.mp hpend).1
          have hshort := hticked.short hlast
          refine .inr ⟨i.totalTicks, ?_, hdue, ?_⟩
          · simp [hb]
          · exact hshort.trans_lt (Int.add_lt_add_right hbefore _)
      · refine .inr ⟨t, ?_, hdue⟩
        simp only
        split
        · exact List.mem_append_left _ ht
        · exact ht
    | disable => exact hserved

end TimeSharing

/-- The timer never stops by itself and the machine does not halt for want of an interrupt. Two
calls of `Yield` are at least a delay apart. While some thread has the processor, each interrupt
of the timer leads to a `Yield` in the tick in which it is due. -/
theorem timer_preempts (randomize : Bool) {s : TimeSharing}
    (hr : (timeSharing randomize).Reachable s) :
    (s.timer.disable = false → s.interrupt.halted = false ∧
      ∃ p, TimeSharing.timers s.interrupt = [p] ∧ p.type = .timerInt ∧
        s.interrupt.totalTicks < p.when ∧
        p.when ≤ s.interrupt.totalTicks + if randomize then 200 else 100) ∧
    s.yields.Pairwise (fun a b => a + (if randomize then 1 else 100) ≤ b) ∧
    ∀ p ∈ TimeSharing.timers s.interrupt, ∀ ls s', (timeSharing randomize).Trace s ls s' →
      (∀ l ∈ ls, l.Busy) → p.when ≤ s'.interrupt.totalTicks →
        ∃ t ∈ s'.yields, p.when ≤ t ∧ t < p.when + systemTick := by
  have h := (TimeSharing.inv_inductive randomize).of_reachable hr
  have hmode := h.mode
  refine ⟨?_, ?_, ?_⟩
  · intro hon
    refine ⟨h.live hon, ?_⟩
    cases h.ticking.armed with
    | pending p hp htype hnear =>
      have hmem : p ∈ TimeSharing.timers s.interrupt := by
        rw [hp]
        exact List.mem_singleton_self p
      refine ⟨p, hp, htype, h.delivery.calm p (List.mem_filter.mp hmem).1, ?_⟩
      rwa [Timer.longest, hmode] at hnear
    | off _ hdisable =>
      rw [hon] at hdisable
      contradiction
  · have hspaced := h.spaced
    rwa [Timer.shortest, hmode] at hspaced
  · intro p hp ls s' hrun hbusy hdue
    obtain ⟨h', hpend | hyield⟩ := h.served hp hrun hbusy
    · have hcalm := h'.delivery.calm p (List.mem_filter.mp hpend).1
      omega
    · exact hyield

/-- The random delay is one tick at first, and the first tick of the machine is due to it. -/
private def shortSlice : TimeSharing :=
  (TimeSharing.start true 0).getD ⟨.new, ⟨true, false⟩, []⟩

private def sliceOver : Interrupt :=
  ((shortSlice.interrupt.oneTick (fun _ => shortSlice.timer.callBack .systemMode 41) 1).getD
    none).getD .new

theorem timer_preempts_slice :
    ∃ s, (timeSharing true).Reachable s ∧ s.interrupt.totalTicks = 10 ∧ s.yields = [10] ∧
      s.interrupt.halted = false ∧
      ∃ p, TimeSharing.timers s.interrupt = [p] ∧ p.when = 52 ∧ p.when ≤ 10 + 200 := by
  have hstart : (timeSharing true).Reachable shortSlice := .init ⟨0, rfl⟩
  have hstep : (timeSharing true).step shortSlice
      (.call (.oneTick fun _ => shortSlice.timer.callBack .systemMode 41) fun _ => 41)
      { shortSlice with interrupt := sliceOver, yields := [10] } := by
    have hexec : shortSlice.interrupt.exec 1
        (.oneTick fun _ => shortSlice.timer.callBack .systemMode 41) = some (some sliceOver) := rfl
    refine .call rfl ?_ hexec ?_
    · exact trivial
    intro n r hn hr
    have hlen : sliceOver.fired.length = 1 := rfl
    obtain ⟨hlt, rfl⟩ := List.getElem?_eq_some_iff.mp hr
    obtain rfl : n = 0 := by omega
    rfl
  have hr := hstart.step hstep
  obtain ⟨hpending, -, -⟩ := timer_preempts true hr
  obtain ⟨hlive, p, hp, -, -, hnear⟩ := hpending rfl
  refine ⟨_, hr, rfl, rfl, hlive, p, hp, ?_, hnear⟩
  have hwhen : (TimeSharing.timers sliceOver).map PendingInterrupt.when = [52] := rfl
  have hmap : (TimeSharing.timers sliceOver).map PendingInterrupt.when = [p.when] :=
    congrArg (List.map PendingInterrupt.when) hp
  exact List.singleton_inj.mp (hmap.symm.trans hwhen)

end Nachos

import Nachos.Threads.Lock

/-!
# Condition variables

`Condition::Wait` queues a fresh private semaphore, releases the lock, sleeps in `P` of that
semaphore, takes the lock again and deletes the semaphore; `Signal` applies `V` to the first
queued semaphore and `Broadcast` repeats `Signal` until the queue is empty. One condition is
used with one lock. A run interleaves the steps of any number of threads, including threads
that only acquire and release the lock. Private semaphores are numbered in the order in which
`Wait` allocates them, so a number names one call of `Wait`.
-/

namespace Nachos

open Framework

/-- A call of `Broadcast`: the waiters queued when it started and those it has released. -/
structure BroadcastRecord where
  waiting : List Nat
  released : List Nat

/-- Where a thread stands in the code of one condition. -/
inductive CondPc
  | idle
  /-- queued; `conditionLock->Release()` is running -/
  | waitRelease (w : Nat)
  /-- about to call or inside `waiter->P()` -/
  | waitP (w : Nat)
  /-- `conditionLock->Acquire()` is running -/
  | waitAcquire (w : Nat)
  /-- about to delete the waiter and return -/
  | waitDelete (w : Nat)
  /-- `Signal` has removed the waiter and is about to call `waiter->V()` -/
  | signalV (w : Nat) (broadcast : Option BroadcastRecord)
  /-- at the loop test of `Broadcast`, after its first `Signal` -/
  | broadcast (b : BroadcastRecord)

namespace CondPc

def isIdle : CondPc → Bool
  | .idle => true
  | _ => false

/-- The `Wait` a thread is in. -/
def waits : CondPc → Option Nat
  | .waitRelease w | .waitP w | .waitAcquire w | .waitDelete w => some w
  | _ => none

/-- The waiter a `Signal` is about to apply `V` to. -/
def signals : CondPc → Option Nat
  | .signalV w _ => some w
  | _ => none

/-- The running `Broadcast`. -/
def record : CondPc → Option BroadcastRecord
  | .signalV _ b => b
  | .broadcast b => some b
  | _ => none

/-- The `Wait` has come back from its `P`. -/
def passed : CondPc → Bool
  | .waitAcquire _ | .waitDelete _ => true
  | _ => false

def allows : CondPc → LockLabel → Bool
  | .idle, _ => true
  | .waitRelease _, .release _ | .waitRelease _, .v _ => true
  | .waitAcquire _, .acquire _ | .waitAcquire _, .retest _ | .waitAcquire _, .assign _ => true
  | _, _ => false

def afterLock : CondPc → LockLabel → CondPc
  | .waitRelease w, .v _ => .waitP w
  | .waitAcquire w, .assign _ => .waitDelete w
  | pc, _ => pc

/-- Where the thread goes on after the `V` of `Signal`. -/
def afterV : Option BroadcastRecord → CondPc
  | none => .idle
  | some b => .broadcast b

def lockOk : CondPc → LockPc → Prop
  | .idle, _ => True
  | .waitRelease _, pc => pc = .holding ∨ pc = .releasing
  | .waitP _, pc => pc = .outside
  | .waitAcquire _, pc => pc = .outside ∨ pc = .inP false ∨ pc = .gotP
  | .waitDelete _, pc => pc = .holding
  | .signalV _ _, pc => pc = .holding
  | .broadcast _, pc => pc = .holding

end CondPc

/-- A condition and its lock. From `enqueued` on the fields record the history: the waiters in
the order of their `Append`, of their `RemoveFront` and of their `V`, those whose `Wait` has
returned, the finished broadcasts, and whether `V` has hit a deleted semaphore. -/
structure CondState where
  lock : LockState
  waitQueue : List Nat
  waiter : Nat → Option SemState
  nextWaiter : Nat
  pc : ThreadId → CondPc
  aborted : Bool
  enqueued : List Nat
  released : List Nat
  signalled : List Nat
  returned : List Nat
  broadcasts : List BroadcastRecord
  badV : Bool

namespace CondState

def new : CondState :=
  { lock := .new, waitQueue := [], waiter := fun _ => none, nextWaiter := 0,
    pc := fun _ => .idle, aborted := false, enqueued := [], released := [], signalled := [],
    returned := [], broadcasts := [], badV := false }

def callable (s : CondState) (t : ThreadId) : Prop :=
  (s.pc t).isIdle = true ∧ (s.lock.pc t = .outside ∨ s.lock.pc t = .holding)

instance (s : CondState) (t : ThreadId) : Decidable (s.callable t) :=
  inferInstanceAs (Decidable (_ ∧ _))

/-- `Wait` up to the release of the lock. -/
def wait (s : CondState) (t : ThreadId) : CondState :=
  -- ASSERT(conditionLock->IsHeldByCurrentThread())
  if s.lock.lockHolder = some t then
    match listAppend s.waitQueue s.nextWaiter with
    | none => { s with aborted := true }
    | some queue =>
      { s with waitQueue := queue,
               waiter := Function.update s.waiter s.nextWaiter (some (.new 0)),
               nextWaiter := s.nextWaiter + 1,
               pc := Function.update s.pc t (.waitRelease s.nextWaiter),
               enqueued := s.enqueued ++ [s.nextWaiter] }
  else { s with aborted := true }

/-- One section of `waiter->P()`. -/
def waiterP (s : CondState) (t : ThreadId) (w : Nat) (sem : SemState) : CondState :=
  match sem.p t with
  | none => { s with aborted := true }
  | some (sem', taken) =>
    { s with waiter := Function.update s.waiter w (some sem'),
             pc := Function.update s.pc t (if taken then .waitAcquire w else .waitP w) }

/-- `Signal` up to the `V`, called directly or from `Broadcast`; `done` is the record of the
broadcast before this signal. -/
def signal (s : CondState) (t : ThreadId) (done : Option BroadcastRecord) : CondState :=
  -- ASSERT(conditionLock->IsHeldByCurrentThread())
  if s.lock.lockHolder = some t then
    match s.waitQueue with
    | [] => s
    | w :: queue =>
      { s with waitQueue := queue, released := s.released ++ [w],
               pc := Function.update s.pc t
                 (.signalV w (done.map fun b => { b with released := b.released ++ [w] })) }
  else { s with aborted := true }

/-- The loop test of `Broadcast`, and the `Signal` in its body. -/
def broadcastTest (s : CondState) (t : ThreadId) (b : BroadcastRecord) : CondState :=
  match s.waitQueue with
  | [] => { s with pc := Function.update s.pc t .idle, broadcasts := s.broadcasts ++ [b] }
  | _ :: _ => s.signal t (some b)

/-- `waiter->V()` at the end of `Signal`. -/
def signalV (s : CondState) (t : ThreadId) (w : Nat) (b : Option BroadcastRecord) : CondState :=
  match s.waiter w with
  | none => { s with badV := true }
  | some sem =>
    { s with waiter := Function.update s.waiter w (some sem.v),
             signalled := s.signalled ++ [w],
             pc := Function.update s.pc t (.afterV b) }

end CondState

inductive CondLabel
  | lock (l : LockLabel)
  | wait (t : ThreadId)
  | waiterP (t : ThreadId)
  | waitDelete (t : ThreadId)
  | signal (t : ThreadId)
  | broadcast (t : ThreadId)
  | next (t : ThreadId)

/-- The next step of a thread; `none` when the thread is not at that point. -/
def condStep (s : CondState) : CondLabel → Option CondState
  | .lock l =>
    if (s.pc l.thread).allows l then
      (lockStep s.lock l).map fun lock =>
        { s with lock := lock, aborted := s.aborted || lock.aborted,
                 pc := Function.update s.pc l.thread ((s.pc l.thread).afterLock l) }
    else none
  | .wait t => if s.callable t then some (s.wait t) else none
  | .waiterP t =>
    match s.pc t with
    | .waitP w =>
      match s.waiter w with
      | none => none
      | some sem => if sem.asleep t then none else some (s.waiterP t w sem)
    | _ => none
  | .waitDelete t =>
    match s.pc t with
    | .waitDelete w =>
      some { s with waiter := Function.update s.waiter w none,
                    pc := Function.update s.pc t .idle, returned := s.returned ++ [w] }
    | _ => none
  | .signal t => if s.callable t then some (s.signal t none) else none
  | .broadcast t =>
    if s.callable t then some (s.broadcastTest t { waiting := s.waitQueue, released := [] })
    else none
  | .next t =>
    match s.pc t with
    | .signalV w b => some (s.signalV t w b)
    | .broadcast b => some (s.broadcastTest t b)
    | _ => none

def CondLabel.thread : CondLabel → ThreadId
  | .lock l => l.thread
  | .wait t | .waiterP t | .waitDelete t | .signal t | .broadcast t | .next t => t

/-- All interleavings of threads that use one condition with one lock. -/
def conditionSystem : System CondState CondLabel where
  init s := s = .new
  step s l s' := s.aborted = false ∧ condStep s l = some s'

def CondState.next (s : CondState) (l : CondLabel) : Option CondState :=
  if s.aborted then none else condStep s l

theorem CondState.next_step {s s' : CondState} {l : CondLabel} (h : s.next l = some s') :
    conditionSystem.step s l s' := by
  unfold CondState.next at h
  split at h
  next => contradiction
  next ha => exact ⟨by simpa using ha, h⟩

private theorem CondPc.isIdle_iff {pc : CondPc} : pc.isIdle = true ↔ pc = .idle := by
  cases pc <;> simp [isIdle]

theorem CondPc.afterLock_waits (pc : CondPc) (l : LockLabel) :
    (pc.afterLock l).waits = pc.waits := by
  cases pc <;> cases l <;> rfl

private theorem CondPc.afterLock_passed (pc : CondPc) (l : LockLabel) :
    (pc.afterLock l).passed = pc.passed := by
  cases pc <;> cases l <;> rfl

/-- The lock operations inside `Wait` move the thread to the place the code expects. -/
theorem lockOk_afterLock {s s' : LockState} {l : LockLabel} (h : s.Inv)
    (hs : lockStep s l = some s') {pc : CondPc} (hok : pc.lockOk (s.pc l.thread))
    (ha : pc.allows l = true) : (pc.afterLock l).lockOk (s'.pc l.thread) := by
  cases pc with
  | idle => trivial
  | waitRelease w =>
    cases l with
    | release t =>
      rcases hok with hpc | hpc
      · have hpc' : s.pc t = .holding := hpc
        have hholder : s.lockHolder = some t := (h.holder t).mpr (by simp [hpc', LockPc.returned])
        simp only [lockStep, hpc', hholder, or_true, if_true, Option.some.injEq] at hs
        rw [← hs]
        simp [CondPc.afterLock, CondPc.lockOk, LockLabel.thread]
      · have hpc' : s.pc t = .releasing := hpc
        simp [lockStep, hpc'] at hs
    | v t =>
      rcases hok with hpc | hpc
      · have hpc' : s.pc t = .holding := hpc
        simp [lockStep, hpc'] at hs
      · have hpc' : s.pc t = .releasing := hpc
        simp only [lockStep, hpc', Option.some.injEq] at hs
        rw [← hs]
        simp [CondPc.afterLock, CondPc.lockOk, LockLabel.thread]
    | acquire t => simp [CondPc.allows] at ha
    | retest t => simp [CondPc.allows] at ha
    | assign t => simp [CondPc.allows] at ha
  | waitAcquire w =>
    cases l with
    | acquire t =>
      rcases hok with hpc | hpc | hpc
      · have hpc' : s.pc t = .outside := hpc
        simp only [lockStep, hpc', Option.some.injEq] at hs
        rw [← hs]
        rcases h.enterP_pc false (h.awake (t := t) (by simp [hpc'])) with he | he
        · exact Or.inr (Or.inr he)
        · exact Or.inr (Or.inl he)
      · have hpc' : s.pc t = .inP false := hpc
        simp [lockStep, hpc'] at hs
      · have hpc' : s.pc t = .gotP := hpc
        simp [lockStep, hpc'] at hs
    | retest t =>
      rcases hok with hpc | hpc | hpc
      · have hpc' : s.pc t = .outside := hpc
        simp [lockStep, hpc'] at hs
      · have hpc' : s.pc t = .inP false := hpc
        cases hasleep : s.semaphore.asleep t with
        | true => simp [lockStep, hpc', hasleep] at hs
        | false =>
          simp only [lockStep, hpc', hasleep, Bool.false_eq_true, if_false,
            Option.some.injEq] at hs
          rw [← hs]
          rcases h.enterP_pc false hasleep with he | he
          · exact Or.inr (Or.inr he)
          · exact Or.inr (Or.inl he)
      · have hpc' : s.pc t = .gotP := hpc
        simp [lockStep, hpc'] at hs
    | assign t =>
      rcases hok with hpc | hpc | hpc
      · have hpc' : s.pc t = .outside := hpc
        simp [lockStep, hpc'] at hs
      · have hpc' : s.pc t = .inP false := hpc
        simp [lockStep, hpc'] at hs
      · have hpc' : s.pc t = .gotP := hpc
        simp only [lockStep, hpc', Option.some.injEq] at hs
        rw [← hs]
        simp [CondPc.afterLock, CondPc.lockOk, LockLabel.thread]
    | release t => simp [CondPc.allows] at ha
    | v t => simp [CondPc.allows] at ha
  | waitP w => cases l <;> simp [CondPc.allows] at ha
  | waitDelete w => cases l <;> simp [CondPc.allows] at ha
  | signalV w b => cases l <;> simp [CondPc.allows] at ha
  | broadcast b => cases l <;> simp [CondPc.allows] at ha

/-- A private semaphore of thread `t`: signalled at most once, `sig` says whether it has been,
`passed` whether the thread has come back from its `P`. -/
structure Private (sem : SemState) (t : ThreadId) (sig passed : Bool) : Prop where
  inv : SemState.Inv 0 sem
  value : sem.sem.value = if sig && !passed then 1 else 0
  only : ∀ u, sem.asleep u = true → u = t
  awake : sig = true → sem.asleep t = false

namespace Private

variable {sem sem' : SemState} {t : ThreadId} {sig : Bool}

theorem new (t : ThreadId) : Private (.new 0) t false false where
  inv := SemState.Inv.init 0
  value := rfl
  only u hu := by simp [SemState.new] at hu
  awake h := by simp at h

theorem v (h : Private sem t false false) : Private sem.v t true false := by
  have hzero : sem.sem.value = 0 := by simpa using h.value
  rcases SemState.v_cases sem with ⟨hq, hv⟩ | ⟨u, queue, hq, hv⟩
  · refine ⟨h.inv.v, by simp [hv, hzero], by simpa [hv] using h.only, ?_⟩
    intro _
    apply Bool.eq_false_iff.mpr
    intro ha
    have hm := (h.inv.queue_asleep t).mpr (by simpa [hv] using ha)
    simp [hq] at hm
  · -- the only thread that can be queued is the one V wakes
    have hut : u = t := h.only u ((h.inv.queue_asleep u).mp (by simp [hq]))
    subst u
    refine ⟨h.inv.v, by simp [hv, hzero], ?_, by simp [hv]⟩
    intro u hu
    by_cases he : u = t
    · exact he
    · exact h.only u (by simpa [hv, he] using hu)

private theorem p_taken (h : Private sem t sig false) (hp : sem.p t = some (sem', true)) :
    sig = true ∧ Private sem' t true true := by
  rcases SemState.p_cases hp with ⟨hf, -⟩ | ⟨-, hv, rfl⟩
  · contradiction
  · have hsig : sig = true := by
      cases sig with
      | true => rfl
      | false => exact absurd (by simpa using h.value) hv
    subst hsig
    have hone : sem.sem.value = 1 := by simpa using h.value
    exact ⟨rfl, h.inv.p hp, by simp [hone], h.only, h.awake⟩

private theorem p_blocked (h : Private sem t sig false) (hp : sem.p t = some (sem', false)) :
    sig = false ∧ Private sem' t false false := by
  have hinv := h.inv.p hp
  rcases SemState.p_cases hp with ⟨-, hv, hq, rfl⟩ | ⟨hf, -⟩
  · have hsig : sig = false := by
      cases sig with
      | false => rfl
      | true =>
        have hval := h.value
        simp [hv] at hval
    refine ⟨hsig, hinv, by simp [hv], ?_, by simp⟩
    intro u hu
    by_cases he : u = t
    · exact he
    · exact h.only u (by simpa [he] using hu)
  · contradiction

end Private

namespace CondState

/-- The invariant. Queue and releases together are the waiters in allocation order, every
`Wait` in progress owns one live private semaphore, and only the holder of the lock is inside
`Signal` or `Broadcast`, so at most one released waiter still misses its `V`. -/
structure Inv (s : CondState) : Prop where
  lock : s.lock.Inv
  order : s.released ++ s.waitQueue = List.range s.nextWaiter
  numbered : s.enqueued = List.range s.nextWaiter
  lockOk : ∀ t, (s.pc t).lockOk (s.lock.pc t)
  bounded : ∀ t w, (s.pc t).waits = some w → w < s.nextWaiter
  unique : ∀ t u w, (s.pc t).waits = some w → (s.pc u).waits = some w → t = u
  own : ∀ t w, (s.pc t).waits = some w → ∃ sem, s.waiter w = some sem ∧
    Private sem t (decide (w ∈ s.signalled)) (s.pc t).passed
  passed : ∀ t w, (s.pc t).waits = some w → (s.pc t).passed = true → w ∈ s.signalled
  pending : ∀ w, w < s.nextWaiter → w ∉ s.returned → ∃ t, (s.pc t).waits = some w
  returned : ∀ w ∈ s.returned, w ∈ s.signalled
  returned_nodup : s.returned.Nodup
  live : ∀ t w, (s.pc t).waits = some w → w ∉ s.returned
  inFlight : ∀ t w, (s.pc t).signals = some w → s.released = s.signalled ++ [w]
  settled : (∀ t, (s.pc t).signals = none) → s.released = s.signalled
  running : ∀ t b, (s.pc t).record = some b → b.waiting = b.released ++ s.waitQueue
  finished : ∀ b ∈ s.broadcasts, b.released = b.waiting
  badV : s.badV = false

theorem Inv.init : Inv .new := by
  refine ⟨LockState.Inv.init, ?_, ?_, ?_, ?_, ?_, ?_, ?_, ?_, ?_, ?_, ?_, ?_, ?_, ?_, ?_, ?_⟩ <;>
    simp [new, CondPc.waits, CondPc.signals, CondPc.record, CondPc.lockOk]

theorem Inv.abort {s : CondState} (h : Inv s) : Inv { s with aborted := true } :=
  ⟨h.lock, h.order, h.numbered, h.lockOk, h.bounded, h.unique, h.own, h.passed, h.pending,
    h.returned, h.returned_nodup, h.live, h.inFlight, h.settled, h.running, h.finished, h.badV⟩

private theorem Inv.signalled_prefix {s : CondState} (h : Inv s) : s.signalled <+: s.released := by
  by_cases hs : ∃ t w, (s.pc t).signals = some w
  · obtain ⟨t, w, ht⟩ := hs
    exact ⟨[w], (h.inFlight t w ht).symm⟩
  · have hnone : ∀ t, (s.pc t).signals = none := by
      intro t
      cases ht : (s.pc t).signals with
      | none => rfl
      | some w => exact absurd ⟨t, w, ht⟩ hs
    exact h.settled hnone ▸ List.prefix_rfl

theorem Inv.signalled_lt {s : CondState} (h : Inv s) {w : Nat} (hw : w ∈ s.signalled) :
    w < s.nextWaiter := by
  have hm : w ∈ s.released ++ s.waitQueue :=
    List.mem_append_left _ (h.signalled_prefix.subset hw)
  rw [h.order] at hm
  exact List.mem_range.mp hm

private theorem Inv.queued_lt {s : CondState} (h : Inv s) {w : Nat} (hw : w ∈ s.waitQueue) :
    w < s.nextWaiter := by
  have hm : w ∈ s.released ++ s.waitQueue := List.mem_append_right _ hw
  rw [h.order] at hm
  exact List.mem_range.mp hm

/-- Only the holder of the lock is inside `Signal` or `Broadcast`. -/
theorem Inv.alone {s : CondState} (h : Inv s) {t u : ThreadId} (ht : s.lock.pc t = .holding)
    (hu : (s.pc u).signals ≠ none ∨ (s.pc u).record ≠ none) : u = t := by
  have hok := h.lockOk u
  have hholding : s.lock.pc u = .holding := by
    cases hp : s.pc u <;> simp_all [CondPc.signals, CondPc.record, CondPc.lockOk]
  apply h.lock.unique u t <;> simp [hholding, ht, LockPc.inside]

/-- The holder calling an operation of the condition is between `Acquire` and `Release`. -/
theorem Inv.holding {s : CondState} (h : Inv s) {t : ThreadId} (hc : s.callable t)
    (hl : s.lock.lockHolder = some t) : s.lock.pc t = .holding := by
  rcases hc.2 with hp | hp
  · have := (h.lock.holder t).mp hl
    simp [hp, LockPc.returned] at this
  · exact hp

theorem Inv.lockStep {s : CondState} (h : Inv s) {l : LockLabel} {lock : LockState}
    (ha : (s.pc l.thread).allows l = true) (hs : lockStep s.lock l = some lock) :
    Inv { s with lock := lock, aborted := s.aborted || lock.aborted,
                 pc := Function.update s.pc l.thread ((s.pc l.thread).afterLock l) } := by
  have hcalm : ((s.pc l.thread).afterLock l).signals = (s.pc l.thread).signals ∧
      ((s.pc l.thread).afterLock l).record = (s.pc l.thread).record := by
    cases hp : s.pc l.thread <;> cases l <;> simp_all [CondPc.allows] <;> exact ⟨rfl, rfl⟩
  -- the lock operation moves the thread without changing what it owns
  have hsame : ∀ u, (Function.update s.pc l.thread ((s.pc l.thread).afterLock l) u).waits =
        (s.pc u).waits ∧
      (Function.update s.pc l.thread ((s.pc l.thread).afterLock l) u).passed = (s.pc u).passed ∧
      (Function.update s.pc l.thread ((s.pc l.thread).afterLock l) u).signals =
        (s.pc u).signals ∧
      (Function.update s.pc l.thread ((s.pc l.thread).afterLock l) u).record =
        (s.pc u).record := by
    intro u
    by_cases hu : u = l.thread
    · subst hu
      simp [CondPc.afterLock_waits, CondPc.afterLock_passed, hcalm.1, hcalm.2]
    · simp [hu]
  refine ⟨h.lock.step hs, h.order, h.numbered, ?_, ?_, ?_, ?_, ?_, ?_, h.returned,
    h.returned_nodup, ?_, ?_, ?_, ?_, h.finished, h.badV⟩
  · intro u
    by_cases hu : u = l.thread
    · subst hu
      simpa using lockOk_afterLock h.lock hs (h.lockOk l.thread) ha
    · simpa [hu, lockStep_pc_other hs hu] using h.lockOk u
  · intro u w hw
    exact h.bounded u w ((hsame u).1 ▸ hw)
  · intro u u' w hw hw'
    exact h.unique u u' w ((hsame u).1 ▸ hw) ((hsame u').1 ▸ hw')
  · intro u w hw
    obtain ⟨sem, hsem, hp⟩ := h.own u w ((hsame u).1 ▸ hw)
    exact ⟨sem, hsem, by simpa only [(hsame u).2.1] using hp⟩
  · intro u w hw hp
    exact h.passed u w ((hsame u).1 ▸ hw) ((hsame u).2.1 ▸ hp)
  · intro w hw hn
    obtain ⟨u, hu⟩ := h.pending w hw hn
    exact ⟨u, (hsame u).1.trans hu⟩
  · intro u w hw
    exact h.live u w ((hsame u).1 ▸ hw)
  · intro u w hw
    exact h.inFlight u w ((hsame u).2.2.1 ▸ hw)
  · intro hn
    exact h.settled fun u => (hsame u).2.2.1 ▸ hn u
  · intro u b hb
    exact h.running u b ((hsame u).2.2.2 ▸ hb)

theorem Inv.returned_length {s : CondState} (h : Inv s) :
    s.returned.length ≤ s.released.length := by
  have hsub : s.returned ⊆ s.released := fun w hw => h.signalled_prefix.subset (h.returned w hw)
  exact (List.subperm_of_subset h.returned_nodup hsub).length_le

/-- A `Wait` by the holder of the lock queues a fresh waiter. -/
theorem Inv.wait_eq {s : CondState} (h : Inv s) {t : ThreadId} (hl : s.lock.lockHolder = some t) :
    s.wait t = { s with waitQueue := s.waitQueue ++ [s.nextWaiter],
                        waiter := Function.update s.waiter s.nextWaiter (some (.new 0)),
                        nextWaiter := s.nextWaiter + 1,
                        pc := Function.update s.pc t (.waitRelease s.nextWaiter),
                        enqueued := s.enqueued ++ [s.nextWaiter] } := by
  have hfresh : s.nextWaiter ∉ s.waitQueue := fun hm => absurd (h.queued_lt hm) (by omega)
  simp [CondState.wait, hl, listAppend_of_notMem hfresh]

theorem Inv.wait {s : CondState} (h : Inv s) {t : ThreadId} (hc : s.callable t) :
    Inv (s.wait t) := by
  by_cases hl : s.lock.lockHolder = some t
  · have hidle : s.pc t = .idle := CondPc.isIdle_iff.mp hc.1
    have hhold := h.holding hc hl
    have hunsig : s.nextWaiter ∉ s.signalled := fun hm => absurd (h.signalled_lt hm) (by omega)
    have hquiet : ∀ u, (s.pc u).signals = none ∧ (s.pc u).record = none := by
      intro u
      by_contra hn
      have hu : u = t := h.alone hhold (by tauto)
      subst hu
      simp [hidle, CondPc.signals, CondPc.record] at hn
    rw [h.wait_eq hl]
    refine ⟨h.lock, ?_, ?_, ?_, ?_, ?_, ?_, ?_, ?_, h.returned, h.returned_nodup, ?_, ?_, ?_, ?_,
      h.finished, h.badV⟩
    · rw [← List.append_assoc, h.order, List.range_succ]
    · simp only [h.numbered, List.range_succ]
    · intro u
      by_cases hu : u = t
      · subst hu; simp [CondPc.lockOk, hhold]
      · simpa [hu] using h.lockOk u
    · intro u w hw
      show w < s.nextWaiter + 1
      by_cases hu : u = t
      · subst hu
        simp only [Function.update_self, CondPc.waits, Option.some.injEq] at hw
        omega
      · have := h.bounded u w (by simpa [hu] using hw)
        omega
    · intro u u' w hw hw'
      by_cases hu : u = t <;> by_cases hu' : u' = t
      · rw [hu, hu']
      · have hb := h.bounded u' w (by simpa [hu'] using hw')
        simp only [hu, Function.update_self, CondPc.waits, Option.some.injEq] at hw
        omega
      · have hb := h.bounded u w (by simpa [hu] using hw)
        simp only [hu', Function.update_self, CondPc.waits, Option.some.injEq] at hw'
        omega
      · exact h.unique u u' w (by simpa [hu] using hw) (by simpa [hu'] using hw')
    · intro u w hw
      by_cases hu : u = t
      · subst hu
        simp only [Function.update_self, CondPc.waits, Option.some.injEq] at hw
        subst hw
        exact ⟨.new 0, by simp, by simpa [hunsig, CondPc.passed] using Private.new u⟩
      · have hw' : (s.pc u).waits = some w := by simpa [hu] using hw
        obtain ⟨sem, hsem, hp⟩ := h.own u w hw'
        have hne : w ≠ s.nextWaiter := by
          have := h.bounded u w hw'
          omega
        exact ⟨sem, by simpa [hne] using hsem, by simpa [hu] using hp⟩
    · intro u w hw hp
      by_cases hu : u = t
      · simp [hu, CondPc.passed] at hp
      · exact h.passed u w (by simpa [hu] using hw) (by simpa [hu] using hp)
    · intro w hw hn
      by_cases he : w = s.nextWaiter
      · exact ⟨t, by simp [he, CondPc.waits]⟩
      · obtain ⟨u, hu⟩ := h.pending w (by simp only at hw; omega) hn
        have hut : u ≠ t := by rintro rfl; simp [hidle, CondPc.waits] at hu
        exact ⟨u, by simpa [hut] using hu⟩
    · intro u w hw
      by_cases hu : u = t
      · simp only [hu, Function.update_self, CondPc.waits, Option.some.injEq] at hw
        exact fun hm => hunsig (hw ▸ h.returned w hm)
      · exact h.live u w (by simpa [hu] using hw)
    · intro u w hw
      by_cases hu : u = t
      · simp [hu, CondPc.signals] at hw
      · simp [hu, (hquiet u).1] at hw
    · intro _
      exact h.settled fun u => (hquiet u).1
    · intro u b hb
      by_cases hu : u = t
      · simp [hu, CondPc.record] at hb
      · simp [hu, (hquiet u).2] at hb
  · simpa [CondState.wait, hl] using h.abort

/-- One section of the private `P` changes nothing but the thread's own semaphore. -/
theorem Inv.waiterP {s : CondState} (h : Inv s) {t : ThreadId} {w : Nat} {sem : SemState}
    (hpc : s.pc t = .waitP w) (hsem : s.waiter w = some sem) (ha : sem.asleep t = false) :
    Inv (s.waiterP t w sem) := by
  have hwaits : (s.pc t).waits = some w := by simp [hpc, CondPc.waits]
  have hown : Private sem t (decide (w ∈ s.signalled)) false := by
    obtain ⟨sem', hsem', hp⟩ := h.own t w hwaits
    rw [hsem] at hsem'
    simpa [Option.some.inj hsem', hpc, CondPc.passed] using hp
  unfold CondState.waiterP
  cases hp : sem.p t with
  | none => exact h.abort
  | some r =>
    obtain ⟨sem', taken⟩ := r
    -- the semaphore and the place of the thread move together
    have hnew : Private sem' t (decide (w ∈ s.signalled))
        (CondPc.passed (if taken then .waitAcquire w else .waitP w)) ∧
        (taken = true → w ∈ s.signalled) := by
      cases taken with
      | true =>
        obtain ⟨hsig, hpriv⟩ := hown.p_taken hp
        rw [hsig]
        exact ⟨by simpa [CondPc.passed] using hpriv, fun _ => of_decide_eq_true hsig⟩
      | false =>
        obtain ⟨hsig, hpriv⟩ := hown.p_blocked hp
        rw [hsig]
        exact ⟨by simpa [CondPc.passed] using hpriv, by simp⟩
    have hsame : ∀ u, (Function.update s.pc t (if taken then .waitAcquire w else .waitP w) u).waits
          = (s.pc u).waits ∧
        (Function.update s.pc t (if taken then .waitAcquire w else .waitP w) u).signals
          = (s.pc u).signals ∧
        (Function.update s.pc t (if taken then .waitAcquire w else .waitP w) u).record
          = (s.pc u).record := by
      intro u
      by_cases hu : u = t
      · subst hu
        cases taken <;> simp [hpc, CondPc.waits, CondPc.signals, CondPc.record]
      · simp [hu]
    refine ⟨h.lock, h.order, h.numbered, ?_, ?_, ?_, ?_, ?_, ?_, h.returned, h.returned_nodup,
      ?_, ?_, ?_, ?_, h.finished, h.badV⟩
    · intro u
      by_cases hu : u = t
      · subst hu
        have hok : s.lock.pc u = .outside := by simpa [hpc, CondPc.lockOk] using h.lockOk u
        cases taken <;> simp [CondPc.lockOk, hok]
      · simpa [hu] using h.lockOk u
    · intro u w' hw
      exact h.bounded u w' ((hsame u).1 ▸ hw)
    · intro u u' w' hw hw'
      exact h.unique u u' w' ((hsame u).1 ▸ hw) ((hsame u').1 ▸ hw')
    · intro u w' hw
      rw [(hsame u).1] at hw
      by_cases hu : u = t
      · subst hu
        obtain rfl : w' = w := Option.some.inj (hw.symm.trans hwaits)
        exact ⟨sem', by simp, by simpa using hnew.1⟩
      · obtain ⟨sem'', hsem'', hp''⟩ := h.own u w' hw
        have hne : w' ≠ w := fun he => hu (h.unique u t w (he ▸ hw) hwaits)
        exact ⟨sem'', by simpa [hne] using hsem'', by simpa [hu] using hp''⟩
    · intro u w' hw hpassed
      rw [(hsame u).1] at hw
      by_cases hu : u = t
      · subst hu
        obtain rfl : w' = w := Option.some.inj (hw.symm.trans hwaits)
        apply hnew.2
        cases taken with
        | true => rfl
        | false => simp [CondPc.passed] at hpassed
      · exact h.passed u w' hw (by simpa [hu] using hpassed)
    · intro w' hw hn
      obtain ⟨u, hu⟩ := h.pending w' hw hn
      exact ⟨u, (hsame u).1.trans hu⟩
    · intro u w' hw
      exact h.live u w' ((hsame u).1 ▸ hw)
    · intro u w' hw
      exact h.inFlight u w' ((hsame u).2.1 ▸ hw)
    · intro hn
      exact h.settled fun u => (hsame u).2.1 ▸ hn u
    · intro u b hb
      exact h.running u b ((hsame u).2.2 ▸ hb)

theorem Inv.waitDelete {s : CondState} (h : Inv s) {t : ThreadId} {w : Nat}
    (hpc : s.pc t = .waitDelete w) :
    Inv { s with waiter := Function.update s.waiter w none,
                 pc := Function.update s.pc t .idle, returned := s.returned ++ [w] } := by
  have hwaits : (s.pc t).waits = some w := by simp [hpc, CondPc.waits]
  have hsig : w ∈ s.signalled := h.passed t w hwaits (by simp [hpc, CondPc.passed])
  -- who still waits in the new state is another thread, with another semaphore
  have hother : ∀ u w', (Function.update s.pc t .idle u).waits = some w' →
      u ≠ t ∧ (s.pc u).waits = some w' ∧ w' ≠ w := by
    intro u w' hw
    by_cases hu : u = t
    · simp [hu, CondPc.waits] at hw
    · have hw' : (s.pc u).waits = some w' := by simpa [hu] using hw
      exact ⟨hu, hw', fun he => hu (h.unique u t w (he ▸ hw') hwaits)⟩
  have hcalm : ∀ u, (Function.update s.pc t .idle u).signals = (s.pc u).signals ∧
      (Function.update s.pc t .idle u).record = (s.pc u).record := by
    intro u
    by_cases hu : u = t
    · subst hu; simp [hpc, CondPc.signals, CondPc.record]
    · simp [hu]
  refine ⟨h.lock, h.order, h.numbered, ?_, ?_, ?_, ?_, ?_, ?_, ?_, ?_, ?_, ?_, ?_, ?_,
    h.finished, h.badV⟩
  · intro u
    by_cases hu : u = t
    · simp [hu, CondPc.lockOk]
    · simpa [hu] using h.lockOk u
  · intro u w' hw
    exact h.bounded u w' (hother u w' hw).2.1
  · intro u u' w' hw hw'
    exact h.unique u u' w' (hother u w' hw).2.1 (hother u' w' hw').2.1
  · intro u w' hw
    obtain ⟨hu, hw', hne⟩ := hother u w' hw
    obtain ⟨sem, hsem, hp⟩ := h.own u w' hw'
    exact ⟨sem, by simpa [hne] using hsem, by simpa [hu] using hp⟩
  · intro u w' hw hp
    obtain ⟨hu, hw', -⟩ := hother u w' hw
    exact h.passed u w' hw' (by simpa [hu] using hp)
  · intro w' hw hn
    obtain ⟨u, hu⟩ := h.pending w' hw fun hm => hn (List.mem_append_left _ hm)
    have hut : u ≠ t := by
      rintro rfl
      obtain rfl : w' = w := Option.some.inj (hu.symm.trans hwaits)
      exact hn (by simp)
    exact ⟨u, by simpa [hut] using hu⟩
  · intro w' hw
    rcases List.mem_append.mp hw with hw | hw
    · exact h.returned w' hw
    · exact List.mem_singleton.mp hw ▸ hsig
  · apply h.returned_nodup.append (List.nodup_singleton w)
    simpa using h.live t w hwaits
  · intro u w' hw
    obtain ⟨-, hw', hne⟩ := hother u w' hw
    simp [h.live u w' hw', hne]
  · intro u w' hw
    exact h.inFlight u w' ((hcalm u).1 ▸ hw)
  · intro hn
    exact h.settled fun u => (hcalm u).1 ▸ hn u
  · intro u b hb
    exact h.running u b ((hcalm u).2 ▸ hb)

/-- `Signal` by a thread that is outside `Wait` and `Signal`; `done` is what a surrounding
`Broadcast` has done so far. -/
theorem Inv.signal {s : CondState} (h : Inv s) {t : ThreadId} {done : Option BroadcastRecord}
    (hhold : s.lock.lockHolder = some t → s.lock.pc t = .holding)
    (hwaits : (s.pc t).waits = none) (hsignals : (s.pc t).signals = none)
    (hdone : ∀ b, done = some b → b.waiting = b.released ++ s.waitQueue) :
    Inv (s.signal t done) := by
  unfold CondState.signal
  split
  next hl =>
    have hholding := hhold hl
    cases hq : s.waitQueue with
    | nil => exact h
    | cons w queue =>
      dsimp only
      have hquiet : ∀ u, (s.pc u).signals = none := by
        intro u
        by_contra hn
        have hu : u = t := h.alone hholding (Or.inl hn)
        exact hn (hu ▸ hsignals)
      have hnorecord : ∀ u, u ≠ t → (s.pc u).record = none := by
        intro u hu
        by_contra hn
        exact hu (h.alone hholding (Or.inr hn))
      have hwaits' : ∀ u b, (Function.update s.pc t (.signalV w b) u).waits = (s.pc u).waits ∧
          (u ≠ t → Function.update s.pc t (.signalV w b) u = s.pc u) := by
        intro u b
        by_cases hu : u = t
        · subst hu
          rw [Function.update_self, hwaits]
          exact ⟨rfl, fun hne => absurd rfl hne⟩
        · simp [hu]
      have hne : ∀ u w', (s.pc u).waits = some w' → u ≠ t := by
        rintro u w' hw rfl
        simp [hwaits] at hw
      refine ⟨h.lock, ?_, h.numbered, ?_, ?_, ?_, ?_, ?_, ?_, h.returned, h.returned_nodup,
        ?_, ?_, ?_, ?_, h.finished, h.badV⟩
      · rw [← h.order, hq, List.append_assoc]
        rfl
      · intro u
        by_cases hu : u = t
        · simp [hu, CondPc.lockOk, hholding]
        · simpa [hu] using h.lockOk u
      · intro u w' hw
        exact h.bounded u w' ((hwaits' u _).1 ▸ hw)
      · intro u u' w' hw hw'
        exact h.unique u u' w' ((hwaits' u _).1 ▸ hw) ((hwaits' u' _).1 ▸ hw')
      · intro u w' hw
        rw [(hwaits' u _).1] at hw
        simpa only [(hwaits' u _).2 (hne u w' hw)] using h.own u w' hw
      · intro u w' hw hp
        rw [(hwaits' u _).1] at hw
        exact h.passed u w' hw ((hwaits' u _).2 (hne u w' hw) ▸ hp)
      · intro w' hw hn
        obtain ⟨u, hu⟩ := h.pending w' hw hn
        exact ⟨u, (hwaits' u _).1.trans hu⟩
      · intro u w' hw
        exact h.live u w' ((hwaits' u _).1 ▸ hw)
      · intro u w' hw
        by_cases hu : u = t
        · simp only [hu, Function.update_self, CondPc.signals, Option.some.injEq] at hw
          rw [h.settled hquiet, hw]
        · simp [hu, hquiet u] at hw
      · intro hn
        simpa [CondPc.signals] using hn t
      · intro u b hb
        by_cases hu : u = t
        · simp only [hu, Function.update_self, CondPc.record, Option.map_eq_some_iff] at hb
          obtain ⟨b₀, hb₀, rfl⟩ := hb
          simp [hdone b₀ hb₀, hq]
        · simp [hu, hnorecord u hu] at hb
  next => exact h.abort

/-- The semaphore a `Signal` is about to wake is live: its `Wait` cannot have come back. -/
theorem Inv.signalV_live {s : CondState} (h : Inv s) {t : ThreadId} {w : Nat}
    (hs : (s.pc t).signals = some w) :
    w ∉ s.signalled ∧ ∃ u sem, (s.pc u).waits = some w ∧ (s.pc u).passed = false ∧
      s.waiter w = some sem ∧ Private sem u false false := by
  have hreleased := h.inFlight t w hs
  have hnodup : (s.signalled ++ [w] ++ s.waitQueue).Nodup := by
    rw [← hreleased, h.order]
    exact List.nodup_range
  have hn : w ∉ s.signalled := fun hm =>
    (List.nodup_append.mp (List.nodup_append.mp hnodup).1).2.2 w hm w (by simp) rfl
  have hlt : w < s.nextWaiter := by
    rw [← List.mem_range, ← h.order, hreleased]
    simp
  obtain ⟨u, hu⟩ := h.pending w hlt fun hm => hn (h.returned w hm)
  obtain ⟨sem, hsem, hp⟩ := h.own u w hu
  have hpassed : (s.pc u).passed = false :=
    Bool.eq_false_iff.mpr fun hpass => hn (h.passed u w hu hpass)
  rw [hpassed, decide_eq_false hn] at hp
  exact ⟨hn, u, sem, hu, hpassed, hsem, hp⟩

theorem Inv.signalV {s : CondState} (h : Inv s) {t : ThreadId} {w : Nat}
    {b : Option BroadcastRecord} (hpc : s.pc t = .signalV w b) : Inv (s.signalV t w b) := by
  have hsig : (s.pc t).signals = some w := by simp [hpc, CondPc.signals]
  have hholding : s.lock.pc t = .holding := by simpa [hpc, CondPc.lockOk] using h.lockOk t
  obtain ⟨hn, v, sem, hv, hvpassed, hsem, hpriv⟩ := h.signalV_live hsig
  unfold CondState.signalV
  rw [hsem]
  dsimp only
  have hnext : (CondPc.afterV b).waits = none ∧ (CondPc.afterV b).signals = none ∧
      (CondPc.afterV b).record = b ∧ (CondPc.afterV b).lockOk .holding := by
    cases b <;> simp [CondPc.afterV, CondPc.waits, CondPc.signals, CondPc.record, CondPc.lockOk]
  have hmoved : ∀ u w', (Function.update s.pc t (.afterV b) u).waits = some w' →
      u ≠ t ∧ (s.pc u).waits = some w' := by
    intro u w' hw
    by_cases hu : u = t
    · simp [hu, hnext.1] at hw
    · exact ⟨hu, by simpa [hu] using hw⟩
  have hquiet : ∀ u, (Function.update s.pc t (.afterV b) u).signals = none := by
    intro u
    by_cases hu : u = t
    · simp [hu, hnext.2.1]
    · by_contra hne
      exact hu (h.alone hholding (Or.inl (by simpa [hu] using hne)))
  refine ⟨h.lock, h.order, h.numbered, ?_, ?_, ?_, ?_, ?_, ?_, ?_, h.returned_nodup, ?_, ?_, ?_,
    ?_, h.finished, h.badV⟩
  · intro u
    by_cases hu : u = t
    · subst hu; simpa [hholding] using hnext.2.2.2
    · simpa [hu] using h.lockOk u
  · intro u w' hw
    exact h.bounded u w' (hmoved u w' hw).2
  · intro u u' w' hw hw'
    exact h.unique u u' w' (hmoved u w' hw).2 (hmoved u' w' hw').2
  · intro u w' hw
    obtain ⟨hu, hw'⟩ := hmoved u w' hw
    by_cases he : w' = w
    · subst he
      obtain rfl : u = v := h.unique u v w' hw' hv
      exact ⟨sem.v, by simp, by simpa [hu, hvpassed] using hpriv.v⟩
    · obtain ⟨sem', hsem', hp⟩ := h.own u w' hw'
      exact ⟨sem', by simpa [he] using hsem', by simpa [hu, he] using hp⟩
  · intro u w' hw hp
    obtain ⟨hu, hw'⟩ := hmoved u w' hw
    exact List.mem_append_left _ (h.passed u w' hw' (by simpa [hu] using hp))
  · intro w' hw hn'
    obtain ⟨u, hu⟩ := h.pending w' hw hn'
    have hut : u ≠ t := by rintro rfl; simp [hpc, CondPc.waits] at hu
    exact ⟨u, by simpa [hut] using hu⟩
  · intro w' hw
    exact List.mem_append_left _ (h.returned w' hw)
  · intro u w' hw
    exact h.live u w' (hmoved u w' hw).2
  · intro u w' hw
    simp [hquiet u] at hw
  · intro _
    exact h.inFlight t w hsig
  · intro u b' hb
    by_cases hu : u = t
    · apply h.running t b'
      simp only [hu, Function.update_self, hnext.2.2.1] at hb
      simpa only [hpc, CondPc.record] using hb
    · exact h.running u b' (by simpa [hu] using hb)

theorem Inv.broadcastTest {s : CondState} (h : Inv s) {t : ThreadId} {b : BroadcastRecord}
    (hhold : s.lock.lockHolder = some t → s.lock.pc t = .holding)
    (hwaits : (s.pc t).waits = none) (hsignals : (s.pc t).signals = none)
    (hb : b.waiting = b.released ++ s.waitQueue) : Inv (s.broadcastTest t b) := by
  unfold CondState.broadcastTest
  split
  case h_2 => exact h.signal hhold hwaits hsignals fun b' hb' => Option.some.inj hb' ▸ hb
  case h_1 hq =>
    have hsame : ∀ u, (Function.update s.pc t .idle u).waits = (s.pc u).waits ∧
        (Function.update s.pc t .idle u).signals = (s.pc u).signals ∧
        (u ≠ t → Function.update s.pc t .idle u = s.pc u) := by
      intro u
      by_cases hu : u = t
      · subst hu
        rw [Function.update_self, hwaits, hsignals]
        exact ⟨rfl, rfl, fun hne => absurd rfl hne⟩
      · simp [hu]
    have hne : ∀ u w', (s.pc u).waits = some w' → u ≠ t := by
      rintro u w' hw rfl
      simp [hwaits] at hw
    refine ⟨h.lock, h.order, h.numbered, ?_, ?_, ?_, ?_, ?_, ?_, h.returned, h.returned_nodup,
      ?_, ?_, ?_, ?_, ?_, h.badV⟩
    · intro u
      by_cases hu : u = t
      · simp [hu, CondPc.lockOk]
      · simpa [hu] using h.lockOk u
    · intro u w' hw
      exact h.bounded u w' ((hsame u).1 ▸ hw)
    · intro u u' w' hw hw'
      exact h.unique u u' w' ((hsame u).1 ▸ hw) ((hsame u').1 ▸ hw')
    · intro u w' hw
      rw [(hsame u).1] at hw
      simpa only [(hsame u).2.2 (hne u w' hw)] using h.own u w' hw
    · intro u w' hw hp
      rw [(hsame u).1] at hw
      exact h.passed u w' hw ((hsame u).2.2 (hne u w' hw) ▸ hp)
    · intro w' hw hn
      obtain ⟨u, hu⟩ := h.pending w' hw hn
      exact ⟨u, (hsame u).1.trans hu⟩
    · intro u w' hw
      exact h.live u w' ((hsame u).1 ▸ hw)
    · intro u w' hw
      exact h.inFlight u w' ((hsame u).2.1 ▸ hw)
    · intro hn
      exact h.settled fun u => (hsame u).2.1 ▸ hn u
    · intro u b' hb'
      by_cases hu : u = t
      · simp [hu, CondPc.record] at hb'
      · exact h.running u b' (by simpa [hu] using hb')
    · intro b' hb'
      rcases List.mem_append.mp hb' with hm | hm
      · exact h.finished b' hm
      · obtain rfl := List.mem_singleton.mp hm
        rw [hb, hq, List.append_nil]

theorem Inv.step {s s' : CondState} {l : CondLabel} (h : Inv s) (hs : condStep s l = some s') :
    Inv s' := by
  cases l with
  | lock l =>
    simp only [condStep] at hs
    split at hs
    next ha =>
      obtain ⟨lock, hlock, rfl⟩ := Option.map_eq_some_iff.mp hs
      exact h.lockStep ha hlock
    next => contradiction
  | wait t =>
    simp only [condStep] at hs
    split at hs
    next hc => exact Option.some.inj hs ▸ h.wait hc
    next => contradiction
  | waiterP t =>
    cases hpc : s.pc t <;> simp only [condStep, hpc, reduceCtorEq] at hs
    next w =>
      cases hsem : s.waiter w with
      | none => simp [hsem] at hs
      | some sem =>
        cases ha : sem.asleep t with
        | true => simp [hsem, ha] at hs
        | false =>
          simp only [hsem, ha, Bool.false_eq_true, if_false, Option.some.injEq] at hs
          exact hs ▸ h.waiterP hpc hsem ha
  | waitDelete t =>
    cases hpc : s.pc t <;> simp only [condStep, hpc, reduceCtorEq, Option.some.injEq] at hs
    exact hs ▸ h.waitDelete hpc
  | signal t =>
    simp only [condStep] at hs
    split at hs
    next hc =>
      have hidle : s.pc t = .idle := CondPc.isIdle_iff.mp hc.1
      rw [← Option.some.inj hs]
      exact h.signal (h.holding hc) (by simp [hidle, CondPc.waits])
        (by simp [hidle, CondPc.signals]) (by simp)
    next => contradiction
  | broadcast t =>
    simp only [condStep] at hs
    split at hs
    next hc =>
      have hidle : s.pc t = .idle := CondPc.isIdle_iff.mp hc.1
      rw [← Option.some.inj hs]
      exact h.broadcastTest (h.holding hc) (by simp [hidle, CondPc.waits])
        (by simp [hidle, CondPc.signals]) (by simp)
    next => contradiction
  | next t =>
    cases hpc : s.pc t <;> simp only [condStep, hpc, reduceCtorEq, Option.some.injEq] at hs
    · exact hs ▸ h.signalV hpc
    · next b =>
      have hholding : s.lock.pc t = .holding := by simpa [hpc, CondPc.lockOk] using h.lockOk t
      rw [← hs]
      exact h.broadcastTest (fun _ => hholding) (by simp [hpc, CondPc.waits])
        (by simp [hpc, CondPc.signals]) (h.running t b (by simp [hpc, CondPc.record]))

theorem inv_inductive : conditionSystem.Inductive Inv where
  init _ h := h ▸ Inv.init
  step _ _ _ h hs := h.step hs.2

end CondState

end Nachos

import Nachos.Threads.Condition

/-!
# Synchronized lists

`SynchList<T>::Append` and `SynchList<T>::RemoveFront` over the model of locks and conditions.
Every lock and condition operation they call is run step by step, so producers and consumers
interleave at each of those steps. An item equal to one still in the list stops the run at the
ASSERT of `List<T>::Append`.
-/

namespace Nachos

open Framework

variable {α : Type*}

/-- Where a thread stands in the code of one synchronized list. -/
inductive ListPc (α : Type*)
  | idle
  | appendAcquire (item : α)
  | appendList (item : α)
  | appendSignal
  /-- `Signal` has removed a waiter and applies `V` next -/
  | appendSignalV
  | appendRelease
  | removeAcquire
  /-- at the loop test of `RemoveFront` -/
  | removeTest
  | removeWait
  /-- inside `listEmpty->Wait(lock)` -/
  | removeWaiting
  | removeList
  | removeRelease (item : α)

namespace ListPc

/-- The steps of the lock and the condition a thread takes at this point. -/
def allows : ListPc α → CondLabel → Bool
  | .appendAcquire _, .lock l | .removeAcquire, .lock l => (CondPc.waitAcquire 0).allows l
  | .appendRelease, .lock l | .removeRelease _, .lock l => (CondPc.waitRelease 0).allows l
  | .appendSignal, .signal _ => true
  | .appendSignalV, .next _ => true
  | .removeWait, .wait _ => true
  | .removeWaiting, .lock _ | .removeWaiting, .waiterP _ | .removeWaiting, .waitDelete _ => true
  | _, _ => false

/-- Where the thread goes on after such a step; `signals` says that `Signal` has found a waiter. -/
def after (signals : Bool) : ListPc α → CondLabel → ListPc α
  | .appendAcquire item, .lock (.assign _) => .appendList item
  | .removeAcquire, .lock (.assign _) => .removeTest
  | .appendRelease, .lock (.v _) => .idle
  | .removeRelease _, .lock (.v _) => .idle
  | .appendSignal, .signal _ => if signals then .appendSignalV else .appendRelease
  | .appendSignalV, .next _ => .appendRelease
  | .removeWait, .wait _ => .removeWaiting
  | .removeWaiting, .waitDelete _ => .removeTest
  | pc, _ => pc

def place : ListPc α → CondPc → LockPc → Prop
  | .idle, c, l => c = .idle ∧ l = .outside
  | .appendAcquire _, c, l | .removeAcquire, c, l =>
    c = .idle ∧ (CondPc.waitAcquire 0).lockOk l
  | .appendRelease, c, l | .removeRelease _, c, l =>
    c = .idle ∧ (CondPc.waitRelease 0).lockOk l
  | .appendSignalV, c, l => (∃ w, c = .signalV w none) ∧ l = .holding
  | .removeWaiting, c, _ => c.waits.isSome = true
  | .appendList _, c, l | .appendSignal, c, l | .removeTest, c, l | .removeWait, c, l
  | .removeList, c, l => c = .idle ∧ l = .holding

/-- The thread holds the lock and owes the queue a signal or the list a removal. -/
def owes : ListPc α → Bool
  | .appendSignal | .removeTest | .removeList => true
  | _ => false

end ListPc

/-- A synchronized list. `appended` and `removed` are all items in the order in which
`List<T>::Append` took them and `List<T>::RemoveFront` gave them back. -/
structure SynchState (α : Type*) where
  cond : CondState
  list : List α
  pc : ThreadId → ListPc α
  aborted : Bool
  appended : List α
  removed : List α

inductive SynchLabel (α : Type*)
  | append (t : ThreadId) (item : α)
  | removeFront (t : ThreadId)
  | cond (l : CondLabel)
  | list (t : ThreadId)

namespace SynchState

def new : SynchState α :=
  { cond := .new, list := [], pc := fun _ => .idle, aborted := false, appended := [],
    removed := [] }

/-- A consumer that has been signalled and has not come back to the test of its loop. -/
def Signalled (s : SynchState α) (t : ThreadId) : Prop :=
  s.pc t = .removeWaiting ∧ ∃ w ∈ s.cond.signalled, (s.cond.pc t).waits = some w

variable [DecidableEq α]

def listStep (s : SynchState α) (t : ThreadId) : Option (SynchState α) :=
  match s.pc t with
  | .appendList item =>
    match listAppend s.list item with
    | none => some { s with aborted := true }
    | some list =>
      some { s with list := list, pc := Function.update s.pc t .appendSignal,
                    appended := s.appended ++ [item] }
  | .removeTest =>
    some { s with pc := Function.update s.pc t (if s.list = [] then .removeWait else .removeList) }
  | .removeList =>
    match s.list with
    -- ASSERT(!IsEmpty())
    | [] => some { s with aborted := true }
    | item :: list =>
      some { s with list := list, pc := Function.update s.pc t (.removeRelease item),
                    removed := s.removed ++ [item] }
  | _ => none

/-- The next step of a thread; `none` when the thread is not at that point. -/
def step (s : SynchState α) : SynchLabel α → Option (SynchState α)
  | .append t item =>
    match s.pc t with
    | .idle => some { s with pc := Function.update s.pc t (.appendAcquire item) }
    | _ => none
  | .removeFront t =>
    match s.pc t with
    | .idle => some { s with pc := Function.update s.pc t .removeAcquire }
    | _ => none
  | .cond l =>
    if (s.pc l.thread).allows l then
      (condStep s.cond l).map fun cond =>
        { s with cond := cond, aborted := s.aborted || cond.aborted,
                 pc := Function.update s.pc l.thread
                   ((s.pc l.thread).after (cond.pc l.thread).signals.isSome l) }
    else none
  | .list t => s.listStep t

end SynchState

def SynchState.next [DecidableEq α] (s : SynchState α) (l : SynchLabel α) :
    Option (SynchState α) :=
  if s.aborted then none else s.step l

/-- All interleavings of producers and consumers of one synchronized list. -/
def synchListSystem (α : Type*) [DecidableEq α] : System (SynchState α) (SynchLabel α) where
  init s := s = .new
  step s l s' := s.aborted = false ∧ s.step l = some s'

theorem SynchState.next_step [DecidableEq α] {s s' : SynchState α} {l : SynchLabel α}
    (h : s.next l = some s') : (synchListSystem α).step s l s' := by
  unfold SynchState.next at h
  split at h
  next => contradiction
  next ha => exact ⟨by simpa using ha, h⟩

private theorem condStep_pc_other {s s' : CondState} {l : CondLabel} (hs : condStep s l = some s')
    {u : ThreadId} (hu : u ≠ l.thread) : s'.pc u = s.pc u ∧ s'.lock.pc u = s.lock.pc u := by
  have hsignal : ∀ t done, u ≠ t → (s.signal t done).pc u = s.pc u ∧
      (s.signal t done).lock.pc u = s.lock.pc u := by
    intro t done hne
    unfold CondState.signal
    split
    · cases s.waitQueue <;> simp [hne]
    · exact ⟨rfl, rfl⟩
  have hbroadcast : ∀ t b, u ≠ t → (s.broadcastTest t b).pc u = s.pc u ∧
      (s.broadcastTest t b).lock.pc u = s.lock.pc u := by
    intro t b hne
    unfold CondState.broadcastTest
    split
    · simp [hne]
    · exact hsignal t _ hne
  cases l with
  | lock l =>
    simp only [condStep] at hs
    split at hs
    next =>
      obtain ⟨lock, hlock, rfl⟩ := Option.map_eq_some_iff.mp hs
      exact ⟨Function.update_of_ne hu _ _, lockStep_pc_other hlock hu⟩
    next => contradiction
  | wait t =>
    simp only [condStep] at hs
    split at hs
    next =>
      rw [← Option.some.inj hs]
      unfold CondState.wait
      split
      · cases listAppend s.waitQueue s.nextWaiter with
        | none => exact ⟨rfl, rfl⟩
        | some queue => exact ⟨Function.update_of_ne hu _ _, rfl⟩
      · exact ⟨rfl, rfl⟩
    next => contradiction
  | waiterP t =>
    cases hpc : s.pc t <;> simp only [condStep, hpc, reduceCtorEq] at hs
    next w =>
      cases hsem : s.waiter w with
      | none => simp [hsem] at hs
      | some sem =>
        simp only [hsem] at hs
        split at hs
        next => contradiction
        next =>
          rw [← Option.some.inj hs]
          unfold CondState.waiterP
          cases sem.p t with
          | none => exact ⟨rfl, rfl⟩
          | some r => exact ⟨Function.update_of_ne hu _ _, rfl⟩
  | waitDelete t =>
    cases hpc : s.pc t <;> simp only [condStep, hpc, reduceCtorEq, Option.some.injEq] at hs
    rw [← hs]
    exact ⟨Function.update_of_ne hu _ _, rfl⟩
  | signal t =>
    simp only [condStep] at hs
    split at hs
    next => exact Option.some.inj hs ▸ hsignal t none hu
    next => contradiction
  | broadcast t =>
    simp only [condStep] at hs
    split at hs
    next => exact Option.some.inj hs ▸ hbroadcast t _ hu
    next => contradiction
  | next t =>
    cases hpc : s.pc t <;> simp only [condStep, hpc, reduceCtorEq, Option.some.injEq] at hs
    · rw [← hs]
      unfold CondState.signalV
      split
      · exact ⟨rfl, rfl⟩
      · exact ⟨Function.update_of_ne hu _ _, rfl⟩
    · exact hs ▸ hbroadcast t _ hu

namespace SynchState

/-- The invariant. Whoever is between `Append` and `Signal`, or between the return of `Wait` and
the removal, holds the lock and accounts for one item without a signalled consumer. -/
structure Inv (s : SynchState α) : Prop where
  cond : s.cond.Inv
  fifo : s.removed ++ s.list = s.appended
  place : ∀ t, (s.pc t).place (s.cond.pc t) (s.cond.lock.pc t)
  empty : ∀ t, s.pc t = .removeWait → s.list = []
  nonempty : ∀ t, s.pc t = .removeList → s.list ≠ []
  covered : s.cond.waitQueue ≠ [] → (∀ t, (s.pc t).owes = false) →
    s.list.length + s.cond.returned.length ≤ s.cond.released.length
  owed : s.cond.waitQueue ≠ [] →
    s.list.length + s.cond.returned.length ≤ s.cond.released.length + 1

theorem Inv.init : Inv (new : SynchState α) := by
  refine ⟨CondState.Inv.init, rfl, ?_, ?_, ?_, ?_, ?_⟩ <;>
    simp [new, CondState.new, LockState.new, ListPc.place]

theorem Inv.abort {s : SynchState α} (h : Inv s) : Inv { s with aborted := true } :=
  ⟨h.cond, h.fifo, h.place, h.empty, h.nonempty, h.covered, h.owed⟩

theorem Inv.alone {s : SynchState α} (h : Inv s) {t u : ThreadId}
    (ht : s.cond.lock.pc t = .holding) (hu : s.cond.lock.pc u = .holding) : u = t :=
  h.cond.lock.unique u t (by simp [hu, LockPc.inside]) (by simp [ht, LockPc.inside])

private theorem Inv.owes_holding {s : SynchState α} (h : Inv s) {t : ThreadId}
    (ht : (s.pc t).owes = true) : s.cond.lock.pc t = .holding := by
  have hp := h.place t
  cases hpc : s.pc t <;> simp_all [ListPc.owes, ListPc.place]

private theorem Inv.list_holding {s : SynchState α} (h : Inv s) {t : ThreadId}
    (ht : s.pc t = .removeWait ∨ s.pc t = .removeList) : s.cond.lock.pc t = .holding := by
  have hp := h.place t
  rcases ht with ht | ht <;> exact (ht ▸ hp : _ ∧ _).2

private theorem Inv.move {s s' : SynchState α} (h : Inv s) {t : ThreadId} {pc : ListPc α}
    (hcond : s'.cond.Inv) (hfifo : s'.removed ++ s'.list = s'.appended)
    (hpc : s'.pc = Function.update s.pc t pc)
    (hother : ∀ u, u ≠ t → s'.cond.pc u = s.cond.pc u ∧ s'.cond.lock.pc u = s.cond.lock.pc u)
    (hlist : s'.list = s.list ∨ s.cond.lock.pc t = .holding)
    (hplace : pc.place (s'.cond.pc t) (s'.cond.lock.pc t))
    (hempty : pc = .removeWait → s'.list = []) (hnonempty : pc = .removeList → s'.list ≠ [])
    (hcovered : s'.cond.waitQueue ≠ [] → (∀ u, (s'.pc u).owes = false) →
      s'.list.length + s'.cond.returned.length ≤ s'.cond.released.length)
    (howed : s'.cond.waitQueue ≠ [] →
      s'.list.length + s'.cond.returned.length ≤ s'.cond.released.length + 1) : Inv s' := by
  have hstays : ∀ u, u ≠ t → s.pc u = .removeWait ∨ s.pc u = .removeList →
      s'.list = s.list := by
    intro u hu hpu
    rcases hlist with hl | hl
    · exact hl
    · exact absurd (h.alone hl (h.list_holding hpu)) hu
  refine ⟨hcond, hfifo, ?_, ?_, ?_, hcovered, howed⟩
  · intro u
    by_cases hu : u = t
    · subst hu; simpa [hpc] using hplace
    · simpa [hpc, hu, hother u hu] using h.place u
  · intro u hw
    by_cases hu : u = t
    · exact hempty (by simpa [hpc, hu] using hw)
    · have hw' : s.pc u = .removeWait := by simpa [hpc, hu] using hw
      rw [hstays u hu (Or.inl hw')]
      exact h.empty u hw'
  · intro u hw
    by_cases hu : u = t
    · exact hnonempty (by simpa [hpc, hu] using hw)
    · have hw' : s.pc u = .removeList := by simpa [hpc, hu] using hw
      rw [hstays u hu (Or.inr hw')]
      exact h.nonempty u hw'

theorem Inv.calm {s : SynchState α} (h : Inv s) {t : ThreadId} {cond : CondState}
    {pc : ListPc α} {aborted : Bool} (hcond : cond.Inv)
    (hother : ∀ u, u ≠ t → cond.pc u = s.cond.pc u ∧ cond.lock.pc u = s.cond.lock.pc u)
    (hqueue : cond.waitQueue = s.cond.waitQueue ∧ cond.released = s.cond.released ∧
      cond.returned = s.cond.returned)
    (hplace : pc.place (cond.pc t) (cond.lock.pc t))
    (hempty : pc = .removeWait → s.list = []) (hnonempty : pc = .removeList → s.list ≠ [])
    (howes : (s.pc t).owes = false) :
    Inv { s with cond := cond, aborted := aborted, pc := Function.update s.pc t pc } := by
  obtain ⟨hq, hrel, hret⟩ := hqueue
  refine h.move hcond h.fifo rfl hother (Or.inl rfl) hplace hempty hnonempty ?_ ?_
  · intro hne hnone
    have hold : ∀ u, (s.pc u).owes = false := by
      intro u
      by_cases hut : u = t
      · exact hut ▸ howes
      · simpa [hut] using hnone u
    simpa only [hrel, hret] using h.covered (hq ▸ hne) hold
  · intro hne
    simpa only [hrel, hret] using h.owed (hq ▸ hne)

/-- The lock operations inside `Acquire`, `Release` and `Wait` lead to the place the code of the
list expects. -/
private theorem place_afterLock {s : SynchState α} (h : Inv s) {l : LockLabel} {lock : LockState}
    {signals : Bool} (hs : lockStep s.cond.lock l = some lock)
    (ha : (s.pc l.thread).allows (.lock l) = true) :
    ((s.pc l.thread).after signals (.lock l)).place ((s.cond.pc l.thread).afterLock l)
      (lock.pc l.thread) := by
  have hp := h.place l.thread
  have hidle : ∀ l', CondPc.idle.afterLock l' = .idle := fun l' => by cases l' <;> rfl
  have hacquire : (CondPc.waitAcquire 0).lockOk (s.cond.lock.pc l.thread) →
      (CondPc.waitAcquire 0).allows l = true →
      ((CondPc.waitAcquire 0).afterLock l).lockOk (lock.pc l.thread) :=
    lockOk_afterLock h.cond.lock hs
  have hrelease : (CondPc.waitRelease 0).lockOk (s.cond.lock.pc l.thread) →
      (CondPc.waitRelease 0).allows l = true →
      ((CondPc.waitRelease 0).afterLock l).lockOk (lock.pc l.thread) :=
    lockOk_afterLock h.cond.lock hs
  cases hpc : s.pc l.thread with
  | appendAcquire item =>
    rw [hpc] at hp ha
    have hok := hacquire hp.2 ha
    rw [hp.1, hidle]
    cases l <;> exact ⟨rfl, hok⟩
  | removeAcquire =>
    rw [hpc] at hp ha
    have hok := hacquire hp.2 ha
    rw [hp.1, hidle]
    cases l <;> exact ⟨rfl, hok⟩
  | appendRelease =>
    rw [hpc] at hp ha
    have hok := hrelease hp.2 ha
    rw [hp.1, hidle]
    cases l <;> exact ⟨rfl, hok⟩
  | removeRelease item =>
    rw [hpc] at hp ha
    have hok := hrelease hp.2 ha
    rw [hp.1, hidle]
    cases l <;> exact ⟨rfl, hok⟩
  | removeWaiting =>
    rw [hpc] at hp
    show (CondPc.afterLock _ l).waits.isSome = true
    rw [CondPc.afterLock_waits]
    exact hp
  | idle => simp [hpc, ListPc.allows] at ha
  | appendList item => simp [hpc, ListPc.allows] at ha
  | appendSignal => simp [hpc, ListPc.allows] at ha
  | appendSignalV => simp [hpc, ListPc.allows] at ha
  | removeTest => simp [hpc, ListPc.allows] at ha
  | removeWait => simp [hpc, ListPc.allows] at ha
  | removeList => simp [hpc, ListPc.allows] at ha

theorem Inv.holder {s : SynchState α} (h : Inv s) {t : ThreadId}
    (ht : s.cond.lock.pc t = .holding) : s.cond.lock.lockHolder = some t :=
  (h.cond.lock.holder t).mpr (by simp [ht, LockPc.returned])

private theorem Inv.owes_other {s : SynchState α} (h : Inv s) {t u : ThreadId}
    (ht : s.cond.lock.pc t = .holding) (hu : u ≠ t) : (s.pc u).owes = false :=
  Bool.eq_false_iff.mpr fun ho => hu (h.alone ht (h.owes_holding ho))

theorem Inv.quiet {s : SynchState α} (h : Inv s) {t : ThreadId}
    (ht : s.cond.lock.pc t = .holding) (hpc : (s.pc t).owes = false) (u : ThreadId) :
    (s.pc u).owes = false := by
  by_cases hu : u = t
  · rw [hu, hpc]
  · exact h.owes_other ht hu

theorem Inv.wait {s : SynchState α} (h : Inv s) {t : ThreadId} {aborted : Bool}
    (hpc : s.pc t = .removeWait) (hc : s.cond.callable t) :
    Inv { s with cond := s.cond.wait t, aborted := aborted,
                 pc := Function.update s.pc t .removeWaiting } := by
  have hp : s.cond.pc t = .idle ∧ s.cond.lock.pc t = .holding := by
    simpa [hpc, ListPc.place] using h.place t
  have hcond := h.cond.wait hc
  rw [h.cond.wait_eq (h.holder hp.2)] at hcond ⊢
  refine h.move hcond h.fifo rfl ?_ (Or.inl rfl) ?_ (by simp) (by simp) ?_ ?_
  · intro u hu
    simp [hu]
  · simp [ListPc.place, CondPc.waits]
  · intro _ _
    simpa [h.empty t hpc] using h.cond.returned_length
  · intro _
    have := h.cond.returned_length
    simp only [h.empty t hpc, List.length_nil]
    omega

theorem Inv.waiterP {s : SynchState α} (h : Inv s) {t : ThreadId} {w : Nat} {sem : SemState}
    {aborted : Bool} (hpc : s.pc t = .removeWaiting) (hcpc : s.cond.pc t = .waitP w)
    (hsem : s.cond.waiter w = some sem) (ha : sem.asleep t = false) :
    Inv { s with cond := s.cond.waiterP t w sem, aborted := aborted,
                 pc := Function.update s.pc t .removeWaiting } := by
  have hcond := h.cond.waiterP hcpc hsem ha
  unfold CondState.waiterP at hcond ⊢
  cases hp : sem.p t with
  | none =>
    rw [hp] at hcond
    dsimp only at hcond ⊢
    refine h.calm hcond (fun _ _ => ⟨rfl, rfl⟩) ⟨rfl, rfl, rfl⟩ ?_ (by simp) (by simp) ?_
    · simp [ListPc.place, hcpc, CondPc.waits]
    · simp [hpc, ListPc.owes]
  | some r =>
    obtain ⟨sem', taken⟩ := r
    rw [hp] at hcond
    dsimp only at hcond ⊢
    refine h.calm hcond (fun u hu => ?_) ⟨rfl, rfl, rfl⟩ ?_ (by simp) (by simp) ?_
    · simp [hu]
    · cases taken <;> simp [ListPc.place, CondPc.waits]
    · simp [hpc, ListPc.owes]

theorem Inv.waitDelete {s : SynchState α} (h : Inv s) {t : ThreadId} {w : Nat} {aborted : Bool}
    (hpc : s.pc t = .removeWaiting) (hcpc : s.cond.pc t = .waitDelete w) :
    Inv { s with cond := { s.cond with waiter := Function.update s.cond.waiter w none,
                                       pc := Function.update s.cond.pc t .idle,
                                       returned := s.cond.returned ++ [w] },
                 aborted := aborted, pc := Function.update s.pc t .removeTest } := by
  have hholding : s.cond.lock.pc t = .holding := by
    simpa [hcpc, CondPc.lockOk] using h.cond.lockOk t
  refine h.move (h.cond.waitDelete hcpc) h.fifo rfl ?_ (Or.inl rfl) ?_ (by simp) (by simp) ?_ ?_
  · intro u hu
    simp [hu]
  · simp [ListPc.place, hholding]
  · intro _ hnone
    have ht := hnone t
    simp [ListPc.owes] at ht
  · intro hne
    have := h.covered hne (h.quiet hholding (by simp [hpc, ListPc.owes]))
    simp only [List.length_append, List.length_singleton]
    omega

theorem Inv.signal {s : SynchState α} (h : Inv s) {t : ThreadId} {aborted : Bool}
    (hpc : s.pc t = .appendSignal) :
    Inv { s with cond := s.cond.signal t none, aborted := aborted,
                 pc := Function.update s.pc t (ListPc.appendSignal.after
                   ((s.cond.signal t none).pc t).signals.isSome (.signal t)) } := by
  have hp : s.cond.pc t = .idle ∧ s.cond.lock.pc t = .holding := by
    simpa [hpc, ListPc.place] using h.place t
  have hcond : (s.cond.signal t none).Inv :=
    h.cond.signal (fun _ => hp.2) (by simp [hp.1, CondPc.waits]) (by simp [hp.1, CondPc.signals])
      (by simp)
  unfold CondState.signal at hcond ⊢
  simp only [h.holder hp.2, if_true] at hcond ⊢
  cases hq : s.cond.waitQueue with
  | nil =>
    refine h.move h.cond h.fifo rfl (fun _ _ => ⟨rfl, rfl⟩) (Or.inl rfl) ?_ ?_ ?_ ?_ ?_
    · simp [hp, ListPc.after, CondPc.signals, ListPc.place, CondPc.lockOk]
    · simp [hp, ListPc.after, CondPc.signals]
    · simp [hp, ListPc.after, CondPc.signals]
    · exact fun hne _ => absurd hq hne
    · exact fun hne => absurd hq hne
  | cons w queue =>
    rw [hq] at hcond
    have howed := h.owed (by simp [hq])
    refine h.move hcond h.fifo rfl ?_ (Or.inl rfl) ?_ ?_ ?_ ?_ ?_
    · intro u hu
      simp [hu]
    · simp [hp, ListPc.after, CondPc.signals, ListPc.place]
    · simp [ListPc.after, CondPc.signals]
    · simp [ListPc.after, CondPc.signals]
    · intro _ _
      simp only [List.length_append, List.length_singleton]
      omega
    · intro _
      simp only [List.length_append, List.length_singleton]
      omega

theorem Inv.signalV {s : SynchState α} (h : Inv s) {t : ThreadId} {w : Nat} {aborted : Bool}
    (hpc : s.pc t = .appendSignalV) (hcpc : s.cond.pc t = .signalV w none) :
    Inv { s with cond := s.cond.signalV t w none, aborted := aborted,
                 pc := Function.update s.pc t .appendRelease } := by
  have hp : (∃ w, s.cond.pc t = .signalV w none) ∧ s.cond.lock.pc t = .holding := by
    simpa [hpc, ListPc.place] using h.place t
  have hcond := h.cond.signalV hcpc
  have hsignals : (s.cond.pc t).signals = some w := by simp [hcpc, CondPc.signals]
  obtain ⟨-, -, sem, -, -, hsem, -⟩ := h.cond.signalV_live hsignals
  unfold CondState.signalV at hcond ⊢
  rw [hsem] at hcond ⊢
  dsimp only at hcond ⊢
  refine h.calm hcond (fun u hu => ?_) ⟨rfl, rfl, rfl⟩ ?_ (by simp) (by simp) ?_
  · simp [hu]
  · simp [ListPc.place, CondPc.afterV, CondPc.lockOk, hp.2]
  · simp [hpc, ListPc.owes]

/-- One step of the lock or the condition taken by a thread inside `Append` or `RemoveFront`. -/
theorem Inv.condStep {s : SynchState α} (h : Inv s) {l : CondLabel} {cond : CondState}
    {aborted : Bool} (ha : (s.pc l.thread).allows l = true)
    (hs : condStep s.cond l = some cond) :
    Inv { s with cond := cond, aborted := aborted,
                 pc := Function.update s.pc l.thread
                   ((s.pc l.thread).after (cond.pc l.thread).signals.isSome l) } := by
  have hcond := h.cond.step hs
  have hother := fun u hu => condStep_pc_other hs (u := u) hu
  cases l with
  | lock l =>
    simp only [Nachos.condStep] at hs
    split at hs
    next =>
      obtain ⟨lock, hlock, rfl⟩ := Option.map_eq_some_iff.mp hs
      have hplace : ∀ b, ((s.pc l.thread).after b (.lock l)).place
          ((s.cond.pc l.thread).afterLock l) (lock.pc l.thread) := fun _ =>
        place_afterLock h hlock ha
      have hallowed : (s.pc l.thread).owes = false ∧
          ∀ b, (s.pc l.thread).after b (.lock l) ≠ .removeWait ∧
            (s.pc l.thread).after b (.lock l) ≠ .removeList := by
        cases hpc : s.pc l.thread <;> simp_all [CondLabel.thread, ListPc.allows, ListPc.owes] <;>
          cases l <;> simp [ListPc.after]
      apply h.calm hcond hother ⟨rfl, rfl, rfl⟩
      · simpa [CondLabel.thread] using hplace _
      · exact fun he => absurd he (hallowed.2 _).1
      · exact fun he => absurd he (hallowed.2 _).2
      · exact hallowed.1
    next => contradiction
  | wait t =>
    have hpc : s.pc t = .removeWait := by
      cases hpc : s.pc t <;> simp_all [CondLabel.thread, ListPc.allows]
    simp only [Nachos.condStep] at hs
    split at hs
    next hc =>
      obtain rfl := Option.some.inj hs
      simpa only [CondLabel.thread, hpc, ListPc.after] using h.wait hpc hc
    next => contradiction
  | waiterP t =>
    have hpc : s.pc t = .removeWaiting := by
      cases hpc : s.pc t <;> simp_all [CondLabel.thread, ListPc.allows]
    cases hcpc : s.cond.pc t <;> simp only [Nachos.condStep, hcpc, reduceCtorEq] at hs
    next w =>
      cases hsem : s.cond.waiter w with
      | none => simp [hsem] at hs
      | some sem =>
        cases hasleep : sem.asleep t with
        | true => simp [hsem, hasleep] at hs
        | false =>
          simp only [hsem, hasleep, Bool.false_eq_true, if_false, Option.some.injEq] at hs
          subst hs
          simpa only [CondLabel.thread, hpc, ListPc.after] using h.waiterP hpc hcpc hsem hasleep
  | waitDelete t =>
    have hpc : s.pc t = .removeWaiting := by
      cases hpc : s.pc t <;> simp_all [CondLabel.thread, ListPc.allows]
    cases hcpc : s.cond.pc t <;>
      simp only [Nachos.condStep, hcpc, reduceCtorEq, Option.some.injEq] at hs
    subst hs
    simpa only [CondLabel.thread, hpc, ListPc.after] using h.waitDelete hpc hcpc
  | signal t =>
    have hpc : s.pc t = .appendSignal := by
      cases hpc : s.pc t <;> simp_all [CondLabel.thread, ListPc.allows]
    simp only [Nachos.condStep] at hs
    split at hs
    next hc =>
      obtain rfl := Option.some.inj hs
      simpa only [CondLabel.thread, hpc] using h.signal hpc
    next => contradiction
  | broadcast t => cases hpc : s.pc t <;> simp [CondLabel.thread, hpc, ListPc.allows] at ha
  | next t =>
    have hpc : s.pc t = .appendSignalV := by
      cases hpc : s.pc t <;> simp_all [CondLabel.thread, ListPc.allows]
    obtain ⟨⟨w, hcpc⟩, -⟩ : (∃ w, s.cond.pc t = .signalV w none) ∧
        s.cond.lock.pc t = .holding := by
      simpa [hpc, ListPc.place] using h.place t
    simp only [Nachos.condStep, hcpc, Option.some.injEq] at hs
    subst hs
    simpa only [CondLabel.thread, hpc, ListPc.after] using h.signalV hpc hcpc

/-- `list->Append(item)` under the lock. -/
theorem Inv.append {s : SynchState α} (h : Inv s) {t : ThreadId} {item : α}
    (hpc : s.pc t = .appendList item) :
    Inv { s with list := s.list ++ [item], pc := Function.update s.pc t .appendSignal,
                 appended := s.appended ++ [item] } := by
  have hp : s.cond.pc t = .idle ∧ s.cond.lock.pc t = .holding := by
    simpa [hpc, ListPc.place] using h.place t
  refine h.move h.cond ?_ rfl (fun _ _ => ⟨rfl, rfl⟩) (Or.inr hp.2) hp (by simp) (by simp) ?_ ?_
  · simp only [← h.fifo, List.append_assoc]
  · intro _ hnone
    have ht := hnone t
    simp [ListPc.owes] at ht
  · intro hne
    have := h.covered hne (h.quiet hp.2 (by simp [hpc, ListPc.owes]))
    simp only [List.length_append, List.length_singleton]
    omega

/-- The test of the loop in `RemoveFront`. -/
theorem Inv.test [DecidableEq α] {s : SynchState α} (h : Inv s) {t : ThreadId}
    (hpc : s.pc t = .removeTest) :
    Inv { s with pc := Function.update s.pc t
                   (if s.list = [] then .removeWait else .removeList) } := by
  have hp : s.cond.pc t = .idle ∧ s.cond.lock.pc t = .holding := by
    simpa [hpc, ListPc.place] using h.place t
  by_cases hl : s.list = []
  · have hlength := h.cond.returned_length
    rw [if_pos hl]
    refine h.move h.cond h.fifo rfl (fun _ _ => ⟨rfl, rfl⟩) (Or.inl rfl) hp (fun _ => hl)
      (by simp) ?_ ?_
    · intro _ _
      simpa [hl] using hlength
    · intro _
      simp only [hl, List.length_nil]
      omega
  · rw [if_neg hl]
    refine h.move h.cond h.fifo rfl (fun _ _ => ⟨rfl, rfl⟩) (Or.inl rfl) hp (by simp)
      (fun _ => hl) ?_ h.owed
    intro _ hnone
    have ht := hnone t
    simp [ListPc.owes] at ht

/-- `list->RemoveFront()` under the lock. -/
theorem Inv.remove {s : SynchState α} (h : Inv s) {t : ThreadId} {item : α} {list : List α}
    (hpc : s.pc t = .removeList) (hl : s.list = item :: list) :
    Inv { s with list := list, pc := Function.update s.pc t (.removeRelease item),
                 removed := s.removed ++ [item] } := by
  have hp : s.cond.pc t = .idle ∧ s.cond.lock.pc t = .holding := by
    simpa [hpc, ListPc.place] using h.place t
  have hlength : s.list.length = list.length + 1 := by rw [hl, List.length_cons]
  refine h.move h.cond ?_ rfl (fun _ _ => ⟨rfl, rfl⟩) (Or.inr hp.2) ⟨hp.1, Or.inl hp.2⟩ (by simp)
    (by simp) ?_ ?_
  · simp only [← h.fifo, hl, List.append_assoc, List.singleton_append]
  · intro hne _
    have := h.owed hne
    simp only
    omega
  · intro hne
    have := h.owed hne
    simp only
    omega

variable [DecidableEq α]

theorem Inv.step {s s' : SynchState α} {l : SynchLabel α} (h : Inv s) (hs : s.step l = some s') :
    Inv s' := by
  cases l with
  | append t item =>
    cases hpc : s.pc t <;> simp only [SynchState.step, hpc, reduceCtorEq, Option.some.injEq] at hs
    have hp : s.cond.pc t = .idle ∧ s.cond.lock.pc t = .outside := by
      simpa [hpc, ListPc.place] using h.place t
    subst hs
    exact h.calm h.cond (fun _ _ => ⟨rfl, rfl⟩) ⟨rfl, rfl, rfl⟩ ⟨hp.1, Or.inl hp.2⟩ (by simp)
      (by simp) (by simp [hpc, ListPc.owes])
  | removeFront t =>
    cases hpc : s.pc t <;> simp only [SynchState.step, hpc, reduceCtorEq, Option.some.injEq] at hs
    have hp : s.cond.pc t = .idle ∧ s.cond.lock.pc t = .outside := by
      simpa [hpc, ListPc.place] using h.place t
    subst hs
    exact h.calm h.cond (fun _ _ => ⟨rfl, rfl⟩) ⟨rfl, rfl, rfl⟩ ⟨hp.1, Or.inl hp.2⟩ (by simp)
      (by simp) (by simp [hpc, ListPc.owes])
  | cond l =>
    simp only [SynchState.step] at hs
    split at hs
    next ha =>
      obtain ⟨cond, hcond, rfl⟩ := Option.map_eq_some_iff.mp hs
      exact h.condStep ha hcond
    next => contradiction
  | list t =>
    cases hpc : s.pc t <;>
      simp only [SynchState.step, listStep, hpc, reduceCtorEq, Option.some.injEq] at hs
    · next item =>
      cases hl : listAppend s.list item with
      | none =>
        simp only [hl, Option.some.injEq] at hs
        exact hs ▸ h.abort
      | some list =>
        simp only [hl, Option.some.injEq, (listAppend_eq_some hl).2] at hs
        exact hs ▸ h.append hpc
    · exact hs ▸ h.test hpc
    · cases hl : s.list with
      | nil => exact absurd hl (h.nonempty t hpc)
      | cons item list =>
        simp only [hl, Option.some.injEq] at hs
        exact hs ▸ h.remove hpc hl

theorem inv_inductive : (synchListSystem α).Inductive Inv where
  init _ h := h ▸ Inv.init
  step _ _ _ h hs := h.step hs.2

omit [DecidableEq α] in
theorem Inv.threads {s : SynchState α} (h : Inv s) (ws : List Nat) (hnodup : ws.Nodup)
    (hws : ∀ w ∈ ws, w ∈ s.cond.signalled ∧ w ∉ s.cond.returned) :
    ∃ ts : List ThreadId, ts.Nodup ∧ ts.length = ws.length ∧
      ∀ t ∈ ts, ∃ w ∈ ws, (s.cond.pc t).waits = some w := by
  induction ws with
  | nil => exact ⟨[], by simp⟩
  | cons w ws ih =>
    obtain ⟨hw, hnodup'⟩ := List.nodup_cons.mp hnodup
    obtain ⟨ts, hts, hlen, hmem⟩ := ih hnodup' fun w' hw' => hws w' (List.mem_cons_of_mem _ hw')
    have hin := hws w List.mem_cons_self
    obtain ⟨t, ht⟩ := h.cond.pending w (h.cond.signalled_lt hin.1) hin.2
    refine ⟨t :: ts, List.nodup_cons.mpr ⟨?_, hts⟩, by simp [hlen], ?_⟩
    · intro hm
      obtain ⟨w', hw', ht'⟩ := hmem t hm
      rw [ht] at ht'
      exact hw (Option.some.inj ht' ▸ hw')
    · intro u hu
      rcases List.mem_cons.mp hu with rfl | hu
      · exact ⟨w, List.mem_cons_self, ht⟩
      · obtain ⟨w', hw', hu'⟩ := hmem u hu
        exact ⟨w', List.mem_cons_of_mem _ hw', hu'⟩

omit [DecidableEq α] in
/-- A thread inside `Wait` is a consumer. -/
theorem Inv.waiting {s : SynchState α} (h : Inv s) {t : ThreadId} {w : Nat}
    (hw : (s.cond.pc t).waits = some w) : s.pc t = .removeWaiting := by
  have hp := h.place t
  cases hpc : s.pc t <;> rw [hpc] at hp
  case appendSignalV =>
    obtain ⟨⟨w', hc⟩, -⟩ := hp
    simp [hc, CondPc.waits] at hw
  all_goals
    have hc : s.cond.pc t = .idle := hp.1
    simp [hc, CondPc.waits] at hw

/-! ## Items on their way -/

end SynchState

namespace ListPc

/-- The thread is inside `Append`. -/
def appending : ListPc α → Bool
  | .appendAcquire _ | .appendList _ | .appendSignal | .appendSignalV | .appendRelease => true
  | _ => false

/-- The item of an `Append` that has not reached the list yet. -/
def toAppend : ListPc α → List α
  | .appendAcquire item | .appendList item => [item]
  | _ => []

def inHand : ListPc α → List α
  | .removeRelease item => [item]
  | _ => []

/-- The item a thread returns when it goes from one place to another. -/
def returning : ListPc α → ListPc α → List α
  | .removeRelease item, .idle => [item]
  | _, _ => []

/-- A step of the lock or the condition moves no item. -/
structure Calm (pc pc' : ListPc α) : Prop where
  started : pc ≠ .idle
  toAppend : pc'.toAppend = pc.toAppend
  inHand : pc.returning pc' ++ pc'.inHand = pc.inHand
  appends : pc'.appending = true → pc.appending = true
  appending : pc.appending = true → pc'.appending = true ∨ pc = .appendRelease ∧ pc' = .idle

private theorem calm_after {pc : ListPc α} {l : CondLabel} (ha : pc.allows l = true)
    (signals : Bool) :
    pc.Calm (pc.after signals l) := by
  cases pc <;> cases l <;> simp only [allows, Bool.false_eq_true] at ha
  case removeWaiting.lock l =>
    cases l <;> constructor <;> simp [after, toAppend, inHand, returning, appending]
  case appendAcquire.lock item l | removeAcquire.lock l | appendRelease.lock l |
      removeRelease.lock item l =>
    cases l <;> simp only [CondPc.allows, Bool.false_eq_true] at ha <;>
      constructor <;> simp [after, toAppend, inHand, returning, appending]
  all_goals
    cases signals <;> constructor <;> simp [after, toAppend, inHand, returning, appending]

theorem toAppend_of_not {pc : ListPc α} (h : pc.appending = false) : pc.toAppend = [] := by
  cases pc <;> first | rfl | cases h

end ListPc

namespace SynchState

/-- What a step inside a call does to the items. -/
structure Moved (s s' : SynchState α) (t : ThreadId) : Prop where
  other : ∀ u, u ≠ t → s'.pc u = s.pc u
  started : s.pc t ≠ .idle
  appended : s'.appended ++ (s'.pc t).toAppend = s.appended ++ (s.pc t).toAppend
  removed : ∃ d, s'.removed = s.removed ++ d ∧ (d ≠ [] → s.pc t = .removeList) ∧
    (s.pc t).returning (s'.pc t) ++ (s'.pc t).inHand = (s.pc t).inHand ++ d
  appends : (s'.pc t).appending = true → (s.pc t).appending = true
  appending : (s.pc t).appending = true → (s'.pc t).appending = true ∨
    s.pc t = .appendRelease ∧ s'.pc t = .idle

private theorem Moved.of_calm {s s' : SynchState α} {t : ThreadId} {pc : ListPc α}
    (hcalm : (s.pc t).Calm pc) (hpc : s'.pc = Function.update s.pc t pc)
    (happended : s'.appended = s.appended) (hremoved : s'.removed = s.removed) :
    Moved s s' t := by
  have hself : s'.pc t = pc := by rw [hpc, Function.update_self]
  constructor
  case other =>
    intro u hu
    rw [hpc, Function.update_of_ne hu]
  case started => exact hcalm.started
  case appended => rw [hself, happended, hcalm.toAppend]
  case removed =>
    refine ⟨[], ?_, ?_, ?_⟩
    · rw [hremoved, List.append_nil]
    · exact fun h => absurd rfl h
    · rw [hself, hcalm.inHand, List.append_nil]
  case appends =>
    rw [hself]
    exact hcalm.appends
  case appending =>
    rw [hself]
    exact hcalm.appending

theorem moved_cond [DecidableEq α] {s s' : SynchState α} {l : CondLabel}
    (hs : s.step (.cond l) = some s') : Moved s s' l.thread := by
  simp only [SynchState.step] at hs
  split at hs
  next ha =>
    obtain ⟨cond, -, rfl⟩ := Option.map_eq_some_iff.mp hs
    exact .of_calm (ListPc.calm_after ha _) rfl rfl rfl
  next => cases hs

theorem moved_list [DecidableEq α] {s s' : SynchState α} {t : ThreadId}
    (hs : s.step (.list t) = some s') : Moved s s' t := by
  -- a failed ASSERT leaves everything as it is
  have hstay : ∀ pc : ListPc α, s.pc t = pc → pc.Calm pc →
      Moved s { s with aborted := true } t := by
    intro pc hpc hcalm
    exact .of_calm (hpc ▸ hcalm) (hpc ▸ (Function.update_eq_self t s.pc).symm) rfl rfl
  simp only [SynchState.step, listStep] at hs
  split at hs
  next item hpc =>
    split at hs
    next =>
      obtain rfl := Option.some.inj hs
      exact hstay _ hpc (by constructor <;> simp [ListPc.returning, ListPc.inHand])
    next list hlist =>
      obtain rfl := Option.some.inj hs
      constructor
      case other => exact fun u hu => Function.update_of_ne hu _ _
      case started => simp [hpc]
      case appended => simp [hpc, ListPc.toAppend]
      case removed => exact ⟨[], by simp [hpc, ListPc.returning, ListPc.inHand]⟩
      case appends => simp [hpc, ListPc.appending]
      case appending => simp [hpc, ListPc.appending]
  next hpc =>
    obtain rfl := Option.some.inj hs
    have hcalm : ∀ pc : ListPc α, pc = .removeWait ∨ pc = .removeList → (s.pc t).Calm pc := by
      intro pc h
      rw [hpc]
      rcases h with rfl | rfl
      · constructor <;> simp [ListPc.returning, ListPc.inHand, ListPc.toAppend, ListPc.appending]
      · constructor <;> simp [ListPc.returning, ListPc.inHand, ListPc.toAppend, ListPc.appending]
    refine .of_calm (hcalm _ ?_) rfl rfl rfl
    split
    · exact .inl rfl
    · exact .inr rfl
  next hpc =>
    split at hs
    next =>
      obtain rfl := Option.some.inj hs
      exact hstay _ hpc (by constructor <;> simp [ListPc.returning, ListPc.inHand])
    next item list hlist =>
      obtain rfl := Option.some.inj hs
      constructor
      case other => exact fun u hu => Function.update_of_ne hu _ _
      case started => simp [hpc]
      case appended => simp [hpc, ListPc.toAppend]
      case removed =>
        exact ⟨[item], by simp [hpc, ListPc.returning, ListPc.inHand]⟩
      case appends => simp [ListPc.appending]
      case appending => simp [hpc, ListPc.appending]
  next => cases hs

/-- The items removed are those returned, and the one in the hand of the only thread that has
one. -/
def Handed (s : SynchState α) (returned : List α) : Prop :=
  ∀ t, (∀ u, u ≠ t → (s.pc u).inHand = []) → s.removed = returned ++ (s.pc t).inHand

private theorem Inv.inHand_inside {s : SynchState α} (h : Inv s) {t : ThreadId}
    (ht : (s.pc t).inHand ≠ []) : (s.cond.lock.pc t).inside = true := by
  have hp := h.place t
  cases hpc : s.pc t <;> simp [hpc, ListPc.inHand] at ht
  rw [hpc] at hp
  rcases hp.2 with hl | hl
  · rw [hl]
    rfl
  · rw [hl]
    rfl

theorem Handed.call {s : SynchState α} {t : ThreadId} {returned : List α} (h : s.Handed returned)
    (hidle : s.pc t = .idle) {pc : ListPc α} (hpc : pc.inHand = []) :
    { s with pc := Function.update s.pc t pc }.Handed returned := by
  have hsame : ∀ u, (Function.update s.pc t pc u).inHand = (s.pc u).inHand := by
    intro u
    by_cases hu : u = t
    · rw [hu, Function.update_self, hidle, hpc]
      rfl
    · rw [Function.update_of_ne hu]
  intro v hv
  show s.removed = returned ++ (Function.update s.pc t pc v).inHand
  rw [hsame v]
  apply h v
  intro u hu
  rw [← hsame u]
  exact hv u hu

theorem Handed.step {s s' : SynchState α} {t : ThreadId} {returned : List α}
    (h : s.Handed returned) (hinv : Inv s) (hmoved : Moved s s' t) :
    s'.Handed (returned ++ (s.pc t).returning (s'.pc t)) := by
  obtain ⟨d, hremoved, hlist, hitems⟩ := hmoved.removed
  -- the thread of the step is the only one that can have an item in its hand
  have halone : (∀ u, u ≠ t → (s.pc u).inHand = []) →
      s'.removed = returned ++ (s.pc t).returning (s'.pc t) ++ (s'.pc t).inHand := by
    intro hothers
    rw [hremoved, h t hothers, List.append_assoc, List.append_assoc, hitems]
  intro v hv
  by_cases hvt : v = t
  · subst hvt
    apply halone
    intro u hu
    rw [← hmoved.other u hu]
    exact hv u hu
  · have hothers : ∀ u, u ≠ t → u ≠ v → (s.pc u).inHand = [] := by
      intro u hut huv
      rw [← hmoved.other u hut]
      exact hv u huv
    have hempty : (s'.pc t).inHand = [] := hv t (fun heq => hvt heq.symm)
    rw [hmoved.other v hvt]
    by_cases hhand : (s.pc v).inHand = []
    · have hall : ∀ u, u ≠ t → (s.pc u).inHand = [] := by
        intro u hu
        by_cases huv : u = v
        · rw [huv, hhand]
        · exact hothers u hu huv
      rw [halone hall, hempty, hhand]
    · -- another thread has the lock and an item, so this step touches none
      have hinside := hinv.inHand_inside hhand
      have hd : d = [] := by
        by_contra hne
        have hlock := hinv.list_holding (.inr (hlist hne))
        exact hvt (hinv.cond.lock.unique v t hinside (by rw [hlock]; rfl))
      have hnone : (s.pc t).inHand = [] := by
        by_contra hne
        exact hvt (hinv.cond.lock.unique v t hinside (hinv.inHand_inside hne))
      have hreturning : (s.pc t).returning (s'.pc t) = [] := by
        rw [hempty, hnone, hd, List.append_nil, List.append_nil] at hitems
        exact hitems
      have hstays : ∀ u, u ≠ v → (s.pc u).inHand = [] := by
        intro u hu
        by_cases hut : u = t
        · rw [hut, hnone]
        · exact hothers u hut hu
      rw [hremoved, hd, hreturning, List.append_nil, List.append_nil, h v hstays]

theorem Handed.returned_isPrefix {s : SynchState α} {returned : List α} (h : s.Handed returned)
    (hinv : Inv s) : returned <+: s.removed := by
  by_cases hhand : ∃ t, (s.pc t).inHand ≠ []
  · obtain ⟨t, ht⟩ := hhand
    rw [h t]
    · exact List.prefix_append _ _
    · intro u hu
      by_contra hne
      exact hu (hinv.cond.lock.unique u t (hinv.inHand_inside hne) (hinv.inHand_inside ht))
  · simp only [ne_eq, not_exists, not_not] at hhand
    rw [h 0 fun u _ => hhand u]
    exact List.prefix_append _ _

end SynchState

/-- While the lock has no holder and a consumer is still queued, there are at least as many
signalled consumers on their way back to their test as there are items. -/
theorem SynchState.Inv.signalled {s : SynchState α} (h : Inv s)
    (hfree : s.cond.lock.lockHolder = none) (hqueue : s.cond.waitQueue ≠ []) :
    ∃ ts : List ThreadId, ts.Nodup ∧ s.list.length ≤ ts.length ∧ ∀ t ∈ ts, s.Signalled t := by
  have hnone : ∀ t, s.cond.lock.pc t ≠ .holding := by
    intro t ht
    simp [h.holder ht] at hfree
  have hquiet : ∀ t, (s.pc t).owes = false := fun t =>
    Bool.eq_false_iff.mpr fun ho => hnone t (h.owes_holding ho)
  have hsettled : s.cond.released = s.cond.signalled := by
    apply h.cond.settled
    intro t
    have hok := h.cond.lockOk t
    cases hpc : s.cond.pc t <;> simp_all [CondPc.signals, CondPc.lockOk]
  have hnodup : s.cond.signalled.Nodup := by
    have hall : (s.cond.released ++ s.cond.waitQueue).Nodup := by
      rw [h.cond.order]
      exact List.nodup_range
    exact hsettled ▸ (List.nodup_append.mp hall).1
  -- the signalled waiters that have not returned
  let back := s.cond.signalled.filter (· ∈ s.cond.returned)
  let ws := s.cond.signalled.filter (· ∉ s.cond.returned)
  have hsplit : back.length + ws.length = s.cond.signalled.length := by
    have := List.length_eq_length_filter_add (l := s.cond.signalled)
      (fun w => decide (w ∈ s.cond.returned))
    simp only [back, ws, decide_not]
    omega
  have hback : back.length ≤ s.cond.returned.length := by
    apply (List.subperm_of_subset (hnodup.filter _) _).length_le
    intro w hw
    simpa using (List.mem_filter.mp hw).2
  obtain ⟨ts, hts, hlen, hmem⟩ := h.threads ws (hnodup.filter _) fun w hw => by
    simpa using List.mem_filter.mp hw
  refine ⟨ts, hts, ?_, ?_⟩
  · have := h.covered hqueue hquiet
    rw [hsettled] at this
    omega
  · intro t ht
    obtain ⟨w, hw, hwaits⟩ := hmem t ht
    exact ⟨h.waiting hwaits, w, (List.mem_filter.mp hw).1, hwaits⟩

/-! ## What the calls return -/

def SynchLabel.thread : SynchLabel α → ThreadId
  | .append t _ | .removeFront t | .list t => t
  | .cond l => l.thread

/-- The interleavings with the items that the calls of `RemoveFront` have returned so far. -/
def returnedSystem (α : Type*) [DecidableEq α] :
    System (SynchState α × List α) (SynchLabel α) where
  init p := p = (.new, [])
  step p l p' := (synchListSystem α).step p.1 l p'.1 ∧
    p'.2 = p.2 ++ (p.1.pc l.thread).returning (p'.1.pc l.thread)

def SynchState.nextReturned [DecidableEq α] (p : SynchState α × List α) (l : SynchLabel α) :
    Option (SynchState α × List α) :=
  (p.1.next l).map fun s' => (s', p.2 ++ (p.1.pc l.thread).returning (s'.pc l.thread))

section Returned

variable [DecidableEq α]

private theorem SynchState.nextReturned_step {p p' : SynchState α × List α} {l : SynchLabel α}
    (h : nextReturned p l = some p') : (returnedSystem α).step p l p' := by
  obtain ⟨s', hnext, rfl⟩ := Option.map_eq_some_iff.mp h
  exact ⟨next_step hnext, rfl⟩

theorem SynchState.Handed.next {s s' : SynchState α} {l : SynchLabel α} {returned : List α}
    (h : s.Handed returned) (hinv : Inv s) (hs : s.step l = some s') :
    s'.Handed (returned ++ (s.pc l.thread).returning (s'.pc l.thread)) := by
  -- a call returns nothing when it begins
  have hbegin {t : ThreadId} {pc : ListPc α} (hidle : s.pc t = .idle) (hpc : pc.inHand = []) :
      { s with pc := Function.update s.pc t pc }.Handed
        (returned ++ (s.pc t).returning (Function.update s.pc t pc t)) := by
    rw [hidle]
    simpa [ListPc.returning] using h.call hidle hpc
  cases l with
  | append t item =>
    cases hpc : s.pc t <;> simp only [SynchState.step, hpc, reduceCtorEq, Option.some.injEq] at hs
    subst hs
    exact hbegin hpc rfl
  | removeFront t =>
    cases hpc : s.pc t <;> simp only [SynchState.step, hpc, reduceCtorEq, Option.some.injEq] at hs
    subst hs
    exact hbegin hpc rfl
  | cond l => exact h.step hinv (moved_cond hs)
  | list t => exact h.step hinv (moved_list hs)

theorem handed_inductive : (returnedSystem α).Inductive
    fun p => SynchState.Inv p.1 ∧ p.1.Handed p.2 where
  init := by
    rintro p rfl
    exact ⟨SynchState.inv_inductive.init _ rfl, fun _ _ => rfl⟩
  step := by
    rintro p l p' ⟨hinv, hhanded⟩ ⟨hstep, hreturned⟩
    rw [hreturned]
    exact ⟨SynchState.inv_inductive.step _ _ _ hinv hstep, hhanded.next hinv hstep.2⟩

end Returned

/-- In every interleaving the items that the calls of `RemoveFront` have returned are the first of
the appended items in their order; a call that is about to return has the next one, and the list
has the rest. `RemoveFront` takes from a non-empty list only, and while the lock has no holder,
items are in the list and a consumer is still queued, there are at least as many signalled
consumers on their way back to their test as there are items. -/
theorem synchList_fifo [DecidableEq α] {p : SynchState α × List α}
    (hr : (returnedSystem α).Reachable p) :
    p.2 <+: p.1.appended ∧
    (∀ t item, p.1.pc t = .removeRelease item → p.2 ++ [item] ++ p.1.list = p.1.appended) ∧
    ((∀ t item, p.1.pc t ≠ .removeRelease item) → p.2 ++ p.1.list = p.1.appended) ∧
    (∀ t, p.1.pc t = .removeList → p.1.list ≠ []) ∧
    (p.1.cond.lock.lockHolder = none → p.1.list ≠ [] → p.1.cond.waitQueue ≠ [] →
      ∃ ts : List ThreadId, ts.Nodup ∧ p.1.list.length ≤ ts.length ∧
        ∀ t ∈ ts, p.1.Signalled t) := by
  obtain ⟨h, hhanded⟩ := handed_inductive.of_reachable hr
  refine ⟨?_, ?_, ?_, h.nonempty, fun hfree _ hqueue => h.signalled hfree hqueue⟩
  · have hremoved : p.1.removed <+: p.1.appended := ⟨p.1.list, h.fifo⟩
    exact (hhanded.returned_isPrefix h).trans hremoved
  · intro t item ht
    have hinside := h.inHand_inside (t := t) (by simp [ht, ListPc.inHand])
    have hremoved := hhanded t fun u hu => by
      by_contra hne
      exact hu (h.cond.lock.unique u t (h.inHand_inside hne) hinside)
    rw [ht] at hremoved
    rw [← h.fifo, hremoved]
    rfl
  · intro hnone
    have hempty : ∀ u, (p.1.pc u).inHand = [] := by
      intro u
      cases hpc : p.1.pc u <;> first | rfl | exact absurd hpc (hnone u _)
    have hremoved := hhanded 0 fun u _ => hempty u
    rw [hempty, List.append_nil] at hremoved
    rw [← h.fifo, hremoved]

/-- Producer `t` appends an item to a list nobody waits for. -/
private def producerAppends (t : ThreadId) (item : Nat) : List (SynchLabel Nat) :=
  [.append t item, .cond (.lock (.acquire t)), .cond (.lock (.assign t)), .list t,
    .cond (.signal t), .cond (.lock (.release t)), .cond (.lock (.v t))]

/-- Consumer `t` finds an item and returns it. -/
private def consumerReturns (t : ThreadId) : List (SynchLabel Nat) :=
  [.removeFront t, .cond (.lock (.acquire t)), .cond (.lock (.assign t)), .list t, .list t,
    .cond (.lock (.release t)), .cond (.lock (.v t))]

/-- Consumer `t` finds the list empty and goes to sleep. -/
private def consumerWaits (t : ThreadId) : List (SynchLabel Nat) :=
  [.removeFront t, .cond (.lock (.acquire t)), .cond (.lock (.assign t)), .list t,
    .cond (.wait t), .cond (.lock (.release t)), .cond (.lock (.v t)), .cond (.waiterP t)]

/-- Three items are appended and returned, one of them twice. Then two consumers sleep, and thread
2 appends one more item. -/
private def consumersAndProducers : List (SynchLabel Nat) :=
  producerAppends 3 5 ++ producerAppends 2 6 ++ consumerReturns 4 ++ producerAppends 3 5 ++
    consumerReturns 0 ++ consumerReturns 1 ++ consumerWaits 0 ++ consumerWaits 1 ++
    [.append 2 7, .cond (.lock (.acquire 2)), .cond (.lock (.assign 2)), .list 2,
      .cond (.signal 2), .cond (.next 2), .cond (.lock (.release 2)), .cond (.lock (.v 2))]

private theorem consumersAndProducers_run :
    (consumersAndProducers.foldlM SynchState.nextReturned (.new, [])).isSome := by
  decide +kernel

private def oneItem : SynchState Nat × List Nat :=
  (consumersAndProducers.foldlM SynchState.nextReturned (.new, [])).get consumersAndProducers_run

theorem synchList_fifo_oneItem :
    oneItem.2 = [5, 6, 5] ∧ oneItem.2 <+: oneItem.1.appended ∧ oneItem.1.list = [7] ∧
      oneItem.1.cond.waitQueue = [1] ∧
      ∃ ts : List ThreadId, ts.Nodup ∧ 1 ≤ ts.length ∧ ∀ t ∈ ts, oneItem.1.Signalled t := by
  have hr : (returnedSystem Nat).Reachable oneItem :=
    .foldlM (fun _ _ _ => SynchState.nextReturned_step) consumersAndProducers (.init rfl)
      (Option.some_get consumersAndProducers_run).symm
  have hreturned : oneItem.2 = [5, 6, 5] := by decide +kernel
  have hlist : oneItem.1.list = [7] := by decide +kernel
  have hqueue : oneItem.1.cond.waitQueue = [1] := by decide +kernel
  have hfree : oneItem.1.cond.lock.lockHolder = none := by decide +kernel
  obtain ⟨hfirst, -, -, -, hwoken⟩ := synchList_fifo hr
  obtain ⟨ts, hnodup, hlength, hsignalled⟩ := hwoken hfree (by simp [hlist]) (by simp [hqueue])
  rw [hlist] at hlength
  exact ⟨hreturned, hfirst, hlist, hqueue, ts, hnodup, hlength, hsignalled⟩

end Nachos

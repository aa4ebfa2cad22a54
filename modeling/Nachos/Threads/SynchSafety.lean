import Nachos.Threads.SynchList

/-!
# The ASSERTs of synchronized lists

A thread inside `Append` or `RemoveFront` uses the lock and the condition as they are meant to be
used, so none of their ASSERTs fails. What is left is the ASSERT of `List<T>::Append`, which fails
when an item is appended that is in the list already.
-/

namespace Nachos

open Framework

theorem LockState.Inv.lockStep_aborted {s s' : LockState} {l : LockLabel} (h : s.Inv)
    (hrelease : ∀ t, l = .release t → s.pc t ≠ .outside) (hs : lockStep s l = some s') :
    s'.aborted = s.aborted := by
  cases l with
  | acquire t =>
    cases hpc : s.pc t <;> simp only [lockStep, hpc, reduceCtorEq, Option.some.injEq] at hs
    · rw [← hs]
      exact (h.enterP_cases false (h.awake (by simp [hpc]))).1
    · rw [← hs]
      exact (h.enterP_cases true (h.awake (by simp [hpc]))).1
  | retest t =>
    cases hpc : s.pc t <;> simp only [lockStep, hpc, reduceCtorEq] at hs
    next held =>
      cases hasleep : s.semaphore.asleep t with
      | true => simp [hasleep] at hs
      | false =>
        simp only [hasleep, Bool.false_eq_true, if_false, Option.some.injEq] at hs
        rw [← hs]
        exact (h.enterP_cases held hasleep).1
  | assign t =>
    cases hpc : s.pc t <;> simp only [lockStep, hpc, reduceCtorEq, Option.some.injEq] at hs
    rw [← hs]
  | release t =>
    simp only [lockStep] at hs
    split at hs
    next hpc =>
      have hholding : s.pc t = .holding := hpc.resolve_left (hrelease t rfl)
      have hholder : s.lockHolder = some t :=
        (h.holder t).mpr (by simp [hholding, LockPc.returned])
      rw [if_pos hholder] at hs
      rw [← Option.some.inj hs]
    next => cases hs
  | v t =>
    cases hpc : s.pc t <;> simp only [lockStep, hpc, reduceCtorEq, Option.some.injEq] at hs
    rw [← hs]

namespace SynchState

variable {α : Type*} {s s' : SynchState α}

/-- No ASSERT of the list, the condition or the lock has failed. -/
structure Safe (s : SynchState α) : Prop where
  list : s.aborted = false
  cond : s.cond.aborted = false
  lock : s.cond.lock.aborted = false

theorem Safe.new : Safe (new : SynchState α) := ⟨rfl, rfl, rfl⟩

theorem Safe.congr (h : s.Safe) (hlist : s'.aborted = s.aborted) (hcond : s'.cond = s.cond) :
    s'.Safe := by
  constructor
  · rw [hlist]
    exact h.list
  · rw [hcond]
    exact h.cond
  · rw [hcond]
    exact h.lock

theorem Inv.not_outside (h : s.Inv) {t : ThreadId}
    (hlist : (s.pc t).allows (.lock (.release t)) = true)
    (hcond : (s.cond.pc t).allows (.release t) = true) : s.cond.lock.pc t ≠ .outside := by
  have hplace := h.place t
  have hlockOk := h.cond.lockOk t
  have hinside {w : Nat} (hok : (CondPc.waitRelease w).lockOk (s.cond.lock.pc t)) :
      s.cond.lock.pc t ≠ .outside := by
    rcases hok with hpc | hpc <;> simp [hpc]
  cases hpc : s.pc t with
  | appendRelease | removeRelease item =>
    rw [hpc] at hplace
    exact hinside hplace.2
  | removeWaiting =>
    rw [hpc] at hplace
    cases hcpc : s.cond.pc t with
    | waitRelease w =>
      rw [hcpc] at hlockOk
      exact hinside hlockOk
    | idle =>
      rw [hcpc] at hplace
      cases hplace
    | waitP w | waitAcquire w | waitDelete w | signalV w b | broadcast b =>
      rw [hcpc] at hcond
      cases hcond
  | idle | appendAcquire item | appendList item | appendSignal | appendSignalV | removeAcquire
  | removeTest | removeWait | removeList =>
    rw [hpc] at hlist
    cases hlist

private theorem Inv.lockHolder_of_holding (h : s.Inv) {t : ThreadId}
    (hpc : s.cond.lock.pc t = .holding) : s.cond.lock.lockHolder = some t :=
  (h.cond.lock.holder t).mpr (by simp [hpc, LockPc.returned])

private theorem Inv.condStep_aborted (h : s.Inv) {l : CondLabel} {cond : CondState}
    (ha : (s.pc l.thread).allows l = true) (hs : Nachos.condStep s.cond l = some cond) :
    (s.cond.aborted = false → s.cond.lock.aborted = false →
      cond.aborted = false ∧ cond.lock.aborted = false) := by
  intro hcond hlock
  cases l with
  | lock l =>
    simp only [Nachos.condStep] at hs
    split at hs
    next hallows =>
      obtain ⟨lock, hstep, rfl⟩ := Option.map_eq_some_iff.mp hs
      have hkept := h.cond.lock.lockStep_aborted (fun t heq => by
        subst heq
        exact h.not_outside ha hallows) hstep
      simp [hkept, hcond, hlock]
    next => cases hs
  | wait t =>
    have hpc : s.pc t = .removeWait := by
      cases hpc : s.pc t <;> simp_all [CondLabel.thread, ListPc.allows]
    have hplace := h.place t
    rw [hpc] at hplace
    simp only [Nachos.condStep] at hs
    split at hs
    next =>
      obtain rfl := Option.some.inj hs
      rw [h.cond.wait_eq (h.lockHolder_of_holding hplace.2)]
      exact ⟨hcond, hlock⟩
    next => cases hs
  | waiterP t =>
    cases hcpc : s.cond.pc t <;> simp only [Nachos.condStep, hcpc, reduceCtorEq] at hs
    next w =>
      obtain ⟨sem, hsem, hprivate⟩ := h.cond.own t w (by rw [hcpc]; rfl)
      cases hasleep : sem.asleep t with
      | true => simp [hsem, hasleep] at hs
      | false =>
        obtain ⟨⟨sem', taken⟩, hp⟩ := hprivate.inv.p_isSome hasleep
        simp only [hsem, hasleep, Bool.false_eq_true, if_false, Option.some.injEq,
          CondState.waiterP, hp] at hs
        rw [← hs]
        exact ⟨hcond, hlock⟩
  | waitDelete t =>
    cases hcpc : s.cond.pc t <;>
      simp only [Nachos.condStep, hcpc, reduceCtorEq, Option.some.injEq] at hs
    rw [← hs]
    exact ⟨hcond, hlock⟩
  | signal t =>
    have hpc : s.pc t = .appendSignal := by
      cases hpc : s.pc t <;> simp_all [CondLabel.thread, ListPc.allows]
    have hplace := h.place t
    rw [hpc] at hplace
    simp only [Nachos.condStep] at hs
    split at hs
    next =>
      obtain rfl := Option.some.inj hs
      rw [CondState.signal, if_pos (h.lockHolder_of_holding hplace.2)]
      cases hq : s.cond.waitQueue <;> exact ⟨hcond, hlock⟩
    next => cases hs
  | broadcast t => cases hpc : s.pc t <;> simp [CondLabel.thread, hpc, ListPc.allows] at ha
  | next t =>
    have hpc : s.pc t = .appendSignalV := by
      cases hpc : s.pc t <;> simp_all [CondLabel.thread, ListPc.allows]
    have hplace := h.place t
    rw [hpc] at hplace
    obtain ⟨⟨w, hcpc⟩, -⟩ := hplace
    simp only [Nachos.condStep, hcpc, Option.some.injEq, CondState.signalV] at hs
    split at hs
    next =>
      rw [← hs]
      exact ⟨hcond, hlock⟩
    next =>
      rw [← hs]
      exact ⟨hcond, hlock⟩

variable [DecidableEq α]

theorem Inv.safe_step (h : s.Inv) (hsafe : s.Safe) {l : SynchLabel α}
    (hfresh : ∀ t item, l = .list t → s.pc t = .appendList item → item ∉ s.list)
    (hs : s.step l = some s') : s'.Safe := by
  cases l with
  | append t item =>
    cases hpc : s.pc t <;> simp only [SynchState.step, hpc, reduceCtorEq, Option.some.injEq] at hs
    rw [← hs]
    exact hsafe.congr rfl rfl
  | removeFront t =>
    cases hpc : s.pc t <;> simp only [SynchState.step, hpc, reduceCtorEq, Option.some.injEq] at hs
    rw [← hs]
    exact hsafe.congr rfl rfl
  | cond l =>
    simp only [SynchState.step] at hs
    split at hs
    next ha =>
      obtain ⟨cond, hcond, rfl⟩ := Option.map_eq_some_iff.mp hs
      obtain ⟨hkept, hlock⟩ := h.condStep_aborted ha hcond hsafe.cond hsafe.lock
      exact ⟨by simp [hsafe.list, hkept], hkept, hlock⟩
    next => cases hs
  | list t =>
    cases hpc : s.pc t <;>
      simp only [SynchState.step, listStep, hpc, reduceCtorEq, Option.some.injEq] at hs
    · next item =>
      rw [listAppend_of_notMem (hfresh t item rfl hpc)] at hs
      rw [← Option.some.inj hs]
      exact hsafe.congr rfl rfl
    · rw [← hs]
      exact hsafe.congr rfl rfl
    · cases hl : s.list with
      | nil => exact absurd hl (h.nonempty t hpc)
      | cons item list =>
        simp only [hl, Option.some.injEq] at hs
        rw [← hs]
        exact hsafe.congr rfl rfl

end SynchState

end Nachos

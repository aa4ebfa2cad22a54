import Nachos.Threads.Semaphore

/-!
# Locks

`Lock::Acquire` is a `P` followed by the assignment of `lockHolder`, and `Lock::Release` an
ASSERT, the clearing of `lockHolder` and a `V`. The pieces are separate steps here, so a run
may preempt the thread after the `P` has taken the unit and before the holder is recorded,
and between the clearing of the holder and the `V`.
-/

namespace Nachos

open Framework

/-- Where a thread stands in the code of one lock. -/
inductive LockPc
  | outside
  /-- inside the `P` of `Acquire`; `held` when the holder itself has called `Acquire` again -/
  | inP (held : Bool)
  /-- `P` has returned and `lockHolder` is not assigned yet -/
  | gotP
  | holding
  /-- `lockHolder` is cleared and `V` not called yet -/
  | releasing
  deriving DecidableEq

/-- Between the completion of the `P` inside `Acquire` and the `V` inside `Release`. -/
def LockPc.inside : LockPc → Bool
  | .outside => false
  | .inP held => held
  | .gotP => true
  | .holding => true
  | .releasing => true

/-- `Acquire` has returned and `Release` has not been called. -/
def LockPc.returned : LockPc → Bool
  | .inP held => held
  | .holding => true
  | _ => false

structure LockState where
  semaphore : SemState
  lockHolder : Option ThreadId
  pc : ThreadId → LockPc
  /-- an ASSERT has failed and the simulation has stopped -/
  aborted : Bool

namespace LockState

def new : LockState :=
  { semaphore := .new 1, lockHolder := none, pc := fun _ => .outside, aborted := false }

/-- One atomic section of the `P` in `Acquire`. -/
def enterP (s : LockState) (t : ThreadId) (held : Bool) : LockState :=
  match s.semaphore.p t with
  | none => { s with aborted := true }
  | some (sem, true) => { s with semaphore := sem, pc := Function.update s.pc t .gotP }
  | some (sem, false) => { s with semaphore := sem, pc := Function.update s.pc t (.inP held) }

end LockState

inductive LockLabel
  | acquire (t : ThreadId)
  | retest (t : ThreadId)
  | assign (t : ThreadId)
  | release (t : ThreadId)
  | v (t : ThreadId)

def LockLabel.thread : LockLabel → ThreadId
  | .acquire t | .retest t | .assign t | .release t | .v t => t

/-- The next step of a thread in the code of the lock; `none` when the thread is not there. -/
def lockStep (s : LockState) : LockLabel → Option LockState
  | .acquire t =>
    match s.pc t with
    | .outside => some (s.enterP t false)
    | .holding => some (s.enterP t true)
    | _ => none
  | .retest t =>
    match s.pc t with
    | .inP held => if s.semaphore.asleep t then none else some (s.enterP t held)
    | _ => none
  | .assign t =>
    match s.pc t with
    | .gotP => some { s with lockHolder := some t, pc := Function.update s.pc t .holding }
    | _ => none
  | .release t =>
    -- ASSERT(IsHeldByCurrentThread())
    if s.pc t = .outside ∨ s.pc t = .holding then
      if s.lockHolder = some t then
        some { s with lockHolder := none, pc := Function.update s.pc t .releasing }
      else some { s with aborted := true }
    else none
  | .v t =>
    match s.pc t with
    | .releasing =>
      some { s with semaphore := s.semaphore.v, pc := Function.update s.pc t .outside }
    | _ => none

/-- All interleavings of threads that call `Acquire` and `Release` in any order. -/
def lockSystem : System LockState LockLabel where
  init s := s = .new
  step s l s' := s.aborted = false ∧ lockStep s l = some s'

namespace LockState

/-- The unit of the semaphore is free exactly when no thread is inside, and `lockHolder` is
the thread whose `Acquire` has returned. -/
structure Inv (s : LockState) : Prop where
  sem : SemState.Inv 1 s.semaphore
  unique : ∀ t u, (s.pc t).inside = true → (s.pc u).inside = true → t = u
  taken : ∀ t, (s.pc t).inside = true → s.semaphore.sem.value = 0
  free : (∀ t, (s.pc t).inside = false) → s.semaphore.sem.value = 1
  holder : ∀ t, s.lockHolder = some t ↔ (s.pc t).returned = true
  asleep : ∀ t, s.semaphore.asleep t = true → ∃ held, s.pc t = .inP held
  woken : ∀ t ∈ s.semaphore.sem.woken, ∃ held, s.pc t = .inP held

theorem Inv.value {s : LockState} (h : Inv s) :
    s.semaphore.sem.value = 0 ∨ s.semaphore.sem.value = 1 := by
  by_cases hin : ∃ t, (s.pc t).inside = true
  · obtain ⟨t, ht⟩ := hin
    exact Or.inl (h.taken t ht)
  · apply Or.inr
    apply h.free
    intro t
    exact Bool.eq_false_iff.mpr fun ht => hin ⟨t, ht⟩

theorem Inv.init : Inv .new := by
  refine ⟨SemState.Inv.init 1, ?_, ?_, ?_, ?_, ?_, ?_⟩ <;>
    simp [new, SemState.new, Semaphore.new, LockPc.inside, LockPc.returned]

/-- A thread that is not asleep passes the ASSERT of `Append` in `P`. -/
theorem Inv.p_isSome {s : LockState} (h : Inv s) {t : ThreadId}
    (ht : s.semaphore.asleep t = false) : ∃ r, s.semaphore.p t = some r :=
  h.sem.p_isSome ht

/-- The two outcomes of a section of `P`: the thread waits, or it is alone inside. -/
theorem Inv.enterP {s : LockState} (h : Inv s) {t : ThreadId} {held : Bool}
    (hpc : s.pc t = .inP held ∨ (held = (s.pc t).inside ∧ (s.pc t).inside = (s.pc t).returned))
    (ht : s.semaphore.asleep t = false) : Inv (s.enterP t held) := by
  obtain ⟨⟨sem, taken⟩, hp⟩ := h.p_isSome ht
  have hsem := h.sem.p hp
  have hheld : held = (s.pc t).inside ∧ (s.pc t).inside = (s.pc t).returned := by
    rcases hpc with hpc | hpc
    · simp [hpc, LockPc.inside, LockPc.returned]
    · exact hpc
  unfold LockState.enterP
  rw [hp]
  rcases SemState.p_cases hp with ⟨rfl, hv, hq, rfl⟩ | ⟨rfl, hv, rfl⟩
  · -- the thread is queued: who is inside does not change
    have hinside : ∀ u, (Function.update s.pc t (.inP held) u).inside = (s.pc u).inside := by
      intro u
      by_cases hu : u = t
      · subst u; simp [LockPc.inside, hheld.1]
      · simp [hu]
    have hreturned : ∀ u, (Function.update s.pc t (.inP held) u).returned = (s.pc u).returned := by
      intro u
      by_cases hu : u = t
      · subst u; simp [LockPc.returned, hheld.1, hheld.2]
      · simp [hu]
    refine ⟨hsem, ?_, ?_, ?_, ?_, ?_, ?_⟩
    · simpa only [hinside] using h.unique
    · simpa only [hinside] using h.taken
    · simpa only [hinside] using h.free
    · simpa only [hreturned] using h.holder
    · intro u hu
      by_cases he : u = t
      · exact ⟨held, by simp [he]⟩
      · simpa [he] using h.asleep u (by simpa [he] using hu)
    · intro u hu
      by_cases he : u = t
      · exact ⟨held, by simp [he]⟩
      · simpa [he] using h.woken u (List.mem_of_mem_erase hu)
  · -- the unit was free, so nobody was inside
    have hout : ∀ u, (s.pc u).inside = false := by
      intro u
      exact Bool.eq_false_iff.mpr fun hu => hv (h.taken u hu)
    have hone := h.free hout
    have hnone : s.lockHolder = none := by
      apply Option.eq_none_iff_forall_not_mem.mpr
      intro u hu
      have hret := (h.holder u).mp hu
      have := hout u
      cases hp : s.pc u <;> simp_all [LockPc.inside, LockPc.returned]
    refine ⟨hsem, ?_, ?_, ?_, ?_, ?_, ?_⟩
    · intro u w hu hw
      have hut : u = t := by
        by_contra hne
        simp [hne, hout u] at hu
      have hwt : w = t := by
        by_contra hne
        simp [hne, hout w] at hw
      rw [hut, hwt]
    · intro u _
      simp only [hone]
      rfl
    · intro hall
      simpa [LockPc.inside] using hall t
    · intro u
      have hu := h.holder u
      rw [hnone] at hu
      by_cases he : u = t
      · simp [he, hnone, LockPc.returned]
      · simpa [he, hnone] using hu
    · intro u hu
      by_cases he : u = t
      · simp [he, ht] at hu
      · simpa [he] using h.asleep u hu
    · intro u hu
      by_cases he : u = t
      · exact absurd hu (by
          subst he
          exact fun hm => (h.sem.woken_nodup.mem_erase_iff.mp hm).1 rfl)
      · simpa [he] using h.woken u (List.mem_of_mem_erase hu)

/-- A thread whose program counter is not in `P` is awake. -/
theorem Inv.awake {s : LockState} (h : Inv s) {t : ThreadId} (ht : ∀ held, s.pc t ≠ .inP held) :
    s.semaphore.asleep t = false := by
  apply Bool.eq_false_iff.mpr
  intro ha
  obtain ⟨held, hp⟩ := h.asleep t ha
  exact ht held hp

private theorem inP_update {s : LockState} {t u : ThreadId} {new : LockPc}
    (ht : ∀ held, s.pc t ≠ .inP held) (hu : ∃ held, s.pc u = .inP held) :
    ∃ held, Function.update s.pc t new u = .inP held := by
  obtain ⟨held, hp⟩ := hu
  have hne : u ≠ t := by
    rintro rfl
    exact ht held hp
  exact ⟨held, by rw [Function.update_of_ne hne, hp]⟩

theorem Inv.assign {s : LockState} (h : Inv s) {t : ThreadId} (hpc : s.pc t = .gotP) :
    Inv { s with lockHolder := some t, pc := Function.update s.pc t .holding } := by
  have hinside : ∀ u, (Function.update s.pc t .holding u).inside = (s.pc u).inside := by
    intro u
    by_cases hu : u = t
    · subst u; simp [LockPc.inside, hpc]
    · simp [hu]
  have hin : (s.pc t).inside = true := by simp [hpc, LockPc.inside]
  refine ⟨h.sem, ?_, ?_, ?_, ?_, ?_, ?_⟩
  · simpa only [hinside] using h.unique
  · simpa only [hinside] using h.taken
  · simpa only [hinside] using h.free
  · intro u
    by_cases hu : u = t
    · simp [hu, LockPc.returned]
    · have hout : (s.pc u).inside = false := by
        exact Bool.eq_false_iff.mpr fun hui => hu (h.unique u t hui hin)
      have hret : (s.pc u).returned = false := by
        cases hp : s.pc u <;> simp_all [LockPc.inside, LockPc.returned]
      simp [hu, Ne.symm hu, hret]
  · intro u hu
    exact inP_update (by simp [hpc]) (h.asleep u hu)
  · intro u hu
    exact inP_update (by simp [hpc]) (h.woken u hu)

theorem Inv.release {s : LockState} (h : Inv s) {t : ThreadId} (hpc : s.pc t = .holding) :
    Inv { s with lockHolder := none, pc := Function.update s.pc t .releasing } := by
  have hinside : ∀ u, (Function.update s.pc t .releasing u).inside = (s.pc u).inside := by
    intro u
    by_cases hu : u = t
    · subst u; simp [LockPc.inside, hpc]
    · simp [hu]
  have hholder : s.lockHolder = some t := (h.holder t).mpr (by simp [hpc, LockPc.returned])
  refine ⟨h.sem, ?_, ?_, ?_, ?_, ?_, ?_⟩
  · simpa only [hinside] using h.unique
  · simpa only [hinside] using h.taken
  · simpa only [hinside] using h.free
  · intro u
    by_cases hu : u = t
    · simp [hu, LockPc.returned]
    · have hret := h.holder u
      rw [hholder] at hret
      simpa [hu, Ne.symm hu] using hret
  · intro u hu
    exact inP_update (by simp [hpc]) (h.asleep u hu)
  · intro u hu
    exact inP_update (by simp [hpc]) (h.woken u hu)

theorem Inv.v {s : LockState} (h : Inv s) {t : ThreadId} (hpc : s.pc t = .releasing) :
    Inv { s with semaphore := s.semaphore.v, pc := Function.update s.pc t .outside } := by
  have hin : (s.pc t).inside = true := by simp [hpc, LockPc.inside]
  have hzero := h.taken t hin
  have hout : ∀ u, (Function.update s.pc t .outside u).inside = false := by
    intro u
    by_cases hu : u = t
    · simp [hu, LockPc.inside]
    · simp only [Function.update_of_ne hu]
      exact Bool.eq_false_iff.mpr fun hui => hu (h.unique u t hui hin)
  have hone : s.semaphore.v.sem.value = 1 := by simp [hzero]
  refine ⟨h.sem.v, ?_, ?_, fun _ => hone, ?_, ?_, ?_⟩
  · intro u w hu
    simp [hout u] at hu
  · intro u hu
    simp [hout u] at hu
  · intro u
    by_cases hu : u = t
    · have hret := h.holder t
      simp only [hpc, LockPc.returned] at hret
      simpa [hu, LockPc.returned] using hret
    · simpa [hu] using h.holder u
  · intro u hu
    exact inP_update (by simp [hpc]) (h.asleep u (SemState.asleep_of_v hu))
  · intro u hu
    have hold : ∃ held, s.pc u = .inP held := by
      rcases h.sem.woken_of_v hu with hwoken | hasleep
      · exact h.woken u hwoken
      · exact h.asleep u hasleep
    exact inP_update (by simp [hpc]) hold

theorem Inv.abort {s : LockState} (h : Inv s) : Inv { s with aborted := true } :=
  ⟨h.sem, h.unique, h.taken, h.free, h.holder, h.asleep, h.woken⟩

theorem Inv.step {s s' : LockState} {l : LockLabel} (h : Inv s) (hs : lockStep s l = some s') :
    Inv s' := by
  cases l with
  | acquire t =>
    cases hpc : s.pc t with
    | outside =>
      simp only [lockStep, hpc, Option.some.injEq] at hs
      subst hs
      exact h.enterP (Or.inr (by simp [hpc, LockPc.inside, LockPc.returned]))
        (h.awake (by simp [hpc]))
    | holding =>
      simp only [lockStep, hpc, Option.some.injEq] at hs
      subst hs
      exact h.enterP (Or.inr (by simp [hpc, LockPc.inside, LockPc.returned]))
        (h.awake (by simp [hpc]))
    | inP held => simp [lockStep, hpc] at hs
    | gotP => simp [lockStep, hpc] at hs
    | releasing => simp [lockStep, hpc] at hs
  | retest t =>
    cases hpc : s.pc t with
    | inP held =>
      cases ha : s.semaphore.asleep t with
      | true => simp [lockStep, hpc, ha] at hs
      | false =>
        simp only [lockStep, hpc, ha, Bool.false_eq_true, if_false, Option.some.injEq] at hs
        subst hs
        exact h.enterP (Or.inl hpc) ha
    | outside => simp [lockStep, hpc] at hs
    | holding => simp [lockStep, hpc] at hs
    | gotP => simp [lockStep, hpc] at hs
    | releasing => simp [lockStep, hpc] at hs
  | assign t =>
    cases hpc : s.pc t with
    | gotP =>
      simp only [lockStep, hpc, Option.some.injEq] at hs
      subst hs
      exact h.assign hpc
    | outside => simp [lockStep, hpc] at hs
    | holding => simp [lockStep, hpc] at hs
    | inP held => simp [lockStep, hpc] at hs
    | releasing => simp [lockStep, hpc] at hs
  | release t =>
    simp only [lockStep] at hs
    split at hs
    next hcall =>
      split at hs
      next hholder =>
        obtain rfl := Option.some.inj hs
        -- the holder is the thread whose Acquire has returned
        have hret := (h.holder t).mp hholder
        have hpc : s.pc t = .holding := by
          rcases hcall with hpc | hpc
          · simp [hpc, LockPc.returned] at hret
          · exact hpc
        exact h.release hpc
      next => exact Option.some.inj hs ▸ h.abort
    next => contradiction
  | v t =>
    cases hpc : s.pc t with
    | releasing =>
      simp only [lockStep, hpc, Option.some.injEq] at hs
      subst hs
      exact h.v hpc
    | outside => simp [lockStep, hpc] at hs
    | holding => simp [lockStep, hpc] at hs
    | inP held => simp [lockStep, hpc] at hs
    | gotP => simp [lockStep, hpc] at hs

theorem inv_inductive : lockSystem.Inductive Inv where
  init _ h := h ▸ Inv.init
  step _ _ _ h hs := h.step hs.2

end LockState

theorem lockStep_pc_other {s s' : LockState} {l : LockLabel} (hs : lockStep s l = some s')
    {u : ThreadId} (hu : u ≠ l.thread) : s'.pc u = s.pc u := by
  have henter : ∀ t held, u ≠ t → (s.enterP t held).pc u = s.pc u := by
    intro t held hne
    unfold LockState.enterP
    cases s.semaphore.p t with
    | none => rfl
    | some r =>
      obtain ⟨sem, taken⟩ := r
      cases taken <;> simp [hne]
  cases l with
  | acquire t =>
    cases hpc : s.pc t <;> simp only [lockStep, hpc, Option.some.injEq, reduceCtorEq] at hs
    · exact hs ▸ henter t false hu
    · exact hs ▸ henter t true hu
  | retest t =>
    cases hpc : s.pc t <;> simp only [lockStep, hpc, reduceCtorEq] at hs
    split at hs
    next => contradiction
    next => exact Option.some.inj hs ▸ henter t _ hu
  | assign t =>
    cases hpc : s.pc t <;> simp only [lockStep, hpc, Option.some.injEq, reduceCtorEq] at hs
    rw [← hs]
    exact Function.update_of_ne hu _ _
  | release t =>
    simp only [lockStep] at hs
    split at hs
    next =>
      split at hs
      next =>
        rw [← Option.some.inj hs]
        exact Function.update_of_ne hu _ _
      next => rw [← Option.some.inj hs]
    next => contradiction
  | v t =>
    cases hpc : s.pc t <;> simp only [lockStep, hpc, Option.some.injEq, reduceCtorEq] at hs
    rw [← hs]
    exact Function.update_of_ne hu _ _

/-- The two outcomes of a section of `P` written out. -/
theorem LockState.Inv.enterP_cases {s : LockState} (h : s.Inv) {t : ThreadId} (held : Bool)
    (ht : s.semaphore.asleep t = false) :
    (s.enterP t held).aborted = s.aborted ∧
      ((s.enterP t held).pc = Function.update s.pc t (.inP held) ∨
        ((s.enterP t held).pc = Function.update s.pc t .gotP ∧
          ∀ u, (s.pc u).inside = false)) := by
  obtain ⟨⟨sem, taken⟩, hp⟩ := h.p_isSome ht
  unfold LockState.enterP
  rw [hp]
  rcases SemState.p_cases hp with ⟨rfl, -⟩ | ⟨rfl, hv, -⟩
  · exact ⟨rfl, .inl rfl⟩
  · refine ⟨rfl, .inr ⟨rfl, ?_⟩⟩
    intro u
    exact Bool.eq_false_iff.mpr fun hu => hv (h.taken u hu)

theorem LockState.Inv.enterP_pc {s : LockState} (h : s.Inv) {t : ThreadId} (held : Bool)
    (ht : s.semaphore.asleep t = false) :
    (s.enterP t held).pc t = .gotP ∨ (s.enterP t held).pc t = .inP held := by
  obtain ⟨⟨sem, taken⟩, hp⟩ := h.p_isSome ht
  unfold LockState.enterP
  rw [hp]
  cases taken <;> simp

/-- At most one thread is between the end of the `P` in `Acquire` and the `V` in `Release`, the
semaphore is binary, `lockHolder` is the thread whose `Acquire` has returned, and a `Release`
by a thread that does not hold the lock fails its ASSERT and changes nothing. -/
theorem lock_mutual_exclusion {s : LockState} (hr : lockSystem.Reachable s) :
    (∀ t u, (s.pc t).inside = true → (s.pc u).inside = true → t = u) ∧
    (s.semaphore.sem.value = 0 ∨ s.semaphore.sem.value = 1) ∧
    (∀ t, (s.pc t).returned = true → s.lockHolder = some t) ∧
    (∀ t, s.pc t = .outside →
      lockStep s (.release t) = some { s with aborted := true }) := by
  have h := LockState.inv_inductive.of_reachable hr
  refine ⟨h.unique, h.value, fun t => (h.holder t).mpr, ?_⟩
  intro t ht
  have hne : s.lockHolder ≠ some t := by
    intro he
    have hret := (h.holder t).mp he
    simp [ht, LockPc.returned] at hret
  simp [lockStep, ht, hne]

/-- Thread 0 after its `Acquire` on a new lock. -/
private def heldByZero : LockState :=
  let s := LockState.new.enterP 0 false
  { s with lockHolder := some 0, pc := Function.update s.pc 0 .holding }

theorem lock_mutual_exclusion_held :
    heldByZero.lockHolder = some 0 ∧
      lockStep heldByZero (.release 1) = some { heldByZero with aborted := true } := by
  have hr : lockSystem.Reachable heldByZero :=
    .step (l := .assign 0) (.step (l := .acquire 0) (.init rfl) ⟨rfl, rfl⟩) ⟨rfl, rfl⟩
  have h := lock_mutual_exclusion hr
  exact ⟨h.2.2.1 0 rfl, h.2.2.2 1 rfl⟩

end Nachos

import Nachos.Framework.Termination
import Nachos.Threads.SynchDevice
import Nachos.Threads.SynchSafety

/-!
# Calls of a synchronous device

What one step does to the calls in progress, that no ASSERT fails while the device accepts the
requests, and that the calls go on: as long as one is in progress, some thread inside a call can
take a step or the interrupt of a request is due.
-/

namespace Nachos

open Framework

/-! ## What a step does to the calls -/

namespace DevicePc

variable {ι β : Type}

def unsent : DevicePc ι β → List ι
  | .acquire r => [r]
  | _ => []

private theorem unsent_afterLock (pc : DevicePc ι β) (l : LockLabel) :
    (pc.afterLock l).unsent = pc.unsent := by
  cases pc <;> cases l <;> rfl

end DevicePc

namespace SynchDevice

variable {σ ι β : Type} {D : Device σ ι β} {c₀ : σ} {s s' : SynchDevice σ ι β}

theorem step_call {t : ThreadId} {r : ι} (hs : s.step D (.call t r) = some s') :
    s.pc t = .idle ∧ s' = { s with pc := Function.update s.pc t (.acquire r) } := by
  simp only [step] at hs
  split at hs
  next hpc => exact ⟨hpc, (Option.some.inj hs).symm⟩
  next => cases hs

theorem step_lock {l : LockLabel} (hs : s.step D (.lock l) = some s') :
    (s.pc l.thread).allows (s.lock.pc l.thread) l = true ∧
      ∃ lock, Nachos.lockStep s.lock l = some lock ∧
        s' = { s with lock := lock, aborted := lock.aborted,
                      pc := Function.update s.pc l.thread ((s.pc l.thread).afterLock l),
                      acquired := s.acquired ++ s.entering lock l.thread,
                      returned := s.returned ++ s.returning l } := by
  simp only [step] at hs
  split at hs
  next hallows =>
    obtain ⟨lock, hlock, hs⟩ := Option.bind_eq_some_iff.mp hs
    exact ⟨hallows, lock, hlock, (Option.some.inj hs).symm⟩
  next => cases hs

theorem step_request {t : ThreadId} (hs : s.step D (.request t) = some s') :
    ∃ r, s.pc t = .acquire r ∧ s.lock.pc t = .holding ∧
      ((s.active = true ∧ s' = { s with aborted := true, clash := true }) ∨
        (D.request s.contents r = none ∧ s' = { s with aborted := true }) ∨
        ∃ c b, D.request s.contents r = some (c, b) ∧
          s' = { s with contents := c, active := true, pending := s.pending ++ [s.issued.length],
                        pc := Function.update s.pc t (.wait r s.issued.length b),
                        issued := s.issued ++ [((t, r), b)] }) := by
  simp only [step] at hs
  split at hs
  next r hpc hholding =>
    refine ⟨r, hpc, hholding, ?_⟩
    split at hs
    next hactive => exact .inl ⟨hactive, (Option.some.inj hs).symm⟩
    next =>
      split at hs
      next hrequest => exact .inr (.inl ⟨hrequest, (Option.some.inj hs).symm⟩)
      next c b hrequest => exact .inr (.inr ⟨c, b, hrequest, (Option.some.inj hs).symm⟩)
  next => cases hs

theorem step_p {t : ThreadId} (hs : s.step D (.p t) = some s') :
    ∃ r k b, s.pc t = .wait r k b ∧ ¬ s.semaphore.asleep t = true ∧
      ((s.semaphore.p t = none ∧ s' = { s with aborted := true }) ∨
        ∃ sem taken, s.semaphore.p t = some (sem, taken) ∧
          s' = { s with semaphore := sem,
                        pc := if taken then Function.update s.pc t (.release r k b) else s.pc }) := by
  simp only [step] at hs
  split at hs
  next r k b hpc =>
    refine ⟨r, k, b, hpc, ?_⟩
    split at hs
    next => cases hs
    next hawake =>
      refine ⟨hawake, ?_⟩
      split at hs
      next hp => exact .inl ⟨hp, (Option.some.inj hs).symm⟩
      next sem hp => exact .inr ⟨sem, true, hp, (Option.some.inj hs).symm⟩
      next sem hp => exact .inr ⟨sem, false, hp, (Option.some.inj hs).symm⟩
  next => cases hs

theorem step_interrupt {k : Nat} (hs : s.step D (.interrupt k) = some s') :
    k ∈ s.pending ∧
      s' = { s with pending := s.pending.erase k, active := false,
                    semaphore := s.semaphore.v, completed := s.completed ++ [k] } := by
  simp only [step] at hs
  split at hs
  next hk => exact ⟨hk, (Option.some.inj hs).symm⟩
  next => cases hs

theorem step_unsent {l : DeviceLabel ι} (hs : s.step D l = some s')
    (hcall : ∀ t r, l ≠ .call t r) (u : ThreadId) :
    (s.pc u = .idle → s'.pc u = .idle) ∧
      ((∀ t, l ≠ .request t) → (s'.pc u).unsent = (s.pc u).unsent) := by
  have hmove : ∀ t (pc : DevicePc ι β), s.pc t ≠ .idle → pc.unsent = (s.pc t).unsent →
      (s.pc u = .idle → Function.update s.pc t pc u = .idle) ∧
        (Function.update s.pc t pc u).unsent = (s.pc u).unsent := by
    intro t pc hbusy hsame
    by_cases hut : u = t
    · rw [hut, Function.update_self]
      exact ⟨fun hidle => absurd hidle hbusy, hsame⟩
    · rw [Function.update_of_ne hut]
      exact ⟨id, rfl⟩
  cases l with
  | call t r => exact absurd rfl (hcall t r)
  | lock l =>
    obtain ⟨hallows, lock, -, rfl⟩ := step_lock hs
    have hbusy : s.pc l.thread ≠ .idle := by
      intro hidle
      rw [hidle] at hallows
      cases hallows
    have hboth := hmove l.thread _ hbusy (DevicePc.unsent_afterLock (s.pc l.thread) l)
    exact ⟨hboth.1, fun _ => hboth.2⟩
  | request t =>
    refine ⟨?_, fun hne => absurd rfl (hne t)⟩
    intro hidle
    obtain ⟨r, hpc, -, ⟨-, rfl⟩ | ⟨-, rfl⟩ | ⟨c, b, -, rfl⟩⟩ := step_request hs
    · exact hidle
    · exact hidle
    · have hut : u ≠ t := by
        rintro rfl
        rw [hidle] at hpc
        cases hpc
      exact (Function.update_of_ne hut _ _).trans hidle
  | p t =>
    obtain ⟨r, k, b, hpc, -, ⟨-, rfl⟩ | ⟨sem, taken, -, rfl⟩⟩ := step_p hs
    · exact ⟨id, fun _ => rfl⟩
    · cases taken with
      | true =>
        have hboth := hmove t (.release r k b) (by rw [hpc]; simp) (by rw [hpc]; rfl)
        exact ⟨hboth.1, fun _ => hboth.2⟩
      | false => exact ⟨id, fun _ => rfl⟩
  | interrupt k =>
    obtain ⟨-, rfl⟩ := step_interrupt hs
    exact ⟨id, fun _ => rfl⟩

theorem request_unsent {t : ThreadId}
    (hs : s.step D (.request t) = some s') (hrunning : s'.aborted = false) :
    (s'.pc t).unsent = [] ∧ ∀ u, u ≠ t → s'.pc u = s.pc u := by
  obtain ⟨-, -, -, ⟨-, rfl⟩ | ⟨-, rfl⟩ | ⟨c, b, -, rfl⟩⟩ := step_request hs
  · cases hrunning
  · cases hrunning
  · refine ⟨?_, fun u hu => Function.update_of_ne hu _ _⟩
    show (Function.update s.pc t _ t).unsent = []
    rw [Function.update_self]
    rfl

/-- The ASSERTs of the lock, the semaphore and the device hold as long as the device accepts the
requests. -/
theorem Inv.step_aborted (h : s.Inv D c₀) (hlock : s.lock.aborted = false)
    (haborted : s.aborted = false)
    {l : DeviceLabel ι} (haccepts : ∀ t r, l = .request t → s.pc t = .acquire r →
      ∃ x, D.request s.contents r = some x)
    (hs : s.step D l = some s') :
    s'.lock.aborted = false ∧ s'.aborted = false := by
  cases l with
  | call t r =>
    obtain ⟨-, rfl⟩ := step_call hs
    exact ⟨hlock, haborted⟩
  | lock l =>
    obtain ⟨hallows, lock, hstep, rfl⟩ := step_lock hs
    have hkept : lock.aborted = false := by
      rw [h.lock.lockStep_aborted ?_ hstep, hlock]
      rintro t rfl hout
      have hplace := h.place t
      change (s.pc t).allows (s.lock.pc t) (.release t) = true at hallows
      rw [hout] at hallows hplace
      cases hpc : s.pc t with
      | idle | acquire | wait =>
        rw [hpc] at hallows
        cases hallows
      | release =>
        rw [hpc] at hplace
        rcases hplace with hplace | hplace
        · cases hplace
        · cases hplace
    exact ⟨hkept, hkept⟩
  | request t =>
    obtain ⟨r, hpc, hholding, hcases⟩ := step_request hs
    have hin : (s.lock.pc t).inside = true := by rw [hholding]; rfl
    have hquiet := (h.quiet hin (by rw [hpc]; rfl)).1
    obtain ⟨x, hrequest⟩ := haccepts t r rfl hpc
    obtain ⟨hactive, -⟩ | ⟨hnone, -⟩ | ⟨c, b, -, rfl⟩ := hcases
    · rw [hquiet] at hactive
      cases hactive
    · rw [hnone] at hrequest
      cases hrequest
    · exact ⟨hlock, haborted⟩
  | p t =>
    obtain ⟨r, k, b, -, hawake, ⟨hnone, -⟩ | ⟨sem, taken, -, rfl⟩⟩ := step_p hs
    · obtain ⟨x, hp⟩ := h.sem.p_isSome (Bool.not_eq_true _ ▸ hawake)
      rw [hnone] at hp
      cases hp
    · exact ⟨hlock, haborted⟩
  | interrupt k =>
    obtain ⟨-, rfl⟩ := step_interrupt hs
    exact ⟨hlock, haborted⟩

end SynchDevice

/-! ## Who is asleep -/

/-- Where nobody is inside the lock, somebody who waits for it is awake: a sleeper leaves the free
unit to a thread that has been woken. -/
private theorem LockState.Inv.exists_awake {s : LockState} (h : s.Inv)
    (hout : ∀ u, (s.pc u).inside = false) {t : ThreadId} {held : Bool} (ht : s.pc t = .inP held) :
    ∃ u held', s.pc u = .inP held' ∧ s.semaphore.asleep u = false := by
  cases hasleep : s.semaphore.asleep t with
  | false => exact ⟨t, held, ht, hasleep⟩
  | true =>
    have hqueue : s.semaphore.sem.queue ≠ [] :=
      List.ne_nil_of_mem ((h.sem.queue_asleep t).mpr hasleep)
    have hcovered := h.sem.covered hqueue
    rw [h.free hout] at hcovered
    obtain ⟨u, hu⟩ := List.exists_mem_of_length_pos (l := s.semaphore.sem.woken) (by omega)
    obtain ⟨held', hlock⟩ := h.woken u hu
    exact ⟨u, held', hlock, h.sem.woken_awake u hu⟩

def DeviceLabel.isCall {ι : Type} : DeviceLabel ι → Bool
  | .call _ _ => true
  | _ => false

namespace SynchDevice

variable {σ ι β : Type} {D : Device σ ι β} {c₀ : σ} {s s' : SynchDevice σ ι β}

/-- Only a call that waits for its interrupt is asleep in the semaphore or woken from it. -/
def Sleepers (s : SynchDevice σ ι β) : Prop :=
  ∀ u, s.semaphore.asleep u = true ∨ u ∈ s.semaphore.sem.woken → (s.pc u).waiting = true

theorem Sleepers.congr (h : s.Sleepers) (hsem : s'.semaphore = s.semaphore)
    (hpc : ∀ u, (s.pc u).waiting = true → (s'.pc u).waiting = true) : s'.Sleepers := by
  intro u hu
  rw [hsem] at hu
  exact hpc u (h u hu)

private theorem waiting_update {t : ThreadId} {pc : DevicePc ι β} (ht : (s.pc t).waiting = false)
    (u : ThreadId) (hu : (s.pc u).waiting = true) :
    (Function.update s.pc t pc u).waiting = true := by
  have hut : u ≠ t := by
    rintro rfl
    rw [ht] at hu
    cases hu
  rwa [Function.update_of_ne hut]

theorem Sleepers.p (h : s.Sleepers) (hsem : SemState.Inv 0 s.semaphore) {t : ThreadId}
    (hs : s.step D (.p t) = some s') : s'.Sleepers := by
  obtain ⟨r, k, b, hpc, hawake, ⟨-, rfl⟩ | ⟨sem, taken, hp, rfl⟩⟩ := step_p hs
  · exact h
  · intro u hu
    rcases SemState.p_cases hp with ⟨rfl, -, -, rfl⟩ | ⟨rfl, -, rfl⟩
    · by_cases hut : u = t
      · show (s.pc u).waiting = true
        rw [hut, hpc]
        rfl
      · refine h u ?_
        rcases hu with hu | hu
        · exact .inl ((Function.update_of_ne hut _ _).symm.trans hu)
        · exact .inr (List.mem_of_mem_erase hu)
    · -- whoever has taken the unit is neither asleep nor woken any more
      have hold : (s.semaphore.asleep u = true ∨ u ∈ s.semaphore.sem.woken) ∧ u ≠ t := by
        rcases hu with hu | hu
        · refine ⟨.inl hu, ?_⟩
          rintro rfl
          exact hawake hu
        · have hmem := hsem.woken_nodup.mem_erase_iff.mp hu
          exact ⟨.inr hmem.2, hmem.1⟩
      show (Function.update s.pc t _ u).waiting = true
      rw [Function.update_of_ne hold.2]
      exact h u hold.1

private theorem not_waiting_of_allows {t : ThreadId} {lock : LockPc} {l : LockLabel}
    (ha : (s.pc t).allows lock l = true) : (s.pc t).waiting = false := by
  cases hpc : s.pc t with
  | wait r k b =>
    rw [hpc] at ha
    cases ha
  | _ => rfl

theorem Sleepers.step (h : s.Sleepers) (hinv : s.Inv D c₀) {l : DeviceLabel ι}
    (hs : s.step D l = some s') : s'.Sleepers := by
  cases l with
  | call t r =>
    obtain ⟨hpc, rfl⟩ := step_call hs
    exact h.congr rfl (waiting_update (by rw [hpc]; rfl))
  | lock l =>
    obtain ⟨hallows, lock, -, rfl⟩ := step_lock hs
    exact h.congr rfl (waiting_update (not_waiting_of_allows hallows))
  | request t =>
    obtain ⟨r, hpc, -, ⟨-, rfl⟩ | ⟨-, rfl⟩ | ⟨c, b, -, rfl⟩⟩ := step_request hs
    · exact h
    · exact h
    · exact h.congr rfl (waiting_update (by rw [hpc]; rfl))
  | p t => exact h.p hinv.sem hs
  | interrupt k =>
    obtain ⟨-, rfl⟩ := step_interrupt hs
    intro u hu
    have hold : s.semaphore.asleep u = true ∨ u ∈ s.semaphore.sem.woken := by
      rcases hu with hu | hu
      · exact .inl (SemState.asleep_of_v hu)
      · exact (hinv.sem.woken_of_v hu).symm
    exact h u hold

theorem sleepers_inductive (D : Device σ ι β) (c₀ : σ) :
    (deviceSystem D c₀).Inductive fun s => s.Inv D c₀ ∧ s.Sleepers := by
  apply (inv_inductive D c₀).relative
  · rintro s rfl u hu
    rcases hu with hu | hu <;> cases hu
  · intro s l s' hinv h hs
    exact h.step hinv hs.2

/-! ## A step that is possible -/

def CanMove (D : Device σ ι β) (s : SynchDevice σ ι β) : Prop :=
  ∃ l : DeviceLabel ι, l.isCall = false ∧ (s.step D l).isSome = true

theorem canMove_lock {l : LockLabel} (ha : (s.pc l.thread).allows (s.lock.pc l.thread) l = true)
    (hs : (Nachos.lockStep s.lock l).isSome = true) : s.CanMove D := by
  refine ⟨.lock l, rfl, ?_⟩
  obtain ⟨lock, hlock⟩ := Option.isSome_iff_exists.mp hs
  simp [SynchDevice.step, ha, hlock]

theorem Inv.canMove_free (h : s.Inv D c₀) (hout : ∀ u, (s.lock.pc u).inside = false)
    {t : ThreadId} (ht : s.pc t ≠ .idle) : s.CanMove D := by
  have hplace := h.place t
  have hin := hout t
  cases hpc : s.pc t with
  | idle => exact absurd hpc ht
  | wait r k b | release r k b =>
    rw [h.inside_of_result (t := t) (by rw [hpc]; rfl)] at hin
    cases hin
  | acquire r =>
    rw [hpc] at hplace
    rcases hplace with hplace | hplace | hplace | hplace
    · refine canMove_lock (l := .acquire t) ?_ (by simp [Nachos.lockStep, hplace])
      show (s.pc t).allows (s.lock.pc t) (.acquire t) = true
      rw [hpc, hplace]
      rfl
    · obtain ⟨u, held, hu, hawake⟩ := h.lock.exists_awake hout hplace
      refine canMove_lock (l := .retest u) ?_ (by simp [Nachos.lockStep, hu, hawake])
      show (s.pc u).allows (s.lock.pc u) (.retest u) = true
      have hplace' := h.place u
      rw [hu] at hplace'
      cases hpc' : s.pc u with
      | acquire r' =>
        rw [hu]
        rfl
      | idle | wait r' k b =>
        rw [hpc'] at hplace'
        cases hplace'
      | release r' k b =>
        rw [hpc'] at hplace'
        rcases hplace' with hplace' | hplace' <;> cases hplace'
    · rw [hplace] at hin
      cases hin
    · rw [hplace] at hin
      cases hin

private theorem Inv.canMove_waiting (h : s.Inv D c₀) (hsleep : s.Sleepers) {t : ThreadId}
    (ht : (s.pc t).waiting = true) : s.CanMove D := by
  have halone : ∀ u, (s.pc u).waiting = true → u = t := by
    have hinside : ∀ u, (s.pc u).waiting = true → (s.lock.pc u).inside = true := by
      intro u hu
      obtain ⟨r, k, b, hpc⟩ := result_of_waiting hu
      exact h.inside_of_result (t := u) (by rw [hpc]; rfl)
    exact fun u hu => h.lock.unique u t (hinside u hu) (hinside t ht)
  cases h.turn with
  | quiet hquiet _ _ _ =>
    rw [hquiet t] at ht
    cases ht
  | working u _ _ hpending _ =>
    exact ⟨.interrupt (s.issued.length - 1), rfl, by simp [SynchDevice.step, hpending]⟩
  | done u _ _ _ hvalue =>
    have hawake : s.semaphore.asleep t = false := by
      refine Bool.eq_false_iff.mpr fun hasleep => ?_
      have hqueue : s.semaphore.sem.queue ≠ [] :=
        List.ne_nil_of_mem ((h.sem.queue_asleep t).mpr hasleep)
      have hcovered := h.sem.covered hqueue
      obtain ⟨v, hv⟩ := List.exists_mem_of_length_pos (l := s.semaphore.sem.woken) (by omega)
      have hvt := halone v (hsleep v (.inr hv))
      have hwoken := h.sem.woken_awake v hv
      rw [hvt, hasleep] at hwoken
      cases hwoken
    obtain ⟨⟨sem, taken⟩, hp⟩ := h.sem.p_isSome hawake
    obtain ⟨r, k, b, hpc⟩ := result_of_waiting ht
    refine ⟨.p t, rfl, ?_⟩
    cases taken <;> simp [SynchDevice.step, hpc, hawake, hp]

theorem Inv.canMove_inside (h : s.Inv D c₀) (hsleep : s.Sleepers) {t : ThreadId}
    (hin : (s.lock.pc t).inside = true) : s.CanMove D := by
  have hplace := h.place t
  cases hpc : s.pc t with
  | idle =>
    rw [hpc] at hplace
    rw [show s.lock.pc t = .outside from hplace] at hin
    cases hin
  | acquire r =>
    rw [hpc] at hplace
    rcases hplace with hplace | hplace | hplace | hplace
    · rw [hplace] at hin
      cases hin
    · rw [hplace] at hin
      cases hin
    · refine canMove_lock (l := .assign t) ?_ (by simp [Nachos.lockStep, hplace])
      show (s.pc t).allows (s.lock.pc t) (.assign t) = true
      rw [hpc, hplace]
      rfl
    · refine ⟨.request t, rfl, ?_⟩
      simp only [SynchDevice.step, hpc, hplace]
      split
      next => rfl
      next => split <;> rfl
  | wait r k b => exact h.canMove_waiting hsleep (t := t) (by rw [hpc]; rfl)
  | release r k b =>
    rw [hpc] at hplace
    rcases hplace with hplace | hplace
    · have hholder : s.lock.lockHolder = some t := (h.lock.holder t).mpr (by rw [hplace]; rfl)
      refine canMove_lock (l := .release t) ?_ (by simp [Nachos.lockStep, hplace, hholder])
      show (s.pc t).allows (s.lock.pc t) (.release t) = true
      rw [hpc]
      rfl
    · refine canMove_lock (l := .v t) ?_ (by simp [Nachos.lockStep, hplace])
      show (s.pc t).allows (s.lock.pc t) (.v t) = true
      rw [hpc]
      rfl

theorem Inv.canMove (h : s.Inv D c₀) (hsleep : s.Sleepers) {t : ThreadId} (ht : s.pc t ≠ .idle) :
    s.CanMove D := by
  by_cases hin : ∃ u, (s.lock.pc u).inside = true
  · obtain ⟨u, hin⟩ := hin
    exact h.canMove_inside hsleep hin
  · exact h.canMove_free (fun u => Bool.eq_false_iff.mpr fun hu => hin ⟨u, hu⟩) ht

end SynchDevice

/-! ## Calls end -/

def DevicePc.left {ι β : Type} : DevicePc ι β → LockPc → Nat
  | .idle, _ => 0
  | .acquire _, .outside => 12
  | .acquire _, .inP _ => 10
  | .acquire _, .gotP => 9
  | .acquire _, _ => 8
  | .wait _ _ _, _ => 4
  | .release _ _ _, .releasing => 2
  | .release _ _ _, _ => 3

def SemState.awake (s : SemState) (t : ThreadId) : Nat := if s.asleep t then 0 else 1

private theorem SemState.awake_v (s : SemState) :
    ∃ a, ∀ u, s.v.awake u ≤ s.awake u + if u = a then 1 else 0 := by
  rcases SemState.v_cases s with ⟨-, hv⟩ | ⟨a, queue, -, hv⟩
  · exact ⟨0, fun u => by rw [hv]; exact Nat.le_add_right _ _⟩
  · refine ⟨a, fun u => ?_⟩
    rw [hv]
    by_cases hu : u = a
    · rw [if_pos hu]
      unfold awake
      split <;> omega
    · simp [awake, Function.update_of_ne hu]

private theorem SemState.awake_p {s sem : SemState} {t : ThreadId} {taken : Bool}
    (hp : s.p t = some (sem, taken)) :
    (∀ u, u ≠ t → sem.awake u = s.awake u) ∧
      sem.awake t = if taken = true then s.awake t else 0 := by
  rcases SemState.p_cases hp with ⟨rfl, -, -, rfl⟩ | ⟨rfl, -, rfl⟩
  · constructor
    · intro u hu
      simp [awake, Function.update_of_ne hu]
    · simp [awake]
  · exact ⟨fun _ _ => rfl, rfl⟩

namespace SynchDevice

variable {σ ι β : Type} {D : Device σ ι β} {c₀ : σ} {s s' : SynchDevice σ ι β} {n : Nat}

def toDo (s : SynchDevice σ ι β) (t : ThreadId) : Nat :=
  (s.pc t).left (s.lock.pc t) + s.lock.semaphore.awake t + s.semaphore.awake t

/-- What is left to do in the calls of the first `n` threads and for the device. -/
def work (n : Nat) (s : SynchDevice σ ι β) : Nat :=
  ∑ t ∈ Finset.range n, s.toDo t + 2 * s.pending.length

/-- No thread from `n` on is in a call. -/
def Below (n : Nat) (s : SynchDevice σ ι β) : Prop := ∀ t, n ≤ t → s.pc t = .idle

theorem Below.lt (h : s.Below n) {t : ThreadId} (ht : s.pc t ≠ .idle) : t < n := by
  by_contra hge
  exact ht (h t (Nat.not_lt.mp hge))

private theorem work_lt_of_step {t : ThreadId} (ht : t < n) {x : Nat}
    (hother : ∀ u, u ≠ t → s'.toDo u = s.toDo u) (hself : s'.toDo t + x ≤ s.toDo t)
    (hpending : 2 * s'.pending.length < 2 * s.pending.length + x) : s'.work n < s.work n := by
  have hsum : ∑ u ∈ Finset.range n, s'.toDo u + x ≤ ∑ u ∈ Finset.range n, s.toDo u + 0 := by
    apply sum_shift (a := t) ht
    intro u
    by_cases hu : u = t
    · subst hu
      simpa using hself
    · simp [hu, hother u hu]
  unfold work
  omega

private theorem toDo_congr {u : ThreadId} (hpc : s'.pc u = s.pc u)
    (hlockPc : s'.lock.pc u = s.lock.pc u)
    (hlock : s'.lock.semaphore.awake u = s.lock.semaphore.awake u)
    (hsem : s'.semaphore.awake u = s.semaphore.awake u) : s'.toDo u = s.toDo u := by
  unfold toDo
  rw [hpc, hlockPc, hlock, hsem]

private theorem work_lt_of_test (hn : s.Below n) {t : ThreadId} {r : ι} (hpc : s.pc t = .acquire r)
    (hlock : s.lock.pc t = .outside ∨
      ∃ held, s.lock.pc t = .inP held ∧ s.lock.semaphore.asleep t = false)
    {held : Bool} (hlock' : s'.lock = s.lock.enterP t held) (hsem : s'.semaphore = s.semaphore)
    (hpending : s'.pending = s.pending) (hpc' : s'.pc = s.pc)
    (hrunning : s'.lock.aborted = false) : s'.work n < s.work n := by
  have ht : t < n := hn.lt (by rw [hpc]; simp)
  cases hp : s.lock.semaphore.p t with
  | none =>
    rw [hlock', LockState.enterP, hp] at hrunning
    cases hrunning
  | some x =>
    obtain ⟨sem, taken⟩ := x
    obtain ⟨hothers, hself⟩ := SemState.awake_p hp
    have henter : s.lock.enterP t held = { s.lock with
        semaphore := sem,
        pc := Function.update s.lock.pc t (if taken then .gotP else .inP held) } := by
      rw [LockState.enterP, hp]
      cases taken <;> rfl
    rw [henter] at hlock'
    refine work_lt_of_step ht (x := 1) ?_ ?_ (by rw [hpending]; omega)
    · intro u hu
      refine toDo_congr (by rw [hpc']) ?_ ?_ (by rw [hsem])
      · rw [hlock']
        exact Function.update_of_ne hu _ _
      · rw [hlock']
        exact hothers u hu
    · have hafter : s'.lock.pc t = if taken then .gotP else .inP held := by
        rw [hlock']
        exact Function.update_self _ _ _
      have hawake : s'.lock.semaphore.awake t =
          if taken = true then s.lock.semaphore.awake t else 0 := by
        rw [hlock']
        exact hself
      unfold toDo
      rw [hpc', hpc, hafter, hawake, hsem]
      rcases hlock with hout | ⟨held', hin, hawake'⟩
      · rw [hout]
        cases taken <;> simp only [DevicePc.left, if_true, if_false, Bool.false_eq_true] <;> omega
      · rw [hin]
        have hone : s.lock.semaphore.awake t = 1 := by
          unfold SemState.awake
          rw [hawake']
          rfl
        rw [hone]
        cases taken <;> simp only [DevicePc.left, if_true, if_false, Bool.false_eq_true] <;> omega

private theorem work_lt_of_v (hn : s.Below n) {t : ThreadId} {r : ι} {k : Nat} {b : β}
    (hpc : s.pc t = .release r k b) (hreleasing : s.lock.pc t = .releasing)
    (hlock' : s'.lock = { s.lock with
      semaphore := s.lock.semaphore.v, pc := Function.update s.lock.pc t .outside })
    (hsem : s'.semaphore = s.semaphore) (hpending : s'.pending = s.pending)
    (hpc' : s'.pc = Function.update s.pc t .idle) : s'.work n < s.work n := by
  have ht : t < n := hn.lt (by rw [hpc]; simp)
  obtain ⟨a, hawake⟩ := SemState.awake_v s.lock.semaphore
  have hmore : ∀ u, s'.toDo u + (if u = t then 2 else 0) ≤ s.toDo u + if u = a then 1 else 0 := by
    intro u
    have hu := hawake u
    unfold toDo
    rw [hpc', hlock', hsem]
    dsimp only
    by_cases hut : u = t
    · subst hut
      rw [if_pos rfl, Function.update_self, hpc, hreleasing]
      simp only [DevicePc.left]
      omega
    · rw [if_neg hut, Function.update_of_ne hut, Function.update_of_ne hut]
      omega
  have hsum := sum_shift ht hmore
  unfold work
  rw [hpending]
  omega

private theorem Inv.work_lt_lock (h : s.Inv D c₀) (hn : s.Below n) {l : LockLabel}
    (hallows : (s.pc l.thread).allows (s.lock.pc l.thread) l = true)
    (hs : (do
      let lock ← Nachos.lockStep s.lock l
      some { s with
        lock := lock, pc := Function.update s.pc l.thread ((s.pc l.thread).afterLock l),
        aborted := lock.aborted, acquired := s.acquired ++ s.entering lock l.thread,
        returned := s.returned ++ s.returning l }) = some s')
    (hrunning : s'.aborted = false) : s'.work n < s.work n := by
  obtain ⟨lock, hlock, hs⟩ := Option.bind_eq_some_iff.mp hs
  obtain rfl := Option.some.inj hs
  cases hpc : s.pc l.thread with
  | idle | wait r k b =>
    rw [hpc] at hallows
    cases hallows
  | acquire r =>
    have hpc' : Function.update s.pc l.thread ((DevicePc.acquire r).afterLock l) = s.pc := by
      have hstay : (DevicePc.acquire r : DevicePc ι β).afterLock l = .acquire r := by cases l <;> rfl
      rw [hstay, ← hpc, Function.update_eq_self]
    cases l with
    | acquire t =>
      have hout : s.lock.pc t = .outside := by
        rw [hpc] at hallows
        cases hin : s.lock.pc t with
        | outside => rfl
        | _ =>
          rw [show (LockLabel.acquire t).thread = t from rfl, hin] at hallows
          cases hallows
      simp only [Nachos.lockStep, hout] at hlock
      exact work_lt_of_test hn hpc (.inl hout) (Option.some.inj hlock).symm rfl rfl hpc' hrunning
    | retest t =>
      simp only [Nachos.lockStep] at hlock
      split at hlock
      next held hin =>
        split at hlock
        next => cases hlock
        next hawake =>
          exact work_lt_of_test hn hpc (.inr ⟨held, hin, Bool.not_eq_true _ ▸ hawake⟩)
            (Option.some.inj hlock).symm rfl rfl hpc' hrunning
      next => cases hlock
    | assign t =>
      simp only [Nachos.lockStep] at hlock
      split at hlock
      next hgot =>
        obtain rfl := Option.some.inj hlock
        have hpct : s.pc t = .acquire r := hpc
        refine work_lt_of_step (t := t) (x := 1) (hn.lt (by rw [hpct]; simp)) ?_ ?_
          (Nat.lt_succ_self _)
        · exact fun u hu => toDo_congr (congrFun hpc' u) (Function.update_of_ne hu _ _) rfl rfl
        · simp only [toDo, hpc', Function.update_self, hpct, hgot, DevicePc.left]
          omega
      next => cases hlock
    | release t | v t =>
      rw [hpc] at hallows
      simp [DevicePc.allows] at hallows
  | release r k b =>
    cases l with
    | acquire t | retest t | assign t =>
      rw [hpc] at hallows
      cases hallows
    | release t =>
      have hpct : s.pc t = .release r k b := hpc
      have hplace := h.place t
      rw [hpct] at hplace
      simp only [Nachos.lockStep] at hlock
      split at hlock
      next hcalls =>
        have hholding : s.lock.pc t = .holding := by
          rcases hplace with hplace | hplace
          · exact hplace
          · rw [hplace] at hcalls
            simp at hcalls
        split at hlock
        next =>
          obtain rfl := Option.some.inj hlock
          refine work_lt_of_step (t := t) (x := 1) (hn.lt (by rw [hpct]; simp)) ?_ ?_
            (Nat.lt_succ_self _)
          · exact fun u hu =>
              toDo_congr (Function.update_of_ne hu _ _) (Function.update_of_ne hu _ _) rfl rfl
          · simp only [toDo, LockLabel.thread, Function.update_self, hpct, hholding,
              DevicePc.afterLock, DevicePc.left]
            omega
        next =>
          obtain rfl := Option.some.inj hlock
          cases hrunning
      next => cases hlock
    | v t =>
      simp only [Nachos.lockStep] at hlock
      split at hlock
      next hreleasing =>
        obtain rfl := Option.some.inj hlock
        refine work_lt_of_v hn (t := t) hpc hreleasing rfl rfl rfl rfl
      next => cases hlock

private theorem Inv.work_lt (h : s.Inv D c₀) (hn : s.Below n) {l : DeviceLabel ι}
    (hl : l.isCall = false) (hs : s.step D l = some s') (hrunning : s'.aborted = false) :
    s'.work n < s.work n := by
  cases l with
  | call t r => cases hl
  | lock l =>
    simp only [SynchDevice.step] at hs
    split at hs
    next hallows =>
      exact h.work_lt_lock hn hallows hs hrunning
    next => cases hs
  | request t =>
    obtain ⟨r, hpc, hholding, ⟨-, rfl⟩ | ⟨-, rfl⟩ | ⟨c, b, -, rfl⟩⟩ := step_request hs
    · cases hrunning
    · cases hrunning
    · refine work_lt_of_step (t := t) (x := 3) (hn.lt (by rw [hpc]; simp)) ?_ ?_ ?_
      · exact fun u hu => toDo_congr (Function.update_of_ne hu _ _) rfl rfl rfl
      · simp only [toDo, Function.update_self, hpc, hholding, DevicePc.left]
        omega
      · simp only [List.length_append, List.length_singleton]
        omega
  | p t =>
    simp only [SynchDevice.step] at hs
    split at hs
    next r k b hpc =>
      have ht : t < n := hn.lt (by rw [hpc]; simp)
      split at hs
      next => cases hs
      next hawake =>
        have hone : s.semaphore.awake t = 1 := if_neg hawake
        split at hs
        next =>
          obtain rfl := Option.some.inj hs
          cases hrunning
        next sem hp =>
          obtain rfl := Option.some.inj hs
          obtain ⟨hothers, hself⟩ := SemState.awake_p hp
          refine work_lt_of_step (t := t) (x := 1) ht ?_ ?_ (Nat.lt_succ_self _)
          · exact fun u hu => toDo_congr (Function.update_of_ne hu _ _) rfl rfl (hothers u hu)
          · have hplace := h.place t
            rw [hpc] at hplace
            have hholding : s.lock.pc t = .holding := hplace
            simp only [toDo, Function.update_self, hpc, hholding, DevicePc.left, hself, if_true]
            omega
        next sem hp =>
          obtain rfl := Option.some.inj hs
          obtain ⟨hothers, hself⟩ := SemState.awake_p hp
          refine work_lt_of_step (t := t) (x := 1) ht ?_ ?_ (Nat.lt_succ_self _)
          · exact fun u hu => toDo_congr rfl rfl rfl (hothers u hu)
          · simp only [toDo, hself, hone, Bool.false_eq_true, if_false]
            omega
    next => cases hs
  | interrupt k =>
    obtain ⟨hk, rfl⟩ := step_interrupt hs
    have hlength := List.length_erase_of_mem hk
    have hpos := List.length_pos_of_mem hk
    obtain ⟨a, hawake⟩ := SemState.awake_v s.semaphore
    have hsum := sum_le_add (n := n) (w := s.toDo) (a := a) (y := 1)
      fun u => (Nat.add_le_add_left (hawake u) _).trans_eq (Nat.add_assoc _ _ _).symm
    refine lt_of_le_of_lt (Nat.add_le_add_right hsum _) ?_
    unfold work
    rw [hlength]
    omega

theorem Below.step (h : s.Below n) {l : DeviceLabel ι} (hl : l.isCall = false)
    (hs : s.step D l = some s') : s'.Below n := by
  intro t ht
  refine (step_unsent hs ?_ t).1 (h t ht)
  rintro u r rfl
  cases hl

theorem below_inductive (D : Device σ ι β) (c₀ : σ) :
    (deviceSystem D c₀).Inductive fun s => ∃ n, s.Below n where
  init := by
    rintro s rfl
    exact ⟨0, fun _ _ => rfl⟩
  step := by
    rintro s l s' ⟨n, hn⟩ ⟨-, hs⟩
    by_cases hl : l.isCall = false
    · exact ⟨n, hn.step hl hs⟩
    · cases l with
      | call t r =>
        obtain ⟨-, rfl⟩ := step_call hs
        refine ⟨max n (t + 1), fun u hu => ?_⟩
        have hut : u ≠ t := by omega
        exact (Function.update_of_ne hut _ _).trans (hn u (by omega))
      | _ => exact absurd rfl hl

/-- A call has the lock and its request is one that the device does not accept. -/
def Refused (D : Device σ ι β) (s : SynchDevice σ ι β) : Prop :=
  ∃ t r, s.pc t = .acquire r ∧ s.lock.pc t = .holding ∧ D.request s.contents r = none

theorem refused_inductive (D : Device σ ι β) (c₀ : σ) :
    (deviceSystem D c₀).Inductive fun s => (s.Inv D c₀ ∧ s.Sleepers) ∧
      s.lock.aborted = false ∧ (s.aborted = true → s.Refused D) := by
  apply (sleepers_inductive D c₀).relative
  · rintro s rfl
    exact ⟨rfl, fun h => by cases h⟩
  · rintro s l s' hinv ⟨hlock, -⟩ ⟨hrunning, hs⟩
    by_cases hrequest : ∃ t r, l = .request t ∧ s.pc t = .acquire r ∧ D.request s.contents r = none
    · obtain ⟨t, r, rfl, hpc, hnone⟩ := hrequest
      by_cases hholding : s.lock.pc t = .holding
      · have hin : (s.lock.pc t).inside = true := by rw [hholding]; rfl
        have hquiet := (hinv.1.quiet hin (by rw [hpc]; rfl)).1
        simp only [SynchDevice.step, hpc, hholding, hquiet, hnone, Bool.false_eq_true, if_false] at hs
        obtain rfl := Option.some.inj hs
        exact ⟨hlock, fun _ => ⟨t, r, hpc, hholding, hnone⟩⟩
      · simp only [SynchDevice.step, hpc] at hs
        split at hs
        next heq => exact absurd heq hholding
        next => cases hs
    · have haccepts : ∀ t r, l = .request t → s.pc t = .acquire r →
          ∃ x, D.request s.contents r = some x := by
        intro t r hl hpc
        rcases Option.eq_none_or_eq_some (D.request s.contents r) with hnone | hsome
        · exact absurd ⟨t, r, hl, hpc, hnone⟩ hrequest
        · exact hsome
      obtain ⟨hlock', hrunning'⟩ := hinv.1.step_aborted hlock hrunning haccepts hs
      exact ⟨hlock', fun h => absurd (hrunning'.symm.trans h) (by simp)⟩

/-- The calls in progress come to their end if no others come: only so many steps are left, and as
long as a call is in progress one of them can be taken, unless the device has refused a request. -/
def CallsEnd (D : Device σ ι β) (c₀ : σ) : Prop :=
  ∀ s, (deviceSystem D c₀).Reachable s → ∃ steps, ∀ ls s',
    (deviceSystem D c₀).Trace s ls s' → (∀ l ∈ ls, l.isCall = false) →
      ls.length ≤ steps ∧
      ((∀ t, s'.pc t = .idle) ∨ s'.Refused D ∨
        ∃ l s'', l.isCall = false ∧ (deviceSystem D c₀).step s' l s'')

theorem callsEnd (D : Device σ ι β) (c₀ : σ) : CallsEnd D c₀ := by
  intro s hr
  obtain ⟨n, hn⟩ := (below_inductive D c₀).of_reachable hr
  have hinv := inv_inductive D c₀
  -- an aborted simulation has nothing left to do
  let left (s : SynchDevice σ ι β) : Nat := if s.aborted then 0 else s.work n + 1
  refine ⟨left s, fun ls s' htrace hls => ?_⟩
  have hless : ∀ s l s', s.Inv D c₀ ∧ s.Below n → l.isCall = false →
      (deviceSystem D c₀).step s l s' → (s'.Inv D c₀ ∧ s'.Below n) ∧ left s' < left s := by
    rintro s l s' ⟨h, hn⟩ hl ⟨hrunning, hs⟩
    refine ⟨⟨hinv.step s l s' h ⟨hrunning, hs⟩, hn.step hl hs⟩, ?_⟩
    simp only [left, hrunning, Bool.false_eq_true, if_false]
    cases habort : s'.aborted with
    | true => exact Nat.succ_pos _
    | false =>
      have hlt := h.work_lt hn hl hs habort
      simp only [Bool.false_eq_true, if_false]
      omega
  have hcount := (htrace.length_le hless ⟨hinv.of_reachable hr, hn⟩ hls).2
  refine ⟨by omega, ?_⟩
  obtain ⟨⟨h, hsleep⟩, -, hrefused⟩ := (refused_inductive D c₀).of_reachable (htrace.reachable hr)
  by_cases hidle : ∀ t, s'.pc t = .idle
  · exact .inl hidle
  · cases habort : s'.aborted with
    | true => exact .inr (.inl (hrefused habort))
    | false =>
      obtain ⟨t, ht⟩ := not_forall.mp hidle
      obtain ⟨l, hl, hsome⟩ := h.canMove hsleep ht
      obtain ⟨s'', hs⟩ := Option.isSome_iff_exists.mp hsome
      exact .inr (.inr ⟨l, s'', hl, habort, hs⟩)

end SynchDevice
end Nachos

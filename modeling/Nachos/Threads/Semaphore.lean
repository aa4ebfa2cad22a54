import Nachos.Framework.Run
import Nachos.Framework.Int32
import Nachos.Lib.List

/-!
# Semaphores

`Semaphore::P` and `Semaphore::V` run with interrupts disabled, so a run of any number of
threads interleaves atomic sections: one test of the loop in `P`, which either takes a unit or
queues the thread and blocks it, one call of `V` by a thread, and one call of `V`, or of a `P`
that finds a unit, by an interrupt handler. Between two sections any thread that is not
blocked may run.

`value` is an `int`. The semaphores of the kernel hold few units, and their value is a number;
for a semaphore in the hands of arbitrary callers it is taken modulo 2^32, and the two agree as
long as nobody calls `V` on the largest `int`.
-/

namespace Nachos

open Framework

abbrev ThreadId := Nat

/-- A semaphore. The fields after `queue` record the history of the run: the threads that `V`
has removed from the queue and that have not yet tested `value` again, and the numbers of
completed increments and decrements. -/
structure Semaphore where
  value : Int
  queue : List ThreadId
  woken : List ThreadId
  increments : Nat
  decrements : Nat

namespace Semaphore

def new (initialValue : Int) : Semaphore :=
  { value := initialValue, queue := [], woken := [], increments := 0, decrements := 0 }

/-- One test of the loop in `P` by a thread: `true` when the unit was taken and `P` goes on
to restore the interrupt level, `false` when the thread is queued and goes to sleep. -/
def test (s : Semaphore) (t : ThreadId) : Option (Semaphore × Bool) :=
  if s.value = 0 then do
    let queue ← listAppend s.queue t
    some ({ s with queue := queue, woken := s.woken.erase t }, false)
  else
    some ({ s with value := s.value - 1, woken := s.woken.erase t,
                   decrements := s.decrements + 1 }, true)

/-- `P` called by an interrupt handler. A handler has no thread of its own to put to sleep, so
it may only call `P` where a unit is free. -/
def take (s : Semaphore) : Semaphore :=
  { s with value := s.value - 1, decrements := s.decrements + 1 }

/-- `V` and the thread it hands to `ReadyToRun`. -/
def v (s : Semaphore) : Semaphore × Option ThreadId :=
  match s.queue with
  | [] => ({ s with value := s.value + 1, increments := s.increments + 1 }, none)
  | t :: queue =>
    ({ s with value := s.value + 1, queue := queue, woken := t :: s.woken,
              increments := s.increments + 1 }, some t)

theorem test_zero {s : Semaphore} {t : ThreadId} (hv : s.value = 0) (ht : t ∉ s.queue) :
    s.test t = some ({ s with queue := s.queue ++ [t], woken := s.woken.erase t }, false) := by
  simp [test, hv, listAppend_of_notMem ht]

theorem test_nonzero {s : Semaphore} {t : ThreadId} (hv : s.value ≠ 0) :
    s.test t = some ({ s with value := s.value - 1, woken := s.woken.erase t,
                              decrements := s.decrements + 1 }, true) := by
  simp [test, hv]

private theorem test_cases {s s' : Semaphore} {t : ThreadId} {taken : Bool}
    (h : s.test t = some (s', taken)) :
    (taken = false ∧ s.value = 0 ∧ t ∉ s.queue ∧
      s' = { s with queue := s.queue ++ [t], woken := s.woken.erase t }) ∨
    (taken = true ∧ s.value ≠ 0 ∧
      s' = { s with value := s.value - 1, woken := s.woken.erase t,
                    decrements := s.decrements + 1 }) := by
  by_cases hv : s.value = 0
  · by_cases hq : t ∈ s.queue
    · simp [test, hv, listAppend, hq] at h
    · rw [test_zero hv hq] at h
      obtain ⟨rfl, rfl⟩ := Prod.mk.inj (Option.some.inj h)
      exact Or.inl ⟨rfl, hv, hq, rfl⟩
  · rw [test_nonzero hv] at h
    obtain ⟨rfl, rfl⟩ := Prod.mk.inj (Option.some.inj h)
    exact Or.inr ⟨rfl, hv, rfl⟩

/-- Everything `V` can do. -/
theorem v_cases (s : Semaphore) :
    (s.queue = [] ∧
      s.v = ({ s with value := s.value + 1, increments := s.increments + 1 }, none)) ∨
    (∃ t queue, s.queue = t :: queue ∧
      s.v = ({ s with value := s.value + 1, queue := queue, woken := t :: s.woken,
                      increments := s.increments + 1 }, some t)) := by
  cases hq : s.queue with
  | nil => exact Or.inl ⟨rfl, by simp [v, hq]⟩
  | cons t queue => exact Or.inr ⟨t, queue, rfl, by simp [v, hq]⟩

end Semaphore

/-- A semaphore with the threads that are asleep in its `P`. `Sleep` blocks the thread and
`ReadyToRun` unblocks it; a blocked thread runs nothing. -/
structure SemState where
  sem : Semaphore
  asleep : ThreadId → Bool

namespace SemState

def new (initialValue : Int) : SemState :=
  { sem := .new initialValue, asleep := fun _ => false }

/-- The atomic section of `P` from a test of `value` to the end of `P` or to `Sleep`. -/
def p (s : SemState) (t : ThreadId) : Option (SemState × Bool) := do
  let (sem, taken) ← s.sem.test t
  some ({ sem := sem, asleep := if taken then s.asleep else Function.update s.asleep t true },
    taken)

/-- The atomic section of `V`. -/
def v (s : SemState) : SemState :=
  match s.sem.v with
  | (sem, none) => { s with sem := sem }
  | (sem, some t) => { sem := sem, asleep := Function.update s.asleep t false }

end SemState

/-- The atomic sections on one semaphore: a test in `P`, first or after a wakeup, by a thread;
`V` by a thread; `P` and `V` by an interrupt handler. -/
inductive SemLabel
  | p (t : ThreadId)
  | v (t : ThreadId)
  | handlerP
  | handlerV

/-- All interleavings of `P` and `V` on a semaphore that starts with `n` units. -/
def semaphoreSystem (n : Nat) : System SemState SemLabel where
  init s := s = .new n
  step s l s' :=
    match l with
    | .p t => s.asleep t = false ∧ ∃ taken, s.p t = some (s', taken)
    | .v t => s.asleep t = false ∧ s' = s.v
    | .handlerP => s.sem.value ≠ 0 ∧ s' = { s with sem := s.sem.take }
    | .handlerV => s' = s.v

namespace SemState

/-- Everything one section of `P` can do. -/
theorem p_cases {s s' : SemState} {t : ThreadId} {taken : Bool} (h : s.p t = some (s', taken)) :
    (taken = false ∧ s.sem.value = 0 ∧ t ∉ s.sem.queue ∧
      s' = { sem := { s.sem with queue := s.sem.queue ++ [t], woken := s.sem.woken.erase t },
             asleep := Function.update s.asleep t true }) ∨
    (taken = true ∧ s.sem.value ≠ 0 ∧
      s' = { s with sem := { s.sem with value := s.sem.value - 1, woken := s.sem.woken.erase t,
                                        decrements := s.sem.decrements + 1 } }) := by
  unfold p at h
  cases ht : s.sem.test t with
  | none => simp [ht] at h
  | some r =>
    obtain ⟨sem, b⟩ := r
    rw [ht] at h
    obtain ⟨rfl, rfl⟩ := Prod.mk.inj (Option.some.inj h)
    rcases Semaphore.test_cases ht with ⟨rfl, hv, hq, rfl⟩ | ⟨rfl, hv, rfl⟩
    · exact Or.inl ⟨rfl, hv, hq, rfl⟩
    · exact Or.inr ⟨rfl, hv, rfl⟩

/-- Everything one section of `V` can do. -/
theorem v_cases (s : SemState) :
    (s.sem.queue = [] ∧
      s.v = { s with sem := { s.sem with value := s.sem.value + 1,
                                         increments := s.sem.increments + 1 } }) ∨
    (∃ t queue, s.sem.queue = t :: queue ∧
      s.v = { sem := { s.sem with value := s.sem.value + 1, queue := queue,
                                  woken := t :: s.sem.woken,
                                  increments := s.sem.increments + 1 },
              asleep := Function.update s.asleep t false }) := by
  rcases Semaphore.v_cases s.sem with ⟨hq, hv⟩ | ⟨t, queue, hq, hv⟩
  · exact Or.inl ⟨hq, by simp [v, hv]⟩
  · exact Or.inr ⟨t, queue, hq, by simp [v, hv]⟩

@[simp] theorem v_value (s : SemState) : s.v.sem.value = s.sem.value + 1 := by
  rcases v_cases s with ⟨-, hv⟩ | ⟨t, queue, -, hv⟩
  · rw [hv]
  · rw [hv]

/-- `V` puts nobody to sleep. -/
theorem asleep_of_v {s : SemState} {u : ThreadId} (h : s.v.asleep u = true) :
    s.asleep u = true := by
  rcases v_cases s with ⟨-, hv⟩ | ⟨t, queue, -, hv⟩
  · simpa [hv] using h
  · by_cases hu : u = t
    · simp [hv, hu] at h
    · simpa [hv, hu] using h

/-- The invariant of the interleavings: the queue holds exactly the sleeping threads, each
once, and as long as somebody waits, every free unit has a woken thread on its way to it. -/
structure Inv (n : Nat) (s : SemState) : Prop where
  balance : s.sem.value + s.sem.decrements = n + s.sem.increments
  nonneg : 0 ≤ s.sem.value
  queue_nodup : s.sem.queue.Nodup
  woken_nodup : s.sem.woken.Nodup
  queue_asleep : ∀ t, t ∈ s.sem.queue ↔ s.asleep t = true
  woken_awake : ∀ t ∈ s.sem.woken, s.asleep t = false
  covered : s.sem.queue ≠ [] → s.sem.value ≤ s.sem.woken.length

theorem Inv.init (n : Nat) : Inv n (.new n) := by
  constructor <;> simp [new, Semaphore.new]

/-- A thread that is not asleep is not in the queue, so the ASSERT of `Append` holds. -/
theorem Inv.p_isSome {n : Nat} {s : SemState} (h : Inv n s) {t : ThreadId}
    (ht : s.asleep t = false) : ∃ r, s.p t = some r := by
  have hq : t ∉ s.sem.queue := by
    intro hm
    simp [(h.queue_asleep t).mp hm] at ht
  by_cases hv : s.sem.value = 0
  · exact ⟨_, by simp only [SemState.p, Semaphore.test_zero hv hq]; rfl⟩
  · exact ⟨_, by simp only [SemState.p, Semaphore.test_nonzero hv]; rfl⟩

theorem Inv.p {n : Nat} {s s' : SemState} {t : ThreadId} {taken : Bool} (h : Inv n s)
    (hp : s.p t = some (s', taken)) : Inv n s' := by
  rcases p_cases hp with ⟨-, hv, hq, rfl⟩ | ⟨-, hv, rfl⟩
  · have hfresh : t ∉ s.sem.woken.erase t := fun hm => (h.woken_nodup.mem_erase_iff.mp hm).1 rfl
    constructor
    · exact h.balance
    · exact h.nonneg
    · exact h.queue_nodup.append (List.nodup_singleton t) (by simpa using hq)
    · exact h.woken_nodup.erase t
    · intro u
      by_cases hu : u = t
      · simp [hu]
      · simpa [hu] using h.queue_asleep u
    · intro u hu
      have hut : u ≠ t := fun he => hfresh (he ▸ hu)
      simpa [hut] using h.woken_awake u (List.mem_of_mem_erase hu)
    · intro _
      simp only [hv]
      omega
  · constructor
    · have := h.balance
      simp only
      omega
    · have := h.nonneg
      simp only
      omega
    · exact h.queue_nodup
    · exact h.woken_nodup.erase t
    · exact h.queue_asleep
    · exact fun u hu => h.woken_awake u (List.mem_of_mem_erase hu)
    · intro hne
      have hc := h.covered hne
      -- one unit and at most one woken thread are gone
      have hl : s.sem.woken.length ≤ (s.sem.woken.erase t).length + 1 := by
        rw [List.length_erase]
        split <;> omega
      simp only
      omega

theorem Inv.v {n : Nat} {s : SemState} (h : Inv n s) : Inv n s.v := by
  rcases v_cases s with ⟨hq, hv⟩ | ⟨t, queue, hq, hv⟩
  · rw [hv]
    constructor
    · have := h.balance
      simp only
      omega
    · have := h.nonneg
      simp only
      omega
    · exact h.queue_nodup
    · exact h.woken_nodup
    · exact h.queue_asleep
    · exact h.woken_awake
    · exact fun hne => absurd hq hne
  · rw [hv]
    have hasleep : s.asleep t = true := (h.queue_asleep t).mp (by simp [hq])
    have hn : (t :: queue).Nodup := hq ▸ h.queue_nodup
    constructor
    · have := h.balance
      simp only
      omega
    · have := h.nonneg
      simp only
      omega
    · exact (List.nodup_cons.mp hn).2
    · refine List.nodup_cons.mpr ⟨fun hm => ?_, h.woken_nodup⟩
      have := h.woken_awake t hm
      simp [hasleep] at this
    · intro u
      by_cases hu : u = t
      · subst u
        simp [(List.nodup_cons.mp hn).1]
      · have := h.queue_asleep u
        rw [hq] at this
        simpa [hu] using this
    · intro u hu
      rcases List.mem_cons.mp hu with rfl | hm
      · simp
      · have hawake := h.woken_awake u hm
        have hut : u ≠ t := by
          rintro rfl
          simp [hasleep] at hawake
        simpa [hut] using hawake
    · intro _
      have hc := h.covered (by simp [hq])
      simp only [List.length_cons]
      push_cast
      omega

/-- Whoever is woken after `V` was woken or asleep before. -/
theorem Inv.woken_of_v {n : Nat} {s : SemState} (h : Inv n s) {u : ThreadId}
    (hu : u ∈ s.v.sem.woken) : u ∈ s.sem.woken ∨ s.asleep u = true := by
  rcases v_cases s with ⟨-, hv⟩ | ⟨t, queue, hq, hv⟩
  · exact Or.inl (by simpa [hv] using hu)
  · have hmem : u = t ∨ u ∈ s.sem.woken := by simpa [hv] using hu
    rcases hmem with rfl | hmem
    · exact Or.inr ((h.queue_asleep u).mp (by simp [hq]))
    · exact Or.inl hmem

theorem Inv.take {n : Nat} {s : SemState} (h : Inv n s) (hv : s.sem.value ≠ 0) :
    Inv n { s with sem := s.sem.take } := by
  refine ⟨?_, ?_, h.queue_nodup, h.woken_nodup, h.queue_asleep, h.woken_awake, ?_⟩
  · have := h.balance
    simp only [Semaphore.take]
    omega
  · have := h.nonneg
    simp only [Semaphore.take]
    omega
  · intro hne
    have := h.covered hne
    simp only [Semaphore.take]
    omega

theorem inv_inductive (n : Nat) : (semaphoreSystem n).Inductive (Inv n) where
  init _ h := h ▸ Inv.init n
  step _ l _ h hs := by
    cases l with
    | p t =>
      obtain ⟨-, taken, hp⟩ := hs
      exact h.p hp
    | v t => exact hs.2 ▸ h.v
    | handlerP => exact hs.2 ▸ h.take hs.1
    | handlerV => exact hs ▸ h.v

end SemState

/-! ## The value as an `int` -/

/-- The sum or difference that `value++` and `value--` leave in an `int`. -/
def SemState.wrap (s : SemState) : SemState :=
  { s with sem := { s.sem with value := int32 s.sem.value } }

/-- The interleavings of `P` and `V` with 32-bit increments and decrements. -/
def intSemaphoreSystem (n : Nat) : System SemState SemLabel where
  init s := s = .new n
  step s l s' := ∃ s₁, (semaphoreSystem n).step s l s₁ ∧ s' = s₁.wrap

/-- The largest `int` is not incremented. -/
def NoOverflow (s : SemState) : SemLabel → Prop
  | .v _ | .handlerV => s.sem.value ≠ 2 ^ 31 - 1
  | _ => True

namespace SemState

private theorem wrap_eq {s : SemState} (hlow : 0 ≤ s.sem.value) (hhigh : s.sem.value < 2 ^ 31) :
    s.wrap = s := by
  rw [wrap, int32_of_range (by omega)]

private theorem value_le {n : Nat} {s s' : SemState} {l : SemLabel} (hlt : s.sem.value < 2 ^ 31)
    (hno : NoOverflow s l) (hs : (semaphoreSystem n).step s l s') : s'.sem.value < 2 ^ 31 := by
  cases l with
  | p t =>
    obtain ⟨-, taken, hp⟩ := hs
    rcases p_cases hp with ⟨-, -, -, rfl⟩ | ⟨-, -, rfl⟩
    · exact hlt
    · dsimp only
      omega
  | v t =>
    have hne : s.sem.value ≠ 2 ^ 31 - 1 := hno
    rw [hs.2, v_value]
    omega
  | handlerP =>
    rw [hs.2]
    simp only [Semaphore.take]
    omega
  | handlerV =>
    have hne : s.sem.value ≠ 2 ^ 31 - 1 := hno
    rw [hs, v_value]
    omega

private theorem reachable_of_int {n : Nat} (hn : n < 2 ^ 31) {s : SemState}
    (hr : ((intSemaphoreSystem n).restrict NoOverflow).Reachable s) :
    (semaphoreSystem n).Reachable s ∧ s.sem.value < 2 ^ 31 := by
  induction hr with
  | init hi =>
    refine ⟨.init hi, ?_⟩
    rw [hi]
    simp only [SemState.new, Semaphore.new]
    omega
  | step _ hs ih =>
    obtain ⟨hno, s₁, hstep, rfl⟩ := hs
    have hr₁ := ih.1.step hstep
    have hlt := value_le ih.2 hno hstep
    rw [wrap_eq ((inv_inductive n).of_reachable hr₁).nonneg hlt]
    exact ⟨hr₁, hlt⟩

end SemState

/-- As long as no increment overflows, every interleaving keeps the value equal to the initial
value plus the increments minus the decrements and non-negative, queues a thread at most once,
lets no thread that may run meet the ASSERT of `Append`, and has woken at least `value` threads
whenever somebody waits. -/
theorem semaphore_safety {n : Nat} (hn : n < 2 ^ 31) {s : SemState}
    (hr : ((intSemaphoreSystem n).restrict NoOverflow).Reachable s) :
    s.sem.value = n + s.sem.increments - s.sem.decrements ∧
    0 ≤ s.sem.value ∧
    s.sem.queue.Nodup ∧
    (∀ t, s.asleep t = false → (s.p t).isSome) ∧
    s.sem.woken.Nodup ∧ (∀ t ∈ s.sem.woken, t ∉ s.sem.queue) ∧
    (s.sem.queue ≠ [] → s.sem.value ≤ s.sem.woken.length) := by
  have h := (SemState.inv_inductive n).of_reachable (SemState.reachable_of_int hn hr).1
  refine ⟨?_, h.nonneg, h.queue_nodup, ?_, h.woken_nodup, ?_, h.covered⟩
  · have := h.balance
    omega
  · intro t ht
    have hq : t ∉ s.sem.queue := fun hm => by
      simp [(h.queue_asleep t).mp hm] at ht
    by_cases hv : s.sem.value = 0
    · simp [SemState.p, Semaphore.test_zero hv hq]
    · simp [SemState.p, Semaphore.test_nonzero hv]
  · intro t ht hq
    have := h.woken_awake t ht
    simp [(h.queue_asleep t).mp hq] at this

/-- Thread 0 asleep in the `P` of an empty semaphore, then woken by a handler. -/
theorem semaphore_safety_woken :
    ∃ s : SemState, ((intSemaphoreSystem 0).restrict NoOverflow).Reachable s ∧
      s.sem.woken = [0] ∧ s.sem.value = (0 : Nat) + s.sem.increments - s.sem.decrements := by
  let s : SemState :=
    { sem := { Semaphore.new 0 with queue := [0] },
      asleep := Function.update (fun _ => false) 0 true }
  have hp : (SemState.new 0).p 0 = some (s, false) := rfl
  have hzero : s.sem.value ≠ 2 ^ 31 - 1 := by decide
  have hr : ((intSemaphoreSystem 0).restrict NoOverflow).Reachable s.v :=
    .step (l := .handlerV) (.step (l := .p 0) (.init rfl) ⟨trivial, s, ⟨rfl, false, hp⟩, rfl⟩)
      ⟨hzero, s.v, rfl, rfl⟩
  exact ⟨s.v, hr, rfl, (semaphore_safety (by decide) hr).1⟩

/-- A unit too many. -/
theorem semaphore_overflow :
    ∃ s : SemState, (intSemaphoreSystem (2 ^ 31 - 1)).Reachable s ∧ s.sem.value < 0 ∧
      s.sem.value ≠ (2 ^ 31 - 1 : Nat) + s.sem.increments - s.sem.decrements := by
  let s : SemState := .new (2 ^ 31 - 1 : Nat)
  have hr : (intSemaphoreSystem (2 ^ 31 - 1)).Reachable s.v.wrap :=
    .step (l := .v 0) (.init rfl) ⟨s.v, ⟨rfl, rfl⟩, rfl⟩
  exact ⟨s.v.wrap, hr, by decide, by decide⟩

end Nachos

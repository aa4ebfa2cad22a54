import Nachos.Threads.Kernel

/-!
# Thread conservation

The status fields, the ready list and the semaphore queues are kept by different routines. The
books are what they owe each other at every step; the place of the current thread says what its
stack, the interrupt level and `toBeDestroyed` look like. Together they are the invariant from
which no ASSERT fails and no thread is lost or scheduled twice.
-/

namespace Nachos

open Framework

namespace Kernel

/-- `ReadyToRun` where its ASSERTs pass. -/
def makeReady (k : Kernel) (t : ThreadId) : Kernel :=
  { k with status := Function.update k.status t .ready,
           readyList := k.readyList.orderedInsert (fun x y => k.compare x y < 0) t,
           readyCount := k.readyCount + 1,
           readyAt := Function.update k.readyAt t k.readyCount }

theorem readyToRun_eq {k : Kernel} {t : ThreadId} (hl : k.level = .intOff)
    (ht : t ∉ k.readyList) : k.readyToRun t = some (k.makeReady t) := by
  simp [readyToRun, hl, sortedListInsert_of_notMem k.compare ht, makeReady]

/-- `Run` where its ASSERTs pass. -/
def switchTo (k : Kernel) (nextThread : ThreadId) (finishing : Bool) : Kernel :=
  { k.push [.afterSwitch] with
    toBeDestroyed := if finishing then some k.currentThread else k.toBeDestroyed,
    currentThread := nextThread,
    status := Function.update k.status nextThread .running }

private theorem run_eq {k : Kernel} {t : ThreadId} {finishing : Bool} (hl : k.level = .intOff)
    (hd : finishing = true → k.toBeDestroyed = none) :
    k.run t finishing = some (k.switchTo t finishing) := by
  rw [run, if_pos ⟨hl, hd⟩]
  rfl

theorem pLoop_blocked {k : Kernel} {s : SemId} (hv : (k.semaphore s).value = 0)
    (hq : k.currentThread ∉ (k.semaphore s).queue) (hl : k.level = .intOff) :
    k.pLoop s = some { k with
      semaphore := Function.update k.semaphore s { k.semaphore s with
        queue := (k.semaphore s).queue ++ [k.currentThread],
        woken := (k.semaphore s).woken.erase k.currentThread },
      status := Function.update k.status k.currentThread .blocked,
      stack := Function.update k.stack k.currentThread
        (.sleepLoop false :: .pLoop s :: k.stack k.currentThread) } := by
  simp [pLoop, Semaphore.test_zero hv hq, sleep, push, hl]

theorem pLoop_taken {k : Kernel} {s : SemId} (hv : (k.semaphore s).value ≠ 0) :
    k.pLoop s = some { k with
      semaphore := Function.update k.semaphore s { k.semaphore s with
        value := (k.semaphore s).value - 1,
        woken := (k.semaphore s).woken.erase k.currentThread,
        decrements := (k.semaphore s).decrements + 1 } } := by
  simp [pLoop, Semaphore.test_nonzero hv]

/-- What the status fields, the ready list and the semaphore queues owe each other. -/
structure Books (k : Kernel) : Prop where
  ready_nodup : k.readyList.Nodup
  ready : ∀ t, t ∈ k.readyList ↔ k.status t = .ready
  queue_nodup : ∀ s, (k.semaphore s).queue.Nodup
  queue_unique : ∀ s s' t, t ∈ (k.semaphore s).queue → t ∈ (k.semaphore s').queue → s = s'
  waiting : ∀ t, (∃ s, t ∈ (k.semaphore s).queue) ↔
    k.status t = .blocked ∧ k.finished t = false
  finished : ∀ t, k.finished t = true → k.status t = .blocked

namespace Books

variable {k : Kernel} {t : ThreadId}

theorem congr {k' : Kernel} (h : Books k) (hready : k'.readyList = k.readyList)
    (hstatus : k'.status = k.status) (hfinished : k'.finished = k.finished)
    (hqueue : ∀ s, (k'.semaphore s).queue = (k.semaphore s).queue) : Books k' := by
  refine ⟨?_, ?_, ?_, ?_, ?_, ?_⟩
  · rw [hready]
    exact h.ready_nodup
  · simpa only [hready, hstatus] using h.ready
  · simpa only [hqueue] using h.queue_nodup
  · simpa only [hqueue] using h.queue_unique
  · simpa only [hqueue, hstatus, hfinished] using h.waiting
  · simpa only [hstatus, hfinished] using h.finished

theorem notMem_ready (h : Books k) (ht : k.status t ≠ .ready) : t ∉ k.readyList :=
  fun hm => ht ((h.ready t).mp hm)

theorem notMem_queue (h : Books k) (ht : k.status t ≠ .blocked) (s : SemId) :
    t ∉ (k.semaphore s).queue :=
  fun hm => ht ((h.waiting t).mp ⟨s, hm⟩).1

theorem unfinished (h : Books k) (ht : k.status t ≠ .blocked) : k.finished t = false :=
  Bool.eq_false_iff.mpr fun hf => ht (h.finished t hf)

theorem makeReady (h : Books k) (hr : k.status t ≠ .ready) (hb : k.status t ≠ .blocked) :
    Books (k.makeReady t) := by
  refine ⟨?_, ?_, h.queue_nodup, h.queue_unique, ?_, ?_⟩
  · exact (List.perm_orderedInsert _ t k.readyList).nodup_iff.mpr
      (List.nodup_cons.mpr ⟨h.notMem_ready hr, h.ready_nodup⟩)
  · intro u
    by_cases hu : u = t
    · simp [Kernel.makeReady, hu]
    · simpa [Kernel.makeReady, hu] using h.ready u
  · intro u
    by_cases hu : u = t
    · subst hu
      simp [Kernel.makeReady, h.notMem_queue hb]
    · simpa [Kernel.makeReady, hu] using h.waiting u
  · intro u hf
    by_cases hu : u = t
    · exact absurd (h.finished t (hu ▸ hf)) hb
    · simpa [Kernel.makeReady, hu] using h.finished u hf

theorem wake (h : Books k) {s : SemId} {sem : Semaphore} {queue : List ThreadId}
    (hq : (k.semaphore s).queue = t :: queue) (hsem : sem.queue = queue) :
    Books ({ k with semaphore := Function.update k.semaphore s sem }.makeReady t) := by
  have hblocked : k.status t = .blocked ∧ k.finished t = false :=
    (h.waiting t).mp ⟨s, by simp [hq]⟩
  have hnodup : (t :: queue).Nodup := hq ▸ h.queue_nodup s
  -- the queues of the new state hold the same threads except the woken one
  have hmem : ∀ s' u, u ∈ (Function.update k.semaphore s sem s').queue ↔
      u ∈ (k.semaphore s').queue ∧ u ≠ t := by
    intro s' u
    by_cases hs : s' = s
    · subst hs
      simp only [Function.update_self, hsem, hq, List.mem_cons]
      constructor
      · intro hu
        exact ⟨Or.inr hu, fun he => (List.nodup_cons.mp hnodup).1 (he ▸ hu)⟩
      · rintro ⟨he | hu, hne⟩
        · exact absurd he hne
        · exact hu
    · simp only [Function.update_of_ne hs]
      constructor
      · intro hu
        refine ⟨hu, fun he => hs ?_⟩
        exact h.queue_unique s' s t (he ▸ hu) (by simp [hq])
      · exact fun hu => hu.1
  refine ⟨?_, ?_, ?_, ?_, ?_, ?_⟩
  · exact (List.perm_orderedInsert _ t k.readyList).nodup_iff.mpr
      (List.nodup_cons.mpr ⟨h.notMem_ready (by simp [hblocked.1]), h.ready_nodup⟩)
  · intro u
    by_cases hu : u = t
    · simp [Kernel.makeReady, hu]
    · simpa [Kernel.makeReady, hu] using h.ready u
  · intro s'
    by_cases hs : s' = s
    · subst hs
      simpa [Kernel.makeReady, hsem] using (List.nodup_cons.mp hnodup).2
    · simpa [Kernel.makeReady, hs] using h.queue_nodup s'
  · intro s₁ s₂ u h₁ h₂
    exact h.queue_unique s₁ s₂ u ((hmem s₁ u).mp h₁).1 ((hmem s₂ u).mp h₂).1
  · intro u
    simp only [Kernel.makeReady, hmem]
    by_cases hu : u = t
    · simp [hu]
    · simpa [hu] using h.waiting u
  · intro u hf
    have hu : u ≠ t := by
      rintro rfl
      simp [Kernel.makeReady, hblocked.2] at hf
    simpa [Kernel.makeReady, hu] using h.finished u hf

private theorem dispatch (h : Books k) {readyList : List ThreadId}
    (hq : k.readyList = t :: readyList) :
    Books { k with readyList := readyList, status := Function.update k.status t .running } := by
  have hnodup : (t :: readyList).Nodup := hq ▸ h.ready_nodup
  have hready : k.status t = .ready := (h.ready t).mp (by simp [hq])
  refine ⟨(List.nodup_cons.mp hnodup).2, ?_, h.queue_nodup, h.queue_unique, ?_, ?_⟩
  · intro u
    by_cases hu : u = t
    · simpa [hu] using (List.nodup_cons.mp hnodup).1
    · simpa [hu, hq] using h.ready u
  · intro u
    by_cases hu : u = t
    · subst hu
      simp [h.notMem_queue (t := u) (by simp [hready])]
    · simpa [hu] using h.waiting u
  · intro u hf
    by_cases hu : u = t
    · have := h.finished u hf
      simp [hu, hready] at this
    · simpa [hu] using h.finished u hf

theorem block (h : Books k) (s : SemId) (sem : Semaphore) (ht : k.status t = .running)
    (hsem : sem.queue = (k.semaphore s).queue ++ [t]) :
    Books { k with semaphore := Function.update k.semaphore s sem,
                   status := Function.update k.status t .blocked } := by
  have hfinished : k.finished t = false := h.unfinished (by simp [ht])
  have hfresh : ∀ s', t ∉ (k.semaphore s').queue := h.notMem_queue (by simp [ht])
  have hmem : ∀ s' u, u ∈ (Function.update k.semaphore s sem s').queue ↔
      u ∈ (k.semaphore s').queue ∨ (s' = s ∧ u = t) := by
    intro s' u
    by_cases hs : s' = s
    · subst hs; simp [hsem]
    · simp [hs]
  refine ⟨h.ready_nodup, ?_, ?_, ?_, ?_, ?_⟩
  · intro u
    by_cases hu : u = t
    · subst hu
      simp [h.notMem_ready (t := u) (by simp [ht])]
    · simpa [hu] using h.ready u
  · intro s'
    by_cases hs : s' = s
    · subst hs
      simp only [Function.update_self, hsem]
      exact (h.queue_nodup s').append (List.nodup_singleton t) (by simpa using hfresh s')
    · simpa [hs] using h.queue_nodup s'
  · intro s₁ s₂ u h₁ h₂
    rcases (hmem s₁ u).mp h₁ with h₁ | ⟨rfl, rfl⟩ <;> rcases (hmem s₂ u).mp h₂ with h₂ | ⟨hs, hu⟩
    · exact h.queue_unique s₁ s₂ u h₁ h₂
    · exact absurd (hu ▸ h₁) (hfresh s₁)
    · exact absurd h₂ (hfresh s₂)
    · exact hs.symm
  · intro u
    simp only [hmem]
    by_cases hu : u = t
    · subst hu
      simp [hfinished]
    · simpa [hu] using h.waiting u
  · intro u hf
    by_cases hu : u = t
    · simp [hu]
    · simpa [hu] using h.finished u hf

theorem finish (h : Books k) (ht : k.status t = .running) :
    Books { k with finished := Function.update k.finished t true,
                   status := Function.update k.status t .blocked } := by
  refine ⟨h.ready_nodup, ?_, h.queue_nodup, h.queue_unique, ?_, ?_⟩
  · intro u
    by_cases hu : u = t
    · subst hu
      simp [h.notMem_ready (t := u) (by simp [ht])]
    · simpa [hu] using h.ready u
  · intro u
    by_cases hu : u = t
    · subst hu
      simp [h.notMem_queue (t := u) (by simp [ht])]
    · simpa [hu] using h.waiting u
  · intro u hf
    by_cases hu : u = t
    · simp [hu]
    · simpa [hu] using h.finished u (by simpa [hu] using hf)

end Books

end Kernel

def Frame.cold : Frame → Bool
  | .setLevel _ | .oneTick | .restoreStatus _ | .yield => true
  | _ => false

/-- The rest of a stack: calls that interrupts are not needed off for, under `P` or not. -/
inductive Body : List Frame → Prop
  | code {st : List Frame} (h : ∀ f ∈ st, f.cold = true) : Body st
  | p {st : List Frame} (s : SemId) (h : ∀ f ∈ st, f.cold = true) : Body (.pLoop s :: st)

/-- The stack of a thread that is not running, or has just been switched to. -/
inductive Suspended : List Frame → Prop
  | begin : Suspended [.begin]
  | switched {st : List Frame} (h : Body st) : Suspended (.afterSwitch :: st)

/-- The place of the current thread: its stack with the interrupt level, `toBeDestroyed`,
whether the thread is RUNNING and whether it has finished. -/
inductive Place : List Frame → IntStatus → Option ThreadId → Bool → Bool → Prop
  | code {st : List Frame} {level : IntStatus} (h : ∀ f ∈ st, f.cold = true) :
    Place st level none true false
  | p {st : List Frame} (s : SemId) (h : ∀ f ∈ st, f.cold = true) :
    Place (.pLoop s :: st) .intOff none true false
  | tick {st : List Frame} (old : MachineStatus) (h : ∀ f ∈ st, f.cold = true) :
    Place (.inOneTick old :: st) .intOff none true false
  | switched {st : List Frame} {doomed : Option ThreadId} (h : Suspended st) :
    Place st .intOff doomed true false
  | sleeping {st : List Frame} {finishing : Bool} (h : Body st) :
    Place (.sleepLoop finishing :: st) .intOff none false finishing
  | idling {st : List Frame} {finishing : Bool} (fired : Bool) (h : Body st) :
    Place (.inIdle fired :: .sleepLoop finishing :: st) .intOff none false finishing

namespace Kernel

/-- The invariant of the kernel. -/
structure Inv (k : Kernel) : Prop where
  books : Books k
  running : ∀ t, k.status t = .running → t = k.currentThread
  created : k.status k.currentThread ≠ .justCreated
  doomed : ∀ t, k.toBeDestroyed = some t → t ≠ k.currentThread
  suspended : ∀ t, t ≠ k.currentThread → k.status t ≠ .justCreated → k.finished t = false →
    Suspended (k.stack t)
  place : Place (k.stack k.currentThread) k.level k.toBeDestroyed
    (decide (k.status k.currentThread = .running)) (k.finished k.currentThread)
  inHandler : k.inHandler = false

theorem Inv.init (p : ThreadId → Int) (n : SemId → Nat) : Inv (.new p n) := by
  have hbooks : Books (.new p n) := by
    refine ⟨List.nodup_nil, ?_, fun _ => List.nodup_nil, ?_, ?_, ?_⟩
    · intro t
      by_cases ht : t = 0 <;> simp [new, ht]
    · intro s s' t h
      simp [new, Semaphore.new] at h
    · intro t
      by_cases ht : t = 0 <;> simp [new, Semaphore.new, ht]
    · intro t h
      simp [new] at h
  refine ⟨hbooks, ?_, ?_, ?_, ?_, ?_, rfl⟩
  · intro t ht
    by_contra hne
    simp [new, show t ≠ 0 from hne] at ht
  · simp [new]
  · intro t ht
    simp [new] at ht
  · intro t ht hs
    have ht' : t ≠ 0 := ht
    simp [new, ht'] at hs
  · have hplace : Place [] .intOff none true false := .code (by simp)
    simpa [new] using hplace

section

variable {k : Kernel}

/-- A step that keeps the books and the statuses and only rewrites the stack of the current
thread and the variables of the interrupt hardware. -/
theorem Inv.control (h : Inv k) {k' : Kernel} {st : List Frame} {running finished : Bool}
    (hbooks : k'.readyList = k.readyList ∧ k'.status = k.status ∧ k'.finished = k.finished ∧
      ∀ s, (k'.semaphore s).queue = (k.semaphore s).queue)
    (hcurrent : k'.currentThread = k.currentThread)
    (hstack : k'.stack = Function.update k.stack k.currentThread st)
    (hdoomed : ∀ t, k'.toBeDestroyed = some t → t ≠ k.currentThread)
    (hrunning : decide (k.status k.currentThread = .running) = running)
    (hfinished : k.finished k.currentThread = finished)
    (hplace : Place st k'.level k'.toBeDestroyed running finished)
    (hhandler : k'.inHandler = false) : Inv k' := by
  obtain ⟨hready, hstatus, hfin, hqueue⟩ := hbooks
  refine ⟨h.books.congr hready hstatus hfin hqueue, ?_, ?_, ?_, ?_, ?_, hhandler⟩
  · simpa only [hstatus, hcurrent] using h.running
  · simpa only [hstatus, hcurrent] using h.created
  · simpa only [hcurrent] using hdoomed
  · intro t ht hs hf
    rw [hcurrent] at ht
    rw [hstack, Function.update_of_ne ht]
    exact h.suspended t ht (hstatus ▸ hs) (hfin ▸ hf)
  · rw [hcurrent, hstack, Function.update_self, hstatus, hfin, hrunning, hfinished]
    exact hplace

/-- `V` with interrupts off wakes the first waiter, who may be the current thread idling in
`Sleep`, and leaves the control state alone. -/
theorem Inv.v (h : Inv k) (hl : k.level = .intOff) (s : SemId) :
    ∃ k', k.v s = some k' ∧ Inv k' ∧ k'.stack = k.stack ∧
      k'.currentThread = k.currentThread ∧ k'.level = k.level := by
  unfold Kernel.v
  rcases Semaphore.v_cases (k.semaphore s) with ⟨hq, hv⟩ | ⟨t, queue, hq, hv⟩
  · rw [hv]
    refine ⟨_, rfl, ?_, rfl, rfl, rfl⟩
    refine h.control ⟨rfl, rfl, rfl, ?_⟩ rfl ?_ h.doomed rfl rfl h.place h.inHandler
    · intro s'
      by_cases hs : s' = s
      · subst hs; simp
      · simp [hs]
    · exact (Function.update_eq_self _ _).symm
  · rw [hv]
    have hblocked : k.status t = .blocked ∧ k.finished t = false :=
      (h.books.waiting t).mp ⟨s, by simp [hq]⟩
    have hready : t ∉ k.readyList := h.books.notMem_ready (by simp [hblocked.1])
    refine ⟨_, readyToRun_eq hl hready, ?_, rfl, rfl, rfl⟩
    refine ⟨h.books.wake hq rfl, ?_, ?_, h.doomed, ?_, ?_, h.inHandler⟩
    · intro u hu
      by_cases hut : u = t
      · simp [makeReady, hut] at hu
      · exact h.running u (by simpa [makeReady, hut] using hu)
    · by_cases hc : k.currentThread = t
      · simp [makeReady, hc]
      · simpa [makeReady, hc] using h.created
    · intro u hu hs hf
      by_cases hut : u = t
      · subst hut
        exact h.suspended u hu (by simp [hblocked.1]) hf
      · exact h.suspended u hu (by simpa [makeReady, hut] using hs) hf
    · by_cases hc : k.currentThread = t
      · have hp := h.place
        rw [hc, hblocked.1] at hp
        simpa [makeReady, hc] using hp
      · simpa [makeReady, hc] using h.place

private theorem Inv.dispatch {next : ThreadId} {rest : List ThreadId} {finishing : Bool}
    (hbooks : Books k) (hq : k.readyList = next :: rest) (hnone : ∀ t, k.status t ≠ .running)
    (hlevel : k.level = .intOff) (hdoomed : k.toBeDestroyed = none)
    (hhandler : k.inHandler = false)
    (hsuspended : ∀ t, t ≠ k.currentThread → k.status t ≠ .justCreated →
      k.finished t = false → Suspended (k.stack t))
    (hbody : k.finished k.currentThread = false → Body (k.stack k.currentThread))
    (hfinishing : finishing = true → k.finished k.currentThread = true) :
    Inv ({ k with readyList := rest }.switchTo next finishing) := by
  have hready : k.status next = .ready := (hbooks.ready next).mp (by simp [hq])
  have hunfinished : k.finished next = false := hbooks.unfinished (by simp [hready])
  refine ⟨?_, ?_, ?_, ?_, ?_, ?_, hhandler⟩
  · exact (hbooks.dispatch hq).congr rfl rfl rfl fun _ => rfl
  · intro t ht
    by_contra hne
    have hne' : t ≠ next := hne
    exact hnone t (by simpa [switchTo, push, hne'] using ht)
  · simp [switchTo, push]
  · intro t ht he
    cases finishing with
    | false => simp [switchTo, push, hdoomed] at ht
    | true =>
      -- a finished thread is not in the ready list
      have ht' : k.currentThread = t := by simpa [switchTo, push] using ht
      have he' : t = next := he
      have hf := hfinishing rfl
      rw [ht', he', hunfinished] at hf
      contradiction
  · intro t ht hs hf
    have hne : t ≠ next := ht
    by_cases hc : t = k.currentThread
    · subst hc
      simpa [switchTo, push] using Suspended.switched (hbody hf)
    · have hs' : k.status t ≠ .justCreated := by simpa [switchTo, push, hne] using hs
      simpa [switchTo, push, hc] using hsuspended t hc hs' hf
  · have hstack : Suspended ((k.push [.afterSwitch]).stack next) := by
      by_cases hc : next = k.currentThread
      · subst hc
        simpa [push] using Suspended.switched (hbody hunfinished)
      · simpa [push, hc] using hsuspended next hc (by simp [hready]) hunfinished
    have hplace : ∀ d, Place ((k.push [.afterSwitch]).stack next) .intOff d true false :=
      fun _ => .switched hstack
    simpa [switchTo, push, hlevel, hunfinished] using hplace _


/-- The current thread runs its own code, with cold frames `st` on its stack. -/
structure AtCode (k : Kernel) (st : List Frame) : Prop where
  stack : k.stack k.currentThread = st
  cold : ∀ f ∈ st, f.cold = true
  running : k.status k.currentThread = .running
  unfinished : k.finished k.currentThread = false
  doomed : k.toBeDestroyed = none

/-- `Yield` finds at least its own thread in the ready list. -/
theorem Inv.yield_eq (h : Inv k) (hrunning : k.status k.currentThread = .running) :
    ∃ next rest,
      ({ k with level := .intOff }.makeReady k.currentThread).readyList = next :: rest ∧
      k.yield = some ({ ({ k with level := .intOff }.makeReady k.currentThread).push
        [.setLevel k.level] with readyList := rest }.switchTo next false) := by
  have hready : k.currentThread ∉ k.readyList := h.books.notMem_ready (by simp [hrunning])
  let k₁ : Kernel := { k with level := .intOff }.makeReady k.currentThread
  have hk₁ : { k with level := .intOff }.readyToRun k.currentThread = some k₁ :=
    readyToRun_eq rfl hready
  have hself : k.currentThread ∈ k₁.readyList := by simp [k₁, makeReady]
  cases hq : k₁.readyList with
  | nil => simp [hq] at hself
  | cons next rest =>
    have hfind : k₁.findNextToRun = some (some next, { k₁ with readyList := rest }) := by
      simp only [findNextToRun, hq]
      rfl
    refine ⟨next, rest, rfl, ?_⟩
    simp only [Kernel.yield, hk₁, hfind, Option.bind_eq_bind, Option.bind_some]
    exact run_eq rfl (by simp)

theorem Inv.yield (h : Inv k) {st : List Frame} (hc : AtCode k st) :
    ∃ k', k.yield = some k' ∧ Inv k' := by
  obtain ⟨next, rest, hq, hyield⟩ := h.yield_eq hc.running
  refine ⟨_, hyield, ?_⟩
  have hbooks : Books ({ k with level := .intOff }.makeReady k.currentThread) :=
    (h.books.makeReady (t := k.currentThread) (by simp [hc.running])
      (by simp [hc.running])).congr rfl rfl rfl fun _ => rfl
  refine Inv.dispatch (hbooks.congr rfl rfl rfl fun _ => rfl) hq ?_ rfl hc.doomed h.inHandler
    ?_ ?_ (by simp)
  · intro t ht
    by_cases he : t = k.currentThread
    · simp [makeReady, push, he] at ht
    · exact he (h.running t (by simpa [makeReady, push, he] using ht))
  · intro t ht hs hf
    have ht' : t ≠ k.currentThread := ht
    simpa [makeReady, push, ht'] using
      h.suspended t ht' (by simpa [makeReady, push, ht'] using hs) hf
  · intro _
    have hbody : Body (.setLevel k.level :: st) := .code (by
      intro f hf
      rcases List.mem_cons.mp hf with rfl | hf
      · rfl
      · exact hc.cold f hf)
    simpa [makeReady, push, hc.stack] using hbody

/-- The loop test of `Sleep`: idle, or switch to the head of the ready list. -/
theorem Inv.sleepLoop (h : Inv k) {st : List Frame} {finishing : Bool} (hbody : Body st)
    (hlevel : k.level = .intOff) (hdoomed : k.toBeDestroyed = none)
    (hstatus : k.status k.currentThread ≠ .running)
    (hfinished : k.finished k.currentThread = finishing) :
    ∃ k', { k with stack := Function.update k.stack k.currentThread st }.sleepLoop finishing =
      some k' ∧ Inv k' := by
  let k₀ : Kernel := { k with stack := Function.update k.stack k.currentThread st }
  show ∃ k', k₀.sleepLoop finishing = some k' ∧ Inv k'
  cases hq : k.readyList with
  | nil =>
    have hfind : k₀.findNextToRun = some (none, k₀) := by
      simp [findNextToRun, k₀, hlevel, hq]
    refine ⟨_, by simp only [Kernel.sleepLoop, hfind, Option.bind_eq_bind, Option.bind_some]; rfl, ?_⟩
    have hplace : Place (.inIdle false :: .sleepLoop finishing :: st) .intOff none false
      finishing := .idling false hbody
    refine h.control ⟨rfl, rfl, rfl, fun _ => rfl⟩ rfl ?_ h.doomed (decide_eq_false hstatus)
      hfinished (by simpa [push, k₀, hlevel, hdoomed] using hplace) h.inHandler
    simp [push, k₀]
  | cons next rest =>
    have hfind : k₀.findNextToRun = some (some next, { k₀ with readyList := rest }) := by
      simp [findNextToRun, k₀, hlevel, hq]
    refine ⟨{ k₀ with readyList := rest }.switchTo next finishing, ?_, ?_⟩
    · simp only [Kernel.sleepLoop, hfind, Option.bind_eq_bind, Option.bind_some]
      exact run_eq hlevel fun _ => hdoomed
    · have hbooks : Books k₀ := h.books.congr rfl rfl rfl fun _ => rfl
      refine Inv.dispatch hbooks hq ?_ hlevel hdoomed h.inHandler ?_ ?_ ?_
      · intro t ht
        exact hstatus (h.running t ht ▸ ht)
      · intro t ht hs hf
        have ht' : t ≠ k.currentThread := ht
        simpa [k₀, ht'] using h.suspended t ht' hs hf
      · intro _
        simpa [k₀] using hbody
      · intro hf
        exact hfinished.trans hf

/-- The loop test of `P` by a running thread. -/
theorem Inv.pLoop (h : Inv k) {st : List Frame} (hc : AtCode k st) (hlevel : k.level = .intOff)
    (s : SemId) : ∃ k', k.pLoop s = some k' ∧ Inv k' := by
  by_cases hv : (k.semaphore s).value = 0
  · have hfresh : k.currentThread ∉ (k.semaphore s).queue :=
      h.books.notMem_queue (by simp [hc.running]) s
    refine ⟨_, pLoop_blocked hv hfresh hlevel, ?_⟩
    refine ⟨?_, ?_, ?_, h.doomed, ?_, ?_, h.inHandler⟩
    · exact (h.books.block s { k.semaphore s with
        queue := (k.semaphore s).queue ++ [k.currentThread],
        woken := (k.semaphore s).woken.erase k.currentThread } hc.running rfl).congr
          rfl rfl rfl fun _ => rfl
    · intro t ht
      by_cases he : t = k.currentThread
      · exact he
      · exact h.running t (by simpa [he] using ht)
    · simp
    · intro t ht hs hf
      have ht' : t ≠ k.currentThread := ht
      simpa [ht'] using h.suspended t ht' (by simpa [ht'] using hs) hf
    · have hplace : Place (.sleepLoop false :: .pLoop s :: st) .intOff none false false :=
        .sleeping (.p s hc.cold)
      simpa [hc.stack, hlevel, hc.doomed, hc.unfinished] using hplace
  · refine ⟨_, pLoop_taken hv, ?_⟩
    have hplace : Place st .intOff none true false := .code hc.cold
    refine h.control ⟨rfl, rfl, rfl, ?_⟩ rfl (Function.update_eq_self _ _).symm h.doomed
      (decide_eq_true hc.running) hc.unfinished ?_ h.inHandler
    · intro s'
      by_cases hs : s' = s
      · subst hs; simp
      · simp [hs]
    · simpa [hc.stack, hlevel, hc.doomed] using hplace

theorem Inv.code (h : Inv k) {st : List Frame} (hc : AtCode k st) {k' : Kernel}
    (st' : List Frame) (hcold : ∀ f ∈ st', f.cold = true)
    (hbooks : k'.readyList = k.readyList ∧ k'.status = k.status ∧ k'.finished = k.finished ∧
      ∀ s, (k'.semaphore s).queue = (k.semaphore s).queue)
    (hcontrol : k'.currentThread = k.currentThread ∧ k'.toBeDestroyed = k.toBeDestroyed ∧
      k'.inHandler = k.inHandler)
    (hstack : k'.stack = Function.update k.stack k.currentThread st') : Inv k' := by
  obtain ⟨hcurrent, hdoomed, hhandler⟩ := hcontrol
  have hnone : k'.toBeDestroyed = none := hdoomed.trans hc.doomed
  have hplace : Place st' k'.level none true false := .code hcold
  refine h.control hbooks hcurrent hstack ?_ (decide_eq_true hc.running) hc.unfinished
    (hnone ▸ hplace) (hhandler.trans h.inHandler)
  intro t ht
  simp [hnone] at ht

theorem Inv.setLevel (h : Inv k) {st : List Frame} (hc : AtCode k st) (now : IntStatus) :
    ∃ k', k.setLevel now = some k' ∧ Inv k' := by
  unfold Kernel.setLevel
  rw [if_pos (Or.inr h.inHandler)]
  dsimp only
  split
  · refine ⟨_, rfl, h.code hc (.oneTick :: st) ?_ ⟨rfl, rfl, rfl, fun _ => rfl⟩
      ⟨rfl, rfl, rfl⟩ ?_⟩
    · simpa [Frame.cold] using hc.cold
    · simp [push, hc.stack]
  · exact ⟨_, rfl, h.code hc st hc.cold ⟨rfl, rfl, rfl, fun _ => rfl⟩ ⟨rfl, rfl, rfl⟩
      (by simp [← hc.stack])⟩

theorem Inv.atCode (h : Inv k) {st : List Frame} (hst : k.stack k.currentThread = st)
    (hhead : ∀ f ∈ st.head?, f.cold = true) : AtCode k st := by
  have hp := h.place
  rw [hst] at hp
  generalize hl : k.level = level at hp
  generalize hd : k.toBeDestroyed = d at hp
  generalize hr : decide (k.status k.currentThread = .running) = r at hp
  generalize hf : k.finished k.currentThread = f at hp
  cases hp with
  | code hcold => exact ⟨hst, hcold, of_decide_eq_true hr, hf, hd⟩
  | p s _ => simp [Frame.cold] at hhead
  | tick old _ => simp [Frame.cold] at hhead
  | switched hs => cases hs <;> simp [Frame.cold] at hhead
  | sleeping _ => simp [Frame.cold] at hhead
  | idling b _ => simp [Frame.cold] at hhead

theorem Inv.fork (h : Inv k) (hc : AtCode k []) {t : ThreadId}
    (ht : k.status t = .justCreated) : ∃ k', k.call (.fork t) = some k' ∧ Inv k' := by
  have hne : t ≠ k.currentThread := by
    rintro rfl
    exact h.created ht
  let k₁ : Kernel := { k with level := .intOff, stack := Function.update k.stack t [.begin] }
  have hready : t ∉ k₁.readyList := h.books.notMem_ready (by simp [ht])
  have hk₁ : k₁.readyToRun t = some (k₁.makeReady t) := readyToRun_eq rfl hready
  refine ⟨(k₁.makeReady t).push [.setLevel k.level], by
    simp only [Kernel.call, k₁, Option.bind_eq_bind] at hk₁ ⊢
    rw [hk₁]
    rfl, ?_⟩
  refine ⟨?_, ?_, ?_, h.doomed, ?_, ?_, h.inHandler⟩
  · exact (h.books.makeReady (t := t) (by simp [ht]) (by simp [ht])).congr rfl rfl rfl
      fun _ => rfl
  · intro u hu
    by_cases he : u = t
    · simp [push, makeReady, he] at hu
    · exact h.running u (by simpa [push, makeReady, k₁, he] using hu)
  · simpa [push, makeReady, k₁, Ne.symm hne] using h.created
  · intro u hu hs hf
    have hu' : u ≠ k.currentThread := hu
    by_cases he : u = t
    · subst he
      simpa [push, makeReady, k₁, hu'] using Suspended.begin
    · have hs' : k.status u ≠ .justCreated := by simpa [push, makeReady, k₁, he] using hs
      simpa [push, makeReady, k₁, hu', he] using h.suspended u hu' hs' hf
  · have hplace : Place [.setLevel k.level] .intOff none true false := .code (by simp [Frame.cold])
    simpa [push, makeReady, k₁, Ne.symm hne, hc.stack, hc.running, hc.doomed,
      hc.unfinished] using hplace

theorem Inv.finish (h : Inv k) (hc : AtCode k []) :
    ∃ k', k.call .finish = some k' ∧ Inv k' := by
  refine ⟨_, rfl, ?_, ?_, ?_, h.doomed, ?_, ?_, h.inHandler⟩
  · exact (h.books.finish hc.running).congr rfl rfl rfl fun _ => rfl
  · intro t ht
    by_cases he : t = k.currentThread
    · exact he
    · exact h.running t (by simpa [push, he] using ht)
  · simp [push]
  · intro t ht hs hf
    have ht' : t ≠ k.currentThread := ht
    simpa [push, ht'] using
      h.suspended t ht' (by simpa [push, ht'] using hs) (by simpa [push, ht'] using hf)
  · have hplace : Place [.sleepLoop true] .intOff none false true :=
      .sleeping (.code (by simp))
    simpa [push, hc.stack, hc.doomed] using hplace

theorem Inv.call (h : Inv k) {op : Op} (he : k.enabled (.call op)) :
    ∃ k', k.call op = some k' ∧ Inv k' := by
  have hempty : k.stack k.currentThread = [] := by
    cases op <;> first | exact he.2 | exact he.2.1
  have hc : AtCode k [] := h.atCode hempty (by simp)
  cases op with
  | fork t => exact h.fork hc he.2.2
  | yield =>
    exact ⟨_, rfl, h.code hc [.yield] (by simp [Frame.cold]) ⟨rfl, rfl, rfl, fun _ => rfl⟩
      ⟨rfl, rfl, rfl⟩ (by simp [push, hempty])⟩
  | finish => exact h.finish hc
  | p s =>
    refine ⟨_, rfl, ?_⟩
    have hplace : Place [.pLoop s, .setLevel k.level] .intOff none true false :=
      .p s (by simp [Frame.cold])
    refine h.control ⟨rfl, rfl, rfl, fun _ => rfl⟩ rfl ?_ h.doomed (decide_eq_true hc.running)
      hc.unfinished (by simpa [push, hc.doomed] using hplace) h.inHandler
    simp [push, hempty]
  | v s =>
    have hoff : Inv { k with level := .intOff } :=
      h.code hc [] (by simp) ⟨rfl, rfl, rfl, fun _ => rfl⟩ ⟨rfl, rfl, rfl⟩
        (by simp [← hempty])
    obtain ⟨k₁, hv, hk₁, hstack, hcurrent, -⟩ := hoff.v rfl s
    have hempty₁ : k₁.stack k₁.currentThread = [] := by rw [hstack, hcurrent, hempty]
    refine ⟨k₁.push [.setLevel k.level], by simp only [Kernel.call, hv, Option.bind_eq_bind,
      Option.bind_some], ?_⟩
    exact hk₁.code (hk₁.atCode hempty₁ (by simp)) [.setLevel k.level] (by simp [Frame.cold])
      ⟨rfl, rfl, rfl, fun _ => rfl⟩ ⟨rfl, rfl, rfl⟩ (by simp [push, hempty₁])
  | setLevel now =>
    exact ⟨_, rfl, h.code hc [.setLevel now] (by simp [Frame.cold])
      ⟨rfl, rfl, rfl, fun _ => rfl⟩ ⟨rfl, rfl, rfl⟩ (by simp [push, hempty])⟩
  | oneTick =>
    exact ⟨_, rfl, h.code hc [.oneTick] (by simp [Frame.cold])
      ⟨rfl, rfl, rfl, fun _ => rfl⟩ ⟨rfl, rfl, rfl⟩ (by simp [push, hempty])⟩
  | setStatus st =>
    exact ⟨_, rfl, h.code hc [] (by simp) ⟨rfl, rfl, rfl, fun _ => rfl⟩ ⟨rfl, rfl, rfl⟩
      (by simp [← hempty])⟩

theorem Inv.pop (h : Inv k) {st : List Frame} (hcold : ∀ f ∈ st, f.cold = true)
    (hrunning : k.status k.currentThread = .running)
    (hunfinished : k.finished k.currentThread = false) (hdoomed : k.toBeDestroyed = none) :
    Inv { k with stack := Function.update k.stack k.currentThread st } := by
  have hplace : Place st k.level none true false := .code hcold
  exact h.control ⟨rfl, rfl, rfl, fun _ => rfl⟩ rfl rfl h.doomed (decide_eq_true hrunning)
    hunfinished (by simpa [hdoomed] using hplace) h.inHandler

/-- Back from `SWITCH`, or in `Begin`: the thread that has finished is deleted. -/
theorem Inv.checkToBeDestroyed (h : Inv k) (hrunning : k.status k.currentThread = .running)
    (hunfinished : k.finished k.currentThread = false) {st : List Frame}
    (hplace : Place st k.level none true false) :
    ∃ k', { k with stack := Function.update k.stack k.currentThread st }.checkToBeDestroyed =
      some k' ∧ Inv k' ∧ k'.currentThread = k.currentThread ∧ k'.stack k.currentThread = st := by
  unfold Kernel.checkToBeDestroyed
  cases hd : k.toBeDestroyed with
  | none =>
    refine ⟨_, rfl, ?_, rfl, by simp⟩
    exact h.control ⟨rfl, rfl, rfl, fun _ => rfl⟩ rfl rfl (by simp) (decide_eq_true hrunning)
      hunfinished hplace h.inHandler
  | some t =>
    dsimp only
    rw [if_neg (h.doomed t hd)]
    refine ⟨_, rfl, ?_, rfl, by simp⟩
    exact h.control ⟨rfl, rfl, rfl, fun _ => rfl⟩ rfl rfl (by simp) (decide_eq_true hrunning)
      hunfinished hplace h.inHandler

theorem Inv.resume (h : Inv k) {f : Frame} {st : List Frame} {level : IntStatus}
    {d : Option ThreadId} {r fin : Bool} (hp : Place (f :: st) level d r fin)
    (hl : k.level = level) (hd : k.toBeDestroyed = d)
    (hr : decide (k.status k.currentThread = .running) = r)
    (hf : k.finished k.currentThread = fin) :
    ∃ k', { k with stack := Function.update k.stack k.currentThread st }.resume f = some k' ∧
      Inv k' := by
  cases hp with
  | code hcold =>
    have hrunning := of_decide_eq_true hr
    have hcold' : ∀ g ∈ st, g.cold = true := fun g hg => hcold g (List.mem_cons_of_mem _ hg)
    have h₀ := h.pop hcold' hrunning hf hd
    have hc₀ : AtCode { k with stack := Function.update k.stack k.currentThread st } st :=
      ⟨by simp, hcold', hrunning, hf, hd⟩
    cases f with
    | setLevel now => exact h₀.setLevel hc₀ now
    | oneTick =>
      have hplace : Place (.inOneTick k.machineStatus :: st) .intOff none true false :=
        .tick _ hcold'
      refine ⟨_, rfl, ?_⟩
      refine h.control ⟨rfl, rfl, rfl, fun _ => rfl⟩ rfl ?_ h.doomed hr hf
        (by simpa [push, hd] using hplace) h.inHandler
      simp [push]
    | restoreStatus old =>
      exact ⟨_, rfl, h₀.code hc₀ st hcold' ⟨rfl, rfl, rfl, fun _ => rfl⟩ ⟨rfl, rfl, rfl⟩
        (by simp)⟩
    | yield => exact h₀.yield hc₀
    | inOneTick old => simp [Frame.cold] at hcold
    | pLoop s => simp [Frame.cold] at hcold
    | sleepLoop b => simp [Frame.cold] at hcold
    | inIdle b => simp [Frame.cold] at hcold
    | afterSwitch => simp [Frame.cold] at hcold
    | begin => simp [Frame.cold] at hcold
  | p s hcold =>
    have hrunning := of_decide_eq_true hr
    have hc₀ : AtCode { k with stack := Function.update k.stack k.currentThread st } st :=
      ⟨by simp, hcold, hrunning, hf, hd⟩
    exact (h.pop hcold hrunning hf hd).pLoop hc₀ hl s
  | tick old hcold =>
    have hrunning := of_decide_eq_true hr
    have h₀ := h.pop hcold hrunning hf hd
    have hc₀ : AtCode { k with stack := Function.update k.stack k.currentThread st } st :=
      ⟨by simp, hcold, hrunning, hf, hd⟩
    refine ⟨_, rfl, ?_⟩
    unfold endOneTick
    split
    · refine h₀.code hc₀ (.yield :: .restoreStatus old :: st) ?_ ⟨rfl, rfl, rfl, fun _ => rfl⟩
        ⟨rfl, rfl, rfl⟩ (by simp [push])
      simpa [Frame.cold] using hcold
    · exact h₀.code hc₀ st hcold ⟨rfl, rfl, rfl, fun _ => rfl⟩ ⟨rfl, rfl, rfl⟩ (by simp)
  | switched hs =>
    have hrunning := of_decide_eq_true hr
    cases hs with
    | begin =>
      have hplace : Place [] k.level none true false := .code (by simp)
      obtain ⟨k₁, hk₁, hinv, hcurrent, hstack⟩ := h.checkToBeDestroyed hrunning hf hplace
      have hempty : k₁.stack k₁.currentThread = [] := by rw [hcurrent, hstack]
      refine ⟨k₁.push [.setLevel .intOn], by simp only [Kernel.resume, hk₁, Option.bind_eq_bind,
        Option.bind_some], ?_⟩
      exact hinv.code (hinv.atCode hempty (by simp)) [.setLevel .intOn] (by simp [Frame.cold])
        ⟨rfl, rfl, rfl, fun _ => rfl⟩ ⟨rfl, rfl, rfl⟩ (by simp [push, hempty])
    | switched hbody =>
      have hplace : Place st k.level none true false := by
        cases hbody with
        | code hcold => exact .code hcold
        | p s hcold => exact hl ▸ .p s hcold
      obtain ⟨k₁, hk₁, hinv, -, -⟩ := h.checkToBeDestroyed hrunning hf hplace
      exact ⟨k₁, (if_pos hl).trans hk₁, hinv⟩
  | sleeping hbody => exact h.sleepLoop hbody hl hd (of_decide_eq_false hr) hf
  | idling fired hbody =>
    have hplace : Place _ .intOff none false fin := .sleeping hbody
    cases fired with
    | true =>
      exact ⟨_, rfl, h.control ⟨rfl, rfl, rfl, fun _ => rfl⟩ rfl rfl h.doomed hr hf
        (by simpa [hl, hd] using hplace) h.inHandler⟩
    | false =>
      exact ⟨_, rfl, h.control ⟨rfl, rfl, rfl, fun _ => rfl⟩ rfl rfl h.doomed hr hf
        (by simpa [hl, hd] using hplace) h.inHandler⟩

private theorem v_inHandler (b : Bool) (s : SemId) :
    { k with inHandler := b }.v s = (k.v s).map fun k' => { k' with inHandler := b } := by
  unfold Kernel.v
  rcases Semaphore.v_cases (k.semaphore s) with ⟨-, hv⟩ | ⟨t, queue, -, hv⟩
  · rw [hv]
    rfl
  · rw [hv]
    simp only [readyToRun]
    split
    · have hcompare : ∀ sems, { k with inHandler := b, semaphore := sems }.compare =
          { k with semaphore := sems }.compare := fun _ => rfl
      rw [hcompare]
      cases sortedListInsert _ k.readyList t <;> rfl
    · rfl

private theorem place_fired {st : List Frame} {level : IntStatus} {d : Option ThreadId}
    {r fin : Bool} (h : Place st level d r fin) (hi : interruptible st = true) :
    level = .intOff ∧ Place (fired st) level d r fin := by
  cases h with
  | code hcold =>
    cases st with
    | nil => simp [interruptible] at hi
    | cons f rest => cases f <;> simp_all [interruptible, Frame.cold]
  | p s hcold => simp [interruptible] at hi
  | tick old hcold => exact ⟨rfl, .tick old hcold⟩
  | switched hs => cases hs <;> simp [interruptible] at hi
  | sleeping hbody => simp [interruptible] at hi
  | idling b hbody => exact ⟨rfl, .idling true hbody⟩

private theorem Inv.fire (h : Inv k) (hi : interruptible (k.stack k.currentThread) = true)
    {k' : Kernel}
    (hbooks : k'.readyList = k.readyList ∧ k'.status = k.status ∧ k'.finished = k.finished ∧
      ∀ s, (k'.semaphore s).queue = (k.semaphore s).queue)
    (hcontrol : k'.currentThread = k.currentThread ∧ k'.toBeDestroyed = k.toBeDestroyed ∧
      k'.level = k.level ∧ k'.inHandler = false)
    (hstack : k'.stack = Function.update k.stack k.currentThread
      (fired (k.stack k.currentThread))) : Inv k' := by
  obtain ⟨hcurrent, hdoomed, hlevel, hhandler⟩ := hcontrol
  have hplace := (place_fired h.place hi).2
  exact h.control hbooks hcurrent hstack (hdoomed ▸ h.doomed) rfl rfl
    (by rw [hdoomed, hlevel]; exact hplace) hhandler

/-- A handler runs on the stack of a thread inside `CheckIfDue`, with interrupts off. -/
theorem Inv.handler (h : Inv k) {a : HandlerAction} (he : k.enabled (.handler a)) :
    ∃ k', k.exec (.handler a) = some k' ∧ Inv k' := by
  have hi : interruptible (k.stack k.currentThread) = true := by
    cases a <;> first | exact he.2 | exact he.2.1
  have hlevel : k.level = .intOff := (place_fired h.place hi).1
  cases a with
  | p s =>
    refine ⟨_, by simp [exec, handle, Kernel.setLevel, hlevel]; rfl, ?_⟩
    refine h.fire hi ⟨rfl, rfl, rfl, ?_⟩ ⟨rfl, rfl, hlevel.symm, rfl⟩ rfl
    intro s'
    by_cases hs : s' = s
    · subst hs; simp [Semaphore.take]
    · simp [hs]
  | v s =>
    obtain ⟨k₁, hv, h₁, hstack, hcurrent, hlevel₁⟩ := h.v hlevel s
    have hoff : { k with inHandler := true, level := .intOff } = { k with inHandler := true } := by
      rw [← hlevel]
    have hv' : { k with inHandler := true, level := .intOff }.v s =
        some { k₁ with inHandler := true } := by
      rw [hoff, v_inHandler, hv]
      rfl
    refine ⟨_, by simp [exec, handle, hv', Kernel.setLevel, hlevel]; rfl, ?_⟩
    refine h₁.fire ?_ ⟨rfl, rfl, rfl, fun _ => rfl⟩ ⟨rfl, rfl, ?_, rfl⟩ rfl
    · rw [hstack, hcurrent]
      exact hi
    · rw [hlevel₁, hlevel]
  | alarm =>
    by_cases hm : k.machineStatus = .idleMode
    · refine ⟨_, by simp [exec, handle, hm]; rfl, ?_⟩
      exact h.fire hi ⟨rfl, rfl, rfl, fun _ => rfl⟩ ⟨rfl, rfl, rfl, rfl⟩ rfl
    · refine ⟨_, by simp [exec, handle, hm]; rfl, ?_⟩
      exact h.fire hi ⟨rfl, rfl, rfl, fun _ => rfl⟩ ⟨rfl, rfl, rfl, rfl⟩ rfl

theorem Inv.exec (h : Inv k) {e : Event} (he : k.enabled e) :
    ∃ k', k.exec e = some k' ∧ Inv k' := by
  cases e with
  | call op => exact h.call he
  | step =>
    cases hst : k.stack k.currentThread with
    | nil => exact absurd hst he.2
    | cons f st =>
      have hp := h.place
      rw [hst] at hp
      simpa only [Kernel.exec, hst] using h.resume hp rfl rfl rfl rfl
  | handler a => exact h.handler he

theorem inv_inductive (p : ThreadId → Int) (n : SemId → Nat) :
    (kernelSystem p n).Inductive Inv where
  init _ h := h ▸ Inv.init p n
  step k e k' h hs := by
    obtain ⟨k₁, hk₁, h₁⟩ := h.exec hs.1
    rw [hs.2] at hk₁
    exact Option.some.inj hk₁ ▸ h₁

/-- `SWITCH` has just handed the processor to this stack. -/
def switched : List Frame → Bool
  | .afterSwitch :: _ => true
  | .begin :: _ => true
  | _ => false

private theorem place_running {st : List Frame} {level : IntStatus} {d : Option ThreadId}
    {r fin : Bool} (h : Place st level d r fin) (hs : level = .intOn ∨ switched st = true) :
    r = true := by
  cases h with
  | code _ => rfl
  | p _ _ => rfl
  | tick _ _ => rfl
  | switched _ => rfl
  | sleeping _ => simp [switched] at hs
  | idling _ _ => simp [switched] at hs

end

end Kernel

/-- Whenever interrupts are enabled and at every context switch, exactly the current thread is
RUNNING, the ready list holds every READY thread once and nothing else, and every other forked
and unfinished thread is BLOCKED and in exactly one semaphore queue, once. No event of any run
fails an ASSERT. -/
theorem thread_conservation (p : ThreadId → Int) (n : SemId → Nat) {k : Kernel}
    (hr : (kernelSystem p n).Reachable k) :
    (k.level = .intOn ∨ Kernel.switched (k.stack k.currentThread) = true →
      (∀ t, k.status t = .running ↔ t = k.currentThread) ∧
      k.readyList.Nodup ∧ (∀ t, t ∈ k.readyList ↔ k.status t = .ready) ∧
      (∀ s, (k.semaphore s).queue.Nodup) ∧
      (∀ s, ∀ t ∈ (k.semaphore s).queue, k.status t = .blocked) ∧
      (∀ t, k.status t ≠ .justCreated → k.finished t = false → t ≠ k.currentThread →
        k.status t ≠ .ready → k.status t = .blocked ∧ ∃! s, t ∈ (k.semaphore s).queue)) ∧
    (∀ e, k.enabled e → (k.exec e).isSome) := by
  have h := (Kernel.inv_inductive p n).of_reachable hr
  constructor
  · intro hwhen
    have hcurrent : k.status k.currentThread = .running :=
      of_decide_eq_true (Kernel.place_running h.place hwhen)
    refine ⟨fun t => ⟨h.running t, fun ht => ht ▸ hcurrent⟩, h.books.ready_nodup, h.books.ready,
      h.books.queue_nodup, fun s t ht => ((h.books.waiting t).mp ⟨s, ht⟩).1, ?_⟩
    intro t hc hf hne hready
    have hblocked : k.status t = .blocked := by
      cases hs : k.status t with
      | justCreated => exact absurd hs hc
      | running => exact absurd (h.running t hs) hne
      | ready => exact absurd hs hready
      | blocked => rfl
    obtain ⟨s, hs⟩ := (h.books.waiting t).mpr ⟨hblocked, hf⟩
    exact ⟨hblocked, s, hs, fun s' hs' => h.books.queue_unique s' s t hs' hs⟩
  · intro e he
    obtain ⟨k', hk', -⟩ := h.exec he
    simp [hk']

private def forkAndEnable : List Event :=
  [.call (.fork 1), .step, .call (.setLevel .intOn), .step, .step, .step]

theorem thread_conservation_forked :
    ∃ k : Kernel, (kernelSystem (fun _ => 5) fun _ => 0).Reachable k ∧ k.level = .intOn ∧
      k.readyList = [1] ∧ ∀ t, k.status t = .running ↔ t = 0 := by
  have hrun : (forkAndEnable.foldlM Kernel.next (.new (fun _ => 5) fun _ => 0)).isSome := by
    decide
  let k := (forkAndEnable.foldlM Kernel.next (.new (fun _ => 5) fun _ => 0)).get hrun
  have hr : (kernelSystem (fun _ => 5) fun _ => 0).Reachable k :=
    .foldlM (fun _ _ _ => Kernel.next_step) forkAndEnable (.init rfl)
      (Option.some_get hrun).symm
  have hlevel : k.level = .intOn := rfl
  have hcurrent : k.currentThread = 0 := rfl
  have hrunning := ((thread_conservation _ _ hr).1 (Or.inl hlevel)).1
  exact ⟨k, hr, hlevel, rfl, hcurrent ▸ hrunning⟩

end Nachos

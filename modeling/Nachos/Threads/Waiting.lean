import Nachos.Framework.Refinement
import Nachos.Threads.Deletion

/-!
# Who waits for what

A thread that has called `P` and has not got its unit has a frame of `P` on its stack, whether it
sleeps or has been woken and not yet run. With it the atomic sections on one semaphore can be read
off the steps of the whole kernel, and what is known of a semaphore alone holds of every semaphore
of a run. `Idle` halts the machine only when every thread that has not finished waits for a unit
that nobody has released.
-/

namespace Nachos

open Framework

/-- The semaphore whose `P` has left a frame on the stack. -/
def awaited : List Frame → Option SemId
  | [] => none
  | .pLoop s :: _ => some s
  | _ :: rest => awaited rest

private theorem awaited_cold {st : List Frame} (h : ∀ f ∈ st, f.cold = true) :
    awaited st = none := by
  induction st with
  | nil => rfl
  | cons f rest ih =>
    have hf : f.cold = true := h f List.mem_cons_self
    have hrest : awaited rest = none := ih fun g hg => h g (List.mem_cons_of_mem _ hg)
    cases f with
    | pLoop s => cases hf
    | _ => exact hrest

private theorem awaited_fired (st : List Frame) : awaited (Kernel.fired st) = awaited st := by
  cases st with
  | nil => rfl
  | cons f rest => cases f <;> rfl

/-- The semaphore whose `P` or `V` an event calls. -/
def Event.uses : Event → Option SemId
  | .call (.p s) | .call (.v s) | .handler (.p s) | .handler (.v s) => some s
  | _ => none

/-- Asleep in `P`, or woken there and not yet back at the test. -/
def Semaphore.Holds (sem : Semaphore) (t : ThreadId) : Prop := t ∈ sem.queue ∨ t ∈ sem.woken

namespace Kernel

/-- The semaphore a thread waits for in `P`. -/
def waits (k : Kernel) (t : ThreadId) : Option SemId := awaited (k.stack t)

/-- A semaphore of the kernel by itself: the threads in its queue sleep. -/
def semState (k : Kernel) (s : SemId) : SemState :=
  { sem := k.semaphore s, asleep := fun t => decide (t ∈ (k.semaphore s).queue) }

/-- What an event does to the semaphores and to who waits for them. -/
inductive SemStep (k : Kernel) : Event → Kernel → Prop
  | quiet {e : Event} {k' : Kernel} (he : e.uses = none) (hsem : k'.semaphore = k.semaphore)
      (hwaits : k'.waits = k.waits) : SemStep k e k'
  /-- `P` is called -/
  | enter {k' : Kernel} (s : SemId) (hfree : k.waits k.currentThread = none)
      (hsem : k'.semaphore = k.semaphore)
      (hwaits : k'.waits = Function.update k.waits k.currentThread (some s)) :
      SemStep k (.call (.p s)) k'
  /-- `P` finds no unit -/
  | sleep {k' : Kernel} (s : SemId) (hin : k.waits k.currentThread = some s)
      (hvalue : (k.semaphore s).value = 0) (hqueue : ∀ u, k.currentThread ∉ (k.semaphore u).queue)
      (hsem : k'.semaphore = Function.update k.semaphore s { k.semaphore s with
        queue := (k.semaphore s).queue ++ [k.currentThread],
        woken := (k.semaphore s).woken.erase k.currentThread })
      (hwaits : k'.waits = k.waits) : SemStep k .step k'
  /-- `P` takes a unit -/
  | take {k' : Kernel} (s : SemId) (hin : k.waits k.currentThread = some s)
      (hvalue : (k.semaphore s).value ≠ 0) (hqueue : ∀ u, k.currentThread ∉ (k.semaphore u).queue)
      (hsem : k'.semaphore = Function.update k.semaphore s { k.semaphore s with
        value := (k.semaphore s).value - 1,
        woken := (k.semaphore s).woken.erase k.currentThread,
        decrements := (k.semaphore s).decrements + 1 })
      (hwaits : k'.waits = Function.update k.waits k.currentThread none) : SemStep k .step k'
  | wake {e : Event} {k' : Kernel} (s : SemId)
      (he : e = .call (.v s) ∨ e = .handler (.v s))
      (hsem : k'.semaphore = Function.update k.semaphore s (k.semaphore s).v.1)
      (hwaits : k'.waits = k.waits) : SemStep k e k'
  /-- `P` in a handler -/
  | handlerTake {k' : Kernel} (s : SemId) (hvalue : (k.semaphore s).value ≠ 0)
      (hsem : k'.semaphore = Function.update k.semaphore s (k.semaphore s).take)
      (hwaits : k'.waits = k.waits) : SemStep k (.handler (.p s)) k'

/-! ## What the routines do to the semaphores -/

section

variable {k k' : Kernel}

private theorem waits_of_stack {st : List Frame}
    (hstack : k'.stack = Function.update k.stack k.currentThread st) :
    k'.waits = Function.update k.waits k.currentThread (awaited st) := by
  funext t
  rw [waits, hstack]
  by_cases ht : t = k.currentThread
  · rw [ht, Function.update_self, Function.update_self]
  · rw [Function.update_of_ne ht, Function.update_of_ne ht]
    rfl

private theorem waits_kept {st : List Frame}
    (hstack : k'.stack = Function.update k.stack k.currentThread st)
    (hst : awaited st = k.waits k.currentThread) : k'.waits = k.waits := by
  rw [waits_of_stack hstack, hst, Function.update_eq_self]

private theorem readyToRun_semaphore {t : ThreadId} (h : k.readyToRun t = some k') :
    k'.semaphore = k.semaphore := by
  simp only [readyToRun] at h
  split at h
  next =>
    obtain ⟨readyList, -, hk⟩ := Option.bind_eq_some_iff.mp h
    obtain rfl := Option.some.inj hk
    rfl
  next => cases h

private theorem setLevel_semaphore {now : IntStatus} (h : k.setLevel now = some k') :
    k'.semaphore = k.semaphore ∧
      ∃ st, k'.stack = Function.update k.stack k.currentThread st ∧
        awaited st = k.waits k.currentThread := by
  simp only [Kernel.setLevel] at h
  split at h
  next =>
    obtain rfl := Option.some.inj h
    split
    next => exact ⟨rfl, _, rfl, rfl⟩
    next => exact ⟨rfl, _, (Function.update_eq_self _ _).symm, rfl⟩
  next => cases h

private theorem yield_semaphore (h : k.yield = some k') :
    k'.semaphore = k.semaphore ∧
      k'.stack = Function.update k.stack k.currentThread
        (.afterSwitch :: .setLevel k.level :: k.stack k.currentThread) := by
  simp only [Kernel.yield, Option.bind_eq_bind] at h
  obtain ⟨k₁, hready, h⟩ := Option.bind_eq_some_iff.mp h
  obtain ⟨⟨next, k₂⟩, hfind, h⟩ := Option.bind_eq_some_iff.mp h
  obtain ⟨-, hstack, -, hcurrent, -, -⟩ := readyToRun_some hready
  have hsem := readyToRun_semaphore hready
  obtain ⟨-, readyList, rfl⟩ := findNextToRun_some hfind
  cases next with
  | none => cases h
  | some t =>
    obtain ⟨-, rfl⟩ := run_some h
    refine ⟨hsem, ?_⟩
    simp only [switchTo, push, hstack, hcurrent, Function.update_self, Function.update_idem,
      List.cons_append, List.nil_append]

private theorem sleepLoop_semaphore {finishing : Bool} (h : k.sleepLoop finishing = some k') :
    k'.semaphore = k.semaphore ∧
      ∃ st, k'.stack = Function.update k.stack k.currentThread st ∧
        awaited st = k.waits k.currentThread := by
  simp only [Kernel.sleepLoop, Option.bind_eq_bind] at h
  obtain ⟨⟨next, k₁⟩, hfind, h⟩ := Option.bind_eq_some_iff.mp h
  obtain ⟨-, readyList, rfl⟩ := findNextToRun_some hfind
  cases next with
  | none =>
    obtain rfl := Option.some.inj h
    exact ⟨rfl, _, rfl, rfl⟩
  | some t =>
    obtain ⟨-, rfl⟩ := run_some h
    exact ⟨rfl, _, rfl, rfl⟩

private theorem checkToBeDestroyed_semaphore (h : k.checkToBeDestroyed = some k') :
    k'.semaphore = k.semaphore := by
  simp only [checkToBeDestroyed] at h
  split at h
  next =>
    obtain rfl := Option.some.inj h
    rfl
  next =>
    split at h
    next => cases h
    next =>
      obtain rfl := Option.some.inj h
      rfl

private theorem v_semaphore {s : SemId} (h : k.v s = some k') :
    k'.semaphore = Function.update k.semaphore s (k.semaphore s).v.1 := by
  simp only [Kernel.v] at h
  split at h
  next sem hv =>
    obtain rfl := Option.some.inj h
    rw [hv]
  next sem t hv =>
    rw [readyToRun_semaphore h, hv]

private theorem Inv.pLoop_semStep (h : Inv k) {s : SemId} {st : List Frame}
    (hstack : k.stack k.currentThread = .pLoop s :: st) (hcold : ∀ f ∈ st, f.cold = true)
    (hrunning : k.status k.currentThread = .running) (hl : k.level = .intOff)
    (hk : { k with stack := Function.update k.stack k.currentThread st }.pLoop s = some k') :
    SemStep k .step k' := by
  let k₀ : Kernel := { k with stack := Function.update k.stack k.currentThread st }
  have hin : k.waits k.currentThread = some s := by rw [waits, hstack]; rfl
  have hqueue : ∀ u, k.currentThread ∉ (k.semaphore u).queue :=
    h.books.notMem_queue (by simp [hrunning])
  by_cases hv : (k.semaphore s).value = 0
  · have hblocked := pLoop_blocked (k := k₀) hv (hqueue s) hl
    obtain rfl := Option.some.inj (hk.symm.trans hblocked)
    refine .sleep s hin hv hqueue rfl ?_
    refine @waits_kept _ _ (.sleepLoop false :: .pLoop s :: st) ?_ hin.symm
    simp only [k₀, Function.update_self, Function.update_idem]
  · have htaken := pLoop_taken (k := k₀) (s := s) hv
    obtain rfl := Option.some.inj (hk.symm.trans htaken)
    refine .take s hin hv hqueue rfl ?_
    rw [waits_of_stack rfl, awaited_cold hcold]

/-- A step that pops the frame `f`, pushes frames and calls neither `P` nor `V`. -/
theorem SemStep.of_pop {f : Frame} {rest st : List Frame}
    (hstack : k.stack k.currentThread = f :: rest) (hf : ∀ s, f ≠ .pLoop s)
    (hsem : k'.semaphore = k.semaphore)
    (hst : k'.stack = Function.update (Function.update k.stack k.currentThread rest)
      k.currentThread st)
    (hrest : awaited st = awaited rest) : SemStep k .step k' := by
  rw [Function.update_idem] at hst
  refine .quiet rfl hsem (waits_kept hst ?_)
  rw [hrest, waits, hstack]
  cases f with
  | pLoop s => exact absurd rfl (hf s)
  | _ => rfl

private theorem Inv.step_semStep (h : Inv k) {f : Frame} {rest : List Frame}
    (hstack : k.stack k.currentThread = f :: rest)
    (hk : { k with stack := Function.update k.stack k.currentThread rest }.resume f = some k') :
    SemStep k .step k' := by
  let k₀ : Kernel := { k with stack := Function.update k.stack k.currentThread rest }
  have hk : k₀.resume f = some k' := hk
  have hrest : k₀.waits k.currentThread = awaited rest := by simp [waits, k₀]
  cases f with
  | setLevel now =>
    obtain ⟨hsem, st, hst, hwaits⟩ := setLevel_semaphore hk
    exact .of_pop hstack (by simp) hsem hst (hwaits.trans hrest)
  | oneTick =>
    obtain rfl := Option.some.inj hk
    exact .of_pop hstack (by simp) rfl rfl hrest
  | inOneTick old =>
    obtain rfl := Option.some.inj hk
    simp only [endOneTick]
    split
    next => exact .of_pop hstack (by simp) rfl rfl hrest
    next => exact .of_pop hstack (by simp) rfl (Function.update_eq_self _ _).symm hrest
  | restoreStatus old =>
    obtain rfl := Option.some.inj hk
    exact .of_pop hstack (by simp) rfl (Function.update_eq_self _ _).symm hrest
  | yield =>
    obtain ⟨hsem, hst⟩ := yield_semaphore hk
    exact .of_pop hstack (by simp) hsem hst hrest
  | pLoop s =>
    have hp := h.place
    rw [hstack] at hp
    generalize hl : k.level = level at hp
    generalize hd : k.toBeDestroyed = d at hp
    generalize hr : decide (k.status k.currentThread = .running) = r at hp
    generalize hf : k.finished k.currentThread = fin at hp
    cases hp with
    | code hcold => simp [Frame.cold] at hcold
    | p s hcold => exact h.pLoop_semStep hstack hcold (of_decide_eq_true hr) hl hk
    | switched hs => cases hs
  | sleepLoop finishing =>
    obtain ⟨hsem, st, hst, hwaits⟩ := sleepLoop_semaphore hk
    exact .of_pop hstack (by simp) hsem hst (hwaits.trans hrest)
  | inIdle fired =>
    have hsame : k'.semaphore = k.semaphore ∧ k'.stack = k₀.stack := by
      cases fired with
      | true =>
        obtain rfl := Option.some.inj hk
        exact ⟨rfl, rfl⟩
      | false =>
        obtain rfl := Option.some.inj hk
        exact ⟨rfl, rfl⟩
    exact .of_pop hstack (by simp) hsame.1
      (hsame.2.trans (Function.update_eq_self _ _).symm) hrest
  | afterSwitch =>
    simp only [Kernel.resume] at hk
    split at hk
    next =>
      obtain ⟨hst, -⟩ := checkToBeDestroyed_some hk
      have hsem : k'.semaphore = k₀.semaphore := checkToBeDestroyed_semaphore hk
      exact .of_pop hstack (by simp) hsem (hst.trans (Function.update_eq_self _ _).symm) hrest
    next => cases hk
  | begin =>
    simp only [Kernel.resume, Option.bind_eq_bind] at hk
    obtain ⟨k₁, hcheck, hk⟩ := Option.bind_eq_some_iff.mp hk
    obtain ⟨hst, -, hcurrent, -⟩ := checkToBeDestroyed_some hcheck
    have hsem : k₁.semaphore = k₀.semaphore := checkToBeDestroyed_semaphore hcheck
    obtain rfl := Option.some.inj hk
    have hpush : (k₁.push [.setLevel .intOn]).stack = Function.update k₀.stack k.currentThread
        (.setLevel .intOn :: k₀.stack k.currentThread) := by
      simp only [push, hst, hcurrent, k₀, List.cons_append, List.nil_append]
    exact .of_pop hstack (by simp) hsem hpush hrest

/-- A call that only pushes frames, none of them of `P`. -/
theorem SemStep.of_push {op : Op} (hop : (Event.call op).uses = none)
    (hempty : k.stack k.currentThread = []) {frames : List Frame} (hsem : k'.semaphore = k.semaphore)
    (hst : k'.stack = Function.update k.stack k.currentThread frames)
    (hframes : awaited frames = none) : SemStep k (.call op) k' := by
  refine .quiet hop hsem (waits_kept hst ?_)
  rw [hframes, waits, hempty]
  rfl

private theorem Inv.fork_semStep (h : Inv k) {t : ThreadId} (hempty : k.stack k.currentThread = [])
    (hnew : k.status t = .justCreated) (hfree : k.waits t = none)
    (hk : k.call (.fork t) = some k') : SemStep k (.call (.fork t)) k' := by
  simp only [Kernel.call, Option.bind_eq_bind] at hk
  obtain ⟨k₁, hready, hk⟩ := Option.bind_eq_some_iff.mp hk
  obtain ⟨-, hstack, -, hcurrent, -, -⟩ := readyToRun_some hready
  have hsem := readyToRun_semaphore hready
  obtain rfl := Option.some.inj hk
  have hne : k.currentThread ≠ t := by
    intro he
    exact h.created (he ▸ hnew)
  refine .quiet rfl hsem ?_
  funext u
  simp only [waits, push, hstack, hcurrent]
  by_cases hu : u = k.currentThread
  · simp [hu, hne, hempty, awaited]
  · rw [Function.update_of_ne hu]
    by_cases hut : u = t
    · rw [hut, Function.update_self]
      exact hfree.symm
    · rw [Function.update_of_ne hut]

private theorem Inv.call_semStep (h : Inv k)
    (hcreated : ∀ t, k.status t = .justCreated → k.waits t = none)
    {op : Op} (he : k.enabled (.call op)) (hk : k.call op = some k') :
    SemStep k (.call op) k' := by
  obtain ⟨-, hempty, hfork⟩ := Traced.enabled_call he
  have hfree : k.waits k.currentThread = none := by
    rw [waits, hempty]
    rfl
  cases op with
  | fork t => exact h.fork_semStep hempty (hfork t rfl) (hcreated t (hfork t rfl)) hk
  | yield =>
    obtain rfl := Option.some.inj hk
    exact .of_push rfl hempty rfl rfl (by rw [hempty]; rfl)
  | finish =>
    simp only [Kernel.call, Kernel.sleep, if_true] at hk
    obtain rfl := Option.some.inj hk
    exact .of_push rfl hempty rfl rfl (by rw [hempty]; rfl)
  | p s =>
    obtain rfl := Option.some.inj hk
    refine .enter s hfree rfl ?_
    exact @waits_of_stack k _ (.pLoop s :: .setLevel k.level :: _) rfl
  | v s =>
    simp only [Kernel.call, Option.bind_eq_bind] at hk
    obtain ⟨k₁, hv, hk⟩ := Option.bind_eq_some_iff.mp hk
    obtain ⟨hstack, -, hcurrent, -⟩ := Traced.v_some hv
    have hsem := v_semaphore hv
    obtain rfl := Option.some.inj hk
    refine .wake s (.inl rfl) hsem (@waits_kept _ _ [.setLevel k.level] ?_ hfree.symm)
    simp only [push, hstack, hcurrent, hempty, List.append_nil]
  | setLevel now =>
    obtain rfl := Option.some.inj hk
    exact .of_push rfl hempty rfl rfl (by rw [hempty]; rfl)
  | oneTick =>
    obtain rfl := Option.some.inj hk
    exact .of_push rfl hempty rfl rfl (by rw [hempty]; rfl)
  | setStatus st =>
    obtain rfl := Option.some.inj hk
    exact .of_push rfl hempty rfl (Function.update_eq_self _ _).symm (by rw [hempty]; rfl)

private theorem handler_semStep {a : HandlerAction} (he : k.enabled (.handler a))
    (hk : k.exec (.handler a) = some k') : SemStep k (.handler a) k' := by
  obtain ⟨hstack, -⟩ := Traced.handler_some hk
  have hwaits : k'.waits = k.waits := waits_kept hstack (awaited_fired _)
  simp only [Kernel.exec, Option.bind_eq_bind] at hk
  obtain ⟨k₁, hhandle, hk⟩ := Option.bind_eq_some_iff.mp hk
  obtain rfl := Option.some.inj hk
  cases a with
  | p s => exact .handlerTake s he.2.2 (setLevel_semaphore hhandle).1 hwaits
  | v s =>
    simp only [Kernel.handle, Option.bind_eq_bind] at hhandle
    obtain ⟨k₂, hv, hset⟩ := Option.bind_eq_some_iff.mp hhandle
    have hsem := v_semaphore hv
    exact .wake s (.inr rfl) ((setLevel_semaphore hset).1.trans hsem) hwaits
  | alarm =>
    refine .quiet rfl ?_ hwaits
    simp only [Kernel.handle] at hhandle
    split at hhandle
    next =>
      split at hhandle
      next =>
        obtain rfl := Option.some.inj hhandle
        rfl
      next => cases hhandle
    next =>
      obtain rfl := Option.some.inj hhandle
      rfl

theorem Inv.semStep (h : Inv k) (hcreated : ∀ t, k.status t = .justCreated → k.waits t = none)
    {e : Event} (he : k.enabled e) (hk : k.exec e = some k') : SemStep k e k' := by
  cases e with
  | call op => exact h.call_semStep hcreated he hk
  | step =>
    cases hst : k.stack k.currentThread with
    | nil => exact absurd hst he.2
    | cons f rest =>
      simp only [Kernel.exec, hst] at hk
      exact h.step_semStep hst hk
  | handler a => exact handler_semStep he hk

private theorem SemStep.waits_other {e : Event} (h : SemStep k e k') {t : ThreadId}
    (ht : t ≠ k.currentThread) : k'.waits t = k.waits t := by
  cases h with
  | quiet _ _ hwaits => rw [hwaits]
  | enter _ _ _ hwaits => rw [hwaits, Function.update_of_ne ht]
  | sleep _ _ _ _ _ hwaits => rw [hwaits]
  | take _ _ _ _ _ hwaits => rw [hwaits, Function.update_of_ne ht]
  | wake _ _ _ hwaits => rw [hwaits]
  | handlerTake _ _ _ hwaits => rw [hwaits]

/-! ## No thread becomes new again -/

private theorem resume_created {f : Frame} (hk : k.resume f = some k') {t : ThreadId}
    (ht : k'.status t = .justCreated) : k.status t = .justCreated := by
  cases f with
  | setLevel now =>
    simp only [Kernel.resume, Kernel.setLevel] at hk
    split at hk
    next =>
      obtain rfl := Option.some.inj hk
      split at ht <;> exact ht
    next => cases hk
  | oneTick =>
    obtain rfl := Option.some.inj hk
    exact ht
  | inOneTick old =>
    obtain rfl := Option.some.inj hk
    simp only [endOneTick] at ht
    split at ht <;> exact ht
  | restoreStatus old =>
    obtain rfl := Option.some.inj hk
    exact ht
  | yield =>
    simp only [Kernel.resume, Kernel.yield, Option.bind_eq_bind] at hk
    obtain ⟨k₁, hready, hk⟩ := Option.bind_eq_some_iff.mp hk
    obtain ⟨⟨next, k₂⟩, hfind, hk⟩ := Option.bind_eq_some_iff.mp hk
    obtain ⟨-, -, -, -, -, hstatus⟩ := readyToRun_some hready
    obtain ⟨-, readyList, rfl⟩ := findNextToRun_some hfind
    cases next with
    | none => cases hk
    | some u =>
      obtain ⟨-, rfl⟩ := run_some hk
      have hready : k₁.status t = .justCreated := update_status_created (by decide) ht
      rw [hstatus] at hready
      exact update_status_created (by decide) hready
  | pLoop s =>
    simp only [Kernel.resume, Kernel.pLoop, Option.bind_eq_bind] at hk
    obtain ⟨⟨sem, taken⟩, -, hk⟩ := Option.bind_eq_some_iff.mp hk
    split at hk
    next =>
      obtain rfl := Option.some.inj hk
      exact ht
    next =>
      simp only [Kernel.sleep] at hk
      split at hk
      next =>
        obtain rfl := Option.some.inj hk
        exact update_status_created (by decide) ht
      next => cases hk
  | sleepLoop finishing =>
    simp only [Kernel.resume, Kernel.sleepLoop, Option.bind_eq_bind] at hk
    obtain ⟨⟨next, k₁⟩, hfind, hk⟩ := Option.bind_eq_some_iff.mp hk
    obtain ⟨-, readyList, rfl⟩ := findNextToRun_some hfind
    cases next with
    | none =>
      obtain rfl := Option.some.inj hk
      exact ht
    | some u =>
      obtain ⟨-, rfl⟩ := run_some hk
      exact update_status_created (by decide) ht
  | inIdle fired =>
    cases fired <;>
    · obtain rfl := Option.some.inj hk
      exact ht
  | afterSwitch =>
    simp only [Kernel.resume] at hk
    split at hk
    next => rwa [(checkToBeDestroyed_some hk).2.1] at ht
    next => cases hk
  | begin =>
    simp only [Kernel.resume, Option.bind_eq_bind] at hk
    obtain ⟨k₁, hcheck, hk⟩ := Option.bind_eq_some_iff.mp hk
    obtain rfl := Option.some.inj hk
    have hsame : k₁.status = k.status := (checkToBeDestroyed_some hcheck).2.1
    exact hsame ▸ ht

private theorem call_created {op : Op} (hk : k.call op = some k') {t : ThreadId}
    (ht : k'.status t = .justCreated) : k.status t = .justCreated := by
  cases op with
  | fork u =>
    simp only [Kernel.call, Option.bind_eq_bind] at hk
    obtain ⟨k₁, hready, hk⟩ := Option.bind_eq_some_iff.mp hk
    obtain rfl := Option.some.inj hk
    have hforked : k₁.status t = .justCreated := ht
    rw [(readyToRun_some hready).2.2.2.2.2] at hforked
    exact update_status_created (by decide) hforked
  | finish =>
    simp only [Kernel.call, Kernel.sleep, if_true] at hk
    obtain rfl := Option.some.inj hk
    exact update_status_created (by decide) ht
  | v s =>
    simp only [Kernel.call, Option.bind_eq_bind] at hk
    obtain ⟨k₁, hv, hk⟩ := Option.bind_eq_some_iff.mp hk
    obtain rfl := Option.some.inj hk
    obtain ⟨-, -, -, -, -, -, hstatus⟩ := Traced.v_some hv
    exact hstatus t ht
  | _ =>
    obtain rfl := Option.some.inj hk
    exact ht

theorem exec_created {e : Event} (hk : k.exec e = some k') {t : ThreadId}
    (ht : k'.status t = .justCreated) : k.status t = .justCreated := by
  cases e with
  | call op => exact call_created hk ht
  | step =>
    simp only [Kernel.exec] at hk
    split at hk
    next => cases hk
    next => exact resume_created hk ht
  | handler a =>
    obtain ⟨-, -, -, -, -, hstatus⟩ := Traced.handler_some hk
    exact hstatus t ht

end

/-! ## Each semaphore by itself -/

/-- Every semaphore has a run of its own. The threads in its queue and those woken from it are
inside its `P`. -/
structure Waiting (n : SemId → Nat) (k : Kernel) : Prop where
  alone : ∀ s, (semaphoreSystem (n s)).Reachable (k.semState s)
  inside : ∀ s t, (k.semaphore s).Holds t → k.waits t = some s
  created : ∀ t, k.status t = .justCreated → k.waits t = none
  gone : ∀ t, k.finished t = true → k.waits t = none

section

variable {n : SemId → Nat} {k k' : Kernel}

theorem Waiting.inv (h : Waiting n k) (s : SemId) : SemState.Inv (n s) (k.semState s) :=
  (SemState.inv_inductive (n s)).of_reachable (h.alone s)

theorem Waiting.init (p : ThreadId → Int) (n : SemId → Nat) : Waiting n (.new p n) where
  alone s := .init rfl
  inside s t ht := by simp [Kernel.new, Semaphore.new, Semaphore.Holds] at ht
  created _ _ := rfl
  gone _ _ := rfl

private theorem semState_of_ne {s u : SemId} {sem : Semaphore}
    (hsem : k'.semaphore = Function.update k.semaphore s sem) (hu : u ≠ s) :
    k'.semState u = k.semState u := by
  simp only [semState, hsem, Function.update_of_ne hu]

private theorem Waiting.alone_update (h : Waiting n k) {s : SemId} {sem : Semaphore} {l : SemLabel}
    (hsem : k'.semaphore = Function.update k.semaphore s sem)
    (hstep : (semaphoreSystem (n s)).step (k.semState s) l
      { sem := sem, asleep := fun t => decide (t ∈ sem.queue) }) (u : SemId) :
    (semaphoreSystem (n u)).Reachable (k'.semState u) := by
  by_cases hu : u = s
  · have hself : k'.semState s = { sem := sem, asleep := fun t => decide (t ∈ sem.queue) } := by
      simp only [semState, hsem, Function.update_self]
    rw [hu, hself]
    exact (h.alone s).step hstep
  · rw [semState_of_ne hsem hu]
    exact h.alone u

private theorem asleep_append {queue : List ThreadId} {t : ThreadId} :
    (fun u => decide (u ∈ queue ++ [t])) =
      Function.update (fun u => decide (u ∈ queue)) t true := by
  funext u
  by_cases hu : u = t
  · simp [hu]
  · simp [hu]

private theorem Waiting.semState_v (h : Waiting n k) (s : SemId) :
    (k.semState s).v =
      { sem := (k.semaphore s).v.1, asleep := fun t => decide (t ∈ (k.semaphore s).v.1.queue) } := by
  rcases Semaphore.v_cases (k.semaphore s) with ⟨-, hv⟩ | ⟨t, queue, hq, hv⟩
  · simp only [SemState.v, semState, hv]
  · have hnodup : (t :: queue).Nodup := hq ▸ (h.inv s).queue_nodup
    have hsleep : Function.update (fun u => decide (u ∈ (k.semaphore s).queue)) t false =
        fun u => decide (u ∈ queue) := by
      funext u
      by_cases hu : u = t
      · simp [hu, (List.nodup_cons.mp hnodup).1]
      · simp [hu, hq]
    simp only [SemState.v, semState, hv, hsleep]

private theorem holds_of_v {sem : Semaphore} {t : ThreadId} (ht : sem.v.1.Holds t) :
    sem.Holds t := by
  rcases Semaphore.v_cases sem with ⟨-, hv⟩ | ⟨u, queue, hq, hv⟩
  · rwa [hv] at ht
  · rw [hv] at ht
    rw [Semaphore.Holds, hq]
    rcases ht with ht | ht
    · exact .inl (List.mem_cons_of_mem u ht)
    · rcases List.mem_cons.mp ht with rfl | ht
      · exact .inl List.mem_cons_self
      · exact .inr ht

private theorem Waiting.inside_update (h : Waiting n k) {s : SemId} {sem : Semaphore}
    (hsem : k'.semaphore = Function.update k.semaphore s sem)
    (hself : ∀ t, sem.Holds t → k'.waits t = some s)
    (hother : ∀ u t, u ≠ s → k.waits t = some u → k'.waits t = some u) (u : SemId)
    (t : ThreadId) (ht : (k'.semaphore u).Holds t) : k'.waits t = some u := by
  by_cases hu : u = s
  · rw [hsem, hu, Function.update_self] at ht
    rw [hu]
    exact hself t ht
  · rw [hsem, Function.update_of_ne hu] at ht
    exact hother u t hu (h.inside u t ht)

private theorem Waiting.alone_step (h : Waiting n k) {e : Event} (hs : SemStep k e k') (u : SemId) :
    (semaphoreSystem (n u)).Reachable (k'.semState u) := by
  cases hs with
  | quiet _ hsem _ =>
    simp only [semState, hsem]
    exact h.alone u
  | enter _ _ hsem _ =>
    simp only [semState, hsem]
    exact h.alone u
  | sleep s hin hvalue hqueue hsem _ =>
    refine h.alone_update (l := .p k.currentThread) hsem ⟨decide_eq_false (hqueue s), false, ?_⟩ u
    simp only [SemState.p, semState, Semaphore.test_zero hvalue (hqueue s), asleep_append]
    rfl
  | take s hin hvalue hqueue hsem _ =>
    refine h.alone_update (l := .p k.currentThread) hsem ⟨decide_eq_false (hqueue s), true, ?_⟩ u
    simp only [SemState.p, semState, Semaphore.test_nonzero hvalue]
    rfl
  | wake s _ hsem _ => exact h.alone_update (l := .handlerV) hsem (h.semState_v s).symm u
  | handlerTake s hvalue hsem _ => exact h.alone_update (l := .handlerP) hsem ⟨hvalue, rfl⟩ u

private theorem Waiting.inside_step (h : Waiting n k) {e : Event} (hs : SemStep k e k') (u : SemId)
    (t : ThreadId) (ht : (k'.semaphore u).Holds t) : k'.waits t = some u := by
  cases hs with
  | quiet _ hsem hwaits =>
    rw [hwaits]
    exact h.inside u t (hsem ▸ ht)
  | enter s hfree hsem hwaits =>
    have hin := h.inside u t (hsem ▸ ht)
    have hne : t ≠ k.currentThread := by
      rintro rfl
      rw [hfree] at hin
      contradiction
    rw [hwaits, Function.update_of_ne hne, hin]
  | sleep s hin hvalue hqueue hsem hwaits =>
    refine h.inside_update hsem ?_ (fun _ _ _ hother => hwaits ▸ hother) u t ht
    intro v hv
    rw [hwaits]
    rcases hv with hv | hv
    · rcases List.mem_append.mp hv with hv | hv
      · exact h.inside s v (.inl hv)
      · rw [List.mem_singleton.mp hv]
        exact hin
    · exact h.inside s v (.inr (List.mem_of_mem_erase hv))
  | take s hin hvalue hqueue hsem hwaits =>
    -- the thread that has taken the unit is in no queue and no longer counts as woken
    refine h.inside_update hsem ?_ ?_ u t ht
    · intro v hv
      have hold : (k.semaphore s).Holds v ∧ v ≠ k.currentThread := by
        rcases hv with hv | hv
        · refine ⟨.inl hv, ?_⟩
          rintro rfl
          exact hqueue s hv
        · have hmem := (h.inv s).woken_nodup.mem_erase_iff.mp hv
          exact ⟨.inr hmem.2, hmem.1⟩
      rw [hwaits, Function.update_of_ne hold.2]
      exact h.inside s v hold.1
    · intro u v hu hv
      have hne : v ≠ k.currentThread := by
        rintro rfl
        exact hu (Option.some.inj (hv.symm.trans hin))
      rw [hwaits, Function.update_of_ne hne, hv]
  | wake s _ hsem hwaits =>
    refine h.inside_update hsem ?_ (fun _ _ _ hother => hwaits ▸ hother) u t ht
    intro v hv
    rw [hwaits]
    exact h.inside s v (holds_of_v hv)
  | handlerTake s hvalue hsem hwaits =>
    refine h.inside_update hsem ?_ (fun _ _ _ hother => hwaits ▸ hother) u t ht
    intro v hv
    rw [hwaits]
    exact h.inside s v hv

private theorem Waiting.created_step (h : Waiting n k) (hinv : k.Inv) {e : Event}
    (hk : k.exec e = some k') (hs : SemStep k e k') (t : ThreadId)
    (ht : k'.status t = .justCreated) : k'.waits t = none := by
  have hnew := exec_created hk ht
  have hne : t ≠ k.currentThread := by
    intro heq
    exact hinv.created (heq ▸ hnew)
  rw [hs.waits_other hne]
  exact h.created t hnew

private theorem SemStep.waits_none {e : Event} (hs : SemStep k e k') {t : ThreadId}
    (hp : ∀ s, e ≠ .call (.p s)) (ht : k.waits t = none) : k'.waits t = none := by
  cases hs with
  | quiet _ _ hwaits => rw [hwaits, ht]
  | enter s _ _ _ => exact absurd rfl (hp s)
  | sleep _ _ _ _ _ hwaits => rw [hwaits, ht]
  | take s hin _ _ _ hwaits =>
    by_cases hcurrent : t = k.currentThread
    · rw [hwaits, hcurrent, Function.update_self]
    · rw [hwaits, Function.update_of_ne hcurrent, ht]
  | wake _ _ _ hwaits => rw [hwaits, ht]
  | handlerTake _ _ _ hwaits => rw [hwaits, ht]

private theorem Waiting.gone_step (h : Waiting n k) (hinv : k.Inv) {e : Event} (he : k.enabled e)
    (hk : k.exec e = some k') (hs : SemStep k e k') (t : ThreadId)
    (ht : k'.finished t = true) : k'.waits t = none := by
  have hwas : k.finished t = true ∨ (e = .call .finish ∧ t = k.currentThread) := by
    have hsame (hfinished : k'.finished = k.finished) : k.finished t = true := hfinished ▸ ht
    cases hinv.fate he hk with
    | quiet _ hfinished _ _ => exact .inl (hsame hfinished)
    | finish hfinished _ _ _ _ =>
      by_cases hcurrent : t = k.currentThread
      · exact .inr ⟨rfl, hcurrent⟩
      · rw [hfinished, Function.update_of_ne hcurrent] at ht
        exact .inl ht
    | leave _ hfinished _ _ _ _ _ => exact .inl (hsame hfinished)
    | delete _ _ hfinished _ _ _ => exact .inl (hsame hfinished)
  rcases hwas with hwas | ⟨rfl, rfl⟩
  · have hfree := h.gone t hwas
    by_cases hcurrent : t = k.currentThread
    · refine hs.waits_none ?_ hfree
      rintro s rfl
      -- a finished thread runs no code that could call `P`
      have hcode := hinv.atCode (Traced.enabled_call he).2.1 (by simp)
      rw [hcurrent, hcode.unfinished] at hwas
      contradiction
    · rw [hs.waits_other hcurrent, hfree]
  · refine hs.waits_none (by simp) ?_
    rw [waits, (Traced.enabled_call he).2.1]
    rfl

theorem Waiting.step (h : Waiting n k) (hinv : k.Inv) {e : Event} (he : k.enabled e)
    (hk : k.exec e = some k') : Waiting n k' := by
  have hs := hinv.semStep h.created he hk
  exact ⟨h.alone_step hs, h.inside_step hs, h.created_step hinv hk hs, h.gone_step hinv he hk hs⟩

theorem waiting_inductive (p : ThreadId → Int) (n : SemId → Nat) :
    (kernelSystem p n).Inductive fun k => k.Inv ∧ Waiting n k :=
  (inv_inductive p n).relative (fun _ h => h ▸ Waiting.init p n)
    fun _ _ _ hinv h hs => h.step hinv hs.1 hs.2

end

/-! ## The machine halts -/

/-- Inside the `CheckIfDue` of `Idle`, and no handler has been called yet. -/
def idling : List Frame → Bool
  | .inIdle false :: _ => true
  | _ => false

/-- While `Idle` finds no interrupt, and after it has halted the machine, no thread is ready. -/
def Idle (k : Kernel) : Prop :=
  k.halted = true ∨ idling (k.stack k.currentThread) = true →
    k.readyList = [] ∧ k.status k.currentThread ≠ .running

section

variable {k k' : Kernel}

private theorem idle_of_awake (hlive : k.halted = false)
    (hawake : idling (k.stack k.currentThread) = false) : Idle k := by
  rintro (h | h)
  · exact absurd (hlive.symm.trans h) (by simp)
  · exact absurd (hawake.symm.trans h) (by simp)

private theorem idling_cold {st : List Frame} (h : ∀ f ∈ st, f.cold = true) :
    idling st = false := by
  cases st with
  | nil => rfl
  | cons f rest =>
    cases f with
    | inIdle b =>
      have hf : (Frame.inIdle b).cold = true := h _ List.mem_cons_self
      cases hf
    | _ => rfl

private theorem Inv.idle_of_running (h : Inv k) (hlive : k.halted = false)
    (hrunning : k.status k.currentThread = .running) : Idle k := by
  refine idle_of_awake hlive ?_
  have hp := h.place
  rw [hrunning] at hp
  generalize k.stack k.currentThread = st at hp
  generalize k.level = level at hp
  generalize k.toBeDestroyed = d at hp
  generalize k.finished k.currentThread = fin at hp
  generalize hr : decide (ThreadStatus.running = .running) = r at hp
  cases hp with
  | code hcold => exact idling_cold hcold
  | p _ _ => rfl
  | tick _ _ => rfl
  | switched hs => cases hs <;> rfl
  | sleeping _ => cases hr
  | idling _ _ => cases hr

private theorem idle_call {op : Op} (he : k.enabled (.call op)) (hk : k.call op = some k') :
    Idle k' := by
  obtain ⟨hlive, hempty, -⟩ := Traced.enabled_call he
  cases op with
  | fork t =>
    simp only [Kernel.call, Option.bind_eq_bind] at hk
    obtain ⟨k₁, hready, hk⟩ := Option.bind_eq_some_iff.mp hk
    obtain ⟨readyList, -, hready⟩ := Option.bind_eq_some_iff.mp ((if_pos rfl).symm.trans hready)
    obtain rfl := Option.some.inj hready
    obtain rfl := Option.some.inj hk
    exact idle_of_awake hlive (by simp [push, idling])
  | v s =>
    simp only [Kernel.call, Option.bind_eq_bind] at hk
    obtain ⟨k₁, hv, hk⟩ := Option.bind_eq_some_iff.mp hk
    obtain ⟨-, -, -, -, hhalted, -⟩ := Traced.v_some hv
    obtain rfl := Option.some.inj hk
    exact idle_of_awake (hhalted.trans hlive) (by simp [push, idling])
  | finish =>
    simp only [Kernel.call, Kernel.sleep, if_true] at hk
    obtain rfl := Option.some.inj hk
    exact idle_of_awake hlive (by simp [push, idling])
  | setStatus st =>
    obtain rfl := Option.some.inj hk
    exact idle_of_awake hlive (by rw [hempty]; rfl)
  | _ =>
    obtain rfl := Option.some.inj hk
    exact idle_of_awake hlive (by simp [push, idling])

/-- The same thread runs on. -/
structure SameTurn (k k' : Kernel) : Prop where
  currentThread : k'.currentThread = k.currentThread
  status : k'.status = k.status
  halted : k'.halted = k.halted

private theorem Inv.idle_of_same (h' : Inv k') (hsame : k.SameTurn k') (hlive : k.halted = false)
    (hrunning : k.status k.currentThread = .running) : Idle k' := by
  refine h'.idle_of_running (hsame.halted.trans hlive) ?_
  rw [hsame.status, hsame.currentThread]
  exact hrunning

private theorem setLevel_turn {now : IntStatus} (hk : k.setLevel now = some k') :
    k.SameTurn k' := by
  simp only [Kernel.setLevel] at hk
  split at hk
  next =>
    obtain rfl := Option.some.inj hk
    split <;> exact ⟨rfl, rfl, rfl⟩
  next => cases hk

private theorem endOneTick_turn (old : MachineStatus) : k.SameTurn (k.endOneTick old) := by
  rw [endOneTick]
  split <;> exact ⟨rfl, rfl, rfl⟩

private theorem checkToBeDestroyed_turn (hk : k.checkToBeDestroyed = some k') : k.SameTurn k' := by
  simp only [checkToBeDestroyed] at hk
  split at hk
  next =>
    obtain rfl := Option.some.inj hk
    exact ⟨rfl, rfl, rfl⟩
  next =>
    split at hk
    next => cases hk
    next =>
      obtain rfl := Option.some.inj hk
      exact ⟨rfl, rfl, rfl⟩

private theorem Inv.idle_run (h' : Inv k') {next : ThreadId} {finishing : Bool}
    (hlive : k.halted = false) (hk : k.run next finishing = some k') : Idle k' := by
  obtain ⟨-, -, hrunning, hhalted⟩ := run_fates hk
  exact h'.idle_of_running (hhalted.trans hlive) hrunning

private theorem Inv.idle_yield (h' : Inv k') (hlive : k.halted = false) (hk : k.yield = some k') :
    Idle k' := by
  simp only [Kernel.yield, Option.bind_eq_bind] at hk
  obtain ⟨k₁, hready, hk⟩ := Option.bind_eq_some_iff.mp hk
  obtain ⟨⟨next, k₂⟩, hnext, hk⟩ := Option.bind_eq_some_iff.mp hk
  obtain ⟨readyList, -, hready⟩ := Option.bind_eq_some_iff.mp ((if_pos rfl).symm.trans hready)
  obtain rfl := Option.some.inj hready
  have hlive₂ : k₂.halted = false := (findNextToRun_fates hnext).2.trans hlive
  cases next with
  | none => cases hk
  | some next => exact h'.idle_run (k := k₂.push [.setLevel k.level]) hlive₂ hk

private theorem Inv.idle_sleepLoop (h' : Inv k') {finishing : Bool} (hlive : k.halted = false)
    (hstatus : k.status k.currentThread ≠ .running) (hk : k.sleepLoop finishing = some k') :
    Idle k' := by
  simp only [Kernel.sleepLoop, Option.bind_eq_bind] at hk
  obtain ⟨⟨next, k₁⟩, hnext, hk⟩ := Option.bind_eq_some_iff.mp hk
  cases next with
  | none =>
    simp only [findNextToRun] at hnext
    split at hnext
    next =>
      split at hnext
      next hq =>
        obtain rfl := (Prod.mk.inj (Option.some.inj hnext)).2
        obtain rfl := Option.some.inj hk
        exact fun _ => ⟨hq, hstatus⟩
      next => cases hnext
    next => cases hnext
  | some next => exact h'.idle_run ((findNextToRun_fates hnext).2.trans hlive) hk

private theorem Inv.idle_pLoop (h' : Inv k') {s : SemId} (hlive : k.halted = false)
    (hrunning : k.status k.currentThread = .running) (hk : k.pLoop s = some k') : Idle k' := by
  simp only [Kernel.pLoop, Option.bind_eq_bind] at hk
  obtain ⟨⟨sem, taken⟩, -, hk⟩ := Option.bind_eq_some_iff.mp hk
  split at hk
  next =>
    obtain rfl := Option.some.inj hk
    exact h'.idle_of_running hlive hrunning
  next =>
    simp only [Kernel.sleep] at hk
    split at hk
    next =>
      obtain rfl := Option.some.inj hk
      exact idle_of_awake hlive (by simp [push, idling])
    next => cases hk

private theorem Inv.running_iff (h : Inv k) {f : Frame} {st : List Frame}
    (hst : k.stack k.currentThread = f :: st) :
    k.status k.currentThread = .running ↔
      (∀ finishing, f ≠ .sleepLoop finishing) ∧ ∀ fired, f ≠ .inIdle fired := by
  have hp := h.place
  rw [hst] at hp
  generalize k.level = level at hp
  generalize k.toBeDestroyed = d at hp
  generalize hr : decide (k.status k.currentThread = .running) = r at hp
  generalize k.finished k.currentThread = fin at hp
  cases hp with
  | code hcold =>
    have hf := hcold f List.mem_cons_self
    refine iff_of_true (of_decide_eq_true hr) ⟨?_, ?_⟩ <;>
    · rintro b rfl
      cases hf
  | p _ _ | tick _ _ => exact iff_of_true (of_decide_eq_true hr) (by simp)
  | switched hs => cases hs <;> exact iff_of_true (of_decide_eq_true hr) (by simp)
  | sleeping _ | idling _ _ => exact iff_of_false (of_decide_eq_false hr) (by simp)

private theorem place_inIdle {fired : Bool} {st : List Frame} {level : IntStatus}
    {d : Option ThreadId} {r fin : Bool} (h : Place (.inIdle fired :: st) level d r fin) :
    idling st = false := by
  cases h with
  | code hcold => simp [Frame.cold] at hcold
  | switched hs => cases hs
  | idling _ _ => rfl

private theorem Inv.idle_step (h : Inv k) (h' : Inv k') (hidle : Idle k) (hlive : k.halted = false)
    {f : Frame} {st : List Frame} (hst : k.stack k.currentThread = f :: st)
    (hk : { k with stack := Function.update k.stack k.currentThread st }.resume f = some k') :
    Idle k' := by
  have hstatus := h.running_iff hst
  let k₀ : Kernel := { k with stack := Function.update k.stack k.currentThread st }
  cases f with
  | setLevel now => exact h'.idle_of_same (setLevel_turn hk) hlive (hstatus.mpr (by simp))
  | oneTick | restoreStatus old =>
    obtain rfl := Option.some.inj hk
    exact h'.idle_of_running hlive (hstatus.mpr (by simp))
  | inOneTick old =>
    obtain rfl := Option.some.inj hk
    exact h'.idle_of_same (endOneTick_turn old) hlive (hstatus.mpr (by simp))
  | yield => exact h'.idle_yield (k := k₀) hlive hk
  | pLoop s => exact h'.idle_pLoop (k := k₀) hlive (hstatus.mpr (by simp)) hk
  | sleepLoop finishing => 
    exact h'.idle_sleepLoop (k := k₀) hlive (fun hr => (hstatus.mp hr).1 _ rfl) hk
  | inIdle fired =>
    cases fired with
    | true =>
      obtain rfl := Option.some.inj hk
      have hself : idling (Function.update k.stack k.currentThread st k.currentThread) = false := by
        rw [Function.update_self]
        exact place_inIdle (hst ▸ h.place)
      exact idle_of_awake hlive hself
    | false =>
      obtain rfl := Option.some.inj hk
      exact fun _ => hidle (.inr (by rw [hst]; rfl))
  | afterSwitch =>
    simp only [Kernel.resume] at hk
    split at hk
    next => exact h'.idle_of_same (checkToBeDestroyed_turn hk) hlive (hstatus.mpr (by simp))
    next => cases hk
  | begin =>
    simp only [Kernel.resume, Option.bind_eq_bind] at hk
    obtain ⟨k₁, hcheck, hk⟩ := Option.bind_eq_some_iff.mp hk
    obtain rfl := Option.some.inj hk
    obtain ⟨hcurrent, hsame, hhalted⟩ := checkToBeDestroyed_turn hcheck
    exact h'.idle_of_same ⟨hcurrent, hsame, hhalted⟩ hlive (hstatus.mpr (by simp))

private theorem idling_fired {st : List Frame} : idling (fired st) = false := by
  cases st with
  | nil => rfl
  | cons f rest => cases f <;> rfl

theorem Inv.idle (h : Inv k) (hidle : Idle k) {e : Event} (he : k.enabled e)
    (hk : k.exec e = some k') : Idle k' := by
  obtain ⟨k₁, hk₁, h'⟩ := h.exec he
  obtain rfl := Option.some.inj (hk.symm.trans hk₁)
  cases e with
  | call op => exact idle_call he hk
  | step =>
    have hlive : k.halted = false := he.1
    simp only [Kernel.exec] at hk
    split at hk
    next => cases hk
    next f st hst => exact h.idle_step h' hidle hlive hst hk
  | handler a =>
    obtain ⟨hstack, -, hcurrent, -, hhalted, -⟩ := Traced.handler_some hk
    refine idle_of_awake (hhalted.trans (Traced.enabled_handler he).1) ?_
    rw [hstack, hcurrent, Function.update_self]
    exact idling_fired

end

theorem idle_inductive (p : ThreadId → Int) (n : SemId → Nat) :
    (kernelSystem p n).Inductive fun k => (k.Inv ∧ Waiting n k) ∧ Idle k := by
  apply (waiting_inductive p n).relative
  · rintro k rfl
    exact idle_of_awake rfl rfl
  · intro k e k' h hidle hs
    exact h.1.idle hidle hs.1 hs.2

/-- A sleeper keeps every unit of its semaphore for the threads that have been woken: where nobody
has been woken there is no unit. -/
private theorem Waiting.value_eq_zero {n : SemId → Nat} {k : Kernel} (h : Waiting n k) {s : SemId}
    (hqueue : (k.semaphore s).queue ≠ []) (hwoken : (k.semaphore s).woken = []) :
    (k.semaphore s).value = 0 := by
  have hnonneg : 0 ≤ (k.semaphore s).value := (h.inv s).nonneg
  have hcovered : (k.semaphore s).value ≤ (k.semaphore s).woken.length := (h.inv s).covered hqueue
  rw [hwoken, List.length_nil] at hcovered
  exact le_antisymm hcovered hnonneg

theorem Idle.asleep {k : Kernel} (hidle : Idle k) (h : k.Inv)
    (hhalted : k.halted = true) {t : ThreadId} (hcreated : k.status t ≠ .justCreated)
    (hfinished : k.finished t = false) : ∃ s, t ∈ (k.semaphore s).queue := by
  obtain ⟨hready, hcurrent⟩ := hidle (.inl hhalted)
  refine (h.books.waiting t).mpr ⟨?_, hfinished⟩
  cases hs : k.status t with
  | justCreated => exact absurd hs hcreated
  | running => exact absurd (h.running t hs ▸ hs) hcurrent
  | ready =>
    have hmem := (h.books.ready t).mpr hs
    rw [hready] at hmem
    cases hmem
  | blocked => rfl

private theorem Idle.woken_eq_nil {n : SemId → Nat} {k : Kernel} (hidle : Idle k) (h : k.Inv)
    (hw : Waiting n k) (hhalted : k.halted = true) (s : SemId) : (k.semaphore s).woken = [] := by
  refine List.eq_nil_iff_forall_not_mem.mpr fun t ht => ?_
  have hin : k.waits t = some s := hw.inside s t (.inr ht)
  have hcreated : k.status t ≠ .justCreated := by
    intro hnew
    rw [hw.created t hnew] at hin
    contradiction
  have hfinished : k.finished t = false := by
    refine Bool.eq_false_iff.mpr fun hgone => ?_
    rw [hw.gone t hgone] at hin
    contradiction
  obtain ⟨u, hu⟩ := hidle.asleep h hhalted hcreated hfinished
  have hsame : u = s := Option.some.inj ((hw.inside u t (.inl hu)).symm.trans hin)
  have hawake := (hw.inv s).woken_awake t ht
  exact of_decide_eq_false hawake (hsame ▸ hu)

/-- Every thread that `Idle` has left behind sleeps for a unit that is not there. -/
theorem deadlock {p : ThreadId → Int} {n : SemId → Nat} {k : Kernel}
    (hr : (kernelSystem p n).Reachable k) (hhalted : k.halted = true) {t : ThreadId}
    (hcreated : k.status t ≠ .justCreated) (hfinished : k.finished t = false) :
    ∃ s, k.waits t = some s ∧ t ∈ (k.semaphore s).queue ∧ (k.semaphore s).value = 0 := by
  obtain ⟨⟨h, hw⟩, hidle⟩ := (idle_inductive p n).of_reachable hr
  obtain ⟨s, hs⟩ := hidle.asleep h hhalted hcreated hfinished
  have hvalue := hw.value_eq_zero (List.ne_nil_of_mem hs) (hidle.woken_eq_nil h hw hhalted s)
  exact ⟨s, hw.inside s t (.inl hs), hs, hvalue⟩

end Kernel

/-- In every run of the kernel each semaphore goes through a run of its own, and the machine halts
only in a deadlock: every forked thread that has not finished sleeps in the `P` of exactly one
semaphore, and that semaphore has no unit. -/
theorem halt_only_in_deadlock (p : ThreadId → Int) (n : SemId → Nat) {k : Kernel}
    (hr : (kernelSystem p n).Reachable k) :
    (∀ s, (semaphoreSystem (n s)).Reachable (k.semState s)) ∧
    (∀ s t, (k.semState s).asleep t = true → k.waits t = some s ∧ k.status t = .blocked) ∧
    (k.halted = true → ∀ t, k.status t ≠ .justCreated → k.finished t = false →
      ∃! s, k.waits t = some s ∧ (k.semState s).asleep t = true ∧ (k.semaphore s).value = 0) := by
  obtain ⟨h, hw⟩ := (Kernel.waiting_inductive p n).of_reachable hr
  refine ⟨hw.alone, ?_, ?_⟩
  · intro s t ht
    have hqueue := of_decide_eq_true ht
    exact ⟨hw.inside s t (.inl hqueue), ((h.books.waiting t).mp ⟨s, hqueue⟩).1⟩
  · intro hhalted t hcreated hfinished
    obtain ⟨s, hin, hs, hvalue⟩ := Kernel.deadlock hr hhalted hcreated hfinished
    refine ⟨s, ⟨hin, decide_eq_true hs, hvalue⟩, ?_⟩
    rintro u ⟨hu, -, -⟩
    exact Option.some.inj (hu.symm.trans hin)

/-- The main thread calls `P` and nobody is there to call `V`. -/
private def aloneInP : List Event := [.call (.p 0), .step, .step, .step]

theorem halt_only_in_deadlock_alone :
    ∃ k : Kernel, (kernelSystem (fun _ => 5) fun _ => 0).Reachable k ∧ k.halted = true ∧
      ∃! s, k.waits 0 = some s ∧ (k.semState s).asleep 0 = true ∧ (k.semaphore s).value = 0 := by
  have hrun : (aloneInP.foldlM Kernel.next (.new (fun _ => 5) fun _ => 0)).isSome := by decide
  let k := (aloneInP.foldlM Kernel.next (.new (fun _ => 5) fun _ => 0)).get hrun
  have hr : (kernelSystem (fun _ => 5) fun _ => 0).Reachable k :=
    .foldlM (fun _ _ _ => Kernel.next_step) aloneInP (.init rfl) (Option.some_get hrun).symm
  have hhalted : k.halted = true := rfl
  have hblocked : k.status 0 = .blocked := rfl
  have halone := (halt_only_in_deadlock _ _ hr).2.2 hhalted 0 (by rw [hblocked]; decide) rfl
  exact ⟨k, hr, hhalted, halone⟩

end Nachos

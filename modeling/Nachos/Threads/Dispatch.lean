import Nachos.Threads.Conservation

/-!
# Priority dispatch

The ready list is ordered by priority and, inside a priority, by the time of the latest
`ReadyToRun`. The comparison of the sorted list sees priorities only; the order of arrival is
what its insertion loop keeps, because a new thread goes behind its equals.
-/

namespace Nachos

open Framework

namespace Kernel

/-- `x` is to run before `y`. -/
def Before (k : Kernel) (x y : ThreadId) : Prop :=
  k.priority y < k.priority x ∨ (k.priority x = k.priority y ∧ k.readyAt x < k.readyAt y)

theorem Before.trans {k : Kernel} {x y z : ThreadId} (hxy : k.Before x y) (hyz : k.Before y z) :
    k.Before x z := by
  unfold Before at *
  omega

/-- The thread that is to run next: READY, and before every other READY thread. -/
def First (k : Kernel) (t : ThreadId) : Prop :=
  k.status t = .ready ∧ ∀ u, k.status u = .ready → u = t ∨ k.Before t u

/-- The ready list is in running order, for priorities that are never changed. -/
structure Ordered (prio : ThreadId → Int) (k : Kernel) : Prop where
  fixed : k.priority = prio
  sorted : k.readyList.Pairwise k.Before
  past : ∀ t ∈ k.readyList, k.readyAt t < k.readyCount

namespace Ordered

variable {prio : ThreadId → Int} {k k' : Kernel} {t : ThreadId}

theorem congr (h : Ordered prio k) (hready : k'.readyList = k.readyList)
    (hpriority : k'.priority = k.priority) (hat : k'.readyAt = k.readyAt)
    (hcount : k'.readyCount = k.readyCount) : Ordered prio k' := by
  have hbefore : k'.Before = k.Before := by
    unfold Before
    rw [hpriority, hat]
  refine ⟨hpriority.trans h.fixed, ?_, ?_⟩
  · rw [hready, hbefore]
    exact h.sorted
  · rw [hready, hat, hcount]
    exact h.past

theorem makeReady (h : Ordered prio k) (ht : t ∉ k.readyList) : Ordered prio (k.makeReady t) := by
  have hold : ∀ y ∈ k.readyList, (k.makeReady t).readyAt y = k.readyAt y := by
    intro y hy
    have hne : y ≠ t := fun he => ht (he ▸ hy)
    simp [Kernel.makeReady, hne]
  have hnew : (k.makeReady t).readyAt t = k.readyCount := by simp [Kernel.makeReady]
  refine ⟨h.fixed, ?_, ?_⟩
  · apply pairwise_orderedInsert (fun x y => k.compare x y < 0)
    · exact fun x y z => Before.trans
    · apply h.sorted.imp_of_mem
      intro x y hx hy hxy
      unfold Before
      rw [hold x hx, hold y hy]
      exact hxy
    · intro y hy hlt
      left
      by_contra hle
      unfold compare at hlt
      split at hlt
      next hp => exact hle hp
      next => split at hlt <;> omega
    · intro y hy hlt
      have hp : k.priority t ≤ k.priority y := by
        by_contra hgt
        exact hlt (by simp [compare, show k.priority t > k.priority y by omega])
      have hpast := h.past y hy
      unfold Before
      rw [hold y hy, hnew]
      show k.priority t < k.priority y ∨ (k.priority y = k.priority t ∧ _)
      omega
  · intro y hy
    show (k.makeReady t).readyAt y < k.readyCount + 1
    rcases (List.mem_orderedInsert _).mp hy with rfl | hy
    · rw [hnew]
      omega
    · have := h.past y hy
      rw [hold y hy]
      omega

theorem readyToRun (h : Ordered prio k) (hk : k.readyToRun t = some k') : Ordered prio k' := by
  unfold Kernel.readyToRun at hk
  split at hk
  next hl =>
    by_cases ht : t ∈ k.readyList
    · simp [sortedListInsert, ht] at hk
    · rw [sortedListInsert_of_notMem k.compare ht] at hk
      exact Option.some.inj hk ▸ h.makeReady ht
  next => contradiction

theorem findNextToRun (h : Ordered prio k) {next : Option ThreadId}
    (hk : k.findNextToRun = some (next, k')) : Ordered prio k' := by
  unfold Kernel.findNextToRun at hk
  split at hk
  next =>
    cases hq : k.readyList with
    | nil =>
      rw [hq] at hk
      exact (Prod.mk.inj (Option.some.inj hk)).2 ▸ h
    | cons u rest =>
      rw [hq] at hk
      rw [← (Prod.mk.inj (Option.some.inj hk)).2]
      have hsorted := h.sorted
      rw [hq] at hsorted
      exact ⟨h.fixed, (List.pairwise_cons.mp hsorted).2, fun v hv => h.past v (by simp [hq, hv])⟩
  next => contradiction

theorem run (h : Ordered prio k) {finishing : Bool} (hk : k.run t finishing = some k') :
    Ordered prio k' := by
  unfold Kernel.run at hk
  split at hk
  next => exact Option.some.inj hk ▸ h.congr rfl rfl rfl rfl
  next => contradiction

theorem v (h : Ordered prio k) {s : SemId} (hk : k.v s = some k') : Ordered prio k' := by
  unfold Kernel.v at hk
  rcases Semaphore.v_cases (k.semaphore s) with ⟨-, hv⟩ | ⟨u, queue, -, hv⟩
  · rw [hv] at hk
    exact Option.some.inj hk ▸ h.congr rfl rfl rfl rfl
  · rw [hv] at hk
    have h₁ : ∀ sems, Ordered prio { k with semaphore := sems } := fun _ => h.congr rfl rfl rfl rfl
    exact (h₁ _).readyToRun hk

theorem yield (h : Ordered prio k) (hk : k.yield = some k') : Ordered prio k' := by
  unfold Kernel.yield at hk
  obtain ⟨k₁, hk₁, hrest⟩ := Option.bind_eq_some_iff.mp hk
  obtain ⟨⟨next, k₂⟩, hk₂, hrun⟩ := Option.bind_eq_some_iff.mp hrest
  have hoff : Ordered prio { k with level := .intOff } := h.congr rfl rfl rfl rfl
  have h₂ : Ordered prio k₂ := (hoff.readyToRun hk₁).findNextToRun hk₂
  cases next with
  | none => contradiction
  | some u =>
    have h₃ : Ordered prio (k₂.push [.setLevel k.level]) := h₂.congr rfl rfl rfl rfl
    exact h₃.run hrun

theorem sleepLoop (h : Ordered prio k) {finishing : Bool} (hk : k.sleepLoop finishing = some k') :
    Ordered prio k' := by
  unfold Kernel.sleepLoop at hk
  obtain ⟨⟨next, k₁⟩, hk₁, hrest⟩ := Option.bind_eq_some_iff.mp hk
  have h₁ := h.findNextToRun hk₁
  cases next with
  | none => exact Option.some.inj hrest ▸ h₁.congr rfl rfl rfl rfl
  | some u => exact h₁.run hrest

theorem pLoop (h : Ordered prio k) {s : SemId} (hk : k.pLoop s = some k') : Ordered prio k' := by
  unfold Kernel.pLoop at hk
  obtain ⟨⟨sem, taken⟩, -, hrest⟩ := Option.bind_eq_some_iff.mp hk
  cases taken with
  | true => exact Option.some.inj hrest ▸ h.congr rfl rfl rfl rfl
  | false =>
    simp only [Bool.false_eq_true, if_false, sleep] at hrest
    split at hrest
    next => exact Option.some.inj hrest ▸ h.congr rfl rfl rfl rfl
    next => contradiction

theorem setLevel (h : Ordered prio k) {now : IntStatus} (hk : k.setLevel now = some k') :
    Ordered prio k' := by
  unfold Kernel.setLevel at hk
  split at hk
  next =>
    rw [← Option.some.inj hk]
    split <;> exact h.congr rfl rfl rfl rfl
  next => contradiction

theorem checkToBeDestroyed (h : Ordered prio k) (hk : k.checkToBeDestroyed = some k') :
    Ordered prio k' := by
  unfold Kernel.checkToBeDestroyed at hk
  split at hk
  next => exact Option.some.inj hk ▸ h
  next =>
    split at hk
    next => contradiction
    next => exact Option.some.inj hk ▸ h.congr rfl rfl rfl rfl

theorem resume (h : Ordered prio k) {f : Frame} (hk : k.resume f = some k') : Ordered prio k' := by
  cases f with
  | setLevel now => exact h.setLevel hk
  | oneTick => exact Option.some.inj hk ▸ h.congr rfl rfl rfl rfl
  | inOneTick old =>
    rw [← Option.some.inj hk]
    unfold endOneTick
    split <;> exact h.congr rfl rfl rfl rfl
  | restoreStatus old => exact Option.some.inj hk ▸ h.congr rfl rfl rfl rfl
  | yield => exact h.yield hk
  | pLoop s => exact h.pLoop hk
  | sleepLoop finishing => exact h.sleepLoop hk
  | inIdle fired => cases fired <;> exact Option.some.inj hk ▸ h.congr rfl rfl rfl rfl
  | afterSwitch =>
    simp only [Kernel.resume] at hk
    split at hk
    next => exact h.checkToBeDestroyed hk
    next => contradiction
  | begin =>
    obtain ⟨k₁, hk₁, hrest⟩ := Option.bind_eq_some_iff.mp hk
    exact Option.some.inj hrest ▸ (h.checkToBeDestroyed hk₁).congr rfl rfl rfl rfl

theorem call (h : Ordered prio k) {op : Op} (hk : k.call op = some k') : Ordered prio k' := by
  cases op with
  | fork u =>
    obtain ⟨k₁, hk₁, hrest⟩ := Option.bind_eq_some_iff.mp hk
    have h₀ : ∀ st, Ordered prio { k with level := .intOff, stack := st } :=
      fun _ => h.congr rfl rfl rfl rfl
    exact Option.some.inj hrest ▸ ((h₀ _).readyToRun hk₁).congr rfl rfl rfl rfl
  | yield => exact Option.some.inj hk ▸ h.congr rfl rfl rfl rfl
  | finish => exact Option.some.inj hk ▸ h.congr rfl rfl rfl rfl
  | p s => exact Option.some.inj hk ▸ h.congr rfl rfl rfl rfl
  | v s =>
    obtain ⟨k₁, hk₁, hrest⟩ := Option.bind_eq_some_iff.mp hk
    have h₀ : Ordered prio { k with level := .intOff } := h.congr rfl rfl rfl rfl
    exact Option.some.inj hrest ▸ (h₀.v hk₁).congr rfl rfl rfl rfl
  | setLevel now => exact Option.some.inj hk ▸ h.congr rfl rfl rfl rfl
  | oneTick => exact Option.some.inj hk ▸ h.congr rfl rfl rfl rfl
  | setStatus st => exact Option.some.inj hk ▸ h.congr rfl rfl rfl rfl

theorem handle (h : Ordered prio k) {a : HandlerAction} (hk : k.handle a = some k') : Ordered prio k' := by
  cases a with
  | p s =>
    have h₀ : ∀ sems, Ordered prio { k with level := .intOff, semaphore := sems } :=
      fun _ => h.congr rfl rfl rfl rfl
    exact (h₀ _).setLevel hk
  | v s =>
    obtain ⟨k₁, hk₁, hrest⟩ := Option.bind_eq_some_iff.mp hk
    have h₀ : Ordered prio { k with level := .intOff } := h.congr rfl rfl rfl rfl
    exact (h₀.v hk₁).setLevel hrest
  | alarm =>
    simp only [Kernel.handle] at hk
    split at hk
    next =>
      split at hk
      next => exact Option.some.inj hk ▸ h.congr rfl rfl rfl rfl
      next => contradiction
    next => exact Option.some.inj hk ▸ h

theorem exec (h : Ordered prio k) {e : Event} (hk : k.exec e = some k') : Ordered prio k' := by
  cases e with
  | call op => exact h.call hk
  | step =>
    simp only [Kernel.exec] at hk
    split at hk
    next => contradiction
    next f st _ =>
      have h₀ : Ordered prio { k with stack := Function.update k.stack k.currentThread st } :=
        h.congr rfl rfl rfl rfl
      exact h₀.resume hk
  | handler a =>
    obtain ⟨k₁, hk₁, hrest⟩ := Option.bind_eq_some_iff.mp hk
    have h₀ : Ordered prio { k with inHandler := true } := h.congr rfl rfl rfl rfl
    exact Option.some.inj hrest ▸ (h₀.handle hk₁).congr rfl rfl rfl rfl

end Ordered

theorem Ordered.first {k : Kernel} (h : Ordered prio k) (hb : Books k) {t : ThreadId}
    {rest : List ThreadId} (hq : k.readyList = t :: rest) : k.First t := by
  have hsorted := h.sorted
  rw [hq] at hsorted
  refine ⟨(hb.ready t).mp (by simp [hq]), ?_⟩
  intro u hu
  have hm : u ∈ t :: rest := hq ▸ (hb.ready u).mpr hu
  rcases List.mem_cons.mp hm with he | hm
  · exact Or.inl he
  · exact Or.inr ((List.pairwise_cons.mp hsorted).1 u hm)

theorem ordered_inductive (p : ThreadId → Int) (n : SemId → Nat) :
    (kernelSystem p n).Inductive fun k => Inv k ∧ Ordered (new p n).priority k := by
  apply (inv_inductive p n).relative
  · intro k hk
    rw [hk]
    exact ⟨rfl, List.Pairwise.nil, by simp [new]⟩
  · intro k e k' _ h hs
    exact h.exec hs.2

private theorem Ordered.yield_self {prio : ThreadId → Int} {k : Kernel} (h : Ordered prio k)
    (hinv : Inv k) {next : ThreadId} (hfirst : (k.makeReady k.currentThread).First next) :
    next = k.currentThread ↔
      ∀ u, u ≠ k.currentThread → k.status u = .ready →
        k.priority u < k.priority k.currentThread := by
  have hstatus : ∀ u, u ≠ k.currentThread →
      (k.makeReady k.currentThread).status u = k.status u := by
    intro u hu
    simp [Kernel.makeReady, hu]
  constructor
  · rintro rfl u hu hready
    have hpast : k.readyAt u < k.readyCount := h.past u ((hinv.books.ready u).mpr hready)
    -- the caller is the latest to become ready, so it cannot precede an equal
    rcases hfirst.2 u ((hstatus u hu).trans hready) with he | hlt | ⟨-, hat⟩
    · exact absurd he hu
    · exact hlt
    · simp only [Kernel.makeReady, Function.update_self, Function.update_of_ne hu] at hat
      omega
  · intro hall
    by_contra hne
    have hready : k.status next = .ready := (hstatus next hne).symm.trans hfirst.1
    have hlt := hall next hne hready
    have hself : (k.makeReady k.currentThread).status k.currentThread = .ready := by
      simp [Kernel.makeReady]
    rcases hfirst.2 k.currentThread hself with he | hp | ⟨hp, -⟩
    · exact hne he.symm
    · have hp' : k.priority k.currentThread < k.priority next := hp
      omega
    · have hp' : k.priority next = k.priority k.currentThread := hp
      omega

end Kernel

/-- In every run of the scheduler, a `FindNextToRun` that returns a thread returns a READY one of
the highest priority and, inside that priority, the one whose latest `ReadyToRun` is the oldest.
`Yield` runs that thread after queueing the caller, and it is the caller itself exactly when
every other READY thread has a lower priority. -/
theorem priority_dispatch (p : ThreadId → Int) (n : SemId → Nat) {k : Kernel}
    (hr : (kernelSystem p n).Reachable k) :
    k.priority = (Kernel.new p n).priority ∧
    (∀ t k', k.findNextToRun = some (some t, k') → k.First t) ∧
    (∀ st, k.enabled .step → k.stack k.currentThread = .yield :: st →
      ∃ k₁ k₂ k' next,
        { k with stack := Function.update k.stack k.currentThread st,
                 level := .intOff }.readyToRun k.currentThread = some k₁ ∧
        k₁.findNextToRun = some (some next, k₂) ∧ k₁.First next ∧
        k.exec .step = some k' ∧ k'.currentThread = next ∧
        (k'.currentThread = k.currentThread ↔
          ∀ u, u ≠ k.currentThread → k.status u = .ready →
            k.priority u < k.priority k.currentThread)) := by
  obtain ⟨hinv, hord⟩ := (Kernel.ordered_inductive p n).of_reachable hr
  refine ⟨hord.fixed, ?_, ?_⟩
  · intro t k' hfind
    unfold Kernel.findNextToRun at hfind
    split at hfind
    next =>
      cases hq : k.readyList with
      | nil => simp [hq] at hfind
      | cons u rest =>
        rw [hq] at hfind
        have ht : u = t := Option.some.inj (Prod.mk.inj (Option.some.inj hfind)).1
        exact hord.first hinv.books (ht ▸ hq)
    next => contradiction
  · intro st he hst
    have hc := hinv.atCode hst (by simp [Frame.cold])
    have hcold : ∀ f ∈ st, f.cold = true := fun f hf => hc.cold f (List.mem_cons_of_mem _ hf)
    let k₀ : Kernel := { k with stack := Function.update k.stack k.currentThread st }
    let k₁ : Kernel := { k₀ with level := .intOff }
    have hinv₀ : k₀.Inv := hinv.pop hcold hc.running hc.unfinished hc.doomed
    have hc₀ : k₀.AtCode st := ⟨by simp [k₀], hcold, hc.running, hc.unfinished, hc.doomed⟩
    have hinv₁ : k₁.Inv := hinv₀.code hc₀ st hcold ⟨rfl, rfl, rfl, fun _ => rfl⟩
      ⟨rfl, rfl, rfl⟩ (by simp [k₁, k₀])
    have hord₁ : k₁.Ordered (Kernel.new p n).priority := hord.congr rfl rfl rfl rfl
    obtain ⟨next, rest, hq, hyield⟩ := hinv₀.yield_eq hc.running
    have hfresh : k.currentThread ∉ k₁.readyList :=
      hinv₁.books.notMem_ready (by simp [k₁, k₀, hc.running])
    have hbooks : (k₁.makeReady k.currentThread).Books :=
      hinv₁.books.makeReady (by simp [k₁, k₀, hc.running]) (by simp [k₁, k₀, hc.running])
    have hfirst : (k₁.makeReady k.currentThread).First next :=
      (hord₁.makeReady hfresh).first hbooks hq
    have hfind : (k₁.makeReady k.currentThread).findNextToRun = some (some next,
        { k₁.makeReady k.currentThread with readyList := rest }) := by
      unfold Kernel.findNextToRun
      rw [show (k₁.makeReady k.currentThread).readyList = next :: rest from hq]
      rfl
    have hstep : k.exec .step = k₀.yield := by
      simp only [Kernel.exec, hst]
      rfl
    exact ⟨_, _, _, next, Kernel.readyToRun_eq rfl hfresh, hfind, hfirst, hstep.trans hyield, rfl,
      hord₁.yield_self hinv₁ hfirst⟩

private def forkAndYield : List Event :=
  [.call (.fork 1), .step, .call .yield]

theorem priority_dispatch_fork :
    ∃ k k' : Kernel, (kernelSystem (fun _ => 5) fun _ => 0).Reachable k ∧
      k.currentThread = 0 ∧ k.exec .step = some k' ∧ k'.currentThread ≠ 0 := by
  have hrun : (forkAndYield.foldlM Kernel.next (.new (fun _ => 5) fun _ => 0)).isSome := by
    decide
  let k := (forkAndYield.foldlM Kernel.next (.new (fun _ => 5) fun _ => 0)).get hrun
  have hr : (kernelSystem (fun _ => 5) fun _ => 0).Reachable k :=
    .foldlM (fun _ _ _ => Kernel.next_step) forkAndYield (.init rfl)
      (Option.some_get hrun).symm
  have hcurrent : k.currentThread = 0 := rfl
  have hstack : k.stack k.currentThread = [.yield] := rfl
  obtain ⟨-, -, k', -, -, -, -, hk', -, hself⟩ :=
    (priority_dispatch _ _ hr).2.2 [] ⟨rfl, by simp [hstack]⟩ hstack
  refine ⟨k, k', hr, hcurrent, hk', ?_⟩
  intro hzero
  have hlow : k.priority 1 < k.priority 0 :=
    hself.mp (hzero.trans hcurrent.symm) 1 (by simp [hcurrent]) rfl
  have hprio : k.priority 1 = 5 ∧ k.priority 0 = 1 := ⟨rfl, rfl⟩
  omega

end Nachos

import Nachos.Threads.Dispatch
import Nachos.Framework.RoundRobin

/-!
# Threads that yield

`Thread::SelfTest`: the main thread forks threads of any priorities and yields; each of them runs
`SimpleThread`, a loop that prints a line and yields. There are no interrupts, so the processor
changes hands in `Yield` and in `Finish` only, and the threads of a priority take turns as in a
queue: the current thread at its head until it has printed, then at its end.
-/

namespace Nachos

open Framework

/-! ## The test -/

/-- The kernel during the test. The main thread is thread 0, and the others have the numbers from
1 on in the order in which they are forked. `left` are the turns of the loop still to come and
`emitted` the lines printed so far, by the threads that have printed them. -/
structure SelfTest where
  kernel : Kernel
  forked : Nat
  yielded : Bool
  left : ThreadId → Nat
  emitted : List ThreadId

inductive TestLabel
  /-- the routine of the kernel that the current thread is in goes on -/
  | step
  /-- the main thread enables or disables interrupts -/
  | setLevel (now : IntStatus)
  | fork
  | mainYield
  | mainFinish
  /-- a turn of the loop of `SimpleThread` -/
  | iterate
  /-- the end of `SimpleThread` -/
  | finish

namespace SelfTest

def new (p : ThreadId → Int) (iterations : ThreadId → Nat) : SelfTest :=
  { kernel := .new p fun _ => 0, forked := 0, yielded := false, left := iterations, emitted := [] }

def withKernel (s : SelfTest) (k : Kernel) : SelfTest := { s with kernel := k }

/-- The next step; `none` when the current thread is elsewhere in its code. -/
def step (n : Nat) (s : SelfTest) : TestLabel → Option SelfTest
  | .step => (s.kernel.next .step).map s.withKernel
  | .setLevel now =>
    if s.kernel.currentThread = 0 then
      (s.kernel.next (.call (.setLevel now))).map s.withKernel
    else none
  | .fork =>
    if s.kernel.currentThread = 0 ∧ s.yielded = false ∧ s.forked < n then
      (s.kernel.next (.call (.fork (s.forked + 1)))).map fun k =>
        { s with kernel := k, forked := s.forked + 1 }
    else none
  | .mainYield =>
    if s.kernel.currentThread = 0 ∧ s.forked = n then
      (s.kernel.next (.call .yield)).map fun k => { s with kernel := k, yielded := true }
    else none
  | .mainFinish =>
    if s.kernel.currentThread = 0 ∧ s.yielded = true then
      (s.kernel.next (.call .finish)).map s.withKernel
    else none
  | .iterate =>
    let t := s.kernel.currentThread
    if t ≠ 0 ∧ s.left t ≠ 0 then
      (s.kernel.next (.call .yield)).map fun k =>
        { s with kernel := k, left := Function.update s.left t (s.left t - 1),
                 emitted := s.emitted ++ [t] }
    else none
  | .finish =>
    let t := s.kernel.currentThread
    if t ≠ 0 ∧ s.left t = 0 then (s.kernel.next (.call .finish)).map s.withKernel
    else none

end SelfTest

/-- All runs of the test with `n` threads. -/
def testSystem (p : ThreadId → Int) (iterations : ThreadId → Nat) (n : Nat) :
    System SelfTest TestLabel where
  init s := s = .new p iterations
  step s l s' := s.step n l = some s'

def ofPriority (p : ThreadId → Int) (n : Nat) (q : Int) : List ThreadId :=
  (List.range' 1 n).filter fun t => setPriority (p t) = q

/-! ## The kernel without interrupts -/

def Frame.quiet : Frame → Bool
  | .setLevel _ | .oneTick | .inOneTick _ | .afterSwitch | .begin => true
  | .restoreStatus _ | .yield | .pLoop _ | .sleepLoop _ | .inIdle _ => false

/-- Where the current thread is: in its own code or on the way there, in `Yield`, in `Finish`, or
in `Idle` when no thread is ready. -/
inductive Stage : List ThreadId → List Frame → Prop
  | code {ready : List ThreadId} {st : List Frame} (h : ∀ f ∈ st, f.quiet = true) : Stage ready st
  | yield {ready : List ThreadId} : Stage ready [.yield]
  | sleep {ready : List ThreadId} : Stage ready [.sleepLoop true]
  | idle : Stage [] [.inIdle false, .sleepLoop true]

namespace Kernel

/-- The threads in the order of their next turns: the current thread comes first until it calls
`Yield`, and last until `Yield` has queued it. -/
def waiting (k : Kernel) : List ThreadId :=
  match k.stack k.currentThread with
  | .yield :: _ => k.readyList ++ [k.currentThread]
  | .sleepLoop _ :: _ | .inIdle _ :: _ => k.readyList
  | _ => k.currentThread :: k.readyList

structure Plain (k : Kernel) : Prop where
  stage : Stage k.readyList (k.stack k.currentThread)
  ready : ∀ t ∈ k.readyList, ∀ f ∈ k.stack t, f.quiet = true
  calm : k.yieldOnReturn = false
  halted : k.halted = true → k.waiting = []

variable {k k' : Kernel}

private theorem waiting_code (h : ∀ f ∈ k.stack k.currentThread, f.quiet = true) :
    k.waiting = k.currentThread :: k.readyList := by
  unfold waiting
  cases hst : k.stack k.currentThread with
  | nil => rfl
  | cons f st =>
    have hf : f.quiet = true := h f (by rw [hst]; exact List.mem_cons_self ..)
    cases f <;> first | rfl | cases hf

private theorem waiting_yield {st : List Frame} (h : k.stack k.currentThread = .yield :: st) :
    k.waiting = k.readyList ++ [k.currentThread] := by
  unfold waiting
  rw [h]

private theorem waiting_sleep {finishing : Bool} {st : List Frame}
    (h : k.stack k.currentThread = .sleepLoop finishing :: st) : k.waiting = k.readyList := by
  unfold waiting
  rw [h]

private theorem waiting_idle {fired : Bool} {st : List Frame}
    (h : k.stack k.currentThread = .inIdle fired :: st) : k.waiting = k.readyList := by
  unfold waiting
  rw [h]

private theorem mem_waiting_of_ready {t : ThreadId} (h : t ∈ k.readyList) : t ∈ k.waiting := by
  unfold waiting
  split
  · exact List.mem_append_left _ h
  · exact h
  · exact h
  · exact List.mem_cons_of_mem _ h

/-- No thread becomes ready, runs, finishes or stops running. -/
structure SameThreads (k k' : Kernel) : Prop where
  currentThread : k'.currentThread = k.currentThread
  readyList : k'.readyList = k.readyList
  finished : k'.finished = k.finished
  status : k'.status = k.status
  yieldOnReturn : k'.yieldOnReturn = k.yieldOnReturn
  halted : k'.halted = k.halted

private theorem resume_quiet {f : Frame} (hf : f.quiet = true) (hcalm : k.yieldOnReturn = false)
    (hk : k.resume f = some k') : SameThreads k k' ∧ ∃ frames, (∀ g ∈ frames, Frame.quiet g = true) ∧
      k'.stack = Function.update k.stack k.currentThread
        (frames ++ k.stack k.currentThread) := by
  cases f with
  | setLevel now =>
    simp only [resume, setLevel] at hk
    split at hk
    next =>
      rw [← Option.some.inj hk]
      split
      next => exact ⟨⟨rfl, rfl, rfl, rfl, rfl, rfl⟩, [.oneTick], by simp [Frame.quiet], rfl⟩
      next => exact ⟨⟨rfl, rfl, rfl, rfl, rfl, rfl⟩, [], by simp, by simp⟩
    next => cases hk
  | oneTick =>
    rw [← Option.some.inj hk]
    exact ⟨⟨rfl, rfl, rfl, rfl, rfl, rfl⟩, [.inOneTick k.machineStatus], by simp [Frame.quiet], rfl⟩
  | inOneTick old =>
    have hend : k.endOneTick old = { k with level := .intOn } := by simp [endOneTick, hcalm]
    rw [← Option.some.inj hk, hend]
    exact ⟨⟨rfl, rfl, rfl, rfl, rfl, rfl⟩, [], by simp, by simp⟩
  | afterSwitch =>
    simp only [resume, checkToBeDestroyed] at hk
    split at hk
    next =>
      split at hk
      next =>
        rw [← Option.some.inj hk]
        exact ⟨⟨rfl, rfl, rfl, rfl, rfl, rfl⟩, [], by simp, by simp⟩
      next =>
        split at hk
        next => cases hk
        next =>
          rw [← Option.some.inj hk]
          exact ⟨⟨rfl, rfl, rfl, rfl, rfl, rfl⟩, [], by simp, by simp⟩
    next => cases hk
  | begin =>
    obtain ⟨k₁, hcheck, hk⟩ := Option.bind_eq_some_iff.mp hk
    rw [← Option.some.inj hk]
    unfold checkToBeDestroyed at hcheck
    split at hcheck
    next =>
      rw [← Option.some.inj hcheck]
      exact ⟨⟨rfl, rfl, rfl, rfl, rfl, rfl⟩, [.setLevel .intOn], by simp [Frame.quiet], rfl⟩
    next =>
      split at hcheck
      next => cases hcheck
      next =>
        rw [← Option.some.inj hcheck]
        exact ⟨⟨rfl, rfl, rfl, rfl, rfl, rfl⟩, [.setLevel .intOn], by simp [Frame.quiet], rfl⟩
  | restoreStatus old | yield | pLoop s | sleepLoop finishing | inIdle fired => cases hf

/-- What a step without interrupts does: the order of the next turns is kept, and the processor
changes hands only to a thread of the highest priority. -/
structure Advances (k k' : Kernel) : Prop where
  plain : k'.Plain
  waiting : ∀ q, (k'.waiting.filter fun t => k.priority t = q) =
    k.waiting.filter fun t => k.priority t = q
  finished : k'.finished = k.finished
  created : ∀ t, k.status t = .justCreated → k'.status t = .justCreated
  highest : (k'.currentThread = k.currentThread ∧ k'.readyList = k.readyList ∧
      ∀ st, k.stack k.currentThread ≠ .yield :: st) ∨
    ∀ u ∈ k'.readyList, k.priority u ≤ k.priority k'.currentThread

private theorem Ordered.falling {prio : ThreadId → Int} (h : Ordered prio k) :
    k.readyList.Pairwise fun x y => k.priority y ≤ k.priority x := by
  apply h.sorted.imp
  intro x y hxy
  rcases hxy with hlt | ⟨heq, -⟩
  · exact hlt.le
  · exact heq.ge

private theorem Ordered.filter_makeReady {prio : ThreadId → Int} (h : Ordered prio k) (t : ThreadId)
    (q : Int) : ((k.makeReady t).readyList.filter fun u => k.priority u = q) =
      (k.readyList ++ [t]).filter fun u => k.priority u = q := by
  apply filter_orderedInsert
  · intro y
    unfold compare
    split
    next hlt => exact iff_of_true (by decide) hlt
    next hle =>
      apply iff_of_false _ hle
      split <;> decide
  · exact h.falling

private theorem Plain.advances_quiet (h : k.Plain) (hlive : k.halted = false) {f : Frame}
    {st : List Frame} (hst : k.stack k.currentThread = f :: st)
    (hquiet : ∀ g ∈ f :: st, g.quiet = true) (hk : k.exec .step = some k') :
    Advances k k' ∧ k'.currentThread = k.currentThread ∧
      ∀ g ∈ k'.stack k'.currentThread, g.quiet = true := by
  simp only [exec, hst] at hk
  have hcalm : { k with stack := Function.update k.stack k.currentThread st }.yieldOnReturn =
    false := h.calm
  obtain ⟨hsame, frames, hframes, hstack⟩ :=
    resume_quiet (hquiet f (List.mem_cons_self ..)) hcalm hk
  simp only [Function.update_self, Function.update_idem] at hstack
  have hrest : ∀ g ∈ frames ++ st, g.quiet = true := by
    intro g hg
    rcases List.mem_append.mp hg with hg | hg
    · exact hframes g hg
    · exact hquiet g (List.mem_cons_of_mem _ hg)
  have hcurrent : k'.stack k'.currentThread = frames ++ st := by
    rw [hstack, hsame.currentThread]
    exact Function.update_self _ _ _
  refine ⟨?_, hsame.currentThread, by rw [hcurrent]; exact hrest⟩
  constructor
  case plain =>
    constructor
    case stage =>
      rw [hcurrent]
      exact .code hrest
    case ready =>
      intro t ht
      rw [hsame.readyList] at ht
      rw [hstack]
      by_cases htc : t = k.currentThread
      · rw [htc, Function.update_self]
        exact hrest
      · rw [Function.update_of_ne htc]
        exact h.ready t ht
    case calm =>
      rw [hsame.yieldOnReturn]
      exact h.calm
    case halted =>
      intro hhalted
      rw [hsame.halted] at hhalted
      exact absurd (hlive.symm.trans hhalted) (by simp)
  case waiting =>
    intro q
    rw [waiting_code (by rw [hcurrent]; exact hrest), waiting_code (by rw [hst]; exact hquiet),
      hsame.currentThread, hsame.readyList]
  case finished => exact hsame.finished
  case created =>
    intro t ht
    rw [hsame.status]
    exact ht
  case highest =>
    refine .inl ⟨hsame.currentThread, hsame.readyList, ?_⟩
    intro st' hyield
    rw [hst] at hyield
    have hf := hquiet f (List.mem_cons_self ..)
    rw [(List.cons.inj hyield).1] at hf
    cases hf

private theorem Plain.advances_dispatch (h : k.Plain) (hlive : k.halted = false) {next : ThreadId}
    {rest : List ThreadId} (frames : List Frame) (hframes : ∀ f ∈ frames, f.quiet = true)
    (hqueue : ∀ t ∈ next :: rest, t = k.currentThread ∨ t ∈ k.readyList)
    (hnext : k.status next ≠ .justCreated) (hcurrent : k.status k.currentThread ≠ .justCreated)
    (hfalling : ∀ u ∈ rest, k.priority u ≤ k.priority next)
    (hwaiting : ∀ q, ((next :: rest).filter fun t => k.priority t = q) =
      k.waiting.filter fun t => k.priority t = q)
    (hk : k'.currentThread = next ∧ k'.readyList = rest ∧ k'.finished = k.finished ∧
      k'.yieldOnReturn = k.yieldOnReturn ∧ k'.halted = k.halted ∧
      k'.stack = Function.update k.stack k.currentThread frames ∧
      ∀ t, t ≠ next → t ≠ k.currentThread → k'.status t = k.status t) : Advances k k' := by
  obtain ⟨hto, hready, hfinished, hcalm, hhalted, hstack, hstatus⟩ := hk
  have hquiet : ∀ t ∈ next :: rest, ∀ f ∈ k'.stack t, f.quiet = true := by
    intro t ht
    rw [hstack]
    by_cases htc : t = k.currentThread
    · rw [htc, Function.update_self]
      exact hframes
    · rw [Function.update_of_ne htc]
      exact h.ready t ((hqueue t ht).resolve_left htc)
  have hcode : ∀ f ∈ k'.stack k'.currentThread, f.quiet = true := by
    rw [hto]
    exact hquiet next (List.mem_cons_self ..)
  constructor
  case plain =>
    refine ⟨.code hcode, ?_, hcalm.trans h.calm, ?_⟩
    · intro t ht
      rw [hready] at ht
      exact hquiet t (List.mem_cons_of_mem _ ht)
    · intro htrue
      exact absurd (hlive.symm.trans (hhalted.symm.trans htrue)) (by simp)
  case waiting =>
    intro q
    rw [waiting_code hcode, hto, hready]
    exact hwaiting q
  case finished => exact hfinished
  case created =>
    intro t ht
    rw [hstatus t]
    · exact ht
    · rintro rfl
      exact hnext ht
    · rintro rfl
      exact hcurrent ht
  case highest =>
    right
    rw [hready, hto]
    exact hfalling

private theorem Plain.advances_yield {prio : ThreadId → Int} (h : k.Plain)
    (hlive : k.halted = false) (hinv : Inv k) (hord : Ordered prio k)
    (hst : k.stack k.currentThread = [.yield])
    (hk : k.exec .step = some k') : Advances k k' := by
  have hc := hinv.atCode hst (by simp [Frame.cold])
  have hinv₀ : Inv { k with stack := Function.update k.stack k.currentThread [] } :=
    hinv.pop (by simp) hc.running hc.unfinished hc.doomed
  obtain ⟨next, rest, hq, hyield⟩ := hinv₀.yield_eq hc.running
  simp only [exec, hst, Kernel.resume] at hk
  rw [hyield] at hk
  have hord₁ : Ordered prio (k.makeReady k.currentThread) :=
    hord.makeReady (hinv.books.notMem_ready (by simp [hc.running]))
  have hqueue : (k.makeReady k.currentThread).readyList = next :: rest := hq
  have hmem : ∀ t ∈ next :: rest, t = k.currentThread ∨ t ∈ k.readyList := by
    intro t ht
    rw [← hqueue] at ht
    exact (List.mem_orderedInsert _).mp ht
  apply h.advances_dispatch hlive [.afterSwitch, .setLevel k.level]
    (by simp [Frame.quiet]) hmem
  · rcases hmem next (List.mem_cons_self ..) with heq | hready
    · rw [heq, hc.running]
      simp
    · rw [(hinv.books.ready next).mp hready]
      simp
  · rw [hc.running]
    simp
  · have hfalling := hord₁.falling
    rw [hqueue] at hfalling
    exact (List.pairwise_cons.mp hfalling).1
  · intro q
    rw [waiting_yield hst, ← hord.filter_makeReady, hqueue]
  · rw [← Option.some.inj hk]
    refine ⟨rfl, rfl, rfl, rfl, rfl, ?_, ?_⟩
    · simp [switchTo, push, Kernel.makeReady]
    · intro t hnext hcurrent
      simp [switchTo, push, Kernel.makeReady, hnext, hcurrent]

private theorem Plain.advances_sleep {prio : ThreadId → Int} (h : k.Plain)
    (hlive : k.halted = false) (hinv : Inv k) (hord : Ordered prio k)
    (hst : k.stack k.currentThread = [.sleepLoop true])
    (hk : k.exec .step = some k') : Advances k k' := by
  simp only [exec, hst, Kernel.resume, Kernel.sleepLoop, findNextToRun] at hk
  split at hk
  next hlevel =>
    cases hq : k.readyList with
    | nil =>
      simp only [hq, Option.bind_eq_bind, Option.bind_some, Option.some.injEq] at hk
      have hcurrent : k'.stack k'.currentThread = [.inIdle false, .sleepLoop true] := by
        rw [← hk]
        simp [push]
      have hready : k'.readyList = [] := by
        rw [← hk]
        rfl
      constructor
      case plain =>
        refine ⟨by rw [hcurrent, hready]; exact .idle, ?_, by rw [← hk]; exact h.calm, ?_⟩
        · intro t ht
          rw [hready] at ht
          cases ht
        · intro _
          rw [waiting_idle hcurrent, hready]
      case waiting =>
        intro q
        rw [waiting_idle hcurrent, waiting_sleep hst, hready, hq]
      case finished => rw [← hk]; rfl
      case created =>
        intro t ht
        rw [← hk]
        exact ht
      case highest =>
        right
        rw [hready]
        intro u hu
        cases hu
    | cons next rest =>
      have hready : k.status next = .ready := (hinv.books.ready next).mp (by simp [hq])
      simp only [hq, Option.bind_eq_bind, Option.bind_some, Kernel.run] at hk
      split at hk
      next =>
        apply h.advances_dispatch hlive [.afterSwitch] (by simp [Frame.quiet])
          (fun t ht => .inr (hq ▸ ht)) (by simp [hready]) hinv.created
        · have hfalling := hord.falling
          rw [hq] at hfalling
          exact (List.pairwise_cons.mp hfalling).1
        · intro q
          rw [waiting_sleep hst, hq]
        · rw [← Option.some.inj hk]
          refine ⟨rfl, rfl, rfl, rfl, rfl, ?_, ?_⟩
          · simp [push]
          · intro t hnext _
            simp [hnext]
      next => cases hk
  next => cases hk

private theorem Plain.advances_idle (h : k.Plain) (hempty : k.readyList = [])
    (hst : k.stack k.currentThread = [.inIdle false, .sleepLoop true])
    (hk : k.exec .step = some k') : Advances k k' := by
  simp only [exec, hst, Kernel.resume, Option.some.injEq] at hk
  have hcurrent : k'.stack k'.currentThread = [.sleepLoop true] := by
    rw [← hk]
    exact Function.update_self _ _ _
  have hready : k'.readyList = [] := by
    rw [← hk]
    exact hempty
  constructor
  case plain =>
    refine ⟨by rw [hcurrent]; exact .sleep, ?_, by rw [← hk]; exact h.calm, ?_⟩
    · intro t ht
      rw [hready] at ht
      cases ht
    · intro _
      rw [waiting_sleep hcurrent, hready]
  case waiting =>
    intro q
    rw [waiting_sleep hcurrent, waiting_idle hst, ← hk]
  case finished => rw [← hk]
  case created =>
    intro t ht
    rw [← hk]
    exact ht
  case highest =>
    refine .inl ⟨by rw [← hk], by rw [← hk], ?_⟩
    intro st hyield
    rw [hst] at hyield
    cases (List.cons.inj hyield).1

theorem Plain.advances {prio : ThreadId → Int} (h : k.Plain) (hlive : k.halted = false)
    (hinv : Inv k) (hord : Ordered prio k) (hk : k.exec .step = some k') : Advances k k' := by
  have hstage := h.stage
  generalize hst : k.stack k.currentThread = st at hstage
  generalize hready : k.readyList = ready at hstage
  cases hstage with
  | code hquiet =>
    cases st with
    | nil => simp [exec, hst] at hk
    | cons f st => exact (h.advances_quiet hlive hst hquiet hk).1
  | yield => exact h.advances_yield hlive hinv hord hst hk
  | sleep => exact h.advances_sleep hlive hinv hord hst hk
  | idle => exact h.advances_idle hready hst hk

/-- The current thread makes a call from its code, and nothing has been done for it yet. -/
structure Calls (k k' : Kernel) (frames : List Frame) : Prop where
  code : k.stack k.currentThread = []
  live : k'.halted = false
  currentThread : k'.currentThread = k.currentThread
  readyList : k'.readyList = k.readyList
  yieldOnReturn : k'.yieldOnReturn = k.yieldOnReturn
  stack : k'.stack = Function.update k.stack k.currentThread frames
  status : ∀ t, t ≠ k.currentThread → k'.status t = k.status t
  finished : ∀ t, k.finished t = true → k'.finished t = true

private theorem Calls.stack_current {frames : List Frame} (h : k.Calls k' frames) :
    k'.stack k'.currentThread = frames := by
  rw [h.stack, h.currentThread, Function.update_self]

theorem Plain.call (h : k.Plain) (hinv : Inv k) {frames : List Frame} (hcalls : k.Calls k' frames)
    (hstage : Stage k.readyList frames) : k'.Plain := by
  have hrunning := (hinv.atCode hcalls.code (by simp)).running
  constructor
  case stage =>
    rw [hcalls.stack_current, hcalls.readyList]
    exact hstage
  case ready =>
    intro t ht
    rw [hcalls.readyList] at ht
    have hne : t ≠ k.currentThread := by
      rintro rfl
      exact hinv.books.notMem_ready (by simp [hrunning]) ht
    rw [hcalls.stack, Function.update_of_ne hne]
    exact h.ready t ht
  case calm => exact hcalls.yieldOnReturn.trans h.calm
  case halted =>
    intro hhalted
    exact absurd (hcalls.live.symm.trans hhalted) (by simp)

private theorem Inv.unfinished_of_quiet (h : Inv k)
    (hquiet : ∀ f ∈ k.stack k.currentThread, f.quiet = true) :
    k.finished k.currentThread = false := by
  have hp := h.place
  generalize k.stack k.currentThread = st at hp hquiet
  generalize k.level = level at hp
  generalize k.toBeDestroyed = d at hp
  generalize decide (k.status k.currentThread = .running) = r at hp
  generalize k.finished k.currentThread = f at hp
  cases hp with
  | code _ | p _ _ | tick _ _ | switched _ => rfl
  | sleeping _ => simp [Frame.quiet] at hquiet
  | idling _ _ => simp [Frame.quiet] at hquiet

private theorem Inv.next_isSome (h : Inv k) {e : Event} (he : k.enabled e) :
    (k.next e).isSome = true := by
  obtain ⟨k', hk', -⟩ := h.exec he
  simp [next, he, hk']

private theorem calls_push (hlive : k.halted = false) (hst : k.stack k.currentThread = [])
    (frames : List Frame) : k.Calls (k.push frames) frames :=
  ⟨hst, hlive, rfl, rfl, rfl, by simp [push, hst], fun _ _ => rfl, fun _ hf => hf⟩

private theorem calls_yield (h : k.next (.call .yield) = some k') : k.Calls k' [.yield] := by
  obtain ⟨he, hk⟩ := next_cases h
  rw [← Option.some.inj hk]
  exact calls_push he.1 he.2 _

private theorem calls_setLevel {now : IntStatus} (h : k.next (.call (.setLevel now)) = some k') :
    k.Calls k' [.setLevel now] := by
  obtain ⟨he, hk⟩ := next_cases h
  rw [← Option.some.inj hk]
  exact calls_push he.1 he.2 _

private theorem calls_finish (h : k.next (.call .finish) = some k') :
    k.Calls k' [.sleepLoop true] ∧ k'.finished k.currentThread = true := by
  obtain ⟨he, hk⟩ := next_cases h
  have hst : k.stack k.currentThread = [] := he.2
  rw [← Option.some.inj hk]
  refine ⟨⟨hst, he.1, rfl, rfl, rfl, ?_, ?_, ?_⟩, ?_⟩
  · simp [push, hst]
  · intro t ht
    simp [push, ht]
  · intro t ht
    by_cases htc : t = k.currentThread
    · simp [push, htc]
    · simpa [push, htc] using ht
  · simp [push]

/-- The current thread forks a thread from its code. -/
structure Forks (k k' : Kernel) (t : ThreadId) : Prop where
  code : k.stack k.currentThread = []
  live : k'.halted = false
  currentThread : k'.currentThread = k.currentThread
  readyList : k'.readyList = (k.makeReady t).readyList
  yieldOnReturn : k'.yieldOnReturn = k.yieldOnReturn
  stack : k'.stack = Function.update (Function.update k.stack t [.begin]) k.currentThread
    [.setLevel k.level]
  status : k'.status = Function.update k.status t .ready
  finished : k'.finished = k.finished

private theorem Inv.forks (hinv : Inv k) {t : ThreadId} (h : k.next (.call (.fork t)) = some k') :
    k.Forks k' t := by
  obtain ⟨he, hk⟩ := next_cases h
  let k₀ : Kernel := { k with level := .intOff, stack := Function.update k.stack t [.begin] }
  have hready : t ∉ k₀.readyList := hinv.books.notMem_ready (by simp [he.2.2])
  have hne : k.currentThread ≠ t := by
    rintro rfl
    exact hinv.created he.2.2
  obtain ⟨k₁, hk₁, hk⟩ := Option.bind_eq_some_iff.mp hk
  have heq : k₀.makeReady t = k₁ := Option.some.inj ((readyToRun_eq rfl hready).symm.trans hk₁)
  rw [← Option.some.inj hk, ← heq]
  refine ⟨he.2.1, he.1, rfl, rfl, rfl, ?_, rfl, rfl⟩
  simp [push, Kernel.makeReady, k₀, hne, he.2.1]

theorem Forks.quiet {t : ThreadId} (h : k.Forks k' t) :
    ∀ f ∈ k'.stack k'.currentThread, f.quiet = true := by
  rw [h.currentThread, h.stack, Function.update_self]
  simp [Frame.quiet]

private theorem Forks.mem_ready {t : ThreadId} (h : k.Forks k' t) {u : ThreadId} :
    u ∈ k'.readyList ↔ u = t ∨ u ∈ k.readyList := by
  rw [h.readyList]
  exact List.mem_orderedInsert _

theorem Plain.fork (h : k.Plain) {t : ThreadId} (hforks : k.Forks k' t) : k'.Plain := by
  constructor
  case stage => exact .code hforks.quiet
  case ready =>
    intro u hu
    rw [hforks.stack]
    by_cases hmain : u = k.currentThread
    · rw [hmain, Function.update_self]
      simp [Frame.quiet]
    · rw [Function.update_of_ne hmain]
      by_cases hnew : u = t
      · rw [hnew, Function.update_self]
        simp [Frame.quiet]
      · rw [Function.update_of_ne hnew]
        exact h.ready u ((hforks.mem_ready.mp hu).resolve_left hnew)
  case calm => exact hforks.yieldOnReturn.trans h.calm
  case halted =>
    intro hhalted
    exact absurd (hforks.live.symm.trans hhalted) (by simp)

end Kernel

/-! ## The invariant of the test -/

namespace SelfTest

variable {p : ThreadId → Int} {iterations : ThreadId → Nat} {n : Nat} {s s' : SelfTest}

/-- What a step can do. -/
inductive Moves (n : Nat) (s : SelfTest) : TestLabel → SelfTest → Prop
  | step {k : Kernel} (hk : s.kernel.next .step = some k) : Moves n s .step (s.withKernel k)
  | setLevel {now : IntStatus} {k : Kernel} (hmain : s.kernel.currentThread = 0)
      (hk : s.kernel.next (.call (.setLevel now)) = some k) :
      Moves n s (.setLevel now) (s.withKernel k)
  | fork {k : Kernel} (hmain : s.kernel.currentThread = 0) (hyielded : s.yielded = false)
      (hn : s.forked < n) (hk : s.kernel.next (.call (.fork (s.forked + 1))) = some k) :
      Moves n s .fork { s with kernel := k, forked := s.forked + 1 }
  | mainYield {k : Kernel} (hmain : s.kernel.currentThread = 0) (hn : s.forked = n)
      (hk : s.kernel.next (.call .yield) = some k) :
      Moves n s .mainYield { s with kernel := k, yielded := true }
  | mainFinish {k : Kernel} (hmain : s.kernel.currentThread = 0) (hyielded : s.yielded = true)
      (hk : s.kernel.next (.call .finish) = some k) : Moves n s .mainFinish (s.withKernel k)
  | iterate {k : Kernel} (hne : s.kernel.currentThread ≠ 0)
      (hleft : s.left s.kernel.currentThread ≠ 0) (hk : s.kernel.next (.call .yield) = some k) :
      Moves n s .iterate
        { s with kernel := k,
                 left := Function.update s.left s.kernel.currentThread
                   (s.left s.kernel.currentThread - 1),
                 emitted := s.emitted ++ [s.kernel.currentThread] }
  | finish {k : Kernel} (hne : s.kernel.currentThread ≠ 0)
      (hleft : s.left s.kernel.currentThread = 0) (hk : s.kernel.next (.call .finish) = some k) :
      Moves n s .finish (s.withKernel k)

private theorem moves_of_step {l : TestLabel} (hs : s.step n l = some s') : s.Moves n l s' := by
  cases l with
  | step =>
    obtain ⟨k, hk, rfl⟩ := Option.map_eq_some_iff.mp hs
    exact .step hk
  | setLevel now =>
    obtain ⟨hmain, hs⟩ := Option.ite_none_right_eq_some.mp hs
    obtain ⟨k, hk, rfl⟩ := Option.map_eq_some_iff.mp hs
    exact .setLevel hmain hk
  | fork =>
    obtain ⟨⟨hmain, hyielded, hn⟩, hs⟩ := Option.ite_none_right_eq_some.mp hs
    obtain ⟨k, hk, rfl⟩ := Option.map_eq_some_iff.mp hs
    exact .fork hmain hyielded hn hk
  | mainYield =>
    obtain ⟨⟨hmain, hn⟩, hs⟩ := Option.ite_none_right_eq_some.mp hs
    obtain ⟨k, hk, rfl⟩ := Option.map_eq_some_iff.mp hs
    exact .mainYield hmain hn hk
  | mainFinish =>
    obtain ⟨⟨hmain, hyielded⟩, hs⟩ := Option.ite_none_right_eq_some.mp hs
    obtain ⟨k, hk, rfl⟩ := Option.map_eq_some_iff.mp hs
    exact .mainFinish hmain hyielded hk
  | iterate =>
    obtain ⟨⟨hne, hleft⟩, hs⟩ := Option.ite_none_right_eq_some.mp hs
    obtain ⟨k, hk, rfl⟩ := Option.map_eq_some_iff.mp hs
    exact .iterate hne hleft hk
  | finish =>
    obtain ⟨⟨hne, hleft⟩, hs⟩ := Option.ite_none_right_eq_some.mp hs
    obtain ⟨k, hk, rfl⟩ := Option.map_eq_some_iff.mp hs
    exact .finish hne hleft hk

/-- The threads of a priority that have turns to come, in the order of these turns. -/
def queue (s : SelfTest) (q : Int) : List ThreadId :=
  s.kernel.waiting.filter fun t => s.kernel.priority t = q

def emittedBy (s : SelfTest) (q : Int) : List ThreadId :=
  s.emitted.filter fun t => s.kernel.priority t = q

structure Inv (p : ThreadId → Int) (iterations : ThreadId → Nat) (n : Nat) (s : SelfTest) :
    Prop where
  reachable : (kernelSystem p fun _ => 0).Reachable s.kernel
  plain : s.kernel.Plain
  created : ∀ t, s.forked < t → s.kernel.status t = .justCreated
  present : ∀ t, 1 ≤ t → t ≤ s.forked → s.kernel.finished t = true ∨ t ∈ s.kernel.waiting
  highest : s.yielded = true →
    (∀ st, s.kernel.stack s.kernel.currentThread ≠ .yield :: st) →
    ∀ u ∈ s.kernel.readyList, s.kernel.priority u ≤ s.kernel.priority s.kernel.currentThread
  bounded : s.forked ≤ n
  forking : s.yielded = false → s.kernel.currentThread = 0 ∧
    (∀ f ∈ s.kernel.stack s.kernel.currentThread, f.quiet = true) ∧ s.emitted = [] ∧
    s.left = iterations ∧ ∀ q, 1 < q → s.queue q = ofPriority p s.forked q
  rotating : s.yielded = true → s.forked = n ∧ ∀ q, 1 < q →
    RoundRobin (ofPriority p n q) iterations (s.queue q) s.left (s.emittedBy q)

theorem Inv.kernel (h : s.Inv p iterations n) :
    s.kernel.Inv ∧ s.kernel.Ordered (Kernel.new p fun _ => 0).priority :=
  (Kernel.ordered_inductive p fun _ => 0).of_reachable h.reachable

private theorem Inv.priority_zero (h : s.Inv p iterations n) : s.kernel.priority 0 = 1 := by
  rw [h.kernel.2.fixed]
  rfl

private theorem Inv.priority_pos (h : s.Inv p iterations n) {t : ThreadId} (ht : t ≠ 0) :
    s.kernel.priority t = setPriority (p t) := by
  rw [h.kernel.2.fixed]
  simp [Kernel.new, ht]

private theorem Inv.same_priority (h : s.Inv p iterations n) {k : Kernel}
    (hr : (kernelSystem p fun _ => 0).Reachable k) : k.priority = s.kernel.priority := by
  rw [((Kernel.ordered_inductive p fun _ => 0).of_reachable hr).2.fixed, h.kernel.2.fixed]

private theorem Inv.queue_eq (h : s.Inv p iterations n)
    (hreach : (kernelSystem p fun _ => 0).Reachable s'.kernel) (q : Int) :
    s'.queue q = s'.kernel.waiting.filter fun t => s.kernel.priority t = q := by
  rw [queue, h.same_priority hreach]

private theorem Inv.emittedBy_eq (h : s.Inv p iterations n)
    (hreach : (kernelSystem p fun _ => 0).Reachable s'.kernel) (q : Int) :
    s'.emittedBy q = s'.emitted.filter fun t => s.kernel.priority t = q := by
  rw [emittedBy, h.same_priority hreach]

private theorem Inv.filter_main (h : s.Inv p iterations n) {q : Int} (hq : 1 < q) :
    ([0].filter fun t => s.kernel.priority t = q) = [] := by
  apply List.filter_cons_of_neg
  rw [h.priority_zero]
  simp only [decide_eq_true_eq]
  omega

theorem Inv.init (p : ThreadId → Int) (iterations : ThreadId → Nat) (n : Nat) :
    Inv p iterations n (new p iterations) := by
  constructor
  case reachable => exact .init rfl
  case plain =>
    constructor
    case stage => exact .code (by simp [new, Kernel.new])
    case ready => simp [new, Kernel.new]
    case calm => rfl
    case halted =>
      intro hhalted
      cases hhalted
  case created =>
    intro t (ht : 0 < t)
    have hne : t ≠ 0 := Nat.ne_of_gt ht
    simp [new, Kernel.new, hne]
  case present =>
    intro t h₁ (h₀ : t ≤ 0)
    omega
  case highest =>
    intro h
    cases h
  case bounded => exact Nat.zero_le n
  case forking =>
    intro _
    refine ⟨rfl, by simp [new, Kernel.new], rfl, rfl, ?_⟩
    intro q hq
    apply List.filter_cons_of_neg
    have hone : (new p iterations).kernel.priority 0 = 1 := rfl
    show ¬ decide ((new p iterations).kernel.priority 0 = q) = true
    rw [hone, decide_eq_true_eq]
    omega
  case rotating =>
    intro h
    cases h

private theorem Inv.kernelStep (h : s.Inv p iterations n) {k : Kernel}
    (hk : s.kernel.next .step = some k) : (s.withKernel k).Inv p iterations n := by
  obtain ⟨hinv, hord⟩ := h.kernel
  obtain ⟨he, hexec⟩ := Kernel.next_cases hk
  have hadvances := h.plain.advances he.1 hinv hord hexec
  have hreach : (kernelSystem p fun _ => 0).Reachable k := .step h.reachable (Kernel.next_step hk)
  have hpriority := h.same_priority hreach
  have hqueue : ∀ q, (s.withKernel k).queue q = s.queue q := by
    intro q
    rw [h.queue_eq hreach]
    exact hadvances.waiting q
  have hmem : ∀ t, t ∈ k.waiting ↔ t ∈ s.kernel.waiting := by
    intro t
    have hin := congrArg (t ∈ ·) (hadvances.waiting (s.kernel.priority t))
    simpa using hin
  constructor
  case reachable => exact hreach
  case plain => exact hadvances.plain
  case created => exact fun t ht => hadvances.created t (h.created t ht)
  case present =>
    intro t h₁ hn
    show k.finished t = true ∨ t ∈ k.waiting
    rw [hadvances.finished, hmem]
    exact h.present t h₁ hn
  case highest =>
    intro hy hst
    show ∀ u ∈ k.readyList, k.priority u ≤ k.priority k.currentThread
    rw [hpriority]
    rcases hadvances.highest with ⟨hcurrent, hready, hnot⟩ | hhighest
    · rw [hcurrent, hready]
      exact h.highest hy hnot
    · exact hhighest
  case bounded => exact h.bounded
  case forking =>
    intro hy
    obtain ⟨hmain, hquiet, hemitted, hleft, hall⟩ := h.forking hy
    have hstay : k.currentThread = s.kernel.currentThread ∧
        ∀ f ∈ k.stack k.currentThread, f.quiet = true := by
      cases hst : s.kernel.stack s.kernel.currentThread with
      | nil => exact absurd hst he.2
      | cons f st =>
        rw [hst] at hquiet
        exact (h.plain.advances_quiet he.1 hst hquiet hexec).2
    refine ⟨hstay.1.trans hmain, hstay.2, hemitted, hleft, ?_⟩
    intro q hq
    rw [hqueue]
    exact hall q hq
  case rotating =>
    intro hy
    obtain ⟨hn, hall⟩ := h.rotating hy
    refine ⟨hn, ?_⟩
    intro q hq
    rw [hqueue, h.emittedBy_eq hreach]
    exact hall q hq

/-- A call that the current thread makes from its code. What it means for the turns is to be
shown. -/
theorem Inv.call (h : s.Inv p iterations n) {frames : List Frame}
    (hcalls : s.kernel.Calls s'.kernel frames) (hstage : Stage s.kernel.readyList frames)
    (hreach : (kernelSystem p fun _ => 0).Reachable s'.kernel)
    (hself : s'.kernel.finished s.kernel.currentThread = true ∨
      s.kernel.currentThread ∈ s'.kernel.waiting)
    (hforked : s'.forked = s.forked)
    (hyielded : s'.yielded = true → s.yielded = true ∨ ∃ st, frames = .yield :: st)
    (hforking : s'.yielded = false → s'.kernel.currentThread = 0 ∧
      (∀ f ∈ frames, f.quiet = true) ∧ s'.emitted = [] ∧ s'.left = iterations ∧
      ∀ q, 1 < q → s'.queue q = ofPriority p s'.forked q)
    (hrotating : s'.yielded = true → s'.forked = n ∧ ∀ q, 1 < q →
      RoundRobin (ofPriority p n q) iterations (s'.queue q) s'.left (s'.emittedBy q)) :
    s'.Inv p iterations n := by
  have hinv := h.kernel.1
  constructor
  case reachable => exact hreach
  case plain => exact h.plain.call hinv hcalls hstage
  case created =>
    intro t ht
    rw [hforked] at ht
    have hold := h.created t ht
    rw [hcalls.status t]
    · exact hold
    · rintro rfl
      exact hinv.created hold
  case present =>
    intro t h₁ hn
    rw [hforked] at hn
    rcases h.present t h₁ hn with hdone | hwaits
    · exact .inl (hcalls.finished t hdone)
    · rw [Kernel.waiting_code (by rw [hcalls.code]; simp)] at hwaits
      rcases List.mem_cons.mp hwaits with rfl | hmem
      · exact hself
      · exact .inr (Kernel.mem_waiting_of_ready (by rw [hcalls.readyList]; exact hmem))
  case highest =>
    intro hy hnot u hu
    rcases hyielded hy with hold | ⟨st, hframes⟩
    · rw [hcalls.readyList] at hu
      rw [h.same_priority hreach, hcalls.currentThread]
      exact h.highest hold (by rw [hcalls.code]; simp) u hu
    · exact absurd (hcalls.stack_current.trans hframes) (hnot st)
  case bounded =>
    rw [hforked]
    exact h.bounded
  case forking =>
    intro hy
    rw [hcalls.stack_current]
    exact hforking hy
  case rotating => exact hrotating

private theorem queue_code (hst : s.kernel.stack s.kernel.currentThread = []) (q : Int) :
    s.queue q = (s.kernel.currentThread :: s.kernel.readyList).filter fun t =>
      s.kernel.priority t = q := by
  rw [queue, Kernel.waiting_code (by rw [hst]; simp)]

private theorem Inv.queue_main (h : s.Inv p iterations n)
    (hst : s.kernel.stack s.kernel.currentThread = []) (hmain : s.kernel.currentThread = 0)
    {q : Int} (hq : 1 < q) :
    s.queue q = s.kernel.readyList.filter fun t => s.kernel.priority t = q := by
  rw [queue_code hst, hmain, ← List.singleton_append, List.filter_append, h.filter_main hq]
  rfl

theorem Inv.setLevel (h : s.Inv p iterations n) (hmain : s.kernel.currentThread = 0)
    {now : IntStatus} {k : Kernel} (hk : s.kernel.next (.call (.setLevel now)) = some k) :
    (s.withKernel k).Inv p iterations n := by
  have hcalls := Kernel.calls_setLevel hk
  have hreach : (kernelSystem p fun _ => 0).Reachable k := .step h.reachable (Kernel.next_step hk)
  have hquiet : ∀ f ∈ [Frame.setLevel now], f.quiet = true := by simp [Frame.quiet]
  have hwaiting : k.waiting = s.kernel.currentThread :: s.kernel.readyList := by
    rw [Kernel.waiting_code (by rw [hcalls.stack_current]; exact hquiet), hcalls.currentThread,
      hcalls.readyList]
  have hqueue : ∀ q, (s.withKernel k).queue q = s.queue q := by
    intro q
    rw [queue_code hcalls.code, h.queue_eq hreach]
    exact congrArg (List.filter _) hwaiting
  refine h.call hcalls (.code hquiet) hreach (.inr ?_) rfl .inl ?_ ?_
  · show _ ∈ k.waiting
    rw [hwaiting]
    exact List.mem_cons_self ..
  · intro hy
    obtain ⟨-, -, hnone, hleft, hall⟩ := h.forking hy
    exact ⟨hcalls.currentThread.trans hmain, hquiet, hnone, hleft,
      fun q hq => (hqueue q).trans (hall q hq)⟩
  · intro hy
    obtain ⟨hn, hall⟩ := h.rotating hy
    refine ⟨hn, ?_⟩
    intro q hq
    rw [hqueue, h.emittedBy_eq hreach]
    exact hall q hq

private theorem Inv.mainYield (h : s.Inv p iterations n) (hmain : s.kernel.currentThread = 0)
    (hn : s.forked = n) {k : Kernel} (hk : s.kernel.next (.call .yield) = some k) :
    { s with kernel := k, yielded := true }.Inv p iterations n := by
  have hcalls := Kernel.calls_yield hk
  have hreach : (kernelSystem p fun _ => 0).Reachable k := .step h.reachable (Kernel.next_step hk)
  have hwaiting : k.waiting = s.kernel.readyList ++ [0] := by
    rw [Kernel.waiting_yield hcalls.stack_current, hcalls.currentThread, hcalls.readyList, hmain]
  have hqueue : ∀ q, 1 < q → { s with kernel := k, yielded := true }.queue q = s.queue q := by
    intro q hq
    rw [h.queue_main hcalls.code hmain hq, h.queue_eq hreach]
    show (k.waiting.filter fun t => s.kernel.priority t = q) = _
    rw [hwaiting, List.filter_append, h.filter_main hq, List.append_nil]
  refine h.call hcalls .yield hreach (.inr ?_) rfl (fun _ => .inr ⟨[], rfl⟩) nofun ?_
  · show _ ∈ k.waiting
    rw [hwaiting, hmain]
    simp
  · intro _
    refine ⟨hn, ?_⟩
    intro q hq
    rw [hqueue q hq, h.emittedBy_eq hreach]
    cases hy : s.yielded with
    | true => exact (h.rotating hy).2 q hq
    | false =>
      obtain ⟨-, -, hnone, hleft, hall⟩ := h.forking hy
      rw [hall q hq, hn]
      show RoundRobin _ _ _ s.left (s.emitted.filter _)
      rw [hleft, hnone]
      exact .init _ _

private theorem Inv.mainFinish (h : s.Inv p iterations n) (hmain : s.kernel.currentThread = 0)
    (hyielded : s.yielded = true) {k : Kernel} (hk : s.kernel.next (.call .finish) = some k) :
    (s.withKernel k).Inv p iterations n := by
  obtain ⟨hcalls, hfinished⟩ := Kernel.calls_finish hk
  have hreach : (kernelSystem p fun _ => 0).Reachable k := .step h.reachable (Kernel.next_step hk)
  have hqueue : ∀ q, 1 < q → (s.withKernel k).queue q = s.queue q := by
    intro q hq
    rw [h.queue_main hcalls.code hmain hq, h.queue_eq hreach]
    show (k.waiting.filter fun t => s.kernel.priority t = q) = _
    rw [Kernel.waiting_sleep hcalls.stack_current, hcalls.readyList]
  refine h.call hcalls .sleep hreach (.inl hfinished) rfl .inl ?_ ?_
  · intro hy
    exact absurd (hyielded.symm.trans hy) (by simp)
  · intro hy
    obtain ⟨hn, hall⟩ := h.rotating hy
    refine ⟨hn, ?_⟩
    intro q hq
    rw [hqueue q hq, h.emittedBy_eq hreach]
    exact hall q hq

private theorem Inv.yielded_of_ne (h : s.Inv p iterations n) (ht : s.kernel.currentThread ≠ 0) :
    s.yielded = true := by
  cases hy : s.yielded with
  | true => rfl
  | false => exact absurd (h.forking hy).1 ht

private theorem nodup_ofPriority (p : ThreadId → Int) (n : Nat) (q : Int) :
    (ofPriority p n q).Nodup :=
  (List.nodup_range' ..).filter _

private theorem Inv.iterate (h : s.Inv p iterations n) {t : ThreadId}
    (ht : s.kernel.currentThread = t) (hne : t ≠ 0) (hleft : s.left t ≠ 0) {k : Kernel}
    (hk : s.kernel.next (.call .yield) = some k) :
    { s with kernel := k, left := Function.update s.left t (s.left t - 1),
             emitted := s.emitted ++ [t] }.Inv p iterations n := by
  have hcalls := Kernel.calls_yield hk
  have hreach : (kernelSystem p fun _ => 0).Reachable k := .step h.reachable (Kernel.next_step hk)
  have hyielded := h.yielded_of_ne (ht ▸ hne)
  have hwaiting : k.waiting = s.kernel.readyList ++ [t] := by
    rw [Kernel.waiting_yield hcalls.stack_current, hcalls.currentThread, hcalls.readyList, ht]
  refine h.call hcalls .yield hreach (.inr ?_) rfl (fun _ => .inr ⟨[], rfl⟩) ?_ ?_
  · show _ ∈ k.waiting
    rw [hwaiting, ht]
    simp
  · intro hy
    exact absurd (hyielded.symm.trans hy) (by simp)
  · intro hy
    obtain ⟨hn, hall⟩ := h.rotating hyielded
    refine ⟨hn, ?_⟩
    intro q hq
    have hold := hall q hq
    rw [queue_code hcalls.code, ht] at hold
    rw [h.queue_eq hreach, h.emittedBy_eq hreach]
    show RoundRobin _ _ (k.waiting.filter _) (Function.update s.left t _)
      ((s.emitted ++ [t]).filter _)
    rw [hwaiting, List.filter_append, List.filter_append]
    by_cases hprio : s.kernel.priority t = q
    · have hone : ([t].filter fun u => s.kernel.priority u = q) = [t] :=
        List.filter_cons_of_pos (by simpa using hprio)
      rw [List.filter_cons_of_pos (by simpa using hprio)] at hold
      rw [hone]
      exact hold.turn (nodup_ofPriority p n q) hleft
    · -- the threads of another priority do not notice
      have hnone : ([t].filter fun u => s.kernel.priority u = q) = [] :=
        List.filter_cons_of_neg (by simpa using hprio)
      rw [List.filter_cons_of_neg (by simpa using hprio)] at hold
      rw [hnone, List.append_nil, List.append_nil]
      apply hold.congr
      intro u hu
      apply Function.update_of_ne
      rintro rfl
      have hmem := (List.mem_filter.mp hu).2
      rw [← h.priority_pos hne] at hmem
      exact hprio (by simpa using hmem)

theorem Inv.finish (h : s.Inv p iterations n) {t : ThreadId} (ht : s.kernel.currentThread = t)
    (hne : t ≠ 0) (hleft : s.left t = 0) {k : Kernel}
    (hk : s.kernel.next (.call .finish) = some k) : (s.withKernel k).Inv p iterations n := by
  obtain ⟨hcalls, hfinished⟩ := Kernel.calls_finish hk
  have hreach : (kernelSystem p fun _ => 0).Reachable k := .step h.reachable (Kernel.next_step hk)
  have hyielded := h.yielded_of_ne (ht ▸ hne)
  refine h.call hcalls .sleep hreach (.inl hfinished) rfl .inl ?_ ?_
  · intro hy
    exact absurd (hyielded.symm.trans hy) (by simp)
  · intro hy
    obtain ⟨hn, hall⟩ := h.rotating hyielded
    refine ⟨hn, ?_⟩
    intro q hq
    have hold := hall q hq
    rw [queue_code hcalls.code, ht] at hold
    rw [h.queue_eq hreach, h.emittedBy_eq hreach]
    show RoundRobin _ _ (k.waiting.filter _) s.left (s.emitted.filter _)
    rw [Kernel.waiting_sleep hcalls.stack_current, hcalls.readyList]
    by_cases hprio : s.kernel.priority t = q
    · rw [List.filter_cons_of_pos (by simpa using hprio)] at hold
      exact hold.leave hleft
    · rw [List.filter_cons_of_neg (by simpa using hprio)] at hold
      exact hold

private theorem ofPriority_succ (p : ThreadId → Int) (m : Nat) (q : Int) :
    ofPriority p (m + 1) q = ofPriority p m q ++ [m + 1].filter fun t => setPriority (p t) = q := by
  rw [ofPriority, ofPriority, List.range'_concat, List.filter_append, Nat.one_mul, Nat.add_comm]

private theorem Inv.queue_fork (h : s.Inv p iterations n) (hmain : s.kernel.currentThread = 0)
    {k : Kernel} (hforks : s.kernel.Forks k (s.forked + 1)) {q : Int} (hq : 1 < q)
    (hold : s.queue q = ofPriority p s.forked q) :
    (k.waiting.filter fun t => s.kernel.priority t = q) = ofPriority p (s.forked + 1) q := by
  have hnew : ([s.forked + 1].filter fun t => s.kernel.priority t = q) =
      [s.forked + 1].filter fun t => setPriority (p t) = q := by
    apply List.filter_congr
    intro t ht
    rw [h.priority_pos (List.mem_singleton.mp ht ▸ Nat.succ_ne_zero _)]
  rw [h.queue_main hforks.code hmain hq] at hold
  rw [Kernel.waiting_code hforks.quiet, hforks.currentThread, hmain, ← List.singleton_append,
    List.filter_append, h.filter_main hq, hforks.readyList, h.kernel.2.filter_makeReady,
    List.filter_append, hold, hnew]
  exact (ofPriority_succ p s.forked q).symm

theorem Inv.fork (h : s.Inv p iterations n) (hmain : s.kernel.currentThread = 0)
    (hyielded : s.yielded = false) (hn : s.forked < n) {k : Kernel}
    (hk : s.kernel.next (.call (.fork (s.forked + 1))) = some k) :
    { s with kernel := k, forked := s.forked + 1 }.Inv p iterations n := by
  have hforks := h.kernel.1.forks hk
  have hreach : (kernelSystem p fun _ => 0).Reachable k := .step h.reachable (Kernel.next_step hk)
  constructor
  case reachable => exact hreach
  case plain => exact h.plain.fork hforks
  case created =>
    intro t (ht : s.forked + 1 < t)
    rw [hforks.status, Function.update_of_ne (Nat.ne_of_gt ht)]
    exact h.created t (Nat.lt_of_succ_lt ht)
  case present =>
    intro t h₁ (ht : t ≤ s.forked + 1)
    show k.finished t = true ∨ t ∈ k.waiting
    rw [Kernel.waiting_code hforks.quiet, hforks.finished, hforks.currentThread]
    by_cases hnew : t = s.forked + 1
    · exact .inr (List.mem_cons_of_mem _ (hforks.mem_ready.mpr (.inl hnew)))
    · rcases h.present t h₁ (by omega) with hdone | hwaits
      · exact .inl hdone
      · right
        rw [Kernel.waiting_code (by rw [hforks.code]; simp)] at hwaits
        rcases List.mem_cons.mp hwaits with rfl | hready
        · exact List.mem_cons_self ..
        · exact List.mem_cons_of_mem _ (hforks.mem_ready.mpr (.inr hready))
  case highest =>
    intro hy
    exact absurd (hyielded.symm.trans hy) (by simp)
  case bounded => exact hn
  case forking =>
    intro _
    obtain ⟨-, -, hnone, hleft, hall⟩ := h.forking hyielded
    refine ⟨hforks.currentThread.trans hmain, hforks.quiet, hnone, hleft, ?_⟩
    intro q hq
    rw [h.queue_eq hreach]
    exact h.queue_fork hmain hforks hq (hall q hq)
  case rotating =>
    intro hy
    exact absurd (hyielded.symm.trans hy) (by simp)

theorem Inv.step (h : s.Inv p iterations n) {l : TestLabel} (hs : s.step n l = some s') :
    s'.Inv p iterations n := by
  cases moves_of_step hs with
  | step hk => exact h.kernelStep hk
  | setLevel hmain hk => exact h.setLevel hmain hk
  | fork hmain hyielded hn hk => exact h.fork hmain hyielded hn hk
  | mainYield hmain hn hk => exact h.mainYield hmain hn hk
  | mainFinish hmain hyielded hk => exact h.mainFinish hmain hyielded hk
  | iterate hne hleft hk => exact h.iterate rfl hne hleft hk
  | finish hne hleft hk => exact h.finish rfl hne hleft hk

theorem inv_inductive (p : ThreadId → Int) (iterations : ThreadId → Nat) (n : Nat) :
    (testSystem p iterations n).Inductive (Inv p iterations n) where
  init _ hs := hs ▸ Inv.init p iterations n
  step _ _ _ h hs := h.step hs

/-! ## Turns -/

theorem Inv.unfinished (h : s.Inv p iterations n) {t : ThreadId} (ht : t ∈ s.kernel.waiting) :
    s.kernel.finished t = false := by
  have hinv := h.kernel.1
  have hready : t ∈ s.kernel.readyList → s.kernel.finished t = false := by
    intro hmem
    exact hinv.books.unfinished (by simp [(hinv.books.ready t).mp hmem])
  have hstage := h.plain.stage
  generalize hst : s.kernel.stack s.kernel.currentThread = st at hstage
  generalize hlist : s.kernel.readyList = ready at hstage
  cases hstage with
  | code hquiet =>
    rw [Kernel.waiting_code (by rw [hst]; exact hquiet)] at ht
    rcases List.mem_cons.mp ht with rfl | ht
    · exact hinv.unfinished_of_quiet (by rw [hst]; exact hquiet)
    · exact hready ht
  | yield =>
    rw [Kernel.waiting_yield hst] at ht
    rcases List.mem_append.mp ht with ht | ht
    · exact hready ht
    · rw [List.mem_singleton.mp ht]
      exact (hinv.atCode hst (by simp [Frame.cold])).unfinished
  | sleep =>
    rw [Kernel.waiting_sleep hst] at ht
    exact hready ht
  | idle =>
    rw [Kernel.waiting_idle hst] at ht
    exact hready ht

private theorem mem_ofPriority {q : Int} {t : ThreadId} :
    t ∈ ofPriority p n q ↔ (1 ≤ t ∧ t ≤ n) ∧ setPriority (p t) = q := by
  rw [ofPriority, List.mem_filter, List.mem_range'_1, decide_eq_true_eq]
  apply and_congr_left'
  apply and_congr_right'
  rw [Nat.add_comm]
  exact Nat.lt_succ_iff

/-- The threads of a priority take turns at any time, and those who have turns to come have not
finished. -/
theorem Inv.turns (h : s.Inv p iterations n) {q : Int} (hq : 1 < q) :
    ∃ queue, RoundRobin (ofPriority p n q) iterations queue s.left (s.emittedBy q) ∧
      ∀ t ∈ queue, s.kernel.finished t = false := by
  have hunfinished : ∀ t ∈ s.queue q, s.kernel.finished t = false := by
    intro t ht
    exact h.unfinished (List.mem_filter.mp ht).1
  cases hy : s.yielded with
  | true => exact ⟨s.queue q, (h.rotating hy).2 q hq, hunfinished⟩
  | false =>
    obtain ⟨-, -, hnone, hleft, hall⟩ := h.forking hy
    refine ⟨ofPriority p n q, ?_, ?_⟩
    · rw [emittedBy, hnone, hleft]
      exact .init _ _
    · intro t ht
      obtain ⟨⟨h₁, -⟩, hprio⟩ := mem_ofPriority.mp ht
      by_cases hforked : t ≤ s.forked
      · apply hunfinished
        rw [hall q hq, mem_ofPriority]
        exact ⟨⟨h₁, hforked⟩, hprio⟩
      · -- it is yet to be forked
        apply h.kernel.1.books.unfinished
        rw [h.created t (Nat.lt_of_not_le hforked)]
        simp

private theorem Inv.rounds_so_far (h : s.Inv p iterations n) {q : Int} (hq : 1 < q) :
    s.emittedBy q <+: rounds iterations (ofPriority p n q)
      (lastRound iterations (ofPriority p n q)) := by
  obtain ⟨queue, hturns, -⟩ := h.turns hq
  exact hturns.turns_so_far

private theorem Inv.rounds_complete (h : s.Inv p iterations n) {q : Int} (hq : 1 < q)
    (hdone : ∀ t ∈ ofPriority p n q, s.kernel.finished t = true) :
    s.emittedBy q = rounds iterations (ofPriority p n q)
      (lastRound iterations (ofPriority p n q)) := by
  obtain ⟨queue, hturns, hunfinished⟩ := h.turns hq
  have hempty : queue = [] := by
    apply List.eq_nil_iff_forall_not_mem.mpr
    intro t ht
    have hfinished := hdone t (hturns.mem_of_queue ht)
    exact absurd (hfinished.symm.trans (hunfinished t ht)) (by simp)
  rw [hempty] at hturns
  exact hturns.turns_complete

private theorem Inv.finished_of_higher (h : s.Inv p iterations n)
    (hst : s.kernel.stack s.kernel.currentThread = []) (hne : s.kernel.currentThread ≠ 0)
    {u : ThreadId} (hu : 1 ≤ u ∧ u ≤ n)
    (hlt : setPriority (p s.kernel.currentThread) < setPriority (p u)) :
    s.kernel.finished u = true := by
  have hyielded := h.yielded_of_ne hne
  rw [← h.priority_pos hne, ← h.priority_pos (Nat.ne_of_gt hu.1)] at hlt
  rcases h.present u hu.1 ((h.rotating hyielded).1 ▸ hu.2) with hdone | hwaits
  · exact hdone
  · rw [Kernel.waiting_code (by rw [hst]; simp)] at hwaits
    rcases List.mem_cons.mp hwaits with rfl | hready
    · exact absurd hlt (lt_irrefl _)
    · have hle := h.highest hyielded (by rw [hst]; simp) u hready
      exact absurd hlt (not_lt.mpr hle)

private theorem Inv.emits (h : s.Inv p iterations n) {l : TestLabel} (hs : s.step n l = some s')
    {t : ThreadId} (ht : s'.emitted = s.emitted ++ [t]) {u : ThreadId} (hu : 1 ≤ u ∧ u ≤ n)
    (hlt : setPriority (p t) < setPriority (p u)) : s.kernel.finished u = true := by
  cases moves_of_step hs with
  | iterate hne hleft hk =>
    obtain rfl : s.kernel.currentThread = t := by simpa using ht
    exact h.finished_of_higher (Kernel.calls_yield hk).code hne hu hlt
  | step _ | setLevel _ _ | fork _ _ _ _ | mainYield _ _ _ | mainFinish _ _ _ | finish _ _ _ =>
    simp [withKernel] at ht

private theorem Inv.finished_of_halted (h : s.Inv p iterations n) (hhalted : s.kernel.halted = true)
    {t : ThreadId} (ht : 1 ≤ t ∧ t ≤ n) : s.kernel.finished t = true := by
  have hempty := h.plain.halted hhalted
  have hyielded : s.yielded = true := by
    cases hy : s.yielded with
    | true => rfl
    | false =>
      rw [Kernel.waiting_code (h.forking hy).2.1] at hempty
      cases hempty
  rcases h.present t ht.1 ((h.rotating hyielded).1 ▸ ht.2) with hdone | hwaits
  · exact hdone
  · rw [hempty] at hwaits
    cases hwaits

theorem Inv.progress (h : s.Inv p iterations n) (hlive : s.kernel.halted = false) :
    ∃ l ∈ [TestLabel.step, .fork, .mainYield, .iterate, .finish], (s.step n l).isSome = true := by
  have hinv := h.kernel.1
  by_cases hst : s.kernel.stack s.kernel.currentThread = []
  · by_cases hmain : s.kernel.currentThread = 0
    · by_cases hn : s.forked = n
      · refine ⟨.mainYield, by simp, ?_⟩
        simpa [SelfTest.step, hmain, hn] using hinv.next_isSome (e := .call .yield) ⟨hlive, hst⟩
      · refine ⟨.fork, by simp, ?_⟩
        have hyielded : s.yielded = false := by
          cases hy : s.yielded with
          | false => rfl
          | true => exact absurd (h.rotating hy).1 hn
        have hlt : s.forked < n := Nat.lt_of_le_of_ne h.bounded hn
        have hnext := hinv.next_isSome (e := .call (.fork (s.forked + 1)))
          ⟨hlive, hst, h.created _ (Nat.lt_succ_self _)⟩
        simpa [SelfTest.step, hmain, hyielded, hlt] using hnext
    · by_cases hleft : s.left s.kernel.currentThread = 0
      · refine ⟨.finish, by simp, ?_⟩
        simpa [SelfTest.step, hmain, hleft] using
          hinv.next_isSome (e := .call .finish) ⟨hlive, hst⟩
      · refine ⟨.iterate, by simp, ?_⟩
        simpa [SelfTest.step, hmain, hleft] using
          hinv.next_isSome (e := .call .yield) ⟨hlive, hst⟩
  · refine ⟨.step, by simp, ?_⟩
    simpa [SelfTest.step] using hinv.next_isSome (e := .step) ⟨hlive, hst⟩

end SelfTest

/-- The threads print strictly by priority and, within a priority above that of the main thread,
in rounds: in each round every thread that still has a turn prints one line, in the order of
forking. When a priority is done, the rounds are complete; the machine halts only when all
threads are done, and until then the test goes on. -/
theorem yielding_round_robin (p : ThreadId → Int) (iterations : ThreadId → Nat) (n : Nat)
    {s : SelfTest} (hr : (testSystem p iterations n).Reachable s) :
    (s.kernel.priority 0 = 1 ∧ ∀ t, t ≠ 0 → s.kernel.priority t = setPriority (p t)) ∧
    (∀ l s' t, s.step n l = some s' → s'.emitted = s.emitted ++ [t] →
      ∀ u, 1 ≤ u ∧ u ≤ n → setPriority (p t) < setPriority (p u) → s.kernel.finished u = true) ∧
    (∀ q, 1 < q →
      s.emittedBy q <+: rounds iterations (ofPriority p n q)
        (lastRound iterations (ofPriority p n q)) ∧
      ((∀ t ∈ ofPriority p n q, s.kernel.finished t = true) →
        s.emittedBy q = rounds iterations (ofPriority p n q)
          (lastRound iterations (ofPriority p n q)))) ∧
    (s.kernel.halted = true → ∀ t, 1 ≤ t ∧ t ≤ n → s.kernel.finished t = true) ∧
    (s.kernel.halted = false →
      ∃ l ∈ [TestLabel.step, .fork, .mainYield, .iterate, .finish], (s.step n l).isSome = true) := by
  have h := (SelfTest.inv_inductive p iterations n).of_reachable hr
  refine ⟨⟨h.priority_zero, fun t ht => h.priority_pos ht⟩, ?_, ?_, ?_, h.progress⟩
  · intro l s' t hs ht u hu hlt
    exact h.emits hs ht hu hlt
  · intro q hq
    exact ⟨h.rounds_so_far hq, h.rounds_complete hq⟩
  · intro hhalted t ht
    exact h.finished_of_halted hhalted ht

/-- Threads 1 and 2 of priority 5 print two lines and one line, thread 3 of priority 2 prints one;
then the main thread finishes and the machine halts. -/
private def threeThreads : List TestLabel :=
  let go := List.replicate 5 TestLabel.step
  List.flatten [[.fork, .step, .fork, .step, .fork, .step, .mainYield], go, [.iterate], go,
    [.iterate], go, [.iterate], go, [.finish], go, [.finish], go, [.iterate], go,
    [.finish, .step, .step, .step, .mainFinish, .step, .step]]

private def threePriorities (t : ThreadId) : Int := if t = 3 then 2 else 5

private def threeIterations (t : ThreadId) : Nat := if t = 1 then 2 else 1

theorem yielding_round_robin_three :
    ∃ s : SelfTest, (testSystem threePriorities threeIterations 3).Reachable s ∧
      s.kernel.halted = true ∧ s.emitted = [1, 2, 1, 3] ∧
      s.emittedBy 5 = rounds threeIterations [1, 2] 2 ∧ s.kernel.finished 3 = true := by
  have hrun : ((threeThreads.foldlM (SelfTest.step 3) (.new threePriorities threeIterations)).map
      fun s => (s.kernel.halted, s.emitted)) = some (true, [1, 2, 1, 3]) := by decide +kernel
  obtain ⟨s, hs, hend⟩ := Option.map_eq_some_iff.mp hrun
  obtain ⟨hhalted, hemitted⟩ := Prod.mk.inj hend
  have hr : (testSystem threePriorities threeIterations 3).Reachable s :=
    .foldlM (fun _ _ _ hs => hs) threeThreads (.init rfl) hs
  obtain ⟨-, -, hrounds, hdone, -⟩ := yielding_round_robin threePriorities threeIterations 3 hr
  have hfinished := hdone hhalted
  have hlist : ofPriority threePriorities 3 5 = [1, 2] := by decide
  have hlast : lastRound threeIterations [1, 2] = 2 := by decide
  have hcomplete := (hrounds 5 (by decide)).2
  rw [hlist, hlast] at hcomplete
  refine ⟨s, hr, hhalted, hemitted, hcomplete ?_, hfinished 3 (by decide)⟩
  intro t ht
  rw [← hlist] at ht
  exact hfinished t (SelfTest.mem_ofPriority.mp ht).1

end Nachos

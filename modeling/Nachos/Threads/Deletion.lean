import Nachos.Threads.Discipline

/-!
# Deleting threads

A thread cannot delete itself: `Run` leaves it in `toBeDestroyed`, and the thread that runs next
deletes it, back from `SWITCH` or in `Begin`. A run is recorded: which threads the constructor
with a priority has made, with its counter, and which threads have been deleted by whom.
-/

namespace Nachos

open Framework

namespace Kernel

def deletes (k : Kernel) : Event → Option ThreadId
  | .step => if switched (k.stack k.currentThread) then k.toBeDestroyed else none
  | _ => none

/-! ## What an event can do to the end of a thread -/

/-- Nobody finishes, is left to be deleted or is deleted, and there is no context switch. -/
structure SameFates (k k' : Kernel) : Prop where
  finished : k'.finished = k.finished
  toBeDestroyed : k'.toBeDestroyed = k.toBeDestroyed
  currentThread : k'.currentThread = k.currentThread

theorem SameFates.trans {k k₁ k' : Kernel} (h : k.SameFates k₁) (h' : k₁.SameFates k') :
    k.SameFates k' :=
  ⟨h'.finished.trans h.finished, h'.toBeDestroyed.trans h.toBeDestroyed,
    h'.currentThread.trans h.currentThread⟩

section

variable {k k' : Kernel}

private theorem readyToRun_fates {t : ThreadId} (h : k.readyToRun t = some k') :
    k.SameFates k' := by
  simp only [readyToRun] at h
  split at h
  next =>
    obtain ⟨readyList, -, hk⟩ := Option.bind_eq_some_iff.mp h
    obtain rfl := Option.some.inj hk
    exact ⟨rfl, rfl, rfl⟩
  next => cases h

theorem findNextToRun_fates {next : Option ThreadId} (h : k.findNextToRun = some (next, k')) :
    k.SameFates k' ∧ k'.halted = k.halted := by
  unfold findNextToRun at h
  split at h
  next =>
    cases hq : k.readyList with
    | nil =>
      rw [hq] at h
      obtain rfl := (Prod.mk.inj (Option.some.inj h)).2
      exact ⟨⟨rfl, rfl, rfl⟩, rfl⟩
    | cons u rest =>
      rw [hq] at h
      obtain rfl := (Prod.mk.inj (Option.some.inj h)).2
      exact ⟨⟨rfl, rfl, rfl⟩, rfl⟩
  next => cases h

private theorem setLevel_fates {now : IntStatus} (h : k.setLevel now = some k') :
    k.SameFates k' := by
  unfold setLevel at h
  split at h
  next =>
    obtain rfl := Option.some.inj h
    split <;> exact ⟨rfl, rfl, rfl⟩
  next => cases h

private theorem v_fates {s : SemId} (h : k.v s = some k') : k.SameFates k' := by
  unfold v at h
  rcases Semaphore.v_cases (k.semaphore s) with ⟨-, hv⟩ | ⟨u, queue, -, hv⟩
  · rw [hv] at h
    obtain rfl := Option.some.inj h
    exact ⟨rfl, rfl, rfl⟩
  · rw [hv] at h
    have hready := readyToRun_fates h
    exact ⟨hready.finished, hready.toBeDestroyed, hready.currentThread⟩

private theorem pLoop_fates {s : SemId} (h : k.pLoop s = some k') : k.SameFates k' := by
  unfold pLoop at h
  obtain ⟨⟨sem, taken⟩, -, h⟩ := Option.bind_eq_some_iff.mp h
  cases taken with
  | true =>
    obtain rfl := Option.some.inj h
    exact ⟨rfl, rfl, rfl⟩
  | false =>
    simp only [Bool.false_eq_true, if_false, sleep] at h
    split at h
    next =>
      obtain rfl := Option.some.inj h
      exact ⟨rfl, rfl, rfl⟩
    next => cases h

theorem run_fates {next : ThreadId} {finishing : Bool} (h : k.run next finishing = some k') :
    k'.finished = k.finished ∧
      k'.toBeDestroyed = (if finishing then some k.currentThread else k.toBeDestroyed) ∧
      k'.status k'.currentThread = .running ∧ k'.halted = k.halted := by
  unfold run at h
  split at h
  next =>
    obtain rfl := Option.some.inj h
    exact ⟨rfl, rfl, by simp, rfl⟩
  next => cases h

private theorem checkToBeDestroyed_fates (h : k.checkToBeDestroyed = some k') :
    k'.finished = k.finished ∧ k'.toBeDestroyed = none ∧
      k'.currentThread = k.currentThread := by
  unfold checkToBeDestroyed at h
  split at h
  next hd =>
    obtain rfl := Option.some.inj h
    exact ⟨rfl, hd, rfl⟩
  next =>
    split at h
    next => cases h
    next =>
      obtain rfl := Option.some.inj h
      exact ⟨rfl, rfl, rfl⟩

end

/-- What an event does to the end of a thread. -/
inductive Fate (k : Kernel) : Event → Kernel → Prop
  /-- nothing, though an unfinished thread may be switched away from -/
  | quiet {e : Event} {k' : Kernel} (hdeletes : k.deletes e = none)
      (hfinished : k'.finished = k.finished) (hdoomed : k'.toBeDestroyed = k.toBeDestroyed)
      (hcurrent : k'.currentThread = k.currentThread ∨
        (k.finished k.currentThread = false ∧ k'.finished k'.currentThread = false)) :
      Fate k e k'
  | finish {k' : Kernel}
      (hfinished : k'.finished = Function.update k.finished k.currentThread true)
      (hunfinished : k.finished k.currentThread = false)
      (hdoomed : k'.toBeDestroyed = none) (hnone : k.toBeDestroyed = none)
      (hcurrent : k'.currentThread = k.currentThread) : Fate k (.call .finish) k'
  /-- the finished thread is left to the next one -/
  | leave {k' : Kernel} (hdeletes : k.deletes .step = none) (hfinished : k'.finished = k.finished)
      (hcurrent : k.finished k.currentThread = true)
      (hnext : k'.finished k'.currentThread = false) (hhalted : k'.halted = k.halted)
      (hdoomed : k'.toBeDestroyed = some k.currentThread) (hnone : k.toBeDestroyed = none) :
      Fate k .step k'
  | delete {k' : Kernel} (t : ThreadId) (hdeletes : k.deletes .step = some t)
      (hfinished : k'.finished = k.finished) (hdoomed : k.toBeDestroyed = some t)
      (hnone : k'.toBeDestroyed = none) (hcurrent : k'.currentThread = k.currentThread) :
      Fate k .step k'

theorem Fate.of_same {k k' : Kernel} {e : Event} (hdeletes : k.deletes e = none)
    (h : k.SameFates k') : Fate k e k' :=
  .quiet hdeletes h.finished h.toBeDestroyed (.inl h.currentThread)

section

variable {k k' : Kernel}

private theorem Inv.fate_call (h : Inv k) {op : Op} (he : k.enabled (.call op))
    (hk : k.call op = some k') : Fate k (.call op) k' := by
  have hatCode := h.atCode (Traced.enabled_call he).2.1 (by simp)
  cases op with
  | fork t =>
    obtain ⟨k₁, hready, hk⟩ := Option.bind_eq_some_iff.mp hk
    obtain rfl := Option.some.inj hk
    have hsame := readyToRun_fates hready
    exact .of_same rfl ⟨hsame.finished, hsame.toBeDestroyed, hsame.currentThread⟩
  | finish =>
    obtain rfl := Option.some.inj hk
    exact .finish rfl hatCode.unfinished hatCode.doomed hatCode.doomed rfl
  | v s =>
    obtain ⟨k₁, hv, hk⟩ := Option.bind_eq_some_iff.mp hk
    obtain rfl := Option.some.inj hk
    have hsame := v_fates hv
    exact .of_same rfl ⟨hsame.finished, hsame.toBeDestroyed, hsame.currentThread⟩
  | yield | p _ | setLevel _ | oneTick | setStatus _ =>
    obtain rfl := Option.some.inj hk
    exact .of_same rfl ⟨rfl, rfl, rfl⟩

private theorem fate_handler {a : HandlerAction} (hk : k.exec (.handler a) = some k') :
    Fate k (.handler a) k' := by
  obtain ⟨k₁, hhandle, hk⟩ := Option.bind_eq_some_iff.mp hk
  obtain rfl := Option.some.inj hk
  have hsame : k.SameFates k₁ := by
    cases a with
    | p s =>
      have h := setLevel_fates hhandle
      exact ⟨h.finished, h.toBeDestroyed, h.currentThread⟩
    | v s =>
      obtain ⟨k₂, hv, hlevel⟩ := Option.bind_eq_some_iff.mp hhandle
      have h := (v_fates hv).trans (setLevel_fates hlevel)
      exact ⟨h.finished, h.toBeDestroyed, h.currentThread⟩
    | alarm =>
      simp only [handle] at hhandle
      split at hhandle
      next =>
        split at hhandle
        next =>
          obtain rfl := Option.some.inj hhandle
          exact ⟨rfl, rfl, rfl⟩
        next => cases hhandle
      next =>
        obtain rfl := Option.some.inj hhandle
        exact ⟨rfl, rfl, rfl⟩
  exact .of_same rfl ⟨hsame.finished, hsame.toBeDestroyed, hsame.currentThread⟩

private theorem place_sleepLoop {finishing : Bool} {st : List Frame} {level : IntStatus}
    {d : Option ThreadId} {r fin : Bool} (h : Place (.sleepLoop finishing :: st) level d r fin) :
    d = none ∧ fin = finishing := by
  cases h with
  | code hcold => simp [Frame.cold] at hcold
  | switched hs => cases hs
  | sleeping _ => exact ⟨rfl, rfl⟩

private theorem fate_check (hswitched : switched (k.stack k.currentThread) = true)
    (hfinished : k'.finished = k.finished) (hnone : k'.toBeDestroyed = none)
    (hcurrent : k'.currentThread = k.currentThread) : Fate k .step k' := by
  have hdeletes : k.deletes .step = k.toBeDestroyed := if_pos hswitched
  cases hd : k.toBeDestroyed with
  | none =>
    exact .quiet (hdeletes.trans hd) hfinished (hnone.trans hd.symm) (.inl hcurrent)
  | some t => exact .delete t (hdeletes.trans hd) hfinished hd hnone hcurrent

private theorem Inv.fate_step (h : Inv k) (h' : Inv k') {f : Frame} {st : List Frame}
    (hst : k.stack k.currentThread = f :: st)
    (hk : { k with stack := Function.update k.stack k.currentThread st }.resume f = some k') :
    Fate k .step k' := by
  have hp := h.place
  rw [hst] at hp
  have hdeletes (hf : switched (f :: st) = false) : k.deletes .step = none := by
    rw [deletes, hst, hf]
    rfl
  cases f with
  | setLevel now =>
    have hsame := setLevel_fates hk
    exact .of_same (hdeletes rfl) ⟨hsame.finished, hsame.toBeDestroyed, hsame.currentThread⟩
  | oneTick | restoreStatus old =>
    obtain rfl := Option.some.inj hk
    exact .of_same (hdeletes rfl) ⟨rfl, rfl, rfl⟩
  | inOneTick old =>
    obtain rfl := Option.some.inj hk
    unfold endOneTick
    split <;> exact .of_same (hdeletes rfl) ⟨rfl, rfl, rfl⟩
  | yield =>
    obtain ⟨k₁, hready, hk⟩ := Option.bind_eq_some_iff.mp hk
    obtain ⟨⟨next, k₂⟩, hnext, hk⟩ := Option.bind_eq_some_iff.mp hk
    have hsame := (readyToRun_fates hready).trans (findNextToRun_fates hnext).1
    have hatCode := h.atCode hst (by simp [Frame.cold])
    cases next with
    | none => cases hk
    | some next =>
      obtain ⟨hfinished, hdoomed, hrunning, -⟩ := run_fates hk
      have hnext : k'.finished k'.currentThread = false := h'.books.unfinished (by simp [hrunning])
      exact .quiet (hdeletes rfl) (hfinished.trans hsame.finished)
        (hdoomed.trans hsame.toBeDestroyed) (.inr ⟨hatCode.unfinished, hnext⟩)
  | pLoop s =>
    have hsame := pLoop_fates hk
    exact .of_same (hdeletes rfl) ⟨hsame.finished, hsame.toBeDestroyed, hsame.currentThread⟩
  | sleepLoop finishing =>
    obtain ⟨⟨next, k₁⟩, hnext, hk⟩ := Option.bind_eq_some_iff.mp hk
    obtain ⟨hsame, hsameHalted⟩ := findNextToRun_fates hnext
    have hplace := place_sleepLoop hp
    cases next with
    | none =>
      obtain rfl := Option.some.inj hk
      exact .of_same (hdeletes rfl) ⟨hsame.finished, hsame.toBeDestroyed, hsame.currentThread⟩
    | some next =>
      obtain ⟨hfinished, hdoomed, hrunning, hhalted⟩ := run_fates hk
      have hnext : k'.finished k'.currentThread = false := h'.books.unfinished (by simp [hrunning])
      cases finishing with
      | false =>
        exact .quiet (hdeletes rfl) (hfinished.trans hsame.finished)
          (hdoomed.trans hsame.toBeDestroyed) (.inr ⟨hplace.2, hnext⟩)
      | true =>
        have hleft : k'.toBeDestroyed = some k.currentThread := by
          rw [hdoomed, hsame.currentThread]
          rfl
        exact .leave (hdeletes rfl) (hfinished.trans hsame.finished) hplace.2 hnext
          (hhalted.trans hsameHalted) hleft hplace.1
  | inIdle fired =>
    cases fired <;> obtain rfl := Option.some.inj hk <;>
      exact .of_same (hdeletes rfl) ⟨rfl, rfl, rfl⟩
  | afterSwitch =>
    simp only [Kernel.resume] at hk
    split at hk
    next =>
      obtain ⟨hfinished, hnone, hcurrent⟩ := checkToBeDestroyed_fates hk
      exact fate_check (by rw [hst]; rfl) hfinished hnone hcurrent
    next => cases hk
  | begin =>
    obtain ⟨k₁, hcheck, hk⟩ := Option.bind_eq_some_iff.mp hk
    obtain rfl := Option.some.inj hk
    obtain ⟨hfinished, hnone, hcurrent⟩ := checkToBeDestroyed_fates hcheck
    exact fate_check (by rw [hst]; rfl) hfinished hnone hcurrent

theorem Inv.fate (h : Inv k) {e : Event} (he : k.enabled e) (hk : k.exec e = some k') :
    Fate k e k' := by
  obtain ⟨k₁, hk₁, h'⟩ := h.exec he
  obtain rfl := Option.some.inj (hk.symm.trans hk₁)
  cases e with
  | call op => exact h.fate_call he hk
  | step =>
    simp only [Kernel.exec] at hk
    split at hk
    next => cases hk
    next f st hst => exact h.fate_step h' hst hk
  | handler a => exact fate_handler hk

end

private theorem place_doomed {st : List Frame} {level : IntStatus} {t : ThreadId} {r fin : Bool}
    (h : Place st level (some t) r fin) : switched st = true := by
  cases h with
  | switched hs =>
    cases hs with
    | begin => rfl
    | switched _ => rfl

private theorem Inv.switched_of_doomed {k : Kernel} (h : Inv k) {t : ThreadId}
    (hd : k.toBeDestroyed = some t) : switched (k.stack k.currentThread) = true :=
  place_doomed (hd ▸ h.place)

private theorem not_interruptible_of_switched {st : List Frame} (h : switched st = true) :
    interruptible st = false := by
  cases st with
  | nil => rfl
  | cons f st => cases f <;> first | rfl | cases h

end Kernel

/-! ## Recorded runs -/

/-- `MAX_THREAD_NUM`. -/
abbrev maxThreadNum : Int := 128

/-- The kernel with the counter of the constructor and the history of its threads: those that the
constructor with a priority has made, and those that have been deleted, with the thread that
deleted each of them. -/
structure Population where
  kernel : Kernel
  threadNum : Int
  created : List ThreadId
  deleted : List (ThreadId × ThreadId)

inductive PopulationEvent
  | construct (t : ThreadId)
  | kernel (e : Event)

namespace Population

def new (p : ThreadId → Int) (n : SemId → Nat) : Population :=
  { kernel := .new p n, threadNum := 0, created := [], deleted := [] }

/-- `Thread::Thread` with a priority. -/
def construct (s : Population) (t : ThreadId) : Option Population :=
  if s.threadNum + 1 > maxThreadNum then none
  else some { s with threadNum := s.threadNum + 1, created := t :: s.created }

def record (s : Population) (e : Event) (k' : Kernel) : Population :=
  { s with
    kernel := k',
    deleted := (s.kernel.deletes e).toList.map (·, s.kernel.currentThread) ++ s.deleted }

def enabled (s : Population) : PopulationEvent → Prop
  | .construct t =>
    s.kernel.halted = false ∧ s.kernel.stack s.kernel.currentThread = [] ∧
      s.kernel.status t = .justCreated ∧ t ∉ s.created
  | .kernel e => s.kernel.enabled e

instance (s : Population) : (e : PopulationEvent) → Decidable (s.enabled e)
  | .construct _ => inferInstanceAs (Decidable (_ ∧ _ ∧ _ ∧ _))
  | .kernel e => inferInstanceAs (Decidable (s.kernel.enabled e))

/-- A failed ASSERT is `none`. -/
def exec (s : Population) : PopulationEvent → Option Population
  | .construct t => s.construct t
  | .kernel e => (s.kernel.exec e).map (s.record e)

def next (s : Population) (e : PopulationEvent) : Option Population :=
  if s.enabled e then s.exec e else none

def Deleted (s : Population) (t : ThreadId) : Prop := t ∈ s.deleted.map Prod.fst

instance (s : Population) (t : ThreadId) : Decidable (s.Deleted t) :=
  inferInstanceAs (Decidable (_ ∈ _))

def live (s : Population) : List ThreadId := s.created.filter fun t => ¬ s.Deleted t

end Population

def populationSystem (p : ThreadId → Int) (n : SemId → Nat) :
    System Population PopulationEvent where
  init s := s = .new p n
  step s e s' := s.next e = some s'

namespace Population

/-- What the history of a run owes to the state of the kernel. -/
structure Accounts (s : Population) : Prop where
  inv : s.kernel.Inv
  doomed : ∀ t, s.kernel.toBeDestroyed = some t →
    s.kernel.finished t = true ∧ ¬ s.Deleted t ∧ s.kernel.halted = false
  nodup : (s.deleted.map Prod.fst).Nodup
  deleted : ∀ t, s.Deleted t → s.kernel.finished t = true ∧ t ≠ s.kernel.currentThread
  accounted : ∀ t, s.kernel.finished t = true →
    t = s.kernel.currentThread ∨ s.kernel.toBeDestroyed = some t ∨ s.Deleted t
  created : s.created.Nodup
  threadNum : s.threadNum = s.created.length
  limit : s.threadNum ≤ maxThreadNum

private theorem accounts_new (p : ThreadId → Int) (n : SemId → Nat) : Accounts (.new p n) := by
  constructor
  case inv => exact Kernel.Inv.init p n
  case doomed =>
    intro t ht
    cases ht
  case nodup => exact List.nodup_nil
  case deleted =>
    intro t ht
    cases ht
  case accounted =>
    intro t ht
    cases ht
  case created => exact List.nodup_nil
  case threadNum => rfl
  case limit =>
    show (0 : Int) ≤ maxThreadNum
    decide

variable {s s' : Population}

private theorem Accounts.construct (h : Accounts s) {t : ThreadId} (he : s.enabled (.construct t))
    (hs : s.construct t = some s') : Accounts s' := by
  unfold Population.construct at hs
  split at hs
  next => cases hs
  next hlimit =>
    obtain rfl := Option.some.inj hs
    constructor
    case inv => exact h.inv
    case doomed => exact h.doomed
    case nodup => exact h.nodup
    case deleted => exact h.deleted
    case accounted => exact h.accounted
    case created => exact List.nodup_cons.mpr ⟨he.2.2.2, h.created⟩
    case threadNum =>
      show s.threadNum + 1 = ((t :: s.created).length : Int)
      rw [h.threadNum, List.length_cons]
      rfl
    case limit =>
      show s.threadNum + 1 ≤ maxThreadNum
      omega

private theorem record_none {e : Event} {k' : Kernel} (h : s.kernel.deletes e = none) :
    s.record e k' = { s with kernel := k' } := by
  simp [record, h]

private theorem record_some {e : Event} {k' : Kernel} {t : ThreadId}
    (h : s.kernel.deletes e = some t) :
    s.record e k' =
      { s with kernel := k', deleted := (t, s.kernel.currentThread) :: s.deleted } := by
  simp [record, h]

private theorem Accounts.deletes_doomed (h : Accounts s) {t : ThreadId}
    (hd : s.kernel.toBeDestroyed = some t) {e : PopulationEvent} (he : s.enabled e) :
    e = .kernel .step ∧ s.kernel.deletes .step = some t := by
  have hswitched := h.inv.switched_of_doomed hd
  have hstep : s.kernel.deletes .step = some t := (if_pos hswitched).trans hd
  refine ⟨?_, hstep⟩
  cases e with
  | construct u =>
    rw [he.2.1] at hswitched
    cases hswitched
  | kernel e =>
    cases e with
    | step => rfl
    | call op =>
      rw [(Traced.enabled_call he).2.1] at hswitched
      cases hswitched
    | handler a =>
      have hint := (Traced.enabled_handler he).2
      rw [Kernel.not_interruptible_of_switched hswitched] at hint
      cases hint

private theorem Accounts.not_doomed (h : Accounts s) {e : Event} (he : s.kernel.enabled e)
    (hdeletes : s.kernel.deletes e = none) : s.kernel.toBeDestroyed = none := by
  cases hd : s.kernel.toBeDestroyed with
  | none => rfl
  | some t =>
    obtain ⟨heq, hsome⟩ := h.deletes_doomed hd (e := .kernel e) he
    obtain rfl := PopulationEvent.kernel.inj heq
    rw [hsome] at hdeletes
    cases hdeletes

/-- An event of the kernel that deletes nobody: only what the history owes to the kernel is to be
shown. -/
private theorem Accounts.undeleting (h : Accounts s) {k' : Kernel} (hinv : k'.Inv)
    (hdoomed : ∀ t, k'.toBeDestroyed = some t →
      k'.finished t = true ∧ ¬ s.Deleted t ∧ k'.halted = false)
    (hdeleted : ∀ t, s.Deleted t → k'.finished t = true ∧ t ≠ k'.currentThread)
    (haccounted : ∀ t, k'.finished t = true →
      t = k'.currentThread ∨ k'.toBeDestroyed = some t ∨ s.Deleted t) :
    Accounts { s with kernel := k' } :=
  ⟨hinv, hdoomed, h.nodup, hdeleted, haccounted, h.created, h.threadNum, h.limit⟩

private theorem Accounts.deleted_next (h : Accounts s) {k' : Kernel}
    (hfinished : k'.finished = s.kernel.finished)
    (hcurrent : k'.currentThread = s.kernel.currentThread ∨
      k'.finished k'.currentThread = false) {t : ThreadId} (ht : s.Deleted t) :
    k'.finished t = true ∧ t ≠ k'.currentThread := by
  obtain ⟨hfin, hne⟩ := h.deleted t ht
  rw [← hfinished] at hfin
  refine ⟨hfin, ?_⟩
  rcases hcurrent with hsame | hnext
  · rw [hsame]
    exact hne
  · rintro rfl
    rw [hfin] at hnext
    cases hnext

theorem Accounts.quiet (h : Accounts s) {k' : Kernel} (hinv : k'.Inv)
    (hnone : s.kernel.toBeDestroyed = none) (hfinished : k'.finished = s.kernel.finished)
    (hdoomed : k'.toBeDestroyed = s.kernel.toBeDestroyed)
    (hcurrent : k'.currentThread = s.kernel.currentThread ∨
      s.kernel.finished s.kernel.currentThread = false ∧ k'.finished k'.currentThread = false) :
    Accounts { s with kernel := k' } := by
  apply h.undeleting hinv
  · intro t ht
    rw [hdoomed, hnone] at ht
    cases ht
  · intro t ht
    exact h.deleted_next hfinished (hcurrent.imp_right And.right) ht
  · intro t ht
    rw [hfinished] at ht
    rw [hdoomed]
    apply (h.accounted t ht).imp_left
    intro heq
    rcases hcurrent with hsame | ⟨hunfinished, -⟩
    · rw [hsame]
      exact heq
    · rw [heq, hunfinished] at ht
      cases ht

theorem Accounts.finish (h : Accounts s) {k' : Kernel} (hinv : k'.Inv)
    (hnone : s.kernel.toBeDestroyed = none)
    (hfinished : k'.finished = Function.update s.kernel.finished s.kernel.currentThread true)
    (hdoomed : k'.toBeDestroyed = none) (hcurrent : k'.currentThread = s.kernel.currentThread) :
    Accounts { s with kernel := k' } := by
  apply h.undeleting hinv
  · intro t ht
    rw [hdoomed] at ht
    cases ht
  · intro t ht
    obtain ⟨hfin, hne⟩ := h.deleted t ht
    rw [hcurrent, hfinished, Function.update_of_ne hne]
    exact ⟨hfin, hne⟩
  · intro t ht
    rw [hcurrent]
    by_cases heq : t = s.kernel.currentThread
    · exact .inl heq
    · rw [hfinished, Function.update_of_ne heq] at ht
      rw [hdoomed, ← hnone]
      exact h.accounted t ht

theorem Accounts.leave (h : Accounts s) {k' : Kernel} (hinv : k'.Inv)
    (hnone : s.kernel.toBeDestroyed = none) (hlive : k'.halted = false)
    (hfinished : k'.finished = s.kernel.finished)
    (hcurrent : s.kernel.finished s.kernel.currentThread = true)
    (hnext : k'.finished k'.currentThread = false)
    (hdoomed : k'.toBeDestroyed = some s.kernel.currentThread) :
    Accounts { s with kernel := k' } := by
  apply h.undeleting hinv
  · intro t ht
    obtain rfl := Option.some.inj (hdoomed.symm.trans ht)
    rw [hfinished]
    exact ⟨hcurrent, fun hdel => (h.deleted _ hdel).2 rfl, hlive⟩
  · intro t ht
    exact h.deleted_next hfinished (.inr hnext) ht
  · intro t ht
    rw [hfinished] at ht
    rw [hdoomed]
    rcases h.accounted t ht with heq | hsome | hdel
    · exact .inr (.inl (congrArg some heq.symm))
    · rw [hnone] at hsome
      cases hsome
    · exact .inr (.inr hdel)

theorem Accounts.delete (h : Accounts s) {k' : Kernel} (hinv : k'.Inv) {t : ThreadId}
    (hdoomed : s.kernel.toBeDestroyed = some t) (hfinished : k'.finished = s.kernel.finished)
    (hgone : k'.toBeDestroyed = none) (hcurrent : k'.currentThread = s.kernel.currentThread) :
    Accounts { s with kernel := k', deleted := (t, s.kernel.currentThread) :: s.deleted } := by
  obtain ⟨hfin, hfresh, -⟩ := h.doomed t hdoomed
  constructor
  case inv => exact hinv
  case doomed =>
    intro u hu
    have hu' : k'.toBeDestroyed = some u := hu
    rw [hgone] at hu'
    cases hu'
  case nodup => exact List.nodup_cons.mpr ⟨hfresh, h.nodup⟩
  case deleted =>
    intro u hu
    show k'.finished u = true ∧ u ≠ k'.currentThread
    rw [hfinished, hcurrent]
    rcases List.mem_cons.mp hu with rfl | hu
    · exact ⟨hfin, h.inv.doomed _ hdoomed⟩
    · exact h.deleted u hu
  case accounted =>
    intro u hu
    have hu' : k'.finished u = true := hu
    show u = k'.currentThread ∨ k'.toBeDestroyed = some u ∨ _
    rw [hfinished] at hu'
    rw [hcurrent]
    rcases h.accounted u hu' with heq | hsome | hdel
    · exact .inl heq
    · obtain rfl := Option.some.inj (hdoomed.symm.trans hsome)
      exact .inr (.inr List.mem_cons_self)
    · exact .inr (.inr (List.mem_cons_of_mem _ hdel))
  case created => exact h.created
  case threadNum => exact h.threadNum
  case limit => exact h.limit

theorem Accounts.record (h : Accounts s) {e : Event} {k' : Kernel} (he : s.kernel.enabled e)
    (hk : s.kernel.exec e = some k') : Accounts (s.record e k') := by
  obtain ⟨k₁, hk₁, hinv⟩ := h.inv.exec he
  obtain rfl := Option.some.inj (hk.symm.trans hk₁)
  cases h.inv.fate he hk with
  | quiet hdeletes hfinished hdoomed hcurrent =>
    rw [record_none hdeletes]
    exact h.quiet hinv (h.not_doomed he hdeletes) hfinished hdoomed hcurrent
  | finish hfinished hunfinished hdoomed _ hcurrent =>
    rw [record_none rfl]
    exact h.finish hinv (h.not_doomed he rfl) hfinished hdoomed hcurrent
  | leave hdeletes hfinished hcurrent hnext hhalted hdoomed _ =>
    rw [record_none hdeletes]
    exact h.leave hinv (h.not_doomed he hdeletes) (hhalted.trans he.1) hfinished hcurrent hnext
      hdoomed
  | delete t hdeletes hfinished hdoomed hgone hcurrent =>
    rw [record_some hdeletes]
    exact h.delete hinv hdoomed hfinished hgone hcurrent

theorem Accounts.next (h : Accounts s) {e : PopulationEvent} (hs : s.next e = some s') :
    Accounts s' := by
  unfold Population.next at hs
  split at hs
  next he =>
    cases e with
    | construct t => exact h.construct he hs
    | kernel e =>
      obtain ⟨k', hk, rfl⟩ := Option.map_eq_some_iff.mp hs
      exact h.record he hk
  next => cases hs

theorem accounts_inductive (p : ThreadId → Int) (n : SemId → Nat) :
    (populationSystem p n).Inductive Accounts where
  init _ h := h ▸ accounts_new p n
  step _ _ _ h hs := h.next hs

def OutOfReach (k : Kernel) (t : ThreadId) : Prop :=
  t ≠ k.currentThread ∧ t ∉ k.readyList ∧ ∀ i, t ∉ (k.semaphore i).queue

private theorem outOfReach_of_finished {k : Kernel} (h : k.Inv) {t : ThreadId}
    (hfinished : k.finished t = true) (hne : t ≠ k.currentThread) : OutOfReach k t := by
  have hblocked := h.books.finished t hfinished
  refine ⟨hne, h.books.notMem_ready (by simp [hblocked]), ?_⟩
  intro i hi
  have hwaiting := ((h.books.waiting t).mp ⟨i, hi⟩).2
  rw [hfinished] at hwaiting
  cases hwaiting

/-- Only the thread itself, when it gives the processor away for good, is put into
`toBeDestroyed`. -/
private theorem Accounts.leaves (h : Accounts s) {e : PopulationEvent} (hs : s.next e = some s')
    {t : ThreadId} (hd : s'.kernel.toBeDestroyed = some t) :
    t = s.kernel.currentThread ∧ s.kernel.toBeDestroyed = none := by
  unfold Population.next at hs
  split at hs
  next he =>
    cases e with
    | construct u =>
      have hsame : s'.kernel = s.kernel := by
        simp only [exec, Population.construct] at hs
        split at hs
        next => cases hs
        next => rw [← Option.some.inj hs]
      rw [hsame] at hd
      cases (h.deletes_doomed hd he).1
    | kernel e =>
      obtain ⟨k', hk, rfl⟩ := Option.map_eq_some_iff.mp hs
      have hd' : k'.toBeDestroyed = some t := hd
      cases h.inv.fate he hk with
      | quiet hdeletes _ hdoomed _ =>
        rw [hdoomed] at hd'
        obtain ⟨heq, hsome⟩ := h.deletes_doomed hd' (e := .kernel e) he
        obtain rfl := PopulationEvent.kernel.inj heq
        rw [hdeletes] at hsome
        cases hsome
      | finish _ _ hdoomed _ _ =>
        rw [hdoomed] at hd'
        cases hd'
      | leave _ _ _ _ _ hdoomed hnone => exact ⟨Option.some.inj (hd'.symm.trans hdoomed), hnone⟩
      | delete u _ _ _ hgone _ =>
        rw [hgone] at hd'
        cases hd'
  next => cases hs

private theorem Accounts.deletion (h : Accounts s) {t : ThreadId}
    (hd : s.kernel.toBeDestroyed = some t) :
    ∃ s', s.next (.kernel .step) = some s' ∧
      s'.deleted = (t, s.kernel.currentThread) :: s.deleted ∧
      s'.kernel.toBeDestroyed = none ∧ s'.kernel.currentThread = s.kernel.currentThread := by
  have hswitched := h.inv.switched_of_doomed hd
  have hsome : s.kernel.deletes .step = some t := (if_pos hswitched).trans hd
  have he : s.kernel.enabled .step := by
    refine ⟨(h.doomed t hd).2.2, ?_⟩
    intro hnil
    rw [hnil] at hswitched
    cases hswitched
  obtain ⟨k', hk, -⟩ := h.inv.exec he
  refine ⟨s.record .step k', ?_, ?_, ?_⟩
  · have henabled : s.enabled (.kernel .step) := he
    rw [Population.next, if_pos henabled, exec, hk]
    rfl
  · rw [record_some hsome]
  · cases h.inv.fate he hk with
    | quiet hdeletes _ _ _ =>
      rw [hdeletes] at hsome
      cases hsome
    | leave hdeletes _ _ _ _ _ _ =>
      rw [hdeletes] at hsome
      cases hsome
    | delete _ _ _ _ hgone hcurrent => exact ⟨hgone, hcurrent⟩

end Population

/-- In every run a finished thread is still running its `Sleep`, is waiting for the first step of
the thread it handed the processor to, or has been deleted, once. It is put into `toBeDestroyed`
by its own `Run`; then nothing can happen before the next thread deletes it. It is in no list
from then on, and no event fails an ASSERT. -/
theorem deletion_exact (p : ThreadId → Int) (n : SemId → Nat) {s : Population}
    (hr : (populationSystem p n).Reachable s) :
    (∀ t, s.kernel.finished t = true →
      t = s.kernel.currentThread ∨ s.kernel.toBeDestroyed = some t ∨ s.Deleted t) ∧
    (s.deleted.map Prod.fst).Nodup ∧
    (∀ t, s.Deleted t → s.kernel.finished t = true ∧ s.kernel.toBeDestroyed ≠ some t ∧
      Population.OutOfReach s.kernel t) ∧
    (∀ t e s', s.next e = some s' → s'.kernel.toBeDestroyed = some t →
      t = s.kernel.currentThread ∧ s.kernel.toBeDestroyed = none) ∧
    (∀ t, s.kernel.toBeDestroyed = some t →
      s.kernel.finished t = true ∧ Population.OutOfReach s.kernel t ∧
      Kernel.switched (s.kernel.stack s.kernel.currentThread) = true ∧
      (∀ e, s.enabled e → e = .kernel .step) ∧
      ∃ s', s.next (.kernel .step) = some s' ∧
        s'.deleted = (t, s.kernel.currentThread) :: s.deleted ∧
        s'.kernel.toBeDestroyed = none ∧ s'.kernel.currentThread = s.kernel.currentThread) ∧
    (∀ e, s.enabled (.kernel e) → (s.exec (.kernel e)).isSome) := by
  have h := (Population.accounts_inductive p n).of_reachable hr
  refine ⟨h.accounted, h.nodup, ?_, ?_, ?_, ?_⟩
  · intro t ht
    obtain ⟨hfinished, hne⟩ := h.deleted t ht
    refine ⟨hfinished, ?_, Population.outOfReach_of_finished h.inv hfinished hne⟩
    intro hd
    exact (h.doomed t hd).2.1 ht
  · intro t e s' hs hd
    exact h.leaves hs hd
  · intro t hd
    have hfinished := (h.doomed t hd).1
    have hreach := Population.outOfReach_of_finished h.inv hfinished (h.inv.doomed t hd)
    exact ⟨hfinished, hreach, h.inv.switched_of_doomed hd,
      fun e he => (h.deletes_doomed hd he).1, h.deletion hd⟩
  · intro e he
    obtain ⟨k', hk, -⟩ := h.inv.exec he
    simp [Population.exec, hk]

/-- Main forks threads 1 and 2 and yields; both finish at once, one after the other. -/
private def finishInTurn : List PopulationEvent :=
  [.kernel (.call (.fork 1)), .kernel .step, .kernel (.call (.fork 2)), .kernel .step,
    .kernel (.call .yield), .kernel .step,
    .kernel .step, .kernel .step, .kernel .step, .kernel .step, .kernel (.call .finish),
    .kernel .step,
    .kernel .step, .kernel .step, .kernel .step, .kernel .step, .kernel (.call .finish),
    .kernel .step,
    .kernel .step]

theorem deletion_exact_in_turn :
    ∃ s : Population, (populationSystem (fun _ => 5) fun _ => 0).Reachable s ∧
      s.deleted = [(2, 0), (1, 2)] ∧ s.kernel.finished 2 = true ∧
      Population.OutOfReach s.kernel 1 := by
  have hrun : (finishInTurn.foldlM Population.next (.new (fun _ => 5) fun _ => 0)).isSome := by
    decide
  let s := (finishInTurn.foldlM Population.next (.new (fun _ => 5) fun _ => 0)).get hrun
  have hr : (populationSystem (fun _ => 5) fun _ => 0).Reachable s :=
    .foldlM (fun _ _ _ h => h) finishInTurn (.init rfl) (Option.some_get hrun).symm
  have hdeleted : s.deleted = [(2, 0), (1, 2)] := rfl
  have hgone (t : ThreadId) (ht : t ∈ [2, 1]) : s.Deleted t := by
    rw [Population.Deleted, hdeleted]
    exact ht
  have hexact := (deletion_exact _ _ hr).2.2.1
  exact ⟨s, hr, hdeleted, (hexact 2 (hgone 2 (by simp))).1, (hexact 1 (hgone 1 (by simp))).2.2⟩

/-! ## The thread limit -/

namespace Population

def deletesCreated (s : Population) : PopulationEvent → Bool
  | .construct _ => false
  | .kernel e => (s.kernel.deletes e).any (· ∈ s.created)

variable {s : Population}

private theorem Accounts.threadNum_eq (h : Accounts s) :
    s.threadNum = s.live.length + (s.created.filter fun t => s.Deleted t).length := by
  rw [h.threadNum, live]
  have hsplit := List.length_eq_length_filter_add (l := s.created) fun t => decide (s.Deleted t)
  simp only [decide_not] at *
  omega

private theorem Accounts.threadNum_iff (h : Accounts s) :
    s.threadNum = s.live.length ↔ ∀ t ∈ s.created, ¬ s.Deleted t := by
  rw [h.threadNum_eq]
  have hnone : (s.created.filter fun t => s.Deleted t).length = 0 ↔
      ∀ t ∈ s.created, ¬ s.Deleted t := by
    rw [List.length_eq_zero_iff, List.filter_eq_nil_iff]
    simp
  rw [← hnone]
  omega

private theorem construct_eq_none {t : ThreadId} :
    s.construct t = none ↔ maxThreadNum ≤ s.threadNum := by
  unfold Population.construct
  split
  next h => simpa using by omega
  next h => simpa using by omega

private theorem Accounts.undeleted_next (h : Accounts s) {e : PopulationEvent} {s' : Population}
    (hundeleted : ∀ t ∈ s.created, ¬ s.Deleted t) (hkeeps : s.deletesCreated e = false)
    (hs : s.next e = some s') : ∀ t ∈ s'.created, ¬ s'.Deleted t := by
  unfold Population.next at hs
  split at hs
  next he =>
    cases e with
    | construct t =>
      simp only [exec, Population.construct] at hs
      split at hs
      next => cases hs
      next =>
        obtain rfl := Option.some.inj hs
        intro u hu
        rcases List.mem_cons.mp hu with rfl | hu
        · -- a deleted thread has been forked
          intro hdeleted
          have hblocked := h.inv.books.finished u (h.deleted u hdeleted).1
          rw [he.2.2.1] at hblocked
          cases hblocked
        · exact hundeleted u hu
    | kernel e =>
      obtain ⟨k', -, rfl⟩ := Option.map_eq_some_iff.mp hs
      intro u hu
      cases hd : s.kernel.deletes e with
      | none =>
        rw [record_none hd]
        exact hundeleted u hu
      | some t =>
        rw [record_some hd]
        intro hmem
        rcases List.mem_cons.mp hmem with rfl | hmem
        · have hu' : u ∈ s.created := hu
          simp [deletesCreated, hd, hu'] at hkeeps
        · exact hundeleted u hu hmem
  next => cases hs

theorem undeleted_inductive (p : ThreadId → Int) (n : SemId → Nat) :
    ((populationSystem p n).restrict fun s e => s.deletesCreated e = false).Inductive
      fun s => Accounts s ∧ ∀ t ∈ s.created, ¬ s.Deleted t where
  init s hs := by
    obtain rfl : s = .new p n := hs
    refine ⟨accounts_new p n, ?_⟩
    intro t ht
    cases ht
  step s e s' h hs := ⟨h.1.next hs.2, h.1.undeleted_next h.2 hs.1 hs.2⟩

end Population

/-- As long as no thread of the constructor is deleted its counter is the number of those that
are alive, and its check fails only if `MAX_THREAD_NUM` of them are. From the first deletion on
the counter is too high. -/
theorem thread_limit (p : ThreadId → Int) (n : SemId → Nat) {s : Population}
    (hr : (populationSystem p n).Reachable s) :
    (((populationSystem p n).restrict fun s e => s.deletesCreated e = false).Reachable s →
      s.threadNum = s.live.length ∧
        ∀ t, s.construct t = none → (s.live.length : Int) = maxThreadNum) ∧
    (s.threadNum = s.live.length ↔ ∀ t ∈ s.created, ¬ s.Deleted t) := by
  have h := (Population.accounts_inductive p n).of_reachable hr
  refine ⟨?_, h.threadNum_iff⟩
  intro hrestricted
  have hundeleted := ((Population.undeleted_inductive p n).of_reachable hrestricted).2
  have hcount := h.threadNum_iff.mpr hundeleted
  refine ⟨hcount, ?_⟩
  intro t hnone
  have hfull := Population.construct_eq_none.mp hnone
  have hlimit := h.limit
  omega

/-- Main constructs thread 1. -/
theorem thread_limit_one :
    ∃ s : Population, (populationSystem (fun _ => 5) fun _ => 0).Reachable s ∧
      s.created = [1] ∧ s.threadNum = s.live.length := by
  have hrun : ([PopulationEvent.construct 1].foldlM Population.next
      (.new (fun _ => 5) fun _ => 0)).isSome := by decide
  let s := ([PopulationEvent.construct 1].foldlM Population.next
    (.new (fun _ => 5) fun _ => 0)).get hrun
  have hr : (populationSystem (fun _ => 5) fun _ => 0).Reachable s :=
    .foldlM (fun _ _ _ h => h) _ (.init rfl) (Option.some_get hrun).symm
  refine ⟨s, hr, rfl, ?_⟩
  apply (thread_limit _ _ hr).2.mpr
  intro t _ hdeleted
  cases hdeleted

/-- Main constructs as many threads as it can, forks one of them and lets it finish. -/
private def constructAndFinish : List PopulationEvent :=
  (List.range 128).map (fun i => .construct (i + 1)) ++
    [.kernel (.call (.fork 1)), .kernel .step, .kernel (.call .yield), .kernel .step,
      .kernel .step, .kernel .step, .kernel .step, .kernel .step, .kernel (.call .finish),
      .kernel .step, .kernel .step, .kernel .step]

/-- The constructor refuses a thread although one fewer is alive. -/
theorem thread_limit_refused :
    ∃ s : Population, (populationSystem (fun _ => 5) fun _ => 0).Reachable s ∧
      s.enabled (.construct 129) ∧ s.construct 129 = none ∧
      (s.live.length : Int) = maxThreadNum - 1 ∧ s.threadNum ≠ s.live.length := by
  have hrun : ((constructAndFinish.foldlM Population.next (.new (fun _ => 5) fun _ => 0)).map
      fun s => (decide (s.enabled (.construct 129)), s.live.length, s.threadNum)) =
        some (true, 127, 128) := by decide +kernel
  obtain ⟨s, hs, hend⟩ := Option.map_eq_some_iff.mp hrun
  obtain ⟨henabled, hend⟩ := Prod.mk.inj hend
  obtain ⟨hlive, hnum⟩ := Prod.mk.inj hend
  have hr : (populationSystem (fun _ => 5) fun _ => 0).Reachable s :=
    .foldlM (fun _ _ _ h => h) constructAndFinish (.init rfl) hs
  refine ⟨s, hr, of_decide_eq_true henabled, ?_, ?_, ?_⟩
  · rw [Population.construct_eq_none, hnum]
  · rw [hlive]
    decide
  · rw [hlive, hnum]
    decide

end Nachos

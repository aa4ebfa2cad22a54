import Nachos.Threads.SynchSafety
import Nachos.Filesys.HostFile

/-!
# Console input

The console polls its file by interrupts. A character that has come is kept in `incoming` until
`GetChar` takes it, and only then is the next poll scheduled; `EOF` in `incoming` says that there
is none. `char` is signed, so the byte 0xff is `EOF`. `SynchConsoleInput` puts a lock and a
semaphore around it, with one unit for each character and one for the end of the file.
-/

namespace Nachos

open Framework

/-- `EOF` converted to a `char`. -/
abbrev eof : Byte := 0xff

/-- `file` is what is still to be read, `pending` the number of scheduled polls. -/
structure ConsoleInput where
  incoming : Byte
  file : List Byte
  pending : Nat

namespace ConsoleInput

def new (bytes : List Byte) : ConsoleInput :=
  { incoming := eof, file := bytes, pending := 1 }

/-- `ConsoleInput::CallBack`, with what `PollFile` says. The flag tells whether `callWhenAvail` is
called; `none` is the failed ASSERT. -/
def callBack (c : ConsoleInput) (available : Bool) : Option (ConsoleInput × Bool) :=
  if c.incoming = eof then
    if available then
      match c.file with
      | [] => some (c, true)
      | ch :: file => some ({ c with incoming := ch, file := file }, true)
    else some ({ c with pending := c.pending + 1 }, false)
  else none

/-- `ConsoleInput::GetChar`. -/
def getChar (c : ConsoleInput) : ConsoleInput × Byte :=
  let pending := if c.incoming ≠ eof then c.pending + 1 else c.pending
  ({ c with incoming := eof, pending := pending }, c.incoming)

end ConsoleInput

/-- Where a thread stands in a call of `SynchConsoleInput::GetChar`. -/
inductive InputPc
  | idle
  /-- `lock->Acquire()` is running -/
  | acquire
  /-- about to call or inside `waitFor->P()` -/
  | wait
  /-- about to call `consoleInput->GetChar()` -/
  | get
  /-- `lock->Release()` is running -/
  | release (ch : Byte)
  deriving DecidableEq

namespace InputPc

/-- The steps in the code of the lock that a thread takes at this point. -/
def allows : InputPc → LockLabel → Bool
  | .acquire, l => (CondPc.waitAcquire 0).allows l
  | .release _, l => (CondPc.waitRelease 0).allows l
  | _, _ => false

def afterLock : InputPc → LockLabel → InputPc
  | .acquire, .assign _ => .wait
  | .release _, .v _ => .idle
  | pc, _ => pc

def lockOk : InputPc → LockPc → Prop
  | .idle, pc => pc = .outside
  | .acquire, pc => (CondPc.waitAcquire 0).lockOk pc
  | .wait, pc => pc = .holding
  | .get, pc => pc = .holding
  | .release _, pc => (CondPc.waitRelease 0).lockOk pc

def acquiring : InputPc → LockLabel → List ThreadId
  | .acquire, .assign t => [t]
  | _, _ => []

def returning : InputPc → LockLabel → List (ThreadId × Byte)
  | .release ch, .v t => [(t, ch)]
  | _, _ => []

end InputPc

/-- `SynchConsoleInput`. From `acquired` on the fields record the history: the calls in the order
in which they got the lock, the characters taken from the console, and those returned. -/
structure InputState where
  lock : LockState
  waitFor : SemState
  console : ConsoleInput
  pc : ThreadId → InputPc
  aborted : Bool
  acquired : List ThreadId
  got : List (ThreadId × Byte)
  returned : List (ThreadId × Byte)

inductive InputLabel
  | call (t : ThreadId)
  | lock (l : LockLabel)
  | p (t : ThreadId)
  | get (t : ThreadId)
  /-- the scheduled poll, with what `PollFile` says -/
  | interrupt (available : Bool)

def InputLabel.moves : InputLabel → Bool
  | .call _ | .interrupt false => false
  | .lock _ | .p _ | .get _ | .interrupt true => true

namespace InputState

def new (bytes : List Byte) : InputState :=
  { lock := .new, waitFor := .new 0, console := .new bytes, pc := fun _ => .idle,
    aborted := false, acquired := [], got := [], returned := [] }

/-- The next step of a thread or the console; `none` when there is no such step. -/
def step (s : InputState) : InputLabel → Option InputState
  | .call t =>
    match s.pc t with
    | .idle => some { s with pc := Function.update s.pc t .acquire }
    | _ => none
  | .lock l =>
    let pc := s.pc l.thread
    if pc.allows l then do
      let lock ← lockStep s.lock l
      some { s with lock := lock, pc := Function.update s.pc l.thread (pc.afterLock l),
                    aborted := lock.aborted, acquired := s.acquired ++ pc.acquiring l,
                    returned := s.returned ++ pc.returning l }
    else none
  | .p t =>
    match s.pc t with
    | .wait =>
      if s.waitFor.asleep t then none
      else match s.waitFor.p t with
        | none => some { s with aborted := true }
        | some (sem, true) => some { s with waitFor := sem, pc := Function.update s.pc t .get }
        | some (sem, false) => some { s with waitFor := sem }
    | _ => none
  | .get t =>
    match s.pc t with
    | .get =>
      let (console, ch) := s.console.getChar
      some { s with console := console, pc := Function.update s.pc t (.release ch),
                    got := s.got ++ [(t, ch)] }
    | _ => none
  | .interrupt available =>
    if s.console.pending = 0 then none
    else
      let console := { s.console with pending := s.console.pending - 1 }
      match console.callBack available with
      | none => some { s with aborted := true }
      | some (console, false) => some { s with console := console }
      -- SynchConsoleInput::CallBack
      | some (console, true) => some { s with console := console, waitFor := s.waitFor.v }

def next (s : InputState) (l : InputLabel) : Option InputState :=
  if s.aborted = false then s.step l else none

/-- Nothing goes on any more unless somebody calls `GetChar`. -/
def Halted (s : InputState) : Prop := ∀ l, l.moves = true → s.step l = none

end InputState

/-- All interleavings of calls of `GetChar` by any threads with the polls of a console whose file
holds `bytes`. -/
def inputSystem (bytes : List Byte) : System InputState InputLabel where
  init s := s = .new bytes
  step s l s' := s.aborted = false ∧ s.step l = some s'

/-- No ASSERT fails, the calls get the bytes of the file and then one `EOF` in the order in which
they got the lock, and calls that cannot go on wait for more than that. -/
def DeliversInput (bytes : List Byte) : Prop :=
  ∀ s, (inputSystem bytes).Reachable s →
    s.aborted = false ∧
    s.returned.map Prod.fst <+: s.acquired ∧
    s.returned.map Prod.snd <+: bytes ++ [eof] ∧
    (s.Halted → (∀ t, s.pc t = .idle) ∨ s.returned.map Prod.snd = bytes ++ [eof])

/-! ## The invariant -/

namespace InputPc

/-- `Acquire` has returned, and the call has not. -/
def holds : InputPc → Bool
  | .idle | .acquire => false
  | .wait | .get | .release _ => true

theorem lockOk_afterLock {lock lock' : LockState} {l : LockLabel} {pc : InputPc} (h : lock.Inv)
    (hs : lockStep lock l = some lock') (hok : pc.lockOk (lock.pc l.thread))
    (ha : pc.allows l = true) : (pc.afterLock l).lockOk (lock'.pc l.thread) := by
  cases pc with
  | acquire =>
    have hafter : ((CondPc.waitAcquire 0).afterLock l).lockOk (lock'.pc l.thread) :=
      Nachos.lockOk_afterLock h hs hok ha
    cases l <;> exact hafter
  | release ch =>
    have hafter : ((CondPc.waitRelease 0).afterLock l).lockOk (lock'.pc l.thread) :=
      Nachos.lockOk_afterLock h hs hok ha
    cases l <;> exact hafter
  | idle | wait | get => cases ha

end InputPc

namespace InputState

variable {bytes : List Byte} {s s' : InputState}

/-- The unit for `incoming`, or for the end of the file, is in the semaphore or with the call that
has taken it. -/
def Offered (s : InputState) : Prop :=
  (s.waitFor.sem.value = 1 ∧ ∀ t, s.pc t ≠ .get) ∨ (s.waitFor.sem.value = 0 ∧ ∃ t, s.pc t = .get)

def Empty (s : InputState) : Prop := s.waitFor.sem.value = 0 ∧ ∀ t, s.pc t ≠ .get

/-- The console polls for the next byte, holds it, has come to the end of the file, or has told
somebody. -/
inductive Phase (bytes : List Byte) (s : InputState) : Prop
  | polling (hincoming : s.console.incoming = eof) (hpending : s.console.pending = 1)
      (hunit : s.Empty) (hgot : s.got.map Prod.snd ++ s.console.file = bytes)
  | full (hincoming : s.console.incoming ≠ eof) (hpending : s.console.pending = 0)
      (hunit : s.Offered)
      (hgot : s.got.map Prod.snd ++ s.console.incoming :: s.console.file = bytes)
  | atEnd (hincoming : s.console.incoming = eof) (hpending : s.console.pending = 0)
      (hunit : s.Offered) (hgot : s.got.map Prod.snd = bytes)
  | done (hincoming : s.console.incoming = eof) (hpending : s.console.pending = 0)
      (hunit : s.Empty) (hgot : s.got.map Prod.snd = bytes ++ [eof])

/-- The characters are taken in the order of the lock, and the last of them may not have been
returned yet. -/
inductive Order (s : InputState) : Prop
  | free (hpc : ∀ t, (s.pc t).holds = false) (hacquired : s.acquired = s.got.map Prod.fst)
      (hreturned : s.got = s.returned)
  | waiting (t : ThreadId) (hpc : s.pc t = .wait ∨ s.pc t = .get)
      (hacquired : s.acquired = s.got.map Prod.fst ++ [t]) (hreturned : s.got = s.returned)
  | leaving (t : ThreadId) (ch : Byte) (hpc : s.pc t = .release ch)
      (hacquired : s.acquired = s.got.map Prod.fst) (hreturned : s.got = s.returned ++ [(t, ch)])

structure Inv (bytes : List Byte) (s : InputState) : Prop where
  lock : s.lock.Inv
  sem : SemState.Inv 0 s.waitFor
  place : ∀ t, (s.pc t).lockOk (s.lock.pc t)
  asleep : ∀ t, s.waitFor.asleep t = true → s.pc t = .wait
  woken : ∀ t ∈ s.waitFor.sem.woken, s.pc t = .wait
  phase : s.Phase bytes
  order : s.Order
  safe : s.aborted = false ∧ s.lock.aborted = false

theorem Inv.init (bytes : List Byte) : Inv bytes (new bytes) where
  lock := LockState.Inv.init
  sem := SemState.Inv.init 0
  place _ := rfl
  asleep _ h := by cases h
  woken _ h := by cases h
  phase := .polling rfl rfl ⟨rfl, fun _ h => by cases h⟩ rfl
  order := .free (fun _ => rfl) rfl rfl
  safe := ⟨rfl, rfl⟩

private theorem Inv.inside_of_holds (h : s.Inv bytes) {t : ThreadId} (ht : (s.pc t).holds = true) :
    (s.lock.pc t).inside = true := by
  have hplace := h.place t
  cases hpc : s.pc t with
  | idle | acquire =>
    rw [hpc] at ht
    cases ht
  | wait | get =>
    rw [hpc] at hplace
    rw [show s.lock.pc t = .holding from hplace]
    rfl
  | release ch =>
    rw [hpc] at hplace
    rcases hplace with hplace | hplace
    · rw [hplace]
      rfl
    · rw [hplace]
      rfl

/-- Only one call is past its `Acquire`. -/
theorem Inv.alone (h : s.Inv bytes) {t u : ThreadId} (ht : (s.lock.pc t).inside = true)
    (hu : (s.pc u).holds = true) : u = t :=
  h.lock.unique u t (h.inside_of_holds hu) ht

private theorem Inv.order_turn (h : s.Inv bytes) {t : ThreadId}
    (hpc : s.pc t = .wait ∨ s.pc t = .get) :
    s.acquired = s.got.map Prod.fst ++ [t] ∧ s.got = s.returned := by
  have hholds : (s.pc t).holds = true := by
    rcases hpc with hpc | hpc
    · rw [hpc]
      rfl
    · rw [hpc]
      rfl
  have hin := h.inside_of_holds hholds
  cases h.order with
  | free hfree _ _ => exact absurd (hholds.symm.trans (hfree t)) (by simp)
  | waiting u hu hacquired hreturned =>
    obtain rfl := h.alone hin (u := u) (by rcases hu with hu | hu <;> rw [hu] <;> rfl)
    exact ⟨hacquired, hreturned⟩
  | leaving u ch hu _ _ =>
    obtain rfl := h.alone hin (u := u) (by rw [hu]; rfl)
    rcases hpc with hpc | hpc
    · cases hu.symm.trans hpc
    · cases hu.symm.trans hpc

private theorem Inv.order_leaving (h : s.Inv bytes) {t : ThreadId} {ch : Byte}
    (hpc : s.pc t = .release ch) :
    s.acquired = s.got.map Prod.fst ∧ s.got = s.returned ++ [(t, ch)] := by
  have hholds : (s.pc t).holds = true := by
    rw [hpc]
    rfl
  have hin := h.inside_of_holds hholds
  cases h.order with
  | free hfree _ _ => exact absurd (hholds.symm.trans (hfree t)) (by simp)
  | waiting u hu _ _ =>
    obtain rfl := h.alone hin (u := u) (by rcases hu with hu | hu <;> rw [hu] <;> rfl)
    rcases hu with hu | hu
    · cases hu.symm.trans hpc
    · cases hu.symm.trans hpc
  | leaving u ch' hu hacquired hreturned =>
    obtain rfl := h.alone hin (u := u) (by rw [hu]; rfl)
    obtain rfl := InputPc.release.inj (hu.symm.trans hpc)
    exact ⟨hacquired, hreturned⟩

theorem Order.congr (h : s.Order) (hpc : s'.pc = s.pc) (hacquired : s'.acquired = s.acquired)
    (hgot : s'.got = s.got) (hreturned : s'.returned = s.returned) : s'.Order := by
  cases h with
  | free h₁ h₂ h₃ =>
    rw [← hgot, ← hacquired] at h₂
    rw [← hgot, ← hreturned] at h₃
    exact .free (hpc ▸ h₁) h₂ h₃
  | waiting t h₁ h₂ h₃ =>
    rw [← hgot, ← hacquired] at h₂
    rw [← hgot, ← hreturned] at h₃
    exact .waiting t (hpc ▸ h₁) h₂ h₃
  | leaving t ch h₁ h₂ h₃ =>
    rw [← hgot, ← hacquired] at h₂
    rw [← hgot, ← hreturned] at h₃
    exact .leaving t ch (hpc ▸ h₁) h₂ h₃

theorem Offered.congr (h : s.Offered) (hvalue : s'.waitFor.sem.value = s.waitFor.sem.value)
    (hpc : ∀ t, s'.pc t = .get ↔ s.pc t = .get) : s'.Offered := by
  simpa only [Offered, hvalue, ne_eq, hpc] using h

theorem Empty.congr (h : s.Empty) (hvalue : s'.waitFor.sem.value = s.waitFor.sem.value)
    (hpc : ∀ t, s'.pc t = .get ↔ s.pc t = .get) : s'.Empty := by
  simpa only [Empty, hvalue, ne_eq, hpc] using h

theorem Phase.congr (h : s.Phase bytes) (hconsole : s'.console = s.console) (hgot : s'.got = s.got)
    (hvalue : s'.waitFor.sem.value = s.waitFor.sem.value)
    (hpc : ∀ t, s'.pc t = .get ↔ s.pc t = .get) : s'.Phase bytes := by
  cases h with
  | polling h₁ h₂ h₃ h₄ =>
    rw [← hconsole] at h₁ h₂ h₄
    rw [← hgot] at h₄
    exact .polling h₁ h₂ (h₃.congr hvalue hpc) h₄
  | full h₁ h₂ h₃ h₄ =>
    rw [← hconsole] at h₁ h₂ h₄
    rw [← hgot] at h₄
    exact .full h₁ h₂ (h₃.congr hvalue hpc) h₄
  | atEnd h₁ h₂ h₃ h₄ =>
    rw [← hconsole] at h₁ h₂
    rw [← hgot] at h₄
    exact .atEnd h₁ h₂ (h₃.congr hvalue hpc) h₄
  | done h₁ h₂ h₃ h₄ =>
    rw [← hconsole] at h₁ h₂
    rw [← hgot] at h₄
    exact .done h₁ h₂ (h₃.congr hvalue hpc) h₄

/-- A thread that comes from another place and goes to another place is not at `x`. -/
theorem update_eq_iff {pc : ThreadId → InputPc} {t : ThreadId} {new x : InputPc} (hold : pc t ≠ x)
    (hnew : new ≠ x) (u : ThreadId) : Function.update pc t new u = x ↔ pc u = x := by
  by_cases hu : u = t
  · subst hu
    rw [Function.update_self]
    exact iff_of_false hnew hold
  · rw [Function.update_of_ne hu]

/-- Nobody but `t` moves. -/
theorem Inv.place_update (h : s.Inv bytes) {t : ThreadId} {pc : InputPc}
    (hok : pc.lockOk (s.lock.pc t)) (u : ThreadId) :
    (Function.update s.pc t pc u).lockOk (s.lock.pc u) := by
  apply (Function.forall_update_iff s.pc fun u pc => pc.lockOk (s.lock.pc u)).mpr
  exact ⟨hok, fun u _ => h.place u⟩

theorem Inv.call (h : s.Inv bytes) {t : ThreadId} (hpc : s.pc t = .idle) :
    { s with pc := Function.update s.pc t .acquire }.Inv bytes := by
  have hsame {x : InputPc} (hidle : x ≠ .idle) (hacquire : x ≠ .acquire) (u : ThreadId) :
      Function.update s.pc t .acquire u = x ↔ s.pc u = x :=
    update_eq_iff (by rw [hpc]; exact hidle.symm) hacquire.symm u
  have hholds : ∀ u, (Function.update s.pc t .acquire u).holds = (s.pc u).holds := by
    intro u
    by_cases hu : u = t
    · rw [hu, Function.update_self, hpc]
      rfl
    · rw [Function.update_of_ne hu]
  constructor
  case lock => exact h.lock
  case sem => exact h.sem
  case place =>
    have hplace := h.place t
    rw [hpc] at hplace
    exact h.place_update (.inl hplace)
  case asleep => exact fun u hu => (hsame (by simp) (by simp) u).mpr (h.asleep u hu)
  case woken => exact fun u hu => (hsame (by simp) (by simp) u).mpr (h.woken u hu)
  case phase => exact h.phase.congr rfl rfl rfl (hsame (by simp) (by simp))
  case order =>
    cases h.order with
    | free hpc hacquired hreturned =>
      exact .free (fun u => (hholds u).trans (hpc u)) hacquired hreturned
    | waiting u hpc hacquired hreturned =>
      refine .waiting u ?_ hacquired hreturned
      rcases hpc with hpc | hpc
      · exact .inl ((hsame (by simp) (by simp) u).mpr hpc)
      · exact .inr ((hsame (by simp) (by simp) u).mpr hpc)
    | leaving u ch hpc hacquired hreturned =>
      exact .leaving u ch ((hsame (by simp) (by simp) u).mpr hpc) hacquired hreturned
  case safe => exact h.safe

theorem lockStep_cases {l : LockLabel} {lock : LockState}
    (ha : (s.pc l.thread).allows l = true) (hs : lockStep s.lock l = some lock) :
    ((s.pc l.thread).afterLock l = s.pc l.thread ∧ (s.pc l.thread).acquiring l = [] ∧
      (s.pc l.thread).returning l = []) ∨
    (s.pc l.thread = .acquire ∧ (s.lock.pc l.thread).inside = true ∧
      (s.pc l.thread).afterLock l = .wait ∧ (s.pc l.thread).acquiring l = [l.thread] ∧
      (s.pc l.thread).returning l = []) ∨
    (∃ ch, s.pc l.thread = .release ch ∧ (s.pc l.thread).afterLock l = .idle ∧
      (s.pc l.thread).acquiring l = [] ∧ (s.pc l.thread).returning l = [(l.thread, ch)]) := by
  cases hpc : s.pc l.thread with
  | idle | wait | get =>
    rw [hpc] at ha
    cases ha
  | acquire =>
    cases l with
    | acquire t | retest t => exact .inl ⟨rfl, rfl, rfl⟩
    | assign t =>
      refine .inr (.inl ⟨rfl, ?_, rfl, rfl, rfl⟩)
      show (s.lock.pc t).inside = true
      cases hlock : s.lock.pc t <;> simp only [lockStep, hlock, reduceCtorEq] at hs
      rfl
    | release t | v t =>
      rw [hpc] at ha
      cases ha
  | release ch =>
    cases l with
    | release t => exact .inl ⟨rfl, rfl, rfl⟩
    | v t => exact .inr (.inr ⟨ch, rfl, rfl, rfl, rfl⟩)
    | acquire t | retest t | assign t =>
      rw [hpc] at ha
      cases ha

theorem Inv.not_outside (h : s.Inv bytes) {t : ThreadId}
    (ha : (s.pc t).allows (.release t) = true) : s.lock.pc t ≠ .outside := by
  have hplace := h.place t
  cases hpc : s.pc t with
  | idle | acquire | wait | get =>
    rw [hpc] at ha
    cases ha
  | release ch =>
    rw [hpc] at hplace
    rcases hplace with hplace | hplace <;> simp [hplace]

theorem Inv.lockStep (h : s.Inv bytes) {l : LockLabel} {lock : LockState}
    (ha : (s.pc l.thread).allows l = true) (hs : Nachos.lockStep s.lock l = some lock) :
    { s with lock := lock,
             pc := Function.update s.pc l.thread ((s.pc l.thread).afterLock l),
             aborted := lock.aborted, acquired := s.acquired ++ (s.pc l.thread).acquiring l,
             returned := s.returned ++ (s.pc l.thread).returning l }.Inv bytes := by
  have hcases := lockStep_cases ha hs
  have hkept : lock.aborted = false := by
    rw [h.lock.lockStep_aborted (fun t heq => by subst heq; exact h.not_outside ha) hs]
    exact h.safe.2
  have hwait : ∀ u, s.pc u = .wait →
      Function.update s.pc l.thread ((s.pc l.thread).afterLock l) u = .wait := by
    intro u hu
    by_cases hut : u = l.thread
    · rw [← hut, hu] at ha
      cases ha
    · rw [Function.update_of_ne hut]
      exact hu
  have hget : s.pc l.thread ≠ .get ∧ (s.pc l.thread).afterLock l ≠ .get := by
    rcases hcases with ⟨hafter, -⟩ | ⟨hpc, -, hafter, -⟩ | ⟨ch, hpc, hafter, -⟩
    · rw [hafter, and_self]
      intro hpc
      rw [hpc] at ha
      cases ha
    · rw [hafter, hpc]
      exact ⟨nofun, nofun⟩
    · rw [hafter, hpc]
      exact ⟨nofun, nofun⟩
  constructor
  case lock => exact h.lock.step hs
  case sem => exact h.sem
  case place =>
    intro u
    show (Function.update s.pc l.thread ((s.pc l.thread).afterLock l) u).lockOk (lock.pc u)
    by_cases hu : u = l.thread
    · rw [hu, Function.update_self]
      exact InputPc.lockOk_afterLock h.lock hs (h.place l.thread) ha
    · rw [Function.update_of_ne hu, lockStep_pc_other hs hu]
      exact h.place u
  case asleep => exact fun u hu => hwait u (h.asleep u hu)
  case woken => exact fun u hu => hwait u (h.woken u hu)
  case phase => exact h.phase.congr rfl rfl rfl (update_eq_iff hget.1 hget.2)
  case order =>
    rcases hcases with ⟨hafter, hacq, hret⟩ | ⟨hpc, hin, hafter, hacq, hret⟩ |
      ⟨ch, hpc, hafter, hacq, hret⟩
    · rw [hafter, hacq, hret, Function.update_eq_self, List.append_nil, List.append_nil]
      exact h.order.congr rfl rfl rfl rfl
    · -- the call whose Acquire returns is the only one inside
      have hnone : ∀ u, (s.pc u).holds ≠ true := by
        intro u hu
        rw [h.alone hin hu, hpc] at hu
        cases hu
      rw [hafter, hacq, hret, List.append_nil]
      cases h.order with
      | free h₁ h₂ h₃ =>
        exact .waiting l.thread (.inl (Function.update_self _ _ _)) (by rw [← h₂]) h₃
      | waiting u h₁ h₂ h₃ => exact absurd (by rcases h₁ with h₁ | h₁ <;> rw [h₁] <;> rfl) (hnone u)
      | leaving u ch h₁ h₂ h₃ => exact absurd (by rw [h₁]; rfl) (hnone u)
    · -- the call that returns is the one whose character was taken last
      have hin := h.inside_of_holds (t := l.thread) (by rw [hpc]; rfl)
      obtain ⟨hacquired, hreturned⟩ := h.order_leaving hpc
      rw [hafter, hacq, hret, List.append_nil]
      refine .free ?_ hacquired hreturned
      intro w
      show (Function.update s.pc l.thread .idle w).holds = false
      by_cases hw : w = l.thread
      · rw [hw, Function.update_self]
        rfl
      · rw [Function.update_of_ne hw]
        exact Bool.eq_false_iff.mpr fun hwh => hw (h.alone hin hwh)
  case safe => exact ⟨hkept, hkept⟩

/-- A test in `waitFor->P()` that finds no unit. -/
theorem Inv.sleep (h : s.Inv bytes) {t : ThreadId} {sem : SemState} (hpc : s.pc t = .wait)
    (hp : s.waitFor.p t = some (sem, false)) : { s with waitFor := sem }.Inv bytes := by
  have hsem := h.sem.p hp
  obtain ⟨-, -, -, rfl⟩ | ⟨hfalse, -⟩ := SemState.p_cases hp
  · constructor
    case lock => exact h.lock
    case sem => exact hsem
    case place => exact h.place
    case asleep =>
      intro u hu
      by_cases hut : u = t
      · rw [hut]
        exact hpc
      · exact h.asleep u (by simpa [hut] using hu)
    case woken => exact fun u hu => h.woken u (List.mem_of_mem_erase hu)
    case phase => exact h.phase.congr rfl rfl rfl fun _ => Iff.rfl
    case order => exact h.order.congr rfl rfl rfl rfl
    case safe => exact h.safe
  · cases hfalse

theorem Inv.take (h : s.Inv bytes) {t : ThreadId} {sem : SemState} (hpc : s.pc t = .wait)
    (hasleep : s.waitFor.asleep t = false) (hp : s.waitFor.p t = some (sem, true)) :
    { s with waitFor := sem, pc := Function.update s.pc t .get }.Inv bytes := by
  have hsem := h.sem.p hp
  have hother {u : ThreadId} (hu : u ≠ t) (hwait : s.pc u = .wait) :
      Function.update s.pc t .get u = .wait := by
    rw [Function.update_of_ne hu]
    exact hwait
  obtain ⟨hfalse, -⟩ | ⟨-, hvalue, heq⟩ := SemState.p_cases hp
  · cases hfalse
  · constructor
    case lock => exact h.lock
    case sem => exact hsem
    case place =>
      have hplace := h.place t
      rw [hpc] at hplace
      exact h.place_update hplace
    case asleep =>
      intro u hu
      have hold : s.waitFor.asleep u = true := by
        rw [heq] at hu
        exact hu
      apply hother _ (h.asleep u hold)
      intro hut
      rw [hut, hasleep] at hold
      cases hold
    case woken =>
      intro u hu
      have hold : u ∈ s.waitFor.sem.woken.erase t := by
        rw [heq] at hu
        exact hu
      obtain ⟨hut, hmem⟩ := h.sem.woken_nodup.mem_erase_iff.mp hold
      exact hother hut (h.woken u hmem)
    case phase =>
      have hoffered (hunit : s.Offered) :
          Offered { s with waitFor := sem, pc := Function.update s.pc t .get } := by
        rcases hunit with ⟨hone, -⟩ | ⟨hzero, -⟩
        · refine .inr ⟨?_, t, Function.update_self _ _ _⟩
          show sem.sem.value = 0
          rw [heq]
          simp [hone]
        · exact absurd hzero hvalue
      cases h.phase with
      | polling h₁ h₂ h₃ h₄ => exact absurd h₃.1 hvalue
      | full h₁ h₂ h₃ h₄ => exact .full h₁ h₂ (hoffered h₃) h₄
      | atEnd h₁ h₂ h₃ h₄ => exact .atEnd h₁ h₂ (hoffered h₃) h₄
      | done h₁ h₂ h₃ h₄ => exact absurd h₃.1 hvalue
    case order =>
      obtain ⟨hacquired, hreturned⟩ := h.order_turn (.inl hpc)
      exact .waiting t (.inr (Function.update_self _ _ _)) hacquired hreturned
    case safe => exact h.safe

theorem Inv.get (h : s.Inv bytes) {t : ThreadId} (hpc : s.pc t = .get) :
    { s with console := s.console.getChar.1,
             pc := Function.update s.pc t (.release s.console.getChar.2),
             got := s.got ++ [(t, s.console.getChar.2)] }.Inv bytes := by
  have hin := h.inside_of_holds (t := t) (by rw [hpc]; rfl)
  have hother {u : ThreadId} (hwait : s.pc u = .wait) :
      Function.update s.pc t (.release s.console.getChar.2) u = .wait := by
    rw [Function.update_of_ne]
    · exact hwait
    · intro hu
      rw [hu, hpc] at hwait
      cases hwait
  constructor
  case lock => exact h.lock
  case sem => exact h.sem
  case place =>
    have hplace := h.place t
    rw [hpc] at hplace
    exact h.place_update (.inl hplace)
  case asleep => exact fun u hu => hother (h.asleep u hu)
  case woken => exact fun u hu => hother (h.woken u hu)
  case phase =>
    have hempty (hunit : s.Offered) {console : ConsoleInput} {ch : Byte}
        {got : List (ThreadId × Byte)} :
        Empty { s with console := console, pc := Function.update s.pc t (.release ch),
                       got := got } := by
      rcases hunit with ⟨-, hnone⟩ | ⟨hzero, -⟩
      · exact absurd hpc (hnone t)
      · refine ⟨hzero, ?_⟩
        intro u
        show Function.update s.pc t (.release ch) u ≠ .get
        by_cases hu : u = t
        · rw [hu, Function.update_self]
          nofun
        · rw [Function.update_of_ne hu]
          exact fun hget => hu (h.alone hin (by rw [hget]; rfl))
    cases h.phase with
    | polling h₁ h₂ h₃ h₄ => exact absurd hpc (h₃.2 t)
    | full h₁ h₂ h₃ h₄ =>
      refine .polling rfl ?_ (hempty h₃) ?_
      · show (if s.console.incoming ≠ eof then s.console.pending + 1 else s.console.pending) = 1
        rw [if_pos h₁, h₂]
      · simpa [ConsoleInput.getChar] using h₄
    | atEnd h₁ h₂ h₃ h₄ =>
      refine .done rfl ?_ (hempty h₃) ?_
      · show (if s.console.incoming ≠ eof then s.console.pending + 1 else s.console.pending) = 0
        rw [if_neg (not_not_intro h₁), h₂]
      · simp [ConsoleInput.getChar, h₁, h₄]
    | done h₁ h₂ h₃ h₄ => exact absurd hpc (h₃.2 t)
  case order =>
    obtain ⟨hacquired, hreturned⟩ := h.order_turn (.inr hpc)
    refine .leaving t _ (Function.update_self _ _ _) ?_ (by rw [hreturned])
    rw [hacquired, List.map_append]
    rfl
  case safe => exact h.safe

private theorem Inv.notify (h : s.Inv bytes) {console : ConsoleInput}
    (hphase : { s with console := console, waitFor := s.waitFor.v }.Phase bytes) :
    { s with console := console, waitFor := s.waitFor.v }.Inv bytes := by
  constructor
  case lock => exact h.lock
  case sem => exact h.sem.v
  case place => exact h.place
  case asleep => exact fun u hu => h.asleep u (SemState.asleep_of_v hu)
  case woken =>
    intro u hu
    rcases h.sem.woken_of_v hu with hwoken | hasleep
    · exact h.woken u hwoken
    · exact h.asleep u hasleep
  case phase => exact hphase
  case order => exact h.order.congr rfl rfl rfl rfl
  case safe => exact h.safe

private theorem Empty.offered (h : s.Empty) {console : ConsoleInput} :
    Offered { s with console := console, waitFor := s.waitFor.v } := by
  refine .inl ⟨?_, h.2⟩
  show s.waitFor.v.sem.value = 1
  rw [SemState.v_value, h.1]
  rfl

/-- Where no byte is `EOF`, the ASSERT of `CallBack` holds at every poll. -/
theorem Inv.interrupt (hbytes : eof ∉ bytes) (h : s.Inv bytes) {available : Bool}
    (hs : s.step (.interrupt available) = some s') : s'.Inv bytes := by
  have hpending : s.console.pending ≠ 0 := by
    intro hzero
    simp [step, hzero] at hs
  cases h.phase with
  | full _ hzero | atEnd _ hzero | done _ hzero => exact absurd hzero hpending
  | polling hincoming hone hempty hgot =>
    simp only [step, if_neg hpending, ConsoleInput.callBack, if_pos hincoming] at hs
    cases available with
    | false =>
      simp only [Bool.false_eq_true, if_false, Option.some.injEq] at hs
      rw [Nat.sub_add_cancel (Nat.pos_of_ne_zero hpending)] at hs
      rw [← hs]
      exact h
    | true =>
      simp only [if_true] at hs
      cases hfile : s.console.file with
      | nil =>
        simp only [hfile, Option.some.injEq] at hs
        rw [← hs]
        apply h.notify
        refine .atEnd hincoming ?_ hempty.offered ?_
        · show s.console.pending - 1 = 0
          rw [hone]
        · rw [hfile, List.append_nil] at hgot
          exact hgot
      | cons ch file =>
        simp only [hfile, Option.some.injEq] at hs
        rw [hfile] at hgot
        have hch : ch ≠ eof := by
          rintro rfl
          exact hbytes (by simp [← hgot])
        rw [← hs]
        apply h.notify
        refine .full hch ?_ hempty.offered hgot
        show s.console.pending - 1 = 0
        rw [hone]

theorem Inv.step (hbytes : eof ∉ bytes) (h : s.Inv bytes) {l : InputLabel}
    (hs : s.step l = some s') : s'.Inv bytes := by
  cases l with
  | call t =>
    cases hpc : s.pc t <;> simp only [InputState.step, hpc, reduceCtorEq, Option.some.injEq] at hs
    rw [← hs]
    exact h.call hpc
  | lock l =>
    simp only [InputState.step] at hs
    split at hs
    next ha =>
      obtain ⟨lock, hlock, heq⟩ := Option.bind_eq_some_iff.mp hs
      rw [← Option.some.inj heq]
      exact h.lockStep ha hlock
    next => cases hs
  | p t =>
    cases hpc : s.pc t <;> simp only [InputState.step, hpc, reduceCtorEq] at hs
    cases hasleep : s.waitFor.asleep t with
    | true => simp [hasleep] at hs
    | false =>
      obtain ⟨⟨sem, taken⟩, hp⟩ := h.sem.p_isSome hasleep
      simp only [hasleep, hp, Bool.false_eq_true, if_false] at hs
      cases taken with
      | true =>
        rw [← Option.some.inj hs]
        exact h.take hpc hasleep hp
      | false =>
        rw [← Option.some.inj hs]
        exact h.sleep hpc hp
  | get t =>
    cases hpc : s.pc t <;> simp only [InputState.step, hpc, reduceCtorEq, Option.some.injEq] at hs
    rw [← hs]
    exact h.get hpc
  | interrupt available => exact h.interrupt hbytes hs

theorem inv_inductive (hbytes : eof ∉ bytes) : (inputSystem bytes).Inductive (Inv bytes) where
  init _ h := h ▸ Inv.init bytes
  step _ _ _ h hs := h.step hbytes hs.2

def CanMove (s : InputState) : Prop := ∃ l, l.moves = true ∧ (s.step l).isSome = true

private theorem CanMove.not_halted (h : s.CanMove) : ¬ s.Halted := by
  intro hhalted
  obtain ⟨l, hmoves, hsome⟩ := h
  rw [hhalted l hmoves] at hsome
  cases hsome

theorem canMove_lock {l : LockLabel} (ha : (s.pc l.thread).allows l = true)
    (hs : (Nachos.lockStep s.lock l).isSome = true) : s.CanMove := by
  refine ⟨.lock l, rfl, ?_⟩
  obtain ⟨lock, hlock⟩ := Option.isSome_iff_exists.mp hs
  simp [step, ha, hlock]

theorem Inv.canMove_free (h : s.Inv bytes) (hout : ∀ u, (s.lock.pc u).inside = false)
    {t : ThreadId} (ht : s.pc t ≠ .idle) : s.CanMove := by
  have hacquire {u : ThreadId} {held : Bool} (hu : s.lock.pc u = .inP held) :
      s.pc u = .acquire := by
    have hplace := h.place u
    have hheld := hout u
    rw [hu] at hplace hheld
    cases hpc : s.pc u with
    | acquire => rfl
    | idle | wait | get =>
      rw [hpc] at hplace
      cases hplace
    | release ch =>
      rw [hpc] at hplace
      rcases hplace with hplace | hplace <;> cases hplace
  have hretest {u : ThreadId} {held : Bool} (hu : s.lock.pc u = .inP held)
      (hawake : s.lock.semaphore.asleep u = false) : s.CanMove := by
    apply canMove_lock (l := .retest u)
    · show (s.pc u).allows (.retest u) = true
      rw [hacquire hu]
      rfl
    · simp [Nachos.lockStep, hu, hawake]
  have hpc : s.pc t = .acquire := by
    have hholds : (s.pc t).holds ≠ true := by
      intro hholds
      have := h.inside_of_holds hholds
      rw [hout t] at this
      cases this
    cases hpc : s.pc t with
    | acquire => rfl
    | idle => exact absurd hpc ht
    | wait | get | release ch =>
      rw [hpc] at hholds
      exact absurd rfl hholds
  have hplace := h.place t
  have hin := hout t
  rw [hpc] at hplace
  rcases hplace with hplace | hplace | hplace
  · apply canMove_lock (l := .acquire t)
    · show (s.pc t).allows (.acquire t) = true
      rw [hpc]
      rfl
    · simp [Nachos.lockStep, hplace]
  · cases hasleep : s.lock.semaphore.asleep t with
    | false => exact hretest hplace hasleep
    | true =>
      -- the unit is free, so a woken thread is about to test for it
      have hqueue : s.lock.semaphore.sem.queue ≠ [] :=
        List.ne_nil_of_mem ((h.lock.sem.queue_asleep t).mpr hasleep)
      have hcovered := h.lock.sem.covered hqueue
      rw [h.lock.free hout] at hcovered
      obtain ⟨u, hu⟩ := List.exists_mem_of_length_pos (l := s.lock.semaphore.sem.woken) (by omega)
      obtain ⟨held, hlock⟩ := h.lock.woken u hu
      exact hretest hlock (h.lock.sem.woken_awake u hu)
  · rw [hplace] at hin
    cases hin

theorem Inv.canMove_inside (h : s.Inv bytes) {t : ThreadId} (hin : (s.lock.pc t).inside = true)
    (hwait : s.pc t = .wait → s.waitFor.sem.value ≠ 0) : s.CanMove := by
  have hplace := h.place t
  cases hpc : s.pc t with
  | idle =>
    rw [hpc] at hplace
    rw [show s.lock.pc t = .outside from hplace] at hin
    cases hin
  | acquire =>
    rw [hpc] at hplace
    rcases hplace with hplace | hplace | hplace
    · rw [hplace] at hin
      cases hin
    · rw [hplace] at hin
      cases hin
    · apply canMove_lock (l := .assign t)
      · show (s.pc t).allows (.assign t) = true
        rw [hpc]
        rfl
      · simp [Nachos.lockStep, hplace]
  | wait =>
    have hasleep : s.waitFor.asleep t = false := by
      apply Bool.eq_false_iff.mpr
      intro hasleep
      -- whoever was woken for the unit has the lock as well
      have hqueue : s.waitFor.sem.queue ≠ [] :=
        List.ne_nil_of_mem ((h.sem.queue_asleep t).mpr hasleep)
      have hcovered := h.sem.covered hqueue
      have hnonneg := h.sem.nonneg
      have hvalue := hwait hpc
      obtain ⟨u, hu⟩ := List.exists_mem_of_length_pos (l := s.waitFor.sem.woken) (by omega)
      have hut := h.alone hin (u := u) (by rw [h.woken u hu]; rfl)
      have hawake := h.sem.woken_awake u hu
      rw [hut, hasleep] at hawake
      cases hawake
    obtain ⟨⟨sem, taken⟩, hp⟩ := h.sem.p_isSome hasleep
    refine ⟨.p t, rfl, ?_⟩
    cases taken <;> simp [InputState.step, hpc, hasleep, hp]
  | get => exact ⟨.get t, rfl, by simp [InputState.step, hpc]⟩
  | release ch =>
    rw [hpc] at hplace
    rcases hplace with hplace | hplace
    · have hholder : s.lock.lockHolder = some t :=
        (h.lock.holder t).mpr (by rw [hplace]; rfl)
      apply canMove_lock (l := .release t)
      · show (s.pc t).allows (.release t) = true
        rw [hpc]
        rfl
      · simp [Nachos.lockStep, hplace, hholder]
    · apply canMove_lock (l := .v t)
      · show (s.pc t).allows (.v t) = true
        rw [hpc]
        rfl
      · simp [Nachos.lockStep, hplace]

private theorem Inv.canMove_unless_done (h : s.Inv bytes) {t : ThreadId}
    (hin : (s.lock.pc t).inside = true) :
    s.CanMove ∨ (s.pc t = .wait ∧ s.got.map Prod.snd = bytes ++ [eof]) := by
  have hoffered (hunit : s.Offered) : s.CanMove := by
    rcases hunit with ⟨hone, -⟩ | ⟨-, u, hget⟩
    · exact h.canMove_inside hin fun _ => by omega
    · exact ⟨.get u, rfl, by simp [InputState.step, hget]⟩
  cases h.phase with
  | polling hincoming hpending _ _ =>
    refine .inl ⟨.interrupt true, rfl, ?_⟩
    cases hfile : s.console.file <;>
      simp [InputState.step, hpending, ConsoleInput.callBack, hincoming, hfile]
  | full _ _ hunit _ => exact .inl (hoffered hunit)
  | atEnd _ _ hunit _ => exact .inl (hoffered hunit)
  | done _ _ _ hgot =>
    by_cases hpc : s.pc t = .wait
    · exact .inr ⟨hpc, hgot⟩
    · exact .inl (h.canMove_inside hin fun hwait => absurd hwait hpc)

theorem Inv.halted (h : s.Inv bytes) (hhalted : s.Halted) :
    (∀ t, s.pc t = .idle) ∨ s.returned.map Prod.snd = bytes ++ [eof] := by
  have hstuck : ¬ s.CanMove := fun hmove => hmove.not_halted hhalted
  by_cases hin : ∃ u, (s.lock.pc u).inside = true
  · right
    obtain ⟨u, hin⟩ := hin
    obtain ⟨hpc, hgot⟩ := (h.canMove_unless_done hin).resolve_left hstuck
    rw [← (h.order_turn (.inl hpc)).2]
    exact hgot
  · left
    intro t
    by_contra ht
    have hout (u : ThreadId) : (s.lock.pc u).inside = false :=
      Bool.eq_false_iff.mpr fun hu => hin ⟨u, hu⟩
    exact hstuck (h.canMove_free hout ht)

private theorem Inv.returned_order (h : s.Inv bytes) : s.returned.map Prod.fst <+: s.acquired := by
  cases h.order with
  | free _ hacquired hreturned =>
    have heq : s.returned.map Prod.fst = s.acquired := by rw [hacquired, hreturned]
    exact heq ▸ List.prefix_rfl
  | waiting t _ hacquired hreturned =>
    rw [hacquired, hreturned]
    exact List.prefix_append _ _
  | leaving t ch _ hacquired hreturned =>
    rw [hacquired, hreturned, List.map_append]
    exact List.prefix_append _ _

private theorem Inv.returned_got (h : s.Inv bytes) :
    s.returned.map Prod.snd <+: s.got.map Prod.snd := by
  cases h.order with
  | free _ _ hreturned | waiting _ _ _ hreturned => exact hreturned ▸ List.prefix_rfl
  | leaving t ch _ _ hreturned =>
    rw [hreturned, List.map_append]
    exact List.prefix_append _ _

private theorem Inv.got_bytes (h : s.Inv bytes) : s.got.map Prod.snd <+: bytes ++ [eof] := by
  cases h.phase with
  | polling _ _ _ hgot | full _ _ _ hgot =>
    rw [← hgot, List.append_assoc]
    exact List.prefix_append _ _
  | atEnd _ _ _ hgot =>
    rw [hgot]
    exact List.prefix_append _ _
  | done _ _ _ hgot => exact hgot ▸ List.prefix_rfl

end InputState

theorem deliversInput_of_notMem {bytes : List Byte} (hbytes : eof ∉ bytes) :
    DeliversInput bytes := by
  intro s hr
  have h := (InputState.inv_inductive hbytes).of_reachable hr
  exact ⟨h.safe.1, h.returned_order, h.returned_got.trans h.got_bytes, h.halted⟩

/-! ## The byte 0xff

Once such a byte has been taken, the console is not polled any more.
-/

/-- A semaphore that threads have taken `n` units from and given `n` units to. -/
def servedSem (value : Int) (n : Nat) : SemState :=
  { sem := { Semaphore.new value with increments := n, decrements := n }, asleep := fun _ => false }

/-- Thread 0 has called `GetChar` for each of the bytes `taken`. -/
def served (taken file : List Byte) (pending : Nat) : InputState :=
  { lock := { LockState.new with semaphore := servedSem 1 taken.length },
    waitFor := servedSem 0 taken.length,
    console := { incoming := eof, file := file, pending := pending },
    pc := fun _ => .idle, aborted := false,
    acquired := taken.map fun _ => 0, got := taken.map fun ch => (0, ch),
    returned := taken.map fun ch => (0, ch) }

def serve : List InputLabel :=
  [.interrupt true, .call 0, .lock (.acquire 0), .lock (.assign 0), .p 0, .get 0,
    .lock (.release 0), .lock (.v 0)]

private theorem serve_run (taken file : List Byte) (ch : Byte) :
    serve.foldlM InputState.next (served taken (ch :: file) 1) =
      some (served (taken ++ [ch]) file (if ch ≠ eof then 1 else 0)) := by
  simp [serve, served, servedSem, InputState.next, InputState.step, ConsoleInput.callBack,
    ConsoleInput.getChar, InputPc.allows, InputPc.afterLock, InputPc.acquiring, InputPc.returning,
    CondPc.allows, lockStep, LockState.enterP, LockState.new, SemState.p, SemState.v,
    Semaphore.test, Semaphore.v, Semaphore.new, LockLabel.thread]

def starved (taken file : List Byte) : InputState :=
  { served taken file 0 with
    lock := { semaphore := { servedSem 0 taken.length with
                sem := { Semaphore.new 0 with increments := taken.length,
                                              decrements := taken.length + 1 } },
              lockHolder := some 0, pc := Function.update (fun _ => .outside) 0 .holding,
              aborted := false },
    waitFor := { sem := { (servedSem 0 taken.length).sem with queue := [0] },
                 asleep := Function.update (fun _ => false) 0 true },
    pc := Function.update (fun _ => .idle) 0 .wait,
    acquired := taken.map (fun _ => 0) ++ [0] }

private theorem starved_run (taken file : List Byte) :
    [InputLabel.call 0, .lock (.acquire 0), .lock (.assign 0), .p 0].foldlM InputState.next
      (served taken file 0) = some (starved taken file) := by
  simp [starved, served, servedSem, InputState.next, InputState.step,
    InputPc.allows, InputPc.afterLock, InputPc.acquiring, InputPc.returning,
    CondPc.allows, lockStep, LockState.enterP, LockState.new, SemState.p,
    Semaphore.test, Semaphore.new, LockLabel.thread, listAppend]

private theorem starved_halted (taken file : List Byte) : (starved taken file).Halted := by
  have hpc (t : ThreadId) : (starved taken file).pc t = .idle ∨
      ((starved taken file).pc t = .wait ∧ (starved taken file).waitFor.asleep t = true) := by
    by_cases ht : t = 0
    · simp [starved, ht]
    · simp [starved, ht]
  intro l hmoves
  cases l with
  | call t => cases hmoves
  | lock l =>
    rcases hpc l.thread with hl | ⟨hl, -⟩ <;> simp [InputState.step, hl, InputPc.allows]
  | p t =>
    rcases hpc t with ht | ⟨ht, hasleep⟩
    · simp [InputState.step, ht]
    · simp [InputState.step, ht, hasleep]
  | get t => rcases hpc t with ht | ⟨ht, -⟩ <;> simp [InputState.step, ht]
  | interrupt available => simp [InputState.step, starved, served]

namespace InputState

theorem next_step {bytes : List Byte} {s s' : InputState} {l : InputLabel}
    (h : s.next l = some s') : (inputSystem bytes).step s l s' := by
  unfold next at h
  split at h
  next ha => exact ⟨ha, h⟩
  next => cases h

end InputState

private theorem reachable_served {bytes : List Byte} (before taken file : List Byte)
    (hbefore : eof ∉ before) (hr : (inputSystem bytes).Reachable (served taken (before ++ file) 1)) :
    (inputSystem bytes).Reachable (served (taken ++ before) file 1) := by
  induction before generalizing taken with
  | nil =>
    rw [List.append_nil]
    exact hr
  | cons ch before ih =>
    obtain ⟨hch, hbefore⟩ := not_or.mp (List.mem_cons.not.mp hbefore)
    have hrun := serve_run taken (before ++ file) ch
    rw [if_pos (Ne.symm hch)] at hrun
    have hnext := Framework.System.Reachable.foldlM (fun _ _ _ => InputState.next_step) serve hr hrun
    rw [List.append_cons taken ch before]
    exact ih (taken ++ [ch]) hbefore hnext

private theorem not_deliversInput_of_mem {bytes : List Byte} (hbytes : eof ∈ bytes) :
    ¬ DeliversInput bytes := by
  intro hall
  obtain ⟨before, file, rfl, hbefore⟩ := List.eq_append_cons_of_mem hbytes
  have hbegin : (inputSystem (before ++ eof :: file)).Reachable
      (served [] (before ++ eof :: file) 1) := .init rfl
  have hserved := reachable_served before [] (eof :: file) hbefore hbegin
  -- the byte is returned, and the next call waits for ever
  have hlast := hserved.foldlM (fun _ _ _ => InputState.next_step) serve
    (serve_run ([] ++ before) file eof)
  rw [if_neg (by simp)] at hlast
  have hstarved := hlast.foldlM (fun _ _ _ => InputState.next_step) _
    (starved_run ([] ++ before ++ [eof]) file)
  obtain ⟨-, -, -, hhalted⟩ := hall _ hstarved
  rcases hhalted (starved_halted _ _) with hidle | hreturned
  · cases hidle 0
  · have hlength := congrArg List.length hreturned
    simp [starved, served] at hlength

/-- The bytes of the file and one `EOF` are delivered, whatever the threads and the polls do, if
and only if none of the bytes is 0xff. -/
theorem console_input_delivered (bytes : List Byte) : DeliversInput bytes ↔ eof ∉ bytes := by
  constructor
  · exact fun hall hmem => not_deliversInput_of_mem hmem hall
  · exact deliversInput_of_notMem

/-- An `A` typed after the byte 0xff reaches nobody. -/
theorem console_input_lost : ¬ DeliversInput [0xff, 0x41] :=
  not_deliversInput_of_mem (by decide)

end Nachos

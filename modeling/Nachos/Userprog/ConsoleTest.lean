import Mathlib.Data.List.TakeWhile
import Nachos.Threads.DeviceCalls
import Nachos.Userprog.ConsoleInput
import Nachos.Userprog.SynchConsole

/-!
# The console test

`Kernel::ConsoleTest` gets characters from `SynchConsoleInput` and puts them to
`SynchConsoleOutput` until it gets `EOF`. The byte 0xff is `EOF` to it, so what follows in the file
is never read: the input behaves as if the file ended there. All polls, interrupts and steps inside
the two wrappers interleave.
-/

namespace Nachos

open Framework

/-! ## The test -/

/-- Where `ConsoleTest` stands: about to call `GetChar`, in it, in `PutChar`, or behind the loop. -/
inductive EchoPc
  | loop
  | getting
  | putting
  | done
  deriving DecidableEq

structure ConsoleTest where
  input : InputState
  output : SynchDevice (List Byte) Byte Unit
  pc : EchoPc

inductive EchoLabel
  | input (l : InputLabel)
  | output (l : DeviceLabel Byte)
  /-- the statements of `ConsoleTest` from the return of one call to the next call -/
  | run

def InputLabel.isCall : InputLabel → Bool
  | .call _ => true
  | _ => false

def EchoLabel.moves : EchoLabel → Bool
  | .input (.interrupt false) => false
  | _ => true

namespace ConsoleTest

/-- `Kernel::ConsoleTest`, run by the thread `t`. -/
def run (t : ThreadId) (s : ConsoleTest) : Option ConsoleTest :=
  match s.pc with
  | .loop => (s.input.step (.call t)).map fun input => { s with input := input, pc := .getting }
  | .getting =>
    if s.input.pc t = .idle then do
      let (_, ch) ← s.input.returned.getLast?
      if ch = eof then some { s with pc := .done }
      else
        (s.output.step consoleDevice (.call t ch)).map fun output =>
          { s with output := output, pc := .putting }
    else none
  | .putting =>
    match s.output.pc t with
    | .idle => some { s with pc := .loop }
    | _ => none
  | .done => none

/-- The next step; `none` when there is no such step. -/
def step (t : ThreadId) (s : ConsoleTest) : EchoLabel → Option ConsoleTest
  | .input l =>
    if l.isCall then none else (s.input.step l).map fun input => { s with input := input }
  | .output l =>
    if l.isCall then none
    else (s.output.step consoleDevice l).map fun output => { s with output := output }
  | .run => s.run t

def Halted (t : ThreadId) (s : ConsoleTest) : Prop := ∀ l, l.moves = true → s.step t l = none

end ConsoleTest

/-- All runs of the test on a console whose file holds `bytes`. -/
def consoleTest (t : ThreadId) (bytes : List Byte) : System ConsoleTest EchoLabel where
  init s := s.input = .new bytes ∧ s.output = .new [] ∧ s.pc = .loop
  step s l s' := s.input.aborted = false ∧ s.output.aborted = false ∧ s.step t l = some s'

def typed (bytes : List Byte) : List Byte := bytes.takeWhile (· ≠ eof)

private theorem eof_notMem_typed (bytes : List Byte) : eof ∉ typed bytes := by
  intro h
  have hne := List.mem_takeWhile_imp h
  simp at hne

/-! ## The input behind the byte 0xff -/

namespace InputState

def withFile (s : InputState) (file : List Byte) : InputState :=
  { s with console := { s.console with file := file } }

private theorem step_withFile (s : InputState) (file : List Byte) {l : InputLabel}
    (hl : ∀ available, l ≠ .interrupt available) :
    (s.withFile file).step l = (s.step l).map fun s' => s'.withFile file := by
  cases l with
  | call t =>
    simp only [step, withFile]
    split <;> rfl
  | lock l =>
    by_cases ha : (s.pc l.thread).allows l = true
    · have ha' : ((s.withFile file).pc l.thread).allows l = true := ha
      simp only [step, if_pos ha, if_pos ha']
      show ((Nachos.lockStep s.lock l).bind _) = _
      cases Nachos.lockStep s.lock l <;> rfl
    · have ha' : ¬ ((s.withFile file).pc l.thread).allows l = true := ha
      simp only [step, if_neg ha, if_neg ha', Option.map_none]
  | p t =>
    cases hpc : s.pc t with
    | wait =>
      cases hasleep : s.waitFor.asleep t with
      | true => simp [step, withFile, hpc, hasleep]
      | false =>
        cases hp : s.waitFor.p t with
        | none => simp [step, withFile, hpc, hasleep, hp]
        | some x =>
          obtain ⟨sem, taken⟩ := x
          cases taken <;> simp [step, withFile, hpc, hasleep, hp]
    | _ => simp [step, withFile, hpc]
  | get t =>
    simp only [step, withFile]
    split <;> rfl
  | interrupt available => exact absurd rfl (hl available)

private theorem step_console {s s' : InputState} {l : InputLabel} (hs : s.step l = some s')
    (hl : ∀ available, l ≠ .interrupt available) :
    s'.console = s.console ∨ s'.console = s.console.getChar.1 := by
  cases l with
  | call t =>
    simp only [step] at hs
    split at hs
    next =>
      obtain rfl := Option.some.inj hs
      exact .inl rfl
    next => cases hs
  | lock l =>
    simp only [step] at hs
    split at hs
    next =>
      obtain ⟨lock, -, hs⟩ := Option.bind_eq_some_iff.mp hs
      obtain rfl := Option.some.inj hs
      exact .inl rfl
    next => cases hs
  | p t =>
    simp only [step] at hs
    split at hs
    next =>
      split at hs
      next => cases hs
      next =>
        split at hs <;>
        · obtain rfl := Option.some.inj hs
          exact .inl rfl
    next => cases hs
  | get t =>
    simp only [step] at hs
    split at hs
    next =>
      obtain rfl := Option.some.inj hs
      exact .inr rfl
    next => cases hs
  | interrupt available => exact absurd rfl (hl available)

/-- A console and one whose file ends before the first byte 0xff: what is left of the file differs
in what follows such a byte, or nothing is read any more. -/
inductive Sees (s s₀ : InputState) : Prop
  | reading (hsame : s = s₀.withFile s.console.file)
      (hfile : s₀.console.file = typed s.console.file)
  | ended (hsame : s = s₀.withFile s.console.file) (hpending : s₀.console.pending = 0)
      (hincoming : s₀.console.incoming = eof)

theorem Sees.same {s s₀ : InputState} (h : s.Sees s₀) : s = s₀.withFile s.console.file := by
  cases h with
  | reading hsame _ => exact hsame
  | ended hsame _ _ => exact hsame

private theorem typed_cons (ch : Byte) (file : List Byte) :
    typed (ch :: file) = if ch = eof then [] else ch :: typed file := by
  by_cases hch : ch = eof
  · simp [typed, hch]
  · rw [if_neg hch]
    exact List.takeWhile_cons_of_pos (by simpa using hch)

private theorem Sees.poll {bytes : List Byte} {s s₀ s' : InputState} (h : s.Sees s₀)
    (hinv : s₀.Inv bytes) {available : Bool} (hs : s.step (.interrupt available) = some s') :
    ∃ s₀', s₀.step (.interrupt available) = some s₀' ∧ s'.Sees s₀' := by
  have hsame := h.same
  have hsome : s₀.console.pending ≠ 0 := by
    intro hzero
    rw [hsame] at hs
    simp [InputState.step, withFile, hzero] at hs
  obtain ⟨hincoming, hone⟩ : s₀.console.incoming = eof ∧ s₀.console.pending = 1 := by
    cases hinv.phase with
    | polling hincoming hone _ _ => exact ⟨hincoming, hone⟩
    | full _ hzero _ _ | atEnd _ hzero _ _ | done _ hzero _ _ => exact absurd hzero hsome
  have htyped : s₀.console.file = typed s.console.file := by
    cases h with
    | reading _ hfile => exact hfile
    | ended _ hzero _ => exact absurd hzero hsome
  generalize s.console.file = file at hsame htyped
  subst hsame
  cases available with
  | false =>
    simp only [InputState.step, withFile, hone, ConsoleInput.callBack, hincoming] at hs ⊢
    obtain rfl := Option.some.inj hs
    exact ⟨_, rfl, .reading rfl htyped⟩
  | true =>
    cases file with
    | nil =>
      simp only [InputState.step, withFile, hone, ConsoleInput.callBack, hincoming, htyped,
        typed] at hs ⊢
      obtain rfl := Option.some.inj hs
      exact ⟨_, rfl, .reading rfl rfl⟩
    | cons ch file =>
      rw [typed_cons] at htyped
      simp only [InputState.step, withFile, hone, ConsoleInput.callBack, hincoming, htyped] at hs ⊢
      obtain rfl := Option.some.inj hs
      by_cases hch : ch = eof
      · rw [if_pos hch]
        exact ⟨_, rfl, .ended (by rw [hch]; rfl) rfl rfl⟩
      · rw [if_neg hch]
        exact ⟨_, rfl, .reading rfl rfl⟩

theorem Sees.step {bytes : List Byte} {s s₀ s' : InputState} (h : s.Sees s₀)
    (hinv : s₀.Inv bytes) {l : InputLabel} (hs : s.step l = some s') :
    ∃ s₀', s₀.step l = some s₀' ∧ s'.Sees s₀' := by
  by_cases hl : ∃ available, l = .interrupt available
  · obtain ⟨available, rfl⟩ := hl
    exact h.poll hinv hs
  · have hl' : ∀ available, l ≠ .interrupt available := fun available he => hl ⟨available, he⟩
    rw [h.same, step_withFile s₀ _ hl'] at hs
    obtain ⟨s₀', hs₀, rfl⟩ := Option.map_eq_some_iff.mp hs
    refine ⟨s₀', hs₀, ?_⟩
    have hconsole := step_console hs₀ hl'
    have hfile : s₀'.console.file = s₀.console.file := by
      rcases hconsole with hconsole | hconsole
      · rw [hconsole]
      · rw [hconsole]
        rfl
    cases h with
    | reading _ htyped => exact .reading rfl (hfile.trans htyped)
    | ended _ hpending hincoming =>
      refine .ended rfl ?_ ?_
      · rcases hconsole with hconsole | hconsole
        · rw [hconsole, hpending]
        · rw [hconsole, ConsoleInput.getChar, hincoming]
          exact hpending
      · rcases hconsole with hconsole | hconsole
        · rw [hconsole, hincoming]
        · rw [hconsole]
          rfl

private theorem exists_seen {bytes : List Byte} {s : InputState}
    (hr : (inputSystem bytes).Reachable s) :
    ∃ s₀, (inputSystem (typed bytes)).Reachable s₀ ∧ s.Sees s₀ := by
  induction hr with
  | init hinit =>
    obtain rfl : _ = _ := hinit
    exact ⟨.new (typed bytes), .init rfl, .reading rfl rfl⟩
  | step _ hs ih =>
    obtain ⟨s₀, hr₀, hsees⟩ := ih
    have hinv := (inv_inductive (eof_notMem_typed bytes)).of_reachable hr₀
    obtain ⟨s₀', hs₀, hsees'⟩ := hsees.step hinv hs.2
    exact ⟨s₀', hr₀.step ⟨hinv.safe.1, hs₀⟩, hsees'⟩

theorem Sees.halted {s s₀ : InputState} (h : s.Sees s₀) (hhalted : s.Halted) : s₀.Halted := by
  intro l hmoves
  have hnone := hhalted l hmoves
  by_cases hl : ∃ available, l = .interrupt available
  · obtain ⟨available, rfl⟩ := hl
    have hzero : s.console.pending = 0 := by
      by_contra hsome
      simp only [InputState.step, if_neg hsome] at hnone
      split at hnone <;> cases hnone
    have hzero₀ : s₀.console.pending = 0 := by
      rw [← hzero, h.same]
      rfl
    simp only [InputState.step, if_pos hzero₀]
  · rw [h.same, step_withFile s₀ _ fun available he => hl ⟨available, he⟩] at hnone
    exact Option.map_eq_none_iff.mp hnone

private theorem delivers_typed {bytes : List Byte} {s : InputState}
    (hr : (inputSystem bytes).Reachable s) :
    s.aborted = false ∧ s.returned.map Prod.snd <+: typed bytes ++ [eof] ∧
      (s.Halted → (∀ t, s.pc t = .idle) ∨ s.returned.map Prod.snd = typed bytes ++ [eof]) := by
  obtain ⟨s₀, hr₀, hsees⟩ := exists_seen hr
  obtain ⟨hrunning, -, hreturned, hhalted⟩ :=
    deliversInput_of_notMem (eof_notMem_typed bytes) s₀ hr₀
  have hsame := hsees.same
  have haborted : s.aborted = s₀.aborted := (congrArg aborted hsame).trans rfl
  have hpc : s.pc = s₀.pc := (congrArg pc hsame).trans rfl
  have hreturned' : s.returned = s₀.returned := (congrArg returned hsame).trans rfl
  rw [haborted, hpc, hreturned']
  exact ⟨hrunning, hreturned, fun hs => hhalted (hsees.halted hs)⟩

private theorem step_returns {s s' : InputState} {l : InputLabel} (hs : s.step l = some s')
    (hl : l.isCall = false) :
    ((∀ u, s'.pc u = .idle ↔ s.pc u = .idle) ∧ s'.returned = s.returned) ∨
      ∃ u ch, s.pc u ≠ .idle ∧ s'.pc = Function.update s.pc u .idle ∧
        s'.returned = s.returned ++ [(u, ch)] := by
  cases l with
  | call t => cases hl
  | lock l =>
    simp only [step] at hs
    split at hs
    next hallows =>
      obtain ⟨lock, hlock, hs⟩ := Option.bind_eq_some_iff.mp hs
      obtain rfl := Option.some.inj hs
      have hbusy : s.pc l.thread ≠ .idle := by
        intro hidle
        rw [hidle] at hallows
        cases hallows
      rcases lockStep_cases hallows hlock with
        ⟨hafter, -, hreturning⟩ | ⟨-, -, hafter, -, hreturning⟩ | ⟨ch, -, hafter, -, hreturning⟩
      · left
        simp only [hafter, hreturning, Function.update_eq_self, List.append_nil, implies_true,
          and_self]
      · left
        simp only [hafter, hreturning, List.append_nil, and_true]
        exact update_eq_iff hbusy (by simp)
      · right
        simp only [hafter, hreturning]
        exact ⟨l.thread, ch, hbusy, rfl, rfl⟩
    next => cases hs
  | p t =>
    simp only [step] at hs
    split at hs
    next hpc =>
      split at hs
      next => cases hs
      next =>
        split at hs
        next =>
          obtain rfl := Option.some.inj hs
          exact .inl ⟨fun _ => Iff.rfl, rfl⟩
        next =>
          obtain rfl := Option.some.inj hs
          exact .inl ⟨update_eq_iff (by rw [hpc]; simp) (by simp), rfl⟩
        next =>
          obtain rfl := Option.some.inj hs
          exact .inl ⟨fun _ => Iff.rfl, rfl⟩
    next => cases hs
  | get t =>
    simp only [step] at hs
    split at hs
    next hpc =>
      obtain rfl := Option.some.inj hs
      exact .inl ⟨update_eq_iff (by rw [hpc]; simp) (by simp), rfl⟩
    next => cases hs
  | interrupt available =>
    simp only [step] at hs
    split at hs
    next => cases hs
    next =>
      split at hs <;>
      · obtain rfl := Option.some.inj hs
        exact .inl ⟨fun _ => Iff.rfl, rfl⟩

end InputState

/-! ## The output -/

namespace SynchDevice

private theorem synchConsole_safe : synchConsoleSystem.Inductive fun s =>
    (s.Inv consoleDevice [] ∧ s.Sleepers) ∧ s.lock.aborted = false ∧ s.aborted = false := by
  apply (sleepers_inductive consoleDevice []).relative
  · rintro s rfl
    exact ⟨rfl, rfl⟩
  · intro s l s' hinv hsafe hs
    exact hinv.1.step_aborted hsafe.1 hsafe.2 (fun t ch _ _ => ⟨_, rfl⟩) hs.2

private theorem step_written {s s' : SynchDevice (List Byte) Byte Unit} {l : DeviceLabel Byte}
    (hs : s.step consoleDevice l = some s') (hl : l.isCall = false)
    (hrunning : s'.aborted = false) {t : ThreadId} (halone : ∀ u, u ≠ t → s.pc u = .idle) :
    s'.contents ++ (s'.pc t).unsent = s.contents ++ (s.pc t).unsent := by
  have hcall : ∀ t ch, l ≠ .call t ch := by
    rintro t ch rfl
    cases hl
  by_cases hrequest : ∃ u, l = .request u
  · obtain ⟨u, rfl⟩ := hrequest
    simp only [step] at hs
    split at hs
    next ch hpc _ =>
      obtain rfl : u = t := by
        by_contra hut
        rw [halone u hut] at hpc
        cases hpc
      split at hs
      next =>
        obtain rfl := Option.some.inj hs
        cases hrunning
      next =>
        simp only [consoleDevice] at hs
        obtain rfl := Option.some.inj hs
        simp [hpc, DevicePc.unsent]
    next => cases hs
  · have hunsent := (step_unsent hs hcall t).2 fun u he => hrequest ⟨u, he⟩
    rw [hunsent]
    congr 1
    cases l with
    | call t ch => exact absurd rfl (hcall t ch)
    | request t => exact absurd ⟨t, rfl⟩ hrequest
    | lock l =>
      simp only [step] at hs
      split at hs
      next =>
        obtain ⟨lock, -, hs⟩ := Option.bind_eq_some_iff.mp hs
        obtain rfl := Option.some.inj hs
        rfl
      next => cases hs
    | p t =>
      simp only [step] at hs
      split at hs
      next =>
        split at hs
        next => cases hs
        next =>
          split at hs <;>
          · obtain rfl := Option.some.inj hs
            rfl
      next => cases hs
    | interrupt k =>
      simp only [step] at hs
      split at hs
      next =>
        obtain rfl := Option.some.inj hs
        rfl
      next => cases hs

end SynchDevice

/-! ## The echo -/

namespace ConsoleTest

variable {t : ThreadId} {bytes : List Byte} {s s' : ConsoleTest}

/-- The characters that `GetChar` has returned. -/
def got (s : ConsoleTest) : List Byte := s.input.returned.map Prod.snd

/-- The characters on the console, and the one in the call of `PutChar`. -/
def put (t : ThreadId) (s : ConsoleTest) : List Byte :=
  s.output.contents ++ (s.output.pc t).unsent

/-- How far the echo is behind the input. -/
inductive Echo (t : ThreadId) (s : ConsoleTest) : Prop
  | loop (hpc : s.pc = .loop) (hinput : s.input.pc t = .idle) (houtput : s.output.pc t = .idle)
      (hecho : s.got = s.put t)
  | reading (hpc : s.pc = .getting) (hinput : s.input.pc t ≠ .idle)
      (houtput : s.output.pc t = .idle) (hecho : s.got = s.put t)
  | returned (ch : Byte) (hpc : s.pc = .getting) (hinput : s.input.pc t = .idle)
      (houtput : s.output.pc t = .idle) (hecho : s.got = s.put t ++ [ch])
  | putting (hpc : s.pc = .putting) (hinput : s.input.pc t = .idle) (hecho : s.got = s.put t)
  | done (hpc : s.pc = .done) (hinput : s.input.pc t = .idle) (houtput : s.output.pc t = .idle)
      (hecho : s.got = s.put t ++ [eof])

structure Inv (t : ThreadId) (bytes : List Byte) (s : ConsoleTest) : Prop where
  input : (inputSystem bytes).Reachable s.input
  output : synchConsoleSystem.Reachable s.output
  inputAlone : ∀ u, u ≠ t → s.input.pc u = .idle
  outputAlone : ∀ u, u ≠ t → s.output.pc u = .idle
  noEof : eof ∉ s.put t
  echo : s.Echo t

theorem Inv.init (t : ThreadId) (bytes : List Byte) :
    Inv t bytes { input := .new bytes, output := .new [], pc := .loop } where
  input := .init rfl
  output := .init rfl
  inputAlone _ _ := rfl
  outputAlone _ _ := rfl
  noEof h := by cases h
  echo := .loop rfl rfl rfl rfl

private theorem Inv.inputStep (h : s.Inv t bytes) {l : InputLabel} {input : InputState}
    (hl : l.isCall = false) (hrunning : s.input.aborted = false)
    (hs : s.input.step l = some input) : { s with input := input }.Inv t bytes := by
  have hreturns := InputState.step_returns hs hl
  have halone : ∀ u, u ≠ t → input.pc u = .idle := by
    intro u hu
    rcases hreturns with ⟨hpc, -⟩ | ⟨v, ch, hbusy, hpc, -⟩
    · exact (hpc u).mpr (h.inputAlone u hu)
    · rw [hpc]
      by_cases huv : u = v
      · rw [huv, Function.update_self]
      · rw [Function.update_of_ne huv]
        exact h.inputAlone u hu
  refine ⟨h.input.step ⟨hrunning, hs⟩, h.output, halone, h.outputAlone, h.noEof, ?_⟩
  rcases hreturns with ⟨hpc, hreturned⟩ | ⟨u, ch, hbusy, hpc, hreturned⟩
  · have hgot : got { s with input := input } = s.got := by rw [got, hreturned]; rfl
    have hidle := hpc t
    cases h.echo with
    | loop hpc hinput houtput hecho =>
      exact .loop hpc (hidle.mpr hinput) houtput (hgot.trans hecho)
    | reading hpc hinput houtput hecho =>
      exact .reading hpc (fun hi => hinput (hidle.mp hi)) houtput (hgot.trans hecho)
    | returned ch hpc hinput houtput hecho =>
      exact .returned ch hpc (hidle.mpr hinput) houtput (hgot.trans hecho)
    | putting hpc hinput hecho => exact .putting hpc (hidle.mpr hinput) (hgot.trans hecho)
    | done hpc hinput houtput hecho =>
      exact .done hpc (hidle.mpr hinput) houtput (hgot.trans hecho)
  · obtain rfl : u = t := by
      by_contra hut
      exact hbusy (h.inputAlone u hut)
    cases h.echo with
    | reading hreading _ houtput hecho =>
      refine .returned ch hreading ?_ houtput ?_
      · rw [hpc, Function.update_self]
      · show input.returned.map Prod.snd = _
        rw [hreturned, List.map_append]
        exact congrArg (· ++ [ch]) hecho
    | loop _ hinput _ _ | returned _ _ hinput _ _ | putting _ hinput _ | done _ hinput _ _ =>
      exact absurd hinput hbusy

private theorem Inv.outputStep (h : s.Inv t bytes) {l : DeviceLabel Byte}
    {output : SynchDevice (List Byte) Byte Unit} (hl : l.isCall = false)
    (hrunning : s.output.aborted = false) (hs : s.output.step consoleDevice l = some output) :
    { s with output := output }.Inv t bytes := by
  have hr := h.output.step (S := synchConsoleSystem) ⟨hrunning, hs⟩
  have hsafe := (SynchDevice.synchConsole_safe.of_reachable hr).2.2
  have hcall : ∀ t ch, l ≠ .call t ch := by
    rintro t ch rfl
    cases hl
  have hidle : ∀ u, s.output.pc u = .idle → output.pc u = .idle :=
    fun u => (SynchDevice.step_unsent hs hcall u).1
  have hput : put t { s with output := output } = s.put t :=
    SynchDevice.step_written hs hl hsafe h.outputAlone
  refine ⟨h.input, hr, h.inputAlone, fun u hu => hidle u (h.outputAlone u hu), ?_, ?_⟩
  · rw [hput]
    exact h.noEof
  · cases h.echo with
    | loop hpc hinput houtput hecho =>
      exact .loop hpc hinput (hidle t houtput) (hecho.trans hput.symm)
    | reading hpc hinput houtput hecho =>
      exact .reading hpc hinput (hidle t houtput) (hecho.trans hput.symm)
    | returned ch hpc hinput houtput hecho =>
      exact .returned ch hpc hinput (hidle t houtput) (by rw [hput]; exact hecho)
    | putting hpc hinput hecho => exact .putting hpc hinput (hecho.trans hput.symm)
    | done hpc hinput houtput hecho =>
      exact .done hpc hinput (hidle t houtput) (by rw [hput]; exact hecho)

private theorem getLast_returned {ch : Byte} {xs : List Byte} (hecho : s.got = xs ++ [ch]) :
    ∃ u, s.input.returned.getLast? = some (u, ch) := by
  have hlast : s.got.getLast? = some ch := by rw [hecho, List.getLast?_concat]
  rw [got, List.getLast?_map] at hlast
  obtain ⟨⟨u, ch'⟩, hx, rfl⟩ := Option.map_eq_some_iff.mp hlast
  exact ⟨u, hx⟩

theorem Inv.run (h : s.Inv t bytes) (hrunning : s.input.aborted = false)
    (hrunning' : s.output.aborted = false) (hs : s.run t = some s') : s'.Inv t bytes := by
  cases h.echo with
  | loop hpc hinput houtput hecho =>
    simp only [ConsoleTest.run, hpc, InputState.step, hinput, Option.map_some] at hs
    obtain rfl := Option.some.inj hs
    refine ⟨h.input.step (l := .call t) ⟨hrunning, by simp [InputState.step, hinput]⟩, h.output,
      ?_, h.outputAlone, h.noEof, .reading rfl ?_ houtput hecho⟩
    · exact fun u hu => (Function.update_of_ne hu _ _).trans (h.inputAlone u hu)
    · simp
  | reading hpc hinput houtput hecho =>
    simp [ConsoleTest.run, hpc, hinput] at hs
  | returned ch hpc hinput houtput hecho =>
    obtain ⟨u, hlast⟩ := getLast_returned hecho
    simp only [ConsoleTest.run, hpc, hinput, if_true, hlast, Option.bind_eq_bind,
      Option.bind_some] at hs
    split at hs
    next hch =>
      obtain rfl := Option.some.inj hs
      rw [hch] at hecho
      exact ⟨h.input, h.output, h.inputAlone, h.outputAlone, h.noEof,
        .done rfl hinput houtput hecho⟩
    next hch =>
      simp only [SynchDevice.step, houtput, Option.map_some] at hs
      obtain rfl := Option.some.inj hs
      have hput : s.put t = s.output.contents := by
        rw [put, houtput]
        exact List.append_nil _
      have hnew : put t { s with
          output := { s.output with pc := Function.update s.output.pc t (.acquire ch) },
          pc := .putting } = s.put t ++ [ch] := by
        rw [hput]
        show s.output.contents ++ (Function.update s.output.pc t (.acquire ch) t).unsent = _
        rw [Function.update_self]
        rfl
      refine ⟨h.input, h.output.step (l := .call t ch) ⟨hrunning', ?_⟩, h.inputAlone, ?_, ?_,
        .putting rfl hinput (hecho.trans hnew.symm)⟩
      · simp [SynchDevice.step, houtput]
      · exact fun u hu => (Function.update_of_ne hu _ _).trans (h.outputAlone u hu)
      · rw [hnew]
        simpa using ⟨h.noEof, Ne.symm hch⟩
  | putting hpc hinput hecho =>
    simp only [ConsoleTest.run, hpc] at hs
    split at hs
    next houtput =>
      obtain rfl := Option.some.inj hs
      exact ⟨h.input, h.output, h.inputAlone, h.outputAlone, h.noEof,
        .loop rfl hinput houtput hecho⟩
    next => cases hs
  | done hpc hinput houtput hecho =>
    simp [ConsoleTest.run, hpc] at hs

theorem inv_inductive (t : ThreadId) (bytes : List Byte) :
    (consoleTest t bytes).Inductive (Inv t bytes) where
  init := by
    rintro ⟨input, output, pc⟩ ⟨rfl, rfl, rfl⟩
    exact Inv.init t bytes
  step := by
    rintro s l s' h ⟨hrunning, hrunning', hs⟩
    cases l with
    | input l =>
      simp only [ConsoleTest.step] at hs
      split at hs
      next => cases hs
      next hl =>
        obtain ⟨input, hinput, rfl⟩ := Option.map_eq_some_iff.mp hs
        exact h.inputStep (Bool.not_eq_true _ ▸ hl) hrunning hinput
    | output l =>
      simp only [ConsoleTest.step] at hs
      split at hs
      next => cases hs
      next hl =>
        obtain ⟨output, houtput, rfl⟩ := Option.map_eq_some_iff.mp hs
        exact h.outputStep (Bool.not_eq_true _ ▸ hl) hrunning' houtput
    | run => exact h.run hrunning hrunning' hs

private theorem Inv.put_prefix (h : s.Inv t bytes) : s.put t <+: typed bytes := by
  have hgot : s.put t <+: s.got := by
    cases h.echo with
    | loop _ _ _ hecho | reading _ _ _ hecho | putting _ _ hecho => exact hecho ▸ List.prefix_rfl
    | returned ch _ _ _ hecho | done _ _ _ hecho => exact hecho ▸ List.prefix_append _ _
  have hall := hgot.trans (InputState.delivers_typed h.input).2.1
  rcases List.prefix_concat_iff.mp hall with heq | hbefore
  · exact absurd (heq ▸ List.mem_append_right _ (List.mem_singleton_self eof)) h.noEof
  · exact hbefore

theorem Inv.done (h : s.Inv t bytes) (hpc : s.pc = .done) : s.output.contents = typed bytes := by
  cases h.echo with
  | loop hpc' _ _ _ | reading hpc' _ _ _ | returned _ hpc' _ _ _ | putting hpc' _ _ =>
    rw [hpc] at hpc'
    cases hpc'
  | done _ _ houtput hecho =>
    have hput : s.put t = s.output.contents := by
      rw [put, houtput]
      exact List.append_nil _
    have hgot := (InputState.delivers_typed h.input).2.1
    rw [show s.input.returned.map Prod.snd = s.got from rfl, hecho, hput] at hgot
    rcases List.prefix_concat_iff.mp hgot with heq | hbefore
    · exact List.append_cancel_right heq
    · exact absurd (hbefore.subset (List.mem_append_right _ (List.mem_singleton_self eof)))
        (eof_notMem_typed bytes)

private theorem step_input {l : InputLabel} (hl : l.isCall = false)
    (hs : s.step t (.input l) = none) :
    s.input.step l = none := by
  simpa [ConsoleTest.step, hl] using hs

theorem Inv.halted (h : s.Inv t bytes) (hhalted : s.Halted t) : s.pc = .done := by
  have hrun : s.run t = none := hhalted .run rfl
  cases h.echo with
  | done hpc _ _ _ => exact hpc
  | loop hpc hinput _ _ =>
    simp [ConsoleTest.run, hpc, InputState.step, hinput] at hrun
  | returned ch hpc hinput houtput hecho =>
    obtain ⟨u, hlast⟩ := getLast_returned hecho
    simp only [ConsoleTest.run, hpc, hinput, if_true, hlast, Option.bind_eq_bind,
      Option.bind_some, SynchDevice.step, houtput, Option.map_some] at hrun
    split at hrun <;> cases hrun
  | reading _ hinput _ hecho =>
    have hstuck : s.input.Halted := by
      intro l hmoves
      have hl : l.isCall = false := by
        cases l with
        | call t => cases hmoves
        | _ => rfl
      refine step_input hl (hhalted (.input l) ?_)
      cases l with
      | interrupt available =>
        cases available with
        | false => cases hmoves
        | true => rfl
      | _ => rfl
    rcases (InputState.delivers_typed h.input).2.2 hstuck with hidle | hall
    · exact absurd (hidle t) hinput
    · rw [show s.input.returned.map Prod.snd = s.got from rfl, hecho] at hall
      exact absurd (hall ▸ List.mem_append_right _ (List.mem_singleton_self eof)) h.noEof
  | putting hpc _ _ =>
    by_cases houtput : s.output.pc t = .idle
    · simp [ConsoleTest.run, hpc, houtput] at hrun
    · have hinv := (SynchDevice.synchConsole_safe.of_reachable h.output).1
      obtain ⟨l, hl, hsome⟩ := hinv.1.canMove hinv.2 houtput
      have hnone := hhalted (.output l) rfl
      simp only [ConsoleTest.step, hl, Bool.false_eq_true, if_false, Option.map_eq_none_iff] at hnone
      rw [hnone] at hsome
      cases hsome

end ConsoleTest

/-- Whatever the polls and the interrupts do, no ASSERT fails, the console shows what has come of
the file up to the first byte 0xff in the order in which it came, the test does not stop inside its
loop, and behind the loop all of it has been shown. -/
theorem console_echo (t : ThreadId) (bytes : List Byte) {s : ConsoleTest}
    (hr : (consoleTest t bytes).Reachable s) :
    s.input.aborted = false ∧ s.output.aborted = false ∧
      s.output.contents <+: typed bytes ∧
      (s.pc = .done → s.output.contents = typed bytes) ∧
      (s.Halted t → s.pc = .done) := by
  have h := (ConsoleTest.inv_inductive t bytes).of_reachable hr
  exact ⟨(InputState.delivers_typed h.input).1,
    (SynchDevice.synchConsole_safe.of_reachable h.output).2.2,
    (List.prefix_append _ _).trans h.put_prefix, h.done, h.halted⟩

/-- An `A` is typed, echoed, and followed by the byte 0xff. -/
private def echoRun : List EchoLabel :=
  [.run, .input (.interrupt false), .input (.interrupt true), .input (.lock (.acquire 0)),
    .input (.lock (.assign 0)), .input (.p 0), .input (.get 0), .input (.lock (.release 0)),
    .input (.lock (.v 0)), .run, .output (.lock (.acquire 0)), .output (.lock (.assign 0)),
    .output (.request 0), .input (.interrupt true), .output (.p 0), .output (.interrupt 0),
    .output (.p 0), .output (.lock (.release 0)), .output (.lock (.v 0)), .run, .run,
    .input (.lock (.acquire 0)), .input (.lock (.assign 0)), .input (.p 0), .input (.get 0),
    .input (.lock (.release 0)), .input (.lock (.v 0)), .run]

private def echoNext (s : ConsoleTest) (l : EchoLabel) : Option ConsoleTest :=
  if s.input.aborted = false ∧ s.output.aborted = false then s.step 0 l else none

private def echoBegins : ConsoleTest :=
  { input := .new [0x41, 0xff, 0x42], output := .new [], pc := .loop }

theorem console_echo_typed : ∃ s, (consoleTest 0 [0x41, 0xff, 0x42]).Reachable s ∧
    s.pc = .done ∧ s.output.contents = [0x41] := by
  have hdone : ((echoRun.foldlM echoNext echoBegins).map fun s => s.pc) = some .done := by
    decide +kernel
  obtain ⟨s, hrun, hpc⟩ := Option.map_eq_some_iff.mp hdone
  have hr : (consoleTest 0 [0x41, 0xff, 0x42]).Reachable s := by
    refine .foldlM (f := echoNext) ?_ echoRun (.init ⟨rfl, rfl, rfl⟩) hrun
    intro s l s' hs
    simp only [echoNext] at hs
    split at hs
    next hrunning => exact ⟨hrunning.1, hrunning.2, hs⟩
    next => cases hs
  exact ⟨s, hr, hpc, (console_echo 0 _ hr).2.2.2.1 hpc⟩

end Nachos

import Nachos.Threads.Waiting

/-!
# The self test of semaphores

`Semaphore::SelfTest` forks a thread and plays ten rounds of ping-pong with it over two semaphores.
The two threads run their code on the kernel with any other threads, any interrupts and any time
slices around them; nobody else uses the two semaphores. In every such run the rounds alternate
strictly, the machine cannot halt before the test is over, and nobody is left in either semaphore
when it is deleted.
-/

namespace Nachos

open Framework

/-- The names in one call of `Semaphore::SelfTest`: `pong` is the semaphore itself. -/
structure SemTest where
  main : ThreadId
  helper : ThreadId
  ping : SemId
  pong : SemId
  threads : main ≠ helper
  semaphores : ping ≠ pong

namespace SemTest

variable (T : SemTest)

/-- The loop of `Semaphore::SelfTest`. -/
def rounds : Nat → List Op
  | 0 => []
  | r + 1 => .v T.ping :: .p T.pong :: rounds r

/-- The loop of `SelfTestHelper`. -/
def helperRounds : Nat → List Op
  | 0 => []
  | r + 1 => .p T.ping :: .v T.pong :: helperRounds r

/-- `Semaphore::SelfTest`, up to the deletion of `ping`. -/
def selfTest : List Op := .fork T.helper :: T.rounds 10

/-- `SelfTestHelper`. -/
def selfTestHelper : List Op := T.helperRounds 10

def Foreign (e : Event) : Prop :=
  e.uses ≠ some T.ping ∧ e.uses ≠ some T.pong ∧ e ≠ .call (.fork T.helper)

end SemTest

/-- The kernel with what the two threads have still to call. -/
structure SemTestState where
  kernel : Kernel
  code : List Op
  helperCode : List Op

namespace SemTestState

variable (T : SemTest)

/-- The call that the code of the current thread makes next, and what is left of the code. After
`SelfTest` the main thread runs other code; `ThreadRoot` ends with `Finish`. -/
inductive Calls (s : SemTestState) : Op → List Op → List Op → Prop
  | test {op : Op} {rest : List Op} (hcurrent : s.kernel.currentThread = T.main)
      (hcode : s.code = op :: rest) : Calls s op rest s.helperCode
  | returned {op : Op} (hcurrent : s.kernel.currentThread = T.main) (hcode : s.code = [])
      (hop : T.Foreign (.call op)) : Calls s op s.code s.helperCode
  | helper {op : Op} {rest : List Op} (hcurrent : s.kernel.currentThread = T.helper)
      (hcode : s.helperCode = op :: rest) : Calls s op s.code rest
  | finish (hcurrent : s.kernel.currentThread = T.helper) (hcode : s.helperCode = []) :
      Calls s .finish s.code s.helperCode
  | other {op : Op} (hmain : s.kernel.currentThread ≠ T.main)
      (hhelper : s.kernel.currentThread ≠ T.helper) (hop : T.Foreign (.call op)) :
      Calls s op s.code s.helperCode

inductive Step (s : SemTestState) : Event → SemTestState → Prop
  | call {op : Op} {code helperCode : List Op} {k : Kernel} (hcalls : Calls T s op code helperCode)
      (he : s.kernel.enabled (.call op)) (hk : s.kernel.exec (.call op) = some k) :
      Step s (.call op) { kernel := k, code := code, helperCode := helperCode }
  | step {k : Kernel} (he : s.kernel.enabled .step) (hk : s.kernel.exec .step = some k) :
      Step s .step { s with kernel := k }
  | handler {a : HandlerAction} {k : Kernel} (ha : T.Foreign (.handler a))
      (he : s.kernel.enabled (.handler a)) (hk : s.kernel.exec (.handler a) = some k) :
      Step s (.handler a) { s with kernel := k }

end SemTestState

def Kernel.Fresh (k : Kernel) (s : SemId) : Prop :=
  k.semaphore s = .new 0 ∧ ∀ t, k.waits t ≠ some s

/-- The test is called with two new semaphores and a new thread, in any state of the kernel in which
the main thread runs its own code. -/
def semTestSystem (T : SemTest) (p : ThreadId → Int) (n : SemId → Nat) :
    System SemTestState Event where
  init s := (kernelSystem p n).Reachable s.kernel ∧
    s.kernel.currentThread = T.main ∧ s.kernel.stack T.main = [] ∧
    s.kernel.Fresh T.ping ∧ s.kernel.Fresh T.pong ∧ s.kernel.status T.helper = .justCreated ∧
    s.code = T.selfTest ∧ s.helperCode = T.selfTestHelper
  step := SemTestState.Step T

namespace SemTest

variable {T : SemTest}

/-! ## Where the two threads are -/

/-- How far `SelfTest` is: the code left, its calls of `V` on `ping`, the units it has taken from
`pong`, and whether it is inside `P`. -/
inductive TestAt (T : SemTest) : List Op → Nat → Nat → Bool → Prop
  | fork : TestAt T T.selfTest 0 0 false
  | v (i r : Nat) (h : i + r = 10) : TestAt T (T.rounds r) i i false
  | p (i r : Nat) (h : i + 1 + r = 10) : TestAt T (.p T.pong :: T.rounds r) (i + 1) i false
  | inP (i r : Nat) (h : i + 1 + r = 10) : TestAt T (T.rounds r) (i + 1) i true

/-- How far `SelfTestHelper` is: the code left, the units it has taken from `ping`, its calls of `V`
on `pong`, and whether it is inside `P`. -/
inductive HelperAt (T : SemTest) : List Op → Nat → Nat → Bool → Prop
  | p (i r : Nat) (h : i + r = 10) : HelperAt T (T.helperRounds r) i i false
  | inP (i r : Nat) (h : i + 1 + r = 10) :
      HelperAt T (.v T.pong :: T.helperRounds r) i i true
  | v (i r : Nat) (h : i + 1 + r = 10) : HelperAt T (.v T.pong :: T.helperRounds r) (i + 1) i false

/-- The next call of `SelfTest`. -/
theorem TestAt.next {op : Op} {rest : List Op} {a b : Nat} (h : T.TestAt (op :: rest) a b false) :
    (op = .fork T.helper ∧ T.TestAt rest a b false) ∨
    (op = .v T.ping ∧ T.TestAt rest (a + 1) b false) ∨ (op = .p T.pong ∧ T.TestAt rest a b true) := by
  generalize hcode : op :: rest = code at h
  generalize hin : false = b' at h
  cases h with
  | fork =>
    obtain ⟨rfl, rfl⟩ := List.cons.inj hcode
    exact .inl ⟨rfl, .v 0 10 rfl⟩
  | v i r h =>
    cases r with
    | zero => cases hcode
    | succ r =>
      obtain ⟨rfl, rfl⟩ := List.cons.inj hcode
      exact .inr (.inl ⟨rfl, .p _ r (by omega)⟩)
  | p i r h =>
    obtain ⟨rfl, rfl⟩ := List.cons.inj hcode
    exact .inr (.inr ⟨rfl, .inP _ r h⟩)
  | inP i r h => cases hin

theorem TestAt.length_le {code : List Op} {a b : Nat} {w : Bool} (h : T.TestAt code a b w) :
    code.length ≤ T.selfTest.length := by
  have hrounds : ∀ r, (T.rounds r).length = 2 * r := by
    intro r
    induction r with
    | zero => rfl
    | succ r ih =>
      simp only [rounds, List.length_cons, ih]
      omega
  simp only [selfTest, List.length_cons, hrounds]
  cases h with
  | fork => simp [selfTest, hrounds]
  | v i r h =>
    rw [hrounds]
    omega
  | p i r h =>
    rw [List.length_cons, hrounds]
    omega
  | inP i r h =>
    rw [hrounds]
    omega

private theorem TestAt.eq_selfTest {t : ThreadId} {rest : List Op} {a b : Nat} {w : Bool}
    (h : T.TestAt (.fork t :: rest) a b w) : .fork t :: rest = T.selfTest := by
  generalize hcode : Op.fork t :: rest = code at h ⊢
  have hrounds : ∀ r, Op.fork t :: rest ≠ T.rounds r := by
    intro r hr
    cases r with
    | zero => cases hr
    | succ r => cases (List.cons.inj hr).1
  cases h with
  | fork => rfl
  | v _ r _ => exact absurd hcode (hrounds r)
  | p _ r _ => cases (List.cons.inj hcode).1
  | inP _ r _ => exact absurd hcode (hrounds r)

/-- `SelfTest` leaves `P`. -/
theorem TestAt.take {code : List Op} {a b : Nat} (h : T.TestAt code a b true) :
    T.TestAt code a (b + 1) false := by
  cases h with
  | inP i r h => exact .v _ r h

theorem HelperAt.next {op : Op} {rest : List Op} {c d : Nat}
    (h : T.HelperAt (op :: rest) c d false) :
    (op = .p T.ping ∧ T.HelperAt rest c d true) ∨
    (op = .v T.pong ∧ T.HelperAt rest c (d + 1) false) := by
  generalize hcode : op :: rest = code at h
  generalize hin : false = b at h
  cases h with
  | p i r h =>
    cases r with
    | zero => cases hcode
    | succ r =>
      obtain ⟨rfl, rfl⟩ := List.cons.inj hcode
      exact .inl ⟨rfl, .inP _ r (by omega)⟩
  | inP i r h => cases hin
  | v i r h =>
    obtain ⟨rfl, rfl⟩ := List.cons.inj hcode
    exact .inr ⟨rfl, .p _ r h⟩

theorem HelperAt.take {code : List Op} {c d : Nat} (h : T.HelperAt code c d true) :
    T.HelperAt code (c + 1) d false := by
  cases h with
  | inP i r h => exact .v _ r h

end SemTest

namespace SemTestState

/-- The counters of the two semaphores and the code left tell the same story, and only the two
threads wait for the two semaphores. -/
structure Inv (T : SemTest) (p : ThreadId → Int) (n : SemId → Nat) (s : SemTestState) : Prop where
  kernel : (kernelSystem p n).Reachable s.kernel
  fresh : n T.ping = 0 ∧ n T.pong = 0
  test : T.TestAt s.code (s.kernel.semaphore T.ping).increments
    (s.kernel.semaphore T.pong).decrements (decide (s.kernel.waits T.main = some T.pong))
  helper : T.HelperAt s.helperCode (s.kernel.semaphore T.ping).decrements
    (s.kernel.semaphore T.pong).increments (decide (s.kernel.waits T.helper = some T.ping))
  inPing : ∀ t, s.kernel.waits t = some T.ping → t = T.helper
  inPong : ∀ t, s.kernel.waits t = some T.pong → t = T.main
  helperWaits : ∀ u, s.kernel.waits T.helper = some u → u = T.ping
  start : s.code = T.selfTest → s.kernel.currentThread = T.main ∧ s.kernel.stack T.main = [] ∧
    s.kernel.status T.helper = .justCreated

variable {T : SemTest} {p : ThreadId → Int} {n : SemId → Nat} {s s' : SemTestState}

private theorem fresh_units {k : Kernel} {u : SemId} (hw : Kernel.Waiting n k) (hu : k.Fresh u) :
    n u = 0 := by
  have hbalance := (hw.inv u).balance
  simp only [Kernel.semState, hu.1, Semaphore.new] at hbalance
  omega

private theorem init_inv (h : (semTestSystem T p n).init s) : Inv T p n s := by
  obtain ⟨hr, hcurrent, hstack, hping, hpong, hnew, hcode, hhelper⟩ := h
  obtain ⟨hinv, hw⟩ := (Kernel.waiting_inductive p n).of_reachable hr
  have hhelperFree : s.kernel.waits T.helper = none := hw.created T.helper hnew
  refine ⟨hr, ⟨fresh_units hw hping, fresh_units hw hpong⟩, ?_, ?_, ?_, ?_, ?_, ?_⟩
  · rw [hcode, hping.1, hpong.1, decide_eq_false (hpong.2 T.main)]
    exact .fork
  · rw [hhelper, hping.1, hpong.1, decide_eq_false (hping.2 T.helper)]
    exact .p 0 10 rfl
  · intro t ht
    exact absurd ht (hping.2 t)
  · intro t ht
    exact absurd ht (hpong.2 t)
  · intro u hu
    rw [hhelperFree] at hu
    contradiction
  · exact fun _ => ⟨hcurrent, hstack, hnew⟩

/-! ## What one event does to the test -/

/-- An event of other code: neither semaphore is used and nobody starts or stops to wait for one. -/
structure Apart (T : SemTest) (k k' : Kernel) : Prop where
  ping : (k'.semaphore T.ping).increments = (k.semaphore T.ping).increments ∧
    (k'.semaphore T.ping).decrements = (k.semaphore T.ping).decrements
  pong : (k'.semaphore T.pong).increments = (k.semaphore T.pong).increments ∧
    (k'.semaphore T.pong).decrements = (k.semaphore T.pong).decrements
  inPing : ∀ t, k'.waits t = some T.ping ↔ k.waits t = some T.ping
  inPong : ∀ t, k'.waits t = some T.pong ↔ k.waits t = some T.pong
  helper : ∀ u, k'.waits T.helper = some u → k.waits T.helper = some u

theorem Inv.apart (h : Inv T p n s) {k' : Kernel} (hk : Apart T s.kernel k')
    (hr : (kernelSystem p n).Reachable k')
    (hstart : s.code = T.selfTest → k'.currentThread = T.main ∧ k'.stack T.main = [] ∧
      k'.status T.helper = .justCreated) : Inv T p n { s with kernel := k' } := by
  refine ⟨hr, h.fresh, ?_, ?_, ?_, ?_, ?_, hstart⟩
  · simp only [hk.ping.1, hk.pong.2, hk.inPong]
    exact h.test
  · simp only [hk.ping.2, hk.pong.1, hk.inPing]
    exact h.helper
  · intro t ht
    exact h.inPing t ((hk.inPing t).mp ht)
  · intro t ht
    exact h.inPong t ((hk.inPong t).mp ht)
  · intro u hu
    exact h.helperWaits u (hk.helper u hu)

private theorem counters_of_ne {k k' : Kernel} {u v : SemId} {sem : Semaphore}
    (hsem : k'.semaphore = Function.update k.semaphore u sem) (hv : v ≠ u) :
    (k'.semaphore v).increments = (k.semaphore v).increments ∧
      (k'.semaphore v).decrements = (k.semaphore v).decrements := by
  rw [hsem, Function.update_of_ne hv]
  exact ⟨rfl, rfl⟩

private theorem waits_iff {k k' : Kernel} {c : ThreadId} {w : Option SemId} {u : SemId}
    (hwaits : k'.waits = Function.update k.waits c w) (hnew : w ≠ some u)
    (hold : k.waits c ≠ some u) (t : ThreadId) : k'.waits t = some u ↔ k.waits t = some u := by
  by_cases ht : t = c
  · rw [hwaits, ht, Function.update_self]
    exact iff_of_false hnew hold
  · rw [hwaits, Function.update_of_ne ht]

theorem Apart.of_update {k k' : Kernel} {u : SemId} {sem : Semaphore}
    (hsem : k'.semaphore = Function.update k.semaphore u sem) (hping : u ≠ T.ping)
    (hpong : u ≠ T.pong) (hwaits : k'.waits = k.waits) : Apart T k k' := by
  refine ⟨counters_of_ne hsem hping.symm, counters_of_ne hsem hpong.symm, ?_, ?_, ?_⟩ <;>
  · rw [hwaits]
    simp

private theorem Apart.of_waits {k k' : Kernel} {w : Option SemId}
    (hsem : ∀ u, u = T.ping ∨ u = T.pong →
      (k'.semaphore u).increments = (k.semaphore u).increments ∧
        (k'.semaphore u).decrements = (k.semaphore u).decrements)
    (hwaits : k'.waits = Function.update k.waits k.currentThread w)
    (hold : k.waits k.currentThread ≠ some T.ping ∧ k.waits k.currentThread ≠ some T.pong)
    (hnew : w ≠ some T.ping ∧ w ≠ some T.pong)
    (hhelper : k.currentThread = T.helper → w = none) : Apart T k k' := by
  refine ⟨hsem _ (.inl rfl), hsem _ (.inr rfl), waits_iff hwaits hnew.1 hold.1,
    waits_iff hwaits hnew.2 hold.2, ?_⟩
  intro u hu
  by_cases hcurrent : k.currentThread = T.helper
  · rw [hwaits, hcurrent, Function.update_self, hhelper hcurrent] at hu
    contradiction
  · rwa [hwaits, Function.update_of_ne (Ne.symm hcurrent)] at hu

theorem Apart.of_same {k k' : Kernel}
    (hsem : ∀ u, (k'.semaphore u).increments = (k.semaphore u).increments ∧
      (k'.semaphore u).decrements = (k.semaphore u).decrements)
    (hwaits : k'.waits = k.waits) : Apart T k k' := by
  refine ⟨hsem _, hsem _, ?_, ?_, ?_⟩ <;>
  · rw [hwaits]
    simp

private theorem counters_of_sleep {k k' : Kernel} {u : SemId} {queue woken : List ThreadId}
    (hsem : k'.semaphore = Function.update k.semaphore u
      { k.semaphore u with queue := queue, woken := woken }) (v : SemId) :
    (k'.semaphore v).increments = (k.semaphore v).increments ∧
      (k'.semaphore v).decrements = (k.semaphore v).decrements := by
  by_cases hv : v = u
  · rw [hsem, hv, Function.update_self]
    exact ⟨rfl, rfl⟩
  · exact counters_of_ne hsem hv

private theorem apart_call {k k' : Kernel} {op : Op} (hs : k.SemStep (.call op) k')
    (hop : T.Foreign (.call op)) (hfree : k.waits k.currentThread = none)
    (hhelper : k.currentThread ≠ T.helper) : Apart T k k' := by
  obtain ⟨hping, hpong, -⟩ := hop
  cases hs with
  | quiet _ hsem hwaits => exact .of_same (fun u => by rw [hsem]; exact ⟨rfl, rfl⟩) hwaits
  | enter u _ hsem hwaits =>
    refine .of_waits (fun v _ => by rw [hsem]; exact ⟨rfl, rfl⟩) hwaits ?_ ⟨hping, hpong⟩
      fun h => absurd h hhelper
    rw [hfree]
    exact ⟨by simp, by simp⟩
  | wake u he hsem hwaits =>
    obtain rfl : op = .v u := he.elim Event.call.inj nofun
    exact .of_update hsem (fun h => hping (h ▸ rfl)) (fun h => hpong (h ▸ rfl)) hwaits

private theorem apart_handler {k k' : Kernel} {a : HandlerAction} (hs : k.SemStep (.handler a) k')
    (ha : T.Foreign (.handler a)) : Apart T k k' := by
  obtain ⟨hping, hpong, -⟩ := ha
  cases hs with
  | quiet _ hsem hwaits => exact .of_same (fun u => by rw [hsem]; exact ⟨rfl, rfl⟩) hwaits
  | wake u he hsem hwaits =>
    obtain rfl : a = .v u := he.elim nofun Event.handler.inj
    exact .of_update hsem (fun h => hping (h ▸ rfl)) (fun h => hpong (h ▸ rfl)) hwaits
  | handlerTake u _ hsem hwaits =>
    exact .of_update hsem (fun h => hping (h ▸ rfl)) (fun h => hpong (h ▸ rfl)) hwaits

private theorem apart_finish {k k' : Kernel} (hs : k.SemStep (.call .finish) k') :
    Apart T k k' := by
  cases hs with
  | quiet _ hsem hwaits => exact .of_same (fun u => by rw [hsem]; exact ⟨rfl, rfl⟩) hwaits
  | wake u he _ _ => exact he.elim nofun nofun

/-! ## The rounds -/

variable {k' : Kernel}

theorem Inv.semStep (h : Inv T p n s) {e : Event} (he : s.kernel.enabled e)
    (hk : s.kernel.exec e = some k') :
    (kernelSystem p n).Reachable k' ∧ s.kernel.SemStep e k' := by
  obtain ⟨hinv, hw⟩ := (Kernel.waiting_inductive p n).of_reachable h.kernel
  exact ⟨h.kernel.step (l := e) ⟨he, hk⟩, hinv.semStep hw.created he hk⟩

theorem Inv.started (h : Inv T p n s) {e : Event} (he : s.kernel.enabled e)
    (hcall : ∀ op, e ≠ .call op) : s.code ≠ T.selfTest := by
  intro hcode
  obtain ⟨hcurrent, hempty, -⟩ := h.start hcode
  rw [← hcurrent] at hempty
  cases e with
  | call op => exact hcall op rfl
  | step => exact he.2 hempty
  | handler a =>
    have hi := (Traced.enabled_handler he).2
    rw [hempty] at hi
    cases hi

private theorem waits_of_leave {k : Kernel} {c t : ThreadId} {u : SemId}
    (hwaits : k'.waits = Function.update k.waits c none) (hu : k'.waits t = some u) :
    k.waits t = some u := by
  by_cases ht : t = c
  · rw [hwaits, ht, Function.update_self] at hu
    contradiction
  · rwa [hwaits, Function.update_of_ne ht] at hu

private theorem Inv.take_pong (h : Inv T p n s) (hr : (kernelSystem p n).Reachable k')
    (hin : s.kernel.waits s.kernel.currentThread = some T.pong)
    (hsem : k'.semaphore = Function.update s.kernel.semaphore T.pong
      { s.kernel.semaphore T.pong with
        value := (s.kernel.semaphore T.pong).value - 1,
        woken := (s.kernel.semaphore T.pong).woken.erase s.kernel.currentThread,
        decrements := (s.kernel.semaphore T.pong).decrements + 1 })
    (hwaits : k'.waits = Function.update s.kernel.waits s.kernel.currentThread none)
    (hstart : s.code ≠ T.selfTest) : Inv T p n { s with kernel := k' } := by
  have hcurrent := h.inPong _ hin
  rw [hcurrent] at hin hwaits
  obtain ⟨hinc, hdec⟩ := counters_of_ne hsem T.semaphores
  refine ⟨hr, h.fresh, ?_, ?_, fun t ht => h.inPing t (waits_of_leave hwaits ht),
    fun t ht => h.inPong t (waits_of_leave hwaits ht),
    fun u hu => h.helperWaits u (waits_of_leave hwaits hu), fun hcode => absurd hcode hstart⟩
  · have htest := h.test
    rw [hin, decide_eq_true rfl] at htest
    rw [hinc, hsem, hwaits, Function.update_self, Function.update_self]
    exact htest.take
  · rw [hdec, hsem, hwaits, Function.update_self, Function.update_of_ne T.threads.symm]
    exact h.helper

private theorem Inv.take_ping (h : Inv T p n s) (hr : (kernelSystem p n).Reachable k')
    (hin : s.kernel.waits s.kernel.currentThread = some T.ping)
    (hsem : k'.semaphore = Function.update s.kernel.semaphore T.ping
      { s.kernel.semaphore T.ping with
        value := (s.kernel.semaphore T.ping).value - 1,
        woken := (s.kernel.semaphore T.ping).woken.erase s.kernel.currentThread,
        decrements := (s.kernel.semaphore T.ping).decrements + 1 })
    (hwaits : k'.waits = Function.update s.kernel.waits s.kernel.currentThread none)
    (hstart : s.code ≠ T.selfTest) : Inv T p n { s with kernel := k' } := by
  have hcurrent := h.inPing _ hin
  rw [hcurrent] at hin hwaits
  obtain ⟨hinc, hdec⟩ := counters_of_ne hsem T.semaphores.symm
  refine ⟨hr, h.fresh, ?_, ?_, fun t ht => h.inPing t (waits_of_leave hwaits ht),
    fun t ht => h.inPong t (waits_of_leave hwaits ht),
    fun u hu => h.helperWaits u (waits_of_leave hwaits hu), fun hcode => absurd hcode hstart⟩
  · rw [hdec, hsem, hwaits, Function.update_self, Function.update_of_ne T.threads]
    exact h.test
  · have hhelper := h.helper
    rw [hin, decide_eq_true rfl] at hhelper
    rw [hinc, hsem, hwaits, Function.update_self, Function.update_self]
    exact hhelper.take

private theorem Inv.step_inv (h : Inv T p n s) (he : s.kernel.enabled .step)
    (hk : s.kernel.exec .step = some k') : Inv T p n { s with kernel := k' } := by
  obtain ⟨hr, hs⟩ := h.semStep he hk
  have hstart : s.code = T.selfTest → k'.currentThread = T.main ∧ k'.stack T.main = [] ∧
      k'.status T.helper = .justCreated := fun hcode => absurd hcode (h.started he nofun)
  cases hs with
  | quiet _ hsem hwaits =>
    exact h.apart (.of_same (fun u => by rw [hsem]; exact ⟨rfl, rfl⟩) hwaits) hr hstart
  | sleep u _ _ _ hsem hwaits => exact h.apart (.of_same (counters_of_sleep hsem) hwaits) hr hstart
  | wake u he _ _ => exact he.elim nofun nofun
  | take u hin _ _ hsem hwaits =>
    by_cases hping : u = T.ping
    · exact h.take_ping hr (hping ▸ hin) (hping ▸ hsem) hwaits (h.started he nofun)
    · by_cases hpong : u = T.pong
      · exact h.take_pong hr (hpong ▸ hin) (hpong ▸ hsem) hwaits (h.started he nofun)
      · refine h.apart (.of_waits ?_ hwaits ?_ ⟨by simp, by simp⟩ fun _ => rfl) hr hstart
        · rintro v (rfl | rfl)
          · exact counters_of_ne hsem (Ne.symm hping)
          · exact counters_of_ne hsem (Ne.symm hpong)
        · rw [hin]
          exact ⟨fun h => hping (Option.some.inj h), fun h => hpong (Option.some.inj h)⟩

private theorem counters_of_wake {k : Kernel} {u : SemId}
    (hsem : k'.semaphore = Function.update k.semaphore u (k.semaphore u).v.1) :
    (k'.semaphore u).increments = (k.semaphore u).increments + 1 ∧
      (k'.semaphore u).decrements = (k.semaphore u).decrements := by
  rw [hsem, Function.update_self]
  rcases Semaphore.v_cases (k.semaphore u) with ⟨-, hv⟩ | ⟨t, queue, -, hv⟩ <;>
  · rw [hv]
    exact ⟨rfl, rfl⟩

private theorem waits_caller {k : Kernel} {op : Op} (he : k.enabled (.call op)) :
    k.waits k.currentThread = none := by
  rw [Kernel.waits, (Traced.enabled_call he).2.1]
  rfl

private theorem Inv.test_calls (h : Inv T p n s) {op : Op} (he : s.kernel.enabled (.call op))
    (hcurrent : s.kernel.currentThread = T.main) :
    T.TestAt s.code (s.kernel.semaphore T.ping).increments
      (s.kernel.semaphore T.pong).decrements false := by
  have htest := h.test
  rwa [← hcurrent, waits_caller he, decide_eq_false (by simp)] at htest

private theorem Inv.helper_calls (h : Inv T p n s) {op : Op} (he : s.kernel.enabled (.call op))
    (hcurrent : s.kernel.currentThread = T.helper) :
    T.HelperAt s.helperCode (s.kernel.semaphore T.ping).decrements
      (s.kernel.semaphore T.pong).increments false := by
  have hhelper := h.helper
  rwa [← hcurrent, waits_caller he, decide_eq_false (by simp)] at hhelper

private theorem Inv.call_test (h : Inv T p n s) {op : Op} {rest : List Op}
    (he : s.kernel.enabled (.call op)) (hk : s.kernel.exec (.call op) = some k')
    (hcurrent : s.kernel.currentThread = T.main) (hcode : s.code = op :: rest) :
    Inv T p n { s with kernel := k', code := rest } := by
  obtain ⟨hr, hs⟩ := h.semStep he hk
  have hfree : s.kernel.waits T.main = none := hcurrent ▸ waits_caller he
  have htest := h.test_calls he hcurrent
  rw [hcode] at htest
  have hstart : rest ≠ T.selfTest := by
    have hlen := htest.length_le
    rintro rfl
    simp only [List.length_cons] at hlen
    omega
  rcases htest.next with ⟨rfl, hnext⟩ | ⟨rfl, hnext⟩ | ⟨rfl, hnext⟩
  · cases hs with
    | wake _ he _ _ => exact he.elim nofun nofun
    | quiet _ hsem hwaits =>
      refine ⟨hr, h.fresh, ?_, ?_, ?_, ?_, ?_, fun hcode => absurd hcode hstart⟩
      · rw [hsem, hwaits, hfree]
        exact hnext
      · rw [hsem, hwaits]
        exact h.helper
      · rw [hwaits]
        exact h.inPing
      · rw [hwaits]
        exact h.inPong
      · rw [hwaits]
        exact h.helperWaits
  · cases hs with
    | quiet huses _ _ => cases huses
    | wake u he hsem hwaits =>
      obtain rfl : T.ping = u := he.elim (fun h => Op.v.inj (Event.call.inj h)) nofun
      obtain ⟨hinc, hdec⟩ := counters_of_wake hsem
      obtain ⟨hinc', hdec'⟩ := counters_of_ne hsem T.semaphores.symm
      refine ⟨hr, h.fresh, ?_, ?_, ?_, ?_, ?_, fun hcode => absurd hcode hstart⟩
      · rw [hinc, hdec', hwaits, hfree]
        exact hnext
      · rw [hdec, hinc', hwaits]
        exact h.helper
      · rw [hwaits]
        exact h.inPing
      · rw [hwaits]
        exact h.inPong
      · rw [hwaits]
        exact h.helperWaits
  · cases hs with
    | quiet huses _ _ => cases huses
    | wake u he _ _ => exact he.elim nofun nofun
    | enter u _ hsem hwaits =>
      rw [hcurrent] at hwaits
      refine ⟨hr, h.fresh, ?_, ?_, ?_, ?_, ?_, fun hcode => absurd hcode hstart⟩
      · rw [hsem, hwaits, Function.update_self, decide_eq_true rfl]
        exact hnext
      · rw [hsem, hwaits, Function.update_of_ne T.threads.symm]
        exact h.helper
      · intro t ht
        by_cases hmain : t = T.main
        · rw [hwaits, hmain, Function.update_self] at ht
          exact absurd (Option.some.inj ht).symm T.semaphores
        · rw [hwaits, Function.update_of_ne hmain] at ht
          exact h.inPing t ht
      · intro t ht
        by_cases hmain : t = T.main
        · exact hmain
        · rw [hwaits, Function.update_of_ne hmain] at ht
          exact h.inPong t ht
      · intro u hu
        rw [hwaits, Function.update_of_ne T.threads.symm] at hu
        exact h.helperWaits u hu

private theorem Inv.call_helper (h : Inv T p n s) {op : Op} {rest : List Op}
    (he : s.kernel.enabled (.call op)) (hk : s.kernel.exec (.call op) = some k')
    (hcurrent : s.kernel.currentThread = T.helper) (hcode : s.helperCode = op :: rest) :
    Inv T p n { s with kernel := k', helperCode := rest } := by
  obtain ⟨hr, hs⟩ := h.semStep he hk
  have hfree : s.kernel.waits T.helper = none := hcurrent ▸ waits_caller he
  have hhelper := h.helper_calls he hcurrent
  rw [hcode] at hhelper
  have hstart : s.code ≠ T.selfTest := by
    intro hcode
    exact T.threads ((h.start hcode).1.symm.trans hcurrent)
  rcases hhelper.next with ⟨rfl, hnext⟩ | ⟨rfl, hnext⟩
  · cases hs with
    | quiet huses _ _ => cases huses
    | wake u he _ _ => exact he.elim nofun nofun
    | enter u _ hsem hwaits =>
      rw [hcurrent] at hwaits
      refine ⟨hr, h.fresh, ?_, ?_, ?_, ?_, ?_, fun hcode => absurd hcode hstart⟩
      · rw [hsem, hwaits, Function.update_of_ne T.threads]
        exact h.test
      · rw [hsem, hwaits, Function.update_self, decide_eq_true rfl]
        exact hnext
      · intro t ht
        by_cases hself : t = T.helper
        · exact hself
        · rw [hwaits, Function.update_of_ne hself] at ht
          exact h.inPing t ht
      · intro t ht
        by_cases hself : t = T.helper
        · rw [hwaits, hself, Function.update_self] at ht
          exact absurd (Option.some.inj ht) T.semaphores
        · rw [hwaits, Function.update_of_ne hself] at ht
          exact h.inPong t ht
      · intro u hu
        rw [hwaits, Function.update_self] at hu
        exact (Option.some.inj hu).symm
  · cases hs with
    | quiet huses _ _ => cases huses
    | wake u he hsem hwaits =>
      obtain rfl : T.pong = u := he.elim (fun h => Op.v.inj (Event.call.inj h)) nofun
      obtain ⟨hinc, hdec⟩ := counters_of_wake hsem
      obtain ⟨hinc', hdec'⟩ := counters_of_ne hsem T.semaphores
      refine ⟨hr, h.fresh, ?_, ?_, ?_, ?_, ?_, fun hcode => absurd hcode hstart⟩
      · rw [hinc', hdec, hwaits]
        exact h.test
      · rw [hdec', hinc, hwaits, hfree]
        exact hnext
      · rw [hwaits]
        exact h.inPing
      · rw [hwaits]
        exact h.inPong
      · rw [hwaits]
        exact h.helperWaits

private theorem Inv.call_inv (h : Inv T p n s) {op : Op} {code helperCode : List Op}
    (hcalls : Calls T s op code helperCode) (he : s.kernel.enabled (.call op))
    (hk : s.kernel.exec (.call op) = some k') :
    Inv T p n { kernel := k', code := code, helperCode := helperCode } := by
  obtain ⟨hr, hs⟩ := h.semStep he hk
  have hfree := waits_caller he
  -- the first call is one of `SelfTest`
  have hstart (hmain : s.kernel.currentThread ≠ T.main) : s.code = T.selfTest →
      k'.currentThread = T.main ∧ k'.stack T.main = [] ∧ k'.status T.helper = .justCreated :=
    fun hcode => absurd (h.start hcode).1 hmain
  cases hcalls with
  | test hcurrent hcode => exact h.call_test he hk hcurrent hcode
  | returned hcurrent hcode hop =>
    refine h.apart (apart_call hs hop hfree (hcurrent ▸ T.threads)) hr ?_
    intro hcode'
    rw [hcode] at hcode'
    cases hcode'
  | helper hcurrent hcode => exact h.call_helper he hk hcurrent hcode
  | finish hcurrent _ =>
    exact h.apart (apart_finish hs) hr (hstart (hcurrent ▸ T.threads.symm))
  | other hmain hhelper hop => exact h.apart (apart_call hs hop hfree hhelper) hr (hstart hmain)

theorem inv_inductive (T : SemTest) (p : ThreadId → Int) (n : SemId → Nat) :
    (semTestSystem T p n).Inductive (Inv T p n) where
  init _ h := init_inv h
  step s e s' h hs := by
    cases hs with
    | call hcalls he hk => exact h.call_inv hcalls he hk
    | step he hk => exact h.step_inv he hk
    | handler ha he hk =>
      obtain ⟨hr, hs⟩ := h.semStep he hk
      exact h.apart (apart_handler hs ha) hr fun hcode => absurd hcode (h.started he nofun)

/-! ## The end of the test -/

private theorem Inv.value_eq (h : Inv T p n s) {u : SemId} (hu : n u = 0) :
    (s.kernel.semaphore u).value + (s.kernel.semaphore u).decrements =
      (s.kernel.semaphore u).increments ∧ 0 ≤ (s.kernel.semaphore u).value := by
  have hw := ((Kernel.waiting_inductive p n).of_reachable h.kernel).2
  have hbalance := (hw.inv u).balance
  have hnonneg : 0 ≤ (s.kernel.semaphore u).value := (hw.inv u).nonneg
  simp only [Kernel.semState, hu] at hbalance
  exact ⟨by omega, hnonneg⟩

end SemTestState

namespace SemTest

variable {T : SemTest} {code : List Op} {a b : Nat}

/-- `SelfTest` is at most one call of `V` ahead of the units it has taken. -/
theorem TestAt.rounds {w : Bool} (h : T.TestAt code a b w) : b ≤ a ∧ a ≤ b + 1 ∧ a ≤ 10 := by
  cases h <;> omega

/-- `SelfTestHelper` calls `V` only for a unit it has taken. -/
theorem HelperAt.rounds {w : Bool} (h : T.HelperAt code a b w) : b ≤ a ∧ a ≤ b + 1 ∧ a ≤ 10 := by
  cases h <;> omega

theorem TestAt.returned (h : T.TestAt [] a b false) : a = 10 ∧ b = 10 := by
  generalize hcode : ([] : List Op) = code at h
  generalize hin : false = w at h
  cases h with
  | fork => cases hcode
  | v _ r h =>
    cases r with
    | zero => omega
    | succ r => cases hcode
  | p _ r h => cases hcode
  | inP _ r h => cases hin

private theorem HelperAt.code_eq_nil (h : T.HelperAt code 10 10 false) : code = [] := by
  generalize ha : 10 = a at h
  generalize hin : false = w at h
  cases h with
  | p _ r h =>
    obtain rfl : r = 0 := by omega
    rfl
  | inP _ r h => cases hin

private theorem TestAt.inP_lt (h : T.TestAt code a b true) :
    a = b + 1 ∧ b < 10 ∧ code ≠ T.selfTest := by
  cases h with
  | inP _ r h =>
    refine ⟨rfl, by omega, ?_⟩
    cases r with
    | zero => exact nofun
    | succ r => exact fun hcode => nomatch (List.cons.inj hcode).1

private theorem HelperAt.inP_eq (h : T.HelperAt code a b true) : a = b ∧ b < 10 := by
  cases h with
  | inP _ r h => exact ⟨rfl, by omega⟩

theorem HelperAt.returned (h : T.HelperAt [] a b false) : b = 10 := by
  generalize hcode : ([] : List Op) = code at h
  generalize hin : false = w at h
  cases h with
  | p _ r h =>
    cases r with
    | zero => omega
    | succ r => cases hcode
  | inP _ r h => cases hin
  | v _ r h => cases hcode

end SemTest

namespace SemTestState

variable {T : SemTest} {p : ThreadId → Int} {n : SemId → Nat} {s s' : SemTestState} {k' : Kernel}

/-- Neither thread finishes before its code is done, and `SelfTest` calls no other `P`. -/
structure Alive (T : SemTest) (s : SemTestState) : Prop where
  created : s.kernel.status T.main ≠ .justCreated
  forked : s.code ≠ T.selfTest → s.kernel.status T.helper ≠ .justCreated
  main : s.code ≠ [] → s.kernel.finished T.main = false
  helper : s.helperCode ≠ [] → s.kernel.finished T.helper = false
  waits : s.code ≠ [] → ∀ u, s.kernel.waits T.main = some u → u = T.pong

private theorem Inv.calls_cases (h : Inv T p n s) {op : Op} {code helperCode : List Op}
    (hcalls : Calls T s op code helperCode) (he : s.kernel.enabled (.call op)) :
    (s.kernel.currentThread = T.main → s.code ≠ [] →
      op = .fork T.helper ∨ op = .v T.ping ∨ op = .p T.pong) ∧
    (s.kernel.currentThread = T.helper → s.helperCode ≠ [] → op = .p T.ping ∨ op = .v T.pong) ∧
    (code ≠ [] → s.code ≠ []) ∧ (helperCode ≠ [] → s.helperCode ≠ []) := by
  have hkeep : ∀ {l : List Op}, l ≠ [] → l ≠ [] := id
  cases hcalls with
  | test hcurrent hcode =>
    have htest := h.test_calls he hcurrent
    rw [hcode] at htest
    refine ⟨fun _ _ => ?_, fun hself => absurd (hcurrent.symm.trans hself) T.threads, ?_, hkeep⟩
    · rcases htest.next with ⟨hop, -⟩ | ⟨hop, -⟩ | ⟨hop, -⟩
      · exact .inl hop
      · exact .inr (.inl hop)
      · exact .inr (.inr hop)
    · rw [hcode]
      exact fun _ => List.cons_ne_nil _ _
  | returned hcurrent hcode _ =>
    exact ⟨fun _ hne => absurd hcode hne, fun hself => absurd (hcurrent.symm.trans hself) T.threads,
      hkeep, hkeep⟩
  | helper hcurrent hcode =>
    have hhelper := h.helper_calls he hcurrent
    rw [hcode] at hhelper
    refine ⟨fun hself => absurd (hself.symm.trans hcurrent) T.threads, fun _ _ => ?_, hkeep, ?_⟩
    · rcases hhelper.next with ⟨hop, -⟩ | ⟨hop, -⟩
      · exact .inl hop
      · exact .inr hop
    · rw [hcode]
      exact fun _ => List.cons_ne_nil _ _
  | finish hcurrent hcode =>
    exact ⟨fun hself => absurd (hself.symm.trans hcurrent) T.threads, fun _ hne => absurd hcode hne,
      hkeep, hkeep⟩
  | other hmain hhelper _ =>
    exact ⟨fun hself => absurd hself hmain, fun hself => absurd hself hhelper, hkeep, hkeep⟩

private theorem alive_init (h : (semTestSystem T p n).init s) : Alive T s := by
  obtain ⟨hr, hcurrent, hstack, hping, hpong, hnew, hcode, hhelper⟩ := h
  have hinv := (Kernel.inv_inductive p n).of_reachable hr
  have hempty : s.kernel.stack s.kernel.currentThread = [] := hcurrent ▸ hstack
  have hcode' := hinv.atCode hempty (by simp)
  refine ⟨hcurrent ▸ hinv.created, fun hne => absurd hcode hne, fun _ => ?_, fun _ => ?_, ?_⟩
  · exact hcurrent ▸ hcode'.unfinished
  · exact hinv.books.unfinished (by simp [hnew])
  · intro _ u hu
    rw [Kernel.waits, hstack] at hu
    cases hu

private theorem finished_of_exec {k : Kernel} (hinv : k.Inv) {e : Event} (he : k.enabled e)
    (hk : k.exec e = some k') {t : ThreadId} (hfinished : k.finished t = false)
    (hcall : e = .call .finish → t ≠ k.currentThread) : k'.finished t = false := by
  cases hinv.fate he hk with
  | quiet _ hsame _ _ => rwa [hsame]
  | finish hupdate _ _ _ _ => rwa [hupdate, Function.update_of_ne (hcall rfl)]
  | leave _ hsame _ _ _ _ _ => rwa [hsame]
  | delete _ _ hsame _ _ _ => rwa [hsame]

private theorem waits_of_exec {k : Kernel} {e : Event} (hs : k.SemStep e k') {t : ThreadId}
    {u : SemId} (hu : k'.waits t = some u) :
    k.waits t = some u ∨ (t = k.currentThread ∧ e = .call (.p u)) := by
  cases hs with
  | quiet _ _ hwaits => exact .inl (hwaits ▸ hu)
  | enter v _ _ hwaits =>
    by_cases ht : t = k.currentThread
    · rw [hwaits, ht, Function.update_self] at hu
      exact .inr ⟨ht, Option.some.inj hu ▸ rfl⟩
    · rw [hwaits, Function.update_of_ne ht] at hu
      exact .inl hu
  | sleep _ _ _ _ _ hwaits => exact .inl (hwaits ▸ hu)
  | take _ _ _ _ _ hwaits => exact .inl (waits_of_leave hwaits hu)
  | wake _ _ _ hwaits => exact .inl (hwaits ▸ hu)
  | handlerTake _ _ _ hwaits => exact .inl (hwaits ▸ hu)

theorem Alive.exec (h : Alive T s) (hinv : Inv T p n s) {e : Event} (he : s.kernel.enabled e)
    (hk : s.kernel.exec e = some k') (hcall : ∀ op, e ≠ .call op) :
    Alive T { s with kernel := k' } := by
  have hkernel := (Kernel.inv_inductive p n).of_reachable hinv.kernel
  have hs := (hinv.semStep he hk).2
  refine ⟨fun hnew => h.created (Kernel.exec_created hk hnew), ?_, ?_, ?_, ?_⟩
  · exact fun hcode hnew => h.forked hcode (Kernel.exec_created hk hnew)
  · exact fun hcode => finished_of_exec hkernel he hk (h.main hcode) fun he => absurd he (hcall _)
  · exact fun hcode => finished_of_exec hkernel he hk (h.helper hcode) fun he => absurd he (hcall _)
  · intro hcode u hu
    rcases waits_of_exec hs hu with hu | ⟨-, hp⟩
    · exact h.waits hcode u hu
    · exact absurd hp (hcall _)

private theorem fork_ready {k : Kernel} {t : ThreadId} (hk : k.exec (.call (.fork t)) = some k') :
    k'.status t = .ready := by
  simp only [Kernel.exec, Kernel.call, Option.bind_eq_bind] at hk
  obtain ⟨k₁, hready, hk⟩ := Option.bind_eq_some_iff.mp hk
  obtain rfl := Option.some.inj hk
  show k₁.status t = .ready
  rw [(Kernel.readyToRun_some hready).2.2.2.2.2, Function.update_self]

private theorem Inv.first_call (h : Inv T p n s) {op : Op} {code helperCode : List Op}
    (hcalls : Calls T s op code helperCode) (hcode : s.code = T.selfTest) :
    op = .fork T.helper := by
  obtain ⟨hcurrent, -⟩ := h.start hcode
  cases hcalls with
  | test _ hnext => exact (List.cons.inj (hcode.symm.trans hnext)).1.symm
  | returned _ hnil _ => cases hcode.symm.trans hnil
  | helper hself _ => exact absurd (hcurrent.symm.trans hself) T.threads
  | finish hself _ => exact absurd (hcurrent.symm.trans hself) T.threads
  | other hmain _ _ => exact absurd hcurrent hmain

theorem Alive.call (h : Alive T s) (hinv : Inv T p n s) {op : Op} {code helperCode : List Op}
    (hcalls : Calls T s op code helperCode) (he : s.kernel.enabled (.call op))
    (hk : s.kernel.exec (.call op) = some k') :
    Alive T { kernel := k', code := code, helperCode := helperCode } := by
  have hkernel := (Kernel.inv_inductive p n).of_reachable hinv.kernel
  have hs := (hinv.semStep he hk).2
  obtain ⟨hmain, hhelper, hcode, hhelperCode⟩ := hinv.calls_cases hcalls he
  refine ⟨fun hnew => h.created (Kernel.exec_created hk hnew), ?_, ?_, ?_, ?_⟩
  · intro _ hnew
    by_cases hfirst : s.code = T.selfTest
    · obtain rfl := hinv.first_call hcalls hfirst
      cases (fork_ready hk).symm.trans hnew
    · exact h.forked hfirst (Kernel.exec_created hk hnew)
  · intro hne
    refine finished_of_exec hkernel he hk (h.main (hcode hne)) fun hfinish heq => ?_
    rcases hmain heq.symm (hcode hne) with rfl | rfl | rfl <;> cases hfinish
  · intro hne
    refine finished_of_exec hkernel he hk (h.helper (hhelperCode hne)) fun hfinish heq => ?_
    rcases hhelper heq.symm (hhelperCode hne) with rfl | rfl <;> cases hfinish
  · intro hne u hu
    rcases waits_of_exec hs hu with hu | ⟨hcurrent, hp⟩
    · exact h.waits (hcode hne) u hu
    · obtain rfl := Event.call.inj hp
      rcases hmain hcurrent.symm (hcode hne) with heq | heq | heq
      · cases heq
      · cases heq
      · exact Op.p.inj heq

theorem alive_inductive (T : SemTest) (p : ThreadId → Int) (n : SemId → Nat) :
    (semTestSystem T p n).Inductive fun s => Inv T p n s ∧ Alive T s := by
  apply (inv_inductive T p n).relative
  · exact fun _ h => alive_init h
  · intro s e s' hinv h hs
    cases hs with
    | call hcalls he hk => exact h.call hinv hcalls he hk
    | step he hk => exact h.exec hinv he hk nofun
    | handler _ he hk => exact h.exec hinv he hk nofun

/-- `SelfTest` is done and out of its last `P`. -/
def Over (T : SemTest) (s : SemTestState) : Prop :=
  s.code = [] ∧ s.kernel.waits T.main ≠ some T.pong

/-- The rounds alternate: a unit is released before it is taken, `SelfTestHelper` answers only what
it has got, and `SelfTest` waits for the answer. -/
private theorem Inv.alternate (h : Inv T p n s) :
    (s.kernel.semaphore T.pong).decrements ≤ (s.kernel.semaphore T.pong).increments ∧
    (s.kernel.semaphore T.pong).increments ≤ (s.kernel.semaphore T.ping).decrements ∧
    (s.kernel.semaphore T.ping).decrements ≤ (s.kernel.semaphore T.ping).increments ∧
    (s.kernel.semaphore T.ping).increments ≤ (s.kernel.semaphore T.pong).decrements + 1 ∧
    (s.kernel.semaphore T.ping).increments ≤ 10 := by
  obtain ⟨hping, hping₀⟩ := h.value_eq h.fresh.1
  obtain ⟨hpong, hpong₀⟩ := h.value_eq h.fresh.2
  obtain ⟨-, htest, hten⟩ := h.test.rounds
  obtain ⟨hhelper, -⟩ := h.helper.rounds
  exact ⟨by omega, hhelper, by omega, htest, hten⟩

private theorem Inv.over (h : Inv T p n s) (hover : Over T s) :
    s.helperCode = [] ∧ s.kernel.waits T.helper = none ∧
      (s.kernel.semaphore T.ping).decrements = 10 ∧ (s.kernel.semaphore T.pong).decrements = 10 := by
  have htest := h.test
  rw [hover.1, decide_eq_false hover.2] at htest
  obtain ⟨ha, hb⟩ := htest.returned
  obtain ⟨h₁, h₂, h₃, -⟩ := h.alternate
  have hdec : (s.kernel.semaphore T.ping).decrements = 10 := by omega
  have hinc : (s.kernel.semaphore T.pong).increments = 10 := by omega
  have hhelper := h.helper
  rw [hdec, hinc] at hhelper
  have hout : s.kernel.waits T.helper ≠ some T.ping := by
    intro hin
    rw [hin, decide_eq_true rfl] at hhelper
    exact absurd hhelper.inP_eq.2 (by omega)
  rw [decide_eq_false hout] at hhelper
  refine ⟨hhelper.code_eq_nil, ?_, hdec, hb⟩
  cases hw : s.kernel.waits T.helper with
  | none => rfl
  | some u => exact absurd (h.helperWaits u hw ▸ hw) hout

private theorem Inv.deserted (h : Inv T p n s) (hover : Over T s) {u : SemId}
    (hu : u = T.ping ∨ u = T.pong) :
    (s.kernel.semaphore u).value = 0 ∧
      ∀ t, s.kernel.waits t ≠ some u ∧ t ∉ (s.kernel.semaphore u).queue := by
  have hw := ((Kernel.waiting_inductive p n).of_reachable h.kernel).2
  obtain ⟨-, hfree, hping, hpong⟩ := h.over hover
  obtain ⟨h₁, h₂, h₃, h₄, h₅⟩ := h.alternate
  constructor
  · rcases hu with rfl | rfl
    · have hunits := (h.value_eq h.fresh.1).1
      omega
    · have hunits := (h.value_eq h.fresh.2).1
      omega
  · intro t
    have hout : s.kernel.waits t ≠ some u := by
      intro ht
      rcases hu with rfl | rfl
      · obtain rfl := h.inPing t ht
        rw [hfree] at ht
        cases ht
      · exact hover.2 (h.inPong t ht ▸ ht)
    exact ⟨hout, fun hqueue => hout (hw.inside u t (.inl hqueue))⟩

private theorem Inv.over_of_halted (h : Inv T p n s) (hlive : Alive T s)
    (hhalted : s.kernel.halted = true) : Over T s := by
  obtain ⟨hkernel, hw⟩ := (Kernel.waiting_inductive p n).of_reachable h.kernel
  by_contra hgoing
  have hunfinished : s.kernel.finished T.main = false := by
    by_cases hcode : s.code = []
    · refine Bool.eq_false_iff.mpr fun hgone => hgoing ⟨hcode, ?_⟩
      rw [hw.gone _ hgone]
      simp
    · exact hlive.main hcode
  -- the main thread is in `P` of `pong`, which has no unit
  obtain ⟨u, hin, -, hvalue⟩ := Kernel.deadlock h.kernel hhalted hlive.created hunfinished
  have hpong : u = T.pong := by
    by_cases hcode : s.code = []
    · by_contra hne
      exact hgoing ⟨hcode, fun hp => hne (Option.some.inj (hin.symm.trans hp))⟩
    · exact hlive.waits hcode u hin
  rw [hpong] at hin hvalue
  have htest := h.test
  rw [hin, decide_eq_true rfl] at htest
  obtain ⟨hahead, hlt, hbegun⟩ := htest.inP_lt
  obtain ⟨hunits, -⟩ := h.value_eq h.fresh.2
  have hcreated := hlive.forked hbegun
  have hhelper := h.helper
  cases hfinished : s.kernel.finished T.helper with
  | true =>
    -- the helper has answered every round
    have hcode : s.helperCode = [] := by
      by_contra hne
      rw [hlive.helper hne] at hfinished
      contradiction
    rw [hcode, hw.gone _ hfinished, decide_eq_false (by simp)] at hhelper
    have hanswers := hhelper.returned
    omega
  | false =>
    -- the helper is in `P` of `ping`, where the unit of this round is
    obtain ⟨v, hin', -, hvalue'⟩ := Kernel.deadlock h.kernel hhalted hcreated hfinished
    obtain rfl : v = T.ping := h.helperWaits v hin'
    rw [hin', decide_eq_true rfl] at hhelper
    obtain ⟨hanswered, -⟩ := hhelper.inP_eq
    obtain ⟨hunits', -⟩ := h.value_eq h.fresh.1
    omega

private theorem enabled_of_empty {k : Kernel} {op : Op} (hlive : k.halted = false)
    (hempty : k.stack k.currentThread = []) (hfork : ∀ t, op = .fork t → k.status t = .justCreated) :
    k.enabled (.call op) := by
  cases op with
  | fork t => exact ⟨hlive, hempty, hfork t rfl⟩
  | _ => exact ⟨hlive, hempty⟩

private theorem foreign_yield : T.Foreign (.call .yield) := ⟨nofun, nofun, nofun⟩

private theorem Inv.exists_call (h : Inv T p n s) (hlive : s.kernel.halted = false)
    (hempty : s.kernel.stack s.kernel.currentThread = []) :
    ∃ op code helperCode, Calls T s op code helperCode ∧ s.kernel.enabled (.call op) := by
  by_cases hmain : s.kernel.currentThread = T.main
  · cases hcode : s.code with
    | nil => exact ⟨_, _, _, .returned hmain hcode foreign_yield, hlive, hempty⟩
    | cons op rest =>
      refine ⟨_, _, _, .test hmain hcode, enabled_of_empty hlive hempty ?_⟩
      rintro t rfl
      -- `Fork` is the first call
      have htest := h.test
      have hout : s.kernel.waits T.main = none := by
        rw [← hmain, Kernel.waits, hempty]
        rfl
      rw [hout, decide_eq_false (by simp), hcode] at htest
      rcases htest.next with ⟨hop, -⟩ | ⟨hop, -⟩ | ⟨hop, -⟩
      · have hfirst := htest.eq_selfTest
        rw [← hcode] at hfirst
        obtain rfl := Op.fork.inj hop
        exact (h.start hfirst).2.2
      · cases hop
      · cases hop
  · by_cases hhelper : s.kernel.currentThread = T.helper
    · cases hcode : s.helperCode with
      | nil => exact ⟨_, _, _, .finish hhelper hcode, hlive, hempty⟩
      | cons op rest =>
        refine ⟨_, _, _, .helper hhelper hcode, enabled_of_empty hlive hempty ?_⟩
        rintro t rfl
        have hcalls := h.helper
        have hout : s.kernel.waits T.helper = none := by
          rw [← hhelper, Kernel.waits, hempty]
          rfl
        rw [hout, decide_eq_false (by simp), hcode] at hcalls
        rcases hcalls.next with ⟨hop, -⟩ | ⟨hop, -⟩ <;> cases hop
    · exact ⟨_, _, _, .other hmain hhelper foreign_yield, hlive, hempty⟩

theorem Inv.progress (h : Inv T p n s) (hlive : s.kernel.halted = false) :
    ∃ e s', (semTestSystem T p n).step s e s' := by
  have hkernel := (Kernel.inv_inductive p n).of_reachable h.kernel
  by_cases hempty : s.kernel.stack s.kernel.currentThread = []
  · obtain ⟨op, code, helperCode, hcalls, he⟩ := h.exists_call hlive hempty
    obtain ⟨k, hk, -⟩ := hkernel.exec he
    exact ⟨_, _, .call hcalls he hk⟩
  · have he : s.kernel.enabled .step := ⟨hlive, hempty⟩
    obtain ⟨k, hk, -⟩ := hkernel.exec he
    exact ⟨_, _, .step he hk⟩

end SemTestState

/-- `Semaphore::SelfTest` on the whole kernel. The rounds alternate: each unit of one semaphore is
taken before the other one is released again. Once `SelfTest` is past its last `P` the helper has
made its last call and nobody is in either semaphore, so they can be deleted. The run goes on until
the machine halts, and it does not halt before the test is over and the helper has finished. -/
theorem semaphore_selfTest (T : SemTest) (p : ThreadId → Int) (n : SemId → Nat) {s : SemTestState}
    (hr : (semTestSystem T p n).Reachable s) :
    ((s.kernel.semaphore T.pong).decrements ≤ (s.kernel.semaphore T.pong).increments ∧
      (s.kernel.semaphore T.pong).increments ≤ (s.kernel.semaphore T.ping).decrements ∧
      (s.kernel.semaphore T.ping).decrements ≤ (s.kernel.semaphore T.ping).increments ∧
      (s.kernel.semaphore T.ping).increments ≤ (s.kernel.semaphore T.pong).decrements + 1 ∧
      (s.kernel.semaphore T.ping).increments ≤ 10) ∧
    (s.code = [] → s.kernel.waits T.main ≠ some T.pong →
      (s.kernel.semaphore T.pong).decrements = 10 ∧ s.helperCode = [] ∧
      ∀ u, u = T.ping ∨ u = T.pong → (s.kernel.semaphore u).value = 0 ∧
        ∀ t, s.kernel.waits t ≠ some u ∧ t ∉ (s.kernel.semaphore u).queue) ∧
    (s.kernel.halted = true → s.code = [] ∧ s.kernel.waits T.main ≠ some T.pong ∧
      s.kernel.finished T.helper = true) ∧
    (s.kernel.halted = false → ∃ e s', (semTestSystem T p n).step s e s') := by
  obtain ⟨h, hlive⟩ := (SemTestState.alive_inductive T p n).of_reachable hr
  refine ⟨h.alternate, ?_, ?_, h.progress⟩
  · intro hcode hout
    obtain ⟨hhelper, hfree, hping, hpong⟩ := h.over ⟨hcode, hout⟩
    exact ⟨hpong, hhelper, fun u hu => h.deserted ⟨hcode, hout⟩ hu⟩
  · intro hhalted
    have hover := h.over_of_halted hlive hhalted
    refine ⟨hover.1, hover.2, ?_⟩
    by_contra hfinished
    have hcreated := hlive.forked (by rw [hover.1]; exact nofun)
    obtain ⟨u, hin, -⟩ := Kernel.deadlock h.kernel hhalted hcreated (Bool.eq_false_iff.mpr hfinished)
    rw [(h.over hover).2.1] at hin
    cases hin

namespace SemTestState

def advance (T : SemTest) (s : SemTestState) : Option SemTestState :=
  match s.kernel.stack s.kernel.currentThread with
  | _ :: _ => (s.kernel.next .step).map fun k => { s with kernel := k }
  | [] =>
    if s.kernel.currentThread = T.main then
      match s.code with
      | [] => none
      | op :: code => (s.kernel.next (.call op)).map fun k => { s with kernel := k, code := code }
    else if s.kernel.currentThread = T.helper then
      match s.helperCode with
      | [] => (s.kernel.next (.call .finish)).map fun k => { s with kernel := k }
      | op :: code =>
        (s.kernel.next (.call op)).map fun k => { s with kernel := k, helperCode := code }
    else none

variable {T : SemTest} {p : ThreadId → Int} {n : SemId → Nat} {s s' : SemTestState}

private theorem advance_step (h : s.advance T = some s') :
    ∃ e, (semTestSystem T p n).step s e s' := by
  unfold advance at h
  split at h
  next =>
    obtain ⟨k, hk, rfl⟩ := Option.map_eq_some_iff.mp h
    obtain ⟨he, hk⟩ := Kernel.next_cases hk
    exact ⟨_, .step he hk⟩
  next =>
    split at h
    next hmain =>
      split at h
      next => cases h
      next hcode =>
        obtain ⟨k, hk, rfl⟩ := Option.map_eq_some_iff.mp h
        obtain ⟨he, hk⟩ := Kernel.next_cases hk
        exact ⟨_, .call (.test hmain hcode) he hk⟩
    next =>
      split at h
      next hhelper =>
        split at h
        next hcode =>
          obtain ⟨k, hk, rfl⟩ := Option.map_eq_some_iff.mp h
          obtain ⟨he, hk⟩ := Kernel.next_cases hk
          exact ⟨_, .call (.finish hhelper hcode) he hk⟩
        next hcode =>
          obtain ⟨k, hk, rfl⟩ := Option.map_eq_some_iff.mp h
          obtain ⟨he, hk⟩ := Kernel.next_cases hk
          exact ⟨_, .call (.helper hhelper hcode) he hk⟩
      next => cases h

/-- `m` events of the two threads. -/
def advances (T : SemTest) : Nat → SemTestState → Option SemTestState
  | 0, s => some s
  | m + 1, s => (s.advance T).bind (advances T m)

private theorem advances_reachable {m : Nat} (hr : (semTestSystem T p n).Reachable s)
    (h : s.advances T m = some s') : (semTestSystem T p n).Reachable s' := by
  induction m generalizing s with
  | zero =>
    obtain rfl := Option.some.inj h
    exact hr
  | succ m ih =>
    obtain ⟨s₁, hs, h⟩ := Option.bind_eq_some_iff.mp h
    obtain ⟨e, hstep⟩ := advance_step (p := p) (n := n) hs
    exact ih (hr.step hstep) h

end SemTestState

private def pingPong : SemTest := ⟨0, 1, 0, 1, by decide, by decide⟩

private def pingPongStart : SemTestState :=
  { kernel := .new (fun _ => 1) fun _ => 0, code := pingPong.selfTest,
    helperCode := pingPong.selfTestHelper }

private def pingPongEnd : SemTestState :=
  (pingPongStart.advances pingPong 205).getD pingPongStart

theorem semaphore_selfTest_whole :
    ∃ s, (semTestSystem pingPong (fun _ => 1) fun _ => 0).Reachable s ∧ s.code = [] ∧
      (s.kernel.semaphore pingPong.pong).decrements = 10 ∧
      (s.kernel.semaphore pingPong.ping).value = 0 := by
  have hinit : (semTestSystem pingPong (fun _ => 1) fun _ => 0).init pingPongStart :=
    ⟨.init rfl, rfl, rfl, ⟨rfl, fun _ => nofun⟩, ⟨rfl, fun _ => nofun⟩, rfl, rfl, rfl⟩
  have hrun : (pingPongStart.advances pingPong 205).isSome := by decide +kernel
  have hend : pingPongStart.advances pingPong 205 = some pingPongEnd := by
    rw [pingPongEnd, Option.getD_of_ne_none (Option.isSome_iff_ne_none.mp hrun)]
  have hr : (semTestSystem pingPong (fun _ => 1) fun _ => 0).Reachable pingPongEnd :=
    SemTestState.advances_reachable (.init hinit) hend
  have hcode : pingPongEnd.code.isEmpty = true := by decide +kernel
  have hout : pingPongEnd.kernel.waits pingPong.main ≠ some pingPong.pong := by decide +kernel
  obtain ⟨hpong, -, hunits⟩ :=
    (semaphore_selfTest pingPong _ _ hr).2.1 (List.isEmpty_iff.mp hcode) hout
  exact ⟨_, hr, List.isEmpty_iff.mp hcode, hpong, (hunits _ (.inl rfl)).1⟩

end Nachos

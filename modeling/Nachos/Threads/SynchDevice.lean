import Nachos.Threads.Lock

/-!
# Synchronous devices

A device that takes one request at a time and interrupts when it is done, behind a lock and a
semaphore that starts at 0. A call acquires the lock, hands its request to the device, waits in
`P` for the interrupt, whose handler calls `V`, and releases the lock. The device does the work
when it is given the request and schedules its interrupt for later; interrupts are numbered like
the requests they are for.
-/

namespace Nachos

open Framework

/-- What a request does to the contents of the device; `none` is a failed ASSERT about the
request itself. -/
structure Device (σ ι β : Type) where
  request : σ → ι → Option (σ × β)

def Device.run {σ ι β : Type} (D : Device σ ι β) (c : σ) : List ι → Option (σ × List β)
  | [] => some (c, [])
  | r :: rs => do
    let (c₁, b) ← D.request c r
    let (c₂, bs) ← D.run c₁ rs
    some (c₂, b :: bs)

/-- Where a thread stands in a call of the wrapper. `k` is the number of its request and `b` what
the device gave for it. -/
inductive DevicePc (ι β : Type)
  | idle
  /-- `lock->Acquire()` is running, or has returned and the request is next -/
  | acquire (r : ι)
  /-- about to call or inside `semaphore->P()` -/
  | wait (r : ι) (k : Nat) (b : β)
  /-- `lock->Release()` is running -/
  | release (r : ι) (k : Nat) (b : β)

namespace DevicePc

variable {ι β : Type}

def waiting : DevicePc ι β → Bool
  | .wait _ _ _ => true
  | _ => false

def result : DevicePc ι β → Option (ι × Nat × β)
  | .wait r k b | .release r k b => some (r, k, b)
  | _ => none

/-- The steps in the code of the lock that a thread takes at this point. -/
def allows : DevicePc ι β → LockPc → LockLabel → Bool
  | .acquire _, .outside, .acquire _ => true
  | .acquire _, _, .retest _ | .acquire _, _, .assign _ => true
  | .release _ _ _, _, .release _ | .release _ _ _, _, .v _ => true
  | _, _, _ => false

def afterLock : DevicePc ι β → LockLabel → DevicePc ι β
  | .release _ _ _, .v _ => .idle
  | pc, _ => pc

def lockOk : DevicePc ι β → LockPc → Prop
  | .idle, pc => pc = .outside
  | .acquire _, pc => pc = .outside ∨ pc = .inP false ∨ pc = .gotP ∨ pc = .holding
  | .wait _ _ _, pc => pc = .holding
  | .release _ _ _, pc => pc = .holding ∨ pc = .releasing

end DevicePc

/-- The wrapper and its device. `pending` are the requests whose interrupt is scheduled. From
`acquired` on the fields record the history: the calls in the order in which they got the lock,
the requests given to the device with their results, those whose interrupt has come, the calls
that have returned, and whether the device was given a request while it was active. -/
structure SynchDevice (σ ι β : Type) where
  lock : LockState
  semaphore : SemState
  contents : σ
  active : Bool
  pending : List Nat
  pc : ThreadId → DevicePc ι β
  aborted : Bool
  acquired : List (ThreadId × ι)
  issued : List ((ThreadId × ι) × β)
  completed : List Nat
  returned : List ((ThreadId × ι) × Nat × β)
  clash : Bool

inductive DeviceLabel (ι : Type)
  | call (t : ThreadId) (r : ι)
  | lock (l : LockLabel)
  | request (t : ThreadId)
  | p (t : ThreadId)
  | interrupt (k : Nat)

namespace SynchDevice

variable {σ ι β : Type}

def new (c : σ) : SynchDevice σ ι β :=
  { lock := .new, semaphore := .new 0, contents := c, active := false, pending := [],
    pc := fun _ => .idle, aborted := false, acquired := [], issued := [], completed := [],
    returned := [], clash := false }

def entering (s : SynchDevice σ ι β) (lock : LockState) (t : ThreadId) :
    List (ThreadId × ι) :=
  match s.pc t with
  | .acquire r =>
    if (s.lock.pc t).inside = false ∧ (lock.pc t).inside = true then [(t, r)] else []
  | _ => []

def returning (s : SynchDevice σ ι β) : LockLabel → List ((ThreadId × ι) × Nat × β)
  | .v t => match s.pc t with
    | .release r k b => [((t, r), k, b)]
    | _ => []
  | _ => []

/-- The next step of a thread or the device; `none` when there is no such step. -/
def step (D : Device σ ι β) (s : SynchDevice σ ι β) : DeviceLabel ι → Option (SynchDevice σ ι β)
  | .call t r =>
    match s.pc t with
    | .idle => some { s with pc := Function.update s.pc t (.acquire r) }
    | _ => none
  | .lock l =>
    let t := l.thread
    if (s.pc t).allows (s.lock.pc t) l then do
      let lock ← lockStep s.lock l
      some { s with lock := lock, pc := Function.update s.pc t ((s.pc t).afterLock l),
                    aborted := lock.aborted, acquired := s.acquired ++ s.entering lock t,
                    returned := s.returned ++ s.returning l }
    else none
  | .request t =>
    match s.pc t, s.lock.pc t with
    | .acquire r, .holding =>
      -- ASSERT(!active)
      if s.active then some { s with aborted := true, clash := true }
      else match D.request s.contents r with
        | none => some { s with aborted := true }
        | some (c, b) =>
          some { s with contents := c, active := true, pending := s.pending ++ [s.issued.length],
                        pc := Function.update s.pc t (.wait r s.issued.length b),
                        issued := s.issued ++ [((t, r), b)] }
    | _, _ => none
  | .p t =>
    match s.pc t with
    | .wait r k b =>
      if s.semaphore.asleep t then none
      else match s.semaphore.p t with
        | none => some { s with aborted := true }
        | some (sem, true) =>
          some { s with semaphore := sem, pc := Function.update s.pc t (.release r k b) }
        | some (sem, false) => some { s with semaphore := sem }
    | _ => none
  | .interrupt k =>
    if k ∈ s.pending then
      some { s with pending := s.pending.erase k, active := false, semaphore := s.semaphore.v,
                    completed := s.completed ++ [k] }
    else none

end SynchDevice

def SynchDevice.next {σ ι β : Type} (D : Device σ ι β) (s : SynchDevice σ ι β)
    (l : DeviceLabel ι) : Option (SynchDevice σ ι β) :=
  if s.aborted = false then s.step D l else none

/-- All interleavings of calls by any threads with the interrupts of the device. -/
def deviceSystem {σ ι β : Type} (D : Device σ ι β) (c : σ) :
    System (SynchDevice σ ι β) (DeviceLabel ι) where
  init s := s = .new c
  step s l s' := s.aborted = false ∧ s.step D l = some s'

variable {σ ι β : Type}

theorem SynchDevice.next_step {D : Device σ ι β} {c : σ} {s s' : SynchDevice σ ι β}
    {l : DeviceLabel ι} (h : s.next D l = some s') : (deviceSystem D c).step s l s' := by
  unfold next at h
  split at h
  next ha => exact ⟨ha, h⟩
  next => contradiction

/-! ## The invariant -/

private theorem Device.run_snoc (D : Device σ ι β) {c c₁ c₂ : σ} {rs : List ι} {bs : List β} {r : ι}
    {b : β} (hrun : D.run c rs = some (c₁, bs)) (hreq : D.request c₁ r = some (c₂, b)) :
    D.run c (rs ++ [r]) = some (c₂, bs ++ [b]) := by
  induction rs generalizing c bs with
  | nil =>
    obtain ⟨rfl, rfl⟩ := Prod.mk.inj (Option.some.inj hrun)
    simp only [List.nil_append, run, hreq, Option.bind_eq_bind, Option.bind_some]
  | cons r' rs ih =>
    simp only [run, Option.bind_eq_bind] at hrun
    obtain ⟨⟨c', b'⟩, hreq', hrun⟩ := Option.bind_eq_some_iff.mp hrun
    obtain ⟨⟨c'', bs'⟩, hrun', hrun⟩ := Option.bind_eq_some_iff.mp hrun
    obtain ⟨rfl, rfl⟩ := Prod.mk.inj (Option.some.inj hrun)
    simp only [List.cons_append, run, hreq', ih hrun', Option.bind_eq_bind, Option.bind_some]

private theorem Device.run_getElem (D : Device σ ι β) {c c' : σ} {rs : List ι} {bs : List β}
    (hrun : D.run c rs = some (c', bs)) {k : Nat} {r : ι} {b : β} (hr : rs[k]? = some r)
    (hb : bs[k]? = some b) :
    ∃ c₁ c₂ bs₁, D.run c (rs.take k) = some (c₁, bs₁) ∧ D.request c₁ r = some (c₂, b) := by
  induction rs generalizing c bs k with
  | nil => simp at hr
  | cons r' rs ih =>
    simp only [run, Option.bind_eq_bind] at hrun
    obtain ⟨⟨c₁, b'⟩, hreq', hrun⟩ := Option.bind_eq_some_iff.mp hrun
    obtain ⟨⟨c'', bs'⟩, hrun', hrun⟩ := Option.bind_eq_some_iff.mp hrun
    obtain ⟨rfl, rfl⟩ := Prod.mk.inj (Option.some.inj hrun)
    cases k with
    | zero =>
      obtain rfl : r' = r := by simpa using hr
      obtain rfl : b' = b := by simpa using hb
      exact ⟨c, c₁, [], rfl, hreq'⟩
    | succ k =>
      obtain ⟨c₂, c₃, bs₁, htake, hreq⟩ := ih hrun' (by simpa using hr) (by simpa using hb)
      refine ⟨c₂, c₃, b' :: bs₁, ?_, hreq⟩
      simp only [List.take_succ_cons, run, hreq', htake, Option.bind_eq_bind, Option.bind_some]

namespace SynchDevice

variable {D : Device σ ι β} {c₀ : σ} {s s' : SynchDevice σ ι β}

/-- The three situations: no call has a request at the device, the request of one call is in
progress, or its interrupt has come and the call has not yet seen it. -/
inductive Turn (s : SynchDevice σ ι β) : Prop
  | quiet (hpc : ∀ t, (s.pc t).waiting = false) (hactive : s.active = false)
      (hpending : s.pending = []) (hvalue : s.semaphore.sem.value = 0)
  | working (t : ThreadId) (hpc : (s.pc t).waiting = true) (hactive : s.active = true)
      (hpending : s.pending = [s.issued.length - 1]) (hvalue : s.semaphore.sem.value = 0)
  | done (t : ThreadId) (hpc : (s.pc t).waiting = true) (hactive : s.active = false)
      (hpending : s.pending = []) (hvalue : s.semaphore.sem.value = 1)

/-- The requests were issued in the order in which the lock was acquired; at most one call has
the lock and has not issued its request yet. -/
inductive Order (s : SynchDevice σ ι β) : Prop
  | even (hpc : ∀ t r, s.pc t = .acquire r → (s.lock.pc t).inside = false)
      (hacquired : s.acquired = s.issued.map Prod.fst)
  | ahead (t : ThreadId) (r : ι) (hpc : s.pc t = .acquire r) (hin : (s.lock.pc t).inside = true)
      (hacquired : s.acquired = s.issued.map Prod.fst ++ [(t, r)])

structure Inv (D : Device σ ι β) (c₀ : σ) (s : SynchDevice σ ι β) : Prop where
  lock : s.lock.Inv
  sem : SemState.Inv 0 s.semaphore
  clash : s.clash = false
  place : ∀ t, (s.pc t).lockOk (s.lock.pc t)
  turn : s.Turn
  order : s.Order
  run : D.run c₀ (s.issued.map fun r => r.1.2) = some (s.contents, s.issued.map Prod.snd)
  last : ∀ t r k b, (s.pc t).result = some (r, k, b) →
    k + 1 = s.issued.length ∧ s.issued[k]? = some ((t, r), b)
  passed : ∀ t r k b, s.pc t = .release r k b → k ∈ s.completed
  completed : ∀ k, k ∈ s.completed ↔ k < s.issued.length ∧ k ∉ s.pending
  returned : ∀ x ∈ s.returned, x.2.1 ∈ s.completed ∧ s.issued[x.2.1]? = some (x.1, x.2.2)

theorem Inv.init (D : Device σ ι β) (c₀ : σ) : Inv D c₀ (.new c₀) where
  lock := LockState.Inv.init
  sem := SemState.Inv.init 0
  clash := rfl
  place _ := rfl
  turn := .quiet (fun _ => rfl) rfl rfl rfl
  order := by
    refine .even ?_ rfl
    intro t r h
    contradiction
  run := rfl
  last t r k b h := by contradiction
  passed t r k b h := by contradiction
  completed k := by simp [new]
  returned r h := by contradiction

theorem Inv.inside_of_result (h : s.Inv D c₀) {t : ThreadId} {x : ι × Nat × β}
    (ht : (s.pc t).result = some x) : (s.lock.pc t).inside = true := by
  have hp := h.place t
  cases hpc : s.pc t with
  | idle => simp [hpc, DevicePc.result] at ht
  | acquire r => simp [hpc, DevicePc.result] at ht
  | wait r k b =>
    rw [hpc] at hp
    rw [show s.lock.pc t = .holding from hp]
    rfl
  | release r k b =>
    rw [hpc] at hp
    rcases hp with hp | hp
    · rw [hp]
      rfl
    · rw [hp]
      rfl

theorem result_of_waiting {t : ThreadId} (ht : (s.pc t).waiting = true) :
    ∃ r k b, s.pc t = .wait r k b := by
  cases hpc : s.pc t with
  | wait r k b => exact ⟨r, k, b, rfl⟩
  | idle => simp [hpc, DevicePc.waiting] at ht
  | acquire r => simp [hpc, DevicePc.waiting] at ht
  | release r k b => simp [hpc, DevicePc.waiting] at ht

theorem Inv.quiet (h : s.Inv D c₀) {t : ThreadId} (hin : (s.lock.pc t).inside = true)
    (ht : (s.pc t).waiting = false) :
    s.active = false ∧ s.pending = [] ∧ s.semaphore.sem.value = 0 := by
  have hnone : ∀ u, (s.pc u).waiting = true → False := by
    intro u hu
    obtain ⟨r, k, b, hpc⟩ := result_of_waiting hu
    have hres : (s.pc u).result = some (r, k, b) := by rw [hpc]; rfl
    have heq := h.lock.unique u t (h.inside_of_result hres) hin
    rw [heq, ht] at hu
    contradiction
  cases h.turn with
  | quiet _ hactive hpending hvalue => exact ⟨hactive, hpending, hvalue⟩
  | working u hu => exact (hnone u hu).elim
  | done u hu => exact (hnone u hu).elim

private theorem Inv.withLock (h : s.Inv D c₀) {lock : LockState} (hlock : lock.Inv)
    (hplace : ∀ t, (s.pc t).lockOk (lock.pc t)) {acquired : List (ThreadId × ι)}
    {aborted : Bool}
    (horder : { s with lock := lock, acquired := acquired, aborted := aborted }.Order) :
    { s with lock := lock, acquired := acquired, aborted := aborted }.Inv D c₀ where
  lock := hlock
  sem := h.sem
  clash := h.clash
  place := hplace
  turn := by
    cases h.turn with
    | quiet h₁ h₂ h₃ h₄ => exact .quiet h₁ h₂ h₃ h₄
    | working t h₁ h₂ h₃ h₄ => exact .working t h₁ h₂ h₃ h₄
    | done t h₁ h₂ h₃ h₄ => exact .done t h₁ h₂ h₃ h₄
  order := horder
  run := h.run
  last := h.last
  passed := h.passed
  completed := h.completed
  returned := h.returned

/-- Nobody but `t` moves in the lock. -/
theorem Inv.place_update (h : s.Inv D c₀) {t : ThreadId} {pc : LockPc}
    (hok : (s.pc t).lockOk pc) (u : ThreadId) :
    (s.pc u).lockOk (Function.update s.lock.pc t pc u) := by
  apply (Function.forall_update_iff s.lock.pc fun u pc => (s.pc u).lockOk pc).mpr
  exact ⟨hok, fun u _ => h.place u⟩

/-- A test in the `P` of `Acquire`: the call waits for the lock, or it is the next in order. -/
theorem Inv.enter (h : s.Inv D c₀) {t : ThreadId} {r : ι} (hpc : s.pc t = .acquire r)
    (hout : (s.lock.pc t).inside = false)
    (hinv : (s.lock.enterP t false).Inv) (ha : s.lock.semaphore.asleep t = false) :
    { s with lock := s.lock.enterP t false,
             acquired := s.acquired ++ s.entering (s.lock.enterP t false) t,
             aborted := (s.lock.enterP t false).aborted }.Inv D c₀ := by
  obtain ⟨-, hcases⟩ := h.lock.enterP_cases false ha
  rcases hcases with hlock | ⟨hlock, hnone⟩
  · have hempty : s.entering (s.lock.enterP t false) t = [] := by
      simp only [entering, hpc, hlock, Function.update_self, LockPc.inside]
      simp
    apply h.withLock hinv
    · intro u
      rw [hlock]
      exact h.place_update (by rw [hpc]; exact .inr (.inl rfl)) u
    · rw [hempty, List.append_nil]
      cases h.order with
      | even hall hacq =>
        refine .even ?_ hacq
        intro u r' hu
        show ((s.lock.enterP t false).pc u).inside = false
        rw [hlock]
        by_cases hut : u = t
        · rw [hut, Function.update_self]
          rfl
        · rw [Function.update_of_ne hut]
          exact hall u r' hu
      | ahead u r' hu hin hacq =>
        have hut : u ≠ t := by
          rintro rfl
          rw [hout] at hin
          contradiction
        refine .ahead u r' hu ?_ hacq
        show ((s.lock.enterP t false).pc u).inside = true
        rw [hlock, Function.update_of_ne hut, hin]
  · have hone : s.entering (s.lock.enterP t false) t = [(t, r)] := by
      have hgot : (Function.update s.lock.pc t .gotP t).inside = true := by
        rw [Function.update_self]
        rfl
      simp only [entering, hpc, hlock, hout, hgot, and_self, if_true]
    apply h.withLock hinv
    · intro u
      rw [hlock]
      exact h.place_update (by rw [hpc]; exact .inr (.inr (.inl rfl))) u
    · rw [hone]
      cases h.order with
      | even _ hacq =>
        refine .ahead t r hpc ?_ (by rw [← hacq])
        show ((s.lock.enterP t false).pc t).inside = true
        rw [hlock, Function.update_self]
        rfl
      | ahead u r' hu hin =>
        rw [hnone u] at hin
        contradiction

private theorem Inv.stay (h : s.Inv D c₀) {t : ThreadId} {lock : LockState} {pc : LockPc}
    (hinv : lock.Inv) (hlock : lock.pc = Function.update s.lock.pc t pc)
    (hok : (s.pc t).lockOk pc) (hin : (s.lock.pc t).inside = true) (hin' : pc.inside = true) :
    { s with lock := lock, acquired := s.acquired ++ s.entering lock t,
             aborted := lock.aborted }.Inv D c₀ := by
  have hempty : s.entering lock t = [] := by
    unfold entering
    split
    · rw [if_neg (by rw [hin]; simp)]
    · rfl
  have hsame : ∀ u, (lock.pc u).inside = (s.lock.pc u).inside := by
    intro u
    rw [hlock]
    by_cases hu : u = t
    · rw [hu, Function.update_self, hin, hin']
    · rw [Function.update_of_ne hu]
  apply h.withLock hinv
  · intro u
    rw [hlock]
    exact h.place_update hok u
  · rw [hempty, List.append_nil]
    cases h.order with
    | even hall hacq => exact .even (fun u r hu => (hsame u).trans (hall u r hu)) hacq
    | ahead u r hu hin hacq => exact .ahead u r hu ((hsame u).trans hin) hacq

theorem Inv.leave (h : s.Inv D c₀) {t : ThreadId} {lock : LockState} {r : ι} {k : Nat}
    {b : β} (hpc : s.pc t = .release r k b) (hinv : lock.Inv)
    (hlock : lock.pc = Function.update s.lock.pc t .outside) :
    { s with lock := lock, pc := Function.update s.pc t .idle, aborted := lock.aborted,
             returned := s.returned ++ [((t, r), k, b)] }.Inv D c₀ := by
  have hres : (s.pc t).result = some (r, k, b) := by
    rw [hpc]
    rfl
  have hin := h.inside_of_result hres
  have hother : ∀ u, u ≠ t → (s.lock.pc u).inside = false := by
    intro u hu
    exact Bool.eq_false_iff.mpr fun hu' => hu (h.lock.unique u t hu' hin)
  obtain ⟨hactive, hpending, hvalue⟩ := h.quiet hin (by rw [hpc]; rfl)
  have hidle : ∀ u, Function.update s.pc t .idle u = .idle ∨
      (u ≠ t ∧ Function.update s.pc t .idle u = s.pc u) := by
    intro u
    by_cases hu : u = t
    · left
      rw [hu, Function.update_self]
    · exact .inr ⟨hu, Function.update_of_ne hu _ _⟩
  constructor
  · exact hinv
  · exact h.sem
  · exact h.clash
  · intro u
    show (Function.update s.pc t .idle u).lockOk (lock.pc u)
    rw [hlock]
    by_cases hu : u = t
    · rw [hu, Function.update_self, Function.update_self]
      rfl
    · rw [Function.update_of_ne hu, Function.update_of_ne hu]
      exact h.place u
  · refine .quiet ?_ hactive hpending hvalue
    intro u
    show (Function.update s.pc t .idle u).waiting = false
    rcases hidle u with hu | ⟨hu, hsame⟩
    · rw [hu]
      rfl
    · rw [hsame]
      apply Bool.eq_false_iff.mpr
      intro hw
      obtain ⟨r', k', b', hpc'⟩ := result_of_waiting hw
      have hin' := h.inside_of_result (show (s.pc u).result = some (r', k', b') by rw [hpc']; rfl)
      rw [hother u hu] at hin'
      contradiction
  · cases h.order with
    | even hall hacq =>
      refine .even ?_ hacq
      intro u r' (hu : Function.update s.pc t .idle u = .acquire r')
      show (lock.pc u).inside = false
      rcases hidle u with hidle | ⟨hut, -⟩
      · rw [hidle] at hu
        contradiction
      · rw [hlock, Function.update_of_ne hut]
        exact hother u hut
    | ahead u r' hu hin' hacq =>
      have hut := h.lock.unique u t hin' hin
      rw [hut, hpc] at hu
      contradiction
  · exact h.run
  · intro u r' k' b' (hu : (Function.update s.pc t .idle u).result = some (r', k', b'))
    rcases hidle u with hidle | ⟨hut, hsame⟩
    · rw [hidle] at hu
      contradiction
    · rw [hsame] at hu
      exact h.last u r' k' b' hu
  · intro u r' k' b' (hu : Function.update s.pc t .idle u = .release r' k' b')
    rcases hidle u with hidle | ⟨hut, hsame⟩
    · rw [hidle] at hu
      contradiction
    · rw [hsame] at hu
      exact h.passed u r' k' b' hu
  · exact h.completed
  · intro x hx
    rcases List.mem_append.mp hx with hx | hx
    · exact h.returned x hx
    · rw [List.mem_singleton.mp hx]
      exact ⟨h.passed t r k b hpc, (h.last t r k b hres).2⟩

theorem Inv.call (h : s.Inv D c₀) {t : ThreadId} (hpc : s.pc t = .idle) (r : ι) :
    { s with pc := Function.update s.pc t (.acquire r) }.Inv D c₀ := by
  have hlock : s.lock.pc t = .outside := by
    have hp := h.place t
    rw [hpc] at hp
    exact hp
  have hwaits : ∀ u, (Function.update s.pc t (.acquire r) u).waiting = (s.pc u).waiting := by
    intro u
    by_cases hu : u = t
    · rw [hu, Function.update_self, hpc]
      rfl
    · rw [Function.update_of_ne hu]
  have hresult : ∀ u, (Function.update s.pc t (.acquire r) u).result = (s.pc u).result := by
    intro u
    by_cases hu : u = t
    · rw [hu, Function.update_self, hpc]
      rfl
    · rw [Function.update_of_ne hu]
  constructor
  · exact h.lock
  · exact h.sem
  · exact h.clash
  · intro u
    show (Function.update s.pc t (.acquire r) u).lockOk (s.lock.pc u)
    by_cases hu : u = t
    · rw [hu, Function.update_self, hlock]
      exact .inl rfl
    · rw [Function.update_of_ne hu]
      exact h.place u
  · cases h.turn with
    | quiet h₁ h₂ h₃ h₄ => exact .quiet (fun u => (hwaits u).trans (h₁ u)) h₂ h₃ h₄
    | working u h₁ h₂ h₃ h₄ => exact .working u ((hwaits u).trans h₁) h₂ h₃ h₄
    | done u h₁ h₂ h₃ h₄ => exact .done u ((hwaits u).trans h₁) h₂ h₃ h₄
  · cases h.order with
    | even hall hacq =>
      refine .even ?_ hacq
      intro u r' (hu : Function.update s.pc t (.acquire r) u = .acquire r')
      show (s.lock.pc u).inside = false
      by_cases hut : u = t
      · rw [hut, hlock]
        rfl
      · rw [Function.update_of_ne hut] at hu
        exact hall u r' hu
    | ahead u r' hu hin hacq =>
      have hut : u ≠ t := by
        rintro rfl
        rw [hpc] at hu
        contradiction
      exact .ahead u r' ((Function.update_of_ne hut _ _).trans hu) hin hacq
  · exact h.run
  · intro u r' k b hu
    exact h.last u r' k b ((hresult u).symm.trans hu)
  · intro u r' k b (hu : Function.update s.pc t (.acquire r) u = .release r' k b)
    by_cases hut : u = t
    · rw [hut, Function.update_self] at hu
      contradiction
    · rw [Function.update_of_ne hut] at hu
      exact h.passed u r' k b hu
  · exact h.completed
  · exact h.returned

theorem Inv.request (h : s.Inv D c₀) {t : ThreadId} {r : ι} (hpc : s.pc t = .acquire r)
    (hlock : s.lock.pc t = .holding) {c : σ} {b : β}
    (hreq : D.request s.contents r = some (c, b)) :
    { s with contents := c, active := true, pending := s.pending ++ [s.issued.length],
             pc := Function.update s.pc t (.wait r s.issued.length b),
             issued := s.issued ++ [((t, r), b)] }.Inv D c₀ := by
  have hin : (s.lock.pc t).inside = true := by
    rw [hlock]
    rfl
  obtain ⟨-, hpending, hvalue⟩ := h.quiet hin (by rw [hpc]; rfl)
  have hnores : ∀ u, u ≠ t → (s.pc u).result = none := by
    intro u hu
    apply Option.eq_none_iff_forall_not_mem.mpr
    intro x hx
    exact hu (h.lock.unique u t (h.inside_of_result hx) hin)
  constructor
  · exact h.lock
  · exact h.sem
  · exact h.clash
  · intro u
    show (Function.update s.pc t (.wait r s.issued.length b) u).lockOk (s.lock.pc u)
    by_cases hu : u = t
    · rw [hu, Function.update_self, hlock]
      rfl
    · rw [Function.update_of_ne hu]
      exact h.place u
  · refine .working t ?_ rfl ?_ hvalue
    · show (Function.update s.pc t (.wait r s.issued.length b) t).waiting = true
      rw [Function.update_self]
      rfl
    · show s.pending ++ [s.issued.length] = [(s.issued ++ [((t, r), b)]).length - 1]
      rw [hpending, List.length_append, List.length_singleton, Nat.add_sub_cancel,
        List.nil_append]
  · cases h.order with
    | even hall _ =>
      have hout := hall t r hpc
      rw [hin] at hout
      contradiction
    | ahead u r' hu hin' hacq =>
      obtain rfl := h.lock.unique u t hin' hin
      obtain rfl : r' = r := by
        rw [hpc] at hu
        exact (DevicePc.acquire.inj hu).symm
      refine .even ?_ ?_
      · intro w r'' (hw : Function.update s.pc u (.wait r' s.issued.length b) w = .acquire r'')
        show (s.lock.pc w).inside = false
        have hwu : w ≠ u := by
          rintro rfl
          rw [Function.update_self] at hw
          contradiction
        exact Bool.eq_false_iff.mpr fun hin'' => hwu (h.lock.unique w u hin'' hin)
      · show s.acquired = (s.issued ++ [((u, r'), b)]).map Prod.fst
        rw [hacq, List.map_append, List.map_singleton]
  · show D.run c₀ ((s.issued ++ [((t, r), b)]).map fun r => r.1.2) =
      some (c, (s.issued ++ [((t, r), b)]).map Prod.snd)
    rw [List.map_append, List.map_append, List.map_singleton, List.map_singleton]
    exact D.run_snoc h.run hreq
  · intro u r' k b'
      (hu : (Function.update s.pc t (.wait r s.issued.length b) u).result = some (r', k, b'))
    show k + 1 = (s.issued ++ [((t, r), b)]).length ∧
      (s.issued ++ [((t, r), b)])[k]? = some ((u, r'), b')
    by_cases hut : u = t
    · rw [hut, Function.update_self] at hu
      cases hu
      rw [hut]
      simp
    · rw [Function.update_of_ne hut, hnores u hut] at hu
      contradiction
  · intro u r' k b' (hu : Function.update s.pc t (.wait r s.issued.length b) u = .release r' k b')
    by_cases hut : u = t
    · rw [hut, Function.update_self] at hu
      contradiction
    · rw [Function.update_of_ne hut] at hu
      exact h.passed u r' k b' hu
  · intro k
    show k ∈ s.completed ↔ k < (s.issued ++ [((t, r), b)]).length ∧
      k ∉ s.pending ++ [s.issued.length]
    rw [h.completed, hpending, List.length_append, List.length_singleton, List.nil_append,
      List.mem_singleton]
    have hnil : k ∉ ([] : List Nat) := List.not_mem_nil
    constructor
    · rintro ⟨hk, -⟩
      omega
    · rintro ⟨hk, hne⟩
      exact ⟨by omega, hnil⟩
  · intro x hx
    obtain ⟨hcomp, hres⟩ := h.returned x hx
    refine ⟨hcomp, ?_⟩
    show (s.issued ++ [((t, r), b)])[x.2.1]? = some (x.1, x.2.2)
    rw [List.getElem?_append_left ((h.completed x.2.1).mp hcomp).1]
    exact hres

theorem Inv.abort (h : s.Inv D c₀) : { s with aborted := true }.Inv D c₀ :=
  h.withLock h.lock h.place (by
    cases h.order with
    | even hall hacq => exact .even hall hacq
    | ahead t r hpc hin hacq => exact .ahead t r hpc hin hacq)

/-- A test in `P` that finds no unit. -/
theorem Inv.sleep (h : s.Inv D c₀) {sem : SemState} (hsem : SemState.Inv 0 sem)
    (hvalue : sem.sem.value = s.semaphore.sem.value) :
    { s with semaphore := sem }.Inv D c₀ where
  lock := h.lock
  sem := hsem
  clash := h.clash
  place := h.place
  turn := by
    cases h.turn with
    | quiet h₁ h₂ h₃ h₄ => exact .quiet h₁ h₂ h₃ (hvalue.trans h₄)
    | working t h₁ h₂ h₃ h₄ => exact .working t h₁ h₂ h₃ (hvalue.trans h₄)
    | done t h₁ h₂ h₃ h₄ => exact .done t h₁ h₂ h₃ (hvalue.trans h₄)
  order := by
    cases h.order with
    | even hall hacq => exact .even hall hacq
    | ahead t r hpc hin hacq => exact .ahead t r hpc hin hacq
  run := h.run
  last := h.last
  passed := h.passed
  completed := h.completed
  returned := h.returned

/-- A test in `P` that takes the unit: the interrupt was for this call. -/
theorem Inv.wake (h : s.Inv D c₀) {t : ThreadId} {r : ι} {k : Nat} {b : β}
    (hpc : s.pc t = .wait r k b) {sem : SemState} (hsem : SemState.Inv 0 sem) (hne : s.semaphore.sem.value ≠ 0)
    (hvalue : sem.sem.value = s.semaphore.sem.value - 1) :
    { s with semaphore := sem, pc := Function.update s.pc t (.release r k b) }.Inv D c₀ := by
  have hres : (s.pc t).result = some (r, k, b) := by
    rw [hpc]
    rfl
  have hin := h.inside_of_result hres
  have hlock : s.lock.pc t = .holding := by
    have hp := h.place t
    rw [hpc] at hp
    exact hp
  have hresult : ∀ u, (Function.update s.pc t (.release r k b) u).result = (s.pc u).result := by
    intro u
    by_cases hu : u = t
    · rw [hu, Function.update_self, hres]
      rfl
    · rw [Function.update_of_ne hu]
  obtain ⟨hactive, hpending, hone⟩ :
      s.active = false ∧ s.pending = [] ∧ s.semaphore.sem.value = 1 := by
    cases h.turn with
    | quiet _ _ _ hzero => exact absurd hzero hne
    | working _ _ _ _ hzero => exact absurd hzero hne
    | done _ _ hactive hpending hone => exact ⟨hactive, hpending, hone⟩
  constructor
  · exact h.lock
  · exact hsem
  · exact h.clash
  · intro u
    show (Function.update s.pc t (.release r k b) u).lockOk (s.lock.pc u)
    by_cases hu : u = t
    · rw [hu, Function.update_self, hlock]
      exact .inl rfl
    · rw [Function.update_of_ne hu]
      exact h.place u
  · have hzero : sem.sem.value = 0 := by omega
    refine .quiet ?_ hactive hpending hzero
    intro u
    show (Function.update s.pc t (.release r k b) u).waiting = false
    by_cases hu : u = t
    · rw [hu, Function.update_self]
      rfl
    · rw [Function.update_of_ne hu]
      apply Bool.eq_false_iff.mpr
      intro hw
      obtain ⟨r', k', b', hpc'⟩ := result_of_waiting hw
      have hin' := h.inside_of_result (show (s.pc u).result = some (r', k', b') by rw [hpc']; rfl)
      exact hu (h.lock.unique u t hin' hin)
  · cases h.order with
    | even hall hacq =>
      refine .even ?_ hacq
      intro u r' (hu : Function.update s.pc t (.release r k b) u = .acquire r')
      have hut : u ≠ t := by
        rintro rfl
        rw [Function.update_self] at hu
        contradiction
      rw [Function.update_of_ne hut] at hu
      exact hall u r' hu
    | ahead u r' hu hin' hacq =>
      have hut := h.lock.unique u t hin' hin
      rw [hut, hpc] at hu
      contradiction
  · exact h.run
  · intro u r' k' b' hu
    exact h.last u r' k' b' ((hresult u).symm.trans hu)
  · intro u r' k' b' (hu : Function.update s.pc t (.release r k b) u = .release r' k' b')
    by_cases hut : u = t
    · rw [hut, Function.update_self] at hu
      obtain ⟨rfl, rfl, rfl⟩ := DevicePc.release.inj hu
      have hlast := (h.last t r k b hres).1
      have hnot : k ∉ s.pending := by
        rw [hpending]
        exact List.not_mem_nil
      exact (h.completed k).mpr ⟨by omega, hnot⟩
    · rw [Function.update_of_ne hut] at hu
      exact h.passed u r' k' b' hu
  · exact h.completed
  · exact h.returned

theorem Inv.interrupt (h : s.Inv D c₀) {k : Nat} (hk : k ∈ s.pending) :
    { s with pending := s.pending.erase k, active := false, semaphore := s.semaphore.v,
             completed := s.completed ++ [k] }.Inv D c₀ := by
  obtain ⟨t, hpc, hpending, hvalue⟩ : ∃ t, (s.pc t).waiting = true ∧
      s.pending = [s.issued.length - 1] ∧ s.semaphore.sem.value = 0 := by
    cases h.turn with
    | working t hpc _ hpending hvalue => exact ⟨t, hpc, hpending, hvalue⟩
    | quiet _ _ hpending =>
      rw [hpending] at hk
      contradiction
    | done _ _ _ hpending =>
      rw [hpending] at hk
      contradiction
  obtain rfl : k = s.issued.length - 1 := by
    rw [hpending] at hk
    exact List.mem_singleton.mp hk
  have hpos : 0 < s.issued.length := by
    obtain ⟨r, k, b, hwait⟩ := result_of_waiting hpc
    have hlast := (h.last t r k b (by rw [hwait]; rfl)).1
    omega
  have hempty : s.pending.erase (s.issued.length - 1) = [] := by
    rw [hpending]
    exact List.erase_cons_head ..
  constructor
  · exact h.lock
  · exact h.sem.v
  · exact h.clash
  · exact h.place
  · refine .done t hpc rfl hempty ?_
    show s.semaphore.v.sem.value = 1
    rw [SemState.v_value, hvalue]
    rfl
  · cases h.order with
    | even hall hacq => exact .even hall hacq
    | ahead t r hpc hin hacq => exact .ahead t r hpc hin hacq
  · exact h.run
  · exact h.last
  · intro u r k b hu
    exact List.mem_append_left _ (h.passed u r k b hu)
  · intro j
    show j ∈ s.completed ++ [s.issued.length - 1] ↔ j < s.issued.length ∧
      j ∉ s.pending.erase (s.issued.length - 1)
    rw [hempty, List.mem_append, h.completed, hpending, List.mem_singleton]
    have hnil : j ∉ ([] : List Nat) := List.not_mem_nil
    constructor
    · rintro (⟨hj, -⟩ | hj)
      · exact ⟨hj, hnil⟩
      · exact ⟨by omega, hnil⟩
    · rintro ⟨hj, -⟩
      by_cases hlast : j = s.issued.length - 1
      · exact .inr hlast
      · exact .inl ⟨hj, hlast⟩
  · intro x hx
    obtain ⟨hcomp, hres⟩ := h.returned x hx
    exact ⟨List.mem_append_left _ hcomp, hres⟩

private theorem lock_step_cases {l : LockLabel} {t : ThreadId}
    (hafter : (s.pc t).afterLock l = s.pc t) (ht : l.thread = t) (hreturning : s.returning l = [])
    (hs : s.step D (.lock l) = some s') : ∃ lock, lockStep s.lock l = some lock ∧
      s' = { s with lock := lock, acquired := s.acquired ++ s.entering lock t,
                    aborted := lock.aborted } := by
  simp only [step, ht] at hs
  split at hs
  next =>
    obtain ⟨lock, hls, hs⟩ := Option.bind_eq_some_iff.mp hs
    refine ⟨lock, hls, ?_⟩
    rw [← Option.some.inj hs, hafter, hreturning, Function.update_eq_self, List.append_nil]
  next => cases hs

theorem Inv.acquire (h : s.Inv D c₀) {t : ThreadId} {r : ι} (hpc : s.pc t = .acquire r)
    (hlock : s.lock.pc t = .outside) (hs : s.step D (.lock (.acquire t)) = some s') :
    s'.Inv D c₀ := by
  have hls : lockStep s.lock (.acquire t) = some (s.lock.enterP t false) := by
    simp only [lockStep, hlock]
  have hafter : (s.pc t).afterLock (.acquire t) = s.pc t := by
    rw [hpc]
    rfl
  have hinv := h.lock.step hls
  obtain ⟨lock, hls', rfl⟩ := lock_step_cases hafter rfl rfl hs
  obtain rfl : lock = s.lock.enterP t false := Option.some.inj (hls'.symm.trans hls)
  have hout : (s.lock.pc t).inside = false := by
    rw [hlock]
    rfl
  exact h.enter hpc hout hinv (h.lock.awake (by simp [hlock]))

theorem Inv.retest (h : s.Inv D c₀) {t : ThreadId} {r : ι} (hpc : s.pc t = .acquire r)
    (hs : s.step D (.lock (.retest t)) = some s') : s'.Inv D c₀ := by
  have hafter : (s.pc t).afterLock (.retest t) = s.pc t := by
    rw [hpc]
    rfl
  obtain ⟨lock, hls, rfl⟩ := lock_step_cases hafter rfl rfl hs
  have hinv := h.lock.step hls
  have hp := h.place t
  rw [hpc] at hp
  cases hl : s.lock.pc t with
  | inP held =>
    obtain rfl : held = false := by
      rw [hl] at hp
      simpa [DevicePc.lockOk] using hp
    simp only [lockStep, hl] at hls
    split at hls
    next => contradiction
    next ha =>
      obtain rfl := Option.some.inj hls
      have hout : (s.lock.pc t).inside = false := by
        rw [hl]
        rfl
      exact h.enter hpc hout hinv (Bool.eq_false_iff.mpr ha)
  | outside => simp [lockStep, hl] at hls
  | gotP => simp [lockStep, hl] at hls
  | holding => simp [lockStep, hl] at hls
  | releasing => simp [lockStep, hl] at hls

theorem Inv.assign (h : s.Inv D c₀) {t : ThreadId} {r : ι} (hpc : s.pc t = .acquire r)
    (hs : s.step D (.lock (.assign t)) = some s') : s'.Inv D c₀ := by
  have hafter : (s.pc t).afterLock (.assign t) = s.pc t := by
    rw [hpc]
    rfl
  obtain ⟨lock, hls, rfl⟩ := lock_step_cases hafter rfl rfl hs
  have hinv := h.lock.step hls
  cases hl : s.lock.pc t with
  | gotP =>
    simp only [lockStep, hl, Option.some.injEq] at hls
    subst hls
    refine h.stay hinv rfl ?_ ?_ rfl
    · rw [hpc]
      exact .inr (.inr (.inr rfl))
    · rw [hl]
      rfl
  | outside => simp [lockStep, hl] at hls
  | inP held => simp [lockStep, hl] at hls
  | holding => simp [lockStep, hl] at hls
  | releasing => simp [lockStep, hl] at hls

theorem Inv.release (h : s.Inv D c₀) {t : ThreadId} {r : ι} {k : Nat} {b : β}
    (hpc : s.pc t = .release r k b) (hs : s.step D (.lock (.release t)) = some s') :
    s'.Inv D c₀ := by
  have hafter : (s.pc t).afterLock (.release t) = s.pc t := by
    rw [hpc]
    rfl
  obtain ⟨lock, hls, rfl⟩ := lock_step_cases hafter rfl rfl hs
  have hinv := h.lock.step hls
  have hp := h.place t
  rw [hpc] at hp
  rcases hp with hl | hl
  · have hholder : s.lock.lockHolder = some t := by
      rw [h.lock.holder, hl]
      rfl
    simp only [lockStep, hl, or_true, if_true, hholder, Option.some.injEq] at hls
    subst hls
    refine h.stay hinv rfl ?_ ?_ rfl
    · rw [hpc]
      exact .inr rfl
    · rw [hl]
      rfl
  · simp [lockStep, hl] at hls

theorem Inv.v (h : s.Inv D c₀) {t : ThreadId} {r : ι} {k : Nat} {b : β}
    (hpc : s.pc t = .release r k b) (hs : s.step D (.lock (.v t)) = some s') : s'.Inv D c₀ := by
  have hentering : ∀ lock, s.entering lock t = [] := by
    intro lock
    simp only [entering, hpc]
  simp only [step, LockLabel.thread, Option.bind_eq_bind, hentering, returning, hpc,
    List.append_nil] at hs
  obtain ⟨lock, hls, hs⟩ := Option.bind_eq_some_iff.mp hs
  obtain rfl := Option.some.inj hs
  have hinv := h.lock.step hls
  have hp := h.place t
  rw [hpc] at hp
  rcases hp with hl | hl
  · simp [lockStep, hl] at hls
  · simp only [lockStep, hl, Option.some.injEq] at hls
    subst hls
    exact h.leave hpc hinv rfl

theorem Inv.lockStep (h : s.Inv D c₀) {l : LockLabel} (hs : s.step D (.lock l) = some s') :
    s'.Inv D c₀ := by
  have hallow : (s.pc l.thread).allows (s.lock.pc l.thread) l = true := by
    simp only [step] at hs
    split at hs
    next hallow => exact hallow
    next => contradiction
  cases hpc : s.pc l.thread with
  | idle => simp [hpc, DevicePc.allows] at hallow
  | wait r k b => simp [hpc, DevicePc.allows] at hallow
  | acquire r =>
    cases l with
    | acquire t =>
      have hout : s.lock.pc t = .outside := by
        simp only [LockLabel.thread] at hpc hallow
        cases hl : s.lock.pc t <;> simp [hpc, hl, DevicePc.allows] at hallow
        rfl
      exact h.acquire hpc hout hs
    | retest t => exact h.retest hpc hs
    | assign t => exact h.assign hpc hs
    | release t => simp [hpc, DevicePc.allows] at hallow
    | v t => simp [hpc, DevicePc.allows] at hallow
  | release r k b =>
    cases l with
    | release t => exact h.release hpc hs
    | v t => exact h.v hpc hs
    | acquire t => simp [hpc, DevicePc.allows] at hallow
    | retest t => simp [hpc, DevicePc.allows] at hallow
    | assign t => simp [hpc, DevicePc.allows] at hallow

theorem Inv.p (h : s.Inv D c₀) {t : ThreadId} (hs : s.step D (.p t) = some s') :
    s'.Inv D c₀ := by
  cases hpc : s.pc t with
  | idle => simp [step, hpc] at hs
  | acquire r => simp [step, hpc] at hs
  | release r k b => simp [step, hpc] at hs
  | wait r k b =>
    simp only [step, hpc] at hs
    split at hs
    next => contradiction
    next =>
      split at hs
      next =>
        obtain rfl := Option.some.inj hs
        exact h.abort
      next sem hp =>
        obtain rfl := Option.some.inj hs
        rcases SemState.p_cases hp with ⟨heq, -⟩ | ⟨-, hne, hsem⟩
        · contradiction
        · exact h.wake hpc (h.sem.p hp) hne (by rw [hsem])
      next sem hp =>
        obtain rfl := Option.some.inj hs
        rcases SemState.p_cases hp with ⟨-, -, -, hsem⟩ | ⟨heq, -⟩
        · exact h.sleep (h.sem.p hp) (by rw [hsem])
        · contradiction

theorem Inv.step (h : s.Inv D c₀) {l : DeviceLabel ι} (hs : s.step D l = some s') :
    s'.Inv D c₀ := by
  cases l with
  | call t r =>
    cases hpc : s.pc t with
    | idle =>
      simp only [SynchDevice.step, hpc, Option.some.injEq] at hs
      exact hs ▸ h.call hpc r
    | acquire r => simp [SynchDevice.step, hpc] at hs
    | wait r k b => simp [SynchDevice.step, hpc] at hs
    | release r k b => simp [SynchDevice.step, hpc] at hs
  | lock l => exact h.lockStep hs
  | request t =>
    simp only [SynchDevice.step] at hs
    split at hs
    next r hpc hlock =>
      have hin : (s.lock.pc t).inside = true := by
        rw [hlock]
        rfl
      have hidle := (h.quiet hin (by rw [hpc]; rfl)).1
      rw [if_neg (by rw [hidle]; exact Bool.false_ne_true)] at hs
      split at hs
      next =>
        obtain rfl := Option.some.inj hs
        exact h.abort
      next c b hreq =>
        obtain rfl := Option.some.inj hs
        exact h.request hpc hlock hreq
    next => contradiction
  | p t => exact h.p hs
  | interrupt k =>
    simp only [SynchDevice.step] at hs
    split at hs
    next hk =>
      obtain rfl := Option.some.inj hs
      exact h.interrupt hk
    next => contradiction

theorem inv_inductive (D : Device σ ι β) (c₀ : σ) :
    (deviceSystem D c₀).Inductive (Inv D c₀) where
  init s hs := by
    obtain rfl : s = .new c₀ := hs
    exact .init D c₀
  step s l s' h hst := h.step hst.2

/-- What a caller of the wrapper can rely on. -/
structure Serialized (D : Device σ ι β) (c₀ : σ) (s : SynchDevice σ ι β) : Prop where
  exclusive : s.clash = false ∧ s.pending.length ≤ 1
  semaphore : s.semaphore.sem.value ≤ 1
  free : s.lock.lockHolder = none ∨ s.lock.semaphore.sem.value = 1 → s.semaphore.sem.value = 0
  completed : (∀ t r k b, s.pc t = .release r k b → k ∈ s.completed) ∧
    ∀ x ∈ s.returned, x.2.1 ∈ s.completed
  results : ∀ x ∈ s.returned, s.acquired[x.2.1]? = some x.1 ∧
    ∃ c c' bs, D.run c₀ ((s.acquired.take x.2.1).map Prod.snd) = some (c, bs) ∧
      D.request c x.1.2 = some (c', x.2.2)

private theorem Inv.issued_take (h : s.Inv D c₀) {k : Nat} (hk : k < s.issued.length) :
    s.acquired[k]? = (s.issued.map Prod.fst)[k]? ∧
      s.acquired.take k = (s.issued.map Prod.fst).take k := by
  have hlen : k < (s.issued.map Prod.fst).length := by
    rw [List.length_map]
    exact hk
  cases h.order with
  | even _ hacq =>
    rw [hacq]
    exact ⟨rfl, rfl⟩
  | ahead t r _ _ hacq =>
    rw [hacq]
    exact ⟨List.getElem?_append_left hlen, List.take_append_of_le_length (Nat.le_of_lt hlen)⟩

theorem Inv.serialized (h : s.Inv D c₀) : s.Serialized D c₀ where
  exclusive := by
    refine ⟨h.clash, ?_⟩
    cases h.turn with
    | quiet _ _ hpending => simp [hpending]
    | working _ _ _ hpending => simp [hpending]
    | done _ _ _ hpending => simp [hpending]
  semaphore := by
    cases h.turn with
    | quiet _ _ _ hvalue => omega
    | working _ _ _ _ hvalue => omega
    | done _ _ _ _ hvalue => omega
  free hfree := by
    cases h.turn with
    | quiet _ _ _ hvalue => exact hvalue
    | working _ _ _ _ hvalue => exact hvalue
    | done t hpc _ _ hvalue =>
      exfalso
      obtain ⟨r, k, b, hwait⟩ := result_of_waiting hpc
      have hp := h.place t
      rw [hwait] at hp
      have hlock : s.lock.pc t = .holding := hp
      rcases hfree with hnone | hone
      · have hholder : s.lock.lockHolder = some t := by
          rw [h.lock.holder, hlock]
          rfl
        rw [hnone] at hholder
        contradiction
      · have hzero := h.lock.taken t (by rw [hlock]; rfl)
        omega
  completed := ⟨h.passed, fun x hx => (h.returned x hx).1⟩
  results x hx := by
    obtain ⟨hcomp, hissued⟩ := h.returned x hx
    have hk := ((h.completed x.2.1).mp hcomp).1
    obtain ⟨hget, htake⟩ := h.issued_take hk
    have hop : (s.issued.map fun r => r.1.2)[x.2.1]? = some x.1.2 := by
      rw [List.getElem?_map, hissued]
      rfl
    have hres : (s.issued.map Prod.snd)[x.2.1]? = some x.2.2 := by
      rw [List.getElem?_map, hissued]
      rfl
    obtain ⟨c, c', bs, hrun, hreq⟩ := D.run_getElem h.run hop hres
    refine ⟨?_, c, c', bs, ?_, hreq⟩
    · rw [hget, List.getElem?_map, hissued]
      rfl
    · rw [htake, ← List.map_take, List.map_map, Function.comp_def, List.map_take]
      exact hrun

end SynchDevice

end Nachos

import Nachos.Machine.Interrupt

/-!
# Exact delivery of interrupts

The calls of handlers so far, followed by the pending interrupts, are all interrupts scheduled so
far, in the order of their times and, for equal times, of their scheduling. A handler can only add
interrupts for a later time, so this survives the loop that drains the list while handlers insert
into it, and the number of due interrupts falls with every turn of that loop.
-/

namespace Nachos

open Framework

def PendingInterrupt.Before (x y : PendingInterrupt) : Prop :=
  x.when < y.when ∨ (x.when = y.when ∧ x.serial < y.serial)

theorem PendingInterrupt.Before.trans {x y z : PendingInterrupt} (h : x.Before y)
    (h' : y.Before z) : x.Before z := by
  unfold Before at *
  omega

private theorem pendingCompare_neg {x y : PendingInterrupt} :
    pendingCompare x y < 0 ↔ x.when < y.when := by
  unfold pendingCompare
  split
  next h => simp [h]
  next h =>
    split
    next => simp [h]
    next => simp [h]

namespace Interrupt

variable {s s' : Interrupt}

/-- The interrupts whose handlers were called and then those still pending. -/
def history (s : Interrupt) : List PendingInterrupt := s.fired.map Firing.interrupt ++ s.pending

/-- What holds also while handlers run. -/
structure Ordered (s : Interrupt) : Prop where
  serials : (s.history.map PendingInterrupt.serial).Perm (List.range s.scheduled)
  order : s.history.Pairwise PendingInterrupt.Before
  past : ∀ r ∈ s.fired, r.interrupt.when ≤ s.totalTicks
  ticks : s.totalTicks = s.idleTicks + s.systemTicks + s.userTicks

/-- Every handler was called when its interrupt was due, by the first `CheckIfDue` that came at
such a time. -/
def FirstDue (s : Interrupt) : Prop :=
  ∀ r ∈ s.fired, r.interrupt.when ≤ r.time ∧ s.checks[r.check]? = some r.time ∧
    ∀ c < r.check, ∀ t, s.checks[c]? = some t → t < r.interrupt.when

private theorem Ordered.serial_lt (h : s.Ordered) {p : PendingInterrupt} (hp : p ∈ s.history) :
    p.serial < s.scheduled := by
  have hmem := h.serials.subset (List.mem_map_of_mem hp)
  exact List.mem_range.mp hmem

private theorem mem_history_of_pending {p : PendingInterrupt} (hp : p ∈ s.pending) :
    p ∈ s.history :=
  List.mem_append_right _ hp

private theorem Ordered.front_le (h : s.Ordered) {next : PendingInterrupt}
    {rest : List PendingInterrupt} (hpend : s.pending = next :: rest) {p : PendingInterrupt}
    (hp : p ∈ s.pending) : next.when ≤ p.when := by
  have hsorted := (List.pairwise_append.mp h.order).2.1
  rw [hpend] at hsorted hp
  rcases List.mem_cons.mp hp with rfl | hp
  · exact Int.le_refl _
  · have hb := (List.pairwise_cons.mp hsorted).1 p hp
    unfold PendingInterrupt.Before at hb
    omega

/-! ## Scheduling -/

private theorem schedule_eq_some {toCall : Nat} {fromNow : Int} {type : IntType}
    (h : s.schedule toCall fromNow type = some s') :
    0 < fromNow ∧ ∃ p : PendingInterrupt, p.serial = s.scheduled ∧
      p.when = s.totalTicks + fromNow ∧
      s' = { s with pending := s.pending.orderedInsert (fun x y => pendingCompare x y < 0) p,
                    scheduled := s.scheduled + 1 } := by
  unfold schedule at h
  split at h
  next hpos =>
    obtain ⟨pending, hins, h⟩ := Option.bind_eq_some_iff.mp h
    unfold sortedListInsert at hins
    split at hins
    next => contradiction
    next =>
      cases hins
      cases h
      exact ⟨hpos, _, rfl, rfl, rfl⟩
  next => contradiction

theorem Ordered.insert (h : s.Ordered) {p : PendingInterrupt} (hserial : p.serial = s.scheduled)
    (hwhen : s.totalTicks < p.when) :
    { s with pending := s.pending.orderedInsert (fun x y => pendingCompare x y < 0) p,
             scheduled := s.scheduled + 1 }.Ordered := by
  obtain ⟨hfired, hpending, hcross⟩ := List.pairwise_append.mp h.order
  constructor
  · have hperm : (s.fired.map Firing.interrupt ++
        s.pending.orderedInsert (fun x y => pendingCompare x y < 0) p).Perm (s.history ++ [p]) := by
      have hins := List.perm_orderedInsert (fun x y => pendingCompare x y < 0) p s.pending
      have hlast := hins.trans (List.perm_append_singleton p s.pending).symm
      rw [history, List.append_assoc]
      exact hlast.append_left _
    have hlast : (s.history ++ [p]).map PendingInterrupt.serial =
        s.history.map PendingInterrupt.serial ++ [s.scheduled] := by
      rw [List.map_append, List.map_singleton, hserial]
    have hmap := hperm.map PendingInterrupt.serial
    rw [hlast] at hmap
    show (List.map _ (_ ++ _)).Perm (List.range (s.scheduled + 1))
    rw [List.range_succ]
    exact hmap.trans (h.serials.append_right _)
  · apply List.pairwise_append.mpr
    refine ⟨hfired, ?_, ?_⟩
    · have htrans : ∀ x y z : PendingInterrupt, x.Before y → y.Before z → x.Before z :=
        fun _ _ _ => PendingInterrupt.Before.trans
      apply pairwise_orderedInsert _ htrans p s.pending hpending
      · intro y _ hlt
        exact .inl (pendingCompare_neg.mp hlt)
      · intro y hy hlt
        have hle : ¬ p.when < y.when := fun h => hlt (pendingCompare_neg.mpr h)
        have hser := h.serial_lt (mem_history_of_pending hy)
        unfold PendingInterrupt.Before
        omega
    · intro x hx y hy
      rcases (List.mem_orderedInsert _).mp hy with rfl | hy
      · obtain ⟨r, hr, rfl⟩ := List.mem_map.mp hx
        have hpast := h.past r hr
        exact .inl (by omega)
      · exact hcross x hx y hy
  · exact h.past
  · exact h.ticks

/-! ## Handlers

A handler leaves the clock and the past alone, and what it adds is not due. -/

def due (s : Interrupt) : Nat := s.pending.countP fun p => decide (p.when ≤ s.totalTicks)

structure Extends (s s' : Interrupt) : Prop where
  ordered : s.Ordered → s'.Ordered
  totalTicks : s'.totalTicks = s.totalTicks
  fired : s'.fired = s.fired
  checks : s'.checks = s.checks
  pending : ∀ p ∈ s'.pending, p ∈ s.pending ∨ s.totalTicks < p.when
  due : s'.due = s.due

theorem Extends.refl (s : Interrupt) : s.Extends s :=
  ⟨id, rfl, rfl, rfl, fun _ hp => .inl hp, rfl⟩

theorem Extends.trans {s₁ s₂ s₃ : Interrupt} (h : s₁.Extends s₂) (h' : s₂.Extends s₃) :
    s₁.Extends s₃ where
  ordered ho := h'.ordered (h.ordered ho)
  totalTicks := h'.totalTicks.trans h.totalTicks
  fired := h'.fired.trans h.fired
  checks := h'.checks.trans h.checks
  pending p hp := by
    rcases h'.pending p hp with hp | hp
    · exact h.pending p hp
    · right
      rw [← h.totalTicks]
      exact hp
  due := h'.due.trans h.due

private theorem schedule_extends {toCall : Nat} {fromNow : Int} {type : IntType}
    (h : s.schedule toCall fromNow type = some s') : s.Extends s' := by
  obtain ⟨hpos, p, hserial, hwhen, rfl⟩ := schedule_eq_some h
  have hlater : s.totalTicks < p.when := by omega
  constructor
  · intro ho
    exact ho.insert hserial hlater
  · rfl
  · rfl
  · rfl
  · intro q hq
    rcases (List.mem_orderedInsert _).mp hq with rfl | hq
    · exact .inr hlater
    · exact .inl hq
  · have hcount := (List.perm_orderedInsert (fun x y => pendingCompare x y < 0) p
      s.pending).countP_eq fun q => decide (q.when ≤ s.totalTicks)
    have hcons : (p :: s.pending).countP (fun q => decide (q.when ≤ s.totalTicks)) =
        s.pending.countP fun q => decide (q.when ≤ s.totalTicks) := by
      apply List.countP_cons_of_neg
      rw [decide_eq_true_eq]
      omega
    exact hcount.trans hcons

private theorem handlerCall_extends {c : HandlerCall} (h : s.handlerCall c = some s') :
    s.Extends s' := by
  cases c with
  | schedule toCall fromNow type => exact schedule_extends h
  | setLevel now =>
    simp only [handlerCall] at h
    split at h
    · cases h
      exact ⟨fun ho => ⟨ho.serials, ho.order, ho.past, ho.ticks⟩, rfl, rfl, rfl,
        fun _ hp => .inl hp, rfl⟩
    · contradiction
  | yieldOnReturn =>
    simp only [handlerCall] at h
    split at h
    · cases h
      exact ⟨fun ho => ⟨ho.serials, ho.order, ho.past, ho.ticks⟩, rfl, rfl, rfl,
        fun _ hp => .inl hp, rfl⟩
    · contradiction

theorem handler_extends (calls : List HandlerCall) (h : calls.foldlM handlerCall s = some s') :
    s.Extends s' := by
  induction calls generalizing s with
  | nil =>
    obtain rfl : s = s' := Option.some.inj h
    exact .refl s
  | cons c calls ih =>
    rw [List.foldlM_cons] at h
    obtain ⟨s₁, hc, h⟩ := Option.bind_eq_some_iff.mp h
    exact (handlerCall_extends hc).trans (ih h)

/-! ## The loop -/

/-- Inside the loop of `CheckIfDue`, whose time is the last one noted. `earlier` are the times
of the checks before. -/
structure InLoop (earlier : List Int) (s : Interrupt) : Prop where
  ordered : s.Ordered
  first : s.FirstDue
  checks : s.checks = earlier ++ [s.totalTicks]
  clock : ∀ t ∈ earlier, t ≤ s.totalTicks
  unseen : ∀ t ∈ earlier, ∀ p ∈ s.pending, t < p.when

theorem InLoop.extends {earlier : List Int} (h : s.InLoop earlier) (he : s.Extends s') :
    s'.InLoop earlier where
  ordered := he.ordered h.ordered
  first := by
    unfold FirstDue
    rw [he.fired, he.checks]
    exact h.first
  checks := by rw [he.checks, he.totalTicks, h.checks]
  clock := by
    rw [he.totalTicks]
    exact h.clock
  unseen t ht p hp := by
    rcases he.pending p hp with hp | hp
    · exact h.unseen t ht p hp
    · have := h.clock t ht
      omega

def called (s : Interrupt) (next : PendingInterrupt) (rest : List PendingInterrupt) : Interrupt :=
  { s with
    pending := rest,
    fired := s.fired ++
      [{ interrupt := next, time := s.totalTicks, check := s.checks.length - 1 }] }

theorem InLoop.called {earlier : List Int} (h : s.InLoop earlier) {next : PendingInterrupt}
    {rest : List PendingInterrupt} (hpend : s.pending = next :: rest)
    (hdue : next.when ≤ s.totalTicks) : (s.called next rest).InLoop earlier := by
  have hhist : s.fired.map Firing.interrupt ++ [next] ++ rest = s.history := by
    rw [history, hpend, List.append_assoc, List.singleton_append]
  have hcur : s.checks.length - 1 = earlier.length := by
    rw [h.checks, List.length_append, List.length_singleton, Nat.add_sub_cancel]
  have hsame : (s.called next rest).history = s.history := by
    rw [← hhist, history, Interrupt.called, List.map_append, List.map_singleton]
  constructor
  · constructor
    · rw [hsame]
      exact h.ordered.serials
    · rw [hsame]
      exact h.ordered.order
    · intro r hr
      rcases List.mem_append.mp hr with hr | hr
      · exact h.ordered.past r hr
      · rw [List.mem_singleton.mp hr]
        exact hdue
    · exact h.ordered.ticks
  · intro r hr
    rcases List.mem_append.mp hr with hr | hr
    · exact h.first r hr
    · rw [List.mem_singleton.mp hr]
      show next.when ≤ s.totalTicks ∧ s.checks[s.checks.length - 1]? = some s.totalTicks ∧
        ∀ c < s.checks.length - 1, ∀ t, s.checks[c]? = some t → t < next.when
      rw [hcur, h.checks]
      refine ⟨hdue, by simp, ?_⟩
      intro c hc t ht
      rw [List.getElem?_append_left hc] at ht
      exact h.unseen t (List.mem_of_getElem? ht) next (by simp [hpend])
  · exact h.checks
  · exact h.clock
  · intro t ht p hp
    apply h.unseen t ht p
    rw [hpend]
    exact List.mem_cons_of_mem _ hp

theorem frontDue_iff : s.frontDue = true ↔
    ∃ next rest, s.pending = next :: rest ∧ next.when ≤ s.totalTicks := by
  unfold frontDue
  cases hpend : s.pending with
  | nil => simp
  | cons next rest => simp

theorem InLoop.fireNext {earlier : List Int} (h : s.InLoop earlier) (hdue : s.frontDue = true)
    {calls : List HandlerCall} (hs : s.fireNext calls = some s') :
    s'.InLoop earlier ∧ s'.due + 1 = s.due := by
  obtain ⟨next, rest, hpend, hle⟩ := frontDue_iff.mp hdue
  simp only [Interrupt.fireNext, hpend] at hs
  have he := handler_extends calls hs
  refine ⟨(h.called hpend hle).extends he, ?_⟩
  have hcount : s.due = rest.countP (fun p => decide (p.when ≤ s.totalTicks)) + 1 := by
    rw [due, hpend]
    apply List.countP_cons_of_pos
    rw [decide_eq_true_eq]
    exact hle
  rw [he.due, hcount]
  rfl

theorem InLoop.checkLoop {earlier : List Int} {handler : Nat → List HandlerCall} (fuel : Nat)
    (h : s.InLoop earlier) (hdue : s.frontDue = true)
    (hs : checkLoop handler fuel s = some (some s')) :
    s'.InLoop earlier ∧ s'.frontDue = false := by
  induction fuel generalizing s with
  | zero => simp [Interrupt.checkLoop] at hs
  | succ fuel ih =>
    obtain ⟨s₁, hfire, hs⟩ := Option.bind_eq_some_iff.mp hs
    have h₁ := (h.fireNext hdue hfire).1
    split at hs
    next hdue₁ => exact ih h₁ hdue₁ hs
    next hdue₁ =>
      obtain rfl : s₁ = s' := Option.some.inj (Option.some.inj hs)
      exact ⟨h₁, Bool.eq_false_iff.mpr hdue₁⟩

private theorem InLoop.checkLoop_ends {earlier : List Int} {handler : Nat → List HandlerCall}
    (fuel : Nat) (h : s.InLoop earlier) (hdue : s.frontDue = true) (hfuel : s.due ≤ fuel) :
    Interrupt.checkLoop handler fuel s ≠ some none := by
  induction fuel generalizing s with
  | zero =>
    exfalso
    obtain ⟨next, rest, hpend, hle⟩ := frontDue_iff.mp hdue
    have hpos : 0 < s.due := by
      rw [due, hpend]
      exact List.countP_pos_iff.mpr ⟨next, by simp, by simpa using hle⟩
    omega
  | succ fuel ih =>
    intro hnone
    obtain ⟨s₁, hfire, hnone⟩ := Option.bind_eq_some_iff.mp hnone
    obtain ⟨h₁, hfall⟩ := h.fireNext hdue hfire
    split at hnone
    next hdue₁ => exact ih h₁ hdue₁ (by omega) hnone
    next => exact Option.some_ne_none s₁ (Option.some.inj hnone)

/-! ## Calls from outside -/

/-- When `CheckIfDue` is called. -/
structure AtCheck (s : Interrupt) : Prop where
  ordered : s.Ordered
  first : s.FirstDue
  clock : ∀ t ∈ s.checks, t ≤ s.totalTicks
  unseen : ∀ t ∈ s.checks, ∀ p ∈ s.pending, t < p.when

/-- Between the calls: nothing that is pending is due. -/
structure Inv (s : Interrupt) : Prop where
  ordered : s.Ordered
  first : s.FirstDue
  clock : ∀ t ∈ s.checks, t ≤ s.totalTicks
  calm : ∀ p ∈ s.pending, s.totalTicks < p.when

private theorem Inv.atCheck (h : s.Inv) (hordered : s'.Ordered) (hpending : s'.pending = s.pending)
    (hfired : s'.fired = s.fired) (hchecks : s'.checks = s.checks)
    (htime : s.totalTicks ≤ s'.totalTicks) : s'.AtCheck where
  ordered := hordered
  first := by
    unfold FirstDue
    rw [hfired, hchecks]
    exact h.first
  clock t ht := by
    rw [hchecks] at ht
    exact Int.le_trans (h.clock t ht) htime
  unseen t ht p hp := by
    rw [hchecks] at ht
    rw [hpending] at hp
    exact Int.lt_of_le_of_lt (h.clock t ht) (h.calm p hp)

theorem FirstDue.noteCheck (h : s.FirstDue) : s.noteCheck.FirstDue := by
  intro r hr
  obtain ⟨hdue, htime, hearlier⟩ := h r hr
  obtain ⟨hlt, -⟩ := List.getElem?_eq_some_iff.mp htime
  have hsame : ∀ c ≤ r.check, s.noteCheck.checks[c]? = s.checks[c]? := by
    intro c hc
    exact List.getElem?_append_left (by omega)
  refine ⟨hdue, ?_, ?_⟩
  · rw [hsame r.check (Nat.le_refl _)]
    exact htime
  · intro c hc t ht
    rw [hsame c (by omega)] at ht
    exact hearlier c hc t ht

theorem AtCheck.noteCheck (h : s.AtCheck) (hcalm : ∀ p ∈ s.pending, s.totalTicks < p.when) :
    s.noteCheck.Inv where
  ordered := ⟨h.ordered.serials, h.ordered.order, h.ordered.past, h.ordered.ticks⟩
  first := h.first.noteCheck
  clock t ht := by
    rcases List.mem_append.mp ht with ht | ht
    · exact h.clock t ht
    · rw [List.mem_singleton.mp ht]
      exact Int.le_refl _
  calm := hcalm

theorem advanceTo_pending (next : PendingInterrupt) :
    (s.advanceTo next).pending = s.pending ∧ (s.advanceTo next).fired = s.fired ∧
      (s.advanceTo next).checks = s.checks := by
  unfold advanceTo
  split
  · exact ⟨rfl, rfl, rfl⟩
  · exact ⟨rfl, rfl, rfl⟩

theorem advanceTo_totalTicks (next : PendingInterrupt) :
    (s.advanceTo next).totalTicks = max s.totalTicks next.when := by
  unfold advanceTo
  split
  next h => exact (max_eq_right (Int.le_of_lt h)).symm
  next h => exact (max_eq_left (Int.not_lt.mp h)).symm

theorem Ordered.advanceTo (h : s.Ordered) (next : PendingInterrupt) :
    (s.advanceTo next).Ordered := by
  unfold Interrupt.advanceTo
  split
  · refine ⟨h.serials, h.order, ?_, ?_⟩
    · intro r hr
      have := h.past r hr
      simp only
      omega
    · have := h.ticks
      simp only
      omega
  · exact h

theorem AtCheck.inLoop (h : s.AtCheck) {next : PendingInterrupt}
    {rest : List PendingInterrupt} (hpend : s.pending = next :: rest) :
    { (s.advanceTo next).noteCheck with inHandler := true }.InLoop s.checks ∧
      { (s.advanceTo next).noteCheck with inHandler := true }.frontDue = true := by
  obtain ⟨hpending, hfired, hchecks⟩ := advanceTo_pending (s := s) next
  have htime := advanceTo_totalTicks (s := s) next
  have hfirst : (s.advanceTo next).FirstDue := by
    unfold FirstDue
    rw [hfired, hchecks]
    exact h.first
  have ho := h.ordered.advanceTo next
  refine ⟨⟨⟨ho.serials, ho.order, ho.past, ho.ticks⟩, hfirst.noteCheck, ?_, ?_, ?_⟩, ?_⟩
  · show (s.advanceTo next).checks ++ [(s.advanceTo next).totalTicks] =
      s.checks ++ [(s.advanceTo next).totalTicks]
    rw [hchecks]
  · intro t ht
    have hle := h.clock t ht
    show t ≤ (s.advanceTo next).totalTicks
    omega
  · intro t ht p hp
    exact h.unseen t ht p (hpending ▸ hp)
  · have hle : next.when ≤ (s.advanceTo next).totalTicks := by omega
    exact frontDue_iff.mpr ⟨next, rest, hpending.trans hpend, hle⟩

theorem InLoop.inv {earlier : List Int} (h : s.InLoop earlier) (hfront : s.frontDue = false) :
    s.Inv where
  ordered := h.ordered
  first := h.first
  clock t ht := by
    rw [h.checks] at ht
    rcases List.mem_append.mp ht with ht | ht
    · exact h.clock t ht
    · rw [List.mem_singleton.mp ht]
  calm p hp := by
    by_contra hdue
    cases hpend : s.pending with
    | nil =>
      rw [hpend] at hp
      contradiction
    | cons next rest =>
      have hle := h.ordered.front_le hpend hp
      have hnext : s.frontDue = true := frontDue_iff.mpr ⟨next, rest, hpend, by omega⟩
      rw [hfront] at hnext
      contradiction

theorem Inv.congr (h : s.Inv) (hpending : s'.pending = s.pending) (hfired : s'.fired = s.fired)
    (hchecks : s'.checks = s.checks) (hscheduled : s'.scheduled = s.scheduled)
    (hticks : s'.totalTicks = s.totalTicks ∧ s'.idleTicks = s.idleTicks ∧
      s'.systemTicks = s.systemTicks ∧ s'.userTicks = s.userTicks) : s'.Inv := by
  obtain ⟨htotal, hidle, hsystem, huser⟩ := hticks
  have hhistory : s'.history = s.history := by rw [history, hpending, hfired, history]
  constructor
  · constructor
    · rw [hhistory, hscheduled]
      exact h.ordered.serials
    · rw [hhistory]
      exact h.ordered.order
    · rw [hfired, htotal]
      exact h.ordered.past
    · rw [htotal, hidle, hsystem, huser]
      exact h.ordered.ticks
  · unfold FirstDue
    rw [hfired, hchecks]
    exact h.first
  · rw [hchecks, htotal]
    exact h.clock
  · rw [hpending, htotal]
    exact h.calm

/-- Whenever `CheckIfDue` returns, nothing that is pending is due. -/
theorem AtCheck.checkIfDue (h : s.AtCheck) {handler : Nat → List HandlerCall} {fuel : Nat}
    {advanceClock b : Bool}
    (hs : Interrupt.checkIfDue handler fuel advanceClock s = some (some (b, s'))) : s'.Inv := by
  unfold Interrupt.checkIfDue at hs
  split at hs
  next =>
    split at hs
    next hpend =>
      cases hs
      apply h.noteCheck
      intro p hp
      rw [hpend] at hp
      contradiction
    next next rest hpend =>
      split at hs
      next hnot =>
        cases hs
        apply h.noteCheck
        intro p hp
        exact Int.lt_of_lt_of_le hnot.1 (h.ordered.front_le hpend hp)
      next =>
        obtain ⟨done, hloop, hs⟩ := Option.bind_eq_some_iff.mp hs
        obtain ⟨s₁, rfl, heq⟩ := Option.map_eq_some_iff.mp (Option.some.inj hs)
        cases heq
        obtain ⟨hin, hfront⟩ := h.inLoop hpend
        obtain ⟨h₁, hfront₁⟩ := hin.checkLoop fuel hfront hloop
        exact (h₁.inv hfront₁).congr rfl rfl rfl rfl ⟨rfl, rfl, rfl, rfl⟩
  next => contradiction

private theorem AtCheck.checkIfDue_ends (h : s.AtCheck) (handler : Nat → List HandlerCall)
    {fuel : Nat} (advanceClock : Bool) (hfuel : s.pending.length ≤ fuel) :
    Interrupt.checkIfDue handler fuel advanceClock s ≠ some none := by
  intro hnone
  unfold Interrupt.checkIfDue at hnone
  split at hnone
  next =>
    split at hnone
    next => simp at hnone
    next next rest hpend =>
      split at hnone
      next => simp at hnone
      next =>
        obtain ⟨done, hloop, hnone⟩ := Option.bind_eq_some_iff.mp hnone
        obtain rfl : done = none := Option.map_eq_none_iff.mp (Option.some.inj hnone)
        obtain ⟨hin, hfront⟩ := h.inLoop hpend
        refine hin.checkLoop_ends fuel hfront ?_ hloop
        have hpending := (advanceTo_pending (s := s) next).1
        have hcount : ({ (s.advanceTo next).noteCheck with inHandler := true } : Interrupt).due ≤
            (s.advanceTo next).pending.length := List.countP_le_length
        rw [hpending] at hcount
        omega
  next => contradiction

theorem Inv.new : Interrupt.new.Inv where
  ordered := ⟨List.Perm.refl _, List.Pairwise.nil, by simp [Interrupt.new], rfl⟩
  first := by
    intro r hr
    contradiction
  clock := by simp [Interrupt.new]
  calm := by simp [Interrupt.new]

theorem Inv.tick (h : s.Inv) : s.tick.AtCheck := by
  have ho := h.ordered
  have hticks := ho.ticks
  unfold Interrupt.tick
  split
  · refine h.atCheck ⟨ho.serials, ho.order, ?_, ?_⟩ rfl rfl rfl ?_
    · intro r hr
      have hpast := ho.past r hr
      show _ ≤ s.totalTicks + 10
      omega
    · show s.totalTicks + systemTick = s.idleTicks + (s.systemTicks + systemTick) + s.userTicks
      omega
    · show s.totalTicks ≤ s.totalTicks + 10
      omega
  · refine h.atCheck ⟨ho.serials, ho.order, ?_, ?_⟩ rfl rfl rfl ?_
    · intro r hr
      have hpast := ho.past r hr
      show _ ≤ s.totalTicks + 1
      omega
    · show s.totalTicks + userTick = s.idleTicks + s.systemTicks + (s.userTicks + userTick)
      omega
    · show s.totalTicks ≤ s.totalTicks + 1
      omega

theorem Inv.idling (h : s.Inv) : { s with status := .idleMode }.AtCheck :=
  have ho := h.ordered
  h.atCheck ⟨ho.serials, ho.order, ho.past, ho.ticks⟩ rfl rfl rfl (Int.le_refl _)

theorem Inv.oneTick (h : s.Inv) {handler : Nat → List HandlerCall} {fuel : Nat}
    (hs : Interrupt.oneTick handler fuel s = some (some s')) : s'.Inv := by
  obtain ⟨done, hcheck, hs⟩ := Option.bind_eq_some_iff.mp hs
  obtain ⟨⟨b, s₁⟩, rfl, rfl⟩ := Option.map_eq_some_iff.mp (Option.some.inj hs)
  have h₁ := h.tick.checkIfDue hcheck
  unfold endTick
  split
  · exact h₁.congr rfl rfl rfl rfl ⟨rfl, rfl, rfl, rfl⟩
  · exact h₁.congr rfl rfl rfl rfl ⟨rfl, rfl, rfl, rfl⟩

theorem Inv.exec (h : s.Inv) {fuel : Nat} {l : InterruptLabel}
    (hs : s.exec fuel l = some (some s')) : s'.Inv := by
  cases l with
  | schedule toCall fromNow type =>
    obtain ⟨s₁, hsched, heq⟩ := Option.map_eq_some_iff.mp hs
    cases heq
    have he := schedule_extends hsched
    obtain ⟨hpos, p, -, hwhen, rfl⟩ := schedule_eq_some hsched
    refine ⟨he.ordered h.ordered, h.first, h.clock, ?_⟩
    intro q hq
    rcases he.pending q hq with hq | hq
    · exact h.calm q hq
    · exact hq
  | oneTick handler => exact h.oneTick hs
  | setLevel now handler =>
    simp only [Interrupt.exec, Interrupt.setLevel] at hs
    split at hs
    · have hnow : { s with level := now }.Inv := h.congr rfl rfl rfl rfl ⟨rfl, rfl, rfl, rfl⟩
      split at hs
      · exact hnow.oneTick hs
      · obtain rfl := Option.some.inj (Option.some.inj hs)
        exact hnow
    · contradiction
  | idle handler =>
    obtain ⟨done, hcheck, hs⟩ := Option.bind_eq_some_iff.mp hs
    obtain ⟨⟨b, s₁⟩, rfl, rfl⟩ := Option.map_eq_some_iff.mp (Option.some.inj hs)
    have h₁ := h.idling.checkIfDue hcheck
    show (if b = true then { s₁ with status := .systemMode }
      else { s₁ with halted := true } : Interrupt).Inv
    split
    · exact h₁.congr rfl rfl rfl rfl ⟨rfl, rfl, rfl, rfl⟩
    · exact h₁.congr rfl rfl rfl rfl ⟨rfl, rfl, rfl, rfl⟩
  | setStatus st =>
    obtain rfl := Option.some.inj (Option.some.inj hs)
    exact h.congr rfl rfl rfl rfl ⟨rfl, rfl, rfl, rfl⟩

theorem inv_inductive : interruptSystem.Inductive Inv where
  init s hs := by
    obtain rfl : s = .new := hs
    exact .new
  step s l s' h hst := by
    obtain ⟨-, fuel, hs⟩ := hst
    exact h.exec hs

/-- The calls of `CheckIfDue` a state can lead to next: in `OneTick`, in the `OneTick` of
`SetLevel`, and in `Idle`. -/
inductive Calls (s : Interrupt) : Interrupt → Bool → Prop
  | oneTick : Calls s s.tick false
  | setLevel : Calls s { s with level := .intOn }.tick false
  | idle : Calls s { s with status := .idleMode } true

theorem Inv.calls (h : s.Inv) {s₁ : Interrupt} {advanceClock : Bool}
    (hc : s.Calls s₁ advanceClock) : s₁.AtCheck := by
  cases hc with
  | oneTick => exact h.tick
  | setLevel =>
    have hon : { s with level := .intOn }.Inv := h.congr rfl rfl rfl rfl ⟨rfl, rfl, rfl, rfl⟩
    exact hon.tick
  | idle => exact h.idling

end Interrupt

/-- Every interrupt scheduled was delivered once or is still pending and not due; the deliveries
came when they were due, by the first check that could see it, in order of time and then of
scheduling. -/
structure Interrupt.ExactDelivery (s : Interrupt) : Prop where
  once : ((s.fired.map fun r => r.interrupt.serial) ++
    s.pending.map PendingInterrupt.serial).Perm (List.range s.scheduled)
  firstDue : ∀ r ∈ s.fired, r.interrupt.when ≤ r.time ∧ s.checks[r.check]? = some r.time ∧
    ∀ c < r.check, ∀ t, s.checks[c]? = some t → t < r.interrupt.when
  order : s.fired.Pairwise fun r r' => r.interrupt.when < r'.interrupt.when ∨
    (r.interrupt.when = r'.interrupt.when ∧ r.interrupt.serial < r'.interrupt.serial)
  calm : ∀ p ∈ s.pending, s.totalTicks < p.when
  ticks : s.totalTicks = s.idleTicks + s.systemTicks + s.userTicks

private theorem Interrupt.Inv.exactDelivery {s : Interrupt} (h : s.Inv) : s.ExactDelivery where
  once := by
    have hserials := h.ordered.serials
    rw [Interrupt.history, List.map_append, List.map_map] at hserials
    exact hserials
  firstDue := h.first
  order := List.pairwise_map.mp (List.pairwise_append.mp h.ordered.order).1
  calm := h.calm
  ticks := h.ordered.ticks

/-- Interrupts are delivered exactly, in every run; and every `CheckIfDue`, whatever the handlers
it calls do, ends, and leaves nothing pending that is due. -/
theorem interrupt_delivery_exact {s : Interrupt} (hr : interruptSystem.Reachable s) :
    s.ExactDelivery ∧ ∀ s₁ advanceClock, s.Calls s₁ advanceClock →
      ∀ handler : Nat → List HandlerCall,
        (∀ fuel, s₁.pending.length ≤ fuel →
          Interrupt.checkIfDue handler fuel advanceClock s₁ ≠ some none) ∧
        ∀ fuel b s₂, Interrupt.checkIfDue handler fuel advanceClock s₁ = some (some (b, s₂)) →
          s₂.ExactDelivery := by
  have h := Interrupt.inv_inductive.of_reachable hr
  refine ⟨h.exactDelivery, ?_⟩
  intro s₁ advanceClock hc handler
  have hat := h.calls hc
  constructor
  · intro fuel hfuel
    exact hat.checkIfDue_ends handler advanceClock hfuel
  · intro fuel b s₂ hs
    exact (hat.checkIfDue hs).exactDelivery

def timerSet : Interrupt := (Interrupt.new.schedule 0 5 .timerInt).getD .new

def timerFired : Interrupt :=
  ((timerSet.oneTick (fun _ => [.schedule 0 100 .timerInt]) 1).getD none).getD timerSet

theorem interrupt_delivery_exact_timer :
    interruptSystem.Reachable timerFired ∧ timerFired.fired.length = 1 ∧
      timerFired.pending.length = 1 ∧ timerFired.ExactDelivery := by
  have hr₁ : interruptSystem.Reachable timerSet := by
    have hinit : interruptSystem.init Interrupt.new := rfl
    exact .step (l := .schedule 0 5 .timerInt) (.init hinit) ⟨rfl, 1, rfl⟩
  have hr₂ : interruptSystem.Reachable timerFired :=
    hr₁.step (l := .oneTick fun _ => [.schedule 0 100 .timerInt]) ⟨rfl, 1, rfl⟩
  exact ⟨hr₂, rfl, rfl, (interrupt_delivery_exact hr₂).1⟩

end Nachos

import Mathlib.Data.List.Basic
import Mathlib.Data.List.Nodup
import Mathlib.Logic.Function.Basic

/-!
# Round robin

A queue whose head takes a turn and goes to the back as long as it has turns left, and leaves the
queue when it has none. The turns come in rounds: in round `i` everybody who has more than `i`
turns takes one, in the order of the first round.
-/

namespace Framework

variable {α : Type*}

/-- The turns of the first `r` rounds when `t` has `k t` of them. -/
def rounds (k : α → Nat) (l : List α) (r : Nat) : List α :=
  (List.range r).flatMap fun i => l.filter fun t => i < k t

/-- The number of rounds. -/
def lastRound (k : α → Nat) (l : List α) : Nat := (l.map k).foldr max 0

section

variable {k : α → Nat} {l : List α}

theorem rounds_succ (r : Nat) :
    rounds k l (r + 1) = rounds k l r ++ l.filter fun t => r < k t := by
  simp [rounds, List.range_succ]

theorem rounds_add (r d : Nat) : rounds k l r <+: rounds k l (r + d) := by
  induction d with
  | zero => exact List.prefix_rfl
  | succ d ih =>
    rw [← Nat.add_assoc, rounds_succ]
    exact ih.trans (List.prefix_append _ _)

theorem rounds_mono {r m : Nat} (h : r ≤ m) : rounds k l r <+: rounds k l m := by
  obtain ⟨d, rfl⟩ := Nat.exists_eq_add_of_le h
  exact rounds_add r d

/-- Rounds in which nobody has a turn. -/
theorem rounds_of_le {r m : Nat} (hk : ∀ t ∈ l, k t ≤ r) (h : r ≤ m) :
    rounds k l m = rounds k l r := by
  obtain ⟨d, rfl⟩ := Nat.exists_eq_add_of_le h
  induction d with
  | zero => rfl
  | succ d ih =>
    have hempty : (l.filter fun t => r + d < k t) = [] := by
      apply List.filter_eq_nil_iff.mpr
      intro t ht
      have := hk t ht
      simp only [decide_eq_true_eq]
      omega
    rw [← Nat.add_assoc, rounds_succ, hempty, List.append_nil, ih (by omega)]

theorem le_lastRound {t : α} (ht : t ∈ l) : k t ≤ lastRound k l := by
  induction l with
  | nil => cases ht
  | cons u l ih =>
    rcases List.mem_cons.mp ht with rfl | ht
    · exact Nat.le_max_left _ _
    · exact Nat.le_trans (ih ht) (Nat.le_max_right _ _)

end

/-- Round `r` is under way: those of `gone` have had their turn in it, those of `rest` have not. -/
inductive RoundRobin (l : List α) (k : α → Nat) (queue : List α) (left : α → Nat)
    (turns : List α) : Prop
  | mk (r : Nat) (gone rest : List α) (hsplit : (l.filter fun t => r ≤ k t) = gone ++ rest)
      (hqueue : queue = rest ++ gone.filter fun t => r < k t)
      (hrest : ∀ t ∈ rest, left t + r = k t)
      (hgone : ∀ t ∈ gone, r < k t → left t + (r + 1) = k t)
      (hturns : turns = rounds k l r ++ gone.filter fun t => r < k t)

namespace RoundRobin

variable {l queue turns : List α} {k left left' : α → Nat} {t : α}

theorem init (l : List α) (k : α → Nat) : RoundRobin l k l k [] := by
  refine .mk 0 [] l ?_ ?_ ?_ ?_ rfl
  · simp
  · simp
  · exact fun _ _ => rfl
  · intro t ht
    cases ht

/-- Whoever is at the head has not had a turn in the round. -/
theorem head (h : RoundRobin l k (t :: queue) left turns) :
    ∃ r gone rest, (l.filter fun t => r ≤ k t) = gone ++ t :: rest ∧
      queue = (rest ++ gone.filter fun t => r < k t) ∧
      (∀ u ∈ t :: rest, left u + r = k u) ∧
      (∀ u ∈ gone, r < k u → left u + (r + 1) = k u) ∧
      turns = rounds k l r ++ gone.filter fun t => r < k t := by
  obtain ⟨r, gone, rest, hsplit, hqueue, hrest, hgone, hturns⟩ := h
  cases rest with
  | cons u rest =>
    obtain ⟨rfl, htail⟩ := List.cons.inj hqueue
    exact ⟨r, gone, rest, hsplit, htail, hrest, hgone, hturns⟩
  | nil =>
    -- the round is over, and those who have another turn are queued for the next one
    rw [List.append_nil] at hsplit
    rw [List.nil_append] at hqueue
    have hnext : (l.filter fun t => r + 1 ≤ k t) = gone.filter fun t => r < k t := by
      rw [← hsplit, List.filter_filter]
      apply List.filter_congr
      intro u _
      simp only [← Bool.decide_and, decide_eq_decide]
      omega
    refine ⟨r + 1, [], queue, ?_, ?_, ?_, ?_, ?_⟩
    · rw [hnext, ← hqueue]
      rfl
    · simp
    · intro u hu
      rw [hqueue, List.mem_filter] at hu
      exact hgone u hu.1 (by simpa using hu.2)
    · intro u hu
      cases hu
    · rw [rounds_succ, hturns]
      simp only [List.filter_nil, List.append_nil]
      rw [← hnext]
      rfl

theorem mem_of_queue (h : RoundRobin l k queue left turns) (ht : t ∈ queue) : t ∈ l := by
  obtain ⟨r, gone, rest, hsplit, hqueue, -, -, -⟩ := h
  have hmem : t ∈ gone ++ rest := by
    rw [hqueue] at ht
    rcases List.mem_append.mp ht with ht | ht
    · exact List.mem_append_right _ ht
    · exact List.mem_append_left _ (List.mem_filter.mp ht).1
  rw [← hsplit] at hmem
  exact (List.mem_filter.mp hmem).1

/-- Only the counts of those in the list matter. -/
theorem congr (h : RoundRobin l k queue left turns) (hleft : ∀ t ∈ l, left' t = left t) :
    RoundRobin l k queue left' turns := by
  obtain ⟨r, gone, rest, hsplit, hqueue, hrest, hgone, hturns⟩ := h
  have hmem {u : α} (hu : u ∈ gone ++ rest) : u ∈ l := by
    rw [← hsplit] at hu
    exact (List.mem_filter.mp hu).1
  refine .mk r gone rest hsplit hqueue ?_ ?_ hturns
  · intro u hu
    rw [hleft u (hmem (List.mem_append_right _ hu))]
    exact hrest u hu
  · intro u hu
    rw [hleft u (hmem (List.mem_append_left _ hu))]
    exact hgone u hu

/-- The head takes a turn and goes to the back. -/
theorem turn [DecidableEq α] (hl : l.Nodup) (h : RoundRobin l k (t :: queue) left turns) (ht : left t ≠ 0) :
    RoundRobin l k (queue ++ [t]) (Function.update left t (left t - 1)) (turns ++ [t]) := by
  obtain ⟨r, gone, rest, hsplit, hqueue, hrest, hgone, hturns⟩ := h.head
  have hnodup : (gone ++ t :: rest).Nodup := hsplit ▸ hl.filter _
  have hne {u : α} (hu : u ∈ gone ∨ u ∈ rest) : u ≠ t := by
    rintro rfl
    have hdisjoint := List.nodup_append.mp hnodup
    rcases hu with hu | hu
    · exact hdisjoint.2.2 u hu u (List.mem_cons_self ..) rfl
    · exact (List.nodup_cons.mp hdisjoint.2.1).1 hu
  have hleft := hrest t (List.mem_cons_self ..)
  have hfilter : (gone ++ [t]).filter (fun t => r < k t) = (gone.filter fun t => r < k t) ++ [t] := by
    rw [List.filter_append, List.filter_cons_of_pos (by simp only [decide_eq_true_eq]; omega)]
    rfl
  refine .mk r (gone ++ [t]) rest ?_ ?_ ?_ ?_ ?_
  · rw [hsplit, List.append_assoc]
    rfl
  · rw [hfilter, hqueue, List.append_assoc]
  · intro u hu
    rw [Function.update_of_ne (hne (.inr hu))]
    exact hrest u (List.mem_cons_of_mem _ hu)
  · intro u hu hk
    rcases List.mem_append.mp hu with hu | hu
    · rw [Function.update_of_ne (hne (.inl hu))]
      exact hgone u hu hk
    · rw [List.mem_singleton.mp hu, Function.update_self]
      omega
  · rw [hfilter, hturns, List.append_assoc]

/-- The head has no turn left and leaves. -/
theorem leave (h : RoundRobin l k (t :: queue) left turns) (ht : left t = 0) :
    RoundRobin l k queue left turns := by
  obtain ⟨r, gone, rest, hsplit, hqueue, hrest, hgone, hturns⟩ := h.head
  have hleft := hrest t (List.mem_cons_self ..)
  have hfilter : (gone ++ [t]).filter (fun t => r < k t) = gone.filter fun t => r < k t := by
    rw [List.filter_append, List.filter_cons_of_neg (by simp only [decide_eq_true_eq]; omega)]
    exact List.append_nil _
  refine .mk r (gone ++ [t]) rest ?_ ?_ ?_ ?_ ?_
  · rw [hsplit, List.append_assoc]
    rfl
  · rw [hfilter, hqueue]
  · exact fun u hu => hrest u (List.mem_cons_of_mem _ hu)
  · intro u hu hk
    rcases List.mem_append.mp hu with hu | hu
    · exact hgone u hu hk
    · rw [List.mem_singleton.mp hu] at hk
      omega
  · rw [hfilter, hturns]

/-- The turns so far are a beginning of the rounds. -/
theorem turns_so_far (h : RoundRobin l k queue left turns) :
    turns <+: rounds k l (lastRound k l) := by
  obtain ⟨r, gone, rest, hsplit, hqueue, hrest, hgone, hturns⟩ := h
  have hround : (l.filter fun t => r < k t) = (gone ++ rest).filter fun t => r < k t := by
    rw [← hsplit, List.filter_filter]
    apply List.filter_congr
    intro u _
    simp only [← Bool.decide_and, decide_eq_decide]
    omega
  have hnext : turns <+: rounds k l (r + 1) := by
    rw [hturns, rounds_succ, hround, List.filter_append, ← List.append_assoc]
    exact List.prefix_append _ _
  by_cases hr : r + 1 ≤ lastRound k l
  · exact hnext.trans (rounds_mono hr)
  · rw [← rounds_of_le (fun t ht => le_lastRound ht) (Nat.le_of_not_le hr)]
    exact hnext

/-- When the queue is empty, everybody has had all turns. -/
theorem turns_complete (h : RoundRobin l k [] left turns) :
    turns = rounds k l (lastRound k l) := by
  obtain ⟨r, gone, rest, hsplit, hqueue, hrest, hgone, hturns⟩ := h
  obtain ⟨rfl, hempty⟩ := List.append_eq_nil_iff.mp hqueue.symm
  rw [List.append_nil] at hsplit
  have hbound : ∀ t ∈ l, k t ≤ r := by
    intro t ht
    by_contra hlt
    have hgone : t ∈ gone := by
      rw [← hsplit, List.mem_filter]
      exact ⟨ht, by simp only [decide_eq_true_eq]; omega⟩
    have := List.filter_eq_nil_iff.mp hempty t hgone
    simp only [decide_eq_true_eq] at this
    omega
  rw [hturns, hempty, List.append_nil]
  by_cases hr : r ≤ lastRound k l
  · exact (rounds_of_le hbound hr).symm
  · exact rounds_of_le (fun t ht => le_lastRound ht) (Nat.le_of_not_le hr)

end RoundRobin

end Framework

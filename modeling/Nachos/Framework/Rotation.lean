import Mathlib.Order.Bounds.Defs
import Mathlib.Algebra.Group.Int.Defs
import Mathlib.Tactic.Linarith

/-!
# Slots that come round

Time is cut into slots of `r` ticks, and slot `k` is for the offset `k` modulo `n`. The first slot
for an offset after a given time, and what comes before it, are found by rounding up and by a
modular distance.
-/

namespace Framework

variable {r n : Int}

/-- The first multiple of `r` that is not before `t`. -/
def roundUp (r t : Int) : Int := t + -t % r

/-- The first slot for the offset of `s` that is not before slot `m`. -/
def firstSlot (n s m : Int) : Int := m + (s - m) % n

theorem roundUp_le_iff (hr : 0 < r) (t k : Int) : roundUp r t ≤ r * k ↔ t ≤ r * k := by
  have hdiv := Int.emod_add_mul_ediv (-t) r
  have hpos := Int.emod_nonneg (-t) hr.ne'
  have hlt := Int.emod_lt_of_pos (-t) hr
  have hup : roundUp r t = r * -(-t / r) := by
    rw [roundUp, Int.mul_neg]
    omega
  constructor
  · intro h
    rw [roundUp] at h
    omega
  · intro h
    rw [hup]
    apply Int.mul_le_mul_of_nonneg_left _ hr.le
    by_contra hgt
    have hnext : r * (k + 1) ≤ r * -(-t / r) := Int.mul_le_mul_of_nonneg_left (by omega) hr.le
    rw [Int.mul_add, Int.mul_one, ← hup, roundUp] at hnext
    omega

theorem dvd_roundUp (r t : Int) : r ∣ roundUp r t := by
  refine ⟨-(-t / r), ?_⟩
  have hdiv := Int.emod_add_mul_ediv (-t) r
  rw [roundUp, Int.mul_neg]
  omega

theorem le_roundUp (hr : 0 < r) (t : Int) : t ≤ roundUp r t := by
  have hpos := Int.emod_nonneg (-t) hr.ne'
  rw [roundUp]
  omega

theorem isLeast_roundUp (hr : 0 < r) (t : Int) : IsLeast {b | r ∣ b ∧ t ≤ b} (roundUp r t) := by
  refine ⟨⟨dvd_roundUp r t, le_roundUp hr t⟩, ?_⟩
  rintro b ⟨⟨k, rfl⟩, hb⟩
  exact (roundUp_le_iff hr t k).mpr hb

theorem isLeast_firstSlot (hn : 0 < n) (s m : Int) :
    IsLeast {k | k % n = s % n ∧ m ≤ k} (firstSlot n s m) := by
  have hpos := Int.emod_nonneg (s - m) hn.ne'
  constructor
  · refine ⟨?_, ?_⟩
    · rw [firstSlot, Int.add_emod, Int.emod_emod, ← Int.add_emod]
      congr 1
      omega
    · rw [firstSlot]
      omega
  · rintro k ⟨hk, hm⟩
    have hdist : (k - m) % n = (s - m) % n := by rw [Int.sub_emod, hk, ← Int.sub_emod]
    have hdiv := Int.emod_add_mul_ediv (k - m) n
    have hquot : 0 ≤ n * ((k - m) / n) :=
      Int.mul_nonneg hn.le (Int.ediv_nonneg (by omega) hn.le)
    rw [firstSlot, ← hdist]
    omega

/-- A whole slot for the offset of `s` lies between two times. -/
def WholeSlot (r n s a b : Int) : Prop := ∃ k, k % n = s % n ∧ a ≤ r * k ∧ r * (k + 1) ≤ b

/-- Between two slot boundaries there is one for an offset if the first one ends in time. -/
theorem wholeSlot_iff (hr : 0 < r) (hn : 0 < n) (s m b : Int) :
    WholeSlot r n s (r * m) b ↔ r * (firstSlot n s m + 1) ≤ b := by
  have hfirst := isLeast_firstSlot hn s m
  constructor
  · rintro ⟨k, hk, hm, hb⟩
    have hmk : m ≤ k := Int.le_of_mul_le_mul_left hm hr
    have hle : firstSlot n s m ≤ k := hfirst.2 ⟨hk, hmk⟩
    exact (Int.mul_le_mul_of_nonneg_left (by omega) hr.le).trans hb
  · intro hb
    exact ⟨_, hfirst.1.1, Int.mul_le_mul_of_nonneg_left hfirst.1.2 hr.le, hb⟩

/-- Where the slots begin, the time before the first boundary does not matter. -/
theorem wholeSlot_roundUp (hr : 0 < r) (s t b : Int) :
    WholeSlot r n s (roundUp r t) b ↔ WholeSlot r n s t b := by
  simp only [WholeSlot, roundUp_le_iff hr]

/-- The first boundary by which a whole slot for an offset has passed since `t`. -/
theorem isLeast_wholeSlot (hr : 0 < r) (hn : 0 < n) (s : Int) {t m : Int}
    (hm : roundUp r t = r * m) :
    IsLeast {b | r ∣ b ∧ WholeSlot r n s t b} (r * (firstSlot n s m + 1)) := by
  have hslot (b : Int) : WholeSlot r n s t b ↔ r * (firstSlot n s m + 1) ≤ b := by
    rw [← wholeSlot_roundUp hr, hm, wholeSlot_iff hr hn]
  constructor
  · exact ⟨Int.dvd_mul_right _ _, (hslot _).mpr (Int.le_refl _)⟩
  · rintro b ⟨-, hb⟩
    exact (hslot b).mp hb

end Framework

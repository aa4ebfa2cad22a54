import Mathlib.Order.Basic
import Mathlib.Data.Set.Basic

/-!
# Keys that stand for times

A replacement policy keeps a key for every slot instead of the time of its last use. The slot
with the least key is the least recently used one as long as the keys grow with the times. A use
of a slot keeps it so exactly when the used slot gets the greatest key.
-/

namespace Framework

variable {α τ κ : Type*} [LinearOrder τ] [LinearOrder κ] {s : Set α} {time time' : α → τ}
  {key key' : α → κ}

/-- On the slots in `s` the keys grow with the times. -/
def TracksTime (s : Set α) (time : α → τ) (key : α → κ) : Prop :=
  ∀ p ∈ s, ∀ q ∈ s, time p < time q → key p < key q

namespace TracksTime

theorem congr (h : TracksTime s time key) (htime : ∀ p ∈ s, time' p = time p)
    (hkey : ∀ p ∈ s, key' p = key p) : TracksTime s time' key' := by
  intro p hp q hq hlt
  rw [htime p hp, htime q hq] at hlt
  rw [hkey p hp, hkey q hq]
  exact h p hp q hq hlt

theorem oldest (h : TracksTime s time key) {p : α} (hp : p ∈ s) (hmin : ∀ q ∈ s, key p ≤ key q)
    {q : α} (hq : q ∈ s) : time p ≤ time q := by
  by_contra hlt
  have hkey := h q hq p hp (not_le.mp hlt)
  exact absurd (hmin q hq) (not_le.mpr hkey)

/-- Slot `p` is used, at a time after all the others. -/
theorem renew_iff (h : TracksTime s time key) {p : α} (hp : p ∈ s)
    (htime : ∀ q ∈ s, q ≠ p → time' q = time q) (hkey : ∀ q ∈ s, q ≠ p → key' q = key q)
    (hnow : ∀ q ∈ s, q ≠ p → time q < time' p) :
    TracksTime s time' key' ↔ ∀ q ∈ s, q ≠ p → key q < key' p := by
  constructor
  · intro h' q hq hne
    rw [← hkey q hq hne]
    apply h' q hq p hp
    rw [htime q hq hne]
    exact hnow q hq hne
  · intro hmax q hq r hr hlt
    by_cases hqp : q = p
    · -- nothing is later than the use of `p`
      rw [hqp] at hlt
      by_cases hrp : r = p
      · rw [hrp] at hlt
        exact absurd hlt (lt_irrefl _)
      · rw [htime r hr hrp] at hlt
        exact absurd hlt (not_lt.mpr (hnow r hr hrp).le)
    · rw [hkey q hq hqp]
      by_cases hrp : r = p
      · rw [hrp]
        exact hmax q hq hqp
      · rw [hkey r hr hrp]
        rw [htime q hq hqp, htime r hr hrp] at hlt
        exact h q hq r hr hlt

end TracksTime

end Framework

import Mathlib.Logic.Function.Basic
import Mathlib.Tactic.Common

/-!
# Partial matchings

A table from keys to slots and an inverted table from slots to keys that agree with each
other. A slot may be taken from its key and given to another one: both tables change in one
place, and the key that had the slot loses it.
-/

namespace Framework

variable {α β : Type*}

/-- Each table is the partial inverse of the other. -/
def Agree (slot : α → Option β) (key : β → Option α) : Prop :=
  ∀ a b, slot a = some b ↔ key b = some a

namespace Agree

variable {slot slot' : α → Option β} {key key' : β → Option α}

theorem empty : Agree (fun _ : α => (none : Option β)) (fun _ => none) := by
  intro a b
  simp

/-- No slot has two keys. -/
theorem unique (h : Agree slot key) {a a' : α} {b : β} (ha : slot a = some b)
    (ha' : slot a' = some b) : a = a' := by
  have hb := (h a b).mp ha
  rw [(h a' b).mp ha'] at hb
  exact (Option.some.inj hb).symm

theorem congr (h : Agree slot key) (hslot : ∀ a, slot' a = slot a) (hkey : ∀ b, key' b = key b) :
    Agree slot' key' := by
  intro a b
  rw [hslot, hkey]
  exact h a b

variable [DecidableEq α] [DecidableEq β]

/-- Slot `b` goes to `a`, which had none; its old key, if any, is left without a slot. -/
theorem assign (h : Agree slot key) {a : α} {b : β} (ha : slot a = none)
    (hslot : ∀ x, slot' x = if x = a then some b else if key b = some x then none else slot x)
    (hkey : ∀ y, key' y = if y = b then some a else key y) : Agree slot' key' := by
  intro x y
  rw [hslot, hkey]
  by_cases hx : x = a
  · subst hx
    by_cases hy : y = b
    · simp [hy]
    · have hne : key y ≠ some x := by
        intro hk
        rw [(h x y).mpr hk] at ha
        contradiction
      simp [hy, Ne.symm hy, hne]
  · by_cases hy : y = b
    · subst hy
      simp only [hx, if_false, if_true, Option.some.injEq, Ne.symm hx, iff_false]
      split
      next => simp
      next hk => exact fun hs => hk ((h x y).mp hs)
    · simp only [hx, hy, if_false]
      split
      next hk =>
        have hb := (h x b).mpr hk
        constructor
        · intro hs
          contradiction
        · intro hk'
          rw [(h x y).mpr hk'] at hb
          exact absurd (Option.some.inj hb) hy
      next => exact h x y

end Agree
end Framework

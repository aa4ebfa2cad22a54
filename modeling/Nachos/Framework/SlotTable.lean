import Mathlib.Logic.Function.Basic
import Mathlib.Tactic.Common

/-!
# Tables of slots as maps

A table of `size` slots is a bounded map whose keys are compared by an equivalence. What the
map holds is said by its history: for each key, the last event that concerns it.
-/

namespace Framework

variable {K V : Type*}

/-- What has happened to a map. -/
inductive MapEvent (K V : Type*)
  | added (key : K) (value : V)
  | removed (key : K)

namespace MapEvent

def key : MapEvent K V → K
  | added k _ => k
  | removed k => k

def value : MapEvent K V → Option V
  | added _ v => some v
  | removed _ => none

end MapEvent

/-- The value of the last addition for a key, unless it has been removed since. The last event
comes first. -/
def latest (agree : K → K → Prop) [DecidableRel agree] : List (MapEvent K V) → K → Option V
  | [], _ => none
  | e :: events, k => if agree e.key k then e.value else latest agree events k

/-- A slot is free or holds a key with its value. -/
abbrev Slots (K V : Type*) := Nat → Option (K × V)

namespace Slots

/-- The table holds exactly what its history says, each key in one slot. -/
structure Holds (agree : K → K → Prop) [DecidableRel agree] (size : Nat) (t : Slots K V)
    (events : List (MapEvent K V)) : Prop where
  unique : ∀ {i j k k' v v'}, i < size → j < size → t i = some (k, v) → t j = some (k', v') →
    agree k k' → i = j
  sound : ∀ {i k v}, i < size → t i = some (k, v) → latest agree events k = some v
  complete : ∀ {k v}, latest agree events k = some v → ∃ i < size, ∃ k', t i = some (k', v) ∧
    agree k' k

variable {agree : K → K → Prop} [DecidableRel agree] {size : Nat} {t t' : Slots K V}
  {events : List (MapEvent K V)}

theorem latest_congr (he : Equivalence agree) {k k' : K} (hk : agree k k') :
    latest agree events k = latest agree events k' := by
  induction events with
  | nil => rfl
  | cons e events ih =>
    have hiff : agree e.key k ↔ agree e.key k' :=
      ⟨fun h => he.trans h hk, fun h => he.trans h (he.symm hk)⟩
    simp only [latest, hiff, ih]

namespace Holds

theorem empty (hfree : ∀ i < size, t i = none) : Holds agree size t [] where
  unique hi _ ht := by
    rw [hfree _ hi] at ht
    cases ht
  sound hi ht := by
    rw [hfree _ hi] at ht
    cases ht
  complete h := by cases h

theorem congr (h : Holds agree size t events) (hsame : ∀ i < size, t' i = t i) :
    Holds agree size t' events where
  unique hi hj hti htj := by
    rw [hsame _ hi] at hti
    rw [hsame _ hj] at htj
    exact h.unique hi hj hti htj
  sound hi ht := by
    rw [hsame _ hi] at ht
    exact h.sound hi ht
  complete hlast := by
    obtain ⟨i, hi, k', ht, hk⟩ := h.complete hlast
    exact ⟨i, hi, k', (hsame i hi).trans ht, hk⟩

/-- A key that no slot holds goes to a free slot. -/
theorem add (he : Equivalence agree) (h : Holds agree size t events) {i : Nat} (hi : i < size)
    (hfree : t i = none) {k k₀ : K} (v : V) (hkey : agree k₀ k)
    (hnew : ∀ j < size, ∀ k' v', t j = some (k', v') → ¬ agree k' k) :
    Holds agree size (Function.update t i (some (k₀, v))) (.added k v :: events) where
  unique := by
    intro a b ka kb va vb ha hb hta htb hab
    by_cases hai : a = i <;> by_cases hbi : b = i
    · rw [hai, hbi]
    · subst hai
      rw [Function.update_self, Option.some.injEq, Prod.mk.injEq] at hta
      rw [Function.update_of_ne hbi] at htb
      exact absurd (he.trans (he.symm hab) (hta.1 ▸ hkey)) (hnew b hb kb vb htb)
    · subst hbi
      rw [Function.update_self, Option.some.injEq, Prod.mk.injEq] at htb
      rw [Function.update_of_ne hai] at hta
      exact absurd (he.trans hab (htb.1 ▸ hkey)) (hnew a ha ka va hta)
    · rw [Function.update_of_ne hai] at hta
      rw [Function.update_of_ne hbi] at htb
      exact h.unique ha hb hta htb hab
  sound := by
    intro j k' v' hj ht
    by_cases hji : j = i
    · subst hji
      rw [Function.update_self, Option.some.injEq, Prod.mk.injEq] at ht
      obtain ⟨rfl, rfl⟩ := ht
      exact if_pos (he.symm hkey)
    · rw [Function.update_of_ne hji] at ht
      have hne : ¬ agree k k' := fun hk => hnew j hj k' v' ht (he.symm hk)
      rw [latest, MapEvent.key, if_neg hne]
      exact h.sound hj ht
  complete := by
    intro k' v' hlast
    rw [latest, MapEvent.key] at hlast
    split at hlast
    next hk =>
      obtain rfl : v = v' := Option.some.inj hlast
      exact ⟨i, hi, k₀, Function.update_self .., he.trans hkey hk⟩
    next =>
      obtain ⟨j, hj, k'', ht, hk⟩ := h.complete hlast
      have hji : j ≠ i := by
        rintro rfl
        rw [hfree] at ht
        cases ht
      exact ⟨j, hj, k'', (Function.update_of_ne hji ..).trans ht, hk⟩

/-- A slot is freed for the key it holds. -/
theorem remove (he : Equivalence agree) (h : Holds agree size t events) {i : Nat} (hi : i < size)
    {k k₀ : K} {v₀ : V} (ht : t i = some (k₀, v₀)) (hkey : agree k₀ k) :
    Holds agree size (Function.update t i none) (.removed k :: events) := by
  have hold : ∀ {j k' v'}, Function.update t i none j = some (k', v') →
      j ≠ i ∧ t j = some (k', v') := by
    intro j k' v' hj
    by_cases hji : j = i
    · rw [hji, Function.update_self] at hj
      cases hj
    · rw [Function.update_of_ne hji] at hj
      exact ⟨hji, hj⟩
  constructor
  · intro a b ka kb va vb ha hb hta htb hab
    exact h.unique ha hb (hold hta).2 (hold htb).2 hab
  · intro j k' v' hj htj
    obtain ⟨hji, htj⟩ := hold htj
    have hne : ¬ agree k k' := fun hk =>
      hji (h.unique hj hi htj ht (he.trans (he.symm hk) (he.symm hkey)))
    rw [latest, MapEvent.key, if_neg hne]
    exact h.sound hj htj
  · intro k' v' hlast
    rw [latest, MapEvent.key] at hlast
    split at hlast
    next => cases hlast
    next hne =>
      obtain ⟨j, hj, k'', htj, hk⟩ := h.complete hlast
      have hji : j ≠ i := by
        rintro rfl
        rw [ht, Option.some.injEq, Prod.mk.injEq] at htj
        exact hne (he.trans (he.symm hkey) (htj.1 ▸ hk))
      exact ⟨j, hj, k'', (Function.update_of_ne hji ..).trans htj, hk⟩

/-- A slot for the key gives its value. -/
theorem latest_of_slot (he : Equivalence agree) (h : Holds agree size t events) {i : Nat}
    (hi : i < size) {k k' : K} {v : V} (ht : t i = some (k', v)) (hk : agree k' k) :
    latest agree events k = some v := by
  rw [← latest_congr he hk]
  exact h.sound hi ht

/-- Where no slot holds the key the history has no value for it. -/
theorem latest_of_absent (h : Holds agree size t events) {k : K}
    (hnone : ∀ i < size, ∀ k' v, t i = some (k', v) → ¬ agree k' k) :
    latest agree events k = none := by
  cases hlast : latest agree events k with
  | none => rfl
  | some v =>
    obtain ⟨i, hi, k', ht, hk⟩ := h.complete hlast
    exact absurd hk (hnone i hi k' v ht)

end Holds
end Slots
end Framework

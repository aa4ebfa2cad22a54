import Mathlib.Algebra.BigOperators.Group.Finset.Piecewise
import Mathlib.Algebra.Order.BigOperators.Group.Finset
import Nachos.Framework.Refinement

/-!
# Runs that end

A quantity that every step of a kind makes smaller bounds the number of such steps in a row. Where
many threads take turns the quantity is a sum of what each of them has left to do.
-/

namespace Framework

namespace System

variable {σ ι : Type*} {S : System σ ι} {P : σ → Prop} {K : ι → Prop} {μ : σ → Nat}

theorem Trace.length_le (hkept : ∀ s l s', P s → K l → S.step s l s' → P s' ∧ μ s' < μ s)
    {s t : σ} {ls : List ι} (h : S.Trace s ls t) (hs : P s) (hls : ∀ l ∈ ls, K l) :
    P t ∧ ls.length + μ t ≤ μ s := by
  induction h with
  | nil => exact ⟨hs, by simp⟩
  | @step t t' ls l _ hstep ih =>
    obtain ⟨ht, hle⟩ := ih fun l' hl' => hls l' (List.mem_append_left _ hl')
    obtain ⟨ht', hlt⟩ := hkept t l t' ht (hls l (List.mem_concat_self)) hstep
    refine ⟨ht', ?_⟩
    rw [List.length_append, List.length_singleton]
    omega

end System

/-- One thread has got `y` more to do. -/
theorem sum_le_add {n a y : Nat} {w w' : Nat → Nat}
    (h : ∀ u, w' u ≤ w u + if u = a then y else 0) :
    ∑ u ∈ Finset.range n, w' u ≤ ∑ u ∈ Finset.range n, w u + y := by
  have hsum := Finset.sum_le_sum fun u (_ : u ∈ Finset.range n) => h u
  rw [Finset.sum_add_distrib, Finset.sum_ite_eq'] at hsum
  refine hsum.trans (Nat.add_le_add_left ?_ _)
  split
  · exact le_refl y
  · exact Nat.zero_le y

/-- One thread has done `x` and another has got `y` more to do. -/
theorem sum_shift {n t a x y : Nat} {w w' : Nat → Nat} (ht : t < n)
    (h : ∀ u, w' u + (if u = t then x else 0) ≤ w u + if u = a then y else 0) :
    ∑ u ∈ Finset.range n, w' u + x ≤ ∑ u ∈ Finset.range n, w u + y := by
  have hsum := sum_le_add (n := n) h
  rw [Finset.sum_add_distrib, Finset.sum_ite_eq', if_pos (Finset.mem_range.mpr ht)] at hsum
  exact hsum

end Framework

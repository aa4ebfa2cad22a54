import Mathlib.Data.List.Nodup
import Mathlib.Logic.Function.Basic
import Mathlib.Tactic.Common

/-!
# Exact allocation maps

Owners hold lists of resources and a map marks the resources in use. The map is exact when no
resource is held twice and the marked ones are those that some owner holds.
-/

namespace Framework

variable {φ α : Type*}

structure Allocation (own : φ → List α) (marked : α → Prop) : Prop where
  nodup : ∀ f, (own f).Nodup
  disjoint : ∀ f g, f ≠ g → ∀ n ∈ own f, n ∉ own g
  exact : ∀ n, marked n ↔ ∃ f, n ∈ own f

namespace Allocation

variable {own own' : φ → List α} {marked marked' : α → Prop}

theorem empty : Allocation (fun _ : φ => ([] : List α)) (fun _ => False) := by
  constructor
  case nodup =>
    intro f
    exact List.nodup_nil
  case disjoint =>
    intro f g _ n hn
    cases hn
  case exact =>
    intro n
    simp

theorem congr (h : Allocation own marked) (ho : ∀ f, own' f = own f)
    (hm : ∀ n, marked' n ↔ marked n) : Allocation own' marked' := by
  obtain rfl : own' = own := funext ho
  obtain rfl : marked' = marked := funext fun n => propext (hm n)
  exact h

theorem mem_unique (h : Allocation own marked) {f g : φ} {n : α} (hf : n ∈ own f)
    (hg : n ∈ own g) : f = g := by
  by_contra hne
  exact h.disjoint f g hne n hf hg

/-- An owner that holds nothing is given resources that are not in use. -/
theorem give [DecidableEq φ] (h : Allocation own marked) {f : φ} {l : List α}
    (hnil : own f = []) (hl : l.Nodup) (hfree : ∀ n ∈ l, ¬ marked n) :
    Allocation (Function.update own f l) (fun n => marked n ∨ n ∈ l) := by
  have hother : ∀ g, g ≠ f → Function.update own f l g = own g := by
    intro g hg
    rw [Function.update_of_ne hg]
  have hfresh : ∀ g, ∀ n ∈ l, n ∉ own g := by
    intro g n hn hg
    exact hfree n hn ((h.exact n).mpr ⟨g, hg⟩)
  constructor
  case nodup =>
    intro g
    by_cases hg : g = f
    · subst hg
      rwa [Function.update_self]
    · rw [hother g hg]
      exact h.nodup g
  case disjoint =>
    intro g k hgk n hn
    by_cases hg : g = f
    · subst hg
      rw [Function.update_self] at hn
      rw [hother k (Ne.symm hgk)]
      exact hfresh k n hn
    · rw [hother g hg] at hn
      by_cases hk : k = f
      · subst hk
        rw [Function.update_self]
        intro hl'
        exact hfresh g n hl' hn
      · rw [hother k hk]
        exact h.disjoint g k hgk n hn
  case exact =>
    intro n
    constructor
    · rintro (hm | hn)
      · obtain ⟨g, hg⟩ := (h.exact n).mp hm
        have hgf : g ≠ f := by
          rintro rfl
          simp [hnil] at hg
        exact ⟨g, by rwa [hother g hgf]⟩
      · exact ⟨f, by rwa [Function.update_self]⟩
    · rintro ⟨g, hg⟩
      by_cases hgf : g = f
      · subst hgf
        rw [Function.update_self] at hg
        exact .inr hg
      · rw [hother g hgf] at hg
        exact .inl ((h.exact n).mpr ⟨g, hg⟩)

/-- An owner gives everything it holds back. -/
theorem release [DecidableEq φ] (h : Allocation own marked) (f : φ) :
    Allocation (Function.update own f []) (fun n => marked n ∧ n ∉ own f) := by
  have hsub : ∀ g n, n ∈ Function.update own f [] g → g ≠ f ∧ n ∈ own g := by
    intro g n hn
    by_cases hg : g = f
    · subst hg
      simp at hn
    · rw [Function.update_of_ne hg] at hn
      exact ⟨hg, hn⟩
  constructor
  case nodup =>
    intro g
    by_cases hg : g = f
    · subst hg
      simp
    · rw [Function.update_of_ne hg]
      exact h.nodup g
  case disjoint =>
    intro g k hgk n hn hk
    exact h.disjoint g k hgk n (hsub g n hn).2 (hsub k n hk).2
  case exact =>
    intro n
    constructor
    · rintro ⟨hm, hn⟩
      obtain ⟨g, hg⟩ := (h.exact n).mp hm
      have hgf : g ≠ f := by
        rintro rfl
        exact hn hg
      exact ⟨g, by rwa [Function.update_of_ne hgf]⟩
    · rintro ⟨g, hg⟩
      obtain ⟨hgf, hn⟩ := hsub g n hg
      exact ⟨(h.exact n).mpr ⟨g, hn⟩, h.disjoint g f hgf n hn⟩

/-- All that a list of owners holds, one owner after the other. -/
theorem flatMap_nodup (h : Allocation own marked) {fs : List φ} (hfs : fs.Nodup) :
    (fs.flatMap own).Nodup := by
  rw [List.nodup_flatMap]
  refine ⟨fun f _ => h.nodup f, hfs.imp ?_⟩
  intro f g hfg n hf hg
  exact h.disjoint f g hfg n hf hg

end Allocation
end Framework

import Mathlib.Tactic.Common
import Mathlib.Logic.Function.Basic

/-!
# Labelled transition systems and their runs

A system has start states and labelled steps. A property of every reachable state is proved
by an inductive invariant. A run whose steps all meet a side condition is a run of the
restricted system.
-/

namespace Framework

/-- A labelled transition system. -/
structure System (σ : Type*) (ι : Type*) where
  init : σ → Prop
  step : σ → ι → σ → Prop

namespace System

variable {σ ι : Type*}

/-- The states some finite run ends in. -/
inductive Reachable (S : System σ ι) : σ → Prop
  | init {s : σ} (h : S.init s) : Reachable S s
  | step {s s' : σ} {l : ι} (hr : Reachable S s) (h : S.step s l s') : Reachable S s'

/-- An inductive invariant holds at the start and is kept by every step. -/
structure Inductive (S : System σ ι) (P : σ → Prop) : Prop where
  init : ∀ s, S.init s → P s
  step : ∀ s l s', P s → S.step s l s' → P s'

theorem Inductive.of_reachable {S : System σ ι} {P : σ → Prop} (h : S.Inductive P) {s : σ}
    (hr : S.Reachable s) : P s := by
  induction hr with
  | init hi => exact h.init _ hi
  | step _ hs ih => exact h.step _ _ _ ih hs

/-- An invariant may assume facts that are already known of every reachable state. -/
theorem Inductive.relative {S : System σ ι} {P Q : σ → Prop} (hP : S.Inductive P)
    (hi : ∀ s, S.init s → Q s) (hs : ∀ s l s', P s → Q s → S.step s l s' → Q s') :
    S.Inductive fun s => P s ∧ Q s where
  init s h := ⟨hP.init s h, hi s h⟩
  step s l s' h hst := ⟨hP.step s l s' h.1 hst, hs s l s' h.1 h.2 hst⟩

/-- The steps taken from states that meet a condition together with their label. -/
def restrict (S : System σ ι) (C : σ → ι → Prop) : System σ ι where
  init := S.init
  step s l s' := C s l ∧ S.step s l s'

theorem Reachable.of_restrict {S : System σ ι} {C : σ → ι → Prop} {s : σ}
    (h : (S.restrict C).Reachable s) : S.Reachable s := by
  induction h with
  | init hi => exact .init hi
  | step _ hs ih => exact .step ih hs.2

/-- A computed run: `f` gives a next state only where the system has that step. -/
theorem Reachable.foldlM {S : System σ ι} {f : σ → ι → Option σ}
    (hf : ∀ s l s', f s l = some s' → S.step s l s') (ls : List ι) {s s' : σ}
    (hr : S.Reachable s) (h : ls.foldlM f s = some s') : S.Reachable s' := by
  induction ls generalizing s with
  | nil =>
    obtain rfl : s = s' := by simpa using h
    exact hr
  | cons l ls ih =>
    rw [List.foldlM_cons] at h
    obtain ⟨s₁, hl, hrest⟩ := Option.bind_eq_some_iff.mp h
    exact ih (.step hr (hf s l s₁ hl)) hrest

end System
end Framework

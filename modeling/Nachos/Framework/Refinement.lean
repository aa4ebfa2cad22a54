import Nachos.Framework.Run

/-!
# Traces and refinement

The labels of a run are what can be seen of it. A function that maps each step of one system to a
step of another with the same label maps runs to runs that look the same.
-/

namespace Framework

namespace System

variable {σ τ ι : Type*} {C : System σ ι} {A : System τ ι} {abs : σ → τ} {P : σ → Prop}

/-- The labels of a run from one state to another. -/
inductive Trace (S : System σ ι) : σ → List ι → σ → Prop
  | nil (s : σ) : Trace S s [] s
  | step {s t t' : σ} {ls : List ι} {l : ι} (h : Trace S s ls t) (hs : S.step t l t') :
      Trace S s (ls ++ [l]) t'

theorem Trace.reachable {s t : σ} {ls : List ι} (h : C.Trace s ls t) (hs : C.Reachable s) :
    C.Reachable t := by
  induction h with
  | nil => exact hs
  | step _ hstep ih => exact .step ih hstep

/-- The trace of a computed run. -/
theorem Trace.foldlM {f : σ → ι → Option σ} (hf : ∀ s l s', f s l = some s' → C.step s l s')
    {ls ls' : List ι} {s t t' : σ} (h : C.Trace s ls t) (hrun : ls'.foldlM f t = some t') :
    C.Trace s (ls ++ ls') t' := by
  induction ls' generalizing ls t with
  | nil =>
    obtain rfl : t = t' := by simpa using hrun
    rw [List.append_nil]
    exact h
  | cons l ls' ih =>
    rw [List.foldlM_cons] at hrun
    obtain ⟨t₁, hl, hrest⟩ := Option.bind_eq_some_iff.mp hrun
    have hnext := ih (h.step (hf t l t₁ hl)) hrest
    rwa [List.append_assoc] at hnext

/-- Each step of `C`, seen through `abs`, is a step of `A`. -/
structure Refines (C : System σ ι) (A : System τ ι) (abs : σ → τ) (P : σ → Prop) : Prop where
  invariant : C.Inductive P
  init : ∀ s, C.init s → A.init (abs s)
  step : ∀ s l s', P s → C.step s l s' → A.step (abs s) l (abs s')

theorem Refines.trace (h : C.Refines A abs P) {s t : σ} {ls : List ι} (hs : C.init s)
    (ht : C.Trace s ls t) : A.Trace (abs s) ls (abs t) := by
  induction ht with
  | nil => exact .nil _
  | step hrun hstep ih =>
    have hP := h.invariant.of_reachable (hrun.reachable (.init hs))
    exact ih.step (h.step _ _ _ hP hstep)

theorem Refines.reachable (h : C.Refines A abs P) {s : σ} (hs : C.Reachable s) :
    A.Reachable (abs s) := by
  induction hs with
  | init hi => exact .init (h.init _ hi)
  | step hr hstep ih => exact .step ih (h.step _ _ _ (h.invariant.of_reachable hr) hstep)

end System
end Framework

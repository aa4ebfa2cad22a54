import Nachos.Userprog.Syscall

/-!
# Exec and Join

Both calls go to the host: `SysExec` forks a process and `SysJoin` waits for one. The processes of
the host end in any order.
-/

namespace Nachos

open Framework

/-- `SysExec` when `fork` has returned. `pid` is given the value of the comparison, and the child
does not come back. -/
def sysExecAfterFork (forked : Word) : Option Word :=
  let pid : Word := if forked = 0 then 1 else 0
  if pid ≠ 0 then none
  else if pid = 1 then some pid
  else some (-1)

private theorem sysExecAfterFork_parent {forked : Word} (h : forked ≠ 0) :
    sysExecAfterFork forked = some sysExec := by
  unfold sysExecAfterFork
  rw [if_neg h]
  rfl

/-- What `waitpid` may return for: a positive number names a child, -1 stands for any of them. -/
def waitsFor (id child : Word) : Bool := id == -1 || (decide (0 < id.toInt) && child == id)

/-- A `SysJoin` that has returned: its argument, what `SysExec` had returned until then with the
child it had made, and the children that had terminated. -/
structure JoinRecord where
  id : Word
  execs : List (Word × Word)
  terminated : List Word

/-- The children of the simulator. `waited` are those for which a `waitpid` has returned; `execs`
are the identifiers with their children, and `joins` the calls of `SysJoin` that have returned. -/
structure Processes where
  execs : List (Word × Word)
  terminated : List Word
  waited : List Word
  joins : List JoinRecord

inductive ProcessLabel
  /-- a call of `SysExec`, for which the host makes the process `child` -/
  | exec (child : Word)
  | terminate (child : Word)
  /-- the return of `SysJoin` when the host gives it `child` -/
  | join (id child : Word)

def ProcessLabel.isExec : ProcessLabel → Bool
  | .exec _ => true
  | .terminate _ | .join _ _ => false

namespace Processes

def new : Processes := { execs := [], terminated := [], waited := [], joins := [] }

def children (s : Processes) : List Word := s.execs.map Prod.snd

/-- The next event; `none` when the host does not do that. -/
def step (s : Processes) : ProcessLabel → Option Processes
  | .exec child =>
    if 0 < child.toInt ∧ child ∉ s.children then do
      let id ← sysExecAfterFork child
      some { s with execs := s.execs ++ [(id, child)] }
    else none
  | .terminate child =>
    if child ∈ s.children ∧ child ∉ s.terminated then
      some { s with terminated := s.terminated ++ [child] }
    else none
  | .join id child =>
    if child ∈ s.terminated ∧ child ∉ s.waited ∧ waitsFor id child then
      some { s with waited := s.waited ++ [child],
                    joins := s.joins ++ [{ id := id, execs := s.execs,
                                           terminated := s.terminated }] }
    else none

/-- Different calls of `SysExec` have returned different identifiers, and no `SysJoin` on one of
them has returned before its child had terminated. -/
structure Identified (s : Processes) : Prop where
  distinct : (s.execs.map Prod.fst).Nodup
  awaited : ∀ j ∈ s.joins, ∀ child, (j.id, child) ∈ j.execs → child ∈ j.terminated

end Processes

/-- All orders in which programs call `Exec` and `Join` and their children terminate. -/
def processSystem : System Processes ProcessLabel where
  init s := s = .new
  step s l s' := s.step l = some s'

namespace Processes

variable {s s' : Processes}

/-- All identifiers are the same, and a `SysJoin` has seen the end of some child. -/
structure Inv (s : Processes) : Prop where
  ids : ∀ e ∈ s.execs, e.1 = sysExec
  terminated : ∀ child ∈ s.terminated, child ∈ s.children
  joins : ∀ j ∈ s.joins, j.execs <+: s.execs ∧
    ∃ child ∈ j.terminated, child ∈ j.execs.map Prod.snd

theorem Inv.init : Inv .new where
  ids _ h := by cases h
  terminated _ h := by cases h
  joins _ h := by cases h

theorem Inv.step (h : s.Inv) {l : ProcessLabel} (hs : s.step l = some s') : s'.Inv := by
  cases l with
  | exec child =>
    simp only [Processes.step] at hs
    split at hs
    next hfresh =>
      have hne : child ≠ 0 := by
        rintro rfl
        exact absurd hfresh.1 (by decide)
      rw [sysExecAfterFork_parent hne] at hs
      obtain rfl := Option.some.inj hs
      constructor
      case ids =>
        intro e he
        rcases List.mem_append.mp he with he | he
        · exact h.ids e he
        · rw [List.mem_singleton.mp he]
      case terminated =>
        intro c hc
        have hmem := h.terminated c hc
        simp only [children, List.map_append, List.mem_append] at hmem ⊢
        exact .inl hmem
      case joins =>
        intro j hj
        obtain ⟨hexecs, hseen⟩ := h.joins j hj
        exact ⟨hexecs.trans (List.prefix_append _ _), hseen⟩
    next => cases hs
  | terminate child =>
    simp only [Processes.step] at hs
    split at hs
    next hchild =>
      obtain rfl := Option.some.inj hs
      constructor
      case ids => exact h.ids
      case terminated =>
        intro c hc
        rcases List.mem_append.mp hc with hc | hc
        · exact h.terminated c hc
        · rw [List.mem_singleton.mp hc]
          exact hchild.1
      case joins => exact h.joins
    next => cases hs
  | join id child =>
    simp only [Processes.step] at hs
    split at hs
    next hchild =>
      obtain rfl := Option.some.inj hs
      constructor
      case ids => exact h.ids
      case terminated => exact h.terminated
      case joins =>
        intro j hj
        rcases List.mem_append.mp hj with hj | hj
        · exact h.joins j hj
        · rw [List.mem_singleton.mp hj]
          exact ⟨List.prefix_rfl, child, hchild.1, h.terminated child hchild.1⟩
    next => cases hs

theorem inv_inductive : processSystem.Inductive Inv where
  init _ h := h ▸ Inv.init
  step _ _ _ h hs := h.step hs

private theorem Inv.identified_iff (h : s.Inv) : s.Identified ↔ s.execs.length ≤ 1 := by
  constructor
  · intro hident
    have hsame : s.execs.map Prod.fst = List.replicate s.execs.length sysExec := by
      rw [List.eq_replicate_iff]
      refine ⟨List.length_map _, ?_⟩
      intro id hid
      obtain ⟨e, he, rfl⟩ := List.mem_map.mp hid
      exact h.ids e he
    have hnodup := hident.distinct
    rw [hsame, List.nodup_replicate] at hnodup
    exact hnodup
  · intro hone
    constructor
    case distinct =>
      match hexecs : s.execs, hone with
      | [], _ => exact List.nodup_nil
      | [e], _ => exact List.pairwise_singleton _ _
    case awaited =>
      intro j hj child hchild
      obtain ⟨hbefore, other, hother, hmem⟩ := h.joins j hj
      obtain ⟨e, he, rfl⟩ := List.mem_map.mp hmem
      have hlength : j.execs.length ≤ 1 := hbefore.length_le.trans hone
      match hexecs : j.execs, hlength with
      | [], _ =>
        rw [hexecs] at hchild
        cases hchild
      | [e'], _ =>
        rw [hexecs, List.mem_singleton] at hchild he
        rw [he, ← hchild] at hother
        exact hother

private theorem execs_length (ls : List ProcessLabel) (hrun : ls.foldlM step s = some s') :
    s'.execs.length = s.execs.length + ls.countP ProcessLabel.isExec := by
  induction ls generalizing s with
  | nil =>
    cases hrun
    rfl
  | cons l ls ih =>
    rw [List.foldlM_cons] at hrun
    obtain ⟨s₁, hstep, hrun⟩ := Option.bind_eq_some_iff.mp hrun
    rw [ih hrun]
    cases l with
    | exec child =>
      simp only [step] at hstep
      split at hstep
      next =>
        obtain ⟨id, -, hstep⟩ := Option.bind_eq_some_iff.mp hstep
        cases hstep
        rw [List.countP_cons_of_pos (by rfl)]
        simp only [List.length_append, List.length_singleton]
        omega
      next => cases hstep
    | terminate child =>
      simp only [step] at hstep
      split at hstep
      next =>
        cases hstep
        rw [List.countP_cons_of_neg (by simp [ProcessLabel.isExec])]
      next => cases hstep
    | join id child =>
      simp only [step] at hstep
      split at hstep
      next =>
        cases hstep
        rw [List.countP_cons_of_neg (by simp [ProcessLabel.isExec])]
      next => cases hstep

end Processes

/-- `Exec` and `Join` identify the children of a run if and only if it calls `Exec` at most
once. -/
theorem children_identified (ls : List ProcessLabel) {s : Processes}
    (hrun : ls.foldlM Processes.step .new = some s) :
    s.Identified ↔ ls.countP ProcessLabel.isExec ≤ 1 := by
  have hr : processSystem.Reachable s := .foldlM (fun _ _ _ h => h) ls (.init rfl) hrun
  have hlength : s.execs.length = ls.countP ProcessLabel.isExec := by
    rw [Processes.execs_length ls hrun]
    exact Nat.zero_add _
  rw [(Processes.inv_inductive.of_reachable hr).identified_iff, hlength]

/-- A child, its end and the `Join` that waits for it. -/
theorem children_identified_one : ∃ s,
    [ProcessLabel.exec 7, .terminate 7, .join (-1) 7].foldlM Processes.step .new = some s ∧
      s.Identified := by
  have hsome : ([ProcessLabel.exec 7, .terminate 7, .join (-1) 7].foldlM Processes.step
      .new).isSome = true := by decide
  obtain ⟨s, hrun⟩ := Option.isSome_iff_exists.mp hsome
  exact ⟨s, hrun, (children_identified _ hrun).mpr (by decide)⟩

/-- Of two children the second terminates, and the `Join` on the first one returns. -/
theorem children_mixed_up : ∃ s, [ProcessLabel.exec 7, .exec 8, .terminate 8, .join (-1) 8].foldlM
      Processes.step .new = some s ∧
    s.execs = [(-1, 7), (-1, 8)] ∧
    (∃ j ∈ s.joins, (j.id, 7) ∈ j.execs ∧ (7 : Word) ∉ j.terminated) ∧ ¬ s.Identified := by
  refine ⟨_, rfl, rfl, ⟨_, List.mem_singleton.mpr rfl, ?_, ?_⟩, fun h => ?_⟩
  · decide
  · decide
  · exact absurd h.distinct (by decide)

end Nachos

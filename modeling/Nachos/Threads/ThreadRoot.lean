import Nachos.Threads.Switch

/-!
# The first dispatch of a thread

`SWITCH` returns into `ThreadRoot` when a forked thread gets the CPU for the first time. The
registers in which `StackAllocate` hands over the three procedures and the argument are such that
`ThreadRoot` calls them in order, provided that each keeps to the calling convention.
-/

namespace Nachos

open Framework Framework.X86 Switching

variable {x : Text} {s : X86.State} {n : Nat}

/-- The instructions of `ThreadRoot` before its first call. -/
def rootPrologue : List Instr := [.pushl (.reg .ebp), .movl (.reg .esp) (.reg .ebp), .pushl initialArg]

private theorem threadRootCode_eq :
    threadRootCode = rootPrologue ++ [.call startupPC, .call initialPC,
    .call whenDonePC, .movl (.reg .ebp) (.reg .esp), .popl (.reg .ebp), .ret] := rfl

private theorem rootPrologue_spec (s : X86.State) :
    (s.block rootPrologue).reg .esp = s.reg .esp - 4 - 4 ∧
      load (s.block rootPrologue).mem (s.reg .esp - 4 - 4) = s.reg .edx ∧
      ∀ r, r ≠ .esp → r ≠ .ebp → (s.block rootPrologue).reg r = s.reg r := by
  refine ⟨rfl, load_store_self, fun r hesp hebp => ?_⟩
  cases r with
  | esp => exact absurd rfl hesp
  | ebp => exact absurd rfl hebp
  | _ => rfl

/-- A call through a register: the callee is entered with the address of the next instruction on
top of the stack, and finds everything else as it was. -/
theorem step_call {code : X86.Code} {target : Reg} {next : Word}
    (h : code s.eip = some (.call (.reg target), next)) :
    ∃ s', step code s = some s' ∧ s'.eip = s.reg target ∧ s'.reg .esp = s.reg .esp - 4 ∧
      load s'.mem (s'.reg .esp) = next ∧ (∀ r, r ≠ .esp → s'.reg r = s.reg r) ∧
      load s'.mem (s.reg .esp) = load s.mem (s.reg .esp) := by
  refine ⟨s.exec next (.call (.reg target)), by simp [step, h], rfl, rfl, load_store_self,
    fun r hr => Function.update_of_ne hr _ _, ?_⟩
  apply load_store_of_disjoint
  have happart : Disjoint (span (s.reg .esp - 4) 4) (span (s.reg .esp - 4 + 4) 4) :=
    span_disjoint_add (by decide) (by decide)
  rwa [BitVec.sub_add_cancel] at happart

/-- In every run, a thread that was forked and gets the CPU for the first time calls
`ThreadBegin`, then the procedure it was forked for, with the argument on its stack, then
`ThreadFinish`, whatever the procedures do to the registers that a callee may change. -/
theorem forked_thread_enters (x : Text) (hx : x.Linked) {s : Switching} {next stack func arg : Word}
    (hr : (switchSystem x).Reachable s) (hc : Calls x s next)
    (hf : s.suspend next = some (.forked stack func arg)) :
    ∃ root, steps x.code (switchLength + 4) s.cpu = some root ∧ root.eip = x.threadBegin ∧
      ∀ begun, CdeclReturn 4 root begun →
        ∃ entered, step x.code begun = some entered ∧ entered.eip = func ∧
          load entered.mem (entered.reg .esp + 4) = arg ∧
          entered.reg .esp = firstStackTop stack - 12 ∧
          ∀ done, CdeclReturn 0 entered done →
            ∃ finish, step x.code done = some finish ∧ finish.eip = x.threadFinish := by
  obtain ⟨cpu, y, hcpu, hy, hresumes, -⟩ := switch_resumes x hx hr hc
  obtain rfl : y = .forked stack func arg := Option.some.inj (hy.symm.trans hf)
  obtain ⟨heip, hecx, hesi, hedx, hedi, hesp⟩ := hresumes
  obtain ⟨_, hplaced⟩ := hx.threadRoot
  rw [threadRootCode_eq] at hplaced
  obtain ⟨a, hprologue, b, hfirst, c, hsecond, d, hthird, -⟩ := hplaced.split
  obtain ⟨hpushed, harg, hkept⟩ := rootPrologue_spec cpu
  let ready : X86.State := { cpu.block rootPrologue with eip := a }
  have hready : steps x.code (switchLength + 3) s.cpu = some ready := by
    rw [steps_add switchLength 3 hcpu]
    exact Placed.steps (heip.symm ▸ hprologue) (by simp [rootPrologue, Instr.Falls])
  -- the call of `ThreadBegin`
  obtain ⟨root, hroot, hrootEip, hrootEsp, hrootTop, hrootKept, hrootArg⟩ :=
    step_call (s := ready) hfirst
  have hrootRun : steps x.code (switchLength + 4) s.cpu = some root := by
    rw [steps_add (switchLength + 3) 1 hready]
    simp [steps, hroot]
  have hrootReg : ∀ r, r ≠ .esp → r ≠ .ebp → root.reg r = cpu.reg r := fun r h₁ h₂ =>
    (hrootKept r h₁).trans (hkept r h₁ h₂)
  have hargRoot : load root.mem (root.reg .esp + 4) = arg := by
    rw [hrootEsp, BitVec.sub_add_cancel, hrootArg, ← hedx, ← harg, ← hpushed]
  refine ⟨root, hrootRun, ?_, fun begun hbegun => ?_⟩
  · rw [hrootEip, ← hecx]
    exact hkept .ecx (by decide) (by decide)
  -- the call of the procedure
  have hbegunCode : x.code begun.eip = some (.call initialPC, c) := by
    rw [hbegun.eip, hrootTop]
    exact hsecond
  have hbegunArg : load begun.mem (begun.reg .esp) = arg := by
    rw [hbegun.esp, ← hargRoot]
    exact load_congr hbegun.frame
  obtain ⟨entered, hentered, henteredEip, henteredEsp, henteredTop, henteredKept, henteredArg⟩ :=
    step_call hbegunCode
  refine ⟨entered, hentered, ?_, ?_, ?_, fun done hdone => ?_⟩
  · rw [henteredEip, hbegun.preserved .esi (by decide), hrootReg .esi (by decide) (by decide), hesi]
  · rw [henteredEsp, BitVec.sub_add_cancel, henteredArg, hbegunArg]
  · have hready : ready.reg .esp = firstStackTop stack - 4 - 4 := by
      rw [← hesp]
      exact hpushed
    rw [henteredEsp, hbegun.esp, hrootEsp, hready]
    grind
  -- the call of `ThreadFinish`
  have hdoneCode : x.code done.eip = some (.call whenDonePC, d) := by
    rw [hdone.eip, henteredTop]
    exact hthird
  obtain ⟨finish, hfinish, hfinishEip, -⟩ := step_call hdoneCode
  refine ⟨finish, hfinish, ?_⟩
  rw [hfinishEip, hdone.preserved .edi (by decide), henteredKept .edi (by decide),
    hbegun.preserved .edi (by decide), hrootReg .edi (by decide) (by decide), hedi]

/-- The thread that was forked to run the procedure at `0x4000` with the argument 7. -/
theorem forked_thread_enters_sample :
    ∃ root, steps sampleText.code (switchLength + 4) sampleForked.cpu = some root ∧
      root.eip = 0x2000 ∧
      ∀ begun, CdeclReturn 4 root begun →
        ∃ entered, step sampleText.code begun = some entered ∧ entered.eip = 0x4000 ∧
          load entered.mem (entered.reg .esp + 4) = 7 ∧
          entered.reg .esp = firstStackTop 0x03000000 - 12 ∧
          ∀ done, CdeclReturn 0 entered done →
            ∃ finish, step sampleText.code done = some finish ∧ finish.eip = 0x2100 :=
  forked_thread_enters sampleText sampleText_linked sampleForked_reachable sampleForked_calls rfl

end Nachos

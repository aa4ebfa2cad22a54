import Nachos.Userprog.Ownership

/-!
# The two translators

`AddrSpace::Translate` is the kernel's own translation of an address of the current space. It
makes the checks of `Machine::Translate` in another order and with other types. On the entries
that loads and page faults write, the difference does not show.
-/

namespace Nachos

/-- `AddrSpace::Translate`. The physical address is `unsigned`. -/
def AddrSpace.translate (s : AddrSpace) (m : Vm) (vaddr : Word) (isReadWrite : Bool) :
    Option (Vm × Except ExceptionType Nat) :=
  let vpn := vaddr.toNat / pageSize
  let offset := vaddr.toNat % pageSize
  if s.numPages ≤ vpn then some (m, .error .addressError)
  else
    let pte := m.tables s.pageTable vpn
    if isReadWrite = true ∧ pte.readOnly = true then some (m, .error .readOnly)
    else
      let pfn := pte.physicalPage
      if pfn = -1 ∨ pte.valid = false then some (m, .error .pageFault)
      else if numPhysPages ≤ pfn then some (m, .error .busError)
      else
        let m' := m.setEntry s.pageTable vpn
          { pte with use := true, dirty := pte.dirty || isReadWrite }
        let paddr := ((pfn * pageSize + offset) % 2 ^ 32).toNat
        if paddr < memorySize then some (m', .ok paddr) else none

namespace Vm

variable {m : Vm} {s : AddrSpace} {t : Nat} {vaddr : Word} {writing : Bool}

def countUse (m : Vm) (phy : Nat) : Vm :=
  { m with
    globalPageTable := Function.update m.globalPageTable phy
      { m.globalPageTable phy with useStamp := (m.globalPageTable phy).useStamp + 1 } }

theorem Aligned.byte (vaddr : Word) : Aligned vaddr 1 := by
  unfold Aligned
  omega

private theorem translate_beyond (hpt : m.pageTable = some t)
    (hsize : m.pageTableSize ≤ vaddr.toNat / pageSize) :
    m.translate vaddr 1 writing = some (m, .error .addressError) := by
  unfold translate
  rw [if_neg (Aligned.byte vaddr), hpt]
  exact if_pos hsize

private theorem translate_kernel_mapped {phy : Nat} (hsize : vaddr.toNat / pageSize < s.numPages)
    (hm : Mapped (m.tables s.pageTable (vaddr.toNat / pageSize)) phy)
    (hro : (m.tables s.pageTable (vaddr.toNat / pageSize)).readOnly = false) :
    s.translate m vaddr writing =
      some (m.setEntry s.pageTable (vaddr.toNat / pageSize)
          { m.tables s.pageTable (vaddr.toNat / pageSize) with
            use := true,
            dirty := (m.tables s.pageTable (vaddr.toNat / pageSize)).dirty || writing },
        .ok (phy * pageSize + vaddr.toNat % pageSize)) := by
  have hbound := hm.bound
  have hmod := Nat.mod_lt vaddr.toNat (show 0 < pageSize by decide)
  have haddr : (((phy : Int) * pageSize + (vaddr.toNat % pageSize : Nat)) % 2 ^ 32).toNat =
      phy * pageSize + vaddr.toNat % pageSize := by
    simp only [numPhysPages, pageSize] at *
    omega
  have hmemory : phy * pageSize + vaddr.toNat % pageSize < memorySize := by
    simp only [memorySize, numPhysPages, pageSize] at *
    omega
  have hframe : ¬ ((phy : Int) = -1 ∨
      (m.tables s.pageTable (vaddr.toNat / pageSize)).valid = false) := by
    rw [hm.valid]
    simp only [Bool.true_eq_false, or_false]
    omega
  unfold AddrSpace.translate
  dsimp only
  rw [if_neg (by omega), if_neg (by rw [hro]; simp), hm.physicalPage, if_neg hframe,
    if_neg (by omega), haddr, if_pos hmemory]

private theorem translate_kernel_unmapped (hsize : vaddr.toNat / pageSize < s.numPages)
    (hun : (m.tables s.pageTable (vaddr.toNat / pageSize)).valid = false ∨
      (m.tables s.pageTable (vaddr.toNat / pageSize)).physicalPage = -1)
    (hro : (m.tables s.pageTable (vaddr.toNat / pageSize)).readOnly = false) :
    s.translate m vaddr writing = some (m, .error .pageFault) := by
  unfold AddrSpace.translate
  dsimp only
  rw [if_neg (by omega), if_neg (by rw [hro]; simp), if_pos hun.symm]

end Vm

/-- For every address of the current space and both directions the two translators end in the same
exception and change nothing, or they give the same physical address and set the same bits of the
same entry, and the one of the machine also counts the use of the frame. -/
theorem translators_agree {files : FileName → Option HostFile} {m : Vm}
    (hr : (vmSystem files).Reachable m) {t : Nat} {s : AddrSpace} (hpt : m.pageTable = some t)
    (hs : m.spaces t = some s) (vaddr : Word) (writing : Bool) :
    (∃ e, s.translate m vaddr writing = some (m, .error e) ∧
      m.translate vaddr 1 writing = some (m, .error e)) ∨
    ∃ phy m', phy < numPhysPages ∧
      m' = m.setEntry t (vaddr.toNat / pageSize)
        { m.tables t (vaddr.toNat / pageSize) with
          use := true, dirty := (m.tables t (vaddr.toNat / pageSize)).dirty || writing } ∧
      s.translate m vaddr writing = some (m', .ok (phy * pageSize + vaddr.toNat % pageSize)) ∧
      m.translate vaddr 1 writing =
        some (m'.countUse phy, .ok (phy * pageSize + vaddr.toNat % pageSize)) := by
  have h := (Vm.inv_inductive files).of_reachable hr
  have htable : s.pageTable = t := (h.space t s hs).1
  have hsize : m.pageTableSize = s.numPages := by
    obtain ⟨s', hs', hsize, -⟩ := h.current t hpt
    rw [hs] at hs'
    obtain rfl := Option.some.inj hs'
    exact hsize
  have hal := Vm.Aligned.byte vaddr
  rcases Nat.lt_or_ge (vaddr.toNat / pageSize) s.numPages with hlt | hge
  swap
  · exact .inl ⟨.addressError, if_pos hge, Vm.translate_beyond hpt (by omega)⟩
  · have hlt' : vaddr.toNat / pageSize < m.pageTableSize := by omega
    have hv := h.vpn_lt hpt hlt'
    have hentry := h.entry t (h.current_lt hpt) _ hv
    cases hframe : m.frame (t, vaddr.toNat / pageSize) with
    | none =>
      have hun := Vm.unmapped_of_frame (h.current_lt hpt) hv hframe
      refine .inl ⟨.pageFault, ?_, Vm.translate_unmapped hpt hlt' hal hun⟩
      apply Vm.translate_kernel_unmapped hlt
      · rw [htable]
        exact hun
      · rw [htable]
        exact hentry.writable
    | some phy =>
      have hmap := h.mapped hframe
      right
      refine ⟨phy, _, hmap.bound, rfl, ?_,
        Vm.translate_mapped hpt hlt' hal (.inl rfl) hmap hentry.writable⟩
      rw [← htable] at hmap hentry ⊢
      exact Vm.translate_kernel_mapped hlt hmap hentry.writable

/-- The second space has read its page 1, which is in frame 0. -/
theorem translators_agree_second :
    ∃ s m₁ m₂, secondReads.spaces 1 = some s ∧ s.translate secondReads 130 true = some (m₁, .ok 2) ∧
      secondReads.translate 130 1 true = some (m₂, .ok 2) := by
  have h := (Vm.inv_inductive onePageDisk).of_reachable reachable_secondReads
  have hpt : secondReads.pageTable = some 1 := rfl
  have hsize : (130 : Word).toNat / pageSize < secondReads.pageTableSize := by
    show 1 < (Vm.headerOf onePage fun _ => 0).numPages
    rw [headerOf_onePage]
    decide
  have hmapped : secondReads.translate 130 1 true =
      some (secondReads.touch 1 1 0 true, .ok 2) :=
    Vm.translate_mapped hpt hsize (Vm.Aligned.byte 130) (.inl rfl) (h.mapped frame_secondReads)
      (h.entry 1 (h.current_lt hpt) 1 (by decide)).writable
  rcases translators_agree reachable_secondReads hpt rfl 130 true with
    ⟨e, -, herror⟩ | ⟨phy, m', -, -, hkernel, hmachine⟩
  · rw [hmapped] at herror
    cases (Prod.mk.inj (Option.some.inj herror)).2
  · rw [hmapped] at hmachine
    have haddr : 2 = phy * pageSize + (130 : Word).toNat % pageSize :=
      Except.ok.inj (Prod.mk.inj (Option.some.inj hmachine)).2
    rw [← haddr] at hkernel
    exact ⟨_, _, _, rfl, hkernel, hmapped⟩

end Nachos

import Nachos.Userprog.Ownership

/-!
# The second translation

After a page fault `ReadMem` and `WriteMem` translate once more and do not look at the result.
They rely on the handler having left a valid entry for the page. It does, unless the executable
describes a segment at a negative position of the file, where `Lseek` stops the kernel.
-/

namespace Nachos

open Framework

namespace Vm

variable {m m₁ : Vm} {addr : Word} {size : Nat} {writing : Bool}

/-- No byte of the page is to be read at a negative position of the executable. -/
def Reloadable (m : Vm) (v : Nat) : Prop :=
  ∀ i < pageSize, ∀ p, reloadOffset m.fileAddr (v * pageSize + i : Nat) = some p → 0 ≤ p

private theorem translate_isSome {t : Nat} (hpt : m.pageTable = some t)
    (hs : size = 1 ∨ size = 2 ∨ size = 4) :
    (m.translate addr size writing).isSome = true := by
  unfold translate
  split
  next => rfl
  next hal =>
    rw [hpt]
    dsimp only
    split
    next => rfl
    next hsize =>
      split
      next => rfl
      next hmap =>
        split
        next => rfl
        next =>
          split
          next => rfl
          next hbound =>
            have hin := Aligned.within hal hs
            rw [if_pos]
            · rfl
            · simp only [memorySize, numPhysPages, pageSize] at *
              omega

/-- What is true when a translation has ended in a page fault. -/
structure Retry (m₁ : Vm) (addr : Word) (size : Nat) (writing : Bool) (vir : Int) : Prop where
  badVAddr : (m₁.raiseException addr).registers badVAddrReg = addr
  vpn : addr.toInt.tdiv pageSize = (addr.toNat / pageSize : Nat)
  lru : (m₁.raiseException addr).findFreeByLRU.isSome = true
  again : m₁.Reloadable (addr.toNat / pageSize) → ∃ m₂ m₃ t phy,
    (m₁.raiseException addr).pageFault vir = some m₂ ∧ m₂.pageTable = some t ∧
    (m₂.tables t (addr.toNat / pageSize)).physicalPage = (phy : Nat) ∧ phy < numPhysPages ∧
    (m₂.globalPageTable phy).refPageTable = some t ∧
    (m₂.globalPageTable phy).virNum = (addr.toNat / pageSize : Nat) ∧
    m₂.translate addr size writing = some (m₃, .ok (phy * pageSize + addr.toNat % pageSize))
  stops : ¬ m₁.Reloadable (addr.toNat / pageSize) →
    (m₁.raiseException addr).pageFault vir = none

private theorem Inv.retry (h : m.Inv) (hs : size = 1 ∨ size = 2 ∨ size = 4)
    (hfault : m.translate addr size writing = some (m₁, .error .pageFault)) (vir : Int) :
    m₁.Retry addr size writing vir := by
  obtain rfl := translate_error hfault
  obtain ⟨t, hpt, hsize, hal, hun⟩ := translate_pageFault hfault
  have ht := h.current_lt hpt
  have hv := h.vpn_lt hpt hsize
  have hframe := frame_eq_none hun
  obtain ⟨hlru, ref, w, hown⟩ := h.victim_owner (Nat.zero_lt_of_lt ht)
  have hfile := (h.entry t ht 0 (by decide)).file
  obtain ⟨input, hin⟩ := Option.isSome_iff_exists.mp (writeBack_isSome ref w hfile)
  constructor
  case badVAddr => exact raiseException_badVAddr h.loadTarget addr
  case vpn => exact toInt_tdiv_pageSize rfl hv
  case lru =>
    show m₁.findFreeByLRU.isSome = true
    rw [hlru]
    rfl
  case again =>
    intro hpos
    have h' := h.afterFault hpt hsize hframe hown input
    have hframe' : (m₁.afterFault addr t ref w input).frame (t, addr.toNat / pageSize) =
        some m₁.victim := by
      rw [h.frame_afterFault hpt hsize, if_pos rfl]
    have hmap := h'.mapped hframe'
    have hglobal : (m₁.afterFault addr t ref w input).globalPageTable m₁.victim =
        { virNum := (addr.toNat / pageSize : Nat), useStamp := 0, refPageTable := some t } := by
      rw [Vm.afterFault, replace_globalPageTable (by exact (h.entry t ht _ hv).virtualPage)]
      exact Function.update_self _ _ _
    refine ⟨m₁.afterFault addr t ref w input, _, t, m₁.victim, ?_, hpt, hmap.physicalPage,
      hmap.bound, ?_, ?_, translate_mapped hpt hsize hal hs hmap (h'.entry t ht _ hv).writable⟩
    · rw [h.fault_eq hpt hsize hown hin vir, foldlM_fillByte _ hpos, Option.map_some]
      rfl
    · rw [hglobal]
    · rw [hglobal]
  case stops =>
    intro hneg
    cases hhandler : (m₁.raiseException addr).pageFault vir with
    | none => rfl
    | some m₂ =>
      obtain ⟨-, -, -, -, -, -, -, -, -, hpos, -⟩ := h.fault_cases hfault hhandler
      exact absurd hpos hneg

private theorem loadSegment_of_unmapped {f : HostFile} {t : Nat} {s : Segment}
    (hun : ∀ v < numPhysPages, (m.tables t v).physicalPage = -1)
    (hs : 0 ≤ s.virtualAddr ∧ s.virtualAddr + s.size ≤ memorySize) :
    loadSegment f t m s = some m := by
  have hlist : ∀ i ∈ List.range s.size.toNat, (i : Int) < s.size := by
    intro i hi
    rw [List.mem_range] at hi
    omega
  unfold loadSegment
  generalize List.range s.size.toNat = is at hlist
  induction is with
  | nil => rfl
  | cons i is ih =>
    have hi := hlist i List.mem_cons_self
    obtain ⟨x, hx⟩ := Int.eq_ofNat_of_zero_le (show 0 ≤ s.virtualAddr + i by omega)
    have hv : x / pageSize < numPhysPages := by
      simp only [memorySize, numPhysPages, pageSize] at *
      omega
    have hdiv : arrayIndex numPhysPages ((s.virtualAddr + i).tdiv pageSize) =
        some (x / pageSize) := arrayIndex_eq_some.mpr ⟨by rw [hx]; rfl, hv⟩
    have hbyte : loadByte f t s m i = some m := by
      simp only [loadByte, hdiv, Option.bind_eq_bind, Option.bind_some, hun _ hv]
      rfl
    rw [List.foldlM_cons, hbyte]
    exact ih fun j hj => hlist j (List.mem_cons_of_mem _ hj)

private theorem load_into_full (hfull : ∀ p < numPhysPages,
    (m.globalPageTable p).refPageTable.isSome = true) {f : HostFile} {fileName : FileName}
    {noffH : Nat → Byte} (hf : m.files fileName = some f)
    (hmagic : (headerOf f noffH).noffMagic = noffMagicNumber)
    (hpages : (headerOf f noffH).numPages ≤ numPhysPages)
    (hsegments : ∀ s ∈ [(headerOf f noffH).code, (headerOf f noffH).initData,
      (headerOf f noffH).readonlyData], 0 ≤ s.virtualAddr ∧ s.virtualAddr + s.size ≤ memorySize) :
    m.load fileName noffH = some (m.newSpace fileName (headerOf f noffH) fun _ => -1) := by
  have hun : ∀ v < numPhysPages,
      ((m.withTable fileName).tables m.nextTable v).physicalPage = -1 := by
    intro v hv
    rw [withTable, foldl_loadEntry_full (by exact hfull)]
    simp [hv, freshEntry]
  obtain ⟨m', hm'⟩ := load_of_loads hf hmagic hpages
    (loadSegment_of_unmapped hun (hsegments _ (by simp)))
    (loadSegment_of_unmapped hun (hsegments _ (by simp)))
    (loadSegment_of_unmapped hun (hsegments _ (by simp)))
  obtain ⟨hnone, -⟩ | ⟨f', hf', -, rfl⟩ := load_full hfull hm'
  · cases hf.symm.trans hnone
  · cases Option.some.inj (hf.symm.trans hf')
    exact hm'

end Vm

/-- In every reachable state no ASSERT of `Translate` or `findFreeByLRU` fails. When a translation
ends in a page fault, the handler finds the address in its register and computes the same page,
and if the page can be read from the executable at all, the second translation goes to the frame
the handler has just entered for the page. -/
theorem retried_access {files : FileName → Option HostFile} {m : Vm}
    (hr : (vmSystem files).Reachable m) :
    (∀ t addr size writing, m.pageTable = some t → (size = 1 ∨ size = 2 ∨ size = 4) →
      (m.translate addr size writing).isSome = true) ∧
    ∀ addr size writing m₁ vir, (size = 1 ∨ size = 2 ∨ size = 4) →
      m.translate addr size writing = some (m₁, .error .pageFault) →
      m₁.Retry addr size writing vir := by
  have h := (Vm.inv_inductive files).of_reachable hr
  constructor
  · intro t addr size writing hpt hs
    exact Vm.translate_isSome hpt hs
  · intro addr size writing m₁ vir hs hfault
    exact h.retry hs hfault vir

theorem retried_access_second :
    ∃ m₂ m₃ physAddr, (secondStarts.raiseException 128).pageFault 7 = some m₂ ∧
      m₂.translate 128 4 false = some (m₃, .ok physAddr) := by
  have hpt : secondStarts.pageTable = some 1 := rfl
  have hfault : secondStarts.translate 128 4 false = some (secondStarts, .error .pageFault) := by
    apply Vm.translate_unmapped hpt
    · show 1 < (Vm.headerOf onePage fun _ => 0).numPages
      rw [headerOf_onePage]
      decide
    · decide
    · exact .inr rfl
  have hretry := (retried_access reachable_secondStarts).2 128 4 false _ 7 (.inr (.inr rfl)) hfault
  obtain ⟨m₂, m₃, t, phy, hhandler, -, -, -, -, -, htr⟩ := hretry.again
    (fun i _ p hp => Vm.reloadOffset_nonneg loadable_onePage hp)
  exact ⟨m₂, m₃, _, hhandler, htr⟩

def badOffset : HostFile := noffFile [0xbadfad, 0, 0xffffffff, 1] 180 0x5a

def badOffsetHeader : NoffHeader :=
  { noffMagic := noffMagicNumber, code := ⟨0, -1, 1⟩, initData := ⟨0, 0, 0⟩,
    readonlyData := ⟨0, 0, 0⟩, uninitData := ⟨0, 0, 0⟩ }

private theorem headerOf_badOffset : Vm.headerOf badOffset (fun _ => 0) = badOffsetHeader := by
  rfl

def badOffsetDisk : FileName → Option HostFile := fun name =>
  if name = "b" then some badOffset else some onePage

def badOffsetStarts : Vm :=
  ((Vm.loadedOnce badOffsetDisk "a" onePage onePageHeader).newSpace "b" badOffsetHeader
    fun _ => -1).restoreState
      { pageTable := 1, numPages := badOffsetHeader.numPages, fileAddr := badOffsetHeader.fileAddr }

private theorem reachable_badOffsetStarts : (vmSystem badOffsetDisk).Reachable badOffsetStarts := by
  have hload := Vm.load_once (show badOffsetDisk "a" = some onePage from rfl) loadable_onePage
  rw [headerOf_onePage] at hload
  have hinv := (Vm.Inv.new badOffsetDisk).load hload
  have hmagic : (Vm.headerOf badOffset fun _ => 0).noffMagic = noffMagicNumber := rfl
  have hsecond := Vm.load_into_full (hinv.full Nat.one_pos)
    (show (Vm.loadedOnce badOffsetDisk "a" onePage onePageHeader).files "b" = some badOffset
      from rfl) hmagic (by rw [headerOf_badOffset]; decide) (by rw [headerOf_badOffset]; decide)
  rw [headerOf_badOffset] at hsecond
  apply System.Reachable.step (l := .switch 1)
  · apply System.Reachable.step (l := .load "b" fun _ => 0)
    · apply System.Reachable.step (l := .load "a" fun _ => 0) (.init rfl)
      exact hload
    · exact hsecond
  · rfl

/-- The first instruction of that program ends in a page fault from which the handler does not
return. -/
theorem retried_access_badOffset :
    ∃ files m, (vmSystem files).Reachable m ∧
      m.translate 0 4 false = some (m, .error .pageFault) ∧
      ∀ vir, (m.raiseException 0).pageFault vir = none := by
  have hfault : badOffsetStarts.translate 0 4 false =
      some (badOffsetStarts, .error .pageFault) := by
    apply Vm.translate_unmapped (t := 1) rfl
    · decide
    · decide
    · exact .inr rfl
  refine ⟨_, _, reachable_badOffsetStarts, hfault, ?_⟩
  intro vir
  have h := (Vm.inv_inductive badOffsetDisk).of_reachable reachable_badOffsetStarts
  apply (h.retry (.inr (.inr rfl)) hfault vir).stops
  intro hpos
  have hneg := hpos 0 (by decide) (-1) rfl
  omega

end Nachos

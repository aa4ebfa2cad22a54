import Nachos.Userprog.Invariant

/-!
# Frame ownership

The page tables map pages to frames and the global page table maps frames back to pages. In
every reachable state the two agree, so each frame belongs to one page.
-/

namespace Nachos

open Framework

namespace Vm

/-! ## One program loaded twice

The state `main` brings the machine into: two address spaces from the same executable. -/

theorem reloadOffset_nonneg {h : NoffHeader} (hload : h.Loadable) {x : Nat} {p : Int}
    (hp : reloadOffset h.fileAddr x = some p) : 0 ≤ p := by
  have h₁ := hload.code.reload_nonneg (x := x)
  have h₂ := hload.initData.reload_nonneg (x := x)
  have h₃ := hload.readonlyData.reload_nonneg (x := x)
  simp only [reloadOffset, NoffHeader.fileAddr] at hp
  split at hp
  next hcode =>
    obtain rfl := Option.some.inj hp
    exact h₁ hcode
  next =>
    split at hp
    next hinit =>
      obtain rfl := Option.some.inj hp
      exact h₂ hinit
    next =>
      split at hp
      next hread =>
        obtain rfl := Option.some.inj hp
        exact h₃ hread
      next => cases hp

section LoadedTwice

variable (files : FileName → Option HostFile) (fileName : FileName) (f : HostFile)
  (h : NoffHeader)

def loadedOnce : Vm :=
  { (Vm.new files).newSpace fileName h (fun v => v) with
    mainMemory := imageOver f h (fun _ => 0), globalPageTable := (Vm.new files).allFrames }

def loadedTwice : Vm := (loadedOnce files fileName f h).newSpace fileName h (fun _ => -1)

variable {files fileName f}

theorem load_once {noffH : Nat → Byte} (hf : files fileName = some f)
    (hload : (headerOf f noffH).Loadable) :
    (Vm.new files).load fileName noffH =
      some (loadedOnce files fileName f (headerOf f noffH)) := by
  have hfree := ((Inv.new files).start rfl).2
  obtain ⟨m', hm'⟩ := load_succeeds (.inl hfree) hf hload
  obtain ⟨hnone, -⟩ | ⟨f', hf', -, rfl⟩ := load_free hfree hm'
  · cases hf.symm.trans hnone
  · cases Option.some.inj (hf.symm.trans hf')
    exact hm'

theorem load_twice {noffH : Nat → Byte} (hf : files fileName = some f)
    (hload : (headerOf f noffH).Loadable) :
    (loadedOnce files fileName f (headerOf f noffH)).load fileName noffH =
      some (loadedTwice files fileName f (headerOf f noffH)) := by
  have hinv := (Inv.new files).load (load_once hf hload)
  have hfull := hinv.full Nat.one_pos
  obtain ⟨m', hm'⟩ := load_succeeds (.inr hfull) hf hload
  obtain ⟨hnone, -⟩ | ⟨f', hf', -, rfl⟩ := load_full hfull hm'
  · cases hf.symm.trans hnone
  · cases Option.some.inj (hf.symm.trans hf')
    exact hm'

private theorem victim_loadedTwice (files : FileName → Option HostFile) (fileName : FileName)
    (f : HostFile) (h : NoffHeader) : (loadedTwice files fileName f h).victim = 0 := by
  have hlru : (loadedTwice files fileName f h).findFreeByLRU = some 0 := by
    have hentry : ∀ q < numPhysPages, (loadedTwice files fileName f h).globalPageTable q =
        { virNum := q, useStamp := 0, refPageTable := some 0 } := by
      intro q hq
      show (Vm.new files).allFrames q = _
      rw [allFrames, if_pos hq]
      rfl
    apply findFreeByLRU_eq
    · intro q hq
      rw [hentry q hq]
      rfl
    · decide
    · intro q hq
      omega
    · intro q hq
      rw [hentry q hq, hentry 0 (by decide)]
      rfl
  rw [victim, hlru, Option.getD_some]

/-- The second space runs: its table and the description of its file are current. -/
def secondRuns (files : FileName → Option HostFile) (fileName : FileName) (f : HostFile)
    (h : NoffHeader) : Vm :=
  (loadedTwice files fileName f h).restoreState
    { pageTable := 1, numPages := h.numPages, fileAddr := h.fileAddr }

theorem step_secondRuns (files : FileName → Option HostFile) (fileName : FileName)
    (f : HostFile) (h : NoffHeader) :
    (loadedTwice files fileName f h).step (.switch 1) = some (secondRuns files fileName f h) := by
  have hspace : (loadedTwice files fileName f h).spaces 1 =
      some { pageTable := 1, numPages := h.numPages, fileAddr := h.fileAddr } := rfl
  rw [step, hspace]
  rfl

theorem reachable_loadedTwice {noffH : Nat → Byte} (hf : files fileName = some f)
    (hload : (headerOf f noffH).Loadable) :
    (vmSystem files).Reachable (loadedTwice files fileName f (headerOf f noffH)) := by
  have h₁ : (vmSystem files).step (Vm.new files) (.load fileName noffH) _ := load_once hf hload
  have h₂ : (vmSystem files).step _ (.load fileName noffH) _ := load_twice hf hload
  exact .step (.step (.init rfl) h₁) h₂

theorem reachable_secondRuns {noffH : Nat → Byte} (hf : files fileName = some f)
    (hload : (headerOf f noffH).Loadable) :
    (vmSystem files).Reachable (secondRuns files fileName f (headerOf f noffH)) := by
  have h₃ : (vmSystem files).step _ (.switch 1) _ :=
    step_secondRuns files fileName f (headerOf f noffH)
  exact .step (reachable_loadedTwice hf hload) h₃

private theorem victim_secondRuns (files : FileName → Option HostFile) (fileName : FileName)
    (f : HostFile) (h : NoffHeader) : (secondRuns files fileName f h).victim = 0 :=
  victim_loadedTwice files fileName f h

theorem owner_secondRuns (files : FileName → Option HostFile) (fileName : FileName)
    (f : HostFile) (h : NoffHeader) :
    (secondRuns files fileName f h).owner (secondRuns files fileName f h).victim =
      some (0, 0) := by
  rw [victim_secondRuns]
  rfl

private theorem frame_secondRuns {noffH : Nat → Byte} (hf : files fileName = some f)
    (hload : (headerOf f noffH).Loadable) {addr : Word}
    (haddr : addr.toNat / pageSize < (headerOf f noffH).numPages) (input : HostFile) :
    ((secondRuns files fileName f (headerOf f noffH)).afterFault addr 1 0 0 input).frame
      (1, addr.toNat / pageSize) = some 0 := by
  have hinv := (inv_inductive files).of_reachable (reachable_secondRuns hf hload)
  have hpt : (secondRuns files fileName f (headerOf f noffH)).pageTable = some 1 := rfl
  rw [hinv.frame_afterFault hpt haddr, if_pos rfl, victim_secondRuns]

private theorem access_secondRuns {noffH : Nat → Byte} (hf : files fileName = some f)
    (hload : (headerOf f noffH).Loadable) {addr : Word} {size : Nat}
    (haddr : addr.toNat / pageSize < (headerOf f noffH).numPages)
    (hal : Aligned addr size) (hs : size = 1 ∨ size = 2 ∨ size = 4) (vir : Int) :
    (secondRuns files fileName f (headerOf f noffH)).access addr size false vir =
      some (((secondRuns files fileName f (headerOf f noffH)).afterFault addr 1 0 0 f).touch
        1 (addr.toNat / pageSize) 0 false, addr.toNat % pageSize) := by
  have hinv := (inv_inductive files).of_reachable (reachable_secondRuns hf hload)
  have hvic := victim_secondRuns files fileName f (headerOf f noffH)
  have hv : addr.toNat / pageSize < numPhysPages := Nat.lt_of_lt_of_le haddr hload.pages
  have hframe : (secondRuns files fileName f (headerOf f noffH)).frame
      (1, addr.toNat / pageSize) = none := by
    apply frame_eq_none
    right
    show ((loadedTwice files fileName f (headerOf f noffH)).tables 1 _).physicalPage = -1
    rw [loadedTwice]
    exact congrArg _ (newSpace_tables _ _ _ hv)
  have hown := owner_secondRuns files fileName f (headerOf f noffH)
  have hin : (secondRuns files fileName f (headerOf f noffH)).writeBack 0 0
      ((secondRuns files fileName f (headerOf f noffH)).diskFile 1) = some f := hf
  rw [hinv.access_afterFault rfl haddr hal hs hframe hown hin _ false vir, hvic, Nat.zero_mul,
    Nat.zero_add]
  intro i _ p hp
  exact reloadOffset_nonneg hload hp

theorem readMem_secondRuns {noffH : Nat → Byte} (hf : files fileName = some f)
    (hload : (headerOf f noffH).Loadable) {addr : Word}
    (haddr : addr.toNat / pageSize < (headerOf f noffH).numPages) (vir : Int) :
    ((secondRuns files fileName f (headerOf f noffH)).readMem addr 1 vir).map Prod.snd =
      some (((fileByte f (headerOf f noffH).fileAddr addr.toNat).getD
        (imageOver f (headerOf f noffH) (fun _ => 0) (addr.toNat % pageSize))).signExtend 32) := by
  have hal : Aligned addr 1 := by
    unfold Aligned
    omega
  have hmem : (secondRuns files fileName f (headerOf f noffH)).mainMemory =
      imageOver f (headerOf f noffH) fun _ => 0 := rfl
  have haddrs : (secondRuns files fileName f (headerOf f noffH)).fileAddr =
      (headerOf f noffH).fileAddr := rfl
  have hfill := filled_frame f (headerOf f noffH).fileAddr (addr.toNat / pageSize) 0
    (imageOver f (headerOf f noffH) fun _ => 0)
    (Nat.mod_lt addr.toNat (show 0 < pageSize by decide))
  rw [Nat.zero_mul, Nat.zero_add, Nat.div_add_mod'] at hfill
  rw [readMem_of_access (access_secondRuns hf hload haddr hal (.inl rfl) vir), touch_mainMemory,
    afterFault_mainMemory, victim_secondRuns, hmem, haddrs, fetch, hfill]
  rfl

end LoadedTwice

end Vm

/-- The two tables agree in every reachable state, so each frame has one page, and every frame
number in use is the number of a frame. -/
theorem frame_ownership {files : FileName → Option HostFile} {m : Vm}
    (hr : (vmSystem files).Reachable m) :
    (∀ t s, m.spaces t = some s → ∀ v < numPhysPages, ∀ p : Int,
      ((m.tables s.pageTable v).valid = true ∧ (m.tables s.pageTable v).physicalPage = p ∧
        p ≠ -1) ↔
      (0 ≤ p ∧ p < numPhysPages ∧
        (m.globalPageTable p.toNat).refPageTable = some s.pageTable ∧
        (m.globalPageTable p.toNat).virNum = v)) ∧
    (∀ t s t' s', m.spaces t = some s → m.spaces t' = some s' →
      ∀ v < numPhysPages, ∀ v' < numPhysPages,
      (m.tables s.pageTable v).valid = true → (m.tables s.pageTable v).physicalPage ≠ -1 →
      (m.tables s'.pageTable v').valid = true →
      (m.tables s.pageTable v).physicalPage = (m.tables s'.pageTable v').physicalPage →
      s.pageTable = s'.pageTable ∧ v = v') ∧
    (∀ t s, m.spaces t = some s → ∀ v < numPhysPages,
      (m.tables s.pageTable v).valid = true → (m.tables s.pageTable v).physicalPage ≠ -1 →
      0 ≤ (m.tables s.pageTable v).physicalPage ∧
        (m.tables s.pageTable v).physicalPage < numPhysPages) := by
  have h := (Vm.inv_inductive files).of_reachable hr
  have hiff : ∀ t s, m.spaces t = some s → ∀ v < numPhysPages, ∀ p : Int,
      ((m.tables s.pageTable v).valid = true ∧ (m.tables s.pageTable v).physicalPage = p ∧
        p ≠ -1) ↔
      (0 ≤ p ∧ p < numPhysPages ∧
        (m.globalPageTable p.toNat).refPageTable = some s.pageTable ∧
        (m.globalPageTable p.toNat).virNum = v) := by
    intro t s hs v hv p
    have ht : s.pageTable < m.nextTable := by
      rw [(h.space t s hs).1, ← h.loaded, hs]
      rfl
    constructor
    · rintro ⟨hvalid, hphys, hne⟩
      have hf : m.frame (s.pageTable, v) = some p.toNat := by
        simp [Vm.frame, ht, hv, hvalid, hphys, hne]
      obtain ⟨hp, -, -, href, hvir, hmap⟩ := h.owner_cases ((h.agree _ _).mp hf)
      have heq : p = p.toNat := hphys.symm.trans hmap.physicalPage
      exact ⟨by omega, by omega, href, hvir⟩
    · rintro ⟨hp₀, hp₁, href, hvir⟩
      have hown : m.owner p.toNat = some (s.pageTable, v) := by
        have hlt : p.toNat < numPhysPages := by omega
        simp [Vm.owner, hlt, href, hvir]
      have hmap := (h.owner_cases hown).2.2.2.2.2
      refine ⟨hmap.valid, ?_, by omega⟩
      rw [hmap.physicalPage, Int.toNat_of_nonneg hp₀]
  refine ⟨hiff, ?_, ?_⟩
  · intro t s t' s' hs hs' v hv v' hv' hvalid hne hvalid' heq
    obtain ⟨-, -, href, hvir⟩ := (hiff t s hs v hv _).mp ⟨hvalid, rfl, hne⟩
    obtain ⟨-, -, href', hvir'⟩ := (hiff t' s' hs' v' hv' _).mp ⟨hvalid', heq.symm, hne⟩
    exact ⟨Option.some.inj (href.symm.trans href'), by omega⟩
  · intro t s hs v hv hvalid hne
    obtain ⟨hp₀, hp₁, -⟩ := (hiff t s hs v hv _).mp ⟨hvalid, rfl, hne⟩
    exact ⟨hp₀, hp₁⟩

def noffFile (words : List Word) (size : Nat) (fill : Byte) : HostFile where
  size := size
  data i := if i < noffHeaderSize then (words.getD (i / 4) 0).extractLsb' (8 * (i % 4)) 8
    else fill

def onePage : HostFile := noffFile [0xbadfad, 0, 52, 128] 180 0x5a

def onePageHeader : NoffHeader :=
  { noffMagic := noffMagicNumber, code := ⟨0, 52, 128⟩, initData := ⟨0, 0, 0⟩,
    readonlyData := ⟨0, 0, 0⟩, uninitData := ⟨0, 0, 0⟩ }

theorem headerOf_onePage : Vm.headerOf onePage (fun _ => 0) = onePageHeader := by
  rfl

theorem loadable_onePage : (Vm.headerOf onePage fun _ => 0).Loadable := by
  rw [headerOf_onePage]
  constructor <;> decide

theorem backed_onePage (i : Nat) (hi : i < pageSize) :
    (fileByte onePage (Vm.headerOf onePage fun _ => 0).fileAddr i).isSome = true := by
  have hcode : (0 : Int) ≤ i ∧ (i : Int) < 0 + 128 := by
    simp only [pageSize] at hi
    omega
  have hin : (0 : Int) ≤ 52 + i - 0 ∧ 52 + (i : Int) - 0 < (180 : Nat) := by omega
  rw [headerOf_onePage, fileByte, reloadOffset]
  simp only [NoffHeader.fileAddr, onePageHeader]
  rw [int32_of_range (by decide : (-2 ^ 31 : Int) ≤ 0 + 128 ∧ (0 + 128 : Int) < 2 ^ 31),
    if_pos hcode, Option.bind_some, int32_of_range (by omega), HostFile.byte?,
    if_pos (by exact hin)]
  rfl

def onePageDisk : FileName → Option HostFile := fun _ => some onePage

def secondStarts : Vm := Vm.secondRuns onePageDisk "a" onePage (Vm.headerOf onePage fun _ => 0)

theorem reachable_secondStarts : (vmSystem onePageDisk).Reachable secondStarts :=
  Vm.reachable_secondRuns (show onePageDisk "a" = some onePage from rfl) loadable_onePage

def secondReads : Vm := (secondStarts.afterFault 128 1 0 0 onePage).touch 1 1 0 false

theorem access_secondReads (vir : Int) :
    secondStarts.access 128 1 false vir = some (secondReads, 0) := by
  have hsize : (128 : Word).toNat / pageSize < (Vm.headerOf onePage fun _ => 0).numPages := by
    rw [headerOf_onePage]
    decide
  exact Vm.access_secondRuns rfl loadable_onePage hsize (show Vm.Aligned 128 1 by decide) (.inl rfl)
    vir

theorem reachable_secondReads : (vmSystem onePageDisk).Reachable secondReads := by
  have hstep : secondStarts.step (.read 128 1 0) = some secondReads := by
    simp only [Vm.step, Vm.readMem_of_access (access_secondReads 0), fetch, Option.map_some]
  exact reachable_secondStarts.step hstep

theorem frame_secondReads : secondReads.frame (1, 1) = some 0 := by
  have hsize : (128 : Word).toNat / pageSize < (Vm.headerOf onePage fun _ => 0).numPages := by
    rw [headerOf_onePage]
    decide
  rw [secondReads, Vm.frame_touch]
  exact Vm.frame_secondRuns (show onePageDisk "a" = some onePage from rfl) loadable_onePage hsize
    onePage

theorem frame_ownership_evicted :
    ∃ m, (vmSystem onePageDisk).Reachable m ∧ (m.tables 1 1).valid = true ∧
      (m.tables 1 1).physicalPage = 0 ∧ (m.globalPageTable 0).refPageTable = some 1 ∧
      (m.globalPageTable 0).virNum = 1 := by
  have hspace : secondReads.spaces 1 =
      some { pageTable := 1, numPages := (Vm.headerOf onePage fun _ => 0).numPages,
             fileAddr := (Vm.headerOf onePage fun _ => 0).fileAddr } := rfl
  obtain ⟨hvalid, hphys, -⟩ :=
    ((Vm.inv_inductive onePageDisk).of_reachable reachable_secondReads).mapped frame_secondReads
  have hboth := ((frame_ownership reachable_secondReads).1 1 _ hspace 1 (by decide) 0).mp
    ⟨hvalid, hphys, by decide⟩
  exact ⟨secondReads, reachable_secondReads, hvalid, hphys, hboth.2.2⟩

end Nachos

import Nachos.Userprog.Effects

/-!
# The invariant of the memory system

What holds of the page tables in every reachable state, and what a page fault does there. From
the first load on all frames are taken, so the handler always takes a frame away from the page
that owns it, and an access either finds its page in memory or continues after one page fault.
-/

namespace Nachos

open Framework

namespace HostFile

/-- The file after a successful `WriteAt`. -/
def written (f : HostFile) (memory : Nat → Byte) (start numBytes position : Nat) : HostFile :=
  { size := max f.size (position + numBytes),
    data := fun i =>
      if position ≤ i ∧ i < position + numBytes then memory (start + (i - position))
      else if i < f.size then f.data i else 0 }

private theorem writeAt_nat (f : HostFile) (memory : Nat → Byte) (start numBytes position : Nat) :
    f.writeAt memory start numBytes position =
      some (f.written memory start numBytes position) := by
  have hneg : ¬ (position : Int) < 0 := by omega
  simp only [writeAt, hneg, if_false, Int.toNat_natCast, written]

end HostFile

namespace Vm

def frame (m : Vm) (a : Nat × Nat) : Option Nat :=
  if a.1 < m.nextTable ∧ a.2 < numPhysPages ∧ (m.tables a.1 a.2).valid = true ∧
      (m.tables a.1 a.2).physicalPage ≠ -1 then
    some (m.tables a.1 a.2).physicalPage.toNat
  else none

def owner (m : Vm) (p : Nat) : Option (Nat × Nat) :=
  if p < numPhysPages then
    (m.globalPageTable p).refPageTable.map fun t => (t, (m.globalPageTable p).virNum.toNat)
  else none

def diskFile (m : Vm) (t : Nat) : FileName := (m.tables t 0).diskFile

structure EntryInv (m : Vm) (t : Nat) (v : Nat) : Prop where
  virtualPage : (m.tables t v).virtualPage = v
  writable : (m.tables t v).readOnly = false
  frame : (m.tables t v).physicalPage = -1 ∨
    ∃ p : Nat, p < numPhysPages ∧ (m.tables t v).physicalPage = p
  diskFile : (m.tables t v).diskFile = m.diskFile t
  file : (m.files (m.diskFile t)).isSome = true

structure Inv (m : Vm) : Prop where
  loaded : ∀ t, (m.spaces t).isSome = true ↔ t < m.nextTable
  space : ∀ t s, m.spaces t = some s → s.pageTable = t ∧ s.numPages ≤ numPhysPages
  current : ∀ t, m.pageTable = some t →
    ∃ s, m.spaces t = some s ∧ m.pageTableSize = s.numPages ∧ m.fileAddr = s.fileAddr
  entry : ∀ t < m.nextTable, ∀ v < numPhysPages, m.EntryInv t v
  agree : Agree m.frame m.owner
  taken : ∀ p < numPhysPages, ∀ t, (m.globalPageTable p).refPageTable = some t →
    t < m.nextTable ∧ ∃ v : Nat, v < numPhysPages ∧ (m.globalPageTable p).virNum = v
  full : 0 < m.nextTable → ∀ p < numPhysPages,
    (m.globalPageTable p).refPageTable.isSome = true
  start : m.nextTable = 0 → m.mainMemory = (fun _ => 0) ∧
    ∀ p < numPhysPages, (m.globalPageTable p).refPageTable = none
  loadTarget : (m.registers loadReg).toNat < 32

variable {m : Vm}

theorem Inv.new (files : FileName → Option HostFile) : (Vm.new files).Inv where
  loaded t := by simp [Vm.new]
  space t s h := by simp [Vm.new] at h
  current t h := by simp [Vm.new] at h
  entry t ht := by simp [Vm.new] at ht
  agree := by
    apply Agree.empty.congr
    · intro a
      simp [frame, Vm.new]
    · intro p
      simp [owner, Vm.new]
  taken p _ t h := by simp [Vm.new] at h
  full h := by simp [Vm.new] at h
  start _ := ⟨rfl, fun _ _ => rfl⟩
  loadTarget := by simp [Vm.new]

theorem Inv.current_lt (h : m.Inv) {t : Nat} (hpt : m.pageTable = some t) :
    t < m.nextTable := by
  obtain ⟨s, hs, -⟩ := h.current t hpt
  rw [← h.loaded, hs]
  rfl

theorem Inv.vpn_lt (h : m.Inv) {t : Nat} (hpt : m.pageTable = some t) {v : Nat}
    (hv : v < m.pageTableSize) : v < numPhysPages := by
  obtain ⟨s, hs, hsize, -⟩ := h.current t hpt
  have := (h.space t s hs).2
  omega

theorem Inv.of_same (h : m.Inv) {m' : Vm} (hnext : m'.nextTable = m.nextTable)
    (hspaces : m'.spaces = m.spaces) (hfiles : m'.files = m.files)
    (hcur : ∀ t, m'.pageTable = some t →
      ∃ s, m.spaces t = some s ∧ m'.pageTableSize = s.numPages ∧ m'.fileAddr = s.fileAddr)
    (htables : ∀ t v, (m'.tables t v).virtualPage = (m.tables t v).virtualPage ∧
      (m'.tables t v).readOnly = (m.tables t v).readOnly ∧
      (m'.tables t v).physicalPage = (m.tables t v).physicalPage ∧
      (m'.tables t v).valid = (m.tables t v).valid ∧
      (m'.tables t v).diskFile = (m.tables t v).diskFile)
    (hglobal : ∀ p, (m'.globalPageTable p).virNum = (m.globalPageTable p).virNum ∧
      (m'.globalPageTable p).refPageTable = (m.globalPageTable p).refPageTable)
    (hmemory : m.nextTable = 0 → m'.mainMemory = m.mainMemory)
    (hreg : (m'.registers loadReg).toNat < 32) : m'.Inv where
  loaded t := by
    rw [hspaces, hnext]
    exact h.loaded t
  space t s hs := h.space t s (hspaces ▸ hs)
  current t hpt := by
    rw [hspaces]
    exact hcur t hpt
  entry t ht v hv := by
    have he := h.entry t (hnext ▸ ht) v hv
    have hdisk : m'.diskFile t = m.diskFile t := (htables t 0).2.2.2.2
    obtain ⟨h₁, h₂, h₃, h₄, h₅⟩ := htables t v
    constructor
    · rw [h₁, he.virtualPage]
    · rw [h₂, he.writable]
    · rw [h₃]
      exact he.frame
    · rw [h₅, hdisk, he.diskFile]
    · rw [hfiles, hdisk]
      exact he.file
  agree := by
    apply h.agree.congr
    · intro a
      obtain ⟨-, -, h₃, h₄, -⟩ := htables a.1 a.2
      simp only [frame, hnext, h₃, h₄]
    · intro p
      obtain ⟨h₁, h₂⟩ := hglobal p
      simp only [owner, h₁, h₂]
  taken p hp t href := by
    obtain ⟨h₁, h₂⟩ := hglobal p
    rw [h₁, hnext]
    exact h.taken p hp t (h₂ ▸ href)
  full hpos p hp := by
    rw [(hglobal p).2]
    exact h.full (hnext ▸ hpos) p hp
  start hz := by
    have hz' : m.nextTable = 0 := by rw [← hnext, hz]
    rw [hmemory hz']
    refine ⟨(h.start hz').1, ?_⟩
    intro p hp
    rw [(hglobal p).2]
    exact (h.start hz').2 p hp
  loadTarget := hreg

theorem Inv.withMemory (h : m.Inv) (hpos : 0 < m.nextTable) (memory : Nat → Byte) :
    { m with mainMemory := memory }.Inv :=
  h.of_same rfl rfl rfl h.current (fun _ _ => ⟨rfl, rfl, rfl, rfl, rfl⟩)
    (fun _ => ⟨rfl, rfl⟩) (fun hz => by omega) h.loadTarget

theorem Inv.withRegisters (h : m.Inv) {r : Nat → Word} (hr : (r loadReg).toNat < 32) :
    { m with registers := r }.Inv :=
  h.of_same rfl rfl rfl h.current (fun _ _ => ⟨rfl, rfl, rfl, rfl, rfl⟩)
    (fun _ => ⟨rfl, rfl⟩) (fun _ => rfl) hr

theorem Inv.restoreState (h : m.Inv) {t : Nat} {s : AddrSpace} (hs : m.spaces t = some s) :
    (m.restoreState s).Inv := by
  have hcur : ∀ t', some s.pageTable = some t' →
      ∃ s', m.spaces t' = some s' ∧ s.numPages = s'.numPages ∧ s.fileAddr = s'.fileAddr := by
    intro t' hpt
    have ht : t' = t := by
      rw [← (h.space t s hs).1]
      exact (Option.some.inj hpt).symm
    exact ⟨s, ht ▸ hs, rfl, rfl⟩
  exact h.of_same rfl rfl rfl hcur (fun _ _ => ⟨rfl, rfl, rfl, rfl, rfl⟩)
    (fun _ => ⟨rfl, rfl⟩) (fun _ => rfl) h.loadTarget

theorem touch_tables (t : Nat) (v phy : Nat) (writing : Bool) (t' : Nat) (v' : Nat) :
    (m.touch t v phy writing).tables t' v' =
      if t' = t ∧ v' = v then
        { m.tables t v with use := true, dirty := (m.tables t v).dirty || writing }
      else m.tables t' v' := by
  simp only [touch, setEntry, Function.update_apply]
  by_cases ht : t' = t
  · subst ht
    simp [Function.update_apply]
  · simp [ht]

@[simp] theorem frame_touch (t v phy : Nat) (writing : Bool) (a : Nat × Nat) :
    (m.touch t v phy writing).frame a = m.frame a := by
  have hnext : (m.touch t v phy writing).nextTable = m.nextTable := rfl
  unfold frame
  rw [hnext, touch_tables]
  split
  next heq =>
    obtain ⟨h₁, h₂⟩ := heq
    simp only [h₁, h₂]
  next => rfl

theorem touch_mainMemory (t v phy : Nat) (writing : Bool) :
    (m.touch t v phy writing).mainMemory = m.mainMemory := rfl

theorem Inv.touch (h : m.Inv) (t : Nat) (v phy : Nat) (writing : Bool) :
    (m.touch t v phy writing).Inv := by
  refine h.of_same rfl rfl rfl h.current ?_ ?_ (fun _ => rfl) h.loadTarget
  · intro t' v'
    rw [touch_tables]
    split
    next heq =>
      obtain ⟨rfl, rfl⟩ := heq
      exact ⟨rfl, rfl, rfl, rfl, rfl⟩
    next => exact ⟨rfl, rfl, rfl, rfl, rfl⟩
  · intro p
    simp only [Vm.touch, Function.update_apply]
    split
    next heq =>
      subst heq
      exact ⟨rfl, rfl⟩
    next => exact ⟨rfl, rfl⟩

/-! ## Loads -/

theorem newSpace_tables (fileName : FileName) (header : NoffHeader) (phy : Nat → Int)
    {v : Nat} (hv : v < numPhysPages) :
    (m.newSpace fileName header phy).tables m.nextTable v = freshEntry fileName v (phy v) := by
  simp [newSpace, hv]

theorem newSpace_tables_of_ne (fileName : FileName) (header : NoffHeader) (phy : Nat → Int)
    {t : Nat} (ht : t ≠ m.nextTable) (v : Nat) :
    (m.newSpace fileName header phy).tables t v = m.tables t v := by
  simp [newSpace, ht]

theorem frame_newSpace (fileName : FileName) (header : NoffHeader) (phy : Nat → Int)
    (a : Nat × Nat) :
    (m.newSpace fileName header phy).frame a =
      if a.1 = m.nextTable then
        if a.2 < numPhysPages ∧ phy a.2 ≠ -1 then some (phy a.2).toNat else none
      else m.frame a := by
  have hnext : (m.newSpace fileName header phy).nextTable = m.nextTable + 1 := rfl
  by_cases ha : a.1 = m.nextTable
  · rw [if_pos ha]
    by_cases hv : a.2 < numPhysPages
    · simp only [frame, hnext, ha, newSpace_tables fileName header phy hv, hv]
      simp [freshEntry]
    · simp only [frame, hv, false_and, and_false, if_false]
  · have hlt : a.1 < m.nextTable + 1 ↔ a.1 < m.nextTable := by omega
    simp only [frame, hnext, newSpace_tables_of_ne fileName header phy ha, hlt, ha, if_false]

private theorem Inv.newSpace (h : m.Inv) {f : HostFile} {fileName : FileName}
    (hf : m.files fileName = some f) {header : NoffHeader}
    (hpages : header.numPages ≤ numPhysPages) {phy : Nat → Int} {memory : Nat → Byte}
    {global : Nat → GlobalEntry}
    (hphy : ∀ v < numPhysPages, phy v = -1 ∨ ∃ p : Nat, p < numPhysPages ∧ phy v = p)
    (hagree : Agree (m.newSpace fileName header phy).frame
      (owner { m with globalPageTable := global }))
    (htaken : ∀ p < numPhysPages, ∃ t, (global p).refPageTable = some t ∧
      t < m.nextTable + 1 ∧ ∃ v : Nat, v < numPhysPages ∧ (global p).virNum = v) :
    { m.newSpace fileName header phy with
      mainMemory := memory, globalPageTable := global }.Inv where
  loaded t := by
    by_cases ht : t = m.nextTable
    · simp [Vm.newSpace, ht]
    · simp only [Vm.newSpace, Function.update_of_ne ht, h.loaded]
      omega
  space t s hs := by
    by_cases ht : t = m.nextTable
    · subst ht
      simp only [Vm.newSpace, Function.update_self, Option.some.injEq] at hs
      subst hs
      exact ⟨rfl, hpages⟩
    · simp only [Vm.newSpace, Function.update_of_ne ht] at hs
      exact h.space t s hs
  current t hpt := by
    obtain ⟨s, hs, hrest⟩ := h.current t hpt
    have ht : t ≠ m.nextTable := by
      have := h.current_lt hpt
      omega
    refine ⟨s, ?_, hrest⟩
    simp only [Vm.newSpace, Function.update_of_ne ht, hs]
  entry t ht v hv := by
    by_cases heq : t = m.nextTable
    · subst heq
      have h₀ := newSpace_tables (m := m) fileName header phy (show 0 < numPhysPages by decide)
      have he := newSpace_tables (m := m) fileName header phy hv
      constructor
      · show ((m.newSpace fileName header phy).tables _ v).virtualPage = v
        rw [he]
        rfl
      · show ((m.newSpace fileName header phy).tables _ v).readOnly = false
        rw [he]
        rfl
      · show ((m.newSpace fileName header phy).tables _ v).physicalPage = -1 ∨ _
        rw [he]
        exact hphy v hv
      · show ((m.newSpace fileName header phy).tables _ v).diskFile =
          ((m.newSpace fileName header phy).tables _ 0).diskFile
        rw [he, h₀]
        rfl
      · show (m.files ((m.newSpace fileName header phy).tables _ 0).diskFile).isSome = true
        rw [h₀]
        simp [freshEntry, hf]
    · have he := h.entry t (by simp only [Vm.newSpace] at ht; omega) v hv
      have h₀ := newSpace_tables_of_ne (m := m) fileName header phy heq
      constructor
      · exact (congrArg _ (h₀ v)).trans he.virtualPage
      · exact (congrArg _ (h₀ v)).trans he.writable
      · show ((m.newSpace fileName header phy).tables _ v).physicalPage = -1 ∨ _
        rw [h₀ v]
        exact he.frame
      · show ((m.newSpace fileName header phy).tables _ v).diskFile =
          ((m.newSpace fileName header phy).tables _ 0).diskFile
        rw [h₀ v, h₀ 0]
        exact he.diskFile
      · show (m.files ((m.newSpace fileName header phy).tables _ 0).diskFile).isSome = true
        rw [h₀ 0]
        exact he.file
  agree := hagree
  taken p hp t href := by
    obtain ⟨t', href', hlt, hv⟩ := htaken p hp
    cases Option.some.inj (href.symm.trans href')
    exact ⟨hlt, hv⟩
  full _ p hp := by
    obtain ⟨t', href', -⟩ := htaken p hp
    simp [href']
  start hz := by simp [Vm.newSpace] at hz
  loadTarget := h.loadTarget

private theorem Inv.load_free (h : m.Inv) (hz : m.nextTable = 0) {f : HostFile}
    {fileName : FileName} (hf : m.files fileName = some f) {header : NoffHeader}
    (hpages : header.numPages ≤ numPhysPages) (memory : Nat → Byte) :
    { m.newSpace fileName header (fun v => v) with
      mainMemory := memory, globalPageTable := m.allFrames }.Inv := by
  apply h.newSpace hf hpages
  · intro v hv
    exact .inr ⟨v, hv, rfl⟩
  · intro a p
    have hold : m.frame a = none := by
      have : ¬ a.1 < m.nextTable := by omega
      simp only [frame, this, false_and, if_false]
    have hne : ((a.2 : Nat) : Int) ≠ -1 := by omega
    rw [frame_newSpace, hold]
    simp only [owner, allFrames, hne, ne_eq, not_false_eq_true, and_true, Int.toNat_natCast]
    by_cases hp : p < numPhysPages
    · simp only [hp, if_true, Option.map_some, Option.some.injEq, Int.toNat_natCast,
        Prod.ext_iff]
      split
      next ha =>
        split
        next => simp [ha, eq_comm]
        next hv =>
          simp only [reduceCtorEq, false_iff]
          omega
      next ha =>
        simp only [reduceCtorEq, false_iff]
        omega
    · simp only [hp, if_false, reduceCtorEq, iff_false]
      split
      next =>
        split
        next hv =>
          simp only [Option.some.injEq]
          omega
        next => simp
      next => simp
  · intro p hp
    exact ⟨m.nextTable, by simp [allFrames, hp], by omega, p, hp, by simp [allFrames, hp]⟩

private theorem Inv.load_full (h : m.Inv) (hpos : 0 < m.nextTable) {f : HostFile}
    {fileName : FileName} (hf : m.files fileName = some f) {header : NoffHeader}
    (hpages : header.numPages ≤ numPhysPages) :
    (m.newSpace fileName header (fun _ => -1)).Inv := by
  apply h.newSpace hf hpages
  · intro v _
    exact .inl rfl
  · apply h.agree.congr
    · intro a
      rw [frame_newSpace]
      split
      next ha =>
        have : ¬ a.1 < m.nextTable := by omega
        simp only [frame, this, false_and, if_false, ne_eq, not_true_eq_false, and_false]
      next => rfl
    · intro p
      rfl
  · intro p hp
    obtain ⟨t, href⟩ := Option.isSome_iff_exists.mp (h.full hpos p hp)
    obtain ⟨ht, hv⟩ := h.taken p hp t href
    exact ⟨t, href, by omega, hv⟩

theorem Inv.load (h : m.Inv) {m' : Vm} {fileName : FileName} {noffH : Nat → Byte}
    (hl : m.load fileName noffH = some m') : m'.Inv := by
  rcases Nat.eq_zero_or_pos m.nextTable with hz | hpos
  · obtain ⟨-, rfl⟩ | ⟨f, hf, hpages, rfl⟩ := Vm.load_free (h.start hz).2 hl
    · exact h
    · exact h.load_free hz hf hpages _
  · obtain ⟨-, rfl⟩ | ⟨f, hf, hpages, rfl⟩ := Vm.load_full (h.full hpos) hl
    · exact h
    · exact h.load_full hpos hf hpages

/-! ## Page faults -/

def victim (m : Vm) : Nat := m.findFreeByLRU.getD 0

/-- The files after the page `w` of table `ref` was evicted from the victim's frame. -/
def writeBack (m : Vm) (ref w : Nat) : FileName → Option HostFile :=
  if (m.tables ref w).dirty then
    Function.update m.files (m.diskFile ref)
      ((m.files (m.diskFile ref)).map fun f =>
        f.written m.mainMemory (m.victim * pageSize) pageSize (w * pageSize))
  else m.files

/-- The machine after page `v` of table `t` took the victim's frame from page `w` of `ref`. -/
def replace (m : Vm) (t v ref w : Nat) (memory : Nat → Byte) : Vm :=
  ({ m with files := m.writeBack ref w, mainMemory := memory }.setEntry ref w
    { m.tables ref w with valid := false }).assign t v m.victim

private theorem owner_eq_some {p ref w : Nat} (h : m.owner p = some (ref, w)) :
    p < numPhysPages ∧ (m.globalPageTable p).refPageTable = some ref ∧
      (m.globalPageTable p).virNum.toNat = w := by
  unfold owner at h
  split at h
  next hp =>
    obtain ⟨t, ht, heq⟩ := Option.map_eq_some_iff.mp h
    cases heq
    exact ⟨hp, ht, rfl⟩
  next => contradiction

theorem Inv.owner_cases (h : m.Inv) {p ref w : Nat} (hown : m.owner p = some (ref, w)) :
    p < numPhysPages ∧ ref < m.nextTable ∧ w < numPhysPages ∧
      (m.globalPageTable p).refPageTable = some ref ∧ (m.globalPageTable p).virNum = w ∧
      Mapped (m.tables ref w) p := by
  obtain ⟨hp, href, hw⟩ := owner_eq_some hown
  obtain ⟨hlt, w', hw', hvir⟩ := h.taken p hp ref href
  obtain rfl : w = w' := by
    rw [← hw, hvir]
    rfl
  have hframe := (h.agree (ref, w) p).mpr hown
  unfold frame at hframe
  split at hframe
  next hmap =>
    obtain ⟨-, -, hvalid, hne⟩ := hmap
    refine ⟨hp, hlt, hw', href, hvir, hvalid, ?_, hp⟩
    rcases (h.entry ref hlt w hw').frame with hneg | ⟨q, -, hq⟩
    · exact absurd hneg hne
    · rw [hq, Int.toNat_natCast] at hframe
      rw [hq, Option.some.inj hframe]
  next => contradiction

theorem Inv.victim_owner (h : m.Inv) (hpos : 0 < m.nextTable) :
    m.findFreeByLRU = some m.victim ∧ ∃ ref w, m.owner m.victim = some (ref, w) := by
  obtain ⟨p, hp, hlru⟩ := findFreeByLRU_full (h.full hpos)
  have hvic : m.victim = p := by simp [victim, hlru]
  obtain ⟨ref, href⟩ := Option.isSome_iff_exists.mp (h.full hpos p hp)
  rw [hvic]
  refine ⟨hlru, ref, (m.globalPageTable p).virNum.toNat, ?_⟩
  simp [owner, hp, href]

private theorem Inv.evict_eq (h : m.Inv) (hpos : 0 < m.nextTable) {ref w : Nat}
    (hown : m.owner m.victim = some (ref, w)) :
    m.evict = some (m.victim, (w : Int), { m with files := m.writeBack ref w }) := by
  obtain ⟨hp, hlt, hw, href, hvir, -⟩ := h.owner_cases hown
  have hlru := (h.victim_owner hpos).1
  have he := h.entry ref hlt w hw
  obtain ⟨f, hf⟩ := Option.isSome_iff_exists.mp he.file
  have hidx : arrayIndex numPhysPages (w : Int) = some w := arrayIndex_eq_some.mpr ⟨rfl, hw⟩
  have hpage : (w : Int) * (pageSize : Nat) = (w * pageSize : Nat) := by simp
  simp only [evict, hlru, Option.bind_eq_bind, Option.bind_some, href, hvir, hidx, he.diskFile,
    hf, he.virtualPage]
  rw [hpage, HostFile.writeAt_nat]
  by_cases hd : (m.tables ref w).dirty = true
  · simp [hd, writeBack, hf]
  · simp [hd, writeBack]

theorem invalidate_eq {p ref w : Nat} (href : (m.globalPageTable p).refPageTable = some ref)
    (hw : w < numPhysPages) :
    m.invalidate p w = some (m.setEntry ref w { m.tables ref w with valid := false }) := by
  have hidx : arrayIndex numPhysPages (w : Int) = some w := arrayIndex_eq_some.mpr ⟨rfl, hw⟩
  simp only [invalidate, href, hidx, Option.bind_eq_bind, Option.bind_some]

private theorem Inv.pageFault_eq (h : m.Inv) {t v ref w : Nat} {input : HostFile}
    (hpt : m.pageTable = some t) (hv : v < numPhysPages)
    (hbad : (m.registers badVAddrReg).toInt.tdiv pageSize = v)
    (hown : m.owner m.victim = some (ref, w))
    (hin : m.writeBack ref w (m.diskFile t) = some input) (vir : Int) :
    m.pageFault vir =
      ((List.range pageSize).foldlM (fillByte input m.fileAddr v m.victim) m.mainMemory).map
        (m.replace t v ref w) := by
  have hpos : 0 < m.nextTable := Nat.zero_lt_of_lt (h.current_lt hpt)
  have hdisk := (h.entry t (h.current_lt hpt) v hv).diskFile
  have hidx : arrayIndex numPhysPages (v : Int) = some v := arrayIndex_eq_some.mpr ⟨rfl, hv⟩
  obtain ⟨-, -, hw, href, -⟩ := h.owner_cases hown
  simp only [pageFault, hbad, hpt, findFreeFrame_full (h.full hpos), if_true,
    h.evict_eq hpos hown, Option.bind_eq_bind, Option.bind_some, hidx, hdisk, hin]
  cases (List.range pageSize).foldlM (fillByte input m.fileAddr v m.victim) m.mainMemory with
  | none => rfl
  | some memory =>
    rw [Option.bind_some, invalidate_eq (by exact href) hw, Option.bind_some, Option.map_some,
      replace, hpt]

theorem raiseException_badVAddr (hr : (m.registers loadReg).toNat < 32) (addr : Word) :
    (m.raiseException addr).registers badVAddrReg = addr := by
  have hreg : (Function.update m.registers badVAddrReg addr) loadReg = m.registers loadReg :=
    Function.update_of_ne (by decide) _ _
  have hne : badVAddrReg ≠ (m.registers loadReg).toNat := by
    simp only [badVAddrReg]
    omega
  simp only [raiseException, delayedLoad, hreg]
  rw [Function.update_of_ne (by decide), Function.update_of_ne (by decide),
    Function.update_of_ne (by decide), Function.update_of_ne hne, Function.update_self]

theorem Inv.raiseException (h : m.Inv) (addr : Word) : (m.raiseException addr).Inv := by
  apply h.withRegisters
  have hzero : delayedLoad (Function.update m.registers badVAddrReg addr) 0 0 loadReg = 0 := by
    simp only [delayedLoad]
    rw [Function.update_of_ne (by decide), Function.update_of_ne (by decide),
      Function.update_self]
  rw [hzero]
  decide

theorem toInt_tdiv_pageSize {addr : Word} {v : Nat} (hv : addr.toNat / pageSize = v)
    (hlt : v < numPhysPages) : addr.toInt.tdiv pageSize = v := by
  have hsmall : 2 * addr.toNat < 2 ^ 32 := by
    simp only [numPhysPages, pageSize] at *
    omega
  rw [BitVec.toInt_eq_toNat_of_lt hsmall, ← hv]
  rfl

theorem Inv.fault_eq (h : m.Inv) {t ref w : Nat} {addr : Word} {input : HostFile}
    (hpt : m.pageTable = some t) (hsize : addr.toNat / pageSize < m.pageTableSize)
    (hown : m.owner m.victim = some (ref, w))
    (hin : m.writeBack ref w (m.diskFile t) = some input) (vir : Int) :
    (m.raiseException addr).pageFault vir =
      ((List.range pageSize).foldlM
        (fillByte input m.fileAddr (addr.toNat / pageSize) m.victim) m.mainMemory).map
        ((m.raiseException addr).replace t (addr.toNat / pageSize) ref w) := by
  have hv := h.vpn_lt hpt hsize
  apply (h.raiseException addr).pageFault_eq hpt hv _ hown hin
  rw [raiseException_badVAddr h.loadTarget]
  exact toInt_tdiv_pageSize rfl hv

theorem writeBack_isSome (ref w : Nat) {fileName : FileName}
    (h : (m.files fileName).isSome = true) : (m.writeBack ref w fileName).isSome = true := by
  unfold writeBack
  split
  · by_cases heq : fileName = m.diskFile ref
    · subst heq
      simp [h]
    · rw [Function.update_of_ne heq]
      exact h
  · exact h

theorem setEntry_tables (n : Vm) (c d : Nat) (entry : TranslationEntry) (a b : Nat) :
    (n.setEntry c d entry).tables a b = if a = c ∧ b = d then entry else n.tables a b := by
  by_cases hc : a = c
  · subst hc
    simp [setEntry, Function.update_apply]
  · simp [setEntry, hc]

theorem assign_tables (n : Vm) (t v phy a b : Nat) :
    (n.assign t v phy).tables a b =
      if a = t ∧ b = v then
        { n.tables t v with physicalPage := phy, valid := true, use := false, dirty := false,
                            readOnly := false }
      else n.tables a b :=
  setEntry_tables n t v _ a b

theorem replace_tables (t v ref w : Nat) (memory : Nat → Byte) (a b : Nat) :
    (m.replace t v ref w memory).tables a b =
      if a = t ∧ b = v then
        { m.tables t v with physicalPage := m.victim, valid := true, use := false,
                            dirty := false, readOnly := false }
      else if a = ref ∧ b = w then { m.tables ref w with valid := false }
      else m.tables a b := by
  rw [replace, assign_tables, setEntry_tables, setEntry_tables]
  by_cases htv : a = t ∧ b = v
  · obtain ⟨rfl, rfl⟩ := htv
    simp only [and_self, if_true]
    by_cases hrw : a = ref ∧ b = w
    · obtain ⟨rfl, rfl⟩ := hrw
      simp
    · simp [hrw]
  · simp only [htv, if_false]

theorem replace_diskFile (t v ref w : Nat) (memory : Nat → Byte) (a b : Nat) :
    ((m.replace t v ref w memory).tables a b).diskFile = (m.tables a b).diskFile ∧
      ((m.replace t v ref w memory).tables a b).virtualPage = (m.tables a b).virtualPage := by
  rw [replace_tables]
  split
  next h =>
    obtain ⟨rfl, rfl⟩ := h
    exact ⟨rfl, rfl⟩
  next =>
    split
    next h =>
      obtain ⟨rfl, rfl⟩ := h
      exact ⟨rfl, rfl⟩
    next => exact ⟨rfl, rfl⟩

private theorem frame_replace {t v : Nat} (ht : t < m.nextTable) (hv : v < numPhysPages)
    (ref w : Nat) (memory : Nat → Byte) (a : Nat × Nat) :
    (m.replace t v ref w memory).frame a =
      if a = (t, v) then some m.victim else if (ref, w) = a then none else m.frame a := by
  have hnext : (m.replace t v ref w memory).nextTable = m.nextTable := rfl
  unfold frame
  rw [hnext, replace_tables]
  by_cases htv : a = (t, v)
  · subst htv
    have hne : (m.victim : Int) ≠ -1 := by omega
    simp [ht, hv, hne]
  · have htv' : ¬ (a.1 = t ∧ a.2 = v) := fun h => htv (Prod.ext h.1 h.2)
    by_cases hrw : (ref, w) = a
    · subst hrw
      simp only [htv', if_false, and_self, if_true, Bool.false_eq_true, false_and, and_false,
        htv]
    · have hrw' : ¬ (a.1 = ref ∧ a.2 = w) := fun h => hrw (Prod.ext h.1.symm h.2.symm)
      simp only [htv, htv', hrw, hrw', if_false]

theorem replace_globalPageTable {t v : Nat} (hvirt : (m.tables t v).virtualPage = v)
    (ref w : Nat) (memory : Nat → Byte) :
    (m.replace t v ref w memory).globalPageTable =
      Function.update m.globalPageTable m.victim
        { virNum := v, useStamp := 0, refPageTable := some t } := by
  have hpage : ((m.setEntry ref w { m.tables ref w with valid := false }).tables t v).virtualPage
      = (m.tables t v).virtualPage := by
    simp only [setEntry, Function.update_apply]
    split
    next ht =>
      subst ht
      simp only [Function.update_apply]
      split
      next hw => rw [hw]
      next => rfl
    next => rfl
  rw [← hvirt, ← hpage]
  rfl

private theorem owner_replace {t v : Nat} (hvirt : (m.tables t v).virtualPage = v)
    (hvic : m.victim < numPhysPages) (ref w : Nat) (memory : Nat → Byte) (p : Nat) :
    (m.replace t v ref w memory).owner p =
      if p = m.victim then some (t, v) else m.owner p := by
  unfold owner
  rw [replace_globalPageTable hvirt]
  by_cases hp : p = m.victim
  · subst hp
    simp [hvic]
  · simp only [Function.update_of_ne hp, hp, if_false]

theorem Inv.replace (h : m.Inv) {t v ref w : Nat} (hpt : m.pageTable = some t)
    (hv : v < numPhysPages) (hun : m.frame (t, v) = none)
    (hown : m.owner m.victim = some (ref, w)) (memory : Nat → Byte) :
    (m.replace t v ref w memory).Inv := by
  have ht := h.current_lt hpt
  have hvirt := (h.entry t ht v hv).virtualPage
  obtain ⟨hvic, -⟩ := h.owner_cases hown
  have hdisk : ∀ a, (m.replace t v ref w memory).diskFile a = m.diskFile a :=
    fun a => (replace_diskFile t v ref w memory a 0).1
  refine ⟨h.loaded, h.space, h.current, ?_, ?_, ?_, ?_, ?_, h.loadTarget⟩
  · intro a ha b hb
    have he := h.entry a ha b hb
    obtain ⟨hfile, hpage⟩ := replace_diskFile (m := m) t v ref w memory a b
    constructor
    · rw [hpage, he.virtualPage]
    · rw [replace_tables]
      split
      next => rfl
      next =>
        split
        next heq =>
          obtain ⟨rfl, rfl⟩ := heq
          exact he.writable
        next => exact he.writable
    · rw [replace_tables]
      split
      next => exact .inr ⟨m.victim, hvic, rfl⟩
      next =>
        split
        next heq =>
          obtain ⟨rfl, rfl⟩ := heq
          exact he.frame
        next => exact he.frame
    · rw [hfile, hdisk, he.diskFile]
    · rw [hdisk]
      exact writeBack_isSome ref w he.file
  · apply h.agree.assign hun _ (owner_replace hvirt hvic ref w memory)
    intro a
    simp only [frame_replace ht hv, hown, Option.some.injEq]
  · intro p hp a hrefp
    rw [replace_globalPageTable hvirt, Function.update_apply] at hrefp ⊢
    split at hrefp
    next heq =>
      cases Option.some.inj hrefp
      rw [if_pos heq]
      exact ⟨ht, v, hv, rfl⟩
    next heq =>
      rw [if_neg heq]
      exact h.taken p hp a hrefp
  · intro hpos p hp
    rw [replace_globalPageTable hvirt, Function.update_apply]
    split
    next => rfl
    next => exact h.full hpos p hp
  · intro hz
    have hz' : m.nextTable = 0 := hz
    omega

/-! ## Accesses -/

theorem frame_eq_none {t v : Nat} (h : (m.tables t v).valid = false ∨
    (m.tables t v).physicalPage = -1) : m.frame (t, v) = none := by
  unfold frame
  rw [if_neg]
  rintro ⟨-, -, hvalid, hphys⟩
  rcases h with h | h
  · rw [h] at hvalid
    contradiction
  · exact hphys h

theorem Inv.fault_cases (h : m.Inv) {m' : Vm} {addr : Word} {size : Nat} {writing : Bool}
    {vir : Int} (htr : m.translate addr size writing = some (m, .error .pageFault))
    (hf : (m.raiseException addr).pageFault vir = some m') :
    ∃ t ref w input, m.pageTable = some t ∧ addr.toNat / pageSize < m.pageTableSize ∧
      m.frame (t, addr.toNat / pageSize) = none ∧ m.owner m.victim = some (ref, w) ∧
      m.writeBack ref w (m.diskFile t) = some input ∧
      (∀ i < pageSize, ∀ p, reloadOffset m.fileAddr
        (addr.toNat / pageSize * pageSize + i : Nat) = some p → 0 ≤ p) ∧
      m' = (m.raiseException addr).replace t (addr.toNat / pageSize) ref w
        (filled input m.fileAddr (addr.toNat / pageSize) m.victim m.mainMemory pageSize) := by
  obtain ⟨t, hpt, hsize, -, hun⟩ := translate_pageFault htr
  have ht := h.current_lt hpt
  obtain ⟨-, ref, w, hown⟩ := h.victim_owner (Nat.zero_lt_of_lt ht)
  have hfile := (h.entry t ht 0 (by decide)).file
  obtain ⟨input, hin⟩ := Option.isSome_iff_exists.mp (writeBack_isSome ref w hfile)
  rw [h.fault_eq hpt hsize hown hin] at hf
  obtain ⟨memory, hfill, rfl⟩ := Option.map_eq_some_iff.mp hf
  obtain ⟨rfl, hpos⟩ := foldlM_fillByte_eq_some _ hfill
  exact ⟨t, ref, w, input, hpt, hsize, frame_eq_none hun, hown, hin, hpos, rfl⟩

theorem Inv.access (h : m.Inv) {m' : Vm} {addr : Word} {size physAddr : Nat} {writing : Bool}
    {vir : Int} (ha : m.access addr size writing vir = some (m', physAddr)) :
    m'.Inv ∧ 0 < m'.nextTable := by
  have hend : ∀ m₁ : Vm, m₁.Inv → m₁.translate addr size writing = some (m', .ok physAddr) →
      m'.Inv ∧ 0 < m'.nextTable := by
    intro m₁ h₁ htr
    obtain ⟨t, phy, hpt, -, -, -, -, rfl⟩ := translate_ok htr
    exact ⟨h₁.touch _ _ _ _, Nat.zero_lt_of_lt (h₁.current_lt hpt)⟩
  obtain ⟨m₁, rfl | ⟨hfirst, hfault⟩, hlast⟩ := access_cases ha
  · exact hend _ h hlast
  · apply hend _ _ hlast
    obtain ⟨t, ref, w, input, hpt, hsize, hun, hown, -, -, rfl⟩ := h.fault_cases hfirst hfault
    exact (h.raiseException addr).replace hpt (h.vpn_lt hpt hsize) hun hown _

theorem Inv.step (h : m.Inv) {m' : Vm} {l : VmLabel} (hs : m.step l = some m') : m'.Inv := by
  cases l with
  | load fileName noffH => exact h.load hs
  | switch t =>
    obtain ⟨s, hspace, rfl⟩ := Option.map_eq_some_iff.mp hs
    exact h.restoreState hspace
  | registers r =>
    simp only [Vm.step] at hs
    split at hs
    next hr =>
      cases Option.some.inj hs
      exact h.withRegisters hr
    next => contradiction
  | read addr size vir =>
    obtain ⟨⟨m₁, value⟩, hread, rfl⟩ := Option.map_eq_some_iff.mp hs
    obtain ⟨⟨m₂, physAddr⟩, hacc, hread⟩ := Option.bind_eq_some_iff.mp hread
    obtain ⟨data, -, hread⟩ := Option.bind_eq_some_iff.mp hread
    cases Option.some.inj hread
    exact (h.access hacc).1
  | write addr size value vir =>
    obtain ⟨⟨m₁, physAddr⟩, hacc, hwrite⟩ := Option.bind_eq_some_iff.mp hs
    obtain ⟨memory, -, hwrite⟩ := Option.bind_eq_some_iff.mp hwrite
    cases Option.some.inj hwrite
    exact (h.access hacc).1.withMemory (h.access hacc).2 memory

theorem inv_inductive (files : FileName → Option HostFile) :
    (vmSystem files).Inductive Inv where
  init m hm := by
    rw [show m = .new files from hm]
    exact Inv.new files
  step _ _ _ h hs := h.step hs

/-! ## Accesses that succeed -/

theorem Inv.mapped (h : m.Inv) {t v p : Nat} (hf : m.frame (t, v) = some p) :
    Mapped (m.tables t v) p := (h.owner_cases ((h.agree (t, v) p).mp hf)).2.2.2.2.2

theorem unmapped_of_frame {t v : Nat} (ht : t < m.nextTable) (hv : v < numPhysPages)
    (hf : m.frame (t, v) = none) :
    (m.tables t v).valid = false ∨ (m.tables t v).physicalPage = -1 := by
  by_contra hmap
  rw [not_or, Bool.not_eq_false] at hmap
  simp [frame, ht, hv, hmap.1, hmap.2] at hf

theorem Inv.access_resident (h : m.Inv) {t phy : Nat} {addr : Word} {size : Nat}
    (hpt : m.pageTable = some t) (hsize : addr.toNat / pageSize < m.pageTableSize)
    (hal : Aligned addr size) (hs : size = 1 ∨ size = 2 ∨ size = 4)
    (hf : m.frame (t, addr.toNat / pageSize) = some phy) (writing : Bool) (vir : Int) :
    m.access addr size writing vir =
      some (m.touch t (addr.toNat / pageSize) phy writing,
        phy * pageSize + addr.toNat % pageSize) := by
  have he := h.entry t (h.current_lt hpt) _ (h.vpn_lt hpt hsize)
  exact access_hit (translate_mapped hpt hsize hal hs (h.mapped hf) he.writable)

/-- The machine in which the translation is retried after a page fault. -/
def afterFault (m : Vm) (addr : Word) (t ref w : Nat) (input : HostFile) : Vm :=
  (m.raiseException addr).replace t (addr.toNat / pageSize) ref w
    (filled input m.fileAddr (addr.toNat / pageSize) m.victim m.mainMemory pageSize)

theorem afterFault_mainMemory (addr : Word) (t ref w : Nat) (input : HostFile) :
    (m.afterFault addr t ref w input).mainMemory =
      filled input m.fileAddr (addr.toNat / pageSize) m.victim m.mainMemory pageSize := rfl

theorem Inv.afterFault (h : m.Inv) {t ref w : Nat} {addr : Word}
    (hpt : m.pageTable = some t) (hsize : addr.toNat / pageSize < m.pageTableSize)
    (hf : m.frame (t, addr.toNat / pageSize) = none)
    (hown : m.owner m.victim = some (ref, w)) (input : HostFile) :
    (m.afterFault addr t ref w input).Inv :=
  (h.raiseException addr).replace hpt (h.vpn_lt hpt hsize) hf hown _

theorem Inv.frame_afterFault (h : m.Inv) {t ref w : Nat} {addr : Word}
    (hpt : m.pageTable = some t)
    (hsize : addr.toNat / pageSize < m.pageTableSize) (input : HostFile) (a : Nat × Nat) :
    (m.afterFault addr t ref w input).frame a =
      if a = (t, addr.toNat / pageSize) then some m.victim
      else if (ref, w) = a then none else m.frame a :=
  frame_replace (m := m.raiseException addr) (h.current_lt hpt) (h.vpn_lt hpt hsize) ref w _ a

theorem Inv.access_afterFault (h : m.Inv) {t ref w : Nat} {addr : Word} {size : Nat}
    {input : HostFile} (hpt : m.pageTable = some t)
    (hsize : addr.toNat / pageSize < m.pageTableSize)
    (hal : Aligned addr size) (hs : size = 1 ∨ size = 2 ∨ size = 4)
    (hf : m.frame (t, addr.toNat / pageSize) = none)
    (hown : m.owner m.victim = some (ref, w))
    (hin : m.writeBack ref w (m.diskFile t) = some input)
    (hpos : ∀ i < pageSize, ∀ p, reloadOffset m.fileAddr
      (addr.toNat / pageSize * pageSize + i : Nat) = some p → 0 ≤ p)
    (writing : Bool) (vir : Int) :
    m.access addr size writing vir =
      some ((m.afterFault addr t ref w input).touch t (addr.toNat / pageSize) m.victim writing,
        m.victim * pageSize + addr.toNat % pageSize) := by
  have hv := h.vpn_lt hpt hsize
  have ht := h.current_lt hpt
  have h' := h.afterFault hpt hsize hf hown input
  have hf' : (m.afterFault addr t ref w input).frame (t, addr.toNat / pageSize) =
      some m.victim := by
    rw [h.frame_afterFault hpt hsize, if_pos rfl]
  apply access_fault (translate_unmapped hpt hsize hal (unmapped_of_frame ht hv hf))
  · rw [h.fault_eq hpt hsize hown hin vir, foldlM_fillByte _ hpos, Option.map_some]
  · exact translate_mapped hpt hsize hal hs (h'.mapped hf') (h'.entry t ht _ hv).writable

end Vm

end Nachos

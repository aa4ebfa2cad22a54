import Nachos.Userprog.Backing

/-!
# Demand paging against a flat memory

The specification gives every address space a private memory of its own. It runs beside the
paged machine: a load fills it from the executable, a write stores into it. Paging is
transparent as long as a page fault only brings in pages that the executable holds completely,
and a dirty page is written back to where its own bytes, and no others, are read from.
-/

namespace Nachos

open Framework

/-! ## The specification -/

def Segment.Has (s : Segment) (x : Int) : Prop :=
  s.virtualAddr ≤ x ∧ x < s.virtualAddr + s.size

instance (s : Segment) (x : Int) : Decidable (s.Has x) := inferInstanceAs (Decidable (_ ∧ _))

def NoffHeader.segments (h : NoffHeader) : List Segment :=
  [h.code, h.initData, h.readonlyData, h.uninitData]

/-- The segments are pairwise disjoint and lie in the address space. The ends with which the
handler compares are computed without overflow, which a negative size could cause. -/
structure NoffHeader.WellFormed (h : NoffHeader) : Prop where
  representable : ∀ s ∈ [h.code, h.initData, h.readonlyData], s.Representable
  disjoint : h.segments.Pairwise fun s s' => ∀ x, s.Has x → ¬ s'.Has x
  below : ∀ s ∈ h.segments, ∀ x, s.Has x → 0 ≤ x ∧ x < h.numPages * pageSize

/-- What a new address space holds: the bytes of the executable, and zeros elsewhere. -/
def flatImage (f : HostFile) (h : NoffHeader) (x : Nat) : Byte :=
  (fileByte f h.fileAddr x).getD 0

/-- The machine together with the flat memory of every address space. -/
structure Paged where
  vm : Vm
  flat : Nat → Nat → Byte

namespace Paged

def flatStep (s : Paged) : VmLabel → Nat → Nat → Byte
  | .load fileName noffH =>
    match s.vm.files fileName with
    | none => s.flat
    | some f => Function.update s.flat s.vm.nextTable (flatImage f (Vm.headerOf f noffH))
  | .write addr size value _ =>
    match s.vm.pageTable with
    | none => s.flat
    | some t =>
      Function.update s.flat t ((store (s.flat t) size addr.toNat value).getD (s.flat t))
  | _ => s.flat

def next (s : Paged) (l : VmLabel) : Option Paged :=
  (s.vm.step l).map fun m => { vm := m, flat := s.flatStep l }

def WellFormedLoad (s : Paged) : VmLabel → Prop
  | .load fileName noffH =>
    ∀ f, s.vm.files fileName = some f → (Vm.headerOf f noffH).WellFormed
  | _ => True

end Paged

def pagedSystem (files : FileName → Option HostFile) : System Paged VmLabel where
  init s := s = { vm := .new files, flat := fun _ _ => 0 }
  step s l s' := s.WellFormedLoad l ∧ s.next l = some s'

/-! ## Page faults that are harmless -/

namespace Vm

def ResidentDirty (m : Vm) (t v : Nat) : Prop :=
  m.frame (t, v) ≠ none ∧ (m.tables t v).dirty = true

/-- Page `v` of `t` may take the frame of page `w` of `ref`. -/
structure Harmless (m : Vm) (t v ref w : Nat) : Prop where
  backed : ∀ i < pageSize, (m.backing t (v * pageSize + i)).isSome = true
  reload : (m.tables ref w).dirty = true → ∀ i < pageSize,
    reloadOffset (m.fileAddrOf ref) (w * pageSize + i : Nat) =
      some ((w * pageSize + i : Nat) : Int)
  apart : (m.tables ref w).dirty = true → ∀ t' < m.nextTable, ∀ v' < numPhysPages,
    m.diskFile t' = m.diskFile ref → (t', v') ≠ (ref, w) → ¬ m.ResidentDirty t' v' →
    ∀ i < pageSize, ∀ p, reloadOffset (m.fileAddrOf t') (v' * pageSize + i : Nat) = some p →
      ¬ m.Rewrites ref w p

def Benign (m : Vm) : VmLabel → Prop
  | .read addr _ _ | .write addr _ _ _ =>
    ∀ t ref w, m.pageTable = some t → m.frame (t, addr.toNat / pageSize) = none →
      m.owner m.victim = some (ref, w) → m.Harmless t (addr.toNat / pageSize) ref w
  | _ => True

end Vm

def benignSystem (files : FileName → Option HostFile) : System Paged VmLabel :=
  (pagedSystem files).restrict fun s l => s.vm.Benign l

private theorem benignSystem_next {files : FileName → Option HostFile} {s s' : Paged} {l : VmLabel}
    (hr : (benignSystem files).Reachable s) (h : s.next l = some s') (hben : s.vm.Benign l)
    (hwf : s.WellFormedLoad l) : (benignSystem files).Reachable s' := .step hr ⟨hben, hwf, h⟩

/-! ## Executable images -/

private theorem segmentByte_of_has {f : HostFile} {s : Segment} {x : Nat} (h : s.Has x) :
    Vm.segmentByte f s x = f.byte? (int32 (s.inFileAddr + x - s.virtualAddr)) := by
  rw [Vm.segmentByte, if_pos (by exact h), Int.add_sub_assoc]

private theorem segmentByte_of_not_has {f : HostFile} {s : Segment} {x : Nat} (h : ¬ s.Has x) :
    Vm.segmentByte f s x = none := if_neg h

private theorem Segment.Representable.has_iff {s : Segment} (h : s.Representable) {x : Int} :
    s.virtualAddr ≤ x ∧ x < int32 (s.virtualAddr + s.size) ↔ s.Has x := by
  rw [int32_of_range h, Segment.Has]

theorem NoffHeader.reloadOffset_eq {h : NoffHeader}
    (hrep : ∀ s ∈ [h.code, h.initData, h.readonlyData], s.Representable) (x : Int) :
    reloadOffset h.fileAddr x =
      if h.code.Has x then some (int32 (h.code.inFileAddr + x - h.code.virtualAddr))
      else if h.initData.Has x then
        some (int32 (h.initData.inFileAddr + x - h.initData.virtualAddr))
      else if h.readonlyData.Has x then
        some (int32 (h.readonlyData.inFileAddr + x - h.readonlyData.virtualAddr))
      else none := by
  have hcode := (hrep h.code (by simp)).has_iff (x := x)
  have hinit := (hrep h.initData (by simp)).has_iff (x := x)
  have hread := (hrep h.readonlyData (by simp)).has_iff (x := x)
  simp only [reloadOffset, fileAddr, hcode, hinit, hread]

/-- The order in which `Load` copies the segments does not matter when they are disjoint: a byte
comes from where the handler would reload it. -/
theorem NoffHeader.imageOver_of_disjoint {h : NoffHeader}
    (hrep : ∀ s ∈ [h.code, h.initData, h.readonlyData], s.Representable)
    (hdisjoint : [h.code, h.initData, h.readonlyData].Pairwise fun s s' =>
      ∀ x, s.Has x → ¬ s'.Has x) (f : HostFile) (memory : Nat → Byte) (x : Nat) :
    Vm.imageOver f h memory x = (fileByte f h.fileAddr x).getD (memory x) := by
  obtain ⟨⟨hci, hcr⟩, hir⟩ := by simpa using hdisjoint
  rw [Vm.imageOver, fileByte, reloadOffset_eq hrep]
  by_cases hc : h.code.Has x
  · rw [segmentByte_of_not_has (hcr x hc), segmentByte_of_not_has (hci x hc),
      segmentByte_of_has hc, if_pos (by exact hc)]
    rfl
  · rw [segmentByte_of_not_has hc, if_neg (by exact hc)]
    by_cases hi : h.initData.Has x
    · rw [segmentByte_of_not_has (hir x hi), segmentByte_of_has hi, if_pos (by exact hi)]
      rfl
    · rw [segmentByte_of_not_has hi, if_neg (by exact hi)]
      by_cases hr : h.readonlyData.Has x
      · rw [segmentByte_of_has hr, if_pos (by exact hr)]
        rfl
      · rw [segmentByte_of_not_has hr, if_neg (by exact hr)]
        rfl

theorem NoffHeader.WellFormed.imageOver {h : NoffHeader} (hw : h.WellFormed) (f : HostFile)
    (x : Nat) : Vm.imageOver f h (fun _ => 0) x = flatImage f h x := by
  apply NoffHeader.imageOver_of_disjoint hw.representable
  obtain ⟨⟨hci, hcr, -⟩, ⟨hir, -⟩, -⟩ := by simpa [segments] using hw.disjoint
  simp only [List.pairwise_cons, List.mem_cons, List.not_mem_nil, or_false, forall_eq_or_imp,
    forall_eq, List.Pairwise.nil, and_true]
  exact ⟨⟨hci, hcr⟩, hir, by simp⟩

/-! ## The simulation -/

/-- Pages in memory hold what the flat memory holds, and so does the executable for every page
that was not written since it came in. -/
structure Paged.Inv (s : Paged) : Prop where
  vm : s.vm.Inv
  resident : ∀ t v p, s.vm.frame (t, v) = some p → ∀ i < pageSize,
    s.vm.mainMemory (p * pageSize + i) = s.flat t (v * pageSize + i)
  stored : ∀ t < s.vm.nextTable, ∀ v < numPhysPages, ¬ s.vm.ResidentDirty t v →
    ∀ i < pageSize, ∀ b, s.vm.backing t (v * pageSize + i) = some b →
      b = s.flat t (v * pageSize + i)


namespace Paged

variable {s : Paged}

theorem Inv.init (files : FileName → Option HostFile) :
    Inv { vm := .new files, flat := fun _ _ => 0 } where
  vm := .new files
  resident t v p h := by simp [Vm.frame, Vm.new] at h
  stored t ht := by simp [Vm.new] at ht

/-- After a harmless eviction the files hold every page that is not both in memory and
written, and the evicted page too. -/
private theorem Inv.stored_evicted (h : s.Inv) {t v ref w : Nat} (hharm : s.vm.Harmless t v ref w)
    (hown : s.vm.owner s.vm.victim = some (ref, w)) {t' v' : Nat} (ht' : t' < s.vm.nextTable)
    (hv' : v' < numPhysPages) (hnot : ¬ s.vm.ResidentDirty t' v' ∨ (t', v') = (ref, w))
    {i : Nat} (hi : i < pageSize) {b : Byte}
    (hb : s.vm.backingAfter ref w t' (v' * pageSize + i) = some b) :
    b = s.flat t' (v' * pageSize + i) := by
  have hframe := (h.vm.agree (ref, w) s.vm.victim).mpr hown
  by_cases hd : (s.vm.tables ref w).dirty = true
  · by_cases heq : (t', v') = (ref, w)
    · -- the evicted page itself: its bytes lie where they will be read
      obtain ⟨rfl, rfl⟩ := Prod.mk.inj heq
      have hre := hharm.reload hd i hi
      obtain ⟨f, hf⟩ := Option.isSome_iff_exists.mp (h.vm.entry t' ht' v' hv').file
      simp only [Vm.backingAfter, Vm.writeBack, hd, if_true, Function.update_self, hf,
        Option.map_some, Option.bind_some, fileByte, hre] at hb
      rw [f.byte?_written _ _ _ _ hi] at hb
      rw [← Option.some.inj hb]
      exact h.resident t' v' _ hframe i hi
    · have hclean : ¬ s.vm.ResidentDirty t' v' := by
        rcases hnot with hnot | hnot
        · exact hnot
        · exact absurd hnot heq
      rw [Vm.backingAfter_eq fun _ hfile =>
        hharm.apart hd t' ht' v' hv' hfile heq hclean i hi] at hb
      exact h.stored t' ht' v' hv' hclean i hi b hb
  · have hclean : ¬ s.vm.ResidentDirty t' v' := by
      rcases hnot with hnot | hnot
      · exact hnot
      · obtain ⟨rfl, rfl⟩ := Prod.mk.inj hnot
        exact fun hrd => hd hrd.2
    rw [Vm.backingAfter_eq fun hd' => absurd hd' hd] at hb
    exact h.stored t' ht' v' hv' hclean i hi b hb

theorem Inv.afterFault (h : s.Inv) {t ref w : Nat} {addr : Word} {input : HostFile}
    (hpt : s.vm.pageTable = some t) (hsize : addr.toNat / pageSize < s.vm.pageTableSize)
    (hf : s.vm.frame (t, addr.toNat / pageSize) = none)
    (hown : s.vm.owner s.vm.victim = some (ref, w))
    (hin : s.vm.writeBack ref w (s.vm.diskFile t) = some input)
    (hharm : s.vm.Harmless t (addr.toNat / pageSize) ref w) :
    Inv { vm := s.vm.afterFault addr t ref w input, flat := s.flat } := by
  have ht := h.vm.current_lt hpt
  have hv := h.vm.vpn_lt hpt hsize
  have hframe : ∀ a, (s.vm.afterFault addr t ref w input).frame a = _ :=
    h.vm.frame_afterFault hpt hsize input
  have hclean : ¬ s.vm.ResidentDirty t (addr.toNat / pageSize) := fun hrd => hrd.1 hf
  have haddr := h.vm.fileAddr_current hpt
  refine ⟨h.vm.afterFault hpt hsize hf hown input, ?_, ?_⟩
  · intro t' v' p hp i hi
    show filled input s.vm.fileAddr (addr.toNat / pageSize) s.vm.victim s.vm.mainMemory pageSize
      (p * pageSize + i) = _
    rw [hframe] at hp
    split at hp
    next heq =>
      -- the page that was brought in
      obtain ⟨rfl, rfl⟩ := Prod.mk.inj heq
      obtain rfl := Option.some.inj hp
      have hsome := Vm.backingAfter_isSome ref w (hharm.backed i hi)
      obtain ⟨b, hb⟩ := Option.isSome_iff_exists.mp hsome
      have hbyte : fileByte input s.vm.fileAddr (addr.toNat / pageSize * pageSize + i) =
          some b := by
        rw [Vm.backingAfter, hin, Option.bind_some, ← haddr] at hb
        exact hb
      rw [filled_frame _ _ _ _ _ hi, hbyte, Option.getD_some]
      exact h.stored_evicted hharm hown ht hv (.inl hclean) hi hb
    next =>
      split at hp
      next => contradiction
      next hne =>
        have hvic : p ≠ s.vm.victim := by
          rintro rfl
          rw [h.vm.agree, hown] at hp
          exact hne (Option.some.inj hp)
        rw [filled_other _ _ _ _ hvic hi]
        exact h.resident t' v' p hp i hi
  · intro t' ht' v' hv' hnot i hi b hb
    rw [Vm.backing_afterFault] at hb
    apply h.stored_evicted hharm hown ht' hv' _ hi hb
    by_cases heq : (t', v') = (ref, w)
    · exact .inr heq
    · left
      intro hrd
      have hne : (t', v') ≠ (t, addr.toNat / pageSize) := by
        intro hsame
        rw [Prod.mk.injEq] at hsame
        rw [hsame.1, hsame.2] at hrd
        exact hclean hrd
      refine hnot ⟨?_, ?_⟩
      · rw [hframe, if_neg hne, if_neg (Ne.symm heq)]
        exact hrd.1
      · have htv : ¬ (t' = t ∧ v' = addr.toNat / pageSize) := fun hs => hne (Prod.ext hs.1 hs.2)
        have hrw : ¬ (t' = ref ∧ v' = w) := fun hs => heq (Prod.ext hs.1 hs.2)
        show ((Vm.replace _ _ _ _ _ _).tables t' v').dirty = true
        rw [Vm.replace_tables, if_neg htv, if_neg hrw]
        exact hrd.2

theorem Inv.touch (h : s.Inv) (t v phy : Nat) :
    Inv { vm := s.vm.touch t v phy false, flat := s.flat } := by
  have hdirty : ∀ t' v', ((s.vm.touch t v phy false).tables t' v').dirty =
      (s.vm.tables t' v').dirty := by
    intro t' v'
    rw [Vm.touch_tables]
    split
    next heq => simp [heq.1, heq.2]
    next => rfl
  refine ⟨h.vm.touch t v phy false, ?_, ?_⟩
  · intro t' v' p hp
    rw [Vm.frame_touch] at hp
    exact h.resident t' v' p hp
  · intro t' ht' v' hv' hnot i hi b hb
    apply h.stored t' ht' v' hv' _ i hi b
    · unfold Vm.backing at hb
      rw [Vm.touch_diskFile] at hb
      exact hb
    · intro hrd
      apply hnot
      unfold Vm.ResidentDirty
      rw [Vm.frame_touch, hdirty]
      exact hrd

theorem Inv.store (h : s.Inv) {t v phy off size : Nat} {value : Word} (ht : t < s.vm.nextTable)
    (hf : s.vm.frame (t, v) = some phy) (hin : off + size ≤ pageSize)
    {memory flat : Nat → Byte}
    (hm : Nachos.store s.vm.mainMemory size (phy * pageSize + off) value = some memory)
    (hfl : Nachos.store (s.flat t) size (v * pageSize + off) value = some flat) :
    Inv { vm := { s.vm.touch t v phy true with mainMemory := memory },
          flat := Function.update s.flat t flat } := by
  refine ⟨(h.vm.touch t v phy true).withMemory (Nat.zero_lt_of_lt ht) memory, ?_, ?_⟩
  · intro t' v' p hp i hi
    show memory (p * pageSize + i) = Function.update s.flat t flat t' (v' * pageSize + i)
    have hp' : s.vm.frame (t', v') = some p := by
      rw [← Vm.frame_touch t v phy true]
      exact hp
    by_cases heq : (t', v') = (t, v)
    · obtain ⟨rfl, rfl⟩ := Prod.mk.inj heq
      cases Option.some.inj (hf.symm.trans hp')
      rw [Function.update_self, store_page hm, store_page hfl, h.resident t' v' phy hp' i hi]
    · have hne : p ≠ phy := by
        rintro rfl
        exact heq (h.vm.agree.unique hp' hf)
      rw [store_other hm hin hne hi, h.resident t' v' p hp' i hi]
      by_cases htt : t' = t
      · subst htt
        have hvv : v' ≠ v := fun hs => heq (by rw [hs])
        rw [Function.update_self, store_other hfl hin hvv hi]
      · rw [Function.update_of_ne htt]
  · intro t' ht' v' hv' hnot i hi b hb
    -- the page that was written is now dirty
    have hne : (t', v') ≠ (t, v) := by
      intro heq
      obtain ⟨rfl, rfl⟩ := Prod.mk.inj heq
      apply hnot
      constructor
      · show (s.vm.touch t' v' phy true).frame (t', v') ≠ none
        rw [Vm.frame_touch, hf]
        simp
      · show ((s.vm.touch t' v' phy true).tables t' v').dirty = true
        rw [Vm.touch_tables]
        simp
    have hflat : Function.update s.flat t flat t' (v' * pageSize + i) =
        s.flat t' (v' * pageSize + i) := by
      by_cases htt : t' = t
      · subst htt
        have hvv : v' ≠ v := fun hs => hne (by rw [hs])
        rw [Function.update_self, store_other hfl hin hvv hi]
      · rw [Function.update_of_ne htt]
    show b = Function.update s.flat t flat t' (v' * pageSize + i)
    rw [hflat]
    apply h.stored t' ht' v' hv' _ i hi b
    · have hdisk : Vm.diskFile { s.vm.touch t v phy true with mainMemory := memory } t' =
          s.vm.diskFile t' := Vm.touch_diskFile t v phy true t'
      unfold Vm.backing at hb
      rw [hdisk] at hb
      exact hb
    · intro hrd
      apply hnot
      have htv : ¬ (t' = t ∧ v' = v) := fun hs => hne (Prod.ext hs.1 hs.2)
      constructor
      · show (s.vm.touch t v phy true).frame (t', v') ≠ none
        rw [Vm.frame_touch]
        exact hrd.1
      · show ((s.vm.touch t v phy true).tables t' v').dirty = true
        rw [Vm.touch_tables, if_neg htv]
        exact hrd.2

private theorem Inv.stored_newSpace (h : s.Inv) {f : HostFile} {fileName : FileName}
    (hf : s.vm.files fileName = some f) (header : NoffHeader) (phy : Nat → Int) {t v : Nat}
    (ht : t < s.vm.nextTable + 1) (hv : v < numPhysPages)
    (hnot : ¬ (s.vm.newSpace fileName header phy).ResidentDirty t v) {i : Nat}
    (hi : i < pageSize) {b : Byte}
    (hb : (s.vm.newSpace fileName header phy).backing t (v * pageSize + i) = some b) :
    b = Function.update s.flat s.vm.nextTable (flatImage f header) t (v * pageSize + i) := by
  by_cases heq : t = s.vm.nextTable
  · subst heq
    rw [Vm.backing_newSpace hf] at hb
    rw [Function.update_self, flatImage, hb, Option.getD_some]
  · rw [Vm.backing_newSpace_of_ne fileName header phy heq] at hb
    rw [Function.update_of_ne heq]
    apply h.stored t (by omega) v hv _ i hi b hb
    intro hrd
    apply hnot
    unfold Vm.ResidentDirty
    rw [Vm.frame_newSpace, if_neg heq, Vm.newSpace_tables_of_ne fileName header phy heq]
    exact hrd

theorem Inv.load (h : s.Inv) {fileName : FileName} {noffH : Nat → Byte}
    (hwf : s.WellFormedLoad (.load fileName noffH)) {m' : Vm}
    (hl : s.vm.load fileName noffH = some m') :
    Inv { vm := m', flat := s.flatStep (.load fileName noffH) } := by
  have hvm := h.vm.load hl
  rcases Nat.eq_zero_or_pos s.vm.nextTable with hz | hpos
  · obtain ⟨hmem, hfree⟩ := h.vm.start hz
    obtain ⟨hnone, rfl⟩ | ⟨f, hf, -, rfl⟩ := Vm.load_free hfree hl
    · simp only [flatStep, hnone]
      exact h
    · simp only [flatStep, hf]
      refine ⟨hvm, ?_, ?_⟩
      · intro t v p hp i hi
        have hp' : (s.vm.newSpace fileName (Vm.headerOf f noffH) fun v => v).frame (t, v) =
            some p := hp
        rw [Vm.frame_newSpace] at hp'
        split at hp'
        next heq =>
          have heq' : t = s.vm.nextTable := heq
          subst heq'
          split at hp'
          next =>
            obtain rfl : v = p := Option.some.inj hp'
            show Vm.imageOver f _ s.vm.mainMemory _ =
              Function.update s.flat s.vm.nextTable _ s.vm.nextTable _
            rw [hmem, (hwf f hf).imageOver, Function.update_self]
          next => contradiction
        next =>
          have := Vm.frame_lt hp'
          omega
      · intro t ht v hv hnot i hi b hb
        exact h.stored_newSpace hf _ _ ht hv hnot hi hb
  · obtain ⟨hnone, rfl⟩ | ⟨f, hf, -, rfl⟩ := Vm.load_full (h.vm.full hpos) hl
    · simp only [flatStep, hnone]
      exact h
    · simp only [flatStep, hf]
      refine ⟨hvm, ?_, ?_⟩
      · intro t v p hp i hi
        rw [Vm.frame_newSpace] at hp
        split at hp
        next => simp at hp
        next heq =>
          show s.vm.mainMemory _ = Function.update s.flat s.vm.nextTable _ t _
          rw [Function.update_of_ne heq]
          exact h.resident t v p hp i hi
      · intro t ht v hv hnot i hi b hb
        exact h.stored_newSpace hf _ _ ht hv hnot hi hb

/-- An access that goes through ends in a state that still agrees with the flat memories and in
which the page is resident; only its use is not yet recorded. -/
theorem Inv.access (h : s.Inv) {m' : Vm} {addr : Word} {size physAddr : Nat} {writing : Bool}
    {vir : Int} (hacc : s.vm.access addr size writing vir = some (m', physAddr))
    (hben : s.vm.Benign (.read addr size vir)) :
    ∃ m₁ t phy, s.vm.pageTable = some t ∧ Inv { vm := m₁, flat := s.flat } ∧ t < m₁.nextTable ∧
      m₁.frame (t, addr.toNat / pageSize) = some phy ∧ Vm.Aligned addr size ∧
      m' = m₁.touch t (addr.toNat / pageSize) phy writing ∧
      physAddr = phy * pageSize + addr.toNat % pageSize := by
  have hend : ∀ m₁ : Vm, m₁.pageTable = s.vm.pageTable → Inv { vm := m₁, flat := s.flat } →
      m₁.translate addr size writing = some (m', .ok physAddr) →
      ∃ m₁ t phy, s.vm.pageTable = some t ∧ Inv { vm := m₁, flat := s.flat } ∧
        t < m₁.nextTable ∧ m₁.frame (t, addr.toNat / pageSize) = some phy ∧
        Vm.Aligned addr size ∧ m' = m₁.touch t (addr.toNat / pageSize) phy writing ∧
        physAddr = phy * pageSize + addr.toNat % pageSize := by
    intro m₁ hsame hinv htr
    obtain ⟨t, phy, hpt, hsize, hmap, hphys, hal, rfl⟩ := Vm.translate_ok htr
    have ht := hinv.vm.current_lt hpt
    have hv := hinv.vm.vpn_lt hpt hsize
    have hne : (phy : Int) ≠ -1 := by omega
    refine ⟨m₁, t, phy, hsame ▸ hpt, hinv, ht, ?_, hal, rfl, hphys⟩
    simp only [Vm.frame]
    rw [if_pos ⟨ht, hv, hmap.valid, by rw [hmap.physicalPage]; exact hne⟩, hmap.physicalPage]
    rfl
  obtain ⟨m₁, rfl | ⟨hfirst, hfault⟩, hlast⟩ := Vm.access_cases hacc
  · exact hend _ rfl h hlast
  · obtain ⟨t, ref, w, input, hpt, hsize, hun, hown, hin, -, rfl⟩ :=
      h.vm.fault_cases hfirst hfault
    exact hend (s.vm.afterFault addr t ref w input) rfl
      (h.afterFault hpt hsize hun hown hin (hben t ref w hpt hun hown)) hlast

theorem Inv.step (h : s.Inv) {l : VmLabel} {s' : Paged} (hwf : s.WellFormedLoad l)
    (hben : s.vm.Benign l) (hs : s.next l = some s') : s'.Inv := by
  obtain ⟨m', hm, rfl⟩ := Option.map_eq_some_iff.mp hs
  cases l with
  | load fileName noffH => exact h.load hwf hm
  | switch t =>
    have hvm := h.vm.step hm
    obtain ⟨sp, -, rfl⟩ := Option.map_eq_some_iff.mp hm
    exact ⟨hvm, h.resident, h.stored⟩
  | registers r =>
    have hvm := h.vm.step hm
    simp only [Vm.step] at hm
    split at hm
    next =>
      cases Option.some.inj hm
      exact ⟨hvm, h.resident, h.stored⟩
    next => contradiction
  | read addr size vir =>
    obtain ⟨⟨m₁, value⟩, hread, rfl⟩ := Option.map_eq_some_iff.mp hm
    obtain ⟨⟨m₂, physAddr⟩, hacc, hread⟩ := Option.bind_eq_some_iff.mp hread
    obtain ⟨data, -, hread⟩ := Option.bind_eq_some_iff.mp hread
    cases Option.some.inj hread
    obtain ⟨m₀, t, phy, -, h₀, -, -, -, rfl, -⟩ := h.access hacc hben
    exact h₀.touch t _ phy
  | write addr size value vir =>
    obtain ⟨⟨m₁, physAddr⟩, hacc, hwrite⟩ := Option.bind_eq_some_iff.mp hm
    obtain ⟨memory, hmem, hwrite⟩ := Option.bind_eq_some_iff.mp hwrite
    cases Option.some.inj hwrite
    obtain ⟨m₀, t, phy, hpt, h₀, ht, hf, hal, rfl, rfl⟩ := h.access hacc hben
    obtain ⟨flat, hfl, hsize⟩ := store_isSome (s.flat t) addr.toNat value hmem
    simp only [flatStep, hpt, hfl, Option.getD_some]
    rw [← Nat.div_add_mod' addr.toNat pageSize] at hfl
    exact h₀.store ht hf (hal.within hsize) hmem hfl

theorem inv_inductive (files : FileName → Option HostFile) :
    (benignSystem files).Inductive Inv where
  init s hs := by
    rw [show s = _ from hs]
    exact Inv.init files
  step _ _ _ h hs := h.step hs.2.1 hs.1 hs.2.2

theorem Inv.fetch_resident (h : s.Inv) {t phy : Nat} {addr : Word} {size : Nat}
    (hf : s.vm.frame (t, addr.toNat / pageSize) = some phy) (hal : Vm.Aligned addr size)
    (hs : size = 1 ∨ size = 2 ∨ size = 4) :
    fetch s.vm.mainMemory size (phy * pageSize + addr.toNat % pageSize) =
      fetch (s.flat t) size addr.toNat := by
  have hin := hal.within hs
  apply fetch_congr _ hs
  intro i hi
  have hb := h.resident t _ phy hf (addr.toNat % pageSize + i) (by omega)
  rw [← Nat.add_assoc, ← Nat.add_assoc, Nat.div_add_mod'] at hb
  exact hb

end Paged

/-- In a run without harmful page faults every read of a space returns the bytes that space last
wrote, and the bytes of the executable where it wrote none. -/
theorem demand_paging_transparent {files : FileName → Option HostFile} {s : Paged}
    (hr : (benignSystem files).Reachable s) {t : Nat}
    (hpt : s.vm.pageTable = some t) {addr : Word} {size : Nat} (vir : Int)
    (hs : size = 1 ∨ size = 2 ∨ size = 4) (hal : Vm.Aligned addr size)
    (hin : addr.toNat / pageSize < s.vm.pageTableSize)
    (hben : s.vm.Benign (.read addr size vir)) :
    (s.vm.readMem addr size vir).map Prod.snd = fetch (s.flat t) size addr.toNat := by
  have h := (Paged.inv_inductive files).of_reachable hr
  have ht := h.vm.current_lt hpt
  have hread : ∀ m₁ : Vm, Paged.Inv { vm := m₁, flat := s.flat } → ∀ phy,
      m₁.frame (t, addr.toNat / pageSize) = some phy →
      s.vm.access addr size false vir = some (m₁.touch t (addr.toNat / pageSize) phy false,
        phy * pageSize + addr.toNat % pageSize) →
      (s.vm.readMem addr size vir).map Prod.snd = fetch (s.flat t) size addr.toNat := by
    intro m₁ h₁ phy hf hacc
    rw [Vm.readMem_of_access hacc, Option.map_map]
    show Option.map id (fetch m₁.mainMemory size _) = _
    rw [Option.map_id, id]
    exact h₁.fetch_resident hf hal hs
  cases hf : s.vm.frame (t, addr.toNat / pageSize) with
  | some phy =>
    exact hread s.vm h phy hf (h.vm.access_resident hpt hin hal hs hf false vir)
  | none =>
    obtain ⟨-, ref, w, hown⟩ := h.vm.victim_owner (Nat.zero_lt_of_lt ht)
    have hharm := hben t ref w hpt hf hown
    obtain ⟨input, hinput⟩ := Option.isSome_iff_exists.mp
      (Vm.writeBack_isSome ref w (h.vm.entry t ht 0 (by decide)).file)
    have hpos : ∀ i < pageSize, ∀ p, reloadOffset s.vm.fileAddr
        (addr.toNat / pageSize * pageSize + i : Nat) = some p → 0 ≤ p := by
      intro i hi p hp
      rw [h.vm.fileAddr_current hpt] at hp
      exact Vm.position_nonneg (hharm.backed i hi) hp
    apply hread (s.vm.afterFault addr t ref w input)
      (h.afterFault hpt hin hf hown hinput hharm) s.vm.victim
    · rw [h.vm.frame_afterFault hpt hin, if_pos rfl]
    · exact h.vm.access_afterFault hpt hin hal hs hf hown hinput hpos false vir

def Paged.secondRuns (files : FileName → Option HostFile) (fileName : FileName) (f : HostFile)
    (h : NoffHeader) : Paged :=
  { vm := Vm.secondRuns files fileName f h,
    flat := Function.update (Function.update (fun _ _ => 0) 0 (flatImage f h)) 1
      (flatImage f h) }

theorem Paged.reachable_secondRuns {files : FileName → Option HostFile} {fileName : FileName}
    {f : HostFile} {noffH : Nat → Byte} (hf : files fileName = some f)
    (hload : (Vm.headerOf f noffH).Loadable) (hwf : (Vm.headerOf f noffH).WellFormed) :
    (benignSystem files).Reachable
      (Paged.secondRuns files fileName f (Vm.headerOf f noffH)) := by
  have hwf' : ∀ s : Paged, s.vm.files = files → s.WellFormedLoad (.load fileName noffH) := by
    intro s hs f' hf'
    rw [hs, hf] at hf'
    cases Option.some.inj hf'
    exact hwf
  have hflat : ∀ s : Paged, s.vm.files = files → s.flatStep (.load fileName noffH) =
      Function.update s.flat s.vm.nextTable (flatImage f (Vm.headerOf f noffH)) := by
    intro s hs
    simp only [Paged.flatStep, hs, hf]
  have h₁ : Paged.next { vm := .new files, flat := fun _ _ => 0 } (.load fileName noffH) =
      some { vm := Vm.loadedOnce files fileName f (Vm.headerOf f noffH),
             flat := Function.update (fun _ _ => 0) 0
               (flatImage f (Vm.headerOf f noffH)) } := by
    rw [Paged.next, Vm.step, Vm.load_once hf hload, hflat _ rfl]
    rfl
  have h₂ : Paged.next { vm := Vm.loadedOnce files fileName f (Vm.headerOf f noffH),
                         flat := Function.update (fun _ _ => 0) 0
                           (flatImage f (Vm.headerOf f noffH)) } (.load fileName noffH) =
      some { vm := Vm.loadedTwice files fileName f (Vm.headerOf f noffH),
             flat := Function.update (Function.update (fun _ _ => 0) 0
               (flatImage f (Vm.headerOf f noffH))) 1 (flatImage f (Vm.headerOf f noffH)) } := by
    rw [Paged.next, Vm.step, Vm.load_twice hf hload, hflat _ rfl]
    rfl
  have h₃ : Paged.next { vm := Vm.loadedTwice files fileName f (Vm.headerOf f noffH),
                         flat := Function.update (Function.update (fun _ _ => 0) 0
                           (flatImage f (Vm.headerOf f noffH))) 1
                           (flatImage f (Vm.headerOf f noffH)) } (.switch 1) =
      some (Paged.secondRuns files fileName f (Vm.headerOf f noffH)) := by
    rw [Paged.next, Vm.step_secondRuns]
    rfl
  have hr₀ : (benignSystem files).Reachable { vm := .new files, flat := fun _ _ => 0 } :=
    .init rfl
  have hr₁ := benignSystem_next hr₀ h₁ trivial (hwf' _ rfl)
  have hr₂ := benignSystem_next hr₁ h₂ trivial (hwf' _ rfl)
  exact benignSystem_next hr₂ h₃ trivial trivial

private theorem Vm.benign_secondRuns {files : FileName → Option HostFile} {fileName : FileName}
    {f : HostFile} (hf : files fileName = some f) (h : NoffHeader) {addr : Word}
    (hbacked : ∀ i < pageSize,
      (fileByte f h.fileAddr (addr.toNat / pageSize * pageSize + i)).isSome = true)
    (size : Nat) (vir : Int) : (secondRuns files fileName f h).Benign (.read addr size vir) := by
  intro t ref w hpt hun hown
  cases Option.some.inj hpt
  rw [owner_secondRuns] at hown
  cases Option.some.inj hown
  have hclean : ((secondRuns files fileName f h).tables 0 0).dirty ≠ true := by
    have hentry : (secondRuns files fileName f h).tables 0 0 = freshEntry fileName 0 0 := rfl
    rw [hentry]
    exact Bool.false_ne_true
  refine ⟨?_, fun hd => absurd hd hclean, fun hd => absurd hd hclean⟩
  intro i hi
  have hb := backing_newSpace (m := loadedOnce files fileName f h) hf h (fun _ => -1)
    (addr.toNat / pageSize * pageSize + i)
  have hb' := hbacked i hi
  rw [← hb] at hb'
  exact hb'

theorem wellFormed_onePage : (Vm.headerOf onePage fun _ => 0).WellFormed := by
  rw [headerOf_onePage]
  have hempty : ∀ x, ¬ Segment.Has ⟨0, 0, 0⟩ x := by
    intro x h
    simp only [Segment.Has] at h
    omega
  constructor
  · decide
  · simp only [NoffHeader.segments, onePageHeader, List.pairwise_cons]
    simp [hempty]
  · intro s hs x hx
    have hs' : s = ⟨0, 52, 128⟩ ∨ s = ⟨0, 0, 0⟩ := by
      simpa [NoffHeader.segments, onePageHeader] using hs
    rcases hs' with rfl | rfl
    · have hpages : NoffHeader.numPages onePageHeader = 9 := rfl
      simp only [Segment.Has] at hx
      rw [hpages]
      simp only [pageSize]
      omega
    · exact absurd hx (hempty x)

/-- The second space reads the code page, which comes in from the executable. -/
theorem demand_paging_transparent_code :
    (benignSystem onePageDisk).Reachable
        (Paged.secondRuns onePageDisk "a" onePage (Vm.headerOf onePage fun _ => 0)) ∧
      ((Paged.secondRuns onePageDisk "a" onePage (Vm.headerOf onePage fun _ => 0)).vm.readMem
        0 1 0).map Prod.snd = some 0x5a := by
  have hf : onePageDisk "a" = some onePage := rfl
  have hr := Paged.reachable_secondRuns hf loadable_onePage wellFormed_onePage
  refine ⟨hr, ?_⟩
  rw [demand_paging_transparent hr rfl 0 (.inl rfl) (by decide)]
  · rw [headerOf_onePage]
    rfl
  · rw [headerOf_onePage]
    decide
  · apply Vm.benign_secondRuns hf
    intro i hi
    have hzero : (0 : Word).toNat / pageSize * pageSize + i = i := by simp
    rw [hzero]
    exact backed_onePage i hi

/-- The second space reads its untouched page 1 and finds the code that lay in the frame. -/
theorem demand_paging_stale :
    (pagedSystem onePageDisk).Reachable
        (Paged.secondRuns onePageDisk "a" onePage (Vm.headerOf onePage fun _ => 0)) ∧
      Vm.Aligned 128 1 ∧
      128 / pageSize < (Paged.secondRuns onePageDisk "a" onePage
        (Vm.headerOf onePage fun _ => 0)).vm.pageTableSize ∧
      ((Paged.secondRuns onePageDisk "a" onePage (Vm.headerOf onePage fun _ => 0)).vm.readMem
        128 1 0).map Prod.snd = some 0x5a ∧
      fetch ((Paged.secondRuns onePageDisk "a" onePage
        (Vm.headerOf onePage fun _ => 0)).flat 1) 1 128 = some 0 := by
  have hf : onePageDisk "a" = some onePage := rfl
  have hr := Paged.reachable_secondRuns hf loadable_onePage wellFormed_onePage
  have hpage : (128 : Word).toNat / pageSize < (Vm.headerOf onePage fun _ => 0).numPages := by
    rw [headerOf_onePage]
    decide
  refine ⟨hr.of_restrict, by decide, hpage, ?_, ?_⟩
  · refine (Vm.readMem_secondRuns hf loadable_onePage hpage 0).trans ?_
    rw [headerOf_onePage]
    rfl
  · rw [headerOf_onePage]
    rfl

end Nachos

import Nachos.Userprog.Coff2noff
import Nachos.Framework.Tiling

/-!
# Uninitialized data

The header has room for one range of uninitialized data, so several sections have to be merged.
The converter adds their sizes up. It stops where a section begins at the end of what has been
merged so far, and goes on where it does not.
-/

namespace Nachos

open Framework

def SectionHeader.isBss (s : SectionHeader) : Bool := decide (s.name = bssName ∧ s.size ≠ 0)

/-- The sections of uninitialized data that are not empty, in the order of the file. -/
def bssSections (coff : HostFile) : List SectionHeader := (coffSections coff).filter (·.isBss)

abbrev SectionHeader.Holds (s : SectionHeader) (x : Int) : Prop :=
  Occupies SectionHeader.paddr SectionHeader.size s x

def Segment.Holds (s : Segment) (x : Int) : Prop := s.virtualAddr ≤ x ∧ x < s.virtualAddr + s.size

/-- The segment for uninitialized data in the file has the addresses of the sections. -/
def DescribesBss (coff noff : HostFile) (uninit : Nat → Byte) : Prop :=
  ∀ x, (Vm.headerOf noff uninit).uninitData.Holds x ↔ ∃ s ∈ bssSections coff, s.Holds x

/-- The sections can be laid end to end, from the address of the first one of the file on. -/
def Seamless (sections : List SectionHeader) : Prop :=
  ∃ arranged, sections.Perm arranged ∧ ∀ first ∈ sections.head?,
    EndToEnd SectionHeader.paddr SectionHeader.size first.paddr arranged

/-- The section at which the size of the segment was last zero, `total` being the sizes before
the list: the sizes before it add up to a multiple of 2^32. -/
def lastStart (total : Int) : List SectionHeader → Option SectionHeader
  | [] => none
  | s :: sections =>
    (lastStart (total + s.size) sections).or (if total % 2 ^ 32 = 0 then some s else none)

/-- The sizes overflow, but the sections overlap so that they fill just the range that the
converter counts. -/
def Overcounted (sections : List SectionHeader) : Prop :=
  2 ^ 32 ≤ totalSize SectionHeader.size sections ∧
    ∀ first ∈ lastStart 0 sections, ∀ x, (∃ s ∈ sections, s.Holds x) ↔
      first.paddr ≤ x ∧ x < first.paddr + int32 (totalSize SectionHeader.size sections)

/-- The sections make one range whose size is an `int`. -/
def Mergeable (sections : List SectionHeader) : Prop :=
  totalSize SectionHeader.size sections < 2 ^ 31 ∧ Seamless sections ∨ Overcounted sections

/-! ## Where the range begins -/

private theorem lastStart_append_singleton (total : Int) (sections : List SectionHeader)
    (s : SectionHeader) : lastStart total (sections ++ [s]) =
      if (total + totalSize SectionHeader.size sections) % 2 ^ 32 = 0 then some s
      else lastStart total sections := by
  induction sections generalizing total with
  | nil => simp [lastStart]
  | cons t sections ih =>
    rw [List.cons_append, lastStart, ih, totalSize_cons, lastStart, Int.add_assoc]
    split
    · rw [Option.some_or]
    · rfl

private theorem lastStart_eq_none {total : Int} {sections : List SectionHeader} (hpos : 0 < total)
    (hsize : ∀ s ∈ sections, 0 < s.size)
    (hlt : total + totalSize SectionHeader.size sections < 2 ^ 32) :
    lastStart total sections = none := by
  induction sections generalizing total with
  | nil => rfl
  | cons s sections ih =>
    have hs := hsize s List.mem_cons_self
    have hrest : ∀ t ∈ sections, 0 < t.size := fun t ht => hsize t (List.mem_cons_of_mem s ht)
    have hnonneg := totalSize_nonneg hrest
    rw [totalSize_cons] at hlt
    have hmod : ¬ total % 2 ^ 32 = 0 := by omega
    rw [lastStart, ih (by omega) hrest (by omega), if_neg hmod, Option.or_none]

private theorem lastStart_of_lt {sections : List SectionHeader} (hsize : ∀ s ∈ sections, 0 < s.size)
    (hlt : totalSize SectionHeader.size sections < 2 ^ 32) :
    lastStart 0 sections = sections.head? := by
  cases sections with
  | nil => rfl
  | cons s sections =>
    rw [totalSize_cons] at hlt
    rw [lastStart, Int.zero_add, lastStart_eq_none (hsize s List.mem_cons_self)
      (fun t ht => hsize t (List.mem_cons_of_mem s ht)) hlt]
    rfl

private theorem lastStart_isSome (s : SectionHeader) (sections : List SectionHeader) :
    ∃ first, lastStart 0 (s :: sections) = some first := by
  rw [lastStart, if_pos (Int.zero_emod _)]
  cases lastStart (0 + s.size) sections with
  | none => exact ⟨s, rfl⟩
  | some first => exact ⟨first, rfl⟩

/-! ## The loop -/

namespace Conversion

/-- The segment after the sections `bss`: where the count last began, and the sum of the sizes as
an `int`. -/
structure Accumulated (bss : List SectionHeader) (st : Conversion) : Prop where
  virtualAddr : ∀ first ∈ lastStart 0 bss, st.noffH.uninitData.virtualAddr = first.paddr
  size : st.noffH.uninitData.size = int32 (totalSize SectionHeader.size bss)

variable {coff : HostFile} {bss : List SectionHeader} {st st' : Conversion} {s : SectionHeader}

theorem Accumulated.congr (h : Accumulated bss st)
    (hsame : st'.noffH.uninitData = st.noffH.uninitData) : Accumulated bss st' := by
  constructor
  · rw [hsame]
    exact h.virtualAddr
  · rw [hsame]
    exact h.size

private theorem copySection_uninitData {k : SegmentKind} (h : st.copySection coff s k = some st') :
    st'.noffH.uninitData = st.noffH.uninitData := by
  simp only [copySection, Option.bind_eq_bind] at h
  obtain ⟨_, -, h⟩ := Option.bind_eq_some_iff.mp h
  obtain ⟨_, -, h⟩ := Option.bind_eq_some_iff.mp h
  obtain rfl := Option.some.inj h
  cases k <;> rfl

theorem Accumulated.bssSection (h : Accumulated bss st) (hs : -2 ^ 31 ≤ s.size ∧ s.size < 2 ^ 31)
    (hstep : st.bssSection s = some st') : Accumulated (bss ++ [s]) st' := by
  have hsum : int32 (totalSize SectionHeader.size (bss ++ [s])) =
      int32 (st.noffH.uninitData.size + s.size) := by
    rw [totalSize_append_singleton, h.size, int32_int32_add]
  have hiff : st.noffH.uninitData.size = 0 ↔
      (0 + totalSize SectionHeader.size bss) % 2 ^ 32 = 0 := by
    rw [h.size, int32_eq_zero, Int.zero_add]
  unfold Conversion.bssSection at hstep
  dsimp only at hstep
  split at hstep
  next hne =>
    split at hstep
    next => cases hstep
    next =>
      obtain rfl := Option.some.inj hstep
      constructor
      · rw [lastStart_append_singleton, if_neg fun hmod => hne (hiff.mpr hmod)]
        exact h.virtualAddr
      · exact hsum.symm
  next hzero =>
    obtain rfl := Option.some.inj hstep
    rw [ne_eq, not_not] at hzero
    constructor
    · intro first hfirst
      rw [lastStart_append_singleton, if_pos (hiff.mp hzero)] at hfirst
      obtain rfl := Option.some.inj hfirst
      rfl
    · rw [hsum, hzero, Int.zero_add, int32_of_range hs]

theorem Accumulated.step (h : Accumulated bss st) (hs : -2 ^ 31 ≤ s.size ∧ s.size < 2 ^ 31)
    (hstep : st.convertSection coff s = some st') :
    Accumulated (bss ++ [s].filter (·.isBss)) st' := by
  have hskip (hs : s.isBss = false) (hsame : st'.noffH.uninitData = st.noffH.uninitData) :
      Accumulated (bss ++ [s].filter (·.isBss)) st' := by
    rw [List.filter_singleton, hs]
    simpa using h.congr hsame
  unfold convertSection at hstep
  split at hstep
  next hzero =>
    obtain rfl := Option.some.inj hstep
    exact hskip (by simp [SectionHeader.isBss, hzero]) rfl
  next hne =>
    split at hstep
    next hname =>
      exact hskip (by rw [SectionHeader.isBss, hname]; rfl) (copySection_uninitData hstep)
    next =>
      split at hstep
      next hname =>
        exact hskip (by rw [SectionHeader.isBss, hname]; rfl) (copySection_uninitData hstep)
      next =>
        split at hstep
        next hname =>
          exact hskip (by rw [SectionHeader.isBss, hname]; rfl) (copySection_uninitData hstep)
        next =>
          split at hstep
          next hname =>
            have hbss : s.isBss = true := by simp [SectionHeader.isBss, hname, hne]
            rw [List.filter_singleton, hbss]
            exact h.bssSection hs hstep
          next => cases hstep

theorem Accumulated.run {sections : List SectionHeader} (h : Accumulated bss st)
    (hsize : ∀ t ∈ sections, -2 ^ 31 ≤ t.size ∧ t.size < 2 ^ 31)
    (hrun : sections.foldlM (convertSection coff) st = some st') :
    Accumulated (bss ++ sections.filter (·.isBss)) st' := by
  induction sections generalizing bss st with
  | nil =>
    obtain rfl := Option.some.inj hrun
    rw [List.filter_nil, List.append_nil]
    exact h
  | cons s sections ih =>
    rw [List.foldlM_cons, Option.bind_eq_bind] at hrun
    obtain ⟨st₁, hstep, hrest⟩ := Option.bind_eq_some_iff.mp hrun
    have hsplit : bss ++ (s :: sections).filter (·.isBss) =
        (bss ++ [s].filter (·.isBss)) ++ sections.filter (·.isBss) := by
      rw [List.append_assoc, ← List.filter_append]
      rfl
    rw [hsplit]
    have h₁ := h.step (hsize s List.mem_cons_self) hstep
    exact ih h₁ (fun t ht => hsize t (List.mem_cons_of_mem s ht)) hrest

private theorem accumulated_start (noffH : NoffHeader) (inPos : Nat) :
    Accumulated [] (start noffH inPos) := by
  constructor
  · intro first hfirst
    cases hfirst
  · exact (int32_eq_zero.mpr rfl).symm

end Conversion

/-! ## The segment in the file -/

private theorem intAt_bounds (buffer : Nat → Byte) (i : Nat) :
    -2 ^ 31 ≤ intAt buffer i ∧ intAt buffer i < 2 ^ 31 :=
  ⟨BitVec.le_toInt _, BitVec.toInt_lt⟩

private theorem sectionAt_bounds (buffer : Nat → Byte) (a : Nat) :
    (-2 ^ 31 ≤ (sectionAt buffer a).paddr ∧ (sectionAt buffer a).paddr < 2 ^ 31) ∧
      -2 ^ 31 ≤ (sectionAt buffer a).size ∧ (sectionAt buffer a).size < 2 ^ 31 :=
  ⟨intAt_bounds (fun j => buffer (a + j)) 2, intAt_bounds (fun j => buffer (a + j)) 4⟩

private theorem section_bounds {coff : HostFile} {s : SectionHeader} (hs : s ∈ coffSections coff) :
    (-2 ^ 31 ≤ s.paddr ∧ s.paddr < 2 ^ 31) ∧ -2 ^ 31 ≤ s.size ∧ s.size < 2 ^ 31 := by
  obtain ⟨i, -, hi⟩ := List.mem_map.mp hs
  rw [← hi]
  exact sectionAt_bounds _ _

private theorem NoffHeader.uninitData_bytes (h : NoffHeader) :
    (noffHeader h.bytes).uninitData = stored h.uninitData := by
  simp only [noffHeader, segmentAt, intAt_bytes]
  rfl

variable {coff noff : HostFile} {noffH : NoffHeader}

private theorem mem_of_lastStart {total : Int} {sections : List SectionHeader}
    {first : SectionHeader} (h : first ∈ lastStart total sections) : first ∈ sections := by
  induction sections generalizing total with
  | nil => cases h
  | cons s sections ih =>
    rcases Option.or_eq_some_iff.mp h with hrest | ⟨-, hs⟩
    · exact List.mem_cons_of_mem s (ih hrest)
    · split at hs
      next =>
        obtain rfl := Option.some.inj hs
        exact List.mem_cons_self
      next => cases hs

private theorem uninitData_written (uninit : Nat → Byte)
    (hconv : coff2noff coff noffH = some noff) :
    (∀ first ∈ lastStart 0 (bssSections coff),
      (Vm.headerOf noff uninit).uninitData.virtualAddr = first.paddr) ∧
    (Vm.headerOf noff uninit).uninitData.size =
      int32 (totalSize SectionHeader.size (bssSections coff)) := by
  obtain ⟨pos, st, hloop, hwrite⟩ := coff2noff_some hconv
  have hacc : st.Accumulated (bssSections coff) :=
    (Conversion.accumulated_start noffH pos).run (fun _ hs => (section_bounds hs).2) hloop
  rw [Conversion.headerOf_written hwrite, NoffHeader.uninitData_bytes]
  constructor
  · intro first hfirst
    have hmem := mem_of_lastStart hfirst
    show (BitVec.ofInt 32 st.noffH.uninitData.virtualAddr).toInt = first.paddr
    rw [hacc.virtualAddr first hfirst]
    exact Image.toInt_ofInt (section_bounds (List.mem_of_mem_filter hmem)).1
  · show (BitVec.ofInt 32 st.noffH.uninitData.size).toInt = _
    rw [hacc.size]
    exact Image.toInt_ofInt (int32_range _)

section Merged

variable {first : SectionHeader} {sections : List SectionHeader}

/-- Sizes that do not overflow give the range of the sections exactly when there is neither a gap
nor an overlap, and nothing below the section that comes first. -/
private theorem seamless_iff (hpos : ∀ s ∈ first :: sections, 0 < s.size) :
    (∀ x, (first.paddr ≤ x ∧
        x < first.paddr + totalSize SectionHeader.size (first :: sections)) ↔
      ∃ s ∈ first :: sections, s.Holds x) ↔ Seamless (first :: sections) := by
  constructor
  · intro hexact
    have hcovers : Covers SectionHeader.paddr SectionHeader.size (first :: sections) first.paddr
        (first.paddr + totalSize SectionHeader.size (first :: sections)) :=
      fun x hx hlt => (hexact x).mp ⟨hx, hlt⟩
    obtain ⟨arranged, hperm, hchain⟩ := hcovers.endToEnd hpos
    refine ⟨arranged, hperm, ?_⟩
    intro s hs
    obtain rfl := Option.some.inj hs
    exact hchain
  · rintro ⟨arranged, hperm, hchain⟩ x
    have hfill := (hchain first rfl).occupies_iff
      (fun s hs => hpos s (hperm.mem_iff.mpr hs)) x
    rw [totalSize_perm hperm, ← hfill]
    constructor
    · rintro ⟨s, hs, hx⟩
      exact ⟨s, hperm.mem_iff.mpr hs, hx⟩
    · rintro ⟨s, hs, hx⟩
      exact ⟨s, hperm.mem_iff.mp hs, hx⟩

private theorem counted_pos (hpos : ∀ s ∈ first :: sections, 0 < s.size) {a length : Int}
    (hexact : ∀ x, (a ≤ x ∧ x < a + length) ↔ ∃ s ∈ first :: sections, s.Holds x) :
    0 < length := by
  have hfirst := hpos first List.mem_cons_self
  have hheld : ∃ s ∈ first :: sections, s.Holds first.paddr :=
    ⟨first, List.mem_cons_self, Int.le_refl _, by omega⟩
  have hin := (hexact first.paddr).mpr hheld
  omega

end Merged

/-- The merged segment is right exactly when there is neither a gap nor an overlap, nothing below
the section that comes first, and no overflow of the size, or when the overlaps make up for the
overflow. -/
theorem describesBss_iff (uninit : Nat → Byte) (hconv : coff2noff coff noffH = some noff)
    (hpos : ∀ s ∈ bssSections coff, 0 < s.size) :
    DescribesBss coff noff uninit ↔ Mergeable (bssSections coff) := by
  obtain ⟨haddr, hsize⟩ := uninitData_written uninit hconv
  simp only [DescribesBss, Segment.Holds, hsize]
  cases hbss : bssSections coff with
  | nil =>
    have hseamless : Seamless [] := ⟨[], .nil, fun _ hfirst => by cases hfirst⟩
    constructor
    · exact fun _ => .inl ⟨by decide, hseamless⟩
    · intro _ x
      rw [totalSize_nil, int32_eq_zero.mpr rfl]
      constructor
      · omega
      · rintro ⟨s, hs, -⟩
        cases hs
  | cons first rest =>
    rw [hbss] at hpos haddr
    have hnonneg := totalSize_nonneg hpos
    by_cases hfits : totalSize SectionHeader.size (first :: rest) < 2 ^ 31
    · have hstart := haddr first (by rw [lastStart_of_lt hpos (by omega)]; rfl)
      rw [hstart, int32_of_range ⟨by omega, hfits⟩, seamless_iff hpos, Mergeable, Overcounted]
      constructor
      · exact fun h => .inl ⟨hfits, h⟩
      · rintro (⟨-, h⟩ | ⟨hlarge, -⟩)
        · exact h
        · omega
    · obtain ⟨start, hstart⟩ := lastStart_isSome first rest
      rw [haddr start hstart]
      constructor
      · intro hexact
        refine .inr ⟨?_, ?_⟩
        · -- below 2^32 the size is negative
          by_contra hlt
          have hlength := counted_pos hpos hexact
          rw [int32_wrap (by omega) (by omega)] at hlength
          omega
        · intro s hs x
          obtain rfl := Option.some.inj (hstart.symm.trans hs)
          exact (hexact x).symm
      · rintro (⟨hlt, -⟩ | ⟨-, hexact⟩)
        · exact absurd hlt hfits
        · exact fun x => (hexact start hstart x).symm

/-- A COFF file with sections of uninitialized data, given by their addresses and sizes. -/
def bssCoff (ranges : List (Byte × Byte)) : HostFile :=
  let bytes : List Byte :=
    [0x62, 0x01, BitVec.ofNat 8 ranges.length, 0] ++ List.replicate 16 0 ++ [0x07, 0x01] ++
    List.replicate 54 0 ++ ranges.flatMap fun r =>
      bssName ++ [0, 0, 0, 0] ++ [r.1, 0, 0, 0] ++ [r.1, 0, 0, 0] ++ [r.2, 0, 0, 0] ++
        List.replicate 20 0
  { size := bytes.length, data := fun i => bytes.getD i 0 }

/-- The last section fills the gap that the second one left. -/
theorem describesBss_three :
    ∃ noff, coff2noff (bssCoff [(0, 4), (8, 4), (4, 4)]) smallHeader = some noff ∧
      DescribesBss (bssCoff [(0, 4), (8, 4), (4, 4)]) noff fun _ => 0 := by
  have hsome : (coff2noff (bssCoff [(0, 4), (8, 4), (4, 4)]) smallHeader).isSome = true := by
    decide +kernel
  obtain ⟨noff, hconv⟩ := Option.isSome_iff_exists.mp hsome
  refine ⟨noff, hconv, ?_⟩
  apply (describesBss_iff _ hconv (by decide +kernel)).mpr
  have hbss : bssSections (bssCoff [(0, 4), (8, 4), (4, 4)]) =
      [{ name := bssName, paddr := 0, size := 4, scnptr := 0 },
       { name := bssName, paddr := 8, size := 4, scnptr := 0 },
       { name := bssName, paddr := 4, size := 4, scnptr := 0 }] := by
    decide +kernel
  rw [hbss]
  refine .inl ⟨by decide, _, .cons _ (.swap _ _ _), ?_⟩
  intro first hfirst
  obtain rfl := Option.some.inj hfirst
  exact ⟨rfl, rfl, rfl, trivial⟩

/-- Two sections with a gap between them. -/
theorem describesBss_gap :
    ∃ noff, coff2noff (bssCoff [(0, 4), (8, 4)]) smallHeader = some noff ∧
      ¬ DescribesBss (bssCoff [(0, 4), (8, 4)]) noff fun _ => 0 := by
  have hsome : (coff2noff (bssCoff [(0, 4), (8, 4)]) smallHeader).isSome = true := by
    decide +kernel
  obtain ⟨noff, hconv⟩ := Option.isSome_iff_exists.mp hsome
  have hbss : bssSections (bssCoff [(0, 4), (8, 4)]) =
      [{ name := bssName, paddr := 0, size := 4, scnptr := 0 },
       { name := bssName, paddr := 8, size := 4, scnptr := 0 }] := by
    decide +kernel
  obtain ⟨haddr, hsize⟩ := uninitData_written (fun _ => 0) hconv
  rw [hbss] at haddr hsize
  refine ⟨noff, hconv, ?_⟩
  intro h
  have hheld : (Vm.headerOf noff fun _ => 0).uninitData.Holds 4 := by
    rw [Segment.Holds, haddr _ rfl, hsize]
    decide
  obtain ⟨s, hs, hx⟩ := (h 4).mp hheld
  rw [hbss] at hs
  have hnone : ∀ s ∈ [({ name := bssName, paddr := 0, size := 4, scnptr := 0 } : SectionHeader),
      { name := bssName, paddr := 8, size := 4, scnptr := 0 }],
      ¬ (s.paddr ≤ 4 ∧ 4 < s.paddr + s.size) := by
    decide
  exact hnone s hs hx

end Nachos

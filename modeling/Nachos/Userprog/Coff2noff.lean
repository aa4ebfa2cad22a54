import Nachos.Userprog.Effects
import Nachos.Framework.ByteImage
import Mathlib.Data.List.Pairwise

/-!
# From COFF to memory

`coff2noff` copies the sections of a COFF file one after another behind a NOFF header that says
where each of them is and where it goes; `Load` copies them from there to memory. The converter
stops with an error where the result is `none`. It is built for a little-endian host with 32-bit
`long`.
-/

namespace Nachos

open Framework

/-- The fields of a section header the converter uses. -/
structure SectionHeader where
  name : List Byte
  paddr : Int
  size : Int
  scnptr : Int
  deriving DecidableEq

/-- `sizeof(struct filehdr)`. -/
abbrev fileHeaderSize : Nat := 20

/-- `sizeof(struct aouthdr)`. -/
abbrev systemHeaderSize : Nat := 56

/-- `sizeof(struct scnhdr)`. -/
abbrev sectionHeaderSize : Nat := 40

abbrev mipselMagic : Nat := 0x0162

abbrev omagic : Nat := 0x107

/-- The `unsigned short` at an offset of a buffer. -/
def shortAt (buffer : Nat → Byte) (a : Nat) : Nat := (buffer (a + 1) ++ buffer a).toNat

/-- The section header at an offset. The name ends with the first zero of its eight bytes; the
names it is compared with are shorter, so `strcmp` does not look further. -/
def sectionAt (buffer : Nat → Byte) (a : Nat) : SectionHeader :=
  { name := ((List.range 8).map fun j => buffer (a + j)).takeWhile (· ≠ 0),
    paddr := intAt (fun j => buffer (a + j)) 2,
    size := intAt (fun j => buffer (a + j)) 4,
    scnptr := intAt (fun j => buffer (a + j)) 5 }

def coffSections (coff : HostFile) : List SectionHeader :=
  (List.range (shortAt coff.data 2)).map fun i =>
    sectionAt coff.data (fileHeaderSize + systemHeaderSize + i * sectionHeaderSize)

/-- The segments that are copied. -/
inductive SegmentKind
  | code
  | initData
  | readonlyData
  deriving DecidableEq

namespace SegmentKind

/-- `.text`, `.data` and `.rdata`. -/
def name : SegmentKind → List Byte
  | .code => [0x2e, 0x74, 0x65, 0x78, 0x74]
  | .initData => [0x2e, 0x64, 0x61, 0x74, 0x61]
  | .readonlyData => [0x2e, 0x72, 0x64, 0x61, 0x74, 0x61]

private theorem name_inj {k k' : SegmentKind} (h : k.name = k'.name) : k = k' := by
  revert h
  cases k <;> cases k' <;> decide

end SegmentKind

/-- `.bss`. -/
def bssName : List Byte := [0x2e, 0x62, 0x73, 0x73]

namespace NoffHeader

def segment (h : NoffHeader) : SegmentKind → Segment
  | .code => h.code
  | .initData => h.initData
  | .readonlyData => h.readonlyData

def setSegment (h : NoffHeader) (s : Segment) : SegmentKind → NoffHeader
  | .code => { h with code := s }
  | .initData => { h with initData := s }
  | .readonlyData => { h with readonlyData := s }

@[simp] theorem segment_setSegment (h : NoffHeader) (s : Segment) (k : SegmentKind) :
    (h.setSegment s k).segment k = s := by
  cases k <;> rfl

private theorem segment_setSegment_of_ne (h : NoffHeader) (s : Segment) {k k' : SegmentKind}
    (hne : k' ≠ k) : (h.setSegment s k).segment k' = h.segment k' := by
  cases k <;> cases k' <;> first | rfl | exact absurd rfl hne

@[simp] theorem noffMagic_setSegment (h : NoffHeader) (s : Segment) (k : SegmentKind) :
    (h.setSegment s k).noffMagic = h.noffMagic := by
  cases k <;> rfl

def words (h : NoffHeader) : List Int :=
  [h.noffMagic, h.code.virtualAddr, h.code.inFileAddr, h.code.size, h.initData.virtualAddr,
    h.initData.inFileAddr, h.initData.size, h.readonlyData.virtualAddr, h.readonlyData.inFileAddr,
    h.readonlyData.size, h.uninitData.virtualAddr, h.uninitData.inFileAddr, h.uninitData.size]

/-- The header as `Write` finds it in memory. -/
def bytes (h : NoffHeader) : Nat → Byte :=
  fun a => (BitVec.ofInt 32 (h.words.getD (a / 4) 0)).extractLsb' (8 * (a % 4)) 8

end NoffHeader

/-! ## The converter -/

/-- `Read` at an offset of the input, with the new offset. A negative size makes `read` return
-1. -/
def readInput (coff : HostFile) (pos : Nat) (nBytes : Int) : Option Nat :=
  let result : Int := if nBytes < 0 then -1 else min nBytes (coff.size - pos : Nat)
  if result = nBytes then some (pos + nBytes.toNat) else none

/-- `Write` at an offset of the output, with the new offset. -/
def writeOutput (out : HostFile) (buffer : Nat → Byte) (pos : Nat) (nBytes : Int) :
    Option (HostFile × Nat) :=
  if nBytes < 0 then if nBytes = -1 then some (out, pos) else none
  else (out.writeAt buffer 0 nBytes.toNat pos).map (·, pos + nBytes.toNat)

/-- `lseek` to an offset; a negative one leaves the position. -/
def lseek (pos : Nat) (offset : Int) : Nat := if offset < 0 then pos else offset.toNat

/-- The variables of the loop over the sections, with the offsets of both files. -/
structure Conversion where
  noffH : NoffHeader
  inNoffFile : Int
  inPos : Nat
  outPos : Nat
  out : HostFile

namespace Conversion

def copySection (coff : HostFile) (st : Conversion) (s : SectionHeader) (k : SegmentKind) :
    Option Conversion := do
  let start := lseek st.inPos s.scnptr
  let inPos ← readInput coff start s.size
  let (out, outPos) ← writeOutput st.out (fun i => coff.data (start + i)) st.outPos s.size
  some { noffH := st.noffH.setSegment
           { virtualAddr := s.paddr, inFileAddr := st.inNoffFile, size := s.size } k,
         inNoffFile := st.inNoffFile + s.size, inPos := inPos, outPos := outPos, out := out }

def bssSection (st : Conversion) (s : SectionHeader) : Option Conversion :=
  let u := st.noffH.uninitData
  if u.size ≠ 0 then
    if s.paddr = int32 (u.virtualAddr + u.size) then none
    else some { st with noffH.uninitData := { u with size := int32 (u.size + s.size) } }
  else some { st with noffH.uninitData := { u with virtualAddr := s.paddr, size := s.size } }

def convertSection (coff : HostFile) (st : Conversion) (s : SectionHeader) : Option Conversion :=
  if s.size = 0 then some st
  else if s.name = SegmentKind.code.name then st.copySection coff s .code
  else if s.name = SegmentKind.initData.name then st.copySection coff s .initData
  else if s.name = SegmentKind.readonlyData.name then st.copySection coff s .readonlyData
  else if s.name = bssName then st.bssSection s
  else none

/-- The start of the loop, with the uninitialized header `noffH`. -/
def start (noffH : NoffHeader) (inPos : Nat) : Conversion :=
  { noffH := { noffMagic := noffMagicNumber, code := { noffH.code with size := 0 },
               initData := { noffH.initData with size := 0 },
               readonlyData := { noffH.readonlyData with size := 0 },
               uninitData := { noffH.uninitData with size := 0 } },
    inNoffFile := noffHeaderSize, inPos := inPos, outPos := noffHeaderSize,
    out := { size := 0, data := fun _ => 0 } }

end Conversion

/-- `main` of the converter, with the uninitialized header. -/
def coff2noff (coff : HostFile) (noffH : NoffHeader) : Option HostFile := do
  let pos ← readInput coff 0 fileHeaderSize
  if shortAt coff.data 0 = mipselMagic then
    let pos ← readInput coff pos systemHeaderSize
    if shortAt coff.data fileHeaderSize = omagic then
      let pos ← readInput coff pos ((shortAt coff.data 2 * sectionHeaderSize : Nat) : Int)
      let st ← (coffSections coff).foldlM (Conversion.convertSection coff)
        (Conversion.start noffH pos)
      st.out.writeAt st.noffH.bytes 0 noffHeaderSize 0
    else none
  else none

theorem coff2noff_some {coff noff : HostFile} {noffH : NoffHeader}
    (h : coff2noff coff noffH = some noff) :
    ∃ pos st, (coffSections coff).foldlM (Conversion.convertSection coff)
        (Conversion.start noffH pos) = some st ∧
      st.out.writeAt st.noffH.bytes 0 noffHeaderSize 0 = some noff := by
  simp only [coff2noff, Option.bind_eq_bind] at h
  obtain ⟨_, -, h⟩ := Option.bind_eq_some_iff.mp h
  split at h
  next =>
    obtain ⟨_, -, h⟩ := Option.bind_eq_some_iff.mp h
    split at h
    next =>
      obtain ⟨pos, -, h⟩ := Option.bind_eq_some_iff.mp h
      obtain ⟨st, hloop, hwrite⟩ := Option.bind_eq_some_iff.mp h
      exact ⟨pos, st, hloop, hwrite⟩
    next => cases h
  next => cases h

/-! ## What the converter writes -/

namespace Conversion

/-- The bytes of a section are in the output, where the header says. -/
structure Placed (coff : HostFile) (st : Conversion) (k : SegmentKind) (s : SectionHeader)
    (p : Nat) : Prop where
  segment : st.noffH.segment k = { virtualAddr := s.paddr, inFileAddr := p, size := s.size }
  behind : noffHeaderSize ≤ p
  inside : (p : Int) + s.size ≤ st.out.size
  data : ∀ i : Nat, (i : Int) < s.size → 0 ≤ s.scnptr →
    coff.byte? (s.scnptr + i) = some (st.out.data (p + i))

/-- The state of the loop after the sections `done`. -/
structure Converted (coff : HostFile) (done : List SectionHeader) (st : Conversion) : Prop where
  magic : st.noffH.noffMagic = noffMagicNumber
  inNoffFile : st.inNoffFile = st.outPos
  behind : noffHeaderSize ≤ st.outPos
  outPos : (st.outPos : Int) = noffHeaderSize + (st.noffH.segment .code).size +
    (st.noffH.segment .initData).size + (st.noffH.segment .readonlyData).size
  written : st.out.size ≤ st.outPos
  absent : ∀ k : SegmentKind, (∀ s ∈ done, s.size ≠ 0 → s.name ≠ k.name) →
    (st.noffH.segment k).size = 0
  placed : ∀ (k : SegmentKind), ∀ s ∈ done, s.size ≠ 0 → s.name = k.name →
    ∃ p, st.Placed coff k s p

variable {coff : HostFile} {done : List SectionHeader} {st st' : Conversion} {s : SectionHeader}

private theorem converted_start (coff : HostFile) (noffH : NoffHeader) (inPos : Nat) :
    Converted coff [] (start noffH inPos) := by
  constructor
  case magic => rfl
  case inNoffFile => rfl
  case behind => exact Nat.le_refl _
  case outPos => rfl
  case written => exact Nat.zero_le _
  case absent =>
    intro k _
    cases k <;> rfl
  case placed =>
    intro k s hs
    cases hs

private theorem Converted.skip (h : Converted coff done st)
    (hsame : st'.noffH.noffMagic = st.noffH.noffMagic ∧
      (∀ k, st'.noffH.segment k = st.noffH.segment k) ∧ st'.inNoffFile = st.inNoffFile ∧
      st'.outPos = st.outPos ∧ st'.out = st.out)
    (hskip : ∀ k : SegmentKind, s.size = 0 ∨ s.name ≠ k.name) :
    Converted coff (done ++ [s]) st' := by
  obtain ⟨hmagic, hsegment, hin, hpos, hout⟩ := hsame
  constructor
  case magic => exact hmagic.trans h.magic
  case inNoffFile =>
    rw [hin, hpos]
    exact h.inNoffFile
  case behind =>
    rw [hpos]
    exact h.behind
  case outPos =>
    rw [hpos, hsegment, hsegment, hsegment]
    exact h.outPos
  case written =>
    rw [hout, hpos]
    exact h.written
  case absent =>
    intro k hnone
    rw [hsegment]
    exact h.absent k fun t ht => hnone t (List.mem_append_left _ ht)
  case placed =>
    intro k t ht hsize hname
    rcases List.mem_append.mp ht with ht | ht
    · obtain ⟨p, hp⟩ := h.placed k t ht hsize hname
      refine ⟨p, (hsegment k).trans hp.segment, hp.behind, ?_, ?_⟩
      · rw [hout]
        exact hp.inside
      · rw [hout]
        exact hp.data
    · obtain rfl := List.mem_singleton.mp ht
      rcases hskip k with hzero | hne
      · exact absurd hzero hsize
      · exact absurd hname hne

private theorem readInput_some {pos pos' : Nat} {n : Int} (hn : 0 < n)
    (h : readInput coff pos n = some pos') : pos + n.toNat ≤ coff.size := by
  simp only [readInput] at h
  rw [if_neg (show ¬ n < 0 by omega)] at h
  split at h
  next heq => omega
  next => cases h

private theorem copySection_some {k : SegmentKind} (hsize : 0 < s.size)
    (h : st.copySection coff s k = some st') :
    ∃ inPos out, st' =
        { noffH := st.noffH.setSegment
            { virtualAddr := s.paddr, inFileAddr := st.inNoffFile, size := s.size } k,
          inNoffFile := st.inNoffFile + s.size, inPos := inPos,
          outPos := st.outPos + s.size.toNat, out := out } ∧
      out.size = max st.out.size (st.outPos + s.size.toNat) ∧
      (∀ a, a < st.outPos → a < st.out.size → out.data a = st.out.data a) ∧
      ∀ i < s.size.toNat, 0 ≤ s.scnptr →
        coff.byte? (s.scnptr + i) = some (out.data (st.outPos + i)) := by
  simp only [copySection, Option.bind_eq_bind] at h
  obtain ⟨inPos, hread, h⟩ := Option.bind_eq_some_iff.mp h
  have hinput := readInput_some hsize hread
  obtain ⟨⟨out, outPos⟩, hwrite, h⟩ := Option.bind_eq_some_iff.mp h
  obtain rfl := Option.some.inj h
  rw [writeOutput, if_neg (by omega)] at hwrite
  obtain ⟨out', hout, heq⟩ := Option.map_eq_some_iff.mp hwrite
  obtain ⟨rfl, rfl⟩ := Prod.mk.inj heq
  rw [HostFile.writeAt, if_neg (by omega)] at hout
  obtain rfl := Option.some.inj hout
  refine ⟨inPos, _, rfl, rfl, ?_, ?_⟩
  · intro a ha hlt
    have hout : ¬ ((st.outPos : Int).toNat ≤ a ∧ a < (st.outPos : Int).toNat + s.size.toNat) := by
      omega
    simp only [hout, if_false, hlt, if_true]
  · intro i hi hptr
    have hin : (st.outPos : Int).toNat ≤ st.outPos + i ∧
        st.outPos + i < (st.outPos : Int).toNat + s.size.toNat := by omega
    have hsub : 0 + (st.outPos + i - (st.outPos : Int).toNat) = i := by omega
    have hseek : lseek st.inPos s.scnptr = s.scnptr.toNat := if_neg (by omega)
    rw [hseek] at hinput
    have hbyte : 0 ≤ s.scnptr + i ∧ s.scnptr + i < coff.size := by omega
    have hindex : (s.scnptr + i).toNat = s.scnptr.toNat + i := by omega
    simp only [HostFile.byte?, hbyte, hin, and_self, if_true, hsub, hseek, hindex]

theorem Converted.copy (h : Converted coff done st) {k : SegmentKind} (hsize : 0 < s.size)
    (hname : s.name = k.name) (hnew : ∀ t ∈ done, t.name ≠ s.name)
    (hcopy : st.copySection coff s k = some st') : Converted coff (done ++ [s]) st' := by
  obtain ⟨inPos, out, rfl, houtsize, hkeep, hdata⟩ := copySection_some hsize hcopy
  have hzero : (st.noffH.segment k).size = 0 :=
    h.absent k fun t ht _ => hname ▸ hnew t ht
  have hwritten := h.written
  constructor
  case magic => exact (NoffHeader.noffMagic_setSegment _ _ _).trans h.magic
  case inNoffFile =>
    show st.inNoffFile + s.size = ((st.outPos + s.size.toNat : Nat) : Int)
    rw [h.inNoffFile]
    omega
  case behind => exact Nat.le_trans h.behind (Nat.le_add_right _ _)
  case outPos =>
    have hpos := h.outPos
    cases k with
    | code =>
      show ((st.outPos + s.size.toNat : Nat) : Int) = noffHeaderSize + s.size +
        (st.noffH.segment .initData).size + (st.noffH.segment .readonlyData).size
      omega
    | initData =>
      show ((st.outPos + s.size.toNat : Nat) : Int) = noffHeaderSize +
        (st.noffH.segment .code).size + s.size + (st.noffH.segment .readonlyData).size
      omega
    | readonlyData =>
      show ((st.outPos + s.size.toNat : Nat) : Int) = noffHeaderSize +
        (st.noffH.segment .code).size + (st.noffH.segment .initData).size + s.size
      omega
  case written =>
    show out.size ≤ st.outPos + s.size.toNat
    omega
  case absent =>
    intro k' hnone
    have hne : k' ≠ k := by
      rintro rfl
      exact hnone s (by simp) (by omega) hname
    show ((st.noffH.setSegment _ k).segment k').size = 0
    rw [NoffHeader.segment_setSegment_of_ne _ _ hne]
    exact h.absent k' fun t ht => hnone t (List.mem_append_left _ ht)
  case placed =>
    intro k' t ht htsize htname
    rcases List.mem_append.mp ht with ht | ht
    · have hne : k' ≠ k := by
        rintro rfl
        exact hnew t ht (htname.trans hname.symm)
      obtain ⟨p, hp⟩ := h.placed k' t ht htsize htname
      have hinside := hp.inside
      refine ⟨p, ?_, hp.behind, ?_, ?_⟩
      · exact (NoffHeader.segment_setSegment_of_ne _ _ hne).trans hp.segment
      · show (p : Int) + t.size ≤ out.size
        omega
      · intro i hi hptr
        show coff.byte? (t.scnptr + i) = some (out.data (p + i))
        rw [hkeep (p + i) (by omega) (by omega)]
        exact hp.data i hi hptr
    · obtain rfl := List.mem_singleton.mp ht
      obtain rfl := SegmentKind.name_inj (htname.symm.trans hname)
      refine ⟨st.outPos, ?_, ?_, ?_, ?_⟩
      · show (st.noffH.setSegment _ k').segment k' = _
        rw [NoffHeader.segment_setSegment, h.inNoffFile]
      · exact h.behind
      · show (st.outPos : Int) + t.size ≤ out.size
        omega
      · intro i hi hptr
        exact hdata i (by omega) hptr

private theorem bssSection_some (h : st.bssSection s = some st') :
    ∃ u, st' = { st with noffH.uninitData := u } := by
  unfold bssSection at h
  dsimp only at h
  split at h
  · split at h
    · exact absurd h (by simp)
    · exact ⟨_, (Option.some.inj h).symm⟩
  · exact ⟨_, (Option.some.inj h).symm⟩

theorem Converted.step (h : Converted coff done st) (hsize : s.size ≠ 0 → 0 < s.size)
    (hnew : ∀ t ∈ done, t.name ≠ s.name) (hstep : st.convertSection coff s = some st') :
    Converted coff (done ++ [s]) st' := by
  unfold convertSection at hstep
  split at hstep
  next hzero =>
    obtain rfl := Option.some.inj hstep
    exact h.skip ⟨rfl, fun _ => rfl, rfl, rfl, rfl⟩ fun _ => .inl hzero
  next hne =>
    split at hstep
    next hname => exact h.copy (hsize hne) hname hnew hstep
    next hcode =>
      split at hstep
      next hname => exact h.copy (hsize hne) hname hnew hstep
      next hinit =>
        split at hstep
        next hname => exact h.copy (hsize hne) hname hnew hstep
        next hread =>
          split at hstep
          next hbss =>
            obtain ⟨u, rfl⟩ := bssSection_some hstep
            apply h.skip
            · refine ⟨rfl, ?_, rfl, rfl, rfl⟩
              intro k
              cases k <;> rfl
            · intro k
              right
              cases k with
              | code => exact hcode
              | initData => exact hinit
              | readonlyData => exact hread
          next => cases hstep

theorem Converted.run {rest : List SectionHeader} (h : Converted coff done st)
    (hsize : ∀ s ∈ rest, s.size ≠ 0 → 0 < s.size)
    (hnodup : ((done ++ rest).map SectionHeader.name).Nodup)
    (hrun : rest.foldlM (convertSection coff) st = some st') :
    Converted coff (done ++ rest) st' := by
  induction rest generalizing done st with
  | nil =>
    obtain rfl := Option.some.inj hrun
    rw [List.append_nil]
    exact h
  | cons s rest ih =>
    rw [List.foldlM_cons, Option.bind_eq_bind] at hrun
    obtain ⟨st₁, hstep, hrest⟩ := Option.bind_eq_some_iff.mp hrun
    have hnew : ∀ t ∈ done, t.name ≠ s.name := by
      intro t ht heq
      rw [List.map_append, List.nodup_append] at hnodup
      exact hnodup.2.2 _ (List.mem_map_of_mem ht) _ (List.mem_map_of_mem List.mem_cons_self) heq
    have h₁ := h.step (hsize s List.mem_cons_self) hnew hstep
    have hassoc : done ++ s :: rest = (done ++ [s]) ++ rest := by simp
    rw [hassoc] at hnodup ⊢
    exact ih h₁ (fun t ht => hsize t (List.mem_cons_of_mem _ ht)) hnodup hrest

end Conversion

/-! ## The header in the file -/

namespace NoffHeader

theorem intAt_bytes (h : NoffHeader) (i : Nat) :
    intAt h.bytes i = (BitVec.ofInt 32 (h.words.getD i 0)).toInt := by
  have hword : Image.word h.bytes i =
      (Image.setWord (fun _ => 0) i (BitVec.ofInt 32 (h.words.getD i 0))).word i := by
    apply Image.word_congr
    intro j hj
    have hdiv : (4 * i + j) / 4 = i := by omega
    simp only [bytes, Image.setWord, hdiv, if_true]
  show (Image.word h.bytes i).toInt = _
  rw [hword, Image.word_setWord_self]

def stored (s : Segment) : Segment :=
  { virtualAddr := (BitVec.ofInt 32 s.virtualAddr).toInt,
    inFileAddr := (BitVec.ofInt 32 s.inFileAddr).toInt, size := (BitVec.ofInt 32 s.size).toInt }

private theorem noffMagic_bytes (h : NoffHeader) :
    (noffHeader h.bytes).noffMagic = (BitVec.ofInt 32 h.noffMagic).toInt :=
  h.intAt_bytes 0

private theorem segment_bytes (h : NoffHeader) (k : SegmentKind) :
    (noffHeader h.bytes).segment k = stored (h.segment k) := by
  cases k with
  | code => simp only [noffHeader, segment, segmentAt, intAt_bytes]; rfl
  | initData => simp only [noffHeader, segment, segmentAt, intAt_bytes]; rfl
  | readonlyData => simp only [noffHeader, segment, segmentAt, intAt_bytes]; rfl

end NoffHeader

private theorem noffHeader_congr {x y : Nat → Byte} (h : ∀ a < noffHeaderSize, x a = y a) :
    noffHeader x = noffHeader y := by
  have hword : ∀ i < 13, intAt x i = intAt y i := by
    intro i hi
    have heq : Image.word x i = Image.word y i :=
      Image.AgreeTo.word (n := noffHeaderSize) h (by simp only [noffHeaderSize]; omega)
    exact congrArg BitVec.toInt heq
  have hsegment : ∀ i < 11, segmentAt x i = segmentAt y i := by
    intro i hi
    simp only [segmentAt, hword i (by omega), hword (i + 1) (by omega), hword (i + 2) (by omega)]
  simp only [noffHeader, hword 0 (by decide), hsegment 1 (by decide), hsegment 4 (by decide),
    hsegment 7 (by decide), hsegment 10 (by decide)]

/-! ## The file and the memory -/

def SectionHeader.Apart (s t : SectionHeader) : Prop :=
  s.size ≠ 0 → t.size ≠ 0 → s.paddr + s.size ≤ t.paddr ∨ t.paddr + t.size ≤ s.paddr

instance (s t : SectionHeader) : Decidable (s.Apart t) :=
  inferInstanceAs (Decidable (_ → _ → _))

instance : Std.Symm SectionHeader.Apart where
  symm _ _ h h₁ h₂ := (h h₂ h₁).symm

/-- Sections with different names whose addresses are apart and in the memory, where they are
not empty. -/
structure WellPlaced (sections : List SectionHeader) : Prop where
  names : (sections.map SectionHeader.name).Nodup
  inMemory : ∀ s ∈ sections, s.size ≠ 0 →
    0 ≤ s.paddr ∧ 0 < s.size ∧ s.paddr + s.size ≤ memorySize
  disjoint : sections.Pairwise SectionHeader.Apart

namespace WellPlaced

variable {coff noff : HostFile} {noffH : NoffHeader}

theorem apart {sections : List SectionHeader} (h : WellPlaced sections) {s t : SectionHeader}
    (hs : s ∈ sections) (ht : t ∈ sections) (hne : s.name ≠ t.name) : s.Apart t :=
  h.disjoint.forall hs ht fun heq => hne (congrArg SectionHeader.name heq)

private theorem converted (h : WellPlaced (coffSections coff))
    (hconv : coff2noff coff noffH = some noff) :
    ∃ st, Conversion.Converted coff (coffSections coff) st ∧
      st.out.writeAt st.noffH.bytes 0 noffHeaderSize 0 = some noff := by
  obtain ⟨pos, st, hloop, hwrite⟩ := coff2noff_some hconv
  have hstart := Conversion.converted_start coff noffH pos
  exact ⟨st, hstart.run (fun s hs hsize => (h.inMemory s hs hsize).2.1) h.names hloop, hwrite⟩

end WellPlaced

namespace Conversion

variable {coff noff : HostFile} {st : Conversion} {uninit : Nat → Byte}

/-! The output when the header has been written to its start. -/

theorem headerOf_written (hwrite : st.out.writeAt st.noffH.bytes 0 noffHeaderSize 0 = some noff) :
    Vm.headerOf noff uninit = noffHeader st.noffH.bytes := by
  rw [HostFile.writeAt, if_neg (by decide)] at hwrite
  obtain rfl := Option.some.inj hwrite
  apply noffHeader_congr
  intro a ha
  have hsize : a < max st.out.size ((0 : Int).toNat + noffHeaderSize) := by
    simp only [noffHeaderSize] at *
    omega
  have hin : (0 : Int).toNat ≤ a ∧ a < (0 : Int).toNat + noffHeaderSize := by
    simp only [noffHeaderSize] at *
    omega
  rw [if_pos ⟨ha, hsize⟩]
  simp only [hin, and_self, if_true]
  congr 1
  omega

private theorem byte_behind (hwrite : st.out.writeAt st.noffH.bytes 0 noffHeaderSize 0 = some noff)
    {a : Nat} (ha : noffHeaderSize ≤ a) (ha' : a < st.out.size) :
    noff.byte? a = some (st.out.data a) := by
  rw [HostFile.writeAt, if_neg (by decide)] at hwrite
  obtain rfl := Option.some.inj hwrite
  have hout : ¬ ((0 : Int).toNat ≤ a ∧ a < (0 : Int).toNat + noffHeaderSize) := by omega
  have hin : (0 : Int) ≤ a ∧
      (a : Int) < (max st.out.size ((0 : Int).toNat + noffHeaderSize) : Nat) := by omega
  simp only [HostFile.byte?, hin, and_self, if_true, Int.toNat_natCast, hout, if_false, ha']

variable {sections : List SectionHeader}

private theorem Converted.segment_cases (h : Converted coff sections st) (k : SegmentKind) :
    (∃ s ∈ sections, s.size ≠ 0 ∧ s.name = k.name ∧ ∃ p, st.Placed coff k s p) ∨
      (st.noffH.segment k).size = 0 := by
  by_cases hex : ∃ s ∈ sections, s.size ≠ 0 ∧ s.name = k.name
  · obtain ⟨s, hs, hsize, hname⟩ := hex
    exact .inl ⟨s, hs, hsize, hname, h.placed k s hs hsize hname⟩
  · right
    apply h.absent k
    intro s hs hsize hname
    exact hex ⟨s, hs, hsize, hname⟩

private theorem Converted.size_le (h : Converted coff sections st) (hwell : WellPlaced sections)
    (k : SegmentKind) : (st.noffH.segment k).size ≤ memorySize := by
  rcases h.segment_cases k with ⟨s, hs, hsize, -, p, hp⟩ | hzero
  · have hmem := hwell.inMemory s hs hsize
    rw [hp.segment]
    show s.size ≤ memorySize
    omega
  · rw [hzero]
    decide

private theorem Converted.end_le (h : Converted coff sections st) (hwell : WellPlaced sections)
    {k : SegmentKind} {s : SectionHeader} {p : Nat} (hp : st.Placed coff k s p) :
    (p : Int) + s.size ≤ 2 ^ 16 := by
  have hcode := h.size_le hwell .code
  have hinit := h.size_le hwell .initData
  have hread := h.size_le hwell .readonlyData
  have hpos := h.outPos
  have hwritten := h.written
  have hinside := hp.inside
  simp only [memorySize, numPhysPages, pageSize, noffHeaderSize] at *
  omega

private theorem Converted.segment_headerOf (h : Converted coff sections st)
    (hwell : WellPlaced sections)
    (hwrite : st.out.writeAt st.noffH.bytes 0 noffHeaderSize 0 = some noff) {k : SegmentKind}
    {s : SectionHeader} {p : Nat} (hs : s ∈ sections) (hsize : s.size ≠ 0)
    (hp : st.Placed coff k s p) :
    (Vm.headerOf noff uninit).segment k =
      { virtualAddr := s.paddr, inFileAddr := p, size := s.size } := by
  have hmem := hwell.inMemory s hs hsize
  have hend := h.end_le hwell hp
  simp only [memorySize, numPhysPages, pageSize] at hmem
  have haddr : -2 ^ 31 ≤ s.paddr ∧ s.paddr < 2 ^ 31 := by omega
  have hfile : -2 ^ 31 ≤ (p : Int) ∧ (p : Int) < 2 ^ 31 := by omega
  have hlength : -2 ^ 31 ≤ s.size ∧ s.size < 2 ^ 31 := by omega
  rw [headerOf_written hwrite, NoffHeader.segment_bytes, hp.segment]
  simp only [NoffHeader.stored, Image.toInt_ofInt haddr, Image.toInt_ofInt hfile,
    Image.toInt_ofInt hlength]

private theorem size_headerOf {k : SegmentKind} (hzero : (st.noffH.segment k).size = 0)
    (hwrite : st.out.writeAt st.noffH.bytes 0 noffHeaderSize 0 = some noff) :
    ((Vm.headerOf noff uninit).segment k).size = 0 := by
  rw [headerOf_written hwrite, NoffHeader.segment_bytes]
  show (BitVec.ofInt 32 (st.noffH.segment k).size).toInt = 0
  rw [hzero]
  rfl

theorem Converted.fits (h : Converted coff sections st) (hwell : WellPlaced sections)
    (hwrite : st.out.writeAt st.noffH.bytes 0 noffHeaderSize 0 = some noff) (k : SegmentKind) :
    ((Vm.headerOf noff uninit).segment k).Fits ∨
      ((Vm.headerOf noff uninit).segment k).size ≤ 0 := by
  rcases h.segment_cases k with ⟨s, hs, hsize, -, p, hp⟩ | hzero
  · left
    have hmem := hwell.inMemory s hs hsize
    rw [h.segment_headerOf hwell hwrite hs hsize hp]
    have hend := h.end_le hwell hp
    exact ⟨hmem.1, by dsimp only; omega, hmem.2.2, Int.natCast_nonneg p, by dsimp only; omega⟩
  · exact .inr (Int.le_of_eq (size_headerOf hzero hwrite))

private theorem Converted.segmentByte_section (h : Converted coff sections st)
    (hwell : WellPlaced sections)
    (hwrite : st.out.writeAt st.noffH.bytes 0 noffHeaderSize 0 = some noff) {k : SegmentKind}
    {s : SectionHeader} (hs : s ∈ sections) (hname : s.name = k.name) (hptr : 0 ≤ s.scnptr)
    {i : Nat} (hi : (i : Int) < s.size) :
    Vm.segmentByte noff ((Vm.headerOf noff uninit).segment k) (s.paddr.toNat + i) =
      coff.byte? (s.scnptr + i) := by
  have hsize : s.size ≠ 0 := by omega
  obtain ⟨p, hp⟩ := h.placed k s hs hsize hname
  have hmem := hwell.inMemory s hs hsize
  have hbehind := hp.behind
  have hinside := hp.inside
  have hend := h.end_le hwell hp
  have hin : s.paddr ≤ (s.paddr.toNat + i : Nat) ∧
      ((s.paddr.toNat + i : Nat) : Int) < s.paddr + s.size := by omega
  have hoffset : (p : Int) + ((s.paddr.toNat + i : Nat) - s.paddr) = (p + i : Nat) := by omega
  rw [h.segment_headerOf hwell hwrite hs hsize hp, Vm.segmentByte, if_pos hin, hoffset,
    int32_natCast (by omega), byte_behind hwrite (by omega) (by omega)]
  exact (hp.data i hi hptr).symm

private theorem Converted.segmentByte_other (h : Converted coff sections st)
    (hwell : WellPlaced sections)
    (hwrite : st.out.writeAt st.noffH.bytes 0 noffHeaderSize 0 = some noff) {k : SegmentKind}
    {s : SectionHeader} (hs : s ∈ sections) (hname : s.name ≠ k.name) {i : Nat}
    (hi : (i : Int) < s.size) :
    Vm.segmentByte noff ((Vm.headerOf noff uninit).segment k) (s.paddr.toNat + i) = none := by
  have hsize : s.size ≠ 0 := by omega
  have hmem := hwell.inMemory s hs hsize
  apply if_neg
  rcases h.segment_cases k with ⟨t, ht, htsize, htname, p, hp⟩ | hzero
  · have hne : s.name ≠ t.name := fun heq => hname (heq.trans htname)
    have hapart := hwell.apart hs ht hne hsize htsize
    rw [h.segment_headerOf hwell hwrite ht htsize hp]
    dsimp only
    omega
  · rw [size_headerOf hzero hwrite]
    omega

end Conversion

namespace Vm

variable {f : HostFile} {h : NoffHeader} {memory : Nat → Byte} {x : Nat}

private theorem imageOver_of_segment {k : SegmentKind} {b : Byte}
    (hk : segmentByte f (h.segment k) x = some b)
    (hother : ∀ k', k' ≠ k → segmentByte f (h.segment k') x = none) :
    imageOver f h memory x = b := by
  cases k with
  | code =>
    have hinit := hother .initData (by decide)
    have hread := hother .readonlyData (by decide)
    simp only [NoffHeader.segment] at hk hinit hread
    simp only [imageOver, hk, hinit, hread, Option.getD_some, Option.getD_none]
  | initData =>
    have hread := hother .readonlyData (by decide)
    simp only [NoffHeader.segment] at hk hread
    simp only [imageOver, hk, hread, Option.getD_some, Option.getD_none]
  | readonlyData =>
    simp only [NoffHeader.segment] at hk
    simp only [imageOver, hk, Option.getD_some]

private theorem imageOver_of_none (hnone : ∀ k, segmentByte f (h.segment k) x = none) :
    imageOver f h memory x = memory x := by
  have hcode := hnone .code
  have hinit := hnone .initData
  have hread := hnone .readonlyData
  simp only [NoffHeader.segment] at hcode hinit hread
  simp only [imageOver, hcode, hinit, hread, Option.getD_none]

/-- What the page table of a space gives at a virtual address, and `ReadMem` too where the page
is one of the program's. -/
structure Reads (m : Vm) (space : AddrSpace) (x : Nat) (b : Byte) : Prop where
  page : x / pageSize < numPhysPages
  resident : ∃ phy, Mapped (m.tables space.pageTable (x / pageSize)) phy ∧
    m.mainMemory (phy * pageSize + x % pageSize) = b
  readMem : x / pageSize < space.numPages → ∀ vir,
    ∃ m', (m.restoreState space).readMem (BitVec.ofNat 32 x) 1 vir = some (m', b.signExtend 32)

private theorem Reads.of_mapped {m : Vm} {space : AddrSpace} {phy : Nat} {b : Byte}
    (hx : x < memorySize) (hm : Mapped (m.tables space.pageTable (x / pageSize)) phy)
    (hro : (m.tables space.pageTable (x / pageSize)).readOnly = false)
    (hb : m.mainMemory (phy * pageSize + x % pageSize) = b) : m.Reads space x b := by
  constructor
  case page =>
    simp only [memorySize, numPhysPages, pageSize] at *
    omega
  case resident => exact ⟨phy, hm, hb⟩
  case readMem =>
    intro hpage vir
    have haddr : (BitVec.ofNat 32 x).toNat = x := by
      rw [BitVec.toNat_ofNat]
      apply Nat.mod_eq_of_lt
      simp only [memorySize, numPhysPages, pageSize] at hx
      omega
    have htranslate : (m.restoreState space).translate (BitVec.ofNat 32 x) 1 false =
        some ((m.restoreState space).touch space.pageTable (x / pageSize) phy false,
          .ok (phy * pageSize + x % pageSize)) := by
      rw [translate_mapped (m := m.restoreState space) (t := space.pageTable) rfl
        (by rw [haddr]; exact hpage) (by simp [Aligned]) (.inl rfl) (by rw [haddr]; exact hm)
        (by rw [haddr]; exact hro), haddr]
    refine ⟨(m.restoreState space).touch space.pageTable (x / pageSize) phy false, ?_⟩
    rw [readMem_of_access (access_hit htranslate)]
    show Option.map _ (some ((m.mainMemory (phy * pageSize + x % pageSize)).signExtend 32)) = _
    rw [hb]
    rfl

private theorem load_reads {m m' : Vm} {fileName : FileName} {uninit : Nat → Byte}
    (hfree : ∀ p < numPhysPages, (m.globalPageTable p).refPageTable = none)
    (hf : m.files fileName = some f) (hload : m.load fileName uninit = some m') :
    ∃ space, m'.spaces m.nextTable = some space ∧ ∀ x < memorySize,
      m'.Reads space x (imageOver f (headerOf f uninit) m.mainMemory x) := by
  rcases load_free hfree hload with ⟨hnone, -⟩ | ⟨g, hg, -, rfl⟩
  · rw [hf] at hnone
    cases hnone
  · obtain rfl : f = g := Option.some.inj (hf.symm.trans hg)
    refine ⟨_, Function.update_self _ _ _, ?_⟩
    intro x hx
    have hv : x / pageSize < numPhysPages := by
      simp only [memorySize, numPhysPages, pageSize] at *
      omega
    have hentry : (m.newSpace fileName (headerOf f uninit) fun v => v).tables m.nextTable
        (x / pageSize) = freshEntry fileName (x / pageSize) (x / pageSize : Nat) := by
      show Function.update m.tables m.nextTable _ m.nextTable (x / pageSize) = _
      rw [Function.update_self]
      exact if_pos hv
    have hdiv : x / pageSize * pageSize + x % pageSize = x := Nat.div_add_mod' x pageSize
    have hmapped : Mapped ((m.newSpace fileName (headerOf f uninit) fun v => v).tables
        m.nextTable (x / pageSize)) (x / pageSize) :=
      ⟨congrArg _ hentry, congrArg _ hentry, hv⟩
    apply Reads.of_mapped hx hmapped
    · exact congrArg _ hentry
    · show imageOver _ _ _ (x / pageSize * pageSize + x % pageSize) = _
      rw [hdiv]

end Vm

/-- The tool chain preserves the image of a program. -/
theorem coff2noff_load {coff noff : HostFile} {noffH : NoffHeader}
    (files : FileName → Option HostFile) (fileName : FileName) (uninit : Nat → Byte)
    (hconv : coff2noff coff noffH = some noff) (hwell : WellPlaced (coffSections coff))
    (hfile : files fileName = some noff)
    (hpages : (Vm.headerOf noff uninit).numPages ≤ numPhysPages) :
    ∃ m space, (Vm.new files).load fileName uninit = some m ∧
      m.spaces (Vm.new files).nextTable = some space ∧
      (∀ s ∈ coffSections coff, ∀ k : SegmentKind, s.name = k.name → 0 ≤ s.scnptr →
        ∀ i : Nat, (i : Int) < s.size → ∃ b, coff.byte? (s.scnptr + i) = some b ∧
          m.Reads space (s.paddr.toNat + i) b) ∧
      ∀ s ∈ coffSections coff, s.name = bssName → ∀ i : Nat, (i : Int) < s.size →
        m.Reads space (s.paddr.toNat + i) 0 := by
  obtain ⟨st, h, hwrite⟩ := hwell.converted hconv
  have hmagic : (Vm.headerOf noff uninit).noffMagic = noffMagicNumber := by
    rw [Conversion.headerOf_written hwrite, NoffHeader.noffMagic_bytes, h.magic]
    decide
  obtain ⟨m, hload⟩ := Vm.load_of_segments (m := Vm.new files) (.inl fun _ _ => rfl) hfile hmagic
    hpages (h.fits hwell hwrite .code) (h.fits hwell hwrite .initData)
    (h.fits hwell hwrite .readonlyData)
  obtain ⟨space, hspace, hreads⟩ := Vm.load_reads (fun _ _ => rfl) hfile hload
  have hbound : ∀ s ∈ coffSections coff, ∀ i : Nat, (i : Int) < s.size →
      s.paddr.toNat + i < memorySize := by
    intro s hs i hi
    have hmem := hwell.inMemory s hs (by omega)
    omega
  refine ⟨m, space, hload, hspace, ?_, ?_⟩
  · intro s hs k hname hptr i hi
    obtain ⟨p, hp⟩ := h.placed k s hs (by omega) hname
    have hbyte := hp.data i hi hptr
    have hk : Vm.segmentByte noff ((Vm.headerOf noff uninit).segment k) (s.paddr.toNat + i) =
        some _ := (h.segmentByte_section hwell hwrite hs hname hptr hi).trans hbyte
    have hother : ∀ k', k' ≠ k → Vm.segmentByte noff ((Vm.headerOf noff uninit).segment k')
        (s.paddr.toNat + i) = none := by
      intro k' hne
      apply h.segmentByte_other hwell hwrite hs _ hi
      exact fun heq => hne (SegmentKind.name_inj (heq.symm.trans hname))
    have hread := hreads _ (hbound s hs i hi)
    rw [Vm.imageOver_of_segment hk hother] at hread
    exact ⟨_, hbyte, hread⟩
  · intro s hs hname i hi
    have hne : ∀ k : SegmentKind, s.name ≠ k.name := by
      rw [hname]
      intro k
      cases k <;> decide
    have hread := hreads _ (hbound s hs i hi)
    rw [Vm.imageOver_of_none fun k => h.segmentByte_other hwell hwrite hs (hne k) hi] at hread
    exact hread

/-- A COFF file with four bytes of code and two bytes of uninitialized data behind them. -/
def smallCoff : HostFile :=
  let bytes : List Byte :=
    [0x62, 0x01, 2, 0] ++ List.replicate 16 0 ++ [0x07, 0x01] ++ List.replicate 54 0 ++
    SegmentKind.code.name ++ [0, 0, 0] ++ [0, 0, 0, 0] ++ [0, 0, 0, 0] ++ [4, 0, 0, 0] ++
      [156, 0, 0, 0] ++ List.replicate 16 0 ++
    bssName ++ [0, 0, 0, 0] ++ [4, 0, 0, 0] ++ [4, 0, 0, 0] ++ [2, 0, 0, 0] ++
      [0, 0, 0, 0] ++ List.replicate 16 0 ++
    [0x0a, 0x0b, 0x0c, 0x0d]
  { size := bytes.length, data := fun i => bytes.getD i 0 }

def smallHeader : NoffHeader :=
  let s : Segment := { virtualAddr := 0, inFileAddr := 0, size := 0 }
  { noffMagic := 0, code := s, initData := s, readonlyData := s, uninitData := s }

def smallNoff : HostFile := (coff2noff smallCoff smallHeader).get (by decide +kernel)

private theorem smallCoff_wellPlaced : WellPlaced (coffSections smallCoff) := by
  constructor
  case names => decide +kernel
  case inMemory => decide +kernel
  case disjoint => decide +kernel

theorem coff2noff_load_small :
    ∃ m space, (Vm.new fun _ => some smallNoff).load "small" (fun _ => 0) = some m ∧
      m.spaces 0 = some space ∧ m.Reads space 2 0x0c ∧ m.Reads space 5 0 := by
  have hconv : coff2noff smallCoff smallHeader = some smallNoff := (Option.some_get _).symm
  have hpages : (Vm.headerOf smallNoff fun _ => 0).numPages ≤ numPhysPages := by decide +kernel
  obtain ⟨m, space, hload, hspace, htext, hbss⟩ :=
    coff2noff_load (fun _ => some smallNoff) "small" (fun _ => 0) hconv smallCoff_wellPlaced rfl
      hpages
  refine ⟨m, space, hload, hspace, ?_, ?_⟩
  · obtain ⟨b, hb, hread⟩ := htext (sectionAt smallCoff.data 76) (by decide +kernel) .code
      (by decide +kernel) (by decide +kernel) 2 (by decide +kernel)
    obtain rfl : b = 0x0c := Option.some.inj (hb.symm.trans (by decide +kernel))
    exact hread
  · exact hbss (sectionAt smallCoff.data 116) (by decide +kernel) (by decide +kernel) 1
      (by decide +kernel)

end Nachos

import Nachos.Filesys.FlatFile

/-!
# The accesses of a request

`ReadAt` and `WriteAt` check a request by two comparisons. A negative position passes them, and
so does a request whose end is no `int`. What such a request does to the temporary buffer, the
table of data sectors and the buffer of the caller is listed here, access by access.
-/

namespace Nachos

open Framework

/-- An access to `count` elements from `index` on of an array of `size` elements. -/
structure ArrayAccess where
  size : Int
  index : Int
  count : Int
  deriving DecidableEq

def ArrayAccess.InBounds (a : ArrayAccess) : Prop :=
  0 ≤ a.index ∧ 0 ≤ a.count ∧ a.index + a.count ≤ a.size

instance (a : ArrayAccess) : Decidable a.InBounds := inferInstanceAs (Decidable (_ ∧ _ ∧ _))

/-- The local variables of `ReadAt` and `WriteAt` once the request is checked and cut. -/
structure Locals where
  numBytes : Int
  firstSector : Int
  lastSector : Int
  numSectors : Int

def Locals.bufferSize (l : Locals) : Int := int32 (l.numSectors * sectorSize)

namespace OpenFile

variable {f : OpenFile} {numBytes position : Int}

def Refused (f : OpenFile) (numBytes position : Int) : Prop :=
  numBytes ≤ 0 ∨ f.hdr.fileLength ≤ position

instance (f : OpenFile) (numBytes position : Int) : Decidable (f.Refused numBytes position) :=
  inferInstanceAs (Decidable (_ ∨ _))

def locals (f : OpenFile) (numBytes position : Int) : Locals :=
  let numBytes := clip f.hdr.fileLength numBytes position
  let firstSector := divRoundDown position sectorSize
  let lastSector := divRoundDown (int32 (position + numBytes - 1)) sectorSize
  { numBytes := numBytes, firstSector := firstSector, lastSector := lastSector,
    numSectors := 1 + lastSector - firstSector }

/-- The buffer is allocated, the sectors pass through it, and the bytes asked for are copied
between it and the buffer of the caller. -/
def transferAccesses (f : OpenFile) (numBytes position : Int) : List ArrayAccess :=
  let l := f.locals numBytes position
  [⟨l.bufferSize, 0, 0⟩, ⟨l.bufferSize, position - l.firstSector * sectorSize, l.numBytes⟩,
    ⟨numBytes, 0, l.numBytes⟩] ++
  (List.range l.numSectors.toNat).flatMap fun i =>
    [⟨f.hdr.numSectors.toInt, (int32 ((l.firstSector + i) * sectorSize)).tdiv sectorSize, 1⟩,
      ⟨l.bufferSize, int32 (i * sectorSize), sectorSize⟩]

def readAccesses (f : OpenFile) (numBytes position : Int) : List ArrayAccess :=
  if f.Refused numBytes position then [] else f.transferAccesses numBytes position

/-- A sector is read into a part of the temporary buffer before it is changed. -/
def preReadAccesses (f : OpenFile) (l : Locals) (sector : Int) (needed : Bool) :
    List ArrayAccess :=
  if needed then
    ⟨l.bufferSize, int32 ((sector - l.firstSector) * sectorSize), sectorSize⟩ ::
      f.readAccesses sectorSize (int32 (sector * sectorSize))
  else []

def writeAccesses (f : OpenFile) (numBytes position : Int) : List ArrayAccess :=
  if f.Refused numBytes position then []
  else
    let l := f.locals numBytes position
    let firstAligned : Bool := position = l.firstSector * sectorSize
    let lastAligned := lastAligned l.numBytes position l.lastSector
    f.transferAccesses numBytes position ++
      f.preReadAccesses l l.firstSector (!firstAligned) ++
      f.preReadAccesses l l.lastSector
        (!lastAligned && (l.firstSector != l.lastSector || firstAligned))

/-- Neither call makes an access outside an array. -/
structure Safe (f : OpenFile) (numBytes position : Int) : Prop where
  read : ∀ a ∈ f.readAccesses numBytes position, a.InBounds
  write : ∀ a ∈ f.writeAccesses numBytes position, a.InBounds

/-! ## Requests in range -/

private theorem transfer_inBounds (hw : f.hdr.WellFormed) (numBytes : Nat) {position : Nat}
    (hnum : 0 < numBytes) (hpos : position < f.hdr.length) (hfit : position + numBytes < 2 ^ 31) :
    ∃ first last : Nat, f.locals numBytes position =
        ⟨transferred f.hdr.length numBytes position, first, last, (last - first + 1 : Nat)⟩ ∧
      first ≤ last ∧ last < f.hdr.count ∧ first * 128 ≤ position ∧ last * 128 < f.hdr.length ∧
      (f.locals numBytes position).bufferSize = (last - first + 1 : Nat) * 128 ∧
      ∀ a ∈ f.transferAccesses numBytes position, a.InBounds := by
  obtain ⟨first, last, hs⟩ := span_of_request hw hnum hpos hfit
  have hlength : f.hdr.fileLength = f.hdr.length := by
    simp only [FileHeader.length] at hpos ⊢
    omega
  have hle : transferred f.hdr.length numBytes position ≤ numBytes := by
    simp only [transferred]
    omega
  generalize transferred f.hdr.length numBytes position = n at *
  obtain ⟨hfirst, hsize, hlast⟩ := And.intro hs.first_le (And.intro hs.size hs.last_le)
  have hlt := hs.last_lt
  have hcount := hw.count_le
  simp only [numDirect] at hcount
  have hlocals : f.locals numBytes position =
      ⟨n, first, last, (last - first + 1 : Nat)⟩ := by
    have hnumSectors : 1 + (last : Int) - first = (last - first + 1 : Nat) := by omega
    simp only [locals, hlength, hs.clip_eq, hs.first_eq, hs.last_eq, hnumSectors]
  have hbuffer : (f.locals numBytes position).bufferSize = (last - first + 1 : Nat) * 128 := by
    rw [Locals.bufferSize, hlocals]
    exact int32_of_range (by simp only [sectorSize]; omega)
  refine ⟨first, last, hlocals, by omega, hlt, by omega, by omega, hbuffer, ?_⟩
  have hsectors : (f.hdr.count : Int) = f.hdr.numSectors.toInt := by
    simp only [FileHeader.count] at hlt ⊢
    omega
  intro a ha
  simp only [transferAccesses, hbuffer, List.mem_append, List.mem_cons, List.not_mem_nil,
    or_false, List.mem_flatMap] at ha
  rw [hlocals] at ha
  rcases ha with (rfl | rfl | rfl) | ⟨i, hi, rfl | rfl⟩
  · simp only [ArrayAccess.InBounds]
    omega
  · simp only [ArrayAccess.InBounds, sectorSize]
    omega
  · simp only [ArrayAccess.InBounds]
    omega
  · have hi' : i < last - first + 1 := List.mem_range.mp hi
    have hindex : int32 (((first : Int) + i) * sectorSize) = ((first + i : Nat) : Int) * 128 := by
      simp only [sectorSize]
      rw [int32_of_range (by omega)]
      push_cast
      rfl
    have hdiv : (((first + i : Nat) : Int) * 128).tdiv (sectorSize : Nat) = (first + i : Nat) :=
      Int.mul_tdiv_cancel _ (by decide)
    simp only [ArrayAccess.InBounds, hindex, hdiv]
    omega
  · have hi' : i < last - first + 1 := List.mem_range.mp hi
    have hoff : int32 ((i : Int) * sectorSize) = (i : Int) * 128 :=
      int32_of_range (by simp only [sectorSize]; omega)
    simp only [ArrayAccess.InBounds, hoff, sectorSize]
    omega

private theorem length_of_not_refused {p : Nat} (h : ¬ f.Refused numBytes p) :
    0 < numBytes ∧ p < f.hdr.length := by
  simp only [Refused] at h
  simp only [FileHeader.length]
  omega

private theorem readAccesses_inBounds (hw : f.hdr.WellFormed) (h : InRange numBytes position) :
    ∀ a ∈ f.readAccesses numBytes position, a.InBounds := by
  intro a ha
  unfold readAccesses at ha
  split at ha
  next => cases ha
  next hgo =>
    obtain ⟨p, rfl⟩ := Int.eq_ofNat_of_zero_le h.start
    obtain ⟨hnum, hpos⟩ := length_of_not_refused hgo
    obtain ⟨n, rfl⟩ := Int.eq_ofNat_of_zero_le (Int.le_of_lt hnum)
    have hfits := h.fits
    obtain ⟨first, last, -, -, -, -, -, -, hall⟩ :=
      transfer_inBounds hw n (by omega) hpos (by omega)
    exact hall a ha

private theorem preReadAccesses_inBounds (hw : f.hdr.WellFormed) {l : Locals} {first i k : Nat}
    (hfirst : l.firstSector = first) (hbuffer : l.bufferSize = (k : Int) * 128)
    (hi : first ≤ i ∧ i < first + k) (hk : first + k ≤ f.hdr.count) (needed : Bool) :
    ∀ a ∈ f.preReadAccesses l i needed, a.InBounds := by
  have hcount := hw.count_le
  simp only [numDirect] at hcount
  have hoff : int32 (((i : Int) - first) * sectorSize) = ((i : Int) - first) * 128 :=
    int32_of_range (by simp only [sectorSize]; omega)
  have hstart : int32 ((i : Int) * sectorSize) = (i : Int) * 128 :=
    int32_of_range (by simp only [sectorSize]; omega)
  intro a ha
  unfold preReadAccesses at ha
  split at ha
  · rw [List.mem_cons, hfirst, hbuffer, hoff, hstart] at ha
    rcases ha with rfl | ha
    · simp only [ArrayAccess.InBounds, sectorSize]
      omega
    · refine readAccesses_inBounds hw ⟨by omega, ?_⟩ a ha
      simp only [sectorSize]
      omega
  · cases ha

private theorem writeAccesses_inBounds (hw : f.hdr.WellFormed) (h : InRange numBytes position) :
    ∀ a ∈ f.writeAccesses numBytes position, a.InBounds := by
  intro a ha
  unfold writeAccesses at ha
  split at ha
  next => cases ha
  next hgo =>
    obtain ⟨p, rfl⟩ := Int.eq_ofNat_of_zero_le h.start
    obtain ⟨hnum, hpos⟩ := length_of_not_refused hgo
    obtain ⟨n, rfl⟩ := Int.eq_ofNat_of_zero_le (Int.le_of_lt hnum)
    have hfits := h.fits
    obtain ⟨first, last, hlocals, hle, hlt, -, -, hbuffer, hall⟩ :=
      transfer_inBounds hw n (by omega) hpos (by omega)
    have hfirst : (f.locals n p).firstSector = first := by rw [hlocals]
    have hlast : (f.locals n p).lastSector = last := by rw [hlocals]
    rcases List.mem_append.mp ha with ha | ha
    · rcases List.mem_append.mp ha with ha | ha
      · exact hall a ha
      · apply preReadAccesses_inBounds hw hfirst hbuffer (i := first) (by omega) (by omega) _ a
        rw [← hfirst]
        exact ha
    · apply preReadAccesses_inBounds hw hfirst hbuffer (i := last) (by omega) (by omega) _ a
      rw [← hlast]
      exact ha

/-! ## Requests that pass the check by mistake -/

private theorem round_mem {i : Nat} (hi : i < (f.locals numBytes position).numSectors.toNat) :
    ⟨f.hdr.numSectors.toInt, (int32 (((f.locals numBytes position).firstSector + i) *
      sectorSize)).tdiv sectorSize, 1⟩ ∈ f.transferAccesses numBytes position := by
  apply List.mem_append_right
  exact List.mem_flatMap.mpr ⟨i, List.mem_range.mpr hi, List.mem_cons_self⟩

/-- With a negative position the copy starts before the buffer, or the loop starts before the
table of data sectors. -/
private theorem transfer_negative (hlow : -2 ^ 31 ≤ position) (hneg : position < 0)
    (hpos : position < f.hdr.fileLength) (hnum : 0 < numBytes) (hhigh : numBytes < 2 ^ 31) :
    ∃ a ∈ f.transferAccesses numBytes position, ¬ a.InBounds := by
  have hlength : f.hdr.fileLength < 2 ^ 31 := BitVec.toInt_lt
  have hsum : int32 (position + numBytes) = position + numBytes := int32_of_range (by omega)
  have hclip : 0 < (f.locals numBytes position).numBytes ∧
      (f.locals numBytes position).numBytes ≤ numBytes := by
    simp only [locals, clip, hsum]
    split
    · rw [int32_of_range (by omega)]
      omega
    · omega
  have hfirst : (f.locals numBytes position).firstSector = position.tdiv 128 := rfl
  have hmod := Int.tmod_add_mul_tdiv position 128
  have hsign : position.tmod 128 ≤ 0 := by
    have hflip : 0 ≤ (-position).tmod 128 := Int.tmod_nonneg 128 (by omega)
    rw [Int.neg_tmod] at hflip
    omega
  by_cases hstart : position.tmod 128 = 0
  · -- the first sector is before sector 0
    have hend : int32 (position + (f.locals numBytes position).numBytes - 1) =
        position + (f.locals numBytes position).numBytes - 1 := int32_of_range (by omega)
    have hlast : (f.locals numBytes position).lastSector =
        (position + (f.locals numBytes position).numBytes - 1).tdiv 128 := by
      rw [← hend]
      rfl
    have hmono : position.tdiv 128 ≤
        (position + (f.locals numBytes position).numBytes - 1).tdiv 128 :=
      Int.tdiv_le_tdiv (by decide) (by omega)
    have hrounds : 0 < (f.locals numBytes position).numSectors.toNat := by
      have hdef : (f.locals numBytes position).numSectors =
          1 + (f.locals numBytes position).lastSector -
            (f.locals numBytes position).firstSector := rfl
      omega
    refine ⟨_, round_mem hrounds, ?_⟩
    have hindex : int32 ((position.tdiv 128 + (0 : Nat)) * sectorSize) = position := by
      rw [int32_of_range (by simp only [sectorSize]; omega)]
      simp only [sectorSize]
      omega
    rw [hfirst, hindex]
    have hbefore : position.tdiv sectorSize < 0 := by
      show position.tdiv 128 < 0
      omega
    exact fun hin => absurd hin.1 (Int.not_le.mpr hbefore)
  · refine ⟨⟨(f.locals numBytes position).bufferSize,
      position - (f.locals numBytes position).firstSector * sectorSize,
      (f.locals numBytes position).numBytes⟩, ?_, ?_⟩
    · apply List.mem_append_left
      exact List.mem_cons_of_mem _ List.mem_cons_self
    · intro hin
      have hnonneg := hin.1
      simp only [hfirst, sectorSize] at hnonneg
      omega

private theorem firstSector_natCast (f : OpenFile) (numBytes : Int) (p : Nat) :
    (f.locals numBytes p).firstSector = (p / 128 : Nat) :=
  divRoundDown_natCast p 128

/-- A request that starts in the file and whose end is no `int`. -/
private structure Overflow (f : OpenFile) (numBytes : Int) (p : Nat) : Prop where
  start : p < f.hdr.length
  short : f.hdr.length ≤ 3840
  high : numBytes < 2 ^ 31
  wraps : 2 ^ 31 ≤ p + numBytes

section Overflow

variable {p : Nat} (h : Overflow f numBytes p)

include h

private theorem Overflow.fileLength : f.hdr.fileLength = f.hdr.length := by
  have hstart := h.start
  simp only [FileHeader.length] at hstart ⊢
  omega

private theorem Overflow.not_refused : ¬ f.Refused numBytes p := by
  have hstart := h.start
  have hshort := h.short
  have hover := h.wraps
  rw [Refused, h.fileLength]
  omega

private theorem Overflow.end_eq : int32 (p + numBytes) = p + numBytes - 2 ^ 32 := by
  have hstart := h.start
  have hshort := h.short
  have hhigh := h.high
  exact int32_wrap h.wraps (by omega)

private theorem Overflow.numBytes_eq : (f.locals numBytes p).numBytes = numBytes := by
  have hstart := h.start
  have hshort := h.short
  have hhigh := h.high
  have hfile := h.fileLength
  exact clip_overflow (by omega) h.wraps (by omega)

private theorem Overflow.lastSector_eq :
    (f.locals numBytes p).lastSector = (int32 (p + numBytes - 1)).tdiv 128 :=
  congrArg (fun n => (int32 (p + n - 1)).tdiv 128) h.numBytes_eq

private theorem Overflow.reads_negative (hbeyond : 2 ^ 31 < p + numBytes) :
    ∃ a ∈ f.writeAccesses numBytes p, ¬ a.InBounds := by
  have hstart := h.start
  have hshort := h.short
  have hhigh := h.high
  have hlast := h.lastSector_eq
  have hwrap : int32 (p + numBytes - 1) = p + numBytes - 1 - 2 ^ 32 :=
    int32_wrap (by omega) (by omega)
  rw [hwrap] at hlast
  have hmod := Int.tmod_add_mul_tdiv (p + numBytes - 1 - 2 ^ 32) 128
  have hsign : -128 < (p + numBytes - 1 - 2 ^ 32).tmod 128 ∧
      (p + numBytes - 1 - 2 ^ 32).tmod 128 ≤ 0 :=
    ((Int.tdiv_tmod_unique' (by omega) (by decide)).mp ⟨rfl, rfl⟩).2
  generalize (p + numBytes - 1 - 2 ^ 32).tmod 128 = r at hmod hsign
  generalize (p + numBytes - 1 - 2 ^ 32).tdiv 128 = last at hmod hlast
  have hfile := h.fileLength
  obtain ⟨a, ha, hout⟩ : ∃ a ∈ f.transferAccesses sectorSize (last * 128), ¬ a.InBounds :=
    transfer_negative (by omega) (by omega) (by omega) (by decide) (by decide)
  refine ⟨a, ?_, hout⟩
  have hsector : int32 (last * sectorSize) = last * 128 :=
    int32_of_range (by simp only [sectorSize]; omega)
  have hread : a ∈ f.readAccesses sectorSize (int32 (last * sectorSize)) := by
    rw [hsector, readAccesses, if_neg]
    · exact ha
    · simp only [Refused, sectorSize]
      omega
  have hend : lastAligned numBytes p last = false := by
    rw [lastAligned, h.end_eq, int32_of_range (by simp only [sectorSize]; omega)]
    simp only [sectorSize, decide_eq_false_iff_not]
    omega
  have hne : (p / 128 : Nat) ≠ last := by omega
  rw [writeAccesses, if_neg h.not_refused]
  apply List.mem_append_right
  simp only [h.numBytes_eq, hlast, firstSector_natCast, hend, Bool.not_false,
    bne_iff_ne.mpr hne, Bool.true_or, Bool.and_self, preReadAccesses, if_true]
  exact List.mem_cons_of_mem _ hread

private theorem Overflow.past_table (hw : f.hdr.WellFormed) (hexact : p + numBytes = 2 ^ 31) :
    ∃ a ∈ f.writeAccesses numBytes p, ¬ a.InBounds := by
  have hmax : int32 (p + numBytes - 1) = 2 ^ 31 - 1 := by
    rw [int32_of_range (by omega), hexact]
  have hlast : (f.locals numBytes p).lastSector = 16777215 := by
    rw [h.lastSector_eq, hmax]
    rfl
  have hnum : (f.locals numBytes p).numSectors =
      1 + (f.locals numBytes p).lastSector - (f.locals numBytes p).firstSector := rfl
  have hcount := hw.count_le
  simp only [numDirect] at hcount
  have hin : p / 128 < f.hdr.count := sector_index_lt hw h.start
  -- the round for the sector after the last one
  have hround : f.hdr.count - p / 128 < (f.locals numBytes p).numSectors.toNat := by
    rw [hnum, hlast, firstSector_natCast]
    omega
  have hindex : int32 (((f.locals numBytes p).firstSector + (f.hdr.count - p / 128 : Nat)) *
      sectorSize) = (f.hdr.count : Int) * 128 := by
    rw [firstSector_natCast, int32_of_range (by simp only [sectorSize]; omega)]
    simp only [sectorSize]
    omega
  have hdiv : ((f.hdr.count : Int) * 128).tdiv (sectorSize : Nat) = f.hdr.count :=
    Int.mul_tdiv_cancel _ (by decide)
  have hsectors : (f.hdr.count : Int) = f.hdr.numSectors.toInt := by
    simp only [FileHeader.count] at hin ⊢
    omega
  have htransfer : ∀ a ∈ f.transferAccesses numBytes p, a ∈ f.writeAccesses numBytes p := by
    intro a ha
    rw [writeAccesses, if_neg h.not_refused]
    exact List.mem_append_left _ (List.mem_append_left _ ha)
  refine ⟨_, htransfer _ (round_mem hround), ?_⟩
  rw [hindex, hdiv]
  simp only [ArrayAccess.InBounds]
  omega

end Overflow

private theorem write_overflow (hw : f.hdr.WellFormed) (hstart : 0 ≤ position)
    (hpos : position < f.hdr.fileLength) (hhigh : numBytes < 2 ^ 31)
    (hover : 2 ^ 31 ≤ position + numBytes) :
    ∃ a ∈ f.writeAccesses numBytes position, ¬ a.InBounds := by
  have hlength := hw.length_le
  simp only [maxFileSize, numDirect, sectorSize] at hlength
  obtain ⟨p, rfl⟩ := Int.eq_ofNat_of_zero_le hstart
  have hin : p < f.hdr.length := by
    simp only [FileHeader.length]
    omega
  have h : Overflow f numBytes p := ⟨hin, hlength, hhigh, hover⟩
  rcases Int.lt_or_le (2 ^ 31) (p + numBytes) with hbeyond | hexact
  · exact h.reads_negative hbeyond
  · exact h.past_table hw (Int.le_antisymm hexact hover)

end OpenFile

/-- A request is safe exactly when it is refused or starts in the file and ends at an `int`. -/
theorem request_safe_iff {f : OpenFile} (hw : f.hdr.WellFormed) {numBytes position : Int}
    (hnum : numBytes < 2 ^ 31) (hpos : -2 ^ 31 ≤ position) :
    f.Safe numBytes position ↔
      numBytes ≤ 0 ∨ f.hdr.fileLength ≤ position ∨
        (0 ≤ position ∧ position + numBytes < 2 ^ 31) := by
  constructor
  · intro hsafe
    by_contra hcond
    rcases Int.lt_or_le position 0 with hneg | hstart
    · obtain ⟨a, ha, hout⟩ := OpenFile.transfer_negative (f := f) hpos hneg (by omega)
        (show 0 < numBytes by omega) hnum
      have hgo : ¬ f.Refused numBytes position := by
        simp only [OpenFile.Refused]
        omega
      apply hout
      apply hsafe.read
      rw [OpenFile.readAccesses, if_neg hgo]
      exact ha
    · obtain ⟨a, ha, hout⟩ := OpenFile.write_overflow hw hstart (by omega) hnum (by omega)
      exact hout (hsafe.write a ha)
  · intro hcond
    by_cases hgo : f.Refused numBytes position
    · constructor
      · rw [OpenFile.readAccesses, if_pos hgo]
        exact fun a ha => nomatch ha
      · rw [OpenFile.writeAccesses, if_pos hgo]
        exact fun a ha => nomatch ha
    · simp only [OpenFile.Refused] at hgo
      have hrange : OpenFile.InRange numBytes position := ⟨by omega, by omega⟩
      exact ⟨OpenFile.readAccesses_inBounds hw hrange, OpenFile.writeAccesses_inBounds hw hrange⟩

theorem request_safe_twoSectors : (⟨twoSectors, 0⟩ : OpenFile).Safe 3 127 :=
  (request_safe_iff wellFormed_twoSectors (by decide) (by decide)).mpr (.inr (.inr (by decide)))

/-- One byte at position -1 is copied from before the temporary buffer. -/
theorem not_request_safe_negative :
    ⟨128, -1, 1⟩ ∈ (⟨twoSectors, 0⟩ : OpenFile).readAccesses 1 (-1) ∧
      ¬ (⟨twoSectors, 0⟩ : OpenFile).Safe 1 (-1) := by
  have hmem : ⟨128, -1, 1⟩ ∈ (⟨twoSectors, 0⟩ : OpenFile).readAccesses 1 (-1) := by decide
  refine ⟨hmem, ?_⟩
  intro hsafe
  exact absurd (hsafe.read _ hmem).1 (by decide)

end Nachos

import Nachos.Framework.Int32
import Nachos.Filesys.FileHeader

/-!
# Open files

`ReadAt` and `WriteAt` move bytes between a buffer and the sectors of a file. The disk moves
whole sectors, so a request that covers part of a sector goes through a temporary buffer.
`none` stands for a failed ASSERT, for a temporary buffer of negative size and for an access
outside the buffer or the table of data sectors.
-/

namespace Nachos

open Framework

structure OpenFile where
  hdr : FileHeader
  seekPosition : Int

namespace OpenFile

/-- `OpenFile::OpenFile`. -/
def new (disk : Disk) (sector : Int) : Option OpenFile := do
  let hdr ← FileHeader.fetchFrom disk sector
  some { hdr := hdr, seekPosition := 0 }

/-- The first `n` rounds of the loop that reads sectors into a buffer. -/
def readSectors (hdr : FileHeader) (disk : Disk) (firstSector : Int) : Nat → Image → Option Image
  | 0, buf => some buf
  | n + 1, buf => do
    let buf ← readSectors hdr disk firstSector n buf
    let sector ← hdr.byteToSector ((firstSector + n) * sectorSize)
    let data ← disk.readSector sector
    some (buf.blit (n * sectorSize) data sectorSize)

/-- The first `n` rounds of the loop that writes a buffer to sectors. -/
def writeSectors (hdr : FileHeader) (disk : Disk) (firstSector : Int) (buf : Image) :
    Nat → Option Disk
  | 0 => some disk
  | n + 1 => do
    let disk ← writeSectors hdr disk firstSector buf n
    let sector ← hdr.byteToSector ((firstSector + n) * sectorSize)
    disk.writeSector sector fun a => buf (n * sectorSize + a)

def clip (fileLength numBytes position : Int) : Int :=
  if fileLength < int32 (position + numBytes) then int32 (fileLength - position) else numBytes

theorem clip_overflow {fileLength numBytes position : Int} (hlength : 0 ≤ fileLength)
    (hover : 2 ^ 31 ≤ position + numBytes) (hhigh : position + numBytes < 2 ^ 32) :
    clip fileLength numBytes position = numBytes := by
  rw [clip, int32_wrap hover hhigh]
  exact if_neg (by omega)

/-- `OpenFile::ReadAt` into the buffer that starts at offset `off` of `into`. The temporary
buffer is filled before it is copied from, so its first contents do not matter. -/
def readAt (f : OpenFile) (disk : Disk) (into : Image) (off : Nat) (numBytes position : Int) :
    Option (Int × Image) :=
  let fileLength := f.hdr.fileLength
  if numBytes ≤ 0 ∨ fileLength ≤ position then some (0, into)
  else
    let numBytes := clip fileLength numBytes position
    let firstSector := divRoundDown position sectorSize
    let lastSector := divRoundDown (int32 (position + numBytes - 1)) sectorSize
    let numSectors := 1 + lastSector - firstSector
    let start := position - firstSector * sectorSize
    if numSectors < 0 then none
    else do
      let buf ← readSectors f.hdr disk firstSector numSectors.toNat fun _ => 0
      if 0 ≤ start ∧ 0 ≤ numBytes ∧ start + numBytes ≤ numSectors * sectorSize then
        some (numBytes, into.blit off (fun i => buf (start.toNat + i)) numBytes.toNat)
      else none

/-- The read of a sector that `WriteAt` makes when the sector is `needed`. -/
def preRead (f : OpenFile) (disk : Disk) (buf : Image) (off : Nat) (sector : Int)
    (needed : Bool) : Option Image :=
  if needed then (f.readAt disk buf off sectorSize (sector * sectorSize)).map Prod.snd
  else some buf

def lastAligned (numBytes position lastSector : Int) : Bool :=
  int32 (position + numBytes) = int32 ((lastSector + 1) * sectorSize)

/-- `OpenFile::WriteAt` with a temporary buffer that first holds `fresh`. -/
def writeAt (f : OpenFile) (disk : Disk) (fresh source : Image) (numBytes position : Int) :
    Option (Int × Disk) :=
  let fileLength := f.hdr.fileLength
  if numBytes ≤ 0 ∨ fileLength ≤ position then some (0, disk)
  else
    let numBytes := clip fileLength numBytes position
    let firstSector := divRoundDown position sectorSize
    let lastSector := divRoundDown (int32 (position + numBytes - 1)) sectorSize
    let numSectors := 1 + lastSector - firstSector
    let start := position - firstSector * sectorSize
    let firstAligned : Bool := position = firstSector * sectorSize
    let lastAligned := lastAligned numBytes position lastSector
    if numSectors < 0 then none
    else do
      let buf ← f.preRead disk fresh 0 firstSector (!firstAligned)
      let buf ← f.preRead disk buf ((lastSector - firstSector) * sectorSize).toNat lastSector
        (!lastAligned && (firstSector != lastSector || firstAligned))
      if 0 ≤ start ∧ 0 ≤ numBytes ∧ start + numBytes ≤ numSectors * sectorSize then
        let buf := buf.blit start.toNat source numBytes.toNat
        let disk ← writeSectors f.hdr disk firstSector buf numSectors.toNat
        some (numBytes, disk)
      else none

/-- `OpenFile::Seek`. -/
def seek (f : OpenFile) (position : Int) : OpenFile := { f with seekPosition := position }

/-- `OpenFile::Read`. -/
def read (f : OpenFile) (disk : Disk) (into : Image) (numBytes : Int) :
    Option (Int × Image × OpenFile) := do
  let (result, into) ← f.readAt disk into 0 numBytes f.seekPosition
  some (result, into, { f with seekPosition := int32 (f.seekPosition + result) })

/-- `OpenFile::Write`. -/
def write (f : OpenFile) (disk : Disk) (fresh source : Image) (numBytes : Int) :
    Option (Int × Disk × OpenFile) := do
  let (result, disk) ← f.writeAt disk fresh source numBytes f.seekPosition
  some (result, disk, { f with seekPosition := int32 (f.seekPosition + result) })

/-! ## The bytes of a file -/

def content (disk : Disk) (hdr : FileHeader) : Image :=
  fun a => disk (hdr.sector (a / sectorSize)) (a % sectorSize)

def transferred (length numBytes position : Nat) : Nat := min numBytes (length - position)

theorem sector_index_lt {h : FileHeader} (hw : h.WellFormed) {a : Nat}
    (ha : a < h.length) : a / sectorSize < h.count := by
  rw [hw.count_eq]
  simp only [FileHeader.sectorsFor, sectorSize]
  omega

private theorem byteToSector_round {h : FileHeader} (hw : h.WellFormed) {first n : Nat}
    (hn : first + n < h.count) :
    h.byteToSector (((first : Int) + n) * sectorSize) = some (h.sector (first + n) : Int) := by
  rw [← hw.byteToSector_eq hn]
  push_cast
  rfl

private theorem readSectors_spec {h : FileHeader} (hw : h.WellFormed) (disk : Disk)
    (first n : Nat) (buf : Image) (hn : first + n ≤ h.count) :
    ∃ buf', readSectors h disk first n buf = some buf' ∧
      ∀ j < n * sectorSize, buf' j = content disk h (first * sectorSize + j) := by
  induction n with
  | zero =>
    refine ⟨buf, rfl, ?_⟩
    intro j hj
    omega
  | succ n ih =>
    obtain ⟨buf', hread, hbuf⟩ := ih (by omega)
    have hlt := hw.sector_lt _ (FileHeader.WellFormed.sector_mem (i := first + n) (by omega))
    refine ⟨buf'.blit (n * sectorSize) (disk (h.sector (first + n))) sectorSize, ?_, ?_⟩
    · simp only [readSectors, hread, Option.bind_eq_bind, Option.bind_some,
        byteToSector_round hw (show first + n < h.count by omega),
        Disk.readSector_eq disk hlt]
    · intro j hj
      simp only [sectorSize] at hj hbuf ⊢
      by_cases hold : j < n * 128
      · rw [Image.blit_of_notMem (.inl hold)]
        exact hbuf j hold
      · rw [Image.blit_of_mem (by omega) (by omega), content]
        have hdiv : (first * 128 + j) / 128 = first + n := by omega
        have hmod : (first * 128 + j) % 128 = j - n * 128 := by omega
        rw [hdiv, hmod]

private theorem writeSectors_spec {h : FileHeader} (hw : h.WellFormed) (disk : Disk)
    (first n : Nat) (buf : Image) (hn : first + n ≤ h.count) :
    ∃ disk', writeSectors h disk first buf n = some disk' ∧
      (∀ s ∉ h.sectors, disk' s = disk s) ∧
      ∀ a < h.length, content disk' h a =
        if first * sectorSize ≤ a ∧ a < (first + n) * sectorSize then buf (a - first * sectorSize)
        else content disk h a := by
  induction n with
  | zero =>
    refine ⟨disk, rfl, fun _ _ => rfl, ?_⟩
    intro a _
    simp only [sectorSize]
    rw [if_neg (by omega)]
  | succ n ih =>
    obtain ⟨disk', hwrite, hframe, hdata⟩ := ih (by omega)
    have hmem := FileHeader.WellFormed.sector_mem (h := h) (i := first + n) (by omega)
    have hlt := hw.sector_lt _ hmem
    refine ⟨disk'.written (h.sector (first + n)) fun a => buf (n * sectorSize + a), ?_, ?_, ?_⟩
    · simp only [writeSectors, hwrite, Option.bind_eq_bind, Option.bind_some,
        byteToSector_round hw (show first + n < h.count by omega),
        Disk.writeSector_eq _ _ hlt]
    · intro s hs
      have hne : s ≠ h.sector (first + n) := by
        rintro rfl
        exact hs hmem
      rw [Disk.written_of_ne _ hne]
      exact hframe s hs
    · intro a ha
      have hidx := sector_index_lt hw ha
      by_cases hsec : a / sectorSize = first + n
      · have hag := Disk.written_agreeTo disk' (h.sector (first + n))
          (fun a => buf (n * sectorSize + a)) (a % sectorSize) (Nat.mod_lt _ (by decide))
        rw [content, hsec, hag]
        simp only [sectorSize] at hsec ⊢
        rw [if_pos (by omega)]
        exact congrArg buf (by omega)
      · have hne : h.sector (a / sectorSize) ≠ h.sector (first + n) := by
          intro heq
          exact hsec (hw.sector_inj hidx (by omega) heq)
        have hkeep := hdata a ha
        rw [content] at hkeep
        rw [content, Disk.written_of_ne _ hne, hkeep]
        simp only [sectorSize] at hsec ⊢
        by_cases hin : first * 128 ≤ a ∧ a < (first + n) * 128
        · rw [if_pos hin, if_pos (by omega)]
        · rw [if_neg hin, if_neg (by omega)]

/-! ## Requests inside the range of the integers -/

/-- A request that moves `n` bytes of the sectors `first` to `last`. -/
structure Span (h : FileHeader) (numBytes position n first last : Nat) : Prop where
  moves : ¬ ((numBytes : Int) ≤ 0 ∨ (h.length : Int) ≤ position)
  clip_eq : clip h.length numBytes position = n
  first_eq : divRoundDown position sectorSize = (first : Int)
  last_eq : divRoundDown (int32 ((position : Int) + n - 1)) sectorSize = (last : Int)
  end_eq : int32 ((position : Int) + n) = (position + n : Nat)
  size : 0 < n ∧ position + n ≤ h.length
  first_le : first * 128 ≤ position ∧ position < first * 128 + 128
  last_le : last * 128 ≤ position + n - 1 ∧ position + n - 1 < last * 128 + 128
  last_lt : last < h.count

theorem span_of_request {h : FileHeader} (hw : h.WellFormed) {numBytes position : Nat}
    (hnum : 0 < numBytes) (hpos : position < h.length) (hfit : position + numBytes < 2 ^ 31) :
    ∃ first last, Span h numBytes position (transferred h.length numBytes position) first last := by
  have hsum : int32 ((position : Int) + numBytes) = (position + numBytes : Nat) := by
    rw [← int32_natCast hfit]
    push_cast
    rfl
  have hdiff : int32 ((h.length : Int) - position) = (h.length - position : Nat) := by
    have hlen := hw.length_le
    simp only [maxFileSize, numDirect, sectorSize] at hlen
    rw [← int32_natCast (show h.length - position < 2 ^ 31 by omega), Int.ofNat_sub (by omega)]
  have hclip : clip h.length numBytes position = transferred h.length numBytes position := by
    rw [clip, hsum, hdiff]
    simp only [transferred]
    split
    next h => omega
    next h => omega
  have hsize : 0 < transferred h.length numBytes position ∧
      transferred h.length numBytes position ≤ numBytes ∧
      position + transferred h.length numBytes position ≤ h.length := by
    simp only [transferred]
    omega
  generalize transferred h.length numBytes position = n at *
  have hlast : int32 ((position : Int) + n - 1) = (position + n - 1 : Nat) := by
    rw [← int32_natCast (show position + n - 1 < 2 ^ 31 by omega)]
    congr 1
    omega
  refine ⟨position / sectorSize, (position + n - 1) / sectorSize, ?_⟩
  constructor
  case moves => omega
  case clip_eq => exact hclip
  case first_eq => exact divRoundDown_natCast position sectorSize
  case last_eq =>
    rw [hlast]
    exact divRoundDown_natCast _ sectorSize
  case end_eq =>
    rw [← int32_natCast (show position + n < 2 ^ 31 by omega)]
    push_cast
    rfl
  case size => omega
  case first_le =>
    simp only [sectorSize]
    omega
  case last_le =>
    simp only [sectorSize]
    omega
  case last_lt => exact sector_index_lt hw (by omega)

section Span

variable {h : FileHeader} {numBytes position n first last : Nat}

private theorem Span.lastAligned_eq (hs : Span h numBytes position n first last)
    (hw : h.WellFormed) :
    lastAligned n position last =
      decide (((position + n : Nat) : Int) = ((last : Int) + 1) * sectorSize) := by
  have hlast := hs.last_le
  have hsize := hs.size
  have hlen := hw.length_le
  have hend : int32 (((last : Int) + 1) * sectorSize) = ((last : Int) + 1) * sectorSize := by
    apply int32_of_range
    simp only [maxFileSize, numDirect, sectorSize] at *
    omega
  rw [lastAligned, hs.end_eq, hend]

private theorem Span.count (hs : Span h numBytes position n first last) :
    ¬ 1 + (last : Int) - first < 0 ∧ (1 + (last : Int) - first).toNat = last - first + 1 := by
  have h₁ := hs.first_le
  have h₂ := hs.last_le
  have h₃ := hs.size
  omega

private theorem Span.start (hs : Span h numBytes position n first last) :
    ((position : Int) - first * sectorSize).toNat = position - first * 128 := by
  have h₁ := hs.first_le
  simp only [sectorSize]
  omega

private theorem Span.bound (hs : Span h numBytes position n first last) :
    0 ≤ (position : Int) - first * sectorSize ∧ 0 ≤ (n : Int) ∧
      (position : Int) - first * sectorSize + n ≤ (1 + (last : Int) - first) * sectorSize := by
  have h₁ := hs.first_le
  have h₂ := hs.last_le
  simp only [sectorSize]
  omega

private theorem Span.sectors_le (hs : Span h numBytes position n first last) :
    first ≤ last ∧ first + (last - first + 1) ≤ h.count := by
  have h₁ := hs.first_le
  have h₂ := hs.last_le
  have h₃ := hs.size
  have h₄ := hs.last_lt
  omega

end Span

private theorem transferred_eq_zero {length numBytes position : Nat}
    (h : numBytes = 0 ∨ length ≤ position) : transferred length numBytes position = 0 := by
  simp only [transferred]
  omega

/-- `ReadAt` copies the bytes of the file from the position on, up to its end. -/
theorem readAt_eq {f : OpenFile} (hw : f.hdr.WellFormed) (disk : Disk) (into : Image)
    (off numBytes position : Nat) (hfit : position + numBytes < 2 ^ 31) :
    f.readAt disk into off numBytes position =
      some (↑(transferred f.hdr.length numBytes position),
        into.blit off (fun i => content disk f.hdr (position + i))
          (transferred f.hdr.length numBytes position)) := by
  by_cases hnone : numBytes = 0 ∨ f.hdr.length ≤ position
  · have hcond : (numBytes : Int) ≤ 0 ∨ f.hdr.fileLength ≤ position := by
      simp only [FileHeader.length] at hnone
      omega
    have hblit : into.blit off (fun i => content disk f.hdr (position + i)) 0 = into := by
      funext a
      exact Image.blit_of_notMem (by omega)
    simp only [readAt, hcond, if_true, transferred_eq_zero hnone, hblit]
    rfl
  · obtain ⟨first, last, hs⟩ := span_of_request hw (show 0 < numBytes by omega)
      (show position < f.hdr.length by omega) hfit
    have hlength : f.hdr.fileLength = f.hdr.length := by
      simp only [FileHeader.length] at hnone ⊢
      omega
    generalize transferred f.hdr.length numBytes position = n at *
    obtain ⟨buf, hread, hbuf⟩ := readSectors_spec hw disk first (last - first + 1) (fun _ => 0)
      hs.sectors_le.2
    simp only [readAt, hlength, hs.moves, if_false, hs.clip_eq, hs.last_eq, hs.first_eq,
      hs.count, hread, Option.bind_eq_bind, Option.bind_some, hs.bound, and_self, if_true,
      hs.start, Int.toNat_natCast]
    have h₁ := hs.first_le
    have h₂ := hs.last_le
    have h₃ := hs.size
    congr 2
    funext a
    simp only [Image.blit]
    split
    next hin =>
      rw [hbuf _ (by simp only [sectorSize]; omega)]
      simp only [sectorSize]
      exact congrArg _ (by omega)
    next => rfl

private theorem preRead_spec {f : OpenFile} (hw : f.hdr.WellFormed) (disk : Disk) (buf : Image)
    (off : Nat) {i : Nat} (hi : i < f.hdr.count) (needed : Bool) :
    ∃ buf', f.preRead disk buf off i needed = some buf' ∧
      (needed = true → ∀ j < 128, i * 128 + j < f.hdr.length →
        buf' (off + j) = content disk f.hdr (i * 128 + j)) ∧
      (∀ a, needed = false ∨ a < off → buf' a = buf a) := by
  cases needed with
  | false =>
    refine ⟨buf, rfl, ?_, fun _ _ => rfl⟩
    intro hf
    cases hf
  | true =>
    have hfit : i * sectorSize + sectorSize < 2 ^ 31 := by
      have hle := hw.count_le
      simp only [numDirect, sectorSize] at *
      omega
    have hcast : (i : Int) * sectorSize = (i * sectorSize : Nat) := by push_cast; rfl
    have hread := readAt_eq hw disk buf off sectorSize (i * sectorSize) hfit
    rw [← hcast] at hread
    refine ⟨buf.blit off (fun j => content disk f.hdr (i * sectorSize + j))
      (transferred f.hdr.length sectorSize (i * sectorSize)), ?_, ?_, ?_⟩
    · rw [preRead, if_pos rfl, hread, Option.map_some]
    · intro _ j hj hlt
      simp only [sectorSize, transferred]
      rw [Image.blit_of_mem (by omega) (by omega), Nat.add_sub_cancel_left]
    · intro a ha
      rcases ha with ha | ha
      · cases ha
      · exact Image.blit_of_notMem (.inl ha)

/-- What a write through a file does to the disk: the bytes it covers are replaced, the other
bytes of the file and the sectors outside it stay. -/
structure Written (hdr : FileHeader) (source : Image) (numBytes position : Nat)
    (disk disk' : Disk) : Prop where
  frame : ∀ s ∉ hdr.sectors, disk' s = disk s
  data : ∀ a < hdr.length, content disk' hdr a =
    if position ≤ a ∧ a < position + numBytes then source (a - position) else content disk hdr a

/-- `WriteAt` replaces the bytes from the position on, up to the end of the file. -/
theorem writeAt_spec {f : OpenFile} (hw : f.hdr.WellFormed) (disk : Disk) (fresh source : Image)
    (numBytes position : Nat) (hfit : position + numBytes < 2 ^ 31) :
    ∃ disk', f.writeAt disk fresh source numBytes position =
        some (↑(transferred f.hdr.length numBytes position), disk') ∧
      Written f.hdr source (transferred f.hdr.length numBytes position) position disk disk' := by
  by_cases hnone : numBytes = 0 ∨ f.hdr.length ≤ position
  · have hcond : (numBytes : Int) ≤ 0 ∨ f.hdr.fileLength ≤ position := by
      simp only [FileHeader.length] at hnone
      omega
    refine ⟨disk, ?_, fun _ _ => rfl, ?_⟩
    · simp only [writeAt, hcond, if_true, transferred_eq_zero hnone]
      rfl
    · intro a _
      rw [transferred_eq_zero hnone, if_neg (by omega)]
  · obtain ⟨first, last, hs⟩ := span_of_request hw (show 0 < numBytes by omega)
      (show position < f.hdr.length by omega) hfit
    have hlength : f.hdr.fileLength = f.hdr.length := by
      simp only [FileHeader.length] at hnone ⊢
      omega
    generalize transferred f.hdr.length numBytes position = n at *
    have hle := hs.sectors_le
    have h₁ := hs.first_le
    have h₂ := hs.last_le
    have h₃ := hs.size
    have hoff : (((last : Int) - first) * sectorSize).toNat = (last - first) * 128 := by
      simp only [sectorSize]
      omega
    -- the sectors that are written in part are read first
    obtain ⟨buf₁, hread₁, hpre₁, -⟩ := preRead_spec hw disk fresh 0 (i := first) (by omega)
      (!decide ((position : Int) = first * sectorSize))
    obtain ⟨buf₂, hread₂, hpre₂, hkeep⟩ := preRead_spec hw disk buf₁ ((last - first) * 128)
      hs.last_lt (!lastAligned n position last &&
        ((first : Int) != last || decide ((position : Int) = first * sectorSize)))
    obtain ⟨disk', hwrite, hframe, hdata⟩ := writeSectors_spec hw disk first (last - first + 1)
      (buf₂.blit (position - first * 128) source n) hle.2
    refine ⟨disk', ?_, hframe, ?_⟩
    · simp only [writeAt, hlength, hs.moves, if_false, hs.clip_eq, hs.last_eq,
        hs.first_eq, hs.count, hread₁, Option.bind_eq_bind, Option.bind_some, hoff, hread₂,
        hs.bound, and_self, if_true, hs.start, Int.toNat_natCast, hwrite]
    · intro a ha
      rw [hdata a ha]
      simp only [hs.lastAligned_eq hw, sectorSize, Bool.not_eq_true', decide_eq_false_iff_not,
        Bool.and_eq_true, Bool.and_eq_false_iff, Bool.or_eq_true, Bool.or_eq_false_iff,
        decide_eq_true_eq, bne_iff_ne, bne_eq_false_iff_eq, Bool.not_eq_false'] at *
      by_cases hin : position ≤ a ∧ a < position + n
      · rw [if_pos hin, if_pos (by omega), Image.blit_of_mem (by omega) (by omega)]
        exact congrArg source (by omega)
      · rw [if_neg hin]
        by_cases hspan : first * 128 ≤ a ∧ a < (first + (last - first + 1)) * 128
        · rw [if_pos hspan, Image.blit_of_notMem (by omega)]
          -- a kept byte is before the first or after the last byte that is replaced
          have hfirst : first * 128 + (a - first * 128) = a := by omega
          by_cases hread : ¬ ((position + n : Nat) : Int) = ((last : Int) + 1) * 128 ∧
              ((first : Int) ≠ last ∨ (position : Int) = first * 128) ∧ last * 128 ≤ a
          · have hlast : last * 128 + (a - last * 128) = a := by omega
            have := hpre₂ ⟨hread.1, hread.2.1⟩ (a - last * 128) (by omega) (by omega)
            rw [hlast] at this
            rw [← this]
            exact congrArg buf₂ (by omega)
          · have := hpre₁ (by omega) (a - first * 128) (by omega) (by omega)
            rw [hfirst] at this
            rw [hkeep _ (by omega), ← this, Nat.zero_add]
        · rw [if_neg hspan]

end OpenFile
end Nachos

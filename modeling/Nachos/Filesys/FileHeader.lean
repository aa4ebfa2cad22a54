import Nachos.Lib.Bitmap
import Mathlib.Data.List.Nodup
import Mathlib.Algebra.Group.Int.Defs
import Mathlib.Algebra.Group.Nat.Defs

/-!
# The disk and file headers

A file header fills one sector: the length of the file in bytes, the number of its data
sectors, and a table of the data sectors. It goes to and from the disk as its bytes. `none`
stands for a failed ASSERT and for an index outside the table.
-/

namespace Nachos

open Framework

abbrev sectorSize : Nat := 128

abbrev Disk := Nat → Image

namespace Disk

abbrev numSectors : Nat := 1024

/-- `SynchDisk::ReadSector`, with the bounds check of `Disk::ReadRequest`. -/
def readSector (disk : Disk) (sectorNumber : Int) : Option Image :=
  if 0 ≤ sectorNumber ∧ sectorNumber < numSectors then some (disk sectorNumber.toNat) else none

/-- `SynchDisk::WriteSector`. -/
def writeSector (disk : Disk) (sectorNumber : Int) (data : Image) : Option Disk :=
  if 0 ≤ sectorNumber ∧ sectorNumber < numSectors then
    some (Function.update disk sectorNumber.toNat
      ((disk sectorNumber.toNat).blit 0 data sectorSize))
  else none

/-- The disk after a successful `WriteSector`. -/
def written (disk : Disk) (s : Nat) (data : Image) : Disk :=
  Function.update disk s ((disk s).blit 0 data sectorSize)

theorem readSector_eq (disk : Disk) {s : Nat} (h : s < numSectors) :
    disk.readSector s = some (disk s) := by
  have hcond : (0 : Int) ≤ s ∧ (s : Int) < numSectors := by omega
  simp only [readSector, hcond, and_self, if_true, Int.toNat_natCast]

theorem writeSector_eq (disk : Disk) (data : Image) {s : Nat} (h : s < numSectors) :
    disk.writeSector s data = some (disk.written s data) := by
  have hcond : (0 : Int) ≤ s ∧ (s : Int) < numSectors := by omega
  simp only [writeSector, hcond, and_self, if_true, Int.toNat_natCast, written]

theorem written_of_ne {disk : Disk} {s t : Nat} (data : Image) (h : t ≠ s) :
    disk.written s data t = disk t := by
  simp [written, h]

theorem written_agreeTo (disk : Disk) (s : Nat) (data : Image) :
    Image.AgreeTo sectorSize (disk.written s data s) data := by
  rw [written, Function.update_self]
  exact Image.blit_zero_agreeTo _ _ _

end Disk

abbrev numDirect : Nat := 30

abbrev maxFileSize : Nat := numDirect * sectorSize

structure FileHeader where
  image : Image

namespace FileHeader

def numBytes (h : FileHeader) : BitVec 32 := h.image.word 0

def numSectors (h : FileHeader) : BitVec 32 := h.image.word 1

/-- `dataSectors[i]`. An index outside the table is an access outside the array, also where it
meets the word in front of it. -/
def dataSectors (h : FileHeader) (i : Int) : Option (BitVec 32) :=
  if 0 ≤ i ∧ i < numDirect then some (h.image.word (i.toNat + 2)) else none

/-- Stores into `dataSectors[i]`. -/
def setDataSector (h : FileHeader) (i : Nat) (sector : Int) : Option FileHeader :=
  if i < numDirect then some ⟨h.image.setWord (i + 2) (BitVec.ofInt 32 sector)⟩ else none

/-- The first `n` rounds of the loop of `Allocate`. -/
def allocateLoop (h : FileHeader) (freeMap : Bitmap) : Nat → Option (FileHeader × Bitmap)
  | 0 => some (h, freeMap)
  | n + 1 => do
    let (h, freeMap) ← h.allocateLoop freeMap n
    let (sector, freeMap) ← freeMap.findAndSet
    let h ← h.setDataSector n sector
    if 0 ≤ sector then some (h, freeMap) else none

/-- `FileHeader::Allocate`. -/
def allocate (h : FileHeader) (freeMap : Bitmap) (fileSize : Int) :
    Option (Bool × FileHeader × Bitmap) := do
  let numSectors := divRoundUp fileSize sectorSize
  let h : FileHeader :=
    ⟨(h.image.setWord 0 (BitVec.ofInt 32 fileSize)).setWord 1 (BitVec.ofInt 32 numSectors)⟩
  let numClear ← freeMap.numClear
  if numClear < numSectors then some (false, h, freeMap)
  else
    let (h, freeMap) ← h.allocateLoop freeMap numSectors.toNat
    some (true, h, freeMap)

/-- The first `n` rounds of the loop of `Deallocate`. -/
def deallocateLoop (h : FileHeader) (freeMap : Bitmap) : Nat → Option Bitmap
  | 0 => some freeMap
  | n + 1 => do
    let freeMap ← h.deallocateLoop freeMap n
    let sector ← h.dataSectors n
    if ← freeMap.test sector.toInt then freeMap.clear sector.toInt else none

/-- `FileHeader::Deallocate`. -/
def deallocate (h : FileHeader) (freeMap : Bitmap) : Option Bitmap :=
  h.deallocateLoop freeMap h.numSectors.toInt.toNat

/-- `FileHeader::FetchFrom`. -/
def fetchFrom (disk : Disk) (sector : Int) : Option FileHeader :=
  (disk.readSector sector).map FileHeader.mk

/-- `FileHeader::WriteBack`. -/
def writeBack (h : FileHeader) (disk : Disk) (sector : Int) : Option Disk :=
  disk.writeSector sector h.image

/-- `FileHeader::ByteToSector`. -/
def byteToSector (h : FileHeader) (offset : Int) : Option Int :=
  (h.dataSectors (offset.tdiv sectorSize)).map BitVec.toInt

/-- `FileHeader::FileLength`. -/
def fileLength (h : FileHeader) : Int := h.numBytes.toInt

/-! ## Well-formed headers -/

/-- The length of the file. A file of negative size has no bytes. -/
def length (h : FileHeader) : Nat := h.fileLength.toNat

def count (h : FileHeader) : Nat := h.numSectors.toInt.toNat

/-- The `i`-th data sector. -/
def sector (h : FileHeader) (i : Nat) : Nat := (h.image.word (i + 2)).toNat

/-- The first `n` data sectors. -/
def firstSectors (h : FileHeader) (n : Nat) : List Nat := (List.range n).map h.sector

def sectors (h : FileHeader) : List Nat := h.firstSectors h.count

def sectorsFor (length : Nat) : Nat := (length + sectorSize - 1) / sectorSize

structure WellFormed (h : FileHeader) : Prop where
  length_le : h.length ≤ maxFileSize
  count_eq : h.count = sectorsFor h.length
  sector_lt : ∀ s ∈ h.sectors, s < Disk.numSectors
  nodup : h.sectors.Nodup

private theorem firstSectors_succ (h : FileHeader) (n : Nat) :
    h.firstSectors (n + 1) = h.firstSectors n ++ [h.sector n] := by
  simp [firstSectors, List.range_succ]

private theorem mem_firstSectors {h : FileHeader} {n s : Nat} :
    s ∈ h.firstSectors n ↔ ∃ i < n, h.sector i = s := by
  simp [firstSectors]

private theorem dataSectors_eq (h : FileHeader) {i : Nat} (hi : i < numDirect) :
    h.dataSectors i = some (h.image.word (i + 2)) := by
  have hcond : (0 : Int) ≤ i ∧ (i : Int) < numDirect := by omega
  simp only [dataSectors, hcond, and_self, if_true, Int.toNat_natCast]

private theorem toInt_of_lt {w : BitVec 32} (h : w.toNat < 2 ^ 31) : w.toInt = w.toNat := by
  have hlt : 2 * w.toNat < 2 ^ 32 := by omega
  rw [BitVec.toInt_eq_toNat_cond, if_pos hlt]

theorem congr {h h' : FileHeader} (hag : Image.AgreeTo sectorSize h.image h'.image) :
    h.numBytes = h'.numBytes ∧ h.numSectors = h'.numSectors ∧
      ∀ i < numDirect, h.sector i = h'.sector i := by
  refine ⟨hag.word (by decide), hag.word (by decide), ?_⟩
  intro i hi
  have hbound : 4 * (i + 2) + 4 ≤ sectorSize := by
    show 4 * (i + 2) + 4 ≤ 128
    have : i < 30 := hi
    omega
  exact congrArg BitVec.toNat (hag.word hbound)

private theorem firstSectors_congr {h h' : FileHeader} {n : Nat}
    (hsec : ∀ i < n, h.sector i = h'.sector i) : h.firstSectors n = h'.firstSectors n := by
  apply List.map_congr_left
  intro i hi
  exact hsec i (List.mem_range.mp hi)

namespace WellFormed

variable {h h' : FileHeader}

theorem count_le (hw : h.WellFormed) : h.count ≤ numDirect := by
  have hle := hw.length_le
  rw [hw.count_eq]
  simp only [sectorsFor, maxFileSize, numDirect, sectorSize] at *
  omega

theorem sector_mem {i : Nat} (hi : i < h.count) : h.sector i ∈ h.sectors :=
  mem_firstSectors.mpr ⟨i, hi, rfl⟩

theorem sector_toInt (hw : h.WellFormed) {i : Nat} (hi : i < h.count) :
    (h.image.word (i + 2)).toInt = h.sector i := by
  apply toInt_of_lt
  have hlt := hw.sector_lt _ (sector_mem hi)
  simp only [sector, Disk.numSectors] at *
  omega

theorem sector_inj (hw : h.WellFormed) {i j : Nat} (hi : i < h.count)
    (hj : j < h.count) (heq : h.sector i = h.sector j) : i = j := by
  exact List.inj_on_of_nodup_map hw.nodup (List.mem_range.mpr hi) (List.mem_range.mpr hj) heq

theorem byteToSector_eq (hw : h.WellFormed) {i : Nat} (hi : i < h.count) :
    h.byteToSector (i * sectorSize : Nat) = some (h.sector i : Int) := by
  have hdiv : ((i * sectorSize : Nat) : Int).tdiv sectorSize = i := by
    have := divRoundDown_natCast (i * sectorSize) sectorSize
    rw [Nat.mul_div_cancel i (by decide)] at this
    exact this
  have hdirect : i < numDirect := by
    have := hw.count_le
    omega
  rw [byteToSector, hdiv, dataSectors_eq h hdirect, Option.map_some, hw.sector_toInt hi]

theorem congr (hw : h.WellFormed) (hag : Image.AgreeTo sectorSize h'.image h.image) :
    h'.WellFormed ∧ h'.length = h.length ∧ h'.sectors = h.sectors := by
  obtain ⟨hbytes, hnum, hsec⟩ := FileHeader.congr hag
  have hlen : h'.length = h.length := congrArg (fun w : BitVec 32 => w.toInt.toNat) hbytes
  have hcount : h'.count = h.count := congrArg (fun w : BitVec 32 => w.toInt.toNat) hnum
  have hsectors : h'.sectors = h.sectors := by
    rw [sectors, sectors, hcount]
    apply firstSectors_congr
    intro i hi
    exact hsec i (Nat.lt_of_lt_of_le hi hw.count_le)
  refine ⟨⟨?_, ?_, ?_, ?_⟩, hlen, hsectors⟩
  · rw [hlen]
    exact hw.length_le
  · rw [hlen, hcount]
    exact hw.count_eq
  · rw [hsectors]
    exact hw.sector_lt
  · rw [hsectors]
    exact hw.nodup

end WellFormed

/-! ## Allocating and deallocating -/

private theorem setDataSector_sector (h : FileHeader) (n s i : Nat) (hs : s < 2 ^ 32) :
    sector ⟨h.image.setWord (n + 2) (BitVec.ofInt 32 s)⟩ i = if i = n then s else h.sector i := by
  have hcast : (BitVec.ofInt 32 s).toNat = s := by
    rw [BitVec.ofInt_natCast, BitVec.toNat_ofNat, Nat.mod_eq_of_lt hs]
  simp only [sector, Image.word_setWord, Nat.add_right_cancel_iff]
  split
  next => exact hcast
  next => rfl

/-- The sectors of a list were the lowest clear ones in `b` and are marked in `b'`. -/
structure Allocated (b : Bitmap) (l : List Nat) (b' : Bitmap) : Prop where
  numBits : b'.numBits = b.numBits
  nodup : l.Nodup
  lt : ∀ s ∈ l, s < b.numBits
  clear : ∀ s ∈ l, b.bit s = false
  lowest : ∀ s ∈ l, ∀ k < s, b.bit k = true ∨ k ∈ l
  bit : ∀ k, b'.bit k = (b.bit k || decide (k ∈ l))
  clearCount : b'.clearCount + l.length = b.clearCount

@[simp] theorem firstSectors_length (h : FileHeader) (n : Nat) : (h.firstSectors n).length = n := by
  simp [firstSectors]

private theorem allocateLoop_spec (h : FileHeader) {b : Bitmap} (hb : b.numBits = Disk.numSectors)
    (n : Nat) (hn : n ≤ numDirect) (hroom : n ≤ b.clearCount) :
    ∃ h' b', h.allocateLoop b n = some (h', b') ∧ h'.numBytes = h.numBytes ∧
      h'.numSectors = h.numSectors ∧ Allocated b (h'.firstSectors n) b' := by
  induction n with
  | zero =>
    refine ⟨h, b, rfl, rfl, rfl, rfl, List.nodup_nil, ?_, ?_, ?_, ?_, rfl⟩
    · intro s hs
      simp [firstSectors] at hs
    · intro s hs
      simp [firstSectors] at hs
    · intro s hs
      simp [firstSectors] at hs
    · simp [firstSectors]
  | succ n ih =>
    obtain ⟨h₁, b₁, hloop, hbytes, hnum, hal⟩ := ih (by omega) (by omega)
    have hcount := hal.clearCount
    rw [firstSectors_length] at hcount
    obtain ⟨s, hs, hclear, hleast, hfind⟩ := Bitmap.findAndSet_of_clearCount (b := b₁) (by omega)
    have hs' : s < b.numBits := hal.numBits ▸ hs
    have hs32 : s < 2 ^ 32 := by
      rw [hb] at hs'
      simp only [Disk.numSectors] at hs'
      omega
    let h₂ : FileHeader := ⟨h₁.image.setWord (n + 2) (BitVec.ofInt 32 s)⟩
    have hset : h₁.setDataSector n s = some h₂ := by
      have hlt : n < numDirect := hn
      simp [setDataSector, hlt, h₂]
    have hold : h₂.firstSectors n = h₁.firstSectors n := by
      apply firstSectors_congr
      intro i hi
      have hne : i ≠ n := by omega
      rw [setDataSector_sector h₁ n s i hs32, if_neg hne]
    have hnew : h₂.firstSectors (n + 1) = h₁.firstSectors n ++ [s] := by
      rw [firstSectors_succ, hold, setDataSector_sector h₁ n s n hs32, if_pos rfl]
    -- the sector was clear after the earlier rounds, so it is none of theirs
    have hfresh : b.bit s = false ∧ s ∉ h₁.firstSectors n := by
      have := hal.bit s
      rw [hclear] at this
      simpa using this.symm
    refine ⟨h₂, b₁.marked s, ?_, ?_, ?_, ?_⟩
    · simp [allocateLoop, hloop, hfind, hset]
    · rw [← hbytes]
      exact Image.word_setWord_of_ne _ (by omega)
    · rw [← hnum]
      exact Image.word_setWord_of_ne _ (by omega)
    · constructor
      case numBits => exact hal.numBits
      case nodup =>
        rw [hnew]
        apply hal.nodup.append (List.nodup_singleton s)
        simpa using hfresh.2
      case lt =>
        intro t ht
        rw [hnew, List.mem_append, List.mem_singleton] at ht
        rcases ht with ht | rfl
        · exact hal.lt t ht
        · exact hs'
      case clear =>
        intro t ht
        rw [hnew, List.mem_append, List.mem_singleton] at ht
        rcases ht with ht | rfl
        · exact hal.clear t ht
        · exact hfresh.1
      case lowest =>
        intro t ht k hk
        rw [hnew, List.mem_append, List.mem_singleton] at ht ⊢
        rcases ht with ht | rfl
        · exact (hal.lowest t ht k hk).imp_right .inl
        · have hset := hleast k hk
          rw [hal.bit, Bool.or_eq_true, decide_eq_true_eq] at hset
          exact hset.imp_right .inl
      case bit =>
        intro k
        rw [Bitmap.bit_marked, hal.bit, hnew, Bool.or_assoc]
        simp
      case clearCount =>
        have := Bitmap.clearCount_marked hs hclear
        rw [firstSectors_length]
        omega

private theorem divRoundUp_sectorSize (size : Int) :
    (divRoundUp size sectorSize).toNat = sectorsFor size.toNat ∧
      (0 ≤ size → divRoundUp size sectorSize = sectorsFor size.toNat) ∧
      (size < 0 → size ≤ divRoundUp size sectorSize ∧ divRoundUp size sectorSize ≤ 0) := by
  rcases Int.lt_or_le size 0 with hneg | hpos
  · have hdiv : size.tdiv sectorSize = -((-size) / 128) := by
      rw [← Int.neg_neg size, Int.neg_tdiv, Int.neg_neg, Int.tdiv_eq_ediv_of_nonneg (by omega)]
      rfl
    have hmod : ¬ 0 < size.tmod sectorSize := by
      have hnonneg := Int.tmod_nonneg (sectorSize : Int) (show 0 ≤ -size by omega)
      rw [Int.neg_tmod] at hnonneg
      omega
    rw [divRoundUp, if_neg hmod, hdiv]
    simp only [sectorsFor, sectorSize]
    omega
  · obtain ⟨n, rfl⟩ := Int.eq_ofNat_of_zero_le hpos
    have hdiv : divRoundUp n sectorSize = (sectorsFor n : Nat) :=
      divRoundUp_natCast n sectorSize (by decide)
    rw [hdiv]
    simp only [Int.toNat_natCast, true_and, implies_true]
    omega

/-- The division truncates, so a size above `-SectorSize` needs no sector. -/
theorem divRoundUp_nonneg_iff (size : Int) : 0 ≤ divRoundUp size sectorSize ↔ -128 < size := by
  obtain ⟨-, hpos, -⟩ := divRoundUp_sectorSize size
  rcases Int.lt_or_le size 0 with hneg | hge
  · have hmod := Int.tmod_add_mul_tdiv size sectorSize
    obtain ⟨hlow, hhigh⟩ : -(sectorSize : Int) < size.tmod sectorSize ∧
        size.tmod sectorSize ≤ 0 :=
      ((Int.tdiv_tmod_unique' (by omega) (by decide)).mp ⟨rfl, rfl⟩).2
    rw [divRoundUp, if_neg (by omega)]
    simp only [sectorSize] at *
    omega
  · rw [hpos hge]
    omega

/-- Without room for the file `Allocate` fails and takes nothing. -/
theorem allocate_full (h : FileHeader) {b : Bitmap} {size : Int}
    (hroom : b.clearCount < sectorsFor size.toNat) :
    ∃ h', h.allocate b size = some (false, h', b) := by
  have hsize : 0 ≤ size := by
    by_contra hneg
    rw [Int.toNat_of_nonpos (by omega)] at hroom
    exact absurd hroom (by simp [sectorsFor, sectorSize])
  have hlt : (b.clearCount : Int) < divRoundUp size sectorSize := by
    rw [(divRoundUp_sectorSize size).2.1 hsize]
    omega
  simp only [allocate, Bitmap.numClear_eq, Option.bind_eq_bind, Option.bind_some, hlt, if_true]
  exact ⟨_, rfl⟩

private theorem allocate_not_full (h : FileHeader) {b : Bitmap} {size : Int}
    (hroom : sectorsFor size.toNat ≤ b.clearCount) :
    h.allocate b size =
      (allocateLoop ⟨(h.image.setWord 0 (BitVec.ofInt 32 size)).setWord 1
        (BitVec.ofInt 32 (divRoundUp size sectorSize))⟩ b (sectorsFor size.toNat)).bind
          fun r => some (true, r.1, r.2) := by
  have hcount := (divRoundUp_sectorSize size).1
  have hge : ¬ (b.clearCount : Int) < divRoundUp size sectorSize := by omega
  simp only [allocate, Bitmap.numClear_eq, Option.bind_eq_bind, Option.bind_some, hge, if_false,
    hcount]

/-- The two numbers `Allocate` stores for a file of this size. -/
structure HasSize (h : FileHeader) (size : Int) : Prop where
  fileLength : h.fileLength = size
  numSectors : h.numSectors.toInt = divRoundUp size sectorSize

theorem HasSize.length {h : FileHeader} {size : Int} (hs : h.HasSize size) :
    h.length = size.toNat := by
  rw [FileHeader.length, hs.fileLength]

/-- With room for the file `Allocate` takes clear sectors. -/
theorem allocate_room (h : FileHeader) {b : Bitmap} (hb : b.numBits = Disk.numSectors)
    {size : Int} (hsize : -2 ^ 31 ≤ size ∧ size ≤ maxFileSize)
    (hroom : sectorsFor size.toNat ≤ b.clearCount) :
    ∃ h' b', h.allocate b size = some (true, h', b') ∧ h'.WellFormed ∧ h'.HasSize size ∧
      Allocated b h'.sectors b' := by
  obtain ⟨hcount, hpos, hneg⟩ := divRoundUp_sectorSize size
  have hdirect : sectorsFor size.toNat ≤ numDirect := by
    simp only [sectorsFor, maxFileSize, numDirect, sectorSize] at *
    omega
  let h₀ : FileHeader := ⟨(h.image.setWord 0 (BitVec.ofInt 32 size)).setWord 1
    (BitVec.ofInt 32 (divRoundUp size sectorSize))⟩
  obtain ⟨h', b', hloop, hbytes, hnum, hal⟩ := allocateLoop_spec h₀ hb _ hdirect hroom
  have hsized : h'.HasSize size := by
    constructor
    case fileLength =>
      rw [fileLength, hbytes]
      show ((Image.setWord _ 1 _).word 0).toInt = size
      rw [Image.word_setWord_of_ne _ (by decide), Image.word_setWord_self, Image.toInt_ofInt]
      simp only [maxFileSize, numDirect, sectorSize] at hsize
      omega
    case numSectors =>
      rw [hnum]
      show ((Image.setWord _ 1 _).word 1).toInt = divRoundUp size sectorSize
      rw [Image.word_setWord_self, Image.toInt_ofInt]
      simp only [numDirect] at hdirect
      omega
  have hlen' := hsized.length
  have hcount' : h'.count = sectorsFor size.toNat := by
    rw [count, hsized.numSectors, hcount]
  rw [← hcount'] at hal
  refine ⟨h', b', ?_, ⟨?_, ?_, ?_, ?_⟩, hsized, hal⟩
  · rw [allocate_not_full h hroom, hloop]
    rfl
  · rw [hlen']
    omega
  · rw [hlen', hcount']
  · rw [← hb]
    exact hal.lt
  · exact hal.nodup

theorem allocate_overrun (h : FileHeader) {b : Bitmap} {size : Int} (hsize : maxFileSize < size)
    (hroom : sectorsFor size.toNat ≤ b.clearCount) : h.allocate b size = none := by
  have hdirect : numDirect < sectorsFor size.toNat := by
    simp only [sectorsFor, maxFileSize, numDirect, sectorSize] at *
    omega
  have hloop : ∀ (h : FileHeader) n, numDirect < n → h.allocateLoop b n = none := by
    intro h n hn
    induction n with
    | zero => omega
    | succ n ih =>
      rcases Nat.lt_or_ge numDirect n with hlt | hge
      · simp only [allocateLoop, ih hlt, Option.bind_eq_bind, Option.bind_none]
      · have hset : ∀ (h : FileHeader) sector, h.setDataSector n sector = none :=
          fun h sector => if_neg (by omega)
        simp only [allocateLoop, hset, Option.bind_eq_bind, Option.bind_none, Option.bind_fun_none]
  rw [allocate_not_full h hroom, hloop _ _ hdirect]
  rfl

private theorem deallocateLoop_spec {h : FileHeader} (hw : h.WellFormed) {b : Bitmap}
    (hb : b.numBits = Disk.numSectors) (hset : ∀ s ∈ h.sectors, b.bit s = true) (n : Nat)
    (hn : n ≤ h.count) :
    ∃ b', h.deallocateLoop b n = some b' ∧ b'.numBits = b.numBits ∧
      ∀ k, b'.bit k = (b.bit k && !decide (k ∈ h.firstSectors n)) := by
  induction n with
  | zero => exact ⟨b, rfl, rfl, by simp [firstSectors]⟩
  | succ n ih =>
    obtain ⟨b₁, hloop, hbits, hbit⟩ := ih (by omega)
    have hmem := WellFormed.sector_mem (h := h) (i := n) (by omega)
    have hlt : h.sector n < b₁.numBits := by
      rw [hbits, hb]
      exact hw.sector_lt _ hmem
    have hnot : h.sector n ∉ h.firstSectors n := by
      intro hin
      obtain ⟨i, hi, heq⟩ := mem_firstSectors.mp hin
      have := hw.sector_inj (by omega) (by omega) heq
      omega
    have htest : b₁.test (h.sector n) = some true := by
      rw [Bitmap.test_eq hlt, hbit, hset _ hmem]
      simpa using hnot
    have hdirect : n < numDirect := by
      have := hw.count_le
      omega
    refine ⟨b₁.cleared (h.sector n), ?_, hbits, ?_⟩
    · simp [deallocateLoop, hloop, dataSectors_eq h hdirect, hw.sector_toInt (i := n) (by omega),
        htest, Bitmap.clear_eq hlt]
    · intro k
      rw [Bitmap.bit_cleared, hbit, firstSectors_succ, Bool.and_assoc]
      simp

/-- `Deallocate` of a file whose sectors are all marked clears exactly these. -/
theorem deallocate_spec {h : FileHeader} (hw : h.WellFormed) {b : Bitmap}
    (hb : b.numBits = Disk.numSectors) (hset : ∀ s ∈ h.sectors, b.bit s = true) :
    ∃ b', h.deallocate b = some b' ∧ b'.numBits = b.numBits ∧
      ∀ k, b'.bit k = (b.bit k && !decide (k ∈ h.sectors)) := by
  exact deallocateLoop_spec hw hb hset _ (Nat.le_refl _)

end FileHeader
end Nachos

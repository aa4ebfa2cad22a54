import Nachos.Filesys.Metadata
import Nachos.Framework.Allocation

/-!
# The files of a disk

The sectors of the disk are owned by files: the free map, the directory and the entries in use.
On a consistent disk the free map is exact for this ownership.
-/

namespace Nachos

open Framework

/-- A file of the disk. -/
inductive FileRef
  | freeMap
  | directory
  | entry (i : Nat)
  deriving DecidableEq

namespace Disk

def headerSector (disk : Disk) : FileRef → Option Nat
  | .freeMap => some freeMapSector
  | .directory => some directorySector
  | .entry i =>
    if i < numDirEntries ∧ disk.directory.inUse i = true then some (disk.directory.sector i).toNat
    else none

def sectorsOf (disk : Disk) (f : FileRef) : List Nat :=
  match disk.headerSector f with
  | some s => s :: (disk.header s).sectors
  | none => []

def allFiles : List FileRef :=
  .freeMap :: .directory :: (List.range numDirEntries).map .entry

def usedSectors (disk : Disk) : List Nat := allFiles.flatMap disk.sectorsOf

def Marked (disk : Disk) (n : Nat) : Prop := n < numSectors ∧ disk.freeMap.bit n = true

/-- No sector belongs to two files or twice to one, all are on the disk, and the free map marks
exactly the sectors that belong to a file. -/
structure Consistent (disk : Disk) : Prop where
  nodup : disk.usedSectors.Nodup
  range : ∀ n ∈ disk.usedSectors, n < numSectors
  exact : ∀ n < numSectors, disk.freeMap.bit n = true ↔ n ∈ disk.usedSectors

/-- The name is new and there is room for it, for the header and for the data of a file. -/
structure CanCreate (disk : Disk) (name : Image) (size : Nat) : Prop where
  absent : disk.directory.findIndex name = -1
  entry : ∃ i < numDirEntries, disk.directory.inUse i = false
  room : 1 + FileHeader.sectorsFor size ≤ disk.freeMap.clearCount

variable {disk disk' : Disk}

theorem sectorsOf_some {f : FileRef} {s : Nat} (h : disk.headerSector f = some s) :
    disk.sectorsOf f = s :: (disk.header s).sectors := by
  simp only [sectorsOf, h]

theorem sectorsOf_none {f : FileRef} (h : disk.headerSector f = none) :
    disk.sectorsOf f = [] := by
  simp only [sectorsOf, h]

theorem headerSector_entry {i : Nat} (hi : i < numDirEntries)
    (huse : disk.directory.inUse i = true) :
    disk.headerSector (.entry i) = some (disk.directory.sector i).toNat :=
  if_pos ⟨hi, huse⟩

theorem headerSector_entry_eq_some {i s : Nat} (h : disk.headerSector (.entry i) = some s) :
    i < numDirEntries ∧ disk.directory.inUse i = true ∧ (disk.directory.sector i).toNat = s := by
  simp only [headerSector] at h
  split at h
  next hc => exact ⟨hc.1, hc.2, Option.some.inj h⟩
  next => cases h

theorem headerSector_entry_congr {i : Nat}
    (huse : i < numDirEntries → disk'.directory.inUse i = disk.directory.inUse i)
    (hsec : i < numDirEntries → disk.directory.inUse i = true →
      disk'.directory.sector i = disk.directory.sector i) :
    disk'.headerSector (.entry i) = disk.headerSector (.entry i) := by
  simp only [headerSector]
  by_cases hi : i < numDirEntries
  · by_cases hu : disk.directory.inUse i = true
    · rw [huse hi, hsec hi hu]
    · rw [huse hi, if_neg (fun h => hu h.2), if_neg (fun h => hu h.2)]
  · rw [if_neg (fun h => hi h.1), if_neg (fun h => hi h.1)]

theorem sectorsOf_congr {f : FileRef} (hh : disk'.headerSector f = disk.headerSector f)
    (hsame : ∀ s, disk.headerSector f = some s → disk' s = disk s) :
    disk'.sectorsOf f = disk.sectorsOf f := by
  cases hs : disk.headerSector f with
  | none => rw [sectorsOf_none hs, sectorsOf_none (hh.trans hs)]
  | some s =>
    rw [sectorsOf_some hs, sectorsOf_some (hh.trans hs), header, header, hsame s hs]

private theorem mem_allFiles {f : FileRef} {n : Nat} (h : n ∈ disk.sectorsOf f) : f ∈ allFiles := by
  cases f with
  | freeMap => simp [allFiles]
  | directory => simp [allFiles]
  | entry i =>
    have hi : i < numDirEntries := by
      by_contra hge
      have hnone : disk.headerSector (.entry i) = none := if_neg fun hc => hge hc.1
      rw [sectorsOf_none hnone] at h
      cases h
    simp [allFiles, hi]

private theorem allFiles_nodup : allFiles.Nodup := by decide

theorem consistent_of_allocation (h : Allocation disk.sectorsOf disk.Marked) :
    disk.Consistent := by
  have hmem : ∀ n, n ∈ disk.usedSectors ↔ disk.Marked n := by
    intro n
    rw [h.exact, usedSectors, List.mem_flatMap]
    constructor
    · rintro ⟨f, -, hf⟩
      exact ⟨f, hf⟩
    · rintro ⟨f, hf⟩
      exact ⟨f, mem_allFiles hf, hf⟩
  constructor
  case nodup => exact h.flatMap_nodup allFiles_nodup
  case range =>
    intro n hn
    exact ((hmem n).mp hn).1
  case exact =>
    intro n hn
    rw [hmem]
    exact ⟨fun hb => ⟨hn, hb⟩, fun hb => hb.2⟩

end Disk

namespace FileSystem

/-- What every call finds and leaves. -/
structure Inv (fs : FileSystem) (disk : Disk) : Prop where
  alloc : Allocation disk.sectorsOf disk.Marked
  wellFormed : ∀ f s, disk.headerSector f = some s → (disk.header s).WellFormed
  mapLength : (disk.header freeMapSector).length = freeMapFileSize
  dirLength : (disk.header directorySector).length = directoryFileSize
  mapFile : fs.freeMapFile.hdr = disk.header freeMapSector
  dirFile : fs.directoryFile.hdr = disk.header directorySector

namespace Inv

variable {fs : FileSystem} {disk disk' : Disk}

theorem header_lt (h : fs.Inv disk) {f : FileRef} {s : Nat} (hs : disk.headerSector f = some s) :
    s < Disk.numSectors := by
  have hmem : s ∈ disk.sectorsOf f := by
    rw [Disk.sectorsOf_some hs]
    exact List.mem_cons_self
  exact ((h.alloc.exact s).mpr ⟨f, hmem⟩).1

theorem header_notMem (h : fs.Inv disk) {f g : FileRef} {s t : Nat}
    (hs : disk.headerSector f = some s) (ht : disk.headerSector g = some t) :
    s ∉ (disk.header t).sectors := by
  intro hmem
  have hf : s ∈ disk.sectorsOf f := by
    rw [Disk.sectorsOf_some hs]
    exact List.mem_cons_self
  have hg : s ∈ disk.sectorsOf g := by
    rw [Disk.sectorsOf_some ht]
    exact List.mem_cons_of_mem _ hmem
  obtain rfl := h.alloc.mem_unique hf hg
  obtain rfl : s = t := Option.some.inj (hs.symm.trans ht)
  have hnodup := h.alloc.nodup f
  rw [Disk.sectorsOf_some hs] at hnodup
  exact (List.nodup_cons.mp hnodup).1 hmem

theorem data_disjoint (h : fs.Inv disk) {f g : FileRef} {s t n : Nat}
    (hs : disk.headerSector f = some s) (ht : disk.headerSector g = some t) (hne : f ≠ g)
    (hmem : n ∈ (disk.header s).sectors) : n ∉ (disk.header t).sectors := by
  intro hmem'
  apply h.alloc.disjoint f g hne n
  · rw [Disk.sectorsOf_some hs]
    exact List.mem_cons_of_mem _ hmem
  · rw [Disk.sectorsOf_some ht]
    exact List.mem_cons_of_mem _ hmem'

theorem header_outside (h : fs.Inv disk) {f : FileRef} {s : Nat}
    (hs : disk.headerSector f = some s) :
    s ∉ fs.freeMapFile.hdr.sectors ∧ s ∉ fs.directoryFile.hdr.sectors := by
  rw [h.mapFile, h.dirFile]
  exact ⟨h.header_notMem (g := .freeMap) hs rfl, h.header_notMem (g := .directory) hs rfl⟩

theorem metadata (h : fs.Inv disk) : fs.Metadata := by
  constructor
  case mapWellFormed =>
    rw [h.mapFile]
    exact h.wellFormed .freeMap _ rfl
  case mapLength =>
    rw [h.mapFile]
    exact h.mapLength
  case dirWellFormed =>
    rw [h.dirFile]
    exact h.wellFormed .directory _ rfl
  case dirLength =>
    rw [h.dirFile]
    exact h.dirLength
  case disjoint =>
    rw [h.mapFile, h.dirFile]
    intro s hs
    exact h.data_disjoint (f := .freeMap) (g := .directory) rfl rfl (by decide) hs

theorem fetch_directory (h : fs.Inv disk) (fresh : Image) :
    ∃ directory, (Directory.new fresh numDirEntries).fetchFrom fs.directoryFile disk =
        some directory ∧ directory.tableSize = numDirEntries ∧
      Image.AgreeTo (numDirEntries * entrySize) directory.table disk.directory.table := by
  obtain ⟨directory, hfetch, hsize, hag⟩ := Directory.fetchFrom_spec
    (d := Directory.new fresh numDirEntries) rfl h.metadata.dirWellFormed h.metadata.dirLength disk
  rw [h.dirFile] at hag
  exact ⟨directory, hfetch, hsize, hag⟩

theorem fetch_freeMap (h : fs.Inv disk) (fresh : Image) :
    ∃ freeMap, Bitmap.ofFile fresh fs.freeMapFile disk Disk.numSectors = some freeMap ∧
      freeMap.numBits = Disk.numSectors ∧
      ∀ n < Disk.numSectors, freeMap.bit n = disk.freeMap.bit n := by
  obtain ⟨freeMap, hfetch, hbits, hag⟩ :=
    Bitmap.ofFile_spec h.metadata.mapWellFormed h.metadata.mapLength disk fresh
  rw [h.mapFile] at hag
  refine ⟨freeMap, hfetch, hbits, ?_⟩
  intro n hn
  have hag' : Image.AgreeTo freeMapFileSize freeMap.map disk.freeMap.map := hag
  exact Bitmap.bit_of_agreeTo hag' hn

theorem find_cases (h : fs.Inv disk) {directory : Directory}
    (hsize : directory.tableSize = numDirEntries)
    (hag : Image.AgreeTo (numDirEntries * entrySize) directory.table disk.directory.table)
    (name : Image) :
    (directory.findIndex name = -1 ∧ directory.find name = -1) ∨
      ∃ (i s : Nat), directory.findIndex name = i ∧ disk.headerSector (.entry i) = some s ∧
        directory.find name = s := by
  rcases directory.findIndex_cases name with hnone | ⟨i, hi, hidx, hmatch⟩
  · exact .inl ⟨hnone, by simp [Directory.find, hnone]⟩
  · rw [hsize] at hi
    obtain ⟨huse, hsec, -⟩ := Directory.congr hag hi
    have hin := Directory.inUse_of_matchesName hmatch
    have hs := Disk.headerSector_entry hi (huse.symm.trans hin)
    refine .inr ⟨i, _, hidx, hs, ?_⟩
    have hne : (i : Int) ≠ -1 := by omega
    have hlt := h.header_lt hs
    simp only [Directory.find, hidx, hne, ne_eq, not_false_eq_true, if_true, Int.toNat_natCast,
      hsec]
    rw [BitVec.toInt_eq_toNat_cond, if_pos]
    simp only [Disk.numSectors] at hlt
    omega

theorem findIndex_eq {directory : Directory} (hsize : directory.tableSize = numDirEntries)
    (hag : Image.AgreeTo (numDirEntries * entrySize) directory.table disk.directory.table)
    (name : Image) : disk.directory.findIndex name = directory.findIndex name := by
  have hfind : (List.range numDirEntries).find? (disk.directory.matchesName name) =
      (List.range numDirEntries).find? (directory.matchesName name) := by
    apply List.find?_congr
    intro i hi
    exact (Directory.matchesName_congr hag name (List.mem_range.mp hi)).symm
  simp only [Directory.findIndex, hsize]
  rw [← hfind]
  rfl

theorem marked_of_header (h : fs.Inv disk) {f : FileRef} {s : Nat}
    (hs : disk.headerSector f = some s) : disk.Marked s := by
  rw [h.alloc.exact]
  refine ⟨f, ?_⟩
  rw [Disk.sectorsOf_some hs]
  exact List.mem_cons_self

theorem marked_of_data (h : fs.Inv disk) {f : FileRef} {s n : Nat}
    (hs : disk.headerSector f = some s) (hn : n ∈ (disk.header s).sectors) : disk.Marked n := by
  rw [h.alloc.exact]
  refine ⟨f, ?_⟩
  rw [Disk.sectorsOf_some hs]
  exact List.mem_cons_of_mem _ hn

theorem notMem_of_clear (h : fs.Inv disk) {f : FileRef} {s n : Nat}
    (hs : disk.headerSector f = some s) (hn : disk.freeMap.bit n = false) :
    n ∉ s :: (disk.header s).sectors := by
  intro hmem
  have hmarked : disk.Marked n := by
    rcases List.mem_cons.mp hmem with rfl | hmem
    · exact h.marked_of_header hs
    · exact h.marked_of_data hs hmem
  rw [Disk.Marked, hn] at hmarked
  exact Bool.false_ne_true hmarked.2

theorem of_allocation (h : fs.Inv disk) (halloc : Allocation disk'.sectorsOf disk'.Marked)
    (hwf : ∀ f s, disk'.headerSector f = some s → (disk'.header s).WellFormed)
    (hmap : disk' freeMapSector = disk freeMapSector)
    (hdir : disk' directorySector = disk directorySector) : fs.Inv disk' := by
  have hmap' : disk'.header freeMapSector = disk.header freeMapSector := by
    rw [Disk.header, Disk.header, hmap]
  have hdir' : disk'.header directorySector = disk.header directorySector := by
    rw [Disk.header, Disk.header, hdir]
  refine ⟨halloc, hwf, ?_, ?_, ?_, ?_⟩
  · rw [hmap']
    exact h.mapLength
  · rw [hdir']
    exact h.dirLength
  · rw [hmap']
    exact h.mapFile
  · rw [hdir']
    exact h.dirFile

end Inv

/-- A disk on which the free map and the directory have been replaced. -/
structure Updated (freeMap : Bitmap) (directory : Directory) (disk disk' : Disk) : Prop where
  mapHeader : disk' freeMapSector = disk freeMapSector
  dirHeader : disk' directorySector = disk directorySector
  bit : ∀ n < Disk.numSectors, disk'.freeMap.bit n = freeMap.bit n
  inUse : ∀ i < numDirEntries, disk'.directory.inUse i = directory.inUse i
  sector : ∀ i < numDirEntries, disk'.directory.sector i = directory.sector i
  matchesName : ∀ i < numDirEntries, ∀ nm,
    disk'.directory.matchesName nm i = directory.matchesName nm i

theorem table_of_content {fs : FileSystem} {disk disk' : Disk} {directory : Directory}
    (hdirFile : fs.directoryFile.hdr = disk.header directorySector)
    (hdir : disk' directorySector = disk directorySector)
    (htable : Image.AgreeTo directoryFileSize (OpenFile.content disk' fs.directoryFile.hdr)
      directory.table) : Image.AgreeTo directoryFileSize disk'.directory.table directory.table := by
  have hdir' : OpenFile.content disk' fs.directoryFile.hdr = disk'.directory.table := by
    rw [hdirFile, Disk.directory, Disk.header, Disk.header, hdir]
  rwa [hdir'] at htable

theorem updated_of_content {fs : FileSystem} {disk disk' : Disk} {freeMap : Bitmap}
    {directory : Directory} (hmapFile : fs.freeMapFile.hdr = disk.header freeMapSector)
    (hdirFile : fs.directoryFile.hdr = disk.header directorySector)
    (hmap : disk' freeMapSector = disk freeMapSector)
    (hdir : disk' directorySector = disk directorySector)
    (hbits : Image.AgreeTo freeMapFileSize (OpenFile.content disk' fs.freeMapFile.hdr) freeMap.map)
    (htable : Image.AgreeTo directoryFileSize (OpenFile.content disk' fs.directoryFile.hdr)
      directory.table) : Updated freeMap directory disk disk' := by
  have hmap' : OpenFile.content disk' fs.freeMapFile.hdr = disk'.freeMap.map := by
    rw [hmapFile, Disk.freeMap, Disk.header, Disk.header, hmap]
  rw [hmap'] at hbits
  have htable := table_of_content hdirFile hdir htable
  constructor
  case mapHeader => exact hmap
  case dirHeader => exact hdir
  case bit =>
    intro n hn
    exact Bitmap.bit_of_agreeTo hbits hn
  case inUse =>
    intro i hi
    exact (Directory.congr (n := numDirEntries) htable hi).1
  case sector =>
    intro i hi
    exact (Directory.congr (n := numDirEntries) htable hi).2.1
  case matchesName =>
    intro i hi nm
    exact Directory.matchesName_congr (n := numDirEntries) htable nm hi

theorem Inv.updated_of_flushed {fs : FileSystem} {disk disk₁ disk' : Disk} {freeMap : Bitmap}
    {directory : Directory} (h : fs.Inv disk) (hfl : fs.Flushed freeMap directory disk₁ disk')
    (hmap : disk₁ freeMapSector = disk freeMapSector)
    (hdir : disk₁ directorySector = disk directorySector) :
    Updated freeMap directory disk disk' := by
  have hout₀ := h.header_outside (f := .freeMap) rfl
  have hout₁ := h.header_outside (f := .directory) rfl
  apply updated_of_content h.mapFile h.dirFile _ _ hfl.map hfl.table
  · rw [hfl.frame _ hout₀.1 hout₀.2, hmap]
  · rw [hfl.frame _ hout₁.1 hout₁.2, hdir]

end FileSystem
end Nachos

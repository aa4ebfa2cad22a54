import Nachos.Filesys.FileSystem

/-!
# Fetching and flushing the free map and the directory

A copy that is fetched has the bytes of its file, and after both copies are written back the
files have the bytes of the copies. Sectors outside the two files stay as they are.
-/

namespace Nachos

open Framework

namespace OpenFile

theorem content_congr {h : FileHeader} (hw : h.WellFormed) {disk disk' : Disk}
    (hsame : ∀ s ∈ h.sectors, disk' s = disk s) :
    Image.AgreeTo h.length (content disk' h) (content disk h) := by
  intro a ha
  have hmem := FileHeader.WellFormed.sector_mem (sector_index_lt hw ha)
  rw [content, content, hsame _ hmem]

private theorem readAt_all {f : OpenFile} (hw : f.hdr.WellFormed) (disk : Disk) (into : Image) :
    ∃ into', f.readAt disk into 0 f.hdr.length 0 = some (↑f.hdr.length, into') ∧
      Image.AgreeTo f.hdr.length into' (content disk f.hdr) := by
  have hlen := hw.length_le
  simp only [maxFileSize, numDirect, sectorSize] at hlen
  have hread := readAt_eq hw disk into 0 f.hdr.length 0 (by omega)
  have htr : transferred f.hdr.length f.hdr.length 0 = f.hdr.length := by
    simp only [transferred]
    omega
  rw [htr] at hread
  refine ⟨_, hread, ?_⟩
  simp only [Nat.zero_add]
  exact Image.blit_zero_agreeTo _ _ _

private theorem writeAt_all {f : OpenFile} (hw : f.hdr.WellFormed) (disk : Disk)
    (fresh source : Image) :
    ∃ disk', f.writeAt disk fresh source f.hdr.length 0 = some (↑f.hdr.length, disk') ∧
      (∀ s ∉ f.hdr.sectors, disk' s = disk s) ∧
      Image.AgreeTo f.hdr.length (content disk' f.hdr) source := by
  have hlen := hw.length_le
  simp only [maxFileSize, numDirect, sectorSize] at hlen
  obtain ⟨disk', hwrite, hwritten⟩ := writeAt_spec hw disk fresh source f.hdr.length 0 (by omega)
  have htr : transferred f.hdr.length f.hdr.length 0 = f.hdr.length := by
    simp only [transferred]
    omega
  rw [htr] at hwrite hwritten
  refine ⟨disk', hwrite, hwritten.frame, ?_⟩
  intro a ha
  rw [hwritten.data a ha, if_pos (by omega), Nat.sub_zero]

end OpenFile

namespace Directory

variable {d : Directory} {f : OpenFile}

private theorem size_eq (hd : d.tableSize = numDirEntries) :
    d.tableSize * entrySize = directoryFileSize := by
  rw [hd, Nat.mul_comm]

theorem fetchFrom_spec (hd : d.tableSize = numDirEntries) (hw : f.hdr.WellFormed)
    (hlen : f.hdr.length = directoryFileSize) (disk : Disk) :
    ∃ d', d.fetchFrom f disk = some d' ∧ d'.tableSize = numDirEntries ∧
      Image.AgreeTo directoryFileSize d'.table (OpenFile.content disk f.hdr) := by
  obtain ⟨table, hread, hag⟩ := OpenFile.readAt_all hw disk d.table
  rw [hlen] at hread hag
  refine ⟨{ d with table := table }, ?_, hd, hag⟩
  simp only [fetchFrom, size_eq hd]
  rw [hread]
  rfl

private theorem writeBack_spec (hd : d.tableSize = numDirEntries) (hw : f.hdr.WellFormed)
    (hlen : f.hdr.length = directoryFileSize) (disk : Disk) (fresh : Image) :
    ∃ disk', d.writeBack f disk fresh = some disk' ∧
      (∀ s ∉ f.hdr.sectors, disk' s = disk s) ∧
      Image.AgreeTo directoryFileSize (OpenFile.content disk' f.hdr) d.table := by
  obtain ⟨disk', hwrite, hframe, hag⟩ := OpenFile.writeAt_all hw disk fresh d.table
  rw [hlen] at hwrite hag
  refine ⟨disk', ?_, hframe, hag⟩
  simp only [writeBack, size_eq hd]
  rw [hwrite]
  rfl

end Directory

namespace Bitmap

variable {b : Bitmap} {f : OpenFile}

private theorem numWords_eq (hb : b.numBits = Disk.numSectors) :
    b.numWords * 4 = freeMapFileSize := by
  rw [numWords, hb, divRoundUp_natCast _ _ (by decide)]
  rfl

theorem ofFile_spec (hw : f.hdr.WellFormed) (hlen : f.hdr.length = freeMapFileSize)
    (disk : Disk) (fresh : Image) :
    ∃ b, ofFile fresh f disk Disk.numSectors = some b ∧ b.numBits = Disk.numSectors ∧
      Image.AgreeTo freeMapFileSize b.map (OpenFile.content disk f.hdr) := by
  obtain ⟨b, hnew, hbits, -⟩ := new_spec fresh (n := Disk.numSectors) (by decide)
  obtain ⟨map, hread, hag⟩ := OpenFile.readAt_all hw disk b.map
  rw [hlen] at hread hag
  refine ⟨{ b with map := map }, ?_, hbits, hag⟩
  rw [ofFile, hnew]
  simp only [Option.bind_eq_bind, Option.bind_some, fetchFrom, numWords_eq hbits]
  rw [hread]
  rfl

private theorem writeBack_spec (hb : b.numBits = Disk.numSectors) (hw : f.hdr.WellFormed)
    (hlen : f.hdr.length = freeMapFileSize) (disk : Disk) (fresh : Image) :
    ∃ disk', b.writeBack f disk fresh = some disk' ∧
      (∀ s ∉ f.hdr.sectors, disk' s = disk s) ∧
      Image.AgreeTo freeMapFileSize (OpenFile.content disk' f.hdr) b.map := by
  obtain ⟨disk', hwrite, hframe, hag⟩ := OpenFile.writeAt_all hw disk fresh b.map
  rw [hlen] at hwrite hag
  refine ⟨disk', ?_, hframe, hag⟩
  simp only [writeBack, numWords_eq hb]
  rw [hwrite]
  rfl

theorem bit_of_agreeTo {b b' : Bitmap} (h : Image.AgreeTo freeMapFileSize b.map b'.map) {n : Nat}
    (hn : n < Disk.numSectors) : b.bit n = b'.bit n :=
  bit_congr (n := 32) h hn

end Bitmap

namespace FileSystem

/-- The files of the free map and the directory have the right sizes and share no sector. -/
structure Metadata (fs : FileSystem) : Prop where
  mapWellFormed : fs.freeMapFile.hdr.WellFormed
  mapLength : fs.freeMapFile.hdr.length = freeMapFileSize
  dirWellFormed : fs.directoryFile.hdr.WellFormed
  dirLength : fs.directoryFile.hdr.length = directoryFileSize
  disjoint : ∀ s ∈ fs.freeMapFile.hdr.sectors, s ∉ fs.directoryFile.hdr.sectors

/-- Both copies are on the disk. -/
structure Flushed (fs : FileSystem) (freeMap : Bitmap) (directory : Directory)
    (disk disk' : Disk) : Prop where
  frame : ∀ s, s ∉ fs.freeMapFile.hdr.sectors → s ∉ fs.directoryFile.hdr.sectors →
    disk' s = disk s
  map : Image.AgreeTo freeMapFileSize (OpenFile.content disk' fs.freeMapFile.hdr) freeMap.map
  table : Image.AgreeTo directoryFileSize (OpenFile.content disk' fs.directoryFile.hdr)
    directory.table

variable {fs : FileSystem} {freeMap : Bitmap} {directory : Directory}

theorem flush_directory_first (hm : fs.Metadata) (hb : freeMap.numBits = Disk.numSectors)
    (hd : directory.tableSize = numDirEntries) (disk : Disk) (fresh₁ fresh₂ : Image) :
    ∃ disk₁ disk₂, directory.writeBack fs.directoryFile disk fresh₁ = some disk₁ ∧
      freeMap.writeBack fs.freeMapFile disk₁ fresh₂ = some disk₂ ∧
      fs.Flushed freeMap directory disk disk₂ := by
  obtain ⟨disk₁, hw₁, hframe₁, hag₁⟩ :=
    Directory.writeBack_spec hd hm.dirWellFormed hm.dirLength disk fresh₁
  obtain ⟨disk₂, hw₂, hframe₂, hag₂⟩ :=
    Bitmap.writeBack_spec hb hm.mapWellFormed hm.mapLength disk₁ fresh₂
  have hsame : ∀ s ∈ fs.directoryFile.hdr.sectors, disk₂ s = disk₁ s := by
    intro s hs
    exact hframe₂ s fun hs' => hm.disjoint s hs' hs
  have hkeep := OpenFile.content_congr hm.dirWellFormed hsame
  rw [hm.dirLength] at hkeep
  refine ⟨disk₁, disk₂, hw₁, hw₂, ?_, hag₂, hkeep.trans hag₁⟩
  intro s hmap hdir
  rw [hframe₂ s hmap, hframe₁ s hdir]

theorem flush_map_first (hm : fs.Metadata) (hb : freeMap.numBits = Disk.numSectors)
    (hd : directory.tableSize = numDirEntries) (disk : Disk) (fresh₁ fresh₂ : Image) :
    ∃ disk₁ disk₂, freeMap.writeBack fs.freeMapFile disk fresh₁ = some disk₁ ∧
      directory.writeBack fs.directoryFile disk₁ fresh₂ = some disk₂ ∧
      fs.Flushed freeMap directory disk disk₂ := by
  obtain ⟨disk₁, hw₁, hframe₁, hag₁⟩ :=
    Bitmap.writeBack_spec hb hm.mapWellFormed hm.mapLength disk fresh₁
  obtain ⟨disk₂, hw₂, hframe₂, hag₂⟩ :=
    Directory.writeBack_spec hd hm.dirWellFormed hm.dirLength disk₁ fresh₂
  have hsame : ∀ s ∈ fs.freeMapFile.hdr.sectors, disk₂ s = disk₁ s := by
    intro s hs
    exact hframe₂ s (hm.disjoint s hs)
  have hkeep := OpenFile.content_congr hm.mapWellFormed hsame
  rw [hm.mapLength] at hkeep
  refine ⟨disk₁, disk₂, hw₁, hw₂, ?_, hkeep.trans hag₁, hag₂⟩
  intro s hmap hdir
  rw [hframe₂ s hdir, hframe₁ s hmap]

end FileSystem
end Nachos

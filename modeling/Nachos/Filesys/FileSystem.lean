import Nachos.Filesys.Directory
import Nachos.Framework.Run

/-!
# The file system

The free map and the directory are files of their own, with headers in sectors 0 and 1. Each
call reads copies of them, changes the copies and writes them back. `fresh` gives the contents
of the uninitialized objects a call allocates, in the order of the source.
-/

namespace Nachos

open Framework

namespace Bitmap

def numWords (b : Bitmap) : Nat := (divRoundUp b.numBits bitsInWord).toNat

/-- `PersistentBitmap::FetchFrom`. -/
def fetchFrom (b : Bitmap) (file : OpenFile) (disk : Disk) : Option Bitmap := do
  let (_, map) ← file.readAt disk b.map 0 ((b.numWords * 4 : Nat) : Int) 0
  some { b with map := map }

/-- `PersistentBitmap::WriteBack`. -/
def writeBack (b : Bitmap) (file : OpenFile) (disk : Disk) (fresh : Image) : Option Disk := do
  let (_, disk) ← file.writeAt disk fresh b.map ((b.numWords * 4 : Nat) : Int) 0
  some disk

/-- `PersistentBitmap::PersistentBitmap` with a file. -/
def ofFile (fresh : Image) (file : OpenFile) (disk : Disk) (numItems : Int) : Option Bitmap := do
  let b ← new fresh numItems
  b.fetchFrom file disk

end Bitmap

abbrev freeMapSector : Nat := 0

abbrev directorySector : Nat := 1

abbrev bitsInByte : Nat := 8

abbrev freeMapFileSize : Nat := Disk.numSectors / bitsInByte

abbrev numDirEntries : Nat := 10

abbrev directoryFileSize : Nat := entrySize * numDirEntries

structure FileSystem where
  freeMapFile : OpenFile
  directoryFile : OpenFile

namespace FileSystem

/-- The part of `FileSystem::FileSystem` that opens the files of the bitmap and the directory. -/
def openFiles (disk : Disk) : Option FileSystem := do
  let freeMapFile ← OpenFile.new disk freeMapSector
  let directoryFile ← OpenFile.new disk directorySector
  some { freeMapFile := freeMapFile, directoryFile := directoryFile }

/-- `FileSystem::FileSystem`. -/
def new (disk : Disk) (fresh : Nat → Image) (format : Bool) : Option (FileSystem × Disk) :=
  if format then do
    let freeMap ← Bitmap.new (fresh 0) Disk.numSectors
    let directory := Directory.new (fresh 1) numDirEntries
    let freeMap ← freeMap.mark freeMapSector
    let freeMap ← freeMap.mark directorySector
    let (mapOk, mapHdr, freeMap) ← FileHeader.allocate ⟨fresh 2⟩ freeMap freeMapFileSize
    if mapOk then
      let (dirOk, dirHdr, freeMap) ← FileHeader.allocate ⟨fresh 3⟩ freeMap directoryFileSize
      if dirOk then
        let disk ← mapHdr.writeBack disk freeMapSector
        let disk ← dirHdr.writeBack disk directorySector
        let fs ← openFiles disk
        let disk ← freeMap.writeBack fs.freeMapFile disk (fresh 4)
        let disk ← directory.writeBack fs.directoryFile disk (fresh 5)
        some (fs, disk)
      else none
    else none
  else do
    let fs ← openFiles disk
    some (fs, disk)

/-- `FileSystem::Create`. -/
def create (fs : FileSystem) (disk : Disk) (fresh : Nat → Image) (name : Image)
    (initialSize : Int) : Option (Bool × Disk) := do
  let directory ← (Directory.new (fresh 0) numDirEntries).fetchFrom fs.directoryFile disk
  if directory.find name ≠ -1 then some (false, disk)
  else
    let freeMap ← Bitmap.ofFile (fresh 1) fs.freeMapFile disk Disk.numSectors
    let (sector, freeMap) ← freeMap.findAndSet
    if sector = -1 then some (false, disk)
    else
      let (added, directory) := directory.add name sector
      if added then
        let (allocated, hdr, freeMap) ← FileHeader.allocate ⟨fresh 2⟩ freeMap initialSize
        if allocated then
          let disk ← hdr.writeBack disk sector
          let disk ← directory.writeBack fs.directoryFile disk (fresh 3)
          let disk ← freeMap.writeBack fs.freeMapFile disk (fresh 4)
          some (true, disk)
        else some (false, disk)
      else some (false, disk)

/-- `FileSystem::Open`. -/
def openFile (fs : FileSystem) (disk : Disk) (fresh : Nat → Image) (name : Image) :
    Option (Option OpenFile) := do
  let directory ← (Directory.new (fresh 0) numDirEntries).fetchFrom fs.directoryFile disk
  let sector := directory.find name
  if 0 ≤ sector then
    let file ← OpenFile.new disk sector
    some (some file)
  else some none

/-- `FileSystem::Remove`. -/
def remove (fs : FileSystem) (disk : Disk) (fresh : Nat → Image) (name : Image) :
    Option (Bool × Disk) := do
  let directory ← (Directory.new (fresh 0) numDirEntries).fetchFrom fs.directoryFile disk
  let sector := directory.find name
  if sector = -1 then some (false, disk)
  else
    let fileHdr ← FileHeader.fetchFrom disk sector
    let freeMap ← Bitmap.ofFile (fresh 1) fs.freeMapFile disk Disk.numSectors
    let freeMap ← fileHdr.deallocate freeMap
    let freeMap ← freeMap.clear sector
    let (_, directory) := directory.remove name
    let disk ← freeMap.writeBack fs.freeMapFile disk (fresh 2)
    let disk ← directory.writeBack fs.directoryFile disk (fresh 3)
    some (true, disk)

end FileSystem

/-! ## What is on the disk -/

namespace Disk

def header (disk : Disk) (s : Nat) : FileHeader := ⟨disk s⟩

def freeMap (disk : Disk) : Bitmap :=
  { numBits := numSectors, map := OpenFile.content disk (disk.header freeMapSector) }

def directory (disk : Disk) : Directory :=
  { tableSize := numDirEntries, table := OpenFile.content disk (disk.header directorySector) }

end Disk

/-! ## Runs -/

/-- An open file. The directory entry it was opened for and whether that file has been removed
since are not part of the program. -/
structure Handle where
  file : OpenFile
  entry : Nat
  removed : Bool

structure Session where
  disk : Disk
  fs : FileSystem
  handles : List Handle

inductive Call
  | create (name : Image) (initialSize : Int)
  | openFile (name : Image)
  | remove (name : Image)
  | readAt (handle : Nat) (into : Image) (numBytes position : Int)
  | writeAt (handle : Nat) (source : Image) (numBytes position : Int)

namespace Session

def entryOf (s : Session) (name : Image) : Nat := (s.disk.directory.findIndex name).toNat

/-- One call. `none` is a failed ASSERT or an access outside an array. -/
def exec (s : Session) (fresh : Nat → Image) : Call → Option Session
  | .create name initialSize => do
    let (_, disk) ← s.fs.create s.disk fresh name initialSize
    some { s with disk := disk }
  | .openFile name => do
    let opened ← s.fs.openFile s.disk fresh name
    match opened with
    | none => some s
    | some file =>
      some { s with handles := s.handles ++
                      [{ file := file, entry := s.entryOf name, removed := false }] }
  | .remove name => do
    let (success, disk) ← s.fs.remove s.disk fresh name
    if success then
      some { s with
             disk := disk,
             handles := s.handles.map fun h =>
               if h.entry = s.entryOf name then { h with removed := true } else h }
    else some { s with disk := disk }
  | .readAt k into numBytes position => do
    let h ← s.handles[k]?
    let _ ← h.file.readAt s.disk into 0 numBytes position
    some s
  | .writeAt k source numBytes position => do
    let h ← s.handles[k]?
    let (_, disk) ← h.file.writeAt s.disk (fresh 0) source numBytes position
    some { s with disk := disk }

def Live (s : Session) (k : Nat) : Prop := ∃ h, s.handles[k]? = some h ∧ h.removed = false

def Allowed (s : Session) : Call → Prop
  | .create _ initialSize => 0 ≤ initialSize ∧ initialSize ≤ maxFileSize
  | .openFile _ => True
  | .remove _ => True
  | .readAt k _ numBytes position => s.Live k ∧ 0 ≤ position ∧ position + numBytes < 2 ^ 31
  | .writeAt k _ numBytes position => s.Live k ∧ 0 ≤ position ∧ position + numBytes < 2 ^ 31

def system : System Session (Call × (Nat → Image)) where
  init s := s.handles = [] ∧
    ∃ disk fresh, FileSystem.new disk fresh true = some (s.fs, s.disk)
  step s l s' := s.Allowed l.1 ∧ s.exec l.2 l.1 = some s'

end Session

end Nachos

import Mathlib
import Nachos.Framework.Refinement
import Nachos.Filesys.FlatFile
import Nachos.Filesys.NameMap
import Nachos.Filesys.StoredNames
import Nachos.Filesys.Creation

/-!
# The file system as a set of named files

To its callers the file system is a table of places, each free or holding a file with a name and
bytes, and a list of open files with their positions. Which sectors the files have, the free map
and the directory do not show in what the calls return, except that the sectors a new file needs
must be left. Starting Nachos again on the disk closes the files and changes nothing else.
-/

namespace Nachos

open Framework

/-! ## What the callers see -/

def baseName (name : Image) : List (BitVec 8) := chars name fileNameMaxLen

structure StoredFile where
  name : List (BitVec 8)
  bytes : List (BitVec 8)

/-- An open file: its place, unless the file has been removed since, and the position. -/
structure OpenedFile where
  place : Option Nat
  position : Int

structure Volume where
  files : Nat → Option StoredFile
  opened : List OpenedFile

inductive Reply
  | done
  | success (b : Bool)
  | moved (result : Int) (bytes : List (BitVec 8))

namespace Volume

def empty : Volume := ⟨fun _ => none, []⟩

def Holds (v : Volume) (name : Image) (i : Nat) : Prop :=
  ∃ f, v.files i = some f ∧ f.name = baseName name

def sectorsOfFile : Option StoredFile → Nat
  | some f => 1 + FileHeader.sectorsFor f.bytes.length
  | none => 0

/-- The sectors in use: those of the free map, the directory and the files. -/
def used (v : Volume) : Nat :=
  (1 + FileHeader.sectorsFor freeMapFileSize) + (1 + FileHeader.sectorsFor directoryFileSize) +
    ((List.range numDirEntries).map fun i => sectorsOfFile (v.files i)).sum

/-- There is a place for one more file, and the sectors it needs. -/
structure Room (v : Volume) (size : Nat) : Prop where
  place : ∃ i < numDirEntries, v.files i = none
  sectors : v.used + (1 + FileHeader.sectorsFor size) ≤ Disk.numSectors

/-- The open file `k` is at this position and its file, in place `i`, is `f`. -/
structure At (v : Volume) (k : Nat) (position : Int) (i : Nat) (f : StoredFile) : Prop where
  opened : v.opened[k]? = some ⟨some i, position⟩
  file : v.files i = some f

def setFile (v : Volume) (i : Nat) (f : Option StoredFile) : Volume :=
  { v with files := Function.update v.files i f }

@[simp] theorem setFile_files_self (v : Volume) (i : Nat) (f : Option StoredFile) :
    (v.setFile i f).files i = f := Function.update_self _ _ _

theorem setFile_files_of_ne (v : Volume) {i j : Nat} (f : Option StoredFile) (h : j ≠ i) :
    (v.setFile i f).files j = v.files j := Function.update_of_ne h _ _

def setPosition (v : Volume) (k : Nat) (place : Option Nat) (position : Int) : Volume :=
  { v with opened := v.opened.set k ⟨place, position⟩ }

def written (f : StoredFile) (source : Image) (numBytes position : Int) : StoredFile :=
  { f with bytes := overwrite f.bytes position.toNat (source.toList 0 numBytes.toNat) }

def moved (f : StoredFile) (numBytes position : Int) : Int :=
  max 0 (min numBytes (f.bytes.length - position))

/-- Sizes that a header can hold, and requests for open files that start in the file or behind it
and end in the range of an `int`. -/
def Allowed (v : Volume) : FileCall → Prop
  | .call (.create _ initialSize) => 0 ≤ initialSize ∧ initialSize ≤ maxFileSize
  | .call (.readAt k _ numBytes position) | .call (.writeAt k _ numBytes position) =>
      (∃ p i f, v.At k p i f) ∧ OpenFile.InRange numBytes position
  | .seek k _ => k < v.opened.length
  | .read k _ numBytes | .write k _ numBytes =>
      ∃ p i f, v.At k p i f ∧ OpenFile.InRange numBytes p ∧ p < 2 ^ 31
  | .call (.openFile _) | .call (.remove _) | .mount => True

/-- What a call returns and what it does to the files. The bytes of a new file are not
determined. -/
inductive Step (v : Volume) : FileCall → Reply → Volume → Prop
  | created {name : Image} {initialSize : Int} {i : Nat} {bytes : List (BitVec 8)}
      (hplace : i < numDirEntries) (hfree : v.files i = none) (hnew : ∀ j, ¬ v.Holds name j)
      (hroom : v.Room initialSize.toNat) (hbytes : bytes.length = initialSize.toNat) :
      Step v (.call (.create name initialSize)) (.success true)
        (v.setFile i (some ⟨baseName name, bytes⟩))
  | notCreated {name : Image} {initialSize : Int}
      (h : (∃ j, v.Holds name j) ∨ ¬ v.Room initialSize.toNat) :
      Step v (.call (.create name initialSize)) (.success false) v
  | opened {name : Image} {i : Nat} (h : v.Holds name i) :
      Step v (.call (.openFile name)) (.success true)
        { v with opened := v.opened ++ [⟨some i, 0⟩] }
  | notOpened {name : Image} (h : ∀ i, ¬ v.Holds name i) :
      Step v (.call (.openFile name)) (.success false) v
  | removed {name : Image} {i : Nat} (h : v.Holds name i) :
      Step v (.call (.remove name)) (.success true)
        { v.setFile i none with
          opened := v.opened.map fun o => if o.place = some i then { o with place := none } else o }
  | notRemoved {name : Image} (h : ∀ i, ¬ v.Holds name i) :
      Step v (.call (.remove name)) (.success false) v
  | readAt {k : Nat} {into : Image} {numBytes position p : Int} {i : Nat} {f : StoredFile}
      (h : v.At k p i f) :
      Step v (.call (.readAt k into numBytes position))
        (.moved (moved f numBytes position) (slice f.bytes position.toNat numBytes.toNat)) v
  | writeAt {k : Nat} {source : Image} {numBytes position p : Int} {i : Nat} {f : StoredFile}
      (h : v.At k p i f) :
      Step v (.call (.writeAt k source numBytes position))
        (.moved (moved f numBytes position) [])
        (v.setFile i (some (written f source numBytes position)))
  | seek {k : Nat} {position : Int} {o : OpenedFile} (h : v.opened[k]? = some o) :
      Step v (.seek k position) .done (v.setPosition k o.place position)
  | read {k : Nat} {into : Image} {numBytes p : Int} {i : Nat} {f : StoredFile} (h : v.At k p i f) :
      Step v (.read k into numBytes)
        (.moved (moved f numBytes p) (slice f.bytes p.toNat numBytes.toNat))
        (v.setPosition k (some i) (p + moved f numBytes p))
  | write {k : Nat} {source : Image} {numBytes p : Int} {i : Nat} {f : StoredFile} (h : v.At k p i f) :
      Step v (.write k source numBytes) (.moved (moved f numBytes p) [])
        ((v.setFile i (some (written f source numBytes p))).setPosition k (some i)
          (p + moved f numBytes p))
  | mount : Step v .mount .done { v with opened := [] }

end Volume

def volumeSystem : System Volume (FileCall × Reply) where
  init v := v = .empty
  step v l v' := v.Allowed l.1 ∧ v.Step l.1 l.2 v'

/-! ## What the code does -/

namespace Session

def reply (s : Session) (fresh : Nat → Image) : FileCall → Option Reply
  | .call (.create name initialSize) =>
    (s.fs.create s.disk fresh name initialSize).map fun r => .success r.1
  | .call (.openFile name) => (s.fs.openFile s.disk fresh name).map fun f => .success f.isSome
  | .call (.remove name) => (s.fs.remove s.disk fresh name).map fun r => .success r.1
  | .call (.readAt k into numBytes position) => do
    let h ← s.handles[k]?
    let (result, into) ← h.file.readAt s.disk into 0 numBytes position
    some (.moved result (into.toList 0 result.toNat))
  | .call (.writeAt k source numBytes position) => do
    let h ← s.handles[k]?
    let (result, _) ← h.file.writeAt s.disk (fresh 0) source numBytes position
    some (.moved result [])
  | .seek k _ => (s.handles[k]?).map fun _ => .done
  | .read k into numBytes => do
    let h ← s.handles[k]?
    let (result, into, _) ← h.file.read s.disk into numBytes
    some (.moved result (into.toList 0 result.toNat))
  | .write k source numBytes => do
    let h ← s.handles[k]?
    let (result, _) ← h.file.write s.disk (fresh 0) source numBytes
    some (.moved result [])
  | .mount => (FileSystem.new s.disk fresh false).map fun _ => .done

def storedFile (s : Session) (i : Nat) : Option StoredFile :=
  (s.disk.headerSector (.entry i)).map fun t =>
    ⟨baseName (s.disk.directory.name i), OpenFile.bytes s.disk (s.disk.header t)⟩

/-- The session as its callers see it. -/
def volume (s : Session) : Volume where
  files := s.storedFile
  opened := s.handles.map fun h =>
    ⟨if h.removed then none else some h.entry, h.file.seekPosition⟩

def volumeRuns : System Session (FileCall × Reply) where
  init := system.init
  step s l s' := s.volume.Allowed l.1 ∧
    ∃ fresh, s.reply fresh l.1 = some l.2 ∧ s.perform fresh l.1 = some s'

end Session

/-! ## Names -/

private theorem charsFrom_eq_iff {s t : Image} (n i : Nat) :
    charsFrom s n i = charsFrom t n i ↔ strncmpFrom s t n i = 0 := by
  induction n generalizing i with
  | zero => simp [charsFrom, strncmpFrom]
  | succ n ih =>
    rw [Directory.strncmpFrom_succ_eq_zero, ← ih (i + 1)]
    by_cases hs : s i = 0
    · rw [charsFrom_end hs]
      by_cases ht : t i = 0
      · simp [charsFrom_end ht, hs, ht]
      · have hne : s i ≠ t i := fun h => ht (h ▸ hs)
        simp [charsFrom_char ht, hne]
    · rw [charsFrom_char hs]
      by_cases ht : t i = 0
      · have hne : s i ≠ t i := fun h => hs (h.trans ht)
        simp [charsFrom_end ht, hne]
      · simp only [charsFrom_char ht, List.cons.injEq, hs, false_or]

theorem baseName_eq_iff {s t : Image} : baseName s = baseName t ↔ Directory.SameName s t :=
  charsFrom_eq_iff fileNameMaxLen 0

theorem baseName_congr {s t : Image} (h : ∀ k < fileNameMaxLen, s k = t k) :
    baseName s = baseName t := by
  have hself : strncmp s t fileNameMaxLen = strncmp t t fileNameMaxLen := by
    apply Directory.strncmpFrom_congr
    intro j hj
    rw [Nat.zero_add] at hj
    exact h j hj
  rw [baseName_eq_iff, Directory.SameName, hself]
  exact Directory.strncmpFrom_self t _ _

namespace Session

variable {s s' : Session} {name : Image} {i t : Nat}

/-! ## Files and directory entries -/

theorem storedFile_of_header (h : s.disk.headerSector (.entry i) = some t) :
    s.storedFile i =
      some ⟨baseName (s.disk.directory.name i), OpenFile.bytes s.disk (s.disk.header t)⟩ := by
  rw [storedFile, h]
  rfl

theorem storedFile_eq_none : s.storedFile i = none ↔ s.disk.headerSector (.entry i) = none := by
  rw [storedFile, Option.map_eq_none_iff]

private theorem holds_iff : s.volume.Holds name i ↔
    i < numDirEntries ∧ s.disk.directory.matchesName name i = true := by
  constructor
  · rintro ⟨f, hf, hname⟩
    obtain ⟨t, ht, rfl⟩ := Option.map_eq_some_iff.mp hf
    obtain ⟨hi, huse, -⟩ := Disk.headerSector_entry_eq_some ht
    refine ⟨hi, ?_⟩
    have hsame : Directory.SameName (s.disk.directory.name i) name := baseName_eq_iff.mp hname
    rw [Directory.matchesName, huse, hsame]
    rfl
  · rintro ⟨hi, hmatch⟩
    rw [Directory.matchesName, Bool.and_eq_true, beq_iff_eq] at hmatch
    have ht := Disk.headerSector_entry hi hmatch.1
    exact ⟨_, storedFile_of_header ht, baseName_eq_iff.mpr hmatch.2⟩

theorem holds_of_findIndex (h : s.disk.directory.findIndex name = i) : s.volume.Holds name i := by
  obtain hnone | ⟨j, hj, hidx, hmatch⟩ := s.disk.directory.findIndex_cases name
  · omega
  · obtain rfl : j = i := by omega
    exact holds_iff.mpr ⟨hj, hmatch⟩

theorem not_holds_of_findIndex (h : s.disk.directory.findIndex name = -1) :
    ∀ i, ¬ s.volume.Holds name i := by
  intro i hi
  obtain ⟨hlt, hmatch⟩ := holds_iff.mp hi
  rw [Directory.findIndex_eq_neg_one.mp h i hlt] at hmatch
  cases hmatch

theorem storedFile_congr (h : s.disk.SameFile s'.disk (.entry i))
    (hname : i < numDirEntries → ∀ k < fileNameMaxLen,
      s'.disk.directory.name i k = s.disk.directory.name i k) :
    s'.storedFile i = s.storedFile i := by
  cases ht : s.disk.headerSector (.entry i) with
  | none => rw [storedFile_eq_none.mpr ht, storedFile_eq_none.mpr (h.headerSector.trans ht)]
  | some t =>
    have hbytes : OpenFile.bytes s'.disk (s'.disk.header t) =
        OpenFile.bytes s.disk (s.disk.header t) := by
      apply List.ext_getElem?
      intro a
      by_cases ha : a < (s.disk.header t).length
      · rw [OpenFile.getElem?_bytes _ _ ha, OpenFile.getElem?_bytes _ _ (h.header t ht ▸ ha),
          h.content t ht a ha]
      · rw [List.getElem?_eq_none, List.getElem?_eq_none]
        · rw [OpenFile.length_bytes]
          omega
        · rw [OpenFile.length_bytes, h.header t ht]
          omega
    rw [storedFile_of_header ht, storedFile_of_header (h.headerSector.trans ht), hbytes,
      baseName_congr (hname (Disk.headerSector_entry_eq_some ht).1)]

theorem name_of_sameFile (h : s.Inv) (hdir : s.disk.SameFile s'.disk .directory)
    (hi : i < numDirEntries) {k : Nat} (hk : k < 10) :
    s'.disk.directory.name i k = s.disk.directory.name i k := by
  have hlt : entrySize * i + 8 + k < (s.disk.header directorySector).length := by
    rw [h.fs.dirLength]
    simp only [directoryFileSize, entrySize, numDirEntries] at hi ⊢
    omega
  exact hdir.content directorySector rfl _ hlt

/-! ## Free sectors -/

private theorem usedSectors_length (h : s.fs.Inv s.disk) :
    s.disk.usedSectors.length = s.volume.used := by
  have hlength : ∀ f t, s.disk.headerSector f = some t → (s.disk.sectorsOf f).length =
      1 + FileHeader.sectorsFor (s.disk.header t).length := by
    intro f t ht
    rw [Disk.sectorsOf_some ht, List.length_cons, ← (h.wellFormed f t ht).count_eq, FileHeader.sectors,
      FileHeader.firstSectors_length, Nat.add_comm]
  have hentry : ∀ i, (s.disk.sectorsOf (.entry i)).length =
      Volume.sectorsOfFile (s.volume.files i) := by
    intro i
    change _ = Volume.sectorsOfFile (s.storedFile i)
    cases ht : s.disk.headerSector (.entry i) with
    | none =>
      rw [Disk.sectorsOf_none ht, storedFile_eq_none.mpr ht]
      rfl
    | some t =>
      rw [hlength _ t ht, storedFile_of_header ht, Volume.sectorsOfFile, OpenFile.length_bytes]
  have hmap := hlength .freeMap freeMapSector rfl
  have hdir := hlength .directory directorySector rfl
  rw [h.mapLength] at hmap
  rw [h.dirLength] at hdir
  have hentries : (((List.range numDirEntries).map .entry).flatMap s.disk.sectorsOf).length =
      ((List.range numDirEntries).map fun i => Volume.sectorsOfFile (s.volume.files i)).sum := by
    rw [List.length_flatMap, List.map_map]
    exact congrArg List.sum (List.map_congr_left fun i _ => hentry i)
  rw [Disk.usedSectors, Disk.allFiles, List.flatMap_cons, List.flatMap_cons, List.length_append,
    List.length_append, hentries, hmap, hdir, Volume.used]
  omega

theorem clearCount_eq (h : s.fs.Inv s.disk) :
    s.disk.freeMap.clearCount + s.volume.used = Disk.numSectors := by
  have hconsistent := Disk.consistent_of_allocation h.alloc
  have hmarked : ((List.range Disk.numSectors).filter s.disk.freeMap.bit).Perm s.disk.usedSectors := by
    rw [List.perm_ext_iff_of_nodup (List.nodup_range.filter _) hconsistent.nodup]
    intro n
    rw [List.mem_filter, List.mem_range]
    constructor
    · rintro ⟨hn, hbit⟩
      exact (hconsistent.exact n hn).mp hbit
    · intro hn
      have hlt := hconsistent.range n hn
      exact ⟨hlt, (hconsistent.exact n hlt).mpr hn⟩
  have hset : (List.range Disk.numSectors).countP s.disk.freeMap.bit = s.volume.used := by
    rw [List.countP_eq_length_filter, hmarked.length_eq, usedSectors_length h]
  have htotal := List.length_eq_countP_add_countP s.disk.freeMap.bit (l := List.range Disk.numSectors)
  rw [List.length_range, hset] at htotal
  have hclear : s.disk.freeMap.clearCount =
      (List.range Disk.numSectors).countP fun i => ¬ s.disk.freeMap.bit i = true := by
    rw [Bitmap.clearCount]
    apply List.countP_congr
    intro n _
    simp
  omega

/-- `Create` looks for what its callers can know: the name, a free place and enough sectors. -/
theorem canCreate_iff (h : s.fs.Inv s.disk) (name : Image) (size : Nat) :
    s.disk.CanCreate name size ↔ (∀ i, ¬ s.volume.Holds name i) ∧ s.volume.Room size := by
  have hcount := clearCount_eq h
  have hplace : (∃ i < numDirEntries, s.volume.files i = none) ↔
      ∃ i < numDirEntries, s.disk.directory.inUse i = false := by
    refine exists_congr fun i => and_congr_right fun hi => ?_
    change s.storedFile i = none ↔ _
    rw [storedFile_eq_none, Disk.headerSector]
    simp [hi]
  constructor
  · intro hcan
    have hroom := hcan.room
    exact ⟨not_holds_of_findIndex hcan.absent, hplace.mpr hcan.entry, by omega⟩
  · rintro ⟨hnew, hroom⟩
    have hsectors := hroom.sectors
    refine ⟨?_, hplace.mp hroom.place, by omega⟩
    obtain hnone | ⟨i, hi, -, hmatch⟩ := s.disk.directory.findIndex_cases name
    · exact hnone
    · exact absurd (holds_iff.mpr ⟨hi, hmatch⟩) (hnew i)

end Session

end Nachos

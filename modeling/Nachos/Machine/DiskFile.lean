import Nachos.Framework.FlatArray
import Nachos.Framework.Run
import Nachos.Filesys.FileHeader
import Nachos.Filesys.HostFile

/-!
# The file behind the disk

The sectors of the simulated disk lie in a UNIX file behind a magic number. The constructor of `Disk`
makes the file if there is none, and otherwise checks the number. `Read` and `WriteFile` fail an
ASSERT when the host does less than asked, so the file must never be too short.
-/

namespace Nachos

open Framework

abbrev magicNumber : BitVec 32 := 0x456789ab

abbrev magicSize : Nat := 4

abbrev diskSize : Nat := magicSize + Disk.numSectors * sectorSize

namespace HostFile

def empty : HostFile := { size := 0, data := fun _ => 0 }

/-- `Read` at a position. -/
def read (f : HostFile) (position nBytes : Nat) : Option Image :=
  if position + nBytes ≤ f.size then
    some fun i => if i < nBytes then f.data (position + i) else 0
  else none

end HostFile

/-- `Disk::Disk` on the file of that name, if there is one. -/
def openDisk : Option HostFile → Option HostFile
  | some f => do
    let magicNum ← f.read 0 magicSize
    if magicNum.word 0 = magicNumber then some f else none
  | none => do
    let f ← HostFile.empty.writeAt (Image.setWord (fun _ => 0) 0 magicNumber) 0 magicSize 0
    -- the end of the file is written, so that reads do not return EOF
    f.writeAt (fun _ => 0) 0 4 (diskSize - 4 : Nat)

/-- The data of `Disk::ReadRequest`. -/
def readRequest (f : HostFile) (sectorNumber : Int) : Option Image :=
  if 0 ≤ sectorNumber ∧ sectorNumber < Disk.numSectors then
    f.read (sectorSize * sectorNumber.toNat + magicSize) sectorSize
  else none

/-- The data of `Disk::WriteRequest`. -/
def writeRequest (f : HostFile) (sectorNumber : Int) (data : Image) : Option HostFile :=
  if 0 ≤ sectorNumber ∧ sectorNumber < Disk.numSectors then
    f.writeAt data 0 sectorSize (sectorSize * sectorNumber + magicSize)
  else none

inductive DiskFileLabel
  /-- Nachos is started, or started again -/
  | start
  | read (sectorNumber : Int)
  | write (sectorNumber : Int) (data : Image)

/-- All runs from no file on: the file, and the disk that it stands for. -/
def diskFileSystem : System (Option HostFile × Disk) DiskFileLabel where
  init s := s = (none, fun _ _ => 0)
  step s l s' := match l, s.1 with
    | .start, file => ∃ f, openDisk file = some f ∧ s' = (some f, s.2)
    | .read sectorNumber, some f => readRequest f sectorNumber ≠ none ∧ s' = s
    | .write sectorNumber data, some f => ∃ f', writeRequest f sectorNumber data = some f' ∧
        s' = (some f', (s.2.writeSector sectorNumber data).getD s.2)
    | _, none => False

/-! ## The layout of the file -/

def HostFile.sectors (f : HostFile) : Disk := fun s a =>
  if s < Disk.numSectors ∧ a < sectorSize then f.data (sectorSize * s + magicSize + a) else 0

/-- The file is the magic number and the sectors. -/
structure HostFile.Stores (f : HostFile) (disk : Disk) : Prop where
  size : f.size = diskSize
  magic : ∀ i < magicSize, f.data i = Image.setWord (fun _ => 0) 0 magicNumber i
  sectors : f.sectors = disk

namespace HostFile.Stores

variable {f : HostFile} {disk : Disk}

theorem openDisk (h : f.Stores disk) : Nachos.openDisk (some f) = some f := by
  have hsize : 0 + magicSize ≤ f.size := by
    rw [h.size]
    decide
  simp only [Nachos.openDisk, HostFile.read, if_pos hsize, Option.bind_eq_bind, Option.bind_some]
  refine if_pos ?_
  rw [← Image.word_setWord_self (fun _ => 0) 0 magicNumber]
  apply Image.word_congr
  intro j hj
  have hlt : 4 * 0 + j < magicSize := by
    simp only [magicSize]
    omega
  rw [if_pos hlt, Nat.zero_add (4 * 0 + j)]
  exact h.magic _ hlt

theorem readRequest (h : f.Stores disk) (sectorNumber : Int) :
    Nachos.readRequest f sectorNumber = disk.readSector sectorNumber := by
  unfold Nachos.readRequest Disk.readSector
  split
  next hin =>
    have hlt : sectorNumber.toNat < Disk.numSectors := by omega
    have hroom : sectorSize * sectorNumber.toNat + magicSize + sectorSize ≤ f.size := by
      rw [h.size]
      simp only [diskSize, sectorSize, magicSize, Disk.numSectors] at hlt ⊢
      omega
    rw [HostFile.read, if_pos hroom, ← h.sectors]
    apply congrArg some
    funext a
    simp only [HostFile.sectors, hlt, true_and]
  next => rfl

theorem writeRequest (h : f.Stores disk) (sectorNumber : Int) (data : Image) :
    (Nachos.writeRequest f sectorNumber data = none ∧ disk.writeSector sectorNumber data = none) ∨
      ∃ f' disk', Nachos.writeRequest f sectorNumber data = some f' ∧
        disk.writeSector sectorNumber data = some disk' ∧ f'.Stores disk' := by
  unfold Nachos.writeRequest Disk.writeSector
  split
  next hin =>
    right
    have hlt : sectorNumber.toNat < Disk.numSectors := by omega
    have hpos : ¬ ((sectorSize : Int) * sectorNumber + magicSize < 0) := by
      simp only [sectorSize, magicSize]
      omega
    have hposition : ((sectorSize : Int) * sectorNumber + magicSize).toNat =
        sectorSize * sectorNumber.toNat + magicSize := by
      simp only [sectorSize, magicSize]
      omega
    have hsize := h.size
    simp only [diskSize, sectorSize, magicSize, Disk.numSectors] at hsize hlt hposition
    refine ⟨_, _, if_neg hpos, rfl, ?_, ?_, ?_⟩
    · show max f.size _ = diskSize
      simp only [diskSize, sectorSize, magicSize, Disk.numSectors, hposition]
      omega
    · intro i hi
      rw [← h.magic i hi]
      simp only [magicSize] at hi
      simp only [sectorSize, magicSize, hposition]
      rw [if_neg (by omega), if_pos (by omega)]
    · funext s a
      rw [← h.sectors]
      simp only [HostFile.sectors, sectorSize, magicSize, Disk.numSectors, hposition]
      by_cases hsame : s = sectorNumber.toNat
      · rw [hsame, Function.update_self]
        by_cases ha : a < 128
        · rw [if_pos ⟨hlt, ha⟩, if_pos (by omega), Image.blit_of_mem (Nat.zero_le a) (by omega)]
          congr 1
          omega
        · rw [if_neg fun h => ha h.2, Image.blit_of_notMem (by omega)]
          exact (if_neg fun h => ha h.2).symm
      · rw [Function.update_of_ne hsame]
        refine ite_congr rfl (fun hin => ?_) fun _ => rfl
        simp only [sectorSize, Disk.numSectors] at hin
        rw [if_neg (by omega), if_pos (by omega)]
  next => exact .inl ⟨rfl, rfl⟩

end HostFile.Stores

theorem openDisk_none : ∃ f, openDisk none = some f ∧ f.Stores fun _ _ => 0 := by
  refine ⟨_, rfl, ?_, ?_, ?_⟩
  · decide
  · intro i hi
    simp only [magicSize] at hi
    refine (if_neg ?_).trans ((if_pos ?_).trans ((if_pos ?_).trans ?_))
    · simp only [diskSize, magicSize, Disk.numSectors, sectorSize, Int.toNat_natCast]
      omega
    · exact Nat.lt_of_lt_of_le (by simpa using hi) (Nat.le_max_right _ _)
    · simpa using hi
    · simp
  · funext s a
    -- behind the number both the gap and the last bytes are zeros
    refine ite_eq_iff'.mpr ⟨fun _ => ?_, fun _ => rfl⟩
    refine ite_eq_iff'.mpr ⟨fun _ => rfl, fun _ => ite_eq_iff'.mpr ⟨fun _ => ?_, fun _ => rfl⟩⟩
    refine (if_neg ?_).trans (if_neg ?_)
    · simp only [magicSize, Int.toNat_zero]
      omega
    · exact Nat.not_lt_zero _

/-! ## Runs -/

def DiskFileInv (s : Option HostFile × Disk) : Prop :=
  match s with
  | (none, disk) => disk = fun _ _ => 0
  | (some f, disk) => f.Stores disk

theorem DiskFileInv.openDisk {file : Option HostFile} {disk : Disk}
    (h : DiskFileInv (file, disk)) :
    ∃ f, Nachos.openDisk file = some f ∧ f.Stores disk := by
  cases file with
  | none =>
    have hzero : disk = fun _ _ => 0 := h
    rw [hzero]
    exact openDisk_none
  | some f =>
    have hstores : f.Stores disk := h
    exact ⟨f, hstores.openDisk, hstores⟩

theorem diskFileInv_inductive : diskFileSystem.Inductive DiskFileInv where
  init := by
    rintro _ rfl
    rfl
  step := by
    rintro ⟨file, disk⟩ l s' hinv hstep
    cases l with
    | start =>
      obtain ⟨f, hopen, rfl⟩ := hstep
      obtain ⟨f', hopen', hstores⟩ := hinv.openDisk
      obtain rfl : f = f' := Option.some.inj (hopen.symm.trans hopen')
      exact hstores
    | read sectorNumber =>
      cases file with
      | none => exact hstep.elim
      | some f =>
        rw [hstep.2]
        exact hinv
    | write sectorNumber data =>
      cases file with
      | none => exact hstep.elim
      | some f =>
        obtain ⟨f', hwrite, rfl⟩ := hstep
        have hstores : f.Stores disk := hinv
        obtain ⟨hnone, -⟩ | ⟨f₁, disk₁, hsome, hdisk, hstores₁⟩ :=
          hstores.writeRequest sectorNumber data
        · rw [hnone] at hwrite
          cases hwrite
        · obtain rfl : f₁ = f' := Option.some.inj (hsome.symm.trans hwrite)
          rw [hdisk]
          exact hstores₁

/-- However often Nachos is started on the file, it finds the number. A sector is read as it was
last written, and a request is carried out if the disk has the sector. -/
theorem disk_file_exact {s : Option HostFile × Disk} (hr : diskFileSystem.Reachable s) :
    (∃ f, openDisk s.1 = some f ∧ (s.1.isSome → s.1 = some f)) ∧
      ∀ f, s.1 = some f → f.size = diskSize ∧
        (∀ sectorNumber, readRequest f sectorNumber = s.2.readSector sectorNumber) ∧
        ∀ sectorNumber data, (writeRequest f sectorNumber data).isSome =
          (s.2.writeSector sectorNumber data).isSome := by
  have hinv := diskFileInv_inductive.of_reachable hr
  obtain ⟨file, disk⟩ := s
  constructor
  · obtain ⟨f, hopen, -⟩ := hinv.openDisk
    refine ⟨f, hopen, fun hfile => ?_⟩
    obtain ⟨f₀, rfl⟩ := Option.isSome_iff_exists.mp hfile
    have hstores : f₀.Stores disk := hinv
    exact hstores.openDisk.symm.trans hopen
  · rintro f rfl
    have hstores : f.Stores disk := hinv
    refine ⟨hstores.size, hstores.readRequest, fun sectorNumber data => ?_⟩
    obtain ⟨hfile, hdisk⟩ | ⟨f', disk', hfile, hdisk, -⟩ :=
      hstores.writeRequest sectorNumber data
    · rw [hfile, hdisk]
      rfl
    · rw [hfile, hdisk]
      rfl

/-- A sector that was written before Nachos is started again. -/
theorem disk_file_exact_restart : ∃ f disk, diskFileSystem.Reachable (some f, disk) ∧
    openDisk (some f) = some f ∧
      (readRequest f 3).map (Image.toList · 0 sectorSize) =
        some (List.replicate sectorSize 7) := by
  obtain ⟨f₀, hopen₀, hstores₀⟩ := openDisk_none
  have hstart : diskFileSystem.Reachable (some f₀, fun _ _ => 0) :=
    .step (l := .start) (.init rfl) ⟨f₀, hopen₀, rfl⟩
  obtain ⟨-, hnone⟩ | ⟨f, disk, hfile, hdisk, -⟩ := hstores₀.writeRequest 3 fun _ => 7
  · cases hnone
  · have hrun : diskFileSystem.Reachable (some f, disk) := by
      refine .step (l := .write 3 fun _ => 7) hstart ⟨f, hfile, ?_⟩
      rw [hdisk]
      rfl
    obtain ⟨⟨f', hopen, hsame⟩, hreads⟩ := disk_file_exact hrun
    refine ⟨f, disk, hrun, ?_, ?_⟩
    · exact hopen.trans (hsame rfl).symm
    · rw [(hreads f rfl).2.1 3, ← Option.some.inj hdisk]
      rfl

end Nachos

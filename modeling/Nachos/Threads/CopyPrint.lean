import Nachos.Filesys.Creation
import Nachos.Filesys.Sequential

/-!
# Copying UNIX files and printing

`Copy` moves a UNIX file to the Nachos disk and `Print` writes a Nachos file to the terminal, both
through a buffer of `TransferSize` bytes. `fresh` gives the contents of the uninitialized objects
of each call, and of the `k`-th write of the loop.
-/

namespace Nachos

open Framework

abbrev transferSize : Nat := 128

/-- A UNIX file with the chunks that the calls of `ReadPartial` return. -/
structure UnixFile where
  data : List (BitVec 8)
  chunks : List (List (BitVec 8))
  whole : chunks.flatten = data
  nonempty : ∀ c ∈ chunks, 0 < c.length
  short : ∀ c ∈ chunks, c.length ≤ transferSize

/-- The loop of `Copy`. -/
def copyLoop (fresh : Nat → Image) :
    Nat → OpenFile → Disk → Image → List (List (BitVec 8)) → Option Disk
  | _, _, disk, _, [] => some disk
  | k, openFile, disk, buffer, chunk :: chunks =>
    let amountRead := chunk.length
    if 0 < amountRead then do
      let buffer := buffer.blit 0 (Image.ofList chunk) amountRead
      let (_, disk, openFile) ← openFile.write disk (fresh k) buffer amountRead
      copyLoop fresh (k + 1) openFile disk buffer chunks
    else some disk

/-- The loop of `Print`, with the bytes it prints. -/
def printLoop (disk : Disk) : Nat → OpenFile → Image → Option (List (BitVec 8))
  | 0, _, _ => none
  | fuel + 1, openFile, buffer => do
    let (amountRead, buffer, openFile) ← openFile.read disk buffer transferSize
    if 0 < amountRead then
      let rest ← printLoop disk fuel openFile buffer
      some (buffer.toList 0 amountRead.toNat ++ rest)
    else some []

namespace FileSystem

/-- `Copy`. A UNIX file that cannot be opened is `none`. -/
def copy (fs : FileSystem) (disk : Disk) (fresh : Nat → Nat → Image) (source : Option UnixFile)
    (name : Image) : Option Disk :=
  match source with
  | none => some disk
  | some unixFile => do
    let fileLength := unixFile.data.length
    let (created, disk) ← fs.create disk (fresh 0) name fileLength
    if created then
      let opened ← fs.openFile disk (fresh 1) name
      let openFile ← opened
      copyLoop (fresh 3) 0 openFile disk (fresh 2 0) unixFile.chunks
    else some disk

/-- `Print`. The inner `none` is a file that cannot be opened. -/
def print (fs : FileSystem) (disk : Disk) (fresh : Nat → Nat → Image) (fuel : Nat) (name : Image) :
    Option (Option (List (BitVec 8))) := do
  let opened ← fs.openFile disk (fresh 0) name
  match opened with
  | none => some none
  | some openFile => do
    let printed ← printLoop disk fuel openFile (fresh 1 0)
    some (some printed)

end FileSystem

/-! ## The loops -/

/-- The writes that the loop of `Copy` makes. -/
def copyRequests (fresh : Nat → Image) :
    Nat → Image → List (List (BitVec 8)) → List OpenFile.WriteRequest
  | _, _, [] => []
  | k, buffer, chunk :: chunks =>
    let buffer := buffer.blit 0 (Image.ofList chunk) chunk.length
    ⟨fresh k, buffer, chunk.length⟩ :: copyRequests fresh (k + 1) buffer chunks

private theorem copyLoop_eq_writeAll (fresh : Nat → Image) (k : Nat) (f : OpenFile) (disk : Disk)
    (buffer : Image) (chunks : List (List (BitVec 8))) (hpos : ∀ c ∈ chunks, 0 < c.length) :
    copyLoop fresh k f disk buffer chunks =
      (f.writeAll disk (copyRequests fresh k buffer chunks)).map Prod.snd := by
  induction chunks generalizing k f disk buffer with
  | nil => rfl
  | cons chunk chunks ih =>
    rw [copyLoop, copyRequests, OpenFile.writeAll, if_pos (hpos chunk List.mem_cons_self)]
    simp only [Option.bind_eq_bind, Option.map_bind]
    congr 1
    funext r
    exact ih _ _ _ _ fun c hc => hpos c (List.mem_cons_of_mem chunk hc)

private theorem copyRequests_data (fresh : Nat → Image) (k : Nat) (buffer : Image)
    (chunks : List (List (BitVec 8))) :
    (copyRequests fresh k buffer chunks).flatMap OpenFile.WriteRequest.data = chunks.flatten := by
  induction chunks generalizing k buffer with
  | nil => rfl
  | cons chunk chunks ih =>
    rw [copyRequests, List.flatMap_cons, ih, List.flatten_cons, OpenFile.WriteRequest.data,
      Image.toList_blit, Image.toList_ofList]

private theorem copyRequests_sum (fresh : Nat → Image) (k : Nat) (buffer : Image)
    (chunks : List (List (BitVec 8))) :
    ((copyRequests fresh k buffer chunks).map OpenFile.WriteRequest.numBytes).sum =
      chunks.flatten.length := by
  induction chunks generalizing k buffer with
  | nil => rfl
  | cons chunk chunks ih =>
    rw [copyRequests, List.map_cons, List.sum_cons, ih, List.flatten_cons, List.length_append]

private theorem printLoop_eq {f : OpenFile} (hw : f.hdr.WellFormed) (disk : Disk) {asked : Nat}
    (hseek : f.seekPosition = (min asked f.hdr.length : Nat)) (buffer : Image) {fuel : Nat}
    (hfuel : f.hdr.length < asked + fuel) (hpos : 0 < fuel) :
    printLoop disk fuel f buffer = some ((OpenFile.bytes disk f.hdr).drop asked) := by
  induction fuel generalizing f asked buffer with
  | zero => omega
  | succ fuel ih =>
    have hlength := hw.length_le
    simp only [maxFileSize, numDirect, sectorSize] at hlength
    obtain ⟨buffer', hread, hlist⟩ := OpenFile.read_next hw disk hseek buffer transferSize
      (by simp only [transferSize]; omega)
    rw [printLoop, hread]
    simp only [Option.bind_eq_bind, Option.bind_some, Int.toNat_natCast] at hlist ⊢
    rw [hlist]
    have hcount : (slice (OpenFile.bytes disk f.hdr) asked transferSize).length =
        min transferSize (f.hdr.length - asked) := by
      rw [length_slice, OpenFile.length_bytes]
    rcases Nat.lt_or_ge asked f.hdr.length with hlt | hge
    · have hrest := ih (f := { f with
          seekPosition := (min (asked + transferSize) f.hdr.length : Nat) }) hw rfl buffer'
        (by simp only [transferSize]; omega) (by omega)
      have hmore : 0 < ((slice (OpenFile.bytes disk f.hdr) asked transferSize).length : Int) := by
        rw [hcount]
        simp only [transferSize]
        omega
      rw [if_pos hmore, hrest]
      simp only [Option.bind_some, slice]
      rw [← List.drop_drop, List.take_append_drop]
    · have hend : ¬ 0 < ((slice (OpenFile.bytes disk f.hdr) asked transferSize).length : Int) := by
        omega
      rw [if_neg hend, List.drop_of_length_le (by rw [OpenFile.length_bytes]; exact hge)]

/-! ## What is read back -/

namespace FileSystem

variable {fs : FileSystem} {disk : Disk} {name : Image} {i t : Nat}

private theorem Inv.openFile_of_index (h : fs.Inv disk) (hidx : disk.directory.findIndex name = i)
    (ht : disk.headerSector (.entry i) = some t) (fresh : Nat → Image) :
    fs.openFile disk fresh name = some (some { hdr := disk.header t, seekPosition := 0 }) := by
  rcases h.openFile_spec fresh name with ⟨hnone, -⟩ | ⟨j, u, hidx', hu, hopen⟩
  · omega
  · obtain rfl : i = j := Int.ofNat_inj.mp (hidx.symm.trans hidx')
    obtain rfl : t = u := Option.some.inj (ht.symm.trans hu)
    exact hopen

theorem Inv.filled (h : fs.Inv disk) (hidx : disk.directory.findIndex name = i)
    (ht : disk.headerSector (.entry i) = some t) (requests : List OpenFile.WriteRequest)
    (hsize : (requests.map OpenFile.WriteRequest.numBytes).sum = (disk.header t).length) :
    ∃ file disk', OpenFile.writeAll { hdr := disk.header t, seekPosition := 0 } disk requests =
        some (file, disk') ∧
      OpenFile.bytes disk' (disk.header t) = requests.flatMap OpenFile.WriteRequest.data ∧
      ∀ fresh, fs.openFile disk' fresh name =
        some (some { hdr := disk.header t, seekPosition := 0 }) := by
  obtain ⟨file, disk', hrun, hbytes, hframe⟩ := OpenFile.writeAll_fills
    (f := { hdr := disk.header t, seekPosition := 0 }) (h.wellFormed _ t ht) disk requests rfl hsize
  obtain ⟨hinv, hheaders, hsame⟩ := h.wrote_own ht hframe
  refine ⟨file, disk', hrun, hbytes, ?_⟩
  have hdir := (hsame .directory (by simp)).content directorySector rfl
  rw [h.dirLength] at hdir
  have hidx' : disk'.directory.findIndex name = i := by
    have hsize : disk.directory.tableSize = numDirEntries := rfl
    exact (Inv.findIndex_eq hsize (fun a ha => (hdir a ha).symm) name).trans hidx
  have ht' : disk'.headerSector (.entry i) = some t := (hheaders _).1.trans ht
  have hheader : disk'.header t = disk.header t := by
    rw [Disk.header, Disk.header, (hheaders _).2 t ht]
  intro fresh
  rw [hinv.openFile_of_index hidx' ht' fresh, hheader]

private theorem Inv.copy_spec (h : fs.Inv disk) (unixFile : UnixFile)
    (hsize : unixFile.data.length ≤ maxFileSize)
    (hcan : disk.CanCreate name unixFile.data.length) (fresh : Nat → Nat → Image) :
    ∃ disk' file, fs.copy disk fresh (some unixFile) name = some disk' ∧
      (∀ fresh', fs.openFile disk' fresh' name = some (some file)) ∧
      file.hdr.WellFormed ∧ file.seekPosition = 0 ∧
      OpenFile.bytes disk' file.hdr = unixFile.data := by
  obtain ⟨i, t, hdr, disk₁, hok, hsized, hc⟩ := h.create_ok (fresh 0)
    (show -2 ^ 31 ≤ (unixFile.data.length : Int) by omega) (by omega) hcan
  have hidx := hc.findIndex_self hcan.absent
  have hopen := (hc.inv h).openFile_of_index hidx hc.headerSector_self (fresh 1)
  have hlength : (disk₁.header t).length = unixFile.data.length := (hc.header_eq hsized).1.length
  obtain ⟨file, disk', hrun, hbytes, hreopen⟩ := (hc.inv h).filled hidx hc.headerSector_self
    (copyRequests (fresh 3) 0 (fresh 2 0) unixFile.chunks)
    (by rw [copyRequests_sum, unixFile.whole, hlength])
  rw [copyRequests_data, unixFile.whole] at hbytes
  refine ⟨disk', _, ?_, hreopen, (hc.header_eq hsized).2.1, rfl, hbytes⟩
  simp only [copy, hok, hopen, Option.bind_eq_bind, Option.bind_some, if_true]
  rw [copyLoop_eq_writeAll _ _ _ _ _ _ unixFile.nonempty, hrun]
  rfl

end FileSystem

/-- `Print` prints what `Copy` has copied. More generally, writes of any sizes that fill a file
are read back as consecutive pieces of any sizes, exactly when no read that starts before the end
of the file asks for more than the integers hold. -/
theorem copy_print_identity {fs : FileSystem} {disk : Disk} (h : fs.Inv disk) (name : Image) :
    (∀ unixFile : UnixFile, unixFile.data.length ≤ maxFileSize →
      disk.CanCreate name unixFile.data.length → ∀ fresh, ∃ disk',
        fs.copy disk fresh (some unixFile) name = some disk' ∧
        ∀ fresh' fuel, unixFile.data.length < fuel →
          fs.print disk' fresh' fuel name = some (some unixFile.data)) ∧
    ∀ fresh file, fs.openFile disk fresh name = some (some file) →
      ∀ requests : List OpenFile.WriteRequest,
        (requests.map OpenFile.WriteRequest.numBytes).sum = file.hdr.length →
        ∃ file' disk', file.writeAll disk requests = some (file', disk') ∧
          (∀ fresh', fs.openFile disk' fresh' name = some (some file)) ∧
          ∀ calls : List (Image × Int), (∀ c ∈ calls, c.2 < 2 ^ 31) →
            (OpenFile.readAll disk' file calls =
                some (OpenFile.expected (requests.flatMap OpenFile.WriteRequest.data)
                  (calls.map Prod.snd)) ↔
              OpenFile.ReadsFit file.hdr.length 0 (calls.map Prod.snd)) := by
  constructor
  · intro unixFile hsize hcan fresh
    obtain ⟨disk', file, hcopy, hopen, hw, hseek, hbytes⟩ := h.copy_spec unixFile hsize hcan fresh
    refine ⟨disk', hcopy, ?_⟩
    intro fresh' fuel hfuel
    have hlength : file.hdr.length = unixFile.data.length := by
      rw [← OpenFile.length_bytes disk', hbytes]
    have hstart : file.seekPosition = (min 0 file.hdr.length : Nat) := by
      rw [hseek, Nat.zero_min]
      rfl
    have hprint := printLoop_eq hw disk' hstart (fresh' 1 0)
      (show file.hdr.length < 0 + fuel by omega) (by omega)
    simp only [FileSystem.print, hopen, Option.bind_eq_bind, Option.bind_some, hprint]
    rw [hbytes, List.drop_zero]
  · intro fresh file hopen requests hsize
    rcases h.openFile_spec fresh name with ⟨-, hnone⟩ | ⟨i, t, hidx, ht, hopen'⟩
    · rw [hnone] at hopen
      cases hopen
    · obtain rfl := Option.some.inj (Option.some.inj (hopen'.symm.trans hopen))
      obtain ⟨file', disk', hrun, hbytes, hreopen⟩ := h.filled hidx ht requests hsize
      refine ⟨file', disk', hrun, hreopen, ?_⟩
      intro calls hint
      have hiff := OpenFile.readAll_new_iff (h.wellFormed _ t ht) disk' calls hint
      rw [hbytes] at hiff
      exact hiff

def threeBytes : UnixFile where
  data := [1, 2, 3]
  chunks := [[1, 2], [3]]
  whole := rfl
  nonempty := by decide
  short := by decide

theorem copy_print_identity_threeBytes :
    ∃ fs disk disk', FileSystem.new (fun _ _ => 0) (fun _ _ => 0) true = some (fs, disk) ∧
      fs.copy disk (fun _ _ _ => 7) (some threeBytes) (letter 97) = some disk' ∧
      fs.print disk' (fun _ _ _ => 9) 4 (letter 97) = some (some [1, 2, 3]) := by
  obtain ⟨fs, disk, hnew, hinv, hcan⟩ := FileSystem.new_format (fun _ _ => 0) (fun _ _ => 0)
  obtain ⟨hcopied, -⟩ := copy_print_identity hinv (letter 97)
  obtain ⟨disk', hcopy, hprint⟩ := hcopied threeBytes (by decide) (hcan _ _ (by decide))
    fun _ _ _ => 7
  exact ⟨fs, disk, disk', hnew, hcopy, hprint _ 4 (by decide)⟩

/-- A file of 200 bytes is written at once and read with requests for 1 and for 2147483647
bytes. The second is not answered with the 199 bytes that are left. -/
theorem not_copy_print_identity :
    ∃ fs disk disk₁ file file' disk₂,
      FileSystem.new (fun _ _ => 0) (fun _ _ => 0) true = some (fs, disk) ∧
      fs.create disk (fun _ _ => 0) (letter 97) 200 = some (true, disk₁) ∧
      fs.openFile disk₁ (fun _ _ => 0) (letter 97) = some (some file) ∧
      file.writeAll disk₁ [⟨fun _ => 0, fun _ => 5, 200⟩] = some (file', disk₂) ∧
      fs.openFile disk₂ (fun _ _ => 0) (letter 97) = some (some file) ∧
      OpenFile.readAll disk₂ file [(fun _ => 0, 1), (fun _ => 0, 2147483647)] ≠
        some [(1, [5]), (199, List.replicate 199 5)] := by
  obtain ⟨fs, disk, hnew, hinv, hcan⟩ := FileSystem.new_format (fun _ _ => 0) (fun _ _ => 0)
  have hroom := hcan (letter 97) 200 (by decide)
  obtain ⟨i, t, hdr, disk₁, hok, hsized, hc⟩ := hinv.create_ok (fun _ _ => 0)
    (show -2 ^ 31 ≤ (200 : Int) by decide) (by decide) hroom
  have hinv₁ := hc.inv hinv
  have hidx := hc.findIndex_self hroom.absent
  have hlength : (disk₁.header t).length = 200 := (hc.header_eq hsized).1.length
  obtain ⟨file', disk₂, hrun, hbytes, hreopen⟩ := hinv₁.filled hidx hc.headerSector_self
    [⟨fun _ => 0, fun _ => 5, 200⟩] hlength.symm
  refine ⟨fs, disk, disk₁, _, file', disk₂, hnew, hok,
    hinv₁.openFile_of_index hidx hc.headerSector_self _, hrun, hreopen _, ?_⟩
  intro hread
  have hiff := OpenFile.readAll_new_iff (hc.header_eq hsized).2.1 disk₂
    [(fun _ => 0, 1), (fun _ => 0, 2147483647)] (by simp)
  rw [hbytes] at hiff
  have hsecond := (hiff.mp hread).2.1
  rw [hlength] at hsecond
  exact absurd (hsecond (by decide)) (by decide)

end Nachos

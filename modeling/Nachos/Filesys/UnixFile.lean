import Nachos.Filesys.Refinement
import Nachos.Machine.DiskFile

/-!
# The file system in the UNIX file

Every call of the file system changes the disk by requests for single sectors. The same requests
change the UNIX file, so the file has all that the next start of Nachos needs.
-/

namespace Nachos

open Framework

/-! ## Sequences of requests -/

def Disk.writeAll (disk : Disk) (writes : List (Int × Image)) : Option Disk :=
  writes.foldlM (fun disk w => disk.writeSector w.1 w.2) disk

def HostFile.writeAll (f : HostFile) (writes : List (Int × Image)) : Option HostFile :=
  writes.foldlM (fun f w => writeRequest f w.1 w.2) f

namespace Disk

variable {disk disk' disk'' : Disk} {requests : Option (List (Int × Image))}

def Issues (disk : Disk) (requests : Option (List (Int × Image))) (disk' : Disk) : Prop :=
  ∃ writes, requests = some writes ∧ disk.writeAll writes = some disk'

theorem Issues.nil (disk : Disk) : disk.Issues (some []) disk := ⟨[], rfl, rfl⟩

theorem writeAll_append {writes writes' : List (Int × Image)}
    (h : disk.writeAll writes = some disk') (h' : disk'.writeAll writes' = some disk'') :
    disk.writeAll (writes ++ writes') = some disk'' := by
  rw [writeAll] at h
  rw [writeAll, List.foldlM_append, h]
  exact h'

private theorem writeAll_singleton {sectorNumber : Int} {data : Image}
    (h : disk.writeSector sectorNumber data = some disk') :
    disk.writeAll [(sectorNumber, data)] = some disk' := by
  rw [writeAll, List.foldlM_cons, h]
  rfl

end Disk

private theorem reachable_writeAll {f : HostFile} {disk disk' : Disk}
    (hr : diskFileSystem.Reachable (some f, disk)) (writes : List (Int × Image))
    (hdisk : disk.writeAll writes = some disk') :
    ∃ f', f.writeAll writes = some f' ∧ diskFileSystem.Reachable (some f', disk') := by
  induction writes generalizing f disk with
  | nil =>
    obtain rfl : disk = disk' := Option.some.inj hdisk
    exact ⟨f, rfl, hr⟩
  | cons w writes ih =>
    rw [Disk.writeAll, List.foldlM_cons] at hdisk
    obtain ⟨disk₁, hfirst, hrest⟩ := Option.bind_eq_some_iff.mp hdisk
    have hstores : f.Stores disk := diskFileInv_inductive.of_reachable hr
    obtain ⟨-, hnone⟩ | ⟨f₁, disk₂, hfile, hsome, -⟩ := hstores.writeRequest w.1 w.2
    · rw [hnone] at hfirst
      cases hfirst
    · have hstep : diskFileSystem.Reachable (some f₁, disk₁) := by
        refine .step (l := .write w.1 w.2) hr ⟨f₁, hfile, ?_⟩
        rw [hfirst]
        rfl
      obtain ⟨f', hfiles, hr'⟩ := ih hstep hrest
      refine ⟨f', ?_, hr'⟩
      rw [HostFile.writeAll, List.foldlM_cons, hfile]
      exact hfiles

/-! ## The requests of each call

The statements of the calls once more, with the requests for sectors in the order in which they are
made. -/

namespace OpenFile

/-- The requests of the first `n` rounds of the loop that writes sectors. -/
def sectorRequests (hdr : FileHeader) (firstSector : Int) (buf : Image) :
    Nat → Option (List (Int × Image))
  | 0 => some []
  | n + 1 => do
    let writes ← sectorRequests hdr firstSector buf n
    let sector ← hdr.byteToSector ((firstSector + n) * sectorSize)
    some (writes ++ [(sector, fun a => buf (n * sectorSize + a))])

def writeAtRequests (f : OpenFile) (disk : Disk) (fresh source : Image)
    (numBytes position : Int) : Option (List (Int × Image)) :=
  let fileLength := f.hdr.fileLength
  if numBytes ≤ 0 ∨ fileLength ≤ position then some []
  else
    let numBytes := clip fileLength numBytes position
    let firstSector := divRoundDown position sectorSize
    let lastSector := divRoundDown (int32 (position + numBytes - 1)) sectorSize
    let numSectors := 1 + lastSector - firstSector
    let start := position - firstSector * sectorSize
    let firstAligned : Bool := position = firstSector * sectorSize
    let lastAligned := lastAligned numBytes position lastSector
    if numSectors < 0 then none
    else do
      let buf ← f.preRead disk fresh 0 firstSector (!firstAligned)
      let buf ← f.preRead disk buf ((lastSector - firstSector) * sectorSize).toNat lastSector
        (!lastAligned && (firstSector != lastSector || firstAligned))
      if 0 ≤ start ∧ 0 ≤ numBytes ∧ start + numBytes ≤ numSectors * sectorSize then
        let buf := buf.blit start.toNat source numBytes.toNat
        sectorRequests f.hdr firstSector buf numSectors.toNat
      else none

end OpenFile

def Bitmap.writeBackRequests (b : Bitmap) (file : OpenFile) (disk : Disk) (fresh : Image) :
    Option (List (Int × Image)) :=
  file.writeAtRequests disk fresh b.map ((b.numWords * 4 : Nat) : Int) 0

def Directory.writeBackRequests (d : Directory) (file : OpenFile) (disk : Disk) (fresh : Image) :
    Option (List (Int × Image)) :=
  file.writeAtRequests disk fresh d.table ((d.tableSize * entrySize : Nat) : Int) 0

namespace FileSystem

def newRequests (disk : Disk) (fresh : Nat → Image) (format : Bool) :
    Option (List (Int × Image)) :=
  if format then do
    let freeMap ← Bitmap.new (fresh 0) Disk.numSectors
    let directory := Directory.new (fresh 1) numDirEntries
    let freeMap ← freeMap.mark freeMapSector
    let freeMap ← freeMap.mark directorySector
    let (mapOk, mapHdr, freeMap) ← FileHeader.allocate ⟨fresh 2⟩ freeMap freeMapFileSize
    if mapOk then
      let (dirOk, dirHdr, freeMap) ← FileHeader.allocate ⟨fresh 3⟩ freeMap directoryFileSize
      if dirOk then
        let disk ← mapHdr.writeBack disk freeMapSector
        let disk ← dirHdr.writeBack disk directorySector
        let fs ← openFiles disk
        let mapWrites ← freeMap.writeBackRequests fs.freeMapFile disk (fresh 4)
        let disk ← freeMap.writeBack fs.freeMapFile disk (fresh 4)
        let directoryWrites ← directory.writeBackRequests fs.directoryFile disk (fresh 5)
        some ((freeMapSector, mapHdr.image) :: (directorySector, dirHdr.image) ::
          (mapWrites ++ directoryWrites))
      else none
    else none
  else some []

def createRequests (fs : FileSystem) (disk : Disk) (fresh : Nat → Image) (name : Image)
    (initialSize : Int) : Option (List (Int × Image)) := do
  let directory ← (Directory.new (fresh 0) numDirEntries).fetchFrom fs.directoryFile disk
  if directory.find name ≠ -1 then some []
  else
    let freeMap ← Bitmap.ofFile (fresh 1) fs.freeMapFile disk Disk.numSectors
    let (sector, freeMap) ← freeMap.findAndSet
    if sector = -1 then some []
    else
      let (added, directory) := directory.add name sector
      if added then
        let (allocated, hdr, freeMap) ← FileHeader.allocate ⟨fresh 2⟩ freeMap initialSize
        if allocated then
          let disk ← hdr.writeBack disk sector
          let directoryWrites ← directory.writeBackRequests fs.directoryFile disk (fresh 3)
          let disk ← directory.writeBack fs.directoryFile disk (fresh 3)
          let mapWrites ← freeMap.writeBackRequests fs.freeMapFile disk (fresh 4)
          some ((sector, hdr.image) :: (directoryWrites ++ mapWrites))
        else some []
      else some []

def removeRequests (fs : FileSystem) (disk : Disk) (fresh : Nat → Image) (name : Image) :
    Option (List (Int × Image)) := do
  let directory ← (Directory.new (fresh 0) numDirEntries).fetchFrom fs.directoryFile disk
  let sector := directory.find name
  if sector = -1 then some []
  else
    let fileHdr ← FileHeader.fetchFrom disk sector
    let freeMap ← Bitmap.ofFile (fresh 1) fs.freeMapFile disk Disk.numSectors
    let freeMap ← fileHdr.deallocate freeMap
    let freeMap ← freeMap.clear sector
    let (_, directory) := directory.remove name
    let mapWrites ← freeMap.writeBackRequests fs.freeMapFile disk (fresh 2)
    let disk ← freeMap.writeBack fs.freeMapFile disk (fresh 2)
    let directoryWrites ← directory.writeBackRequests fs.directoryFile disk (fresh 3)
    some (mapWrites ++ directoryWrites)

end FileSystem

namespace Session

/-- The requests of a call. `Open`, `Seek` and the reads make none. -/
def requests (s : Session) (fresh : Nat → Image) : FileCall → Option (List (Int × Image))
  | .call (.create name initialSize) => s.fs.createRequests s.disk fresh name initialSize
  | .call (.remove name) => s.fs.removeRequests s.disk fresh name
  | .call (.writeAt k source numBytes position) => do
    let h ← s.handles[k]?
    h.file.writeAtRequests s.disk (fresh 0) source numBytes position
  | .write k source numBytes => do
    let h ← s.handles[k]?
    h.file.writeAtRequests s.disk (fresh 0) source numBytes h.file.seekPosition
  | .mount => FileSystem.newRequests s.disk fresh false
  | _ => some []

def requestRuns : System (Session × List (Int × Image)) (FileCall × Reply) where
  init p := system.init p.1
  step p l p' := p.1.volume.Allowed l.1 ∧ ∃ fresh writes, p.1.reply fresh l.1 = some l.2 ∧
    p.1.perform fresh l.1 = some p'.1 ∧ p.1.requests fresh l.1 = some writes ∧
    p'.2 = p.2 ++ writes

end Session

/-! ## The requests make the changes -/

variable {disk disk' : Disk}

namespace OpenFile

private theorem sectorRequests_issued {hdr : FileHeader} {firstSector : Int} {buf : Image} {n : Nat}
    (h : writeSectors hdr disk firstSector buf n = some disk') :
    disk.Issues (sectorRequests hdr firstSector buf n) disk' := by
  induction n generalizing disk' with
  | zero =>
    obtain rfl : disk = disk' := Option.some.inj h
    exact .nil disk
  | succ n ih =>
    obtain ⟨disk₁, hfirst, hrest⟩ := Option.bind_eq_some_iff.mp h
    obtain ⟨sector, hsector, hlast⟩ := Option.bind_eq_some_iff.mp hrest
    obtain ⟨writes, hwrites, hall⟩ := ih hfirst
    refine ⟨writes ++ [(sector, fun a => buf (n * sectorSize + a))], ?_, ?_⟩
    · simp only [sectorRequests, hwrites, hsector, Option.bind_eq_bind, Option.bind_some]
    · exact Disk.writeAll_append hall (Disk.writeAll_singleton hlast)

private theorem writeAtRequests_issued {f : OpenFile} {fresh source : Image}
    {numBytes position result : Int}
    (h : f.writeAt disk fresh source numBytes position = some (result, disk')) :
    disk.Issues (f.writeAtRequests disk fresh source numBytes position) disk' := by
  dsimp only [writeAt] at h
  dsimp only [writeAtRequests]
  split at h
  next hrefused =>
    cases h
    rw [if_pos hrefused]
    exact .nil disk
  next hgo =>
    rw [if_neg hgo]
    split at h
    next => cases h
    next hsectors =>
      rw [if_neg hsectors]
      obtain ⟨buf, hbuf, h⟩ := Option.bind_eq_some_iff.mp h
      obtain ⟨buf', hbuf', h⟩ := Option.bind_eq_some_iff.mp h
      simp only [hbuf, hbuf', Option.bind_eq_bind, Option.bind_some]
      split at h
      next hbound =>
        obtain ⟨disk₁, hwritten, h⟩ := Option.bind_eq_some_iff.mp h
        cases h
        rw [if_pos hbound]
        exact sectorRequests_issued hwritten
      next => cases h

end OpenFile

private theorem Bitmap.writeBackRequests_issued {b : Bitmap} {file : OpenFile} {fresh : Image}
    (h : b.writeBack file disk fresh = some disk') :
    disk.Issues (b.writeBackRequests file disk fresh) disk' := by
  obtain ⟨⟨result, disk₁⟩, hwrite, h⟩ := Option.bind_eq_some_iff.mp h
  cases h
  exact OpenFile.writeAtRequests_issued hwrite

private theorem Directory.writeBackRequests_issued {d : Directory} {file : OpenFile} {fresh : Image}
    (h : d.writeBack file disk fresh = some disk') :
    disk.Issues (d.writeBackRequests file disk fresh) disk' := by
  obtain ⟨⟨result, disk₁⟩, hwrite, h⟩ := Option.bind_eq_some_iff.mp h
  cases h
  exact OpenFile.writeAtRequests_issued hwrite

private theorem FileHeader.writeBack_issued {hdr : FileHeader} {sector : Int}
    (h : hdr.writeBack disk sector = some disk') :
    disk.writeAll [(sector, hdr.image)] = some disk' :=
  Disk.writeAll_singleton h

namespace FileSystem

variable {fs : FileSystem} {fresh : Nat → Image} {name : Image}

private theorem newRequests_issued {format : Bool} (h : new disk fresh format = some (fs, disk')) :
    disk.Issues (newRequests disk fresh format) disk' := by
  unfold new at h
  unfold newRequests
  split at h
  next hformat =>
    rw [if_pos hformat]
    obtain ⟨freeMap, hnew, h⟩ := Option.bind_eq_some_iff.mp h
    obtain ⟨freeMap₁, hmark, h⟩ := Option.bind_eq_some_iff.mp h
    obtain ⟨freeMap₂, hmark', h⟩ := Option.bind_eq_some_iff.mp h
    obtain ⟨⟨mapOk, mapHdr, freeMap₃⟩, hmapAlloc, h⟩ := Option.bind_eq_some_iff.mp h
    simp only [hnew, hmark, hmark', hmapAlloc, Option.bind_eq_bind, Option.bind_some]
    dsimp only at h
    split at h
    next hmapOk =>
      rw [if_pos hmapOk]
      obtain ⟨⟨dirOk, dirHdr, freeMap₄⟩, hdirAlloc, h⟩ := Option.bind_eq_some_iff.mp h
      simp only [hdirAlloc, Option.bind_some]
      dsimp only at h
      split at h
      next hdirOk =>
        rw [if_pos hdirOk]
        obtain ⟨disk₁, hmapHdr, h⟩ := Option.bind_eq_some_iff.mp h
        obtain ⟨disk₂, hdirHdr, h⟩ := Option.bind_eq_some_iff.mp h
        obtain ⟨fs₁, hfs, h⟩ := Option.bind_eq_some_iff.mp h
        obtain ⟨disk₃, hmap, h⟩ := Option.bind_eq_some_iff.mp h
        obtain ⟨disk₄, hdir, h⟩ := Option.bind_eq_some_iff.mp h
        cases h
        obtain ⟨mapWrites, hmapWrites, hmapAll⟩ := Bitmap.writeBackRequests_issued hmap
        obtain ⟨dirWrites, hdirWrites, hdirAll⟩ := Directory.writeBackRequests_issued hdir
        have hheaders := Disk.writeAll_append (FileHeader.writeBack_issued hmapHdr)
          (FileHeader.writeBack_issued hdirHdr)
        refine ⟨_, ?_, Disk.writeAll_append hheaders (Disk.writeAll_append hmapAll hdirAll)⟩
        rw [hmapHdr, Option.bind_some, hdirHdr, Option.bind_some, hfs, Option.bind_some,
          hmapWrites, Option.bind_some, hmap, Option.bind_some, hdirWrites, Option.bind_some]
        rfl
      next => cases h
    next => cases h
  next hformat =>
    obtain ⟨fs₁, -, h⟩ := Option.bind_eq_some_iff.mp h
    cases h
    rw [if_neg hformat]
    exact .nil disk

private theorem createRequests_issued {initialSize : Int} {success : Bool}
    (h : fs.create disk fresh name initialSize = some (success, disk')) :
    disk.Issues (fs.createRequests disk fresh name initialSize) disk' := by
  obtain ⟨directory, hfetch, h⟩ := Option.bind_eq_some_iff.mp h
  rw [createRequests, hfetch, Option.bind_eq_bind, Option.bind_some]
  split at h
  next hfound =>
    cases h
    rw [if_pos hfound]
    exact .nil disk
  next hfound =>
    rw [if_neg hfound]
    obtain ⟨freeMap, hmap, h⟩ := Option.bind_eq_some_iff.mp h
    obtain ⟨⟨sector, freeMap₁⟩, hset, h⟩ := Option.bind_eq_some_iff.mp h
    simp only [hmap, hset, Option.bind_eq_bind, Option.bind_some]
    dsimp only at h ⊢
    split at h
    next hfull =>
      cases h
      rw [if_pos hfull]
      exact .nil disk
    next hfull =>
      rw [if_neg hfull]
      split at h
      next hadded =>
        rw [if_pos hadded]
        obtain ⟨⟨allocated, hdr, freeMap₂⟩, halloc, h⟩ := Option.bind_eq_some_iff.mp h
        simp only [halloc, Option.bind_some]
        dsimp only at h
        split at h
        next hallocated =>
          rw [if_pos hallocated]
          obtain ⟨disk₁, hhdr, h⟩ := Option.bind_eq_some_iff.mp h
          obtain ⟨disk₂, hdir, h⟩ := Option.bind_eq_some_iff.mp h
          obtain ⟨disk₃, hback, h⟩ := Option.bind_eq_some_iff.mp h
          cases h
          obtain ⟨dirWrites, hdirWrites, hdirAll⟩ := Directory.writeBackRequests_issued hdir
          obtain ⟨mapWrites, hmapWrites, hmapAll⟩ := Bitmap.writeBackRequests_issued hback
          refine ⟨_, ?_, Disk.writeAll_append (FileHeader.writeBack_issued hhdr)
            (Disk.writeAll_append hdirAll hmapAll)⟩
          simp only [hhdr, hdirWrites, hdir, hmapWrites, Option.bind_some, List.cons_append,
            List.nil_append]
        next hallocated =>
          cases h
          rw [if_neg hallocated]
          exact .nil disk
      next hadded =>
        cases h
        rw [if_neg hadded]
        exact .nil disk

private theorem removeRequests_issued {success : Bool}
    (h : fs.remove disk fresh name = some (success, disk')) :
    disk.Issues (fs.removeRequests disk fresh name) disk' := by
  obtain ⟨directory, hfetch, h⟩ := Option.bind_eq_some_iff.mp h
  rw [removeRequests, hfetch, Option.bind_eq_bind, Option.bind_some]
  dsimp only at h ⊢
  split at h
  next hnone =>
    cases h
    rw [if_pos hnone]
    exact .nil disk
  next hnone =>
    rw [if_neg hnone]
    obtain ⟨fileHdr, hhdr, h⟩ := Option.bind_eq_some_iff.mp h
    obtain ⟨freeMap, hmap, h⟩ := Option.bind_eq_some_iff.mp h
    obtain ⟨freeMap₁, hdeallocate, h⟩ := Option.bind_eq_some_iff.mp h
    obtain ⟨freeMap₂, hclear, h⟩ := Option.bind_eq_some_iff.mp h
    obtain ⟨disk₁, hback, h⟩ := Option.bind_eq_some_iff.mp h
    obtain ⟨disk₂, hdir, h⟩ := Option.bind_eq_some_iff.mp h
    cases h
    obtain ⟨mapWrites, hmapWrites, hmapAll⟩ := Bitmap.writeBackRequests_issued hback
    obtain ⟨dirWrites, hdirWrites, hdirAll⟩ := Directory.writeBackRequests_issued hdir
    refine ⟨_, ?_, Disk.writeAll_append hmapAll hdirAll⟩
    simp only [hhdr, hmap, hdeallocate, hclear, hmapWrites, hback, hdirWrites,
      Option.bind_eq_bind, Option.bind_some]

end FileSystem

namespace Session

variable {s s' : Session} {fresh : Nat → Image}

private theorem requests_issued {c : FileCall} (h : s.perform fresh c = some s') :
    s.disk.Issues (s.requests fresh c) s'.disk := by
  cases c with
  | call c =>
    cases c with
    | create name initialSize =>
      obtain ⟨⟨success, disk₁⟩, hcreate, h⟩ := Option.bind_eq_some_iff.mp h
      cases h
      exact FileSystem.createRequests_issued hcreate
    | openFile name =>
      obtain ⟨opened, -, h⟩ := Option.bind_eq_some_iff.mp h
      cases opened with
      | none =>
        cases h
        exact .nil s.disk
      | some file =>
        cases h
        exact .nil s.disk
    | remove name =>
      obtain ⟨⟨success, disk₁⟩, hremove, h⟩ := Option.bind_eq_some_iff.mp h
      dsimp only at h
      split at h
      · cases h
        exact FileSystem.removeRequests_issued hremove
      · cases h
        exact FileSystem.removeRequests_issued hremove
    | readAt k into numBytes position =>
      obtain ⟨hd, -, h⟩ := Option.bind_eq_some_iff.mp h
      obtain ⟨r, -, h⟩ := Option.bind_eq_some_iff.mp h
      cases h
      exact .nil s.disk
    | writeAt k source numBytes position =>
      obtain ⟨hd, hk, h⟩ := Option.bind_eq_some_iff.mp h
      obtain ⟨⟨result, disk₁⟩, hwrite, h⟩ := Option.bind_eq_some_iff.mp h
      cases h
      rw [requests, hk]
      exact OpenFile.writeAtRequests_issued hwrite
  | seek k position =>
    obtain ⟨hd, -, h⟩ := Option.bind_eq_some_iff.mp h
    cases h
    exact .nil s.disk
  | read k into numBytes =>
    obtain ⟨hd, -, h⟩ := Option.bind_eq_some_iff.mp h
    obtain ⟨r, -, h⟩ := Option.bind_eq_some_iff.mp h
    cases h
    exact .nil s.disk
  | write k source numBytes =>
    obtain ⟨hd, hk, h⟩ := Option.bind_eq_some_iff.mp h
    obtain ⟨⟨result, disk₁, file⟩, hwrite, h⟩ := Option.bind_eq_some_iff.mp h
    obtain ⟨⟨result', disk₂⟩, hwriteAt, hwrite⟩ := Option.bind_eq_some_iff.mp hwrite
    cases hwrite
    cases h
    rw [requests, hk]
    exact OpenFile.writeAtRequests_issued hwriteAt
  | mount =>
    rw [perform] at h
    obtain ⟨⟨fs, disk₁⟩, hnew, h⟩ := Option.bind_eq_some_iff.mp h
    cases h
    exact FileSystem.newRequests_issued hnew

theorem requestRuns_refines : requestRuns.Refines volumeRuns Prod.fst fun _ => True where
  invariant := ⟨fun _ _ => trivial, fun _ _ _ _ _ => trivial⟩
  init _ h := h
  step := by
    rintro p l p' - ⟨ha, fresh, writes, hreply, hperform, -, -⟩
    exact ⟨ha, fresh, hreply, hperform⟩

private theorem exists_requests {ls : List (FileCall × Reply)} (hrun : volumeRuns.Trace s ls s')
    (writes : List (Int × Image)) :
    ∃ writes', requestRuns.Trace (s, writes) ls (s', writes') := by
  induction hrun with
  | nil => exact ⟨writes, .nil _⟩
  | step _ hstep ih =>
    obtain ⟨writes₁, hlogged⟩ := ih
    obtain ⟨ha, fresh, hreply, hperform⟩ := hstep
    obtain ⟨more, hmore, -⟩ := requests_issued hperform
    exact ⟨writes₁ ++ more, hlogged.step ⟨ha, fresh, more, hreply, hperform, hmore, rfl⟩⟩

private theorem writeAll_requests {disk : Disk} {p p' : Session × List (Int × Image)}
    {ls : List (FileCall × Reply)} (hstart : disk.writeAll p.2 = some p.1.disk)
    (hrun : requestRuns.Trace p ls p') : disk.writeAll p'.2 = some p'.1.disk := by
  induction hrun with
  | nil => exact hstart
  | step _ hstep ih =>
    obtain ⟨-, fresh, writes, -, hperform, hwrites, hlog⟩ := hstep
    obtain ⟨writes', hwrites', hall⟩ := requests_issued hperform
    obtain rfl := Option.some.inj (hwrites.symm.trans hwrites')
    rw [hlog]
    exact Disk.writeAll_append ih hall

end Session

/-- The disk is formatted and used, and the UNIX file gets the requests that this makes. Then the
file is accepted, its sectors are those of the disk, and when Nachos is started on it again every
file is there as it was, with none open. -/
theorem unix_file_keeps_volume {f₀ : HostFile} {disk₀ disk : Disk} {fs : FileSystem}
    {fresh : Nat → Image} {formatWrites writes : List (Int × Image)}
    {ls : List (FileCall × Reply)} {s : Session}
    (hfile : diskFileSystem.Reachable (some f₀, disk₀))
    (hnew : FileSystem.new disk₀ fresh true = some (fs, disk))
    (hformat : FileSystem.newRequests disk₀ fresh true = some formatWrites)
    (hrun : Session.requestRuns.Trace (⟨disk, fs, []⟩, formatWrites) ls (s, writes)) :
    disk₀.writeAll writes = some s.disk ∧ ∃ f, f₀.writeAll writes = some f ∧
      diskFileSystem.Reachable (some f, s.disk) ∧ openDisk (some f) = some f ∧
      f.sectors = s.disk ∧ volumeSystem.Trace .empty ls s.volume ∧
      ∀ fresh', ∃ fs', FileSystem.new f.sectors fresh' false = some (fs', f.sectors) ∧
        (⟨f.sectors, fs', []⟩ : Session).volume = { s.volume with opened := [] } := by
  obtain ⟨writes₀, hwrites₀, hall⟩ := FileSystem.newRequests_issued hnew
  obtain rfl := Option.some.inj (hformat.symm.trans hwrites₀)
  have hwrites : disk₀.writeAll writes = some s.disk := Session.writeAll_requests hall hrun
  obtain ⟨f, hfiles, hreach⟩ := reachable_writeAll hfile writes hwrites
  have hstores : f.Stores s.disk := diskFileInv_inductive.of_reachable hreach
  have h₀ : Session.system.init ⟨disk, fs, []⟩ := ⟨rfl, disk₀, fresh, hnew⟩
  have hlogged : Session.requestRuns.init (⟨disk, fs, []⟩, formatWrites) := h₀
  have hcalls := Session.requestRuns_refines.trace hlogged hrun
  have htrace := (file_system_refines_volume h₀ hcalls).1
  refine ⟨hwrites, f, hfiles, hreach, hstores.openDisk, hstores.sectors, htrace, ?_⟩
  intro fresh'
  rw [hstores.sectors]
  refine ⟨FileSystem.opened s.disk, ?_, rfl⟩
  simp only [FileSystem.new, FileSystem.openFiles_eq, Bool.false_eq_true, if_false,
    Option.bind_eq_bind, Option.bind_some]

/-- The file `a` is created on a disk whose UNIX file was made by the first start. -/
theorem unix_file_keeps_volume_create : ∃ f r v fs, openDisk (some f) = some f ∧
    volumeSystem.Trace .empty [(.call (.create (letter 97) 200), r)] v ∧
      FileSystem.new f.sectors (fun _ _ => 0) false = some (fs, f.sectors) ∧
        (⟨f.sectors, fs, []⟩ : Session).volume = { v with opened := [] } := by
  obtain ⟨f₀, hopen₀, -⟩ := openDisk_none
  have hfile : diskFileSystem.Reachable (some f₀, fun _ _ => 0) :=
    .step (l := .start) (.init rfl) ⟨f₀, hopen₀, rfl⟩
  obtain ⟨fs, disk, hnew, hinv, -⟩ := FileSystem.new_format (fun _ _ => 0) (fun _ _ => 0)
  let s₀ : Session := ⟨disk, fs, []⟩
  have ha : s₀.volume.Allowed (.call (.create (letter 97) 200)) := by
    change (0 : Int) ≤ 200 ∧ (200 : Int) ≤ maxFileSize
    decide
  have hstart := Session.inv_inductive.init s₀ ⟨rfl, _, _, hnew⟩
  obtain ⟨r, s, hcreate⟩ := hstart.serves (fun _ _ => 0) ha
  have hrun : Session.volumeRuns.Trace s₀ [(.call (.create (letter 97) 200), r)] s :=
    (System.Trace.nil s₀).step ⟨ha, _, hcreate.reply, hcreate.perform⟩
  obtain ⟨formatWrites, hformat, -⟩ := FileSystem.newRequests_issued hnew
  obtain ⟨writes, hlogged⟩ := Session.exists_requests hrun formatWrites
  obtain ⟨-, f, -, -, hopen, -, htrace, hmount⟩ :=
    unix_file_keeps_volume hfile hnew hformat hlogged
  obtain ⟨fs', hnew', hvolume⟩ := hmount fun _ _ => 0
  exact ⟨f, r, s.volume, fs', hopen, htrace, hnew', hvolume⟩

end Nachos

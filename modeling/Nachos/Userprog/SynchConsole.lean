import Nachos.Threads.DeviceCalls
import Nachos.Filesys.FileHeader
import Nachos.Filesys.HostFile

/-!
# The synchronous disk and console

`SynchDisk` and `SynchConsoleOutput` are the same wrapper around two devices. The contents of the
disk are its sectors, those of the console the characters written so far.
-/

namespace Nachos

open Framework

inductive DiskRequest
  | read (sectorNumber : Int)
  | write (sectorNumber : Int) (data : Image)

/-- `Disk::ReadRequest` and `Disk::WriteRequest`; a read gives the bytes that go to the caller's
buffer. -/
def diskDevice : Device Disk DiskRequest (Option Image) where
  request disk
    | .read sectorNumber => (disk.readSector sectorNumber).map fun data => (disk, some data)
    | .write sectorNumber data => (disk.writeSector sectorNumber data).map fun d => (d, none)

/-- `ConsoleOutput::PutChar`. -/
def consoleDevice : Device (List Byte) Byte Unit where
  request written ch := some (written ++ [ch], ())

/-- `SynchDisk`: the wrapper around the disk, on which `disk` was found. -/
def synchDiskSystem (disk : Disk) :
    System (SynchDevice Disk DiskRequest (Option Image)) (DeviceLabel DiskRequest) :=
  deviceSystem diskDevice disk

/-- `SynchConsoleOutput`. -/
def synchConsoleSystem : System (SynchDevice (List Byte) Byte Unit) (DeviceLabel Byte) :=
  deviceSystem consoleDevice []

/-- What the latest of the requests wrote to a sector, else what was there at the start. -/
def latestWrite (disk : Disk) (sectorNumber : Int) : List DiskRequest → Image
  | [] => disk sectorNumber.toNat
  | .read _ :: rs => latestWrite disk sectorNumber rs
  | .write m data :: rs =>
    if m = sectorNumber then latestWrite (fun _ => data) sectorNumber rs
    else latestWrite disk sectorNumber rs

private theorem latestWrite_congr {disk disk' : Disk} {sectorNumber : Int} (rs : List DiskRequest)
    (h : Image.AgreeTo sectorSize (disk sectorNumber.toNat) (disk' sectorNumber.toNat)) :
    Image.AgreeTo sectorSize (latestWrite disk sectorNumber rs)
      (latestWrite disk' sectorNumber rs) := by
  induction rs generalizing disk disk' with
  | nil => exact h
  | cons r rs ih =>
    cases r with
    | read m => exact ih h
    | write m data =>
      simp only [latestWrite]
      split
      next => exact ih fun _ _ => rfl
      next => exact ih h

private theorem diskDevice_run {disk disk' : Disk} {rs : List DiskRequest}
    {bs : List (Option Image)} (h : diskDevice.run disk rs = some (disk', bs)) {sectorNumber : Int}
    (hn : 0 ≤ sectorNumber) :
    Image.AgreeTo sectorSize (disk' sectorNumber.toNat) (latestWrite disk sectorNumber rs) := by
  induction rs generalizing disk bs with
  | nil =>
    obtain ⟨rfl, -⟩ := Prod.mk.inj (Option.some.inj h)
    exact fun _ _ => rfl
  | cons r rs ih =>
    obtain ⟨⟨disk₁, b⟩, hreq, h⟩ := Option.bind_eq_some_iff.mp h
    obtain ⟨⟨disk₂, bs'⟩, hrun, h⟩ := Option.bind_eq_some_iff.mp h
    obtain ⟨rfl, -⟩ := Prod.mk.inj (Option.some.inj h)
    have hlast := ih hrun
    cases r with
    | read m =>
      obtain ⟨data, -, heq⟩ := Option.map_eq_some_iff.mp hreq
      obtain ⟨rfl, -⟩ := Prod.mk.inj heq
      exact hlast
    | write m data =>
      obtain ⟨disk₃, hwrite, heq⟩ := Option.map_eq_some_iff.mp hreq
      obtain ⟨rfl, -⟩ := Prod.mk.inj heq
      unfold Disk.writeSector at hwrite
      split at hwrite
      next hm =>
        obtain rfl := Option.some.inj hwrite
        apply hlast.trans
        simp only [latestWrite]
        split
        next hmn =>
          apply latestWrite_congr
          rw [hmn, Function.update_self]
          exact Image.blit_zero_agreeTo _ _ _
        next hmn =>
          have hne : sectorNumber.toNat ≠ m.toNat := by omega
          apply latestWrite_congr
          rw [Function.update_of_ne hne]
          exact fun _ _ => rfl
      next => contradiction

/-- Both wrappers give their device one request at a time, return a call after the interrupt of
its own request, and keep their semaphore at 0 when the lock is free; and every `ReadSector`
returns what the latest `WriteSector` before it, in the order of the lock, wrote. -/
theorem synch_devices_serialize :
    (∀ (disk : Disk) s, (synchDiskSystem disk).Reachable s →
      s.Serialized diskDevice disk ∧
      ∀ t sectorNumber k b, ((t, .read sectorNumber), k, b) ∈ s.returned →
        ∃ data, b = some data ∧ Image.AgreeTo sectorSize data
          (latestWrite disk sectorNumber ((s.acquired.take k).map Prod.snd))) ∧
    (∀ s, synchConsoleSystem.Reachable s → s.Serialized consoleDevice []) := by
  constructor
  · intro disk s hr
    have h := ((SynchDevice.inv_inductive diskDevice disk).of_reachable hr).serialized
    refine ⟨h, ?_⟩
    intro t sectorNumber k b hx
    obtain ⟨-, disk₁, disk₂, bs, hrun, hreq⟩ := h.results _ hx
    obtain ⟨data, hread, heq⟩ := Option.map_eq_some_iff.mp hreq
    obtain ⟨-, rfl⟩ := Prod.mk.inj heq
    unfold Disk.readSector at hread
    split at hread
    next hn =>
      obtain rfl := Option.some.inj hread
      exact ⟨_, rfl, diskDevice_run hrun hn.1⟩
    next => contradiction
  · intro s hr
    exact ((SynchDevice.inv_inductive consoleDevice []).of_reachable hr).serialized

/-- Thread 1 writes a sector; thread 0 calls `ReadSector` in the meantime, sleeps in `Acquire`
until the lock is released, and reads the sector. -/
def writeThenRead : List (DeviceLabel DiskRequest) :=
  [.call 1 (.write 3 fun _ => 0x5a), .lock (.acquire 1), .lock (.assign 1), .request 1,
    .call 0 (.read 3), .lock (.acquire 0), .p 1, .interrupt 0, .p 1, .lock (.release 1),
    .lock (.v 1), .lock (.retest 0), .lock (.assign 0), .request 0, .interrupt 1, .p 0,
    .lock (.release 0), .lock (.v 0)]

theorem writeThenRead_runs :
    (writeThenRead.foldlM (SynchDevice.next diskDevice) (.new fun _ _ => 0)).isSome = true := by
  decide +kernel

def writeThenReadEnd : SynchDevice Disk DiskRequest (Option Image) :=
  (writeThenRead.foldlM (SynchDevice.next diskDevice) (.new fun _ _ => 0)).get writeThenRead_runs

/-- The second call in order is the `ReadSector` of thread 0. -/
def isSecondRead : (ThreadId × DiskRequest) × Nat × Option Image → Bool
  | ((0, .read sectorNumber), 1, _) => sectorNumber == 3
  | _ => false

private theorem isSecondRead_iff {x : (ThreadId × DiskRequest) × Nat × Option Image}
    (h : isSecondRead x = true) : ∃ b, x = ((0, .read 3), 1, b) := by
  unfold isSecondRead at h
  split at h
  next sectorNumber b =>
    obtain rfl : sectorNumber = 3 := by simpa using h
    exact ⟨b, rfl⟩
  next => contradiction

theorem synch_devices_serialize_read :
    ∃ data, (synchDiskSystem fun _ _ => 0).Reachable writeThenReadEnd ∧
      ((0, .read 3), 1, some data) ∈ writeThenReadEnd.returned ∧
      Image.AgreeTo sectorSize data fun _ => 0x5a := by
  have hr : (synchDiskSystem fun _ _ => 0).Reachable writeThenReadEnd :=
    .foldlM (fun _ _ _ => SynchDevice.next_step) writeThenRead (.init rfl)
      (Option.some_get writeThenRead_runs).symm
  have hany : writeThenReadEnd.returned.any isSecondRead = true := by decide +kernel
  have hlatest : Image.AgreeTo sectorSize
      (latestWrite (fun _ _ => 0) 3 ((writeThenReadEnd.acquired.take 1).map Prod.snd))
      fun _ => 0x5a := by
    unfold Image.AgreeTo
    decide +kernel
  obtain ⟨x, hx, hread⟩ := List.any_eq_true.mp hany
  obtain ⟨b, rfl⟩ := isSecondRead_iff hread
  obtain ⟨data, rfl, hagree⟩ := (synch_devices_serialize.1 _ _ hr).2 0 3 1 b hx
  exact ⟨data, hr, hx, hagree.trans hlatest⟩

/-! ## Calls end -/

def DiskRequest.sectorNumber : DiskRequest → Int
  | .read sectorNumber | .write sectorNumber _ => sectorNumber

private theorem diskDevice_request_none (disk : Disk) (r : DiskRequest) :
    diskDevice.request disk r = none ↔
      ¬ (0 ≤ r.sectorNumber ∧ r.sectorNumber < (Disk.numSectors : Int)) := by
  cases r with
  | read m => simp [diskDevice, DiskRequest.sectorNumber, Disk.readSector]
  | write m data => simp [diskDevice, DiskRequest.sectorNumber, Disk.writeSector]

/-- A call of `ReadSector`, `WriteSector` or `PutChar` that is in progress comes to its end in a
number of steps that is bounded when no others come, and is never stuck before that. Only a sector
that is not on the disk is refused. -/
theorem synch_devices_end :
    ((∀ disk, SynchDevice.CallsEnd diskDevice disk) ∧
      ∀ s : SynchDevice Disk DiskRequest (Option Image), s.Refused diskDevice ↔
        ∃ t r, s.pc t = .acquire r ∧ s.lock.pc t = .holding ∧
          ¬ (0 ≤ r.sectorNumber ∧ r.sectorNumber < (Disk.numSectors : Int))) ∧
    (SynchDevice.CallsEnd consoleDevice [] ∧
      ∀ s : SynchDevice (List Byte) Byte Unit, ¬ s.Refused consoleDevice) := by
  refine ⟨⟨SynchDevice.callsEnd diskDevice, ?_⟩, SynchDevice.callsEnd consoleDevice [], ?_⟩
  · intro s
    simp only [SynchDevice.Refused, diskDevice_request_none]
  · rintro s ⟨t, ch, -, -, hnone⟩
    cases hnone

end Nachos

import Nachos.Framework.Refinement
import Nachos.Machine.DiskFile
import Nachos.Userprog.SynchConsole

/-!
# The synchronous disk on the UNIX file

The device under `SynchDisk` is really the UNIX file. A wrapper around one device is a wrapper
around another as soon as each request does to both what corresponds, so every interleaving of
calls on the UNIX file is one on the disk.
-/

namespace Nachos

open Framework

/-! ## Two devices under the same wrapper -/

variable {σ τ ι β : Type} {D : Device σ ι β} {E : Device τ ι β} {g : σ → τ} {P : σ → Prop}

/-- Each request has the same result on both devices, and keeps the condition. -/
def Device.Implements (D : Device σ ι β) (E : Device τ ι β) (g : σ → τ) (P : σ → Prop) : Prop :=
  ∀ c r, P c → (D.request c r = none ∧ E.request (g c) r = none) ∨
    ∃ c' b, D.request c r = some (c', b) ∧ E.request (g c) r = some (g c', b) ∧ P c'

namespace SynchDevice

def mapContents (g : σ → τ) (s : SynchDevice σ ι β) : SynchDevice τ ι β :=
  { lock := s.lock, semaphore := s.semaphore, contents := g s.contents, active := s.active,
    pending := s.pending, pc := s.pc, aborted := s.aborted, acquired := s.acquired,
    issued := s.issued, completed := s.completed, returned := s.returned, clash := s.clash }

variable {s s' : SynchDevice σ ι β}

private theorem step_mapContents (hD : D.Implements E g P) (hP : P s.contents) (l : DeviceLabel ι) :
    (s.mapContents g).step E l = (s.step D l).map (mapContents g) := by
  cases l with
  | call t r => cases hpc : s.pc t <;> simp only [step, mapContents, hpc, Option.map]
  | lock l =>
    simp only [step, mapContents]
    by_cases hallows : (s.pc l.thread).allows (s.lock.pc l.thread) l = true
    · rw [if_pos hallows]
      refine (if_pos hallows).trans ?_
      cases lockStep s.lock l <;> rfl
    · rw [if_neg hallows]
      exact if_neg hallows
  | request t =>
    cases hpc : s.pc t <;> cases hlock : s.lock.pc t <;>
      simp only [step, mapContents, hpc, hlock, Option.map_none]
    next r =>
      by_cases hactive : s.active = true
      · rw [if_pos hactive]
        exact if_pos hactive
      · rw [if_neg hactive]
        refine (if_neg hactive).trans ?_
        obtain ⟨hnone, hnone'⟩ | ⟨c', b, hreq, hreq', -⟩ := hD s.contents r hP
        · rw [hnone, hnone']
          rfl
        · rw [hreq, hreq']
          rfl
  | p t =>
    cases hpc : s.pc t <;> simp only [step, mapContents, hpc, Option.map_none]
    by_cases hasleep : s.semaphore.asleep t = true
    · rw [if_pos hasleep]
      exact if_pos hasleep
    · rw [if_neg hasleep]
      refine (if_neg hasleep).trans ?_
      cases s.semaphore.p t with
      | none => rfl
      | some r =>
        obtain ⟨sem, b⟩ := r
        cases b <;> rfl
  | interrupt k =>
    simp only [step, mapContents]
    by_cases hk : k ∈ s.pending
    · rw [if_pos hk]
      exact if_pos hk
    · rw [if_neg hk]
      exact if_neg hk

private theorem step_keeps (hD : D.Implements E g P) (hP : P s.contents) {l : DeviceLabel ι}
    (hs : s.step D l = some s') : P s'.contents := by
  cases l with
  | call t r =>
    obtain ⟨-, rfl⟩ := step_call hs
    exact hP
  | lock l =>
    obtain ⟨-, lock, -, rfl⟩ := step_lock hs
    exact hP
  | request t =>
    obtain ⟨r, -, -, ⟨-, rfl⟩ | ⟨-, rfl⟩ | ⟨c, b, hrequest, rfl⟩⟩ := step_request hs
    · exact hP
    · exact hP
    · obtain ⟨hnone, -⟩ | ⟨c', b', hsome, -, hP'⟩ := hD s.contents r hP
      · rw [hnone] at hrequest
        cases hrequest
      · obtain ⟨rfl, -⟩ := Prod.mk.inj (Option.some.inj (hsome.symm.trans hrequest))
        exact hP'
  | p t =>
    obtain ⟨r, k, b, -, -, ⟨-, rfl⟩ | ⟨sem, taken, -, rfl⟩⟩ := step_p hs
    · exact hP
    · exact hP
  | interrupt k =>
    obtain ⟨-, rfl⟩ := step_interrupt hs
    exact hP

theorem deviceSystem_refines (hD : D.Implements E g P) {c : σ} (hc : P c) :
    (deviceSystem D c).Refines (deviceSystem E (g c)) (mapContents g) fun s => P s.contents where
  invariant :=
    { init := by
        rintro _ rfl
        exact hc
      step := fun _ _ _ hP hs => step_keeps hD hP hs.2 }
  init := by
    rintro _ rfl
    rfl
  step s l s' hP hs := by
    refine ⟨hs.1, ?_⟩
    rw [step_mapContents hD hP, hs.2]
    rfl

private theorem trace_mapContents (hD : D.Implements E g P) {c : σ} (hc : P c)
    {ls : List (DeviceLabel ι)} {t : SynchDevice τ ι β}
    (hrun : (deviceSystem E (g c)).Trace (.new (g c)) ls t) :
    ∃ s, (deviceSystem D c).Trace (.new c) ls s ∧ s.mapContents g = t := by
  induction hrun with
  | nil => exact ⟨.new c, .nil _, rfl⟩
  | step _ hstep ih =>
    obtain ⟨s, hs, rfl⟩ := ih
    have hP := (deviceSystem_refines hD hc).invariant.of_reachable (hs.reachable (.init rfl))
    obtain ⟨halive, hnext⟩ := hstep
    rw [step_mapContents hD hP] at hnext
    obtain ⟨s', hs', rfl⟩ := Option.map_eq_some_iff.mp hnext
    exact ⟨s', hs.step ⟨halive, hs'⟩, rfl⟩

end SynchDevice

/-! ## The UNIX file and the disk -/

/-- `Disk::ReadRequest` and `Disk::WriteRequest` on the UNIX file. -/
def unixFileDevice : Device HostFile DiskRequest (Option Image) where
  request f
    | .read sectorNumber => (readRequest f sectorNumber).map fun data => (f, some data)
    | .write sectorNumber data => (writeRequest f sectorNumber data).map fun f' => (f', none)

private theorem unixFileDevice_implements :
    unixFileDevice.Implements diskDevice HostFile.sectors fun f => f.Stores f.sectors := by
  intro f r hf
  cases r with
  | read sectorNumber =>
    simp only [unixFileDevice, diskDevice, hf.readRequest]
    cases f.sectors.readSector sectorNumber with
    | none => exact .inl ⟨rfl, rfl⟩
    | some data => exact .inr ⟨f, some data, rfl, rfl, hf⟩
  | write sectorNumber data =>
    simp only [unixFileDevice, diskDevice]
    obtain ⟨hfile, hdisk⟩ | ⟨f', disk', hfile, hdisk, hstores⟩ := hf.writeRequest sectorNumber data
    · rw [hfile, hdisk]
      exact .inl ⟨rfl, rfl⟩
    · rw [hfile, hdisk]
      obtain rfl := hstores.sectors
      exact .inr ⟨f', none, rfl, rfl, hstores⟩

/-- Whatever threads call `ReadSector` and `WriteSector`, and however they interleave with each
other and with the disk interrupts: the runs on the UNIX file are step by step those on the disk,
with the same calls, the same results and the same failed ASSERTs, and at every moment the file is
one that the next start accepts. -/
theorem synchDisk_on_unix_file {f₀ : HostFile} {disk₀ : Disk}
    (hfile : diskFileSystem.Reachable (some f₀, disk₀)) (ls : List (DeviceLabel DiskRequest)) :
    (∀ t, (synchDiskSystem disk₀).Trace (.new disk₀) ls t ↔
      ∃ s, (deviceSystem unixFileDevice f₀).Trace (.new f₀) ls s ∧
        s.mapContents HostFile.sectors = t) ∧
    ∀ s, (deviceSystem unixFileDevice f₀).Trace (.new f₀) ls s →
      openDisk (some s.contents) = some s.contents ∧ s.contents.size = diskSize := by
  have hstores₀ : f₀.Stores disk₀ := diskFileInv_inductive.of_reachable hfile
  obtain rfl := hstores₀.sectors
  have href := SynchDevice.deviceSystem_refines unixFileDevice_implements hstores₀
  constructor
  · intro t
    constructor
    · exact SynchDevice.trace_mapContents unixFileDevice_implements hstores₀
    · rintro ⟨s, hrun, rfl⟩
      exact href.trace rfl hrun
  · intro s hrun
    have hstores := href.invariant.of_reachable (hrun.reachable (.init rfl))
    exact ⟨hstores.openDisk, hstores.size⟩

private def readsByte : (ThreadId × DiskRequest) × Nat × Option Image → Bool
  | ((0, .read sectorNumber), _, some data) => sectorNumber == 3 && data 0 == 0x5a
  | _ => false

/-- On the file that the first start makes, thread 1 writes a sector while thread 0 waits for the
lock to read it. -/
theorem synchDisk_on_unix_file_call : ∃ f s,
    (deviceSystem unixFileDevice f).Trace (.new f) writeThenRead s ∧
      (s.returned.any readsByte = true ∧ s.contents.sectors 3 0 = 0x5a) ∧
      openDisk (some s.contents) = some s.contents := by
  obtain ⟨f, hopen, -⟩ := openDisk_none
  have hfile : diskFileSystem.Reachable (some f, fun _ _ => 0) :=
    .step (l := .start) (.init rfl) ⟨f, hopen, rfl⟩
  obtain ⟨hsame, haccepted⟩ := synchDisk_on_unix_file hfile writeThenRead
  have hdisk : (synchDiskSystem fun _ _ => 0).Trace (.new fun _ _ => 0) writeThenRead
      writeThenReadEnd :=
    System.Trace.foldlM (fun _ _ _ => SynchDevice.next_step) (.nil _)
      (Option.some_get writeThenRead_runs).symm
  obtain ⟨s, hrun, hend⟩ := (hsame _).mp hdisk
  have hreturned : s.returned = writeThenReadEnd.returned := by rw [← hend]; rfl
  have hcontents : s.contents.sectors = writeThenReadEnd.contents := by rw [← hend]; rfl
  refine ⟨f, s, hrun, ?_, (haccepted s hrun).1⟩
  rw [hreturned, hcontents]
  constructor
  · decide +kernel
  · decide +kernel

end Nachos

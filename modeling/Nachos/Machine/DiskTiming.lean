import Nachos.Framework.Rotation
import Nachos.Framework.Run

/-!
# How long the disk takes

The head moves from track to track while the disk turns past it, one sector in `RotationTime`
ticks. The disk keeps what has passed the head since it came to its track, and reads that again
without waiting for it. The counts of ticks are not bounded here.
-/

namespace Nachos

open Framework

abbrev rotationTime : Int := 500

abbrev seekTime : Int := 500

abbrev sectorsPerTrack : Int := 32

abbrev numTracks : Int := 32

abbrev numSectors : Int := sectorsPerTrack * numTracks

/-- The fields of `Disk` that the timing depends on. -/
structure DiskHead where
  lastSector : Int
  bufferInit : Int

namespace DiskHead

/-- `Disk::TimeToSeek` at the tick `now`: how long the head moves, and from then to the next
boundary between two sectors. -/
def timeToSeek (d : DiskHead) (now newSector : Int) : Int × Int :=
  let newTrack := newSector.tdiv sectorsPerTrack
  let oldTrack := d.lastSector.tdiv sectorsPerTrack
  let seek := (newTrack - oldTrack).natAbs * seekTime
  let overTime := (now + seek).tmod rotationTime
  (seek, if overTime > 0 then rotationTime - overTime else 0)

/-- `Disk::ModuloDiff`. -/
def moduloDiff (target source : Int) : Int :=
  let toOffset := target.tmod sectorsPerTrack
  let fromOffset := source.tmod sectorsPerTrack
  ((toOffset - fromOffset) + sectorsPerTrack).tmod sectorsPerTrack

def timeAfter (d : DiskHead) (now newSector : Int) : Int :=
  now + (d.timeToSeek now newSector).1 + (d.timeToSeek now newSector).2

/-- The test of `ComputeLatency` for the track buffer. -/
def trackBufferApplies (d : DiskHead) (now newSector : Int) (writing : Bool) : Bool :=
  !writing && decide ((d.timeToSeek now newSector).1 = 0) &&
    decide ((d.timeAfter now newSector - d.bufferInit).tdiv rotationTime >
      moduloDiff newSector (d.bufferInit.tdiv rotationTime))

/-- `Disk::ComputeLatency`. -/
def computeLatency (d : DiskHead) (now newSector : Int) (writing : Bool) : Int :=
  if d.trackBufferApplies now newSector writing then rotationTime
  else
    let (seek, rotation) := d.timeToSeek now newSector
    let rotation :=
      rotation + moduloDiff newSector ((d.timeAfter now newSector).tdiv rotationTime) * rotationTime
    seek + rotation + rotationTime

/-- `Disk::UpdateLast`. -/
def updateLast (d : DiskHead) (now newSector : Int) : DiskHead :=
  let (seek, rotate) := d.timeToSeek now newSector
  { lastSector := newSector,
    bufferInit := if seek ≠ 0 then now + seek + rotate else d.bufferInit }

end DiskHead

/-! ## Requests -/

structure TimedRequest where
  now : Int
  sector : Int
  writing : Bool

/-- The head, and the tick at which the latest request is done. -/
structure DiskClock where
  head : DiskHead
  completion : Int

namespace DiskClock

/-- `Disk::Disk`. -/
def new : DiskClock := { head := { lastSector := 0, bufferInit := 0 }, completion := 0 }

/-- A request for a sector of the disk, when the one before it is done. -/
def accepts (d : DiskClock) (q : TimedRequest) : Prop :=
  d.completion ≤ q.now ∧ 0 ≤ q.sector ∧ q.sector < numSectors

instance (d : DiskClock) (q : TimedRequest) : Decidable (d.accepts q) :=
  inferInstanceAs (Decidable (_ ∧ _ ∧ _))

/-- `Disk::ReadRequest` and `Disk::WriteRequest`. -/
def request (d : DiskClock) (q : TimedRequest) : DiskClock :=
  { head := d.head.updateLast q.now q.sector,
    completion := q.now + d.head.computeLatency q.now q.sector q.writing }

end DiskClock

def diskSystem : System DiskClock TimedRequest where
  init d := d = .new
  step d q d' := d.accepts q ∧ d' = d.request q

/-! ## The arithmetic of a request -/

namespace DiskHead

variable {d : DiskHead} {now newSector : Int}

private theorem seek_nonneg (d : DiskHead) (now newSector : Int) :
    0 ≤ (d.timeToSeek now newSector).1 := by
  simp only [timeToSeek, seekTime]
  omega

private theorem timeAfter_eq (hnow : 0 ≤ now) :
    d.timeAfter now newSector =
      roundUp rotationTime (now + (d.timeToSeek now newSector).1) := by
  have hseek := seek_nonneg d now newSector
  simp only [timeAfter, roundUp, timeToSeek] at *
  rw [Int.tmod_eq_emod_of_nonneg (by omega)]
  simp only [rotationTime]
  split <;> omega

private theorem moduloDiff_eq {target source : Int} (htarget : 0 ≤ target) (hsource : 0 ≤ source) :
    moduloDiff target source = (target - source) % sectorsPerTrack := by
  simp only [moduloDiff, sectorsPerTrack]
  rw [Int.tmod_eq_emod_of_nonneg htarget, Int.tmod_eq_emod_of_nonneg hsource,
    Int.tmod_eq_emod_of_nonneg (by omega)]
  omega

private theorem mul_rotationTime_tdiv {k : Int} (hk : 0 ≤ k) :
    (rotationTime * k).tdiv rotationTime = k := by
  simp only [rotationTime]
  rw [Int.tdiv_eq_ediv_of_nonneg (by omega)]
  omega

private theorem completion_eq {writing : Bool} {m : Int} (hnow : 0 ≤ now) (hsector : 0 ≤ newSector)
    (hm : roundUp rotationTime (now + (d.timeToSeek now newSector).1) = rotationTime * m)
    (hbuffer : d.trackBufferApplies now newSector writing = false) :
    now + d.computeLatency now newSector writing =
      rotationTime * (firstSlot sectorsPerTrack newSector m + 1) := by
  have hseek := seek_nonneg d now newSector
  have hafter : d.timeAfter now newSector = rotationTime * m := (timeAfter_eq hnow).trans hm
  have hle := le_roundUp (show 0 < rotationTime by decide)
    (now + (d.timeToSeek now newSector).1)
  have hm0 : 0 ≤ m := by
    simp only [rotationTime] at *
    omega
  have hdiff := moduloDiff_eq hsector hm0
  simp only [computeLatency, hbuffer, Bool.false_eq_true, if_false, hafter,
    mul_rotationTime_tdiv hm0, hdiff]
  have hwait : now + (d.timeToSeek now newSector).1 + (d.timeToSeek now newSector).2 =
      rotationTime * m := hafter
  simp only [firstSlot, rotationTime, sectorsPerTrack] at *
  omega

private theorem trackBufferApplies_iff {b : Int} (hnow : 0 ≤ now) (hsector : 0 ≤ newSector)
    (hb : 0 ≤ b) (hinit : d.bufferInit = rotationTime * b) (hle : d.bufferInit ≤ now)
    (hseek : (d.timeToSeek now newSector).1 = 0) :
    d.trackBufferApplies now newSector false = true ↔
      WholeSlot rotationTime sectorsPerTrack newSector d.bufferInit
        (roundUp rotationTime now) := by
  have hafter : d.timeAfter now newSector = roundUp rotationTime now := by
    rw [timeAfter_eq hnow, hseek, Int.add_zero]
  obtain ⟨m, hm⟩ := dvd_roundUp rotationTime now
  have hround := le_roundUp (show 0 < rotationTime by decide) now
  have hbm : 0 ≤ m - b := by
    simp only [rotationTime] at *
    omega
  have hslots : (d.timeAfter now newSector - d.bufferInit).tdiv rotationTime = m - b := by
    rw [hafter, hm, hinit, ← Int.mul_sub]
    exact mul_rotationTime_tdiv hbm
  have hstart : d.bufferInit.tdiv rotationTime = b := by
    rw [hinit]
    exact mul_rotationTime_tdiv hb
  have hdiff := moduloDiff_eq hsector hb
  simp only [trackBufferApplies, hseek, Bool.not_false, Bool.true_and, decide_true,
    decide_eq_true_eq, hslots, hstart, hdiff]
  rw [hinit, wholeSlot_iff (by decide) (by decide), hm]
  simp only [firstSlot, rotationTime, sectorsPerTrack]
  omega

end DiskHead

/-! ## Runs -/

namespace DiskClock

/-- The buffer was started at a boundary, not after the latest request was done. -/
structure OnTime (d : DiskClock) : Prop where
  lastSector : 0 ≤ d.head.lastSector
  bufferInit : rotationTime ∣ d.head.bufferInit
  started : 0 ≤ d.head.bufferInit
  passed : d.head.bufferInit ≤ d.completion

private theorem onTime_new : OnTime new := by
  constructor
  case lastSector => decide
  case bufferInit => exact Int.dvd_zero _
  case started => decide
  case passed => decide

private theorem timeAfter_le {d : DiskHead} {now newSector : Int} (hnow : 0 ≤ now)
    (hsector : 0 ≤ newSector) (writing : Bool)
    (hbuffer : d.trackBufferApplies now newSector writing = false) :
    d.timeAfter now newSector + rotationTime ≤ now + d.computeLatency now newSector writing := by
  obtain ⟨m, hm⟩ := dvd_roundUp rotationTime (now + (d.timeToSeek now newSector).1)
  have hslot := (isLeast_firstSlot (show 0 < sectorsPerTrack by decide) newSector m).1.2
  rw [DiskHead.timeAfter_eq hnow, DiskHead.completion_eq hnow hsector hm hbuffer, hm]
  simp only [rotationTime] at *
  omega

private theorem computeLatency_pos {d : DiskHead} {now newSector : Int} (hnow : 0 ≤ now)
    (hsector : 0 ≤ newSector) (writing : Bool) : 0 < d.computeLatency now newSector writing := by
  by_cases hbuffer : d.trackBufferApplies now newSector writing = true
  · rw [DiskHead.computeLatency, if_pos hbuffer]
    decide
  · have hle := timeAfter_le hnow hsector writing (Bool.not_eq_true _ ▸ hbuffer)
    have hround := le_roundUp (show 0 < rotationTime by decide)
      (now + (d.timeToSeek now newSector).1)
    have hseek := DiskHead.seek_nonneg d now newSector
    rw [DiskHead.timeAfter_eq hnow] at hle
    simp only [rotationTime] at *
    omega

theorem OnTime.request {d : DiskClock} {q : TimedRequest} (h : OnTime d) (hq : d.accepts q) :
    OnTime (d.request q) := by
  have hnow : 0 ≤ q.now := h.started.trans (h.passed.trans hq.1)
  have hpos := computeLatency_pos (d := d.head) hnow hq.2.1 q.writing
  by_cases hseek : (d.head.timeToSeek q.now q.sector).1 = 0
  · have hsame : (d.request q).head.bufferInit = d.head.bufferInit := by
      simp [DiskClock.request, DiskHead.updateLast, hseek]
    constructor
    case lastSector => exact hq.2.1
    case bufferInit =>
      rw [hsame]
      exact h.bufferInit
    case started =>
      rw [hsame]
      exact h.started
    case passed =>
      rw [hsame]
      have hpassed := h.passed
      have hnext := hq.1
      show d.head.bufferInit ≤ q.now + d.head.computeLatency q.now q.sector q.writing
      omega
  · have hnew : (d.request q).head.bufferInit = d.head.timeAfter q.now q.sector := by
      simp [DiskClock.request, DiskHead.updateLast, hseek, DiskHead.timeAfter]
    have hbuffer : d.head.trackBufferApplies q.now q.sector q.writing = false := by
      simp [DiskHead.trackBufferApplies, hseek]
    have hle := timeAfter_le hnow hq.2.1 q.writing hbuffer
    have hround := le_roundUp (show 0 < rotationTime by decide)
      (q.now + (d.head.timeToSeek q.now q.sector).1)
    have hnonneg := DiskHead.seek_nonneg d.head q.now q.sector
    constructor
    case lastSector => exact hq.2.1
    case bufferInit =>
      rw [hnew, DiskHead.timeAfter_eq hnow]
      exact dvd_roundUp _ _
    case started =>
      rw [hnew, DiskHead.timeAfter_eq hnow]
      omega
    case passed =>
      rw [hnew]
      show _ ≤ q.now + d.head.computeLatency q.now q.sector q.writing
      simp only [rotationTime] at *
      omega

theorem onTime_inductive : diskSystem.Inductive OnTime where
  init _ h := h ▸ onTime_new
  step _ _ _ h hs := hs.2 ▸ h.request hs.1

end DiskClock

/-- At every request of every sequence: the latency is positive; without the track buffer it ends
at the first boundary by which the sector has passed the head whole after the seek; and a read
without a seek uses the buffer exactly when the sector has passed the head whole between
`bufferInit`, which is a boundary in the past, and the next boundary. -/
theorem disk_timing_exact {d : DiskClock} (hr : diskSystem.Reachable d) {q : TimedRequest}
    (hq : d.accepts q) :
    (rotationTime ∣ d.head.bufferInit ∧ d.head.bufferInit ≤ q.now) ∧
    0 < d.head.computeLatency q.now q.sector q.writing ∧
    (d.head.trackBufferApplies q.now q.sector q.writing = false →
      IsLeast {b | rotationTime ∣ b ∧ WholeSlot rotationTime sectorsPerTrack q.sector
          (q.now + (d.head.timeToSeek q.now q.sector).1) b}
        (q.now + d.head.computeLatency q.now q.sector q.writing)) ∧
    (q.writing = false → (d.head.timeToSeek q.now q.sector).1 = 0 →
      ∀ b, IsLeast {b | rotationTime ∣ b ∧ q.now ≤ b} b →
        (d.head.trackBufferApplies q.now q.sector q.writing = true ↔
          WholeSlot rotationTime sectorsPerTrack q.sector d.head.bufferInit b)) ∧
    (d.head.trackBufferApplies q.now q.sector q.writing = true →
      q.writing = false ∧ (d.head.timeToSeek q.now q.sector).1 = 0 ∧
        d.head.computeLatency q.now q.sector q.writing = rotationTime) := by
  have h := DiskClock.onTime_inductive.of_reachable hr
  have hpassed : d.head.bufferInit ≤ q.now := h.passed.trans hq.1
  have hnow : 0 ≤ q.now := h.started.trans hpassed
  refine ⟨⟨h.bufferInit, hpassed⟩, DiskClock.computeLatency_pos hnow hq.2.1 _, ?_, ?_, ?_⟩
  · intro hbuffer
    obtain ⟨m, hm⟩ := dvd_roundUp rotationTime (q.now + (d.head.timeToSeek q.now q.sector).1)
    rw [DiskHead.completion_eq hnow hq.2.1 hm hbuffer]
    exact isLeast_wholeSlot (by decide) (by decide) q.sector hm
  · intro hread hseek b hb
    obtain ⟨k, hk⟩ := h.bufferInit
    have hk0 : 0 ≤ k := by
      have hstarted := h.started
      simp only [rotationTime] at *
      omega
    rw [hb.unique (isLeast_roundUp (by decide) q.now), hread]
    exact DiskHead.trackBufferApplies_iff hnow hq.2.1 hk0 hk hpassed hseek
  · intro hbuffer
    refine ⟨?_, ?_, if_pos hbuffer⟩
    · simp only [DiskHead.trackBufferApplies, Bool.and_eq_true, Bool.not_eq_true'] at hbuffer
      exact hbuffer.1.1
    · simp only [DiskHead.trackBufferApplies, Bool.and_eq_true, decide_eq_true_eq] at hbuffer
      exact hbuffer.1.2

/-- A read on another track, and the same sector once more from the buffer. -/
theorem disk_timing_exact_again :
    ∃ d : DiskClock, diskSystem.Reachable d ∧ d.head.bufferInit = 1000 ∧ d.completion = 4500 ∧
      WholeSlot rotationTime sectorsPerTrack 40 1000 5000 ∧
      d.head.computeLatency 5000 40 false = rotationTime := by
  have hr : diskSystem.Reachable (DiskClock.new.request ⟨7, 40, false⟩) :=
    .step (.init rfl) ⟨by decide, rfl⟩
  have hexact := disk_timing_exact hr (q := ⟨5000, 40, false⟩) (by decide)
  have hround : roundUp rotationTime 5000 = 5000 := by decide
  have hboundary := isLeast_roundUp (show 0 < rotationTime by decide) 5000
  rw [hround] at hboundary
  have hinit : (DiskClock.new.request ⟨7, 40, false⟩).head.bufferInit = 1000 := by decide +kernel
  have hdone : (DiskClock.new.request ⟨7, 40, false⟩).completion = 4500 := by decide +kernel
  have hslot := (hexact.2.2.2.1 rfl (by decide) 5000 hboundary).mp (by decide)
  rw [hinit] at hslot
  exact ⟨_, hr, hinit, hdone, hslot, (hexact.2.2.2.2 (by decide)).2.2⟩

end Nachos

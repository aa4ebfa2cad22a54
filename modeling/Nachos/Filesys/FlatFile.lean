import Nachos.Framework.FlatArray
import Nachos.Filesys.OpenFile

/-!
# Files as arrays of bytes

To the callers of `ReadAt` and `WriteAt` a file is an array of `FileLength` bytes. Where the
sectors lie, and which of them a request covers in part, does not show.
-/

namespace Nachos

open Framework

namespace OpenFile

variable {f : OpenFile} {disk disk' : Disk}

def bytes (disk : Disk) (hdr : FileHeader) : List (BitVec 8) := (content disk hdr).toList 0 hdr.length

@[simp] theorem length_bytes (disk : Disk) (hdr : FileHeader) :
    (bytes disk hdr).length = hdr.length := Image.length_toList _ _ _

theorem getElem?_bytes (disk : Disk) (hdr : FileHeader) {i : Nat} (hi : i < hdr.length) :
    (bytes disk hdr)[i]? = some (content disk hdr i) := by
  rw [bytes, Image.getElem?_toList _ _ _ hi, Nat.zero_add]

private theorem slice_bytes (disk : Disk) (hdr : FileHeader) (position numBytes : Nat) :
    slice (bytes disk hdr) position numBytes =
      (content disk hdr).toList position (transferred hdr.length numBytes position) := by
  apply List.ext_getElem?
  intro i
  by_cases hi : i < transferred hdr.length numBytes position
  · obtain ⟨hlt, hlen⟩ : i < numBytes ∧ position + i < hdr.length := by
      simp only [transferred] at hi
      omega
    rw [getElem?_slice, if_pos hlt, getElem?_bytes _ _ hlen, Image.getElem?_toList _ _ _ hi]
  · rw [List.getElem?_eq_none, List.getElem?_eq_none]
    · rw [Image.length_toList]
      omega
    · rw [length_slice, length_bytes]
      simp only [transferred] at hi
      omega

theorem Written.bytes_eq {hdr : FileHeader} {source : Image} {numBytes position : Nat}
    (h : Written hdr source (transferred hdr.length numBytes position) position disk disk') :
    bytes disk' hdr = overwrite (bytes disk hdr) position (source.toList 0 numBytes) := by
  apply List.ext_getElem?
  intro i
  by_cases hi : i < hdr.length
  · rw [getElem?_bytes _ _ hi, getElem?_overwrite _ _ _ (by rw [length_bytes]; exact hi),
      Image.length_toList, h.data i hi]
    have hiff : (position ≤ i ∧ i < position + transferred hdr.length numBytes position) ↔
        (position ≤ i ∧ i < position + numBytes) := by
      simp only [transferred]
      omega
    by_cases hin : position ≤ i ∧ i < position + numBytes
    · rw [if_pos (hiff.mpr hin), if_pos hin, Image.getElem?_toList _ _ _ (by omega), Nat.zero_add]
    · rw [if_neg (mt hiff.mp hin), if_neg hin, getElem?_bytes _ _ hi]
  · rw [List.getElem?_eq_none, List.getElem?_eq_none]
    · rw [length_overwrite, length_bytes]
      omega
    · rw [length_bytes]
      omega

/-! ## Requests of any size -/

/-- A request that starts in the file or behind it and whose end is an `int`. -/
structure InRange (numBytes position : Int) : Prop where
  start : 0 ≤ position
  fits : position + numBytes < 2 ^ 31

def moved (hdr : FileHeader) (numBytes position : Int) : Nat :=
  transferred hdr.length numBytes.toNat position.toNat

theorem moved_eq (hdr : FileHeader) {numBytes position : Int} (h : InRange numBytes position) :
    (moved hdr numBytes position : Int) = max 0 (min numBytes (hdr.fileLength - position)) := by
  have hstart := h.start
  simp only [moved, transferred, FileHeader.length]
  omega

theorem readAt_inRange (hw : f.hdr.WellFormed) (disk : Disk) (into : Image) (off : Nat)
    {numBytes position : Int} (h : InRange numBytes position) :
    f.readAt disk into off numBytes position =
      some (↑(moved f.hdr numBytes position),
        into.blit off (fun i => content disk f.hdr (position.toNat + i))
          (moved f.hdr numBytes position)) := by
  obtain ⟨p, rfl⟩ := Int.eq_ofNat_of_zero_le h.start
  have hfits := h.fits
  rcases Int.lt_or_le numBytes 0 with hneg | hnum
  · have hzero : moved f.hdr numBytes p = 0 := by
      simp only [moved, transferred]
      omega
    have hblit : into.blit off (fun i => content disk f.hdr (p + i)) 0 = into := by
      funext a
      exact Image.blit_of_notMem (by omega)
    rw [readAt, if_pos (.inl (Int.le_of_lt hneg)), hzero]
    exact congrArg (fun img => some (0, img)) hblit.symm
  · obtain ⟨n, rfl⟩ := Int.eq_ofNat_of_zero_le hnum
    exact readAt_eq hw disk into off n p (by omega)

theorem writeAt_inRange (hw : f.hdr.WellFormed) (disk : Disk) (fresh source : Image)
    {numBytes position : Int} (h : InRange numBytes position) :
    ∃ disk', f.writeAt disk fresh source numBytes position =
        some (↑(moved f.hdr numBytes position), disk') ∧
      Written f.hdr source (moved f.hdr numBytes position) position.toNat disk disk' := by
  obtain ⟨p, rfl⟩ := Int.eq_ofNat_of_zero_le h.start
  have hfits := h.fits
  rcases Int.lt_or_le numBytes 0 with hneg | hnum
  · have hzero : moved f.hdr numBytes p = 0 := by
      simp only [moved, transferred]
      omega
    refine ⟨disk, ?_, fun _ _ => rfl, ?_⟩
    · rw [writeAt, if_pos (.inl (Int.le_of_lt hneg)), hzero]
      rfl
    · intro a _
      rw [hzero, if_neg (by omega)]
  · obtain ⟨n, rfl⟩ := Int.eq_ofNat_of_zero_le hnum
    exact writeAt_spec hw disk fresh source n p (by omega)

/-! ## Sequences of writes -/

/-- The arguments of a `WriteAt`, with the first contents of its temporary buffer. -/
structure WriteCall where
  fresh : Image
  source : Image
  numBytes : Int
  position : Int

def WriteCall.perform (f : OpenFile) (disk : Disk) (c : WriteCall) : Option Disk :=
  (f.writeAt disk c.fresh c.source c.numBytes c.position).map Prod.snd

def WriteCall.apply (xs : List (BitVec 8)) (c : WriteCall) : List (BitVec 8) :=
  overwrite xs c.position.toNat (c.source.toList 0 c.numBytes.toNat)

private theorem perform_writes (hw : f.hdr.WellFormed) (disk : Disk) (calls : List WriteCall)
    (hcalls : ∀ c ∈ calls, InRange c.numBytes c.position) :
    ∃ disk', calls.foldlM (WriteCall.perform f) disk = some disk' ∧
      (∀ s ∉ f.hdr.sectors, disk' s = disk s) ∧
      bytes disk' f.hdr = calls.foldl WriteCall.apply (bytes disk f.hdr) := by
  induction calls generalizing disk with
  | nil => exact ⟨disk, rfl, fun _ _ => rfl, rfl⟩
  | cons c calls ih =>
    obtain ⟨disk₁, hwrite, hwritten⟩ := writeAt_inRange hw disk c.fresh c.source
      (hcalls c List.mem_cons_self)
    obtain ⟨disk', hrun, hframe, hbytes⟩ := ih disk₁ fun c' hc' =>
      hcalls c' (List.mem_cons_of_mem c hc')
    refine ⟨disk', ?_, ?_, ?_⟩
    · have hstep : WriteCall.perform f disk c = some disk₁ := by
        rw [WriteCall.perform, hwrite, Option.map_some]
      rw [List.foldlM_cons, hstep]
      exact hrun
    · intro s hs
      exact (hframe s hs).trans (hwritten.frame s hs)
    · rw [hbytes, List.foldl_cons, hwritten.bytes_eq]
      rfl

private theorem slice_moved (disk : Disk) (hdr : FileHeader) (numBytes position : Int) :
    slice (bytes disk hdr) position.toNat numBytes.toNat =
      (content disk hdr).toList position.toNat (moved hdr numBytes position) :=
  slice_bytes disk hdr position.toNat numBytes.toNat

/-- What `ReadAt` leaves in its buffer is the slice of the array. -/
theorem readAt_slice (hw : f.hdr.WellFormed) (disk : Disk) (into : Image) (off : Nat)
    {numBytes position : Int} (h : InRange numBytes position) :
    ∃ into', f.readAt disk into off numBytes position =
        some (↑(moved f.hdr numBytes position), into') ∧
      into'.toList off (moved f.hdr numBytes position) =
        slice (bytes disk f.hdr) position.toNat numBytes.toNat ∧
      ∀ a, a < off ∨ off + moved f.hdr numBytes position ≤ a → into' a = into a := by
  refine ⟨_, readAt_inRange hw disk into off h, ?_, ?_⟩
  · rw [Image.toList_blit, slice_moved]
    simp only [Image.toList, Nat.zero_add]
  · intro a ha
    exact Image.blit_of_notMem ha

end OpenFile

open OpenFile

/-- Every request in range moves the bytes from its position to the end of the file at most, and
a sequence of writes followed by a read is one on an array of bytes. -/
theorem openFile_refines_array {f : OpenFile} (hw : f.hdr.WellFormed) (disk : Disk) :
    (∀ into off numBytes position, InRange numBytes position → ∃ (n : Nat) (into' : Image),
      (n : Int) = max 0 (min numBytes (f.hdr.fileLength - position)) ∧
      f.readAt disk into off numBytes position = some (↑n, into') ∧
      into'.toList off n = slice (bytes disk f.hdr) position.toNat n ∧
      ∀ a, a < off ∨ off + n ≤ a → into' a = into a) ∧
    (∀ fresh source numBytes position, InRange numBytes position → ∃ (n : Nat) (disk' : Disk),
      (n : Int) = max 0 (min numBytes (f.hdr.fileLength - position)) ∧
      f.writeAt disk fresh source numBytes position = some (↑n, disk') ∧
      (∀ a < f.hdr.length, content disk' f.hdr a =
        if position.toNat ≤ a ∧ a < position.toNat + n then source (a - position.toNat)
        else content disk f.hdr a) ∧
      ∀ s ∉ f.hdr.sectors, disk' s = disk s) ∧
    ∀ calls : List WriteCall, (∀ c ∈ calls, InRange c.numBytes c.position) →
      ∃ disk', calls.foldlM (WriteCall.perform f) disk = some disk' ∧
        bytes disk' f.hdr = calls.foldl WriteCall.apply (bytes disk f.hdr) ∧
        (∀ s ∉ f.hdr.sectors, disk' s = disk s) ∧
        ∀ into off numBytes position, InRange numBytes position → ∃ (n : Nat) (into' : Image),
          f.readAt disk' into off numBytes position = some (↑n, into') ∧
          into'.toList off n = slice (calls.foldl WriteCall.apply (bytes disk f.hdr))
            position.toNat numBytes.toNat := by
  refine ⟨?_, ?_, ?_⟩
  · intro into off numBytes position h
    obtain ⟨into', hread, hslice, hrest⟩ := readAt_slice hw disk into off h
    refine ⟨_, into', moved_eq f.hdr h, hread, ?_, hrest⟩
    -- the slice is cut by the end of the file, not by `n`
    have hn : transferred f.hdr.length (moved f.hdr numBytes position) position.toNat =
        moved f.hdr numBytes position := by
      simp only [moved, transferred]
      omega
    rw [hslice, slice_moved, slice_bytes, hn]
  · intro fresh source numBytes position h
    obtain ⟨disk', hwrite, hwritten⟩ := writeAt_inRange hw disk fresh source h
    exact ⟨_, disk', moved_eq f.hdr h, hwrite, hwritten.data, hwritten.frame⟩
  · intro calls hcalls
    obtain ⟨disk', hrun, hframe, hbytes⟩ := perform_writes hw disk calls hcalls
    refine ⟨disk', hrun, hbytes, hframe, ?_⟩
    intro into off numBytes position h
    obtain ⟨into', hread, hslice, -⟩ := readAt_slice hw disk' into off h
    refine ⟨_, into', hread, ?_⟩
    rw [hslice, hbytes]

def twoSectors : FileHeader :=
  ⟨Image.setWord (Image.setWord (Image.setWord (Image.setWord (fun _ => 0) 0 200) 1 2) 2 5) 3 6⟩

theorem wellFormed_twoSectors : twoSectors.WellFormed := by
  constructor <;> decide

/-- Three bytes are written across the sector boundary and read back. -/
theorem openFile_refines_array_twoSectors :
    ∃ disk' into', (⟨twoSectors, 0⟩ : OpenFile).writeAt (fun _ _ => 0) (fun _ => 7)
        (fun i => .ofNat 8 (i + 1)) 3 127 = some (3, disk') ∧
      (⟨twoSectors, 0⟩ : OpenFile).readAt disk' (fun _ => 9) 0 4 126 = some (4, into') ∧
      into'.toList 0 4 = [0, 1, 2, 3] := by
  have hw : (⟨twoSectors, 0⟩ : OpenFile).hdr.WellFormed := wellFormed_twoSectors
  obtain ⟨-, hwrite, -⟩ := openFile_refines_array hw fun _ _ => 0
  obtain ⟨n, disk', hn, hwritten, hdata, -⟩ := hwrite (fun _ => 7) (fun i => .ofNat 8 (i + 1))
    3 127 ⟨by decide, by decide⟩
  obtain ⟨hread, -⟩ := openFile_refines_array hw disk'
  obtain ⟨k, into', hk, hgot, hlist, -⟩ := hread (fun _ => 9) 0 4 126 ⟨by decide, by decide⟩
  have hlen : (⟨twoSectors, 0⟩ : OpenFile).hdr.fileLength = 200 := by decide
  rw [hlen] at hn hk
  obtain rfl : n = 3 := by omega
  obtain rfl : k = 4 := by omega
  refine ⟨disk', into', hwritten, hgot, ?_⟩
  rw [hlist, slice_bytes]
  have hcount : transferred twoSectors.length 4 126 = 4 := by decide
  have hcontent : ∀ a < 200, content disk' twoSectors a =
      if 127 ≤ a ∧ a < 130 then .ofNat 8 (a - 127 + 1) else 0 := by
    intro a ha
    exact hdata a ha
  show (content disk' twoSectors).toList 126 (transferred twoSectors.length 4 126) = _
  rw [hcount]
  show [content disk' twoSectors 126, content disk' twoSectors 127, content disk' twoSectors 128,
    content disk' twoSectors 129] = _
  rw [hcontent 126 (by decide), hcontent 127 (by decide), hcontent 128 (by decide),
    hcontent 129 (by decide)]
  rfl

end Nachos

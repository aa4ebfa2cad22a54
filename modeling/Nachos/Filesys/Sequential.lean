import Nachos.Filesys.FlatFile
import Mathlib.Algebra.GroupWithZero.Nat

/-!
# Reading and writing from front to back

`Read` and `Write` move the position of their handle by what they have transferred. However the
data are cut into requests on either side, what is read back is what was written.
-/

namespace Nachos

open Framework

namespace OpenFile

variable {f : OpenFile} {disk : Disk}

/-! ## One request -/

/-- A `Read` of a handle whose requests so far have asked for `asked` bytes. -/
theorem read_next (hw : f.hdr.WellFormed) (disk : Disk) {asked : Nat}
    (hseek : f.seekPosition = (min asked f.hdr.length : Nat)) (into : Image) (numBytes : Int)
    (hfit : asked < f.hdr.length → asked + numBytes < 2 ^ 31) :
    ∃ into' : Image, f.read disk into numBytes =
        some (↑(slice (bytes disk f.hdr) asked numBytes.toNat).length, into',
          { f with seekPosition := (min (asked + numBytes.toNat) f.hdr.length : Nat) }) ∧
      into'.toList 0 (slice (bytes disk f.hdr) asked numBytes.toNat).length =
        slice (bytes disk f.hdr) asked numBytes.toNat := by
  have hlength := hw.length_le
  simp only [maxFileSize, numDirect, sectorSize] at hlength
  have hcount : (slice (bytes disk f.hdr) asked numBytes.toNat).length =
      min numBytes.toNat (f.hdr.length - asked) := by
    rw [length_slice, length_bytes]
  have hread : ∃ into', f.readAt disk into 0 numBytes (min asked f.hdr.length : Nat) =
        some (↑(slice (bytes disk f.hdr) asked numBytes.toNat).length, into') ∧
      into'.toList 0 (slice (bytes disk f.hdr) asked numBytes.toNat).length =
        slice (bytes disk f.hdr) asked numBytes.toNat := by
    rcases Nat.lt_or_ge asked f.hdr.length with hlt | hge
    · have hrange : InRange numBytes asked := ⟨by omega, hfit hlt⟩
      obtain ⟨into', hread, hslice, -⟩ := readAt_slice hw disk into 0 hrange
      rw [Nat.min_eq_left (Nat.le_of_lt hlt), hcount]
      exact ⟨into', hread, hslice⟩
    · -- at the end of the file every request is refused
      have hrefused : numBytes ≤ 0 ∨ f.hdr.fileLength ≤ (f.hdr.length : Int) :=
        .inr (Int.self_le_toNat _)
      have hnil : slice (bytes disk f.hdr) asked numBytes.toNat = [] := by
        apply List.eq_nil_of_length_eq_zero
        omega
      rw [Nat.min_eq_right hge, hnil]
      exact ⟨into, by rw [readAt, if_pos hrefused]; rfl, rfl⟩
  have hnext : int32 ((min asked f.hdr.length : Nat) +
        ((slice (bytes disk f.hdr) asked numBytes.toNat).length : Int)) =
      (min (asked + numBytes.toNat) f.hdr.length : Nat) := by
    rw [int32_of_range (by omega)]
    omega
  obtain ⟨into', hread, hlist⟩ := hread
  refine ⟨into', ?_, hlist⟩
  rw [read, hseek, hread, ← hnext]
  rfl

private theorem write_next (hw : f.hdr.WellFormed) {done rest : List (BitVec 8)}
    (hbytes : bytes disk f.hdr = done ++ rest) (hseek : f.seekPosition = done.length)
    (fresh source : Image) (numBytes : Nat) (hfit : numBytes ≤ rest.length) :
    ∃ disk' : Disk, f.write disk fresh source numBytes =
        some (↑numBytes, disk', { f with seekPosition := (done.length + numBytes : Nat) }) ∧
      bytes disk' f.hdr = (done ++ source.toList 0 numBytes) ++ rest.drop numBytes ∧
      ∀ s ∉ f.hdr.sectors, disk' s = disk s := by
  have hlength := hw.length_le
  simp only [maxFileSize, numDirect, sectorSize] at hlength
  have htotal : f.hdr.length = done.length + rest.length := by
    rw [← length_bytes disk, hbytes, List.length_append]
  have hrange : InRange numBytes done.length := ⟨by omega, by omega⟩
  obtain ⟨disk', hwrite, hwritten⟩ := writeAt_inRange hw disk fresh source hrange
  have hall : moved f.hdr numBytes done.length = numBytes := by
    simp only [moved, transferred]
    omega
  refine ⟨disk', ?_, ?_, hwritten.frame⟩
  · rw [write, hseek, hwrite, hall, ← int32_natCast (show done.length + numBytes < 2 ^ 31 by omega)]
    push_cast
    rfl
  · have hsource : (source.toList 0 numBytes).length = numBytes := Image.length_toList _ _ _
    have hflat := hwritten.bytes_eq
    rw [hbytes] at hflat
    exact hflat.trans ((overwrite_append done (by rw [Image.length_toList]; exact hfit)).trans
      (by rw [Int.toNat_natCast, hsource]))

/-! ## Sequences of requests -/

/-- The arguments of a `Write`, with the first contents of the temporary buffer. -/
structure WriteRequest where
  fresh : Image
  source : Image
  numBytes : Nat

def WriteRequest.data (r : WriteRequest) : List (BitVec 8) := r.source.toList 0 r.numBytes

def writeAll : OpenFile → Disk → List WriteRequest → Option (OpenFile × Disk)
  | f, disk, [] => some (f, disk)
  | f, disk, r :: rs => do
    let (_, disk, f) ← f.write disk r.fresh r.source r.numBytes
    writeAll f disk rs

/-- Every `Read` gives its result and the bytes it has put into its buffer. -/
def readAll (disk : Disk) : OpenFile → List (Image × Int) → Option (List (Int × List (BitVec 8)))
  | _, [] => some []
  | f, (into, numBytes) :: calls => do
    let (result, into, f) ← f.read disk into numBytes
    let results ← readAll disk f calls
    some ((result, into.toList 0 result.toNat) :: results)

theorem writeAll_append (hw : f.hdr.WellFormed) (requests : List WriteRequest)
    {done rest : List (BitVec 8)} (hbytes : bytes disk f.hdr = done ++ rest)
    (hseek : f.seekPosition = done.length)
    (hfit : (requests.flatMap WriteRequest.data).length ≤ rest.length) :
    ∃ f' disk', writeAll f disk requests = some (f', disk') ∧
      bytes disk' f.hdr = (done ++ requests.flatMap WriteRequest.data) ++
        rest.drop (requests.flatMap WriteRequest.data).length ∧
      ∀ s ∉ f.hdr.sectors, disk' s = disk s := by
  induction requests generalizing f disk done rest with
  | nil =>
    refine ⟨f, disk, rfl, ?_, fun _ _ => rfl⟩
    rw [List.flatMap_nil, List.append_nil, List.length_nil, List.drop_zero]
    exact hbytes
  | cons r rs ih =>
    have hdata : r.data.length = r.numBytes := Image.length_toList _ _ _
    rw [List.flatMap_cons, List.length_append, hdata] at hfit
    obtain ⟨disk₁, hwrite, hbytes₁, hframe₁⟩ := write_next hw hbytes hseek r.fresh r.source
      r.numBytes (by omega)
    obtain ⟨f', disk', hrun, hbytes', hframe'⟩ := ih
      (f := { f with seekPosition := (done.length + r.numBytes : Nat) }) hw hbytes₁
      (by rw [List.length_append, Image.length_toList]) (by rw [List.length_drop]; omega)
    refine ⟨f', disk', ?_, ?_, ?_⟩
    · rw [writeAll, hwrite]
      exact hrun
    · rw [hbytes', List.drop_drop, List.flatMap_cons, List.length_append, hdata]
      simp only [List.append_assoc, WriteRequest.data]
    · intro s hs
      exact (hframe' s hs).trans (hframe₁ s hs)

/-- No request before the end of the file ends beyond the integers; `asked` is what the requests
before have asked for. -/
def ReadsFit (length : Nat) : Nat → List Int → Prop
  | _, [] => True
  | asked, n :: ns => (asked < length → asked + n < 2 ^ 31) ∧ ReadsFit length (asked + n.toNat) ns

/-- The pieces with their sizes, as a run of `Read` should give them. -/
def expected (data : List (BitVec 8)) (sizes : List Int) : List (Int × List (BitVec 8)) :=
  (pieces data (sizes.map Int.toNat)).map fun piece => ((piece.length : Int), piece)

private theorem read_overflow (hw : f.hdr.WellFormed) {p : Nat} (hseek : f.seekPosition = p)
    (hp : p < f.hdr.length) {into into' : Image} {numBytes result : Int} {f' : OpenFile}
    (hint : numBytes < 2 ^ 31) (hover : 2 ^ 31 ≤ p + numBytes)
    (hread : f.read disk into numBytes = some (result, into', f')) : result = numBytes := by
  have hlength := hw.length_le
  simp only [maxFileSize, numDirect, sectorSize] at hlength
  rw [read, hseek] at hread
  obtain ⟨⟨result', into₁⟩, hreadAt, hread⟩ := Option.bind_eq_some_iff.mp hread
  obtain rfl : result' = result := (Prod.mk.inj (Option.some.inj hread)).1
  have hshort : p < 3840 := by omega
  have hbehind : (p : Int) < f.hdr.fileLength := by
    simp only [FileHeader.length] at hp
    omega
  have hgo : ¬ (numBytes ≤ 0 ∨ f.hdr.fileLength ≤ (p : Int)) := by omega
  have hclip : clip f.hdr.fileLength numBytes p = numBytes :=
    clip_overflow (by omega) hover (by omega)
  rw [readAt, if_neg hgo] at hreadAt
  simp only [hclip] at hreadAt
  split at hreadAt
  next => cases hreadAt
  next =>
    obtain ⟨buf, -, hreadAt⟩ := Option.bind_eq_some_iff.mp hreadAt
    split at hreadAt
    next => exact (Prod.mk.inj (Option.some.inj hreadAt)).1.symm
    next => cases hreadAt

/-- A run of `Read` gives consecutive pieces of the file, and nothing behind its end, exactly
when its requests fit. -/
private theorem readAll_iff (hw : f.hdr.WellFormed) (disk : Disk) {asked : Nat}
    (hseek : f.seekPosition = (min asked f.hdr.length : Nat)) (calls : List (Image × Int))
    (hint : ∀ c ∈ calls, c.2 < 2 ^ 31) :
    readAll disk f calls =
        some (expected ((bytes disk f.hdr).drop asked) (calls.map Prod.snd)) ↔
      ReadsFit f.hdr.length asked (calls.map Prod.snd) := by
  induction calls generalizing f asked with
  | nil => exact iff_of_true rfl trivial
  | cons c calls ih =>
    obtain ⟨into, numBytes⟩ := c
    have hlast := hint _ List.mem_cons_self
    simp only at hlast
    simp only [List.map_cons, ReadsFit, expected, pieces]
    by_cases hfit : asked < f.hdr.length → (asked : Int) + numBytes < 2 ^ 31
    · obtain ⟨into', hread, hlist⟩ := read_next hw disk hseek into numBytes hfit
      have hrest := ih
        (f := { f with seekPosition := (min (asked + numBytes.toNat) f.hdr.length : Nat) }) hw
        rfl fun c hc => hint c (List.mem_cons_of_mem _ hc)
      rw [readAll, hread]
      simp only [Option.bind_eq_bind, Option.bind_some, Int.toNat_natCast, hlist]
      unfold slice
      rw [and_iff_right hfit, ← hrest, List.drop_drop]
      constructor
      · intro hrun
        obtain ⟨results, hresults, hrun⟩ := Option.bind_eq_some_iff.mp hrun
        rw [hresults, (List.cons.inj (Option.some.inj hrun)).2]
        rfl
      · intro hrun
        rw [hrun]
        rfl
    · -- the result is larger than the file
      obtain ⟨hlt, hover⟩ := Classical.not_imp.mp hfit
      refine iff_of_false ?_ fun hall => hfit hall.1
      intro hrun
      rw [readAll] at hrun
      obtain ⟨⟨result, into', f'⟩, hread, hrun⟩ := Option.bind_eq_some_iff.mp hrun
      obtain ⟨results, -, hrun⟩ := Option.bind_eq_some_iff.mp hrun
      have hresult : result = numBytes := by
        apply read_overflow hw _ hlt hlast (Int.not_lt.mp hover) hread
        rw [hseek, Nat.min_eq_left (Nat.le_of_lt hlt)]
      have hcount : result = ((((bytes disk f.hdr).drop asked).take numBytes.toNat).length : Int) :=
        congrArg Prod.fst (List.cons.inj (Option.some.inj hrun)).1
      have hlength := hw.length_le
      simp only [maxFileSize, numDirect, sectorSize] at hlength
      rw [List.length_take, List.length_drop, length_bytes] at hcount
      omega

theorem readAll_new_iff {hdr : FileHeader} (hw : hdr.WellFormed) (disk : Disk)
    (calls : List (Image × Int)) (hint : ∀ c ∈ calls, c.2 < 2 ^ 31) :
    readAll disk { hdr := hdr, seekPosition := 0 } calls =
        some (expected (bytes disk hdr) (calls.map Prod.snd)) ↔
      ReadsFit hdr.length 0 (calls.map Prod.snd) := by
  have hstart : (0 : Int) = (min 0 hdr.length : Nat) := by
    rw [Nat.zero_min]
    rfl
  have hiff := readAll_iff (f := { hdr := hdr, seekPosition := 0 }) hw disk hstart calls hint
  rw [List.drop_zero] at hiff
  exact hiff

theorem writeAll_fills (hw : f.hdr.WellFormed) (disk : Disk) (requests : List WriteRequest)
    (hseek : f.seekPosition = 0)
    (hsize : (requests.map WriteRequest.numBytes).sum = f.hdr.length) :
    ∃ f' disk', writeAll f disk requests = some (f', disk') ∧
      bytes disk' f.hdr = requests.flatMap WriteRequest.data ∧
      ∀ s ∉ f.hdr.sectors, disk' s = disk s := by
  have hlength : (requests.flatMap WriteRequest.data).length = f.hdr.length := by
    rw [List.length_flatMap, ← hsize]
    congr 2
    funext r
    exact Image.length_toList _ _ _
  have hstart : bytes disk f.hdr = [] ++ bytes disk f.hdr := rfl
  obtain ⟨f', disk', hrun, hbytes, hframe⟩ := writeAll_append hw requests hstart hseek
    (Nat.le_of_eq (by rw [hlength, length_bytes]))
  refine ⟨f', disk', hrun, ?_, hframe⟩
  rw [hbytes, List.nil_append, hlength, ← length_bytes disk f.hdr, List.drop_length,
    List.append_nil]

end OpenFile

end Nachos

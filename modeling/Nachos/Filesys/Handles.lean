import Nachos.Filesys.Consistency
import Nachos.Filesys.RequestBounds

/-!
# Writes through file handles

An open file keeps the header it was opened with. `Remove` frees the sectors of a file at once
and `Create` may give them to another file, so a handle that is still open can write into a file
it was not opened for. As long as no write covers such a sector, and no call leaves its arrays, a
write changes one file only.
-/

namespace Nachos

open Framework

namespace OpenFile

/-! ## The sectors a write covers -/

/-- The request to write `numBytes` bytes from `position` on covers sector `s`. -/
def Covers (f : OpenFile) (numBytes position : Int) (s : Nat) : Prop :=
  0 < numBytes ∧ position < f.hdr.fileLength ∧
    ∃ i : Int, divRoundDown position sectorSize ≤ i ∧
      i ≤ divRoundDown (int32 (position + clip f.hdr.fileLength numBytes position - 1)) sectorSize ∧
      f.hdr.byteToSector (i * sectorSize) = some (s : Int)

private theorem byteToSector_eq_some {h : FileHeader} {i x : Int}
    (hx : h.byteToSector (i * sectorSize) = some x) :
    0 ≤ i ∧ i < numDirect ∧ x = (h.image.word (i.toNat + 2)).toInt := by
  rw [FileHeader.byteToSector, Int.mul_tdiv_cancel i (by decide), FileHeader.dataSectors] at hx
  split at hx
  next hi => exact ⟨hi.1, hi.2, (Option.some.inj hx).symm⟩
  next => cases hx

private theorem writeSectors_eq_some {h : FileHeader} {disk disk' : Disk} {first : Int}
    {buf : Image} {n : Nat} (hw : writeSectors h disk first buf n = some disk') :
    (∀ j < n, (h.byteToSector ((first + j) * sectorSize)).isSome) ∧
      ∀ t : Nat, (∀ j < n, h.byteToSector ((first + j) * sectorSize) ≠ some (t : Int)) →
        disk' t = disk t := by
  induction n generalizing disk' with
  | zero =>
    obtain rfl : disk = disk' := Option.some.inj hw
    refine ⟨?_, fun _ _ => rfl⟩
    intro j hj
    omega
  | succ n ih =>
    simp only [writeSectors, Option.bind_eq_bind] at hw
    obtain ⟨disk₁, hrest, hw⟩ := Option.bind_eq_some_iff.mp hw
    obtain ⟨sector, hsector, hw⟩ := Option.bind_eq_some_iff.mp hw
    obtain ⟨hsome, hframe⟩ := ih hrest
    constructor
    · intro j hj
      rcases Nat.lt_succ_iff_lt_or_eq.mp hj with hlt | rfl
      · exact hsome j hlt
      · rw [hsector]
        rfl
    · intro t ht
      simp only [Disk.writeSector] at hw
      split at hw
      next hrange =>
        obtain rfl := Option.some.inj hw
        have hne : t ≠ sector.toNat := by
          intro heq
          apply ht n (Nat.lt_succ_self n)
          rw [hsector, heq, Int.toNat_of_nonneg hrange.1]
        rw [Function.update_of_ne hne]
        exact hframe t fun j hj => ht j (by omega)
      next => cases hw

/-- What a `WriteAt` that returns has done: nothing, or one run of the loop over the sectors the
request covers, with the bytes inside the temporary buffer. -/
private theorem writeAt_eq_some {f : OpenFile} {disk disk' : Disk} {fresh source : Image}
    {numBytes position result : Int}
    (hw : f.writeAt disk fresh source numBytes position = some (result, disk')) :
    disk' = disk ∨
      (0 < numBytes ∧ position < f.hdr.fileLength) ∧
      ∃ n first last buf, n = clip f.hdr.fileLength numBytes position ∧
        first = divRoundDown position sectorSize ∧
        last = divRoundDown (int32 (position + n - 1)) sectorSize ∧
        0 ≤ position - first * sectorSize ∧ 0 ≤ n ∧
        position - first * sectorSize + n ≤ (1 + last - first) * sectorSize ∧
        writeSectors f.hdr disk first buf (1 + last - first).toNat = some disk' := by
  simp only [writeAt] at hw
  split at hw
  next => exact .inl (Prod.mk.inj (Option.some.inj hw)).2.symm
  next hmoves =>
    split at hw
    next => cases hw
    next =>
      simp only [Option.bind_eq_bind] at hw
      obtain ⟨buf₁, -, hw⟩ := Option.bind_eq_some_iff.mp hw
      obtain ⟨buf₂, -, hw⟩ := Option.bind_eq_some_iff.mp hw
      split at hw
      next hbound =>
        obtain ⟨disk₁, hloop, hw⟩ := Option.bind_eq_some_iff.mp hw
        obtain rfl := (Prod.mk.inj (Option.some.inj hw)).2
        exact .inr ⟨by omega, _, _, _, _, rfl, rfl, rfl, hbound.1, hbound.2.1, hbound.2.2, hloop⟩
      next => cases hw

private theorem writeAt_frame {f : OpenFile} {disk disk' : Disk} {fresh source : Image}
    {numBytes position result : Int}
    (hw : f.writeAt disk fresh source numBytes position = some (result, disk')) {t : Nat}
    (ht : ¬ f.Covers numBytes position t) : disk' t = disk t := by
  rcases writeAt_eq_some hw with rfl | ⟨hmoves, n, first, last, buf, rfl, rfl, rfl, -, -, -, hloop⟩
  · rfl
  · apply (writeSectors_eq_some hloop).2 t
    intro j hj hsector
    exact ht ⟨hmoves.1, hmoves.2, _, by omega, by omega, hsector⟩

/-- Through the header of a file that is in order, a write that returns covers sectors of that
file only. -/
private theorem Covers.mem_sectors {f : OpenFile} (hwf : f.hdr.WellFormed) {disk disk' : Disk}
    {fresh source : Image} {numBytes position result : Int}
    (hw : f.writeAt disk fresh source numBytes position = some (result, disk')) {t : Nat}
    (ht : f.Covers numBytes position t) (hchange : disk' ≠ disk) : t ∈ f.hdr.sectors := by
  obtain ⟨hnum, hpos, i, hfirst, hlast, hsector⟩ := ht
  rcases writeAt_eq_some hw with hsame | ⟨-, n, first, last, buf, hn, rfl, rfl, hstart, hn₀, hend,
    hloop⟩
  · exact absurd hsame hchange
  rw [← hn] at hlast
  -- every round of the loop found its sector in the table
  have hround : ∀ k : Int, divRoundDown position sectorSize ≤ k →
      k ≤ divRoundDown (int32 (position + n - 1)) sectorSize → 0 ≤ k ∧ k < numDirect := by
    intro k hk hk'
    have hsome := (writeSectors_eq_some hloop).1 (k - divRoundDown position sectorSize).toNat
      (by omega)
    obtain ⟨x, hx⟩ := Option.isSome_iff_exists.mp hsome
    have hindex := byteToSector_eq_some hx
    omega
  have hfirst₀ := hround _ (Int.le_refl _) (hfirst.trans hlast)
  have hlast₀ := hround _ (hfirst.trans hlast) (Int.le_refl _)
  have hlen := hwf.length_le
  have hlength : f.hdr.length = f.hdr.fileLength.toNat := rfl
  simp only [maxFileSize, numDirect, sectorSize] at hfirst₀ hlast₀ hlen hstart hend
  have hint : int32 (position + n - 1) = position + n - 1 := int32_of_range (by omega)
  have hsize : 0 < n ∧ position + n ≤ f.hdr.fileLength := by
    rw [clip] at hn
    split at hn
    next =>
      rw [int32_of_range (by omega)] at hn
      omega
    next hfit =>
      rw [int32_of_range (by omega)] at hfit
      omega
  have hcount : i.toNat < f.hdr.count := by
    have hi := byteToSector_eq_some hsector
    rw [hwf.count_eq]
    rw [hint, divRoundDown] at hlast
    simp only [FileHeader.sectorsFor, sectorSize] at hlast ⊢
    rw [Int.tdiv_eq_ediv_of_nonneg (by omega)] at hlast
    omega
  have hmem := FileHeader.WellFormed.sector_mem hcount
  have heq := (byteToSector_eq_some hsector).2.2
  rw [hwf.sector_toInt hcount] at heq
  rwa [Int.ofNat_inj.mp heq]

end OpenFile

/-! ## What a write keeps -/

/-- A file has the same header and the same bytes on two disks. -/
structure Disk.SameFile (disk disk' : Disk) (f : FileRef) : Prop where
  headerSector : disk'.headerSector f = disk.headerSector f
  header : ∀ s, disk.headerSector f = some s → disk'.header s = disk.header s
  content : ∀ s, disk.headerSector f = some s → ∀ a < (disk.header s).length,
    OpenFile.content disk' (disk'.header s) a = OpenFile.content disk (disk.header s) a

theorem FileSystem.Inv.sameFile {fs : FileSystem} {disk disk' : Disk} (h : fs.Inv disk)
    {f : FileRef} (hsector : disk'.headerSector f = disk.headerSector f)
    (hkept : ∀ s, disk.headerSector f = some s →
      disk' s = disk s ∧ ∀ t ∈ (disk.header s).sectors, disk' t = disk t) :
    disk.SameFile disk' f := by
  have hheader : ∀ s, disk.headerSector f = some s → disk'.header s = disk.header s := by
    intro s hs
    rw [Disk.header, Disk.header, (hkept s hs).1]
  refine ⟨hsector, hheader, ?_⟩
  intro s hs a ha
  rw [hheader s hs]
  exact OpenFile.content_congr (h.wellFormed f s hs) (hkept s hs).2 a ha

def Disk.SameHeaders (disk disk' : Disk) : Prop :=
  ∀ f, disk'.headerSector f = disk.headerSector f ∧
    ∀ t, disk.headerSector f = some t → disk' t = disk t

section Wrote

variable {fs : FileSystem} {disk disk' : Disk}

private theorem FileSystem.Inv.wrote_free (h : fs.Inv disk)
    (hframe : ∀ t, disk.Marked t → disk' t = disk t) :
    fs.Inv disk' ∧ disk.SameHeaders disk' ∧ ∀ f, disk.SameFile disk' f := by
  have hkept : ∀ f t, disk.headerSector f = some t → disk' t = disk t :=
    fun f t ht => hframe t (h.marked_of_header ht)
  have hdata : ∀ f s, disk.headerSector f = some s →
      ∀ t ∈ (disk.header s).sectors, disk' t = disk t :=
    fun f s hs t ht => hframe t (h.marked_of_data hs ht)
  obtain ⟨hinv, hheader⟩ := h.kept hkept
    (by rw [h.mapFile]; exact hdata .freeMap _ rfl)
    (by rw [h.dirFile]; exact hdata .directory _ rfl)
  exact ⟨hinv, fun f => ⟨hheader f, hkept f⟩,
    fun f => h.sameFile (hheader f) fun s hs => ⟨hkept f s hs, hdata f s hs⟩⟩

theorem FileSystem.Inv.wrote_own (h : fs.Inv disk) {i n : Nat}
    (hn : disk.headerSector (.entry i) = some n)
    (hframe : ∀ t ∉ (disk.header n).sectors, disk' t = disk t) :
    fs.Inv disk' ∧ disk.SameHeaders disk' ∧ ∀ f, f ≠ .entry i → disk.SameFile disk' f := by
  obtain ⟨hinv, hheader, hkept⟩ := h.stored hn hframe
  refine ⟨hinv, fun f => ⟨hheader f, hkept f⟩, ?_⟩
  intro f hf
  apply h.sameFile (hheader f)
  intro s hs
  exact ⟨hkept f s hs, fun t ht => hframe t (h.data_disjoint hs hn hf ht)⟩

end Wrote

/-! ## Runs with any calls -/

/-- The calls of a run. `mount` starts Nachos again on the disk without formatting it. -/
inductive FileCall
  | call (c : Call)
  | seek (handle : Nat) (position : Int)
  | read (handle : Nat) (into : Image) (numBytes : Int)
  | write (handle : Nat) (source : Image) (numBytes : Int)
  | mount

namespace Session

def setFile (s : Session) (k : Nat) (h : Handle) (file : OpenFile) : Session :=
  { s with handles := s.handles.set k { h with file := file } }

/-- One call. `none` is a failed ASSERT or an access outside an array. -/
def perform (s : Session) (fresh : Nat → Image) : FileCall → Option Session
  | .call c => s.exec fresh c
  | .seek k position => do
    let h ← s.handles[k]?
    some (s.setFile k h (h.file.seek position))
  | .read k into numBytes => do
    let h ← s.handles[k]?
    let (_, _, file) ← h.file.read s.disk into numBytes
    some (s.setFile k h file)
  | .write k source numBytes => do
    let h ← s.handles[k]?
    let (_, disk, file) ← h.file.write s.disk (fresh 0) source numBytes
    some ({ s with disk := disk }.setFile k h file)
  | .mount => do
    let (fs, disk) ← FileSystem.new s.disk fresh false
    some { disk := disk, fs := fs, handles := [] }

def request (s : Session) : FileCall → Option (Handle × Int × Int)
  | .call (.writeAt k _ numBytes position) => s.handles[k]?.map (·, numBytes, position)
  | .write k _ numBytes => s.handles[k]?.map fun h => (h, numBytes, h.file.seekPosition)
  | _ => none

/-- A size is an `int`. -/
def InRange : FileCall → Prop
  | .call (.create _ initialSize) => -2 ^ 31 ≤ initialSize ∧ initialSize < 2 ^ 31
  | _ => True

def transfer (s : Session) : FileCall → Option (Handle × Int × Int)
  | .call (.readAt k _ numBytes position) => s.handles[k]?.map (·, numBytes, position)
  | .read k _ numBytes => s.handles[k]?.map fun h => (h, numBytes, h.file.seekPosition)
  | c => s.request c

/-- The call makes no access outside an array, and a write goes through a handle whose file has
not been removed since it was opened, or covers only sectors that are free now. -/
structure Guarded (s : Session) (c : FileCall) : Prop where
  bounds : ∀ h numBytes position, s.transfer c = some (h, numBytes, position) →
    h.file.Refused numBytes position ∨ OpenFile.InRange numBytes position
  size : ∀ name initialSize, c = .call (.create name initialSize) →
    s.disk.CanCreate name initialSize.toNat → initialSize ≤ maxFileSize
  spares : ∀ h numBytes position, s.request c = some (h, numBytes, position) →
    h.removed = false ∨ ∀ t, h.file.Covers numBytes position t → ¬ s.disk.Marked t

/-- Runs from a formatted disk, with every call and every argument for which no access leaves its
array. -/
def handleSystem : System Session (FileCall × (Nat → Image)) where
  init := system.init
  step s l s' := InRange l.1 ∧ s.perform l.2 l.1 = some s'

variable {s s' : Session}

theorem Inv.setFile (h : s.Inv) {k : Nat} {hd : Handle} (hk : s.handles[k]? = some hd)
    {file : OpenFile} (hhdr : file.hdr = hd.file.hdr) : (s.setFile k hd file).Inv := by
  refine ⟨h.fs, ?_⟩
  intro hd' hmem hlive
  rcases List.mem_or_eq_of_mem_set hmem with hmem | rfl
  · exact h.handles hd' hmem hlive
  · obtain ⟨n, hn, heq⟩ := h.handles hd (List.mem_of_getElem? hk) hlive
    exact ⟨n, hn, hhdr.trans heq⟩

theorem Inv.wrote (h : s.Inv) {hd : Handle} (hmem : hd ∈ s.handles) {fresh source : Image}
    {numBytes position result : Int} {disk' : Disk}
    (hsafe : hd.removed = false ∨ ∀ t, hd.file.Covers numBytes position t → ¬ s.disk.Marked t)
    (hw : hd.file.writeAt s.disk fresh source numBytes position = some (result, disk')) :
    { s with disk := disk' }.Inv ∧
      ∀ f, (hd.removed = false → f ≠ .entry hd.entry) → s.disk.SameFile disk' f := by
  have hfiles : s.fs.Inv disk' ∧ s.disk.SameHeaders disk' ∧
      ∀ f, (hd.removed = false → f ≠ .entry hd.entry) → s.disk.SameFile disk' f := by
    cases hrem : hd.removed with
    | false =>
      obtain ⟨n, hn, hhdr⟩ := h.handles hd hmem hrem
      have hwf : hd.file.hdr.WellFormed := by
        rw [hhdr]
        exact h.fs.wellFormed _ n hn
      have hframe : ∀ t ∉ (s.disk.header n).sectors, disk' t = s.disk t := by
        intro t ht
        rw [← hhdr] at ht
        by_cases hsame : disk' = s.disk
        · rw [hsame]
        · exact OpenFile.writeAt_frame hw fun hcov => ht (hcov.mem_sectors hwf hw hsame)
      obtain ⟨hinv, hheaders, hother⟩ := h.fs.wrote_own hn hframe
      exact ⟨hinv, hheaders, fun f hf => hother f (hf rfl)⟩
    | true =>
      have hfree := hsafe.resolve_left (by rw [hrem]; decide)
      have hframe : ∀ t, s.disk.Marked t → disk' t = s.disk t :=
        fun t ht => OpenFile.writeAt_frame hw fun hcov => hfree t hcov ht
      obtain ⟨hinv, hheaders, hall⟩ := h.fs.wrote_free hframe
      exact ⟨hinv, hheaders, fun f _ => hall f⟩
  obtain ⟨hinv, hheaders, hother⟩ := hfiles
  refine ⟨⟨hinv, ?_⟩, hother⟩
  intro hd' hmem' hlive
  exact (h.handles hd' hmem' hlive).kept (hheaders _).1 (hheaders _).2

private theorem perform_request {fresh : Nat → Image} {c : FileCall}
    (hp : s.perform fresh c = some s') {hd : Handle} {numBytes position : Int}
    (hreq : s.request c = some (hd, numBytes, position)) :
    ∃ k source result disk' file, s.handles[k]? = some hd ∧
      hd.file.writeAt s.disk (fresh 0) source numBytes position = some (result, disk') ∧
      s'.disk = disk' ∧ file.hdr = hd.file.hdr ∧
      (s' = { s with disk := disk' } ∨ s' = { s with disk := disk' }.setFile k hd file) := by
  cases c with
  | call c =>
    cases c with
    | writeAt k source n p =>
      obtain ⟨hd', hk, heq⟩ := Option.map_eq_some_iff.mp hreq
      cases heq
      simp only [perform, exec, hk, Option.bind_eq_bind, Option.bind_some] at hp
      obtain ⟨⟨result, disk'⟩, hw, hp⟩ := Option.bind_eq_some_iff.mp hp
      obtain rfl := Option.some.inj hp
      exact ⟨k, source, result, disk', hd.file, hk, hw, rfl, rfl, .inl rfl⟩
    | create name size => cases hreq
    | openFile name => cases hreq
    | remove name => cases hreq
    | readAt k into n p => cases hreq
  | write k source n =>
    obtain ⟨hd', hk, heq⟩ := Option.map_eq_some_iff.mp hreq
    cases heq
    simp only [perform, hk, OpenFile.write, Option.bind_eq_bind, Option.bind_some] at hp
    obtain ⟨⟨r, disk₁, file⟩, hwrite, hp⟩ := Option.bind_eq_some_iff.mp hp
    obtain ⟨⟨result, disk'⟩, hw, hwrite⟩ := Option.bind_eq_some_iff.mp hwrite
    cases hwrite
    obtain rfl := Option.some.inj hp
    exact ⟨k, source, result, disk', { hd.file with
      seekPosition := int32 (hd.file.seekPosition + result) }, hk, hw, rfl, rfl, .inr rfl⟩
  | seek k position => cases hreq
  | read k into n => cases hreq
  | mount => cases hreq

private theorem Inv.guarded_write (h : s.Inv) {fresh : Nat → Image} {c : FileCall}
    (hp : s.perform fresh c = some s') {hd : Handle} {numBytes position : Int}
    (hreq : s.request c = some (hd, numBytes, position)) (hsafe : s.Guarded c) :
    s'.Inv ∧ ∀ f, (hd.removed = false → f ≠ .entry hd.entry) → s.disk.SameFile s'.disk f := by
  obtain ⟨k, source, result, disk', file, hk, hw, hdisk, hhdr, hs'⟩ := perform_request hp hreq
  obtain ⟨hinv, hother⟩ :=
    h.wrote (List.mem_of_getElem? hk) (hsafe.spares hd numBytes position hreq) hw
  rw [hdisk]
  refine ⟨?_, hother⟩
  rcases hs' with rfl | rfl
  · exact hinv
  · exact hinv.setFile hk hhdr

theorem Inv.perform (h : s.Inv) {fresh : Nat → Image} {c : FileCall} (hrange : InRange c)
    (hsafe : s.Guarded c) (hp : s.perform fresh c = some s') : s'.Inv := by
  cases hreq : s.request c with
  | some r => exact (h.guarded_write hp hreq hsafe).1
  | none =>
    cases c with
    | call c =>
      cases c with
      | create name size =>
        rcases h.create_cases fresh name hrange.1 with ⟨-, hnone⟩ | ⟨s₁, hexec, hinv⟩
        · cases hnone.symm.trans hp
        · obtain rfl := Option.some.inj (hexec.symm.trans hp)
          exact hinv
      | openFile name =>
        obtain ⟨s₁, hexec, hinv⟩ := h.openFile fresh name
        obtain rfl := Option.some.inj (hexec.symm.trans hp)
        exact hinv
      | remove name =>
        obtain ⟨s₁, hexec, hinv⟩ := h.remove fresh name
        obtain rfl := Option.some.inj (hexec.symm.trans hp)
        exact hinv
      | readAt k into n p =>
        simp only [Session.perform, Session.exec, Option.bind_eq_bind] at hp
        obtain ⟨hd, -, hp⟩ := Option.bind_eq_some_iff.mp hp
        obtain ⟨r, -, hp⟩ := Option.bind_eq_some_iff.mp hp
        obtain rfl := Option.some.inj hp
        exact h
      | writeAt k source n p =>
        simp only [Session.perform, Session.exec, Option.bind_eq_bind] at hp
        obtain ⟨hd, hk, -⟩ := Option.bind_eq_some_iff.mp hp
        simp only [request, hk, Option.map_some, reduceCtorEq] at hreq
    | seek k position =>
      simp only [Session.perform, Option.bind_eq_bind] at hp
      obtain ⟨hd, hk, hp⟩ := Option.bind_eq_some_iff.mp hp
      obtain rfl := Option.some.inj hp
      exact h.setFile hk rfl
    | read k into n =>
      simp only [Session.perform, OpenFile.read, Option.bind_eq_bind] at hp
      obtain ⟨hd, hk, hp⟩ := Option.bind_eq_some_iff.mp hp
      obtain ⟨⟨r, into', file⟩, hread, hp⟩ := Option.bind_eq_some_iff.mp hp
      obtain ⟨x, -, hread⟩ := Option.bind_eq_some_iff.mp hread
      cases hread
      obtain rfl := Option.some.inj hp
      exact h.setFile hk rfl
    | write k source n =>
      simp only [Session.perform, Option.bind_eq_bind] at hp
      obtain ⟨hd, hk, -⟩ := Option.bind_eq_some_iff.mp hp
      simp only [request, hk, Option.map_some, reduceCtorEq] at hreq
    | mount =>
      simp only [Session.perform, FileSystem.new, FileSystem.openFiles_eq, Bool.false_eq_true,
        if_false, Option.bind_eq_bind, Option.bind_some] at hp
      obtain rfl := Option.some.inj hp
      refine ⟨⟨h.fs.alloc, h.fs.wellFormed, h.fs.mapLength, h.fs.dirLength, rfl, rfl⟩, ?_⟩
      intro hd hmem
      cases hmem

theorem guarded_inductive : (handleSystem.restrict fun s l => s.Guarded l.1).Inductive Inv where
  init := inv_inductive.init
  step := by
    intro s l s' h hst
    exact h.perform hst.2.1 hst.1 hst.2.2

/-! ## Guarded calls return -/

private theorem Inv.perform_header (h : s.Inv) {fresh : Nat → Image} {c : FileCall}
    (hp : s.perform fresh c = some s') {hd' : Handle} (hmem : hd' ∈ s'.handles) :
    (∃ hd ∈ s.handles, hd'.file.hdr = hd.file.hdr) ∨
      ∃ f t, s.disk.headerSector f = some t ∧ hd'.file.hdr = s.disk.header t := by
  have hset {k : Nat} {hd : Handle} (hk : s.handles[k]? = some hd) (file : OpenFile)
      (hhdr : file.hdr = hd.file.hdr) (hmem : hd' ∈ s.handles.set k { hd with file := file }) :
      ∃ hd ∈ s.handles, hd'.file.hdr = hd.file.hdr := by
    rcases List.mem_or_eq_of_mem_set hmem with hold | rfl
    · exact ⟨hd', hold, rfl⟩
    · exact ⟨hd, List.mem_of_getElem? hk, hhdr⟩
  cases c with
  | call c =>
    cases c with
    | create name size =>
      obtain ⟨r, -, hp⟩ := Option.bind_eq_some_iff.mp hp
      obtain rfl := Option.some.inj hp
      exact .inl ⟨hd', hmem, rfl⟩
    | openFile name =>
      rcases h.openFile_cases fresh name with ⟨-, hexec⟩ | ⟨i, t, -, ht, hexec⟩
      · obtain rfl := Option.some.inj (hexec.symm.trans hp)
        exact .inl ⟨hd', hmem, rfl⟩
      · obtain rfl := Option.some.inj (hexec.symm.trans hp)
        rcases List.mem_append.mp hmem with hold | hnew
        · exact .inl ⟨hd', hold, rfl⟩
        · obtain rfl := List.mem_singleton.mp hnew
          exact .inr ⟨_, t, ht, rfl⟩
    | remove name =>
      obtain ⟨⟨success, disk⟩, -, hp⟩ := Option.bind_eq_some_iff.mp hp
      dsimp only at hp
      split at hp
      · obtain rfl := Option.some.inj hp
        obtain ⟨hd, hold, rfl⟩ := List.mem_map.mp hmem
        refine .inl ⟨hd, hold, ?_⟩
        split <;> rfl
      · obtain rfl := Option.some.inj hp
        exact .inl ⟨hd', hmem, rfl⟩
    | readAt k into n p =>
      obtain ⟨hd, -, hp⟩ := Option.bind_eq_some_iff.mp hp
      obtain ⟨r, -, hp⟩ := Option.bind_eq_some_iff.mp hp
      obtain rfl := Option.some.inj hp
      exact .inl ⟨hd', hmem, rfl⟩
    | writeAt k source n p =>
      obtain ⟨hd, -, hp⟩ := Option.bind_eq_some_iff.mp hp
      obtain ⟨r, -, hp⟩ := Option.bind_eq_some_iff.mp hp
      obtain rfl := Option.some.inj hp
      exact .inl ⟨hd', hmem, rfl⟩
  | seek k position =>
    obtain ⟨hd, hk, hp⟩ := Option.bind_eq_some_iff.mp hp
    obtain rfl := Option.some.inj hp
    exact .inl (hset hk (hd.file.seek position) rfl hmem)
  | read k into n =>
    obtain ⟨hd, hk, hp⟩ := Option.bind_eq_some_iff.mp hp
    obtain ⟨r, hread, hp⟩ := Option.bind_eq_some_iff.mp hp
    obtain ⟨x, -, hread⟩ := Option.bind_eq_some_iff.mp hread
    obtain rfl := Option.some.inj hread
    obtain rfl := Option.some.inj hp
    exact .inl (hset hk { hd.file with
      seekPosition := int32 (hd.file.seekPosition + x.1) } rfl hmem)
  | write k source n =>
    obtain ⟨hd, hk, hp⟩ := Option.bind_eq_some_iff.mp hp
    obtain ⟨r, hwrite, hp⟩ := Option.bind_eq_some_iff.mp hp
    obtain ⟨x, -, hwrite⟩ := Option.bind_eq_some_iff.mp hwrite
    obtain rfl := Option.some.inj hwrite
    obtain rfl := Option.some.inj hp
    exact .inl (hset hk { hd.file with
      seekPosition := int32 (hd.file.seekPosition + x.1) } rfl hmem)
  | mount =>
    simp only [Session.perform, FileSystem.new, FileSystem.openFiles_eq, Bool.false_eq_true,
      if_false, Option.bind_eq_bind, Option.bind_some] at hp
    obtain rfl := Option.some.inj hp
    cases hmem

theorem wellFormed_inductive : (handleSystem.restrict fun s l => s.Guarded l.1).Inductive
    fun s => s.Inv ∧ ∀ hd ∈ s.handles, hd.file.hdr.WellFormed where
  init := by
    intro s hs
    refine ⟨inv_inductive.init s hs, ?_⟩
    rw [hs.1]
    intro hd hmem
    cases hmem
  step := by
    rintro s l s' ⟨h, hwf⟩ hst
    refine ⟨h.perform hst.2.1 hst.1 hst.2.2, ?_⟩
    intro hd' hmem
    rcases h.perform_header hst.2.2 hmem with ⟨hd, hold, heq⟩ | ⟨f, t, ht, heq⟩
    · rw [heq]
      exact hwf hd hold
    · rw [heq]
      exact h.fs.wellFormed f t ht

private theorem readAt_isSome {f : OpenFile} (hwf : f.hdr.WellFormed) {numBytes position : Int}
    (hb : f.Refused numBytes position ∨ OpenFile.InRange numBytes position) (disk : Disk)
    (into : Image) : ∃ r, f.readAt disk into 0 numBytes position = some r := by
  rcases hb with hrefused | hrange
  · exact ⟨_, if_pos hrefused⟩
  · exact ⟨_, OpenFile.readAt_inRange hwf disk into 0 hrange⟩

private theorem writeAt_isSome {f : OpenFile} (hwf : f.hdr.WellFormed) {numBytes position : Int}
    (hb : f.Refused numBytes position ∨ OpenFile.InRange numBytes position) (disk : Disk)
    (fresh source : Image) : ∃ r, f.writeAt disk fresh source numBytes position = some r := by
  rcases hb with hrefused | hrange
  · exact ⟨_, if_pos hrefused⟩
  · obtain ⟨disk', hok, -⟩ := OpenFile.writeAt_inRange hwf disk fresh source hrange
    exact ⟨_, hok⟩

def handleOf : FileCall → Option Nat
  | .call (.readAt k _ _ _) | .call (.writeAt k _ _ _) => some k
  | .seek k _ | .read k _ _ | .write k _ _ => some k
  | _ => none

/-- A guarded call on an open file returns, so the runs leave out no call that meets the
condition. -/
theorem guarded_returns (hr : (handleSystem.restrict fun s l => s.Guarded l.1).Reachable s)
    {c : FileCall} (hrange : InRange c) (hsafe : s.Guarded c)
    (hopen : ∀ k ∈ handleOf c, k < s.handles.length) (fresh : Nat → Image) :
    ∃ s', s.perform fresh c = some s' := by
  obtain ⟨h, hwf⟩ := wellFormed_inductive.of_reachable hr
  have hget {k : Nat} (hk : handleOf c = some k) :
      ∃ hd, s.handles[k]? = some hd ∧ hd.file.hdr.WellFormed := by
    have hlt := hopen k hk
    exact ⟨_, List.getElem?_eq_getElem hlt, hwf _ (List.getElem_mem hlt)⟩
  cases c with
  | call c =>
    cases c with
    | create name size =>
      rcases h.fs.create_spec fresh name hrange.1 with
        ⟨-, hfail⟩ | ⟨hcan, hlong, -⟩ | ⟨-, -, i, t, hdr, disk', hok, -⟩
      · simp only [Session.perform, exec, hfail, Option.bind_eq_bind, Option.bind_some]
        exact ⟨_, rfl⟩
      · have hshort := hsafe.size name size rfl hcan
        omega
      · simp only [Session.perform, exec, hok, Option.bind_eq_bind, Option.bind_some]
        exact ⟨_, rfl⟩
    | openFile name =>
      obtain ⟨s₁, hexec, -⟩ := h.openFile fresh name
      exact ⟨s₁, hexec⟩
    | remove name =>
      obtain ⟨s₁, hexec, -⟩ := h.remove fresh name
      exact ⟨s₁, hexec⟩
    | readAt k into n p =>
      obtain ⟨hd, hk, hw⟩ := hget rfl
      have hb := hsafe.bounds hd n p (by rw [transfer, hk]; rfl)
      obtain ⟨r, hr⟩ := readAt_isSome hw hb s.disk into
      simp only [Session.perform, exec, hk, hr, Option.bind_eq_bind, Option.bind_some]
      exact ⟨_, rfl⟩
    | writeAt k source n p =>
      obtain ⟨hd, hk, hw⟩ := hget rfl
      have hreq : s.request (.call (.writeAt k source n p)) = some (hd, n, p) := by
        rw [request, hk]
        rfl
      have hb := hsafe.bounds hd n p hreq
      obtain ⟨r, hr⟩ := writeAt_isSome hw hb s.disk (fresh 0) source
      simp only [Session.perform, exec, hk, hr, Option.bind_eq_bind, Option.bind_some]
      exact ⟨_, rfl⟩
  | seek k position =>
    obtain ⟨hd, hk, -⟩ := hget rfl
    simp only [Session.perform, hk, Option.bind_eq_bind, Option.bind_some]
    exact ⟨_, rfl⟩
  | read k into n =>
    obtain ⟨hd, hk, hw⟩ := hget rfl
    have hb := hsafe.bounds hd n _ (by rw [transfer, hk]; rfl)
    obtain ⟨r, hr⟩ := readAt_isSome hw hb s.disk into
    simp only [Session.perform, OpenFile.read, hk, hr, Option.bind_eq_bind, Option.bind_some]
    exact ⟨_, rfl⟩
  | write k source n =>
    obtain ⟨hd, hk, hw⟩ := hget rfl
    have hreq : s.request (.write k source n) = some (hd, n, hd.file.seekPosition) := by
      rw [request, hk]
      rfl
    have hb := hsafe.bounds hd n _ hreq
    obtain ⟨r, hr⟩ := writeAt_isSome hw hb s.disk (fresh 0) source
    simp only [Session.perform, OpenFile.write, hk, hr, Option.bind_eq_bind, Option.bind_some]
    exact ⟨_, rfl⟩
  | mount =>
    simp only [Session.perform, FileSystem.new, FileSystem.openFiles_eq, Bool.false_eq_true,
      if_false, Option.bind_eq_bind, Option.bind_some]
    exact ⟨_, rfl⟩

end Session

/-- In a run whose calls stay inside their arrays, and whose writes through a handle never cover a
sector that was taken from the removed file of the handle and given to another, every write changes
at most the file its handle was opened for: each other file of the directory, the directory and the
free map keep their headers and their bytes. -/
theorem write_changes_own_file {s s' : Session}
    (hs : (Session.handleSystem.restrict fun s l => s.Guarded l.1).Reachable s)
    {fresh : Nat → Image} {c : FileCall} (hsafe : s.Guarded c)
    (hp : s.perform fresh c = some s') {h : Handle} {numBytes position : Int}
    (hreq : s.request c = some (h, numBytes, position)) :
    ∀ f, (h.removed = false → f ≠ .entry h.entry) → s.disk.SameFile s'.disk f :=
  ((Session.guarded_inductive.of_reachable hs).guarded_write hp hreq hsafe).2

/-! ## A handle that outlives its file -/

def letter (c : BitVec 8) : Image := fun j => if j = 0 then c else 0

private theorem opened_session : ∃ (disk₀ disk : Disk) (fs : FileSystem) (i t : Nat)
    (hdr : FileHeader), fs.Inv disk₀ ∧ (∀ name, disk₀.CanCreate name 128) ∧
      fs.Created disk₀ disk (letter 97) i t hdr ∧ hdr.length = 128 ∧
      (Session.handleSystem.restrict fun s l => s.Guarded l.1).Reachable
        ⟨disk, fs, [⟨{ hdr := disk.header t, seekPosition := 0 }, i, false⟩]⟩ := by
  obtain ⟨fs, disk₀, hnew, hinv, hcan⟩ :=
    FileSystem.new_format (fun _ _ => 0) (fun _ _ => 0)
  have hstart : (Session.handleSystem.restrict fun s l => s.Guarded l.1).Reachable
      ⟨disk₀, fs, []⟩ := .init ⟨rfl, _, _, hnew⟩
  have hsize : 128 ≤ 1018 * sectorSize := by decide
  obtain ⟨i, t, hdr, disk, hok, hsized, hc⟩ := hinv.create_ok (fun _ _ => 0)
    (show -2 ^ 31 ≤ (128 : Int) by decide) (by decide) (hcan (letter 97) _ hsize)
  have hcreated : (Session.handleSystem.restrict fun s l => s.Guarded l.1).Reachable
      ⟨disk, fs, []⟩ := by
    apply hstart.step (l := (.call (.create (letter 97) 128), fun _ _ => 0))
    refine ⟨⟨?_, ?_, ?_⟩, ⟨by decide, by decide⟩, ?_⟩
    · intro h numBytes position hreq
      cases hreq
    · intro name size heq _
      cases heq
      decide
    · intro h numBytes position hreq
      cases hreq
    · simp only [Session.perform, Session.exec, hok, Option.bind_eq_bind, Option.bind_some]
  have hidx := hc.findIndex_self (hcan (letter 97) 128 hsize).absent
  have hsession := Session.guarded_inductive.of_reachable hcreated
  rcases hsession.openFile_cases (fun _ _ => 0) (letter 97) with
    ⟨hnone, -⟩ | ⟨j, u, hidx', hu, hexec⟩
  · have hne : (i : Int) = -1 := hidx.symm.trans hnone
    omega
  · obtain rfl : i = j := Int.ofNat_inj.mp (hidx.symm.trans hidx')
    obtain rfl : t = u := Option.some.inj (hc.headerSector_self.symm.trans hu)
    refine ⟨disk₀, disk, fs, i, t, hdr, hinv, fun name => hcan name 128 hsize, hc, hsized.length, ?_⟩
    apply hcreated.step (l := (.call (.openFile (letter 97)), fun _ _ => 0))
    refine ⟨⟨?_, ?_, ?_⟩, trivial, hexec⟩
    · intro h numBytes position hreq
      cases hreq
    · intro name size heq _
      cases heq
    · intro h numBytes position hreq
      cases hreq

/-- A byte is written through the handle of a file that is still there. -/
theorem write_changes_own_file_open : ∃ s s' h,
    (Session.handleSystem.restrict fun s l => s.Guarded l.1).Reachable s ∧
      s.handles = [h] ∧ h.removed = false ∧
      s.perform (fun _ _ => 0) (.call (.writeAt 0 (fun _ => 1) 1 0)) = some s' ∧
      ∀ f, f ≠ .entry h.entry → s.disk.SameFile s'.disk f := by
  obtain ⟨disk₀, disk, fs, i, t, hdr, -, -, hc, -, hreach⟩ := opened_session
  obtain ⟨disk', hwrite, -⟩ := OpenFile.writeAt_spec
    (f := { hdr := disk.header t, seekPosition := 0 }) (hc.wellFormed.congr hc.header).1 disk
    (fun _ => 0) (fun _ => 1) 1 0 (by decide)
  have hp : Session.perform ⟨disk, fs, [⟨{ hdr := disk.header t, seekPosition := 0 }, i, false⟩]⟩
      (fun _ _ => 0) (.call (.writeAt 0 (fun _ => 1) 1 0)) =
      some ⟨disk', fs, [⟨{ hdr := disk.header t, seekPosition := 0 }, i, false⟩]⟩ := by
    simp only [Session.perform, Session.exec, List.getElem?_cons_zero, Option.bind_eq_bind,
      Option.bind_some]
    have hwrite' : OpenFile.writeAt { hdr := disk.header t, seekPosition := 0 } disk (fun _ => 0)
        (fun _ => 1) 1 0 = some (_, disk') := hwrite
    rw [hwrite', Option.bind_some]
  have hguarded : Session.Guarded
      ⟨disk, fs, [⟨{ hdr := disk.header t, seekPosition := 0 }, i, false⟩]⟩
      (.call (.writeAt 0 (fun _ => 1) 1 0)) := by
    constructor
    case bounds =>
      intro h numBytes position hreq
      obtain ⟨rfl, hargs⟩ := Prod.mk.inj (Option.some.inj hreq)
      obtain ⟨rfl, rfl⟩ := Prod.mk.inj hargs
      exact .inr ⟨by decide, by decide⟩
    case size =>
      intro name size heq
      cases heq
    case spares =>
      intro h numBytes position hreq
      obtain ⟨rfl, -⟩ := Prod.mk.inj (Option.some.inj hreq)
      exact .inl rfl
  refine ⟨_, _, _, hreach, rfl, rfl, hp, ?_⟩
  intro f hf
  exact write_changes_own_file hreach hguarded hp rfl f fun _ => hf

private theorem Created.sector_eq {fs : FileSystem} {disk₁ disk₁' disk₂ disk₂' : Disk}
    {name₁ name₂ : Image} {i₁ i₂ s₁ s₂ : Nat} {hdr₁ hdr₂ : FileHeader}
    (h₁ : fs.Created disk₁ disk₁' name₁ i₁ s₁ hdr₁) (h₂ : fs.Created disk₂ disk₂' name₂ i₂ s₂ hdr₂)
    (hone₁ : hdr₁.sectors = [hdr₁.sector 0]) (hone₂ : hdr₂.sectors = [hdr₂.sector 0])
    (hbit : ∀ n < Disk.numSectors, disk₁.freeMap.bit n = disk₂.freeMap.bit n) :
    hdr₁.sector 0 = hdr₂.sector 0 := by
  have hfree₁ := h₁.free
  have hfree₂ := h₂.free
  have hlow₁ := h₁.lowest
  have hlow₂ := h₂.lowest
  have hlt₁ := h₁.header_lt
  have hlt₂ := h₂.header_lt
  rw [hone₁] at hfree₁ hlow₁ hlt₁
  rw [hone₂] at hfree₂ hlow₂ hlt₂
  simp only [List.mem_cons, List.not_mem_nil, or_false, forall_eq_or_imp, forall_eq] at *
  obtain ⟨⟨hs₁, hb₁⟩, ht₁, hc₁⟩ := hfree₁
  obtain ⟨⟨hs₂, hb₂⟩, ht₂, hc₂⟩ := hfree₂
  rcases Nat.lt_trichotomy (hdr₁.sector 0) (hdr₂.sector 0) with hlt | heq | hgt
  · exfalso
    have hset := hlow₂.2 _ hlt
    rw [← hbit _ ht₁, hc₁] at hset
    have hset' := hlow₂.2 _ (hlt₁.trans hlt)
    rw [← hbit _ hs₁, hb₁] at hset'
    simp only [Bool.false_eq_true, false_or] at hset hset'
    omega
  · exact heq
  · exfalso
    have hset := hlow₁.2 _ hgt
    rw [hbit _ ht₂, hc₂] at hset
    have hset' := hlow₁.2 _ (hlt₂.trans hgt)
    rw [hbit _ hs₂, hb₂] at hset'
    simp only [Bool.false_eq_true, false_or] at hset hset'
    omega

private theorem sectors_of_length {hdr : FileHeader} (hwf : hdr.WellFormed)
    (hlen : hdr.length = 128) : hdr.sectors = [hdr.sector 0] := by
  have hcount : hdr.count = 1 := by
    rw [hwf.count_eq, hlen]
    decide
  rw [FileHeader.sectors, hcount]
  rfl

private theorem bit_created_removed {fs : FileSystem} {disk₀ disk disk₂ : Disk} {name : Image}
    {i t : Nat} {hdr : FileHeader} (hc : fs.Created disk₀ disk name i t hdr)
    (hr : fs.Removed disk disk₂ i t) {n : Nat} (hn : n < Disk.numSectors) :
    disk₂.freeMap.bit n = disk₀.freeMap.bit n := by
  rw [hr.bit n hn, hc.bit n hn, (hc.wellFormed.congr hc.header).2.2]
  by_cases hmem : n ∈ t :: hdr.sectors
  · rw [(hc.free n hmem).2, decide_eq_true hmem]
    rfl
  · rw [decide_eq_false hmem]
    simp only [Bool.or_false, Bool.not_false, Bool.and_true]

private theorem canCreate_removed {fs : FileSystem} {disk₀ disk disk₂ : Disk} {name nm : Image}
    {i t : Nat} {hdr : FileHeader} (hc : fs.Created disk₀ disk name i t hdr)
    (hr : fs.Removed disk disk₂ i t) (hcan : disk₀.CanCreate nm 128) :
    disk₂.CanCreate nm 128 := by
  have hentry : disk₂.directory.inUse i = false := by
    rw [hr.inUse i hc.entry_lt]
    simp only [decide_true, Bool.not_true, Bool.and_false]
  have hcount : disk₂.freeMap.clearCount = disk₀.freeMap.clearCount :=
    Bitmap.clearCount_congr rfl fun n hn => bit_created_removed hc hr hn
  constructor
  case absent =>
    rw [Directory.findIndex_eq_neg_one]
    intro j hj
    rw [hr.matchesName j hj, hc.matchesName j hj]
    by_cases hji : j = i
    · rw [decide_eq_true hji, Bool.not_true, Bool.and_false]
    · rw [if_neg hji, Directory.findIndex_eq_neg_one.mp hcan.absent j hj, Bool.false_and]
  case entry => exact ⟨i, hc.entry_lt, hentry⟩
  case room =>
    rw [hcount]
    exact hcan.room

/-- A file is created, opened and removed, and a second file is created. A byte that is written
through the old handle ends up in the second file. -/
theorem write_changes_own_file_removed : ∃ s s' source h i n,
    Session.handleSystem.Reachable s ∧ s.handles = [h] ∧ h.removed = true ∧
      s.perform (fun _ _ => 0) (.call (.writeAt 0 source 1 0)) = some s' ∧
      s.disk.headerSector (.entry i) = some n ∧ 0 < (s.disk.header n).length ∧
      OpenFile.content s'.disk (s.disk.header n) 0 ≠
        OpenFile.content s.disk (s.disk.header n) 0 := by
  obtain ⟨disk₀, disk, fs, i, t, hdr, hinv₀, hcan, hc, hlen, hreach⟩ := opened_session
  have hsession := Session.guarded_inductive.of_reachable hreach
  have hidx := hc.findIndex_self (hcan (letter 97)).absent
  obtain ⟨hwf, hlength, hsectors⟩ := hc.wellFormed.congr hc.header
  rcases hsession.fs.remove_spec (fun _ _ => 0) (letter 97) with
    ⟨hnone, -⟩ | ⟨i', t', disk₂, hrem, hidx', hr⟩
  · have hne : (i : Int) = -1 := hidx.symm.trans hnone
    omega
  obtain rfl : i = i' := Int.ofNat_inj.mp (hidx.symm.trans hidx')
  obtain rfl : t = t' := Option.some.inj (hc.headerSector_self.symm.trans hr.header)
  have hremoved : Session.handleSystem.Reachable
      ⟨disk₂, fs, [⟨{ hdr := disk.header t, seekPosition := 0 }, i, true⟩]⟩ := by
    apply hreach.of_restrict.step (l := (.call (.remove (letter 97)), fun _ _ => 0))
    refine ⟨trivial, ?_⟩
    have hentry : Session.entryOf
        ⟨disk, fs, [⟨{ hdr := disk.header t, seekPosition := 0 }, i, false⟩]⟩ (letter 97) = i := by
      rw [Session.entryOf, hidx, Int.toNat_natCast]
    simp only [Session.perform, Session.exec, hrem, Option.bind_eq_bind, Option.bind_some, if_true,
      hentry, List.map_cons, List.map_nil]
  obtain ⟨j, u, hdr₂, disk₃, hok, hsized₂, hc₂⟩ := (hr.inv hsession.fs).create_ok (fun _ _ => 0)
    (show -2 ^ 31 ≤ (128 : Int) by decide) (by decide)
    (canCreate_removed hc hr (hcan (letter 98)))
  have hcreated : Session.handleSystem.Reachable
      ⟨disk₃, fs, [⟨{ hdr := disk.header t, seekPosition := 0 }, i, true⟩]⟩ := by
    apply hremoved.step (l := (.call (.create (letter 98) 128), fun _ _ => 0))
    refine ⟨⟨by decide, by decide⟩, ?_⟩
    simp only [Session.perform, Session.exec, hok, Option.bind_eq_bind, Option.bind_some]
  obtain ⟨hwf₂, hlength₂, hsectors₂⟩ := hc₂.wellFormed.congr hc₂.header
  have hlen₂ : hdr₂.length = 128 := hsized₂.length
  have hone := sectors_of_length hwf (hlength.trans hlen)
  have hone₂ := sectors_of_length hwf₂ (hlength₂.trans hlen₂)
  -- first fit gives the new file the sectors of the old one
  have hreused : (disk.header t).sector 0 = (disk₃.header u).sector 0 := by
    have heq := Created.sector_eq hc hc₂ (sectors_of_length hc.wellFormed hlen)
      (sectors_of_length hc₂.wellFormed hlen₂) fun n hn => (bit_created_removed hc hr hn).symm
    rw [hone, sectors_of_length hc.wellFormed hlen] at hsectors
    rw [hone₂, sectors_of_length hc₂.wellFormed hlen₂] at hsectors₂
    rw [List.singleton_inj.mp hsectors, List.singleton_inj.mp hsectors₂, heq]
  let b := disk₃ ((disk.header t).sector 0) 0 + 1
  obtain ⟨disk₄, hwrite, hwritten⟩ := OpenFile.writeAt_spec
    (f := { hdr := disk.header t, seekPosition := 0 }) hwf disk₃ (fun _ => 0) (fun _ => b) 1 0
    (by decide)
  have htransferred : OpenFile.transferred (disk.header t).length 1 0 = 1 := by
    rw [hlength, hlen]
    rfl
  have hdata := hwritten.data 0 (by rw [hlength, hlen]; decide)
  simp only [htransferred, OpenFile.content] at hdata
  refine ⟨_, ⟨disk₄, fs, [⟨{ hdr := disk.header t, seekPosition := 0 }, i, true⟩]⟩, fun _ => b, _,
    j, u, hcreated, rfl, rfl, ?_, hc₂.headerSector_self, ?_, ?_⟩
  · have hwrite' : OpenFile.writeAt { hdr := disk.header t, seekPosition := 0 } disk₃ (fun _ => 0)
        (fun _ => b) 1 0 = some (_, disk₄) := hwrite
    simp only [Session.perform, Session.exec, List.getElem?_cons_zero, Option.bind_eq_bind,
      Option.bind_some, hwrite']
  · rw [hlength₂, hlen₂]
    decide
  · show disk₄ ((disk₃.header u).sector 0) 0 ≠ disk₃ ((disk₃.header u).sector 0) 0
    rw [← hreused]
    have hnew : disk₄ ((disk.header t).sector 0) 0 = b := hdata
    rw [hnew]
    intro heq
    simp [b] at heq

end Nachos

import Nachos.Filesys.Volume

/-!
# The file system refines the set of named files

Each call returns what the abstract call may return and does to the named files what the abstract
call does, with the disk in between written sector by sector.
-/

namespace Nachos

open Framework

namespace FileSystem

variable {fs : FileSystem} {disk disk' : Disk} {name : Image} {i t : Nat}

theorem Removed.sameFile (hr : fs.Removed disk disk' i t) (h : fs.Inv disk) {j : Nat} (hj : j ≠ i) :
    disk.SameFile disk' (.entry j) := by
  have hne : FileRef.entry j ≠ .entry i := fun he => hj (FileRef.entry.inj he)
  apply h.sameFile (hr.headerSector_of_ne hne)
  intro u hu
  refine ⟨hr.header_kept h hu, fun n hn => hr.frame n ?_ ?_⟩
  · rw [h.mapFile]
    exact h.data_disjoint hu (g := .freeMap) rfl (by simp) hn
  · rw [h.dirFile]
    exact h.data_disjoint hu (g := .directory) rfl (by simp) hn

end FileSystem

namespace Session

variable {s s' : Session} {fresh : Nat → Image} {name : Image} {k i : Nat}

/-- The reply and the next state of a call are those of the abstract call. -/
structure Serves (s : Session) (fresh : Nat → Image) (c : FileCall) (r : Reply) (s' : Session) :
    Prop where
  reply : s.reply fresh c = some r
  perform : s.perform fresh c = some s'
  inv : s'.Inv
  step : s.volume.Step c r s'.volume

/-! ## Create, Open and Remove -/

private theorem storedFile_created (h : s.Inv) {disk' : Disk} {hdr : FileHeader} {t : Nat}
    (hc : s.fs.Created s.disk disk' name i t hdr)
    (hname : FileSystem.Inv.NameStored s.disk disk' name i) :
    ({ s with disk := disk' } : Session).storedFile =
      Function.update s.storedFile i
        (some ⟨baseName name, OpenFile.bytes disk' (disk'.header t)⟩) := by
  funext j
  by_cases hj : j = i
  · subst hj
    have hkept : baseName (disk'.directory.name j) = baseName (padded name) := by
      apply baseName_congr
      intro k hk
      rw [hname.name_eq j hc.entry_lt k (Nat.lt_succ_of_lt hk), if_pos ⟨rfl, hk⟩]
    have hbase : baseName (padded name) = baseName name :=
      baseName_eq_iff.mpr (Directory.strncmp_padded name fileNameMaxLen)
    rw [Function.update_self, storedFile_of_header hc.headerSector_self, hkept, hbase]
  · have hne : FileRef.entry j ≠ .entry i := fun he => hj (FileRef.entry.inj he)
    rw [Function.update_of_ne hj]
    cases ht : s.disk.headerSector (.entry j) with
    | none =>
      have hnone := (hc.headerSector_of_ne hne).trans ht
      rw [storedFile_eq_none.mpr ht, storedFile_eq_none.mpr hnone]
    | some u =>
      refine storedFile_congr (hc.sameFile h.fs ht) fun hlt k hk => ?_
      rw [hname.name_eq j hlt k (Nat.lt_succ_of_lt hk), if_neg fun hin => hj hin.1]

private theorem Inv.serves_create (h : s.Inv) (fresh : Nat → Image) (name : Image) {size : Int}
    (hsize : 0 ≤ size ∧ size ≤ maxFileSize) :
    ∃ r s', s.Serves fresh (.call (.create name size)) r s' := by
  obtain ⟨s', hexec, hinv⟩ := h.create fresh name hsize
  rcases h.fs.create_cases fresh name (show -2 ^ 31 ≤ size by omega) with
    ⟨hno, hfail⟩ | ⟨-, hlong, -⟩ | ⟨hcan, -, i, t, hdr, disk', hok, hsized, hc, hname⟩
  · simp only [Session.exec, hfail, Option.bind_eq_bind, Option.bind_some, Option.some.injEq] at hexec
    subst hexec
    refine ⟨.success false, s, ?_, ?_, h, .notCreated ?_⟩
    · rw [reply, hfail]
      rfl
    · simp only [Session.perform, Session.exec, hfail, Option.bind_eq_bind, Option.bind_some]
    · rw [canCreate_iff h.fs, not_and_or] at hno
      exact hno.imp_left fun hex => not_forall_not.mp hex
  · omega
  · simp only [Session.exec, hok, Option.bind_eq_bind, Option.bind_some, Option.some.injEq] at hexec
    subst hexec
    obtain ⟨hnew, hroom⟩ := (canCreate_iff h.fs name size.toNat).mp hcan
    have hfree : s.storedFile i = none := by
      apply storedFile_eq_none.mpr
      apply if_neg
      rw [hc.entry_free]
      exact fun hcond => Bool.false_ne_true hcond.2
    have hbytes : (OpenFile.bytes disk' (disk'.header t)).length = size.toNat := by
      rw [OpenFile.length_bytes, (hc.header_eq hsized).1.length]
    refine ⟨.success true, { s with disk := disk' }, ?_, ?_, hinv, ?_⟩
    · rw [reply, hok]
      rfl
    · simp only [Session.perform, Session.exec, hok, Option.bind_eq_bind, Option.bind_some]
    · have hstep := Volume.Step.created hc.entry_lt hfree hnew hroom hbytes
      have hvolume : ({ s with disk := disk' } : Session).volume = s.volume.setFile i
          (some ⟨baseName name, OpenFile.bytes disk' (disk'.header t)⟩) :=
        congrArg (Volume.mk · s.volume.opened) (storedFile_created h hc hname)
      rw [hvolume]
      exact hstep

private theorem Inv.serves_openFile (h : s.Inv) (fresh : Nat → Image) (name : Image) :
    ∃ r s', s.Serves fresh (.call (.openFile name)) r s' := by
  obtain ⟨s', hexec, hinv⟩ := h.openFile fresh name
  rcases h.fs.openFile_spec fresh name with ⟨hidx, hopen⟩ | ⟨i, t, hidx, ht, hopen⟩
  · simp only [Session.exec, hopen, Option.bind_eq_bind, Option.bind_some, Option.some.injEq] at hexec
    subst hexec
    refine ⟨.success false, s, ?_, ?_, h, .notOpened (not_holds_of_findIndex hidx)⟩
    · rw [reply, hopen]
      rfl
    · simp only [Session.perform, Session.exec, hopen, Option.bind_eq_bind, Option.bind_some]
  · refine ⟨.success true, s', ?_, hexec, hinv, ?_⟩
    · rw [reply, hopen]
      rfl
    · have hentry : s.entryOf name = i := by
        rw [entryOf, hidx, Int.toNat_natCast]
      simp only [Session.exec, hopen, Option.bind_eq_bind, Option.bind_some, Option.some.injEq] at hexec
      subst hexec
      have hvolume : ({ s with handles := s.handles ++
          [⟨{ hdr := s.disk.header t, seekPosition := 0 }, s.entryOf name, false⟩] } :
            Session).volume = { s.volume with opened := s.volume.opened ++ [⟨some i, 0⟩] } := by
        simp only [volume, List.map_append, List.map_cons, List.map_nil, hentry,
          Bool.false_eq_true, if_false]
        rfl
      rw [hvolume]
      exact .opened (holds_of_findIndex hidx)

/-- A removed file leaves its place, and the files that are open for it are closed to all but
`Seek`. -/
private theorem volume_removed (h : s.Inv) {disk' : Disk} {t : Nat}
    (hr : s.fs.Removed s.disk disk' i t) (hname : ∀ j < numDirEntries, ∀ k < 10,
      disk'.directory.name j k = s.disk.directory.name j k) :
    ({ s with
        disk := disk'
        handles := s.handles.map fun h =>
          if h.entry = i then { h with removed := true } else h } : Session).volume =
      { s.volume.setFile i none with
        opened := s.volume.opened.map fun o =>
          if o.place = some i then { o with place := none } else o } := by
  have hfiles : ({ s with disk := disk' } : Session).storedFile =
      Function.update s.storedFile i none := by
    funext j
    by_cases hj : j = i
    · subst hj
      rw [Function.update_self, storedFile_eq_none]
      exact hr.headerSector_self
    · rw [Function.update_of_ne hj]
      exact storedFile_congr (hr.sameFile h.fs hj) fun hlt k hk =>
        hname j hlt k (Nat.lt_succ_of_lt hk)
  have hopened : (s.handles.map fun h =>
      if h.entry = i then { h with removed := true } else h).map (fun h =>
        (⟨if h.removed then none else some h.entry, h.file.seekPosition⟩ : OpenedFile)) =
      s.volume.opened.map fun o => if o.place = some i then { o with place := none } else o := by
    rw [volume, List.map_map, List.map_map]
    apply List.map_congr_left
    intro hd _
    cases hrem : hd.removed with
    | true =>
      by_cases he : hd.entry = i
      · simp [he, hrem]
      · simp [he, hrem]
    | false =>
      by_cases he : hd.entry = i
      · simp [he, hrem]
      · simp [he, hrem]
  exact congrArg₂ Volume.mk hfiles hopened

private theorem Inv.serves_remove (h : s.Inv) (fresh : Nat → Image) (name : Image) :
    ∃ r s', s.Serves fresh (.call (.remove name)) r s' := by
  obtain ⟨s', hexec, hinv⟩ := h.remove fresh name
  rcases h.fs.remove_cases fresh name with ⟨hidx, hfail⟩ | ⟨i, t, disk', hok, hidx, hr, hname⟩
  · simp only [Session.exec, hfail, Option.bind_eq_bind, Option.bind_some, Bool.false_eq_true, if_false,
      Option.some.injEq] at hexec
    subst hexec
    refine ⟨.success false, s, ?_, ?_, h, .notRemoved (not_holds_of_findIndex hidx)⟩
    · rw [reply, hfail]
      rfl
    · simp only [Session.perform, Session.exec, hfail, Option.bind_eq_bind, Option.bind_some,
        Bool.false_eq_true, if_false]
  · refine ⟨.success true, s', ?_, hexec, hinv, ?_⟩
    · rw [reply, hok]
      rfl
    · have hentry : s.entryOf name = i := by
        rw [entryOf, hidx, Int.toNat_natCast]
      simp only [Session.exec, hok, Option.bind_eq_bind, Option.bind_some, if_true, hentry,
        Option.some.injEq] at hexec
      subst hexec
      rw [volume_removed h hr hname]
      exact .removed (holds_of_findIndex hidx)

/-! ## Reading and writing -/

/-- What stands behind an open file: its handle, the header the handle keeps, and the bytes. -/
structure Behind (s : Session) (k : Nat) (p : Int) (i : Nat) (f : StoredFile) (hd : Handle) : Prop
    where
  handle : s.handles[k]? = some hd
  live : hd.removed = false
  entry : hd.entry = i
  position : hd.file.seekPosition = p
  wellFormed : hd.file.hdr.WellFormed
  file : f = ⟨baseName (s.disk.directory.name i), OpenFile.bytes s.disk hd.file.hdr⟩

theorem Inv.behind (h : s.Inv) {p : Int} {f : StoredFile} (hat : s.volume.At k p i f) :
    ∃ hd, s.Behind k p i f hd := by
  obtain ⟨hopened, hfile⟩ := hat
  rw [volume, List.getElem?_map] at hopened
  obtain ⟨hd, hk, heq⟩ := Option.map_eq_some_iff.mp hopened
  obtain ⟨hplace, hposition⟩ := OpenedFile.mk.inj heq
  cases hrem : hd.removed with
  | true => simp [hrem] at hplace
  | false =>
    obtain rfl : hd.entry = i := by simpa [hrem] using hplace
    obtain ⟨t, ht, hhdr⟩ := h.handles hd (List.mem_of_getElem? hk) hrem
    have hf := (storedFile_of_header ht).symm.trans hfile
    refine ⟨hd, hk, hrem, rfl, hposition, ?_, ?_⟩
    · rw [hhdr]
      exact h.fs.wellFormed _ t ht
    · rw [hhdr]
      exact (Option.some.inj hf).symm

variable {p numBytes position : Int} {f : StoredFile} {hd : Handle}

theorem Behind.moved_eq (hb : s.Behind k p i f hd) (hr : OpenFile.InRange numBytes position) :
    (OpenFile.moved hd.file.hdr numBytes position : Int) = Volume.moved f numBytes position := by
  have hlength : (f.bytes.length : Int) = hd.file.hdr.length := by
    rw [hb.file, OpenFile.length_bytes]
  have hstart := hr.start
  rw [Volume.moved, hlength]
  simp only [OpenFile.moved, OpenFile.transferred]
  omega

theorem Behind.readAt (hb : s.Behind k p i f hd) (hr : OpenFile.InRange numBytes position)
    (into : Image) : ∃ into', hd.file.readAt s.disk into 0 numBytes position =
        some (Volume.moved f numBytes position, into') ∧
      into'.toList 0 (Volume.moved f numBytes position).toNat =
        slice f.bytes position.toNat numBytes.toNat := by
  obtain ⟨into', hread, hslice, -⟩ := OpenFile.readAt_slice hb.wellFormed s.disk into 0 hr
  rw [hb.moved_eq hr] at hread
  refine ⟨into', hread, ?_⟩
  have hmoved := hb.moved_eq hr
  rw [← hmoved, Int.toNat_natCast, hslice, hb.file]

private theorem Inv.writeAt_volume (h : s.Inv) (hb : s.Behind k p i f hd)
    (hr : OpenFile.InRange numBytes position) (fresh source : Image) :
    ∃ disk', hd.file.writeAt s.disk fresh source numBytes position =
        some (Volume.moved f numBytes position, disk') ∧
      ({ s with disk := disk' } : Session).Inv ∧
      ({ s with disk := disk' } : Session).volume =
        s.volume.setFile i (some (Volume.written f source numBytes position)) := by
  obtain ⟨disk', hwrite, hwritten⟩ :=
    OpenFile.writeAt_inRange hb.wellFormed s.disk fresh source hr
  rw [hb.moved_eq hr] at hwrite
  have hmem := List.mem_of_getElem? hb.handle
  obtain ⟨hinv, hsame⟩ := h.wrote hmem (.inl hb.live) hwrite
  refine ⟨disk', hwrite, hinv, congrArg (Volume.mk · s.volume.opened) ?_⟩
  have hdirectory : s.disk.SameFile ({ s with disk := disk' } : Session).disk .directory :=
    hsame _ fun _ => by simp
  have hname : ∀ j < numDirEntries, ∀ k < fileNameMaxLen,
      disk'.directory.name j k = s.disk.directory.name j k := fun j hj k hk =>
    name_of_sameFile h hdirectory hj (Nat.lt_succ_of_lt hk)
  funext j
  by_cases hj : j = i
  · subst hj
    obtain ⟨t, ht, hhdr⟩ := hinv.handles hd hmem hb.live
    rw [hb.entry] at ht
    have hlt := (Disk.headerSector_entry_eq_some ht).1
    have hmoved : OpenFile.Written hd.file.hdr source
        (OpenFile.transferred hd.file.hdr.length numBytes.toNat position.toNat) position.toNat
        s.disk disk' := hwritten
    have hbytes : OpenFile.bytes disk' hd.file.hdr =
        (Volume.written f source numBytes position).bytes := by
      rw [hmoved.bytes_eq, Volume.written, hb.file]
    rw [Function.update_self, storedFile_of_header ht, ← hhdr]
    refine congrArg some ?_
    rw [hbytes, baseName_congr (hname j hlt), Volume.written, hb.file]
  · have hne : FileRef.entry j ≠ .entry hd.entry := by
      rw [hb.entry]
      exact fun he => hj (FileRef.entry.inj he)
    rw [Function.update_of_ne hj]
    exact storedFile_congr (hsame _ fun _ => hne) fun hlt k hk => hname j hlt k hk

private theorem volume_setFile (s : Session) (k : Nat) (hd : Handle) (file : OpenFile) :
    (s.setFile k hd file).volume = s.volume.setPosition k
      (if hd.removed then none else some hd.entry) file.seekPosition := by
  refine congrArg (Volume.mk s.storedFile) ?_
  exact List.map_set

private theorem int32_position {m : Int} (hr : OpenFile.InRange numBytes p) (hp : p < 2 ^ 31)
    (hm : m = Volume.moved f numBytes p) : int32 (p + m) = p + m := by
  have hstart := hr.start
  have hfits := hr.fits
  rw [Volume.moved] at hm
  apply int32_of_range
  omega

private theorem Inv.serves_readAt (h : s.Inv) (fresh : Nat → Image) (into : Image)
    (hat : s.volume.At k p i f) (hr : OpenFile.InRange numBytes position) :
    ∃ r s', s.Serves fresh (.call (.readAt k into numBytes position)) r s' := by
  obtain ⟨hd, hb⟩ := h.behind hat
  obtain ⟨into', hread, hslice⟩ := hb.readAt hr into
  refine ⟨.moved (Volume.moved f numBytes position)
    (slice f.bytes position.toNat numBytes.toNat), s, ?_, ?_, h, .readAt hat⟩
  · simp only [reply, hb.handle, hread, Option.bind_eq_bind, Option.bind_some, hslice]
  · simp only [Session.perform, Session.exec, hb.handle, hread, Option.bind_eq_bind,
      Option.bind_some]

private theorem Inv.serves_writeAt (h : s.Inv) (fresh : Nat → Image) (source : Image)
    (hat : s.volume.At k p i f) (hr : OpenFile.InRange numBytes position) :
    ∃ r s', s.Serves fresh (.call (.writeAt k source numBytes position)) r s' := by
  obtain ⟨hd, hb⟩ := h.behind hat
  obtain ⟨disk', hwrite, hinv, hvolume⟩ := h.writeAt_volume hb hr (fresh 0) source
  refine ⟨.moved (Volume.moved f numBytes position) [], { s with disk := disk' }, ?_, ?_, hinv, ?_⟩
  · simp only [reply, hb.handle, hwrite, Option.bind_eq_bind, Option.bind_some]
  · simp only [Session.perform, Session.exec, hb.handle, hwrite, Option.bind_eq_bind,
      Option.bind_some]
  · rw [hvolume]
    exact .writeAt hat

private theorem Inv.serves_seek (h : s.Inv) (fresh : Nat → Image) (position : Int)
    (hk : k < s.volume.opened.length) : ∃ r s', s.Serves fresh (.seek k position) r s' := by
  have hlt : k < s.handles.length := by
    rwa [volume, List.length_map] at hk
  have hhandle := List.getElem?_eq_getElem hlt
  refine ⟨.done, s.setFile k s.handles[k] (s.handles[k].file.seek position), ?_, ?_,
    h.setFile hhandle rfl, ?_⟩
  · rw [reply, hhandle]
    rfl
  · simp only [Session.perform, hhandle, Option.bind_eq_bind, Option.bind_some]
  · rw [volume_setFile]
    refine .seek (o := ⟨if s.handles[k].removed then none else some s.handles[k].entry,
      s.handles[k].file.seekPosition⟩) ?_
    rw [volume, List.getElem?_map, hhandle]
    rfl

private theorem Inv.serves_read (h : s.Inv) (fresh : Nat → Image) (into : Image)
    (hat : s.volume.At k p i f) (hr : OpenFile.InRange numBytes p) (hp : p < 2 ^ 31) :
    ∃ r s', s.Serves fresh (.read k into numBytes) r s' := by
  obtain ⟨hd, hb⟩ := h.behind hat
  obtain ⟨into', hread, hslice⟩ := hb.readAt hr into
  let file : OpenFile := { hd.file with seekPosition := p + Volume.moved f numBytes p }
  have hread' : hd.file.read s.disk into numBytes = some (Volume.moved f numBytes p, into', file) := by
    simp only [OpenFile.read, hb.position, hread, Option.bind_eq_bind, Option.bind_some,
      int32_position hr hp rfl, file]
  refine ⟨.moved (Volume.moved f numBytes p) (slice f.bytes p.toNat numBytes.toNat),
    s.setFile k hd file, ?_, ?_, h.setFile hb.handle rfl, ?_⟩
  · simp only [reply, hb.handle, hread', Option.bind_eq_bind, Option.bind_some, hslice]
  · simp only [Session.perform, hb.handle, hread', Option.bind_eq_bind, Option.bind_some]
  · have hplace : (if hd.removed then none else some hd.entry) = some i := by
      rw [hb.live, hb.entry]
      rfl
    rw [volume_setFile, hplace]
    exact .read hat

private theorem Inv.serves_write (h : s.Inv) (fresh : Nat → Image) (source : Image)
    (hat : s.volume.At k p i f) (hr : OpenFile.InRange numBytes p) (hp : p < 2 ^ 31) :
    ∃ r s', s.Serves fresh (.write k source numBytes) r s' := by
  obtain ⟨hd, hb⟩ := h.behind hat
  obtain ⟨disk', hwrite, hinv, hvolume⟩ := h.writeAt_volume hb hr (fresh 0) source
  let file : OpenFile := { hd.file with seekPosition := p + Volume.moved f numBytes p }
  have hwrite' : hd.file.write s.disk (fresh 0) source numBytes =
      some (Volume.moved f numBytes p, disk', file) := by
    simp only [OpenFile.write, hb.position, hwrite, Option.bind_eq_bind, Option.bind_some,
      int32_position hr hp rfl, file]
  let s₁ : Session := { s with disk := disk' }
  refine ⟨.moved (Volume.moved f numBytes p) [], s₁.setFile k hd file, ?_, ?_,
    hinv.setFile hb.handle rfl, ?_⟩
  · simp only [reply, hb.handle, hwrite', Option.bind_eq_bind, Option.bind_some]
  · simp only [Session.perform, hb.handle, hwrite', Option.bind_eq_bind, Option.bind_some]
    rfl
  · have hplace : (if hd.removed then none else some hd.entry) = some i := by
      rw [hb.live, hb.entry]
      rfl
    rw [volume_setFile, hplace, hvolume]
    exact .write hat

/-- A mount reads the headers of the free map and the directory again and forgets the open
files. -/
private theorem Inv.serves_mount (h : s.Inv) (fresh : Nat → Image) :
    ∃ r s', s.Serves fresh .mount r s' := by
  let fs := FileSystem.opened s.disk
  have hnew : FileSystem.new s.disk fresh false = some (fs, s.disk) := by
    simp only [FileSystem.new, FileSystem.openFiles_eq, Bool.false_eq_true, if_false,
      Option.bind_eq_bind, Option.bind_some, fs]
  have hperform : s.perform fresh .mount = some ⟨s.disk, fs, []⟩ := by
    simp only [Session.perform, hnew, Option.bind_eq_bind, Option.bind_some]
  refine ⟨.done, ⟨s.disk, fs, []⟩, ?_, hperform, ?_, .mount⟩
  · rw [reply, hnew]
    rfl
  · have hguarded : s.Guarded .mount := {
      bounds := fun _ _ _ hreq => by cases hreq
      size := fun _ _ hcreate => by cases hcreate
      spares := fun _ _ _ hreq => by cases hreq }
    exact h.perform (c := .mount) trivial hguarded hperform

theorem Inv.serves (h : s.Inv) (fresh : Nat → Image) {c : FileCall} (ha : s.volume.Allowed c) :
    ∃ r s', s.Serves fresh c r s' := by
  cases c with
  | call c =>
    cases c with
    | create name size => exact h.serves_create fresh name ha
    | openFile name => exact h.serves_openFile fresh name
    | remove name => exact h.serves_remove fresh name
    | readAt k into numBytes position =>
      obtain ⟨⟨p, i, f, hat⟩, hr⟩ := ha
      exact h.serves_readAt fresh into hat hr
    | writeAt k source numBytes position =>
      obtain ⟨⟨p, i, f, hat⟩, hr⟩ := ha
      exact h.serves_writeAt fresh source hat hr
  | seek k position => exact h.serves_seek fresh position ha
  | read k into numBytes =>
    obtain ⟨p, i, f, hat, hr, hp⟩ := ha
    exact h.serves_read fresh into hat hr hp
  | write k source numBytes =>
    obtain ⟨p, i, f, hat, hr, hp⟩ := ha
    exact h.serves_write fresh source hat hr hp
  | mount => exact h.serves_mount fresh

private theorem volume_format (h : system.init s) : s.volume = .empty := by
  obtain ⟨hhandles, disk, fresh, hnew⟩ := h
  obtain ⟨-, hunused⟩ := NamedDisk.format_inUse hnew
  have hfiles : s.storedFile = fun _ => none := by
    funext i
    rw [storedFile_eq_none]
    apply if_neg
    rintro ⟨hi, huse⟩
    rw [hunused i hi] at huse
    cases huse
  rw [volume, hfiles, hhandles]
  rfl

theorem volume_refines : volumeRuns.Refines volumeSystem volume Inv where
  invariant := {
    init := inv_inductive.init
    step := by
      rintro s ⟨c, r⟩ s' h ⟨ha, fresh, -, hperform⟩
      obtain ⟨r', s'', hserves⟩ := h.serves fresh ha
      obtain rfl := Option.some.inj (hserves.perform.symm.trans hperform)
      exact hserves.inv }
  init s h := volume_format h
  step := by
    rintro s ⟨c, r⟩ s' h ⟨ha, fresh, hreply, hperform⟩
    obtain ⟨r', s'', hserves⟩ := h.serves fresh ha
    obtain rfl := Option.some.inj (hserves.perform.symm.trans hperform)
    obtain rfl := Option.some.inj (hserves.reply.symm.trans hreply)
    exact ⟨ha, hserves.step⟩

end Session

/-! ## Names are never given twice -/

namespace Volume

def Distinct (v : Volume) : Prop :=
  ∀ i j f g, v.files i = some f → v.files j = some g → f.name = g.name → i = j

variable {v v' : Volume} {i : Nat} {f : StoredFile}

theorem Distinct.none (h : v.Distinct) : (v.setFile i none).Distinct := by
  intro j l g g' hj hl hname
  have hji : j ≠ i := by
    rintro rfl
    simp at hj
  have hli : l ≠ i := by
    rintro rfl
    simp at hl
  rw [setFile_files_of_ne _ _ hji] at hj
  rw [setFile_files_of_ne _ _ hli] at hl
  exact h j l g g' hj hl hname

theorem Distinct.some (h : v.Distinct)
    (hnew : ∀ j g, j ≠ i → v.files j = some g → g.name ≠ f.name) : (v.setFile i (some f)).Distinct := by
  intro j l g g' hj hl hname
  by_cases hji : j = i
  · by_cases hli : l = i
    · exact hji.trans hli.symm
    · rw [hji, setFile_files_self] at hj
      rw [setFile_files_of_ne _ _ hli] at hl
      obtain rfl := Option.some.inj hj
      exact absurd hname.symm (hnew l g' hli hl)
  · rw [setFile_files_of_ne _ _ hji] at hj
    by_cases hli : l = i
    · rw [hli, setFile_files_self] at hl
      obtain rfl := Option.some.inj hl
      exact absurd hname (hnew j g hji hj)
    · rw [setFile_files_of_ne _ _ hli] at hl
      exact h j l g g' hj hl hname

theorem Distinct.written (h : v.Distinct) (hf : v.files i = Option.some f) (source : Image)
    (numBytes position : Int) :
    (v.setFile i (Option.some (written f source numBytes position))).Distinct := by
  apply h.some
  intro j g hj hg hname
  exact hj (h j i g f hg hf hname)

theorem distinct_inductive : volumeSystem.Inductive Distinct where
  init := by
    rintro v rfl i j f g hi
    cases hi
  step := by
    rintro v ⟨c, r⟩ v' h ⟨-, hstep⟩
    cases hstep with
    | created hplace hfree hnew hroom hbytes =>
      apply h.some
      intro j g _ hg hname
      exact hnew j ⟨g, hg, hname⟩
    | removed hholds => exact h.none
    | writeAt hat => exact h.written hat.file _ _ _
    | write hat => exact h.written hat.file _ _ _
    | _ => exact h

end Volume

/-- In every run from a formatted disk, the calls return what calls on named byte arrays return,
and nothing of the sectors shows except that they may run out: the names are kept distinct, `Create`
fails exactly when the name is taken or there is no room, which is counted in files and sectors,
a new file has the size asked for, reads return what was last written, and a mount of the disk
brings every file back as it was. No call of the run fails otherwise. -/
theorem file_system_refines_volume {s₀ s : Session} {ls : List (FileCall × Reply)}
    (h₀ : Session.system.init s₀) (hrun : Session.volumeRuns.Trace s₀ ls s) :
    volumeSystem.Trace .empty ls s.volume ∧ s.volume.Distinct ∧
      s.disk.freeMap.clearCount + s.volume.used = Disk.numSectors ∧
      ∀ fresh c, s.volume.Allowed c → ∃ r s', s.reply fresh c = some r ∧
        s.perform fresh c = some s' ∧ s.volume.Step c r s'.volume := by
  have hreach := hrun.reachable (.init h₀)
  have hinv := Session.volume_refines.invariant.of_reachable hreach
  have htrace := Session.volume_refines.trace h₀ hrun
  have hdistinct := Volume.distinct_inductive.of_reachable (Session.volume_refines.reachable hreach)
  rw [Session.volume_format h₀] at htrace
  refine ⟨htrace, hdistinct, Session.clearCount_eq hinv.fs, ?_⟩
  intro fresh c ha
  obtain ⟨r, s', hserves⟩ := hinv.serves fresh ha
  exact ⟨r, s', hserves.reply, hserves.perform, hserves.step⟩

/-- The file `a` is created on a formatted disk, and Nachos is started again. -/
theorem file_system_refines_volume_mount : ∃ s₀ s r r', Session.system.init s₀ ∧
    Session.volumeRuns.Trace s₀ [(.call (.create (letter 97) 200), r), (.mount, r')] s ∧
    volumeSystem.Trace .empty [(.call (.create (letter 97) 200), r), (.mount, r')] s.volume := by
  obtain ⟨fs, disk, hnew, hinv, -⟩ := FileSystem.new_format (fun _ _ => 0) (fun _ _ => 0)
  let s₀ : Session := ⟨disk, fs, []⟩
  have h₀ : Session.system.init s₀ := ⟨rfl, _, _, hnew⟩
  have ha : s₀.volume.Allowed (.call (.create (letter 97) 200)) := by
    change (0 : Int) ≤ 200 ∧ (200 : Int) ≤ maxFileSize
    decide
  have hstart := Session.inv_inductive.init s₀ h₀
  obtain ⟨r, s₁, hcreate⟩ := hstart.serves (fun _ _ => 0) ha
  obtain ⟨r', s₂, hmount⟩ := hcreate.inv.serves (fun _ _ => 0) (c := .mount) trivial
  have hfirst : Session.volumeRuns.step s₀ (.call (.create (letter 97) 200), r) s₁ :=
    ⟨ha, _, hcreate.reply, hcreate.perform⟩
  have hsecond : Session.volumeRuns.step s₁ (.mount, r') s₂ :=
    ⟨trivial, _, hmount.reply, hmount.perform⟩
  have hrun := ((System.Trace.nil s₀).step hfirst).step hsecond
  exact ⟨s₀, s₂, r, r', h₀, hrun, (file_system_refines_volume h₀ hrun).1⟩

end Nachos

import Nachos.Filesys.Handles

/-!
# Creating and removing files

`Create` works on copies of the directory and the free map and writes them back at its end, so a
call that fails leaves no trace. It does not compare the size with what a header can hold.
-/

namespace Nachos

open Framework

namespace FileSystem

variable {fs : FileSystem} {disk disk' : Disk} {name : Image} {size : Int} {i s : Nat}
  {hdr : FileHeader}

/-! ## All or nothing -/

private theorem Created.data_kept (hc : fs.Created disk disk' name i s hdr) (h : fs.Inv disk)
    {j t : Nat} (ht : disk.headerSector (.entry j) = some t) :
    ∀ n ∈ (disk.header t).sectors, disk' n = disk n := by
  intro n hn
  apply hc.frame
  · rintro rfl
    exact h.notMem_of_clear ht (hc.free n List.mem_cons_self).2 (List.mem_cons_of_mem _ hn)
  · rw [h.mapFile]
    exact h.data_disjoint ht (g := .freeMap) rfl (by simp) hn
  · rw [h.dirFile]
    exact h.data_disjoint ht (g := .directory) rfl (by simp) hn

theorem Created.sameFile (hc : fs.Created disk disk' name i s hdr) (h : fs.Inv disk) {j t : Nat}
    (ht : disk.headerSector (.entry j) = some t) : disk.SameFile disk' (.entry j) := by
  have hne : FileRef.entry j ≠ .entry i := by
    intro heq
    rw [heq] at ht
    have huse := (Disk.headerSector_entry_eq_some ht).2.1
    rw [hc.entry_free] at huse
    cases huse
  apply h.sameFile (hc.headerSector_of_ne hne)
  intro u hu
  exact ⟨hc.header_kept h hu, hc.data_kept h hu⟩

theorem Created.header_eq (hc : fs.Created disk disk' name i s hdr) (hs : hdr.HasSize size) :
    (disk'.header s).HasSize size ∧ (disk'.header s).WellFormed ∧
      (disk'.header s).sectors = hdr.sectors := by
  obtain ⟨hbytes, hsectors, -⟩ := FileHeader.congr hc.header
  obtain ⟨hwf, -, hsec⟩ := hc.wellFormed.congr hc.header
  refine ⟨⟨?_, ?_⟩, hwf, hsec⟩
  · rw [FileHeader.fileLength, hbytes]
    exact hs.fileLength
  · rw [hsectors]
    exact hs.numSectors

end FileSystem

/-- `Create` succeeds exactly when the name is new, an entry is free and there is room for the
header and the data; it fails without a trace and succeeds without touching another file.
`Remove` fails exactly when the name is not there. -/
theorem create_remove_all_or_nothing {fs : FileSystem} {disk : Disk} (h : fs.Inv disk)
    (name : Image) :
    (∀ (size : Nat), size ≤ maxFileSize → ∀ fresh, ∃ created disk',
      fs.create disk fresh name size = some (created, disk') ∧
      (created = true ↔
        (∀ j < numDirEntries, disk.directory.inUse j = true →
          strncmp (disk.directory.name j) name fileNameMaxLen ≠ 0) ∧
        (∃ j < numDirEntries, disk.directory.inUse j = false) ∧
        1 + (size + sectorSize - 1) / sectorSize ≤ disk.freeMap.clearCount) ∧
      (created = false → disk' = disk) ∧
      (created = true → ∀ j t, disk.headerSector (.entry j) = some t →
        disk.SameFile disk' (.entry j))) ∧
    ∀ fresh, ∃ removed disk', fs.remove disk fresh name = some (removed, disk') ∧
      (removed = false ↔ ∀ j < numDirEntries, disk.directory.inUse j = true →
        strncmp (disk.directory.name j) name fileNameMaxLen ≠ 0) ∧
      (removed = false → disk' = disk) := by
  have habsent : disk.directory.findIndex name = -1 ↔
      ∀ j < numDirEntries, disk.directory.inUse j = true →
        strncmp (disk.directory.name j) name fileNameMaxLen ≠ 0 := by
    rw [Directory.findIndex_eq_neg_one]
    refine forall₂_congr fun j _ => ?_
    simp [Directory.matchesName]
  constructor
  · intro size hsize fresh
    have hcan : disk.CanCreate name size ↔
        (∀ j < numDirEntries, disk.directory.inUse j = true →
          strncmp (disk.directory.name j) name fileNameMaxLen ≠ 0) ∧
        (∃ j < numDirEntries, disk.directory.inUse j = false) ∧
        1 + (size + sectorSize - 1) / sectorSize ≤ disk.freeMap.clearCount := by
      rw [← habsent]
      exact ⟨fun hc => ⟨hc.absent, hc.entry, hc.room⟩, fun hc => ⟨hc.1, hc.2.1, hc.2.2⟩⟩
    rw [← hcan]
    rcases h.create_spec fresh name (show -2 ^ 31 ≤ (size : Int) by omega) with
      ⟨hno, hfail⟩ | ⟨-, hlong, -⟩ | ⟨hyes, -, i, s, hdr, disk', hok, -, hc⟩
    · refine ⟨false, disk, hfail, ?_, fun _ => rfl, ?_⟩
      · exact iff_of_false Bool.false_ne_true hno
      · exact fun hcreated => absurd hcreated Bool.false_ne_true
    · omega
    · refine ⟨true, disk', hok, iff_of_true rfl hyes, ?_, ?_⟩
      · exact fun hcreated => absurd hcreated.symm Bool.false_ne_true
      · exact fun _ j t ht => hc.sameFile h ht
  · intro fresh
    rw [← habsent]
    rcases h.remove_spec fresh name with ⟨hidx, hfail⟩ | ⟨i, s, disk', hok, hidx, -⟩
    · exact ⟨false, disk, hfail, iff_of_true rfl hidx, fun _ => rfl⟩
    · refine ⟨true, disk', hok, iff_of_false Bool.true_eq_false.mp ?_, ?_⟩
      · rw [hidx]
        omega
      · exact fun hremoved => absurd hremoved.symm Bool.false_ne_true

/-- On a formatted disk `a` can be created, and there is no `a` to remove. -/
theorem create_remove_all_or_nothing_formatted :
    ∃ fs disk disk', FileSystem.new (fun _ _ => 0) (fun _ _ => 0) true = some (fs, disk) ∧
      fs.create disk (fun _ _ => 0) (letter 97) 200 = some (true, disk') ∧
      fs.remove disk (fun _ _ => 0) (letter 97) = some (false, disk) := by
  obtain ⟨fs, disk, hnew, hinv, hcan⟩ := FileSystem.new_format (fun _ _ => 0) (fun _ _ => 0)
  obtain ⟨hcreate, hremove⟩ := create_remove_all_or_nothing hinv (letter 97)
  obtain ⟨created, disk', hok, hiff, -, -⟩ := hcreate 200 (by decide) fun _ _ => 0
  obtain ⟨removed, disk'', hok', hiff', hsame⟩ := hremove fun _ _ => 0
  have hroom := hcan (letter 97) 200 (by decide)
  have hnew' : ∀ j < numDirEntries, disk.directory.inUse j = true →
      strncmp (disk.directory.name j) (letter 97) fileNameMaxLen ≠ 0 := by
    intro j hj huse hmatch
    have hno := Directory.findIndex_eq_neg_one.mp hroom.absent j hj
    rw [Directory.matchesName, huse, hmatch] at hno
    cases hno
  have hcreated := hiff.mpr ⟨hnew', hroom.entry, hroom.room⟩
  have hremoved := hiff'.mpr hnew'
  rw [hcreated] at hok
  rw [hremoved, hsame hremoved] at hok'
  exact ⟨fs, disk, disk', hnew, hok, hok'⟩

/-! ## What a header can hold -/

/-- What is asked of `Create` for one name and size: a header that describes the file and that
`Remove` can undo, and a refusal of what no header can hold. -/
structure FileSystem.WithinCapacity (fs : FileSystem) (disk : Disk) (name : Image) (size : Int) :
    Prop where
  header : ∀ fresh disk', fs.create disk fresh name size = some (true, disk') →
    ∃ (i s : Nat) (hdr : FileHeader), disk'.directory.findIndex name = i ∧
      disk'.headerSector (.entry i) = some s ∧ FileHeader.fetchFrom disk' s = some hdr ∧
      0 ≤ hdr.numSectors.toInt ∧ hdr.numSectors.toInt ≤ numDirect ∧ hdr.fileLength = size ∧
      hdr.sectors.length = hdr.numSectors.toInt ∧ hdr.sectors.Nodup ∧
      (∀ n ∈ hdr.sectors, n < Disk.numSectors) ∧ size ≤ hdr.sectors.length * sectorSize
  removes : ∀ fresh disk', fs.create disk fresh name size = some (true, disk') → ∀ fresh',
    ∃ disk'', fs.remove disk' fresh' name = some (true, disk'') ∧
      ∀ n < Disk.numSectors, disk''.freeMap.bit n = disk.freeMap.bit n
  refused : maxFileSize < size → ∀ fresh, fs.create disk fresh name size = some (false, disk)

namespace FileSystem

variable {fs : FileSystem} {disk disk' : Disk} {name : Image} {size : Int} {i s : Nat}
  {hdr : FileHeader}

/-- `Remove` frees the sectors that `Create` took. -/
theorem Created.remove (hc : fs.Created disk disk' name i s hdr) (h : fs.Inv disk)
    (habsent : disk.directory.findIndex name = -1) (fresh : Nat → Image) :
    ∃ disk'', fs.remove disk' fresh name = some (true, disk'') ∧
      ∀ n < Disk.numSectors, disk''.freeMap.bit n = disk.freeMap.bit n := by
  have hidx := hc.findIndex_self habsent
  rcases (hc.inv h).remove_spec fresh name with ⟨hnone, -⟩ | ⟨j, t, disk'', hok, hidx', hr⟩
  · rw [hidx] at hnone
    omega
  · obtain rfl : i = j := Int.ofNat_inj.mp (hidx.symm.trans hidx')
    obtain rfl : s = t := Option.some.inj (hc.headerSector_self.symm.trans hr.header)
    have hsec := (hc.wellFormed.congr hc.header).2.2
    refine ⟨disk'', hok, ?_⟩
    intro n hn
    rw [hr.bit n hn, hc.bit n hn, hsec]
    by_cases hmem : n ∈ s :: hdr.sectors
    · rw [(hc.free n hmem).2, decide_eq_true hmem]
      rfl
    · rw [decide_eq_false hmem, Bool.or_false, Bool.not_false, Bool.and_true]

theorem Created.fetch (hc : fs.Created disk disk' name i s hdr) :
    FileHeader.fetchFrom disk' s = some (disk'.header s) := by
  rw [FileHeader.fetchFrom, Disk.readSector_eq disk' (hc.free s List.mem_cons_self).1]
  rfl

/-- The header on the disk describes the file, as long as its size needs no negative number of
sectors. -/
private theorem Created.describes (hc : fs.Created disk disk' name i s hdr)
    (hs : hdr.HasSize size) :
    (disk'.header s).numSectors.toInt ≤ numDirect ∧ (disk'.header s).fileLength = size ∧
      (disk'.header s).sectors.length = (disk'.header s).numSectors.toInt.toNat ∧
      size ≤ (disk'.header s).sectors.length * sectorSize := by
  obtain ⟨hsize, hwf, -⟩ := hc.header_eq hs
  have hlength : (disk'.header s).sectors.length = (disk'.header s).count :=
    FileHeader.firstSectors_length _ _
  have hbound := hwf.count_le
  have hcover := hwf.count_eq
  rw [hsize.length] at hcover
  refine ⟨?_, hsize.fileLength, hlength, ?_⟩
  · simp only [FileHeader.count] at hbound
    omega
  · rw [hlength, hcover]
    simp only [FileHeader.sectorsFor, sectorSize]
    omega

private theorem Inv.create_refused (h : fs.Inv disk) (hlow : -2 ^ 31 ≤ size)
    (hno : ¬ disk.CanCreate name size.toNat) (fresh : Nat → Image) :
    fs.create disk fresh name size = some (false, disk) := by
  rcases h.create_spec fresh name hlow with ⟨-, hfail⟩ | ⟨hyes, -⟩ | ⟨hyes, -⟩
  · exact hfail
  · exact absurd hyes hno
  · exact absurd hyes hno

private theorem Inv.of_create (h : fs.Inv disk) (hlow : -2 ^ 31 ≤ size) {fresh : Nat → Image}
    (hok : fs.create disk fresh name size = some (true, disk')) :
    disk.CanCreate name size.toNat ∧ ∃ i s hdr, hdr.HasSize size ∧
      fs.Created disk disk' name i s hdr := by
  rcases h.create_spec fresh name hlow with
    ⟨-, hfail⟩ | ⟨-, -, hnone⟩ | ⟨hyes, -, i, s, hdr, disk₁, hok', hsized, hc⟩
  · rw [hfail] at hok
    cases hok
  · rw [hnone] at hok
    cases hok
  · obtain rfl : disk₁ = disk' := (Prod.mk.inj (Option.some.inj (hok'.symm.trans hok))).2
    exact ⟨hyes, i, s, hdr, hsized, hc⟩

private theorem Inv.withinCapacity_iff (h : fs.Inv disk) (name : Image) {size : Int}
    (hlow : -2 ^ 31 ≤ size) :
    fs.WithinCapacity disk name size ↔
      ¬ disk.CanCreate name size.toNat ∨ (-128 < size ∧ size ≤ maxFileSize) := by
  constructor
  · intro hcap
    by_cases hyes : disk.CanCreate name size.toNat
    swap
    · exact .inl hyes
    right
    rcases h.create_spec (fun _ _ => 0) name hlow with
      ⟨hno, -⟩ | ⟨-, hlong, hnone⟩ | ⟨-, hshort, i, s, hdr, disk', hok, hsized, hc⟩
    · exact absurd hyes hno
    · -- the table of the header would be overrun
      rw [hcap.refused hlong] at hnone
      cases hnone
    · -- the number of sectors on the disk is not negative
      obtain ⟨j, t, hdr', hidx, ht, hfetch, hnonneg, -⟩ := hcap.header _ disk' hok
      obtain rfl : i = j := Int.ofNat_inj.mp ((hc.findIndex_self hyes.absent).symm.trans hidx)
      obtain rfl : s = t := Option.some.inj (hc.headerSector_self.symm.trans ht)
      obtain rfl := Option.some.inj (hc.fetch.symm.trans hfetch)
      rw [(hc.header_eq hsized).1.numSectors, FileHeader.divRoundUp_nonneg_iff] at hnonneg
      exact ⟨hnonneg, hshort⟩
  · intro hcond
    constructor
    case header =>
      intro fresh disk' hok
      obtain ⟨hyes, i, s, hdr, hsized, hc⟩ := h.of_create hlow hok
      obtain ⟨hlarge, -⟩ := hcond.resolve_left (not_not_intro hyes)
      obtain ⟨hbound, hlength, hsectors, hcover⟩ := hc.describes hsized
      obtain ⟨hsize, hwf, -⟩ := hc.header_eq hsized
      have hnonneg : 0 ≤ (disk'.header s).numSectors.toInt := by
        rw [hsize.numSectors, FileHeader.divRoundUp_nonneg_iff]
        exact hlarge
      refine ⟨i, s, disk'.header s, hc.findIndex_self hyes.absent, hc.headerSector_self, hc.fetch,
        hnonneg, hbound, hlength, ?_, hwf.nodup, hwf.sector_lt, hcover⟩
      rw [hsectors]
      exact Int.toNat_of_nonneg hnonneg
    case removes =>
      intro fresh disk' hok fresh'
      obtain ⟨hyes, i, s, hdr, -, hc⟩ := h.of_create hlow hok
      exact hc.remove h hyes.absent fresh'
    case refused =>
      intro hlong fresh
      apply h.create_refused hlow
      intro hyes
      have hshort := (hcond.resolve_left (not_not_intro hyes)).2
      omega

end FileSystem

/-- In a run whose calls stay inside their arrays and whose writes through handles spare the
sectors taken from their removed files, `Create` keeps to the capacity of a header exactly when it
is refused for another reason or the size is one a header can hold. -/
theorem create_within_capacity_iff {s : Session}
    (hs : (Session.handleSystem.restrict fun s l => s.Guarded l.1).Reachable s) (name : Image)
    {size : Int} (hsize : -2 ^ 31 ≤ size ∧ size < 2 ^ 31) :
    s.fs.WithinCapacity s.disk name size ↔
      ¬ s.disk.CanCreate name size.toNat ∨ (-128 < size ∧ size ≤ maxFileSize) :=
  (Session.guarded_inductive.of_reachable hs).fs.withinCapacity_iff name hsize.1

theorem create_within_capacity_formatted :
    ∃ fs disk, FileSystem.new (fun _ _ => 0) (fun _ _ => 0) true = some (fs, disk) ∧
      disk.CanCreate (letter 97) 3840 ∧ fs.WithinCapacity disk (letter 97) 3840 := by
  obtain ⟨fs, disk, hnew, hinv, hcan⟩ := FileSystem.new_format (fun _ _ => 0) (fun _ _ => 0)
  have hstart : (Session.handleSystem.restrict fun s l => s.Guarded l.1).Reachable
      ⟨disk, fs, []⟩ := .init ⟨rfl, _, _, hnew⟩
  refine ⟨fs, disk, hnew, hcan _ _ (by decide), ?_⟩
  have hsize : -2 ^ 31 ≤ (3840 : Int) ∧ (3840 : Int) < 2 ^ 31 := by decide
  exact (create_within_capacity_iff hstart (letter 97) hsize).mpr (.inr (by decide))

/-- On a formatted disk `Create` of one byte more than a header can hold overruns the table of
the header, and a file of -128 bytes gets -1 sectors. -/
theorem not_create_within_capacity :
    ∃ fs disk, FileSystem.new (fun _ _ => 0) (fun _ _ => 0) true = some (fs, disk) ∧
      fs.create disk (fun _ _ => 0) (letter 97) 3841 = none ∧
      ¬ fs.WithinCapacity disk (letter 97) 3841 ∧ ¬ fs.WithinCapacity disk (letter 97) (-128) := by
  obtain ⟨fs, disk, hnew, hinv, hcan⟩ := FileSystem.new_format (fun _ _ => 0) (fun _ _ => 0)
  have hlong : fs.create disk (fun _ _ => 0) (letter 97) 3841 = none := by
    rcases hinv.create_spec (fun _ _ => 0) (letter 97) (show -2 ^ 31 ≤ (3841 : Int) by decide) with
      ⟨hno, -⟩ | ⟨-, -, hnone⟩ | ⟨-, hshort, -⟩
    · exact absurd (hcan _ _ (by decide)) hno
    · exact hnone
    · exact absurd hshort (by decide)
  refine ⟨fs, disk, hnew, hlong, ?_, ?_⟩
  · intro hcap
    rw [hcap.refused (by decide)] at hlong
    cases hlong
  · rw [hinv.withinCapacity_iff (letter 97) (by decide)]
    rintro (hno | ⟨hlarge, -⟩)
    · exact hno (hcan _ _ (by decide))
    · exact absurd hlarge (by decide)

end Nachos

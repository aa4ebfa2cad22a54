import Nachos.Filesys.Layout

/-!
# Formatting, creating, removing and writing files

Each operation succeeds on a disk in order, and its effect is told in the terms of the layout:
what it gives to a file or takes from it, and which sectors stay.
-/

namespace Nachos

open Framework

namespace FileSystem

/-! ## Create -/

/-- A successful `Create`: entry `i` names the header `hdr`, written to sector `s`. -/
structure Created (fs : FileSystem) (disk disk' : Disk) (name : Image) (i s : Nat)
    (hdr : FileHeader) : Prop where
  entry_lt : i < numDirEntries
  entry_free : disk.directory.inUse i = false
  wellFormed : hdr.WellFormed
  nodup : (s :: hdr.sectors).Nodup
  free : ∀ n ∈ s :: hdr.sectors, n < Disk.numSectors ∧ disk.freeMap.bit n = false
  lowest : ∀ n ∈ s :: hdr.sectors, ∀ k < n, disk.freeMap.bit k = true ∨ k ∈ s :: hdr.sectors
  header_lt : ∀ n ∈ hdr.sectors, s < n
  header : Image.AgreeTo sectorSize (disk'.header s).image hdr.image
  frame : ∀ t, t ≠ s → t ∉ fs.freeMapFile.hdr.sectors → t ∉ fs.directoryFile.hdr.sectors →
    disk' t = disk t
  bit : ∀ n < Disk.numSectors,
    disk'.freeMap.bit n = (disk.freeMap.bit n || decide (n ∈ s :: hdr.sectors))
  inUse : ∀ j < numDirEntries,
    disk'.directory.inUse j = (disk.directory.inUse j || decide (j = i))
  sector : ∀ j < numDirEntries, disk'.directory.sector j =
    if j = i then BitVec.ofInt 32 s else disk.directory.sector j
  matchesName : ∀ j < numDirEntries, ∀ nm, disk'.directory.matchesName nm j =
    if j = i then strncmp (padded name) nm fileNameMaxLen == 0
    else disk.directory.matchesName nm j

namespace Inv

variable {fs : FileSystem} {disk disk' : Disk}

private theorem created (h : fs.Inv disk) {directory : Directory} {freeMap freeMap' : Bitmap}
    {i s : Nat} {name : Image} {hdr : FileHeader}
    (hag : Image.AgreeTo (numDirEntries * entrySize) directory.table disk.directory.table)
    (hbits : freeMap.numBits = Disk.numSectors)
    (hbit : ∀ n < Disk.numSectors, freeMap.bit n = disk.freeMap.bit n)
    (hi : i < numDirEntries) (hfree : directory.inUse i = false)
    (hs : s < Disk.numSectors) (hclear : freeMap.bit s = false)
    (hleast : ∀ k < s, freeMap.bit k = true) (hwf : hdr.WellFormed)
    (hal : FileHeader.Allocated (freeMap.marked s) hdr.sectors freeMap')
    (hfl : fs.Flushed freeMap' (directory.added i name s) (disk.written s hdr.image) disk') :
    fs.Created disk disk' name i s hdr := by
  have hsame : ∀ j < numDirEntries, directory.inUse j = disk.directory.inUse j ∧
      directory.sector j = disk.directory.sector j := by
    intro j hj
    obtain ⟨huse, hsec, -⟩ := Directory.congr hag hj
    exact ⟨huse, hsec⟩
  have hlt : ∀ n ∈ hdr.sectors, n < Disk.numSectors := by
    intro n hn
    have := hal.lt n hn
    rwa [Bitmap.marked_numBits, hbits] at this
  -- the new sectors were clear, so they are none of the marked ones
  have hnew : ∀ n ∈ s :: hdr.sectors, n < Disk.numSectors ∧ disk.freeMap.bit n = false := by
    intro n hn
    rcases List.mem_cons.mp hn with rfl | hn
    · exact ⟨hs, (hbit n hs).symm.trans hclear⟩
    · have hc := hal.clear n hn
      rw [Bitmap.bit_marked, Bool.or_eq_false_iff] at hc
      exact ⟨hlt n hn, (hbit n (hlt n hn)).symm.trans hc.1⟩
  have hnot : ∀ f t, disk.headerSector f = some t → s ∉ t :: (disk.header t).sectors := by
    intro f t ht
    exact h.notMem_of_clear ht (hnew s List.mem_cons_self).2
  have hsmap : s ∉ fs.freeMapFile.hdr.sectors := by
    rw [h.mapFile]
    exact fun hm => hnot .freeMap _ rfl (List.mem_cons_of_mem _ hm)
  have hsdir : s ∉ fs.directoryFile.hdr.sectors := by
    rw [h.dirFile]
    exact fun hm => hnot .directory _ rfl (List.mem_cons_of_mem _ hm)
  have hframe : ∀ t, t ≠ s → t ∉ fs.freeMapFile.hdr.sectors →
      t ∉ fs.directoryFile.hdr.sectors → disk' t = disk t := by
    intro t hts hmap hdir
    rw [hfl.frame t hmap hdir, Disk.written_of_ne _ hts]
  have hup : Updated freeMap' (directory.added i name s) disk disk' := by
    apply h.updated_of_flushed hfl
    · apply Disk.written_of_ne
      rintro rfl
      exact hnot .freeMap _ rfl List.mem_cons_self
    · apply Disk.written_of_ne
      rintro rfl
      exact hnot .directory _ rfl List.mem_cons_self
  constructor
  case entry_lt => exact hi
  case entry_free => exact (hsame i hi).1.symm.trans hfree
  case wellFormed => exact hwf
  case nodup =>
    refine List.nodup_cons.mpr ⟨?_, hal.nodup⟩
    intro hmem
    have hc := hal.clear s hmem
    rw [Bitmap.bit_marked] at hc
    simp at hc
  case free => exact hnew
  case lowest =>
    intro n hn k hk
    have hlt : k < Disk.numSectors := hk.trans (hnew n hn).1
    rw [← hbit k hlt, List.mem_cons]
    rcases List.mem_cons.mp hn with rfl | hn
    · exact .inl (hleast k hk)
    · rcases hal.lowest n hn k hk with hset | hmem
      · rw [Bitmap.bit_marked, Bool.or_eq_true, decide_eq_true_eq] at hset
        exact hset.imp_right .inl
      · exact .inr (.inr hmem)
  case header_lt =>
    intro n hn
    have hc := hal.clear n hn
    rw [Bitmap.bit_marked, Bool.or_eq_false_iff, decide_eq_false_iff_not] at hc
    by_contra hge
    have hset := hleast n (by omega)
    rw [hc.1] at hset
    cases hset
  case header =>
    rw [Disk.header, hfl.frame s hsmap hsdir]
    exact Disk.written_agreeTo disk s hdr.image
  case frame => exact hframe
  case bit =>
    intro n hn
    rw [hup.bit n hn, hal.bit, Bitmap.bit_marked, hbit n hn, Bool.or_assoc]
    simp
  case inUse =>
    intro j hj
    rw [hup.inUse j hj, Directory.added_inUse, (hsame j hj).1]
  case sector =>
    intro j hj
    rw [hup.sector j hj, Directory.added_sector, (hsame j hj).2]
  case matchesName =>
    intro j hj nm
    rw [hup.matchesName j hj, Directory.added_matchesName, Directory.matchesName_congr hag nm hj]

/-- The bytes of the names after a successful `Create`. -/
structure NameStored (disk disk' : Disk) (name : Image) (i : Nat) : Prop where
  first : disk.directory.firstFree = some i
  name_eq : ∀ j < numDirEntries, ∀ k < 10, disk'.directory.name j k =
    if j = i ∧ k < fileNameMaxLen then padded name k else disk.directory.name j k

private theorem nameStored (h : fs.Inv disk) {directory : Directory} {freeMap' : Bitmap}
    {i s : Nat} {name : Image} {hdr : FileHeader}
    (hsize : directory.tableSize = numDirEntries)
    (hag : Image.AgreeTo (numDirEntries * entrySize) directory.table disk.directory.table)
    (hfirst : directory.firstFree = some i) (hc : fs.Created disk disk' name i s hdr)
    (hfl : fs.Flushed freeMap' (directory.added i name s) (disk.written s hdr.image) disk') :
    NameStored disk disk' name i := by
  have hout := h.header_outside (f := .directory) rfl
  have hdir : disk' directorySector = disk directorySector := by
    rw [hfl.frame _ hout.1 hout.2]
    apply Disk.written_of_ne
    rintro rfl
    exact h.notMem_of_clear (f := .directory) rfl (hc.free _ List.mem_cons_self).2 List.mem_cons_self
  have htable := table_of_content h.dirFile hdir hfl.table
  constructor
  case first =>
    rw [← hfirst]
    apply Directory.firstFree_congr hsize.symm
    intro j hj
    exact (Directory.congr hag hj).1.symm
  case name_eq =>
    intro j hj k hk
    rw [(Directory.congr (n := numDirEntries) htable hj).2.2 k hk, Directory.added_name _ _ _ _ _ hk,
      (Directory.congr hag hj).2.2 k hk]

/-- `Create` fails without room, overruns the table of the header when the file is too long for
it, and else adds the file. -/
theorem create_cases (h : fs.Inv disk) (fresh : Nat → Image) (name : Image) {size : Int}
    (hsize : -2 ^ 31 ≤ size) :
    (¬ disk.CanCreate name size.toNat ∧ fs.create disk fresh name size = some (false, disk)) ∨
      (disk.CanCreate name size.toNat ∧ maxFileSize < size ∧
        fs.create disk fresh name size = none) ∨
      (disk.CanCreate name size.toNat ∧ size ≤ maxFileSize ∧
        ∃ i s hdr disk', fs.create disk fresh name size = some (true, disk') ∧
          hdr.HasSize size ∧ fs.Created disk disk' name i s hdr ∧
          NameStored disk disk' name i) := by
  obtain ⟨directory, hfetch, hdsize, hag⟩ := h.fetch_directory (fresh 0)
  obtain ⟨freeMap, hmap, hbits, hbit⟩ := h.fetch_freeMap (fresh 1)
  have hcount : disk.freeMap.clearCount = freeMap.clearCount := by
    apply (Bitmap.clearCount_congr hbits _).symm
    rwa [hbits]
  have hindex := findIndex_eq hdsize hag name
  rcases h.find_cases hdsize hag name with ⟨hidx, hfind⟩ | ⟨i, s, hidx, -, hfind⟩
  swap
  · refine .inl ⟨?_, ?_⟩
    · intro hcan
      have habsent := hindex.symm.trans hcan.absent
      omega
    · have hne : ((s : Nat) : Int) ≠ -1 := by omega
      simp only [create, hfetch, Option.bind_eq_bind, Option.bind_some, hfind, ne_eq, hne,
        not_false_eq_true, if_true]
  obtain ⟨r, hset, hcase⟩ := freeMap.findAndSet_spec
  cases hcase with
  | full hfull =>
    refine .inl ⟨?_, ?_⟩
    · intro hcan
      have hroom := hcan.room
      rw [hcount, Bitmap.clearCount_of_full hfull] at hroom
      omega
    · simp only [create, hfetch, Option.bind_eq_bind, Option.bind_some, hfind, ne_eq,
        not_true_eq_false, if_false, hmap, hset, if_true]
  | found s hs hclear hleast =>
    have hs' : (s : Int) ≠ -1 := by omega
    have hmarked := Bitmap.clearCount_marked hs hclear
    rcases Directory.add_cases s hidx with ⟨hadd, hused⟩ | ⟨i, hi, hfree, hadd, hfirst⟩
    · refine .inl ⟨?_, ?_⟩
      · intro hcan
        obtain ⟨i, hi, hfree⟩ := hcan.entry
        have huse := hused i (by rwa [hdsize])
        rw [(Directory.congr hag hi).1, hfree] at huse
        cases huse
      · simp only [create, hfetch, Option.bind_eq_bind, Option.bind_some, hfind, ne_eq,
          not_true_eq_false, if_false, hmap, hset, hs', hadd, Bool.false_eq_true]
    rcases Nat.lt_or_ge (freeMap.marked s).clearCount (FileHeader.sectorsFor size.toNat) with
      hroom | hroom
    · refine .inl ⟨?_, ?_⟩
      · intro hcan
        have hroom' := hcan.room
        omega
      · obtain ⟨hdr, hal⟩ := FileHeader.allocate_full ⟨fresh 2⟩ hroom
        simp only [create, hfetch, Option.bind_eq_bind, Option.bind_some, hfind, ne_eq,
          not_true_eq_false, if_false, hmap, hset, hs', hadd, if_true, hal, Bool.false_eq_true]
    rw [hdsize] at hi
    have hcan : disk.CanCreate name size.toNat :=
      ⟨hindex.trans hidx, ⟨i, hi, (Directory.congr hag hi).1.symm.trans hfree⟩, by omega⟩
    rcases Int.lt_or_le maxFileSize size with hlong | hshort
    · refine .inr (.inl ⟨hcan, hlong, ?_⟩)
      have hal := FileHeader.allocate_overrun ⟨fresh 2⟩ (b := freeMap.marked s) hlong hroom
      simp only [create, hfetch, Option.bind_eq_bind, Option.bind_some, hfind, ne_eq,
        not_true_eq_false, if_false, hmap, hset, hs', hadd, if_true, hal, Option.bind_none]
    obtain ⟨hdr, freeMap', hal, hwf, hlen, hspec⟩ :=
      FileHeader.allocate_room ⟨fresh 2⟩ (b := freeMap.marked s) hbits ⟨hsize, hshort⟩ hroom
    have hsn : s < Disk.numSectors := hbits ▸ hs
    have hadded : (directory.added i name s).tableSize = numDirEntries := hdsize
    obtain ⟨disk₂, disk₃, hw₂, hw₃, hfl⟩ := flush_directory_first h.metadata
      (hspec.numBits.trans hbits) hadded (disk.written s hdr.image) (fresh 3) (fresh 4)
    have hcreated := h.created hag hbits hbit hi hfree hsn hclear hleast hwf hspec hfl
    refine .inr (.inr ⟨hcan, hshort, i, s, hdr, disk₃, ?_, hlen, hcreated,
      h.nameStored hdsize hag hfirst hcreated hfl⟩)
    simp only [create, hfetch, Option.bind_eq_bind, Option.bind_some, hfind, ne_eq,
      not_true_eq_false, if_false, hmap, hset, hs', hadd, if_true, hal, FileHeader.writeBack,
      Disk.writeSector_eq disk hdr.image hsn, hw₂, hw₃]

theorem create_spec (h : fs.Inv disk) (fresh : Nat → Image) (name : Image) {size : Int}
    (hsize : -2 ^ 31 ≤ size) :
    (¬ disk.CanCreate name size.toNat ∧ fs.create disk fresh name size = some (false, disk)) ∨
      (disk.CanCreate name size.toNat ∧ maxFileSize < size ∧
        fs.create disk fresh name size = none) ∨
      (disk.CanCreate name size.toNat ∧ size ≤ maxFileSize ∧
        ∃ i s hdr disk', fs.create disk fresh name size = some (true, disk') ∧
          hdr.HasSize size ∧ fs.Created disk disk' name i s hdr) := by
  rcases h.create_cases fresh name hsize with
    hno | hover | ⟨hcan, hshort, i, s, hdr, disk', hok, hlen, hc, -⟩
  · exact .inl hno
  · exact .inr (.inl hover)
  · exact .inr (.inr ⟨hcan, hshort, i, s, hdr, disk', hok, hlen, hc⟩)

theorem create_ok (h : fs.Inv disk) (fresh : Nat → Image) {name : Image} {size : Int}
    (hlow : -2 ^ 31 ≤ size) (hsize : size ≤ maxFileSize) (hcan : disk.CanCreate name size.toNat) :
    ∃ i s hdr disk', fs.create disk fresh name size = some (true, disk') ∧
      hdr.HasSize size ∧ fs.Created disk disk' name i s hdr := by
  rcases h.create_spec fresh name hlow with ⟨hno, -⟩ | ⟨-, hlong, -⟩ | ⟨-, -, hok⟩
  · exact absurd hcan hno
  · omega
  · exact hok

end Inv

namespace Created

variable {fs : FileSystem} {disk disk' : Disk} {name : Image} {i s : Nat} {hdr : FileHeader}

theorem header_kept (hc : fs.Created disk disk' name i s hdr) (h : fs.Inv disk) {f : FileRef} {t : Nat}
    (ht : disk.headerSector f = some t) : disk' t = disk t := by
  apply hc.frame
  · rintro rfl
    exact h.notMem_of_clear ht (hc.free t List.mem_cons_self).2 List.mem_cons_self
  · exact (h.header_outside ht).1
  · exact (h.header_outside ht).2

theorem headerSector_of_ne (hc : fs.Created disk disk' name i s hdr) {f : FileRef}
    (hf : f ≠ .entry i) : disk'.headerSector f = disk.headerSector f := by
  cases f with
  | freeMap => rfl
  | directory => rfl
  | entry j =>
    have hj : j ≠ i := fun he => hf (by rw [he])
    apply Disk.headerSector_entry_congr
    · intro hlt
      rw [hc.inUse j hlt, decide_eq_false hj, Bool.or_false]
    · intro hlt _
      rw [hc.sector j hlt, if_neg hj]

theorem headerSector_self (hc : fs.Created disk disk' name i s hdr) :
    disk'.headerSector (.entry i) = some s := by
  have huse : disk'.directory.inUse i = true := by
    rw [hc.inUse i hc.entry_lt]
    simp
  have hlt := (hc.free s List.mem_cons_self).1
  simp only [Disk.numSectors] at hlt
  rw [Disk.headerSector_entry hc.entry_lt huse, hc.sector i hc.entry_lt, if_pos rfl,
    BitVec.ofInt_natCast, BitVec.toNat_ofNat, Nat.mod_eq_of_lt (by omega)]

theorem findIndex_self (hc : fs.Created disk disk' name i s hdr)
    (habsent : disk.directory.findIndex name = -1) : disk'.directory.findIndex name = i := by
  have hself : disk'.directory.matchesName name i = true := by
    rw [hc.matchesName i hc.entry_lt, if_pos rfl, Directory.strncmp_padded]
    rfl
  rcases disk'.directory.findIndex_cases name with hnone | ⟨j, hj, hidx, hmatch⟩
  · rw [Directory.findIndex_eq_neg_one.mp hnone i hc.entry_lt] at hself
    cases hself
  · rw [hidx]
    by_contra hne
    have hne : j ≠ i := fun he => hne (by rw [he])
    rw [hc.matchesName j hj, if_neg hne, Directory.findIndex_eq_neg_one.mp habsent j hj] at hmatch
    cases hmatch

private theorem sectorsOf_eq (hc : fs.Created disk disk' name i s hdr) (h : fs.Inv disk)
    (f : FileRef) :
    disk'.sectorsOf f = Function.update disk.sectorsOf (.entry i) (s :: hdr.sectors) f := by
  by_cases hf : f = .entry i
  · subst hf
    have hsec := (hc.wellFormed.congr hc.header).2.2
    rw [Function.update_self, Disk.sectorsOf_some hc.headerSector_self, hsec]
  · rw [Function.update_of_ne hf]
    exact Disk.sectorsOf_congr (hc.headerSector_of_ne hf) fun t ht => hc.header_kept h ht

theorem inv (hc : fs.Created disk disk' name i s hdr) (h : fs.Inv disk) : fs.Inv disk' := by
  have hnil : disk.sectorsOf (.entry i) = [] := by
    apply Disk.sectorsOf_none
    apply if_neg
    rw [hc.entry_free]
    exact fun hcond => Bool.false_ne_true hcond.2
  have hfree : ∀ n ∈ s :: hdr.sectors, ¬ disk.Marked n := by
    intro n hn hm
    rw [Disk.Marked, (hc.free n hn).2] at hm
    exact Bool.false_ne_true hm.2
  apply h.of_allocation
  · apply (h.alloc.give hnil hc.nodup hfree).congr (hc.sectorsOf_eq h)
    intro n
    constructor
    · rintro ⟨hn, hb⟩
      rw [hc.bit n hn, Bool.or_eq_true, decide_eq_true_eq] at hb
      exact hb.imp (fun hb => ⟨hn, hb⟩) id
    · rintro (⟨hn, hb⟩ | hn)
      · exact ⟨hn, by rw [hc.bit n hn, hb, Bool.true_or]⟩
      · have hlt := (hc.free n hn).1
        exact ⟨hlt, by rw [hc.bit n hlt, decide_eq_true hn, Bool.or_true]⟩
  · intro f t ht
    by_cases hf : f = .entry i
    · subst hf
      obtain rfl : s = t := Option.some.inj (hc.headerSector_self.symm.trans ht)
      exact (hc.wellFormed.congr hc.header).1
    · rw [hc.headerSector_of_ne hf] at ht
      rw [Disk.header, hc.header_kept h ht]
      exact h.wellFormed f t ht
  · exact hc.header_kept h (f := .freeMap) rfl
  · exact hc.header_kept h (f := .directory) rfl

end Created

/-! ## Remove -/

/-- A successful `Remove` of the file of entry `i`, with its header in sector `s`. -/
structure Removed (fs : FileSystem) (disk disk' : Disk) (i s : Nat) : Prop where
  header : disk.headerSector (.entry i) = some s
  frame : ∀ t, t ∉ fs.freeMapFile.hdr.sectors → t ∉ fs.directoryFile.hdr.sectors →
    disk' t = disk t
  bit : ∀ n < Disk.numSectors, disk'.freeMap.bit n =
    (disk.freeMap.bit n && !decide (n ∈ s :: (disk.header s).sectors))
  inUse : ∀ j < numDirEntries,
    disk'.directory.inUse j = (disk.directory.inUse j && !decide (j = i))
  sector : ∀ j < numDirEntries, disk'.directory.sector j = disk.directory.sector j
  matchesName : ∀ j < numDirEntries, ∀ nm,
    disk'.directory.matchesName nm j = (disk.directory.matchesName nm j && !decide (j = i))

theorem Inv.remove_cases {fs : FileSystem} {disk : Disk} (h : fs.Inv disk) (fresh : Nat → Image)
    (name : Image) :
    (disk.directory.findIndex name = -1 ∧ fs.remove disk fresh name = some (false, disk)) ∨
      ∃ (i s : Nat) (disk' : Disk), fs.remove disk fresh name = some (true, disk') ∧
        disk.directory.findIndex name = i ∧ fs.Removed disk disk' i s ∧
        ∀ j < numDirEntries, ∀ k < 10, disk'.directory.name j k = disk.directory.name j k := by
  obtain ⟨directory, hfetch, hdsize, hag⟩ := h.fetch_directory (fresh 0)
  obtain ⟨freeMap, hmap, hbits, hbit⟩ := h.fetch_freeMap (fresh 1)
  rcases h.find_cases hdsize hag name with ⟨hidx, hfind⟩ | ⟨i, s, hidx, hs, hfind⟩
  · refine .inl ⟨(Inv.findIndex_eq hdsize hag name).trans hidx, ?_⟩
    simp only [remove, hfetch, Option.bind_eq_bind, Option.bind_some, hfind, if_true]
  right
  have hlt := h.header_lt hs
  have hset : ∀ n ∈ (disk.header s).sectors, freeMap.bit n = true := by
    intro n hn
    obtain ⟨hn', hb⟩ := h.marked_of_data hs hn
    rw [hbit n hn', hb]
  obtain ⟨freeMap₁, hdeal, hbits₁, hbit₁⟩ :=
    FileHeader.deallocate_spec (h.wellFormed _ s hs) hbits hset
  have hclear : freeMap₁.clear s = some (freeMap₁.cleared s) :=
    Bitmap.clear_eq (by rw [hbits₁, hbits]; exact hlt)
  have hremove : directory.remove name = (true, directory.removed i) := by
    have hne : (i : Int) ≠ -1 := by omega
    simp only [Directory.remove, hidx, hne, if_false, Int.toNat_natCast]
  have hremoved : (directory.removed i).tableSize = numDirEntries := hdsize
  have hcleared : (freeMap₁.cleared s).numBits = Disk.numSectors := hbits₁.trans hbits
  obtain ⟨disk₁, disk₂, hw₁, hw₂, hfl⟩ :=
    flush_map_first h.metadata hcleared hremoved disk (fresh 2) (fresh 3)
  have hup := h.updated_of_flushed hfl rfl rfl
  refine ⟨i, s, disk₂, ?_, (Inv.findIndex_eq hdsize hag name).trans hidx,
    ⟨hs, hfl.frame, ?_, ?_, ?_, ?_⟩, ?_⟩
  · have hne : (s : Int) ≠ -1 := by omega
    have hhdr : FileHeader.fetchFrom disk s = some (disk.header s) := by
      rw [FileHeader.fetchFrom, Disk.readSector_eq disk hlt]
      rfl
    simp only [remove, hfetch, Option.bind_eq_bind, Option.bind_some, hfind, hne, if_false, hhdr,
      hmap, hdeal, hclear, hremove, hw₁, hw₂]
  · intro n hn
    rw [hup.bit n hn, Bitmap.bit_cleared, hbit₁, hbit n hn, Bool.and_assoc]
    simp only [List.mem_cons, Bool.decide_or, Bool.not_or, Bool.and_comm]
  · intro j hj
    rw [hup.inUse j hj, Directory.removed_inUse, (Directory.congr hag hj).1]
  · intro j hj
    rw [hup.sector j hj, Directory.removed_sector, (Directory.congr hag hj).2.1]
  · intro j hj nm
    rw [hup.matchesName j hj, Directory.removed_matchesName,
      Directory.matchesName_congr hag nm hj]
  · intro j hj k hk
    have htable := table_of_content h.dirFile hup.dirHeader hfl.table
    rw [(Directory.congr (n := numDirEntries) htable hj).2.2 k hk, Directory.removed_name _ _ _ hk,
      (Directory.congr hag hj).2.2 k hk]

theorem Inv.remove_spec {fs : FileSystem} {disk : Disk} (h : fs.Inv disk) (fresh : Nat → Image)
    (name : Image) :
    (disk.directory.findIndex name = -1 ∧ fs.remove disk fresh name = some (false, disk)) ∨
      ∃ (i s : Nat) (disk' : Disk), fs.remove disk fresh name = some (true, disk') ∧
        disk.directory.findIndex name = i ∧ fs.Removed disk disk' i s := by
  rcases h.remove_cases fresh name with hno | ⟨i, s, disk', hok, hidx, hr, -⟩
  · exact .inl hno
  · exact .inr ⟨i, s, disk', hok, hidx, hr⟩

namespace Removed

variable {fs : FileSystem} {disk disk' : Disk} {i s : Nat}

theorem header_kept (hr : fs.Removed disk disk' i s) (h : fs.Inv disk) {f : FileRef} {t : Nat}
    (ht : disk.headerSector f = some t) : disk' t = disk t :=
  hr.frame t (h.header_outside ht).1 (h.header_outside ht).2

theorem headerSector_of_ne (hr : fs.Removed disk disk' i s) {f : FileRef} (hf : f ≠ .entry i) :
    disk'.headerSector f = disk.headerSector f := by
  cases f with
  | freeMap => rfl
  | directory => rfl
  | entry j =>
    have hj : j ≠ i := fun he => hf (by rw [he])
    apply Disk.headerSector_entry_congr
    · intro hlt
      rw [hr.inUse j hlt, decide_eq_false hj, Bool.not_false, Bool.and_true]
    · intro hlt _
      exact hr.sector j hlt

theorem headerSector_self (hr : fs.Removed disk disk' i s) :
    disk'.headerSector (.entry i) = none := by
  apply if_neg
  rintro ⟨hi, huse⟩
  rw [hr.inUse i hi] at huse
  simp at huse

private theorem sectorsOf_eq (hr : fs.Removed disk disk' i s) (h : fs.Inv disk) (f : FileRef) :
    disk'.sectorsOf f = Function.update disk.sectorsOf (.entry i) [] f := by
  by_cases hf : f = .entry i
  · subst hf
    rw [Function.update_self, Disk.sectorsOf_none hr.headerSector_self]
  · rw [Function.update_of_ne hf]
    exact Disk.sectorsOf_congr (hr.headerSector_of_ne hf) fun t ht => hr.header_kept h ht

theorem inv (hr : fs.Removed disk disk' i s) (h : fs.Inv disk) : fs.Inv disk' := by
  apply h.of_allocation
  · apply (h.alloc.release (.entry i)).congr (hr.sectorsOf_eq h)
    intro n
    rw [Disk.sectorsOf_some hr.header]
    constructor
    · rintro ⟨hn, hb⟩
      rw [hr.bit n hn, Bool.and_eq_true, Bool.not_eq_true', decide_eq_false_iff_not] at hb
      exact ⟨⟨hn, hb.1⟩, hb.2⟩
    · rintro ⟨⟨hn, hb⟩, hnot⟩
      exact ⟨hn, by rw [hr.bit n hn, hb, decide_eq_false hnot, Bool.not_false, Bool.and_true]⟩
  · intro f t ht
    by_cases hf : f = .entry i
    · subst hf
      rw [hr.headerSector_self] at ht
      cases ht
    · rw [hr.headerSector_of_ne hf] at ht
      rw [Disk.header, hr.header_kept h ht]
      exact h.wellFormed f t ht
  · exact hr.header_kept h (f := .freeMap) rfl
  · exact hr.header_kept h (f := .directory) rfl

end Removed

/-! ## Opening -/

/-- `Open` gives a handle on the header of the entry it finds. -/
theorem Inv.openFile_spec {fs : FileSystem} {disk : Disk} (h : fs.Inv disk) (fresh : Nat → Image)
    (name : Image) :
    (disk.directory.findIndex name = -1 ∧ fs.openFile disk fresh name = some none) ∨
      ∃ i t : Nat, disk.directory.findIndex name = i ∧ disk.headerSector (.entry i) = some t ∧
        fs.openFile disk fresh name =
          some (some { hdr := disk.header t, seekPosition := 0 }) := by
  obtain ⟨directory, hfetch, hdsize, hag⟩ := h.fetch_directory (fresh 0)
  have hindex := Inv.findIndex_eq hdsize hag name
  rcases h.find_cases hdsize hag name with ⟨hidx, hfind⟩ | ⟨i, t, hidx, ht, hfind⟩
  · refine .inl ⟨hindex.trans hidx, ?_⟩
    have hneg : ¬ (0 : Int) ≤ -1 := by decide
    simp only [openFile, hfetch, Option.bind_eq_bind, Option.bind_some, hfind, hneg, if_false]
  · refine .inr ⟨i, t, hindex.trans hidx, ht, ?_⟩
    have hread := Disk.readSector_eq disk (h.header_lt ht)
    have hpos : (0 : Int) ≤ t := by omega
    simp only [openFile, hfetch, Option.bind_eq_bind, Option.bind_some, hfind, hpos, if_true,
      OpenFile.new, FileHeader.fetchFrom, hread, Option.map_some]
    rfl

/-! ## Writing to a file -/

section Stored

variable {fs : FileSystem} {disk disk' : Disk} {i s : Nat}

theorem Inv.kept (h : fs.Inv disk)
    (hkept : ∀ f t, disk.headerSector f = some t → disk' t = disk t)
    (hmap : ∀ t ∈ fs.freeMapFile.hdr.sectors, disk' t = disk t)
    (hdir : ∀ t ∈ fs.directoryFile.hdr.sectors, disk' t = disk t) :
    fs.Inv disk' ∧ ∀ f, disk'.headerSector f = disk.headerSector f := by
  have hmap' := OpenFile.content_congr h.metadata.mapWellFormed hmap
  have hdir' := OpenFile.content_congr h.metadata.dirWellFormed hdir
  rw [h.metadata.mapLength] at hmap'
  rw [h.metadata.dirLength] at hdir'
  have hup : Updated disk.freeMap disk.directory disk disk' := by
    apply updated_of_content h.mapFile h.dirFile (hkept .freeMap _ rfl) (hkept .directory _ rfl)
    · rwa [Disk.freeMap, ← h.mapFile]
    · rwa [Disk.directory, ← h.dirFile]
  have hheader : ∀ f, disk'.headerSector f = disk.headerSector f := by
    intro f
    cases f with
    | freeMap => rfl
    | directory => rfl
    | entry j => exact Disk.headerSector_entry_congr (hup.inUse j) fun hj _ => hup.sector j hj
  refine ⟨h.of_allocation ?_ ?_ (hkept .freeMap _ rfl) (hkept .directory _ rfl), hheader⟩
  · apply h.alloc.congr fun f => Disk.sectorsOf_congr (hheader f) (hkept f)
    intro n
    exact and_congr_right fun hn => by rw [hup.bit n hn]
  · intro f t ht
    rw [hheader] at ht
    rw [Disk.header, hkept f t ht]
    exact h.wellFormed f t ht

theorem Inv.stored (h : fs.Inv disk) (hs : disk.headerSector (.entry i) = some s)
    (hframe : ∀ t ∉ (disk.header s).sectors, disk' t = disk t) :
    fs.Inv disk' ∧ (∀ f, disk'.headerSector f = disk.headerSector f) ∧
      ∀ f t, disk.headerSector f = some t → disk' t = disk t := by
  have hkept : ∀ f t, disk.headerSector f = some t → disk' t = disk t :=
    fun f t ht => hframe t (h.header_notMem ht hs)
  obtain ⟨hinv, hheader⟩ := h.kept hkept
    (by
      rw [h.mapFile]
      exact fun t ht => hframe t (h.data_disjoint (f := .freeMap) rfl hs (by simp) ht))
    (by
      rw [h.dirFile]
      exact fun t ht => hframe t (h.data_disjoint (f := .directory) rfl hs (by simp) ht))
  exact ⟨hinv, hheader, hkept⟩

end Stored

/-! ## Formatting -/

/-- The headers and the free map that formatting builds in memory. -/
private structure Formatted (mapHdr dirHdr : FileHeader) (freeMap : Bitmap) : Prop where
  mapWellFormed : mapHdr.WellFormed
  mapLength : mapHdr.length = freeMapFileSize
  dirWellFormed : dirHdr.WellFormed
  dirLength : dirHdr.length = directoryFileSize
  mapNodup : (freeMapSector :: mapHdr.sectors).Nodup
  dirNodup : (directorySector :: dirHdr.sectors).Nodup
  disjoint : ∀ n ∈ directorySector :: dirHdr.sectors, n ∉ freeMapSector :: mapHdr.sectors
  numBits : freeMap.numBits = Disk.numSectors
  clearCount : freeMap.clearCount = 1019
  bit : ∀ n < Disk.numSectors, freeMap.bit n =
    (decide (n ∈ freeMapSector :: mapHdr.sectors) || decide (n ∈ directorySector :: dirHdr.sectors))

private theorem format_alloc (fresh : Nat → Image) :
    ∃ b b₀ b₁ b₂ mapHdr dirHdr freeMap, Bitmap.new (fresh 0) Disk.numSectors = some b ∧
      b.mark freeMapSector = some b₀ ∧ b₀.mark directorySector = some b₁ ∧
      FileHeader.allocate ⟨fresh 2⟩ b₁ freeMapFileSize = some (true, mapHdr, b₂) ∧
      FileHeader.allocate ⟨fresh 3⟩ b₂ directoryFileSize = some (true, dirHdr, freeMap) ∧
      Formatted mapHdr dirHdr freeMap := by
  obtain ⟨b, hnew, hbits, hclear⟩ := Bitmap.new_spec (fresh 0) (n := Disk.numSectors) (by decide)
  have h₀ : freeMapSector < b.numBits := by rw [hbits]; decide
  have h₁ : directorySector < (b.marked freeMapSector).numBits := by
    rw [Bitmap.marked_numBits, hbits]
    decide
  have hclear₁ : (b.marked freeMapSector).bit directorySector = false := by
    rw [Bitmap.bit_marked, hclear _ (by decide)]
    rfl
  have hcount : b.clearCount = 1024 := by
    rw [Bitmap.clearCount_of_clear (by rwa [hbits]), hbits]
  have hcount₀ := Bitmap.clearCount_marked h₀ (hclear _ (by decide))
  have hcount₁ := Bitmap.clearCount_marked h₁ hclear₁
  have hmapRoom : FileHeader.sectorsFor freeMapFileSize = 1 := by decide
  have hdirRoom : FileHeader.sectorsFor directoryFileSize = 2 := by decide
  have hmapSize : -2 ^ 31 ≤ (freeMapFileSize : Int) ∧ (freeMapFileSize : Int) ≤ maxFileSize := by
    decide
  have hdirSize : -2 ^ 31 ≤ (directoryFileSize : Int) ∧ (directoryFileSize : Int) ≤ maxFileSize := by
    decide
  obtain ⟨mapHdr, b₂, hmap, hmwf, hmsize, hmal⟩ := FileHeader.allocate_room ⟨fresh 2⟩
    (b := (b.marked freeMapSector).marked directorySector) hbits hmapSize
    (by rw [Int.toNat_natCast]; omega)
  have hmlen := hmsize.length
  rw [Int.toNat_natCast] at hmlen
  have hmcount := hmal.clearCount
  have hmlength : mapHdr.sectors.length = 1 := by
    rw [FileHeader.sectors, FileHeader.firstSectors_length, hmwf.count_eq, hmlen, hmapRoom]
  obtain ⟨dirHdr, b₃, hdir, hdwf, hdsize, hdal⟩ := FileHeader.allocate_room ⟨fresh 3⟩
    (hmal.numBits.trans hbits) hdirSize (by rw [Int.toNat_natCast]; omega)
  have hdlen := hdsize.length
  rw [Int.toNat_natCast] at hdlen
  have hdcount := hdal.clearCount
  have hdlength : dirHdr.sectors.length = 2 := by
    rw [FileHeader.sectors, FileHeader.firstSectors_length, hdwf.count_eq, hdlen, hdirRoom]
  -- bits 0 and 1 are marked before the data sectors are searched
  have hbit₁ : ∀ n < Disk.numSectors, ((b.marked freeMapSector).marked directorySector).bit n =
      (decide (n = freeMapSector) || decide (n = directorySector)) := by
    intro n hn
    rw [Bitmap.bit_marked, Bitmap.bit_marked, hclear n hn, Bool.false_or]
  have hmnot : ∀ n ∈ mapHdr.sectors, n ≠ freeMapSector ∧ n ≠ directorySector := by
    intro n hn
    have hc := hmal.clear n hn
    rw [hbit₁ n (hmwf.sector_lt n hn)] at hc
    simpa using hc
  have hdnot : ∀ n ∈ dirHdr.sectors, (n ≠ freeMapSector ∧ n ≠ directorySector) ∧
      n ∉ mapHdr.sectors := by
    intro n hn
    have hc := hdal.clear n hn
    rw [hmal.bit, hbit₁ n (hdwf.sector_lt n hn)] at hc
    simpa using hc
  refine ⟨b, b.marked freeMapSector, (b.marked freeMapSector).marked directorySector, b₂, mapHdr,
    dirHdr, b₃, hnew, Bitmap.mark_eq h₀, Bitmap.mark_eq h₁, hmap, hdir, ?_⟩
  constructor
  case mapWellFormed => exact hmwf
  case mapLength => exact hmlen
  case dirWellFormed => exact hdwf
  case dirLength => exact hdlen
  case mapNodup => exact List.nodup_cons.mpr ⟨fun hm => (hmnot _ hm).1 rfl, hmwf.nodup⟩
  case dirNodup => exact List.nodup_cons.mpr ⟨fun hm => (hdnot _ hm).1.2 rfl, hdwf.nodup⟩
  case disjoint =>
    intro n hn hm
    rcases List.mem_cons.mp hn with rfl | hn
    · rcases List.mem_cons.mp hm with he | hm
      · exact absurd he (by decide)
      · exact (hmnot _ hm).2 rfl
    · rcases List.mem_cons.mp hm with rfl | hm
      · exact (hdnot _ hn).1.1 rfl
      · exact (hdnot _ hn).2 hm
  case numBits => exact hdal.numBits.trans (hmal.numBits.trans hbits)
  case clearCount => omega
  case bit =>
    intro n hn
    rw [hdal.bit, hmal.bit, hbit₁ n hn]
    simp only [List.mem_cons, Bool.decide_or, Bool.or_assoc]
    rw [Bool.or_left_comm (decide (n = directorySector))]

def opened (disk : Disk) : FileSystem :=
  { freeMapFile := { hdr := disk.header freeMapSector, seekPosition := 0 },
    directoryFile := { hdr := disk.header directorySector, seekPosition := 0 } }

theorem openFiles_eq (disk : Disk) : openFiles disk = some (opened disk) := by
  have h₀ := Disk.readSector_eq disk (show freeMapSector < Disk.numSectors by decide)
  have h₁ := Disk.readSector_eq disk (show directorySector < Disk.numSectors by decide)
  simp only [openFiles, OpenFile.new, FileHeader.fetchFrom, h₀, h₁, Option.map_some,
    Option.bind_eq_bind, Option.bind_some]
  rfl

section Format

variable {mapHdr dirHdr : FileHeader} {freeMap : Bitmap} {disk disk' : Disk}

private theorem Formatted.metadata (hform : Formatted mapHdr dirHdr freeMap)
    (hm : Image.AgreeTo sectorSize (disk.header freeMapSector).image mapHdr.image)
    (hd : Image.AgreeTo sectorSize (disk.header directorySector).image dirHdr.image) :
    (opened disk).Metadata := by
  obtain ⟨hmwf, hmlen, hmsec⟩ := hform.mapWellFormed.congr hm
  obtain ⟨hdwf, hdlen, hdsec⟩ := hform.dirWellFormed.congr hd
  refine ⟨hmwf, hmlen.trans hform.mapLength, hdwf, hdlen.trans hform.dirLength, ?_⟩
  show ∀ n ∈ (disk.header freeMapSector).sectors, n ∉ (disk.header directorySector).sectors
  rw [hmsec, hdsec]
  intro n hm hd
  exact hform.disjoint n (List.mem_cons_of_mem _ hd) (List.mem_cons_of_mem _ hm)

private theorem Formatted.updated (hform : Formatted mapHdr dirHdr freeMap)
    (hm : Image.AgreeTo sectorSize (disk.header freeMapSector).image mapHdr.image)
    (hd : Image.AgreeTo sectorSize (disk.header directorySector).image dirHdr.image)
    {directory : Directory} (hfl : (opened disk).Flushed freeMap directory disk disk') :
    Updated freeMap directory disk disk' := by
  have hmfile : (opened disk).freeMapFile.hdr.sectors = mapHdr.sectors :=
    (hform.mapWellFormed.congr hm).2.2
  have hdfile : (opened disk).directoryFile.hdr.sectors = dirHdr.sectors :=
    (hform.dirWellFormed.congr hd).2.2
  apply updated_of_content rfl rfl _ _ hfl.map hfl.table
  · apply hfl.frame
    · rw [hmfile]
      exact (List.nodup_cons.mp hform.mapNodup).1
    · rw [hdfile]
      exact fun hd => hform.disjoint _ (List.mem_cons_of_mem _ hd) List.mem_cons_self
  · apply hfl.frame
    · rw [hmfile]
      exact fun hm => hform.disjoint _ List.mem_cons_self (List.mem_cons_of_mem _ hm)
    · rw [hdfile]
      exact (List.nodup_cons.mp hform.dirNodup).1

private theorem Formatted.canCreate (hform : Formatted mapHdr dirHdr freeMap) {fresh : Image}
    (hup : Updated freeMap (Directory.new fresh numDirEntries) disk disk') (name : Image)
    {size : Nat} (hsize : size ≤ 1018 * sectorSize) : disk'.CanCreate name size := by
  have hunused : ∀ i < numDirEntries, disk'.directory.inUse i = false := by
    intro i hi
    rw [hup.inUse i hi, Directory.new_inUse fresh hi]
  have hcount : disk'.freeMap.clearCount = freeMap.clearCount :=
    Bitmap.clearCount_congr hform.numBits.symm hup.bit
  constructor
  case absent =>
    rw [Directory.findIndex_eq_neg_one]
    intro i hi
    rw [Directory.matchesName, hunused i hi, Bool.false_and]
  case entry => exact ⟨0, by decide, hunused 0 (by decide)⟩
  case room =>
    rw [hcount, hform.clearCount]
    simp only [FileHeader.sectorsFor, sectorSize] at *
    omega

private theorem Formatted.inv (hform : Formatted mapHdr dirHdr freeMap)
    (hm : Image.AgreeTo sectorSize (disk.header freeMapSector).image mapHdr.image)
    (hd : Image.AgreeTo sectorSize (disk.header directorySector).image dirHdr.image)
    {fresh : Image} (hup : Updated freeMap (Directory.new fresh numDirEntries) disk disk') :
    (opened disk).Inv disk' := by
  obtain ⟨hmwf, hmlen, hmsec⟩ := hform.mapWellFormed.congr hm
  obtain ⟨hdwf, hdlen, hdsec⟩ := hform.dirWellFormed.congr hd
  have hhdr₀ : disk'.header freeMapSector = disk.header freeMapSector := by
    rw [Disk.header, Disk.header, hup.mapHeader]
  have hhdr₁ : disk'.header directorySector = disk.header directorySector := by
    rw [Disk.header, Disk.header, hup.dirHeader]
  have hentry : ∀ i, disk'.headerSector (.entry i) = none := by
    intro i
    apply if_neg
    rintro ⟨hi, huse⟩
    rw [hup.inUse i hi, Directory.new_inUse fresh hi] at huse
    cases huse
  constructor
  case alloc =>
    have hempty := Allocation.empty (φ := FileRef) (α := Nat)
    have hmap := hempty.give (f := .freeMap) rfl hform.mapNodup fun _ _ => id
    have hdir := hmap.give (f := .directory) (l := directorySector :: dirHdr.sectors)
      (by simp) hform.dirNodup fun n hn hm => hform.disjoint n hn (hm.resolve_left id)
    apply hdir.congr
    · intro f
      cases f with
      | freeMap =>
        rw [Disk.sectorsOf_some (f := .freeMap) rfl, hhdr₀, hmsec]
        simp
      | directory =>
        rw [Disk.sectorsOf_some (f := .directory) rfl, hhdr₁, hdsec]
        simp
      | entry i =>
        rw [Disk.sectorsOf_none (hentry i)]
        simp
    · intro n
      have hlt : n ∈ freeMapSector :: mapHdr.sectors ∨ n ∈ directorySector :: dirHdr.sectors →
          n < Disk.numSectors := by
        rintro (hn | hn)
        · rcases List.mem_cons.mp hn with rfl | hn
          · decide
          · exact hform.mapWellFormed.sector_lt n hn
        · rcases List.mem_cons.mp hn with rfl | hn
          · decide
          · exact hform.dirWellFormed.sector_lt n hn
      rw [false_or]
      constructor
      · rintro ⟨hn, hb⟩
        rw [hup.bit n hn, hform.bit n hn, Bool.or_eq_true, decide_eq_true_eq,
          decide_eq_true_eq] at hb
        exact hb
      · intro hn
        refine ⟨hlt hn, ?_⟩
        rw [hup.bit n (hlt hn), hform.bit n (hlt hn), Bool.or_eq_true, decide_eq_true_eq,
          decide_eq_true_eq]
        exact hn
  case wellFormed =>
    intro f s hs
    cases f with
    | freeMap =>
      obtain rfl : freeMapSector = s := Option.some.inj hs
      rw [hhdr₀]
      exact hmwf
    | directory =>
      obtain rfl : directorySector = s := Option.some.inj hs
      rw [hhdr₁]
      exact hdwf
    | entry i =>
      rw [hentry i] at hs
      cases hs
  case mapLength =>
    rw [hhdr₀, hmlen]
    exact hform.mapLength
  case dirLength =>
    rw [hhdr₁, hdlen]
    exact hform.dirLength
  case mapFile => exact hhdr₀.symm
  case dirFile => exact hhdr₁.symm

theorem new_format_table (disk : Disk) (fresh : Nat → Image) :
    ∃ fs disk', new disk fresh true = some (fs, disk') ∧ fs.Inv disk' ∧
      (∀ name size, size ≤ 1018 * sectorSize → disk'.CanCreate name size) ∧
      Image.AgreeTo directoryFileSize disk'.directory.table
        (Directory.new (fresh 1) numDirEntries).table := by
  obtain ⟨b, b₀, b₁, b₂, mapHdr, dirHdr, freeMap, hnew, hmark₀, hmark₁, hmap, hdir, hform⟩ :=
    format_alloc fresh
  let disk₁ := disk.written freeMapSector mapHdr.image
  let disk₂ := disk₁.written directorySector dirHdr.image
  have hne : freeMapSector ≠ directorySector := by decide
  have hmapImage : Image.AgreeTo sectorSize (disk₂.header freeMapSector).image mapHdr.image := by
    show Image.AgreeTo sectorSize (disk₁.written directorySector dirHdr.image freeMapSector) _
    rw [Disk.written_of_ne _ hne]
    exact Disk.written_agreeTo disk freeMapSector mapHdr.image
  have hdirImage : Image.AgreeTo sectorSize (disk₂.header directorySector).image dirHdr.image :=
    Disk.written_agreeTo disk₁ directorySector dirHdr.image
  obtain ⟨disk₃, disk₄, hw₃, hw₄, hfl⟩ := flush_map_first (hform.metadata hmapImage hdirImage)
    hform.numBits (Directory.new_tableSize (fresh 1) numDirEntries) disk₂ (fresh 4) (fresh 5)
  have hwrite₁ : mapHdr.writeBack disk freeMapSector = some disk₁ :=
    Disk.writeSector_eq disk mapHdr.image (by decide)
  have hwrite₂ : dirHdr.writeBack disk₁ directorySector = some disk₂ :=
    Disk.writeSector_eq disk₁ dirHdr.image (by decide)
  have hup := hform.updated hmapImage hdirImage hfl
  have hfile : (opened disk₂).directoryFile.hdr = disk₂.header directorySector := rfl
  refine ⟨opened disk₂, disk₄, ?_, hform.inv hmapImage hdirImage hup,
    fun name size hsize => hform.canCreate hup name hsize,
    table_of_content hfile hup.dirHeader hfl.table⟩
  simp only [new, if_true, hnew, Option.bind_eq_bind, Option.bind_some, hmark₀, hmark₁, hmap, hdir,
    hwrite₁, hwrite₂, openFiles_eq, hw₃, hw₄]

theorem new_format (disk : Disk) (fresh : Nat → Image) :
    ∃ fs disk', new disk fresh true = some (fs, disk') ∧ fs.Inv disk' ∧
      ∀ name size, size ≤ 1018 * sectorSize → disk'.CanCreate name size := by
  obtain ⟨fs, disk', hnew, hinv, hcan, -⟩ := new_format_table disk fresh
  exact ⟨fs, disk', hnew, hinv, hcan⟩

end Format

end FileSystem
end Nachos

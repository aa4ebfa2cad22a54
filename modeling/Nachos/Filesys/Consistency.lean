import Nachos.Filesys.Operations

/-!
# Consistency of the file system

After every call of a run from a formatted disk the free map is exact: no sector is leaked and
none is given to two files.
-/

namespace Nachos

open Framework

/-! ## Whole runs -/

def Handle.Current (h : Handle) (disk : Disk) : Prop :=
  ∃ s, disk.headerSector (.entry h.entry) = some s ∧ h.file.hdr = disk.header s

theorem Handle.Current.kept {h : Handle} {disk disk' : Disk} (hc : h.Current disk)
    (hsame : disk'.headerSector (.entry h.entry) = disk.headerSector (.entry h.entry))
    (hkept : ∀ s, disk.headerSector (.entry h.entry) = some s → disk' s = disk s) :
    h.Current disk' := by
  obtain ⟨s, hs, hhdr⟩ := hc
  refine ⟨s, hsame.trans hs, ?_⟩
  rw [hhdr, Disk.header, Disk.header, hkept s hs]

namespace Session

/-- The file system is in order and every live handle is current. -/
structure Inv (s : Session) : Prop where
  fs : s.fs.Inv s.disk
  handles : ∀ h ∈ s.handles, h.removed = false → h.Current s.disk

variable {s s' : Session}

/-- `Create` of any size overruns the header of the file or keeps the invariant. -/
theorem Inv.create_cases (h : s.Inv) (fresh : Nat → Image) (name : Image) {size : Int}
    (hsize : -2 ^ 31 ≤ size) :
    (maxFileSize < size ∧ s.exec fresh (.create name size) = none) ∨
      ∃ s', s.exec fresh (.create name size) = some s' ∧ s'.Inv := by
  rcases h.fs.create_spec fresh name hsize with
    ⟨-, hfail⟩ | ⟨-, hlong, hnone⟩ | ⟨-, -, i, t, hdr, disk', hok, -, hc⟩
  · exact .inr ⟨s, by simp only [exec, hfail, Option.bind_eq_bind, Option.bind_some], h⟩
  · exact .inl ⟨hlong, by simp only [exec, hnone, Option.bind_eq_bind, Option.bind_none]⟩
  · refine .inr ⟨{ s with disk := disk' }, ?_, hc.inv h.fs, ?_⟩
    · simp only [exec, hok, Option.bind_eq_bind, Option.bind_some]
    · intro hd hmem hlive
      have hcur := h.handles hd hmem hlive
      obtain ⟨m, hm, -⟩ := id hcur
      -- the new entry was free, so it is not the entry of an open file
      have hne : FileRef.entry hd.entry ≠ .entry i := by
        intro he
        rw [he] at hm
        have huse := (Disk.headerSector_entry_eq_some hm).2.1
        rw [hc.entry_free] at huse
        cases huse
      exact hcur.kept (hc.headerSector_of_ne hne) fun t ht => hc.header_kept h.fs ht

theorem Inv.create (h : s.Inv) (fresh : Nat → Image) (name : Image) {size : Int}
    (hsize : 0 ≤ size ∧ size ≤ maxFileSize) :
    ∃ s', s.exec fresh (.create name size) = some s' ∧ s'.Inv := by
  have hlow : -2 ^ 31 ≤ size := by omega
  rcases h.create_cases fresh name hlow with ⟨hlong, -⟩ | hok
  · omega
  · exact hok

theorem Inv.openFile_cases (h : s.Inv) (fresh : Nat → Image) (name : Image) :
    (s.disk.directory.findIndex name = -1 ∧ s.exec fresh (.openFile name) = some s) ∨
      ∃ i t : Nat, s.disk.directory.findIndex name = i ∧
        s.disk.headerSector (.entry i) = some t ∧
        s.exec fresh (.openFile name) = some { s with handles := s.handles ++
          [⟨{ hdr := s.disk.header t, seekPosition := 0 }, i, false⟩] } := by
  rcases h.fs.openFile_spec fresh name with ⟨hidx, hopen⟩ | ⟨i, t, hidx, ht, hopen⟩
  · refine .inl ⟨hidx, ?_⟩
    simp only [exec, hopen, Option.bind_eq_bind, Option.bind_some]
  · refine .inr ⟨i, t, hidx, ht, ?_⟩
    have hentry : s.entryOf name = i := by
      rw [entryOf, hidx, Int.toNat_natCast]
    simp only [exec, hopen, Option.bind_eq_bind, Option.bind_some, hentry]

theorem Inv.openFile (h : s.Inv) (fresh : Nat → Image) (name : Image) :
    ∃ s', s.exec fresh (.openFile name) = some s' ∧ s'.Inv := by
  rcases h.openFile_cases fresh name with ⟨-, hexec⟩ | ⟨i, t, -, ht, hexec⟩
  · exact ⟨s, hexec, h⟩
  · refine ⟨_, hexec, h.fs, ?_⟩
    intro hd hmem hlive
    rcases List.mem_append.mp hmem with hmem | hmem
    · exact h.handles hd hmem hlive
    · obtain rfl := List.mem_singleton.mp hmem
      exact ⟨t, ht, rfl⟩

theorem Inv.remove (h : s.Inv) (fresh : Nat → Image) (name : Image) :
    ∃ s', s.exec fresh (.remove name) = some s' ∧ s'.Inv := by
  rcases h.fs.remove_spec fresh name with ⟨-, hfail⟩ | ⟨i, t, disk', hok, hidx, hr⟩
  · refine ⟨s, ?_, h⟩
    simp only [exec, hfail, Option.bind_eq_bind, Option.bind_some, Bool.false_eq_true, if_false]
  · have hentry : s.entryOf name = i := by
      rw [entryOf, hidx, Int.toNat_natCast]
    refine ⟨{ s with
              disk := disk',
              handles := s.handles.map fun h =>
                if h.entry = i then { h with removed := true } else h }, ?_, hr.inv h.fs, ?_⟩
    · simp only [exec, hok, Option.bind_eq_bind, Option.bind_some, if_true, hentry]
    · intro hd hmem hlive
      obtain ⟨hd₀, hmem₀, rfl⟩ := List.mem_map.mp hmem
      by_cases he : hd₀.entry = i
      · rw [if_pos he] at hlive
        cases hlive
      · rw [if_neg he] at hlive ⊢
        have hne : FileRef.entry hd₀.entry ≠ .entry i := fun heq => he (FileRef.entry.inj heq)
        exact (h.handles hd₀ hmem₀ hlive).kept (hr.headerSector_of_ne hne)
          fun t ht => hr.header_kept h.fs ht

private theorem Inv.live (h : s.Inv) {k : Nat} (hlive : s.Live k) :
    ∃ hd i n, s.handles[k]? = some hd ∧ s.disk.headerSector (.entry i) = some n ∧
      hd.file.hdr = s.disk.header n ∧ hd.file.hdr.WellFormed := by
  obtain ⟨hd, hk, hrem⟩ := hlive
  obtain ⟨n, hn, hhdr⟩ := h.handles hd (List.mem_of_getElem? hk) hrem
  refine ⟨hd, hd.entry, n, hk, hn, hhdr, ?_⟩
  rw [hhdr]
  exact h.fs.wellFormed _ n hn

theorem Inv.readAt (h : s.Inv) (fresh : Nat → Image) {k : Nat} (hlive : s.Live k) (into : Image)
    {numBytes position : Int} (hpos : 0 ≤ position) (hfit : position + numBytes < 2 ^ 31) :
    ∃ s', s.exec fresh (.readAt k into numBytes position) = some s' ∧ s'.Inv := by
  obtain ⟨hd, i, n, hk, -, -, hw⟩ := h.live hlive
  refine ⟨s, ?_, h⟩
  have hread : ∃ r, hd.file.readAt s.disk into 0 numBytes position = some r := by
    rcases Int.lt_or_le 0 numBytes with hnum | hnum
    · obtain ⟨m, rfl⟩ := Int.eq_ofNat_of_zero_le hnum.le
      obtain ⟨p, rfl⟩ := Int.eq_ofNat_of_zero_le hpos
      exact ⟨_, OpenFile.readAt_eq hw s.disk into 0 m p (by omega)⟩
    · exact ⟨(0, into), if_pos (.inl hnum)⟩
  obtain ⟨r, hr⟩ := hread
  simp only [exec, hk, Option.bind_eq_bind, Option.bind_some, hr]

theorem Inv.writeAt (h : s.Inv) (fresh : Nat → Image) {k : Nat} (hlive : s.Live k)
    (source : Image) {numBytes position : Int} (hpos : 0 ≤ position)
    (hfit : position + numBytes < 2 ^ 31) :
    ∃ s', s.exec fresh (.writeAt k source numBytes position) = some s' ∧ s'.Inv := by
  obtain ⟨hd, i, n, hk, hn, hhdr, hw⟩ := h.live hlive
  rcases Int.lt_or_le 0 numBytes with hnum | hnum
  · obtain ⟨m, rfl⟩ := Int.eq_ofNat_of_zero_le hnum.le
    obtain ⟨p, rfl⟩ := Int.eq_ofNat_of_zero_le hpos
    obtain ⟨disk', hwrite, hwritten⟩ :=
      OpenFile.writeAt_spec hw s.disk (fresh 0) source m p (by omega)
    have hframe : ∀ t ∉ (s.disk.header n).sectors, disk' t = s.disk t := by
      rw [← hhdr]
      exact hwritten.frame
    obtain ⟨hinv, hheader, hkept⟩ := h.fs.stored hn hframe
    refine ⟨{ s with disk := disk' }, ?_, hinv, ?_⟩
    · simp only [exec, hk, Option.bind_eq_bind, Option.bind_some, hwrite]
    · intro hd' hmem hrem
      exact (h.handles hd' hmem hrem).kept (hheader _) (hkept _)
  · have hwrite : hd.file.writeAt s.disk (fresh 0) source numBytes position = some (0, s.disk) :=
      if_pos (.inl hnum)
    refine ⟨s, ?_, h⟩
    simp only [exec, hk, Option.bind_eq_bind, Option.bind_some, hwrite]

theorem Inv.exec (h : s.Inv) (fresh : Nat → Image) {call : Call} (hallowed : s.Allowed call) :
    ∃ s', s.exec fresh call = some s' ∧ s'.Inv := by
  cases call with
  | create name size => exact h.create fresh name hallowed
  | openFile name => exact h.openFile fresh name
  | remove name => exact h.remove fresh name
  | readAt k into numBytes position =>
    exact h.readAt fresh hallowed.1 into hallowed.2.1 hallowed.2.2
  | writeAt k source numBytes position =>
    exact h.writeAt fresh hallowed.1 source hallowed.2.1 hallowed.2.2

theorem inv_inductive : system.Inductive Inv where
  init := by
    rintro s ⟨hnil, disk, fresh, hnew⟩
    obtain ⟨fs, disk', hnew', hinv, -⟩ := FileSystem.new_format disk fresh
    rw [hnew] at hnew'
    obtain ⟨hfs, hdisk⟩ := Prod.mk.inj (Option.some.inj hnew')
    refine ⟨by rwa [hfs, hdisk], ?_⟩
    intro hd hmem
    rw [hnil] at hmem
    cases hmem
  step := by
    rintro s ⟨call, fresh⟩ s' h ⟨hallowed, hexec⟩
    obtain ⟨s₁, hexec₁, hinv⟩ := h.exec fresh hallowed
    obtain rfl := Option.some.inj (hexec.symm.trans hexec₁)
    exact hinv

end Session

/-- In every state of a run from a formatted disk no sector is leaked or allocated twice, the
free map on the disk is exact, and no ASSERT fails in the next call. Formatting itself never
fails. -/
theorem file_system_consistent :
    (∀ disk fresh, (FileSystem.new disk fresh true).isSome) ∧
      ∀ s, Session.system.Reachable s →
        s.disk.Consistent ∧ ∀ call fresh, s.Allowed call → (s.exec fresh call).isSome := by
  constructor
  · intro disk fresh
    obtain ⟨fs, disk', hnew, -⟩ := FileSystem.new_format disk fresh
    rw [hnew]
    rfl
  · intro s hs
    have hinv := Session.inv_inductive.of_reachable hs
    refine ⟨Disk.consistent_of_allocation hinv.fs.alloc, ?_⟩
    intro call fresh hallowed
    obtain ⟨s', hexec, -⟩ := hinv.exec fresh hallowed
    rw [hexec]
    rfl

/-- A disk of zeros is formatted and a file of 200 bytes is created on it. -/
theorem file_system_consistent_create :
    ∃ s i n, Session.system.Reachable s ∧ s.disk.headerSector (.entry i) = some n ∧
      (s.disk.header n).length = 200 ∧ s.disk.Consistent := by
  obtain ⟨fs, disk, hnew, hinv, hcan⟩ :=
    FileSystem.new_format (fun _ _ => 0) (fun _ _ => 0)
  have hstart : Session.system.Reachable ⟨disk, fs, []⟩ := .init ⟨rfl, _, _, hnew⟩
  have hsize : 200 ≤ 1018 * sectorSize := by decide
  obtain ⟨i, n, hdr, disk', hok, hsized, hc⟩ := hinv.create_ok (fun _ _ => 0)
    (show -2 ^ 31 ≤ (200 : Int) by decide) (by decide)
    (hcan (fun j => if j = 0 then 97 else 0) _ hsize)
  have hstep : Session.system.Reachable ⟨disk', fs, []⟩ := by
    apply hstart.step (l := (.create (fun j => if j = 0 then 97 else 0) 200, fun _ _ => 0))
    refine ⟨⟨by decide, by decide⟩, ?_⟩
    have hok' : fs.create disk (fun _ _ => 0) (fun j => if j = 0 then 97 else 0) 200 =
        some (true, disk') := hok
    simp only [Session.exec, hok', Option.bind_eq_bind, Option.bind_some]
  refine ⟨⟨disk', fs, []⟩, i, n, hstep, hc.headerSector_self, ?_, ?_⟩
  · exact (hc.wellFormed.congr hc.header).2.1.trans hsized.length
  · exact (file_system_consistent.2 _ hstep).1

end Nachos

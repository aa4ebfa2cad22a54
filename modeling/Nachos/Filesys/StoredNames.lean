import Nachos.Filesys.Operations
import Nachos.Filesys.NameMap

/-!
# The names that are listed

`Add` copies `FileNameMaxLen` characters into a field of one byte more and never stores a
terminator behind them. The last byte of the field keeps the value it had when the disk was
formatted, which is whatever the memory of the first table held.
-/

namespace Nachos

open Framework

/-! ## Printing -/

/-- The characters of a string from `i` on, `n` of them at most. -/
def charsFrom (s : Image) : Nat → Nat → List (BitVec 8)
  | 0, _ => []
  | n + 1, i => if s i = 0 then [] else s i :: charsFrom s n (i + 1)

def chars (s : Image) (n : Nat) : List (BitVec 8) := charsFrom s n 0

/-- What `%s` prints for an array of `n` bytes. `none` stands for a read behind its end. -/
def printed (s : Image) (n : Nat) : Option (List (BitVec 8)) :=
  if (List.range n).any fun k => s k == 0 then some (chars s n) else none

abbrev newline : BitVec 8 := 10

/-- `Directory::List`. -/
def Directory.list (d : Directory) : Option (List (BitVec 8)) := do
  let lines ← ((List.range d.tableSize).filter d.inUse).mapM fun i => do
    let line ← printed (d.name i) (fileNameMaxLen + 1)
    some (line ++ [newline])
  some lines.flatten

/-- `FileSystem::List`. -/
def FileSystem.list (fs : FileSystem) (disk : Disk) (fresh : Image) : Option (List (BitVec 8)) := do
  let directory ← (Directory.new fresh numDirEntries).fetchFrom fs.directoryFile disk
  directory.list

theorem charsFrom_end {s : Image} {i : Nat} (h : s i = 0) (n : Nat) : charsFrom s n i = [] := by
  cases n with
  | zero => rfl
  | succ n => exact if_pos h

theorem charsFrom_char {s : Image} {i : Nat} (h : s i ≠ 0) (n : Nat) :
    charsFrom s (n + 1) i = s i :: charsFrom s n (i + 1) := if_neg h

private theorem charsFrom_padded {s name : Image} (n i : Nat) (hi : ∀ k < i, name k ≠ 0)
    (h : ∀ k < n, s (i + k) = padded name (i + k)) :
    charsFrom s n i = charsFrom name n i := by
  induction n generalizing i with
  | zero => rfl
  | succ n ih =>
    have hcopy : s i = name i := by
      rw [← Directory.padded_eq hi]
      exact h 0 (Nat.succ_pos n)
    by_cases hend : name i = 0
    · rw [charsFrom_end hend, charsFrom_end (hcopy.trans hend)]
    · rw [charsFrom_char hend, charsFrom_char (hcopy ▸ hend), hcopy, ih (i + 1)]
      · intro k hk
        rcases Nat.lt_succ_iff_lt_or_eq.mp hk with hlt | rfl
        · exact hi k hlt
        · exact hend
      · intro k hk
        have hk' := h (k + 1) (by omega)
        rwa [show i + (k + 1) = i + 1 + k by omega] at hk'

private theorem charsFrom_succ {s : Image} (n i : Nat) (h : ∃ k ≤ n, s (i + k) = 0) :
    charsFrom s (n + 1) i = charsFrom s n i := by
  induction n generalizing i with
  | zero =>
    obtain ⟨k, hk, hend⟩ := h
    obtain rfl : k = 0 := by omega
    exact if_pos hend
  | succ n ih =>
    by_cases hend : s i = 0
    · rw [charsFrom_end hend, charsFrom_end hend]
    · rw [charsFrom_char hend, charsFrom_char hend, ih (i + 1)]
      obtain ⟨k, hk, hzero⟩ := h
      cases k with
      | zero => exact absurd hzero hend
      | succ k => exact ⟨k, by omega, by rwa [show i + 1 + k = i + (k + 1) by omega]⟩

private theorem printed_eq_some {s name : Image} (hend : ∃ k < fileNameMaxLen + 1, s k = 0)
    (h : ∀ k < fileNameMaxLen, s k = padded name k) :
    printed s (fileNameMaxLen + 1) = some (chars name fileNameMaxLen) := by
  obtain ⟨k, hk, hzero⟩ := hend
  have hany : ((List.range (fileNameMaxLen + 1)).any fun k => s k == 0) = true :=
    List.any_eq_true.mpr ⟨k, List.mem_range.mpr hk, by simp [hzero]⟩
  have hlast : charsFrom s (fileNameMaxLen + 1) 0 = charsFrom s fileNameMaxLen 0 := by
    apply charsFrom_succ
    exact ⟨k, Nat.lt_succ_iff.mp hk, by rwa [Nat.zero_add]⟩
  have hcopy : charsFrom s fileNameMaxLen 0 = charsFrom name fileNameMaxLen 0 := by
    apply charsFrom_padded
    · intro k hk
      omega
    · intro k hk
      rw [Nat.zero_add]
      exact h k hk
  rw [printed, hany, chars, hlast, hcopy]
  rfl

/-! ## Runs of `Create` and `Remove` -/

/-- A disk with the names its entries were last created with, which the program does not keep. -/
structure NamedDisk where
  disk : Disk
  fs : FileSystem
  names : Nat → Image

inductive NameCall
  | create (name : Image) (initialSize : BitVec 32)
  | remove (name : Image)

namespace NamedDisk

/-- One call. A successful `Create` takes the first free entry. -/
def exec (s : NamedDisk) (fresh : Nat → Image) : NameCall → Option NamedDisk
  | .create name initialSize => do
    let (success, disk) ← s.fs.create s.disk fresh name initialSize.toInt
    match success, s.disk.directory.firstFree with
    | true, some i => some { s with disk := disk, names := Function.update s.names i name }
    | _, _ => some { s with disk := disk }
  | .remove name => do
    let (_, disk) ← s.fs.remove s.disk fresh name
    some { s with disk := disk }

def system : System NamedDisk (NameCall × (Nat → Image)) where
  init s := ∃ disk fresh, FileSystem.new disk fresh true = some (s.fs, s.disk)
  step s l s' := s.exec l.2 l.1 = some s'

def Terminated (s : NamedDisk) : Prop :=
  ∀ i < numDirEntries, s.disk.directory.inUse i = true →
    ∃ k < fileNameMaxLen + 1, s.disk.directory.name i k = 0

/-- The name of a new file is shorter than the field for it, or the last byte of the entry it
gets is a terminator already. -/
def Ends (s : NamedDisk) : NameCall → Prop
  | .create name initialSize => s.disk.CanCreate name initialSize.toInt.toNat →
    (∃ k < fileNameMaxLen, name k = 0) ∨
      ∀ i, s.disk.directory.firstFree = some i → s.disk.directory.name i fileNameMaxLen = 0
  | .remove _ => True

/-- What holds of every run: the entries in use have the characters of their names. -/
structure Stored (s : NamedDisk) : Prop where
  fs : s.fs.Inv s.disk
  name : ∀ i < numDirEntries, s.disk.directory.inUse i = true →
    ∀ k < fileNameMaxLen, s.disk.directory.name i k = padded (s.names i) k

variable {s s' : NamedDisk}

private theorem exec_cases (h : s.fs.Inv s.disk) {fresh : Nat → Image} {c : NameCall}
    (hexec : s.exec fresh c = some s') :
    (s' = s ∧ s.Ends c) ∨
      (∃ name initialSize i t hdr, c = .create name initialSize ∧
        s.disk.CanCreate name initialSize.toInt.toNat ∧
        s.fs.Created s.disk s'.disk name i t hdr ∧
        FileSystem.Inv.NameStored s.disk s'.disk name i ∧
        s'.fs = s.fs ∧ s'.names = Function.update s.names i name) ∨
      ∃ name i t, c = .remove name ∧ s.fs.Removed s.disk s'.disk i t ∧
        (∀ j < numDirEntries, ∀ k < 10,
          s'.disk.directory.name j k = s.disk.directory.name j k) ∧
        s'.fs = s.fs ∧ s'.names = s.names := by
  cases c with
  | create name initialSize =>
    have hlow : -2 ^ 31 ≤ initialSize.toInt := BitVec.le_toInt initialSize
    rcases h.create_cases fresh name hlow with
      ⟨hno, hfail⟩ | ⟨-, -, hover⟩ | ⟨hcan, -, i, t, hdr, disk', hok, -, hc, hname⟩
    · rw [exec, hfail] at hexec
      refine .inl ⟨(Option.some.inj hexec).symm, fun hcan => absurd hcan hno⟩
    · rw [exec, hover] at hexec
      cases hexec
    · simp only [exec, hok, Option.bind_eq_bind, Option.bind_some, hname.first] at hexec
      obtain rfl := Option.some.inj hexec
      exact .inr (.inl ⟨name, initialSize, i, t, hdr, rfl, hcan, hc, hname, rfl, rfl⟩)
  | remove name =>
    rcases h.remove_cases fresh name with ⟨-, hfail⟩ | ⟨i, t, disk', hok, -, hr, hname⟩
    · rw [exec, hfail] at hexec
      exact .inl ⟨(Option.some.inj hexec).symm, trivial⟩
    · rw [exec, hok] at hexec
      obtain rfl := Option.some.inj hexec
      exact .inr (.inr ⟨name, i, t, rfl, hr, hname, rfl, rfl⟩)

theorem Stored.exec (h : s.Stored) {fresh : Nat → Image} {c : NameCall}
    (hexec : s.exec fresh c = some s') : s'.Stored := by
  rcases exec_cases h.fs hexec with
    ⟨rfl, -⟩ | ⟨name, initialSize, i, t, hdr, -, -, hc, hname, hfs, hnames⟩ |
      ⟨name, i, t, -, hr, hname, hfs, hnames⟩
  · exact h
  · constructor
    case fs =>
      rw [hfs]
      exact hc.inv h.fs
    case name =>
      intro j hj huse k hk
      rw [hname.name_eq j hj k (Nat.lt_succ_of_lt hk), hnames]
      by_cases hji : j = i
      · rw [if_pos ⟨hji, hk⟩, hji, Function.update_self]
      · rw [hc.inUse j hj, decide_eq_false hji, Bool.or_false] at huse
        rw [if_neg fun hin => hji hin.1, Function.update_of_ne hji]
        exact h.name j hj huse k hk
  · constructor
    case fs =>
      rw [hfs]
      exact hr.inv h.fs
    case name =>
      intro j hj huse k hk
      rw [hr.inUse j hj, Bool.and_eq_true] at huse
      rw [hname j hj k (Nat.lt_succ_of_lt hk), hnames]
      exact h.name j hj huse.1 k hk

theorem format_inUse {disk disk' : Disk} {fs : FileSystem} {fresh : Nat → Image}
    (hnew : FileSystem.new disk fresh true = some (fs, disk')) :
    fs.Inv disk' ∧ ∀ i < numDirEntries, disk'.directory.inUse i = false := by
  obtain ⟨fs₁, disk₁, hformat, hinv, -, htable⟩ := FileSystem.new_format_table disk fresh
  obtain ⟨rfl, rfl⟩ := Prod.mk.inj (Option.some.inj (hformat.symm.trans hnew))
  refine ⟨hinv, ?_⟩
  intro i hi
  rw [(Directory.congr (n := numDirEntries) htable hi).1]
  exact Directory.new_inUse (fresh 1) hi

theorem stored_inductive : system.Inductive Stored where
  init := by
    rintro s ⟨disk, fresh, hnew⟩
    obtain ⟨hinv, hunused⟩ := format_inUse hnew
    refine ⟨hinv, ?_⟩
    intro i hi huse
    rw [hunused i hi] at huse
    cases huse
  step s l s' h hstep := h.exec hstep

private theorem terminated_created_iff (hend : s.Terminated) {name : Image} {i t : Nat}
    {hdr : FileHeader} (hc : s.fs.Created s.disk s'.disk name i t hdr)
    (hname : FileSystem.Inv.NameStored s.disk s'.disk name i) :
    s'.Terminated ↔
      (∃ k < fileNameMaxLen, name k = 0) ∨ s.disk.directory.name i fileNameMaxLen = 0 := by
  have hfield : ∀ k < fileNameMaxLen, s'.disk.directory.name i k = padded name k := by
    intro k hk
    rw [hname.name_eq i hc.entry_lt k (Nat.lt_succ_of_lt hk), if_pos ⟨rfl, hk⟩]
  have hlast : s'.disk.directory.name i fileNameMaxLen =
      s.disk.directory.name i fileNameMaxLen := by
    rw [hname.name_eq i hc.entry_lt _ (Nat.lt_succ_self _), if_neg fun h => Nat.lt_irrefl _ h.2]
  constructor
  · intro hterm
    have huse : s'.disk.directory.inUse i = true := by
      rw [hc.inUse i hc.entry_lt, decide_eq_true rfl, Bool.or_true]
    obtain ⟨k, hk, hzero⟩ := hterm i hc.entry_lt huse
    rcases Nat.lt_succ_iff_lt_or_eq.mp hk with hlt | rfl
    · -- the first zero of the copy is one of the name
      by_contra hnone
      have hchars : ∀ k < fileNameMaxLen, name k ≠ 0 := fun k hk hz => hnone (.inl ⟨k, hk, hz⟩)
      rw [hfield k hlt, Directory.padded_eq fun j hj => hchars j (hj.trans hlt)] at hzero
      exact hchars k hlt hzero
    · exact .inr (hlast.symm.trans hzero)
  · intro hcond j hj huse
    by_cases hji : j = i
    · rw [hji]
      rcases hcond with ⟨k, hk, hzero⟩ | hzero
      · exact ⟨k, Nat.lt_succ_of_lt hk, (hfield k hk).trans (Directory.padded_eq_zero le_rfl hzero)⟩
      · exact ⟨fileNameMaxLen, Nat.lt_succ_self _, hlast.trans hzero⟩
    · rw [hc.inUse j hj, decide_eq_false hji, Bool.or_false] at huse
      obtain ⟨k, hk, hzero⟩ := hend j hj huse
      refine ⟨k, hk, ?_⟩
      rw [hname.name_eq j hj k hk, if_neg fun hin => hji hin.1, hzero]

private theorem terminated_exec_iff (h : s.Stored) (hend : s.Terminated) {fresh : Nat → Image}
    {c : NameCall} (hexec : s.exec fresh c = some s') : s'.Terminated ↔ s.Ends c := by
  rcases exec_cases h.fs hexec with
    ⟨rfl, hends⟩ | ⟨name, initialSize, i, t, hdr, rfl, hcan, hc, hname, -, -⟩ |
      ⟨name, i, t, rfl, hr, hname, -, -⟩
  · exact ⟨fun _ => hends, fun _ => hend⟩
  · rw [terminated_created_iff hend hc hname]
    constructor
    · rintro hcond -
      apply hcond.imp_right
      intro hzero j hj
      rwa [← Option.some.inj (hname.first.symm.trans hj)]
    · intro hends
      exact (hends hcan).imp_right fun hzero => hzero i hname.first
  · refine ⟨fun _ => trivial, ?_⟩
    intro _ j hj huse
    rw [hr.inUse j hj, Bool.and_eq_true] at huse
    obtain ⟨k, hk, hzero⟩ := hend j hj huse.1
    exact ⟨k, hk, (hname j hj k hk).trans hzero⟩

theorem terminated_inductive : (system.restrict fun s l => s.Ends l.1).Inductive
    fun s => s.Stored ∧ s.Terminated where
  init := by
    intro s hinit
    refine ⟨stored_inductive.init s hinit, ?_⟩
    obtain ⟨disk, fresh, hnew⟩ := hinit
    intro i hi huse
    rw [(format_inUse hnew).2 i hi] at huse
    cases huse
  step := by
    rintro s l s' ⟨h, hend⟩ ⟨hends, hexec⟩
    exact ⟨h.exec hexec, (terminated_exec_iff h hend hexec).mpr hends⟩

private theorem mapM_eq_map {α β : Type*} {f : α → Option β} {g : α → β} {l : List α}
    (h : ∀ a ∈ l, f a = some (g a)) : l.mapM f = some (l.map g) := by
  induction l with
  | nil => rfl
  | cons a l ih =>
    have htail := ih fun b hb => h b (List.mem_cons_of_mem a hb)
    simp only [List.mapM_cons, h a List.mem_cons_self, htail, Option.bind_eq_bind,
      Option.bind_some, Option.pure_def, List.map_cons]

private theorem Stored.list_eq (h : s.Stored) (hend : s.Terminated) (fresh : Image) :
    s.fs.list s.disk fresh = some (((List.range numDirEntries).filter s.disk.directory.inUse).flatMap
      fun i => chars (s.names i) fileNameMaxLen ++ [newline]) := by
  obtain ⟨directory, hfetch, hsize, hag⟩ := h.fs.fetch_directory fresh
  have hsame : ∀ i < numDirEntries, directory.inUse i = s.disk.directory.inUse i :=
    fun i hi => (Directory.congr hag hi).1
  have huse : (List.range numDirEntries).filter directory.inUse =
      (List.range numDirEntries).filter s.disk.directory.inUse := by
    apply List.filter_congr
    intro i hi
    exact hsame i (List.mem_range.mp hi)
  have hlines : ∀ i ∈ (List.range numDirEntries).filter s.disk.directory.inUse,
      (printed (directory.name i) (fileNameMaxLen + 1)).bind (fun line => some (line ++ [newline])) =
        some (chars (s.names i) fileNameMaxLen ++ [newline]) := by
    intro i hi
    obtain ⟨hi, hin⟩ := List.mem_filter.mp hi
    have hlt := List.mem_range.mp hi
    have hname := (Directory.congr hag hlt).2.2
    have hprint : printed (directory.name i) (fileNameMaxLen + 1) =
        some (chars (s.names i) fileNameMaxLen) := by
      apply printed_eq_some
      · obtain ⟨k, hk, hzero⟩ := hend i hlt hin
        exact ⟨k, hk, (hname k hk).trans hzero⟩
      · intro k hk
        rw [hname k (Nat.lt_succ_of_lt hk)]
        exact h.name i hlt hin k hk
    rw [hprint, Option.bind_some]
  simp only [FileSystem.list, hfetch, Option.bind_eq_bind, Option.bind_some, Directory.list, hsize,
    huse]
  rw [mapM_eq_map hlines, Option.bind_some, List.flatMap_def]

theorem names_terminated {s : NamedDisk}
    (hr : (system.restrict fun s l => s.Ends l.1).Reachable s) :
    (∀ i < numDirEntries, s.disk.directory.inUse i = true →
      ∃ k < fileNameMaxLen + 1, s.disk.directory.name i k = 0) ∧
    (∀ fresh, s.fs.list s.disk fresh =
      some (((List.range numDirEntries).filter s.disk.directory.inUse).flatMap
        fun i => chars (s.names i) fileNameMaxLen ++ [newline])) ∧
    ∀ l s', system.step s l s' → (s'.Terminated ↔ s.Ends l.1) := by
  obtain ⟨hstored, hend⟩ := terminated_inductive.of_reachable hr
  exact ⟨hend, hstored.list_eq hend, fun l s' hstep => terminated_exec_iff hstored hend hstep⟩

private theorem create_first (fresh name : Image) : ∃ s s', system.init s ∧ s.Stored ∧
    s.Terminated ∧ s.disk.CanCreate name 0 ∧
    (∀ i < numDirEntries, s.disk.directory.name i fileNameMaxLen =
      fresh (entrySize * i + 8 + fileNameMaxLen)) ∧
    s.exec (fun _ _ => 0) (.create name 0) = some s' ∧
    ∃ i < numDirEntries, s'.disk.directory.inUse i = true := by
  obtain ⟨fs, disk, hnew, hinv, hcan, htable⟩ :=
    FileSystem.new_format_table (fun _ _ => 0) fun _ => fresh
  have hroom : disk.CanCreate name 0 := hcan name 0 (Nat.zero_le _)
  obtain ⟨i, t, hdr, disk', hok, -, hc⟩ := hinv.create_ok (fun _ _ => 0)
    (show -2 ^ 31 ≤ (0 : Int) by decide) (by decide) hroom
  let s : NamedDisk := { disk := disk, fs := fs, names := fun _ _ => 0 }
  have hinit : system.init s := ⟨_, _, hnew⟩
  obtain ⟨hstored, hend⟩ := terminated_inductive.init s hinit
  have huse : disk'.directory.inUse i = true := by
    rw [hc.inUse i hc.entry_lt, decide_eq_true rfl, Bool.or_true]
  have hexec : ∃ s', s.exec (fun _ _ => 0) (.create name 0) = some s' ∧ s'.disk = disk' := by
    have hok' : s.fs.create s.disk (fun _ _ => 0) name (0 : BitVec 32).toInt = some (true, disk') := hok
    simp only [exec, hok', Option.bind_eq_bind, Option.bind_some]
    cases s.disk.directory.firstFree with
    | none => exact ⟨_, rfl, rfl⟩
    | some j => exact ⟨_, rfl, rfl⟩
  obtain ⟨s', hexec, hdisk⟩ := hexec
  refine ⟨s, s', hinit, hstored, hend, hroom, ?_, hexec, i, hc.entry_lt, by rw [hdisk, huse]⟩
  intro j hj
  rw [(Directory.congr (n := numDirEntries) htable hj).2.2 _ (by decide),
    Directory.new_name _ _ _ (by decide)]

theorem names_terminated_short : ∃ s, (system.restrict fun s l => s.Ends l.1).Reachable s ∧
    ∃ i < numDirEntries, s.disk.directory.inUse i = true ∧
      ∃ k < fileNameMaxLen + 1, s.disk.directory.name i k = 0 := by
  obtain ⟨s, s', hinit, -, -, -, -, hexec, i, hi, huse⟩ :=
    create_first (fun _ => 255) (Directory.repeated 8)
  have hends : s.Ends (.create (Directory.repeated 8) 0) := fun _ => .inl ⟨8, by decide, by decide⟩
  have hr : (system.restrict fun s l => s.Ends l.1).Reachable s' :=
    .step (.init hinit) (l := (.create (Directory.repeated 8) 0, fun _ _ => 0)) ⟨hends, hexec⟩
  exact ⟨s', hr, i, hi, huse, (names_terminated hr).1 i hi huse⟩

/-- A name of `FileNameMaxLen` characters in memory that held no zeros. -/
theorem names_unterminated : ∃ s, system.Reachable s ∧ ¬ s.Terminated := by
  obtain ⟨s, s', hinit, hstored, hend, hcan, hlast, hexec, -⟩ :=
    create_first (fun _ => 255) (Directory.repeated 9)
  have hr : system.Reachable s' :=
    .step (.init hinit) (l := (.create (Directory.repeated 9) 0, fun _ _ => 0)) hexec
  refine ⟨s', hr, ?_⟩
  rw [terminated_exec_iff hstored hend hexec]
  intro hends
  rcases hends hcan with ⟨k, hk, hzero⟩ | hzero
  · have hchars : ∀ k < fileNameMaxLen, Directory.repeated 9 k ≠ 0 := by decide
    exact hchars k hk hzero
  · obtain ⟨i, hi, hfree⟩ := hcan.entry
    cases hfirst : s.disk.directory.firstFree with
    | none =>
      have hused := List.find?_eq_none.mp hfirst i (List.mem_range.mpr hi)
      rw [hfree] at hused
      exact hused rfl
    | some j =>
      have hj : j < numDirEntries := List.mem_range.mp (List.mem_of_find?_eq_some hfirst)
      have h255 := (hlast j hj).symm.trans (hzero j hfirst)
      exact absurd h255 (by decide)

end NamedDisk
end Nachos

import Nachos.Filesys.OpenFile
import Mathlib.Data.List.Find

/-!
# Directories

A directory is a table of fixed-size entries that is kept in a file as its bytes. An entry has
the flag `inUse` at byte 0, the sector of the file header at byte 4 and the name at byte 8.
-/

namespace Nachos

open Framework

abbrev fileNameMaxLen : Nat := 9

/-- `sizeof(DirectoryEntry)`. -/
abbrev entrySize : Nat := 20

/-- `strncmp` of the characters from `i` on, `n` of them at most. -/
def strncmpFrom (s t : Image) : Nat → Nat → Int
  | 0, _ => 0
  | n + 1, i =>
    if s i ≠ t i then (s i).toNat - (t i).toNat
    else if s i = 0 then 0
    else strncmpFrom s t n (i + 1)

def strncmp (s t : Image) (n : Nat) : Int := strncmpFrom s t n 0

/-- The characters `strncpy` stores: past the end of the name it stores zeros. -/
def padded (s : Image) : Image :=
  fun j => if (List.range j).any fun k => s k == 0 then 0 else s j

structure Directory where
  tableSize : Nat
  table : Image

namespace Directory

def inUse (d : Directory) (i : Nat) : Bool := d.table (entrySize * i) != 0

def sector (d : Directory) (i : Nat) : BitVec 32 := d.table.word (5 * i + 1)

def name (d : Directory) (i : Nat) : Image := fun j => d.table (entrySize * i + 8 + j)

/-- `Directory::Directory` in memory with contents `fresh`. -/
def new (fresh : Image) (size : Nat) : Directory :=
  { tableSize := size,
    table := (List.range size).foldl (fun t i => t.setByte (entrySize * i) 0) fresh }

/-- `Directory::FetchFrom`. -/
def fetchFrom (d : Directory) (file : OpenFile) (disk : Disk) : Option Directory := do
  let (_, table) ← file.readAt disk d.table 0 ((d.tableSize * entrySize : Nat) : Int) 0
  some { d with table := table }

/-- `Directory::WriteBack`. -/
def writeBack (d : Directory) (file : OpenFile) (disk : Disk) (fresh : Image) : Option Disk := do
  let (_, disk) ← file.writeAt disk fresh d.table ((d.tableSize * entrySize : Nat) : Int) 0
  some disk

/-- The entry is in use for a name that agrees on the compared characters. -/
def matchesName (d : Directory) (name : Image) (i : Nat) : Bool :=
  d.inUse i && strncmp (d.name i) name fileNameMaxLen == 0

/-- `Directory::FindIndex`. -/
def findIndex (d : Directory) (name : Image) : Int :=
  match (List.range d.tableSize).find? (d.matchesName name) with
  | some i => i
  | none => -1

/-- `Directory::Find`. -/
def find (d : Directory) (name : Image) : Int :=
  let i := d.findIndex name
  if i ≠ -1 then (d.sector i.toNat).toInt else -1

/-- The stores of `Add` into a free entry. -/
def added (d : Directory) (i : Nat) (name : Image) (newSector : Int) : Directory :=
  { d with table := ((d.table.setByte (entrySize * i) 1).blit (entrySize * i + 8) (padded name)
             fileNameMaxLen).setWord (5 * i + 1) (BitVec.ofInt 32 newSector) }

/-- `Directory::Add`. -/
def add (d : Directory) (name : Image) (newSector : Int) : Bool × Directory :=
  if d.findIndex name ≠ -1 then (false, d)
  else
    match (List.range d.tableSize).find? fun i => !d.inUse i with
    | some i => (true, d.added i name newSector)
    | none => (false, d)

/-- The store of `Remove` into the entry of the name. -/
def removed (d : Directory) (i : Nat) : Directory :=
  { d with table := d.table.setByte (entrySize * i) 0 }

/-- `Directory::Remove`. -/
def remove (d : Directory) (name : Image) : Bool × Directory :=
  let i := d.findIndex name
  if i = -1 then (false, d) else (true, d.removed i.toNat)

/-! ## Entries -/

@[simp] theorem new_tableSize (fresh : Image) (size : Nat) : (new fresh size).tableSize = size := rfl

theorem new_inUse (fresh : Image) {size i : Nat} (hi : i < size) :
    (new fresh size).inUse i = false := by
  have hloop : ∀ n, i < n → (List.range n).foldl
      (fun t i => t.setByte (entrySize * i) 0) fresh (entrySize * i) = 0 := by
    intro n hn
    induction n with
    | zero => omega
    | succ n ih =>
      rw [List.range_succ, List.foldl_append, List.foldl_cons, List.foldl_nil]
      by_cases hin : i = n
      · rw [hin, Image.setByte_self]
      · have hne : entrySize * i ≠ entrySize * n := by
          simp only [entrySize]
          omega
        rw [Image.setByte_of_ne _ hne]
        exact ih (by omega)
  simp only [inUse, new, hloop size hi]
  rfl

theorem new_name (fresh : Image) (size i : Nat) {k : Nat} (hk : k < 10) :
    (new fresh size).name i k = fresh (entrySize * i + 8 + k) := by
  have hloop : ∀ n, (List.range n).foldl (fun t i => t.setByte (entrySize * i) 0) fresh
      (entrySize * i + 8 + k) = fresh (entrySize * i + 8 + k) := by
    intro n
    induction n with
    | zero => rfl
    | succ n ih =>
      have hne : entrySize * i + 8 + k ≠ entrySize * n := by
        simp only [entrySize]
        omega
      rw [List.range_succ, List.foldl_append, List.foldl_cons, List.foldl_nil,
        Image.setByte_of_ne _ hne, ih]
  exact hloop size

theorem congr {d d' : Directory} {n : Nat} (h : Image.AgreeTo (n * entrySize) d.table d'.table)
    {i : Nat} (hi : i < n) :
    d.inUse i = d'.inUse i ∧ d.sector i = d'.sector i ∧ ∀ j < 10, d.name i j = d'.name i j := by
  simp only [entrySize] at h
  refine ⟨?_, h.word (by omega), ?_⟩
  · rw [inUse, inUse, h (entrySize * i) (by simp only [entrySize]; omega)]
  · intro j hj
    exact h _ (by simp only [entrySize]; omega)

theorem strncmpFrom_congr {s s' t : Image} (n i : Nat) (h : ∀ j < i + n, s j = s' j) :
    strncmpFrom s t n i = strncmpFrom s' t n i := by
  induction n generalizing i with
  | zero => rfl
  | succ n ih =>
    have hrest := ih (i + 1) fun j hj => h j (by omega)
    simp only [strncmpFrom, h i (by omega), hrest]

/-- Up to the end of the name `strncpy` copies it. -/
theorem padded_eq {s : Image} {i : Nat} (h : ∀ k < i, s k ≠ 0) : padded s i = s i := by
  have hnone : ((List.range i).any fun k => s k == 0) = false := by
    rw [List.any_eq_false]
    intro k hk
    simpa using h k (List.mem_range.mp hk)
  rw [padded, hnone]
  rfl

theorem padded_eq_zero {s : Image} {i k : Nat} (hk : k ≤ i) (hend : s k = 0) : padded s i = 0 := by
  rcases Nat.lt_or_eq_of_le hk with hlt | rfl
  · have hany : ((List.range i).any fun k => s k == 0) = true :=
      List.any_eq_true.mpr ⟨k, List.mem_range.mpr hlt, by simp [hend]⟩
    rw [padded, hany]
    rfl
  · rw [padded, hend]
    exact ite_self 0

/-- A name agrees with the copy `strncpy` makes of it. -/
theorem strncmp_padded (s : Image) (n : Nat) : strncmp (padded s) s n = 0 := by
  have hloop : ∀ n i, (∀ k < i, s k ≠ 0) → strncmpFrom (padded s) s n i = 0 := by
    intro n
    induction n with
    | zero => exact fun _ _ => rfl
    | succ n ih =>
      intro i hi
      simp only [strncmpFrom, padded_eq hi, ne_eq, not_true_eq_false, if_false]
      split
      next => rfl
      next hne =>
        apply ih (i + 1)
        intro k hk
        rcases Nat.lt_succ_iff_lt_or_eq.mp hk with hlt | rfl
        · exact hi k hlt
        · exact hne
  exact hloop n 0 fun k hk => by omega

theorem matchesName_congr {d d' : Directory} {n : Nat}
    (h : Image.AgreeTo (n * entrySize) d.table d'.table) (name : Image) {i : Nat} (hi : i < n) :
    d.matchesName name i = d'.matchesName name i := by
  obtain ⟨huse, -, hname⟩ := congr h hi
  have hcmp : strncmp (d.name i) name fileNameMaxLen = strncmp (d'.name i) name fileNameMaxLen := by
    apply strncmpFrom_congr
    intro j hj
    exact hname j (by simp only [fileNameMaxLen] at hj; omega)
  rw [matchesName, matchesName, huse, hcmp]

private theorem setByte_entry (table : Image) (i j : Nat) (b : BitVec 8) :
    table.setByte (entrySize * i) b (entrySize * j) = if j = i then b else table (entrySize * j) := by
  by_cases hij : j = i
  · rw [if_pos hij, hij, Image.setByte_self]
  · have hne : entrySize * j ≠ entrySize * i := by
      simp only [entrySize]
      omega
    rw [if_neg hij, Image.setByte_of_ne _ hne]

theorem added_inUse (d : Directory) (i j : Nat) (name : Image) (newSector : Int) :
    (d.added i name newSector).inUse j = (d.inUse j || decide (j = i)) := by
  have hbyte : (d.added i name newSector).table (entrySize * j) =
      d.table.setByte (entrySize * i) 1 (entrySize * j) := by
    simp only [added, entrySize]
    rw [Image.setWord_of_ne _ (by omega), Image.blit_of_notMem]
    simp only [fileNameMaxLen]
    omega
  rw [inUse, inUse, hbyte, setByte_entry]
  by_cases hij : j = i
  · simp [hij]
  · simp [hij]

theorem added_sector (d : Directory) (i j : Nat) (name : Image) (newSector : Int) :
    (d.added i name newSector).sector j =
      if j = i then BitVec.ofInt 32 newSector else d.sector j := by
  by_cases hij : j = i
  · rw [if_pos hij, hij]
    exact Image.word_setWord_self _ _ _
  · rw [if_neg hij]
    simp only [sector, added]
    rw [Image.word_setWord_of_ne _ (by omega)]
    apply Image.word_congr
    intro k hk
    simp only [entrySize, fileNameMaxLen]
    rw [Image.blit_of_notMem (by omega), Image.setByte_of_ne _ (by omega)]

/-- `strncpy` fills the first characters of the entry and leaves its last one. -/
theorem added_name (d : Directory) (i j : Nat) (name : Image) (newSector : Int) {k : Nat}
    (hk : k < 10) : (d.added i name newSector).name j k =
      if j = i ∧ k < fileNameMaxLen then padded name k else d.name j k := by
  simp only [Directory.name, added, entrySize, fileNameMaxLen]
  rw [Image.setWord_of_ne _ (by omega)]
  by_cases hin : j = i ∧ k < 9
  · rw [if_pos hin, Image.blit_of_mem (by omega) (by omega)]
    exact congrArg _ (by omega)
  · rw [if_neg hin, Image.blit_of_notMem (by omega), Image.setByte_of_ne _ (by omega)]

theorem added_matchesName (d : Directory) (i j : Nat) (name nm : Image) (newSector : Int) :
    (d.added i name newSector).matchesName nm j =
      if j = i then strncmp (padded name) nm fileNameMaxLen == 0 else d.matchesName nm j := by
  rw [matchesName, added_inUse]
  by_cases hij : j = i
  · have hcmp : strncmp ((d.added i name newSector).name j) nm fileNameMaxLen =
        strncmp (padded name) nm fileNameMaxLen := by
      apply strncmpFrom_congr
      intro k hk
      rw [Nat.zero_add] at hk
      rw [added_name _ _ _ _ _ (Nat.lt_succ_of_lt hk), if_pos ⟨hij, hk⟩]
    rw [if_pos hij, hcmp, decide_eq_true hij, Bool.or_true, Bool.true_and]
  · have hcmp : strncmp ((d.added i name newSector).name j) nm fileNameMaxLen =
        strncmp (d.name j) nm fileNameMaxLen := by
      apply strncmpFrom_congr
      intro k hk
      rw [Nat.zero_add] at hk
      rw [added_name _ _ _ _ _ (Nat.lt_succ_of_lt hk), if_neg fun h => hij h.1]
    rw [if_neg hij, hcmp, decide_eq_false hij, Bool.or_false, matchesName]

theorem removed_inUse (d : Directory) (i j : Nat) :
    (d.removed i).inUse j = (d.inUse j && !decide (j = i)) := by
  show (d.table.setByte (entrySize * i) 0 (entrySize * j) != 0) = _
  rw [inUse, setByte_entry]
  by_cases hij : j = i
  · simp [hij]
  · simp [hij]

theorem removed_sector (d : Directory) (i j : Nat) : (d.removed i).sector j = d.sector j := by
  simp only [sector, removed]
  exact Image.word_setByte_of_ne _ (by simp only [entrySize]; omega)

theorem removed_name (d : Directory) (i j : Nat) {k : Nat} (hk : k < 10) :
    (d.removed i).name j k = d.name j k :=
  Image.setByte_of_ne _ (by simp only [entrySize]; omega)

theorem removed_matchesName (d : Directory) (i j : Nat) (nm : Image) :
    (d.removed i).matchesName nm j = (d.matchesName nm j && !decide (j = i)) := by
  have hcmp : strncmp ((d.removed i).name j) nm fileNameMaxLen =
      strncmp (d.name j) nm fileNameMaxLen := by
    apply strncmpFrom_congr
    intro k hk
    rw [Nat.zero_add] at hk
    exact removed_name d i j (Nat.lt_succ_of_lt hk)
  rw [matchesName, matchesName, removed_inUse, hcmp, Bool.and_right_comm]

/-! ## Lookups -/

theorem findIndex_eq_neg_one {d : Directory} {name : Image} :
    d.findIndex name = -1 ↔ ∀ i < d.tableSize, d.matchesName name i = false := by
  rw [findIndex]
  cases hfind : (List.range d.tableSize).find? (d.matchesName name) with
  | none =>
    simp only [List.find?_eq_none, List.mem_range, Bool.not_eq_true] at hfind
    simpa using hfind
  | some i =>
    have hi := List.mem_range.mp (List.mem_of_find?_eq_some hfind)
    have hm := List.find?_some hfind
    constructor
    · intro h
      have : (i : Int) = -1 := h
      omega
    · intro h
      rw [h i hi] at hm
      cases hm

theorem findIndex_cases (d : Directory) (name : Image) :
    d.findIndex name = -1 ∨
      ∃ i < d.tableSize, d.findIndex name = i ∧ d.matchesName name i = true := by
  rw [findIndex]
  cases hfind : (List.range d.tableSize).find? (d.matchesName name) with
  | none => exact .inl rfl
  | some i =>
    exact .inr ⟨i, List.mem_range.mp (List.mem_of_find?_eq_some hfind), rfl,
      List.find?_some hfind⟩

theorem inUse_of_matchesName {d : Directory} {name : Image} {i : Nat}
    (h : d.matchesName name i = true) : d.inUse i = true := by
  rw [matchesName, Bool.and_eq_true] at h
  exact h.1

/-- The entry that `Add` uses. -/
def firstFree (d : Directory) : Option Nat := (List.range d.tableSize).find? fun i => !d.inUse i

theorem firstFree_congr {d d' : Directory} (hsize : d.tableSize = d'.tableSize)
    (h : ∀ i < d.tableSize, d.inUse i = d'.inUse i) : d.firstFree = d'.firstFree := by
  rw [firstFree, firstFree, ← hsize]
  apply List.find?_congr
  intro i hi
  rw [h i (List.mem_range.mp hi)]

/-- `Add` of a name that is not in the directory. -/
theorem add_cases {d : Directory} {name : Image} (newSector : Int) (h : d.findIndex name = -1) :
    (d.add name newSector = (false, d) ∧ ∀ i < d.tableSize, d.inUse i = true) ∨
      ∃ i < d.tableSize, d.inUse i = false ∧
        d.add name newSector = (true, d.added i name newSector) ∧ d.firstFree = some i := by
  have hnot : ¬ d.findIndex name ≠ -1 := not_not.mpr h
  cases hfind : (List.range d.tableSize).find? fun i => !d.inUse i with
  | none =>
    refine .inl ⟨by simp only [add, hnot, if_false, hfind], ?_⟩
    simpa using hfind
  | some i =>
    refine .inr ⟨i, List.mem_range.mp (List.mem_of_find?_eq_some hfind), ?_, ?_, hfind⟩
    · simpa using List.find?_some hfind
    · simp only [add, hnot, if_false, hfind]

end Directory
end Nachos

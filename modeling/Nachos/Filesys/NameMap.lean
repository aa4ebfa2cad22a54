import Nachos.Framework.Run
import Nachos.Framework.SlotTable
import Nachos.Filesys.Metadata

/-!
# The directory as a map on truncated names

Names are compared on `FileNameMaxLen` characters at most. On these a directory is a map of at
most `tableSize` names, however often its entries are reused and wherever it is written to a
file and fetched from it again.
-/

namespace Nachos

open Framework

namespace Directory

variable {d d' : Directory}

/-! ## Agreement of names -/

def SameName (s t : Image) : Prop := strncmp s t fileNameMaxLen = 0

instance : DecidableRel SameName := fun s t =>
  inferInstanceAs (Decidable (strncmp s t fileNameMaxLen = 0))

theorem strncmpFrom_succ_eq_zero {s t : Image} {n i : Nat} :
    strncmpFrom s t (n + 1) i = 0 ↔ s i = t i ∧ (s i = 0 ∨ strncmpFrom s t n (i + 1) = 0) := by
  rw [strncmpFrom]
  by_cases hi : s i = t i
  · rw [if_neg (not_not.mpr hi)]
    by_cases hend : s i = 0
    · rw [if_pos hend]
      exact ⟨fun _ => ⟨hi, .inl hend⟩, fun _ => rfl⟩
    · rw [if_neg hend]
      exact ⟨fun h => ⟨hi, .inr h⟩, fun h => h.2.resolve_left hend⟩
  · have hne : (s i).toNat ≠ (t i).toNat := fun h => hi (BitVec.eq_of_toNat_eq h)
    simp only [ne_eq, hi, not_false_eq_true, if_true, false_and, iff_false]
    omega

private theorem strncmpFrom_symm {s t : Image} (n i : Nat) (h : strncmpFrom s t n i = 0) :
    strncmpFrom t s n i = 0 := by
  induction n generalizing i with
  | zero => rfl
  | succ n ih =>
    obtain ⟨hi, hrest⟩ := strncmpFrom_succ_eq_zero.mp h
    apply strncmpFrom_succ_eq_zero.mpr
    exact ⟨hi.symm, hrest.imp (fun hend => hi ▸ hend) (ih (i + 1))⟩

private theorem strncmpFrom_trans {s t u : Image} (n i : Nat) (h : strncmpFrom s t n i = 0)
    (h' : strncmpFrom t u n i = 0) : strncmpFrom s u n i = 0 := by
  induction n generalizing i with
  | zero => rfl
  | succ n ih =>
    obtain ⟨hi, hrest⟩ := strncmpFrom_succ_eq_zero.mp h
    obtain ⟨hi', hrest'⟩ := strncmpFrom_succ_eq_zero.mp h'
    apply strncmpFrom_succ_eq_zero.mpr
    refine ⟨hi.trans hi', ?_⟩
    rcases hrest with hend | hrest
    · exact .inl hend
    · rcases hrest' with hend' | hrest'
      · exact .inl (hi.trans hend')
      · exact .inr (ih (i + 1) hrest hrest')

theorem strncmpFrom_self (s : Image) (n i : Nat) : strncmpFrom s s n i = 0 := by
  induction n generalizing i with
  | zero => rfl
  | succ n ih => exact strncmpFrom_succ_eq_zero.mpr ⟨rfl, .inr (ih (i + 1))⟩

private theorem sameName_equivalence : Equivalence SameName where
  refl s := strncmpFrom_self s _ _
  symm := strncmpFrom_symm _ _
  trans := strncmpFrom_trans _ _

/-! ## The entries as slots -/

def key (d : Directory) (i : Nat) : Image := fun j => if j < fileNameMaxLen then d.name i j else 0

def slot (d : Directory) : Slots Image (BitVec 32) :=
  fun i => if d.inUse i then some (d.key i, d.sector i) else none

private theorem slot_eq_some {i : Nat} {k : Image} {v : BitVec 32} :
    d.slot i = some (k, v) ↔ d.inUse i = true ∧ d.key i = k ∧ d.sector i = v := by
  rw [slot]
  cases d.inUse i <;> simp

private theorem strncmp_key (d : Directory) (i : Nat) (nm : Image) :
    strncmp (d.key i) nm fileNameMaxLen = strncmp (d.name i) nm fileNameMaxLen := by
  apply strncmpFrom_congr
  intro j hj
  rw [Nat.zero_add] at hj
  exact if_pos hj

private theorem matchesName_iff {nm : Image} {i : Nat} :
    d.matchesName nm i = true ↔ d.inUse i = true ∧ SameName (d.key i) nm := by
  rw [matchesName, Bool.and_eq_true, beq_iff_eq, SameName, strncmp_key]

private theorem not_sameName_of_absent {nm : Image}
    (h : ∀ i < d.tableSize, d.matchesName nm i = false) :
    ∀ i < d.tableSize, ∀ k v, d.slot i = some (k, v) → ¬ SameName k nm := by
  intro i hi k v hslot hsame
  obtain ⟨huse, rfl, -⟩ := slot_eq_some.mp hslot
  have hmatch := matchesName_iff.mpr ⟨huse, hsame⟩
  rw [h i hi] at hmatch
  cases hmatch

private theorem slot_congr {n : Nat} (h : Image.AgreeTo (n * entrySize) d.table d'.table) {i : Nat}
    (hi : i < n) : d.slot i = d'.slot i := by
  obtain ⟨huse, hsector, hname⟩ := congr h hi
  have hkey : d.key i = d'.key i := by
    funext j
    by_cases hj : j < fileNameMaxLen
    · rw [key, key, if_pos hj, if_pos hj]
      exact hname j (by simp only [fileNameMaxLen] at hj; omega)
    · rw [key, key, if_neg hj, if_neg hj]
  rw [slot, slot, huse, hsector, hkey]

private theorem new_slot (fresh : Image) {size i : Nat} (hi : i < size) :
    (new fresh size).slot i = none := by
  rw [slot, new_inUse fresh hi]
  rfl

private theorem added_key_self (d : Directory) (i : Nat) (name : Image) (newSector : Int) {j : Nat}
    (hj : j < fileNameMaxLen) : (d.added i name newSector).key i j = padded name j := by
  rw [key, if_pos hj, added_name _ _ _ _ _ (Nat.lt_succ_of_lt hj), if_pos ⟨rfl, hj⟩]

private theorem sameName_added (d : Directory) (i : Nat) (name : Image) (newSector : Int) :
    SameName ((d.added i name newSector).key i) name := by
  have hcopy : strncmp ((d.added i name newSector).key i) name fileNameMaxLen =
      strncmp (padded name) name fileNameMaxLen := by
    apply strncmpFrom_congr
    intro j hj
    rw [Nat.zero_add] at hj
    exact added_key_self d i name newSector hj
  rw [SameName, hcopy]
  exact strncmp_padded name fileNameMaxLen

private theorem added_key_of_ne (d : Directory) {i j : Nat} (hji : j ≠ i) (name : Image)
    (newSector : Int) : (d.added i name newSector).key j = d.key j := by
  funext k
  rw [key, key]
  split
  next hk => rw [added_name _ _ _ _ _ (Nat.lt_succ_of_lt hk), if_neg fun h => hji h.1]
  next => rfl

private theorem added_slot (d : Directory) (i : Nat) (name : Image) (newSector : BitVec 32) :
    (d.added i name newSector.toInt).slot =
      Function.update d.slot i (some ((d.added i name newSector.toInt).key i, newSector)) := by
  funext j
  rw [slot, added_inUse, added_sector]
  by_cases hji : j = i
  · rw [hji, Function.update_self, decide_eq_true rfl, Bool.or_true, if_pos rfl, if_pos rfl,
      BitVec.ofInt_toInt]
  · rw [Function.update_of_ne hji, decide_eq_false hji, Bool.or_false, if_neg hji,
      added_key_of_ne d hji, slot]

private theorem removed_slot (d : Directory) (i : Nat) :
    (d.removed i).slot = Function.update d.slot i none := by
  funext j
  have hkey : (d.removed i).key j = d.key j := by
    funext k
    rw [key, key]
    split
    next hk => exact removed_name d i j (Nat.lt_succ_of_lt hk)
    next => rfl
  rw [slot, removed_inUse, removed_sector, hkey]
  by_cases hji : j = i
  · rw [hji, Function.update_self, decide_eq_true rfl, Bool.not_true, Bool.and_false]
    rfl
  · rw [Function.update_of_ne hji, decide_eq_false hji, Bool.not_false, Bool.and_true, slot]

/-! ## Writing back and fetching -/

variable {f : OpenFile} {size : Nat}

/-- A file that is large enough for the table. -/
structure HasRoom (f : OpenFile) (size : Nat) : Prop where
  wellFormed : f.hdr.WellFormed
  room : size * entrySize ≤ f.hdr.length

private theorem HasRoom.transferred_eq (hf : HasRoom f size) :
    OpenFile.transferred f.hdr.length (size * entrySize) 0 = size * entrySize := by
  have hroom := hf.room
  simp only [OpenFile.transferred]
  omega

theorem HasRoom.fits (hf : HasRoom f size) : 0 + size * entrySize < 2 ^ 31 := by
  have hroom := hf.room
  have hlen := hf.wellFormed.length_le
  simp only [maxFileSize, numDirect, sectorSize] at hlen
  omega

private theorem writeBack_fetchFrom (d : Directory) (hf : HasRoom f d.tableSize) (disk : Disk)
    (fresh : Image) (d₀ : Directory) (hsize : d₀.tableSize = d.tableSize) :
    ∃ disk' d', d.writeBack f disk fresh = some disk' ∧ d₀.fetchFrom f disk' = some d' ∧
      d'.tableSize = d.tableSize ∧
      Image.AgreeTo (d.tableSize * entrySize) d'.table d.table := by
  obtain ⟨disk', hwrite, hwritten⟩ := OpenFile.writeAt_spec hf.wellFormed disk fresh d.table
    (d.tableSize * entrySize) 0 hf.fits
  have hread := OpenFile.readAt_eq hf.wellFormed disk' d₀.table 0 (d.tableSize * entrySize) 0
    hf.fits
  rw [hf.transferred_eq] at hwrite hwritten hread
  refine ⟨disk', ⟨d₀.tableSize, d₀.table.blit 0 (fun i => OpenFile.content disk' f.hdr (0 + i))
    (d.tableSize * entrySize)⟩, ?_, ?_, hsize, ?_⟩
  · exact congrArg (Option.bind · fun r => some r.2) hwrite
  · rw [fetchFrom, hsize]
    exact congrArg (Option.bind · fun r => some (Directory.mk d.tableSize r.2)) hread
  · intro a ha
    have hroom := hf.room
    dsimp only
    rw [Image.blit_zero_agreeTo _ _ _ a ha, Nat.zero_add, hwritten.data a (by omega), if_pos (by omega), Nat.sub_zero]

/-! ## Histories -/

/-- The calls on a directory. A reload writes the table back through a file and fetches it into
a directory object of the same size. -/
inductive Call
  | add (name : Image) (newSector : BitVec 32)
  | remove (name : Image)
  | reload (file : OpenFile) (disk : Disk) (fresh : Image) (object : Directory)

/-- What a call adds to the history if it succeeds. -/
def logged (ok : Bool) (e : MapEvent Image (BitVec 32)) (events : List (MapEvent Image (BitVec 32))) :
    List (MapEvent Image (BitVec 32)) :=
  if ok then e :: events else events

/-- A directory of the given size beside the successful calls, the last one first. -/
def nameSystem (fresh : Image) (size : Nat) :
    System (Directory × List (MapEvent Image (BitVec 32))) Call where
  init s := s = (new fresh size, [])
  step s c s' :=
    match c with
    | .add name newSector =>
      let r := s.1.add name newSector.toInt
      s' = (r.2, logged r.1 (.added name newSector) s.2)
    | .remove name =>
      let r := s.1.remove name
      s' = (r.2, logged r.1 (.removed name) s.2)
    | .reload file disk fresh object =>
      HasRoom file s.1.tableSize ∧ object.tableSize = s.1.tableSize ∧
        ∃ disk', s.1.writeBack file disk fresh = some disk' ∧
          object.fetchFrom file disk' = some s'.1 ∧ s'.2 = s.2

def Recorded (size : Nat) (s : Directory × List (MapEvent Image (BitVec 32))) : Prop :=
  s.1.tableSize = size ∧ s.1.slot.Holds SameName size s.2

variable {events : List (MapEvent Image (BitVec 32))}

theorem Recorded.add (h : Recorded size (d, events)) (name : Image) (newSector : BitVec 32) :
    Recorded size ((d.add name newSector.toInt).2,
      logged (d.add name newSector.toInt).1 (.added name newSector) events) := by
  obtain ⟨rfl, hholds⟩ := h
  by_cases habsent : d.findIndex name = -1
  · rcases add_cases newSector.toInt habsent with ⟨hadd, -⟩ | ⟨i, hi, hfree, hadd, -⟩
    · rw [hadd]
      exact ⟨rfl, hholds⟩
    · rw [hadd]
      refine ⟨rfl, ?_⟩
      have hslot : d.slot i = none := by
        rw [slot, hfree]
        rfl
      have hadded := hholds.add sameName_equivalence hi hslot newSector
        (sameName_added d i name newSector.toInt)
        (not_sameName_of_absent (findIndex_eq_neg_one.mp habsent))
      rw [← added_slot] at hadded
      exact hadded
  · rw [Directory.add, if_pos habsent]
    exact ⟨rfl, hholds⟩

theorem Recorded.remove (h : Recorded size (d, events)) (name : Image) :
    Recorded size ((d.remove name).2, logged (d.remove name).1 (.removed name) events) := by
  obtain ⟨rfl, hholds⟩ := h
  rcases findIndex_cases d name with habsent | ⟨i, hi, hfind, hmatch⟩
  · rw [Directory.remove, if_pos habsent]
    exact ⟨rfl, hholds⟩
  · have hremove : d.remove name = (true, d.removed i) := by
      rw [Directory.remove, hfind, if_neg (by omega)]
      rfl
    rw [hremove]
    refine ⟨rfl, ?_⟩
    obtain ⟨huse, hsame⟩ := matchesName_iff.mp hmatch
    have hremoved := hholds.remove sameName_equivalence hi (slot_eq_some.mpr ⟨huse, rfl, rfl⟩) hsame
    rw [← removed_slot] at hremoved
    exact hremoved

theorem Recorded.reload (h : Recorded size (d, events)) (hf : HasRoom f d.tableSize)
    {disk disk' : Disk} {fresh : Image} {d₀ : Directory} (hsize : d₀.tableSize = d.tableSize)
    (hwrite : d.writeBack f disk fresh = some disk') (hfetch : d₀.fetchFrom f disk' = some d') :
    Recorded size (d', events) := by
  obtain ⟨rfl, hholds⟩ := h
  obtain ⟨disk₁, d₁, hwrite₁, hfetch₁, hsize₁, hag⟩ := writeBack_fetchFrom d hf disk fresh d₀ hsize
  obtain rfl : disk₁ = disk' := Option.some.inj (hwrite₁.symm.trans hwrite)
  obtain rfl : d₁ = d' := Option.some.inj (hfetch₁.symm.trans hfetch)
  exact ⟨hsize₁, hholds.congr fun i hi => slot_congr hag hi⟩

theorem recorded_inductive (fresh : Image) (size : Nat) :
    (nameSystem fresh size).Inductive (Recorded size) where
  init s hs := by
    rw [hs]
    exact ⟨rfl, .empty fun i hi => new_slot fresh hi⟩
  step := by
    rintro ⟨d, events⟩ c ⟨d', events'⟩ h hstep
    cases c with
    | add name newSector =>
      rw [show (d', events') = _ from hstep]
      exact h.add name newSector
    | remove name =>
      rw [show (d', events') = _ from hstep]
      exact h.remove name
    | reload file disk fresh object =>
      obtain ⟨hf, hsize, disk', hwrite, hfetch, hsame⟩ := hstep
      rw [show events' = events from hsame]
      exact h.reload hf hsize hwrite hfetch

/-- `Find` returns what the history says of the name. -/
theorem Recorded.find_eq (h : Recorded size (d, events)) (nm : Image) :
    d.find nm = (latest SameName events nm).elim (-1) BitVec.toInt := by
  obtain ⟨rfl, hholds⟩ := h
  rw [find]
  rcases findIndex_cases d nm with habsent | ⟨i, hi, hfind, hmatch⟩
  · rw [if_neg (not_not.mpr habsent), hholds.latest_of_absent
      (not_sameName_of_absent (findIndex_eq_neg_one.mp habsent))]
    rfl
  · obtain ⟨huse, hsame⟩ := matchesName_iff.mp hmatch
    rw [hfind, if_pos (by omega), hholds.latest_of_slot sameName_equivalence hi
      (slot_eq_some.mpr ⟨huse, rfl, rfl⟩) hsame]
    rfl

private theorem add_eq_false_iff (d : Directory) (nm : Image) (newSector : Int) :
    (d.add nm newSector).1 = false ↔ (∃ i < d.tableSize, d.matchesName nm i = true) ∨
      ∀ i < d.tableSize, d.inUse i = true := by
  rcases findIndex_cases d nm with habsent | ⟨i, hi, hfind, hmatch⟩
  · have hnone := findIndex_eq_neg_one.mp habsent
    have hno : ¬ ∃ i < d.tableSize, d.matchesName nm i = true := by
      rintro ⟨i, hi, hmatch⟩
      rw [hnone i hi] at hmatch
      cases hmatch
    rcases add_cases newSector habsent with ⟨hadd, hfull⟩ | ⟨i, hi, hfree, hadd, -⟩
    · rw [hadd]
      exact ⟨fun _ => .inr hfull, fun _ => rfl⟩
    · rw [hadd]
      refine ⟨fun h => (by cases h), ?_⟩
      rintro (hsome | hfull)
      · exact absurd hsome hno
      · rw [hfull i hi] at hfree
        cases hfree
  · rw [Directory.add, if_pos (by omega)]
    exact ⟨fun _ => .inl ⟨i, hi, hmatch⟩, fun _ => rfl⟩

private theorem latest_logged_removed {nm nm' : Image} (hne : ¬ SameName nm nm') (ok : Bool) :
    latest SameName (logged ok (.removed nm) events) nm' = latest SameName events nm' := by
  cases ok with
  | false => rfl
  | true => exact if_neg hne

theorem directory_refines_map {fresh : Image} {size : Nat} {d : Directory}
    {events : List (MapEvent Image (BitVec 32))}
    (hr : (nameSystem fresh size).Reachable (d, events)) :
    d.tableSize = size ∧
    (∀ nm, d.find nm =
      (latest (fun s t => strncmp s t fileNameMaxLen = 0) events nm).elim (-1) BitVec.toInt) ∧
    (∀ i < size, ∀ j < size, d.inUse i = true → d.inUse j = true →
      strncmp (d.name i) (d.name j) fileNameMaxLen = 0 → i = j) ∧
    (∀ nm newSector, (d.add nm newSector).1 = false ↔
      (∃ i < size, d.inUse i = true ∧ strncmp (d.name i) nm fileNameMaxLen = 0) ∨
        ∀ i < size, d.inUse i = true) ∧
    (∀ nm nm', strncmp nm nm' fileNameMaxLen ≠ 0 → (d.remove nm).2.find nm' = d.find nm') ∧
    ∀ file disk buffer (object : Directory), HasRoom file size → object.tableSize = size →
      ∃ disk' d', d.writeBack file disk buffer = some disk' ∧
        object.fetchFrom file disk' = some d' ∧
        (nameSystem fresh size).Reachable (d', events) := by
  have hrec := (recorded_inductive fresh size).of_reachable hr
  obtain ⟨hsize, hholds⟩ := id hrec
  refine ⟨hsize, hrec.find_eq, ?_, ?_, ?_, ?_⟩
  · intro i hi j hj hui huj hsame
    apply hholds.unique hi hj (slot_eq_some.mpr ⟨hui, rfl, rfl⟩) (slot_eq_some.mpr ⟨huj, rfl, rfl⟩)
    rw [SameName, strncmp_key]
    apply sameName_equivalence.symm
    rw [SameName, strncmp_key]
    exact sameName_equivalence.symm hsame
  · intro nm newSector
    rw [add_eq_false_iff, hsize]
    simp only [matchesName, Bool.and_eq_true, beq_iff_eq]
  · intro nm nm' hne
    rw [(hrec.remove nm).find_eq, hrec.find_eq, latest_logged_removed hne]
  · intro file disk buffer object hf hobj
    have hsize' : d.tableSize = size := hsize
    rw [← hsize'] at hf hobj
    obtain ⟨disk', d', hwrite, hfetch, -, -⟩ := writeBack_fetchFrom d hf disk buffer object hobj
    exact ⟨disk', d', hwrite, hfetch, .step hr (l := .reload file disk buffer object)
      ⟨hf, hobj, disk', hwrite, hfetch, rfl⟩⟩

/-- The name of `n` times the same letter. -/
def repeated (n : Nat) : Image := fun j => if j < n then 97 else 0

/-- An entry that is used again, for a name that differs only behind the compared characters. -/
theorem directory_refines_map_reused : ∃ d,
    (nameSystem (fun _ => 255) 1).Reachable
      (d, [.added (repeated 10) 8, .removed (repeated 12), .added (repeated 12) 7]) ∧
    d.find (repeated 12) = 8 := by
  let d₁ := ((new (fun _ => 255) 1).add (repeated 12) 7).2
  let d₂ := (d₁.remove (repeated 12)).2
  let d₃ := (d₂.add (repeated 10) 8).2
  have h₁ : (nameSystem (fun _ => 255) 1).Reachable (d₁, [.added (repeated 12) 7]) :=
    .step (.init rfl) (l := .add (repeated 12) 7) rfl
  have h₂ : (nameSystem (fun _ => 255) 1).Reachable
      (d₂, [.removed (repeated 12), .added (repeated 12) 7]) :=
    .step h₁ (l := .remove (repeated 12)) rfl
  have h₃ : (nameSystem (fun _ => 255) 1).Reachable
      (d₃, [.added (repeated 10) 8, .removed (repeated 12), .added (repeated 12) 7]) :=
    .step h₂ (l := .add (repeated 10) 8) rfl
  have hfind : d₃.find (repeated 12) = 8 := by
    rw [(directory_refines_map h₃).2.1 (repeated 12)]
    decide
  exact ⟨d₃, h₃, hfind⟩

end Directory
end Nachos

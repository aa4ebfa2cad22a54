import Nachos.Lib.LinkedList
import Mathlib.Data.Fintype.EquivFin

/-!
# Lists refine sequences

The operations of `List<T>` and `SortedList<T>` on the sequence that the cells represent. The
operations on the cells simulate those on the sequence, also in a memory that others use, and
with distinct items these are the operations of mathematics.
-/

namespace Nachos

open Framework

/-! ## The operations on a sequence -/

namespace Sequence

variable {α : Type} [BEq α]

/-- `List<T>::IsInList`. -/
def isInList (l : List α) (item : α) : Bool := l.any (item == ·)

/-- `List<T>::Append`. -/
def append (l : List α) (item : α) : Option (List α) := do
  assert !(isInList l item)
  assert (isInList (l ++ [item]) item)
  some (l ++ [item])

/-- `List<T>::Prepend`. -/
def prepend (l : List α) (item : α) : Option (List α) := do
  assert !(isInList l item)
  assert (isInList (item :: l) item)
  some (item :: l)

/-- `SortedList<T>::Insert`. -/
def insert (compare : α → α → Int) (l : List α) (item : α) : Option (List α) := do
  let l' := l.orderedInsert (fun x y => compare x y < 0) item
  assert !(isInList l item)
  assert (item == item)
  some l'

/-- `List<T>::RemoveFront`. -/
def removeFront : List α → Option (α × List α)
  | [] => none
  | x :: l => some (x, l)

/-- `List<T>::Remove`. -/
def remove (l : List α) (item : α) : Option (List α) := do
  let l' := l.eraseP (item == ·)
  assert (isInList l item)
  assert !(isInList l' item)
  some l'

variable {compare : α → α → Int} {l l' : List α} {item : α}

theorem append_eq_some : append l item = some l' ↔
    isInList l item = false ∧ (item == item) = true ∧ l' = l ++ [item] := by
  cases hin : isInList l item with
  | false =>
    have hlast : isInList (l ++ [item]) item = (item == item) := by
      rw [isInList, List.any_append]
      exact (congrArg (· || _) hin).trans (by simp)
    cases hself : item == item with
    | false => simp [append, hin, hlast, hself, assert]
    | true => simp [append, hin, hlast, hself, eq_comm]
  | true => simp [append, hin, assert]

private theorem prepend_eq_some : prepend l item = some l' ↔
    isInList l item = false ∧ (item == item) = true ∧ l' = item :: l := by
  cases hin : isInList l item with
  | false =>
    have hfirst : isInList (item :: l) item = (item == item) := by
      rw [isInList, List.any_cons]
      exact (congrArg (_ || ·) hin).trans (by simp)
    cases hself : item == item with
    | false => simp [prepend, hin, hfirst, hself, assert]
    | true => simp [prepend, hin, hfirst, hself, eq_comm]
  | true => simp [prepend, hin, assert]

private theorem insert_eq_some : insert compare l item = some l' ↔ isInList l item = false ∧
    (item == item) = true ∧ l' = l.orderedInsert (fun x y => compare x y < 0) item := by
  cases hin : isInList l item with
  | false =>
    cases hself : item == item with
    | false => simp [insert, hin, hself, assert]
    | true => simp [insert, hin, hself, eq_comm]
  | true => simp [insert, hin, assert]

theorem remove_eq_some : remove l item = some l' ↔
    isInList l item = true ∧ isInList l' item = false ∧ l' = l.eraseP (item == ·) := by
  cases hin : isInList l item with
  | false => simp [remove, hin, assert]
  | true =>
    cases hout : isInList (l.eraseP (item == ·)) item with
    | false =>
      simp only [remove, hin, hout, assert_true, Bool.not_false, Option.bind_eq_bind,
        Option.bind_some, Option.some.injEq, true_and]
      constructor
      · rintro rfl
        exact ⟨hout, rfl⟩
      · rintro ⟨-, rfl⟩
        rfl
    | true =>
      simp only [remove, hin, hout, assert, Bool.not_true, true_and]
      constructor
      · nofun
      · rintro ⟨hnot, rfl⟩
        rw [hout] at hnot
        cases hnot

end Sequence

/-! ## The simulation -/

namespace LinkedList.Represents

variable {α : Type} [BEq α] {outside : Heap α} {s : LinkedList α} {l l' : List α}
variable {element : Nat} {item x : α}

omit [BEq α] in
theorem length_eq {cells : List (Nat × α)} (h : items cells = l) : cells.length = l.length := by
  rw [← h]
  exact (List.length_map ..).symm

theorem isInList {fuel : Nat} (h : s.Represents outside l) (hfuel : l.length < fuel) (item : α) :
    s.isInList fuel item = some (Sequence.isInList l item) := by
  obtain ⟨cells, hcells, hitems⟩ := h
  rw [← length_eq hitems] at hfuel
  rw [← hitems]
  exact hcells.isInList_eq hfuel item

theorem append (h : s.Represents outside l) (hfree : s.heap element = none)
    (hop : Sequence.append l item = some l') :
    ∃ s', (∀ fuel, l.length + 1 < fuel → s.append fuel element item = some s') ∧
      s'.Represents outside l' := by
  obtain ⟨cells, hcells, hitems⟩ := h
  obtain ⟨hnew, hself, rfl⟩ := Sequence.append_eq_some.mp hop
  rw [← length_eq hitems]
  subst hitems
  obtain ⟨s', hs', hcells'⟩ := hcells.append hfree hnew hself
  exact ⟨s', hs', _, hcells', items_append _ _⟩

theorem prepend (h : s.Represents outside l) (hfree : s.heap element = none)
    (hop : Sequence.prepend l item = some l') :
    ∃ s', (∀ fuel, l.length + 1 < fuel → s.prepend fuel element item = some s') ∧
      s'.Represents outside l' := by
  obtain ⟨cells, hcells, hitems⟩ := h
  obtain ⟨hnew, hself, rfl⟩ := Sequence.prepend_eq_some.mp hop
  rw [← length_eq hitems]
  subst hitems
  obtain ⟨s', hs', hcells'⟩ := hcells.prepend hfree hnew hself
  exact ⟨s', hs', _, hcells', rfl⟩

theorem insert {compare : α → α → Int} (h : s.Represents outside l) (hfree : s.heap element = none)
    (hop : Sequence.insert compare l item = some l') :
    ∃ s', (∀ fuel, l.length + 1 < fuel → s.insert compare fuel element item = some s') ∧
      s'.Represents outside l' := by
  obtain ⟨cells, hcells, hitems⟩ := h
  obtain ⟨hnew, hself, rfl⟩ := Sequence.insert_eq_some.mp hop
  rw [← length_eq hitems]
  subst hitems
  obtain ⟨s', hs', hcells'⟩ := hcells.insert compare hfree hnew hself
  refine ⟨s', hs', _, hcells', ?_⟩
  exact List.map_orderedInsert _ _ _ _ _ (fun _ _ => Iff.rfl) fun _ _ => Iff.rfl

omit [BEq α] in
theorem removeFront (h : s.Represents outside l) (hop : Sequence.removeFront l = some (x, l')) :
    ∃ s', s.removeFront = some (x, s') ∧ s'.Represents outside l' := by
  obtain ⟨cells, hcells, rfl⟩ := h
  cases cells with
  | nil => cases hop
  | cons c cells =>
    cases hop
    obtain ⟨s', hs', hcells'⟩ := hcells.removeFront
    exact ⟨s', hs', cells, hcells', rfl⟩

theorem remove (h : s.Represents outside l) (hop : Sequence.remove l item = some l') :
    ∃ s', (∀ fuel, l.length < fuel → s.remove fuel item = some s') ∧
      s'.Represents outside l' := by
  obtain ⟨cells, hcells, hitems⟩ := h
  obtain ⟨hin, hout, rfl⟩ := Sequence.remove_eq_some.mp hop
  rw [← length_eq hitems]
  subst hitems
  have herase : items (cells.eraseP fun c => item == c.2) = (items cells).eraseP (item == ·) :=
    (List.eraseP_map ..).symm
  rw [← herase] at hout ⊢
  obtain ⟨s', hs', hcells'⟩ := hcells.remove hin hout
  exact ⟨s', hs', _, hcells', rfl⟩

omit [BEq α] in
theorem sanityCheck {fuel : Nat} (h : s.Represents outside l) (hfuel : l.length < fuel) :
    s.sanityCheck fuel = some () := by
  obtain ⟨cells, hcells, hitems⟩ := h
  rw [← length_eq hitems] at hfuel
  exact hcells.sanityCheck hfuel

omit [BEq α] in
theorem sortedSanityCheck {compare : α → α → Int} {fuel : Nat} (h : s.Represents outside l)
    (hsorted : l.Pairwise fun x y => compare x y ≤ 0) (hfuel : l.length < fuel) :
    s.sortedSanityCheck compare fuel = some () := by
  obtain ⟨cells, hcells, hitems⟩ := h
  rw [← length_eq hitems] at hfuel
  subst hitems
  exact hcells.sortedSanityCheck hsorted.isChain hfuel

end LinkedList.Represents

/-! ## Calls -/

/-- The calls of both classes, with the address of the new element. -/
inductive ListCall (α : Type)
  | append (element : Nat) (item : α)
  | prepend (element : Nat) (item : α)
  | insert (element : Nat) (item : α)
  | removeFront
  | remove (item : α)
  | isInList (item : α)

/-- What a call returns. -/
inductive ListReply (α : Type)
  | done
  | item (x : α)
  | found (b : Bool)

/-- `new` returns an address that is not in use. -/
def ListCall.Fresh {α : Type} (heap : Heap α) : ListCall α → Prop
  | .append element _ | .prepend element _ | .insert element _ => heap element = none
  | _ => True

def LinkedList.call {α : Type} [BEq α] (compare : α → α → Int) (fuel : Nat) (s : LinkedList α) :
    ListCall α → Option (ListReply α × LinkedList α)
  | .append element item => (s.append fuel element item).map (.done, ·)
  | .prepend element item => (s.prepend fuel element item).map (.done, ·)
  | .insert element item => (s.insert compare fuel element item).map (.done, ·)
  | .removeFront => s.removeFront.map fun r => (.item r.1, r.2)
  | .remove item => (s.remove fuel item).map (.done, ·)
  | .isInList item => (s.isInList fuel item).map (.found ·, s)

/-- A call returns what it gives with all numbers of turns from some bound on. -/
def LinkedList.Returns {α : Type} [BEq α] (compare : α → α → Int) (s : LinkedList α)
    (c : ListCall α) (r : ListReply α × LinkedList α) : Prop :=
  ∃ bound, ∀ fuel, bound < fuel → s.call compare fuel c = some r

theorem LinkedList.Returns.unique {α : Type} [BEq α] {compare : α → α → Int} {s : LinkedList α}
    {c : ListCall α} {r r' : ListReply α × LinkedList α} (h : s.Returns compare c r)
    (h' : s.Returns compare c r') : r = r' := by
  obtain ⟨bound, hrun⟩ := h
  obtain ⟨bound', hrun'⟩ := h'
  have hr := hrun (bound + bound' + 1) (by omega)
  have hr' := hrun' (bound + bound' + 1) (by omega)
  exact Option.some.inj (hr.symm.trans hr')

section Specification

variable {α : Type} [DecidableEq α]

/-- The calls of a list of distinct items, as operations on sequences. -/
inductive ListSpec : List α → ListCall α → ListReply α → List α → Prop
  | append {l : List α} {x : α} (element : Nat) (h : x ∉ l) :
      ListSpec l (.append element x) .done (l ++ [x])
  | prepend {l : List α} {x : α} (element : Nat) (h : x ∉ l) :
      ListSpec l (.prepend element x) .done (x :: l)
  | removeFront (x : α) (l : List α) : ListSpec (x :: l) .removeFront (.item x) l
  | remove {l : List α} {x : α} (h : x ∈ l) : ListSpec l (.remove x) .done (l.erase x)
  | isInList (l : List α) (x : α) : ListSpec l (.isInList x) (.found (decide (x ∈ l))) l

/-- The calls of a sorted list of distinct items. A new item goes before the first bigger one. -/
inductive SortedSpec (compare : α → α → Int) :
    List α → ListCall α → ListReply α → List α → Prop
  | insert {l : List α} {x : α} (element : Nat) (h : x ∉ l) :
      SortedSpec compare l (.insert element x) .done
        (l.orderedInsert (fun y z => compare y z < 0) x)
  | removeFront (x : α) (l : List α) : SortedSpec compare (x :: l) .removeFront (.item x) l
  | remove {l : List α} {x : α} (h : x ∈ l) : SortedSpec compare l (.remove x) .done (l.erase x)
  | isInList (l : List α) (x : α) :
      SortedSpec compare l (.isInList x) (.found (decide (x ∈ l))) l

/-- All sequences of legal calls on a new list, beside the sequence that they give. -/
def listSystem (spec : List α → ListCall α → ListReply α → List α → Prop)
    (compare : α → α → Int) (outside : Heap α) : System (LinkedList α × List α) (ListCall α) where
  init s := s = (LinkedList.new outside, [])
  step s c s' := c.Fresh s.1.heap ∧
    ∃ reply, spec s.2 c reply s'.2 ∧ s.1.Returns compare c (reply, s'.1)

/-- What `list.h` asks of `compare`: the sign tells which of two items is smaller. -/
structure IsComparison (compare : α → α → Int) : Prop where
  sign : ∀ x y, compare x y < 0 ↔ 0 < compare y x
  trans : ∀ x y z, compare x y ≤ 0 → compare y z ≤ 0 → compare x z ≤ 0

/-! ## Distinct items -/

namespace Sequence

variable {compare : α → α → Int} {l : List α} {x : α}

theorem isInList_eq (l : List α) (x : α) : isInList l x = decide (x ∈ l) := by
  rw [Bool.eq_iff_iff]
  simp [isInList]

private theorem isInList_eq_false (h : x ∉ l) : isInList l x = false := by
  rw [isInList_eq, decide_eq_false h]

private theorem append_eq (h : x ∉ l) : append l x = some (l ++ [x]) :=
  append_eq_some.mpr ⟨isInList_eq_false h, beq_self_eq_true x, rfl⟩

private theorem prepend_eq (h : x ∉ l) : prepend l x = some (x :: l) :=
  prepend_eq_some.mpr ⟨isInList_eq_false h, beq_self_eq_true x, rfl⟩

private theorem insert_eq (h : x ∉ l) :
    insert compare l x = some (l.orderedInsert (fun y z => compare y z < 0) x) :=
  insert_eq_some.mpr ⟨isInList_eq_false h, beq_self_eq_true x, rfl⟩

private theorem remove_eq (hnodup : l.Nodup) (h : x ∈ l) : remove l x = some (l.erase x) := by
  have herase : l.erase x = l.eraseP (x == ·) := List.erase_eq_eraseP ..
  have hin : isInList l x = true := by rw [isInList_eq, decide_eq_true h]
  exact remove_eq_some.mpr ⟨hin, isInList_eq_false hnodup.not_mem_erase, herase⟩

theorem append_eq_listAppend (l : List α) (x : α) : append l x = listAppend l x := by
  by_cases h : x ∈ l
  · have hin : isInList l x = true := by rw [isInList_eq, decide_eq_true h]
    simp [append, listAppend, hin, h, assert]
  · rw [append_eq h, listAppend_of_notMem h]

theorem insert_eq_sortedListInsert (compare : α → α → Int) (l : List α) (x : α) :
    insert compare l x = sortedListInsert compare l x := by
  by_cases h : x ∈ l
  · have hin : isInList l x = true := by rw [isInList_eq, decide_eq_true h]
    simp [insert, sortedListInsert, hin, h, assert]
  · rw [insert_eq h, sortedListInsert_of_notMem compare h]

end Sequence

section

variable {compare : α → α → Int} {outside : Heap α} {s s' : LinkedList α} {l l' : List α}
variable {c : ListCall α} {reply : ListReply α}

theorem ListSpec.nodup (h : ListSpec l c reply l') (hnodup : l.Nodup) : l'.Nodup := by
  cases h with
  | append element hnew =>
    rw [← List.concat_eq_append]
    exact hnodup.concat hnew
  | prepend element hnew => exact List.nodup_cons.mpr ⟨hnew, hnodup⟩
  | removeFront x l => exact (List.nodup_cons.mp hnodup).2
  | remove hin => exact hnodup.erase _
  | isInList => exact hnodup

theorem SortedSpec.nodup (h : SortedSpec compare l c reply l') (hnodup : l.Nodup) : l'.Nodup := by
  cases h with
  | insert element hnew =>
    rw [(List.perm_orderedInsert _ _ _).nodup_iff]
    exact List.nodup_cons.mpr ⟨hnew, hnodup⟩
  | removeFront x l => exact (List.nodup_cons.mp hnodup).2
  | remove hin => exact hnodup.erase _
  | isInList => exact hnodup

omit [DecidableEq α] in
private theorem IsComparison.le_of_not_lt (h : IsComparison compare) {x y : α}
    (hlt : ¬ compare x y < 0) : compare y x ≤ 0 := by
  by_contra hgt
  exact hlt ((h.sign x y).mpr (by omega))

private theorem SortedSpec.pairwise (hcompare : IsComparison compare)
    (h : SortedSpec compare l c reply l') (hl : l.Pairwise fun x y => compare x y ≤ 0) :
    l'.Pairwise fun x y => compare x y ≤ 0 := by
  cases h with
  | insert element hnew =>
    apply pairwise_orderedInsert _ hcompare.trans _ _ hl
    · intro y _ hlt
      exact le_of_lt hlt
    · intro y _ hlt
      exact hcompare.le_of_not_lt hlt
  | removeFront x l => exact (List.pairwise_cons.mp hl).2
  | remove hin => exact hl.sublist List.erase_sublist
  | isInList => exact hl

omit [DecidableEq α] in
private theorem IsComparison.insert_split (hcompare : IsComparison compare)
    (hl : l.Pairwise fun x y => compare x y ≤ 0) (x : α) :
    ∃ left right, l = left ++ right ∧
      l.orderedInsert (fun y z => compare y z < 0) x = left ++ x :: right ∧
      (∀ y ∈ left, compare y x ≤ 0) ∧ ∀ y ∈ right, compare x y < 0 := by
  have hup : ∀ y z, compare y z ≤ 0 → compare x y < 0 → compare x z < 0 := by
    intro y z hyz hxy
    by_contra hxz
    have hyx := hcompare.trans y z x hyz (hcompare.le_of_not_lt hxz)
    have hpos := (hcompare.sign x y).mp hxy
    omega
  obtain ⟨left, right, hsplit, hinsert, hleft, hright⟩ :=
    orderedInsert_split (fun y z => compare y z < 0) hl hup
  exact ⟨left, right, hsplit, hinsert, fun y hy => hcompare.le_of_not_lt (hleft y hy), hright⟩

theorem ListSpec.simulates (hspec : ListSpec l c reply l') (h : s.Represents outside l)
    (hnodup : l.Nodup) (hfresh : c.Fresh s.heap) :
    ∃ s', s.Returns compare c (reply, s') ∧ s'.Represents outside l' := by
  cases hspec with
  | append element hnew =>
    obtain ⟨s', hs', h'⟩ := h.append hfresh (Sequence.append_eq hnew)
    exact ⟨s', ⟨l.length + 1, fun fuel hfuel => by rw [LinkedList.call, hs' fuel hfuel]; rfl⟩, h'⟩
  | prepend element hnew =>
    obtain ⟨s', hs', h'⟩ := h.prepend hfresh (Sequence.prepend_eq hnew)
    exact ⟨s', ⟨l.length + 1, fun fuel hfuel => by rw [LinkedList.call, hs' fuel hfuel]; rfl⟩, h'⟩
  | removeFront x l =>
    obtain ⟨s', hs', h'⟩ := h.removeFront rfl
    exact ⟨s', ⟨0, fun fuel _ => by rw [LinkedList.call, hs']; rfl⟩, h'⟩
  | remove hin =>
    obtain ⟨s', hs', h'⟩ := h.remove (Sequence.remove_eq hnodup hin)
    exact ⟨s', ⟨l.length, fun fuel hfuel => by rw [LinkedList.call, hs' fuel hfuel]; rfl⟩, h'⟩
  | isInList _ x =>
    refine ⟨s, ⟨l.length, fun fuel hfuel => ?_⟩, h⟩
    rw [LinkedList.call, h.isInList hfuel, Sequence.isInList_eq]
    rfl

theorem SortedSpec.simulates (hspec : SortedSpec compare l c reply l')
    (h : s.Represents outside l) (hnodup : l.Nodup) (hfresh : c.Fresh s.heap) :
    ∃ s', s.Returns compare c (reply, s') ∧ s'.Represents outside l' := by
  cases hspec with
  | insert element hnew =>
    obtain ⟨s', hs', h'⟩ := h.insert hfresh (Sequence.insert_eq hnew)
    exact ⟨s', ⟨l.length + 1, fun fuel hfuel => by rw [LinkedList.call, hs' fuel hfuel]; rfl⟩, h'⟩
  | removeFront x _ => exact (ListSpec.removeFront x _).simulates h hnodup hfresh
  | remove hin => exact (ListSpec.remove hin).simulates h hnodup hfresh
  | isInList _ x => exact (ListSpec.isInList _ x).simulates h hnodup hfresh

def Holds (outside : Heap α) (s : LinkedList α × List α) : Prop :=
  s.1.Represents outside s.2 ∧ s.2.Nodup

theorem holds_inductive {spec : List α → ListCall α → ListReply α → List α → Prop}
    (hnodup : ∀ l c reply l', spec l c reply l' → l.Nodup → l'.Nodup)
    (hsimulates : ∀ s l c reply l', spec l c reply l' → LinkedList.Represents outside s l →
      l.Nodup → c.Fresh s.heap →
        ∃ s', s.Returns compare c (reply, s') ∧ s'.Represents outside l') :
    (listSystem spec compare outside).Inductive (Holds outside) where
  init s hs := by
    obtain rfl := hs
    exact ⟨⟨[], .new outside, rfl⟩, List.nodup_nil⟩
  step s c s' h hs := by
    obtain ⟨hfresh, reply, hspec, hcall⟩ := hs
    obtain ⟨s₁, hcall₁, h₁⟩ := hsimulates s.1 s.2 c reply s'.2 hspec h.1 h.2 hfresh
    cases hcall.unique hcall₁
    exact ⟨h₁, hnodup _ _ _ _ hspec h.2⟩

theorem sorted_inductive (hcompare : IsComparison compare) (outside : Heap α) :
    (listSystem (SortedSpec compare) compare outside).Inductive
      fun s => s.2.Pairwise fun x y => compare x y ≤ 0 where
  init s hs := by
    obtain rfl := hs
    exact .nil
  step s c s' h hs := by
    obtain ⟨-, reply, hspec, -⟩ := hs
    exact hspec.pairwise hcompare h

end

end Specification

/-- The cells of a list represent the sequence that the calls give, and so do those of a sorted
list, whose sequence stays sorted. -/
theorem lists_refine_sequences {α : Type} [DecidableEq α] (compare : α → α → Int)
    (outside : Heap α) :
    (∀ s l, (listSystem ListSpec compare outside).Reachable (s, l) →
      s.Represents outside l ∧ l.Nodup ∧
      (∀ fuel, l.length < fuel → s.sanityCheck fuel = some ()) ∧
      ∀ c reply l', ListSpec l c reply l' → c.Fresh s.heap →
        ∃ s', s.Returns compare c (reply, s') ∧
          (listSystem ListSpec compare outside).Reachable (s', l')) ∧
    (IsComparison compare →
      ∀ s l, (listSystem (SortedSpec compare) compare outside).Reachable (s, l) →
      s.Represents outside l ∧ l.Nodup ∧ (l.Pairwise fun x y => compare x y ≤ 0) ∧
      (∀ fuel, l.length < fuel → s.sortedSanityCheck compare fuel = some ()) ∧
      (∀ c reply l', SortedSpec compare l c reply l' → c.Fresh s.heap →
        ∃ s', s.Returns compare c (reply, s') ∧
          (listSystem (SortedSpec compare) compare outside).Reachable (s', l')) ∧
      ∀ x, ∃ left right, l = left ++ right ∧
        l.orderedInsert (fun y z => compare y z < 0) x = left ++ x :: right ∧
        (∀ y ∈ left, compare y x ≤ 0) ∧ ∀ y ∈ right, compare x y < 0) := by
  constructor
  · intro s l hr
    have hinv : (listSystem ListSpec compare outside).Inductive (Holds outside) :=
      holds_inductive (fun _ _ _ _ h => h.nodup) fun _ _ _ _ _ h => h.simulates
    obtain ⟨h, hnodup⟩ := hinv.of_reachable hr
    refine ⟨h, hnodup, fun _ => h.sanityCheck, ?_⟩
    intro c reply l' hspec hfresh
    obtain ⟨s', hcall, -⟩ := hspec.simulates h hnodup hfresh
    exact ⟨s', hcall, .step hr ⟨hfresh, reply, hspec, hcall⟩⟩
  · intro hcompare s l hr
    have hinv : (listSystem (SortedSpec compare) compare outside).Inductive (Holds outside) :=
      holds_inductive (fun _ _ _ _ h => h.nodup) fun _ _ _ _ _ h => h.simulates
    obtain ⟨h, hnodup⟩ := hinv.of_reachable hr
    have hsorted := (sorted_inductive hcompare outside).of_reachable hr
    refine ⟨h, hnodup, hsorted, fun _ => h.sortedSanityCheck hsorted, ?_,
      hcompare.insert_split hsorted⟩
    intro c reply l' hspec hfresh
    obtain ⟨s', hcall, -⟩ := hspec.simulates h hnodup hfresh
    exact ⟨s', hcall, .step hr ⟨hfresh, reply, hspec, hcall⟩⟩

private theorem exists_fresh {α : Type} {s : LinkedList α} {l : List α}
    (h : s.Represents (fun _ => none) l) : ∃ element, s.heap element = none := by
  obtain ⟨cells, hcells, -⟩ := h
  obtain ⟨element, hnew⟩ := Infinite.exists_notMem_finset (addresses cells).toFinset
  refine ⟨element, ?_⟩
  have hframe := hcells.frame element
  rw [if_neg fun hmem => hnew (List.mem_toFinset.mpr hmem)] at hframe
  exact hframe.symm

/-- Pairs that are compared by their first number, in a memory without other cells. -/
private abbrev compareFirst (x y : Int × Int) : Int := x.1 - y.1

/-- Four pairs are inserted into a sorted list, of which two each compare equal, and two are taken
out again. Three numbers are added to a list at both ends, and the one in the middle is removed. -/
theorem lists_refine_sequences_int :
    (∃ s s', (listSystem (SortedSpec compareFirst) compareFirst fun _ => none).Reachable
        (s, [(1, 0), (1, 1), (2, 0), (2, 1)]) ∧
      s.sortedSanityCheck compareFirst 5 = some () ∧
      (listSystem (SortedSpec compareFirst) compareFirst fun _ => none).Reachable
        (s', [(1, 1), (2, 1)])) ∧
    ∃ s, (listSystem ListSpec (fun x y : Int => x - y) fun _ => none).Reachable (s, [4, 6]) ∧
      s.sanityCheck 3 = some () := by
  constructor
  · have hcompare : IsComparison compareFirst :=
      ⟨fun x y => by simp only [compareFirst]; omega,
        fun x y z => by simp only [compareFirst]; omega⟩
    have h := (lists_refine_sequences compareFirst fun _ => none).2 hcompare
    have hinsert : ∀ {s l} (x : Int × Int), (listSystem (SortedSpec compareFirst) compareFirst
        fun _ => none).Reachable (s, l) → x ∉ l → ∃ s', (listSystem (SortedSpec compareFirst)
        compareFirst fun _ => none).Reachable
          (s', l.orderedInsert (fun y z => compareFirst y z < 0) x) := by
      intro s l x hr hnew
      obtain ⟨hrep, -, -, -, hcall, -⟩ := h s l hr
      obtain ⟨element, hfree⟩ := exists_fresh hrep
      obtain ⟨s', -, hr'⟩ := hcall _ _ _ (.insert element hnew) hfree
      exact ⟨s', hr'⟩
    obtain ⟨s₁, h₁⟩ := hinsert (2, 0) (.init rfl) (by decide)
    obtain ⟨s₂, h₂⟩ := hinsert (1, 0) h₁ (by decide)
    obtain ⟨s₃, h₃⟩ := hinsert (2, 1) h₂ (by decide)
    obtain ⟨s₄, h₄⟩ := hinsert (1, 1) h₃ (by decide)
    have hr : (listSystem (SortedSpec compareFirst) compareFirst fun _ => none).Reachable
        (s₄, [(1, 0), (1, 1), (2, 0), (2, 1)]) := h₄
    obtain ⟨-, -, -, hsanity, hcall, -⟩ := h s₄ _ hr
    have hmem : ((2, 0) : Int × Int) ∈ [(1, 0), (1, 1), (2, 0), (2, 1)] := by decide
    obtain ⟨s₅, -, h₅⟩ := hcall _ _ _ (.remove hmem) trivial
    obtain ⟨-, -, -, -, hcall₅, -⟩ := h s₅ _ h₅
    obtain ⟨s₆, -, h₆⟩ := hcall₅ _ _ _ (.removeFront (1, 0) [(1, 1), (2, 1)]) trivial
    exact ⟨s₄, s₆, hr, hsanity 5 (by decide), h₆⟩
  · have h := (lists_refine_sequences (fun x y : Int => x - y) fun _ => none).1
    obtain ⟨-, -, -, hcall⟩ := h (.new fun _ => none) [] (.init rfl)
    obtain ⟨s₁, -, h₁⟩ := hcall (.append 0 5) .done [5] (.append 0 (by decide)) rfl
    obtain ⟨hrep₁, -, -, hcall₁⟩ := h s₁ [5] h₁
    obtain ⟨element₁, hfree₁⟩ := exists_fresh hrep₁
    obtain ⟨s₂, -, h₂⟩ := hcall₁ (.append element₁ 6) .done [5, 6]
      (.append element₁ (by decide)) hfree₁
    obtain ⟨hrep₂, -, -, hcall₂⟩ := h s₂ [5, 6] h₂
    obtain ⟨element₂, hfree₂⟩ := exists_fresh hrep₂
    obtain ⟨s₃, -, h₃⟩ := hcall₂ (.prepend element₂ 4) .done [4, 5, 6]
      (.prepend element₂ (by decide)) hfree₂
    obtain ⟨-, -, -, hcall₃⟩ := h s₃ [4, 5, 6] h₃
    have hmem : (5 : Int) ∈ [(4 : Int), 5, 6] := by decide
    obtain ⟨s₄, -, h₄⟩ := hcall₃ _ _ _ (.remove hmem) trivial
    have hr : (listSystem ListSpec (fun x y : Int => x - y) fun _ => none).Reachable
        (s₄, [4, 6]) := h₄
    exact ⟨s₄, hr, (h s₄ _ hr).2.2.1 3 (by decide)⟩

end Nachos

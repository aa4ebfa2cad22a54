import Mathlib.Data.List.Perm.Basic
import Mathlib.Algebra.BigOperators.Group.List.Basic
import Mathlib.Algebra.Ring.Int.Defs

/-!
# Ranges laid end to end

Each item of a list occupies a range of integers. Ranges that cover as much as their sizes add up
to cannot overlap, so they can be arranged end to end.
-/

namespace Framework

variable {α : Type*} (start size : α → Int)

/-- The range of an item. -/
def Occupies (i : α) (x : Int) : Prop := start i ≤ x ∧ x < start i + size i

/-- Every integer from `a` up to `b` is in some range. -/
def Covers (items : List α) (a b : Int) : Prop :=
  ∀ x, a ≤ x → x < b → ∃ i ∈ items, Occupies start size i x

/-- The ranges follow each other from `a` on. -/
def EndToEnd : Int → List α → Prop
  | _, [] => True
  | a, i :: items => start i = a ∧ EndToEnd (a + size i) items

/-- How much the items take in all. -/
def totalSize (items : List α) : Int := (items.map size).sum

variable {start size} {items items' : List α} {a b : Int}

@[simp] theorem totalSize_nil : totalSize size ([] : List α) = 0 := rfl

@[simp] theorem totalSize_cons (i : α) (items : List α) :
    totalSize size (i :: items) = size i + totalSize size items := List.sum_cons

theorem totalSize_append_singleton (items : List α) (i : α) :
    totalSize size (items ++ [i]) = totalSize size items + size i := by
  induction items with
  | nil => simp
  | cons j items ih =>
    rw [List.cons_append, totalSize_cons, totalSize_cons, ih, Int.add_assoc]

theorem totalSize_perm (h : items.Perm items') : totalSize size items = totalSize size items' :=
  (h.map size).sum_eq

theorem totalSize_nonneg (hpos : ∀ i ∈ items, 0 < size i) : 0 ≤ totalSize size items := by
  induction items with
  | nil => exact Int.le_refl 0
  | cons i items ih =>
    have hi := hpos i List.mem_cons_self
    have hrest := ih fun j hj => hpos j (List.mem_cons_of_mem i hj)
    rw [totalSize_cons]
    omega

/-- An item whose range holds the first integer is put in front; the rest covers what is behind
it. -/
theorem Covers.split (h : Covers start size items a b) (hab : a < b) :
    ∃ i rest, items.Perm (i :: rest) ∧ Occupies start size i a ∧
      Covers start size rest (start i + size i) b := by
  obtain ⟨i, hi, hocc⟩ := h a (Int.le_refl a) hab
  obtain ⟨front, back, rfl⟩ := List.append_of_mem hi
  refine ⟨i, front ++ back, List.perm_middle, hocc, ?_⟩
  intro x hx hxb
  obtain ⟨j, hj, hjx⟩ := h x (by have := hocc.2; omega) hxb
  rw [List.mem_append, List.mem_cons] at hj
  rcases hj with hj | rfl | hj
  · exact ⟨j, List.mem_append_left back hj, hjx⟩
  · exact absurd hjx.2 (by omega)
  · exact ⟨j, List.mem_append_right front hj, hjx⟩

theorem Covers.length_le (hpos : ∀ i ∈ items, 0 < size i) (h : Covers start size items a b) :
    b - a ≤ totalSize size items := by
  -- on the number of items, since the one that is put in front can be anywhere in the list
  induction hn : items.length generalizing items a with
  | zero =>
    obtain rfl := List.length_eq_zero_iff.mp hn
    rw [totalSize_nil]
    by_contra hlt
    obtain ⟨i, hi, -⟩ := h a (Int.le_refl a) (by omega)
    cases hi
  | succ n ih =>
    by_cases hab : a < b
    · obtain ⟨i, rest, hperm, hocc, hrest⟩ := h.split hab
      have hlength : rest.length = n := by
        have := hperm.length_eq
        rw [List.length_cons] at this
        omega
      have hle := ih (fun j hj => hpos j (hperm.mem_iff.mpr (List.mem_cons_of_mem i hj)))
        hrest hlength
      rw [totalSize_perm hperm, totalSize_cons]
      have := hocc.1
      omega
    · have := totalSize_nonneg hpos
      omega

/-- Nothing is wasted, so nothing overlaps. -/
theorem Covers.endToEnd (hpos : ∀ i ∈ items, 0 < size i)
    (h : Covers start size items a (a + totalSize size items)) :
    ∃ arranged, items.Perm arranged ∧ EndToEnd start size a arranged := by
  induction hn : items.length generalizing items a with
  | zero =>
    obtain rfl := List.length_eq_zero_iff.mp hn
    exact ⟨[], .nil, trivial⟩
  | succ n ih =>
    have hsome : 0 < totalSize size items := by
      cases items with
      | nil => cases hn
      | cons i items =>
        have hi := hpos i List.mem_cons_self
        have hrest := totalSize_nonneg fun j hj => hpos j (List.mem_cons_of_mem i hj)
        rw [totalSize_cons]
        omega
    obtain ⟨i, rest, hperm, hocc, hrest⟩ := h.split (by omega)
    have hlength : rest.length = n := by
      have := hperm.length_eq
      rw [List.length_cons] at this
      omega
    have hposRest : ∀ j ∈ rest, 0 < size j := fun j hj =>
      hpos j (hperm.mem_iff.mpr (List.mem_cons_of_mem i hj))
    have htotal : totalSize size items = size i + totalSize size rest := by
      rw [totalSize_perm hperm, totalSize_cons]
    have hstart : start i = a := by
      have hle := hrest.length_le hposRest
      have := hocc.1
      omega
    have hend : a + totalSize size items = a + size i + totalSize size rest := by omega
    rw [hstart, hend] at hrest
    obtain ⟨arranged, hrearranged, hchain⟩ := ih hposRest hrest hlength
    exact ⟨i :: arranged, hperm.trans (hrearranged.cons i), hstart, hchain⟩

/-- Ranges that are laid end to end fill the range from the first start to the last end. -/
theorem EndToEnd.occupies_iff (hpos : ∀ i ∈ items, 0 < size i) (h : EndToEnd start size a items)
    (x : Int) :
    (∃ i ∈ items, Occupies start size i x) ↔ a ≤ x ∧ x < a + totalSize size items := by
  induction items generalizing a with
  | nil =>
    constructor
    · rintro ⟨i, hi, -⟩
      cases hi
    · rw [totalSize_nil]
      omega
  | cons i items ih =>
    obtain ⟨hstart, hrest⟩ := h
    have hposRest : ∀ j ∈ items, 0 < size j := fun j hj => hpos j (List.mem_cons_of_mem i hj)
    have hi := hpos i List.mem_cons_self
    have htotal := totalSize_nonneg hposRest
    rw [List.exists_mem_cons_iff, ih hposRest hrest, Occupies, hstart, totalSize_cons]
    omega

end Framework

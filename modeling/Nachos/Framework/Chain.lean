import Mathlib.Data.List.Nodup
import Mathlib.Logic.Function.Basic

/-!
# Chains of linked cells

A cell holds an item and the address of the next cell. A chain leads from a pointer through the
cells of a list to another pointer. A store to an address that is not on the chain keeps it, and
a cell is linked in or taken out by changing the cell before it.
-/

namespace Framework

structure Cell (α : Type*) where
  next : Option Nat
  item : α

/-- A memory of cells. An address without a cell cannot be read. -/
abbrev Heap (α : Type*) := Nat → Option (Cell α)

/-- From the first pointer the cells lead to the last. Each cell is given with its address. -/
inductive Chain {α : Type*} (heap : Heap α) : Option Nat → List (Nat × α) → Option Nat → Prop
  | nil (p : Option Nat) : Chain heap p [] p
  | cons {a : Nat} {x : α} {next : Option Nat} {cells : List (Nat × α)} {e : Option Nat}
      (h : heap a = some ⟨next, x⟩) (hc : Chain heap next cells e) :
      Chain heap (some a) ((a, x) :: cells) e

/-- The addresses of a chain. -/
def addresses {α : Type*} (cells : List (Nat × α)) : List Nat := cells.map Prod.fst

/-- The items of a chain. -/
def items {α : Type*} (cells : List (Nat × α)) : List α := cells.map Prod.snd

section

variable {α : Type*} (c : Nat × α) (cells left right : List (Nat × α))

@[simp] theorem addresses_nil : addresses ([] : List (Nat × α)) = [] := rfl

@[simp] theorem addresses_cons : addresses (c :: cells) = c.1 :: addresses cells := rfl

@[simp] theorem addresses_append :
    addresses (left ++ right) = addresses left ++ addresses right :=
  List.map_append

@[simp] theorem items_nil : items ([] : List (Nat × α)) = [] := rfl

@[simp] theorem items_cons : items (c :: cells) = c.2 :: items cells := rfl

@[simp] theorem items_append : items (left ++ right) = items left ++ items right :=
  List.map_append

end

namespace Chain

variable {α : Type*} {heap : Heap α} {p e : Option Nat} {a b : Nat} {x y : α}
variable {cells left right : List (Nat × α)}

theorem nil_iff : Chain heap p [] e ↔ p = e := by
  constructor
  · intro h
    cases h
    rfl
  · rintro rfl
    exact .nil p

theorem cons_iff : Chain heap p ((a, x) :: cells) e ↔
    p = some a ∧ ∃ next, heap a = some ⟨next, x⟩ ∧ Chain heap next cells e := by
  constructor
  · intro h
    cases h with
    | cons hcell hrest => exact ⟨rfl, _, hcell, hrest⟩
  · rintro ⟨rfl, next, hcell, hrest⟩
    exact .cons hcell hrest

theorem append_iff : Chain heap p (left ++ right) e ↔
    ∃ m, Chain heap p left m ∧ Chain heap m right e := by
  induction left generalizing p with
  | nil => simp [nil_iff]
  | cons c left ih =>
    obtain ⟨a, x⟩ := c
    simp only [List.cons_append, cons_iff, ih]
    constructor
    · rintro ⟨hp, next, hcell, m, hleft, hright⟩
      exact ⟨m, ⟨hp, next, hcell, hleft⟩, hright⟩
    · rintro ⟨m, ⟨hp, next, hcell, hleft⟩, hright⟩
      exact ⟨hp, next, hcell, m, hleft, hright⟩

theorem isSome_of_mem (h : Chain heap p cells e) (ha : a ∈ addresses cells) :
    (heap a).isSome = true := by
  induction h with
  | nil p => cases ha
  | cons hcell _ ih =>
    rcases List.mem_cons.mp ha with rfl | ha
    · rw [hcell]
      rfl
    · exact ih ha

theorem notMem_of_none (h : Chain heap p cells e) (ha : heap a = none) : a ∉ addresses cells := by
  intro hmem
  have hsome := h.isSome_of_mem hmem
  rw [ha] at hsome
  cases hsome

/-- A memory has one chain from a pointer to the end. -/
theorem unique (h : Chain heap p left none) (h' : Chain heap p right none) : left = right := by
  induction left generalizing p right with
  | nil =>
    obtain rfl := nil_iff.mp h
    cases h'
    rfl
  | cons c left ih =>
    obtain ⟨a, x⟩ := c
    obtain ⟨rfl, next, hcell, hrest⟩ := cons_iff.mp h
    cases h' with
    | cons hcell' hrest' =>
      rw [hcell] at hcell'
      cases hcell'
      rw [ih hrest hrest']

/-- A chain that ends does not pass a cell twice. -/
theorem nodup (h : Chain heap p cells none) : (addresses cells).Nodup := by
  induction cells generalizing p with
  | nil => exact List.nodup_nil
  | cons c cells ih =>
    obtain ⟨a, x⟩ := c
    obtain ⟨rfl, next, hcell, hrest⟩ := cons_iff.mp h
    refine List.nodup_cons.mpr ⟨?_, ih hrest⟩
    intro hmem
    -- the second visit would start a shorter chain from the same cell
    obtain ⟨⟨b, y⟩, hin, hb⟩ := List.mem_map.mp hmem
    obtain rfl : b = a := hb
    obtain ⟨left, right, rfl⟩ := List.append_of_mem hin
    obtain ⟨m, -, hagain⟩ := append_iff.mp hrest
    obtain ⟨rfl, -⟩ := cons_iff.mp hagain
    have hlengths := congrArg List.length (h.unique hagain)
    simp only [List.length_cons, List.length_append] at hlengths
    omega

theorem update (h : Chain heap p cells e) (ha : a ∉ addresses cells) (v : Option (Cell α)) :
    Chain (Function.update heap a v) p cells e := by
  induction h with
  | nil p => exact .nil p
  | cons hcell _ ih =>
    have hne : _ ≠ a := (List.ne_of_not_mem_cons ha).symm
    refine .cons ?_ (ih (List.not_mem_of_not_mem_cons ha))
    rw [Function.update_of_ne hne, hcell]

/-- The cell at the split, with both chains beside it. -/
theorem split (h : Chain heap p (left ++ (a, x) :: right) e) :
    Chain heap p left (some a) ∧ ∃ next, heap a = some ⟨next, x⟩ ∧ Chain heap next right e := by
  obtain ⟨m, hleft, hright⟩ := append_iff.mp h
  obtain ⟨rfl, hrest⟩ := cons_iff.mp hright
  exact ⟨hleft, hrest⟩

theorem join {next : Option Nat} (hleft : Chain heap p left (some a))
    (h : heap a = some ⟨next, x⟩) (hright : Chain heap next right e) :
    Chain heap p (left ++ (a, x) :: right) e :=
  append_iff.mpr ⟨some a, hleft, .cons h hright⟩

theorem ne_of_neighbours (h : Chain heap p (left ++ (a, x) :: (b, y) :: right) none) : b ≠ a := by
  have hdistinct := h.nodup
  rw [addresses_append] at hdistinct
  have hbehind := (List.nodup_append.mp hdistinct).2.1
  intro heq
  exact (List.nodup_cons.mp hbehind).1 (heq ▸ List.mem_cons_self)

/-- A new cell takes over the link of the cell that it is put behind. -/
theorem link {next : Option Nat} (h : Chain heap p (left ++ (a, x) :: right) none)
    (hcell : heap a = some ⟨next, x⟩) (hfree : heap b = none) (y : α) :
    Chain (Function.update (Function.update heap b (some ⟨next, y⟩)) a (some ⟨some b, x⟩)) p
      (left ++ (a, x) :: (b, y) :: right) none := by
  have hdistinct := h.nodup
  have hb := h.notMem_of_none hfree
  have hne : b ≠ a := by
    rintro rfl
    rw [hfree] at hcell
    cases hcell
  simp only [addresses_append, addresses_cons, List.nodup_middle, List.nodup_cons,
    List.mem_append, List.mem_cons, not_or] at hdistinct hb
  obtain ⟨hleft, next', hcell', hright⟩ := h.split
  rw [hcell] at hcell'
  cases hcell'
  apply join
  · exact (hleft.update hb.1 _).update hdistinct.1.1 _
  · rw [Function.update_self]
  · refine .cons ?_ ((hright.update hb.2.2 _).update hdistinct.1.2 _)
    rw [Function.update_of_ne hne, Function.update_self]

/-- The cell before takes over the link of a cell that goes. -/
theorem unlink {next : Option Nat} (h : Chain heap p (left ++ (a, x) :: (b, y) :: right) none)
    (hcell : heap b = some ⟨next, y⟩) :
    Chain (Function.update (Function.update heap a (some ⟨next, x⟩)) b none) p
      (left ++ (a, x) :: right) none := by
  have hdistinct := h.nodup
  simp only [addresses_append, addresses_cons, List.nodup_middle, List.nodup_cons,
    List.mem_append, List.mem_cons, not_or] at hdistinct
  obtain ⟨⟨haleft, hne, haright⟩, ⟨hbleft, hbright⟩, -⟩ := hdistinct
  obtain ⟨hleft, next₁, -, hrest⟩ := h.split
  obtain ⟨rfl, next', hcell', hright⟩ := cons_iff.mp hrest
  rw [hcell] at hcell'
  cases hcell'
  apply join
  · exact (hleft.update haleft _).update hbleft _
  · rw [Function.update_of_ne hne, Function.update_self]
  · exact (hright.update haright _).update hbright _

end Chain
end Framework

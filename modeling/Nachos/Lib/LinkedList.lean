import Nachos.Framework.Chain
import Nachos.Framework.Run
import Nachos.Lib.List

/-!
# The cells of a list

`List<T>` and `SortedList<T>` with their pointers and their counter. A failed ASSERT, a
dereference of `NULL` or of a cell that is not there and a loop without end are the `none` of the
definitions. The address that `new` returns is an argument, and so is the number of turns that
the loops may take: a loop that does not end gives `none` for every number.
-/

namespace Nachos

open Framework

/-- `ASSERT`. -/
def assert (condition : Bool) : Option Unit := if condition then some () else none

@[simp] theorem assert_true : assert true = some () := rfl

/-- A list with the memory its cells lie in. -/
structure LinkedList (α : Type) where
  heap : Heap α
  first : Option Nat
  last : Option Nat
  numInList : Int

namespace LinkedList

variable {α : Type}

/-- A list that `List` has just set up. -/
def new (heap : Heap α) : LinkedList α := ⟨heap, none, none, 0⟩

/-- `new ListElement<T>(item)` at the address `element`. -/
def newElement (s : LinkedList α) (element : Nat) (item : α) : LinkedList α :=
  { s with heap := Function.update s.heap element (some ⟨none, item⟩) }

/-- The assignment to `ptr->next`. -/
def setNext (s : LinkedList α) (ptr : Nat) (next : Option Nat) : Option (LinkedList α) := do
  let cell ← s.heap ptr
  some { s with heap := Function.update s.heap ptr (some { cell with next := next }) }

/-- `delete ptr`. -/
def delete (s : LinkedList α) (ptr : Nat) : Option (LinkedList α) := do
  let _ ← s.heap ptr
  some { s with heap := Function.update s.heap ptr none }

def isEmpty (s : LinkedList α) : Bool := s.numInList == 0

section Equality

variable [BEq α]

/-- The loop of `IsInList`. -/
def isInListFrom (heap : Heap α) (item : α) : Nat → Option Nat → Option Bool
  | 0, _ => none
  | _ + 1, none => some false
  | fuel + 1, some a => do
    let cell ← heap a
    if item == cell.item then some true else isInListFrom heap item fuel cell.next

/-- `List<T>::IsInList`. -/
def isInList (fuel : Nat) (s : LinkedList α) (item : α) : Option Bool :=
  isInListFrom s.heap item fuel s.first

def counted (fuel : Nat) (s : LinkedList α) (item : α) : Option (LinkedList α) := do
  let s := { s with numInList := s.numInList + 1 }
  assert (← s.isInList fuel item)
  some s

/-- `List<T>::Append`. -/
def append (fuel : Nat) (s : LinkedList α) (element : Nat) (item : α) : Option (LinkedList α) := do
  let s := s.newElement element item
  assert !(← s.isInList fuel item)
  if s.isEmpty then
    counted fuel { s with first := some element, last := some element } item
  else
    let last ← s.last
    let s ← s.setNext last (some element)
    counted fuel { s with last := some element } item

/-- `List<T>::Prepend`. -/
def prepend (fuel : Nat) (s : LinkedList α) (element : Nat) (item : α) : Option (LinkedList α) := do
  let s := s.newElement element item
  assert !(← s.isInList fuel item)
  if s.isEmpty then
    counted fuel { s with first := some element, last := some element } item
  else
    let s ← s.setNext element s.first
    counted fuel { s with first := some element } item

/-- `List<T>::RemoveFront`. -/
def removeFront (s : LinkedList α) : Option (α × LinkedList α) := do
  assert !s.isEmpty
  let element ← s.first
  let cell ← s.heap element
  let s₁ : LinkedList α :=
    if s.first = s.last then { s with first := none, last := none }
    else { s with first := cell.next }
  let s₂ ← delete { s₁ with numInList := s₁.numInList - 1 } element
  some (cell.item, s₂)

/-- The loop of `Remove`. It returns the pointer at which it stopped. -/
def removeLoop (item : α) (s : LinkedList α) :
    Nat → Nat → Option Nat → Option (LinkedList α × Option Nat)
  | 0, _, _ => none
  | _ + 1, _, none => some (s, none)
  | fuel + 1, prev, some a => do
    let cell ← s.heap a
    if item == cell.item then do
      let s ← s.setNext prev cell.next
      let prevCell ← s.heap prev
      let s := if prevCell.next = none then { s with last := some prev } else s
      let s ← s.delete a
      some ({ s with numInList := s.numInList - 1 }, some a)
    else removeLoop item s fuel a cell.next

/-- `List<T>::Remove`. -/
def remove (fuel : Nat) (s : LinkedList α) (item : α) : Option (LinkedList α) := do
  assert (← s.isInList fuel item)
  let first ← s.first
  let cell ← s.heap first
  let s ←
    if item == cell.item then do
      let (removed, s) ← s.removeFront
      assert (item == removed)
      some s
    else do
      let (s, ptr) ← removeLoop item s fuel first cell.next
      assert ptr.isSome
      some s
  assert !(← s.isInList fuel item)
  some s

/-- The loop of `SortedList<T>::Insert`. The early return gives the list that it leaves. -/
def insertLoop (compare : α → α → Int) (element : Nat) (item : α) (s : LinkedList α) :
    Nat → Nat → Option (Option (LinkedList α))
  | 0, _ => none
  | fuel + 1, ptr => do
    let cell ← s.heap ptr
    match cell.next with
    | none => some none
    | some next => do
      let nextCell ← s.heap next
      if compare item nextCell.item < 0 then do
        let s ← s.setNext element cell.next
        let s ← s.setNext ptr (some element)
        some (some { s with numInList := s.numInList + 1 })
      else insertLoop compare element item s fuel next

/-- `SortedList<T>::Insert`. -/
def insert (compare : α → α → Int) (fuel : Nat) (s : LinkedList α) (element : Nat) (item : α) :
    Option (LinkedList α) := do
  let s := s.newElement element item
  assert !(← s.isInList fuel item)
  if s.isEmpty then
    counted fuel { s with first := some element, last := some element } item
  else
    let first ← s.first
    let cell ← s.heap first
    if compare item cell.item < 0 then
      let s ← s.setNext element s.first
      counted fuel { s with first := some element } item
    else
      match ← insertLoop compare element item s fuel first with
      | some s => some s
      | none =>
        let last ← s.last
        let s ← s.setNext last (some element)
        counted fuel { s with last := some element } item

end Equality

/-- The loop of `List<T>::SanityCheck`. It returns `numFound`. -/
def sanityLoop (s : LinkedList α) : Nat → Option Nat → Int → Option Int
  | 0, _, _ => none
  | fuel + 1, ptr, numFound =>
    if ptr = s.last then some numFound
    else do
      assert (numFound + 1 ≤ s.numInList)
      let a ← ptr
      let cell ← s.heap a
      sanityLoop s fuel cell.next (numFound + 1)

/-- `last->next == NULL`. -/
def lastHasNoNext (s : LinkedList α) : Option Bool := do
  let last ← s.last
  let cell ← s.heap last
  some cell.next.isNone

/-- `List<T>::SanityCheck`. -/
def sanityCheck (fuel : Nat) (s : LinkedList α) : Option Unit := do
  if s.first = none then assert (s.numInList = 0 ∧ s.last = none)
  else if s.first = s.last then
    assert (s.numInList = 1)
    assert (← s.lastHasNoNext)
  else
    let numFound ← s.sanityLoop fuel s.first 1
    assert (numFound = s.numInList)
    assert (← s.lastHasNoNext)

/-- The loop of `SortedList<T>::SanityCheck`. -/
def sortedLoop (compare : α → α → Int) (heap : Heap α) : Nat → Nat → Option Nat → Option Unit
  | 0, _, _ => none
  | _ + 1, _, none => some ()
  | fuel + 1, prev, some a => do
    let prevCell ← heap prev
    let cell ← heap a
    assert (compare prevCell.item cell.item ≤ 0)
    sortedLoop compare heap fuel a cell.next

/-- `SortedList<T>::SanityCheck`. -/
def sortedSanityCheck (compare : α → α → Int) (fuel : Nat) (s : LinkedList α) : Option Unit := do
  s.sanityCheck fuel
  if s.first = s.last then some ()
  else
    let first ← s.first
    let cell ← s.heap first
    sortedLoop compare s.heap fuel first cell.next

/-! ## What the cells represent -/

/-- The cells of a list in the order of their links. Without them the memory is `outside`. -/
structure Layout (outside : Heap α) (s : LinkedList α) (cells : List (Nat × α)) : Prop where
  chain : Chain s.heap s.first cells none
  last : s.last = (addresses cells).getLast?
  numInList : s.numInList = cells.length
  frame : ∀ a, outside a = if a ∈ addresses cells then none else s.heap a

def Represents (outside : Heap α) (s : LinkedList α) (l : List α) : Prop :=
  ∃ cells, s.Layout outside cells ∧ items cells = l

variable {outside : Heap α} {s : LinkedList α} {cells left right : List (Nat × α)}
variable {element a b : Nat} {item x y : α} {next : Option Nat}

private theorem setNext_eq (h : s.heap a = some ⟨next, x⟩) (next' : Option Nat) :
    s.setNext a next' = some { s with heap := Function.update s.heap a (some ⟨next', x⟩) } := by
  rw [setNext, h]
  rfl

private theorem delete_eq {heap : Heap α} (h : heap a = some ⟨next, x⟩) (first last : Option Nat)
    (numInList : Int) : delete ⟨heap, first, last, numInList⟩ a =
      some ⟨Function.update heap a none, first, last, numInList⟩ := by
  simp only [delete, h, Option.bind_eq_bind, Option.bind_some]

private theorem setNext_newElement (s : LinkedList α) (element : Nat) (item : α)
    (next : Option Nat) :
    (s.newElement element item).setNext element next =
      some { s with heap := Function.update s.heap element (some ⟨next, item⟩) } := by
  have hcell : (s.newElement element item).heap element = some ⟨none, item⟩ :=
    Function.update_self ..
  rw [setNext_eq hcell]
  simp only [newElement, Function.update_idem]

private theorem update_free (hfree : s.heap element = none) (hcell : s.heap a = some ⟨next, x⟩)
    (v : Option (Cell α)) : Function.update s.heap element v a = some ⟨next, x⟩ := by
  have hne : a ≠ element := by
    rintro rfl
    rw [hfree] at hcell
    cases hcell
  rw [Function.update_of_ne hne, hcell]

private theorem heap_newElement (hfree : s.heap element = none)
    (hcell : s.heap a = some ⟨next, x⟩) :
    (s.newElement element item).heap a = some ⟨next, x⟩ :=
  update_free hfree hcell _

namespace Layout

theorem new (outside : Heap α) : (LinkedList.new outside).Layout outside [] where
  chain := .nil none
  last := rfl
  numInList := rfl
  frame _ := rfl

private theorem isEmpty_eq (h : s.Layout outside cells) : s.isEmpty = cells.isEmpty := by
  rw [Bool.eq_iff_iff, isEmpty, h.numInList, beq_iff_eq, Int.natCast_eq_zero,
    List.length_eq_zero_iff, List.isEmpty_iff]

private theorem isEmpty_newElement (h : s.Layout outside cells) (element : Nat) (item : α) :
    (s.newElement element item).isEmpty = cells.isEmpty :=
  h.isEmpty_eq

private theorem outside_eq_none (h : s.Layout outside cells) (hfree : s.heap element = none) :
    outside element = none := by
  rw [h.frame element, hfree, ite_self]

private theorem prepended (h : s.Layout outside cells) (hfree : s.heap element = none) (item : α) :
    Layout outside ⟨Function.update s.heap element (some ⟨s.first, item⟩), some element,
      some ((addresses cells).getLastD element), s.numInList + 1⟩ ((element, item) :: cells) where
  chain := .cons (Function.update_self ..) (h.chain.update (h.chain.notMem_of_none hfree) _)
  last := by simp [List.getLast?_cons]
  numInList := by
    simp only [h.numInList, List.length_cons]
    rfl
  frame c := by
    by_cases hc : c = element
    · rw [hc, h.outside_eq_none hfree]
      simp
    · simp [h.frame c, hc]

theorem linked (h : s.Layout outside (left ++ (a, x) :: right))
    (hcell : s.heap a = some ⟨next, x⟩) (hfree : s.heap element = none) (item : α) :
    Layout outside ⟨Function.update (Function.update s.heap element (some ⟨next, item⟩)) a
      (some ⟨some element, x⟩), s.first, some ((addresses right).getLastD element),
      s.numInList + 1⟩ (left ++ (a, x) :: (element, item) :: right) where
  chain := h.chain.link hcell hfree item
  last := by simp [List.getLast?_append, List.getLast?_cons]
  numInList := by
    simp only [h.numInList, List.length_append, List.length_cons]
    rfl
  frame c := by
    by_cases hc : c = element
    · rw [hc, h.outside_eq_none hfree]
      simp
    · by_cases hca : c = a
      · rw [h.frame c]
        simp [hca]
      · simp [h.frame c, hc, hca]

theorem tail (h : s.Layout outside ((a, x) :: cells)) (hcell : s.heap a = some ⟨next, x⟩) :
    Layout outside ⟨Function.update s.heap a none, next, (addresses cells).getLast?,
      s.numInList - 1⟩ cells where
  chain := by
    obtain ⟨-, next', hcell', hrest⟩ := Chain.cons_iff.mp h.chain
    rw [hcell] at hcell'
    cases hcell'
    exact hrest.update (List.nodup_cons.mp h.chain.nodup).1 _
  last := rfl
  numInList := by simp [h.numInList]
  frame c := by
    by_cases hc : c = a
    · rw [h.frame c]
      simp [hc]
    · simp [h.frame c, hc]

private theorem unlinked (h : s.Layout outside (left ++ (a, x) :: (b, y) :: right))
    (hcell : s.heap b = some ⟨next, y⟩) :
    Layout outside ⟨Function.update (Function.update s.heap a (some ⟨next, x⟩)) b none, s.first,
      some ((addresses right).getLastD a), s.numInList - 1⟩ (left ++ (a, x) :: right) where
  chain := h.chain.unlink hcell
  last := by simp [List.getLast?_append, List.getLast?_cons]
  numInList := by
    simp only [h.numInList, List.length_append, List.length_cons]
    omega
  frame c := by
    by_cases hc : c = b
    · rw [h.frame c]
      simp [hc]
    · by_cases hca : c = a
      · rw [h.frame c]
        simp [hca]
      · simp [h.frame c, hc, hca]

/-! ## One lemma for each operation -/

theorem removeFront (h : s.Layout outside ((a, x) :: cells)) :
    ∃ s', s.removeFront = some (x, s') ∧ s'.Layout outside cells := by
  have hempty : s.isEmpty = false := h.isEmpty_eq
  obtain ⟨hfirst, next, hcell, hrest⟩ := Chain.cons_iff.mp h.chain
  have hcells := h.tail hcell
  simp only [LinkedList.removeFront, hempty, hfirst, hcell, Option.bind_eq_bind, Option.bind_some,
    Bool.not_false, assert_true]
  by_cases hone : cells = []
  · subst hone
    obtain rfl := Chain.nil_iff.mp hrest
    have hlast : some a = s.last := h.last.symm
    simp only [if_pos hlast, delete_eq hcell, Option.bind_some]
    exact ⟨_, rfl, hcells⟩
  · -- the last cell is another one
    have hlast : s.last = (addresses cells).getLast? := by
      obtain ⟨c, cells, rfl⟩ := List.exists_cons_of_ne_nil hone
      rw [h.last]
      simp [List.getLast?_cons]
    have hne : ¬ some a = s.last := by
      intro heq
      rw [hlast] at heq
      exact (List.nodup_cons.mp h.chain.nodup).1 (List.mem_of_getLast? heq.symm)
    rw [← hlast] at hcells
    simp only [if_neg hne, delete_eq hcell, Option.bind_some]
    exact ⟨_, rfl, hcells⟩

section Operations

variable [BEq α]

private theorem isInListFrom_eq {heap : Heap α} {p : Option Nat} {fuel : Nat}
    (h : Chain heap p cells none) (hfuel : cells.length < fuel) (item : α) :
    isInListFrom heap item fuel p = some ((items cells).any (item == ·)) := by
  induction cells generalizing p fuel with
  | nil =>
    obtain rfl := Chain.nil_iff.mp h
    obtain ⟨fuel, rfl⟩ := Nat.exists_eq_add_of_lt hfuel
    rfl
  | cons c cells ih =>
    obtain ⟨a, x⟩ := c
    obtain ⟨rfl, next, hcell, hrest⟩ := Chain.cons_iff.mp h
    cases fuel with
    | zero => cases hfuel
    | succ fuel =>
      simp only [isInListFrom, hcell, Option.bind_eq_bind, Option.bind_some, items_cons,
        List.any_cons]
      by_cases heq : (item == x) = true
      · simp [heq]
      · rw [if_neg heq, ih hrest (Nat.lt_of_succ_lt_succ hfuel), Bool.eq_false_iff.mpr heq,
          Bool.false_or]

theorem isInList_eq {fuel : Nat} (h : s.Layout outside cells) (hfuel : cells.length < fuel)
    (item : α) : s.isInList fuel item = some ((items cells).any (item == ·)) :=
  isInListFrom_eq h.chain hfuel item

private theorem isInList_newElement {fuel : Nat} (h : s.Layout outside cells)
    (hfree : s.heap element = none) (hnew : (items cells).any (item == ·) = false)
    (hfuel : cells.length < fuel) :
    (s.newElement element item).isInList fuel item = some false := by
  rw [← hnew]
  exact isInListFrom_eq (h.chain.update (h.chain.notMem_of_none hfree) _) hfuel item

private theorem counted_eq {fuel : Nat}
    (h : Layout outside { s with numInList := s.numInList + 1 } cells)
    (hin : (items cells).any (item == ·) = true) (hfuel : cells.length < fuel) :
    s.counted fuel item = some { s with numInList := s.numInList + 1 } := by
  simp only [counted, h.isInList_eq hfuel, hin, Option.bind_eq_bind, Option.bind_some, assert_true]

private theorem counted_first (h : s.Layout outside []) (hfree : s.heap element = none)
    (hself : (item == item) = true) :
    ∃ s', (∀ fuel, 1 < fuel → counted fuel
      { s.newElement element item with first := some element, last := some element } item =
        some s') ∧ s'.Layout outside [(element, item)] := by
  have hcells := h.prepended hfree item
  rw [Chain.nil_iff.mp h.chain] at hcells
  exact ⟨_, fun fuel hfuel => counted_eq hcells (by simp [hself]) hfuel, hcells⟩

private theorem counted_front {c : Nat × α} (h : s.Layout outside (c :: cells))
    (hfree : s.heap element = none) (hself : (item == item) = true) :
    ∃ s', (∀ fuel, cells.length + 2 < fuel →
      (((s.newElement element item).setNext element s.first).bind fun s =>
        counted fuel { s with first := some element } item) = some s') ∧
          s'.Layout outside ((element, item) :: c :: cells) := by
  have hlast : some ((addresses (c :: cells)).getLastD element) = s.last := by
    rw [h.last]
    simp [List.getLast?_cons]
  have hcells := h.prepended hfree item
  rw [hlast] at hcells
  refine ⟨_, ?_, hcells⟩
  intro fuel hfuel
  rw [setNext_newElement, Option.bind_some]
  exact counted_eq hcells (by simp [hself]) hfuel

private theorem counted_back {c : Nat × α} (h : s.Layout outside (c :: cells))
    (hfree : s.heap element = none) (hself : (item == item) = true) :
    ∃ s', (∀ fuel, cells.length + 2 < fuel → ((s.newElement element item).last.bind fun last =>
      ((s.newElement element item).setNext last (some element)).bind fun s =>
        counted fuel { s with last := some element } item) = some s') ∧
          s'.Layout outside (c :: cells ++ [(element, item)]) := by
  rcases List.eq_nil_or_concat' (c :: cells) with hnil | ⟨left, ⟨a, x⟩, hsplit⟩
  · cases hnil
  · have hlength : cells.length = left.length := by
      simpa using congrArg List.length hsplit
    rw [hsplit] at h
    have hlast : (s.newElement element item).last = some a := by
      show s.last = some a
      rw [h.last]
      simp
    obtain ⟨-, next, hcell, hend⟩ := h.chain.split
    obtain rfl := Chain.nil_iff.mp hend
    have hcells := h.linked hcell hfree item
    rw [hsplit, hlength, List.append_assoc]
    refine ⟨_, ?_, hcells⟩
    intro fuel hfuel
    rw [hlast, Option.bind_some, setNext_eq (heap_newElement hfree hcell), Option.bind_some]
    refine counted_eq hcells (by simp [hself]) ?_
    rw [List.length_append]
    exact hfuel

theorem append (h : s.Layout outside cells) (hfree : s.heap element = none)
    (hnew : (items cells).any (item == ·) = false) (hself : (item == item) = true) :
    ∃ s', (∀ fuel, cells.length + 1 < fuel → s.append fuel element item = some s') ∧
      s'.Layout outside (cells ++ [(element, item)]) := by
  cases cells with
  | nil =>
    obtain ⟨s', hrun, hcells⟩ := counted_first h hfree hself
    refine ⟨s', ?_, hcells⟩
    intro fuel hfuel
    simp only [LinkedList.append, isInList_newElement h hfree hnew (Nat.lt_of_succ_lt hfuel),
      Option.bind_eq_bind, Option.bind_some, Bool.not_false, assert_true, h.isEmpty_newElement,
      List.isEmpty_nil, if_true]
    exact hrun fuel hfuel
  | cons c cells =>
    obtain ⟨s', hrun, hcells⟩ := counted_back h hfree hself
    refine ⟨s', ?_, hcells⟩
    intro fuel hfuel
    simp only [LinkedList.append, isInList_newElement h hfree hnew (Nat.lt_of_succ_lt hfuel),
      Option.bind_eq_bind, Option.bind_some, Bool.not_false, assert_true, h.isEmpty_newElement,
      List.isEmpty_cons, Bool.false_eq_true, if_false]
    exact hrun fuel hfuel

theorem prepend (h : s.Layout outside cells) (hfree : s.heap element = none)
    (hnew : (items cells).any (item == ·) = false) (hself : (item == item) = true) :
    ∃ s', (∀ fuel, cells.length + 1 < fuel → s.prepend fuel element item = some s') ∧
      s'.Layout outside ((element, item) :: cells) := by
  cases cells with
  | nil =>
    obtain ⟨s', hrun, hcells⟩ := counted_first h hfree hself
    refine ⟨s', ?_, hcells⟩
    intro fuel hfuel
    simp only [LinkedList.prepend, isInList_newElement h hfree hnew (Nat.lt_of_succ_lt hfuel),
      Option.bind_eq_bind, Option.bind_some, Bool.not_false, assert_true, h.isEmpty_newElement,
      List.isEmpty_nil, if_true]
    exact hrun fuel hfuel
  | cons c cells =>
    obtain ⟨s', hrun, hcells⟩ := counted_front h hfree hself
    refine ⟨s', ?_, hcells⟩
    intro fuel hfuel
    simp only [LinkedList.prepend, isInList_newElement h hfree hnew (Nat.lt_of_succ_lt hfuel),
      Option.bind_eq_bind, Option.bind_some, Bool.not_false, assert_true, h.isEmpty_newElement,
      List.isEmpty_cons, Bool.false_eq_true, if_false]
    exact hrun fuel hfuel

private theorem removeLoop_spec {prev : Nat} (h : s.Layout outside (left ++ (prev, x) :: right))
    (hcell : s.heap prev = some ⟨next, x⟩) (hin : (items right).any (item == ·) = true) :
    ∃ s' p, (∀ fuel, right.length < fuel → removeLoop item s fuel prev next = some (s', some p)) ∧
      s'.Layout outside (left ++ (prev, x) :: right.eraseP fun c => item == c.2) := by
  induction right generalizing left prev x next with
  | nil => cases hin
  | cons c right ih =>
    obtain ⟨b, y⟩ := c
    obtain ⟨-, next₁, hcell₁, hrest⟩ := h.chain.split
    rw [hcell] at hcell₁
    cases hcell₁
    obtain ⟨rfl, next₂, hcell₂, hright⟩ := Chain.cons_iff.mp hrest
    by_cases heq : (item == y) = true
    · have herase : ((b, y) :: right).eraseP (fun c => item == c.2) = right :=
        List.eraseP_cons_of_pos heq
      have hne : b ≠ prev := h.chain.ne_of_neighbours
      have hcell₃ : Function.update s.heap prev (some ⟨next₂, x⟩) b = some ⟨next₂, y⟩ := by
        rw [Function.update_of_ne hne, hcell₂]
      have hlast : (if next₂ = none then some prev else s.last) =
          some ((addresses right).getLastD prev) := by
        rw [h.last]
        cases right with
        | nil => simp [Chain.nil_iff.mp hright]
        | cons c right =>
          obtain ⟨hnext, -⟩ := Chain.cons_iff.mp hright
          simp [hnext, List.getLast?_append, List.getLast?_cons]
      have hcells := h.unlinked hcell₂
      rw [← hlast] at hcells
      rw [herase]
      refine ⟨_, b, ?_, hcells⟩
      intro fuel hfuel
      cases fuel with
      | zero => cases hfuel
      | succ fuel =>
        simp only [removeLoop, hcell₂, heq, setNext_eq hcell, Option.bind_eq_bind,
          Option.bind_some, if_true, Function.update_self]
        by_cases hnext : next₂ = none
        · simp only [if_pos hnext, delete_eq hcell₃, Option.bind_some]
        · simp only [if_neg hnext, delete_eq hcell₃, Option.bind_some]
    · have herase : ((b, y) :: right).eraseP (fun c => item == c.2) =
          (b, y) :: right.eraseP fun c => item == c.2 :=
        List.eraseP_cons_of_neg heq
      have hmore : (items right).any (item == ·) = true := by
        rw [items_cons, List.any_cons, Bool.eq_false_iff.mpr heq, Bool.false_or] at hin
        exact hin
      rw [List.append_cons] at h
      obtain ⟨s', p, hloop, hcells⟩ := ih h hcell₂ hmore
      rw [← List.append_cons] at hcells
      rw [herase]
      refine ⟨s', p, ?_, hcells⟩
      intro fuel hfuel
      cases fuel with
      | zero => cases hfuel
      | succ fuel =>
        simp only [removeLoop, hcell₂, Option.bind_eq_bind, Option.bind_some]
        rw [if_neg heq]
        exact hloop fuel (Nat.lt_of_succ_lt_succ hfuel)

theorem remove (h : s.Layout outside cells) (hin : (items cells).any (item == ·) = true)
    (hout : (items (cells.eraseP fun c => item == c.2)).any (item == ·) = false) :
    ∃ s', (∀ fuel, cells.length < fuel → s.remove fuel item = some s') ∧
      s'.Layout outside (cells.eraseP fun c => item == c.2) := by
  cases cells with
  | nil => cases hin
  | cons c cells =>
    obtain ⟨a, x⟩ := c
    obtain ⟨hfirst, next, hcell, -⟩ := Chain.cons_iff.mp h.chain
    by_cases heq : (item == x) = true
    · have herase : ((a, x) :: cells).eraseP (fun c => item == c.2) = cells :=
        List.eraseP_cons_of_pos heq
      rw [herase] at hout ⊢
      obtain ⟨s', hfront, hcells⟩ := h.removeFront
      refine ⟨s', ?_, hcells⟩
      intro fuel hfuel
      simp only [LinkedList.remove, h.isInList_eq hfuel, hin, Option.bind_eq_bind,
        Option.bind_some, assert_true, hfirst, hcell, hfront, heq, if_true,
        hcells.isInList_eq (Nat.lt_of_succ_lt hfuel), hout, Bool.not_false]
    · have herase : ((a, x) :: cells).eraseP (fun c => item == c.2) =
          (a, x) :: cells.eraseP fun c => item == c.2 :=
        List.eraseP_cons_of_neg heq
      have hmore : (items cells).any (item == ·) = true := by
        rw [items_cons, List.any_cons, Bool.eq_false_iff.mpr heq, Bool.false_or] at hin
        exact hin
      have hlength : ((a, x) :: cells.eraseP fun c => item == c.2).length ≤ cells.length + 1 :=
        Nat.succ_le_succ List.eraseP_sublist.length_le
      rw [herase] at hout ⊢
      have hsplit : s.Layout outside ([] ++ (a, x) :: cells) := h
      obtain ⟨s', p, hloop, hcells⟩ := hsplit.removeLoop_spec hcell hmore
      refine ⟨s', ?_, hcells⟩
      intro fuel hfuel
      simp only [LinkedList.remove, h.isInList_eq hfuel, hin, Option.bind_eq_bind,
        Option.bind_some, assert_true, hfirst, hcell, if_neg heq,
        hloop fuel (Nat.lt_of_succ_lt hfuel), Option.isSome_some]
      rw [hcells.isInList_eq (lt_of_le_of_lt hlength hfuel)]
      simp only [List.nil_append, hout, Option.bind_some, Bool.not_false, assert_true]

omit [BEq α] in
private theorem insertLoop_spec (compare : α → α → Int) {ptr : Nat}
    (h : s.Layout outside (left ++ (ptr, x) :: right)) (hfree : s.heap element = none) :
    ((∀ y ∈ items right, ¬ compare item y < 0) ∧ ∀ fuel, right.length < fuel →
      insertLoop compare element item (s.newElement element item) fuel ptr = some none) ∨
    ∃ s', (∀ fuel, right.length < fuel →
      insertLoop compare element item (s.newElement element item) fuel ptr = some (some s')) ∧
        s'.Layout outside (left ++ (ptr, x) ::
          right.orderedInsert (fun c d => compare c.2 d.2 < 0) (element, item)) := by
  induction right generalizing left ptr x with
  | nil =>
    obtain ⟨-, next, hcell, hend⟩ := h.chain.split
    obtain rfl := Chain.nil_iff.mp hend
    refine .inl ⟨by simp, ?_⟩
    intro fuel hfuel
    cases fuel with
    | zero => cases hfuel
    | succ fuel =>
      simp only [insertLoop, heap_newElement hfree hcell, Option.bind_eq_bind, Option.bind_some]
  | cons c right ih =>
    obtain ⟨b, y⟩ := c
    obtain ⟨-, next, hcell, hrest⟩ := h.chain.split
    obtain ⟨rfl, next₂, hcell₂, -⟩ := Chain.cons_iff.mp hrest
    rw [List.orderedInsert_cons]
    by_cases hlt : compare item y < 0
    · have hlast : some ((addresses ((b, y) :: right)).getLastD element) = s.last := by
        rw [h.last]
        simp [List.getLast?_append, List.getLast?_cons]
      have hcells := h.linked hcell hfree item
      rw [hlast] at hcells
      rw [if_pos hlt]
      refine .inr ⟨_, ?_, hcells⟩
      intro fuel hfuel
      cases fuel with
      | zero => cases hfuel
      | succ fuel =>
        simp only [insertLoop, heap_newElement hfree hcell, heap_newElement hfree hcell₂,
          Option.bind_eq_bind, Option.bind_some]
        rw [if_pos hlt, setNext_newElement, Option.bind_some,
          setNext_eq (update_free hfree hcell _), Option.bind_some]
    · have hturn : ∀ fuel, insertLoop compare element item (s.newElement element item) (fuel + 1)
          ptr = insertLoop compare element item (s.newElement element item) fuel b := by
        intro fuel
        simp only [insertLoop, heap_newElement hfree hcell, heap_newElement hfree hcell₂,
          Option.bind_eq_bind, Option.bind_some]
        rw [if_neg hlt]
      rw [List.append_cons] at h
      rw [if_neg hlt]
      rcases ih h with ⟨hall, hloop⟩ | ⟨s', hloop, hcells⟩
      · refine .inl ⟨?_, ?_⟩
        · intro z hz
          rcases List.mem_cons.mp hz with rfl | hz
          · exact hlt
          · exact hall z hz
        · intro fuel hfuel
          cases fuel with
          | zero => cases hfuel
          | succ fuel => rw [hturn, hloop fuel (Nat.lt_of_succ_lt_succ hfuel)]
      · rw [← List.append_cons] at hcells
        refine .inr ⟨s', ?_, hcells⟩
        intro fuel hfuel
        cases fuel with
        | zero => cases hfuel
        | succ fuel => rw [hturn, hloop fuel (Nat.lt_of_succ_lt_succ hfuel)]

private theorem insert_cons (compare : α → α → Int) (h : s.Layout outside ((a, x) :: cells))
    (hfree : s.heap element = none) (hnew : (items ((a, x) :: cells)).any (item == ·) = false)
    {fuel : Nat} (hfuel : cells.length + 1 < fuel) : s.insert compare fuel element item =
      if compare item x < 0 then
        ((s.newElement element item).setNext element s.first).bind fun s =>
          counted fuel { s with first := some element } item
      else (insertLoop compare element item (s.newElement element item) fuel a).bind fun r =>
        match r with
        | some s => some s
        | none => (s.newElement element item).last.bind fun last =>
          ((s.newElement element item).setNext last (some element)).bind fun s =>
            counted fuel { s with last := some element } item := by
  obtain ⟨hfirst, next, hcell, -⟩ := Chain.cons_iff.mp h.chain
  have hfirst' : (s.newElement element item).first = some a := hfirst
  simp only [LinkedList.insert, isInList_newElement h hfree hnew hfuel, Option.bind_eq_bind,
    Option.bind_some, Bool.not_false, assert_true, h.isEmpty_newElement, List.isEmpty_cons,
    Bool.false_eq_true, if_false]
  rw [hfirst', Option.bind_some, heap_newElement hfree hcell, Option.bind_some, hfirst]

theorem insert (compare : α → α → Int) (h : s.Layout outside cells) (hfree : s.heap element = none)
    (hnew : (items cells).any (item == ·) = false) (hself : (item == item) = true) :
    ∃ s', (∀ fuel, cells.length + 1 < fuel → s.insert compare fuel element item = some s') ∧
      s'.Layout outside (cells.orderedInsert (fun c d => compare c.2 d.2 < 0) (element, item)) := by
  cases cells with
  | nil =>
    obtain ⟨s', hrun, hcells⟩ := counted_first h hfree hself
    refine ⟨s', ?_, hcells⟩
    intro fuel hfuel
    simp only [LinkedList.insert, isInList_newElement h hfree hnew (Nat.lt_of_succ_lt hfuel),
      Option.bind_eq_bind, Option.bind_some, Bool.not_false, assert_true, h.isEmpty_newElement,
      List.isEmpty_nil, if_true]
    exact hrun fuel hfuel
  | cons c cells =>
    obtain ⟨a, x⟩ := c
    rw [List.orderedInsert_cons]
    by_cases hlt : compare item x < 0
    · obtain ⟨s', hrun, hcells⟩ := counted_front h hfree hself
      rw [if_pos hlt]
      refine ⟨s', ?_, hcells⟩
      intro fuel hfuel
      rw [insert_cons compare h hfree hnew (Nat.lt_of_succ_lt hfuel), if_pos hlt]
      exact hrun fuel hfuel
    · have hsplit : s.Layout outside ([] ++ (a, x) :: cells) := h
      rw [if_neg hlt]
      rcases hsplit.insertLoop_spec compare hfree with ⟨hall, hloop⟩ | ⟨s', hloop, hcells⟩
      · -- nothing is bigger, and the item goes behind the last
        have hend : cells.orderedInsert (fun c d => compare c.2 d.2 < 0) (element, item) =
            cells ++ [(element, item)] := by
          apply orderedInsert_eq_append
          intro c hc
          exact hall c.2 (List.mem_map_of_mem hc)
        obtain ⟨s', hrun, hcells⟩ := counted_back h hfree hself
        rw [hend, ← List.cons_append]
        refine ⟨s', ?_, hcells⟩
        intro fuel hfuel
        have hless : cells.length + 1 < fuel := Nat.lt_of_succ_lt hfuel
        rw [insert_cons compare h hfree hnew hless, if_neg hlt,
          hloop fuel (Nat.lt_of_succ_lt hless), Option.bind_some]
        exact hrun fuel hfuel
      · refine ⟨s', ?_, hcells⟩
        intro fuel hfuel
        have hless : cells.length + 1 < fuel := Nat.lt_of_succ_lt hfuel
        rw [insert_cons compare h hfree hnew hless, if_neg hlt,
          hloop fuel (Nat.lt_of_succ_lt hless), Option.bind_some]

end Operations

/-! ## The checks -/

private theorem sanityLoop_eq {c : Nat × α} {p : Option Nat} {numFound : Int} {fuel : Nat}
    (h : Chain s.heap p (c :: cells) none) (hlast : s.last = (addresses (c :: cells)).getLast?)
    (hcount : numFound + cells.length ≤ s.numInList) (hfuel : cells.length < fuel) :
    s.sanityLoop fuel p numFound = some (numFound + cells.length) := by
  induction cells generalizing c p numFound fuel with
  | nil =>
    obtain ⟨rfl, -⟩ := Chain.cons_iff.mp h
    obtain ⟨fuel, rfl⟩ := Nat.exists_eq_add_of_lt hfuel
    have hstop : some c.1 = s.last := hlast.symm
    rw [sanityLoop, if_pos hstop]
    simp
  | cons d cells ih =>
    obtain ⟨rfl, next, hcell, hrest⟩ := Chain.cons_iff.mp h
    have hlast' : s.last = (addresses (d :: cells)).getLast? := by
      rw [hlast]
      simp [List.getLast?_cons]
    have hgo : ¬ some c.1 = s.last := by
      intro heq
      rw [hlast'] at heq
      exact (List.nodup_cons.mp h.nodup).1 (List.mem_of_getLast? heq.symm)
    rw [List.length_cons] at hcount
    have hmore : decide (numFound + 1 ≤ s.numInList) = true := by
      rw [decide_eq_true_iff]
      omega
    cases fuel with
    | zero => cases hfuel
    | succ fuel =>
      have hrun : s.sanityLoop fuel next (numFound + 1) = some (numFound + 1 + cells.length) :=
        ih hrest hlast' (by omega) (Nat.lt_of_succ_lt_succ hfuel)
      rw [sanityLoop, if_neg hgo]
      simp only [hmore, hcell, assert_true, Option.bind_eq_bind, Option.bind_some, hrun]
      rw [List.length_cons]
      congr 1
      omega

private theorem lastHasNoNext_eq (h : s.Layout outside cells) (hne : cells ≠ []) :
    s.lastHasNoNext = some true := by
  rcases List.eq_nil_or_concat' cells with rfl | ⟨left, ⟨a, x⟩, rfl⟩
  · exact absurd rfl hne
  · obtain ⟨-, next, hcell, hend⟩ := h.chain.split
    obtain rfl := Chain.nil_iff.mp hend
    have hlast : s.last = some a := by
      rw [h.last]
      simp
    simp only [lastHasNoNext, hlast, hcell, Option.bind_eq_bind, Option.bind_some]
    rfl

theorem sanityCheck {fuel : Nat} (h : s.Layout outside cells) (hfuel : cells.length < fuel) :
    s.sanityCheck fuel = some () := by
  have hcount := h.numInList
  have hlast := h.last
  cases cells with
  | nil =>
    rw [LinkedList.sanityCheck, if_pos (Chain.nil_iff.mp h.chain), hcount, hlast]
    rfl
  | cons c cells =>
    obtain ⟨hfirst, -⟩ := Chain.cons_iff.mp h.chain
    have hnext := h.lastHasNoNext_eq (List.cons_ne_nil _ _)
    have hsome : ¬ s.first = none := by
      rw [hfirst]
      nofun
    rw [LinkedList.sanityCheck, if_neg hsome, hnext]
    cases cells with
    | nil =>
      have hone : s.first = s.last := hfirst.trans hlast.symm
      rw [if_pos hone, hcount]
      rfl
    | cons d cells =>
      have hseveral : ¬ s.first = s.last := by
        intro heq
        rw [hfirst, hlast, addresses_cons, addresses_cons, List.getLast?_cons_cons] at heq
        exact (List.nodup_cons.mp h.chain.nodup).1 (List.mem_of_getLast? heq.symm)
      have hfound : 1 + ((d :: cells).length : Int) = s.numInList := by
        rw [hcount]
        simp only [List.length_cons]
        omega
      have hloop : s.sanityLoop fuel s.first 1 = some (1 + ((d :: cells).length : Int)) :=
        sanityLoop_eq h.chain hlast hfound.le (Nat.lt_of_succ_lt hfuel)
      rw [if_neg hseveral, hloop, hfound]
      simp

private theorem sortedLoop_eq {compare : α → α → Int} {heap : Heap α} {prev fuel : Nat} {x : α}
    {next : Option Nat} (hcell : heap prev = some ⟨next, x⟩) (h : Chain heap next cells none)
    (hsorted : (x :: items cells).IsChain fun y z => compare y z ≤ 0)
    (hfuel : cells.length < fuel) : sortedLoop compare heap fuel prev next = some () := by
  induction cells generalizing prev x next fuel with
  | nil =>
    obtain rfl := Chain.nil_iff.mp h
    obtain ⟨fuel, rfl⟩ := Nat.exists_eq_add_of_lt hfuel
    rfl
  | cons c cells ih =>
    obtain ⟨rfl, next₂, hcell₂, hrest⟩ := Chain.cons_iff.mp h
    obtain ⟨hle, hrest'⟩ := List.isChain_cons_cons.mp hsorted
    have hassert : decide (compare x c.2 ≤ 0) = true := decide_eq_true hle
    cases fuel with
    | zero => cases hfuel
    | succ fuel =>
      simp only [sortedLoop, hcell, hcell₂, hassert, assert_true, Option.bind_eq_bind,
        Option.bind_some]
      exact ih hcell₂ hrest hrest' (Nat.lt_of_succ_lt_succ hfuel)

theorem sortedSanityCheck {compare : α → α → Int} {fuel : Nat} (h : s.Layout outside cells)
    (hsorted : (items cells).IsChain fun x y => compare x y ≤ 0) (hfuel : cells.length < fuel) :
    s.sortedSanityCheck compare fuel = some () := by
  simp only [LinkedList.sortedSanityCheck, h.sanityCheck hfuel, Option.bind_eq_bind,
    Option.bind_some]
  by_cases hone : s.first = s.last
  · rw [if_pos hone]
  · rw [if_neg hone]
    cases cells with
    | nil => exact absurd ((Chain.nil_iff.mp h.chain).trans h.last.symm) hone
    | cons c cells =>
      obtain ⟨hfirst, next, hcell, hrest⟩ := Chain.cons_iff.mp h.chain
      rw [hfirst, Option.bind_some, hcell, Option.bind_some]
      exact sortedLoop_eq hcell hrest hsorted (Nat.lt_of_succ_lt hfuel)

end Layout

end LinkedList
end Nachos

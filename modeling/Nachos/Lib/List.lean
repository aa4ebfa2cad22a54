import Nachos.Framework.OrderedInsert

/-!
# Lists and sorted lists

`List<T>` and `SortedList<T>` as sequences. The operations that insert stop at their ASSERT
when the item is already in the list, which is the `none` of the definitions.
-/

namespace Nachos

variable {α : Type*} [DecidableEq α]

/-- `List<T>::Append`. -/
def listAppend (l : List α) (item : α) : Option (List α) :=
  if item ∈ l then none else some (l ++ [item])

/-- `SortedList<T>::Insert`: the item goes before the first element that compares bigger. -/
def sortedListInsert (compare : α → α → Int) (l : List α) (item : α) : Option (List α) :=
  if item ∈ l then none else some (l.orderedInsert (fun x y => compare x y < 0) item)

theorem listAppend_of_notMem {l : List α} {item : α} (h : item ∉ l) :
    listAppend l item = some (l ++ [item]) := by
  simp [listAppend, h]

theorem listAppend_eq_some {l l' : List α} {item : α} (h : listAppend l item = some l') :
    item ∉ l ∧ l' = l ++ [item] := by
  unfold listAppend at h
  split at h
  next => contradiction
  next hn => exact ⟨hn, (Option.some.inj h).symm⟩

theorem sortedListInsert_of_notMem (compare : α → α → Int) {l : List α} {item : α}
    (h : item ∉ l) : sortedListInsert compare l item =
      some (l.orderedInsert (fun x y => compare x y < 0) item) := by
  simp [sortedListInsert, h]

end Nachos

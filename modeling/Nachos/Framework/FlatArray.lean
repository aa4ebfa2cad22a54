import Nachos.Framework.ByteImage
import Mathlib.Data.List.Basic

/-!
# Arrays of a fixed length

A file of a fixed length is a list. A read takes a slice of it. A write replaces the elements
from a position on, as far as the array reaches, and never changes its length.
-/

namespace Framework

variable {α : Type*}

/-- The elements that a request for `n` of them at position `p` gets. -/
def slice (xs : List α) (p n : Nat) : List α := (xs.drop p).take n

def overwrite (xs : List α) (p : Nat) (ys : List α) : List α :=
  xs.take p ++ ys.take (xs.length - p) ++ xs.drop (p + ys.length)

theorem getElem?_slice (xs : List α) (p n i : Nat) :
    (slice xs p n)[i]? = if i < n then xs[p + i]? else none := by
  rw [slice, List.getElem?_take, List.getElem?_drop]

theorem length_slice (xs : List α) (p n : Nat) :
    (slice xs p n).length = min n (xs.length - p) := by
  rw [slice, List.length_take, List.length_drop]

@[simp] theorem length_overwrite (xs : List α) (p : Nat) (ys : List α) :
    (overwrite xs p ys).length = xs.length := by
  simp only [overwrite, List.length_append, List.length_take, List.length_drop]
  omega

theorem getElem?_overwrite (xs : List α) (p : Nat) (ys : List α) {i : Nat} (hi : i < xs.length) :
    (overwrite xs p ys)[i]? = if p ≤ i ∧ i < p + ys.length then ys[i - p]? else xs[i]? := by
  have hlen : (xs.take p).length = min p xs.length := List.length_take
  have hmid : (ys.take (xs.length - p)).length = min (xs.length - p) ys.length := List.length_take
  unfold overwrite
  rw [List.append_assoc, List.getElem?_append, hlen]
  by_cases hlow : i < p
  · rw [if_pos (by omega), if_neg (by omega), List.getElem?_take, if_pos hlow]
  · rw [if_neg (by omega), List.getElem?_append, hmid]
    have hmin : min p xs.length = p := by omega
    rw [hmin]
    by_cases hin : i < p + ys.length
    · rw [if_pos (by omega), if_pos (by omega), List.getElem?_take, if_pos (by omega)]
    · rw [if_neg (by omega), if_neg (by omega), List.getElem?_drop]
      congr 1
      omega

/-- A write behind what has been written so far. -/
theorem overwrite_append {ys rest : List α} (done : List α) (h : ys.length ≤ rest.length) :
    overwrite (done ++ rest) done.length ys = done ++ ys ++ rest.drop ys.length := by
  have hroom : ys.length ≤ (done ++ rest).length - done.length := by
    rw [List.length_append]
    omega
  unfold overwrite
  rw [List.take_left, List.take_of_length_le hroom, List.drop_append,
    List.drop_of_length_le (Nat.le_add_right _ _), List.nil_append, Nat.add_sub_cancel_left]

/-- Consecutive pieces of the given sizes, as far as there are elements. -/
def pieces (xs : List α) : List Nat → List (List α)
  | [] => []
  | n :: ns => xs.take n :: pieces (xs.drop n) ns

namespace Image

/-- The bytes of an object from an offset on. -/
def toList (img : Image) (off n : Nat) : List (BitVec 8) := (List.range n).map fun i => img (off + i)

@[simp] theorem length_toList (img : Image) (off n : Nat) : (img.toList off n).length = n := by
  rw [toList, List.length_map, List.length_range]

theorem getElem?_toList (img : Image) (off n : Nat) {i : Nat} (hi : i < n) :
    (img.toList off n)[i]? = some (img (off + i)) := by
  rw [toList, List.getElem?_map, List.getElem?_range hi, Option.map_some]

/-- An object that starts with the given bytes. -/
def ofList (xs : List (BitVec 8)) : Image := fun i => xs.getD i 0

theorem toList_ofList (xs : List (BitVec 8)) : (ofList xs).toList 0 xs.length = xs := by
  apply List.ext_getElem?
  intro i
  by_cases hi : i < xs.length
  · rw [getElem?_toList _ _ _ hi, ofList, Nat.zero_add, List.getD_eq_getElem?_getD,
      List.getElem?_eq_getElem hi, Option.getD_some]
  · rw [List.getElem?_eq_none (by rw [length_toList]; omega), List.getElem?_eq_none (by omega)]

theorem toList_blit (dst src : Image) (off n : Nat) :
    (dst.blit off src n).toList off n = src.toList 0 n := by
  apply List.map_congr_left
  intro i hi
  have hlt := List.mem_range.mp hi
  rw [blit_of_mem (by omega) (by omega), Nat.add_sub_cancel_left, Nat.zero_add]

end Image

end Framework

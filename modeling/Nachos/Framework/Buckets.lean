import Mathlib.Data.List.Perm.Basic

/-!
# Items in buckets

A list of buckets with a rule that says which bucket an item belongs into. Where every item lies
in its bucket, a bucket can be searched in place of all items. Exchanging one bucket leaves the
other items as they are.
-/

namespace Framework

variable {α : Type*}

/-- Every item lies in the bucket that it belongs into. -/
def Placed (bucketOf : α → Nat) (buckets : List (List α)) : Prop :=
  ∀ i l, buckets[i]? = some l → ∀ x ∈ l, bucketOf x = i

variable {bucketOf : α → Nat} {buckets : List (List α)} {i : Nat} {l l' : List α}

theorem placed_replicate (bucketOf : α → Nat) (n : Nat) :
    Placed bucketOf (List.replicate n []) := by
  intro i l hl x hx
  rw [List.eq_of_mem_replicate (List.mem_of_getElem? hl)] at hx
  cases hx

/-- Searching the bucket of an item finds the item wherever it is. -/
theorem Placed.mem_flatten_iff (h : Placed bucketOf buckets) {x : α}
    (hl : buckets[bucketOf x]? = some l) : x ∈ buckets.flatten ↔ x ∈ l := by
  constructor
  · intro hx
    obtain ⟨l', hl', hx⟩ := List.mem_flatten.mp hx
    obtain ⟨i, hi⟩ := List.mem_iff_getElem?.mp hl'
    rw [h i l' hi x hx, hi] at hl
    exact Option.some.inj hl ▸ hx
  · intro hx
    exact List.mem_flatten.mpr ⟨l, List.mem_of_getElem? hl, hx⟩

theorem Placed.set (h : Placed bucketOf buckets) (hl : ∀ x ∈ l, bucketOf x = i) :
    Placed bucketOf (buckets.set i l) := by
  intro j l' hl' x hx
  rw [List.getElem?_set] at hl'
  split at hl'
  next hij =>
    split at hl'
    next =>
      obtain rfl := Option.some.inj hl'
      exact (hl x hx).trans hij
    next => cases hl'
  next => exact h j l' hl' x hx

theorem flatten_take_succ (h : buckets[i]? = some l) :
    (buckets.take (i + 1)).flatten = (buckets.take i).flatten ++ l := by
  rw [List.take_add_one, h, Option.toList_some, List.flatten_append, List.flatten_singleton]

theorem flatten_take_sublist (buckets : List (List α)) (n : Nat) :
    (buckets.take n).flatten.Sublist buckets.flatten := by
  have hsplit : buckets.flatten = (buckets.take n).flatten ++ (buckets.drop n).flatten := by
    rw [← List.flatten_append, List.take_append_drop]
  rw [hsplit]
  exact List.sublist_append_left _ _

/-- The items beside those of one bucket. -/
theorem flatten_set_perm (h : buckets[i]? = some l) : ∃ rest, buckets.flatten.Perm (l ++ rest) ∧
    ∀ l', (buckets.set i l').flatten.Perm (l' ++ rest) := by
  induction buckets generalizing i with
  | nil => cases h
  | cons b buckets ih =>
    cases i with
    | zero =>
      obtain rfl := Option.some.inj h
      exact ⟨buckets.flatten, .refl _, fun l' => .refl _⟩
    | succ i =>
      obtain ⟨rest, hperm, hset⟩ := ih h
      refine ⟨b ++ rest, ?_, ?_⟩
      · exact (hperm.append_left b).trans (List.perm_append_comm_assoc ..)
      · intro l'
        exact ((hset l').append_left b).trans (List.perm_append_comm_assoc ..)

theorem flatten_set_add {x : α} (h : buckets[i]? = some l) (hadd : l'.Perm (x :: l)) :
    (buckets.set i l').flatten.Perm (x :: buckets.flatten) := by
  obtain ⟨rest, hperm, hset⟩ := flatten_set_perm h
  have hmore := (hset l').trans (hadd.append_right rest)
  exact hmore.trans (hperm.symm.cons x)

theorem flatten_set_remove {x : α} (h : buckets[i]? = some l) (hremove : l.Perm (x :: l')) :
    buckets.flatten.Perm (x :: (buckets.set i l').flatten) := by
  obtain ⟨rest, hperm, hset⟩ := flatten_set_perm h
  have hless := hperm.trans (hremove.append_right rest)
  exact hless.trans ((hset l').symm.cons x)

end Framework

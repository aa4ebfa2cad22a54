import Nachos.Lib.HashTable

/-!
# Iterating over a hash table

`HashIterator<Key,T>` walks through the buckets and skips the empty ones. A `ListIterator<T>` is
the part of the list that it has not passed yet. The table does not change meanwhile.
-/

namespace Nachos

open Framework

variable {κ α : Type} {getKey : α → κ} {hash : κ → BitVec 32}

/-- `HashTable<Key,T>::FindNextFullBucket`. -/
def HashTable.findNextFullBucket (t : HashTable getKey hash) (bucket : Nat) : Option Nat :=
  if bucket < t.numBuckets then
    match t.buckets[bucket]? with
    | none => none
    | some l => if l.isEmpty then t.findNextFullBucket (bucket + 1) else some bucket
  else some bucket
termination_by t.numBuckets - bucket

structure HashIterator (α : Type) where
  bucket : Nat
  bucketIter : Option (List α)

namespace HashIterator

/-- The iterator at a bucket, with a list iterator unless the bucket lies behind the last one. -/
def enter (t : HashTable getKey hash) (bucket : Nat) : Option (HashIterator α) :=
  if bucket < t.numBuckets then (t.buckets[bucket]?).map fun l => ⟨bucket, some l⟩
  else some ⟨bucket, none⟩

/-- `HashIterator<Key,T>::HashIterator`. -/
def new (t : HashTable getKey hash) : Option (HashIterator α) := do
  let bucket ← t.findNextFullBucket 0
  enter t bucket

def isDone (t : HashTable getKey hash) (it : HashIterator α) : Bool := it.bucket == t.numBuckets

/-- `HashIterator<Key,T>::Item`. -/
def item (t : HashTable getKey hash) (it : HashIterator α) : Option α := do
  assert !(it.isDone t)
  let bucketIter ← it.bucketIter
  bucketIter.head?

/-- `HashIterator<Key,T>::Next`. -/
def next (t : HashTable getKey hash) (it : HashIterator α) : Option (HashIterator α) := do
  let bucketIter ← it.bucketIter
  match bucketIter with
  | [] => none
  | _ :: rest =>
    if rest.isEmpty then do
      let bucket ← t.findNextFullBucket (it.bucket + 1)
      enter t bucket
    else some { it with bucketIter := some rest }

/-- The loop over an iterator, with what `Item` returns. A loop without end gives `none` for every
number of turns. -/
def visit (t : HashTable getKey hash) : Nat → HashIterator α → Option (List α)
  | 0, _ => none
  | fuel + 1, it =>
    if it.isDone t then some []
    else do
      let x ← it.item t
      let it' ← it.next t
      let rest ← visit t fuel it'
      some (x :: rest)

def system (t : HashTable getKey hash) : System (HashIterator α) Unit where
  init it := new t = some it
  step it _ it' := it.isDone t = false ∧ it.next t = some it'

/-- The items that an iterator still has before it. -/
inductive Left (t : HashTable getKey hash) : HashIterator α → List α → Prop
  | done : Left t ⟨t.numBuckets, none⟩ []
  | inBucket {bucket : Nat} {x : α} {rest : List α} (h : bucket < t.numBuckets) :
      Left t ⟨bucket, some (x :: rest)⟩ (x :: (rest ++ (t.buckets.drop (bucket + 1)).flatten))

variable {t : HashTable getKey hash} {it : HashIterator α} {x : α} {xs : List α}

private theorem left_of_find (hlength : t.buckets.length = t.numBuckets) {bucket : Nat}
    (hle : bucket ≤ t.numBuckets) :
    ∃ it, (t.findNextFullBucket bucket).bind (enter t) = some it ∧
      Left t it (t.buckets.drop bucket).flatten := by
  induction hn : t.numBuckets - bucket generalizing bucket with
  | zero =>
    obtain rfl : bucket = t.numBuckets := by omega
    rw [HashTable.findNextFullBucket, if_neg (lt_irrefl _), Option.bind_some, enter,
      if_neg (lt_irrefl _), ← hlength, List.drop_length, hlength]
    exact ⟨_, rfl, .done⟩
  | succ n ih =>
    have hlt : bucket < t.numBuckets := by omega
    have hin : bucket < t.buckets.length := hlength ▸ hlt
    have hl := List.getElem?_eq_getElem hin
    rw [HashTable.findNextFullBucket, if_pos hlt, hl, List.drop_eq_getElem_cons hin]
    cases hbucket : t.buckets[bucket] with
    | nil => exact ih (by omega) (by omega)
    | cons x rest =>
      rw [hbucket] at hl
      refine ⟨⟨bucket, some (x :: rest)⟩, ?_, .inBucket hlt⟩
      simp only [List.isEmpty_cons, Bool.false_eq_true, if_false, Option.bind_some]
      rw [enter, if_pos hlt, hl]
      rfl

private theorem isDone_iff (h : Left t it xs) : it.isDone t = true ↔ xs = [] := by
  cases h with
  | done => simp [isDone]
  | inBucket hlt =>
    have hne := hlt.ne
    simp [isDone, hne]

private theorem next_spec (hlength : t.buckets.length = t.numBuckets) (h : Left t it (x :: xs)) :
    it.item t = some x ∧ ∃ it', it.next t = some it' ∧ Left t it' xs := by
  cases h with
  | @inBucket bucket x rest hlt =>
    have hdone : isDone t ⟨bucket, some (x :: rest)⟩ = false := by
      have hne := hlt.ne
      simp [isDone, hne]
    constructor
    · rw [item, hdone]
      rfl
    · cases rest with
      | nil => exact left_of_find hlength hlt
      | cons y rest => exact ⟨⟨bucket, some (y :: rest)⟩, rfl, .inBucket hlt⟩

private theorem visit_eq (hlength : t.buckets.length = t.numBuckets) {fuel : Nat} (h : Left t it xs)
    (hfuel : xs.length < fuel) : visit t fuel it = some xs := by
  induction xs generalizing it fuel with
  | nil =>
    obtain ⟨fuel, rfl⟩ := Nat.exists_eq_add_of_lt hfuel
    rw [visit, if_pos ((isDone_iff h).mpr rfl)]
  | cons x xs ih =>
    obtain ⟨hitem, it', hnext, h'⟩ := next_spec hlength h
    have hmore : ¬ it.isDone t = true := by
      rw [isDone_iff h]
      exact List.cons_ne_nil x xs
    cases fuel with
    | zero => cases hfuel
    | succ fuel =>
      rw [visit, if_neg hmore, hitem, hnext]
      simp only [ih h' (Nat.lt_of_succ_lt_succ hfuel), Option.bind_eq_bind, Option.bind_some]

theorem left_inductive (hlength : t.buckets.length = t.numBuckets) :
    (system t).Inductive fun it => ∃ xs, Left t it xs where
  init it hit := by
    obtain ⟨it', hnew, h⟩ := left_of_find hlength (Nat.zero_le t.numBuckets)
    obtain rfl : it = it' := Option.some.inj (hit.symm.trans hnew)
    exact ⟨_, h⟩
  step it _ it' h hs := by
    obtain ⟨xs, h⟩ := h
    obtain ⟨hmore, hnext⟩ := hs
    cases xs with
    | nil =>
      rw [(isDone_iff h).mpr rfl] at hmore
      cases hmore
    | cons x xs =>
      obtain ⟨-, it₁, hnext₁, h₁⟩ := next_spec hlength h
      obtain rfl : it' = it₁ := Option.some.inj (hnext.symm.trans hnext₁)
      exact ⟨xs, h₁⟩

end HashIterator

/-- The loop ends and gives every stored item exactly once, and no iterator on its way is without
a list iterator. -/
theorem hashIterator_visits_all {t : HashTable getKey hash} (h : t.WellFormed) :
    (∃ it, HashIterator.new t = some it ∧
      ∀ fuel, t.stored.length < fuel → HashIterator.visit t fuel it = some t.stored) ∧
    (∀ x, x ∈ t.stored ↔ ∃ (i : Nat) (l : List α), t.buckets[i]? = some l ∧ x ∈ l) ∧
    t.stored.Nodup ∧ ∀ it, (HashIterator.system t).Reachable it → it.isDone t = false →
      it.bucketIter ≠ none ∧ it.item t ≠ none ∧ it.next t ≠ none := by
  refine ⟨?_, ?_, h.keys.of_map, ?_⟩
  · obtain ⟨it, hnew, hleft⟩ := HashIterator.left_of_find h.length (Nat.zero_le t.numBuckets)
    exact ⟨it, hnew, fun _ => HashIterator.visit_eq h.length hleft⟩
  · intro x
    rw [HashTable.stored, List.mem_flatten]
    constructor
    · rintro ⟨l, hl, hx⟩
      obtain ⟨i, hi⟩ := List.mem_iff_getElem?.mp hl
      exact ⟨i, l, hi, hx⟩
    · rintro ⟨i, l, hi, hx⟩
      exact ⟨l, List.mem_of_getElem? hi, hx⟩
  · intro it hr hmore
    obtain ⟨xs, hleft⟩ := (HashIterator.left_inductive h.length).of_reachable hr
    cases hleft with
    | done => simp [HashIterator.isDone] at hmore
    | inBucket hlt =>
      obtain ⟨hitem, it', hnext, -⟩ := HashIterator.next_spec h.length (.inBucket hlt)
      refine ⟨Option.some_ne_none _, ?_, ?_⟩
      · rw [hitem]
        exact Option.some_ne_none _
      · rw [hnext]
        exact Option.some_ne_none _

/-- Numbers in a table whose first, third and last buckets are empty. -/
theorem hashIterator_visits_all_nat :
    ∃ (t : HashTable id (BitVec.ofNat 32)) (it : HashIterator Nat),
      t.buckets = [[], [6, 11], [], [8], []] ∧ HashIterator.new t = some it ∧
        HashIterator.visit t 4 it = some [6, 11, 8] := by
  let t : HashTable id (BitVec.ofNat 32) := ⟨[[], [6, 11], [], [8], []], 5, 3⟩
  have hplaced : Placed (fun x => t.bucketOf (id x)) t.buckets := by
    intro i l hl x hx
    rcases i with _ | _ | _ | _ | _ | i
    · obtain rfl := Option.some.inj hl
      cases hx
    · obtain rfl := Option.some.inj hl
      rcases List.mem_pair.mp hx with rfl | rfl
      · show (BitVec.ofNat 32 6).toNat % 5 = 1
        decide
      · show (BitVec.ofNat 32 11).toNat % 5 = 1
        decide
    · obtain rfl := Option.some.inj hl
      cases hx
    · obtain rfl := Option.some.inj hl
      rw [List.mem_singleton.mp hx]
      show (BitVec.ofNat 32 8).toNat % 5 = 3
      decide
    · obtain rfl := Option.some.inj hl
      cases hx
    · cases hl
  have hwell : t.WellFormed := ⟨⟨rfl, hplaced, by decide⟩, rfl⟩
  obtain ⟨it, hnew, hvisit⟩ := (hashIterator_visits_all hwell).1
  exact ⟨t, it, rfl, hnew, hvisit 4 (by decide)⟩

end Nachos

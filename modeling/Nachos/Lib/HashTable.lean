import Nachos.Framework.Buckets
import Nachos.Lib.Sequences

/-!
# Hash tables

`HashTable<Key,T>` with its buckets as sequences, which the cells of the lists represent. The
counters are not bounded: a memory of 32-bit addresses has no room for the cells of as many items
as would let one of them overflow.
-/

namespace Nachos

open Framework

abbrev initialBuckets : Nat := 4
abbrev resizeRatio : Int := 3
abbrev increaseSizeBy : Nat := 4

/-- A table for items with a key. The constructor fixes both functions for good. -/
structure HashTable {κ α : Type} (getKey : α → κ) (hash : κ → BitVec 32) where
  buckets : List (List α)
  numBuckets : Nat
  numItems : Int

namespace HashTable

variable {κ α : Type} {getKey : α → κ} {hash : κ → BitVec 32}

/-- `HashTable<Key,T>::InitBuckets`. -/
def initBuckets (t : HashTable getKey hash) (sz : Nat) : HashTable getKey hash :=
  { t with numBuckets := sz, buckets := List.replicate sz [] }

/-- `HashTable<Key,T>::HashTable`. -/
def new (getKey : α → κ) (hash : κ → BitVec 32) : HashTable getKey hash :=
  initBuckets ⟨[], 0, 0⟩ initialBuckets

def bucketOf (t : HashTable getKey hash) (key : κ) : Nat := (hash key).toNat % t.numBuckets

/-- `HashTable<Key,T>::HashValue`. -/
def hashValue (t : HashTable getKey hash) (key : κ) : Option Nat := do
  assert (t.bucketOf key < t.numBuckets)
  some (t.bucketOf key)

section Keys

variable [DecidableEq κ]

/-- `HashTable<Key,T>::FindInBucket`. No item is the `NULL` of the source. -/
def findInBucket (t : HashTable getKey hash) (bucket : Nat) (key : κ) : Option (Option α) := do
  let l ← t.buckets[bucket]?
  some (l.find? fun x => key == getKey x)

/-- `HashTable<Key,T>::Find`. -/
def find (t : HashTable getKey hash) (key : κ) : Option (Option α) := do
  let bucket ← t.hashValue key
  t.findInBucket bucket key

def isInTable (t : HashTable getKey hash) (key : κ) : Option Bool :=
  (t.find key).map Option.isSome

end Keys

/-- The check of one bucket. The cells of a bucket pass the check of their list. -/
def checkBucket (t : HashTable getKey hash) (i : Nat) : List α → Option Unit
  | [] => some ()
  | x :: l => do
    let result ← t.hashValue (getKey x)
    assert (i = result)
    t.checkBucket i l

/-- `HashTable<Key,T>::SanityCheck`. -/
def sanityCheck (t : HashTable getKey hash) : Option Unit := do
  let numFound ← (List.range t.numBuckets).foldlM (fun (numFound : Int) i => do
    let l ← t.buckets[i]?
    t.checkBucket i l
    some (numFound + l.length)) 0
  assert (t.numItems = numFound)

section Equality

variable [BEq α]

/-- `buckets[HashValue(getKey(item))]->Append(item)`. -/
def put (t : HashTable getKey hash) (item : α) : Option (HashTable getKey hash) := do
  let bucket ← t.hashValue (getKey item)
  let l ← t.buckets[bucket]?
  let l' ← Sequence.append l item
  some { t with buckets := t.buckets.set bucket l' }

/-- The loop of `ReHash` that empties a bucket of the old table. -/
def moveAll (t : HashTable getKey hash) : List α → Option (HashTable getKey hash)
  | [] => some t
  | item :: rest => do
    let t' ← t.put item
    t'.moveAll rest

/-- `HashTable<Key,T>::ReHash`. -/
def reHash (t : HashTable getKey hash) : Option (HashTable getKey hash) := do
  t.sanityCheck
  let t' ← (List.range t.numBuckets).foldlM (fun t' i => do
    let l ← t.buckets[i]?
    t'.moveAll l) (t.initBuckets (t.numBuckets * increaseSizeBy))
  t'.sanityCheck
  some t'

/-- The resizing at the beginning of `Insert`. -/
def grow (t : HashTable getKey hash) : Option (HashTable getKey hash) :=
  if resizeRatio ≤ t.numItems.tdiv t.numBuckets then t.reHash else some t

variable [DecidableEq κ]

/-- `HashTable<Key,T>::Insert`. -/
def insert (t : HashTable getKey hash) (item : α) : Option (HashTable getKey hash) := do
  assert !(← t.isInTable (getKey item))
  let t ← t.grow
  let t ← t.put item
  let t : HashTable getKey hash := { t with numItems := t.numItems + 1 }
  assert (← t.isInTable (getKey item))
  some t

/-- `HashTable<Key,T>::Remove`. -/
def remove (t : HashTable getKey hash) (key : κ) : Option (α × HashTable getKey hash) := do
  let bucket ← t.hashValue key
  let found ← t.findInBucket bucket key
  let item ← found
  let l ← t.buckets[bucket]?
  let l' ← Sequence.remove l item
  let t : HashTable getKey hash :=
    { t with buckets := t.buckets.set bucket l', numItems := t.numItems - 1 }
  assert !(← t.isInTable key)
  some (item, t)

end Equality

/-! ## Well-formed tables -/

def stored (t : HashTable getKey hash) : List α := t.buckets.flatten

/-- Every item lies in the bucket of its key, and no two items have one key. -/
structure Distributed (t : HashTable getKey hash) : Prop where
  length : t.buckets.length = t.numBuckets
  placed : Placed (fun x => t.bucketOf (getKey x)) t.buckets
  keys : (t.stored.map getKey).Nodup

/-- A table that is not being changed has its items counted. -/
structure WellFormed (t : HashTable getKey hash) : Prop extends t.Distributed where
  numItems : t.numItems = t.stored.length

variable {t : HashTable getKey hash} {key : κ} {x : α}

private theorem hashValue_eq (hpos : 0 < t.numBuckets) (key : κ) :
    t.hashValue key = some (t.bucketOf key) := by
  have hlt : t.bucketOf key < t.numBuckets := Nat.mod_lt _ hpos
  rw [hashValue, decide_eq_true hlt]
  rfl

theorem Distributed.bucket (h : t.Distributed) (hpos : 0 < t.numBuckets) (key : κ) :
    ∃ l, t.buckets[t.bucketOf key]? = some l := by
  have hlt : t.bucketOf key < t.buckets.length := by
    rw [h.length]
    exact Nat.mod_lt _ hpos
  exact ⟨_, List.getElem?_eq_getElem hlt⟩

private theorem mem_stored {i : Nat} {l : List α} (hl : t.buckets[i]? = some l) (hx : x ∈ l) :
    x ∈ t.stored :=
  List.mem_flatten.mpr ⟨l, List.mem_of_getElem? hl, hx⟩

private theorem Distributed.mem_bucket_iff (h : t.Distributed) {l : List α}
    (hl : t.buckets[t.bucketOf (getKey x)]? = some l) : x ∈ t.stored ↔ x ∈ l :=
  h.placed.mem_flatten_iff hl

private theorem Distributed.eq_of_key (h : t.Distributed) {x y : α} (hx : x ∈ t.stored)
    (hy : y ∈ t.stored) (heq : getKey x = getKey y) : x = y :=
  List.inj_on_of_nodup_map h.keys hx hy heq

private theorem new_wellFormed (getKey : α → κ) (hash : κ → BitVec 32) :
    (new getKey hash).WellFormed where
  length := rfl
  placed := placed_replicate _ _
  keys := List.nodup_nil
  numItems := rfl

/-! ## Searching -/

section Keys

variable [DecidableEq κ]

private theorem find?_key_spec {l : List α}
    (hkeys : ∀ x ∈ l, ∀ y ∈ l, getKey x = getKey y → x = y) :
    (l.find? fun y => key == getKey y) = some x ↔ x ∈ l ∧ getKey x = key := by
  constructor
  · intro hfind
    have hkey := List.find?_some hfind
    exact ⟨List.mem_of_find?_eq_some hfind, (beq_iff_eq.mp hkey).symm⟩
  · rintro ⟨hx, rfl⟩
    cases hfind : l.find? fun y => getKey x == getKey y with
    | none =>
      have hnot := List.find?_eq_none.mp hfind x hx
      simp at hnot
    | some y =>
      have hkey := List.find?_some hfind
      rw [hkeys x hx y (List.mem_of_find?_eq_some hfind) (beq_iff_eq.mp hkey)]

private theorem findInBucket_spec (h : t.Distributed) (hpos : 0 < t.numBuckets) (key : κ) :
    ∃ r, t.findInBucket (t.bucketOf key) key = some r ∧
      ∀ x, r = some x ↔ x ∈ t.stored ∧ getKey x = key := by
  obtain ⟨l, hl⟩ := h.bucket hpos key
  refine ⟨l.find? fun y => key == getKey y, ?_, ?_⟩
  · rw [findInBucket, hl]
    rfl
  · intro x
    rw [find?_key_spec fun x hx y hy => h.eq_of_key (mem_stored hl hx) (mem_stored hl hy)]
    constructor
    · rintro ⟨hx, hkey⟩
      exact ⟨mem_stored hl hx, hkey⟩
    · rintro ⟨hx, rfl⟩
      exact ⟨(h.mem_bucket_iff hl).mp hx, rfl⟩

private theorem find_spec (h : t.Distributed) (hpos : 0 < t.numBuckets) (key : κ) :
    ∃ r, t.find key = some r ∧ ∀ x, r = some x ↔ x ∈ t.stored ∧ getKey x = key := by
  rw [find, hashValue_eq hpos]
  exact findInBucket_spec h hpos key

private theorem isInTable_eq (h : t.Distributed) (hpos : 0 < t.numBuckets) (key : κ) :
    t.isInTable key = some (decide (key ∈ t.stored.map getKey)) := by
  obtain ⟨r, hfind, hr⟩ := find_spec h hpos key
  have hsome : r.isSome = decide (key ∈ t.stored.map getKey) := by
    rw [Bool.eq_iff_iff, Option.isSome_iff_exists, decide_eq_true_iff, List.mem_map]
    simp only [hr]
  rw [isInTable, hfind, Option.map_some, hsome]

end Keys

/-! ## The check -/

private theorem checkBucket_eq (hpos : 0 < t.numBuckets) {i : Nat} {l : List α}
    (hplaced : ∀ x ∈ l, t.bucketOf (getKey x) = i) : t.checkBucket i l = some () := by
  induction l with
  | nil => rfl
  | cons x l ih =>
    have hx : decide (i = t.bucketOf (getKey x)) = true := by
      rw [hplaced x List.mem_cons_self, decide_eq_true rfl]
    rw [checkBucket, hashValue_eq hpos]
    simp only [hx, assert_true, Option.bind_eq_bind, Option.bind_some]
    exact ih fun y hy => hplaced y (List.mem_cons_of_mem x hy)

theorem WellFormed.sanityCheck (h : t.WellFormed) : t.sanityCheck = some () := by
  have hloop : ∀ n ≤ t.numBuckets, (List.range n).foldlM (fun (numFound : Int) i => do
      let l ← t.buckets[i]?
      t.checkBucket i l
      some (numFound + l.length)) 0 = some ((t.buckets.take n).flatten.length : Int) := by
    intro n hn
    induction n with
    | zero => rfl
    | succ n ih =>
      have hlt : n < t.buckets.length := by
        rw [h.length]
        omega
      have hl := List.getElem?_eq_getElem hlt
      have hcheck : t.checkBucket n t.buckets[n] = some () :=
        checkBucket_eq (by omega) (h.placed n _ hl)
      rw [List.range_succ, List.foldlM_append, ih (by omega)]
      simp only [List.foldlM_cons, List.foldlM_nil, hl, hcheck, Option.bind_eq_bind,
        Option.bind_some, Option.pure_def]
      rw [flatten_take_succ hl, List.length_append, Int.natCast_add]
  rw [HashTable.sanityCheck, hloop t.numBuckets le_rfl, ← h.length, List.take_length]
  have hcount : decide (t.numItems = (t.buckets.flatten.length : Int)) = true :=
    decide_eq_true h.numItems
  simp only [Option.bind_eq_bind, Option.bind_some, hcount, assert_true]

/-! ## Changing a table -/

section Equality

variable [BEq α]

private theorem isInList_of_key (hkey : ∀ x y : α, (x == y) = true → getKey x = getKey y)
    {l : List α} (hnew : getKey x ∉ l.map getKey) : Sequence.isInList l x = false := by
  rw [Sequence.isInList, List.any_eq_false]
  intro y hy heq
  exact hnew (List.mem_map.mpr ⟨y, hy, (hkey x y heq).symm⟩)

private theorem put_spec [ReflBEq α] (hkey : ∀ x y : α, (x == y) = true → getKey x = getKey y)
    (h : t.Distributed) (hpos : 0 < t.numBuckets) (hnew : getKey x ∉ t.stored.map getKey) :
    ∃ t', t.put x = some t' ∧ t'.Distributed ∧ t'.numBuckets = t.numBuckets ∧
      t'.numItems = t.numItems ∧ t'.stored.Perm (x :: t.stored) := by
  obtain ⟨l, hl⟩ := h.bucket hpos (getKey x)
  have hfree : getKey x ∉ l.map getKey := fun hmem =>
    hnew (List.map_subset getKey (fun _ => mem_stored hl) hmem)
  have happend : Sequence.append l x = some (l ++ [x]) :=
    Sequence.append_eq_some.mpr ⟨isInList_of_key hkey hfree, beq_self_eq_true x, rfl⟩
  have hperm : (t.buckets.set (t.bucketOf (getKey x)) (l ++ [x])).flatten.Perm (x :: t.stored) :=
    flatten_set_add hl (List.perm_append_singleton x l)
  refine ⟨{ t with buckets := t.buckets.set (t.bucketOf (getKey x)) (l ++ [x]) }, ?_, ?_, rfl, rfl,
    hperm⟩
  · simp only [put, hashValue_eq hpos, hl, happend, Option.bind_eq_bind, Option.bind_some]
  · refine ⟨List.length_set.trans h.length, ?_, ?_⟩
    · apply h.placed.set
      intro y hy
      rcases List.mem_append.mp hy with hy | hy
      · exact h.placed _ l hl y hy
      · rw [List.mem_singleton.mp hy]
    · exact (hperm.map getKey).nodup_iff.mpr (List.nodup_cons.mpr ⟨hnew, h.keys⟩)

private theorem moveAll_spec [ReflBEq α] (hkey : ∀ x y : α, (x == y) = true → getKey x = getKey y)
    (h : t.Distributed) (hpos : 0 < t.numBuckets) {l : List α}
    (hkeys : ((l ++ t.stored).map getKey).Nodup) :
    ∃ t', t.moveAll l = some t' ∧ t'.Distributed ∧ t'.numBuckets = t.numBuckets ∧
      t'.numItems = t.numItems ∧ t'.stored.Perm (l ++ t.stored) := by
  induction l generalizing t with
  | nil => exact ⟨t, rfl, h, rfl, rfl, .refl _⟩
  | cons x l ih =>
    have hnew : getKey x ∉ t.stored.map getKey := by
      rw [List.cons_append, List.map_cons, List.nodup_cons, List.map_append, List.mem_append]
        at hkeys
      exact fun hmem => hkeys.1 (.inr hmem)
    obtain ⟨t₁, hput, h₁, hbuckets₁, hitems₁, hperm₁⟩ := put_spec hkey h hpos hnew
    have hmiddle : (l ++ t₁.stored).Perm (x :: l ++ t.stored) :=
      (hperm₁.append_left l).trans List.perm_middle
    have hkeys₁ : ((l ++ t₁.stored).map getKey).Nodup := (hmiddle.map getKey).nodup_iff.mpr hkeys
    obtain ⟨t₂, hmove, h₂, hbuckets₂, hitems₂, hperm₂⟩ := ih h₁ (hbuckets₁ ▸ hpos) hkeys₁
    refine ⟨t₂, ?_, h₂, hbuckets₂.trans hbuckets₁, hitems₂.trans hitems₁, hperm₂.trans hmiddle⟩
    simp only [moveAll, hput, hmove, Option.bind_eq_bind, Option.bind_some]

theorem reHash_spec [ReflBEq α] (hkey : ∀ x y : α, (x == y) = true → getKey x = getKey y)
    (h : t.WellFormed) (hpos : 0 < t.numBuckets) :
    ∃ t', t.reHash = some t' ∧ t'.WellFormed ∧ t'.numBuckets = t.numBuckets * increaseSizeBy ∧
      t'.numItems = t.numItems ∧ t'.stored.Perm t.stored := by
  have hloop : ∀ n ≤ t.numBuckets, ∃ t', (List.range n).foldlM (fun t' i => do
      let l ← t.buckets[i]?
      t'.moveAll l) (t.initBuckets (t.numBuckets * increaseSizeBy)) = some t' ∧
        t'.Distributed ∧ t'.numBuckets = t.numBuckets * increaseSizeBy ∧
        t'.numItems = t.numItems ∧ t'.stored.Perm (t.buckets.take n).flatten := by
    intro n hn
    induction n with
    | zero =>
      refine ⟨_, rfl, ⟨List.length_replicate, placed_replicate _ _, ?_⟩, rfl, rfl, ?_⟩
      · simp [stored, initBuckets]
      · simp [stored, initBuckets]
    | succ n ih =>
      obtain ⟨t₁, hrun, h₁, hbuckets₁, hitems₁, hperm₁⟩ := ih (by omega)
      have hlt : n < t.buckets.length := by
        rw [h.length]
        omega
      have hl := List.getElem?_eq_getElem hlt
      have hpos₁ : 0 < t₁.numBuckets := by
        rw [hbuckets₁]
        exact Nat.mul_pos hpos (by decide)
      have hall : (t.buckets[n] ++ t₁.stored).Perm (t.buckets.take (n + 1)).flatten := by
        rw [flatten_take_succ hl]
        exact (hperm₁.append_left _).trans List.perm_append_comm
      have hkeys : ((t.buckets[n] ++ t₁.stored).map getKey).Nodup := by
        rw [(hall.map getKey).nodup_iff]
        exact h.keys.sublist ((flatten_take_sublist _ _).map getKey)
      obtain ⟨t₂, hmove, h₂, hbuckets₂, hitems₂, hperm₂⟩ := moveAll_spec hkey h₁ hpos₁ hkeys
      refine ⟨t₂, ?_, h₂, hbuckets₂.trans hbuckets₁, hitems₂.trans hitems₁, hperm₂.trans hall⟩
      rw [List.range_succ, List.foldlM_append, hrun]
      simp only [List.foldlM_cons, List.foldlM_nil, hl, hmove, Option.bind_eq_bind,
        Option.bind_some, Option.pure_def]
  obtain ⟨t', hrun, h', hbuckets, hitems, hperm⟩ := hloop t.numBuckets le_rfl
  rw [← h.length, List.take_length] at hperm
  have hcount : t'.numItems = t'.stored.length := by
    rw [hitems, h.numItems, hperm.length_eq]
    rfl
  have hwell : t'.WellFormed := ⟨h', hcount⟩
  refine ⟨t', ?_, hwell, hbuckets, hitems, hperm⟩
  rw [reHash, h.sanityCheck, hrun]
  simp only [hwell.sanityCheck, Option.bind_eq_bind, Option.bind_some]

variable [DecidableEq κ]

/-- A table between two calls. -/
structure Valid (t : HashTable getKey hash) : Prop extends t.WellFormed where
  pos : 0 < t.numBuckets
  load : t.numItems ≤ resizeRatio * t.numBuckets

omit [BEq α] [DecidableEq κ] in
private theorem lt_of_not_full (h : t.WellFormed) (hpos : 0 < t.numBuckets)
    (hfull : ¬ resizeRatio ≤ t.numItems.tdiv t.numBuckets) :
    t.numItems < resizeRatio * t.numBuckets := by
  have hdiv : t.numItems.tdiv t.numBuckets = (t.stored.length / t.numBuckets : Nat) := by
    rw [h.numItems]
    rfl
  have hlt : t.stored.length / t.numBuckets < 3 := by
    rw [hdiv] at hfull
    simp only [resizeRatio] at hfull
    omega
  rw [Nat.div_lt_iff_lt_mul hpos] at hlt
  rw [h.numItems]
  simp only [resizeRatio]
  omega

omit [DecidableEq κ] in
private theorem grow_spec [ReflBEq α] (hkey : ∀ x y : α, (x == y) = true → getKey x = getKey y)
    (h : t.Valid) :
    ∃ t', t.grow = some t' ∧
      t'.WellFormed ∧ 0 < t'.numBuckets ∧ t'.numItems + 1 ≤ resizeRatio * t'.numBuckets ∧
      t'.stored.Perm t.stored := by
  have hpos := h.pos
  have hload := h.load
  rw [grow]
  split
  next hfull =>
    obtain ⟨t', hrehash, h', hbuckets, hitems, hperm⟩ := reHash_spec hkey h.toWellFormed hpos
    refine ⟨t', hrehash, h', ?_, ?_, hperm⟩
    · rw [hbuckets]
      exact Nat.mul_pos hpos (by decide)
    · rw [hitems, hbuckets]
      simp only [resizeRatio, increaseSizeBy] at hload ⊢
      omega
  next hfull =>
    have hlt := lt_of_not_full h.toWellFormed hpos hfull
    exact ⟨t, rfl, h.toWellFormed, hpos, hlt, .refl _⟩

theorem insert_spec [ReflBEq α] (hkey : ∀ x y : α, (x == y) = true → getKey x = getKey y)
    (h : t.Valid) (hnew : getKey x ∉ t.stored.map getKey) :
    ∃ t', t.insert x = some t' ∧ t'.Valid ∧ t'.stored.Perm (x :: t.stored) := by
  obtain ⟨t₁, hgrow, h₁, hpos₁, hroom, hperm₁⟩ := grow_spec hkey h
  have hnew₁ : getKey x ∉ t₁.stored.map getKey := mt (hperm₁.map getKey).mem_iff.mp hnew
  obtain ⟨t₂, hput, h₂, hbuckets, hitems, hperm₂⟩ := put_spec hkey h₁.toDistributed hpos₁ hnew₁
  have hperm := hperm₂.trans (hperm₁.cons x)
  have hpos₂ : 0 < t₂.numBuckets := hbuckets ▸ hpos₁
  let t₃ : HashTable getKey hash := { t₂ with numItems := t₂.numItems + 1 }
  have h₃ : t₃.Distributed := ⟨h₂.length, h₂.placed, h₂.keys⟩
  have hcount : t₃.numItems = t₃.stored.length := by
    show t₂.numItems + 1 = (t₂.stored.length : Int)
    rw [hitems, h₁.numItems, hperm₂.length_eq, List.length_cons]
    rfl
  have hload : t₃.numItems ≤ resizeRatio * t₃.numBuckets := by
    show t₂.numItems + 1 ≤ resizeRatio * t₂.numBuckets
    rw [hitems, hbuckets]
    exact hroom
  have hthere : t₃.isInTable (getKey x) = some true := by
    rw [isInTable_eq h₃ hpos₂]
    exact congrArg some (decide_eq_true ((hperm.map getKey).mem_iff.mpr List.mem_cons_self))
  refine ⟨t₃, ?_, ⟨⟨h₃, hcount⟩, hpos₂, hload⟩, hperm⟩
  rw [insert, isInTable_eq h.toDistributed h.pos, decide_eq_false hnew, hgrow]
  simp only [hput, Option.bind_eq_bind, Option.bind_some, Bool.not_false, assert_true]
  rw [hthere]
  rfl

/-- The thirteenth item makes the table grow. -/
example : ((List.range 13).foldlM insert (new id (BitVec.ofNat 32))).map
    (fun t => (t.numBuckets, t.numItems)) = some (16, 13) := by
  decide +kernel

theorem remove_spec [ReflBEq α] (hkey : ∀ x y : α, (x == y) = true → getKey x = getKey y)
    (h : t.Valid) (hx : x ∈ t.stored) :
    ∃ t', t.remove (getKey x) = some (x, t') ∧ t'.Valid ∧ t.stored.Perm (x :: t'.stored) := by
  have hpos := h.pos
  have hdistributed := h.toDistributed
  obtain ⟨r, hfind, hr⟩ := findInBucket_spec hdistributed hpos (getKey x)
  obtain rfl : r = some x := (hr x).mpr ⟨hx, rfl⟩
  obtain ⟨l, hl⟩ := hdistributed.bucket hpos (getKey x)
  have hxl : x ∈ l := (hdistributed.mem_bucket_iff hl).mp hx
  -- the first item that compares equal is the item itself
  obtain ⟨z, l₁, l₂, -, hz, hsplit, herase⟩ :=
    List.exists_of_eraseP hxl (p := (x == ·)) (beq_self_eq_true x)
  obtain rfl : x = z :=
    hdistributed.eq_of_key hx (mem_stored hl (by simp [hsplit])) (hkey x z hz)
  have hlperm : l.Perm (x :: l.eraseP (x == ·)) := by
    rw [herase]
    nth_rewrite 1 [hsplit]
    exact List.perm_middle
  have hkept : ∀ y ∈ l.eraseP (x == ·), y ∈ l := fun y hy => List.mem_of_mem_eraseP hy
  let t' : HashTable getKey hash := { t with
    buckets := t.buckets.set (t.bucketOf (getKey x)) (l.eraseP (x == ·))
    numItems := t.numItems - 1 }
  have hperm : t.stored.Perm (x :: t'.stored) := flatten_set_remove hl hlperm
  have hkeys : (getKey x :: t'.stored.map getKey).Nodup := (hperm.map getKey).nodup_iff.mp h.keys
  have hgone := (List.nodup_cons.mp hkeys).1
  have h' : t'.Distributed := by
    refine ⟨List.length_set.trans h.length, ?_, (List.nodup_cons.mp hkeys).2⟩
    exact h.placed.set fun y hy => h.placed _ l hl y (hkept y hy)
  have hcount : t'.numItems = t'.stored.length := by
    show t.numItems - 1 = (t'.stored.length : Int)
    rw [h.numItems, hperm.length_eq, List.length_cons]
    omega
  have hload : t'.numItems ≤ resizeRatio * t'.numBuckets := by
    have hbefore := h.load
    show t.numItems - 1 ≤ resizeRatio * t.numBuckets
    omega
  have hremove : Sequence.remove l x = some (l.eraseP (x == ·)) := by
    refine Sequence.remove_eq_some.mpr ⟨?_, isInList_of_key hkey ?_, rfl⟩
    · exact List.any_eq_true.mpr ⟨x, hxl, beq_self_eq_true x⟩
    · have hlkeys : (l.map getKey).Nodup :=
        h.keys.sublist ((List.sublist_flatten_of_mem (List.mem_of_getElem? hl)).map getKey)
      exact (List.nodup_cons.mp ((hlperm.map getKey).nodup_iff.mp hlkeys)).1
  refine ⟨t', ?_, ⟨⟨h', hcount⟩, hpos, hload⟩, hperm⟩
  have hgone' : t'.isInTable (getKey x) = some false := by
    rw [isInTable_eq h' hpos, decide_eq_false hgone]
  simp only [remove, hashValue_eq hpos, hfind, hl, hremove, Option.bind_eq_bind, Option.bind_some]
  rw [hgone']
  rfl

end Equality

/-! ## Runs -/

/-- The calls, with the item or the key that they are given. -/
inductive Call (κ α : Type)
  | insert (item : α)
  | remove (key : κ)
  | find (key : κ)

section Runs

variable [BEq α] [DecidableEq κ]

/-- All sequences of legal calls on a new table, beside the map that they give. -/
def system (getKey : α → κ) (hash : κ → BitVec 32) :
    System (HashTable getKey hash × (κ → Option α)) (Call κ α) where
  init s := s = (new getKey hash, fun _ => none)
  step s c s' := match c with
    | .insert item => s.2 (getKey item) = none ∧ s.1.insert item = some s'.1 ∧
        s'.2 = Function.update s.2 (getKey item) (some item)
    | .remove key => s.2 key ≠ none ∧ (∃ item, s.1.remove key = some (item, s'.1)) ∧
        s'.2 = Function.update s.2 key none
    | .find key => s.1.find key ≠ none ∧ s' = s

/-- The table holds what the map gives. -/
structure Represents (t : HashTable getKey hash) (m : κ → Option α) : Prop extends t.Valid where
  map : ∀ key x, m key = some x ↔ x ∈ t.stored ∧ getKey x = key

variable {t' : HashTable getKey hash} {m : κ → Option α}

omit [BEq α] [DecidableEq κ] in
theorem Represents.notMem_iff (h : t.Represents m) (key : κ) :
    m key = none ↔ key ∉ t.stored.map getKey := by
  rw [Option.eq_none_iff_forall_ne_some, List.mem_map, not_exists]
  exact forall_congr' fun x => not_congr (h.map key x)

omit [BEq α] in
theorem Represents.find_eq (h : t.Represents m) (key : κ) : t.find key = some (m key) := by
  obtain ⟨r, hfind, hr⟩ := find_spec h.toDistributed h.pos key
  rw [hfind]
  congr 1
  apply Option.ext
  intro x
  rw [hr, h.map]

theorem Represents.insert [ReflBEq α] (hkey : ∀ x y : α, (x == y) = true → getKey x = getKey y)
    (h : t.Represents m) (hnew : m (getKey x) = none) :
    ∃ t', t.insert x = some t' ∧ t'.Represents (Function.update m (getKey x) (some x)) := by
  obtain ⟨t', ht', hvalid, hperm⟩ := insert_spec hkey h.toValid ((h.notMem_iff _).mp hnew)
  refine ⟨t', ht', hvalid, ?_⟩
  intro key y
  rw [hperm.mem_iff, List.mem_cons]
  by_cases hk : key = getKey x
  · subst hk
    rw [Function.update_self]
    constructor
    · intro hxy
      obtain rfl := Option.some.inj hxy
      exact ⟨.inl rfl, rfl⟩
    · rintro ⟨rfl | hy, heq⟩
      · rfl
      · exact absurd (List.mem_map.mpr ⟨y, hy, heq⟩) ((h.notMem_iff _).mp hnew)
  · rw [Function.update_of_ne hk, h.map]
    constructor
    · rintro ⟨hy, heq⟩
      exact ⟨.inr hy, heq⟩
    · rintro ⟨rfl | hy, heq⟩
      · exact absurd heq.symm hk
      · exact ⟨hy, heq⟩

theorem Represents.remove [ReflBEq α] (hkey : ∀ x y : α, (x == y) = true → getKey x = getKey y)
    (h : t.Represents m) {key : κ} (hin : m key = some x) :
    ∃ t', t.remove key = some (x, t') ∧ t'.Represents (Function.update m key none) := by
  obtain ⟨hx, rfl⟩ := (h.map key x).mp hin
  obtain ⟨t', ht', hvalid, hperm⟩ := remove_spec hkey h.toValid hx
  have hkeys := (hperm.map getKey).nodup_iff.mp h.keys
  have hgone := (List.nodup_cons.mp hkeys).1
  refine ⟨t', ht', hvalid, ?_⟩
  intro key y
  by_cases hk : key = getKey x
  · subst hk
    rw [Function.update_self]
    constructor
    · nofun
    · rintro ⟨hy, heq⟩
      exact absurd (List.mem_map.mpr ⟨y, hy, heq⟩) hgone
  · rw [Function.update_of_ne hk, h.map, hperm.mem_iff, List.mem_cons]
    constructor
    · rintro ⟨rfl | hy, heq⟩
      · exact absurd heq.symm hk
      · exact ⟨hy, heq⟩
    · rintro ⟨hy, heq⟩
      exact ⟨.inr hy, heq⟩

theorem represents_inductive [ReflBEq α]
    (hkey : ∀ x y : α, (x == y) = true → getKey x = getKey y) :
    (system getKey hash).Inductive fun s => s.1.Represents s.2 where
  init s hs := by
    obtain rfl := hs
    refine ⟨⟨new_wellFormed getKey hash, Nat.zero_lt_succ 3, ?_⟩, ?_⟩
    · show (0 : Int) ≤ 3 * 4
      decide
    · intro key x
      simp [new, stored, initBuckets]
  step s c s' h hs := by
    cases c with
    | insert item =>
      obtain ⟨hnew, hinsert, hmap⟩ := hs
      obtain ⟨t', ht', h'⟩ := h.insert hkey hnew
      rw [hinsert] at ht'
      rw [hmap, Option.some.inj ht']
      exact h'
    | remove key =>
      obtain ⟨hin, ⟨item, hremove⟩, hmap⟩ := hs
      obtain ⟨x, hx⟩ := Option.ne_none_iff_exists'.mp hin
      obtain ⟨t', ht', h'⟩ := h.remove hkey hx
      rw [hremove] at ht'
      cases ht'
      rw [hmap]
      exact h'
    | find key =>
      obtain ⟨-, rfl⟩ := hs
      exact h

end Runs

end HashTable

/-- A hash table is a finite map, before, during and after any number of resizes. -/
theorem hashTable_refines_map {κ α : Type} [DecidableEq κ] [BEq α] [ReflBEq α] {getKey : α → κ}
    {hash : κ → BitVec 32} (hkey : ∀ x y : α, (x == y) = true → getKey x = getKey y)
    {t : HashTable getKey hash} {m : κ → Option α}
    (hr : (HashTable.system getKey hash).Reachable (t, m)) :
    (∀ key, t.find key = some (m key)) ∧
    (∀ i l, t.buckets[i]? = some l → ∀ x ∈ l, t.hashValue (getKey x) = some i) ∧
    (t.stored.map getKey).Nodup ∧ (∀ key x, m key = some x ↔ x ∈ t.stored ∧ getKey x = key) ∧
    t.numItems = t.stored.length ∧ t.numItems ≤ resizeRatio * t.numBuckets ∧
    t.sanityCheck = some () ∧
    (∃ t', t.reHash = some t' ∧ t'.stored.Perm t.stored ∧ t'.WellFormed) ∧
    (∀ x, m (getKey x) = none → ∃ t', t.insert x = some t' ∧
      (HashTable.system getKey hash).Reachable (t', Function.update m (getKey x) (some x))) ∧
    ∀ key x, m key = some x → ∃ t', t.remove key = some (x, t') ∧
      (HashTable.system getKey hash).Reachable (t', Function.update m key none) := by
  have h : t.Represents m := (HashTable.represents_inductive hkey).of_reachable hr
  refine ⟨h.find_eq, ?_, h.keys, h.map, h.numItems, h.load, h.toWellFormed.sanityCheck, ?_, ?_, ?_⟩
  · intro i l hl x hx
    rw [HashTable.hashValue_eq h.pos]
    exact congrArg some (h.placed i l hl x hx)
  · obtain ⟨t', hrehash, h', -, -, hperm⟩ := HashTable.reHash_spec hkey h.toWellFormed h.pos
    exact ⟨t', hrehash, hperm, h'⟩
  · intro x hnew
    obtain ⟨t', hinsert, -⟩ := h.insert hkey hnew
    exact ⟨t', hinsert, .step (l := .insert x) hr ⟨hnew, hinsert, rfl⟩⟩
  · intro key x hin
    obtain ⟨t', hremove, -⟩ := h.remove hkey hin
    have hsome : m key ≠ none := by
      rw [hin]
      nofun
    exact ⟨t', hremove, .step (l := .remove key) hr ⟨hsome, ⟨x, hremove⟩, rfl⟩⟩

private theorem HashTable.reachable_numbers (n : Nat) :
    ∃ t, (HashTable.system id (BitVec.ofNat 32)).Reachable
      (t, fun key => if key < n then some key else none) := by
  have hkey : ∀ x y : Nat, (x == y) = true → id x = id y := fun x y h => beq_iff_eq.mp h
  induction n with
  | zero => exact ⟨_, .init rfl⟩
  | succ n ih =>
    obtain ⟨t, hr⟩ := ih
    have h := (represents_inductive hkey).of_reachable hr
    have hnew : (if id n < n then some (id n) else none) = none := if_neg (Nat.lt_irrefl n)
    obtain ⟨t', hinsert, -⟩ := h.insert hkey hnew
    have hmap : (fun key => if key < n + 1 then some key else none) =
        Function.update (fun key => if key < n then some key else none) (id n) (some n) := by
      funext key
      by_cases heq : key = n
      · rw [heq, id_eq, Function.update_self, if_pos (Nat.lt_succ_self n)]
      · have hiff : key < n + 1 ↔ key < n := by omega
        simp only [id_eq, Function.update_of_ne heq, hiff]
    refine ⟨t', ?_⟩
    rw [hmap]
    exact .step (l := .insert n) hr ⟨hnew, hinsert, rfl⟩

/-- Twenty numbers that are their own keys: the table has grown, 3 and 19 share a bucket, and 3 is
removed. -/
theorem hashTable_refines_map_nat :
    ∃ t t' m', (HashTable.system id (BitVec.ofNat 32)).Reachable
        (t, fun key => if key < 20 then some key else none) ∧ initialBuckets < t.numBuckets ∧
      t.remove 3 = some (3, t') ∧ (HashTable.system id (BitVec.ofNat 32)).Reachable (t', m') ∧
      t'.find 3 = some none ∧ t'.find 19 = some (some 19) := by
  have hkey : ∀ x y : Nat, (x == y) = true → id x = id y := fun x y h => beq_iff_eq.mp h
  obtain ⟨t, hr⟩ := HashTable.reachable_numbers 20
  obtain ⟨-, -, -, hstored, hnum, hload, -, -, -, hremove⟩ := hashTable_refines_map hkey hr
  have hmem : List.range 20 ⊆ t.stored := by
    intro x hx
    exact ((hstored x x).mp (if_pos (List.mem_range.mp hx))).1
  have hlength := (List.subperm_of_subset List.nodup_range hmem).length_le
  rw [List.length_range] at hlength
  have hgrown : initialBuckets < t.numBuckets := by
    simp only [resizeRatio, initialBuckets] at *
    omega
  obtain ⟨t', hremoved, hr'⟩ := hremove 3 3 rfl
  have hfind := (hashTable_refines_map hkey hr').1
  exact ⟨t, t', _, hr, hgrown, hremoved, hr', hfind 3, hfind 19⟩

end Nachos

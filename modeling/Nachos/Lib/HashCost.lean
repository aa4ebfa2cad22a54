import Nachos.Lib.HashTable
import Mathlib.Algebra.Group.Nat.Defs

/-!
# What resizing costs

`ReHash` moves every item of the table, and the table never shrinks. Its number of buckets depends
only on the most items it has held at one time, and the items moved since the start are as many as
the buckets it has got since then. So an `Insert` moves four thirds of an item on average, whatever
the order of the calls.
-/

namespace Nachos

open Framework

namespace HashTable

variable {κ α : Type} {getKey : α → κ} {hash : κ → BitVec 32}

/-- A table with the map that it stands for and a record of its calls: the items inserted, the most
items it has held, and the items that `ReHash` has moved. -/
structure Counted {κ α : Type} (getKey : α → κ) (hash : κ → BitVec 32) where
  table : HashTable getKey hash
  map : κ → Option α
  inserted : Nat
  most : Nat
  moved : Nat

/-- The calls of `Append` in the loop of `ReHash`, if the call begins with it. -/
def moves (t : HashTable getKey hash) : Call κ α → Nat
  | .insert _ => if resizeRatio ≤ t.numItems.tdiv t.numBuckets then t.stored.length else 0
  | .remove _ | .find _ => 0

def Call.inserts : Call κ α → Nat
  | .insert _ => 1
  | .remove _ | .find _ => 0

section Equality

variable [BEq α]

def countedSystem [DecidableEq κ] (getKey : α → κ) (hash : κ → BitVec 32) :
    System (Counted getKey hash) (Call κ α) where
  init s := s = ⟨new getKey hash, fun _ => none, 0, 0, 0⟩
  step s c s' := (system getKey hash).step (s.table, s.map) c (s'.table, s'.map) ∧
    s'.inserted = s.inserted + c.inserts ∧ s'.most = max s.most s'.table.stored.length ∧
    s'.moved = s.moved + s.table.moves c

/-! ## The number of buckets -/

variable {t t' : HashTable getKey hash} {x : α}

private theorem put_numBuckets (h : t.put x = some t') : t'.numBuckets = t.numBuckets := by
  simp only [put, Option.bind_eq_bind] at h
  obtain ⟨bucket, -, h⟩ := Option.bind_eq_some_iff.mp h
  obtain ⟨l, -, h⟩ := Option.bind_eq_some_iff.mp h
  obtain ⟨l', -, h⟩ := Option.bind_eq_some_iff.mp h
  rw [← Option.some.inj h]

private theorem grow_numBuckets [ReflBEq α]
    (hkey : ∀ x y : α, (x == y) = true → getKey x = getKey y)
    (hwell : t.WellFormed) (hpos : 0 < t.numBuckets) (h : t.grow = some t') :
    t'.numBuckets =
      if resizeRatio ≤ t.numItems.tdiv t.numBuckets then t.numBuckets * increaseSizeBy
      else t.numBuckets := by
  rw [grow] at h
  split at h
  next hfull =>
    obtain ⟨t'', hrehash, -, hbuckets, -⟩ := reHash_spec hkey hwell hpos
    rw [hrehash] at h
    rw [← Option.some.inj h, hbuckets, if_pos hfull]
  next hfull => rw [← Option.some.inj h, if_neg hfull]

variable [DecidableEq κ]

private theorem insert_numBuckets [ReflBEq α]
    (hkey : ∀ x y : α, (x == y) = true → getKey x = getKey y)
    (hwell : t.WellFormed) (hpos : 0 < t.numBuckets) (h : t.insert x = some t') :
    t'.numBuckets =
      if resizeRatio ≤ t.numItems.tdiv t.numBuckets then t.numBuckets * increaseSizeBy
      else t.numBuckets := by
  simp only [insert, Option.bind_eq_bind] at h
  obtain ⟨there, -, h⟩ := Option.bind_eq_some_iff.mp h
  obtain ⟨-, -, h⟩ := Option.bind_eq_some_iff.mp h
  obtain ⟨t₁, hgrow, h⟩ := Option.bind_eq_some_iff.mp h
  obtain ⟨t₂, hput, h⟩ := Option.bind_eq_some_iff.mp h
  obtain ⟨here, -, h⟩ := Option.bind_eq_some_iff.mp h
  obtain ⟨-, -, h⟩ := Option.bind_eq_some_iff.mp h
  rw [← Option.some.inj h]
  exact (put_numBuckets hput).trans (grow_numBuckets hkey hwell hpos hgrow)

private theorem remove_numBuckets {key : κ} (h : t.remove key = some (x, t')) :
    t'.numBuckets = t.numBuckets := by
  simp only [remove, Option.bind_eq_bind] at h
  obtain ⟨bucket, -, h⟩ := Option.bind_eq_some_iff.mp h
  obtain ⟨found, -, h⟩ := Option.bind_eq_some_iff.mp h
  obtain ⟨item, -, h⟩ := Option.bind_eq_some_iff.mp h
  obtain ⟨l, -, h⟩ := Option.bind_eq_some_iff.mp h
  obtain ⟨l', -, h⟩ := Option.bind_eq_some_iff.mp h
  obtain ⟨there, -, h⟩ := Option.bind_eq_some_iff.mp h
  obtain ⟨-, -, h⟩ := Option.bind_eq_some_iff.mp h
  rw [← (Prod.mk.inj (Option.some.inj h)).2]

omit [BEq α] [DecidableEq κ] in
private theorem Valid.stored_of_full (h : t.Valid)
    (hfull : resizeRatio ≤ t.numItems.tdiv t.numBuckets) :
    t.stored.length = 3 * t.numBuckets := by
  have hload := h.load
  have hdiv : t.numItems.tdiv t.numBuckets = (t.stored.length / t.numBuckets : Nat) := by
    rw [h.numItems]
    rfl
  rw [hdiv] at hfull
  rw [h.numItems] at hload
  simp only [resizeRatio] at hfull hload
  have hmul : 3 * t.numBuckets ≤ t.stored.length := (Nat.le_div_iff_mul_le h.pos).mp (by omega)
  omega

/-! ## The invariant -/

namespace Counted

variable {s s' : Counted getKey hash}

structure Inv (s : Counted getKey hash) : Prop where
  table : s.table.Represents s.map
  size : ∃ k, s.table.numBuckets = initialBuckets * increaseSizeBy ^ k
  moved : s.moved + initialBuckets = s.table.numBuckets
  stored : s.table.stored.length ≤ s.most
  inserted : s.table.stored.length ≤ s.inserted ∧ s.most ≤ s.inserted
  enough : s.most ≤ 3 * s.table.numBuckets
  needed : s.table.numBuckets = initialBuckets ∨ 3 * s.table.numBuckets < 4 * s.most

omit [BEq α] [DecidableEq κ] in
theorem Inv.quiet (h : s.Inv) (htable : s'.table.Represents s'.map)
    (hbuckets : s'.table.numBuckets = s.table.numBuckets)
    (hstored : s'.table.stored.length ≤ s.table.stored.length)
    (hinserted : s'.inserted = s.inserted) (hmost : s'.most = max s.most s'.table.stored.length)
    (hmoved : s'.moved = s.moved) : s'.Inv := by
  have hsame : s'.most = s.most := by
    rw [hmost]
    exact max_eq_left (hstored.trans h.stored)
  constructor
  case table => exact htable
  case size => exact hbuckets ▸ h.size
  case moved => rw [hmoved, hbuckets, h.moved]
  case stored => exact hsame ▸ hstored.trans h.stored
  case inserted => exact ⟨hinserted ▸ hstored.trans h.inserted.1, hsame ▸ hinserted ▸ h.inserted.2⟩
  case enough => exact hsame ▸ hbuckets ▸ h.enough
  case needed => exact hsame ▸ hbuckets ▸ h.needed

omit [BEq α] [DecidableEq κ] in
theorem Inv.insert (h : s.Inv) {item : α} (htable : s'.table.Represents s'.map)
    (hbuckets : s'.table.numBuckets =
      if resizeRatio ≤ s.table.numItems.tdiv s.table.numBuckets then
        s.table.numBuckets * increaseSizeBy
      else s.table.numBuckets)
    (hstored : s'.table.stored.length = s.table.stored.length + 1)
    (hinserted : s'.inserted = s.inserted + 1)
    (hmost : s'.most = max s.most s'.table.stored.length)
    (hmoved : s'.moved = s.moved + s.table.moves (.insert item)) : s'.Inv := by
  have hload' : s'.table.stored.length ≤ 3 * s'.table.numBuckets := by
    have hload := htable.load
    rw [htable.numItems] at hload
    simp only [resizeRatio] at hload
    omega
  have hold := h.inserted
  have henough := h.enough
  have hmovedBefore := h.moved
  simp only [moves] at hmoved
  by_cases hfull : resizeRatio ≤ s.table.numItems.tdiv s.table.numBuckets
  · -- three items for each bucket are moved, and three buckets are new for each old one
    have hthree := h.table.toValid.stored_of_full hfull
    rw [if_pos hfull] at hbuckets hmoved
    obtain ⟨k, hk⟩ := h.size
    have hneeded : 3 * s'.table.numBuckets < 4 * s'.most := by
      rw [hmost, hstored, hthree, hbuckets]
      simp only [increaseSizeBy]
      omega
    constructor
    case table => exact htable
    case size => exact ⟨k + 1, by rw [hbuckets, hk, Nat.pow_succ, Nat.mul_assoc]⟩
    case moved =>
      rw [hmoved, hthree, hbuckets]
      simp only [initialBuckets, increaseSizeBy] at hmovedBefore ⊢
      omega
    case stored => omega
    case inserted => omega
    case enough =>
      simp only [increaseSizeBy] at hbuckets
      omega
    case needed => exact .inr hneeded
  · rw [if_neg hfull] at hbuckets hmoved
    have hneeded := h.needed
    constructor
    case table => exact htable
    case size => exact hbuckets ▸ h.size
    case moved => rw [hmoved, hbuckets, Nat.add_zero, hmovedBefore]
    case stored => omega
    case inserted => omega
    case enough => omega
    case needed =>
      rw [hbuckets]
      rcases hneeded with hneeded | hneeded
      · exact .inl hneeded
      · exact .inr (by omega)

theorem inv_inductive [ReflBEq α] (hkey : ∀ x y : α, (x == y) = true → getKey x = getKey y) :
    (countedSystem getKey hash).Inductive Inv where
  init := by
    rintro s rfl
    constructor
    case table => exact (represents_inductive hkey).init _ rfl
    case size => exact ⟨0, rfl⟩
    case moved => rfl
    case stored => exact Nat.le_of_eq rfl
    case inserted => exact ⟨Nat.le_of_eq rfl, Nat.le_refl 0⟩
    case enough => exact Nat.zero_le _
    case needed => exact .inl rfl
  step := by
    rintro s c s' h ⟨hstep, hinserted, hmost, hmoved⟩
    have htable := (represents_inductive hkey).step _ _ _ h.table hstep
    have hpos := h.table.pos
    cases c with
    | insert item =>
      obtain ⟨hnew, hinsert, -⟩ := hstep
      have hbuckets := insert_numBuckets hkey h.table.toWellFormed hpos hinsert
      obtain ⟨t', ht', -, hperm⟩ := insert_spec hkey h.table.toValid ((h.table.notMem_iff _).mp hnew)
      obtain rfl := Option.some.inj (ht'.symm.trans hinsert)
      exact h.insert htable hbuckets (by rw [hperm.length_eq]; rfl) hinserted hmost hmoved
    | remove key =>
      obtain ⟨hin, ⟨item, hremove⟩, -⟩ := hstep
      obtain ⟨x, hx⟩ := Option.ne_none_iff_exists'.mp hin
      obtain ⟨hmem, rfl⟩ := (h.table.map key x).mp hx
      obtain ⟨t', ht', -, hperm⟩ := remove_spec hkey h.table.toValid hmem
      obtain ⟨-, rfl⟩ := Prod.mk.inj (Option.some.inj (ht'.symm.trans hremove))
      have hlength : s.table.stored.length = s'.table.stored.length + 1 := hperm.length_eq
      exact h.quiet htable (remove_numBuckets hremove) (by omega) hinserted hmost hmoved
    | find key =>
      obtain ⟨-, hsame⟩ := hstep
      obtain ⟨htable', -⟩ := Prod.mk.inj hsame
      exact h.quiet htable (by rw [htable']) (by rw [htable']) hinserted hmost hmoved

omit [BEq α] [DecidableEq κ] in
private theorem Inv.least (h : s.Inv) (k : Nat) :
    s.most ≤ 3 * (initialBuckets * increaseSizeBy ^ k) ↔
      s.table.numBuckets ≤ initialBuckets * increaseSizeBy ^ k := by
  obtain ⟨j, hj⟩ := h.size
  have henough := h.enough
  constructor
  · intro hk
    by_contra hless
    have hlt : k < j := by
      by_contra hge
      have hpow := Nat.pow_le_pow_right (show 0 < increaseSizeBy by decide) (Nat.not_lt.mp hge)
      exact hless (hj ▸ Nat.mul_le_mul_left initialBuckets hpow)
    have hpow : increaseSizeBy ^ (k + 1) ≤ increaseSizeBy ^ j :=
      Nat.pow_le_pow_right (by decide) hlt
    rw [Nat.pow_succ] at hpow
    have hone : 1 ≤ increaseSizeBy ^ k := Nat.one_le_pow _ _ (by decide)
    simp only [initialBuckets, increaseSizeBy] at hj hk hless hpow hone
    rcases h.needed with hneeded | hneeded
    · simp only [initialBuckets] at hneeded
      omega
    · omega
  · intro hk
    exact henough.trans (Nat.mul_le_mul_left 3 hk)

end Counted
end Equality
end HashTable

/-- After any calls the table has the least number of buckets, of those it can have, that holds at
three items a bucket the most items there have been at one time; the items that `ReHash` has moved
are as many as the buckets the table has got since the start, and at most four thirds of the
insertions. -/
theorem hashTable_amortized {κ α : Type} [DecidableEq κ] [BEq α] [ReflBEq α] {getKey : α → κ}
    {hash : κ → BitVec 32} (hkey : ∀ x y : α, (x == y) = true → getKey x = getKey y)
    {s : HashTable.Counted getKey hash} (hr : (HashTable.countedSystem getKey hash).Reachable s) :
    (∃ k, s.table.numBuckets = initialBuckets * increaseSizeBy ^ k) ∧
    (∀ k, s.most ≤ 3 * (initialBuckets * increaseSizeBy ^ k) ↔
      s.table.numBuckets ≤ initialBuckets * increaseSizeBy ^ k) ∧
    s.moved + initialBuckets = s.table.numBuckets ∧ 3 * s.moved ≤ 4 * s.inserted := by
  have h := (HashTable.Counted.inv_inductive hkey).of_reachable hr
  refine ⟨h.size, h.least, h.moved, ?_⟩
  have hmoved := h.moved
  have hinserted := h.inserted.2
  rcases h.needed with hneeded | hneeded
  · omega
  · omega

namespace HashTable.Counted

private theorem reachable_range (n : Nat) :
    ∃ s, (countedSystem id (BitVec.ofNat 32)).Reachable s ∧ s.inserted = n ∧ s.most = n ∧
      s.table.stored.length = n ∧ ∀ key, n ≤ key → s.map key = none := by
  have hkey : ∀ x y : Nat, (x == y) = true → id x = id y := fun x y h => beq_iff_eq.mp h
  induction n with
  | zero => exact ⟨_, .init rfl, rfl, rfl, rfl, fun _ _ => rfl⟩
  | succ n ih =>
    obtain ⟨s, hr, hinserted, hmost, hstored, hfree⟩ := ih
    have h := (inv_inductive hkey).of_reachable hr
    have hnew : s.map (id n) = none := hfree n (le_refl n)
    obtain ⟨t', hinsert, -, hperm⟩ :=
      insert_spec hkey h.table.toValid ((h.table.notMem_iff _).mp hnew)
    have hlength : t'.stored.length = n + 1 := by rw [hperm.length_eq, List.length_cons, hstored]
    let s' : Counted id (BitVec.ofNat 32) := {
      table := t', map := Function.update s.map n (some n), inserted := s.inserted + 1,
      most := max s.most t'.stored.length, moved := s.moved + s.table.moves (.insert n) }
    refine ⟨s', hr.step (l := .insert n) ⟨⟨hnew, hinsert, rfl⟩, rfl, rfl, rfl⟩, ?_, ?_, hlength, ?_⟩
    · exact congrArg (· + 1) hinserted
    · show max s.most t'.stored.length = n + 1
      omega
    · intro key hle
      exact (Function.update_of_ne (by omega) _ _).trans (hfree key (by omega))

end HashTable.Counted

/-- The thirteenth item moves the twelve others. -/
theorem hashTable_amortized_thirteen :
    ∃ s, (HashTable.countedSystem id (BitVec.ofNat 32)).Reachable s ∧ s.inserted = 13 ∧
      s.table.numBuckets = 16 ∧ s.moved = 12 := by
  have hkey : ∀ x y : Nat, (x == y) = true → id x = id y := fun x y h => beq_iff_eq.mp h
  obtain ⟨s, hr, hinserted, hmost, -⟩ := HashTable.Counted.reachable_range 13
  obtain ⟨⟨k, hk⟩, hleast, hmoved, -⟩ := hashTable_amortized hkey hr
  have hmore : ¬ s.table.numBuckets ≤ 4 := fun hle =>
    absurd ((hleast 0).mpr hle) (by rw [hmost]; decide)
  have hless : s.table.numBuckets ≤ 16 := (hleast 1).mp (by rw [hmost]; decide)
  have hsixteen : s.table.numBuckets = 16 := by
    simp only [initialBuckets, increaseSizeBy] at hk
    match k with
    | 0 | 1 => omega
    | k + 2 =>
      have hpow : 1 ≤ 4 ^ k := Nat.one_le_pow _ _ (by decide)
      rw [Nat.pow_add] at hk
      omega
  refine ⟨s, hr, hinserted, hsixteen, ?_⟩
  simp only [initialBuckets] at hmoved
  omega

end Nachos

import Mathlib.Order.Bounds.Basic
import Nachos.Lib.Bitmap
import Nachos.Framework.Run

/-!
# Bitmaps as allocators

A history of calls says which indices are taken. The bitmap says the same, bit by bit, and hands
out the least index that is not taken.
-/

namespace Nachos

open Framework

inductive BitmapCall
  | mark (which : Nat)
  | clear (which : Nat)
  | findAndSet

/-- What becomes of an index: `Mark` or `FindAndSet` takes it, and `Clear` gives it back. -/
inductive BitmapEvent
  | taken (n : Nat)
  | cleared (n : Nat)

/-- The latest event of an index is that it has been taken. The history is given backwards. -/
def isTaken : List BitmapEvent → Nat → Bool
  | [], _ => false
  | .taken k :: history, n => isTaken history n || decide (n = k)
  | .cleared k :: history, n => isTaken history n && !decide (n = k)

namespace Bitmap

def next (s : Bitmap × List BitmapEvent) : BitmapCall → Option (Bitmap × List BitmapEvent)
  | .mark which => (s.1.mark which).map fun b => (b, .taken which :: s.2)
  | .clear which => (s.1.clear which).map fun b => (b, .cleared which :: s.2)
  | .findAndSet => s.1.findAndSet.map fun r =>
    (r.2, if r.1 = -1 then s.2 else .taken r.1.toNat :: s.2)

/-- Several calls of `FindAndSet`, with what they return. -/
def findAndSets : Nat → Bitmap → Option (List Int × Bitmap)
  | 0, b => some ([], b)
  | k + 1, b => do
    let (i, b₁) ← b.findAndSet
    let (rest, b₂) ← findAndSets k b₁
    some (i :: rest, b₂)

end Bitmap

/-- All sequences of calls on a new bitmap of `numItems` bits. -/
def bitmapSystem (fresh : Image) (numItems : Nat) :
    System (Bitmap × List BitmapEvent) BitmapCall where
  init s := Bitmap.new fresh numItems = some s.1 ∧ s.2 = []
  step s c s' := Bitmap.next s c = some s'

namespace Bitmap

variable {fresh : Image} {numItems : Nat} {b b' : Bitmap} {history : List BitmapEvent}

/-- The bits are those that the history gives. -/
structure Records (numItems : Nat) (s : Bitmap × List BitmapEvent) : Prop where
  numBits : s.1.numBits = numItems
  bit : ∀ n < numItems, s.1.bit n = isTaken s.2 n

private theorem mark_cases {which : Nat} (h : b.mark which = some b') :
    which < b.numBits ∧ b' = b.marked which := by
  by_cases hlt : which < b.numBits
  · rw [mark_eq hlt] at h
    exact ⟨hlt, (Option.some.inj h).symm⟩
  · have hout : ¬ ((0 : Int) ≤ which ∧ (which : Int) < b.numBits) := by omega
    rw [mark, if_neg hout] at h
    cases h

private theorem clear_cases {which : Nat} (h : b.clear which = some b') :
    which < b.numBits ∧ b' = b.cleared which := by
  by_cases hlt : which < b.numBits
  · rw [clear_eq hlt] at h
    exact ⟨hlt, (Option.some.inj h).symm⟩
  · have hout : ¬ ((0 : Int) ≤ which ∧ (which : Int) < b.numBits) := by omega
    rw [clear, if_neg hout] at h
    cases h

private theorem findAndSet_cases {r : Int × Bitmap} (h : b.findAndSet = some r) :
    b.FindAndSet r := by
  obtain ⟨r', hr', hspec⟩ := b.findAndSet_spec
  rw [h] at hr'
  rw [Option.some.inj hr']
  exact hspec

theorem Records.taken (h : Records numItems (b, history)) (n : Nat) :
    Records numItems (b.marked n, .taken n :: history) where
  numBits := h.numBits
  bit k hk := by
    show (b.marked n).bit k = (isTaken history k || decide (k = n))
    rw [bit_marked]
    exact congrArg (· || decide (k = n)) (h.bit k hk)

theorem Records.cleared (h : Records numItems (b, history)) (n : Nat) :
    Records numItems (b.cleared n, .cleared n :: history) where
  numBits := h.numBits
  bit k hk := by
    show (b.cleared n).bit k = (isTaken history k && !decide (k = n))
    rw [bit_cleared]
    exact congrArg (· && !decide (k = n)) (h.bit k hk)

theorem Records.next {s s' : Bitmap × List BitmapEvent} (h : Records numItems s) {c : BitmapCall}
    (hs : Bitmap.next s c = some s') : Records numItems s' := by
  cases c with
  | mark which =>
    obtain ⟨b', hb', rfl⟩ := Option.map_eq_some_iff.mp hs
    rw [(mark_cases hb').2]
    exact h.taken which
  | clear which =>
    obtain ⟨b', hb', rfl⟩ := Option.map_eq_some_iff.mp hs
    rw [(clear_cases hb').2]
    exact h.cleared which
  | findAndSet =>
    obtain ⟨r, hr, rfl⟩ := Option.map_eq_some_iff.mp hs
    cases findAndSet_cases hr with
    | full hfull =>
      rw [if_pos rfl]
      exact h
    | found n hn hclear hleast =>
      have hne : (n : Int) ≠ -1 := by omega
      rw [if_neg hne]
      exact h.taken n

theorem records_inductive (hpos : 0 < numItems) :
    (bitmapSystem fresh numItems).Inductive (Records numItems) where
  init s hs := by
    obtain ⟨b, hnew, hbits, hclear⟩ := new_spec fresh hpos
    obtain rfl : b = s.1 := Option.some.inj (hnew.symm.trans hs.1)
    refine ⟨hbits, ?_⟩
    intro n hn
    rw [hclear n hn, hs.2]
    rfl
  step _ _ _ h hs := h.next hs

private theorem findAndSets_spec (k : Nat) (b : Bitmap) (h : k ≤ b.clearCount) :
    ∃ (rs : List Nat) (b' : Bitmap), b.findAndSets k = some (rs.map Nat.cast, b') ∧ rs.length = k ∧
      rs.Pairwise (· < ·) ∧ ∀ r ∈ rs, r < b.numBits ∧ b.bit r = false := by
  induction k generalizing b with
  | zero => exact ⟨[], b, rfl, rfl, .nil, by simp⟩
  | succ k ih =>
    obtain ⟨n, hn, hclear, hleast, hfind⟩ := findAndSet_of_clearCount (b := b) (by omega)
    have hcount := clearCount_marked hn hclear
    obtain ⟨rs, b', hrest, hlength, hincreasing, hall⟩ := ih (b.marked n) (by omega)
    -- the indices up to the one just found are taken now
    have hbehind : ∀ r ∈ rs, n < r ∧ b.bit r = false := by
      intro r hr
      have hbit := (hall r hr).2
      rw [bit_marked, Bool.or_eq_false_iff, decide_eq_false_iff_not] at hbit
      refine ⟨?_, hbit.1⟩
      by_contra hle
      have hlt : r < n := by omega
      rw [hleast r hlt] at hbit
      cases hbit.1
    refine ⟨n :: rs, b', ?_, by rw [List.length_cons, hlength], ?_, ?_⟩
    · simp only [findAndSets, hfind, hrest, Option.bind_eq_bind, Option.bind_some, List.map_cons]
    · exact .cons (fun r hr => (hbehind r hr).1) hincreasing
    · intro r hr
      rcases List.mem_cons.mp hr with rfl | hr
      · exact ⟨hn, hclear⟩
      · exact ⟨(hall r hr).1, (hbehind r hr).2⟩

theorem Records.clearCount_eq (h : Records numItems (b, history)) :
    b.clearCount = (List.range numItems).countP fun n => !isTaken history n := by
  rw [clearCount, h.numBits]
  apply List.countP_congr
  intro n hn
  rw [h.bit n (List.mem_range.mp hn)]

end Bitmap

/-- A bitmap is an exact allocator, after any calls with indices in range. -/
theorem bitmap_exact {fresh : Image} {numItems : Nat} (hpos : 0 < numItems) {b : Bitmap}
    {history : List BitmapEvent} (hr : (bitmapSystem fresh numItems).Reachable (b, history)) :
    (∀ n < numItems, b.test n = some (isTaken history n) ∧ (b.mark n).isSome = true ∧
      (b.clear n).isSome = true) ∧
    (∃ r b', b.findAndSet = some (r, b') ∧
      (r = -1 ↔ ∀ n < numItems, isTaken history n = true) ∧
      (r ≠ -1 → ∃ i : Nat, r = i ∧
        IsLeast {n | n < numItems ∧ isTaken history n = false} i)) ∧
    b.numClear = some ((List.range numItems).countP fun n => !isTaken history n : Int) ∧
    ∀ (k : Nat) (count : Int), b.numClear = some count → k ≤ count →
      ∃ (rs : List Nat) (b' : Bitmap), b.findAndSets k = some (rs.map Nat.cast, b') ∧ rs.length = k ∧
        rs.Pairwise (· < ·) ∧ ∀ r ∈ rs, r < numItems ∧ isTaken history r = false := by
  have h := (Bitmap.records_inductive hpos).of_reachable hr
  have hbits : b.numBits = numItems := h.numBits
  have hbit : ∀ n < numItems, b.bit n = isTaken history n := h.bit
  refine ⟨?_, ?_, ?_, ?_⟩
  · intro n hn
    rw [← hbits] at hn
    rw [Bitmap.test_eq hn, Bitmap.mark_eq hn, Bitmap.clear_eq hn, hbit n (hbits ▸ hn)]
    exact ⟨rfl, rfl, rfl⟩
  · obtain ⟨r, hfind, hspec⟩ := b.findAndSet_spec
    cases hspec with
    | full hfull =>
      rw [hbits] at hfull
      refine ⟨-1, b, hfind, iff_of_true rfl ?_, fun hne => absurd rfl hne⟩
      intro n hn
      rw [← hbit n hn]
      exact hfull n hn
    | found i hi hclear hleast =>
      rw [hbits] at hi
      rw [hbit i hi] at hclear
      have hne : (i : Int) ≠ -1 := by omega
      refine ⟨i, b.marked i, hfind, iff_of_false hne ?_, ?_⟩
      · intro hall
        rw [hall i hi] at hclear
        cases hclear
      · intro _
        refine ⟨i, rfl, ⟨hi, hclear⟩, ?_⟩
        intro n hn
        by_contra hlt
        have htaken := hleast n (by omega)
        rw [hbit n hn.1, hn.2] at htaken
        cases htaken
  · rw [b.numClear_eq, h.clearCount_eq]
  · intro k count hcount hk
    rw [b.numClear_eq] at hcount
    have hle : k ≤ b.clearCount := by
      rw [← Option.some.inj hcount] at hk
      exact Int.ofNat_le.mp hk
    obtain ⟨rs, b', hfinds, hlength, hincreasing, hall⟩ := b.findAndSets_spec k hle
    refine ⟨rs, b', hfinds, hlength, hincreasing, ?_⟩
    intro r hr
    obtain ⟨hlt, hclear⟩ := hall r hr
    rw [hbits] at hlt
    exact ⟨hlt, (hbit r hlt) ▸ hclear⟩

/-- The first bit behind bit 31 is taken, and the second word is partly used. -/
theorem bitmap_exact_forty :
    ∃ b, (bitmapSystem (fun _ => 0xff) 40).Reachable (b, [.taken 32]) ∧
      b.test 32 = some true ∧ b.test 31 = some false ∧ b.numClear = some 39 := by
  obtain ⟨b, hnew, hbits, -⟩ := Bitmap.new_spec (fun _ => 0xff) (n := 40) (by decide)
  have hlt : 32 < b.numBits := by omega
  have hmark : b.mark (32 : Nat) = some (b.marked 32) := Bitmap.mark_eq hlt
  have hnext : Bitmap.next (b, []) (.mark 32) = some (b.marked 32, [.taken 32]) := by
    show (b.mark (32 : Nat)).map _ = _
    rw [hmark]
    rfl
  have hr : (bitmapSystem (fun _ => 0xff) 40).Reachable (b.marked 32, [.taken 32]) :=
    .step (.init ⟨hnew, rfl⟩) hnext
  have h := bitmap_exact (by decide) hr
  refine ⟨b.marked 32, hr, ?_, ?_, ?_⟩
  · exact (h.1 32 (by decide)).1
  · exact (h.1 31 (by decide)).1
  · rw [h.2.2.1]
    decide

end Nachos

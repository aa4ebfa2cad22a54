import Nachos.Framework.ByteImage

/-!
# Bitmaps

`Bitmap` packs its bits into an array of 32-bit words. A failed ASSERT is the `none` of the
definitions.
-/

namespace Nachos

open Framework

/-- `divRoundDown` of `utility.h`. The division of the language truncates toward zero. -/
def divRoundDown (n s : Int) : Int := n.tdiv s

/-- `divRoundUp` of `utility.h`. -/
def divRoundUp (n s : Int) : Int := n.tdiv s + if 0 < n.tmod s then 1 else 0

theorem divRoundDown_natCast (n s : Nat) : divRoundDown n s = (n / s : Nat) := by
  simp [divRoundDown, Int.tdiv_eq_ediv]

theorem divRoundUp_natCast (n s : Nat) (hs : 0 < s) :
    divRoundUp n s = ((n + s - 1) / s : Nat) := by
  have hmod : ((n : Int).tmod s) = (n % s : Nat) := by
    simp [Int.tmod_eq_emod_of_nonneg]
  have hdiv : ((n : Int).tdiv s) = (n / s : Nat) := by
    simp [Int.tdiv_eq_ediv]
  have hsplit := Nat.div_add_mod n s
  have hlt := Nat.mod_lt n hs
  rw [divRoundUp, hmod, hdiv]
  by_cases h : n % s = 0
  · have hup : (n + s - 1) / s = n / s := by
      rw [Nat.div_eq_iff hs]
      constructor
      · rw [Nat.mul_comm]
        omega
      · rw [Nat.mul_comm]
        omega
    simp [h, hup]
  · have hup : (n + s - 1) / s = n / s + 1 := by
      rw [Nat.div_eq_iff hs]
      rw [Nat.add_mul, Nat.mul_comm (n / s) s]
      constructor
      · omega
      · omega
    have hpos : (0 : Int) < (n % s : Nat) := by omega
    rw [if_pos hpos, hup]
    push_cast
    rfl

abbrev bitsInWord : Nat := 32

structure Bitmap where
  numBits : Nat
  map : Image

namespace Bitmap

/-- `Bitmap::Test`. -/
def test (b : Bitmap) (which : Int) : Option Bool :=
  if 0 ≤ which ∧ which < b.numBits then
    some (b.map.word (which.toNat / bitsInWord) &&& (1#32 <<< (which.toNat % bitsInWord)) != 0#32)
  else none

/-- `Bitmap::Mark`. -/
def mark (b : Bitmap) (which : Int) : Option Bitmap :=
  if 0 ≤ which ∧ which < b.numBits then
    let k := which.toNat / bitsInWord
    let b' : Bitmap :=
      { b with map := b.map.setWord k
                 (b.map.word k ||| (1#32 <<< (which.toNat % bitsInWord))) }
    do if ← b'.test which then some b' else none
  else none

/-- `Bitmap::Clear`. -/
def clear (b : Bitmap) (which : Int) : Option Bitmap :=
  if 0 ≤ which ∧ which < b.numBits then
    let k := which.toNat / bitsInWord
    let b' : Bitmap :=
      { b with map := b.map.setWord k
                 (b.map.word k &&& ~~~(1#32 <<< (which.toNat % bitsInWord))) }
    do if ← b'.test which then none else some b'
  else none

/-- `Bitmap::Bitmap` in memory with contents `fresh`. -/
def new (fresh : Image) (numItems : Int) : Option Bitmap :=
  if 0 < numItems then
    let numWords := (divRoundUp numItems bitsInWord).toNat
    let map := (List.range numWords).foldl (fun m i => m.setWord i 0) fresh
    (List.range numItems.toNat).foldlM (fun b (i : Nat) => b.clear i)
      { numBits := numItems.toNat, map := map }
  else none

/-- The search loop of `FindAndSet`, with `n` indices left from `i` on. -/
def findAndSetFrom (b : Bitmap) : Nat → Nat → Option (Int × Bitmap)
  | 0, _ => some (-1, b)
  | n + 1, i => do
    if ← b.test i then b.findAndSetFrom n (i + 1)
    else
      let b' ← b.mark i
      some (i, b')

/-- `Bitmap::FindAndSet`. -/
def findAndSet (b : Bitmap) : Option (Int × Bitmap) := b.findAndSetFrom b.numBits 0

/-- `Bitmap::NumClear`. -/
def numClear (b : Bitmap) : Option Int :=
  (List.range b.numBits).foldlM
    (fun count (i : Nat) => do if ← b.test i then some count else some (count + 1)) 0

/-! ## Bits -/

def bit (b : Bitmap) (n : Nat) : Bool := (b.map.word (n / bitsInWord)).getLsbD (n % bitsInWord)

private theorem and_mask_ne_zero (w : BitVec 32) {j : Nat} (hj : j < 32) :
    (w &&& (1#32 <<< j) != 0#32) = w.getLsbD j := by
  cases hb : w.getLsbD j
  · have hzero : w &&& (1#32 <<< j) = 0#32 := by
      apply BitVec.eq_of_getLsbD_eq
      intro i hi
      by_cases hij : i = j
      · subst hij
        simp [hb]
      · have hi' : ¬ (i < j) → i - j ≠ 0 := by omega
        simp only [BitVec.getLsbD_and, BitVec.getLsbD_shiftLeft, BitVec.getLsbD_one,
          BitVec.getLsbD_zero]
        by_cases hlt : i < j
        · simp [hlt]
        · simp [hi' hlt]
    simp [hzero]
  · have hne : w &&& (1#32 <<< j) ≠ 0#32 := by
      intro hz
      have h := congrArg (fun v => v.getLsbD j) hz
      simp only [BitVec.getLsbD_and, hb, BitVec.getLsbD_shiftLeft, hj, Nat.lt_irrefl,
        Nat.sub_self, BitVec.getLsbD_zero] at h
      simp at h
    simpa using hne

theorem test_eq {b : Bitmap} {n : Nat} (h : n < b.numBits) : b.test n = some (b.bit n) := by
  have hcond : (0 : Int) ≤ n ∧ (n : Int) < b.numBits := by omega
  have hj : n % bitsInWord < 32 := Nat.mod_lt _ (by decide)
  simp only [test, hcond, and_self, if_true, Int.toNat_natCast, and_mask_ne_zero _ hj, bit]

/-- The bitmap after a successful `Mark`. -/
def marked (b : Bitmap) (n : Nat) : Bitmap :=
  { b with map := b.map.setWord (n / bitsInWord)
             (b.map.word (n / bitsInWord) ||| (1#32 <<< (n % bitsInWord))) }

/-- The bitmap after a successful `Clear`. -/
def cleared (b : Bitmap) (n : Nat) : Bitmap :=
  { b with map := b.map.setWord (n / bitsInWord)
             (b.map.word (n / bitsInWord) &&& ~~~(1#32 <<< (n % bitsInWord))) }

@[simp] theorem marked_numBits (b : Bitmap) (n : Nat) : (b.marked n).numBits = b.numBits := rfl

private theorem mask_getLsbD {i j : Nat} (hi : i < 32) :
    (1#32 <<< j).getLsbD i = decide (i = j) := by
  simp only [BitVec.getLsbD_shiftLeft, hi, decide_true, Bool.true_and, BitVec.getLsbD_one]
  by_cases h : i = j
  · simp [h]
  · by_cases hlt : i < j
    · simp [h, hlt]
    · have hsub : i - j ≠ 0 := by omega
      simp [h, hsub]

private theorem index_ext {k n : Nat} (hw : k / bitsInWord = n / bitsInWord)
    (hb : k % bitsInWord = n % bitsInWord) : k = n := by
  rw [← Nat.div_add_mod k bitsInWord, hw, hb, Nat.div_add_mod]

theorem bit_marked (b : Bitmap) (n k : Nat) :
    (b.marked n).bit k = (b.bit k || decide (k = n)) := by
  have hk : k % bitsInWord < 32 := Nat.mod_lt _ (by decide)
  by_cases hw : k / bitsInWord = n / bitsInWord
  · have hmask : decide (k % bitsInWord = n % bitsInWord) = decide (k = n) := by
      rw [decide_eq_decide]
      exact ⟨index_ext hw, fun h => by rw [h]⟩
    simp only [bit, marked, hw, Image.word_setWord_self, BitVec.getLsbD_or, mask_getLsbD hk, hmask]
  · have hne : k ≠ n := fun h => hw (by rw [h])
    simp only [bit, marked, Image.word_setWord_of_ne _ hw, hne, decide_false, Bool.or_false]

theorem bit_cleared (b : Bitmap) (n k : Nat) :
    (b.cleared n).bit k = (b.bit k && !decide (k = n)) := by
  have hk : k % bitsInWord < 32 := Nat.mod_lt _ (by decide)
  by_cases hw : k / bitsInWord = n / bitsInWord
  · have hmask : decide (k % bitsInWord = n % bitsInWord) = decide (k = n) := by
      rw [decide_eq_decide]
      exact ⟨index_ext hw, fun h => by rw [h]⟩
    simp only [bit, cleared, hw, Image.word_setWord_self, BitVec.getLsbD_and, BitVec.getLsbD_not,
      hk, decide_true, Bool.true_and, mask_getLsbD hk, hmask]
  · have hne : k ≠ n := fun h => hw (by rw [h])
    simp only [bit, cleared, Image.word_setWord_of_ne _ hw, hne, decide_false, Bool.not_false,
      Bool.and_true]

theorem mark_eq {b : Bitmap} {n : Nat} (h : n < b.numBits) : b.mark n = some (b.marked n) := by
  have hcond : (0 : Int) ≤ n ∧ (n : Int) < b.numBits := by omega
  have htest : (b.marked n).test n = some true := by
    rw [test_eq (b := b.marked n) h, bit_marked]
    simp
  simp only [marked] at htest
  simp only [mark, hcond, and_self, if_true, Int.toNat_natCast, htest, marked]
  rfl

theorem clear_eq {b : Bitmap} {n : Nat} (h : n < b.numBits) : b.clear n = some (b.cleared n) := by
  have hcond : (0 : Int) ≤ n ∧ (n : Int) < b.numBits := by omega
  have htest : (b.cleared n).test n = some false := by
    rw [test_eq (b := b.cleared n) h, bit_cleared]
    simp
  simp only [cleared] at htest
  simp only [clear, hcond, and_self, if_true, Int.toNat_natCast, htest, cleared]
  rfl

/-! ## The constructor -/

private theorem word_zeroed (fresh : Image) (numWords : Nat) {k : Nat} (hk : k < numWords) :
    ((List.range numWords).foldl (fun m i => m.setWord i 0) fresh).word k = 0 := by
  induction numWords with
  | zero => omega
  | succ n ih =>
    rw [List.range_succ, List.foldl_append, List.foldl_cons, List.foldl_nil,
      Image.word_setWord]
    split
    next => rfl
    next hne => exact ih (by omega)

private theorem clear_all (b : Bitmap) (n : Nat) (hn : n ≤ b.numBits) :
    ∃ b', (List.range n).foldlM (fun b (i : Nat) => b.clear i) b = some b' ∧
      b'.numBits = b.numBits ∧ ∀ k, b.bit k = false → b'.bit k = false := by
  induction n with
  | zero => exact ⟨b, rfl, rfl, fun _ h => h⟩
  | succ n ih =>
    obtain ⟨b', hfold, hbits, hclear⟩ := ih (by omega)
    refine ⟨b'.cleared n, ?_, hbits, ?_⟩
    · rw [List.range_succ, List.foldlM_append, hfold]
      have hn' : n < b'.numBits := by omega
      simp [clear_eq hn']
    · intro k hk
      rw [bit_cleared, hclear k hk, Bool.false_and]

theorem new_spec (fresh : Image) {n : Nat} (hn : 0 < n) :
    ∃ b, new fresh n = some b ∧ b.numBits = n ∧ ∀ k < n, b.bit k = false := by
  have hwords : (divRoundUp n bitsInWord).toNat = (n + 31) / 32 := by
    rw [divRoundUp_natCast n bitsInWord (by decide)]
    rfl
  let start : Bitmap :=
    { numBits := n,
      map := (List.range ((n + 31) / 32)).foldl (fun m i => m.setWord i 0) fresh }
  obtain ⟨b, hfold, hbits, hclear⟩ := clear_all start n (Nat.le_refl _)
  refine ⟨b, ?_, hbits, ?_⟩
  · have hpos : (0 : Int) < n := by omega
    simp only [new, hpos, if_true, hwords, Int.toNat_natCast]
    exact hfold
  · intro k hk
    apply hclear
    have hw : k / bitsInWord < (n + 31) / 32 := by
      show k / 32 < (n + 31) / 32
      omega
    show (start.map.word (k / bitsInWord)).getLsbD (k % bitsInWord) = false
    rw [show start.map.word (k / bitsInWord) = 0 from word_zeroed fresh _ hw]
    simp

/-! ## Searching and counting -/

def clearCount (b : Bitmap) : Nat := (List.range b.numBits).countP fun i => !b.bit i

theorem numClear_eq (b : Bitmap) : b.numClear = some (b.clearCount : Int) := by
  have hloop : ∀ n ≤ b.numBits, (List.range n).foldlM
      (fun count (i : Nat) => do if ← b.test i then some count else some (count + 1)) (0 : Int) =
        some ((List.range n).countP fun i => !b.bit i : Int) := by
    intro n hn
    induction n with
    | zero => rfl
    | succ n ih =>
      have hn' : n < b.numBits := by omega
      rw [List.range_succ, List.foldlM_append, ih (by omega), List.countP_append]
      cases hb : b.bit n <;> simp [test_eq hn', hb]
  exact hloop b.numBits (Nat.le_refl _)

theorem clearCount_of_clear {b : Bitmap} (h : ∀ k < b.numBits, b.bit k = false) :
    b.clearCount = b.numBits := by
  have hall : (List.range b.numBits).countP (fun i => !b.bit i) = (List.range b.numBits).length := by
    rw [List.countP_eq_length]
    intro k hk
    rw [h k (List.mem_range.mp hk)]
    rfl
  rwa [List.length_range] at hall

theorem bit_congr {b b' : Bitmap} {n k : Nat} (h : Image.AgreeTo (n * 4) b.map b'.map)
    (hk : k < n * bitsInWord) : b.bit k = b'.bit k := by
  have hword : b.map.word (k / bitsInWord) = b'.map.word (k / bitsInWord) := by
    apply h.word
    simp only [bitsInWord] at hk ⊢
    omega
  rw [bit, bit, hword]

theorem clearCount_congr {b b' : Bitmap} (hbits : b.numBits = b'.numBits)
    (h : ∀ k < b.numBits, b.bit k = b'.bit k) : b.clearCount = b'.clearCount := by
  rw [clearCount, clearCount, ← hbits]
  apply List.countP_congr
  intro k hk
  rw [h k (List.mem_range.mp hk)]

/-- `FindAndSet` takes the least clear index. -/
inductive FindAndSet (b : Bitmap) : Int × Bitmap → Prop
  | full (h : ∀ k < b.numBits, b.bit k = true) : FindAndSet b (-1, b)
  | found (n : Nat) (hn : n < b.numBits) (hclear : b.bit n = false)
      (hleast : ∀ k < n, b.bit k = true) : FindAndSet b (n, b.marked n)

private theorem findAndSetFrom_spec (b : Bitmap) (n i : Nat) (hn : n + i = b.numBits)
    (hbefore : ∀ k < i, b.bit k = true) :
    ∃ r, b.findAndSetFrom n i = some r ∧ b.FindAndSet r := by
  induction n generalizing i with
  | zero =>
    refine ⟨(-1, b), rfl, .full ?_⟩
    intro k hk
    exact hbefore k (by omega)
  | succ n ih =>
    have hi : i < b.numBits := by omega
    cases hb : b.bit i with
    | false =>
      refine ⟨(i, b.marked i), ?_, .found i hi hb hbefore⟩
      simp [findAndSetFrom, test_eq hi, hb, mark_eq hi]
    | true =>
      have hbefore' : ∀ k < i + 1, b.bit k = true := by
        intro k hk
        rcases Nat.lt_succ_iff_lt_or_eq.mp hk with hlt | rfl
        · exact hbefore k hlt
        · exact hb
      obtain ⟨r, hr, hspec⟩ := ih (i + 1) (by omega) hbefore'
      refine ⟨r, ?_, hspec⟩
      simp [findAndSetFrom, test_eq hi, hb, hr]

theorem findAndSet_spec (b : Bitmap) : ∃ r, b.findAndSet = some r ∧ b.FindAndSet r := by
  apply findAndSetFrom_spec b b.numBits 0 (by omega)
  intro k hk
  omega

private theorem countP_range_of_ne {p q : Nat → Bool} {n : Nat} (hp : p n = true)
    (hq : q n = false) (h : ∀ k, k ≠ n → p k = q k) (m : Nat) :
    (List.range m).countP p = (List.range m).countP q + if n < m then 1 else 0 := by
  induction m with
  | zero => simp
  | succ m ih =>
    rw [List.range_succ, List.countP_append, List.countP_append, ih]
    rcases Nat.lt_trichotomy n m with hlt | rfl | hgt
    · have hm := h m (by omega)
      have hlt' : n < m + 1 := by omega
      simp [hlt, hlt', hm]
      omega
    · simp [hp, hq]
    · have hm := h m (by omega)
      have h₁ : ¬ n < m := by omega
      have h₂ : ¬ n < m + 1 := by omega
      simp [h₁, h₂, hm]

theorem clearCount_marked {b : Bitmap} {n : Nat} (hn : n < b.numBits) (hclear : b.bit n = false) :
    b.clearCount = (b.marked n).clearCount + 1 := by
  have hother : ∀ k, k ≠ n → (!b.bit k) = !(b.marked n).bit k := by
    intro k hk
    rw [bit_marked, decide_eq_false hk, Bool.or_false]
  have hp : (!b.bit n) = true := by rw [hclear]; rfl
  have hq : (!(b.marked n).bit n) = false := by
    rw [bit_marked]
    simp
  have hcount := countP_range_of_ne hp hq hother b.numBits
  rwa [if_pos hn] at hcount

theorem clearCount_of_full {b : Bitmap} (h : ∀ k < b.numBits, b.bit k = true) :
    b.clearCount = 0 := by
  apply List.countP_eq_zero.mpr
  intro k hk
  rw [h k (List.mem_range.mp hk)]
  decide

theorem findAndSet_of_clearCount {b : Bitmap} (h : 0 < b.clearCount) :
    ∃ n, n < b.numBits ∧ b.bit n = false ∧ (∀ k < n, b.bit k = true) ∧
      b.findAndSet = some (↑n, b.marked n) := by
  obtain ⟨r, hr, hspec⟩ := b.findAndSet_spec
  cases hspec with
  | full hfull =>
    have := clearCount_of_full hfull
    omega
  | found n hn hclear hleast => exact ⟨n, hn, hclear, hleast, hr⟩

end Bitmap
end Nachos

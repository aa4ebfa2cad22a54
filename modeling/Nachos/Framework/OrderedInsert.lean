import Mathlib.Data.List.Sort

/-!
# Stable ordered insertion

Inserting before the first element that the new item must precede keeps a list pairwise
ordered, also when the order is finer than the test used for the insertion. This is what
makes an insertion loop stable: the finer order can record the time of arrival.
-/

namespace Framework

variable {α : Type*} (p : α → α → Prop) [DecidableRel p]

/-- The test `p` only has to decide on which side of each old element the new one belongs. -/
theorem pairwise_orderedInsert {R : α → α → Prop} (htrans : ∀ x y z, R x y → R y z → R x z)
    (x : α) (l : List α) (hl : l.Pairwise R) (hbefore : ∀ y ∈ l, p x y → R x y)
    (hafter : ∀ y ∈ l, ¬ p x y → R y x) : (l.orderedInsert p x).Pairwise R := by
  induction l with
  | nil => simp
  | cons y l ih =>
    have htail := (List.pairwise_cons.mp hl).2
    have hhead := (List.pairwise_cons.mp hl).1
    rw [List.orderedInsert_cons]
    split
    next hp =>
      have hxy : R x y := hbefore y (by simp) hp
      refine List.pairwise_cons.mpr ⟨?_, hl⟩
      intro z hz
      rcases List.mem_cons.mp hz with rfl | hz
      · exact hxy
      · exact htrans x y z hxy (hhead z hz)
    next hp =>
      refine List.pairwise_cons.mpr ⟨?_, ih htail ?_ ?_⟩
      · intro z hz
        rcases (List.mem_orderedInsert p).mp hz with rfl | hz
        · exact hafter y (by simp) hp
        · exact hhead z hz
      · intro z hz
        exact hbefore z (by simp [hz])
      · intro z hz
        exact hafter z (by simp [hz])

theorem orderedInsert_eq_append {x : α} {l : List α} (h : ∀ y ∈ l, ¬ p x y) :
    l.orderedInsert p x = l ++ [x] := by
  induction l with
  | nil => rfl
  | cons y l ih =>
    rw [List.orderedInsert_cons, if_neg (h y (by simp)), ih fun z hz => h z (by simp [hz])]
    rfl

/-- In an ordered list the new element stands where the test changes. -/
theorem orderedInsert_split {R : α → α → Prop} {x : α} {l : List α} (hl : l.Pairwise R)
    (hup : ∀ y z, R y z → p x y → p x z) :
    ∃ left right, l = left ++ right ∧ l.orderedInsert p x = left ++ x :: right ∧
      (∀ y ∈ left, ¬ p x y) ∧ ∀ y ∈ right, p x y := by
  induction l with
  | nil => exact ⟨[], [], rfl, rfl, by simp, by simp⟩
  | cons y l ih =>
    obtain ⟨hhead, htail⟩ := List.pairwise_cons.mp hl
    rw [List.orderedInsert_cons]
    split
    next hp =>
      refine ⟨[], y :: l, rfl, rfl, by simp, ?_⟩
      intro z hz
      rcases List.mem_cons.mp hz with rfl | hz
      · exact hp
      · exact hup y z (hhead z hz) hp
    next hp =>
      obtain ⟨left, right, hsplit, hinsert, hleft, hright⟩ := ih htail
      refine ⟨y :: left, right, by rw [hsplit]; rfl, by rw [hinsert]; rfl, ?_, hright⟩
      intro z hz
      rcases List.mem_cons.mp hz with rfl | hz
      · exact hp
      · exact hleft z hz

/-- In a list that falls in `f`, an element goes behind those of its own value and moves none of
the others against each other. -/
theorem filter_orderedInsert {β : Type*} [LinearOrder β] {f : α → β} {x : α}
    (hp : ∀ y, p x y ↔ f y < f x) {l : List α} (hl : l.Pairwise fun y z => f z ≤ f y) (q : β) :
    (l.orderedInsert p x).filter (fun y => f y = q) = (l ++ [x]).filter fun y => f y = q := by
  induction l with
  | nil => rfl
  | cons y l ih =>
    obtain ⟨hhead, htail⟩ := List.pairwise_cons.mp hl
    rw [List.orderedInsert_cons]
    split
    next hlt =>
      by_cases hx : f x = q
      · -- everything behind the new element is smaller
        have hbelow : ((y :: l).filter fun y => f y = q) = [] := by
          apply List.filter_eq_nil_iff.mpr
          intro z hz
          have hzy : f z ≤ f y := by
            rcases List.mem_cons.mp hz with rfl | hz
            · exact le_rfl
            · exact hhead z hz
          have hzx : f z < f x := lt_of_le_of_lt hzy ((hp y).mp hlt)
          simpa [← hx] using hzx.ne
        rw [List.filter_append, List.filter_cons_of_pos (by simpa using hx), hbelow,
          List.filter_cons_of_pos (by simpa using hx)]
        rfl
      · have hnone : ([x].filter fun y => f y = q) = [] :=
          List.filter_cons_of_neg (by simpa using hx)
        rw [List.filter_append, List.filter_cons_of_neg (by simpa using hx), hnone,
          List.append_nil]
    next =>
      rw [List.cons_append, List.filter_cons, List.filter_cons, ih htail]

end Framework

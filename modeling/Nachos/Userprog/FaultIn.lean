import Nachos.Userprog.Transparency
import Nachos.Userprog.Locality

/-!
# Pages at load time and pages on demand

`Load` copies the executable segment by segment into the pages that got a frame. The handler fills
the frame of one page byte by byte, looking for each byte in which segment it lies. For the bytes
of the segments the two give the same page.
-/

namespace Nachos

open Framework

/-- The three segments with bytes in the executable do not overlap and lie in the first
`NumPhysPages` pages. Their ends are numbers of type `int`. -/
structure NoffHeader.Separate (h : NoffHeader) : Prop where
  representable : ∀ s ∈ [h.code, h.initData, h.readonlyData], s.Representable
  disjoint : [h.code, h.initData, h.readonlyData].Pairwise fun s s' => ∀ x, s.Has x → ¬ s'.Has x
  inside : ∀ s ∈ [h.code, h.initData, h.readonlyData], ∀ x, s.Has x → 0 ≤ x ∧ x < memorySize

namespace Vm

variable {m m' : Vm}

/-! ## The frames `Load` hands out -/

private theorem foldl_loadEntry_frames (m : Vm) (fileName : FileName) (t n : Nat) :
    ∀ v < n, ((((List.range n).foldl (loadEntry fileName t) m).tables t v).physicalPage = -1 ∨
      ∃ p : Nat, (((List.range n).foldl (loadEntry fileName t) m).tables t v).physicalPage = p ∧
        (((List.range n).foldl (loadEntry fileName t) m).globalPageTable p).refPageTable = some t ∧
        (((List.range n).foldl (loadEntry fileName t) m).globalPageTable p).virNum = v) := by
  induction n with
  | zero => exact fun v hv => absurd hv (Nat.not_lt_zero v)
  | succ n ih =>
    intro v hv
    rw [List.range_succ, List.foldl_append, List.foldl_cons, List.foldl_nil]
    generalize (List.range n).foldl (loadEntry fileName t) m = m₁ at ih
    unfold loadEntry findFreeFrame
    cases hfind : (List.range numPhysPages).find?
        fun i => (m₁.globalPageTable i).refPageTable.isNone with
    | none =>
      by_cases hvn : v = n
      · left
        simp [setEntry, hvn]
      · have hold := ih v (by omega)
        simpa [setEntry, Function.update_of_ne hvn] using hold
    | some p =>
      by_cases hvn : v = n
      · right
        refine ⟨p, ?_, ?_, ?_⟩
        · simp [setEntry, hvn]
        · simp [setEntry]
        · simp [setEntry, hvn]
      · -- a frame that is already taken is not found again
        rcases ih v (by omega) with hneg | ⟨q, hq, href, hvir⟩
        · left
          simpa [setEntry, Function.update_of_ne hvn] using hneg
        · right
          have hqp : q ≠ p := by
            rintro rfl
            have hfree := List.find?_some hfind
            rw [href] at hfree
            cases hfree
          refine ⟨q, ?_, ?_, ?_⟩
          · simpa [setEntry, Function.update_of_ne hvn] using hq
          · simpa [setEntry, Function.update_of_ne hqp] using href
          · simpa [setEntry, Function.update_of_ne hqp] using hvir

/-- Page `v` of table `t` is the only one in frame `q`. -/
structure OnlyIn (m : Vm) (t v q : Nat) : Prop where
  frame : (m.tables t v).physicalPage = q
  others : ∀ w < numPhysPages, w ≠ v → (m.tables t w).physicalPage < 0 ∨
    ∃ p : Nat, (m.tables t w).physicalPage = p ∧ p ≠ q

theorem OnlyIn.congr {t v q : Nat} (h : m.OnlyIn t v q) (htables : m'.tables = m.tables) :
    m'.OnlyIn t v q := by
  constructor
  case frame =>
    rw [htables]
    exact h.frame
  case others =>
    rw [htables]
    exact h.others

private theorem withTable_frames (m : Vm) (fileName : FileName) {v : Nat}
    (hv : v < numPhysPages) :
    ((m.withTable fileName).tables m.nextTable v).physicalPage = -1 ∨
      ∃ p : Nat, ((m.withTable fileName).tables m.nextTable v).physicalPage = p ∧
        ((m.withTable fileName).globalPageTable p).virNum = v := by
  unfold withTable
  rcases foldl_loadEntry_frames { m with nextTable := m.nextTable + 1 } fileName m.nextTable
    numPhysPages v hv with hneg | ⟨p, hp, -, hvir⟩
  · exact .inl hneg
  · exact .inr ⟨p, hp, hvir⟩

private theorem onlyIn_withTable {fileName : FileName} {v q : Nat} (hv : v < numPhysPages)
    (hq : ((m.withTable fileName).tables m.nextTable v).physicalPage = q) :
    (m.withTable fileName).OnlyIn m.nextTable v q := by
  refine ⟨hq, ?_⟩
  intro w hw hne
  rcases m.withTable_frames fileName hw with hneg | ⟨p, hp, hvirp⟩
  · left
    omega
  · right
    refine ⟨p, hp, ?_⟩
    rintro rfl
    rcases m.withTable_frames fileName hv with hneg | ⟨r, hr, hvirr⟩
    · omega
    · have hrp : r = p := by omega
      rw [hrp] at hvirr
      omega

/-! ## One page of a segment -/

/-- The segment cut after `n` bytes. -/
private def upTo (s : Segment) (n : Nat) : Segment := { s with size := n }

private theorem segmentByte_upTo_succ (f : HostFile) (s : Segment) (n x : Nat) :
    segmentByte f (upTo s (n + 1)) x =
      if (x : Int) = s.virtualAddr + n then f.byte? (int32 (s.inFileAddr + n))
      else segmentByte f (upTo s n) x := by
  by_cases hx : (x : Int) = s.virtualAddr + n
  · have hin : s.virtualAddr ≤ x ∧ (x : Int) < s.virtualAddr + (n + 1 : Nat) := by omega
    rw [if_pos hx, segmentByte, upTo, if_pos hin, hx]
    have hoff : s.virtualAddr + (n : Int) - s.virtualAddr = n := by omega
    rw [hoff]
  · have hiff : (s.virtualAddr ≤ x ∧ (x : Int) < s.virtualAddr + (n + 1 : Nat)) ↔
        (s.virtualAddr ≤ x ∧ (x : Int) < s.virtualAddr + n) := by omega
    rw [if_neg hx]
    unfold segmentByte upTo
    exact if_congr hiff rfl rfl

/-- What the first `n` bytes of a segment leave in the frame of a page. -/
private structure Copied (f : HostFile) (s : Segment) (v q n : Nat) (m m' : Vm) : Prop where
  tables : m'.tables = m.tables
  bytes : ∀ i < pageSize, m'.mainMemory (q * pageSize + i) =
    (segmentByte f (upTo s n) (v * pageSize + i)).getD (m.mainMemory (q * pageSize + i))
  positions : ∀ i < pageSize, (upTo s n).Has (v * pageSize + i : Nat) →
    0 ≤ int32 (s.inFileAddr + (v * pageSize + i : Nat) - s.virtualAddr)

private theorem Copied.zero (f : HostFile) (s : Segment) (v q : Nat) (m : Vm) :
    Copied f s v q 0 m m := by
  constructor
  case tables => rfl
  case bytes =>
    intro i _
    have hout : ¬ (s.virtualAddr ≤ (v * pageSize + i : Nat) ∧
        ((v * pageSize + i : Nat) : Int) < s.virtualAddr + (0 : Nat)) := by omega
    rw [segmentByte, upTo, if_neg hout, Option.getD_none]
  case positions =>
    intro i _ hhas
    obtain ⟨hle, hlt⟩ : s.virtualAddr ≤ _ ∧ _ < s.virtualAddr + ((0 : Nat) : Int) := hhas
    omega

section Succ

variable {f : HostFile} {s : Segment} {t v q n a : Nat} {m₁ : Vm}

private theorem Copied.bytes_of_ne (h : Copied f s v q n m m₁) (ha : s.virtualAddr + n = (a : Int))
    {i : Nat} (hi : i < pageSize) (hne : v * pageSize + i ≠ a)
    (hsame : m'.mainMemory (q * pageSize + i) = m₁.mainMemory (q * pageSize + i)) :
    m'.mainMemory (q * pageSize + i) =
      (segmentByte f (upTo s (n + 1)) (v * pageSize + i)).getD
        (m.mainMemory (q * pageSize + i)) := by
  have hnot : ¬ ((v * pageSize + i : Nat) : Int) = s.virtualAddr + n := by omega
  rw [hsame, h.bytes i hi, segmentByte_upTo_succ, if_neg hnot]

private theorem Copied.positions_succ (h : Copied f s v q n m m₁)
    (ha : s.virtualAddr + n = (a : Int)) (hpos : a / pageSize = v → 0 ≤ int32 (s.inFileAddr + n)) :
    ∀ i < pageSize, (upTo s (n + 1)).Has (v * pageSize + i : Nat) →
      0 ≤ int32 (s.inFileAddr + (v * pageSize + i : Nat) - s.virtualAddr) := by
  intro i hi hhas
  obtain ⟨hle, hlt⟩ : s.virtualAddr ≤ _ ∧ _ < s.virtualAddr + ((n + 1 : Nat) : Int) := hhas
  by_cases hnew : v * pageSize + i = a
  · have hpage : a / pageSize = v := by
      simp only [pageSize] at *
      omega
    have hoff : s.inFileAddr + (v * pageSize + i : Nat) - s.virtualAddr = s.inFileAddr + n := by
      omega
    rw [hoff]
    exact hpos hpage
  · exact h.positions i hi ⟨hle, by show _ < s.virtualAddr + (n : Int); omega⟩

private theorem Copied.here (h : Copied f s v q n m m₁) (ha : s.virtualAddr + n = (a : Int))
    (hpage : a / pageSize = v) (hpos : 0 ≤ int32 (s.inFileAddr + n)) {x : Nat}
    (hx : x = q * pageSize + a % pageSize) (htables : m'.tables = m.tables)
    (hmem : m'.mainMemory = Function.update m₁.mainMemory x
      ((f.byte? (int32 (s.inFileAddr + n))).getD (m₁.mainMemory x))) :
    Copied f s v q (n + 1) m m' := by
  constructor
  case tables => exact htables
  case bytes =>
    intro i hi
    by_cases hnew : v * pageSize + i = a
    · have hxi : x = q * pageSize + i := by
        simp only [pageSize] at *
        omega
      have hold : segmentByte f (upTo s n) (v * pageSize + i) = none := by
        apply if_neg
        show ¬ (s.virtualAddr ≤ _ ∧ _ < s.virtualAddr + (n : Int))
        omega
      have heq : ((v * pageSize + i : Nat) : Int) = s.virtualAddr + n := by omega
      rw [hmem, ← hxi, Function.update_self, hxi, h.bytes i hi, hold, Option.getD_none,
        segmentByte_upTo_succ, if_pos heq]
    · apply h.bytes_of_ne ha hi hnew
      have hxi : q * pageSize + i ≠ x := by
        simp only [pageSize] at *
        omega
      rw [hmem, Function.update_of_ne hxi]
  case positions => exact h.positions_succ ha fun _ => hpos

private theorem Copied.elsewhere (h : Copied f s v q n m m₁) (ha : s.virtualAddr + n = (a : Int))
    (hpage : a / pageSize ≠ v) (htables : m'.tables = m.tables)
    (hsame : ∀ i < pageSize, m'.mainMemory (q * pageSize + i) =
      m₁.mainMemory (q * pageSize + i)) : Copied f s v q (n + 1) m m' := by
  constructor
  case tables => exact htables
  case bytes =>
    intro i hi
    have hne : v * pageSize + i ≠ a := by
      simp only [pageSize] at *
      omega
    exact h.bytes_of_ne ha hi hne (hsame i hi)
  case positions => exact h.positions_succ ha fun heq => absurd heq hpage

private theorem Copied.succ (h : Copied f s v q n m m₁) (honly : m.OnlyIn t v q)
    (hva : 0 ≤ s.virtualAddr) (hstep : loadByte f t s m₁ n = some m') :
    Copied f s v q (n + 1) m m' := by
  obtain ⟨w, hdiv, hw, hcases⟩ := loadByte_cases hstep
  obtain ⟨a, ha⟩ := Int.eq_ofNat_of_zero_le (show 0 ≤ s.virtualAddr + n by omega)
  obtain rfl : a / pageSize = w := by
    rw [ha] at hdiv
    exact Int.ofNat.inj hdiv
  rw [h.tables, ha, ← Int.ofNat_tmod] at hcases
  by_cases hpage : a / pageSize = v
  · rw [hpage, honly.frame] at hcases
    rcases hcases with ⟨hneg, -⟩ | ⟨x, hx, -, hpos, rfl⟩
    · omega
    · have hxq : x = q * pageSize + a % pageSize := by omega
      exact h.here ha hpage hpos hxq rfl rfl
  · rcases hcases with ⟨-, rfl⟩ | ⟨x, hx, hphys, -, rfl⟩
    · exact h.elsewhere ha hpage h.tables fun _ _ => rfl
    · refine h.elsewhere ha hpage rfl ?_
      intro i hi
      -- another page, so another frame
      rcases honly.others _ hw hpage with hneg | ⟨p, hp, hpq⟩
      · omega
      · have hxi : q * pageSize + i ≠ x := by
          rw [hp] at hx
          have := Nat.mod_lt a (show 0 < pageSize by decide)
          simp only [pageSize] at *
          omega
        exact Function.update_of_ne hxi _ _

end Succ

private theorem Copied.run {f : HostFile} {s : Segment} {t v q : Nat} (honly : m.OnlyIn t v q)
    (n : Nat) (hva : 0 < n → 0 ≤ s.virtualAddr)
    (h : (List.range n).foldlM (loadByte f t s) m = some m') : Copied f s v q n m m' := by
  induction n generalizing m' with
  | zero =>
    obtain rfl := Option.some.inj h
    exact .zero f s v q m
  | succ n ih =>
    rw [List.range_succ, List.foldlM_append] at h
    obtain ⟨m₁, h₁, h₂⟩ := Option.bind_eq_some_iff.mp h
    rw [List.foldlM_cons] at h₂
    obtain ⟨m₂, hstep, h₂⟩ := Option.bind_eq_some_iff.mp h₂
    obtain rfl := Option.some.inj h₂
    have hva' := hva (Nat.succ_pos n)
    exact (ih (fun _ => hva') h₁).succ honly hva' hstep

private theorem has_upTo_size (s : Segment) (x : Int) : (upTo s s.size.toNat).Has x ↔ s.Has x := by
  show s.virtualAddr ≤ x ∧ x < s.virtualAddr + (s.size.toNat : Int) ↔
    s.virtualAddr ≤ x ∧ x < s.virtualAddr + s.size
  omega

private theorem loadSegment_tables {f : HostFile} {s : Segment} {t : Nat}
    (h : loadSegment f t m s = some m') : m'.tables = m.tables := by
  unfold loadSegment at h
  generalize List.range s.size.toNat = is at h
  induction is generalizing m with
  | nil =>
    obtain rfl := Option.some.inj h
    rfl
  | cons i is ih =>
    rw [List.foldlM_cons] at h
    obtain ⟨m₁, h₁, h₂⟩ := Option.bind_eq_some_iff.mp h
    obtain ⟨v, -, -, ⟨-, rfl⟩ | ⟨x, -, -, -, rfl⟩⟩ := loadByte_cases h₁
    · exact ih h₂
    · have hrest := ih h₂
      exact hrest

private theorem loadSegment_page {f : HostFile} {s : Segment} {t v q : Nat} (honly : m.OnlyIn t v q)
    (hinside : ∀ x, s.Has x → 0 ≤ x) (h : loadSegment f t m s = some m') :
    (∀ i < pageSize, m'.mainMemory (q * pageSize + i) =
      (segmentByte f s (v * pageSize + i)).getD (m.mainMemory (q * pageSize + i))) ∧
    ∀ i < pageSize, s.Has (v * pageSize + i : Nat) →
      0 ≤ int32 (s.inFileAddr + (v * pageSize + i : Nat) - s.virtualAddr) := by
  have hva : 0 < s.size.toNat → 0 ≤ s.virtualAddr := by
    intro hpos
    apply hinside
    exact ⟨Int.le_refl _, by omega⟩
  have hcopied := Copied.run honly _ hva h
  constructor
  · intro i hi
    have hsame : segmentByte f (upTo s s.size.toNat) (v * pageSize + i) =
        segmentByte f s (v * pageSize + i) :=
      if_congr (has_upTo_size s _) rfl rfl
    rw [hcopied.bytes i hi, hsame]
  · intro i hi hhas
    exact hcopied.positions i hi ((has_upTo_size s _).mpr hhas)

private theorem loadEntry_mainMemory (m : Vm) (fileName : FileName) (t i : Nat) :
    (loadEntry fileName t m i).mainMemory = m.mainMemory := by
  unfold loadEntry findFreeFrame
  cases (List.range numPhysPages).find? fun i => (m.globalPageTable i).refPageTable.isNone with
  | none => rfl
  | some p => rfl

private theorem foldl_loadEntry_mainMemory (m : Vm) (fileName : FileName) (t n : Nat) :
    ((List.range n).foldl (loadEntry fileName t) m).mainMemory = m.mainMemory := by
  induction n with
  | zero => rfl
  | succ n ih =>
    rw [List.range_succ, List.foldl_append, List.foldl_cons, List.foldl_nil,
      loadEntry_mainMemory, ih]

private theorem withTable_mainMemory (m : Vm) (fileName : FileName) :
    (m.withTable fileName).mainMemory = m.mainMemory :=
  foldl_loadEntry_mainMemory { m with nextTable := m.nextTable + 1 } fileName _ _

/-- `Load` puts the bytes of a page that has a frame where the handler would put them, and reads
none of them at a negative position. -/
private theorem load_page {fileName : FileName} {noffH : Nat → Byte} {f : HostFile} {v q : Nat}
    (hf : m.files fileName = some f) (hsep : (headerOf f noffH).Separate)
    (hload : m.load fileName noffH = some m') (hv : v < numPhysPages)
    (hq : (m'.tables m.nextTable v).physicalPage = q) :
    (∀ i < pageSize, m'.mainMemory (q * pageSize + i) =
      (fileByte f (headerOf f noffH).fileAddr (v * pageSize + i)).getD
        (m.mainMemory (q * pageSize + i))) ∧
    ∀ i < pageSize, ∀ p, reloadOffset (headerOf f noffH).fileAddr (v * pageSize + i : Nat) =
      some p → 0 ≤ p := by
  obtain ⟨hnone, -⟩ | ⟨f', m₂, m₃, m₄, hf', -, h₂, h₃, h₄, rfl⟩ := load_cases hload
  · cases hf.symm.trans hnone
  · obtain rfl := Option.some.inj (hf.symm.trans hf')
    have hinside : ∀ s ∈ [(headerOf f noffH).code, (headerOf f noffH).initData,
        (headerOf f noffH).readonlyData], ∀ x, s.Has x → 0 ≤ x :=
      fun s hs x hx => (hsep.inside s hs x hx).1
    have hsame₂ := loadSegment_tables h₂
    have hsame₃ := (loadSegment_tables h₃).trans hsame₂
    have hsame₄ := (loadSegment_tables h₄).trans hsame₃
    have honly : (m.withTable fileName).OnlyIn m.nextTable v q := by
      apply onlyIn_withTable hv
      rw [withTable, ← hsame₄]
      exact hq
    obtain ⟨hcode, hpcode⟩ := loadSegment_page honly (hinside _ (by simp)) h₂
    obtain ⟨hinit, hpinit⟩ := loadSegment_page (honly.congr hsame₂) (hinside _ (by simp)) h₃
    obtain ⟨hread, hpread⟩ := loadSegment_page (honly.congr hsame₃) (hinside _ (by simp)) h₄
    constructor
    · intro i hi
      rw [← NoffHeader.imageOver_of_disjoint hsep.representable hsep.disjoint f
        (fun _ => m.mainMemory (q * pageSize + i)), ← m.withTable_mainMemory fileName]
      show m₄.mainMemory _ = _
      rw [hread i hi, hinit i hi, hcode i hi, imageOver]
    · intro i hi p hp
      rw [NoffHeader.reloadOffset_eq hsep.representable] at hp
      split at hp
      next hhas =>
        obtain rfl := Option.some.inj hp
        exact hpcode i hi hhas
      next =>
        split at hp
        next hhas =>
          obtain rfl := Option.some.inj hp
          exact hpinit i hi hhas
        next =>
          split at hp
          next hhas =>
            obtain rfl := Option.some.inj hp
            exact hpread i hi hhas
          next => cases hp

/-! ## The handler -/

private theorem fill_then_enter {m₂ : Vm} {t v phy : Nat} {vir : Int}
    (h : ((m₂.fillFrame t v phy).bind fun q =>
      (q.2.invalidate phy vir).bind fun n => some (n.assign t q.1 phy)) = some m') :
    ∃ input, m'.files (m₂.tables t v).diskFile = some input ∧
      (m'.tables t v).physicalPage = phy ∧
      (List.range pageSize).foldlM (fillByte input m₂.fileAddr v phy) m₂.mainMemory =
        some m'.mainMemory := by
  obtain ⟨⟨w, m₃⟩, hfill, h⟩ := Option.bind_eq_some_iff.mp h
  obtain ⟨m₄, hinv, h⟩ := Option.bind_eq_some_iff.mp h
  obtain rfl := Option.some.inj h
  simp only [fillFrame, Option.bind_eq_bind] at hfill
  obtain ⟨v', hv', hfill⟩ := Option.bind_eq_some_iff.mp hfill
  obtain rfl : v = v' := by
    have := (arrayIndex_eq_some.mp hv').1
    omega
  obtain ⟨input, hinput, hfill⟩ := Option.bind_eq_some_iff.mp hfill
  obtain ⟨memory, hmemory, hfill⟩ := Option.bind_eq_some_iff.mp hfill
  obtain ⟨rfl, rfl⟩ := Prod.mk.inj (Option.some.inj hfill)
  have hkept : m₄.files = m₂.files ∧ m₄.mainMemory = memory := by
    unfold invalidate at hinv
    split at hinv
    next =>
      obtain rfl := Option.some.inj hinv
      exact ⟨rfl, rfl⟩
    next ref _ =>
      obtain ⟨w', -, hinv⟩ := Option.bind_eq_some_iff.mp hinv
      obtain rfl := Option.some.inj hinv
      exact ⟨rfl, rfl⟩
  refine ⟨input, ?_, ?_, ?_⟩
  · show m₄.files _ = some input
    rw [hkept.1]
    exact hinput
  · show ((m₄.assign t v phy).tables t v).physicalPage = phy
    rw [assign_tables, if_pos ⟨rfl, rfl⟩]
  · rw [hmemory]
    exact congrArg some hkept.2.symm

private theorem pageFault_fills {t v : Nat} {vir : Int} (hpt : m.pageTable = some t)
    (hvpn : (m.registers badVAddrReg).toInt.tdiv pageSize = v) (h : m.pageFault vir = some m') :
    ∃ (phy : Nat) (input : HostFile), m'.files (m.tables t v).diskFile = some input ∧
      (m'.tables t v).physicalPage = phy ∧
      (List.range pageSize).foldlM (fillByte input m.fileAddr v phy) m.mainMemory =
        some m'.mainMemory := by
  by_cases hall : m.AllTaken
  · rw [pageFault_allTaken hall hpt, hvpn] at h
    obtain ⟨r, hevict, h⟩ := Option.bind_eq_some_iff.mp h
    obtain ⟨-, -, -, -, -, -, hfiles⟩ := evict_cases hevict
    have htables : r.2.2.tables = m.tables := by rw [hfiles]
    have haddr : r.2.2.fileAddr = m.fileAddr := by rw [hfiles]
    have hmemory : r.2.2.mainMemory = m.mainMemory := by rw [hfiles]
    obtain ⟨input, hfile, hphys, hfill⟩ := fill_then_enter h
    rw [htables] at hfile
    rw [haddr, hmemory] at hfill
    exact ⟨r.1, input, hfile, hphys, hfill⟩
  · obtain ⟨p, g, hfind, -⟩ := findFreeFrame_free hall
      ((m.registers badVAddrReg).toInt.tdiv pageSize) t
    rw [pageFault_free hpt hfind, hvpn] at h
    obtain ⟨input, hfile, hphys, hfill⟩ := fill_then_enter h
    exact ⟨p, input, hfile, hphys, hfill⟩

end Vm

theorem NoffHeader.Separate.reloadOffset {h : NoffHeader} (hsep : h.Separate) {s : Segment}
    (hs : s ∈ [h.code, h.initData, h.readonlyData]) {x : Int} (hx : s.Has x) :
    reloadOffset h.fileAddr x = some (int32 (s.inFileAddr + x - s.virtualAddr)) := by
  obtain ⟨⟨hci, hcr⟩, hir⟩ := by simpa using hsep.disjoint
  rw [reloadOffset_eq hsep.representable]
  simp only [List.mem_cons, List.not_mem_nil, or_false] at hs
  rcases hs with rfl | rfl | rfl
  · rw [if_pos hx]
  · have hc : ¬ h.code.Has x := fun hc => hci x hc hx
    rw [if_neg hc, if_pos hx]
  · have hc : ¬ h.code.Has x := fun hc => hcr x hc hx
    have hi : ¬ h.initData.Has x := fun hi => hir x hi hx
    rw [if_neg hc, if_neg hi, if_pos hx]

private theorem segmentAt_inFileAddr_range (buffer : Nat → Byte) (i : Nat) :
    -2 ^ 31 ≤ (segmentAt buffer i).inFileAddr ∧ (segmentAt buffer i).inFileAddr < 2 ^ 31 := by
  rw [segmentAt, intAt]
  exact ⟨BitVec.le_toInt _, BitVec.toInt_lt⟩

private theorem inFileAddr_range {f : HostFile} {noffH : Nat → Byte} {s : Segment}
    (hs : s ∈ [(Vm.headerOf f noffH).code, (Vm.headerOf f noffH).initData,
      (Vm.headerOf f noffH).readonlyData]) :
    -2 ^ 31 ≤ s.inFileAddr ∧ s.inFileAddr < 2 ^ 31 := by
  simp only [List.mem_cons, List.not_mem_nil, or_false] at hs
  rcases hs with rfl | rfl | rfl
  · exact segmentAt_inFileAddr_range _ 1
  · exact segmentAt_inFileAddr_range _ 4
  · exact segmentAt_inFileAddr_range _ 7

private theorem position_of_nonneg {f : HostFile} {noffH : Nat → Byte} {s : Segment} {x : Int}
    (hsep : (Vm.headerOf f noffH).Separate)
    (hs : s ∈ [(Vm.headerOf f noffH).code, (Vm.headerOf f noffH).initData,
      (Vm.headerOf f noffH).readonlyData]) (hx : s.Has x)
    (hpos : 0 ≤ int32 (s.inFileAddr + x - s.virtualAddr)) :
    int32 (s.inFileAddr + x - s.virtualAddr) = s.inFileAddr + x - s.virtualAddr := by
  obtain ⟨hlow, hhigh⟩ := inFileAddr_range hs
  have hlast := (hsep.inside s hs x hx).2
  have hfirst : s.Has s.virtualAddr := by
    obtain ⟨hle, hlt⟩ := hx
    exact ⟨Int.le_refl _, Int.lt_of_le_of_lt hle hlt⟩
  have hva := (hsep.inside s hs _ hfirst).1
  apply int32_of_nonneg hpos
  simp only [memorySize, numPhysPages, pageSize] at hlast
  have hle := hx.1
  omega

/-- A machine loads an executable, and page `v` gets a frame. Then the handler can fill any frame
with that page of an address space of the same executable, and after it has, every byte of the
page that lies in a segment is what the load has stored for it: the byte of the executable, or
nothing where the executable is too short. -/
theorem fault_in_eager {m m' : Vm} {fileName : FileName} {noffH : Nat → Byte} {f : HostFile}
    {v q : Nat} (hf : m.files fileName = some f) (hsep : (Vm.headerOf f noffH).Separate)
    (hload : m.load fileName noffH = some m') (hv : v < numPhysPages)
    (hq : (m'.tables m.nextTable v).physicalPage = q) :
    (∀ phy memory, ∃ memory', (List.range pageSize).foldlM
      (fillByte f (Vm.headerOf f noffH).fileAddr v phy) memory = some memory') ∧
    ∀ (n n' : Vm) (t : Nat) (vir : Int), n.pageTable = some t →
      n.fileAddr = (Vm.headerOf f noffH).fileAddr →
      (n.registers badVAddrReg).toInt.tdiv pageSize = v → n.pageFault vir = some n' →
      n'.files (n.tables t v).diskFile = some f →
      ∃ phy : Nat, (n'.tables t v).physicalPage = phy ∧
        ∀ s ∈ [(Vm.headerOf f noffH).code, (Vm.headerOf f noffH).initData,
          (Vm.headerOf f noffH).readonlyData],
        ∀ i < pageSize, s.Has (v * pageSize + i : Nat) →
          n'.mainMemory (phy * pageSize + i) =
            (f.byte? (s.inFileAddr + (v * pageSize + i : Nat) - s.virtualAddr)).getD
              (n.mainMemory (phy * pageSize + i)) ∧
          m'.mainMemory (q * pageSize + i) =
            (f.byte? (s.inFileAddr + (v * pageSize + i : Nat) - s.virtualAddr)).getD
              (m.mainMemory (q * pageSize + i)) := by
  obtain ⟨hbytes, hpos⟩ := Vm.load_page hf hsep hload hv hq
  constructor
  · intro phy memory
    exact ⟨_, foldlM_fillByte _ hpos⟩
  · intro n n' t vir hpt haddr hvpn hfault hfile
    obtain ⟨phy, input, hinput, hphys, hfill⟩ := Vm.pageFault_fills hpt hvpn hfault
    obtain rfl := Option.some.inj (hfile.symm.trans hinput)
    rw [haddr, foldlM_fillByte _ hpos] at hfill
    refine ⟨phy, hphys, ?_⟩
    intro s hs i hi hhas
    have hoff := hsep.reloadOffset hs hhas
    rw [position_of_nonneg hsep hs hhas (hpos i hi _ hoff)] at hoff
    have hbyte : fileByte f (Vm.headerOf f noffH).fileAddr (v * pageSize + i) =
        f.byte? (s.inFileAddr + (v * pageSize + i : Nat) - s.virtualAddr) := by
      rw [fileByte, hoff, Option.bind_some]
    constructor
    · rw [← Option.some.inj hfill, filled_frame _ _ _ _ _ hi, hbyte]
    · rw [hbytes i hi, hbyte]

private theorem separate_onePage : (Vm.headerOf onePage fun _ => 0).Separate := by
  rw [headerOf_onePage]
  have hempty : ∀ x, ¬ (⟨0, 0, 0⟩ : Segment).Has x := by
    intro x hx
    obtain ⟨hle, hlt⟩ : (0 : Int) ≤ x ∧ x < 0 + 0 := hx
    omega
  constructor
  case representable => decide
  case disjoint =>
    have hpair : [onePageHeader.code, ⟨0, 0, 0⟩, ⟨0, 0, 0⟩].Pairwise fun s s' : Segment =>
        ∀ x, s.Has x → ¬ s'.Has x := by
      simp [hempty]
    exact hpair
  case inside =>
    intro s hs x hx
    have hmem : s ∈ [onePageHeader.code, ⟨0, 0, 0⟩, ⟨0, 0, 0⟩] := hs
    simp only [List.mem_cons, List.not_mem_nil, or_false, or_self] at hmem
    rcases hmem with rfl | rfl
    · obtain ⟨hle, hlt⟩ : (0 : Int) ≤ x ∧ x < 0 + 128 := hx
      exact ⟨hle, by simp only [memorySize, numPhysPages, pageSize]; omega⟩
    · exact absurd hx (hempty x)

/-- Byte 5 of page 0, faulted in by the second space and loaded by the first. -/
theorem fault_in_eager_second :
    ∃ n', (secondStarts.raiseException 0).pageFault 0 = some n' ∧
      ∃ phy : Nat, (n'.tables 1 0).physicalPage = phy ∧
        n'.mainMemory (phy * pageSize + 5) = 0x5a ∧
        (Vm.loadedOnce onePageDisk "a" onePage
          (Vm.headerOf onePage fun _ => 0)).mainMemory (0 * pageSize + 5) = 0x5a := by
  have hinv := (Vm.inv_inductive onePageDisk).of_reachable reachable_secondStarts
  have hsize : (0 : Word).toNat / pageSize < secondStarts.pageTableSize := by
    show 0 < (Vm.headerOf onePage fun _ => 0).numPages
    rw [headerOf_onePage]
    decide
  have hown := Vm.owner_secondRuns onePageDisk "a" onePage (Vm.headerOf onePage fun _ => 0)
  have hfault := hinv.fault_eq rfl hsize hown
    (show secondStarts.writeBack 0 0 (secondStarts.diskFile 1) = some onePage from rfl) 0
  have hpos : ∀ i < pageSize, ∀ p, reloadOffset secondStarts.fileAddr
      ((0 : Word).toNat / pageSize * pageSize + i : Nat) = some p → 0 ≤ p :=
    fun i _ p hp => Vm.reloadOffset_nonneg loadable_onePage hp
  rw [foldlM_fillByte _ hpos, Option.map_some] at hfault
  obtain ⟨-, hbytes⟩ := fault_in_eager (v := 0) (q := 0)
    (show (Vm.new onePageDisk).files "a" = some onePage from rfl) separate_onePage
    (Vm.load_once rfl loadable_onePage) (by decide) rfl
  obtain ⟨phy, hphys, hpage⟩ := hbytes _ _ 1 0 rfl rfl
    (by rw [Vm.raiseException_badVAddr hinv.loadTarget]; rfl) hfault rfl
  have hhas : (Vm.headerOf onePage fun _ => 0).code.Has (0 * pageSize + 5 : Nat) := by
    rw [headerOf_onePage]
    exact ⟨by decide, by decide⟩
  obtain ⟨hfaulted, hloaded⟩ := hpage _ (by simp) 5 (by decide) hhas
  refine ⟨_, hfault, phy, hphys, ?_, ?_⟩
  · rw [hfaulted, headerOf_onePage]
    rfl
  · rw [hloaded, headerOf_onePage]
    rfl

end Nachos

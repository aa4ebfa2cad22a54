import Nachos.Userprog.Ownership

/-!
# What the end of an address space and a page fault change

The destructor of an address space walks its page table and releases every frame an entry names.
An entry that lost its frame to a page fault still names it.

The page-fault handler ends with one block of updates for both of its paths. On the eviction path
the block invalidates the entry that named the frame. On the free-frame path `findFreeFrame` has
already entered the current table as the owner, so the block invalidates entry `vir` of that
table, where `vir` was never assigned.
-/

namespace Nachos

namespace Vm

variable {m m' : Vm}

/-! ## The end of an address space -/

/-- One turn of the loop of `~AddrSpace`. -/
def destroyEntry (t : Nat) (m : Vm) (i : Nat) : Option Vm :=
  let physicalPage := (m.tables t i).physicalPage
  if physicalPage ≠ -1 then do
    let p ← arrayIndex numPhysPages physicalPage
    some { m with
      mainMemory := fun a =>
        if p * pageSize ≤ a ∧ a < p * pageSize + pageSize then 0 else m.mainMemory a,
      globalPageTable := Function.update m.globalPageTable p
        { m.globalPageTable p with refPageTable := none, virNum := -1 } }
  else some m

/-- `AddrSpace::~AddrSpace`. -/
def destroy (m : Vm) (t : Nat) : Option Vm := do
  let s ← m.spaces t
  let m' ← (List.range numPhysPages).foldlM (destroyEntry s.pageTable) m
  some { m' with spaces := Function.update m'.spaces t none }

/-- One of the first `n` entries of table `t` names frame `p`, valid or not. -/
def names (m : Vm) (t n p : Nat) : Bool :=
  (List.range n).any fun i => (m.tables t i).physicalPage == p

private theorem names_iff {t n p : Nat} :
    m.names t n p = true ↔ ∃ i < n, (m.tables t i).physicalPage = p := by
  simp [names]

/-- The machine after the first `n` turns of the loop. -/
def released (m : Vm) (t n : Nat) : Vm :=
  { m with
    mainMemory := fun a => if m.names t n (a / pageSize) then 0 else m.mainMemory a,
    globalPageTable := fun p =>
      if m.names t n p then { m.globalPageTable p with refPageTable := none, virNum := -1 }
      else m.globalPageTable p }

private theorem names_succ (t n p : Nat) :
    m.names t (n + 1) p = (m.names t n p || (m.tables t n).physicalPage == p) := by
  simp [names, List.range_succ, List.any_append]

private theorem destroyEntry_released {t n : Nat}
    (hentry : (m.tables t n).physicalPage = -1 ∨
      ∃ p : Nat, p < numPhysPages ∧ (m.tables t n).physicalPage = p) :
    destroyEntry t (m.released t n) n = some (m.released t (n + 1)) := by
  rcases hentry with hneg | ⟨p, hp, hphys⟩
  · have hnames : ∀ q : Nat, m.names t (n + 1) q = m.names t n q := by
      intro q
      have hne : ((-1 : Int) == q) = false := by
        rw [beq_eq_false_iff_ne]
        omega
      rw [names_succ, hneg, hne, Bool.or_false]
    simp only [destroyEntry, hneg, ne_eq, not_true_eq_false, if_false, released, hnames]
  · have hne : (p : Int) ≠ -1 := by omega
    have hidx : arrayIndex numPhysPages (p : Int) = some p := arrayIndex_eq_some.mpr ⟨rfl, hp⟩
    have hnames : ∀ q : Nat, m.names t (n + 1) q = (m.names t n q || p == q) := by
      intro q
      have hcast : ((p : Int) == q) = (p == q) := by
        rw [Bool.eq_iff_iff, beq_iff_eq, beq_iff_eq]
        omega
      rw [names_succ, hphys, hcast]
    simp only [destroyEntry, hphys, hne, ne_eq, not_false_eq_true, if_true, hidx,
      Option.bind_eq_bind, Option.bind_some, released, hnames, Option.some.injEq, Vm.mk.injEq,
      true_and, and_true]
    constructor
    · funext a
      by_cases ha : p = a / pageSize
      · have hin : p * pageSize ≤ a ∧ a < p * pageSize + pageSize := by
          simp only [pageSize] at *
          omega
        rw [if_pos hin, ha, beq_self_eq_true, Bool.or_true, if_pos rfl]
      · have hout : ¬ (p * pageSize ≤ a ∧ a < p * pageSize + pageSize) := by
          simp only [pageSize] at *
          omega
        simp only [hout, if_false, beq_eq_false_iff_ne.mpr ha, Bool.or_false]
    · funext q
      by_cases hq : q = p
      · subst hq
        rw [Function.update_self]
        simp only [beq_self_eq_true, Bool.or_true, if_true]
        split <;> rfl
      · rw [Function.update_of_ne hq, beq_eq_false_iff_ne.mpr (Ne.symm hq), Bool.or_false]

private theorem foldlM_destroyEntry {t : Nat} (n : Nat)
    (hentry : ∀ v < n, (m.tables t v).physicalPage = -1 ∨
      ∃ p : Nat, p < numPhysPages ∧ (m.tables t v).physicalPage = p) :
    (List.range n).foldlM (destroyEntry t) m = some (m.released t n) := by
  induction n with
  | zero =>
    have hz : m.released t 0 = m := by simp [released, names]
    rw [hz]
    rfl
  | succ n ih =>
    rw [List.range_succ, List.foldlM_append, ih fun v hv => hentry v (by omega)]
    simpa using destroyEntry_released (hentry n (by omega))

/-- The frames of table `t` become free and empty, and every other frame, with what the other
address spaces see of it, stays as it is. -/
structure ReleasesOwn (m m' : Vm) (t : Nat) : Prop where
  freed : ∀ p < numPhysPages, (m.globalPageTable p).refPageTable = some t →
    (m'.globalPageTable p).refPageTable = none ∧ (m'.globalPageTable p).virNum = -1 ∧
      ∀ i < pageSize, m'.mainMemory (p * pageSize + i) = 0
  kept : ∀ p < numPhysPages, (m.globalPageTable p).refPageTable ≠ some t →
    m'.globalPageTable p = m.globalPageTable p ∧
      ∀ i < pageSize, m'.mainMemory (p * pageSize + i) = m.mainMemory (p * pageSize + i)
  others : ∀ u s, m'.spaces u = some s → ∀ v < numPhysPages,
    (m'.tables s.pageTable v).valid = true → (m'.tables s.pageTable v).physicalPage ≠ -1 →
    ∃ p : Nat, p < numPhysPages ∧ (m'.tables s.pageTable v).physicalPage = p ∧
      (m'.globalPageTable p).refPageTable = some s.pageTable ∧
      (m'.globalPageTable p).virNum = v ∧
      ∀ i < pageSize, m'.mainMemory (p * pageSize + i) = m.mainMemory (p * pageSize + i)

private theorem Inv.destroy_eq (h : m.Inv) {t : Nat} {s : AddrSpace} (hs : m.spaces t = some s) :
    m.destroy t = some { m.released t numPhysPages with
      spaces := Function.update m.spaces t none } := by
  have ht : t < m.nextTable := by
    rw [← h.loaded, hs]
    rfl
  have hfold := foldlM_destroyEntry numPhysPages fun v hv => (h.entry t ht v hv).frame
  simp only [destroy, hs, Option.bind_eq_bind, Option.bind_some, (h.space t s hs).1, hfold]
  rfl

private theorem Inv.names_of_ref (h : m.Inv) {t p : Nat} (hp : p < numPhysPages)
    (href : (m.globalPageTable p).refPageTable = some t) :
    m.names t numPhysPages p = true := by
  have hown : m.owner p = some (t, (m.globalPageTable p).virNum.toNat) := by
    rw [owner, if_pos hp, href]
    rfl
  obtain ⟨-, -, hw, -, -, hmap⟩ := h.owner_cases hown
  exact names_iff.mpr ⟨_, hw, hmap.physicalPage⟩

private theorem Inv.destroy_releasesOwn (h : m.Inv) {t : Nat} {s : AddrSpace}
    (hs : m.spaces t = some s) :
    (∃ m', m.destroy t = some m' ∧ m.ReleasesOwn m' s.pageTable) ↔
      ∀ v < numPhysPages, ∀ p : Nat, (m.tables s.pageTable v).physicalPage = p →
        (m.globalPageTable p).refPageTable = some s.pageTable := by
  have ht : t < m.nextTable := by
    rw [← h.loaded, hs]
    rfl
  have hfull := h.full (Nat.zero_lt_of_lt ht)
  rw [h.destroy_eq hs, (h.space t s hs).1]
  constructor
  · rintro ⟨m', hm', hown⟩ v hv p hphys
    cases hm'
    have hp : p < numPhysPages := by
      rcases (h.entry t ht v hv).frame with hneg | ⟨q, hq, hphys'⟩ <;> omega
    have hnames : m.names t numPhysPages p = true := names_iff.mpr ⟨v, hv, hphys⟩
    by_contra hne
    have hkept := congrArg GlobalEntry.refPageTable (hown.kept p hp hne).1
    simp only [released, hnames, if_true] at hkept
    have hsome := hfull p hp
    rw [← hkept] at hsome
    contradiction
  · intro hall
    have hkept : ∀ p, (m.globalPageTable p).refPageTable ≠ some t →
        m.names t numPhysPages p = false := by
      intro p hne
      rw [Bool.eq_false_iff]
      intro hnames
      obtain ⟨v, hv, hphys⟩ := names_iff.mp hnames
      exact hne (hall v hv p hphys)
    have hpage : ∀ p i : Nat, i < pageSize → (p * pageSize + i) / pageSize = p := by
      intro p i hi
      simp only [pageSize] at *
      omega
    refine ⟨_, rfl, ?_, ?_, ?_⟩
    · intro p hp href
      have hnames := h.names_of_ref hp href
      refine ⟨by simp only [released, hnames, if_true],
        by simp only [released, hnames, if_true], ?_⟩
      intro i hi
      simp only [released, hpage p i hi, hnames, if_true]
    · intro p hp hne
      refine ⟨by simp only [released, hkept p hne, Bool.false_eq_true, if_false], ?_⟩
      intro i hi
      simp only [released, hpage p i hi, hkept p hne, Bool.false_eq_true, if_false]
    · intro u s' hs' v hv hvalid hphys
      have hut : u ≠ t := by
        rintro rfl
        simp at hs'
      have hs₁ : m.spaces u = some s' := by
        rw [← hs']
        exact (Function.update_of_ne hut _ _).symm
      have hu : u < m.nextTable := by
        rw [← h.loaded, hs₁]
        rfl
      rw [(h.space u s' hs₁).1] at hvalid hphys ⊢
      obtain ⟨p, hp, hpv⟩ : ∃ p : Nat, p < numPhysPages ∧ (m.tables u v).physicalPage = p := by
        rcases (h.entry u hu v hv).frame with hneg | hpos
        · exact absurd hneg hphys
        · exact hpos
      have hframe : m.frame (u, v) = some p := by
        have hcond : u < m.nextTable ∧ v < numPhysPages ∧ (m.tables u v).valid = true ∧
            (m.tables u v).physicalPage ≠ -1 := ⟨hu, hv, hvalid, hphys⟩
        rw [frame, if_pos hcond, hpv]
        rfl
      obtain ⟨-, -, -, href, hvir, -⟩ := h.owner_cases ((h.agree _ _).mp hframe)
      have hne : (m.globalPageTable p).refPageTable ≠ some t := by
        rw [href]
        exact fun heq => hut (Option.some.inj heq)
      refine ⟨p, hp, hpv, ?_, ?_, ?_⟩
      · simp only [released, hkept p hne, Bool.false_eq_true, if_false, href]
      · simp only [released, hkept p hne, Bool.false_eq_true, if_false, hvir]
      · intro i hi
        simp only [released, hpage p i hi, hkept p hne, Bool.false_eq_true, if_false]

end Vm

/-- Destroying an address space releases exactly its own frames if and only if no entry of its
page table, valid or not, names a frame that belongs to another space. -/
theorem destroy_releases_own {files : FileName → Option HostFile} {m : Vm}
    (hr : (vmSystem files).Reachable m) {t : Nat} {s : AddrSpace} (hs : m.spaces t = some s) :
    (∃ m', m.destroy t = some m' ∧ m.ReleasesOwn m' s.pageTable) ↔
      ∀ v < numPhysPages, ∀ p : Nat, (m.tables s.pageTable v).physicalPage = p →
        (m.globalPageTable p).refPageTable = some s.pageTable := by
  have h := (Vm.inv_inductive files).of_reachable hr
  exact h.destroy_releasesOwn hs

/-- Two spaces from one program, before either runs: the first holds every frame. -/
def twoSpaces : Vm := Vm.loadedTwice onePageDisk "a" onePage (Vm.headerOf onePage fun _ => 0)

private theorem reachable_twoSpaces : (vmSystem onePageDisk).Reachable twoSpaces :=
  Vm.reachable_loadedTwice (show onePageDisk "a" = some onePage from rfl) loadable_onePage

private theorem twoSpaces_own (v : Nat) (hv : v < numPhysPages) (p : Nat)
    (hp : (twoSpaces.tables 0 v).physicalPage = p) :
    (twoSpaces.globalPageTable p).refPageTable = some 0 := by
  have hphys : (twoSpaces.tables 0 v).physicalPage = v := by
    show ((if v < numPhysPages then Vm.freshEntry "a" v v else _) : TranslationEntry).physicalPage
      = v
    rw [if_pos hv]
    rfl
  have hpv : p = v := by omega
  show ((Vm.new onePageDisk).allFrames p).refPageTable = some 0
  rw [Vm.allFrames, if_pos (hpv ▸ hv)]
  rfl

theorem destroy_releases_own_first :
    ∃ m', twoSpaces.destroy 0 = some m' ∧ twoSpaces.ReleasesOwn m' 0 := by
  have hs : twoSpaces.spaces 0 =
      some { pageTable := 0, numPages := (Vm.headerOf onePage fun _ => 0).numPages,
             fileAddr := (Vm.headerOf onePage fun _ => 0).fileAddr } := rfl
  exact (destroy_releases_own reachable_twoSpaces hs).mpr twoSpaces_own

/-- After the second space took frame 0, the entry the first one lost still names it. -/
theorem destroy_releases_own_stale :
    (vmSystem onePageDisk).Reachable secondReads ∧ (secondReads.spaces 0).isSome = true ∧
      (secondReads.globalPageTable 0).refPageTable = some 1 ∧
      ¬ ∃ m', secondReads.destroy 0 = some m' ∧ secondReads.ReleasesOwn m' 0 := by
  have h := (Vm.inv_inductive onePageDisk).of_reachable reachable_secondReads
  have hs : secondReads.spaces 0 =
      some { pageTable := 0, numPages := (Vm.headerOf onePage fun _ => 0).numPages,
             fileAddr := (Vm.headerOf onePage fun _ => 0).fileAddr } := rfl
  have href := (h.owner_cases ((h.agree _ _).mp frame_secondReads)).2.2.2.1
  have hphys : (secondReads.tables 0 0).physicalPage = (0 : Nat) := by
    have hne₁ : ¬ ((0 : Nat) = 1 ∧ (0 : Nat) = 1) := by decide
    have hne₂ : ¬ ((0 : Nat) = 1 ∧ (0 : Nat) = (128 : Word).toNat / pageSize) := by decide
    rw [secondReads, Vm.touch_tables, if_neg hne₁, Vm.afterFault, Vm.replace_tables, if_neg hne₂,
      if_pos ⟨rfl, rfl⟩]
    rfl
  refine ⟨reachable_secondReads, rfl, href, ?_⟩
  intro hown
  have hboth := (h.destroy_releasesOwn hs).mp hown 0 (by decide) 0 hphys
  rw [href] at hboth
  contradiction

namespace Vm

variable {m m' : Vm}

/-! ## What a page fault has to change -/

/-- Every frame has an owner, so `findFreeFrame` finds none. -/
def AllTaken (m : Vm) : Prop :=
  ∀ p < numPhysPages, (m.globalPageTable p).refPageTable.isSome = true

instance : Decidable m.AllTaken := inferInstanceAs (Decidable (∀ p < numPhysPages, _))

def previousOwner (m : Vm) : Option (Nat × Nat) :=
  if m.AllTaken then m.owner m.victim else none

/-- The page tables of `m'` are those of `m` but for entry `v` of table `t` and the valid bit of
the previous owner's entry. -/
structure ChangesOnly (m m' : Vm) (t v : Nat) : Prop where
  other : ∀ a : Nat × Nat, a ≠ (t, v) → m.previousOwner ≠ some a →
    m'.tables a.1 a.2 = m.tables a.1 a.2
  owner : ∀ a : Nat × Nat, a ≠ (t, v) → m.previousOwner = some a →
    ∃ b, m'.tables a.1 a.2 = { m.tables a.1 a.2 with valid := b }

/-! ## The parts of the handler -/

def fillFrame (m : Vm) (t : Nat) (vpn : Int) (phy : Nat) : Option (Nat × Vm) := do
  let v ← arrayIndex numPhysPages vpn
  let input ← m.files (m.tables t v).diskFile
  let memory ← (List.range pageSize).foldlM (fillByte input m.fileAddr v phy) m.mainMemory
  some (v, { m with mainMemory := memory })

theorem pageFault_allTaken {t : Nat} (hall : m.AllTaken) (hpt : m.pageTable = some t)
    (vir : Int) :
    m.pageFault vir = m.evict.bind fun r =>
      (r.2.2.fillFrame t ((m.registers badVAddrReg).toInt.tdiv pageSize) r.1).bind fun q =>
        (q.2.invalidate r.1 r.2.1).bind fun n => some (n.assign t q.1 r.1) := by
  simp only [pageFault, hpt, findFreeFrame_full hall, fillFrame, Option.bind_eq_bind,
    Option.bind_some, if_true, Option.bind_assoc]

theorem findFreeFrame_free (hall : ¬ m.AllTaken) (virAddr : Int) (ref : Nat) :
    ∃ (p : Nat) (g : Nat → GlobalEntry),
      m.findFreeFrame virAddr ref = ((p : Int), { m with globalPageTable := g }) ∧
      (g p).refPageTable = some ref := by
  cases hfind : (List.range numPhysPages).find?
      fun i => (m.globalPageTable i).refPageTable.isNone with
  | none =>
    exfalso
    apply hall
    intro p hp
    have hp' := List.find?_eq_none.mp hfind p (List.mem_range.mpr hp)
    simpa [Option.isSome_iff_ne_none] using hp'
  | some p =>
    refine ⟨p, (m.findFreeFrame virAddr ref).2.globalPageTable, ?_, ?_⟩
    all_goals simp only [findFreeFrame, hfind, Function.update_self]

theorem pageFault_free {t p : Nat} {m₁ : Vm} (hpt : m.pageTable = some t)
    (hfind : m.findFreeFrame ((m.registers badVAddrReg).toInt.tdiv pageSize) t = ((p : Int), m₁))
    (vir : Int) :
    m.pageFault vir =
      (m₁.fillFrame t ((m.registers badVAddrReg).toInt.tdiv pageSize) p).bind fun q =>
        (q.2.invalidate p vir).bind fun n => some (n.assign t q.1 p) := by
  have hne : ¬ (p : Int) = -1 := by omega
  simp only [pageFault, hpt, hfind, fillFrame, Option.bind_eq_bind, Option.bind_some, hne,
    if_false, Int.toNat_natCast, Option.bind_assoc]

private theorem fillFrame_tables {t phy : Nat} {vpn : Int} {q : Nat × Vm}
    (h : m.fillFrame t vpn phy = some q) :
    arrayIndex numPhysPages vpn = some q.1 ∧ q.2.tables = m.tables ∧
      q.2.globalPageTable = m.globalPageTable := by
  simp only [fillFrame, Option.bind_eq_bind] at h
  obtain ⟨v, hv, h⟩ := Option.bind_eq_some_iff.mp h
  obtain ⟨input, -, h⟩ := Option.bind_eq_some_iff.mp h
  obtain ⟨memory, -, h⟩ := Option.bind_eq_some_iff.mp h
  cases h
  exact ⟨hv, rfl, rfl⟩

private theorem update_eq_some {t v phy ref : Nat} {vir : Int}
    (href : (m.globalPageTable phy).refPageTable = some ref) :
    ((m.invalidate phy vir).bind fun n => some (n.assign t v phy)) = some m' ↔
      ∃ w : Nat, w < numPhysPages ∧ vir = w ∧
        m' = (m.setEntry ref w { m.tables ref w with valid := false }).assign t v phy := by
  constructor
  · intro h
    obtain ⟨n, hn, h⟩ := Option.bind_eq_some_iff.mp h
    simp only [invalidate, href, Option.bind_eq_bind] at hn
    obtain ⟨w, hw, hn⟩ := Option.bind_eq_some_iff.mp hn
    obtain ⟨hvir, hlt⟩ := arrayIndex_eq_some.mp hw
    cases hn
    exact ⟨w, hlt, hvir, (Option.some.inj h).symm⟩
  · rintro ⟨w, hw, rfl, rfl⟩
    rw [invalidate_eq href hw]
    rfl

private theorem update_tables (t v phy ref w : Nat) {a : Nat × Nat} (ha : a ≠ (t, v)) :
    ((m.setEntry ref w { m.tables ref w with valid := false }).assign t v phy).tables a.1 a.2 =
      if a = (ref, w) then { m.tables a.1 a.2 with valid := false } else m.tables a.1 a.2 := by
  have ha' : ¬ (a.1 = t ∧ a.2 = v) := fun h => ha (Prod.ext h.1 h.2)
  rw [assign_tables, if_neg ha', setEntry_tables]
  by_cases heq : a = (ref, w)
  · subst heq
    simp
  · have hne : ¬ (a.1 = ref ∧ a.2 = w) := fun h => heq (Prod.ext h.1 h.2)
    rw [if_neg hne, if_neg heq]

/-! ## The two paths -/

private theorem pageFault_allTaken_changes {t v : Nat} (hall : m.AllTaken)
    (hpt : m.pageTable = some t) (hvpn : (m.registers badVAddrReg).toInt.tdiv pageSize = v)
    {vir : Int} (h : m.pageFault vir = some m') : m.ChangesOnly m' t v := by
  rw [pageFault_allTaken hall hpt] at h
  obtain ⟨r, hr, h⟩ := Option.bind_eq_some_iff.mp h
  obtain ⟨q, hq, h⟩ := Option.bind_eq_some_iff.mp h
  obtain ⟨ref, w, hlru, href, hvir, hw, hfiles⟩ := evict_cases hr
  have htab : r.2.2.tables = m.tables := by rw [hfiles]
  have hglob : r.2.2.globalPageTable = m.globalPageTable := by rw [hfiles]
  obtain ⟨hv, htab', hglob'⟩ := fillFrame_tables hq
  obtain ⟨hvq, -⟩ := arrayIndex_eq_some.mp hv
  have hqv : q.1 = v := by omega
  have href' : (q.2.globalPageTable r.1).refPageTable = some ref := by
    rw [hglob', hglob]
    exact href
  obtain ⟨w', hw', hvir', rfl⟩ := (update_eq_some href').mp h
  have hphy : r.1 < numPhysPages := by
    obtain ⟨p, hp, hlru'⟩ := findFreeByLRU_full hall
    rw [hlru] at hlru'
    rw [Option.some.inj hlru']
    exact hp
  have hprev : m.previousOwner = some (ref, w') := by
    rw [previousOwner, if_pos hall, victim, hlru, Option.getD_some, owner, if_pos hphy, href,
      hvir, hvir']
    rfl
  rw [hqv]
  constructor
  · intro a ha hne
    have hneq : a ≠ (ref, w') := fun heq => hne (heq ▸ hprev)
    rw [update_tables _ _ _ _ _ ha, if_neg hneq, htab', htab]
  · intro a ha heq
    have hown : a = (ref, w') := (Option.some.inj (hprev.symm.trans heq)).symm
    refine ⟨false, ?_⟩
    rw [update_tables _ _ _ _ _ ha, if_pos hown, htab', htab]

/-- With a free frame the handler gets through for every `vir` inside the table, and it keeps
the other entries when it loses no valid bit at `vir`. -/
private theorem pageFault_free_changes {t v : Nat} (hall : ¬ m.AllTaken)
    (hpt : m.pageTable = some t) (hvpn : (m.registers badVAddrReg).toInt.tdiv pageSize = v)
    {vir₀ : Int} (hok : (m.pageFault vir₀).isSome = true) (vir : Int) :
    (∃ m', m.pageFault vir = some m' ∧ m.ChangesOnly m' t v) ↔
      ∃ w : Nat, w < numPhysPages ∧ vir = w ∧ (w = v ∨ (m.tables t w).valid = false) := by
  obtain ⟨p, g, hfind, href₁⟩ :=
    findFreeFrame_free hall ((m.registers badVAddrReg).toInt.tdiv pageSize) t
  obtain ⟨m₀, hm₀⟩ := Option.isSome_iff_exists.mp hok
  rw [pageFault_free hpt hfind] at hm₀
  obtain ⟨q, hq, -⟩ := Option.bind_eq_some_iff.mp hm₀
  obtain ⟨hv, htab, hglob⟩ := fillFrame_tables hq
  obtain ⟨hvq, -⟩ := arrayIndex_eq_some.mp hv
  have hqv : q.1 = v := by omega
  have href : (q.2.globalPageTable p).refPageTable = some t := by
    rw [hglob]
    exact href₁
  have hprev : m.previousOwner = none := if_neg hall
  rw [pageFault_free hpt hfind, hq, Option.bind_some, hqv]
  constructor
  · rintro ⟨m', hm', honly⟩
    obtain ⟨w, hw, hvir, rfl⟩ := (update_eq_some href).mp hm'
    refine ⟨w, hw, hvir, ?_⟩
    by_cases hwv : w = v
    · exact .inl hwv
    · right
      have hne : (t, w) ≠ (t, v) := fun h => hwv (Prod.mk.inj h).2
      have hsame := honly.other (t, w) hne (by simp [hprev])
      rw [update_tables _ _ _ _ _ hne, if_pos rfl, htab] at hsame
      exact (congrArg TranslationEntry.valid hsame).symm
  · rintro ⟨w, hw, hvir, hkeep⟩
    refine ⟨_, (update_eq_some href).mpr ⟨w, hw, hvir, rfl⟩, ?_, ?_⟩
    · intro a ha _
      rw [update_tables _ _ _ _ _ ha, htab]
      split
      next heq =>
        subst heq
        have hvalid : (m.tables t w).valid = false := by
          rcases hkeep with rfl | hvalid
          · exact absurd rfl ha
          · exact hvalid
        show { m.tables t w with valid := false } = m.tables t w
        rw [← hvalid]
      next => rfl
    · intro a _ heq
      rw [hprev] at heq
      contradiction

private theorem pageFault_free_isSome {t v : Nat} {f : HostFile} (hall : ¬ m.AllTaken)
    (hpt : m.pageTable = some t) (hvpn : (m.registers badVAddrReg).toInt.tdiv pageSize = v)
    (hv : v < numPhysPages) (hf : m.files (m.tables t v).diskFile = some f)
    (hpos : ∀ i < pageSize, ∀ p, reloadOffset m.fileAddr (v * pageSize + i : Nat) = some p →
      0 ≤ p) : (m.pageFault v).isSome = true := by
  obtain ⟨p, g, hfind, href⟩ :=
    findFreeFrame_free hall ((m.registers badVAddrReg).toInt.tdiv pageSize) t
  have hidx : arrayIndex numPhysPages (v : Int) = some v := arrayIndex_eq_some.mpr ⟨rfl, hv⟩
  have hfill : { m with globalPageTable := g }.fillFrame t v p =
      some (v, { m with globalPageTable := g,
                        mainMemory := filled f m.fileAddr v p m.mainMemory pageSize }) := by
    simp only [fillFrame, hidx, hf, Option.bind_eq_bind, Option.bind_some,
      foldlM_fillByte pageSize hpos]
  rw [pageFault_free hpt hfind, hvpn, hfill, Option.bind_some,
    (update_eq_some (by exact href)).mpr ⟨v, hv, rfl, rfl⟩]
  rfl

private theorem changesOnly_raiseException {addr : Word} {t v : Nat} :
    (m.raiseException addr).ChangesOnly m' t v ↔ m.ChangesOnly m' t v :=
  ⟨fun h => ⟨h.other, h.owner⟩, fun h => ⟨h.other, h.owner⟩⟩

end Vm

/-- A page fault changes only what it must exactly when it evicts a page, or when the value of
`vir` happens to be the faulting page or a page without a valid bit to lose. `hok` says that the
handler meets no failed ASSERT of its own. -/
theorem page_fault_local {m m₁ : Vm} {addr : Word} {size t : Nat} {writing : Bool}
    (hpt : m.pageTable = some t) (hsize : m.pageTableSize ≤ numPhysPages)
    (hload : (m.registers loadReg).toNat < 32)
    (htr : m.translate addr size writing = some (m₁, .error .pageFault)) {vir₀ : Int}
    (hok : ((m.raiseException addr).pageFault vir₀).isSome = true) (vir : Int) :
    (∃ m', (m.raiseException addr).pageFault vir = some m' ∧
      m.ChangesOnly m' t (addr.toNat / pageSize)) ↔
    (m.AllTaken ∨ ∃ w : Nat, w < numPhysPages ∧ vir = w ∧
      (w = addr.toNat / pageSize ∨ (m.tables t w).valid = false)) := by
  obtain ⟨t', hpt', hlt, -⟩ := Vm.translate_pageFault htr
  have hvpn : ((m.raiseException addr).registers badVAddrReg).toInt.tdiv pageSize =
      (addr.toNat / pageSize : Nat) := by
    rw [Vm.raiseException_badVAddr hload]
    exact Vm.toInt_tdiv_pageSize rfl (by omega)
  have hpt₁ : (m.raiseException addr).pageTable = some t := hpt
  by_cases hall : (m.raiseException addr).AllTaken
  · have hany : (m.raiseException addr).pageFault vir =
        (m.raiseException addr).pageFault vir₀ := by
      rw [Vm.pageFault_allTaken hall hpt₁, Vm.pageFault_allTaken hall hpt₁]
    obtain ⟨m', hm'⟩ := Option.isSome_iff_exists.mp hok
    have honly := Vm.pageFault_allTaken_changes hall hpt₁ hvpn hm'
    constructor
    · intro _
      exact .inl hall
    · intro _
      exact ⟨m', hany.trans hm', Vm.changesOnly_raiseException.mp honly⟩
  · have hfree := Vm.pageFault_free_changes hall hpt₁ hvpn hok vir
    constructor
    · rintro ⟨m', hm', honly⟩
      exact .inr (hfree.mp ⟨m', hm', Vm.changesOnly_raiseException.mpr honly⟩)
    · rintro (h | h)
      · exact absurd h hall
      · obtain ⟨m', hm', honly⟩ := hfree.mpr h
        exact ⟨m', hm', Vm.changesOnly_raiseException.mp honly⟩

/-- The first access of the second space finds all frames taken. -/
theorem page_fault_local_evict :
    ∃ m', (secondStarts.raiseException 128).pageFault 7 = some m' ∧
      secondStarts.ChangesOnly m' 1 1 := by
  have h := (Vm.inv_inductive onePageDisk).of_reachable reachable_secondStarts
  have hpt : secondStarts.pageTable = some 1 := rfl
  have htr : secondStarts.translate 128 1 false = some (secondStarts, .error .pageFault) := by
    apply Vm.translate_unmapped hpt
    · show 1 < (Vm.headerOf onePage fun _ => 0).numPages
      rw [headerOf_onePage]
      decide
    · decide
    · exact .inr rfl
  obtain ⟨m₁, hm₁, hok⟩ := Vm.access_cases (access_secondReads 0)
  have hfault : (secondStarts.raiseException 128).pageFault 0 = some m₁ := by
    rcases hm₁ with rfl | ⟨-, hfault⟩
    · rw [htr] at hok
      simp at hok
    · exact hfault
  have hsome : ((secondStarts.raiseException 128).pageFault 0).isSome = true := by
    rw [hfault]
    rfl
  have hsize : secondStarts.pageTableSize ≤ numPhysPages := (h.space 1 _ rfl).2
  exact (page_fault_local hpt hsize h.loadTarget htr hsome 7).mpr (.inl (h.full (by decide)))

/-- The first space is destroyed, so every frame is free, and the second one runs. -/
def secondAlone : Vm :=
  { twoSpaces.released 0 numPhysPages with
    spaces := Function.update twoSpaces.spaces 0 none }.restoreState
    { pageTable := 1, numPages := (Vm.headerOf onePage fun _ => 0).numPages,
      fileAddr := (Vm.headerOf onePage fun _ => 0).fileAddr }

/-- Page 0 of the second space is read in, and page 1 loses its valid bit. -/
theorem page_fault_local_unassigned :
    (∃ m₁, twoSpaces.destroy 0 = some m₁ ∧ m₁.step (.switch 1) = some secondAlone) ∧
      secondAlone.pageTable = some 1 ∧
      secondAlone.translate 0 1 false = some (secondAlone, .error .pageFault) ∧
      ((secondAlone.raiseException 0).pageFault 0).isSome = true ∧
      ¬ ∃ m', (secondAlone.raiseException 0).pageFault 1 = some m' ∧
        secondAlone.ChangesOnly m' 1 0 := by
  have h := (Vm.inv_inductive onePageDisk).of_reachable reachable_twoSpaces
  have hall : ¬ (secondAlone.raiseException 0).AllTaken := by
    intro hall
    have hnames : twoSpaces.names 0 numPhysPages 0 = true :=
      Vm.names_iff.mpr ⟨0, by decide, rfl⟩
    have h0 := hall 0 (by decide)
    simp only [secondAlone, Vm.raiseException, Vm.restoreState, Vm.released, hnames, if_true] at h0
    exact Bool.false_ne_true h0
  have hpt : (secondAlone.raiseException 0).pageTable = some 1 := rfl
  have hvpn : ((secondAlone.raiseException 0).registers badVAddrReg).toInt.tdiv pageSize =
      (0 : Nat) := by
    rw [Vm.raiseException_badVAddr (show (secondAlone.registers loadReg).toNat < 32 from
      h.loadTarget)]
    rfl
  have hok : ((secondAlone.raiseException 0).pageFault (0 : Nat)).isSome = true := by
    apply Vm.pageFault_free_isSome (f := onePage) hall hpt hvpn (by decide) rfl
    intro i _ p hp
    exact Vm.reloadOffset_nonneg loadable_onePage hp
  refine ⟨⟨_, h.destroy_eq rfl, rfl⟩, rfl, ?_, hok, ?_⟩
  · apply Vm.translate_unmapped (t := 1) rfl
    · show 0 < (Vm.headerOf onePage fun _ => 0).numPages
      rw [headerOf_onePage]
      decide
    · decide
    · exact .inr rfl
  · rintro ⟨m', hm', honly⟩
    obtain ⟨w, -, hw, hlost⟩ := (Vm.pageFault_free_changes hall hpt hvpn hok 1).mp
      ⟨m', hm', Vm.changesOnly_raiseException.mpr honly⟩
    have hw1 : w = 1 := by omega
    subst hw1
    rcases hlost with h0 | hvalid
    · exact absurd h0 Nat.one_ne_zero
    · have htrue : ((secondAlone.raiseException 0).tables 1 1).valid = true := rfl
      exact Bool.false_ne_true (hvalid.symm.trans htrue)

end Nachos

import Nachos.Framework.Recency
import Nachos.Userprog.Ownership
import Mathlib.Data.Prod.Lex
import Mathlib.Data.Finset.Max

/-!
# The choice of the victim

`findFreeByLRU` takes the frame with the smallest `useStamp`. The stamp is not a time: it counts
the translations since the frame was assigned. Beside the machine runs a clock that records when
each frame was last used, and the stamps are compared with it.
-/

namespace Nachos

open Framework

namespace Vm

variable {m m' : Vm}

def frames : Set Nat := { p | p < numPhysPages }

def stamp (m : Vm) (p : Nat) : Word := (m.globalPageTable p).useStamp

/-- The order in which frames are evicted: by the signed stamp, then by number. -/
def key (m : Vm) (p : Nat) : Int ×ₗ Nat := toLex ((m.stamp p).toInt, p)

private theorem findFreeByLRU_least (hfull : ∀ q < numPhysPages,
    (m.globalPageTable q).refPageTable.isSome = true) :
    ∃ p ∈ frames, m.findFreeByLRU = some p ∧ ∀ q ∈ frames, m.key p ≤ m.key q := by
  obtain ⟨p, hp, hmin⟩ := (Finset.range numPhysPages).exists_min_image m.key ⟨0, by decide⟩
  rw [Finset.mem_range] at hp
  have hle : ∀ q < numPhysPages, m.key p ≤ m.key q :=
    fun q hq => hmin q (Finset.mem_range.mpr hq)
  refine ⟨p, hp, ?_, hle⟩
  apply findFreeByLRU_eq hfull hp
  · intro q hq
    have hkey := hle q (by omega)
    rw [key, key, Prod.Lex.toLex_le_toLex] at hkey
    simp only [BitVec.slt, decide_eq_true_eq]
    rcases hkey with hlt | ⟨-, hge⟩
    · exact hlt
    · exact absurd hq (not_lt.mpr hge)
  · intro q hq
    have hkey := hle q hq
    rw [key, key, Prod.Lex.toLex_le_toLex] at hkey
    simp only [BitVec.slt, decide_eq_false_iff_not, not_lt]
    rcases hkey with hlt | ⟨heq, -⟩
    · exact hlt.le
    · exact heq.le

/-! ## What an access does to the stamps -/

private theorem touch_stamp (t v p : Nat) (writing : Bool) (q : Nat) :
    (m.touch t v p writing).stamp q = if q = p then m.stamp p + 1 else m.stamp q := by
  show (Function.update m.globalPageTable p _ q).useStamp = _
  by_cases hq : q = p
  · rw [hq, if_pos rfl, Function.update_self]
    rfl
  · rw [if_neg hq, Function.update_of_ne hq]
    rfl

private theorem replace_stamp (t v ref w : Nat) (memory : Nat → Byte) (q : Nat) :
    (m.replace t v ref w memory).stamp q = if q = m.victim then 0 else m.stamp q := by
  show (Function.update m.globalPageTable m.victim _ q).useStamp = _
  by_cases hq : q = m.victim
  · rw [hq, if_pos rfl, Function.update_self]
  · rw [if_neg hq, Function.update_of_ne hq]
    rfl

private theorem Inv.access_stamps (h : m.Inv) {addr : Word} {size physAddr : Nat} {writing : Bool}
    {vir : Int} (ha : m.access addr size writing vir = some (m', physAddr)) :
    ∃ t, m.pageTable = some t ∧
      ((∃ p ∈ frames, m.frame (t, addr.toNat / pageSize) = some p ∧ physAddr / pageSize = p ∧
        ∀ q, m'.stamp q = if q = p then m.stamp p + 1 else m.stamp q) ∨
      (m.frame (t, addr.toNat / pageSize) = none ∧ m.victim ∈ frames ∧
        physAddr / pageSize = m.victim ∧
        ∀ q, m'.stamp q = if q = m.victim then 1 else m.stamp q)) := by
  have hpage : ∀ p, (p * pageSize + addr.toNat % pageSize) / pageSize = p := by
    intro p
    simp only [pageSize]
    omega
  obtain ⟨m₁, rfl | ⟨hfirst, hfault⟩, hlast⟩ := access_cases ha
  · obtain ⟨t, p, hpt, hsize, hmap, rfl, -, rfl⟩ := translate_ok hlast
    refine ⟨t, hpt, .inl ⟨p, hmap.bound, ?_, hpage p, touch_stamp _ _ _ _⟩⟩
    have ht := h.current_lt hpt
    have hv := h.vpn_lt hpt hsize
    have hne : ¬ (p : Int) = -1 := by omega
    simp [Vm.frame, ht, hv, hmap.valid, hmap.physicalPage, hne]
  · obtain ⟨t, ref, w, input, hpt, hsize, hun, hown, -, -, rfl⟩ := h.fault_cases hfirst hfault
    refine ⟨t, hpt, .inr ⟨hun, (h.owner_cases hown).1, ?_⟩⟩
    obtain ⟨t', p, hpt', -, hmap, rfl, -, rfl⟩ := translate_ok hlast
    obtain rfl : t = t' := Option.some.inj (hpt.symm.trans hpt')
    have hvic : p = m.victim := by
      have hphys := hmap.physicalPage
      rw [Vm.replace, assign_tables, if_pos ⟨rfl, rfl⟩] at hphys
      exact (Int.ofNat.inj hphys).symm
    refine ⟨(hpage p).trans hvic, ?_⟩
    intro q
    have hraise : (m.raiseException addr).victim = m.victim := rfl
    rw [touch_stamp, replace_stamp, replace_stamp, hvic, hraise]
    by_cases hq : q = m.victim
    · rw [if_pos hq, if_pos hq, if_pos rfl]
      rfl
    · rw [if_neg hq, if_neg hq, if_neg hq]
      rfl

/-- With this stamp frame `p` would be evicted after all the others. -/
def LastWith (m : Vm) (p : Nat) (useStamp : Word) : Prop :=
  ∀ q ∈ frames, q ≠ p →
    (m.stamp q).toInt < useStamp.toInt ∨ (m.stamp q = useStamp ∧ q < p)

/-- The access leaves the frame it reaches last in the order of eviction. -/
def LastAfter (m : Vm) (addr : Word) : Prop :=
  match m.pageTable.bind fun t => m.frame (t, addr.toNat / pageSize) with
  | some p => m.LastWith p (m.stamp p + 1)
  | none => ∃ p ∈ frames, (∀ q ∈ frames, m.key p ≤ m.key q) ∧ m.LastWith p 1

private theorem lastWith_iff (p : Nat) (useStamp : Word) :
    m.LastWith p useStamp ↔ ∀ q ∈ frames, q ≠ p → m.key q < toLex (useStamp.toInt, p) := by
  unfold LastWith key
  simp only [Prod.Lex.toLex_lt_toLex, BitVec.toInt_inj]

def reached (m : Vm) : VmLabel → Option Nat
  | .read addr size vir => (m.access addr size false vir).map fun r => r.2 / pageSize
  | .write addr size _ vir => (m.access addr size true vir).map fun r => r.2 / pageSize
  | _ => none

end Vm

/-- A clock, and for every frame the time of its last translation or assignment. -/
structure Recency where
  clock : Nat
  lastUse : Nat → Nat

namespace Recency

def start : Recency := { clock := 0, lastUse := fun _ => 0 }

variable {r : Recency} {m m' : Vm}

def used (r : Recency) (p : Nat) : Recency :=
  { clock := r.clock + 1, lastUse := Function.update r.lastUse p (r.clock + 1) }

private theorem used_self (r : Recency) (p : Nat) : (r.used p).lastUse p = r.clock + 1 := by
  simp only [used, Function.update_self]

private theorem used_of_ne (r : Recency) {p q : Nat} (hne : q ≠ p) :
    (r.used p).lastUse q = r.lastUse q := by
  simp only [used, Function.update_of_ne hne]

/-- The frames that were free and are taken now have been assigned in order. -/
def entered (r : Recency) (m m' : Vm) : Recency :=
  { clock := r.clock + numPhysPages,
    lastUse := fun p =>
      if (m.globalPageTable p).refPageTable.isNone = true ∧
        (m'.globalPageTable p).refPageTable.isSome = true then r.clock + 1 + p
      else r.lastUse p }

def after (r : Recency) (m : Vm) (l : VmLabel) (m' : Vm) : Recency :=
  match m.reached l with
  | some p => r.used p
  | none => r.entered m m'

def Past (r : Recency) : Prop := ∀ p ∈ Vm.frames, r.lastUse p ≤ r.clock

theorem Past.used (h : r.Past) (p : Nat) : (r.used p).Past := by
  intro q hq
  have hclock : (r.used p).clock = r.clock + 1 := rfl
  by_cases hqp : q = p
  · rw [hqp, used_self, hclock]
  · rw [used_of_ne r hqp, hclock]
    have := h q hq
    omega

theorem Past.entered (h : r.Past) (m m' : Vm) : (r.entered m m').Past := by
  intro p hp
  have hlt : p < numPhysPages := hp
  have hpast := h p hp
  simp only [Recency.entered]
  split <;> omega

theorem Past.after (h : r.Past) (m : Vm) (l : VmLabel) (m' : Vm) : (r.after m l m').Past := by
  unfold Recency.after
  split
  · exact h.used _
  · exact h.entered _ _

private theorem entered_lastUse (h : m'.globalPageTable = m.globalPageTable) :
    (r.entered m m').lastUse = r.lastUse := by
  funext p
  apply if_neg
  rw [h, Option.isSome_iff_ne_none, Option.isNone_iff_eq_none]
  exact fun hboth => hboth.2 hboth.1

end Recency

def recencySystem (files : FileName → Option HostFile) : System (Vm × Recency) VmLabel where
  init s := s = (.new files, .start)
  step s l s' := s.1.step l = some s'.1 ∧ s'.2 = s.2.after s.1 l s'.1

def Ordered (s : Vm × Recency) : Prop := TracksTime Vm.frames s.2.lastUse s.1.key

namespace Ordered

variable {m m' : Vm} {r : Recency}

theorem same (h : Ordered (m, r)) (hglobal : m'.globalPageTable = m.globalPageTable) :
    Ordered (m', r.entered m m') := by
  refine TracksTime.congr h (fun p _ => ?_) (fun p _ => ?_)
  · show (r.entered m m').lastUse p = r.lastUse p
    rw [Recency.entered_lastUse hglobal]
  · show m'.key p = m.key p
    rw [Vm.key, Vm.stamp, hglobal]
    rfl

theorem allFrames (hfree : ∀ p < numPhysPages, (m.globalPageTable p).refPageTable = none)
    (hglobal : m'.globalPageTable = m.allFrames) : Ordered (m', r.entered m m') := by
  have hentry : ∀ p ∈ Vm.frames, m'.globalPageTable p =
      { virNum := p, useStamp := 0, refPageTable := some m.nextTable } := by
    intro p hp
    rw [hglobal]
    exact if_pos hp
  have htime : ∀ p ∈ Vm.frames, (r.entered m m').lastUse p = r.clock + 1 + p := by
    intro p hp
    apply if_pos
    rw [hfree p hp, hentry p hp]
    exact ⟨rfl, rfl⟩
  intro p hp q hq hlt
  have hpq : p < q := by
    have hlt' : (r.entered m m').lastUse p < (r.entered m m').lastUse q := hlt
    rw [htime p hp, htime q hq] at hlt'
    omega
  show m'.key p < m'.key q
  rw [Vm.key, Vm.key, Vm.stamp, Vm.stamp, hentry p hp, hentry q hq, Prod.Lex.toLex_lt_toLex]
  exact .inr ⟨rfl, hpq⟩

theorem load (h : Ordered (m, r)) (hinv : m.Inv) {fileName : FileName} {noffH : Nat → Byte}
    (hload : m.load fileName noffH = some m') : Ordered (m', r.entered m m') := by
  rcases Nat.eq_zero_or_pos m.nextTable with hz | hpos
  · have hfree := (hinv.start hz).2
    obtain ⟨-, rfl⟩ | ⟨f, -, -, rfl⟩ := Vm.load_free hfree hload
    · exact h.same rfl
    · exact allFrames hfree rfl
  · obtain ⟨-, rfl⟩ | ⟨f, -, -, rfl⟩ := Vm.load_full (hinv.full hpos) hload
    · exact h.same rfl
    · exact h.same rfl

theorem renew_iff (h : Ordered (m, r)) (hpast : r.Past) {p : Nat} (hp : p ∈ Vm.frames)
    {useStamp : Word} (hstamp : ∀ q, m'.stamp q = if q = p then useStamp else m.stamp q) :
    Ordered (m', r.used p) ↔ m.LastWith p useStamp := by
  have hkey : m'.key p = toLex (useStamp.toInt, p) := by
    rw [Vm.key, hstamp, if_pos rfl]
  rw [Vm.lastWith_iff, ← hkey]
  refine TracksTime.renew_iff h hp (fun q _ hne => ?_) (fun q _ hne => ?_) (fun q hq _ => ?_)
  · exact r.used_of_ne hne
  · show m'.key q = m.key q
    rw [Vm.key, hstamp, if_neg hne]
    rfl
  · have hold : r.lastUse q ≤ r.clock := hpast q hq
    show r.lastUse q < (r.used p).lastUse p
    rw [r.used_self]
    omega

private theorem access_iff (h : Ordered (m, r)) (hinv : m.Inv) (hpast : r.Past) {addr : Word}
    {size physAddr : Nat} {writing : Bool} {vir : Int} {m₁ : Vm}
    (ha : m.access addr size writing vir = some (m₁, physAddr))
    (hglobal : m'.globalPageTable = m₁.globalPageTable) :
    Ordered (m', r.used (physAddr / pageSize)) ↔ m.LastAfter addr := by
  have hsame : ∀ q, m'.stamp q = m₁.stamp q := by
    intro q
    rw [Vm.stamp, hglobal]
    rfl
  obtain ⟨t, hpt, ⟨p, hp, hframe, hphys, hstamp⟩ | ⟨hframe, hvic, hphys, hstamp⟩⟩ :=
    hinv.access_stamps ha
  · rw [hphys, h.renew_iff hpast hp (fun q => (hsame q).trans (hstamp q)), Vm.LastAfter, hpt,
      Option.bind_some, hframe]
  · rw [hphys, h.renew_iff hpast hvic (fun q => (hsame q).trans (hstamp q)), Vm.LastAfter, hpt,
      Option.bind_some, hframe]
    have hpos : 0 < m.nextTable := Nat.zero_lt_of_lt (hinv.current_lt hpt)
    obtain ⟨p, hp, hlru, hmin⟩ := Vm.findFreeByLRU_least (hinv.full hpos)
    have hvictim : m.victim = p := by
      rw [Vm.victim, hlru, Option.getD_some]
    constructor
    · intro hlast
      rw [hvictim] at hlast
      exact ⟨p, hp, hmin, hlast⟩
    · rintro ⟨q, hq, hqmin, hlast⟩
      have heq : m.key p = m.key q := le_antisymm (hmin q hq) (hqmin p hp)
      have hpq : p = q := (Prod.mk.inj (toLex.injective heq)).2
      rw [hvictim, hpq]
      exact hlast

end Ordered

/-- Every access of the run leaves the frame it reaches last in the order of eviction. -/
def UsesLast (s : Vm × Recency) : VmLabel → Prop
  | .read addr _ _ => s.1.LastAfter addr
  | .write addr _ _ _ => s.1.LastAfter addr
  | _ => True

private theorem ordered_step_iff {files : FileName → Option HostFile} {s s' : Vm × Recency}
    {l : VmLabel} (hinv : s.1.Inv) (hpast : s.2.Past) (h : Ordered s)
    (hs : (recencySystem files).step s l s') : Ordered s' ↔ UsesLast s l := by
  obtain ⟨m, r⟩ := s
  obtain ⟨m', r'⟩ := s'
  obtain ⟨hstep, rfl⟩ : m.step l = some m' ∧ r' = r.after m l m' := hs
  cases l with
  | load fileName noffH => exact iff_of_true (h.load hinv hstep) trivial
  | switch t =>
    obtain ⟨space, -, rfl⟩ := Option.map_eq_some_iff.mp hstep
    exact iff_of_true (h.same rfl) trivial
  | registers regs =>
    simp only [Vm.step] at hstep
    split at hstep
    next =>
      obtain rfl := Option.some.inj hstep
      exact iff_of_true (h.same rfl) trivial
    next => contradiction
  | read addr size vir =>
    obtain ⟨⟨m₁, value⟩, hread, rfl⟩ := Option.map_eq_some_iff.mp hstep
    obtain ⟨⟨m₂, physAddr⟩, hacc, hread⟩ := Option.bind_eq_some_iff.mp hread
    obtain ⟨data, -, hread⟩ := Option.bind_eq_some_iff.mp hread
    cases Option.some.inj hread
    rw [Recency.after, Vm.reached, hacc]
    exact h.access_iff hinv hpast hacc rfl
  | write addr size value vir =>
    obtain ⟨⟨m₁, physAddr⟩, hacc, hwrite⟩ := Option.bind_eq_some_iff.mp hstep
    obtain ⟨memory, -, hwrite⟩ := Option.bind_eq_some_iff.mp hwrite
    cases Option.some.inj hwrite
    rw [Recency.after, Vm.reached, hacc]
    exact h.access_iff hinv hpast hacc rfl

theorem ordered_inductive (files : FileName → Option HostFile) :
    ((recencySystem files).restrict UsesLast).Inductive
      fun s => (s.1.Inv ∧ s.2.Past) ∧ Ordered s where
  init s hs := by
    rw [show s = _ from hs]
    refine ⟨⟨Vm.Inv.new files, fun _ _ => Nat.le_refl 0⟩, ?_⟩
    intro p _ q _ hlt
    exact absurd hlt (Nat.lt_irrefl 0)
  step s l s' h hs := by
    obtain ⟨⟨hinv, hpast⟩, hord⟩ := h
    obtain ⟨huses, hstep⟩ := hs
    refine ⟨⟨hinv.step hstep.1, ?_⟩, (ordered_step_iff hinv hpast hord hstep).mpr huses⟩
    rw [hstep.2]
    exact hpast.after _ _ _

/-- In a run of such steps the frame `findFreeByLRU` returns is a least recently used one. -/
theorem victim_least_recently_used {files : FileName → Option HostFile} {m : Vm} {r : Recency}
    (hr : ((recencySystem files).restrict UsesLast).Reachable (m, r))
    (hfull : ∀ p < numPhysPages, (m.globalPageTable p).refPageTable.isSome = true) :
    ∃ p < numPhysPages, m.findFreeByLRU = some p ∧
      ∀ q < numPhysPages, r.lastUse p ≤ r.lastUse q := by
  obtain ⟨-, hord⟩ := (ordered_inductive files).of_reachable hr
  obtain ⟨p, hp, hlru, hmin⟩ := Vm.findFreeByLRU_least hfull
  refine ⟨p, hp, hlru, ?_⟩
  intro q hq
  exact TracksTime.oldest hord hp hmin hq

/-! ## A program that has all frames -/

namespace Vm

variable {m : Vm} {files : FileName → Option HostFile} {fileName : FileName} {f : HostFile}

/-- The first `n` pages of the running program are in the frames of the same number. -/
structure Resident (m : Vm) (n : Nat) : Prop where
  inv : m.Inv
  pageTable : m.pageTable = some 0
  size : m.pageTableSize = n
  frame : ∀ v < numPhysPages, m.frame (0, v) = some v

def readPage (v : Nat) : VmLabel := .read (.ofNat 32 (v * pageSize)) 1 0

private theorem toNat_page {v : Nat} (hv : v < numPhysPages) :
    (BitVec.ofNat 32 (v * pageSize)).toNat / pageSize = v := by
  rw [BitVec.toNat_ofNat]
  simp only [pageSize, numPhysPages] at *
  omega

theorem Resident.read (files : FileName → Option HostFile) {n v : Nat} (h : m.Resident n)
    (hv : v < n) (r : Recency) :
    ∃ m', (recencySystem files).step (m, r) (readPage v) (m', r.used v) ∧ m'.Resident n ∧
      ∀ q, m'.stamp q = if q = v then m.stamp v + 1 else m.stamp q := by
  have hsize : v < m.pageTableSize := by rw [h.size]; exact hv
  have hpage := h.inv.vpn_lt h.pageTable hsize
  have haligned : Aligned (.ofNat 32 (v * pageSize)) 1 := by
    unfold Aligned
    omega
  have hacc := h.inv.access_resident h.pageTable (by rw [toNat_page hpage]; exact hsize) haligned
    (.inl rfl) (by rw [toNat_page hpage]; exact h.frame v hpage) false 0
  rw [toNat_page hpage] at hacc
  have hphys : (v * pageSize + (BitVec.ofNat 32 (v * pageSize)).toNat % pageSize) / pageSize =
      v := by
    simp only [pageSize]
    omega
  refine ⟨m.touch 0 v v false, ⟨?_, ?_⟩, ?_, touch_stamp 0 v v false⟩
  · show (m.readMem _ _ _).map Prod.fst = _
    rw [readMem_of_access hacc]
    rfl
  · show _ = r.after m (readPage v) _
    rw [Recency.after, readPage, reached, hacc]
    exact congrArg r.used hphys.symm
  · refine ⟨h.inv.touch _ _ _ _, h.pageTable, h.size, ?_⟩
    intro w hw
    rw [frame_touch]
    exact h.frame w hw

/-- The program was loaded first and runs. -/
def firstRuns (files : FileName → Option HostFile) (fileName : FileName) (f : HostFile)
    (h : NoffHeader) : Vm :=
  (loadedOnce files fileName f h).restoreState
    { pageTable := 0, numPages := h.numPages, fileAddr := h.fileAddr }

private theorem firstRuns_entry (h : NoffHeader) {p : Nat} (hp : p < numPhysPages) :
    (firstRuns files fileName f h).globalPageTable p =
      { virNum := p, useStamp := 0, refPageTable := some 0 } := if_pos hp

private theorem reachable_after {m' : Vm} {r : Recency} {l : VmLabel}
    (hr : ((recencySystem files).restrict UsesLast).Reachable (m, r)) (hlast : UsesLast (m, r) l)
    (hs : m.step l = some m') :
    ((recencySystem files).restrict UsesLast).Reachable (m', r.after m l m') :=
  hr.step ⟨hlast, hs, rfl⟩

private theorem reachable_firstRuns {noffH : Nat → Byte} (hf : files fileName = some f)
    (hload : (headerOf f noffH).Loadable) :
    ∃ r, ((recencySystem files).restrict UsesLast).Reachable
      (firstRuns files fileName f (headerOf f noffH), r) := by
  have hstart : ((recencySystem files).restrict UsesLast).Reachable (Vm.new files, .start) :=
    .init rfl
  have hloaded := reachable_after hstart (l := .load fileName noffH) trivial (load_once hf hload)
  refine ⟨_, reachable_after hloaded (l := .switch 0) trivial ?_⟩
  have hspace : (loadedOnce files fileName f (headerOf f noffH)).spaces 0 =
      some { pageTable := 0, numPages := (headerOf f noffH).numPages,
             fileAddr := (headerOf f noffH).fileAddr } := rfl
  show Option.map _ ((loadedOnce files fileName f (headerOf f noffH)).spaces 0) = _
  rw [hspace]
  rfl

private theorem resident_firstRuns {noffH : Nat → Byte} (hf : files fileName = some f)
    (hload : (headerOf f noffH).Loadable) :
    (firstRuns files fileName f (headerOf f noffH)).Resident (headerOf f noffH).numPages := by
  obtain ⟨r, hr⟩ := reachable_firstRuns hf hload
  refine ⟨((ordered_inductive files).of_reachable hr).1.1, rfl, rfl, ?_⟩
  intro v hv
  have hframe := frame_newSpace (m := Vm.new files) fileName (headerOf f noffH) (fun v => v) (0, v)
  have hne : (v : Int) ≠ -1 := by omega
  exact hframe.trans ((if_pos rfl).trans (if_pos ⟨hv, hne⟩))

end Vm

theorem victim_least_recently_used_onePage :
    ∃ m r, ((recencySystem onePageDisk).restrict UsesLast).Reachable (m, r) ∧ m.stamp 0 = 1 ∧
      ∃ p < numPhysPages, m.findFreeByLRU = some p ∧
        ∀ q < numPhysPages, r.lastUse p ≤ r.lastUse q := by
  have hf : onePageDisk "a" = some onePage := rfl
  obtain ⟨r, hr⟩ := Vm.reachable_firstRuns hf loadable_onePage
  have hres := Vm.resident_firstRuns hf loadable_onePage
  have hpages : 0 < (Vm.headerOf onePage fun _ => 0).numPages := by
    rw [headerOf_onePage]
    decide
  obtain ⟨m', hstep, hres', hstamp⟩ := hres.read onePageDisk hpages r
  have hlast : UsesLast (Vm.firstRuns onePageDisk "a" onePage
      (Vm.headerOf onePage fun _ => 0), r) (Vm.readPage 0) := by
    rw [Vm.readPage, UsesLast, Vm.LastAfter, hres.pageTable, Option.bind_some, Vm.toNat_page (by decide),
      hres.frame 0 (by decide)]
    intro q hq _
    left
    rw [Vm.stamp, Vm.stamp, Vm.firstRuns_entry _ hq, Vm.firstRuns_entry _ (by decide)]
    show (0 : Word).toInt < (0 + 1 : Word).toInt
    decide
  have hr' : ((recencySystem onePageDisk).restrict UsesLast).Reachable (m', r.used 0) :=
    hr.step ⟨hlast, hstep⟩
  refine ⟨m', r.used 0, hr', ?_, victim_least_recently_used hr' (hres'.inv.full ?_)⟩
  · rw [hstamp, if_pos rfl, Vm.stamp, Vm.firstRuns_entry _ (by decide)]
    rfl
  · exact Nat.zero_lt_of_lt (hres'.inv.current_lt hres'.pageTable)

def wholeMemory : HostFile := noffFile [0xbadfad, 0, 52, 15360] 15412 0x5a

def wholeMemoryHeader : NoffHeader :=
  { noffMagic := noffMagicNumber, code := ⟨0, 52, 15360⟩, initData := ⟨0, 0, 0⟩,
    readonlyData := ⟨0, 0, 0⟩, uninitData := ⟨0, 0, 0⟩ }

private theorem headerOf_wholeMemory :
    Vm.headerOf wholeMemory (fun _ => 0) = wholeMemoryHeader := by
  rfl

private theorem loadable_wholeMemory : (Vm.headerOf wholeMemory fun _ => 0).Loadable := by
  rw [headerOf_wholeMemory]
  constructor <;> decide

def wholeMemoryDisk : FileName → Option HostFile := fun _ => some wholeMemory

/-- Page 0 has been read twice and then each of the pages before `n` once. -/
structure ReadUpTo (n : Nat) (m : Vm) (r : Recency) : Prop where
  reachable : (recencySystem wholeMemoryDisk).Reachable (m, r)
  resident : m.Resident numPhysPages
  stamp : ∀ q < numPhysPages, m.stamp q = if q = 0 then 2 else if q < n then 1 else 0
  zero : r.lastUse 0 ≤ r.clock
  one : 1 < n → r.lastUse 0 < r.lastUse 1

theorem ReadUpTo.start : ∃ m r, ReadUpTo 1 m r := by
  have hf : wholeMemoryDisk "a" = some wholeMemory := rfl
  obtain ⟨r, hr⟩ := Vm.reachable_firstRuns hf loadable_wholeMemory
  have hres := Vm.resident_firstRuns hf loadable_wholeMemory
  obtain ⟨m₁, hstep₁, hres₁, hstamp₁⟩ := hres.read wholeMemoryDisk (v := 0)
    (by rw [headerOf_wholeMemory]; decide) r
  obtain ⟨m₂, hstep₂, hres₂, hstamp₂⟩ := hres₁.read wholeMemoryDisk (v := 0)
    (by rw [headerOf_wholeMemory]; decide) (r.used 0)
  refine ⟨m₂, (r.used 0).used 0, ⟨?_, ?_, ?_, ?_, ?_⟩⟩
  · exact (hr.of_restrict.step hstep₁).step hstep₂
  · have hpages : (Vm.headerOf wholeMemory fun _ => 0).numPages = numPhysPages := by
      rw [headerOf_wholeMemory]
      decide
    rw [← hpages]
    exact hres₂
  · intro q hq
    have hzero : ∀ p < numPhysPages, (Vm.firstRuns wholeMemoryDisk "a" wholeMemory
        (Vm.headerOf wholeMemory fun _ => 0)).stamp p = 0 := by
      intro p hp
      rw [Vm.stamp, Vm.firstRuns_entry _ hp]
    rw [hstamp₂, hstamp₁, hstamp₁, hzero 0 (by decide), hzero q hq]
    by_cases hq0 : q = 0
    · rw [if_pos hq0, if_pos hq0, if_pos rfl]
      rfl
    · have hq1 : ¬ q < 1 := by omega
      rw [if_neg hq0, if_neg hq0, if_neg hq0, if_neg hq1]
  · rw [Recency.used_self]
    exact Nat.le_refl _
  · omega

theorem ReadUpTo.succ {n : Nat} {m : Vm} {r : Recency} (h : ReadUpTo n m r) (hpos : 0 < n)
    (hn : n < numPhysPages) : ∃ m' r', ReadUpTo (n + 1) m' r' := by
  obtain ⟨m', hstep, hres, hstamp⟩ := h.resident.read wholeMemoryDisk hn r
  have hn0 : n ≠ 0 := by omega
  have hlast : (r.used n).lastUse 0 = r.lastUse 0 := r.used_of_ne hn0.symm
  have hclock : (r.used n).clock = r.clock + 1 := rfl
  refine ⟨m', r.used n, ⟨h.reachable.step hstep, hres, ?_, ?_, ?_⟩⟩
  · intro q hq
    rw [hstamp, h.stamp n hn, h.stamp q hq, if_neg hn0, if_neg (Nat.lt_irrefl n)]
    by_cases hqn : q = n
    · rw [if_pos hqn, if_neg (by omega), if_pos (by omega)]
      rfl
    · have hiff : q < n + 1 ↔ q < n := by omega
      simp only [hqn, if_false, hiff]
  · have := h.zero
    omega
  · intro _
    rw [hlast]
    have hzero := h.zero
    by_cases hone : n = 1
    · have hnow : (r.used n).lastUse 1 = r.clock + 1 := by
        rw [hone]
        exact r.used_self 1
      omega
    · have hkept : (r.used n).lastUse 1 = r.lastUse 1 := r.used_of_ne (Ne.symm hone)
      have := h.one (by omega)
      omega

/-- Frame 1 is chosen because it was read once, although frame 0 was read before it. -/
theorem not_victim_least_recently_used :
    ∃ m r, (recencySystem wholeMemoryDisk).Reachable (m, r) ∧
      (∀ p < numPhysPages, (m.globalPageTable p).refPageTable.isSome = true) ∧
      m.findFreeByLRU = some 1 ∧ r.lastUse 0 < r.lastUse 1 := by
  have hrun : ∀ n < numPhysPages, ∃ m r, ReadUpTo (n + 1) m r := by
    intro n
    induction n with
    | zero => exact fun _ => ReadUpTo.start
    | succ n ih =>
      intro hn
      obtain ⟨m, r, h⟩ := ih (by omega)
      exact h.succ (Nat.succ_pos n) hn
  obtain ⟨m, r, h⟩ := hrun 127 (by decide)
  have hfull := h.resident.inv.full
    (Nat.zero_lt_of_lt (h.resident.inv.current_lt h.resident.pageTable))
  refine ⟨m, r, h.reachable, hfull, ?_, h.one (by decide)⟩
  have hone : (m.globalPageTable 1).useStamp = 1 := h.stamp 1 (by decide)
  apply Vm.findFreeByLRU_eq hfull (by decide)
  · intro q hq
    obtain rfl : q = 0 := by omega
    have hzero : (m.globalPageTable 0).useStamp = 2 := h.stamp 0 (by decide)
    rw [hone, hzero]
    rfl
  · intro q hq
    have hstamp : (m.globalPageTable q).useStamp = if q = 0 then 2 else 1 := by
      have := h.stamp q hq
      rw [if_pos (show q < 127 + 1 from hq)] at this
      exact this
    rw [hone, hstamp]
    split <;> rfl

end Nachos

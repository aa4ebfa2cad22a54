import Nachos.Userprog.Backing

/-!
# Isolation of address spaces

Two runs with the same schedule of accesses in which one space may write other values. As long
as the frames and the file ranges of that space pass to others only when they are overwritten,
or not read at all, the other spaces cannot tell the runs apart.
-/

namespace Nachos

open Framework

/-! ## Schedules -/

/-- An access of an address space: a read, or a write of a value. The registers the program has
at that moment and the garbage in the handler's variable come with it. -/
structure Access where
  space : Nat
  addr : Word
  size : Nat
  value : Option Word
  registers : Nat → Word
  vir : Int
  loadTarget : (registers loadReg).toNat < 32

def Vm.perform (m : Vm) (e : Access) : Option (Vm × Option Word) := do
  let m₁ ← m.step (.switch e.space)
  let m₂ ← m₁.step (.registers e.registers)
  match e.value with
  | none => (m₂.readMem e.addr e.size e.vir).map fun r => (r.1, some r.2)
  | some value => (m₂.writeMem e.addr e.size value e.vir).map fun m₃ => (m₃, none)

def Vm.enter (m : Vm) (sp : AddrSpace) (r : Nat → Word) : Vm :=
  { m.restoreState sp with registers := r }

private theorem Vm.perform_eq {m : Vm} {e : Access} {sp : AddrSpace}
    (hsp : m.spaces e.space = some sp) :
    m.perform e =
      match e.value with
      | none => ((m.enter sp e.registers).readMem e.addr e.size e.vir).map fun r =>
          (r.1, some r.2)
      | some value => ((m.enter sp e.registers).writeMem e.addr e.size value e.vir).map fun m₃ =>
          (m₃, none) := by
  simp only [perform, step, hsp, Option.map_some, Option.bind_eq_bind, Option.bind_some,
    e.loadTarget, if_true]
  rfl

/-- The same step of a schedule; only what `A` writes may differ. -/
structure SameAccess (A : Nat) (e e' : Access) : Prop where
  space : e'.space = e.space
  addr : e'.addr = e.addr
  size : e'.size = e.size
  direction : e'.value.isSome = e.value.isSome
  value : e.space ≠ A → e'.value = e.value

theorem SameAccess.symm {A : Nat} {e e' : Access} (h : SameAccess A e e') :
    SameAccess A e' e where
  space := h.space.symm
  addr := h.addr.symm
  size := h.size.symm
  direction := h.direction.symm
  value hA := (h.value (h.space ▸ hA)).symm

/-- Two runs from one state, in step. -/
def twoRuns (m₀ : Vm) (A : Nat) : System (Vm × Vm) (Access × Access) where
  init s := s = (m₀, m₀)
  step s e s' := SameAccess A e.1 e.2 ∧ (∃ o, s.1.perform e.1 = some (s'.1, o)) ∧
    ∃ o, s.2.perform e.2 = some (s'.2, o)

private theorem twoRuns_next {m₀ m m' : Vm} {A : Nat} {s : Vm × Vm} {e e' : Access}
    {o o' : Option Word} (hr : (twoRuns m₀ A).Reachable s) (hsame : SameAccess A e e')
    (hp : s.1.perform e = some (m, o)) (hp' : s.2.perform e' = some (m', o')) :
    (twoRuns m₀ A).Reachable (m, m') :=
  .step (l := (e, e')) hr ⟨hsame, ⟨o, hp⟩, o', hp'⟩

/-! ## Evictions that leak nothing -/

namespace Vm

/-- Page `v` of `t` may take the frame of page `w` of `A`. -/
structure Guarded (m : Vm) (A t v w : Nat) : Prop where
  backed : t ≠ A → ∀ i < pageSize, (m.backing t (v * pageSize + i)).isSome = true
  apart : (m.tables A w).dirty = true → ∀ t' < m.nextTable, t' ≠ A →
    m.diskFile t' = m.diskFile A → ∀ v' < numPhysPages, ∀ i < pageSize, ∀ p,
    reloadOffset (m.fileAddrOf t') (v' * pageSize + i : Nat) = some p → ¬ m.Rewrites A w p

/-- The access causes no page fault, or one that takes no frame from `A`, or a guarded one. -/
def Confined (m : Vm) (A : Nat) (e : Access) : Prop :=
  ∀ w, m.frame (e.space, e.addr.toNat / pageSize) = none → m.owner m.victim = some (A, w) →
    m.Guarded A e.space (e.addr.toNat / pageSize) w

end Vm

/-! ## What the other spaces can see -/

/-- The machines differ in registers, in the frames of `A` and in file bytes that only `A`
reads. -/
structure Alike (A : Nat) (m m' : Vm) : Prop where
  inv : m.Inv
  inv' : m'.Inv
  control : m' = { m with registers := m'.registers, mainMemory := m'.mainMemory,
                          files := m'.files }
  memory : ∀ t v p, t ≠ A → m.frame (t, v) = some p → ∀ i < pageSize,
    m'.mainMemory (p * pageSize + i) = m.mainMemory (p * pageSize + i)
  backing : ∀ t < m.nextTable, t ≠ A → ∀ v < numPhysPages, ∀ i < pageSize,
    m'.backing t (v * pageSize + i) = m.backing t (v * pageSize + i)
  sizes : ∀ fileName, (m'.files fileName).map HostFile.size = (m.files fileName).map HostFile.size

namespace Alike

variable {A : Nat} {m m' : Vm}

theorem refl (A : Nat) (h : m.Inv) : Alike A m m where
  inv := h
  inv' := h
  control := rfl
  memory _ _ _ _ _ _ _ := rfl
  backing _ _ _ _ _ _ _ := rfl
  sizes _ := rfl

theorem frame (h : Alike A m m') : m'.frame = m.frame := by
  rw [h.control]
  rfl

theorem owner (h : Alike A m m') : m'.owner = m.owner := by
  rw [h.control]
  rfl

theorem victim (h : Alike A m m') : m'.victim = m.victim := by
  rw [h.control]
  rfl

theorem tables (h : Alike A m m') : m'.tables = m.tables := by
  rw [h.control]

theorem nextTable (h : Alike A m m') : m'.nextTable = m.nextTable := by
  rw [h.control]

theorem diskFile (h : Alike A m m') : m'.diskFile = m.diskFile := by
  rw [h.control]
  rfl

theorem fileAddrOf (h : Alike A m m') : m'.fileAddrOf = m.fileAddrOf := by
  rw [h.control]
  rfl

theorem symm (h : Alike A m m') : Alike A m' m where
  inv := h.inv'
  inv' := h.inv
  control := by rw [h.control]
  memory t v p ht hf i hi := (h.memory t v p ht (h.frame ▸ hf) i hi).symm
  backing t ht hA v hv i hi := (h.backing t (h.nextTable ▸ ht) hA v hv i hi).symm
  sizes fileName := (h.sizes fileName).symm

private theorem rewrites (h : Alike A m m') (ref w : Nat) (p : Int) :
    m'.Rewrites ref w p ↔ m.Rewrites ref w p := by
  have hsize := h.sizes (m.diskFile ref)
  unfold Vm.Rewrites
  rw [h.diskFile]
  cases hf : m.files (m.diskFile ref) with
  | none =>
    rw [hf, Option.map_none, Option.map_eq_none_iff] at hsize
    simp [hsize]
  | some f =>
    rw [hf, Option.map_some, Option.map_eq_some_iff] at hsize
    obtain ⟨f', hf', hs⟩ := hsize
    simp [hf', hs]

private theorem guarded (h : Alike A m m') {t v w : Nat} (ht : t < m.nextTable)
    (hv : v < numPhysPages) (hg : m.Guarded A t v w) : m'.Guarded A t v w where
  backed hA i hi := by
    rw [h.backing t ht hA v hv i hi]
    exact hg.backed hA i hi
  apart hd t' ht' hA hfile v' hv' i hi p hp := by
    rw [h.rewrites]
    rw [h.tables] at hd
    rw [h.diskFile] at hfile
    rw [h.fileAddrOf] at hp
    exact hg.apart hd t' (h.nextTable ▸ ht') hA hfile v' hv' i hi p hp

theorem backingAfter (h : Alike A m m') {ref w t v i : Nat}
    (hown : m.owner m.victim = some (ref, w))
    (hapart : ref = A → (m.tables ref w).dirty = true → m.diskFile t = m.diskFile ref →
      ∀ p, reloadOffset (m.fileAddrOf t) (v * pageSize + i : Nat) = some p →
        ¬ m.Rewrites ref w p)
    (ht : t < m.nextTable) (hA : t ≠ A) (hv : v < numPhysPages) (hi : i < pageSize) :
    m'.backingAfter ref w t (v * pageSize + i) = m.backingAfter ref w t (v * pageSize + i) := by
  have hback := h.backing t ht hA v hv i hi
  by_cases hchange : ref = A ∨ (m.tables ref w).dirty ≠ true ∨ m.diskFile t ≠ m.diskFile ref
  · -- the file bytes of `t` stay as they are
    have hkeep : (m.tables ref w).dirty = true → m.diskFile t = m.diskFile ref →
        ∀ p, reloadOffset (m.fileAddrOf t) (v * pageSize + i : Nat) = some p →
          ¬ m.Rewrites ref w p := by
      intro hd hfile
      rcases hchange with hA | hclean | hother
      · exact hapart hA hd hfile
      · exact absurd hd hclean
      · exact absurd hfile hother
    rw [Vm.backingAfter_eq hkeep, Vm.backingAfter_eq, hback]
    intro hd hfile p hp
    rw [h.tables] at hd
    rw [h.diskFile] at hfile
    rw [h.fileAddrOf] at hp
    rw [h.rewrites]
    exact hkeep hd hfile p hp
  · simp only [not_or, ne_eq, not_not] at hchange
    obtain ⟨href, hd, hfile⟩ := hchange
    have hd' : (m'.tables ref w).dirty = true := by rw [h.tables, hd]
    have hsize := h.sizes (m.diskFile ref)
    have hframe := (h.inv.agree (ref, w) m.victim).mpr hown
    unfold Vm.backing at hback
    unfold Vm.backingAfter Vm.writeBack
    rw [h.diskFile, h.fileAddrOf, hfile] at hback ⊢
    rw [if_pos hd, if_pos hd', Function.update_self, Function.update_self, h.victim]
    cases hf : m.files (m.diskFile ref) with
    | none =>
      rw [hf, Option.map_none, Option.map_eq_none_iff] at hsize
      rw [hsize]
      rfl
    | some f =>
      rw [hf, Option.map_some, Option.map_eq_some_iff] at hsize
      obtain ⟨f', hf', hs⟩ := hsize
      rw [hf, hf'] at hback
      rw [hf']
      simp only [Option.map_some, Option.bind_some, fileByte] at hback ⊢
      cases hoff : reloadOffset (m.fileAddrOf t) (v * pageSize + i : Nat) with
      | none => rfl
      | some p =>
        rw [hoff] at hback
        exact HostFile.byte?_written_congr _ hs hback (h.memory ref w m.victim href hframe)

private theorem sizes_writeBack (h : Alike A m m') (ref w : Nat) (fileName : FileName) :
    (m'.writeBack ref w fileName).map HostFile.size =
      (m.writeBack ref w fileName).map HostFile.size := by
  unfold Vm.writeBack
  rw [h.tables, h.diskFile]
  split
  next =>
    by_cases hfile : fileName = m.diskFile ref
    · subst hfile
      have hsize := h.sizes (m.diskFile ref)
      rw [Function.update_self, Function.update_self]
      cases hf : m.files (m.diskFile ref) with
      | none =>
        rw [hf, Option.map_none, Option.map_eq_none_iff] at hsize
        rw [hsize]
        simp only [Option.map_none]
      | some f =>
        rw [hf, Option.map_some, Option.map_eq_some_iff] at hsize
        obtain ⟨f', hf', hs⟩ := hsize
        rw [hf', Option.map_some, Option.map_some, Option.map_some, Option.map_some,
          HostFile.size_written, HostFile.size_written, hs]
    · rw [Function.update_of_ne hfile, Function.update_of_ne hfile]
      exact h.sizes fileName
  next => exact h.sizes fileName

private theorem control_afterFault (h : Alike A m m') (addr : Word) (t ref w : Nat)
    (input input' : HostFile) :
    m'.afterFault addr t ref w input' =
      { m.afterFault addr t ref w input with
        registers := (m'.afterFault addr t ref w input').registers,
        mainMemory := (m'.afterFault addr t ref w input').mainMemory,
        files := (m'.afterFault addr t ref w input').files } := by
  rw [h.control]
  rfl

/-- A page fault that passes no frame of `A` on unguarded shows the other spaces nothing. -/
theorem afterFault (h : Alike A m m') {t ref w : Nat} {addr : Word} {input input' : HostFile}
    (hpt : m.pageTable = some t) (hsize : addr.toNat / pageSize < m.pageTableSize)
    (hf : m.frame (t, addr.toNat / pageSize) = none)
    (hown : m.owner m.victim = some (ref, w))
    (hin : m.writeBack ref w (m.diskFile t) = some input)
    (hin' : m'.writeBack ref w (m.diskFile t) = some input')
    (hg : ref = A → m.Guarded A t (addr.toNat / pageSize) w) :
    Alike A (m.afterFault addr t ref w input) (m'.afterFault addr t ref w input') := by
  have ht := h.inv.current_lt hpt
  have hv := h.inv.vpn_lt hpt hsize
  have hpt' : m'.pageTable = some t := by rw [h.control, hpt]
  have hsize' : addr.toNat / pageSize < m'.pageTableSize := by rw [h.control]; exact hsize
  have hown' : m'.owner m'.victim = some (ref, w) := by rw [h.owner, h.victim, hown]
  have hapart : ∀ t' < m.nextTable, t' ≠ A → ∀ v' < numPhysPages, ∀ i < pageSize,
      ref = A → (m.tables ref w).dirty = true → m.diskFile t' = m.diskFile ref →
      ∀ p, reloadOffset (m.fileAddrOf t') (v' * pageSize + i : Nat) = some p →
        ¬ m.Rewrites ref w p := by
    rintro t' ht' hA v' hv' i hi rfl hd hfile p hp
    exact (hg rfl).apart hd t' ht' hA hfile v' hv' i hi p hp
  refine ⟨h.inv.afterFault hpt hsize hf hown input,
    h.inv'.afterFault hpt' hsize' (h.frame ▸ hf) hown' input',
    h.control_afterFault addr t ref w input input', ?_, ?_, h.sizes_writeBack ref w⟩
  · intro t' v' p hA hp i hi
    rw [h.inv.frame_afterFault hpt hsize] at hp
    rw [Vm.afterFault_mainMemory, Vm.afterFault_mainMemory, h.victim]
    split at hp
    next heq =>
      -- the page that came in: from the file, or left over in the frame
      obtain ⟨rfl, rfl⟩ := Prod.mk.inj heq
      obtain rfl := Option.some.inj hp
      have hbyte : fileByte input m.fileAddr (addr.toNat / pageSize * pageSize + i) =
          m.backingAfter ref w t' (addr.toNat / pageSize * pageSize + i) := by
        rw [Vm.backingAfter, hin, Option.bind_some, ← h.inv.fileAddr_current hpt]
      have hbyte' : fileByte input' m'.fileAddr (addr.toNat / pageSize * pageSize + i) =
          m'.backingAfter ref w t' (addr.toNat / pageSize * pageSize + i) := by
        rw [Vm.backingAfter, h.diskFile, hin', Option.bind_some, ← h.inv'.fileAddr_current hpt']
      rw [filled_frame _ _ _ _ _ hi, filled_frame _ _ _ _ _ hi, hbyte, hbyte',
        h.backingAfter hown (hapart t' ht hA _ hv i hi) ht hA hv hi]
      cases hb : m.backingAfter ref w t' (addr.toNat / pageSize * pageSize + i) with
      | some b => rfl
      | none =>
        have href : ref ≠ A := by
          intro href
          have hsome := Vm.backingAfter_isSome ref w ((hg href).backed hA i hi)
          rw [hb] at hsome
          contradiction
        exact h.memory ref w m.victim href ((h.inv.agree _ _).mpr hown) i hi
    next =>
      split at hp
      next => contradiction
      next hne =>
        have hvic : p ≠ m.victim := by
          rintro rfl
          rw [h.inv.agree, hown] at hp
          exact hne (Option.some.inj hp)
        rw [filled_other _ _ _ _ hvic hi, filled_other _ _ _ _ hvic hi]
        exact h.memory t' v' p hA hp i hi
  · intro t' ht' hA v' hv' i hi
    rw [Vm.backing_afterFault, Vm.backing_afterFault]
    exact h.backingAfter hown (hapart t' ht' hA v' hv' i hi) ht' hA hv' hi

theorem touch (h : Alike A m m') (t v phy : Nat) (writing : Bool) :
    Alike A (m.touch t v phy writing) (m'.touch t v phy writing) where
  inv := h.inv.touch t v phy writing
  inv' := h.inv'.touch t v phy writing
  control := by
    rw [h.control]
    rfl
  memory t' v' p hA hp i hi := by
    rw [Vm.frame_touch] at hp
    exact h.memory t' v' p hA hp i hi
  backing t' ht' hA v' hv' i hi := by
    have hb := h.backing t' ht' hA v' hv' i hi
    unfold Vm.backing at hb ⊢
    rw [Vm.touch_diskFile, Vm.touch_diskFile]
    exact hb
  sizes := h.sizes

theorem withMemory (h : Alike A m m') (hpos : 0 < m.nextTable) {memory memory' : Nat → Byte}
    (hmem : ∀ t v p, t ≠ A → m.frame (t, v) = some p → ∀ i < pageSize,
      memory' (p * pageSize + i) = memory (p * pageSize + i)) :
    Alike A { m with mainMemory := memory } { m' with mainMemory := memory' } where
  inv := h.inv.withMemory hpos memory
  inv' := h.inv'.withMemory (h.nextTable ▸ hpos) memory'
  control := by rw [h.control]
  memory := hmem
  backing := h.backing
  sizes := h.sizes

theorem withRegisters (h : Alike A m m') {r r' : Nat → Word} (hr : (r loadReg).toNat < 32)
    (hr' : (r' loadReg).toNat < 32) :
    Alike A { m with registers := r } { m' with registers := r' } where
  inv := h.inv.withRegisters hr
  inv' := h.inv'.withRegisters hr'
  control := by rw [h.control]
  memory := h.memory
  backing := h.backing
  sizes := h.sizes

theorem restoreState (h : Alike A m m') {t : Nat} {s : AddrSpace} (hs : m.spaces t = some s) :
    Alike A (m.restoreState s) (m'.restoreState s) where
  inv := h.inv.restoreState hs
  inv' := h.inv'.restoreState (by rw [h.control]; exact hs)
  control := by
    rw [h.control]
    rfl
  memory := h.memory
  backing := h.backing
  sizes := h.sizes

theorem access (h : Alike A m m') {m₁ : Vm} {addr : Word} {size physAddr t : Nat}
    {writing : Bool} {vir : Int} (hpt : m.pageTable = some t)
    (hs : size = 1 ∨ size = 2 ∨ size = 4)
    (hg : ∀ w, m.frame (t, addr.toNat / pageSize) = none → m.owner m.victim = some (A, w) →
      m.Guarded A t (addr.toNat / pageSize) w)
    (hacc : m.access addr size writing vir = some (m₁, physAddr)) (vir' : Int) :
    ∃ m₁' phy, m'.access addr size writing vir' = some (m₁', physAddr) ∧ Alike A m₁ m₁' ∧
      m₁.frame (t, addr.toNat / pageSize) = some phy ∧
      physAddr = phy * pageSize + addr.toNat % pageSize ∧ t < m₁.nextTable ∧
      addr.toNat % pageSize + size ≤ pageSize := by
  have hpt' : m'.pageTable = some t := by rw [h.control, hpt]
  have ht := h.inv.current_lt hpt
  obtain ⟨m₂, hpre, hlast⟩ := Vm.access_cases hacc
  obtain ⟨t₂, phy₂, -, -, -, -, hal, -⟩ := Vm.translate_ok hlast
  have hin := hal.within hs
  have hsize : addr.toNat / pageSize < m.pageTableSize := by
    rcases hpre with rfl | ⟨hfirst, -⟩
    · obtain ⟨-, -, -, hsz, -⟩ := Vm.translate_ok hlast
      exact hsz
    · obtain ⟨-, -, hsz, -⟩ := Vm.translate_pageFault hfirst
      exact hsz
  have hsize' : addr.toNat / pageSize < m'.pageTableSize := by rw [h.control]; exact hsize
  cases hf : m.frame (t, addr.toNat / pageSize) with
  | some phy =>
    have hacc₁ := h.inv.access_resident hpt hsize hal hs hf writing vir
    have hacc₂ := h.inv'.access_resident hpt' hsize' hal hs (h.frame ▸ hf) writing vir'
    obtain ⟨rfl, rfl⟩ := Prod.mk.inj (Option.some.inj (hacc.symm.trans hacc₁))
    refine ⟨_, phy, hacc₂, h.touch t _ phy writing, ?_, rfl, ht, hin⟩
    rw [Vm.frame_touch, hf]
  | none =>
    have hun := Vm.unmapped_of_frame ht (h.inv.vpn_lt hpt hsize) hf
    rcases hpre with rfl | ⟨hfirst, hfault⟩
    · rw [Vm.translate_unmapped hpt hsize hal hun] at hlast
      simp at hlast
    · obtain ⟨t', ref, w, input, hpt₁, -, -, hown, hinput, hpos, -⟩ :=
        h.inv.fault_cases hfirst hfault
      cases Option.some.inj (hpt.symm.trans hpt₁)
      have hown' : m'.owner m'.victim = some (ref, w) := by rw [h.owner, h.victim, hown]
      have hfile := (h.inv'.entry t (h.inv'.current_lt hpt') 0 (by decide)).file
      obtain ⟨input', hinput'⟩ := Option.isSome_iff_exists.mp (Vm.writeBack_isSome ref w hfile)
      have hpos' : ∀ i < pageSize, ∀ p, reloadOffset m'.fileAddr
          (addr.toNat / pageSize * pageSize + i : Nat) = some p → 0 ≤ p := by
        rw [h.control]
        exact hpos
      have hacc₁ := h.inv.access_afterFault hpt hsize hal hs hf hown hinput hpos writing vir
      have hacc₂ := h.inv'.access_afterFault hpt' hsize' hal hs (h.frame ▸ hf) hown' hinput'
        hpos' writing vir'
      obtain ⟨rfl, rfl⟩ := Prod.mk.inj (Option.some.inj (hacc.symm.trans hacc₁))
      rw [h.diskFile] at hinput'
      rw [h.victim] at hacc₂
      have hafter := h.afterFault hpt hsize hf hown hinput hinput' fun href =>
        hg w hf (href ▸ hown)
      refine ⟨_, m.victim, hacc₂, hafter.touch t _ m.victim writing, ?_, rfl, ht, hin⟩
      rw [Vm.frame_touch, h.inv.frame_afterFault hpt hsize, if_pos rfl]

theorem enter (h : Alike A m m') {e e' : Access} {sp : AddrSpace}
    (hsp : m.spaces e.space = some sp) :
    Alike A (m.enter sp e.registers) (m'.enter sp e'.registers) :=
  (h.restoreState hsp).withRegisters e.loadTarget e'.loadTarget

theorem perform (h : Alike A m m') {e e' : Access} (hsame : SameAccess A e e')
    (hconf : m.Confined A e) {m₁ : Vm} {o : Option Word} (hp : m.perform e = some (m₁, o)) :
    ∃ m₁' o', m'.perform e' = some (m₁', o') ∧ Alike A m₁ m₁' ∧ (e.space ≠ A → o' = o) := by
  obtain ⟨sp, hsp⟩ : ∃ sp, m.spaces e.space = some sp := by
    obtain ⟨m₂, hswitch, -⟩ := Option.bind_eq_some_iff.mp hp
    obtain ⟨sp, hsp, -⟩ := Option.map_eq_some_iff.mp hswitch
    exact ⟨sp, hsp⟩
  have hsp' : m'.spaces e'.space = some sp := by
    rw [h.control, hsame.space]
    exact hsp
  have hpt : (m.enter sp e.registers).pageTable = some e.space :=
    congrArg some (h.inv.space e.space sp hsp).1
  have hent : Alike A (m.enter sp e.registers) (m'.enter sp e'.registers) := h.enter hsp
  have hg : ∀ w, (m.enter sp e.registers).frame (e.space, e.addr.toNat / pageSize) = none →
      (m.enter sp e.registers).owner (m.enter sp e.registers).victim = some (A, w) →
      (m.enter sp e.registers).Guarded A e.space (e.addr.toNat / pageSize) w := by
    intro w hf hown
    have hgu := hconf w hf hown
    exact ⟨hgu.backed, hgu.apart⟩
  rw [Vm.perform_eq hsp] at hp
  rw [Vm.perform_eq hsp', hsame.addr, hsame.size]
  cases hval : e.value with
  | none =>
    have hval' : e'.value = none := by
      have := hsame.direction
      rw [hval] at this
      simpa using this
    simp only [hval, hval'] at hp ⊢
    obtain ⟨⟨m₂, value⟩, hread, heq⟩ := Option.map_eq_some_iff.mp hp
    obtain ⟨rfl, rfl⟩ := Prod.mk.inj heq
    obtain ⟨⟨m₃, physAddr⟩, hacc, hread⟩ := Option.bind_eq_some_iff.mp hread
    obtain ⟨data, hfetch, hread⟩ := Option.bind_eq_some_iff.mp hread
    obtain ⟨rfl, rfl⟩ := Prod.mk.inj (Option.some.inj hread)
    obtain ⟨-, -, hs⟩ := fetch_isSome (fun _ => 0) 0 hfetch
    obtain ⟨m₃', phy, hacc', h₃, hframe, rfl, -, hin⟩ :=
      hent.access hpt hs hg hacc e'.vir
    obtain ⟨value', hfetch', -⟩ := fetch_isSome m₃'.mainMemory
      (phy * pageSize + e.addr.toNat % pageSize) hfetch
    rw [Vm.readMem_of_access hacc', hfetch']
    refine ⟨m₃', some value', rfl, h₃, ?_⟩
    intro hA
    rw [← hfetch, ← hfetch']
    apply fetch_congr _ hs
    intro i hi
    rw [Nat.add_assoc]
    exact h₃.memory e.space _ phy hA hframe _ (by omega)
  | some value =>
    obtain ⟨value', hval'⟩ : ∃ value', e'.value = some value' := by
      have := hsame.direction
      rw [hval] at this
      exact Option.isSome_iff_exists.mp this
    simp only [hval, hval'] at hp ⊢
    obtain ⟨m₂, hwrite, heq⟩ := Option.map_eq_some_iff.mp hp
    obtain ⟨rfl, rfl⟩ := Prod.mk.inj heq
    obtain ⟨⟨m₃, physAddr⟩, hacc, hwrite⟩ := Option.bind_eq_some_iff.mp hwrite
    obtain ⟨memory, hstore, hwrite⟩ := Option.bind_eq_some_iff.mp hwrite
    cases Option.some.inj hwrite
    obtain ⟨-, -, hs⟩ := store_isSome (fun _ => 0) 0 value hstore
    obtain ⟨m₃', phy, hacc', h₃, hframe, rfl, ht, hin⟩ :=
      hent.access hpt hs hg hacc e'.vir
    obtain ⟨memory', hstore', -⟩ := store_isSome m₃'.mainMemory
      (phy * pageSize + e.addr.toNat % pageSize) value' hstore
    rw [Vm.writeMem_of_access hacc', hstore']
    refine ⟨_, none, rfl, h₃.withMemory (Nat.zero_lt_of_lt ht) ?_, fun _ => rfl⟩
    intro t v p hA hp i hi
    by_cases hphy : p = phy
    · -- the frame of the page that was written
      subst hphy
      obtain ⟨rfl, rfl⟩ := Prod.mk.inj (h₃.inv.agree.unique hp hframe)
      have hvv : value' = value := by
        have := hsame.value hA
        rw [hval, hval'] at this
        exact Option.some.inj this
      rw [store_page hstore, store_page hstore', hvv, h₃.memory _ _ p hA hp i hi]
    · rw [store_other hstore hin hphy hi, store_other hstore' hin hphy hi]
      exact h₃.memory t v p hA hp i hi

private theorem confined (h : Alike A m m') {e e' : Access} (hsame : SameAccess A e e')
    (ht : e.space < m.nextTable) (hv : e.addr.toNat / pageSize < numPhysPages)
    (hconf : m.Confined A e) : m'.Confined A e' := by
  intro w hf hown
  rw [hsame.space, hsame.addr] at hf ⊢
  rw [h.frame] at hf
  rw [h.owner, h.victim] at hown
  exact h.guarded ht hv (hconf w hf hown)

end Alike

private theorem Vm.Inv.perform_range {m : Vm} (h : m.Inv) {e : Access} {r : Vm × Option Word}
    (hp : m.perform e = some r) :
    e.space < m.nextTable ∧ e.addr.toNat / pageSize < numPhysPages := by
  obtain ⟨m₂, hswitch, -⟩ := Option.bind_eq_some_iff.mp hp
  obtain ⟨sp, hsp, -⟩ := Option.map_eq_some_iff.mp hswitch
  have ht : e.space < m.nextTable := by
    rw [← h.loaded, hsp]
    rfl
  have hin : ∀ {writing m₁ physAddr}, (m.enter sp e.registers).access e.addr e.size writing
      e.vir = some (m₁, physAddr) → e.addr.toNat / pageSize < numPhysPages := by
    intro writing m₁ physAddr hacc
    have hpages := (h.space e.space sp hsp).2
    obtain ⟨m₂, rfl | ⟨hfirst, -⟩, hlast⟩ := Vm.access_cases hacc
    · obtain ⟨-, -, -, hsz, -⟩ := Vm.translate_ok hlast
      exact Nat.lt_of_lt_of_le hsz hpages
    · obtain ⟨-, -, hsz, -⟩ := Vm.translate_pageFault hfirst
      exact Nat.lt_of_lt_of_le hsz hpages
  refine ⟨ht, ?_⟩
  rw [Vm.perform_eq hsp] at hp
  cases hval : e.value with
  | none =>
    simp only [hval] at hp
    obtain ⟨r₁, hread, -⟩ := Option.map_eq_some_iff.mp hp
    obtain ⟨r₂, hacc, -⟩ := Option.bind_eq_some_iff.mp hread
    exact hin hacc
  | some value =>
    simp only [hval] at hp
    obtain ⟨r₁, hwrite, -⟩ := Option.map_eq_some_iff.mp hp
    obtain ⟨r₂, hacc, -⟩ := Option.bind_eq_some_iff.mp hwrite
    exact hin hacc

theorem alike_inductive {files : FileName → Option HostFile} {m₀ : Vm}
    (hr : (vmSystem files).Reachable m₀) (A : Nat) :
    ((twoRuns m₀ A).restrict fun s e => s.1.Confined A e.1).Inductive
      fun s => Alike A s.1 s.2 where
  init s hs := by
    rw [show s = (m₀, m₀) from hs]
    exact Alike.refl A ((Vm.inv_inductive files).of_reachable hr)
  step s e s' h hs := by
    obtain ⟨hconf, hsame, ⟨o, hp⟩, o', hp'⟩ := hs
    obtain ⟨m₁, o₁, hp₁, h₁, -⟩ := h.perform hsame hconf hp
    obtain ⟨rfl, -⟩ := Prod.mk.inj (Option.some.inj (hp'.symm.trans hp₁))
    exact h₁

/-- In runs without unguarded evictions the other spaces take the same steps and read the same
values, whatever `A` writes. -/
theorem isolation {files : FileName → Option HostFile} {m₀ : Vm}
    (hr : (vmSystem files).Reachable m₀) {A : Nat} {s : Vm × Vm}
    (hs : ((twoRuns m₀ A).restrict fun s e => s.1.Confined A e.1).Reachable s)
    {e e' : Access} (hsame : SameAccess A e e') (hconf : s.1.Confined A e) :
    (s.1.perform e).isSome = (s.2.perform e').isSome ∧
      (e.space ≠ A → (s.1.perform e).map Prod.snd = (s.2.perform e').map Prod.snd) := by
  have h := (alike_inductive hr A).of_reachable hs
  cases hp : s.1.perform e with
  | some r =>
    obtain ⟨m₁, o⟩ := r
    obtain ⟨m₁', o', hp', -, ho⟩ := h.perform hsame hconf hp
    rw [hp']
    refine ⟨rfl, fun hA => ?_⟩
    rw [Option.map_some, Option.map_some, ho hA]
  | none =>
    cases hp' : s.2.perform e' with
    | none => exact ⟨rfl, fun _ => rfl⟩
    | some r =>
      -- the other direction: a step of the second machine is one of the first
      obtain ⟨ht, hv⟩ := h.inv'.perform_range hp'
      rw [hsame.space, h.nextTable] at ht
      rw [hsame.addr] at hv
      obtain ⟨m₁, o₁, hp₁, -⟩ := h.symm.perform hsame.symm (h.confined hsame ht hv hconf) hp'
      rw [hp₁] at hp
      contradiction

/-! ## A leak

A program without file-backed pages, loaded twice. The first space writes a byte and then uses
every other page once, so that the page it wrote is the next victim. -/

/-- The space with table `t` loaded from an executable. -/
def NoffHeader.space (h : NoffHeader) (t : Nat) : AddrSpace :=
  { pageTable := t, numPages := h.numPages, fileAddr := h.fileAddr }

def byteAccess (space : Nat) (addr : Word) (value : Option Word) : Access :=
  { space, addr, size := 1, value, registers := fun _ => 0, vir := 0, loadTarget := by decide }

/-- Address 0 of the memory holds `x`, and the first space used its pages below `n` once. -/
structure Swept (b : Vm) (x : Byte) (n : Nat) (m : Vm) : Prop where
  inv : m.Inv
  spaces : m.spaces = b.spaces
  files : m.files = b.files
  second : m.tables 1 = b.tables 1
  clean : ∀ v, n ≤ v → v < numPhysPages → (m.tables 0 v).dirty = false
  frame : ∀ v < numPhysPages, m.frame (0, v) = some v
  stamp : ∀ q < numPhysPages, (m.globalPageTable q).useStamp = if q < n then 1 else 0
  memory : m.mainMemory 0 = x

namespace Swept

variable {b m : Vm} {x : Byte} {n : Nat} {sp : AddrSpace}

theorem touch (h : Swept b x n m) (hsp : b.spaces 0 = some sp) {r : Nat → Word}
    (hr : (r loadReg).toNat < 32) (writing : Bool) (memory : Nat → Byte) :
    Swept b (memory 0) (n + 1)
      { (m.enter sp r).touch 0 n n writing with mainMemory := memory } where
  inv := by
    have hinv := (h.inv.restoreState (h.spaces ▸ hsp)).withRegisters hr
    have hpos : 0 < m.nextTable := Vm.frame_lt (h.frame 0 (by decide))
    exact (hinv.touch 0 n n writing).withMemory hpos memory
  spaces := h.spaces
  files := h.files
  clean v hn hv := by
    show (((m.enter sp r).touch 0 n n writing).tables 0 v).dirty = false
    rw [Vm.touch_tables, if_neg fun hc => by omega]
    exact h.clean v (by omega) hv
  second := by
    rw [← h.second]
    funext v
    show ((m.enter sp r).touch 0 n n writing).tables 1 v = _
    rw [Vm.touch_tables, if_neg fun hc => Nat.one_ne_zero hc.1]
    rfl
  frame v hv := by
    show ((m.enter sp r).touch 0 n n writing).frame (0, v) = some v
    rw [Vm.frame_touch]
    exact h.frame v hv
  stamp q hq := by
    show (Function.update m.globalPageTable n _ q).useStamp = _
    rw [Function.update_apply]
    split
    next heq =>
      subst heq
      show (m.globalPageTable q).useStamp + 1 = _
      rw [h.stamp q hq, if_neg (Nat.lt_irrefl q), if_pos (Nat.lt_succ_self q)]
      rfl
    next hne =>
      have hiff : q < n + 1 ↔ q < n := by omega
      rw [h.stamp q hq]
      simp only [hiff]
  memory := rfl

theorem access (h : Swept b x n m) (hsp : b.spaces 0 = some sp) (hn : n < sp.numPages)
    {addr : Word} (haddr : addr.toNat = n * pageSize) {r : Nat → Word}
    (hr : (r loadReg).toNat < 32) (writing : Bool) (vir : Int) :
    (m.enter sp r).access addr 1 writing vir =
      some ((m.enter sp r).touch 0 n n writing, n * pageSize) := by
  have hspm : m.spaces 0 = some sp := h.spaces ▸ hsp
  have hinv : (m.enter sp r).Inv := (h.inv.restoreState hspm).withRegisters hr
  have hpt : (m.enter sp r).pageTable = some 0 := congrArg some (h.inv.space 0 sp hspm).1
  have hdiv : addr.toNat / pageSize = n := by rw [haddr, Nat.mul_div_cancel _ (by decide)]
  have hmod : addr.toNat % pageSize = 0 := by rw [haddr, Nat.mul_mod_left]
  have hal : Vm.Aligned addr 1 := by
    unfold Vm.Aligned
    omega
  have hf : (m.enter sp r).frame (0, addr.toNat / pageSize) = some n := by
    rw [hdiv]
    exact h.frame n (Nat.lt_of_lt_of_le hn (h.inv.space 0 sp hspm).2)
  have hacc := hinv.access_resident hpt (by rw [hdiv]; exact hn) hal (.inl rfl) hf writing vir
  rw [hdiv, hmod, Nat.add_zero] at hacc
  exact hacc

theorem read (h : Swept b x n m) (hsp : b.spaces 0 = some sp) (hn : n < sp.numPages)
    {addr : Word} (haddr : addr.toNat = n * pageSize) :
    ∃ m' o, m.perform (byteAccess 0 addr none) = some (m', o) ∧ Swept b x (n + 1) m' := by
  have hacc := h.access hsp hn haddr (byteAccess 0 addr none).loadTarget false 0
  have hnext := h.touch hsp (byteAccess 0 addr none).loadTarget false m.mainMemory
  rw [h.memory] at hnext
  refine ⟨_, some ((m.mainMemory (n * pageSize)).signExtend 32), ?_, hnext⟩
  rw [Vm.perform_eq (show m.spaces 0 = some sp from h.spaces ▸ hsp)]
  show Option.map _ (Vm.readMem _ addr 1 0) = _
  rw [Vm.readMem_of_access hacc]
  rfl

theorem write (h : Swept b x 0 m) (hsp : b.spaces 0 = some sp) (hn : 0 < sp.numPages)
    (value : Word) :
    ∃ m' o, m.perform (byteAccess 0 0 (some value)) = some (m', o) ∧
      Swept b (value.extractLsb' 0 8) 1 m' := by
  have hacc := h.access hsp hn (show (0 : Word).toNat = 0 * pageSize from rfl)
    (byteAccess 0 0 (some value)).loadTarget true 0
  obtain ⟨memory, hst⟩ : ∃ memory, store m.mainMemory 1 (0 * pageSize) value = some memory :=
    ⟨_, rfl⟩
  have hzero : memory 0 = value.extractLsb' 0 8 := by
    cases Option.some.inj hst
    rfl
  have hnext := h.touch hsp (byteAccess 0 0 (some value)).loadTarget true memory
  rw [hzero] at hnext
  refine ⟨_, none, ?_, hnext⟩
  rw [Vm.perform_eq (show m.spaces 0 = some sp from h.spaces ▸ hsp)]
  show Option.map _ (Vm.writeMem _ 0 1 value 0) = _
  rw [Vm.writeMem_of_access hacc]
  show Option.map _ (Option.map _ (store m.mainMemory 1 (0 * pageSize) value)) = _
  rw [hst]
  rfl

private theorem leak (h : Swept b x numPhysPages m) (hsp : b.spaces 1 = some sp)
    (hpages : 0 < sp.numPages) (hun : (b.tables 1 0).physicalPage = -1)
    (hseg : ∀ i, reloadOffset sp.fileAddr i = none) :
    (m.perform (byteAccess 1 0 none)).map Prod.snd = some (some (x.signExtend 32)) := by
  have hspm : m.spaces 1 = some sp := h.spaces ▸ hsp
  obtain ⟨n, hn⟩ : ∃ n, n = m.enter sp (byteAccess 1 0 none).registers := ⟨_, rfl⟩
  have hinv : n.Inv := by
    rw [hn]
    exact (h.inv.restoreState hspm).withRegisters (byteAccess 1 0 none).loadTarget
  have hpt : n.pageTable = some 1 := by
    rw [hn]
    exact congrArg some (h.inv.space 1 sp hspm).1
  have hf : n.frame (1, (0 : Word).toNat / pageSize) = none := by
    apply Vm.frame_eq_none
    right
    rw [hn]
    show (m.tables 1 0).physicalPage = -1
    rw [h.second, hun]
  have hlru : n.findFreeByLRU = some 0 := by
    apply Vm.findFreeByLRU_eq
    · exact hinv.full (Nat.zero_lt_of_lt (hinv.current_lt hpt))
    · decide
    · intro q hq
      omega
    · intro q hq
      rw [hn]
      show (m.globalPageTable q).useStamp.slt (m.globalPageTable 0).useStamp = false
      rw [h.stamp q hq, h.stamp 0 (by decide), if_pos hq, if_pos (by decide)]
      rfl
  have hvic : n.victim = 0 := by rw [Vm.victim, hlru, Option.getD_some]
  have hown : n.owner n.victim = some (0, 0) := by
    rw [hvic]
    apply (hinv.agree (0, 0) 0).mp
    rw [hn]
    exact h.frame 0 (by decide)
  have hfile := (hinv.entry 1 (hinv.current_lt hpt) 0 (by decide)).file
  obtain ⟨input, hinput⟩ := Option.isSome_iff_exists.mp (Vm.writeBack_isSome 0 0 hfile)
  have hfa : n.fileAddr = sp.fileAddr := by rw [hn]; rfl
  have hmem : n.mainMemory 0 = x := by rw [hn]; exact h.memory
  have hsize : (0 : Word).toNat / pageSize < n.pageTableSize := by rw [hn]; exact hpages
  have hacc := hinv.access_afterFault hpt hsize (show Vm.Aligned 0 1 by decide) (.inl rfl) hf
    hown hinput (by intro i _ p hp; rw [hfa, hseg] at hp; contradiction) false 0
  rw [Vm.perform_eq (show m.spaces 1 = some sp from hspm)]
  show Option.map _ (Option.map _ (Vm.readMem (m.enter sp (byteAccess 1 0 none).registers)
    0 1 0)) = _
  rw [← hn, Vm.readMem_of_access hacc, Vm.touch_mainMemory, Vm.afterFault_mainMemory, hvic]
  have hfill := filled_frame input n.fileAddr ((0 : Word).toNat / pageSize) 0 n.mainMemory
    (show 0 < pageSize by decide)
  rw [fileByte, hfa, hseg, Option.bind_none, Option.getD_none] at hfill
  rw [hfa]
  show some (some ((filled input sp.fileAddr ((0 : Word).toNat / pageSize) 0 n.mainMemory
    pageSize (0 * pageSize + 0)).signExtend 32)) = _
  rw [hfill]
  exact congrArg (fun y : Byte => some (some (y.signExtend 32))) hmem

theorem loadedTwice {files : FileName → Option HostFile} {fileName : FileName} {f : HostFile}
    {noffH : Nat → Byte} (hf : files fileName = some f)
    (hload : (Vm.headerOf f noffH).Loadable) :
    Swept (Vm.loadedTwice files fileName f (Vm.headerOf f noffH))
      ((Vm.loadedTwice files fileName f (Vm.headerOf f noffH)).mainMemory 0) 0
      (Vm.loadedTwice files fileName f (Vm.headerOf f noffH)) where
  inv := (Vm.inv_inductive files).of_reachable (Vm.reachable_loadedTwice hf hload)
  spaces := rfl
  files := rfl
  second := rfl
  clean v _ hv := by
    have hne : (0 : Nat) ≠ (Vm.loadedOnce files fileName f (Vm.headerOf f noffH)).nextTable :=
      Nat.zero_ne_one
    rw [Vm.loadedTwice, Vm.newSpace_tables_of_ne _ _ _ hne]
    exact congrArg TranslationEntry.dirty
      (Vm.newSpace_tables (m := .new files) fileName (Vm.headerOf f noffH) (fun v => v) hv)
  frame v hv := by
    have hne : (0 : Nat) ≠ (Vm.loadedOnce files fileName f (Vm.headerOf f noffH)).nextTable :=
      Nat.zero_ne_one
    rw [Vm.loadedTwice, Vm.frame_newSpace, if_neg hne]
    have hfirst := Vm.frame_newSpace (m := .new files) fileName (Vm.headerOf f noffH)
      (fun v => v) (0, v)
    have hzero : (0 : Nat) = (Vm.new files).nextTable := rfl
    have hmapped : v < numPhysPages ∧ (v : Int) ≠ -1 := ⟨hv, by omega⟩
    simp only [if_pos hzero, if_pos hmapped, Int.toNat_natCast] at hfirst
    exact hfirst
  stamp q hq := by
    show ((Vm.new files).allFrames q).useStamp = _
    rw [Vm.allFrames, if_pos hq]
    rfl
  memory := rfl

end Swept

/-- After one page was used, the second space may take the next frame for a page that its
executable holds completely. -/
private theorem Swept.confined {files : FileName → Option HostFile} {fileName : FileName}
    {f : HostFile} {noffH : Nat → Byte} (hf : files fileName = some f) {m : Vm} {x : Byte}
    (h : Swept (Vm.loadedTwice files fileName f (Vm.headerOf f noffH)) x 1 m)
    (hbacked : ∀ i < pageSize, (fileByte f (Vm.headerOf f noffH).fileAddr i).isSome = true) :
    m.Confined 0 (byteAccess 1 0 none) := by
  intro w _ hown
  have hpos : 0 < m.nextTable := Vm.frame_lt (h.frame 0 (by decide))
  have hlru : m.findFreeByLRU = some 1 := by
    apply Vm.findFreeByLRU_eq (h.inv.full hpos) (by decide)
    · intro q hq
      obtain rfl : q = 0 := by omega
      rw [h.stamp 0 (by decide), h.stamp 1 (by decide)]
      rfl
    · intro q hq
      rw [h.stamp q hq, h.stamp 1 (by decide)]
      split <;> rfl
  have hvic : m.victim = 1 := by rw [Vm.victim, hlru, Option.getD_some]
  have hframe := (h.inv.agree (0, w) m.victim).mpr hown
  have hw : w < numPhysPages := (h.inv.owner_cases hown).2.2.1
  rw [h.frame w hw, hvic] at hframe
  cases Option.some.inj hframe
  have hclean := h.clean 1 (Nat.le_refl 1) (by decide)
  refine ⟨?_, fun hd => absurd (hd.symm.trans hclean) (by decide)⟩
  intro _ i hi
  have hb := Vm.backing_newSpace (m := Vm.loadedOnce files fileName f (Vm.headerOf f noffH)) hf
    (Vm.headerOf f noffH) (fun _ => -1) i
  have hzero : (0 : Word).toNat / pageSize * pageSize + i = i := by simp
  show (m.backing 1 ((0 : Word).toNat / pageSize * pageSize + i)).isSome = true
  rw [hzero]
  have hsame : m.backing 1 i = (Vm.loadedTwice files fileName f (Vm.headerOf f noffH)).backing
      1 i := by
    unfold Vm.backing Vm.diskFile Vm.fileAddrOf
    rw [h.files, h.second, h.spaces]
  rw [hsame]
  exact (congrArg Option.isSome hb).trans (hbacked i hi)

/-- The first space writes 1 or 2; the second one reads its code. -/
theorem isolation_code :
    ∃ s, (twoRuns (Vm.loadedTwice onePageDisk "a" onePage (Vm.headerOf onePage fun _ => 0))
        0).Reachable s ∧ s.1.mainMemory 0 = 1 ∧ s.2.mainMemory 0 = 2 ∧
      (s.1.perform (byteAccess 1 0 none)).map Prod.snd =
        (s.2.perform (byteAccess 1 0 none)).map Prod.snd := by
  have hf : onePageDisk "a" = some onePage := rfl
  have hpages : 0 < (Vm.headerOf onePage fun _ => 0).numPages := by
    rw [headerOf_onePage]
    decide
  obtain ⟨m₀, hm₀⟩ : ∃ m, m = Vm.loadedTwice onePageDisk "a" onePage
      (Vm.headerOf onePage fun _ => 0) := ⟨_, rfl⟩
  have hr : (vmSystem onePageDisk).Reachable m₀ :=
    hm₀ ▸ Vm.reachable_loadedTwice hf loadable_onePage
  have h₀ := Swept.loadedTwice hf loadable_onePage
  have hsp : m₀.spaces 0 = some ((Vm.headerOf onePage fun _ => 0).space 0) := by
    rw [hm₀]
    rfl
  rw [← hm₀] at h₀ ⊢
  obtain ⟨m₁, o₁, hp₁, h₁⟩ := h₀.write hsp hpages 1
  obtain ⟨m₂, o₂, hp₂, h₂⟩ := h₀.write hsp hpages 2
  have hsame : SameAccess 0 (byteAccess 0 0 (some 1)) (byteAccess 0 0 (some 2)) :=
    ⟨rfl, rfl, rfl, rfl, fun hA => absurd rfl hA⟩
  have hconf₀ : m₀.Confined 0 (byteAccess 0 0 (some 1)) := by
    intro w hun
    have hmap := h₀.frame 0 (by decide)
    rw [show ((byteAccess 0 0 (some 1)).space, (byteAccess 0 0 (some 1)).addr.toNat / pageSize) =
      (0, 0) from rfl, hmap] at hun
    contradiction
  have hs : ((twoRuns m₀ 0).restrict fun s e => s.1.Confined 0 e.1).Reachable (m₁, m₂) :=
    .step (l := (byteAccess 0 0 (some 1), byteAccess 0 0 (some 2))) (.init rfl)
      ⟨hconf₀, hsame, ⟨o₁, hp₁⟩, o₂, hp₂⟩
  have hconf : m₁.Confined 0 (byteAccess 1 0 none) := by
    rw [hm₀] at h₁
    exact h₁.confined hf backed_onePage
  have hsame₁ : SameAccess 0 (byteAccess 1 0 none) (byteAccess 1 0 none) :=
    ⟨rfl, rfl, rfl, rfl, fun _ => rfl⟩
  exact ⟨(m₁, m₂), hs.of_restrict, h₁.memory, h₂.memory,
    (isolation hr hs hsame₁ hconf).2 Nat.one_ne_zero⟩

def bssFile : HostFile := noffFile [0xbadfad, 0, 0, 0, 0, 0, 0, 0, 0, 0, 0, 0, 15360] 52 0

def bssHeader : NoffHeader :=
  { noffMagic := noffMagicNumber, code := ⟨0, 0, 0⟩, initData := ⟨0, 0, 0⟩,
    readonlyData := ⟨0, 0, 0⟩, uninitData := ⟨0, 0, 15360⟩ }

private theorem headerOf_bssFile : Vm.headerOf bssFile (fun _ => 0) = bssHeader := by
  rfl

private theorem loadable_bssFile : (Vm.headerOf bssFile fun _ => 0).Loadable := by
  rw [headerOf_bssFile]
  constructor <;> decide

def bssDisk : FileName → Option HostFile := fun _ => some bssFile

/-- The state after `main` loaded the program twice. -/
def bssStart : Vm := Vm.loadedTwice bssDisk "a" bssFile (Vm.headerOf bssFile fun _ => 0)

def bssSpace (t : Nat) : AddrSpace := (Vm.headerOf bssFile fun _ => 0).space t

private theorem numPages_bssSpace (t : Nat) : (bssSpace t).numPages = numPhysPages := by
  rw [bssSpace, headerOf_bssFile]
  rfl

private theorem reachable_sweep (n : Nat) (hn : n < numPhysPages) :
    ∃ s, (twoRuns bssStart 0).Reachable s ∧ Swept bssStart 1 (n + 1) s.1 ∧
      Swept bssStart 2 (n + 1) s.2 := by
  have hsp : bssStart.spaces 0 = some (bssSpace 0) := rfl
  induction n with
  | zero =>
    have hpages : 0 < (bssSpace 0).numPages := by
      rw [numPages_bssSpace]
      decide
    have hf : bssDisk "a" = some bssFile := rfl
    have h₀ := Swept.loadedTwice hf loadable_bssFile
    obtain ⟨m₁, o₁, hp₁, h₁⟩ := h₀.write hsp hpages 1
    obtain ⟨m₂, o₂, hp₂, h₂⟩ := h₀.write hsp hpages 2
    have hsame : SameAccess 0 (byteAccess 0 0 (some 1)) (byteAccess 0 0 (some 2)) :=
      ⟨rfl, rfl, rfl, rfl, fun hA => absurd rfl hA⟩
    have hr₀ : (twoRuns bssStart 0).Reachable (bssStart, bssStart) := .init rfl
    exact ⟨(m₁, m₂), twoRuns_next hr₀ hsame hp₁ hp₂, h₁, h₂⟩
  | succ n ih =>
    obtain ⟨s, hr, h₁, h₂⟩ := ih (by omega)
    have hpages : n + 1 < (bssSpace 0).numPages := by
      rw [numPages_bssSpace]
      exact hn
    have haddr : (BitVec.ofNat 32 ((n + 1) * pageSize)).toNat = (n + 1) * pageSize := by
      rw [BitVec.toNat_ofNat, Nat.mod_eq_of_lt]
      simp only [numPhysPages, pageSize] at *
      omega
    obtain ⟨m₁, o₁, hp₁, h₁'⟩ := h₁.read hsp hpages haddr
    obtain ⟨m₂, o₂, hp₂, h₂'⟩ := h₂.read hsp hpages haddr
    have hsame : ∀ e, SameAccess 0 e e := fun e => ⟨rfl, rfl, rfl, rfl, fun _ => rfl⟩
    exact ⟨(m₁, m₂), twoRuns_next hr (hsame _) hp₁ hp₂, h₁', h₂'⟩

/-- The second space reads at address 0 what the first one wrote there. -/
theorem isolation_leak :
    (vmSystem bssDisk).Reachable bssStart ∧ (bssStart.spaces 0).isSome = true ∧
      (bssStart.spaces 1).isSome = true ∧
      ∃ s, (twoRuns bssStart 0).Reachable s ∧
        (s.1.perform (byteAccess 1 0 none)).map Prod.snd = some (some 1) ∧
        (s.2.perform (byteAccess 1 0 none)).map Prod.snd = some (some 2) := by
  have hsp : bssStart.spaces 1 = some (bssSpace 1) := rfl
  have hpages : 0 < (bssSpace 1).numPages := by
    rw [numPages_bssSpace]
    decide
  have hun : (bssStart.tables 1 0).physicalPage = -1 := rfl
  have hseg : ∀ i, reloadOffset (bssSpace 1).fileAddr i = none := by
    intro i
    have hno : ¬ ((0 : Int) ≤ i ∧ i < 0 + 0) := by omega
    have haddr : (bssSpace 1).fileAddr = bssHeader.fileAddr := by
      rw [bssSpace, headerOf_bssFile]
      rfl
    rw [haddr, reloadOffset]
    exact (if_neg hno).trans ((if_neg hno).trans (if_neg hno))
  obtain ⟨s, hr, h₁, h₂⟩ := reachable_sweep 127 (by decide)
  exact ⟨Vm.reachable_loadedTwice rfl loadable_bssFile, rfl, rfl, s, hr,
    h₁.leak hsp hpages hun hseg, h₂.leak hsp hpages hun hseg⟩

end Nachos

import Nachos.Userprog.Translators
import Nachos.Userprog.Transparency
import Mathlib.Algebra.Group.Nat.Defs

/-!
# Where the segments lie

`Load` takes the number of pages from the sizes of the segments alone. The addresses of the
segments, which the linker aligns, are not looked at, so a segment may reach into the stack or
out of the address space.
-/

namespace Nachos

open Framework

namespace NoffHeader

variable {h : NoffHeader}

/-- The two ASSERTs of `Load`. -/
def Accepted (h : NoffHeader) : Prop :=
  h.noffMagic = noffMagicNumber ∧ h.numPages ≤ numPhysPages

instance (h : NoffHeader) : Decidable h.Accepted := inferInstanceAs (Decidable (_ ∧ _))

/-- The lowest address of the stack, which ends where the address space ends. -/
def stackBase (h : NoffHeader) : Int := h.numPages * pageSize - userStackSize

/-- What a program relies on when it runs in the address space that `Load` has made for it. -/
structure SafelyLaidOut (h : NoffHeader) : Prop where
  inside : ∀ s ∈ h.segments, ∀ x, s.Has x → 0 ≤ x ∧ x < h.stackBase
  indices : ∀ s ∈ [h.code, h.initData, h.readonlyData], ∀ i < s.size.toNat,
    (arrayIndex numPhysPages ((s.virtualAddr + i).tdiv pageSize)).isSome = true
  translatable : ∀ files m t, (vmSystem files).Reachable m → m.pageTable = some t →
    m.pageTableSize = h.numPages → ∀ s ∈ h.segments, ∀ x, s.Has x → ∀ writing,
    ∃ m' r, m.translate (.ofInt 32 x) 1 writing = some (m', r) ∧
      (r = .error .pageFault ∨ ∃ physAddr, r = .ok physAddr)
  stack : ∀ s ∈ h.segments, ∀ x, s.Has x →
    ¬ (h.stackBase ≤ x ∧ x < h.stackBase + userStackSize)

/-- The `int` sum of the sizes in the header. -/
def sizes (h : NoffHeader) : Int :=
  (h.code.size + h.initData.size + h.readonlyData.size + h.uninitData.size).bmod (2 ^ 32)

/-- A segment with bytes lies in the pages that its size and those of the others fill. -/
def Packed (h : NoffHeader) : Prop :=
  ∀ s ∈ h.segments, 0 < s.size →
    0 ≤ s.virtualAddr ∧ s.virtualAddr + s.size ≤ (h.sizes + (pageSize - 1 : Nat)) / pageSize * pageSize

instance (h : NoffHeader) : Decidable h.Packed := inferInstanceAs (Decidable (∀ _ ∈ _, _))

private theorem spaceSize_eq (h : NoffHeader) :
    (h.spaceSize : Int) = (h.sizes + userStackSize) % 2 ^ 32 := by
  unfold spaceSize sizes
  rw [Int.toNat_of_nonneg (Int.emod_nonneg _ (by decide)), Int.bmod_eq_emod]
  simp only [userStackSize]
  split <;> omega

private theorem stackBase_eq (hacc : h.numPages ≤ numPhysPages) :
    h.stackBase = (h.sizes + (pageSize - 1 : Nat)) / pageSize * pageSize := by
  have hsize := h.spaceSize_eq
  have hlow : -(2 ^ 31) ≤ h.sizes := Int.le_bmod (by decide)
  have hhigh : h.sizes < 2 ^ 31 := Int.bmod_lt (by decide)
  have hceil : h.numPages = (h.spaceSize + 127) / 128 := by
    unfold numPages
    simp only [pageSize]
    split <;> omega
  unfold stackBase
  simp only [numPhysPages, pageSize, userStackSize] at *
  omega

private theorem packed_iff (hacc : h.numPages ≤ numPhysPages) :
    h.Packed ↔ ∀ s ∈ h.segments, ∀ x, s.Has x → 0 ≤ x ∧ x < h.stackBase := by
  rw [stackBase_eq hacc]
  constructor
  · intro hpacked s hs x hx
    obtain ⟨hle, hlt⟩ : s.virtualAddr ≤ x ∧ x < s.virtualAddr + s.size := hx
    obtain ⟨hfirst, hlast⟩ := hpacked s hs (by omega)
    omega
  · intro hinside s hs hpos
    have hfirst := hinside s hs s.virtualAddr ⟨Int.le_refl _, by omega⟩
    have hlast := hinside s hs (s.virtualAddr + s.size - 1) ⟨by omega, by omega⟩
    omega

private theorem stackBase_le (hacc : h.numPages ≤ numPhysPages) : h.stackBase ≤ memorySize := by
  unfold stackBase
  simp only [memorySize, numPhysPages, pageSize, userStackSize] at *
  omega

end NoffHeader

private theorem Vm.translate_below {files : FileName → Option HostFile} {m : Vm} {t x : Nat}
    (hr : (vmSystem files).Reachable m) (hpt : m.pageTable = some t)
    (hx : x < m.pageTableSize * pageSize) (hword : x < 2 ^ 32) (writing : Bool) :
    ∃ m' r, m.translate (.ofInt 32 x) 1 writing = some (m', r) ∧
      (r = .error .pageFault ∨ ∃ physAddr, r = .ok physAddr) := by
  have h := (Vm.inv_inductive files).of_reachable hr
  have haddr : (BitVec.ofInt 32 x).toNat = x := by
    rw [BitVec.toNat_ofInt]
    omega
  have hsize : (BitVec.ofInt 32 x).toNat / pageSize < m.pageTableSize := by
    rw [haddr]
    exact Nat.div_lt_of_lt_mul (by rw [Nat.mul_comm]; exact hx)
  have hv := h.vpn_lt hpt hsize
  have hal := Vm.Aligned.byte (.ofInt 32 x)
  cases hframe : m.frame (t, (BitVec.ofInt 32 x).toNat / pageSize) with
  | none =>
    have hun := Vm.unmapped_of_frame (h.current_lt hpt) hv hframe
    exact ⟨_, _, Vm.translate_unmapped hpt hsize hal hun, .inl rfl⟩
  | some phy =>
    have hentry := h.entry t (h.current_lt hpt) _ hv
    exact ⟨_, _, Vm.translate_mapped hpt hsize hal (.inl rfl) (h.mapped hframe) hentry.writable,
      .inr ⟨_, rfl⟩⟩

/-- What `Load` accepts is laid out safely exactly when the segments leave no gap that takes one
of them beyond the pages counted for their sizes. -/
theorem safelyLaidOut_iff_packed (f : HostFile) (noffH : Nat → Byte)
    (hacc : (Vm.headerOf f noffH).Accepted) :
    (Vm.headerOf f noffH).SafelyLaidOut ↔ (Vm.headerOf f noffH).Packed := by
  generalize Vm.headerOf f noffH = h at hacc ⊢
  have hpages := hacc.2
  rw [NoffHeader.packed_iff hpages]
  have hmemory := NoffHeader.stackBase_le hpages
  constructor
  · exact NoffHeader.SafelyLaidOut.inside
  · intro hinside
    constructor
    case inside => exact hinside
    case indices =>
      intro s hs i hi
      have hmem : s ∈ h.segments := by
        simp only [NoffHeader.segments, List.mem_cons, List.not_mem_nil, or_false] at hs ⊢
        tauto
      obtain ⟨hnonneg, hlt⟩ := hinside s hmem (s.virtualAddr + i) ⟨by omega, by omega⟩
      obtain ⟨x, hx⟩ := Int.eq_ofNat_of_zero_le hnonneg
      rw [hx, Option.isSome_iff_exists]
      refine ⟨x / pageSize, Vm.arrayIndex_eq_some.mpr ⟨(Int.ofNat_tdiv x pageSize).symm, ?_⟩⟩
      apply Nat.div_lt_of_lt_mul
      simp only [memorySize, numPhysPages, pageSize] at *
      omega
    case translatable =>
      intro files m t hr hpt hsize s hs x hx writing
      obtain ⟨hnonneg, hlt⟩ := hinside s hs x hx
      obtain ⟨a, rfl⟩ := Int.eq_ofNat_of_zero_le hnonneg
      apply Vm.translate_below hr hpt
      · rw [hsize]
        simp only [NoffHeader.stackBase, userStackSize] at hlt
        omega
      · simp only [memorySize, numPhysPages, pageSize] at *
        omega
    case stack =>
      intro s hs x hx hstack
      have := (hinside s hs x hx).2
      omega

/-- 100 bytes of code at 0, 16 bytes of data behind a gap of four bytes, and 8 bytes of
uninitialized data behind those. -/
def gapped : HostFile := noffFile [0xbadfad, 0, 52, 100, 104, 152, 16, 0, 0, 0, 120, 0, 8] 168 0x5a

def gappedHeader : NoffHeader :=
  { noffMagic := noffMagicNumber, code := ⟨0, 52, 100⟩, initData := ⟨104, 152, 16⟩,
    readonlyData := ⟨0, 0, 0⟩, uninitData := ⟨120, 0, 8⟩ }

private theorem headerOf_gapped : Vm.headerOf gapped (fun _ => 0) = gappedHeader := by
  rfl

/-- The gap is made up for by the bytes that fill the last page. -/
theorem safelyLaidOut_gapped : (Vm.headerOf gapped fun _ => 0).SafelyLaidOut := by
  have hpacked : (Vm.headerOf gapped fun _ => 0).Packed := by
    rw [headerOf_gapped]
    decide
  apply (safelyLaidOut_iff_packed gapped (fun _ => 0) _).mpr hpacked
  rw [headerOf_gapped]
  decide

/-- 144 bytes of code at 0 and 16 bytes of data at the next multiple of 128. -/
def aligned : HostFile := noffFile [0xbadfad, 0, 52, 144, 256, 196, 16] 212 0x5a

def alignedHeader : NoffHeader :=
  { noffMagic := noffMagicNumber, code := ⟨0, 52, 144⟩, initData := ⟨256, 196, 16⟩,
    readonlyData := ⟨0, 0, 0⟩, uninitData := ⟨0, 0, 0⟩ }

private theorem headerOf_aligned : Vm.headerOf aligned (fun _ => 0) = alignedHeader := by
  rfl

/-- It is accepted, and its data lie in the stack. -/
theorem not_safelyLaidOut_aligned :
    (Vm.headerOf aligned fun _ => 0).Accepted ∧
    (Vm.headerOf aligned fun _ => 0).initData.Has 256 ∧
    (Vm.headerOf aligned fun _ => 0).stackBase = 256 ∧
    ¬ (Vm.headerOf aligned fun _ => 0).SafelyLaidOut := by
  rw [headerOf_aligned]
  have hhas : alignedHeader.initData.Has 256 := ⟨by decide, by decide⟩
  have hbase : alignedHeader.stackBase = 256 := by decide
  refine ⟨by decide, hhas, hbase, ?_⟩
  intro hsafe
  have hinside := (hsafe.inside _ (by simp [NoffHeader.segments]) 256 hhas).2
  rw [hbase] at hinside
  omega

end Nachos

import Nachos.Userprog.Ownership

/-!
# The files behind the pages

Where the handler would read a byte of an address space, and how the write-back of an evicted
page changes that. A dirty page is written at its virtual address but read at the position its
segment has in the executable.
-/

namespace Nachos

namespace HostFile

variable (f : HostFile) (memory : Nat → Byte) (start numBytes position : Nat)

theorem size_written :
    (f.written memory start numBytes position).size = max f.size (position + numBytes) := rfl

theorem byte?_written {i : Nat} (hi : i < numBytes) :
    (f.written memory start numBytes position).byte? (position + i : Nat) =
      some (memory (start + i)) := by
  have hin : (0 : Int) ≤ (position + i : Nat) ∧
      ((position + i : Nat) : Int) < (max f.size (position + numBytes) : Nat) := by omega
  have hpos : position ≤ position + i ∧ position + i < position + numBytes := by omega
  have hsub : position + i - position = i := by omega
  unfold byte? written
  rw [if_pos hin]
  simp only [Int.toNat_natCast, hpos, and_self, if_true, hsub]

private theorem byte?_written_outside {p : Int}
    (hp : ¬ (p < (position + numBytes : Nat) ∧ (position ≤ p ∨ f.size ≤ p))) :
    (f.written memory start numBytes position).byte? p = f.byte? p := by
  have hiff : (0 ≤ p ∧ p < (max f.size (position + numBytes) : Nat)) ↔
      (0 ≤ p ∧ p < (f.size : Int)) := by omega
  unfold byte? written
  simp only [hiff]
  split
  next hin =>
    have h₁ : ¬ (position ≤ p.toNat ∧ p.toNat < position + numBytes) := by omega
    have h₂ : p.toNat < f.size := by omega
    simp only [h₁, h₂, if_false, if_true]
  next => rfl

private theorem byte?_written_isSome {p : Int} (hp : (f.byte? p).isSome = true) :
    ((f.written memory start numBytes position).byte? p).isSome = true := by
  have hin : 0 ≤ p ∧ p < (f.size : Int) := by
    by_contra hout
    rw [byte?, if_neg hout] at hp
    contradiction
  have hin' : 0 ≤ p ∧ p < (max f.size (position + numBytes) : Nat) := by omega
  rw [byte?, written, if_pos hin']
  rfl

private theorem byte?_written_gap {p : Int} (hsize : f.size ≤ p) (hp : p < position) :
    (f.written memory start numBytes position).byte? p = some 0 := by
  have hin : 0 ≤ p ∧ p < (max f.size (position + numBytes) : Nat) := by omega
  have h₁ : ¬ (position ≤ p.toNat ∧ p.toNat < position + numBytes) := by omega
  have h₂ : ¬ p.toNat < f.size := by omega
  unfold byte? written
  rw [if_pos hin]
  simp only [h₁, h₂, if_false]

theorem byte?_written_congr {f g : HostFile} {memory memory' : Nat → Byte}
    {start numBytes : Nat} (position : Nat) {p : Int} (hsize : g.size = f.size)
    (hbyte : g.byte? p = f.byte? p)
    (hmem : ∀ i < numBytes, memory' (start + i) = memory (start + i)) :
    (g.written memory' start numBytes position).byte? p =
      (f.written memory start numBytes position).byte? p := by
  by_cases hin : (position : Int) ≤ p ∧ p < (position + numBytes : Nat)
  · obtain ⟨i, rfl⟩ : ∃ i : Nat, p = (position + i : Nat) := ⟨p.toNat - position, by omega⟩
    have hi : i < numBytes := by omega
    rw [byte?_written _ _ _ _ _ hi, byte?_written _ _ _ _ _ hi, hmem i hi]
  · by_cases hgap : (f.size : Int) ≤ p ∧ p < position
    · rw [byte?_written_gap _ _ _ _ _ (hsize ▸ hgap.1) hgap.2,
        byte?_written_gap _ _ _ _ _ hgap.1 hgap.2]
    · rw [byte?_written_outside _ _ _ _ _ (by rw [hsize]; omega),
        byte?_written_outside _ _ _ _ _ (by omega), hbyte]

end HostFile

namespace Vm

def fileAddrOf (m : Vm) (t : Nat) : Nat → Int :=
  ((m.spaces t).map AddrSpace.fileAddr).getD fun _ => 0

/-- The byte the handler would read for an address of a space. -/
def backing (m : Vm) (t x : Nat) : Option Byte :=
  (m.files (m.diskFile t)).bind fun f => fileByte f (m.fileAddrOf t) x

/-- Writing page `w` of `ref` back changes the file at this position. -/
def Rewrites (m : Vm) (ref w : Nat) (position : Int) : Prop :=
  position < (w * pageSize + pageSize : Nat) ∧
    ((w * pageSize : Nat) ≤ position ∨
      ∃ f, m.files (m.diskFile ref) = some f ∧ f.size ≤ position)

variable {m : Vm}

theorem Inv.fileAddr_current (h : m.Inv) {t : Nat} (hpt : m.pageTable = some t) :
    m.fileAddr = m.fileAddrOf t := by
  obtain ⟨s, hs, -, hfa⟩ := h.current t hpt
  simp [fileAddrOf, hs, hfa]

theorem position_nonneg {t x : Nat} {p : Int} (hb : (m.backing t x).isSome = true)
    (hp : reloadOffset (m.fileAddrOf t) x = some p) : 0 ≤ p := by
  unfold backing at hb
  cases hf : m.files (m.diskFile t) with
  | none => simp [hf] at hb
  | some f =>
    rw [hf, Option.bind_some, fileByte, hp, Option.bind_some, HostFile.byte?] at hb
    by_contra hneg
    rw [if_neg fun hin => hneg hin.1] at hb
    contradiction

/-- The file behind an address space after the eviction of page `w` of `ref`. -/
def backingAfter (m : Vm) (ref w t x : Nat) : Option Byte :=
  (m.writeBack ref w (m.diskFile t)).bind fun f => fileByte f (m.fileAddrOf t) x

private theorem fileByte_isSome_written {f : HostFile} {fileAddr : Nat → Int} {x : Nat}
    (memory : Nat → Byte) (start numBytes position : Nat)
    (h : (fileByte f fileAddr x).isSome = true) :
    (fileByte (f.written memory start numBytes position) fileAddr x).isSome = true := by
  unfold fileByte at h ⊢
  cases hoff : reloadOffset fileAddr x with
  | none => simp [hoff] at h
  | some p =>
    rw [hoff, Option.bind_some] at h
    exact f.byte?_written_isSome memory start numBytes position h

theorem backingAfter_isSome (ref w : Nat) {t x : Nat} (h : (m.backing t x).isSome = true) :
    (m.backingAfter ref w t x).isSome = true := by
  unfold backing at h
  unfold backingAfter writeBack
  split
  next =>
    by_cases hfile : m.diskFile t = m.diskFile ref
    · rw [hfile] at h ⊢
      rw [Function.update_self]
      cases hf : m.files (m.diskFile ref) with
      | none => simp [hf] at h
      | some f =>
        rw [hf, Option.bind_some] at h
        exact fileByte_isSome_written _ _ _ _ h
    · rw [Function.update_of_ne hfile]
      exact h
  next => exact h

theorem backingAfter_eq {ref w t x : Nat}
    (h : (m.tables ref w).dirty = true → m.diskFile t = m.diskFile ref →
      ∀ p, reloadOffset (m.fileAddrOf t) x = some p → ¬ m.Rewrites ref w p) :
    m.backingAfter ref w t x = m.backing t x := by
  unfold backingAfter backing writeBack
  split
  next hd =>
    by_cases hfile : m.diskFile t = m.diskFile ref
    · have hapart := h hd hfile
      rw [hfile, Function.update_self]
      cases hf : m.files (m.diskFile ref) with
      | none => rfl
      | some f =>
        show fileByte _ _ _ = fileByte _ _ _
        unfold fileByte
        cases hoff : reloadOffset (m.fileAddrOf t) x with
        | none => rfl
        | some p =>
          show HostFile.byte? _ p = f.byte? p
          apply f.byte?_written_outside
          rintro ⟨hlt, hle | hle⟩
          · exact hapart p hoff ⟨hlt, .inl hle⟩
          · exact hapart p hoff ⟨hlt, .inr ⟨f, hf, hle⟩⟩
    · rw [Function.update_of_ne hfile]
  next => rfl

theorem backing_afterFault (addr : Word) (t ref w : Nat) (input : HostFile) (t' x : Nat) :
    (m.afterFault addr t ref w input).backing t' x = m.backingAfter ref w t' x := by
  have hdisk : (m.afterFault addr t ref w input).diskFile t' = m.diskFile t' :=
    (replace_diskFile t _ ref w _ t' 0).1
  unfold backing
  rw [hdisk]
  rfl

theorem touch_diskFile (t v phy : Nat) (writing : Bool) (t' : Nat) :
    (m.touch t v phy writing).diskFile t' = m.diskFile t' := by
  unfold diskFile
  rw [touch_tables]
  split
  next heq => simp [heq.1, heq.2]
  next => rfl

theorem backing_newSpace {f : HostFile} {fileName : FileName} (hf : m.files fileName = some f)
    (h : NoffHeader) (phy : Nat → Int) (x : Nat) :
    (m.newSpace fileName h phy).backing m.nextTable x = fileByte f h.fileAddr x := by
  have hdisk : (m.newSpace fileName h phy).diskFile m.nextTable = fileName := by
    unfold diskFile
    rw [newSpace_tables _ _ _ (by decide)]
    rfl
  have haddr : (m.newSpace fileName h phy).fileAddrOf m.nextTable = h.fileAddr := by
    simp [fileAddrOf, newSpace]
  have hfiles : (m.newSpace fileName h phy).files = m.files := rfl
  rw [backing, hdisk, haddr, hfiles, hf, Option.bind_some]

theorem backing_newSpace_of_ne (fileName : FileName) (h : NoffHeader) (phy : Nat → Int)
    {t : Nat} (ht : t ≠ m.nextTable) (x : Nat) :
    (m.newSpace fileName h phy).backing t x = m.backing t x := by
  have hdisk : (m.newSpace fileName h phy).diskFile t = m.diskFile t := by
    unfold diskFile
    rw [newSpace_tables_of_ne _ _ _ ht]
  have haddr : (m.newSpace fileName h phy).fileAddrOf t = m.fileAddrOf t := by
    simp [fileAddrOf, newSpace, ht]
  have hfiles : (m.newSpace fileName h phy).files = m.files := rfl
  rw [backing, hdisk, haddr, hfiles]
  rfl

theorem frame_lt {t v p : Nat} (h : m.frame (t, v) = some p) : t < m.nextTable := by
  unfold frame at h
  split at h
  next hc => exact hc.1
  next => contradiction

end Vm

end Nachos

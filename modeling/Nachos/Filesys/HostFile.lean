import Mathlib.Tactic.Common

/-!
# Host files

The stub file system of the default build hands every request to UNIX. A file is its length
and its bytes. Seeking to a negative position fails the ASSERT of `Lseek`.
-/

namespace Nachos

abbrev Byte := BitVec 8

abbrev FileName := String

structure HostFile where
  size : Nat
  data : Nat → Byte

namespace HostFile

/-- `OpenFile::ReadAt` into the buffer that starts at address `into` of a memory. Bytes of the
buffer past the end of the file are left as they are. -/
def readAt (f : HostFile) (memory : Nat → Byte) (into numBytes : Nat) (position : Int) :
    Option (Nat → Byte) :=
  if position < 0 then none
  else some fun a =>
    if into ≤ a ∧ a < into + numBytes ∧ position.toNat + (a - into) < f.size then
      f.data (position.toNat + (a - into))
    else memory a

/-- `OpenFile::WriteAt` of the bytes that start at address `start` of a memory. A gap past the
old end of the file reads as zeros. -/
def writeAt (f : HostFile) (memory : Nat → Byte) (start numBytes : Nat) (position : Int) :
    Option HostFile :=
  if position < 0 then none
  else some
    { size := max f.size (position.toNat + numBytes),
      data := fun i =>
        if position.toNat ≤ i ∧ i < position.toNat + numBytes then
          memory (start + (i - position.toNat))
        else if i < f.size then f.data i else 0 }

def byte? (f : HostFile) (position : Int) : Option Byte :=
  if 0 ≤ position ∧ position < f.size then some (f.data position.toNat) else none

theorem readAt_one {f : HostFile} {memory : Nat → Byte} {into : Nat} {position : Int}
    (h : 0 ≤ position) : f.readAt memory into 1 position =
      some (Function.update memory into ((f.byte? position).getD (memory into))) := by
  have hneg : ¬ position < 0 := by omega
  simp only [readAt, hneg, if_false, Option.some.injEq]
  funext a
  by_cases ha : a = into
  · subst ha
    by_cases hs : position < f.size
    · have hs' : position.toNat < f.size := by omega
      simp [byte?, h, hs, hs']
    · have hs' : ¬ position.toNat < f.size := by omega
      simp [byte?, hs, hs']
  · have hout : ¬ (into ≤ a ∧ a < into + 1 ∧ position.toNat + (a - into) < f.size) := by omega
    rw [if_neg hout, Function.update_of_ne ha]

end HostFile

end Nachos

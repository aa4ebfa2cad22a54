import Nachos.Filesys.HostFile
import Nachos.Framework.Run
import Nachos.Framework.Matching

/-!
# The simulated machine

Registers, main memory, the page tables of the address spaces and the global page table that
records the owner of every frame. Page tables are reached through pointers, here numbers given
out by the allocator in order. The machine is built without a TLB.
-/

namespace Nachos

abbrev Word := BitVec 32

abbrev pageSize : Nat := 128

abbrev numPhysPages : Nat := 128

abbrev memorySize : Nat := numPhysPages * pageSize

abbrev hiReg : Nat := 32

abbrev loReg : Nat := 33

abbrev pcReg : Nat := 34

abbrev nextPCReg : Nat := 35

abbrev prevPCReg : Nat := 36

abbrev loadReg : Nat := 37

abbrev loadValueReg : Nat := 38

abbrev badVAddrReg : Nat := 39

structure TranslationEntry where
  virtualPage : Int
  physicalPage : Int
  valid : Bool
  readOnly : Bool
  use : Bool
  dirty : Bool
  diskFile : FileName

structure GlobalEntry where
  virNum : Int
  useStamp : Word
  refPageTable : Option Nat

/-- An address space after `Load`. `fileAddr` is the array of nine numbers that describes the
code, initialized-data and read-only segments. -/
structure AddrSpace where
  pageTable : Nat
  numPages : Nat
  fileAddr : Nat → Int

/-- The machine with the address spaces and the files it works on. -/
structure Vm where
  registers : Nat → Word
  mainMemory : Nat → Byte
  globalPageTable : Nat → GlobalEntry
  pageTable : Option Nat
  pageTableSize : Nat
  fileAddr : Nat → Int
  tables : Nat → Nat → TranslationEntry
  spaces : Nat → Option AddrSpace
  nextTable : Nat
  files : FileName → Option HostFile

inductive ExceptionType
  | syscall
  | pageFault
  | readOnly
  | busError
  | addressError
  | overflow
  | illegalInstr
  deriving DecidableEq

namespace Vm

/-- `Machine::Machine`. -/
def new (files : FileName → Option HostFile) : Vm :=
  { registers := fun _ => 0, mainMemory := fun _ => 0,
    globalPageTable := fun _ => { virNum := -1, useStamp := 0, refPageTable := none },
    pageTable := none, pageTableSize := 0, fileAddr := fun _ => 0,
    tables := fun _ _ =>
      { virtualPage := 0, physicalPage := 0, valid := false, readOnly := false, use := false,
        dirty := false, diskFile := "" },
    spaces := fun _ => none, nextTable := 0, files := files }

def setEntry (m : Vm) (t : Nat) (v : Nat) (entry : TranslationEntry) : Vm :=
  { m with tables := Function.update m.tables t (Function.update (m.tables t) v entry) }

/-- `Machine::findFreeFrame`. -/
def findFreeFrame (m : Vm) (virAddr : Int) (ref : Nat) : Int × Vm :=
  match (List.range numPhysPages).find? fun i =>
      (m.globalPageTable i).refPageTable.isNone with
  | none => (-1, m)
  | some i =>
    (i, { m with globalPageTable := Function.update m.globalPageTable i
                   { virNum := virAddr, useStamp := 0, refPageTable := some ref } })

/-- `Machine::findFreeByLRU`. The stamps are 32-bit signed numbers. -/
def findFreeByLRU (m : Vm) : Option Nat :=
  (List.range numPhysPages).foldlM
    (fun mi i =>
      if (m.globalPageTable i).refPageTable.isNone then none
      else if (m.globalPageTable i).useStamp.slt (m.globalPageTable mi).useStamp then some i
      else some mi) 0

/-- `Machine::DelayedLoad`. -/
def delayedLoad (registers : Nat → Word) (nextReg nextValue : Word) : Nat → Word :=
  let r := Function.update registers (registers loadReg).toNat (registers loadValueReg)
  Function.update (Function.update (Function.update r loadReg nextReg) loadValueReg nextValue) 0 0

/-- The successful end of `Translate`: the use and dirty bits and the stamp of the frame. -/
def touch (m : Vm) (t : Nat) (v frame : Nat) (writing : Bool) : Vm :=
  let entry := m.tables t v
  { m.setEntry t v { entry with use := true, dirty := entry.dirty || writing } with
    globalPageTable := Function.update m.globalPageTable frame
      { m.globalPageTable frame with
        useStamp := (m.globalPageTable frame).useStamp + 1 } }

/-- `Machine::Translate` with a page table. `none` is a failed ASSERT. -/
def translate (m : Vm) (virtAddr : Word) (size : Nat) (writing : Bool) :
    Option (Vm × Except ExceptionType Nat) :=
  if (size = 4 ∧ virtAddr.toNat % 4 ≠ 0) ∨ (size = 2 ∧ virtAddr.toNat % 2 ≠ 0) then
    some (m, .error .addressError)
  else
    match m.pageTable with
    | none => none
    | some t =>
      let vpn := virtAddr.toNat / pageSize
      let offset := virtAddr.toNat % pageSize
      if m.pageTableSize ≤ vpn then some (m, .error .addressError)
      else
        let entry := m.tables t vpn
        if entry.valid = false ∨ entry.physicalPage = -1 then some (m, .error .pageFault)
        else if entry.readOnly = true ∧ writing = true then some (m, .error .readOnly)
        else if entry.physicalPage < 0 ∨ numPhysPages ≤ entry.physicalPage then
          some (m, .error .busError)
        else
          let physAddr := entry.physicalPage.toNat * pageSize + offset
          if physAddr + size ≤ memorySize then
            some (m.touch t vpn entry.physicalPage.toNat writing, .ok physAddr)
          else none

end Vm

end Nachos

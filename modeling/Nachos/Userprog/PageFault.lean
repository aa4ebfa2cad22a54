import Nachos.Userprog.AddrSpace

/-!
# Page faults and memory accesses

The page-fault branch of `ExceptionHandler`, the two routines that run into it, and the system
made of loads, context switches and accesses. The handler's local variable `vir` is assigned on
the eviction path only; on the other path its value is a parameter.
-/

namespace Nachos

open Framework

/-- Where in the executable the handler finds the byte of a virtual address. -/
def reloadOffset (fileAddr : Nat → Int) (vAddr : Int) : Option Int :=
  if fileAddr 0 ≤ vAddr ∧ vAddr < int32 (fileAddr 0 + fileAddr 1) then
    some (int32 (fileAddr 2 + vAddr - fileAddr 0))
  else if fileAddr 3 ≤ vAddr ∧ vAddr < int32 (fileAddr 3 + fileAddr 4) then
    some (int32 (fileAddr 5 + vAddr - fileAddr 3))
  else if fileAddr 6 ≤ vAddr ∧ vAddr < int32 (fileAddr 6 + fileAddr 7) then
    some (int32 (fileAddr 8 + vAddr - fileAddr 6))
  else none

/-- One turn of the loop that fills a frame; bytes outside the three segments are skipped. -/
def fillByte (f : HostFile) (fileAddr : Nat → Int) (vpn phy : Nat) (memory : Nat → Byte)
    (i : Nat) : Option (Nat → Byte) :=
  match reloadOffset fileAddr (vpn * pageSize + i : Nat) with
  | none => some memory
  | some position => f.readAt memory (phy * pageSize + i) 1 position

/-- The value `ReadMem` finds at a physical address: a signed byte, or a little-endian half word
or word. -/
def fetch (memory : Nat → Byte) (size physAddr : Nat) : Option Word :=
  match size with
  | 1 => some ((memory physAddr).signExtend 32)
  | 2 => some ((memory (physAddr + 1) ++ memory physAddr).setWidth 32)
  | 4 => some (memory (physAddr + 3) ++ memory (physAddr + 2) ++ memory (physAddr + 1) ++
      memory physAddr)
  | _ => none

/-- What `WriteMem` stores at a physical address. -/
def store (memory : Nat → Byte) (size physAddr : Nat) (value : Word) : Option (Nat → Byte) :=
  if size = 1 ∨ size = 2 ∨ size = 4 then
    some fun a =>
      if physAddr ≤ a ∧ a < physAddr + size then value.extractLsb' (8 * (a - physAddr)) 8
      else memory a
  else none

namespace Vm

/-- The branch without a free frame: the victim, and its page written back if it is dirty. -/
def evict (m : Vm) : Option (Nat × Int × Vm) := do
  let phy ← m.findFreeByLRU
  let vir := (m.globalPageTable phy).virNum
  let ref ← (m.globalPageTable phy).refPageTable
  let v ← arrayIndex numPhysPages vir
  let entry := m.tables ref v
  -- ASSERT(out_file != NULL)
  let out ← m.files entry.diskFile
  if entry.dirty then
    let out' ← out.writeAt m.mainMemory (phy * pageSize) pageSize (entry.virtualPage * pageSize)
    some (phy, vir, { m with files := Function.update m.files entry.diskFile (some out') })
  else some (phy, vir, m)

def invalidate (m : Vm) (phy : Nat) (vir : Int) : Option Vm :=
  match (m.globalPageTable phy).refPageTable with
  | none => some m
  | some ref => do
    let v ← arrayIndex numPhysPages vir
    some (m.setEntry ref v { m.tables ref v with valid := false })

/-- The frame is entered into the global page table and into the current page table. -/
def assign (m : Vm) (t : Nat) (v phy : Nat) : Vm :=
  { m.setEntry t v { m.tables t v with physicalPage := phy, valid := true, use := false,
                                       dirty := false, readOnly := false } with
    globalPageTable := Function.update m.globalPageTable phy
      { virNum := (m.tables t v).virtualPage, useStamp := 0, refPageTable := some t } }

/-- `ExceptionHandler(PageFaultException)`. -/
def pageFault (m : Vm) (vir : Int) : Option Vm := do
  let virAddr := (m.registers badVAddrReg).toInt
  let vpn := virAddr.tdiv pageSize
  let t ← m.pageTable
  let (free, m₁) := m.findFreeFrame vpn t
  let (phy, vir, m₂) ← if free = -1 then m₁.evict else some (free.toNat, vir, m₁)
  let v ← arrayIndex numPhysPages vpn
  -- ASSERT(in_file != NULL)
  let input ← m₂.files (m₂.tables t v).diskFile
  let memory ← (List.range pageSize).foldlM (fillByte input m₂.fileAddr v phy) m₂.mainMemory
  let m₃ ← { m₂ with mainMemory := memory }.invalidate phy vir
  some (m₃.assign t v phy)

/-- `Machine::RaiseException` up to the handler. -/
def raiseException (m : Vm) (badVAddr : Word) : Vm :=
  { m with registers := delayedLoad (Function.update m.registers badVAddrReg badVAddr) 0 0 }

/-- `Translate` as `ReadMem` and `WriteMem` call it, with the retry after a page fault. The
handler has no case for the other exceptions and ends in `ASSERTNOTREACHED`. -/
def access (m : Vm) (addr : Word) (size : Nat) (writing : Bool) (vir : Int) :
    Option (Vm × Nat) := do
  let (m₁, first) ← m.translate addr size writing
  match first with
  | .ok physAddr => some (m₁, physAddr)
  | .error .pageFault =>
    let m₂ ← (m₁.raiseException addr).pageFault vir
    let (m₃, second) ← m₂.translate addr size writing
    match second with
    | .ok physAddr => some (m₃, physAddr)
    | .error _ => none
  | .error _ => none

/-- `Machine::ReadMem`. -/
def readMem (m : Vm) (addr : Word) (size : Nat) (vir : Int) : Option (Vm × Word) := do
  let (m₁, physAddr) ← m.access addr size false vir
  let value ← fetch m₁.mainMemory size physAddr
  some (m₁, value)

/-- `Machine::WriteMem`. -/
def writeMem (m : Vm) (addr : Word) (size : Nat) (value : Word) (vir : Int) : Option Vm := do
  let (m₁, physAddr) ← m.access addr size true vir
  let memory ← store m₁.mainMemory size physAddr value
  some { m₁ with mainMemory := memory }

end Vm

/-- The events of the memory system. Between two accesses the instructions of the running
program may set the registers; the target of a pending load is a general register. -/
inductive VmLabel
  | load (fileName : FileName) (noffH : Nat → Byte)
  | switch (t : Nat)
  | registers (r : Nat → Word)
  | read (addr : Word) (size : Nat) (vir : Int)
  | write (addr : Word) (size : Nat) (value : Word) (vir : Int)

def Vm.step (m : Vm) : VmLabel → Option Vm
  | .load fileName noffH => m.load fileName noffH
  | .switch t => (m.spaces t).map m.restoreState
  | .registers r => if (r loadReg).toNat < 32 then some { m with registers := r } else none
  | .read addr size vir => (m.readMem addr size vir).map Prod.fst
  | .write addr size value vir => m.writeMem addr size value vir

def vmSystem (files : FileName → Option HostFile) : System Vm VmLabel where
  init m := m = .new files
  step m l m' := m.step l = some m'

end Nachos

import Nachos.Machine.Machine
import Nachos.Framework.Int32

/-!
# Address spaces

`AddrSpace::Load` reads the NOFF header of an executable, fills a page table of `NumPhysPages`
entries with whatever frames are free, and copies the bytes of the segments whose pages got a
frame. The header is read into an uninitialized local variable, so the bytes a short file does
not supply are a parameter. An array index outside its array is `none`, like a failed ASSERT.
-/

namespace Nachos

open Framework

abbrev userStackSize : Int := 1024

/-- `NOFFMAGIC`. -/
abbrev noffMagicNumber : Int := 0xbadfad

structure Segment where
  virtualAddr : Int
  inFileAddr : Int
  size : Int
  deriving DecidableEq

structure NoffHeader where
  noffMagic : Int
  code : Segment
  initData : Segment
  readonlyData : Segment
  uninitData : Segment

/-- `sizeof(noffH)`. -/
abbrev noffHeaderSize : Nat := 52

/-- The `int` at word `i` of a buffer. -/
def intAt (buffer : Nat → Byte) (i : Nat) : Int :=
  (buffer (4 * i + 3) ++ buffer (4 * i + 2) ++ buffer (4 * i + 1) ++ buffer (4 * i)).toInt

def segmentAt (buffer : Nat → Byte) (i : Nat) : Segment :=
  { virtualAddr := intAt buffer i, inFileAddr := intAt buffer (i + 1),
    size := intAt buffer (i + 2) }

/-- The header as it lies in the file. On the little-endian host `SwapHeader` changes nothing. -/
def noffHeader (buffer : Nat → Byte) : NoffHeader :=
  { noffMagic := intAt buffer 0, code := segmentAt buffer 1, initData := segmentAt buffer 4,
    readonlyData := segmentAt buffer 7, uninitData := segmentAt buffer 10 }

namespace NoffHeader

/-- The `unsigned` size of the address space. -/
def spaceSize (h : NoffHeader) : Nat :=
  ((h.code.size + h.readonlyData.size + h.initData.size + h.uninitData.size + userStackSize) %
    2 ^ 32).toNat

/-- `divRoundUp(size, PageSize)`. -/
def numPages (h : NoffHeader) : Nat :=
  h.spaceSize / pageSize + if h.spaceSize % pageSize > 0 then 1 else 0

/-- The array `FileAddr`. -/
def fileAddr (h : NoffHeader) : Nat → Int
  | 0 => h.code.virtualAddr
  | 1 => h.code.size
  | 2 => h.code.inFileAddr
  | 3 => h.initData.virtualAddr
  | 4 => h.initData.size
  | 5 => h.initData.inFileAddr
  | 6 => h.readonlyData.virtualAddr
  | 7 => h.readonlyData.size
  | 8 => h.readonlyData.inFileAddr
  | _ => 0

end NoffHeader

/-- A bounds check for an array of `n` elements. -/
def arrayIndex (n : Nat) (i : Int) : Option Nat :=
  if 0 ≤ i ∧ i < n then some i.toNat else none

namespace Vm

def loadEntry (fileName : FileName) (t : Nat) (m : Vm) (i : Nat) : Vm :=
  let (phy, m₁) := m.findFreeFrame i t
  m₁.setEntry t i
    { virtualPage := i, physicalPage := phy, valid := true, readOnly := false, use := false,
      dirty := false, diskFile := fileName }

/-- One turn of the loop over a segment. The address is out of the table before it can overflow,
the position in the file is not. -/
def loadByte (f : HostFile) (t : Nat) (s : Segment) (m : Vm) (i : Nat) : Option Vm := do
  let vaddr := s.virtualAddr + i
  let v ← arrayIndex numPhysPages (vaddr.tdiv pageSize)
  let physicalPage := (m.tables t v).physicalPage
  if 0 ≤ physicalPage then
    let add ← arrayIndex memorySize (physicalPage * pageSize + vaddr.tmod pageSize)
    let memory ← f.readAt m.mainMemory add 1 (int32 (s.inFileAddr + i))
    some { m with mainMemory := memory }
  else some m

def loadSegment (f : HostFile) (t : Nat) (m : Vm) (s : Segment) : Option Vm :=
  (List.range s.size.toNat).foldlM (loadByte f t s) m

/-- `AddrSpace::Load` for a new address space, with the uninitialized bytes of `noffH`. -/
def load (m : Vm) (fileName : FileName) (noffH : Nat → Byte) : Option Vm :=
  match m.files fileName with
  | none => some m
  | some f => do
    let buffer ← f.readAt noffH 0 noffHeaderSize 0
    let h := noffHeader buffer
    if h.noffMagic = noffMagicNumber ∧ h.numPages ≤ numPhysPages then
      let t := m.nextTable
      let m₁ := (List.range numPhysPages).foldl (loadEntry fileName t)
        { m with nextTable := t + 1 }
      let m₂ ← loadSegment f t m₁ h.code
      let m₃ ← loadSegment f t m₂ h.initData
      let m₄ ← loadSegment f t m₃ h.readonlyData
      some { m₄ with spaces := Function.update m₄.spaces t
                       (some { pageTable := t, numPages := h.numPages, fileAddr := h.fileAddr }) }
    else none

/-- What `Execute` and `RestoreState` do to the page-table registers of the machine. -/
def restoreState (m : Vm) (s : AddrSpace) : Vm :=
  { m with pageTable := some s.pageTable, pageTableSize := s.numPages, fileAddr := s.fileAddr }

end Vm

end Nachos

import Nachos.Userprog.PageFault

/-!
# The instruction set

`Machine::OneInstruction`, built with `SIM_FIX` on a host whose `int` has 32 bits and whose
arithmetic wraps around. `execute` is its switch: what an instruction is about to do, computed
from the registers. The accesses to memory follow; a register that the code reads after an access
is read after it here too.
-/

namespace Nachos

/-- `R31`. -/
abbrev linkReg : Nat := 31

/-- `SIGN_BIT`. -/
abbrev signBit : Word := 0x80000000

/-! ## Decoding -/

inductive OpCode
  | add | addi | addiu | addu | and | andi | beq | bgez | bgezal | bgtz | blez | bltz | bltzal
  | bne | div | divu | j | jal | jalr | jr | lb | lbu | lh | lhu | lui | lw | lwl | lwr | mfhi
  | mflo | mthi | mtlo | mult | multu | nor | or | ori | sb | sh | sll | sllv | slt | slti | sltiu
  | sltu | sra | srav | srl | srlv | sub | subu | sw | swl | swr | xor | xori | syscall | unimp
  | res
  deriving DecidableEq

inductive Format
  | ifmt
  | jfmt
  | rfmt
  deriving DecidableEq

/-- An entry of `opTable`. -/
inductive OpInfo
  | op (opCode : OpCode) (format : Format)
  | special
  | bcond

def opTable : List OpInfo :=
  ([.special, .bcond, .op .j .jfmt, .op .jal .jfmt,
    .op .beq .ifmt, .op .bne .ifmt, .op .blez .ifmt, .op .bgtz .ifmt,
    .op .addi .ifmt, .op .addiu .ifmt, .op .slti .ifmt, .op .sltiu .ifmt,
    .op .andi .ifmt, .op .ori .ifmt, .op .xori .ifmt, .op .lui .ifmt] : List OpInfo) ++
  List.replicate 4 (.op .unimp .ifmt) ++ List.replicate 12 (.op .res .ifmt) ++
  ([.op .lb .ifmt, .op .lh .ifmt, .op .lwl .ifmt, .op .lw .ifmt,
    .op .lbu .ifmt, .op .lhu .ifmt, .op .lwr .ifmt, .op .res .ifmt,
    .op .sb .ifmt, .op .sh .ifmt, .op .swl .ifmt, .op .sw .ifmt,
    .op .res .ifmt, .op .res .ifmt, .op .swr .ifmt, .op .res .ifmt] : List OpInfo) ++
  List.replicate 4 (.op .unimp .ifmt) ++ List.replicate 4 (.op .res .ifmt) ++
  List.replicate 4 (.op .unimp .ifmt) ++ List.replicate 4 (.op .res .ifmt)

def specialTable : List OpCode :=
  ([.sll, .res, .srl, .sra, .sllv, .res, .srlv, .srav,
    .jr, .jalr, .res, .res, .syscall, .unimp, .res, .res,
    .mfhi, .mthi, .mflo, .mtlo, .res, .res, .res, .res,
    .mult, .multu, .div, .divu, .res, .res, .res, .res,
    .add, .addu, .sub, .subu, .and, .or, .xor, .nor,
    .res, .res, .slt, .sltu, .res, .res, .res, .res] : List OpCode) ++ List.replicate 16 .res

structure Instruction where
  opCode : OpCode
  rs : Nat
  rt : Nat
  rd : Nat
  extra : Word
  deriving DecidableEq

def Format.extra (value : Word) : Format → Word
  | .ifmt => (value.extractLsb' 0 16).signExtend 32
  | .rfmt => (value >>> 6) &&& 0x1f
  | .jfmt => value &&& 0x3ffffff

/-- `Instruction::Decode`. -/
def decode (value : Word) : Instruction :=
  let instr (opCode : OpCode) (format : Format) : Instruction :=
    { opCode := opCode, rs := ((value >>> 21) &&& 0x1f).toNat,
      rt := ((value >>> 16) &&& 0x1f).toNat, rd := ((value >>> 11) &&& 0x1f).toNat,
      extra := format.extra value }
  match opTable.getD ((value >>> 26) &&& 0x3f).toNat (.op .res .ifmt) with
  | .op opCode format => instr opCode format
  | .special => instr (specialTable.getD (value &&& 0x3f).toNat .res) .rfmt
  | .bcond =>
    let i := value &&& 0x1f0000
    if i = 0 then instr .bltz .ifmt
    else if i = 0x10000 then instr .bgez .ifmt
    else if i = 0x100000 then instr .bltzal .ifmt
    else if i = 0x110000 then instr .bgezal .ifmt
    else instr .unimp .ifmt

/-! ## Multiplication -/

/-- The loop of `Mult`, with the turns that are left. -/
def multLoop : Nat → (a bLo bHi lo hi : Word) → Word × Word
  | 0, _, _, _, lo, hi => (hi, lo)
  | n + 1, a, bLo, bHi, lo, hi =>
    let lo' := if a &&& 1 ≠ 0 then lo + bLo else lo
    let hi' := if a &&& 1 ≠ 0 then (if lo + bLo < bLo then hi + 1 else hi) + bHi else hi
    if a &&& 1 ≠ 0 ∧ a &&& 0xfffffffe = 0 then (hi', lo')
    else
      let bHi' := if bLo &&& 0x80000000 ≠ 0 then (bHi <<< 1) ||| 1 else bHi <<< 1
      multLoop n (a.sshiftRight 1) (bLo <<< 1) bHi' lo' hi'

/-- `Mult`: the high and the low word of the product. -/
def mult (a b : Word) (signedArith : Bool) : Word × Word :=
  if a = 0 ∨ b = 0 then (0, 0)
  else
    let negative := signedArith && (a.slt 0 != b.slt 0)
    let a' := if signedArith = true ∧ a.slt 0 = true then -a else a
    let b' := if signedArith = true ∧ b.slt 0 = true then -b else b
    let (hi, lo) := multLoop 32 a' b' 0 0 0
    if negative then (if ~~~lo + 1 = 0 then ~~~hi + 1 else ~~~hi, ~~~lo + 1) else (hi, lo)

/-! ## The switch -/

/-- What remains to be done for an instruction when its operands have been read. -/
inductive Effect
  | write (r : Nat) (value : Word)
  | hiLo (hi lo : Word)
  | jump (pcAfter : Word)
  | link (r : Nat) (value pcAfter : Word)
  | load (addr : Word) (size : Nat) (rt : Nat) (extend : Word → Word)
  | mergeLoad (addr : Word) (rt : Nat) (merge : Word → Word → Word)
  | store (addr : Word) (size : Nat) (value : Word)
  | mergeStore (addr : Word) (rt : Nat) (merge : Word → Word → Word)
  | raise (which : ExceptionType) (badVAddr : Word)
  | undefined

/-- `IndexToAddr`. -/
def indexToAddr (x : Word) : Word := x <<< 2

def branch (registers : Nat → Word) (extra : Word) (taken : Bool) : Word :=
  if taken then registers nextPCReg + indexToAddr extra else registers nextPCReg + 4

/-- What `LWL` makes of the old value of the register and the word in memory. -/
def mergeLWL (byte : Nat) (old value : Word) : Word :=
  match 3 - byte with
  | 0 => value
  | 1 => (old &&& 0xff) ||| (value <<< 8)
  | 2 => (old &&& 0xffff) ||| (value <<< 16)
  | _ => (old &&& 0xffffff) ||| (value <<< 24)

def mergeLWR (byte : Nat) (old value : Word) : Word :=
  match 3 - byte with
  | 0 => (old &&& 0xffffff00) ||| (value.sshiftRight 24 &&& 0xff)
  | 1 => (old &&& 0xffff0000) ||| (value.sshiftRight 16 &&& 0xffff)
  | 2 => (old &&& 0xff000000) ||| (value.sshiftRight 8 &&& 0xffffff)
  | _ => value

/-- What `SWL` makes of the register and the word in memory. -/
def mergeSWL (byte : Nat) (rt value : Word) : Word :=
  match 3 - byte with
  | 0 => rt
  | 1 => (value &&& 0xff000000) ||| (rt.sshiftRight 8 &&& 0xffffff)
  | 2 => (value &&& 0xffff0000) ||| (rt.sshiftRight 16 &&& 0xffff)
  | _ => (value &&& 0xffffff00) ||| (rt.sshiftRight 24 &&& 0xff)

def mergeSWR (byte : Nat) (rt value : Word) : Word :=
  match 3 - byte with
  | 0 => (value &&& 0xffffff) ||| (rt <<< 24)
  | 1 => (value &&& 0xffff) ||| (rt <<< 16)
  | 2 => (value &&& 0xff) ||| (rt <<< 8)
  | _ => rt

/-- The switch of `OneInstruction`. -/
def execute (i : Instruction) (registers : Nat → Word) : Effect :=
  let rs := registers i.rs
  let rt := registers i.rt
  let pcAfter := registers nextPCReg + 4
  let tmp := rs + i.extra
  let byte := (tmp &&& 3).toNat
  match i.opCode with
  | .add =>
    let sum := rs + rt
    if (rs ^^^ rt) &&& signBit = 0 ∧ (rs ^^^ sum) &&& signBit ≠ 0 then .raise .overflow 0
    else .write i.rd sum
  | .addi =>
    let sum := rs + i.extra
    if (rs ^^^ i.extra) &&& signBit = 0 ∧ (i.extra ^^^ sum) &&& signBit ≠ 0 then
      .raise .overflow 0
    else .write i.rt sum
  | .addiu => .write i.rt (rs + i.extra)
  | .addu => .write i.rd (rs + rt)
  | .and => .write i.rd (rs &&& rt)
  | .andi => .write i.rt (rs &&& (i.extra &&& 0xffff))
  | .beq => .jump (branch registers i.extra (rs == rt))
  | .bgezal =>
    let linked := Function.update registers linkReg pcAfter
    .link linkReg pcAfter (branch registers i.extra (linked i.rs &&& signBit == 0))
  | .bgez => .jump (branch registers i.extra (rs &&& signBit == 0))
  | .bgtz => .jump (branch registers i.extra (BitVec.slt 0 rs))
  | .blez => .jump (branch registers i.extra (rs.sle 0))
  | .bltzal =>
    let linked := Function.update registers linkReg pcAfter
    .link linkReg pcAfter (branch registers i.extra (linked i.rs &&& signBit != 0))
  | .bltz => .jump (branch registers i.extra (rs &&& signBit != 0))
  | .bne => .jump (branch registers i.extra (rs != rt))
  | .div =>
    if rt = 0 then .hiLo 0 0
    -- the quotient does not fit, and the host traps
    else if rs = signBit ∧ rt = -1 then .undefined
    else .hiLo (rs.srem rt) (rs.sdiv rt)
  | .divu => if rt = 0 then .hiLo 0 0 else .hiLo (rs.umod rt) (rs.udiv rt)
  | .jal => .link linkReg pcAfter ((pcAfter &&& 0xf0000000) ||| indexToAddr i.extra)
  | .j => .jump ((pcAfter &&& 0xf0000000) ||| indexToAddr i.extra)
  | .jalr => .link i.rd pcAfter (Function.update registers i.rd pcAfter i.rs)
  | .jr => .jump rs
  | .lb =>
    .load tmp 1 i.rt fun value =>
      if value &&& 0x80 ≠ 0 then value ||| 0xffffff00 else value &&& 0xff
  | .lbu => .load tmp 1 i.rt fun value => value &&& 0xff
  | .lh =>
    if tmp &&& 1 ≠ 0 then .raise .addressError tmp
    else .load tmp 2 i.rt fun value =>
      if value &&& 0x8000 ≠ 0 then value ||| 0xffff0000 else value &&& 0xffff
  | .lhu =>
    if tmp &&& 1 ≠ 0 then .raise .addressError tmp
    else .load tmp 2 i.rt fun value => value &&& 0xffff
  | .lui => .write i.rt (i.extra <<< 16)
  | .lw => if tmp &&& 3 ≠ 0 then .raise .addressError tmp else .load tmp 4 i.rt id
  | .lwl => .mergeLoad (tmp - (tmp &&& 3)) i.rt (mergeLWL byte)
  | .lwr => .mergeLoad (tmp - (tmp &&& 3)) i.rt (mergeLWR byte)
  | .mfhi => .write i.rd (registers hiReg)
  | .mflo => .write i.rd (registers loReg)
  | .mthi => .write hiReg rs
  | .mtlo => .write loReg rs
  | .mult => .hiLo (mult rs rt true).1 (mult rs rt true).2
  | .multu => .hiLo (mult rs rt false).1 (mult rs rt false).2
  | .nor => .write i.rd (~~~(rs ||| rt))
  | .or => .write i.rd (rs ||| rt)
  | .ori => .write i.rt (rs ||| (i.extra &&& 0xffff))
  | .sb => .store tmp 1 rt
  | .sh => .store tmp 2 rt
  | .sll => .write i.rd (rt <<< i.extra.toNat)
  | .sllv => .write i.rd (rt <<< (rs &&& 0x1f).toNat)
  | .slt => .write i.rd (if rs.slt rt then 1 else 0)
  | .slti => .write i.rt (if rs.slt i.extra then 1 else 0)
  | .sltiu => .write i.rt (if rs < i.extra then 1 else 0)
  | .sltu => .write i.rd (if rs < rt then 1 else 0)
  | .sra => .write i.rd (rt.sshiftRight i.extra.toNat)
  | .srav => .write i.rd (rt.sshiftRight (rs &&& 0x1f).toNat)
  -- `tmp` is an `int`, so these two shift in the sign as well
  | .srl => .write i.rd (rt.sshiftRight i.extra.toNat)
  | .srlv => .write i.rd (rt.sshiftRight (rs &&& 0x1f).toNat)
  | .sub =>
    let diff := rs - rt
    if (rs ^^^ rt) &&& signBit ≠ 0 ∧ (rs ^^^ diff) &&& signBit ≠ 0 then .raise .overflow 0
    else .write i.rd diff
  | .subu => .write i.rd (rs - rt)
  | .sw => .store tmp 4 rt
  | .swl => .mergeStore (tmp - (tmp &&& 3)) i.rt (mergeSWL byte)
  | .swr => .mergeStore (tmp - (tmp &&& 3)) i.rt (mergeSWR byte)
  | .syscall => .raise .syscall 0
  | .xor => .write i.rd (rs ^^^ rt)
  | .xori => .write i.rt (rs ^^^ (i.extra &&& 0xffff))
  | .res => .raise .illegalInstr 0
  | .unimp => .raise .illegalInstr 0

/-! ## One instruction -/

/-- `ReadMem` and `WriteMem` as an instruction calls them. They do not return where the handler
of an exception ends the machine. -/
structure MemoryAccess where
  readMem : Vm → Word → Nat → Option (Vm × Word)
  writeMem : Vm → Word → Nat → Word → Option Vm

namespace Vm

/-- The end of `OneInstruction`: the delayed load and the program counters. -/
def advance (m : Vm) (nextLoadReg : Nat) (nextLoadValue pcAfter : Word) : Vm :=
  let r := delayedLoad m.registers nextLoadReg nextLoadValue
  let r₁ := Function.update r prevPCReg (r pcReg)
  let r₂ := Function.update r₁ pcReg (r₁ nextPCReg)
  { m with registers := Function.update r₂ nextPCReg pcAfter }

def writeReg (m : Vm) (r : Nat) (value : Word) : Vm :=
  { m with registers := Function.update m.registers r value }

/-- The register `LWL` and `LWR` start from: the load that is pending, if it is to the same
register. -/
def mergeOperand (registers : Nat → Word) (rt : Nat) : Word :=
  if registers loadReg = rt then registers loadValueReg else registers rt

/-- The rest of an instruction. The accesses of an instruction are numbered, beginning with its
fetch. With an exception the machine is as the handler finds it. -/
def carryOut (access : Nat → MemoryAccess) (m : Vm) (pcAfter : Word) :
    Effect → Option (Vm × Option ExceptionType)
  | .write r value => some ((m.writeReg r value).advance 0 0 pcAfter, none)
  | .hiLo hi lo => some (((m.writeReg loReg lo).writeReg hiReg hi).advance 0 0 pcAfter, none)
  | .jump pcAfter => some (m.advance 0 0 pcAfter, none)
  | .link r value pcAfter => some ((m.writeReg r value).advance 0 0 pcAfter, none)
  | .load addr size rt extend => do
    let (m₁, value) ← (access 1).readMem m addr size
    some (m₁.advance rt (extend value) pcAfter, none)
  | .mergeLoad addr rt merge => do
    let (m₁, value) ← (access 1).readMem m addr 4
    some (m₁.advance rt (merge (mergeOperand m₁.registers rt) value) pcAfter, none)
  | .store addr size value => do
    let m₁ ← (access 1).writeMem m addr size value
    some (m₁.advance 0 0 pcAfter, none)
  | .mergeStore addr rt merge => do
    let (m₁, value) ← (access 1).readMem m addr 4
    let m₂ ← (access 2).writeMem m₁ addr 4 (merge (m₁.registers rt) value)
    some (m₂.advance 0 0 pcAfter, none)
  | .raise which badVAddr => some (m.raiseException badVAddr, some which)
  | .undefined => none

/-- `OneInstruction` with the given accesses. -/
def instruction (access : Nat → MemoryAccess) (m : Vm) : Option (Vm × Option ExceptionType) := do
  let (m₁, raw) ← (access 0).readMem m (m.registers pcReg) 4
  m₁.carryOut access (m₁.registers nextPCReg + 4) (execute (decode raw) m₁.registers)

/-- The accesses of the machine, with the page-fault handler behind them. -/
def memory (vir : Int) : MemoryAccess where
  readMem m addr size := m.readMem addr size vir
  writeMem m addr size value := m.writeMem addr size value vir

/-- `Machine::OneInstruction`. -/
def oneInstruction (m : Vm) (vir : Int) : Option (Vm × Option ExceptionType) :=
  m.instruction fun _ => memory vir

end Vm

end Nachos

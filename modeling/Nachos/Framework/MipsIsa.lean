import Mathlib.Logic.Function.Basic
import Mathlib.Algebra.GroupWithZero.Nat
import Mathlib.Algebra.Group.Int.Defs

/-!
# The integer instructions of MIPS I

What the architecture says about the instructions that compute in registers, branch and jump. An
instruction is a number and so is the contents of a register; the results are those of the
arithmetic of whole numbers, reduced modulo `2 ^ 32`.
-/

namespace Framework.Mips

/-! ## Numbers -/

/-- A number of `n` bits, read in two's complement. -/
def signed (n x : Nat) : Int := if 2 * x < 2 ^ n then x else x - (2 ^ n : Nat)

def wrap (z : Int) : Nat := (z % 2 ^ 32).toNat

/-- The number is one of the signed numbers of 32 bits. -/
def Fits (z : Int) : Prop := -2 ^ 31 ≤ z ∧ z < 2 ^ 31

instance (z : Int) : Decidable (Fits z) := inferInstanceAs (Decidable (_ ∧ _))

theorem signed_toNat {n : Nat} (x : BitVec n) : signed n x.toNat = x.toInt := rfl

theorem toNat_ofInt_wrap (z : Int) : (BitVec.ofInt 32 z).toNat = wrap z := BitVec.toNat_ofInt z

/-! ## Encoding -/

def opField (w : Nat) : Nat := w / 2 ^ 26

def rsField (w : Nat) : Nat := w / 2 ^ 21 % 32

def rtField (w : Nat) : Nat := w / 2 ^ 16 % 32

def rdField (w : Nat) : Nat := w / 2 ^ 11 % 32

def shamtField (w : Nat) : Nat := w / 2 ^ 6 % 32

def functField (w : Nat) : Nat := w % 64

def immediateField (w : Nat) : Nat := w % 2 ^ 16

def targetField (w : Nat) : Nat := w % 2 ^ 26

inductive Mnemonic
  | add | addi | addiu | addu | sub | subu | and | andi | or | ori | xor | xori | nor | lui
  | sll | sllv | sra | srav | slt | slti | sltiu | sltu | mfhi | mflo | mthi | mtlo
  | beq | bne | blez | bgtz | bltz | bgez | bltzal | bgezal | j | jal | jr | jalr
  deriving DecidableEq

/-- The instructions with operation 0, by the function field. -/
def specialOp : Nat → Option Mnemonic
  | 0 => some .sll
  | 3 => some .sra
  | 4 => some .sllv
  | 7 => some .srav
  | 8 => some .jr
  | 9 => some .jalr
  | 16 => some .mfhi
  | 17 => some .mthi
  | 18 => some .mflo
  | 19 => some .mtlo
  | 32 => some .add
  | 33 => some .addu
  | 34 => some .sub
  | 35 => some .subu
  | 36 => some .and
  | 37 => some .or
  | 38 => some .xor
  | 39 => some .nor
  | 42 => some .slt
  | 43 => some .sltu
  | _ => none

/-- The instructions with operation 1, by the second register field. -/
def regimmOp : Nat → Option Mnemonic
  | 0 => some .bltz
  | 1 => some .bgez
  | 16 => some .bltzal
  | 17 => some .bgezal
  | _ => none

def primaryOp : Nat → Option Mnemonic
  | 2 => some .j
  | 3 => some .jal
  | 4 => some .beq
  | 5 => some .bne
  | 6 => some .blez
  | 7 => some .bgtz
  | 8 => some .addi
  | 9 => some .addiu
  | 10 => some .slti
  | 11 => some .sltiu
  | 12 => some .andi
  | 13 => some .ori
  | 14 => some .xori
  | 15 => some .lui
  | _ => none

def mnemonic (w : Nat) : Option Mnemonic :=
  if opField w = 0 then specialOp (functField w)
  else if opField w = 1 then regimmOp (rtField w)
  else primaryOp (opField w)

/-! ## Meaning -/

@[ext]
structure State where
  gpr : Nat → Nat
  hi : Nat
  lo : Nat
  pc : Nat
  nextPC : Nat

/-- What an instruction asks for. The instruction in the delay slot comes before the target of a
jump. -/
inductive Action
  | put (r : Nat) (value : Int)
  /-- As `put`, with a trap where the value does not fit. -/
  | putExact (r : Nat) (value : Int)
  | putHi (value : Int)
  | putLo (value : Int)
  | jump (target : Int)
  | link (r : Nat) (target : Int)
  /-- The architecture leaves open what the instruction does. -/
  | unpredictable

inductive Outcome
  | next (s : State)
  | overflow
  | unpredictable

namespace State

/-- Register 0 stays zero. -/
def write (s : State) (r value : Nat) : State :=
  { s with gpr := fun k => if k = r ∧ k ≠ 0 then value else s.gpr k }

/-- On to the next instruction; the one after it is at `target`. -/
def goto (s : State) (target : Int) : State :=
  { s with pc := wrap (s.pc + 4), nextPC := wrap target }

def branch (s : State) (w : Nat) (taken : Prop) [Decidable taken] : Int :=
  if taken then s.pc + 4 + 4 * signed 16 (immediateField w) else s.pc + 8

/-- The target of a jump lies in the region of the delay slot. -/
def region (s : State) (w : Nat) : Int := (s.pc + 4) / 2 ^ 28 * 2 ^ 28 + 4 * targetField w

/-- A linking instruction may not read the register it links. -/
def linked (w link : Nat) (target : Int) : Action :=
  if rsField w = link then .unpredictable else .link link target

def action (s : State) (w : Nat) : Mnemonic → Action
  | .add => .putExact (rdField w) (signed 32 (s.gpr (rsField w)) + signed 32 (s.gpr (rtField w)))
  | .addi =>
    .putExact (rtField w) (signed 32 (s.gpr (rsField w)) + signed 16 (immediateField w))
  | .addiu => .put (rtField w) (s.gpr (rsField w) + signed 16 (immediateField w))
  | .addu => .put (rdField w) (s.gpr (rsField w) + s.gpr (rtField w))
  | .sub => .putExact (rdField w) (signed 32 (s.gpr (rsField w)) - signed 32 (s.gpr (rtField w)))
  | .subu => .put (rdField w) (s.gpr (rsField w) - s.gpr (rtField w))
  | .and => .put (rdField w) (s.gpr (rsField w) &&& s.gpr (rtField w) : Nat)
  | .andi => .put (rtField w) (s.gpr (rsField w) &&& immediateField w : Nat)
  | .or => .put (rdField w) (s.gpr (rsField w) ||| s.gpr (rtField w) : Nat)
  | .ori => .put (rtField w) (s.gpr (rsField w) ||| immediateField w : Nat)
  | .xor => .put (rdField w) (s.gpr (rsField w) ^^^ s.gpr (rtField w) : Nat)
  | .xori => .put (rtField w) (s.gpr (rsField w) ^^^ immediateField w : Nat)
  | .nor => .put (rdField w) (2 ^ 32 - 1 - (s.gpr (rsField w) ||| s.gpr (rtField w) : Nat))
  | .lui => .put (rtField w) (immediateField w * 2 ^ 16)
  | .sll => .put (rdField w) (s.gpr (rtField w) * 2 ^ shamtField w)
  | .sllv => .put (rdField w) (s.gpr (rtField w) * 2 ^ (s.gpr (rsField w) % 32))
  | .sra => .put (rdField w) (signed 32 (s.gpr (rtField w)) / 2 ^ shamtField w)
  | .srav => .put (rdField w) (signed 32 (s.gpr (rtField w)) / 2 ^ (s.gpr (rsField w) % 32))
  | .slt =>
    .put (rdField w) (if signed 32 (s.gpr (rsField w)) < signed 32 (s.gpr (rtField w)) then 1 else 0)
  | .slti =>
    .put (rtField w) (if signed 32 (s.gpr (rsField w)) < signed 16 (immediateField w) then 1 else 0)
  -- the immediate is extended with its sign and then compared without
  | .sltiu =>
    .put (rtField w) (if s.gpr (rsField w) < wrap (signed 16 (immediateField w)) then 1 else 0)
  | .sltu => .put (rdField w) (if s.gpr (rsField w) < s.gpr (rtField w) then 1 else 0)
  | .mfhi => .put (rdField w) s.hi
  | .mflo => .put (rdField w) s.lo
  | .mthi => .putHi (s.gpr (rsField w))
  | .mtlo => .putLo (s.gpr (rsField w))
  | .beq => .jump (s.branch w (s.gpr (rsField w) = s.gpr (rtField w)))
  | .bne => .jump (s.branch w (s.gpr (rsField w) ≠ s.gpr (rtField w)))
  | .blez => .jump (s.branch w (signed 32 (s.gpr (rsField w)) ≤ 0))
  | .bgtz => .jump (s.branch w (0 < signed 32 (s.gpr (rsField w))))
  | .bltz => .jump (s.branch w (signed 32 (s.gpr (rsField w)) < 0))
  | .bgez => .jump (s.branch w (0 ≤ signed 32 (s.gpr (rsField w))))
  | .bltzal => linked w 31 (s.branch w (signed 32 (s.gpr (rsField w)) < 0))
  | .bgezal => linked w 31 (s.branch w (0 ≤ signed 32 (s.gpr (rsField w))))
  | .j => .jump (s.region w)
  | .jal => .link 31 (s.region w)
  | .jr => .jump (s.gpr (rsField w))
  | .jalr => linked w (rdField w) (s.gpr (rsField w))

def perform (s : State) : Action → Outcome
  | .put r value => .next ((s.write r (wrap value)).goto (s.pc + 8))
  | .putExact r value =>
    if Fits value then .next ((s.write r (wrap value)).goto (s.pc + 8)) else .overflow
  | .putHi value => .next ({ s with hi := wrap value }.goto (s.pc + 8))
  | .putLo value => .next ({ s with lo := wrap value }.goto (s.pc + 8))
  | .jump target => .next (s.goto target)
  | .link r target => .next ((s.write r (wrap (s.pc + 8))).goto target)
  | .unpredictable => .unpredictable

/-- The instruction `w`. -/
def step (s : State) (w : Nat) : Option Outcome :=
  (mnemonic w).map fun op => s.perform (s.action w op)

end State

end Framework.Mips

import Nachos.Framework.ByteMemory
import Mathlib

/-!
# A few instructions of the 32-bit x86

Moves between registers and memory, the stack, indirect calls and returns. The text of the program
is kept apart from the memory it writes; an instruction takes the CPU from one state to the next.
-/

namespace Framework.X86

abbrev Word := BitVec 32

inductive Reg
  | eax | ebx | ecx | edx | esi | edi | ebp | esp
  deriving DecidableEq, Repr

/-! ## Words in memory -/

/-- The addresses of `n` bytes from `a`. -/
def span (a : Word) (n : Nat) : Set Word := {x | (x - a).toNat < n}

def load (mem : ByteMemory 32) (a : Word) : Word := BitVec.ofNat 32 (mem.compose a 4)

def store (mem : ByteMemory 32) (a value : Word) : ByteMemory 32 := mem.overlay a 4 value.toNat

section Words

variable {mem mem' : ByteMemory 32} {a b value : Word} {n m : Nat}

theorem mem_span_offset {i : Nat} (hi : i < n) (hn : n ≤ 2 ^ 32) : a + BitVec.ofNat 32 i ∈ span a n := by
  have hsub : (a + BitVec.ofNat 32 i - a).toNat = i := by
    rw [BitVec.add_comm, BitVec.add_sub_cancel, BitVec.toNat_ofNat]
    exact Nat.mod_eq_of_lt (by omega)
  change (a + BitVec.ofNat 32 i - a).toNat < n
  rw [hsub]
  exact hi

theorem sub_add_eq_sub_sub (x : Word) : x - (a + b) = x - a - b := by grind

/-- Part of a span, from an offset on. -/
theorem span_subset (h : b.toNat + m ≤ n) : span (a + b) m ⊆ span a n := by
  intro x hx
  change (x - (a + b)).toNat < m at hx
  change (x - a).toNat < n
  rw [sub_add_eq_sub_sub, BitVec.toNat_sub] at hx
  have hlt := (x - a).isLt
  have hb := b.isLt
  omega

theorem load_congr (h : Set.EqOn mem' mem (span a 4)) : load mem' a = load mem a := by
  unfold load
  rw [ByteMemory.compose_congr]
  intro i hi
  exact h (mem_span_offset hi (by decide))

theorem load_store_self : load (store mem a value) a = value := by
  unfold load store
  rw [ByteMemory.compose_overlay_self _ _ (by decide)]
  apply BitVec.eq_of_toNat_eq
  rw [BitVec.toNat_ofNat]
  have := value.isLt
  omega

/-- A store changes nothing outside the word. -/
theorem store_eqOn {s : Set Word} (h : Disjoint (span a 4) s) : Set.EqOn (store mem a value) mem s := by
  intro x hx
  apply ByteMemory.overlay_of_notMem
  intro hlt
  exact Set.disjoint_left.mp h hlt hx

theorem load_store_of_disjoint (h : Disjoint (span a 4) (span b 4)) :
    load (store mem a value) b = load mem b := load_congr (store_eqOn h)

/-- Two fields of one record, at different offsets. -/
theorem span_disjoint {c d : Word} (h : c.toNat + n ≤ d.toNat) (h' : d.toNat + m ≤ 2 ^ 32) :
    Disjoint (span (a + c) n) (span (a + d) m) := by
  rw [Set.disjoint_left]
  intro x hx hx'
  change (x - (a + c)).toNat < n at hx
  change (x - (a + d)).toNat < m at hx'
  rw [sub_add_eq_sub_sub, BitVec.toNat_sub] at hx hx'
  have hlt := (x - a).isLt
  have hc := c.isLt
  omega

theorem span_disjoint_add {d : Word} (h : n ≤ d.toNat) (h' : d.toNat + m ≤ 2 ^ 32) :
    Disjoint (span a n) (span (a + d) m) := by
  have hzero := span_disjoint (a := a) (c := 0) (n := n) (by simpa using h) h'
  rwa [show a + 0 = a from BitVec.add_zero a] at hzero

theorem span_disjoint_of_le (h : a.toNat + n ≤ b.toNat) (h' : b.toNat + m ≤ 2 ^ 32) :
    Disjoint (span a n) (span b m) := by
  have hzero := span_disjoint (a := 0) h h'
  rwa [show 0 + a = a from BitVec.zero_add a, show 0 + b = b from BitVec.zero_add b] at hzero

theorem span_mono (h : n ≤ m) : span a n ⊆ span a m := by
  intro x hx
  exact Nat.lt_of_lt_of_le hx h

/-! A list of stores, the first one first. -/

def storeAll (mem : ByteMemory 32) (ws : List (Word × Word)) : ByteMemory 32 :=
  ws.foldl (fun mem w => store mem w.1 w.2) mem

theorem storeAll_eqOn {s : Set Word} {ws : List (Word × Word)}
    (h : ∀ w ∈ ws, Disjoint (span w.1 4) s) : Set.EqOn (storeAll mem ws) mem s := by
  induction ws generalizing mem with
  | nil => exact fun _ _ => rfl
  | cons w ws ih =>
    have hrest : Set.EqOn (storeAll (store mem w.1 w.2) ws) (store mem w.1 w.2) s :=
      ih fun v hv => h v (List.mem_cons_of_mem w hv)
    exact hrest.trans (store_eqOn (h w List.mem_cons_self))

/-- Stores to words that do not overlap can all be read back. -/
theorem load_storeAll {ws : List (Word × Word)}
    (h : ws.Pairwise fun v w => Disjoint (span v.1 4) (span w.1 4)) (ha : (a, value) ∈ ws) :
    load (storeAll mem ws) a = value := by
  induction ws generalizing mem with
  | nil => exact absurd ha List.not_mem_nil
  | cons w ws ih =>
    obtain ⟨hw, hws⟩ := List.pairwise_cons.mp h
    obtain rfl | hmem := List.mem_cons.mp ha
    · have hlater : Set.EqOn (storeAll (store mem a value) ws) (store mem a value) (span a 4) :=
        storeAll_eqOn fun v hv => (hw v hv).symm
      exact (load_congr hlater).trans load_store_self
    · exact ih hws hmem

end Words

/-! ## Instructions -/

structure State where
  reg : Reg → Word
  eip : Word
  mem : ByteMemory 32

/-- A register, the memory at a displacement from a register, or the memory at an address. -/
inductive Operand
  | reg (r : Reg)
  | disp (d : Word) (base : Reg)
  | abs (a : Word)

inductive Instr
  | movl (src dst : Operand)
  | pushl (src : Operand)
  | popl (dst : Operand)
  | call (target : Operand)
  | ret

namespace State

def set (s : State) (r : Reg) (value : Word) : State := { s with reg := Function.update s.reg r value }

@[simp] theorem set_reg_self (s : State) (r : Reg) (value : Word) : (s.set r value).reg r = value := by
  simp [set]

theorem set_reg_of_ne (s : State) {r q : Reg} (value : Word) (h : q ≠ r) :
    (s.set r value).reg q = s.reg q := by
  simp [set, h]

@[simp] theorem set_mem (s : State) (r : Reg) (value : Word) : (s.set r value).mem = s.mem := rfl

def value (s : State) : Operand → Word
  | .reg r => s.reg r
  | .disp d base => load s.mem (s.reg base + d)
  | .abs a => load s.mem a

def put (s : State) (value : Word) : Operand → State
  | .reg r => s.set r value
  | .disp d base => { s with mem := store s.mem (s.reg base + d) value }
  | .abs a => { s with mem := store s.mem a value }

def push (s : State) (value : Word) : State :=
  let esp := s.reg .esp - 4
  { s.set .esp esp with mem := store s.mem esp value }

/-- The effect on registers and memory; `next` is the address of the instruction after this one. -/
def exec (s : State) (next : Word) : Instr → State
  | .movl src dst => { s.put (s.value src) dst with eip := next }
  | .pushl src => { s.push (s.value src) with eip := next }
  | .popl dst => { (s.set .esp (s.reg .esp + 4)).put (load s.mem (s.reg .esp)) dst with eip := next }
  | .call target => { s.push next with eip := s.value target }
  | .ret => { s.set .esp (s.reg .esp + 4) with eip := load s.mem (s.reg .esp) }

end State

/-- The instruction at an address, with the address of the next one. -/
abbrev Code := Word → Option (Instr × Word)

def step (code : Code) (s : State) : Option State := do
  let (i, next) ← code s.eip
  return s.exec next i

def steps (code : Code) : Nat → State → Option State
  | 0, s => some s
  | n + 1, s => do steps code n (← step code s)

theorem steps_add {code : Code} (n m : Nat) {s s' : State} (h : steps code n s = some s') :
    steps code (n + m) s = steps code m s' := by
  induction n generalizing s with
  | zero =>
    obtain rfl : s = s' := by simpa [steps] using h
    rw [Nat.zero_add]
  | succ n ih =>
    rw [Nat.add_right_comm]
    obtain ⟨s₁, hs₁, hrest⟩ := Option.bind_eq_some_iff.mp h
    simp only [steps, hs₁, Option.bind_eq_bind, Option.bind_some]
    exact ih hrest

/-- The instructions stand one after the other from `a` to `b`. -/
def Placed (code : Code) : Word → List Instr → Word → Prop
  | a, [], b => a = b
  | a, i :: is, b => ∃ next, code a = some (i, next) ∧ Placed code next is b

theorem Placed.split {code : Code} {a c : Word} {is js : List Instr} (h : Placed code a (is ++ js) c) :
    ∃ b, Placed code a is b ∧ Placed code b js c := by
  induction is generalizing a with
  | nil => exact ⟨a, rfl, h⟩
  | cons i is ih =>
    obtain ⟨next, hi, hrest⟩ := h
    obtain ⟨b, hleft, hright⟩ := ih hrest
    exact ⟨b, ⟨next, hi, hleft⟩, hright⟩

/-- One instruction at each address from `a` on. -/
def Code.ofList (a : Word) (is : List Instr) : Code := fun b =>
  is[(b - a).toNat]?.map fun i => (i, b + 1)

theorem placed_ofList (a : Word) (is : List Instr) (h : is.length < 2 ^ 32) {k n : Nat}
    (hk : k + n ≤ is.length) :
    Placed (.ofList a is) (a + BitVec.ofNat 32 k) ((is.drop k).take n) (a + BitVec.ofNat 32 (k + n)) := by
  induction n generalizing k with
  | zero => exact rfl
  | succ n ih =>
    have hsub : (a + BitVec.ofNat 32 k - a).toNat = k := by
      rw [BitVec.add_comm, BitVec.add_sub_cancel, BitVec.toNat_ofNat]
      exact Nat.mod_eq_of_lt (by omega)
    have hnext : a + BitVec.ofNat 32 k + 1 = a + BitVec.ofNat 32 (k + 1) := by
      rw [BitVec.ofNat_add, BitVec.add_assoc]
      rfl
    have hrest := ih (k := k + 1) (by omega)
    rw [List.drop_eq_getElem_cons (by omega), List.take_succ_cons]
    refine ⟨a + BitVec.ofNat 32 (k + 1), ?_, ?_⟩
    · rw [Code.ofList, hsub, hnext, List.getElem?_eq_getElem (by omega)]
      rfl
    · rwa [Nat.add_right_comm] at hrest

/-- The instruction goes on to the next one. -/
def Instr.Falls : Instr → Prop
  | .movl _ _ | .pushl _ | .popl _ => True
  | .call _ | .ret => False

/-- Straight-line code, without the instruction pointer. -/
def State.block (s : State) : List Instr → State
  | [] => s
  | i :: is => (s.exec s.eip i).block is

theorem State.exec_eip {i : Instr} (h : i.Falls) (s : State) (a : Word) :
    ({ s with eip := a } : State).exec a i = { s.exec s.eip i with eip := a } ∧
      (s.exec a i).eip = a := by
  cases i with
  | movl src dst => cases src <;> cases dst <;> exact ⟨rfl, rfl⟩
  | pushl src => cases src <;> exact ⟨rfl, rfl⟩
  | popl dst => cases dst <;> exact ⟨rfl, rfl⟩
  | call target => exact h.elim
  | ret => exact h.elim

theorem State.exec_with {i : Instr} (h : i.Falls) (s : State) (a b : Word) :
    s.exec b i = { s.exec a i with eip := b } := by
  cases i with
  | movl src dst => cases src <;> cases dst <;> rfl
  | pushl src => cases src <;> rfl
  | popl dst => cases dst <;> rfl
  | call target => exact h.elim
  | ret => exact h.elim

theorem State.block_with {is : List Instr} (h : ∀ i ∈ is, i.Falls) (s : State) (a : Word) :
    ({ s with eip := a } : State).block is = { s.block is with eip := a } := by
  induction is generalizing s with
  | nil => rfl
  | cons i is ih =>
    have hi := h i List.mem_cons_self
    have his : ∀ j ∈ is, j.Falls := fun j hj => h j (List.mem_cons_of_mem i hj)
    rw [State.block, State.block, (State.exec_eip hi s a).1, ih his]

/-- Straight-line code that is in place runs to its end. -/
theorem Placed.steps {code : Code} {is : List Instr} {s : State} {b : Word}
    (h : Placed code s.eip is b) (hfalls : ∀ i ∈ is, i.Falls) :
    steps code is.length s = some { s.block is with eip := b } := by
  induction is generalizing s with
  | nil =>
    obtain rfl : s.eip = b := h
    rfl
  | cons i is ih =>
    obtain ⟨next, hi, hrest⟩ := h
    have hfall := hfalls i List.mem_cons_self
    have hstep : step code s = some (s.exec next i) := by simp [step, hi]
    have heip : (s.exec next i).eip = next := (State.exec_eip hfall s next).2
    have his : ∀ j ∈ is, j.Falls := fun j hj => hfalls j (List.mem_cons_of_mem i hj)
    have hrun := ih (s := s.exec next i) (heip.symm ▸ hrest) his
    rw [List.length_cons, X86.steps, hstep, Option.bind_eq_bind, Option.bind_some, hrun,
      State.exec_with hfall s s.eip next, State.block_with his, State.block]

theorem State.block_append (s : State) (is js : List Instr) :
    s.block (is ++ js) = (s.block is).block js := by
  induction is generalizing s with
  | nil => rfl
  | cons i is ih => exact ih _

/-! ## Calls -/

/-- What a caller may rely on when a procedure that was entered in one state returns in another:
the registers it has to preserve, and `n` bytes of the caller's frame above the return address. -/
structure CdeclReturn (n : Nat) (entry exit : State) : Prop where
  eip : exit.eip = load entry.mem (entry.reg .esp)
  esp : exit.reg .esp = entry.reg .esp + 4
  preserved : ∀ r ∈ [Reg.ebx, .esi, .edi, .ebp], exit.reg r = entry.reg r
  frame : Set.EqOn exit.mem entry.mem (span (entry.reg .esp + 4) n)

/-! ## Registers in the fields of a record -/

section Fields

variable {off : Reg → Word} {base : Reg} {rs : List Reg} {n : Nat}

def saveRegs (off : Reg → Word) (base : Reg) (rs : List Reg) : List Instr :=
  rs.map fun r => .movl (.reg r) (.disp (off r) base)

def loadRegs (off : Reg → Word) (base : Reg) (rs : List Reg) : List Instr :=
  rs.map fun r => .movl (.disp (off r) base) (.reg r)

/-- The fields have room for a word each. -/
structure Fields (off : Reg → Word) (n : Nat) (rs : List Reg) : Prop where
  inside : ∀ r ∈ rs, (off r).toNat + 4 ≤ n
  apart : rs.Pairwise fun r q =>
    (off r).toNat + 4 ≤ (off q).toNat ∨ (off q).toNat + 4 ≤ (off r).toNat
  bound : n ≤ 2 ^ 32

theorem Fields.tail {r : Reg} (h : Fields off n (r :: rs)) : Fields off n rs :=
  ⟨fun q hq => h.inside q (List.mem_cons_of_mem r hq), (List.pairwise_cons.mp h.apart).2, h.bound⟩

theorem Fields.disjoint {r q : Reg} (h : Fields off n rs) (hr : r ∈ rs) (hq : q ∈ rs) (hne : r ≠ q)
    (a : Word) : Disjoint (span (a + off r) 4) (span (a + off q) 4) := by
  have hr' := h.inside r hr
  have hq' := h.inside q hq
  have hn := h.bound
  have hsymm : Std.Symm fun r q : Reg =>
      (off r).toNat + 4 ≤ (off q).toNat ∨ (off q).toNat + 4 ≤ (off r).toNat :=
    ⟨fun _ _ => Or.symm⟩
  obtain hle | hle := h.apart.forall hr hq hne
  · exact span_disjoint hle (by omega)
  · exact (span_disjoint hle (by omega)).symm

theorem State.block_saveRegs_reg (s : State) :
    (s.block (saveRegs off base rs)).reg = s.reg ∧ (s.block (saveRegs off base rs)).eip = s.eip := by
  induction rs generalizing s with
  | nil => exact ⟨rfl, rfl⟩
  | cons r rs ih => exact ih _

/-- Nothing outside the record is written. -/
theorem State.block_saveRegs_eqOn (h : Fields off n rs) (s : State) :
    Set.EqOn (s.block (saveRegs off base rs)).mem s.mem (span (s.reg base) n)ᶜ := by
  induction rs generalizing s with
  | nil => exact fun _ _ => rfl
  | cons r rs ih =>
    have hrest := ih h.tail (s.exec s.eip (.movl (.reg r) (.disp (off r) base)))
    have hin : span (s.reg base + off r) 4 ⊆ span (s.reg base) n :=
      span_subset (h.inside r List.mem_cons_self)
    exact hrest.trans (store_eqOn (Set.disjoint_compl_right_iff_subset.mpr hin))

/-- A word apart from the fields keeps its value. -/
theorem State.load_block_saveRegs_of_disjoint {a : Word} (s : State)
    (h : ∀ r ∈ rs, Disjoint (span (s.reg base + off r) 4) (span a 4)) :
    load (s.block (saveRegs off base rs)).mem a = load s.mem a := by
  induction rs generalizing s with
  | nil => rfl
  | cons r rs ih =>
    have hrest := ih (s.exec s.eip (.movl (.reg r) (.disp (off r) base)))
      fun q hq => h q (List.mem_cons_of_mem r hq)
    exact hrest.trans (load_store_of_disjoint (h r List.mem_cons_self))

theorem State.load_block_saveRegs (h : Fields off n rs) (s : State) {r : Reg} (hr : r ∈ rs) :
    load (s.block (saveRegs off base rs)).mem (s.reg base + off r) = s.reg r := by
  induction rs generalizing s with
  | nil => exact absurd hr List.not_mem_nil
  | cons q rs ih =>
    by_cases hmem : r ∈ rs
    · exact ih h.tail (s.exec s.eip (.movl (.reg q) (.disp (off q) base))) hmem
    · obtain rfl : r = q := by simpa [hmem] using hr
      let next := s.exec s.eip (.movl (.reg r) (.disp (off r) base))
      have hlater : load (next.block (saveRegs off base rs)).mem (s.reg base + off r) =
          load next.mem (s.reg base + off r) :=
        next.load_block_saveRegs_of_disjoint fun q hq =>
          h.disjoint (List.mem_cons_of_mem r hq) List.mem_cons_self (fun he => hmem (he ▸ hq))
            (s.reg base)
      exact hlater.trans load_store_self

theorem State.block_loadRegs (h : base ∉ rs) (hrs : rs.Nodup) (s : State) :
    (s.block (loadRegs off base rs)).mem = s.mem ∧ (s.block (loadRegs off base rs)).eip = s.eip ∧
      ∀ r, (s.block (loadRegs off base rs)).reg r =
        if r ∈ rs then load s.mem (s.reg base + off r) else s.reg r := by
  induction rs generalizing s with
  | nil => exact ⟨rfl, rfl, fun r => by simp [loadRegs, State.block]⟩
  | cons q rs ih =>
    obtain ⟨hne, hbase⟩ := List.ne_and_not_mem_of_not_mem_cons h
    obtain ⟨hq, hnodup⟩ := List.nodup_cons.mp hrs
    let next := s.exec s.eip (.movl (.disp (off q) base) (.reg q))
    have hreg : next.reg = Function.update s.reg q (load s.mem (s.reg base + off q)) := rfl
    have hkeep : next.reg base = s.reg base := by rw [hreg, Function.update_of_ne hne]
    obtain ⟨hmem, heip, hregs⟩ := ih hbase hnodup next
    refine ⟨hmem, heip, fun r => (hregs r).trans ?_⟩
    rw [hkeep]
    by_cases hr : r ∈ rs
    · rw [if_pos hr, if_pos (List.mem_cons_of_mem q hr)]
      rfl
    · by_cases he : r = q
      · subst he
        rw [if_neg hr, if_pos List.mem_cons_self, hreg, Function.update_self]
      · rw [if_neg hr, if_neg (by simp [hr, he]), hreg, Function.update_of_ne he]

end Fields

end Framework.X86

import Nachos.Machine.Isa

/-!
# System calls

The system-call branch of `ExceptionHandler`. The calls of the host are parameters. What a local
variable of the kernel holds before it is assigned, and what lies behind it, is the parameter
`stack`; the parameter `vir` is that of the page-fault handler, for each of the accesses of a call.
-/

namespace Nachos

abbrev scHalt : Word := 0

abbrev scExec : Word := 2

abbrev scJoin : Word := 3

abbrev scRead : Word := 7

abbrev scWrite : Word := 8

abbrev scAdd : Word := 42

/-- The host, as far as the kernel calls it. -/
structure HostSystem where
  write (id : Word) (buffer : Nat → Byte) (size : Word) : Word
  /-- The bytes that a `read` of the descriptor delivers. -/
  input (id size : Word) : List Byte
  /-- The addresses that the process of the simulator may write to. -/
  accessible (pointer : Word) : Bool
  waitpid (id : Word) : Word

/-- `read` of the host: the bytes go to the memory of the process, and it fails with `EFAULT`
where that is not accessible. -/
def HostSystem.read (host : HostSystem) (id buffer size : Word) : Word :=
  let data := host.input id size
  if (List.range data.length).all fun i => host.accessible (buffer + BitVec.ofNat 32 i) then
    BitVec.ofNat 32 data.length
  else -1

def sysAdd (op1 op2 : Word) : Word := op1 + op2

def sysRead (host : HostSystem) (buffer size id : Word) : Word := host.read id buffer size

def sysJoin (host : HostSystem) (id : Word) : Word := host.waitpid id

/-- The comparison binds more tightly than the assignment, so in the parent `pid` is 0. The child
does not return. -/
def sysExec : Word := -1

namespace Vm

variable {m m' : Vm}

/-- The capacity of `buffer` in `SysWrite`. -/
abbrev bufferSize : Nat := 128

/-- The loop of `SysWrite`, with the places that are left in `buffer`: the machine, the number of
turns and the buffer. A store behind the buffer is undefined. -/
def copyIn (vir : Nat → Int) : (left : Nat) → Vm → (buf : Word) → (buffer : Nat → Byte) →
    Option (Vm × Nat × (Nat → Byte))
  | 0, _, _, _ => none
  | left + 1, m, buf, buffer => do
    let count := bufferSize - (left + 1)
    let (m₁, ch) ← m.readMem buf 1 (vir count)
    let buffer₁ := Function.update buffer count (ch.setWidth 8)
    if ch ≠ 0 then copyIn vir left m₁ (buf + 1) buffer₁
    else some (m₁, count + 1, buffer₁)

def sysWrite (host : HostSystem) (stack : Nat → Byte) (vir : Nat → Int) (m : Vm) (buf size id : Word) :
    Option (Vm × Word) := do
  let (m₁, _, buffer) ← copyIn vir bufferSize m buf stack
  some (m₁, host.write id buffer size)

/-- `incrementPC`. -/
def incrementPC (m : Vm) : Vm :=
  let m₁ := m.writeReg prevPCReg (m.registers pcReg)
  let m₂ := m₁.writeReg pcReg (m₁.registers nextPCReg)
  m₂.writeReg nextPCReg (m₂.registers nextPCReg + 4)

/-- The lines that `Add` has in its place. -/
def returnPoint (m : Vm) : Vm :=
  let m₁ := m.writeReg prevPCReg (m.registers pcReg)
  let m₂ := m₁.writeReg pcReg (m₁.registers pcReg + 4)
  m₂.writeReg nextPCReg (m₂.registers pcReg + 4)

/-- `ExceptionHandler(SyscallException)`. It does not return from `Halt` and from calls it does
not know. -/
def syscall (host : HostSystem) (stack : Nat → Byte) (vir : Nat → Int) (m : Vm) : Option Vm :=
  let type := m.registers 2
  if type = scHalt then none
  else if type = scAdd then
    some (m.writeReg 2 (sysAdd (m.registers 4) (m.registers 5))).returnPoint
  else if type = scWrite then do
    let (m₁, result) ← sysWrite host stack vir m (m.registers 4) (m.registers 5) (m.registers 6)
    some (m₁.writeReg 2 result).incrementPC
  else if type = scRead then
    some (m.writeReg 2 (sysRead host (m.registers 4) (m.registers 5) (m.registers 6))).incrementPC
  else if type = scExec then some (m.writeReg 2 sysExec).incrementPC
  else if type = scJoin then some (m.writeReg 2 (sysJoin host (m.registers 4))).incrementPC
  else none

/-! ## Where the program goes on -/

/-- After the call the program goes on as after any other instruction, and of the general
registers only register 2 is new. A load that was pending at the trap has been finished. -/
structure Resumes (m m' : Vm) : Prop where
  prevPC : m'.registers prevPCReg = m.registers pcReg
  pc : m'.registers pcReg = m.registers nextPCReg
  nextPC : m'.registers nextPCReg = m.registers nextPCReg + 4
  general : ∀ k < 32, k ≠ 2 → m'.registers k = commit m.registers k

/-- The registers below `LoadReg` are those of the trap, but for register 2. -/
def Kept (m n : Vm) : Prop := ∀ k < loadReg, k ≠ 2 → n.registers k = commit m.registers k

theorem Kept.writeReg {n : Vm} (h : Kept m n) (value : Word) : Kept m (n.writeReg 2 value) := by
  intro k hk hne
  rw [← h k hk hne]
  exact Function.update_of_ne hne _ _

private theorem kept_raiseException (m : Vm) (v : Word) : Kept m (m.raiseException v) :=
  fun _ hk _ => raiseException_register m v hk

private theorem commit_special {r : Nat → Word} (h : (r loadReg).toNat < 32) {k : Nat} (hk : 32 ≤ k)
    (hk' : k < loadReg) : commit r k = r k := commit_of_ne (by omega) hk' (by omega)

theorem Kept.incrementPC {n : Vm} (hpending : (m.registers loadReg).toNat < 32) (h : Kept m n) :
    Resumes m n.incrementPC := by
  have hpc : n.registers pcReg = m.registers pcReg :=
    (h pcReg (by decide) (by decide)).trans (commit_special hpending (by decide) (by decide))
  have hnext : n.registers nextPCReg = m.registers nextPCReg :=
    (h nextPCReg (by decide) (by decide)).trans (commit_special hpending (by decide) (by decide))
  refine ⟨hpc, hnext, congrArg (· + 4) hnext, ?_⟩
  intro k hk hne
  rw [← h k (Nat.lt_trans hk (by decide)) hne]
  have hother : k ≠ prevPCReg ∧ k ≠ pcReg ∧ k ≠ nextPCReg := by
    simp only [prevPCReg, pcReg, nextPCReg]
    omega
  show Function.update (Function.update (Function.update n.registers prevPCReg _) pcReg _)
    nextPCReg _ k = _
  rw [Function.update_of_ne hother.2.2, Function.update_of_ne hother.2.1,
    Function.update_of_ne hother.1]

/-- `Add` goes on at `PC + 4`, whatever `NextPCReg` says. -/
theorem Kept.returnPoint {n : Vm} (hpending : (m.registers loadReg).toNat < 32) (h : Kept m n) :
    Resumes m n.returnPoint ↔ m.registers nextPCReg = m.registers pcReg + 4 := by
  have hpc : n.registers pcReg = m.registers pcReg :=
    (h pcReg (by decide) (by decide)).trans (commit_special hpending (by decide) (by decide))
  have hnext : n.registers nextPCReg = m.registers nextPCReg :=
    (h nextPCReg (by decide) (by decide)).trans (commit_special hpending (by decide) (by decide))
  constructor
  · intro hres
    have hat : n.returnPoint.registers pcReg = n.registers pcReg + 4 := rfl
    rw [← hres.pc, hat, hpc]
  · intro heq
    have hsame : n.returnPoint = n.incrementPC := by
      show ((n.writeReg prevPCReg _).writeReg pcReg (n.registers pcReg + 4)).writeReg nextPCReg
          (n.registers pcReg + 4 + 4) =
        ((n.writeReg prevPCReg _).writeReg pcReg (n.registers nextPCReg)).writeReg nextPCReg
          (n.registers nextPCReg + 4)
      rw [hpc, hnext, heq]
    rw [hsame]
    exact h.incrementPC hpending

private theorem copyIn_kept {vir : Nat → Int} {left turns : Nat} {buf : Word}
    {buffer buffer' : Nat → Byte} (h : copyIn vir left m buf buffer = some (m', turns, buffer'))
    (hidle : m.Idle) :
    ∀ k < loadReg, m'.registers k = m.registers k := by
  induction left generalizing m buf buffer with
  | zero => cases h
  | succ left ih =>
    simp only [copyIn, Option.bind_eq_bind] at h
    obtain ⟨⟨m₁, ch⟩, hread, h⟩ := Option.bind_eq_some_iff.mp h
    obtain ⟨hidle₁, hkept⟩ := hidle.readMem hread
    split at h
    · intro k hk
      rw [ih h hidle₁ k hk, hkept k hk]
    · cases h
      exact hkept

def userCalls : List Word := [scAdd, scWrite, scRead, scExec, scJoin]

section Calls

variable {host : HostSystem} {stack : Nat → Byte} {vir : Nat → Int}

theorem syscall_add (h : m.registers 2 = scAdd) : m.syscall host stack vir =
    some (m.writeReg 2 (sysAdd (m.registers 4) (m.registers 5))).returnPoint := by
  unfold syscall
  rw [h, if_neg (by decide), if_pos rfl]

private theorem syscall_write (h : m.registers 2 = scWrite) : m.syscall host stack vir =
    (sysWrite host stack vir m (m.registers 4) (m.registers 5) (m.registers 6)).map
      fun r => (r.1.writeReg 2 r.2).incrementPC := by
  unfold syscall
  rw [h, if_neg (by decide), if_neg (by decide), if_pos rfl]
  cases sysWrite host stack vir m (m.registers 4) (m.registers 5) (m.registers 6) with
  | none => rfl
  | some r => rfl

theorem syscall_read (h : m.registers 2 = scRead) : m.syscall host stack vir =
    some (m.writeReg 2
      (sysRead host (m.registers 4) (m.registers 5) (m.registers 6))).incrementPC := by
  unfold syscall
  rw [h, if_neg (by decide), if_neg (by decide), if_neg (by decide), if_pos rfl]

theorem syscall_exec (h : m.registers 2 = scExec) :
    m.syscall host stack vir = some (m.writeReg 2 sysExec).incrementPC := by
  unfold syscall
  rw [h, if_neg (by decide), if_neg (by decide), if_neg (by decide), if_neg (by decide), if_pos rfl]

theorem syscall_join (h : m.registers 2 = scJoin) : m.syscall host stack vir =
    some (m.writeReg 2 (sysJoin host (m.registers 4))).incrementPC := by
  unfold syscall
  rw [h, if_neg (by decide), if_neg (by decide), if_neg (by decide), if_neg (by decide),
    if_neg (by decide), if_pos rfl]

private theorem Kept.resumes_iff {n : Vm} {p : Prop} (hpending : (m.registers loadReg).toNat < 32)
    (h : Kept m n) {type : Word} (htype : type ≠ scAdd) :
    Resumes m n.incrementPC ↔ type ≠ scAdd ∨ p :=
  iff_of_true (h.incrementPC hpending) (.inl htype)

/-- Every call but `Add` resumes the program where it was going; `Add` does if that is the
instruction behind the call. -/
theorem syscall_resumes (host : HostSystem) (stack : Nat → Byte) (vir : Nat → Int) {m : Vm}
    (hpending : (m.registers loadReg).toNat < 32)
    (hcall : (m.raiseException 0).registers 2 ∈ userCalls) :
    ((m.raiseException 0).registers 2 ≠ scWrite →
      ((m.raiseException 0).syscall host stack vir).isSome = true) ∧
    ∀ m', (m.raiseException 0).syscall host stack vir = some m' →
      (Resumes m m' ↔ (m.raiseException 0).registers 2 ≠ scAdd ∨
        m.registers nextPCReg = m.registers pcReg + 4) := by
  have hkept := kept_raiseException m 0
  simp only [userCalls, List.mem_cons, List.not_mem_nil, or_false] at hcall
  rcases hcall with h | h | h | h | h
  · rw [syscall_add h]
    refine ⟨fun _ => rfl, ?_⟩
    rintro m' ⟨⟩
    rw [(hkept.writeReg _).returnPoint hpending, h]
    exact (or_iff_right (fun hne => hne rfl)).symm
  · rw [syscall_write h]
    refine ⟨fun hne => absurd h hne, ?_⟩
    intro m' hm'
    obtain ⟨⟨n, value⟩, hwrite, rfl⟩ := Option.map_eq_some_iff.mp hm'
    obtain ⟨⟨n', turns, buffer⟩, hcopy, hresult⟩ := Option.bind_eq_some_iff.mp hwrite
    obtain ⟨rfl, rfl⟩ := Prod.mk.inj (Option.some.inj hresult)
    have hregs := copyIn_kept hcopy (idle_raiseException m 0)
    have hkept' : Kept m n' := fun k hk hne => (hregs k hk).trans (hkept k hk hne)
    rw [h]
    exact (hkept'.writeReg _).resumes_iff hpending (by decide)
  · rw [syscall_read h, h]
    refine ⟨fun _ => rfl, ?_⟩
    rintro m' ⟨⟩
    exact (hkept.writeReg _).resumes_iff hpending (by decide)
  · rw [syscall_exec h, h]
    refine ⟨fun _ => rfl, ?_⟩
    rintro m' ⟨⟩
    exact (hkept.writeReg _).resumes_iff hpending (by decide)
  · rw [syscall_join h, h]
    refine ⟨fun _ => rfl, ?_⟩
    rintro m' ⟨⟩
    exact (hkept.writeReg _).resumes_iff hpending (by decide)

end Calls

/-- A call in the delay slot of a branch to 200, behind a load to register 8. -/
def delaySlot (call : Word) : Vm :=
  { Vm.new (fun _ => none) with
    registers := fun k =>
      if k = 2 then call else if k = pcReg then 100 else if k = nextPCReg then 200
      else if k = loadReg then 8 else if k = loadValueReg then 7 else 0 }

/-- A host that takes what it is given and has the bytes `data` to deliver. Its processes do not
use the lowest addresses. -/
def plainHost (data : List Byte) : HostSystem where
  write _ _ size := size
  input _ size := data.take size.toNat
  accessible pointer := decide (65536 ≤ pointer.toNat)
  waitpid id := id

theorem syscall_resumes_join : ∃ m', ((delaySlot scJoin).raiseException 0).syscall (plainHost [])
      (fun _ => 0) (fun _ => 0) = some m' ∧ Resumes (delaySlot scJoin) m' := by
  have hcall : ((delaySlot scJoin).raiseException 0).registers 2 ∈ userCalls := by decide
  obtain ⟨hreturns, hresumes⟩ := syscall_resumes (plainHost []) (fun _ => 0) (fun _ => 0)
    (m := delaySlot scJoin) (by decide) hcall
  obtain ⟨m', hm'⟩ := Option.isSome_iff_exists.mp (hreturns (by decide))
  exact ⟨m', hm', (hresumes m' hm').mpr (.inl (by decide))⟩

/-- `Add` in a delay slot: the branch is lost. -/
theorem syscall_add_delaySlot : ∃ m', ((delaySlot scAdd).raiseException 0).syscall (plainHost [])
      (fun _ => 0) (fun _ => 0) = some m' ∧ m'.registers pcReg = 104 ∧
    (delaySlot scAdd).registers nextPCReg = 200 ∧ ¬ Resumes (delaySlot scAdd) m' := by
  refine ⟨_, rfl, rfl, rfl, fun h => ?_⟩
  exact absurd h.pc (by decide)

end Vm

end Nachos

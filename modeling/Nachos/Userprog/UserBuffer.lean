import Nachos.Userprog.Syscall

/-!
# The buffers of `Write` and `Read`

A program gives the kernel a virtual address and a size. `SysWrite` copies from that address up to
a zero byte into a buffer of its own and hands the buffer to the host, with the size. `SysRead`
hands the address itself to the host.
-/

namespace Nachos

open Framework

namespace Vm

variable {m m' m₁ : Vm} {vir : Nat → Int} {buf : Word} {c n : Nat} {bytes : List Byte}

/-! ## The bytes in a range -/

/-- The bytes that the program finds in a range of its memory, with the number of accesses that
came before. -/
def readBytes (vir : Nat → Int) (c : Nat) : Nat → Vm → Word → Option (Vm × List Byte)
  | 0, m, _ => some (m, [])
  | n + 1, m, buf => do
    let (m₁, ch) ← m.readMem buf 1 (vir c)
    let (m₂, rest) ← readBytes vir (c + 1) n m₁ (buf + 1)
    some (m₂, ch.setWidth 8 :: rest)

private theorem readBytes_succ (h : readBytes vir c (n + 1) m buf = some (m', bytes)) :
    ∃ m₁ ch rest, m.readMem buf 1 (vir c) = some (m₁, ch) ∧
      readBytes vir (c + 1) n m₁ (buf + 1) = some (m', rest) ∧ bytes = ch.setWidth 8 :: rest := by
  simp only [readBytes, Option.bind_eq_bind] at h
  obtain ⟨⟨m₁, ch⟩, hread, h⟩ := Option.bind_eq_some_iff.mp h
  obtain ⟨⟨m₂, rest⟩, hrest, h⟩ := Option.bind_eq_some_iff.mp h
  cases h
  exact ⟨m₁, ch, rest, hread, hrest, rfl⟩

private theorem length_readBytes (h : readBytes vir c n m buf = some (m', bytes)) :
    bytes.length = n := by
  induction n generalizing c m buf bytes with
  | zero =>
    cases h
    rfl
  | succ n ih =>
    obtain ⟨m₁, ch, rest, -, hrest, rfl⟩ := readBytes_succ h
    rw [List.length_cons, ih hrest]

private theorem readBytes_present (h : ∀ i < n, m.Present (buf + BitVec.ofNat 32 i)) :
    ∃ m', readBytes vir c n m buf =
      some (m', (List.range n).map fun i => m.user (buf + BitVec.ofNat 32 i)) := by
  induction n generalizing c m buf with
  | zero => exact ⟨m, rfl⟩
  | succ n ih =>
    have hfirst := h 0 (Nat.succ_pos n)
    rw [BitVec.add_zero] at hfirst
    have hal : Aligned buf 1 := by simp [Aligned]
    obtain ⟨m₁, hread, hpages, hmem, -⟩ := readMem_user hfirst hal (.inl rfl)
    have huser : m₁.user = m.user := hpages.user_eq hmem
    have hrest : ∀ i < n, m₁.Present (buf + 1 + BitVec.ofNat 32 i) := by
      intro i hi
      rw [ByteMemory.add_ofNat_succ, hpages.resident]
      exact h (i + 1) (Nat.succ_lt_succ hi)
    obtain ⟨m', hbytes⟩ := ih (c := c + 1) hrest
    have hbyte : ∀ b : Byte, (b.signExtend 32).setWidth 8 = b := by decide +kernel
    refine ⟨m', ?_⟩
    have haccess : m.readMem buf 1 (vir c) = some (m₁, userValue m.user buf 1) :=
      memory_readMem (vir c) hread
    simp only [readBytes, haccess, hbytes, Option.bind_eq_bind, Option.bind_some]
    rw [List.range_succ_eq_map, List.map_cons, List.map_map, userValue, hbyte,
      ByteMemory.ofNat_compose_one, BitVec.add_zero, huser]
    simp only [Function.comp_def, Nat.succ_eq_add_one, ByteMemory.add_ofNat_succ]

private theorem readMem_byte {addr ch : Word} {v : Int} (h : m.readMem addr 1 v = some (m', ch)) :
    ch = 0 ↔ ch.setWidth 8 = 0 := by
  obtain ⟨⟨m₁, physAddr⟩, -, h⟩ := Option.bind_eq_some_iff.mp h
  obtain ⟨value, hvalue, h⟩ := Option.bind_eq_some_iff.mp h
  cases h
  have hbyte : (m'.mainMemory physAddr).signExtend 32 = ch := Option.some.inj hvalue
  rw [← hbyte]
  generalize m'.mainMemory physAddr = b
  revert b
  decide +kernel

/-! ## The copy of `SysWrite` -/

variable {left turns : Nat} {buffer buffer' : Nat → Byte} {text rest : List Byte}

private theorem copyIn_succ (h : copyIn vir (left + 1) m buf buffer = some (m', turns, buffer')) :
    ∃ m₁ ch, m.readMem buf 1 (vir (bufferSize - (left + 1))) = some (m₁, ch) ∧
      (ch ≠ 0 ∧ copyIn vir left m₁ (buf + 1)
          (Function.update buffer (bufferSize - (left + 1)) (ch.setWidth 8)) =
          some (m', turns, buffer') ∨
        ch = 0 ∧ turns = bufferSize - (left + 1) + 1 ∧
          buffer' = Function.update buffer (bufferSize - (left + 1)) (ch.setWidth 8)) := by
  simp only [copyIn, Option.bind_eq_bind] at h
  obtain ⟨⟨m₁, ch⟩, hread, h⟩ := Option.bind_eq_some_iff.mp h
  refine ⟨m₁, ch, hread, ?_⟩
  split at h
  next hne => exact .inl ⟨hne, h⟩
  next heq =>
    cases h
    exact .inr ⟨not_not.mp heq, rfl, rfl⟩

private theorem copyIn_untouched (hleft : left ≤ bufferSize)
    (h : copyIn vir left m buf buffer = some (m', turns, buffer')) :
    bufferSize - left < turns ∧ turns ≤ bufferSize ∧
      ∀ i, turns ≤ i ∨ i < bufferSize - left → buffer' i = buffer i := by
  induction left generalizing m buf buffer with
  | zero => cases h
  | succ left ih =>
    obtain ⟨m₁, ch, -, ⟨-, hloop⟩ | ⟨-, rfl, rfl⟩⟩ := copyIn_succ h
    · obtain ⟨hlt, hle, hsame⟩ := ih (by omega) hloop
      refine ⟨by omega, hle, fun i hi => ?_⟩
      rw [hsame i (by omega), Function.update_of_ne (by omega)]
    · refine ⟨by omega, by omega, fun i hi => ?_⟩
      rw [Function.update_of_ne (by omega)]

private theorem copyIn_text (hleft : left ≤ bufferSize)
    (h : copyIn vir left m buf buffer = some (m', turns, buffer'))
    (hbytes : readBytes vir (bufferSize - left) n m buf = some (m₁, bytes))
    (hn : turns ≤ bufferSize - left + n) :
    ∃ text rest, bytes = text ++ 0 :: rest ∧ 0 ∉ text ∧
      bufferSize - left + text.length + 1 = turns := by
  induction left generalizing m buf buffer bytes n with
  | zero => cases h
  | succ left ih =>
    obtain ⟨hlt, -, -⟩ := copyIn_untouched hleft h
    obtain ⟨k, rfl⟩ : ∃ k, n = k + 1 := ⟨n - 1, by omega⟩
    obtain ⟨m₂, ch, hread, hcases⟩ := copyIn_succ h
    obtain ⟨m₃, ch', rest, hread', hrest, rfl⟩ := readBytes_succ hbytes
    obtain ⟨rfl, rfl⟩ : m₂ = m₃ ∧ ch = ch' := by
      rw [hread] at hread'
      exact Prod.mk.inj (Option.some.inj hread')
    have hbyte := readMem_byte hread
    have hcount : bufferSize - (left + 1) + 1 = bufferSize - left := by omega
    rw [hcount] at hrest
    rcases hcases with ⟨hne, hloop⟩ | ⟨heq, hturns, -⟩
    · obtain ⟨text, rest', rfl, hzero, hlen⟩ := ih (by omega) hloop hrest (by omega)
      refine ⟨ch.setWidth 8 :: text, rest', rfl, ?_, by rw [List.length_cons]; omega⟩
      rw [List.mem_cons, not_or]
      exact ⟨fun h => hne (hbyte.mpr h.symm), hzero⟩
    · exact ⟨[], rest, by rw [hbyte.mp heq]; rfl, List.not_mem_nil, by rw [hturns]; rfl⟩

private theorem copyIn_of_text (buffer : Nat → Byte) (hleft : left ≤ bufferSize) (htext : 0 ∉ text)
    (hroom : text.length < left)
    (hbytes : readBytes vir (bufferSize - left) (text.length + 1) m buf = some (m₁, text ++ [0])) :
    ∃ buffer', copyIn vir left m buf buffer =
        some (m₁, bufferSize - left + text.length + 1, buffer') ∧
      ∀ i < text.length + 1, buffer' (bufferSize - left + i) = (text ++ [0]).getD i 0 := by
  induction text generalizing left m buf buffer with
  | nil =>
    obtain ⟨left, rfl⟩ : ∃ k, left = k + 1 := ⟨left - 1, by omega⟩
    obtain ⟨m₂, ch, rest, hread, hrest, hcons⟩ := readBytes_succ hbytes
    obtain ⟨hch, -⟩ := List.cons.inj hcons
    cases hrest
    have hzero : ch = 0 := (readMem_byte hread).mpr hch.symm
    refine ⟨Function.update buffer (bufferSize - (left + 1)) 0, ?_, fun i hi => ?_⟩
    · simp only [copyIn, hread, Option.bind_eq_bind, Option.bind_some, hzero]
      rfl
    · obtain rfl : i = 0 := by simpa using hi
      exact Function.update_self _ _ _
  | cons b text ih =>
    obtain ⟨left, rfl⟩ : ∃ k, left = k + 1 := ⟨left - 1, by omega⟩
    obtain ⟨m₂, ch, rest, hread, hrest, hcons⟩ := readBytes_succ hbytes
    obtain ⟨rfl, rfl⟩ := List.cons.inj hcons
    obtain ⟨hb, htext⟩ := not_or.mp (mt List.mem_cons.mpr htext)
    have hne : ch ≠ 0 := fun h => hb ((readMem_byte hread).mp h).symm
    have hcount : bufferSize - (left + 1) + 1 = bufferSize - left := by omega
    rw [hcount] at hrest
    have hloop : ∃ buffer', copyIn vir left m₂ (buf + 1)
        (Function.update buffer (bufferSize - (left + 1)) (ch.setWidth 8)) =
          some (m₁, bufferSize - left + text.length + 1, buffer') ∧
        ∀ i < text.length + 1, buffer' (bufferSize - left + i) = (text ++ [0]).getD i 0 :=
      ih _ (by omega) htext (by simpa using hroom) hrest
    obtain ⟨buffer', hcopy, hbuffer⟩ := hloop
    refine ⟨buffer', ?_, fun i hi => ?_⟩
    · simp only [copyIn, hread, Option.bind_eq_bind, Option.bind_some, if_pos hne, hcopy,
        List.length_cons, Option.some.injEq, Prod.mk.injEq, true_and, and_true]
      omega
    · cases i with
      | zero =>
        -- the turns that follow do not come back to this place
        rw [Nat.add_zero, (copyIn_untouched (by omega) hcopy).2.2 _ (.inr (by omega)),
          Function.update_self]
        rfl
      | succ i =>
        have hindex : bufferSize - (left + 1) + (i + 1) = bufferSize - left + i := by omega
        rw [hindex, hbuffer i (by simpa using hi)]
        rfl

/-! ## `Write` -/

private theorem byte_ne_succ : ∀ b : Byte, b ≠ b + 1 := by
  decide +kernel

/-- `SysWrite` passes the given bytes to the host, and reads no byte behind them. -/
def Writes (stack : Nat → Byte) (vir : Nat → Int) (m : Vm) (buf size id : Word)
    (bytes : List Byte) : Prop :=
  ∃ m' turns buffer, copyIn vir bufferSize m buf stack = some (m', turns, buffer) ∧
    turns ≤ size.toNat ∧ (List.range size.toNat).map buffer = bytes ∧
    ∀ host, sysWrite host stack vir m buf size id = some (m', host.write id buffer size)

/-- `Write` passes the bytes of the program exactly when they are a text with its terminator that
fits into the buffer. -/
theorem write_exact {vir : Nat → Int} {m m₁ : Vm} {buf size id : Word} {bytes : List Byte}
    (hbytes : readBytes vir 0 size.toNat m buf = some (m₁, bytes)) :
    (∀ stack, Writes stack vir m buf size id bytes) ↔
      ∃ text, 0 ∉ text ∧ bytes = text ++ [0] ∧ bytes.length ≤ bufferSize := by
  have hlen := length_readBytes hbytes
  constructor
  · intro h
    -- a buffer that is wrong wherever nothing is stored
    obtain ⟨m', turns, buffer, hcopy, hturns, hbuffer, -⟩ := h fun i => bytes.getD i 0 + 1
    obtain ⟨hpos, hmax, huntouched⟩ := copyIn_untouched (Nat.le_refl _) hcopy
    rw [← Nat.sub_self bufferSize] at hbytes
    obtain ⟨text, rest, rfl, hzero, hcount⟩ :=
      copyIn_text (Nat.le_refl _) hcopy hbytes (by rw [Nat.sub_self, Nat.zero_add]; exact hturns)
    rw [List.length_append, List.length_cons] at hlen
    cases rest with
    | nil =>
      refine ⟨text, hzero, rfl, ?_⟩
      rw [List.length_append, List.length_singleton]
      omega
    | cons b rest =>
      rw [List.length_cons] at hlen
      have hlt : turns < size.toNat := by omega
      have hpassed := congrArg (fun l => l.getD turns 0) hbuffer
      simp only [List.getD_eq_getElem?_getD, List.getElem?_map, List.getElem?_range hlt,
        Option.map_some, Option.getD_some] at hpassed
      have hstack := huntouched turns (.inl (Nat.le_refl _))
      simp only [List.getD_eq_getElem?_getD] at hstack
      rw [hpassed] at hstack
      exact absurd hstack (byte_ne_succ _)
  · rintro ⟨text, hzero, rfl, hroom⟩ stack
    rw [List.length_append, List.length_singleton] at hlen hroom
    rw [← hlen, ← Nat.sub_self bufferSize] at hbytes
    obtain ⟨buffer, hcopy, hbuffer⟩ :=
      copyIn_of_text stack (Nat.le_refl _) hzero hroom hbytes
    rw [Nat.sub_self, Nat.zero_add] at hcopy
    refine ⟨m₁, text.length + 1, buffer, hcopy, by omega, ?_, fun host => ?_⟩
    · rw [← hlen]
      apply List.ext_getElem
      · simp
      · intro i hi hi'
        rw [List.length_map, List.length_range] at hi
        have hbyte := hbuffer i hi
        rw [Nat.sub_self, Nat.zero_add, List.getD_eq_getElem _ _ hi'] at hbyte
        rw [List.getElem_map, List.getElem_range, hbyte]
    · simp only [sysWrite, hcopy, Option.bind_eq_bind, Option.bind_some]

def memoryOf (bytes : List Byte) : Vm := { loadProgram with mainMemory := fun a => bytes.getD a 0 }

private theorem memoryOf_present (bytes : List Byte) {n : Nat} (hn : n ≤ pageSize) :
    ∀ i < n, (memoryOf bytes).Present (0 + BitVec.ofNat 32 i) := by
  intro i hi
  have hpage : (0 + BitVec.ofNat 32 i : Word).toNat / pageSize = 0 := by
    show (0#32 + BitVec.ofNat 32 i).toNat / pageSize = 0
    rw [BitVec.zero_add, BitVec.toNat_ofNat]
    simp only [pageSize] at *
    omega
  rw [Present, hpage]
  rfl

theorem write_exact_text : ∃ m₁, readBytes (fun _ => 0) 0 3 (memoryOf [72, 105, 0]) 0 =
      some (m₁, [72, 105, 0]) ∧
    ∀ stack, Writes stack (fun _ => 0) (memoryOf [72, 105, 0]) 0 3 1 [72, 105, 0] := by
  have hmapped : ∃ m₁, readBytes (fun _ => 0) 0 (3 : Word).toNat (memoryOf [72, 105, 0]) 0 =
      some (m₁, [72, 105, 0]) := readBytes_present (memoryOf_present [72, 105, 0] (n := 3) (by decide))
  obtain ⟨m₁, hbytes⟩ := hmapped
  exact ⟨m₁, hbytes, (write_exact hbytes).mpr ⟨[72, 105], by decide, rfl, by decide⟩⟩

/-- Three bytes with a zero between them: the last one comes from the stack. -/
theorem write_zero_inside : ∃ m₁, readBytes (fun _ => 0) 0 3 (memoryOf [65, 0, 66]) 0 =
      some (m₁, [65, 0, 66]) ∧
    ¬ Writes (fun _ => 7) (fun _ => 0) (memoryOf [65, 0, 66]) 0 3 1 [65, 0, 66] := by
  have hmapped : ∃ m₁, readBytes (fun _ => 0) 0 3 (memoryOf [65, 0, 66]) 0 =
      some (m₁, [65, 0, 66]) := readBytes_present (memoryOf_present [65, 0, 66] (by decide))
  obtain ⟨m₁, hbytes⟩ := hmapped
  refine ⟨m₁, hbytes, ?_⟩
  rintro ⟨m', turns, buffer, hcopy, -, hpassed, -⟩
  have hloop : (copyIn (fun _ => 0) bufferSize (memoryOf [65, 0, 66]) 0 fun _ => 7).map
      (fun r => (List.range 3).map r.2.2) = some [65, 0, 7] := by decide +kernel
  rw [hcopy] at hloop
  exact absurd (hpassed.symm.trans (Option.some.inj hloop)) (by decide)

/-! ## The end of the buffer -/

/-- The places of `buffer` that the loop of `SysWrite` stores into, from the turn with the given
`count` on. `count` is compared after the store and before it is incremented. -/
def stores (vir : Nat → Int) (m : Vm) (buf : Word) (count : Nat) : List Nat :=
  match m.readMem buf 1 (vir count) with
  -- the exception ends the simulation
  | none => []
  | some (m₁, ch) =>
    count :: if ch ≠ 0 ∧ count ≤ 127 then stores vir m₁ (buf + 1) (count + 1) else []
termination_by 128 - count

private theorem stores_none {count : Nat} (h : m.readMem buf 1 (vir count) = none) :
    stores vir m buf count = [] := by
  rw [stores, h]

private theorem stores_some {count : Nat} {ch : Word}
    (h : m.readMem buf 1 (vir count) = some (m₁, ch)) :
    stores vir m buf count =
      count :: if ch ≠ 0 ∧ count ≤ 127 then stores vir m₁ (buf + 1) (count + 1) else [] := by
  rw [stores, h]

private theorem stores_le {count i : Nat} (hcount : count ≤ bufferSize)
    (hi : i ∈ stores vir m buf count) :
    i ≤ bufferSize := by
  have hsize : bufferSize = 128 := rfl
  induction hd : bufferSize - count generalizing m buf count with
  | zero =>
    cases hread : m.readMem buf 1 (vir count) with
    | none =>
      rw [stores_none hread] at hi
      cases hi
    | some r =>
      rw [stores_some hread, if_neg (by omega), List.mem_singleton] at hi
      omega
  | succ d ih =>
    cases hread : m.readMem buf 1 (vir count) with
    | none =>
      rw [stores_none hread] at hi
      cases hi
    | some r =>
      rw [stores_some hread, List.mem_cons] at hi
      rcases hi with rfl | hi
      · exact hcount
      · split at hi
        next => exact ih (by omega) hi (by omega)
        next => cases hi

private theorem bufferSize_mem_stores {count : Nat} (hcount : count ≤ bufferSize) :
    bufferSize ∈ stores vir m buf count ↔
      ∃ m' bytes, readBytes vir count (bufferSize - count + 1) m buf = some (m', bytes) ∧
        0 ∉ bytes.take (bufferSize - count) := by
  have hsize : bufferSize = 128 := rfl
  induction hd : bufferSize - count generalizing m buf count with
  | zero =>
    obtain rfl : count = bufferSize := by omega
    cases hread : m.readMem buf 1 (vir bufferSize) with
    | none =>
      rw [stores_none hread]
      simp [readBytes, hread]
    | some r =>
      rw [stores_some hread]
      simp [readBytes, hread]
  | succ d ih =>
    have hne : bufferSize ≠ count := by omega
    cases hread : m.readMem buf 1 (vir count) with
    | none =>
      rw [stores_none hread]
      simp [readBytes, hread]
    | some r =>
      obtain ⟨m₁, ch⟩ := r
      have hbyte := readMem_byte hread
      rw [stores_some hread, List.mem_cons, or_iff_right hne]
      split
      next hch =>
        have hnext : bufferSize ∈ stores vir m₁ (buf + 1) (count + 1) ↔
            ∃ m' bytes, readBytes vir (count + 1) (d + 1) m₁ (buf + 1) = some (m', bytes) ∧
              0 ∉ bytes.take d := ih (by omega) (by omega)
        rw [hnext]
        constructor
        · rintro ⟨m', bytes, hbytes, hzero⟩
          refine ⟨m', ch.setWidth 8 :: bytes, ?_, ?_⟩
          · simp only [readBytes, hread, Option.bind_eq_bind, Option.bind_some] at hbytes ⊢
            rw [hbytes]
            rfl
          · rw [List.take_succ_cons, List.mem_cons, not_or]
            exact ⟨fun h => hch.1 (hbyte.mpr h.symm), hzero⟩
        · rintro ⟨m', bytes, hbytes, hzero⟩
          obtain ⟨m₂, ch₂, rest, hread₂, hrest, rfl⟩ := readBytes_succ hbytes
          obtain ⟨rfl, rfl⟩ := Prod.mk.inj (Option.some.inj (hread.symm.trans hread₂))
          rw [List.take_succ_cons, List.mem_cons, not_or] at hzero
          exact ⟨m', rest, hrest, hzero.2⟩
      next hch =>
        have hend : ch = 0 := by
          by_contra hch₀
          exact hch ⟨hch₀, by omega⟩
        refine iff_of_false List.not_mem_nil ?_
        rintro ⟨m', bytes, hbytes, hzero⟩
        obtain ⟨m₂, ch₂, rest, hread₂, hrest, rfl⟩ := readBytes_succ hbytes
        obtain ⟨rfl, rfl⟩ := Prod.mk.inj (Option.some.inj (hread.symm.trans hread₂))
        rw [List.take_succ_cons, List.mem_cons, not_or] at hzero
        exact hzero.1 (hbyte.mp hend).symm

theorem stores_of_copyIn (hleft : left ≤ bufferSize)
    (h : copyIn vir left m buf buffer = some (m', turns, buffer')) :
    stores vir m buf (bufferSize - left) =
      List.range' (bufferSize - left) (turns - (bufferSize - left)) := by
  have hsize : bufferSize = 128 := rfl
  induction left generalizing m buf buffer with
  | zero => cases h
  | succ left ih =>
    obtain ⟨m₁, ch, hread, ⟨hne, hloop⟩ | ⟨heq, rfl, -⟩⟩ := copyIn_succ h
    · have hcount : bufferSize - (left + 1) + 1 = bufferSize - left := by omega
      obtain ⟨hlt, -, -⟩ := copyIn_untouched (by omega) hloop
      have hturns : turns - (bufferSize - (left + 1)) = turns - (bufferSize - left) + 1 := by omega
      rw [stores_some hread, if_pos ⟨hne, by omega⟩, hcount, ih (by omega) hloop, hturns,
        List.range'_succ, hcount]
    · rw [stores_some hread, if_neg (by simp [heq]), Nat.add_sub_cancel_left]
      rfl

/-- The loop stays inside its buffer exactly where a zero byte ends it in time, or an access that
fails. -/
theorem stores_inside_iff (vir : Nat → Int) (m : Vm) (buf : Word) :
    (∀ i ∈ stores vir m buf 0, i < bufferSize) ↔
      ∀ m' bytes, readBytes vir 0 (bufferSize + 1) m buf = some (m', bytes) →
        0 ∈ bytes.take bufferSize := by
  have hmem : bufferSize ∈ stores vir m buf 0 ↔
      ∃ m' bytes, readBytes vir 0 (bufferSize + 1) m buf = some (m', bytes) ∧
        0 ∉ bytes.take bufferSize := bufferSize_mem_stores (Nat.zero_le bufferSize)
  constructor
  · intro hall m' bytes hbytes
    by_contra hzero
    exact absurd (hall bufferSize (hmem.mpr ⟨m', bytes, hbytes, hzero⟩)) (Nat.lt_irrefl _)
  · intro hend i hi
    apply Nat.lt_of_le_of_ne (stores_le (Nat.zero_le _) hi)
    rintro rfl
    obtain ⟨m', bytes, hbytes, hzero⟩ := hmem.mp hi
    exact hzero (hend m' bytes hbytes)

/-- A machine with the letter `A` everywhere in two pages. -/
def twoPagesOfText : Vm :=
  { loadProgram with
    mainMemory := fun _ => 65, pageTableSize := 2,
    tables := fun t v => { loadProgram.tables t v with virtualPage := v, physicalPage := v } }

theorem stores_behind_buffer :
    ¬ ∀ i ∈ stores (fun _ => 0) twoPagesOfText 0 0, i < bufferSize := by
  have hrun : ((readBytes (fun _ => 0) 0 (bufferSize + 1) twoPagesOfText 0).map fun r =>
      decide (0 ∈ r.2.take bufferSize)) = some false := by decide +kernel
  obtain ⟨⟨m', bytes⟩, hbytes, hzero⟩ := Option.map_eq_some_iff.mp hrun
  have hbehind : bufferSize ∈ stores (fun _ => 0) twoPagesOfText 0 0 :=
    (bufferSize_mem_stores (Nat.zero_le _)).mpr ⟨m', bytes, hbytes, of_decide_eq_false hzero⟩
  exact fun hall => Nat.lt_irrefl _ (hall bufferSize hbehind)

/-! ## `Read` -/

/-- The byte at a virtual address: what `ReadMem` finds there when no load is pending. -/
def userByte (m : Vm) (v : Int) (a : Word) : Option Byte :=
  ((m.withRegisters fun _ => 0).readMem a 1 v).map fun p => p.2.setWidth 8

/-- The bytes are in user memory, their number is in register 2, and no other byte is new. -/
structure Fills (m m' : Vm) (buf : Word) (data : List Byte) : Prop where
  result : m'.registers 2 = BitVec.ofNat 32 data.length
  filled : ∀ v, ∀ i < data.length,
    userByte m' v (buf + BitVec.ofNat 32 i) = some (data.getD i 0)
  others : ∀ v a, (∀ i < data.length, a ≠ buf + BitVec.ofNat 32 i) →
    userByte m' v a = userByte m v a

private theorem read_nil {host : HostSystem} {id size : Word} (h : host.input id size = [])
    (buf : Word) :
    host.read id buf size = 0 := by
  rw [HostSystem.read, h]
  rfl

private theorem read_inaccessible {host : HostSystem} {id size buf : Word}
    (h : host.input id size ≠ []) (hbuf : host.accessible buf = false) :
    host.read id buf size = -1 := by
  have hpos : 0 < (host.input id size).length := List.length_pos_iff.mpr h
  have hfirst : ¬ (List.range (host.input id size).length).all
      (fun i => host.accessible (buf + BitVec.ofNat 32 i)) = true := by
    rw [List.all_eq_true]
    intro hall
    have hzero := hall 0 (List.mem_range.mpr hpos)
    rw [BitVec.add_zero, hbuf] at hzero
    cases hzero
  rw [HostSystem.read, if_neg hfirst]

/-- The address is one of the program and not of the host, so `Read` fills user memory exactly
when there is nothing to fill it with. -/
theorem read_fills (host : HostSystem) (stack : Nat → Byte) (vir : Nat → Int) {m : Vm}
    (hcall : m.registers 2 = scRead) (hpages : m.pageTableSize ≤ numPhysPages)
    (hmapped : ∀ i < (m.registers 5).toNat,
      (m.registers 4 + BitVec.ofNat 32 i).toNat / pageSize < m.pageTableSize)
    (hinput : ((host.input (m.registers 6) (m.registers 5)).length : Int) ≤ (m.registers 5).toInt)
    (hlow : ∀ a : Word, a.toNat < memorySize → host.accessible a = false) :
    (∃ m', m.syscall host stack vir = some m' ∧
      Fills m m' (m.registers 4) (host.input (m.registers 6) (m.registers 5))) ↔
      host.input (m.registers 6) (m.registers 5) = [] := by
  have hsize := @BitVec.toInt_lt 32 (m.registers 5)
  have hint := BitVec.toInt_eq_toNat_cond (m.registers 5)
  rw [syscall_read hcall, sysRead]
  constructor
  · rintro ⟨m', hm', hfills⟩
    by_contra hne
    have hpos : 0 < (host.input (m.registers 6) (m.registers 5)).length :=
      List.length_pos_iff.mpr hne
    have hfirst := hmapped 0 (by omega)
    rw [BitVec.add_zero] at hfirst
    have hbuf : (m.registers 4).toNat < memorySize := by
      simp only [numPhysPages, pageSize, memorySize] at *
      omega
    rw [read_inaccessible hne (hlow _ hbuf)] at hm'
    cases hm'
    have hresult := congrArg BitVec.toNat hfills.result
    rw [BitVec.toNat_ofNat, Nat.mod_eq_of_lt (by omega)] at hresult
    have hfault : (2 ^ 32 - 1 : Nat) = (host.input (m.registers 6) (m.registers 5)).length := hresult
    omega
  · intro hnil
    rw [read_nil hnil, hnil]
    refine ⟨_, rfl, rfl, ?_, ?_⟩
    · intro v i hi
      exact absurd hi (Nat.not_lt_zero i)
    · intro v a _
      rfl

def readCall : Vm :=
  { loadProgram with
    registers := fun k => if k = 2 then scRead else if k = 4 then 64 else if k = 5 then 1 else 0 }

theorem read_fills_nothing : ∃ m', readCall.syscall (plainHost []) (fun _ => 0) (fun _ => 0) =
      some m' ∧ Fills readCall m' 64 [] := by
  have hmapped : ∀ i < (readCall.registers 5).toNat,
      (readCall.registers 4 + BitVec.ofNat 32 i).toNat / pageSize < readCall.pageTableSize := by
    intro i hi
    obtain rfl : i = 0 := Nat.lt_one_iff.mp hi
    decide
  have hlow : ∀ a : Word, a.toNat < memorySize → (plainHost []).accessible a = false := by
    intro a ha
    simp only [memorySize, numPhysPages, pageSize] at ha
    exact decide_eq_false (by omega)
  exact (read_fills (plainHost []) (fun _ => 0) (fun _ => 0) rfl (by decide) hmapped (by decide)
    hlow).mpr rfl

/-- One byte, the newline, is there to be read. -/
theorem read_fails : ∃ m', readCall.syscall (plainHost [10]) (fun _ => 0) (fun _ => 0) = some m' ∧
    (plainHost [10]).input (readCall.registers 6) (readCall.registers 5) = [10] ∧
    m'.registers 2 = -1 ∧ userByte m' 0 64 = some 7 ∧ ¬ Fills readCall m' 64 [10] := by
  refine ⟨_, rfl, rfl, rfl, by decide +kernel, fun h => ?_⟩
  exact absurd h.result (by decide)

end Vm

end Nachos

import Nachos.Network.PostOffice
import Mathlib.Data.List.Infix

/-!
# Delivery in order

What a host has read from its socket is at every moment what the postal worker has made mails of,
followed by the packet in `inbox`. The mails of a box reach its list in the order in which the
worker made them, and the receivers in the order of the list.
-/

namespace Nachos

open Framework

/-! ## The wire format -/

private theorem word_headerBytes (toAddr fromAddr length : Word) :
    (headerBytes toAddr fromAddr length).word 0 = toAddr ∧
    (headerBytes toAddr fromAddr length).word 1 = fromAddr ∧
    (headerBytes toAddr fromAddr length).word 2 = length := by
  refine ⟨?_, ?_, ?_⟩
  · rw [headerBytes, Image.word_setWord_of_ne _ (by decide), Image.word_setWord_of_ne _ (by decide),
      Image.word_setWord_self]
  · rw [headerBytes, Image.word_setWord_of_ne _ (by decide), Image.word_setWord_self]
  · rw [headerBytes, Image.word_setWord_self]

private theorem words_congr {x y : Image} (h : Image.AgreeTo headerSize x y) :
    x.word 0 = y.word 0 ∧ x.word 1 = y.word 1 ∧ x.word 2 = y.word 2 :=
  ⟨h.word (by decide), h.word (by decide), h.word (by decide)⟩

private theorem packetHeaderAt_of_agree {x : Image} {hdr : PacketHeader}
    (h : Image.AgreeTo headerSize x hdr.bytes) : packetHeaderAt x = hdr := by
  obtain ⟨h₀, h₁, h₂⟩ := words_congr h
  obtain ⟨w₀, w₁, w₂⟩ := word_headerBytes hdr.toAddr hdr.fromAddr hdr.length
  simp only [packetHeaderAt, h₀, h₁, h₂, PacketHeader.bytes, w₀, w₁, w₂]

private theorem mailHeaderAt_of_agree {x : Image} {hdr : MailHeader}
    (h : Image.AgreeTo headerSize x hdr.bytes) : mailHeaderAt x = hdr := by
  obtain ⟨h₀, h₁, h₂⟩ := words_congr h
  obtain ⟨w₀, w₁, w₂⟩ := word_headerBytes hdr.toAddr hdr.fromAddr hdr.length
  simp only [mailHeaderAt, h₀, h₁, h₂, MailHeader.bytes, w₀, w₁, w₂]

private theorem mailHeaderAt_congr {x y : Image} (h : Image.AgreeTo headerSize x y) :
    mailHeaderAt x = mailHeaderAt y := by
  obtain ⟨h₀, h₁, h₂⟩ := words_congr h
  simp only [mailHeaderAt, h₀, h₁, h₂]

private theorem firstBytes_congr {x y : Image} {n : Nat} (h : ∀ a < n, x a = y a) :
    firstBytes x n = firstBytes y n := by
  apply List.map_congr_left
  intro a ha
  exact h a (List.mem_range.mp ha)

private theorem agreeTo_header (pad header src : Image) (n : Nat) :
    Image.AgreeTo headerSize ((pad.blit 0 header headerSize).blit headerSize src n) header := by
  intro a ha
  rw [Image.blit_of_notMem (.inl ha)]
  exact Image.blit_zero_agreeTo pad header headerSize a ha

private theorem agreeTo_behind (pad src : Image) (n : Nat) :
    Image.AgreeTo n (behindHeader (pad.blit headerSize src n)) src := by
  intro a ha
  rw [behindHeader, Image.blit_of_mem (by omega) (by omega), Nat.add_sub_cancel_left]

/-- The message in a packet whose header says `pktHdr`. -/
def letterIn (pktHdr : PacketHeader) (payload : Image) : Letter :=
  { pktHdr := pktHdr, mailHdr := mailHeaderAt payload,
    data := firstBytes (behindHeader payload) (mailHeaderAt payload).length.toNat }

def letterOf (packet : Image) : Letter := letterIn (packetHeaderAt packet) (behindHeader packet)

private theorem letterIn_congr {pktHdr : PacketHeader} {x y : Image} {n : Nat}
    (h : Image.AgreeTo n x y) (hn : (mailHeaderAt y).length.toNat + headerSize ≤ n) :
    letterIn pktHdr x = letterIn pktHdr y := by
  have hmail : mailHeaderAt x = mailHeaderAt y :=
    mailHeaderAt_congr fun a ha => h a (by omega)
  have hdata : firstBytes (behindHeader x) (mailHeaderAt y).length.toNat =
      firstBytes (behindHeader y) (mailHeaderAt y).length.toNat := by
    apply firstBytes_congr
    intro a ha
    exact h _ (by omega)
  simp only [letterIn, hmail, hdata]

/-- A message that passes the checks of `Send`, for a box that its destination has. -/
structure Message.Valid (m : Message) (numBoxes : Word → Nat) : Prop where
  length : m.mailHdr.length.toNat ≤ maxMailSize
  nonneg : 0 ≤ m.mailHdr.toAddr.toInt
  box : m.mailHdr.toAddr.toInt < numBoxes m.pktHdr.toAddr

namespace Message

variable {m : Message} {numBoxes : Word → Nat} {hostName : Word} {pad pad' : Image}

theorem Valid.packetLength (h : m.Valid numBoxes) (hostName : Word) :
    (m.packetHeader hostName).length.toNat = m.mailHdr.length.toNat + headerSize := by
  have hlength := h.length
  show (m.mailHdr.length + (headerSize : Word)).toNat = _
  rw [BitVec.toNat_add]
  have hsize : ((headerSize : Nat) : Word).toNat = headerSize := by decide
  rw [hsize]
  apply Nat.mod_eq_of_lt
  simp only [maxMailSize, maxPacketSize, maxWireSize, headerSize] at *
  omega

private theorem packetHeaderAt_wire :
    packetHeaderAt (m.wire hostName pad pad') = m.packetHeader hostName :=
  packetHeaderAt_of_agree (agreeTo_header _ _ _ _)

private theorem mailHeaderAt_buffer (m : Message) (pad : Image) :
    mailHeaderAt (m.buffer pad) = m.mailHdr :=
  mailHeaderAt_of_agree (agreeTo_header _ _ _ _)

private theorem letterIn_buffer :
    letterIn (m.packetHeader hostName) (m.buffer pad) = m.letter hostName := by
  have hdata : firstBytes (behindHeader (m.buffer pad)) m.mailHdr.length.toNat =
      firstBytes m.data m.mailHdr.length.toNat := by
    apply firstBytes_congr
    exact agreeTo_behind _ _ _
  simp only [letterIn, mailHeaderAt_buffer, hdata, letter]

private theorem Valid.letterOf_wire (h : m.Valid numBoxes) :
    letterOf (m.wire hostName pad pad') = m.letter hostName := by
  have hagree : Image.AgreeTo (m.packetHeader hostName).length.toNat
      (behindHeader (m.wire hostName pad pad')) (m.buffer pad) := agreeTo_behind _ _ _
  rw [letterOf, packetHeaderAt_wire, letterIn_congr hagree, letterIn_buffer]
  rw [mailHeaderAt_buffer, h.packetLength hostName]

end Message

def IsPacket (numBoxes : Word → Nat) (hostName : Word) (packet : Image) : Prop :=
  ∃ (m : Message) (sender : Word) (pad pad' : Image), m.Valid numBoxes ∧
    m.pktHdr.toAddr = hostName ∧ packet = m.wire sender pad pad'

/-- A packet passes the ASSERT of `NetworkInput::CallBack` at its destination. -/
theorem IsPacket.passes {numBoxes : Word → Nat} {hostName : Word} {packet : Image}
    (h : IsPacket numBoxes hostName packet) :
    (packetHeaderAt packet).toAddr = hostName ∧
      (packetHeaderAt packet).length.toNat ≤ maxPacketSize := by
  obtain ⟨m, sender, pad, pad', hvalid, hto, rfl⟩ := h
  have hmail := hvalid.length
  rw [Message.packetHeaderAt_wire, hvalid.packetLength sender]
  refine ⟨hto, ?_⟩
  simp only [maxMailSize, maxPacketSize, maxWireSize, headerSize] at *
  omega

/-! ## The input of one host -/

namespace Host

variable {numBoxes : Word → Nat} {hostName : Word} {log : List Image} {s s' : Host}

/-- The message in `inbox`. -/
def inboxLetters (s : Host) : List Letter :=
  if s.inHdr.length = 0 then [] else [letterIn s.inHdr s.inbox]

/-- A packet that passes the ASSERTs of the worker. -/
structure InboxValid (numBoxes : Nat) (inHdr : PacketHeader) (inbox : Image) : Prop where
  length : inHdr.length.toNat = (mailHeaderAt inbox).length.toNat + headerSize
  mail : (mailHeaderAt inbox).length.toNat ≤ maxMailSize
  nonneg : 0 ≤ (mailHeaderAt inbox).toAddr.toInt
  box : (mailHeaderAt inbox).toAddr.toInt < numBoxes

/-- The packets `log` were accepted by the socket. Those that were read went to the worker in
order, the last one perhaps not yet, and `messageAvailable` says so. -/
structure InputInv (numBoxes : Nat) (log : List Image) (s : Host) : Prop where
  queue : s.read ++ s.socket = log
  letters : s.read.map letterOf = s.handled.map Mail.letter ++ s.inboxLetters
  inbox : s.inHdr.length ≠ 0 → InboxValid numBoxes s.inHdr s.inbox
  value : s.messageAvailable.sem.value =
    if s.inHdr.length ≠ 0 ∧ s.worker ≠ .taken then 1 else 0
  taken : s.worker = .taken → s.inHdr.length ≠ 0

private theorem inputInv_new (n : Nat) (inHdr : PacketHeader) (inbox buffer : Image) :
    (new inHdr inbox buffer).InputInv n [] := by
  constructor
  case queue => rfl
  case letters => rfl
  case inbox => exact fun h => absurd rfl h
  case value => rfl
  case taken => exact fun h => by cases h

theorem InputInv.congr {n : Nat} (h : s.InputInv n log)
    (hread : s'.read = s.read ∧ s'.socket = s.socket ∧ s'.handled = s.handled)
    (hinbox : s'.inHdr = s.inHdr ∧ s'.inbox = s.inbox ∧ s'.messageAvailable = s.messageAvailable)
    (hworker : s'.worker = .taken ↔ s.worker = .taken) : s'.InputInv n log := by
  obtain ⟨hread, hsocket, hhandled⟩ := hread
  obtain ⟨hhdr, hbox, hsem⟩ := hinbox
  constructor
  case queue =>
    rw [hread, hsocket]
    exact h.queue
  case letters =>
    rw [hread, hhandled, inboxLetters, hhdr, hbox]
    exact h.letters
  case inbox =>
    rw [hhdr, hbox]
    exact h.inbox
  case value =>
    rw [hsem, hhdr, h.value]
    simp only [ne_eq, hworker]
  case taken =>
    rw [hworker, hhdr]
    exact h.taken

theorem InputInv.enqueue {n : Nat} (h : s.InputInv n log) (packet : Image) :
    { s with socket := s.socket ++ [packet] }.InputInv n (log ++ [packet]) where
  queue := by
    show s.read ++ (s.socket ++ [packet]) = log ++ [packet]
    rw [← List.append_assoc, h.queue]
  letters := h.letters
  inbox := h.inbox
  value := h.value
  taken := h.taken

/-- The interrupt of the network. It never overwrites a packet, and the packet it reads passes its
own ASSERT. -/
theorem InputInv.callBack (h : s.InputInv (numBoxes hostName) log)
    (hlog : ∀ p ∈ log, IsPacket numBoxes hostName p) :
    (s.callBack hostName).InputInv (numBoxes hostName) log := by
  unfold Host.callBack
  split
  next => exact h
  next hempty =>
    have hzero : s.inHdr.length = 0 := not_not.mp hempty
    split
    next => exact h
    next packet socket hsocket =>
      have hmem : packet ∈ log := by
        rw [← h.queue, hsocket]
        simp
      have hassert := (hlog _ hmem).passes
      obtain ⟨m, sender, pad, pad', hvalid, hto, rfl⟩ := hlog _ hmem
      have hhdr : packetHeaderAt (m.wire sender pad pad') = m.packetHeader sender :=
        Message.packetHeaderAt_wire
      have hlength := hvalid.packetLength sender
      have hmail := hvalid.length
      rw [hhdr] at hassert
      -- the inbox holds the message, up to what was there before behind it
      have hagree : Image.AgreeTo (m.packetHeader sender).length.toNat
          (s.inbox.blit 0 (behindHeader (m.wire sender pad pad'))
            (m.packetHeader sender).length.toNat) (m.buffer pad) :=
        (Image.blit_zero_agreeTo _ _ _).trans (agreeTo_behind _ _ _)
      have hmailHdr : mailHeaderAt (s.inbox.blit 0 (behindHeader (m.wire sender pad pad'))
          (m.packetHeader sender).length.toNat) = m.mailHdr := by
        rw [← m.mailHeaderAt_buffer pad]
        exact mailHeaderAt_congr fun a ha => hagree a (by omega)
      have hfull : (m.packetHeader sender).length ≠ 0 := by
        intro heq
        rw [heq] at hlength
        simp only [headerSize] at hlength
        exact absurd hlength (by simp)
      simp only [hhdr]
      rw [if_pos hassert]
      constructor
      case queue =>
        show s.read ++ [_] ++ socket = log
        rw [List.append_assoc, ← h.queue, hsocket]
        rfl
      case letters =>
        have hold := h.letters
        rw [inboxLetters, if_pos hzero, List.append_nil] at hold
        show (s.read ++ [_]).map letterOf = _
        rw [List.map_append, hold, inboxLetters, if_neg hfull]
        show _ ++ [letterOf _] = _ ++ [letterIn (m.packetHeader sender) _]
        rw [hvalid.letterOf_wire, letterIn_congr hagree, Message.letterIn_buffer]
        rw [Message.mailHeaderAt_buffer, hlength]
      case inbox =>
        intro _
        constructor
        case length =>
          show (m.packetHeader sender).length.toNat = _
          rw [hmailHdr, hlength]
        case mail => rw [hmailHdr]; exact hmail
        case nonneg => rw [hmailHdr]; exact hvalid.nonneg
        case box => rw [hmailHdr, ← hto]; exact hvalid.box
      case value =>
        have hnot : s.worker ≠ .taken := fun ht => h.taken ht hzero
        have hold := h.value
        rw [if_neg (fun hboth => hboth.1 hzero)] at hold
        show s.messageAvailable.v.sem.value =
          if (m.packetHeader sender).length ≠ 0 ∧ s.worker ≠ .taken then 1 else 0
        rw [if_pos ⟨hfull, hnot⟩, SemState.v_value, hold]
        rfl
      case taken => exact fun _ => hfull

/-- The worker's `P`: it goes on only when a packet is there. -/
theorem InputInv.workerP {n : Nat} (h : s.InputInv n log) (hs : s.workerP = some s') :
    s'.InputInv n log := by
  unfold Host.workerP at hs
  split at hs
  next hworker =>
    have hvalue := h.value
    split at hs
    next => cases hs
    next =>
      split at hs
      next =>
        obtain rfl := Option.some.inj hs
        exact h.congr ⟨rfl, rfl, rfl⟩ ⟨rfl, rfl, rfl⟩ Iff.rfl
      next sem hp =>
        obtain rfl := Option.some.inj hs
        obtain ⟨htaken, -⟩ | ⟨-, hpositive, rfl⟩ := SemState.p_cases hp
        · cases htaken
        · have hfull : s.inHdr.length ≠ 0 := by
            intro hzero
            rw [if_neg (fun hboth => hboth.1 hzero)] at hvalue
            exact hpositive hvalue
          have hnot : s.worker ≠ .taken := by
            rw [hworker]
            decide
          rw [if_pos ⟨hfull, hnot⟩] at hvalue
          constructor
          case queue => exact h.queue
          case letters => exact h.letters
          case inbox => exact h.inbox
          case value =>
            show s.messageAvailable.sem.value - 1 = _
            rw [hvalue, if_neg (fun hboth => hboth.2 rfl)]
            rfl
          case taken => exact fun _ => hfull
      next sem hp =>
        obtain rfl := Option.some.inj hs
        obtain ⟨-, hzero, -, rfl⟩ | ⟨htaken, -⟩ := SemState.p_cases hp
        · exact ⟨h.queue, h.letters, h.inbox, h.value, h.taken⟩
        · cases htaken
  next => cases hs

private theorem letter_newMail {n : Nat} (hfull : s.inHdr.length ≠ 0)
    (hvalid : InboxValid n s.inHdr s.inbox) :
    s.newMail.letter = letterIn s.inHdr s.inbox := by
  have hagree : Image.AgreeTo s.inHdr.length.toNat s.received s.inbox := by
    rw [received, if_pos hfull]
    exact Image.blit_zero_agreeTo _ _ _
  show letterIn s.inHdr s.received = _
  apply letterIn_congr hagree
  rw [hvalid.length]

theorem InputInv.deliver_cases {n : Nat} (h : s.InputInv n log) (hs : s.deliver n = some s') :
    s.worker = .taken ∧ ∃ boxState,
      s.newMail.letter = letterIn s.inHdr s.inbox ∧
      (s.boxes s.newMail.letter.mailHdr.toAddr.toNat).step (.append postalWorker s.newMail) =
        some boxState ∧
      s' = { s with inHdr := { s.inHdr with length := 0 }, buffer := s.received,
                    worker := .putting s.newMail.letter.mailHdr.toAddr.toNat,
                    boxes := Function.update s.boxes s.newMail.letter.mailHdr.toAddr.toNat boxState,
                    handled := s.handled ++ [s.newMail] } := by
  unfold Host.deliver at hs
  split at hs
  next hworker =>
    have hfull := h.taken hworker
    have hvalid := h.inbox hfull
    have hletter := letter_newMail hfull hvalid
    have hassert : 0 ≤ s.newMail.letter.mailHdr.toAddr.toInt ∧
        s.newMail.letter.mailHdr.toAddr.toInt < n ∧
        s.newMail.letter.mailHdr.length.toNat ≤ maxMailSize := by
      rw [hletter]
      exact ⟨hvalid.nonneg, hvalid.box, hvalid.mail⟩
    dsimp only at hs
    rw [if_pos hassert] at hs
    obtain ⟨boxState, hstep, rfl⟩ := Option.map_eq_some_iff.mp hs
    exact ⟨hworker, boxState, hletter, hstep, rfl⟩
  next => cases hs

theorem InputInv.deliver {n : Nat} (h : s.InputInv n log) (hs : s.deliver n = some s') :
    s'.InputInv n log := by
  obtain ⟨hworker, boxState, hletter, -, rfl⟩ := h.deliver_cases hs
  have hfull := h.taken hworker
  constructor
  case queue => exact h.queue
  case letters =>
    show s.read.map letterOf = (s.handled ++ [s.newMail]).map Mail.letter ++ []
    rw [h.letters, inboxLetters, if_neg hfull, List.map_append, List.append_nil, ← hletter]
    rfl
  case inbox => exact fun hne => absurd rfl hne
  case value =>
    have hvalue := h.value
    rw [if_neg (fun hboth => hboth.2 hworker)] at hvalue
    exact hvalue
  case taken => exact fun ht => by cases ht

/-! ## The boxes of one host -/

/-- The mails for a box. -/
def mailsFor (mails : List Mail) (box : Nat) : List Mail :=
  mails.filter fun m => m.letter.mailHdr.toAddr.toNat = box

private theorem mailsFor_append_self (mails : List Mail) {m : Mail} {box : Nat}
    (h : m.letter.mailHdr.toAddr.toNat = box) :
    mailsFor (mails ++ [m]) box = mailsFor mails box ++ [m] := by
  simp [mailsFor, h]

private theorem mailsFor_append_other (mails : List Mail) {m : Mail} {box : Nat}
    (h : m.letter.mailHdr.toAddr.toNat ≠ box) :
    mailsFor (mails ++ [m]) box = mailsFor mails box := by
  simp [mailsFor, h]

/-- Only the worker appends, to the box it is putting a mail into, and what it has made for a box
is in the box or in the worker's hand. -/
structure BoxesInv (s : Host) : Prop where
  boxes : ∀ b, (s.boxes b).Inv
  items : ∀ b, (s.boxes b).appended ++ ((s.boxes b).pc postalWorker).toAppend = mailsFor s.handled b
  handed : ∀ b, (s.boxes b).Handed (s.returned b)
  appending : ∀ b t, ((s.boxes b).pc t).appending = true →
    t = postalWorker ∧ s.worker = .putting b
  worker : ∀ b, (s.boxes b).pc postalWorker = .idle ∨
    ((s.boxes b).pc postalWorker).appending = true

private theorem boxesInv_new (inHdr : PacketHeader) (inbox buffer : Image) :
    (new inHdr inbox buffer).BoxesInv where
  boxes _ := SynchState.Inv.init
  items _ := rfl
  handed _ _ _ := rfl
  appending _ _ h := by cases h
  worker _ := .inl rfl

theorem BoxesInv.congr (h : s.BoxesInv) (hboxes : s'.boxes = s.boxes)
    (hhandled : s'.handled = s.handled) (hreturned : s'.returned = s.returned)
    (hworker : ∀ b, s.worker = .putting b → s'.worker = .putting b) : s'.BoxesInv where
  boxes b := by
    rw [hboxes]
    exact h.boxes b
  items b := by
    rw [hboxes, hhandled]
    exact h.items b
  handed b := by
    rw [hboxes, hreturned]
    exact h.handed b
  appending b t ht := by
    rw [hboxes] at ht
    exact ⟨(h.appending b t ht).1, hworker b (h.appending b t ht).2⟩
  worker b := by
    rw [hboxes]
    exact h.worker b

theorem BoxesInv.idle (h : s.BoxesInv) (hworker : ∀ b, s.worker ≠ .putting b) (b : Nat) :
    (s.boxes b).pc postalWorker = .idle := by
  rcases h.worker b with hidle | happending
  · exact hidle
  · exact absurd (h.appending b _ happending).2 (hworker b)

theorem BoxesInv.update (h : s.BoxesInv) {b : Nat} {boxState : SynchState Mail}
    (hboxes : s'.boxes = Function.update s.boxes b boxState)
    (hinv : boxState.Inv)
    (hitems : boxState.appended ++ (boxState.pc postalWorker).toAppend = mailsFor s'.handled b)
    (hothers : ∀ c, c ≠ b → mailsFor s'.handled c = mailsFor s.handled c ∧
      s'.returned c = s.returned c)
    (hhanded : boxState.Handed (s'.returned b))
    (happending : ∀ t, (boxState.pc t).appending = true → t = postalWorker ∧ s'.worker = .putting b)
    (hworker : boxState.pc postalWorker = .idle ∨ (boxState.pc postalWorker).appending = true)
    (hkeeps : ∀ c, c ≠ b → s.worker = .putting c → s'.worker = .putting c) : s'.BoxesInv := by
  have hself : s'.boxes b = boxState := by rw [hboxes, Function.update_self]
  have hother : ∀ c, c ≠ b → s'.boxes c = s.boxes c := by
    intro c hc
    rw [hboxes, Function.update_of_ne hc]
  constructor
  case boxes =>
    intro c
    by_cases hc : c = b
    · rw [hc, hself]
      exact hinv
    · rw [hother c hc]
      exact h.boxes c
  case items =>
    intro c
    by_cases hc : c = b
    · rw [hc, hself]
      exact hitems
    · rw [hother c hc, (hothers c hc).1]
      exact h.items c
  case handed =>
    intro c
    by_cases hc : c = b
    · rw [hc, hself]
      exact hhanded
    · rw [hother c hc, (hothers c hc).2]
      exact h.handed c
  case appending =>
    intro c t ht
    by_cases hc : c = b
    · rw [hc, hself] at ht
      rw [hc]
      exact happending t ht
    · rw [hother c hc] at ht
      have hold := h.appending c t ht
      exact ⟨hold.1, hkeeps c hc hold.2⟩
  case worker =>
    intro c
    by_cases hc : c = b
    · rw [hc, hself]
      exact hworker
    · rw [hother c hc]
      exact h.worker c

theorem BoxesInv.deliver {n : Nat} (h : s.BoxesInv) (hinput : s.InputInv n log)
    (hs : s.deliver n = some s') : s'.BoxesInv := by
  obtain ⟨hworker, boxState, -, hstep, rfl⟩ := hinput.deliver_cases hs
  have hidle := h.idle fun b hputting => by
    rw [hworker] at hputting
    cases hputting
  generalize hbox : s.newMail.letter.mailHdr.toAddr.toNat = b at hstep ⊢
  have hinv := (h.boxes b).step hstep
  simp only [SynchState.step, hidle b] at hstep
  obtain rfl := Option.some.inj hstep
  apply h.update rfl hinv
  case hitems =>
    have hold := h.items b
    rw [hidle b] at hold
    rw [mailsFor_append_self _ hbox, ← hold]
    simp [ListPc.toAppend]
  case hothers =>
    intro c hc
    exact ⟨mailsFor_append_other _ fun heq => hc (heq.symm.trans hbox), rfl⟩
  case hhanded => exact (h.handed b).call (hidle b) rfl
  case happending =>
    intro t ht
    by_cases htw : t = postalWorker
    · exact ⟨htw, rfl⟩
    · simp only [Function.update_of_ne htw] at ht
      exact absurd (h.appending b t ht).1 htw
  case hworker =>
    right
    simp only [Function.update_self]
    rfl
  case hkeeps =>
    intro c _ hputting
    rw [hworker] at hputting
    cases hputting

theorem BoxesInv.receive {n : Nat} (h : s.BoxesInv) {t : ThreadId} {b : Nat}
    (hs : s.receive n t b = some s') : s'.BoxesInv := by
  unfold Host.receive at hs
  split at hs
  next hfree =>
    have htw : t ≠ postalWorker := by
      intro heq
      simp [free, heq] at hfree
    split at hs
    next =>
      obtain ⟨boxState, hstep, rfl⟩ := Option.map_eq_some_iff.mp hs
      have hinv := (h.boxes b).step hstep
      simp only [SynchState.step] at hstep
      split at hstep
      next hidle =>
        obtain rfl := Option.some.inj hstep
        have hpw : Function.update (s.boxes b).pc t .removeAcquire postalWorker =
            (s.boxes b).pc postalWorker := Function.update_of_ne htw.symm _ _
        have hworker := h.worker b
        apply h.update rfl hinv
        case hitems =>
          simp only [hpw]
          exact h.items b
        case hothers => exact fun c _ => ⟨rfl, rfl⟩
        case hhanded => exact (h.handed b).call hidle rfl
        case happending =>
          intro u hu
          by_cases hut : u = t
          · rw [hut] at hu
            simp only [Function.update_self] at hu
            cases hu
          · simp only [Function.update_of_ne hut] at hu
            exact h.appending b u hu
        case hworker =>
          rw [← hpw] at hworker
          exact hworker
        case hkeeps => exact fun c _ hputting => hputting
      next => cases hstep
    next =>
      obtain rfl := Option.some.inj hs
      exact h.congr rfl rfl rfl fun _ hputting => hputting
  next => cases hs

theorem BoxesInv.moved (h : s.BoxesInv) {b : Nat} {boxState : SynchState Mail} {t : ThreadId}
    (hmoved : SynchState.Moved (s.boxes b) boxState t) (hinv : boxState.Inv)
    (hboxes : s'.boxes = Function.update s.boxes b boxState) (hhandled : s'.handled = s.handled)
    (hreturned : s'.returned = Function.update s.returned b
      (s.returned b ++ ((s.boxes b).pc t).returning (boxState.pc t)))
    (hworker : s'.worker = s.worker ∨
      (s.boxes b).pc t = .appendRelease ∧ boxState.pc t = .idle ∧ s'.worker = .waiting) :
    s'.BoxesInv := by
  -- the worker leaves a box only with a step of its own
  have hstays : ∀ c u, s.worker = .putting c → ((boxState.pc u).appending = true ∧ u = t) ∨
      u ≠ t ∧ u = postalWorker ∨ c ≠ b → s'.worker = .putting c := by
    intro c u hputting hcases
    rcases hworker with hsame | ⟨hrelease, hidle, -⟩
    · rw [hsame, hputting]
    · have hleaves := h.appending b t (by rw [hrelease]; rfl)
      rcases hcases with ⟨happending, rfl⟩ | ⟨hut, hu⟩ | hc
      · rw [hidle] at happending
        cases happending
      · exact absurd (hu.trans hleaves.1.symm) hut
      · rw [hleaves.2] at hputting
        exact absurd (WorkerPc.putting.inj hputting).symm hc
  apply h.update hboxes hinv
  case hitems =>
    rw [hhandled, ← h.items b]
    by_cases htw : t = postalWorker
    · rw [← htw]
      exact hmoved.appended
    · have hnot : ((s.boxes b).pc t).appending = false :=
        Bool.eq_false_iff.mpr fun happending => htw (h.appending b t happending).1
      have hnot' : (boxState.pc t).appending = false :=
        Bool.eq_false_iff.mpr fun happending =>
          Bool.eq_false_iff.mp hnot (hmoved.appends happending)
      have happended := hmoved.appended
      rw [ListPc.toAppend_of_not hnot, ListPc.toAppend_of_not hnot', List.append_nil,
        List.append_nil] at happended
      rw [happended, hmoved.other _ (fun heq => htw heq.symm)]
  case hothers =>
    intro c hc
    rw [hhandled, hreturned, Function.update_of_ne hc]
    exact ⟨rfl, rfl⟩
  case hhanded =>
    rw [hreturned, Function.update_self]
    exact (h.handed b).step (h.boxes b) hmoved
  case happending =>
    intro u hu
    by_cases hut : u = t
    · rw [hut] at hu ⊢
      have hold := h.appending b t (hmoved.appends hu)
      exact ⟨hold.1, hstays b t hold.2 (.inl ⟨hu, rfl⟩)⟩
    · rw [hmoved.other u hut] at hu
      have hold := h.appending b u hu
      exact ⟨hold.1, hstays b u hold.2 (.inr (.inl ⟨hut, hold.1⟩))⟩
  case hworker =>
    by_cases htw : t = postalWorker
    · have hold := (h.worker b).resolve_left (by rw [← htw]; exact hmoved.started)
      rw [← htw] at hold ⊢
      rcases hmoved.appending hold with happending | ⟨-, hidle⟩
      · exact .inr happending
      · exact .inl hidle
    · rw [hmoved.other _ (fun heq => htw heq.symm)]
      exact h.worker b
  case hkeeps =>
    intro c hc hputting
    exact hstays c t hputting (.inr (.inr hc))

theorem boxStep_cases {b : Nat} {l : SynchLabel Mail} {t : ThreadId}
    (hs : s.boxStep b l t = some s') :
    ∃ boxState, (s.boxes b).step l = some boxState ∧
      s'.boxes = Function.update s.boxes b boxState ∧
      s'.returned = Function.update s.returned b
        (s.returned b ++ ((s.boxes b).pc t).returning (boxState.pc t)) ∧
      (s'.worker = s.worker ∨
        (s.boxes b).pc t = .appendRelease ∧ boxState.pc t = .idle ∧ s'.worker = .waiting) ∧
      s'.read = s.read ∧ s'.socket = s.socket ∧ s'.handled = s.handled ∧ s'.inHdr = s.inHdr ∧
      s'.inbox = s.inbox ∧ s'.messageAvailable = s.messageAvailable ∧ s'.out = s.out := by
  obtain ⟨boxState, hstep, rfl⟩ := Option.map_eq_some_iff.mp hs
  refine ⟨boxState, hstep, ?_⟩
  dsimp only
  split
  next hrelease hidle =>
    rw [hrelease, hidle]
    simp [ListPc.returning]
  next mail hrelease hidle =>
    rw [hrelease, hidle]
    simp [ListPc.returning]
  next hnot hnot' =>
    have hreturning : ((s.boxes b).pc t).returning (boxState.pc t) = [] := by
      unfold ListPc.returning
      split
      next mail hrelease hidle => exact absurd hidle (hnot' mail hrelease)
      next => rfl
    rw [hreturning]
    simp

private theorem boxStep_out {b : Nat} {l : SynchLabel Mail} {t : ThreadId}
    (hs : s.boxStep b l t = some s') : s'.out = s.out := by
  obtain ⟨_, -, -, -, -, -, -, -, -, -, -, hout⟩ := boxStep_cases hs
  exact hout

/-! What the steps on the input leave alone. -/

theorem callBack_frame (s : Host) (hostName : Word) :
    (s.callBack hostName).out = s.out ∧ (s.callBack hostName).boxes = s.boxes ∧
      (s.callBack hostName).handled = s.handled ∧ (s.callBack hostName).returned = s.returned ∧
      (s.callBack hostName).worker = s.worker := by
  unfold callBack
  split
  · exact ⟨rfl, rfl, rfl, rfl, rfl⟩
  · split
    · exact ⟨rfl, rfl, rfl, rfl, rfl⟩
    · dsimp only
      split
      · exact ⟨rfl, rfl, rfl, rfl, rfl⟩
      · exact ⟨rfl, rfl, rfl, rfl, rfl⟩

theorem workerP_frame (hs : s.workerP = some s') :
    s'.out = s.out ∧ s'.boxes = s.boxes ∧ s'.handled = s.handled ∧ s'.returned = s.returned ∧
      s.worker = .waiting := by
  unfold workerP at hs
  split at hs
  next hworker =>
    split at hs
    next => cases hs
    next =>
      split at hs <;> obtain rfl := Option.some.inj hs <;> exact ⟨rfl, rfl, rfl, rfl, hworker⟩
  next => cases hs

theorem deliver_out {n : Nat} (hs : s.deliver n = some s') : s'.out = s.out := by
  unfold deliver at hs
  split at hs
  next =>
    dsimp only at hs
    split at hs
    next =>
      obtain ⟨boxState, -, rfl⟩ := Option.map_eq_some_iff.mp hs
      rfl
    next =>
      obtain rfl := Option.some.inj hs
      rfl
  next => cases hs

private theorem receive_frame {n : Nat} {t : ThreadId} {b : Nat} (hs : s.receive n t b = some s') :
    s'.out = s.out ∧ (s'.read = s.read ∧ s'.socket = s.socket ∧ s'.handled = s.handled) ∧
      (s'.inHdr = s.inHdr ∧ s'.inbox = s.inbox ∧ s'.messageAvailable = s.messageAvailable) ∧
      s'.worker = s.worker := by
  unfold receive at hs
  split at hs
  next =>
    split at hs
    next =>
      obtain ⟨boxState, -, rfl⟩ := Option.map_eq_some_iff.mp hs
      exact ⟨rfl, ⟨rfl, rfl, rfl⟩, ⟨rfl, rfl, rfl⟩, rfl⟩
    next =>
      obtain rfl := Option.some.inj hs
      exact ⟨rfl, ⟨rfl, rfl, rfl⟩, ⟨rfl, rfl, rfl⟩, rfl⟩
  next => cases hs

end Host

/-! ## All hosts -/

private theorem acquire_of_afterLock {pc : DevicePc Message Unit} {l : LockLabel} {m : Message}
    (h : pc.afterLock l = .acquire m) : pc = .acquire m := by
  cases pc <;> cases l <;> first | exact h | cases h

private theorem acquire_of_step {D : Device Unit Message Unit}
    {s s' : SynchDevice Unit Message Unit} {l : DeviceLabel Message} (hs : s.step D l = some s')
    {u : ThreadId} {m : Message} (hu : s'.pc u = .acquire m) :
    s.pc u = .acquire m ∨ l = .call u m := by
  -- a step that moves thread `t` to another place than `acquire`
  have hmove : ∀ t (pc : DevicePc Message Unit), Function.update s.pc t pc u = .acquire m →
      pc ≠ .acquire m → s.pc u = .acquire m := by
    intro t pc h hne
    by_cases hut : u = t
    · rw [hut, Function.update_self] at h
      exact absurd h hne
    · rw [Function.update_of_ne hut] at h
      exact h
  cases l with
  | call t r =>
    simp only [SynchDevice.step] at hs
    split at hs
    next =>
      obtain rfl := Option.some.inj hs
      by_cases hut : u = t
      · simp only [hut, Function.update_self, DevicePc.acquire.injEq] at hu
        right
        rw [hut, hu]
      · simp only [Function.update_of_ne hut] at hu
        exact .inl hu
    next => cases hs
  | lock l =>
    simp only [SynchDevice.step] at hs
    split at hs
    next =>
      obtain ⟨lock, -, hs⟩ := Option.bind_eq_some_iff.mp hs
      obtain rfl := Option.some.inj hs
      left
      by_cases hut : u = l.thread
      · simp only [hut, Function.update_self] at hu ⊢
        exact acquire_of_afterLock hu
      · simp only [Function.update_of_ne hut] at hu
        exact hu
    next => cases hs
  | request t =>
    simp only [SynchDevice.step] at hs
    split at hs
    next =>
      split at hs
      next =>
        obtain rfl := Option.some.inj hs
        exact .inl hu
      next =>
        split at hs
        next =>
          obtain rfl := Option.some.inj hs
          exact .inl hu
        next =>
          obtain rfl := Option.some.inj hs
          exact .inl (hmove _ _ hu (by simp))
    next => cases hs
  | p t =>
    simp only [SynchDevice.step] at hs
    split at hs
    next =>
      split at hs
      next => cases hs
      next =>
        split at hs
        next =>
          obtain rfl := Option.some.inj hs
          exact .inl hu
        next =>
          obtain rfl := Option.some.inj hs
          exact .inl (hmove _ _ hu (by simp))
        next =>
          obtain rfl := Option.some.inj hs
          exact .inl hu
    next => cases hs
  | interrupt k =>
    simp only [SynchDevice.step] at hs
    split at hs
    next =>
      obtain rfl := Option.some.inj hs
      exact .inl hu
    next => cases hs

namespace PostState

variable {numBoxes : Word → Nat} {s s' : PostState}

structure Inv (numBoxes : Word → Nat) (s : PostState) : Prop where
  sent : ∀ r ∈ s.sent, r.message.Valid numBoxes ∧
    ∃ pad pad', r.packet = r.message.wire r.host pad pad'
  calls : ∀ h t m, (s.hosts h).out.pc t = .acquire m → m.Valid numBoxes
  input : ∀ h, (s.hosts h).InputInv (numBoxes h) (s.log h)
  boxes : ∀ h, (s.hosts h).BoxesInv

theorem Inv.isPacket (h : s.Inv numBoxes) {hostName : Word} {p : Image} (hp : p ∈ s.log hostName) :
    IsPacket numBoxes hostName p := by
  obtain ⟨r, hr, rfl⟩ := List.mem_map.mp hp
  obtain ⟨hmem, hcond⟩ := List.mem_filter.mp hr
  obtain ⟨hvalid, pad, pad', hpacket⟩ := h.sent r hmem
  exact ⟨r.message, r.host, pad, pad', hvalid, (of_decide_eq_true hcond).2, hpacket⟩

theorem Inv.setHost (h : s.Inv numBoxes) {hostName : Word} {host : Host}
    (hcalls : ∀ t m, host.out.pc t = .acquire m → m.Valid numBoxes)
    (hinput : host.InputInv (numBoxes hostName) (s.log hostName)) (hboxes : host.BoxesInv) :
    (s.setHost hostName host).Inv numBoxes where
  sent := h.sent
  calls g := by
    by_cases hg : g = hostName
    · simp only [PostState.setHost, hg, Function.update_self]
      exact hcalls
    · simp only [PostState.setHost, Function.update_of_ne hg]
      exact h.calls g
  input g := by
    by_cases hg : g = hostName
    · simp only [PostState.setHost, hg, Function.update_self]
      exact hinput
    · simp only [PostState.setHost, Function.update_of_ne hg]
      exact h.input g
  boxes g := by
    by_cases hg : g = hostName
    · simp only [PostState.setHost, hg, Function.update_self]
      exact hboxes
    · simp only [PostState.setHost, Function.update_of_ne hg]
      exact h.boxes g

theorem Inv.outStep (h : s.Inv numBoxes) {hostName : Word} {l : DeviceLabel Message}
    (hcall : ∀ t m, l = .call t m → m.Valid numBoxes) (hs : s.outStep hostName l = some s') :
    s'.Inv numBoxes ∧ s'.sent = s.sent := by
  obtain ⟨out, hout, rfl⟩ := Option.map_eq_some_iff.mp hs
  refine ⟨h.setHost ?_ ?_ ?_, rfl⟩
  · intro t m hm
    rcases acquire_of_step hout hm with hold | hnew
    · exact h.calls hostName t m hold
    · exact hcall t m hnew
  · exact (h.input hostName).congr ⟨rfl, rfl, rfl⟩ ⟨rfl, rfl, rfl⟩ Iff.rfl
  · exact (h.boxes hostName).congr rfl rfl rfl fun _ hputting => hputting

/-- The state after a call of `network->Send`, before a socket has accepted the packet. -/
def recorded (s : PostState) (r : Sent) : PostState := { s with sent := s.sent ++ [r] }

private theorem log_recorded_other (s : PostState) {r : Sent} {g : Word}
    (h : ¬ (r.accepted = true ∧ r.message.pktHdr.toAddr = g)) :
    (s.recorded r).log g = s.log g := by
  simp [log, recorded, h]

private theorem log_recorded_self (s : PostState) {r : Sent} {g : Word}
    (h : r.accepted = true ∧ r.message.pktHdr.toAddr = g) :
    (s.recorded r).log g = s.log g ++ [r.packet] := by
  simp [log, recorded, h]

theorem Inv.transmit (h : s.Inv numBoxes) (hostName : Word) {m : Message}
    (hvalid : m.Valid numBoxes) (accepted : Bool) (pad pad' : Image) :
    (s.transmit hostName m accepted (m.wire hostName pad pad')).Inv numBoxes := by
  generalize hr : (⟨hostName, m, accepted, m.wire hostName pad pad'⟩ : Sent) = r
  have hsent : ∀ r' ∈ s.sent ++ [r],
      r'.message.Valid numBoxes ∧ ∃ pad pad', r'.packet = r'.message.wire r'.host pad pad' := by
    intro r' hr'
    rcases List.mem_append.mp hr' with hr' | hr'
    · exact h.sent r' hr'
    · rw [List.mem_singleton.mp hr', ← hr]
      exact ⟨hvalid, pad, pad', rfl⟩
  cases accepted with
  | false =>
    show ({ s with sent := s.sent ++ [_] } : PostState).Inv numBoxes
    rw [hr]
    refine ⟨hsent, h.calls, ?_, h.boxes⟩
    intro g
    show (s.hosts g).InputInv (numBoxes g) ((s.recorded r).log g)
    rw [log_recorded_other s (by rw [← hr]; simp)]
    exact h.input g
  | true =>
    -- the packet goes to the end of the queue of its destination
    show (({ s with sent := s.sent ++ [_] } : PostState).enqueue m.pktHdr.toAddr _).Inv numBoxes
    rw [hr]
    have hpacket : r.packet = m.wire hostName pad pad' := by rw [← hr]
    refine ⟨hsent, ?_, ?_, ?_⟩
    · intro g
      by_cases hg : g = m.pktHdr.toAddr
      · simp only [enqueue, PostState.setHost, hg, Function.update_self]
        exact h.calls _
      · simp only [enqueue, PostState.setHost, Function.update_of_ne hg]
        exact h.calls g
    · intro g
      show Host.InputInv (numBoxes g) ((s.recorded r).log g) _
      by_cases hg : g = m.pktHdr.toAddr
      · rw [log_recorded_self s (by rw [← hr]; exact ⟨rfl, hg.symm⟩), hpacket]
        simp only [enqueue, PostState.setHost, hg, Function.update_self]
        exact (h.input _).enqueue _
      · rw [log_recorded_other s (by rw [← hr]; exact fun hboth => hg hboth.2.symm)]
        simp only [enqueue, PostState.setHost, Function.update_of_ne hg]
        exact h.input g
    · intro g
      by_cases hg : g = m.pktHdr.toAddr
      · simp only [enqueue, PostState.setHost, hg, Function.update_self]
        exact (h.boxes _).congr rfl rfl rfl fun _ hputting => hputting
      · simp only [enqueue, PostState.setHost, Function.update_of_ne hg]
        exact h.boxes g

/-- The calls of `Send` that name a box of their destination and are not too long. -/
def ValidSend (numBoxes : Word → Nat) (_ : PostState) : PostLabel → Prop
  | .send _ _ m => m.Valid numBoxes
  | _ => True

private theorem Inv.hostStep (h : s.Inv numBoxes) {hostName : Word} {host : Host}
    (hout : host.out = (s.hosts hostName).out)
    (hinput : host.InputInv (numBoxes hostName) (s.log hostName)) (hboxes : host.BoxesInv) :
    (s.setHost hostName host).Inv numBoxes := by
  apply h.setHost _ hinput hboxes
  rw [hout]
  exact h.calls hostName

theorem Inv.boxStep (h : s.Inv numBoxes) {hostName : Word} {b : Nat} {l : SynchLabel Mail}
    {t : ThreadId} {host : Host} (hs : (s.hosts hostName).boxStep b l t = some host)
    (hmoved : ∀ boxState, ((s.hosts hostName).boxes b).step l = some boxState →
      SynchState.Moved ((s.hosts hostName).boxes b) boxState t) :
    (s.setHost hostName host).Inv numBoxes := by
  obtain ⟨boxState, hstep, hboxes, hreturned, hworker, hread, hsocket, hhandled, hhdr, hinbox,
    hsem, hout⟩ := Host.boxStep_cases hs
  have hbox := h.boxes hostName
  have hmove := hmoved boxState hstep
  apply h.hostStep hout
  · apply (h.input hostName).congr ⟨hread, hsocket, hhandled⟩ ⟨hhdr, hinbox, hsem⟩
    rcases hworker with hsame | ⟨hrelease, -, hwaiting⟩
    · rw [hsame]
    · -- the worker was inside the box
      have hputting := (hbox.appending b t (by rw [hrelease]; rfl)).2
      rw [hwaiting, hputting]
      constructor
      · intro heq
        cases heq
      · intro heq
        cases heq
  · exact hbox.moved hmove ((hbox.boxes b).step hstep) hboxes hhandled hreturned hworker

theorem Inv.step (h : s.Inv numBoxes) {l : PostLabel} (hvalid : ValidSend numBoxes s l)
    (hs : s.step numBoxes l = some s') : s'.Inv numBoxes := by
  cases l with
  | send hostName t m =>
    simp only [PostState.step] at hs
    split at hs
    next =>
      split at hs
      next =>
        apply (h.outStep _ hs).1
        intro u m' heq
        obtain ⟨-, rfl⟩ := DeviceLabel.call.inj heq
        exact hvalid
      next hassert => exact absurd ⟨hvalid.length, hvalid.nonneg⟩ hassert
    next => cases hs
  | networkSend hostName t accepted pad pad' =>
    simp only [PostState.step] at hs
    split at hs
    next m hpc =>
      obtain ⟨s₁, hout, rfl⟩ := Option.map_eq_some_iff.mp hs
      have hinv := (h.outStep (fun _ _ heq => by cases heq) hout).1
      split
      · exact hinv
      · exact hinv.transmit hostName (h.calls hostName t m hpc) accepted pad pad'
    next => cases hs
  | sendLock hostName l => exact (h.outStep (fun _ _ heq => by cases heq) hs).1
  | messageSentP hostName t => exact (h.outStep (fun _ _ heq => by cases heq) hs).1
  | sendInterrupt hostName k => exact (h.outStep (fun _ _ heq => by cases heq) hs).1
  | recvInterrupt hostName =>
    obtain rfl := Option.some.inj hs
    obtain ⟨hout, hboxes, hhandled, hreturned, hworker⟩ :=
      (s.hosts hostName).callBack_frame hostName
    apply h.hostStep hout
    · exact (h.input hostName).callBack fun p hp => h.isPacket hp
    · apply (h.boxes hostName).congr hboxes hhandled hreturned
      intro b hputting
      rw [hworker, hputting]
  | workerP hostName =>
    obtain ⟨host, hhost, rfl⟩ := Option.map_eq_some_iff.mp hs
    obtain ⟨hout, hboxes, hhandled, hreturned, hworker⟩ := Host.workerP_frame hhost
    apply h.hostStep hout
    · exact (h.input hostName).workerP hhost
    · apply (h.boxes hostName).congr hboxes hhandled hreturned
      intro b hputting
      rw [hworker] at hputting
      cases hputting
  | deliver hostName =>
    obtain ⟨host, hhost, rfl⟩ := Option.map_eq_some_iff.mp hs
    have hinput := h.input hostName
    apply h.hostStep (Host.deliver_out hhost)
    · exact hinput.deliver hhost
    · exact (h.boxes hostName).deliver hinput hhost
  | receive hostName t b =>
    obtain ⟨host, hhost, rfl⟩ := Option.map_eq_some_iff.mp hs
    obtain ⟨hout, hread, hinbox, hworker⟩ := Host.receive_frame hhost
    apply h.hostStep hout
    · exact (h.input hostName).congr hread hinbox (by rw [hworker])
    · exact (h.boxes hostName).receive hhost
  | boxCond hostName b l =>
    obtain ⟨host, hhost, rfl⟩ := Option.map_eq_some_iff.mp hs
    exact h.boxStep hhost fun _ hstep => SynchState.moved_cond hstep
  | boxList hostName b t =>
    obtain ⟨host, hhost, rfl⟩ := Option.map_eq_some_iff.mp hs
    exact h.boxStep hhost fun _ hstep => SynchState.moved_list hstep

theorem inv_inductive (numBoxes : Word → Nat) :
    ((postSystem numBoxes).restrict (ValidSend numBoxes)).Inductive (Inv numBoxes) where
  init s hs := by
    obtain ⟨hsent, hhosts⟩ := hs
    have hlog : ∀ h, s.log h = [] := by
      intro h
      rw [log, hsent]
      rfl
    constructor
    case sent =>
      rw [hsent]
      intro r hr
      cases hr
    case calls =>
      intro h t m hpc
      obtain ⟨inHdr, inbox, buffer, hhost⟩ := hhosts h
      rw [hhost] at hpc
      cases hpc
    case input =>
      intro h
      obtain ⟨inHdr, inbox, buffer, hhost⟩ := hhosts h
      rw [hhost, hlog]
      exact Host.inputInv_new _ _ _ _
    case boxes =>
      intro h
      obtain ⟨inHdr, inbox, buffer, hhost⟩ := hhosts h
      rw [hhost]
      exact Host.boxesInv_new _ _ _
  step s l s' h hs := h.step hs.1 hs.2.2

/-! ## One packet at a time -/

def Serial (s : PostState) : Prop := ∀ h, (s.hosts h).out.Inv (networkOutput h) ()

theorem Serial.setHost (h : s.Serial) {hostName : Word} {host : Host}
    (hout : host.out.Inv (networkOutput hostName) ()) : (s.setHost hostName host).Serial := by
  intro g
  by_cases hg : g = hostName
  · simp only [PostState.setHost, hg, Function.update_self]
    exact hout
  · simp only [PostState.setHost, Function.update_of_ne hg]
    exact h g

private theorem Serial.hostStep (h : s.Serial) {hostName : Word} {host : Host}
    (hout : host.out = (s.hosts hostName).out) : (s.setHost hostName host).Serial := by
  apply h.setHost
  rw [hout]
  exact h hostName

theorem Serial.outStep (h : s.Serial) {hostName : Word} {l : DeviceLabel Message}
    (hs : s.outStep hostName l = some s') : s'.Serial := by
  obtain ⟨out, hout, rfl⟩ := Option.map_eq_some_iff.mp hs
  apply h.setHost
  exact (h hostName).step hout

theorem Serial.transmit (h : s.Serial) (hostName : Word) (m : Message) (accepted : Bool)
    (packet : Image) : (s.transmit hostName m accepted packet).Serial := by
  cases accepted with
  | false => exact h
  | true => exact Serial.hostStep (s := { s with sent := _ }) h rfl

theorem Serial.step (h : s.Serial) {l : PostLabel} (hs : s.step numBoxes l = some s') :
    s'.Serial := by
  cases l with
  | send hostName t m =>
    simp only [PostState.step] at hs
    split at hs
    next =>
      split at hs
      next => exact h.outStep hs
      next =>
        obtain rfl := Option.some.inj hs
        exact h.hostStep rfl
    next => cases hs
  | networkSend hostName t accepted pad pad' =>
    simp only [PostState.step] at hs
    split at hs
    next m hpc =>
      obtain ⟨s₁, hout, rfl⟩ := Option.map_eq_some_iff.mp hs
      have hserial := h.outStep hout
      split
      · exact hserial
      · exact hserial.transmit hostName m accepted _
    next => cases hs
  | sendLock hostName l => exact h.outStep hs
  | messageSentP hostName t => exact h.outStep hs
  | sendInterrupt hostName k => exact h.outStep hs
  | recvInterrupt hostName =>
    obtain rfl := Option.some.inj hs
    exact h.hostStep ((s.hosts hostName).callBack_frame hostName).1
  | workerP hostName =>
    obtain ⟨host, hhost, rfl⟩ := Option.map_eq_some_iff.mp hs
    exact h.hostStep (Host.workerP_frame hhost).1
  | deliver hostName =>
    obtain ⟨host, hhost, rfl⟩ := Option.map_eq_some_iff.mp hs
    exact h.hostStep (Host.deliver_out hhost)
  | receive hostName t b =>
    obtain ⟨host, hhost, rfl⟩ := Option.map_eq_some_iff.mp hs
    exact h.hostStep (Host.receive_frame hhost).1
  | boxCond hostName b l =>
    obtain ⟨host, hhost, rfl⟩ := Option.map_eq_some_iff.mp hs
    exact h.hostStep (Host.boxStep_out hhost)
  | boxList hostName b t =>
    obtain ⟨host, hhost, rfl⟩ := Option.map_eq_some_iff.mp hs
    exact h.hostStep (Host.boxStep_out hhost)

theorem serial_inductive (numBoxes : Word → Nat) : (postSystem numBoxes).Inductive Serial where
  init s hs h := by
    obtain ⟨inHdr, inbox, buffer, hhost⟩ := hs.2 h
    rw [hhost]
    exact SynchDevice.Inv.init _ _
  step s l s' h hs := h.step hs.2

/-- No packet is handed to the network while another is on its way, so the ASSERT on `sendBusy`
would hold even if `Send` set the flag. -/
theorem sendBusy_clear (hr : (postSystem numBoxes).Reachable s) (h : Word) :
    (s.hosts h).out.clash = false :=
  ((serial_inductive numBoxes).of_reachable hr h).clash

/-! ## The letters -/

private theorem toInt_eq_iff {x : Word} (h : 0 ≤ x.toInt) (b : Nat) :
    x.toInt = (b : Int) ↔ x.toNat = b := by
  have hlt := x.isLt
  rw [BitVec.toInt_eq_toNat_cond] at h ⊢
  split at h <;> omega

private theorem Inv.acceptedTo_eq (h : s.Inv numBoxes) (hostName : Word) (b : Nat) :
    s.acceptedTo hostName b =
      ((s.log hostName).map letterOf).filter fun l => l.mailHdr.toAddr.toNat = b := by
  have hletters : (s.log hostName).map letterOf =
      (s.sent.filter fun r => r.accepted ∧ r.message.pktHdr.toAddr = hostName).map
        fun r => r.message.letter r.host := by
    rw [log, List.map_map]
    apply List.map_congr_left
    intro r hr
    obtain ⟨hvalid, pad, pad', hpacket⟩ := h.sent r (List.mem_filter.mp hr).1
    show letterOf r.packet = _
    rw [hpacket, hvalid.letterOf_wire]
  rw [hletters, List.filter_map, List.filter_filter, acceptedTo]
  congr 1
  apply List.filter_congr
  intro r hr
  have hbox : r.message.mailHdr.toAddr.toInt = (b : Int) ↔ r.message.mailHdr.toAddr.toNat = b :=
    toInt_eq_iff (h.sent r hr).1.nonneg b
  simp only [hbox, Function.comp_apply, Message.letter, Bool.decide_and]
  ac_rfl

theorem Inv.mailsFor_isPrefix (h : s.Inv numBoxes) (hostName : Word) (b : Nat) :
    (Host.mailsFor (s.hosts hostName).handled b).map Mail.letter <+: s.acceptedTo hostName b := by
  have hinput := h.input hostName
  have hletters : (Host.mailsFor (s.hosts hostName).handled b).map Mail.letter =
      ((s.hosts hostName).handled.map Mail.letter).filter
        fun l => l.mailHdr.toAddr.toNat = b := by
    rw [List.filter_map]
    rfl
  rw [hletters, h.acceptedTo_eq hostName b]
  apply List.IsPrefix.filter
  calc (s.hosts hostName).handled.map Mail.letter
      <+: (s.hosts hostName).read.map letterOf := by
        rw [hinput.letters]
        exact List.prefix_append _ _
    _ <+: (s.log hostName).map letterOf := by
        rw [← hinput.queue]
        exact (List.prefix_append _ _).map _

theorem Inv.returned_isPrefix (h : s.Inv numBoxes) (hostName : Word) (b : Nat) :
    (s.hosts hostName).returned b <+: Host.mailsFor (s.hosts hostName).handled b := by
  have hboxes := h.boxes hostName
  have hbox := hboxes.boxes b
  calc (s.hosts hostName).returned b
      <+: ((s.hosts hostName).boxes b).removed := (hboxes.handed b).returned_isPrefix hbox
    _ <+: ((s.hosts hostName).boxes b).appended := ⟨_, hbox.fifo⟩
    _ <+: Host.mailsFor (s.hosts hostName).handled b := ⟨_, hboxes.items b⟩

theorem acceptedTo_sublist (s : PostState) (hostName : Word) (b : Nat) :
    (s.acceptedTo hostName b).Sublist (s.sentTo hostName b) := by
  apply List.Sublist.map
  apply List.monotone_filter_right
  intro r hr
  have hboth := of_decide_eq_true hr
  exact decide_eq_true hboth.2

/-- What the receivers at a host get, and what becomes of the packets. The receivers of a box get
the first letters that were accepted for it, which are some of those that were sent. The packets
accepted are those that were read, followed by those in the socket. The letters read are those the
worker has made mails of, followed by the one in `inbox`, and each mail goes to its box. -/
structure InOrder (s : PostState) (h : Word) : Prop where
  received : ∀ b, (s.receivedFrom h b).Sublist (s.sentTo h b)
  accepted : ∀ b, s.receivedFrom h b <+: s.acceptedTo h b
  queue : (s.hosts h).read ++ (s.hosts h).socket = s.log h
  kept : (s.hosts h).read.map letterOf =
    (s.hosts h).handled.map Mail.letter ++ (s.hosts h).inboxLetters
  put : ∀ b, ((s.hosts h).boxes b).appended ++ (((s.hosts h).boxes b).pc postalWorker).toAppend =
    Host.mailsFor (s.hosts h).handled b

end PostState

/-- In every interleaving of any number of hosts and threads, whatever packets are lost, each host
receives in order. -/
theorem postOffice_inOrder {numBoxes : Word → Nat} {s : PostState}
    (hr : ((postSystem numBoxes).restrict (PostState.ValidSend numBoxes)).Reachable s) (h : Word) :
    s.InOrder h := by
  have hinv := (PostState.inv_inductive numBoxes).of_reachable hr
  have haccepted : ∀ b, s.receivedFrom h b <+: s.acceptedTo h b := by
    intro b
    calc s.receivedFrom h b
        <+: (Host.mailsFor (s.hosts h).handled b).map Mail.letter :=
          (hinv.returned_isPrefix h b).map _
      _ <+: s.acceptedTo h b := hinv.mailsFor_isPrefix h b
  constructor
  case received =>
    intro b
    exact (haccepted b).sublist.trans (s.acceptedTo_sublist h b)
  case accepted => exact haccepted
  case queue => exact (hinv.input h).queue
  case kept => exact (hinv.input h).letters
  case put => exact (hinv.boxes h).items

namespace PostState

instance (m : Message) (numBoxes : Word → Nat) : Decidable (m.Valid numBoxes) :=
  decidable_of_iff (m.mailHdr.length.toNat ≤ maxMailSize ∧ 0 ≤ m.mailHdr.toAddr.toInt ∧
      m.mailHdr.toAddr.toInt < numBoxes m.pktHdr.toAddr)
    ⟨fun h => ⟨h.1, h.2.1, h.2.2⟩, fun h => ⟨h.length, h.nonneg, h.box⟩⟩

instance (numBoxes : Word → Nat) (s : PostState) (l : PostLabel) :
    Decidable (ValidSend numBoxes s l) :=
  match l with
  | .send _ _ m => inferInstanceAs (Decidable (m.Valid numBoxes))
  | .networkSend .. | .sendLock .. | .messageSentP .. | .sendInterrupt .. | .recvInterrupt ..
  | .workerP .. | .deliver .. | .receive .. | .boxCond .. | .boxList .. => isTrue trivial

def next (numBoxes : Word → Nat) (s : PostState) (l : PostLabel) : Option PostState :=
  if ValidSend numBoxes s l ∧ (s.hosts l.host).aborted = false then s.step numBoxes l else none

theorem next_step {numBoxes : Word → Nat} {s s' : PostState} {l : PostLabel}
    (h : s.next numBoxes l = some s') :
    ((postSystem numBoxes).restrict (ValidSend numBoxes)).step s l s' := by
  unfold next at h
  split at h
  next hvalid => exact ⟨hvalid.1, hvalid.2, h⟩
  next => cases h

end PostState

private def blank : Image := fun _ => 0

private def allNew : PostState :=
  { hosts := fun _ => .new ⟨0, 0, 0⟩ blank blank, sent := [] }

private def twoBytes (box x y : Nat) : Message :=
  { pktHdr := ⟨1, 0, 0⟩, mailHdr := ⟨box, 4, 2⟩,
    data := fun a => if a = 0 then BitVec.ofNat 8 x else BitVec.ofNat 8 y }

/-- Thread 1 of host 0 sends a message, which is lost unless `accepted`. -/
private def sends (m : Message) (accepted : Bool) (k : Nat) : List PostLabel :=
  [.send 0 1 m, .sendLock 0 (.acquire 1), .sendLock 0 (.assign 1),
    .networkSend 0 1 accepted blank blank, .messageSentP 0 1, .sendInterrupt 0 k,
    .messageSentP 0 1, .sendLock 0 (.release 1), .sendLock 0 (.v 1)]

private def delivers (box : Nat) : List PostLabel :=
  [.recvInterrupt 1, .workerP 1, .deliver 1, .boxCond 1 box (.lock (.acquire 0)),
    .boxCond 1 box (.lock (.assign 0)), .boxList 1 box 0, .boxCond 1 box (.signal 0),
    .boxCond 1 box (.lock (.release 0)), .boxCond 1 box (.lock (.v 0))]

private def receives (box : Nat) : List PostLabel :=
  [.receive 1 2 box, .boxCond 1 box (.lock (.acquire 2)), .boxCond 1 box (.lock (.assign 2)),
    .boxList 1 box 2, .boxList 1 box 2, .boxCond 1 box (.lock (.release 2)),
    .boxCond 1 box (.lock (.v 2))]

private def threeMessages : List PostLabel :=
  sends (twoBytes 3 65 66) true 0 ++ sends (twoBytes 3 67 68) false 1 ++
    sends (twoBytes 3 69 70) true 2 ++ delivers 3 ++ delivers 3 ++ receives 3 ++ receives 3

private theorem threeMessages_run :
    (threeMessages.foldlM (PostState.next fun _ => 10) allNew).isSome := by
  decide +kernel

private def threeSent : PostState :=
  (threeMessages.foldlM (PostState.next fun _ => 10) allNew).get threeMessages_run

theorem postOffice_inOrder_three :
    threeSent.InOrder 1 ∧ (threeSent.sentTo 1 3).length = 3 ∧
      threeSent.receivedFrom 1 3 =
        [⟨⟨1, 0, 14⟩, ⟨3, 4, 2⟩, [65, 66]⟩, ⟨⟨1, 0, 14⟩, ⟨3, 4, 2⟩, [69, 70]⟩] := by
  have hr : ((postSystem fun _ => 10).restrict (PostState.ValidSend fun _ => 10)).Reachable
      threeSent :=
    .foldlM (fun _ _ _ => PostState.next_step) threeMessages
      (.init ⟨rfl, fun _ => ⟨_, _, _, rfl⟩⟩) (Option.some_get threeMessages_run).symm
  refine ⟨postOffice_inOrder hr 1, ?_, ?_⟩
  · decide +kernel
  · decide +kernel

end Nachos

import Nachos.Machine.Machine
import Nachos.Framework.ByteImage
import Nachos.Threads.SynchDevice
import Nachos.Threads.SynchList

/-!
# The post office

Hosts send each other messages through datagram sockets. `PostOfficeOutput::Send` puts a mail
header in front of the data, takes the lock of the output, hands the packet to the network and
waits for its interrupt. `NetworkInput::CallBack` polls the socket and keeps one packet in `inbox`
until the postal worker fetches it and puts it into a mailbox. Mailboxes are synchronized lists.
The host's sockets are queues: a packet that is accepted waits at its destination until it is read.

Every call of the lock, the semaphores and the lists is run step by step. `NetworkInput::Receive`
and the statements around it contain no point at which an interrupt or another thread could come
in between. `sendBusy` is never set, so the ASSERT on it holds; the model of the output repeats it
with a flag that the lock keeps clear.
-/

namespace Nachos

open Framework

/-- `MaxWireSize`. -/
abbrev maxWireSize : Nat := 64

/-- `sizeof(PacketHeader)` and `sizeof(MailHeader)`. -/
abbrev headerSize : Nat := 12

/-- `MaxPacketSize`. -/
abbrev maxPacketSize : Nat := maxWireSize - headerSize

/-- `MaxMailSize`. -/
abbrev maxMailSize : Nat := maxPacketSize - headerSize

/-- `toAddr` and `fromAddr` are the fields `to` and `from`. -/
structure PacketHeader where
  toAddr : Word
  fromAddr : Word
  length : Word
  deriving DecidableEq

/-- `toAddr` and `fromAddr` are the fields `to` and `from`. -/
structure MailHeader where
  toAddr : Word
  fromAddr : Word
  length : Word
  deriving DecidableEq

def headerBytes (toAddr fromAddr length : Word) : Image :=
  ((Image.setWord (fun _ => 0) 0 toAddr).setWord 1 fromAddr).setWord 2 length

def PacketHeader.bytes (h : PacketHeader) : Image := headerBytes h.toAddr h.fromAddr h.length

def MailHeader.bytes (h : MailHeader) : Image := headerBytes h.toAddr h.fromAddr h.length

/-- `*(PacketHeader *)buffer`. -/
def packetHeaderAt (buffer : Image) : PacketHeader :=
  { toAddr := buffer.word 0, fromAddr := buffer.word 1, length := buffer.word 2 }

/-- `*(MailHeader *)buffer`. -/
def mailHeaderAt (buffer : Image) : MailHeader :=
  { toAddr := buffer.word 0, fromAddr := buffer.word 1, length := buffer.word 2 }

def behindHeader (buffer : Image) : Image := fun a => buffer (headerSize + a)

/-- The first `n` bytes. -/
def firstBytes (buffer : Image) (n : Nat) : List Byte := (List.range n).map buffer

/-- What a receiver learns of a message. -/
structure Letter where
  pktHdr : PacketHeader
  mailHdr : MailHeader
  data : List Byte
  deriving DecidableEq

/-- A `Mail` and the number of its allocation, which stands for its address. -/
structure Mail where
  serial : Nat
  letter : Letter
  deriving DecidableEq

/-- The arguments of `PostOfficeOutput::Send`. -/
structure Message where
  pktHdr : PacketHeader
  mailHdr : MailHeader
  data : Image

namespace Message

/-- The packet header as `Send` completes it. -/
def packetHeader (m : Message) (hostName : Word) : PacketHeader :=
  { m.pktHdr with fromAddr := hostName, length := m.mailHdr.length + headerSize }

def letter (m : Message) (hostName : Word) : Letter :=
  { pktHdr := m.packetHeader hostName, mailHdr := m.mailHdr,
    data := firstBytes m.data m.mailHdr.length.toNat }

/-- The buffer of `Send`, over the bytes `pad` that it finds there. -/
def buffer (m : Message) (pad : Image) : Image :=
  (pad.blit 0 m.mailHdr.bytes headerSize).blit headerSize m.data m.mailHdr.length.toNat

/-- The packet `NetworkOutput::Send` gives to the socket. -/
def wire (m : Message) (hostName : Word) (pad pad' : Image) : Image :=
  let hdr := m.packetHeader hostName
  (pad'.blit 0 hdr.bytes headerSize).blit headerSize (m.buffer pad) hdr.length.toNat

end Message

/-- The ASSERT of `NetworkOutput::Send` about its arguments. -/
def networkOutput (hostName : Word) : Device Unit Message Unit where
  request _ m :=
    let hdr := m.packetHeader hostName
    if 0 < hdr.length.toNat ∧ hdr.length.toNat ≤ maxPacketSize ∧ hdr.fromAddr = hostName then
      some ((), ())
    else none

/-- The thread that runs `PostalDelivery`. -/
abbrev postalWorker : ThreadId := 0

/-- Where the postal worker stands in its loop. -/
inductive WorkerPc
  /-- about to call or inside `messageAvailable->P()` -/
  | waiting
  /-- `P` has returned -/
  | taken
  /-- inside `boxes[box].Put` -/
  | putting (box : Nat)
  deriving DecidableEq

/-- A host. `socket` are the packets that wait to be read, and `receiving` the box a thread inside
`Receive` reads from. From `read` on the fields record the history: the packets read from the
socket, the mails the worker made of them, and the mails given to the callers of `Receive`. -/
structure Host where
  out : SynchDevice Unit Message Unit
  socket : List Image
  inHdr : PacketHeader
  inbox : Image
  messageAvailable : SemState
  worker : WorkerPc
  buffer : Image
  boxes : Nat → SynchState Mail
  receiving : ThreadId → Option Nat
  aborted : Bool
  read : List Image
  handled : List Mail
  returned : Nat → List Mail

namespace Host

/-- A host after its two post offices were made; `inHdr` and `buffer` hold arbitrary bytes but
for the length. -/
def new (inHdr : PacketHeader) (inbox buffer : Image) : Host :=
  { out := .new (), socket := [], inHdr := { inHdr with length := 0 }, inbox := inbox,
    messageAvailable := .new 0, worker := .waiting, buffer := buffer, boxes := fun _ => .new,
    receiving := fun _ => none, aborted := false, read := [], handled := [],
    returned := fun _ => [] }

def abort (s : Host) : Host := { s with aborted := true }

/-- `NetworkInput::CallBack`. -/
def callBack (s : Host) (hostName : Word) : Host :=
  if s.inHdr.length ≠ 0 then s
  else match s.socket with
    | [] => s
    | packet :: socket =>
      let inHdr := packetHeaderAt packet
      if inHdr.toAddr = hostName ∧ inHdr.length.toNat ≤ maxPacketSize then
        { s with socket := socket, inHdr := inHdr,
                 inbox := s.inbox.blit 0 (behindHeader packet) inHdr.length.toNat,
                 messageAvailable := s.messageAvailable.v, read := s.read ++ [packet] }
      else s.abort

/-- The worker's call of `messageAvailable->P()`, or its next test there. -/
def workerP (s : Host) : Option Host :=
  match s.worker with
  | .waiting =>
    if s.messageAvailable.asleep postalWorker then none
    else match s.messageAvailable.p postalWorker with
      | none => some s.abort
      | some (sem, true) => some { s with messageAvailable := sem, worker := .taken }
      | some (sem, false) => some { s with messageAvailable := sem }
  | _ => none

/-- The worker's buffer after `network->Receive`. -/
def received (s : Host) : Image :=
  if s.inHdr.length ≠ 0 then s.buffer.blit 0 s.inbox s.inHdr.length.toNat else s.buffer

/-- The mail `Put` makes of the buffer. -/
def newMail (s : Host) : Mail :=
  let mailHdr := mailHeaderAt s.received
  { serial := s.handled.length,
    letter := { pktHdr := s.inHdr, mailHdr := mailHdr,
                data := firstBytes (behindHeader s.received) mailHdr.length.toNat } }

/-- `PostalDelivery` from the return of `P` to the call of `Append`. -/
def deliver (s : Host) (numBoxes : Nat) : Option Host :=
  match s.worker with
  | .taken =>
    let mail := s.newMail
    let s' := { s with inHdr := { s.inHdr with length := 0 }, buffer := s.received }
    if 0 ≤ mail.letter.mailHdr.toAddr.toInt ∧ mail.letter.mailHdr.toAddr.toInt < numBoxes ∧
        mail.letter.mailHdr.length.toNat ≤ maxMailSize then
      let box := mail.letter.mailHdr.toAddr.toNat
      ((s.boxes box).step (.append postalWorker mail)).map fun boxState =>
        { s' with worker := .putting box, boxes := Function.update s.boxes box boxState,
                  handled := s.handled ++ [mail] }
    else some s'.abort
  | _ => none

def free (s : Host) (t : ThreadId) : Bool :=
  t != postalWorker && (s.receiving t).isNone &&
    match s.out.pc t with
    | .idle => true
    | _ => false

/-- A thread calls `PostOfficeInput::Receive`. -/
def receive (s : Host) (numBoxes : Nat) (t : ThreadId) (box : Nat) : Option Host :=
  if s.free t then
    if box < numBoxes then
      ((s.boxes box).step (.removeFront t)).map fun boxState =>
        { s with boxes := Function.update s.boxes box boxState,
                 receiving := Function.update s.receiving t (some box) }
    else some s.abort
  else none

/-- A step of a thread inside `Append` or `RemoveFront` of a box. With the last one the worker goes
back to its loop, or the caller of `Receive` gets its mail. -/
def boxStep (s : Host) (box : Nat) (l : SynchLabel Mail) (t : ThreadId) : Option Host :=
  ((s.boxes box).step l).map fun boxState =>
    let s' := { s with boxes := Function.update s.boxes box boxState,
                       aborted := boxState.aborted }
    match (s.boxes box).pc t, boxState.pc t with
    | .appendRelease, .idle => { s' with worker := .waiting }
    | .removeRelease mail, .idle =>
      { s' with receiving := Function.update s.receiving t none,
                returned := Function.update s.returned box (s.returned box ++ [mail]) }
    | _, _ => s'

end Host

/-! ## The hosts together -/

/-- A packet `NetworkOutput::Send` was called with. It is `accepted` if it was not dropped and the
socket took it. -/
structure Sent where
  host : Word
  message : Message
  accepted : Bool
  packet : Image

/-- All hosts, and what was sent in the order in which it reached the sockets. -/
structure PostState where
  hosts : Word → Host
  sent : List Sent

inductive PostLabel
  /-- a thread calls `PostOfficeOutput::Send` -/
  | send (host : Word) (t : ThreadId) (m : Message)
  /-- `network->Send`, with the bytes that are in its two buffers -/
  | networkSend (host : Word) (t : ThreadId) (accepted : Bool) (pad pad' : Image)
  | sendLock (host : Word) (l : LockLabel)
  | messageSentP (host : Word) (t : ThreadId)
  /-- `NetworkSendInt` -/
  | sendInterrupt (host : Word) (k : Nat)
  /-- `NetworkRecvInt` -/
  | recvInterrupt (host : Word)
  | workerP (host : Word)
  | deliver (host : Word)
  | receive (host : Word) (t : ThreadId) (box : Nat)
  | boxCond (host : Word) (box : Nat) (l : CondLabel)
  | boxList (host : Word) (box : Nat) (t : ThreadId)

def PostLabel.host : PostLabel → Word
  | .send h _ _ | .networkSend h _ _ _ _ | .sendLock h _ | .messageSentP h _ | .sendInterrupt h _
  | .recvInterrupt h | .workerP h | .deliver h | .receive h _ _ | .boxCond h _ _
  | .boxList h _ _ => h

namespace PostState

def setHost (s : PostState) (h : Word) (host : Host) : PostState :=
  { s with hosts := Function.update s.hosts h host }

def enqueue (s : PostState) (h : Word) (packet : Image) : PostState :=
  s.setHost h { s.hosts h with socket := (s.hosts h).socket ++ [packet] }

/-- The packet goes to the socket named in its header, or is lost. -/
def transmit (s : PostState) (h : Word) (m : Message) (accepted : Bool) (packet : Image) :
    PostState :=
  let s' := { s with sent := s.sent ++ [{ host := h, message := m, accepted := accepted,
                                          packet := packet }] }
  if accepted then s'.enqueue m.pktHdr.toAddr packet else s'

def outStep (s : PostState) (h : Word) (l : DeviceLabel Message) : Option PostState :=
  ((s.hosts h).out.step (networkOutput h) l).map fun out =>
    s.setHost h { s.hosts h with out := out, aborted := out.aborted }

/-- The next step of a host; `none` when there is no such step. -/
def step (numBoxes : Word → Nat) (s : PostState) : PostLabel → Option PostState
  | .send h t m =>
    if (s.hosts h).free t then
      if m.mailHdr.length.toNat ≤ maxMailSize ∧ 0 ≤ m.mailHdr.toAddr.toInt then
        s.outStep h (.call t m)
      else some (s.setHost h (s.hosts h).abort)
    else none
  | .networkSend h t accepted pad pad' =>
    match (s.hosts h).out.pc t with
    | .acquire m =>
      (s.outStep h (.request t)).map fun s' =>
        if (s'.hosts h).aborted then s' else s'.transmit h m accepted (m.wire h pad pad')
    | _ => none
  | .sendLock h l => s.outStep h (.lock l)
  | .messageSentP h t => s.outStep h (.p t)
  | .sendInterrupt h k => s.outStep h (.interrupt k)
  | .recvInterrupt h => some (s.setHost h ((s.hosts h).callBack h))
  | .workerP h => (s.hosts h).workerP.map (s.setHost h)
  | .deliver h => ((s.hosts h).deliver (numBoxes h)).map (s.setHost h)
  | .receive h t box => ((s.hosts h).receive (numBoxes h) t box).map (s.setHost h)
  | .boxCond h box l => ((s.hosts h).boxStep box (.cond l) l.thread).map (s.setHost h)
  | .boxList h box t => ((s.hosts h).boxStep box (.list t) t).map (s.setHost h)

def sentTo (s : PostState) (h : Word) (box : Nat) : List Letter :=
  (s.sent.filter fun r => r.message.pktHdr.toAddr = h ∧
    r.message.mailHdr.toAddr.toInt = (box : Int)).map fun r => r.message.letter r.host

def acceptedTo (s : PostState) (h : Word) (box : Nat) : List Letter :=
  (s.sent.filter fun r => r.accepted ∧ r.message.pktHdr.toAddr = h ∧
    r.message.mailHdr.toAddr.toInt = (box : Int)).map fun r => r.message.letter r.host

def log (s : PostState) (h : Word) : List Image :=
  (s.sent.filter fun r => r.accepted ∧ r.message.pktHdr.toAddr = h).map Sent.packet

/-- The messages the callers of `Receive` got from a box of a host. -/
def receivedFrom (s : PostState) (h : Word) (box : Nat) : List Letter :=
  ((s.hosts h).returned box).map Mail.letter

end PostState

/-- All interleavings of the steps of all hosts. A host that has failed an ASSERT does nothing
more. -/
def postSystem (numBoxes : Word → Nat) : System PostState PostLabel where
  init s := s.sent = [] ∧ ∀ h, ∃ inHdr inbox buffer, s.hosts h = .new inHdr inbox buffer
  step s l s' := (s.hosts l.host).aborted = false ∧ s.step numBoxes l = some s'

end Nachos

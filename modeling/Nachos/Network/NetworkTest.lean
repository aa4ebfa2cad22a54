import Nachos.Network.Receiver
import Nachos.Threads.DeviceCalls

/-!
# The network test

`Kernel::NetworkTest` on the hosts 0 and 1: each sends the other a message to its box 0, waits for
the message of the other there, acknowledges it to the box the message names, and waits for the
acknowledgement of its own message in box 1. The statements between the calls of the two post
offices are one step; inside the calls everything interleaves, and packets can be lost.
-/

namespace Nachos

open Framework

/-! ## The test -/

/-- The thread that runs `NetworkTest`. -/
abbrev mainThread : ThreadId := 1

/-- The call that `NetworkTest` has made last. -/
inductive TestPc
  | start
  | sent
  | receiving
  | acked
  | awaiting
  | done
  deriving DecidableEq

/-- A line `Got: ` of the output. -/
structure GotLine where
  text : List Byte
  fromHost : Word
  box : Word
  deriving DecidableEq

structure NetworkTest where
  post : PostState
  pc : Word → TestPc
  buffer : Word → Image
  printed : Word → List GotLine

inductive NetworkLabel
  /-- a step inside a call, of the postal worker or of the network -/
  | post (l : PostLabel)
  /-- `NetworkTest` goes on at the return of a call -/
  | run (hostName : Word)

/-- The characters of a string literal, without the zero at its end. -/
def charsOf (s : String) : List Byte := s.toList.map fun c => BitVec.ofNat 8 c.toNat

def testData : List Byte := charsOf "Hello there!"

def testAck : List Byte := charsOf "Got it!"

def farHost (hostName : Word) : Word := if hostName = 0 then 1 else 0

/-- What `cout` prints of a buffer. -/
def cString (buffer : Image) : List Byte :=
  (firstBytes buffer maxMailSize).takeWhile fun c => c ≠ 0

def textMessage (outPktHdr : PacketHeader) (toAddr toBox fromBox : Word) (data : List Byte) :
    Message :=
  { pktHdr := { outPktHdr with toAddr := toAddr },
    mailHdr := { toAddr := toBox, fromAddr := fromBox, length := BitVec.ofNat 32 (data.length + 1) },
    data := fun a => data.getD a 0 }

def PostLabel.isCall : PostLabel → Bool
  | .send .. | .receive .. => true
  | _ => false

namespace NetworkTest

abbrev boxes : Word → Nat := fun _ => kernelBoxes

/-- `Receive` has returned a mail, and the line about it is printed. -/
def got (s : NetworkTest) (hostName : Word) (mail : Letter) : NetworkTest :=
  let buffer := (s.buffer hostName).blit 0 (fun a => mail.data.getD a 0) mail.mailHdr.length.toNat
  { s with buffer := Function.update s.buffer hostName buffer,
           printed := Function.update s.printed hostName
             (s.printed hostName ++ [{ text := cString buffer, fromHost := mail.pktHdr.fromAddr,
                                       box := mail.mailHdr.fromAddr }]) }

def goOn (s : NetworkTest) (hostName : Word) (pc : TestPc) (post : PostState) : NetworkTest :=
  { s with post := post, pc := Function.update s.pc hostName pc }

/-- `Kernel::NetworkTest` from the return of a call to the next one. `outPktHdr` is what the
variable of that name holds before the assignments. -/
def run (outPktHdr : Word → PacketHeader) (s : NetworkTest) (hostName : Word) :
    Option NetworkTest :=
  if (hostName = 0 ∨ hostName = 1) ∧ (s.post.hosts hostName).free mainThread = true then
    match s.pc hostName with
    | .start =>
      (s.post.step boxes (.send hostName mainThread
        (textMessage (outPktHdr hostName) (farHost hostName) 0 1 testData))).map
          (s.goOn hostName .sent)
    | .sent => (s.post.step boxes (.receive hostName mainThread 0)).map (s.goOn hostName .receiving)
    | .receiving => do
      let mail ← ((s.post.hosts hostName).returned 0).getLast?
      let post ← s.post.step boxes (.send hostName mainThread
        (textMessage (outPktHdr hostName) mail.letter.pktHdr.fromAddr mail.letter.mailHdr.fromAddr 1
          testAck))
      some ((s.got hostName mail.letter).goOn hostName .acked post)
    | .acked => (s.post.step boxes (.receive hostName mainThread 1)).map (s.goOn hostName .awaiting)
    | .awaiting => do
      let mail ← ((s.post.hosts hostName).returned 1).getLast?
      some ((s.got hostName mail.letter).goOn hostName .done s.post)
    | .done => none
  else none

/-- The next step; `none` when there is no such step. -/
def step (outPktHdr : Word → PacketHeader) (s : NetworkTest) : NetworkLabel → Option NetworkTest
  | .post l =>
    if l.isCall then none else (s.post.step boxes l).map fun post => { s with post := post }
  | .run hostName => s.run outPktHdr hostName

end NetworkTest

def NetworkLabel.host : NetworkLabel → Word
  | .post l => l.host
  | .run hostName => hostName

def networkTest (outPktHdr : Word → PacketHeader) : System NetworkTest NetworkLabel where
  init s := (postSystem NetworkTest.boxes).init s.post ∧ (∀ h, s.pc h = .start) ∧
    ∀ h, s.printed h = []
  step s l s' := (s.post.hosts l.host).aborted = false ∧ s.step outPktHdr l = some s'

/-! ## The device of the output -/

private theorem networkOutput_accepts {numBoxes : Word → Nat} {hostName : Word} {m : Message}
    (h : m.Valid numBoxes) : (networkOutput hostName).request () m = some ((), ()) := by
  have hlength := h.packetLength hostName
  have hmail := h.length
  have hchecks : 0 < (m.packetHeader hostName).length.toNat ∧
      (m.packetHeader hostName).length.toNat ≤ maxPacketSize ∧
      (m.packetHeader hostName).fromAddr = hostName := by
    refine ⟨?_, ?_, rfl⟩
    · rw [hlength]
      simp only [headerSize]
      omega
    · rw [hlength]
      simp only [maxMailSize, maxPacketSize, maxWireSize, headerSize] at *
      omega
  exact if_pos hchecks

/-! ## Hosts on which only the main thread calls -/

namespace Host

/-- Only the main thread is in a call, and no ASSERT has failed. -/
structure Single (s : Host) : Prop where
  sending : ∀ t, t ≠ mainThread → s.out.pc t = .idle
  receiving : ∀ b t, t ≠ postalWorker → (s.boxes b).pc t ≠ .idle →
    t = mainThread ∧ s.receiving mainThread = some b
  running : s.aborted = false ∧ s.out.aborted = false ∧ s.out.lock.aborted = false

private theorem single_new (inHdr : PacketHeader) (inbox buffer : Image) :
    (new inHdr inbox buffer).Single where
  sending _ _ := rfl
  receiving _ _ _ h := absurd rfl h
  running := ⟨rfl, rfl, rfl⟩

/-- The calls of `Receive` for a box, with the one that is under way. -/
def receives (s : Host) (b : Nat) : Nat :=
  (s.returned b).length + if s.receiving mainThread = some b then 1 else 0

/-- No call begins, and none reaches the network. -/
structure Kept (s s' : Host) : Prop where
  single : s'.Single
  receiving : ∀ b, s'.receiving mainThread = some b → s.receiving mainThread = some b
  idle : s.out.pc mainThread = .idle → s'.out.pc mainThread = .idle
  receives : ∀ b, s'.receives b = s.receives b
  unsent : (s'.out.pc mainThread).unsent = (s.out.pc mainThread).unsent

variable {s s' : Host}

theorem Single.congr (h : s.Single) (hout : s'.out = s.out)
    (hboxes : ∀ b t, t ≠ postalWorker → (s'.boxes b).pc t = (s.boxes b).pc t)
    (hreceiving : s'.receiving = s.receiving) (hrunning : s'.aborted = false) : s'.Single where
  sending := by
    rw [hout]
    exact h.sending
  receiving b t ht hbusy := by
    rw [hboxes b t ht] at hbusy
    rw [hreceiving]
    exact h.receiving b t ht hbusy
  running := by
    rw [hout]
    exact ⟨hrunning, h.running.2⟩

theorem Single.kept (h : s.Single) (hout : s'.out = s.out)
    (hboxes : ∀ b t, t ≠ postalWorker → (s'.boxes b).pc t = (s.boxes b).pc t)
    (hreceiving : s'.receiving = s.receiving) (hreturned : s'.returned = s.returned)
    (hrunning : s'.aborted = false) : s.Kept s' where
  single := h.congr hout hboxes hreceiving hrunning
  receiving b hb := by rwa [hreceiving] at hb
  idle hidle := by rwa [hout]
  receives b := by rw [Host.receives, Host.receives, hreturned, hreceiving]
  unsent := by rw [hout]

private theorem callBack_receiving (s : Host) (hostName : Word) :
    (s.callBack hostName).receiving = s.receiving := by
  unfold callBack
  split
  · rfl
  · split
    · rfl
    · dsimp only
      split <;> rfl

private theorem workerP_receiving (hs : s.workerP = some s') : s'.receiving = s.receiving := by
  unfold workerP at hs
  split at hs
  next =>
    split at hs
    next => cases hs
    next => split at hs <;> obtain rfl := Option.some.inj hs <;> rfl
  next => cases hs

private theorem deliver_others {n : Nat} (hs : s.deliver n = some s') :
    s'.receiving = s.receiving ∧ s'.returned = s.returned ∧
      ∀ b t, t ≠ postalWorker → (s'.boxes b).pc t = (s.boxes b).pc t := by
  unfold deliver at hs
  split at hs
  next =>
    dsimp only at hs
    split at hs
    next =>
      obtain ⟨boxState, hstep, rfl⟩ := Option.map_eq_some_iff.mp hs
      refine ⟨rfl, rfl, ?_⟩
      intro b t ht
      show (Function.update s.boxes _ boxState b).pc t = _
      by_cases hb : b = s.newMail.letter.mailHdr.toAddr.toNat
      · rw [hb, Function.update_self]
        simp only [SynchState.step] at hstep
        split at hstep
        next =>
          obtain rfl := Option.some.inj hstep
          exact Function.update_of_ne ht _ _
        next => cases hstep
      · rw [Function.update_of_ne hb]
    next =>
      obtain rfl := Option.some.inj hs
      exact ⟨rfl, rfl, fun _ _ _ => rfl⟩
  next => cases hs

private theorem boxStep_receiving {b : Nat} {l : SynchLabel Mail} {t : ThreadId}
    {boxState : SynchState Mail} (hstep : (s.boxes b).step l = some boxState)
    (hs : s.boxStep b l t = some s') :
    (s'.receiving = s.receiving ∧ s'.returned = s.returned) ∨
      ∃ mail, (s.boxes b).pc t = .removeRelease mail ∧ boxState.pc t = .idle ∧
        s'.receiving = Function.update s.receiving t none ∧
        s'.returned = Function.update s.returned b (s.returned b ++ [mail]) := by
  rw [boxStep, hstep] at hs
  obtain rfl := Option.some.inj hs
  dsimp only
  split
  next => exact .inl ⟨rfl, rfl⟩
  next mail hrelease hidle => exact .inr ⟨mail, hrelease, hidle, rfl, rfl⟩
  next => exact .inl ⟨rfl, rfl⟩

/-- A step inside a box: the worker puts a mail, or the main thread is in `Receive`. -/
theorem Single.boxStep (h : s.Single) (hboxes : s.BoxesInv) {b : Nat} {l : SynchLabel Mail}
    {t : ThreadId} {boxState : SynchState Mail} (hstep : (s.boxes b).step l = some boxState)
    (hmoved : SynchState.Moved (s.boxes b) boxState t) (hs : s.boxStep b l t = some s')
    (hrunning : s'.aborted = false) : s.Kept s' := by
  obtain ⟨box, hstep', hbox, -, -, -, -, -, -, -, -, hout⟩ := boxStep_cases hs
  obtain rfl := Option.some.inj (hstep'.symm.trans hstep)
  have hpc : ∀ c u, (s'.boxes c).pc u = if c = b then box.pc u else (s.boxes c).pc u := by
    intro c u
    rw [hbox]
    by_cases hc : c = b
    · rw [hc, Function.update_self, if_pos rfl]
    · rw [Function.update_of_ne hc, if_neg hc]
  rcases boxStep_receiving hstep hs with ⟨hreceiving, hreturned⟩ |
    ⟨mail, hrelease, hidle, hreceiving, hreturned⟩
  · refine ⟨⟨?_, ?_, ?_⟩, by rw [hreceiving]; exact fun _ => id, by rw [hout]; exact id, ?_,
      by rw [hout]⟩
    · rw [hout]
      exact h.sending
    · intro c u hu hbusy
      rw [hreceiving]
      rw [hpc] at hbusy
      split at hbusy
      next hc =>
        rw [hc]
        by_cases hut : u = t
        · exact h.receiving b u hu (hut ▸ hmoved.started)
        · rw [hmoved.other u hut] at hbusy
          exact h.receiving b u hu hbusy
      next => exact h.receiving c u hu hbusy
    · rw [hout]
      exact ⟨hrunning, h.running.2⟩
    · intro c
      rw [receives, receives, hreceiving, hreturned]
  · -- the worker appends only
    have hnot : t ≠ postalWorker := by
      rintro rfl
      rcases hboxes.worker b with hout' | happending
      · rw [hout'] at hrelease
        cases hrelease
      · rw [hrelease] at happending
        cases happending
    obtain ⟨rfl, hat⟩ := h.receiving b t hnot (by rw [hrelease]; simp)
    refine ⟨⟨?_, ?_, ?_⟩, ?_, by rw [hout]; exact id, ?_, by rw [hout]⟩
    · rw [hout]
      exact h.sending
    · intro c u hu hbusy
      exfalso
      rw [hpc] at hbusy
      split at hbusy
      next =>
        by_cases hut : u = mainThread
        · rw [hut, hidle] at hbusy
          exact hbusy rfl
        · rw [hmoved.other u hut] at hbusy
          exact hut (h.receiving b u hu hbusy).1
      next hc =>
        have hin := (h.receiving c u hu hbusy).2
        rw [hat] at hin
        exact hc (Option.some.inj hin).symm
    · rw [hout]
      exact ⟨hrunning, h.running.2⟩
    · intro c hc
      rw [hreceiving, Function.update_self] at hc
      cases hc
    · intro c
      rw [receives, receives, hreceiving, hreturned, Function.update_self, hat, if_neg (by simp)]
      by_cases hc : c = b
      · rw [hc, Function.update_self, if_pos rfl, List.length_append]
        rfl
      · rw [Function.update_of_ne hc, if_neg (by simpa using fun heq => hc heq.symm)]

/-- A step inside `Send`, except for the one that reaches the network. -/
theorem Single.outStep (h : s.Single) {D : Device Unit Message Unit} {l : DeviceLabel Message}
    {out : SynchDevice Unit Message Unit} (hs : s.out.step D l = some out)
    (hcall : ∀ t r, l ≠ .call t r) (hrequest : ∀ t, l ≠ .request t)
    (hrunning : out.lock.aborted = false ∧ out.aborted = false) :
    s.Kept { s with out := out, aborted := out.aborted } where
  single :=
    { sending := fun t ht => (SynchDevice.step_unsent hs hcall t).1 (h.sending t ht)
      receiving := h.receiving
      running := ⟨hrunning.2, hrunning.2, hrunning.1⟩ }
  receiving _ := id
  idle := (SynchDevice.step_unsent hs hcall mainThread).1
  receives _ := rfl
  unsent := (SynchDevice.step_unsent hs hcall mainThread).2 hrequest

end Host

/-! ## All hosts of the test -/

namespace PostState

variable {s s' : PostState}

/-- The messages the main thread of a host has called `Send` with. -/
def madeBy (s : PostState) (h : Word) : List Message :=
  (s.sent.filter fun r => r.host = h).map Sent.message ++ ((s.hosts h).out.pc mainThread).unsent

structure Calling (s : PostState) : Prop where
  inv : s.Inv NetworkTest.boxes
  safe : s.Safe
  serial : s.Serial
  single : ∀ h, (s.hosts h).Single

/-- No call begins. -/
structure SameCalls (s s' : PostState) : Prop where
  single : ∀ h, (s'.hosts h).Single
  receiving : ∀ h b, (s'.hosts h).receiving mainThread = some b →
    (s.hosts h).receiving mainThread = some b
  idle : ∀ h, (s.hosts h).out.pc mainThread = .idle → (s'.hosts h).out.pc mainThread = .idle
  madeBy : ∀ h, s'.madeBy h = s.madeBy h
  receives : ∀ h b, (s'.hosts h).receives b = (s.hosts h).receives b

private theorem hosts_self (s : PostState) (g : Word) (host : Host) :
    (s.setHost g host).hosts g = host :=
  Function.update_self ..

private theorem hosts_other (s : PostState) {g k : Word} (host : Host) (hk : k ≠ g) :
    (s.setHost g host).hosts k = s.hosts k :=
  Function.update_of_ne hk _ _

theorem Calling.setHost (h : s.Calling) {g : Word} {host : Host} (hkept : (s.hosts g).Kept host) :
    s.SameCalls (s.setHost g host) := by
  constructor
  case single =>
    intro k
    by_cases hk : k = g
    · rw [hk, hosts_self]
      exact hkept.single
    · rw [hosts_other s host hk]
      exact h.single k
  case receiving =>
    intro k
    by_cases hk : k = g
    · rw [hk, hosts_self]
      exact hkept.receiving
    · rw [hosts_other s host hk]
      exact fun _ => id
  case idle =>
    intro k
    by_cases hk : k = g
    · rw [hk, hosts_self]
      exact hkept.idle
    · rw [hosts_other s host hk]
      exact id
  case madeBy =>
    intro k
    by_cases hk : k = g
    · rw [madeBy, hk, hosts_self, hkept.unsent]
      rfl
    · rw [madeBy, hosts_other s host hk]
      rfl
  case receives =>
    intro k b
    by_cases hk : k = g
    · rw [hk, hosts_self]
      exact hkept.receives b
    · rw [hosts_other s host hk]

private theorem Calling.out_running (h : s.Calling) {g : Word} {l : DeviceLabel Message}
    {out : SynchDevice Unit Message Unit}
    (hs : (s.hosts g).out.step (networkOutput g) l = some out) :
    out.lock.aborted = false ∧ out.aborted = false :=
  (h.serial g).step_aborted (h.single g).running.2.2 (h.single g).running.2.1
    (fun t m _ hpc => ⟨_, networkOutput_accepts (h.inv.calls g t m hpc)⟩) hs

theorem Calling.outStep (h : s.Calling) {g : Word} {l : DeviceLabel Message}
    (hcall : ∀ t r, l ≠ .call t r) (hrequest : ∀ t, l ≠ .request t)
    (hs : s.outStep g l = some s') : s.SameCalls s' := by
  obtain ⟨out, hout, rfl⟩ := Option.map_eq_some_iff.mp hs
  exact h.setHost ((h.single g).outStep hout hcall hrequest (h.out_running hout))

private theorem transmit_hosts (s : PostState) (g : Word) (m : Message) (accepted : Bool)
    (packet : Image) (k : Word) : ∃ socket, (s.transmit g m accepted packet).hosts k =
      { s.hosts k with socket := socket } := by
  cases accepted with
  | false => exact ⟨(s.hosts k).socket, rfl⟩
  | true =>
    by_cases hk : k = m.pktHdr.toAddr
    · subst hk
      exact ⟨(s.hosts m.pktHdr.toAddr).socket ++ [packet], Function.update_self ..⟩
    · exact ⟨(s.hosts k).socket, Function.update_of_ne hk _ _⟩

private theorem transmit_sent (s : PostState) (g : Word) (m : Message) (accepted : Bool)
    (packet : Image) : (s.transmit g m accepted packet).sent = s.sent ++ [⟨g, m, accepted, packet⟩] := by
  cases accepted <;> rfl

theorem Calling.networkSend (h : s.Calling) {g : Word} {t : ThreadId} {m : Message}
    (accepted : Bool) (packet : Image) (hpc : (s.hosts g).out.pc t = .acquire m) {s₁ : PostState}
    (hs : s.outStep g (.request t) = some s₁) :
    (s₁.hosts g).aborted = false ∧ s.SameCalls (s₁.transmit g m accepted packet) := by
  obtain ⟨out, hout, rfl⟩ := Option.map_eq_some_iff.mp hs
  have hrunning := h.out_running hout
  have hmain : t = mainThread := by
    by_contra hne
    rw [(h.single g).sending t hne] at hpc
    cases hpc
  subst hmain
  obtain ⟨hunsent, hothers⟩ := SynchDevice.request_unsent hout hrunning.2
  generalize hhost : ({ s.hosts g with out := out, aborted := out.aborted } : Host) = host
  have hself : host.Single := by
    rw [← hhost]
    refine ⟨?_, (h.single g).receiving, hrunning.2, hrunning.2, hrunning.1⟩
    intro t ht
    exact (hothers t ht).trans ((h.single g).sending t ht)
  have hreceives : ∀ b, host.receives b = (s.hosts g).receives b := by
    intro b
    rw [← hhost]
    rfl
  have hnone : (host.out.pc mainThread).unsent = [] := by
    rw [← hhost]
    exact hunsent
  refine ⟨by rw [hosts_self]; exact hself.running.1, ?_⟩
  constructor
  case single =>
    intro k
    obtain ⟨socket, hk⟩ := transmit_hosts (s.setHost g host) g m accepted packet k
    rw [hk]
    by_cases hkg : k = g
    · rw [hkg, hosts_self]
      exact ⟨hself.sending, hself.receiving, hself.running⟩
    · rw [hosts_other s host hkg]
      exact ⟨(h.single k).sending, (h.single k).receiving, (h.single k).running⟩
  case receiving =>
    intro k b
    obtain ⟨socket, hk⟩ := transmit_hosts (s.setHost g host) g m accepted packet k
    rw [hk]
    show ((s.setHost g host).hosts k).receiving mainThread = _ → _
    by_cases hkg : k = g
    · rw [hkg, hosts_self, ← hhost]
      exact id
    · rw [hosts_other s host hkg]
      exact id
  case idle =>
    intro k hidle
    obtain ⟨socket, hk⟩ := transmit_hosts (s.setHost g host) g m accepted packet k
    rw [hk]
    show ((s.setHost g host).hosts k).out.pc mainThread = _
    by_cases hkg : k = g
    · rw [hkg, hpc] at hidle
      cases hidle
    · rw [hosts_other s host hkg]
      exact hidle
  case madeBy =>
    intro k
    obtain ⟨socket, hk⟩ := transmit_hosts (s.setHost g host) g m accepted packet k
    rw [madeBy, madeBy, hk, transmit_sent, List.filter_append, List.map_append]
    show _ ++ (((s.setHost g host).hosts k).out.pc mainThread).unsent = _
    by_cases hkg : k = g
    · subst hkg
      rw [hosts_self, hnone, List.append_nil, List.filter_cons_of_pos (by simp), hpc]
      rfl
    · rw [hosts_other s host hkg,
        List.filter_cons_of_neg (by simpa using fun heq => hkg heq.symm), List.filter_nil,
        List.map_nil, List.append_nil]
      rfl
  case receives =>
    intro k b
    obtain ⟨socket, hk⟩ := transmit_hosts (s.setHost g host) g m accepted packet k
    rw [hk]
    show ((s.setHost g host).hosts k).receives b = _
    by_cases hkg : k = g
    · rw [hkg, hosts_self, hreceives]
    · rw [hosts_other s host hkg]

theorem Calling.inside (h : s.Calling) {l : PostLabel} (hl : l.isCall = false)
    (hs : s.step NetworkTest.boxes l = some s') : s'.Calling ∧ s.SameCalls s' := by
  have hlegal : Legal NetworkTest.boxes s l := by
    cases l <;> first | exact ⟨trivial, trivial⟩ | cases hl
  have hsafe := h.safe.step h.inv hlegal hs
  suffices hsame : s.SameCalls s' from
    ⟨⟨h.inv.step hlegal.1 hs, hsafe.1, h.serial.step hs, hsame.single⟩, hsame⟩
  have hrunning := fun hreceiving => hsafe.2 hreceiving (h.single l.host).running.1
  cases l with
  | send g t m => cases hl
  | receive g t b => cases hl
  | networkSend g t accepted pad pad' =>
    simp only [PostState.step] at hs
    split at hs
    next m hpc =>
      obtain ⟨s₁, hout, rfl⟩ := Option.map_eq_some_iff.mp hs
      have hsend := h.networkSend accepted (m.wire g pad pad') hpc hout
      rw [if_neg (by rw [hsend.1]; simp)]
      exact hsend.2
    next => cases hs
  | sendLock g l => exact h.outStep (by simp) (by simp) hs
  | messageSentP g t => exact h.outStep (by simp) (by simp) hs
  | sendInterrupt g k => exact h.outStep (by simp) (by simp) hs
  | recvInterrupt g =>
    obtain rfl := Option.some.inj hs
    obtain ⟨hout, hboxes, -, hreturned, -⟩ := (s.hosts g).callBack_frame g
    have haborted := hrunning rfl
    rw [PostLabel.host, hosts_self] at haborted
    exact h.setHost ((h.single g).kept hout (fun b t _ => by rw [hboxes])
      (Host.callBack_receiving _ _) hreturned haborted)
  | workerP g =>
    obtain ⟨host, hhost, rfl⟩ := Option.map_eq_some_iff.mp hs
    obtain ⟨hout, hboxes, -, hreturned, -⟩ := Host.workerP_frame hhost
    have haborted := hrunning rfl
    rw [PostLabel.host, hosts_self] at haborted
    exact h.setHost ((h.single g).kept hout (fun b t _ => by rw [hboxes])
      (Host.workerP_receiving hhost) hreturned haborted)
  | deliver g =>
    obtain ⟨host, hhost, rfl⟩ := Option.map_eq_some_iff.mp hs
    obtain ⟨hreceiving, hreturned, hboxes⟩ := Host.deliver_others hhost
    have haborted := hrunning rfl
    rw [PostLabel.host, hosts_self] at haborted
    exact h.setHost ((h.single g).kept (Host.deliver_out hhost) hboxes hreceiving hreturned haborted)
  | boxCond g b l =>
    obtain ⟨host, hhost, rfl⟩ := Option.map_eq_some_iff.mp hs
    obtain ⟨boxState, hstep, -⟩ := Host.boxStep_cases hhost
    have haborted := hrunning rfl
    rw [PostLabel.host, hosts_self] at haborted
    exact h.setHost ((h.single g).boxStep (h.inv.boxes g) hstep (SynchState.moved_cond hstep) hhost
      haborted)
  | boxList g b t =>
    obtain ⟨host, hhost, rfl⟩ := Option.map_eq_some_iff.mp hs
    obtain ⟨boxState, hstep, -⟩ := Host.boxStep_cases hhost
    have haborted := hrunning rfl
    rw [PostLabel.host, hosts_self] at haborted
    exact h.setHost ((h.single g).boxStep (h.inv.boxes g) hstep (SynchState.moved_list hstep) hhost
      haborted)

/-- What a call of `Send` by the main thread changes. -/
structure Sends (s s' : PostState) (g : Word) (m : Message) : Prop where
  calling : s'.Calling
  receiving : ∀ h b, (s'.hosts h).receiving mainThread = some b →
    (s.hosts h).receiving mainThread = some b
  idle : ∀ h, h ≠ g → (s.hosts h).out.pc mainThread = .idle →
    (s'.hosts h).out.pc mainThread = .idle
  madeBy : ∀ h, s'.madeBy h = if h = g then s.madeBy h ++ [m] else s.madeBy h
  receives : ∀ h b, (s'.hosts h).receives b = (s.hosts h).receives b

/-- What a call of `Receive` by the main thread changes. -/
structure Receives (s s' : PostState) (g : Word) (b : Nat) : Prop where
  calling : s'.Calling
  receiving : ∀ h c, (s'.hosts h).receiving mainThread = some c →
    (h = g ∧ c = b) ∨ (s.hosts h).receiving mainThread = some c
  out : ∀ h, (s'.hosts h).out = (s.hosts h).out
  madeBy : ∀ h, s'.madeBy h = s.madeBy h
  receives : ∀ h c, (s'.hosts h).receives c =
    (s.hosts h).receives c + if h = g ∧ c = b then 1 else 0

private theorem free_main {host : Host} (h : host.free mainThread = true) :
    host.receiving mainThread = none ∧ host.out.pc mainThread = .idle := by
  simp only [Host.free, Bool.and_eq_true, Option.isNone_iff_eq_none] at h
  refine ⟨h.1.2, ?_⟩
  cases hpc : host.out.pc mainThread with
  | idle => rfl
  | acquire | wait | release =>
    rw [hpc] at h
    cases h.2

theorem Calling.send (h : s.Calling) {g : Word} (hfree : (s.hosts g).free mainThread = true)
    {m : Message} (hvalid : m.Valid NetworkTest.boxes) :
    ∃ s', s.step NetworkTest.boxes (.send g mainThread m) = some s' ∧ s.Sends s' g m := by
  obtain ⟨-, hidle⟩ := free_main hfree
  have hcall : (s.hosts g).out.step (networkOutput g) (.call mainThread m) =
      some { (s.hosts g).out with
        pc := Function.update (s.hosts g).out.pc mainThread (.acquire m) } := by
    simp only [SynchDevice.step, hidle]
  generalize hout : ({ (s.hosts g).out with
    pc := Function.update (s.hosts g).out.pc mainThread (.acquire m) } :
      SynchDevice Unit Message Unit) = out at hcall
  have hstep : s.step NetworkTest.boxes (.send g mainThread m) =
      some (s.setHost g { s.hosts g with out := out, aborted := out.aborted }) := by
    simp only [PostState.step, hfree, hvalid.length, hvalid.nonneg, and_self, if_true,
      PostState.outStep, hcall, Option.map_some]
  have hrunning := h.out_running hcall
  have hmain : out.pc mainThread = .acquire m := by
    rw [← hout]
    show Function.update (s.hosts g).out.pc mainThread (.acquire m) mainThread = _
    rw [Function.update_self]
  have hothers : ∀ t, t ≠ mainThread → out.pc t = (s.hosts g).out.pc t := by
    intro t ht
    rw [← hout]
    exact Function.update_of_ne ht _ _
  generalize hhost : ({ s.hosts g with out := out, aborted := out.aborted } : Host) = host at hstep
  have hhostout : host.out = out := by rw [← hhost]
  refine ⟨_, hstep, ?_⟩
  constructor
  case calling =>
    have hlegal : Legal NetworkTest.boxes s (.send g mainThread m) := ⟨hvalid, trivial⟩
    refine ⟨h.inv.step hlegal.1 hstep, (h.safe.step h.inv hlegal hstep).1, h.serial.step hstep, ?_⟩
    intro k
    by_cases hk : k = g
    · rw [hk, hosts_self, ← hhost]
      refine ⟨?_, (h.single g).receiving, hrunning.2, hrunning.2, hrunning.1⟩
      intro t ht
      exact (hothers t ht).trans ((h.single g).sending t ht)
    · rw [hosts_other s host hk]
      exact h.single k
  case receiving =>
    intro k b
    by_cases hk : k = g
    · rw [hk, hosts_self, ← hhost]
      exact id
    · rw [hosts_other s host hk]
      exact id
  case idle =>
    intro k hk
    rw [hosts_other s host hk]
    exact id
  case madeBy =>
    intro k
    by_cases hk : k = g
    · subst hk
      rw [if_pos rfl, madeBy, madeBy, hosts_self, hhostout, hmain, hidle]
      show _ ++ [m] = (_ ++ []) ++ [m]
      rw [List.append_nil]
      rfl
    · rw [if_neg hk, madeBy, hosts_other s host hk]
      rfl
  case receives =>
    intro k b
    by_cases hk : k = g
    · rw [hk, hosts_self, ← hhost]
      rfl
    · rw [hosts_other s host hk]

theorem Calling.receive (h : s.Calling) {g : Word} (hfree : (s.hosts g).free mainThread = true)
    {b : Nat} (hb : b < kernelBoxes) :
    ∃ s', s.step NetworkTest.boxes (.receive g mainThread b) = some s' ∧ s.Receives s' g b := by
  obtain ⟨hnone, -⟩ := free_main hfree
  have hidle : ((s.hosts g).boxes b).pc mainThread = .idle := by
    by_contra hbusy
    have hin := ((h.single g).receiving b mainThread (by decide) hbusy).2
    rw [hnone] at hin
    cases hin
  have hcall : ((s.hosts g).boxes b).step (.removeFront mainThread) =
      some { (s.hosts g).boxes b with
        pc := Function.update ((s.hosts g).boxes b).pc mainThread .removeAcquire } := by
    simp only [SynchState.step, hidle]
  generalize hbox : ({ (s.hosts g).boxes b with
    pc := Function.update ((s.hosts g).boxes b).pc mainThread .removeAcquire } :
      SynchState Mail) = box at hcall
  have hothers : ∀ t, t ≠ mainThread → box.pc t = ((s.hosts g).boxes b).pc t := by
    intro t ht
    rw [← hbox]
    exact Function.update_of_ne ht _ _
  have hreceive : (s.hosts g).receive kernelBoxes mainThread b =
      some { s.hosts g with
        boxes := Function.update (s.hosts g).boxes b box,
        receiving := Function.update (s.hosts g).receiving mainThread (some b) } := by
    simp only [Host.receive, hfree, hb, if_true, hcall, Option.map_some]
  generalize hhost : ({ s.hosts g with
    boxes := Function.update (s.hosts g).boxes b box,
    receiving := Function.update (s.hosts g).receiving mainThread (some b) } : Host) = host
      at hreceive
  have hstep : s.step NetworkTest.boxes (.receive g mainThread b) = some (s.setHost g host) := by
    simp only [PostState.step, hreceive, Option.map_some]
  have hhostreceiving : host.receiving mainThread = some b := by
    rw [← hhost]
    show Function.update (s.hosts g).receiving mainThread (some b) mainThread = _
    rw [Function.update_self]
  refine ⟨_, hstep, ?_⟩
  constructor
  case calling =>
    have hlegal : Legal NetworkTest.boxes s (.receive g mainThread b) := ⟨trivial, hb⟩
    refine ⟨h.inv.step hlegal.1 hstep, (h.safe.step h.inv hlegal hstep).1, h.serial.step hstep, ?_⟩
    intro k
    by_cases hk : k = g
    · rw [hk, hosts_self]
      refine ⟨?_, ?_, ?_⟩
      · rw [← hhost]
        exact (h.single g).sending
      · intro c t ht hbusy
        rw [hhostreceiving]
        have hpc : (host.boxes c).pc t =
            if c = b then box.pc t else ((s.hosts g).boxes c).pc t := by
          rw [← hhost]
          show (Function.update (s.hosts g).boxes b box c).pc t = _
          by_cases hc : c = b
          · rw [hc, Function.update_self, if_pos rfl]
          · rw [Function.update_of_ne hc, if_neg hc]
        have hfreebox : ∀ c, ((s.hosts g).boxes c).pc t = .idle := by
          intro c
          by_contra hin
          have hin := ((h.single g).receiving c t ht hin).2
          rw [hnone] at hin
          cases hin
        rw [hpc] at hbusy
        split at hbusy
        next hc =>
          refine ⟨?_, by rw [hc]⟩
          by_contra hne
          exact hbusy ((hothers t hne).trans (hfreebox b))
        next => exact absurd (hfreebox c) hbusy
      · rw [← hhost]
        exact (h.single g).running
    · rw [hosts_other s host hk]
      exact h.single k
  case receiving =>
    intro k c hc
    by_cases hk : k = g
    · rw [hk, hosts_self, hhostreceiving] at hc
      exact .inl ⟨hk, (Option.some.inj hc).symm⟩
    · rw [hosts_other s host hk] at hc
      exact .inr hc
  case out =>
    intro k
    by_cases hk : k = g
    · rw [hk, hosts_self, ← hhost]
    · rw [hosts_other s host hk]
  case madeBy =>
    intro k
    by_cases hk : k = g
    · rw [madeBy, hk, hosts_self, ← hhost]
      rfl
    · rw [madeBy, hosts_other s host hk]
      rfl
  case receives =>
    intro k c
    by_cases hk : k = g
    · have hreturned : host.returned = (s.hosts g).returned := by rw [← hhost]
      subst hk
      have hnot : ¬ (none : Option Nat) = some c := by simp
      rw [hosts_self, Host.receives, Host.receives, hreturned, hhostreceiving, hnone,
        if_neg hnot, Nat.add_zero]
      congr 1
      by_cases hc : c = b
      · rw [if_pos (by rw [hc]), if_pos ⟨rfl, hc⟩]
      · rw [if_neg fun heq => hc (Option.some.inj heq).symm, if_neg fun heq => hc heq.2]
    · rw [hosts_other s host hk, if_neg fun heq => hk heq.1, Nat.add_zero]

end PostState

/-! ## The runs of the test -/

namespace TestPc

/-- The messages the test has sent when it is at `pc`. -/
def sends (first second : Message) : TestPc → List Message
  | .start => []
  | .sent | .receiving => [first]
  | .acked | .awaiting | .done => [first, second]

private theorem sends_isPrefix (first second : Message) (pc : TestPc) :
    pc.sends first second <+: [first, second] := by
  cases pc <;> exact ⟨_, rfl⟩

/-- The calls of `Receive` it has made for a box. -/
def receives (b : Nat) : TestPc → Nat
  | .start | .sent => 0
  | .receiving | .acked => if b = 0 then 1 else 0
  | .awaiting | .done => if b = 0 ∨ b = 1 then 1 else 0

def prints (first second : GotLine) : TestPc → List GotLine
  | .start | .sent | .receiving => []
  | .acked | .awaiting => [first]
  | .done => [first, second]

def box : TestPc → Option Nat
  | .receiving => some 0
  | .awaiting => some 1
  | _ => none

def sending : TestPc → Bool
  | .sent | .acked => true
  | _ => false

end TestPc

namespace NetworkTest

variable {outPktHdr : Word → PacketHeader} {s s' : NetworkTest}

def firstMessage (outPktHdr : Word → PacketHeader) (h : Word) : Message :=
  textMessage (outPktHdr h) (farHost h) 0 1 testData

def secondMessage (outPktHdr : Word → PacketHeader) (h : Word) : Message :=
  textMessage (outPktHdr h) (farHost h) 1 1 testAck

def firstLine (h : Word) : GotLine := { text := testData, fromHost := farHost h, box := 1 }

def secondLine (h : Word) : GotLine := { text := testAck, fromHost := farHost h, box := 1 }

structure Inv (outPktHdr : Word → PacketHeader) (s : NetworkTest) : Prop where
  calling : s.post.Calling
  made : ∀ h, s.post.madeBy h =
    (s.pc h).sends (firstMessage outPktHdr h) (secondMessage outPktHdr h)
  received : ∀ h b, (s.post.hosts h).receives b = (s.pc h).receives b
  printed : ∀ h, s.printed h = (s.pc h).prints (firstLine h) (secondLine h)
  off : ∀ h, h ≠ 0 → h ≠ 1 → s.pc h = .start
  waiting : ∀ h b, (s.post.hosts h).receiving mainThread = some b → (s.pc h).box = some b
  sending : ∀ h, (s.pc h).sending = false → (s.post.hosts h).out.pc mainThread = .idle

/-! ## The messages -/

private theorem valid_textMessage (hdr : PacketHeader) {toHost toBox fromBox : Word}
    {data : List Byte} (hlength : data.length < maxMailSize) (hbox : toBox = 0 ∨ toBox = 1) :
    (textMessage hdr toHost toBox fromBox data).Valid boxes := by
  constructor
  · show (BitVec.ofNat 32 (data.length + 1)).toNat ≤ maxMailSize
    rw [BitVec.toNat_ofNat]
    exact (Nat.mod_le _ _).trans hlength
  · show 0 ≤ toBox.toInt
    rcases hbox with rfl | rfl <;> decide
  · show toBox.toInt < (kernelBoxes : Nat)
    rcases hbox with rfl | rfl <;> decide

private theorem cString_blit {data : List Byte} (hdata : ∀ c ∈ data, c ≠ 0)
    (hlength : data.length < maxMailSize) (buffer : Image) {src : Image}
    (hsrc : ∀ a, a ≤ data.length → src a = data.getD a 0) :
    cString (buffer.blit 0 src (data.length + 1)) = data := by
  have hat : ∀ a, a ≤ data.length → buffer.blit 0 src (data.length + 1) a = data.getD a 0 := by
    intro a ha
    rw [Image.blit_of_mem (Nat.zero_le _) (by omega), Nat.sub_zero, hsrc a ha]
  have hsplit : maxMailSize = data.length + (1 + (maxMailSize - data.length - 1)) := by omega
  rw [cString, firstBytes, hsplit, List.range_add, List.map_append, List.range_add, List.map_append]
  have hfirst : (List.range data.length).map (buffer.blit 0 src (data.length + 1)) = data := by
    apply List.ext_getElem
    · simp
    · intro a h₁ h₂
      rw [List.getElem_map, List.getElem_range, hat a h₂.le]
      simp [List.getD, h₂]
  rw [hfirst, List.takeWhile_append_of_pos (by simpa using hdata)]
  have hzero : buffer.blit 0 src (data.length + 1) data.length = 0 := by
    rw [hat _ le_rfl]
    simp [List.getD]
  simp [hzero]

private theorem letter_textMessage (hdr : PacketHeader) (toHost toBox fromBox sender : Word)
    {data : List Byte} (hlength : data.length < maxMailSize) :
    ((textMessage hdr toHost toBox fromBox data).letter sender).mailHdr.length.toNat =
        data.length + 1 ∧
      ((textMessage hdr toHost toBox fromBox data).letter sender).data =
        firstBytes (fun a => data.getD a 0) (data.length + 1) := by
  have hnat : (BitVec.ofNat 32 (data.length + 1)).toNat = data.length + 1 := by
    rw [BitVec.toNat_ofNat]
    apply Nat.mod_eq_of_lt
    simp only [maxMailSize, maxPacketSize, maxWireSize, headerSize] at hlength
    omega
  refine ⟨hnat, ?_⟩
  show firstBytes _ (BitVec.ofNat 32 (data.length + 1)).toNat = _
  rw [hnat]
  rfl

private theorem got_textMessage (s : NetworkTest) (h : Word) {hdr : PacketHeader}
    {toHost toBox fromBox sender : Word} {data : List Byte} (hdata : ∀ c ∈ data, c ≠ 0)
    (hlength : data.length < maxMailSize) :
    (s.got h ((textMessage hdr toHost toBox fromBox data).letter sender)).printed h =
      s.printed h ++ [{ text := data, fromHost := sender, box := fromBox }] := by
  obtain ⟨hmail, hletter⟩ := letter_textMessage hdr toHost toBox fromBox sender hlength
  show Function.update s.printed h _ h = _
  rw [Function.update_self, hmail, hletter]
  refine congrArg (fun text => s.printed h ++ [GotLine.mk text sender fromBox]) ?_
  apply cString_blit hdata hlength
  intro a ha
  have hlt : a < data.length + 1 := Nat.lt_succ_of_le ha
  simp [firstBytes, hlt]

private theorem testData_text : (∀ c ∈ testData, c ≠ 0) ∧ testData.length < maxMailSize := by decide

private theorem testAck_text : (∀ c ∈ testAck, c ≠ 0) ∧ testAck.length < maxMailSize := by decide

private theorem valid_firstMessage (outPktHdr : Word → PacketHeader) (h : Word) :
    (firstMessage outPktHdr h).Valid boxes :=
  valid_textMessage _ testData_text.2 (.inl rfl)

private theorem valid_secondMessage (outPktHdr : Word → PacketHeader) (h : Word) :
    (secondMessage outPktHdr h).Valid boxes :=
  valid_textMessage _ testAck_text.2 (.inr rfl)

/-! ## What arrives -/

private theorem Inv.sent_cases (h : s.Inv outPktHdr) {r : Sent} (hr : r ∈ s.post.sent) :
    (r.host = 0 ∨ r.host = 1) ∧
      (r.message = firstMessage outPktHdr r.host ∨ r.message = secondMessage outPktHdr r.host) := by
  have hmade : r.message ∈ s.post.madeBy r.host := by
    apply List.mem_append_left
    apply List.mem_map_of_mem
    exact List.mem_filter.mpr ⟨hr, by simp⟩
  rw [h.made] at hmade
  constructor
  · by_contra hother
    rw [h.off r.host (fun heq => hother (.inl heq)) fun heq => hother (.inr heq)] at hmade
    cases hmade
  · simpa using (TestPc.sends_isPrefix _ _ (s.pc r.host)).subset hmade

private theorem farHost_farHost {h : Word} (hh : h = 0 ∨ h = 1) : farHost (farHost h) = h := by
  rcases hh with rfl | rfl <;> decide

/-- A mail that a receiver got from one of the two boxes is the message the other host sends to
that box. -/
private theorem Inv.letter_eq (h : s.Inv outPktHdr) {g : Word} {b : Nat} {mail : Mail}
    (hmail : mail ∈ (s.post.hosts g).returned b) :
    (b = 0 → mail.letter = (firstMessage outPktHdr (farHost g)).letter (farHost g)) ∧
      (b = 1 → mail.letter = (secondMessage outPktHdr (farHost g)).letter (farHost g)) := by
  have hreturned := (h.calling.inv.returned_isPrefix g b).subset hmail
  have haccepted : mail.letter ∈ s.post.acceptedTo g b :=
    (h.calling.inv.mailsFor_isPrefix g b).subset (List.mem_map_of_mem hreturned)
  obtain ⟨r, hr, hletter⟩ := List.mem_map.mp ((s.post.acceptedTo_sublist g b).subset haccepted)
  obtain ⟨hmem, hcond⟩ := List.mem_filter.mp hr
  obtain ⟨hto, hbox⟩ := of_decide_eq_true hcond
  obtain ⟨hhost, hmessage⟩ := h.sent_cases hmem
  have hfar : r.host = farHost g := by
    rw [← hto]
    rcases hmessage with hm | hm
    · rw [hm]
      exact (farHost_farHost hhost).symm
    · rw [hm]
      exact (farHost_farHost hhost).symm
  rw [← hletter, ← hfar]
  rcases hmessage with hm | hm
  · rw [hm] at hbox ⊢
    have hzero : (0 : Int) = b := hbox
    exact ⟨fun _ => rfl, fun hb => by omega⟩
  · rw [hm] at hbox ⊢
    have hone : (1 : Int) = b := hbox
    exact ⟨fun hb => by omega, fun _ => rfl⟩

/-! ## The steps -/

theorem Inv.init (hs : (networkTest outPktHdr).init s) : s.Inv outPktHdr := by
  obtain ⟨hpost, hpc, hprinted⟩ := hs
  have hhosts := hpost.2
  constructor
  case calling =>
    refine ⟨(PostState.inv_inductive boxes).init _ hpost, ?_,
      (PostState.serial_inductive boxes).init _ hpost, ?_⟩
    · exact ((PostState.safe_inductive boxes).init _ hpost).2
    · intro h
      obtain ⟨inHdr, inbox, buffer, hhost⟩ := hhosts h
      rw [hhost]
      exact Host.single_new _ _ _
  case made =>
    intro h
    obtain ⟨inHdr, inbox, buffer, hhost⟩ := hhosts h
    rw [PostState.madeBy, hpost.1, hhost, hpc]
    rfl
  case received =>
    intro h b
    obtain ⟨inHdr, inbox, buffer, hhost⟩ := hhosts h
    rw [hhost, hpc]
    rfl
  case printed =>
    intro h
    rw [hprinted, hpc]
    rfl
  case off => exact fun h _ _ => hpc h
  case waiting =>
    intro h b hb
    obtain ⟨inHdr, inbox, buffer, hhost⟩ := hhosts h
    rw [hhost] at hb
    cases hb
  case sending =>
    intro h _
    obtain ⟨inHdr, inbox, buffer, hhost⟩ := hhosts h
    rw [hhost]
    rfl

theorem Inv.inside (h : s.Inv outPktHdr) {l : PostLabel} (hl : l.isCall = false)
    {post : PostState} (hs : s.post.step boxes l = some post) :
    { s with post := post }.Inv outPktHdr := by
  obtain ⟨hcalling, hsame⟩ := h.calling.inside hl hs
  constructor
  case calling => exact hcalling
  case made => exact fun g => (hsame.madeBy g).trans (h.made g)
  case received => exact fun g b => (hsame.receives g b).trans (h.received g b)
  case printed => exact h.printed
  case off => exact h.off
  case waiting => exact fun g b hb => h.waiting g b (hsame.receiving g b hb)
  case sending => exact fun g hg => hsame.idle g (h.sending g hg)

/-- The test calls `Send`; `s₁` differs from `s` in what was printed before the call. -/
theorem Inv.send (h : s.Inv outPktHdr) {s₁ : NetworkTest} {g : Word} (hg : g = 0 ∨ g = 1)
    {m : Message} {post : PostState} (hsends : s.post.Sends post g m) {pc : TestPc}
    (hpc : pc.sending = true)
    (hmade : pc.sends (firstMessage outPktHdr g) (secondMessage outPktHdr g) =
      (s.pc g).sends (firstMessage outPktHdr g) (secondMessage outPktHdr g) ++ [m])
    (hreceives : ∀ b, pc.receives b = (s.pc g).receives b) (hbox : (s.post.hosts g).receiving mainThread = none)
    (hs₁ : s₁.pc = s.pc)
    (hprinted : ∀ k, s₁.printed k =
      (if k = g then pc else s.pc k).prints (firstLine k) (secondLine k)) :
    (s₁.goOn g pc post).Inv outPktHdr := by
  have hat : ∀ k, (s₁.goOn g pc post).pc k = if k = g then pc else s.pc k := by
    intro k
    show Function.update s₁.pc g pc k = _
    rw [hs₁]
    exact Function.update_apply ..
  constructor
  case calling => exact hsends.calling
  case made =>
    intro k
    rw [hat]
    show post.madeBy k = _
    rw [hsends.madeBy k, h.made k]
    split
    next hk => rw [hk, hmade]
    next => rfl
  case received =>
    intro k b
    rw [hat]
    show (post.hosts k).receives b = _
    rw [hsends.receives k b, h.received k b]
    split
    next hk => rw [hk, hreceives]
    next => rfl
  case printed =>
    intro k
    rw [hat]
    exact hprinted k
  case off =>
    intro k h₀ h₁
    have hk : k ≠ g := by
      rintro rfl
      rcases hg with hg | hg
      · exact h₀ hg
      · exact h₁ hg
    rw [hat, if_neg hk]
    exact h.off k h₀ h₁
  case waiting =>
    intro k b hb
    have hold := hsends.receiving k b hb
    rw [hat]
    split
    next hk =>
      rw [hk, hbox] at hold
      cases hold
    next => exact h.waiting k b hold
  case sending =>
    intro k hk
    rw [hat] at hk
    split at hk
    next => rw [hpc] at hk; cases hk
    next hkg => exact hsends.idle k hkg (h.sending k hk)

/-- The test calls `Receive`. -/
theorem Inv.receive (h : s.Inv outPktHdr) {g : Word} (hg : g = 0 ∨ g = 1) {b : Nat}
    {post : PostState} (hreceives : s.post.Receives post g b) {pc : TestPc}
    (hidle : (s.post.hosts g).out.pc mainThread = .idle) (hbox : pc.box = some b)
    (hmade : pc.sends (firstMessage outPktHdr g) (secondMessage outPktHdr g) =
      (s.pc g).sends (firstMessage outPktHdr g) (secondMessage outPktHdr g))
    (hcount : ∀ c, pc.receives c = (s.pc g).receives c + if c = b then 1 else 0)
    (hnone : (s.post.hosts g).receiving mainThread = none)
    (hprints : pc.prints (firstLine g) (secondLine g) =
      (s.pc g).prints (firstLine g) (secondLine g)) :
    (s.goOn g pc post).Inv outPktHdr := by
  have hat : ∀ k, (s.goOn g pc post).pc k = if k = g then pc else s.pc k :=
    fun k => Function.update_apply ..
  constructor
  case calling => exact hreceives.calling
  case made =>
    intro k
    rw [hat]
    show post.madeBy k = _
    rw [hreceives.madeBy k, h.made k]
    split
    next hk => rw [hk, hmade]
    next => rfl
  case received =>
    intro k c
    rw [hat]
    show (post.hosts k).receives c = _
    rw [hreceives.receives k c, h.received k c]
    by_cases hk : k = g
    · rw [if_pos hk, hk, hcount]
      simp
    · rw [if_neg hk, if_neg fun heq => hk heq.1, Nat.add_zero]
  case printed =>
    intro k
    rw [hat]
    show s.printed k = _
    rw [h.printed k]
    split
    next hk => rw [hk, hprints]
    next => rfl
  case off =>
    intro k h₀ h₁
    have hk : k ≠ g := by
      rintro rfl
      rcases hg with hg | hg
      · exact h₀ hg
      · exact h₁ hg
    rw [hat, if_neg hk]
    exact h.off k h₀ h₁
  case waiting =>
    intro k c hc
    rw [hat]
    rcases hreceives.receiving k c hc with ⟨hk, hcb⟩ | hold
    · rw [if_pos hk, hcb, hbox]
    · split
      next hk =>
        rw [hk, hnone] at hold
        cases hold
      next => exact h.waiting k c hold
  case sending =>
    intro k hk
    show (post.hosts k).out.pc mainThread = _
    rw [hreceives.out k]
    rw [hat] at hk
    split at hk
    next hkg =>
      rw [hkg]
      exact hidle
    next => exact h.sending k hk

private theorem got_printed_other (s : NetworkTest) {g k : Word} (mail : Letter) (hk : k ≠ g) :
    (s.got g mail).printed k = s.printed k :=
  Function.update_of_ne hk _ _

private theorem Inv.got_first (h : s.Inv outPktHdr) {g : Word} (hpc : s.pc g = .receiving)
    {mail : Mail} (hmail : mail ∈ (s.post.hosts g).returned 0) (k : Word) :
    (s.got g mail.letter).printed k =
      (if k = g then .acked else s.pc k).prints (firstLine k) (secondLine k) := by
  rw [(h.letter_eq hmail).1 rfl]
  split
  next hk =>
    rw [hk, firstMessage, got_textMessage s g testData_text.1 testData_text.2, h.printed g, hpc]
    rfl
  next hk => rw [got_printed_other s _ hk, h.printed k]

private theorem Inv.got_second (h : s.Inv outPktHdr) {g : Word} (hpc : s.pc g = .awaiting)
    {mail : Mail} (hmail : mail ∈ (s.post.hosts g).returned 1) (k : Word) :
    (s.got g mail.letter).printed k =
      (if k = g then .done else s.pc k).prints (firstLine k) (secondLine k) := by
  rw [(h.letter_eq hmail).2 rfl]
  split
  next hk =>
    rw [hk, secondMessage, got_textMessage s g testAck_text.1 testAck_text.2, h.printed g, hpc]
    rfl
  next hk => rw [got_printed_other s _ hk, h.printed k]

/-- A call of `Receive` that has returned gave a mail. -/
theorem Inv.returned (h : s.Inv outPktHdr) {g : Word} {b : Nat}
    (hnone : (s.post.hosts g).receiving mainThread = none) (hone : (s.pc g).receives b = 1) :
    ∃ mail ∈ (s.post.hosts g).returned b, ((s.post.hosts g).returned b).getLast? = some mail := by
  have hcount := h.received g b
  have hnot : ¬ (none : Option Nat) = some b := by simp
  rw [hone, Host.receives, hnone, if_neg hnot, Nat.add_zero] at hcount
  obtain ⟨mail, hlist⟩ := List.length_eq_one_iff.mp hcount
  exact ⟨mail, by simp [hlist], by simp [hlist]⟩

theorem Inv.run (h : s.Inv outPktHdr) {g : Word} (hg : g = 0 ∨ g = 1)
    (hfree : (s.post.hosts g).free mainThread = true) (hdone : s.pc g ≠ .done) :
    ∃ s', s.run outPktHdr g = some s' ∧ s'.Inv outPktHdr := by
  obtain ⟨hnone, hidle⟩ := PostState.free_main hfree
  have hsame : ∀ pc k, (pc : TestPc).prints (firstLine g) (secondLine g) =
      (s.pc g).prints (firstLine g) (secondLine g) →
      s.printed k = (if k = g then pc else s.pc k).prints (firstLine k) (secondLine k) := by
    intro pc k hpc
    rw [h.printed k]
    split
    next hk => rw [hk, hpc]
    next => rfl
  cases hpc : s.pc g with
  | start =>
    obtain ⟨post, hstep, hsends⟩ := h.calling.send hfree (valid_firstMessage outPktHdr g)
    have hrun : s.run outPktHdr g = some (s.goOn g .sent post) := by
      simp only [NetworkTest.run, hg, hfree, hpc, and_self, if_true]
      rw [show s.post.step boxes (.send g mainThread (textMessage (outPktHdr g) (farHost g) 0 1
        testData)) = some post from hstep, Option.map_some]
    refine ⟨_, hrun, h.send hg hsends rfl ?_ ?_ hnone rfl fun k => hsame _ k ?_⟩
    · rw [hpc]
      rfl
    · rw [hpc]
      exact fun _ => rfl
    · rw [hpc]
      rfl
  | sent =>
    obtain ⟨post, hstep, hreceives⟩ := h.calling.receive hfree (b := 0) (by decide)
    have hrun : s.run outPktHdr g = some (s.goOn g .receiving post) := by
      simp only [NetworkTest.run, hg, hfree, hpc, and_self, if_true, hstep, Option.map_some]
    refine ⟨_, hrun, h.receive hg hreceives hidle rfl ?_ ?_ hnone ?_⟩
    · rw [hpc]
      rfl
    · rw [hpc]
      intro c
      exact (Nat.zero_add _).symm
    · rw [hpc]
      rfl
  | receiving =>
    obtain ⟨mail, hmem, hlast⟩ := h.returned hnone (b := 0) (by rw [hpc]; rfl)
    obtain ⟨post, hstep, hsends⟩ := h.calling.send hfree (valid_secondMessage outPktHdr g)
    have hmessage : textMessage (outPktHdr g) mail.letter.pktHdr.fromAddr
        mail.letter.mailHdr.fromAddr 1 testAck = secondMessage outPktHdr g := by
      rw [(h.letter_eq hmem).1 rfl]
      rfl
    have hrun : s.run outPktHdr g = some ((s.got g mail.letter).goOn g .acked post) := by
      simp only [NetworkTest.run, hg, hfree, hpc, and_self, if_true, hlast, hmessage, hstep,
        Option.bind_eq_bind, Option.bind_some]
    refine ⟨_, hrun, h.send hg hsends rfl ?_ ?_ hnone rfl (h.got_first hpc hmem)⟩
    · rw [hpc]
      rfl
    · rw [hpc]
      exact fun _ => rfl
  | acked =>
    obtain ⟨post, hstep, hreceives⟩ := h.calling.receive hfree (b := 1) (by decide)
    have hrun : s.run outPktHdr g = some (s.goOn g .awaiting post) := by
      simp only [NetworkTest.run, hg, hfree, hpc, and_self, if_true, hstep, Option.map_some]
    refine ⟨_, hrun, h.receive hg hreceives hidle rfl ?_ ?_ hnone ?_⟩
    · rw [hpc]
      rfl
    · rw [hpc]
      intro c
      show (if c = 0 ∨ c = 1 then 1 else 0) = (if c = 0 then 1 else 0) + if c = 1 then 1 else 0
      split <;> split <;> split <;> omega
    · rw [hpc]
      rfl
  | awaiting =>
    obtain ⟨mail, hmem, hlast⟩ := h.returned hnone (b := 1) (by rw [hpc]; rfl)
    have hrun : s.run outPktHdr g = some ((s.got g mail.letter).goOn g .done s.post) := by
      simp only [NetworkTest.run, hg, hfree, hpc, and_self, if_true, hlast, Option.bind_eq_bind,
        Option.bind_some]
    have hat : ∀ k, ((s.got g mail.letter).goOn g .done s.post).pc k =
        if k = g then .done else s.pc k := fun k => Function.update_apply ..
    refine ⟨_, hrun, ?_⟩
    constructor
    case calling => exact h.calling
    case made =>
      intro k
      rw [hat]
      show s.post.madeBy k = _
      rw [h.made k]
      split
      next hk => rw [hk, hpc]; rfl
      next => rfl
    case received =>
      intro k b
      rw [hat]
      show (s.post.hosts k).receives b = _
      rw [h.received k b]
      split
      next hk => rw [hk, hpc]; rfl
      next => rfl
    case printed =>
      intro k
      rw [hat]
      exact h.got_second hpc hmem k
    case off =>
      intro k h₀ h₁
      rw [hat, if_neg]
      · exact h.off k h₀ h₁
      · rintro rfl
        rcases hg with hg | hg
        · exact h₀ hg
        · exact h₁ hg
    case waiting =>
      intro k b hb
      rw [hat]
      split
      next hk =>
        have hb : (s.post.hosts k).receiving mainThread = some b := hb
        rw [hk, hnone] at hb
        cases hb
      next => exact h.waiting k b hb
    case sending =>
      intro k hk
      rw [hat] at hk
      split at hk
      next hkg =>
        rw [hkg]
        exact hidle
      next => exact h.sending k hk
  | done => exact absurd hpc hdone

theorem inv_inductive (outPktHdr : Word → PacketHeader) :
    (networkTest outPktHdr).Inductive (Inv outPktHdr) where
  init _ hs := .init hs
  step s l s' h hs := by
    obtain ⟨-, hs⟩ := hs
    cases l with
    | post l =>
      simp only [NetworkTest.step] at hs
      split at hs
      next => cases hs
      next hl =>
        obtain ⟨post, hpost, rfl⟩ := Option.map_eq_some_iff.mp hs
        exact h.inside (Bool.not_eq_true _ ▸ hl) hpost
    | run g =>
      have hrun : s.run outPktHdr g = some s' := hs
      have hgo : (g = 0 ∨ g = 1) ∧ (s.post.hosts g).free mainThread = true := by
        by_contra hnot
        rw [NetworkTest.run, if_neg hnot] at hrun
        cases hrun
      have hdone : s.pc g ≠ .done := by
        intro hpc
        simp only [NetworkTest.run, if_pos hgo, hpc] at hrun
        cases hrun
      obtain ⟨s₁, hs₁, hinv⟩ := h.run hgo.1 hgo.2 hdone
      rw [Option.some.inj (hrun.symm.trans hs₁)]
      exact hinv

/-! ## Waiting -/

def Delivered (s : NetworkTest) : Prop := ∀ g b, s.post.receivedFrom g b = s.post.sentTo g b

private theorem Inv.still_sending (h : s.Inv outPktHdr) (hdelivered : s.Delivered) {g : Word}
    {b : Nat} (hwaits : (s.post.hosts g).receiving mainThread = some b)
    {m : Message} (hto : m.pktHdr.toAddr = g) (hbox : m.mailHdr.toAddr.toInt = (b : Int))
    (hmade : m ∈ (s.pc (farHost g)).sends (firstMessage outPktHdr (farHost g))
      (secondMessage outPktHdr (farHost g))) : (s.pc (farHost g)).sending = true := by
  by_contra hnot
  have hidle := h.sending (farHost g) (Bool.not_eq_true _ ▸ hnot)
  rw [← h.made, PostState.madeBy, hidle] at hmade
  have hsent : m ∈ (s.post.sent.filter fun r => r.host = farHost g).map Sent.message := by
    simpa [DevicePc.unsent] using hmade
  obtain ⟨r, hr, hmessage⟩ := List.mem_map.mp hsent
  have hletter : r.message.letter r.host ∈ s.post.sentTo g b := by
    apply List.mem_map_of_mem (f := fun r : Sent => r.message.letter r.host)
    refine List.mem_filter.mpr ⟨(List.mem_filter.mp hr).1, decide_eq_true ?_⟩
    rw [hmessage]
    exact ⟨hto, hbox⟩
  have hcount := h.received g b
  rw [Host.receives, if_pos hwaits] at hcount
  have hone : (s.pc g).receives b ≤ 1 := by
    cases s.pc g <;> simp only [TestPc.receives] <;> (try split) <;> omega
  have hnone : (s.post.hosts g).returned b = [] := List.length_eq_zero_iff.mp (by omega)
  rw [← hdelivered g b, PostState.receivedFrom, hnone] at hletter
  cases hletter

theorem Inv.progress (h : s.Inv outPktHdr) (hdelivered : s.Delivered) {g : Word}
    (hg : g = 0 ∨ g = 1) (hdone : s.pc g ≠ .done) :
    ∃ k, (k = 0 ∨ k = 1) ∧ s.pc k ≠ .done ∧ (s.post.hosts k).receiving mainThread = none := by
  by_contra hnone
  have hstuck : ∀ k, k = 0 ∨ k = 1 → s.pc k ≠ .done →
      ∃ b, (s.post.hosts k).receiving mainThread = some b ∧ (s.pc k).box = some b := by
    intro k hk hpc
    obtain ⟨b, hb⟩ := Option.ne_none_iff_exists'.mp fun heq => hnone ⟨k, hk, hpc, heq⟩
    exact ⟨b, hb, h.waiting k b hb⟩
  have hfar : ∀ k, farHost k = 0 ∨ farHost k = 1 := by
    intro k
    unfold farHost
    split
    · exact .inr rfl
    · exact .inl rfl
  have hnotSending : ∀ k, k = 0 ∨ k = 1 → (s.pc k).sending = false := by
    intro k hk
    by_cases hpc : s.pc k = .done
    · rw [hpc]
      rfl
    · obtain ⟨b, -, hbox⟩ := hstuck k hk hpc
      cases hk : s.pc k <;> rw [hk] at hbox <;> first | rfl | cases hbox
  -- who waits for the first message of the other host waits for one that has not begun
  have hfirst : ∀ k, k = 0 ∨ k = 1 → s.pc k = .receiving → s.pc (farHost k) = .start := by
    intro k hk hpc
    by_contra hbegun
    obtain ⟨b, hb, hbox⟩ := hstuck k hk (by rw [hpc]; simp)
    rw [hpc] at hbox
    obtain rfl := Option.some.inj hbox
    have hsending := h.still_sending hdelivered hb
      (m := firstMessage outPktHdr (farHost k)) (farHost_farHost hk) rfl (by
        cases hfar : s.pc (farHost k) <;> simp [TestPc.sends]
        exact hbegun hfar)
    rw [hnotSending _ (hfar k)] at hsending
    cases hsending
  have hstart : ∀ k, k = 0 ∨ k = 1 → s.pc k ≠ .start := by
    intro k hk hpc
    obtain ⟨b, -, hbox⟩ := hstuck k hk (by rw [hpc]; simp)
    rw [hpc] at hbox
    cases hbox
  have hreceiving : ∀ k, k = 0 ∨ k = 1 → s.pc k ≠ .receiving :=
    fun k hk hpc => hstart _ (hfar k) (hfirst k hk hpc)
  -- so it waits for the acknowledgement
  obtain ⟨b, hb, hbox⟩ := hstuck g hg hdone
  have hawaiting : s.pc g = .awaiting := by
    cases hpc : s.pc g <;> rw [hpc] at hbox <;> first | rfl | cases hbox
    exact absurd hpc (hreceiving g hg)
  rw [hawaiting] at hbox
  obtain rfl := Option.some.inj hbox
  have hsending := h.still_sending hdelivered hb
    (m := secondMessage outPktHdr (farHost g)) (farHost_farHost hg) rfl (by
      cases hpc : s.pc (farHost g) with
      | start => exact absurd hpc (hstart _ (hfar g))
      | receiving => exact absurd hpc (hreceiving _ (hfar g))
      | sent =>
        have hno := hnotSending _ (hfar g)
        rw [hpc] at hno
        cases hno
      | acked | awaiting | done => simp [TestPc.sends])
  rw [hnotSending _ (hfar g)] at hsending
  cases hsending

end NetworkTest

/-- In every run, whatever is lost, no host fails an ASSERT, and each prints about the message and
then the acknowledgement of the other host and nothing else. At the return of a call the test goes
on, and unless something is on its way, the hosts do not both wait in `Receive` before they are
done. -/
theorem networkTest_completes (outPktHdr : Word → PacketHeader) {s : NetworkTest}
    (hr : (networkTest outPktHdr).Reachable s) :
    (∀ h, (s.post.hosts h).aborted = false) ∧
    (∀ h, s.printed h <+: [⟨testData, farHost h, 1⟩, ⟨testAck, farHost h, 1⟩] ∧
      (s.pc h = .done → s.printed h = [⟨testData, farHost h, 1⟩, ⟨testAck, farHost h, 1⟩])) ∧
    (∀ h, h = 0 ∨ h = 1 → s.pc h ≠ .done → (s.post.hosts h).free mainThread = true →
      (s.run outPktHdr h).isSome = true) ∧
    ((∀ h b, s.post.receivedFrom h b = s.post.sentTo h b) →
      (∃ h, (h = 0 ∨ h = 1) ∧ s.pc h ≠ .done) →
      ∃ h, (h = 0 ∨ h = 1) ∧ s.pc h ≠ .done ∧ (s.post.hosts h).receiving mainThread = none) := by
  have hinv := (NetworkTest.inv_inductive outPktHdr).of_reachable hr
  refine ⟨fun h => (hinv.calling.single h).running.1, ?_, ?_, ?_⟩
  · intro h
    rw [hinv.printed h]
    refine ⟨?_, fun hpc => by rw [hpc]; rfl⟩
    cases s.pc h <;> exact ⟨_, rfl⟩
  · intro h hh hdone hfree
    obtain ⟨s', hs', -⟩ := hinv.run hh hfree hdone
    rw [hs']
    rfl
  · rintro hdelivered ⟨h, hh, hdone⟩
    exact hinv.progress hdelivered hh hdone

private def zeroImage : Image := fun _ => 0

private def noHeader : Word → PacketHeader := fun _ => ⟨0, 0, 0⟩

private def testBegins : NetworkTest :=
  { post := { hosts := fun _ => .new ⟨0, 0, 0⟩ zeroImage zeroImage, sent := [] },
    pc := fun _ => .start, buffer := fun _ => zeroImage, printed := fun _ => [] }

/-- A host goes on to `Send`, which returns. -/
private def callsSend (h : Word) (k : Nat) : List NetworkLabel :=
  .run h :: [.sendLock h (.acquire 1), .sendLock h (.assign 1),
    .networkSend h 1 true zeroImage zeroImage, .messageSentP h 1, .sendInterrupt h k,
    .messageSentP h 1, .sendLock h (.release 1), PostLabel.sendLock h (.v 1)].map .post

private def putsMail (h : Word) (box : Nat) : List NetworkLabel :=
  [.recvInterrupt h, .workerP h, .deliver h, .boxCond h box (.lock (.acquire 0)),
    .boxCond h box (.lock (.assign 0)), .boxList h box 0, .boxCond h box (.signal 0),
    .boxCond h box (.lock (.release 0)), PostLabel.boxCond h box (.lock (.v 0))].map .post

/-- It goes on to `Receive`, which returns. -/
private def callsReceive (h : Word) (box : Nat) : List NetworkLabel :=
  .run h :: [.boxCond h box (.lock (.acquire 1)), .boxCond h box (.lock (.assign 1)),
    .boxList h box 1, .boxList h box 1, .boxCond h box (.lock (.release 1)),
    PostLabel.boxCond h box (.lock (.v 1))].map .post

private def wholeTest : List NetworkLabel :=
  callsSend 0 0 ++ callsSend 1 0 ++ putsMail 1 0 ++ putsMail 0 0 ++ callsReceive 0 0 ++
    callsReceive 1 0 ++ callsSend 1 1 ++ callsSend 0 1 ++ putsMail 0 1 ++ putsMail 1 1 ++
    callsReceive 1 1 ++ callsReceive 0 1 ++ [.run 0, .run 1]

private def testNext (s : NetworkTest) (l : NetworkLabel) : Option NetworkTest :=
  if (s.post.hosts l.host).aborted = false then s.step noHeader l else none

theorem networkTest_completes_both : ∃ s, (networkTest noHeader).Reachable s ∧
    s.pc 0 = .done ∧ s.pc 1 = .done ∧ s.printed 0 = [⟨testData, 1, 1⟩, ⟨testAck, 1, 1⟩] := by
  have hrun : ((wholeTest.foldlM testNext testBegins).map fun s => (s.pc 0, s.pc 1)) =
      some (.done, .done) := by decide +kernel
  obtain ⟨s, hs, hend⟩ := Option.map_eq_some_iff.mp hrun
  obtain ⟨h₀, h₁⟩ := Prod.mk.inj hend
  have hstep : ∀ s l s', testNext s l = some s' → (networkTest noHeader).step s l s' := by
    intro s l s' hs
    unfold testNext at hs
    split at hs
    next hrunning => exact ⟨hrunning, hs⟩
    next => cases hs
  have hinit : (networkTest noHeader).init testBegins :=
    ⟨⟨rfl, fun _ => ⟨_, _, _, rfl⟩⟩, fun _ => rfl, fun _ => rfl⟩
  have hr := System.Reachable.foldlM hstep wholeTest (.init hinit) hs
  exact ⟨s, hr, h₀, h₁, ((networkTest_completes noHeader hr).2.1 0).2 h₀⟩

end Nachos

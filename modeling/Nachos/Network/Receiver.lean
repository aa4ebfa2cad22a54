import Nachos.Network.InOrder
import Nachos.Threads.SynchSafety

/-!
# What a message can do to its receiver

`Send` checks the length of a message and that its box is not negative; how many boxes the
destination has it does not know. The ASSERTs on the other side are those of
`NetworkInput::CallBack`, of the postal worker, of `Mail`, of the mailboxes and of `Receive`.
-/

namespace Nachos

open Framework

/-- The number of mailboxes `Kernel::Initialize` makes. -/
abbrev kernelBoxes : Nat := 10

/-- The steps of the network input, the postal worker and the receivers. -/
def PostLabel.receiving : PostLabel → Bool
  | .recvInterrupt _ | .workerP _ | .deliver _ | .receive .. | .boxCond .. | .boxList .. => true
  | .send .. | .networkSend .. | .sendLock .. | .messageSentP .. | .sendInterrupt .. => false

namespace Host

variable {numBoxes : Word → Nat} {hostName : Word} {log : List Image} {s s' : Host}

/-- The receiving side is in order: no ASSERT of a box has failed, the mails have different
addresses, and their lengths pass the ASSERT of `Receive`. -/
structure Safe (s : Host) : Prop where
  boxes : ∀ b, (s.boxes b).Safe
  available : SemState.Inv 0 s.messageAvailable
  serial : s.handled.map Mail.serial = List.range s.handled.length
  length : ∀ mail ∈ s.handled, mail.letter.mailHdr.length.toNat ≤ maxMailSize

private theorem safe_new (inHdr : PacketHeader) (inbox buffer : Image) :
    (new inHdr inbox buffer).Safe := by
  constructor
  case boxes => exact fun _ => SynchState.Safe.new
  case available => exact SemState.Inv.init 0
  case serial => rfl
  case length =>
    intro mail hmail
    cases hmail

theorem Safe.congr (h : s.Safe) (hboxes : s'.boxes = s.boxes)
    (havailable : SemState.Inv 0 s'.messageAvailable) (hhandled : s'.handled = s.handled) :
    s'.Safe := by
  constructor
  case boxes =>
    rw [hboxes]
    exact h.boxes
  case available => exact havailable
  case serial =>
    rw [hhandled]
    exact h.serial
  case length =>
    rw [hhandled]
    exact h.length

theorem Safe.callBack (h : s.Safe) (hinput : s.InputInv (numBoxes hostName) log)
    (hlog : ∀ p ∈ log, IsPacket numBoxes hostName p) :
    (s.callBack hostName).Safe ∧ (s.callBack hostName).aborted = s.aborted := by
  unfold Host.callBack
  split
  next => exact ⟨h, rfl⟩
  next =>
    split
    next => exact ⟨h, rfl⟩
    next packet socket hsocket =>
      have hmem : packet ∈ log := by
        rw [← hinput.queue, hsocket]
        simp
      dsimp only
      rw [if_pos (hlog packet hmem).passes]
      exact ⟨h.congr rfl h.available.v rfl, rfl⟩

/-- The worker's `P` passes the ASSERT of the queue of the semaphore. -/
theorem Safe.workerP (h : s.Safe) (hs : s.workerP = some s') :
    s'.Safe ∧ s'.aborted = s.aborted := by
  unfold Host.workerP at hs
  split at hs
  next =>
    split at hs
    next => cases hs
    next hasleep =>
      obtain ⟨⟨sem, taken⟩, hp⟩ := h.available.p_isSome (Bool.not_eq_true _ ▸ hasleep)
      have hsem := h.available.p hp
      rw [hp] at hs
      cases taken with
      | true =>
        obtain rfl := Option.some.inj hs
        exact ⟨h.congr rfl hsem rfl, rfl⟩
      | false =>
        obtain rfl := Option.some.inj hs
        exact ⟨h.congr rfl hsem rfl, rfl⟩
  next => cases hs

theorem Safe.update (h : s.Safe) {b : Nat} {boxState : SynchState Mail} (hsafe : boxState.Safe)
    (c : Nat) : (Function.update s.boxes b boxState c).Safe := by
  by_cases hc : c = b
  · rw [hc, Function.update_self]
    exact hsafe
  · rw [Function.update_of_ne hc]
    exact h.boxes c

/-- The worker's ASSERTs on the message, and that of `Mail`. -/
theorem Safe.deliver {n : Nat} (h : s.Safe) (hinput : s.InputInv n log) (hboxes : s.BoxesInv)
    (hs : s.deliver n = some s') : s'.Safe ∧ s'.aborted = s.aborted := by
  obtain ⟨hworker, boxState, hletter, hstep, rfl⟩ := hinput.deliver_cases hs
  have hvalid := hinput.inbox (hinput.taken hworker)
  refine ⟨?_, rfl⟩
  constructor
  case boxes =>
    apply h.update
    apply (hboxes.boxes _).safe_step (h.boxes _) _ hstep
    intro t item hlabel
    cases hlabel
  case available => exact h.available
  case serial =>
    show (s.handled ++ [s.newMail]).map Mail.serial = List.range (s.handled ++ [s.newMail]).length
    rw [List.map_append, h.serial, List.length_append]
    exact (List.range_succ).symm
  case length =>
    intro mail hmail
    rcases List.mem_append.mp hmail with hmail | hmail
    · exact h.length mail hmail
    · obtain rfl := List.mem_singleton.mp hmail
      rw [hletter]
      exact hvalid.mail

/-- `Receive` up to its call of `RemoveFront`, for a box that the host has. -/
theorem Safe.receive {n : Nat} {t : ThreadId} {b : Nat} (h : s.Safe) (hboxes : s.BoxesInv)
    (hb : b < n) (hs : s.receive n t b = some s') : s'.Safe ∧ s'.aborted = s.aborted := by
  unfold Host.receive at hs
  split at hs
  next =>
    obtain ⟨boxState, hstep, rfl⟩ := Option.map_eq_some_iff.mp hs
    refine ⟨?_, rfl⟩
    constructor
    case boxes =>
      apply h.update
      apply (hboxes.boxes _).safe_step (h.boxes _) _ hstep
      intro u item hlabel
      cases hlabel
    case available => exact h.available
    case serial => exact h.serial
    case length => exact h.length
  next => cases hs

theorem Safe.fresh (h : s.Safe) (hboxes : s.BoxesInv) {b : Nat} {t : ThreadId} {mail : Mail}
    (hpc : (s.boxes b).pc t = .appendList mail) : mail ∉ (s.boxes b).list := by
  obtain rfl := (hboxes.appending b t (by rw [hpc]; rfl)).1
  have hitems := hboxes.items b
  rw [hpc] at hitems
  have hnodup : s.handled.Nodup := by
    apply List.Nodup.of_map Mail.serial
    rw [h.serial]
    exact List.nodup_range
  have hmails : (mailsFor s.handled b).Nodup := hnodup.filter _
  rw [← hitems] at hmails
  intro hmem
  have happended : mail ∈ (s.boxes b).appended := by
    rw [← (hboxes.boxes b).fifo]
    exact List.mem_append_right _ hmem
  exact (List.nodup_append.mp hmails).2.2 mail happended mail (by simp [ListPc.toAppend]) rfl

private theorem boxStep_aborted {b : Nat} {l : SynchLabel Mail} {t : ThreadId}
    {boxState : SynchState Mail} (hstep : (s.boxes b).step l = some boxState)
    (hs : s.boxStep b l t = some s') :
    s'.aborted = boxState.aborted := by
  rw [Host.boxStep, hstep] at hs
  rw [← Option.some.inj hs]
  dsimp only
  split <;> rfl

theorem Safe.boxStep {b : Nat} {l : SynchLabel Mail} {t : ThreadId} (h : s.Safe)
    (hboxes : s.BoxesInv) (hs : s.boxStep b l t = some s') :
    s'.Safe ∧ s'.aborted = false := by
  obtain ⟨boxState, hstep, hbox, -, -, -, -, hhandled, -, -, hsem, -⟩ := boxStep_cases hs
  have hsafe : boxState.Safe := by
    apply (hboxes.boxes b).safe_step (h.boxes b) _ hstep
    intro u mail _ hpc
    exact h.fresh hboxes hpc
  refine ⟨?_, (boxStep_aborted hstep hs).trans hsafe.list⟩
  constructor
  case boxes =>
    rw [hbox]
    exact h.update hsafe
  case available =>
    rw [hsem]
    exact h.available
  case serial =>
    rw [hhandled]
    exact h.serial
  case length =>
    rw [hhandled]
    exact h.length

end Host

namespace PostState

variable {numBoxes : Word → Nat} {s s' : PostState}

def Safe (s : PostState) : Prop := ∀ h, (s.hosts h).Safe

theorem Safe.setHost (h : s.Safe) {hostName : Word} {host : Host} (hhost : host.Safe) :
    (s.setHost hostName host).Safe := by
  intro g
  by_cases hg : g = hostName
  · simp only [PostState.setHost, hg, Function.update_self]
    exact hhost
  · simp only [PostState.setHost, Function.update_of_ne hg]
    exact h g

theorem Safe.outStep (h : s.Safe) {hostName : Word} {l : DeviceLabel Message}
    (hs : s.outStep hostName l = some s') : s'.Safe := by
  obtain ⟨out, -, rfl⟩ := Option.map_eq_some_iff.mp hs
  exact h.setHost ((h hostName).congr rfl (h hostName).available rfl)

theorem Safe.transmit (h : s.Safe) (hostName : Word) (m : Message) (accepted : Bool)
    (packet : Image) : (s.transmit hostName m accepted packet).Safe := by
  cases accepted with
  | false => exact h
  | true => exact Safe.setHost h ((h _).congr rfl (h _).available rfl)

/-- The calls of `Receive` for a box of their own host. -/
def ValidReceive (numBoxes : Word → Nat) : PostLabel → Prop
  | .receive h _ b => b < numBoxes h
  | _ => True

instance (numBoxes : Word → Nat) : (l : PostLabel) → Decidable (ValidReceive numBoxes l)
  | .receive h _ b => inferInstanceAs (Decidable (b < numBoxes h))
  | .send .. | .networkSend .. | .sendLock .. | .messageSentP .. | .sendInterrupt ..
  | .recvInterrupt .. | .workerP .. | .deliver .. | .boxCond .. | .boxList .. => isTrue trivial

/-- The calls of `Send` and of `Receive` name boxes that are there. -/
def Legal (numBoxes : Word → Nat) (s : PostState) (l : PostLabel) : Prop :=
  ValidSend numBoxes s l ∧ ValidReceive numBoxes l

instance (numBoxes : Word → Nat) (s : PostState) (l : PostLabel) : Decidable (Legal numBoxes s l) :=
  inferInstanceAs (Decidable (_ ∧ _))

theorem Safe.step (h : s.Safe) (hinv : s.Inv numBoxes) {l : PostLabel} (hlegal : Legal numBoxes s l)
    (hs : s.step numBoxes l = some s') :
    s'.Safe ∧ (l.receiving = true → (s.hosts l.host).aborted = false →
      (s'.hosts l.host).aborted = false) := by
  have hself {hostName : Word} {host : Host} (hhost : host.Safe ∧ host.aborted =
      (s.hosts hostName).aborted) : (s.setHost hostName host).Safe ∧
        ((s.hosts hostName).aborted = false →
          ((s.setHost hostName host).hosts hostName).aborted = false) := by
    refine ⟨h.setHost hhost.1, ?_⟩
    intro hrunning
    simp only [PostState.setHost, Function.update_self]
    exact hhost.2.trans hrunning
  cases l with
  | send hostName t m =>
    refine ⟨?_, fun hreceiving => by cases hreceiving⟩
    simp only [PostState.step] at hs
    split at hs
    next =>
      split at hs
      next => exact h.outStep hs
      next =>
        obtain rfl := Option.some.inj hs
        exact h.setHost ((h hostName).congr rfl (h hostName).available rfl)
    next => cases hs
  | networkSend hostName t accepted pad pad' =>
    refine ⟨?_, fun hreceiving => by cases hreceiving⟩
    simp only [PostState.step] at hs
    split at hs
    next m hpc =>
      obtain ⟨s₁, hout, rfl⟩ := Option.map_eq_some_iff.mp hs
      split
      · exact h.outStep hout
      · exact (h.outStep hout).transmit hostName m accepted _
    next => cases hs
  | sendLock hostName l | messageSentP hostName t | sendInterrupt hostName k =>
    exact ⟨h.outStep hs, fun hreceiving => by cases hreceiving⟩
  | recvInterrupt hostName =>
    obtain rfl := Option.some.inj hs
    have hhost := (h hostName).callBack (hinv.input hostName) fun p hp => hinv.isPacket hp
    exact ⟨(hself hhost).1, fun _ => (hself hhost).2⟩
  | workerP hostName =>
    obtain ⟨host, hhost, rfl⟩ := Option.map_eq_some_iff.mp hs
    have hkept := hself ((h hostName).workerP hhost)
    exact ⟨hkept.1, fun _ => hkept.2⟩
  | deliver hostName =>
    obtain ⟨host, hhost, rfl⟩ := Option.map_eq_some_iff.mp hs
    have hkept := hself ((h hostName).deliver (hinv.input hostName) (hinv.boxes hostName) hhost)
    exact ⟨hkept.1, fun _ => hkept.2⟩
  | receive hostName t b =>
    obtain ⟨host, hhost, rfl⟩ := Option.map_eq_some_iff.mp hs
    have hkept := hself ((h hostName).receive (hinv.boxes hostName)
      hlegal.2 hhost)
    exact ⟨hkept.1, fun _ => hkept.2⟩
  | boxCond hostName b l =>
    obtain ⟨host, hhost, rfl⟩ := Option.map_eq_some_iff.mp hs
    obtain ⟨hsafe, haborted⟩ := (h hostName).boxStep (hinv.boxes hostName) hhost
    refine ⟨h.setHost hsafe, fun _ _ => ?_⟩
    simp only [PostState.setHost, PostLabel.host, Function.update_self]
    exact haborted
  | boxList hostName b t =>
    obtain ⟨host, hhost, rfl⟩ := Option.map_eq_some_iff.mp hs
    obtain ⟨hsafe, haborted⟩ := (h hostName).boxStep (hinv.boxes hostName) hhost
    refine ⟨h.setHost hsafe, fun _ _ => ?_⟩
    simp only [PostState.setHost, PostLabel.host, Function.update_self]
    exact haborted

theorem safe_inductive (numBoxes : Word → Nat) :
    ((postSystem numBoxes).restrict (Legal numBoxes)).Inductive
      fun s => s.Inv numBoxes ∧ s.Safe where
  init s hs := by
    refine ⟨(inv_inductive numBoxes).init s hs, ?_⟩
    intro h
    obtain ⟨inHdr, inbox, buffer, hhost⟩ := hs.2 h
    rw [hhost]
    exact Host.safe_new _ _ _
  step s l s' h hs := ⟨h.1.step hs.1.1 hs.2.2, (h.2.step h.1 hs.1 hs.2.2).1⟩

private theorem Inv.returned_mem (h : s.Inv numBoxes) {hostName : Word} {b : Nat} {mail : Mail}
    (hmail : mail ∈ (s.hosts hostName).returned b) : mail ∈ (s.hosts hostName).handled :=
  List.mem_of_mem_filter ((h.returned_isPrefix hostName b).subset hmail)

end PostState

/-- In every run whose messages are for boxes of their destinations, no step on the receiving side
of a host fails an ASSERT, and what `Receive` returns passes its last one. -/
theorem receiver_never_aborts {s : PostState}
    (hr : ((postSystem fun _ => kernelBoxes).restrict
      (PostState.Legal fun _ => kernelBoxes)).Reachable s) :
    (∀ l s', l.receiving = true → PostState.Legal (fun _ => kernelBoxes) s l →
      (postSystem fun _ => kernelBoxes).step s l s' → (s'.hosts l.host).aborted = false) ∧
    ∀ h b, ∀ mail ∈ (s.hosts h).returned b, mail.letter.mailHdr.length.toNat ≤ maxMailSize := by
  obtain ⟨hinv, hsafe⟩ := (PostState.safe_inductive _).of_reachable hr
  constructor
  · intro l s' hreceiving hlegal hstep
    exact (hsafe.step hinv hlegal hstep.2).2 hreceiving hstep.1
  · intro h b mail hmail
    exact (hsafe h).length mail (hinv.returned_mem hmail)

namespace PostState

def proceed (numBoxes : Word → Nat) (s : PostState) (l : PostLabel) : Option PostState :=
  if (s.hosts l.host).aborted = false then s.step numBoxes l else none

private theorem proceed_step {numBoxes : Word → Nat} {s s' : PostState} {l : PostLabel}
    (h : s.proceed numBoxes l = some s') : (postSystem numBoxes).step s l s' := by
  unfold proceed at h
  split at h
  next hrunning => exact ⟨hrunning, h⟩
  next => cases h

def proceedLegal (numBoxes : Word → Nat) (s : PostState) (l : PostLabel) : Option PostState :=
  if Legal numBoxes s l then s.proceed numBoxes l else none

private theorem proceedLegal_step {numBoxes : Word → Nat} {s s' : PostState} {l : PostLabel}
    (h : s.proceedLegal numBoxes l = some s') :
    ((postSystem numBoxes).restrict (Legal numBoxes)).step s l s' := by
  unfold proceedLegal at h
  split at h
  next hlegal => exact ⟨hlegal, proceed_step h⟩
  next => cases h

end PostState

private def zeros : Image := fun _ => 0

private def newHosts : PostState :=
  { hosts := fun _ => .new ⟨0, 0, 0⟩ zeros zeros, sent := [] }

private def shortMessage (box : Nat) : Message :=
  { pktHdr := ⟨1, 0, 0⟩, mailHdr := ⟨box, 4, 2⟩, data := zeros }

/-- Thread 1 of host 0 sends a message to host 1, up to the delivery. -/
private def sendsAndArrives (box : Nat) : List PostLabel :=
  [.send 0 1 (shortMessage box), .sendLock 0 (.acquire 1), .sendLock 0 (.assign 1),
    .networkSend 0 1 true zeros zeros, .recvInterrupt 1, .workerP 1]

private theorem arrives_run :
    ((sendsAndArrives 3).foldlM (PostState.proceedLegal fun _ => kernelBoxes) newHosts).isSome := by
  decide +kernel

private def arrived : PostState :=
  ((sendsAndArrives 3).foldlM (PostState.proceedLegal fun _ => kernelBoxes) newHosts).get
    arrives_run

theorem receiver_never_aborts_one :
    ∃ s s' : PostState, (postSystem fun _ => kernelBoxes).step s (.deliver 1) s' ∧
      s.sent.length = 1 ∧ (s'.hosts 1).aborted = false := by
  have hr : ((postSystem fun _ => kernelBoxes).restrict
      (PostState.Legal fun _ => kernelBoxes)).Reachable arrived :=
    .foldlM (fun _ _ _ => PostState.proceedLegal_step) (sendsAndArrives 3)
      (.init ⟨rfl, fun _ => ⟨_, _, _, rfl⟩⟩) (Option.some_get arrives_run).symm
  have hsome : (arrived.proceed (fun _ => kernelBoxes) (.deliver 1)).isSome := by decide +kernel
  obtain ⟨s', hs'⟩ := Option.isSome_iff_exists.mp hsome
  have hstep := PostState.proceed_step hs'
  refine ⟨arrived, s', hstep, by decide +kernel, ?_⟩
  exact (receiver_never_aborts hr).1 (.deliver 1) s' rfl ⟨trivial, trivial⟩ hstep

private theorem strays_run :
    ((sendsAndArrives 10 ++ [PostLabel.deliver 1]).foldlM (PostState.proceed fun _ => kernelBoxes)
      newHosts).isSome := by
  decide +kernel

private def stopped : PostState :=
  ((sendsAndArrives 10 ++ [PostLabel.deliver 1]).foldlM (PostState.proceed fun _ => kernelBoxes)
    newHosts).get strays_run

/-- A message that passes the checks of `Send` stops the host it is sent to. -/
theorem receiver_aborts :
    ∃ s : PostState, (postSystem fun _ => kernelBoxes).Reachable s ∧
      (∀ r ∈ s.sent, r.message.mailHdr.length.toNat ≤ maxMailSize ∧
        0 ≤ r.message.mailHdr.toAddr.toInt) ∧
      (s.hosts 0).aborted = false ∧ (s.hosts 1).aborted = true := by
  have hr : (postSystem fun _ => kernelBoxes).Reachable stopped :=
    .foldlM (fun _ _ _ => PostState.proceed_step) (sendsAndArrives 10 ++ [PostLabel.deliver 1])
      (.init ⟨rfl, fun _ => ⟨_, _, _, rfl⟩⟩) (Option.some_get strays_run).symm
  exact ⟨stopped, hr, by decide +kernel, by decide +kernel, by decide +kernel⟩

end Nachos

/-
  Nachos.Network.Post — `network/post.cc`: the post office of one machine.

  One thread, the postal worker, waits for packets and puts them into mail boxes; any number
  of others send and receive. The lock of `Send` and those of the boxes are the empty ones of
  `threads/synch.cc`, and their `Condition::Wait` is an ASSERT that fails. `arrived`,
  `outgoing` and `taken` are history.
-/

import Nachos.Machine.Network
import Nachos.Threads.Client

namespace Nachos

open Function (update)

open Lib

/-! ## Letters -/

/-- A call of `Send` on the machine `netAddr`, and what memory held where the data and the packet
    are put together. -/
structure Letter where
  netAddr : Word
  pktHdr : PacketHeader
  mailHdr : MailHeader
  data : List Byte
  buffer : List Byte
  wire : List Byte
  length_buffer : buffer.length = maxPacketSize
  length_wire : wire.length = maxWireSize

/-- A mail, with the part of `data` that is in use. -/
structure Mail where
  pktHdr : PacketHeader
  mailHdr : MailHeader
  data : List Byte
  deriving DecidableEq

/-- `Mail::Mail`. -/
def Mail.new (pktH : PacketHeader) (mailH : MailHeader) (msgData : List Byte) : Except Stop Mail :=
  if maxMailSize < mailH.length.toNat then .error .assertion
  else if msgData.length < mailH.length.toNat then .error .undefined
  else .ok ⟨pktH, mailH, msgData.take mailH.length.toNat⟩

/-- The ASSERT on the number of a box. -/
def boxInRange (numBoxes box : Word) : Prop := 0 ≤ box.toInt ∧ box.toInt < numBoxes.toInt

instance (numBoxes box : Word) : Decidable (boxInRange numBoxes box) := inferInstanceAs (Decidable (_ ∧ _))

/-- `PostOffice::Send`, up to the call of the device: the header and the buffer it is given. -/
def Letter.concatenate (x : Letter) (numBoxes : Word) : Except Stop (PacketHeader × List Byte) :=
  if maxMailSize < x.mailHdr.length.toNat then .error .assertion
  else if ¬ boxInRange numBoxes x.mailHdr.toAddr then .error .assertion
  else if x.data.length < x.mailHdr.length.toNat then .error .undefined
  else
    let pktHdr := { x.pktHdr with fromAddr := x.netAddr, length := x.mailHdr.length + 12 }
    .ok (pktHdr, Lib.patch (Lib.patch x.buffer 0 (Header.layout.bytes x.mailHdr)) sizeofHeader (x.data.take x.mailHdr.length.toNat))

/-- `PostOffice::Send`, up to `messageSent->P()`. -/
def Letter.send (x : Letter) (numBoxes : Word) (network : Network) (lost : Bool) : Except Stop (Option (List Byte) × Network) := do
  let (pktHdr, buffer) ← x.concatenate numBoxes
  network.send pktHdr buffer x.wire lost

/-! ## The post office -/

structure PostOffice where
  netAddr : Word
  numBoxes : Word
  messageAvailable : SemId
  messageSent : SemId
  worker : Tid
  deriving DecidableEq, Repr

namespace PostOffice

open Client (Call)

structure Shared where
  network : Network
  boxes : Word → List Mail
  /-- What `Receive` has taken from each box. -/
  taken : Word → List Mail
  /-- The letters whose packets have arrived at the socket, and those whose packets have left. -/
  arrived : List Letter
  outgoing : List Letter

/-- Where a thread is. -/
inductive Place where
  | outside
  /-- `Send`: `messageSent->P()`. -/
  | sent
  /-- The postal worker, at its start, at `messageAvailable->P()`, and after `network->Receive`. -/
  | helper (buffer : List Byte)
  | delivery (buffer : List Byte)
  | received (pktHdr : PacketHeader) (buffer : List Byte)
  deriving DecidableEq

inductive Input where
  | goOn
  | send (x : Letter) (lost : Bool)
  | receive (box : Word)
  | other (call : Call)

inductive Interrupt where
  | networkReadPoll
  | networkSendDone
  /-- The packet of a letter, which another machine's device has sent, arrives at the socket. -/
  | arrive (x : Letter) (sender : Network)
  | other (s : SemId)

variable (po : PostOffice) {g g' : Shared} {call : Call}

def sems : List SemId := [po.messageAvailable, po.messageSent]

/-- `PostOffice::Send`. -/
def send (g : Shared) (x : Letter) (lost : Bool) : Except Stop (Shared × Place × Call) := do
  let x := { x with netAddr := po.netAddr }
  let (packet, network) ← x.send po.numBoxes g.network lost
  return ({ g with network, outgoing := if packet.isSome then g.outgoing ++ [x] else g.outgoing }, .sent, .p po.messageSent)

/-- `PostOffice::Receive`, with `MailBox::Get`. -/
def receive (g : Shared) (box : Word) : Except Stop (Shared × Place × Call) :=
  if ¬ boxInRange po.numBoxes box then .error .assertion
  else
    match g.boxes box with
    | [] => .error .assertion
    | mail :: rest =>
      if maxMailSize < mail.mailHdr.length.toNat then .error .assertion
      else .ok ({ g with
        boxes := update g.boxes box rest
        taken := update g.taken box (g.taken box ++ [mail]) }, .outside, .none)

/-- The loop of `PostalDelivery`, after `network->Receive`, with `MailBox::Put`. -/
def put (g : Shared) (pktHdr : PacketHeader) (buffer : List Byte) : Except Stop (Shared × Place × Call) :=
  let mailHdr := Header.layout.ofBytes (buffer.take sizeofHeader)
  if ¬ boxInRange po.numBoxes mailHdr.toAddr then .error .assertion
  else if maxMailSize < mailHdr.length.toNat then .error .assertion
  else do
    let mail ← Mail.new pktHdr mailHdr (buffer.drop sizeofHeader)
    return ({ g with boxes := update g.boxes mailHdr.toAddr (g.boxes mailHdr.toAddr ++ [mail]) },
      .delivery buffer, .p po.messageAvailable)

def turn (i : Input) (g : Shared) : Place → Except Stop (Shared × Place × Call)
  | .outside =>
    match i with
    | .goOn => .ok (g, .outside, .none)
    | .send x lost => po.send g x lost
    | .receive box => po.receive g box
    | .other call => .ok (g, .outside, if call.spares po.sems then call else .none)
  | .sent => .ok (g, .outside, .none)
  | .helper buffer => .ok (g, .delivery buffer, .p po.messageAvailable)
  | .delivery buffer =>
    let (pktHdr, buffer, network) := g.network.receive buffer
    .ok ({ g with network }, .received pktHdr buffer, .none)
  | .received pktHdr buffer => po.put g pktHdr buffer

def fire (d : Interrupt) (g : Shared) : Except Stop (Shared × List SemId) :=
  match d with
  | .networkReadPoll => do
    let (called, network) ← g.network.checkPktAvail
    return ({ g with network }, if called then [po.messageAvailable] else [])
  | .networkSendDone =>
    let (called, network) := g.network.sendDone
    .ok ({ g with network }, if called then [po.messageSent] else [])
  | .arrive x sender =>
    match x.send po.numBoxes sender false with
    | .ok (some packet, _) =>
      if x.pktHdr.toAddr = po.netAddr then
        .ok ({ g with
          network := { g.network with socket := g.network.socket ++ [packet] }
          arrived := g.arrived ++ [x] }, [])
      else .ok (g, [])
    | _ => .ok (g, [])
  | .other s => .ok (g, if s ∈ po.sems then [] else [s])

def client : Client Shared Place Input Interrupt := ⟨po.turn, po.fire⟩

/-- `PostOffice::PostOffice`: the semaphores and the postal worker. -/
def new (netAddr numBoxes : Word) (k : Dispatch) : Except Stop (PostOffice × Dispatch) := do
  let k₁ ← k.call (.newSemaphore 0)
  let k₂ ← k₁.call (.newSemaphore 0)
  let k₃ ← k₂.call .fork
  return (⟨netAddr, numBoxes, k.numSems, k₁.numSems, k₂.created⟩, k₃)

/-- A thread has made the post office, and nobody has called it yet. -/
def Init (s : Client.State Shared Place) : Prop :=
  (∃ k, Lib.Reach Dispatch.step (fun _ _ => True) (· = .start) k ∧ k.inCode = true ∧
    new po.netAddr po.numBoxes k = .ok (po, s.kernel)) ∧
  (∃ junkHdr inbox, inbox.length = maxPacketSize ∧
    s.shared = ⟨.new po.netAddr junkHdr inbox, fun _ => [], fun _ => [], [], []⟩) ∧
  ∃ buffer, buffer.length = maxPacketSize ∧ s.locals = update (fun _ => .outside) po.worker (.helper buffer)

/-! ## Moves -/

/-- What a thread's turn can be. -/
inductive Moves (po : PostOffice) (g : Shared) : Place → Shared → Place → Call → Prop
  | idle {call : Call} : (∀ s ∈ po.sems, call ≠ .p s ∧ call ≠ .v s) → Moves po g .outside g .outside call
  | send {x : Letter} {lost : Bool} {packet : Option (List Byte)} {network : Network} : x.netAddr = po.netAddr →
      x.send po.numBoxes g.network lost = .ok (packet, network) →
      Moves po g .outside { g with network, outgoing := if packet.isSome then g.outgoing ++ [x] else g.outgoing } .sent
        (.p po.messageSent)
  | receive {box : Word} {mail : Mail} {rest : List Mail} : g.boxes box = mail :: rest →
      Moves po g .outside { g with
        boxes := update g.boxes box rest
        taken := update g.taken box (g.taken box ++ [mail]) } .outside .none
  | release : Moves po g .sent g .outside .none
  | start (buffer : List Byte) : Moves po g (.helper buffer) g (.delivery buffer) (.p po.messageAvailable)
  | unload (buffer : List Byte) : Moves po g (.delivery buffer) { g with network := (g.network.receive buffer).2.2 }
      (.received (g.network.receive buffer).1 (g.network.receive buffer).2.1) .none
  | put {pktHdr : PacketHeader} {buffer : List Byte} {boxes : Word → List Mail} :
      po.put g pktHdr buffer = .ok ({ g with boxes }, .delivery buffer, .p po.messageAvailable) →
      Moves po g (.received pktHdr buffer) { g with boxes } (.delivery buffer) (.p po.messageAvailable)

theorem put_moves {po : PostOffice} {l' : Place} {pktHdr : PacketHeader} {buffer : List Byte}
    (h : po.put g pktHdr buffer = .ok (g', l', call)) : po.Moves g (.received pktHdr buffer) g' l' call := by
  have hp := h
  unfold put at h
  simp only at h
  split at h
  · cases h
  split at h
  · cases h
  · obtain ⟨mail, -, h⟩ := bind_eq_ok.mp h
    cases h
    exact .put hp

theorem turn_moves {po : PostOffice} {l l' : Place} {i : Input} (h : po.turn i g l = .ok (g', l', call)) :
    po.Moves g l g' l' call := by
  cases l with
  | outside =>
    cases i with
    | goOn => cases h; exact .idle fun s _ => Call.none_ne s
    | send x lost =>
      obtain ⟨⟨packet, network⟩, hsn, h⟩ := bind_eq_ok.mp h
      cases h
      exact .send (x := { x with netAddr := po.netAddr }) rfl hsn
    | receive box =>
      simp only [turn, receive] at h
      split at h
      · cases h
      split at h
      · cases h
      rename_i mail rest hb
      split at h
      · cases h
      · cases h
        exact .receive hb
    | other call' =>
      simp only [turn] at h
      cases h
      refine .idle fun s hs => ?_
      split
      · rename_i hsp
        exact Call.spares_ne hsp hs
      · exact Call.none_ne s
  | sent => cases h; exact .release
  | helper buffer => cases h; exact .start buffer
  | delivery buffer => cases h; exact .unload buffer
  | received pktHdr buffer => exact put_moves h

/-! ## The start -/

/-- `messageAvailable` as the constructor leaves it. -/
structure Fresh (po : PostOffice) (k : Dispatch) : Prop where
  custody : k.Custody
  distinct : po.sems.Nodup
  made : po.messageAvailable < k.numSems
  initial : k.initial po.messageAvailable = 0
  lawful : k.Lawful po.messageAvailable
  counter : k.counter po.messageAvailable = ⟨0, fun _ => false⟩

theorem new_fresh {po : PostOffice} {netAddr numBoxes : Word} {k k' : Dispatch} (hk : k.Making)
    (h : new netAddr numBoxes k = .ok (po, k')) : po.Fresh k' := by
  obtain ⟨k1, e1, h⟩ := bind_eq_ok.mp h
  obtain ⟨k2, e2, h⟩ := bind_eq_ok.mp h
  obtain ⟨k3, e3, h⟩ := bind_eq_ok.mp h
  cases h
  obtain ⟨hk1, n1, hn1, -⟩ := hk.newSemaphore e1
  obtain ⟨hk2, n2, -, ho2⟩ := hk1.newSemaphore e2
  obtain ⟨hm1, hi1, hl⟩ := Dispatch.newSemaphore_made e1
  obtain ⟨hm2, hi2⟩ := Dispatch.call_keeps e2 hm1
  obtain ⟨hm3, hi3⟩ := Dispatch.call_keeps e3 hm2
  refine ⟨hk2.custody.call hk2.code e3, ?_, hm3, hi3.trans (hi2.trans hi1), ?_, ?_⟩
  · show [k.numSems, k1.numSems].Nodup
    simp only [List.nodup_cons, List.mem_singleton, List.not_mem_nil, not_false_eq_true, List.nodup_nil, and_true]
    omega
  · exact (Dispatch.newSemaphore_lawful hl e2).quiet (Dispatch.fork_quiet hk2.custody e3)
  · show k'.counter k.numSems = _
    rw [Dispatch.other_counter hk2.custody hm2 (by intro s' h; cases h) rfl hk2.code e3, ho2 _ (by omega), hn1]

end PostOffice

end Nachos

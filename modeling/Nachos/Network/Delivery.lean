/-
  Nachos.Network.Delivery — mail is delivered whole, once and in order.

  A letter that has arrived is in the socket, in the device, in the postal worker's buffer or
  in its box. The length in the device's header says whether a packet is there, and so does
  `messageAvailable`, counting a permit that the worker has taken before it unloads the
  device: a poll never overwrites a packet, and the worker never reads one twice.
-/

import Nachos.Network.Post

namespace Nachos

open Lib List
open Function (update update_of_ne update_self)

/-! ## One letter -/

namespace Letter

/-- The header of its packet. -/
def header (x : Letter) : PacketHeader := { x.pktHdr with fromAddr := x.netAddr, length := x.mailHdr.length + 12 }

/-- The data of its packet. -/
def body (x : Letter) : List Byte := Header.layout.bytes x.mailHdr ++ x.data.take x.mailHdr.length.toNat

/-- What is to be put into the box. -/
def mail (x : Letter) : Mail := ⟨x.header, x.mailHdr, x.data.take x.mailHdr.length.toNat⟩

/-- What `Send` asks for. -/
structure Legal (x : Letter) (numBoxes : Word) : Prop where
  short : x.mailHdr.length.toNat ≤ maxMailSize
  box : boxInRange numBoxes x.mailHdr.toAddr
  data : x.mailHdr.length.toNat ≤ x.data.length

/-- A header and a buffer hold the letter. -/
def In (x : Letter) (pktHdr : PacketHeader) (buffer : List Byte) : Prop :=
  pktHdr = x.header ∧ buffer.take x.body.length = x.body

section

variable {x : Letter} {numBoxes : Word}

theorem Legal.length_data (h : x.Legal numBoxes) : (x.data.take x.mailHdr.length.toNat).length = x.mailHdr.length.toNat := by
  rw [List.length_take, Nat.min_eq_left h.data]

theorem Legal.length_body (h : x.Legal numBoxes) : x.body.length = x.mailHdr.length.toNat + 12 := by
  rw [body, length_append, h.length_data, Header.layout.length_bytes, Nat.add_comm]
  rfl

theorem Legal.length_header (h : x.Legal numBoxes) : x.header.length.toNat = x.body.length := by
  have hs : x.mailHdr.length.toNat ≤ 40 := h.short
  rw [h.length_body, header, BitVec.toNat_add, show (12 : Word).toNat = 12 from rfl]
  omega

theorem Legal.body_fits (h : x.Legal numBoxes) : x.body.length ≤ maxPacketSize := by
  rw [h.length_body]
  exact Nat.add_le_add_right h.short 12

theorem Legal.header_ne (h : x.Legal numBoxes) : x.header.length ≠ 0 := by
  intro e
  have hl := h.length_header
  rw [e, h.length_body] at hl
  cases hl

/-- The two copies of `Send` make the body. -/
theorem concatenate_eq (h : x.Legal numBoxes) :
    ∃ buffer, x.concatenate numBoxes = .ok (x.header, buffer) ∧ buffer.take x.header.length.toNat = x.body := by
  have hb : (Header.layout.bytes x.mailHdr).length = sizeofHeader := Header.layout.length_bytes x.mailHdr
  refine ⟨patch x.buffer 0 x.body, ?_, ?_⟩
  · have hp := patch_patch x.buffer (Header.layout.bytes x.mailHdr) (x.data.take x.mailHdr.length.toNat) 0
    rw [Nat.zero_add, hb] at hp
    rw [concatenate, if_neg (Nat.not_lt.mpr h.short), if_neg (not_not_intro h.box), if_neg (Nat.not_lt.mpr h.data), hp]
    rfl
  · rw [h.length_header, take_patch_zero]

theorem legal_of_concatenate {r : PacketHeader × List Byte} (h : x.concatenate numBoxes = .ok r) : x.Legal numBoxes := by
  unfold concatenate at h
  split at h
  · cases h
  rename_i hs
  split at h
  · cases h
  rename_i hb
  split at h
  · cases h
  · rename_i hd
    exact ⟨Nat.not_lt.mp hs, not_not.mp hb, Nat.not_lt.mp hd⟩

/-- A legal letter is sent. -/
theorem Legal.send_eq (h : x.Legal numBoxes) {n : Network} (hr : n.sendBusy = false) (ha : x.netAddr = n.ident) (lost : Bool) :
    ∃ packet, x.send numBoxes n lost = .ok (if lost then none else some packet, { n with sendsDue := n.sendsDue + 1 }) ∧
      ∃ rest, packet = Header.layout.bytes x.header ++ (x.body ++ rest) := by
  obtain ⟨buffer, hc, hb⟩ := concatenate_eq h
  have hp : 0 < x.header.length.toNat := by
    rw [h.length_header, h.length_body]
    exact Nat.succ_pos _
  refine ⟨_, ?_, Network.packet_eq x.wire hb⟩
  rw [send, hc]
  exact if_pos ⟨hr, hp, h.length_header ▸ h.body_fits, ha⟩

/-- What has been sent was legal. -/
theorem legal_of_send {n n' : Network} {lost : Bool} {packet : Option (List Byte)} (h : x.send numBoxes n lost = .ok (packet, n')) :
    x.Legal numBoxes ∧ n' = { n with sendsDue := n.sendsDue + 1 } ∧
      ∀ p, packet = some p → ∃ rest, p = Header.layout.bytes x.header ++ (x.body ++ rest) := by
  obtain ⟨⟨pktHdr, buffer⟩, hc, hs⟩ := bind_eq_ok.mp h
  have hl := legal_of_concatenate hc
  obtain ⟨buffer', hc', hb⟩ := concatenate_eq hl
  rw [hc] at hc'
  cases hc'
  obtain ⟨-, hn, hpc⟩ := Network.send_ok hs
  refine ⟨hl, hn, fun p hp => ?_⟩
  rw [hp] at hpc
  split at hpc
  · cases hpc
  · cases hpc
    exact Network.packet_eq x.wire hb

end

end Letter

namespace PostOffice

open Client (Call Turn Fired Resumed WaitsAt)

/-! ## The worker's buffer -/

section

variable {po : PostOffice} {g : Shared} {x : Letter} {pktHdr : PacketHeader} {buffer : List Byte}

/-- What the worker puts into the box is the mail. -/
theorem put_eq (hlg : x.Legal po.numBoxes) (hin : x.In pktHdr buffer) :
    po.put g pktHdr buffer = .ok ({ g with boxes := update g.boxes x.mailHdr.toAddr (g.boxes x.mailHdr.toAddr ++ [x.mail]) },
      .delivery buffer, .p po.messageAvailable) := by
  obtain ⟨rfl, hb⟩ := hin
  have hs : buffer = Header.layout.bytes x.mailHdr ++ (x.data.take x.mailHdr.length.toNat ++ buffer.drop x.body.length) := by
    rw [← append_assoc]
    exact (take_append_drop x.body.length buffer).symm.trans (congrArg (· ++ _) hb)
  have hml : Header.layout.ofBytes (buffer.take sizeofHeader) = x.mailHdr := by
    rw [hs]
    exact Header.ofBytes_append ..
  have hd : buffer.drop sizeofHeader = x.data.take x.mailHdr.length.toNat ++ buffer.drop x.body.length := by
    have hby : (Header.layout.bytes x.mailHdr).length = sizeofHeader := Header.layout.length_bytes x.mailHdr
    exact (congrArg (List.drop sizeofHeader) hs).trans (drop_left' hby)
  have hl : ¬ (buffer.drop sizeofHeader).length < x.mailHdr.length.toNat := by
    rw [hd, length_append, hlg.length_data]
    omega
  have hm : Mail.new x.header x.mailHdr (buffer.drop sizeofHeader) = .ok x.mail := by
    rw [Mail.new, if_neg (Nat.not_lt.mpr hlg.short), if_neg hl, hd, take_left' hlg.length_data]
    rfl
  simp only [put, hml]
  rw [if_neg (not_not_intro hlg.box), if_neg (Nat.not_lt.mpr hlg.short), hm]
  rfl

theorem unload_eq (hl : x.Legal po.numBoxes) (hin : x.In g.network.inHdr g.network.inbox) (hln : buffer.length = maxPacketSize) :
    x.In (g.network.receive buffer).1 (g.network.receive buffer).2.1 ∧ (g.network.receive buffer).2.1.length = maxPacketSize := by
  obtain ⟨hh, hbd⟩ := hin
  have hb : (g.network.receive buffer).2.1 = patch buffer 0 x.body := by
    rw [Network.receive, hh, if_pos hl.header_ne, hl.length_header, hbd]
  rw [hb]
  exact ⟨⟨hh, take_patch_zero ..⟩, (length_patch (by rw [Nat.zero_add, hln]; exact hl.body_fits)).trans hln⟩

theorem append_put {done : List Letter}
    (h : ∀ b, g.taken b ++ g.boxes b = (done.filter (·.mailHdr.toAddr = b)).map Letter.mail) (b : Word) :
    g.taken b ++ update g.boxes x.mailHdr.toAddr (g.boxes x.mailHdr.toAddr ++ [x.mail]) b =
      ((done ++ [x]).filter (·.mailHdr.toAddr = b)).map Letter.mail := by
  rw [filter_append, map_append, ← h b]
  by_cases e : b = x.mailHdr.toAddr
  · subst e
    simp
  · simp [update_of_ne e, Ne.symm e]

end

/-! ## In transit -/

/-- What the device holds. -/
inductive Device (numBoxes : Word) (inHdr : PacketHeader) (inbox : List Byte) : List Letter → Prop
  | empty : inHdr.length = 0 → Device numBoxes inHdr inbox []
  | full {x : Letter} : x.Legal numBoxes → x.In inHdr inbox → Device numBoxes inHdr inbox [x]

/-- A packet at the socket. -/
def Packed (po : PostOffice) (packet : List Byte) (x : Letter) : Prop :=
  x.Legal po.numBoxes ∧ x.pktHdr.toAddr = po.netAddr ∧ ∃ rest, packet = Header.layout.bytes x.header ++ (x.body ++ rest)

/-- The letters in the device and at the socket. -/
structure Transit (po : PostOffice) (n : Network) (device queue : List Letter) : Prop where
  ident : n.ident = po.netAddr
  ready : n.sendBusy = false
  inbox : n.inbox.length = maxPacketSize
  device : Device po.numBoxes n.inHdr n.inbox device
  queue : List.Forall₂ po.Packed n.socket queue

/-- What handlers do: letters move on, and each that reaches the device is signalled. -/
structure Carried (po : PostOffice) (g g' : Shared) (vs : List SemId) (device queue device' queue' : List Letter) : Prop where
  transit : Transit po g'.network device' queue'
  moved : ∃ new, g'.arrived = g.arrived ++ new ∧ device ++ (queue ++ new) = device' ++ queue'
  legal : (∀ x ∈ g.arrived, x.Legal po.numBoxes) → ∀ x ∈ g'.arrived, x.Legal po.numBoxes
  permits : device.length + vs.count po.messageAvailable = device'.length
  boxes : g'.boxes = g.boxes
  taken : g'.taken = g.taken
  outgoing : g'.outgoing = g.outgoing

variable {vs : List SemId} {t : Tid} {due : List Interrupt}

section

variable {po : PostOffice} {g : Shared} {n : Network} {device queue : List Letter}

theorem Device.length_le (h : Device po.numBoxes n.inHdr n.inbox device) : device.length ≤ 1 := by
  cases h with
  | empty => exact Nat.zero_le _
  | full => exact Nat.le_refl _

/-- A poll reads a packet only into an empty device. -/
theorem Transit.poll (h : Transit po n device queue) : n.checkPktAvail = .ok (false, n) ∨
    ∃ x queue' n', device = [] ∧ queue = x :: queue' ∧ n.checkPktAvail = .ok (true, n') ∧ Transit po n' [x] queue' := by
  obtain ⟨hid, hrd, hinb, hd, hq⟩ := h
  cases hd with
  | full hl hin =>
    refine .inl (if_pos ?_)
    rw [hin.1]
    exact hl.header_ne
  | empty he =>
    generalize hs : n.socket = socket at hq
    cases hq with
    | nil =>
      left
      rw [Network.checkPktAvail, if_neg (not_not_intro he), hs]
    | @cons packet x rest queue' hp hr =>
      obtain ⟨hl, hto, bytes, rfl⟩ := hp
      have hm := hl.body_fits
      refine .inr ⟨x, queue', _, rfl, rfl,
        Network.checkPktAvail_ok he hs (hto.trans hid.symm) hl.length_header hm, hid, hrd, ?_, ?_, hr⟩
      · exact (length_patch (by rw [Nat.zero_add, hinb]; exact hm)).trans hinb
      · exact .full hl ⟨rfl, take_patch_zero ..⟩

theorem Carried.same {n' : Network} (h : Transit po n' device queue) (hvs : vs.count po.messageAvailable = 0) :
    Carried po g { g with network := n' } vs device queue device queue :=
  ⟨h, ⟨[], (append_nil _).symm, by rw [append_nil]⟩, id, by rw [hvs]; rfl, rfl, rfl, rfl⟩

theorem fire_carried (hd : po.sems.Nodup) (h : Transit po g.network device queue) (d : Interrupt) :
    ∃ g' vs device' queue', po.fire d g = .ok (g', vs) ∧ Carried po g g' vs device queue device' queue' := by
  have hne : po.messageSent ≠ po.messageAvailable := by
    rintro e
    rw [sems, e] at hd
    exact absurd hd (by simp)
  cases d with
  | networkReadPoll =>
    simp only [fire]
    rcases h.poll with hp | ⟨x, queue', n', rfl, rfl, hp, ht⟩
    · rw [hp]
      exact ⟨g, [], device, queue, rfl, .same h rfl⟩
    · rw [hp]
      refine ⟨_, _, [x], queue', rfl, ht, ⟨[], (append_nil _).symm, by rw [append_nil]; rfl⟩, id, ?_, rfl, rfl, rfl⟩
      simp
  | networkSendDone =>
    simp only [fire]
    have hc : ∀ called : Bool, (if called then [po.messageSent] else []).count po.messageAvailable = 0 := by
      intro called
      cases called with
      | false => rfl
      | true => exact count_eq_zero.mpr fun hm => hne (mem_singleton.mp hm).symm
    have hse : Transit po g.network.sendDone.2 device queue := by
      rw [Network.sendDone]
      split
      · exact h
      · exact ⟨h.ident, rfl, h.inbox, h.device, h.queue⟩
    exact ⟨_, _, device, queue, rfl, .same hse (hc _)⟩
  | arrive x sender =>
    simp only [fire]
    split
    · rename_i packet n' hsn
      split
      · rename_i hto
        obtain ⟨hl, -, hpc⟩ := Letter.legal_of_send hsn
        have hpa : po.Packed packet x := ⟨hl, hto, hpc packet rfl⟩
        exact ⟨_, _, device, queue ++ [x], rfl,
          ⟨h.ident, h.ready, h.inbox, h.device, rel_append h.queue (.cons hpa .nil)⟩, ⟨[x], rfl, rfl⟩,
          fun ha => forall_mem_append.mpr ⟨ha, forall_mem_singleton.mpr hl⟩, rfl, rfl, rfl, rfl⟩
      · exact ⟨g, [], device, queue, rfl, .same h rfl⟩
    · exact ⟨g, [], device, queue, rfl, .same h rfl⟩
  | other s =>
    refine ⟨g, _, device, queue, rfl, .same h ?_⟩
    split
    · rfl
    · rename_i hs
      exact count_eq_zero.mpr fun hm => hs (by rw [← mem_singleton.mp hm]; simp [sems])

theorem fires_carried (hd : po.sems.Nodup) (due : List Interrupt) : ∀ {g : Shared} {device queue : List Letter},
    Transit po g.network device queue →
    ∃ g' vs device' queue', po.client.fires due g = .ok (g', vs) ∧ Carried po g g' vs device queue device' queue' := by
  induction due with
  | nil =>
    intro g device queue h
    exact ⟨g, [], device, queue, rfl, .same h rfl⟩
  | cons d ds ih =>
    intro g device queue h
    obtain ⟨g1, vs1, device1, queue1, hfr, h1⟩ := fire_carried hd h d
    obtain ⟨g2, vs2, device2, queue2, hf, h2⟩ := ih h1.transit
    obtain ⟨new1, ha1, hm1⟩ := h1.moved
    obtain ⟨new2, ha2, hm2⟩ := h2.moved
    refine ⟨g2, vs1 ++ vs2, device2, queue2, ?_, h2.transit, ⟨new1 ++ new2, ?_, ?_⟩, fun ha => h2.legal (h1.legal ha), ?_,
      h2.boxes.trans h1.boxes,
      h2.taken.trans h1.taken, h2.outgoing.trans h1.outgoing⟩
    · have hf' : po.client.fire d g = .ok (g1, vs1) := hfr
      rw [Client.fires, hf']
      simp only [bind, Except.bind, hf]
      rfl
    · rw [ha2, ha1, append_assoc]
    · rw [← append_assoc queue, ← append_assoc device, hm1, append_assoc, hm2]
    · have := h1.permits
      have := h2.permits
      rw [count_append]
      omega

end

/-! ## The postal worker -/

/-- What the postal worker holds. -/
inductive Worker (numBoxes : Word) : Place → List Letter → Prop
  | helper {buffer : List Byte} : buffer.length = maxPacketSize → Worker numBoxes (.helper buffer) []
  | delivery {buffer : List Byte} : buffer.length = maxPacketSize → Worker numBoxes (.delivery buffer) []
  | received {pktHdr : PacketHeader} {buffer : List Byte} {x : Letter} : buffer.length = maxPacketSize → x.Legal numBoxes →
      x.In pktHdr buffer → Worker numBoxes (.received pktHdr buffer) [x]

def Place.works : Place → Bool
  | .helper _ | .delivery _ | .received .. => true
  | .outside | .sent => false

def Place.delivers : Place → Bool
  | .delivery _ => true
  | _ => false

theorem Place.delivers_iff {l : Place} : l.delivers = true ↔ ∃ buffer, l = .delivery buffer := by
  constructor
  · intro h
    cases l with
    | delivery buffer => exact ⟨buffer, rfl⟩
    | outside | sent | helper | received => cases h
  · rintro ⟨buffer, rfl⟩
    rfl

theorem Place.works_of_delivers {l : Place} (h : l.delivers = true) : l.works = true := by
  obtain ⟨buffer, rfl⟩ := Place.delivers_iff.mp h
  rfl

/-- The worker has taken a permit, and not the packet. -/
def past (po : PostOffice) (s : Client.State Shared Place) : Bool :=
  (s.locals po.worker).delivers && !(s.kernel.counter po.messageAvailable).waits po.worker

/-- Where the letters are that have arrived. -/
structure Flow (po : PostOffice) (s : Client.State Shared Place) (done worker device queue : List Letter) : Prop where
  arrived : s.shared.arrived = done ++ (worker ++ (device ++ queue))
  appended : ∀ b, s.shared.taken b ++ s.shared.boxes b = (done.filter (·.mailHdr.toAddr = b)).map Letter.mail
  worker : Worker po.numBoxes (s.locals po.worker) worker
  transit : Transit po s.shared.network device queue
  permit : (s.kernel.counter po.messageAvailable).value.toNat + (past po s).toNat = device.length

section

variable {po : PostOffice} {s s' : Client.State Shared Place} {done worker device queue : List Letter}

theorem Worker.works {l : Place} (h : Worker po.numBoxes l worker) : l.works = true := by
  cases h with
  | helper | delivery | received => rfl

theorem Flow.other (h : Flow po s done worker device queue) (hl : s'.locals po.worker = s.locals po.worker)
    (hc : s'.kernel.counter po.messageAvailable = s.kernel.counter po.messageAvailable)
    (ha : s'.shared.arrived = s.shared.arrived)
    (hb : ∀ b, s'.shared.taken b ++ s'.shared.boxes b = s.shared.taken b ++ s.shared.boxes b)
    (ht : Transit po s'.shared.network device queue) : Flow po s' done worker device queue where
  arrived := ha.trans h.arrived
  appended b := (hb b).trans (h.appended b)
  worker := by rw [hl]; exact h.worker
  transit := ht
  permit := by rw [past, hl, hc]; exact h.permit

/-- The worker gets to its `P`, or tests the value again there. -/
theorem Flow.test (h : Flow po s done worker device queue) (hps : past po s = false)
    (hc : s'.kernel.counter po.messageAvailable = (s.kernel.counter po.messageAvailable).test po.worker)
    {buffer : List Byte} (hl : s'.locals po.worker = .delivery buffer) :
    (s'.kernel.counter po.messageAvailable).value.toNat + (past po s').toNat = device.length := by
  have hp := h.permit
  rw [hps] at hp
  rw [past, hl, hc, Place.delivers, Bool.true_and, Counter.test_permit]
  exact hp

end

/-! ## Whole runs -/

structure Office (po : PostOffice) (s : Client.State Shared Place) : Prop where
  custody : s.kernel.Custody
  distinct : po.sems.Nodup
  made : po.messageAvailable < s.kernel.numSems
  initial : s.kernel.initial po.messageAvailable = 0
  lawful : s.kernel.Lawful po.messageAvailable
  others : ∀ t, (s.locals t).works = true → t = po.worker
  waiting : ∀ t, (s.kernel.counter po.messageAvailable).waits t = true → (s.locals t).delivers = true
  outgoing : ∀ x ∈ s.shared.outgoing, x.netAddr = po.netAddr ∧ x.Legal po.numBoxes
  legal : ∀ x ∈ s.shared.arrived, x.Legal po.numBoxes
  flow : ∃ done worker device queue, Flow po s done worker device queue

section

variable {po : PostOffice} {s s' : Client.State Shared Place} {g g' : Shared} {l l' : Place} {call : Call}

/-- Nobody becomes the worker. -/
theorem Moves.works (h : po.Moves g l g' l' call) : l'.works = l.works := by
  cases h with
  | idle | send | receive | release | start | unload | put => rfl

/-- Only the worker waits for packets, and no thread signals one. -/
theorem Moves.waits (hd : po.sems.Nodup) (h : po.Moves g l g' l' call) :
    (call = .p po.messageAvailable → l'.delivers = true) ∧ call ≠ .v po.messageAvailable ∧
      (l.works = false → call ≠ .p po.messageAvailable) := by
  have hne : po.messageSent ≠ po.messageAvailable := by
    intro e
    rw [sems, e] at hd
    exact absurd hd (by simp)
  cases h with
  | idle hs =>
    obtain ⟨hp, hv⟩ := hs po.messageAvailable (by simp [sems])
    exact ⟨fun e => absurd e hp, hv, fun _ => hp⟩
  | send => exact ⟨fun e => absurd e (Call.p_ne hne).1, (Call.p_ne hne).2, fun _ => (Call.p_ne hne).1⟩
  | receive | release | unload =>
    have hn := Call.none_ne po.messageAvailable
    exact ⟨fun e => absurd e hn.1, hn.2, fun _ => hn.1⟩
  | start | put => exact ⟨fun _ => rfl, (by intro e; cases e), (by intro e; cases e)⟩

theorem Moves.arrived (h : po.Moves g l g' l' call) : g'.arrived = g.arrived := by
  cases h with
  | idle | send | receive | release | start | unload | put => rfl

theorem Moves.outgoing (h : po.Moves g l g' l' call) (hg : ∀ x ∈ g.outgoing, x.netAddr = po.netAddr ∧ x.Legal po.numBoxes) :
    ∀ x ∈ g'.outgoing, x.netAddr = po.netAddr ∧ x.Legal po.numBoxes := by
  cases h with
  | idle | receive | release | start | unload | put => exact hg
  | send ha hs =>
    intro x hx
    simp only at hx
    split at hx
    · rcases mem_append.mp hx with hx | hx
      · exact hg x hx
      · rw [mem_singleton.mp hx]
        exact ⟨ha, (Letter.legal_of_send hs).1⟩
    · exact hg x hx

/-- A turn of a thread that is not the worker. -/
theorem Moves.other {device queue : List Letter} (h : po.Moves g l g' l' call) (hl : l.works = false)
    (ht : Transit po g.network device queue) :
    (∀ b, g'.taken b ++ g'.boxes b = g.taken b ++ g.boxes b) ∧ Transit po g'.network device queue := by
  cases h with
  | idle | release => exact ⟨fun _ => rfl, ht⟩
  | send ha hs =>
    obtain ⟨-, rfl, -⟩ := Letter.legal_of_send hs
    exact ⟨fun _ => rfl, ht.ident, ht.ready, ht.inbox, ht.device, ht.queue⟩
  | @receive box mail rest hb =>
    refine ⟨fun b => ?_, ht⟩
    by_cases e : b = box
    · subst e
      simp [hb]
    · simp [update_of_ne e]
  | start | unload | put => cases hl

theorem Flow.works {done worker device queue : List Letter} (h : Flow po s done worker device queue)
    (hm : po.Moves s.shared (s.locals po.worker) s'.shared l call)
    (hsl : s'.locals po.worker = l) (ho : (s.kernel.counter po.messageAvailable).waits po.worker = false)
    (hc : s'.kernel.counter po.messageAvailable =
      call.on po.messageAvailable po.worker (s.kernel.counter po.messageAvailable)) :
    ∃ done worker device queue, Flow po s' done worker device queue := by
  have hw := h.worker
  have hp : past po s = (s.locals po.worker).delivers := by rw [past, ho, Bool.not_false, Bool.and_true]
  generalize hold : s.locals po.worker = old at hm hw hp
  generalize hs : s'.shared = g' at hm
  cases hw with
  | helper hln =>
    cases hm with
    | start buffer =>
      rw [Call.on, if_pos rfl] at hc
      refine ⟨done, [], device, queue, ?_⟩
      exact ⟨hs ▸ h.arrived, hs ▸ h.appended, hsl ▸ .delivery hln, hs ▸ h.transit,
        h.test hp hc hsl⟩
  | delivery hln =>
    cases hm with
    | unload buffer =>
      -- the permit it has taken says that the device is full
      have hpr := h.permit
      have hd := h.transit.device
      rw [hp, Place.delivers, Bool.toNat_true] at hpr
      cases hd with
      | empty => cases hpr
      | @full x hl hin =>
        rw [Call.on, if_neg (Call.none_ne _).1, if_neg (Call.none_ne _).2] at hc
        obtain ⟨hi', hl'⟩ := unload_eq hl hin hln
        refine ⟨done, [x], [], queue, ?_, ?_, ?_, ?_, ?_⟩
        · rw [hs]; exact h.arrived
        · rw [hs]; exact h.appended
        · rw [hsl]; exact .received hl' hl hi'
        · rw [hs]
          exact ⟨h.transit.ident, h.transit.ready, h.transit.inbox, .empty rfl, h.transit.queue⟩
        · rw [past, hsl, hc]
          exact Nat.succ.inj hpr
  | @received _ _ x hln hl hin =>
    cases hm with
    | put hpt =>
      rw [Call.on, if_pos rfl] at hc
      rw [put_eq hl hin] at hpt
      cases hpt
      refine ⟨done ++ [x], [], device, queue, ?_, ?_, ?_, ?_, h.test hp hc hsl⟩
      · rw [hs, append_assoc]; exact h.arrived
      · rw [hs]; exact append_put h.appended
      · rw [hsl]; exact .delivery hln
      · rw [hs]; exact h.transit

theorem Office.turn (h : Office po s) {i : Input} (htr : Turn po.client i t l call s s') :
    ∃ done worker device queue, Flow po s' done worker device queue := by
  obtain ⟨done, worker, device, queue, hf⟩ := h.flow
  have hm : po.Moves s.shared (s.locals t) s'.shared l call := turn_moves htr.turn
  by_cases hw : (s.locals t).works = true
  · obtain rfl := h.others t hw
    exact hf.works hm htr.self (htr.outside po.messageAvailable) (htr.counters po.messageAvailable h.made)
  have hw' : (s.locals t).works = false := Bool.not_eq_true _ ▸ hw
  have hne : po.worker ≠ t := fun e => hw (e ▸ hf.worker.works)
  obtain ⟨-, hv, hp⟩ := hm.waits h.distinct
  obtain ⟨hb, ht⟩ := hm.other hw' hf.transit
  exact ⟨done, worker, device, queue,
    hf.other (htr.others _ hne) (htr.unused h.made ⟨hp hw', hv⟩) hm.arrived hb ht⟩

theorem Office.fired (h : Office po s) (hfi : Fired po.client due vs s s') :
    (∃ done worker device queue, Flow po s' done worker device queue) ∧ s'.shared.outgoing = s.shared.outgoing ∧
      ∀ x ∈ s'.shared.arrived, x.Legal po.numBoxes := by
  obtain ⟨done, worker, device, queue, hf⟩ := h.flow
  obtain ⟨g', vs', device', queue', hfr, hc⟩ := fires_carried h.distinct due hf.transit
  rw [hfi.fires] at hfr
  cases hfr
  obtain ⟨new, ha, hm⟩ := hc.moved
  have hpr := hf.permit
  have hpe := hc.permits
  have ho := hc.transit.device.length_le
  have hcn := hfi.counters po.messageAvailable
  have hp : past po s' = past po s := by
    rw [past, past, hfi.locals, hcn]
    rfl
  refine ⟨⟨done, worker, device', queue', ?_, ?_, ?_, hc.transit, ?_⟩, hc.outgoing, hc.legal h.legal⟩
  · rw [ha, hf.arrived, ← hm]
    simp only [append_assoc]
  · rw [hc.taken, hc.boxes]
    exact hf.appended
  · rw [hfi.locals]
    exact hf.worker
  · rw [hp, hcn, Counter.signal_toNat (by omega)]
    omega

theorem Office.resumed (h : Office po s) (hr : Resumed t s s') :
    ∃ done worker device queue, Flow po s' done worker device queue := by
  obtain ⟨done, worker, device, queue, hf⟩ := h.flow
  have hlc : s'.locals po.worker = s.locals po.worker := by rw [hr.locals]
  rcases hr.counters po.messageAvailable with hs | ⟨hw, ht⟩
  · exact ⟨done, worker, device, queue, hf.other hlc hs (by rw [hr.shared]) (fun b => by rw [hr.shared])
      (by rw [hr.shared]; exact hf.transit)⟩
  have hd := h.waiting t hw
  obtain rfl := h.others t (Place.works_of_delivers hd)
  obtain ⟨buffer, hl⟩ := Place.delivers_iff.mp hd
  have hp : past po s = false := by rw [past, hw, Bool.not_true, Bool.and_false]
  refine ⟨done, worker, device, queue, ?_, ?_, ?_, ?_, hf.test hp ht (hlc.trans hl)⟩
  · rw [hr.shared]; exact hf.arrived
  · rw [hr.shared]; exact hf.appended
  · rw [hlc]; exact hf.worker
  · rw [hr.shared]; exact hf.transit

/-- The permits are at most one. -/
theorem Office.fits (h : Office po s) (hfr : po.client.fires due s.shared = .ok (g, vs)) :
    (s.kernel.counter po.messageAvailable).value.toInt + vs.count po.messageAvailable ≤ intMax.toInt := by
  obtain ⟨done, worker, device, queue, hf⟩ := h.flow
  obtain ⟨g', vs', device', queue', hf', hc⟩ := fires_carried h.distinct due hf.transit
  rw [hfr] at hf'
  cases hf'
  have hp := hf.permit
  have hpr := hc.permits
  have ho := hc.transit.device.length_le
  have hm : intMax.toInt = 2147483647 := rfl
  rw [BitVec.toInt_eq_toNat_of_lt (by omega), hm]
  omega

theorem step_office (h : Office po s) {e : Client.Event Input Interrupt} (hs : po.client.step s e = .ok s') : Office po s' := by
  obtain ⟨hc, hk, hcs⟩ := Client.step_cases h.custody hs
  obtain ⟨hmd, hin⟩ := hk _ h.made
  rw [h.initial] at hin
  have hl := Client.step_lawful h.custody h.lawful (fun ht => ((turn_moves ht).waits h.distinct).2.1) h.fits hs
  have hw : WaitsAt po.messageAvailable (·.delivers = true) s := h.waiting
  rcases hcs with rfl | ⟨i, t, l, call, htr⟩ | ⟨due, vs, hf⟩ | ⟨t, hr⟩
  · exact h
  · have hm : po.Moves s.shared (s.locals t) s'.shared l call := turn_moves htr.turn
    refine ⟨hc, h.distinct, hmd, hin, hl, ?_, hw.turn h.made htr (hm.waits h.distinct).1,
      hm.outgoing h.outgoing, ?_, h.turn htr⟩
    · intro u hu
      by_cases e : u = t
      · subst e
        rw [htr.self, hm.works] at hu
        exact h.others u hu
      · rw [htr.others u e] at hu
        exact h.others u hu
    · rw [hm.arrived]
      exact h.legal
  · obtain ⟨hfl, ho, hlg⟩ := h.fired hf
    refine ⟨hc, h.distinct, hmd, hin, hl, ?_, hw.fired hf, ?_, hlg, hfl⟩
    · rw [hf.locals]
      exact h.others
    · rw [ho]
      exact h.outgoing
  · refine ⟨hc, h.distinct, hmd, hin, hl, ?_, hw.resumed hr, ?_, ?_, h.resumed hr⟩
    · rw [hr.locals]
      exact h.others
    · rw [hr.shared]
      exact h.outgoing
    · rw [hr.shared]
      exact h.legal

theorem init_office (h : po.Init s) : Office po s := by
  obtain ⟨⟨k, hk, hc, hn⟩, ⟨junkHdr, inbox, hin, hs⟩, buffer, hb, hl⟩ := h
  have hf := new_fresh (Dispatch.reach_making hk hc) hn
  have hw : s.locals po.worker = .helper buffer := by rw [hl, update_self]
  refine ⟨hf.custody, hf.distinct, hf.made, hf.initial, hf.lawful, ?_, ?_, ?_, ?_, [], [], [], [], ?_⟩
  · intro t ht
    by_contra hne
    rw [hl, update_of_ne hne] at ht
    cases ht
  · intro t ht
    rw [hf.counter] at ht
    cases ht
  · rw [hs]
    intro x hx
    cases hx
  · rw [hs]
    intro x hx
    cases hx
  · refine ⟨by rw [hs]; rfl, by rw [hs]; exact fun _ => rfl, by rw [hw]; exact .helper hb, ?_, ?_⟩
    · rw [hs]
      exact ⟨rfl, rfl, hin, .empty rfl, .nil⟩
    · rw [past, hw, hf.counter]
      rfl

theorem reach_office {ok : Client.State Shared Place → Client.Event Input Interrupt → Prop}
    (h : Reach po.client.step ok po.Init s) : Office po s :=
  h.inv (P := Office po) (fun _ hs => init_office hs) fun _ _ _ hs _ hst => step_office hs hst

/-- The worker does not sleep while a packet is in the device. -/
theorem Office.awake (h : Office po s) {done worker device queue : List Letter} (hf : Flow po s done worker device queue)
    (hfl : device ≠ []) : (s.kernel.sems po.messageAvailable).queue = [] := by
  have ho : ∀ u, s.kernel.waits po.messageAvailable u = true → u = po.worker := fun u hu =>
    h.others u (Place.works_of_delivers (h.waiting u hu))
  refine h.lawful.awake h.custody h.made h.initial (fun t u ht hu => (ho u hu).trans (ho t ht).symm) fun t hw e => ?_
  obtain rfl := ho t hw
  have hps : past po s = false := by
    rw [past, show (s.kernel.counter po.messageAvailable).waits po.worker = true from hw, Bool.not_true, Bool.and_false]
  have hp := hf.permit
  rw [hps, show (s.kernel.counter po.messageAvailable).value = 0 from e] at hp
  exact hfl (length_eq_zero_iff.mp hp.symm)

/-- The worker fails no ASSERT. -/
theorem worker_goes_on {done worker device queue : List Letter} (hf : Flow po s done worker device queue) (i : Input) :
    ∃ r, po.turn i s.shared (s.locals po.worker) = .ok r := by
  have hw := hf.worker
  generalize s.locals po.worker = l at hw
  cases hw with
  | helper => exact ⟨_, rfl⟩
  | delivery => exact ⟨_, rfl⟩
  | received _ hl hin => exact ⟨_, put_eq hl hin⟩

end

/-- In every state of every run: the letters that have arrived are, in order, those whose mails
    have been put into the boxes, the one the postal worker holds, the one in the device, and
    those at the socket. What has been put into a box is the mails of the letters to it, in the
    order of arrival; a mail has the sender's address, its header and its data. No handler and no
    turn of the worker fails, and the worker does not sleep while a packet is in the device. A legal
    letter can be sent, and what leaves this machine is legal. -/
theorem mail_delivered {po : PostOffice} {s : Client.State Shared Place}
    (h : Lib.Reach po.client.step (fun _ _ => True) po.Init s) :
    (∃ done worker device queue, s.shared.arrived = done ++ (worker ++ (device ++ queue)) ∧
      (∀ b, s.shared.taken b ++ s.shared.boxes b = (done.filter (·.mailHdr.toAddr = b)).map Letter.mail) ∧
      Worker po.numBoxes (s.locals po.worker) worker ∧ Transit po s.shared.network device queue ∧
      (device ≠ [] → (s.kernel.sems po.messageAvailable).queue = [])) ∧
    (∀ x ∈ s.shared.arrived, x.mail.pktHdr.fromAddr = x.netAddr ∧ x.mail.mailHdr = x.mailHdr ∧
      x.mail.data <+: x.data ∧ x.mail.data.length = x.mailHdr.length.toNat) ∧
    (∀ due, ∃ r, po.client.fires due s.shared = .ok r) ∧
    (∀ i, ∃ r, po.turn i s.shared (s.locals po.worker) = .ok r) ∧
    (∀ x lost, x.Legal po.numBoxes → ∃ r, po.send s.shared x lost = .ok r) ∧
    (∀ x ∈ s.shared.outgoing, x.netAddr = po.netAddr ∧ x.Legal po.numBoxes) := by
  have hoffice := reach_office h
  obtain ⟨done, worker, device, queue, hflow⟩ := hoffice.flow
  refine ⟨⟨done, worker, device, queue, hflow.arrived, hflow.appended, hflow.worker, hflow.transit, hoffice.awake hflow⟩,
    ?_, ?_, worker_goes_on hflow, ?_, hoffice.outgoing⟩
  · intro x hx
    exact ⟨rfl, rfl, List.take_prefix .., (hoffice.legal x hx).length_data⟩
  · intro due
    obtain ⟨g', vs, -, -, hfires, -⟩ := fires_carried hoffice.distinct due hflow.transit
    exact ⟨_, hfires⟩
  · intro x lost hlegal
    have hlegal' : ({ x with netAddr := po.netAddr } : Letter).Legal po.numBoxes := ⟨hlegal.short, hlegal.box, hlegal.data⟩
    obtain ⟨packet, hsend, -⟩ := hlegal'.send_eq hflow.transit.ready hflow.transit.ident.symm lost
    rw [send, hsend]
    exact ⟨_, rfl⟩

/-- Machine 1, with two boxes; the main thread has made the post office. -/
def firstOffice : PostOffice := ⟨1, 2, 0, 1, 1⟩

def booted : Client.State Shared Place where
  kernel := match new 1 2 .start with
    | .ok (_, k) => k
    | .error _ => .start
  shared := ⟨.new 1 ⟨0, 0, 0⟩ (List.replicate 52 0), fun _ => [], fun _ => [], [], []⟩
  locals := Function.update (fun _ => .outside) 1 (.helper (List.replicate 52 0))

theorem booted_init : firstOffice.Init booted :=
  ⟨⟨.start, .init rfl, by decide, rfl⟩, ⟨_, _, length_replicate, rfl⟩, _, length_replicate, rfl⟩

/-- A letter from box 0 of machine 2 to a box of machine 1. -/
def note (box length : Word) (data : List Byte) : Letter :=
  ⟨2, ⟨1, 0, 0⟩, ⟨box, 0, length⟩, data, List.replicate 52 7, List.replicate 64 9, List.length_replicate, List.length_replicate⟩

/-- Two packets arrive before the first is read. -/
theorem two_letters : ∃ s, Lib.Reach firstOffice.client.step (fun _ _ => True) firstOffice.Init s ∧
    s.shared.taken 1 = [⟨⟨1, 2, 14⟩, ⟨1, 0, 2⟩, [104, 105]⟩] ∧ s.shared.boxes 0 = [⟨⟨1, 2, 13⟩, ⟨0, 0, 1⟩, [33]⟩] ∧
    ∃ done worker device queue, s.shared.arrived = done ++ (worker ++ (device ++ queue)) ∧
      ∀ b, s.shared.taken b ++ s.shared.boxes b = (done.filter (·.mailHdr.toAddr = b)).map Letter.mail := by
  obtain ⟨s, hs, ht⟩ := exists_reach firstOffice.client.step (fun _ _ => true)
    [.tick [.arrive (note 1 2 [104, 105]) (.new 2 ⟨0, 0, 0⟩ []), .arrive (note 0 1 [33, 34]) (.new 2 ⟨0, 0, 0⟩ []), .networkReadPoll,
        .networkReadPoll] true,
      .resume, .turn .goOn, .turn .goOn, .turn .goOn, .resume, .tick [.networkReadPoll] true, .resume, .turn .goOn, .turn .goOn,
      .resume, .turn (.receive 1)]
    (fun s => s.shared.taken 1 == [⟨⟨1, 2, 14⟩, ⟨1, 0, 2⟩, [104, 105]⟩] && s.shared.boxes 0 == [⟨⟨1, 2, 13⟩, ⟨0, 0, 1⟩, [33]⟩])
    booted_init (by decide +kernel)
  rw [Bool.and_eq_true, beq_iff_eq, beq_iff_eq] at ht
  have hreach := hs.mono fun _ _ _ => trivial
  obtain ⟨⟨done, worker, device, queue, harrived, happended, -⟩, -⟩ := mail_delivered hreach
  exact ⟨s, hreach, ht.1, ht.2, done, worker, device, queue, harrived, happended⟩

end PostOffice

end Nachos

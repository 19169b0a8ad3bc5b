/-
  Nachos.Machine.Network — `machine/network.cc`: the network device, with the headers of
  `machine/network.h` and `network/post.h`.

  A packet on the wire is always 64 bytes: the packet header, the data, and whatever memory
  held after them. The device buffers one packet, and a length that is not 0 in its header
  says that there is one. `sendBusy` is only ever cleared.
  - `packet_eq`: the bytes of a packet; `checkPktAvail_ok`: they are read back.
-/

import Nachos.Lib.Layout
import Nachos.Lib.Runs
import Nachos.Machine.Machine

namespace Nachos

open Lib

/-! ## Headers -/

/-- Three `int`s: where to, from where, and how many bytes follow. -/
structure Header where
  toAddr : Word
  fromAddr : Word
  length : Word
  deriving DecidableEq, Repr

/-- Machine addresses; `length` excludes the header itself. -/
abbrev PacketHeader := Header

/-- Mail boxes. -/
abbrev MailHeader := Header

/-- A header in memory. -/
def Header.layout : Lib.Layout Header where
  size := 12
  bytes h := Lib.word.bytesOf [h.toAddr, h.fromAddr, h.length]
  ofBytes buf := ⟨(Lib.word.list 3 buf).getD 0 0, (Lib.word.list 3 buf).getD 1 0, (Lib.word.list 3 buf).getD 2 0⟩
  length_bytes _ := rfl
  ofBytes_bytes h := by
    have hlist := Lib.word.list_bytesOf [h.toAddr, h.fromAddr, h.length] []
    rw [List.append_nil] at hlist
    rw [show (3 : Nat) = [h.toAddr, h.fromAddr, h.length].length from rfl, hlist]
    rfl

abbrev sizeofHeader : Nat := 12
abbrev maxWireSize : Nat := 64
abbrev maxPacketSize : Nat := 52
abbrev maxMailSize : Nat := 40

theorem Header.ofBytes_append (h : Header) (rest : List Byte) :
    Header.layout.ofBytes ((Header.layout.bytes h ++ rest).take sizeofHeader) = h := by
  have hl : (Header.layout.bytes h).length = sizeofHeader := Header.layout.length_bytes h
  rw [List.take_left' hl, Header.layout.ofBytes_bytes]

/-! ## The device -/

structure Network where
  ident : Word
  sendBusy : Bool
  inHdr : PacketHeader
  inbox : List Byte
  /-- How many `NetworkSendDone` are scheduled. -/
  sendsDue : Nat
  /-- The packets that have arrived at the socket. -/
  socket : List (List Byte)
  deriving DecidableEq

namespace Network

/-- `Network::Network`; `junk` is the memory of the new object. -/
def new (addr : Word) (junkHdr : PacketHeader) (junk : List Byte) : Network where
  ident := addr
  sendBusy := false
  inHdr := { junkHdr with length := 0 }
  inbox := junk
  sendsDue := 0
  socket := []

/-- `Send`: the packet for the socket, unless it is `lost`. `data` is a buffer of MaxPacketSize
    bytes, `junk` the memory the packet is put together in. -/
def send (n : Network) (hdr : PacketHeader) (data junk : List Byte) (lost : Bool) : Except Stop (Option (List Byte) × Network) :=
  if n.sendBusy = false ∧ 0 < hdr.length.toNat ∧ hdr.length.toNat ≤ maxPacketSize ∧ hdr.fromAddr = n.ident then
    let buffer := Lib.patch (Lib.patch junk 0 (Header.layout.bytes hdr)) sizeofHeader (data.take hdr.length.toNat)
    .ok (if lost then none else some buffer, { n with sendsDue := n.sendsDue + 1 })
  else .error .assertion

/-- `SendDone`, if it is scheduled: whether the handler is called. -/
def sendDone (n : Network) : Bool × Network :=
  if n.sendsDue = 0 then (false, n) else (true, { n with sendBusy := false, sendsDue := n.sendsDue - 1 })

/-- `CheckPktAvail`: whether the handler is called. -/
def checkPktAvail (n : Network) : Except Stop (Bool × Network) :=
  if n.inHdr.length ≠ 0 then .ok (false, n)
  else
    match n.socket with
    | [] => .ok (false, n)
    | packet :: rest =>
      let inHdr := Header.layout.ofBytes (packet.take sizeofHeader)
      if inHdr.toAddr = n.ident ∧ inHdr.length.toNat ≤ maxPacketSize then
        .ok (true, { n with
          socket := rest, inHdr, inbox := Lib.patch n.inbox 0 ((packet.drop sizeofHeader).take inHdr.length.toNat) })
      else .error .assertion

/-- `Receive` into a buffer. -/
def receive (n : Network) (data : List Byte) : PacketHeader × List Byte × Network :=
  (n.inHdr, if n.inHdr.length ≠ 0 then Lib.patch data 0 (n.inbox.take n.inHdr.length.toNat) else data,
    { n with inHdr := { n.inHdr with length := 0 } })

section

variable {n n' : Network} {hdr : PacketHeader} {body : List Byte}

/-- A packet is its header, its data and some more bytes. -/
theorem packet_eq {data : List Byte} (junk : List Byte) (hb : data.take hdr.length.toNat = body) :
    ∃ rest, patch (patch junk 0 (Header.layout.bytes hdr)) sizeofHeader (data.take hdr.length.toNat) =
      Header.layout.bytes hdr ++ (body ++ rest) := by
  have hl : (Header.layout.bytes hdr).length = sizeofHeader := Header.layout.length_bytes hdr
  have hp := patch_patch junk (Header.layout.bytes hdr) body 0
  rw [Nat.zero_add, hl] at hp
  rw [hb, hp]
  exact ⟨junk.drop (0 + (Header.layout.bytes hdr ++ body).length), by rw [patch, List.take_zero, List.nil_append, List.append_assoc]⟩

theorem send_ok {data junk : List Byte} {lost : Bool} {packet : Option (List Byte)} (h : n.send hdr data junk lost = .ok (packet, n')) :
    hdr.fromAddr = n.ident ∧ n' = { n with sendsDue := n.sendsDue + 1 } ∧ packet = if lost then none else
      some (patch (patch junk 0 (Header.layout.bytes hdr)) sizeofHeader (data.take hdr.length.toNat)) := by
  unfold send at h
  split at h
  · rename_i hl
    cases h
    exact ⟨hl.2.2.2, rfl, rfl⟩
  · cases h

/-- A packet for this machine is read back into the device. -/
theorem checkPktAvail_ok {rest : List Byte} {more : List (List Byte)} (he : n.inHdr.length = 0)
    (hs : n.socket = (Header.layout.bytes hdr ++ (body ++ rest)) :: more) (hto : hdr.toAddr = n.ident)
    (hl : hdr.length.toNat = body.length) (hm : body.length ≤ maxPacketSize) :
    n.checkPktAvail = .ok (true, { n with socket := more, inHdr := hdr, inbox := patch n.inbox 0 body }) := by
  have hb := Header.layout.length_bytes hdr
  have hd : (Header.layout.bytes hdr ++ (body ++ rest)).drop sizeofHeader = body ++ rest := List.drop_left' hb
  simp only [checkPktAvail, he, ne_eq, not_true_eq_false, if_false, hs, Header.ofBytes_append, hd, hl]
  rw [if_pos ⟨hto, hm⟩, List.take_left]

end

end Network

end Nachos

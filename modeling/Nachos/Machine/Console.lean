/-
  Nachos.Machine.Console — `machine/console.cc`: the console device.

  A character goes to the display at once, and an interrupt some time later says so; until
  then the device is busy. The keyboard is polled: a character is fetched when the one-byte
  buffer is empty, and EOF is the mark of the empty buffer, so a byte 0xff that is typed
  looks like none.
-/

import Nachos.Machine.Machine

namespace Nachos

/-- EOF, as a `char`. -/
abbrev eof : Byte := 255

structure Console where
  putBusy : Bool
  incoming : Byte
  /-- How many `ConsoleWriteDone` are scheduled. -/
  writesDue : Nat
  /-- What is still to be read from the keyboard. -/
  keyboard : List Byte
  /-- What has been written to the display. -/
  display : List Byte
  deriving DecidableEq

namespace Console

/-- `Console::Console`, with what will be typed. -/
def new (typed : List Byte) : Console := ⟨false, eof, 0, typed, []⟩

variable (c : Console)

def putChar (ch : Byte) : Except Stop Console :=
  if c.putBusy then .error .assertion
  else .ok { c with display := c.display ++ [ch], putBusy := true, writesDue := c.writesDue + 1 }

/-- `WriteDone`, if it is scheduled: whether the handler is called. -/
def writeDone : Bool × Console :=
  if c.writesDue = 0 then (false, c) else (true, { c with putBusy := false, writesDue := c.writesDue - 1 })

def getChar : Byte × Console := (c.incoming, { c with incoming := eof })

/-- `CheckCharAvail`, with what `PollFile` answers: whether the handler is called. At the end
    of the file `Read` fails its ASSERT. -/
def checkCharAvail (polled : Bool) : Except Stop (Bool × Console) :=
  if c.incoming != eof || !polled then .ok (false, c)
  else
    match c.keyboard with
    | [] => .error .assertion
    | ch :: rest => .ok (true, { c with incoming := ch, keyboard := rest })

theorem writeDone_cases : (c.writesDue = 0 ∧ c.writeDone = (false, c)) ∨
    (c.writesDue ≠ 0 ∧ c.writeDone = (true, { c with putBusy := false, writesDue := c.writesDue - 1 })) := by
  by_cases h : c.writesDue = 0
  · exact .inl ⟨h, if_pos h⟩
  · exact .inr ⟨h, if_neg h⟩

theorem checkCharAvail_cases {c c' : Console} {polled called : Bool} (h : c.checkCharAvail polled = .ok (called, c')) :
    (called = false ∧ c' = c) ∨ (called = true ∧ c.incoming = eof ∧ ∃ ch rest, c.keyboard = ch :: rest ∧
      c' = { c with incoming := ch, keyboard := rest }) := by
  unfold checkCharAvail at h
  split at h
  · cases h
    exact .inl ⟨rfl, rfl⟩
  rename_i hp
  split at h
  · cases h
  rename_i ch rest hk
  cases h
  have he : c.incoming = eof := by
    by_contra hne
    apply hp
    rw [bne_iff_ne.mpr hne, Bool.true_or]
  exact .inr ⟨rfl, he, ch, rest, hk, rfl⟩

end Console

end Nachos

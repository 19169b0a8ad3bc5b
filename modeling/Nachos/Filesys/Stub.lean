/-
  Nachos.Filesys.Stub — `filesys/openfile.h` and `filesys/filesys.h` as FILESYS_STUB builds
  them, over the host calls of `machine/sysdep.cc`.

  The host is a POSIX system with regular files. `answers` is how its next calls of `open`,
  `close`, `read` and `write` turn out: a call may fail, and a transfer may be short; past
  the end of the list every call does what POSIX says. A descriptor is private to its `OpenFile`, so the host's offset of it is
  kept there. A failed ASSERT of `sysdep.cc` stops the simulator.

  `log` is history: the file operations that the system call under way has carried out.
-/

import Mathlib.Logic.Function.Basic
import Nachos.Lib.Runs
import Nachos.Machine.Machine

namespace Nachos.Stub

open Function (update update_of_ne update_self)

open Lib
open BitVec (ofNat)

/-! ## The host -/

abbrev Ino := Nat

/-- The largest `off_t` of a 32-bit host. -/
abbrev maxOffset : Nat := 2147483647

/-- How a call of the host turns out: as POSIX says, with at most `n` bytes moved, or with
    the value -1. -/
inductive Answer where
  | posix
  | short (n : Nat)
  | fails
  deriving DecidableEq, Repr

/-- How many of `n` bytes a transfer may move. -/
def Answer.limit : Answer → Nat → Nat
  | .posix, n => n
  | .short k, n => min k n
  | .fails, _ => 0

structure Host where
  names : List Byte → Option Ino
  created : Nat
  content : Ino → List Byte
  answers : List Answer
  small : ∀ i, (content i).length ≤ maxOffset

variable (h : Host)

namespace Host

/-- How the next call turns out. -/
def answer : Answer × Host := (h.answers.headD .posix, { h with answers := h.answers.tail })

/-- The next call moves all of `n` bytes. -/
def Moves (n : Nat) : Prop := h.answer.1 ≠ .fails ∧ n ≤ h.answer.1.limit n

/-- The content after `bytes` have been written at `offset`; a gap is filled with zeros. -/
def splice (content : List Byte) (offset : Nat) (bytes : List Byte) : List Byte :=
  if bytes = [] then content
  else
    content.take offset ++ List.replicate (offset - content.length) 0 ++ bytes ++ content.drop (offset + bytes.length)

theorem length_splice (content : List Byte) (offset : Nat) (bytes : List Byte) :
    (splice content offset bytes).length = if bytes = [] then content.length else max content.length (offset + bytes.length) := by
  unfold splice
  split
  · rfl
  · simp only [List.length_append, List.length_take, List.length_replicate, List.length_drop]
    omega

def setContent (i : Ino) (bytes : List Byte) (hb : bytes.length ≤ maxOffset) : Host :=
  { h with
    content := update h.content i bytes
    small := by
      intro j
      by_cases e : j = i
      · subst e; rwa [update_self]
      · rw [update_of_ne e]; exact h.small j }

/-- `open` for reading and writing. -/
def openRW (name : List Byte) : Option Ino × Host :=
  match h.answer with
  | (.fails, h) => (none, h)
  | (_, h) => (h.names name, h)

/-- `open` with O_CREAT and O_TRUNC. -/
def openTrunc (name : List Byte) : Option Ino × Host :=
  match h.answer with
  | (.fails, h) => (none, h)
  | (_, h) =>
    if name = [] then (none, h)
    else match h.names name with
      | some i => (some i, h.setContent i [] (Nat.zero_le _))
      | none =>
        (some h.created,
          { h.setContent h.created [] (Nat.zero_le _) with
            names := update h.names name (some h.created)
            created := h.created + 1 })

/-- `Close` of sysdep.cc. -/
def close : Except Stop Host :=
  match h.answer with
  | (.fails, _) => .error .assertion
  | (_, h) => .ok h

end Host

/-! ## Open files -/

/-- The values of `type` in the descriptor table: 0 and 1 from `OpenFunction`, 2 and 3 from
    the constructor of `FileSystem`. -/
inductive FileType where
  | readWrite
  | readOnly
  | stdin
  | stdout
  deriving DecidableEq, Repr

structure OpenFile where
  type : FileType
  ino : Ino
  /-- The host's offset of the descriptor `file`. -/
  offset : Nat
  currentOffset : Word
  fits : offset ≤ maxOffset
  deriving DecidableEq

namespace OpenFile

variable (f : OpenFile) (h : Host)

/-- `Lseek(file, offset, 0)`, with its ASSERT: on a regular file `lseek` refuses a negative
    offset only. -/
def lseekSet (offset : Word) : Except Stop OpenFile :=
  if hn : offset.toNat ≤ maxOffset then .ok { f with offset := offset.toNat, fits := hn } else .error .assertion

/-- `Lseek(file, 0, 2)`. -/
def lseekEnd : OpenFile :=
  { f with offset := (h.content f.ino).length, fits := h.small f.ino }

/-- `Tell`. -/
def tell : Word := BitVec.ofNat 32 f.offset

/-- The bytes `read` delivers. -/
def delivered (n : Nat) : List Byte := ((h.content f.ino).drop f.offset).take n

theorem offset_add_delivered (n : Nat) : f.offset + (f.delivered h n).length ≤ maxOffset := by
  have := h.small f.ino
  have := f.fits
  simp only [delivered, List.length_take, List.length_drop]
  omega

/-- `ReadPartial`: the value of `read`, and the bytes. A count that is negative as an `int`
    is more than a `ssize_t` holds. -/
def readPartial (nBytes : Word) : Word × List Byte × OpenFile × Host :=
  let (a, h) := h.answer
  if a = .fails ∨ nBytes.slt 0 then (-1, [], f, h)
  else
    let n := a.limit nBytes.toNat
    (BitVec.ofNat 32 (f.delivered h n).length, f.delivered h n,
      { f with offset := f.offset + (f.delivered h n).length, fits := f.offset_add_delivered h n }, h)

/-- `WriteFile`, with the ASSERT that `write` has moved every byte; the host refuses to go
    past the largest offset. -/
def writeFile (buffer : List Byte) (nBytes : Word) : Except Stop (OpenFile × Host) :=
  let (a, h) := h.answer
  let bytes := buffer.take nBytes.toNat
  if nBytes.slt 0 then
    -- `write` returns -1
    if nBytes = -1 then .ok (f, h) else .error .assertion
  else if a = .fails ∨ a.limit nBytes.toNat < nBytes.toNat then .error .assertion
  else if hn : f.offset + bytes.length ≤ maxOffset then
    .ok ({ f with offset := f.offset + bytes.length, fits := hn },
      h.setContent f.ino (Host.splice (h.content f.ino) f.offset bytes) (by
        have := h.small f.ino
        rw [Host.length_splice]
        split <;> omega))
  else .error .assertion

/-- `GetCurrentPos`. -/
def getCurrentPos : Word × OpenFile := (f.tell, { f with currentOffset := f.tell })

def length : Except Stop (Word × OpenFile) := do
  let f := f.lseekEnd h
  let len := f.tell
  let f ← f.lseekSet f.currentOffset
  return (len, f)

def seek (pos : Word) : Except Stop (Word × OpenFile) := do
  let f ← f.lseekSet pos
  return f.getCurrentPos

def readAt (numBytes position : Word) :
    Except Stop (Word × List Byte × OpenFile × Host) := do
  let f ← f.lseekSet position
  return f.readPartial h numBytes

def read (numBytes : Word) : Except Stop (Word × List Byte × OpenFile × Host) := do
  let (numRead, bytes, f, h) ← f.readAt h numBytes f.currentOffset
  return (numRead, bytes, { f with currentOffset := f.currentOffset + numRead }, h)

def writeAt (buffer : List Byte) (numBytes position : Word) :
    Except Stop (Word × OpenFile × Host) := do
  let f ← f.lseekSet position
  let (f, h) ← f.writeFile h buffer numBytes
  return (numBytes, f, h)

def write (buffer : List Byte) (numBytes : Word) : Except Stop (Word × OpenFile × Host) := do
  let (numWritten, f, h) ← f.writeAt h buffer numBytes f.currentOffset
  return (numWritten, { f with currentOffset := f.currentOffset + numWritten }, h)

/-! ## On a host that answers as POSIX says -/

variable {n : Word} {buffer : List Byte}

section

variable {f : OpenFile} {h : Host}

theorem answer_posix (ha : h.answers = []) : h.answer = (.posix, h) := by
  cases h
  cases ha
  rfl

/-- The file with its two offsets at `pos`. -/
def movedTo (f : OpenFile) (pos : Nat) (hp : pos ≤ maxOffset) : OpenFile :=
  { f with offset := pos, currentOffset := BitVec.ofNat 32 pos, fits := hp }

theorem offset_toNat (f : OpenFile) : (ofNat 32 f.offset).toNat = f.offset :=
  ofNat_toNat (Nat.lt_of_le_of_lt f.fits (by decide))

/-- `Lseek(file, currentOffset, 0)` stays where it is once `GetCurrentPos` has been called. -/
theorem lseekSet_current (hc : f.currentOffset = ofNat 32 f.offset) : f.lseekSet f.currentOffset = .ok f := by
  have hto : f.currentOffset.toNat = f.offset := by rw [hc, offset_toNat]
  have hf : f.currentOffset.toNat ≤ maxOffset := by rw [hto]; exact f.fits
  rw [lseekSet, dif_pos hf]
  cases f
  simp only at hto ⊢
  subst hto
  rfl

theorem read_posix (ha : h.answers = []) (hc : f.currentOffset = ofNat 32 f.offset) (hn : ¬ n.slt 0 = true) :
    f.read h n = .ok (ofNat 32 (f.delivered h n.toNat).length, f.delivered h n.toNat,
      f.movedTo (f.offset + (f.delivered h n.toNat).length) (f.offset_add_delivered h n.toNat), h) := by
  simp only [read, readAt, lseekSet_current hc, readPartial, answer_posix ha, reduceCtorEq, false_or, hn, movedTo,
    BitVec.ofNat_add, ← hc]
  rfl

theorem write_posix (ha : h.answers = []) (hcr : f.currentOffset = ofNat 32 f.offset)
    (hn : ¬ n.slt 0 = true) (hl : (buffer.take n.toNat).length = n.toNat) (hr : f.offset + n.toNat ≤ maxOffset) :
    ∃ hc, f.write h buffer n = .ok (n, f.movedTo (f.offset + n.toNat) hr,
      h.setContent f.ino (Host.splice (h.content f.ino) f.offset (buffer.take n.toNat)) hc) := by
  simp only [write, writeAt, lseekSet_current hcr]
  have hr' : f.offset + (buffer.take n.toNat).length ≤ maxOffset := by rw [hl]; exact hr
  simp only [bind, Except.bind, writeFile, answer_posix ha, hn, Bool.false_eq_true, if_false, Answer.limit, reduceCtorEq,
    false_or, Nat.lt_irrefl, dif_pos hr', pure, Except.pure]
  refine ⟨?_, ?_⟩
  · have := h.small f.ino
    rw [Host.length_splice]
    split <;> omega
  · simp only [hl, movedTo, BitVec.ofNat_add, ofNat_word, hcr]

/-- `Read` right after `GetCurrentPos` returns, whatever the host answers, and moves the position by
    its value. -/
theorem read_current (hc : f.currentOffset = ofNat 32 f.offset) (n : Word) : ∃ r bytes f' h',
    f.read h n = .ok (r, bytes, f', h') ∧ (BitVec.slt 0 r = true → f'.tell = f.tell + r) := by
  simp only [read, readAt, lseekSet_current hc]
  rcases hp : f.readPartial h n with ⟨r, bytes, f', h'⟩
  refine ⟨r, bytes, { f' with currentOffset := f'.currentOffset + r }, h', by simp only [bind, Except.bind, pure, Except.pure, hp],
    fun hr => ?_⟩
  simp only [readPartial] at hp
  split at hp
  · cases hp
    cases hr
  · cases hp
    exact BitVec.ofNat_add ..

theorem writeFile_returns : (∃ r, f.writeFile h buffer n = .ok r) ↔
    n = -1 ∨ n.slt 0 = false ∧ h.Moves n.toNat ∧ f.offset + (buffer.take n.toNat).length ≤ maxOffset := by
  simp only [writeFile, Host.Moves]
  by_cases hn : n.slt 0 = true
  · rw [if_pos hn, hn]
    split
    · exact iff_of_true ⟨_, rfl⟩ (.inl ‹_›)
    · exact iff_of_false nofun fun h' => h'.elim ‹_› nofun
  · have h1 : n ≠ -1 := fun e => hn (by rw [e]; decide)
    rw [if_neg hn]
    split
    · rename_i ha
      refine iff_of_false nofun fun hr => ?_
      obtain ⟨-, ⟨hf, hl⟩, -⟩ := hr.resolve_left h1
      exact ha.elim hf (Nat.not_lt.mpr hl)
    · rename_i ha
      obtain ⟨hf, hl⟩ := not_or.mp ha
      split
      · rename_i hr
        exact iff_of_true ⟨_, rfl⟩ (.inr ⟨Bool.eq_false_iff.mpr hn, ⟨hf, Nat.not_lt.mp hl⟩, hr⟩)
      · rename_i hr
        exact iff_of_false nofun fun h' => hr (h'.resolve_left h1).2.2

/-- `Write` right after `GetCurrentPos` returns when the host moves every byte and has room for them,
    or refuses a count of -1. -/
theorem write_returns (hc : f.currentOffset = ofNat 32 f.offset) : (∃ r, f.write h buffer n = .ok r) ↔
    n = -1 ∨ n.slt 0 = false ∧ h.Moves n.toNat ∧ f.offset + (buffer.take n.toNat).length ≤ maxOffset := by
  rw [← writeFile_returns]
  simp only [write, writeAt, lseekSet_current hc, bind, Except.bind]
  cases f.writeFile h buffer n with
  | error e => exact iff_of_false nofun nofun
  | ok r => exact iff_of_true ⟨_, rfl⟩ ⟨_, rfl⟩

end

end OpenFile

/-! ## The file system -/

/-- A file operation that has been carried out. -/
inductive Operation where
  | created (name : List Byte)
  | opened (id : Nat)
  | closed (id : Nat)
  | read (numBytes : Word)
  | wrote (numBytes : Word)
  | sought (pos : Word)
  /-- Characters sent to the console. -/
  | output (bytes : List Byte)
  deriving DecidableEq, Repr

structure FileSystem where
  /-- `none` is NULL; the array has 15 slots. -/
  openfile : Nat → Option OpenFile
  host : Host
  log : List Operation

namespace FileSystem

variable (fs : FileSystem)

def setSlot (id : Nat) (f : Option OpenFile) : FileSystem :=
  { fs with openfile := update fs.openfile id f }

def did (op : Operation) : FileSystem := { fs with log := op :: fs.log }

/-- `Create`; the initial size is not used. -/
def create (name : List Byte) : Except Stop (Bool × FileSystem) :=
  match fs.host.openTrunc name with
  -- the ASSERT of `OpenForWrite`
  | (none, _) => .error .assertion
  | (some _, h) => do
    let h ← h.close
    return (true, { fs with host := h }.did (.created name))

/-- `Open(name, type)`. -/
def openName (name : List Byte) (type : FileType) : Option OpenFile × FileSystem :=
  match fs.host.openRW name with
  | (none, h) => (none, { fs with host := h })
  | (some ino, h) => (some ⟨type, ino, 0, 0, Nat.zero_le _⟩, { fs with host := h })

/-- `FindFreeSlot`. -/
def findFreeSlot : Option Nat := (List.range' 2 13).find? fun i => (fs.openfile i).isNone

/-- `openfile[id] = Open(name, type)`. -/
def openSlot (id : Nat) (name : List Byte) (type : FileType) : Bool × FileSystem :=
  match fs.openName name type with
  | (some f, fs) => (true, (fs.setSlot id (some f)).did (.opened id))
  | (none, fs) => (false, fs.setSlot id none)

/-- `delete openfile[id]; openfile[id] = NULL`. -/
def closeSlot (id : Nat) : Except Stop FileSystem := do
  let h ← fs.host.close
  return ({ fs with host := h }.setSlot id none).did (.closed id)

/-- A method of `openfile[id]`. -/
def on {α : Type} (id : Nat) (method : OpenFile → Host → Except Stop (α × OpenFile × Host)) :
    Except Stop (α × FileSystem) :=
  match fs.openfile id with
  | none => .error .undefined
  | some f => do
    let (a, f, h) ← method f fs.host
    return (a, { fs with host := h }.setSlot id (some f))

def getCurrentPos (id : Nat) : Except Stop (Word × FileSystem) :=
  fs.on id fun f h => .ok (f.getCurrentPos.1, f.getCurrentPos.2, h)

def length (id : Nat) : Except Stop (Word × FileSystem) :=
  fs.on id fun f h => do
    let (len, f) ← f.length h
    return (len, f, h)

def seek (id : Nat) (pos : Word) : Except Stop (Word × FileSystem) := do
  let (position, fs) ← fs.on id fun f h => do
    let (position, f) ← f.seek pos
    return (position, f, h)
  return (position, fs.did (.sought pos))

def read (id : Nat) (numBytes : Word) : Except Stop ((Word × List Byte) × FileSystem) := do
  let ((numRead, bytes), fs) ← fs.on id fun f h => do
    let (numRead, bytes, f, h) ← f.read h numBytes
    return ((numRead, bytes), f, h)
  return ((numRead, bytes), if BitVec.slt 0 numRead then fs.did (.read numRead) else fs)

def write (id : Nat) (buffer : List Byte) (numBytes : Word) : Except Stop (Word × FileSystem) := do
  let (numWritten, fs) ← fs.on id fun f h => f.write h buffer numBytes
  return (numWritten, if numWritten.slt 0 then fs else fs.did (.wrote numWritten))

variable {name buffer : List Byte} {pos n numBytes : Word} {f : OpenFile}

section

variable {fs fs' : FileSystem} {id : Nat}

theorem on_ok {α : Type} {a : α} {method : OpenFile → Host → Except Stop (α × OpenFile × Host)}
    (h : fs.on id method = .ok (a, fs')) :
    ∃ f f' h', fs.openfile id = some f ∧ method f fs.host = .ok (a, f', h') ∧
      fs' = { fs with host := h' }.setSlot id (some f') := by
  simp only [on] at h
  split at h
  · cases h
  rename_i f hf
  obtain ⟨⟨a', f', h'⟩, hm, h⟩ := bind_eq_ok.mp h
  cases h
  exact ⟨f, f', h', hf, hm, rfl⟩

theorem openSlot_some {ino : Ino} (ho : (fs.host.openRW name).1 = some ino) (type : FileType) :
    fs.openSlot id name type = (true, ({ fs with host := (fs.host.openRW name).2 }.setSlot id
      (some ⟨type, ino, 0, 0, Nat.zero_le _⟩)).did (.opened id)) := by
  obtain ⟨h', hp⟩ : ∃ h', fs.host.openRW name = (some ino, h') := ⟨_, Prod.ext ho rfl⟩
  simp only [openSlot, openName, hp]

theorem openSlot_none (ho : (fs.host.openRW name).1 = none) (type : FileType) :
    fs.openSlot id name type = (false, { fs with host := (fs.host.openRW name).2 }.setSlot id none) := by
  obtain ⟨h', hp⟩ : ∃ h', fs.host.openRW name = (none, h') := ⟨_, Prod.ext ho rfl⟩
  simp only [openSlot, openName, hp]

/-- What `openfile[id] = Open(name, type)` makes of the table. -/
theorem openSlot_table (fs : FileSystem) (id : Nat) (name : List Byte) (type : FileType) :
    ∃ f, (fs.openSlot id name type).2.openfile = update fs.openfile id f ∧ ∀ f', f = some f' → f'.type = type := by
  cases ho : (fs.host.openRW name).1 with
  | none => exact ⟨none, by rw [openSlot_none ho]; rfl, nofun⟩
  | some ino =>
    refine ⟨some ⟨type, ino, 0, 0, Nat.zero_le _⟩, by rw [openSlot_some ho]; rfl, ?_⟩
    intro f' hf
    cases hf
    rfl

theorem create_table {created : Bool} (h : fs.create name = .ok (created, fs')) : fs'.openfile = fs.openfile := by
  simp only [create] at h
  split at h
  · cases h
  · obtain ⟨h', -, h⟩ := bind_eq_ok.mp h
    cases h
    rfl

theorem getCurrentPos_ok (h : fs.getCurrentPos id = .ok (pos, fs')) :
    ∃ f, fs.openfile id = some f ∧ pos = f.tell ∧ fs' = fs.setSlot id (some { f with currentOffset := f.tell }) := by
  obtain ⟨f, f', h', hf, hm, rfl⟩ := on_ok h
  cases hm
  exact ⟨f, hf, rfl, rfl⟩

theorem getCurrentPos_of (hf : fs.openfile id = some f) :
    fs.getCurrentPos id = .ok (f.tell, fs.setSlot id (some { f with currentOffset := f.tell })) := by
  simp only [getCurrentPos, on, hf]
  rfl

/-- `Length` goes back to `currentOffset`, which a failed `Read` can have left negative. -/
theorem length_eq (hf : fs.openfile id = some f) : fs.length id =
    if hn : f.currentOffset.toNat ≤ maxOffset then
      .ok (ofNat 32 (fs.host.content f.ino).length, fs.setSlot id (some { f with offset := f.currentOffset.toNat, fits := hn }))
    else .error .assertion := by
  simp only [length, on, hf, OpenFile.length]
  by_cases hn : f.currentOffset.toNat ≤ maxOffset
  · rw [dif_pos hn, OpenFile.lseekSet, dif_pos (show (f.lseekEnd fs.host).currentOffset.toNat ≤ maxOffset from hn)]
    rfl
  · rw [dif_neg hn, OpenFile.lseekSet, dif_neg (show ¬ (f.lseekEnd fs.host).currentOffset.toNat ≤ maxOffset from hn)]
    rfl

/-- `Length` answers the file's length, and moves at most the host's offset. -/
theorem length_ok {len : Word} (h : fs.length id = .ok (len, fs')) :
    ∃ f f', fs.openfile id = some f ∧ len = ofNat 32 (fs.host.content f.ino).length ∧ f'.ino = f.ino ∧
      fs' = fs.setSlot id (some f') := by
  obtain ⟨f, -, -, hf, -⟩ := on_ok h
  rw [length_eq hf] at h
  split at h
  · rename_i hn
    cases h
    exact ⟨f, { f with offset := f.currentOffset.toNat, fits := hn }, hf, rfl, rfl, rfl⟩
  · cases h

/-- `Read` right after `GetCurrentPos`, on a host that answers as POSIX says. -/
theorem read_posix (hs : fs.openfile id = some f) (ha : fs.host.answers = [])
    (hc : f.currentOffset = ofNat 32 f.offset) (hn : ¬ n.slt 0 = true) :
    let bytes := f.delivered fs.host n.toNat
    ∃ fs', fs.read id n = .ok ((ofNat 32 bytes.length, bytes), fs') ∧ fs'.host = fs.host ∧
      fs'.openfile = update fs.openfile id
        (some (f.movedTo (f.offset + bytes.length) (f.offset_add_delivered fs.host n.toNat))) := by
  intro bytes
  simp only [read, on, hs, OpenFile.read_posix ha hc hn, bind, Except.bind]
  refine ⟨_, rfl, ?_, ?_⟩
  · split <;> rfl
  · split <;> rfl

/-- `Write` right after `GetCurrentPos`, on a host that answers as POSIX says and has room. -/
theorem write_posix (hs : fs.openfile id = some f) (ha : fs.host.answers = [])
    (hcr : f.currentOffset = ofNat 32 f.offset) (hn : ¬ n.slt 0 = true)
    (hl : (buffer.take n.toNat).length = n.toNat) (hr : f.offset + n.toNat ≤ maxOffset) :
    ∃ fs' hc, fs.write id buffer n = .ok (n, fs') ∧
      fs'.openfile = update fs.openfile id (some (f.movedTo (f.offset + n.toNat) hr)) ∧
      fs'.host = fs.host.setContent f.ino (Host.splice (fs.host.content f.ino) f.offset (buffer.take n.toNat)) hc := by
  obtain ⟨hc, hw⟩ := OpenFile.write_posix ha hcr hn hl hr
  simp only [write, on, hs, hw, bind, Except.bind]
  exact ⟨_, hc, rfl, by rw [if_neg hn]; rfl, by rw [if_neg hn]; rfl⟩

theorem read_current (hs : fs.openfile id = some f) (hc : f.currentOffset = ofNat 32 f.offset) (n : Word) : ∃ r fs' f',
    fs.read id n = .ok (r, fs') ∧ fs'.openfile id = some f' ∧ (BitVec.slt 0 r.1 = true → f'.tell = f.tell + r.1) := by
  obtain ⟨r, bytes, f', h', hr, ht⟩ := OpenFile.read_current (h := fs.host) hc n
  simp only [read, on, hs, hr]
  refine ⟨(r, bytes), _, f', rfl, ?_, ht⟩
  split <;> exact update_self ..

theorem write_returns (hs : fs.openfile id = some f) (hc : f.currentOffset = ofNat 32 f.offset) :
    (∃ r, fs.write id buffer n = .ok r) ↔
      n = -1 ∨ n.slt 0 = false ∧ fs.host.Moves n.toNat ∧ f.offset + (buffer.take n.toNat).length ≤ maxOffset := by
  rw [← OpenFile.write_returns hc]
  simp only [write, on, hs, bind, Except.bind]
  cases f.write fs.host buffer n with
  | error e => exact iff_of_false nofun nofun
  | ok r => exact iff_of_true ⟨_, rfl⟩ ⟨_, rfl⟩

theorem read_log {r : Word × List Byte} (h : fs.read id numBytes = .ok (r, fs')) :
    fs'.log = if BitVec.slt 0 r.1 then .read r.1 :: fs.log else fs.log := by
  obtain ⟨⟨⟨n, bytes⟩, fs1⟩, h1, h⟩ := bind_eq_ok.mp h
  obtain ⟨f, f', h', -, -, rfl⟩ := on_ok h1
  cases h
  simp only
  split <;> rfl

/-- `Write` answers its argument, and of the negative ones only -1 passes its ASSERT. -/
theorem write_log (h : fs.write id buffer numBytes = .ok (n, fs')) :
    n = numBytes ∧ (numBytes.slt 0 = true → numBytes = -1) ∧
      fs'.log = if numBytes.slt 0 then fs.log else .wrote numBytes :: fs.log := by
  obtain ⟨⟨n', fs1⟩, h1, h⟩ := bind_eq_ok.mp h
  obtain ⟨f, f', h', -, hm, rfl⟩ := on_ok h1
  cases h
  obtain ⟨⟨n'', g, h''⟩, hat, hm⟩ := bind_eq_ok.mp hm
  cases hm
  obtain ⟨g', -, hat⟩ := bind_eq_ok.mp hat
  obtain ⟨⟨g'', h2⟩, hw, hat⟩ := bind_eq_ok.mp hat
  cases hat
  refine ⟨rfl, fun hn => ?_, ?_⟩
  · simp only [OpenFile.writeFile, if_pos hn] at hw
    split at hw
    · assumption
    · cases hw
  · split <;> rfl

end

/-- "stdin", in ASCII. -/
def stdinName : List Byte := [115, 116, 100, 105, 110]

/-- "stdout", in ASCII. -/
def stdoutName : List Byte := [115, 116, 100, 111, 117, 116]

/-- `FileSystem::FileSystem`. -/
def new (h : Host) : Except Stop FileSystem := do
  let fs : FileSystem := ⟨fun _ => none, h, []⟩
  let (_, fs) ← fs.create stdinName
  let (_, fs) ← fs.create stdoutName
  let (_, fs) := fs.openSlot 0 stdinName .stdin
  let (_, fs) := fs.openSlot 1 stdoutName .stdout
  return fs

end FileSystem

end Nachos.Stub

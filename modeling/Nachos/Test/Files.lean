/-
  Nachos.Test.Files — the four text files and the descriptors as the programs see them.

  `serve` is what the kernel's calls do for the programs as long as nothing goes wrong: a
  file that is opened exists and there is a free slot, a descriptor is open, a Write is at
  the end of its file and fits. It says nothing about other calls (`none`). Descriptors above
  9 are open but dead: Read and Write answer -1, and Seek leaves r2 at SC_Seek.
-/

import Nachos.Filesys.Stub
import Nachos.Test.Programs

namespace Nachos.WaterTaps

structure Slot where
  file : File
  pos : Nat
  writable : Bool
  deriving DecidableEq, Repr

structure Files where
  input : Option (List Byte)
  sinhvien : Option (List Byte)
  voinuoc : Option (List Byte)
  output : Option (List Byte)
  /-- Slots 2 to 14 of the descriptor table. -/
  table : Nat → Option Slot

namespace Files

variable (a : Files)

def content : File → Option (List Byte)
  | .input => a.input
  | .sinhvien => a.sinhvien
  | .voinuoc => a.voinuoc
  | .output => a.output

def setContent (bytes : List Byte) : File → Files
  | .input => { a with input := some bytes }
  | .sinhvien => { a with sinhvien := some bytes }
  | .voinuoc => { a with voinuoc := some bytes }
  | .output => { a with output := some bytes }

def setSlot (i : Nat) (slot : Option Slot) : Files := { a with table := Function.update a.table i slot }

/-- The first free slot. -/
def freeSlot : Option Nat := (List.range' 2 13).find? fun i => (a.table i).isNone

def slotOf (id : Word) : Option Slot := if 2 ≤ id.toNat ∧ id.toNat < 15 then a.table id.toNat else none

/-- Read and Write serve the descriptors up to 9 only. -/
def read (id : Word) (slot : Slot) : Option (Returned × Files) :=
  if id.toNat ≤ 9 then
    (a.content slot.file).map fun content =>
      match content[slot.pos]? with
      | some b => (⟨1, some b⟩, a.setSlot id.toNat (some { slot with pos := slot.pos + 1 }))
      | none => (⟨-2, none⟩, a)
  else some (⟨-1, none⟩, a)

def write (bytes : List Byte) (id : Word) (slot : Slot) : Option (Returned × Files) :=
  if id.toNat ≤ 9 then
    (a.content slot.file).bind fun content =>
      if slot.writable ∧ slot.pos = content.length ∧ bytes ≠ [] ∧ (∀ b ∈ bytes, b ≠ 0) ∧
          content.length + bytes.length ≤ Stub.maxOffset then
        some (⟨BitVec.ofNat 32 bytes.length, none⟩,
          (a.setContent (content ++ bytes) slot.file).setSlot id.toNat (some { slot with pos := slot.pos + bytes.length }))
      else none
  else some (⟨-1, none⟩, a)

def seek (pos id : Word) (slot : Slot) : Option (Returned × Files) :=
  if id.toNat ≤ 9 then
    (a.content slot.file).bind fun content =>
      if pos = -1 then
        some (⟨BitVec.ofNat 32 content.length, none⟩, a.setSlot id.toNat (some { slot with pos := content.length }))
      else if pos = 0 then some (⟨0, none⟩, a.setSlot id.toNat (some { slot with pos := 0 }))
      else none
  else some (⟨21, none⟩, a)

def serve : FileCall → Option (Returned × Files)
  | .createFile file => some (⟨0, none⟩, a.setContent [] file)
  | .openFile file type =>
    if (a.content file).isSome ∧ (type = 0 ∨ type = 1) then
      a.freeSlot.map fun i => (⟨BitVec.ofNat 32 i, none⟩, a.setSlot i (some ⟨file, 0, type == 0⟩))
    else none
  | .close id => (a.slotOf id).map fun _ => (⟨0, none⟩, a.setSlot id.toNat none)
  | .read id => (a.slotOf id).bind (a.read id)
  | .write bytes id => (a.slotOf id).bind (a.write bytes id)
  | .seek pos id => (a.slotOf id).bind (a.seek pos id)

end Files

end Nachos.WaterTaps

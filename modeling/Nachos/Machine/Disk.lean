/-
  Nachos.Machine.Disk — the disk of `machine/disk.cc`.

  `Disk` is what it holds, an array of sectors, as `filesys/synchdisk.cc` shows it when it
  lets one request complete before the next. `DiskDevice` is the device below: a request
  moves the data at once, and an interrupt some time later says so; until then the device
  is active. When it comes depends on the head and the clock, so here it may come at any time.
-/

import Mathlib.Logic.Function.Basic
import Nachos.Machine.Machine

namespace Nachos

abbrev sectorSize : Nat := 512

/-- SectorsPerTrack * NumTracks. -/
abbrev numSectors : Nat := 1024

structure Sector where
  bytes : List Byte
  size : bytes.length = sectorSize
  deriving DecidableEq

/-- The first sector of a buffer. -/
def Sector.ofBuffer (buf : List Byte) : Sector := ⟨(buf ++ List.replicate sectorSize 0).take sectorSize, by simp⟩

theorem Sector.bytes_ofBuffer {buf : List Byte} (h : sectorSize ≤ buf.length) :
    (ofBuffer buf).bytes = buf.take sectorSize := List.take_append_of_le_length h

/-- A sector of memory that nothing has been stored in. -/
def Sector.garbage (g : Nat → Byte) : Sector := ⟨(List.range sectorSize).map g, by simp⟩

abbrev Disk := Nat → Sector

namespace Disk

/-- `SynchDisk::ReadSector`, with the ASSERT of `ReadRequest`; an `int` below zero is a
    large number here. -/
def readSector (d : Disk) (sectorNumber : Word) : Except Stop Sector :=
  if sectorNumber.toNat < numSectors then .ok (d sectorNumber.toNat) else .error .assertion

/-- `SynchDisk::WriteSector`, with the ASSERT of `WriteRequest`. -/
def writeSector (d : Disk) (sectorNumber : Word) (data : Sector) : Except Stop Disk :=
  if sectorNumber.toNat < numSectors then .ok (Function.update d sectorNumber.toNat data) else .error .assertion

end Disk

/-- Requests are numbered in the order in which they are made. -/
structure DiskDevice where
  content : Disk
  active : Bool
  /-- How many requests have been made. -/
  requests : Nat
  /-- The requests whose `DiskDone` is scheduled. -/
  pending : List Nat
  /-- History: the requests whose `DiskDone` has come. -/
  completed : List Nat

namespace DiskDevice

def new (content : Disk) : DiskDevice := ⟨content, false, 0, [], []⟩

variable (d : DiskDevice)

/-- `active = TRUE` and `Schedule(DiskDone, ..)`. -/
def start : DiskDevice :=
  { d with active := true, requests := d.requests + 1, pending := d.pending ++ [d.requests] }

def readRequest (sectorNumber : Word) : Except Stop (Sector × DiskDevice) :=
  if d.active then .error .assertion
  else do
    let data ← d.content.readSector sectorNumber
    return (data, d.start)

def writeRequest (sectorNumber : Word) (data : Sector) : Except Stop DiskDevice :=
  if d.active then .error .assertion
  else do
    let content ← d.content.writeSector sectorNumber data
    return { d with content }.start

/-- `HandleInterrupt` for a request, if it is scheduled: whether the handler is called. -/
def handleInterrupt (request : Nat) : Bool × DiskDevice :=
  if request ∈ d.pending then
    (true, { d with active := false, pending := d.pending.erase request, completed := d.completed ++ [request] })
  else (false, d)

theorem handleInterrupt_cases (request : Nat) :
    d.handleInterrupt request = (false, d) ∨ (request ∈ d.pending ∧ d.handleInterrupt request =
      (true, { d with active := false, pending := d.pending.erase request, completed := d.completed ++ [request] })) := by
  by_cases h : request ∈ d.pending
  · exact .inr ⟨h, if_pos h⟩
  · exact .inl (if_neg h)

end DiskDevice

end Nachos

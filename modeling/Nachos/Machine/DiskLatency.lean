/-
  Nachos.Machine.DiskLatency — how long a request takes (`machine/disk.cc`).

  A track rotates under the head, one sector in `RotationTime` ticks, and the head moves by one
  track in `SeekTime`. `ComputeLatency` finds out of the time, the sector last asked for and the
  time the head came to its track when the sector will have been read or written. A read of the
  track the head is on is served from the track buffer when the sector has gone by since.

  `TimedDisk` is the device with the clock: `DiskDone` comes when it is due and not before, which
  is what `Nachos.Machine.Interrupt` does. A sum that does not fit an `int` has no meaning.
  - `readRequest_device`: without the times, a read is one of `Nachos.Machine.Disk`.
-/

import Nachos.Lib.Rotation
import Nachos.Lib.Runs
import Nachos.Machine.Disk

namespace Nachos

open Lib

abbrev sectorsPerTrack : Int := 32
abbrev rotationTime : Int := 500
abbrev seekTime : Int := 500

/-- The value of an `int` expression. -/
def fit (x : Int) : Except Stop Int := if -2147483648 ≤ x ∧ x ≤ 2147483647 then .ok x else .error .undefined

theorem fit_eq {x y : Int} (h : fit x = .ok y) : y = x := by
  unfold fit at h
  split at h
  · cases h; rfl
  · cases h

theorem fit_ok {x : Int} (hlo : 0 ≤ x) (hhi : x ≤ 2147483647) : fit x = .ok x := if_pos ⟨by omega, hhi⟩

structure TimedDisk where
  device : DiskDevice
  lastSector : Int
  bufferInit : Int
  /-- `stats->totalTicks`. -/
  totalTicks : Int
  /-- When the last `DiskDone` that was scheduled is due. -/
  due : Int

namespace TimedDisk

/-- `Disk::Disk`, at some time. -/
def new (content : Disk) (now : Nat) : TimedDisk := ⟨.new content, 0, 0, now, 0⟩

variable (d : TimedDisk)

/-- `TimeToSeek`: the seek, and `*rotation`. -/
def timeToSeek (newSector : Int) : Except Stop (Int × Int) := do
  let newTrack := newSector.tdiv sectorsPerTrack
  let oldTrack := d.lastSector.tdiv sectorsPerTrack
  let seek ← fit ((newTrack - oldTrack).natAbs * seekTime)
  let after ← fit (d.totalTicks + seek)
  let over_ := after.tmod rotationTime
  return (seek, if 0 < over_ then rotationTime - over_ else 0)

def moduloDiff (to_ from_ : Int) : Int :=
  let toOffset := to_.tmod sectorsPerTrack
  let fromOffset := from_.tmod sectorsPerTrack
  (toOffset - fromOffset + sectorsPerTrack).tmod sectorsPerTrack

/-- The test for the track buffer. -/
def trackBufferApplies (newSector : Int) (writing : Bool) (seek timeAfter : Int) : Bool :=
  writing = false ∧ seek = 0 ∧
    (timeAfter - d.bufferInit).tdiv rotationTime > moduloDiff newSector (d.bufferInit.tdiv rotationTime)

/-- What `ComputeLatency` returns when the track buffer does not apply. -/
def unbufferedLatency (newSector seek rotation timeAfter : Int) : Except Stop Int :=
  fit (seek + (rotation + moduloDiff newSector (timeAfter.tdiv rotationTime) * rotationTime) + rotationTime)

def computeLatency (newSector : Int) (writing : Bool) : Except Stop Int := do
  let t ← d.timeToSeek newSector
  let timeAfter ← fit (d.totalTicks + t.1 + t.2)
  if d.trackBufferApplies newSector writing t.1 timeAfter then return rotationTime
  else unbufferedLatency newSector t.1 t.2 timeAfter

def updateLast (newSector : Int) : Except Stop TimedDisk := do
  let t ← d.timeToSeek newSector
  if t.1 ≠ 0 then
    let bufferInit ← fit (d.totalTicks + t.1 + t.2)
    return { d with bufferInit, lastSector := newSector }
  else return { d with lastSector := newSector }

/-- What a request does once the device has taken it: `UpdateLast`, and `Schedule`. -/
def start (newSector ticks : Int) : Except Stop TimedDisk := do
  let d ← d.updateLast newSector
  let due ← fit (d.totalTicks + ticks)
  return { d with due }

def readRequest (sectorNumber : Word) : Except Stop (Sector × TimedDisk) := do
  let ticks ← d.computeLatency sectorNumber.toInt false
  let r ← d.device.readRequest sectorNumber
  let d ← { d with device := r.2 }.start sectorNumber.toInt ticks
  return (r.1, d)

def writeRequest (sectorNumber : Word) (data : Sector) : Except Stop TimedDisk := do
  let ticks ← d.computeLatency sectorNumber.toInt true
  let device ← d.device.writeRequest sectorNumber data
  { d with device }.start sectorNumber.toInt ticks

/-- `HandleInterrupt` for a request, if it is scheduled and due. -/
def handleInterrupt (request : Nat) : TimedDisk :=
  if d.due ≤ d.totalTicks then { d with device := (d.device.handleInterrupt request).2 } else d

inductive Event where
  | read (sectorNumber : Word)
  | write (sectorNumber : Word) (data : Sector)
  | tick (ticks : Nat)
  | diskDone (request : Nat)

def step : Event → Except Stop TimedDisk
  | .read sectorNumber => do
    let r ← d.readRequest sectorNumber
    return r.2
  | .write sectorNumber data => d.writeRequest sectorNumber data
  | .tick ticks => do
    let totalTicks ← fit (d.totalTicks + ticks)
    return { d with totalTicks }
  | .diskDone request => .ok (d.handleInterrupt request)

def Booted : Prop := ∃ content now, d = new content now

variable {d d' : TimedDisk} {s : Int} {writing : Bool} {ticks : Int} {sectorNumber : Word} {data : Sector}
  {device device' : DiskDevice}

/-! ## The device below -/

theorem updateLast_eq (h : d.updateLast s = .ok d') :
    ∃ seek rotation, d.timeToSeek s = .ok (seek, rotation) ∧
      (seek = 0 ∧ d' = { d with lastSector := s } ∨
        seek ≠ 0 ∧ d' = { d with bufferInit := d.totalTicks + seek + rotation, lastSector := s }) := by
  obtain ⟨r, hsk, h⟩ := bind_eq_ok.mp h
  refine ⟨r.1, r.2, hsk, ?_⟩
  split at h
  · rename_i hne
    obtain ⟨x, hx, h⟩ := bind_eq_ok.mp h
    cases h
    rw [fit_eq hx]
    exact .inr ⟨hne, rfl⟩
  · rename_i heq
    cases h
    exact .inl ⟨Decidable.not_not.mp heq, rfl⟩

theorem start_eq (h : d.start s ticks = .ok d') :
    ∃ d1, d.updateLast s = .ok d1 ∧ d' = { d1 with due := d1.totalTicks + ticks } := by
  obtain ⟨d1, hl, h⟩ := bind_eq_ok.mp h
  obtain ⟨due, hdu, h⟩ := bind_eq_ok.mp h
  cases h
  rw [fit_eq hdu]
  exact ⟨d1, hl, rfl⟩

theorem start_device (h : d.start s ticks = .ok d') : d'.device = d.device := by
  obtain ⟨d1, hl, rfl⟩ := start_eq h
  obtain ⟨seek, rotation, -, ⟨-, rfl⟩ | ⟨-, rfl⟩⟩ := updateLast_eq hl <;> rfl

theorem readRequest_device (h : d.readRequest sectorNumber = .ok (data, d')) :
    d.device.readRequest sectorNumber = .ok (data, d'.device) := by
  obtain ⟨ticks, -, h⟩ := bind_eq_ok.mp h
  obtain ⟨r, hdv, h⟩ := bind_eq_ok.mp h
  obtain ⟨d1, hst, h⟩ := bind_eq_ok.mp h
  cases h
  rw [hdv, start_device hst]

/-! ## The times -/

/-- How long the head moves. -/
def seekTo (d : TimedDisk) (s : Int) : Int := (s / sectorsPerTrack - d.lastSector / sectorsPerTrack).natAbs * seekTime

/-- When it comes to a sector boundary of the track. -/
def arrival (d : TimedDisk) (s : Int) : Int := Lib.boundary rotationTime (d.totalTicks + d.seekTo s)

def IsSector (s : Int) : Prop := 0 ≤ s ∧ s < numSectors

/-- What holds over every run: the head came to its track on a sector boundary, and has been
    there since the last request was done. -/
structure Sane (d : TimedDisk) : Prop where
  sector : IsSector d.lastSector
  ticks : 0 ≤ d.totalTicks
  init : 0 ≤ d.bufferInit
  aligned : d.bufferInit % rotationTime = 0
  arrived : d.bufferInit ≤ d.totalTicks ∨ d.device.active = true ∧ d.bufferInit ≤ d.due

theorem Sane.arrived_of_idle (hd : d.Sane) (hid : d.device.active = false) : d.bufferInit ≤ d.totalTicks := by
  rcases hd.arrived with h | ⟨h, -⟩
  · exact h
  · rw [hid] at h
    cases h

theorem isSector_toInt (h : sectorNumber.toNat < numSectors) : IsSector sectorNumber.toInt := by
  have hp : sectorNumber.toInt = sectorNumber.toNat := BitVec.toInt_eq_toNat_of_lt (by simp only [numSectors] at h; omega)
  simp only [IsSector, hp]
  omega

theorem moduloDiff_eq {to_ from_ : Int} (hto : 0 ≤ to_) (hf : 0 ≤ from_) :
    moduloDiff to_ from_ = (to_ - from_) % sectorsPerTrack := by
  have hm : ∀ x : Int, 0 ≤ x → x.tmod sectorsPerTrack = x % 32 := fun x hx => Int.tmod_eq_emod_of_nonneg hx
  simp only [moduloDiff]
  rw [hm to_ hto, hm from_ hf]
  simp only [sectorsPerTrack] at hm ⊢
  rw [hm _ (by omega)]
  omega

theorem seekTo_bounds (hd : IsSector d.lastSector) (hs : IsSector s) : 0 ≤ d.seekTo s ∧ d.seekTo s ≤ 15500 := by
  simp only [IsSector, numSectors] at hd hs
  simp only [seekTo, sectorsPerTrack, seekTime]
  omega

/-- `*rotation` takes the head to the next boundary. -/
theorem rotation_eq {after : Int} (h : 0 ≤ after) :
    (if 0 < after.tmod rotationTime then rotationTime - after.tmod rotationTime else 0) =
      boundary rotationTime after - after := by
  rw [Int.tmod_eq_emod_of_nonneg h]
  simp only [boundary, rotationTime]
  split <;> omega

theorem Sane.timeToSeek_eq (hd : d.Sane) (hs : IsSector s) :
    d.timeToSeek s = (do
      let after ← fit (d.totalTicks + d.seekTo s)
      return (d.seekTo s, boundary rotationTime after - after)) := by
  have hdv : ∀ x : Int, 0 ≤ x → x.tdiv sectorsPerTrack = x / sectorsPerTrack := fun x hx => Int.tdiv_eq_ediv_of_nonneg hx
  have hsk := seekTo_bounds hd.sector hs
  simp only [timeToSeek, hdv _ hs.1, hdv _ hd.sector.1]
  rw [show fit (_ * seekTime) = .ok (d.seekTo s) from fit_ok hsk.1 (Int.le_trans hsk.2 (by decide))]
  show (fit (d.totalTicks + d.seekTo s) >>= _) = (fit (d.totalTicks + d.seekTo s) >>= _)
  rw [fit]
  split
  · exact congrArg (fun x => Except.ok (d.seekTo s, x)) (rotation_eq (Int.add_nonneg hd.ticks hsk.1))
  · rfl

/-- When the sector has been read from the disk itself. -/
def served (d : TimedDisk) (s : Int) : Int :=
  d.arrival s + ((s - d.arrival s / rotationTime) % sectorsPerTrack + 1) * rotationTime

theorem arrival_bounds (d : TimedDisk) (s : Int) :
    d.totalTicks + d.seekTo s ≤ d.arrival s ∧ d.arrival s < d.totalTicks + d.seekTo s + rotationTime := by
  simp only [arrival, boundary, rotationTime]
  omega

theorem served_bounds (d : TimedDisk) (s : Int) :
    d.arrival s + rotationTime ≤ d.served s ∧ d.served s ≤ d.arrival s + 16000 := by
  simp only [served, rotationTime, sectorsPerTrack]
  omega

theorem add_wait (d : TimedDisk) (s : Int) :
    d.totalTicks + d.seekTo s + (d.arrival s - (d.totalTicks + d.seekTo s)) = d.arrival s := by omega

section

variable (hd : d.Sane) (hs : IsSector s) (hfits : d.arrival s ≤ 2147483647)
include hd hs hfits

theorem Sane.timeToSeek_ok : d.timeToSeek s = .ok (d.seekTo s, d.arrival s - (d.totalTicks + d.seekTo s)) := by
  have hlo := (arrival_bounds d s).1
  have ht := hd.ticks
  have hsk := seekTo_bounds hd.sector hs
  rw [hd.timeToSeek_eq hs, fit_ok (by omega) (by omega)]
  rfl

theorem Sane.unbufferedLatency_ok : unbufferedLatency s (d.seekTo s) (d.arrival s - (d.totalTicks + d.seekTo s)) (d.arrival s) =
    .ok (d.served s - d.totalTicks) := by
  obtain ⟨hlo, hhi⟩ := arrival_bounds d s
  have hsk := seekTo_bounds hd.sector hs
  have hsr := served_bounds d s
  have ht := hd.ticks
  have hdf : moduloDiff s ((d.arrival s).tdiv rotationTime) = (s - d.arrival s / rotationTime) % sectorsPerTrack := by
    rw [Int.tdiv_eq_ediv_of_nonneg (by omega), moduloDiff_eq hs.1 (Int.ediv_nonneg (by omega) (by decide))]
  have hsm : d.seekTo s + (d.arrival s - (d.totalTicks + d.seekTo s) +
      (s - d.arrival s / rotationTime) % sectorsPerTrack * rotationTime) + rotationTime = d.served s - d.totalTicks := by
    simp only [served, rotationTime]
    omega
  simp only [rotationTime] at hhi hsr
  rw [unbufferedLatency, hdf, hsm, fit_ok (by omega) (by omega)]

theorem Sane.computeLatency_ok (writing : Bool) : d.computeLatency s writing =
    .ok (if d.trackBufferApplies s writing (d.seekTo s) (d.arrival s) then rotationTime else d.served s - d.totalTicks) := by
  have hlo := (arrival_bounds d s).1
  have hsk := seekTo_bounds hd.sector hs
  have ht := hd.ticks
  rw [computeLatency, hd.timeToSeek_ok hs hfits]
  show (fit (d.totalTicks + d.seekTo s + (d.arrival s - (d.totalTicks + d.seekTo s))) >>= _) = _
  rw [add_wait, fit_ok (by omega) hfits]
  show (if _ then _ else _) = _
  rw [hd.unbufferedLatency_ok hs hfits]
  split <;> rfl

end

/-- A latency that is computed without overflow. -/
theorem Sane.arrival_le (hd : d.Sane) (hs : IsSector s) (h : d.computeLatency s writing = .ok ticks) :
    d.arrival s ≤ 2147483647 := by
  obtain ⟨r, hsk, h⟩ := bind_eq_ok.mp h
  obtain ⟨x, hx, -⟩ := bind_eq_ok.mp h
  rw [hd.timeToSeek_eq hs] at hsk
  obtain ⟨after, ha, hr⟩ := bind_eq_ok.mp hsk
  cases hr
  cases fit_eq ha
  unfold fit at hx
  split at hx
  · rename_i hrn
    simp only [arrival]
    omega
  · cases hx

/-! ## Runs -/

theorem Sane.start (hd : d.Sane) (hid : d.device.active = false) (hs : IsSector s)
    (hlt : d.computeLatency s writing = .ok ticks) (ha : device.active = true)
    (h : { d with device }.start s ticks = .ok d') : d'.Sane := by
  have hfits := hd.arrival_le hs hlt
  have htm := hd.timeToSeek_ok hs hfits
  have ht := hd.computeLatency_ok hs hfits writing
  obtain ⟨d1, hl, rfl⟩ := start_eq h
  obtain ⟨seek, rotation, hsk, hl⟩ := updateLast_eq hl
  have ht' : (d.seekTo s, d.arrival s - (d.totalTicks + d.seekTo s)) = (seek, rotation) :=
    Except.ok.inj (htm.symm.trans hsk)
  cases ht'
  rcases hl with ⟨-, rfl⟩ | ⟨hne, rfl⟩
  · exact ⟨hs, hd.ticks, hd.init, hd.aligned, .inl (hd.arrived_of_idle hid)⟩
  have hb : d.trackBufferApplies s writing (d.seekTo s) (d.arrival s) = false := by
    simp [trackBufferApplies, hne]
  rw [hb, hlt] at ht
  have hsr := served_bounds d s
  have hlo := (arrival_bounds d s).1
  have hsk := (seekTo_bounds hd.sector hs).1
  have hn := hd.ticks
  simp only [rotationTime] at hsr
  have hdu : ticks = d.served s - d.totalTicks := Except.ok.inj ht
  refine ⟨hs, hd.ticks, ?_, ?_, .inr ⟨ha, ?_⟩⟩
  · show 0 ≤ d.totalTicks + d.seekTo s + (d.arrival s - (d.totalTicks + d.seekTo s))
    omega
  · show (d.totalTicks + d.seekTo s + (d.arrival s - (d.totalTicks + d.seekTo s))) % rotationTime = 0
    rw [add_wait]
    exact Int.mul_emod_left ..
  · show d.totalTicks + d.seekTo s + (d.arrival s - (d.totalTicks + d.seekTo s)) ≤ d.totalTicks + ticks
    omega

/-- A request the device takes: it was idle, the sector is one of the disk, and the device is now active. -/
theorem readRequest_taken (h : device.readRequest sectorNumber = .ok (data, device')) :
    device.active = false ∧ IsSector sectorNumber.toInt ∧ device'.active = true := by
  unfold DiskDevice.readRequest at h
  split at h
  · cases h
  rename_i hid
  obtain ⟨r, hr, h⟩ := bind_eq_ok.mp h
  cases h
  unfold Disk.readSector at hr
  split at hr
  · rename_i hs
    exact ⟨Bool.not_eq_true _ ▸ hid, isSector_toInt hs, rfl⟩
  · cases hr

theorem writeRequest_taken (h : device.writeRequest sectorNumber data = .ok device') :
    device.active = false ∧ IsSector sectorNumber.toInt ∧ device'.active = true := by
  unfold DiskDevice.writeRequest at h
  split at h
  · cases h
  rename_i hid
  obtain ⟨r, hw, h⟩ := bind_eq_ok.mp h
  cases h
  unfold Disk.writeSector at hw
  split at hw
  · rename_i hs
    exact ⟨Bool.not_eq_true _ ▸ hid, isSector_toInt hs, rfl⟩
  · cases hw

theorem Sane.step (hd : d.Sane) {e : Event} (h : d.step e = .ok d') : d'.Sane := by
  cases e with
  | read sectorNumber =>
    obtain ⟨r, hrd, hr⟩ := bind_eq_ok.mp h
    obtain ⟨ticks, hl, hrd⟩ := bind_eq_ok.mp hrd
    obtain ⟨taken, hdv, hrd⟩ := bind_eq_ok.mp hrd
    obtain ⟨d1, hst, hrd⟩ := bind_eq_ok.mp hrd
    cases hrd
    cases hr
    obtain ⟨hid, hs, ha⟩ := readRequest_taken hdv
    exact hd.start hid hs hl ha hst
  | write sectorNumber data =>
    obtain ⟨ticks, hl, h⟩ := bind_eq_ok.mp h
    obtain ⟨device, hdv, hst⟩ := bind_eq_ok.mp h
    obtain ⟨hid, hs, ha⟩ := writeRequest_taken hdv
    exact hd.start hid hs hl ha hst
  | tick ticks =>
    obtain ⟨totalTicks, hf, h⟩ := bind_eq_ok.mp h
    cases h
    cases fit_eq hf
    have hn := hd.ticks
    refine ⟨hd.sector, ?_, hd.init, hd.aligned, hd.arrived.imp ?_ id⟩
    · show 0 ≤ d.totalTicks + ticks
      omega
    · intro hle
      show d.bufferInit ≤ d.totalTicks + ticks
      omega
  | diskDone request =>
    cases h
    unfold handleInterrupt
    split
    · rename_i hdu
      refine ⟨hd.sector, hd.ticks, hd.init, hd.aligned, .inl ?_⟩
      rcases hd.arrived with hle | ⟨-, hle⟩
      · exact hle
      · exact Int.le_trans hle hdu
    · exact hd

theorem reach_sane (h : Reach step (fun _ _ => True) Booted d) : d.Sane := by
  refine h.inv ?_ ?_
  · rintro _ ⟨content, now, rfl⟩
    have hf : IsSector 0 := ⟨Int.le_refl 0, by decide⟩
    exact ⟨hf, Int.natCast_nonneg now, Int.le_refl 0, rfl, .inl (Int.natCast_nonneg now)⟩
  · intro d e d' hd _ hst
    exact hd.step hst

/-! ## The track buffer -/

/-- The head is on the track of `s`, and `s` has gone by completely since it came there. -/
theorem Sane.trackBufferApplies_iff (hd : d.Sane) (hid : d.device.active = false) (hs : IsSector s) :
    d.trackBufferApplies s writing (d.seekTo s) (d.arrival s) = true ↔ writing = false ∧ d.seekTo s = 0 ∧
      ∃ t, d.bufferInit + rotationTime ≤ t ∧ t ≤ boundary rotationTime d.totalTicks ∧
        Passed rotationTime sectorsPerTrack s t := by
  simp only [trackBufferApplies, decide_eq_true_eq]
  refine and_congr_right fun _ => and_congr_right fun hsk => ?_
  have har := hd.arrived_of_idle hid
  have hin := hd.init
  have ha := hd.aligned
  have hlo := (arrival_bounds d s).1
  have hn : d.arrival s = boundary rotationTime d.totalTicks := by rw [arrival, hsk, Int.add_zero]
  -- the first time that the sector has gone by
  obtain ⟨hp, hf⟩ := isLeast_passed (by decide) (by decide) (n := sectorsPerTrack) (r := rotationTime) s d.bufferInit
  have hst : boundary rotationTime d.bufferInit = d.bufferInit := by
    simp only [boundary, rotationTime] at ha ⊢
    omega
  have hdf : moduloDiff s (d.bufferInit.tdiv rotationTime) = (s - d.bufferInit / rotationTime) % sectorsPerTrack := by
    rw [Int.tdiv_eq_ediv_of_nonneg hin, moduloDiff_eq hs.1 (Int.ediv_nonneg hin (by decide))]
  have hg : (d.arrival s - d.bufferInit).tdiv rotationTime = (d.arrival s - d.bufferInit) / rotationTime :=
    Int.tdiv_eq_ediv_of_nonneg (by omega)
  have hm : d.arrival s % rotationTime = 0 := Int.mul_emod_left ..
  rw [hst] at hp hf
  rw [hdf, hg, ← hn]
  constructor
  · intro hlt
    refine ⟨_, hp.1, ?_, hp.2⟩
    simp only [rotationTime] at ha hm hlt ⊢
    omega
  · rintro ⟨t, haf, hb, ht⟩
    have hle := Int.le_trans (hf ⟨haf, ht⟩) hb
    simp only [rotationTime] at ha hm hle ⊢
    omega

/-- The latency is what the rotating disk takes: from the track buffer the time of one sector,
    and otherwise up to the first moment after the seek at which the sector has gone by. -/
theorem latency_of_rotation (hreach : Lib.Reach step (fun _ _ => True) Booted d) (hidle : d.device.active = false)
    (hs : IsSector s) (writing : Bool) (hfits : d.arrival s ≤ 2147483647) :
    ∃ rotation ticks, d.timeToSeek s = .ok (d.seekTo s, rotation) ∧ d.computeLatency s writing = .ok ticks ∧
      0 < rotationTime ∧ rotationTime ≤ ticks ∧
      (d.trackBufferApplies s writing (d.seekTo s) (d.totalTicks + d.seekTo s + rotation) = true ↔
        writing = false ∧ d.seekTo s = 0 ∧ ∃ t, d.bufferInit + rotationTime ≤ t ∧
          t ≤ Lib.boundary rotationTime d.totalTicks ∧ Lib.Passed rotationTime sectorsPerTrack s t) ∧
      (d.trackBufferApplies s writing (d.seekTo s) (d.totalTicks + d.seekTo s + rotation) = true → ticks = rotationTime ∧
        ∃ unbuffered, unbufferedLatency s (d.seekTo s) rotation (d.totalTicks + d.seekTo s + rotation) = .ok unbuffered ∧
          ticks ≤ unbuffered) ∧
      (d.trackBufferApplies s writing (d.seekTo s) (d.totalTicks + d.seekTo s + rotation) = false →
        rotationTime ∣ d.totalTicks + ticks ∧
        IsLeast {t | d.totalTicks + d.seekTo s + rotationTime ≤ t ∧ Lib.Passed rotationTime sectorsPerTrack s t}
          (d.totalTicks + ticks)) := by
  have hd := reach_sane hreach
  have hseek := (seekTo_bounds hd.sector hs).1
  have hlo := (arrival_bounds d s).1
  have hserved := (served_bounds d s).1
  have hleast := isLeast_passed (r := rotationTime) (n := sectorsPerTrack) (by decide) (by decide) s
    (d.totalTicks + d.seekTo s)
  have hticks := hd.computeLatency_ok hs hfits writing
  refine ⟨_, _, hd.timeToSeek_ok hs hfits, hticks, by decide, ?_, ?_, ?_, ?_⟩
  · split
    · exact Int.le_refl _
    · omega
  · rw [add_wait]
    exact hd.trackBufferApplies_iff hidle hs
  · rw [add_wait]
    intro happlies
    rw [if_pos happlies]
    exact ⟨rfl, _, hd.unbufferedLatency_ok hs hfits, by omega⟩
  · rw [add_wait]
    intro happlies
    rw [happlies]
    show rotationTime ∣ d.totalTicks + (d.served s - d.totalTicks) ∧ IsLeast _ (d.totalTicks + (d.served s - d.totalTicks))
    rw [show d.totalTicks + (d.served s - d.totalTicks) = d.served s by omega]
    refine ⟨?_, hleast⟩
    exact Int.dvd_add (Int.dvd_mul_left ..) (Int.dvd_mul_left ..)

/-- A write of sector 33 at time 4500, after one of sector 40: the head is at the beginning of
    place 9 of the track. -/
theorem latency_of_next_round : ∃ d : TimedDisk, Lib.Reach step (fun _ _ => True) Booted d ∧ d.device.active = false ∧
    d.totalTicks = 4500 ∧ d.arrival 33 ≤ 2147483647 ∧ d.computeLatency 33 true = .ok 12500 ∧
    IsLeast {t | d.totalTicks + d.seekTo 33 + rotationTime ≤ t ∧ Lib.Passed rotationTime sectorsPerTrack 33 t} 17000 := by
  have hboot : Booted (new (fun _ => .garbage fun _ => 0) 0) := ⟨_, _, rfl⟩
  obtain ⟨d, hreach, htest⟩ := exists_reach step (fun _ _ => true)
    [.write 40 (.garbage fun _ => 0), .tick 4500, .diskDone 0]
    (fun d => d.device.active = false ∧ d.totalTicks = 4500 ∧ d.arrival 33 ≤ 2147483647 ∧
      (d.computeLatency 33 true).toOption = some 12500)
    hboot (by decide)
  obtain ⟨hidle, hnow, hfits, hticks⟩ := of_decide_eq_true htest
  have hreach : Reach step (fun _ _ => True) Booted d := hreach.mono fun _ _ _ => trivial
  obtain ⟨rotation, ticks, -, hlatency, -, -, -, -, hleast⟩ :=
    latency_of_rotation hreach hidle (s := 33) ⟨by decide, by decide⟩ true hfits
  have hlatency' := hticks
  rw [hlatency] at hlatency'
  cases Option.some.inj hlatency'
  refine ⟨d, hreach, hidle, hnow, hfits, hlatency, ?_⟩
  have := (hleast (by simp [trackBufferApplies])).2
  rwa [hnow] at this ⊢

end TimedDisk

end Nachos

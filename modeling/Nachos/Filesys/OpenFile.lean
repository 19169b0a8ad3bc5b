/-
  Nachos.Filesys.OpenFile — `filesys/openfile.cc`: an open file of the real file system, and
  the bitmap of `userprog/bitmap.cc` stored in one.

  A request is cut to the file's length and goes through a buffer of whole sectors. `WriteAt`
  reads the first and last sector in before it changes a part of them, but only up to the end
  of the file: what lies behind it in the last sector becomes whatever `new` returned.
  - `Laid.readAt` / `Laid.writeAt`: a file laid out in distinct sectors is read and written as
    the array of its bytes, and no other sector changes.
  - `OneSector.readAt` / `OneSector.writeAt`: a whole file of at most one sector.
  - `BitMap.fetchFrom_ok` / `BitMap.writeBack_ok`: so a bitmap in such a file is read back.
-/

import Mathlib.Data.List.Basic
import Nachos.Filesys.FileHeader

namespace Nachos

open Lib List BitVec
open BitVec (ofNat)
open Function (update update_of_ne update_self)

namespace OnDisk

structure OpenFile where
  hdr : FileHeader
  seekPosition : Word
  deriving DecidableEq

/-! ## Buffers -/

/-- Read `n` bytes of a buffer; outside of it C++ says nothing. -/
def slice (buf : List Byte) (start n : Nat) : Except Stop (List Byte) :=
  if start + n ≤ buf.length then .ok ((buf.drop start).take n) else .error .undefined

/-- Copy bytes into a buffer. -/
def store (buf : List Byte) (start : Nat) (bytes : List Byte) : Except Stop (List Byte) :=
  if start + bytes.length ≤ buf.length then .ok (Lib.patch buf start bytes) else .error .undefined

/-- The loop of `ReadAt` over the sectors from `i` on, `n` of them. -/
def readSectors (hdr : FileHeader) (d : Disk) (i : Word) : Nat → Except Stop (List Byte)
  | 0 => .ok []
  | n + 1 => do
    let s ← hdr.byteToSector (i * 512)
    let data ← d.readSector s
    let rest ← readSectors hdr d (i + 1) n
    return data.bytes ++ rest

/-- The loop of `WriteAt` over the sectors from `i` on, `n` of them. -/
def writeSectors (hdr : FileHeader) (i : Word) : Nat → List Byte → Disk → Except Stop Disk
  | 0, _, d => .ok d
  | n + 1, buf, d => do
    let s ← hdr.byteToSector (i * 512)
    let d ← d.writeSector s (.ofBuffer buf)
    writeSectors hdr (i + 1) n (buf.drop sectorSize) d

namespace OpenFile

/-- `OpenFile(sector)`. -/
def new (d : Disk) (sector : Word) : Except Stop OpenFile := do
  let hdr ← FileHeader.fetchFrom d sector
  return ⟨hdr, 0⟩

def length (f : OpenFile) : Word := f.hdr.numBytes

/-- What `ReadAt` and `WriteAt` make of `numBytes`; `none` when they return 0 at once. -/
def request (f : OpenFile) (numBytes position : Word) : Option Word :=
  if numBytes.sle 0 ∨ f.length.sle position then none
  else some (if f.length.slt (position + numBytes) then f.length - position else numBytes)

/-- `ReadAt`: the value and the bytes stored in `into`. -/
def readAt (f : OpenFile) (d : Disk) (numBytes position : Word) : Except Stop (Word × List Byte) :=
  match f.request numBytes position with
  | none => .ok (0, [])
  | some numBytes => do
    let firstSector := position.sdiv 512
    let lastSector := (position + numBytes - 1).sdiv 512
    let numSectors := 1 + lastSector - firstSector
    let buf ← readSectors f.hdr d firstSector numSectors.toInt.toNat
    let into ← slice buf (position - firstSector * 512).toNat numBytes.toNat
    return (numBytes, into)

/-- Read sector `i` of the file into the buffer, if it will be written in part. -/
def readIn (f : OpenFile) (d : Disk) (partly : Bool) (buf : List Byte) (start i : Word) : Except Stop (List Byte) :=
  if partly then do
    let (_, bytes) ← f.readAt d 512 (i * 512)
    store buf start.toNat bytes
  else .ok buf

/-- `WriteAt`; `g` is what `new char[..]` finds in memory. -/
def writeAt (f : OpenFile) (d : Disk) (g : Nat → Byte) (source : List Byte) (numBytes position : Word) :
    Except Stop (Word × Disk) :=
  match f.request numBytes position with
  | none => .ok (0, d)
  | some numBytes => do
    let firstSector := position.sdiv 512
    let lastSector := (position + numBytes - 1).sdiv 512
    let numSectors := 1 + lastSector - firstSector
    let firstAligned := position == firstSector * 512
    let lastAligned := position + numBytes == (lastSector + 1) * 512
    let buf := (List.range (numSectors * 512).toNat).map g
    let buf ← f.readIn d (!firstAligned) buf 0 firstSector
    let buf ← f.readIn d (!lastAligned && (firstSector != lastSector || firstAligned)) buf
      ((lastSector - firstSector) * 512) lastSector
    let bytes ← slice source 0 numBytes.toNat
    let buf ← store buf (position - firstSector * 512).toNat bytes
    let d ← writeSectors f.hdr firstSector numSectors.toInt.toNat buf d
    return (numBytes, d)

def seek (f : OpenFile) (position : Word) : OpenFile := { f with seekPosition := position }

def read (f : OpenFile) (d : Disk) (numBytes : Word) : Except Stop (Word × List Byte × OpenFile) := do
  let (result, into) ← f.readAt d numBytes f.seekPosition
  return (result, into, { f with seekPosition := f.seekPosition + result })

def write (f : OpenFile) (d : Disk) (g : Nat → Byte) (source : List Byte) (numBytes : Word) :
    Except Stop (Word × Disk × OpenFile) := do
  let (result, d) ← f.writeAt d g source numBytes f.seekPosition
  return (result, d, { f with seekPosition := f.seekPosition + result })

def getCurrentPos (f : OpenFile) : Word := f.seekPosition

/-! ## Word arithmetic -/

variable {a b i : Nat} {w : Word}

theorem beq_ofNat (ha : a < 4294967296) (hb : b < 4294967296) :
    (ofNat 32 a == ofNat 32 b) = decide (a = b) := by
  rw [Bool.eq_iff_iff, beq_iff_eq, decide_eq_true_eq]
  exact ⟨fun he => by rw [← ofNat_toNat ha, he, ofNat_toNat hb], fun he => by rw [he]⟩

theorem eq_ofNat_toInt (h : 0 ≤ w.toInt) : w = ofNat 32 w.toInt.toNat := by
  have hlt := w.toInt_lt
  apply eq_of_toInt_eq
  rw [ofNat_toInt (by omega)]
  omega

/-- `divRoundDown(p, SectorSize)` of a position that is not negative. -/
theorem sdiv_sector {p : Nat} (h : p < 2147483648) : (ofNat 32 p).sdiv 512 = ofNat 32 (p / 512) := by
  have hto : (ofNat 32 p).toNat = p := ofNat_toNat (by omega)
  have hm : (ofNat 32 p).msb = false := by rw [msb_eq_false_iff_two_mul_lt]; omega
  apply eq_of_toNat_eq
  rw [BitVec.sdiv_eq, hm, ofNat_toNat (by omega)]
  show (ofNat 32 p).toNat / 512 = p / 512
  rw [hto]

theorem ofNat_sub (h : a ≤ b) (hb : b < 4294967296) :
    ofNat 32 b - ofNat 32 a = ofNat 32 (b - a) := by
  apply eq_of_toNat_eq
  rw [toNat_sub, ofNat_toNat hb, ofNat_toNat (by omega), ofNat_toNat (by omega)]
  omega

theorem ofNat_mul_sector : ofNat 32 i * 512 = ofNat 32 (i * 512) := by
  rw [show (512 : Word) = ofNat 32 512 from rfl, ← ofNat_mul]

/-- A transfer of `k > 0` bytes at `p`: its first and last sector, their number, and where it
    starts in the first. -/
theorem span {p k : Nat} (hk : 0 < k) (hs : p + k < 2147483648) :
    (ofNat 32 p + ofNat 32 k - 1).sdiv 512 = ofNat 32 ((p + k - 1) / 512) ∧
    (1 + ofNat 32 ((p + k - 1) / 512) - ofNat 32 (p / 512)) = ofNat 32 ((p + k - 1) / 512 - p / 512 + 1) ∧
    (ofNat 32 p - ofNat 32 (p / 512) * 512).toNat = p % 512 := by
  have hle : p / 512 ≤ (p + k - 1) / 512 := Nat.div_le_div_right (by omega)
  refine ⟨?_, ?_, ?_⟩
  · rw [← ofNat_add, show (1 : Word) = ofNat 32 1 from rfl, ofNat_sub (by omega) (by omega),
      sdiv_sector (by omega)]
  · rw [show (1 : Word) = ofNat 32 1 from rfl, ← ofNat_add, ofNat_sub (by omega) (by omega)]
    congr 1
    omega
  · rw [ofNat_mul_sector, ofNat_sub (by omega) (by omega), ofNat_toNat (by omega)]
    omega

theorem toInt_of_nonneg (h : 0 ≤ w.toInt) : w.toInt = w.toNat := by
  rw [toInt_eq_toNat_cond] at h ⊢
  split
  · rfl
  · omega

theorem toInt_sdiv_negative (h : w.toInt < 0) : (w.sdiv 512).toInt = -((-w.toInt) / 512) := by
  rw [toInt_sdiv_of_ne_or_ne _ _ (.inr (by decide)), show (512 : Word).toInt = 512 from rfl,
    ← Int.neg_neg w.toInt, Int.neg_tdiv, Int.tdiv_eq_ediv_of_nonneg (by omega), Int.neg_neg]

theorem bmod_word {x : Int} (h : -2147483648 ≤ x) (h' : x < 2147483648) : x.bmod (2 ^ 32) = x :=
  Int.bmod_eq_of_le (by omega) (by omega)

section

variable {p numBytes : Word} (hp : 0 ≤ p.toInt) (hend : 2147483647 < p.toInt + numBytes.toInt)
include hp hend

/-- The end of a transfer past the largest `int` comes out negative. -/
theorem sum_overflows : (p + numBytes).toInt = p.toInt + numBytes.toInt - 4294967296 := by
  have hp' := toInt_of_nonneg hp
  have hlt : p.toInt < 2147483648 := p.toInt_lt
  have hn : numBytes.toInt < 2147483648 := numBytes.toInt_lt
  have hn' := toInt_of_nonneg (show 0 ≤ numBytes.toInt by omega)
  rw [toInt_eq_toNat_cond, toNat_add]
  split <;> omega

/-- Such a transfer covers no sector at all, or all up to the one of the largest `int`. -/
theorem span_overflows : (1 + (p + numBytes - 1).sdiv 512 - p.sdiv 512).toInt.toNat = 0 ∨
    (1 + (p + numBytes - 1).sdiv 512 - p.sdiv 512).toInt.toNat = 4194304 - p.toNat / 512 := by
  have hp' := toInt_of_nonneg hp
  have hlt : p.toInt < 2147483648 := p.toInt_lt
  have hn : numBytes.toInt < 2147483648 := numBytes.toInt_lt
  have hn' := toInt_of_nonneg (show 0 ≤ numBytes.toInt by omega)
  have hf : p.sdiv 512 = ofNat 32 (p.toNat / 512) := by
    rw [← sdiv_sector (by omega), ofNat_word]
  rw [hf]
  rcases Nat.eq_or_lt_of_le (show 2147483648 ≤ p.toNat + numBytes.toNat by omega) with heq | hlt
  · right
    have hl : p + numBytes - 1 = ofNat 32 2147483647 := by
      apply eq_of_toNat_eq
      rw [toNat_sub, toNat_add, ← heq]
      rfl
    rw [hl, show (1 : Word) + (ofNat 32 2147483647).sdiv 512 = ofNat 32 4194304 by decide,
      ofNat_sub (by omega) (by decide), ofNat_toInt (by omega), Int.toNat_natCast]
  · left
    have hl : (p + numBytes - 1).toInt = p.toNat + numBytes.toNat - 1 - 4294967296 := by
      rw [toInt_eq_toNat_cond, toNat_sub, toNat_add, show (1 : Word).toNat = 1 from rfl]
      split <;> omega
    have hd := toInt_sdiv_negative (show (p + numBytes - 1).toInt < 0 by omega)
    have ho : (1 + (p + numBytes - 1).sdiv 512).toInt = 1 - (-(p + numBytes - 1).toInt) / 512 := by
      rw [toInt_add, hd, show (1 : Word).toInt = 1 from rfl, bmod_word (by omega) (by omega)]
      omega
    rw [toInt_sub, ho, ofNat_toInt (by omega), bmod_word (by omega) (by omega)]
    omega

end

/-! ## A file in its sectors -/

/-- The bytes of the sectors. -/
def sectorBytes (d : Disk) (ss : List Nat) : List Byte := ss.flatMap fun s => (d s).bytes

section

variable (d : Disk) (ss : List Nat)

theorem length_sectorBytes : (sectorBytes d ss).length = ss.length * sectorSize := by
  induction ss with
  | nil => rfl
  | cons s ss ih =>
    rw [sectorBytes, flatMap_cons, length_append, (d s).size, length_cons, Nat.succ_mul, Nat.add_comm]
    exact congrArg (· + sectorSize) ih

theorem sectorBytes_drop (i : Nat) : sectorBytes d (ss.drop i) = (sectorBytes d ss).drop (i * sectorSize) := by
  induction i generalizing ss with
  | zero => rw [drop_zero, Nat.zero_mul, drop_zero]
  | succ i ih =>
    cases ss with
    | nil => simp [sectorBytes]
    | cons s ss =>
      rw [drop_succ_cons, ih, sectorBytes, sectorBytes, flatMap_cons, Nat.succ_mul, Nat.add_comm, ← drop_drop,
        drop_left' (d s).size]

theorem sectorBytes_take (i : Nat) : sectorBytes d (ss.take i) = (sectorBytes d ss).take (i * sectorSize) := by
  induction i generalizing ss with
  | zero => rw [take_zero, Nat.zero_mul, take_zero]; rfl
  | succ i ih =>
    cases ss with
    | nil => simp [sectorBytes]
    | cons s ss =>
      have hl : (i + 1) * sectorSize = (d s).bytes.length + i * sectorSize := by rw [(d s).size, Nat.succ_mul, Nat.add_comm]
      rw [take_succ_cons, sectorBytes, sectorBytes, flatMap_cons, flatMap_cons, hl, take_length_add_append]
      exact congrArg ((d s).bytes ++ ·) (ih ss)

/-- Writing one of the sectors is a copy into their bytes. -/
theorem sectorBytes_update (hd : ss.Nodup) {s : Nat} (hs : ss[i]? = some s) (sec : Sector) :
    sectorBytes (update d s sec) ss = patch (sectorBytes d ss) (i * sectorSize) sec.bytes := by
  induction ss generalizing i with
  | nil => cases hs
  | cons t ss ih =>
    obtain ⟨hn, hd⟩ := nodup_cons.mp hd
    cases i with
    | zero =>
      obtain rfl : t = s := Option.some.inj hs
      have hr : sectorBytes (update d t sec) ss = sectorBytes d ss :=
        flatMap_congr fun u hu => by rw [update_of_ne (show u ≠ t by rintro rfl; exact hn hu)]
      rw [sectorBytes, flatMap_cons, update_self, Nat.zero_mul, patch, take_zero, nil_append,
        Nat.zero_add, sec.size, sectorBytes, flatMap_cons, drop_left' (d t).size]
      exact congrArg (sec.bytes ++ ·) hr
    | succ i =>
      have hne : t ≠ s := by
        rintro rfl
        exact hn (mem_of_getElem? hs)
      have hl : (i + 1) * sectorSize = (d t).bytes.length + i * sectorSize := by rw [(d t).size, Nat.succ_mul, Nat.add_comm]
      rw [sectorBytes, sectorBytes, flatMap_cons, flatMap_cons, update_of_ne hne, hl, patch_append]
      exact congrArg ((d t).bytes ++ ·) (ih hd hs)

end

/-- What `ReadAt` delivers of sector `j` of a file of `n` bytes. -/
def sectorOf (bytes : List Byte) (n j : Nat) : List Byte := (bytes.drop (j * 512)).take (min 512 (n - j * 512))

theorem length_sectorOf {bytes : List Byte} {n : Nat} (h : n ≤ bytes.length) (j : Nat) :
    (sectorOf bytes n j).length = min 512 (n - j * 512) := by
  rw [sectorOf, List.length_take, length_drop]
  omega

theorem getElem?_sectorOf {bytes : List Byte} {n j t : Nat} (ht : t < min 512 (n - j * 512)) :
    (sectorOf bytes n j)[t]? = bytes[j * 512 + t]? := by
  rw [sectorOf, getElem?_take_of_lt ht, getElem?_drop]

section

variable {bytes buf source : List Byte} {n p k : Nat}

/-- The buffer of `WriteAt` after the first sector is read in. -/
def filledFirst (bytes buf : List Byte) (n p : Nat) : List Byte :=
  if p % 512 ≠ 0 then Lib.patch buf 0 (sectorOf bytes n (p / 512)) else buf

/-- The buffer after the last sector is read in too. -/
def filled (bytes buf : List Byte) (n p k : Nat) : List Byte :=
  if p + k ≠ ((p + k - 1) / 512 + 1) * 512 ∧ (p / 512 ≠ (p + k - 1) / 512 ∨ p % 512 = 0) then
    Lib.patch (filledFirst bytes buf n p) (((p + k - 1) / 512 - p / 512) * 512) (sectorOf bytes n ((p + k - 1) / 512))
  else filledFirst bytes buf n p

theorem length_filledFirst (hb : n ≤ bytes.length) (hbf : 512 ≤ buf.length) : (filledFirst bytes buf n p).length = buf.length := by
  have hl := length_sectorOf hb (p / 512)
  unfold filledFirst
  split
  · exact length_patch (by omega)
  · rfl

theorem length_filled (hb : n ≤ bytes.length) (hbf : buf.length = ((p + k - 1) / 512 - p / 512 + 1) * 512) :
    (filled bytes buf n p k).length = buf.length := by
  have hl := length_sectorOf hb ((p + k - 1) / 512)
  have hf : (filledFirst bytes buf n p).length = buf.length := length_filledFirst hb (by omega)
  unfold filled
  split
  · rw [← hf]
    exact length_patch (by omega)
  · exact hf

/-- With the new bytes in it the buffer holds, up to the end of the file, the old ones around
    them: before them if the first sector was read in, and after them if the last one was. -/
theorem getElem?_filled (hk : 0 < k) (hend : p + k ≤ n) (hb : n ≤ bytes.length)
    (hbf : buf.length = ((p + k - 1) / 512 - p / 512 + 1) * 512) (hsr : source.length = k)
    (hi : p / 512 * 512 ≤ i) (hi' : i < ((p + k - 1) / 512 + 1) * 512) (hin : i < n) :
    (patch (filled bytes buf n p k) (p % 512) source)[i - p / 512 * 512]? =
      if p ≤ i ∧ i < p + k then source[i - p]? else bytes[i]? := by
  have hle : p / 512 ≤ (p + k - 1) / 512 := Nat.div_le_div_right (by omega)
  have hla := length_sectorOf hb (p / 512)
  have hlb := length_sectorOf hb ((p + k - 1) / 512)
  have hf : (filledFirst bytes buf n p).length = buf.length := length_filledFirst hb (by omega)
  have hl := length_filled hb hbf
  rw [getElem?_patch source (by omega), hsr]
  by_cases hn : p ≤ i ∧ i < p + k
  · rw [if_pos (by omega), if_pos hn]
    congr 1
    omega
  have hs : ((p + k - 1) / 512 - p / 512) * 512 ≤ (filledFirst bytes buf n p).length := by
    rw [hf, hbf, Nat.succ_mul]
    exact Nat.le_add_right ..
  rw [if_neg (by omega), if_neg hn]
  unfold filled
  rcases Nat.lt_or_ge i p with hlt | hge
  · -- before the new bytes: the first sector was read in
    have hr : (filledFirst bytes buf n p)[i - p / 512 * 512]? = bytes[i]? := by
      rw [filledFirst, if_pos (by omega), getElem?_patch _ (Nat.zero_le _), if_pos (by omega), getElem?_sectorOf (by omega)]
      congr 1
      omega
    split
    · rw [getElem?_patch _ hs, if_neg (by omega), hr]
    · exact hr
  · -- after them: the last sector was read in, or it is the first
    split
    · have ht : i - p / 512 * 512 - ((p + k - 1) / 512 - p / 512) * 512 < min 512 (n - (p + k - 1) / 512 * 512) := by omega
      rw [getElem?_patch _ hs, if_pos (by omega), getElem?_sectorOf ht]
      congr 1
      omega
    · rw [filledFirst, if_pos (by omega), getElem?_patch _ (Nat.zero_le _), if_pos (by omega), getElem?_sectorOf (by omega)]
      congr 1
      omega

end

/-- A file of `n` bytes in the sectors `ss`. -/
structure Laid (f : OpenFile) (ss : List Nat) (n : Nat) : Prop where
  length : f.hdr.numBytes = BitVec.ofNat 32 n
  sectors : ∀ i s : Nat, ss[i]? = some s → f.hdr.dataSectors[i]? = some (BitVec.ofNat 32 s)
  fits : n ≤ ss.length * sectorSize
  distinct : ss.Nodup
  range : ∀ s ∈ ss, s < numSectors

namespace Laid

variable {f : OpenFile} {ss : List Nat} {n : Nat} (h : f.Laid ss n) (d : Disk) {s p : Nat} {numBytes : Word}
include h

theorem count : ss.length ≤ numDirect := by
  rw [← f.hdr.direct]
  rcases Nat.lt_or_ge f.hdr.dataSectors.length ss.length with hlt | hge
  · have hg := h.sectors f.hdr.dataSectors.length _ (List.getElem?_eq_getElem hlt)
    rw [List.getElem?_eq_none (Nat.le_refl _)] at hg
    cases hg
  · exact hge

theorem small : n ≤ 64512 := by
  have hc : ss.length ≤ 126 := h.count
  have hf : n ≤ ss.length * 512 := h.fits
  omega

theorem byteToSector {i : Nat} (hs : ss[i]? = some s) :
    f.hdr.byteToSector (ofNat 32 i * 512) = .ok (ofNat 32 s) := by
  have hi : i < 126 := Nat.lt_of_lt_of_le (List.getElem?_eq_some_iff.mp hs).1 h.count
  rw [FileHeader.byteToSector, ofNat_mul_sector, sdiv_sector (by omega), Nat.mul_div_cancel _ (by decide), ofNat_toNat (by omega),
    h.sectors i s hs]

theorem sector_toNat (hs : s ∈ ss) : (ofNat 32 s).toNat = s :=
  ofNat_toNat (Nat.lt_trans (h.range s hs) (by decide))

theorem readSectors (n : Nat) : ∀ i, i + n ≤ ss.length →
    readSectors f.hdr d (ofNat 32 i) n = .ok (sectorBytes d ((ss.drop i).take n)) := by
  induction n with
  | zero => intro i _; rfl
  | succ n ih =>
    intro i hi
    have hg := List.getElem?_eq_getElem (show i < ss.length by omega)
    have hm := mem_of_getElem? hg
    have hr : d.readSector (ofNat 32 ss[i]) = .ok (d ss[i]) := by
      rw [Disk.readSector, h.sector_toNat hm, if_pos (h.range _ hm)]
    have hn : ofNat 32 i + 1 = ofNat 32 (i + 1) := (ofNat_add ..).symm
    simp only [OnDisk.readSectors, h.byteToSector hg, hr, hn, ih (i + 1) (by omega), bind, Except.bind]
    rw [drop_eq_getElem_cons (show i < ss.length by omega), take_succ_cons]
    rfl

/-- Writing whole sectors is a copy into the file's sectors, and touches no other. -/
theorem writeSectors (n : Nat) : ∀ (i : Nat) (buf : List Byte) (d : Disk), i + n ≤ ss.length → buf.length = n * sectorSize →
    ∃ d', writeSectors f.hdr (ofNat 32 i) n buf d = .ok d' ∧ (∀ s, s ∉ ss → d' s = d s) ∧
      sectorBytes d' ss = patch (sectorBytes d ss) (i * sectorSize) buf := by
  induction n with
  | zero =>
    intro i buf d hi hbf
    have hnl : buf = [] := length_eq_zero_iff.mp (by omega)
    exact ⟨d, rfl, fun _ _ => rfl, by simp [patch, hnl]⟩
  | succ n ih =>
    intro i buf d hi hbf
    have hg := List.getElem?_eq_getElem (show i < ss.length by omega)
    have hm := mem_of_getElem? hg
    have hw : d.writeSector (ofNat 32 ss[i]) (.ofBuffer buf) = .ok (update d ss[i] (.ofBuffer buf)) := by
      rw [Disk.writeSector, h.sector_toNat hm, if_pos (h.range _ hm)]
    have hn : ofNat 32 i + 1 = ofNat 32 (i + 1) := (ofNat_add ..).symm
    have hl : sectorSize ≤ buf.length := by rw [hbf, Nat.succ_mul]; omega
    obtain ⟨d', hd', ho, hb⟩ := ih (i + 1) (buf.drop sectorSize) (update d ss[i] (.ofBuffer buf)) (by omega)
      (by rw [length_drop, hbf, Nat.succ_mul]; omega)
    refine ⟨d', ?_, ?_, ?_⟩
    · simp only [OnDisk.writeSectors, h.byteToSector hg, hw, hn, bind, Except.bind]
      exact hd'
    · intro s hs
      rw [ho s hs, update_of_ne]
      rintro rfl
      exact hs hm
    · have hln : (Sector.ofBuffer buf).bytes.length = sectorSize := (Sector.ofBuffer buf).size
      have hj : (Sector.ofBuffer buf).bytes ++ buf.drop sectorSize = buf := by
        rw [Sector.bytes_ofBuffer hl, take_append_drop]
      rw [hb, sectorBytes_update d ss h.distinct hg,
        show (i + 1) * sectorSize = i * sectorSize + (Sector.ofBuffer buf).bytes.length by rw [hln, Nat.succ_mul],
        patch_patch, hj]

/-! ### Requests -/

/-- How many bytes a transfer of `numBytes` at `p` moves. -/
theorem request (hp : p + numBytes.toInt.toNat ≤ 2147483647) : f.request numBytes (ofNat 32 p) =
      if min numBytes.toInt.toNat (n - p) = 0 then none
      else some (ofNat 32 (min numBytes.toInt.toNat (n - p))) := by
  have hn := h.small
  have hl : f.length = ofNat 32 n := h.length
  have hle : f.length.sle (ofNat 32 p) = true ↔ n ≤ p := by
    rw [hl, sle_iff_toInt_le, ofNat_toInt (by omega), ofNat_toInt (by omega), Int.ofNat_le]
  have hps : numBytes.sle 0 = true ↔ numBytes.toInt.toNat = 0 := by
    rw [sle_iff_toInt_le, show (0 : Word).toInt = 0 from rfl]
    omega
  unfold OpenFile.request
  by_cases hzr : numBytes.sle 0 = true ∨ f.length.sle (ofNat 32 p) = true
  · rw [if_pos hzr, if_pos]
    rcases hzr with hz | hz
    · rw [hps.mp hz, Nat.zero_min]
    · rw [Nat.sub_eq_zero_of_le (hle.mp hz), Nat.min_zero]
  · obtain ⟨hnz, hlt⟩ := not_or.mp hzr
    rw [hps] at hnz
    rw [hle] at hlt
    -- a positive count is its own value
    have hnm := eq_ofNat_toInt (show 0 ≤ numBytes.toInt by omega)
    rw [if_neg hzr]
    generalize numBytes.toInt.toNat = m at hp hnz hnm ⊢
    have hc : (ofNat 32 n).slt (ofNat 32 (p + m)) = true ↔ n < p + m := by
      rw [slt_iff_toInt_lt, ofNat_toInt (by omega), ofNat_toInt (by omega), Int.ofNat_lt]
    rw [if_neg (show ¬ min m (n - p) = 0 by omega), hl, hnm, ← ofNat_add]
    by_cases ho : n < p + m
    · rw [if_pos (hc.mpr ho), ofNat_sub (by omega) (by omega), Nat.min_eq_right (by omega)]
    · rw [if_neg (mt hc.mp ho), Nat.min_eq_left (by omega)]

/-- ReadAt delivers the bytes of the file from `p` on. -/
theorem readAt (hp : p + numBytes.toInt.toNat ≤ 2147483647) :
    f.readAt d numBytes (ofNat 32 p) = .ok (ofNat 32 (min numBytes.toInt.toNat (n - p)),
      ((sectorBytes d ss).drop p).take (min numBytes.toInt.toNat (n - p))) := by
  rw [OpenFile.readAt, h.request hp]
  generalize hk : min numBytes.toInt.toNat (n - p) = k
  by_cases hz : k = 0
  · subst hz
    rfl
  have hn := h.small
  have hf : n ≤ ss.length * 512 := h.fits
  have hend : p + k ≤ n := by omega
  obtain ⟨hl, hc, hs⟩ := span (Nat.pos_of_ne_zero hz) (show p + k < 2147483648 by omega)
  have hd : (p + k - 1) / 512 < ss.length := by omega
  have hle : p / 512 ≤ (p + k - 1) / 512 := Nat.div_le_div_right (by omega)
  have hnm : (ofNat 32 ((p + k - 1) / 512 - p / 512 + 1)).toInt.toNat = (p + k - 1) / 512 - p / 512 + 1 := by
    rw [ofNat_toInt (by omega), Int.toNat_natCast]
  have hb : sectorBytes d ((ss.drop (p / 512)).take ((p + k - 1) / 512 - p / 512 + 1)) =
      ((sectorBytes d ss).drop (p / 512 * 512)).take (((p + k - 1) / 512 - p / 512 + 1) * 512) := by
    rw [sectorBytes_take, sectorBytes_drop]
  have hsl : slice (((sectorBytes d ss).drop (p / 512 * 512)).take (((p + k - 1) / 512 - p / 512 + 1) * 512)) (p % 512) k =
      .ok (((sectorBytes d ss).drop p).take k) := by
    rw [slice, if_pos]
    · rw [drop_take, drop_drop, take_take]
      congr 2
      · omega
      · congr 1
        omega
    · rw [List.length_take, length_drop, length_sectorBytes]
      unfold sectorSize
      omega
  simp only [if_neg hz, sdiv_sector (show p < 2147483648 by omega), hl, hc, hs, hnm,
    h.readSectors d _ _ (show p / 512 + ((p + k - 1) / 512 - p / 512 + 1) ≤ ss.length by omega), hb, bind, Except.bind,
    ofNat_toNat (show k < 4294967296 by omega), hsl]
  rfl

/-- A sector is read in up to the end of the file. -/
theorem readIn (partly : Bool) {buf : List Byte} {start j : Nat} (hj : j < ss.length) (hst : start + 512 ≤ buf.length)
    (hs : start < 4294967296) :
    f.readIn d partly buf (ofNat 32 start) (ofNat 32 j) =
      .ok (if partly = true then patch buf start (sectorOf (sectorBytes d ss) n j) else buf) := by
  cases partly with
  | false => rfl
  | true =>
    have hc : ss.length ≤ 126 := h.count
    have hr : f.readAt d 512 (ofNat 32 (j * 512)) =
        .ok (ofNat 32 (min 512 (n - j * 512)), sectorOf (sectorBytes d ss) n j) :=
      h.readAt d (show j * 512 + 512 ≤ 2147483647 by omega)
    have hl := length_sectorOf (show n ≤ (sectorBytes d ss).length by rw [length_sectorBytes]; exact h.fits) j
    rw [← ofNat_mul_sector] at hr
    rw [OpenFile.readIn, if_pos rfl, hr]
    simp only [bind, Except.bind, if_true]
    rw [ofNat_toNat hs]
    exact if_pos (by omega)

/-- `WriteAt` replaces the bytes of the file from `p` on, and touches no other sector. -/
theorem writeAt (g : Nat → Byte) {source : List Byte} (hp : p + numBytes.toInt.toNat ≤ 2147483647)
    (hso : min numBytes.toInt.toNat (n - p) ≤ source.length) :
    ∃ d', f.writeAt d g source numBytes (ofNat 32 p) = .ok (ofNat 32 (min numBytes.toInt.toNat (n - p)), d') ∧
      (∀ s, s ∉ ss → d' s = d s) ∧
      (sectorBytes d' ss).take n =
        patch ((sectorBytes d ss).take n) p (source.take (min numBytes.toInt.toNat (n - p))) := by
  rw [OpenFile.writeAt, h.request hp]
  generalize hk : min numBytes.toInt.toNat (n - p) = k at *
  by_cases hz : k = 0
  · subst hz
    exact ⟨d, rfl, fun _ _ => rfl, by simp [patch]⟩
  have hn := h.small
  have hcn : ss.length ≤ 126 := h.count
  have hft : n ≤ ss.length * 512 := h.fits
  have hl : n ≤ (sectorBytes d ss).length := by rw [length_sectorBytes]; exact hft
  have hend : p + k ≤ n := by omega
  obtain ⟨hls, hc, hst⟩ := span (Nat.pos_of_ne_zero hz) (show p + k < 2147483648 by omega)
  have hle : p / 512 ≤ (p + k - 1) / 512 := Nat.div_le_div_right (by omega)
  have hdv : (p + k - 1) / 512 < ss.length := by omega
  have hnm : (ofNat 32 ((p + k - 1) / 512 - p / 512 + 1)).toInt.toNat = (p + k - 1) / 512 - p / 512 + 1 := by
    rw [ofNat_toInt (by omega), Int.toNat_natCast]
  have hm : (ofNat 32 ((p + k - 1) / 512 - p / 512 + 1) * 512 : Word).toNat = ((p + k - 1) / 512 - p / 512 + 1) * 512 := by
    rw [ofNat_mul_sector, ofNat_toNat (by omega)]
  -- the two tests of alignment
  have hfr : (ofNat 32 p == ofNat 32 (p / 512) * 512) = decide (p % 512 = 0) := by
    rw [ofNat_mul_sector, beq_ofNat (by omega) (by omega)]
    exact decide_eq_decide.mpr (by omega)
  have hla : (ofNat 32 p + ofNat 32 k == (ofNat 32 ((p + k - 1) / 512) + 1) * 512) =
      decide (p + k = ((p + k - 1) / 512 + 1) * 512) := by
    rw [← ofNat_add, show ofNat 32 ((p + k - 1) / 512) + 1 = ofNat 32 ((p + k - 1) / 512 + 1) from
      (ofNat_add ..).symm, ofNat_mul_sector, beq_ofNat (by omega) (by omega)]
  have hsm : (ofNat 32 (p / 512) == ofNat 32 ((p + k - 1) / 512)) = decide (p / 512 = (p + k - 1) / 512) :=
    beq_ofNat (by omega) (by omega)
  have hd : (ofNat 32 ((p + k - 1) / 512) - ofNat 32 (p / 512)) * 512 =
      ofNat 32 (((p + k - 1) / 512 - p / 512) * 512) := by
    rw [ofNat_sub hle (by omega), ofNat_mul_sector]
  generalize hbf : (List.range (((p + k - 1) / 512 - p / 512 + 1) * 512)).map g = buf
  have hb : buf.length = ((p + k - 1) / 512 - p / 512 + 1) * 512 := by rw [← hbf, length_map, length_range]
  have hsr : (source.take k).length = k := by rw [List.length_take]; omega
  have hfi : (filledFirst (sectorBytes d ss) buf n p).length = buf.length := length_filledFirst hl (by omega)
  have hf := length_filled hl hb
  have hr : p % 512 + (source.take k).length ≤ (filled (sectorBytes d ss) buf n p k).length := by omega
  have hln := length_patch hr
  obtain ⟨d', hw, ho, hby⟩ := h.writeSectors ((p + k - 1) / 512 - p / 512 + 1) (p / 512)
    (patch (filled (sectorBytes d ss) buf n p k) (p % 512) (source.take k)) d (by omega) (by rw [hln, hf]; exact hb)
  refine ⟨d', ?_, ho, ?_⟩
  · -- the four steps that fill the buffer
    have hc1 : (!decide (p % 512 = 0)) = true ↔ p % 512 ≠ 0 := by simp
    have hc2 : (!decide (p + k = ((p + k - 1) / 512 + 1) * 512) &&
        (!decide (p / 512 = (p + k - 1) / 512) || decide (p % 512 = 0))) = true ↔
        p + k ≠ ((p + k - 1) / 512 + 1) * 512 ∧ (p / 512 ≠ (p + k - 1) / 512 ∨ p % 512 = 0) := by simp
    have hr1 : f.readIn d (!decide (p % 512 = 0)) buf 0 (ofNat 32 (p / 512)) =
        .ok (filledFirst (sectorBytes d ss) buf n p) := by
      rw [show (0 : Word) = ofNat 32 0 from rfl, h.readIn d _ (by omega) (by omega) (by decide), if_congr hc1 rfl rfl]
      rfl
    have hr2 : f.readIn d (!decide (p + k = ((p + k - 1) / 512 + 1) * 512) &&
        (!decide (p / 512 = (p + k - 1) / 512) || decide (p % 512 = 0))) (filledFirst (sectorBytes d ss) buf n p)
        (ofNat 32 (((p + k - 1) / 512 - p / 512) * 512)) (ofNat 32 ((p + k - 1) / 512)) =
        .ok (filled (sectorBytes d ss) buf n p k) := by
      rw [h.readIn d _ hdv (by omega) (by omega), if_congr hc2 rfl rfl]
      rfl
    have hsl : slice source 0 k = .ok (source.take k) := by rw [slice, if_pos (by omega), drop_zero]
    have hs : store (filled (sectorBytes d ss) buf n p k) (p % 512) (source.take k) = .ok _ := if_pos hr
    simp only [if_neg hz, sdiv_sector (show p < 2147483648 by omega), hls, hc, hst, hnm, hm, hbf, hfr, hla,
      bne, hsm, hd, bind, Except.bind, ofNat_toNat (show k < 4294967296 by omega),
      hr1, hr2, hsl, hs, hw]
    rfl
  · -- byte for byte
    apply ext_getElem?
    intro i
    rw [getElem?_patch _ (by rw [List.length_take]; omega), length_take_of_le hso, hby]
    rcases Nat.lt_or_ge i n with hi | hi
    · rw [getElem?_take_of_lt hi, getElem?_take_of_lt hi, getElem?_patch _ (by
        rw [length_sectorBytes]; unfold sectorSize; omega), hln, hf, hb]
      by_cases hin : p / 512 * sectorSize ≤ i ∧ i < p / 512 * sectorSize + ((p + k - 1) / 512 - p / 512 + 1) * 512
      · rw [if_pos hin]
        unfold sectorSize at hin ⊢
        exact getElem?_filled (Nat.pos_of_ne_zero hz) hend hl hb hsr (by omega) (by omega) hi
      · rw [if_neg hin, if_neg]
        unfold sectorSize at hin
        omega
    · rw [List.getElem?_eq_none (by rw [List.length_take]; omega), if_neg (by omega),
        List.getElem?_eq_none (by rw [List.length_take]; omega)]

end Laid

/-! ## Files of one sector -/

/-- A file of `n` bytes in sector `s`. -/
structure OneSector (f : OpenFile) (s n : Nat) : Prop where
  length : f.hdr.numBytes = BitVec.ofNat 32 n
  first : f.hdr.dataSectors[0]? = some (BitVec.ofNat 32 s)
  pos : 0 < n
  small : n ≤ sectorSize
  range : s < numSectors

section

variable {f : OpenFile} {s n : Nat} (h : f.OneSector s n) (d : Disk)
include h

theorem OneSector.toNat : (ofNat 32 n).toNat = n := ofNat_toNat (Nat.lt_of_le_of_lt h.small (by decide))

theorem OneSector.laid : f.Laid [s] n where
  length := h.length
  sectors i t ht := by
    obtain ⟨hi, rfl⟩ := List.getElem?_eq_some_iff.mp ht
    obtain rfl : i = 0 := Nat.lt_one_iff.mp hi
    exact h.first
  fits := by rw [length_singleton, Nat.one_mul]; exact h.small
  distinct := pairwise_singleton ..
  range t ht := by rw [mem_singleton.mp ht]; exact h.range

omit h in
/-- A count up to a sector is its own value. -/
theorem OneSector.count {numBytes : Word} (hn : n ≤ numBytes.toNat) (hs : numBytes.toNat ≤ sectorSize) :
    numBytes.toInt.toNat ≤ 512 ∧ min numBytes.toInt.toNat (n - 0) = n := by
  unfold sectorSize at hs
  rw [toInt_toNat (by omega), Int.toNat_natCast]
  omega

theorem OneSector.readAt {numBytes : Word} (hn : n ≤ numBytes.toNat) (hs : numBytes.toNat ≤ sectorSize) :
    f.readAt d numBytes 0 = .ok (ofNat 32 n, (d s).bytes.take n) := by
  obtain ⟨hle, hm⟩ := OneSector.count hn hs
  have hr := h.laid.readAt d (show 0 + numBytes.toInt.toNat ≤ 2147483647 by omega)
  rwa [hm, drop_zero, sectorBytes, flatMap_singleton] at hr

theorem OneSector.writeAt (g : Nat → Byte) {source : List Byte} (hs : source.length = n) :
    ∃ sec, f.writeAt d g source (ofNat 32 n) 0 = .ok (ofNat 32 n, update d s sec) ∧
      sec.bytes.take n = source := by
  obtain ⟨hle, hm⟩ := OneSector.count (Nat.le_of_eq h.toNat.symm) (by rw [h.toNat]; exact h.small)
  obtain ⟨d', hw, ho, hb⟩ := h.laid.writeAt d g (show 0 + (ofNat 32 n).toInt.toNat ≤ 2147483647 by omega)
    (show min (ofNat 32 n).toInt.toNat (n - 0) ≤ source.length by omega)
  have hd : d' = update d s (d' s) := by
    funext t
    by_cases ht : t = s
    · rw [ht, update_self]
    · rw [update_of_ne ht, ho t (mt mem_singleton.mp ht)]
  have hl : (source.take n).length = ((d s).bytes.take n).length := by
    rw [List.length_take, List.length_take, (d s).size, hs, Nat.min_self, Nat.min_eq_left h.small]
  rw [hm, sectorBytes, sectorBytes, flatMap_singleton, flatMap_singleton, patch_all hl,
    take_of_length_le (Nat.le_of_eq hs)] at hb
  rw [hm, hd] at hw
  exact ⟨d' s, hw, hb⟩

end

end OpenFile

end OnDisk

/-! ## A bitmap in a file -/

namespace BitMap

/-- The bitmap whose words are these bytes. -/
def ofBytes (numBits : Nat) (bytes : List Byte) : BitMap :=
  ⟨numBits, Lib.word.list (divRoundUp numBits bitsInWord) bytes, Lib.word.length_list ..⟩

def fetchFrom (b : BitMap) (file : OnDisk.OpenFile) (d : Disk) : Except Stop BitMap := do
  let (_, bytes) ← file.readAt d (BitVec.ofNat 32 (b.map.length * 4)) 0
  return ofBytes b.numBits (Lib.patch (Lib.word.bytesOf b.map) 0 bytes)

def writeBack (b : BitMap) (file : OnDisk.OpenFile) (d : Disk) (g : Nat → Byte) : Except Stop Disk := do
  let (_, d) ← file.writeAt d g (Lib.word.bytesOf b.map) (BitVec.ofNat 32 (b.map.length * 4)) 0
  return d

theorem ofBytes_bytesOf {b : BitMap} {bytes : List Byte} (h : bytes.take (b.map.length * 4) = word.bytesOf b.map) :
    ofBytes b.numBits bytes = b := by
  have hl : word.list (divRoundUp b.numBits bitsInWord) bytes = b.map := by
    rw [← word.list_take, ← b.words, show word.size = 4 from rfl, h]
    have := word.list_bytesOf b.map []
    rwa [append_nil] at this
  cases b
  simp only [ofBytes, mk.injEq, true_and]
  exact hl

section

variable {b : BitMap} {file : OnDisk.OpenFile} {s : Nat} (h : file.OneSector s (b.map.length * 4)) (d : Disk)
include h

theorem fetchFrom_ok : b.fetchFrom file d = .ok (ofBytes b.numBits (d s).bytes) := by
  have hln : ((d s).bytes.take (b.map.length * 4)).length = (word.bytesOf b.map).length := by
    rw [List.length_take, (d s).size, Layout.length_bytesOf]
    exact Nat.min_eq_left h.small
  have hl := word.list_take b.map.length (d s).bytes
  rw [fetchFrom, h.readAt d (Nat.le_of_eq h.toNat.symm) (by rw [h.toNat]; exact h.small)]
  simp only [bind, Except.bind, patch_all hln, ofBytes, ← b.words]
  exact congrArg Except.ok (by rw [mk.injEq]; exact ⟨rfl, hl⟩)

theorem writeBack_ok (g : Nat → Byte) :
    ∃ sec, b.writeBack file d g = .ok (update d s sec) ∧ ofBytes b.numBits sec.bytes = b := by
  obtain ⟨sec, hw, ht⟩ := h.writeAt d g (Layout.length_bytesOf word b.map)
  refine ⟨sec, ?_, ofBytes_bytesOf ht⟩
  rw [writeBack, hw]
  rfl

end

end BitMap

end Nachos

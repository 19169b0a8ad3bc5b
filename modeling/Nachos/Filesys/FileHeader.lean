/-
  Nachos.Filesys.FileHeader — `filesys/filehdr.cc`: where on the disk a file's data is.

  A header fills a sector: two `int`s and a table of 126 sector numbers, of which the first
  `numSectors` count. `Allocate` does not compare `numSectors` with the table's size: a file
  of more than 126 sectors is written past its end (`undefined`).
  - `ofSector_toSector`: a header is read back from its sector.
  - `allocate_ok`: up to 126 sectors, `Allocate` takes the first clear bits of the map.
  - `deallocate_ok`: `Deallocate` of marked sectors clears them.
-/

import Nachos.Lib.Layout
import Nachos.Lib.Runs
import Nachos.Machine.Disk
import Nachos.Userprog.BitMap
import Nachos.Userprog.UserMemory

namespace Nachos

open List BitVec
open BitVec (ofNat)

/-- (SectorSize - 2 * sizeof(int)) / sizeof(int). -/
abbrev numDirect : Nat := 126

abbrev maxFileSize : Nat := numDirect * sectorSize

structure FileHeader where
  numBytes : Word
  numSectors : Word
  dataSectors : List Word
  direct : dataSectors.length = numDirect
  deriving DecidableEq

namespace FileHeader

variable (h : FileHeader)

def toSector : Sector where
  bytes := Lib.word.bytesOf (h.numBytes :: h.numSectors :: h.dataSectors)
  size := by
    rw [Lib.Layout.length_bytesOf, List.length_cons, List.length_cons, h.direct]
    rfl

def ofSector (s : Sector) : FileHeader :=
  let words := Lib.word.list (numDirect + 2) s.bytes
  ⟨words.getD 0 0, words.getD 1 0, words.drop 2, by rw [List.length_drop, Lib.Layout.length_list]; rfl⟩

theorem ofSector_toSector : ofSector h.toSector = h := by
  have hl : Lib.word.list (numDirect + 2) h.toSector.bytes = h.numBytes :: h.numSectors :: h.dataSectors := by
    have := Lib.word.list_bytesOf (h.numBytes :: h.numSectors :: h.dataSectors) []
    rwa [append_nil, length_cons, length_cons, h.direct] at this
  simp only [ofSector, hl]
  rfl

/-- `new FileHeader`. -/
def new (g : Nat → Byte) : FileHeader := ofSector (.garbage g)

def fetchFrom (d : Disk) (sector : Word) : Except Stop FileHeader := do
  let s ← d.readSector sector
  return ofSector s

def writeBack (d : Disk) (sector : Word) : Except Stop Disk := d.writeSector sector h.toSector

variable {sector : Word}

theorem fetchFrom_ok {d : Disk} (h : sector.toNat < Nachos.numSectors) :
    fetchFrom d sector = .ok (ofSector (d sector.toNat)) := by
  rw [fetchFrom, Disk.readSector, if_pos h]
  rfl

theorem writeBack_ok (hdr : FileHeader) (d : Disk) (h : sector.toNat < Nachos.numSectors) :
    hdr.writeBack d sector = .ok (Function.update d sector.toNat hdr.toSector) := if_pos h

/-- `divRoundUp(fileSize, SectorSize)`. -/
def sectorsFor (fileSize : Word) : Word :=
  fileSize.sdiv 512 + if BitVec.slt 0 (fileSize.srem 512) then 1 else 0

/-- The loop of `Allocate` from `i` on, `n` times; `dataSectors[i]` must be in the table. -/
def allocateLoop (h : FileHeader) (freeMap : BitMap) (i : Nat) : Nat → Except Stop (FileHeader × BitMap)
  | 0 => .ok (h, freeMap)
  | n + 1 =>
    if i < numDirect then
      let (s, freeMap) := freeMap.find
      allocateLoop { h with
        dataSectors := h.dataSectors.set i (BitVec.ofInt 32 s)
        direct := by rw [List.length_set]; exact h.direct } freeMap (i + 1) n
    else .error .undefined

def allocate (freeMap : BitMap) (fileSize : Word) : Except Stop (Bool × FileHeader × BitMap) :=
  let h := { h with numBytes := fileSize, numSectors := sectorsFor fileSize }
  if (ofNat 32 freeMap.numClear).slt h.numSectors then .ok (false, h, freeMap)
  else do
    let (h, freeMap) ← h.allocateLoop freeMap 0 h.numSectors.toInt.toNat
    return (true, h, freeMap)

/-- The body of the loop of `Deallocate`, with its ASSERT. -/
def freeSector (freeMap : BitMap) (s : Word) : Except Stop BitMap :=
  if freeMap.test s.toInt = some true then
    match freeMap.clear s.toInt with
    | some freeMap => .ok freeMap
    | none => .error .assertion
  else .error .assertion

def deallocate (freeMap : BitMap) : Except Stop BitMap := do
  let freeMap ← (h.dataSectors.take h.numSectors.toInt.toNat).foldlM freeSector freeMap
  -- the loop goes on past the table
  if numDirect < h.numSectors.toInt.toNat then .error .undefined else return freeMap

def byteToSector (offset : Word) : Except Stop Word :=
  match h.dataSectors[(offset.sdiv 512).toNat]? with
  | some s => .ok s
  | none => .error .undefined

/-- The data sectors the header lists. -/
def listed : List Nat := (h.dataSectors.take h.numSectors.toInt.toNat).map BitVec.toNat

/-! ## Sizes -/

section

variable {fileSize : Word}

theorem sectorsFor_toNat (h : fileSize.toNat < 2147483648) :
    (sectorsFor fileSize).toNat = divRoundUp fileSize.toNat sectorSize := by
  have hm : fileSize.msb = false := by rw [msb_eq_false_iff_two_mul_lt]; omega
  have hd : fileSize.sdiv 512 = fileSize / 512 := by rw [BitVec.sdiv_eq, hm]; rfl
  have hrm : fileSize.srem 512 = fileSize % 512 := by rw [BitVec.srem_eq, hm]; rfl
  have h512 : (512 : Word).toNat = 512 := rfl
  have hp : BitVec.slt 0 (fileSize % 512) = true ↔ 0 < fileSize.toNat % 512 := by
    rw [positive_iff, toNat_umod, h512]
    omega
  rw [sectorsFor, hd, hrm, toNat_add, toNat_udiv, h512]
  unfold divRoundUp sectorSize
  by_cases hr : 0 < fileSize.toNat % 512
  · rw [if_pos (hp.mpr hr), if_pos hr]
    exact Nat.mod_eq_of_lt (show fileSize.toNat / 512 + 1 < 4294967296 by omega)
  · rw [if_neg (mt hp.mp hr), if_neg hr]
    exact Nat.mod_eq_of_lt (show fileSize.toNat / 512 + 0 < 4294967296 by omega)

/-- A size up to the limit needs at most the sectors of the table. -/
theorem sectorsFor_count (h : fileSize.toNat ≤ maxFileSize) :
    (sectorsFor fileSize).toInt.toNat = divRoundUp fileSize.toNat sectorSize ∧
      divRoundUp fileSize.toNat sectorSize ≤ numDirect := by
  have hle : divRoundUp fileSize.toNat sectorSize ≤ numDirect := by
    unfold divRoundUp
    unfold maxFileSize numDirect sectorSize at *
    split <;> omega
  have hto : (sectorsFor fileSize).toNat = divRoundUp fileSize.toNat sectorSize :=
    sectorsFor_toNat (by unfold maxFileSize numDirect sectorSize at h; omega)
  refine ⟨?_, hle⟩
  rw [toInt_toNat (by rw [hto]; unfold numDirect at hle; omega), Int.toNat_natCast, hto]

end

/-! ## Allocating -/

/-- The loop fills the table from `i` on with the first clear bits, and marks them. -/
theorem allocateLoop_ok (n : Nat) : ∀ (h : FileHeader) (freeMap : BitMap) (i : Nat), i + n ≤ numDirect →
    n ≤ freeMap.clearBits.length → ∃ h' freeMap', h.allocateLoop freeMap i n = .ok (h', freeMap') ∧
      h'.numBytes = h.numBytes ∧ h'.numSectors = h.numSectors ∧
      (∀ j < i, h'.dataSectors[j]? = h.dataSectors[j]?) ∧
      (∀ j < n, h'.dataSectors[i + j]? = freeMap.clearBits[j]?.map (ofNat 32)) ∧
      freeMap'.numBits = freeMap.numBits ∧ freeMap'.clearBits = freeMap.clearBits.drop n ∧
      ∀ j, freeMap'.bit j = (freeMap.bit j || (freeMap.clearBits.take n).contains j) := by
  induction n with
  | zero =>
    intro h freeMap i _ _
    exact ⟨h, freeMap, rfl, rfl, rfl, fun _ _ => rfl, nofun, rfl, rfl, by simp⟩
  | succ n ih =>
    intro h freeMap i hi hn
    obtain ⟨p, r, hc⟩ : ∃ p r, freeMap.clearBits = p :: r := by
      cases h : freeMap.clearBits with
      | nil => rw [h] at hn; cases hn
      | cons p r => exact ⟨p, r, rfl⟩
    have hp : p < freeMap.numBits := ((freeMap.mem_clearBits p).mp (hc ▸ mem_cons_self)).1
    have hr := freeMap.clearBits_markBit hc
    simp only [allocateLoop, if_pos (show i < numDirect by omega), freeMap.find_cons hc, ofInt_natCast]
    obtain ⟨h', freeMap', hok, hby, hs, hb, ht, hbt, hrs, hm⟩ :=
      ih { h with
        dataSectors := h.dataSectors.set i (ofNat 32 p)
        direct := by rw [length_set]; exact h.direct } (freeMap.markBit p) (i + 1)
        (by omega) (by rw [hr]; rw [hc] at hn; exact Nat.le_of_succ_le_succ hn)
    refine ⟨h', freeMap', hok, hby, hs, ?_, ?_, hbt, by rw [hrs, hr, hc, drop_succ_cons], ?_⟩
    · intro j hj
      rw [hb j (by omega), getElem?_set_ne (by omega)]
    · intro j hj
      rw [hc]
      cases j with
      | zero =>
        rw [Nat.add_zero, hb i (Nat.lt_succ_self i), getElem?_set_self (by rw [h.direct]; omega)]
        rfl
      | succ j =>
        rw [show i + (j + 1) = i + 1 + j by omega, ht j (by omega), hr]
        rfl
    · intro j
      rw [hm, hr, hc, take_succ_cons, freeMap.bit_markBit_cons hp]

/-- Past the table the loop does not come to an end. -/
theorem allocateLoop_over (n : Nat) : ∀ (h : FileHeader) (freeMap : BitMap) (i : Nat), i ≤ numDirect → numDirect < i + n →
    h.allocateLoop freeMap i n = .error .undefined := by
  induction n with
  | zero =>
    intro h freeMap i hi hn
    omega
  | succ n ih =>
    intro h freeMap i hi hn
    rw [allocateLoop]
    by_cases hlt : i < numDirect
    · rw [if_pos hlt]
      exact ih _ _ (i + 1) hlt (by omega)
    · rw [if_neg hlt]

section

variable {freeMap : BitMap} {fileSize : Word}

theorem numClear_le (hm : freeMap.numBits = Nachos.numSectors) : freeMap.numClear ≤ Nachos.numSectors := by
  rw [← hm]
  exact Nat.le_trans countP_le_length (Nat.le_of_eq length_range)

theorem numClear_toNat (hm : freeMap.numBits = Nachos.numSectors) :
    (ofNat 32 freeMap.numClear).toNat = freeMap.numClear :=
  ofNat_toNat (Nat.lt_of_le_of_lt (numClear_le hm) (by decide))

theorem map_toNat_ofNat {l : List Nat} (h : ∀ s ∈ l, s < 4294967296) : (l.map (ofNat 32)).map BitVec.toNat = l := by
  rw [map_map]
  refine (map_congr_left fun s hs => ?_).trans (map_id l)
  exact ofNat_toNat (h s hs)

/-- What a successful `Allocate` has made of the header and the map. -/
structure Allocated (freeMap : BitMap) (fileSize : Word) (h' : FileHeader) (freeMap' : BitMap) : Prop where
  enough : (sectorsFor fileSize).toInt.toNat ≤ freeMap.clearBits.length
  bytes : h'.numBytes = fileSize
  sectors : h'.numSectors = sectorsFor fileSize
  listed : h'.listed = freeMap.clearBits.take (sectorsFor fileSize).toInt.toNat
  bits : freeMap'.numBits = freeMap.numBits
  rest : freeMap'.clearBits = freeMap.clearBits.drop (sectorsFor fileSize).toInt.toNat
  marked : ∀ j, freeMap'.bit j = (freeMap.bit j || h'.listed.contains j)

/-- `Allocate` takes the first clear bits, if there are enough and the table has room. -/
theorem allocated (hmp : freeMap.numBits = Nachos.numSectors)
    (hc : ¬ (ofNat 32 freeMap.numClear).slt (sectorsFor fileSize) = true)
    (hrm : (sectorsFor fileSize).toInt.toNat ≤ numDirect) :
    ∃ h' freeMap', h.allocate freeMap fileSize = .ok (true, h', freeMap') ∧ Allocated freeMap fileSize h' freeMap' := by
  have hn : (sectorsFor fileSize).toInt.toNat ≤ freeMap.clearBits.length := by
    have hle := numClear_le hmp
    unfold Nachos.numSectors at hle
    rw [slt_iff_toInt_lt, toInt_toNat (by rw [numClear_toNat hmp]; omega), numClear_toNat hmp] at hc
    rw [← freeMap.numClear_eq]
    omega
  obtain ⟨h', freeMap', hok, hb, hsc, -, ht, hbt, hr, hm⟩ :=
    allocateLoop_ok _ { h with numBytes := fileSize, numSectors := sectorsFor fileSize } freeMap 0 (by omega) hn
  have htk : h'.dataSectors.take (sectorsFor fileSize).toInt.toNat =
      (freeMap.clearBits.take (sectorsFor fileSize).toInt.toNat).map (ofNat 32) := by
    apply ext_getElem?
    intro j
    by_cases hj : j < (sectorsFor fileSize).toInt.toNat
    · have := ht j hj
      rw [Nat.zero_add] at this
      rw [getElem?_take_of_lt hj, getElem?_map, getElem?_take_of_lt hj, this]
    · rw [getElem?_take_eq_none (by omega), getElem?_map, getElem?_take_eq_none (by omega)]
      rfl
  have hl : h'.listed = freeMap.clearBits.take (sectorsFor fileSize).toInt.toNat := by
    rw [listed, hsc, htk]
    refine map_toNat_ofNat fun s hs => ?_
    have := ((freeMap.mem_clearBits s).mp (mem_of_mem_take hs)).1
    rw [hmp] at this
    exact Nat.lt_of_lt_of_le this (by decide)
  refine ⟨h', freeMap', ?_, ⟨hn, hb, hsc, hl, hbt, hr, fun j => by rw [hl]; exact hm j⟩⟩
  simp only [allocate, if_neg hc, bind, Except.bind]
  rw [hok]
  rfl

theorem allocate_true {h h' : FileHeader} {freeMap' : BitMap} (hm : freeMap.numBits = Nachos.numSectors)
    (hok : h.allocate freeMap fileSize = .ok (true, h', freeMap')) : Allocated freeMap fileSize h' freeMap' := by
  by_cases hc : (ofNat 32 freeMap.numClear).slt (sectorsFor fileSize) = true
  · rw [allocate, if_pos hc] at hok
    cases hok
  have hr : (sectorsFor fileSize).toInt.toNat ≤ numDirect := by
    by_contra hover
    simp only [allocate, if_neg hc, bind, Except.bind] at hok
    rw [allocateLoop_over _ _ _ 0 (Nat.zero_le _) (by omega)] at hok
    cases hok
  obtain ⟨_, _, ho', ha⟩ := allocated h hm hc hr
  cases hok.symm.trans ho'
  exact ha

/-- `Allocate` fails when there are not enough clear bits, and takes the first ones else. -/
theorem allocate_ok (h : FileHeader) (hm : freeMap.numBits = Nachos.numSectors) (hs : fileSize.toNat ≤ maxFileSize) :
    let n := divRoundUp fileSize.toNat sectorSize
    (freeMap.clearBits.length < n ∧ ∃ h', h.allocate freeMap fileSize = .ok (false, h', freeMap)) ∨
    ∃ h' freeMap', h.allocate freeMap fileSize = .ok (true, h', freeMap') ∧ n ≤ freeMap.clearBits.length ∧
      h'.numBytes = fileSize ∧ h'.numSectors.toInt.toNat = n ∧ h'.listed = freeMap.clearBits.take n ∧
      freeMap'.numBits = freeMap.numBits ∧
      freeMap'.clearBits = freeMap.clearBits.drop n ∧ ∀ j, freeMap'.bit j = (freeMap.bit j || h'.listed.contains j) := by
  intro n
  obtain ⟨hcn, hle⟩ := sectorsFor_count hs
  have hto : (sectorsFor fileSize).toNat = n :=
    sectorsFor_toNat (by unfold maxFileSize numDirect sectorSize at hs; omega)
  have hif : (ofNat 32 freeMap.numClear).slt (sectorsFor fileSize) = true ↔ freeMap.clearBits.length < n := by
    rw [slt_of_nonneg, numClear_toNat hm, hto, freeMap.numClear_eq]
    · rw [numClear_toNat hm]
      exact Nat.lt_of_le_of_lt (numClear_le hm) (by decide)
    · rw [hto]
      exact Nat.lt_of_le_of_lt hle (by decide)
  by_cases hc : (ofNat 32 freeMap.numClear).slt (sectorsFor fileSize) = true
  · exact .inl ⟨hif.mp hc, _, if_pos hc⟩
  obtain ⟨h', freeMap', hok, ha⟩ := allocated h hm hc (by rw [hcn]; exact hle)
  have he := ha.enough
  have hl := ha.listed
  have hr := ha.rest
  rw [hcn] at he hl hr
  exact .inr ⟨h', freeMap', hok, he, ha.bytes, by rw [ha.sectors]; exact hcn, hl, ha.bits, hr, ha.marked⟩

/-! ## Freeing -/

theorem freeSector_ok {s : Word} (hs : s.toNat < freeMap.numBits) (hsm : freeMap.numBits ≤ 2147483648)
    (hb : freeMap.bit s.toNat = true) : freeSector freeMap s = .ok (freeMap.clearBit s.toNat) := by
  have hin : s.toInt = s.toNat := toInt_toNat (by omega)
  simp only [freeSector, BitMap.test, BitMap.clear, BitMap.inRange_natCast hs, if_true, hin, Int.toNat_natCast, hb]

theorem foldlM_freeSector (ws : List Word) : ∀ (freeMap : BitMap), freeMap.numBits ≤ 2147483648 →
    (∀ w ∈ ws, w.toNat < freeMap.numBits ∧ freeMap.bit w.toNat = true) → (ws.map BitVec.toNat).Nodup →
    ∃ freeMap', ws.foldlM freeSector freeMap = .ok freeMap' ∧ freeMap'.numBits = freeMap.numBits ∧
      ∀ j, freeMap'.bit j = (freeMap.bit j && !(ws.map BitVec.toNat).contains j) := by
  induction ws with
  | nil => intro freeMap _ _ _; exact ⟨freeMap, rfl, rfl, by simp⟩
  | cons w ws ih =>
    intro freeMap hs hm hn
    obtain ⟨hw, hbt⟩ := hm w mem_cons_self
    obtain ⟨hnt, hn⟩ := nodup_cons.mp hn
    obtain ⟨freeMap', hok, hb, hc⟩ := ih (freeMap.clearBit w.toNat) hs (by
      intro v hv
      obtain ⟨hv', hb'⟩ := hm v (mem_cons_of_mem _ hv)
      refine ⟨hv', ?_⟩
      have hne : w.toNat ≠ v.toNat := fun e => hnt (e ▸ mem_map_of_mem hv)
      rw [freeMap.bit_clearBit hw, decide_eq_false hne, hb']
      rfl) hn
    refine ⟨freeMap', ?_, hb, ?_⟩
    · rw [foldlM_cons, freeSector_ok hw hs hbt]
      exact hok
    · intro j
      rw [hc, map_cons, freeMap.bit_clearBit_cons hw]

/-- `Deallocate` clears the sectors the header lists, if they are marked. -/
theorem deallocate_ok {h : FileHeader} (freeMap : BitMap) (hs : freeMap.numBits ≤ 2147483648)
    (hl : h.listed.length = h.numSectors.toInt.toNat)
    (hm : ∀ s ∈ h.listed, s < freeMap.numBits ∧ freeMap.bit s = true) (hn : h.listed.Nodup) :
    ∃ freeMap', h.deallocate freeMap = .ok freeMap' ∧ freeMap'.numBits = freeMap.numBits ∧
      ∀ j, freeMap'.bit j = (freeMap.bit j && !h.listed.contains j) := by
  obtain ⟨freeMap', hok, hb, hc⟩ := foldlM_freeSector (h.dataSectors.take h.numSectors.toInt.toNat) freeMap
    hs (fun w hw => hm _ (mem_map_of_mem hw)) hn
  refine ⟨freeMap', ?_, hb, hc⟩
  have hle : ¬ numDirect < h.numSectors.toInt.toNat := by
    rw [← hl, listed, length_map, Nat.not_lt, ← h.direct]
    exact length_take_le' ..
  rw [deallocate, hok]
  simp only [bind, Except.bind, if_neg hle]
  rfl

end

end FileHeader

end Nachos

/-
  Nachos.Filesys.BitMapSet — a `BitMap` is a set of numbers below `numBits`.

  `Op.result` is what the operations do to a set: `Find` adds the least number that is absent,
  `NumClear` counts the absent ones, and a bitmap that is written to a file and read into a fresh
  one is what it was; if the file is too short, the numbers it has no room for are lost.
  `BitMap.perform` is the code of `userprog/bitmap.cc`.
  - `bit_ofBytes`: bit `j` of a bitmap is bit `j % 8` of byte `j / 8` of its words.
-/

import Mathlib.Data.Finset.Max
import Mathlib.Data.Finset.Range
import Nachos.Filesys.OpenFile

namespace Nachos.BitMap

open Lib List

/-! ## Bits and bytes -/

/-- Bit `j` of a buffer. -/
def byteBit (bytes : List Byte) (j : Nat) : Bool := (bytes.getD (j / 8) 0).getLsbD (j % 8)

variable {j i : Nat} {bytes : List Byte}

theorem byteBit_word (w : BitVec 32) (rest : List Byte) (hj : j < 32) :
    byteBit (word.bytes w ++ rest) j = w.getLsbD j := by
  have hc : j / 8 = 0 ∨ j / 8 = 1 ∨ j / 8 = 2 ∨ j / 8 = 3 := by omega
  have hlt : j % 8 < 8 := Nat.mod_lt _ (by decide)
  rcases hc with h | h | h | h <;>
    (simp only [byteBit, h, word, cons_append, getD_cons_zero, getD_cons_succ, BitVec.getLsbD_extractLsb', hlt,
      decide_true, Bool.true_and]; congr 1; omega)

theorem byteBit_append (w : BitVec 32) (rest : List Byte) (j : Nat) :
    byteBit (word.bytes w ++ rest) (32 + j) = byteBit rest j := by
  have hd : (32 + j) / 8 = j / 8 + 4 := by omega
  have hm : (32 + j) % 8 = j % 8 := by omega
  rw [byteBit, byteBit, hd, hm]
  rfl

theorem byteBit_bytesOf (ws : List (BitVec 32)) : ∀ j, byteBit (word.bytesOf ws) j = (ws.getD (j / 32) 0).getLsbD (j % 32) := by
  induction ws with
  | nil => intro j; simp [byteBit, Layout.bytesOf]
  | cons w ws ih =>
    intro j
    have hs : word.bytesOf (w :: ws) = word.bytes w ++ word.bytesOf ws := flatMap_cons ..
    rw [hs]
    rcases Nat.lt_or_ge j 32 with hlt | hge
    · rw [byteBit_word w _ hlt, Nat.div_eq_of_lt hlt, Nat.mod_eq_of_lt hlt, getD_cons_zero]
    · obtain ⟨j, rfl⟩ := Nat.exists_eq_add_of_le hge
      have hd : (32 + j) / 32 = j / 32 + 1 := by omega
      rw [byteBit_append, ih, hd, Nat.add_mod_left, getD_cons_succ]

/-- A bit of the map is a bit of its bytes. -/
theorem bit_eq_byteBit (b : BitMap) (j : Nat) : b.bit j = byteBit (word.bytesOf b.map) j := by
  rw [bit_eq, byteBit_bytesOf]
  rfl

theorem bytes_ofBytes (b0 b1 b2 b3 : Byte) : word.bytes (word.ofBytes [b0, b1, b2, b3]) = [b0, b1, b2, b3] := by
  simp only [word, List.cons.injEq, and_true]
  refine ⟨?_, ?_, ?_, ?_⟩ <;>
  · apply BitVec.eq_of_getLsbD_eq
    intro i hi
    simp only [BitVec.getLsbD_extractLsb', BitVec.getLsbD_append, hi, decide_true, Bool.true_and]
    grind

theorem bytesOf_list (n : Nat) : ∀ {bytes : List Byte}, bytes.length = n * 4 → word.bytesOf (word.list n bytes) = bytes := by
  induction n with
  | zero =>
    intro bytes h
    rw [Nat.zero_mul, length_eq_zero_iff] at h
    rw [h]
    rfl
  | succ n ih =>
    intro bytes h
    have hf : (bytes.take 4).length = 4 := by rw [List.length_take, h]; omega
    obtain ⟨b0, b1, b2, b3, hw⟩ := length_eq_four.mp hf
    have hd : (bytes.drop 4).length = n * 4 := by rw [length_drop, h]; omega
    have hr := ih hd
    calc word.bytesOf (word.list (n + 1) bytes)
        = word.bytes (word.ofBytes (bytes.take 4)) ++ word.bytesOf (word.list n (bytes.drop 4)) := flatMap_cons ..
      _ = bytes.take 4 ++ bytes.drop 4 := by rw [hr, hw, bytes_ofBytes]
      _ = bytes := take_append_drop ..

theorem bit_ofBytes {n : Nat} (h : bytes.length = divRoundUp n bitsInWord * 4) (j : Nat) :
    (ofBytes n bytes).bit j = byteBit bytes j := by
  rw [bit_eq_byteBit]
  exact congrArg (byteBit · j) (bytesOf_list _ h)

/-! ## A bitmap that is written and read back -/

theorem byteBit_patch (buf bytes : List Byte) (j : Nat) :
    byteBit (patch buf 0 bytes) j = if j / 8 < bytes.length then byteBit bytes j else byteBit buf j := by
  have hg := getElem?_patch bytes (Nat.zero_le buf.length) (j / 8)
  simp only [byteBit, getD_eq_getElem?_getD, hg, Nat.zero_le, true_and, Nat.zero_add, Nat.sub_zero]
  split <;> rfl

theorem byteBit_take {k : Nat} (h : j / 8 < k) : byteBit (bytes.take k) j = byteBit bytes j := by
  rw [byteBit, byteBit, getD_eq_getElem?_getD, getD_eq_getElem?_getD, getElem?_take_of_lt h]

theorem divRoundUp_le (n s : Nat) : divRoundUp n s ≤ n / s + 1 := by
  unfold divRoundUp
  split <;> omega

/-- The words of a bitmap are few enough for an `int`. -/
theorem length_map_le (b : BitMap) (h : b.numBits ≤ 2147483647) : b.map.length * 4 ≤ 268435456 := by
  have hr := divRoundUp_le b.numBits bitsInWord
  rw [b.words]
  simp only [bitsInWord] at hr ⊢
  omega

theorem count_toInt (b : BitMap) (h : b.numBits ≤ 2147483647) : (BitVec.ofNat 32 (b.map.length * 4)).toInt.toNat = b.map.length * 4 := by
  have hs := b.length_map_le h
  rw [ofNat_toInt (by omega), Int.toNat_natCast]

section

variable {b : BitMap} {file : OnDisk.OpenFile} {ss : List Nat} {n : Nat} (hfile : file.Laid ss n) (hint : b.numBits ≤ 2147483647)
include hfile hint

/-- The file gets the bytes it has room for. -/
theorem writeBack_laid (d : Disk) (g : Nat → Byte) : ∃ d', b.writeBack file d g = .ok d' ∧
    (OnDisk.OpenFile.sectorBytes d' ss).take (min (b.map.length * 4) n) =
      (word.bytesOf b.map).take (min (b.map.length * 4) n) := by
  have hsm := b.length_map_le hint
  have hc := b.count_toInt hint
  have hs : (word.bytesOf b.map).length = b.map.length * 4 := Layout.length_bytesOf ..
  obtain ⟨d', hw, -, hb⟩ := hfile.writeAt d g
    (show 0 + (BitVec.ofNat 32 (b.map.length * 4)).toInt.toNat ≤ 2147483647 by omega)
    (show min (BitVec.ofNat 32 (b.map.length * 4)).toInt.toNat (n - 0) ≤ (word.bytesOf b.map).length by omega)
  rw [hc, Nat.sub_zero] at hw hb
  refine ⟨d', ?_, ?_⟩
  · rw [writeBack, show (0 : Word) = BitVec.ofNat 32 0 from rfl, hw]
    rfl
  generalize hk : min (b.map.length * 4) n = k at *
  have hl : ((word.bytesOf b.map).take k).length = k := by rw [List.length_take]; omega
  have ht := take_patch_zero ((OnDisk.OpenFile.sectorBytes d ss).take n) ((word.bytesOf b.map).take k)
  rwa [hl, ← hb, take_take, Nat.min_eq_left (by omega)] at ht

/-- The bits in those bytes are read back, the others are those the memory had. -/
theorem fetchFrom_laid (d : Disk) : ∃ b', b.fetchFrom file d = .ok b' ∧ b'.numBits = b.numBits ∧
    ∀ j, b'.bit j = if j / 8 < min (b.map.length * 4) n then byteBit (OnDisk.OpenFile.sectorBytes d ss) j else b.bit j := by
  have hsm := b.length_map_le hint
  have hc := b.count_toInt hint
  have hr := hfile.readAt d (show 0 + (BitVec.ofNat 32 (b.map.length * 4)).toInt.toNat ≤ 2147483647 by omega)
  have hrm : n ≤ (OnDisk.OpenFile.sectorBytes d ss).length := by
    rw [OnDisk.OpenFile.length_sectorBytes]
    exact hfile.fits
  rw [hc, Nat.sub_zero, drop_zero] at hr
  generalize hk : min (b.map.length * 4) n = k at *
  have hl : ((OnDisk.OpenFile.sectorBytes d ss).take k).length = k := by rw [List.length_take]; omega
  refine ⟨ofBytes b.numBits (patch (word.bytesOf b.map) 0 ((OnDisk.OpenFile.sectorBytes d ss).take k)), ?_, rfl, ?_⟩
  · rw [fetchFrom, show (0 : Word) = BitVec.ofNat 32 0 from rfl, hr]
    rfl
  intro j
  have hs : (word.bytesOf b.map).length = b.map.length * 4 := Layout.length_bytesOf ..
  rw [bit_ofBytes (by rw [length_patch (by omega), hs, b.words]), byteBit_patch, hl]
  split
  · rename_i hj
    exact byteBit_take hj
  · exact (bit_eq_byteBit b j).symm

end

/-- Written to a file and read into a fresh bitmap: what the file has room for is as it was, and the rest is clear. -/
theorem reload_ok {b : BitMap} {file : OnDisk.OpenFile} {ss : List Nat} {n : Nat} (hfile : file.Laid ss n)
    (hint : b.numBits ≤ 2147483647) (d : Disk) (g : Nat → Byte) (words : Nat → BitVec 32) :
    ∃ d' b', b.writeBack file d g = .ok d' ∧ (new b.numBits words).fetchFrom file d' = .ok b' ∧ b'.numBits = b.numBits ∧
      (∀ j < 8 * n, b'.bit j = b.bit j) ∧ ∀ j < b.numBits, 8 * n ≤ j → b'.bit j = false := by
  have hn := numBits_new b.numBits words
  have hln : (new b.numBits words).map.length = b.map.length := by rw [(new b.numBits words).words, b.words, hn]
  obtain ⟨d', hw, hby⟩ := writeBack_laid hfile hint d g
  obtain ⟨b', hf, hn', hb⟩ := fetchFrom_laid (b := new b.numBits words) hfile (by rw [hn]; exact hint) d'
  rw [hln] at hb
  refine ⟨d', b', hw, hf, hn'.trans hn, ?_, ?_⟩
  · intro j hj
    rw [hb]
    split
    · rename_i hin
      rw [← byteBit_take hin, hby, byteBit_take hin, bit_eq_byteBit]
    -- past the words there is nothing in either
    have hp : ∀ c : BitMap, c.map.length = b.map.length → c.bit j = false := by
      intro c hc
      rw [bit_eq, getD_eq_getElem?_getD, getElem?_eq_none (by rw [hc]; simp only [bitsInWord]; omega)]
      exact BitVec.getLsbD_zero
    rw [hp _ hln, hp b rfl]
  · intro j hj hl
    rw [hb, if_neg (by omega)]
    exact bit_new b.numBits words hj

/-! ## The operations -/

inductive Op where
  | mark (which : Int)
  | clear (which : Int)
  | test (which : Int)
  | find
  | numClear
  /-- `WriteBack` to a file, then `FetchFrom` into a fresh bitmap of the same size. The words of the
      fresh bitmap and the buffer of `WriteAt` are what the memory holds. -/
  | reload (file : OnDisk.OpenFile) (words : Nat → BitVec 32) (buffer : Nat → Byte)

inductive Answer where
  | nothing
  | bool (value : Bool)
  | int (value : Int)
  deriving DecidableEq, Repr

/-- A failed ASSERT. -/
def asserted {α : Type} : Option α → Except Stop α
  | some a => .ok a
  | none => .error .assertion

def perform (b : BitMap) (d : Disk) : Op → Except Stop (Answer × BitMap × Disk)
  | .mark which => do
    let b ← asserted (b.mark which)
    return (.nothing, b, d)
  | .clear which => do
    let b ← asserted (b.clear which)
    return (.nothing, b, d)
  | .test which => do
    let value ← asserted (b.test which)
    return (.bool value, b, d)
  | .find => .ok (.int b.find.1, b.find.2, d)
  | .numClear => .ok (.int b.numClear, b, d)
  | .reload file words buffer => do
    let d ← b.writeBack file d buffer
    let b ← (new b.numBits words).fetchFrom file d
    return (.nothing, b, d)

/-- A sequence of operations, with their answers. -/
def performAll (b : BitMap) (d : Disk) : List Op → Except Stop (List Answer × BitMap × Disk)
  | [] => .ok ([], b, d)
  | op :: ops => do
    let r ← b.perform d op
    let rs ← performAll r.2.1 r.2.2 ops
    return (r.1 :: rs.1, rs.2)

/-- The index is one of the map, and the file is one of the disk. -/
def Op.InRange (n : Nat) : Op → Prop
  | .mark which | .clear which | .test which => 0 ≤ which ∧ which < n
  | .find | .numClear => True
  | .reload file _ _ => ∃ ss, file.Laid ss file.hdr.numBytes.toNat

/-- The bits an operation is about: for `find` the one it answers with, and for a bitmap that comes
    back from a file those that the file has no room for. -/
def Op.Touches (answer : Answer) (j : Nat) : Op → Prop
  | .mark which | .clear which => which = j
  | .test _ | .numClear => False
  | .find => answer = .int j
  | .reload file _ _ => 8 * file.hdr.numBytes.toNat ≤ j

/-! ## The set -/

/-- The numbers below `n` that are not in the set. -/
def absent (n : Nat) (s : Finset Nat) : Finset Nat := Finset.range n \ s

def Op.result (n : Nat) (s : Finset Nat) : Op → Answer × Finset Nat
  | .mark which => (.nothing, insert which.toNat s)
  | .clear which => (.nothing, s.erase which.toNat)
  | .test which => (.bool (which.toNat ∈ s), s)
  | .find =>
    if h : (absent n s).Nonempty then (.int ((absent n s).min' h), insert ((absent n s).min' h) s) else (.int (-1), s)
  | .numClear => (.int (absent n s).card, s)
  | .reload file _ _ =>
    let room := 8 * file.hdr.numBytes.toNat
    (.nothing, if n ≤ room then s else s.filter (· < room))

def Op.results (n : Nat) (s : Finset Nat) : List Op → List Answer × Finset Nat
  | [] => ([], s)
  | op :: ops => ((op.result n s).1 :: (results n (op.result n s).2 ops).1, (results n (op.result n s).2 ops).2)

/-- The marked bits are the elements of the set. -/
structure Represents (b : BitMap) (n : Nat) (s : Finset Nat) : Prop where
  size : b.numBits = n
  below : ∀ i ∈ s, i < n
  bits : ∀ i < n, b.bit i = true ↔ i ∈ s

section

variable {b : BitMap} {n : Nat} {s : Finset Nat} (h : b.Represents n s)
include h

theorem Represents.mem_clearBits (i : Nat) : i ∈ b.clearBits ↔ i ∈ absent n s := by
  rw [BitMap.mem_clearBits, h.size, absent, Finset.mem_sdiff, Finset.mem_range]
  refine and_congr_right fun hi => ?_
  rw [← h.bits i hi, Bool.not_eq_true]

theorem Represents.numClear : b.numClear = (absent n s).card := by
  have hs : b.clearBits.toFinset = absent n s := by
    ext i
    rw [mem_toFinset, h.mem_clearBits]
  rw [numClear_eq, ← hs, toFinset_card_of_nodup b.clearBits_nodup]

theorem Represents.first {r : List Nat} (hc : b.clearBits = i :: r) :
    ∃ hne : (absent n s).Nonempty, (absent n s).min' hne = i := by
  have hm : i ∈ absent n s := (h.mem_clearBits i).mp (hc ▸ mem_cons_self)
  refine ⟨⟨i, hm⟩, Nat.le_antisymm (Finset.min'_le _ _ hm) (Finset.le_min' _ _ _ ?_)⟩
  intro j hj
  have hj : j ∈ i :: r := hc ▸ (h.mem_clearBits j).mpr hj
  rcases mem_cons.mp hj with rfl | hj
  · exact Nat.le_refl _
  · exact Nat.le_of_lt ((pairwise_cons.mp (hc ▸ b.clearBits_sorted)).1 j hj)

theorem Represents.mark (hi : i < n) : (b.markBit i).Represents n (insert i s) where
  size := h.size
  below j hj := by
    rcases Finset.mem_insert.mp hj with rfl | hj
    · exact hi
    · exact h.below j hj
  bits j hj := by
    rw [bit_markBit b (by rw [h.size]; exact hi), Bool.or_eq_true, decide_eq_true_eq, h.bits j hj, Finset.mem_insert, eq_comm]

theorem Represents.clear (hi : i < n) : (b.clearBit i).Represents n (s.erase i) where
  size := h.size
  below j hj := h.below j (Finset.mem_of_mem_erase hj)
  bits j hj := by
    rw [bit_clearBit b (by rw [h.size]; exact hi), Bool.and_eq_true, Bool.not_eq_true', decide_eq_false_iff_not, h.bits j hj,
      Finset.mem_erase, ne_comm]

/-- With or without room for all of it, what stays is what the file has room for. -/
theorem Represents.reload (file : OnDisk.OpenFile) (words : Nat → BitVec 32) (buffer : Nat → Byte) :
    Op.result n s (.reload file words buffer) = (.nothing, s.filter (· < 8 * file.hdr.numBytes.toNat)) := by
  rw [Op.result]
  split
  · rename_i hr
    rw [Finset.filter_true_of_mem fun i hi => Nat.lt_of_lt_of_le (h.below i hi) hr]
  · rfl

end

theorem represents_new (n : Nat) (words : Nat → BitVec 32) : (new n words).Represents n ∅ where
  size := numBits_new n words
  below i hi := absurd hi (Finset.notMem_empty i)
  bits i hi := by simp [bit_new n words hi]

/-! ## The operations on either -/

theorem Represents.inRange {b : BitMap} {n : Nat} {s : Finset Nat} (h : b.Represents n s) {which : Int}
    (hw : 0 ≤ which ∧ which < n) : b.inRange which = true ∧ which.toNat < n := by
  refine ⟨?_, by omega⟩
  rw [BitMap.inRange, h.size, Bool.and_eq_true, decide_eq_true_eq, decide_eq_true_eq]
  exact hw

/-- One operation answers as the set does, and changes no other bit. -/
theorem Represents.perform {b : BitMap} {n : Nat} {s : Finset Nat} (h : b.Represents n s) (hint : n ≤ 2147483647) (d : Disk)
    {op : Op} (hop : op.InRange n) : ∃ b' d', b.perform d op = .ok ((op.result n s).1, b', d') ∧
      b'.Represents n (op.result n s).2 ∧ ∀ j, ¬ op.Touches (op.result n s).1 j → b'.bit j = b.bit j := by
  cases op with
  | mark which =>
    obtain ⟨hin, hlt⟩ := h.inRange hop
    refine ⟨b.markBit which.toNat, d, ?_, h.mark hlt, ?_⟩
    · rw [BitMap.perform, BitMap.mark, if_pos hin]
      rfl
    · intro j hj
      have hne : which.toNat ≠ j := fun e => hj (by rw [← e]; exact (Int.toNat_of_nonneg hop.1).symm)
      rw [bit_markBit b (by rw [h.size]; exact hlt), decide_eq_false hne, Bool.false_or]
  | clear which =>
    obtain ⟨hin, hlt⟩ := h.inRange hop
    refine ⟨b.clearBit which.toNat, d, ?_, h.clear hlt, ?_⟩
    · rw [BitMap.perform, BitMap.clear, if_pos hin]
      rfl
    · intro j hj
      have hne : which.toNat ≠ j := fun e => hj (by rw [← e]; exact (Int.toNat_of_nonneg hop.1).symm)
      rw [bit_clearBit b (by rw [h.size]; exact hlt), decide_eq_false hne, Bool.not_false, Bool.true_and]
  | test which =>
    obtain ⟨hin, hlt⟩ := h.inRange hop
    refine ⟨b, d, ?_, h, fun _ _ => rfl⟩
    have hb : b.bit which.toNat = decide (which.toNat ∈ s) := by
      rw [Bool.eq_iff_iff, decide_eq_true_eq]
      exact h.bits _ hlt
    rw [BitMap.perform, BitMap.test, if_pos hin, hb]
    rfl
  | find =>
    cases hc : b.clearBits with
    | nil =>
      have hn : ¬ (absent n s).Nonempty := by
        rintro ⟨i, hi⟩
        have := (h.mem_clearBits i).mpr hi
        rw [hc] at this
        cases this
      refine ⟨b, d, ?_, ?_, fun _ _ => rfl⟩
      · rw [BitMap.perform, find_nil b hc, Op.result, dif_neg hn]
      · rw [Op.result, dif_neg hn]
        exact h
    | cons i r =>
      obtain ⟨hne, hm⟩ := h.first hc
      have hi : i < n := by
        rw [← h.size]
        exact ((BitMap.mem_clearBits b i).mp (hc ▸ mem_cons_self)).1
      have hrs : Op.result n s .find = (.int i, insert i s) := by rw [Op.result, dif_pos hne, hm]
      rw [hrs]
      refine ⟨b.markBit i, d, ?_, h.mark hi, ?_⟩
      · rw [BitMap.perform, find_cons b hc]
      · intro j hj
        have hne : i ≠ j := fun e => hj (by rw [e]; rfl)
        rw [bit_markBit b (by rw [h.size]; exact hi), decide_eq_false hne, Bool.false_or]
  | numClear =>
    refine ⟨b, d, ?_, h, fun _ _ => rfl⟩
    rw [BitMap.perform, h.numClear]
    rfl
  | reload file words buffer =>
    obtain ⟨ss, hfile⟩ := hop
    obtain ⟨d', b', hw, hf, hs, hk, hls⟩ := reload_ok hfile (by rw [h.size]; exact hint) d buffer words
    rw [h.reload file words buffer]
    refine ⟨b', d', ?_, ⟨hs.trans h.size, ?_, ?_⟩, ?_⟩
    · rw [BitMap.perform, hw]
      show ((new b.numBits words).fetchFrom file d' >>= _) = _
      rw [hf]
      rfl
    · intro i hi
      exact h.below i (Finset.mem_filter.mp hi).1
    · intro i hi
      rw [Finset.mem_filter]
      rcases Nat.lt_or_ge i (8 * file.hdr.numBytes.toNat) with hr | hl
      · rw [hk i hr, h.bits i hi]
        exact (and_iff_left hr).symm
      · rw [hls i (by rw [h.size]; exact hi) hl]
        simp only [Bool.false_eq_true, false_iff, not_and, Nat.not_lt]
        exact fun _ => hl
    · intro j hj
      exact hk j (Nat.lt_of_not_le hj)

theorem Represents.performAll (n : Nat) (hint : n ≤ 2147483647) (ops : List Op) : ∀ {b : BitMap} {s : Finset Nat} (d : Disk),
    b.Represents n s → (∀ op ∈ ops, op.InRange n) →
    ∃ b' d', b.performAll d ops = .ok ((Op.results n s ops).1, b', d') ∧ b'.Represents n (Op.results n s ops).2 := by
  induction ops with
  | nil => intro b s d h _; exact ⟨b, d, rfl, h⟩
  | cons op ops ih =>
    intro b s d h ho
    obtain ⟨b1, d1, hon, h1, -⟩ := h.perform hint d (ho op mem_cons_self)
    obtain ⟨b', d', hr, h'⟩ := ih d1 h1 fun op hop => ho op (mem_cons_of_mem _ hop)
    refine ⟨b', d', ?_, h'⟩
    rw [BitMap.performAll, hon]
    show (b1.performAll d1 ops >>= _) = _
    rw [hr]
    rfl

/-- A bitmap is a set: whatever the memory held, every sequence of operations answers as it does on a
    set that is empty at the start, and from there each further operation changes no bit but its own. -/
theorem bitMap_refines_set {n : Nat} (hint : n ≤ 2147483647) (words : Nat → BitVec 32) (d : Disk) {ops : List Op}
    (hops : ∀ op ∈ ops, op.InRange n) :
    ∃ b d', (new n words).performAll d ops = .ok ((Op.results n ∅ ops).1, b, d') ∧ b.Represents n (Op.results n ∅ ops).2 ∧
      ∀ op answer b' d'', op.InRange n → b.perform d' op = .ok (answer, b', d'') →
        ∀ j, ¬ op.Touches answer j → b'.bit j = b.bit j := by
  obtain ⟨b, d', hall, h⟩ := Represents.performAll n hint ops d (represents_new n words) hops
  refine ⟨b, d', hall, h, ?_⟩
  intro op answer b' d'' hop hperform j hj
  obtain ⟨b₁, d₁, hone, -, hframe⟩ := h.perform hint d' hop
  rw [hone] at hperform
  cases hperform
  exact hframe j hj

/-- A file of two words, in sector 7. -/
def twoWords : OnDisk.OpenFile := ⟨⟨8, 1, 7 :: List.replicate (numDirect - 1) 0, by simp⟩, 0⟩

theorem twoWords_laid : twoWords.Laid [7] 8 := OnDisk.OpenFile.OneSector.laid ⟨rfl, rfl, by decide, by decide, by decide⟩

/-- Bits 31 and 32 are in different words. -/
theorem set_of_33 : ∃ b d', (new 33 fun _ => BitVec.allOnes 32).performAll (fun _ => .garbage fun _ => 255)
      [.mark 31, .mark 32, .find, .reload twoWords (fun _ => BitVec.allOnes 32) (fun _ => 0), .clear 31, .test 32, .numClear] =
    .ok ([.nothing, .nothing, .int 0, .nothing, .nothing, .bool true, .int 31], b, d') ∧ b.Represents 33 {0, 32} := by
  have hops : ∀ op ∈ [Op.mark 31, .mark 32, .find, .reload twoWords (fun _ => BitVec.allOnes 32) (fun _ => 0), .clear 31, .test 32,
      .numClear], op.InRange 33 := by
    intro op hop
    simp only [List.mem_cons, List.not_mem_nil, or_false] at hop
    rcases hop with rfl | rfl | rfl | rfl | rfl | rfl | rfl
    · exact ⟨by decide, by decide⟩
    · exact ⟨by decide, by decide⟩
    · trivial
    · exact ⟨_, twoWords_laid⟩
    · exact ⟨by decide, by decide⟩
    · exact ⟨by decide, by decide⟩
    · trivial
  obtain ⟨b, d', hall, hrep, -⟩ := bitMap_refines_set (by decide) (fun _ => BitVec.allOnes 32) (fun _ => .garbage fun _ => 255) hops
  exact ⟨b, d', hall, hrep⟩

end Nachos.BitMap

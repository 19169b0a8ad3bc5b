/-
  Nachos.Userprog.Copying — what the copy loops of the `AddrSpace` constructors store.

  - `mem_copyPages`: page `i` of a segment goes to `virtualAddr` bytes past the start of the
    frame of virtual page `i`, not to the page the segment's address is in.
  - `mem_copySegment`: the same for a whole segment (`Lands`), for a file position that
    does not wrap.
  - `readByte_fresh`: a virtual address of a new page table, translated.
-/

import Mathlib.Data.List.Nodup
import Mathlib.Data.List.Perm.Subperm
import Nachos.Lib.Stores
import Nachos.Userprog.AddrSpace

namespace Nachos

open Nachos.Lib List BitVec

/-! ## One loop -/

variable {b : Byte} {i : Nat} {p : Int} {seg : Segment} {f : OpenFile}

theorem mem_placed {e : TranslationEntry} {pos : Nat} {x : Int} :
    (x, b) ∈ placed seg e ((f.content.drop pos).take pageSize) ↔
      ∃ k < pageSize, x = seg.virtualAddr.toInt + e.physicalPage * pageSize + k ∧ f.content[pos + k]? = some b := by
  simp only [placed, mem_iff_getElem?, getElem?_mapIdx, getElem?_take, getElem?_drop]
  constructor
  · intro h'
    obtain ⟨k, hk⟩ := h'
    split at hk
    · rename_i hlt
      obtain ⟨c, hc, he⟩ := Option.map_eq_some_iff.mp hk
      cases he
      exact ⟨k, hlt, rfl, hc⟩
    · cases hk
  · intro h'
    obtain ⟨k, hlt, rfl, hc⟩ := h'
    exact ⟨k, by rw [if_pos hlt, hc]; rfl⟩

theorem copyPages_stop (h : (seg.position i).slt 0 = true) (e : TranslationEntry)
    (es : List TranslationEntry) : copyPages f seg i (e :: es) = ([], false) := by
  simp only [copyPages, OpenFile.readAt, h, if_true]

theorem copyPages_cons (h : (seg.position i).slt 0 = false) (e : TranslationEntry)
    (es : List TranslationEntry) : copyPages f seg i (e :: es) =
      (placed seg e ((f.content.drop (seg.position i).toNat).take pageSize) ++ (copyPages f seg (i + 1) es).1,
        (copyPages f seg (i + 1) es).2) := by
  simp only [copyPages, OpenFile.readAt, h, Bool.false_eq_true, if_false]

/-- The stores of a copy loop from page `i` on: page `j` of it is stored if no `Lseek` up
    to it fails its ASSERT. -/
theorem mem_copyPages (f : OpenFile) (seg : Segment) : ∀ (table : List TranslationEntry) (i : Nat) {x : Int} {b : Byte},
    (x, b) ∈ (copyPages f seg i table).1 ↔
      ∃ j e, table[j]? = some e ∧ (∀ j' ≤ j, (seg.position (i + j')).slt 0 = false) ∧
        ∃ k < pageSize, x = seg.virtualAddr.toInt + e.physicalPage * pageSize + k ∧
          f.content[(seg.position (i + j)).toNat + k]? = some b := by
  intro table
  induction table with
  | nil => intro i x b; simp [copyPages]
  | cons e es ih =>
    intro i x b
    cases hs : (seg.position i).slt 0 with
    | true =>
      rw [copyPages_stop hs]
      constructor
      · intro h; cases h
      intro h'
      obtain ⟨j, e', _, hsk, _⟩ := h'
      have := hsk 0 (Nat.zero_le j)
      rw [Nat.add_zero, hs] at this
      cases this
    | false =>
      rw [copyPages_cons hs, mem_append, mem_placed, ih (i + 1)]
      constructor
      · intro h'
        rcases h' with h | ⟨j, e', he, hsk, h⟩
        · refine ⟨0, e, rfl, fun j' hj' => ?_, h⟩
          obtain rfl : j' = 0 := by omega
          exact hs
        · refine ⟨j + 1, e', he, fun j' hj' => ?_, ?_⟩
          · cases j' with
            | zero => exact hs
            | succ j' =>
              have := hsk j' (by omega)
              rwa [Nat.add_assoc, Nat.add_comm 1 j'] at this
          · rwa [Nat.add_assoc, Nat.add_comm 1 j] at h
      · intro h'
        obtain ⟨j, e', he, hsk, h⟩ := h'
        cases j with
        | zero => cases he; exact .inl h
        | succ j =>
          refine .inr ⟨j, e', he, fun j' hj' => ?_, ?_⟩
          · rw [Nat.add_assoc, Nat.add_comm 1 j']
            exact hsk (j' + 1) (by omega)
          · rwa [Nat.add_assoc, Nat.add_comm 1 j]

theorem copyPages_ok (f : OpenFile) (seg : Segment) : ∀ (table : List TranslationEntry) (i : Nat),
    (copyPages f seg i table).2 = true ↔ ∀ j < table.length, (seg.position (i + j)).slt 0 = false := by
  intro table
  induction table with
  | nil => intro i; simp [copyPages]
  | cons e es ih =>
    intro i
    cases hs : (seg.position i).slt 0 with
    | true =>
      rw [copyPages_stop hs]
      constructor
      · intro h; cases h
      intro h
      have := h 0 (by simp)
      rw [Nat.add_zero, hs] at this
      cases this
    | false =>
      rw [copyPages_cons hs, ih (i + 1), length_cons]
      constructor
      · intro h j hj
        cases j with
        | zero => exact hs
        | succ j =>
          have := h j (by omega)
          rwa [Nat.add_assoc, Nat.add_comm 1 j] at this
      · intro h j hj
        rw [Nat.add_assoc, Nat.add_comm 1 j]
        exact h (j + 1) (by omega)

/-! ## A segment -/

/-- The copy loop of `seg` is meant to put byte `off` of the file at physical index `p`. -/
def Lands (seg : Segment) (frames : List Nat) (p : Int) (off : Nat) : Prop :=
  ∃ i fr : Nat, frames[i]? = some fr ∧ ∃ k < pageSize,
    p = seg.virtualAddr.toInt + fr * pageSize + k ∧ off = seg.inFileAddr.toNat + i * pageSize + k

/-- None of the positions the copy loop of `seg` seeks in `n` pages is negative as an `int`. -/
def Segment.SeeksOk (seg : Segment) (n : Nat) : Prop :=
  0 < seg.size.toInt → ∀ i < n, (seg.position i).toNat < 2 ^ 31

theorem slt_zero (w : Word) : w.slt 0 = decide (2 ^ 31 ≤ w.toNat) := by
  rw [show (0 : Word) = 0#32 from rfl, slt_zero_eq_msb, msb_eq_decide]

theorem zero_slt (w : Word) : BitVec.slt 0 w = decide (0 < w.toInt) := by
  rw [slt_eq_decide]; rfl

theorem position_toNat (h : seg.inFileAddr.toNat < 2 ^ 31) (hi : i < 2 ^ 20) :
    (seg.position i).toNat = seg.inFileAddr.toNat + i * pageSize := by
  rw [Segment.position, toNat_add, toNat_ofNat]
  unfold pageSize
  omega

/-- Different bytes of the file go to different places. -/
theorem Lands.unique {frames : List Nat} (hn : frames.Nodup) {off off' : Nat}
    (h : Lands seg frames p off) (h' : Lands seg frames p off') : off = off' := by
  obtain ⟨i, fr, hi, k, hk, rfl, rfl⟩ := h
  obtain ⟨i', fr', hi', k', hk', he, rfl⟩ := h'
  unfold pageSize at *
  obtain rfl : k = k' := by omega
  obtain rfl : fr = fr' := by omega
  obtain ⟨hlt, hg⟩ := List.getElem?_eq_some_iff.mp hi
  obtain ⟨hl', hg'⟩ := List.getElem?_eq_some_iff.mp hi'
  obtain rfl : i = i' := (List.Nodup.getElem_inj_iff hn).mp (hg.trans hg'.symm)
  rfl

section
variable {f : OpenFile} {seg : Segment} {table : List TranslationEntry} {frames : List Nat}

theorem physicalPage_of_frames (ht : table.map (·.physicalPage) = frames.map Int.ofNat) (i : Nat) :
    (table[i]?).map (·.physicalPage) = (frames[i]?).map Int.ofNat := by
  rw [← getElem?_map, ht, getElem?_map]

theorem mem_copySegment (ht : table.map (·.physicalPage) = frames.map Int.ofNat) (hl : frames.length < 2 ^ 20)
    (hps : 0 < seg.size.toInt → seg.inFileAddr.toNat < 2 ^ 31) : (p, b) ∈ (copySegment f seg table).1 ↔
      0 < seg.size.toInt ∧ ∃ off, Lands seg frames p off ∧ f.content[off]? = some b := by
  unfold copySegment
  rw [zero_slt]
  by_cases hs : 0 < seg.size.toInt
  · rw [if_pos (by simpa using hs), mem_copyPages]
    simp only [Nat.zero_add, hs, true_and]
    constructor
    · intro h'
      obtain ⟨i, e, he, -, k, hk, rfl, hb⟩ := h'
      have hfr := physicalPage_of_frames ht i
      rw [he, Option.map_some] at hfr
      obtain ⟨fr, hf, hp⟩ := Option.map_eq_some_iff.mp hfr.symm
      have hi : i < 2 ^ 20 := Nat.lt_trans (List.getElem?_eq_some_iff.mp hf).1 hl
      refine ⟨_, ⟨i, fr, hf, k, hk, by rw [← hp]; rfl, rfl⟩, ?_⟩
      rwa [position_toNat (hps hs) hi] at hb
    · intro h'
      obtain ⟨_, ⟨i, fr, hf, k, hk, rfl, rfl⟩, hb⟩ := h'
      have hi : i < 2 ^ 20 := Nat.lt_trans (List.getElem?_eq_some_iff.mp hf).1 hl
      have hfr := physicalPage_of_frames ht i
      rw [hf, Option.map_some] at hfr
      obtain ⟨e, he, hp⟩ := Option.map_eq_some_iff.mp hfr
      refine ⟨i, e, he, fun j hj => ?_, k, hk, by rw [hp]; rfl, by rwa [position_toNat (hps hs) hi]⟩
      -- a byte of the file is read, so no position up to here exceeds an int
      have hsh := f.short
      have ho := (List.getElem?_eq_some_iff.mp hb).1
      rw [slt_zero, position_toNat (hps hs) (by omega)]
      unfold pageSize at *
      simp
      omega
  · rw [if_neg (by simpa using hs)]
    simp [hs]

theorem copySegment_ok : (copySegment f seg table).2 = true ↔ seg.SeeksOk table.length := by
  unfold copySegment Segment.SeeksOk
  rw [zero_slt]
  by_cases hs : 0 < seg.size.toInt
  · rw [if_pos (by simpa using hs), copyPages_ok]
    simp only [hs, true_imp_iff, Nat.zero_add]
    refine forall_congr' fun i => imp_congr_right fun _ => ?_
    rw [slt_zero]
    simp
  · rw [if_neg (by simpa using hs)]
    simp [hs]

end

/-! ## A new page table -/

/-- The byte a program reads at virtual address `va`, if the access does not trap. -/
def AddrSpace.readByte (s : AddrSpace) (mem : Memory) (va : Nat) : Option Byte :=
  let m : Machine :=
    { registers := fun _ => 0, mainMemory := mem, tlb := none, pageTable := some s.pageTable, pageTableSize := s.numPages }
  match m.translate (BitVec.ofNat 32 va) 1 false with
  | .ok physAddr m => some (m.mainMemory physAddr)
  | _ => none

/-- The physical address of virtual address `va`, page `i` being in frame `frames[i]`. -/
def physAddr (frames : List Nat) (va : Nat) : Nat := frames.getD (va / pageSize) 0 * pageSize + va % pageSize

/-- Frames below `numPhysPages` are at most that many. -/
theorem length_le_numPhysPages {frames : List Nat} (hn : frames.Nodup) (hl : ∀ fr ∈ frames, fr < numPhysPages) :
    frames.length ≤ numPhysPages := by
  have hs : frames ⊆ List.range numPhysPages := fun fr hfr => mem_range.mpr (hl fr hfr)
  simpa using (hn.subperm hs).length_le

theorem frame_freshEntry {fr : Nat} (h : fr < numPhysPages) : (freshEntry i fr).frame = fr := by
  unfold numPhysPages at h
  simp only [TranslationEntry.frame, freshEntry, ofInt_natCast, toNat_ofNat]
  omega

theorem readByte_fresh {bm : BitMap} {n : Nat} (hn : n ≤ bm.clearBits.length)
    (hlw : ∀ fr ∈ bm.clearBits.take n, fr < numPhysPages) (mem : Memory) {va : Nat} (hva : va < n * pageSize) :
    AddrSpace.readByte { pageTable := (allocate 0 n bm).1, numPages := n } mem va =
      some (mem (physAddr (bm.clearBits.take n) va)) := by
  have hln : (bm.clearBits.take n).length = n := by rw [List.length_take]; omega
  have hm := length_le_numPhysPages (bm.clearBits_nodup.sublist (take_sublist n _)) hlw
  rw [hln] at hm
  have hp : va / pageSize < n := Nat.div_lt_of_lt_mul (by rwa [Nat.mul_comm])
  have hv' : (BitVec.ofNat 32 va).toNat = va := by
    rw [toNat_ofNat]
    unfold pageSize numPhysPages at *
    omega
  obtain ⟨fr, hfr⟩ : ∃ fr, (bm.clearBits.take n)[va / pageSize]? = some fr :=
    ⟨_, List.getElem?_eq_getElem (by rw [hln]; exact hp)⟩
  have hf := hlw fr (mem_of_getElem? hfr)
  have he : (allocate 0 n bm).1[va / pageSize]? = some (freshEntry (va / pageSize) fr) := by
    rw [(allocate_eq n 0 bm hn).1, getElem?_mapIdx, hfr]
    simp
  have hph : physAddr (bm.clearBits.take n) va = fr * pageSize + va % pageSize := by
    rw [physAddr, getD_eq_getElem?_getD, hfr]
    rfl
  have hft : fr * pageSize + va % pageSize + 1 ≤ memorySize := by
    unfold memorySize numPhysPages pageSize at *
    omega
  have hl : ∀ m : Machine, m.tlb = none → m.pageTable = some (allocate 0 n bm).1 → m.pageTableSize = n →
      m.lookup (va / pageSize) = .found (va / pageSize) (freshEntry (va / pageSize) fr) := by
    intro m h1 h2 h3
    simp only [Machine.lookup, h1, h2, h3, he]
    rw [if_neg (by omega)]
    rfl
  simp only [AddrSpace.readByte, Machine.translate, hv', hph]
  rw [hl _ rfl rfl rfl]
  simp only [frame_freshEntry hf]
  rw [if_neg (by simp), if_neg (by simp [freshEntry]), if_neg (by omega), if_pos hft]
  rfl

end Nachos

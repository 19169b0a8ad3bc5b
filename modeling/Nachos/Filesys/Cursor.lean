/-
  Nachos.Filesys.Cursor — the calls of an `OpenFile`, and the open file of the real file system
  as an array of bytes with a cursor.

  `array` is what a laid-out file stands for: its bytes in the order of its sectors, cut at its
  length, and `seekPosition`. One call moves the array as `Lib.Cursor` says, wherever the
  transfer starts and ends in its sectors (`Laid.call`), and so does a sequence of calls
  (`Laid.calls`); a transfer in chunks is the transfer.
-/

import Mathlib.Algebra.Order.BigOperators.Group.List
import Mathlib.Algebra.Order.Group.Nat
import Mathlib.Data.BitVec
import Nachos.Filesys.OpenFile
import Nachos.Lib.Cursor

namespace Nachos

open Lib List
open Cursor (moved moved_eq)
open BitVec (ofNat)

/-! ## Calls -/

/-- The operations of an `OpenFile`; `data` is the memory a write is given. -/
inductive FileOp where
  | seek (position : Word)
  | read (numBytes : Word)
  | write (data : List Byte) (numBytes : Word)
  | readAt (numBytes position : Word)
  | writeAt (data : List Byte) (numBytes position : Word)
  | length
  | getCurrentPos

namespace FileOp

def onArray : FileOp → Lib.Cursor.Call Byte
  | seek p => .seek p.toNat
  | read n => .read n.toInt
  | write data n => .write data n.toInt
  | readAt n p => .readAt n.toInt p.toNat
  | writeAt data n p => .writeAt data n.toInt p.toNat
  | length => .length
  | getCurrentPos => .getCurrentPos

def writes : FileOp → Bool
  | write _ _ => true
  | writeAt _ _ _ => true
  | _ => false

/-- Positions are not negative, the end of a transfer is an `int`, and a write is given the
    bytes it asks for. -/
def InRange (pos : Nat) : FileOp → Prop
  | seek p => 0 ≤ p.toInt
  | read n => pos + n.toInt ≤ 2147483647
  | write data n => pos + n.toInt ≤ 2147483647 ∧ n.toInt ≤ data.length
  | readAt n p => 0 ≤ p.toInt ∧ p.toInt + n.toInt ≤ 2147483647
  | writeAt data n p => (0 ≤ p.toInt ∧ p.toInt + n.toInt ≤ 2147483647) ∧ n.toInt ≤ data.length
  | length => True
  | getCurrentPos => True

/-- What a call needs of the code: a read past the end may ask for any number of bytes. -/
def Served (c : Lib.Cursor Byte) : FileOp → Prop
  | read n => c.pos < c.elems.length → c.pos + n.toInt ≤ 2147483647
  | readAt n p => 0 ≤ p.toInt ∧ (p.toNat < c.elems.length → p.toInt + n.toInt ≤ 2147483647)
  | op => op.InRange c.pos

theorem InRange.served {c : Cursor Byte} {op : FileOp} (h : op.InRange c.pos) : op.Served c := by
  cases op with
  | read n => exact fun _ => h
  | readAt n p => exact ⟨h.1, fun _ => h.2⟩
  | seek p => exact h
  | write data n => exact h
  | writeAt data n p => exact h
  | length => trivial
  | getCurrentPos => trivial

/-- Each call of the sequence is in range where the array stands. -/
def AllInRange (c : Lib.Cursor Byte) : List FileOp → Prop
  | [] => True
  | op :: ops => op.InRange c.pos ∧ AllInRange (c.call op.onArray).2 ops

instance (pos : Nat) : (op : FileOp) → Decidable (op.InRange pos)
  | seek _ => inferInstanceAs (Decidable (_ ≤ _))
  | read _ => inferInstanceAs (Decidable (_ ≤ _))
  | write _ _ => inferInstanceAs (Decidable (_ ∧ _))
  | readAt _ _ => inferInstanceAs (Decidable (_ ∧ _))
  | writeAt _ _ _ => inferInstanceAs (Decidable ((_ ∧ _) ∧ _))
  | length => inferInstanceAs (Decidable True)
  | getCurrentPos => inferInstanceAs (Decidable True)

instance decidableAllInRange : (c : Lib.Cursor Byte) → (ops : List FileOp) → Decidable (AllInRange c ops)
  | _, [] => inferInstanceAs (Decidable True)
  | c, op :: ops =>
    have := decidableAllInRange (c.call op.onArray).2 ops
    inferInstanceAs (Decidable (_ ∧ _))

end FileOp

/-- What the array answers, as the code returns it. -/
def answerWord (a : Nat × List Byte) : Word × List Byte := (BitVec.ofNat 32 a.1, a.2)

namespace OnDisk.OpenFile

/-- What a call returns, and the file and the disk after it; `Seek` returns nothing. -/
def call (f : OpenFile) (d : Disk) (g : Nat → Byte) : FileOp → Except Stop ((Word × List Byte) × OpenFile × Disk)
  | .seek p => .ok ((0, []), f.seek p, d)
  | .read n => do
    let (k, into, f) ← f.read d n
    return ((k, into), f, d)
  | .write data n => do
    let (k, d, f) ← f.write d g data n
    return ((k, []), f, d)
  | .readAt n p => do
    let (k, into) ← f.readAt d n p
    return ((k, into), f, d)
  | .writeAt data n p => do
    let (k, d) ← f.writeAt d g data n p
    return ((k, []), f, d)
  | .length => .ok ((f.length, []), f, d)
  | .getCurrentPos => .ok ((f.getCurrentPos, []), f, d)

/-- The calls in sequence; `g i` is what the `i`-th of them finds in new memory. -/
def calls (f : OpenFile) (d : Disk) (g : Nat → Nat → Byte) :
    List FileOp → Except Stop (List (Word × List Byte) × OpenFile × Disk)
  | [] => .ok ([], f, d)
  | op :: ops => do
    let (a, f, d) ← f.call d (g 0) op
    let (as, f, d) ← f.calls d (fun i => g (i + 1)) ops
    return (a :: as, f, d)

/-- The array the file stands for, if it is laid out in `ss`. -/
def array (f : OpenFile) (d : Disk) (ss : List Nat) (n : Nat) : Lib.Cursor Byte := ⟨(sectorBytes d ss).take n, f.seekPosition.toNat⟩

/-! ## One call -/

namespace Laid

variable {f : OpenFile} {ss : List Nat} {n : Nat} (h : f.Laid ss n) (d : Disk) {numBytes p : Word}

include h in
theorem same_header {f' : OpenFile} (hf : f'.hdr = f.hdr) : f'.Laid ss n :=
  ⟨hf ▸ h.length, hf ▸ h.sectors, h.fits, h.distinct, h.range⟩

include h in
theorem length_array : (f.array d ss n).elems.length = n := by
  have hf := h.fits
  rw [array, List.length_take, length_sectorBytes]
  omega

include h in
theorem readAt_past (hp : 0 ≤ p.toInt) (hpa : n ≤ p.toNat) : f.readAt d numBytes p = .ok (0, []) := by
  have hs := h.small
  have hps := toInt_of_nonneg hp
  have hle : f.length.sle p = true := by
    rw [OpenFile.length, h.length, BitVec.sle_iff_toInt_le, ofNat_toInt (by omega)]
    omega
  rw [OpenFile.readAt, OpenFile.request, if_pos (.inr hle)]

include h in
theorem readAt_array (hp : 0 ≤ p.toInt) (he : p.toNat < n → p.toInt + numBytes.toInt ≤ 2147483647) :
    f.readAt d numBytes p =
      .ok (answerWord (moved n numBytes.toInt p.toNat, (f.array d ss n).readAt numBytes.toInt p.toNat)) := by
  have hpo := toInt_of_nonneg hp
  have hlt := p.toInt_lt
  have hm := moved_eq n numBytes.toInt p.toNat
  rw [answerWord, Cursor.readAt, h.length_array]
  rcases Nat.lt_or_ge p.toNat n with hin | hps
  · have hr := h.readAt d (show p.toNat + numBytes.toInt.toNat ≤ 2147483647 by have := he hin; omega)
    rw [ofNat_word, ← hm] at hr
    rw [hr, array, drop_take, take_take, Nat.min_eq_left (by omega)]
  · rw [h.readAt_past d hp hps, show moved n numBytes.toInt p.toNat = 0 by omega, take_zero]
    rfl

include h in
theorem writeAt_array (g : Nat → Byte) {data : List Byte} (hp : 0 ≤ p.toInt)
    (he : p.toInt + numBytes.toInt ≤ 2147483647) (hd : numBytes.toInt ≤ data.length) :
    ∃ d', f.writeAt d g data numBytes p = .ok (ofNat 32 (moved n numBytes.toInt p.toNat), d') ∧
      f.array d' ss n = (f.array d ss n).writeAt data numBytes.toInt p.toNat ∧ ∀ s, s ∉ ss → d' s = d s := by
  have hps := toInt_of_nonneg hp
  have hlt := p.toInt_lt
  have hm := moved_eq n numBytes.toInt p.toNat
  obtain ⟨d', hw, ho, hb⟩ := h.writeAt d g (show p.toNat + numBytes.toInt.toNat ≤ 2147483647 by omega)
    (show min numBytes.toInt.toNat (n - p.toNat) ≤ data.length by omega)
  rw [ofNat_word, ← hm] at hw
  rw [← hm] at hb
  refine ⟨d', hw, ?_, ho⟩
  rw [Cursor.writeAt, h.length_array, array, hb]
  rfl

theorem cursor_moved {q : Word} (hq : 0 ≤ q.toInt) (he : q.toNat < n → q.toNat + numBytes.toInt ≤ 2147483647) :
    (q + ofNat 32 (moved n numBytes.toInt q.toNat)).toNat = q.toNat + moved n numBytes.toInt q.toNat ∧
    0 ≤ (q + ofNat 32 (moved n numBytes.toInt q.toNat)).toInt := by
  have hp := toInt_of_nonneg hq
  have hlt := q.toInt_lt
  have hm := moved_eq n numBytes.toInt q.toNat
  have hn : (q + ofNat 32 (moved n numBytes.toInt q.toNat)).toNat =
      q.toNat + moved n numBytes.toInt q.toNat := by
    rw [BitVec.toNat_add, ofNat_toNat (by omega)]
    exact Nat.mod_eq_of_lt (by omega)
  exact ⟨hn, by rw [toInt_toNat (by omega)]; exact Int.natCast_nonneg _⟩

include h in
theorem call (hq : 0 ≤ f.seekPosition.toInt) (g : Nat → Byte) {op : FileOp} (hop : op.Served (f.array d ss n)) :
    ∃ f' d', f.call d g op = .ok (answerWord ((f.array d ss n).call op.onArray).1, f', d') ∧ f'.hdr = f.hdr ∧
      0 ≤ f'.seekPosition.toInt ∧ f'.array d' ss n = ((f.array d ss n).call op.onArray).2 ∧ ∀ s, s ∉ ss → d' s = d s := by
  have hl := h.length_array d
  have hc := toInt_of_nonneg hq
  cases op with
  | seek p => exact ⟨f.seek p, d, rfl, rfl, hop, rfl, fun _ _ => rfl⟩
  | read numBytes =>
    have hen : f.seekPosition.toNat < n → f.seekPosition.toNat + numBytes.toInt ≤ 2147483647 := fun hlt => hop (hl.symm ▸ hlt)
    obtain ⟨hto, hn⟩ := cursor_moved hq hen
    have hr := h.readAt_array d hq (hc ▸ hen)
    refine ⟨{ f with seekPosition := f.seekPosition + ofNat 32 (moved n numBytes.toInt f.seekPosition.toNat) }, d,
      ?_, rfl, hn, ?_, fun _ _ => rfl⟩
    · simp only [OpenFile.call, OpenFile.read, hr, bind, Except.bind, pure, Except.pure, FileOp.onArray, Cursor.call, hl]
      rfl
    · simp only [array, hto, FileOp.onArray, Cursor.call, Cursor.advance]
      rw [show ((sectorBytes d ss).take n).length = n from hl]
  | write data numBytes =>
    obtain ⟨hto, hn⟩ := cursor_moved hq (n := n) fun _ => hop.1
    obtain ⟨d', hw, ha, ho⟩ := h.writeAt_array d g hq
      (show f.seekPosition.toInt + numBytes.toInt ≤ 2147483647 by rw [hc]; exact hop.1) hop.2
    refine ⟨{ f with seekPosition := f.seekPosition + ofNat 32 (moved n numBytes.toInt f.seekPosition.toNat) }, d',
      ?_, rfl, hn, ?_, ho⟩
    · simp only [OpenFile.call, OpenFile.write, hw, bind, Except.bind, pure, Except.pure, FileOp.onArray, Cursor.call, hl]
      rfl
    have he := congrArg Cursor.elems ha
    simp only [array] at he
    simp only [array, hto, he, FileOp.onArray, Cursor.call, Cursor.advance]
    rw [show ((sectorBytes d ss).take n).length = n from hl]
    rfl
  | readAt numBytes p =>
    have hr := h.readAt_array d hop.1 fun hlt => hop.2 (hl.symm ▸ hlt)
    refine ⟨f, d, ?_, rfl, hq, rfl, fun _ _ => rfl⟩
    simp only [OpenFile.call, hr, bind, Except.bind, pure, Except.pure, FileOp.onArray, Cursor.call, hl]
  | writeAt data numBytes p =>
    obtain ⟨d', hw, ha, ho⟩ := h.writeAt_array d g hop.1.1 hop.1.2 hop.2
    refine ⟨f, d', ?_, rfl, hq, ha, ho⟩
    simp only [OpenFile.call, hw, bind, Except.bind, pure, Except.pure, FileOp.onArray, Cursor.call, hl]
    rfl
  | length =>
    refine ⟨f, d, ?_, rfl, hq, rfl, fun _ _ => rfl⟩
    simp only [OpenFile.call, FileOp.onArray, Cursor.call, hl]
    rw [OpenFile.length, h.length]
    rfl
  | getCurrentPos =>
    refine ⟨f, d, ?_, rfl, hq, rfl, fun _ _ => rfl⟩
    simp only [OpenFile.call, getCurrentPos, FileOp.onArray, Cursor.call, answerWord, array, ofNat_word]

/-! ## Sequences of calls -/

theorem calls (g : Nat → Nat → Byte) {ops : List FileOp} : ∀ {f : OpenFile} {d : Disk}, f.Laid ss n → 0 ≤ f.seekPosition.toInt →
    FileOp.AllInRange (f.array d ss n) ops →
    ∃ f' d', f.calls d g ops = .ok ((((f.array d ss n).calls (ops.map FileOp.onArray)).1.map answerWord), f', d') ∧
      f'.hdr = f.hdr ∧ f'.array d' ss n = ((f.array d ss n).calls (ops.map FileOp.onArray)).2 ∧ ∀ s, s ∉ ss → d' s = d s := by
  induction ops generalizing g with
  | nil => exact fun {f} {d} _ _ _ => ⟨f, d, rfl, rfl, rfl, fun _ _ => rfl⟩
  | cons op ops ih =>
    intro f d h hq hop
    obtain ⟨f1, d1, hc, hh, hq1, ha, ho⟩ := h.call d hq (g 0) hop.1.served
    obtain ⟨f', d', hcl, hh', ha', ho'⟩ := ih (fun i => g (i + 1)) (h.same_header hh) hq1 (ha ▸ hop.2)
    refine ⟨f', d', ?_, hh'.trans hh, ?_, fun s hs => (ho' s hs).trans (ho s hs)⟩
    · simp only [OpenFile.calls, hc, hcl, bind, Except.bind, ha]
      rfl
    · rw [ha', ha]
      rfl

end Laid

/-! ## Chunks -/

/-- Reads of these sizes in sequence. -/
def reads (ns : List Nat) : List FileOp := ns.map fun n => .read (BitVec.ofNat 32 n)

/-- Writes of these data in sequence. -/
def writes (parts : List (List Byte)) : List FileOp := parts.map fun data => .write data (BitVec.ofNat 32 data.length)

variable {ns : List Nat} {parts : List (List Byte)}

theorem reads_onArray (h : ns.sum ≤ 2147483647) : (reads ns).map FileOp.onArray = ns.map fun n : Nat => .read n := by
  rw [reads, map_map]
  apply map_congr_left
  intro n hn
  have hle := le_sum_of_mem hn
  show Cursor.Call.read (ofNat 32 n).toInt = .read n
  rw [ofNat_toInt (by omega)]

theorem reads_inRange : ∀ {c : Cursor Byte}, c.pos + ns.sum ≤ 2147483647 → FileOp.AllInRange c (reads ns) := by
  induction ns with
  | nil => exact fun _ => trivial
  | cons n ns ih =>
    intro c hc
    rw [sum_cons] at hc
    have hn : (ofNat 32 n).toInt = n := ofNat_toInt (by omega)
    have hm := moved_eq c.elems.length n c.pos
    refine ⟨?_, ih ?_⟩
    · show (c.pos : Int) + (ofNat 32 n).toInt ≤ 2147483647
      omega
    · show c.pos + moved c.elems.length (ofNat 32 n).toInt c.pos + ns.sum ≤ 2147483647
      rw [hn]
      omega

theorem writes_onArray (h : parts.flatten.length ≤ 2147483647) :
    (writes parts).map FileOp.onArray = parts.map fun data => .write data data.length := by
  rw [writes, map_map]
  apply map_congr_left
  intro data hd
  have hle : data.length ≤ (parts.map List.length).sum := le_sum_of_mem (mem_map_of_mem hd)
  rw [← length_flatten] at hle
  show Cursor.Call.write data (ofNat 32 data.length).toInt = .write data data.length
  rw [ofNat_toInt (by omega)]

theorem writes_inRange :
    ∀ {c : Cursor Byte}, c.pos + parts.flatten.length ≤ 2147483647 → FileOp.AllInRange c (writes parts) := by
  induction parts with
  | nil => exact fun _ => trivial
  | cons data parts ih =>
    intro c hc
    rw [flatten_cons, length_append] at hc
    have hn : (ofNat 32 data.length).toInt = data.length := ofNat_toInt (by omega)
    have hm := moved_eq c.elems.length data.length c.pos
    refine ⟨⟨?_, ?_⟩, ih ?_⟩
    · show (c.pos : Int) + (ofNat 32 data.length).toInt ≤ 2147483647
      omega
    · exact Int.le_of_eq hn
    · show c.pos + moved c.elems.length (ofNat 32 data.length).toInt c.pos + parts.flatten.length ≤ 2147483647
      rw [hn]
      omega

theorem sum_answerWord (as : List (Nat × List Byte)) :
    ((as.map answerWord).map Prod.fst).sum = ofNat 32 (as.map Prod.fst).sum := by
  induction as with
  | nil => rfl
  | cons a as ih =>
    simp only [map_cons, sum_cons, ih, BitVec.ofNat_add]
    rfl

/-- An open file whose header lists distinct sectors is an array of its bytes with a cursor.
    Every sequence of calls answers as the array does, leaves what the array becomes, and
    changes no sector outside the file; reads or writes in chunks come to one read or write. -/
theorem byte_array_with_cursor {f : OpenFile} {ss : List Nat} {n : Nat} (h : f.Laid ss n) (hq : 0 ≤ f.seekPosition.toInt) (d : Disk)
    (g : Nat → Nat → Byte) :
    (∀ ops, FileOp.AllInRange (f.array d ss n) ops → ∃ f' d',
      f.calls d g ops = .ok ((((f.array d ss n).calls (ops.map FileOp.onArray)).1.map answerWord), f', d') ∧ f'.hdr = f.hdr ∧
      f'.array d' ss n = ((f.array d ss n).calls (ops.map FileOp.onArray)).2 ∧ ∀ s, s ∉ ss → d' s = d s) ∧
    (∀ ns : List Nat, f.seekPosition.toNat + ns.sum ≤ 2147483647 → ∃ as f₁ d₁ a f₂ d₂,
      f.calls d g (reads ns) = .ok (as, f₁, d₁) ∧ f.calls d g (reads [ns.sum]) = .ok ([a], f₂, d₂) ∧
      (as.map Prod.fst).sum = a.1 ∧ (as.map Prod.snd).flatten = a.2 ∧ f₁.array d₁ ss n = f₂.array d₂ ss n) ∧
    (∀ parts : List (List Byte), f.seekPosition.toNat + parts.flatten.length ≤ 2147483647 → ∃ as f₁ d₁ a f₂ d₂,
      f.calls d g (writes parts) = .ok (as, f₁, d₁) ∧ f.calls d g (writes [parts.flatten]) = .ok ([a], f₂, d₂) ∧
      (as.map Prod.fst).sum = a.1 ∧ f₁.array d₁ ss n = f₂.array d₂ ss n) := by
  refine ⟨fun ops hops => Laid.calls g h hq hops, ?_, ?_⟩
  · intro ns hns
    have hone : f.seekPosition.toNat + [ns.sum].sum ≤ 2147483647 := by rw [List.sum_singleton]; exact hns
    obtain ⟨f₁, d₁, hcalls, -, harray, -⟩ := Laid.calls g h hq (reads_inRange hns)
    obtain ⟨f₂, d₂, hcall, -, harray', -⟩ := Laid.calls g h hq (reads_inRange hone)
    obtain ⟨hcount, hbytes, hlast⟩ := Cursor.calls_reads ns (f.array d ss n)
    rw [reads_onArray (by omega)] at hcalls harray hcall harray'
    refine ⟨_, f₁, d₁, _, f₂, d₂, hcalls, hcall, ?_, ?_, ?_⟩
    · rw [sum_answerWord, hcount]
      rfl
    · rw [List.map_map]
      exact hbytes
    · rw [harray, harray', hlast]
      rfl
  · intro parts hparts
    have hflat : [parts.flatten].flatten = parts.flatten := by rw [List.flatten_cons, List.flatten_nil, List.append_nil]
    obtain ⟨f₁, d₁, hcalls, -, harray, -⟩ := Laid.calls g h hq (writes_inRange hparts)
    obtain ⟨f₂, d₂, hcall, -, harray', -⟩ := Laid.calls g h hq (writes_inRange (by rw [hflat]; exact hparts))
    obtain ⟨hcount, hlast⟩ := Cursor.calls_writes parts (f.array d ss n)
    rw [writes_onArray (by omega)] at hcalls harray
    rw [writes_onArray (by rw [hflat]; omega)] at hcall harray'
    refine ⟨_, f₁, d₁, _, f₂, d₂, hcalls, hcall, ?_, ?_⟩
    · rw [sum_answerWord, hcount]
      rfl
    · rw [harray, harray', hlast]
      rfl

/-- A file of 700 bytes in the sectors 9 and 5, opened. -/
def twoSectors : OpenFile :=
  ⟨⟨700, 2, 9 :: 5 :: List.replicate 124 0, by rw [List.length_cons, List.length_cons, List.length_replicate]⟩, 0⟩

theorem twoSectors_laid : twoSectors.Laid [9, 5] 700 where
  length := rfl
  sectors i s hs := by
    rcases i with _ | _ | i
    · cases hs
      rfl
    · cases hs
      rfl
    · cases hs
  fits := by decide
  distinct := by decide
  range := by decide

/-- Bytes written across the end of a sector, and past the end of the file, are read back. -/
theorem twoSectors_read_back :
    ∃ f' d', twoSectors.calls (fun _ => .garbage fun _ => 0) (fun _ _ => 7)
      [.seek 510, .write [1, 2, 3, 4] 4, .writeAt [5, 6, 7] 3 698, .readAt 6 509, .read 500, .getCurrentPos] =
        .ok ([(0, []), (4, []), (2, []), (6, [0, 1, 2, 3, 4, 0]), (186, List.replicate 184 0 ++ [5, 6]), (700, [])], f', d') := by
  obtain ⟨f', d', hcalls, -⟩ := (byte_array_with_cursor twoSectors_laid (by decide) (fun _ => .garbage fun _ => 0) (fun _ _ => 7)).1
    [.seek 510, .write [1, 2, 3, 4] 4, .writeAt [5, 6, 7] 3 698, .readAt 6 509, .read 500, .getCurrentPos] (by decide +kernel)
  refine ⟨f', d', hcalls.trans (congrArg (fun as => Except.ok (as, f', d')) ?_)⟩
  decide +kernel

end OnDisk.OpenFile

end Nachos

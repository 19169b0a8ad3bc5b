/-
  Nachos.Filesys.Agreement — the two implementations of `OpenFile` in `filesys/openfile.h`, side
  by side: the one over a host file and the one over sectors.

  The stub keeps its position twice, in `currentOffset` and in the host's descriptor. Seek, Read,
  Write and Length leave the two equal; ReadAt and WriteAt move the descriptor only; and
  GetCurrentPos takes the position from the descriptor, although openfile.h has ReadAt and
  WriteAt bypass it. `Stands` follows both, the array with its cursor and the descriptor.
  - `implementations_agree_iff`: the two give the same answers to a sequence of calls iff the descriptor stands
    at the position at every GetCurrentPos, no ReadAt has a negative position, and no read that
    finds bytes runs over the largest `int`.
-/

import Nachos.Filesys.Cursor
import Nachos.Filesys.Stub

namespace Nachos

open Lib BitVec
open OnDisk.OpenFile (toInt_of_nonneg)
open BitVec (ofNat)
open Cursor (moved moved_eq)

variable {op : FileOp} {as : List (Word × List Byte)}

namespace Stub.OpenFile

/-- What a call returns, and the file and the host after it. The value of `Seek` is dropped: the
    other implementation returns none. -/
def call (f : OpenFile) (h : Host) : FileOp → Except Stop ((Word × List Byte) × OpenFile × Host)
  | .seek p => do
    let (_, f) ← f.seek p
    return ((0, []), f, h)
  | .read n => do
    let (k, into, f, h) ← f.read h n
    return ((k, into), f, h)
  | .write data n => do
    let (k, f, h) ← f.write h data n
    return ((k, []), f, h)
  | .readAt n p => do
    let (k, into, f, h) ← f.readAt h n p
    return ((k, into), f, h)
  | .writeAt data n p => do
    let (k, f, h) ← f.writeAt h data n p
    return ((k, []), f, h)
  | .length => do
    let (len, f) ← f.length h
    return ((len, []), f, h)
  | .getCurrentPos =>
    let (p, f) := f.getCurrentPos
    .ok ((p, []), f, h)

def calls (f : OpenFile) (h : Host) : List FileOp → Except Stop (List (Word × List Byte) × OpenFile × Host)
  | [] => .ok ([], f, h)
  | op :: ops => do
    let (a, f, h) ← f.call h op
    let (as, f, h) ← f.calls h ops
    return (a :: as, f, h)

theorem calls_cons {f : OpenFile} {h : Host} {ops : List FileOp} {x : OpenFile × Host} :
    f.calls h (op :: ops) = .ok (as, x) ↔
      ∃ a f1 h1 as', f.call h op = .ok (a, f1, h1) ∧ f1.calls h1 ops = .ok (as', x) ∧ as = a :: as' := by
  simp only [calls, bind_eq_ok, pure, Except.pure]
  constructor
  · rintro ⟨⟨a, f1, h1⟩, hc, ⟨as', x'⟩, hcl, heq⟩
    cases heq
    exact ⟨a, f1, h1, as', hc, hcl, rfl⟩
  · rintro ⟨a, f1, h1, as', hc, hcl, rfl⟩
    exact ⟨(a, f1, h1), hc, (as', x), hcl, rfl⟩

end Stub.OpenFile

namespace FileOp

/-! ## What is asked -/

/-- Counts are not negative, seeks and writes stay in the file, and a write is given its bytes. -/
def Asked (c : Lib.Cursor Byte) : FileOp → Prop
  | seek p => 0 ≤ p.toInt ∧ p.toInt ≤ c.elems.length
  | read n => 0 ≤ n.toInt
  | write data n => 0 ≤ n.toInt ∧ c.pos + n.toInt ≤ c.elems.length ∧ n.toInt ≤ data.length
  | readAt n _ => 0 ≤ n.toInt
  | writeAt data n p => 0 ≤ n.toInt ∧ (0 ≤ p.toInt ∧ p.toInt + n.toInt ≤ c.elems.length) ∧ n.toInt ≤ data.length
  | length => True
  | getCurrentPos => True

/-- Where the host's descriptor stands after a call. -/
def endsAt (c : Lib.Cursor Byte) (offset : Nat) : FileOp → Nat
  | seek p => p.toNat
  | read n => c.pos + Lib.Cursor.moved c.elems.length n.toInt c.pos
  | write _ n => c.pos + Lib.Cursor.moved c.elems.length n.toInt c.pos
  | readAt n p => p.toNat + Lib.Cursor.moved c.elems.length n.toInt p.toNat
  | writeAt _ n p => p.toNat + Lib.Cursor.moved c.elems.length n.toInt p.toNat
  | length => c.pos
  | getCurrentPos => offset

/-- What the two implementations need in order to agree. -/
def Settled (c : Lib.Cursor Byte) (offset : Nat) : FileOp → Prop
  | read n => c.pos < c.elems.length → c.pos + n.toInt ≤ 2147483647
  | readAt n p => 0 ≤ p.toInt ∧ (p.toNat < c.elems.length → p.toInt + n.toInt ≤ 2147483647)
  | getCurrentPos => offset = c.pos
  | _ => True

instance (c : Lib.Cursor Byte) : (op : FileOp) → Decidable (op.Asked c)
  | seek _ => inferInstanceAs (Decidable (_ ∧ _))
  | read _ => inferInstanceAs (Decidable (_ ≤ _))
  | write _ _ => inferInstanceAs (Decidable (_ ∧ _ ∧ _))
  | readAt _ _ => inferInstanceAs (Decidable (_ ≤ _))
  | writeAt _ _ _ => inferInstanceAs (Decidable (_ ∧ (_ ∧ _) ∧ _))
  | length => inferInstanceAs (Decidable True)
  | getCurrentPos => inferInstanceAs (Decidable True)

instance (c : Lib.Cursor Byte) (offset : Nat) : (op : FileOp) → Decidable (op.Settled c offset)
  | read _ => inferInstanceAs (Decidable (_ → _))
  | readAt _ _ => inferInstanceAs (Decidable (_ ∧ (_ → _)))
  | getCurrentPos => inferInstanceAs (Decidable (_ = _))
  | seek _ => inferInstanceAs (Decidable True)
  | write _ _ => inferInstanceAs (Decidable True)
  | writeAt _ _ _ => inferInstanceAs (Decidable True)
  | length => inferInstanceAs (Decidable True)

/-- Each call of the sequence is asked for in the state it finds. -/
def AllAsked (c : Lib.Cursor Byte) : List FileOp → Prop
  | [] => True
  | op :: ops => op.Asked c ∧ AllAsked (c.call op.onArray).2 ops

def AllSettled (c : Lib.Cursor Byte) (offset : Nat) : List FileOp → Prop
  | [] => True
  | op :: ops => op.Settled c offset ∧ AllSettled (c.call op.onArray).2 (op.endsAt c offset) ops

instance decidableAllAsked : (c : Lib.Cursor Byte) → (ops : List FileOp) → Decidable (AllAsked c ops)
  | _, [] => inferInstanceAs (Decidable True)
  | c, op :: ops =>
    have := decidableAllAsked (c.call op.onArray).2 ops
    inferInstanceAs (Decidable (_ ∧ _))

instance decidableAllSettled : (c : Lib.Cursor Byte) → (offset : Nat) → (ops : List FileOp) → Decidable (AllSettled c offset ops)
  | _, _, [] => inferInstanceAs (Decidable True)
  | c, offset, op :: ops =>
    have := decidableAllSettled (c.call op.onArray).2 (op.endsAt c offset) ops
    inferInstanceAs (Decidable (_ ∧ _))

end FileOp

/-! ## The stub -/

namespace Stub.OpenFile

/-- The open file stands for the array, with the host's descriptor at `offset`. -/
structure Stands (f : OpenFile) (h : Host) (c : Lib.Cursor Byte) (offset : Nat) : Prop where
  posix : h.answers = []
  content : h.content f.ino = c.elems
  current : f.currentOffset = BitVec.ofNat 32 c.pos
  descriptor : f.offset = offset
  within : c.pos ≤ c.elems.length

variable {f : OpenFile} {h : Host} {c : Lib.Cursor Byte} {offset : Nat} {p n : Word} {data : List Byte}

theorem Stands.small (hs : f.Stands h c offset) : c.elems.length ≤ 2147483647 := hs.content ▸ h.small f.ino

theorem lseekSet_ok (hp : 0 ≤ p.toInt) : ∃ hfits, f.lseekSet p = .ok { f with offset := p.toNat, fits := hfits } := by
  have hto := toInt_of_nonneg hp
  have hlt := p.toInt_lt
  have hfits : p.toNat ≤ 2147483647 := by omega
  exact ⟨hfits, dif_pos hfits⟩

theorem lseekSet_negative (hp : p.toInt < 0) : f.lseekSet p = .error .assertion := by
  apply dif_neg
  rw [toInt_eq_toNat_cond] at hp
  show ¬ p.toNat ≤ 2147483647
  split at hp <;> omega

theorem readPartial_ok (hs : h.answers = []) (hn : 0 ≤ n.toInt) :
    f.readPartial h n = (ofNat 32 (f.delivered h n.toNat).length, f.delivered h n.toNat,
      { f with offset := f.offset + (f.delivered h n.toNat).length, fits := f.offset_add_delivered h n.toNat }, h) := by
  have hsl : ¬ n.slt 0 = true := by
    rw [slt_iff_toInt_lt, show (0 : Word).toInt = 0 from rfl]
    omega
  rw [readPartial, answer_posix hs]
  simp only [reduceCtorEq, false_or, hsl, if_false, Answer.limit, Bool.false_eq_true]

theorem writeFile_ok (hs : h.answers = []) (hn : 0 ≤ n.toInt) (hd : n.toInt ≤ data.length)
    (hr : f.offset + n.toNat ≤ maxOffset) :
    ∃ hfits hc, f.writeFile h data n = .ok ({ f with offset := f.offset + n.toNat, fits := hfits },
      h.setContent f.ino (Host.splice (h.content f.ino) f.offset (data.take n.toNat)) hc) := by
  have hto := toInt_of_nonneg hn
  have hsl : ¬ n.slt 0 = true := by
    rw [slt_iff_toInt_lt, show (0 : Word).toInt = 0 from rfl]
    omega
  have hl : (data.take n.toNat).length = n.toNat := by rw [List.length_take]; omega
  have hc : (Host.splice (h.content f.ino) f.offset (data.take n.toNat)).length ≤ maxOffset := by
    have := h.small f.ino
    rw [Host.length_splice]
    split <;> omega
  refine ⟨hr, hc, ?_⟩
  simp only [writeFile, answer_posix hs, hsl, Bool.false_eq_true, if_false, Answer.limit, reduceCtorEq, false_or, Nat.lt_irrefl,
    hl, dif_pos hr]

/-- Inside the file the host's write is a copy. -/
theorem splice_eq_patch {content bytes : List Byte} {start : Nat} (hs : start ≤ content.length) :
    Host.splice content start bytes = patch content start bytes := by
  unfold Host.splice
  split
  · next hn => rw [hn, patch_nil]
  · rw [Nat.sub_eq_zero_of_le hs, List.replicate_zero, List.append_nil, patch]

theorem Stands.moveTo (hs : f.Stands h c offset) {q : Nat} (hq : q ≤ c.elems.length) :
    OpenFile.Stands { f with currentOffset := ofNat 32 q } h { c with pos := q } offset :=
  ⟨hs.posix, hs.content, rfl, hs.descriptor, hq⟩

theorem Stands.readAt (hs : f.Stands h c offset) (hn : 0 ≤ n.toInt) (hp : 0 ≤ p.toInt) :
    ∃ f', f.readAt h n p = .ok (ofNat 32 (moved c.elems.length n.toInt p.toNat), c.readAt n.toInt p.toNat, f', h) ∧
      f'.currentOffset = f.currentOffset ∧
      f'.Stands h c (p.toNat + moved c.elems.length n.toInt p.toNat) := by
  obtain ⟨hf, hsk⟩ := lseekSet_ok (f := f) hp
  have hr := readPartial_ok (f := { f with offset := p.toNat, fits := hf }) hs.posix hn
  have hm := moved_eq c.elems.length n.toInt p.toNat
  have hto := toInt_of_nonneg hn
  have hb : delivered { f with offset := p.toNat, fits := hf } h n.toNat = c.readAt n.toInt p.toNat := by
    rw [delivered, hs.content, Cursor.readAt, List.take_eq_take_min, List.length_drop, hm, hto, Int.toNat_natCast]
  have hl : (c.readAt n.toInt p.toNat).length = moved c.elems.length n.toInt p.toNat := by
    rw [Cursor.readAt, List.length_take, List.length_drop]
    omega
  simp only [hb, hl] at hr
  have hf' : p.toNat + moved c.elems.length n.toInt p.toNat ≤ maxOffset := by
    rw [← hl, ← hb]
    exact offset_add_delivered { f with offset := p.toNat, fits := hf } h n.toNat
  refine ⟨{ f with offset := p.toNat + moved c.elems.length n.toInt p.toNat, fits := hf' }, ?_, rfl,
    ⟨hs.posix, hs.content, hs.current, rfl, hs.within⟩⟩
  rw [OpenFile.readAt, hsk]
  simp only [bind, Except.bind, hr]
  rfl

theorem Stands.writeAt (hs : f.Stands h c offset) (hn : 0 ≤ n.toInt) (hp : 0 ≤ p.toInt)
    (he : p.toInt + n.toInt ≤ c.elems.length) (hd : n.toInt ≤ data.length) :
    ∃ f' h', f.writeAt h data n p = .ok (ofNat 32 (moved c.elems.length n.toInt p.toNat), f', h') ∧
      f'.currentOffset = f.currentOffset ∧
      f'.Stands h' (c.writeAt data n.toInt p.toNat) (p.toNat + moved c.elems.length n.toInt p.toNat) := by
  have hto := toInt_of_nonneg hn
  have ht' := toInt_of_nonneg hp
  have hsm := hs.small
  have hm : moved c.elems.length n.toInt p.toNat = n.toNat := by
    rw [moved_eq]
    omega
  obtain ⟨hf, hsk⟩ := lseekSet_ok (f := f) hp
  obtain ⟨hf', hc, hw⟩ := writeFile_ok (f := { f with offset := p.toNat, fits := hf }) hs.posix hn hd
    (show p.toNat + n.toNat ≤ 2147483647 by omega)
  rw [hm]
  have hl : (c.writeAt data n.toInt p.toNat).elems.length = c.elems.length := Cursor.length_writeAt hd
  refine ⟨{ f with offset := p.toNat + n.toNat, fits := hf' },
    h.setContent f.ino (Host.splice (h.content f.ino) p.toNat (data.take n.toNat)) hc, ?_, rfl,
    ⟨hs.posix, ?_, hs.current, rfl, hl ▸ hs.within⟩⟩
  · rw [OpenFile.writeAt, hsk, ofNat_word]
    simp only [bind, Except.bind, hw]
    rfl
  · show Function.update h.content f.ino _ f.ino =
      patch c.elems p.toNat (data.take (moved c.elems.length n.toInt p.toNat))
    rw [Function.update_self, hm, hs.content, splice_eq_patch (by omega)]

theorem Stands.position (hs : f.Stands h c offset) : f.currentOffset.toNat = c.pos ∧ 0 ≤ f.currentOffset.toInt := by
  have hsm := hs.small
  have hw := hs.within
  rw [hs.current, ofNat_toNat (by omega), ofNat_toInt (by omega)]
  exact ⟨rfl, Int.natCast_nonneg _⟩

theorem Stands.call (hs : f.Stands h c offset) (ha : op.Asked c) (hst : op.Settled c offset) :
    ∃ f' h', f.call h op = .ok (answerWord (c.call op.onArray).1, f', h') ∧ f'.Stands h' (c.call op.onArray).2 (op.endsAt c offset) := by
  obtain ⟨hc, hnn⟩ := hs.position
  have hwt := hs.within
  cases op with
  | seek p =>
    obtain ⟨hp, hle⟩ := ha
    have hto := toInt_of_nonneg hp
    obtain ⟨hf, hsk⟩ := lseekSet_ok (f := f) hp
    refine ⟨{ f with offset := p.toNat, currentOffset := ofNat 32 p.toNat, fits := hf }, h, ?_,
      ⟨hs.posix, hs.content, rfl, rfl, show p.toNat ≤ c.elems.length by omega⟩⟩
    simp only [OpenFile.call, OpenFile.seek, hsk, bind, Except.bind]
    rfl
  | read n =>
    obtain ⟨f', hr, hk, hs'⟩ := hs.readAt ha hnn
    have hm := moved_eq c.elems.length n.toInt c.pos
    rw [hc] at hr hs'
    refine ⟨{ f' with currentOffset := ofNat 32 (c.pos + moved c.elems.length n.toInt c.pos) }, h, ?_,
      hs'.moveTo (by omega)⟩
    simp only [OpenFile.call, OpenFile.read, hr, bind, Except.bind, hk.trans hs.current, ofNat_add]
    rfl
  | write data n =>
    obtain ⟨hn, he, hd⟩ := ha
    have hps := toInt_of_nonneg hnn
    obtain ⟨f', h', hw, hk, hs'⟩ := hs.writeAt hn hnn (show f.currentOffset.toInt + n.toInt ≤ c.elems.length by omega) hd
    have hm := moved_eq c.elems.length n.toInt c.pos
    have hl : (c.writeAt data n.toInt c.pos).elems.length = c.elems.length := Cursor.length_writeAt hd
    rw [hc] at hw hs'
    refine ⟨{ f' with currentOffset := ofNat 32 (c.pos + moved c.elems.length n.toInt c.pos) }, h', ?_,
      hs'.moveTo (by omega)⟩
    simp only [OpenFile.call, OpenFile.write, hw, bind, Except.bind, hk.trans hs.current, ofNat_add]
    rfl
  | readAt n p =>
    obtain ⟨f', hr, -, hs'⟩ := hs.readAt ha hst.1
    refine ⟨f', h, ?_, hs'⟩
    simp only [OpenFile.call, hr, bind, Except.bind]
    rfl
  | writeAt data n p =>
    obtain ⟨hn, ⟨hp, he⟩, hd⟩ := ha
    obtain ⟨f', h', hw, -, hs'⟩ := hs.writeAt hn hp he hd
    refine ⟨f', h', ?_, hs'⟩
    simp only [OpenFile.call, hw, bind, Except.bind]
    rfl
  | length =>
    obtain ⟨hf, hsk⟩ := lseekSet_ok (f := f.lseekEnd h) hnn
    refine ⟨{ f with offset := f.currentOffset.toNat, fits := hf }, h, ?_, ⟨hs.posix, hs.content, hs.current, hc, hwt⟩⟩
    have he : (f.lseekEnd h).currentOffset = f.currentOffset := rfl
    have ht : (f.lseekEnd h).tell = ofNat 32 c.elems.length :=
      congrArg (fun l : List Byte => ofNat 32 l.length) hs.content
    simp only [OpenFile.call, OpenFile.length, he, hsk, ht, bind, Except.bind]
    rfl
  | getCurrentPos =>
    have ho : f.offset = c.pos := hs.descriptor.trans hst
    refine ⟨{ f with currentOffset := f.tell }, h, ?_, ⟨hs.posix, hs.content, ?_, hs.descriptor, hwt⟩⟩
    · simp only [OpenFile.call, getCurrentPos, tell, ho]
      rfl
    · exact congrArg (ofNat 32) ho

end Stub.OpenFile

/-! ## A read past the largest integer -/

namespace OnDisk.OpenFile

theorem calls_cons {f : OpenFile} {d : Disk} {g : Nat → Nat → Byte} {ops : List FileOp}
    {x : OpenFile × Disk} :
    f.calls d g (op :: ops) = .ok (as, x) ↔
      ∃ a f1 d1 as', f.call d (g 0) op = .ok (a, f1, d1) ∧ f1.calls d1 (fun i => g (i + 1)) ops = .ok (as', x) ∧ as = a :: as' := by
  simp only [calls, bind_eq_ok, pure, Except.pure]
  constructor
  · rintro ⟨⟨a, f1, d1⟩, hc, ⟨as', x'⟩, hcl, heq⟩
    cases heq
    exact ⟨a, f1, d1, as', hc, hcl, rfl⟩
  · rintro ⟨a, f1, d1, as', hc, hcl, rfl⟩
    exact ⟨(a, f1, d1), hc, (as', x), hcl, rfl⟩

/-- Past the table of the header no sector is found. -/
theorem readSectors_error (hdr : FileHeader) (d : Disk) (m : Nat) : ∀ i, i ≤ numDirect → numDirect < i + m →
    ∃ e, readSectors hdr d (ofNat 32 i) m = .error e := by
  induction m with
  | zero =>
    intro i hi hm
    omega
  | succ m ih =>
    intro i hi hm
    unfold numDirect at hi hm
    have hn : ofNat 32 i + 1 = ofNat 32 (i + 1) := (ofNat_add ..).symm
    rw [readSectors, ofNat_mul_sector, FileHeader.byteToSector, sdiv_sector (by omega), Nat.mul_div_cancel _ (by decide),
      ofNat_toNat (by omega), hn]
    cases hs : hdr.dataSectors[i]? with
    | none => exact ⟨_, rfl⟩
    | some s =>
      have hlt : i < numDirect := hdr.direct ▸ (List.getElem?_eq_some_iff.mp hs).1
      obtain ⟨e, he⟩ := ih (i + 1) hlt (by unfold numDirect; omega)
      simp only [bind, Except.bind]
      cases d.readSector s with
      | error e => exact ⟨e, rfl⟩
      | ok data => exact ⟨e, by simp only [he]⟩

/-- A read that finds bytes and whose end is past the largest `int` is not cut to the file. -/
theorem Laid.readAt_overflows {f : OpenFile} {ss : List Nat} {n : Nat} (h : f.Laid ss n) (d : Disk) {numBytes p : Word}
    (hp : 0 ≤ p.toInt) (hin : p.toNat < n) (hen : 2147483647 < p.toInt + numBytes.toInt) :
    ∃ e, f.readAt d numBytes p = .error e := by
  have hsm := h.small
  have hp' := toInt_of_nonneg hp
  have hn : numBytes.toInt < 2147483648 := numBytes.toInt_lt
  have hr : f.request numBytes p = some numBytes := by
    have hl : f.length.toInt = n := by rw [OpenFile.length, h.length, ofNat_toInt (by omega)]
    rw [OpenFile.request, if_neg, if_neg]
    · rw [slt_iff_toInt_lt, hl, sum_overflows hp hen]
      omega
    · rw [sle_iff_toInt_le, sle_iff_toInt_le, hl, show (0 : Word).toInt = 0 from rfl]
      omega
  have hf : p.sdiv 512 = ofNat 32 (p.toNat / 512) := by
    rw [← sdiv_sector (by omega), ofNat_word]
  simp only [OpenFile.readAt, hr]
  rcases span_overflows hp hen with hc | hc
  · rw [hc, OnDisk.readSectors]
    have hs : ∀ start, slice [] start numBytes.toNat = .error .undefined := by
      intro start
      have hn' := toInt_of_nonneg (show 0 ≤ numBytes.toInt by omega)
      apply if_neg
      rw [List.length_nil]
      omega
    simp only [bind, Except.bind, hs]
    exact ⟨_, rfl⟩
  · obtain ⟨e, he⟩ := readSectors_error f.hdr d (4194304 - p.toNat / 512) (p.toNat / 512) (by unfold numDirect; omega)
      (by unfold numDirect; omega)
    rw [hc, hf, he]
    exact ⟨e, rfl⟩

end OnDisk.OpenFile

/-! ## Both -/

section

variable {f : Stub.OpenFile} {h : Stub.Host} {r : OnDisk.OpenFile} {d : Disk} {ss : List Nat} {n offset : Nat}

theorem FileOp.Asked.served {c : Cursor Byte} (hsm : c.elems.length ≤ 2147483647) (ha : op.Asked c)
    (hs : op.Settled c offset) : op.Served c := by
  cases op with
  | seek p => exact ha.1
  | read n => exact hs
  | write data n => exact ⟨by have := ha.2.1; omega, ha.2.2⟩
  | readAt n p => exact hs
  | writeAt data n p => exact ⟨⟨ha.2.1.1, by have := ha.2.1.2; omega⟩, ha.2.2⟩
  | length => trivial
  | getCurrentPos => trivial

/-- A call that is not settled gets different answers. -/
theorem unsettled_differ (hs : f.Stands h (r.array d ss n) offset) (hr : r.Laid ss n) (hq : 0 ≤ r.seekPosition.toInt) (g : Nat → Byte)
    (has : op.Asked (r.array d ss n)) (hst : ¬ op.Settled (r.array d ss n) offset)
    {a : Word × List Byte} {x : Stub.OpenFile × Stub.Host} {y : OnDisk.OpenFile × Disk} (hf : f.call h op = .ok (a, x))
    (hd : r.call d g op = .ok (a, y)) : False := by
  have hln := hr.length_array d
  have hc := toInt_of_nonneg hq
  cases op with
  | read m =>
    obtain ⟨hin, hen⟩ := Classical.not_imp.mp hst
    obtain ⟨e, he⟩ := hr.readAt_overflows d hq (hln ▸ hin) (show 2147483647 < r.seekPosition.toInt + m.toInt by
      rw [hc]; exact Int.not_le.mp hen)
    simp only [OnDisk.OpenFile.call, OnDisk.OpenFile.read, he, bind, Except.bind, reduceCtorEq] at hd
  | readAt m p =>
    rcases Int.lt_or_le p.toInt 0 with hn | hp
    · simp only [Stub.OpenFile.call, Stub.OpenFile.readAt, Stub.OpenFile.lseekSet_negative hn, bind, Except.bind, reduceCtorEq] at hf
    · obtain ⟨hin, hen⟩ := Classical.not_imp.mp fun ha => hst ⟨hp, ha⟩
      obtain ⟨e, he⟩ := hr.readAt_overflows d hp (hln ▸ hin) (Int.not_le.mp hen)
      simp only [OnDisk.OpenFile.call, he, bind, Except.bind, reduceCtorEq] at hd
  | getCurrentPos =>
    have hl : (f.tell, []) = a := congrArg Prod.fst (Except.ok.inj hf)
    have hrg : (r.seekPosition, []) = a := congrArg Prod.fst (Except.ok.inj hd)
    have hsm : f.tell = r.seekPosition := congrArg Prod.fst (hl.trans hrg.symm)
    apply hst
    show offset = r.seekPosition.toNat
    rw [← hsm, Stub.OpenFile.tell, f.offset_toNat, hs.descriptor]
  | seek p => exact hst trivial
  | write data m => exact hst trivial
  | writeAt data m p => exact hst trivial
  | length => exact hst trivial

/-- The two implementations give the same answers to a sequence of calls, each in range where
    it is made, iff every call is settled. -/
theorem implementations_agree_iff (hs : f.Stands h (r.array d ss n) offset) (hr : r.Laid ss n) (hq : 0 ≤ r.seekPosition.toInt)
    (g : Nat → Nat → Byte) {ops : List FileOp} (hask : FileOp.AllAsked (r.array d ss n) ops) :
    (∃ as f' h' r' d', f.calls h ops = .ok (as, f', h') ∧ r.calls d g ops = .ok (as, r', d')) ↔
      FileOp.AllSettled (r.array d ss n) offset ops := by
  induction ops generalizing f h r d offset g with
  | nil => exact ⟨fun _ => trivial, fun _ => ⟨[], f, h, r, d, rfl, rfl⟩⟩
  | cons op ops ih =>
    obtain ⟨hask, hasks⟩ := hask
    by_cases hset : op.Settled (r.array d ss n) offset
    · obtain ⟨f₁, h₁, hcall, hs₁⟩ := hs.call hask hset
      obtain ⟨r₁, d₁, hcall', hhdr, hq₁, harray, -⟩ := hr.call d hq (g 0) (hask.served hs.small hset)
      rw [← harray] at hs₁ hasks
      have hrest := ih hs₁ (hr.same_header hhdr) hq₁ (fun i => g (i + 1)) hasks
      rw [harray] at hrest
      constructor
      · rintro ⟨as, f', h', r', d', hf, hd⟩
        refine ⟨hset, hrest.mp ?_⟩
        obtain ⟨a, f₂, h₂, as', hop, hops, rfl⟩ := Stub.OpenFile.calls_cons.mp hf
        obtain ⟨b, r₂, d₂, bs, hop', hops', heq⟩ := OnDisk.OpenFile.calls_cons.mp hd
        cases hcall.symm.trans hop
        cases hcall'.symm.trans hop'
        cases heq
        exact ⟨as', f', h', r', d', hops, hops'⟩
      · intro hall
        obtain ⟨as, f', h', r', d', hf, hd⟩ := hrest.mpr hall.2
        exact ⟨answerWord ((r.array d ss n).call op.onArray).1 :: as, f', h', r', d',
          Stub.OpenFile.calls_cons.mpr ⟨_, f₁, h₁, as, hcall, hf, rfl⟩, OnDisk.OpenFile.calls_cons.mpr ⟨_, r₁, d₁, as, hcall', hd, rfl⟩⟩
    · constructor
      · rintro ⟨as, f', h', r', d', hf, hd⟩
        obtain ⟨a, f₂, h₂, as', hop, -, rfl⟩ := Stub.OpenFile.calls_cons.mp hf
        obtain ⟨b, r₂, d₂, bs, hop', -, heq⟩ := OnDisk.OpenFile.calls_cons.mp hd
        cases heq
        exact (unsettled_differ hs hr hq (g 0) hask hset hop hop').elim
      · intro hall
        exact absurd hall.1 hset

/-! ## A file of three bytes -/

def abcHost : Stub.Host := ⟨fun _ => none, 1, fun _ => [97, 98, 99], [], fun _ => by decide⟩

def abcStub : Stub.OpenFile := ⟨.readWrite, 0, 0, 0, by decide⟩

def abcDisk : Disk := fun _ => .ofBuffer [97, 98, 99]

def abcFile : OnDisk.OpenFile := ⟨⟨3, 1, 5 :: List.replicate 125 0, by rw [List.length_cons, List.length_replicate]⟩, 0⟩

theorem abc_laid : abcFile.Laid [5] 3 where
  length := rfl
  sectors i s hs := by
    rcases i with _ | i
    · cases hs
      rfl
    · cases hs
  fits := by decide
  distinct := by decide
  range := by decide

theorem abc_stands : abcStub.Stands abcHost (abcFile.array abcDisk [5] 3) 0 :=
  ⟨rfl, by decide +kernel, rfl, rfl, Nat.zero_le _⟩

/-- A ReadAt in between does no harm if a Seek follows. -/
theorem abc_agree : ∃ as f' h' r' d', abcStub.calls abcHost [.write [7] 1, .readAt 1 2, .seek 0, .read 5, .getCurrentPos] =
      .ok (as, f', h') ∧
    abcFile.calls abcDisk (fun _ _ => 0) [.write [7] 1, .readAt 1 2, .seek 0, .read 5, .getCurrentPos] = .ok (as, r', d') := by
  have hask : FileOp.AllAsked (abcFile.array abcDisk [5] 3) [.write [7] 1, .readAt 1 2, .seek 0, .read 5, .getCurrentPos] := by
    decide +kernel
  have hset : FileOp.AllSettled (abcFile.array abcDisk [5] 3) 0 [.write [7] 1, .readAt 1 2, .seek 0, .read 5, .getCurrentPos] := by
    decide +kernel
  exact (implementations_agree_iff abc_stands abc_laid (by decide) _ hask).mpr hset

/-- After a ReadAt of the last byte the stub says position 3, and the real file 0. -/
theorem positions_differ_after_readAt : abcHost.content abcStub.ino = (abcFile.array abcDisk [5] 3).elems ∧
    FileOp.AllAsked (abcFile.array abcDisk [5] 3) [.readAt 1 2, .getCurrentPos] ∧
    Prod.fst <$> abcStub.calls abcHost [.readAt 1 2, .getCurrentPos] = .ok [(1, [99]), (3, [])] ∧
    Prod.fst <$> abcFile.calls abcDisk (fun _ _ => 0) [.readAt 1 2, .getCurrentPos] = .ok [(1, [99]), (0, [])] := by
  decide +kernel

end

end Nachos

/-
  Nachos.Test.Phases — what each program does between two semaphore calls.

  A phase is a run of file calls of one program (`Works`), from where it is woken to where it
  signals. A descriptor up to 9 is served and one above is dead: `written live` is what a file
  holds after a Write in either case. The programs look at what Open, CreateFile and Read
  answer only, so sinhvien does the same with dead descriptors as with live ones.
-/

import Nachos.Test.Desk
import Nachos.Userprog.Numbers

namespace Nachos.WaterTaps

open Lib.Decimal (IsDigit)
open Stub (maxOffset)
open BitVec (ofNat)
open List BitVec

/-! ## Digits -/

variable {b : Byte} {i : Nat}

theorem addDigit_ofNat (hb : IsDigit b) (n : Nat) :
    addDigit (ofNat 32 n) b = ofNat 32 (10 * n + (b.toNat - 48)) := by
  rw [addDigit, charInt, digit_sub hb, Nat.mul_comm, ofNat_add, ofNat_mul]
  rfl

theorem foldl_addDigit (digits : List Byte) (h : ∀ b ∈ digits, IsDigit b) : ∀ n,
    digits.foldl addDigit (ofNat 32 n) = ofNat 32 (Lib.Decimal.extend n digits) := by
  induction digits with
  | nil => exact fun _ => rfl
  | cons b digits ih =>
    intro n
    obtain ⟨hb, hd⟩ := forall_mem_cons.mp h
    rw [foldl_cons, addDigit_ofNat hb, ih hd]
    rfl

/-- The number that digits denote, as an `int`. -/
def word (digits : List Byte) : Word := BitVec.ofNat 32 (Lib.Decimal.value digits)

theorem fd_ne_neg_one {left : List Slot} {k : Nat} (h : left.length + 3 + k < 15) : fd left k ≠ -1 := by
  intro e
  have hto := congrArg BitVec.toNat e
  rw [Desk.fd_toNat h] at hto
  have hm : (-1 : Word).toNat = 4294967295 := rfl
  omega

theorem works_open {V : Type} {call : V → Call} {resume : V → Returned → V} {d : Desk} {v v' : V} {file : File} {type : Word}
    {z : Desk × V} (hc : call v = .file (.openFile file type)) (hf : (d.files.content file).isSome = true)
    (hty : type = 0 ∨ type = 1) (hl : d.left.length ≤ 6) (ht : d.top[2]? = none)
    (hr : fd d.left d.top.length ≠ -1 → resume v ⟨fd d.left d.top.length, none⟩ = v')
    (hrs : Worked call resume ({ d with top := d.top ++ [⟨file, 0, type == 0⟩] }, v') z) :
    Worked call resume (d, v) z := by
  have ht := List.getElem?_eq_none_iff.mp ht
  exact works_head hc (Desk.serve_open hf hty (by omega)) (hr (fd_ne_neg_one (by omega))) hrs

/-- The next byte, and the rest. -/
theorem next_of_drop {content rest : List Byte} (h : content.drop i = b :: rest) :
    content[i]? = some b ∧ content.drop (i + 1) = rest :=
  ⟨by rw [← head?_drop, h, head?_cons], by rw [← tail_drop, h, tail_cons]⟩

theorem end_of_drop {content : List Byte} (h : content.drop i = []) : content[i]? = none := by
  rw [← head?_drop, h, head?_nil]

/-! ## MayRotNuoc -/

namespace MayRotNuoc

variable {d : Desk} {n : Word} {line rest : List Byte}

/-- The number of time points is read. -/
theorem count_run (rest : List Byte) (digits : List Byte) (h : ∀ b ∈ digits, IsDigit b) : ∀ {taken : Nat} {n : Word} {c : Byte},
    d.input.drop taken = digits ++ 10 :: rest →
    ∃ taken', d.input.drop taken' = rest ∧ Worked call resume ({ d with taken := taken }, ⟨.readCount, 2, 0, n, c⟩)
      ({ d with taken := taken' }, ⟨.execSinhvien, 2, 0, digits.foldl addDigit n, 10⟩) := by
  induction digits with
  | nil =>
    intro taken n c hd
    obtain ⟨hb, hrs⟩ := next_of_drop hd
    exact ⟨taken + 1, hrs, works_head rfl (Desk.serve_input hb) rfl .refl⟩
  | cons b digits ih =>
    intro taken n c hd
    obtain ⟨hb, hdg⟩ := forall_mem_cons.mp h
    obtain ⟨hg, hn⟩ := next_of_drop hd
    obtain ⟨taken', ht', hrn⟩ := ih hdg (n := addDigit n b) (c := b) hn
    refine ⟨taken', ht', works_head rfl (Desk.serve_input hg) ?_ hrn⟩
    have hne : b ≠ 10 := by
      rintro rfl
      exact absurd hb (by decide)
    have hr := not_or.mp (mt (out_of_digits b).mp (not_not_intro hb))
    exact (if_neg hne).trans (if_pos hr)

/-- A line is copied to sinhvien.txt. -/
theorem copy_run (hlf : d.left.length ≤ 6) (hrs : rest = [] ∨ ∃ more, rest = 10 :: more) (line : List Byte)
    (hl : ∀ b ∈ line, b ≠ 10 ∧ b ≠ 0) : ∀ {taken : Nat} (done : List Byte) (c : Byte), d.input.drop taken = line ++ rest →
    done.length + line.length ≤ maxOffset →
    ∃ taken' c', d.input.drop taken' = rest.tail ∧ Worked call resume
      ({ d with taken := taken, sinhvien := some done, top := [⟨.sinhvien, done.length, true⟩] }, ⟨.readChar, 2, fd d.left 0, n, c⟩)
      ({ d with taken := taken', sinhvien := some (done ++ line), top := [⟨.sinhvien, (done ++ line).length, true⟩] },
        ⟨.closeFile, 2, fd d.left 0, n, c'⟩) := by
  induction line with
  | nil =>
    intro taken done c hd _
    rw [append_nil]
    rcases hrs with rfl | ⟨more, rfl⟩
    · exact ⟨taken, c, hd, works_head rfl (Desk.serve_input_end (end_of_drop hd)) rfl .refl⟩
    · obtain ⟨hb, hm⟩ := next_of_drop hd
      exact ⟨taken + 1, 10, hm, works_head rfl (Desk.serve_input hb) rfl .refl⟩
  | cons b line ih =>
    intro taken done c hd hr
    rw [length_cons] at hr
    obtain ⟨hb, hl⟩ := forall_mem_cons.mp hl
    obtain ⟨hg, hn⟩ := next_of_drop hd
    obtain ⟨taken', c', ht', hrn⟩ := ih hl (done ++ [b]) b hn
      (by rw [length_append, length_singleton]; omega)
    refine ⟨taken', c', ht', ?_⟩
    rw [List.append_assoc, singleton_append] at hrn
    refine works_head rfl (Desk.serve_input hg) (congrArg (MayRotNuoc.mk · _ _ _ _) (if_neg ?_)) ?_
    · rintro (ho | he)
      · exact absurd ho (show ¬ (1 : Word).slt 1 = true by decide)
      · exact hb.1 he
    · refine works_head rfl (Desk.serve_write (k := 0) rfl (by exact Nat.add_le_add_right hlf 3) rfl ⟨rfl, rfl⟩
        ⟨cons_ne_nil _ _, forall_mem_singleton.mpr hb.2⟩ (by rw [length_singleton]; omega)) rfl ?_
      rw [length_append] at hrn
      exact hrn

/-- From one time point's file to the Signal. -/
theorem line_run (hl : d.left.length ≤ 6) (hrs : rest = [] ∨ ∃ more, rest = 10 :: more)
    (hln : ∀ b ∈ line, b ≠ 10 ∧ b ≠ 0) {taken : Nat} (hd : d.input.drop taken = line ++ rest)
    (hrm : line.length ≤ maxOffset) (si : Word) (c : Byte) :
    ∃ taken' c', d.input.drop taken' = rest.tail ∧ Worked call resume
      ({ d with taken := taken, top := [] }, ⟨.createFile, 2, si, n, c⟩)
      ({ d with taken := taken', sinhvien := some line, top := [] }, ⟨.signal, 2, fd d.left 0, n, c'⟩) := by
  obtain ⟨taken', c', ht', hr⟩ := copy_run hl hrs line hln (n := n) [] c hd
    (by rw [length_nil]; omega)
  refine ⟨taken', c', ht', works_head rfl (Desk.serve_create _ .sinhvien) rfl ?_⟩
  refine works_open rfl rfl (.inl rfl) hl rfl (fun hfd => congrArg (MayRotNuoc.mk · _ _ _ _) (if_neg hfd)) ?_
  refine hr.trans (works_head rfl (Desk.serve_close (k := 0) rfl ?_) rfl .refl)
  exact Nat.lt_of_le_of_lt (Nat.add_le_add_right hl 3) (by decide)

end MayRotNuoc

/-! ## Live and dead descriptors -/

/-- What a file holds after a Write. -/
def written (live : Bool) (content bytes : List Byte) : List Byte := if live then content ++ bytes else content

theorem written_written (live : Bool) (content bytes more : List Byte) :
    written live (written live content bytes) more = written live content (bytes ++ more) := by
  cases live with
  | false => rfl
  | true => exact List.append_assoc ..

theorem length_written_le (live : Bool) (content bytes : List Byte) :
    (written live content bytes).length ≤ content.length + bytes.length := by
  cases live with
  | false => exact Nat.le_add_right ..
  | true => exact Nat.le_of_eq length_append

/-- Descriptor `i` is live, or it is dead. -/
def Serves (live : Bool) (i : Nat) : Prop := if live then i ≤ 9 else 9 < i ∧ i < 15

namespace Desk

variable {d : Desk} {k : Nat} {slot : Slot} {live : Bool} {content : List Byte}

theorem setContent_self {file : File} (h : d.files.content file = some content) : d.setContent content file = d := by
  cases file with
  | input | output =>
    cases h
    rfl
  | sinhvien | voinuoc =>
    have h : _ = some content := h
    simp only [setContent, ← h]
    rfl

theorem set_self (ht : d.top[k]? = some slot) : d.top.set k slot = d.top := by
  obtain ⟨hk, rfl⟩ := List.getElem?_eq_some_iff.mp ht
  exact set_getElem_self hk

theorem serve_put (hl : Serves live (d.left.length + 3 + k)) (ht : d.top[k]? = some slot)
    (hc : d.files.content slot.file = some content) (hs : slot.writable = true ∧ (live = true → slot.pos = content.length))
    {bytes : List Byte} (hb : bytes ≠ [] ∧ ∀ b ∈ bytes, b ≠ 0) (hr : content.length + bytes.length ≤ maxOffset) :
    ∃ r slot', d.files.serve (.write bytes (fd d.left k)) =
        some (r, ({ d.setContent (written live content bytes) slot.file with top := d.top.set k slot' } : Desk).files) ∧
      (slot.pos = content.length → slot' = { slot with pos := (written live content bytes).length }) := by
  cases live with
  | false =>
    refine ⟨⟨-1, none⟩, slot, ?_, fun hp => ?_⟩
    · rw [serve_write_dead ht hl, written, if_neg Bool.false_ne_true, setContent_self hc, set_self ht]
    · rw [written, if_neg Bool.false_ne_true, ← hp]
  | true =>
    refine ⟨_, _, serve_write ht hl hc ⟨hs.1, hs.2 rfl⟩ hb hr, fun hp => ?_⟩
    rw [written, if_pos rfl, length_append, hp]

theorem serve_seek (hl : Serves live (d.left.length + 3 + k)) (ht : d.top[k]? = some slot)
    (hc : d.files.content slot.file = some content) :
    ∃ r pos, d.files.serve (.seek (-1) (fd d.left k)) =
        some (r, ({ d with top := d.top.set k { slot with pos := pos } } : Desk).files) ∧ (live = true → pos = content.length) := by
  cases live with
  | false =>
    refine ⟨⟨21, none⟩, slot.pos, ?_, fun h => absurd h Bool.false_ne_true⟩
    rw [serve_seek_dead ht hl, set_self ht]
  | true => exact ⟨_, _, serve_seek_end ht hl hc, fun _ => rfl⟩

end Desk

/-! ## sinhvien -/

namespace Sinhvien

variable {d : Desk} {live : Bool} {l vn out : List Byte} {p : Nat} {c : Byte} {left : List Slot}

/-- voinuoc.txt and output.txt get live descriptors, or dead ones. -/
def Lives (live : Bool) (left : List Slot) : Prop := if live then left.length ≤ 4 else left.length = 6

theorem Lives.serves (h : Lives live left) {k : Nat} (hk : k = 1 ∨ k = 2) : Serves live (left.length + 3 + k) := by
  cases live with
  | false =>
    have h : left.length = 6 := h
    exact ⟨by omega, by omega⟩
  | true =>
    have h : left.length ≤ 4 := h
    show left.length + 3 + k ≤ 9
    omega

theorem Lives.le (h : Lives live left) : left.length ≤ 6 := by
  unfold Lives at h
  split at h <;> omega

theorem ofNat_slt {len : Nat} (hl : len ≤ maxOffset) (hp : p ≤ len) :
    (ofNat 32 p).slt (ofNat 32 len) = decide (p < len) := by
  have hm : len ≤ 2147483647 := hl
  rw [BitVec.slt, ofNat_toInt (by omega), ofNat_toInt (by omega)]
  exact decide_eq_decide.mpr Int.ofNat_lt

/-- sinhvien.txt and voinuoc.txt are opened. -/
theorem open_run (hl : d.left.length ≤ 6) (hne : l ≠ []) (hr : l.length ≤ maxOffset) (s₁ s₂ so len fp : Word) (ch : Byte) :
    Worked call resume
      ({ d with sinhvien := some l, top := [] }, ⟨.openSinhvien, s₁, s₂, so, len, fp, ch⟩)
      ({ d with sinhvien := some l, voinuoc := some [], top := [⟨.sinhvien, 0, false⟩, ⟨.voinuoc, 0, true⟩] },
        ⟨.readChar, fd d.left 0, fd d.left 1, so, ofNat 32 l.length, 0, ch⟩) := by
  refine works_open rfl rfl (.inr rfl) hl rfl (fun hfd => congrArg (Sinhvien.mk · _ _ _ _ _ _) (if_neg hfd)) ?_
  refine works_head rfl (Desk.serve_seek_end (k := 0) rfl (by exact Nat.add_le_add_right hl 3) rfl) rfl ?_
  refine works_head rfl (Desk.serve_seek_start (k := 0) rfl (by exact Nat.add_le_add_right hl 3) rfl) rfl ?_
  refine works_head rfl (Desk.serve_create _ .voinuoc) rfl ?_
  refine works_open rfl rfl (.inl rfl) hl rfl (fun hfd => (if_neg hfd).trans ?_) .refl
  refine congrArg (Sinhvien.mk · _ _ _ _ _ _) (if_pos ?_)
  exact (ofNat_slt hr (Nat.zero_le _)).trans (decide_eq_true (length_pos_iff.mpr hne))

/-- One character of a number goes to voinuoc.txt and to output.txt. -/
theorem char_run (hlv : Lives live d.left) (hc : c ≠ 32 ∧ c ≠ 0) (hb : l[p]? = some c) (hrm : vn.length + 1 ≤ maxOffset)
    (hr : out.length + 1 ≤ maxOffset) (so len fp : Word) (ch : Byte) :
    Worked call resume
      ({ d with sinhvien := some l, voinuoc := some vn, output := out, top := [⟨.sinhvien, p, false⟩, ⟨.voinuoc, vn.length, true⟩] },
        ⟨.readChar, fd d.left 0, fd d.left 1, so, len, fp, ch⟩)
      ({ d with
          sinhvien := some l
          voinuoc := some (written live vn [c])
          output := written live out [c]
          top := [⟨.sinhvien, p + 1, false⟩, ⟨.voinuoc, (written live vn [c]).length, true⟩] },
        charDone ⟨.closeOutput, fd d.left 0, fd d.left 1, fd d.left 2, len, fp, c⟩ false) := by
  have hby : [c] ≠ [] ∧ ∀ b ∈ [c], b ≠ 0 := ⟨cons_ne_nil _ _, forall_mem_singleton.mpr hc.2⟩
  have hl := hlv.le
  refine works_head rfl (Desk.serve_read (k := 0) rfl (by exact Nat.add_le_add_right hl 3) rfl hb) (if_pos hc.1) ?_
  let d1 : Desk := { d with
    sinhvien := some l, voinuoc := some vn, output := out, top := [⟨.sinhvien, p + 1, false⟩, ⟨.voinuoc, vn.length, true⟩] }
  obtain ⟨r1, slot1, hp, hs1⟩ := Desk.serve_put (d := d1) (k := 1) (hlv.serves (.inl rfl)) rfl rfl ⟨rfl, fun _ => rfl⟩ hby hrm
  cases hs1 rfl
  refine works_head rfl hp rfl ?_
  refine works_open rfl rfl (.inl rfl) hl rfl (fun hfd => congrArg (Sinhvien.mk · _ _ _ _ _ _) (if_neg hfd)) ?_
  let d2 : Desk := { d with
    sinhvien := some l, voinuoc := some (written live vn [c]), output := out
    top := [⟨.sinhvien, p + 1, false⟩, ⟨.voinuoc, (written live vn [c]).length, true⟩, ⟨.output, 0, true⟩] }
  obtain ⟨r2, pos, hs, hps⟩ := Desk.serve_seek (d := d2) (k := 2) (hlv.serves (.inr rfl)) rfl rfl
  refine works_head rfl hs rfl ?_
  let d3 : Desk := { d2 with
    top := [⟨.sinhvien, p + 1, false⟩, ⟨.voinuoc, (written live vn [c]).length, true⟩, ⟨.output, pos, true⟩] }
  obtain ⟨r3, slot3, hp, -⟩ := Desk.serve_put (d := d3) (k := 2) (hlv.serves (.inr rfl)) rfl rfl ⟨rfl, hps⟩ hby hr
  refine works_head rfl hp rfl ?_
  refine works_head rfl (Desk.serve_close (k := 2) rfl ?_) rfl .refl
  exact Nat.lt_of_le_of_lt (Nat.add_le_add_right hl 5) (by decide)

section

variable {len : Nat} {s₁ s₂ so : Word} {point : Point}

theorem ofNat_succ (p : Nat) : ofNat 32 p + 1 = ofNat 32 (p + 1) := (ofNat_add p 1).symm

theorem next_eq (hl : len ≤ maxOffset) (hp : p < len) :
    next ⟨point, s₁, s₂, so, ofNat 32 len, ofNat 32 p, c⟩ =
      ⟨if p + 1 < len then .readChar else .signalMain, s₁, s₂, so, ofNat 32 len, ofNat 32 (p + 1), c⟩ := by
  simp only [next, loop, ofNat_succ, ofNat_slt hl (Nat.succ_le_of_lt hp), decide_eq_true_eq]

theorem last_iff (hl : len ≤ maxOffset) (hp : p < len) :
    ofNat 32 p = ofNat 32 len - 1 ↔ p + 1 = len := by
  have hm : len ≤ 2147483647 := hl
  rw [show (1 : Word) = ofNat 32 1 from rfl, ofNat_sub_ofNat_of_le len 1 (by decide) (by omega), toNat_eq,
    ofNat_toNat (by omega), ofNat_toNat (by omega)]
  omega

theorem charDone_last (hl : len ≤ maxOffset) (hp : p + 1 = len) (getWater : Bool) :
    charDone ⟨point, s₁, s₂, so, ofNat 32 len, ofNat 32 p, c⟩ getWater =
      ⟨.writeStar, s₁, s₂, so, ofNat 32 len, ofNat 32 p, c⟩ :=
  if_pos ((last_iff hl (by omega)).mpr hp)

theorem charDone_space (hl : len ≤ maxOffset) (hp : p + 1 < len) :
    charDone ⟨point, s₁, s₂, so, ofNat 32 len, ofNat 32 p, c⟩ true =
      ⟨.closeVoinuoc, s₁, s₂, so, ofNat 32 len, ofNat 32 p, c⟩ :=
  (if_neg (mt (last_iff hl (by omega)).mp (by omega))).trans (if_pos rfl)

theorem charDone_digit (hl : len ≤ maxOffset) (hp : p + 1 < len) :
    charDone ⟨point, s₁, s₂, so, ofNat 32 len, ofNat 32 p, c⟩ false =
      ⟨.readChar, s₁, s₂, so, ofNat 32 len, ofNat 32 (p + 1), c⟩ := by
  refine (if_neg (mt (last_iff hl (by omega)).mp (by omega))).trans ((if_neg Bool.false_ne_true).trans ?_)
  rw [next_eq hl (by omega), if_pos hp]

end

/-- The mark after the last number of a line. -/
def mark (last : Bool) : List Byte := if last then [42] else []

/-- A number goes to voinuoc.txt and to output.txt, and sinhvien is to signal voinuoc. -/
theorem number_run (hlv : Lives live d.left) (hln : l.length ≤ maxOffset) {rest : List Byte}
    (hrs : rest = [] ∨ ∃ more, more ≠ [] ∧ rest = 32 :: more) (digits : List Byte) :
    ∀ {p : Nat} {vn out : List Byte} (so : Word) (ch : Byte), digits ≠ [] → (∀ b ∈ digits, IsDigit b) → l.drop p = digits ++ rest →
    vn.length + digits.length + 1 ≤ maxOffset → out.length + digits.length ≤ maxOffset →
    ∃ q c so', q < l.length ∧ l.drop (q + 1) = rest.tail ∧ Worked call resume
      ({ d with sinhvien := some l, voinuoc := some vn, output := out, top := [⟨.sinhvien, p, false⟩, ⟨.voinuoc, vn.length, true⟩] },
        ⟨.readChar, fd d.left 0, fd d.left 1, so, ofNat 32 l.length, ofNat 32 p, ch⟩)
      ({ d with
          sinhvien := some l
          voinuoc := some (written live vn (digits ++ mark rest.isEmpty))
          output := written live out digits
          top := [⟨.sinhvien, q + 1, false⟩] },
        ⟨.signalVoinuoc, fd d.left 0, fd d.left 1, so', ofNat 32 l.length, ofNat 32 q, c⟩) := by
  induction digits with
  | nil => exact fun _ _ hne => absurd rfl hne
  | cons b digits ih =>
    intro p vn out so ch _ hd hdro hr hrm
    obtain ⟨hb, hd⟩ := forall_mem_cons.mp hd
    rw [List.cons_append] at hdro
    obtain ⟨hg, hn⟩ := next_of_drop hdro
    rw [length_cons] at hr hrm
    have hlf := hlv.le
    have hp : p < l.length := (List.getElem?_eq_some_iff.mp hg).1
    have hl : l.length = p + 1 + (digits.length + rest.length) := by
      have := congrArg List.length hn
      rw [length_drop, length_append] at this
      omega
    have hne : b ≠ 32 ∧ b ≠ 0 := by
      constructor <;> rintro rfl <;> exact absurd hb (by decide)
    have hrm1 : vn.length + 1 ≤ maxOffset := by omega
    have hr1 : out.length + 1 ≤ maxOffset := by omega
    have hc := char_run hlv hne hg hrm1 hr1 so
      (ofNat 32 l.length) (ofNat 32 p) ch
    have hcl : d.left.length + 3 + 1 < 15 := by omega
    by_cases hm : digits = []
    · subst hm
      rcases hrs with rfl | ⟨more, hm, rfl⟩
      · -- the last character of the line
        rw [charDone_last hln (by rw [hl]; rfl)] at hc
        have hmr : ([42] : List Byte) ≠ [] ∧ ∀ b ∈ ([42] : List Byte), b ≠ 0 := by decide
        obtain ⟨r, slot, hpt, -⟩ := Desk.serve_put (k := 1)
          (d := { d with
            sinhvien := some l
            voinuoc := some (written live vn [b])
            output := written live out [b]
            top := [⟨.sinhvien, p + 1, false⟩, ⟨.voinuoc, (written live vn [b]).length, true⟩] })
          (hlv.serves (.inl rfl)) rfl rfl ⟨rfl, fun _ => rfl⟩ hmr
          (Nat.le_trans (Nat.add_le_add_right (length_written_le ..) 1) hr)
        refine ⟨p, b, fd d.left 2, hp, hn, hc.trans (works_head rfl hpt rfl ?_)⟩
        rw [← written_written]
        exact works_head rfl (Desk.serve_close (k := 1) rfl hcl) rfl .refl
      · -- the space
        obtain ⟨hs, hm'⟩ := next_of_drop hn
        have hps := length_pos_iff.mpr hm
        rw [length_cons] at hl
        rw [charDone_digit hln (by omega)] at hc
        refine ⟨p + 1, 32, fd d.left 2, by omega, hm', hc.trans ?_⟩
        refine works_head rfl (Desk.serve_read (k := 0) rfl (by exact Nat.add_le_add_right hlf 3) rfl hs)
          ((if_neg (not_not_intro rfl)).trans (charDone_space hln (by omega))) ?_
        exact works_head rfl (Desk.serve_close (k := 1) rfl hcl) rfl .refl
    · have hps := length_pos_iff.mpr hm
      rw [charDone_digit hln (by omega)] at hc
      have hvn := length_written_le live vn [b]
      have ho := length_written_le live out [b]
      rw [length_singleton] at hvn ho
      have hrm2 : (written live vn [b]).length + digits.length + 1 ≤ maxOffset := by omega
      have hr2 : (written live out [b]).length + digits.length ≤ maxOffset := by omega
      obtain ⟨q, c, so', hq, hdrp, hrn⟩ := ih (fd d.left 2) b hm hd hn hrm2 hr2
      rw [written_written, written_written] at hrn
      exact ⟨q, c, so', hq, hdrp, hc.trans hrn⟩

/-- voinuoc.txt is made anew. -/
theorem again_run (hl : d.left.length ≤ 6) (slot : Slot) (s₁ s₂ so len fp : Word) (c : Byte) :
    Worked call resume ({ d with top := [slot] }, ⟨.createAgain, s₁, s₂, so, len, fp, c⟩)
      ({ d with voinuoc := some [], top := [slot, ⟨.voinuoc, 0, true⟩] }, next ⟨.openAgain, s₁, fd d.left 1, so, len, fp, c⟩) := by
  refine works_head rfl (Desk.serve_create _ .voinuoc) rfl ?_
  exact works_open rfl rfl (.inl rfl) hl rfl (fun hfd => if_neg hfd) .refl

end Sinhvien

/-! ## voinuoc -/

inductive Tap where
  | one
  | two
  deriving DecidableEq, Repr

/-- What is written for a tap. -/
def tapText : Option Tap → List Byte
  | none => []
  | some .one => [32, 49]
  | some .two => [32, 50]

/-- What is written after a number and its tap. -/
def separator (last : Bool) : List Byte := if last then [13, 10] else [32, 32, 32]

/-- The tap for a number, and what it leaves in `tap1` and `tap2`. -/
def pick (tap1 tap2 tapTime : Word) : Option Tap × Word × Word :=
  if tapTime = 0 then (none, tap1, tap2)
  else if tap1.sle tap2 then (some .one, tap1 + tapTime, tap2)
  else (some .two, tap1, tap2 + tapTime)

namespace Voinuoc

open Sinhvien (mark)

variable {d : Desk} {slot : Slot} {out : List Byte} {last : Bool} {t₁ t₂ n s₁ so : Word} {ch : Byte}

theorem open_run (hl : d.left.length ≤ 6) (slot : Slot) (content : List Byte) (t₁ t₂ n s₁ so : Word) (solved : Bool) (ch : Byte) :
    Worked call resume
      ({ d with voinuoc := some content, top := [slot] }, ⟨.openVoinuoc, s₁, so, t₁, t₂, n, solved, ch⟩)
      ({ d with voinuoc := some content, top := [slot, ⟨.voinuoc, 0, false⟩] }, ⟨.readChar, fd d.left 1, so, t₁, t₂, 0, false, ch⟩) := by
  exact works_open rfl rfl (.inr rfl) hl rfl (fun hfd => if_neg hfd) .refl

variable (slot so t₁ t₂) in
theorem read_run (hl : d.left.length ≤ 4) {content : List Byte} (last : Bool) (digits : List Byte) : (∀ b ∈ digits, IsDigit b) →
    ∀ (pos : Nat) (n : Word) (ch : Byte), content.drop pos = digits ++ mark last →
    ∃ pos' ch', Worked call resume
      ({ d with voinuoc := some content, top := [slot, ⟨.voinuoc, pos, false⟩] },
        ⟨.readChar, fd d.left 1, so, t₁, t₂, n, false, ch⟩)
      ({ d with voinuoc := some content, top := [slot, ⟨.voinuoc, pos', false⟩] },
        ⟨.closeVoinuoc, fd d.left 1, so, t₁, t₂, digits.foldl addDigit n, last, ch'⟩) := by
  have h9 : d.left.length + 3 + 1 ≤ 9 := by omega
  induction digits with
  | nil =>
    intro _ pos n ch hd
    cases last with
    | false => exact ⟨pos, ch, works_head rfl (Desk.serve_read_end (k := 1) rfl (by exact h9) rfl (end_of_drop hd)) rfl .refl⟩
    | true => exact ⟨pos + 1, 42, works_head rfl (Desk.serve_read (k := 1) rfl (by exact h9) rfl (next_of_drop hd).1) rfl .refl⟩
  | cons b digits ih =>
    intro hdg pos n ch hd
    obtain ⟨hb, hdg⟩ := forall_mem_cons.mp hdg
    obtain ⟨hg, hn⟩ := next_of_drop hd
    obtain ⟨pos', ch', hr⟩ := ih hdg (pos + 1) (addDigit n b) b hn
    have hne : b ≠ 42 := by
      rintro rfl
      exact absurd hb (by decide)
    have hdi : resume ⟨.readChar, fd d.left 1, so, t₁, t₂, n, false, ch⟩ ⟨1, some b⟩ =
      ⟨.readChar, fd d.left 1, so, t₁, t₂, addDigit n b, false, b⟩ := if_neg hne
    refine ⟨pos', ch', works_head rfl (Desk.serve_read (k := 1) rfl (by exact h9) rfl hg) hdi ?_⟩
    exact hr

/-- What follows the choice of a tap. -/
theorem tapDone_run (hl : d.left.length ≤ 4) (hr : out.length + (separator last).length ≤ maxOffset) (point : Point) :
    Worked call resume
      ({ d with output := out, top := [slot, ⟨.output, out.length, true⟩] }, tapDone ⟨point, s₁, fd d.left 1, t₁, t₂, n, last, ch⟩)
      ({ d with output := out ++ separator last, top := [slot] },
        ⟨.signal, s₁, fd d.left 1, if last then 0 else t₁, if last then 0 else t₂, n, last, ch⟩) := by
  have h9 : d.left.length + 3 + 1 ≤ 9 := by omega
  have h15 : d.left.length + 3 + 1 < 15 := by omega
  cases last with
  | false | true =>
    refine works_head rfl (Desk.serve_write (k := 1) rfl (by exact h9) rfl ⟨rfl, rfl⟩ (by decide) hr) rfl ?_
    exact works_head rfl (Desk.serve_close (k := 1) rfl h15) rfl .refl

theorem chooseTap_run (hl : d.left.length ≤ 4)
    (hr : out.length + (tapText (pick t₁ t₂ n).1).length + (separator last).length ≤ maxOffset) (point : Point) :
    Worked call resume
      ({ d with output := out, top := [slot, ⟨.output, out.length, true⟩] }, chooseTap ⟨point, s₁, fd d.left 1, t₁, t₂, n, last, ch⟩)
      ({ d with output := out ++ tapText (pick t₁ t₂ n).1 ++ separator last, top := [slot] },
        ⟨.signal, s₁, fd d.left 1, if last then 0 else (pick t₁ t₂ n).2.1, if last then 0 else (pick t₁ t₂ n).2.2, n, last, ch⟩) := by
  have h9 : d.left.length + 3 + 1 ≤ 9 := by omega
  rw [← length_append] at hr
  have hf : ∀ {bytes : List Byte}, (out ++ bytes).length + (separator last).length ≤ maxOffset →
      out.length + bytes.length ≤ maxOffset := by
    intro bytes h
    rw [length_append] at h
    omega
  by_cases h0 : n = 0
  · have hp : pick t₁ t₂ n = (none, t₁, t₂) := if_pos h0
    have hc : chooseTap ⟨point, s₁, fd d.left 1, t₁, t₂, n, last, ch⟩ = tapDone _ := if_pos h0
    rw [hp, tapText, append_nil] at hr ⊢
    rw [hc]
    exact tapDone_run hl hr point
  by_cases hle : t₁.sle t₂ = true
  · have hp : pick t₁ t₂ n = (some .one, t₁ + n, t₂) := (if_neg h0).trans (if_pos hle)
    have hc : chooseTap ⟨point, s₁, fd d.left 1, t₁, t₂, n, last, ch⟩ =
      ⟨.writeTap1, s₁, fd d.left 1, t₁ + n, t₂, n, last, ch⟩ := (if_neg h0).trans (if_pos hle)
    rw [hp, tapText] at hr ⊢
    rw [hc]
    refine works_head rfl (Desk.serve_write (k := 1) rfl (by exact h9) rfl ⟨rfl, rfl⟩ (by decide) (by exact hf hr)) rfl ?_
    exact length_append ▸ tapDone_run hl hr .writeTap1
  · have hp : pick t₁ t₂ n = (some .two, t₁, t₂ + n) := (if_neg h0).trans (if_neg hle)
    have hc : chooseTap ⟨point, s₁, fd d.left 1, t₁, t₂, n, last, ch⟩ =
      ⟨.writeTap2, s₁, fd d.left 1, t₁, t₂ + n, n, last, ch⟩ := (if_neg h0).trans (if_neg hle)
    rw [hp, tapText] at hr ⊢
    rw [hc]
    refine works_head rfl (Desk.serve_write (k := 1) rfl (by exact h9) rfl ⟨rfl, rfl⟩ (by decide) (by exact hf hr)) rfl ?_
    exact length_append ▸ tapDone_run hl hr .writeTap2

variable (slot) in
/-- From the number in voinuoc.txt to the Signal. -/
theorem number_run (hl : d.left.length ≤ 4) {digits : List Byte} (hd : ∀ b ∈ digits, IsDigit b)
    (hn : digits.foldl addDigit 0 = n)
    (hrm : out.length + (tapText (pick t₁ t₂ n).1).length + (separator last).length ≤ maxOffset)
    (s₁ so n0 : Word) (solved : Bool) (ch : Byte) :
    ∃ s1' so' ch', Worked call resume
      ({ d with voinuoc := some (digits ++ mark last), output := out, top := [slot] },
        ⟨.openVoinuoc, s₁, so, t₁, t₂, n0, solved, ch⟩)
      ({ d with
          voinuoc := some (digits ++ mark last)
          output := out ++ tapText (pick t₁ t₂ n).1 ++ separator last
          top := [slot] },
        ⟨.signal, s1', so', if last then 0 else (pick t₁ t₂ n).2.1, if last then 0 else (pick t₁ t₂ n).2.2, n, last, ch'⟩) := by
  have h9 : d.left.length + 3 + 1 ≤ 9 := by omega
  have h15 : d.left.length + 3 + 1 < 15 := by omega
  let d0 : Desk := { d with voinuoc := some (digits ++ mark last), output := out }
  obtain ⟨pos, ch', hr⟩ := read_run (d := d0) slot t₁ t₂ so hl last digits hd 0 0 ch rfl
  rw [hn] at hr
  refine ⟨fd d.left 1, fd d.left 1, ch', (open_run (d := d0) (by exact Nat.le_trans hl (by decide)) ..).trans (hr.trans ?_)⟩
  refine works_head rfl (Desk.serve_close (k := 1) rfl h15) rfl ?_
  refine works_open rfl rfl (.inl rfl) (by exact Nat.le_trans hl (by decide)) rfl
    (fun hfd => congrArg (Voinuoc.mk · _ _ _ _ _ _ _) (if_neg hfd)) ?_
  refine works_head rfl (Desk.serve_seek_end (k := 1) rfl (by exact h9) rfl) rfl ?_
  exact chooseTap_run (d := d0) hl hrm .seekOutput

end Voinuoc

end Nachos.WaterTaps

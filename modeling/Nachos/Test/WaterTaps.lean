/-
  Nachos.Test.WaterTaps — do the three programs solve the problem of the water taps?

  For each line of input.txt the numbers go to two taps, each to the tap with the smaller load.
  The programs are run on the kernel's own file calls (`kernel`), under every schedule.
  With four lines or more no run ends: sinhvien leaves two descriptors open for each line, and
  voinuoc reads the fourth line's first number from descriptor 10, which Read refuses.
-/

import Nachos.Test.Kernel
import Nachos.Test.Rounds

namespace Nachos.WaterTaps

open Lib List
open Lib.Decimal (IsDigit)
open Relation (ReflTransGen)
open Stub (FileSystem maxOffset)

/-! ## The problem -/

/-- input.txt: a line with the number of lines, and the lines. -/
structure Input where
  count : List Byte
  lines : List (List (List Byte))
  /-- The last line has its newline. -/
  ended : Bool
  isCount : IsNumeral count ∧ Lib.Decimal.value count = lines.length
  isLine : ∀ line ∈ lines, IsLine line ∧ ∀ n ∈ line, 0 < Lib.Decimal.value n

def Input.text (i : Input) : List Byte := i.count ++ 10 :: linesText i.ended i.lines

/-- Each number goes to the tap with the smaller load, and to the first if they are equal. -/
def greedy (load₁ load₂ : Nat) : List Nat → List Tap
  | [] => []
  | n :: ns => if load₁ ≤ load₂ then .one :: greedy (load₁ + n) load₂ ns else .two :: greedy load₁ (load₂ + n) ns

def expected (lines : List (List (List Byte))) : List Byte :=
  lines.flatMap fun line => lineOutput line ((greedy 0 0 (line.map Lib.Decimal.value)).map some)

/-- The machine has halted, and output.txt is right. -/
def Solved (lines : List (List (List Byte))) (s : System FileSystem) : Prop :=
  s.halted = true ∧ ∃ i, s.files.host.names File.output.name = some i ∧ s.files.host.content i = expected lines

/-- With loads that are `int`s the taps are the same. -/
def Exact (line : List (List Byte)) : Prop :=
  wordTaps 0 0 (line.map word) = (greedy 0 0 (line.map Lib.Decimal.value)).map some

instance (line : List (List Byte)) : Decidable (Exact line) := inferInstanceAs (Decidable (_ = _))

/-! ## Two outputs -/

theorem length_wordTaps (ns : List Word) : ∀ t1 t2, (wordTaps t1 t2 ns).length = ns.length := by
  induction ns with
  | nil => exact fun _ _ => rfl
  | cons n ns ih => exact fun t1 t2 => congrArg (· + 1) (ih ..)

theorem length_greedy (ns : List Nat) : ∀ l1 l2, (greedy l1 l2 ns).length = ns.length := by
  induction ns with
  | nil => exact fun _ _ => rfl
  | cons n ns ih =>
    intro l1 l2
    rw [greedy]
    split <;> exact congrArg (· + 1) (ih ..)

theorem length_tapText_le (tap : Option Tap) (tap' : Tap) : (tapText tap).length ≤ (tapText (some tap')).length := by
  cases tap' <;> cases tap <;> first | decide | (rename_i tap; cases tap <;> decide)

/-- A tap and what follows it can be told from another. -/
theorem tapText_inj {tap : Option Tap} {tap' : Tap} {last : Bool} {r r' : List Byte}
    (h : tapText tap ++ (separator last ++ r) = tapText (some tap') ++ (separator last ++ r')) : tap = some tap' ∧ r = r' := by
  cases tap with
  | none =>
    cases last <;> cases tap' <;> cases h
  | some tap =>
    cases last <;> cases tap <;> cases tap' <;> cases h <;> exact ⟨rfl, rfl⟩

/-- Two lines of output with the same numbers, the second with all its taps. -/
theorem lineOutput_inj (n : List Byte) (ns : List (List Byte)) : ∀ {taps : List (Option Tap)} {taps' : List Tap} {r r' : List Byte},
    taps.length = ns.length + 1 → taps'.length = ns.length + 1 →
    lineOutput (n :: ns) taps ++ r = lineOutput (n :: ns) (taps'.map some) ++ r' → taps = taps'.map some ∧ r = r' := by
  induction ns generalizing n with
  | nil =>
    intro taps taps' r r' hl hl' h
    obtain ⟨tap, rfl⟩ := length_eq_one_iff.mp hl
    obtain ⟨tap', rfl⟩ := length_eq_one_iff.mp hl'
    rw [map_singleton, lineOutput_one, lineOutput_one, append_assoc, append_assoc, append_assoc, append_assoc,
      append_cancel_left_eq] at h
    obtain ⟨rfl, hr⟩ := tapText_inj h
    exact ⟨rfl, hr⟩
  | cons n' ns ih =>
    intro taps taps' r r' hl hl' h
    rw [length_cons] at hl hl'
    obtain ⟨tap, taps, rfl⟩ := exists_of_length_succ taps hl
    obtain ⟨tap', taps', rfl⟩ := exists_of_length_succ taps' hl'
    rw [length_cons, Nat.add_right_cancel_iff] at hl hl'
    obtain ⟨tap1, taps, rfl⟩ := exists_of_length_succ taps hl
    obtain ⟨tap1', taps', rfl⟩ := exists_of_length_succ taps' hl'
    rw [map_cons, map_cons, lineOutput_cons, lineOutput_cons] at h
    simp only [append_assoc, append_cancel_left_eq] at h
    obtain ⟨rfl, hrs⟩ := tapText_inj h
    obtain ⟨ht, hr⟩ := ih n' hl hl' hrs
    exact ⟨congrArg (_ :: ·) ht, hr⟩

theorem length_lineOutput_le (n : List Byte) (ns : List (List Byte)) : ∀ {taps : List (Option Tap)} {taps' : List Tap},
    taps.length = ns.length + 1 → taps'.length = ns.length + 1 →
    (lineOutput (n :: ns) taps).length ≤ (lineOutput (n :: ns) (taps'.map some)).length := by
  induction ns generalizing n with
  | nil =>
    intro taps taps' hl hl'
    obtain ⟨tap, rfl⟩ := length_eq_one_iff.mp hl
    obtain ⟨tap', rfl⟩ := length_eq_one_iff.mp hl'
    have := length_tapText_le tap tap'
    rw [map_singleton, lineOutput_one, lineOutput_one]
    simp only [length_append]
    omega
  | cons n' ns ih =>
    intro taps taps' hl hl'
    rw [length_cons] at hl hl'
    obtain ⟨tap, taps, rfl⟩ := exists_of_length_succ taps hl
    obtain ⟨tap', taps', rfl⟩ := exists_of_length_succ taps' hl'
    rw [length_cons, Nat.add_right_cancel_iff] at hl hl'
    have hr := ih n' hl hl'
    obtain ⟨tap1, taps, rfl⟩ := exists_of_length_succ taps hl
    obtain ⟨tap1', taps', rfl⟩ := exists_of_length_succ taps' hl'
    have := length_tapText_le tap tap'
    rw [map_cons, map_cons, lineOutput_cons, lineOutput_cons]
    rw [map_cons] at hr
    simp only [length_append]
    omega

theorem length_lineOutput {n : List Byte} {ns : List (List Byte)} {taps : List (Option Tap)} (hl : taps.length = ns.length + 1) :
    n.length + 2 ≤ (lineOutput (n :: ns) taps).length := by
  obtain ⟨tap, taps, rfl⟩ := exists_of_length_succ taps hl
  rw [length_cons, Nat.add_right_cancel_iff] at hl
  cases ns with
  | nil =>
    rw [eq_nil_of_length_eq_zero hl, lineOutput_one]
    simp only [length_append, separator, if_true, length_cons]
    omega
  | cons n' ns =>
    obtain ⟨tap1, taps, rfl⟩ := exists_of_length_succ taps hl
    rw [lineOutput_cons]
    simp only [length_append, separator, Bool.false_eq_true, if_false, length_cons]
    omega

section

variable {line : List (List Byte)} {lines : List (List (List Byte))}

theorem length_taps (hl : IsLine line) : ∃ n ns, line = n :: ns ∧ (wordTaps 0 0 (line.map word)).length = ns.length + 1 ∧
    (greedy 0 0 (line.map Decimal.value)).length = ns.length + 1 := by
  obtain ⟨n, ns, rfl⟩ := exists_cons_of_ne_nil hl.1
  exact ⟨n, ns, rfl, by rw [length_wordTaps, length_map, length_cons], by rw [length_greedy, length_map, length_cons]⟩

theorem wordOutput_eq_expected (hli : ∀ line ∈ lines, IsLine line) :
    wordOutput lines = expected lines ↔ ∀ line ∈ lines, Exact line := by
  have hc : ∀ line lines, wordOutput (line :: lines) = lineOutput line (wordTaps 0 0 (line.map word)) ++ wordOutput lines ∧
      expected (line :: lines) = lineOutput line ((greedy 0 0 (line.map Decimal.value)).map some) ++ expected lines :=
    fun _ _ => ⟨flatMap_cons, flatMap_cons⟩
  induction lines with
  | nil => exact iff_of_true rfl fun _ h => absurd h not_mem_nil
  | cons line lines ih =>
    obtain ⟨hl, hm⟩ := forall_mem_cons.mp hli
    rw [(hc line lines).1, (hc line lines).2, forall_mem_cons]
    constructor
    · intro h
      obtain ⟨n, ns, rfl, hln, hl'⟩ := length_taps hl
      obtain ⟨he, hr⟩ := lineOutput_inj n ns hln hl' h
      exact ⟨he, (ih hm).mp hr⟩
    · rintro ⟨he, hr⟩
      rw [(ih hm).mpr hr, show wordTaps 0 0 (line.map word) = _ from he]

theorem length_wordOutput_le (hli : ∀ line ∈ lines, IsLine line) : (wordOutput lines).length ≤ (expected lines).length := by
  induction lines with
  | nil => exact Nat.le_refl _
  | cons line lines ih =>
    obtain ⟨hl, hm⟩ := forall_mem_cons.mp hli
    have hr := ih hm
    obtain ⟨n, ns, rfl, hln, hl'⟩ := length_taps hl
    have hf := length_lineOutput_le n ns hln hl'
    simp only [wordOutput, expected, flatMap_cons, length_append] at hr ⊢
    omega

end

/-! ## On the kernel -/

namespace System

variable {fs : FileSystem} {t : System Files}

/-- A run on the files as the programs know them is a run on the kernel's. -/
theorem kernel_turns {a : Files} (h : Agrees fs a) (hr : ReflTransGen (Turn Files.serve) (boot a) t) :
    ∃ f, ReflTransGen (Turn kernel) (boot fs) (t.withFiles f) ∧ Agrees f t.files := by
  have hs : ∀ (s : System FileSystem) (s' t' : System Files), (∃ f, s = s'.withFiles f ∧ Agrees f s'.files) → Turn Files.serve s' t' →
      ∃ t, Turn kernel s t ∧ ∃ f, t = t'.withFiles f ∧ Agrees f t'.files := by
    rintro s s' t' ⟨f, rfl, hf⟩ ht
    obtain ⟨g, hg, hag⟩ := turn_simulated (fun _ _ _ _ _ => kernel_serves) hf ht
    exact ⟨_, hg, g, rfl, hag⟩
  obtain ⟨_, hu, f, rfl, hf⟩ := turns_simulated hs ⟨fs, rfl, h⟩ hr
  exact ⟨f, hu, hf⟩

/-- A dead descriptor can be read for ever. -/
theorem stuck_forever {lines : List (List (List Byte))} {f : FileSystem} (h : Agrees f t.files) (ht : Stuck t) :
    ¬ Ends (step kernel) (Solved lines) (t.withFiles f) := by
  refine not_ends (fun s => ∃ a, Agrees s.files a ∧ Stuck (s.withFiles a)) ?_ ⟨t.files, h, ht⟩
  rintro s ⟨a, ha, hr, w, slot, hw, hp, hc, hd, hs⟩
  obtain ⟨files, value, m, v, voinuoc, halted⟩ := s
  obtain ⟨point, id, so, t1, t2, n, solved, c⟩ := w
  have hw : voinuoc = _ := hw
  have hp : point = .readChar := hp
  have hc : c = 0 := hc
  have hr : halted = false := hr
  subst hw hp hc hr
  have hsr : a.serve (.read id) = some (⟨-1, none⟩, a) := by
    have hs : a.slotOf id = some slot := hs
    rw [Files.serve, hs, Option.bind_some, Files.read, if_neg (Nat.not_le.mpr hd)]
  obtain ⟨fs', hk, ha'⟩ := kernel_serves ha hsr
  exact ⟨.voinuoc, _, step_file rfl rfl hk, a, ha', rfl, _, slot, rfl, rfl, rfl, hd, hs⟩

section

variable {i : Input} (h : Agrees fs (fresh i.text))
include h

/-- input.txt is a file. -/
theorem text_small : i.text.length ≤ maxOffset := by
  obtain ⟨ino, -, hc⟩ := h.content .input i.text rfl
  rw [← hc]
  exact fs.host.small ino

theorem count_small : i.lines.length ≤ maxOffset := by
  have hln : ∀ lines : List (List (List Byte)), (∀ line ∈ lines, IsLine line) → lines.length ≤ (linesText i.ended lines).length := by
    intro lines
    induction lines with
    | nil => exact fun _ => Nat.le_refl _
    | cons line lines ih =>
      intro hln
      obtain ⟨hl, hm⟩ := forall_mem_cons.mp hln
      obtain ⟨rest, ht, -, htl⟩ := linesText_cons i.ended line lines
      obtain ⟨n, ns, rfl⟩ := exists_cons_of_ne_nil hl.1
      have hp := length_pos_iff.mpr (show lineText (n :: ns) ≠ [] from lineText_ne_nil (hl.2 n mem_cons_self).1)
      have hr := congrArg List.length htl
      have := ih hm
      rw [length_tail] at hr
      rw [ht, length_append, length_cons]
      omega
  have hs := text_small h
  have := hln i.lines fun line hl => (i.isLine line hl).1
  rw [Input.text, length_append, length_cons] at hs
  omega

/-- The first lines are served, as long as there are three at most. -/
theorem first_turns (first more : List (List (List Byte))) (hli : i.lines = first ++ more) (hth : first.length ≤ 3)
    (hrm : (wordOutput first).length ≤ maxOffset) :
    ∃ d s, ReflTransGen (Turn Files.serve) (boot (fresh i.text)) s ∧ AtTop d more.length s ∧ d.input = i.text ∧
      d.input.drop d.taken = linesText i.ended more ∧ d.left.length = 2 * first.length ∧ d.output = wordOutput first := by
  obtain ⟨d0, s0, hb, ht, hin, hd, hl, ho⟩ := boot_turns (show i.text = _ from rfl) i.isCount.1.2 i.isCount.2
  have hc := count_small h
  rw [hli] at ht hd hc
  have his : ∀ line ∈ first, IsLine line := fun line hln =>
    (i.isLine line (hli ▸ mem_append_left more hln)).1
  obtain ⟨d, s, hr, ht', hi', hd', hl', ho'⟩ := lines_turns i.ended more first ht hc his hd
    (by rw [hin]; exact text_small h) (by rw [hl, length_nil]; omega) (by rw [ho, nil_append]; exact hrm)
  refine ⟨d, s, hb.trans hr, ht', hi'.trans hin, hd', ?_, ?_⟩
  · rw [hl', hl, length_nil, Nat.zero_add]
  · rw [ho', ho, nil_append]

theorem ends_of_three (hth : i.lines.length ≤ 3) (hrm : (wordOutput i.lines).length ≤ maxOffset) :
    Ends (step kernel) (Solved i.lines) (boot fs) ↔ wordOutput i.lines = expected i.lines := by
  obtain ⟨d, s, hrn, ht, -, -, -, hot⟩ := first_turns h i.lines [] (append_nil _).symm hth hrm
  obtain ⟨t, hf, hh, ho⟩ := finish_turns ht
  obtain ⟨f, hk, ha⟩ := kernel_turns h (hrn.trans hf)
  rw [ends_of_turns (turns_only hk), ends_of_stuck]
  · obtain ⟨ino, hn, hc⟩ := ha.content .output d.output ho
    rw [hot] at hc
    constructor
    · rintro ⟨-, ino', hn', hr⟩
      cases hn.symm.trans hn'
      exact hc.symm.trans hr
    · intro hr
      exact ⟨hh, ino, hn, hc.trans hr⟩
  · intro p
    unfold step
    exact if_pos hh

theorem not_ends_of_four (hfo : 4 ≤ i.lines.length) (hrm : (expected i.lines).length ≤ maxOffset) :
    ¬ Ends (step kernel) (Solved i.lines) (boot fs) := by
  have hs : i.lines = i.lines.take 3 ++ i.lines.drop 3 := (take_append_drop 3 i.lines).symm
  obtain ⟨line, more, hmr⟩ := exists_cons_of_ne_nil (show i.lines.drop 3 ≠ [] by rw [ne_eq, drop_eq_nil_iff]; omega)
  rw [hmr] at hs
  have his : ∀ line ∈ i.lines, IsLine line := fun line hl => (i.isLine line hl).1
  have hf : ∀ line ∈ i.lines.take 3, IsLine line := fun line hl => his line (mem_of_mem_take hl)
  have hl : IsLine line := his line (hs ▸ mem_append_right _ mem_cons_self)
  obtain ⟨n, ns, rfl, hle, hl'⟩ := length_taps hl
  have hw := length_wordOutput_le hf
  have hfr : n.length + 2 ≤ (lineOutput (n :: ns) ((greedy 0 0 ((n :: ns).map Decimal.value)).map some)).length :=
    length_lineOutput (by rw [length_map, hl'])
  have htt : (expected i.lines).length = (expected (i.lines.take 3)).length +
      ((lineOutput (n :: ns) ((greedy 0 0 ((n :: ns).map Decimal.value)).map some)).length + (expected more).length) := by
    have he : expected i.lines = expected (i.lines.take 3 ++ (n :: ns) :: more) := congrArg expected hs
    rw [he, expected, flatMap_append, flatMap_cons, length_append, length_append]
    rfl
  have ht : (i.lines.take 3).length = 3 := by
    rw [List.length_take]
    omega
  obtain ⟨d, s, hrn, htp, hin, hd, hlf, ho⟩ :=
    first_turns h (i.lines.take 3) ((n :: ns) :: more) hs (Nat.le_of_eq ht) (by omega)
  obtain ⟨rest, htx, hr, -⟩ := linesText_cons i.ended (n :: ns) more
  rw [htx] at hd
  have hsm := text_small h
  have hln : (lineText (n :: ns)).length ≤ maxOffset := by
    have := congrArg List.length hd
    rw [length_drop, length_append, hin] at this
    omega
  have hm : more.length + 1 ≤ maxOffset := by
    have hc := count_small h
    rw [hs, length_append, length_cons] at hc
    omega
  rw [ht] at hlf
  obtain ⟨t, hst, hlp⟩ := line_stuck htp hm hl.2 hr hd hln hlf (by rw [ho]; omega)
  obtain ⟨f, hk, ha⟩ := kernel_turns h (hrn.trans hst)
  rw [ends_of_turns (turns_only hk)]
  exact stuck_forever ha hlp

end

end System

/-- An output that is longer than a file can be is never there. -/
theorem not_ends_of_long {lines : List (List (List Byte))} {s : System FileSystem} (hl : maxOffset < (expected lines).length) :
    ¬ Ends (System.step kernel) (Solved lines) s := by
  intro he
  obtain ⟨t, -, ino, -, hc⟩ := he.exists_final
  have hs := t.files.host.small ino
  rw [hc] at hs
  omega

/-! ## Loads that fit an `int` -/

theorem ofNat_sle {l1 l2 : Nat} (h1 : l1 < 2147483648) (h2 : l2 < 2147483648) :
    (BitVec.ofNat 32 l1).sle (BitVec.ofNat 32 l2) = true ↔ l1 ≤ l2 := by
  rw [BitVec.sle_iff_toInt_le, ofNat_toInt h1, ofNat_toInt h2]
  exact Int.ofNat_le

theorem ofNat_ne_zero {n : Nat} (hp : 0 < n) (h : n < 2147483648) : BitVec.ofNat 32 n ≠ 0 := by
  intro hz
  have hin := congrArg BitVec.toInt hz
  rw [ofNat_toInt h] at hin
  exact absurd (Int.ofNat_eq_zero.mp hin) (Nat.ne_of_gt hp)

theorem wordTaps_eq (ns : List Nat) : ∀ l1 l2, (∀ n ∈ ns, 0 < n) → l1 + l2 + ns.foldr (· + ·) 0 < 2147483648 →
    wordTaps (BitVec.ofNat 32 l1) (BitVec.ofNat 32 l2) (ns.map (BitVec.ofNat 32)) = (greedy l1 l2 ns).map some := by
  induction ns with
  | nil => exact fun _ _ _ _ => rfl
  | cons n ns ih =>
    intro l1 l2 hp hs
    obtain ⟨hn, hp⟩ := forall_mem_cons.mp hp
    rw [foldr_cons] at hs
    have hle := ofNat_sle (show l1 < 2147483648 by omega) (show l2 < 2147483648 by omega)
    rw [map_cons, wordTaps, pick, if_neg (ofNat_ne_zero hn (by omega)), greedy]
    by_cases h : l1 ≤ l2
    · rw [if_pos (hle.mpr h), if_pos h, ← BitVec.ofNat_add, ih (l1 + n) l2 hp (by omega)]
      rfl
    · rw [if_neg (mt hle.mp h), if_neg h, ← BitVec.ofNat_add, ih l1 (l2 + n) hp (by omega)]
      rfl

/-- The numbers of the line add up to less than 2^31. -/
theorem exact_of_small {line : List (List Byte)} (hp : ∀ n ∈ line, 0 < Decimal.value n)
    (hs : (line.map Decimal.value).foldr (· + ·) 0 < 2147483648) : Exact line := by
  have h := wordTaps_eq (line.map Decimal.value) 0 0 (by simpa using hp) (by omega)
  rw [map_map] at h
  exact h

/-! ## Whole runs -/

/-- Every run of the three programs halts with the right output exactly if there are at most three
    lines, the output fits a file, and the loads come out as exact ones do. -/
theorem water_taps_iff (i : Input) {fs : FileSystem} (hfs : Agrees fs (System.fresh i.text)) :
    Lib.Ends (System.step kernel) (Solved i.lines) (System.boot fs) ↔
      i.lines.length ≤ 3 ∧ (expected i.lines).length ≤ Stub.maxOffset ∧ ∀ line ∈ i.lines, Exact line := by
  have hlines : ∀ line ∈ i.lines, IsLine line := fun line hline => (i.isLine line hline).1
  by_cases hlong : Stub.maxOffset < (expected i.lines).length
  · exact iff_of_false (not_ends_of_long hlong) fun h => Nat.not_lt.mpr h.2.1 hlong
  have hroom : (expected i.lines).length ≤ Stub.maxOffset := Nat.not_lt.mp hlong
  by_cases hthree : i.lines.length ≤ 3
  · rw [System.ends_of_three hfs hthree (Nat.le_trans (length_wordOutput_le hlines) hroom), wordOutput_eq_expected hlines]
    exact ⟨fun h => ⟨hthree, hroom, h⟩, fun h => h.2.2⟩
  · exact iff_of_false (System.not_ends_of_four hfs (Nat.lt_of_not_le hthree) hroom) fun h => hthree h.1

theorem onlyInput_small {text : List Byte} (h : text.length ≤ maxOffset) (j : Stub.Ino) :
    (if j = 0 then text else []).length ≤ maxOffset := by
  split
  · exact h
  · exact Nat.zero_le _

/-- A host with input.txt alone. -/
def onlyInput (text : List Byte) (h : text.length ≤ Stub.maxOffset) : FileSystem where
  openfile := fun _ => none
  host :=
    { names := fun n => if n = File.input.name then some 0 else none
      created := 1
      content := fun j => if j = 0 then text else []
      answers := []
      small := onlyInput_small h }
  log := []

theorem agrees_onlyInput (text : List Byte) (h : text.length ≤ maxOffset) : Agrees (onlyInput text h) (System.fresh text) := by
  have hnm : ∀ n j, (onlyInput text h).host.names n = some j → n = File.input.name ∧ j = 0 := by
    intro n j hn
    have hn : (if n = File.input.name then some 0 else none) = some j := hn
    split at hn
    · rename_i e
      cases hn
      exact ⟨e, rfl⟩
    · cases hn
  refine ⟨rfl, fun n n' j hn hn' => (hnm n j hn).1.trans (hnm n' j hn').1.symm, fun n j hn => ?_, fun file bytes hb => ?_, ?_⟩
  · rw [(hnm n j hn).2]
    exact Nat.zero_lt_one
  · cases file with
    | input =>
      cases hb
      exact ⟨0, rfl, rfl⟩
    | sinhvien | voinuoc | output => cases hb
  · exact fun _ _ _ => trivial

/-- The repository's own input.txt: 4 2 1, 5 3 4 1 and 8 5 2. -/
def sample : Input where
  count := [51]
  lines := [[[52], [50], [49]], [[53], [51], [52], [49]], [[56], [53], [50]]]
  ended := true
  isCount := by
    unfold IsNumeral
    decide
  isLine := by
    unfold IsLine IsNumeral
    decide

theorem water_taps_sample :
    Lib.Ends (System.step kernel) (Solved sample.lines) (System.boot (onlyInput sample.text (by decide))) := by
  refine (water_taps_iff sample (agrees_onlyInput _ _)).mpr ⟨by decide, by decide, fun line hline => ?_⟩
  refine exact_of_small (sample.isLine line hline).2 ?_
  revert line
  decide

/-- Four students at four time points, one litre each. -/
def four : Input where
  count := [52]
  lines := [[[49]], [[49]], [[49]], [[49]]]
  ended := true
  isCount := by
    unfold IsNumeral
    decide
  isLine := by
    unfold IsLine IsNumeral
    decide

theorem four_lines_hang : ¬ Lib.Ends (System.step kernel) (Solved four.lines) (System.boot (onlyInput four.text (by decide))) :=
  System.not_ends_of_four (agrees_onlyInput _ _) (by decide) (by decide)

end Nachos.WaterTaps

/-
  Nachos.Test.Rounds — the three programs in turn.

  Only one program is not waiting at any time, so the schedule has no choice (`Turn`). A
  number takes a round: sinhvien writes it, voinuoc gives it a tap, and sinhvien goes on. A
  line takes a round for each of its numbers, and leaves two descriptors open. After three
  lines voinuoc.txt gets descriptor 10, and voinuoc reads from it for ever (`Stuck`).
-/

import Nachos.Test.Phases

namespace Nachos.WaterTaps

open Lib.Decimal (IsDigit)
open Stub (maxOffset)
open BitVec (ofNat)
open List
open Relation (ReflTransGen)

namespace System

variable {F : Type} {serve : F → FileCall → Option (Returned × F)}

/-! ## Turns -/

section

variable {s : System F} {p q : Process} {r : Returned} {name : Process} {n : Nat}

theorem call_setValue (s : System F) (name : Process) (n : Nat) (p : Process) : (s.setValue name n).call p = s.call p := by
  cases p <;> rfl

theorem resume_setValue (s : System F) (name : Process) (n : Nat) (r : Returned) (p : Process) :
    (s.setValue name n).resume r p = (s.resume r p).setValue name n := by
  cases p <;> rfl

theorem setValue_back (hv : s.value name = n) (m : Nat) : (s.setValue name m).setValue name n = s := by
  have hb : Function.update (Function.update s.value name m) name n = s.value := by
    rw [Function.update_idem, ← hv, Function.update_eq_self]
  exact congrArg (fun value => { s with value := value }) hb

theorem value_resume (s : System F) (r : Returned) (p : Process) : (s.resume r p).value = s.value := by
  cases p <;> rfl

theorem halted_resume (s : System F) (r : Returned) (p : Process) : (s.resume r p).halted = s.halted := by
  cases p <;> rfl

theorem call_resume (hne : q ≠ p) : (s.resume r p).call q = s.call q := by
  cases p <;> cases q <;> first | rfl | exact absurd rfl hne

theorem step_file (hr : s.halted = false) {call : FileCall} {files : F} (hp : s.call p = some (.file call))
    (hs : serve s.files call = some (r, files)) : step serve s p = some ({ s with files := files }.resume r p) := by
  unfold step
  rw [hr, if_neg Bool.false_ne_true, hp]
  exact congrArg (Option.map _) hs

theorem step_signal (hr : s.halted = false) (hp : s.call p = some (.signal name)) :
    step serve s p = some ((s.setValue name (s.value name + 1)).resume ⟨0, none⟩ p) := by
  unfold step
  rw [hr, if_neg Bool.false_ne_true, hp]

theorem step_wait (hr : s.halted = false) (hp : s.call p = some (.wait name)) (hv : s.value name ≠ 0) :
    step serve s p = some ((s.setValue name (s.value name - 1)).resume ⟨0, none⟩ p) := by
  unfold step
  rw [hr, if_neg Bool.false_ne_true, hp]
  exact if_neg hv

end

/-- The process has not been started, or waits. -/
def Rests (s : System F) (p : Process) : Prop := s.call p = none ∨ s.call p = some (.wait p)

theorem Rests.blocked {s : System F} {p : Process} (h : s.Rests p) (hv : s.value p = 0) : s.Blocked p :=
  h.imp id fun hc => ⟨p, hc, hv⟩

theorem Rests.of_call {s : System F} {p : Process} (h : ∀ c ∈ s.call p, c = .wait p) : s.Rests p := by
  cases hc : s.call p with
  | none => exact .inl hc
  | some c => exact .inr (hc.trans (congrArg some (h c hc)))

/-- The others wait while one program goes on. -/
theorem rests_others {s : System F} {p : Process} (hm : p ≠ .main → s.main.call = .wait .main)
    (hv : p ≠ .sinhvien → ∀ x ∈ s.sinhvien, x.call = .wait .sinhvien)
    (hw : p ≠ .voinuoc → ∀ x ∈ s.voinuoc, x.call = .wait .voinuoc) (o : Process) (ho : o ≠ p) : s.Rests o := by
  refine .of_call fun c hc => ?_
  cases o with
  | main => cases hc; exact hm ho.symm
  | sinhvien => obtain ⟨x, hx, rfl⟩ := Option.map_eq_some_iff.mp hc; exact hv ho.symm x hx
  | voinuoc => obtain ⟨x, hx, rfl⟩ := Option.map_eq_some_iff.mp hc; exact hw ho.symm x hx

/-- A program signals another, which goes on while the first waits. -/
theorem handOver {s : System F} {p q : Process} (hne : p ≠ q) (hr : s.halted = false) (hv : s.value = fun _ => 0)
    (hp : s.call p = some (.signal q)) (ht : (s.resume ⟨0, none⟩ p).call p = some (.wait p)) (hq : s.call q = some (.wait q))
    (hrest : ∀ o, o ≠ p → s.Rests o) :
    ReflTransGen (Turn serve) s ((s.resume ⟨0, none⟩ p).resume ⟨0, none⟩ q) := by
  have hz : ∀ o, s.value o = 0 := fun o => congrFun hv o
  have hs : step serve s p = _ := step_signal hr hp
  rw [resume_setValue, hz] at hs
  refine .head ⟨p, hs, fun o ho => (hrest o ho).blocked (hz o)⟩ (.single ⟨q, ?_, fun o ho => ?_⟩)
  · have hc : ((s.resume ⟨0, none⟩ p).setValue q (0 + 1)).call q = some (.wait q) := by
      rw [call_setValue, call_resume hne.symm, hq]
    have hst : ((s.resume ⟨0, none⟩ p).setValue q (0 + 1)).halted = false := (halted_resume s _ p).trans hr
    have hon : ((s.resume ⟨0, none⟩ p).setValue q (0 + 1)).value q = 1 := Function.update_self ..
    rw [step_wait hst hc (by rw [hon]; decide), hon, ← resume_setValue, ← resume_setValue,
      setValue_back (show s.value q = 1 - 1 from hz q)]
  · have hv' : ((s.resume ⟨0, none⟩ p).setValue q (0 + 1)).value o = 0 := by
      refine (Function.update_of_ne ho _ _).trans ?_
      rw [value_resume, hz]
    refine Rests.blocked ?_ hv'
    unfold Rests
    rw [call_setValue]
    by_cases e : o = p
    · subst e
      exact .inr ht
    · rw [call_resume e]
      exact hrest o e

/-! ## One program at work -/

/-- Turns of the three programs. -/
abbrev Turns : System Files → System Files → Prop := ReflTransGen (Turn Files.serve)

/-- What a program does with its files while the others wait, as a run of the system. -/
theorem turns_of_works {V : Type} {call : V → Call} {resume : V → Returned → V} {p : Process} {f : Desk × V → System Files}
    (hst : ∀ x, (f x).files = x.1.files ∧ (f x).halted = false ∧ (f x).value = fun _ => 0)
    (hcl : ∀ x, (f x).call p = some (call x.2))
    (hrs : ∀ x (d : Desk) r, { f x with files := d.files }.resume r p = f (d, resume x.2 r))
    (hrest : ∀ x o, o ≠ p → (f x).Rests o) {x y : Desk × V} (h : Worked call resume x y) :
    Turns (f x) (f y) := by
  refine h.lift f ?_
  rintro x ⟨d, v⟩ ⟨c, r, hc, hs, hv⟩
  obtain ⟨hf, hr, hvl⟩ := hst x
  refine ⟨p, ?_, fun o ho => (hrest x o ho).blocked (congrFun hvl o)⟩
  rw [step_file hr ((hcl x).trans (congrArg some hc)) ((congrArg (Files.serve · c) hf).trans hs), hrs, ← hv]

/-- The system with all semaphores at 0. -/
def on (d : Desk) (m : MayRotNuoc) (v : Option Sinhvien) (w : Option Voinuoc) : System Files := ⟨d.files, fun _ => 0, m, v, w, false⟩

section

variable {m : MayRotNuoc} {v : Option Sinhvien} {w : Option Voinuoc}

theorem main_turns (hv : ∀ x ∈ v, x.call = .wait .sinhvien) (hw : ∀ x ∈ w, x.call = .wait .voinuoc) {x y : Desk × MayRotNuoc}
    (h : Worked MayRotNuoc.call MayRotNuoc.resume x y) :
    Turns (on x.1 x.2 v w) (on y.1 y.2 v w) := by
  refine turns_of_works (p := .main) (f := fun x => on x.1 x.2 v w) (fun _ => ⟨rfl, rfl, rfl⟩) (fun _ => rfl) (fun _ _ _ => rfl) ?_ h
  exact fun _ => rests_others (absurd rfl) (fun _ => hv) fun _ => hw

theorem sinhvien_turns (hm : m.call = .wait .main) (hw : ∀ x ∈ w, x.call = .wait .voinuoc) {x y : Desk × Sinhvien}
    (h : Worked Sinhvien.call Sinhvien.resume x y) :
    Turns (on x.1 m (some x.2) w) (on y.1 m (some y.2) w) := by
  refine turns_of_works (p := .sinhvien) (f := fun x => on x.1 m (some x.2) w) (fun _ => ⟨rfl, rfl, rfl⟩) (fun _ => rfl)
    (fun _ _ _ => rfl) ?_ h
  exact fun _ => rests_others (fun _ => hm) (absurd rfl) fun _ => hw

theorem voinuoc_turns (hm : m.call = .wait .main) (hv : ∀ x ∈ v, x.call = .wait .sinhvien) {x y : Desk × Voinuoc}
    (h : Worked Voinuoc.call Voinuoc.resume x y) :
    Turns (on x.1 m v (some x.2)) (on y.1 m v (some y.2)) := by
  refine turns_of_works (p := .voinuoc) (f := fun x => on x.1 m v (some x.2)) (fun _ => ⟨rfl, rfl, rfl⟩) (fun _ => rfl)
    (fun _ _ _ => rfl) ?_ h
  exact fun _ => rests_others (fun _ => hm) (fun _ => hv) (absurd rfl)

end

/-! ## A number -/

/-- voinuoc waits, with these loads. -/
structure Idle (t₁ t₂ : Word) (w : Voinuoc) : Prop where
  point : w.point = .wait
  tap1 : w.tap1 = t₁
  tap2 : w.tap2 = t₂

theorem Idle.call {t₁ t₂ : Word} {w : Voinuoc} (h : Idle t₁ t₂ w) : w.call = .wait .voinuoc := by
  rw [Voinuoc.call, h.point]

section

variable {d : Desk} {m : MayRotNuoc} {w : Voinuoc} {live : Bool} {l out digits rest : List Byte} {p : Nat} {t₁ t₂ : Word}

/-- sinhvien writes a number and signals voinuoc. -/
theorem number_started (hm : m.call = .wait .main) (hw : w.call = .wait .voinuoc) (hl : Sinhvien.Lives live d.left)
    (hlen : l.length ≤ maxOffset) (hrest : rest = [] ∨ ∃ more, more ≠ [] ∧ rest = 32 :: more) (hne : digits ≠ [])
    (hd : ∀ b ∈ digits, IsDigit b) (hdrop : l.drop p = digits ++ rest) (hrm : out.length + digits.length + 1 ≤ maxOffset)
    (so : Word) (ch : Byte) : ∃ q c so', q < l.length ∧ l.drop (q + 1) = rest.tail ∧ Turns
      (on { d with sinhvien := some l, voinuoc := some [], output := out, top := [⟨.sinhvien, p, false⟩, ⟨.voinuoc, 0, true⟩] } m
        (some ⟨.readChar, fd d.left 0, fd d.left 1, so, ofNat 32 l.length, ofNat 32 p, ch⟩) (some w))
      (on { d with
            sinhvien := some l
            voinuoc := some (written live [] (digits ++ Sinhvien.mark rest.isEmpty))
            output := written live out digits
            top := [⟨.sinhvien, q + 1, false⟩] } m
        (some ⟨.waitVoinuoc, fd d.left 0, fd d.left 1, so', ofNat 32 l.length, ofNat 32 q, c⟩)
        (some (w.resume ⟨0, none⟩))) := by
  have hr : ([] : List Byte).length + digits.length + 1 ≤ maxOffset := by
    rw [length_nil]
    omega
  obtain ⟨q, c, so', hq, hn, hrn⟩ := Sinhvien.number_run hl hlen hrest digits so ch hne hd hdrop hr
    (Nat.le_of_succ_le hrm)
  refine ⟨q, c, so', hq, hn, ?_⟩
  refine (sinhvien_turns hm (by rintro x ⟨⟩; exact hw) hrn).trans ?_
  refine handOver (p := .sinhvien) (q := .voinuoc) (by decide) rfl rfl rfl rfl (congrArg some hw) ?_
  exact rests_others (fun _ => hm) (absurd rfl) fun _ => by rintro x ⟨⟩; exact hw

/-- A number gets its tap, and sinhvien goes on. -/
theorem number_turns (hm : m.call = .wait .main) (hw : Idle t₁ t₂ w) (hlf : d.left.length ≤ 4) (hlen : l.length ≤ maxOffset)
    (hrest : rest = [] ∨ ∃ more, more ≠ [] ∧ rest = 32 :: more) (hne : digits ≠ []) (hd : ∀ b ∈ digits, IsDigit b)
    (hdrop : l.drop p = digits ++ rest)
    (hr : (out ++ digits ++ tapText (pick t₁ t₂ (word digits)).1 ++ separator rest.isEmpty).length ≤ maxOffset) (so : Word) (ch : Byte) :
    ∃ q c so' w', q < l.length ∧ l.drop (q + 1) = rest.tail ∧
      Idle (if rest.isEmpty then 0 else (pick t₁ t₂ (word digits)).2.1) (if rest.isEmpty then 0 else (pick t₁ t₂ (word digits)).2.2) w' ∧
      Turns
        (on { d with sinhvien := some l, voinuoc := some [], output := out, top := [⟨.sinhvien, p, false⟩, ⟨.voinuoc, 0, true⟩] } m
          (some ⟨.readChar, fd d.left 0, fd d.left 1, so, ofNat 32 l.length, ofNat 32 p, ch⟩) (some w))
        (on { d with
              sinhvien := some l
              voinuoc := some []
              output := out ++ digits ++ tapText (pick t₁ t₂ (word digits)).1 ++ separator rest.isEmpty
              top := [⟨.sinhvien, q + 1, false⟩, ⟨.voinuoc, 0, true⟩] } m
          (some (.next ⟨.openAgain, fd d.left 0, fd d.left 1, so', ofNat 32 l.length, ofNat 32 q, c⟩)) (some w')) := by
  rw [length_append, length_append] at hr
  have hsp : 2 ≤ (separator rest.isEmpty).length := by
    cases rest.isEmpty <;> decide
  have hr1 : out.length + digits.length + 1 ≤ maxOffset := by
    rw [length_append] at hr
    omega
  have hl : Sinhvien.Lives true d.left := hlf
  obtain ⟨q, c, so', hq, hn, hs⟩ := number_started hm hw.call hl hlen hrest hne hd hdrop hr1 so ch
  obtain ⟨point, s1, so1, a, b, n0, solved, ch1⟩ := w
  have hp : point = .wait := hw.point
  have ht1 : a = t₁ := hw.tap1
  have ht2 : b = t₂ := hw.tap2
  subst hp ht1 ht2
  obtain ⟨s2, so2, ch2, hrn⟩ := Voinuoc.number_run (d := { d with sinhvien := some l }) ⟨.sinhvien, q + 1, false⟩ hlf hd
    (foldl_addDigit digits hd 0) hr s1 so1 n0 solved 0
  refine ⟨q, c, so', ⟨.wait, s2, so2, _, _, word digits, rest.isEmpty, ch2⟩, hq, hn, ⟨rfl, rfl, rfl⟩, hs.trans ?_⟩
  refine (voinuoc_turns hm (by rintro x ⟨⟩; rfl) hrn).trans ?_
  refine (handOver (p := .voinuoc) (q := .sinhvien) (by decide) rfl rfl rfl rfl rfl ?_).trans ?_
  · exact rests_others (fun _ => hm) (fun _ => by rintro x ⟨⟩; rfl) (absurd rfl)
  let d1 : Desk := { d with
    sinhvien := some l
    voinuoc := some (digits ++ Sinhvien.mark rest.isEmpty)
    output := out ++ digits ++ tapText (pick a b (word digits)).1 ++ separator rest.isEmpty }
  have ha := Sinhvien.again_run (d := d1) (Nat.le_trans hlf (by decide)) ⟨.sinhvien, q + 1, false⟩ (fd d.left 0) (fd d.left 1) so'
    (ofNat 32 l.length) (ofNat 32 q) c
  exact sinhvien_turns hm (by rintro x ⟨⟩; rfl) ha

end

/-! ## A line -/

end System

/-- The taps that voinuoc chooses. -/
def wordTaps (t₁ t₂ : Word) : List Word → List (Option Tap)
  | [] => []
  | n :: ns => (pick t₁ t₂ n).1 :: wordTaps (pick t₁ t₂ n).2.1 (pick t₁ t₂ n).2.2 ns

/-- A line of input.txt. -/
def lineText (line : List (List Byte)) : List Byte := List.intercalate [32] line

/-- A line of output.txt. -/
def lineOutput (line : List (List Byte)) (taps : List (Option Tap)) : List Byte :=
  List.intercalate [32, 32, 32] (List.zipWith (fun n tap => n ++ tapText tap) line taps) ++ [13, 10]

theorem lineOutput_one (n : List Byte) (tap : Option Tap) : lineOutput [n] [tap] = n ++ tapText tap ++ separator true := by
  rw [lineOutput, zipWith_cons_cons, zipWith_nil_left, intercalate_singleton]
  rfl

theorem lineOutput_cons (n n' : List Byte) (ns : List (List Byte)) (tap tap' : Option Tap) (taps : List (Option Tap)) :
    lineOutput (n :: n' :: ns) (tap :: tap' :: taps) = n ++ tapText tap ++ separator false ++ lineOutput (n' :: ns) (tap' :: taps) := by
  rw [lineOutput, zipWith_cons_cons, zipWith_cons_cons, intercalate_cons_cons, append_assoc]
  rfl

/-- A number with digits. -/
def IsNumeral (n : List Byte) : Prop := n ≠ [] ∧ ∀ b ∈ n, IsDigit b

theorem lineText_cons (n n' : List Byte) (ns : List (List Byte)) : lineText (n :: n' :: ns) = n ++ 32 :: lineText (n' :: ns) := by
  rw [lineText, intercalate_cons_cons, append_assoc]
  rfl

theorem lineText_ne_nil {n : List Byte} {ns : List (List Byte)} (h : n ≠ []) : lineText (n :: ns) ≠ [] := by
  cases ns with
  | nil =>
    rw [lineText, intercalate_singleton]
    exact h
  | cons n' ns =>
    rw [lineText_cons]
    exact append_ne_nil_of_left_ne_nil h _

/-- Neither ends a line, and neither is the zero that ends a string. -/
theorem mem_lineText {line : List (List Byte)} (h : ∀ n ∈ line, IsNumeral n) {b : Byte} (hb : b ∈ lineText line) : b ≠ 10 ∧ b ≠ 0 := by
  have hd : ∀ {b : Byte}, IsDigit b → b ≠ 10 ∧ b ≠ 0 := by
    intro b hb
    constructor <;> rintro rfl <;> exact absurd hb (by decide)
  induction line with
  | nil => cases hb
  | cons n ns ih =>
    obtain ⟨hn, hns⟩ := forall_mem_cons.mp h
    cases ns with
    | nil =>
      rw [lineText, intercalate_singleton] at hb
      exact hd (hn.2 b hb)
    | cons n' ns =>
      rw [lineText_cons, mem_append, mem_cons] at hb
      rcases hb with hb | rfl | hb
      · exact hd (hn.2 b hb)
      · decide
      · exact ih hns hb

namespace System

variable {v : Sinhvien} {w : Voinuoc} {c : Byte} {si : Word}

section

variable {d : Desk} {m : MayRotNuoc} {l : List Byte}

/-- All numbers of a line get their taps. -/
theorem numbers_turns (hm : m.call = .wait .main) (hl : d.left.length ≤ 4) (hlen : l.length ≤ maxOffset) (n : List Byte)
    (ns : List (List Byte)) : ∀ {p : Nat} {out : List Byte} {w : Voinuoc} {t₁ t₂ : Word} (so : Word) (ch : Byte),
    (∀ x ∈ n :: ns, IsNumeral x) → l.drop p = lineText (n :: ns) → Idle t₁ t₂ w →
    (out ++ lineOutput (n :: ns) (wordTaps t₁ t₂ ((n :: ns).map word))).length ≤ maxOffset →
    ∃ v w' top, v.point = .signalMain ∧ Idle 0 0 w' ∧ List.length top = 2 ∧ Turns
      (on { d with sinhvien := some l, voinuoc := some [], output := out, top := [⟨.sinhvien, p, false⟩, ⟨.voinuoc, 0, true⟩] } m
        (some ⟨.readChar, fd d.left 0, fd d.left 1, so, ofNat 32 l.length, ofNat 32 p, ch⟩) (some w))
      (on { d with
            sinhvien := some l
            voinuoc := some []
            output := out ++ lineOutput (n :: ns) (wordTaps t₁ t₂ ((n :: ns).map word))
            top := top } m (some v) (some w')) := by
  induction ns generalizing n with
  | nil =>
    intro p out w t₁ t₂ so ch hnums hdrop hw hr
    obtain ⟨hne, hd⟩ := hnums n mem_cons_self
    rw [lineText, intercalate_singleton, ← append_nil n] at hdrop
    rw [show lineOutput [n] (wordTaps t₁ t₂ ([n].map word)) = _ from lineOutput_one .., ← append_assoc, ← append_assoc]
      at hr ⊢
    obtain ⟨q, c, so', w', hq, hn, hid, hrn⟩ := number_turns hm hw hl hlen (.inl rfl) hne hd hdrop hr so ch
    have he : ¬ q + 1 < l.length := Nat.not_lt.mpr (drop_eq_nil_iff.mp hn)
    rw [Sinhvien.next_eq hlen hq, if_neg he] at hrn
    exact ⟨_, w', _, rfl, hid, rfl, hrn⟩
  | cons n' ns ih =>
    intro p out w t₁ t₂ so ch hnums hdrop hw hr
    obtain ⟨⟨hne, hd⟩, hnums⟩ := forall_mem_cons.mp hnums
    have hmr : lineText (n' :: ns) ≠ [] := lineText_ne_nil (hnums n' mem_cons_self).1
    rw [lineText_cons] at hdrop
    rw [show lineOutput (n :: n' :: ns) (wordTaps t₁ t₂ ((n :: n' :: ns).map word)) = _ from lineOutput_cons .., ← append_assoc,
      ← append_assoc, ← append_assoc] at hr ⊢
    have hr1 : (out ++ n ++ tapText (pick t₁ t₂ (word n)).1 ++ separator false).length ≤ maxOffset := by
      rw [length_append] at hr
      exact Nat.le_of_add_right_le hr
    obtain ⟨q, c, so', w', hq, hn, hid, hrn⟩ :=
      number_turns hm hw hl hlen (.inr ⟨_, hmr, rfl⟩) hne hd hdrop hr1 so ch
    have hg : q + 1 < l.length := by
      rw [← Nat.not_le, ← drop_eq_nil_iff, hn]
      exact hmr
    rw [Sinhvien.next_eq hlen hq, if_pos hg] at hrn
    obtain ⟨v, w'', top, hv, hi', htop, hr'⟩ := ih n' so' c hnums hn hid hr
    exact ⟨v, w'', top, hv, hi', htop, hrn.trans hr'⟩

theorem handOver_main {k : Word} (hv : v.point = .wait) (hw : w.call = .wait .voinuoc) :
    Turns (on d ⟨.signal, 2, si, k, c⟩ (some v) (some w))
      (on d ⟨.wait, 2, si, k, c⟩ (some { v with point := .openSinhvien }) (some w)) := by
  obtain ⟨point, s1, s2, so, len, fp, ch⟩ := v
  have hp : point = .wait := hv
  subst hp
  refine handOver (p := .main) (q := .sinhvien) (by decide) rfl rfl rfl rfl rfl ?_
  exact rests_others (absurd rfl) (fun _ => by rintro x ⟨⟩; rfl) fun _ => by rintro x ⟨⟩; exact hw

theorem handOver_back {k : Word} (si : Word) (hv : v.point = .signalMain) (hw : w.call = .wait .voinuoc) :
    Turns (on d ⟨.wait, 2, si, k, c⟩ (some v) (some w))
      (on d (.nextTimePoint ⟨.wait, 2, si, k, c⟩) (some { v with fileLen := 0, point := .wait }) (some w)) := by
  obtain ⟨point, s1, s2, so, len, fp, ch⟩ := v
  have hp : point = .signalMain := hv
  subst hp
  refine handOver (p := .sinhvien) (q := .main) (by decide) rfl rfl rfl rfl rfl ?_
  exact rests_others (fun _ => rfl) (absurd rfl) fun _ => by rintro x ⟨⟩; exact hw

/-- main is at `while (timePoints--)` with so many time points to go, and the others wait. -/
def AtTop (d : Desk) (k : Nat) (s : System Files) : Prop :=
  ∃ m v w, s = on d (MayRotNuoc.nextTimePoint m) (some v) (some w) ∧ m.siInput = 2 ∧ m.timePoints = BitVec.ofNat 32 k ∧
    v.point = .wait ∧ Idle 0 0 w ∧ d.top = []

theorem nextTimePoint_succ {k : Nat} {point : MayRotNuoc.Point} (hk : k + 1 ≤ maxOffset) :
    MayRotNuoc.nextTimePoint ⟨point, 2, si, ofNat 32 (k + 1), c⟩ = ⟨.createFile, 2, si, ofNat 32 k, c⟩ := by
  have hm : k + 1 ≤ 2147483647 := hk
  have hne : ofNat 32 (k + 1) ≠ 0 := by
    intro h
    have hto := congrArg BitVec.toNat h
    rw [BitVec.toNat_ofNat, Nat.mod_eq_of_lt (by omega)] at hto
    cases hto
  have hp : ofNat 32 (k + 1) - 1 = ofNat 32 k := by
    rw [← Sinhvien.ofNat_succ, BitVec.add_sub_cancel]
  rw [MayRotNuoc.nextTimePoint, if_neg hne, hp]

section

variable {s : System Files} {k : Nat} {n rest : List Byte} {ns : List (List Byte)} (htop : AtTop d (k + 1) s) (hk : k + 1 ≤ Stub.maxOffset)
  (hnums : ∀ x ∈ n :: ns, IsNumeral x) (hrest : rest = [] ∨ ∃ more, rest = 10 :: more)
  (hdrop : d.input.drop d.taken = lineText (n :: ns) ++ rest) (hlen : (lineText (n :: ns)).length ≤ Stub.maxOffset)
include htop hk hnums hrest hdrop hlen

/-- main copies a line, and sinhvien opens its files. -/
theorem line_started (hl : d.left.length ≤ 6) :
    ∃ taken' c so ch w, d.input.drop taken' = rest.tail ∧ Idle 0 0 w ∧ Turns s
      (on { d with
            taken := taken'
            sinhvien := some (lineText (n :: ns))
            voinuoc := some []
            top := [⟨.sinhvien, 0, false⟩, ⟨.voinuoc, 0, true⟩] } ⟨.wait, 2, fd d.left 0, ofNat 32 k, c⟩
        (some ⟨.readChar, fd d.left 0, fd d.left 1, so, ofNat 32 (lineText (n :: ns)).length, 0, ch⟩) (some w)) := by
  obtain ⟨⟨point, i, si, t, c⟩, v, w, rfl, hi, ht, hv, hw, hd⟩ := htop
  have hi : i = 2 := hi
  have ht : t = ofNat 32 (k + 1) := ht
  subst hi ht
  rw [nextTimePoint_succ hk]
  have hvc : v.call = .wait .sinhvien := by rw [Sinhvien.call, hv]
  have hds : ({ d with taken := d.taken, top := [] } : Desk) = d := by rw [← hd]
  obtain ⟨taken', c', ht', hm⟩ :=
    MayRotNuoc.line_run (n := ofNat 32 k) hl hrest (fun b => mem_lineText hnums) hdrop hlen si c
  rw [hds] at hm
  refine ⟨taken', c', v.siOutput, v.charRead, w, ht', hw, ?_⟩
  refine (main_turns (by rintro x ⟨⟩; exact hvc) (by rintro x ⟨⟩; exact hw.call) hm).trans ?_
  refine (handOver_main hv hw.call).trans ?_
  have ho := Sinhvien.open_run (d := { d with taken := taken' }) hl (lineText_ne_nil (hnums n mem_cons_self).1) hlen
    v.siSinhvien v.siVoinuoc v.siOutput v.fileLen v.filePointer v.charRead
  exact sinhvien_turns rfl (by rintro x ⟨⟩; exact hw.call) ho

/-- A line is served, and two descriptors stay open. -/
theorem line_turns (hl : d.left.length ≤ 4)
    (hrm : (d.output ++ lineOutput (n :: ns) (wordTaps 0 0 ((n :: ns).map word))).length ≤ maxOffset) :
    ∃ d' s', Turns s s' ∧ AtTop d' k s' ∧ d'.input = d.input ∧ d'.input.drop d'.taken = rest.tail ∧
      d'.left.length = d.left.length + 2 ∧ d'.output = d.output ++ lineOutput (n :: ns) (wordTaps 0 0 ((n :: ns).map word)) := by
  obtain ⟨taken', c, so, ch, w, htk', hw, hs⟩ := line_started htop hk hnums hrest hdrop hlen (Nat.le_trans hl (by decide))
  obtain ⟨v, w', top, hv, hw', ht', hr⟩ := numbers_turns (d := { d with taken := taken' })
    (m := ⟨.wait, 2, fd d.left 0, ofNat 32 k, c⟩) rfl hl hlen n ns so ch hnums drop_zero hw hrm
  let d1 : Desk := { d with
    taken := taken'
    sinhvien := some (lineText (n :: ns))
    voinuoc := some []
    output := d.output ++ lineOutput (n :: ns) (wordTaps 0 0 ((n :: ns).map word))
    top := top }
  have hb := handOver_back (d := d1) (k := ofNat 32 k) (c := c) (fd d.left 0) hv hw'.call
  refine ⟨{ d1 with left := d.left ++ top, top := [] }, _, hs.trans (hr.trans hb), ?_, rfl, htk', ?_, rfl⟩
  · refine ⟨⟨.wait, 2, fd d.left 0, ofNat 32 k, c⟩, { v with fileLen := 0, point := .wait }, w', ?_, rfl, rfl, rfl, hw', rfl⟩
    exact congrArg (System.mk · _ _ _ _ _) (Desk.files_leave d1).symm
  · rw [length_append, ht']

/-- voinuoc reads from a dead descriptor, and does not see the end of its file. -/
def Stuck (s : System Files) : Prop :=
  s.halted = false ∧ ∃ w slot, s.voinuoc = some w ∧ w.point = .readChar ∧ w.charRead = 0 ∧ 9 < w.siVoinuoc.toNat ∧
    s.files.slotOf w.siVoinuoc = some slot

/-- With six descriptors open that is where the first number of a line leads. -/
theorem line_stuck (hlf : d.left.length = 6) (hrm : d.output.length + n.length + 1 ≤ maxOffset) :
    ∃ s', Turns s s' ∧ Stuck s' := by
  have hl6 := Nat.le_of_eq hlf
  obtain ⟨taken', c, so, ch, w, -, hw, hs⟩ := line_started htop hk hnums hrest hdrop hlen hl6
  obtain ⟨hne, hd⟩ := hnums n mem_cons_self
  have hl : Sinhvien.Lives false d.left := hlf
  obtain ⟨more, ht, hm⟩ : ∃ more, lineText (n :: ns) = n ++ more ∧ (more = [] ∨ ∃ m, m ≠ [] ∧ more = 32 :: m) := by
    cases ns with
    | nil => exact ⟨[], by rw [lineText, intercalate_singleton, append_nil], .inl rfl⟩
    | cons n' ns =>
      have hn := (hnums n' (mem_cons_of_mem n mem_cons_self)).1
      exact ⟨_, lineText_cons n n' ns, .inr ⟨_, lineText_ne_nil hn, rfl⟩⟩
  obtain ⟨q, c1, so', -, -, hr⟩ := number_started (d := { d with taken := taken' })
    (m := ⟨.wait, 2, fd d.left 0, ofNat 32 k, c⟩) rfl hw.call hl hlen hm hne hd (drop_zero.trans ht) hrm so ch
  obtain ⟨point, s1, so1, a, b, n0, solved, ch1⟩ := w
  have hp : point = .wait := hw.point
  subst hp
  let d1 : Desk := { d with taken := taken', sinhvien := some (lineText (n :: ns)) }
  have ho := Voinuoc.open_run (d := d1) hl6 ⟨.sinhvien, q + 1, false⟩ [] a b n0 s1 so1 solved 0
  refine ⟨_, hs.trans (hr.trans (voinuoc_turns rfl (by rintro x ⟨⟩; rfl) ho)), rfl, _, ⟨.voinuoc, 0, false⟩, rfl, rfl, rfl, ?_, ?_⟩
  · show 9 < (fd d.left 1).toNat
    rw [Desk.fd_toNat (by omega)]
    omega
  · exact Desk.slotOf_top rfl (by exact Nat.lt_of_le_of_lt (Nat.add_le_add_right hl6 4) (by decide))

end

end

end System

/-! ## All lines -/

/-- The lines of input.txt, the last one with or without its newline. -/
def linesText (ended : Bool) : List (List (List Byte)) → List Byte
  | [] => []
  | line :: lines => lineText line ++ if lines.isEmpty && !ended then [] else 10 :: linesText ended lines

def IsLine (line : List (List Byte)) : Prop := line ≠ [] ∧ ∀ n ∈ line, IsNumeral n

/-- What the programs write for the lines. -/
def wordOutput (lines : List (List (List Byte))) : List Byte :=
  lines.flatMap fun line => lineOutput line (wordTaps 0 0 (line.map word))

theorem linesText_cons (ended : Bool) (line : List (List Byte)) (lines : List (List (List Byte))) :
    ∃ rest, linesText ended (line :: lines) = lineText line ++ rest ∧ (rest = [] ∨ ∃ more, rest = 10 :: more) ∧
      rest.tail = linesText ended lines := by
  refine ⟨_, rfl, ?_⟩
  split
  · rename_i he
    have hl : lines = [] := List.isEmpty_iff.mp (Bool.and_eq_true_iff.mp he).1
    rw [hl]
    exact ⟨.inl rfl, rfl⟩
  · exact ⟨.inr ⟨_, rfl⟩, rfl⟩

namespace System

theorem lines_turns (ended : Bool) (more lines : List (List (List Byte))) : ∀ {d : Desk} {s : System Files},
    AtTop d (lines ++ more).length s → (lines ++ more).length ≤ maxOffset → (∀ line ∈ lines, IsLine line) →
    d.input.drop d.taken = linesText ended (lines ++ more) → d.input.length ≤ maxOffset → d.left.length + 2 * lines.length ≤ 6 →
    (d.output ++ wordOutput lines).length ≤ maxOffset →
    ∃ d' s', Turns s s' ∧ AtTop d' more.length s' ∧ d'.input = d.input ∧
      d'.input.drop d'.taken = linesText ended more ∧ d'.left.length = d.left.length + 2 * lines.length ∧
      d'.output = d.output ++ wordOutput lines := by
  induction lines with
  | nil =>
    intro d s htop _ _ hdrop _ _ _
    exact ⟨d, s, .refl, htop, rfl, hdrop, rfl, (append_nil _).symm⟩
  | cons line lines ih =>
    intro d s htop hk hln hdrop hin hl hr
    obtain ⟨⟨hne, hnums⟩, hl'⟩ := forall_mem_cons.mp hln
    obtain ⟨rest, ht, hrest, htl⟩ := linesText_cons ended line (lines ++ more)
    have hw : wordOutput (line :: lines) = lineOutput line (wordTaps 0 0 (line.map word)) ++ wordOutput lines := flatMap_cons
    rw [hw, ← append_assoc] at hr ⊢
    rw [cons_append, ht] at hdrop
    rw [length_cons] at hl ⊢
    have hlen : (lineText line).length ≤ maxOffset := by
      have := congrArg List.length hdrop
      rw [length_drop, length_append] at this
      omega
    have hr1 : (d.output ++ lineOutput line (wordTaps 0 0 (line.map word))).length ≤ maxOffset := by
      rw [length_append] at hr
      exact Nat.le_of_add_right_le hr
    cases line with
    | nil => exact absurd rfl hne
    | cons n ns =>
      obtain ⟨d1, s1, hrn, ht1, hi1, hd1, hl1, ho1⟩ :=
        line_turns htop hk hnums hrest hdrop hlen (by omega) hr1
      rw [htl] at hd1
      obtain ⟨d2, s2, hr2, ht2, hi2, hd2, hl2, ho2⟩ :=
        ih ht1 (Nat.le_of_succ_le hk) hl' hd1 (hi1 ▸ hin) (by omega) (ho1 ▸ hr)
      exact ⟨d2, s2, hrn.trans hr2, ht2, hi2.trans hi1, hd2, by omega, by rw [ho2, ho1]⟩

/-! ## The start and the end -/

section

variable {F : Type} {serve : F → FileCall → Option (Returned × F)} {s t : System F}

/-- main goes on while the others wait, or have not been started. -/
theorem turn_main (hvl : s.value = fun _ => 0) (hv : ∀ x ∈ s.sinhvien, x.call = .wait .sinhvien)
    (hw : ∀ x ∈ s.voinuoc, x.call = .wait .voinuoc) (h : step serve s .main = some t) : Turn serve s t := by
  refine ⟨.main, h, fun o ho => Rests.blocked ?_ (congrFun hvl o)⟩
  exact rests_others (absurd rfl) (fun _ => hv) (fun _ => hw) o ho

theorem step_createSemaphore {p name : Process} (hr : s.halted = false) (hv : s.value = fun _ => 0)
    (hp : s.call p = some (.createSemaphore name)) : step serve s p = some (s.resume ⟨0, none⟩ p) := by
  have hs : s.setValue name 0 = s := by
    rw [setValue, ← congrFun hv name, Function.update_eq_self]
  unfold step
  rw [hr, if_neg Bool.false_ne_true, hp]
  exact congrArg (fun u => some (resume u ⟨0, none⟩ p)) hs

end

/-- The files before the programs are started. -/
def fresh (text : List Byte) : Files := ⟨some text, none, none, none, fun _ => none⟩

theorem opened_files (text : List Byte) :
    ((fresh text).setContent [] .output).setSlot 2 (some ⟨.input, 0, false⟩) = (⟨text, 0, none, none, [], [], []⟩ : Desk).files := by
  refine congrArg (Files.mk _ _ _ _) (funext fun i => ?_)
  by_cases hi : i = 2
  · subst hi
    rfl
  · rw [Function.update_of_ne hi, Desk.table, if_neg hi]
    split <;> rfl

theorem boot_turns {text count : List Byte} {lines : List (List (List Byte))} {ended : Bool}
    (ht : text = count ++ 10 :: linesText ended lines) (hd : ∀ b ∈ count, IsDigit b)
    (hc : Lib.Decimal.value count = lines.length) :
    ∃ d s, Turns (boot (fresh text)) s ∧ AtTop d lines.length s ∧ d.input = text ∧
      d.input.drop d.taken = linesText ended lines ∧ d.left = [] ∧ d.output = [] := by
  have hn : ∀ {V : Type} {call : V → Call} {name : Process}, ∀ x ∈ (none : Option V), call x = .wait name := by
    rintro V call name x ⟨⟩
  let d0 : Desk := ⟨text, 0, none, none, [], [], []⟩
  have hs : Turns (boot (fresh text)) (on d0 ⟨.readCount, 2, 0, 0, 48⟩ none none) := by
    refine .head (turn_main rfl hn hn (step_createSemaphore rfl rfl rfl)) ?_
    refine .head (turn_main rfl hn hn (step_createSemaphore rfl rfl rfl)) ?_
    refine .head (turn_main rfl hn hn (step_createSemaphore rfl rfl rfl)) ?_
    refine .head (turn_main rfl hn hn (step_file rfl rfl rfl)) ?_
    refine .single (turn_main rfl hn hn ((step_file rfl rfl rfl).trans ?_))
    exact congrArg (fun files => some (System.mk files (fun _ => 0) ⟨.readCount, 2, 0, 0, 48⟩ none none false)) (opened_files text)
  obtain ⟨taken, hdrop, hr⟩ := MayRotNuoc.count_run (d := d0) (linesText ended lines) count hd (n := 0) (c := 48)
    (drop_zero.trans ht)
  rw [show count.foldl addDigit 0 = _ from foldl_addDigit count hd 0] at hr
  let d1 : Desk := ⟨text, taken, none, none, [], [], []⟩
  have he : Turns (on d1 ⟨.execSinhvien, 2, 0, ofNat 32 (Lib.Decimal.value count), 10⟩ none none)
      (on d1 (.nextTimePoint ⟨.execVoinuoc, 2, 0, ofNat 32 (Lib.Decimal.value count), 10⟩) (some .start) (some .start)) := by
    refine .head (turn_main rfl hn hn rfl) (.single (turn_main rfl ?_ hn rfl))
    rintro x ⟨⟩
    rfl
  refine ⟨d1, _, hs.trans ((main_turns hn hn hr).trans he), ?_, rfl, hdrop, rfl, rfl⟩
  exact ⟨_, .start, .start, rfl, rfl, congrArg (ofNat 32) hc, rfl, ⟨rfl, rfl, rfl⟩, rfl⟩

/-- After the last line main halts. -/
theorem finish_turns {d : Desk} {s : System Files} (htop : AtTop d 0 s) :
    ∃ t, Turns s t ∧ t.halted = true ∧ t.files.output = some d.output := by
  obtain ⟨⟨point, i, si, t, c⟩, v, w, rfl, hi, ht, hv, hw, hd⟩ := htop
  have hi : i = 2 := hi
  have ht : t = ofNat 32 0 := ht
  subst hi ht
  have hvc : ∀ x ∈ some v, x.call = .wait .sinhvien := by
    rintro x ⟨⟩
    rw [Sinhvien.call, hv]
  have hwc : ∀ x ∈ some w, x.call = .wait .voinuoc := by
    rintro x ⟨⟩
    exact hw.call
  refine ⟨⟨d.files.setSlot 2 none, fun _ => 0, ⟨.halt, 2, si, ofNat 32 0 - 1, c⟩, some v, some w, true⟩, ?_, rfl, rfl⟩
  refine .head (turn_main rfl hvc hwc (step_file rfl rfl (Desk.serve_close_input d))) ?_
  exact .head (turn_main rfl hvc hwc rfl) (.single (turn_main rfl hvc hwc rfl))

end System

end Nachos.WaterTaps

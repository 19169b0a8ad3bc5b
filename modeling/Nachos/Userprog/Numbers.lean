/-
  Nachos.Userprog.Numbers — ReadInt and PrintInt.

  ReadInt checks the characters of a line in one loop and converts them in another, which goes
  round at least once, whatever the first has seen.
  - `readInt_iff`: so an empty line and a lone minus sign are 48 off, and a line ended by
    Ctrl-A, whose length is -1, is as good as its first character. A number that is no `int`
    comes out modulo 2^32.
  PrintInt tells a negative number by a variable it has negated before.
  - `printInt_iff`: it writes a number exactly if that is not negative.
-/

import Nachos.Lib.Decimal
import Nachos.Machine.Overflow
import Nachos.Threads.ConsoleInput
import Nachos.Userprog.ProgramCounter

namespace Nachos

open Handler Lib List BitVec
open BitVec (ofNat ofInt)
open Lib.Decimal (IsDigit minus unsigned signed numeral)
open Decimal (digit intText text value)
open SynchConsole (Line receive)

/-! ## The two loops -/

theorem out_of_digits (b : Byte) : (b.signExtend 32).slt 48 ∨ BitVec.slt 57 (b.signExtend 32) ↔ ¬ IsDigit b := by
  revert b
  decide

variable {b : Byte} {size : Word} {z : Int} {call : Syscall} {l : Line}

theorem digit_sub : IsDigit b → b.signExtend 32 - 48 = ofNat 32 (b.toNat - 48) := by
  revert b
  decide

section

variable {buffer post : List Byte} {i : Nat}

theorem charAt_of_drop {rest : List Byte} (h : buffer.drop i = b :: rest) :
    charAt buffer i = b.signExtend 32 ∧ buffer.drop (i + 1) = rest := by
  have hg : buffer[i]? = some b := by rw [← head?_drop, h, head?_cons]
  refine ⟨?_, by rw [← tail_drop, h, tail_cons]⟩
  rw [charAt, getD_eq_getElem?_getD, hg, Option.getD_some]

theorem scanDigits_eq (digits : List Byte) : ∀ i endPos, buffer.drop i = digits ++ post →
    scanDigits buffer i endPos digits.length =
      if ∀ b ∈ digits, IsDigit b then some (if digits = [] then endPos else i + digits.length - 1) else none := by
  induction digits with
  | nil =>
    intro i endPos _
    rw [if_pos fun b hb => absurd hb not_mem_nil]
    rfl
  | cons b digits ih =>
    intro i endPos h
    obtain ⟨hc, hr⟩ := charAt_of_drop h
    rw [length_cons, scanDigits, hc, ih (i + 1) i hr]
    simp only [out_of_digits, forall_mem_cons]
    by_cases hb : IsDigit b
    · simp only [hb, not_true_eq_false, if_false, true_and]
      split
      · cases digits with
        | nil => rfl
        | cons => simp only [reduceCtorEq, if_false, length_cons]; congr 1; omega
      · rfl
    · simp only [hb, not_false_eq_true, if_true, false_and, if_false]

theorem accumulate_eq (digits : List Byte) : ∀ i n, buffer.drop i = digits ++ post → (∀ b ∈ digits, IsDigit b) →
    accumulate buffer i (ofNat 32 n) digits.length = ofNat 32 (Decimal.extend n digits) := by
  induction digits with
  | nil => exact fun i n _ _ => rfl
  | cons b digits ih =>
    intro i n h hd
    obtain ⟨hc, hr⟩ := charAt_of_drop h
    have hs : ofNat 32 n * 10 + (charAt buffer i - 48) = ofNat 32 (10 * n + (b.toNat - 48)) := by
      rw [hc, digit_sub (hd b mem_cons_self), ofNat_add, ofNat_mul, BitVec.mul_comm]
      rfl
    rw [length_cons, accumulate, hs, ih (i + 1) _ hr fun b' hb' => hd b' (mem_cons_of_mem _ hb')]
    rfl

end

/-! ## What ReadInt answers -/

/-- `startPos`. -/
def startPos (line : List Byte) : Nat := if line.head? = some minus then 1 else 0

section

variable {line : List Byte}

theorem length_unsigned (line : List Byte) : (unsigned line).length = line.length - startPos line := by
  unfold unsigned startPos
  split
  · exact length_tail
  · rfl

theorem drop_startPos (post : List Byte) : (line ++ post).drop (startPos line) = unsigned line ++ post := by
  unfold unsigned startPos
  split
  · rename_i h
    cases line with
    | nil => cases h
    | cons => rfl
  · rfl

variable {m : Nat}

/-- The buffer is 0 after the line, so that there is a first character in any case. -/
theorem charAt_startPos : charAt (line ++ List.replicate m 0) (startPos line) = ((unsigned line).headD 0).signExtend 32 := by
  rw [charAt, getD_eq_getElem?_getD, ← head?_drop, drop_startPos]
  cases unsigned line with
  | nil => cases m <;> rfl
  | cons b digits => rfl

theorem startsMinus_iff : charAt (line ++ List.replicate m 0) 0 = 45 ↔ line.head? = some minus := by
  cases line with
  | nil =>
    have hz : charAt ([] ++ List.replicate m 0) 0 = (0 : Word) := by cases m <;> rfl
    rw [hz]
    decide
  | cons b line =>
    have hb : ∀ b : Byte, b.signExtend 32 = (45 : Word) ↔ some b = some minus := by decide
    exact hb b

/-- The sign is put on after the conversion. -/
theorem word_mul_sign (n : Int) :
    (if line.head? = some minus then ofInt 32 n * -1 else ofInt 32 n) = ofInt 32 (signed line n) := by
  unfold signed
  split
  · rw [ofInt_neg, BitVec.mul_neg]
    exact congrArg _ (BitVec.mul_one _)
  · rfl

theorem parseInt_eq (line : List Byte) (m : Nat) (size : Word) : parseInt (line ++ List.replicate m 0) size =
    ((scanDigits (line ++ List.replicate m 0) (startPos line) (startPos line)
        (if size.slt 0 then 0 else size.toNat - startPos line)).map fun endPos =>
      if line.head? = some minus then
        accumulate (line ++ List.replicate m 0) (startPos line) 0 (endPos + 1 - startPos line) * -1
      else accumulate (line ++ List.replicate m 0) (startPos line) 0 (endPos + 1 - startPos line)).getD 0 := by
  unfold parseInt startPos
  simp only [startsMinus_iff]
  generalize scanDigits _ _ _ _ = endPos
  cases endPos <;> rfl

/-- When the first loop does not go round, the second takes the first character, whatever it is. -/
theorem parseInt_first (h : (if size.slt 0 then 0 else size.toNat - startPos line) = 0) :
    parseInt (line ++ List.replicate m 0) size = ofInt 32 (signed line (((unsigned line).headD 0).toInt - 48)) := by
  have hf : accumulate (line ++ List.replicate m 0) (startPos line) 0 (startPos line + 1 - startPos line) =
      ofInt 32 (((unsigned line).headD 0).toInt - 48) := by
    rw [Nat.add_sub_cancel_left, accumulate, accumulate, charAt_startPos, Int.sub_eq_add_neg, ofInt_add, BitVec.signExtend,
      BitVec.sub_eq_add_neg]
    exact BitVec.zero_add _
  rw [parseInt_eq, h, scanDigits, Option.map_some, Option.getD_some, hf, word_mul_sign]

/-- The first loop goes round once for each character after the sign. -/
theorem rounds_eq (hl : line.length ≤ 255) :
    (if (ofNat 32 line.length).slt 0 then 0 else (ofNat 32 line.length).toNat - startPos line) =
      (unsigned line).length := by
  have hn : (ofNat 32 line.length).toNat = line.length := ofNat_toNat (by omega)
  have hs : (ofNat 32 line.length).slt 0 = false := by
    rw [Bool.eq_false_iff, ne_eq, negative_iff, hn]
    omega
  rw [hs, length_unsigned, hn]
  rfl

/-- When it does, the line's number comes out modulo 2^32. -/
theorem parseInt_line (hl : line.length ≤ 255) (hne : unsigned line ≠ []) :
    parseInt (line ++ List.replicate m 0) (ofNat 32 line.length) = ofInt 32 ((numeral line).getD 0) := by
  rw [parseInt_eq, rounds_eq hl, scanDigits_eq _ _ _ (drop_startPos _), numeral]
  by_cases hd : ∀ b ∈ unsigned line, IsDigit b
  · have hc : startPos line + (unsigned line).length - 1 + 1 - startPos line = (unsigned line).length := by
      have := length_pos_iff.mpr hne
      omega
    have hs := accumulate_eq (unsigned line) (startPos line) 0 (drop_startPos (List.replicate m 0)) hd
    rw [if_pos hd, if_neg hne, if_pos ⟨hne, hd⟩, Option.map_some, Option.getD_some, Option.getD_some, hc]
    have hv : accumulate (line ++ List.replicate m 0) (startPos line) 0 (unsigned line).length =
        ofInt 32 (value (unsigned line)) := hs.trans (ofInt_natCast ..).symm
    rw [hv, word_mul_sign]
  · rw [if_neg hd, if_neg fun h => hd h.2]
    rfl

end

/-! ## What it should answer -/

/-- The integer on a line, if there is one and it is an `int`, and 0 otherwise. -/
def intOf (line : List Byte) : Int :=
  match numeral line with
  | some z => if FitsInt z then z else 0
  | none => 0

/-- The lines that ReadInt gets right. -/
def ReadsRight (l : Line) : Prop :=
  if l.ended = some 1 then
    (∃ b, unsigned l.stored = [b] ∧ IsDigit b) ∨ (unsigned l.stored).head? = some (Lib.Decimal.digit 0) ∧ intOf l.stored = 0
  else unsigned l.stored ≠ [] ∧ ∀ z, numeral l.stored = some z → FitsInt z ∨ 4294967296 ∣ z

section

variable {line : List Byte}

theorem intOf_of_fits (h : numeral line = some z) (hz : FitsInt z) : intOf line = z := by
  rw [intOf, h]
  exact if_pos hz

theorem intOf_eq_zero (h : ∀ z, numeral line = some z → ¬ FitsInt z) : intOf line = 0 := by
  unfold intOf
  split
  · rename_i z hz
    exact if_neg (h z hz)
  · rfl

theorem fits_intOf (line : List Byte) : FitsInt (intOf line) := by
  unfold intOf
  split
  · split
    · assumption
    · decide
  · decide

theorem ofInt_inj {a b : Int} (ha : FitsInt a) (hb : FitsInt b) : ofInt 32 a = ofInt 32 b ↔ a = b := by
  refine ⟨fun h => ?_, fun h => by rw [h]⟩
  rw [← ha.toInt_ofInt, ← hb.toInt_ofInt, h]

theorem ofInt_eq_zero (z : Int) : ofInt 32 z = 0 ↔ 4294967296 ∣ z := by
  rw [toNat_eq, toNat_ofInt]
  show (z % 4294967296).toNat = 0 ↔ _
  omega

theorem reads_line_iff : ofInt 32 ((numeral line).getD 0) = ofInt 32 (intOf line) ↔
    ∀ z, numeral line = some z → FitsInt z ∨ 4294967296 ∣ z := by
  cases h : numeral line with
  | none =>
    rw [intOf_eq_zero fun z hz => by rw [h] at hz; cases hz]
    exact iff_of_true rfl fun z hz => by cases hz
  | some z =>
    rw [Option.getD_some]
    by_cases hz : FitsInt z
    · rw [intOf_of_fits h hz]
      exact iff_of_true rfl fun z' hz' => .inl (Option.some.inj hz' ▸ hz)
    · rw [intOf_eq_zero fun z' hz' => by rw [h] at hz'; exact Option.some.inj hz' ▸ hz]
      refine (ofInt_eq_zero z).trans ⟨fun hd z' hz' => .inr (Option.some.inj hz' ▸ hd), fun ha => ?_⟩
      exact (ha z rfl).resolve_left hz

theorem signed_inj {a b : Int} : signed line a = signed line b ↔ a = b := by
  unfold signed
  split <;> omega

theorem signed_zero (line : List Byte) : signed line 0 = 0 := by
  unfold signed
  split <;> rfl

theorem toInt_of_isDigit : IsDigit b → b.toInt = b.toNat ∧ 48 ≤ b.toNat ∧ b.toNat ≤ 57 := by
  revert b
  decide

/-- A number is its first digit if it has no other, or is 0. -/
theorem first_eq_value {digits : List Byte} (h : ∀ c ∈ b :: digits, IsDigit c) :
    b.toInt - 48 = value (b :: digits) ↔
      digits = [] ∨ b = digit 0 ∧ value (b :: digits) = 0 := by
  obtain ⟨hin, hge, hle⟩ := toInt_of_isDigit (h b mem_cons_self)
  cases digits with
  | nil =>
    have hv : value [b] = b.toNat - 48 := Nat.zero_add _
    rw [hv]
    exact iff_of_true (by omega) (.inl rfl)
  | cons c digits =>
    have hg : 10 * (b.toNat - 48) ≤ value (b :: c :: digits) := by
      have := Decimal.le_extend digits (10 * (10 * 0 + (b.toNat - 48)) + (c.toNat - 48))
      show _ ≤ Decimal.extend (10 * (10 * 0 + (b.toNat - 48)) + (c.toNat - 48)) digits
      omega
    have hz : b = digit 0 ↔ b.toNat = 48 := toNat_eq
    rw [hz]
    simp only [reduceCtorEq, false_or]
    omega

theorem numeral_eq (h : numeral line = some z) :
    unsigned line ≠ [] ∧ (∀ b ∈ unsigned line, IsDigit b) ∧ z = signed line (value (unsigned line)) := by
  unfold numeral at h
  split at h
  · rename_i hd
    cases h
    exact ⟨hd.1, hd.2, rfl⟩
  · cases h

theorem numeral_of_one (hu : unsigned line = [b]) (hb : IsDigit b) : ∃ z, numeral line = some z ∧ FitsInt z := by
  have hd : unsigned line ≠ [] ∧ ∀ c ∈ unsigned line, IsDigit c := by
    rw [hu]
    exact ⟨cons_ne_nil _ _, forall_mem_singleton.mpr hb⟩
  refine ⟨_, if_pos hd, ?_⟩
  obtain ⟨-, -, hle⟩ := toInt_of_isDigit hb
  have hv : value [b] = b.toNat - 48 := Nat.zero_add _
  rw [hu, hv]
  unfold signed FitsInt
  split <;> omega

theorem first_eq_zero : signed line (((unsigned line).headD 0).toInt - 48) = 0 ↔
    (unsigned line).head? = some (digit 0) := by
  have hb : ∀ b : Byte, b.toInt - 48 = 0 ↔ some b = some (digit 0) := by decide
  rw [← signed_zero line, signed_inj]
  cases unsigned line with
  | nil => decide
  | cons b digits => exact hb b

theorem first_eq_numeral (h : numeral line = some z) : signed line (((unsigned line).headD 0).toInt - 48) = z ↔
    (∃ b, unsigned line = [b] ∧ IsDigit b) ∨ (unsigned line).head? = some (digit 0) ∧ z = 0 := by
  obtain ⟨hne, hd, rfl⟩ := numeral_eq h
  cases hu : unsigned line with
  | nil => exact absurd hu hne
  | cons b digits =>
    rw [hu] at hd
    have hz : signed line (value (b :: digits)) = 0 ↔ value (b :: digits) = 0 := by
      rw [← signed_zero line, signed_inj]
      omega
    have ho : digits = [] ↔ ∃ c, b :: digits = [c] ∧ IsDigit c := by
      refine ⟨fun h => ⟨b, by rw [h], hd b mem_cons_self⟩, fun h => ?_⟩
      obtain ⟨c, hc, -⟩ := h
      exact (List.cons.inj hc).2
    rw [signed_inj, headD_cons, first_eq_value hd, hz, head?_cons, Option.some_inj, ho]

theorem reads_first_iff : ofInt 32 (signed line (((unsigned line).headD 0).toInt - 48)) = ofInt 32 (intOf line) ↔
    (∃ b, unsigned line = [b] ∧ IsDigit b) ∨ (unsigned line).head? = some (digit 0) ∧ intOf line = 0 := by
  have hf : FitsInt (signed line (((unsigned line).headD 0).toInt - 48)) := by
    have hl := le_toInt ((unsigned line).headD 0)
    have hh := toInt_lt (x := (unsigned line).headD 0)
    unfold signed FitsInt
    split <;> omega
  rw [ofInt_inj hf (fits_intOf line)]
  by_cases hn : ∃ z, numeral line = some z ∧ FitsInt z
  · obtain ⟨z, hz, hft⟩ := hn
    rw [intOf_of_fits hz hft]
    exact first_eq_numeral hz
  · rw [intOf_eq_zero fun z hz hft => hn ⟨z, hz, hft⟩, first_eq_zero]
    refine ⟨fun h => .inr ⟨h, rfl⟩, fun h => (h.resolve_left ?_).1⟩
    rintro ⟨b, hu, hb⟩
    exact hn (numeral_of_one hu hb)

end

/-! ## The system call ReadInt -/

section

variable {W : Type} {bigEndian : Bool} {sv : Services W} {k k₁ : KernelState W}

theorem exceptionHandler_eq (h : k.sys.registers 2 = call.code) :
    exceptionHandler bigEndian sv .syscallException k = (serve bigEndian sv call >>= fun _ => increasePC) k := by
  have hr : readRegister 2 k = .ok (k.sys.registers 2, k) := rfl
  rw [exceptionHandler, bind_run hr]
  simp only [h, Syscall.ofCode_code]

/-- `IncreasePC` returns, and leaves r2 alone. -/
theorem exceptionHandler_returns (h : k.sys.registers 2 = call.code)
    (hs : serve bigEndian sv call k = .ok ((), k₁)) :
    ∃ k', exceptionHandler bigEndian sv .syscallException k = .ok ((), k') ∧ k'.sys.registers 2 = k₁.sys.registers 2 := by
  have hpc : ∃ k', increasePC k₁ = .ok ((), k') := ⟨_, rfl⟩
  obtain ⟨k', hpc⟩ := hpc
  exact ⟨k', by rw [exceptionHandler_eq h]; exact run_bind.mpr ⟨(), k₁, hs, hpc⟩, (increasePC_eq hpc).2.2 2⟩

theorem line_length {n : Nat} : ∀ {input : List Byte} {l : Line}, SynchConsole.line n input = some l → l.stored.length ≤ n := by
  induction n with
  | zero =>
    intro input l h
    cases h
    exact Nat.le_refl 0
  | succ n ih =>
    intro input l h
    cases input with
    | nil => cases h
    | cons ch input =>
      rw [SynchConsole.line] at h
      split at h
      · cases h
        exact Nat.zero_le _
      · obtain ⟨l', hl', rfl⟩ := Option.map_eq_some_iff.mp h
        exact Nat.succ_le_succ (ih hl')

/-- What ReadInt makes of the line that the console delivers. -/
theorem parseInt_receive (hl : l.stored.length ≤ 255) :
    parseInt (receive maxBuffer l).into (ofInt 32 (receive maxBuffer l).result) = ofInt 32 (intOf l.stored) ↔
      ReadsRight l := by
  unfold ReadsRight receive
  simp only
  split
  · rw [parseInt_first rfl, reads_first_iff]
  rw [ofInt_natCast]
  by_cases hne : unsigned l.stored = []
  · rw [parseInt_first ((rounds_eq hl).trans (by rw [hne]; rfl)), reads_first_iff, hne]
    simp
  · rw [parseInt_line hl hne, reads_line_iff]
    exact ⟨fun h => ⟨hne, h⟩, fun h => h.2⟩

theorem readInt_returns {buffer : List Byte} (hc : k.sys.registers 2 = Syscall.readInt.code)
    (hr : readConsole sv maxBuffer k = .ok ((buffer, size), k₁)) :
    ∃ k', exceptionHandler bigEndian sv .syscallException k = .ok ((), k') ∧ k'.sys.registers 2 = parseInt buffer size := by
  have hs : ∃ k2, serve bigEndian sv .readInt k = .ok ((), k2) ∧ k2.sys.registers 2 = parseInt buffer size :=
    ⟨_, run_bind.mpr ⟨_, k₁, hr, rfl⟩, rfl⟩
  obtain ⟨k2, hs, hv⟩ := hs
  obtain ⟨k', hd, hr2⟩ := exceptionHandler_returns hc hs
  exact ⟨k', hd, hr2.trans hv⟩

/-- For every line that the console delivers, ended by a newline, by Ctrl-A or by the buffer's
    size, the call returns and leaves the line's integer in r2, or 0 if it has none, for exactly
    the lines of `ReadsRight`: those with a character after the sign and with no number beyond
    `int`, unless that is a multiple of 2^32. Of the lines ended by Ctrl-A those with one digit
    are right, and those that begin with 0 and should give 0. -/
theorem readInt_iff {input : List Byte} {l : Line} (hline : SynchConsole.line 255 input = some l)
    (hcode : k.sys.registers 2 = Syscall.readInt.code)
    (hread : readConsole sv maxBuffer k = .ok (((receive maxBuffer l).into, BitVec.ofInt 32 (receive maxBuffer l).result), k₁)) :
    ∃ k', exceptionHandler bigEndian sv .syscallException k = .ok ((), k') ∧
      (k'.sys.registers 2 = BitVec.ofInt 32 (intOf l.stored) ↔ ReadsRight l) := by
  obtain ⟨k', hdone, hvalue⟩ := readInt_returns hcode hread
  exact ⟨k', hdone, by rw [hvalue, parseInt_receive (line_length hline)]⟩

end

/-- A console where this line has been typed, and that writes at once. -/
def typed (l : Line) : Services Unit :=
  { busyConsole with
    consoleRead := fun numBytes _ =>
      some ⟨((receive numBytes l).into, BitVec.ofInt 32 (receive numBytes l).result), [], (inSyscall fun _ => 0).files, ()⟩
    consoleWrite := fun _ _ => some ⟨(), [], (inSyscall fun _ => 0).files, ()⟩ }

/-- The process has called ReadInt. -/
def readingInt : KernelState Unit := inSyscall fun x => if x = 2 then 11 else 0

/-- "-42". -/
def minusFortyTwo : Line := ⟨[45, 52, 50], some 10, []⟩

theorem readInt_negative : SynchConsole.line 255 [45, 52, 50, 10] = some minusFortyTwo ∧
    ∃ k', exceptionHandler false (typed minusFortyTwo) .syscallException readingInt = .ok ((), k') ∧ k'.sys.registers 2 = -42 := by
  have hline : SynchConsole.line 255 [45, 52, 50, 10] = some minusFortyTwo := rfl
  have hread : ∃ k₁, readConsole (typed minusFortyTwo) maxBuffer readingInt =
      .ok (((receive maxBuffer minusFortyTwo).into, BitVec.ofInt 32 (receive maxBuffer minusFortyTwo).result), k₁) := ⟨_, rfl⟩
  obtain ⟨k₁, hread⟩ := hread
  have hnum : numeral minusFortyTwo.stored = some (-42) := by decide
  have hright : ReadsRight minusFortyTwo := by
    rw [ReadsRight, if_neg (by decide)]
    refine ⟨by decide, fun z hz => .inl ?_⟩
    rw [hnum] at hz
    cases hz
    decide
  obtain ⟨k', hdone, hiff⟩ := readInt_iff hline rfl hread
  exact ⟨hline, k', hdone, (hiff.mpr hright).trans (by decide)⟩

/-- The call leaves this in r2 when this line has been typed. -/
def ReadsAs (l : Line) (value : Word) : Prop :=
  ∃ k', exceptionHandler false (typed l) .syscallException readingInt = .ok ((), k') ∧ k'.sys.registers 2 = value

theorem readsAs_of {value : Word}
    (h : (exceptionHandler false (typed l) .syscallException readingInt).toOption.any (fun x => x.2.sys.registers 2 == value) = true) :
    ReadsAs l value := by
  obtain ⟨⟨u, k'⟩, hd, ht⟩ := exists_ok _ h
  exact ⟨k', hd, by simpa using ht⟩

/-- An empty line, a lone minus sign, "12" ended by Ctrl-A, and 2^32 + 1. -/
theorem readInt_differs :
    (SynchConsole.line 255 [10] = some ⟨[], some 10, []⟩ ∧ ReadsAs ⟨[], some 10, []⟩ (-48) ∧ intOf [] = 0) ∧
    (SynchConsole.line 255 [45, 10] = some ⟨[45], some 10, []⟩ ∧ ReadsAs ⟨[45], some 10, []⟩ 48 ∧ intOf [45] = 0) ∧
    (SynchConsole.line 255 [49, 50, 1] = some ⟨[49, 50], some 1, []⟩ ∧ ReadsAs ⟨[49, 50], some 1, []⟩ 1 ∧ intOf [49, 50] = 12) ∧
    (SynchConsole.line 255 [52, 50, 57, 52, 57, 54, 55, 50, 57, 55, 10] = some ⟨[52, 50, 57, 52, 57, 54, 55, 50, 57, 55], some 10, []⟩ ∧
      ReadsAs ⟨[52, 50, 57, 52, 57, 54, 55, 50, 57, 55], some 10, []⟩ 1 ∧ intOf [52, 50, 57, 52, 57, 54, 55, 50, 57, 55] = 0) :=
  ⟨⟨rfl, readsAs_of (by decide +kernel), by decide⟩, ⟨rfl, readsAs_of (by decide +kernel), by decide⟩,
    ⟨rfl, readsAs_of (by decide +kernel), by decide⟩, rfl, readsAs_of (by decide +kernel), by decide⟩

/-! ## The digits of PrintInt -/

section

variable {n : Word}

theorem sdiv_ten (n : Word) : (n.sdiv 10).toInt = n.toInt.tdiv 10 :=
  toInt_sdiv_of_ne_or_ne n 10 (.inr (by decide))

theorem natAbs_sdiv_ten (n : Word) : (n.sdiv 10).toInt.natAbs = n.toInt.natAbs / 10 := by
  rw [sdiv_ten, Int.natAbs_tdiv]
  rfl

theorem word_eq_zero_iff : n = 0 ↔ n.toInt.natAbs = 0 := by
  rw [Int.natAbs_eq_zero, ← toInt_inj]
  rfl

/-- The first loop counts the digits of negative numbers, too. -/
theorem digitCount_eq (fuel : Nat) : ∀ n : Word, n.toInt.natAbs < 10 ^ fuel →
    digitCount fuel n = (Nat.digits 10 n.toInt.natAbs).length := by
  induction fuel with
  | zero =>
    intro n hn
    rw [Nat.lt_one_iff.mp hn]
    rfl
  | succ fuel ih =>
    intro n hn
    rw [digitCount]
    by_cases hz : n = 0
    · rw [if_pos hz, word_eq_zero_iff.mp hz]
      rfl
    · have hp : 0 < n.toInt.natAbs := Nat.pos_of_ne_zero (mt word_eq_zero_iff.mpr hz)
      have hr := ih (n.sdiv 10) (by rw [natAbs_sdiv_ten]; rw [Nat.pow_succ] at hn; omega)
      rw [if_neg hz, hr, natAbs_sdiv_ten, Nat.digits_def' (by decide) hp, length_cons]

theorem last_digit (hn : 0 ≤ n.toInt) : (n.srem 10 + 48).setWidth 8 = digit (n.toInt.natAbs % 10) := by
  have hb : ∀ d < 10, (ofNat 32 d + 48).setWidth 8 = digit d := by decide
  have hin : ∀ d < 10, (ofNat 32 d).toInt = d := by decide
  have hlt : n.toInt.natAbs % 10 < 10 := Nat.mod_lt _ (by decide)
  have hs : n.srem 10 = ofNat 32 (n.toInt.natAbs % 10) := by
    apply eq_of_toInt_eq
    rw [toInt_srem, Int.tmod_eq_emod_of_nonneg hn, hin _ hlt, show (10 : Word).toInt = 10 from rfl]
    omega
  rw [hs, hb _ hlt]

/-- The second loop stores the digits of a number that is not negative. -/
theorem digitBytes_eq (count : Nat) : ∀ n : Word, 0 ≤ n.toInt → count = (Nat.digits 10 n.toInt.natAbs).length →
    digitBytes count n = ((Nat.digits 10 n.toInt.natAbs).map digit).reverse := by
  induction count with
  | zero =>
    intro n _ hc
    rw [length_eq_zero_iff.mp hc.symm]
    rfl
  | succ count ih =>
    intro n hn hc
    have hp : 0 < n.toInt.natAbs := by
      rw [Nat.pos_iff_ne_zero]
      intro hz
      rw [hz] at hc
      cases hc
    have hd : 0 ≤ (n.sdiv 10).toInt := by
      rw [sdiv_ten]
      exact Int.tdiv_nonneg hn (by decide)
    rw [Nat.digits_def' (by decide) hp] at hc ⊢
    rw [digitBytes, last_digit hn, ih (n.sdiv 10) hd (by rw [natAbs_sdiv_ten]; exact Nat.succ.inj hc),
      natAbs_sdiv_ten, map_cons, reverse_cons]

theorem natAbs_lt (n : Word) : n.toInt.natAbs < 10 ^ 10 := by
  have hl := le_toInt n
  have hh := toInt_lt (x := n)
  omega

theorem digits_ofNonneg (hn : 0 ≤ n.toInt) (hne : n ≠ 0) : digitBytes (digitCount 10 n) n = intText n.toInt := by
  have hz : ¬ n.toInt.natAbs = 0 := mt word_eq_zero_iff.mpr hne
  rw [digitBytes_eq _ n hn (digitCount_eq 10 n (natAbs_lt n)), intText, if_neg (Int.not_lt.mpr hn), text,
    if_neg hz]

/-- The minus sign takes a place that PrintInt does not count. -/
theorem length_intText (hn : n.toInt < 0) : (intText n.toInt).length = digitCount 10 n + 1 := by
  have hz : ¬ n.toInt.natAbs = 0 := by omega
  rw [intText, if_pos hn, length_cons, text, if_neg hz, length_reverse, length_map,
    digitCount_eq 10 n (natAbs_lt n)]

theorem length_intText_le (n : Word) : (intText n.toInt).length ≤ 255 := by
  have ht : (text n.toInt.natAbs).length ≤ 10 := by
    unfold text
    split
    · decide
    · rw [length_reverse, length_map, Nat.digits_length_le_iff (by decide)]
      exact natAbs_lt n
  unfold intText
  split
  · rw [length_cons]
    omega
  · omega

theorem length_digitBytes (count : Nat) : ∀ n : Word, (digitBytes count n).length = count := by
  induction count with
  | zero => exact fun n => rfl
  | succ count ih =>
    intro n
    rw [digitBytes, length_append, ih]
    rfl

end

/-! ## The system call PrintInt -/

section

variable {W : Type} {bigEndian : Bool} {sv : Services W} {k : KernelState W} {n : Word}

theorem printIntFunction_eq (h4 : k.sys.registers 4 = n) : printIntFunction sv k =
    (if n = 0 then writeConsole sv [48]
    else if n.slt 0 then
      if (n * -1).slt 0 then writeConsole sv (45 :: digitBytes (digitCount 10 n) n) >>= fun _ => increasePC
      else writeConsole sv ((sv.garbage k.world 0 :: digitBytes (digitCount 10 n) n).take (digitCount 10 n))
    else writeConsole sv (digitBytes (digitCount 10 n) n)) k := by
  subst h4
  unfold printIntFunction
  show (if k.sys.registers 4 = 0 then (_ : Handler W Unit) else _) k = _
  split <;> rfl

theorem printIntFunction_nonneg (h4 : k.sys.registers 4 = n) (hn : 0 ≤ n.toInt) :
    printIntFunction sv k = writeConsole sv (intText n.toInt) k := by
  have hs : ¬ n.slt 0 = true := by
    rw [slt_iff_toInt_lt]
    exact Int.not_lt.mpr hn
  rw [printIntFunction_eq h4, if_neg hs]
  split
  · rename_i hz
    rw [hz]
    rfl
  · rename_i hne
    rw [digits_ofNonneg hn hne]

theorem writeConsole_typed (l : Line) (bytes : List Byte) (k : KernelState Unit) : writeConsole (typed l) bytes k =
    .ok ((), ⟨k.sys, { (inSyscall fun _ => 0).files with log := .output bytes :: k.files.log }, ()⟩) :=
  run_bind.mpr ⟨(), _, if_pos rfl, rfl⟩

theorem increasePC_log {x : Handler W Unit} {k₁ : KernelState W} (h : x k = .ok ((), k₁)) :
    ∃ k', (x >>= fun _ => increasePC) k = .ok ((), k') ∧ k'.files.log = k₁.files.log :=
  ⟨_, run_bind.mpr ⟨(), k₁, h, rfl⟩, rfl⟩

/-- What PrintInt writes for a negative number: the least one apart, there is a character too few. -/
theorem printInt_writes (l : Line) {k : KernelState Unit} (h4 : k.sys.registers 4 = n) (hn : n.toInt < 0) :
    ∃ k' bytes, printIntFunction (typed l) k = .ok ((), k') ∧ k'.files.log = .output bytes :: k.files.log ∧
      bytes ≠ intText n.toInt := by
  have hs : n.slt 0 = true := slt_iff_toInt_lt.mpr hn
  have hne : ¬ n = 0 := by
    intro hz
    rw [hz] at hn
    exact absurd hn (by decide)
  rw [printIntFunction_eq h4, if_neg hne, if_pos hs]
  split
  · rename_i hm
    obtain rfl := (slt_mul_neg_one hs).mp hm
    obtain ⟨k', hdn, hlg⟩ := increasePC_log (writeConsole_typed l (45 :: digitBytes (digitCount 10 0x80000000) 0x80000000) k)
    refine ⟨k', _, hdn, hlg, fun h => ?_⟩
    -- the remainders are negative, and what is stored for them are no digits
    have hl : (40 : Byte) ∈ digitBytes (digitCount 10 0x80000000) 0x80000000 := by decide
    rw [intText, if_pos hn] at h
    have hd := Decimal.isDigit_text ((List.cons.inj h).2 ▸ hl)
    exact absurd hd (by decide)
  · refine ⟨_, _, writeConsole_typed l _ k, rfl, fun h => ?_⟩
    have hln := congrArg List.length h
    rw [length_intText hn, List.length_take, length_cons, length_digitBytes] at hln
    omega

/-- For every number in r4: whatever the console and the other threads do, PrintInt is a write of
    the number's decimal notation exactly if the number is not negative. And ReadInt reads that
    notation back, for every number. -/
theorem printInt_iff (bigEndian : Bool) (n : Word) :
    ((∀ (W : Type) (sv : Services W) (k : KernelState W), k.sys.registers 2 = Syscall.printInt.code → k.sys.registers 4 = n →
      exceptionHandler bigEndian sv .syscallException k =
        (writeConsole sv (Lib.Decimal.intText n.toInt) >>= fun _ => increasePC) k) ↔ 0 ≤ n.toInt) ∧
    ∀ (W : Type) (sv : Services W) (k k₁ : KernelState W) (rest : List Byte), k.sys.registers 2 = Syscall.readInt.code →
      readConsole sv maxBuffer k =
        .ok (((receive maxBuffer ⟨Lib.Decimal.intText n.toInt, some 10, rest⟩).into,
          BitVec.ofInt 32 (receive maxBuffer ⟨Lib.Decimal.intText n.toInt, some 10, rest⟩).result), k₁) →
      ∃ k', exceptionHandler bigEndian sv .syscallException k = .ok ((), k') ∧ k'.sys.registers 2 = n := by
  refine ⟨⟨fun h => ?_, fun hn W sv k h2 h4 => ?_⟩, fun W sv k k₁ rest h2 hread => ?_⟩
  · by_contra hn
    have h2 : (inSyscall (printIntRegs n)).sys.registers 2 = Syscall.printInt.code := rfl
    have h4 : (inSyscall (printIntRegs n)).sys.registers 4 = n := rfl
    have heq := h Unit (typed minusFortyTwo) (inSyscall (printIntRegs n)) h2 h4
    obtain ⟨k₁, bytes, hprint, hlog, hbytes⟩ := printInt_writes minusFortyTwo h4 (Int.not_le.mp hn)
    obtain ⟨k₂, hdone, hlog'⟩ := increasePC_log hprint
    obtain ⟨k₃, hwrite, hlog''⟩ :=
      increasePC_log (writeConsole_typed minusFortyTwo (intText n.toInt) (inSyscall (printIntRegs n)))
    rw [exceptionHandler_eq h2] at heq
    obtain ⟨-, rfl⟩ := Prod.mk.inj (Except.ok.inj (hdone.symm.trans (heq.trans hwrite)))
    rw [hlog', hlog] at hlog''
    exact hbytes (Stub.Operation.output.inj (List.cons.inj hlog'').1)
  · rw [exceptionHandler_eq h2]
    exact congrArg (· >>= fun r => increasePC r.2) (printIntFunction_nonneg h4 hn)
  · obtain ⟨k', hdone, hvalue⟩ := readInt_returns h2 hread
    refine ⟨k', hdone, hvalue.trans ?_⟩
    have hresult : (receive maxBuffer ⟨intText n.toInt, some 10, rest⟩).result = (intText n.toInt).length := rfl
    rw [hresult, BitVec.ofInt_natCast]
    refine (parseInt_line (length_intText_le n) ?_).trans ?_
    · rw [Decimal.unsigned_intText]
      exact Decimal.text_ne_nil _
    · rw [Decimal.numeral_intText, Option.getD_some, BitVec.ofInt_toInt]

end

/-- PrintInt(-7): a byte that happened to be in memory. -/
theorem printInt_differs :
    ∃ k', exceptionHandler false (typed minusFortyTwo) .syscallException (inSyscall (printIntRegs (-7))) = .ok ((), k') ∧
    k'.files.log = [.output [0]] ∧ Lib.Decimal.intText (-7) = [45, 55] := by
  obtain ⟨⟨u, k'⟩, hdone, ht⟩ := exists_ok
    (x := exceptionHandler false (typed minusFortyTwo) .syscallException (inSyscall (printIntRegs (-7))))
    (fun x => x.2.files.log == [.output [0]]) (by decide +kernel)
  exact ⟨k', hdone, by simpa using ht, by simp [intText, text, digit, Decimal.minus]⟩

end Nachos

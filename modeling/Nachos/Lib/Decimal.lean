/-
  Nachos.Lib.Decimal — integers in decimal notation, in ASCII.

  `value` is the number that digits denote, `numeral` the integer that a text denotes, if it
  is an optional minus sign and at least one digit. `text` and `intText` write a number
  without leading zeros, and `numeral_intText` reads it back.
-/

import Mathlib.Data.Nat.Digits.Lemmas

namespace Nachos.Lib.Decimal

open List

/-- An ASCII digit. -/
def IsDigit (b : BitVec 8) : Prop := 48 ≤ b.toNat ∧ b.toNat ≤ 57

instance : DecidablePred IsDigit := fun b => inferInstanceAs (Decidable (48 ≤ b.toNat ∧ b.toNat ≤ 57))

/-- The digit of a number below ten. -/
def digit (d : Nat) : BitVec 8 := BitVec.ofNat 8 (48 + d)

/-- The minus sign. -/
def minus : BitVec 8 := 45

/-- `n` with digits put after it. -/
def extend (n : Nat) (digits : List (BitVec 8)) : Nat := digits.foldl (fun n b => 10 * n + (b.toNat - 48)) n

def value (digits : List (BitVec 8)) : Nat := extend 0 digits

/-- A number without leading zeros. -/
def text (n : Nat) : List (BitVec 8) := if n = 0 then [digit 0] else ((Nat.digits 10 n).map digit).reverse

def intText (z : Int) : List (BitVec 8) := if z < 0 then minus :: text z.natAbs else text z.natAbs

/-- What comes after the sign. -/
def unsigned (line : List (BitVec 8)) : List (BitVec 8) := if line.head? = some minus then line.tail else line

/-- `n` with the sign of a line. -/
def signed (line : List (BitVec 8)) (n : Int) : Int := if line.head? = some minus then -n else n

def numeral (line : List (BitVec 8)) : Option Int :=
  if unsigned line ≠ [] ∧ ∀ b ∈ unsigned line, IsDigit b then some (signed line (value (unsigned line))) else none

/-! ## Digits -/

theorem toNat_digit {d : Nat} (hd : d < 10) : (digit d).toNat = 48 + d := by
  rw [digit, BitVec.toNat_ofNat]
  omega

theorem isDigit_digit {d : Nat} (hd : d < 10) : IsDigit (digit d) := by
  rw [IsDigit, toNat_digit hd]
  omega

variable (n : Nat) (digits : List (BitVec 8))

theorem extend_append (b : BitVec 8) :
    extend n (digits ++ [b]) = 10 * extend n digits + (b.toNat - 48) := by
  rw [extend, foldl_append]
  rfl

/-- More digits make no smaller number. -/
theorem le_extend : ∀ n, n ≤ extend n digits := by
  induction digits with
  | nil => exact Nat.le_refl
  | cons b digits ih =>
    intro n
    have := ih (10 * n + (b.toNat - 48))
    show n ≤ extend (10 * n + (b.toNat - 48)) digits
    omega

/-- The digits of `Nat.digits`, which has the last one first. -/
theorem value_digits (ds : List Nat) (h : ∀ d ∈ ds, d < 10) : value ((ds.map digit).reverse) = Nat.ofDigits 10 ds := by
  induction ds with
  | nil => rfl
  | cons d ds ih =>
    have hd : d < 10 := h d mem_cons_self
    have hr := ih fun d' hd' => h d' (mem_cons_of_mem _ hd')
    rw [map_cons, reverse_cons, value, extend_append, toNat_digit hd, Nat.ofDigits_cons]
    rw [value] at hr
    simp only [hr]
    omega

theorem value_text : value (text n) = n := by
  unfold text
  split
  · rename_i hz
    rw [hz]
    rfl
  · rw [value_digits _ fun d hd => Nat.digits_lt_base (by decide) hd, Nat.ofDigits_digits]

theorem isDigit_text {n : Nat} {b : BitVec 8} (hb : b ∈ text n) : IsDigit b := by
  unfold text at hb
  split at hb
  · rw [mem_singleton.mp hb]
    exact isDigit_digit (by decide)
  · rw [mem_reverse] at hb
    obtain ⟨d, hd, rfl⟩ := mem_map.mp hb
    exact isDigit_digit (Nat.digits_lt_base (by decide) hd)

theorem text_ne_nil : text n ≠ [] := by
  unfold text
  split
  · exact cons_ne_nil _ _
  rename_i hn
  intro h
  rw [reverse_eq_nil_iff, map_eq_nil_iff, Nat.digits_eq_nil_iff_eq_zero] at h
  exact hn h

theorem text_head : (text n).head? ≠ some minus := by
  intro h
  have hd := isDigit_text (mem_of_head? h)
  exact absurd hd (by decide)

/-! ## Signs -/

theorem unsigned_intText (z : Int) : unsigned (intText z) = text z.natAbs := by
  unfold intText unsigned
  by_cases hz : z < 0
  · rw [if_pos hz]
    exact if_pos rfl
  · rw [if_neg hz, if_neg (text_head _)]

theorem signed_intText (z : Int) : signed (intText z) z.natAbs = z := by
  unfold intText signed
  by_cases hz : z < 0
  · rw [if_pos hz, if_pos (show (minus :: text z.natAbs).head? = some minus from rfl)]
    omega
  · rw [if_neg hz, if_neg (text_head _)]
    omega

theorem numeral_intText (z : Int) : numeral (intText z) = some z := by
  have hd : unsigned (intText z) ≠ [] ∧ ∀ b ∈ unsigned (intText z), IsDigit b := by
    rw [unsigned_intText]
    exact ⟨text_ne_nil _, fun b hb => isDigit_text hb⟩
  rw [numeral, if_pos hd, unsigned_intText, value_text, signed_intText]

end Nachos.Lib.Decimal

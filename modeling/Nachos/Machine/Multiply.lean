/-
  Nachos.Machine.Multiply — `Mult` of `machine/mipssim.cc` is exact.

  The two words of the shifted multiplicand and those of the sum are read as one of 64 bits:
  the hand-made carry is addition there, and the hand-made shift is doubling. The loop then
  adds the multiplicand times the bits of `a` it looks at (`multLoop_eq`); it looks at 32, so
  the sign bits that the arithmetic shift of `a` brings in are never among them.
-/

import Mathlib.Data.BitVec
import Nachos.Machine.MipsSim

namespace Nachos

open BitVec

/-! ## Bits -/

variable (w : Word)

theorem sign_eq_msb : sign w = w.msb := by
  have hm : (0x80000000 : Word) = BitVec.twoPow 32 31 := by decide
  rw [sign, hm, and_twoPow, msb_eq_getLsbD_last]
  by_cases h : w.getLsbD 31 = true
  · rw [if_pos h, h]
    decide
  · rw [if_neg h, Bool.eq_false_iff.mpr h]
    decide

theorem signBit_ne_zero : w &&& 0x80000000 ≠ 0 ↔ 2147483648 ≤ w.toNat := by
  have h := sign_eq_msb w
  rw [sign, msb_eq_decide] at h
  have hif := Bool.eq_iff_iff.mp h
  rw [bne_iff_ne, decide_eq_true_eq] at hif
  exact hif

theorem lowBit_ne_zero : w &&& 1 ≠ 0 ↔ w.toNat % 2 = 1 := by
  rw [ne_eq, ← toNat_inj, toNat_and, show (1 : Word).toNat = 1 from rfl, show (0 : Word).toNat = 0 from rfl,
    Nat.and_one_is_mod]
  omega

/-- Only the low bit is left. -/
theorem toNat_of_high_zero {w : Word} (h : w &&& 0xfffffffe = 0) : w.toNat = w.toNat % 2 := by
  have hs : w = w &&& 1 := by
    calc w = w &&& (1 ||| 0xfffffffe) := by rw [show (1 ||| 0xfffffffe : Word) = BitVec.allOnes 32 by decide, and_allOnes]
      _ = w &&& 1 ||| w &&& 0xfffffffe := and_or_distrib_left
      _ = w &&& 1 := by rw [h]; exact or_zero
  calc w.toNat = (w &&& 1).toNat := congrArg BitVec.toNat hs
    _ = w.toNat % 2 := by rw [toNat_and, show (1 : Word).toNat = 1 from rfl, Nat.and_one_is_mod]

/-- The arithmetic shift halves, but for the sign it brings in. -/
theorem toNat_sshiftRight_one : ∃ c, (w.sshiftRight 1).toNat = w.toNat / 2 + c * 2147483648 := by
  have h := toInt_sshiftRight (x := w) (n := 1)
  rw [Int.shiftRight_eq_div_pow, toInt_eq_toNat_cond, toInt_eq_toNat_cond] at h
  have hlt := w.isLt
  have hl' := (w.sshiftRight 1).isLt
  by_cases hn : 2147483648 ≤ w.toNat
  · refine ⟨1, ?_⟩
    split at h <;> split at h <;> omega
  · refine ⟨0, ?_⟩
    split at h <;> split at h <;> omega

/-! ## Two words as one -/

theorem toNat_pair (hi lo : Word) : (hi ++ lo).toNat = hi.toNat * 4294967296 + lo.toNat := by
  rw [toNat_append, ← Nat.shiftLeft_add_eq_or_of_lt lo.isLt, Nat.shiftLeft_eq]

/-- The sum of the low words carries into the high ones. -/
theorem pair_add (hi lo bHi bLo : Word) :
    ((if lo + bLo < bLo then hi + 1 else hi) + bHi) ++ (lo + bLo) = (hi ++ lo) + (bHi ++ bLo) := by
  apply eq_of_toNat_eq
  have ho : (1 : Word).toNat = 1 := rfl
  rw [toNat_add, toNat_pair, toNat_pair, toNat_pair]
  split <;> rename_i hlt <;> rw [lt_def, toNat_add] at hlt <;> simp only [toNat_add, ho] <;> omega

/-- The top bit of the low word goes into the high one. -/
theorem pair_double (bHi bLo : Word) :
    ((bHi <<< 1) ||| (if bLo &&& 0x80000000 ≠ 0 then 1 else 0 : Word)) ++ (bLo <<< 1) = (bHi ++ bLo) + (bHi ++ bLo) := by
  have he : ((bHi <<< 1) &&& 1) = (0 : Word) := by
    by_contra h
    rw [← ne_eq, lowBit_ne_zero, toNat_shiftLeft, Nat.shiftLeft_eq] at h
    omega
  have ho : (1 : Word).toNat = 1 := rfl
  apply eq_of_toNat_eq
  rw [toNat_add, toNat_pair, toNat_pair]
  by_cases ht : bLo &&& 0x80000000 ≠ 0
  · rw [if_pos ht, ← add_eq_or_of_and_eq_zero _ _ he]
    rw [signBit_ne_zero] at ht
    simp only [toNat_add, toNat_shiftLeft, Nat.shiftLeft_eq, ho]
    omega
  · rw [if_neg ht, show (bHi <<< 1 ||| (0 : Word)) = bHi <<< 1 from or_zero]
    rw [signBit_ne_zero] at ht
    simp only [toNat_shiftLeft, Nat.shiftLeft_eq]
    omega

theorem pair_neg (hi lo : Word) : (if ~~~lo + 1 = 0 then ~~~hi + 1 else ~~~hi) ++ (~~~lo + 1) = -(hi ++ lo) := by
  have ho : (1 : Word).toNat = 1 := rfl
  apply eq_of_toNat_eq
  rw [toNat_neg, toNat_pair, toNat_pair]
  have hn : (~~~lo + 1).toNat = if lo.toNat = 0 then 0 else 4294967296 - lo.toNat := by
    rw [toNat_add, toNat_not, ho]
    split <;> omega
  by_cases hz : lo.toNat = 0
  · rw [if_pos hz] at hn
    rw [if_pos (eq_of_toNat_eq hn), hn, toNat_add, toNat_not, ho]
    omega
  · rw [if_neg hz] at hn
    rw [if_neg (fun e => by rw [e] at hn; have := lo.isLt; simp at hn; omega), hn, toNat_not]
    omega

/-! ## The loop -/

/-- The low bit and the rest of a multiplier. -/
theorem ofNat_mul_pair {w : Nat} (bit rest : Nat) (y : BitVec w) :
    BitVec.ofNat w (bit + 2 * rest) * y = BitVec.ofNat w bit * y + BitVec.ofNat w rest * (y + y) := by
  rw [Nat.two_mul, ofNat_add, ofNat_add, BitVec.add_mul, BitVec.add_mul, BitVec.mul_add]

theorem multLoop_eq (n : Nat) : n ≤ 32 → ∀ a bHi bLo hi lo : Word,
    (multLoop n a bHi bLo hi lo).1 ++ (multLoop n a bHi bLo hi lo).2 =
      (hi ++ lo) + BitVec.ofNat 64 (a.toNat % 2 ^ n) * (bHi ++ bLo) := by
  induction n with
  | zero =>
    intro _ a bHi bLo hi lo
    rw [multLoop, Nat.pow_zero, Nat.mod_one]
    simp
  | succ n ih =>
    intro hn a bHi bLo hi lo
    -- the bits that are left
    have hb : a.toNat % 2 ^ (n + 1) = a.toNat % 2 + 2 * ((a.sshiftRight 1).toNat % 2 ^ n) := by
      obtain ⟨c, hsh⟩ := toNat_sshiftRight_one a
      have hp : 2147483648 = 2 ^ n * 2 ^ (31 - n) := by rw [← Nat.pow_add, Nat.add_sub_cancel' (Nat.le_of_succ_le_succ hn)]
      rw [hsh, hp, Nat.mul_comm c, Nat.mul_assoc, Nat.add_mul_mod_self_left, Nat.pow_succ', Nat.mod_mul]
    have hr := fun hi lo => ih (Nat.le_of_succ_le hn) (a.sshiftRight 1)
      ((bHi <<< 1) ||| if bLo &&& 0x80000000 ≠ 0 then 1 else 0) (bLo <<< 1) hi lo
    rw [pair_double] at hr
    simp only [multLoop]
    by_cases ho : a &&& 1 ≠ 0
    · rw [if_pos ho]
      rw [lowBit_ne_zero] at ho
      by_cases hl : a &&& 0xfffffffe = 0
      · have hon := toNat_of_high_zero hl
        have hs : a.toNat % 2 ^ (n + 1) = 1 := by
          rw [hon, ho]
          exact Nat.mod_eq_of_lt (Nat.one_lt_two_pow (Nat.succ_ne_zero n))
        rw [if_pos hl, pair_add, hs, BitVec.one_mul]
      · rw [if_neg hl, hr, pair_add, hb, ho, ofNat_mul_pair, BitVec.one_mul, BitVec.add_assoc]
    · rw [if_neg ho, hr, hb, ofNat_mul_pair]
      rw [lowBit_ne_zero] at ho
      rw [Nat.mod_two_ne_one.mp ho, zero_mul, BitVec.zero_add]

/-- The loop multiplies two words without sign. -/
theorem multLoop_exact (a b : Word) :
    ((multLoop 32 a 0 b 0 0).1 ++ (multLoop 32 a 0 b 0 0).2).toNat = a.toNat * b.toNat := by
  have hlt : a.toNat * b.toNat < 18446744073709551616 :=
    Nat.mul_lt_mul'' a.isLt b.isLt
  rw [multLoop_eq 32 (Nat.le_refl _), toNat_add, toNat_mul, toNat_pair, toNat_pair, toNat_ofNat]
  have ha : a.toNat % 2 ^ 32 = a.toNat := Nat.mod_eq_of_lt a.isLt
  have ha' : a.toNat % 2 ^ 64 = a.toNat := Nat.mod_eq_of_lt (Nat.lt_trans a.isLt (by decide))
  rw [ha, ha', show (0 : Word).toNat = 0 from rfl, Nat.zero_mul, Nat.zero_add, Nat.zero_add, Nat.mod_mod]
  exact Nat.mod_eq_of_lt hlt

/-! ## Signs -/

theorem slt_zero_iff : w.slt 0 = true ↔ w.toInt < 0 := decide_eq_true_iff

/-- What the loop is given for a word with a sign. -/
theorem toNat_magnitude : ((if w.slt 0 then -w else w).toNat : Int) = if w.slt 0 then -w.toInt else w.toInt := by
  have hlt := w.isLt
  have hs := slt_zero_iff w
  rw [toInt_eq_toNat_cond] at hs ⊢
  by_cases hn : w.slt 0 = true
  · rw [if_pos hn, if_pos hn, toNat_neg]
    have := hs.mp hn
    split at this <;> omega
  · rw [if_neg hn, if_neg hn]
    have := mt hs.mpr hn
    split at this <;> omega

theorem magnitude_le : 0 ≤ (if w.slt 0 then -w.toInt else w.toInt) ∧
    (if w.slt 0 then -w.toInt else w.toInt) ≤ 2147483648 := by
  have hs := slt_zero_iff w
  have hle := le_toInt (x := w)
  have hlt := toInt_lt (x := w)
  by_cases hn : w.slt 0 = true
  · have := hs.mp hn
    rw [if_pos hn]
    omega
  · have := mt hs.mpr hn
    rw [if_neg hn]
    omega

/-- A small number, or its complement, read with a sign. -/
theorem toInt_signed {x : BitVec 64} (hx : x.toNat ≤ 4611686018427387904) (negative : Bool) :
    (if negative then -x else x).toInt = if negative then -(x.toNat : Int) else x.toNat := by
  cases negative with
  | false =>
    rw [if_neg Bool.false_ne_true, if_neg Bool.false_ne_true]
    exact toInt_eq_toNat_of_lt (by omega)
  | true =>
    rw [if_pos rfl, if_pos rfl, toInt_eq_toNat_cond, toNat_neg]
    split <;> omega

/-- The signed product, before its sign is looked at. -/
theorem mult_signed {a b : Word} (hz : ¬ (a = 0 ∨ b = 0)) : ∃ x : BitVec 64,
    (x.toNat : Int) = (if a.slt 0 then -a.toInt else a.toInt) * (if b.slt 0 then -b.toInt else b.toInt) ∧
    (mult a b true).1 ++ (mult a b true).2 = if a.slt 0 != b.slt 0 then -x else x := by
  have hl := multLoop_exact (if a.slt 0 then -a else a) (if b.slt 0 then -b else b)
  refine ⟨(multLoop 32 (if a.slt 0 then -a else a) 0 (if b.slt 0 then -b else b) 0 0).1 ++
    (multLoop 32 (if a.slt 0 then -a else a) 0 (if b.slt 0 then -b else b) 0 0).2, ?_, ?_⟩
  · rw [← toNat_magnitude, ← toNat_magnitude, hl, Int.natCast_mul]
  rw [mult, if_neg hz]
  simp only [Bool.true_and]
  split
  · exact pair_neg _ _
  · rfl

/-- `Mult` leaves the product of the two words in `hi` and `lo`: of the signed ones, and of the
    unsigned ones. -/
theorem mult_exact (a b : Word) :
    ((mult a b true).1 ++ (mult a b true).2).toInt = a.toInt * b.toInt ∧
    ((mult a b false).1 ++ (mult a b false).2).toNat = a.toNat * b.toNat := by
  by_cases hzero : a = 0 ∨ b = 0
  · rw [mult, mult, if_pos hzero, if_pos hzero]
    rcases hzero with rfl | rfl
    · exact ⟨(Int.zero_mul _).symm, (Nat.zero_mul _).symm⟩
    · exact ⟨(Int.mul_zero _).symm, (Nat.mul_zero _).symm⟩
  · constructor
    · obtain ⟨x, hx, hpair⟩ := mult_signed hzero
      have hsmall : (x.toNat : Int) ≤ 2147483648 * 2147483648 := by
        rw [hx]
        exact Int.mul_le_mul (magnitude_le a).2 (magnitude_le b).2 (magnitude_le b).1 (by decide)
      rw [hpair, toInt_signed (by omega), hx]
      cases a.slt 0 <;> cases b.slt 0 <;> simp
    · rw [mult, if_neg hzero]
      exact multLoop_exact a b

end Nachos

/-
  Nachos.Userprog.UserMemory — `User2System` and `System2User` of `userprog/exception.cc`:
  how a system call copies bytes between a process and the kernel.

  Both go byte by byte through `ReadMem` and `WriteMem`, so a bad address traps, and both
  stop after a zero byte: `User2System` leaves the rest of its cleared buffer zero, and
  `System2User` leaves the rest of the user's memory as it was.
-/

import Nachos.Machine.Translate

namespace Nachos

/-! ## Signed comparisons -/

variable {w b : Word}

theorem negative_iff : w.slt 0 = true ↔ 2147483648 ≤ w.toNat := by
  have hlt := w.isLt
  rw [BitVec.slt_iff_toInt_lt, BitVec.toInt_eq_toNat_cond w, show (0 : Word).toInt = 0 from rfl]
  split <;> omega

theorem positive_iff : BitVec.slt 0 w = true ↔ 0 < w.toNat ∧ w.toNat < 2147483648 := by
  have hlt := w.isLt
  rw [BitVec.slt_iff_toInt_lt, BitVec.toInt_eq_toNat_cond w, show (0 : Word).toInt = 0 from rfl]
  split <;> omega

theorem slt_of_nonneg (hb : b.toNat < 2147483648) (hw : w.toNat < 2147483648) : b.slt w = true ↔ b.toNat < w.toNat := by
  rw [BitVec.slt_iff_toInt_lt, BitVec.toInt_eq_toNat_cond w, BitVec.toInt_eq_toNat_cond b]
  split <;> split <;> omega

/-- `0 <= w && w <= b`, for a bound that is not negative. -/
theorem in_range_iff (hb : b.toNat < 2147483648) : ¬ (w.slt 0 = true ∨ b.slt w = true) ↔ w.toNat ≤ b.toNat := by
  rw [not_or, negative_iff, Nat.not_le]
  constructor
  · rintro ⟨hw, hlt⟩
    rwa [slt_of_nonneg hb hw, Nat.not_lt] at hlt
  · intro h
    have hw : w.toNat < 2147483648 := by omega
    exact ⟨hw, by rw [slt_of_nonneg hb hw]; omega⟩

/-! ## The copies -/

/-- MAX_LENGTH of exception.cc. -/
abbrev maxLength : Nat := 32

theorem Byte.lawfulBEq : LawfulBEq Byte := inferInstance

instance Byte.decidableMem (b : Byte) (l : List Byte) : Decidable (b ∈ l) :=
  @List.instDecidableMemOfLawfulBEq Byte instBEqOfDecidableEq Byte.lawfulBEq b l

/-- The C string in a buffer. -/
def cString (buffer : List Byte) : List Byte := buffer.takeWhile (· != 0)

theorem cString_cons (b : Byte) (l : List Byte) : cString (b :: l) = if b = 0 then [] else b :: cString l := by
  rw [cString, List.takeWhile_cons]
  by_cases h : b = 0
  · simp [h]
  · simp [cString]

theorem cString_take (n : Nat) (l : List Byte) : cString (l.take n) = (cString l).take n := by
  induction n generalizing l with
  | zero => rfl
  | succ n ih =>
    cases l with
    | nil => rfl
    | cons b l =>
      rw [List.take_succ_cons, cString_cons, cString_cons, ih]
      split <;> rfl

/-- A terminated string ends there. -/
theorem cString_append_zero (l rest : List Byte) : cString (cString l ++ 0 :: rest) = cString l := by
  induction l with
  | nil => rfl
  | cons b l ih =>
    rw [cString_cons]
    split
    · rfl
    · rename_i hb
      rw [List.cons_append, cString_cons, if_neg hb, ih]

theorem cString_text {s : List Byte} (h : 0 ∉ s) (rest : List Byte) : cString (s ++ 0 :: rest) = s := by
  induction s with
  | nil => rfl
  | cons b s ih =>
    have hb : b ≠ 0 := fun e => h (e ▸ List.mem_cons_self)
    rw [List.cons_append, cString_cons, if_neg hb, ih fun hm => h (List.mem_cons_of_mem b hm)]

variable (bigEndian : Bool)

/-- The loop of `User2System`, with `n` bytes to go: the bytes it stores in the buffer. -/
def Machine.copyIn (m : Machine) (virtAddr : Word) : Nat → Outcome (List Byte)
  | 0 => .done [] m
  | n + 1 =>
    (m.readMem bigEndian virtAddr 1).bind fun oneChar m =>
      if oneChar = 0 then .done [0] m
      else (m.copyIn (virtAddr + 1) n).bind fun rest m => .done (oneChar.setWidth 8 :: rest) m

/-- `User2System`: the `limit + 1` bytes of the kernel's buffer. For a negative size `new`
    throws, which nothing catches. -/
def Machine.user2System (m : Machine) (virtAddr limit : Word) : Outcome (List Byte) :=
  if (limit + 1).slt 0 then .stop .assertion
  else
    (m.copyIn bigEndian virtAddr (if BitVec.slt 0 limit then limit.toNat else 0)).bind fun bytes m =>
      .done (bytes ++ List.replicate ((limit + 1).toNat - bytes.length) 0) m

/-- The loop of `System2User`: how many of the bytes it has copied. -/
def Machine.copyOut (m : Machine) (virtAddr : Word) : List Byte → Outcome Nat
  | [] => .done 0 m
  | b :: rest =>
    (m.writeMem bigEndian virtAddr 1 (b.signExtend 32)).bind fun _ m =>
      if b = 0 then .done 1 m
      else (m.copyOut (virtAddr + 1) rest).bind fun n m => .done (n + 1) m

/-- `System2User`: what it returns. -/
def Machine.system2User (m : Machine) (virtAddr len : Word) (buffer : List Byte) : Outcome Word :=
  if len.slt 0 then .done (-1) m
  else (m.copyOut bigEndian virtAddr (buffer.take len.toNat)).bind fun n m => .done (BitVec.ofNat 32 n) m

end Nachos

/-
  Nachos.Lib.Layout — how values lie in memory, byte by byte.

  A `Layout` gives every value of a type the same number of bytes, from which it can be read
  back; what the bytes of other patterns read as is the layout's own affair. An array is its
  elements one after the other (`list_bytesOf`). `patch` is a copy into the middle of a
  buffer.
-/

namespace Nachos.Lib

open List

structure Layout (α : Type) where
  size : Nat
  bytes : α → List (BitVec 8)
  ofBytes : List (BitVec 8) → α
  length_bytes : ∀ a, (bytes a).length = size
  ofBytes_bytes : ∀ a, ofBytes (bytes a) = a

namespace Layout

variable {α : Type} (l : Layout α)

/-- The bytes of an array. -/
def bytesOf (as : List α) : List (BitVec 8) := as.flatMap l.bytes

/-- The array of `n` elements in a buffer. -/
def list : Nat → List (BitVec 8) → List α
  | 0, _ => []
  | n + 1, buf => l.ofBytes (buf.take l.size) :: list n (buf.drop l.size)

@[simp] theorem length_list (n : Nat) : ∀ buf : List (BitVec 8), (l.list n buf).length = n := by
  induction n with
  | zero => intro buf; rfl
  | succ n ih => intro buf; rw [list, length_cons, ih]

@[simp] theorem length_bytesOf (as : List α) : (l.bytesOf as).length = as.length * l.size := by
  induction as with
  | nil => exact (Nat.zero_mul _).symm
  | cons a as ih =>
    rw [bytesOf, flatMap_cons, length_append, l.length_bytes, length_cons, Nat.succ_mul, Nat.add_comm]
    exact congrArg (· + l.size) ih

/-- An array is read back from its bytes, whatever follows them. -/
theorem list_bytesOf (as : List α) (rest : List (BitVec 8)) : l.list as.length (l.bytesOf as ++ rest) = as := by
  induction as with
  | nil => rfl
  | cons a as ih =>
    have hs : l.bytesOf (a :: as) ++ rest = l.bytes a ++ (l.bytesOf as ++ rest) := by
      simp only [bytesOf, flatMap_cons, append_assoc]
    rw [hs, length_cons, list, ← l.length_bytes a, take_left, drop_left, l.ofBytes_bytes, ih]

/-- Only the bytes of the array count. -/
theorem list_take (n : Nat) : ∀ buf : List (BitVec 8), l.list n (buf.take (n * l.size)) = l.list n buf := by
  induction n with
  | zero => intro buf; rfl
  | succ n ih =>
    intro buf
    rw [list, list, take_take, Nat.min_eq_left (Nat.le_mul_of_pos_left _ (Nat.succ_pos n)), drop_take,
      Nat.succ_mul, Nat.add_sub_cancel, ih]

end Layout

/-! ## Words -/

/-- A 32-bit word, the low byte first. -/
def word : Layout (BitVec 32) where
  size := 4
  bytes w := [w.extractLsb' 0 8, w.extractLsb' 8 8, w.extractLsb' 16 8, w.extractLsb' 24 8]
  ofBytes
    | [b₀, b₁, b₂, b₃] => b₃ ++ b₂ ++ b₁ ++ b₀
    | _ => 0
  length_bytes _ := rfl
  ofBytes_bytes w := by
    apply BitVec.eq_of_getLsbD_eq
    intro i hi
    simp only [BitVec.getLsbD_append, BitVec.getLsbD_extractLsb']
    by_cases h₀ : i < 8
    · simp [h₀]
    by_cases h₁ : i - 8 < 8
    · simp [h₀, h₁, show 8 + (i - 8) = i by omega]
    · by_cases h₂ : i - 8 - 8 < 8
      · simp [h₀, h₁, h₂, show 16 + (i - 8 - 8) = i by omega]
      · simp [h₀, h₁, h₂, show i - 8 - 8 - 8 < 8 by omega, show 24 + (i - 8 - 8 - 8) = i by omega]

/-! ## Copies into a buffer -/

variable {β : Type}

/-- The buffer with `bytes` copied to `start`. -/
def patch (buf : List β) (start : Nat) (bytes : List β) : List β :=
  buf.take start ++ bytes ++ buf.drop (start + bytes.length)

theorem length_patch {buf bytes : List β} {start : Nat} (h : start + bytes.length ≤ buf.length) :
    (patch buf start bytes).length = buf.length := by
  simp only [patch, length_append, List.length_take, length_drop]
  omega

/-- The copy is where it was put, and the rest is as before. -/
theorem getElem?_patch {buf : List β} {start : Nat} (bytes : List β) (h : start ≤ buf.length) (i : Nat) :
    (patch buf start bytes)[i]? =
      if start ≤ i ∧ i < start + bytes.length then bytes[i - start]? else buf[i]? := by
  have hl : (buf.take start ++ bytes).length = start + bytes.length := by
    rw [length_append, List.length_take, Nat.min_eq_left h]
  unfold patch
  by_cases hlt : i < start
  · rw [getElem?_append_left (by omega), getElem?_append_left (by rw [List.length_take]; omega),
      getElem?_take_of_lt hlt, if_neg (by omega)]
  by_cases hin : i < start + bytes.length
  · rw [getElem?_append_left (by omega), getElem?_append_right (by rw [List.length_take]; omega),
      List.length_take, Nat.min_eq_left h, if_pos ⟨by omega, hin⟩]
  · rw [getElem?_append_right (by omega), getElem?_drop, hl, if_neg (by omega)]
    congr 1
    omega

theorem patch_patch (buf a b : List β) (start : Nat) :
    patch (patch buf start a) (start + a.length) b = patch buf start (a ++ b) := by
  rcases Nat.le_total start buf.length with h | h
  · have hl : (buf.take start ++ a).length = start + a.length := by rw [length_append, List.length_take, Nat.min_eq_left h]
    rw [patch, patch, patch, take_left' hl, ← hl, drop_length_add_append, drop_drop, hl, length_append,
      Nat.add_assoc, ← append_assoc]
  · -- past the end both are appended
    have hd : ∀ n, buf.drop (start + n) = [] := fun n => drop_eq_nil_of_le (by omega)
    have hl : (buf ++ a).length ≤ start + a.length := by rw [length_append]; omega
    rw [patch, patch, patch, hd, hd, take_of_length_le h, append_nil, append_nil, take_of_length_le hl,
      drop_eq_nil_of_le (Nat.le_add_right_of_le hl), append_nil, append_assoc]

theorem patch_nil (buf : List β) (start : Nat) : patch buf start [] = buf := by
  simp [patch]

theorem patch_append (a buf : List β) (start : Nat) (bytes : List β) :
    patch (a ++ buf) (a.length + start) bytes = a ++ patch buf start bytes := by
  rw [patch, patch, Nat.add_assoc, take_length_add_append, drop_length_add_append, append_assoc, append_assoc,
    append_assoc]

theorem patch_all {buf bytes : List β} (h : bytes.length = buf.length) : patch buf 0 bytes = bytes := by
  simp [patch, h]

theorem take_patch_zero (buf bytes : List β) : (patch buf 0 bytes).take bytes.length = bytes := by
  simp [patch]

end Nachos.Lib

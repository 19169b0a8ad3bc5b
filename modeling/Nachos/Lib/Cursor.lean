/-
  Nachos.Lib.Cursor — an array with a cursor, and runs of calls on it.

  A transfer of `n` elements at `p` moves as many as the array has there. Reads and writes in
  sequence go on where the last one stopped, so any chunking of a transfer is the transfer:
  `calls_reads` and `calls_writes`.
-/

import Mathlib.Algebra.GroupWithZero.Nat
import Nachos.Lib.Layout

namespace Nachos.Lib

open List

structure Cursor (β : Type) where
  elems : List β
  pos : Nat

namespace Cursor

/-- The calls; a count may be negative. -/
inductive Call (β : Type) where
  | seek (p : Nat)
  | read (n : Int)
  | write (data : List β) (n : Int)
  | readAt (n : Int) (p : Nat)
  | writeAt (data : List β) (n : Int) (p : Nat)
  | length
  | getCurrentPos

/-- How many elements a transfer of `n` at `p` moves in an array of length `l`. -/
def moved (l : Nat) (n : Int) (p : Nat) : Nat := (max 0 (min n (l - p))).toNat

variable {β : Type} {m n : Int} {p : Nat}

variable (c : Cursor β)

def readAt (n : Int) (p : Nat) : List β := (c.elems.drop p).take (moved c.elems.length n p)

def writeAt (data : List β) (n : Int) (p : Nat) : Cursor β :=
  { c with elems := patch c.elems p (data.take (moved c.elems.length n p)) }

def advance (k : Nat) : Cursor β := { c with pos := c.pos + k }

/-- What a call answers, a number and the elements read, and the array after it. -/
def call : Call β → (Nat × List β) × Cursor β
  | .seek p => ((0, []), { c with pos := p })
  | .read n => ((moved c.elems.length n c.pos, c.readAt n c.pos), c.advance (moved c.elems.length n c.pos))
  | .write data n => ((moved c.elems.length n c.pos, []), (c.writeAt data n c.pos).advance (moved c.elems.length n c.pos))
  | .readAt n p => ((moved c.elems.length n p, c.readAt n p), c)
  | .writeAt data n p => ((moved c.elems.length n p, []), c.writeAt data n p)
  | .length => ((c.elems.length, []), c)
  | .getCurrentPos => ((c.pos, []), c)

def calls (c : Cursor β) : List (Call β) → List (Nat × List β) × Cursor β
  | [] => ([], c)
  | a :: as => ((c.call a).1 :: ((c.call a).2.calls as).1, ((c.call a).2.calls as).2)

/-! ## Transfers -/

theorem moved_eq (l : Nat) (n : Int) (p : Nat) : moved l n p = min n.toNat (l - p) := by
  unfold moved
  omega

theorem moved_zero (l p : Nat) : moved l 0 p = 0 := by
  unfold moved
  omega

/-- What a second transfer moves after the first has moved the cursor. -/
theorem moved_add (l p : Nat) (hm : 0 ≤ m) (hn : 0 ≤ n) :
    moved l m p + moved l n (p + moved l m p) = moved l (m + n) p := by
  unfold moved
  omega

theorem length_writeAt {c : Cursor β} {data : List β} (hn : n ≤ data.length) :
    (c.writeAt data n p).elems.length = c.elems.length := by
  have hm := moved_eq c.elems.length n p
  rcases Nat.eq_zero_or_pos (moved c.elems.length n p) with hz | hp
  · rw [writeAt, hz, take_zero, patch_nil]
  · apply length_patch
    rw [List.length_take]
    omega

theorem readAt_writeAt {data : List β} (h : n ≤ data.length) :
    (c.writeAt data n p).readAt n p = data.take (moved c.elems.length n p) := by
  have hm := moved_eq c.elems.length n p
  have hd : (data.take (moved c.elems.length n p)).length = moved c.elems.length n p := by
    rw [List.length_take]
    omega
  rw [readAt, length_writeAt h]
  rcases Nat.lt_or_ge c.elems.length p with hp | hp
  · rw [show moved c.elems.length n p = 0 by omega, take_zero, take_zero]
  · have hpr : (c.elems.take p).length = p := by rw [List.length_take, Nat.min_eq_left hp]
    rw [writeAt, patch, append_assoc, drop_left' hpr, take_left' hd]

/-! ## Chunks -/

theorem read_read (hm : 0 ≤ m) (hn : 0 ≤ n) :
    (c.call (.read m)).1.1 + ((c.call (.read m)).2.call (.read n)).1.1 = (c.call (.read (m + n))).1.1 ∧
    (c.call (.read m)).1.2 ++ ((c.call (.read m)).2.call (.read n)).1.2 = (c.call (.read (m + n))).1.2 ∧
    ((c.call (.read m)).2.call (.read n)).2 = (c.call (.read (m + n))).2 := by
  have hs := moved_add c.elems.length c.pos hm hn
  simp only [call, readAt, advance, ← hs, Nat.add_assoc, true_and, and_true]
  rw [take_add, drop_drop]

/-- The data of two writes, as far as they move. -/
theorem take_moved_append (l p : Nat) (a b : List β) :
    (a ++ b).take (moved l (a ++ b).length p) =
      a.take (moved l a.length p) ++ b.take (moved l b.length (p + moved l a.length p)) := by
  rw [take_append, moved_eq, moved_eq, moved_eq, length_append, Int.toNat_natCast, Int.toNat_natCast, Int.toNat_natCast]
  have hr : min (a.length + b.length) (l - p) - a.length = min b.length (l - (p + min a.length (l - p))) := by omega
  rw [hr]
  rcases Nat.le_total a.length (l - p) with hle | hle
  · rw [take_of_length_le (Nat.le_min.mpr ⟨Nat.le_add_right .., hle⟩),
      take_of_length_le (Nat.le_min.mpr ⟨Nat.le_refl _, hle⟩)]
  · rw [Nat.min_eq_right hle, Nat.min_eq_right (Nat.le_add_right_of_le hle)]

theorem write_write (a b : List β) :
    (c.call (.write a a.length)).1.1 + ((c.call (.write a a.length)).2.call (.write b b.length)).1.1 =
      (c.call (.write (a ++ b) (a ++ b).length)).1.1 ∧
    ((c.call (.write a a.length)).2.call (.write b b.length)).2 = (c.call (.write (a ++ b) (a ++ b).length)).2 := by
  have hl : (c.writeAt a a.length c.pos).elems.length = c.elems.length := length_writeAt (Int.le_refl _)
  have hsm : moved c.elems.length a.length c.pos + moved c.elems.length b.length (c.pos + moved c.elems.length a.length c.pos) =
      moved c.elems.length (a ++ b).length c.pos := by
    rw [length_append, Int.natCast_add]
    exact moved_add _ _ (Int.natCast_nonneg _) (Int.natCast_nonneg _)
  have hs : (a.take (moved c.elems.length a.length c.pos)).length = moved c.elems.length a.length c.pos := by
    rw [List.length_take, moved_eq]
    omega
  simp only [writeAt] at hl
  simp only [call, writeAt, advance, hl]
  refine ⟨hsm, ?_⟩
  rw [take_moved_append, ← patch_patch, hs, ← hsm, Nat.add_assoc]

/-- Reads in sequence deliver what one read delivers. -/
theorem calls_reads (ns : List Nat) (c : Cursor β) :
    ((c.calls (ns.map fun n : Nat => .read n)).1.map Prod.fst).sum = (c.call (.read ns.sum)).1.1 ∧
    ((c.calls (ns.map fun n : Nat => .read n)).1.map Prod.snd).flatten = (c.call (.read ns.sum)).1.2 ∧
    (c.calls (ns.map fun n : Nat => .read n)).2 = (c.call (.read ns.sum)).2 := by
  induction ns generalizing c with
  | nil => simp [calls, call, readAt, advance, moved_zero]
  | cons m ns ih =>
    obtain ⟨hc, he, hl⟩ := ih (c.call (.read m)).2
    obtain ⟨hc', he', hl'⟩ := c.read_read (Int.natCast_nonneg m) (Int.natCast_nonneg ns.sum)
    simp only [map_cons, sum_cons, flatten_cons, calls, Int.natCast_add]
    rw [hc, he, hl]
    exact ⟨hc', he', hl'⟩

/-- Writes in sequence leave what one write of all the data leaves. -/
theorem calls_writes (parts : List (List β)) (c : Cursor β) :
    ((c.calls (parts.map fun data => .write data data.length)).1.map Prod.fst).sum =
      (c.call (.write parts.flatten parts.flatten.length)).1.1 ∧
    (c.calls (parts.map fun data => .write data data.length)).2 = (c.call (.write parts.flatten parts.flatten.length)).2 := by
  induction parts generalizing c with
  | nil => simp [calls, call, writeAt, advance, moved_zero, patch_nil]
  | cons data parts ih =>
    obtain ⟨hc, hl⟩ := ih (c.call (.write data data.length)).2
    obtain ⟨hc', hl'⟩ := c.write_write data parts.flatten
    simp only [map_cons, sum_cons, flatten_cons, calls]
    rw [hc, hl]
    exact ⟨hc', hl'⟩

end Cursor

end Nachos.Lib

/-
  Nachos.Userprog.BitMap — `userprog/bitmap.cc`: an array of bits packed in 32-bit words.

  `mark`, `clear` and `test` are the source's, ASSERT included (`none` is a failed
  assertion). `find` and `numClear` scan the bits in order. The proofs above this module
  never look at words: `bit` says whether a bit is set, `clearBits` lists the clear bits
  in order, and
  - `bit_markBit` / `bit_clearBit`: an operation on one bit leaves the others;
  - `numClear_eq`: `numClear` counts the clear bits.
-/

namespace Nachos

open List BitVec

def bitsInWord : Nat := 32

/-- `divRoundUp` of utility.h. -/
def divRoundUp (n s : Nat) : Nat := n / s + if n % s > 0 then 1 else 0

theorem div_lt_divRoundUp {i n s : Nat} (h : i < n) (hs : 0 < s) : i / s < divRoundUp n s := by
  have hn := Nat.div_add_mod n s
  unfold divRoundUp
  rw [Nat.div_lt_iff_lt_mul hs, Nat.add_mul, Nat.mul_comm (n / s)]
  split
  · have := Nat.mod_lt n hs; omega
  · omega

structure BitMap where
  numBits : Nat
  map : List (BitVec 32)
  /-- The array has `numWords` words. -/
  words : map.length = divRoundUp numBits bitsInWord
  deriving DecidableEq, Repr

namespace BitMap

/-- The word with only bit `i % 32` set. -/
def mask (i : Nat) : BitVec 32 := 1#32 <<< (i % bitsInWord)

variable (b : BitMap)

/-- Bit `i` of the array. -/
def bit (i : Nat) : Bool := (b.map.getD (i / bitsInWord) 0 &&& mask i) != 0

def markBit (i : Nat) : BitMap :=
  { b with
    map := b.map.set (i / bitsInWord) (b.map.getD (i / bitsInWord) 0 ||| mask i)
    words := by rw [List.length_set]; exact b.words }

def clearBit (i : Nat) : BitMap :=
  { b with
    map := b.map.set (i / bitsInWord) (b.map.getD (i / bitsInWord) 0 &&& ~~~mask i)
    words := by rw [List.length_set]; exact b.words }

/-- The ASSERT of `Mark`, `Clear` and `Test`. -/
def inRange (which : Int) : Bool := 0 ≤ which && which < b.numBits

def mark (which : Int) : Option BitMap :=
  if b.inRange which then some (b.markBit which.toNat) else none

def clear (which : Int) : Option BitMap :=
  if b.inRange which then some (b.clearBit which.toNat) else none

def test (which : Int) : Option Bool :=
  if b.inRange which then some (b.bit which.toNat) else none

/-- `BitMap(nitems)`: the words are whatever `new` returns, then every bit is cleared. -/
def new (nitems : Nat) (garbage : Nat → BitVec 32) : BitMap :=
  (List.range nitems).foldl clearBit
    ⟨nitems, (List.range (divRoundUp nitems bitsInWord)).map garbage, by simp⟩

/-- `Find`: mark and return the first clear bit, -1 when there is none. -/
def find : Int × BitMap :=
  match (List.range b.numBits).find? (!b.bit ·) with
  | some i => (i, b.markBit i)
  | none => (-1, b)

def numClear : Nat := (List.range b.numBits).countP (!b.bit ·)

/-- The clear bits, in order. -/
def clearBits : List Nat := (List.range b.numBits).filter (!b.bit ·)

variable {i : Nat} {r : List Nat}

theorem inRange_natCast {b : BitMap} (h : i < b.numBits) : b.inRange i = true := by
  simp [inRange, h]

/-! ## Words -/

variable (b : BitMap)

@[simp] theorem numBits_markBit (i : Nat) : (b.markBit i).numBits = b.numBits := rfl

theorem and_mask (w : BitVec 32) (i : Nat) : (w &&& mask i != 0) = w.getLsbD (i % bitsInWord) := by
  have hi : i % bitsInWord < 32 := Nat.mod_lt _ (by decide)
  have ht : mask i = BitVec.twoPow 32 (i % bitsInWord) := (twoPow_eq ..).symm
  rw [ht, and_twoPow]
  cases h : w.getLsbD (i % bitsInWord)
  · simp
  have hne : BitVec.twoPow 32 (i % bitsInWord) ≠ 0#32 := by
    intro e
    have := congrArg (fun v => v.getLsbD (i % bitsInWord)) e
    simp [hi] at this
  simpa using hne

theorem bit_eq (i : Nat) :
    b.bit i = (b.map.getD (i / bitsInWord) 0).getLsbD (i % bitsInWord) := and_mask _ _

theorem getLsbD_mask (i j : Nat) : (mask i).getLsbD (j % bitsInWord) = decide (i % bitsInWord = j % bitsInWord) := by
  have hj : j % bitsInWord < 32 := Nat.mod_lt _ (by decide)
  have ht : mask i = BitVec.twoPow 32 (i % bitsInWord) := (twoPow_eq ..).symm
  rw [ht, getLsbD_twoPow]
  by_cases e : i % bitsInWord = j % bitsInWord
  · simp [e, hj]
  · simp [e]

/-- A bit below `numBits` lies in one of the words. -/
theorem word_lt (h : i < b.numBits) : i / bitsInWord < b.map.length := by
  rw [b.words]
  exact div_lt_divRoundUp h (by decide)

theorem bit_markBit (h : i < b.numBits) (j : Nat) : (b.markBit i).bit j = (decide (i = j) || b.bit j) := by
  rw [bit_eq, bit_eq]
  simp only [markBit, getD_eq_getElem?_getD, getElem?_set, word_lt b h]
  by_cases hw : i / bitsInWord = j / bitsInWord
  · simp only [hw, if_true, Option.getD_some, getLsbD_or, getLsbD_mask]
    have hij : i % bitsInWord = j % bitsInWord ↔ i = j := by
      simp only [bitsInWord] at hw ⊢; omega
    simp only [hij]
    exact Bool.or_comm _ _
  · have hij : i ≠ j := by intro heq; subst heq; exact hw rfl
    simp [hw, hij]

theorem bit_clearBit (h : i < b.numBits) (j : Nat) :
    (b.clearBit i).bit j = (!decide (i = j) && b.bit j) := by
  have hj : j % bitsInWord < 32 := Nat.mod_lt _ (by decide)
  rw [bit_eq, bit_eq]
  simp only [clearBit, getD_eq_getElem?_getD, getElem?_set, word_lt b h]
  by_cases hw : i / bitsInWord = j / bitsInWord
  · simp only [hw, if_true, Option.getD_some, getLsbD_and, getLsbD_not, getLsbD_mask, hj, decide_true,
      Bool.true_and]
    have hij : i % bitsInWord = j % bitsInWord ↔ i = j := by
      simp only [bitsInWord] at hw ⊢; omega
    simp only [hij]
    exact Bool.and_comm _ _
  · have hij : i ≠ j := by intro heq; subst heq; exact hw rfl
    simp [hw, hij]

theorem bit_markBit_cons (h : i < b.numBits) (l : List Nat) (j : Nat) :
    ((b.markBit i).bit j || l.contains j) = (b.bit j || (i :: l).contains j) := by
  rw [bit_markBit b h, contains_cons]
  by_cases e : i = j
  · simp [e]
  · have hne : (j == i) = false := by simpa using Ne.symm e
    rw [hne, decide_eq_false e, Bool.false_or, Bool.false_or]

theorem bit_clearBit_cons (h : i < b.numBits) (l : List Nat) (j : Nat) :
    ((b.clearBit i).bit j && !l.contains j) = (b.bit j && !(i :: l).contains j) := by
  rw [bit_clearBit b h, contains_cons]
  by_cases e : i = j
  · simp [e]
  · have hne : (j == i) = false := by simpa using Ne.symm e
    rw [hne, decide_eq_false e, Bool.false_or, Bool.not_false, Bool.true_and]

/-! ## The clear bits -/

theorem mem_clearBits (i : Nat) : i ∈ b.clearBits ↔ i < b.numBits ∧ b.bit i = false := by
  simp [clearBits]

theorem numClear_eq : b.numClear = b.clearBits.length := countP_eq_length_filter

theorem clearBits_sorted : b.clearBits.Pairwise (· < ·) :=
  List.Pairwise.filter _ pairwise_lt_range

theorem clearBits_nodup : b.clearBits.Nodup :=
  (clearBits_sorted b).imp Nat.ne_of_lt

/-- Marking the first clear bit leaves the others clear. -/
theorem clearBits_markBit (h : b.clearBits = i :: r) : (b.markBit i).clearBits = r := by
  have hi : i < b.numBits := ((mem_clearBits b i).mp (h ▸ mem_cons_self)).1
  have hn : i ∉ r := by have := clearBits_nodup b; rw [h] at this; exact (nodup_cons.mp this).1
  have : (b.markBit i).clearBits = b.clearBits.filter (· != i) := by
    simp only [clearBits, filter_filter, numBits_markBit]
    congr 1
    funext j
    rw [bit_markBit b hi]
    by_cases e : i = j
    · simp [e]
    · simp [e, Ne.symm e]
  rw [this, h]
  simp only [filter_cons, bne_self_eq_false, Bool.false_eq_true, if_false]
  exact filter_eq_self.mpr fun j hj => by
    have : j ≠ i := by intro heq; subst heq; exact hn hj
    simpa using this

/-- `find` takes the first clear bit; with none left it answers -1 and changes nothing. -/
theorem find_clearBits :
    b.find = match b.clearBits with | i :: _ => ((i : Int), b.markBit i) | [] => (-1, b) := by
  have h : (List.range b.numBits).find? (!b.bit ·) = b.clearBits.head? := (head?_filter ..).symm
  unfold find
  rw [h]
  cases b.clearBits <;> rfl

theorem find_cons (h : b.clearBits = i :: r) : b.find = ((i : Int), b.markBit i) := by
  rw [find_clearBits, h]

theorem find_nil (h : b.clearBits = []) : b.find = (-1, b) := by
  rw [find_clearBits, h]

/-! ## A new bitmap -/

variable (n : Nat)

theorem bit_foldl_clearBit : ∀ (b : BitMap), n ≤ b.numBits →
    ((List.range n).foldl clearBit b).numBits = b.numBits ∧
      ∀ i < n, ((List.range n).foldl clearBit b).bit i = false := by
  induction n with
  | zero => intro b _; exact ⟨rfl, fun i hi => by omega⟩
  | succ n ih =>
    intro b hn
    obtain ⟨h1, h2⟩ := ih b (by omega)
    rw [range_succ, foldl_append]
    simp only [foldl_cons, foldl_nil]
    refine ⟨h1, fun i hi => ?_⟩
    rw [bit_clearBit _ (by omega)]
    by_cases e : n = i
    · simp [e]
    · simp [e, h2 i (by omega)]

variable (g : Nat → BitVec 32)

theorem numBits_new : (new n g).numBits = n :=
  (bit_foldl_clearBit n ⟨n, _, _⟩ (Nat.le_refl n)).1

/-- A new bitmap is clear, whatever the memory held. -/
theorem bit_new (hi : i < n) : (new n g).bit i = false :=
  (bit_foldl_clearBit n ⟨n, _, _⟩ (Nat.le_refl n)).2 i hi

theorem clearBits_new : (new n g).clearBits = List.range n := by
  rw [clearBits, numBits_new]
  exact filter_eq_self.mpr fun i hi => by rw [bit_new n g (mem_range.mp hi)]; rfl

end BitMap

end Nachos

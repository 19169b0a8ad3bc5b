/-
  Nachos.Test.Desk — the descriptors, as the three programs come to use them.

  input.txt has descriptor 2 throughout. Above it the descriptors are opened and closed like a
  stack: `left` are those that no program closes any more, and `top` those in use. A program
  that makes file calls while the others wait goes through states of its own and the desk
  only (`Works`).
-/

import Nachos.Test.Files

namespace Nachos.WaterTaps

open List

structure Desk where
  input : List Byte
  /-- How far input.txt has been read. -/
  taken : Nat
  sinhvien : Option (List Byte)
  voinuoc : Option (List Byte)
  output : List Byte
  left : List Slot
  top : List Slot

/-- Descriptor `k` of the stack's top. -/
def fd (left : List Slot) (k : Nat) : Word := BitVec.ofNat 32 (left.length + 3 + k)

namespace Desk

def table (taken : Nat) (left top : List Slot) (i : Nat) : Option Slot :=
  if i = 2 then some ⟨.input, taken, false⟩ else if 3 ≤ i then (left ++ top)[i - 3]? else none

def files (d : Desk) : Files := ⟨some d.input, d.sinhvien, d.voinuoc, some d.output, table d.taken d.left d.top⟩

def setContent (d : Desk) (bytes : List Byte) : File → Desk
  | .input => { d with input := bytes }
  | .sinhvien => { d with sinhvien := some bytes }
  | .voinuoc => { d with voinuoc := some bytes }
  | .output => { d with output := bytes }

theorem files_setContent (d : Desk) (bytes : List Byte) (file : File) :
    (d.setContent bytes file).files = d.files.setContent bytes file := by
  cases file <;> rfl

section

variable {taken : Nat} {left top top' : List Slot} {k : Nat} {slot : Slot}

theorem fd_toNat (h : left.length + 3 + k < 15) : (fd left k).toNat = left.length + 3 + k :=
  ofNat_toNat (by omega)

theorem table_top (taken : Nat) (left top : List Slot) (k : Nat) : table taken left top (left.length + 3 + k) = top[k]? := by
  have hne : ¬ left.length + 3 + k = 2 := by omega
  have hge : 3 ≤ left.length + 3 + k := by omega
  have hs : left.length + 3 + k - 3 - left.length = k := by omega
  rw [table, if_neg hne, if_pos hge, getElem?_append_right (by omega), hs]

theorem table_below {i : Nat} (h : i < left.length + 3) : table taken left top i = table taken left top' i := by
  unfold table
  split
  · rfl
  · split
    · rw [getElem?_append_left (by omega), getElem?_append_left (by omega)]
    · rfl

theorem update_table {slot : Option Slot} (hs : top'[k]? = slot) (ho : ∀ j, j ≠ k → top'[j]? = top[j]?) :
    Function.update (table taken left top) (left.length + 3 + k) slot = table taken left top' := by
  funext i
  by_cases hi : i < left.length + 3
  · rw [Function.update_of_ne (by omega)]
    exact table_below hi
  obtain ⟨j, rfl⟩ := Nat.exists_eq_add_of_le (Nat.le_of_not_lt hi)
  rw [table_top]
  by_cases e : j = k
  · rw [e, Function.update_self, hs]
  · rw [Function.update_of_ne (by omega), table_top, ho j e]

end

variable {d : Desk} {k : Nat} {slot : Slot}

theorem setSlot_set (htop : d.top[k]? = some slot) (slot' : Slot) :
    d.files.setSlot (d.left.length + 3 + k) (some slot') = ({ d with top := d.top.set k slot' } : Desk).files := by
  have hk := (List.getElem?_eq_some_iff.mp htop).1
  exact congrArg (Files.mk _ _ _ _)
    (update_table (getElem?_set_self hk) fun j hj => getElem?_set_ne (Ne.symm hj))

theorem setSlot_push (d : Desk) (slot : Slot) :
    d.files.setSlot (d.left.length + 3 + d.top.length) (some slot) = ({ d with top := d.top ++ [slot] } : Desk).files := by
  refine congrArg (Files.mk _ _ _ _) (update_table getElem?_concat_length fun j hj => ?_)
  by_cases hlt : j < d.top.length
  · rw [getElem?_append_left hlt]
  · rw [getElem?_eq_none (by rw [length_append, length_singleton]; omega), getElem?_eq_none (by omega)]

theorem setSlot_pop (htop : d.top.length = k + 1) :
    d.files.setSlot (d.left.length + 3 + k) none = ({ d with top := d.top.dropLast } : Desk).files := by
  refine congrArg (Files.mk _ _ _ _)
    (update_table (getElem?_eq_none (by rw [length_dropLast]; omega)) fun j hj => ?_)
  by_cases hlt : j < k
  · rw [getElem?_dropLast, if_pos (by omega)]
  · rw [getElem?_eq_none (by rw [length_dropLast]; omega), getElem?_eq_none (by omega)]

theorem slotOf_top (htop : d.top[k]? = some slot) (hk : d.left.length + 3 + k < 15) :
    d.files.slotOf (fd d.left k) = some slot := by
  rw [Files.slotOf, fd_toNat hk, if_pos ⟨by omega, hk⟩]
  exact (table_top d.taken d.left d.top k).trans htop

theorem freeSlot_eq (h : d.left.length + d.top.length < 12) :
    d.files.freeSlot = some (d.left.length + 3 + d.top.length) := by
  have hn : d.files.table (d.left.length + 3 + d.top.length) = none :=
    (table_top ..).trans (getElem?_eq_none (Nat.le_refl _))
  have hs : ∀ i, 2 ≤ i → i < d.left.length + 3 + d.top.length → (d.files.table i).isSome = true := by
    intro i h2 hi
    show (table d.taken d.left d.top i).isSome = true
    unfold table
    split
    · rfl
    · have h3 : 3 ≤ i := by omega
      rw [if_pos h3, getElem?_eq_getElem (by rw [length_append]; omega)]
      rfl
  rw [Files.freeSlot, find?_range'_eq_some]
  refine ⟨by rw [hn]; rfl, mem_range'_1.mpr ⟨by omega, by omega⟩, fun i h2 hi => ?_⟩
  rw [← Option.not_isSome, hs i h2 hi]
  rfl

/-! ## The calls -/

theorem serve_open {file : File} {type : Word} (hf : (d.files.content file).isSome = true) (ht : type = 0 ∨ type = 1)
    (h : d.left.length + d.top.length < 12) : d.files.serve (.openFile file type) =
      some (⟨fd d.left d.top.length, none⟩, ({ d with top := d.top ++ [⟨file, 0, type == 0⟩] } : Desk).files) := by
  simp only [Files.serve, if_pos (And.intro hf ht), freeSlot_eq h, Option.map_some, setSlot_push]
  rfl

/-- The descriptor on top is closed. -/
theorem serve_close (htop : d.top.length = k + 1) (hk : d.left.length + 3 + k < 15) :
    d.files.serve (.close (fd d.left k)) = some (⟨0, none⟩, ({ d with top := d.top.dropLast } : Desk).files) := by
  have hg : d.top[k]? = some (d.top.get ⟨k, by omega⟩) := getElem?_eq_getElem (by omega)
  simp only [Files.serve, slotOf_top hg hk, Option.map_some, fd_toNat hk, setSlot_pop htop]

section

variable {content : List Byte}

/-- Read of a descriptor that Read serves. -/
theorem serve_read (htop : d.top[k]? = some slot) (hk : d.left.length + 3 + k ≤ 9)
    (hc : d.files.content slot.file = some content) {b : Byte} (hb : content[slot.pos]? = some b) :
    d.files.serve (.read (fd d.left k)) =
      some (⟨1, some b⟩, ({ d with top := d.top.set k { slot with pos := slot.pos + 1 } } : Desk).files) := by
  have h15 : d.left.length + 3 + k < 15 := by omega
  simp only [Files.serve, slotOf_top htop h15, Option.bind_some, Files.read, fd_toNat h15, if_pos hk, hc, Option.map_some, hb,
    setSlot_set htop]

theorem serve_read_end (htop : d.top[k]? = some slot) (hk : d.left.length + 3 + k ≤ 9)
    (hc : d.files.content slot.file = some content) (hb : content[slot.pos]? = none) :
    d.files.serve (.read (fd d.left k)) = some (⟨-2, none⟩, d.files) := by
  have h15 : d.left.length + 3 + k < 15 := by omega
  simp only [Files.serve, slotOf_top htop h15, Option.bind_some, Files.read, fd_toNat h15, if_pos hk, hc, Option.map_some, hb]

/-- Write at the end of a file. -/
theorem serve_write (htop : d.top[k]? = some slot) (hk : d.left.length + 3 + k ≤ 9) (hc : d.files.content slot.file = some content)
    (hsl : slot.writable = true ∧ slot.pos = content.length) {bytes : List Byte} (hb : bytes ≠ [] ∧ ∀ b ∈ bytes, b ≠ 0)
    (hr : content.length + bytes.length ≤ Stub.maxOffset) : d.files.serve (.write bytes (fd d.left k)) =
      some (⟨BitVec.ofNat 32 bytes.length, none⟩,
        ({ d.setContent (content ++ bytes) slot.file with
            top := d.top.set k { slot with pos := slot.pos + bytes.length } } : Desk).files) := by
  have h15 : d.left.length + 3 + k < 15 := by omega
  have hs : ∀ d' : Desk, d'.left = d.left → d'.top = d.top → d'.files.setSlot (d.left.length + 3 + k)
      (some { slot with pos := slot.pos + bytes.length }) =
        ({ d' with top := d.top.set k { slot with pos := slot.pos + bytes.length } } : Desk).files := by
    intro d' hl hd'
    rw [← hl, ← hd', setSlot_set (hd' ▸ htop)]
  simp only [Files.serve, slotOf_top htop h15, Option.bind_some, Files.write, fd_toNat h15, if_pos hk, hc]
  rw [if_pos ⟨hsl.1, hsl.2, hb.1, hb.2, hr⟩, ← files_setContent]
  rw [hs _ (by cases slot.file <;> rfl) (by cases slot.file <;> rfl)]

theorem serve_create (d : Desk) (file : File) : d.files.serve (.createFile file) = some (⟨0, none⟩, (d.setContent [] file).files) := by
  rw [files_setContent]
  rfl

theorem serve_seek_end (htop : d.top[k]? = some slot) (hk : d.left.length + 3 + k ≤ 9)
    (hc : d.files.content slot.file = some content) : d.files.serve (.seek (-1) (fd d.left k)) =
      some (⟨BitVec.ofNat 32 content.length, none⟩,
        ({ d with top := d.top.set k { slot with pos := content.length } } : Desk).files) := by
  have h15 : d.left.length + 3 + k < 15 := by omega
  simp only [Files.serve, slotOf_top htop h15, Option.bind_some, Files.seek, fd_toNat h15, if_pos hk, hc, if_true,
    setSlot_set htop]

theorem serve_seek_start (htop : d.top[k]? = some slot) (hk : d.left.length + 3 + k ≤ 9)
    (hc : d.files.content slot.file = some content) : d.files.serve (.seek 0 (fd d.left k)) =
      some (⟨0, none⟩, ({ d with top := d.top.set k { slot with pos := 0 } } : Desk).files) := by
  have h15 : d.left.length + 3 + k < 15 := by omega
  have hne : ¬ (0 : Word) = -1 := by decide
  simp only [Files.serve, slotOf_top htop h15, Option.bind_some, Files.seek, fd_toNat h15, if_pos hk, hc, if_neg hne, if_true,
    setSlot_set htop]

end

/-! ### Dead descriptors -/

section

variable (htop : d.top[k]? = some slot) (hk : 9 < d.left.length + 3 + k ∧ d.left.length + 3 + k < 15)
include htop hk

theorem serve_write_dead (bytes : List Byte) : d.files.serve (.write bytes (fd d.left k)) = some (⟨-1, none⟩, d.files) := by
  simp only [Files.serve, slotOf_top htop hk.2, Option.bind_some, Files.write, fd_toNat hk.2, if_neg (Nat.not_le.mpr hk.1)]

theorem serve_seek_dead (pos : Word) : d.files.serve (.seek pos (fd d.left k)) = some (⟨21, none⟩, d.files) := by
  simp only [Files.serve, slotOf_top htop hk.2, Option.bind_some, Files.seek, fd_toNat hk.2, if_neg (Nat.not_le.mpr hk.1)]

end

/-! ### input.txt -/

theorem slotOf_input (d : Desk) : d.files.slotOf 2 = some ⟨.input, d.taken, false⟩ := rfl

theorem setSlot_input (d : Desk) (taken : Nat) :
    d.files.setSlot 2 (some ⟨.input, taken, false⟩) = ({ d with taken := taken } : Desk).files := by
  refine congrArg (Files.mk _ _ _ _) (funext fun i => ?_)
  by_cases e : i = 2
  · subst e
    exact Function.update_self ..
  · show Function.update (table d.taken d.left d.top) 2 _ i = table taken d.left d.top i
    rw [Function.update_of_ne e, table, table, if_neg e, if_neg e]

theorem serve_input {b : Byte} (hb : d.input[d.taken]? = some b) :
    d.files.serve (.read 2) = some (⟨1, some b⟩, ({ d with taken := d.taken + 1 } : Desk).files) := by
  have h9 : (2 : Word).toNat ≤ 9 := by decide
  have hc : d.files.content .input = some d.input := rfl
  simp only [Files.serve, slotOf_input, Option.bind_some, Files.read, if_pos h9, hc, Option.map_some, hb, ← setSlot_input]
  rfl

theorem serve_input_end (hb : d.input[d.taken]? = none) : d.files.serve (.read 2) = some (⟨-2, none⟩, d.files) := by
  have h9 : (2 : Word).toNat ≤ 9 := by decide
  have hc : d.files.content .input = some d.input := rfl
  simp only [Files.serve, slotOf_input, Option.bind_some, Files.read, if_pos h9, hc, Option.map_some, hb]

theorem serve_close_input (d : Desk) :
    d.files.serve (.close 2) = some (⟨0, none⟩, d.files.setSlot 2 none) := rfl

/-! ### Descriptors that are no longer closed -/

/-- What is in use is given up. -/
theorem files_leave (d : Desk) : ({ d with left := d.left ++ d.top, top := [] } : Desk).files = d.files := by
  refine congrArg (Files.mk _ _ _ _) (funext fun i => ?_)
  rw [table, append_nil]
  rfl

end Desk

/-! ## Programs at work -/

section

variable {V : Type} {call : V → Call} {resume : V → Returned → V}

/-- The program makes a file call. -/
def Works (call : V → Call) (resume : V → Returned → V) (x y : Desk × V) : Prop :=
  ∃ c r, call x.2 = .file c ∧ x.1.files.serve c = some (r, y.1.files) ∧ y.2 = resume x.2 r

/-- Any number of calls, one after another. -/
abbrev Worked (call : V → Call) (resume : V → Returned → V) : Desk × V → Desk × V → Prop :=
  Relation.ReflTransGen (Works call resume)

theorem works_head {d d' : Desk} {v v' : V} {c : FileCall} {r : Returned} {z : Desk × V} (hc : call v = .file c)
    (hs : d.files.serve c = some (r, d'.files)) (hr : resume v r = v')
    (hrs : Worked call resume (d', v') z) : Worked call resume (d, v) z :=
  .head ⟨c, r, hc, hs, hr.symm⟩ hrs

end

end Nachos.WaterTaps

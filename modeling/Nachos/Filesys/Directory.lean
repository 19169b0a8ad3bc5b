/-
  Nachos.Filesys.Directory — `filesys/directory.cc`: the table of the files' names.

  An entry is stored as the compiler lays it out, 20 bytes with gaps after `inUse` and
  `name`. Names are compared and copied up to nine characters.
  - `add_ok` / `remove_ok`: what a successful `Add` and `Remove` make of the entries in use.
  - `fetchFrom_ok` / `writeBack_ok`: a directory in a file of one sector is read back.
-/

import Nachos.Filesys.OpenFile

namespace Nachos

open List

abbrev fileNameMaxLen : Nat := 9

/-- `strncmp(a, b, n) == 0`. -/
def strncmpEq : Nat → List Byte → List Byte → Bool
  | 0, _, _ => true
  | n + 1, a, b => a.headD 0 == b.headD 0 && (a.headD 0 == 0 || strncmpEq n a.tail b.tail)

/-- `dst` after `strncpy(dst, src, n)`. -/
def strncpy (dst src : List Byte) (n : Nat) : List Byte := (cString src ++ List.replicate n 0).take n ++ dst.drop n

theorem length_strncpy {dst : List Byte} (src : List Byte) {n : Nat} (h : n ≤ dst.length) :
    (strncpy dst src n).length = dst.length := by
  simp only [strncpy, length_append, List.length_take, length_replicate, length_drop]
  omega

structure DirectoryEntry where
  /-- A `bool`; 0 is FALSE. -/
  inUse : Byte
  gap : Byte × Byte × Byte
  sector : Word
  name : List Byte
  nameSize : name.length = fileNameMaxLen + 1
  tail : Byte × Byte
  deriving DecidableEq

namespace DirectoryEntry

def used (e : DirectoryEntry) : Bool := e.inUse != 0

def layout : Lib.Layout DirectoryEntry where
  size := 20
  bytes e := [e.inUse, e.gap.1, e.gap.2.1, e.gap.2.2] ++ Lib.word.bytes e.sector ++ e.name ++ [e.tail.1, e.tail.2]
  ofBytes b :=
    { inUse := b.getD 0 0
      gap := (b.getD 1 0, b.getD 2 0, b.getD 3 0)
      sector := Lib.word.ofBytes ((b.drop 4).take 4)
      name := (b.drop 8 ++ List.replicate 10 0).take 10
      nameSize := by simp
      tail := (b.getD 18 0, b.getD 19 0) }
  length_bytes e := by
    simp only [List.length_append, Lib.word.length_bytes, e.nameSize]
    rfl
  ofBytes_bytes e := by
    obtain ⟨inUse, gap, sector, name, nameSize, tail⟩ := e
    have hname : (name ++ [tail.1, tail.2] ++ List.replicate 10 0).take 10 = name := by
      rw [List.append_assoc, List.take_left' nameSize]
    have htail₁ : (name ++ [tail.1, tail.2])[10]? = some tail.1 := by
      rw [List.getElem?_append_right (Nat.le_of_eq nameSize), nameSize]
      rfl
    have htail₂ : (name ++ [tail.1, tail.2])[11]? = some tail.2 := by
      rw [List.getElem?_append_right (by rw [nameSize]; decide), nameSize]
      rfl
    simp only [mk.injEq]
    refine ⟨rfl, rfl, Lib.word.ofBytes_bytes sector, hname, ?_⟩
    exact Prod.ext (congrArg (Option.getD · 0) htail₁) (congrArg (Option.getD · 0) htail₂)

end DirectoryEntry

structure Directory where
  table : List DirectoryEntry
  deriving DecidableEq

namespace Directory

/-- `Directory(size)`. -/
def new (size : Nat) (g : Nat → Byte) : Directory where
  table := (DirectoryEntry.layout.list size ((List.range (size * 20)).map g)).map fun e => { e with inUse := 0 }

/-- The directory whose entries are these bytes. -/
def ofBytes (size : Nat) (bytes : List Byte) : Directory := ⟨DirectoryEntry.layout.list size bytes⟩

variable (dir : Directory)

def fetchFrom (file : OnDisk.OpenFile) (d : Disk) : Except Stop Directory := do
  let (_, bytes) ← file.readAt d (BitVec.ofNat 32 (dir.table.length * 20)) 0
  return ofBytes dir.table.length (Lib.patch (DirectoryEntry.layout.bytesOf dir.table) 0 bytes)

def writeBack (file : OnDisk.OpenFile) (d : Disk) (g : Nat → Byte) : Except Stop Disk := do
  let (_, d) ← file.writeAt d g (DirectoryEntry.layout.bytesOf dir.table) (BitVec.ofNat 32 (dir.table.length * 20)) 0
  return d

/-- `FindIndex`; `none` is -1. -/
def findIndex (name : List Byte) : Option Nat :=
  dir.table.findIdx? fun e => e.used && strncmpEq fileNameMaxLen e.name name

def find (name : List Byte) : Word :=
  match (dir.findIndex name).bind fun i => dir.table[i]? with
  | some e => e.sector
  | none => -1

def add (name : List Byte) (newSector : Word) : Bool × Directory :=
  if (dir.findIndex name).isSome then (false, dir)
  else
    match dir.table.findIdx? fun e => !e.used with
    | some i => (true, ⟨dir.table.modify i fun e =>
        { e with
          inUse := 1
          name := strncpy e.name name fileNameMaxLen
          nameSize := by rw [length_strncpy] <;> rw [e.nameSize]; decide
          sector := newSector }⟩)
    | none => (false, dir)

def remove (name : List Byte) : Bool × Directory :=
  match dir.findIndex name with
  | some i => (true, ⟨dir.table.modify i fun e => { e with inUse := 0 }⟩)
  | none => (false, dir)

/-- `printf("%s\n", name)`. A name with no terminator is read past its array. -/
def printName (name : List Byte) : Except Stop (List Byte) :=
  if 0 ∈ name then .ok (cString name ++ [10]) else .error .undefined

/-- The loop of `List`: what it prints of the entries left. -/
def listLoop : List DirectoryEntry → Except Stop (List Byte)
  | [] => .ok []
  | e :: rest =>
    if e.used then do
      let line ← printName e.name
      let others ← listLoop rest
      return line ++ others
    else listLoop rest

/-- `List`: what it prints. -/
def list : Except Stop (List Byte) := listLoop dir.table

/-! ## The entries in use -/

/-- The entries in use. -/
def inUse : List DirectoryEntry := dir.table.filter (·.used)

/-- An element that comes into the selection is added to it. -/
theorem filter_modify_in {α : Type} {p : α → Bool} {f : α → α} {a : α} (hin : p (f a) = true) (ho : p a = false) :
    ∀ {l : List α} {i : Nat}, l[i]? = some a → ((l.modify i f).filter p).Perm (f a :: l.filter p) := by
  intro l
  induction l with
  | nil => intro i h; cases h
  | cons b l ih =>
    intro i h
    cases i with
    | zero =>
      cases h
      rw [modify_zero_cons, filter_cons_of_pos hin, filter_cons_of_neg (by rw [ho]; decide)]
    | succ i =>
      rw [modify_succ_cons, filter_cons, filter_cons]
      split
      · exact ((ih h).cons b).trans (.swap ..)
      · exact ih h

/-- An element that leaves the selection is taken from it. -/
theorem filter_modify_out {α : Type} {p : α → Bool} {f : α → α} {a : α} (hin : p a = true) (ho : p (f a) = false) :
    ∀ {l : List α} {i : Nat}, l[i]? = some a → (l.filter p).Perm (a :: (l.modify i f).filter p) := by
  intro l
  induction l with
  | nil => intro i h; cases h
  | cons b l ih =>
    intro i h
    cases i with
    | zero =>
      cases h
      rw [modify_zero_cons, filter_cons_of_pos hin, filter_cons_of_neg (by rw [ho]; decide)]
    | succ i =>
      rw [modify_succ_cons, filter_cons, filter_cons]
      split
      · exact ((ih h).cons b).trans (.swap ..)
      · exact ih h

section

variable {dir dir' : Directory} {name : List Byte}

/-- `Find` answers -1 or the sector of an entry in use. -/
theorem find_cases (dir : Directory) (name : List Byte) : dir.find name = -1 ∨
    ∃ i e, dir.findIndex name = some i ∧ dir.table[i]? = some e ∧ e.used = true ∧
    dir.find name = e.sector := by
  rw [find]
  cases hi : dir.findIndex name with
  | none => exact .inl rfl
  | some i =>
    obtain ⟨hlt, hp, -⟩ := findIdx?_eq_some_iff_getElem.mp hi
    rw [Bool.and_eq_true] at hp
    refine .inr ⟨i, dir.table[i], rfl, getElem?_eq_getElem hlt, hp.1, ?_⟩
    simp only [Option.bind_some, getElem?_eq_getElem hlt]

theorem add_ok {newSector : Word} (h : dir.add name newSector = (true, dir')) :
    dir'.table.length = dir.table.length ∧ ∃ e, e.sector = newSector ∧ dir'.inUse.Perm (e :: dir.inUse) := by
  simp only [add] at h
  split at h
  · cases h
  split at h
  · rename_i i hi
    cases h
    obtain ⟨hlt, hp, -⟩ := findIdx?_eq_some_iff_getElem.mp hi
    refine ⟨length_modify .., _, rfl, filter_modify_in rfl ?_ (getElem?_eq_getElem hlt)⟩
    simpa using hp
  · cases h

theorem remove_ok {i : Nat} {e : DirectoryEntry} (hi : dir.findIndex name = some i) (he : dir.table[i]? = some e)
    (hu : e.used = true) :
    (dir.remove name).2.table.length = dir.table.length ∧ dir.inUse.Perm (e :: (dir.remove name).2.inUse) := by
  simp only [remove, hi]
  exact ⟨length_modify .., filter_modify_out hu rfl he⟩

end

theorem length_new (size : Nat) (g : Nat → Byte) : (new size g).table.length = size := by
  simp [new]

theorem inUse_new (size : Nat) (g : Nat → Byte) : (new size g).inUse = [] := by
  refine filter_eq_nil_iff.mpr fun e he => ?_
  obtain ⟨e', -, rfl⟩ := mem_map.mp he
  exact Bool.false_ne_true

/-! ## In a file -/

section

variable {dir : Directory} {file : OnDisk.OpenFile} {s : Nat} (h : file.OneSector s (dir.table.length * 20)) (d : Disk)
include h

theorem fetchFrom_ok : dir.fetchFrom file d = .ok (ofBytes dir.table.length (d s).bytes) := by
  have hln : ((d s).bytes.take (dir.table.length * 20)).length = (DirectoryEntry.layout.bytesOf dir.table).length := by
    rw [List.length_take, (d s).size, Lib.Layout.length_bytesOf]
    exact Nat.min_eq_left h.small
  have hl := DirectoryEntry.layout.list_take dir.table.length (d s).bytes
  rw [fetchFrom, h.readAt d (Nat.le_of_eq h.toNat.symm) (by rw [h.toNat]; exact h.small)]
  simp only [bind, Except.bind, Lib.patch_all hln, ofBytes]
  exact congrArg Except.ok (congrArg mk hl)

theorem writeBack_ok (g : Nat → Byte) :
    ∃ sec, dir.writeBack file d g = .ok (Function.update d s sec) ∧ ofBytes dir.table.length sec.bytes = dir := by
  obtain ⟨sec, hw, ht⟩ := h.writeAt d g (Lib.Layout.length_bytesOf DirectoryEntry.layout dir.table)
  refine ⟨sec, by rw [writeBack, hw]; rfl, ?_⟩
  have hl : DirectoryEntry.layout.list dir.table.length sec.bytes = dir.table := by
    rw [← DirectoryEntry.layout.list_take, show DirectoryEntry.layout.size = 20 from rfl, ht]
    have := DirectoryEntry.layout.list_bytesOf dir.table []
    rwa [append_nil] at this
  rw [ofBytes, hl]

end

end Directory

end Nachos

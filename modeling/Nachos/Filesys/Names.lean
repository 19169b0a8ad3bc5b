/-
  Nachos.Filesys.Names — the directory as a finite map on names.

  `strncmp` and `strncpy` stop after FileNameMaxLen characters, so two names that agree in
  their first nine are one name: the map's keys are names cut there. The tenth byte of an
  entry's name is never written, so a name of nine characters is terminated only if that
  byte happened to be 0, and `List` prints it past its end if not.
-/

import Nachos.Filesys.Cursor
import Nachos.Filesys.Directory
import Nachos.Lib.Entries

namespace Nachos

open Lib List
open Function (comp_apply update update_of_ne update_self)

/-! ## Names -/

/-- What the directory keeps of a name. -/
def key (name : List Byte) : List Byte := (cString name).take fileNameMaxLen

theorem zero_mem_of_short {l : List Byte} (h : (cString l).length < l.length) : (0 : Byte) ∈ l := by
  induction l with
  | nil => cases h
  | cons b l ih =>
    rw [cString_cons] at h
    by_cases hb : b = 0
    · exact hb ▸ mem_cons_self
    · rw [if_neg hb, length_cons, length_cons] at h
      exact mem_cons_of_mem b (ih (Nat.lt_of_succ_lt_succ h))

theorem take_cString_succ (l : List Byte) (n : Nat) :
    (cString l).take (n + 1) = if l.headD 0 = 0 then [] else l.headD 0 :: (cString l.tail).take n := by
  cases l with
  | nil => rfl
  | cons b l =>
    rw [cString_cons, headD_cons, tail_cons]
    split <;> rfl

/-- `strncmp` compares the strings cut after `n` characters. -/
theorem strncmpEq_iff (n : Nat) (a b : List Byte) : strncmpEq n a b = true ↔ (cString a).take n = (cString b).take n := by
  induction n generalizing a b with
  | zero => simp [strncmpEq]
  | succ n ih =>
    rw [strncmpEq, Bool.and_eq_true, Bool.or_eq_true, beq_iff_eq, beq_iff_eq, ih, take_cString_succ, take_cString_succ]
    generalize a.headD 0 = x
    generalize b.headD 0 = y
    by_cases hx : x = 0
    · rw [if_pos hx]
      by_cases hy : y = 0
      · rw [if_pos hy]
        exact ⟨fun _ => rfl, fun _ => ⟨hx.trans hy.symm, .inl hx⟩⟩
      · rw [if_neg hy]
        exact ⟨fun h => absurd (h.1.symm.trans hx) hy, fun h => absurd h (cons_ne_nil _ _).symm⟩
    · rw [if_neg hx]
      by_cases hy : y = 0
      · rw [if_pos hy]
        exact ⟨fun h => absurd (h.1.trans hy) hx, fun h => absurd h (cons_ne_nil _ _)⟩
      · rw [if_neg hy, List.cons.injEq]
        exact and_congr_right fun _ => or_iff_right hx

/-- What `strncpy` leaves is the name cut. -/
theorem key_strncpy (dst name : List Byte) : key (strncpy dst name fileNameMaxLen) = key name := by
  have hc : (strncpy dst name fileNameMaxLen).take fileNameMaxLen =
      (cString name ++ List.replicate fileNameMaxLen 0).take fileNameMaxLen := by
    rw [strncpy, take_left']
    simp
  rw [key, ← cString_take, hc, cString_take, replicate_succ, cString_append_zero, key]

namespace Directory

/-! ## The table as a map -/

def entry (e : DirectoryEntry) : Option (List Byte × Word) := if e.used then some (key e.name, e.sector) else none

theorem entry_of_used (e : DirectoryEntry) (h : e.used = true) : entry e = some (key e.name, e.sector) := if_pos h

def entries (dir : Directory) : Lib.Entries (List Byte) Word := dir.table.map entry

/-- The directory as a map from names to sectors. -/
def view (dir : Directory) : Lib.Bounded (List Byte) Word := dir.entries.view

theorem map_modify {α β : Type} (f : α → β) {l : List α} {i : Nat} {a : α} (h : l[i]? = some a) (u : α → α) :
    (l.modify i u).map f = (l.map f).set i (f (u a)) := by
  apply ext_getElem?
  intro j
  rw [getElem?_map, getElem?_modify, getElem?_set, getElem?_map, length_map]
  by_cases hj : i = j
  · subst hj
    rw [h, if_pos (List.getElem?_eq_some_iff.mp h).1]
    simp
  · simp [hj]

variable (dir : Directory) (name : List Byte)

theorem findIndex_eq : dir.findIndex name = dir.entries.index (key name) := by
  rw [findIndex, Entries.index, entries, findIdx?_map]
  congr 1
  funext e
  rw [comp_apply, entry]
  by_cases he : e.used = true
  · rw [if_pos he, he, Bool.true_and, Option.any_some, Bool.eq_iff_iff, strncmpEq_iff, decide_eq_true_eq]
    rfl
  · simp [he]

theorem find_eq : dir.find name = (dir.view.get (key name)).getD (-1) := by
  have hg : dir.view.get (key name) = ((dir.findIndex name).bind fun i => dir.entries[i]?).bind (·.map Prod.snd) := by
    rw [findIndex_eq]
    rfl
  rw [find, hg]
  cases hi : dir.findIndex name with
  | none => rfl
  | some i =>
    obtain ⟨hlt, hp, -⟩ := findIdx?_eq_some_iff_getElem.mp hi
    rw [Bool.and_eq_true] at hp
    simp [entries, getElem?_eq_getElem hlt, entry, hp.1]

theorem free_eq : dir.table.findIdx? (fun e => !e.used) = dir.entries.findIdx? (·.isNone) := by
  rw [entries, findIdx?_map]
  congr 1
  funext e
  rw [comp_apply, entry]
  cases e.used <;> rfl

theorem add_eq (newSector : Word) :
    ((dir.add name newSector).1, (dir.add name newSector).2.entries) = dir.entries.add (key name) newSector := by
  rw [add, Entries.add, findIndex_eq, free_eq]
  split
  · rfl
  cases hi : dir.entries.findIdx? (·.isNone) with
  | none => rfl
  | some i =>
    rw [← free_eq] at hi
    obtain ⟨hlt, -, -⟩ := findIdx?_eq_some_iff_getElem.mp hi
    simp only [entries, Prod.mk.injEq, true_and]
    rw [map_modify entry (getElem?_eq_getElem hlt), entry_of_used _ rfl, key_strncpy]

theorem remove_eq :
    ((dir.remove name).1, (dir.remove name).2.entries) = dir.entries.remove (key name) := by
  rw [remove, Entries.remove, findIndex_eq]
  cases hi : dir.entries.index (key name) with
  | none => rfl
  | some i =>
    rw [← findIndex_eq] at hi
    obtain ⟨hlt, -, -⟩ := findIdx?_eq_some_iff_getElem.mp hi
    simp only [entries, Prod.mk.injEq, true_and]
    rw [map_modify entry (getElem?_eq_getElem hlt)]
    rfl

theorem entries_new (size : Nat) (g : Nat → Byte) : (new size g).entries = List.replicate size none := by
  refine eq_replicate_iff.mpr ⟨by rw [entries, length_map, length_new], ?_⟩
  intro e he
  obtain ⟨e', he', rfl⟩ := mem_map.mp he
  obtain ⟨e0, -, rfl⟩ := mem_map.mp he'
  rfl

theorem view_new (size : Nat) (g : Nat → Byte) : (new size g).view = .empty size := by
  have hk : (new size g).entries.keys = [] := by
    rw [entries_new, Entries.keys, reduceOption_replicate_none]
    rfl
  have hg : (new size g).entries.get = fun _ => none := by
    funext k
    rw [Entries.get_eq_none, hk]
    exact not_mem_nil
  have hr : (new size g).entries.room = size := by
    rw [entries_new, Entries.room, countP_replicate]
    rfl
  rw [view, Entries.view, hg, hr]
  rfl

/-! ## What `List` prints -/

/-- The names, a line each. -/
def lines (names : List (List Byte)) : List Byte := names.flatMap (· ++ [10])

theorem printName_short {name : List Byte} (h : (key name).length < fileNameMaxLen) (hl : fileNameMaxLen < name.length) :
    printName name = .ok (key name ++ [10]) := by
  have hs : (cString name).length < fileNameMaxLen := by
    rw [key, List.length_take] at h
    omega
  rw [printName, if_pos (zero_mem_of_short (by omega)), key, take_of_length_le (by omega)]

theorem listLoop_short {table : List DirectoryEntry}
    (h : ∀ e ∈ table, e.used = true → (key e.name).length < fileNameMaxLen) :
    listLoop table = .ok (lines (Entries.keys (table.map entry))) := by
  induction table with
  | nil => rfl
  | cons e rest ih =>
    have hr := ih fun e he => h e (mem_cons_of_mem _ he)
    rw [listLoop]
    split
    · rename_i hu
      have hl := printName_short (h e mem_cons_self hu) (by rw [e.nameSize]; exact Nat.lt_succ_self _)
      rw [hl, hr, map_cons, entry_of_used e hu]
      simp only [bind, Except.bind, pure, Except.pure, Entries.keys, reduceOption_cons_of_some, map_cons, lines,
        flatMap_cons]
    · rename_i hu
      rw [hr, map_cons, entry, if_neg hu, Entries.keys, Entries.keys, reduceOption_cons_of_none]

/-- If the names are shorter than nine characters, `List` prints each of them once. -/
theorem list_ok {dir : Directory} (hd : dir.entries.keys.Nodup) (h : ∀ k, dir.view.get k ≠ none → k.length < fileNameMaxLen) :
    ∃ names, dir.list = .ok (lines names) ∧ names.Nodup ∧ ∀ k, k ∈ names ↔ dir.view.get k ≠ none := by
  have hm : ∀ k, k ∈ dir.entries.keys ↔ dir.view.get k ≠ none := by
    intro k
    rw [view, Entries.view, ne_eq, Entries.get_eq_none, not_not]
  refine ⟨dir.entries.keys, listLoop_short fun e he hu => h _ ((hm _).mp ?_), hd, hm⟩
  refine Entries.mem_keys.mpr ⟨e.sector, ?_⟩
  rw [← entry_of_used e hu]
  exact mem_map_of_mem he

/-! ## Runs -/

inductive Op where
  | add (name : List Byte) (newSector : Word)
  | remove (name : List Byte)
  | find (name : List Byte)
  /-- `WriteBack` to the file on a disk, and `FetchFrom` into a new directory. -/
  | reload (d : Disk) (g g' : Nat → Byte)

inductive Answer where
  | done (success : Bool)
  | sector (s : Word)
  | nothing
  deriving DecidableEq

def call (file : OnDisk.OpenFile) (dir : Directory) : Op → Except Stop (Answer × Directory)
  | .add name newSector => .ok (.done (dir.add name newSector).1, (dir.add name newSector).2)
  | .remove name => .ok (.done (dir.remove name).1, (dir.remove name).2)
  | .find name => .ok (.sector (dir.find name), dir)
  | .reload d g g' => do
    let d ← dir.writeBack file d g
    let dir ← (new dir.table.length g').fetchFrom file d
    return (.nothing, dir)

def calls (file : OnDisk.OpenFile) (dir : Directory) : List Op → Except Stop (List Answer × Directory)
  | [] => .ok ([], dir)
  | op :: ops => do
    let (a, dir) ← dir.call file op
    let (as, dir) ← dir.calls file ops
    return (a :: as, dir)

/-- The same on the map. -/
def onMap (m : Lib.Bounded (List Byte) Word) : Op → Answer × Lib.Bounded (List Byte) Word
  | .add name newSector => (.done (m.add (key name) newSector).1, (m.add (key name) newSector).2)
  | .remove name => (.done (m.remove (key name)).1, (m.remove (key name)).2)
  | .find name => (.sector ((m.get (key name)).getD (-1)), m)
  | .reload .. => (.nothing, m)

def allOnMap (m : Lib.Bounded (List Byte) Word) : List Op → List Answer × Lib.Bounded (List Byte) Word
  | [] => ([], m)
  | op :: ops => ((onMap m op).1 :: (allOnMap (onMap m op).2 ops).1, (allOnMap (onMap m op).2 ops).2)

/-- The name an operation is about. -/
def Op.about : Op → Option (List Byte)
  | .add name _ | .remove name | .find name => some (key name)
  | .reload .. => none

/-- Only the last one uses the file, which must have room for the entries. -/
def Op.Fits (file : OnDisk.OpenFile) (size : Nat) : Op → Prop
  | .reload .. => ∃ ss n, file.Laid ss n ∧ size * 20 ≤ n
  | _ => True

section

variable {dir dir' : Directory} {file : OnDisk.OpenFile} {ss : List Nat} {n : Nat}

/-- A directory is read back from the file it was written to. -/
theorem reload_ok (hf : file.Laid ss n) (hn : dir.table.length * 20 ≤ n) (d : Disk) (g g' : Nat → Byte) :
    dir.call file (.reload d g g') = .ok (.nothing, dir) := by
  have hsm := hf.small
  have hs : (BitVec.ofNat 32 (dir.table.length * 20)).toInt = (dir.table.length * 20 : Nat) :=
    ofNat_toInt (by omega)
  have hln : (DirectoryEntry.layout.bytesOf dir.table).length = dir.table.length * 20 := Layout.length_bytesOf ..
  have hm : Cursor.moved n ((dir.table.length * 20 : Nat) : Int) (0 : Word).toNat = dir.table.length * 20 := by
    rw [Cursor.moved_eq]
    exact Nat.min_eq_left hn
  have he : (0 : Word).toInt + (BitVec.ofNat 32 (dir.table.length * 20)).toInt ≤ 2147483647 := by
    rw [hs, show (0 : Word).toInt = 0 from rfl]
    omega
  have hd : (BitVec.ofNat 32 (dir.table.length * 20)).toInt ≤ (DirectoryEntry.layout.bytesOf dir.table).length := by
    rw [hs, hln]
  have hz : 0 ≤ (0 : Word).toInt := Int.le_refl 0
  obtain ⟨d', hw, ha, -⟩ := hf.writeAt_array d g hz he hd
  have hr := hf.readAt_array d' hz fun _ => he
  have hb := Cursor.readAt_writeAt (file.array d ss n) (p := (0 : Word).toNat) hd
  rw [← ha, hf.length_array, hs, hm, take_of_length_le (Nat.le_of_eq hln)] at hb
  rw [hs, hb] at hr
  have hnw := length_new dir.table.length g'
  have hp : patch (DirectoryEntry.layout.bytesOf (new dir.table.length g').table) 0 (DirectoryEntry.layout.bytesOf dir.table) =
      DirectoryEntry.layout.bytesOf dir.table := by
    apply patch_all
    rw [Layout.length_bytesOf, Layout.length_bytesOf, hnw]
  have hl := DirectoryEntry.layout.list_bytesOf dir.table []
  rw [append_nil] at hl
  simp only [call, writeBack, fetchFrom, hw, hnw, bind, Except.bind, pure, Except.pure, hr, answerWord, hp, ofBytes, hl]

/-- Each operation does to the map what it does to the directory. -/
theorem call_view (hd : dir.entries.keys.Nodup) (op : Op) (hop : op.Fits file dir.table.length) :
    ∃ a dir', dir.call file op = .ok (a, dir') ∧ (a, dir'.view) = onMap dir.view op ∧ dir'.entries.keys.Nodup ∧
      dir'.table.length = dir.table.length := by
  have hl : ∀ dir : Directory, dir.entries.length = dir.table.length := fun dir => length_map ..
  cases op with
  | add name newSector =>
    have heq := add_eq dir name newSector
    obtain ⟨hv, hk⟩ := Entries.add_view hd (key name) newSector
    have hln := Entries.length_add dir.entries (key name) newSector
    rw [← heq] at hv hk hln
    refine ⟨_, _, rfl, ?_, hk, by rw [← hl, hln, hl]⟩
    have hdn := congrArg (fun x => Answer.done x.1) hv
    have ha := congrArg Prod.snd hv
    exact Prod.ext hdn ha
  | remove name =>
    have heq := remove_eq dir name
    obtain ⟨hv, hk⟩ := Entries.remove_view hd (key name)
    have hln := Entries.length_remove dir.entries (key name)
    rw [← heq] at hv hk hln
    refine ⟨_, _, rfl, ?_, hk, by rw [← hl, hln, hl]⟩
    have hdn := congrArg (fun x => Answer.done x.1) hv
    have ha := congrArg Prod.snd hv
    exact Prod.ext hdn ha
  | find name => exact ⟨_, _, rfl, by rw [onMap, find_eq], hd, rfl⟩
  | reload d g g' =>
    obtain ⟨ss, n, hf, hn⟩ := hop
    exact ⟨_, _, reload_ok hf hn d g g', rfl, hd, rfl⟩

theorem calls_view (hd : dir.entries.keys.Nodup) (ops : List Op) (hops : ∀ op ∈ ops, op.Fits file dir.table.length) :
    ∃ as dir', dir.calls file ops = .ok (as, dir') ∧ (as, dir'.view) = allOnMap dir.view ops ∧ dir'.entries.keys.Nodup ∧
      dir'.table.length = dir.table.length := by
  induction ops generalizing dir with
  | nil => exact ⟨_, _, rfl, rfl, hd, rfl⟩
  | cons op ops ih =>
    obtain ⟨a, dir1, hc, hv, hd1, hl1⟩ := call_view hd op (hops op mem_cons_self)
    obtain ⟨as, dir2, hcl, hvw, hd2, hl2⟩ := ih hd1 fun op h => hl1 ▸ hops op (mem_cons_of_mem _ h)
    refine ⟨a :: as, dir2, ?_, ?_, hd2, hl2.trans hl1⟩
    · simp only [calls, hc, hcl, bind, Except.bind, pure, Except.pure]
    · rw [allOnMap, ← hv, ← hvw]

end

/-- Over every sequence of operations on a new directory, the answers are those of the map
    from names cut after nine characters with room for `size` of them; an operation leaves
    every other name as it was; and `List` prints each name once, if all are shorter. -/
theorem names_are_map {file : OnDisk.OpenFile} {size : Nat} (g : Nat → Byte) (ops : List Op)
    (hops : ∀ op ∈ ops, op.Fits file size) :
    ∃ as dir, (new size g).calls file ops = .ok (as, dir) ∧ (as, dir.view) = allOnMap (.empty size) ops ∧
      (∀ name, dir.find name = (dir.view.get (key name)).getD (-1)) ∧
      (∀ op a dir' name, op.Fits file size → dir.call file op = .ok (a, dir') → op.about ≠ some (key name) → dir'.find name = dir.find name) ∧
      ((∀ k, dir.view.get k ≠ none → k.length < fileNameMaxLen) →
        ∃ names, dir.list = .ok (lines names) ∧ names.Nodup ∧ ∀ k, k ∈ names ↔ dir.view.get k ≠ none) := by
  have hempty : (new size g).entries.keys.Nodup := by
    rw [entries_new, Entries.keys, List.reduceOption_replicate_none]
    exact List.nodup_nil
  obtain ⟨as, dir, hcalls, hview, hd, hlen⟩ := calls_view hempty ops (by rwa [length_new])
  rw [view_new] at hview
  refine ⟨as, dir, hcalls, hview, find_eq dir, ?_, list_ok hd⟩
  intro op a dir' name hop hcall habout
  obtain ⟨a₁, dir₁, hcall₁, hview₁, -⟩ := call_view hd op (by rwa [hlen, length_new])
  rw [hcall] at hcall₁
  cases hcall₁
  have hafter : dir'.view = (onMap dir.view op).2 := congrArg Prod.snd hview₁
  rw [find_eq, find_eq, hafter]
  cases op with
  | add other newSector => rw [onMap, Bounded.get_add_of_ne _ _ fun h => habout (congrArg some h.symm)]
  | remove other => rw [onMap, Bounded.get_remove_of_ne _ fun h => habout (congrArg some h.symm)]
  | find other => rfl
  | reload => rfl

/-- "ab" and "cd", in a file of 700 bytes. -/
theorem two_names : ∃ dir names, (new 3 fun _ => 7).calls OnDisk.OpenFile.twoSectors
      [.add [97, 98, 0] 5, .reload (fun _ => .garbage fun _ => 0) (fun _ => 1) (fun _ => 2), .find [97, 98, 0], .add [97, 98, 0] 6,
        .add [99, 100, 0] 7, .remove [97, 98, 0], .find [97, 98, 0], .find [99, 100, 0]] =
        .ok ([.done true, .nothing, .sector 5, .done false, .done true, .done true, .sector (-1), .sector 7], dir) ∧
    dir.list = .ok (lines names) ∧ [99, 100] ∈ names ∧ [97, 98] ∉ names := by
  obtain ⟨as, dir, hcalls, hview, -, -, hlist⟩ :=
    @names_are_map OnDisk.OpenFile.twoSectors 3 (fun _ => 7)
    [.add [97, 98, 0] 5, .reload (fun _ => .garbage fun _ => 0) (fun _ => 1) (fun _ => 2), .find [97, 98, 0], .add [97, 98, 0] 6,
      .add [99, 100, 0] 7, .remove [97, 98, 0], .find [97, 98, 0], .find [99, 100, 0]] (by
      simp only [List.forall_mem_cons, Op.Fits, true_and]
      exact ⟨⟨_, 700, OnDisk.OpenFile.twoSectors_laid, by decide⟩, nofun⟩)
  obtain ⟨has, hdir⟩ := Prod.mk.inj hview
  have hget : dir.view.get =
      update (update (update (fun _ => none) [97, 98] (some 5)) [99, 100] (some 7)) [97, 98] none := by
    rw [hdir]
    rfl
  have habsent : ∀ k, k ≠ [99, 100] → dir.view.get k = none := by
    intro k hk
    rw [hget]
    by_cases hab : k = [97, 98]
    · rw [hab, update_self]
    · rw [update_of_ne hab, update_of_ne hk, update_of_ne hab]
  obtain ⟨names, hprint, -, hnames⟩ := hlist fun k hk => by
    by_cases h : k = [99, 100]
    · rw [h]
      decide
    · exact absurd (habsent k h) hk
  refine ⟨dir, names, hcalls.trans (congrArg (fun as => Except.ok (as, dir)) (has.trans (by decide +kernel))), hprint, ?_, ?_⟩
  · rw [hnames, hget]
    decide
  · rw [hnames]
    exact fun h => h (habsent _ (by decide))

/-- "abcdefghij" and "abcdefghix" are one name, and "abcdefghi" is not terminated. -/
theorem long_names_collide :
    ((new 2 fun _ => 1).add [97, 98, 99, 100, 101, 102, 103, 104, 105, 106, 0] 5).2.find
      [97, 98, 99, 100, 101, 102, 103, 104, 105, 120, 0] = 5 ∧
    (((new 2 fun _ => 1).add [97, 98, 99, 100, 101, 102, 103, 104, 105, 106, 0] 5).2.add
      [97, 98, 99, 100, 101, 102, 103, 104, 105, 120, 0] 6).1 = false ∧
    ((new 2 fun _ => 1).add [97, 98, 99, 100, 101, 102, 103, 104, 105, 0] 5).2.list = .error .undefined := by
  decide +kernel

end Directory

end Nachos

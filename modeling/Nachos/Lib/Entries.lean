/-
  Nachos.Lib.Entries — a table of entries as a finite map.

  An entry is free or holds a key and a value. A key is looked for from the first entry on,
  and a new one goes into the first free entry. With no key twice, the table is a map that
  has room for as many more keys as it has free entries: `add_view` and `remove_view`.
-/

import Mathlib.Data.List.Nodup
import Mathlib.Data.List.ReduceOption
import Mathlib.Logic.Function.Basic

namespace Nachos.Lib

open Function (update update_of_ne update_self)
open List

/-- A finite map with room for so many more keys. -/
structure Bounded (K V : Type) where
  get : K → Option V
  room : Nat

namespace Bounded

variable {K V : Type} [DecidableEq K]

def empty (room : Nat) : Bounded K V := ⟨fun _ => none, room⟩

/-- A key is added if it is new and there is room. -/
def add (m : Bounded K V) (k : K) (v : V) : Bool × Bounded K V :=
  if m.get k = none ∧ 0 < m.room then (true, ⟨update m.get k (some v), m.room - 1⟩) else (false, m)

/-- A key is removed if it is there. -/
def remove (m : Bounded K V) (k : K) : Bool × Bounded K V :=
  if m.get k = none then (false, m) else (true, ⟨update m.get k none, m.room + 1⟩)

variable (m : Bounded K V) {k k' : K}

theorem add_refused {m : Bounded K V} (v : V) (h : m.get k ≠ none ∨ m.room = 0) : m.add k v = (false, m) := by
  rw [add, if_neg]
  rintro ⟨hn, hr⟩
  rcases h with hk | hf
  · exact hk hn
  · exact Nat.ne_of_gt hr hf

theorem get_add_of_ne (v : V) (h : k' ≠ k) : (m.add k v).2.get k' = m.get k' := by
  rw [add]
  split
  · exact update_of_ne h ..
  · rfl

theorem get_remove_of_ne (h : k' ≠ k) : (m.remove k).2.get k' = m.get k' := by
  rw [remove]
  split
  · rfl
  · exact update_of_ne h ..

end Bounded

abbrev Entries (K V : Type) : Type := List (Option (K × V))

namespace Entries

variable {K V : Type} [DecidableEq K]

variable (t : Entries K V)

def keys : List K := t.reduceOption.map Prod.fst

def room : Nat := t.countP (·.isNone)

/-- The first entry with the key. -/
def index (k : K) : Option Nat := t.findIdx? (·.any fun kv => decide (kv.1 = k))

def get (k : K) : Option V := ((t.index k).bind fun i => t[i]?).bind (·.map Prod.snd)

def add (k : K) (v : V) : Bool × Entries K V :=
  if (t.index k).isSome then (false, t)
  else
    match t.findIdx? (·.isNone) with
    | some i => (true, t.set i (some (k, v)))
    | none => (false, t)

def remove (k : K) : Bool × Entries K V :=
  match t.index k with
  | some i => (true, t.set i none)
  | none => (false, t)

/-- The table as a map. -/
def view : Bounded K V := ⟨t.get, t.room⟩

theorem length_add (k : K) (v : V) : (t.add k v).2.length = t.length := by
  rw [add]
  split
  · rfl
  · split
    · exact length_set
    · rfl

theorem length_remove (k : K) : (t.remove k).2.length = t.length := by
  rw [remove]
  split
  · exact length_set
  · rfl

/-! ## What the map is -/

omit [DecidableEq K] in
theorem mem_keys {t : Entries K V} {k : K} : k ∈ t.keys ↔ ∃ v, some (k, v) ∈ t := by
  simp only [keys, mem_map, reduceOption_mem_iff]
  constructor
  · rintro ⟨⟨k', v⟩, hv, rfl⟩
    exact ⟨v, hv⟩
  · rintro ⟨v, hv⟩
    exact ⟨_, hv, rfl⟩

theorem index_eq_none {t : Entries K V} {k : K} : t.index k = none ↔ k ∉ t.keys := by
  rw [index, findIdx?_eq_none_iff, mem_keys]
  constructor
  · rintro h ⟨v, hv⟩
    simpa using h _ hv
  intro h e he
  cases e with
  | none => rfl
  | some kv =>
    refine decide_eq_false fun hk => h ⟨kv.2, ?_⟩
    rw [← hk]
    exact he

theorem index_eq_some {t : Entries K V} {k : K} {i : Nat} (h : t.index k = some i) : ∃ v, t[i]? = some (some (k, v)) := by
  obtain ⟨hlt, hp, -⟩ := findIdx?_eq_some_iff_getElem.mp h
  obtain ⟨⟨k', v⟩, he, hk⟩ := (Option.any_eq_true ..).mp hp
  rw [decide_eq_true_eq] at hk
  exact ⟨v, by rw [getElem?_eq_getElem hlt, he, ← hk]⟩

theorem get_eq_none {t : Entries K V} {k : K} : t.get k = none ↔ k ∉ t.keys := by
  rw [← index_eq_none, get]
  cases hi : t.index k with
  | none => simp
  | some i =>
    obtain ⟨v, hv⟩ := index_eq_some hi
    simp [hv]

/-- With no key twice, an entry's value is what its key is mapped to. -/
theorem get_eq_some {t : Entries K V} (hd : t.keys.Nodup) {k : K} {v : V} : t.get k = some v ↔ some (k, v) ∈ t := by
  rw [get]
  cases hi : t.index k with
  | none =>
    have ha := index_eq_none.mp hi
    rw [mem_keys] at ha
    constructor
    · intro h
      cases h
    · intro h
      exact absurd ⟨v, h⟩ ha
  | some i =>
    obtain ⟨v', hv'⟩ := index_eq_some hi
    have hm := mem_of_getElem? hv'
    simp only [Option.bind_some, hv', Option.map_some, Option.some.injEq]
    refine ⟨fun h => h ▸ hm, fun h => ?_⟩
    have hs := inj_on_of_nodup_map hd (reduceOption_mem_iff.mpr hm) (reduceOption_mem_iff.mpr h) rfl
    exact congrArg Prod.snd hs

omit [DecidableEq K] in
theorem room_eq_zero {t : Entries K V} : t.room = 0 ↔ t.findIdx? (·.isNone) = none := by
  rw [room, countP_eq_zero, findIdx?_eq_none_iff]
  exact forall₂_congr fun e _ => Bool.not_eq_true _ ▸ Iff.rfl

theorem get_cons (e : Option (K × V)) (t : Entries K V) (k : K) :
    get (e :: t) k = if e.any (fun kv => decide (kv.1 = k)) then e.map Prod.snd else t.get k := by
  rw [get, index, findIdx?_cons]
  split
  · rfl
  · rw [get, index]
    cases t.findIdx? _ <;> rfl

/-! ## Entries filled and cleared -/

section

variable {t : Entries K V} {k : K} {v : V} {i : Nat}

omit [DecidableEq K] in
theorem around {e : Option (K × V)} (h : t[i]? = some e) : ∃ l r, t = l ++ e :: r ∧ ∀ e', t.set i e' = l ++ e' :: r := by
  obtain ⟨hlt, rfl⟩ := List.getElem?_eq_some_iff.mp h
  refine ⟨t.take i, t.drop (i + 1), ?_, fun e' => set_eq_take_append_cons_drop .. |>.trans (if_pos hlt)⟩
  rw [← drop_eq_getElem_cons hlt, take_append_drop]

omit [DecidableEq K] in
theorem keys_fill (h : t[i]? = some none) : (keys (t.set i (some (k, v)))).Perm (k :: t.keys) := by
  obtain ⟨l, r, rfl, hs⟩ := around h
  rw [hs]
  simp only [keys, reduceOption_append, reduceOption_cons_of_some, reduceOption_cons_of_none, map_append,
    map_cons]
  exact perm_middle

omit [DecidableEq K] in
theorem room_fill (h : t[i]? = some none) : room (t.set i (some (k, v))) + 1 = t.room := by
  obtain ⟨l, r, rfl, hs⟩ := around h
  rw [hs]
  simp [room, Nat.add_assoc]

theorem get_fill (h : t[i]? = some none) (hd : t.keys.Nodup) (hk : k ∉ t.keys) :
    get (t.set i (some (k, v))) = update t.get k (some v) := by
  have hd' : (keys (t.set i (some (k, v)))).Nodup := (keys_fill h).nodup_iff.mpr (nodup_cons.mpr ⟨hk, hd⟩)
  obtain ⟨l, r, ht, hs⟩ := around h
  funext k'
  ext v'
  rw [get_eq_some hd', hs]
  by_cases e : k' = k
  · subst e
    have ha : some (k', v') ∉ t := fun hm => hk (mem_keys.mpr ⟨v', hm⟩)
    rw [ht, mem_append, mem_cons, not_or, not_or] at ha
    simp only [update_self, mem_append, mem_cons, ha.1, ha.2.2, Option.some.injEq,
      Prod.mk.injEq, true_and, false_or, or_false]
    exact eq_comm
  · rw [update_of_ne e, get_eq_some hd, ht]
    simp [e]

omit [DecidableEq K] in
theorem keys_clear (h : t[i]? = some (some (k, v))) : t.keys.Perm (k :: keys (t.set i none)) := by
  obtain ⟨l, r, rfl, hs⟩ := around h
  rw [hs]
  simp only [keys, reduceOption_append, reduceOption_cons_of_some, reduceOption_cons_of_none, map_append,
    map_cons]
  exact perm_middle

omit [DecidableEq K] in
theorem room_clear (h : t[i]? = some (some (k, v))) : room (t.set i none) = t.room + 1 := by
  obtain ⟨l, r, rfl, hs⟩ := around h
  rw [hs]
  simp [room, Nat.add_assoc]

theorem get_clear (h : t[i]? = some (some (k, v))) (hd : t.keys.Nodup) :
    get (t.set i none) = update t.get k none := by
  obtain ⟨hk, hd'⟩ := nodup_cons.mp ((keys_clear h).nodup_iff.mp hd)
  obtain ⟨l, r, ht, hs⟩ := around h
  funext k'
  by_cases e : k' = k
  · subst e
    rw [update_self]
    exact get_eq_none.mpr hk
  · ext v'
    rw [update_of_ne e, get_eq_some hd', get_eq_some hd, hs, ht]
    simp [e]

end

/-! ## The table is the map -/

section

variable {t : Entries K V} (hd : t.keys.Nodup) (k : K)
include hd

theorem fill_view (v : V) {i : Nat} (hi : t[i]? = some none) (hk : k ∉ t.keys) :
    (true, view (t.set i (some (k, v)))) = t.view.add k v ∧ (keys (t.set i (some (k, v)))).Nodup := by
  have hr := room_fill (k := k) (v := v) hi
  refine ⟨?_, (keys_fill hi).nodup_iff.mpr (nodup_cons.mpr ⟨hk, hd⟩)⟩
  rw [Bounded.add, if_pos ⟨get_eq_none.mpr hk, show 0 < t.room by omega⟩]
  simp only [view, get_fill hi hd hk, ← hr, Nat.add_sub_cancel]

theorem add_view (v : V) :
    ((t.add k v).1, (t.add k v).2.view) = t.view.add k v ∧ (t.add k v).2.keys.Nodup := by
  rw [add]
  by_cases hk : k ∈ t.keys
  · have hs : (t.index k).isSome = true := by
      rw [Option.isSome_iff_ne_none]
      exact fun h => index_eq_none.mp h hk
    rw [if_pos hs, Bounded.add_refused v (.inl fun h => get_eq_none.mp h hk)]
    exact ⟨rfl, hd⟩
  · rw [index_eq_none.mpr hk, if_neg (by decide)]
    cases hf : t.findIdx? (·.isNone) with
    | none =>
      rw [Bounded.add_refused v (.inr (room_eq_zero.mpr hf))]
      exact ⟨rfl, hd⟩
    | some i =>
      have hi : t[i]? = some none := by
        obtain ⟨hlt, hp, -⟩ := findIdx?_eq_some_iff_getElem.mp hf
        rw [getElem?_eq_getElem hlt, Option.isNone_iff_eq_none.mp hp]
      exact fill_view hd k v hi hk

theorem remove_view :
    ((t.remove k).1, (t.remove k).2.view) = t.view.remove k ∧ (t.remove k).2.keys.Nodup := by
  rw [remove, Bounded.remove]
  simp only [view, get_eq_none]
  cases hi : t.index k with
  | none =>
    rw [if_pos (index_eq_none.mp hi)]
    exact ⟨rfl, hd⟩
  | some i =>
    obtain ⟨v, hv⟩ := index_eq_some hi
    rw [if_neg fun h => h (mem_keys.mpr ⟨v, mem_of_getElem? hv⟩)]
    refine ⟨?_, (nodup_cons.mp ((keys_clear hv).nodup_iff.mp hd)).2⟩
    simp only [get_clear hv hd, room_clear hv]

end

end Entries

end Nachos.Lib

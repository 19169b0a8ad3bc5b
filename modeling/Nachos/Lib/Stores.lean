/-
  Nachos.Lib.Stores — a sequence of stores into an array, by index.

  A store names an index relative to the start of the array; an index below zero is not
  in it. `applyStores` carries the stores out in order. What an index holds afterwards is
  what the last store to it put there (`applyStores_eq`); when no two stores disagree on
  an index, the order does not matter (`applyStores_of_mem`).
-/

import Mathlib.Logic.Function.Basic

namespace Nachos.Lib

variable {β : Type}

def applyStores (mem : Nat → β) (stores : List (Int × β)) : Nat → β :=
  stores.foldl (fun mem s => if 0 ≤ s.1 then Function.update mem s.1.toNat s.2 else mem) mem

theorem applyStores_append (mem : Nat → β) (l l' : List (Int × β)) :
    applyStores mem (l ++ l') = applyStores (applyStores mem l) l' := by
  simp [applyStores, List.foldl_append]

/-- An index that no store names keeps its value. -/
theorem applyStores_frame (l : List (Int × β)) : ∀ {mem : Nat → β} {x : Nat}, (∀ s ∈ l, s.1 ≠ (x : Int)) →
    applyStores mem l x = mem x := by
  induction l with
  | nil => intros; rfl
  | cons s l ih =>
    intro mem x h
    have hs := h s List.mem_cons_self
    have hl : ∀ s' ∈ l, s'.1 ≠ (x : Int) := fun s' hs' => h s' (List.mem_cons_of_mem _ hs')
    show applyStores (if 0 ≤ s.1 then Function.update mem s.1.toNat s.2 else mem) l x = mem x
    rw [ih hl]
    split
    · exact Function.update_of_ne (by omega) ..
    · rfl

/-- An index that some store names holds what one of those stores put there. -/
theorem applyStores_eq (l : List (Int × β)) : ∀ {mem : Nat → β} {x : Nat}, (∃ s ∈ l, s.1 = (x : Int)) →
    ((x : Int), applyStores mem l x) ∈ l := by
  induction l with
  | nil => rintro _ _ ⟨_, h, _⟩; cases h
  | cons s l ih =>
    intro mem x h
    show ((x : Int), applyStores (if 0 ≤ s.1 then Function.update mem s.1.toNat s.2 else mem) l x) ∈ s :: l
    by_cases hl : ∃ s' ∈ l, s'.1 = (x : Int)
    · exact List.mem_cons_of_mem _ (ih hl)
    obtain ⟨s', hs', he⟩ := h
    obtain rfl : s' = s := by
      rcases List.mem_cons.mp hs' with h' | h'
      · exact h'
      · exact absurd ⟨s', h', he⟩ hl
    rw [applyStores_frame l fun t ht e => hl ⟨t, ht, e⟩, if_pos (by omega), he]
    have : s' = ((x : Int), s'.2) := by rw [← he]
    simp [← this]

/-- Stores that agree on an index leave there what they all store. -/
theorem applyStores_of_mem {l : List (Int × β)} {mem : Nat → β} {x : Nat} {b : β} (h : ((x : Int), b) ∈ l)
    (hu : ∀ b', ((x : Int), b') ∈ l → b' = b) : applyStores mem l x = b :=
  hu _ (applyStores_eq l ⟨_, h, rfl⟩)

/-! ## Partial maps -/

section

variable {α : Type} [DecidableEq α] {f : α → Option β} {a x : α} {v y : β}

theorem update_some_iff : Function.update f a (some v) x = some y ↔ (x = a ∧ v = y) ∨ (x ≠ a ∧ f x = some y) := by
  by_cases h : x = a
  · subst h; simp
  · simp [h]

theorem update_none_iff : Function.update f a none x = some y ↔ x ≠ a ∧ f x = some y := by
  by_cases h : x = a
  · subst h; simp
  · simp [h]

end

end Nachos.Lib

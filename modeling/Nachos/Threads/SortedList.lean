/-
  Nachos.Threads.SortedList — the sorted lists of `threads/list.cc`.

  `SortedInsert` puts an item before the first one with a larger key, so behind those with
  the same key. Every property of a sorted list that says how two of its elements stand is
  kept when the new element stands so to those before and after it
  (`sortedInsert_pairwise`).
-/

import Mathlib.Data.List.Basic

namespace Nachos

open List

structure ListElement (α : Type) where
  key : Int
  item : α
  deriving DecidableEq, Repr

variable {α : Type} {sortKey : Int}

/-- `List::SortedInsert`. -/
def sortedInsert (item : α) (sortKey : Int) : List (ListElement α) → List (ListElement α)
  | [] => [⟨sortKey, item⟩]
  | first :: rest =>
    if sortKey < first.key then ⟨sortKey, item⟩ :: first :: rest
    else first :: sortedInsert item sortKey rest

/-- `List::SortedRemove`: the first element, with its key, and the list without it. -/
def sortedRemove : List (ListElement α) → Option (ListElement α × List (ListElement α))
  | [] => none
  | first :: rest => some (first, rest)

def Sorted (l : List (ListElement α)) : Prop := l.Pairwise (·.key ≤ ·.key)

theorem sortedInsert_perm (item : α) (sortKey : Int) (l : List (ListElement α)) :
    (sortedInsert item sortKey l).Perm (⟨sortKey, item⟩ :: l) := by
  induction l with
  | nil => exact .refl _
  | cons first rest ih =>
    simp only [sortedInsert]
    split
    · exact .refl _
    · exact (ih.cons first).trans (.swap ..)

variable {l : List (ListElement α)}

theorem mem_sortedInsert {item : α} {e : ListElement α} :
    e ∈ sortedInsert item sortKey l ↔ e = ⟨sortKey, item⟩ ∨ e ∈ l := by
  rw [(sortedInsert_perm item sortKey l).mem_iff, mem_cons]

theorem sortedInsert_pairwise {R : ListElement α → ListElement α → Prop} {item : α}
    (hs : Sorted l) (hl : l.Pairwise R) (hb : ∀ e ∈ l, e.key ≤ sortKey → R e ⟨sortKey, item⟩)
    (ha : ∀ e ∈ l, sortKey < e.key → R ⟨sortKey, item⟩ e) : (sortedInsert item sortKey l).Pairwise R := by
  induction l with
  | nil => exact pairwise_singleton ..
  | cons first rest ih =>
    obtain ⟨hf, hr⟩ := pairwise_cons.mp hs
    obtain ⟨hR, hrs⟩ := pairwise_cons.mp hl
    simp only [sortedInsert]
    split
    · rename_i hlt
      refine pairwise_cons.mpr ⟨?_, hl⟩
      intro e he
      refine ha e he ?_
      rcases mem_cons.mp he with rfl | he
      · exact hlt
      · exact Int.lt_of_lt_of_le hlt (hf e he)
    · rename_i hle
      refine pairwise_cons.mpr ⟨?_, ?_⟩
      · intro e he
        rcases mem_sortedInsert.mp he with rfl | he
        · exact hb first mem_cons_self (Int.not_lt.mp hle)
        · exact hR e he
      · refine ih hr hrs ?_ ?_
        · intro e he
          exact hb e (mem_cons_of_mem _ he)
        · intro e he
          exact ha e (mem_cons_of_mem _ he)

theorem sortedInsert_sorted {item : α} (h : Sorted l) :
    Sorted (sortedInsert item sortKey l) :=
  sortedInsert_pairwise h h (fun _ _ hle => hle) (fun _ _ hlt => Int.le_of_lt hlt)

/-- The first element of a sorted list, taken out and put back, comes behind the others with
    its key: it is where it was exactly when the second element has another key. -/
theorem sortedInsert_head {a : ListElement α} {rest : List (ListElement α)} (h : Sorted (a :: rest)) (hnw : a ∉ rest) :
    sortedInsert a.item a.key rest = a :: rest ↔ ∀ b ∈ rest.head?, b.key ≠ a.key := by
  cases rest with
  | nil => simp [sortedInsert]
  | cons b rest =>
    have hle : a.key ≤ b.key := (pairwise_cons.mp h).1 b mem_cons_self
    simp only [sortedInsert, head?_cons, Option.mem_some_iff, forall_eq']
    split
    · rename_i hlt
      exact ⟨fun _ => Int.ne_of_gt hlt, fun _ => rfl⟩
    rename_i hn
    refine ⟨fun e => ?_, fun hne => absurd (Int.le_antisymm (Int.not_lt.mp hn) hle) hne⟩
    have hba : b = a := (List.cons.inj e).1
    exact absurd (hba ▸ mem_cons_self) hnw

end Nachos

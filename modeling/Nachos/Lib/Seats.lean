/-
  Nachos.Lib.Seats — items kept on lists, each item on the one list its record names.

  `Seated lists seat`: the list at `p` holds exactly the items `t` with `seat t = some p`,
  each once, so an item is on at most one list, and on none when `seat t = none`. Taking the
  head of a list and putting an item that is on no list at the end of one keep it; a
  system whose steps are such moves keeps every item accounted for.
-/

import Mathlib.Logic.Function.Basic

namespace Nachos.Lib

variable {T P : Type} [DecidableEq T] [DecidableEq P] {lists lists' : P → List T}
  {seat seat' : T → Option P} {t : T} {p q : P} {rest : List T}

def Seated (lists : P → List T) (seat : T → Option P) : Prop :=
  ∀ p t, (lists p).count t = if seat t = some p then 1 else 0

theorem Seated.mem_iff (h : Seated lists seat) : t ∈ lists p ↔ seat t = some p := by
  rw [← List.count_pos_iff, h p t]
  by_cases e : seat t = some p
  · simp [e]
  · simp [e]

theorem Seated.seat_head (h : Seated lists seat) (hl : lists p = t :: rest) : seat t = some p :=
  h.mem_iff.mp (by rw [hl]; exact List.mem_cons_self)

theorem Seated.congr (h : Seated lists seat) (hl : ∀ p, lists' p = lists p) (hs : ∀ t, seat' t = seat t) :
    Seated lists' seat' := by
  intro p t
  rw [hl p, hs t]
  exact h p t

theorem Seated.take (h : Seated lists seat) (hl : lists p = t :: rest) (hp : lists' p = rest)
    (hr : ∀ r, r ≠ p → lists' r = lists r) (hs : ∀ u, seat' u = if u = t then none else seat u) : Seated lists' seat' := by
  have hst := h.seat_head hl
  intro q u
  have hc := h q u
  rw [hs u]
  by_cases e : u = t
  · subst e
    rw [if_pos rfl, if_neg (by simp)]
    by_cases eq : q = p
    · subst eq
      rw [hl, List.count_cons_self, if_pos hst] at hc
      rw [hp]
      omega
    · rw [hr q eq, hc, if_neg (by rw [hst]; simpa using Ne.symm eq)]
  · rw [if_neg e]
    by_cases eq : q = p
    · subst eq
      rw [hp, ← hc, hl, List.count_cons_of_ne (Ne.symm e)]
    · rw [hr q eq, hc]

theorem Seated.put (h : Seated lists seat) (ht : seat t = none) (hq : lists' q = lists q ++ [t])
    (hr : ∀ r, r ≠ q → lists' r = lists r) (hs : ∀ u, seat' u = if u = t then some q else seat u) :
    Seated lists' seat' := by
  intro r u
  have hc := h r u
  rw [hs u]
  by_cases e : u = t
  · subst e
    rw [ht, if_neg (by simp)] at hc
    rw [if_pos rfl]
    by_cases eq : r = q
    · subst eq
      rw [hq, List.count_append, hc, if_pos rfl]
      simp
    · rw [hr r eq, hc, if_neg (by simpa using Ne.symm eq)]
  · rw [if_neg e]
    by_cases eq : r = q
    · subst eq
      rw [hq, List.count_append, hc]
      simp [Ne.symm e]
    · rw [hr r eq, hc]

theorem Seated.move (h : Seated lists seat) (hl : lists p = t :: rest) (hpq : p ≠ q) (hp : lists' p = rest)
    (hq : lists' q = lists q ++ [t]) (hr : ∀ r, r ≠ p → r ≠ q → lists' r = lists r)
    (hs : ∀ u, seat' u = if u = t then some q else seat u) : Seated lists' seat' := by
  have h1 := h.take hl (Function.update_self p rest lists) (fun r hr => Function.update_of_ne hr rest lists) fun _ => rfl
  refine h1.put (if_pos rfl) (by rw [hq, Function.update_of_ne (Ne.symm hpq)]) ?_ ?_
  · intro r hrq
    by_cases e : r = p
    · subst e; rw [hp, Function.update_self]
    · rw [hr r e hrq, Function.update_of_ne e]
  · intro u
    rw [hs u]
    by_cases e : u = t
    · rw [if_pos e, if_pos e]
    · rw [if_neg e, if_neg e, if_neg e]

theorem Seated.once (h : Seated lists seat) (ht : seat t = some p) :
    (lists p).count t = 1 ∧ ∀ q, q ≠ p → (lists q).count t = 0 := by
  refine ⟨by rw [h p t, if_pos ht], ?_⟩
  intro q hq
  rw [h q t, if_neg]
  rw [ht]
  simpa using Ne.symm hq

theorem Seated.not_mem (h : Seated lists seat) (ht : seat t = none) (p : P) : t ∉ lists p := by
  rw [h.mem_iff, ht]
  simp

end Nachos.Lib

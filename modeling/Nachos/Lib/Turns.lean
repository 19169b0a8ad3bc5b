/-
  Nachos.Lib.Turns — processes that take turns.

  `step s p` is the state after process `p` has moved, `none` when it cannot move. `Ends Q s`
  is about every schedule: whichever process moves next, a run from `s` comes to an end, and
  in a state with `Q`. `Only` is a move of the one process that can move; along such moves
  the schedule has no choice, so `Ends` of the first state is `Ends` of the last.
-/

import Mathlib.Logic.Relation

namespace Nachos.Lib

variable {S P : Type} {step : S → P → Option S} {Q : S → Prop} {s t : S}

/-- Every run from the state comes to an end, and in a state with `Q`. -/
inductive Ends (step : S → P → Option S) (Q : S → Prop) : S → Prop
  | intro {s : S} (final : (∀ p, step s p = none) → Q s) (later : ∀ p t, step s p = some t → Ends step Q t) :
      Ends step Q s

/-- The move of the one process that can move. -/
def Only (step : S → P → Option S) (s t : S) : Prop := ∃ p, step s p = some t ∧ ∀ q, q ≠ p → step s q = none

theorem ends_of_stuck (h : ∀ p, step s p = none) : Ends step Q s ↔ Q s := by
  constructor
  · rintro ⟨final, -⟩
    exact final h
  intro hQ
  refine .intro (fun _ => hQ) fun p t hp => ?_
  rw [h p] at hp
  cases hp

theorem ends_of_only (h : Only step s t) : Ends step Q s ↔ Ends step Q t := by
  obtain ⟨p, hp, ho⟩ := h
  constructor
  · rintro ⟨-, later⟩
    exact later p t hp
  intro ht
  refine .intro (fun hs => ?_) fun q u hq => ?_
  · rw [hs p] at hp
    cases hp
  by_cases e : q = p
  · subst e
    rw [hp] at hq
    cases hq
    exact ht
  · rw [ho q e] at hq
    cases hq

theorem ends_of_turns (h : Relation.ReflTransGen (Only step) s t) : Ends step Q s ↔ Ends step Q t := by
  induction h with
  | refl => exact Iff.rfl
  | tail _ hl ih => exact ih.trans (ends_of_only hl)

theorem Ends.exists_final (h : Ends step Q s) : ∃ t, Q t := by
  induction h with
  | @intro s final _ ih =>
    by_cases hs : ∀ p, step s p = none
    · exact ⟨s, final hs⟩
    · obtain ⟨p, hp⟩ := Classical.not_forall.mp hs
      obtain ⟨t, ht⟩ := Option.ne_none_iff_exists'.mp hp
      exact ih p t ht

/-- A run can go on for ever if it can stay in `loop`. -/
theorem not_ends (loop : S → Prop) (hst : ∀ s, loop s → ∃ p t, step s p = some t ∧ loop t) (hs : loop s) :
    ¬ Ends step Q s := by
  intro h
  induction h with
  | intro _ _ ih =>
    obtain ⟨p, t, hp, ht⟩ := hst _ hs
    exact ih p t hp ht

/-- Steps that each have a counterpart are a run that has one. -/
theorem turns_simulated {S' : Type} {R : S → S' → Prop} {T : S → S → Prop} {T' : S' → S' → Prop}
    (hs : ∀ s s' t', R s s' → T' s' t' → ∃ t, T s t ∧ R t t') {s' t' : S'} (hR : R s s')
    (h : Relation.ReflTransGen T' s' t') : ∃ t, Relation.ReflTransGen T s t ∧ R t t' := by
  induction h with
  | refl => exact ⟨s, .refl, hR⟩
  | tail _ hl ih =>
    obtain ⟨u, hu, hRu⟩ := ih
    obtain ⟨t, ht, hRt⟩ := hs u _ _ hRu hl
    exact ⟨t, hu.tail ht, hRt⟩

end Nachos.Lib

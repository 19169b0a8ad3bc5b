/-
  Nachos.Userprog.Rendezvous — the meeting of `Join` and `Exit` as a protocol of two parties.

  The waiter (the parent in `JoinUpdate`) and the leaver (the child in `ExitUpdate`) share
  a lock (the parent's `multex`) and two signals (`joinsem`, then `exitsem`). A phase is a
  place where a party can lose the CPU; a party that finds the lock taken or the signal
  missing is asleep there until the other wakes it. `turn` is one party's next part, and a
  turn of a party that is asleep or has finished does nothing.

  - `legal_turn`: which pairs of phases can occur together;
  - `rounds_finish`: under any schedule in which both parties keep getting turns, both
    finish.
-/

import Mathlib.Data.Fintype.Prod
import Mathlib.Data.Fintype.Sum
import Mathlib.Tactic.DeriveFintype

namespace Nachos.Rendezvous

inductive Waiter where
  | call
  | lock (asleep : Bool)
  | hold
  | wait
  | sleep (asleep : Bool)
  | read
  | done
  deriving DecidableEq, Repr, Fintype

inductive Leaver where
  | call
  | lock (asleep : Bool)
  | hold
  | release
  | wait
  | sleep (asleep : Bool)
  | remove
  | gone
  deriving DecidableEq, Repr, Fintype

inductive Party where
  | waiter
  | leaver
  deriving DecidableEq, Repr

instance : Fintype Party := ⟨{.waiter, .leaver}, fun x => by cases x <;> decide⟩

def Waiter.asleep : Waiter → Bool
  | .lock a | .sleep a => a
  | _ => false

def Leaver.asleep : Leaver → Bool
  | .lock a | .sleep a => a
  | _ => false

/-- Past the lock. -/
def Waiter.unlocked : Waiter → Bool
  | .wait | .sleep _ | .read | .done => true
  | _ => false

def Leaver.unlocked : Leaver → Bool
  | .release | .wait | .sleep _ | .remove | .gone => true
  | _ => false

/-- Past the first signal. -/
def Waiter.passed : Waiter → Bool
  | .read | .done => true
  | _ => false

/-- The first signal is given. -/
def Leaver.released : Leaver → Bool
  | .wait | .sleep _ | .remove | .gone => true
  | _ => false

/-- Past the second signal. -/
def Leaver.passed : Leaver → Bool
  | .remove | .gone => true
  | _ => false

abbrev Phases := Waiter × Leaver

def waiterTurn : Waiter → Leaver → Phases
  | .call, c => if c = .hold then (.lock true, c) else (.hold, c)
  | .lock false, c => (.hold, c)
  | .hold, c => (.wait, if c = .lock true then .lock false else c)
  | .wait, c => if c.released then (.read, c) else (.sleep true, c)
  | .sleep false, c => (.read, c)
  | .read, c => (.done, if c = .sleep true then .sleep false else c)
  | p, c => (p, c)

def leaverTurn : Waiter → Leaver → Phases
  | p, .call => if p = .hold then (p, .lock true) else (p, .hold)
  | p, .lock false => (p, .hold)
  | p, .hold => (if p = .lock true then .lock false else p, .release)
  | p, .release => (if p = .sleep true then .sleep false else p, .wait)
  | p, .wait => if p = .done then (p, .remove) else (p, .sleep true)
  | p, .sleep false => (p, .remove)
  | p, .remove => (p, .gone)
  | p, c => (p, c)

def turn (s : Phases) : Party → Phases
  | .waiter => waiterTurn s.1 s.2
  | .leaver => leaverTurn s.1 s.2

/-- The pairs of phases that occur. -/
def legal : Phases → Bool
  | (p, c) =>
    !(p == .hold && c == .hold) &&
    (match p with
      | .lock true => c == .hold
      | .lock false => c.unlocked
      | .sleep a => c.released != a
      | .read | .done => c.released
      | _ => true) &&
    (match c with
      | .lock true => p == .hold
      | .lock false => p.unlocked
      | .sleep a => (p == .done) != a
      | .remove | .gone => p == .done
      | _ => true)

theorem legal_turn : ∀ (s : Phases) (x : Party), legal s = true → legal (turn s x) = true := by decide

/-- The waiter finishes after the leaver has called. -/
theorem called_of_done : ∀ s : Phases, legal s = true → s.1 = .done → (s.2 != .call) = true := by decide

/-- The leaver gets past the second signal after the waiter has finished. -/
theorem done_of_passed : ∀ s : Phases, legal s = true → s.2.passed = true → s.1 = .done := by decide

/-! ## Both finish -/

def Waiter.rank : Waiter → Nat
  | .call => 6 | .lock _ => 5 | .hold => 4 | .wait => 3 | .sleep _ => 2 | .read => 1 | .done => 0

def Leaver.rank : Leaver → Nat
  | .call => 7 | .lock _ => 6 | .hold => 5 | .release => 4 | .wait => 3 | .sleep _ => 2 | .remove => 1 | .gone => 0

def rank (s : Phases) : Nat := s.1.rank + s.2.rank

theorem turn_idle_or_lt : ∀ (s : Phases) (x : Party), legal s = true → turn s x = s ∨ rank (turn s x) < rank s := by
  decide

/-- Never both asleep, nor one asleep with the other finished. -/
theorem someone_moves : ∀ s : Phases, legal s = true → s = (.done, .gone) ∨ ∃ x, rank (turn s x) < rank s := by decide

theorem eq_of_rank_zero : ∀ s : Phases, rank s = 0 → s = (.done, .gone) := by decide

def runTurns (s : Phases) (xs : List Party) : Phases := xs.foldl turn s

theorem runTurns_legal (xs : List Party) : ∀ {s : Phases}, legal s = true → legal (runTurns s xs) = true := by
  induction xs with
  | nil => exact fun h => h
  | cons x xs ih => exact fun h => ih (legal_turn _ x h)

theorem runTurns_le (xs : List Party) : ∀ {s : Phases}, legal s = true → rank (runTurns s xs) ≤ rank s := by
  induction xs with
  | nil => exact fun _ => Nat.le_refl _
  | cons x xs ih =>
    intro s h
    have hle : rank (turn s x) ≤ rank s := by
      rcases turn_idle_or_lt s x h with e | hlt
      · rw [e]
      · exact Nat.le_of_lt hlt
    exact Nat.le_trans (ih (legal_turn _ x h)) hle

/-- A party that can move does so at its first turn, if the other has not moved before. -/
theorem runTurns_lt (xs : List Party) : ∀ {s : Phases} {x : Party}, legal s = true → rank (turn s x) < rank s →
    x ∈ xs → rank (runTurns s xs) < rank s := by
  induction xs with
  | nil => intro _ _ _ _ hx; cases hx
  | cons y xs ih =>
    intro s x h hlt hx
    rcases turn_idle_or_lt s y h with e | hy
    · have hne : x ≠ y := by
        intro heq
        subst heq
        rw [e] at hlt
        exact Nat.lt_irrefl _ hlt
      show rank (runTurns (turn s y) xs) < rank s
      rw [e]
      exact ih h hlt ((List.mem_cons.mp hx).resolve_left hne)
    · exact Nat.lt_of_le_of_lt (runTurns_le xs (legal_turn _ y h)) hy

/-- A schedule of `rank s` rounds or more, in each of which both parties get a turn, ends
    the meeting. -/
theorem rounds_finish (rounds : List (List Party)) : ∀ {s : Phases}, legal s = true →
    (∀ r ∈ rounds, ∀ x, x ∈ r) → rank s ≤ rounds.length → runTurns s rounds.flatten = (.done, .gone) := by
  induction rounds with
  | nil =>
    intro s _ _ hl
    exact eq_of_rank_zero s (Nat.le_zero.mp hl)
  | cons r rounds ih =>
    intro s h hr hl
    have hrn : runTurns s (r :: rounds).flatten = runTurns (runTurns s r) rounds.flatten := by
      simp [runTurns, List.foldl_append]
    rw [hrn]
    refine ih (runTurns_legal r h) (fun r' hr' => hr r' (List.mem_cons_of_mem _ hr')) ?_
    rw [List.length_cons] at hl
    rcases someone_moves s h with rfl | ⟨x, hx⟩
    · exact Nat.le_trans (runTurns_le r h) (Nat.zero_le _)
    · have := runTurns_lt r h hx (hr r List.mem_cons_self x)
      omega

end Nachos.Rendezvous

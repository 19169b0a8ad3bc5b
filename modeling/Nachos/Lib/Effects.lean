/-
  Nachos.Lib.Effects — computations that change a state and may not come back.

  `StateT S (Except G)` is a sequential routine: it answers a value and the state it leaves,
  or it does not return to its caller (`G` says why). `Keeps R x` says that whenever `x`
  returns, the states before and after are related by `R`. For a reflexive and transitive
  `R` the rules follow the shape of the routine, so a routine made of many steps and
  branches keeps `R` once its steps do.
-/

import Nachos.Lib.Runs

namespace Nachos.Lib

variable {S G α β : Type} {x : StateT S (Except G) α} {f : α → StateT S (Except G) β}

theorem run_bind {s s' : S} {b : β} :
    (x >>= f) s = .ok (b, s') ↔ ∃ a t, x s = .ok (a, t) ∧ f a t = .ok (b, s') := by
  refine bind_eq_ok.trans ⟨?_, ?_⟩
  · rintro ⟨⟨a, t⟩, hx, hf⟩; exact ⟨a, t, hx, hf⟩
  · rintro ⟨a, t, hx, hf⟩; exact ⟨(a, t), hx, hf⟩

theorem bind_run {s t : S} {a : α} (hx : x s = .ok (a, t)) :
    (x >>= f) s = f a t := by
  show (x s >>= fun r => f r.1 r.2) = f a t
  rw [hx]
  rfl

/-- The computation returns. -/
def Returns (x : StateT S (Except G) α) (s : S) : Prop := ∃ r, x s = .ok r

/-- A sequence returns if its rest does from where the first step leaves off. -/
theorem returns_bind {s : S} :
    Returns (x >>= f) s ↔ ∃ a t, x s = .ok (a, t) ∧ Returns (f a) t := by
  constructor
  · rintro ⟨⟨b, s'⟩, h⟩
    obtain ⟨a, t, hx, hf⟩ := run_bind.mp h
    exact ⟨a, t, hx, _, hf⟩
  · rintro ⟨a, t, hx, ⟨b, s'⟩, hf⟩
    exact ⟨_, run_bind.mpr ⟨a, t, hx, hf⟩⟩

/-- A rest that always returns does not matter. -/
theorem returns_then {s : S} (hf : ∀ a s, Returns (f a) s) :
    Returns (x >>= f) s ↔ Returns x s :=
  returns_bind.trans ⟨fun ⟨a, t, hx, _⟩ => ⟨(a, t), hx⟩, fun ⟨⟨a, t⟩, hx⟩ => ⟨a, t, hx, hf a t⟩⟩

theorem run_pure {a b : α} {s s' : S} : (pure a : StateT S (Except G) α) s = .ok (b, s') ↔ b = a ∧ s' = s := by
  constructor
  · intro h; cases h; exact ⟨rfl, rfl⟩
  · rintro ⟨rfl, rfl⟩; rfl

/-- Whenever `x` returns, the states before and after are related. -/
def Keeps (R : S → S → Prop) (x : StateT S (Except G) α) : Prop := ∀ s a s', x s = .ok (a, s') → R s s'

namespace Keeps

variable {R : S → S → Prop} {x : StateT S (Except G) α} {f : α → StateT S (Except G) β}

theorem pure (hr : ∀ s, R s s) (a : α) : Keeps R (Pure.pure a : StateT S (Except G) α) := by
  intro s b s' h
  obtain ⟨-, rfl⟩ := run_pure.mp h
  exact hr _

theorem bind (ht : ∀ s t u, R s t → R t u → R s u) (hx : Keeps R x) (hf : ∀ a, Keeps R (f a)) : Keeps R (x >>= f) := by
  intro s b s' h
  obtain ⟨a, t, h1, h2⟩ := run_bind.mp h
  exact ht s t s' (hx s a t h1) (hf a t b s' h2)

theorem ite {c : Prop} [Decidable c] {y : StateT S (Except G) α} (hx : Keeps R x) (hy : Keeps R y) :
    Keeps R (if c then x else y) := by
  split
  · exact hx
  · exact hy

end Keeps

end Nachos.Lib

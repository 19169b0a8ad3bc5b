/-
  Nachos.Lib.Runs — runs of a system whose step can fail.

  A system is a step function on states and events that may end the run with an error
  (`Except.error`: a failed assertion, undefined behaviour). `Reach` is the states a run
  reaches when each of its steps meets a side condition on the state before the step and
  the event (`fun _ _ => True` for every run). `Reach.inv` is the one induction: what
  holds at the start and is kept by every step that meets the condition holds in every
  state reached.
-/

namespace Nachos.Lib

variable {S E Err α β : Type} {x : Except Err α} {f : α → Except Err β}

/-- A sequence of two computations succeeds when both do. -/
theorem bind_eq_ok {b : β} :
    (x >>= f) = .ok b ↔ ∃ a, x = .ok a ∧ f a = .ok b := by
  cases x with
  | error e => exact ⟨fun h => (by cases h), fun ⟨a, h, _⟩ => (by cases h)⟩
  | ok a => exact ⟨fun h => ⟨a, rfl, h⟩, fun ⟨a', h, hf⟩ => by cases h; exact hf⟩

theorem exists_bind_ok :
    (∃ b, (x >>= f) = .ok b) ↔ ∃ a, x = .ok a ∧ ∃ b, f a = .ok b := by
  simp only [bind_eq_ok]
  exact ⟨fun ⟨b, a, hx, hf⟩ => ⟨a, hx, b, hf⟩, fun ⟨a, hx, b, hf⟩ => ⟨b, a, hx, hf⟩⟩

theorem exists_then_ok (hf : ∀ a, ∃ b, f a = .ok b) :
    (∃ b, (x >>= f) = .ok b) ↔ ∃ a, x = .ok a := by
  rw [exists_bind_ok]
  exact ⟨fun ⟨a, hx, _⟩ => ⟨a, hx⟩, fun ⟨a, hx⟩ => ⟨a, hx, hf a⟩⟩

/-- The computation fails only as `P` allows. -/
def FailsOnly (P : Err → Prop) (x : Except Err α) : Prop := ∀ e, x = .error e → P e

section

variable {P : Err → Prop} {x : Except Err α} {f : α → Except Err β}

theorem FailsOnly.ok (a : α) : FailsOnly P (.ok a) := nofun

theorem FailsOnly.error {e : Err} (h : P e) : FailsOnly P (.error e : Except Err α) := by
  intro _ he
  cases he
  exact h

theorem FailsOnly.bind (hx : FailsOnly P x) (hf : ∀ a, x = .ok a → FailsOnly P (f a)) : FailsOnly P (x >>= f) := by
  cases x with
  | error e => exact .error (hx e rfl)
  | ok a => exact hf a rfl

theorem FailsOnly.mono {Q : Err → Prop} (h : FailsOnly P x) (hPQ : ∀ e, P e → Q e) : FailsOnly Q x :=
  fun e he => hPQ e (h e he)

end

theorem map_eq_ok {x : Except Err α} {f : α → β} {b : β} : f <$> x = .ok b ↔ ∃ a, x = .ok a ∧ f a = b := by
  cases x with
  | error e => exact ⟨fun h => (by cases h), fun ⟨a, h, _⟩ => (by cases h)⟩
  | ok a => exact ⟨fun h => ⟨a, rfl, by cases h; rfl⟩, fun ⟨a', h, hf⟩ => by cases h; exact congrArg Except.ok hf⟩

variable {step : S → E → Except Err S} {ok : S → E → Prop} {init : S → Prop}

/-- A loop over a list, with an invariant on the elements it has had: what holds at the start and is
    kept by every pass holds at the end. -/
theorem foldlM_inv {P : List E → S → Prop} (hst : ∀ done e s s', P done s → step s e = .ok s' → P (done ++ [e]) s')
    (es : List E) : ∀ (done : List E) {s s' : S}, P done s → es.foldlM step s = .ok s' → P (done ++ es) s' := by
  induction es with
  | nil =>
    intro done s s' hs hok
    cases hok
    rw [List.append_nil]
    exact hs
  | cons e es ih =>
    intro done s s' hs hok
    rw [List.foldlM_cons] at hok
    obtain ⟨s1, he, hok⟩ := bind_eq_ok.mp hok
    rw [List.append_cons]
    exact ih _ (hst done e s s1 hs he) hok

/-- What evaluating a computation shows. -/
theorem exists_ok {x : Except Err α} (test : α → Bool) (h : x.toOption.any test = true) :
    ∃ a, x = .ok a ∧ test a = true := by
  cases x with
  | error e => cases h
  | ok a => exact ⟨a, rfl, h⟩

/-- Why a computation failed. -/
def failure {α : Type} : Except Err α → Option Err
  | .error e => some e
  | .ok _ => none

theorem exists_error {x : Except Err α} (test : Err → Bool) (h : (failure x).any test = true) :
    ∃ e, x = .error e ∧ test e = true := by
  cases x with
  | error e => exact ⟨e, rfl, h⟩
  | ok a => cases h

/-- The states reached from `init` by steps that all meet `ok`. -/
inductive Reach (step : S → E → Except Err S) (ok : S → E → Prop) (init : S → Prop) : S → Prop
  | init {s : S} : init s → Reach step ok init s
  | step {s s' : S} (e : E) : Reach step ok init s → ok s e → step s e = .ok s' → Reach step ok init s'

/-- The states reached from `s` by steps that all meet `ok`. -/
def From (step : S → E → Except Err S) (ok : S → E → Prop) (s : S) : S → Prop := Reach step ok (· = s)

theorem Reach.inv {P : S → Prop} (h0 : ∀ s, init s → P s)
    (hs : ∀ s e s', P s → ok s e → step s e = .ok s' → P s') {s : S} (h : Reach step ok init s) : P s := by
  induction h with
  | init hi => exact h0 _ hi
  | step e _ hok hst ih => exact hs _ e _ ih hok hst

theorem Reach.trans {s s' : S} (h : Reach step ok init s) (h' : From step ok s s') : Reach step ok init s' := by
  induction h' with
  | init hi => subst hi; exact h
  | step e _ hok hst ih => exact .step e ih hok hst

theorem From.single {s s' : S} (e : E) (hok : ok s e) (h : step s e = .ok s') : From step ok s s' :=
  .step e (.init rfl) hok h

theorem Reach.mono {ok' : S → E → Prop} (hm : ∀ s e, ok s e → ok' s e) {s : S} (h : Reach step ok init s) :
    Reach step ok' init s := by
  induction h with
  | init hi => exact .init hi
  | step e _ hok hst ih => exact .step e ih (hm _ _ hok) hst

/-- Run a list of events as long as every step meets `ok` and succeeds. -/
def runWhen (step : S → E → Except Err S) (ok : S → E → Bool) (s : S) : List E → Option S
  | [] => some s
  | e :: es =>
    if ok s e then
      match step s e with
      | .ok s' => runWhen step ok s' es
      | .error _ => none
    else none

theorem runWhen_reach {ok : S → E → Bool} (es : List E) : ∀ {s t : S}, Reach step (ok · ·) init s →
    runWhen step ok s es = some t → Reach step (ok · ·) init t := by
  induction es with
  | nil => intro s t hs hr; cases hr; exact hs
  | cons e es ih =>
    intro s t hs hr
    simp only [runWhen] at hr
    split at hr
    · rename_i hok
      split at hr
      · rename_i s' hst; exact ih (.step e hs hok hst) hr
      · cases hr
    · cases hr

/-- What a concrete run shows: the state it ends in is reached, and a test of it holds. -/
theorem exists_reach (step : S → E → Except Err S) (ok : S → E → Bool) {s : S} (es : List E) (test : S → Bool)
    (h0 : init s) (h : (runWhen step ok s es).any test = true) : ∃ t, Reach step (ok · ·) init t ∧ test t = true := by
  obtain ⟨t, ht, hP⟩ := (Option.any_eq_true ..).mp h
  exact ⟨t, runWhen_reach es (.init h0) ht, hP⟩

end Nachos.Lib

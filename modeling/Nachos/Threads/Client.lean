/-
  Nachos.Threads.Client — code of the kernel that threads run, with interrupt handlers of
  its devices.

  A client says what a thread does between two calls of the threads' routines, from where
  it is in the client's code and what the threads share, and what a device's handler does
  to what they share and which semaphores it signals. The system runs any number of
  threads in it, under every order of turns, ticks and switches of `Threads.Dispatch`.
  - `step_cases`: what a step does to the shared state, to one thread and to each semaphore.
  - `Mutex.step`: a semaphore that starts at 1 and that every thread takes and gives back
    in turn is held by at most one thread.
  - `Protected.step`: what such a lock protects is as its users leave it.
  - `reach_restrict`: runs whose turns all meet a condition are the runs of another client.
-/

import Nachos.Threads.Counters

namespace Nachos

open Lib

/-- What client code calls. -/
inductive Client.Call where
  | none
  | setLevel (now : IntStatus)
  | newSemaphore (initialValue : Word)
  | fork
  | yield
  | p (s : SemId)
  | v (s : SemId)
  | finish
  deriving DecidableEq, Repr

def Client.Call.event : Call → Option Dispatch.Event
  | .none => .none
  | .setLevel now => some (.setLevel now)
  | .newSemaphore initialValue => some (.newSemaphore initialValue)
  | .fork => some .fork
  | .yield => some .yield
  | .p s => some (.p s)
  | .v s => some (.v s)
  | .finish => some .finish

section

variable {x y : SemId}

theorem Client.Call.none_ne (y : SemId) : Call.none ≠ .p y ∧ Call.none ≠ .v y := by
  constructor
  · intro e
    cases e
  · intro e
    cases e

theorem Client.Call.p_ne (h : x ≠ y) : Call.p x ≠ .p y ∧ Call.p x ≠ .v y := by
  constructor
  · exact fun e => h (Call.p.inj e)
  · intro e
    cases e

theorem Client.Call.v_ne (h : x ≠ y) : Call.v x ≠ .p y ∧ Call.v x ≠ .v y := by
  constructor
  · intro e
    cases e
  · exact fun e => h (Call.v.inj e)

end

/-- Neither `P` nor `V` of these semaphores. -/
def Client.Call.spares (sems : List SemId) : Call → Bool
  | .p s | .v s => s ∉ sems
  | _ => true

theorem Client.Call.spares_ne {sems : List SemId} {call : Call} (h : call.spares sems = true) {s : SemId} (hs : s ∈ sems) :
    call ≠ .p s ∧ call ≠ .v s := by
  constructor
  · rintro rfl
    exact absurd hs (of_decide_eq_true h)
  · rintro rfl
    exact absurd hs (of_decide_eq_true h)

/-- Only `V` signals. -/
theorem Client.Call.event_signals {call : Call} {ev : Dispatch.Event} (h : call.event = some ev) {s : SemId} (hv : call ≠ .v s) :
    ev.signals.count s = 0 := by
  cases call with
  | none => cases h
  | v s' =>
    cases h
    exact List.count_eq_zero.mpr fun hm => hv (by rw [List.mem_singleton.mp hm])
  | setLevel | newSemaphore | fork | yield | p | finish => cases h; rfl

/-- `G` is what the threads share, `L` where a thread is, `I` what it is given from outside,
    `D` the interrupts of the devices. -/
structure Client (G L I D : Type) where
  turn : I → G → L → Except Stop (G × L × Client.Call)
  fire : D → G → Except Stop (G × List SemId)

namespace Client

variable {G L I D : Type} {t u : Tid} {call : Call}

structure State (G L : Type) where
  kernel : Dispatch
  shared : G
  locals : Tid → L

inductive Event (I D : Type) where
  | turn (i : I)
  | tick (due : List D) (yieldOnReturn : Bool)
  | idle (due : List D)
  | resume

/-- The handlers of the interrupts that are due, one after another. -/
def fires (c : Client G L I D) : List D → G → Except Stop (G × List SemId)
  | [], g => .ok (g, [])
  | d :: ds, g => do
    let (g, vs) ← c.fire d g
    let (g, ws) ← c.fires ds g
    return (g, vs ++ ws)

def step (c : Client G L I D) (s : State G L) : Event I D → Except Stop (State G L)
  | .turn i =>
    if s.kernel.inCode then do
      let (g, l, call) ← c.turn i s.shared (s.locals s.kernel.currentThread)
      let k ← call.event.elim (.ok s.kernel) s.kernel.call
      return ⟨k, g, Function.update s.locals s.kernel.currentThread l⟩
    else .ok s
  | .tick due yieldOnReturn =>
    if s.kernel.inCode ∧ s.kernel.level = .intOn then do
      let (g, vs) ← c.fires due s.shared
      let k ← s.kernel.call (.tick vs yieldOnReturn)
      return { s with kernel := k, shared := g }
    else .ok s
  | .idle due =>
    if s.kernel.idling then do
      let (g, vs) ← c.fires due s.shared
      let k ← s.kernel.step (.idle vs)
      return { s with kernel := k, shared := g }
    else .ok s
  | .resume => do
    let k ← s.kernel.step .resume
    return { s with kernel := k }

/-! ## What a step does -/

/-- What a call by thread `t` does to semaphore `s`. -/
def Call.on (call : Call) (s : SemId) (t : Tid) (x : Counter) : Counter :=
  if call = .p s then x.test t else if call = .v s then x.signal 1 else x

theorem Call.on_waits_of_ne (call : Call) (s : SemId) (h : u ≠ t) (x : Counter) :
    (call.on s t x).waits u = x.waits u := by
  rw [Call.on]
  split
  · exact x.test_waits_of_ne h
  · split <;> rfl

/-- A thread's turn: `t` is inside no `P`. -/
structure Turn (c : Client G L I D) (i : I) (t : Tid) (l : L) (call : Call) (s s' : State G L) : Prop where
  turn : c.turn i s.shared (s.locals t) = .ok (s'.shared, l, call)
  outside : ∀ sem, (s.kernel.counter sem).waits t = false
  locals : s'.locals = Function.update s.locals t l
  counters : ∀ sem, sem < s.kernel.numSems → s'.kernel.counter sem = call.on sem t (s.kernel.counter sem)

/-- Interrupts: their handlers signal `vs`. -/
structure Fired (c : Client G L I D) (due : List D) (vs : List SemId) (s s' : State G L) : Prop where
  fires : c.fires due s.shared = .ok (s'.shared, vs)
  locals : s'.locals = s.locals
  counters : ∀ sem, s'.kernel.counter sem = (s.kernel.counter sem).signal (vs.count sem)

/-- Thread `t` goes on after a switch: if it is inside a `P`, it tests the value again. -/
structure Resumed (t : Tid) (s s' : State G L) : Prop where
  shared : s'.shared = s.shared
  locals : s'.locals = s.locals
  counters : ∀ sem, s'.kernel.counter sem = s.kernel.counter sem ∨
    (s.kernel.counter sem).waits t = true ∧ s'.kernel.counter sem = (s.kernel.counter sem).test t

variable {due : List D} {e : Event I D}

section

variable {c : Client G L I D} {s s' : State G L}

section

variable {i : I} {l : L} {sem : SemId} (h : Turn c i t l call s s')
include h

theorem Turn.self : s'.locals t = l := by rw [h.locals, Function.update_self]

theorem Turn.others (u : Tid) (hu : u ≠ t) : s'.locals u = s.locals u := by rw [h.locals, Function.update_of_ne hu]

/-- The turn does not use the semaphore. -/
theorem Turn.unused (hm : sem < s.kernel.numSems) (hc : call ≠ .p sem ∧ call ≠ .v sem) :
    s'.kernel.counter sem = s.kernel.counter sem := by
  rw [h.counters sem hm, Call.on, if_neg hc.1, if_neg hc.2]

theorem Turn.tests (hm : sem < s.kernel.numSems) (hc : call = .p sem) :
    s'.kernel.counter sem = (s.kernel.counter sem).test t := by
  rw [h.counters sem hm, Call.on, if_pos hc]

end

/-- From what one handler does to what the handlers of all interrupts do. -/
theorem fires_rec {R : G → G → List SemId → Prop} (hn : ∀ g, R g g [])
    (hc : ∀ {d g g1 g' vs ws}, c.fire d g = .ok (g1, vs) → R g1 g' ws → R g g' (vs ++ ws)) :
    ∀ {g g' : G} {vs : List SemId}, c.fires due g = .ok (g', vs) → R g g' vs := by
  induction due with
  | nil => intro g g' vs h; cases h; exact hn _
  | cons d ds ih =>
    intro g g' vs h
    obtain ⟨⟨g1, vs1⟩, h1, h⟩ := bind_eq_ok.mp h
    obtain ⟨⟨g2, vs2⟩, h2, h⟩ := bind_eq_ok.mp h
    cases h
    exact hc h1 (ih h2)

theorem call_counter {k k' : Dispatch} (hc : k.Custody) (hcr : k.current = some ⟨.running, .code⟩)
    (e : call.event.elim (.ok k) k.call = .ok k') {sem : SemId} (hs : sem < k.numSems) :
    k'.counter sem = call.on sem k.currentThread (k.counter sem) := by
  cases call with
  | none => cases e; rfl
  | p s' =>
    rw [Dispatch.p_counter hcr e, Call.on]
    by_cases es : sem = s'
    · simp [es]
    · simp [es, Ne.symm es]
  | v s' =>
    rw [Dispatch.v_counter e, Call.on, List.count_singleton]
    by_cases es : sem = s'
    · simp [es]
    · simp [Ne.symm es, Counter.signal_zero]
  | setLevel | newSemaphore | fork | yield | finish =>
    simp only [Call.event, Option.elim] at e
    exact Dispatch.other_counter hc hs (by intro s' h; cases h) rfl hcr e

/-- What a step is: nothing, a thread's turn, interrupts, or a thread that goes on. -/
theorem step_cases (hc : s.kernel.Custody) (h : c.step s e = .ok s') :
    s'.kernel.Custody ∧ (∀ sem, sem < s.kernel.numSems → sem < s'.kernel.numSems ∧ s'.kernel.initial sem = s.kernel.initial sem) ∧
    (s' = s ∨ (∃ i t l call, Turn c i t l call s s') ∨ (∃ due vs, Fired c due vs s s') ∨ ∃ t, Resumed t s s') := by
  have hst : s' = s → s'.kernel.Custody ∧
      (∀ sem, sem < s.kernel.numSems → sem < s'.kernel.numSems ∧ s'.kernel.initial sem = s.kernel.initial sem) ∧
      (s' = s ∨ (∃ i t l call, Turn c i t l call s s') ∨ (∃ due vs, Fired c due vs s s') ∨ ∃ t, Resumed t s s') := by
    rintro rfl
    exact ⟨hc, fun _ hs => ⟨hs, rfl⟩, .inl rfl⟩
  cases e with
  | turn i =>
    simp only [step] at h
    split at h
    · rename_i hcd
      have hcr := Dispatch.inCode_iff.mp hcd
      obtain ⟨⟨g, l, call⟩, ht, h⟩ := bind_eq_ok.mp h
      obtain ⟨k, hk, h⟩ := bind_eq_ok.mp h
      cases h
      have hkp : k.Custody ∧ ∀ sem, sem < s.kernel.numSems → sem < k.numSems ∧ k.initial sem = s.kernel.initial sem := by
        cases hev : call.event with
        | none =>
          rw [hev] at hk
          cases hk
          exact ⟨hc, fun _ hs => ⟨hs, rfl⟩⟩
        | some ev =>
          rw [hev] at hk
          exact ⟨hc.call hcr hk, fun _ hs => Dispatch.call_keeps hk hs⟩
      exact ⟨hkp.1, hkp.2, .inr (.inl ⟨i, _, l, call, ht, Dispatch.inCode_waits hcr, rfl, fun _ => call_counter hc hcr hk⟩)⟩
    · cases h
      exact hst rfl
  | tick due yieldOnReturn =>
    simp only [step] at h
    split at h
    · rename_i hon
      have hcr := Dispatch.inCode_iff.mp hon.1
      obtain ⟨⟨g, vs⟩, hf, h⟩ := bind_eq_ok.mp h
      obtain ⟨k, hk, h⟩ := bind_eq_ok.mp h
      cases h
      exact ⟨hc.call hcr hk, fun _ hs => Dispatch.call_keeps hk hs,
        .inr (.inr (.inl ⟨due, vs, hf, rfl, fun _ => Dispatch.tick_counter hc hcr hon.2 hk⟩))⟩
    · cases h
      exact hst rfl
  | idle due =>
    simp only [step] at h
    split at h
    · rename_i hid
      obtain ⟨⟨g, vs⟩, hf, h⟩ := bind_eq_ok.mp h
      obtain ⟨k, hk, h⟩ := bind_eq_ok.mp h
      cases h
      exact ⟨Dispatch.step_custody hc _ hk, fun _ hs => Dispatch.step_keeps hk hs,
        .inr (.inr (.inl ⟨due, vs, hf, rfl, fun _ => Dispatch.idle_counter hid hk⟩))⟩
    · cases h
      exact hst rfl
  | resume =>
    obtain ⟨k, hk, h⟩ := bind_eq_ok.mp h
    cases h
    exact ⟨Dispatch.step_custody hc _ hk, fun _ hs => Dispatch.step_keeps hk hs,
      .inr (.inr (.inr ⟨s.kernel.currentThread, rfl, rfl, fun _ => Dispatch.resume_counter hc hk⟩))⟩

/-- A semaphore whose value the handlers keep an `int`, and that no thread signals, counts its
    permits. -/
theorem step_lawful (hc : s.kernel.Custody) {sem : SemId} (h : s.kernel.Lawful sem)
    (htr : ∀ {i g l call}, c.turn i s.shared (s.locals s.kernel.currentThread) = .ok (g, l, call) → call ≠ .v sem)
    (hfr : ∀ {due g vs}, c.fires due s.shared = .ok (g, vs) →
      (s.kernel.counter sem).value.toInt + vs.count sem ≤ intMax.toInt)
    (hs : c.step s e = .ok s') : s'.kernel.Lawful sem := by
  have hq : ∀ {ev : Dispatch.Event}, ev.signals.count sem = 0 → s.kernel.Fits sem ev := by
    intro ev hev
    have hm : (s.kernel.sems sem).value.toInt ≤ intMax.toInt := Int.le_of_lt_add_one BitVec.toInt_lt
    rw [Dispatch.Fits, hev]
    omega
  cases e with
  | turn i =>
    simp only [step] at hs
    split at hs
    · rename_i hcd
      have hcr := Dispatch.inCode_iff.mp hcd
      obtain ⟨⟨g, l, call⟩, ht, hs⟩ := bind_eq_ok.mp hs
      obtain ⟨k, hk, hs⟩ := bind_eq_ok.mp hs
      cases hs
      cases hev : call.event with
      | none =>
        rw [hev] at hk
        cases hk
        exact h
      | some ev =>
        rw [hev] at hk
        exact Dispatch.call_lawful hc h (hq (Call.event_signals hev (htr ht))) hcr hk
    · cases hs
      exact h
  | tick due yieldOnReturn =>
    simp only [step] at hs
    split at hs
    · rename_i hon
      obtain ⟨⟨g, vs⟩, hf, hs⟩ := bind_eq_ok.mp hs
      obtain ⟨k, hk, hs⟩ := bind_eq_ok.mp hs
      cases hs
      exact Dispatch.call_lawful hc h (hfr hf) (Dispatch.inCode_iff.mp hon.1) hk
    · cases hs
      exact h
  | idle due =>
    simp only [step] at hs
    split at hs
    · obtain ⟨⟨g, vs⟩, hf, hs⟩ := bind_eq_ok.mp hs
      obtain ⟨k, hk, hs⟩ := bind_eq_ok.mp hs
      cases hs
      exact Dispatch.step_lawful hc h (hfr hf) hk
    · cases hs
      exact h
  | resume =>
    obtain ⟨k, hk, hs⟩ := bind_eq_ok.mp hs
    cases hs
    exact Dispatch.step_lawful hc h (hq rfl) hk

end

/-! ## Where threads wait -/

/-- Whoever waits on the semaphore is at one of its places. -/
def WaitsAt (sem : SemId) (place : L → Prop) (s : State G L) : Prop :=
  ∀ t, (s.kernel.counter sem).waits t = true → place (s.locals t)

variable {vs : List SemId}

section

variable {c : Client G L I D} {sem : SemId} {place : L → Prop} {s s' : State G L}

theorem WaitsAt.turn (h : WaitsAt sem place s) (hm : sem < s.kernel.numSems) {i : I} {l : L}
    (ht : Turn c i t l call s s') (hp : call = .p sem → place l) : WaitsAt sem place s' := by
  intro u hu
  rw [ht.counters sem hm] at hu
  by_cases e : u = t
  · subst e
    rw [ht.locals, Function.update_self]
    by_cases hc : call = .p sem
    · exact hp hc
    have hs : (call.on sem u (s.kernel.counter sem)).waits u = (s.kernel.counter sem).waits u := by
      rw [Call.on, if_neg hc]
      split <;> rfl
    rw [hs, ht.outside sem] at hu
    cases hu
  · rw [Call.on_waits_of_ne _ _ e] at hu
    rw [ht.locals, Function.update_of_ne e]
    exact h u hu

theorem WaitsAt.fired (h : WaitsAt sem place s) (hf : Fired c due vs s s') :
    WaitsAt sem place s' := by
  intro u hu
  rw [hf.counters] at hu
  rw [hf.locals]
  exact h u hu

theorem WaitsAt.resumed (h : WaitsAt sem place s) (hr : Resumed t s s') : WaitsAt sem place s' := by
  intro u hu
  rw [hr.locals]
  rcases hr.counters sem with hs | ⟨hw, ht⟩
  · exact h u (hs ▸ hu)
  by_cases e : u = t
  · exact h u (e ▸ hw)
  · rw [ht, Counter.test_waits_of_ne _ e] at hu
    exact h u hu

end

/-! ## Mutual exclusion -/

/-- Where a thread is with a lock: `acquiring` from the call of `P` on, until its next turn. -/
inductive Phase where
  | out
  | acquiring
  | inside
  deriving DecidableEq, Repr

/-- A turn takes the lock or gives it back in turn. -/
inductive Orderly (lock : SemId) : Phase → Phase → Call → Prop
  | outside {call : Call} : call ≠ .p lock → call ≠ .v lock → Orderly lock .out .out call
  | acquire : Orderly lock .out .acquiring (.p lock)
  | within {phase : Phase} {call : Call} : phase ≠ .out → call ≠ .p lock → call ≠ .v lock → Orderly lock phase .inside call
  | release {phase : Phase} : phase ≠ .out → Orderly lock phase .out (.v lock)

/-- The client uses the semaphore as a lock. -/
structure UsesLock (c : Client G L I D) (lock : SemId) (phase : L → Phase) : Prop where
  turn : ∀ {i g l g' l' call}, c.turn i g l = .ok (g', l', call) → Orderly lock (phase l) (phase l') call
  fire : ∀ {d g g' vs}, c.fire d g = .ok (g', vs) → lock ∉ vs

/-- The thread has the lock: it is past its `P`. -/
def Held (lock : SemId) (phase : L → Phase) (s : State G L) (t : Tid) : Prop :=
  phase (s.locals t) ≠ .out ∧ (s.kernel.counter lock).waits t = false

structure Mutex (lock : SemId) (phase : L → Phase) (s : State G L) : Prop where
  custody : s.kernel.Custody
  made : lock < s.kernel.numSems
  waiting : ∀ t, (s.kernel.counter lock).waits t = true → phase (s.locals t) = .acquiring
  one : (s.kernel.counter lock).value = 1 ∧ (∀ t, ¬ Held lock phase s t) ∨
    (s.kernel.counter lock).value = 0 ∧ ∃ t, Held lock phase s t ∧ ∀ u, Held lock phase s u → u = t

section

variable {c : Client G L I D} {lock : SemId} {phase : L → Phase} {s s' : State G L}

theorem Orderly.away (h : call ≠ .p lock ∧ call ≠ .v lock) : Orderly lock .out .out call := .outside h.1 h.2

theorem Orderly.stays {old : Phase} (hin : old ≠ .out) (h : call ≠ .p lock ∧ call ≠ .v lock) : Orderly lock old .inside call :=
  .within hin h.1 h.2

theorem Orderly.acquiring {old new : Phase} (h : Orderly lock old new (.p lock)) : new = .acquiring := by
  cases h with
  | outside hp | within _ hp => exact absurd rfl hp
  | acquire => rfl

theorem Mutex.unique (h : Mutex lock phase s) (ht : Held lock phase s t) (hu : Held lock phase s u) : u = t := by
  rcases h.one with ⟨-, hn⟩ | ⟨-, t', -, ho⟩
  · exact absurd ht (hn t)
  · exact (ho u hu).trans (ho t ht).symm

theorem Mutex.inside (h : Mutex lock phase s) (hp : phase (s.locals t) = .inside) : Held lock phase s t := by
  refine ⟨by rw [hp]; decide, ?_⟩
  by_contra hw
  have := h.waiting t (Bool.not_eq_false _ ▸ hw)
  rw [hp] at this
  cases this

theorem fires_lock (hl : UsesLock c lock phase) {g g' : G} (h : c.fires due g = .ok (g', vs)) :
    lock ∉ vs :=
  fires_rec (R := fun _ _ vs => lock ∉ vs) (fun _ => List.not_mem_nil)
    (fun h1 h2 => mt List.mem_append.mp (not_or.mpr ⟨hl.fire h1, h2⟩)) h

/-- Nothing happens to the lock, and the same threads have it. -/
theorem Mutex.same (h : Mutex lock phase s) (hc : s'.kernel.Custody) (hm : lock < s'.kernel.numSems)
    (hw : WaitsAt lock (phase · = .acquiring) s') (hcn : s'.kernel.counter lock = s.kernel.counter lock)
    (hh : ∀ t, Held lock phase s' t ↔ Held lock phase s t) : Mutex lock phase s' := by
  refine ⟨hc, hm, hw, ?_⟩
  simp only [hcn, hh]
  exact h.one

/-- A thread tests the value in `P`: it gets the lock, or it is taken. -/
theorem Mutex.test (h : Mutex lock phase s) (hc : s'.kernel.Custody) (hm : lock < s'.kernel.numSems)
    (hwa : WaitsAt lock (phase · = .acquiring) s')
    (hcn : s'.kernel.counter lock = (s.kernel.counter lock).test t) (hnt : ¬ Held lock phase s t)
    (hp : phase (s'.locals t) = .acquiring) (hl : ∀ u, u ≠ t → s'.locals u = s.locals u) :
    Mutex lock phase s' := by
  have hwt : ∀ u, u ≠ t → (s'.kernel.counter lock).waits u = (s.kernel.counter lock).waits u := by
    intro u hu
    rw [hcn, Counter.test_waits_of_ne _ hu]
  have hh : ∀ u, u ≠ t → (Held lock phase s' u ↔ Held lock phase s u) := by
    intro u hu
    rw [Held, Held, hl u hu, hwt u hu]
  refine ⟨hc, hm, hwa, ?_⟩
  rw [hcn, Counter.test_value]
  rcases h.one with ⟨hvl, hn⟩ | ⟨hvl, v, hv, ho⟩
  · -- the lock is free
    have hs : Held lock phase s' t := by
      refine ⟨by rw [hp]; decide, ?_⟩
      rw [hcn, Counter.test_waits_self, hvl]
      rfl
    refine .inr ⟨by rw [hvl]; rfl, t, hs, ?_⟩
    intro u hu
    by_contra eu
    exact hn u ((hh u eu).mp hu)
  · have hn' : ¬ Held lock phase s' t := by
      rintro ⟨-, hw⟩
      rw [hcn, Counter.test_waits_self, hvl] at hw
      cases hw
    have hne : v ≠ t := fun e => hnt (e ▸ hv)
    refine .inr ⟨by rw [if_pos hvl, hvl], v, (hh v hne).mpr hv, fun u hu => ?_⟩
    exact ho u ((hh u fun e => hn' (e ▸ hu)).mp hu)

theorem Mutex.turn (hl : UsesLock c lock phase) (h : Mutex lock phase s) (hc : s'.kernel.Custody)
    (hm : lock < s'.kernel.numSems) {i : I} {l : L} (ht : Turn c i t l call s s') : Mutex lock phase s' := by
  have hs := ht.self
  have hlc := ht.others
  have hot := ht.outside lock
  have hwt : WaitsAt lock (phase · = .acquiring) s' := by
    refine WaitsAt.turn h.waiting h.made ht ?_
    rintro rfl
    exact (hl.turn ht.turn).acquiring
  -- the thread has the lock as before
  have hst : call ≠ .p lock ∧ call ≠ .v lock → (phase l = .out ↔ phase (s.locals t) = .out) → Mutex lock phase s' := by
    intro hcl hph
    have hsm := ht.unused h.made hcl
    refine h.same hc hm hwt hsm fun u => ?_
    by_cases eu : u = t
    · rw [Held, Held, eu, hs, hsm, ne_eq, hph]
    · rw [Held, Held, hlc u eu, hsm]
  generalize hold : phase (s.locals t) = old at *
  have ho := hl.turn ht.turn
  rw [hold] at ho
  generalize hnw : phase l = new at *
  cases ho with
  | outside hp hv => exact hst ⟨hp, hv⟩ Iff.rfl
  | acquire => exact h.test hc hm hwt (ht.tests h.made rfl) (fun hh => hh.1 hold) (by rw [hs, hnw]) hlc
  | within hin hp hv => exact hst ⟨hp, hv⟩ (iff_of_false (by decide) hin)
  | release hin =>
    have hcn := ht.counters lock h.made
    rw [Call.on, if_neg (by intro e; cases e), if_pos rfl] at hcn
    have hhl : Held lock phase s t := ⟨by rw [hold]; exact hin, hot⟩
    rcases h.one with ⟨-, hn⟩ | ⟨hvl, v, hv, hon⟩
    · exact absurd hhl (hn t)
    refine ⟨hc, hm, hwt, .inl ⟨by rw [hcn, Counter.signal, hvl]; rfl, ?_⟩⟩
    rintro u ⟨hu, hw⟩
    by_cases eu : u = t
    · rw [eu, hs] at hu
      exact hu hnw
    · rw [hlc u eu] at hu
      rw [hcn] at hw
      exact eu ((hon u ⟨hu, hw⟩).trans (hon t hhl).symm)

theorem Mutex.step (hl : UsesLock c lock phase) (h : Mutex lock phase s) (hs : c.step s e = .ok s') :
    Mutex lock phase s' := by
  obtain ⟨hc, hm, hcs⟩ := step_cases h.custody hs
  have hm' := (hm lock h.made).1
  rcases hcs with rfl | ⟨i, t, l, call, ht⟩ | ⟨due, vs, hf⟩ | ⟨t, hr⟩
  · exact h
  · exact h.turn hl hc hm' ht
  · have hsm : s'.kernel.counter lock = s.kernel.counter lock := by
      rw [hf.counters, List.count_eq_zero.mpr (fires_lock hl hf.fires), Counter.signal_zero]
    exact h.same hc hm' (WaitsAt.fired h.waiting hf) hsm fun u => by rw [Held, Held, hf.locals, hsm]
  · have hwa : WaitsAt lock (phase · = .acquiring) s' := WaitsAt.resumed h.waiting hr
    rcases hr.counters lock with hsm | ⟨hwt, hts⟩
    · exact h.same hc hm' hwa hsm fun u => by rw [Held, Held, hr.locals, hsm]
    refine h.test hc hm' hwa hts ?_ (by rw [hr.locals, h.waiting t hwt]) fun u _ => by rw [hr.locals]
    rintro ⟨-, hw⟩
    rw [hwt] at hw
    cases hw

end

/-! ## What a lock protects -/

/-- The lock protects `free` of the shared state, which the thread that has it sees as `held`:
    only that thread's turns may break the one and have to give it back. -/
structure Protects (c : Client G L I D) (phase : L → Phase) (free : G → Prop) (held : G → L → Prop) : Prop where
  acquire : ∀ {g l}, phase l = .acquiring → free g → held g l
  turn : ∀ {i g l g' l' call}, c.turn i g l = .ok (g', l', call) → phase l ≠ .out → held g l →
    (phase l' ≠ .out → held g' l') ∧ (phase l' = .out → free g')
  other : ∀ {i g l g' l' call}, c.turn i g l = .ok (g', l', call) → phase l = .out →
    (free g → free g') ∧ ∀ l₀, held g l₀ → held g' l₀
  fire : ∀ {d g g' vs}, c.fire d g = .ok (g', vs) → (free g → free g') ∧ ∀ l₀, held g l₀ → held g' l₀

structure Protected (lock : SemId) (phase : L → Phase) (free : G → Prop) (held : G → L → Prop) (s : State G L) : Prop where
  free : (∀ t, ¬ Held lock phase s t) → free s.shared
  held : ∀ t, Held lock phase s t → held s.shared (s.locals t)

section

variable {c : Client G L I D} {lock : SemId} {phase : L → Phase} {free : G → Prop} {held : G → L → Prop} {s s' : State G L}

theorem fires_protects (hp : Protects c phase free held) {g g' : G}
    (h : c.fires due g = .ok (g', vs)) : (free g → free g') ∧ ∀ l, held g l → held g' l :=
  fires_rec (R := fun g g' _ => (free g → free g') ∧ ∀ l, held g l → held g' l) (fun _ => ⟨id, fun _ => id⟩)
    (fun h1 h2 => ⟨fun hg => h2.1 ((hp.fire h1).1 hg), fun l hg => h2.2 l ((hp.fire h1).2 l hg)⟩) h

theorem Protected.same (h : Protected lock phase free held s) (hh : ∀ t, Held lock phase s' t ↔ Held lock phase s t)
    (hf : free s.shared → free s'.shared)
    (hl : ∀ t, Held lock phase s t → held s.shared (s.locals t) → held s'.shared (s'.locals t)) :
    Protected lock phase free held s' :=
  ⟨fun hno => hf (h.free fun t ht => hno t ((hh t).mpr ht)), fun t ht => hl t ((hh t).mp ht) (h.held t ((hh t).mp ht))⟩

/-- Thread `t` may have got the lock. -/
theorem Protected.acquire (hp : Protects c phase free held) (h : Protected lock phase free held s)
    (hm' : Mutex lock phase s') (hn : ¬ Held lock phase s t) (hph : phase (s'.locals t) = .acquiring)
    (hh : ∀ u, u ≠ t → (Held lock phase s' u ↔ Held lock phase s u))
    (hl : ∀ u, u ≠ t → s'.locals u = s.locals u) (hf : free s.shared → free s'.shared)
    (ho : ∀ l, held s.shared l → held s'.shared l) : Protected lock phase free held s' := by
  refine ⟨fun hno => hf (h.free fun u hu => ?_), fun u hu => ?_⟩
  · exact hno u ((hh u fun e => hn (e ▸ hu)).mpr hu)
  by_cases eu : u = t
  · subst eu
    refine hp.acquire hph (hf (h.free fun v hv => ?_))
    have hne : v ≠ u := fun e => hn (e ▸ hv)
    exact hne (hm'.unique hu ((hh v hne).mpr hv))
  · rw [hl u eu]
    exact ho _ (h.held u ((hh u eu).mp hu))

theorem Protected.turn (hl : UsesLock c lock phase) (hp : Protects c phase free held)
    (h : Protected lock phase free held s) (hm : Mutex lock phase s) (hm' : Mutex lock phase s') {i : I} {l : L}
    (htr : Turn c i t l call s s') : Protected lock phase free held s' := by
  have hs := htr.self
  have hlc := htr.others
  have hc := htr.counters lock hm.made
  have hhl : ∀ u, u ≠ t → (Held lock phase s' u ↔ Held lock phase s u) := by
    intro u hu
    rw [Held, Held, hlc u hu, hc, Call.on_waits_of_ne _ _ hu]
  by_cases hou : phase (s.locals t) = .out
  · obtain ⟨hf, hot⟩ := hp.other htr.turn hou
    have hn : ¬ Held lock phase s t := fun hh => hh.1 hou
    by_cases hph : phase l = .acquiring
    · exact h.acquire hp hm' hn (hs ▸ hph) hhl hlc hf hot
    have hl' : phase l = .out := by
      have ho := hl.turn htr.turn
      rw [hou] at ho
      generalize phase l = new at ho hph
      cases ho with
      | outside => rfl
      | acquire => exact absurd rfl hph
      | within hin => exact absurd rfl hin
      | release hin => exact absurd rfl hin
    refine h.same (fun u => ?_) hf fun u hu hh => ?_
    · by_cases eu : u = t
      · rw [eu]
        exact ⟨fun hh => absurd (hs ▸ hl') hh.1, fun hh => absurd hh hn⟩
      · exact hhl u eu
    · rw [hlc u fun e => hn (e ▸ hu)]
      exact hot _ hh
  · -- the thread has the lock
    have ht : Held lock phase s t := ⟨hou, htr.outside lock⟩
    obtain ⟨hin, hb⟩ := hp.turn htr.turn hou (h.held t ht)
    have hon : ∀ u, u ≠ t → ¬ Held lock phase s' u := fun u hu hh => hu (hm.unique ht ((hhl u hu).mp hh))
    refine ⟨fun hno => hb ?_, fun u hu => ?_⟩
    · by_contra hl'
      refine hno t ⟨hs.symm ▸ hl', ?_⟩
      have ho := hl.turn htr.turn
      rw [hc, Call.on]
      generalize phase (s.locals t) = old at ho hou
      generalize phase l = new at ho hl'
      cases ho with
      | outside => exact absurd rfl hou
      | acquire => exact absurd rfl hou
      | within _ hp hv =>
        rw [if_neg hp, if_neg hv]
        exact htr.outside lock
      | release => exact absurd rfl hl'
    · obtain rfl : u = t := by_contra fun hne => hon u hne hu
      rw [hs]
      exact hin (hs ▸ hu.1)

theorem Protected.step (hl : UsesLock c lock phase) (hp : Protects c phase free held) (h : Protected lock phase free held s)
    (hm : Mutex lock phase s) (hs : c.step s e = .ok s') : Protected lock phase free held s' := by
  have hm' := hm.step hl hs
  obtain ⟨-, -, hc⟩ := step_cases hm.custody hs
  rcases hc with rfl | ⟨i, t, l, call, ht⟩ | ⟨due, vs, hfr⟩ | ⟨t, hr⟩
  · exact h
  · exact h.turn hl hp hm hm' ht
  · obtain ⟨hf, ho⟩ := fires_protects hp hfr.fires
    refine h.same (fun u => ?_) hf fun u _ hu => by rw [hfr.locals]; exact ho _ hu
    rw [Held, Held, hfr.locals, hfr.counters]
    rfl
  · have hf : free s.shared → free s'.shared := fun hg => by rwa [hr.shared]
    have ho : ∀ l, held s.shared l → held s'.shared l := fun l hg => by rwa [hr.shared]
    rcases hr.counters lock with hsm | ⟨hw, hts⟩
    · refine h.same (fun u => ?_) hf fun u _ hu => by rw [hr.locals]; exact ho _ hu
      rw [Held, Held, hr.locals, hsm]
    refine h.acquire (t := t) hp hm' (fun hh => ?_) ?_ (fun u hu => ?_) (fun u _ => by rw [hr.locals]) hf ho
    · rw [Held, hw] at hh
      cases hh.2
    · rw [hr.locals]
      exact hm.waiting t hw
    · rw [Held, Held, hr.locals, hts, Counter.test_waits_of_ne _ hu]

variable (phase) in
theorem Mutex.start (hc : s.kernel.Custody) (hm : lock < s.kernel.numSems) (hcn : s.kernel.counter lock = ⟨1, fun _ => false⟩)
    (ho : ∀ t, phase (s.locals t) = .out) : Mutex lock phase s ∧ ∀ t, ¬ Held lock phase s t := by
  have hno : ∀ t, ¬ Held lock phase s t := fun t ht => ht.1 (ho t)
  refine ⟨⟨hc, hm, fun t ht => ?_, .inl ⟨by rw [hcn], hno⟩⟩, hno⟩
  rw [hcn] at ht
  cases ht

end

/-! ## Runs under a condition -/

/-- The client, which stops where a turn does not meet the condition. -/
def restrict (c : Client G L I D) (ok : I → G → L → Bool) : Client G L I D where
  turn i g l := if ok i g l then c.turn i g l else .error .undefined
  fire := c.fire

/-- The event is not a turn that does not meet the condition. -/
def meets (ok : I → G → L → Bool) (s : State G L) : Event I D → Bool
  | .turn i => !s.kernel.inCode || ok i s.shared (s.locals s.kernel.currentThread)
  | _ => true

section

variable {c : Client G L I D} {ok : I → G → L → Bool} {s s' : State G L}

theorem fires_restrict (due : List D) : ∀ g, (c.restrict ok).fires due g = c.fires due g := by
  induction due with
  | nil => intro g; rfl
  | cons d ds ih =>
    intro g
    show (c.fire d g >>= fun r => (c.restrict ok).fires ds r.1 >>= _) = (c.fire d g >>= fun r => c.fires ds r.1 >>= _)
    refine bind_congr fun r => ?_
    rw [ih]

theorem step_restrict (hok : meets ok s e = true) : (c.restrict ok).step s e = c.step s e := by
  cases e with
  | turn i =>
    by_cases hc : s.kernel.inCode = true
    · have hm : ok i s.shared (s.locals s.kernel.currentThread) = true := by
        rw [meets, hc] at hok
        exact hok
      have ht : (c.restrict ok).turn i s.shared (s.locals s.kernel.currentThread) =
          c.turn i s.shared (s.locals s.kernel.currentThread) := if_pos hm
      rw [step, step, if_pos hc, if_pos hc, ht]
    · rw [step, step, if_neg hc, if_neg hc]
  | tick due yieldOnReturn => rw [step, step, fires_restrict]
  | idle due => rw [step, step, fires_restrict]
  | resume => rfl

/-- A run whose turns meet the condition is a run of the restricted client. -/
theorem reach_restrict {init : State G L → Prop} (h : Reach c.step (fun s e => meets ok s e = true) init s) :
    Reach (c.restrict ok).step (fun _ _ => True) init s := by
  induction h with
  | init hi => exact .init hi
  | step e _ hok hst ih => exact .step e ih trivial ((step_restrict hok).trans hst)

end

end Client

end Nachos

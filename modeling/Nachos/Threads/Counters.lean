/-
  Nachos.Threads.Counters — what an event of the kernel does to one semaphore.

  Seen from outside, a semaphore is its value and the threads that are inside its `P`:
  `V` adds to the value, and a thread in `P` that tests the value takes from it and is out,
  or finds 0 and stays. `step_counter` says for every event which of these happen to which
  semaphore, so that what is proved about code that uses semaphores need not look at ready
  lists, queues and switches.
-/

import Nachos.Threads.Permits

namespace Nachos

open Lib BitVec
open Function (update update_apply update_of_ne update_self)

@[ext]
structure Counter where
  value : Word
  /-- The threads inside `P`. -/
  waits : Tid → Bool

namespace Counter

def signal (c : Counter) (n : Nat) : Counter := { c with value := c.value + BitVec.ofNat 32 n }

/-- The test in the loop of `P`. -/
def test (c : Counter) (t : Tid) : Counter :=
  if c.value = 0 then { c with waits := update c.waits t true } else ⟨c.value - 1, update c.waits t false⟩

variable (c : Counter)

theorem test_waits_self (t : Tid) : (c.test t).waits t = decide (c.value = 0) := by
  rw [test]
  split
  · rename_i h
    exact (update_self ..).trans (decide_eq_true h).symm
  · rename_i h
    exact (update_self ..).trans (decide_eq_false h).symm

theorem test_waits_of_ne {t u : Tid} (h : u ≠ t) : (c.test t).waits u = c.waits u := by
  rw [test]
  split
  · exact update_of_ne h ..
  · exact update_of_ne h ..

theorem test_value (t : Tid) : (c.test t).value = if c.value = 0 then c.value else c.value - 1 := by
  rw [test]
  split <;> rfl

theorem signal_zero : c.signal 0 = c := by
  obtain ⟨value, waits⟩ := c
  simp [signal]

theorem signal_toNat {c : Counter} {n : Nat} (h : c.value.toNat + n < 4294967296) :
    (c.signal n).value.toNat = c.value.toNat + n := by
  rw [signal, toNat_add, toNat_ofNat]
  omega

/-- A permit is taken, or the thread waits. -/
theorem test_permit (t : Tid) : (c.test t).value.toNat + (!(c.test t).waits t).toNat = c.value.toNat := by
  rw [test_value, test_waits_self]
  by_cases h : c.value = 0
  · rw [if_pos h, decide_eq_true h]
    rfl
  have hp : c.value.toNat ≠ 0 := fun hz => h (eq_of_toNat_eq hz)
  have ho : (1 : Word).toNat = 1 := rfl
  rw [if_neg h, decide_eq_false h, toNat_sub_of_le (le_def.mpr (by omega)), ho]
  exact Nat.sub_add_cancel (Nat.one_le_iff_ne_zero.mpr hp)

theorem signal_signal (m n : Nat) : (c.signal m).signal n = c.signal (m + n) := by
  simp only [signal, ofNat_add, BitVec.add_assoc]

end Counter

namespace Dispatch

def counter (k : Dispatch) (s : SemId) : Counter := ⟨(k.sems s).value, k.waits s⟩

variable {s' : SemId} {due : List SemId} {ev : Event}

section

variable {k k' : Dispatch} {s : SemId} {t : Tid}

theorem Quiet.counter (h : Quiet s k k') : k'.counter s = k.counter s := by
  rw [Dispatch.counter, Dispatch.counter, h.sem, funext h.waits]

theorem v_counter (e : k.v s' = .ok k') : k'.counter s = (k.counter s).signal ([s'].count s) := by
  by_cases es : s = s'
  · subst es
    obtain ⟨-, ⟨-, rfl⟩ | ⟨t, q, th, -, ht, rfl⟩⟩ := v_eq e
    · exact Counter.ext (by simp [counter, Counter.signal]) rfl
    · exact Counter.ext (by simp [counter, Counter.signal]) (funext (waits_set rfl ht rfl))
  · rw [(v_quiet es e).counter, List.count_singleton, if_neg (by simpa using Ne.symm es), Counter.signal_zero]

theorem handlers_counter (due : List SemId) : ∀ {k : Dispatch}, k.handlers due = .ok k' →
    k'.counter s = (k.counter s).signal (due.count s) := by
  induction due with
  | nil => intro k e; cases e; exact (Counter.signal_zero _).symm
  | cons s' rest ih =>
    intro k e
    obtain ⟨k1, e1, e2⟩ := bind_eq_ok.mp e
    rw [ih e2, v_counter e1, Counter.signal_signal, ← List.count_append, List.singleton_append]

/-- A turn of the loop of `P` of one semaphore, by a thread in no other `P`. -/
theorem pLoop_counter {l : IntStatus} {pt : Point} (hc : k.current = some ⟨.running, pt⟩)
    (hpt : pt.sem = none ∨ pt.sem = some s') (e : k.pLoop s' l = .ok k') :
    k'.counter s = if s = s' then (k.counter s).test k.currentThread else k.counter s := by
  split
  · rename_i es
    subst es
    obtain ⟨-, th, ht, ⟨h0, rfl⟩ | ⟨h0, -, e⟩⟩ := pLoop_eq e
    · have hw : waits { k with threads := update k.threads k.currentThread (some { th with point := .code }) } s =
          update (k.waits s) k.currentThread false := by
        funext u
        rw [waits_update rfl, update_apply]
        rfl
      rw [Counter.test, if_neg (show (k.counter s).value ≠ 0 from h0)]
      exact Counter.ext (by simp [counter]) hw
    · have hw : waits { k with threads := update k.threads k.currentThread (some ⟨.blocked, .inP s l⟩) } s =
          update (k.waits s) k.currentThread true := by
        funext u
        rw [waits_update rfl, update_apply]
        simp [Point.sem]
      rw [(sleepLoop_quiet e).counter, Counter.test, if_pos (show (k.counter s).value = 0 from h0)]
      exact Counter.ext (by simp [counter]) hw
  · rename_i es
    exact (pLoop_quiet es hc hpt e).counter

theorem inCode_waits (hc : k.current = some ⟨.running, .code⟩) (s : SemId) : k.waits s k.currentThread = false := by
  rw [waits, show k.threads k.currentThread = _ from hc]
  rfl

theorem p_counter (hc : k.current = some ⟨.running, .code⟩) (e : k.call (.p s') = .ok k') :
    k'.counter s = if s = s' then (k.counter s).test k.currentThread else k.counter s :=
  pLoop_counter (k := { k with level := .intOff }) hc (.inl rfl) e

variable {initialValue : Word}

theorem newSemaphore_counter (e : k.call (.newSemaphore initialValue) = .ok k') :
    k'.numSems = k.numSems + 1 ∧ k'.threads = k.threads ∧ k'.currentThread = k.currentThread ∧
      k'.counter k.numSems = ⟨initialValue, k.waits k.numSems⟩ ∧ ∀ s, s ≠ k.numSems → k'.counter s = k.counter s := by
  cases e
  refine ⟨rfl, rfl, rfl, Counter.ext (by simp [counter, IntSemaphore.new]) rfl, fun s hs => ?_⟩
  exact Counter.ext (by simp [counter, hs]) rfl

theorem tick_counter (hc : k.Custody) (hcr : k.current = some ⟨.running, .code⟩) (hl : k.level = .intOn)
    {yieldOnReturn : Bool} (e : k.call (.tick due yieldOnReturn) = .ok k') :
    k'.counter s = (k.counter s).signal (due.count s) := by
  obtain ⟨ho, -⟩ | ⟨k1, e1, e2⟩ := tick_eq e
  · exact absurd hl ho
  obtain ⟨-, hk⟩ := Custody.handlers due (hc.setLevel .intOff) e1
  have h1 := handlers_counter (s := s) due e1
  rcases e2 with rfl | e2
  · exact h1
  · exact (yield_quiet (k := { k1 with level := .intOn }) (hk.runs _ hcr) rfl e2).counter.trans h1

/-- Calls that are neither `P` nor `V` leave the semaphores there are. -/
theorem other_counter (hc : k.Custody) (hs : s < k.numSems) (hp : ∀ s', ev ≠ .p s') (hv : ev.signals = [])
    (hcr : k.current = some ⟨.running, .code⟩) (e : k.call ev = .ok k') : k'.counter s = k.counter s := by
  cases ev with
  | setLevel now => cases e; rfl
  | newSemaphore initialValue => exact (newSemaphore_counter e).2.2.2.2 s (Nat.ne_of_lt hs)
  | fork => exact (fork_quiet hc e).counter
  | yield => exact (yield_quiet hcr rfl e).counter
  | p s' => exact absurd rfl (hp s')
  | v s' => cases hv
  | finish => exact (finish_quiet hcr rfl e).counter
  | tick due yieldOnReturn =>
    cases hv
    by_cases hl : k.level = .intOn
    · exact (tick_counter hc hcr hl e).trans (Counter.signal_zero _)
    · simp only [call, if_neg hl] at e
      cases e
      rfl
  | idle due => cases e; rfl
  | resume => cases e; rfl

theorem idle_counter (hid : k.idling = true) (e : k.step (.idle due) = .ok k') :
    k'.counter s = (k.counter s).signal (due.count s) := by
  simp only [step, if_pos hid] at e
  obtain ⟨k1, e1, e2⟩ := bind_eq_ok.mp e
  exact (sleepLoop_quiet e2).counter.trans (handlers_counter due e1)

/-- A thread that goes on inside `P` tests the value again. -/
theorem resume_counter (hc : k.Custody) (e : k.step .resume = .ok k') :
    k'.counter s = k.counter s ∨ k.waits s k.currentThread = true ∧ k'.counter s = (k.counter s).test k.currentThread := by
  simp only [step] at e
  split at e
  · rename_i pt hcr
    cases pt with
    | threadRoot => exact .inl (setPoint_quiet (k := { k with level := .intOn }) hcr e rfl).counter
    | inYield l =>
      obtain ⟨k1, e1, e2⟩ := bind_eq_ok.mp e
      obtain ⟨-, hc1, -⟩ := hc.afterSwitch e1
      have hp := setPoint_quiet (s := s) (k := { k1 with level := l }) (hc1.trans hcr) e2 rfl
      exact .inl (hp.counter.trans (afterSwitch_quiet hc e1).counter)
    | inP s' l =>
      obtain ⟨k1, e1, e2⟩ := bind_eq_ok.mp e
      obtain ⟨-, hc1, ht⟩ := hc.afterSwitch e1
      have hl := pLoop_counter (s := s) (hc1.trans hcr) (.inr rfl) e2
      rw [(afterSwitch_quiet hc e1).counter, ht] at hl
      by_cases es : s = s'
      · subst es
        refine .inr ⟨?_, by rwa [if_pos rfl] at hl⟩
        rw [waits, show k.threads k.currentThread = _ from hcr]
        simp [Point.sem]
      · exact .inl (by rwa [if_neg es] at hl)
    | code => cases e; exact .inl rfl
    | inFinish => cases e; exact .inl rfl
  · cases e
    exact .inl rfl

/-! ## Semaphores that are not there yet -/

/-- Nobody is inside the `P` of a semaphore that does not exist. -/
def WaitsMade (k : Dispatch) : Prop := ∀ s t, k.waits s t = true → s < k.numSems

theorem WaitsMade.counter (h : k.WaitsMade) (hs : k.numSems ≤ s) : (k.counter s).waits = fun _ => false := by
  funext t
  by_contra hw
  exact Nat.not_lt.mpr hs (h s t (Bool.not_eq_false _ ▸ hw))

theorem call_waitsMade (hc : k.Custody) (h : k.WaitsMade) (hcr : k.current = some ⟨.running, .code⟩)
    (e : k.call ev = .ok k') : k'.WaitsMade := by
  intro s t hw
  by_cases hs : s < k.numSems
  · exact (call_keeps e hs).1
  have hsm : (k'.counter s).waits = (k.counter s).waits → s < k'.numSems := by
    intro hwt
    exact absurd (h s t ((congrFun hwt t).symm.trans hw)) hs
  cases ev with
  | setLevel now => cases e; exact hsm rfl
  | newSemaphore initialValue => cases e; exact hsm rfl
  | fork => exact hsm (congrArg Counter.waits (fork_quiet hc e).counter)
  | yield => exact hsm (congrArg Counter.waits (yield_quiet hcr rfl e).counter)
  | p s' =>
    have hm : s' < k.numSems := (pLoop_eq (k := { k with level := .intOff }) e).1
    have hcn := p_counter (s := s) hcr e
    have hne : s ≠ s' := fun es => hs (es ▸ hm)
    rw [if_neg hne] at hcn
    exact hsm (congrArg Counter.waits hcn)
  | v s' =>
    have hcn := v_counter (s := s) e
    exact hsm (by rw [hcn]; rfl)
  | finish => exact hsm (congrArg Counter.waits (finish_quiet hcr rfl e).counter)
  | tick due yieldOnReturn =>
    by_cases hl : k.level = .intOn
    · have hcn := tick_counter (s := s) hc hcr hl e
      exact hsm (by rw [hcn]; rfl)
    · simp only [call, if_neg hl] at e
      cases e
      exact hsm rfl
  | idle due => cases e; exact hsm rfl
  | resume => cases e; exact hsm rfl

theorem step_waitsMade (hc : k.Custody) (h : k.WaitsMade) (e : k.step ev = .ok k') : k'.WaitsMade := by
  obtain rfl | ⟨hcr, e⟩ | ⟨due, k1, rfl, hid, -⟩ | ⟨pt, rfl, -⟩ := step_eq e
  · exact h
  · exact call_waitsMade hc h hcr e
  · intro s t hw
    have hwt := congrArg Counter.waits (idle_counter (s := s) hid e)
    exact (step_keeps e (h s t ((congrFun hwt t).symm.trans hw))).1
  · intro s t hw
    rcases resume_counter (s := s) hc e with hs | ⟨hcr, -⟩
    · exact (step_keeps e (h s t ((congrFun (congrArg Counter.waits hs) t).symm.trans hw))).1
    · exact (step_keeps e (h s _ hcr)).1

variable {ok : Dispatch → Event → Prop}

theorem reach_waitsMade (h : Reach step ok (· = start) k) : k.WaitsMade := by
  refine (h.inv (P := fun k => k.Custody ∧ k.WaitsMade) ?_ ?_).2
  · rintro k rfl
    refine ⟨start_custody, fun s t hw => ?_⟩
    by_cases ht : t = 0
    · subst ht
      cases hw
    · simp [waits, start, ht] at hw
  · intro k ev k' hk _ e
    exact ⟨step_custody hk.1 ev e, step_waitsMade hk.1 hk.2 e⟩

/-! ## New semaphores -/

/-- A thread's own code runs, and can make semaphores. -/
structure Making (k : Dispatch) : Prop where
  custody : k.Custody
  waitsMade : k.WaitsMade
  code : k.current = some ⟨.running, .code⟩

theorem reach_making (h : Reach step ok (· = start) k) (hc : k.inCode = true) : k.Making :=
  ⟨reach_custody h, reach_waitsMade h, inCode_iff.mp hc⟩

/-- A new semaphore has its value, and nobody waits for it. -/
theorem Making.newSemaphore (h : k.Making) (e : k.call (.newSemaphore initialValue) = .ok k') :
    k'.Making ∧ k'.numSems = k.numSems + 1 ∧ k'.counter k.numSems = ⟨initialValue, fun _ => false⟩ ∧
      ∀ s, s ≠ k.numSems → k'.counter s = k.counter s := by
  have hn : k.waits k.numSems = fun _ => false := h.waitsMade.counter (Nat.le_refl _)
  obtain ⟨hnm, ht, hc, hnw, hold⟩ := newSemaphore_counter e
  rw [hn] at hnw
  refine ⟨⟨h.custody.call h.code e, call_waitsMade h.custody h.waitsMade h.code e, ?_⟩, hnm, hnw, hold⟩
  rw [current, ht, hc]
  exact h.code

theorem newSemaphore_made (e : k.call (.newSemaphore initialValue) = .ok k') :
    k.numSems < k'.numSems ∧ k'.initial k.numSems = initialValue ∧ k'.Lawful k.numSems := by
  have hl := newSemaphore_lawful (s := k.numSems) (fun hs => absurd hs (Nat.lt_irrefl _)) e
  cases e
  exact ⟨Nat.lt_succ_self _, update_self .., hl⟩

/-- Where one thread at most is in `P`, and finds a permit, nobody sleeps. -/
theorem Lawful.awake (hc : k.Custody) (h : k.Lawful s) (hs : s < k.numSems) (hin : k.initial s = 0)
    (hon : ∀ t u, k.waits s t = true → k.waits s u = true → u = t)
    (hv : ∀ t, k.waits s t = true → (k.sems s).value ≠ 0) : (k.sems s).queue = [] := by
  by_contra hq
  obtain ⟨t, ht⟩ := List.exists_mem_of_ne_nil _ hq
  have hw := queue_waits hc ht
  obtain ⟨-, hn, hwk⟩ := h hs (by rw [hin]; decide)
  have hp : (k.sems s).value.toInt ≠ 0 := mt IntSemaphore.value_eq_zero.mpr (hv t hw)
  have hcr := hwk hq
  -- a thread that was woken would be the one that sleeps
  obtain ⟨u, hu⟩ := Finset.card_pos.mp (show 0 < (k.woken s).card by omega)
  obtain ⟨-, hw', ho⟩ := mem_woken.mp hu
  exact ho (hon t u hw hw' ▸ ht)

end

end Dispatch

end Nachos

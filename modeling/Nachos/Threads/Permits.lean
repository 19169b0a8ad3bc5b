/-
  Nachos.Threads.Permits — what a semaphore's value counts, over whole runs.

  A thread taken off the queue by `V` tests the value again only when it next runs, and a
  newcomer may have taken the permit by then; it joins the queue again. So a `V` hands
  nothing over, and what keeps a sleeper from being forgotten is a count: `woken`, the
  threads that left the queue and have not tested again, is at least the value whenever
  somebody sleeps. `Permits` says so, with value = initial + completed `V` - completed `P`.
-/

import Mathlib.Data.Finset.Card
import Mathlib.Data.Finset.Range
import Nachos.Threads.Custody

namespace Nachos.Dispatch

open Lib
open Function (update update_of_ne update_self)

/-- The semaphore whose `P` a thread is inside, past a first test. -/
def Point.sem : Point → Option SemId
  | .inP s _ => some s
  | _ => none

def waits (k : Dispatch) (s : SemId) (t : Tid) : Bool := (k.threads t).any (·.point.sem == some s)

/-- The threads that `V` took off the queue of `s` and that have not tested the value since. -/
def woken (k : Dispatch) (s : SemId) : Finset Tid :=
  (Finset.range k.created).filter fun t => k.waits s t = true ∧ t ∉ (k.sems s).queue

structure Permits (k : Dispatch) (s : SemId) : Prop where
  count : (k.sems s).value.toInt = (k.initial s).toInt + k.vs s - k.ps s
  nonneg : 0 ≤ (k.sems s).value.toInt
  wakes : (k.sems s).queue ≠ [] → (k.sems s).value.toInt ≤ (k.woken s).card

/-- The semaphores an event calls `V` on. -/
def Event.signals : Event → List SemId
  | .v s => [s]
  | .tick due _ | .idle due => due
  | _ => []

/-- The calls of `V` that an event makes on `s` keep its value an `int`. -/
def Fits (s : SemId) (k : Dispatch) (e : Event) : Prop := (k.sems s).value.toInt + e.signals.count s ≤ intMax.toInt

instance (s : SemId) (k : Dispatch) (e : Event) : Decidable (Fits s k e) := inferInstanceAs (Decidable (_ ≤ _))

variable {pt : Point} {s' : SemId} {l : IntStatus} {ev : Event}

section

variable {k k' : Dispatch} {s : SemId} {t : Tid} {th : Thread}

theorem mem_woken : t ∈ k.woken s ↔ t < k.created ∧ k.waits s t = true ∧ t ∉ (k.sems s).queue := by
  simp [woken]

/-- A thread on the queue is inside `P`. -/
theorem queue_waits (h : k.Custody) (ht : t ∈ (k.sems s).queue) : k.waits s t = true := by
  have hs := h.seated.mem_iff.mp (show t ∈ k.lists (.queue s) from ht)
  cases hth : k.threads t with
  | none =>
    rw [placeOf, hth] at hs
    cases hs
  | some th =>
    rw [placeOf_eq hth, place_queue] at hs
    obtain ⟨-, l, hpt⟩ := hs
    simp [waits, hth, hpt, Point.sem]

/-! ## Steps that do not concern the semaphore -/

/-- Semaphore `s`, and who is inside its `P`, stay as they are. -/
structure Quiet (s : SemId) (k k' : Dispatch) : Prop where
  sem : k'.sems s = k.sems s
  initial : k'.initial s = k.initial s
  ps : k'.ps s = k.ps s
  vs : k'.vs s = k.vs s
  made : s < k'.numSems → s < k.numSems
  waits : ∀ t, k'.waits s t = k.waits s t
  created : k.created ≤ k'.created

theorem Quiet.refl (k : Dispatch) : Quiet s k k := ⟨rfl, rfl, rfl, rfl, id, fun _ => rfl, Nat.le_refl _⟩

theorem Quiet.trans {k1 k2 k3 : Dispatch} (h : Quiet s k1 k2) (h' : Quiet s k2 k3) : Quiet s k1 k3 :=
  ⟨h'.sem.trans h.sem, h'.initial.trans h.initial, h'.ps.trans h.ps, h'.vs.trans h.vs, fun hs => h.made (h'.made hs),
    fun t => (h'.waits t).trans (h.waits t), Nat.le_trans h.created h'.created⟩

theorem Permits.quiet (h : k.Permits s) (hq : Quiet s k k') : k'.Permits s := by
  refine ⟨?_, ?_, ?_⟩
  · rw [hq.sem, hq.initial, hq.ps, hq.vs]; exact h.count
  · rw [hq.sem]; exact h.nonneg
  · rw [hq.sem]
    intro hne
    have hs : k.woken s ⊆ k'.woken s := by
      intro t ht
      rw [mem_woken] at ht ⊢
      rw [hq.waits, hq.sem]
      exact ⟨Nat.lt_of_lt_of_le ht.1 hq.created, ht.2⟩
    have := Finset.card_le_card hs
    have := h.wakes hne
    omega

theorem waits_update (ht : k'.threads = update k.threads t (some th)) (u : Tid) :
    k'.waits s u = if u = t then th.point.sem == some s else k.waits s u := by
  simp only [waits, ht]
  by_cases e : u = t
  · subst e; simp
  · simp [e]

/-- A new record with the same `P`, if any, leaves the waiters as they were. -/
theorem waits_set {th' : Thread} (hth : k'.threads = update k.threads t (some th')) (ht : k.threads t = some th)
    (hs : th'.point.sem = th.point.sem) (u : Tid) : k'.waits s u = k.waits s u := by
  rw [waits_update hth]
  split
  · rename_i e; subst e; simp [waits, ht, hs]
  · rfl

theorem run_quiet (e : k.run t = .ok k') : Quiet s k k' := by
  obtain ⟨th, ht, rfl⟩ := run_eq e
  exact ⟨rfl, rfl, rfl, rfl, id, waits_set rfl ht rfl, Nat.le_refl _⟩

theorem sleepLoop_quiet (e : k.sleepLoop = .ok k') : Quiet s k k' := by
  rcases sleepLoop_eq e with rfl | ⟨next, rest, -, e⟩
  · exact Quiet.refl _
  · have ht : Quiet s k { k with readyList := rest } := ⟨rfl, rfl, rfl, rfl, id, fun _ => rfl, Nat.le_refl _⟩
    exact ht.trans (run_quiet e)

theorem yield_quiet (hc : k.current = some ⟨.running, pt⟩) (hpt : pt.sem = none) (e : k.yield = .ok k') :
    Quiet s k k' := by
  rcases yield_eq e with rfl | ⟨next, rest, -, th, -, e⟩
  · exact Quiet.refl _
  · refine Quiet.trans ?_ (run_quiet e)
    exact ⟨rfl, rfl, rfl, rfl, id, waits_set rfl hc hpt.symm, Nat.le_refl _⟩

theorem fork_quiet (h : k.Custody) (e : k.fork = .ok k') : Quiet s k k' := by
  obtain rfl := fork_eq e
  refine ⟨rfl, rfl, rfl, rfl, id, ?_, Nat.le_succ _⟩
  intro u
  rw [waits_update rfl]
  split
  · rename_i eu; subst eu; simp [waits, h.unborn k.created (Nat.le_refl _), Point.sem]
  · rfl

theorem finish_quiet (hc : k.current = some ⟨.running, pt⟩) (hpt : pt.sem = none) (e : k.finish = .ok k') :
    Quiet s k k' := by
  obtain ⟨th, -, e⟩ := finish_eq e
  refine Quiet.trans ?_ (sleepLoop_quiet e)
  exact ⟨rfl, rfl, rfl, rfl, id, waits_set rfl hc hpt.symm, Nat.le_refl _⟩

theorem afterSwitch_quiet (h : k.Custody) (e : k.afterSwitch = .ok k') : Quiet s k k' := by
  rcases afterSwitch_eq e with rfl | ⟨t, ht, -, rfl⟩
  · exact Quiet.refl _
  refine ⟨rfl, rfl, rfl, rfl, id, ?_, Nat.le_refl _⟩
  intro u
  by_cases eu : u = t
  · subst eu
    -- the deleted thread was in `Finish`, not in a `P`
    have hn := mt (h.roll u).mp fun hr => hr.2 (h.carcass u ht)
    cases hth : k.threads u with
    | none => simp [waits, hth]
    | some th =>
      have hpt : th.point = .inFinish := by
        by_cases hp : th.point = .inFinish
        · exact hp
        · exact absurd ⟨th, hth, hp⟩ hn
      simp [waits, hth, hpt, Point.sem]
  · simp [waits, eu]

theorem v_quiet (hne : s ≠ s') (e : k.v s' = .ok k') : Quiet s k k' := by
  obtain ⟨-, ⟨-, rfl⟩ | ⟨t, q, th, -, ht, rfl⟩⟩ := v_eq e
  · exact ⟨by simp [hne], rfl, rfl, by simp [hne], id, fun _ => rfl, Nat.le_refl _⟩
  · exact ⟨by simp [hne], rfl, rfl, by simp [hne], id, waits_set rfl ht rfl, Nat.le_refl _⟩

/-- A turn of another semaphore's `P`, by a thread that is in no other `P`. -/
theorem pLoop_quiet (hne : s ≠ s') (hc : k.current = some ⟨.running, pt⟩) (hpt : pt.sem = none ∨ pt.sem = some s')
    (e : k.pLoop s' l = .ok k') : Quiet s k k' := by
  have hold : k.waits s k.currentThread = false := by
    rw [waits, show k.threads k.currentThread = _ from hc]
    rcases hpt with h | h
    · simp [h]
    · simp [h, Ne.symm hne]
  have hw : ∀ {x : Dispatch} {th' : Thread}, x.threads = update k.threads k.currentThread (some th') →
      th'.point.sem ≠ some s → ∀ u, x.waits s u = k.waits s u := by
    intro x th' hx ht' u
    rw [waits_update hx]
    split
    · rename_i eu; subst eu; rw [hold]; simpa using ht'
    · rfl
  obtain ⟨-, th, ht, ⟨-, rfl⟩ | ⟨-, -, e⟩⟩ := pLoop_eq e
  · exact ⟨by simp [hne], rfl, by simp [hne], rfl, id, hw rfl (by simp [Point.sem]), Nat.le_refl _⟩
  · refine Quiet.trans ?_ (sleepLoop_quiet e)
    exact ⟨by simp [hne], rfl, rfl, rfl, id, hw rfl (by simpa [Point.sem] using Ne.symm hne), Nat.le_refl _⟩

/-! ## The semaphore's own steps -/

/-- What every run keeps for a semaphore whose initial value is not negative. -/
def Lawful (s : SemId) (k : Dispatch) : Prop := s < k.numSems → 0 ≤ (k.initial s).toInt → k.Permits s

theorem Lawful.quiet (h : k.Lawful s) (hq : Quiet s k k') : k'.Lawful s := by
  intro hs hi
  rw [hq.initial] at hi
  exact (h (hq.made hs) hi).quiet hq

/-- The thread `V` takes off the queue is one more that has to test again. -/
theorem card_woken_v (hc : k.Custody) {q : List Tid} (hq : (k.sems s).queue = t :: q) (ht : k.threads t = some th)
    (hth : k'.threads = update k.threads t (some { th with status := .ready })) (hqu : (k'.sems s).queue = q)
    (hcr : k'.created = k.created) : (k.woken s).card + 1 ≤ (k'.woken s).card := by
  have hs := hc.seated.seat_head (show k.lists (.queue s) = t :: q from hq)
  have ho := (hc.seated.once hs).1
  rw [show k.lists (.queue s) = t :: q from hq, List.count_cons_self] at ho
  rw [placeOf_eq ht, place_queue] at hs
  obtain ⟨-, l, hpt⟩ := hs
  have htq : t ∉ q := List.count_eq_zero.mp (by omega)
  have hlt : t < k.created := by
    rcases Nat.lt_or_ge t k.created with hlt | hge
    · exact hlt
    · rw [hc.unborn t hge] at ht; cases ht
  have hot : t ∉ k.woken s := fun hm => (mem_woken.mp hm).2.2 (by rw [hq]; exact List.mem_cons_self)
  rw [← Finset.card_insert_of_notMem hot]
  refine Finset.card_le_card fun u hu => ?_
  rw [mem_woken, waits_set hth ht rfl, hqu, hcr]
  rcases Finset.mem_insert.mp hu with rfl | hu
  · exact ⟨hlt, by simp [waits, ht, hpt, Point.sem], htq⟩
  · obtain ⟨h1, h2, h3⟩ := mem_woken.mp hu
    exact ⟨h1, h2, fun hm => h3 (by rw [hq]; exact List.mem_cons_of_mem _ hm)⟩

/-- At most the thread whose record changes stops being one that has to test again. -/
theorem card_woken_p (ht : k'.threads = update k.threads t (some th))
    (hq : (k'.sems s).queue = (k.sems s).queue) (hc : k'.created = k.created) :
    (k.woken s).card ≤ (k'.woken s).card + 1 := by
  refine Nat.le_trans (Finset.card_le_card fun u hu => ?_) (Finset.card_insert_le t (k'.woken s))
  by_cases eu : u = t
  · exact Finset.mem_insert.mpr (.inl eu)
  · refine Finset.mem_insert.mpr (.inr ?_)
    rw [mem_woken, waits_update ht, if_neg eu, hq, hc]
    exact mem_woken.mp hu

theorem v_lawful (hc : k.Custody) (h : k.Lawful s) (hm : (k.sems s).value ≠ intMax) (e : k.v s = .ok k') :
    k'.Lawful s ∧ (k'.sems s).value.toInt = (k.sems s).value.toInt + 1 := by
  have ha := IntSemaphore.toInt_add_one hm
  obtain ⟨-, ⟨hq, rfl⟩ | ⟨t, q, th, hq, ht, rfl⟩⟩ := v_eq e
  · refine ⟨?_, by simpa using ha⟩
    intro hs hi
    obtain ⟨hcn, hn, -⟩ := h hs hi
    refine ⟨?_, ?_, fun hne => absurd (by simp) hne⟩
    · simp only [update_self]; omega
    · simp only [update_self]; omega
  · refine ⟨?_, by simpa using ha⟩
    intro hs hi
    obtain ⟨hcn, hn, hwk⟩ := h hs hi
    refine ⟨?_, ?_, ?_⟩
    · simp only [update_self]; omega
    · simp only [update_self]; omega
    · intro _
      have hw := hwk (by rw [hq]; simp)
      have hcr : (k.woken s).card + 1 ≤ (woken { k with
        threads := update k.threads t (some { th with status := .ready })
        readyList := k.readyList ++ [t]
        sems := update k.sems s ⟨(k.sems s).value + 1, q⟩
        vs := update k.vs s (k.vs s + 1) } s).card := card_woken_v hc hq ht rfl (by simp) rfl
      simp only [update_self]
      omega

theorem pLoop_lawful (h : k.Lawful s) (e : k.pLoop s l = .ok k') : k'.Lawful s := by
  obtain ⟨hs, th, ht, ⟨h0, rfl⟩ | ⟨h0, -, e⟩⟩ := pLoop_eq e
  · intro _ hi
    obtain ⟨hc, hn, hwk⟩ := h hs hi
    have hp : (k.sems s).value.toInt ≠ 0 := mt IntSemaphore.value_eq_zero.mpr h0
    have hsb := IntSemaphore.toInt_sub_one (w := (k.sems s).value) (by omega)
    refine ⟨?_, ?_, ?_⟩
    · simp only [update_self]; omega
    · simp only [update_self]; omega
    · intro hne
      have hw := hwk (by simpa using hne)
      have hcr : (k.woken s).card ≤ (woken { k with
        threads := update k.threads k.currentThread (some { th with point := .code })
        sems := update k.sems s ⟨(k.sems s).value - 1, (k.sems s).queue⟩
        level := l
        ps := update k.ps s (k.ps s + 1) } s).card + 1 := card_woken_p rfl (by simp) rfl
      simp only [update_self]
      omega
  · refine Lawful.quiet ?_ (sleepLoop_quiet e)
    intro hs' hi
    obtain ⟨hc, hn, -⟩ := h hs hi
    refine ⟨?_, ?_, ?_⟩
    · simpa using hc
    · simpa using hn
    · intro _
      simp [h0]

theorem handlers_lawful (due : List SemId) : ∀ {k : Dispatch}, k.Custody → k.Lawful s →
    (k.sems s).value.toInt + due.count s ≤ intMax.toInt → k.handlers due = .ok k' → k'.Lawful s := by
  induction due with
  | nil => intro k _ h _ e; cases e; exact h
  | cons s' rest ih =>
    intro k hc h hf e
    obtain ⟨k1, e1, e2⟩ := bind_eq_ok.mp e
    by_cases es : s' = s
    · subst es
      rw [List.count_cons_self] at hf
      have hm : (k.sems s').value ≠ intMax := by
        intro e
        rw [e] at hf
        omega
      obtain ⟨h1, hv⟩ := v_lawful hc h hm e1
      exact ih (hc.v e1).1 h1 (by omega) e2
    · have hq := v_quiet (Ne.symm es) e1
      refine ih (hc.v e1).1 (h.quiet hq) ?_ e2
      rwa [hq.sem, ← List.count_cons_of_ne es]

theorem newSemaphore_lawful (h : k.Lawful s) {initialValue : Word} (e : k.call (.newSemaphore initialValue) = .ok k') :
    k'.Lawful s := by
  cases e
  intro hs hi
  by_cases es : s = k.numSems
  · subst es
    simp only [update_self] at hi
    refine ⟨by simp [IntSemaphore.new], by simpa [IntSemaphore.new] using hi, fun hne => absurd ?_ hne⟩
    simp [IntSemaphore.new]
  · have hq : Quiet s k { k with
        sems := update k.sems k.numSems (.new initialValue)
        numSems := k.numSems + 1
        initial := update k.initial k.numSems initialValue
        ps := update k.ps k.numSems 0
        vs := update k.vs k.numSems 0 } :=
      ⟨by simp [es], by simp [es], by simp [es], by simp [es], fun hs => Nat.lt_of_le_of_ne (Nat.le_of_lt_succ hs) es,
        fun _ => rfl, Nat.le_refl _⟩
    exact h.quiet hq hs hi

theorem setPoint_quiet {pt' : Point} (hc : k.current = some ⟨.running, pt⟩) (e : k.setPoint pt' = .ok k')
    (hs : pt'.sem = pt.sem) : Quiet s k k' := by
  obtain ⟨th, ht, rfl⟩ := modifyThread_eq e
  cases hc.symm.trans ht
  exact ⟨rfl, rfl, rfl, rfl, id, waits_set rfl hc hs, Nat.le_refl _⟩

theorem setLevel_quiet (l : IntStatus) : Quiet s k { k with level := l } :=
  ⟨rfl, rfl, rfl, rfl, id, fun _ => rfl, Nat.le_refl _⟩

theorem pLoop_any (h : k.Lawful s) (hc : k.current = some ⟨.running, pt⟩) (hpt : pt.sem = none ∨ pt.sem = some s')
    (e : k.pLoop s' l = .ok k') : k'.Lawful s := by
  by_cases es : s = s'
  · subst es; exact pLoop_lawful h e
  · exact h.quiet (pLoop_quiet es hc hpt e)

theorem resume_lawful (hc : k.Custody) (h : k.Lawful s) (hcr : k.current = some ⟨.running, pt⟩)
    (e : k.resume pt = .ok k') : k'.Lawful s := by
  cases pt with
  | threadRoot => exact (h.quiet (setLevel_quiet .intOn)).quiet (setPoint_quiet hcr e rfl)
  | inYield l =>
    obtain ⟨k1, e1, e2⟩ := bind_eq_ok.mp e
    obtain ⟨-, hc1, -⟩ := hc.afterSwitch e1
    exact ((h.quiet (afterSwitch_quiet hc e1)).quiet (setLevel_quiet l)).quiet
      (setPoint_quiet (hc1.trans hcr) e2 rfl)
  | inP s' l =>
    obtain ⟨k1, e1, e2⟩ := bind_eq_ok.mp e
    obtain ⟨-, hc1, -⟩ := hc.afterSwitch e1
    exact pLoop_any (h.quiet (afterSwitch_quiet hc e1)) (hc1.trans hcr) (.inr rfl) e2
  | code => cases e; exact h
  | inFinish => cases e; exact h

theorem call_lawful (hc : k.Custody) (h : k.Lawful s) (hf : k.Fits s ev) (hcr : k.current = some ⟨.running, .code⟩)
    (e : k.call ev = .ok k') : k'.Lawful s := by
  cases ev with
  | setLevel now => cases e; exact h.quiet (setLevel_quiet now)
  | newSemaphore initialValue => exact newSemaphore_lawful h e
  | fork => exact h.quiet (fork_quiet hc e)
  | yield => exact h.quiet (yield_quiet hcr rfl e)
  | p s' => exact pLoop_any (h.quiet (setLevel_quiet .intOff)) hcr (.inl rfl) e
  | v s' =>
    -- one call of `V` is a list of one handler
    exact handlers_lawful [s'] hc h hf (bind_eq_ok.mpr ⟨k', e, rfl⟩)
  | finish => exact h.quiet (finish_quiet hcr rfl e)
  | tick due yieldOnReturn =>
    obtain ⟨-, rfl⟩ | ⟨k1, e1, e2⟩ := tick_eq e
    · exact h
    obtain ⟨-, u1⟩ := Custody.handlers due (hc.setLevel .intOff) e1
    have h1 := handlers_lawful due (hc.setLevel .intOff) (h.quiet (setLevel_quiet .intOff)) hf e1
    rcases e2 with rfl | e2
    · exact h1.quiet (setLevel_quiet .intOn)
    · exact (h1.quiet (setLevel_quiet .intOn)).quiet (yield_quiet (u1.runs _ hcr) rfl e2)
  | idle due => cases e; exact h
  | resume => cases e; exact h

theorem step_lawful (hc : k.Custody) (h : k.Lawful s) (hf : k.Fits s ev) (e : k.step ev = .ok k') : k'.Lawful s := by
  obtain rfl | ⟨hcr, e⟩ | ⟨due, k1, rfl, -, e1, e2⟩ | ⟨pt, rfl, hcr, e⟩ := step_eq e
  · exact h
  · exact call_lawful hc h hf hcr e
  · exact (handlers_lawful due hc h hf e1).quiet (sleepLoop_quiet e2)
  · exact resume_lawful hc h hcr e

end

/-! ## A semaphore keeps its initial value -/

/-- How many semaphores there are, and the values they were created with. -/
def made (k : Dispatch) : Nat × (SemId → Word) := (k.numSems, k.initial)

section

variable {k k' : Dispatch}

theorem made_run {t : Tid} (e : k.run t = .ok k') : k'.made = k.made := by
  obtain ⟨th, -, rfl⟩ := run_eq e; rfl

theorem made_sleepLoop (e : k.sleepLoop = .ok k') : k'.made = k.made := by
  rcases sleepLoop_eq e with rfl | ⟨next, rest, -, e⟩
  · rfl
  · exact (made_run e).trans rfl

theorem made_yield (e : k.yield = .ok k') : k'.made = k.made := by
  rcases yield_eq e with rfl | ⟨next, rest, -, th, -, e⟩
  · rfl
  · exact (made_run e).trans rfl

theorem made_finish (e : k.finish = .ok k') : k'.made = k.made := by
  obtain ⟨th, -, e⟩ := finish_eq e
  exact (made_sleepLoop e).trans rfl

theorem made_pLoop {s : SemId} (e : k.pLoop s l = .ok k') : k'.made = k.made := by
  obtain ⟨-, th, -, ⟨-, rfl⟩ | ⟨-, -, e⟩⟩ := pLoop_eq e
  · rfl
  · exact (made_sleepLoop e).trans rfl

theorem made_v {s : SemId} (e : k.v s = .ok k') : k'.made = k.made := by
  obtain ⟨-, ⟨-, rfl⟩ | ⟨t, q, th, -, -, rfl⟩⟩ := v_eq e <;> rfl

theorem made_handlers (due : List SemId) : ∀ {k : Dispatch}, k.handlers due = .ok k' → k'.made = k.made := by
  induction due with
  | nil => intro k e; cases e; rfl
  | cons s rest ih =>
    intro k e
    obtain ⟨k1, e1, e2⟩ := bind_eq_ok.mp e
    exact (ih e2).trans (made_v e1)

theorem made_afterSwitch (e : k.afterSwitch = .ok k') : k'.made = k.made := by
  rcases afterSwitch_eq e with rfl | ⟨t, -, -, rfl⟩ <;> rfl

theorem made_setPoint (e : k.setPoint pt = .ok k') : k'.made = k.made := by
  obtain ⟨th, -, rfl⟩ := modifyThread_eq e; rfl

theorem made_resume (e : k.resume pt = .ok k') : k'.made = k.made := by
  cases pt with
  | threadRoot => exact (made_setPoint e).trans rfl
  | inYield l =>
    obtain ⟨k1, e1, e2⟩ := bind_eq_ok.mp e
    exact (made_setPoint e2).trans ((show _ = k1.made from rfl).trans (made_afterSwitch e1))
  | inP s l =>
    obtain ⟨k1, e1, e2⟩ := bind_eq_ok.mp e
    exact (made_pLoop e2).trans (made_afterSwitch e1)
  | code => cases e; rfl
  | inFinish => cases e; rfl

theorem keeps_of_made {s : SemId} (hs : s < k.numSems) (h : k'.made = k.made) :
    s < k'.numSems ∧ k'.initial s = k.initial s := by
  obtain ⟨hn, hi⟩ := Prod.ext_iff.mp h
  exact ⟨Nat.lt_of_lt_of_eq hs hn.symm, congrFun hi s⟩

theorem call_keeps (e : k.call ev = .ok k') {s : SemId} (hs : s < k.numSems) :
    s < k'.numSems ∧ k'.initial s = k.initial s := by
  have hm : k'.made = k.made → _ := keeps_of_made hs
  cases ev with
  | newSemaphore initialValue =>
    cases e
    exact ⟨Nat.lt_succ_of_lt hs, update_of_ne (Nat.ne_of_lt hs) ..⟩
  | setLevel now => cases e; exact hm rfl
  | fork => obtain rfl := fork_eq e; exact hm rfl
  | yield => exact hm (made_yield e)
  | p s' => exact hm ((made_pLoop e).trans rfl)
  | v s' => exact hm (made_v e)
  | finish => exact hm (made_finish e)
  | tick due yieldOnReturn =>
    obtain ⟨-, rfl⟩ | ⟨k1, e1, e2⟩ := tick_eq e
    · exact hm rfl
    have h1 : k1.made = k.made := (made_handlers due e1).trans rfl
    rcases e2 with rfl | e2
    · exact hm h1
    · exact hm ((made_yield e2).trans h1)
  | idle due => cases e; exact hm rfl
  | resume => cases e; exact hm rfl

theorem step_keeps (e : k.step ev = .ok k') {s : SemId} (hs : s < k.numSems) :
    s < k'.numSems ∧ k'.initial s = k.initial s := by
  obtain rfl | ⟨-, e⟩ | ⟨due, k1, rfl, -, e1, e2⟩ | ⟨pt, rfl, -, e⟩ := step_eq e
  · exact ⟨hs, rfl⟩
  · exact call_keeps e hs
  · exact keeps_of_made hs ((made_sleepLoop e2).trans (made_handlers due e1))
  · exact keeps_of_made hs (made_resume e)

end

/-! ## Whole runs -/

theorem reach_lawful {k : Dispatch} {s : SemId} (h : Reach step (Fits s) (· = start) k) : k.Lawful s := by
  refine (h.inv (P := fun k => k.Custody ∧ k.Lawful s) ?_ ?_).2
  · intro k hk
    subst hk
    exact ⟨start_custody, fun hs => absurd hs (Nat.not_lt_zero _)⟩
  · intro k e k' hk hf hst
    exact ⟨step_custody hk.1 e hst, step_lawful hk.1 hk.2 hf hst⟩

theorem v_at_intMax {k k' : Dispatch} {s : SemId} (hm : (k.sems s).value = intMax) (e : k.v s = .ok k') :
    (k'.sems s).value.toInt < 0 := by
  obtain ⟨-, ⟨-, rfl⟩ | ⟨t, q, th, -, -, rfl⟩⟩ := v_eq e
  · simp [hm, intMax]
  · simp [hm, intMax]

/-- In every run in which no `V` on `s` finds the value at the largest `int`, the value is
    the initial one plus the completed `V`s less the completed `P`s, it is never negative,
    and while a thread sleeps there it is at most the number of threads that have been woken
    and have not tested again. A `V` at the largest `int` leaves a negative value. -/
theorem permits_conserved {k : Dispatch} {s : SemId} (h : Lib.Reach step (Fits s) (· = start) k) (hs : s < k.numSems)
    (hv : 0 ≤ (k.initial s).toInt) :
    ((k.sems s).value.toInt = (k.initial s).toInt + k.vs s - k.ps s ∧ 0 ≤ (k.sems s).value.toInt ∧
      ((k.sems s).queue ≠ [] → (k.sems s).value.toInt ≤ (k.woken s).card)) ∧
    ((k.sems s).value = intMax → ∀ k', k.v s = .ok k' → (k'.sems s).value.toInt < 0) := by
  obtain ⟨h₁, h₂, h₃⟩ := reach_lawful h hs hv
  exact ⟨⟨h₁, h₂, h₃⟩, fun hmax k' e => v_at_intMax hmax e⟩

/-- The main thread takes back the permit of the `V` that woke thread 1, which then finds
    the value 0 and sleeps again. -/
theorem permits_conserved_when_stolen : ∃ k, Lib.Reach step (Fits 0) (· = start) k ∧ k.initial 0 = 1 ∧ k.vs 0 = 1 ∧
    k.ps 0 = 2 ∧ (k.sems 0).queue = [1] ∧ (k.sems 0).value.toInt = 1 + 1 - 2 := by
  obtain ⟨k, hk, ht⟩ : ∃ k, Reach step (fun k e => decide (Fits 0 k e) = true) (· = start) k ∧ _ :=
    exists_reach step (fun k e => decide (Fits 0 k e))
      [.newSemaphore 1, .fork, .p 0, .yield, .resume, .p 0, .resume, .v 0, .p 0, .yield, .resume]
      (fun k => k.numSems == 1 && k.initial 0 == 1 && k.vs 0 == 1 && k.ps 0 == 2 && (k.sems 0).queue == [1]) rfl
      (by decide +kernel)
  simp only [Bool.and_eq_true, beq_iff_eq] at ht
  obtain ⟨⟨⟨⟨hn, hi⟩, hvs⟩, hps⟩, hq⟩ := ht
  have hk := Reach.mono (fun _ _ h => of_decide_eq_true h) hk
  have := (permits_conserved hk (by rw [hn]; exact Nat.one_pos) (by rw [hi]; decide)).1.1
  rw [hi, hvs, hps] at this
  exact ⟨k, hk, hi, hvs, hps, hq, this⟩

/-- A semaphore created with the largest `int`, and one `V`. -/
theorem permits_lost_at_intMax : ∃ k, Lib.Reach step (fun _ _ => True) (· = start) k ∧ 0 < k.numSems ∧
    0 ≤ (k.initial 0).toInt ∧ ¬ ((k.sems 0).value.toInt = (k.initial 0).toInt + k.vs 0 - k.ps 0) ∧
    ¬ 0 ≤ (k.sems 0).value.toInt := by
  obtain ⟨k, hk, ht⟩ : ∃ k, Reach step (fun _ _ => true) (· = start) k ∧ _ :=
    exists_reach step (fun _ _ => true) [.newSemaphore intMax, .v 0]
      (fun k => k.numSems == 1 && k.initial 0 == intMax && k.vs 0 == 1 && k.ps 0 == 0 && (k.sems 0).value == 0x80000000)
      rfl (by decide +kernel)
  simp only [Bool.and_eq_true, beq_iff_eq] at ht
  obtain ⟨⟨⟨⟨hn, hi⟩, hvs⟩, hps⟩, hq⟩ := ht
  refine ⟨k, Reach.mono (fun _ _ _ => trivial) hk, by rw [hn]; exact Nat.one_pos, ?_, ?_, ?_⟩
  · rw [hi]; decide
  · rw [hi, hvs, hps, hq]; decide
  · rw [hq]; decide

end Nachos.Dispatch

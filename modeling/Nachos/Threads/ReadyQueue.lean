/-
  Nachos.Threads.ReadyQueue — the order in which threads get the CPU.

  `FindNextToRun` takes the first thread of the ready list and `ReadyToRun` appends to it, but
  several routines do both, and interrupt handlers append between the two. `Switches` is a run with
  the threads it switched to.
-/

import Nachos.Threads.Custody

namespace Nachos.Dispatch

open Lib List

variable {k k' : Dispatch}

/-- The thread a step switched to. A sleeper that nobody could relieve keeps being the current
    thread while the CPU idles, and may be the one that is switched to. -/
def switched (k k' : Dispatch) : List Tid :=
  if k'.currentThread = k.currentThread ∧ (k.idling = true → k'.idling = true) then [] else [k'.currentThread]

inductive Switches : Dispatch → Dispatch → List Tid → Prop
  | refl (k : Dispatch) : Switches k k []
  | step {k k' k'' : Dispatch} {ts : List Tid} (e : Event) (h : k.step e = .ok k') (w : Switches k' k'' ts) :
      Switches k k'' (switched k k' ++ ts)

/-- The ready list is taken from at the front and added to at the back. -/
def Fed (k k' : Dispatch) : Prop := ∃ readied, k.readyList ++ readied = switched k k' ++ k'.readyList

theorem Fed.stay (hc : k'.currentThread = k.currentThread) (hi : k.idling = true → k'.idling = true) {added : List Tid}
    (hr : k'.readyList = k.readyList ++ added) : Fed k k' := by
  refine ⟨added, ?_⟩
  rw [switched, if_pos ⟨hc, hi⟩, nil_append, hr]

theorem Fed.switch (readied : List Tid) (hn : k'.currentThread ≠ k.currentThread ∨ k.idling = true ∧ k'.idling = false)
    (hr : k.readyList ++ readied = k'.currentThread :: k'.readyList) : Fed k k' := by
  refine ⟨readied, ?_⟩
  have hs : ¬ (k'.currentThread = k.currentThread ∧ (k.idling = true → k'.idling = true)) := by
    rintro ⟨hc, hi⟩
    rcases hn with hn | ⟨hk, hk'⟩
    · exact hn hc
    · rw [hi hk] at hk'
      cases hk'
  rw [switched, if_neg hs, hr]
  rfl

/-! ## One step -/

theorem handlers_readyList (due : List SemId) : ∀ {k : Dispatch}, k.handlers due = .ok k' →
    ∃ woken, k'.readyList = k.readyList ++ woken := by
  induction due with
  | nil =>
    intro k e
    cases e
    exact ⟨[], (append_nil _).symm⟩
  | cons s rest ih =>
    intro k e
    obtain ⟨k1, e1, e2⟩ := bind_eq_ok.mp e
    obtain ⟨woken, hw⟩ := ih e2
    obtain ⟨-, ⟨-, rfl⟩ | ⟨t, q, th, -, -, rfl⟩⟩ := v_eq e1
    · exact ⟨woken, hw⟩
    · refine ⟨t :: woken, ?_⟩
      rw [hw, append_assoc]
      rfl

section

variable {x : Dispatch} {pt : Point} (hc : k.current = some ⟨.running, pt⟩)
include hc

theorem Fed.goOn (hc' : k'.currentThread = k.currentThread) {added : List Tid} (hr : k'.readyList = k.readyList ++ added) :
    Fed k k' := by
  refine .stay hc' (fun hi => ?_) hr
  rw [idling, hc] at hi
  cases hi

theorem Custody.current_not_ready (h : k.Custody) : k.currentThread ∉ k.readyList := by
  intro hm
  have hp := h.seated.mem_iff.mp (show k.currentThread ∈ k.lists .readyList from hm)
  rw [placeOf_eq hc, place_running] at hp
  cases hp

/-- The running thread goes to sleep: the first ready thread runs, or the CPU idles. -/
theorem Custody.fed_sleepLoop (h : k.Custody) (e : x.sleepLoop = .ok k') (hx : x.currentThread = k.currentThread)
    (hl : x.readyList = k.readyList) : Fed k k' := by
  rcases sleepLoop_eq e with rfl | ⟨next, rest, hr, e⟩
  · exact .goOn hc hx (hl.trans (append_nil _).symm)
  obtain ⟨th, -, rfl⟩ := run_eq e
  rw [hl] at hr
  refine .switch [] (.inl fun hn => h.current_not_ready hc ?_) ((append_nil _).trans hr)
  rw [hr, ← hn]
  exact mem_cons_self

theorem Custody.fed_pLoop (h : k.Custody) {s : SemId} {l : IntStatus} (e : x.pLoop s l = .ok k')
    (hx : x.currentThread = k.currentThread) (hl : x.readyList = k.readyList) : Fed k k' := by
  obtain ⟨-, th, -, ⟨-, rfl⟩ | ⟨-, -, e⟩⟩ := pLoop_eq e
  · exact .goOn hc hx (hl.trans (append_nil _).symm)
  · exact h.fed_sleepLoop hc e hx hl

/-- The running thread yields, after handlers have woken others. -/
theorem Custody.fed_yield (h : x.Custody) (hcx : x.current = some ⟨.running, pt⟩) (e : x.yield = .ok k')
    (hx : x.currentThread = k.currentThread) {woken : List Tid} (hl : x.readyList = k.readyList ++ woken) : Fed k k' := by
  rcases yield_eq e with rfl | ⟨next, rest, hr, th, -, e⟩
  · exact .goOn hc hx hl
  obtain ⟨th', -, rfl⟩ := run_eq e
  refine .switch (woken ++ [x.currentThread]) (.inl fun hn => h.current_not_ready hcx ?_) ?_
  · rw [hr, hx, ← hn]
    exact mem_cons_self
  · rw [← append_assoc, ← hl, hr]
    rfl

end

theorem Custody.fed_call (h : k.Custody) (hc : k.current = some ⟨.running, .code⟩) {ev : Event} (e : k.call ev = .ok k') :
    Fed k k' := by
  have same : Fed k k := .goOn hc rfl (append_nil _).symm
  cases ev with
  | setLevel now => cases e; exact .goOn hc rfl (append_nil _).symm
  | newSemaphore initialValue => cases e; exact .goOn hc rfl (append_nil _).symm
  | fork => obtain rfl := fork_eq e; exact .goOn hc rfl rfl
  | yield => exact h.fed_yield hc hc e rfl (append_nil _).symm
  | p s => exact h.fed_pLoop hc (x := { k with level := .intOff }) e rfl rfl
  | v s =>
    obtain ⟨woken, hw⟩ := handlers_readyList [s] (bind_eq_ok.mpr ⟨k', e, rfl⟩)
    exact .goOn hc (h.v e).2.same hw
  | finish =>
    obtain ⟨th, -, e⟩ := finish_eq e
    exact h.fed_sleepLoop hc e rfl rfl
  | tick due yieldOnReturn =>
    obtain ⟨-, rfl⟩ | ⟨k1, e1, e2⟩ := tick_eq e
    · exact same
    obtain ⟨h1, u1⟩ := Custody.handlers due (h.setLevel .intOff) e1
    obtain ⟨woken, hw⟩ := handlers_readyList due e1
    rcases e2 with rfl | e2
    · exact .goOn hc u1.same hw
    · exact Custody.fed_yield hc (h1.setLevel .intOn) (u1.runs _ hc) e2 u1.same hw
  | idle due => cases e; exact same
  | resume => cases e; exact same

theorem Custody.fed_resume (h : k.Custody) {pt : Point} (hc : k.current = some ⟨.running, pt⟩) (e : k.resume pt = .ok k') :
    Fed k k' := by
  have ready : ∀ {k1}, k.afterSwitch = .ok k1 → k1.readyList = k.readyList := by
    intro k1 e1
    rcases afterSwitch_eq e1 with rfl | ⟨t, -, -, rfl⟩ <;> rfl
  cases pt with
  | threadRoot =>
    obtain ⟨th, -, rfl⟩ := modifyThread_eq e
    exact .goOn hc rfl (append_nil _).symm
  | inYield l =>
    obtain ⟨k1, e1, e2⟩ := bind_eq_ok.mp e
    obtain ⟨th, -, rfl⟩ := modifyThread_eq e2
    exact .goOn hc (h.afterSwitch e1).2.2 ((ready e1).trans (append_nil _).symm)
  | inP s l =>
    obtain ⟨k1, e1, e2⟩ := bind_eq_ok.mp e
    exact h.fed_pLoop hc e2 (h.afterSwitch e1).2.2 (ready e1)
  | code => cases e; exact .goOn hc rfl (append_nil _).symm
  | inFinish => cases e; exact .goOn hc rfl (append_nil _).symm

theorem Custody.fed (h : k.Custody) {ev : Event} (e : k.step ev = .ok k') : Fed k k' := by
  obtain rfl | ⟨hc, e⟩ | ⟨due, k1, rfl, hi, e1, e2⟩ | ⟨pt, rfl, hc, e⟩ := step_eq e
  · exact .stay rfl id (append_nil _).symm
  · exact h.fed_call hc e
  · obtain ⟨-, u1⟩ := h.handlers due e1
    obtain ⟨woken, hw⟩ := handlers_readyList due e1
    rcases sleepLoop_eq e2 with rfl | ⟨next, rest, hr, e2⟩
    · exact .stay u1.same u1.idles hw
    · obtain ⟨th, -, rfl⟩ := run_eq e2
      refine .switch woken (.inr ⟨hi, ?_⟩) (hw ▸ hr)
      simp [idling, Dispatch.current]
  · exact h.fed_resume hc e

/-! ## Whole runs -/

/-- The threads of the ready list get the CPU in their order, before any thread that becomes ready
    later: the threads a run switches to, and then those it leaves ready, are the ready ones
    of its start and then those it made ready. -/
theorem ready_in_order (h : Reach step (fun _ _ => True) (· = start) k) {ts : List Tid} (w : Switches k k' ts) :
    (∃ readied, k.readyList ++ readied = ts ++ k'.readyList) ∧
    ∀ i t, k.readyList[i]? = some t → i < ts.length → ts[i]? = some t := by
  have hq : ∃ readied, k.readyList ++ readied = ts ++ k'.readyList := by
    induction w with
    | refl k => exact ⟨[], append_nil _⟩
    | step e hs w ih =>
      obtain ⟨readied, hr⟩ := (reach_custody h).fed hs
      obtain ⟨more, hm⟩ := ih (.step e h trivial hs)
      refine ⟨readied ++ more, ?_⟩
      rw [← append_assoc, hr, append_assoc, hm, append_assoc]
  refine ⟨hq, ?_⟩
  intro i t ht hi
  obtain ⟨readied, hr⟩ := hq
  obtain ⟨hlt, -⟩ := List.getElem?_eq_some_iff.mp ht
  rw [← getElem?_append_left hi, ← hr, getElem?_append_left hlt, ht]

/-- The main thread forks two threads and yields; the first of them yields. -/
theorem ready_in_order_of_two : ∃ k k', k.readyList = [1, 2] ∧ Switches k k' [1, 2] ∧ k'.readyList = [0, 1] ∧
    ∃ readied, k.readyList ++ readied = [1, 2] ++ k'.readyList := by
  have h : Reach step (fun _ _ => True) (· = start) _ := .step .fork (.step .fork (.init rfl) trivial rfl) trivial rfl
  have w := fun k' ts (w : Switches _ k' ts) => And.intro w (ready_in_order h w).1
  have hw := w _ _ (.step .yield rfl (.step .resume rfl (.step .yield rfl (.refl _))))
  exact ⟨_, _, rfl, hw.1, rfl, hw.2⟩

end Nachos.Dispatch

/-
  Nachos.Threads.Carcass — who deletes a thread that has finished.

  `Thread::Finish` leaves itself in `threadToBeDestroyed`, one global, for `Scheduler::Run`
  to delete after its SWITCH. A thread that has run before goes on inside `Run`; a new one
  starts at `ThreadRoot` and deletes nothing, and when it finishes in its turn it overwrites
  the carcass it found (`carcass_overwritten`). In a run where `Finish` never switches to a
  new thread, each carcass is deleted by the thread switched to, before any thread code runs
  (`finished_destroyed`).
-/

import Nachos.Threads.Custody

namespace Nachos.Dispatch

open Lib
open Function (update update_of_ne update_self)

/-- The thread goes on inside `Scheduler::Run`, after its SWITCH. -/
def Point.inRun : Point → Bool
  | .inYield _ | .inP .. => true
  | .code | .threadRoot | .inFinish => false

/-- The next thread to run has never run. -/
def nextIsNew (k : Dispatch) : Bool := (k.readyList.head?.bind k.threads).any (·.point == .threadRoot)

/-- The records of the threads that wait for the CPU and of those that have finished. -/
structure Remains (k : Dispatch) : Prop where
  ready : ∀ t th, k.threads t = some th → th.status = .ready → th.point = .threadRoot ∨ th.point.inRun = true
  kept : ∀ t, k.threadToBeDestroyed = some t → k.threads t ≠ none
  deleted : ∀ t ∈ k.finished, k.threadToBeDestroyed = some t ∨ k.threads t = none

/-- A carcass waits only while `Sleep` looks for a thread, or for the current one to go on
    inside `Run`. -/
structure Tidy (k : Dispatch) : Prop extends Remains k where
  idle : k.idling = true → k.readyList = []
  pending : k.threadToBeDestroyed ≠ none →
    k.idling = true ∨ ∃ pt, k.current = some ⟨.running, pt⟩ ∧ pt.inRun = true

variable {pt : Point} {l : IntStatus} {s : SemId} {ev : Event}

section

variable {k k' : Dispatch} {t : Tid} {th : Thread}

theorem idling_of_running (hc : k.current = some ⟨.running, pt⟩) : ¬ k.idling = true :=
  fun h => (idling_iff hc).mp h rfl

/-- Thread code runs with nothing left to delete. -/
theorem Tidy.clear (h : k.Tidy) (hc : k.current = some ⟨.running, pt⟩) (hpt : pt.inRun = false) :
    k.threadToBeDestroyed = none := by
  by_contra hne
  rcases h.pending hne with hid | ⟨pt', hc', hp'⟩
  · exact idling_of_running hc hid
  · cases hc.symm.trans hc'
    rw [hpt] at hp'
    cases hp'

theorem Tidy.of_running (h : k.Remains) (hc : k.current = some ⟨.running, pt⟩)
    (hd : k.threadToBeDestroyed ≠ none → pt.inRun = true) : k.Tidy :=
  ⟨h, fun hid => absurd hid (idling_of_running hc), fun hne => .inr ⟨pt, hc, hd hne⟩⟩

/-- Only records matter, and of the lists only who has finished. -/
theorem Remains.congr (h : k.Remains) (ht : k'.threads = k.threads)
    (hd : k'.threadToBeDestroyed = k.threadToBeDestroyed) (hf : k'.finished = k.finished) : k'.Remains := by
  refine ⟨?_, ?_, ?_⟩
  · rw [ht]; exact h.ready
  · rw [ht, hd]; exact h.kept
  · rw [ht, hd, hf]; exact h.deleted

/-- Changing the record of a thread that has one. -/
theorem Remains.set (h : k.Remains) {th' : Thread} (ht : k.threads t = some th)
    (hr : th'.status = .ready → th'.point = .threadRoot ∨ th'.point.inRun = true)
    (hth : k'.threads = update k.threads t (some th')) (hd : k'.threadToBeDestroyed = k.threadToBeDestroyed)
    (hf : k'.finished = k.finished) : k'.Remains := by
  refine ⟨?_, ?_, ?_⟩
  · intro u x hx hst
    rw [hth] at hx
    rcases update_some_iff.mp hx with ⟨-, rfl⟩ | ⟨-, hx⟩
    · exact hr hst
    · exact h.ready u x hx hst
  · intro u hu
    rw [hth]
    by_cases e : u = t
    · subst e; simp
    · rw [update_of_ne e]; exact h.kept u (hd ▸ hu)
  · intro u hu
    rw [hf] at hu
    rw [hd, hth]
    refine (h.deleted u hu).imp_right ?_
    intro hn
    have e : u ≠ t := fun e => by rw [e, ht] at hn; cases hn
    rw [update_of_ne e]
    exact hn

/-- The current thread goes on, with nothing to delete. -/
theorem Remains.goOn (h : k.Remains) (hd : k.threadToBeDestroyed = none) {pt' : Point}
    (hcr : k.current = some ⟨.running, pt⟩) (hc : k'.currentThread = k.currentThread)
    (ht : k'.threads = update k.threads k.currentThread (some ⟨.running, pt'⟩))
    (hd' : k'.threadToBeDestroyed = k.threadToBeDestroyed) (hf : k'.finished = k.finished) : k'.Tidy := by
  have hc' : k'.current = some ⟨.running, pt'⟩ := by
    rw [Dispatch.current, ht, hc, update_self]
  refine Tidy.of_running ?_ hc' (fun hne => absurd (hd'.trans hd) hne)
  refine h.set hcr ?_ ht hd' hf
  intro hst
  cases hst

/-! ## Switching -/

/-- After a switch, a carcass is left to a thread that goes on inside `Run`. -/
theorem Remains.run (h : k.Remains) (hn : k.threadToBeDestroyed ≠ none → ∀ th, k.threads t = some th → th.point.inRun = true)
    {l : List Tid} (e : { k with readyList := l }.run t = .ok k') : k'.Tidy := by
  obtain ⟨th, ht, rfl⟩ := run_eq e
  have hc : Dispatch.current { k with
      readyList := l
      currentThread := t
      threads := update k.threads t (some { th with status := .running }) } = some ⟨.running, th.point⟩ :=
    update_self ..
  refine Tidy.of_running ?_ hc (fun hne => hn hne th ht)
  refine h.set (t := t) ht ?_ rfl rfl rfl
  intro hst
  cases hst

theorem Remains.sleepLoop (h : k.Remains) (hid : k.idling = true)
    (hn : k.threadToBeDestroyed ≠ none → ∀ t ∈ k.readyList.head?, ∀ th, k.threads t = some th → th.point.inRun = true)
    (e : k.sleepLoop = .ok k') : k'.Tidy := by
  unfold Dispatch.sleepLoop findNextToRun at e
  cases hl : k.readyList with
  | nil =>
    rw [hl] at e
    cases e
    exact ⟨h.congr rfl rfl rfl, fun _ => rfl, fun _ => .inl hid⟩
  | cons next rest =>
    rw [hl] at e
    exact h.run (fun hne => hn hne next (by simp [hl])) e

theorem Remains.yield (h : k.Remains) (hd : k.threadToBeDestroyed = none) (hc : k.current = some ⟨.running, pt⟩)
    (e : k.yield = .ok k') : k'.Tidy := by
  rcases yield_eq e with rfl | ⟨next, rest, -, th, hth, e⟩
  · exact Tidy.of_running h hc (fun hne => absurd hd hne)
  have hm : Remains { k with
      threads := update k.threads k.currentThread (some ⟨.ready, .inYield k.level⟩)
      readyList := rest ++ [k.currentThread]
      level := .intOff } := h.set hth (fun _ => .inr rfl) rfl rfl rfl
  exact hm.run (fun hne => absurd hd hne) e

theorem Remains.pLoop (h : k.Remains) (hd : k.threadToBeDestroyed = none) (hc : k.current = some ⟨.running, pt⟩)
    (e : k.pLoop s l = .ok k') : k'.Tidy := by
  obtain ⟨-, th, hth, ⟨-, rfl⟩ | ⟨-, -, e⟩⟩ := pLoop_eq e
  · cases hc.symm.trans hth
    exact h.goOn hd hc rfl rfl rfl rfl
  refine Remains.sleepLoop ?_ ?_ ?_ e
  · refine h.set hth ?_ rfl rfl rfl
    intro hst
    cases hst
  · simp [idling, Dispatch.current]
  · intro hne
    exact absurd hd hne

/-! ## Waking -/

/-- A thread that `V` wakes goes on inside `Run`, in the `Sleep` of its `P`. -/
theorem Remains.v (hc : k.Custody) (h : k.Remains) (e : k.v s = .ok k') :
    k'.Remains ∧ k'.threadToBeDestroyed = k.threadToBeDestroyed ∧
      ((∀ t ∈ k.readyList, ∀ th, k.threads t = some th → th.point.inRun = true) →
        ∀ t ∈ k'.readyList, ∀ th, k'.threads t = some th → th.point.inRun = true) := by
  obtain ⟨-, ⟨-, rfl⟩ | ⟨t, q, th, hq, ht, rfl⟩⟩ := v_eq e
  · exact ⟨h.congr rfl rfl rfl, rfl, id⟩
  have hs := hc.seated.seat_head (show k.lists (.queue s) = t :: q from hq)
  rw [placeOf_eq ht, place_queue] at hs
  obtain ⟨-, l, hpt⟩ := hs
  have hr : th.point.inRun = true := by rw [hpt]; rfl
  refine ⟨h.set ht ?_ rfl rfl rfl, rfl, ?_⟩
  · intro _
    exact .inr hr
  intro ha u hu x hx
  rcases update_some_iff.mp hx with ⟨-, rfl⟩ | ⟨eu, hx⟩
  · exact hr
  · have hm := (List.mem_append.mp hu).resolve_right fun hu => eu (List.mem_singleton.mp hu)
    exact ha u hm x hx

theorem Remains.handlers (due : List SemId) : ∀ {k : Dispatch}, k.Custody → k.Remains → k.handlers due = .ok k' →
    k'.Remains ∧ k'.threadToBeDestroyed = k.threadToBeDestroyed ∧
      ((∀ t ∈ k.readyList, ∀ th, k.threads t = some th → th.point.inRun = true) →
        ∀ t ∈ k'.readyList, ∀ th, k'.threads t = some th → th.point.inRun = true) := by
  induction due with
  | nil => intro k hc h e; cases e; exact ⟨h, rfl, id⟩
  | cons s rest ih =>
    intro k hc h e
    obtain ⟨k1, e1, e2⟩ := bind_eq_ok.mp e
    obtain ⟨h1, d1, r1⟩ := h.v hc e1
    obtain ⟨h2, d2, r2⟩ := ih (hc.v e1).1 h1 e2
    exact ⟨h2, d2.trans d1, fun ha => r2 (r1 ha)⟩

theorem Remains.fork (hc : k.Custody) (h : k.Remains) (e : k.fork = .ok k') : k'.Remains := by
  have hk' := fork_eq e
  have ht : ∀ u, u ≠ k.created → k'.threads u = k.threads u := by
    intro u hu
    rw [hk']
    exact update_of_ne hu ..
  subst hk'
  refine ⟨?_, ?_, ?_⟩
  · intro u x hx hst
    rcases update_some_iff.mp hx with ⟨-, rfl⟩ | ⟨-, hx⟩
    · exact .inl rfl
    · exact h.ready u x hx hst
  · intro u hu
    by_cases eu : u = k.created
    · subst eu; simp
    · rw [ht u eu]; exact h.kept u hu
  · intro u hu
    have eu : u ≠ k.created := Nat.ne_of_lt (hc.past u hu)
    rw [ht u eu]
    exact h.deleted u hu

theorem afterSwitch_current (e : k.afterSwitch = .ok k') : k'.current = k.current := by
  rcases afterSwitch_eq e with rfl | ⟨t, -, hne, rfl⟩
  · rfl
  · exact update_of_ne (Ne.symm hne) ..

theorem afterSwitch_finished (e : k.afterSwitch = .ok k') : k'.finished = k.finished := by
  rcases afterSwitch_eq e with rfl | ⟨t, -, -, rfl⟩
  · rfl
  · rfl

/-- Once `Run` has been switched back to, nothing is left to delete. -/
theorem Remains.afterSwitch (h : k.Remains) (e : k.afterSwitch = .ok k') :
    k'.Remains ∧ k'.threadToBeDestroyed = none := by
  unfold Dispatch.afterSwitch at e
  split at e
  · rename_i hd
    cases e
    exact ⟨h, hd⟩
  · rename_i t hd
    split at e
    · cases e
    cases e
    refine ⟨⟨?_, ?_, ?_⟩, rfl⟩
    · exact fun u x hx hst => h.ready u x (update_none_iff.mp hx).2 hst
    · intro u hu
      cases hu
    · intro u hu
      right
      by_cases eu : u = t
      · subst eu; exact update_self ..
      · rcases h.deleted u hu with hu' | hu'
        · exact absurd (Option.some.inj (hu'.symm.trans hd)) eu
        · exact (update_of_ne eu ..).trans hu'

/-! ## Steps -/

/-- `Finish` leaves its thread to the next one, which goes on inside `Run` unless it is new. -/
theorem Tidy.finish (hc : k.Custody) (h : k.Tidy) (hcr : k.current = some ⟨.running, .code⟩) (hn : k.nextIsNew = false)
    (e : k.finish = .ok k') : k'.Tidy := by
  have hd : k.threadToBeDestroyed = none := h.clear hcr rfl
  obtain ⟨th, hth, e⟩ := finish_eq e
  refine Remains.sleepLoop ⟨?_, ?_, ?_⟩ ?_ ?_ e
  · intro u x hx hst
    rcases update_some_iff.mp hx with ⟨-, rfl⟩ | ⟨-, hx⟩
    · cases hst
    · exact h.ready u x hx hst
  · intro u hu
    cases hu
    simp
  · intro u hu
    by_cases eu : u = k.currentThread
    · left; rw [eu]
    right
    have hf : u ∈ k.finished := (List.mem_cons.mp hu).resolve_left eu
    rcases h.deleted u hf with hu' | hu'
    · rw [hd] at hu'; cases hu'
    · exact (update_of_ne eu ..).trans hu'
  · simp [idling, Dispatch.current]
  · intro _ u hu x hx
    have hh : k.readyList.head? = some u := hu
    have hs := hc.seated.mem_iff.mp (show u ∈ k.lists .readyList from List.mem_of_mem_head? hh)
    have eu : u ≠ k.currentThread := by
      intro eu
      rw [eu, placeOf_eq hcr] at hs
      cases hs
    have hx : k.threads u = some x := (update_of_ne eu ..).symm.trans hx
    rw [placeOf_eq hx] at hs
    have hst : x.status = .ready := by
      obtain ⟨st, pt⟩ := x
      cases st <;> cases pt <;> simp_all [Thread.place]
    rcases h.ready u x hx hst with hpt | hpt
    · simp [nextIsNew, hh, hx, hpt] at hn
    · exact hpt

/-- The only thread code that can leave a carcass is `Finish`. -/
theorem Tidy.call (hc : k.Custody) (h : k.Tidy) (hcr : k.current = some ⟨.running, .code⟩)
    (hev : ev = .finish → k.nextIsNew = false) (e : k.call ev = .ok k') : k'.Tidy := by
  have hd : k.threadToBeDestroyed = none := h.clear hcr rfl
  have hr : ∀ {k' : Dispatch}, k'.Remains → k'.threadToBeDestroyed = none → k'.current = some ⟨.running, .code⟩ →
      k'.Tidy := fun h' hd' hc' => Tidy.of_running h' hc' (fun hne => absurd hd' hne)
  cases ev with
  | setLevel now => cases e; exact hr (h.congr rfl rfl rfl) hd hcr
  | newSemaphore initialValue => cases e; exact hr (h.congr rfl rfl rfl) hd hcr
  | fork =>
    have hrm := h.toRemains.fork hc e
    have hk' := fork_eq e
    subst hk'
    refine hr hrm hd ?_
    have hl := (hc.roll k.currentThread).mp ⟨_, hcr, by simp⟩
    exact (update_of_ne (Nat.ne_of_lt hl.1) ..).trans hcr
  | yield => exact h.toRemains.yield hd hcr e
  | p s =>
    have h' : Remains { k with level := .intOff } := h.congr rfl rfl rfl
    exact h'.pLoop hd hcr e
  | v s =>
    obtain ⟨h', hd', -⟩ := h.toRemains.v hc e
    exact hr h' (hd'.trans hd) ((hc.v e).2.runs _ hcr)
  | finish => exact h.finish hc hcr (hev rfl) e
  | tick due yieldOnReturn =>
    obtain ⟨-, rfl⟩ | ⟨k1, e1, e2⟩ := tick_eq e
    · exact h
    have h0 : Remains { k with level := .intOff } := h.congr rfl rfl rfl
    obtain ⟨h1, hd1, -⟩ := Remains.handlers due (hc.setLevel .intOff) h0 e1
    have hc1 := (Custody.handlers due (hc.setLevel .intOff) e1).2.runs _ hcr
    have h2 : Remains { k1 with level := .intOn } := h1.congr rfl rfl rfl
    rcases e2 with rfl | e2
    · exact hr h2 (hd1.trans hd) hc1
    · exact h2.yield (hd1.trans hd) hc1 e2
  | idle due => cases e; exact h
  | resume => cases e; exact h

theorem pLoop_graves (e : k.pLoop s l = .ok k') :
    k'.threadToBeDestroyed = k.threadToBeDestroyed ∧ k'.finished = k.finished := by
  obtain ⟨-, th, -, ⟨-, rfl⟩ | ⟨-, -, e⟩⟩ := pLoop_eq e
  · exact ⟨rfl, rfl⟩
  rcases sleepLoop_eq e with rfl | ⟨next, rest, -, e⟩
  · exact ⟨rfl, rfl⟩
  · obtain ⟨th', -, rfl⟩ := run_eq e
    exact ⟨rfl, rfl⟩

/-- A thread that goes on inside `Run` leaves nothing to delete. -/
theorem resume_graves (h : k.Remains) (hpt : pt.inRun = true) (e : k.resume pt = .ok k') :
    k'.threadToBeDestroyed = none ∧ k'.finished = k.finished := by
  cases pt with
  | inYield l =>
    obtain ⟨k1, e1, e2⟩ := bind_eq_ok.mp e
    obtain ⟨-, hd1⟩ := h.afterSwitch e1
    have hf1 := afterSwitch_finished e1
    obtain ⟨th, -, rfl⟩ := modifyThread_eq e2
    exact ⟨hd1, hf1⟩
  | inP s l =>
    obtain ⟨k1, e1, e2⟩ := bind_eq_ok.mp e
    obtain ⟨-, hd1⟩ := h.afterSwitch e1
    obtain ⟨hd2, hf2⟩ := pLoop_graves e2
    exact ⟨hd2.trans hd1, hf2.trans (afterSwitch_finished e1)⟩
  | code | threadRoot | inFinish => cases hpt

/-- Going on after a switch deletes the carcass, if there is one. -/
theorem Tidy.resume (h : k.Tidy) (hcr : k.current = some ⟨.running, pt⟩) (e : k.resume pt = .ok k') : k'.Tidy := by
  have hc : ∀ {k1 k' : Dispatch} {pt : Point}, k1.Remains → k1.threadToBeDestroyed = none →
      k1.current = some ⟨.running, pt⟩ → k1.setPoint .code = .ok k' → k'.Tidy := by
    intro k1 k' pt h1 hd1 hc1 e
    obtain ⟨th, hth, rfl⟩ := modifyThread_eq e
    cases hc1.symm.trans hth
    exact h1.goOn hd1 hc1 rfl rfl rfl rfl
  cases pt with
  | threadRoot =>
    have h' : Remains { k with level := .intOn } := h.congr rfl rfl rfl
    exact hc h' (h.clear hcr rfl) hcr e
  | inYield l =>
    obtain ⟨k1, e1, e2⟩ := bind_eq_ok.mp e
    obtain ⟨h1, hd1⟩ := h.toRemains.afterSwitch e1
    have h2 : Remains { k1 with level := l } := h1.congr rfl rfl rfl
    exact hc h2 hd1 ((afterSwitch_current e1).trans hcr) e2
  | inP s l =>
    obtain ⟨k1, e1, e2⟩ := bind_eq_ok.mp e
    obtain ⟨h1, hd1⟩ := h.toRemains.afterSwitch e1
    exact h1.pLoop hd1 ((afterSwitch_current e1).trans hcr) e2
  | code => cases e; exact h
  | inFinish => cases e; exact h

theorem step_tidy (hc : k.Custody) (h : k.Tidy) (hev : ev = .finish → k.nextIsNew = false) (e : k.step ev = .ok k') :
    k'.Tidy := by
  obtain rfl | ⟨hcr, e⟩ | ⟨due, k1, rfl, hid, e1, e2⟩ | ⟨pt, rfl, hcr, e⟩ := step_eq e
  · exact h
  · exact h.call hc hcr hev e
  · obtain ⟨h1, -, hw⟩ := Remains.handlers due hc h.toRemains e1
    have he : k.readyList = [] := h.idle hid
    refine h1.sleepLoop ((hc.handlers due e1).2.idles hid) ?_ e2
    intro _ t ht
    refine hw ?_ t (List.mem_of_mem_head? ht)
    intro u hu
    rw [he] at hu
    cases hu
  · exact h.resume hcr e

end

/-! ## Whole runs -/

theorem start_tidy : start.Tidy := by
  have hc : start.current = some ⟨.running, .code⟩ := rfl
  refine Tidy.of_running ⟨?_, ?_, ?_⟩ hc (fun hne => absurd rfl hne)
  · intro t th ht hst
    simp only [start] at ht
    split at ht
    · cases ht; cases hst
    · cases ht
  · intro t ht
    cases ht
  · intro t ht
    cases ht

/-- A thread finishes only when the next thread to run has run before. -/
def FinishesIntoRun (k : Dispatch) (e : Event) : Prop := e = .finish → k.nextIsNew = false

theorem reach_tidy {k : Dispatch} (h : Reach step FinishesIntoRun (· = start) k) : k.Custody ∧ k.Tidy := by
  refine h.inv (P := fun k => k.Custody ∧ k.Tidy) ?_ ?_
  · intro s hs
    subst hs
    exact ⟨start_custody, start_tidy⟩
  · intro s e s' hs hok hst
    exact ⟨step_custody hs.1 e hst, step_tidy hs.1 hs.2 hok hst⟩

/-- In a run where no thread finishes with a new thread next to run, `Finish` always finds
    `threadToBeDestroyed` empty, a thread waiting there has a record to delete, the next thread
    to go on deletes it, and when thread code runs every thread that has finished is gone. -/
theorem finished_destroyed {k : Dispatch} (h : Lib.Reach step FinishesIntoRun (· = start) k) :
    (k.inCode = true → k.threadToBeDestroyed = none ∧ ∀ t ∈ k.finished, k.threads t = none) ∧
    ∀ t ∈ k.finished, k.threads t ≠ none → k.threadToBeDestroyed = some t ∧
      ∀ k', k.idling = false → k.step .resume = .ok k' → k'.threadToBeDestroyed = none ∧ k'.threads t = none := by
  obtain ⟨hc, ht⟩ := reach_tidy h
  refine ⟨?_, ?_⟩
  · intro hcode
    have hd := ht.clear (inCode_iff.mp hcode) rfl
    refine ⟨hd, fun t hfin => (ht.deleted t hfin).resolve_left ?_⟩
    rw [hd]
    simp
  · intro t hfin hrec
    have hd := (ht.deleted t hfin).resolve_right hrec
    refine ⟨hd, ?_⟩
    intro k' hidle e
    obtain ⟨-, ht'⟩ : k'.Custody ∧ k'.Tidy := reach_tidy (h.step .resume (fun e => by cases e) e)
    -- the current thread is not idling, so it is the one that goes on inside `Run`
    rcases ht.pending (by simp [hd]) with hi | ⟨pt, hcur, hpt⟩
    · rw [hidle] at hi; cases hi
    simp only [step, hcur] at e
    obtain ⟨hd', hf'⟩ := resume_graves ht.toRemains hpt e
    refine ⟨hd', (ht'.deleted t (hf' ▸ hfin)).resolve_left ?_⟩
    rw [hd']
    simp

/-- The main thread yields to the thread it forked, which finishes with the main thread next:
    back in its code, the main thread has deleted it. -/
theorem finished_destroyed_by_main : ∃ k, Lib.Reach step FinishesIntoRun (· = start) k ∧ k.inCode = true ∧
    k.finished = [1] ∧ k.threadToBeDestroyed = none ∧ k.threads 1 = none := by
  obtain ⟨k, hk, ht⟩ : ∃ k, Reach step (fun k e => e != .finish || !k.nextIsNew) (· = start) k ∧ _ :=
    exists_reach step (fun k e => e != .finish || !k.nextIsNew) [.fork, .yield, .resume, .finish, .resume]
      (fun k => k.inCode && k.finished == [1]) rfl (by decide +kernel)
  simp only [Bool.and_eq_true, beq_iff_eq] at ht
  have hk : Reach step FinishesIntoRun (· = start) k := by
    refine hk.mono ?_
    intro s e hok hfin
    subst hfin
    simpa using hok
  obtain ⟨hd, hgone⟩ := (finished_destroyed hk).1 ht.1
  exact ⟨k, hk, ht.1, ht.2, hd, hgone 1 (by simp [ht.2])⟩

/-- Two threads are forked; the first finishes and the second, a new thread, starts. When it
    finishes too, the first is still in `threadToBeDestroyed` and is overwritten: it has its
    record still, and nothing refers to it. -/
theorem carcass_overwritten : ∃ k k', Lib.Reach step (fun _ _ => True) (· = start) k ∧ k.inCode = true ∧
    k.threadToBeDestroyed = some 1 ∧ k.step .finish = .ok k' ∧ k'.finished = [2, 1] ∧
    k'.threadToBeDestroyed = some 2 ∧ k'.threads 1 ≠ none := by
  obtain ⟨k, hk, ht⟩ : ∃ k, Reach step (fun _ _ => true) (· = start) k ∧ _ := exists_reach step (fun _ _ => true)
    [.fork, .fork, .yield, .resume, .finish, .resume]
    (fun k => k.inCode && k.threadToBeDestroyed == some 1 && (k.step .finish).toOption.any fun k' =>
      k'.finished == [2, 1] && k'.threadToBeDestroyed == some 2 && (k'.threads 1).isSome) rfl (by decide +kernel)
  simp only [Bool.and_eq_true, beq_iff_eq] at ht
  obtain ⟨⟨hcode, hd⟩, hstep⟩ := ht
  obtain ⟨k', e, ht'⟩ := exists_ok _ hstep
  simp only [Bool.and_eq_true, beq_iff_eq, Option.isSome_iff_ne_none] at ht'
  exact ⟨k, k', hk.mono (fun _ _ _ => trivial), hcode, hd, e, ht'.1.1, ht'.1.2, ht'.2⟩

end Nachos.Dispatch

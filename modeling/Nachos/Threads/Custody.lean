/-
  Nachos.Threads.Custody — where every thread is, over whole runs.

  A thread's record says where it must be: on the CPU, on the ready list, on the queue of
  the semaphore it sleeps at, or nowhere once it is in `Finish`. `Custody` says that the
  lists hold exactly the threads whose records say so, each once, and that a thread has a
  record exactly from `Fork` to `Finish`. Every routine is a few moves of one thread from
  one list to another (`Lib.Seated`).
-/

import Nachos.Lib.Seats
import Nachos.Lib.Stores
import Nachos.Threads.Dispatch

namespace Nachos.Dispatch

open Lib List
open Function (update update_idem update_of_ne update_self)

/-! ## Places -/

inductive Place where
  | cpu
  | readyList
  | queue (s : SemId)
  deriving DecidableEq, Repr

def Place.status : Place → ThreadStatus
  | .cpu => .running
  | .readyList => .ready
  | .queue _ => .blocked

/-- The threads at a place; the current thread leaves the CPU when it stops running. -/
def lists (k : Dispatch) : Place → List Tid
  | .cpu => if k.current.any (·.status == .running) then [k.currentThread] else []
  | .readyList => k.readyList
  | .queue s => (k.sems s).queue

/-- Where a thread with this record has to be. -/
def Thread.place (th : Thread) : Option Place :=
  match th.status, th.point with
  | .running, _ => some .cpu
  | .ready, _ => some .readyList
  | .blocked, .inP s _ => some (.queue s)
  | _, _ => none

def placeOf (k : Dispatch) (t : Tid) : Option Place := (k.threads t).bind Thread.place

/-- A thread sleeps in `P` or in `Finish` only, and never leaves `Finish`. -/
def Thread.sound (th : Thread) : Bool :=
  match th.status, th.point with
  | .running, .inFinish | .ready, .inFinish => false
  | .running, _ | .ready, _ => true
  | .blocked, .inP .. | .blocked, .inFinish => true
  | _, _ => false

/-- The records: which threads have one, and in what state. -/
structure Roll (k : Dispatch) : Prop where
  sound : ∀ t th, k.threads t = some th → th.sound = true
  current : ∃ th, k.current = some th
  /-- A thread that has been forked has a record, outside `Finish`, until it finishes. -/
  roll : ∀ t, (∃ th, k.threads t = some th ∧ th.point ≠ .inFinish) ↔ t < k.created ∧ t ∉ k.finished
  past : ∀ t ∈ k.finished, t < k.created
  unborn : ∀ t, k.created ≤ t → k.threads t = none
  carcass : ∀ t, k.threadToBeDestroyed = some t → t ∈ k.finished

structure Custody (k : Dispatch) : Prop extends Roll k where
  seated : Seated k.lists k.placeOf
  unmade : ∀ s, k.numSems ≤ s → (k.sems s).queue = []

variable {s : SemId} {pt pt' : Point} {l : IntStatus}

section

variable {k k' : Dispatch} {t : Tid} {th : Thread}

@[simp] theorem place_running (p : Point) : Thread.place ⟨.running, p⟩ = some .cpu := by cases p <;> rfl
@[simp] theorem place_ready (p : Point) : Thread.place ⟨.ready, p⟩ = some .readyList := by cases p <;> rfl
@[simp] theorem place_inP (s : SemId) (l : IntStatus) : Thread.place ⟨.blocked, .inP s l⟩ = some (.queue s) := rfl
@[simp] theorem place_inFinish : Thread.place ⟨.blocked, .inFinish⟩ = none := rfl

theorem place_cpu : th.place = some .cpu ↔ th.status = .running := by
  obtain ⟨st, p⟩ := th
  cases st <;> cases p <;> simp [Thread.place]

theorem place_queue : th.place = some (.queue s) ↔ th.status = .blocked ∧ ∃ l, th.point = .inP s l := by
  obtain ⟨st, p⟩ := th
  cases st <;> cases p <;> simp [Thread.place]

theorem placeOf_eq (h : k.threads t = some th) : k.placeOf t = th.place := by simp [placeOf, h]

theorem lists_cpu (h : k.current = some th) :
    k.lists .cpu = if th.status = .running then [k.currentThread] else [] := by
  simp [lists, h]

theorem placeOf_update (ht : k'.threads = update k.threads t (some th)) (u : Tid) :
    k'.placeOf u = if u = t then th.place else k.placeOf u := by
  simp only [placeOf, ht]
  by_cases e : u = t
  · subst e; simp
  · simp [e]

/-! ## What the routines do -/

theorem modifyThread_eq {f : Thread → Thread} (h : k.modifyThread t f = .ok k') :
    ∃ th, k.threads t = some th ∧ k' = { k with threads := update k.threads t (some (f th)) } := by
  unfold modifyThread at h
  split at h
  · rename_i th ht; cases h; exact ⟨th, ht, rfl⟩
  · cases h

theorem readyToRun_eq (h : k.readyToRun t = .ok k') :
    ∃ th, k.threads t = some th ∧ k' = { k with
      threads := update k.threads t (some { th with status := .ready })
      readyList := k.readyList ++ [t] } := by
  obtain ⟨k1, h1, h2⟩ := bind_eq_ok.mp h
  obtain ⟨th, ht, rfl⟩ := modifyThread_eq h1
  cases h2
  exact ⟨th, ht, rfl⟩

theorem run_eq (h : k.run t = .ok k') :
    ∃ th, k.threads t = some th ∧ k' = { k with
      currentThread := t
      threads := update k.threads t (some { th with status := .running }) } := by
  obtain ⟨th, ht, rfl⟩ := modifyThread_eq h
  exact ⟨th, ht, rfl⟩

theorem sleepLoop_eq (h : k.sleepLoop = .ok k') :
    k' = k ∨ ∃ next rest, k.readyList = next :: rest ∧ { k with readyList := rest }.run next = .ok k' := by
  unfold sleepLoop findNextToRun at h
  cases hl : k.readyList with
  | nil =>
    left
    rw [hl] at h
    cases h
    rw [tail_nil, ← hl]
  | cons next rest =>
    right
    rw [hl] at h
    exact ⟨next, rest, rfl, h⟩

theorem sleep_eq (h : k.sleep = .ok k') :
    k.level = .intOff ∧ ∃ th, k.current = some th ∧
      { k with threads := update k.threads k.currentThread (some { th with status := .blocked }) }.sleepLoop
        = .ok k' := by
  unfold sleep at h
  split at h
  · rename_i hl
    obtain ⟨k1, h1, h2⟩ := bind_eq_ok.mp h
    obtain ⟨th, ht, rfl⟩ := modifyThread_eq h1
    exact ⟨hl, th, ht, h2⟩
  · cases h

theorem yield_eq (h : k.yield = .ok k') :
    k' = k ∨ ∃ next rest, k.readyList = next :: rest ∧ ∃ th, k.current = some th ∧
      { k with
        threads := update k.threads k.currentThread (some ⟨.ready, .inYield k.level⟩)
        readyList := rest ++ [k.currentThread]
        level := .intOff }.run next = .ok k' := by
  unfold yield findNextToRun at h
  cases hl : k.readyList with
  | nil => left; rw [hl] at h; cases h; rfl
  | cons next rest =>
    right
    rw [hl] at h
    obtain ⟨k1, h1, h2⟩ := bind_eq_ok.mp h
    obtain ⟨k2, h3, h4⟩ := bind_eq_ok.mp h2
    obtain ⟨th, ht, rfl⟩ := readyToRun_eq h1
    obtain ⟨th', ht', rfl⟩ := modifyThread_eq h3
    simp only [update_self, Option.some.injEq] at ht'
    subst ht'
    simp only [update_idem] at h4
    exact ⟨next, rest, rfl, th, ht, h4⟩

theorem v_eq (h : k.v s = .ok k') : s < k.numSems ∧
    ((k.sems s).queue = [] ∧ k' = { k with
        sems := update k.sems s ⟨(k.sems s).value + 1, []⟩
        vs := update k.vs s (k.vs s + 1) } ∨
      ∃ t q th, (k.sems s).queue = t :: q ∧ k.threads t = some th ∧ k' = { k with
        threads := update k.threads t (some { th with status := .ready })
        readyList := k.readyList ++ [t]
        sems := update k.sems s ⟨(k.sems s).value + 1, q⟩
        vs := update k.vs s (k.vs s + 1) }) := by
  unfold v at h
  split at h
  · rename_i hs
    refine ⟨hs, ?_⟩
    cases hq : (k.sems s).queue with
    | nil =>
      simp only [IntSemaphore.v, hq, head?_nil, tail_nil] at h
      cases h
      exact .inl ⟨rfl, rfl⟩
    | cons t q =>
      simp only [IntSemaphore.v, hq, head?_cons, tail_cons] at h
      obtain ⟨th, ht, rfl⟩ := readyToRun_eq h
      exact .inr ⟨t, q, th, rfl, ht, rfl⟩
  · cases h

theorem fork_eq (h : k.fork = .ok k') : k' = { k with
    threads := update k.threads k.created (some ⟨.ready, .threadRoot⟩)
    created := k.created + 1
    readyList := k.readyList ++ [k.created] } := by
  obtain ⟨th, ht, rfl⟩ := readyToRun_eq h
  simp only [update_self, Option.some.injEq] at ht
  subst ht
  simp only [update_idem]

/-! ## The records after one change -/

/-- A thread outside `Finish` gets another record outside `Finish`. -/
theorem Roll.set (h : k.Roll) {th' : Thread} (ht : k.threads t = some th) (hp : th.point ≠ .inFinish)
    (hs : th'.sound = true) (hp' : th'.point ≠ .inFinish) (hth : k'.threads = update k.threads t (some th'))
    (hcreated : k'.created = k.created) (hfin : k'.finished = k.finished)
    (hcar : k'.threadToBeDestroyed = k.threadToBeDestroyed)
    (hcr : k'.currentThread = k.currentThread ∨ k'.currentThread = t) : k'.Roll where
  sound u x hx := by
    rw [hth] at hx
    rcases update_some_iff.mp hx with ⟨-, rfl⟩ | ⟨-, hx⟩
    · exact hs
    · exact h.sound u x hx
  current := by
    simp only [Dispatch.current, hth]
    rcases hcr with hc | hc
    · rw [hc]
      by_cases e : k.currentThread = t
      · exact ⟨th', by rw [e, update_self]⟩
      · obtain ⟨x, hx⟩ := h.current
        exact ⟨x, by rw [update_of_ne e]; exact hx⟩
    · exact ⟨th', by rw [hc, update_self]⟩
  roll u := by
    rw [hcreated, hfin, ← h.roll u, hth]
    by_cases e : u = t
    · subst e
      rw [update_self]
      exact ⟨fun _ => ⟨th, ht, hp⟩, fun _ => ⟨th', rfl, hp'⟩⟩
    · rw [update_of_ne e]
  past u hu := by rw [hcreated]; rw [hfin] at hu; exact h.past u hu
  unborn u hu := by
    rw [hcreated] at hu
    have hne : u ≠ t := by
      intro e
      subst e
      rw [h.unborn u hu] at ht
      cases ht
    rw [hth, update_of_ne hne]
    exact h.unborn u hu
  carcass u hu := by rw [hcar] at hu; rw [hfin]; exact h.carcass u hu

theorem Roll.placeOf_finished (h : k.Roll) (hf : t ∈ k.finished) : k.placeOf t = none := by
  cases hth : k.threads t with
  | none => simp [placeOf, hth]
  | some th =>
    have hpt : th.point = .inFinish := by
      by_cases hp : th.point = .inFinish
      · exact hp
      · exact absurd hf ((h.roll t).mp ⟨th, hth, hp⟩).2
    have hs := h.sound t th hth
    rw [placeOf_eq hth]
    obtain ⟨st, p⟩ := th
    cases hpt
    cases st with
    | blocked => rfl
    | justCreated => rfl
    | running => cases hs
    | ready => cases hs

theorem Roll.point_ne (h : k.Roll) (ht : k.threads t = some th) (hst : th.status ≠ .blocked) : th.point ≠ .inFinish := by
  have := h.sound t th ht
  obtain ⟨st, p⟩ := th
  intro e
  simp only at e
  subst e
  cases st with
  | blocked => exact hst rfl
  | justCreated => cases this
  | running => cases this
  | ready => cases this

/-! ## Moves -/

theorem idling_iff (h : k.current = some th) : k.idling = true ↔ th.status ≠ .running := by
  simp [idling, h]

/-- The ready list's first thread gets the free CPU. -/
theorem Custody.run (h : k.Custody) (hid : k.idling = true) {rest : List Tid} (hl : k.readyList = t :: rest)
    (e : { k with readyList := rest }.run t = .ok k') : k'.Custody ∧ k'.idling = false := by
  obtain ⟨th, ht, rfl⟩ := run_eq e
  obtain ⟨cur, hcr⟩ := h.current
  have hcp : k.lists .cpu = [] := by rw [lists_cpu hcr, if_neg ((idling_iff hcr).mp hid)]
  have hpl : th.place = some .readyList := by
    rw [← placeOf_eq ht]
    exact h.seated.seat_head (show k.lists .readyList = t :: rest from hl)
  have hpt : th.point ≠ .inFinish := by
    refine h.point_ne ht fun hb => ?_
    obtain ⟨st, p⟩ := th
    cases hb
    cases p <;> cases hpl
  have hs : Thread.sound { th with status := .running } = true := by
    obtain ⟨st, p⟩ := th
    cases p with
    | inFinish => exact absurd rfl hpt
    | _ => rfl
  refine ⟨⟨h.toRoll.set ht hpt hs hpt rfl rfl rfl rfl (.inr rfl), ?_, h.unmade⟩, by simp [idling, Dispatch.current]⟩
  refine h.seated.move (show k.lists .readyList = t :: rest from hl) (q := .cpu) (by simp) rfl ?_ ?_ ?_
  · rw [hcp]; simp [lists, Dispatch.current]
  · intro r hr hr'
    cases r with
    | cpu => exact absurd rfl hr'
    | readyList => exact absurd rfl hr
    | queue s => rfl
  · intro u
    rw [placeOf_update rfl, place_running]
    rfl

theorem Custody.sleepLoop (h : k.Custody ∧ k.idling = true) (e : k.sleepLoop = .ok k') : k'.Custody := by
  rcases sleepLoop_eq e with rfl | ⟨next, rest, hl, e⟩
  · exact h.1
  · exact (h.1.run h.2 hl e).1

/-- What `V` leaves of the CPU: nothing changes while a thread runs, and an idle CPU stays idle. -/
structure Undisturbed (k k' : Dispatch) : Prop where
  same : k'.currentThread = k.currentThread
  runs : ∀ pt, k.current = some ⟨.running, pt⟩ → k'.current = some ⟨.running, pt⟩
  idles : k.idling = true → k'.idling = true

section

variable (h : k.Custody) (hc : k'.currentThread = k.currentThread) (hcreated : k'.created = k.created)
  (hfin : k'.finished = k.finished) (hcar : k'.threadToBeDestroyed = k.threadToBeDestroyed)
include h hc hcreated hfin hcar

/-- The running thread leaves the CPU for the list its new record names. -/
theorem Custody.leave (hn : k'.numSems = k.numSems) (hcr : k.current = some ⟨.running, pt⟩) {q : Place} (hcp : q ≠ .cpu)
    (ht : k'.threads = update k.threads k.currentThread (some th)) (hq : th.place = some q)
    (hs : th.sound = true) (hpt : th.point ≠ .inFinish) (hlq : k'.lists q = k.lists q ++ [k.currentThread])
    (hr : ∀ r, r ≠ .cpu → r ≠ q → k'.lists r = k.lists r) (hsm : ∀ s, q = .queue s → s < k.numSems) :
    k'.Custody ∧ k'.idling = true := by
  have hc' : k'.current = some th := by rw [Dispatch.current, hc, ht, update_self]
  have hst : th.status ≠ .running := by
    intro e
    rw [place_cpu.mpr e] at hq
    exact hcp (Option.some.inj hq).symm
  refine ⟨⟨h.toRoll.set hcr (h.point_ne hcr (by simp)) hs hpt ht hcreated hfin hcar (.inl hc), ?_, ?_⟩,
    (idling_iff hc').mpr hst⟩
  · refine h.seated.move (p := .cpu) (by rw [lists_cpu hcr, if_pos rfl]) (Ne.symm hcp) ?_ hlq hr ?_
    · rw [lists_cpu hc', if_neg hst]
    · intro u
      rw [placeOf_update ht, hq]
  · intro s hs'
    rw [hn] at hs'
    have hne : Place.queue s ≠ q := fun e => Nat.lt_irrefl _ (Nat.lt_of_lt_of_le (hsm s e.symm) hs')
    exact (hr (.queue s) (by simp) hne).trans (h.unmade s hs')

/-- The running thread gets another place to go on at, and keeps the CPU. -/
theorem Custody.goOn (hn : k'.numSems = k.numSems) (hcr : k.current = some ⟨.running, pt⟩) (hpt : pt' ≠ .inFinish)
    (ht : k'.threads = update k.threads k.currentThread (some ⟨.running, pt'⟩))
    (hr : k'.readyList = k.readyList) (hq : ∀ s, (k'.sems s).queue = (k.sems s).queue) : k'.Custody := by
  have hc' : k'.current = some ⟨.running, pt'⟩ := by rw [Dispatch.current, hc, ht, update_self]
  have hs : Thread.sound ⟨.running, pt'⟩ = true := by
    cases pt' with
    | inFinish => exact absurd rfl hpt
    | _ => rfl
  refine ⟨h.toRoll.set hcr (h.point_ne hcr (by simp)) hs hpt ht hcreated hfin hcar (.inl hc), ?_, ?_⟩
  rotate_left
  · intro s hs'; rw [hq s]; exact h.unmade s (hn ▸ hs')
  refine h.seated.congr ?_ ?_
  · intro p
    cases p with
    | cpu => rw [lists_cpu hcr, lists_cpu hc', if_pos rfl, if_pos rfl, hc]
    | readyList => exact hr
    | queue s => exact hq s
  · intro u
    rw [placeOf_update ht, place_running]
    split
    · rename_i e; subst e; rw [placeOf_eq hcr, place_running]
    · rfl

/-- The parts of a state that custody is about. -/
theorem Custody.congr (hn : k.numSems ≤ k'.numSems) (ht : k'.threads = k.threads)
    (hr : k'.readyList = k.readyList) (hq : ∀ s, (k'.sems s).queue = (k.sems s).queue) : k'.Custody := by
  have hcr : k'.current = k.current := by rw [Dispatch.current, hc, ht]; rfl
  refine ⟨⟨?_, ?_, ?_, ?_, ?_, ?_⟩, h.seated.congr ?_ ?_, ?_⟩
  · rw [ht]; exact h.sound
  · rw [hcr]; exact h.current
  · rw [ht, hcreated, hfin]; exact h.roll
  · rw [hcreated, hfin]; exact h.past
  · rw [ht, hcreated]; exact h.unborn
  · rw [hcar, hfin]; exact h.carcass
  · intro p
    cases p with
    | cpu => simp only [lists, hcr, hc]
    | readyList => exact hr
    | queue s => exact hq s
  · intro t
    simp only [placeOf, ht]
  · intro s hs
    rw [hq s]
    exact h.unmade s (Nat.le_trans hn hs)

/-- The first sleeper of a semaphore goes to the ready list. -/
theorem Custody.wake (hn : k'.numSems = k.numSems) {q : List Tid} (hq : (k.sems s).queue = t :: q) (ht : k.threads t = some th)
    (hth : k'.threads = update k.threads t (some { th with status := .ready }))
    (hrd : k'.readyList = k.readyList ++ [t]) (hqs : (k'.sems s).queue = q)
    (hqu : ∀ s', s' ≠ s → (k'.sems s').queue = (k.sems s').queue) : k'.Custody ∧ Undisturbed k k' := by
  have hs := h.seated.seat_head (show k.lists (.queue s) = t :: q from hq)
  rw [placeOf_eq ht, place_queue] at hs
  obtain ⟨hb, l, hpt⟩ := hs
  have hne : th.point ≠ .inFinish := by rw [hpt]; simp
  have hsn : Thread.sound { th with status := .ready } = true := by rw [hpt]; rfl
  obtain ⟨cur, hcr⟩ := h.current
  -- the sleeper may be the current thread, whose `Sleep` is idling
  have hc' : k'.current = some cur ∨
      cur.status ≠ .running ∧ ∃ cur', k'.current = some cur' ∧ cur'.status ≠ .running := by
    rw [Dispatch.current, hc, hth]
    by_cases e : k.currentThread = t
    · right
      rw [Dispatch.current, e, ht] at hcr
      cases hcr
      rw [e, update_self, hb]
      exact ⟨by simp, _, rfl, by simp⟩
    · left
      rw [update_of_ne e]
      exact hcr
  have hu : Undisturbed k k' := by
    refine ⟨hc, ?_, ?_⟩
    · intro pt hp'
      rw [hcr] at hp'
      cases hp'
      rcases hc' with h' | ⟨h', _⟩
      · exact h'
      · exact absurd rfl h'
    · intro hi
      rcases hc' with h' | ⟨_, cur', h', hst⟩
      · rw [idling_iff h', ← idling_iff hcr]; exact hi
      · rw [idling_iff h']; exact hst
  refine ⟨⟨h.toRoll.set ht hne hsn hne hth hcreated hfin hcar (.inl hc), ?_, ?_⟩, hu⟩
  rotate_left
  · intro s' hs'
    have h0 := h.unmade s' (hn ▸ hs')
    have hn' : s' ≠ s := by
      intro e
      rw [e, hq] at h0
      cases h0
    rw [hqu s' hn', h0]
  refine h.seated.move (p := .queue s) (q := .readyList) hq (by simp) hqs hrd ?_ ?_
  · intro r hr hr'
    cases r with
    | cpu =>
      rcases hc' with h' | ⟨h1, cur', h', h2⟩
      · rw [lists_cpu h', lists_cpu hcr, hc]
      · rw [lists_cpu h', lists_cpu hcr, if_neg h1, if_neg h2]
    | readyList => exact absurd rfl hr'
    | queue s' => exact hqu s' fun e => hr (by rw [e])
  · intro u
    rw [placeOf_update hth, place_ready]

end

/-! ## The routines -/

theorem Custody.v (h : k.Custody) (e : k.v s = .ok k') : k'.Custody ∧ Undisturbed k k' := by
  obtain ⟨-, ⟨hq, rfl⟩ | ⟨t, q, th, hq, ht, rfl⟩⟩ := v_eq e
  · refine ⟨h.congr rfl rfl rfl rfl (Nat.le_refl _) rfl rfl ?_, ⟨rfl, fun _ => id, id⟩⟩
    intro s'
    by_cases es : s' = s
    · subst es; simp [hq]
    · simp [es]
  · exact h.wake rfl rfl rfl rfl rfl hq ht rfl rfl (by simp) (fun s' hs' => by simp [hs'])

theorem Undisturbed.trans {k1 k2 k3 : Dispatch} (h : Undisturbed k1 k2) (h' : Undisturbed k2 k3) : Undisturbed k1 k3 :=
  ⟨h'.same.trans h.same, fun pt hp => h'.runs pt (h.runs pt hp), fun hi => h'.idles (h.idles hi)⟩

theorem Custody.handlers (due : List SemId) : ∀ {k : Dispatch}, k.Custody → k.handlers due = .ok k' →
    k'.Custody ∧ Undisturbed k k' := by
  induction due with
  | nil => intro k h e; cases e; exact ⟨h, rfl, fun _ => id, id⟩
  | cons s rest ih =>
    intro k h e
    obtain ⟨k1, e1, e2⟩ := bind_eq_ok.mp e
    obtain ⟨h1, u1⟩ := h.v e1
    obtain ⟨h2, u2⟩ := ih h1 e2
    exact ⟨h2, u1.trans u2⟩

theorem Custody.yield (h : k.Custody) (hcr : k.current = some ⟨.running, pt⟩) (e : k.yield = .ok k') : k'.Custody := by
  rcases yield_eq e with rfl | ⟨next, rest, hl, th, -, e⟩
  · exact h
  let x : Dispatch := { k with
    threads := update k.threads k.currentThread (some ⟨.ready, .inYield k.level⟩)
    readyList := next :: rest ++ [k.currentThread]
    level := .intOff }
  have hx : x.Custody ∧ x.idling = true := by
    refine h.leave (q := .readyList) rfl rfl rfl rfl rfl hcr (by simp) rfl rfl rfl (by simp) ?_ ?_ (by simp)
    · show _ = k.readyList ++ _
      rw [hl]
      rfl
    · intro r hr hr'
      cases r with
      | cpu => exact absurd rfl hr
      | readyList => exact absurd rfl hr'
      | queue s => rfl
  exact (hx.1.run hx.2 rfl e).1

theorem Custody.fork (h : k.Custody) (e : k.fork = .ok k') : k'.Custody := by
  obtain rfl := fork_eq e
  have hn : k.threads k.created = none := h.unborn _ (Nat.le_refl _)
  have hcr : k.currentThread ≠ k.created := by
    intro e
    obtain ⟨cur, hcr⟩ := h.current
    rw [Dispatch.current, e, hn] at hcr
    cases hcr
  have ht : ∀ u, u ≠ k.created → update k.threads k.created (some ⟨.ready, .threadRoot⟩) u = k.threads u :=
    fun u hu => update_of_ne hu ..
  refine ⟨⟨?_, ?_, ?_, ?_, ?_, h.carcass⟩, ?_, h.unmade⟩
  · intro u x hx
    rcases update_some_iff.mp hx with ⟨-, rfl⟩ | ⟨-, hx⟩
    · rfl
    · exact h.sound u x hx
  · simpa [Dispatch.current, hcr] using h.current
  · intro u
    by_cases eu : u = k.created
    · subst eu
      have : k.created ∉ k.finished := fun hm => Nat.lt_irrefl _ (h.past _ hm)
      simp [this]
    · have hlt : u < k.created + 1 ↔ u < k.created :=
        ⟨fun hu => Nat.lt_of_le_of_ne (Nat.le_of_lt_succ hu) eu, Nat.lt_succ_of_lt⟩
      simp only [ht u eu, h.roll u, hlt]
  · exact fun u hu => Nat.lt_succ_of_lt (h.past u hu)
  · intro u hu
    have : k.created + 1 ≤ u := hu
    show update k.threads _ _ u = none
    rw [ht u (by omega)]
    exact h.unborn u (by omega)
  · refine h.seated.put (t := k.created) (q := .readyList) (by simp [placeOf, hn]) rfl ?_ ?_
    · intro r hr
      cases r with
      | cpu => simp only [lists, Dispatch.current, ht _ hcr]; rfl
      | readyList => exact absurd rfl hr
      | queue s => rfl
    · intro u
      rw [placeOf_update rfl, place_ready]

theorem finish_eq (h : k.finish = .ok k') : ∃ th, k.current = some th ∧
    { k with
      threads := update k.threads k.currentThread (some ⟨.blocked, .inFinish⟩)
      level := .intOff
      threadToBeDestroyed := some k.currentThread
      finished := k.currentThread :: k.finished }.sleepLoop = .ok k' := by
  obtain ⟨k1, h1, h2⟩ := bind_eq_ok.mp h
  obtain ⟨th, ht, rfl⟩ := modifyThread_eq h1
  obtain ⟨-, th', ht', h3⟩ := sleep_eq h2
  simp only [Dispatch.current, update_self, Option.some.injEq] at ht'
  subst ht'
  simp only [update_idem] at h3
  exact ⟨th, ht, h3⟩

theorem Custody.finish (h : k.Custody) (hcr : k.current = some ⟨.running, pt⟩) (e : k.finish = .ok k') :
    k'.Custody := by
  obtain ⟨th, -, e⟩ := finish_eq e
  refine Custody.sleepLoop ?_ e
  have hc0 : k.threads k.currentThread = some ⟨.running, pt⟩ := hcr
  have hl := (h.roll _).mp ⟨_, hc0, h.point_ne hc0 (by simp)⟩
  have ht : ∀ u, u ≠ k.currentThread →
      update k.threads k.currentThread (some ⟨.blocked, .inFinish⟩) u = k.threads u :=
    fun u hu => update_of_ne hu ..
  refine ⟨⟨⟨?_, ?_, ?_, ?_, ?_, ?_⟩, ?_, h.unmade⟩, by simp [idling, Dispatch.current]⟩
  · intro u x hx
    rcases update_some_iff.mp hx with ⟨-, rfl⟩ | ⟨-, hx⟩
    · rfl
    · exact h.sound u x hx
  · exact ⟨_, update_self ..⟩
  · intro u
    by_cases eu : u = k.currentThread
    · subst eu; simp
    · simp only [ht u eu, h.roll u, mem_cons, eu, false_or]
  · intro u hu
    rcases mem_cons.mp hu with rfl | hu
    · exact hl.1
    · exact h.past u hu
  · intro u hu
    have hne : u ≠ k.currentThread := fun e => Nat.lt_irrefl _ (Nat.lt_of_lt_of_le hl.1 (e ▸ hu))
    exact (ht u hne).trans (h.unborn u hu)
  · intro u hu
    exact Option.some.inj hu ▸ mem_cons_self
  · refine h.seated.take (p := .cpu) (by rw [lists_cpu hcr, if_pos rfl]) (by simp [lists, Dispatch.current]) ?_ ?_
    · intro r hr
      cases r with
      | cpu => exact absurd rfl hr
      | readyList => rfl
      | queue s => rfl
    · intro u
      rw [placeOf_update rfl, place_inFinish]

theorem pLoop_eq (h : k.pLoop s l = .ok k') : s < k.numSems ∧ ∃ th, k.current = some th ∧
    ((k.sems s).value ≠ 0 ∧ k' = { k with
        threads := update k.threads k.currentThread (some { th with point := .code })
        sems := update k.sems s { k.sems s with value := (k.sems s).value - 1 }
        level := l
        ps := update k.ps s (k.ps s + 1) } ∨
      (k.sems s).value = 0 ∧ k.level = .intOff ∧ { k with
        threads := update k.threads k.currentThread (some ⟨.blocked, .inP s l⟩)
        sems := update k.sems s { k.sems s with queue := (k.sems s).queue ++ [k.currentThread] } }.sleepLoop
          = .ok k') := by
  unfold pLoop at h
  split at h
  rotate_left
  · cases h
  rename_i hs
  refine ⟨hs, ?_⟩
  unfold IntSemaphore.p at h
  by_cases h0 : (k.sems s).value = 0
  · rw [if_pos h0] at h
    obtain ⟨k1, h1, h2⟩ := bind_eq_ok.mp h
    obtain ⟨th, ht, rfl⟩ := modifyThread_eq h1
    obtain ⟨hl, th', ht', h3⟩ := sleep_eq h2
    simp only [Dispatch.current, update_self, Option.some.injEq] at ht'
    subst ht'
    simp only [update_idem] at h3
    exact ⟨th, ht, .inr ⟨h0, hl, h3⟩⟩
  · rw [if_neg h0] at h
    obtain ⟨k1, h1, h2⟩ := bind_eq_ok.mp h
    obtain ⟨th, ht, rfl⟩ := modifyThread_eq h1
    cases h2
    exact ⟨th, ht, .inl ⟨h0, rfl⟩⟩

theorem Custody.pLoop (h : k.Custody) (hcr : k.current = some ⟨.running, pt⟩) (e : k.pLoop s l = .ok k') :
    k'.Custody := by
  obtain ⟨hs, th, ht, ⟨-, rfl⟩ | ⟨-, -, e⟩⟩ := pLoop_eq e
  · cases hcr.symm.trans ht
    refine h.goOn rfl rfl rfl rfl rfl hcr (by simp) rfl rfl ?_
    intro s'
    by_cases es : s' = s
    · subst es; simp
    · simp [es]
  · refine Custody.sleepLoop ?_ e
    refine h.leave (q := .queue s) rfl rfl rfl rfl rfl hcr (by simp) rfl rfl rfl (by simp) ?_ ?_ ?_
    · simp [lists]
    · intro r hr hr'
      cases r with
      | cpu => exact absurd rfl hr
      | readyList => rfl
      | queue s' =>
        have : s' ≠ s := fun es => hr' (by rw [es])
        simp [lists, this]
    · intro s' es
      cases es
      exact hs

theorem afterSwitch_eq (h : k.afterSwitch = .ok k') :
    k' = k ∨ ∃ t, k.threadToBeDestroyed = some t ∧ t ≠ k.currentThread ∧
      k' = { k with threads := update k.threads t none, threadToBeDestroyed := none } := by
  unfold afterSwitch at h
  split at h
  · left; cases h; rfl
  rename_i t ht
  split at h
  · cases h
  · rename_i hne; cases h; exact .inr ⟨t, ht, hne, rfl⟩

/-- Deleting the carcass: a finished thread, on no list. -/
theorem Custody.afterSwitch (h : k.Custody) (e : k.afterSwitch = .ok k') :
    k'.Custody ∧ k'.current = k.current ∧ k'.currentThread = k.currentThread := by
  rcases afterSwitch_eq e with rfl | ⟨t, ht, hne, rfl⟩
  · exact ⟨h, rfl, rfl⟩
  have hfin := h.carcass t ht
  have hth : ∀ u, u ≠ t → update k.threads t none u = k.threads u := fun u hu => update_of_ne hu ..
  have hcr : update k.threads t none k.currentThread = k.threads k.currentThread := hth _ (Ne.symm hne)
  have hp : k.placeOf t = none := h.placeOf_finished hfin
  refine ⟨⟨⟨?_, ?_, ?_, h.past, ?_, ?_⟩, h.seated.congr ?_ ?_, h.unmade⟩, hcr, rfl⟩
  · exact fun u x hx => h.sound u x (update_none_iff.mp hx).2
  · obtain ⟨x, hx⟩ := h.current
    exact ⟨x, hcr.trans hx⟩
  · intro u
    by_cases eu : u = t
    · subst eu; simp [hfin]
    · simp only [hth u eu, h.roll u]
  · intro u hu
    by_cases eu : u = t
    · subst eu; exact update_self ..
    · exact (hth u eu).trans (h.unborn u hu)
  · intro u hu
    cases hu
  · intro p
    cases p with
    | cpu => simp only [lists, Dispatch.current, hcr]; rfl
    | readyList => rfl
    | queue s => rfl
  · intro u
    by_cases eu : u = t
    · subst eu; rw [hp]; simp [placeOf]
    · simp [placeOf, eu]

theorem Custody.setPoint (h : k.Custody) (hcr : k.current = some ⟨.running, pt⟩) (hpt : pt' ≠ .inFinish)
    (e : k.setPoint pt' = .ok k') : k'.Custody := by
  obtain ⟨th, ht, rfl⟩ := modifyThread_eq e
  cases hcr.symm.trans ht
  exact h.goOn rfl rfl rfl rfl rfl hcr hpt rfl rfl fun _ => rfl

theorem Custody.setLevel (h : k.Custody) (l : IntStatus) : Custody { k with level := l } :=
  h.congr rfl rfl rfl rfl (Nat.le_refl _) rfl rfl fun _ => rfl

theorem Custody.resume (h : k.Custody) (hcr : k.current = some ⟨.running, pt⟩) (e : k.resume pt = .ok k') :
    k'.Custody := by
  cases pt with
  | threadRoot => exact (h.setLevel .intOn).setPoint hcr (by simp) e
  | inYield l =>
    obtain ⟨k1, e1, e2⟩ := bind_eq_ok.mp e
    obtain ⟨h1, hc, -⟩ := h.afterSwitch e1
    exact (h1.setLevel l).setPoint (hc.trans hcr) (by simp) e2
  | inP s l =>
    obtain ⟨k1, e1, e2⟩ := bind_eq_ok.mp e
    obtain ⟨h1, hc, -⟩ := h.afterSwitch e1
    exact h1.pLoop (hc.trans hcr) e2
  | code => cases e; exact h
  | inFinish => cases e; exact h

theorem tick_eq {due : List SemId} {yieldOnReturn : Bool} (e : k.call (.tick due yieldOnReturn) = .ok k') :
    (k.level ≠ .intOn ∧ k' = k) ∨ ∃ k1, { k with level := .intOff }.handlers due = .ok k1 ∧
      (k' = { k1 with level := .intOn } ∨ { k1 with level := .intOn }.yield = .ok k') := by
  simp only [call] at e
  split at e
  · obtain ⟨k1, e1, e2⟩ := bind_eq_ok.mp e
    refine .inr ⟨k1, e1, ?_⟩
    simp only at e2
    split at e2
    · exact .inr e2
    · cases e2
      exact .inl rfl
  · rename_i hl
    cases e
    exact .inl ⟨hl, rfl⟩

theorem Custody.call (h : k.Custody) (hcr : k.current = some ⟨.running, .code⟩) {ev : Event} (e : k.call ev = .ok k') :
    k'.Custody := by
  cases ev with
  | setLevel now => cases e; exact h.setLevel now
  | newSemaphore initialValue =>
    cases e
    refine h.congr rfl rfl rfl rfl (Nat.le_succ _) rfl rfl ?_
    intro s
    by_cases es : s = k.numSems
    · subst es; simp [IntSemaphore.new, h.unmade]
    · simp [es]
  | fork => exact h.fork e
  | yield => exact h.yield hcr e
  | p s => exact (h.setLevel .intOff).pLoop hcr e
  | v s => exact (h.v e).1
  | finish => exact h.finish hcr e
  | tick due yieldOnReturn =>
    obtain ⟨-, rfl⟩ | ⟨k1, e1, e2⟩ := tick_eq e
    · exact h
    obtain ⟨h1, u1⟩ := Custody.handlers due (h.setLevel .intOff) e1
    rcases e2 with rfl | e2
    · exact h1.setLevel .intOn
    · exact (h1.setLevel .intOn).yield (u1.runs _ hcr) e2
  | idle due => cases e; exact h
  | resume => cases e; exact h

theorem inCode_iff : k.inCode = true ↔ k.current = some ⟨.running, .code⟩ := by simp [inCode]

/-- What a step is: nothing, a call by thread code, interrupts in the idle loop, or a thread
    that goes on after a switch. -/
theorem step_eq {ev : Event} (e : k.step ev = .ok k') : k' = k ∨ (k.current = some ⟨.running, .code⟩ ∧ k.call ev = .ok k') ∨
    (∃ due k1, ev = .idle due ∧ k.idling = true ∧ k.handlers due = .ok k1 ∧ k1.sleepLoop = .ok k') ∨
    ∃ pt, ev = .resume ∧ k.current = some ⟨.running, pt⟩ ∧ k.resume pt = .ok k' := by
  have hcl : ∀ {ev}, (if k.inCode then k.call ev else .ok k) = .ok k' →
      k' = k ∨ (k.current = some ⟨.running, .code⟩ ∧ k.call ev = .ok k') := by
    intro ev e
    split at e
    · rename_i hc; exact .inr ⟨inCode_iff.mp hc, e⟩
    · cases e; exact .inl rfl
  cases ev with
  | idle due =>
    simp only [step] at e
    split at e
    · rename_i hid
      obtain ⟨k1, e1, e2⟩ := bind_eq_ok.mp e
      exact .inr (.inr (.inl ⟨due, k1, rfl, hid, e1, e2⟩))
    · cases e; exact .inl rfl
  | resume =>
    simp only [step] at e
    split at e
    · rename_i pt hcr; exact .inr (.inr (.inr ⟨pt, rfl, hcr, e⟩))
    · cases e; exact .inl rfl
  | setLevel | newSemaphore | fork | yield | p | v | finish | tick => exact (hcl e).imp_right .inl

theorem step_custody (h : k.Custody) (ev : Event) (e : k.step ev = .ok k') : k'.Custody := by
  obtain rfl | ⟨hcr, e⟩ | ⟨due, k1, rfl, hid, e1, e2⟩ | ⟨pt, rfl, hcr, e⟩ := step_eq e
  · exact h
  · exact h.call hcr e
  · obtain ⟨h1, u1⟩ := h.handlers due e1
    exact Custody.sleepLoop ⟨h1, u1.idles hid⟩ e2
  · exact h.resume hcr e

end

/-! ## Whole runs -/

theorem start_custody : start.Custody := by
  refine ⟨⟨?_, ⟨_, rfl⟩, ?_, ?_, ?_, ?_⟩, ?_, fun _ _ => rfl⟩
  · intro t th h
    simp only [start] at h
    split at h
    · cases h; rfl
    · cases h
  · intro t
    by_cases e : t = 0
    · subst e; simp [start]
    · simp [start, e]
  · intro t ht
    cases ht
  · intro t ht
    have : t ≠ 0 := Nat.ne_of_gt ht
    simp [start, this]
  · intro t ht
    cases ht
  · intro p t
    by_cases e : t = 0
    · subst e
      cases p <;> simp [lists, placeOf, start, current, IntSemaphore.new]
    · have hne : ¬ 0 = t := fun h => e h.symm
      cases p <;> simp [lists, placeOf, start, current, IntSemaphore.new, e, hne]

theorem reach_custody {k : Dispatch} {ok : Dispatch → Event → Prop} (h : Reach step ok (· = start) k) : k.Custody := by
  refine h.inv (P := Custody) ?_ ?_
  · intro s hs; subst hs; exact start_custody
  · intro s e s' hs _ hst; exact step_custody hs e hst

/-- Every thread that has been forked and has not finished is at exactly one place, once,
    with that place's status, and a finished thread is on no list; between two instructions
    of thread code the thread on the CPU is the current one. -/
theorem no_thread_lost {k : Dispatch} (h : Lib.Reach step (fun _ _ => True) (· = start) k) :
    (∀ t, t < k.created → t ∉ k.finished →
      ∃ p : Place, (k.lists p).count t = 1 ∧ (∀ q, q ≠ p → (k.lists q).count t = 0) ∧
        (k.threads t).map (·.status) = some p.status) ∧
    (∀ t ∈ k.finished, t ∉ k.readyList ∧ ∀ s, t ∉ (k.sems s).queue) ∧
    (k.inCode = true → k.lists .cpu = [k.currentThread]) := by
  have hk := reach_custody h
  refine ⟨?_, ?_, ?_⟩
  · intro t ht hf
    obtain ⟨th, hth, hpt⟩ := (hk.roll t).mpr ⟨ht, hf⟩
    have hs := hk.sound t th hth
    obtain ⟨p, hp, hstatus⟩ : ∃ p, th.place = some p ∧ th.status = p.status := by
      obtain ⟨st, pt⟩ := th
      cases st with
      | running => exact ⟨.cpu, place_running pt, rfl⟩
      | ready => exact ⟨.readyList, place_ready pt, rfl⟩
      | justCreated => cases hs
      | blocked =>
        cases pt with
        | inP s l => exact ⟨.queue s, rfl, rfl⟩
        | inFinish => exact absurd rfl hpt
        | code => cases hs
        | threadRoot => cases hs
        | inYield l => cases hs
    obtain ⟨h₁, h₂⟩ := hk.seated.once ((placeOf_eq hth).trans hp)
    exact ⟨p, h₁, h₂, by rw [hth, Option.map_some, hstatus]⟩
  · intro t ht
    have hnone : k.placeOf t = none := hk.placeOf_finished ht
    exact ⟨hk.seated.not_mem hnone .readyList, fun s => hk.seated.not_mem hnone (.queue s)⟩
  · intro hc
    rw [lists_cpu (inCode_iff.mp hc), if_pos rfl]

/-- The main thread sleeps at a semaphore, the thread it forked finishes with nobody ready,
    and an interrupt handler's `V` wakes the main thread in its own idle loop. -/
theorem no_thread_lost_when_idling : ∃ k, Lib.Reach step (fun _ _ => True) (· = start) k ∧ k.inCode = true ∧
    k.finished = [1] ∧ 1 ∉ k.readyList ∧ k.lists .cpu = [k.currentThread] ∧
    ∃ p : Place, (k.lists p).count 0 = 1 ∧ (k.threads 0).map (·.status) = some p.status := by
  obtain ⟨k, hk, ht⟩ : ∃ k, Reach step (fun _ _ => true) (· = start) k ∧ _ := exists_reach step (fun _ _ => true)
    [.newSemaphore 0, .fork, .p 0, .resume, .finish, .idle [0], .resume]
    (fun k => k.inCode && k.finished == [1] && k.created == 2) rfl (by decide +kernel)
  simp only [Bool.and_eq_true, beq_iff_eq] at ht
  obtain ⟨⟨hcode, hfin⟩, hcreated⟩ := ht
  have hk := Reach.mono (fun _ _ _ => trivial) hk
  obtain ⟨h₁, h₂, h₃⟩ := no_thread_lost hk
  obtain ⟨p, hp, -, hst⟩ := h₁ 0 (by rw [hcreated]; exact Nat.two_pos) (by simp [hfin])
  exact ⟨k, hk, hcode, hfin, (h₂ 1 (by simp [hfin])).1, h₃ hcode, p, hp, hst⟩

end Nachos.Dispatch

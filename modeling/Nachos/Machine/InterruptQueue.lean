/-
  Nachos.Machine.InterruptQueue — what becomes of the interrupts that are scheduled.

  `OneTick`, `SetLevel` and `Idle` are made of a few calls: the time moves on, and
  `CheckIfDue` is called until it answers FALSE (`Call`). Each call keeps the queue sorted
  and accounts for every interrupt (`Kept`).
  - `interrupts_kept`: over every run each interrupt is called at most once, not before its
    time and in the order of the times, none is lost, the clock is the sum of its parts, and
    `OneTick` leaves nothing that is due.
-/

import Mathlib.Data.List.Nodup
import Nachos.Lib.Runs
import Nachos.Machine.Interrupt

namespace Nachos.Interrupts

open Lib List

variable {S W : Type} {dev : Devices S W} {k k' : Interrupts W} {now fromNow : Int} {handler : Nat}
  {arg : Word} {type : IntType} {first : ListElement PendingInterrupt} {advanceClock : Bool} {f : Fault}

/-! ## What the routines do -/

theorem later_eq {ticks t : Int} (h : later now ticks = .ok t) : t = now + ticks := by
  unfold later at h
  split at h
  · cases h; rfl
  · cases h

theorem schedule_eq (h : k.schedule handler arg fromNow type = .ok k') : 0 < fromNow ∧ ∃ toOccur : PendingInterrupt,
      toOccur.id = k.scheduled.length ∧ toOccur.when = k.totalTicks + fromNow ∧ k' = { k with
        pending := sortedInsert toOccur toOccur.when k.pending
        scheduled := k.scheduled ++ [toOccur] } := by
  obtain ⟨when, h1, h2⟩ := bind_eq_ok.mp h
  have := later_eq h1
  subst this
  simp only at h2
  split at h2
  · rename_i hp
    cases h2
    exact ⟨hp, ⟨k.scheduled.length, handler, arg, k.totalTicks + fromNow, type⟩, rfl, rfl, rfl⟩
  · cases h2

theorem enterLevel_eq {now : IntStatus} (h : k.enterLevel now = .ok k') :
    (now = .intOff ∨ k.inHandler = false) ∧ k' = { k with level := now } := by
  unfold enterLevel at h
  split at h
  · rename_i hok; cases h; exact ⟨hok, rfl⟩
  · cases h

/-- `V` puts the level back: all that is left of it is what it does to the kernel. -/
theorem handlerV_eq {s : S} (h : k.handlerV dev s = .ok k') :
    ∃ w, dev.signal s k.kernel = some w ∧ k' = { k with kernel := w } := by
  obtain ⟨k1, h1, h2⟩ := bind_eq_ok.mp h
  obtain ⟨-, rfl⟩ := enterLevel_eq h1
  cases hw : dev.signal s k.kernel with
  | none => simp only [hw] at h2; cases h2
  | some w =>
    simp only [hw] at h2
    obtain ⟨-, rfl⟩ := enterLevel_eq h2
    exact ⟨w, rfl, rfl⟩

variable (acts : List (Action S))

/-- What holds through a handler: it is kept by every call a handler can make. -/
theorem runHandler_inv {P : Interrupts W → Prop}
    (hs : ∀ k k' handler arg fromNow type, P k → k.schedule handler arg fromNow type = .ok k' → P k')
    (hy : ∀ k, P k → P { k with yieldOnReturn := true })
    (hsg : ∀ k s w, P k → dev.signal s k.kernel = some w → P { k with kernel := w }) :
    ∀ {k : Interrupts W}, P k → k.runHandler dev acts = .ok k' → P k' := by
  induction acts with
  | nil => intro k hk h; cases h; exact hk
  | cons a rest ih =>
    intro k hk h
    obtain ⟨k1, h1, h2⟩ := bind_eq_ok.mp h
    refine ih ?_ h2
    cases a with
    | schedule handler arg fromNow type => exact hs k k1 handler arg fromNow type hk h1
    | yieldOnReturn =>
      simp only [act] at h1
      split at h1
      · cases h1; exact hy k hk
      · cases h1
    | v s =>
      obtain ⟨w, hw, rfl⟩ := handlerV_eq h1
      exact hsg k s w hk hw

/-- The handler of `first` is about to run. -/
def entering (k : Interrupts W) (first : ListElement PendingInterrupt) : Interrupts W :=
  { k with inHandler := true, status := .systemMode, invoked := k.invoked ++ [(first.item, k.totalTicks)] }

/-- `first` has been taken out of the queue at time `now`. -/
def taking (k : Interrupts W) (rest : List (ListElement PendingInterrupt)) (now : Int) : Interrupts W :=
  { k with pending := rest, idleTicks := k.idleTicks + (now - k.totalTicks), totalTicks := now }

variable {r : Bool × Interrupts W}

/-- An interrupt whose time has come goes back to the queue only when the machine is idle and
    the timer is all there is to wait for; otherwise its handler runs. -/
theorem occur_eq (h : k.occur dev first = .ok r) :
    (k.status = .idleMode ∧ k.pending = [] ∧ r = (false, { k with pending := [first] })) ∨
    ∃ k', (k.entering first).runHandler dev (dev.handle first.item) = .ok k' ∧
      r = (true, { k' with status := k.status, inHandler := false }) := by
  unfold occur at h
  split at h
  · rename_i hid
    cases h
    refine .inl ⟨hid.1, hid.2.2, ?_⟩
    rw [hid.2.2]
    rfl
  · obtain ⟨k', h1, h2⟩ := bind_eq_ok.mp h
    cases h2
    exact .inr ⟨k', h1, rfl⟩

theorem checkIfDue_eq (h : k.checkIfDue dev advanceClock = .ok r) : k.level = .intOff ∧
    (k.pending = [] ∧ r = (false, k) ∨
      ∃ first rest, k.pending = first :: rest ∧
        (advanceClock = false ∧ k.totalTicks < first.key ∧
            r = (false, { k with pending := sortedInsert first.item first.key rest }) ∨
          ∃ now, first.key ≤ now ∧ k.totalTicks ≤ now ∧ (advanceClock = false → now = k.totalTicks) ∧
            (k.taking rest now).occur dev first = .ok r)) := by
  unfold checkIfDue at h
  split at h
  rotate_left
  · cases h
  rename_i hl
  refine ⟨hl, ?_⟩
  cases hp : k.pending with
  | nil =>
    rw [hp] at h
    cases h
    exact .inl ⟨rfl, rfl⟩
  | cons first rest =>
    right
    refine ⟨first, rest, rfl, ?_⟩
    rw [hp] at h
    simp only [sortedRemove] at h
    split at h
    · rename_i ha
      refine .inr ⟨first.key, Int.le_refl _, Int.le_of_lt ha.2, ?_, h⟩
      intro hno
      rw [hno] at ha
      cases ha.1
    · rename_i ha
      split at h
      · rename_i hlt
        cases h
        have hno : advanceClock = false := by
          cases advanceClock with
          | false => rfl
          | true => exact absurd ⟨rfl, hlt⟩ ha
        exact .inl ⟨hno, hlt, rfl⟩
      · rename_i hd
        refine .inr ⟨k.totalTicks, Int.not_lt.mp hd, Int.le_refl _, fun _ => rfl, ?_⟩
        rw [taking, Int.sub_self, Int.add_zero]
        exact h

theorem tick_eq (h : k.tick = .ok k') : ∃ now systemTicks userTicks, k.totalTicks ≤ now ∧
    now - k.totalTicks = (systemTicks - k.systemTicks) + (userTicks - k.userTicks) ∧
    k' = { k with totalTicks := now, systemTicks := systemTicks, userTicks := userTicks } := by
  unfold tick at h
  split at h
  · obtain ⟨now, h1, h2⟩ := bind_eq_ok.mp h
    have hn := later_eq h1
    have ho : systemTick = 10 := rfl
    cases h2
    exact ⟨now, _, k.userTicks, by omega, by omega, rfl⟩
  · obtain ⟨now, h1, h2⟩ := bind_eq_ok.mp h
    have hn := later_eq h1
    have ho : userTick = 1 := rfl
    cases h2
    exact ⟨now, k.systemTicks, _, by omega, by omega, rfl⟩

/-! ## The account -/

structure Kept (k : Interrupts W) : Prop where
  sorted : Sorted k.pending
  keyed : ∀ e ∈ k.pending, e.key = e.item.when
  ids : k.scheduled.map (·.id) = List.range k.scheduled.length
  /-- Each interrupt scheduled has been called or is pending. -/
  all : (k.invoked.map (·.1) ++ k.pending.map (·.item)).Perm k.scheduled
  due : ∀ x ∈ k.invoked, x.1.when ≤ x.2 ∧ x.2 ≤ k.totalTicks
  order : (k.invoked.map (·.1)).Pairwise (·.when ≤ ·.when)
  ahead : ∀ x ∈ k.invoked, ∀ e ∈ k.pending, x.1.when ≤ e.key
  clock : k.totalTicks = k.idleTicks + k.systemTicks + k.userTicks

theorem Kept.nodup (h : k.Kept) : k.scheduled.Nodup := by
  apply List.Nodup.of_map (·.id)
  rw [h.ids]
  exact nodup_range

theorem Kept.id_lt (h : k.Kept) {p : PendingInterrupt} (hp : p ∈ k.invoked.map (·.1) ++ k.pending.map (·.item)) :
    p.id < k.scheduled.length := by
  have hid : p.id ∈ k.scheduled.map (·.id) := mem_map_of_mem (h.all.mem_iff.mp hp)
  rw [h.ids] at hid
  exact mem_range.mp hid

/-- The account is about the queue, the clock and the history. -/
theorem Kept.congr (h : k.Kept) (hp : k'.pending = k.pending) (hs : k'.scheduled = k.scheduled)
    (hi : k'.invoked = k.invoked) (hc : (k'.totalTicks, k'.idleTicks, k'.systemTicks, k'.userTicks) =
      (k.totalTicks, k.idleTicks, k.systemTicks, k.userTicks)) : k'.Kept := by
  simp only [Prod.mk.injEq] at hc
  obtain ⟨h1, h2, h3, h4⟩ := hc
  refine ⟨?_, ?_, ?_, ?_, ?_, ?_, ?_, ?_⟩
  · rw [hp]; exact h.sorted
  · rw [hp]; exact h.keyed
  · rw [hs]; exact h.ids
  · rw [hi, hp, hs]; exact h.all
  · rw [hi, h1]; exact h.due
  · rw [hi]; exact h.order
  · rw [hi, hp]; exact h.ahead
  · rw [h1, h2, h3, h4]; exact h.clock

/-- A new interrupt is behind the clock, so behind everything that has been called. -/
theorem Kept.schedule (h : k.Kept) (e : k.schedule handler arg fromNow type = .ok k') : k'.Kept := by
  obtain ⟨hp, toOccur, hid, hw, rfl⟩ := schedule_eq e
  refine ⟨sortedInsert_sorted h.sorted, ?_, ?_, ?_, h.due, h.order, ?_, h.clock⟩
  · intro x hx
    rcases mem_sortedInsert.mp hx with rfl | hx
    · rfl
    · exact h.keyed x hx
  · simp only [map_append, map_cons, map_nil, length_append, length_singleton,
      range_succ, h.ids, hid]
  · have hin := (sortedInsert_perm toOccur toOccur.when k.pending).map (·.item)
    calc (k.invoked.map (·.1) ++ (sortedInsert toOccur toOccur.when k.pending).map (·.item)).Perm
          (k.invoked.map (·.1) ++ toOccur :: k.pending.map (·.item)) := hin.append_left _
      _ |>.Perm (toOccur :: (k.invoked.map (·.1) ++ k.pending.map (·.item))) := perm_middle
      _ |>.Perm (toOccur :: k.scheduled) := h.all.cons _
      _ |>.Perm (k.scheduled ++ [toOccur]) := (perm_append_singleton ..).symm
  · intro x hx y hy
    rcases mem_sortedInsert.mp hy with rfl | hy
    · have := h.due x hx
      simp only
      omega
    · exact h.ahead x hx y hy

theorem Kept.runHandler (h : k.Kept) (e : k.runHandler dev acts = .ok k') : k'.Kept := by
  refine runHandler_inv acts ?_ ?_ ?_ h e
  · intro k k' handler arg fromNow type h e
    exact h.schedule e
  · intro k h
    exact h.congr rfl rfl rfl rfl
  · intro k s w h _
    exact h.congr rfl rfl rfl rfl

theorem Kept.advance (h : k.Kept) (hn : k.totalTicks ≤ now) (hp : k'.pending = k.pending)
    (hs : k'.scheduled = k.scheduled) (hi : k'.invoked = k.invoked) (ht : k'.totalTicks = now)
    (hpr : now - k.totalTicks = (k'.idleTicks - k.idleTicks) + (k'.systemTicks - k.systemTicks) +
      (k'.userTicks - k.userTicks)) : k'.Kept := by
  refine ⟨?_, ?_, ?_, ?_, ?_, ?_, ?_, ?_⟩
  · rw [hp]; exact h.sorted
  · rw [hp]; exact h.keyed
  · rw [hs]; exact h.ids
  · rw [hi, hp, hs]; exact h.all
  · rw [hi, ht]
    intro x hx
    have := h.due x hx
    exact ⟨this.1, Int.le_trans this.2 hn⟩
  · rw [hi]; exact h.order
  · rw [hi, hp]; exact h.ahead
  · have := h.clock
    omega

theorem Kept.invoke (h : k.Kept) {rest : List (ListElement PendingInterrupt)} (hp : k.pending = first :: rest)
    (hd : first.key ≤ now) (hn : k.totalTicks ≤ now) : ((k.taking rest now).entering first).Kept := by
  have hs := h.sorted
  have hk := h.keyed
  have hal := h.all
  have hah := h.ahead
  rw [hp] at hs hk hal hah
  obtain ⟨hf, hr⟩ := pairwise_cons.mp hs
  have hky : first.key = first.item.when := hk first mem_cons_self
  have hm : ∀ {x}, x ∈ k.invoked ++ [(first.item, now)] → x ∈ k.invoked ∨ x = (first.item, now) := by
    intro x hx
    exact (mem_append.mp hx).imp_right mem_singleton.mp
  refine ⟨hr, ?_, h.ids, ?_, ?_, ?_, ?_, ?_⟩
  · intro e he
    exact hk e (mem_cons_of_mem _ he)
  · simp only [entering, taking, map_append, append_assoc]
    exact hal
  · intro x hx
    rcases hm hx with hx | rfl
    · have := h.due x hx
      exact ⟨this.1, Int.le_trans this.2 hn⟩
    · exact ⟨hky ▸ hd, Int.le_refl _⟩
  · simp only [entering, taking, map_append]
    refine pairwise_append.mpr ⟨h.order, pairwise_singleton .., ?_⟩
    intro a ha b hb
    obtain ⟨x, hx, rfl⟩ := mem_map.mp ha
    cases mem_singleton.mp hb
    exact hky ▸ hah x hx first mem_cons_self
  · intro x hx e he
    rcases hm hx with hx | rfl
    · exact hah x hx e (mem_cons_of_mem _ he)
    · exact hky ▸ hf e he
  · have := h.clock
    simp only [entering, taking]
    omega

theorem Kept.checkIfDue (h : k.Kept) (e : k.checkIfDue dev advanceClock = .ok r) :
    r.2.Kept := by
  obtain ⟨-, ⟨-, rfl⟩ | ⟨first, rest, hp, ⟨-, -, rfl⟩ | ⟨now, hd, hn, -, e⟩⟩⟩ := checkIfDue_eq e
  · exact h
  · have hs := h.sorted
    rw [hp] at hs
    -- putting it back permutes the queue
    have hpr : (sortedInsert first.item first.key rest).Perm k.pending := by
      rw [hp]
      exact sortedInsert_perm ..
    refine ⟨sortedInsert_sorted (pairwise_cons.mp hs).2, ?_, h.ids, ?_, h.due, h.order, ?_, h.clock⟩
    · intro x hx
      exact h.keyed x (hpr.mem_iff.mp hx)
    · exact ((hpr.map _).append_left _).trans h.all
    · intro x hx y hy
      exact h.ahead x hx y (hpr.mem_iff.mp hy)
  · rcases occur_eq e with ⟨-, he, rfl⟩ | ⟨k', e', rfl⟩
    · have hr : rest = [] := he
      subst hr
      refine h.advance hn hp.symm rfl rfl rfl ?_
      simp only [taking]
      omega
    · exact ((h.invoke hp hd hn).runHandler _ e').congr rfl rfl rfl rfl

/-! ## The drain loop -/

/-- How many interrupts are due. -/
def dueNow (k : Interrupts W) : Nat := k.pending.countP (fun e => decide (e.key ≤ k.totalTicks))

/-- What a handler schedules is not due yet, and all else it leaves alone. -/
theorem runHandler_due {acts : List (Action S)} (e : k.runHandler dev acts = .ok k') :
    k'.totalTicks = k.totalTicks ∧ k'.level = k.level ∧ k'.inHandler = k.inHandler ∧ k'.dueNow = k.dueNow := by
  refine runHandler_inv (P := fun k' => k'.totalTicks = k.totalTicks ∧ k'.level = k.level ∧
    k'.inHandler = k.inHandler ∧ k'.dueNow = k.dueNow) acts ?_ ?_ ?_ ⟨rfl, rfl, rfl, rfl⟩ e
  · intro k1 k2 handler arg fromNow type h e
    obtain ⟨hp, toOccur, -, hw, rfl⟩ := schedule_eq e
    refine ⟨h.1, h.2.1, h.2.2.1, Eq.trans ?_ h.2.2.2⟩
    have hn : ¬ toOccur.when ≤ k1.totalTicks := by omega
    simp only [dueNow]
    rw [(sortedInsert_perm toOccur toOccur.when k1.pending).countP_eq, countP_cons_of_neg (by simpa using hn)]
  · intro k1 h
    exact h
  · intro k1 s w h _
    exact h

theorem checkIfDue_due (hs : Sorted k.pending) (e : k.checkIfDue dev false = .ok r) :
    r.2.totalTicks = k.totalTicks ∧ r.2.level = .intOff ∧ r.2.status = k.status ∧
    (r.1 = true → r.2.dueNow + 1 = k.dueNow) ∧ (r.1 = false → k.status ≠ .idleMode → r.2.dueNow = 0) := by
  obtain ⟨hlv, ⟨he, rfl⟩ | ⟨first, rest, hp, ⟨-, hlt, rfl⟩ | ⟨now, hdu, -, hn, e⟩⟩⟩ := checkIfDue_eq e
  · refine ⟨rfl, hlv, rfl, fun h => (by cases h), fun _ _ => ?_⟩
    simp [dueNow, he]
  · refine ⟨rfl, hlv, rfl, fun h => (by cases h), fun _ _ => ?_⟩
    -- the first is not due, so nothing behind it is
    rw [hp] at hs
    have hf := (pairwise_cons.mp hs).1
    refine countP_eq_zero.mpr ?_
    intro x hx
    have hle : first.key ≤ x.key := by
      rcases mem_sortedInsert.mp hx with rfl | hx
      · exact Int.le_refl _
      · exact hf x hx
    simp only [decide_eq_true_eq]
    omega
  · have := hn rfl
    subst this
    rcases occur_eq e with ⟨hid, -, rfl⟩ | ⟨k', e', rfl⟩
    · refine ⟨rfl, hlv, rfl, fun h => (by cases h), fun _ hne => absurd hid hne⟩
    obtain ⟨ht, hl, -, hd⟩ := runHandler_due e'
    refine ⟨ht, hl.trans hlv, rfl, fun _ => ?_, fun h => (by cases h)⟩
    have hk : k.dueNow = rest.countP (fun e => decide (e.key ≤ k.totalTicks)) + 1 := by
      rw [dueNow, hp, countP_cons_of_pos (by simpa using hdu)]
    rw [hk]
    exact congrArg (· + 1) hd

variable (fuel : Nat)

theorem drain_due : ∀ {k : Interrupts W}, k.Kept → drain dev fuel k = .ok k' →
    k'.Kept ∧ k'.totalTicks = k.totalTicks ∧ k'.status = k.status ∧ (k.status ≠ .idleMode → k'.dueNow = 0) := by
  induction fuel with
  | zero => intro k _ e; cases e
  | succ fuel ih =>
    intro k h e
    obtain ⟨r, e1, e2⟩ := bind_eq_ok.mp e
    obtain ⟨ht, -, hs, -, hd⟩ := checkIfDue_due h.sorted e1
    have hr := h.checkIfDue e1
    split at e2
    · obtain ⟨h', ht', hs', hd'⟩ := ih hr e2
      exact ⟨h', ht'.trans ht, hs'.trans hs, fun hne => hd' (hs ▸ hne)⟩
    · rename_i hf
      cases e2
      exact ⟨hr, ht, hs, fun hne => hd (by simpa using hf) hne⟩

theorem checkIfDue_level (e : k.checkIfDue dev advanceClock = .ok r) :
    r.2.level = .intOff := by
  obtain ⟨hl, ⟨-, rfl⟩ | ⟨first, rest, -, ⟨-, -, rfl⟩ | ⟨now, -, -, -, e⟩⟩⟩ := checkIfDue_eq e
  · exact hl
  · exact hl
  · rcases occur_eq e with ⟨-, -, rfl⟩ | ⟨k', e', rfl⟩
    · exact hl
    · exact (runHandler_due e').2.1.trans hl

/-! ## What can fail -/

/-- The failures the interrupt code does not guard against: an interrupt scheduled for no
    time in the future, a time that does not fit, a `V` on no semaphore. -/
def Fault.outside (f : Fault) : Prop := f = .failed .schedule ∨ f = .undefined

theorem later_fails {ticks : Int} : FailsOnly Fault.outside (later now ticks) := by
  unfold later
  split
  · exact .ok _
  · exact .error (.inr rfl)

theorem schedule_fails : FailsOnly Fault.outside (k.schedule handler arg fromNow type) := by
  refine .bind later_fails fun when _ => ?_
  dsimp only
  split
  · exact .ok _
  · exact .error (.inl rfl)

/-- In a handler interrupts are off, and `V` leaves them so. -/
theorem handlerV_fails {s : S} (hl : k.level = .intOff) : FailsOnly Fault.outside (k.handlerV dev s) := by
  have ho : ∀ k : Interrupts W, k.enterLevel .intOff = .ok { k with level := .intOff } := fun k => if_pos (.inl rfl)
  rw [handlerV, hl, ho]
  refine .bind (.ok _) fun k1 e => ?_
  cases e
  dsimp only
  split
  · rw [ho]; exact .ok _
  · exact .error (.inr rfl)

theorem runHandler_fails : ∀ {k : Interrupts W}, k.level = .intOff →
    k.inHandler = true → FailsOnly Fault.outside (k.runHandler dev acts) := by
  induction acts with
  | nil => intro k _ _; exact .ok _
  | cons a rest ih =>
    intro k hlv hin
    refine .bind ?_ fun k1 e => ?_
    · cases a with
      | schedule handler arg fromNow type => exact schedule_fails
      | yieldOnReturn => rw [act, if_pos hin]; exact .ok _
      | v s => exact handlerV_fails hlv
    · -- one call is a handler of one call
      have ho : k.runHandler dev [a] = .ok k1 := bind_eq_ok.mpr ⟨k1, e, rfl⟩
      obtain ⟨-, hl, hi, -⟩ := runHandler_due ho
      exact ih (hl.trans hlv) (hi.trans hin)

theorem occur_fails (hl : k.level = .intOff) : FailsOnly Fault.outside (k.occur dev first) := by
  unfold occur
  split
  · exact .ok _
  · exact .bind (runHandler_fails _ (k := k.entering first) hl rfl) fun _ _ => .ok _

theorem checkIfDue_fails (hl : k.level = .intOff) : FailsOnly Fault.outside (k.checkIfDue dev advanceClock) := by
  rw [checkIfDue, if_pos hl]
  split
  · exact .ok _
  split
  · exact occur_fails hl
  split
  · exact .ok _
  · exact occur_fails hl

/-- The loop ends: each time round there is one interrupt less that is due. -/
theorem drain_fails : ∀ {k : Interrupts W}, k.Kept → k.level = .intOff → k.dueNow < fuel →
    FailsOnly Fault.outside (drain dev fuel k) := by
  induction fuel with
  | zero => intro k _ _ hf; exact absurd hf (Nat.not_lt_zero _)
  | succ fuel ih =>
    intro k hk hlv hf
    refine .bind (checkIfDue_fails hlv) fun r e => ?_
    obtain ⟨-, hl, -, hd, -⟩ := checkIfDue_due hk.sorted e
    split
    · rename_i ht
      have hls := hd ht
      exact ih (hk.checkIfDue e) hl (by omega)
    · exact .ok _

theorem dueNow_le (k : Interrupts W) : k.dueNow ≤ k.pending.length := countP_le_length

theorem Kept.changeLevel (h : k.Kept) (now : IntStatus) : (k.changeLevel now).Kept := h.congr rfl rfl rfl rfl

theorem Kept.tick (h : k.Kept) (e : k.tick = .ok k') : k'.Kept := by
  obtain ⟨now, systemTicks, userTicks, hn, hp, rfl⟩ := tick_eq e
  refine h.advance hn rfl rfl rfl rfl ?_
  simp only
  omega

theorem drainAll_fails (hk : k.Kept) (hl : k.level = .intOff) : FailsOnly Fault.outside (k.drainAll dev) :=
  drain_fails _ hk hl (Nat.lt_succ_of_le k.dueNow_le)

theorem tick_fails : FailsOnly Fault.outside k.tick := by
  unfold tick
  split
  · exact .bind later_fails fun _ _ => .ok _
  · exact .bind later_fails fun _ _ => .ok _

theorem oneTick_fails (hk : k.Kept) : FailsOnly Fault.outside (k.oneTick dev) := by
  refine .bind tick_fails fun k1 e1 => .bind (drainAll_fails ((hk.tick e1).changeLevel .intOff) rfl) fun k2 _ => ?_
  dsimp only
  split
  · exact .ok _
  · exact .ok _

/-- Outside handlers `SetLevel` fails no ASSERT. -/
theorem setLevel_fails {now : IntStatus} (hk : k.Kept) (hin : k.inHandler = false) :
    FailsOnly Fault.outside (k.setLevel dev now) := by
  refine .bind ?_ fun k1 e1 => ?_
  · rw [enterLevel, if_pos (.inr hin)]
    exact .ok _
  obtain ⟨-, rfl⟩ := enterLevel_eq e1
  split
  · exact oneTick_fails (hk.changeLevel now)
  · exact .ok _

theorem idle_fails (hk : k.Kept) (hl : k.level = .intOff) : FailsOnly Fault.outside (k.idle dev) := by
  have hk' : Kept { k with status := .idleMode } := hk.congr rfl rfl rfl rfl
  refine .bind (checkIfDue_fails hl) fun r e => ?_
  split
  · exact .bind (drainAll_fails (hk'.checkIfDue e) (checkIfDue_level e)) fun _ _ => .ok _
  · exact .ok _

/-! ## Calls and runs -/

/-- `OneTick` ends with interrupts on and no yield asked for. -/
theorem oneTick_eq (h : k.oneTick dev = .ok r) : ∃ k1 k2, k.tick = .ok k1 ∧
    (k1.changeLevel .intOff).drainAll dev = .ok k2 ∧ r = (k2.yieldOnReturn, { k2 with
      level := .intOn
      yieldOnReturn := false
      status := if k2.yieldOnReturn then .systemMode else k2.status }) := by
  obtain ⟨k1, h1, h⟩ := bind_eq_ok.mp h
  obtain ⟨k2, h2, h⟩ := bind_eq_ok.mp h
  refine ⟨k1, k2, h1, h2, ?_⟩
  simp only at h
  split at h
  · rename_i hy
    have hy : k2.yieldOnReturn = true := hy
    cases h
    rw [hy, if_pos rfl]
    rfl
  · rename_i hy
    have hy : k2.yieldOnReturn = false := Bool.eq_false_iff.mpr hy
    have hl : k2.changeLevel .intOn = { k2 with level := .intOn, yieldOnReturn := false } := by
      rw [changeLevel, ← hy]
    cases h
    rw [hl, hy]
    rfl

theorem idle_eq (h : k.idle dev = .ok k') : ∃ r, { k with status := .idleMode }.checkIfDue dev true = .ok r ∧
    (r.1 = true ∧ (∃ k1, r.2.drainAll dev = .ok k1 ∧ k' = { k1 with yieldOnReturn := false, status := .systemMode }) ∨
      r.1 = false ∧ k' = { r.2 with halted := true }) := by
  obtain ⟨r, h1, h⟩ := bind_eq_ok.mp h
  refine ⟨r, h1, ?_⟩
  split at h
  · rename_i ht
    obtain ⟨k1, h2, h⟩ := bind_eq_ok.mp h
    cases h
    exact .inl ⟨ht, k1, h2, rfl⟩
  · rename_i hf
    cases h
    exact .inr ⟨by simpa using hf, rfl⟩

/-- What runs of the interrupt code are made of. `rest` is all that is not the queue. -/
inductive Call (W : Type) where
  | schedule (handler : Nat) (arg : Word) (fromNow : Int) (type : IntType)
  | tick
  | checkIfDue (advanceClock : Bool)
  | rest (level : IntStatus) (yieldOnReturn : Bool) (status : MachineStatus) (halted : Bool) (kernel : W)

/-- The routines of `Interrupt` as the kernel and the devices call them. `other` is the rest
    of the kernel going on, in system or user mode. -/
inductive Event (W : Type) where
  | schedule (handler : Nat) (arg : Word) (fromNow : Int) (type : IntType)
  | setLevel (now : IntStatus)
  | oneTick
  | idle
  | other (status : MachineStatus) (kernel : W)

section

variable (dev : Devices S W)

def call (k : Interrupts W) : Call W → Except Fault (Interrupts W)
  | .schedule handler arg fromNow type => k.schedule handler arg fromNow type
  | .tick => k.tick
  | .checkIfDue advanceClock => do
    let r ← k.checkIfDue dev advanceClock
    return r.2
  | .rest level yieldOnReturn status halted kernel => .ok { k with level, yieldOnReturn, status, halted, kernel }

/-- Nothing happens after `Halt`. -/
def step (k : Interrupts W) (e : Event W) : Except Fault (Interrupts W) :=
  if k.halted then .ok k
  else
    match e with
    | .schedule handler arg fromNow type => k.schedule handler arg fromNow type
    | .setLevel now => do
      let r ← k.setLevel dev now
      return r.2
    | .oneTick => do
      let r ← k.oneTick dev
      return r.2
    | .idle => k.idle dev
    | .other status kernel => if status = .idleMode then .ok k else .ok { k with status, kernel }

end

/-- As the simulation starts. -/
def Booted (k : Interrupts W) : Prop := ∃ w, k = new w

theorem Kept.call (h : k.Kept) {c : Call W} (e : k.call dev c = .ok k') : k'.Kept ∧ k.totalTicks ≤ k'.totalTicks := by
  cases c with
  | schedule handler arg fromNow type =>
    refine ⟨h.schedule e, ?_⟩
    obtain ⟨-, toOccur, -, -, rfl⟩ := schedule_eq e
    exact Int.le_refl _
  | tick =>
    refine ⟨h.tick e, ?_⟩
    obtain ⟨now, systemTicks, userTicks, hn, -, rfl⟩ := tick_eq e
    exact hn
  | checkIfDue advanceClock =>
    obtain ⟨r, e1, e2⟩ := bind_eq_ok.mp e
    cases e2
    refine ⟨h.checkIfDue e1, ?_⟩
    obtain ⟨-, ⟨-, rfl⟩ | ⟨first, rest, -, ⟨-, -, rfl⟩ | ⟨now, -, hn, -, e⟩⟩⟩ := checkIfDue_eq e1
    · exact Int.le_refl _
    · exact Int.le_refl _
    · rcases occur_eq e with ⟨-, -, rfl⟩ | ⟨k', e', rfl⟩
      · exact hn
      · exact (runHandler_due e').1 ▸ hn
  | rest level yieldOnReturn status halted kernel =>
    cases e
    exact ⟨h.congr rfl rfl rfl rfl, Int.le_refl _⟩

/-- `Lib.From` for runs of calls under no condition. -/
abbrev Calls (dev : Devices S W) (k k' : Interrupts W) : Prop := Lib.From (call dev) (fun _ _ => True) k k'

theorem Calls.kept (hc : Calls dev k k') (h : k.Kept) : k'.Kept ∧ k.totalTicks ≤ k'.totalTicks := by
  refine hc.inv (P := fun k' => k'.Kept ∧ k.totalTicks ≤ k'.totalTicks) ?_ ?_
  · intro s hs
    subst hs
    exact ⟨h, Int.le_refl _⟩
  · intro s c s' hs _ e
    obtain ⟨h', ht⟩ := hs.1.call e
    exact ⟨h', Int.le_trans hs.2 ht⟩

theorem calls_one {c : Call W} (e : k.call dev c = .ok k') : Calls dev k k' := From.single c trivial e

theorem drain_calls : ∀ {k : Interrupts W}, drain dev fuel k = .ok k' → Calls dev k k' := by
  induction fuel with
  | zero => intro k e; cases e
  | succ fuel ih =>
    intro k e
    obtain ⟨r, e1, e2⟩ := bind_eq_ok.mp e
    have ho : Calls dev k r.2 := calls_one (c := .checkIfDue false) (bind_eq_ok.mpr ⟨r, e1, rfl⟩)
    split at e2
    · exact ho.trans (ih e2)
    · cases e2; exact ho

theorem oneTick_calls (e : k.oneTick dev = .ok r) : Calls dev k r.2 := by
  obtain ⟨k1, k2, e1, e2, rfl⟩ := oneTick_eq e
  have h1 : Calls dev k k1 := calls_one (c := .tick) e1
  have h2 : Calls dev k1 (k1.changeLevel .intOff) :=
    calls_one (c := .rest .intOff k1.yieldOnReturn k1.status k1.halted k1.kernel) rfl
  have h3 := h1.trans h2
  exact (h3.trans (drain_calls _ e2)).trans (calls_one (c := .rest .intOn false
    (if k2.yieldOnReturn then .systemMode else k2.status) k2.halted k2.kernel) rfl)

theorem step_calls {e : Event W} (h : k.step dev e = .ok k') : Calls dev k k' := by
  unfold step at h
  split at h
  · cases h; exact .init rfl
  cases e with
  | schedule handler arg fromNow type => exact calls_one (c := .schedule handler arg fromNow type) h
  | setLevel now =>
    obtain ⟨r, h1, h2⟩ := bind_eq_ok.mp h
    cases h2
    obtain ⟨k1, h2, h3⟩ := bind_eq_ok.mp h1
    obtain ⟨-, rfl⟩ := enterLevel_eq h2
    have hs : Calls dev k { k with level := now } :=
      calls_one (c := .rest now k.yieldOnReturn k.status k.halted k.kernel) rfl
    split at h3
    · exact hs.trans (oneTick_calls h3)
    · cases h3; exact hs
  | oneTick =>
    obtain ⟨r, h1, h2⟩ := bind_eq_ok.mp h
    cases h2
    exact oneTick_calls h1
  | idle =>
    obtain ⟨r, h1, h2⟩ := idle_eq h
    have hm : Calls dev k { k with status := .idleMode } :=
      calls_one (c := .rest k.level k.yieldOnReturn .idleMode k.halted k.kernel) rfl
    have hc : Calls dev { k with status := .idleMode } r.2 :=
      calls_one (c := .checkIfDue true) (bind_eq_ok.mpr ⟨r, h1, rfl⟩)
    rcases h2 with ⟨-, k1, h2, rfl⟩ | ⟨-, rfl⟩
    · exact ((hm.trans hc).trans (drain_calls _ h2)).trans
        (calls_one (c := .rest k1.level false .systemMode k1.halted k1.kernel) rfl)
    · exact (hm.trans hc).trans
        (calls_one (c := .rest r.2.level r.2.yieldOnReturn r.2.status true r.2.kernel) rfl)
  | other status kernel =>
    simp only at h
    split at h
    · cases h; exact .init rfl
    · cases h
      exact calls_one (c := .rest k.level k.yieldOnReturn status k.halted kernel) rfl

/-! ## Whole runs -/

theorem booted_kept (h : Booted k) : k.Kept := by
  obtain ⟨w, rfl⟩ := h
  refine ⟨List.Pairwise.nil, ?_, rfl, .refl _, ?_, List.Pairwise.nil, ?_, rfl⟩
  · intro e he
    cases he
  · intro x hx
    cases hx
  · intro x hx
    cases hx

theorem reach_calls (h : Reach (step dev) (fun _ _ => True) Booted k) :
    Reach (call dev) (fun _ _ => True) Booted k := by
  induction h with
  | init hi => exact .init hi
  | step e _ _ hst ih => exact ih.trans (step_calls hst)

theorem reach_kept {ok : Interrupts W → Call W → Prop} (h : Reach (call dev) ok Booted k) : k.Kept := by
  refine h.inv (P := Kept) (fun s hs => booted_kept hs) ?_
  intro s c s' hs _ e
  exact (hs.call e).1

/-- The machine is idle only inside `Idle`. -/
def Awake (k : Interrupts W) : Prop := k.halted = false → k.status ≠ .idleMode

theorem oneTick_status (hk : k.Kept) (e : k.oneTick dev = .ok r) (h : k.status ≠ .idleMode) :
    r.2.status ≠ .idleMode ∧ r.2.dueNow = 0 := by
  obtain ⟨k1, k2, e1, e2, rfl⟩ := oneTick_eq e
  have hk1 := (hk.tick e1).changeLevel .intOff
  obtain ⟨now, systemTicks, userTicks, -, -, rfl⟩ := tick_eq e1
  obtain ⟨-, -, hs, hd⟩ := drain_due _ hk1 e2
  have hs : k2.status = k.status := hs
  refine ⟨?_, hd h⟩
  simp only
  split
  · simp
  · rw [hs]; exact h

theorem step_awake (hk : k.Kept) (h : k.Awake) {e : Event W} (hst : k.step dev e = .ok k') : k'.Awake := by
  intro hh'
  unfold step at hst
  split at hst
  · cases hst; exact h hh'
  rename_i hr
  have hs : k.status ≠ .idleMode := h (Bool.eq_false_iff.mpr hr)
  cases e with
  | schedule handler arg fromNow type =>
    obtain ⟨-, toOccur, -, -, rfl⟩ := schedule_eq hst
    exact hs
  | setLevel now =>
    obtain ⟨r, h1, h2⟩ := bind_eq_ok.mp hst
    cases h2
    obtain ⟨k1, h2, h3⟩ := bind_eq_ok.mp h1
    obtain ⟨-, rfl⟩ := enterLevel_eq h2
    split at h3
    · exact (oneTick_status (hk.changeLevel now) h3 hs).1
    · cases h3; exact hs
  | oneTick =>
    obtain ⟨r, h1, h2⟩ := bind_eq_ok.mp hst
    cases h2
    exact (oneTick_status hk h1 hs).1
  | idle =>
    obtain ⟨r, -, ⟨-, k1, -, rfl⟩ | ⟨-, rfl⟩⟩ := idle_eq hst
    · intro hid; cases hid
    · cases hh'
  | other status kernel =>
    simp only at hst
    split at hst
    · cases hst; exact hs
    · rename_i hne
      cases hst
      exact hne

theorem reach_awake (h : Reach (step dev) (fun _ _ => True) Booted k) : k.Awake := by
  induction h with
  | init hi =>
    obtain ⟨w, rfl⟩ := hi
    intro _ hid
    cases hid
  | step e hr _ hst ih => exact step_awake (reach_kept (reach_calls hr)) ih hst

/-- `OneTick` is what an event is, or ends with. -/
def Event.ticks (level : IntStatus) : Event W → Prop
  | .oneTick => True
  | .setLevel now => now = .intOn ∧ level = .intOff
  | _ => False

/-- A drain loop does not run out of calls. -/
theorem step_ends (hk : k.Kept) (e : Event W) : FailsOnly (· ≠ .endless) (k.step dev e) := by
  have hno : ∀ f : Fault, f.outside → f ≠ .endless := by
    rintro f (rfl | rfl) h
    · cases h
    · cases h
  unfold step
  split
  · exact .ok _
  cases e with
  | schedule handler arg fromNow type => exact schedule_fails.mono hno
  | setLevel now =>
    refine .bind (.bind ?_ fun k1 e1 => ?_) fun _ _ => .ok _
    · unfold enterLevel
      split
      · exact .ok _
      · exact .error nofun
    · obtain ⟨-, rfl⟩ := enterLevel_eq e1
      split
      · exact (oneTick_fails (hk.changeLevel now)).mono hno
      · exact .ok _
  | oneTick => exact .bind ((oneTick_fails hk).mono hno) fun _ _ => .ok _
  | idle =>
    by_cases hl : k.level = .intOff
    · exact (idle_fails hk hl).mono hno
    · simp only [idle, checkIfDue, if_neg hl]
      exact .error nofun
  | other status kernel =>
    dsimp only
    split
    · exact .ok _
    · exact .ok _

/-- The interrupt queue over whole runs. -/
theorem interrupts_kept (h : Lib.Reach (step dev) (fun _ _ => True) Booted k) :
    -- each interrupt is called at most once, and those called or pending are those scheduled
    k.scheduled.Nodup ∧ (k.invoked.map (·.1) ++ k.pending.map (·.item)).Perm k.scheduled ∧
    -- not early, and in the order of their times
    (∀ x ∈ k.invoked, x.1.when ≤ x.2 ∧ x.2 ≤ k.totalTicks) ∧ (k.invoked.map (·.1)).Pairwise (·.when ≤ ·.when) ∧
    k.totalTicks = k.idleTicks + k.systemTicks + k.userTicks ∧
    -- the clock does not go back, and `OneTick` ends with nothing due
    ∀ e, k.step dev e ≠ .error .endless ∧ ∀ k', k.step dev e = .ok k' → k.totalTicks ≤ k'.totalTicks ∧
      (k.halted = false → e.ticks k.level → ∀ x ∈ k'.pending, k'.totalTicks < x.item.when) := by
  have hk := reach_kept (reach_calls h)
  refine ⟨hk.nodup, hk.all, hk.due, hk.order, hk.clock, ?_⟩
  intro e
  refine ⟨fun hst => step_ends hk e _ hst rfl, ?_⟩
  intro k' hst
  obtain ⟨hk', htime⟩ := (step_calls hst).kept hk
  refine ⟨htime, ?_⟩
  intro hrunning hticks x hx
  have hstatus := reach_awake h hrunning
  have hdue : k'.dueNow = 0 := by
    simp only [step, hrunning] at hst
    cases e with
    | oneTick =>
      obtain ⟨r, h₁, h₂⟩ := bind_eq_ok.mp hst
      cases h₂
      exact (oneTick_status hk h₁ hstatus).2
    | setLevel now =>
      obtain ⟨r, h₁, h₂⟩ := bind_eq_ok.mp hst
      cases h₂
      obtain ⟨k₁, h₂, h₃⟩ := bind_eq_ok.mp h₁
      obtain ⟨-, rfl⟩ := enterLevel_eq h₂
      have hon : now = .intOn ∧ k.level = .intOff := hticks
      rw [if_pos hon] at h₃
      exact (oneTick_status (hk.changeLevel now) h₃ hstatus).2
    | schedule | idle | other => cases hticks
  have hnot := List.countP_eq_zero.mp hdue x hx
  rw [← hk'.keyed x hx]
  simpa using hnot

/-- A device whose first interrupt schedules another and asks for a yield. -/
def pollOnce : Devices Nat Unit where
  handle p := if p.id = 0 then [.schedule 0 0 15 .consoleReadInt, .v 0, .yieldOnReturn] else []
  signal _ w := some w

/-- The first interrupt is due at 10 and called by the tick that turns interrupts on; the one
    its handler schedules is due at 25, and `Idle` jumps to it. -/
theorem interrupts_kept_by_poll : ∃ k, Lib.Reach (step pollOnce) (fun _ _ => True) Booted k ∧
    k.invoked.map (fun x => (x.1.id, x.2)) = [(0, 10), (1, 25)] ∧ k.idleTicks = 15 ∧ k.scheduled.Nodup ∧
    (k.invoked.map (·.1) ++ k.pending.map (·.item)).Perm k.scheduled ∧
    k.totalTicks = k.idleTicks + k.systemTicks + k.userTicks := by
  obtain ⟨k, hk, ht⟩ : ∃ k, Reach (step pollOnce) (fun _ _ => true) Booted k ∧ _ :=
    exists_reach (step pollOnce) (fun _ _ => true)
      [.schedule 0 0 10 .consoleReadInt, .setLevel .intOn, .setLevel .intOff, .idle]
      (fun k => k.invoked.map (fun x => (x.1.id, x.2)) == [(0, 10), (1, 25)] && k.idleTicks == 15)
      ⟨(), rfl⟩ (by decide +kernel)
  simp only [Bool.and_eq_true, beq_iff_eq] at ht
  have hk : Reach (step pollOnce) (fun _ _ => True) Booted k := hk.mono (fun _ _ _ => trivial)
  obtain ⟨h₁, h₂, -, -, h₃, -⟩ := interrupts_kept hk
  exact ⟨k, hk, ht.1, ht.2, h₁, h₂, h₃⟩

end Nachos.Interrupts

/-
  Nachos.Machine.Ticks — the clock as the 32-bit number it is compiled to.

  In `Nachos.Machine.Interrupt` a sum of times that does not fit an `int` has no meaning. Here it
  wraps around. What is modelled is the time and the queue: what `Schedule` puts there, and what
  the devices schedule when they are called (`Hardware.next`): the console and the network poll
  again, the timer starts again, and the others do nothing. The rest of a handler (`V`,
  `YieldOnReturn`) touches neither.

  As long as no sum wraps, this is the clock and the queue of `Interrupts` (`drain_agrees`). An
  interrupt whose time wraps is due when it is scheduled, so the loop of `OneTick` calls a device
  that polls for ever.
-/

import Nachos.Machine.InterruptQueue

namespace Nachos

open Lib List

abbrev consoleTime : Int := 100
abbrev networkTime : Int := 100
abbrev timerTicks : Int := 100

structure Hardware where
  randomize : Bool
  /-- What `Random` returns when a timer interrupt is taken. -/
  random : Nat → Nat

namespace Hardware

/-- `Timer::TimeOfNextInterrupt`. -/
def timeOfNextInterrupt (hw : Hardware) (id : Nat) : Int :=
  if hw.randomize then 1 + hw.random id % (timerTicks * 2) else timerTicks

/-- When a device is to be called again: `CheckCharAvail`, `CheckPktAvail` and `TimerExpired`
    call `Schedule` first of all, the other handlers do not. -/
def next (hw : Hardware) (i : PendingInterrupt) : Option Int :=
  match i.type with
  | .consoleReadInt => some consoleTime
  | .networkRecvInt => some networkTime
  | .timerInt => some (hw.timeOfNextInterrupt i.id)
  | .diskInt | .consoleWriteInt | .networkSendInt => none

end Hardware

structure Ticks where
  totalTicks : Word
  pending : List (ListElement PendingInterrupt)
  halted : Bool
  /-- History: the interrupts that have been scheduled. -/
  scheduled : List PendingInterrupt

namespace Ticks

open Interrupts (Fault)

def new : Ticks := ⟨0, [], false, []⟩

def schedule (k : Ticks) (handler : Nat) (arg : Word) (fromNow : Int) (type : IntType) : Except Fault Ticks :=
  let when := k.totalTicks + BitVec.ofInt 32 fromNow
  let toOccur : PendingInterrupt := ⟨k.scheduled.length, handler, arg, when.toInt, type⟩
  if 0 < fromNow then
    .ok { k with pending := sortedInsert toOccur when.toInt k.pending, scheduled := k.scheduled ++ [toOccur] }
  else .error (.failed .schedule)

section

variable (hw : Hardware)

/-- `(*(toOccur->handler))(toOccur->arg)`. -/
def handle (k : Ticks) (i : PendingInterrupt) : Except Fault Ticks :=
  match hw.next i with
  | some fromNow => k.schedule i.handler i.arg fromNow i.type
  | none => .ok k

/-- The second half of `CheckIfDue`. -/
def occur (k : Ticks) (status : MachineStatus) (first : ListElement PendingInterrupt) : Except Fault (Bool × Ticks) :=
  if status = .idleMode ∧ first.item.type = .timerInt ∧ k.pending = [] then
    .ok (false, { k with pending := sortedInsert first.item first.key k.pending })
  else do
    let k ← k.handle hw first.item
    return (true, k)

def checkIfDue (k : Ticks) (status : MachineStatus) (advanceClock : Bool) : Except Fault (Bool × Ticks) :=
  match sortedRemove k.pending with
  | none => .ok (false, k)
  | some (first, rest) =>
    if advanceClock ∧ k.totalTicks.toInt < first.key then
      { k with pending := rest, totalTicks := BitVec.ofInt 32 first.key }.occur hw status first
    else if k.totalTicks.toInt < first.key then
      .ok (false, { k with pending := sortedInsert first.item first.key rest })
    else { k with pending := rest }.occur hw status first

/-- `while (CheckIfDue(FALSE));`, for at most so many calls. -/
def drain (status : MachineStatus) : Nat → Ticks → Except Fault Ticks
  | 0, _ => .error .endless
  | calls + 1, k => do
    let r ← k.checkIfDue hw status false
    if r.1 then drain status calls r.2 else return r.2

/-- How `OneTick` advances the time. -/
def tick (k : Ticks) (status : MachineStatus) : Ticks :=
  { k with totalTicks := k.totalTicks + if status = .systemMode then 10 else 1 }

def oneTick (k : Ticks) (status : MachineStatus) (calls : Nat) : Except Fault Ticks :=
  drain hw status calls (k.tick status)

def idle (k : Ticks) (calls : Nat) : Except Fault Ticks := do
  let r ← k.checkIfDue hw .idleMode true
  if r.1 then drain hw .idleMode calls r.2 else return { r.2 with halted := true }

end

/-- A call of `Schedule` by a device, or one of `OneTick`. -/
inductive Work where
  | schedule (handler : Nat) (arg : Word) (fromNow : Int) (type : IntType)
  | oneTick (status : MachineStatus)

/-- What the devices ask for: a request to the disk takes some time, the timer starts with a
    random or a fixed time, and the others take the time that is theirs. The time does not go on
    in idle mode. -/
def Work.Made : Work → Prop
  | .schedule _ _ fromNow .diskInt => 0 < fromNow ∧ fromNow ≤ 2147483647
  | .schedule _ _ fromNow .timerInt => 0 < fromNow ∧ fromNow ≤ timerTicks * 2
  | .schedule _ _ fromNow .consoleReadInt | .schedule _ _ fromNow .consoleWriteInt => fromNow = consoleTime
  | .schedule _ _ fromNow .networkSendInt | .schedule _ _ fromNow .networkRecvInt => fromNow = networkTime
  | .oneTick status => status ≠ .idleMode

inductive Event where
  | work (w : Work)
  | idle

def Event.Made : Event → Prop
  | .work w => w.Made
  | .idle => True

def work (hw : Hardware) (k : Ticks) (calls : Nat) : Work → Except Fault Ticks
  | .schedule handler arg fromNow type => k.schedule handler arg fromNow type
  | .oneTick status => k.oneTick hw status calls

/-- Nothing happens after `Halt`. With an event comes how often its loop may go round. -/
def step (hw : Hardware) (k : Ticks) (e : Event × Nat) : Except Fault Ticks :=
  if k.halted then .ok k
  else
    match e.1 with
    | .work w => k.work hw e.2 w
    | .idle => k.idle hw e.2

/-- The states of the runs in which the devices are as they are. -/
def Reached (hw : Hardware) : Ticks → Prop := Lib.Reach (step hw) (fun _ e => e.1.Made) (· = new)

/-- It comes to an end, and the times `Schedule` has computed are later than the current one. -/
def Finishes (hw : Hardware) (k : Ticks) (w : Work) : Prop :=
  ∃ calls k' new, k.work hw calls w = .ok k' ∧ k'.scheduled = k.scheduled ++ new ∧ ∀ i ∈ new, k'.totalTicks.toInt < i.when

/-- No sum wraps: not the one of `Schedule`, and for `OneTick` not the ones of the devices it calls. -/
def Fits (hw : Hardware) (k : Ticks) : Work → Prop
  | .schedule _ _ fromNow _ => k.totalTicks.toInt + fromNow ≤ 2147483647
  | .oneTick status => ∀ p ∈ k.pending, p.key ≤ (k.tick status).totalTicks.toInt →
      ∀ fromNow ∈ hw.next p.item, (k.tick status).totalTicks.toInt + fromNow ≤ 2147483647

/-! ## Sums -/

variable {fromNow : Int}

theorem lt_add_iff (now : Word) (hp : 0 < fromNow) (hin : fromNow ≤ 2147483647) :
    now.toInt < (now + BitVec.ofInt 32 fromNow).toInt ↔ now.toInt + fromNow ≤ 2147483647 := by
  have hlo := now.le_toInt
  have hhi := now.toInt_lt
  rw [BitVec.toInt_add, BitVec.toInt_ofInt]
  simp only [Int.bmod_def] at *
  omega

theorem toInt_add_of_le (now : Word) (hp : 0 < fromNow) (hf : now.toInt + fromNow ≤ 2147483647) :
    (now + BitVec.ofInt 32 fromNow).toInt = now.toInt + fromNow := by
  have hlo := now.le_toInt
  rw [BitVec.toInt_add, BitVec.toInt_ofInt]
  simp only [Int.bmod_def] at *
  omega

variable {hw : Hardware} {k k' : Ticks} {status : MachineStatus} {i : PendingInterrupt} {handler : Nat}
  {arg : Word} {type : IntType} {r : Bool × Ticks}

theorem next_bounds (h : hw.next i = some fromNow) : 0 < fromNow ∧ fromNow ≤ 200 := by
  unfold Hardware.next at h
  split at h
  · cases h; decide
  · cases h; decide
  · cases h
    unfold Hardware.timeOfNextInterrupt
    simp only [timerTicks]
    split <;> omega
  · cases h
  · cases h
  · cases h

/-! ## The loop -/

/-- What `Schedule` leaves. -/
def scheduling (k : Ticks) (handler : Nat) (arg : Word) (fromNow : Int) (type : IntType) : Ticks :=
  let when := k.totalTicks + BitVec.ofInt 32 fromNow
  let toOccur : PendingInterrupt := ⟨k.scheduled.length, handler, arg, when.toInt, type⟩
  { k with pending := sortedInsert toOccur when.toInt k.pending, scheduled := k.scheduled ++ [toOccur] }

/-- What a handler leaves. -/
def handled (hw : Hardware) (k : Ticks) (i : PendingInterrupt) : Ticks :=
  (hw.next i).elim k fun fromNow => k.scheduling i.handler i.arg fromNow i.type

theorem handle_ok (k : Ticks) (i : PendingInterrupt) : k.handle hw i = .ok (k.handled hw i) := by
  unfold handle handled
  cases h : hw.next i with
  | none => rfl
  | some fromNow => exact if_pos (next_bounds h).1

/-- The three ways a call of the loop of `OneTick` goes. -/
theorem checkIfDue_nil (h : k.pending = []) (advanceClock : Bool) : k.checkIfDue hw status advanceClock = .ok (false, k) := by
  rw [checkIfDue, h]
  rfl

section

variable {first : ListElement PendingInterrupt} {rest : List (ListElement PendingInterrupt)} (h : k.pending = first :: rest)
include h

theorem checkIfDue_later (hlt : k.totalTicks.toInt < first.key) :
    k.checkIfDue hw status false = .ok (false, { k with pending := sortedInsert first.item first.key rest }) := by
  rw [checkIfDue, h]
  show (if _ then _ else if _ then _ else _) = _
  rw [if_neg (by simp), if_pos hlt]

theorem checkIfDue_due (hd : first.key ≤ k.totalTicks.toInt) (hs : status ≠ .idleMode) (advanceClock : Bool) :
    k.checkIfDue hw status advanceClock = .ok (true, { k with pending := rest }.handled hw first.item) := by
  rw [checkIfDue, h]
  show (if _ then _ else if _ then _ else _) = _
  rw [if_neg (by omega), if_neg (by omega), occur, if_neg (by simp [hs]), handle_ok]
  rfl

end

/-- The interrupts that are due. -/
def dueNow (k : Ticks) : Nat := k.pending.countP fun e => decide (e.key ≤ k.totalTicks.toInt)

/-- What the devices that are due schedule does not wrap. -/
def DueFit (hw : Hardware) (k : Ticks) : Prop :=
  ∀ p ∈ k.pending, p.key ≤ k.totalTicks.toInt → ∀ fromNow ∈ hw.next p.item, k.totalTicks.toInt + fromNow ≤ 2147483647

@[simp] theorem handled_totalTicks (k : Ticks) (i : PendingInterrupt) : (k.handled hw i).totalTicks = k.totalTicks := by
  unfold handled
  cases hw.next i <;> rfl

/-- A handler schedules nothing, or one interrupt. -/
theorem handled_cases (hw : Hardware) (k : Ticks) (i : PendingInterrupt) :
    hw.next i = none ∧ k.handled hw i = k ∨ ∃ fromNow toOccur, hw.next i = some fromNow ∧
      (k.totalTicks.toInt < toOccur.when ↔ k.totalTicks.toInt + fromNow ≤ 2147483647) ∧
      k.handled hw i = { k with
        pending := sortedInsert toOccur toOccur.when k.pending
        scheduled := k.scheduled ++ [toOccur] } := by
  unfold handled
  cases h : hw.next i with
  | none => exact .inl ⟨rfl, rfl⟩
  | some fromNow =>
    obtain ⟨hp, hin⟩ := next_bounds h
    exact .inr ⟨fromNow, _, rfl, lt_add_iff k.totalTicks hp (by omega), rfl⟩

theorem handled_scheduled (hw : Hardware) (k : Ticks) (i : PendingInterrupt) :
    ∃ added, (k.handled hw i).scheduled = k.scheduled ++ added ∧ ((∀ j ∈ added, k.totalTicks.toInt < j.when) ↔
      ∀ fromNow ∈ hw.next i, k.totalTicks.toInt + fromNow ≤ 2147483647) := by
  rcases handled_cases hw k i with ⟨hn, e⟩ | ⟨fromNow, toOccur, hn, hwh, e⟩
  · exact ⟨[], by rw [e, append_nil], by simp [hn]⟩
  · exact ⟨[toOccur], by rw [e], by simp [hn, hwh]⟩

theorem handled_sorted (h : Sorted k.pending) (i : PendingInterrupt) : Sorted (k.handled hw i).pending := by
  rcases handled_cases hw k i with ⟨-, e⟩ | ⟨fromNow, toOccur, -, -, e⟩
  · rw [e]; exact h
  · rw [e]; exact sortedInsert_sorted h

theorem mem_handled {p : ListElement PendingInterrupt} (h : p ∈ k.pending) : p ∈ (k.handled hw i).pending := by
  rcases handled_cases hw k i with ⟨-, e⟩ | ⟨fromNow, toOccur, -, -, e⟩
  · rw [e]; exact h
  · rw [e]; exact mem_sortedInsert.mpr (.inr h)

/-- The first interrupt is due and its handler has run: one less is due if what it schedules is later. -/
theorem dueNow_handled {first : ListElement PendingInterrupt} {rest : List (ListElement PendingInterrupt)}
    (h : k.pending = first :: rest) (hd : first.key ≤ k.totalTicks.toInt)
    (hf : ∀ fromNow ∈ hw.next first.item, k.totalTicks.toInt + fromNow ≤ 2147483647) :
    ({ k with pending := rest }.handled hw first.item).dueNow + 1 = k.dueNow := by
  have ho : k.dueNow = ({ k with pending := rest } : Ticks).dueNow + 1 := by
    rw [dueNow, h, countP_cons_of_pos (by simpa using hd)]
    rfl
  rw [ho]
  congr 1
  rcases handled_cases hw { k with pending := rest } first.item with ⟨-, e⟩ | ⟨fromNow, toOccur, hn, hwh, e⟩
  · rw [e]
  have hl : k.totalTicks.toInt < toOccur.when := hwh.mpr (hf fromNow hn)
  rw [e]
  simp only [dueNow]
  rw [(sortedInsert_perm toOccur toOccur.when rest).countP_eq, countP_cons_of_neg (by simpa using hl)]

/-- After that the others that are due are still there, and what is new is not due. -/
theorem DueFit.handled (hf : k.DueFit hw) {first : ListElement PendingInterrupt} {rest : List (ListElement PendingInterrupt)}
    (h : k.pending = first :: rest) (hd : first.key ≤ k.totalTicks.toInt) :
    ({ k with pending := rest }.handled hw first.item).DueFit hw := by
  intro p hp hpd
  have hr : p ∈ rest → ∀ fromNow ∈ hw.next p.item, k.totalTicks.toInt + fromNow ≤ 2147483647 := by
    intro hm
    rw [handled_totalTicks] at hpd
    exact hf p (h ▸ mem_cons_of_mem _ hm) hpd
  rw [handled_totalTicks] at hpd ⊢
  rcases handled_cases hw { k with pending := rest } first.item with ⟨-, e⟩ | ⟨fromNow, toOccur, hn, hwh, e⟩
  · rw [e] at hp
    exact hr hp
  rw [e] at hp
  rcases mem_sortedInsert.mp hp with rfl | hp
  · have hl := hwh.mpr (hf first (h ▸ mem_cons_self) hd fromNow hn)
    exact absurd hpd (Int.not_le.mpr hl)
  · exact hr hp

/-- A loop in which no sum wraps ends: what is scheduled is not due. -/
theorem drain_of_fit (hst : status ≠ .idleMode) (calls : Nat) : ∀ {k : Ticks}, Sorted k.pending → k.DueFit hw →
    k.dueNow < calls → ∃ k' new, drain hw status calls k = .ok k' ∧ k'.totalTicks = k.totalTicks ∧
      k'.scheduled = k.scheduled ++ new ∧ ∀ i ∈ new, k.totalTicks.toInt < i.when := by
  induction calls with
  | zero => intro k _ _ hc; exact absurd hc (Nat.not_lt_zero _)
  | succ calls ih =>
    intro k hs hft hc
    cases hp : k.pending with
    | nil =>
      refine ⟨k, [], ?_, rfl, (append_nil _).symm, by simp⟩
      rw [drain, checkIfDue_nil hp]
      rfl
    | cons first rest =>
      rcases Int.lt_or_le k.totalTicks.toInt first.key with hlt | hdu
      · refine ⟨{ k with pending := sortedInsert first.item first.key rest }, [], ?_, rfl, (append_nil _).symm, by simp⟩
        rw [drain, checkIfDue_later hp hlt]
        rfl
      · have hf := hft first (hp ▸ mem_cons_self) hdu
        have hs' : Sorted ({ k with pending := rest }.handled hw first.item).pending :=
          handled_sorted (pairwise_cons.mp (hp ▸ hs)).2 _
        have hls := dueNow_handled hp hdu hf
        obtain ⟨k', new, hd, ht, hn, hl⟩ := ih hs' (hft.handled hp hdu) (by omega)
        obtain ⟨added, ha, hwh⟩ := handled_scheduled hw { k with pending := rest } first.item
        rw [handled_totalTicks] at ht hl
        rw [drain, checkIfDue_due hp hdu hst]
        refine ⟨k', added ++ new, hd, ht, ?_, ?_⟩
        · rw [hn, ha, append_assoc]
        intro i hi
        rcases mem_append.mp hi with hi | hi
        · exact hwh.mpr hf i hi
        · exact hl i hi

/-- A loop that ends has called every device that was due. If what they scheduled was later, no sum wrapped. -/
theorem fit_of_drain (hst : status ≠ .idleMode) (calls : Nat) : ∀ {k : Ticks}, Sorted k.pending →
    drain hw status calls k = .ok k' → ∃ new, k'.totalTicks = k.totalTicks ∧ k'.scheduled = k.scheduled ++ new ∧
      ((∀ i ∈ new, k.totalTicks.toInt < i.when) → k.DueFit hw) := by
  induction calls with
  | zero => intro k _ h; cases h
  | succ calls ih =>
    intro k hs h
    rw [drain] at h
    cases hp : k.pending with
    | nil =>
      rw [checkIfDue_nil hp] at h
      cases h
      refine ⟨[], rfl, (append_nil _).symm, fun _ p hm => ?_⟩
      rw [hp] at hm
      cases hm
    | cons first rest =>
      obtain ⟨hf, hr⟩ := pairwise_cons.mp (hp ▸ hs)
      rcases Int.lt_or_le k.totalTicks.toInt first.key with hlt | hd
      · rw [checkIfDue_later hp hlt] at h
        cases h
        refine ⟨[], rfl, (append_nil _).symm, fun _ p hm hpd => ?_⟩
        -- the first interrupt is the one that is due first
        have hle : first.key ≤ p.key := by
          rcases mem_cons.mp (hp ▸ hm) with rfl | hm
          · exact Int.le_refl _
          · exact hf p hm
        omega
      · rw [checkIfDue_due hp hd hst] at h
        obtain ⟨new, ht, hn, hft⟩ := ih (handled_sorted (by exact hr) first.item) h
        obtain ⟨added, ha, hwh⟩ := handled_scheduled hw { k with pending := rest } first.item
        rw [handled_totalTicks] at ht hft
        refine ⟨added ++ new, ht, by rw [hn, ha, append_assoc], ?_⟩
        intro hl p hm hpd
        rcases mem_cons.mp (hp ▸ hm) with rfl | hm
        · exact hwh.mp fun i hi => hl i (mem_append.mpr (.inl hi))
        · have := hft (fun i hi => hl i (mem_append.mpr (.inr hi))) p (mem_handled hm)
          rw [handled_totalTicks] at this
          exact this hpd

/-! ## Runs -/

theorem sorted_schedule (hk : Sorted k.pending) (h : k.schedule handler arg fromNow type = .ok k') :
    Sorted k'.pending := by
  unfold schedule at h
  simp only at h
  split at h
  · cases h
    exact sortedInsert_sorted hk
  · cases h

theorem sorted_occur {first : ListElement PendingInterrupt} (hk : Sorted k.pending)
    (h : k.occur hw status first = .ok r) : Sorted r.2.pending := by
  unfold occur at h
  split at h
  · cases h
    exact sortedInsert_sorted hk
  · rw [handle_ok] at h
    cases h
    exact handled_sorted hk _

theorem sorted_checkIfDue {advanceClock : Bool} (hk : Sorted k.pending)
    (h : k.checkIfDue hw status advanceClock = .ok r) : Sorted r.2.pending := by
  cases hp : k.pending with
  | nil =>
    rw [checkIfDue_nil hp] at h
    cases h
    exact hk
  | cons first rest =>
    have hr := (pairwise_cons.mp (hp ▸ hk)).2
    rw [checkIfDue, hp] at h
    simp only [sortedRemove] at h
    split at h
    · exact sorted_occur (by exact hr) h
    split at h
    · cases h
      exact sortedInsert_sorted hr
    · exact sorted_occur (by exact hr) h

theorem sorted_drain (calls : Nat) : ∀ {k : Ticks}, Sorted k.pending → drain hw status calls k = .ok k' → Sorted k'.pending := by
  induction calls with
  | zero => intro k _ h; cases h
  | succ calls ih =>
    intro k hk h
    obtain ⟨r, hc, h⟩ := bind_eq_ok.mp h
    have hr := sorted_checkIfDue hk hc
    split at h
    · exact ih hr h
    · cases h
      exact hr

theorem sorted_step {e : Event × Nat} (hk : Sorted k.pending) (h : k.step hw e = .ok k') : Sorted k'.pending := by
  obtain ⟨e, calls⟩ := e
  unfold step at h
  split at h
  · cases h
    exact hk
  cases e with
  | work w =>
    cases w with
    | schedule handler arg fromNow type => exact sorted_schedule hk h
    | oneTick status => exact sorted_drain (k := k.tick status) calls hk h
  | idle =>
    obtain ⟨r, hc, h⟩ := bind_eq_ok.mp h
    have hr := sorted_checkIfDue hk hc
    split at h
    · exact sorted_drain calls hr h
    · cases h
      exact hr

theorem Reached.sorted (h : Reached hw k) : Sorted k.pending := by
  refine Reach.inv (P := fun k => Sorted k.pending) ?_ ?_ h
  · rintro _ rfl
    exact List.Pairwise.nil
  · intro k e k' hk _ hs
    exact sorted_step hk hs

theorem Work.Made.bounds (h : (Work.schedule handler arg fromNow type).Made) : 0 < fromNow ∧ fromNow ≤ 2147483647 := by
  cases type <;> simp only [Work.Made, consoleTime, networkTime, timerTicks] at h <;> omega

/-- In every state of a run, a call of `OneTick` or of `Schedule` comes to an end and computes
    times that are later than the current one exactly when no sum wraps. -/
theorem finishes_iff (hk : Reached hw k) (w : Work) (hmade : w.Made) : k.Finishes hw w ↔ k.Fits hw w := by
  cases w with
  | schedule handler arg fromNow type =>
    obtain ⟨hpos, hint⟩ := hmade.bounds
    have hok : k.work hw 0 (.schedule handler arg fromNow type) = .ok (k.scheduling handler arg fromNow type) := if_pos hpos
    rw [Fits, ← lt_add_iff k.totalTicks hpos hint]
    constructor
    · rintro ⟨calls, k', new, h, hnew, hlater⟩
      cases hok.symm.trans h
      have : new = _ := (List.append_cancel_left hnew).symm
      subst this
      exact hlater _ List.mem_cons_self
    · intro hlater
      refine ⟨0, _, _, hok, rfl, ?_⟩
      intro i hi
      cases List.mem_singleton.mp hi
      exact hlater
  | oneTick status =>
    constructor
    · rintro ⟨calls, k', new, h, hnew, hlater⟩
      obtain ⟨new', hticks, hnew', hfit⟩ := fit_of_drain (k := k.tick status) hmade calls hk.sorted h
      have : new = new' := List.append_cancel_left (hnew.symm.trans hnew')
      subst this
      rw [hticks] at hlater
      exact hfit hlater
    · intro hfit
      obtain ⟨k', new, h, hticks, hnew, hlater⟩ :=
        drain_of_fit (k := k.tick status) hmade ((k.tick status).dueNow + 1) hk.sorted hfit (Nat.lt_succ_self _)
      refine ⟨(k.tick status).dueNow + 1, k', new, h, hnew, ?_⟩
      rw [hticks]
      exact hlater

/-! ## As long as no sum wraps -/

section

variable {S W : Type} {dev : Interrupts.Devices S W} {s s' : Interrupts W}

/-- The clock and the queue of `Interrupts`. -/
def ofInterrupts (s : Interrupts W) : Ticks := ⟨BitVec.ofInt 32 s.totalTicks, s.pending, s.halted, s.scheduled⟩

def Quiet (a : Interrupts.Action S) : Prop := ∀ handler arg fromNow type, a ≠ .schedule handler arg fromNow type

/-- The handlers are those of the hardware: what follows the call of `Schedule` schedules nothing. -/
def Drives (hw : Hardware) (dev : Interrupts.Devices S W) : Prop :=
  ∀ i, ∃ others, (∀ a ∈ others, Quiet a) ∧
    dev.handle i = (hw.next i).toList.map (fun fromNow => .schedule i.handler i.arg fromNow i.type) ++ others

def IsInt (x : Int) : Prop := -2147483648 ≤ x ∧ x ≤ 2147483647

theorem toInt_ofInt_of_isInt {x : Int} (h : IsInt x) : (BitVec.ofInt 32 x).toInt = x :=
  BitVec.toInt_ofInt_eq_self (by decide) h.1 (by have := h.2; omega)

theorem runHandler_quiet (acts : List (Interrupts.Action S)) (hq : ∀ a ∈ acts, Quiet a) :
    ∀ {s : Interrupts W}, s.runHandler dev acts = .ok s' →
      ofInterrupts s' = ofInterrupts s ∧ s'.totalTicks = s.totalTicks := by
  induction acts with
  | nil => intro s h; cases h; exact ⟨rfl, rfl⟩
  | cons a rest ih =>
    intro s h
    obtain ⟨s1, hac, h⟩ := bind_eq_ok.mp h
    obtain ⟨e, ht⟩ := ih (fun a ha => hq a (mem_cons_of_mem _ ha)) h
    suffices ho : ofInterrupts s1 = ofInterrupts s ∧ s1.totalTicks = s.totalTicks from
      ⟨e.trans ho.1, ht.trans ho.2⟩
    cases a with
    | schedule handler arg fromNow type => exact absurd rfl (hq _ mem_cons_self handler arg fromNow type)
    | yieldOnReturn =>
      unfold Interrupts.act at hac
      simp only at hac
      split at hac
      · cases hac; exact ⟨rfl, rfl⟩
      · cases hac
    | v sem =>
      obtain ⟨w, -, rfl⟩ := Interrupts.handlerV_eq hac
      exact ⟨rfl, rfl⟩

theorem later_isInt {now ticks t : Int} (h : Interrupts.later now ticks = .ok t) : IsInt t := by
  unfold Interrupts.later at h
  split at h
  · rename_i hin
    cases h
    exact hin
  · cases h

theorem schedule_agrees (h : s.schedule handler arg fromNow type = .ok s') :
    (ofInterrupts s).schedule handler arg fromNow type = .ok (ofInterrupts s') ∧ s'.totalTicks = s.totalTicks := by
  obtain ⟨when, hl, h⟩ := bind_eq_ok.mp h
  have hwh : (BitVec.ofInt 32 s.totalTicks + BitVec.ofInt 32 fromNow).toInt = when := by
    rw [← BitVec.ofInt_add, ← Interrupts.later_eq hl, toInt_ofInt_of_isInt (later_isInt hl)]
  simp only at h
  split at h
  · rename_i hp
    cases h
    refine ⟨?_, rfl⟩
    simp only [schedule, ofInterrupts, hwh, if_pos hp]
  · cases h

theorem handle_agrees (hd : Drives hw dev) (h : s.runHandler dev (dev.handle i) = .ok s') :
    (ofInterrupts s).handle hw i = .ok (ofInterrupts s') ∧ s'.totalTicks = s.totalTicks := by
  obtain ⟨others, hq, e⟩ := hd i
  rw [e] at h
  unfold handle
  cases hn : hw.next i with
  | none =>
    rw [hn] at h
    obtain ⟨hs, ht⟩ := runHandler_quiet others hq h
    exact ⟨congrArg Except.ok hs.symm, ht⟩
  | some fromNow =>
    rw [hn] at h
    obtain ⟨s1, hsc, h⟩ := bind_eq_ok.mp h
    obtain ⟨hs, ht⟩ := runHandler_quiet others hq h
    obtain ⟨hok, ht1⟩ := schedule_agrees hsc
    exact ⟨by rw [hs]; exact hok, ht.trans ht1⟩

theorem occur_agrees (hd : Drives hw dev) {first : ListElement PendingInterrupt} {r : Bool × Interrupts W}
    (h : s.occur dev first = .ok r) :
    (ofInterrupts s).occur hw s.status first = .ok (r.1, ofInterrupts r.2) ∧ r.2.totalTicks = s.totalTicks := by
  unfold Interrupts.occur at h
  unfold occur
  split at h
  · rename_i hid
    cases h
    exact ⟨if_pos hid, rfl⟩
  · rename_i hid
    obtain ⟨s1, hr, h⟩ := bind_eq_ok.mp h
    cases h
    obtain ⟨hok, ht⟩ := handle_agrees hd hr
    refine ⟨?_, ht⟩
    exact (if_neg hid).trans (congrArg (· >>= fun k => Except.ok (true, k)) hok)

theorem checkIfDue_agrees (hdri : Drives hw dev) (hin : IsInt s.totalTicks) {r : Bool × Interrupts W}
    (h : s.checkIfDue dev false = .ok r) :
    (ofInterrupts s).checkIfDue hw s.status false = .ok (r.1, ofInterrupts r.2) ∧ r.2.totalTicks = s.totalTicks := by
  have hn : (ofInterrupts s).totalTicks.toInt = s.totalTicks := toInt_ofInt_of_isInt hin
  unfold Interrupts.checkIfDue at h
  split at h
  rotate_left
  · cases h
  cases hp : s.pending with
  | nil =>
    rw [hp] at h
    cases h
    exact ⟨checkIfDue_nil hp _, rfl⟩
  | cons first rest =>
    rw [hp] at h
    rw [checkIfDue, hn, show (ofInterrupts s).pending = first :: rest from hp]
    simp only [sortedRemove, Bool.false_eq_true, false_and, if_false] at h ⊢
    split at h
    · rename_i hlt
      cases h
      rw [if_pos hlt]
      exact ⟨rfl, rfl⟩
    · rename_i hd
      rw [if_neg hd]
      exact occur_agrees hdri h

/-- What the loop does in one model it does in the other. -/
theorem drain_agrees (hd : Drives hw dev) (fuel : Nat) : ∀ {s : Interrupts W}, s.Kept → IsInt s.totalTicks →
    s.drain dev fuel = .ok s' → drain hw s.status fuel (ofInterrupts s) = .ok (ofInterrupts s') := by
  induction fuel with
  | zero => intro s _ _ h; cases h
  | succ fuel ih =>
    intro s hk hin h
    obtain ⟨r, hc, h⟩ := bind_eq_ok.mp h
    obtain ⟨hok, ht⟩ := checkIfDue_agrees hd hin hc
    obtain ⟨-, -, hs, -⟩ := Interrupts.checkIfDue_due hk.sorted hc
    rw [drain, hok]
    show (if r.1 then _ else _) = _
    split at h
    · rename_i htr
      rw [if_pos htr, ← hs]
      exact ih (hk.checkIfDue hc) (by rw [ht]; exact hin) h
    · rename_i hf
      cases h
      exact if_neg hf

end

/-- The console's first call is due. -/
def polled : Interrupts Unit :=
  { Interrupts.new () with
    pending := [⟨100, ⟨0, 0, 0, 100, .consoleReadInt⟩⟩], totalTicks := 100, systemTicks := 100,
    scheduled := [⟨0, 0, 0, 100, .consoleReadInt⟩] }

theorem drain_agrees_polled : ∃ dev : Interrupts.Devices Unit Unit, ∃ s', polled.drain dev 2 = .ok s' ∧
    drain ⟨false, fun _ => 0⟩ .systemMode 2 (ofInterrupts polled) = .ok (ofInterrupts s') := by
  let hw : Hardware := ⟨false, fun _ => 0⟩
  let dev : Interrupts.Devices Unit Unit :=
    ⟨fun i => (hw.next i).toList.map fun fromNow => .schedule i.handler i.arg fromNow i.type, fun _ _ => none⟩
  have hdrives : Drives hw dev := fun i => ⟨[], by simp, by simp [dev]⟩
  have hkept : polled.Kept := by
    constructor <;> simp [polled, Interrupts.new, Sorted]
  obtain ⟨s', h, -⟩ := exists_ok (x := polled.drain dev 2) (fun _ => true) (by decide +kernel)
  exact ⟨dev, s', h, drain_agrees hdrives 2 hkept ⟨by decide, by decide⟩ h⟩

/-! ## A console that polls -/

/-- The console is all there is to wait for. -/
def Polls (k : Ticks) (when : Int) : Prop := ∃ i, k.pending = [⟨when, i⟩] ∧ i.type = .consoleReadInt

section

variable {when : Int} (h : k.Polls when)
include h

theorem Polls.drain_quiet (hlt : k.totalTicks.toInt < when) (calls : Nat) : drain hw status (calls + 1) k = .ok k := by
  obtain ⟨i, hp, -⟩ := h
  have hs : ({ k with pending := [⟨when, i⟩] } : Ticks) = k := by rw [← hp]
  rw [drain, checkIfDue_later hp hlt]
  exact congrArg Except.ok hs

/-- The console is called, and schedules its next call. -/
theorem Polls.drain_poll (hd : when ≤ k.totalTicks.toInt) (hs : status ≠ .idleMode) (calls : Nat) :
    ∃ k1, drain hw status (calls + 1) k = drain hw status calls k1 ∧ k1.totalTicks = k.totalTicks ∧ k1.halted = k.halted ∧
      k1.Polls (k.totalTicks + BitVec.ofInt 32 consoleTime).toInt := by
  obtain ⟨i, hp, ht⟩ := h
  have hn : hw.next i = some consoleTime := by rw [Hardware.next, ht]
  refine ⟨{ k with pending := [] }.scheduling i.handler i.arg consoleTime i.type, ?_, rfl, rfl,
    ⟨k.scheduled.length, i.handler, i.arg, _, i.type⟩, rfl, ht⟩
  rw [drain, checkIfDue_due hp hd hs]
  show drain hw status calls (handled hw _ i) = _
  rw [handled, hn]
  rfl

end

/-- Its time wraps: it is called for ever. -/
theorem Polls.drain_endless (hs : status ≠ .idleMode) (calls : Nat) : ∀ {k : Ticks} {when : Int}, k.Polls when →
    when ≤ k.totalTicks.toInt → 2147483547 < k.totalTicks.toInt → drain hw status calls k = .error .endless := by
  induction calls with
  | zero => intros; rfl
  | succ calls ih =>
    intro k when h hd hl
    obtain ⟨k1, e, ht, -, h1⟩ := h.drain_poll hd hs calls
    have hwr := lt_add_iff k.totalTicks (show 0 < consoleTime by decide) (by decide)
    simp only [consoleTime] at hwr h1
    rw [e]
    refine ih h1 ?_ ?_
    · rw [ht]
      omega
    · rw [ht]
      exact hl

/-- A console that is opened at the start. -/
def opened : Ticks := new.scheduling 0 0 consoleTime .consoleReadInt

theorem reached_opened (hw : Hardware) : Reached hw opened := by
  have hok : new.step hw (.work (.schedule 0 0 consoleTime .consoleReadInt), 0) = .ok opened := rfl
  have hm : (Event.work (.schedule 0 0 consoleTime .consoleReadInt)).Made := rfl
  exact .step _ (.init rfl) hm hok

/-- A thread goes on in system mode while the console waits for input. -/
theorem reached_polls (hw : Hardware) (n : Nat) (hn : n ≤ 214748359) :
    ∃ k, Reached hw k ∧ k.halted = false ∧ k.totalTicks.toInt = 10 * n ∧ k.Polls (100 * (n / 10 + 1)) := by
  induction n with
  | zero => exact ⟨opened, reached_opened hw, rfl, rfl, _, rfl, rfl⟩
  | succ n ih =>
    obtain ⟨k, hk, hr, ht, hp⟩ := ih (by omega)
    have hm : (Event.work (.oneTick .systemMode)).Made := MachineStatus.noConfusion
    have hs : ∀ k', drain hw .systemMode 2 (k.tick .systemMode) = .ok k' → Reached hw k' := by
      intro k' h
      refine .step (.work (.oneTick .systemMode), 2) hk hm ?_
      rw [step, hr]
      exact h
    have hnw : (k.tick .systemMode).totalTicks.toInt = 10 * (n + 1) := by
      have := toInt_add_of_le k.totalTicks (show 0 < (10 : Int) by decide) (by omega)
      show (k.totalTicks + BitVec.ofInt 32 10).toInt = _
      omega
    have hp : (k.tick .systemMode).Polls (100 * (n / 10 + 1)) := hp
    have hr : (k.tick .systemMode).halted = false := hr
    generalize k.tick .systemMode = k at *
    rcases Int.lt_or_le (10 * (n + 1)) (100 * (n / 10 + 1)) with hlt | hd
    · have hq : (((n + 1 : Nat) : Int) / 10 + 1) = n / 10 + 1 := by omega
      refine ⟨k, hs k (hp.drain_quiet (by omega) 1), hr, by omega, ?_⟩
      rw [hq]
      exact hp
    · obtain ⟨k1, e, ht1, hr1, hp1⟩ := hp.drain_poll (by omega) (show MachineStatus.systemMode ≠ .idleMode by decide) 1
      have hwh : (k.totalTicks + BitVec.ofInt 32 consoleTime).toInt = 100 * (((n + 1 : Nat) : Int) / 10 + 1) := by
        rw [toInt_add_of_le k.totalTicks (by decide) (by simp only [consoleTime]; omega)]
        simp only [consoleTime]
        omega
      rw [hwh] at hp1
      rw [← ht1] at hnw
      refine ⟨k1, hs k1 ?_, hr1.trans hr, by omega, hp1⟩
      rw [e]
      exact hp1.drain_quiet (by omega) 0

/-- At 2147483600 the console is called, and its next call, 100 ticks later, is long overdue:
    `OneTick` does not come to an end. -/
theorem poll_for_ever : ∃ hw k, Reached hw k ∧ k.totalTicks.toInt = 2147483590 ∧ (Work.oneTick .systemMode).Made ∧
    ¬ k.Finishes hw (.oneTick .systemMode) ∧ ∀ calls, k.oneTick hw .systemMode calls = .error .endless := by
  have hmade : (Work.oneTick .systemMode).Made := MachineStatus.noConfusion
  obtain ⟨k, hk, -, hticks, hpolls⟩ := reached_polls ⟨false, fun _ => 0⟩ 214748359 (Nat.le_refl _)
  have hnow := toInt_add_of_le k.totalTicks (show 0 < (10 : Int) by decide) (by omega)
  have hendless : ∀ calls, k.oneTick ⟨false, fun _ => 0⟩ .systemMode calls = .error .endless := by
    intro calls
    have hpolls : (k.tick .systemMode).Polls 2147483600 := hpolls
    have hnow : (k.tick .systemMode).totalTicks.toInt = 2147483600 := by
      show (k.totalTicks + BitVec.ofInt 32 10).toInt = _
      omega
    exact hpolls.drain_endless hmade calls (by omega) (by omega)
  refine ⟨_, k, hk, by omega, hmade, ?_, hendless⟩
  rintro ⟨calls, k', new, h, -⟩
  rw [work, hendless] at h
  cases h

/-- Long before, the poll that is due at 100 comes back. -/
theorem first_poll_finishes : ∃ hw k, Reached hw k ∧ (Work.oneTick .systemMode).Made ∧
    (∃ p ∈ k.pending, p.item.type = .consoleReadInt ∧ p.key ≤ (k.tick .systemMode).totalTicks.toInt) ∧
    k.Finishes hw (.oneTick .systemMode) := by
  have hmade : (Work.oneTick .systemMode).Made := MachineStatus.noConfusion
  obtain ⟨k, hk, -, hticks, i, hpending, htype⟩ := reached_polls ⟨false, fun _ => 0⟩ 9 (by decide)
  have hnow : (k.tick .systemMode).totalTicks.toInt = 100 := by
    have hsum := toInt_add_of_le k.totalTicks (show 0 < (10 : Int) by decide) (by omega)
    show (k.totalTicks + BitVec.ofInt 32 10).toInt = _
    omega
  refine ⟨_, k, hk, hmade, ⟨_, by rw [hpending]; exact List.mem_cons_self, htype, ?_⟩,
    (finishes_iff hk _ hmade).mpr fun p hp _ fromNow hnext => ?_⟩
  · show (100 * (((9 : Nat) : Int) / 10 + 1) : Int) ≤ _
    omega
  · rw [hpending] at hp
    cases List.mem_singleton.mp hp
    simp only [Hardware.next, htype, Option.mem_def, Option.some.injEq] at hnext
    rw [hnow, ← hnext]
    decide

end Ticks

end Nachos

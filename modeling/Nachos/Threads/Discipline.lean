/-
  Nachos.Threads.Discipline — the interrupt level is where each routine needs it to be.

  What a thread has still to do fits the level it will go on with (`Fits`): a `SetLevel` on
  the stack says the level for what is below it, a SWITCH is gone on after with interrupts
  off, and a call returns with the level it was made with. A thread that is not on the CPU
  fits interrupts off, whoever turned them off. `step_sound` keeps this, and
  `interrupt_discipline` is what follows for every run: interrupts are off at every SWITCH,
  no ASSERT of `SetLevel`, `CheckIfDue`, `YieldOnReturn` and `Sleep` fails, and `Fork`,
  `Yield`, `P` and `V` return with the level they were called with.
-/

import Mathlib.Logic.Relation
import Nachos.Threads.Levels

namespace Nachos.Interrupts

open Lib
open Function (update update_of_ne update_self)

/-! ## What ticking does to the kernel -/

variable {S W : Type} {dev : Devices S W} {k k' : Interrupts W}

/-- The kernel after any number of `V`s by handlers. -/
abbrev Signals (dev : Devices S W) : W → W → Prop := Relation.ReflTransGen fun w w' => ∃ s, dev.signal s w = some w'

/-- Handlers have run, and no handler is running. -/
structure Served (dev : Devices S W) (k k' : Interrupts W) : Prop where
  kept : k'.Kept
  outside : k'.inHandler = false
  signals : Signals dev k.kernel k'.kernel

theorem Served.trans {k1 k2 k3 : Interrupts W} (h : Served dev k1 k2) (h' : Served dev k2 k3) : Served dev k1 k3 :=
  ⟨h'.kept, h'.outside, h.signals.trans h'.signals⟩

theorem runHandler_signals {acts : List (Action S)} (e : k.runHandler dev acts = .ok k') : Signals dev k.kernel k'.kernel := by
  refine runHandler_inv (P := fun k' => Signals dev k.kernel k'.kernel) acts ?_ ?_ ?_ .refl e
  · intro k1 k2 handler arg fromNow type h e
    obtain ⟨-, toOccur, -, -, rfl⟩ := schedule_eq e
    exact h
  · intro k1 h
    exact h
  · intro k1 s w h hw
    exact h.tail ⟨s, hw⟩

variable {r : Bool × Interrupts W}

theorem checkIfDue_served {advanceClock : Bool} (hk : k.Kept) (ho : k.inHandler = false)
    (e : k.checkIfDue dev advanceClock = .ok r) : Served dev k r.2 := by
  have hk' := hk.checkIfDue e
  obtain ⟨-, ⟨-, rfl⟩ | ⟨first, rest, -, ⟨-, -, rfl⟩ | ⟨now, -, -, -, e⟩⟩⟩ := checkIfDue_eq e
  · exact ⟨hk', ho, .refl⟩
  · exact ⟨hk', ho, .refl⟩
  · rcases occur_eq e with ⟨-, -, rfl⟩ | ⟨k', e', rfl⟩
    · exact ⟨hk', ho, .refl⟩
    · have hs := runHandler_signals e'
      exact ⟨hk', rfl, hs⟩

theorem drain_served (fuel : Nat) : ∀ {k : Interrupts W}, k.Kept → k.inHandler = false → drain dev fuel k = .ok k' →
    Served dev k k' ∧ k'.level = .intOff := by
  induction fuel with
  | zero => intro k _ _ e; cases e
  | succ fuel ih =>
    intro k hk ho e
    obtain ⟨r, e1, e2⟩ := bind_eq_ok.mp e
    have h := checkIfDue_served hk ho e1
    split at e2
    · obtain ⟨h', hl⟩ := ih h.kept h.outside e2
      exact ⟨h.trans h', hl⟩
    · cases e2
      exact ⟨h, checkIfDue_level e1⟩

theorem oneTick_served (hk : k.Kept) (ho : k.inHandler = false) (e : k.oneTick dev = .ok r) :
    Served dev k r.2 ∧ r.2.level = .intOn := by
  obtain ⟨k1, k2, e1, e2, rfl⟩ := oneTick_eq e
  have hk1 := (hk.tick e1).changeLevel .intOff
  obtain ⟨now, systemTicks, userTicks, -, -, rfl⟩ := tick_eq e1
  obtain ⟨h, -⟩ := drain_served _ hk1 ho e2
  exact ⟨⟨h.kept.congr rfl rfl rfl rfl, h.outside, h.signals⟩, rfl⟩

theorem setLevel_served {now : IntStatus} (hk : k.Kept) (ho : k.inHandler = false)
    (e : k.setLevel dev now = .ok r) : Served dev k r.2 ∧ r.2.level = now := by
  obtain ⟨k1, e1, e2⟩ := bind_eq_ok.mp e
  obtain ⟨-, rfl⟩ := enterLevel_eq e1
  split at e2
  · rename_i hon
    obtain ⟨h, hl⟩ := oneTick_served (hk.changeLevel now) ho e2
    exact ⟨⟨h.kept, h.outside, h.signals⟩, hl.trans hon.1.symm⟩
  · cases e2
    exact ⟨⟨hk.changeLevel now, ho, .refl⟩, rfl⟩

theorem idle_served (hk : k.Kept) (ho : k.inHandler = false) (e : k.idle dev = .ok k') :
    Served dev k k' ∧ k'.level = .intOff := by
  have hk0 : Kept { k with status := .idleMode } := hk.congr rfl rfl rfl rfl
  obtain ⟨r, e1, ⟨-, k1, e2, rfl⟩ | ⟨-, rfl⟩⟩ := idle_eq e
  · have h := checkIfDue_served hk0 ho e1
    obtain ⟨h', hl⟩ := drain_served _ h.kept h.outside e2
    exact ⟨⟨h'.kept.congr rfl rfl rfl rfl, h'.outside, h.signals.trans h'.signals⟩, hl⟩
  · have h := checkIfDue_served hk0 ho e1
    exact ⟨⟨h.kept.congr rfl rfl rfl rfl, h.outside, h.signals⟩, checkIfDue_level e1⟩

end Nachos.Interrupts

namespace Nachos.Levels

open Interrupts (Fault Action Devices Served)
open Lib
open Function (update update_of_ne update_self)

/-! ## What a thread needs the level to be -/

/-- A thread that goes on with these frames, with interrupts at `level`. -/
def Fits : IntStatus → List Frame → Prop
  | _, [] => True
  | level, .returning _ l :: rest => level = l ∧ Fits level rest
  | _, .setLevel now :: rest => Fits now rest
  | level, .yield :: rest | level, .inOneTick _ :: rest => Fits level rest
  | level, .inYield oldLevel :: rest | level, .inP _ oldLevel :: rest => level = .intOff ∧ Fits oldLevel rest
  | level, .threadRoot :: rest => level = .intOff ∧ Fits .intOn rest
  | level, .inFinish :: _ => level = .intOff

namespace Kernel

variable {handle : PendingInterrupt → List (Action SemId)} {k k' : Kernel} {fs : List Frame} {w : Threads}
  {t : Tid} {f : Fault} {w' : Threads} {s : SemId} {o : Option Threads} {oldLevel now : IntStatus}
  {old : MachineStatus} {r : Bool × Kernel} {c : Code} {ev : Event}

/-- All but what the current thread needs. -/
structure Sound (k : Kernel) : Prop where
  kept : k.Kept
  outside : k.inHandler = false
  switches : ∀ l ∈ k.kernel.switches, l = .intOff
  others : ∀ t th, t ≠ k.kernel.currentThread → k.kernel.threads t = some th → Fits .intOff th.frames

structure Disciplined (k : Kernel) : Prop extends Sound k where
  current : ∀ th, k.kernel.threads k.kernel.currentThread = some th → Fits k.level th.frames
  idle : k.kernel.idling = true → k.level = .intOff

/-! ## Waking threads -/

/-- The threads may be woken; none moves. -/
structure Stays (w w' : Threads) : Prop where
  currentThread : w'.currentThread = w.currentThread
  idling : w'.idling = w.idling
  switches : w'.switches = w.switches
  frames : ∀ t, (w'.threads t).map (·.frames) = (w.threads t).map (·.frames)

theorem Stays.trans {w1 w2 w3 : Threads} (h : Stays w1 w2) (h' : Stays w2 w3) : Stays w1 w3 :=
  ⟨h'.currentThread.trans h.currentThread, h'.idling.trans h.idling, h'.switches.trans h.switches,
    fun t => (h'.frames t).trans (h.frames t)⟩

theorem modify_eq {f : Thread → Thread} (h : w.modify t f = some w') :
    ∃ th, w.threads t = some th ∧ w' = { w with threads := update w.threads t (some (f th)) } := by
  obtain ⟨th, hth, e⟩ := Option.map_eq_some_iff.mp h
  exact ⟨th, hth, e.symm⟩

theorem readyToRun_stays (h : w.readyToRun t = some w') : Stays w w' := by
  obtain ⟨w1, h1, rfl⟩ := Option.map_eq_some_iff.mp h
  obtain ⟨th, hth, rfl⟩ := modify_eq h1
  refine ⟨rfl, rfl, rfl, ?_⟩
  intro u
  by_cases e : u = t
  · subst e; simp [hth]
  · simp [update_of_ne e]

theorem signal_stays (h : w.signal s = some w') : Stays w w' := by
  simp only [Threads.signal] at h
  split at h
  · have h' := readyToRun_stays h
    exact ⟨h'.currentThread, h'.idling, h'.switches, h'.frames⟩
  · cases h
    exact ⟨rfl, rfl, rfl, fun _ => rfl⟩

theorem signals_stays (h : Interrupts.Signals (devices handle) w w') : Stays w w' := by
  induction h with
  | refl => exact ⟨rfl, rfl, rfl, fun _ => rfl⟩
  | tail _ hs ih =>
    obtain ⟨s, hs⟩ := hs
    exact ih.trans (signal_stays hs)

theorem Stays.thread (h : Stays w w') {th : Thread} (ht : w'.threads t = some th) :
    ∃ th', w.threads t = some th' ∧ th'.frames = th.frames := by
  have hf := h.frames t
  rw [ht, Option.map_some] at hf
  exact Option.map_eq_some_iff.mp hf.symm

theorem Sound.stays (h : k.Sound) (hk : k'.Kept) (ho : k'.inHandler = false) (hs : Stays k.kernel k'.kernel) : k'.Sound := by
  refine ⟨hk, ho, ?_, ?_⟩
  · rw [hs.switches]; exact h.switches
  · intro t th hne ht
    obtain ⟨th', ht', e⟩ := hs.thread ht
    exact e ▸ h.others t th' (hs.currentThread ▸ hne) ht'

theorem Sound.served (h : k.Sound) (hs : Served (devices handle) k k') : k'.Sound :=
  h.stays hs.kept hs.outside (signals_stays hs.signals)

/-! ## Going on and switching -/

theorem put_eq (e : k.put o = .ok k') : ∃ w, o = some w ∧ k' = { k with kernel := w } := by
  cases o with
  | none => cases e
  | some w => cases e; exact ⟨w, rfl, rfl⟩

/-- The account of the interrupts is not about the threads. -/
theorem kept_kernel (h : k.Kept) (w : Threads) : Interrupts.Kept { k with kernel := w } := h.congr rfl rfl rfl rfl

/-- The current thread is given other frames. -/
theorem Sound.modify (h : k.Sound) {g : Thread → Thread}
    (e : k.put (k.kernel.modify k.kernel.currentThread g) = .ok k') (hg : ∀ th, (g th).frames = fs) : k'.Sound ∧ k'.level = k.level ∧
      k'.kernel.idling = k.kernel.idling ∧ ∀ th, k'.kernel.threads k'.kernel.currentThread = some th → th.frames = fs := by
  obtain ⟨w, hw, rfl⟩ := put_eq e
  obtain ⟨th, hth, rfl⟩ := modify_eq hw
  refine ⟨⟨kept_kernel h.kept _, h.outside, h.switches, ?_⟩, rfl, rfl, ?_⟩
  · intro t x hne hx
    exact h.others t x hne ((update_of_ne hne ..).symm.trans hx)
  · intro x hx
    simp only [update_self, Option.some.injEq] at hx
    subst hx
    exact hg th

theorem Sound.goTo (h : k.Sound) (hf : Fits k.level fs) (hr : k.kernel.idling = false) (e : k.goTo fs = .ok k') :
    k'.Disciplined := by
  obtain ⟨h', hl, hi, hc⟩ := h.modify e fun _ => rfl
  refine ⟨h', ?_, ?_⟩
  · intro x hx
    rw [hl, hc x hx]
    exact hf
  · intro hid
    rw [hi, hr] at hid
    cases hid

/-- SWITCH: the old thread and the new one both fit interrupts off. -/
theorem Sound.run (h : k.Sound) (hlv : k.level = .intOff) {next : Tid}
    (hc : ∀ th, k.kernel.threads k.kernel.currentThread = some th → Fits .intOff th.frames) (e : k.run next = .ok k') :
    k'.Disciplined := by
  have ha : ∀ t th, k.kernel.threads t = some th → Fits .intOff th.frames := by
    intro t th ht
    by_cases et : t = k.kernel.currentThread
    · subst et; exact hc th ht
    · exact h.others t th et ht
  obtain ⟨w, hw, rfl⟩ := put_eq e
  obtain ⟨th, hth, rfl⟩ := modify_eq hw
  refine ⟨⟨kept_kernel h.kept _, h.outside, ?_, ?_⟩, ?_, ?_⟩
  · intro l hl
    rcases List.mem_append.mp hl with hl | hl
    · exact h.switches l hl
    · exact (List.mem_singleton.mp hl).trans hlv
  · intro t x hne hx
    exact ha t x ((update_of_ne hne ..).symm.trans hx)
  · intro x hx
    simp only [update_self, Option.some.injEq] at hx
    subst hx
    show Fits k.level th.frames
    rw [hlv]
    exact ha next th hth
  · intro hid
    cases hid

theorem Sound.sleepLoop (h : k.Sound) (hl : k.level = .intOff)
    (hc : ∀ th, k.kernel.threads k.kernel.currentThread = some th → Fits .intOff th.frames) (e : k.sleepLoop = .ok k') :
    k'.Disciplined := by
  unfold Kernel.sleepLoop at e
  split at e
  · rename_i next rest _
    have h' : Sound { k with kernel := { k.kernel with readyList := rest } } :=
      ⟨kept_kernel h.kept _, h.outside, h.switches, h.others⟩
    exact h'.run hl hc e
  · cases e
    refine ⟨⟨kept_kernel h.kept _, h.outside, h.switches, h.others⟩, ?_, fun _ => hl⟩
    intro th hth
    show Fits k.level th.frames
    rw [hl]
    exact hc th hth

theorem Sound.sleep (h : k.Sound) (hf : Fits .intOff fs) (e : k.sleep fs = .ok k') : k'.Disciplined := by
  unfold Kernel.sleep at e
  split at e
  · rename_i hl
    obtain ⟨k1, e1, e2⟩ := bind_eq_ok.mp e
    obtain ⟨h', hl', -, hc⟩ := h.modify e1 fun _ => rfl
    refine h'.sleepLoop (hl'.trans hl) ?_ e2
    intro x hx
    rw [hc x hx]
    exact hf
  · cases e

/-- One test of `P`: it passes and restores the level, or the thread sleeps. -/
theorem Sound.pLoop (h : k.Sound) (hf : Fits oldLevel fs) (hr : k.kernel.idling = false)
    (e : k.pLoop s oldLevel fs = .ok k') : k'.Disciplined := by
  simp only [Kernel.pLoop] at e
  have h' : ∀ sem, Sound { k with kernel := { k.kernel with sems := update k.kernel.sems s sem } } :=
    fun sem => ⟨kept_kernel h.kept _, h.outside, h.switches, h.others⟩
  split at e
  · refine (h' _).goTo ?_ hr e
    exact hf
  · refine (h' _).sleep ?_ e
    exact ⟨rfl, hf⟩

theorem Sound.afterSwitch (h : k.Sound) (e : k.afterSwitch = .ok k') :
    k'.Sound ∧ k'.level = k.level ∧ k'.kernel.idling = k.kernel.idling := by
  unfold Kernel.afterSwitch at e
  split at e
  · cases e; exact ⟨h, rfl, rfl⟩
  rename_i t _
  split at e
  · cases e
  cases e
  refine ⟨⟨kept_kernel h.kept _, h.outside, h.switches, ?_⟩, rfl, rfl⟩
  intro u x hne hx
  by_cases eu : u = t
  · subst eu; simp at hx
  · exact h.others u x hne ((update_of_ne eu ..).symm.trans hx)

/-- After a tick, with the level the frames below need. -/
theorem Sound.ticked (h : Sound r.2) (hf : Fits r.2.level fs) (hr : r.2.kernel.idling = false)
    (e : ticked old r fs = .ok k') : k'.Disciplined := by
  unfold Kernel.ticked at e
  split at e
  · refine h.goTo ?_ hr e
    exact ⟨rfl, hf⟩
  · exact h.goTo hf hr e

/-- `SetLevel` outside handlers: the threads stay where they are. -/
theorem Sound.setLevel (h : k.Sound) (e : k.setLevel (devices handle) now = .ok r) :
    Sound r.2 ∧ r.2.level = now ∧ Stays k.kernel r.2.kernel := by
  obtain ⟨hs, hl⟩ := Interrupts.setLevel_served h.kept h.outside e
  exact ⟨h.served hs, hl, signals_stays hs.signals⟩

theorem Sound.yield (h : k.Sound) (hf : Fits k.level fs) (hr : k.kernel.idling = false)
    (e : k.yield handle fs = .ok k') : k'.Disciplined := by
  obtain ⟨r, e1, e2⟩ := bind_eq_ok.mp e
  obtain ⟨h1, hl, hs⟩ := h.setLevel e1
  have hr1 : r.2.kernel.idling = false := hs.idling.trans hr
  split at e2
  · refine h1.goTo ?_ hr1 e2
    exact hf
  rename_i next rest _
  obtain ⟨k2, e2, e3⟩ := bind_eq_ok.mp e2
  obtain ⟨k3, e3, e4⟩ := bind_eq_ok.mp e3
  obtain ⟨w, hw, rfl⟩ := put_eq e2
  have hs2 := readyToRun_stays hw
  have h2 : Sound { r.2 with kernel := w } :=
    h1.stays (kept_kernel h1.kept w) h1.outside ⟨hs2.currentThread, hs2.idling, hs2.switches, hs2.frames⟩
  have h3 : k3.Disciplined := by
    refine h2.goTo ?_ (hs2.idling.trans hr1) e3
    exact ⟨hl, hf⟩
  have hl3 : k3.level = .intOff := by
    obtain ⟨w', -, rfl⟩ := put_eq e3
    exact hl
  refine h3.toSound.run hl3 ?_ e4
  intro th hth
  exact hl3 ▸ h3.current th hth

/-! ## Steps -/

theorem Disciplined.frames (h : k.Disciplined) : Fits k.level k.frames := by
  unfold Kernel.frames
  cases hth : k.kernel.threads k.kernel.currentThread with
  | none => trivial
  | some th => exact h.current th hth

theorem Sound.next (h : k.Sound) {f : Frame} (hf : Fits k.level (f :: fs)) (hr : k.kernel.idling = false)
    (e : k.next handle f fs = .ok k') (hd : f = .inFinish → k.Disciplined) : k'.Disciplined := by
  cases f with
  | returning r l => exact h.goTo hf.2 hr e
  | setLevel now =>
    obtain ⟨r, e1, e2⟩ := bind_eq_ok.mp e
    obtain ⟨h1, hl, hs⟩ := h.setLevel e1
    have hf1 : Fits r.2.level fs := by rw [hl]; exact hf
    exact h1.ticked hf1 (hs.idling.trans hr) e2
  | yield =>
    have hf' : Fits k.level fs := hf
    exact h.yield hf' hr e
  | inOneTick old =>
    have hf' : Fits k.level fs := hf
    have h' : Sound { k with status := old } := ⟨h.kept.congr rfl rfl rfl rfl, h.outside, h.switches, h.others⟩
    exact h'.goTo hf' hr e
  | inYield oldLevel =>
    obtain ⟨k1, e1, e2⟩ := bind_eq_ok.mp e
    obtain ⟨h1, hl, hid⟩ := h.afterSwitch e1
    refine h1.goTo ?_ (hid.trans hr) e2
    exact hf.2
  | inP s oldLevel =>
    obtain ⟨k1, e1, e2⟩ := bind_eq_ok.mp e
    obtain ⟨h1, -, hid⟩ := h.afterSwitch e1
    exact h1.pLoop hf.2 (hid.trans hr) e2
  | threadRoot =>
    refine h.goTo ?_ hr e
    exact hf.2
  | inFinish => cases e; exact hd rfl

theorem fork_stays (hf : fork w = some w') : w'.currentThread = w.currentThread ∧
    w'.idling = w.idling ∧ w'.switches = w.switches ∧
    ∀ t th, w'.threads t = some th → th.frames = [.threadRoot] ∨ ∃ th', w.threads t = some th' ∧ th'.frames = th.frames := by
  have hs := readyToRun_stays hf
  refine ⟨hs.currentThread, hs.idling, hs.switches, ?_⟩
  intro t th ht
  obtain ⟨th', ht', e⟩ := hs.thread ht
  by_cases et : t = w.created
  · subst et
    simp only [update_self, Option.some.injEq] at ht'
    subst ht'
    exact .inl e.symm
  · exact .inr ⟨th', (update_of_ne et ..).symm.trans ht', e⟩

/-- The new thread begins in `ThreadRoot`. -/
theorem Sound.fork (h : Sound k) (hf : fork k.kernel = some w) : Sound { k with kernel := w } := by
  obtain ⟨hc, -, hsw, hth⟩ := fork_stays hf
  refine ⟨kept_kernel h.kept w, h.outside, ?_, ?_⟩
  · intro l hl
    exact h.switches l (hsw ▸ hl)
  intro t th hne ht
  rcases hth t th ht with hr | ⟨th', ht', hs⟩
  · rw [hr]
    exact ⟨rfl, trivial⟩
  · exact hs ▸ h.others t th' (fun et => hne (et.trans hc.symm)) ht'

theorem Disciplined.call (h : k.Disciplined) (hr : k.kernel.idling = false) (e : k.call handle c = .ok k') :
    k'.Disciplined := by
  have ho : ∀ {r : Bool × Kernel}, k.setLevel (devices handle) .intOff = .ok r →
      Sound r.2 ∧ r.2.kernel.idling = false := by
    intro r e
    obtain ⟨h1, -, hs⟩ := h.toSound.setLevel e
    exact ⟨h1, hs.idling.trans hr⟩
  cases c with
  | fork =>
    obtain ⟨r, e1, e2⟩ := bind_eq_ok.mp e
    obtain ⟨k2, e2, e3⟩ := bind_eq_ok.mp e2
    obtain ⟨h1, hr1⟩ := ho e1
    obtain ⟨w, hw, rfl⟩ := put_eq e2
    obtain ⟨-, hid, -⟩ := fork_stays hw
    refine (h1.fork hw).goTo ?_ (hid.trans hr1) e3
    exact ⟨rfl, trivial⟩
  | yield =>
    refine h.toSound.goTo ?_ hr e
    exact ⟨rfl, trivial⟩
  | p s =>
    obtain ⟨r, e1, e2⟩ := bind_eq_ok.mp e
    obtain ⟨h1, hr1⟩ := ho e1
    refine h1.pLoop ?_ hr1 e2
    exact ⟨rfl, trivial⟩
  | v s =>
    obtain ⟨r, e1, e2⟩ := bind_eq_ok.mp e
    obtain ⟨k2, e2, e3⟩ := bind_eq_ok.mp e2
    obtain ⟨h1, hr1⟩ := ho e1
    obtain ⟨w, hw, rfl⟩ := put_eq e2
    have hs := signal_stays hw
    have h2 : Sound { r.2 with kernel := w } := h1.stays (kept_kernel h1.kept w) h1.outside hs
    refine h2.goTo ?_ (hs.idling.trans hr1) e3
    exact ⟨rfl, trivial⟩
  | finish =>
    obtain ⟨r, e1, e2⟩ := bind_eq_ok.mp e
    obtain ⟨h1, -⟩ := ho e1
    have h2 : Sound { r.2 with kernel := { r.2.kernel with threadToBeDestroyed := some r.2.kernel.currentThread } } :=
      ⟨kept_kernel h1.kept _, h1.outside, h1.switches, h1.others⟩
    refine h2.sleep ?_ e2
    rfl
  | setLevel now =>
    refine h.toSound.goTo ?_ hr e
    trivial
  | instruction =>
    simp only [Kernel.call] at e
    split at e
    · obtain ⟨r, e1, e2⟩ := bind_eq_ok.mp e
      obtain ⟨hs, -⟩ := Interrupts.oneTick_served h.kept h.outside e1
      refine Sound.ticked (h.toSound.served hs) ?_ ?_ e2
      · trivial
      · exact (signals_stays hs.signals).idling.trans hr
    · cases e; exact h
  | setStatus status =>
    simp only [Kernel.call] at e
    split at e
    · cases e; exact h
    · cases e
      exact ⟨⟨h.kept.congr rfl rfl rfl rfl, h.outside, h.switches, h.others⟩, h.current, h.idle⟩

theorem step_sound (h : k.Disciplined) (e : k.step handle ev = .ok k') : k'.Disciplined := by
  unfold step at e
  split at e
  · cases e; exact h
  cases ev with
  | schedule handler arg fromNow type =>
    have hk' := h.kept.schedule e
    obtain ⟨-, toOccur, -, -, rfl⟩ := Interrupts.schedule_eq e
    exact ⟨⟨hk', h.outside, h.switches, h.others⟩, h.current, h.idle⟩
  | idle =>
    simp only at e
    split at e
    rotate_left
    · cases e; exact h
    rename_i hid
    obtain ⟨k1, e1, e2⟩ := bind_eq_ok.mp e
    obtain ⟨hs, hl⟩ := Interrupts.idle_served h.kept h.outside e1
    have hst := signals_stays hs.signals
    have h1 := h.toSound.served hs
    -- the sleeper may have been woken, but it has the same to do
    have hc : ∀ th, k1.kernel.threads k1.kernel.currentThread = some th → Fits .intOff th.frames := by
      intro th hth
      obtain ⟨th', ht', hsm⟩ := hst.thread hth
      rw [hst.currentThread] at ht'
      exact hsm ▸ h.idle hid ▸ h.current th' ht'
    split at e2
    · cases e2
      refine ⟨h1, ?_, fun _ => hl⟩
      rw [hl]
      exact hc
    · exact h1.sleepLoop hl hc e2
  | next =>
    simp only at e
    split at e
    · cases e; exact h
    rename_i hr
    split at e
    · cases e; exact h
    · rename_i f rest hf
      exact h.toSound.next (hf ▸ h.frames) (Bool.eq_false_iff.mpr hr) e (fun _ => h)
  | code c =>
    simp only at e
    split at e
    · cases e; exact h
    · rename_i hr
      simp only [Bool.or_eq_true, not_or] at hr
      exact h.call (Bool.eq_false_iff.mpr hr.1) e

theorem booted_disciplined (h : Booted k) : k.Disciplined := by
  obtain ⟨value, rfl⟩ := h
  refine ⟨⟨Interrupts.booted_kept ⟨_, rfl⟩, rfl, ?_, ?_⟩, ?_, ?_⟩
  · intro l hl
    cases hl
  · intro t th hne ht
    simp only [Interrupts.new] at hne ht
    rw [if_neg hne] at ht
    cases ht
  · intro th hth
    cases hth
    trivial
  · intro hid
    cases hid

/-! ## What can fail -/

/-- What the interrupt code does not guard against, and a thread that would delete itself. -/
def Permitted (f : Fault) : Prop := f.outside ∨ f = .failed .destroy

theorem put_fails : FailsOnly Permitted (k.put o) := by
  cases o with
  | none => exact .error (.inl (.inr rfl))
  | some w => exact .ok _

theorem sleepLoop_fails : FailsOnly Permitted k.sleepLoop := by
  unfold sleepLoop
  split
  · exact put_fails
  · exact .ok _

theorem sleep_fails (hl : k.level = .intOff) : FailsOnly Permitted (k.sleep fs) := by
  rw [sleep, if_pos hl]
  exact .bind put_fails fun _ _ => sleepLoop_fails

theorem pLoop_fails (hl : k.level = .intOff) : FailsOnly Permitted (k.pLoop s oldLevel fs) := by
  unfold pLoop
  dsimp only
  split
  · exact put_fails
  · exact sleep_fails hl

theorem afterSwitch_fails : FailsOnly Permitted k.afterSwitch := by
  unfold afterSwitch
  split
  · exact .ok _
  · split
    · exact .error (.inr rfl)
    · exact .ok _

theorem ticked_fails : FailsOnly Permitted (ticked old r fs) := by
  unfold ticked
  split
  · exact put_fails
  · exact put_fails

theorem Sound.setLevel_fails (h : k.Sound) : FailsOnly Permitted (k.setLevel (devices handle) now) :=
  (Interrupts.setLevel_fails h.kept h.outside).mono fun _ => .inl

theorem Sound.yield_fails (h : k.Sound) : FailsOnly Permitted (k.yield handle fs) := by
  refine .bind h.setLevel_fails fun r _ => ?_
  split
  · exact put_fails
  · exact .bind put_fails fun _ _ => .bind put_fails fun _ _ => put_fails

theorem Sound.next_fails (h : k.Sound) {fr : Frame} (hf : Fits k.level (fr :: fs)) :
    FailsOnly Permitted (k.next handle fr fs) := by
  cases fr with
  | returning r l => exact put_fails
  | setLevel now => exact .bind h.setLevel_fails fun _ _ => ticked_fails
  | yield => exact h.yield_fails
  | inOneTick old => exact put_fails
  | inYield oldLevel => exact .bind afterSwitch_fails fun _ _ => put_fails
  | inP s oldLevel => exact .bind afterSwitch_fails fun k1 e1 => pLoop_fails ((h.afterSwitch e1).2.1.trans hf.1)
  | threadRoot => exact put_fails
  | inFinish => exact .ok _

theorem Sound.call_fails (h : k.Sound) : FailsOnly Permitted (k.call handle c) := by
  cases c with
  | fork => exact .bind h.setLevel_fails fun _ _ => .bind put_fails fun _ _ => put_fails
  | yield => exact put_fails
  | p s => exact .bind h.setLevel_fails fun r e => pLoop_fails (h.setLevel e).2.1
  | v s => exact .bind h.setLevel_fails fun _ _ => .bind put_fails fun _ _ => put_fails
  | finish =>
    refine .bind h.setLevel_fails fun r e => sleep_fails ?_
    exact (h.setLevel e).2.1
  | setLevel now => exact put_fails
  | instruction =>
    simp only [Kernel.call]
    split
    · exact .bind ((Interrupts.oneTick_fails h.kept).mono fun _ => .inl) fun _ _ => ticked_fails
    · exact .ok _
  | setStatus status =>
    simp only [Kernel.call]
    split
    · exact .ok _
    · exact .ok _

theorem Disciplined.step_fails (h : k.Disciplined) : FailsOnly Permitted (k.step handle ev) := by
  unfold step
  split
  · exact .ok _
  cases ev with
  | schedule handler arg fromNow type => exact Interrupts.schedule_fails.mono fun _ => .inl
  | idle =>
    dsimp only
    split
    · rename_i hid
      refine .bind ((Interrupts.idle_fails h.kept (h.idle hid)).mono fun _ => .inl) fun k1 _ => ?_
      split
      · exact .ok _
      · exact sleepLoop_fails
    · exact .ok _
  | next =>
    dsimp only
    split
    · exact .ok _
    split
    · exact .ok _
    · rename_i fr rest hf
      exact h.toSound.next_fails (hf ▸ h.frames)
  | code c =>
    dsimp only
    split
    · exact .ok _
    · exact h.toSound.call_fails

/-! ## Whole runs -/

/-- Interrupts are off at every SWITCH. No ASSERT fails but that of `Schedule`, when it is asked
    for an interrupt that is not in the future, and that of a thread that deletes itself. A call of
    `Fork`, `Yield`, `P` or `V` that is about to return has the level it was made with, and in a
    handler `V` leaves the level as it is. -/
theorem interrupt_discipline (h : Lib.Reach (step handle) (fun _ _ => True) Booted k) :
    (∀ l ∈ k.kernel.switches, l = .intOff) ∧
    (∀ e a, k.step handle e = .error (.failed a) → a = .schedule ∨ a = .destroy) ∧
    (∀ r level rest, k.frames = .returning r level :: rest → k.level = level) ∧
    ∀ (j j' : Kernel) s, j.handlerV (devices handle) s = .ok j' → j'.level = j.level := by
  have hk : k.Disciplined := by
    refine h.inv (P := Disciplined) (fun s hs => booted_disciplined hs) ?_
    intro s e s' hs _ hst
    exact step_sound hs hst
  refine ⟨hk.switches, ?_, ?_, ?_⟩
  · intro e a hst
    rcases hk.step_fails _ hst with (ha | ha) | ha
    · cases ha; exact .inl rfl
    · cases ha
    · cases ha; exact .inr rfl
  · intro r level rest hf
    have hfits := hk.frames
    rw [hf] at hfits
    exact hfits.1
  · intro j j' s e
    obtain ⟨w, -, rfl⟩ := Interrupts.handlerV_eq e
    rfl

/-- The timer's handler asks for a yield. -/
def timer : PendingInterrupt → List (Action SemId) := fun _ => [.yieldOnReturn]

/-- The main thread forks another, and the tick in the last statement of `Fork` makes it yield. The
    new thread runs with interrupts on and finishes; the yield is about to return to that tick. -/
theorem interrupt_discipline_in_a_tick : ∃ k, Lib.Reach (step timer) (fun _ _ => True) Booted k ∧
    k.frames = [.returning .yield .intOn, .inOneTick .systemMode, .returning .fork .intOn] ∧ k.level = .intOn ∧
    k.kernel.switches.length = 2 ∧ ∀ l ∈ k.kernel.switches, l = .intOff := by
  obtain ⟨k, hk, ht⟩ : ∃ k, Reach (step timer) (fun _ _ => true) Booted k ∧ _ :=
    exists_reach (step timer) (fun _ _ => true)
      [.next, .code .fork, .schedule 0 0 5 .timerInt, .next, .next, .next, .next, .code .finish, .next, .next]
      (fun k => k.frames == [.returning .yield .intOn, .inOneTick .systemMode, .returning .fork .intOn] &&
        k.kernel.switches.length == 2) ⟨fun _ => 0, rfl⟩ (by decide +kernel)
  simp only [Bool.and_eq_true, beq_iff_eq] at ht
  have hk : Reach (step timer) (fun _ _ => True) Booted k := hk.mono (fun _ _ _ => trivial)
  obtain ⟨hswitches, -, hreturn, -⟩ := interrupt_discipline hk
  exact ⟨k, hk, ht.1, hreturn _ _ _ ht.1, ht.2, hswitches⟩

end Kernel

end Nachos.Levels

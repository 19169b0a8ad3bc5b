/-
  Nachos.Threads.ConsoleOutput — `Write` on the console is atomic.

  `WLineBlock` is a lock, so one thread writes at a time. Between its `PutChar` and the end
  of its `P` on `synchWriteAvail` there is either an interrupt still to come or a permit,
  and never both; at all other times there is neither. So the device is free whenever
  `PutChar` is called, and the display shows whole buffers.
-/

import Nachos.Threads.SynchConsole

namespace Nachos.SynchConsole

open Client (Call Mutex Held UsesLock Turn Fired Resumed Orderly WaitsAt)
open Lib List

/-! ## The lock -/

def Place.wPhase : Place → Client.Phase
  | .writeLine .. => .acquiring
  | .charPut .. | .writeAvail .. => .inside
  | _ => .out

variable {l : Place} {x : List Byte × Word × Nat} {t : Tid} {d : Interrupt} {g g' : Shared} {vs : List SemId}
  {due : List Interrupt} {source typed : List Byte} {numBytes : Word} {loop : Nat}

section

variable {sc : SynchConsole}

theorem Place.wPhase_writesNext (h : l.writesNext = some x) : l.wPhase ≠ .out := by
  cases l with
  | writeLine | writeAvail => intro h'; cases h'
  | outside | charPut | readLine | charGot | readAvail => cases h

theorem Place.wPhase_readsNext {x : Word × List Byte × Nat × Option Byte × Bool} (h : l.readsNext = some x) :
    l.wPhase = .out := by
  cases l with
  | readLine | charGot => rfl
  | outside | writeLine | charPut | writeAvail | readAvail => cases h

theorem usesWLine (hd : sc.sems.Nodup) : UsesLock sc.client sc.wLineBlock Place.wPhase where
  turn {i g l g' l' call} h := by
    obtain ⟨-, -, hrw, -, haw, hrl⟩ := distinct_sems hd
    have hn := Call.none_ne sc.wLineBlock
    cases turn_moves h with
    | idle hf => exact .away (hf sc.wLineBlock (by simp [sems]))
    | write => exact .acquire
    | read => exact .away (Call.p_ne hrl)
    | put hl => exact .stays (Place.wPhase_writesNext hl) hn
    | awaitPut => exact .stays (by intro h; cases h) (Call.p_ne haw)
    | written hl => exact .release (Place.wPhase_writesNext hl)
    | awaitChar hl => rw [Place.wPhase_readsNext hl]; exact .away (Call.p_ne hrw)
    | received hl => rw [Place.wPhase_readsNext hl]; exact .away (Call.v_ne hrl)
    | getNothing => exact .away (Call.p_ne hrw)
    | getEnd | getChar => exact .away hn
  fire h hs := by
    obtain ⟨-, -, hrw, -, haw, -⟩ := distinct_sems hd
    rcases fire_signals h hs with e | e | e
    · exact hrw e.symm
    · exact haw e.symm
    · exact e (by simp [sems])

end

/-! ## The device -/

/-- The thread has put a character, and not got past `synchWriteAvail->P()`: it is inside. -/
def Place.awaits (l : Place) (inside : Bool) : Bool :=
  match l with
  | .charPut .. => true
  | .writeAvail .. => inside
  | _ => false

def Awaits (sc : SynchConsole) (s : Client.State Shared Place) (t : Tid) : Prop :=
  (s.locals t).awaits ((s.kernel.counter sc.synchWriteAvail).waits t) = true

/-- The thread has called `synchWriteAvail->P()`. -/
def Place.putting (l : Place) : Prop := ∃ source numBytes loop, l = .writeAvail source numBytes loop

/-- A character that has been put has an interrupt to come or a permit; there is no other. -/
structure Handshake (sc : SynchConsole) (s : Client.State Shared Place) : Prop where
  made : sc.synchWriteAvail < s.kernel.numSems
  waiting : ∀ t, (s.kernel.counter sc.synchWriteAvail).waits t = true →
    ∃ source numBytes loop, s.locals t = .writeAvail source numBytes loop
  flag : s.shared.cons.putBusy = decide (0 < s.shared.cons.writesDue)
  busy : ∀ t, Awaits sc s t → s.shared.cons.writesDue + (s.kernel.counter sc.synchWriteAvail).value.toNat = 1
  quiet : (∀ t, ¬ Awaits sc s t) → s.shared.cons.writesDue = 0 ∧ (s.kernel.counter sc.synchWriteAvail).value = 0

section

variable {sc : SynchConsole} {s s' : Client.State Shared Place}

theorem Place.wPhase_awaits {inside : Bool} (h : l.awaits inside = true) : l.wPhase = .inside := by
  cases l with
  | charPut | writeAvail => rfl
  | outside | writeLine | readLine | charGot | readAvail => cases h

/-- A thread at the test of a loop that is inside no `P`. -/
theorem Place.not_awaits_writesNext (h : l.writesNext = some x) : l.awaits false = false := by
  cases l with
  | writeLine | writeAvail => rfl
  | outside | charPut | readLine | charGot | readAvail => cases h

theorem Place.not_awaits_readsNext {x : Word × List Byte × Nat × Option Byte × Bool} (h : l.readsNext = some x) :
    l.awaits false = false := by
  cases l with
  | readLine | charGot => rfl
  | outside | writeLine | charPut | writeAvail | readAvail => cases h

theorem Awaits.held (hm : Mutex sc.wLineBlock Place.wPhase s) (h : Awaits sc s t) :
    Held sc.wLineBlock Place.wPhase s t := hm.inside (Place.wPhase_awaits h)

/-- While a thread is about to put a character, or to return, nobody awaits one. -/
theorem not_awaits (hm : Mutex sc.wLineBlock Place.wPhase s) (hl : (s.locals t).writesNext = some x)
    (hw : ∀ sem, (s.kernel.counter sem).waits t = false) (u : Tid) : ¬ Awaits sc s u := by
  intro hu
  have ht : Held sc.wLineBlock Place.wPhase s t := ⟨Place.wPhase_writesNext hl, hw _⟩
  obtain rfl : t = u := (hm.unique ht (hu.held hm)).symm
  rw [Awaits, hw, Place.not_awaits_writesNext hl] at hu
  cases hu

theorem fire_output (hd : sc.sems.Nodup) (h : sc.fire d g = .ok (g', vs))
    (hf : g.cons.putBusy = decide (0 < g.cons.writesDue)) (ho : g.cons.writesDue ≤ 1) :
    g'.cons.putBusy = decide (0 < g'.cons.writesDue) ∧ g'.cons.writesDue + vs.count sc.synchWriteAvail = g.cons.writesDue := by
  obtain ⟨hra, -⟩ := distinct_sems hd
  obtain ⟨rfl, hno⟩ | ⟨rfl, hdu, rfl⟩ | ⟨ch, rest, rfl, -, -, rfl⟩ := fire_cases h
  · exact ⟨hf, by rw [count_eq_zero.mpr (hno _ (by simp [sems])), Nat.add_zero]⟩
  · have hl : g.cons.writesDue = 1 := by omega
    simp [hl]
  · exact ⟨hf, by rw [count_eq_zero.mpr fun h => hra (mem_singleton.mp h).symm, Nat.add_zero]⟩

/-- The handlers change the device's flag and signal `synchWriteAvail` together. -/
theorem fires_output (hd : sc.sems.Nodup) (h : sc.client.fires due g = .ok (g', vs)) :
    g.cons.putBusy = decide (0 < g.cons.writesDue) → g.cons.writesDue ≤ 1 →
    g'.cons.putBusy = decide (0 < g'.cons.writesDue) ∧ g'.cons.writesDue + vs.count sc.synchWriteAvail = g.cons.writesDue := by
  refine Client.fires_rec (R := fun g g' vs => g.cons.putBusy = decide (0 < g.cons.writesDue) → g.cons.writesDue ≤ 1 →
    g'.cons.putBusy = decide (0 < g'.cons.writesDue) ∧ g'.cons.writesDue + vs.count sc.synchWriteAvail = g.cons.writesDue)
    (fun g hf _ => ⟨hf, rfl⟩) (fun h1 h2 hf ho => ?_) h
  obtain ⟨hf1, hd1⟩ := fire_output hd h1 hf ho
  obtain ⟨hf2, hd2⟩ := h2 hf1 (by omega)
  exact ⟨hf2, by rw [count_append]; omega⟩

theorem Handshake.same (h : Handshake sc s) (hm : sc.synchWriteAvail < s'.kernel.numSems)
    (hw : WaitsAt sc.synchWriteAvail Place.putting s')
    (hc : s'.kernel.counter sc.synchWriteAvail = s.kernel.counter sc.synchWriteAvail)
    (hb : s'.shared.cons.putBusy = s.shared.cons.putBusy) (hd : s'.shared.cons.writesDue = s.shared.cons.writesDue)
    (ha : ∀ t, Awaits sc s' t ↔ Awaits sc s t) : Handshake sc s' := by
  refine ⟨hm, hw, by rw [hb, hd, h.flag], ?_, ?_⟩
  · intro t ht
    rw [hd, hc]
    exact h.busy t ((ha t).mp ht)
  · intro hn
    rw [hd, hc]
    exact h.quiet fun t ht => hn t ((ha t).mpr ht)

/-- A thread tests the value in `synchWriteAvail->P()`: it takes the permit, or the interrupt is
    still to come. -/
theorem Handshake.test (hm : Mutex sc.wLineBlock Place.wPhase s) (h : Handshake sc s)
    (hmd : sc.synchWriteAvail < s'.kernel.numSems) (hwt : WaitsAt sc.synchWriteAvail Place.putting s')
    (hc : s'.kernel.counter sc.synchWriteAvail = (s.kernel.counter sc.synchWriteAvail).test t)
    (ha : Awaits sc s t) (hs : (s'.locals t).putting) (hl : ∀ u, u ≠ t → s'.locals u = s.locals u)
    (hsh : s'.shared = s.shared) : Handshake sc s' := by
  obtain ⟨source, numBytes, loop, hs⟩ := hs
  have hsm := h.busy t ha
  have hp := (s.kernel.counter sc.synchWriteAvail).test_permit t
  have hw : ∀ u, u ≠ t → (s'.kernel.counter sc.synchWriteAvail).waits u = (s.kernel.counter sc.synchWriteAvail).waits u := by
    intro u hu
    rw [hc, Counter.test_waits_of_ne _ hu]
  have ho : ∀ u, u ≠ t → ¬ Awaits sc s' u := by
    intro u hu hu'
    rw [Awaits, hl u hu, hw u hu] at hu'
    exact hu (hm.unique (ha.held hm) (Awaits.held hm hu'))
  refine ⟨hmd, hwt, by rw [hsh, h.flag], ?_, ?_⟩
  · intro u hu
    obtain rfl : u = t := by_contra fun hne => ho u hne hu
    have hin : (s'.kernel.counter sc.synchWriteAvail).waits u = true := by rwa [Awaits, hs] at hu
    rw [← hc, hin] at hp
    rw [hsh]
    exact (congrArg _ hp).trans hsm
  · intro hn
    have hot : (s'.kernel.counter sc.synchWriteAvail).waits t = false := by
      have hno := hn t
      rw [Awaits, hs] at hno
      exact Bool.not_eq_true _ ▸ hno
    rw [← hc, hot, Bool.not_false, Bool.toNat_true] at hp
    rw [hsh]
    exact ⟨by omega, BitVec.eq_of_toNat_eq (show _ = 0 by omega)⟩

theorem Handshake.turn (hd : sc.sems.Nodup) (hm : Mutex sc.wLineBlock Place.wPhase s) (h : Handshake sc s)
    (hmd : sc.synchWriteAvail < s'.kernel.numSems) {i : Input} {call : Call}
    (ht : Turn sc.client i t l call s s') : Handshake sc s' := by
  obtain ⟨hra, -, -, har, haw, -⟩ := distinct_sems hd
  have hsl := ht.self
  have hlc := ht.others
  have ho := ht.outside
  have hmv := turn_moves ht.turn
  generalize hold : s.locals t = old at hmv
  generalize hsh : s'.shared = g' at hmv
  have hs : call ≠ .p sc.synchWriteAvail ∧ call ≠ .v sc.synchWriteAvail → g'.cons.putBusy = s.shared.cons.putBusy →
      g'.cons.writesDue = s.shared.cons.writesDue → old.awaits false = false → l.awaits false = false → Handshake sc s' := by
    intro hc hb hdu hbf ha
    have hsm := ht.unused h.made hc
    refine h.same hmd (WaitsAt.turn h.waiting h.made ht fun e => absurd e hc.1) hsm (hsh ▸ hb) (hsh ▸ hdu)
      fun u => ?_
    by_cases eu : u = t
    · rw [eu, Awaits, Awaits, hsl, hold, hsm, ho, hbf, ha]
    · rw [Awaits, Awaits, hlc u eu, hsm]
  have hn := Call.none_ne sc.synchWriteAvail
  cases hmv with
  | idle hf => exact hs (hf _ (by simp [sems])) rfl rfl rfl rfl
  | write => exact hs (Call.p_ne haw.symm) rfl rfl rfl rfl
  | read => exact hs (Call.p_ne har.symm) rfl rfl rfl rfl
  | put hl hlt hch hb =>
    -- nothing was under way
    have hq := h.quiet (not_awaits hm (hold ▸ hl) ho)
    have hsm := ht.unused h.made hn
    have hw : WaitsAt sc.synchWriteAvail Place.putting s' :=
      WaitsAt.turn h.waiting h.made ht fun e => absurd e hn.1
    refine ⟨hmd, hw, ?_, ?_, ?_⟩
    · rw [hsh]
      simp
    · intro _ _
      rw [hsh, hsm, hq.2]
      simp [hq.1]
    · intro hno
      exact absurd (by rw [Awaits, hsl]; rfl) (hno t)
  | awaitPut source numBytes loop =>
    have hp : Place.putting (.writeAvail source numBytes loop) := ⟨source, numBytes, loop, rfl⟩
    exact h.test hm hmd (WaitsAt.turn h.waiting h.made ht fun _ => hp) (ht.tests h.made rfl)
      (by rw [Awaits, hold]; rfl) (hsl ▸ hp) hlc hsh
  | written hl => exact hs (Call.v_ne haw.symm) rfl rfl (Place.not_awaits_writesNext hl) rfl
  | awaitChar hl => exact hs (Call.p_ne hra) rfl rfl (Place.not_awaits_readsNext hl) rfl
  | received hl => exact hs (Call.v_ne har.symm) rfl rfl (Place.not_awaits_readsNext hl) rfl
  | getNothing => exact hs (Call.p_ne hra) rfl rfl rfl rfl
  | getEnd => exact hs hn rfl rfl rfl rfl
  | getChar => exact hs hn rfl rfl rfl rfl

theorem Handshake.writesDue_le (h : Handshake sc s) : s.shared.cons.writesDue ≤ 1 := by
  by_cases hs : ∃ t, Awaits sc s t
  · obtain ⟨t, ht⟩ := hs
    have := h.busy t ht
    omega
  · have := (h.quiet (not_exists.mp hs)).1
    omega

theorem Handshake.fired (hd : sc.sems.Nodup) (h : Handshake sc s) (hm : sc.synchWriteAvail < s'.kernel.numSems)
    (hfr : Fired sc.client due vs s s') : Handshake sc s' := by
  obtain ⟨hf, hdu⟩ := fires_output hd hfr.fires h.flag h.writesDue_le
  have hc := hfr.counters sc.synchWriteAvail
  have ha : ∀ u, Awaits sc s' u ↔ Awaits sc s u := by
    intro u
    rw [Awaits, Awaits, hfr.locals, hc]
    rfl
  have hw : WaitsAt sc.synchWriteAvail Place.putting s' := WaitsAt.fired h.waiting hfr
  refine ⟨hm, hw, hf, ?_, ?_⟩
  · intro u hu
    have hs := h.busy u ((ha u).mp hu)
    rw [hc, Counter.signal_toNat (by omega)]
    omega
  · intro hno
    obtain ⟨hz, hv⟩ := h.quiet fun u hu => hno u ((ha u).mpr hu)
    have hcn : vs.count sc.synchWriteAvail = 0 := by omega
    rw [hc, hcn, Counter.signal_zero]
    exact ⟨by omega, hv⟩

theorem Handshake.resumed (hm : Mutex sc.wLineBlock Place.wPhase s) (h : Handshake sc s)
    (hmd : sc.synchWriteAvail < s'.kernel.numSems) (hr : Resumed t s s') : Handshake sc s' := by
  have hwt : WaitsAt sc.synchWriteAvail Place.putting s' := WaitsAt.resumed h.waiting hr
  rcases hr.counters sc.synchWriteAvail with hs | ⟨hw, ht⟩
  · refine h.same hmd hwt hs (by rw [hr.shared]) (by rw [hr.shared]) fun u => ?_
    rw [Awaits, Awaits, hr.locals, hs]
  · obtain ⟨source, numBytes, loop, hl⟩ := h.waiting t hw
    exact h.test hm hmd hwt ht (by rw [Awaits, hl, hw]; rfl) ⟨source, numBytes, loop, by rw [hr.locals, hl]⟩
      (fun u _ => by rw [hr.locals]) hr.shared

end

/-! ## The display -/

/-- What the display shows of the call the thread is in. -/
def Place.printed : Place → List Byte
  | .charPut source _ loop | .writeAvail source _ loop => source.take (loop + 1)
  | _ => []

/-- The buffer of the call of `Write` the thread is in. -/
def Place.buffer : Place → Option (List Byte)
  | .writeLine source numBytes | .charPut source numBytes _ | .writeAvail source numBytes _ =>
    some (source.take numBytes.toInt.toNat)
  | _ => none

def Place.InRange : Place → Prop
  | .charPut source numBytes loop | .writeAvail source numBytes loop => (loop : Int) < numBytes.toInt ∧ loop < source.length
  | _ => True

/-- The display shows the buffers of the calls that have returned. -/
def Shown (g : Shared) : Prop := g.cons.display = g.written.flatten

/-- And what the thread that has the lock has put. -/
def Showing (g : Shared) (l : Place) : Prop := g.cons.display = g.written.flatten ++ l.printed ∧ l.InRange

section

variable {sc : SynchConsole}

theorem Place.printed_writesNext (h : l.writesNext = some (source, numBytes, loop)) : l.printed = source.take loop := by
  cases l with
  | writeLine | writeAvail => cases h; rfl
  | outside | charPut | readLine | charGot | readAvail => cases h

/-- At the test the counter has not passed the end. -/
theorem Place.loop_le (h : l.writesNext = some (source, numBytes, loop)) (hr : l.InRange) :
    loop ≤ numBytes.toInt.toNat := by
  cases l with
  | writeLine => cases h; exact Nat.zero_le _
  | writeAvail source' numBytes' loop' =>
    cases h
    have := hr.1
    omega
  | outside | charPut | readLine | charGot | readAvail => cases h

theorem fire_display (h : sc.fire d g = .ok (g', vs)) : g'.cons.display = g.cons.display ∧ g'.written = g.written := by
  obtain ⟨rfl, -⟩ | ⟨rfl, -⟩ | ⟨ch, rest, rfl, -⟩ := fire_cases h
  · exact ⟨rfl, rfl⟩
  · exact ⟨rfl, rfl⟩
  · exact ⟨rfl, rfl⟩

theorem wLine_protects : Client.Protects sc.client Place.wPhase Shown Showing where
  acquire {g l} hphase h := by
    cases l with
    | writeLine source numBytes => exact ⟨by rw [h]; exact (append_nil _).symm, trivial⟩
    | outside | charPut | writeAvail | readLine | charGot | readAvail => cases hphase
  turn {i g l g' l' call} hturn hphase h := by
    obtain ⟨hd, hr⟩ := h
    cases turn_moves hturn with
    | idle | write | read | getNothing | getEnd | getChar => exact absurd rfl hphase
    | awaitChar hl | received hl => exact absurd (Place.wPhase_readsNext hl) hphase
    | @put _ source numBytes loop ch hl hlt hch hb =>
      refine ⟨fun _ => ⟨?_, hlt, (List.getElem?_eq_some_iff.mp hch).1⟩, fun h => by cases h⟩
      rw [Place.printed_writesNext hl] at hd
      show g.cons.display ++ [ch] = g.written.flatten ++ source.take (loop + 1)
      rw [hd, append_assoc, take_add_one, hch]
      rfl
    | awaitPut => exact ⟨fun _ => ⟨hd, hr⟩, fun h => by cases h⟩
    | @written _ source numBytes loop hl hge =>
      refine ⟨fun h => absurd rfl h, fun _ => ?_⟩
      have hle := Place.loop_le hl hr
      rw [Place.printed_writesNext hl, show loop = numBytes.toInt.toNat by omega] at hd
      rw [Shown]
      simp only [flatten_append, flatten_cons, flatten_nil, append_nil]
      exact hd
  other {i g l g' l' call} hturn hphase := by
    have hs : g'.cons.display = g.cons.display ∧ g'.written = g.written := by
      cases turn_moves hturn with
      | idle | write | read | awaitChar | received | getNothing | getEnd | getChar => exact ⟨rfl, rfl⟩
      | put hl | written hl => exact absurd hphase (Place.wPhase_writesNext hl)
      | awaitPut => cases hphase
    simp only [Shown, Showing, hs]
    exact ⟨id, fun _ => id⟩
  fire h := by
    simp only [Shown, Showing, fire_display h]
    exact ⟨id, fun _ => id⟩

end

/-! ## Whole runs -/

/-- What every run keeps of the writers. -/
structure Output (sc : SynchConsole) (s : Client.State Shared Place) : Prop where
  distinct : sc.sems.Nodup
  mutex : Mutex sc.wLineBlock Place.wPhase s
  handshake : Handshake sc s
  display : Client.Protected sc.wLineBlock Place.wPhase Shown Showing s

section

variable {sc : SynchConsole} {s s' : Client.State Shared Place}

theorem step_output (h : Output sc s) {e : Client.Event Input Interrupt} (hs : sc.client.step s e = .ok s') : Output sc s' := by
  obtain ⟨-, hm, hc⟩ := Client.step_cases h.mutex.custody hs
  have hmd' := (hm _ h.handshake.made).1
  have hm' := h.mutex.step (usesWLine h.distinct) hs
  have hd := h.display.step (usesWLine h.distinct) wLine_protects h.mutex hs
  rcases hc with rfl | ⟨i, t, l, call, ht⟩ | ⟨due, vs, hf⟩ | ⟨t, hr⟩
  · exact h
  · exact ⟨h.distinct, hm', h.handshake.turn h.distinct h.mutex hmd' ht, hd⟩
  · exact ⟨h.distinct, hm', h.handshake.fired h.distinct hmd' hf, hd⟩
  · exact ⟨h.distinct, hm', h.handshake.resumed h.mutex hmd' hr, hd⟩

theorem init_output (h : sc.Init typed s) : Output sc s := by
  obtain ⟨⟨k, hk, hc, hn⟩, hs, hl⟩ := h
  have hf := new_fresh (Dispatch.reach_making hk hc) hn
  have ho : ∀ t, s.locals t = .outside := fun t => by rw [hl]
  obtain ⟨hm, hfr⟩ := Mutex.start Place.wPhase hf.custody (hf.made _ (by simp [sems])) hf.wLine
    fun t => by rw [ho]; rfl
  refine ⟨hf.distinct, hm, ⟨hf.made _ (by simp [sems]), ?_, ?_, ?_, ?_⟩, ⟨?_, fun t ht => absurd ht (hfr t)⟩⟩
  · intro t ht
    rw [hf.writeAvail] at ht
    cases ht
  · rw [hs]
    rfl
  · intro t ht
    rw [Awaits, ho] at ht
    cases ht
  · intro _
    rw [hs, hf.writeAvail]
    exact ⟨rfl, rfl⟩
  · intro _
    rw [hs]
    rfl

theorem reach_output {ok : Client.State Shared Place → Client.Event Input Interrupt → Prop}
    (h : Reach sc.client.step ok (sc.Init typed) s) : Output sc s :=
  h.inv (P := Output sc) (fun _ hs => init_output hs) fun _ _ _ hs _ hst => step_output hs hst

end

/-- A thread about to put a character finds the device free. -/
theorem Output.free {sc : SynchConsole} {s : Client.State Shared Place} (h : Output sc s)
    (hl : (s.locals t).writesNext = some x) (hw : ∀ sem, (s.kernel.counter sem).waits t = false) :
    s.shared.cons.putBusy = false := by
  rw [h.handshake.flag, (h.handshake.quiet (not_awaits h.mutex hl hw)).1]
  rfl

theorem writeLoop_ok (sc : SynchConsole) (h : g.cons.putBusy = false) (source : List Byte) (numBytes : Word)
    (loop : Nat) : sc.writeLoop g source numBytes loop ≠ .error .assertion := by
  rw [writeLoop]
  split
  · split
    · intro e
      cases e
    · rw [Console.putChar, h]
      intro e
      cases e
  · intro e
    cases e

theorem readLoop_ok (sc : SynchConsole) (g : Shared) (numBytes : Word) (into : List Byte) (loop : Nat) (ch : Option Byte)
    (eolncond : Bool) : sc.readLoop g numBytes into loop ch eolncond ≠ .error .assertion := by
  unfold readLoop
  split
  · intro e
    cases e
  · cases ch with
    | none => intro e; cases e
    | some ch => intro e; cases e

theorem readBody_ok (sc : SynchConsole) (g : Shared) (numBytes : Word) (into : List Byte) (loop : Nat) :
    sc.readBody g numBytes into loop ≠ .error .assertion := by
  unfold readBody Console.getChar
  simp only
  by_cases hef : g.cons.incoming = eof
  · rw [if_pos hef]
    intro e
    cases e
  · rw [if_neg hef]
    by_cases he : g.cons.incoming = 10 ∨ g.cons.incoming = 1
    · rw [if_pos he]
      intro e
      cases e
    · rw [if_neg he]
      intro e
      cases e

/-- In every state of every run: the assertion of `PutChar` does not fail, and the display shows
    the buffers of the calls of `Write` that have returned, one after another, and the first
    characters of the buffer of one more. -/
theorem writes_atomic {sc : SynchConsole} {typed : List Byte} {s : Client.State Shared Place}
    (h : Lib.Reach sc.client.step (fun _ _ => True) (sc.Init typed) s) :
    (s.kernel.inCode = true → ∀ i, sc.turn i s.shared (s.locals s.kernel.currentThread) ≠ .error .assertion) ∧
    ∃ begun, s.shared.cons.display = s.shared.written.flatten ++ begun ∧
      (begun = [] ∨ ∃ t buffer, (s.locals t).buffer = some buffer ∧ begun <+: buffer) := by
  have hout := reach_output h
  constructor
  · intro hcode i
    have hw := Dispatch.inCode_waits (Dispatch.inCode_iff.mp hcode)
    have hfree : ∀ {x}, (s.locals s.kernel.currentThread).writesNext = some x → s.shared.cons.putBusy = false :=
      fun hl => hout.free hl hw
    generalize s.locals s.kernel.currentThread = l at hfree
    cases l with
    | outside =>
      cases i with
      | goOn | write | read => intro e; cases e
      | other call =>
        rw [turn]
        split
        · intro e
          cases e
        · intro e
          cases e
    | writeLine | writeAvail => exact writeLoop_ok sc (hfree rfl) _ _ _
    | charPut => intro e; cases e
    | readLine numBytes => exact readLoop_ok sc s.shared numBytes _ 0 none false
    | charGot numBytes into loop ch eolncond => exact readLoop_ok sc s.shared numBytes into loop (some ch) eolncond
    | readAvail numBytes into loop => exact readBody_ok _ _ _ _ _
  · by_cases hheld : ∃ t, Held sc.wLineBlock Place.wPhase s t
    · obtain ⟨t, ht⟩ := hheld
      obtain ⟨hdisplay, hrange⟩ := hout.display.held t ht
      refine ⟨(s.locals t).printed, hdisplay, ?_⟩
      cases hl : s.locals t with
      | charPut source numBytes loop | writeAvail source numBytes loop =>
        rw [hl] at hrange
        have := hrange.1
        exact .inr ⟨t, _, by rw [hl]; rfl, List.take_prefix_take_left (by omega)⟩
      | outside | writeLine | readLine | charGot | readAvail => exact .inl rfl
    · exact ⟨[], by rw [List.append_nil]; exact hout.display.free (not_exists.mp hheld), .inl rfl⟩

/-- Two threads: one has put the first character of "hi" when the other calls `Write("!", 1)`. -/
theorem two_writers : ∃ s, Lib.Reach firstConsole.client.step (fun _ _ => True) (firstConsole.Init []) s ∧
    s.shared.written = [[104, 105], [33]] ∧ s.kernel.inCode = true ∧ ∃ begun, s.shared.cons.display = [104, 105, 33] ++ begun ∧
      (begun = [] ∨ ∃ t buffer, (s.locals t).buffer = some buffer ∧ begun <+: buffer) := by
  obtain ⟨s, hs, ht⟩ := exists_reach firstConsole.client.step (fun _ _ => true)
    [.turn (.other .fork), .turn (.write [104, 105] 2), .turn .goOn, .turn .goOn, .resume, .turn (.write [33] 1),
      .idle [.consoleWriteDone], .resume, .turn .goOn, .turn .goOn, .idle [.consoleWriteDone], .resume, .turn .goOn,
      .turn (.other .yield), .resume, .turn .goOn, .tick [.consoleWriteDone] false, .turn .goOn, .turn .goOn]
    (fun s => s.shared.written == [[104, 105], [33]] && s.kernel.inCode) (booted_init []) (by decide +kernel)
  rw [Bool.and_eq_true, beq_iff_eq] at ht
  have hreach : Reach firstConsole.client.step (fun _ _ => True) (firstConsole.Init []) s := hs.mono fun _ _ _ => trivial
  obtain ⟨begun, hdisplay, hbegun⟩ := (writes_atomic hreach).2
  rw [ht.1] at hdisplay
  exact ⟨s, hreach, ht.1, ht.2, begun, hdisplay, hbegun⟩

end Nachos.SynchConsole

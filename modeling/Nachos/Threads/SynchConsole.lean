/-
  Nachos.Threads.SynchConsole — `threads/synchcons.cc`: reads and writes of whole buffers
  on the console, by any number of threads.

  A thread's place in `Write` or `Read` is the call of `P` it made last, or the statement
  after `PutChar` and `GetChar`, where an interrupt could come as well. `written` and `read`
  are history: the calls that have returned, in order.
-/

import Nachos.Machine.Console
import Nachos.Threads.Client

namespace Nachos

open Lib

/-- The semaphores of the console. -/
structure SynchConsole where
  synchReadAvail : SemId
  synchWriteAvail : SemId
  rLineBlock : SemId
  wLineBlock : SemId
  deriving DecidableEq, Repr

namespace SynchConsole

/-- A call of `Read` that has returned. -/
structure Received where
  numBytes : Word
  into : List Byte
  result : Int
  deriving DecidableEq

structure Shared where
  cons : Console
  /-- The buffers of the calls of `Write` that have returned. -/
  written : List (List Byte)
  read : List Received
  deriving DecidableEq

/-- Where a thread is. -/
inductive Place where
  | outside
  /-- `Write`: `WLineBlock->P()`, after `PutChar`, `synchWriteAvail->P()`. -/
  | writeLine (source : List Byte) (numBytes : Word)
  | charPut (source : List Byte) (numBytes : Word) (loop : Nat)
  | writeAvail (source : List Byte) (numBytes : Word) (loop : Nat)
  /-- `Read`: `RLineBlock->P()`, the end of the loop's body, `synchReadAvail->P()`. -/
  | readLine (numBytes : Word)
  | charGot (numBytes : Word) (into : List Byte) (loop : Nat) (ch : Byte) (eolncond : Bool)
  | readAvail (numBytes : Word) (into : List Byte) (loop : Nat)
  deriving DecidableEq

/-- What a thread outside is to do; one inside goes on. -/
inductive Input where
  | goOn
  | write (source : List Byte) (numBytes : Word)
  | read (numBytes : Word)
  | other (call : Client.Call)
  deriving DecidableEq

inductive Interrupt where
  | consoleWriteDone
  | consoleReadPoll (polled : Bool)
  | other (s : SemId)
  deriving DecidableEq

variable (sc : SynchConsole) {numBytes : Word} {loop : Nat} {into : List Byte} {s : SemId} {k k' : Dispatch}

def sems : List SemId := [sc.synchReadAvail, sc.synchWriteAvail, sc.rLineBlock, sc.wLineBlock]

/-- Other code has no pointer to the console's semaphores. -/
def foreign : Client.Call → Bool
  | .p s | .v s => s ∉ sc.sems
  | _ => true

/-- The loop of `Write`, at its test. -/
def writeLoop (g : Shared) (source : List Byte) (numBytes : Word) (loop : Nat) : Except Stop (Shared × Place × Client.Call) :=
  if (loop : Int) < numBytes.toInt then
    match source[loop]? with
    | none => .error .undefined
    | some ch => do
      let cons ← g.cons.putChar ch
      return ({ g with cons }, .charPut source numBytes loop, .none)
  else .ok ({ g with written := g.written ++ [source.take numBytes.toInt.toNat] }, .outside, .v sc.wLineBlock)

/-- The loop of `Read`, at its test; `ch` has no value before the first character. -/
def readLoop (g : Shared) (numBytes : Word) (into : List Byte) (loop : Nat) (ch : Option Byte) (eolncond : Bool) :
    Except Stop (Shared × Place × Client.Call) :=
  if (loop : Int) < numBytes.toInt ∧ eolncond = false then .ok (g, .readAvail numBytes into loop, .p sc.synchReadAvail)
  else
    match ch with
    | none => .error .undefined
    | some ch =>
      let result : Int := if ch = 1 then -1 else loop
      .ok ({ g with read := g.read ++ [⟨numBytes, into, result⟩] }, .outside, .v sc.rLineBlock)

/-- The body of the loop of `Read`, once `synchReadAvail->P()` has returned. -/
def readBody (g : Shared) (numBytes : Word) (into : List Byte) (loop : Nat) : Except Stop (Shared × Place × Client.Call) :=
  let (ch, cons) := g.cons.getChar
  if ch = eof then .ok ({ g with cons }, .readAvail numBytes into loop, .p sc.synchReadAvail)
  else if ch = 10 ∨ ch = 1 then .ok ({ g with cons }, .charGot numBytes into loop ch true, .none)
  else .ok ({ g with cons }, .charGot numBytes (into.set loop ch) (loop + 1) ch false, .none)

def turn (i : Input) (g : Shared) : Place → Except Stop (Shared × Place × Client.Call)
  | .outside =>
    match i with
    | .goOn => .ok (g, .outside, .none)
    | .write source numBytes => .ok (g, .writeLine source numBytes, .p sc.wLineBlock)
    | .read numBytes => .ok (g, .readLine numBytes, .p sc.rLineBlock)
    | .other call => if sc.foreign call then .ok (g, .outside, call) else .ok (g, .outside, .none)
  | .writeLine source numBytes => sc.writeLoop g source numBytes 0
  | .charPut source numBytes loop => .ok (g, .writeAvail source numBytes loop, .p sc.synchWriteAvail)
  | .writeAvail source numBytes loop => sc.writeLoop g source numBytes (loop + 1)
  | .readLine numBytes => sc.readLoop g numBytes (List.replicate numBytes.toInt.toNat 0) 0 none false
  | .charGot numBytes into loop ch eolncond => sc.readLoop g numBytes into loop (some ch) eolncond
  | .readAvail numBytes into loop => sc.readBody g numBytes into loop

def fire (d : Interrupt) (g : Shared) : Except Stop (Shared × List SemId) :=
  match d with
  | .consoleWriteDone =>
    let (called, cons) := g.cons.writeDone
    .ok ({ g with cons }, if called then [sc.synchWriteAvail] else [])
  | .consoleReadPoll polled => do
    let (called, cons) ← g.cons.checkCharAvail polled
    return ({ g with cons }, if called then [sc.synchReadAvail] else [])
  | .other s => .ok (g, if s ∈ sc.sems then [] else [s])

def client : Client Shared Place Input Interrupt := ⟨sc.turn, sc.fire⟩

/-- `SynchConsole::SynchConsole`: the four semaphores, in order. -/
def new (k : Dispatch) : Except Stop (SynchConsole × Dispatch) := do
  let k₁ ← k.call (.newSemaphore 0)
  let k₂ ← k₁.call (.newSemaphore 0)
  let k₃ ← k₂.call (.newSemaphore 1)
  let k₄ ← k₃.call (.newSemaphore 1)
  return (⟨k.numSems, k₁.numSems, k₂.numSems, k₃.numSems⟩, k₄)

/-- A thread has made the console, and nobody has called it yet. -/
def Init (typed : List Byte) (s : Client.State Shared Place) : Prop :=
  (∃ k, Lib.Reach Dispatch.step (fun _ _ => True) (· = .start) k ∧ k.inCode = true ∧ new k = .ok (sc, s.kernel)) ∧
    s.shared = ⟨.new typed, [], []⟩ ∧ s.locals = fun _ => .outside

/-! ## Moves -/

/-- A thread in `Write` that is at the test of the loop: the buffer and the counter. -/
def Place.writesNext : Place → Option (List Byte × Word × Nat)
  | .writeLine source numBytes => some (source, numBytes, 0)
  | .writeAvail source numBytes loop => some (source, numBytes, loop + 1)
  | _ => none

/-- A thread in `Read` that is at the test of the loop: the buffer, the counter, `ch` and
    `eolncond`. -/
def Place.readsNext : Place → Option (Word × List Byte × Nat × Option Byte × Bool)
  | .readLine numBytes => some (numBytes, List.replicate numBytes.toInt.toNat 0, 0, none, false)
  | .charGot numBytes into loop ch eolncond => some (numBytes, into, loop, some ch, eolncond)
  | _ => none

/-- What a thread's turn can be. -/
inductive Moves (sc : SynchConsole) (g : Shared) : Place → Shared → Place → Client.Call → Prop
  | idle {call : Client.Call} : (∀ s ∈ sc.sems, call ≠ .p s ∧ call ≠ .v s) → Moves sc g .outside g .outside call
  | write (source : List Byte) (numBytes : Word) : Moves sc g .outside g (.writeLine source numBytes) (.p sc.wLineBlock)
  | read (numBytes : Word) : Moves sc g .outside g (.readLine numBytes) (.p sc.rLineBlock)
  | put {l : Place} {source : List Byte} {numBytes : Word} {loop : Nat} {ch : Byte} :
      l.writesNext = some (source, numBytes, loop) → (loop : Int) < numBytes.toInt → source[loop]? = some ch →
      g.cons.putBusy = false →
      Moves sc g l { g with cons :=
        { g.cons with display := g.cons.display ++ [ch], putBusy := true, writesDue := g.cons.writesDue + 1 } }
        (.charPut source numBytes loop) .none
  | awaitPut (source : List Byte) (numBytes : Word) (loop : Nat) :
      Moves sc g (.charPut source numBytes loop) g (.writeAvail source numBytes loop) (.p sc.synchWriteAvail)
  | written {l : Place} {source : List Byte} {numBytes : Word} {loop : Nat} :
      l.writesNext = some (source, numBytes, loop) → numBytes.toInt ≤ loop →
      Moves sc g l { g with written := g.written ++ [source.take numBytes.toInt.toNat] } .outside (.v sc.wLineBlock)
  | awaitChar {l : Place} {numBytes : Word} {into : List Byte} {loop : Nat} {ch : Option Byte} :
      l.readsNext = some (numBytes, into, loop, ch, false) → (loop : Int) < numBytes.toInt →
      Moves sc g l g (.readAvail numBytes into loop) (.p sc.synchReadAvail)
  | received {l : Place} {numBytes : Word} {into : List Byte} {loop : Nat} {last : Byte} {eolncond : Bool} :
      l.readsNext = some (numBytes, into, loop, some last, eolncond) → numBytes.toInt ≤ loop ∨ eolncond = true →
      Moves sc g l { g with read := g.read ++ [⟨numBytes, into, if last = 1 then -1 else loop⟩] } .outside (.v sc.rLineBlock)
  | getNothing (numBytes : Word) (into : List Byte) (loop : Nat) : g.cons.incoming = eof →
      Moves sc g (.readAvail numBytes into loop) { g with cons := { g.cons with incoming := eof } }
        (.readAvail numBytes into loop) (.p sc.synchReadAvail)
  | getEnd (numBytes : Word) (into : List Byte) (loop : Nat) : g.cons.incoming ≠ eof →
      g.cons.incoming = 10 ∨ g.cons.incoming = 1 →
      Moves sc g (.readAvail numBytes into loop) { g with cons := { g.cons with incoming := eof } }
        (.charGot numBytes into loop g.cons.incoming true) .none
  | getChar (numBytes : Word) (into : List Byte) (loop : Nat) : g.cons.incoming ≠ eof →
      ¬ (g.cons.incoming = 10 ∨ g.cons.incoming = 1) →
      Moves sc g (.readAvail numBytes into loop) { g with cons := { g.cons with incoming := eof } }
        (.charGot numBytes (into.set loop g.cons.incoming) (loop + 1) g.cons.incoming false) .none

section

variable {sc : SynchConsole} {g g' : Shared} {l l' : Place} {call : Client.Call}

theorem writeLoop_moves {source : List Byte} (hl : l.writesNext = some (source, numBytes, loop))
    (h : sc.writeLoop g source numBytes loop = .ok (g', l', call)) : sc.Moves g l g' l' call := by
  rw [writeLoop] at h
  split at h
  · rename_i hlt
    split at h
    · cases h
    rename_i ch hch
    obtain ⟨cons, hp, h⟩ := bind_eq_ok.mp h
    rw [Console.putChar] at hp
    split at hp
    · cases hp
    rename_i hb
    cases hp
    cases h
    exact .put hl hlt hch (Bool.not_eq_true _ ▸ hb)
  · rename_i hge
    cases h
    exact .written hl (Int.not_lt.mp hge)

theorem readLoop_moves {ch : Option Byte} {eolncond : Bool}
    (hl : l.readsNext = some (numBytes, into, loop, ch, eolncond))
    (h : sc.readLoop g numBytes into loop ch eolncond = .ok (g', l', call)) : sc.Moves g l g' l' call := by
  unfold readLoop at h
  split at h
  · rename_i hin
    cases h
    exact .awaitChar (hin.2 ▸ hl) hin.1
  · rename_i ho
    split at h
    · cases h
    rename_i last
    cases h
    refine .received hl ?_
    by_cases he : eolncond = true
    · exact .inr he
    · exact .inl (Int.not_lt.mp fun hlt => ho ⟨hlt, Bool.not_eq_true _ ▸ he⟩)

theorem readBody_moves (h : sc.readBody g numBytes into loop = .ok (g', l', call)) :
    sc.Moves g (.readAvail numBytes into loop) g' l' call := by
  unfold readBody Console.getChar at h
  simp only at h
  by_cases he : g.cons.incoming = eof
  · rw [if_pos he] at h
    cases h
    exact .getNothing _ _ _ he
  · rw [if_neg he] at h
    by_cases hen : g.cons.incoming = 10 ∨ g.cons.incoming = 1
    · rw [if_pos hen] at h
      cases h
      exact .getEnd _ _ _ he hen
    · rw [if_neg hen] at h
      cases h
      exact .getChar _ _ _ he hen

/-- Calls of other code reach none of the console's semaphores. -/
theorem foreign_ne (h : sc.foreign call = true) (hs : s ∈ sc.sems) : call ≠ .p s ∧ call ≠ .v s := by
  refine Client.Call.spares_ne ?_ hs
  cases call <;> exact h

theorem turn_moves {i : Input} (h : sc.turn i g l = .ok (g', l', call)) : sc.Moves g l g' l' call := by
  cases l with
  | outside =>
    cases i with
    | goOn => cases h; exact .idle fun s _ => Client.Call.none_ne s
    | write source numBytes => cases h; exact .write source numBytes
    | read numBytes => cases h; exact .read numBytes
    | other call' =>
      simp only [turn] at h
      split at h
      · rename_i hf
        cases h
        exact .idle fun s hs => foreign_ne hf hs
      · cases h
        exact .idle fun s _ => Client.Call.none_ne s
  | writeLine source numBytes => exact writeLoop_moves rfl h
  | charPut source numBytes loop => cases h; exact .awaitPut source numBytes loop
  | writeAvail source numBytes loop => exact writeLoop_moves rfl h
  | readLine numBytes => exact readLoop_moves rfl h
  | charGot numBytes into loop ch eolncond => exact readLoop_moves rfl h
  | readAvail numBytes into loop => exact readBody_moves h

theorem distinct_sems (hd : sc.sems.Nodup) : sc.synchReadAvail ≠ sc.synchWriteAvail ∧ sc.synchReadAvail ≠ sc.rLineBlock ∧
    sc.synchReadAvail ≠ sc.wLineBlock ∧ sc.synchWriteAvail ≠ sc.rLineBlock ∧ sc.synchWriteAvail ≠ sc.wLineBlock ∧
    sc.rLineBlock ≠ sc.wLineBlock := by
  simp only [sems, List.nodup_cons, List.mem_cons, List.not_mem_nil, or_false, not_or, List.nodup_nil, and_true,
    not_false_eq_true] at hd
  exact ⟨hd.1.1, hd.1.2.1, hd.1.2.2, hd.2.1.1, hd.2.1.2, hd.2.2⟩

/-- What a handler does: nothing, or a character has been put, or one is fetched. -/
theorem fire_cases {d : Interrupt} {vs : List SemId} (h : sc.fire d g = .ok (g', vs)) :
    (g' = g ∧ ∀ s ∈ sc.sems, s ∉ vs) ∨
    (g' = { g with cons := { g.cons with putBusy := false, writesDue := g.cons.writesDue - 1 } } ∧ g.cons.writesDue ≠ 0 ∧
      vs = [sc.synchWriteAvail]) ∨
    ∃ ch rest, g' = { g with cons := { g.cons with incoming := ch, keyboard := rest } } ∧ g.cons.incoming = eof ∧
      g.cons.keyboard = ch :: rest ∧ vs = [sc.synchReadAvail] := by
  cases d with
  | consoleWriteDone =>
    rcases g.cons.writeDone_cases with ⟨-, hd⟩ | ⟨hdu, hd⟩
    · simp only [fire, hd] at h
      cases h
      exact .inl ⟨rfl, fun _ _ => List.not_mem_nil⟩
    · simp only [fire, hd] at h
      cases h
      exact .inr (.inl ⟨rfl, hdu, rfl⟩)
  | consoleReadPoll polled =>
    obtain ⟨⟨called, cons⟩, hc, h⟩ := bind_eq_ok.mp h
    cases h
    obtain ⟨rfl, rfl⟩ | ⟨rfl, he, ch, rest, hk, rfl⟩ := Console.checkCharAvail_cases hc
    · exact .inl ⟨rfl, fun _ _ => List.not_mem_nil⟩
    · exact .inr (.inr ⟨ch, rest, rfl, he, hk, rfl⟩)
  | other s' =>
    cases h
    refine .inl ⟨rfl, fun s hs => ?_⟩
    split
    · exact List.not_mem_nil
    · rename_i ho
      exact fun hm => ho (List.mem_singleton.mp hm ▸ hs)

theorem fire_signals {d : Interrupt} {vs : List SemId} (h : sc.fire d g = .ok (g', vs)) (hs : s ∈ vs) :
    s = sc.synchReadAvail ∨ s = sc.synchWriteAvail ∨ s ∉ sc.sems := by
  obtain ⟨-, hno⟩ | ⟨-, -, rfl⟩ | ⟨_, _, -, -, -, rfl⟩ := fire_cases h
  · exact .inr (.inr fun hm => hno s hm hs)
  · exact .inr (.inl (List.mem_singleton.mp hs))
  · exact .inl (List.mem_singleton.mp hs)

end

/-! ## The start -/

/-- The semaphores as the constructor leaves them. -/
structure Fresh (sc : SynchConsole) (k : Dispatch) : Prop where
  custody : k.Custody
  distinct : sc.sems.Nodup
  made : ∀ s ∈ sc.sems, s < k.numSems
  readAvail : k.counter sc.synchReadAvail = ⟨0, fun _ => false⟩
  writeAvail : k.counter sc.synchWriteAvail = ⟨0, fun _ => false⟩
  rLine : k.counter sc.rLineBlock = ⟨1, fun _ => false⟩
  wLine : k.counter sc.wLineBlock = ⟨1, fun _ => false⟩

theorem new_fresh {sc : SynchConsole} (hk : k.Making) (h : new k = .ok (sc, k')) : sc.Fresh k' := by
  obtain ⟨k1, e1, h⟩ := bind_eq_ok.mp h
  obtain ⟨k2, e2, h⟩ := bind_eq_ok.mp h
  obtain ⟨k3, e3, h⟩ := bind_eq_ok.mp h
  obtain ⟨k4, e4, h⟩ := bind_eq_ok.mp h
  cases h
  obtain ⟨hk1, n1, hn1, -⟩ := hk.newSemaphore e1
  obtain ⟨hk2, n2, hn2, ho2⟩ := hk1.newSemaphore e2
  obtain ⟨hk3, n3, hn3, ho3⟩ := hk2.newSemaphore e3
  obtain ⟨hk4, n4, hn4, ho4⟩ := hk3.newSemaphore e4
  refine ⟨hk4.custody, ?_, ?_, ?_, ?_, ?_, hn4⟩
  · show [k.numSems, k1.numSems, k2.numSems, k3.numSems].Nodup
    simp only [List.nodup_cons, List.mem_cons, List.not_mem_nil, or_false, not_or, List.nodup_nil, and_true, not_false_eq_true]
    omega
  · show ∀ s ∈ [k.numSems, k1.numSems, k2.numSems, k3.numSems], s < k'.numSems
    simp only [List.mem_cons, List.not_mem_nil, or_false]
    omega
  · show k'.counter k.numSems = _
    rw [ho4 _ (by omega), ho3 _ (by omega), ho2 _ (by omega), hn1]
  · show k'.counter k1.numSems = _
    rw [ho4 _ (by omega), ho3 _ (by omega), hn2]
  · show k'.counter k2.numSems = _
    rw [ho4 _ (by omega), hn3]

/-- `synchReadAvail` starts without permits. -/
theorem new_lawful {sc : SynchConsole} (h : new k = .ok (sc, k')) :
    k'.initial sc.synchReadAvail = 0 ∧ k'.Lawful sc.synchReadAvail := by
  obtain ⟨k1, e1, h⟩ := bind_eq_ok.mp h
  obtain ⟨k2, e2, h⟩ := bind_eq_ok.mp h
  obtain ⟨k3, e3, h⟩ := bind_eq_ok.mp h
  obtain ⟨k4, e4, h⟩ := bind_eq_ok.mp h
  cases h
  obtain ⟨hm1, hi1, h1⟩ := Dispatch.newSemaphore_made e1
  obtain ⟨hm2, hi2⟩ := Dispatch.call_keeps e2 hm1
  obtain ⟨hm3, hi3⟩ := Dispatch.call_keeps e3 hm2
  obtain ⟨-, hi4⟩ := Dispatch.call_keeps e4 hm3
  refine ⟨?_, Dispatch.newSemaphore_lawful (Dispatch.newSemaphore_lawful (Dispatch.newSemaphore_lawful h1 e2) e3) e4⟩
  show k'.initial k.numSems = 0
  rw [hi4, hi3, hi2, hi1]

/-- The console the main thread makes. -/
def firstConsole : SynchConsole := ⟨0, 1, 2, 3⟩

def booted (typed : List Byte) : Client.State Shared Place where
  kernel := match new .start with
    | .ok (_, k) => k
    | .error _ => .start
  shared := ⟨.new typed, [], []⟩
  locals := fun _ => .outside

theorem booted_init (typed : List Byte) : firstConsole.Init typed (booted typed) :=
  ⟨⟨.start, .init rfl, by decide, rfl⟩, rfl, rfl⟩

end SynchConsole

end Nachos

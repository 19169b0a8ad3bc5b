/-
  Nachos.Threads.ConsoleInput — `Read` on the console loses nothing.

  `RLineBlock` is a lock, so one thread reads at a time, and calls return in the order in
  which they take it. What a device holds back is the byte in its buffer and the keyboard's,
  without the bytes that look like an empty buffer: polling does not change it, and the
  thread that reads takes its first character. A permit stands for a fetched character or
  for one that was dropped, so permits may be left over, and are never missing.
-/

import Nachos.Threads.SynchConsole

namespace Nachos.SynchConsole

open Client (Call Mutex Held UsesLock Turn Fired Resumed WaitsAt)
open Lib List

/-! ## What calls receive -/

/-- The start of an input: what is stored, the character that ended it if one did, and the rest. -/
structure Line where
  stored : List Byte
  ended : Option Byte
  rest : List Byte
  deriving DecidableEq

/-- A newline or Ctrl-A. -/
def ends (ch : Byte) : Prop := ch = 10 ∨ ch = 1

instance (ch : Byte) : Decidable (ends ch) := inferInstanceAs (Decidable (_ ∨ _))

/-- The input cut after a newline or Ctrl-A, which is not stored, or when `n` characters are
    stored. -/
def line : Nat → List Byte → Option Line
  | 0, input => some ⟨[], none, input⟩
  | _ + 1, [] => none
  | n + 1, ch :: input =>
    if ends ch then some ⟨[], some ch, input⟩ else (line n input).map fun l => { l with stored := ch :: l.stored }

/-- What a call that asks for `numBytes` makes of a line: the rest of the buffer is 0. -/
def receive (numBytes : Word) (l : Line) : Received where
  numBytes
  into := l.stored ++ List.replicate (numBytes.toInt.toNat - l.stored.length) 0
  result := if l.ended = some 1 then -1 else l.stored.length

/-- What calls that ask for these numbers receive, one after another, and what is left. -/
def serve : List Word → List Byte → Option (List Received × List Byte)
  | [], input => some ([], input)
  | numBytes :: rest, input => do
    let l ← line numBytes.toInt.toNat input
    let (received, left) ← serve rest l.rest
    return (receive numBytes l :: received, left)

/-- The input without the bytes that look like an empty buffer. -/
def visible (input : List Byte) : List Byte := input.filter (· ≠ eof)

variable {stored into : List Byte} {ch : Byte} {numBytes : Word} {l : Place} {loop : Nat} {g g' : Shared}
  {vs : List SemId} {t : Tid} {due : List Interrupt} {i : Input} {call : Call}

section

theorem line_append : ∀ {n : Nat} (input : List Byte), (∀ ch ∈ stored, ¬ ends ch) → stored.length ≤ n →
    line n (stored ++ input) = (line (n - stored.length) input).map fun l => { l with stored := stored ++ l.stored } := by
  induction stored with
  | nil =>
    intro n input _ _
    simp only [nil_append, length_nil, Nat.sub_zero]
    exact Option.map_id'.symm
  | cons ch stored ih =>
    intro n input hs hl
    cases n with
    | zero => cases hl
    | succ n =>
      have hl' : stored.length ≤ n := Nat.le_of_succ_le_succ hl
      rw [cons_append, line, if_neg (hs ch mem_cons_self),
        ih input (fun x hx => hs x (mem_cons_of_mem _ hx)) hl', Option.map_map, length_cons, Nat.succ_sub_succ]
      rfl

/-- A line the count cuts. -/
theorem line_full (input : List Byte) (h : ∀ ch ∈ stored, ¬ ends ch) :
    line stored.length (stored ++ input) = some ⟨stored, none, input⟩ := by
  rw [line_append input h (Nat.le_refl _), Nat.sub_self, line, Option.map_some, append_nil]

theorem line_ended {n : Nat} (input : List Byte) (h : ∀ ch ∈ stored, ¬ ends ch) (hl : stored.length < n)
    (hch : ends ch) : line n (stored ++ ch :: input) = some ⟨stored, some ch, input⟩ := by
  obtain ⟨m, hm⟩ := Nat.exists_eq_add_of_lt hl
  rw [line_append _ h (Nat.le_of_lt hl), show n - stored.length = m + 1 by omega, line, if_pos hch, Option.map_some,
    append_nil]

theorem serve_append {l : Line} : ∀ {calls : List Word} {input left : List Byte} {received : List Received},
    serve calls input = some (received, left) → line numBytes.toInt.toNat left = some l →
    serve (calls ++ [numBytes]) input = some (received ++ [receive numBytes l], l.rest) := by
  intro calls
  induction calls with
  | nil =>
    intro input left received h hl
    cases h
    rw [nil_append, serve, hl]
    rfl
  | cons first calls ih =>
    intro input left received h hl
    obtain ⟨l1, h1, h⟩ := Option.bind_eq_some_iff.mp h
    obtain ⟨⟨received2, left2⟩, h2, h⟩ := Option.bind_eq_some_iff.mp h
    cases h
    rw [cons_append, serve, h1]
    simp only [bind, Option.bind, ih h2 hl]
    rfl

theorem visible_cons (h : ch ≠ eof) (input : List Byte) : visible (ch :: input) = ch :: visible input :=
  filter_cons_of_pos (decide_eq_true h)

theorem visible_eof (input : List Byte) : visible (eof :: input) = visible input :=
  filter_cons_of_neg (by decide)

end

/-! ## The lock -/

def Place.rPhase : Place → Client.Phase
  | .readLine .. => .acquiring
  | .charGot .. | .readAvail .. => .inside
  | _ => .out

section

variable {sc : SynchConsole}

theorem Place.rPhase_readsNext {x : Word × List Byte × Nat × Option Byte × Bool} (h : l.readsNext = some x) :
    l.rPhase ≠ .out := by
  cases l with
  | readLine | charGot => intro h'; cases h'
  | outside | writeLine | charPut | writeAvail | readAvail => cases h

theorem Place.rPhase_writesNext {x : List Byte × Word × Nat} (h : l.writesNext = some x) : l.rPhase = .out := by
  cases l with
  | writeLine | writeAvail => rfl
  | outside | charPut | readLine | charGot | readAvail => cases h

theorem usesRLine (hd : sc.sems.Nodup) : UsesLock sc.client sc.rLineBlock Place.rPhase where
  turn {i g l g' l' call} h := by
    obtain ⟨-, hrr, -, har, -, hrl⟩ := distinct_sems hd
    have hn := Call.none_ne sc.rLineBlock
    cases turn_moves h with
    | idle hf => exact .away (hf sc.rLineBlock (by simp [sems]))
    | write => exact .away (Call.p_ne hrl.symm)
    | read => exact .acquire
    | put hl => rw [Place.rPhase_writesNext hl]; exact .away hn
    | awaitPut => exact .away (Call.p_ne har)
    | written hl => rw [Place.rPhase_writesNext hl]; exact .away (Call.v_ne hrl.symm)
    | awaitChar hl => exact .stays (Place.rPhase_readsNext hl) (Call.p_ne hrr)
    | received hl => exact .release (Place.rPhase_readsNext hl)
    | getNothing => exact .stays (by intro h; cases h) (Call.p_ne hrr)
    | getEnd | getChar => exact .stays (by intro h; cases h) hn
  fire h hs := by
    obtain ⟨-, hrr, -, har, -, -⟩ := distinct_sems hd
    rcases fire_signals h hs with e | e | e
    · exact hrr e.symm
    · exact har e.symm
    · exact e (by simp [sems])

end

/-! ## The stream -/

/-- What the device holds back. -/
def pending (cons : Console) : List Byte := visible (cons.incoming :: cons.keyboard)

/-- The characters of the call the thread is in. -/
def Place.taken : Place → List Byte
  | .charGot _ into loop ch eolncond => into.take loop ++ if eolncond then [ch] else []
  | .readAvail _ into loop => into.take loop
  | _ => []

/-- The buffer holds `loop` characters, none of which ends a line. -/
structure Filling (numBytes : Word) (into : List Byte) (loop : Nat) : Prop where
  size : into.length = numBytes.toInt.toNat
  inside : loop ≤ numBytes.toInt.toNat
  empty : into.drop loop = List.replicate (numBytes.toInt.toNat - loop) 0
  stored : ∀ ch ∈ into.take loop, ¬ ends ch

def Place.Filled : Place → Prop
  | .charGot numBytes into loop ch eolncond =>
    Filling numBytes into loop ∧ if eolncond then ends ch ∧ loop < numBytes.toInt.toNat else ¬ ends ch
  | .readAvail numBytes into loop => Filling numBytes into loop ∧ loop < numBytes.toInt.toNat
  | _ => True

/-- The calls that have returned received the start of the stream; `left` is what they left. -/
def Delivered (typed : List Byte) (g : Shared) (left : List Byte) : Prop :=
  serve (g.read.map Received.numBytes) (visible typed) = some (g.read, left)

section

variable {sc : SynchConsole} {typed : List Byte}

theorem Filling.start (numBytes : Word) : Filling numBytes (List.replicate numBytes.toInt.toNat 0) 0 :=
  ⟨length_replicate, Nat.zero_le _, rfl, fun _ h => by cases h⟩

theorem Filling.length_take (h : Filling numBytes into loop) : (into.take loop).length = loop := by
  have := h.size
  have := h.inside
  rw [List.length_take]
  omega

theorem Filling.set (h : Filling numBytes into loop) (hlt : loop < numBytes.toInt.toNat) (hch : ¬ ends ch) :
    (into.set loop ch).take (loop + 1) = into.take loop ++ [ch] ∧ Filling numBytes (into.set loop ch) (loop + 1) := by
  have hs := h.size
  have ht : (into.set loop ch).take (loop + 1) = into.take loop ++ [ch] := by
    rw [take_add_one, take_set_of_le (Nat.le_refl _), getElem?_set_self (by omega)]
    rfl
  refine ⟨ht, by rw [length_set, hs], hlt, ?_, ?_⟩
  · rw [drop_set_of_lt (show loop < loop + 1 by omega), ← drop_drop, h.empty, drop_replicate, Nat.sub_sub]
  rw [ht]
  intro x hx
  rcases mem_append.mp hx with hx | hx
  · exact h.stored x hx
  · rw [mem_singleton.mp hx]
    exact hch

/-- The call returns what the line it has taken gives. -/
theorem Place.line_taken {eolncond : Bool} (left : List Byte)
    (h : (Place.charGot numBytes into loop ch eolncond).Filled) (hd : numBytes.toInt ≤ loop ∨ eolncond = true) :
    ∃ l, line numBytes.toInt.toNat ((Place.charGot numBytes into loop ch eolncond).taken ++ left) = some l ∧ l.rest = left ∧
      receive numBytes l = ⟨numBytes, into, if ch = 1 then -1 else loop⟩ := by
  obtain ⟨hf, hch⟩ := h
  have hl := hf.length_take
  have hin : into.take loop ++ List.replicate (numBytes.toInt.toNat - (into.take loop).length) 0 = into := by
    rw [hl, ← hf.empty, take_append_drop]
  cases eolncond with
  | true =>
    refine ⟨⟨into.take loop, some ch, left⟩, ?_, rfl, ?_⟩
    · rw [Place.taken, if_pos rfl, append_assoc]
      exact line_ended left hf.stored (by rw [hl]; exact hch.2) hch.1
    · rw [receive, hin, hl]
      simp only [Option.some.injEq]
  | false =>
    have hins := hf.inside
    have hfl : numBytes.toInt.toNat = (into.take loop).length := by
      rcases hd with hle | he
      · omega
      · cases he
    have hne : ch ≠ 1 := fun e => hch (.inr e)
    refine ⟨⟨into.take loop, none, left⟩, ?_, rfl, ?_⟩
    · rw [Place.taken, if_neg (by decide), append_nil, hfl]
      exact line_full left hf.stored
    · rw [receive, hin, hl, if_neg (by intro e; cases e), if_neg hne]

theorem pending_taken {cons : Console} (h : cons.incoming ≠ eof) :
    pending cons = cons.incoming :: pending { cons with incoming := eof } := by
  rw [pending, pending, visible_cons h, visible_eof]

theorem fire_pending {d : Interrupt} (h : sc.fire d g = .ok (g', vs)) :
    pending g'.cons = pending g.cons ∧ g'.read = g.read := by
  obtain ⟨rfl, -⟩ | ⟨rfl, -⟩ | ⟨ch, rest, rfl, he, hk, -⟩ := fire_cases h
  · exact ⟨rfl, rfl⟩
  · exact ⟨rfl, rfl⟩
  · exact ⟨by rw [pending, pending, he, hk, visible_eof], rfl⟩

theorem rLine_protects : Client.Protects sc.client Place.rPhase (fun g => Delivered typed g (pending g.cons))
    (fun g l => Delivered typed g (l.taken ++ pending g.cons) ∧ l.Filled) where
  acquire {g l} hphase h := by
    cases l with
    | readLine numBytes => exact ⟨h, trivial⟩
    | outside | writeLine | charPut | writeAvail | charGot | readAvail => cases hphase
  turn {i g l g' l' call} hturn hphase h := by
    obtain ⟨hs, hf⟩ := h
    cases turn_moves hturn with
    | idle | write | read | awaitPut => exact absurd rfl hphase
    | put hl | written hl => exact absurd (Place.rPhase_writesNext hl) hphase
    | @awaitChar _ numBytes into loop ch hl hlt =>
      refine ⟨fun _ => ?_, fun h => by cases h⟩
      have hl' : loop < numBytes.toInt.toNat := by omega
      cases l with
      | readLine numBytes' => cases hl; exact ⟨hs, Filling.start numBytes, hl'⟩
      | charGot numBytes' into' loop' ch' eolncond =>
        cases hl
        rw [Place.taken, if_neg (by decide), append_nil] at hs
        exact ⟨hs, hf.1, hl'⟩
      | outside | writeLine | charPut | writeAvail | readAvail => cases hl
    | @received _ numBytes into loop last eolncond hl hd =>
      refine ⟨fun h => absurd rfl h, fun _ => ?_⟩
      cases l with
      | charGot numBytes' into' loop' ch' eolncond' =>
        cases hl
        obtain ⟨l, hln, hrs, hr⟩ := Place.line_taken (pending g.cons) hf hd
        have hsr := serve_append hs hln
        rw [hrs, hr] at hsr
        simp only [Delivered, map_append, map_cons, map_nil]
        exact hsr
      | readLine | outside | writeLine | charPut | writeAvail | readAvail => cases hl
    | getNothing numBytes into loop he =>
      refine ⟨fun _ => ⟨?_, hf⟩, fun h => by cases h⟩
      rw [show ({ g.cons with incoming := eof } : Console) = g.cons by rw [← he]]
      exact hs
    | getEnd numBytes into loop hfl hen =>
      refine ⟨fun _ => ⟨?_, hf.1, hen, hf.2⟩, fun h => by cases h⟩
      rw [pending_taken hfl] at hs
      rw [Place.taken, if_pos rfl, append_assoc]
      exact hs
    | getChar numBytes into loop hfl hen =>
      obtain ⟨ht, hfi⟩ := hf.1.set hf.2 hen
      refine ⟨fun _ => ⟨?_, hfi, hen⟩, fun h => by cases h⟩
      rw [pending_taken hfl] at hs
      rw [Place.taken, ht, if_neg (by decide), append_nil, append_assoc]
      exact hs
  other {i g l g' l' call} hturn hphase := by
    have hsm : pending g'.cons = pending g.cons ∧ g'.read = g.read := by
      cases turn_moves hturn with
      | idle | write | read | put | awaitPut | written | awaitChar => exact ⟨rfl, rfl⟩
      | received hl => exact absurd hphase (Place.rPhase_readsNext hl)
      | getNothing | getEnd | getChar => cases hphase
    simp only [Delivered, hsm]
    exact ⟨id, fun _ => id⟩
  fire h := by
    simp only [Delivered, fire_pending h]
    exact ⟨id, fun _ => id⟩

end

/-! ## The permits -/

/-- The thread has called `synchReadAvail->P()`. -/
def Place.getting (l : Place) : Prop := ∃ numBytes into loop, l = .readAvail numBytes into loop

/-- The thread is past `synchReadAvail->P()`. -/
def Gets (sc : SynchConsole) (s : Client.State Shared Place) (t : Tid) : Prop :=
  (∃ numBytes into loop, s.locals t = .readAvail numBytes into loop) ∧ (s.kernel.counter sc.synchReadAvail).waits t = false

/-- There are at most as many permits as characters have been typed, and one for the character
    in the buffer, unless a thread has taken it and not the character. -/
structure Stock (sc : SynchConsole) (typed : List Byte) (s : Client.State Shared Place) : Prop where
  made : sc.synchReadAvail < s.kernel.numSems
  initial : s.kernel.initial sc.synchReadAvail = 0
  lawful : s.kernel.Lawful sc.synchReadAvail
  waiting : ∀ t, (s.kernel.counter sc.synchReadAvail).waits t = true → ∃ numBytes into loop, s.locals t = .readAvail numBytes into loop
  few : (s.kernel.counter sc.synchReadAvail).value.toNat + s.shared.cons.keyboard.length ≤ typed.length
  stocked : s.shared.cons.incoming ≠ eof → (s.kernel.counter sc.synchReadAvail).value ≠ 0 ∨ ∃ t, Gets sc s t

section

variable {sc : SynchConsole} {typed : List Byte} {s s' : Client.State Shared Place}

theorem Gets.held (hm : Mutex sc.rLineBlock Place.rPhase s) (h : Gets sc s t) :
    Held sc.rLineBlock Place.rPhase s t := by
  obtain ⟨⟨numBytes, into, loop, hl⟩, -⟩ := h
  exact hm.inside (by rw [hl]; rfl)

/-- A poll fetches a character and signals. -/
theorem fire_stock (hd : sc.sems.Nodup) {d : Interrupt} (h : sc.fire d g = .ok (g', vs)) :
    vs.count sc.synchReadAvail + g'.cons.keyboard.length = g.cons.keyboard.length ∧
      (g'.cons.incoming ≠ eof → g.cons.incoming ≠ eof ∨ 0 < vs.count sc.synchReadAvail) := by
  obtain ⟨hra, -⟩ := distinct_sems hd
  obtain ⟨rfl, hno⟩ | ⟨rfl, -, rfl⟩ | ⟨ch, rest, rfl, -, hk, rfl⟩ := fire_cases h
  · exact ⟨by rw [count_eq_zero.mpr (hno _ (by simp [sems])), Nat.zero_add], .inl⟩
  · exact ⟨by rw [count_eq_zero.mpr fun hm => hra (mem_singleton.mp hm), Nat.zero_add], .inl⟩
  · rw [hk, count_singleton_self, length_cons]
    exact ⟨Nat.add_comm .., fun _ => .inr Nat.one_pos⟩

theorem fires_stock (hd : sc.sems.Nodup) (h : sc.client.fires due g = .ok (g', vs)) :
    vs.count sc.synchReadAvail + g'.cons.keyboard.length = g.cons.keyboard.length ∧
      (g'.cons.incoming ≠ eof → g.cons.incoming ≠ eof ∨ 0 < vs.count sc.synchReadAvail) := by
  refine Client.fires_rec (R := fun g g' vs => vs.count sc.synchReadAvail + g'.cons.keyboard.length = g.cons.keyboard.length ∧
    (g'.cons.incoming ≠ eof → g.cons.incoming ≠ eof ∨ 0 < vs.count sc.synchReadAvail)) (fun _ => ⟨Nat.zero_add _, .inl⟩)
    (fun h1 h2 => ?_) h
  obtain ⟨hl1, hf1⟩ := fire_stock hd h1
  obtain ⟨hl2, hf2⟩ := h2
  rw [count_append]
  refine ⟨by omega, fun hne => ?_⟩
  rcases hf2 hne with hf | hp
  · exact (hf1 hf).imp_right fun hp => by omega
  · exact .inr (by omega)

section

variable (hmade : sc.synchReadAvail < s'.kernel.numSems) (hinitial : s'.kernel.initial sc.synchReadAvail = 0)
  (hlawful : s'.kernel.Lawful sc.synchReadAvail)
include hmade hinitial hlawful

/-- Nothing happens to the semaphore, and a character is not put in the buffer. -/
theorem Stock.same (h : Stock sc typed s) (hw : WaitsAt sc.synchReadAvail Place.getting s')
    (hc : s'.kernel.counter sc.synchReadAvail = s.kernel.counter sc.synchReadAvail)
    (hk : s'.shared.cons.keyboard = s.shared.cons.keyboard)
    (hs : s'.shared.cons.incoming ≠ eof → s.shared.cons.incoming ≠ eof ∧ ∀ t, Gets sc s t → s'.locals t = s.locals t) :
    Stock sc typed s' := by
  refine ⟨hmade, hinitial, hlawful, hw, by rw [hc, hk]; exact h.few, fun hne => ?_⟩
  obtain ⟨hf, hg⟩ := hs hne
  rw [hc]
  rcases h.stocked hf with hv | ⟨t, ht⟩
  · exact .inl hv
  · refine .inr ⟨t, ?_⟩
    rw [Gets, hg t ht, hc]
    exact ht

/-- A thread tests the value in `synchReadAvail->P()`, while no other has taken a permit only. -/
theorem Stock.test (h : Stock sc typed s) (hw : WaitsAt sc.synchReadAvail Place.getting s')
    (hc : s'.kernel.counter sc.synchReadAvail = (s.kernel.counter sc.synchReadAvail).test t)
    (hs : (s'.locals t).getting) (hk : s'.shared.cons.keyboard = s.shared.cons.keyboard)
    (hst : s'.shared.cons.incoming ≠ eof → s.shared.cons.incoming ≠ eof ∧ ∀ u, ¬ Gets sc s u) :
    Stock sc typed s' := by
  refine ⟨hmade, hinitial, hlawful, hw, ?_, ?_⟩
  · have hfw := h.few
    have hp := (s.kernel.counter sc.synchReadAvail).test_permit t
    rw [hc, hk]
    omega
  · intro hne
    obtain ⟨hf, hn⟩ := hst hne
    rcases h.stocked hf with hv | ⟨u, hu⟩
    · refine .inr ⟨t, hs, ?_⟩
      rw [hc, Counter.test_waits_self]
      exact decide_eq_false hv
    · exact absurd hu (hn u)

theorem Stock.turn (hd : sc.sems.Nodup) (hm : Mutex sc.rLineBlock Place.rPhase s) (h : Stock sc typed s)
    (htr : Turn sc.client i t l call s s') : Stock sc typed s' := by
  obtain ⟨hra, hrr, hrw, -⟩ := distinct_sems hd
  have hlc := htr.others
  have hmv := turn_moves htr.turn
  generalize hold : s.locals t = old at hmv
  generalize hsh : s'.shared = g' at hmv
  have hs : call ≠ .p sc.synchReadAvail ∧ call ≠ .v sc.synchReadAvail → g'.cons.keyboard = s.shared.cons.keyboard →
      (g'.cons.incoming ≠ eof → s.shared.cons.incoming ≠ eof ∧ ∀ numBytes into loop, old ≠ .readAvail numBytes into loop) →
      Stock sc typed s' := by
    intro hc hk hf
    refine h.same hmade hinitial hlawful (WaitsAt.turn h.waiting h.made htr fun e => absurd e hc.1)
      (htr.unused h.made hc) (hsh ▸ hk) fun hne => ?_
    rw [hsh] at hne
    refine ⟨(hf hne).1, fun u hu => hlc u ?_⟩
    rintro rfl
    obtain ⟨⟨numBytes, into, loop, hl⟩, -⟩ := hu
    exact (hf hne).2 numBytes into loop (hold.symm.trans hl)
  have hts : call = .p sc.synchReadAvail → l.getting → g'.cons.keyboard = s.shared.cons.keyboard →
      (g'.cons.incoming ≠ eof → s.shared.cons.incoming ≠ eof ∧ ∀ u, ¬ Gets sc s u) → Stock sc typed s' := by
    intro hc hg hk hf
    exact h.test hmade hinitial hlawful (WaitsAt.turn h.waiting h.made htr fun _ => hg) (htr.tests h.made hc)
      (htr.self ▸ hg) (hsh ▸ hk) (hsh ▸ hf)
  have hn := Call.none_ne sc.synchReadAvail
  cases hmv with
  | idle hfr => exact hs (hfr _ (by simp [sems])) rfl fun hne => ⟨hne, fun _ _ _ e => by cases e⟩
  | write => exact hs (Call.p_ne hrw.symm) rfl fun hne => ⟨hne, fun _ _ _ e => by cases e⟩
  | read => exact hs (Call.p_ne hrr.symm) rfl fun hne => ⟨hne, fun _ _ _ e => by cases e⟩
  | put hl => exact hs hn rfl fun hne => ⟨hne, fun _ _ _ e => by rw [e] at hl; cases hl⟩
  | awaitPut => exact hs (Call.p_ne hra.symm) rfl fun hne => ⟨hne, fun _ _ _ e => by cases e⟩
  | written hl => exact hs (Call.v_ne hrw.symm) rfl fun hne => ⟨hne, fun _ _ _ e => by rw [e] at hl; cases hl⟩
  | @awaitChar _ numBytes into loop ch hl hlt =>
    refine hts rfl ⟨numBytes, into, loop, rfl⟩ rfl fun hne => ⟨hne, fun u hu => ?_⟩
    -- the thread that has taken a permit would be this one
    have ht : Held sc.rLineBlock Place.rPhase s t := ⟨by rw [hold]; exact Place.rPhase_readsNext hl, htr.outside _⟩
    obtain rfl : u = t := hm.unique ht (hu.held hm)
    obtain ⟨⟨numBytes', into', loop', hl'⟩, -⟩ := hu
    rw [← hold, hl'] at hl
    cases hl
  | received hl => exact hs (Call.v_ne hrr.symm) rfl fun hne => ⟨hne, fun _ _ _ e => by rw [e] at hl; cases hl⟩
  | getNothing numBytes into loop => exact hts rfl ⟨numBytes, into, loop, rfl⟩ rfl fun hne => absurd rfl hne
  | getEnd => exact hs hn rfl fun hne => absurd rfl hne
  | getChar => exact hs hn rfl fun hne => absurd rfl hne

theorem Stock.fired (hd : sc.sems.Nodup) (hl : typed.length ≤ 2147483647) (h : Stock sc typed s)
    (hfr : Fired sc.client due vs s s') : Stock sc typed s' := by
  obtain ⟨hcn, hf⟩ := fires_stock hd hfr.fires
  have hc := hfr.counters sc.synchReadAvail
  have hfw := h.few
  have hvl : (s'.kernel.counter sc.synchReadAvail).value.toNat =
      (s.kernel.counter sc.synchReadAvail).value.toNat + vs.count sc.synchReadAvail := by
    rw [hc, Counter.signal_toNat (by omega)]
  have hw : WaitsAt sc.synchReadAvail Place.getting s' := WaitsAt.fired h.waiting hfr
  refine ⟨hmade, hinitial, hlawful, hw, by omega, ?_⟩
  · intro hne
    have hp : 0 < (s'.kernel.counter sc.synchReadAvail).value.toNat → (s'.kernel.counter sc.synchReadAvail).value ≠ 0 := by
      intro hp e
      rw [e] at hp
      cases hp
    rcases hf hne with hne | ho
    · rcases h.stocked hne with hv | ⟨t, ht⟩
      · have hv' : (s.kernel.counter sc.synchReadAvail).value.toNat ≠ 0 := fun hz => hv (BitVec.eq_of_toNat_eq hz)
        exact .inl (hp (by omega))
      · refine .inr ⟨t, ?_⟩
        rw [Gets, hfr.locals, hc]
        exact ht
    · exact .inl (hp (by omega))

theorem Stock.resumed (hm : Mutex sc.rLineBlock Place.rPhase s) (h : Stock sc typed s)
    (hr : Resumed t s s') : Stock sc typed s' := by
  have hlc : ∀ u, s'.locals u = s.locals u := fun u => by rw [hr.locals]
  have hwt : WaitsAt sc.synchReadAvail Place.getting s' := WaitsAt.resumed h.waiting hr
  rcases hr.counters sc.synchReadAvail with hs | ⟨hw, ht⟩
  · exact h.same hmade hinitial hlawful hwt hs (by rw [hr.shared]) fun hne =>
      ⟨by rwa [hr.shared] at hne, fun u _ => hlc u⟩
  obtain ⟨numBytes, into, loop, hl⟩ := h.waiting t hw
  refine h.test hmade hinitial hlawful hwt ht ⟨numBytes, into, loop, (hlc t).trans hl⟩
    (by rw [hr.shared]) fun hne => ⟨by rwa [hr.shared] at hne, fun u hu => ?_⟩
  obtain rfl : u = t := hm.unique (hm.inside (by rw [hl]; rfl)) (hu.held hm)
  rw [hu.2] at hw
  cases hw

end

end

/-! ## Whole runs -/

structure Stream (sc : SynchConsole) (typed : List Byte) (s : Client.State Shared Place) : Prop where
  distinct : sc.sems.Nodup
  mutex : Mutex sc.rLineBlock Place.rPhase s
  delivered : Client.Protected sc.rLineBlock Place.rPhase (fun g => Delivered typed g (pending g.cons))
    (fun g l => Delivered typed g (l.taken ++ pending g.cons) ∧ l.Filled) s
  stock : typed.length ≤ 2147483647 → Stock sc typed s

section

variable {sc : SynchConsole} {typed : List Byte} {s s' : Client.State Shared Place}

theorem Stock.fits (hd : sc.sems.Nodup) (hl : typed.length ≤ 2147483647) (h : Stock sc typed s)
    (hfr : sc.client.fires due s.shared = .ok (g, vs)) :
    (s.kernel.counter sc.synchReadAvail).value.toInt + vs.count sc.synchReadAvail ≤ intMax.toInt := by
  have hc := (fires_stock hd hfr).1
  have hf := h.few
  have hm : intMax.toInt = 2147483647 := rfl
  rw [BitVec.toInt_eq_toNat_of_lt (by omega), hm]
  omega

theorem turn_ne_v (hd : sc.sems.Nodup) {l' : Place} (h : sc.turn i g l = .ok (g', l', call)) :
    call ≠ .v sc.synchReadAvail := by
  obtain ⟨-, hrr, hrw, -⟩ := distinct_sems hd
  cases turn_moves h with
  | idle hf => exact (hf _ (by simp [sems])).2
  | write | read | put | awaitPut | awaitChar | getNothing | getEnd | getChar => intro e; cases e
  | written => exact (Call.v_ne hrw.symm).2
  | received => exact (Call.v_ne hrr.symm).2

theorem step_stream (h : Stream sc typed s) {e : Client.Event Input Interrupt} (hs : sc.client.step s e = .ok s') :
    Stream sc typed s' := by
  refine ⟨h.distinct, h.mutex.step (usesRLine h.distinct) hs, h.delivered.step (usesRLine h.distinct) rLine_protects h.mutex hs, ?_⟩
  intro hl
  have hst := h.stock hl
  obtain ⟨-, hk, hc⟩ := Client.step_cases h.mutex.custody hs
  obtain ⟨hmade, hinitial⟩ := hk _ hst.made
  rw [hst.initial] at hinitial
  have hlawful := Client.step_lawful h.mutex.custody hst.lawful (turn_ne_v h.distinct) (hst.fits h.distinct hl) hs
  rcases hc with rfl | ⟨i, t, l, call, ht⟩ | ⟨due, vs, hf⟩ | ⟨t, hr⟩
  · exact hst
  · exact hst.turn hmade hinitial hlawful h.distinct h.mutex ht
  · exact hst.fired hmade hinitial hlawful h.distinct hl hf
  · exact hst.resumed hmade hinitial hlawful h.mutex hr

theorem init_stream (h : sc.Init typed s) : Stream sc typed s := by
  obtain ⟨⟨k, hk, hc, hn⟩, hs, hl⟩ := h
  have hf := new_fresh (Dispatch.reach_making hk hc) hn
  obtain ⟨hinitial, hlawful⟩ := new_lawful hn
  have ho : ∀ t, s.locals t = .outside := fun t => by rw [hl]
  obtain ⟨hm, hfr⟩ := Mutex.start Place.rPhase hf.custody (hf.made _ (by simp [sems])) hf.rLine
    fun t => by rw [ho]; rfl
  refine ⟨hf.distinct, hm, ⟨fun _ => ?_, fun t ht => absurd ht (hfr t)⟩, fun _ => ?_⟩
  · rw [hs, Delivered, pending]
    exact congrArg (fun left => some ([], left)) (visible_eof typed).symm
  refine ⟨hf.made _ (by simp [sems]), hinitial, hlawful, ?_, ?_, ?_⟩
  · intro t ht
    rw [hf.readAvail] at ht
    cases ht
  · rw [hf.readAvail, hs]
    exact Nat.le_of_eq (Nat.zero_add _)
  · intro hne
    rw [hs] at hne
    exact absurd rfl hne

theorem reach_stream {ok : Client.State Shared Place → Client.Event Input Interrupt → Prop}
    (h : Reach sc.client.step ok (sc.Init typed) s) : Stream sc typed s :=
  h.inv (P := Stream sc typed) (fun _ hs => init_stream hs) fun _ _ _ hs _ hst => step_stream hs hst

/-- Nobody sleeps for a character while there is one in the buffer. -/
theorem Stock.awake (hm : Mutex sc.rLineBlock Place.rPhase s) (h : Stock sc typed s) (hf : s.shared.cons.incoming ≠ eof) :
    (s.kernel.sems sc.synchReadAvail).queue = [] := by
  have hr : ∀ u, s.kernel.waits sc.synchReadAvail u = true → Held sc.rLineBlock Place.rPhase s u := by
    intro u hu
    obtain ⟨numBytes, into, loop, hl⟩ := h.waiting u hu
    exact hm.inside (by rw [hl]; rfl)
  refine h.lawful.awake hm.custody h.made h.initial (fun t u ht hu => hm.unique (hr t ht) (hr u hu)) fun t hw => ?_
  rcases h.stocked hf with hv | ⟨u, hu⟩
  · exact hv
  · obtain rfl : u = t := hm.unique (hr t hw) (hu.held hm)
    exact absurd hw (by rw [show s.kernel.waits sc.synchReadAvail u = false from hu.2]; decide)

end

/-- In every state of every run: one thread at a time has `RLineBlock`, so that calls of `Read`
    return in the order in which they take it. Those that have returned received the visible input
    cut into lines, one after another; what they left is what the call in progress has taken and
    what the device holds back. And nobody sleeps while a character is in the buffer, unless more
    have been typed than an `int` counts. -/
theorem reads_in_order {sc : SynchConsole} {typed : List Byte} {s : Client.State Shared Place}
    (h : Lib.Reach sc.client.step (fun _ _ => True) (sc.Init typed) s) :
    (∀ t u, Held sc.rLineBlock Place.rPhase s t → Held sc.rLineBlock Place.rPhase s u → u = t) ∧
    (∃ begun, serve (s.shared.read.map Received.numBytes) (visible typed) = some (s.shared.read, begun ++ pending s.shared.cons) ∧
      (begun = [] ∨ ∃ t, Held sc.rLineBlock Place.rPhase s t ∧ begun = (s.locals t).taken)) ∧
    (typed.length ≤ 2147483647 → s.shared.cons.incoming ≠ eof → (s.kernel.sems sc.synchReadAvail).queue = []) := by
  have hstream := reach_stream h
  refine ⟨fun t u => hstream.mutex.unique, ?_, fun hlen => (hstream.stock hlen).awake hstream.mutex⟩
  by_cases hheld : ∃ t, Held sc.rLineBlock Place.rPhase s t
  · obtain ⟨t, ht⟩ := hheld
    exact ⟨(s.locals t).taken, (hstream.delivered.held t ht).1, .inr ⟨t, ht, rfl⟩⟩
  · exact ⟨[], hstream.delivered.free (not_exists.mp hheld), .inl rfl⟩

/-- The input is "a", a byte that looks like none, "b" and a newline: one thread reads two
    characters, the other the empty line. -/
theorem two_readers : ∃ s, Lib.Reach firstConsole.client.step (fun _ _ => True) (firstConsole.Init [97, 255, 98, 10]) s ∧
    s.shared.read = [⟨2, [97, 98], 2⟩, ⟨3, [0, 0, 0], 0⟩] ∧
    (∃ begun, serve [2, 3] (visible [97, 255, 98, 10]) = some (s.shared.read, begun ++ pending s.shared.cons) ∧
      (begun = [] ∨ ∃ t, Held firstConsole.rLineBlock Place.rPhase s t ∧ begun = (s.locals t).taken)) ∧
    (s.shared.cons.incoming ≠ eof → (s.kernel.sems firstConsole.synchReadAvail).queue = []) := by
  obtain ⟨s, hs, ht⟩ := exists_reach firstConsole.client.step (fun _ _ => true)
    [.turn (.other .fork), .turn (.read 2), .turn .goOn, .resume, .turn (.read 3), .idle [.consoleReadPoll true], .resume,
      .turn .goOn, .turn .goOn, .idle [.consoleReadPoll true, .consoleReadPoll true], .resume, .turn .goOn, .turn .goOn,
      .turn (.other .yield), .resume, .turn .goOn, .turn .goOn, .resume, .tick [.consoleReadPoll true] true, .resume, .turn .goOn,
      .turn .goOn]
    (fun s => s.shared.read == [⟨2, [97, 98], 2⟩, ⟨3, [0, 0, 0], 0⟩]) (booted_init [97, 255, 98, 10]) (by decide +kernel)
  have hread := beq_iff_eq.mp ht
  have hreach := hs.mono fun _ _ _ => trivial
  obtain ⟨-, hserve, hqueue⟩ := reads_in_order hreach
  rw [show s.shared.read.map Received.numBytes = [2, 3] by rw [hread]; rfl] at hserve
  exact ⟨s, hreach, hread, hserve, hqueue (by decide)⟩

end Nachos.SynchConsole

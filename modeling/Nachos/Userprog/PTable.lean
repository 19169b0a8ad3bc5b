/-
  Nachos.Userprog.PTable — processes: `userprog/ptable.cc`, `userprog/pcb.cc`, the `Exec`,
  `Join` and `Exit` handlers of `exception.cc`, and `StartProcess`/`StartProcessID`.

  Kernel code gives up the CPU only where it re-enables interrupts: at the end of every
  `P` and `V`, after `Fork`, and when a `P` sleeps. `Pc` names these points, one step of
  `Kernel.step` runs a thread from one of them to the next, and the events choose the
  thread, so that the runs of `step` are all the interleavings. A handler's atomic parts
  are written in the order of the source.

  `pcb` keeps the pointer of a removed process, as `PTable::Remove` does. `heap` says
  which PCBs are alive: `~PCB` ends one. Following a NULL or dead pointer, or indexing
  past the array, ends the run with `Stop.undefined`; a failed ASSERT with
  `Stop.assertion`.

  What `fileSystem->Open` finds, and what a name of a dead buffer reads as
  (`currentThread->getName()` after `delete[] progName`), come with the events.
-/

import Mathlib.Tactic.Simps.Basic
import Nachos.Threads.Synch
import Nachos.Lib.Runs

namespace Nachos

open Function (update)

/-- A `PCB *`; addresses are not used again. -/
abbrev Ptr := Nat

def maxProcess : Nat := 10

structure PCB where
  joinsem : Semaphore
  exitsem : Semaphore
  multex : Semaphore
  exitcode : Word
  numwait : Nat
  thread : Option Tid
  parentID : Int
  /-- Not in the source: the thread whose `Exec` made the process. -/
  creator : Tid
  deriving DecidableEq, Repr

/-- `PCB::PCB(id)`. -/
def PCB.new (id : Nat) (creator : Tid) : PCB :=
  { joinsem := .new 0, exitsem := .new 0, multex := .new 1, exitcode := 0, numwait := 0, thread := none,
    parentID := if id ≠ 0 then id else -1, creator }

/-- The semaphores of a PCB. -/
inductive Sem where
  | joinsem
  | exitsem
  | multex
  deriving DecidableEq, Repr

def PCB.sem (b : PCB) : Sem → Semaphore
  | .joinsem => b.joinsem
  | .exitsem => b.exitsem
  | .multex => b.multex

def PCB.setSem (b : PCB) (s : Semaphore) : Sem → PCB
  | .joinsem => { b with joinsem := s }
  | .exitsem => { b with exitsem := s }
  | .multex => { b with multex := s }

/-- Where a thread goes on when it gets the CPU. A pointer already evaluated is kept with
    the point; `pcb[id]` is read again wherever the source reads it again. -/
inductive Pc where
  /-- Before `StartProcess` or `StartProcessID`. -/
  | start
  /-- At a user instruction. -/
  | user
  /-- `ExecUpdate`: at `bmsem->P()`. -/
  | execP (name : Option String) (self : String)
  /-- `ExecUpdate`: after `bmsem->P()`. -/
  | execSlot (name : Option String) (self : String)
  /-- `PCB::Exec`: after `multex->P()`. -/
  | execFork (index : Nat) (p : Ptr)
  /-- `PCB::Exec`: after `Fork`. -/
  | execUnlock (index : Nat) (p : Ptr)
  /-- `ExecUpdate`: after `Exec`. -/
  | execV (index : Nat)
  /-- `IncNumWait`: at `multex->P()`, and after it. -/
  | joinP (id : Nat) (p : Ptr)
  | joinInc (id : Nat) (p : Ptr)
  /-- `JoinUpdate`: before `JoinWait`, asleep in it, and after it. -/
  | joinCall (id : Nat)
  | joinWait (id : Nat) (q : Ptr)
  | joinRead (id : Nat)
  /-- `DecNumWait`: at `multex->P()`, and after it. -/
  | exitP (p : Ptr)
  | exitDec (p : Ptr)
  /-- `ExitUpdate`: before `JoinRelease`, before `ExitWait`, asleep in it, and after it. -/
  | exitRelease
  | exitCall
  | exitWait (q : Ptr)
  | exitRemove
  deriving DecidableEq, Repr

structure Thread where
  processID : Nat
  pc : Pc
  /-- In the queue of a semaphore, not on the ready list. -/
  blocked : Bool
  space : Option SpaceId
  /-- The system call's result. -/
  r2 : Word
  deriving DecidableEq, Repr

/-- The process table, the threads and the address spaces. -/
structure Kernel where
  bm : BitMap
  bmsem : Semaphore
  pcb : Nat → Option Ptr
  heap : Ptr → Option PCB
  nextPtr : Ptr
  threads : Tid → Option Thread
  nextTid : Tid
  gPhysPageBitMap : BitMap
  spaces : SpaceId → Option AddrSpace
  nextSpace : SpaceId
  halted : Bool

namespace Kernel

open Lib

inductive Event where
  /-- `StartProcess` (constructor `ofOpenFile`) or `StartProcessID`, with the file found. -/
  | start (t : Tid) (c : Ctor) (executable : Option OpenFile) (junk : AddrSpace) (stack : Memory)
  /-- `ExecFunction`, with the program's name and what `getName()` reads. -/
  | exec (t : Tid) (name : Option String) (self : String)
  | join (t : Tid) (id : Int)
  | exit (t : Tid) (status : Word)
  /-- `ExitUpdate(ec)` itself: the handler calls it with 0 only. -/
  | exitUpdate (t : Tid) (ec : Word)
  | halt (t : Tid)
  /-- Thread `t` gets the CPU inside the kernel. -/
  | cont (t : Tid)

/-! ## Pieces of a step -/

@[simps -fullyApplied]
def setThread (k : Kernel) (t : Tid) (th : Thread) : Kernel :=
  { k with threads := update k.threads t (some th) }

@[simps -fullyApplied]
def setPCB (k : Kernel) (p : Ptr) (b : PCB) : Kernel := { k with heap := update k.heap p (some b) }

/-- `scheduler->ReadyToRun` for the thread `V` took from the queue, if any. -/
@[simps -fullyApplied]
def ready (k : Kernel) (woken : Option Tid) : Kernel :=
  { k with threads := fun t => (k.threads t).map fun th => if woken = some t then { th with blocked := false } else th }

/-- The object at `p`. -/
def deref (k : Kernel) (p : Ptr) : Except Stop PCB :=
  match k.heap p with
  | some b => .ok b
  | none => .error .undefined

/-- `pcb[id]`, followed. -/
def slot (k : Kernel) (id : Int) : Except Stop (Ptr × PCB) :=
  if 0 ≤ id ∧ id < maxProcess then
    match k.pcb id.toNat with
    | some p => do
      let b ← k.deref p
      return (p, b)
    | none => .error .undefined
  else .error .undefined

/-- `P` on a semaphore of the PCB at `p`: on to `next`, or asleep at `waiting`. -/
def semP (k : Kernel) (t : Tid) (th : Thread) (p : Ptr) (s : Sem) (waiting next : Pc) : Except Stop Kernel := do
  let b ← k.deref p
  let r := (b.sem s).p t
  return (k.setPCB p (b.setSem r.1 s)).setThread t { th with pc := if r.2 then next else waiting, blocked := !r.2 }

/-- `V` on a semaphore of the PCB at `p`, whose data `f` has changed just before. -/
def semV (k : Kernel) (t : Tid) (th : Thread) (p : Ptr) (s : Sem) (f : PCB → PCB) : Except Stop Kernel := do
  let b ← k.deref p
  let r := ((f b).sem s).v
  return ((k.setPCB p ((f b).setSem r.1 s)).setThread t th).ready r.2

/-- `return value` to the user program. -/
def ret (th : Thread) (value : Word) : Thread := { th with pc := .user, r2 := value }

/-- `Thread::FreeSpace`. -/
def freeSpace (k : Kernel) (th : Thread) : Except Stop Kernel :=
  match th.space with
  | none => .ok k
  | some s =>
    match k.spaces s with
    | none => .error .undefined
    | some a => do
      let bm ← a.destroy k.gPhysPageBitMap
      return { k with gPhysPageBitMap := bm, spaces := update k.spaces s none }

/-- `FreeSpace` and `Finish` of thread `t`, which never runs again. -/
def finish (k : Kernel) (t : Tid) (th : Thread) : Except Stop Kernel := do
  let k ← k.freeSpace th
  return { k with threads := update k.threads t none }

/-! ## What a piece that returns has done -/

variable {k k' : Kernel} {p : Ptr} {b : PCB} {t : Tid} {th : Thread} {s : Sem}

theorem ready_none : k.ready none = k := by simp [ready]

theorem deref_ok : k.deref p = .ok b ↔ k.heap p = some b := by
  unfold deref
  cases k.heap p <;> simp

theorem slot_ok {id : Int} :
    k.slot id = .ok (p, b) ↔ (0 ≤ id ∧ id < maxProcess) ∧ k.pcb id.toNat = some p ∧ k.heap p = some b := by
  unfold slot
  split
  · rename_i hid
    cases hp : k.pcb id.toNat with
    | none => simp
    | some p' =>
      simp only [bind_eq_ok, deref_ok]
      constructor
      · intro h'
        obtain ⟨b', hb, e⟩ := h'
        cases e
        exact ⟨hid, rfl, hb⟩
      · intro h'
        obtain ⟨-, e, hb⟩ := h'
        cases e
        exact ⟨b, hb, rfl⟩
  · rename_i hid
    exact ⟨fun h => (by cases h), fun h => absurd h.1 hid⟩

theorem semP_ok {waiting next : Pc} : k.semP t th p s waiting next = .ok k' ↔ ∃ b, k.heap p = some b ∧
      k' = (k.setPCB p (b.setSem ((b.sem s).p t).1 s)).setThread t
        { th with pc := if ((b.sem s).p t).2 then next else waiting, blocked := !((b.sem s).p t).2 } := by
  simp only [semP, bind_eq_ok, deref_ok, pure, Except.pure, Except.ok.injEq, @eq_comm _ k']

theorem semV_ok {f : PCB → PCB} : k.semV t th p s f = .ok k' ↔ ∃ b, k.heap p = some b ∧
      k' = ((k.setPCB p ((f b).setSem ((f b).sem s).v.1 s)).setThread t th).ready ((f b).sem s).v.2 := by
  simp only [semV, bind_eq_ok, deref_ok, pure, Except.pure, Except.ok.injEq, @eq_comm _ k']

/-- `FreeSpace` gives back the frames of the thread's address space, if it has one. -/
inductive Freed (frames : BitMap) (spaces : SpaceId → Option AddrSpace) :
    Option SpaceId → BitMap → (SpaceId → Option AddrSpace) → Prop
  | none : Freed frames spaces none frames spaces
  | some {s : SpaceId} {a : AddrSpace} {frames' : BitMap} : spaces s = some a → a.destroy frames = .ok frames' →
      Freed frames spaces (some s) frames' (update spaces s none)

theorem freeSpace_ok (h : k.freeSpace th = .ok k') :
    ∃ frames spaces, Freed k.gPhysPageBitMap k.spaces th.space frames spaces ∧
      k' = { k with gPhysPageBitMap := frames, spaces } := by
  unfold freeSpace at h
  split at h
  · rename_i hs
    cases h
    exact ⟨_, _, hs ▸ .none, rfl⟩
  · rename_i s hs
    split at h
    · cases h
    rename_i a ha
    obtain ⟨bm, hd, e⟩ := bind_eq_ok.mp h
    cases e
    exact ⟨bm, _, hs ▸ .some ha hd, rfl⟩

theorem finish_ok (h : k.finish t th = .ok k') :
    ∃ frames spaces, Freed k.gPhysPageBitMap k.spaces th.space frames spaces ∧
      k' = { k with gPhysPageBitMap := frames, spaces, threads := update k.threads t none } := by
  obtain ⟨k1, h1, e⟩ := bind_eq_ok.mp h
  obtain ⟨frames, spaces, hf, rfl⟩ := freeSpace_ok h1
  cases e
  exact ⟨frames, spaces, hf, rfl⟩

/-! ## The calls -/

/-- The test of `ExecUpdate`. -/
def rejects (name : Option String) (index : Int) (self : String) : Bool :=
  name.isNone || decide (index < 0) || name == some "./test/scheduler" || name == some self

/-- `bmsem->P()`. -/
def execP (k : Kernel) (t : Tid) (th : Thread) (name : Option String) (self : String) : Kernel :=
  let r := k.bmsem.p t
  { k with bmsem := r.1 }.setThread t { th with
    pc := if r.2 then .execSlot name self else .execP name self, blocked := !r.2 }

/-- `bmsem->V(); return value`. -/
def execV (k : Kernel) (t : Tid) (th : Thread) (value : Word) : Kernel :=
  let r := k.bmsem.v
  ({ k with bmsem := r.1 }.setThread t (ret th value)).ready r.2

/-- `ExecUpdate` from `GetFreeSlot` to the `multex->P()` of `Exec`, which passes: the
    semaphore is new. -/
def execSlot (k : Kernel) (t : Tid) (th : Thread) (name : Option String) (self : String) : Kernel :=
  let r := k.bm.find
  let k := { k with bm := r.2 }
  if rejects name r.1 self then k.execV t th (-1)
  else
    let p := k.nextPtr
    let b := { PCB.new r.1.toNat t with parentID := th.processID, multex := ((Semaphore.new 1).p t).1 }
    ({ k with pcb := update k.pcb r.1.toNat (some p), nextPtr := p + 1 }.setPCB p b).setThread t
      { th with pc := .execFork r.1.toNat p }

/-- `PCB::Exec` from `new Thread` to the end of `Fork`. -/
def execFork (k : Kernel) (t : Tid) (th : Thread) (index : Nat) (p : Ptr) : Except Stop Kernel := do
  let b ← k.deref p
  let c := k.nextTid
  let child : Thread := { processID := index, pc := .start, blocked := false, space := none, r2 := 0 }
  let k := { k with nextTid := c + 1 }.setPCB p { b with thread := some c, parentID := th.processID }
  return (k.setThread c child).setThread t { th with pc := .execUnlock index p }

/-- `JoinUpdate` up to the `multex->P()` of `IncNumWait`. -/
def joinUpdate (k : Kernel) (t : Tid) (th : Thread) (id : Int) : Except Stop Kernel :=
  if id < 0 then .ok (k.setThread t (ret th (-1)))
  else do
    let (_, b) ← k.slot id
    if (th.processID : Int) ≠ b.parentID then return k.setThread t (ret th (-1))
    let (p, _) ← k.slot b.parentID
    k.semP t th p .multex (.joinP id.toNat p) (.joinInc id.toNat p)

/-- `JoinWait`, with `pcb[id]` read. -/
def joinCall (k : Kernel) (t : Tid) (th : Thread) (id : Nat) : Except Stop Kernel := do
  let (q, _) ← k.slot id
  k.semP t th q .joinsem (.joinWait id q) (.joinRead id)

/-- `GetExitCode`, `ExitRelease` and the return. -/
def joinRead (k : Kernel) (t : Tid) (th : Thread) (id : Nat) : Except Stop Kernel := do
  let (q, b) ← k.slot id
  k.semV t (ret th b.exitcode) q .exitsem fun b => b

/-- `ExitUpdate` up to the `multex->P()` of `DecNumWait`. -/
def exitUpdate (k : Kernel) (t : Tid) (th : Thread) (ec : Word) : Except Stop Kernel :=
  if th.processID = 0 then do
    let k ← k.freeSpace th
    return { k with halted := true }
  else
    match k.bm.test th.processID with
    | none => .error .assertion
    | some false => k.finish t th
    | some true => do
      let (q, b) ← k.slot th.processID
      let k := k.setPCB q { b with exitcode := ec }
      let (p, _) ← k.slot b.parentID
      k.semP t th p .multex (.exitP p) (.exitDec p)

/-- `JoinRelease`, with `pcb[id]` read. -/
def exitRelease (k : Kernel) (t : Tid) (th : Thread) : Except Stop Kernel := do
  let (q, _) ← k.slot th.processID
  k.semV t { th with pc := .exitCall } q .joinsem fun b => b

/-- `ExitWait`, with `pcb[id]` read. -/
def exitCall (k : Kernel) (t : Tid) (th : Thread) : Except Stop Kernel := do
  let (q, _) ← k.slot th.processID
  k.semP t th q .exitsem (.exitWait q) .exitRemove

/-- `Remove`, with `~PCB`, and what `ExitFunction` does if it returns. -/
def exitRemove (k : Kernel) (t : Tid) (th : Thread) : Except Stop Kernel :=
  match k.bm.clear th.processID with
  | none => .error .assertion
  | some bm =>
    let k := { k with bm }
    match k.pcb th.processID with
    | none => k.finish t th
    | some q => do
      let b ← k.deref q
      let k := { k with heap := update k.heap q none }
      -- `Finish` asserts that the PCB's thread is the one that runs
      if b.thread = none ∨ b.thread = some t then k.finish t th else .error .assertion

/-- The main and the forked threads' first turn: `new AddrSpace`, then user mode. -/
def startProcess (k : Kernel) (t : Tid) (th : Thread) (b : Built) : Except Stop Kernel :=
  match b.ending with
  | .assertFails => .error .assertion
  | .returned | .closedTwice =>
    if ∀ s ∈ b.stores, 0 ≤ s.1 ∧ s.1 < memorySize then
      .ok ({ k with
        gPhysPageBitMap := b.bitmap, spaces := update k.spaces k.nextSpace (some b.space),
        nextSpace := k.nextSpace + 1 }.setThread t { th with pc := .user, space := some k.nextSpace })
    -- it has written over what stands behind `mainMemory`
    else .error .undefined

/-- What thread `t` does inside the kernel up to the next switch point. -/
def cont (k : Kernel) (t : Tid) (th : Thread) : Except Stop Kernel :=
  match th.pc with
  | .start | .user => .ok k
  | .execP name self => .ok (k.execP t th name self)
  | .execSlot name self => .ok (k.execSlot t th name self)
  | .execFork index p => k.execFork t th index p
  | .execUnlock index p => k.semV t { th with pc := .execV index } p .multex fun b => b
  | .execV index => .ok (k.execV t th (BitVec.ofNat 32 index))
  | .joinP id p => k.semP t th p .multex (.joinP id p) (.joinInc id p)
  | .joinInc id p =>
    k.semV t { th with pc := .joinCall id } p .multex fun b => { b with numwait := b.numwait + 1 }
  | .joinCall id => k.joinCall t th id
  | .joinWait id q => k.semP t th q .joinsem (.joinWait id q) (.joinRead id)
  | .joinRead id => k.joinRead t th id
  | .exitP p => k.semP t th p .multex (.exitP p) (.exitDec p)
  | .exitDec p => k.semV t { th with pc := .exitRelease } p .multex fun b => { b with numwait := b.numwait - 1 }
  | .exitRelease => k.exitRelease t th
  | .exitCall => k.exitCall t th
  | .exitWait q => k.semP t th q .exitsem (.exitWait q) .exitRemove
  | .exitRemove => k.exitRemove t th

/-- `ExitFunction`. -/
def exitFunction (k : Kernel) (t : Tid) (th : Thread) (status : Word) : Except Stop Kernel :=
  if status ≠ 0 then .ok k else k.exitUpdate t th status

variable (bigEndian : Bool)

/-- What thread `t`, which has the CPU, does on an event of its own. -/
def act (k : Kernel) (t : Tid) (th : Thread) : Event → Except Stop Kernel
  | .start _ c executable junk stack =>
    if th.pc = .start then
      k.startProcess t th (AddrSpace.construct bigEndian junk stack k.gPhysPageBitMap c executable)
    else .ok k
  | .exec _ name self => if th.pc = .user then .ok (k.execP t th name self) else .ok k
  | .join _ id => if th.pc = .user then k.joinUpdate t th id else .ok k
  | .exit _ status => if th.pc = .user then k.exitFunction t th status else .ok k
  | .exitUpdate _ ec => if th.pc = .user then k.exitUpdate t th ec else .ok k
  | .halt _ => if th.pc = .user then .ok { k with halted := true } else .ok k
  | .cont _ => k.cont t th

/-- The thread an event belongs to. -/
def Event.tid : Event → Tid
  | .start t .. | .exec t .. | .join t _ | .exit t _ | .exitUpdate t _ | .halt t | .cont t => t

/-- One step; an event of a thread that cannot run is a no-op. -/
def step (k : Kernel) (e : Event) : Except Stop Kernel :=
  if k.halted then .ok k
  else
    match k.threads e.tid with
    | some th => if th.blocked then .ok k else k.act bigEndian e.tid th e
    | none => .ok k

/-- The main thread, and the PCB of process 0, which names no thread. -/
def mainTid : Tid := 0

/-- `PTable(10)` and the main thread, before `StartProcess`. -/
def initial (garbage garbage' : Nat → Word) : Kernel :=
  { bm := (BitMap.new maxProcess garbage).markBit 0
    bmsem := .new 1
    pcb := update (fun _ => none) 0 (some 0)
    heap := update (fun _ => none) 0 (some (PCB.new 0 mainTid))
    nextPtr := 1
    threads := update (fun _ => none) mainTid
      (some { processID := 0, pc := .start, blocked := false, space := none, r2 := 0 })
    nextTid := 1
    gPhysPageBitMap := Nachos.gPhysPageBitMap garbage'
    spaces := fun _ => none
    nextSpace := 0
    halted := false }

def Init (k : Kernel) : Prop := ∃ garbage garbage', k = initial garbage garbage'

end Kernel

end Nachos

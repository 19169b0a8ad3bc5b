/-
  Nachos.Threads.Levels — the interrupt level through the kernel's routines:
  `threads/thread.cc` and `threads/synch.cc` over `Nachos.Machine.Interrupt`.

  `Nachos.Threads.Dispatch` takes each of `Fork`, `Yield`, `P`, `V` and `Finish` as one event.
  Here they are run statement by statement, with the level they save and restore, since a
  `SetLevel` that turns interrupts on ticks, the tick runs handlers, and a handler may make
  the tick yield: another thread then runs inside the `SetLevel` of the first. A thread is
  the stack of what it has still to do when it is next on the CPU (`Frame`), the innermost
  first; with nothing on it the thread is in its own code. `returning` is put on the stack by
  each call of `Fork`, `Yield`, `P` and `V`, below what the call does, with the level at the
  call.

  `switches` is history: the level at each SWITCH.
-/

import Nachos.Machine.InterruptQueue
import Nachos.Threads.Dispatch

namespace Nachos.Levels

open Interrupts (Fault Action Devices)

inductive Routine where
  | fork
  | yield
  | p
  | v
  deriving DecidableEq, Repr

/-- What a thread does next. -/
inductive Frame where
  /-- Return from a call made with interrupts at `level`. -/
  | returning (r : Routine) (level : IntStatus)
  /-- Call `SetLevel(now)`. -/
  | setLevel (now : IntStatus)
  /-- Call `Yield`. -/
  | yield
  /-- Go on after the `Yield` of `OneTick`. -/
  | inOneTick (old : MachineStatus)
  /-- Go on after the SWITCH of `Yield`. -/
  | inYield (oldLevel : IntStatus)
  /-- Go on after the SWITCH of the `Sleep` of `P`. -/
  | inP (s : SemId) (oldLevel : IntStatus)
  | threadRoot
  | inFinish
  deriving DecidableEq, Repr

structure Thread where
  status : ThreadStatus
  frames : List Frame
  deriving DecidableEq, Repr

structure Threads where
  currentThread : Tid
  /-- The current thread is in the loop of `Sleep`, with nobody to run. -/
  idling : Bool
  readyList : List Tid
  /-- `none` for a thread that has been deleted, or not yet created. -/
  threads : Tid → Option Thread
  created : Nat
  threadToBeDestroyed : Option Tid
  sems : SemId → IntSemaphore
  switches : List IntStatus

variable (w : Threads)

namespace Threads

def modify (t : Tid) (f : Thread → Thread) : Option Threads :=
  (w.threads t).map fun th => { w with threads := Function.update w.threads t (some (f th)) }

def readyToRun (thread : Tid) : Option Threads :=
  (w.modify thread ({ · with status := .ready })).map fun w => { w with readyList := w.readyList ++ [thread] }

/-- `Semaphore::V`, between its two calls of `SetLevel`. -/
def signal (s : SemId) (w : Threads) : Option Threads :=
  let w' := { w with sems := Function.update w.sems s (w.sems s).v.1 }
  match (w.sems s).v.2 with
  | some thread => w'.readyToRun thread
  | none => some w'

end Threads

abbrev Kernel := Interrupts Threads

namespace Kernel

variable (k : Kernel)

/-- The threads change; `none` when one the kernel refers to is not there. -/
def put : Option Threads → Except Fault Kernel
  | some w => .ok { k with kernel := w }
  | none => .error .undefined

/-- What the current thread has still to do. -/
def frames : List Frame := ((k.kernel.threads k.kernel.currentThread).map (·.frames)).getD []

/-- The current thread goes on with `frames`. -/
def goTo (frames : List Frame) : Except Fault Kernel :=
  k.put (k.kernel.modify k.kernel.currentThread ({ · with frames }))

/-- `Scheduler::Run`, up to the SWITCH. -/
def run (nextThread : Tid) : Except Fault Kernel :=
  k.put ({ k.kernel with
    currentThread := nextThread
    idling := false
    switches := k.kernel.switches ++ [k.level] }.modify nextThread ({ · with status := .running }))

/-- `Scheduler::Run`, after the SWITCH. -/
def afterSwitch : Except Fault Kernel :=
  match k.kernel.threadToBeDestroyed with
  | none => .ok k
  | some t =>
    if t = k.kernel.currentThread then .error (.failed .destroy)
    else .ok { k with kernel := { k.kernel with
      threads := Function.update k.kernel.threads t none, threadToBeDestroyed := none } }

/-- The loop of `Sleep`, once. -/
def sleepLoop : Except Fault Kernel :=
  match k.kernel.readyList with
  | next :: rest => run { k with kernel := { k.kernel with readyList := rest } } next
  | [] => .ok { k with kernel := { k.kernel with idling := true } }

/-- `Thread::Sleep`; the thread will go on with `frames`. -/
def sleep (frames : List Frame) : Except Fault Kernel :=
  if k.level = .intOff then do
    let k ← k.put (k.kernel.modify k.kernel.currentThread fun _ => ⟨.blocked, frames⟩)
    k.sleepLoop
  else .error (.failed .sleep)

/-- The loop of `P`, from a test on. -/
def pLoop (s : SemId) (oldLevel : IntStatus) (rest : List Frame) : Except Fault Kernel :=
  let sem := (k.kernel.sems s).p k.kernel.currentThread
  let k : Kernel := { k with kernel := { k.kernel with sems := Function.update k.kernel.sems s sem.1 } }
  if sem.2 then k.goTo (.setLevel oldLevel :: rest) else k.sleep (.inP s oldLevel :: rest)

section

variable (handle : PendingInterrupt → List (Action SemId)) (k : Kernel)

def devices : Devices SemId Threads := ⟨handle, Threads.signal⟩

/-- After `OneTick`: the yield it asked for is still to be made. -/
def ticked (old : MachineStatus) (r : Bool × Kernel) (rest : List Frame) : Except Fault Kernel :=
  if r.1 then goTo r.2 (.yield :: .returning .yield r.2.level :: .inOneTick old :: rest) else goTo r.2 rest

/-- `Thread::Yield`. -/
def yield (rest : List Frame) : Except Fault Kernel := do
  let r ← k.setLevel (devices handle) .intOff
  match r.2.kernel.readyList with
  | [] => goTo r.2 (.setLevel k.level :: rest)
  | next :: others => do
    let k' ← put r.2 (Threads.readyToRun { r.2.kernel with readyList := others } r.2.kernel.currentThread)
    let k' ← goTo k' (.inYield k.level :: rest)
    run k' next

/-- The current thread does the first thing it has to do. -/
def next : Frame → List Frame → Except Fault Kernel
  | .returning _ _, rest => k.goTo rest
  | .setLevel now, rest => do
    let r ← k.setLevel (devices handle) now
    ticked k.status r rest
  | .yield, rest => k.yield handle rest
  | .inOneTick old, rest => goTo { k with status := old } rest
  | .inYield oldLevel, rest => do
    let k ← k.afterSwitch
    k.goTo (.setLevel oldLevel :: rest)
  | .inP s oldLevel, rest => do
    let k ← k.afterSwitch
    k.pLoop s oldLevel rest
  | .threadRoot, rest => k.goTo (.setLevel .intOn :: rest)
  | .inFinish, _ => .ok k

end

/-- What thread code calls; `instruction` is the `OneTick` of `Machine::Run`, which runs with
    interrupts on. -/
inductive Code where
  | fork
  | yield
  | p (s : SemId)
  | v (s : SemId)
  | finish
  | setLevel (now : IntStatus)
  | instruction
  | setStatus (status : MachineStatus)
  deriving DecidableEq, Repr

inductive Event where
  | code (c : Code)
  | next
  | idle
  | schedule (handler : Nat) (arg : Word) (fromNow : Int) (type : IntType)
  deriving DecidableEq, Repr

section

variable (handle : PendingInterrupt → List (Action SemId)) (k : Kernel)

/-- `new Thread`, and `Thread::Fork` on it. -/
def fork : Option Threads :=
  { w with
    threads := Function.update w.threads w.created (some ⟨.justCreated, [.threadRoot]⟩)
    created := w.created + 1 }.readyToRun w.created

def call : Code → Except Fault Kernel
  | .fork => do
    let r ← k.setLevel (devices handle) .intOff
    let k' ← put r.2 (fork r.2.kernel)
    goTo k' [.setLevel k.level, .returning .fork k.level]
  | .yield => k.goTo [.yield, .returning .yield k.level]
  | .p s => do
    let r ← k.setLevel (devices handle) .intOff
    pLoop r.2 s k.level [.returning .p k.level]
  | .v s => do
    let r ← k.setLevel (devices handle) .intOff
    let k' ← put r.2 (r.2.kernel.signal s)
    goTo k' [.setLevel k.level, .returning .v k.level]
  | .finish => do
    let r ← k.setLevel (devices handle) .intOff
    let w := r.2.kernel
    sleep { r.2 with kernel := { w with threadToBeDestroyed := some w.currentThread } } [.inFinish]
  | .setLevel now => k.goTo [.setLevel now]
  | .instruction =>
    if k.level = .intOn then do
      let r ← k.oneTick (devices handle)
      ticked k.status r []
    else .ok k
  | .setStatus status => if status = .idleMode then .ok k else .ok { k with status := status }

def step (e : Event) : Except Fault Kernel :=
  if k.halted then .ok k
  else
    match e with
    | .schedule handler arg fromNow type => k.schedule handler arg fromNow type
    | .idle =>
      if k.kernel.idling then do
        let k ← Interrupts.idle (devices handle) k
        if k.halted then .ok k else sleepLoop k
      else .ok k
    | .next =>
      if k.kernel.idling then .ok k
      else
        match k.frames with
        | [] => .ok k
        | f :: rest => k.next handle f rest
    | .code c => if k.kernel.idling || !k.frames.isEmpty then .ok k else k.call handle c

end

/-- As `Initialize` leaves it but for its last call, `interrupt->Enable()`; the semaphores have
    any values. -/
def Booted : Prop := ∃ value : SemId → Word, k = .new {
  currentThread := 0
  idling := false
  readyList := []
  threads := fun t => if t = 0 then some ⟨.running, [.setLevel .intOn]⟩ else none
  created := 1
  threadToBeDestroyed := none
  sems := fun s => .new (value s)
  switches := [] }

end Kernel

end Nachos.Levels

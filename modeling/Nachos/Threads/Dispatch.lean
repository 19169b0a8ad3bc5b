/-
  Nachos.Threads.Dispatch — kernel threads: `threads/thread.cc`, `threads/scheduler.cc` and
  the semaphores of `threads/synch.cc`, with the interrupts of `machine/interrupt.cc`.

  A thread runs its own code, or is inside a kernel routine it will go on with when it is
  next switched to (`Point`). Nothing runs between the start of `P`, `V`, `Yield`, `Fork` or
  `Finish` and the moment the routine restores the interrupt level or switches, so each is
  one event. A tick lets any device handlers call `V` and may make the current thread
  yield; it can come whenever interrupts are on. `Sleep` looks for a ready thread; when
  there is none the CPU idles with the sleeper still the current thread, and the handlers
  `Interrupt::Idle` fires are the only events. An event that cannot happen in a state
  leaves it alone.

  `finished`, `initial`, `ps` and `vs` are history: who has called `Finish`, and for each
  semaphore its first value and how many calls of `P` and `V` have completed.
-/

import Mathlib.Logic.Function.Basic
import Nachos.Lib.Runs
import Nachos.Machine.Interrupt
import Nachos.Threads.Synch

namespace Nachos

open Function (update)

abbrev SemId := Nat

inductive ThreadStatus where
  | justCreated
  | running
  | ready
  | blocked
  deriving DecidableEq, Repr

/-- Where a thread goes on: in its own code, in `ThreadRoot` before its first
    instruction, after the `Run` of `Yield`, after the `Sleep` of `P`, or never, in `Finish`.
    `oldLevel` is the routine's local variable. -/
inductive Dispatch.Point where
  | code
  | threadRoot
  | inYield (oldLevel : IntStatus)
  | inP (s : SemId) (oldLevel : IntStatus)
  | inFinish
  deriving DecidableEq, Repr

structure Dispatch.Thread where
  status : ThreadStatus
  point : Dispatch.Point
  deriving DecidableEq, Repr

structure Dispatch where
  level : IntStatus
  currentThread : Tid
  readyList : List Tid
  /-- `none` for a thread that has been deleted, or not yet created. -/
  threads : Tid → Option Dispatch.Thread
  created : Nat
  threadToBeDestroyed : Option Tid
  sems : SemId → IntSemaphore
  numSems : Nat
  finished : List Tid
  initial : SemId → Word
  ps : SemId → Nat
  vs : SemId → Nat

namespace Dispatch

inductive Event where
  | setLevel (now : IntStatus)
  | newSemaphore (initialValue : Word)
  | fork
  | yield
  | p (s : SemId)
  | v (s : SemId)
  | finish
  | tick (handlers : List SemId) (yieldOnReturn : Bool)
  | idle (handlers : List SemId)
  | resume
  deriving DecidableEq, Repr

/-! ## The scheduler -/

variable (k : Dispatch)

/-- Change thread `t`; a deleted one is not there to change. -/
def modifyThread (t : Tid) (f : Thread → Thread) : Except Stop Dispatch :=
  match k.threads t with
  | some th => .ok { k with threads := update k.threads t (some (f th)) }
  | none => .error .undefined

def setStatus (t : Tid) (status : ThreadStatus) : Except Stop Dispatch :=
  k.modifyThread t ({ · with status })

/-- Where the current thread will go on when it has switched to another. -/
def setPoint (point : Point) : Except Stop Dispatch :=
  k.modifyThread k.currentThread ({ · with point })

/-- `Scheduler::ReadyToRun`. -/
def readyToRun (thread : Tid) : Except Stop Dispatch := do
  let k ← k.setStatus thread .ready
  return { k with readyList := k.readyList ++ [thread] }

/-- `Scheduler::FindNextToRun`. -/
def findNextToRun : Option Tid × Dispatch :=
  (k.readyList.head?, { k with readyList := k.readyList.tail })

/-- `Scheduler::Run` up to SWITCH; what follows it is done by `nextThread`, in `resume`. -/
def run (nextThread : Tid) : Except Stop Dispatch :=
  { k with currentThread := nextThread }.setStatus nextThread .running

/-- What `Scheduler::Run` does once it is switched back to: delete the carcass. -/
def afterSwitch : Except Stop Dispatch :=
  match k.threadToBeDestroyed with
  | none => .ok k
  | some t =>
    -- the ASSERT of the destructor
    if t = k.currentThread then .error .assertion
    else .ok { k with threads := update k.threads t none, threadToBeDestroyed := none }

/-! ## Threads and semaphores -/

/-- The loop of `Thread::Sleep`, once: run the next ready thread, or go on idling. -/
def sleepLoop : Except Stop Dispatch :=
  match k.findNextToRun with
  | (some next, k) => k.run next
  | (none, k) => .ok k

/-- `Thread::Sleep`. -/
def sleep : Except Stop Dispatch :=
  if k.level = .intOff then do
    let k ← k.setStatus k.currentThread .blocked
    k.sleepLoop
  else .error .assertion

/-- `Thread::Yield`. -/
def yield : Except Stop Dispatch :=
  match k.findNextToRun with
  | (some next, k') => do
    let k ← k'.readyToRun k.currentThread
    let k ← k.setPoint (.inYield k.level)
    { k with level := .intOff }.run next
  | (none, _) => .ok k

/-- `new Thread`, and `Thread::Fork` on it. -/
def fork : Except Stop Dispatch :=
  { k with
    threads := update k.threads k.created (some ⟨.justCreated, .threadRoot⟩)
    created := k.created + 1 }.readyToRun k.created

/-- `Thread::Finish`. -/
def finish : Except Stop Dispatch := do
  let k ← k.setPoint .inFinish
  { k with
    level := .intOff
    threadToBeDestroyed := some k.currentThread
    finished := k.currentThread :: k.finished }.sleep

/-- The loop of `Semaphore::P`, from a test on: interrupts are off. There is no semaphore
    `s` before it has been created. -/
def pLoop (s : SemId) (oldLevel : IntStatus) : Except Stop Dispatch :=
  if s < k.numSems then
    match (k.sems s).p k.currentThread with
    | (sem, true) => do
      let k ← k.setPoint .code
      return { k with
        sems := update k.sems s sem
        level := oldLevel
        ps := update k.ps s (k.ps s + 1) }
    | (sem, false) => do
      let k ← k.setPoint (.inP s oldLevel)
      { k with sems := update k.sems s sem }.sleep
  else .error .undefined

/-- `Semaphore::P`. -/
def p (s : SemId) : Except Stop Dispatch := { k with level := .intOff }.pLoop s k.level

/-- `Semaphore::V`. -/
def v (s : SemId) : Except Stop Dispatch :=
  if s < k.numSems then
    let k' := { k with
      sems := update k.sems s (k.sems s).v.1
      vs := update k.vs s (k.vs s + 1) }
    match (k.sems s).v.2 with
    | some thread => k'.readyToRun thread
    | none => .ok k'
  else .error .undefined

/-- Interrupt handlers that call `V`, one after another. -/
def handlers (k : Dispatch) : List SemId → Except Stop Dispatch
  | [] => .ok k
  | s :: rest => do
    let k ← k.v s
    k.handlers rest

/-- `Interrupt::OneTick`, with interrupts on. -/
def oneTick (due : List SemId) (yieldOnReturn : Bool) : Except Stop Dispatch := do
  let k ← { k with level := .intOff }.handlers due
  let k := { k with level := .intOn }
  if yieldOnReturn then k.yield else .ok k

/-- The current thread goes on after a switch. -/
def resume : Point → Except Stop Dispatch
  | .threadRoot => { k with level := .intOn }.setPoint .code
  | .inYield oldLevel => do
    let k ← k.afterSwitch
    { k with level := oldLevel }.setPoint .code
  | .inP s oldLevel => do
    let k ← k.afterSwitch
    k.pLoop s oldLevel
  | .code | .inFinish => .ok k

/-! ## Runs -/

def current : Option Thread := k.threads k.currentThread

/-- The current thread is executing its own code. -/
def inCode : Bool := k.current == some ⟨.running, .code⟩

/-- The current thread sleeps and nobody was ready: the loop of `Sleep` is at `Idle`. -/
def idling : Bool := k.current.any (·.status != .running)

/-- What thread code can do. -/
def call : Event → Except Stop Dispatch
  | .setLevel now => .ok { k with level := now }
  | .newSemaphore initialValue =>
    .ok { k with
      sems := update k.sems k.numSems (.new initialValue)
      numSems := k.numSems + 1
      initial := update k.initial k.numSems initialValue
      ps := update k.ps k.numSems 0
      vs := update k.vs k.numSems 0 }
  | .fork => k.fork
  | .yield => k.yield
  | .p s => k.p s
  | .v s => k.v s
  | .finish => k.finish
  | .tick due yieldOnReturn => if k.level = .intOn then k.oneTick due yieldOnReturn else .ok k
  | .idle _ | .resume => .ok k

def step : Event → Except Stop Dispatch
  | .idle due => if k.idling then do let k ← k.handlers due; k.sleepLoop else .ok k
  | .resume =>
    match k.current with
    | some ⟨.running, point⟩ => k.resume point
    | _ => .ok k
  | e => if k.inCode then k.call e else .ok k

/-- As `Initialize` leaves it: the main thread runs, with interrupts on. -/
def start : Dispatch where
  level := .intOn
  currentThread := 0
  readyList := []
  threads := fun t => if t = 0 then some ⟨.running, .code⟩ else none
  created := 1
  threadToBeDestroyed := none
  sems := fun _ => .new 0
  numSems := 0
  finished := []
  initial := fun _ => 0
  ps := fun _ => 0
  vs := fun _ => 0

end Dispatch

end Nachos

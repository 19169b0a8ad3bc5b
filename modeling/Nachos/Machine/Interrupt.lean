/-
  Nachos.Machine.Interrupt — `machine/interrupt.cc`: the interrupt level, the interrupts that
  are to occur and the simulated time.

  A handler is what it does to the kernel: it calls `Schedule`, `YieldOnReturn` and
  `Semaphore::V` (`Action`). Each pending interrupt is its own object and is given its own
  list of calls (`Devices.handle`), so handlers may behave as they like from one interrupt to
  the next. The rest of the kernel is `W`, which `V` changes; the load `CheckIfDue` completes
  before a handler runs is part of it.

  `OneTick` calls `Thread::Yield` last, and other threads run before that call returns.
  `oneTick` and `setLevel` end there, and say so: the caller goes on with the yield. `Halt`
  does not return (`halted`). Times are `int`; a sum that does not fit has no meaning. The
  other counters are never above `totalTicks`.

  `scheduled` and `invoked` are history: the interrupts that have been scheduled, and those
  whose handlers have been called, with the time of the call.
-/

import Nachos.Machine.Machine
import Nachos.Threads.SortedList

namespace Nachos

inductive IntStatus where
  | intOff
  | intOn
  deriving DecidableEq, Repr

inductive IntType where
  | timerInt
  | diskInt
  | consoleWriteInt
  | consoleReadInt
  | networkSendInt
  | networkRecvInt
  deriving DecidableEq, Repr

inductive MachineStatus where
  | idleMode
  | systemMode
  | userMode
  deriving DecidableEq, Repr

structure PendingInterrupt where
  /-- Which object it is: how many interrupts were scheduled before it. -/
  id : Nat
  handler : Nat
  arg : Word
  when : Int
  type : IntType
  deriving DecidableEq, Repr

structure Interrupts (W : Type) where
  level : IntStatus
  pending : List (ListElement PendingInterrupt)
  inHandler : Bool
  yieldOnReturn : Bool
  status : MachineStatus
  totalTicks : Int
  idleTicks : Int
  systemTicks : Int
  userTicks : Int
  halted : Bool
  kernel : W
  scheduled : List PendingInterrupt
  invoked : List (PendingInterrupt × Int)

namespace Interrupts

abbrev systemTick : Int := 10
abbrev userTick : Int := 1

/-- Where an ASSERT stands. -/
inductive Assertion where
  | setLevel
  | checkIfDue
  | yieldOnReturn
  | schedule
  | sleep
  /-- `Thread::~Thread`: a thread does not delete itself. -/
  | destroy
  deriving DecidableEq, Repr

inductive Fault where
  | failed (a : Assertion)
  | undefined
  | endless
  deriving DecidableEq, Repr

/-- What a handler calls; `S` names the semaphores. -/
inductive Action (S : Type) where
  | schedule (handler : Nat) (arg : Word) (fromNow : Int) (type : IntType)
  | yieldOnReturn
  | v (s : S)
  deriving DecidableEq, Repr

structure Devices (S W : Type) where
  handle : PendingInterrupt → List (Action S)
  /-- The body of `V`, between its two calls of `SetLevel`. -/
  signal : S → W → Option W

variable {S W : Type}

/-- `Interrupt::Interrupt`, with `Statistics::Statistics`. -/
def new (w : W) : Interrupts W where
  level := .intOff
  pending := []
  inHandler := false
  yieldOnReturn := false
  status := .systemMode
  totalTicks := 0
  idleTicks := 0
  systemTicks := 0
  userTicks := 0
  halted := false
  kernel := w
  scheduled := []
  invoked := []

/-- The time `ticks` after `now`. -/
def later (now ticks : Int) : Except Fault Int :=
  if -2147483648 ≤ now + ticks ∧ now + ticks ≤ 2147483647 then .ok (now + ticks) else .error .undefined

variable (k : Interrupts W)

def changeLevel (now : IntStatus) : Interrupts W := { k with level := now }

def schedule (handler : Nat) (arg : Word) (fromNow : Int) (type : IntType) :
    Except Fault (Interrupts W) := do
  let when ← later k.totalTicks fromNow
  let toOccur : PendingInterrupt := ⟨k.scheduled.length, handler, arg, when, type⟩
  if 0 < fromNow then
    .ok { k with pending := sortedInsert toOccur when k.pending, scheduled := k.scheduled ++ [toOccur] }
  else .error (.failed .schedule)

/-- `SetLevel`, up to the call of `OneTick`. -/
def enterLevel (now : IntStatus) : Except Fault (Interrupts W) :=
  if now = .intOff ∨ k.inHandler = false then .ok (k.changeLevel now) else .error (.failed .setLevel)

section

variable (dev : Devices S W) (k : Interrupts W)

/-- `Semaphore::V` in a handler, where `SetLevel` never gets as far as `OneTick`: to turn
    interrupts on there fails its ASSERT. -/
def handlerV (s : S) : Except Fault (Interrupts W) := do
  let oldLevel := k.level
  let k ← k.enterLevel .intOff
  match dev.signal s k.kernel with
  | some w => enterLevel { k with kernel := w } oldLevel
  | none => .error .undefined

def act : Action S → Except Fault (Interrupts W)
  | .schedule handler arg fromNow type => k.schedule handler arg fromNow type
  | .yieldOnReturn => if k.inHandler then .ok { k with yieldOnReturn := true } else .error (.failed .yieldOnReturn)
  | .v s => k.handlerV dev s

/-- `(*(toOccur->handler))(toOccur->arg)`. -/
def runHandler (k : Interrupts W) : List (Action S) → Except Fault (Interrupts W)
  | [] => .ok k
  | a :: rest => do
    let k ← k.act dev a
    k.runHandler rest

/-- The second half of `CheckIfDue`: `first` is out of the queue and its time has come. -/
def occur (first : ListElement PendingInterrupt) : Except Fault (Bool × Interrupts W) :=
  if k.status = .idleMode ∧ first.item.type = .timerInt ∧ k.pending = [] then
    .ok (false, { k with pending := sortedInsert first.item first.key k.pending })
  else do
    let k' ← { k with
      inHandler := true
      status := .systemMode
      invoked := k.invoked ++ [(first.item, k.totalTicks)] }.runHandler dev (dev.handle first.item)
    return (true, { k' with status := k.status, inHandler := false })

def checkIfDue (advanceClock : Bool) : Except Fault (Bool × Interrupts W) :=
  if k.level = .intOff then
    match sortedRemove k.pending with
    | none => .ok (false, k)
    | some (first, rest) =>
      if advanceClock ∧ k.totalTicks < first.key then
        { k with
          pending := rest
          idleTicks := k.idleTicks + (first.key - k.totalTicks)
          totalTicks := first.key }.occur dev first
      else if k.totalTicks < first.key then
        .ok (false, { k with pending := sortedInsert first.item first.key rest })
      else { k with pending := rest }.occur dev first
  else .error (.failed .checkIfDue)

/-- `while (CheckIfDue(FALSE));`, for at most `fuel` calls. -/
def drain : Nat → Interrupts W → Except Fault (Interrupts W)
  | 0, _ => .error .endless
  | fuel + 1, k => do
    let r ← k.checkIfDue dev false
    if r.1 then drain fuel r.2 else return r.2

/-- One more call than there are interrupts: the last one finds none due (`drain_ends`). -/
def drainAll : Except Fault (Interrupts W) := drain dev (k.pending.length + 1) k

/-- How `OneTick` advances the time. -/
def tick : Except Fault (Interrupts W) :=
  if k.status = .systemMode then do
    let now ← later k.totalTicks systemTick
    return { k with totalTicks := now, systemTicks := k.systemTicks + systemTick }
  else do
    let now ← later k.totalTicks userTick
    return { k with totalTicks := now, userTicks := k.userTicks + userTick }

/-- `OneTick` up to its call of `Yield`, and whether it makes the call. -/
def oneTick : Except Fault (Bool × Interrupts W) := do
  let k ← k.tick
  let k ← (k.changeLevel .intOff).drainAll dev
  let k := k.changeLevel .intOn
  if k.yieldOnReturn then return (true, { k with yieldOnReturn := false, status := .systemMode })
  else return (false, k)

/-- `SetLevel`, and whether the `OneTick` in it goes on to yield. -/
def setLevel (now : IntStatus) : Except Fault (Bool × Interrupts W) := do
  let k' ← k.enterLevel now
  if now = .intOn ∧ k.level = .intOff then k'.oneTick dev else return (false, k')

def idle : Except Fault (Interrupts W) := do
  let r ← { k with status := .idleMode }.checkIfDue dev true
  if r.1 then do
    let k ← r.2.drainAll dev
    return { k with yieldOnReturn := false, status := .systemMode }
  else return { r.2 with halted := true }

end

end Interrupts

end Nachos

/-
  Nachos.Userprog.Exception — `userprog/exception.cc`: the system calls and
  `ExceptionHandler`.

  A handler runs in the kernel on behalf of the current process, over the machine and the
  processes of `Threads.Scheduler` and the descriptor table of `Filesys.Stub`. The console,
  the process table and the semaphore table are `Services` of an arbitrary kind of world: a
  call of one answers a value, or never comes back, and while it waits the kernel may tick,
  switch to other threads, and let these do whatever they like, except to the `Thread`
  object of the process that waits. A memory fault inside a handler enters
  `ExceptionHandler`, which halts.
-/

import Nachos.Filesys.Stub
import Nachos.Lib.Effects
import Nachos.Threads.Scheduler
import Nachos.Userprog.UserMemory

namespace Nachos

open Stub (FileSystem FileType Operation)
open BitVec (ofNat)

/-! ## The kernel a handler runs in -/

/-- What happens while a process waits inside the kernel. -/
inductive Interference where
  | tick (due : List Interrupt) (next : Option Tid)
  | switch (next : Tid)
  | others (f : Sys → Sys)

/-- The other threads reach neither process `p`'s `Thread` object nor, except through
    `Scheduler::Run`, the state of running `p`. -/
def Sys.interfere (p : Tid) (s : Sys) : Interference → Sys
  | .tick due next => s.oneTick due next
  | .switch next => s.run next
  | .others f =>
    if s.currentThread = p ∨ (f s).currentThread = p then s
    else { f s with threads := Function.update (f s).threads p (s.threads p) }

/-- The answer of a service, what happened meanwhile, and what the rest of the kernel is
    like then. -/
structure Reply (W α : Type) where
  value : α
  meanwhile : List Interference
  files : FileSystem
  world : W

/-- What the handlers call outside exception.cc; `none` when the caller never runs again. -/
structure Services (W : Type) where
  /-- `gSynchConsole->Read`: the bytes it leaves in the buffer, and its value. -/
  consoleRead : (numBytes : Word) → W → Option (Reply W (List Byte × Word))
  /-- `gSynchConsole->Write`. -/
  consoleWrite : List Byte → W → Option (Reply W Unit)
  /-- `pTab->ExecUpdate`. -/
  execUpdate : (name : List Byte) → W → Option (Reply W Word)
  /-- `pTab->JoinUpdate`. -/
  joinUpdate : (id : Word) → W → Option (Reply W Word)
  /-- `pTab->ExitUpdate`. -/
  exitUpdate : (ec : Word) → W → Option (Reply W Word)
  /-- `semTab->Create`. -/
  semCreate : (name : List Byte) → (init : Word) → W → Option (Reply W Word)
  /-- `semTab->Wait`. -/
  semWait : (name : List Byte) → W → Option (Reply W Word)
  /-- `semTab->Signal`. -/
  semSignal : (name : List Byte) → W → Option (Reply W Word)
  /-- What `new char[..]` finds in memory. -/
  garbage : W → Nat → Byte

structure KernelState (W : Type) where
  sys : Sys
  files : FileSystem
  world : W

/-- Why a handler does not return to its process. -/
inductive Gone where
  | halted
  | finished
  | asleep
  | stopped (why : Stop)
  deriving DecidableEq, Repr

abbrev Handler (W α : Type) := StateT (KernelState W) (Except Gone) α

namespace Handler

variable {W α : Type}

def readRegister (r : RegNum) : Handler W Word := fun k => .ok (k.sys.registers r, k)

def writeRegister (r : RegNum) (value : Word) : Handler W Unit := fun k =>
  .ok ((), { k with sys := { k.sys with registers := Function.update k.sys.registers r value } })

/-- The value of the system call. -/
def answer (value : Word) : Handler W Unit := writeRegister 2 value

/-- `interrupt->Halt`. -/
def halt : Handler W α := fun _ => .error .halted

/-- The exceptions on which `ExceptionHandler` halts. -/
def fatal : ExceptionType → Bool
  | .noException | .syscallException => false
  | _ => true

/-- Accesses to the process's memory. -/
def onMachine (access : Machine → Outcome α) : Handler W α := fun k =>
  match access k.sys.machine with
  | .done a m => .ok (a, { k with sys := k.sys.putMachine m })
  | .raised which _ => if fatal which then .error .halted else .error (.stopped .undefined)
  | .stop why => .error (.stopped why)

/-- A call of the file system. -/
def onFiles (call : FileSystem → Except Stop (α × FileSystem)) : Handler W α := fun k =>
  match call k.files with
  | .ok (a, files) => .ok (a, { k with files })
  | .error why => .error (.stopped why)

/-- A call of a service: the process is back when it is the current one again. -/
def await (call : W → Option (Reply W α)) : Handler W α := fun k =>
  match call k.world with
  | none => .error .asleep
  | some reply =>
    let sys := reply.meanwhile.foldl (Sys.interfere k.sys.currentThread) k.sys
    if sys.currentThread = k.sys.currentThread then
      .ok (reply.value, ⟨sys, { reply.files with log := k.files.log }, reply.world⟩)
    else .error .asleep

section

variable {a : α} {k k' : KernelState W} {access : Machine → Outcome α}

theorem onMachine_ok (h : onMachine access k = .ok (a, k')) :
    ∃ m, access k.sys.machine = .done a m ∧ k' = { k with sys := k.sys.putMachine m } := by
  simp only [onMachine] at h
  split at h
  · rename_i m ha; cases h; exact ⟨m, ha, rfl⟩
  · split at h <;> cases h
  · cases h

variable {call : FileSystem → Except Stop (α × FileSystem)}

theorem onFiles_ok (h : onFiles call k = .ok (a, k')) :
    ∃ files, call k.files = .ok (a, files) ∧ k' = { k with files } := by
  simp only [onFiles] at h
  split at h
  · rename_i files hc; cases h; exact ⟨files, hc, rfl⟩
  · cases h

theorem onMachine_of {m : Machine} (h : access k.sys.machine = .done a m) :
    onMachine access k = .ok (a, { k with sys := k.sys.putMachine m }) := by
  simp only [onMachine, h]

theorem onFiles_of {files : FileSystem}
    (h : call k.files = .ok (a, files)) : onFiles call k = .ok (a, { k with files }) := by
  simp only [onFiles, h]

theorem bind_readRegister {β : Type} (r : RegNum) (f : Word → Handler W β) :
    (readRegister r >>= f) k = f (k.sys.registers r) k := rfl

/-- A question about the file system. -/
theorem bind_asks {β : Type} (ask : FileSystem → α) (f : α → Handler W β) :
    (onFiles (fun fs => .ok (ask fs, fs)) >>= f) k = f (ask k.files) k := rfl

theorem await_log {call : W → Option (Reply W α)} (h : await call k = .ok (a, k')) : k'.files.log = k.files.log := by
  simp only [await] at h
  split at h
  · cases h
  · split at h
    · cases h; rfl
    · cases h

end

/-- `gSynchConsole->Read`; like a file's, its transfer is an operation of the call. -/
def readConsole (sv : Services W) (numBytes : Word) : Handler W (List Byte × Word) := do
  let (buffer, size) ← await (sv.consoleRead numBytes)
  if !size.slt 0 then onFiles fun fs => .ok ((), fs.did (.read size))
  return (buffer, size)

/-- `gSynchConsole->Write`. -/
def writeConsole (sv : Services W) (bytes : List Byte) : Handler W Unit := do
  await (sv.consoleWrite bytes)
  onFiles fun fs => .ok ((), fs.did (.output bytes))

end Handler

open Handler

variable {W : Type}

/-- `IncreasePC`. -/
def increasePC : Handler W Unit := do
  let counter ← readRegister pcReg
  writeRegister prevPCReg counter
  let counter ← readRegister nextPCReg
  writeRegister pcReg counter
  writeRegister nextPCReg (counter + 4)

/-! ## Arithmetic and the console -/

/-- `SubFunction`. -/
def subFunction : Handler W Unit := do
  let op1 ← readRegister 4
  let op2 ← readRegister 5
  answer (op1 - op2)

/-- MAX_BUFFER of the console calls. -/
abbrev maxBuffer : Word := 255

/-- `buffer[i]` as an `int`. -/
def charAt (buffer : List Byte) (i : Nat) : Word := (buffer.getD i 0).signExtend 32

/-- The loop of `ReadIntFunction` over the characters from `i` on, `n` of them: `endPos`, or
    `none` at an invalid one. A '.' is below '0', so the branch for it is never taken. -/
def scanDigits (buffer : List Byte) (i endPos : Nat) : Nat → Option Nat
  | 0 => some endPos
  | n + 1 =>
    if (charAt buffer i).slt 48 ∨ BitVec.slt 57 (charAt buffer i) then none
    else scanDigits buffer (i + 1) i n

/-- The value of the characters from `i` on, `n` of them. -/
def accumulate (buffer : List Byte) (i : Nat) (res : Word) : Nat → Word
  | 0 => res
  | n + 1 => accumulate buffer (i + 1) (res * 10 + (charAt buffer i - 48)) n

/-- What `ReadIntFunction` answers for a line of `size` characters. -/
def parseInt (buffer : List Byte) (size : Word) : Word :=
  let negative := charAt buffer 0 = 45
  let startPos := if negative then 1 else 0
  match scanDigits buffer startPos startPos (if size.slt 0 then 0 else size.toNat - startPos) with
  | none => 0
  | some endPos =>
    let res := accumulate buffer startPos 0 (endPos + 1 - startPos)
    if negative then res * -1 else res

/-- The number of times `while(count) count = count/10` goes round; ten times at most. -/
def digitCount : Nat → Word → Nat
  | 0, _ => 0
  | fuel + 1, count => if count = 0 then 0 else digitCount fuel (count.sdiv 10) + 1

/-- The `n` digits `PrintIntFunction` stores, the last one first. -/
def digitBytes : Nat → Word → List Byte
  | 0, _ => []
  | n + 1, tempNum => digitBytes n (tempNum.sdiv 10) ++ [(tempNum.srem 10 + 48).setWidth 8]

variable (bigEndian : Bool) (sv : Services W)

/-- `ReadIntFunction`. -/
def readIntFunction : Handler W Unit := do
  let (buffer, size) ← readConsole sv maxBuffer
  answer (parseInt buffer size)

/-- `PrintIntFunction`. For a negative number the digits start at `buffer[1]`, and `num` is
    still negative after `num*=-1` only when it is the least `int`. -/
def printIntFunction : Handler W Unit := do
  let num ← readRegister 4
  if num = 0 then writeConsole sv [48]
  else
    let garbage ← fun k => .ok (sv.garbage k.world, k)
    let length := digitCount 10 num
    let digits := digitBytes length num
    if num.slt 0 then
      if (num * -1).slt 0 then
        writeConsole sv (45 :: digits)
        increasePC
      else writeConsole sv ((garbage 0 :: digits).take length)
    else writeConsole sv digits

/-- `ReadCharFunction`. -/
def readCharFunction : Handler W Unit := do
  let (buffer, length) ← readConsole sv maxBuffer
  if length = 0 then answer 0
  if BitVec.slt 1 length then answer 0
  if length = 1 then answer (charAt buffer 0)

/-- `PrintCharFunction`. -/
def printCharFunction : Handler W Unit := do
  let result ← readRegister 4
  writeConsole sv [result.setWidth 8]

/-- `ReadStringFunction`. -/
def readStringFunction : Handler W Unit := do
  let virtualAddr ← readRegister 4
  let length ← readRegister 5
  let buffer ← onMachine (·.user2System bigEndian virtualAddr length)
  let (line, _) ← readConsole sv length
  let _ ← onMachine (·.system2User bigEndian virtualAddr length (line ++ buffer.drop line.length))

/-- `PrintStringFunction`. -/
def printStringFunction : Handler W Unit := do
  let virtualAddr ← readRegister 4
  let buffer ← onMachine (·.user2System bigEndian virtualAddr maxBuffer)
  writeConsole sv (buffer.take ((cString buffer).length + 1))

/-! ## Files -/

namespace Stub.FileSystem

variable (fs : FileSystem)

/-- `CreateFileFunction`, once the name is in the kernel. -/
def createCall (name : List Byte) : Except Stop (Word × FileSystem) :=
  if name = [] then .ok (-1, fs)
  else do
    let (created, fs) ← fs.create name
    return (if created then 0 else -1, fs)

/-- `OpenFunction`, once the name is in the kernel; `none` when it leaves r2 alone. -/
def openCall (name : List Byte) (type : Word) : Option Word × FileSystem :=
  match fs.findFreeSlot with
  | some freeSlot =>
    if type = 0 ∨ type = 1 then
      let (opened, fs) := fs.openSlot freeSlot name (if type = 0 then .readWrite else .readOnly)
      (if opened then some (ofNat 32 freeSlot) else none, fs)
    else if type = 2 then (some 0, fs)
    else if type = 3 then (some 1, fs)
    else (none, fs)
  | none => (some (-1), fs)

/-- The checks of `CloseFunction`. -/
def canClose (fileID : Word) : Bool :=
  !fileID.slt 0 && !BitVec.slt 14 fileID && (fs.openfile fileID.toNat).isSome

/-- `CloseFunction`. -/
def closeCall (fileID : Word) : Except Stop (Word × FileSystem) :=
  if fs.canClose fileID then do
    let fs ← fs.closeSlot fileID.toNat
    return (0, fs)
  else .ok (-1, fs)

/-- The checks of `ReadFunction` and `WriteFunction` before they look at the file's type: the
    open file. -/
def fileOf (id : Word) : Option Stub.OpenFile :=
  if id.slt 0 ∨ BitVec.slt 9 id then none else fs.openfile id.toNat

/-- The checks of `SeekFunction`. -/
def canSeek (file_id : Word) : Bool :=
  !(file_id.slt 0 || BitVec.slt 9 file_id || file_id == 0 || file_id == 1 || (fs.openfile file_id.toNat).isNone)

/-- The position Seek is asked for: -1 is the end of the file. -/
def seekTarget (pos file_id : Word) : Except Stop (Word × FileSystem) :=
  if pos = -1 then fs.length file_id.toNat else .ok (pos, fs)

/-- `SeekFunction`; `none` when it leaves r2 alone. -/
def seekCall (pos file_id : Word) : Except Stop (Option Word × FileSystem) :=
  if fs.canSeek file_id then do
    let (pos, fs) ← fs.seekTarget pos file_id
    if pos.slt 0 then return (none, fs)
    let (len, fs) ← fs.length file_id.toNat
    if BitVec.slt len pos then return (none, fs)
    let (_, fs) ← fs.seek file_id.toNat pos
    return (some pos, fs)
  else .ok (none, fs)

end Stub.FileSystem

/-- The value of a call that may leave r2 alone. -/
def answerIf : Option Word → Handler W Unit
  | some value => answer value
  | none => pure ()

/-- A name in the user's memory, with room for `limit` bytes. -/
def userName (virtualAddr limit : Word) : Handler W (List Byte) := do
  let name ← onMachine (·.user2System bigEndian virtualAddr limit)
  return cString name

/-- `CreateFileFunction`. -/
def createFileFunction : Handler W Unit := do
  let virtualAddr ← readRegister 4
  let name ← userName bigEndian virtualAddr (ofNat 32 maxLength + 1)
  let value ← onFiles (·.createCall name)
  answer value

/-- `OpenFunction`. -/
def openFunction : Handler W Unit := do
  let virtualAddr ← readRegister 4
  let name ← userName bigEndian virtualAddr (ofNat 32 maxLength)
  let type ← readRegister 5
  let value ← onFiles fun fs => .ok (fs.openCall name type)
  answerIf value

/-- `CloseFunction`. -/
def closeFunction : Handler W Unit := do
  let fileID ← readRegister 4
  let value ← onFiles (·.closeCall fileID)
  answer value

/-- `ReadFunction`. -/
def readFunction : Handler W Unit := do
  let virtualAddr ← readRegister 4
  let charcount ← readRegister 5
  let id ← readRegister 6
  match ← onFiles fun fs => .ok (fs.fileOf id, fs) with
  | none => answer (-1)
  | some file =>
    if file.type = .stdout then answer (-1)
    else
      let oldPos ← onFiles (·.getCurrentPos id.toNat)
      let buffer ← onMachine (·.user2System bigEndian virtualAddr charcount)
      if file.type = .stdin then
        let (line, size) ← readConsole sv charcount
        let _ ← onMachine (·.system2User bigEndian virtualAddr size (line ++ buffer.drop line.length))
        answer size
      else
        let (numRead, bytes) ← onFiles (·.read id.toNat charcount)
        if BitVec.slt 0 numRead then
          let newPos ← onFiles (·.getCurrentPos id.toNat)
          let _ ← onMachine
            (·.system2User bigEndian virtualAddr (newPos - oldPos) (bytes ++ buffer.drop bytes.length))
          answer (newPos - oldPos)
        else answer (-2)

/-- The loop of `WriteFunction` for the console: how many characters it has written. It
    would run past a buffer without a zero byte. -/
def writeLine : List Byte → Handler W Nat
  | [] => fun _ => .error (.stopped .undefined)
  | b :: rest => do
    if b ≠ 0 ∧ b ≠ 10 then
      writeConsole sv [b]
      let i ← writeLine rest
      return i + 1
    else return 0

/-- `WriteFunction`. -/
def writeFunction : Handler W Unit := do
  let virtualAddr ← readRegister 4
  let charcount ← readRegister 5
  let id ← readRegister 6
  match ← onFiles fun fs => .ok (fs.fileOf id, fs) with
  | none => answer (-1)
  | some file =>
    if file.type = .readOnly ∨ file.type = .stdin then answer (-1)
    else
      let oldPos ← onFiles (·.getCurrentPos id.toNat)
      let buffer ← onMachine (·.user2System bigEndian virtualAddr charcount)
      if file.type = .readWrite then
        let numWritten ← onFiles (·.write id.toNat buffer charcount)
        if BitVec.slt 0 numWritten then
          let newPos ← onFiles (·.getCurrentPos id.toNat)
          answer (newPos - oldPos)
      else
        let i ← writeLine sv buffer
        writeConsole sv [10]
        answer (ofNat 32 i - 1)

/-- `SeekFunction`. -/
def seekFunction : Handler W Unit := do
  let pos ← readRegister 4
  let file_id ← readRegister 5
  let value ← onFiles (·.seekCall pos file_id)
  answerIf value

/-! ## Processes and semaphores -/

/-- `ExecFunction`. -/
def execFunction : Handler W Unit := do
  let virtualAddr ← readRegister 4
  let progName ← userName bigEndian virtualAddr (ofNat 32 maxLength + 1)
  let file ← onFiles fun fs => .ok ((fs.host.openRW progName).1, { fs with host := (fs.host.openRW progName).2 })
  match file with
  | none => answer (-1)
  | some _ =>
    let id ← await (sv.execUpdate progName)
    answer id
    onFiles fun fs => do
      let h ← fs.host.close
      return ((), { fs with host := h })

/-- `JoinFunction`. -/
def joinFunction : Handler W Unit := do
  let id ← readRegister 4
  let exitcode ← await (sv.joinUpdate id)
  answer exitcode

/-- `ExitFunction`; `Finish` does not return. -/
def exitFunction : Handler W Unit := do
  let status ← readRegister 4
  if status ≠ 0 then return
  let exitcode ← await (sv.exitUpdate status)
  answer exitcode
  fun _ => .error .finished

/-- `CreateSemaphoreFunction`, `WaitFunction` and `SignalFunction`, by the call they make;
    a value of -1 is answered as -1 like any other. -/
def semaphoreFunction (call : List Byte → W → Option (Reply W Word)) : Handler W Unit := do
  let virtualAddr ← readRegister 4
  let name ← userName bigEndian virtualAddr (ofNat 32 maxLength + 1)
  let result ← await (call name)
  answer result

def createSemaphoreFunction : Handler W Unit := do
  let semval ← readRegister 5
  semaphoreFunction bigEndian fun name => sv.semCreate name semval

def waitFunction : Handler W Unit := semaphoreFunction bigEndian sv.semWait

def signalFunction : Handler W Unit := semaphoreFunction bigEndian sv.semSignal

/-! ## `ExceptionHandler` -/

/-- The system calls `ExceptionHandler` knows. -/
inductive Syscall where
  | halt
  | exit
  | exec
  | join
  | openFile
  | read
  | write
  | close
  | readInt
  | printInt
  | readChar
  | printChar
  | readString
  | printString
  | createFile
  | createSemaphore
  | wait
  | signal
  | seek
  | sub
  deriving DecidableEq, Repr

/-- The SC_ constants of syscall.h. -/
def Syscall.code : Syscall → Word
  | .halt => 0
  | .exit => 1
  | .exec => 2
  | .join => 3
  | .openFile => 5
  | .read => 6
  | .write => 7
  | .close => 8
  | .readInt => 11
  | .printInt => 12
  | .readChar => 13
  | .printChar => 14
  | .readString => 15
  | .printString => 16
  | .createFile => 17
  | .createSemaphore => 18
  | .wait => 19
  | .signal => 20
  | .seek => 21
  | .sub => 43

def Syscall.all : List Syscall :=
  [.halt, .exit, .exec, .join, .openFile, .read, .write, .close, .readInt, .printInt, .readChar, .printChar, .readString,
    .printString, .createFile, .createSemaphore, .wait, .signal, .seek, .sub]

def Syscall.ofCode (type : Word) : Option Syscall := Syscall.all.find? (·.code = type)

/-- The cases of the inner switch. -/
def serve : Syscall → Handler W Unit
  | .halt => Handler.halt
  | .exit => exitFunction sv
  | .exec => execFunction bigEndian sv
  | .join => joinFunction sv
  | .openFile => openFunction bigEndian
  | .read => readFunction bigEndian sv
  | .write => writeFunction bigEndian sv
  | .close => closeFunction
  | .readInt => readIntFunction sv
  | .printInt => printIntFunction sv
  | .readChar => readCharFunction sv
  | .printChar => printCharFunction sv
  | .readString => readStringFunction bigEndian sv
  | .printString => printStringFunction bigEndian sv
  | .createFile => createFileFunction bigEndian
  | .createSemaphore => createSemaphoreFunction bigEndian sv
  | .wait => waitFunction bigEndian sv
  | .signal => signalFunction bigEndian sv
  | .seek => seekFunction
  | .sub => subFunction

/-- `ExceptionHandler`. The inner switch has no `default`, and its `break`s only leave it:
    every system call that returns falls into the `IncreasePC` of the outer `default`. -/
def exceptionHandler (which : ExceptionType) : Handler W Unit := do
  let type ← readRegister 2
  match which with
  | .noException => pure ()
  | .syscallException =>
    match Syscall.ofCode type with
    | some call => serve bigEndian sv call
    | none => pure ()
    increasePC
  | _ => Handler.halt

end Nachos

/-
  Nachos.Test.Programs — `test/MayRotNuoc.c`, `test/sinhvien.c` and `test/voinuoc.c`.

  A program is the sequence of its system calls: `call` is the call it makes next, and
  `resume` what it computes from the value returned until the call after that. Between two
  calls a process touches only its own variables, so one step of the system is one call of
  one process with what follows it, and a schedule is the order in which the processes make
  their calls. A Wait is made when the semaphore's value is above zero, and before that the
  process cannot move.

  The kernel's file calls are a parameter: `serve` answers a call, or stops the simulator.
  Both Execs are taken to succeed. The variables that C leaves uninitialised start as 0;
  each is assigned before it is used.
-/

import Mathlib.Logic.Function.Basic
import Nachos.Lib.Turns
import Nachos.Machine.Machine

namespace Nachos.WaterTaps

/-! ## System calls -/

/-- The three processes. Each waits on the semaphore that has its own name. -/
inductive Process where
  | main
  | sinhvien
  | voinuoc
  deriving DecidableEq, Repr

inductive File where
  | input
  | sinhvien
  | voinuoc
  | output
  deriving DecidableEq, Repr

/-- The name of the file, in ASCII. -/
def File.name : File → List Byte
  -- input.txt
  | .input => [105, 110, 112, 117, 116, 46, 116, 120, 116]
  -- sinhvien.txt
  | .sinhvien => [115, 105, 110, 104, 118, 105, 101, 110, 46, 116, 120, 116]
  -- voinuoc.txt
  | .voinuoc => [118, 111, 105, 110, 117, 111, 99, 46, 116, 120, 116]
  -- output.txt
  | .output => [111, 117, 116, 112, 117, 116, 46, 116, 120, 116]

inductive FileCall where
  | createFile (file : File)
  | openFile (file : File) (type : Word)
  | close (id : Word)
  /-- `Read(&charRead, 1, id)`. -/
  | read (id : Word)
  | write (bytes : List Byte) (id : Word)
  | seek (pos id : Word)
  deriving DecidableEq, Repr

inductive Call where
  | file (call : FileCall)
  | createSemaphore (name : Process)
  | wait (name : Process)
  | signal (name : Process)
  | exec (program : Process)
  | printString
  | halt
  | exit
  deriving DecidableEq, Repr

/-- What a call leaves in r2, and the byte that Read leaves in `charRead`. -/
structure Returned where
  value : Word
  byte : Option Byte
  deriving DecidableEq, Repr

/-- A `char` as an `int`. -/
def charInt (c : Byte) : Word := c.signExtend 32

/-- The digit `c` after the digits of `n`. -/
def addDigit (n : Word) (c : Byte) : Word := n * 10 + (charInt c - 48)

/-! ## MayRotNuoc -/

inductive MayRotNuoc.Point where
  | createMain
  | createSinhvien
  | createVoinuoc
  | createOutput
  | openInput
  | readCount
  | execSinhvien
  | execVoinuoc
  | createFile
  | openFile
  | readChar
  | writeChar
  | closeFile
  | signal
  | wait
  | closeInput
  | print
  | halt
  | giveUp
  | exit
  deriving DecidableEq, Repr

structure MayRotNuoc where
  point : MayRotNuoc.Point
  siInput : Word
  siSinhvien : Word
  timePoints : Word
  charRead : Byte
  deriving DecidableEq, Repr

namespace MayRotNuoc

def start : MayRotNuoc := ⟨.createMain, 0, 0, 0, 48⟩

def call (m : MayRotNuoc) : Call :=
  match m.point with
  | .createMain => .createSemaphore .main
  | .createSinhvien => .createSemaphore .sinhvien
  | .createVoinuoc => .createSemaphore .voinuoc
  | .createOutput => .file (.createFile .output)
  | .openInput => .file (.openFile .input 1)
  | .readCount => .file (.read m.siInput)
  | .execSinhvien => .exec .sinhvien
  | .execVoinuoc => .exec .voinuoc
  | .createFile => .file (.createFile .sinhvien)
  | .openFile => .file (.openFile .sinhvien 0)
  | .readChar => .file (.read m.siInput)
  | .writeChar => .file (.write [m.charRead] m.siSinhvien)
  | .closeFile => .file (.close m.siSinhvien)
  | .signal => .signal .sinhvien
  | .wait => .wait .main
  | .closeInput => .file (.close m.siInput)
  | .print => .printString
  | .halt => .halt
  | .giveUp => .file (.close m.siInput)
  | .exit => .exit

/-- `while (timePoints--)`. -/
def nextTimePoint (m : MayRotNuoc) : MayRotNuoc :=
  { m with point := if m.timePoints = 0 then .closeInput else .createFile, timePoints := m.timePoints - 1 }

def resume (m : MayRotNuoc) (r : Returned) : MayRotNuoc :=
  let c := r.byte.getD m.charRead
  match m.point with
  | .createMain => { m with point := if r.value = -1 then .exit else .createSinhvien }
  | .createSinhvien => { m with point := if r.value = -1 then .exit else .createVoinuoc }
  | .createVoinuoc => { m with point := if r.value = -1 then .exit else .createOutput }
  | .createOutput => { m with point := if r.value = -1 then .exit else .openInput }
  | .openInput => { m with siInput := r.value, point := if r.value = -1 then .exit else .readCount }
  | .readCount =>
    if c = 10 then { m with charRead := c, point := .execSinhvien }
    else if ¬ (charInt c).slt 48 ∧ ¬ BitVec.slt 57 (charInt c) then
      { m with charRead := c, timePoints := addDigit m.timePoints c }
    else { m with charRead := c }
  | .execSinhvien => { m with point := if r.value = -1 then .giveUp else .execVoinuoc }
  | .execVoinuoc => if r.value = -1 then { m with point := .giveUp } else m.nextTimePoint
  | .createFile => { m with point := if r.value = -1 then .giveUp else .openFile }
  | .openFile => { m with siSinhvien := r.value, point := if r.value = -1 then .giveUp else .readChar }
  | .readChar => { m with charRead := c, point := if r.value.slt 1 ∨ c = 10 then .closeFile else .writeChar }
  | .writeChar => { m with point := .readChar }
  | .closeFile => { m with point := .signal }
  | .signal => { m with point := .wait }
  | .wait => m.nextTimePoint
  | .closeInput => { m with point := .print }
  | .print => { m with point := .halt }
  | .giveUp => { m with point := .exit }
  | .halt | .exit => m

end MayRotNuoc

/-! ## sinhvien -/

inductive Sinhvien.Point where
  | wait
  | openSinhvien
  | seekEnd
  | seekStart
  | createVoinuoc
  | openVoinuoc
  | readChar
  | writeVoinuoc
  | openOutput
  | seekOutput
  | writeOutput
  | closeOutput
  | writeStar
  | closeVoinuoc
  | signalVoinuoc
  | waitVoinuoc
  | createAgain
  | openAgain
  | signalMain
  | giveUp
  | signalGiveUp
  | exit
  deriving DecidableEq, Repr

structure Sinhvien where
  point : Sinhvien.Point
  siSinhvien : Word
  siVoinuoc : Word
  siOutput : Word
  fileLen : Word
  filePointer : Word
  charRead : Byte
  deriving DecidableEq, Repr

namespace Sinhvien

def start : Sinhvien := ⟨.wait, 0, 0, 0, 0, 0, 48⟩

variable (v : Sinhvien)

def call : Call :=
  match v.point with
  | .wait => .wait .sinhvien
  | .openSinhvien => .file (.openFile .sinhvien 1)
  | .seekEnd => .file (.seek (-1) v.siSinhvien)
  | .seekStart => .file (.seek 0 v.siSinhvien)
  | .createVoinuoc => .file (.createFile .voinuoc)
  | .openVoinuoc => .file (.openFile .voinuoc 0)
  | .readChar => .file (.read v.siSinhvien)
  | .writeVoinuoc => .file (.write [v.charRead] v.siVoinuoc)
  | .openOutput => .file (.openFile .output 0)
  | .seekOutput => .file (.seek (-1) v.siOutput)
  | .writeOutput => .file (.write [v.charRead] v.siOutput)
  | .closeOutput => .file (.close v.siOutput)
  | .writeStar => .file (.write [42] v.siVoinuoc)
  | .closeVoinuoc => .file (.close v.siVoinuoc)
  | .signalVoinuoc => .signal .voinuoc
  | .waitVoinuoc => .wait .sinhvien
  | .createAgain => .file (.createFile .voinuoc)
  | .openAgain => .file (.openFile .voinuoc 0)
  | .signalMain => .signal .main
  | .giveUp => .file (.close v.siSinhvien)
  | .signalGiveUp => .signal .main
  | .exit => .exit

/-- The condition of `while (filePointer < fileLen)`. -/
def loop : Sinhvien :=
  { v with point := if v.filePointer.slt v.fileLen then .readChar else .signalMain }

/-- `filePointer++`. -/
def next : Sinhvien := { v with filePointer := v.filePointer + 1 }.loop

/-- What follows the branches on `charRead != ' '`. -/
def charDone (getWater : Bool) : Sinhvien :=
  if v.filePointer = v.fileLen - 1 then { v with point := .writeStar }
  else if getWater then { v with point := .closeVoinuoc }
  else v.next

def resume (r : Returned) : Sinhvien :=
  let c := r.byte.getD v.charRead
  match v.point with
  | .wait => { v with point := .openSinhvien }
  | .openSinhvien => { v with siSinhvien := r.value, point := if r.value = -1 then .signalGiveUp else .seekEnd }
  | .seekEnd => { v with fileLen := r.value, point := .seekStart }
  | .seekStart => { v with filePointer := 0, point := .createVoinuoc }
  | .createVoinuoc => { v with point := if r.value = -1 then .giveUp else .openVoinuoc }
  | .openVoinuoc =>
    if r.value = -1 then { v with siVoinuoc := r.value, point := .giveUp } else { v with siVoinuoc := r.value }.loop
  | .readChar =>
    if c ≠ 32 then { v with charRead := c, point := .writeVoinuoc } else { v with charRead := c }.charDone true
  | .writeVoinuoc => { v with point := .openOutput }
  | .openOutput => { v with siOutput := r.value, point := if r.value = -1 then .giveUp else .seekOutput }
  | .seekOutput => { v with point := .writeOutput }
  | .writeOutput => { v with point := .closeOutput }
  | .closeOutput => v.charDone false
  | .writeStar => { v with point := .closeVoinuoc }
  | .closeVoinuoc => { v with point := .signalVoinuoc }
  | .signalVoinuoc => { v with point := .waitVoinuoc }
  | .waitVoinuoc => { v with point := .createAgain }
  | .createAgain => { v with point := if r.value = -1 then .giveUp else .openAgain }
  | .openAgain =>
    if r.value = -1 then { v with siVoinuoc := r.value, point := .giveUp } else { v with siVoinuoc := r.value }.next
  | .signalMain => { v with fileLen := 0, point := .wait }
  | .giveUp => { v with point := .signalGiveUp }
  | .signalGiveUp => { v with point := .exit }
  | .exit => v

end Sinhvien

/-! ## voinuoc -/

inductive Voinuoc.Point where
  | wait
  | openVoinuoc
  | readChar
  | closeVoinuoc
  | openOutput
  | seekOutput
  | writeTap1
  | writeTap2
  | writeEnd
  | writeSpaces
  | closeOutput
  | signal
  | giveUp
  | signalGiveUp
  | exit
  deriving DecidableEq, Repr

structure Voinuoc where
  point : Voinuoc.Point
  siVoinuoc : Word
  siOutput : Word
  tap1 : Word
  tap2 : Word
  tapTime : Word
  problemSolved : Bool
  charRead : Byte
  deriving DecidableEq, Repr

namespace Voinuoc

def start : Voinuoc := ⟨.wait, 0, 0, 0, 0, 0, false, 48⟩

def call (v : Voinuoc) : Call :=
  match v.point with
  | .wait => .wait .voinuoc
  | .openVoinuoc => .file (.openFile .voinuoc 1)
  | .readChar => .file (.read v.siVoinuoc)
  | .closeVoinuoc => .file (.close v.siVoinuoc)
  | .openOutput => .file (.openFile .output 0)
  | .seekOutput => .file (.seek (-1) v.siOutput)
  | .writeTap1 => .file (.write [32, 49] v.siOutput)
  | .writeTap2 => .file (.write [32, 50] v.siOutput)
  | .writeEnd => .file (.write [13, 10] v.siOutput)
  | .writeSpaces => .file (.write [32, 32, 32] v.siOutput)
  | .closeOutput => .file (.close v.siOutput)
  | .signal => .signal .sinhvien
  | .giveUp => .file (.close v.siVoinuoc)
  | .signalGiveUp => .signal .sinhvien
  | .exit => .exit

/-- `if (problemSolved == 1)` and its `else`. -/
def tapDone (v : Voinuoc) : Voinuoc :=
  if v.problemSolved then { v with tap1 := 0, tap2 := 0, point := .writeEnd } else { v with point := .writeSpaces }

/-- `if (tapTime != 0)`. -/
def chooseTap (v : Voinuoc) : Voinuoc :=
  if v.tapTime = 0 then v.tapDone
  else if v.tap1.sle v.tap2 then { v with tap1 := v.tap1 + v.tapTime, point := .writeTap1 }
  else { v with tap2 := v.tap2 + v.tapTime, point := .writeTap2 }

def resume (v : Voinuoc) (r : Returned) : Voinuoc :=
  let c := r.byte.getD v.charRead
  match v.point with
  | .wait => { v with charRead := 0, point := .openVoinuoc }
  | .openVoinuoc =>
    if r.value = -1 then { v with siVoinuoc := r.value, point := .signalGiveUp }
    else { v with siVoinuoc := r.value, tapTime := 0, problemSolved := false, point := .readChar }
  | .readChar =>
    if r.value = -2 then { v with charRead := c, point := .closeVoinuoc }
    else if c = 42 then { v with charRead := c, problemSolved := true, point := .closeVoinuoc }
    else { v with charRead := c, tapTime := addDigit v.tapTime c }
  | .closeVoinuoc => { v with point := .openOutput }
  | .openOutput => { v with siOutput := r.value, point := if r.value = -1 then .giveUp else .seekOutput }
  | .seekOutput => v.chooseTap
  | .writeTap1 | .writeTap2 => v.tapDone
  | .writeEnd | .writeSpaces => { v with point := .closeOutput }
  | .closeOutput => { v with point := .signal }
  | .signal => { v with point := .wait }
  | .giveUp => { v with point := .signalGiveUp }
  | .signalGiveUp => { v with point := .exit }
  | .exit => v

end Voinuoc

/-! ## The system -/

/-- The processes, their semaphores, and the kernel's files, of an arbitrary kind. A process
    that has not been started or has exited is `none`. -/
structure System (F : Type) where
  files : F
  value : Process → Nat
  main : MayRotNuoc
  sinhvien : Option Sinhvien
  voinuoc : Option Voinuoc
  halted : Bool

namespace System

variable {F F' : Type}

def boot (files : F) : System F := ⟨files, fun _ => 0, .start, none, none, false⟩

variable (s : System F)

/-- The call the process makes next. -/
def call : Process → Option Call
  | .main => some s.main.call
  | .sinhvien => s.sinhvien.map Sinhvien.call
  | .voinuoc => s.voinuoc.map Voinuoc.call

def resume (r : Returned) : Process → System F
  | .main => { s with main := s.main.resume r }
  | .sinhvien => { s with sinhvien := s.sinhvien.map (·.resume r) }
  | .voinuoc => { s with voinuoc := s.voinuoc.map (·.resume r) }

/-- Exec of the program, and the process id it returns. -/
def exec : Process → Word × System F
  | .main => (-1, s)
  | .sinhvien => (1, { s with sinhvien := some .start })
  | .voinuoc => (2, { s with voinuoc := some .start })

/-- A program that returns from `main` calls Exit; the kernel halts when process 0 does. -/
def exit : Process → System F
  | .main => { s with halted := true }
  | .sinhvien => { s with sinhvien := none }
  | .voinuoc => { s with voinuoc := none }

def setValue (name : Process) (n : Nat) : System F := { s with value := Function.update s.value name n }

variable (serve : F → FileCall → Option (Returned × F))

/-- Process `p` makes its next call and goes on to the call after it. -/
def step (s : System F) (p : Process) : Option (System F) :=
  if s.halted then none
  else
    match s.call p with
    | none => none
    | some (.file call) => (serve s.files call).map fun x => { s with files := x.2 }.resume x.1 p
    | some (.createSemaphore name) => some ((s.setValue name 0).resume ⟨0, none⟩ p)
    | some (.wait name) =>
      if s.value name = 0 then none else some ((s.setValue name (s.value name - 1)).resume ⟨0, none⟩ p)
    | some (.signal name) => some ((s.setValue name (s.value name + 1)).resume ⟨0, none⟩ p)
    | some (.exec program) => some ((s.exec program).2.resume ⟨(s.exec program).1, none⟩ p)
    | some .printString => some (s.resume ⟨16, none⟩ p)
    | some .halt => some { s with halted := true }
    | some .exit => some (s.exit p)

/-- The process has not been started, has exited, or waits for a Signal. -/
def Blocked (p : Process) : Prop :=
  s.call p = none ∨ ∃ name, s.call p = some (.wait name) ∧ s.value name = 0

/-- A step of the one process that is not blocked. -/
def Turn (s t : System F) : Prop := ∃ p, step serve s p = some t ∧ ∀ q, q ≠ p → s.Blocked q

variable {serve}

theorem Blocked.step {s : System F} {p : Process} (h : s.Blocked p) : step serve s p = none := by
  unfold System.step
  split
  · rfl
  rcases h with h | ⟨name, h, h0⟩
  · rw [h]
  · rw [h]
    exact if_pos h0

theorem Turn.only {s t : System F} (h : Turn serve s t) : Lib.Only (step serve) s t := by
  obtain ⟨p, hp, ho⟩ := h
  exact ⟨p, hp, fun q hq => (ho q hq).step⟩

theorem turns_only {s t : System F} (h : Relation.ReflTransGen (Turn serve) s t) :
    Relation.ReflTransGen (Lib.Only (step serve)) s t :=
  Relation.ReflTransGen.mono (fun _ _ => Turn.only) _ _ h

/-! ### Two kinds of files -/

/-- The same system with other files. -/
def withFiles (files : F') : System F' := ⟨files, s.value, s.main, s.sinhvien, s.voinuoc, s.halted⟩

/-- If each file call has its counterpart, so has each turn. -/
theorem turn_simulated {serve' : F' → FileCall → Option (Returned × F')} {R : F → F' → Prop}
    (hsr : ∀ f f' call r g', R f f' → serve' f' call = some (r, g') → ∃ g, serve f call = some (r, g) ∧ R g g')
    {s : System F'} {t : System F'} {f : F} (hR : R f s.files) (h : Turn serve' s t) :
    ∃ g, Turn serve (s.withFiles f) (t.withFiles g) ∧ R g t.files := by
  obtain ⟨p, hp, ho⟩ := h
  have hcl : (s.withFiles f).call p = s.call p := by cases p <;> rfl
  have hb : ∀ q, q ≠ p → (s.withFiles f).Blocked q := by
    intro q hq
    have := ho q hq
    cases q <;> exact this
  have hr : ∀ (u : System F') (g : F) (r : Returned), (u.resume r p).withFiles g = (u.withFiles g).resume r p := by
    intro u g r
    cases p <;> rfl
  suffices ∃ g, step serve (s.withFiles f) p = some (t.withFiles g) ∧ R g t.files by
    obtain ⟨g, hg, hRg⟩ := this
    exact ⟨g, ⟨p, hg, hb⟩, hRg⟩
  unfold step at hp ⊢
  rw [hcl]
  split at hp
  · cases hp
  rename_i hrn
  rw [show (s.withFiles f).halted = s.halted from rfl, if_neg hrn]
  cases hc : s.call p with
  | none => rw [hc] at hp; cases hp
  | some call =>
    rw [hc] at hp
    cases call with
    | file call =>
      obtain ⟨⟨r, g'⟩, hs, rfl⟩ := Option.map_eq_some_iff.mp hp
      obtain ⟨g, hg, hRg⟩ := hsr _ _ _ _ _ hR hs
      refine ⟨g, ?_, by cases p <;> exact hRg⟩
      simp only [show (s.withFiles f).files = f from rfl, hg, Option.map_some, hr]
      rfl
    | wait name =>
      simp only at hp ⊢
      split at hp
      · cases hp
      rename_i hv
      cases hp
      refine ⟨f, ?_, by cases p <;> exact hR⟩
      rw [hr]
      exact if_neg hv
    | exec program =>
      cases hp
      refine ⟨f, ?_, by cases program <;> cases p <;> exact hR⟩
      rw [hr]
      cases program <;> rfl
    | createSemaphore name | signal name | printString | halt | exit =>
      cases hp
      refine ⟨f, ?_, by cases p <;> exact hR⟩
      cases p <;> rfl

end System

end Nachos.WaterTaps

/-
  Nachos.Threads.Scheduler — user programs sharing the CPU: `Machine::Run`'s loop,
  `Interrupt::OneTick` and `CheckIfDue`, `Thread::Yield`, and `Scheduler::Run` with
  `SaveUserState`, `RestoreUserState` and `AddrSpace::RestoreState`.

  A thread is in user mode between two instructions of `Machine::Run` and in kernel mode
  once an instruction has trapped. The events are one user instruction; one `OneTick`, in
  which any device interrupts are due and a timer interrupt makes the thread yield; a
  switch asked for by kernel code (`Sleep`, or an explicit `Yield`); a system call's
  changes to the registers and the frames of its own process; and the return to user mode.
  The ready list picks the next thread: every choice is an event. An event the current
  thread's mode rules out is a no-op.

  `WF` is what a set of processes needs to run: disjoint frames below `numPhysPages`,
  the current process's page table in the machine, sound register sets.
  - `step_wf`: every step keeps it.
-/

import Nachos.Machine.Frames
import Nachos.Userprog.AddrSpace

namespace Nachos

open Function (update update_apply update_of_ne)

abbrev Tid := Nat

/-- An `AddrSpace *`. -/
abbrev SpaceId := Nat

inductive Mode where
  | user
  | kernel
  deriving DecidableEq, Repr

/-- What a context switch uses of a `Thread`; a `space` of `none` is NULL. -/
structure UserThread where
  userRegisters : Regs
  space : Option SpaceId
  mode : Mode

structure Sys where
  registers : Regs
  mainMemory : Memory
  /-- `machine->pageTable`, by the address space whose table it is. -/
  pageTable : Option SpaceId
  pageTableSize : Nat
  currentThread : Tid
  threads : Tid → UserThread
  spaces : SpaceId → AddrSpace

inductive Interrupt where
  | timer
  | device
  deriving DecidableEq, Repr

inductive Event where
  | instr
  | tick (due : List Interrupt) (next : Option Tid)
  | switch (next : Tid)
  | kernel (registers : Regs) (memory : Memory)
  | resume

namespace Sys

/-! ## The steps -/

variable (s : Sys)

/-- The machine as `OneInstruction` finds it. -/
def machine : Machine :=
  { registers := s.registers, mainMemory := s.mainMemory, tlb := none,
    pageTable := s.pageTable.map fun a => (s.spaces a).pageTable, pageTableSize := s.pageTableSize }

/-- The system after the current thread has used the machine. -/
def putMachine (m : Machine) : Sys :=
  { s with
    registers := m.registers, mainMemory := m.mainMemory,
    spaces := match s.pageTable, m.pageTable with
      | some a, some t => update s.spaces a { s.spaces a with pageTable := t }
      | _, _ => s.spaces }

def current : UserThread := s.threads s.currentThread

def setMode (mode : Mode) : Sys :=
  { s with threads := update s.threads s.currentThread { s.current with mode } }

/-- `Scheduler::Run`. -/
def run (nextThread : Tid) : Sys :=
  let s := match s.current.space with
    | some _ =>
      { s with threads := update s.threads s.currentThread { s.current with userRegisters := s.registers } }
    | none => s
  let s := { s with currentThread := nextThread }
  match s.current.space with
  | some a =>
    { s with registers := s.current.userRegisters, pageTable := some a, pageTableSize := (s.spaces a).numPages }
  | none => s

/-- `Thread::Yield`; `next` is what `FindNextToRun` gives. -/
def yield : Option Tid → Sys
  | some next => s.run next
  | none => s

/-- A due interrupt in `Interrupt::CheckIfDue`; the handlers touch no user state. -/
def checkIfDue : Sys := { s with registers := landed s.registers }

/-- `Interrupt::OneTick`: every due interrupt is fired, and the timer's handler asks for
    a yield on return. -/
def oneTick (due : List Interrupt) (next : Option Tid) : Sys :=
  let s := due.foldl (fun s _ => s.checkIfDue) s
  if .timer ∈ due then s.yield next else s

/-- A system call of the current process: any sound registers, and any bytes in its frames. -/
def kernelStep (registers : Regs) (memory : Memory) : Sys :=
  if registers 0 = 0 ∧ (registers loadReg).toNat < numGPRegs then
    { s with
      registers,
      mainMemory := match s.current.space with
        | some a => fun x => if x / pageSize ∈ framesOf (s.spaces a).pageTable then memory x else s.mainMemory x
        | none => s.mainMemory }
  else s

variable (bigEndian : Bool) {a : SpaceId} {s : Sys} {m : Machine}

def step (s : Sys) : Event → Except Stop Sys
  | .instr =>
    if s.current.mode = .user then
      match s.machine.oneInstruction bigEndian with
      | .done _ m => .ok (s.putMachine m)
      | .raised _ m => .ok ((s.putMachine m).setMode .kernel)
      | .stop why => .error why
    else .ok s
  | .tick due next => .ok (s.oneTick due next)
  | .switch next => .ok (if s.current.mode = .kernel then s.run next else s)
  | .kernel registers memory => .ok (if s.current.mode = .kernel then s.kernelStep registers memory else s)
  | .resume => .ok (if s.current.mode = .kernel ∧ s.current.space.isSome then s.setMode .user else s)

/-! ## What a set of processes needs -/

/-- The user registers of thread `t`: in the machine while it is running, else saved. -/
def userRegs (s : Sys) (t : Tid) : Regs :=
  if s.currentThread = t then s.registers else (s.threads t).userRegisters

/-- The frames of the address space `a`. -/
def framesAt (s : Sys) (a : SpaceId) : List Nat := framesOf (s.spaces a).pageTable

structure WF (s : Sys) : Prop where
  apart : ∀ t t' a a', t ≠ t' → (s.threads t).space = some a → (s.threads t').space = some a' →
    a ≠ a' ∧ ∀ x ∈ s.framesAt a, x ∉ s.framesAt a'
  below : ∀ t a, (s.threads t).space = some a → ∀ x ∈ s.framesAt a, x < numPhysPages
  loaded : ∀ a, s.current.space = some a → s.pageTable = some a ∧ s.pageTableSize = (s.spaces a).numPages
  space : ∀ t, (s.threads t).mode = .user → (s.threads t).space.isSome
  regs : ∀ t a, (s.threads t).space = some a → RegsOk (s.userRegs t)

/-! ## A context switch -/

@[simp] theorem run_currentThread (s : Sys) (n : Tid) : (s.run n).currentThread = n := by
  unfold run; dsimp only; split <;> rfl

@[simp] theorem run_spaces (s : Sys) (n : Tid) : (s.run n).spaces = s.spaces := by
  unfold run; dsimp only; split <;> split <;> rfl

@[simp] theorem run_mainMemory (s : Sys) (n : Tid) : (s.run n).mainMemory = s.mainMemory := by
  unfold run; dsimp only; split <;> split <;> rfl

/-- A switch saves the old thread's registers and changes nothing else of any thread. -/
theorem run_threads (s : Sys) (n t : Tid) :
    (s.run n).threads t =
      if t = s.currentThread ∧ s.current.space.isSome then { s.current with userRegisters := s.registers }
      else s.threads t := by
  cases hs : s.current.space with
  | none =>
    have : (s.run n).threads = s.threads := by unfold run; simp only [hs]; split <;> rfl
    simp [this]
  | some a =>
    have : (s.run n).threads = update s.threads s.currentThread { s.current with userRegisters := s.registers } := by
      unfold run; simp only [hs]; split <;> rfl
    rw [this, update_apply]
    simp

@[simp] theorem run_space (s : Sys) (n t : Tid) : ((s.run n).threads t).space = (s.threads t).space := by
  rw [run_threads]; split
  · rename_i h; rw [h.1]; rfl
  · rfl

@[simp] theorem run_mode (s : Sys) (n t : Tid) : ((s.run n).threads t).mode = (s.threads t).mode := by
  rw [run_threads]; split
  · rename_i h; rw [h.1]; rfl
  · rfl

/-- The machine of a process that is switched to. -/
theorem run_loaded (s : Sys) {n : Tid} (h : (s.threads n).space = some a) :
    (s.run n).pageTable = some a ∧ (s.run n).pageTableSize = (s.spaces a).numPages ∧
      (s.run n).registers = ((s.run n).threads n).userRegisters := by
  have hn := run_space s n n
  rw [h] at hn
  revert hn
  unfold run
  dsimp only
  split <;> dsimp only <;> split <;> intro hn
  all_goals simp_all [current]

/-- No process's registers change in a switch, whoever it is between. -/
theorem run_userRegs (s : Sys) (n : Tid) {t : Tid} (h : (s.threads t).space = some a) :
    (s.run n).userRegs t = s.userRegs t := by
  unfold userRegs
  rw [run_currentThread]
  by_cases hn : n = t
  · subst hn
    rw [if_pos rfl, (run_loaded s h).2.2, run_threads]
    by_cases hc : n = s.currentThread
    · subst hc
      simp [current, h]
    · simp [hc, Ne.symm hc]
  · rw [if_neg hn, run_threads]
    by_cases hc : t = s.currentThread
    · subst hc
      simp [current, h]
    · simp [hc, Ne.symm hc]

theorem run_wf (h : s.WF) (n : Tid) : (s.run n).WF := by
  refine ⟨?_, ?_, ?_, ?_, ?_⟩
  · simpa [framesAt] using h.apart
  · simpa [framesAt] using h.below
  · intro a ha
    rw [current, run_currentThread, run_space] at ha
    rw [run_spaces]
    exact ⟨(run_loaded s ha).1, (run_loaded s ha).2.1⟩
  · simpa using h.space
  · intro t a ha
    rw [run_space] at ha
    rw [run_userRegs s n ha]
    exact h.regs t a ha

/-! ## Interrupts -/

/-- Only the running process's registers see an interrupt. -/
theorem checkIfDue_userRegs (s : Sys) (t : Tid) :
    s.checkIfDue.userRegs t = if s.currentThread = t then landed (s.userRegs t) else s.userRegs t := by
  unfold userRegs checkIfDue
  dsimp only
  split <;> rfl

theorem checkIfDue_wf (h : s.WF) : s.checkIfDue.WF := by
  refine ⟨h.apart, h.below, h.loaded, h.space, fun t a ha => ?_⟩
  rw [checkIfDue_userRegs]
  split
  · exact (regsOk_landed _).1
  · exact h.regs t a ha

theorem yield_wf (h : s.WF) (next : Option Tid) : (s.yield next).WF := by
  cases next with
  | none => exact h
  | some n => exact run_wf h n

theorem oneTick_wf (h : s.WF) (due : List Interrupt) (next : Option Tid) : (s.oneTick due next).WF := by
  have hd : ∀ (l : List Interrupt) {s : Sys}, s.WF → (l.foldl (fun s _ => s.checkIfDue) s).WF := by
    intro l
    induction l with
    | nil => exact fun h => h
    | cons _ l ih => exact fun h => ih (checkIfDue_wf h)
  unfold oneTick
  dsimp only
  split
  · exact yield_wf (hd due h) next
  · exact hd due h

/-! ## What the current thread does -/

theorem setMode_threads (s : Sys) (mode : Mode) (t : Tid) :
    ((s.setMode mode).threads t).space = (s.threads t).space ∧
      ((s.setMode mode).threads t).userRegisters = (s.threads t).userRegisters ∧
      ((s.setMode mode).threads t).mode = if t = s.currentThread then mode else (s.threads t).mode := by
  unfold setMode
  dsimp only
  rw [update_apply]
  split
  · rename_i h; rw [h]; exact ⟨rfl, rfl, rfl⟩
  · exact ⟨rfl, rfl, rfl⟩

theorem setMode_userRegs (s : Sys) (mode : Mode) (t : Tid) : (s.setMode mode).userRegs t = s.userRegs t := by
  unfold userRegs
  rw [(setMode_threads s mode t).2.1]
  rfl

theorem setMode_wf (h : s.WF) {mode : Mode} (hm : mode = .user → s.current.space.isSome) : (s.setMode mode).WF := by
  refine ⟨?_, ?_, ?_, ?_, ?_⟩
  · intro t t' a a' ht ha ha'
    rw [(setMode_threads s mode t).1] at ha
    rw [(setMode_threads s mode t').1] at ha'
    exact h.apart t t' a a' ht ha ha'
  · intro t a ha
    rw [(setMode_threads s mode t).1] at ha
    exact h.below t a ha
  · intro a ha
    rw [current, (setMode_threads s mode _).1] at ha
    exact h.loaded a ha
  · intro t ht
    rw [(setMode_threads s mode t).2.2] at ht
    rw [(setMode_threads s mode t).1]
    split at ht
    · rename_i e; rw [e]; exact hm ht
    · exact h.space t ht
  · intro t a ha
    rw [(setMode_threads s mode t).1] at ha
    rw [setMode_userRegs]
    exact h.regs t a ha

/-- The current process's page table as the machine uses it. -/
theorem WF.onTable (h : s.WF) (ha : s.current.space = some a) : OnTable s.machine (s.spaces a).pageTable :=
  ⟨rfl, by simp [machine, (h.loaded a ha).1]⟩

/-- After an instruction of the current process: its table has its frames, no other space
    has changed, and memory has changed only in its frames. -/
theorem putMachine_kept (h : s.WF) (ha : s.current.space = some a) (hk : Kept s.machine m) :
    (∀ b, (s.putMachine m).framesAt b = s.framesAt b ∧ ((s.putMachine m).spaces b).numPages = (s.spaces b).numPages) ∧
    (∀ b, b ≠ a → (s.putMachine m).spaces b = s.spaces b) ∧
    (∀ x, ¬ Owns (s.spaces a).pageTable x → (s.putMachine m).mainMemory x = s.mainMemory x) ∧
    m.pageTable = some ((s.putMachine m).spaces a).pageTable := by
  obtain ⟨t', ht', hf, hm⟩ := hk.table _ (h.onTable ha).table
  have hsp : (s.putMachine m).spaces = update s.spaces a { s.spaces a with pageTable := t' } := by
    simp only [putMachine, (h.loaded a ha).1, ht']
  refine ⟨fun b => ?_, fun b hb => ?_, hm, ?_⟩
  · unfold framesAt
    rw [hsp, update_apply]
    split
    · rename_i e; subst e; exact ⟨hf, rfl⟩
    · exact ⟨rfl, rfl⟩
  · rw [hsp, update_of_ne hb]
  · rw [hsp, ht']; simp

theorem putMachine_wf (h : s.WF) (ha : s.current.space = some a) (hk : Kept s.machine m) (hr : RegsOk m.registers) :
    (s.putMachine m).WF := by
  have hf := (putMachine_kept h ha hk).1
  refine ⟨?_, ?_, ?_, h.space, ?_⟩
  · intro t t' b b' ht hb hb'
    rw [(hf b).1, (hf b').1]
    exact h.apart t t' b b' ht hb hb'
  · intro t b hb
    rw [(hf b).1]
    exact h.below t b hb
  · intro b hb
    rw [(hf b).2]
    exact h.loaded b hb
  · intro t b hb
    have := h.regs t b hb
    unfold userRegs at this
    show RegsOk (if s.currentThread = t then m.registers else (s.threads t).userRegisters)
    split
    · exact hr
    · rename_i hc; rwa [if_neg hc] at this

theorem kernelStep_wf (h : s.WF) (registers : Regs) (memory : Memory) : (s.kernelStep registers memory).WF := by
  unfold kernelStep
  split
  · rename_i hr
    refine ⟨h.apart, h.below, h.loaded, h.space, fun t a ha => ?_⟩
    have := h.regs t a ha
    unfold userRegs at this ⊢
    dsimp only
    split
    · exact ⟨hr.1, hr.2⟩
    · rename_i hc; rwa [if_neg hc] at this
  · exact h

variable {bigEndian : Bool}

theorem step_wf {s' : Sys} (h : s.WF) {e : Event} (hs : s.step bigEndian e = .ok s') : s'.WF := by
  cases e with
  | instr =>
    simp only [step] at hs
    split at hs
    · rename_i hm
      obtain ⟨a, ha⟩ := Option.isSome_iff_exists.mp (h.space _ hm)
      have hk := @oneInstruction_keeps _ bigEndian _ (h.onTable ha)
      have hsn := @oneInstruction_sound bigEndian s.machine
      cases ho : s.machine.oneInstruction bigEndian with
      | done u m =>
        rw [ho] at hs hk hsn; cases hs
        exact putMachine_wf h ha hk hsn
      | raised which m =>
        rw [ho] at hs hk hsn; cases hs
        exact setMode_wf (putMachine_wf h ha hk hsn) (by intro e; cases e)
      | stop why => rw [ho] at hs; cases hs
    · cases hs; exact h
  | tick due next => cases hs; exact oneTick_wf h due next
  | switch next =>
    cases hs
    split
    · exact run_wf h next
    · exact h
  | kernel registers memory =>
    cases hs
    split
    · exact kernelStep_wf h registers memory
    · exact h
  | resume =>
    cases hs
    split
    · rename_i hm; exact setMode_wf h fun _ => hm.2
    · exact h

end Sys

end Nachos

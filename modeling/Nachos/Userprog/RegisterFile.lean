/-
  Nachos.Userprog.RegisterFile — the registers of the machine and the ones that are saved.

  A run is made of the steps that touch a register: an instruction, with the trap it may end
  in; an interrupt in `CheckIfDue`; `Scheduler::Run`; a new thread, whose `userRegisters` are
  not initialised; the start of a program in a thread that has none; and, for the system calls,
  `WriteRegister` of the registers that exception.cc writes (`exceptionHandler_writes`) and
  accesses to memory, which may trap. Every order of these is a run, with any number of
  processes.

  The histories say which loads a process has made and which of their values were in their
  registers after a `DelayedLoad`. A load of register 0 is not counted.
  - `register_file_kept`: at every step register 0 is zero and LoadReg names a general register,
    in the machine and in every set that was saved; what is restored was saved; and the loads of
    a process have reached their registers one after the other, each once, except the one that
    is pending.
-/

import Nachos.Machine.Traps
import Nachos.Userprog.ProgramCounter

namespace Nachos

open Lib
open Function (update update_apply update_of_ne update_self)

/-- A delayed load: the number of its register, and its value. -/
abbrev Load := Word × Word

/-- The load that waits in the registers. -/
def pending (r : Regs) : List Load := if r loadReg = 0 then [] else [(r loadReg, r loadValueReg)]

/-- The value is in the register, which is a general one. -/
def Holds (r : Regs) (l : Load) : Prop := ∃ x : Fin numGPRegs, x.val = l.1.toNat ∧ r (gp x) = l.2

instance (r : Regs) (l : Load) : Decidable (Holds r l) := inferInstanceAs (Decidable (∃ _ : Fin numGPRegs, _))

/-- The load that waited in `r`, if it is in its register after a `DelayedLoad`. -/
def reaching (r r' : Regs) : List Load := (pending r).filter (Holds r' ·)

/-- The load the next instruction makes. -/
def Machine.loads (bigEndian : Bool) (m : Machine) : List Load :=
  match m.readMem bigEndian (m.registers pcReg) 4 with
  | .done raw m =>
    match effect (.decode raw) m.registers with
    | .load addr size rt f =>
      match m.readMem bigEndian addr size with
      | .done value _ => if rt = 0 then [] else [(BitVec.ofNat 32 rt, f value)]
      | _ => []
    | _ => []
  | _ => []

/-! ## DelayedLoad -/

/-- From `r` to `r'` there was one `DelayedLoad`, and these loads are made. -/
structure Delivered (r r' : Regs) (loads : List Load) : Prop where
  ok : RegsOk r'
  made : pending r' = loads
  holds : ∀ l ∈ pending r, Holds r' l

section

variable {r r₀ r' : Regs} {n v : Word}

/-- After what the instruction has written before it, and before the program counters are. -/
theorem Delivered.of_delayedLoad (hr : RegsOk r) (hrg : r₀ loadReg = r loadReg) (hvl : r₀ loadValueReg = r loadValueReg)
    (hn : n.toNat < numGPRegs) (h : ∀ x : RegNum, x.val < numGPRegs ∨ x = loadReg ∨ x = loadValueReg → r' x = delayedLoad r₀ n v x) :
    Delivered r r' (if n = 0 then [] else [(n, v)]) := by
  have hld : r' loadReg = n := by rw [h _ (by simp), delayedLoad_apply]; simp [loadReg, loadValueReg]
  have hv : r' loadValueReg = v := by rw [h _ (by simp), delayedLoad_apply]; simp [loadValueReg]
  refine ⟨⟨by rw [h 0 (by decide), delayedLoad_apply]; simp, by rwa [hld]⟩, by rw [pending, hld, hv], fun l hl => ?_⟩
  unfold pending at hl
  split at hl
  · cases hl
  rename_i hne
  cases List.mem_singleton.mp hl
  -- the target is a general register, and not register 0
  have hp : (r loadReg).toNat ≠ 0 := fun e => hne (BitVec.eq_of_toNat_eq e)
  have hs : ∀ y : RegNum, numGPRegs ≤ y.val → gp ⟨_, hr.load⟩ ≠ y := fun y hy => gp_ne hy
  refine ⟨⟨_, hr.load⟩, rfl, ?_⟩
  rw [h _ (.inl hr.load), delayedLoad_apply, hrg, hvl, if_neg (fun e => hp (congrArg Fin.val e)),
    if_neg (hs _ (by decide)), if_neg (hs _ (by decide)), gp_val, if_pos rfl]

theorem Delivered.landed (hr : RegsOk r) : Delivered r (Nachos.landed r) [] :=
  .of_delayedLoad hr rfl rfl (by decide) fun _ _ => rfl

theorem Delivered.trap (hr : RegsOk r) {badVAddr : Word} (h : r' = Nachos.landed (update r badVAddrReg badVAddr)) :
    Delivered r r' [] :=
  .of_delayedLoad hr (by simp [loadReg, badVAddrReg]) (by simp [loadValueReg, badVAddrReg]) (by decide)
    fun _ _ => congrFun h _

theorem Delivered.retire (hr : RegsOk r) (hrg : r₀ loadReg = r loadReg) (hv : r₀ loadValueReg = r loadValueReg)
    (hn : n.toNat < numGPRegs) (pcAfter : Word) : Delivered r (Nachos.retire r₀ n v pcAfter) (if n = 0 then [] else [(n, v)]) := by
  refine .of_delayedLoad hr hrg hv hn fun x hx => ?_
  have hne : x ≠ nextPCReg ∧ x ≠ pcReg ∧ x ≠ prevPCReg := by
    refine ⟨?_, ?_, ?_⟩ <;> (rintro rfl; revert hx; decide)
  rw [retire_apply, if_neg hne.1, if_neg hne.2.1, if_neg hne.2.2]

end

theorem writeRegs_apply (ws : List (RegNum × Word)) {x : RegNum} : ∀ {r : Regs}, (∀ w ∈ ws, w.1 ≠ x) → writeRegs r ws x = r x := by
  induction ws with
  | nil => intro r _; rfl
  | cons w ws ih =>
    intro r h
    exact (ih fun w hw => h w (List.mem_cons_of_mem _ hw)).trans
      (update_of_ne (h w List.mem_cons_self).symm _ _)

/-! ## What the machine does -/

/-- An access to memory: it leaves the registers alone, or traps. -/
def Outcome.Accesses {α : Type} (r : Regs) : Outcome α → Prop
  | .done _ m => m.registers = r
  | .raised _ m => ∃ badVAddr, m.registers = landed (update r badVAddrReg badVAddr)
  | .stop _ => True

/-- However it ends, there was one `DelayedLoad`, and these loads are made. -/
def Outcome.Delivers {α : Type} (r : Regs) (loads : List Load) : Outcome α → Prop
  | .done _ m | .raised _ m => Delivered r m.registers loads
  | .stop _ => True

section

variable {bigEndian : Bool} {m : Machine} {r : Regs} (hr : RegsOk r) (hm : m.registers = r)

include hm in
theorem readMem_accesses (addr : Word) (size : Nat) : (m.readMem bigEndian addr size).Accesses r := by
  subst hm
  have h : (m.readMem bigEndian addr size).Quiet m := readMem_traps rfl rfl addr size
  cases hx : m.readMem bigEndian addr size with
  | done v m' => rw [hx] at h; exact h.2
  | raised which m' => rw [hx] at h; exact h.registers
  | stop why => trivial

include hm in
theorem writeMem_accesses (addr : Word) (size : Nat) (value : Word) : (m.writeMem bigEndian addr size value).Accesses r := by
  subst hm
  have h : (m.writeMem bigEndian addr size value).TrapsFrom m := writeMem_traps rfl rfl addr size value
  have hc : (m.writeMem bigEndian addr size value).Calm m := writeMem_calm m addr size value
  cases hx : m.writeMem bigEndian addr size value with
  | done v m' => rw [hx] at hc; exact hc
  | raised which m' => rw [hx] at h; exact h.registers
  | stop why => trivial

include hr in
theorem Outcome.Accesses.bind {α β : Type} {x : Outcome α} (hx : x.Accesses r) {f : α → Machine → Outcome β}
    (hf : ∀ a m, m.registers = r → (f a m).Delivers r []) : (x.bind f).Delivers r [] := by
  cases x with
  | done a m => exact hf a m hx
  | raised which m =>
    obtain ⟨badVAddr, h⟩ := hx
    exact Delivered.trap hr h
  | stop why => trivial

/-- An instruction makes one `DelayedLoad`, whether it completes or traps. -/
theorem oneInstruction_delivers (hr : RegsOk m.registers) :
    (m.oneInstruction bigEndian).Delivers m.registers (m.loads bigEndian) := by
  have hf : (m.readMem bigEndian (m.registers pcReg) 4).Accesses m.registers := readMem_accesses rfl _ 4
  unfold Machine.oneInstruction Machine.loads
  cases hrw : m.readMem bigEndian (m.registers pcReg) 4 with
  | raised which m1 =>
    rw [hrw] at hf
    exact Delivered.trap hr hf.choose_spec
  | stop why => trivial
  | done raw m1 =>
    rw [hrw] at hf
    have hs : m1.registers = m.registers := hf
    have hrt : ∀ {m2 : Machine}, m2.registers = m.registers → ∀ pcAfter,
        Delivered m.registers (retire m2.registers 0 0 pcAfter) [] :=
      fun h => .retire hr (congrFun h _) (congrFun h _) (by decide)
    simp only [Outcome.bind]
    cases he : effect (.decode raw) m1.registers with
    | regs ws pcAfter =>
      have hfr : ∀ x : RegNum, x = loadReg ∨ x = loadValueReg → ∀ w ∈ ws, w.1 ≠ x := by
        intro x hx w hw
        rcases effect_writes he w hw with e | e | ⟨y, -, e⟩ <;> rw [e]
        · rcases hx with rfl | rfl <;> decide
        · rcases hx with rfl | rfl <;> decide
        · exact gp_ne (by rcases hx with rfl | rfl <;> decide)
      refine Delivered.retire hr ?_ ?_ (by decide) pcAfter
      · rw [writeRegs_apply ws (hfr _ (.inl rfl)), hs]
      · rw [writeRegs_apply ws (hfr _ (.inr rfl)), hs]
    | load addr size rt f =>
      have hrd : (m1.readMem bigEndian addr size).Accesses m.registers := readMem_accesses hs addr size
      simp only [Machine.perform]
      cases hv : m1.readMem bigEndian addr size with
      | raised which m2 => rw [hv] at hrd; exact Delivered.trap hr hrd.choose_spec
      | stop why => trivial
      | done value m2 =>
        rw [hv] at hrd
        have hlt : rt.val < 32 := rt.isLt
        have hto : (BitVec.ofNat 32 rt).toNat = rt := ofNat_toNat (by omega)
        have hz : rt = 0 ↔ BitVec.ofNat 32 rt = 0 := by
          rw [BitVec.toNat_eq, hto, Fin.ext_iff]
          rfl
        simp only [hz]
        exact Delivered.retire hr (congrFun hrd _) (congrFun hrd _) (by rw [hto]; exact rt.isLt) _
    | store addr size value =>
      exact (writeMem_accesses hs addr size value).bind hr fun _ _ h => hrt h _
    | merge addr f =>
      exact (readMem_accesses hs addr 4).bind hr fun _ _ h => (writeMem_accesses h addr 4 _).bind hr fun _ _ h => hrt h _
    | raise which badVAddr =>
      have hrs : (m1.raiseException badVAddr).registers = landed (update m.registers badVAddrReg badVAddr) := by
        rw [← hs]
        rfl
      exact Delivered.trap hr hrs
    | stop why => trivial

end

/-! ## Runs -/

structure RegisterFile where
  sys : Sys
  /-- `SaveUserState` has been called. -/
  saved : Tid → Bool
  /-- History: the loads of the process. -/
  issued : Tid → List Load
  /-- History: the loads that a `DelayedLoad` has put into their registers. -/
  reached : Tid → List Load

namespace RegisterFile

inductive Event where
  | instr
  | due
  | run (nextThread : Tid)
  | fork (t : Tid) (userRegisters : Regs)
  | start (a : SpaceId) (space : AddrSpace) (memory : Memory)
  | writeRegister (r : RegNum) (value : Word)
  | readMem (addr : Word) (size : Nat)
  | writeMem (addr : Word) (size : Nat) (value : Word)

/-- The registers of `WriteRegister` in exception.cc. -/
def written : List RegNum := [2, prevPCReg, pcReg, nextPCReg]

variable (s : RegisterFile)

/-- The `Machine` constructor; the main thread has no program yet. -/
def Boot : Prop :=
  s.sys.registers = (fun _ => 0) ∧ (∀ t, (s.sys.threads t).space = none) ∧ ∀ t, s.saved t = false

/-- The system after a `DelayedLoad`, with the loads that are made. -/
def delayed (sys : Sys) (loads : List Load) : RegisterFile :=
  let t := s.sys.currentThread
  { s with
    sys
    issued := update s.issued t (s.issued t ++ loads)
    reached := update s.reached t (s.reached t ++ reaching s.sys.registers sys.registers) }

def run (nextThread : Tid) : RegisterFile :=
  { s with
    sys := s.sys.run nextThread
    saved := if s.sys.current.space.isSome then update s.saved s.sys.currentThread true else s.saved }

/-- A new `Thread`: its registers are what is in memory. -/
def fork (t : Tid) (userRegisters : Regs) : RegisterFile :=
  { s with
    sys := { s.sys with threads := update s.sys.threads t ⟨userRegisters, none, .kernel⟩ }
    saved := update s.saved t false }

/-- `StartProcess`, after the program is loaded: `InitRegisters` and `RestoreState`. -/
def start (a : SpaceId) (space : AddrSpace) (memory : Memory) : RegisterFile :=
  let t := s.sys.currentThread
  { s with
    sys := { s.sys with
      registers := space.initRegisters
      mainMemory := memory
      pageTable := some a
      pageTableSize := space.numPages
      threads := update s.sys.threads t { s.sys.current with space := some a, mode := .user }
      spaces := update s.sys.spaces a space }
    issued := update s.issued t []
    reached := update s.reached t [] }

/-- An access to the memory of the current process. -/
def access {α : Type} : Outcome α → Except Stop RegisterFile
  | .done _ m => .ok { s with sys := s.sys.putMachine m }
  | .raised _ m => .ok (s.delayed (s.sys.putMachine m) [])
  | .stop why => .error why

/-- An instruction is one of a process; a thread is made once, and starts a program if it has none. -/
def step (bigEndian : Bool) (s : RegisterFile) : Event → Except Stop RegisterFile
  | .instr =>
    if s.sys.current.space.isSome then
      match s.sys.machine.oneInstruction bigEndian with
      | .done _ m | .raised _ m => .ok (s.delayed (s.sys.putMachine m) (s.sys.machine.loads bigEndian))
      | .stop why => .error why
    else .ok s
  | .due => .ok (s.delayed s.sys.checkIfDue [])
  | .run nextThread => .ok (s.run nextThread)
  | .fork t userRegisters =>
    .ok (if t ≠ s.sys.currentThread ∧ (s.sys.threads t).space = none then s.fork t userRegisters else s)
  | .start a space memory => .ok (if s.sys.current.space = none then s.start a space memory else s)
  | .writeRegister r value =>
    .ok (if r ∈ written then { s with sys := { s.sys with registers := update s.sys.registers r value } } else s)
  | .readMem addr size => s.access (s.sys.machine.readMem bigEndian addr size)
  | .writeMem addr size value => s.access (s.sys.machine.writeMem bigEndian addr size value)

def Reached (bigEndian : Bool) : RegisterFile → Prop := Lib.Reach (step bigEndian) (fun _ _ => True) Boot

structure Kept (s : RegisterFile) : Prop where
  machine : RegsOk s.sys.registers
  saved : ∀ t, s.saved t = true → RegsOk (s.sys.threads t).userRegisters
  /-- What `RestoreUserState` finds was saved. -/
  restored : ∀ t, t ≠ s.sys.currentThread → (s.sys.threads t).space.isSome → s.saved t = true
  /-- Each load has reached its register once, or is the one that is pending. -/
  loads : ∀ t, (s.sys.threads t).space.isSome → s.issued t = s.reached t ++ pending (s.sys.userRegs t)

/-! ## System calls -/

variable {bigEndian : Bool} {sys : Sys}

/-- A system call, whatever it does and whatever happens while it waits, changes these registers only. -/
theorem exceptionHandler_writes {W : Type} {sv : Services W} {k k' : KernelState W} (hs : k.sys.current.space.isSome)
    (hr : InCall k.sys.registers) (h : exceptionHandler bigEndian sv .syscallException k = .ok ((), k')) {x : RegNum}
    (hx : x ∉ written) : k'.sys.registers x = k.sys.registers x := by
  have hne : x ≠ 2 ∧ x ≠ prevPCReg ∧ x ≠ pcReg ∧ x ≠ nextPCReg := by simpa [written] using hx
  have hpc : ∀ {k k' : KernelState W}, increasePC k = .ok ((), k') → k'.sys.registers x = k.sys.registers x := by
    intro k k' hpc
    cases hpc
    exact (update_of_ne hne.2.2.2 _ _).trans
      ((update_of_ne hne.2.2.1 _ _).trans (update_of_ne hne.2.1 _ _))
  obtain ⟨type, k0, h0, h⟩ := run_bind.mp h
  cases h0
  simp only at h
  cases hc : Syscall.ofCode (k.sys.registers 2) with
  | none => rw [hc] at h; exact hpc h
  | some call =>
    rw [hc] at h
    obtain ⟨u, k1, hsr, h⟩ := run_bind.mp h
    refine (hpc h).trans ?_
    by_cases hpr : call = .printInt
    · subst hpr
      have hp := printIntFunction_tame sv hsr
      split at hp
      · obtain ⟨k2, h2, hp2⟩ := hp
        exact (hpc hp2).trans ((h2 hs hr).2.2 x hne.1)
      · exact (hp hs hr).2.2 x hne.1
    · exact (serve_tame bigEndian sv hpr _ _ _ hsr hs hr).2.2 x hne.1

/-- PrintInt, while the other process fills the registers with ones. -/
theorem printInt_keeps_argument : ∃ k', exceptionHandler false busyConsole .syscallException (inSyscall (printIntRegs 7)) =
    .ok ((), k') ∧ k'.sys.registers 4 = 7 := by
  obtain ⟨⟨u, k'⟩, h, -⟩ := exists_ok
    (x := exceptionHandler false busyConsole .syscallException (inSyscall (printIntRegs 7))) (fun _ => true) (by decide +kernel)
  exact ⟨k', h, (exceptionHandler_writes rfl (inCall_raiseException ..) h (by decide)).trans (by decide +kernel)⟩

/-! ## Steps -/

section

variable {s : RegisterFile} (h : s.Kept)
include h

/-- The machine's registers change, and the pending load is the same. -/
theorem Kept.registers (hth : sys.threads = s.sys.threads) (hc : sys.currentThread = s.sys.currentThread)
    (hok : RegsOk sys.registers) (hp : pending sys.registers = pending s.sys.registers) :
    Kept { s with sys } := by
  refine ⟨hok, ?_, ?_, fun t ht => ?_⟩
  · simpa only [hth] using h.saved
  · simpa only [hth, hc] using h.restored
  · dsimp only at ht ⊢
    rw [hth] at ht
    have hl := h.loads t ht
    unfold Sys.userRegs at hl ⊢
    rw [hc, hth]
    split
    · rename_i e; rwa [if_pos e, ← hp] at hl
    · rename_i e; rwa [if_neg e] at hl

theorem Kept.delayed {loads : List Load} (hth : sys.threads = s.sys.threads)
    (hc : sys.currentThread = s.sys.currentThread) (hd : Delivered s.sys.registers sys.registers loads) :
    (s.delayed sys loads).Kept := by
  refine ⟨hd.ok, ?_, ?_, fun t ht => ?_⟩
  · simpa only [RegisterFile.delayed, hth] using h.saved
  · simpa only [RegisterFile.delayed, hth, hc] using h.restored
  · simp only [RegisterFile.delayed, hth] at ht ⊢
    have hld := h.loads t ht
    unfold Sys.userRegs at hld ⊢
    rw [hc, hth]
    by_cases e : s.sys.currentThread = t
    · subst e
      have ha : reaching s.sys.registers sys.registers = pending s.sys.registers :=
        List.filter_eq_self.mpr fun l hl => decide_eq_true (hd.holds l hl)
      rw [if_pos rfl] at hld ⊢
      rw [update_self, update_self, ha, hd.made, ← hld]
    · rw [if_neg e] at hld ⊢
      rwa [update_of_ne (Ne.symm e), update_of_ne (Ne.symm e)]

theorem Kept.access {α : Type} {x : Outcome α} (hx : x.Accesses s.sys.registers) {s' : RegisterFile}
    (hok : s.access x = .ok s') : s'.Kept := by
  cases x with
  | done a m =>
    cases hok
    have hs : (s.sys.putMachine m).registers = s.sys.registers := hx
    exact h.registers rfl rfl (hs ▸ h.machine) (by rw [hs])
  | raised which m =>
    cases hok
    exact h.delayed rfl rfl (.trap h.machine hx.choose_spec)
  | stop why => cases hok

theorem Kept.run (n : Tid) : (s.run n).Kept := by
  have hsv : ∀ t, (s.run n).saved t = true → RegsOk ((s.run n).sys.threads t).userRegisters := by
    intro t ht
    simp only [RegisterFile.run] at ht ⊢
    rw [Sys.run_threads]
    split
    · exact h.machine
    rename_i hne
    refine h.saved t ?_
    split at ht
    · rename_i hs
      rwa [update_of_ne fun e => hne ⟨e, hs⟩] at ht
    · exact ht
  have hrs : ∀ t, (s.sys.threads t).space.isSome → (s.run n).saved t = true := by
    intro t ht
    simp only [RegisterFile.run]
    by_cases e : t = s.sys.currentThread
    · subst e
      rw [if_pos (by exact ht), update_self]
    · split
      · rw [update_of_ne e]; exact h.restored t e ht
      · exact h.restored t e ht
  refine ⟨?_, hsv, fun t _ ht => hrs t (by rwa [RegisterFile.run, Sys.run_space] at ht), fun t ht => ?_⟩
  · cases hn : (s.sys.threads n).space with
    | none =>
      have hsm : (s.sys.run n).registers = s.sys.registers := by
        have hsp := Sys.run_space s.sys n n
        rw [hn] at hsp
        revert hsp
        unfold Sys.run
        dsimp only
        split <;> dsimp only <;> split <;> intro hsp <;> simp_all [Sys.current]
      exact hsm ▸ h.machine
    | some a =>
      have hl : (s.run n).sys.registers = ((s.run n).sys.threads n).userRegisters := (Sys.run_loaded s.sys hn).2.2
      rw [hl]
      exact hsv n (hrs n (by rw [hn]; rfl))
  · simp only [RegisterFile.run, Sys.run_space] at ht ⊢
    obtain ⟨a, ha⟩ := Option.isSome_iff_exists.mp ht
    rw [Sys.run_userRegs s.sys n ha]
    exact h.loads t ht

theorem Kept.fork {t : Tid} (hne : t ≠ s.sys.currentThread) (userRegisters : Regs) : (s.fork t userRegisters).Kept := by
  have ho : ∀ {u}, ((s.fork t userRegisters).sys.threads u).space.isSome ∨ (s.fork t userRegisters).saved u = true → u ≠ t := by
    rintro u hu rfl
    simp [RegisterFile.fork] at hu
  refine ⟨h.machine, fun u hu => ?_, fun u hc hu => ?_, fun u hu => ?_⟩
  · have e := ho (.inr hu)
    simp only [RegisterFile.fork, update_of_ne e] at hu ⊢
    exact h.saved u hu
  · have e := ho (.inl hu)
    simp only [RegisterFile.fork, update_of_ne e] at hu ⊢
    exact h.restored u hc hu
  · have e := ho (.inl hu)
    simp only [RegisterFile.fork, Sys.userRegs, update_of_ne e] at hu ⊢
    exact h.loads u hu

theorem Kept.start (a : SpaceId) (space : AddrSpace) (memory : Memory) : (s.start a space memory).Kept := by
  have hin : ∀ x, x ≠ stackReg → x ≠ nextPCReg → space.initRegisters x = 0 := by
    intro x h1 h2
    simp [AddrSpace.initRegisters, h1, h2]
  have hl : space.initRegisters loadReg = 0 := hin _ (by decide) (by decide)
  have hok : RegsOk space.initRegisters := ⟨hin _ (by decide) (by decide), by rw [hl]; decide⟩
  refine ⟨hok, fun u hu => ?_, fun u hc hu => ?_, fun u hu => ?_⟩
  · simp only [RegisterFile.start, update_apply]
    split
    · rename_i e; subst e; exact h.saved _ hu
    · exact h.saved u hu
  · have hc : u ≠ s.sys.currentThread := hc
    simp only [RegisterFile.start, update_of_ne hc] at hu
    exact h.restored u hc hu
  · simp only [RegisterFile.start, Sys.userRegs]
    by_cases e : s.sys.currentThread = u
    · subst e
      simp [pending, hl]
    simp only [RegisterFile.start, update_of_ne (Ne.symm e)] at hu ⊢
    have hld := h.loads u hu
    rw [Sys.userRegs, if_neg e] at hld
    rwa [if_neg e]

end

theorem Kept.step {s s' : RegisterFile} (h : s.Kept) {e : Event} (hs : s.step bigEndian e = .ok s') : s'.Kept := by
  cases e with
  | instr =>
    simp only [RegisterFile.step] at hs
    split at hs
    · have hd := @oneInstruction_delivers bigEndian s.sys.machine h.machine
      cases ho : s.sys.machine.oneInstruction bigEndian with
      | done u m => rw [ho] at hs hd; cases hs; exact h.delayed rfl rfl hd
      | raised which m => rw [ho] at hs hd; cases hs; exact h.delayed rfl rfl hd
      | stop why => rw [ho] at hs; cases hs
    · cases hs; exact h
  | due => cases hs; exact h.delayed rfl rfl (.landed h.machine)
  | run nextThread => cases hs; exact h.run nextThread
  | fork t userRegisters =>
    cases hs
    split
    · rename_i hn; exact h.fork hn.1 userRegisters
    · exact h
  | start a space memory =>
    cases hs
    split
    · exact h.start a space memory
    · exact h
  | writeRegister r value =>
    cases hs
    split
    · rename_i hr
      have hot : ∀ x, x = 0 ∨ x = loadReg ∨ x = loadValueReg → update s.sys.registers r value x = s.sys.registers x := by
        intro x hx
        refine update_of_ne ?_ _ _
        rintro rfl
        revert hr
        rcases hx with rfl | rfl | rfl <;> decide
      have hl := hot _ (.inr (.inl rfl))
      refine h.registers rfl rfl ⟨(hot _ (.inl rfl)).trans h.machine.zero, ?_⟩ ?_
      · exact Nat.lt_of_le_of_lt (Nat.le_of_eq (congrArg BitVec.toNat hl)) h.machine.load
      · simp only [pending, hl, hot _ (.inr (.inr rfl))]
    · exact h
  | readMem addr size => exact h.access (readMem_accesses rfl addr size) hs
  | writeMem addr size value => exact h.access (writeMem_accesses rfl addr size value) hs

/-- In every state of a run. -/
theorem register_file_kept {bigEndian : Bool} {s : RegisterFile} (h : Reached bigEndian s) : s.Kept := by
  refine Reach.inv ?_ (fun s e s' hs _ hstep => hs.step hstep) h
  rintro s ⟨hregs, hspace, hsaved⟩
  have hnone : ∀ t, ¬ (s.sys.threads t).space.isSome = true := by simp [hspace]
  refine ⟨⟨by rw [hregs], by rw [hregs]; decide⟩, fun t ht => ?_, fun t _ ht => absurd ht (hnone t), fun t ht => absurd ht (hnone t)⟩
  rw [hsaved] at ht
  cases ht

def booted : RegisterFile where
  sys :=
    { registers := fun _ => 0, mainMemory := fun _ => 0, pageTable := none, pageTableSize := 0, currentThread := 0,
      threads := fun _ => ⟨fun _ => 7, none, .kernel⟩, spaces := fun _ => ⟨[], 0⟩ }
  saved := fun _ => false
  issued := fun _ => []
  reached := fun _ => []

/-- A program of one page starts, runs `lw $4, 64($0)` and is switched out for an interrupt in another thread. -/
def switching : List Event :=
  [.start 0 ⟨[freshEntry 0 0], 1⟩ fun a => if a = 64 then 42 else [0x40, 0x00, 0x04, 0x8c].getD a 0, .instr,
    .fork 1 fun _ => 9, .run 1, .due, .run 0]

/-- The load is still pending when the process is back. -/
theorem load_pending_across_switch : ∃ s, Reached false s ∧ s.Kept ∧ s.issued 0 = [(4, 42)] ∧ s.reached 0 = [] := by
  have hboot : Boot booted := ⟨rfl, fun _ => rfl, fun _ => rfl⟩
  obtain ⟨s, hs, htest⟩ := exists_reach (step false) (fun _ _ => true) switching
    (fun s => s.issued 0 = [(4, 42)] ∧ s.reached 0 = []) hboot (by decide +kernel)
  have hreached : Reached false s := hs.mono fun _ _ _ => trivial
  exact ⟨s, hreached, register_file_kept hreached, of_decide_eq_true htest⟩

end RegisterFile

end Nachos

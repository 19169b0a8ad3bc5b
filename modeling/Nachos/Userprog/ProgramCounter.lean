/-
  Nachos.Userprog.ProgramCounter — a system call moves the program counter on by one
  instruction and changes no general register but r2.

  While a process is in a system call no load is pending in its registers (`InCall`): the
  trap has landed it. So the interrupts that come meanwhile do not change them, and
  `Scheduler::Run` saves and restores them around whatever other threads do.
  - `interfere_userRegs`: a process that waits in the kernel finds its registers again.
-/

import Nachos.Userprog.Exception

namespace Nachos

open Lib
open Function (update update_of_ne)

/-! ## Registers without a pending load -/

/-- What the trap leaves: no load is pending. -/
structure InCall (r : Regs) : Prop where
  zero : r 0 = 0
  loadReg : r loadReg = 0
  loadValue : r loadValueReg = 0

variable (m : Machine)

theorem inCall_raiseException (badVAddr : Word) : InCall (m.raiseException badVAddr).registers := by
  refine ⟨?_, ?_, ?_⟩ <;> simp [Machine.raiseException, landed, delayedLoad_apply, loadReg, loadValueReg]

theorem InCall.landed {r : Regs} (h : InCall r) : landed r = r := by
  funext x
  rw [Nachos.landed, delayedLoad_apply, h.loadReg, h.loadValue]
  split
  · rename_i e; rw [e, h.zero]
  split
  · rename_i e; rw [e, h.loadValue]
  split
  · rename_i e; rw [e, h.loadReg]
  · rename_i h0 _ _
    rw [if_neg (show ¬ x.val = (0 : Word).toNat from fun e => h0 (Fin.ext e))]

theorem InCall.congr {r r' : Regs} (h : InCall r) (heq : ∀ x, x ≠ 2 → r' x = r x) : InCall r' :=
  ⟨by rw [heq 0 (by decide)]; exact h.zero, by rw [heq _ (by decide)]; exact h.loadReg,
    by rw [heq _ (by decide)]; exact h.loadValue⟩

/-! ## Waiting in the kernel -/

namespace Sys

variable {s : Sys} {p : Tid} {r : Regs}

/-- Process `p`, wherever it waits, has registers `r`. -/
structure Parked (p : Tid) (r : Regs) (s : Sys) : Prop where
  space : (s.threads p).space.isSome
  regs : s.userRegs p = r

theorem Parked.run (h : Parked p r s) (next : Tid) : Parked p r (s.run next) := by
  obtain ⟨a, ha⟩ := Option.isSome_iff_exists.mp h.space
  exact ⟨by rw [run_space]; exact h.space, by rw [run_userRegs s next ha]; exact h.regs⟩

theorem Parked.checkIfDue (hr : InCall r) (h : Parked p r s) : Parked p r s.checkIfDue := by
  refine ⟨h.space, ?_⟩
  rw [checkIfDue_userRegs, h.regs]
  split
  · exact hr.landed
  · rfl

theorem Parked.oneTick (hr : InCall r) (h : Parked p r s) (due : List Interrupt) (next : Option Tid) :
    Parked p r (s.oneTick due next) := by
  have hd : ∀ (l : List Interrupt) {s : Sys}, Parked p r s → Parked p r (l.foldl (fun s _ => s.checkIfDue) s) := by
    intro l
    induction l with
    | nil => intro s h; exact h
    | cons i l ih => intro s h; exact ih (h.checkIfDue hr)
  unfold Sys.oneTick
  dsimp only
  split
  · cases next with
    | none => exact hd due h
    | some n => exact (hd due h).run n
  · exact hd due h

theorem interfere_userRegs (hr : InCall r) (h : Parked p r s) (i : Interference) : Parked p r (s.interfere p i) := by
  cases i with
  | tick due next => exact h.oneTick hr due next
  | switch next => exact h.run next
  | others f =>
    simp only [interfere]
    split
    · exact h
    rename_i hne
    obtain ⟨hs, hf⟩ := not_or.mp hne
    have hrg := h.regs
    rw [userRegs, if_neg hs] at hrg
    refine ⟨?_, ?_⟩
    · simpa using h.space
    · rw [userRegs, if_neg hf]
      simpa using hrg

theorem interfere_all_userRegs (hr : InCall r) (is : List Interference) : ∀ {s : Sys}, Parked p r s →
    Parked p r (is.foldl (interfere p) s) := by
  induction is with
  | nil => intro s h; exact h
  | cons i is ih => intro s h; exact ih (interfere_userRegs hr h i)

end Sys

/-! ## Accesses to memory -/

/-- The access, when it completes, leaves the registers alone. -/
def Outcome.Calm {α : Type} (m : Machine) : Outcome α → Prop
  | .done _ m' => m'.registers = m.registers
  | _ => True

theorem Outcome.Calm.bind {α β : Type} {m : Machine} {x : Outcome α} {f : α → Machine → Outcome β} (hx : x.Calm m)
    (hf : ∀ a m', (f a m').Calm m') : (x.bind f).Calm m := by
  cases x with
  | done a m' =>
    have h := hf a m'
    simp only [Outcome.bind]
    cases hr : f a m' with
    | done b m'' => rw [hr] at h; exact Eq.trans h hx
    | raised which m'' => trivial
    | stop why => trivial
  | raised which m' => trivial
  | stop why => trivial

section

variable {bigEndian : Bool}

theorem readMem_calm (addr : Word) (size : Nat) : (m.readMem bigEndian addr size).Calm m := by
  unfold Machine.readMem
  cases ht : m.translate addr size false with
  | exception which => trivial
  | stop why => trivial
  | ok pa m' =>
    dsimp only
    split
    · exact translate_registers ht
    · trivial

theorem writeMem_calm (addr : Word) (size : Nat) (value : Word) :
    (m.writeMem bigEndian addr size value).Calm m := by
  unfold Machine.writeMem
  cases ht : m.translate addr size true with
  | exception which => trivial
  | stop why => trivial
  | ok pa m' =>
    dsimp only
    split
    · exact (translate_registers ht : m'.registers = m.registers)
    · trivial

theorem copyIn_calm (n : Nat) : ∀ (m : Machine) (virtAddr : Word), (m.copyIn bigEndian virtAddr n).Calm m := by
  induction n with
  | zero => intro m virtAddr; rfl
  | succ n ih =>
    intro m virtAddr
    refine (readMem_calm m virtAddr 1).bind fun c m' => ?_
    split
    · rfl
    · exact (ih m' _).bind fun _ _ => rfl

theorem user2System_calm (virtAddr limit : Word) : (m.user2System bigEndian virtAddr limit).Calm m := by
  unfold Machine.user2System
  split
  · trivial
  · exact (copyIn_calm _ m virtAddr).bind fun _ _ => rfl

theorem copyOut_calm (bytes : List Byte) : ∀ (m : Machine) (virtAddr : Word), (m.copyOut bigEndian virtAddr bytes).Calm m := by
  induction bytes with
  | nil => intro m virtAddr; rfl
  | cons b rest ih =>
    intro m virtAddr
    refine (writeMem_calm m virtAddr 1 _).bind fun _ m' => ?_
    split
    · rfl
    · exact (ih m' _).bind fun _ _ => rfl

theorem system2User_calm (virtAddr len : Word) (buffer : List Byte) :
    (m.system2User bigEndian virtAddr len buffer).Calm m := by
  unfold Machine.system2User
  split
  · rfl
  · exact (copyOut_calm _ m virtAddr).bind fun _ _ => rfl

end

/-! ## Arithmetic of the calls -/

/-- Only the least `int` is still negative after `num*=-1`. -/
theorem slt_mul_neg_one {num : Word} (h : num.slt 0 = true) : (num * -1).slt 0 = true ↔ num = 0x80000000 := by
  rw [BitVec.mul_neg, show num * 1 = num from BitVec.mul_one num]
  rw [negative_iff] at h ⊢
  constructor
  · intro h'
    bv_omega
  · intro e
    rw [e]
    decide

theorem ne_add_four (w : Word) : w ≠ w + 4 := by
  intro e
  bv_omega

variable {call : Syscall}

theorem Syscall.code_ofCode {type : Word} (h : Syscall.ofCode type = some call) : call.code = type := by
  have := List.find?_some h
  simpa using this

theorem Syscall.ofCode_code (call : Syscall) : Syscall.ofCode call.code = some call := by cases call <;> decide

theorem Syscall.eq_printInt (h : call.code = Syscall.printInt.code) : call = .printInt := by
  cases call <;> first | rfl | exact absurd h (by decide)

/-! ## What the steps of a handler keep -/

variable {W α β : Type}

/-- The same process runs, and of its registers at most r2 has changed. -/
def OnlyR2 (k k' : KernelState W) : Prop :=
  k.sys.current.space.isSome → InCall k.sys.registers →
    k'.sys.current.space.isSome ∧ k'.sys.currentThread = k.sys.currentThread ∧
    ∀ x, x ≠ 2 → k'.sys.registers x = k.sys.registers x

theorem OnlyR2.refl (k : KernelState W) : OnlyR2 k k := fun hs _ => ⟨hs, rfl, fun _ _ => rfl⟩

theorem OnlyR2.trans (k1 k2 k3 : KernelState W) (h : OnlyR2 k1 k2) (h' : OnlyR2 k2 k3) : OnlyR2 k1 k3 := by
  intro hs hr
  obtain ⟨hs2, ht2, hx2⟩ := h hs hr
  obtain ⟨hs3, ht3, hx3⟩ := h' hs2 (hr.congr hx2)
  exact ⟨hs3, ht3.trans ht2, fun x hx => (hx3 x hx).trans (hx2 x hx)⟩

/-- The handler, when it returns, has changed no register but r2. -/
abbrev Tame (x : Handler W α) : Prop := Lib.Keeps OnlyR2 x

theorem Tame.pure (a : α) : Tame (Pure.pure a : Handler W α) := Keeps.pure OnlyR2.refl a

theorem Tame.bind {x : Handler W α} {f : α → Handler W β} (hx : Tame x) (hf : ∀ a, Tame (f a)) : Tame (x >>= f) :=
  Keeps.bind OnlyR2.trans hx hf

theorem Tame.gone (why : Gone) : Tame (fun _ => .error why : Handler W α) := by
  intro k a k' h
  cases h

namespace Handler

theorem readRegister_tame (r : RegNum) : Tame (readRegister r : Handler W Word) := by
  intro k a k' h
  cases h
  exact OnlyR2.refl k

theorem answer_tame (value : Word) : Tame (answer value : Handler W Unit) := by
  intro k a k' h hs hr
  cases h
  exact ⟨hs, rfl, fun x hx => update_of_ne hx ..⟩

theorem answerIf_tame (value : Option Word) : Tame (answerIf value : Handler W Unit) := by
  cases value with
  | some value => exact answer_tame value
  | none => exact Tame.pure ()

theorem onFiles_tame (call : Stub.FileSystem → Except Stop (α × Stub.FileSystem)) : Tame (onFiles call : Handler W α) := by
  intro k a k' h
  simp only [onFiles] at h
  split at h
  · cases h; exact OnlyR2.refl k
  · cases h

theorem onMachine_tame {access : Machine → Outcome α} (hc : ∀ m, (access m).Calm m) :
    Tame (onMachine access : Handler W α) := by
  intro k a k' h
  simp only [onMachine] at h
  have hm := hc k.sys.machine
  split at h
  · rename_i a' m ha
    cases h
    rw [ha] at hm
    exact fun hs _ => ⟨hs, rfl, fun x _ => congrFun hm x⟩
  · split at h <;> cases h
  · cases h

theorem await_tame (call : W → Option (Reply W α)) : Tame (await call : Handler W α) := by
  intro k a k' h hs hr
  simp only [await] at h
  split at h
  · cases h
  rename_i reply _
  split at h
  · rename_i hb
    cases h
    have hp : Sys.Parked k.sys.currentThread k.sys.registers k.sys := ⟨hs, by rw [Sys.userRegs, if_pos rfl]⟩
    have ha := Sys.interfere_all_userRegs hr reply.meanwhile hp
    refine ⟨?_, hb, fun x _ => ?_⟩
    · rw [Sys.current, hb]; exact ha.space
    · have := ha.regs
      rw [Sys.userRegs, if_pos hb] at this
      exact congrFun this x
  · cases h

end Handler

/-! ## The handlers -/

open Handler

section

variable (bigEndian : Bool) (sv : Services W)

theorem readConsole_tame (numBytes : Word) : Tame (readConsole sv numBytes) := by
  refine (await_tame _).bind fun r => ?_
  dsimp only
  split
  · exact (onFiles_tame _).bind fun _ => Tame.pure _
  · exact (Tame.pure _).bind fun _ => Tame.pure _

theorem writeConsole_tame (bytes : List Byte) : Tame (writeConsole sv bytes) :=
  (await_tame _).bind fun _ => onFiles_tame _

theorem userName_tame (virtualAddr limit : Word) : Tame (userName bigEndian virtualAddr limit : Handler W (List Byte)) :=
  (onMachine_tame fun m => user2System_calm m virtualAddr limit).bind fun _ => Tame.pure _

theorem readCharFunction_tame : Tame (readCharFunction sv) := by
  refine (readConsole_tame sv _).bind fun r => ?_
  -- `if c then answer 0` and what follows it
  have hif : ∀ {c : Prop} [Decidable c] {rest : Unit → Handler W Unit}, Tame (rest ()) →
      Tame (if c then answer 0 >>= rest else rest ()) :=
    fun h => Keeps.ite ((answer_tame 0).bind fun _ => h) h
  exact hif (hif (Keeps.ite (answer_tame _) (Tame.pure _)))

theorem readStringFunction_tame : Tame (readStringFunction bigEndian sv) := by
  refine (readRegister_tame 4).bind fun virtualAddr => (readRegister_tame 5).bind fun length => ?_
  refine (onMachine_tame fun m => user2System_calm m virtualAddr length).bind fun buffer => ?_
  refine (readConsole_tame sv length).bind fun r => ?_
  exact (onMachine_tame fun m => system2User_calm m virtualAddr length _).bind fun _ => Tame.pure ()

theorem printStringFunction_tame : Tame (printStringFunction bigEndian sv) := by
  refine (readRegister_tame 4).bind fun virtualAddr => ?_
  exact (onMachine_tame fun m => user2System_calm m virtualAddr _).bind fun _ => writeConsole_tame sv _

theorem createFileFunction_tame : Tame (createFileFunction bigEndian : Handler W Unit) := by
  refine (readRegister_tame 4).bind fun virtualAddr => (userName_tame bigEndian virtualAddr _).bind fun name => ?_
  exact (onFiles_tame _).bind fun value => answer_tame value

theorem openFunction_tame : Tame (openFunction bigEndian : Handler W Unit) := by
  refine (readRegister_tame 4).bind fun virtualAddr => (userName_tame bigEndian virtualAddr _).bind fun name => ?_
  refine (readRegister_tame 5).bind fun type => ?_
  exact (onFiles_tame _).bind fun value => answerIf_tame value

theorem closeFunction_tame : Tame (closeFunction : Handler W Unit) :=
  (readRegister_tame 4).bind fun _ => (onFiles_tame _).bind fun value => answer_tame value

theorem seekFunction_tame : Tame (seekFunction : Handler W Unit) :=
  (readRegister_tame 4).bind fun _ => (readRegister_tame 5).bind fun _ =>
    (onFiles_tame _).bind fun value => answerIf_tame value

theorem readFunction_tame : Tame (readFunction bigEndian sv) := by
  refine (readRegister_tame 4).bind fun virtualAddr => (readRegister_tame 5).bind fun charcount => ?_
  refine (readRegister_tame 6).bind fun id => (onFiles_tame _).bind fun slot => ?_
  cases slot with
  | none => exact answer_tame _
  | some file =>
    refine Keeps.ite (answer_tame _) ((onFiles_tame _).bind fun oldPos => ?_)
    refine (onMachine_tame fun m => user2System_calm m virtualAddr charcount).bind fun buffer => Keeps.ite ?_ ?_
    · refine (readConsole_tame sv charcount).bind fun r => ?_
      exact (onMachine_tame fun m => system2User_calm m virtualAddr _ _).bind fun _ => answer_tame _
    · refine (onFiles_tame _).bind fun r => Keeps.ite ((onFiles_tame _).bind fun newPos => ?_) (answer_tame _)
      exact (onMachine_tame fun m => system2User_calm m virtualAddr _ _).bind fun _ => answer_tame _

theorem writeLine_tame (buffer : List Byte) : Tame (writeLine sv buffer) := by
  induction buffer with
  | nil => exact Tame.gone _
  | cons b rest ih =>
    exact Keeps.ite ((writeConsole_tame sv _).bind fun _ => ih.bind fun _ => Tame.pure _) (Tame.pure _)

theorem writeFunction_tame : Tame (writeFunction bigEndian sv) := by
  refine (readRegister_tame 4).bind fun virtualAddr => (readRegister_tame 5).bind fun charcount => ?_
  refine (readRegister_tame 6).bind fun id => (onFiles_tame _).bind fun slot => ?_
  cases slot with
  | none => exact answer_tame _
  | some file =>
    refine Keeps.ite (answer_tame _) ((onFiles_tame _).bind fun oldPos => ?_)
    refine (onMachine_tame fun m => user2System_calm m virtualAddr charcount).bind fun buffer => Keeps.ite ?_ ?_
    · exact (onFiles_tame _).bind fun n => Keeps.ite ((onFiles_tame _).bind fun _ => answer_tame _) (Tame.pure ())
    · exact (writeLine_tame sv buffer).bind fun i => (writeConsole_tame sv _).bind fun _ => answer_tame _

theorem execFunction_tame : Tame (execFunction bigEndian sv) := by
  refine (readRegister_tame 4).bind fun virtualAddr => (userName_tame bigEndian virtualAddr _).bind fun name => ?_
  refine (onFiles_tame _).bind fun file => ?_
  cases file with
  | none => exact answer_tame _
  | some ino => exact (await_tame _).bind fun id => (answer_tame id).bind fun _ => onFiles_tame _

theorem exitFunction_tame : Tame (exitFunction sv) := by
  refine (readRegister_tame 4).bind fun status => Keeps.ite (Tame.pure ()) ?_
  exact (await_tame _).bind fun code => (answer_tame code).bind fun _ => Tame.gone _

theorem semaphoreFunction_tame (call : List Byte → W → Option (Reply W Word)) : Tame (semaphoreFunction bigEndian call) := by
  refine (readRegister_tame 4).bind fun virtualAddr => (userName_tame bigEndian virtualAddr _).bind fun name => ?_
  exact (await_tame _).bind fun result => answer_tame result

/-- Every handler but PrintInt's leaves all registers but r2 alone. -/
theorem serve_tame (hne : call ≠ .printInt) : Tame (serve bigEndian sv call) := by
  cases call with
  | halt => exact Tame.gone _
  | exit => exact exitFunction_tame sv
  | exec => exact execFunction_tame bigEndian sv
  | join => exact (readRegister_tame 4).bind fun _ => (await_tame _).bind fun code => answer_tame code
  | openFile => exact openFunction_tame bigEndian
  | read => exact readFunction_tame bigEndian sv
  | write => exact writeFunction_tame bigEndian sv
  | close => exact closeFunction_tame
  | readInt => exact (readConsole_tame sv _).bind fun _ => answer_tame _
  | printInt => exact absurd rfl hne
  | readChar => exact readCharFunction_tame sv
  | printChar => exact (readRegister_tame 4).bind fun _ => writeConsole_tame sv _
  | readString => exact readStringFunction_tame bigEndian sv
  | printString => exact printStringFunction_tame bigEndian sv
  | createFile => exact createFileFunction_tame bigEndian
  | createSemaphore => exact (readRegister_tame 5).bind fun _ => semaphoreFunction_tame bigEndian _
  | wait => exact semaphoreFunction_tame bigEndian _
  | signal => exact semaphoreFunction_tame bigEndian _
  | seek => exact seekFunction_tame
  | sub => exact (readRegister_tame 4).bind fun _ => (readRegister_tame 5).bind fun _ => answer_tame _

/-- PrintInt leaves them alone too, and then moves the program counter if the number is the
    least `int`. -/
theorem printIntFunction_tame {k k' : KernelState W} (h : printIntFunction sv k = .ok ((), k')) :
    if k.sys.registers 4 = 0x80000000 then ∃ k1, OnlyR2 k k1 ∧ increasePC k1 = .ok ((), k') else OnlyR2 k k' := by
  obtain ⟨num, k1, h1, h⟩ := run_bind.mp h
  cases h1
  generalize hnm : k.sys.registers 4 = num at h ⊢
  by_cases h0 : num = 0
  · rw [if_pos h0] at h
    rw [if_neg (by rw [h0]; decide)]
    exact writeConsole_tame sv _ _ _ _ h
  · rw [if_neg h0] at h
    obtain ⟨garbage, k1, h1, h⟩ := run_bind.mp h
    cases h1
    split at h
    · rename_i hn
      by_cases hm : num = 0x80000000
      · rw [if_pos hm]
        rw [if_pos (by rw [hm]; decide)] at h
        obtain ⟨u, k1, h1, h⟩ := run_bind.mp h
        exact ⟨k1, writeConsole_tame sv _ _ _ _ h1, h⟩
      · rw [if_neg hm]
        split at h
        · rename_i hn'
          exact absurd ((slt_mul_neg_one hn).mp hn') hm
        · exact writeConsole_tame sv _ _ _ _ h
    · rename_i hp
      rw [if_neg (by intro e; rw [e] at hp; exact hp (by decide))]
      exact writeConsole_tame sv _ _ _ _ h

theorem increasePC_eq {k k' : KernelState W} (h : increasePC k = .ok ((), k')) :
    k'.sys.registers pcReg = k.sys.registers nextPCReg ∧ k'.sys.registers nextPCReg = k.sys.registers nextPCReg + 4 ∧
    (∀ r : Fin numGPRegs, k'.sys.registers (gp r) = k.sys.registers (gp r)) := by
  have hr : k'.sys.registers = update (update (update k.sys.registers prevPCReg
      (k.sys.registers pcReg)) pcReg (k.sys.registers nextPCReg)) nextPCReg (k.sys.registers nextPCReg + 4) := by
    cases h; rfl
  rw [hr]
  refine ⟨by simp [pcReg, nextPCReg], by simp, fun r => ?_⟩
  have hne : ∀ x : RegNum, numGPRegs ≤ x.val → gp r ≠ x :=
    fun x hx e => absurd (congrArg Fin.val e) (Nat.ne_of_lt (Nat.lt_of_lt_of_le r.isLt hx))
  rw [update_of_ne (hne _ (by decide)), update_of_ne (hne _ (by decide)),
    update_of_ne (hne _ (by decide))]

/-! ## The law -/

/-- The program counter has moved on by one instruction, and no general register but r2 has
    changed. -/
def AdvancedOnce (r r' : Regs) : Prop :=
  r' pcReg = r nextPCReg ∧ r' nextPCReg = r nextPCReg + 4 ∧ ∀ x : Fin numGPRegs, x ≠ 2 → r' (gp x) = r (gp x)

theorem gp_ne_two {x : Fin numGPRegs} (hx : x ≠ 2) : gp x ≠ 2 := by
  intro e
  have hv : (gp x).val = (2 : RegNum).val := congrArg Fin.val e
  exact hx (Fin.ext hv)

theorem AdvancedOnce.of_tame {k k1 k' : KernelState W} (hs : k.sys.current.space.isSome) (hr : InCall k.sys.registers)
    (h1 : OnlyR2 k k1) (h : increasePC k1 = .ok ((), k')) : AdvancedOnce k.sys.registers k'.sys.registers := by
  obtain ⟨hpc, hn, hgp⟩ := increasePC_eq h
  obtain ⟨-, -, hx⟩ := h1 hs hr
  rw [hx nextPCReg (by decide)] at hpc hn
  exact ⟨hpc, hn, fun x hx2 => (hgp x).trans (hx _ (gp_ne_two hx2))⟩

/-- A system call that returns has moved the program counter on by one instruction and
    changed no general register but r2, whatever the registers were at the trap and whatever
    other threads did while it waited, except PrintInt of the least `int`. -/
theorem pc_advanced_once {m : Machine} {k k' : KernelState W} (hs : k.sys.current.space.isSome)
    (htrap : k.sys.registers = (m.raiseException 0).registers)
    (h : exceptionHandler bigEndian sv .syscallException k = .ok ((), k')) :
    AdvancedOnce k.sys.registers k'.sys.registers ↔
      ¬ (k.sys.registers 2 = Syscall.printInt.code ∧ k.sys.registers 4 = 0x80000000) := by
  have hr : InCall k.sys.registers := htrap ▸ inCall_raiseException m 0
  obtain ⟨type, k₀, h₀, h⟩ := run_bind.mp h
  cases h₀
  simp only at h
  cases hcall : Syscall.ofCode (k.sys.registers 2) with
  | none =>
    have hpc : increasePC k = .ok ((), k') := by rw [hcall] at h; exact h
    refine iff_of_true (.of_tame hs hr (OnlyR2.refl k) hpc) fun hbad => ?_
    rw [hbad.1] at hcall
    cases hcall
  | some call =>
    rw [hcall] at h
    obtain ⟨u, k₁, hserve, hpc⟩ := run_bind.mp h
    have hcode := Syscall.code_ofCode hcall
    by_cases hprint : call = .printInt
    · subst hprint
      have := printIntFunction_tame sv hserve
      by_cases hmin : k.sys.registers 4 = 0x80000000
      · rw [if_pos hmin] at this
        obtain ⟨k₂, h₂, hpc₂⟩ := this
        refine iff_of_false ?_ fun hbad => hbad ⟨hcode.symm, hmin⟩
        -- the second `IncreasePC` goes on from the first
        intro hlaw
        have hnext := (AdvancedOnce.of_tame hs hr h₂ hpc₂).2.1
        have hpc' := (increasePC_eq hpc).1
        rw [hlaw.1, hnext] at hpc'
        exact absurd hpc' (ne_add_four _)
      · rw [if_neg hmin] at this
        exact iff_of_true (.of_tame hs hr this hpc) fun hbad => hmin hbad.2
    · refine iff_of_true (.of_tame hs hr (serve_tame bigEndian sv hprint _ _ _ hserve) hpc) fun hbad => hprint ?_
      exact Syscall.eq_printInt (hcode.trans hbad.1)

end

/-! ## Two processes at the console -/

/-- Process 0 in a system call with registers `r`; process 1 has registers of its own. -/
def inSyscall (r : Regs) : KernelState Unit where
  sys :=
    { registers := ((⟨r, fun _ => 0, none, none, 0⟩ : Machine).raiseException 0).registers
      mainMemory := fun _ => 0, pageTable := some 0, pageTableSize := 0, currentThread := 0
      threads := fun t => ⟨fun _ => BitVec.ofNat 32 t, some t, .kernel⟩
      spaces := fun _ => ⟨[], 0⟩ }
  files := ⟨fun _ => none, ⟨fun _ => none, 0, fun _ => [], [], fun _ => Nat.zero_le _⟩, []⟩
  world := ()

/-- Every service answers at once, but while the console writes process 1 runs and fills the
    registers with ones. -/
def busyConsole : Services Unit where
  consoleRead := fun _ _ => some ⟨([], 0), [], (inSyscall fun _ => 0).files, ()⟩
  consoleWrite := fun _ _ => some ⟨(), [.switch 1, .others ({ · with registers := fun _ => 1 }), .tick [.timer] (some 0)],
    (inSyscall fun _ => 0).files, ()⟩
  execUpdate := fun _ _ => none
  joinUpdate := fun _ _ => none
  exitUpdate := fun _ _ => none
  semCreate := fun _ _ _ => none
  semWait := fun _ _ => none
  semSignal := fun _ _ => none
  garbage := fun _ _ => 0

/-- Registers of a call of PrintInt, with the program counter in a branch's delay slot. -/
def printIntRegs (n : Word) : Regs := fun x => if x = 2 then 12 else if x = 4 then n else if x = nextPCReg then 400 else 20

theorem pc_advanced_after_waiting : ∃ k', exceptionHandler false busyConsole .syscallException (inSyscall (printIntRegs 7)) =
    .ok ((), k') ∧ AdvancedOnce (inSyscall (printIntRegs 7)).sys.registers k'.sys.registers := by
  obtain ⟨⟨u, k'⟩, h, -⟩ := exists_ok
    (x := exceptionHandler false busyConsole .syscallException (inSyscall (printIntRegs 7))) (fun _ => true) (by decide +kernel)
  exact ⟨k', h, (pc_advanced_once false busyConsole rfl rfl h).mpr (by decide +kernel)⟩

/-- PrintInt of the least `int` skips an instruction. -/
theorem pc_advanced_twice : ∃ k', exceptionHandler false busyConsole .syscallException (inSyscall (printIntRegs 0x80000000)) =
    .ok ((), k') ∧ (inSyscall (printIntRegs 0x80000000)).sys.registers nextPCReg = 400 ∧ k'.sys.registers pcReg = 404 := by
  obtain ⟨⟨u, k'⟩, h, ht⟩ := exists_ok
    (x := exceptionHandler false busyConsole .syscallException (inSyscall (printIntRegs 0x80000000)))
    (fun x => x.2.sys.registers pcReg == 404) (by decide +kernel)
  exact ⟨k', h, by decide +kernel, by simpa using ht⟩

end Nachos

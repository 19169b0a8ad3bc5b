/-
  Nachos.Userprog.FileReturns — which file system calls return, and which of them say what they did.

  A call stops the machine when the host refuses what an ASSERT of `sysdep.cc` insists on, when a
  byte of the process's memory cannot be accessed, or when `new` is asked for a negative size, and
  waits forever when the console does not answer.
  - `returns_iff`: a call returns exactly if none of that happens (`Completes`).
  - `failures_said_iff`: it returns and says what it did exactly if besides it is one of `Answered`.
-/

import Nachos.Userprog.FileCalls

namespace Nachos

open Handler List
open Stub (FileSystem Host maxOffset)
open Lib

variable {W α β : Type}

/-- What the call asks of the host, of the process's memory and of the console it gets. -/
def Completes (bigEndian : Bool) (sv : Services W) (call : Syscall) (k : KernelState W) : Prop :=
  let arg := k.sys.registers
  let host := k.files.host
  match call with
  | .createFile => ∃ name, nameIn bigEndian k (arg 4) (BitVec.ofNat 32 maxLength + 1) = some name ∧
      -- `open` and `close`
      (name = [] ∨ host.answer.1 ≠ .fails ∧ host.answer.2.answer.1 ≠ .fails)
  | .openFile => ∃ name, nameIn bigEndian k (arg 4) (BitVec.ofNat 32 maxLength) = some name
  | .close => k.files.canClose (arg 4) = true → host.answer.1 ≠ .fails
  | .read => ∀ f, k.files.fileOf (arg 6) = some f → f.type ≠ .stdout →
      ∃ oldPos buffer k₂, Fetched bigEndian k f oldPos buffer k₂ ∧
        if f.type = .stdin then
          ∃ line size k₃, readConsole sv (arg 5) k₂ = .ok ((line, size), k₃) ∧
            Returns (onMachine (·.system2User bigEndian (arg 4) size (line ++ buffer.drop line.length))) k₃
        else
          ∀ r fs, k₂.files.read (arg 6).toNat (arg 5) = .ok (r, fs) → BitVec.slt 0 r.1 = true →
            Returns (onMachine (·.system2User bigEndian (arg 4) r.1 (r.2 ++ buffer.drop r.2.length))) k₂
  | .write => ∀ f, k.files.fileOf (arg 6) = some f → ¬ (f.type = .readOnly ∨ f.type = .stdin) →
      ∃ oldPos buffer k₂, Fetched bigEndian k f oldPos buffer k₂ ∧
        if f.type = .readWrite then
          arg 5 = -1 ∨ (arg 5).slt 0 = false ∧ host.Moves (arg 5).toNat ∧
            f.offset + (buffer.take (arg 5).toNat).length ≤ maxOffset
        else ∃ i k₃, writeLine sv buffer k₂ = .ok (i, k₃) ∧ Returns (writeConsole sv [10]) k₃
  | .seek => ∀ f, k.files.canSeek (arg 5) = true → k.files.openfile (arg 5).toNat = some f →
      (arg 4 = -1 ∨ (arg 4).slt 0 = false) → f.currentOffset.toNat ≤ maxOffset
  | _ => True

section

variable {bigEndian : Bool} {sv : Services W} {k k' : KernelState W} {call : Syscall} {name : List Byte}

theorem returns_readRegister {r : RegNum} {f : Word → Handler W β} :
    Returns (readRegister r >>= f) k ↔ Returns (f (k.sys.registers r)) k := Iff.rfl

theorem returns_asks {ask : FileSystem → α} {f : α → Handler W β} :
    Returns (onFiles (fun fs => .ok (ask fs, fs)) >>= f) k ↔ Returns (f (ask k.files)) k := Iff.rfl

theorem returns_answer (value : Word) : Returns (answer value) k := ⟨_, rfl⟩

theorem returns_answerIf (value : Option Word) : Returns (answerIf value) k := by
  cases value with
  | none => exact ⟨_, rfl⟩
  | some v => exact returns_answer v

theorem returns_onFiles {call : FileSystem → Except Stop (α × FileSystem)} :
    Returns (onFiles call) k ↔ ∃ r, call k.files = .ok r := by
  constructor
  · rintro ⟨⟨a, k₁⟩, h⟩
    obtain ⟨files, hc, -⟩ := onFiles_ok h
    exact ⟨_, hc⟩
  · rintro ⟨⟨a, files⟩, h⟩
    exact ⟨_, onFiles_of h⟩

theorem returns_onFiles_of {call : FileSystem → Except Stop (α × FileSystem)} {a : α} {files : FileSystem}
    {f : α → Handler W β} (h : call k.files = .ok (a, files)) :
    Returns (onFiles call >>= f) k ↔ Returns (f a) { k with files } := by
  rw [returns_bind, onFiles_of h]
  exact ⟨fun ⟨_, _, e, hr⟩ => by cases e; exact hr, fun hr => ⟨_, _, rfl, hr⟩⟩

theorem returns_onMachine {access : Machine → Outcome α} :
    Returns (onMachine access) k ↔ ∃ a m, access k.sys.machine = .done a m := by
  constructor
  · rintro ⟨⟨a, k₁⟩, h⟩
    obtain ⟨m, hm, -⟩ := onMachine_ok h
    exact ⟨a, m, hm⟩
  · rintro ⟨a, m, h⟩
    exact ⟨_, onMachine_of h⟩

theorem userName_of {virtualAddr limit : Word} (h : nameIn bigEndian k virtualAddr limit = some name) :
    ∃ k₁, userName bigEndian virtualAddr limit k = .ok (name, k₁) := by
  simp only [nameIn] at h
  split at h
  · rename_i bytes m hm
    cases h
    exact ⟨_, run_bind.mpr ⟨bytes, _, onMachine_of hm, rfl⟩⟩
  · cases h

/-- Both calls that take a name. -/
theorem returns_userName {virtualAddr limit : Word} {f : List Byte → Handler W β} {P : List Byte → Prop}
    (hf : ∀ name k₁, k₁.files = k.files → (Returns (f name) k₁ ↔ P name)) :
    Returns (userName bigEndian virtualAddr limit >>= f) k ↔
      ∃ name, nameIn bigEndian k virtualAddr limit = some name ∧ P name := by
  rw [returns_bind]
  constructor
  · rintro ⟨name, k₁, hu, hr⟩
    obtain ⟨hn, hk, -⟩ := userName_ok hu
    exact ⟨name, hn, (hf name k₁ hk).mp hr⟩
  · rintro ⟨name, hn, hp⟩
    obtain ⟨k₁, hu⟩ := userName_of hn
    exact ⟨name, k₁, hu, (hf name k₁ (userName_ok hu).2.1).mpr hp⟩

end

/-! ## The calls on the table -/

section

variable {fs : FileSystem} {h : Host} {name : List Byte} {f : Stub.OpenFile} {id : Nat}

theorem close_returns : (∃ h', h.close = .ok h') ↔ h.answer.1 ≠ .fails := by
  unfold Host.close
  split
  · rename_i ha; exact iff_of_false nofun fun hn => hn (by rw [ha])
  · rename_i hn ha; exact iff_of_true ⟨_, rfl⟩ fun e => hn (by rw [ha] at e; exact e)

theorem openTrunc_cases (hn : name ≠ []) : h.answer.1 = .fails ∧ h.openTrunc name = (none, h.answer.2) ∨
    h.answer.1 ≠ .fails ∧ ∃ i h', h.openTrunc name = (some i, h') ∧ h'.answers = h.answer.2.answers := by
  unfold Host.openTrunc
  split
  · rename_i ha; exact .inl ⟨by rw [ha], by rw [ha]⟩
  · rename_i hf ha
    rw [if_neg hn, ha]
    refine .inr ⟨hf, ?_⟩
    split
    · exact ⟨_, _, rfl, rfl⟩
    · exact ⟨_, _, rfl, rfl⟩

theorem createCall_returns : (∃ r, fs.createCall name = .ok r) ↔
    name = [] ∨ fs.host.answer.1 ≠ .fails ∧ fs.host.answer.2.answer.1 ≠ .fails := by
  unfold FileSystem.createCall
  split
  · rename_i hn; exact iff_of_true ⟨_, rfl⟩ (.inl hn)
  rename_i hn
  refine (exists_then_ok ?_).trans ?_
  · exact fun _ => ⟨_, rfl⟩
  rw [or_iff_right hn]
  unfold FileSystem.create
  rcases openTrunc_cases (h := fs.host) hn with ⟨hf, ho⟩ | ⟨hf, i, h', ho, ha⟩
  · simp only [ho]
    exact iff_of_false nofun fun h => h.1 hf
  · simp only [ho, ne_eq, hf, not_false_eq_true, true_and]
    refine (exists_then_ok ?_).trans ?_
    · exact fun _ => ⟨_, rfl⟩
    · rw [close_returns, Host.answer, ha]
      rfl

theorem closeCall_returns {fileID : Word} :
    (∃ r, fs.closeCall fileID = .ok r) ↔ (fs.canClose fileID = true → fs.host.answer.1 ≠ .fails) := by
  unfold FileSystem.closeCall
  split
  · rename_i hc
    refine (exists_then_ok ?_).trans ((exists_then_ok ?_).trans ?_)
    · exact fun _ => ⟨_, rfl⟩
    · exact fun _ => ⟨_, rfl⟩
    · exact close_returns.trans ⟨fun hn _ => hn, fun hn => hn hc⟩
  · rename_i hc; exact iff_of_true ⟨_, rfl⟩ fun h => absurd h hc

theorem write_open {fs' : FileSystem} {buffer : List Byte} {n v : Word} (h : fs.write id buffer n = .ok (v, fs')) :
    ∃ f, fs'.openfile id = some f := by
  obtain ⟨⟨n', fs₁⟩, h₁, h⟩ := bind_eq_ok.mp h
  obtain ⟨f, f', h', -, -, rfl⟩ := FileSystem.on_ok h₁
  cases h
  refine ⟨f', ?_⟩
  split <;> exact Function.update_self ..

/-- Seek asks for the length, unless the position is negative. -/
theorem seekCall_returns {pos fileID : Word} : (∃ r, fs.seekCall pos fileID = .ok r) ↔
    ∀ f, fs.canSeek fileID = true → fs.openfile fileID.toNat = some f → (pos = -1 ∨ pos.slt 0 = false) →
      f.currentOffset.toNat ≤ maxOffset := by
  cases hc : fs.canSeek fileID with
  | false =>
    rw [FileSystem.seekCall, hc]
    exact iff_of_true ⟨_, rfl⟩ fun _ h => by cases h
  | true =>
    obtain ⟨f, hf⟩ := canSeek_open hc
    simp only [hf, true_imp_iff, Option.some.injEq, forall_eq']
    have hd : SeekEnds _ _ pos _ := seekCall_ends hc hf
    generalize fs.seekCall pos fileID = x at hd ⊢
    cases hd with
    | negative hne hneg =>
      refine iff_of_true ⟨_, rfl⟩ fun hpos => ?_
      cases hneg.symm.trans (hpos.resolve_left hne)
    | stops hpos hno => exact iff_of_false (by simp) fun h => hno (h hpos)
    | beyond hat _ _ => exact iff_of_true ⟨_, rfl⟩ fun _ => hat
    | sought hat _ _ => exact iff_of_true ⟨_, rfl⟩ fun _ => hat

end

/-! ## The handlers -/

section

variable {bigEndian : Bool} {sv : Services W} {k k₂ : KernelState W} {call : Syscall} {f : Stub.OpenFile} {oldPos : Word}
  {buffer : List Byte}

/-- What Read and Write do first. -/
theorem returns_fetch {rest : Word → List Byte → Handler W β} (hs : k.files.fileOf (k.sys.registers 6) = some f) :
    Returns (do
      let oldPos ← onFiles (·.getCurrentPos (k.sys.registers 6).toNat)
      let buffer ← onMachine (·.user2System bigEndian (k.sys.registers 4) (k.sys.registers 5))
      rest oldPos buffer) k ↔
      ∃ oldPos buffer k₂, Fetched bigEndian k f oldPos buffer k₂ ∧ Returns (rest oldPos buffer) k₂ := by
  simp only [returns_bind]
  constructor
  · rintro ⟨oldPos, k₁, h₁, buffer, k₂, h₂, hr⟩
    exact ⟨oldPos, buffer, k₂, .intro hs h₁ h₂, hr⟩
  · rintro ⟨oldPos, buffer, k₂, hft, hr⟩
    obtain ⟨fs, m, hp, hm, rfl⟩ := hft.steps
    exact ⟨oldPos, _, onFiles_of hp, buffer, _, onMachine_of hm, hr⟩

/-- Both offsets of the file agree then. -/
theorem Fetched.current (h : Fetched bigEndian k f oldPos buffer k₂) :
    k₂.files.openfile (k.sys.registers 6).toNat = some { f with currentOffset := f.tell } ∧ oldPos = f.tell ∧
      k₂.files.host = k.files.host := by
  obtain ⟨fs, m, hp, -, rfl⟩ := h.steps
  obtain ⟨g, hg, rfl, rfl⟩ := FileSystem.getCurrentPos_ok hp
  have hs := h.slot
  unfold FileSystem.fileOf at hs
  split at hs
  · cases hs
  · cases hg.symm.trans hs
    exact ⟨Function.update_self .., rfl, rfl⟩

theorem readFunction_returns : Returns (readFunction bigEndian sv) k ↔ Completes bigEndian sv .read k := by
  simp only [readFunction, returns_readRegister, returns_asks, Completes]
  cases hs : k.files.fileOf (k.sys.registers 6) with
  | none => exact iff_of_true (returns_answer _) fun _ h => by cases h
  | some f =>
    simp only [Option.some.injEq, forall_eq']
    split
    · rename_i ho; exact iff_of_true (returns_answer _) fun hn => absurd ho hn
    rename_i ho
    simp only [ne_eq, ho, not_false_eq_true, true_imp_iff]
    rw [returns_fetch hs]
    refine exists_congr fun oldPos => exists_congr fun buffer => exists_congr fun k₂ => and_congr_right fun hft => ?_
    split
    · rw [returns_bind, Prod.exists]
      exact exists_congr fun line => exists_congr fun size => exists_congr fun k₃ => and_congr_right fun _ =>
        returns_then fun _ _ => returns_answer _
    · obtain ⟨hf, rfl, -⟩ := hft.current
      obtain ⟨r, fs, f', hr, hf', ht⟩ := FileSystem.read_current hf rfl (k.sys.registers 5)
      have hdet : ∀ {P : Word × List Byte → Prop}, (∀ r' fs', k₂.files.read (k.sys.registers 6).toNat
          (k.sys.registers 5) = .ok (r', fs') → P r') ↔ P r :=
        ⟨fun h => h r fs hr, fun h r' fs' e => by cases hr.symm.trans e; exact h⟩
      rw [returns_onFiles_of hr, hdet]
      split
      · rename_i hn
        have hcount : f'.tell - f.tell = r.1 := by
          rw [ht hn, BitVec.add_comm]
          exact BitVec.add_sub_cancel r.1 f.tell
        rw [returns_onFiles_of (FileSystem.getCurrentPos_of hf'), returns_then fun _ _ => returns_answer _, hcount,
          returns_onMachine, returns_onMachine]
        exact ⟨fun h _ => h, fun h => h hn⟩
      · rename_i hn
        exact iff_of_true (returns_answer _) fun h => absurd h hn

theorem writeFunction_returns : Returns (writeFunction bigEndian sv) k ↔ Completes bigEndian sv .write k := by
  simp only [writeFunction, returns_readRegister, returns_asks, Completes]
  cases hs : k.files.fileOf (k.sys.registers 6) with
  | none => exact iff_of_true (returns_answer _) fun _ h => by cases h
  | some f =>
    simp only [Option.some.injEq, forall_eq']
    split
    · rename_i ho; exact iff_of_true (returns_answer _) fun hn => absurd ho hn
    rename_i ho
    simp only [ho, not_false_eq_true, true_imp_iff]
    rw [returns_fetch hs]
    refine exists_congr fun oldPos => exists_congr fun buffer => exists_congr fun k₂ => and_congr_right fun hft => ?_
    split
    · obtain ⟨hf, rfl, hh⟩ := hft.current
      rw [← hh]
      refine Iff.trans ?_ (FileSystem.write_returns (f := { f with currentOffset := f.tell }) hf rfl)
      constructor
      · intro h
        obtain ⟨a, k₁, ha, -⟩ := returns_bind.mp h
        obtain ⟨fs, hw, -⟩ := onFiles_ok ha
        exact ⟨_, hw⟩
      · rintro ⟨⟨n, fs⟩, hw⟩
        rw [returns_onFiles_of hw]
        obtain ⟨f', hf'⟩ := write_open hw
        split
        · exact (returns_onFiles_of (FileSystem.getCurrentPos_of hf')).mpr (returns_answer _)
        · exact ⟨_, rfl⟩
    · rw [returns_bind]
      exact exists_congr fun i => exists_congr fun k₃ => and_congr_right fun _ => returns_then fun _ _ => returns_answer _

theorem createFileFunction_returns : Returns (createFileFunction bigEndian) k ↔ Completes bigEndian sv .createFile k := by
  rw [createFileFunction, returns_readRegister]
  refine returns_userName fun name k₁ hk => ?_
  rw [returns_then fun _ _ => returns_answer _, returns_onFiles, createCall_returns, hk]

theorem openFunction_returns : Returns (openFunction bigEndian) k ↔ Completes bigEndian sv .openFile k := by
  rw [openFunction, returns_readRegister]
  refine (returns_userName (P := fun _ => True) fun name k₁ _ => ?_).trans (exists_congr fun _ => iff_of_eq (and_true _))
  rw [returns_readRegister, returns_then fun _ _ => returns_answerIf _, returns_onFiles]
  exact iff_of_true ⟨_, rfl⟩ trivial

theorem closeFunction_returns : Returns closeFunction k ↔ Completes bigEndian sv .close k := by
  rw [closeFunction, returns_readRegister, returns_then fun _ _ => returns_answer _, returns_onFiles]
  exact closeCall_returns

theorem seekFunction_returns : Returns seekFunction k ↔ Completes bigEndian sv .seek k := by
  rw [seekFunction, returns_readRegister, returns_readRegister, returns_then fun _ _ => returns_answerIf _, returns_onFiles]
  exact seekCall_returns

theorem returns_increasePC : Returns increasePC k := ⟨_, rfl⟩

/-- A file system call returns for exactly these arguments, tables, answers of the host and of the console. -/
theorem returns_iff (hcall : call ∈ [.createFile, .openFile, .close, .read, .write, .seek])
    (hr2 : k.sys.registers 2 = call.code) :
    Returns (exceptionHandler bigEndian sv .syscallException) k ↔ Completes bigEndian sv call k := by
  have hserve : Returns (exceptionHandler bigEndian sv .syscallException) k ↔ Returns (serve bigEndian sv call) k := by
    rw [exceptionHandler, returns_readRegister, hr2]
    simp only [Syscall.ofCode_code]
    exact returns_then fun _ _ => returns_increasePC
  rw [hserve]
  simp only [List.mem_cons, List.not_mem_nil, or_false] at hcall
  rcases hcall with rfl | rfl | rfl | rfl | rfl | rfl
  · exact createFileFunction_returns
  · exact openFunction_returns
  · exact closeFunction_returns
  · exact readFunction_returns
  · exact writeFunction_returns
  · exact seekFunction_returns

/-- A file system call returns, leaves a negative number in r2 if it has carried out nothing, and the descriptor
    or the position if it is an Open or a Seek that has, for exactly these arguments, tables and answers of
    the host. -/
theorem failures_said_iff (hcall : call ∈ [.createFile, .openFile, .close, .read, .write, .seek])
    (hr2 : k.sys.registers 2 = call.code) :
    (∃ k', exceptionHandler bigEndian sv .syscallException k = .ok ((), k') ∧ SaysSo call k k') ↔
      Completes bigEndian sv call k ∧ Answered bigEndian call k := by
  constructor
  · rintro ⟨k', h, hs⟩
    exact ⟨(returns_iff hcall hr2).mp ⟨_, h⟩, (saysSo_iff hcall hr2 h).mp hs⟩
  · rintro ⟨hc, ha⟩
    obtain ⟨⟨_, k'⟩, h⟩ := (returns_iff hcall hr2).mpr hc
    exact ⟨k', h, (saysSo_iff hcall hr2 h).mpr ha⟩

end

/-- A file of three bytes, open in slot 2. -/
def oneFile : FileSystem where
  openfile := fun i => if i = 2 then some ⟨.readWrite, 0, 0, 0, Nat.zero_le _⟩ else none
  host := ⟨fun _ => none, 1, fun _ => [65, 66, 67], [], fun _ => by decide⟩
  log := []

/-- The process has called Seek(pos, id). -/
def seeking (pos id : Word) : KernelState Unit :=
  { inSyscall fun x => if x = 2 then 21 else if x = 4 then pos else if x = 5 then id else 0 with files := oneFile }

theorem seek_says_position : ∃ k', exceptionHandler false busyConsole .syscallException (seeking 1 2) = .ok ((), k') ∧
    SaysSo .seek (seeking 1 2) k' := by
  refine (failures_said_iff (by decide) (by decide +kernel)).mpr ⟨fun f _ hf _ => ?_, by decide +kernel, .inr ⟨_, rfl, by decide +kernel⟩⟩
  cases hf
  decide

/-- Seek on a slot that is not open does nothing and answers 21. -/
theorem failed_seek_is_silent : ∃ k', exceptionHandler false busyConsole .syscallException (seeking 0 5) = .ok ((), k') ∧
    k'.files.log = (seeking 0 5).files.log ∧ ¬ (k'.sys.registers 2).slt 0 = true ∧ ¬ SaysSo .seek (seeking 0 5) k' := by
  obtain ⟨⟨u, k'⟩, h, ht⟩ := exists_ok (x := exceptionHandler false busyConsole .syscallException (seeking 0 5))
    (fun x => x.2.files.log == [] && x.2.sys.registers 2 == 21) (by decide +kernel)
  simp only [Bool.and_eq_true, beq_iff_eq] at ht
  have hneg : ¬ (k'.sys.registers 2).slt 0 = true := by rw [ht.2]; decide
  exact ⟨k', h, ht.1, hneg, fun hs => hneg (hs.failed ht.1 rfl)⟩

end Nachos

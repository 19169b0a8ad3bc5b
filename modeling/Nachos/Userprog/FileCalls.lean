/-
  Nachos.Userprog.FileCalls — what CreateFile, Open, Close, Read, Write and Seek leave in r2.

  `log` records the file operations a call carries out. Opening the console (types 2 and 3)
  carries out none: the call grants slot 0 or 1, if that is open. r2 holds the number of the
  system call on entry, so a path that writes nothing to it answers a positive number.
  - `saysSo_iff`: of the calls that return, those of `Answered` say what they did: one that
    carries out nothing answers a negative number, and Open and Seek answer the descriptor and
    the new position. Seek must be on an open file and to a position inside it, and Open must find
    no free slot or an existing file or an open console; Write of -1 bytes is not among them.
-/

import Nachos.Userprog.ProgramCounter

namespace Nachos

open Handler List
open Stub (FileSystem Operation)
open Lib
open BitVec (ofNat)

variable {W : Type} {value oldPos : Word} {name buffer : List Byte} {f : Stub.OpenFile} {slot : Nat}

/-! ## What the calls should answer -/

/-- The console slot that Open grants. -/
def consoleSlot (fs : FileSystem) (type : Word) : Option Nat :=
  if fs.findFreeSlot = none then none
  else if type = 2 ∧ (fs.openfile 0).isSome then some 0
  else if type = 3 ∧ (fs.openfile 1).isSome then some 1
  else none

/-- The console slot granted by the call, if it is an Open. -/
def granted (call : Syscall) (k : KernelState W) : Option Nat :=
  if call = .openFile then consoleSlot k.files (k.sys.registers 5) else none

/-- The value in r2 says what the call did. -/
structure SaysSo (call : Syscall) (k k' : KernelState W) : Prop where
  failed : k'.files.log = k.files.log → granted call k = none → (k'.sys.registers 2).slt 0 = true
  opened : ∀ id, k'.files.log = .opened id :: k.files.log → k'.sys.registers 2 = ofNat 32 id
  console : ∀ id, granted call k = some id → k'.sys.registers 2 = ofNat 32 id
  sought : ∀ pos, k'.files.log = .sought pos :: k.files.log → k'.sys.registers 2 = pos

/-- The name at an address of the process's memory. -/
def nameIn (bigEndian : Bool) (k : KernelState W) (virtualAddr limit : Word) : Option (List Byte) :=
  match k.sys.machine.user2System bigEndian virtualAddr limit with
  | .done name _ => some (cString name)
  | _ => none

/-- The calls that answer as they should if they return, by the arguments and the state before. -/
def Answered (bigEndian : Bool) (call : Syscall) (k : KernelState W) : Prop :=
  match call with
  | .openFile =>
    let type := k.sys.registers 5
    k.files.findFreeSlot = none ∨
    (type = 0 ∨ type = 1) ∧ (∃ name, nameIn bigEndian k (k.sys.registers 4) (ofNat 32 maxLength) = some name ∧
      (k.files.host.openRW name).1.isSome) ∨
    type = 2 ∧ (k.files.openfile 0).isSome ∨ type = 3 ∧ (k.files.openfile 1).isSome
  | .write =>
    ¬ (k.sys.registers 5 = -1 ∧ (k.files.fileOf (k.sys.registers 6)).any (·.type = .readWrite))
  | .seek =>
    let pos := k.sys.registers 4
    k.files.canSeek (k.sys.registers 5) = true ∧
    (pos = -1 ∨ ∃ f, k.files.openfile (k.sys.registers 5).toNat = some f ∧ pos.toNat ≤ (k.files.host.content f.ino).length)
  | _ => True

/-! ## The steps of a call -/

section

variable {bigEndian : Bool} {sv : Services W} {k k' : KernelState W}

theorem answer_ok (h : answer value k = .ok ((), k')) : k'.sys.registers 2 = value ∧ k'.files = k.files := by
  cases h
  exact ⟨by simp, rfl⟩

theorem answerIf_ok {value : Option Word} (h : answerIf value k = .ok ((), k')) :
    k'.sys.registers 2 = value.getD (k.sys.registers 2) ∧ k'.files = k.files := by
  cases value with
  | none => cases h; exact ⟨rfl, rfl⟩
  | some v => exact answer_ok h

theorem userName_ok {virtualAddr limit : Word} (h : userName bigEndian virtualAddr limit k = .ok (name, k')) :
    nameIn bigEndian k virtualAddr limit = some name ∧ k'.files = k.files ∧ k'.sys.registers = k.sys.registers := by
  obtain ⟨bytes, k1, h1, h2⟩ := run_bind.mp h
  obtain ⟨m, hm, rfl⟩ := onMachine_ok h1
  cases h2
  have hc : (k.sys.machine.user2System bigEndian virtualAddr limit).Calm k.sys.machine := user2System_calm _ _ _
  rw [hm] at hc
  exact ⟨by rw [nameIn, hm], rfl, hc⟩

/-- An access to memory leaves r2 and the files alone. -/
theorem onMachine_quiet {α : Type} {a : α} {access : Machine → Outcome α} (hc : ∀ m, (access m).Calm m)
    (h : onMachine access k = .ok (a, k')) : k'.files = k.files ∧ k'.sys.registers = k.sys.registers := by
  obtain ⟨m, hm, rfl⟩ := onMachine_ok h
  have := hc k.sys.machine
  rw [hm] at this
  exact ⟨rfl, this⟩

theorem readConsole_ok {numBytes : Word} {r : List Byte × Word} (h : readConsole sv numBytes k = .ok (r, k')) :
    k'.files.log = if r.2.slt 0 then k.files.log else .read r.2 :: k.files.log := by
  obtain ⟨⟨buffer, size⟩, k1, h1, h⟩ := run_bind.mp h
  have hl := await_log h1
  cases hn : size.slt 0 with
  | true =>
    simp only [hn] at h
    cases h
    rw [hn]; exact hl
  | false =>
    simp only [hn] at h
    obtain ⟨u, k2, h2, h⟩ := run_bind.mp h
    obtain ⟨files, hf, rfl⟩ := onFiles_ok h2
    cases h
    cases hf
    rw [hn]
    exact congrArg _ hl

theorem writeConsole_ok {bytes : List Byte} (h : writeConsole sv bytes k = .ok ((), k')) :
    k'.files.log = .output bytes :: k.files.log := by
  obtain ⟨u, k1, h1, h⟩ := run_bind.mp h
  obtain ⟨files, hf, rfl⟩ := onFiles_ok h
  cases hf
  exact congrArg _ (await_log h1)

end

/-! ## Read and Write, step by step -/

/-- Where both calls are once they have asked the file for its position and copied the
    process's bytes. -/
structure Fetched (bigEndian : Bool) (k : KernelState W) (f : Stub.OpenFile) (oldPos : Word) (buffer : List Byte)
    (k₂ : KernelState W) : Prop where
  slot : k.files.fileOf (k.sys.registers 6) = some f
  steps : ∃ fs m, k.files.getCurrentPos (k.sys.registers 6).toNat = .ok (oldPos, fs) ∧
    k.sys.machine.user2System bigEndian (k.sys.registers 4) (k.sys.registers 5) = .done buffer m ∧
    k₂ = { k with sys := k.sys.putMachine m, files := fs }

/-- The ways through `readFunction`. -/
inductive ReadSteps (bigEndian : Bool) (sv : Services W) (k k' : KernelState W) : Prop
  | refused (htype : ∀ f, k.files.fileOf (k.sys.registers 6) = some f → f.type = .stdout)
      (h : answer (-1) k = .ok ((), k'))
  | console {f : Stub.OpenFile} {oldPos size : Word} {buffer line : List Byte} {copied : Word} {k₂ k₃ k₄ : KernelState W}
      (hfetched : Fetched bigEndian k f oldPos buffer k₂) (htype : f.type = .stdin)
      (hread : readConsole sv (k.sys.registers 5) k₂ = .ok ((line, size), k₃))
      (hback : onMachine (·.system2User bigEndian (k.sys.registers 4) size (line ++ buffer.drop line.length)) k₃ =
        .ok (copied, k₄))
      (h : answer size k₄ = .ok ((), k'))
  | nothing {f : Stub.OpenFile} {oldPos numRead : Word} {buffer bytes : List Byte} {k₂ : KernelState W} {fs : FileSystem}
      (hfetched : Fetched bigEndian k f oldPos buffer k₂) (hout : f.type ≠ .stdout) (hin : f.type ≠ .stdin)
      (hread : k₂.files.read (k.sys.registers 6).toNat (k.sys.registers 5) = .ok ((numRead, bytes), fs))
      (hnone : ¬ BitVec.slt 0 numRead = true)
      (h : answer (-2) { k₂ with files := fs } = .ok ((), k'))
  | file {f : Stub.OpenFile} {oldPos newPos numRead : Word} {buffer bytes : List Byte} {copied : Word} {k₂ k₅ : KernelState W}
      {fs fs' : FileSystem}
      (hfetched : Fetched bigEndian k f oldPos buffer k₂) (hout : f.type ≠ .stdout) (hin : f.type ≠ .stdin)
      (hread : k₂.files.read (k.sys.registers 6).toNat (k.sys.registers 5) = .ok ((numRead, bytes), fs))
      (hsome : BitVec.slt 0 numRead = true)
      (hpos : fs.getCurrentPos (k.sys.registers 6).toNat = .ok (newPos, fs'))
      (hback : onMachine (·.system2User bigEndian (k.sys.registers 4) (newPos - oldPos) (bytes ++ buffer.drop bytes.length))
        { k₂ with files := fs' } = .ok (copied, k₅))
      (h : answer (newPos - oldPos) k₅ = .ok ((), k'))

/-- The ways through `writeFunction`. -/
inductive WriteSteps (bigEndian : Bool) (sv : Services W) (k k' : KernelState W) : Prop
  | refused (htype : ∀ f, k.files.fileOf (k.sys.registers 6) = some f → f.type = .readOnly ∨ f.type = .stdin)
      (h : answer (-1) k = .ok ((), k'))
  | nothing {f : Stub.OpenFile} {oldPos numWritten : Word} {buffer : List Byte} {k₂ : KernelState W} {fs : FileSystem}
      (hfetched : Fetched bigEndian k f oldPos buffer k₂) (htype : f.type = .readWrite)
      (hwrite : k₂.files.write (k.sys.registers 6).toNat buffer (k.sys.registers 5) = .ok (numWritten, fs))
      (hnone : ¬ BitVec.slt 0 numWritten = true)
      (h : k' = { k₂ with files := fs })
  | file {f : Stub.OpenFile} {oldPos newPos numWritten : Word} {buffer : List Byte} {k₂ : KernelState W} {fs fs' : FileSystem}
      (hfetched : Fetched bigEndian k f oldPos buffer k₂) (htype : f.type = .readWrite)
      (hwrite : k₂.files.write (k.sys.registers 6).toNat buffer (k.sys.registers 5) = .ok (numWritten, fs))
      (hsome : BitVec.slt 0 numWritten = true)
      (hpos : fs.getCurrentPos (k.sys.registers 6).toNat = .ok (newPos, fs'))
      (h : answer (newPos - oldPos) { k₂ with files := fs' } = .ok ((), k'))
  | console {f : Stub.OpenFile} {oldPos : Word} {buffer : List Byte} {i : Nat} {k₂ k₃ k₄ : KernelState W}
      (hfetched : Fetched bigEndian k f oldPos buffer k₂) (htype : f.type = .stdout)
      (hline : writeLine sv buffer k₂ = .ok (i, k₃))
      (hend : writeConsole sv [10] k₃ = .ok ((), k₄))
      (h : answer (ofNat 32 i - 1) k₄ = .ok ((), k'))

section

variable {bigEndian : Bool} {sv : Services W} {k k' : KernelState W}

theorem Fetched.intro {k1 k2 : KernelState W} (hs : k.files.fileOf (k.sys.registers 6) = some f)
    (h1 : onFiles (·.getCurrentPos (k.sys.registers 6).toNat) k = .ok (oldPos, k1))
    (h2 : onMachine (·.user2System bigEndian (k.sys.registers 4) (k.sys.registers 5)) k1 = .ok (buffer, k2)) :
    Fetched bigEndian k f oldPos buffer k2 := by
  obtain ⟨fs, hp, rfl⟩ := onFiles_ok h1
  obtain ⟨m, hc, rfl⟩ := onMachine_ok h2
  exact ⟨hs, fs, m, hp, hc, rfl⟩

theorem readFunction_steps (h : readFunction bigEndian sv k = .ok ((), k')) : ReadSteps bigEndian sv k k' := by
  simp only [readFunction, bind_readRegister, bind_asks] at h
  cases hs : k.files.fileOf (k.sys.registers 6) with
  | none =>
    rw [hs] at h
    exact .refused (fun f hf => by rw [hs] at hf; cases hf) h
  | some file =>
    rw [hs] at h
    simp only at h
    split at h
    · rename_i ho
      exact .refused (fun f hf => by rw [hs] at hf; cases hf; exact ho) h
    rename_i ho
    obtain ⟨oldPos, k1, h1, h⟩ := run_bind.mp h
    obtain ⟨buffer, k2, h2, h⟩ := run_bind.mp h
    have hft : Fetched bigEndian k file oldPos buffer k2 := .intro hs h1 h2
    split at h
    · rename_i hin
      obtain ⟨⟨line, size⟩, k3, h3, h⟩ := run_bind.mp h
      obtain ⟨copied, k4, h4, h⟩ := run_bind.mp h
      exact .console hft hin h3 h4 h
    · rename_i hin
      obtain ⟨⟨numRead, bytes⟩, k3, h3, h⟩ := run_bind.mp h
      obtain ⟨fs, hr, rfl⟩ := onFiles_ok h3
      simp only at h
      split at h
      · rename_i hn
        obtain ⟨newPos, k4, h4, h⟩ := run_bind.mp h
        obtain ⟨fs', hp, rfl⟩ := onFiles_ok h4
        obtain ⟨copied, k5, h5, h⟩ := run_bind.mp h
        exact .file hft ho hin hr hn hp h5 h
      · rename_i hn
        exact .nothing hft ho hin hr hn h

theorem writeFunction_steps (h : writeFunction bigEndian sv k = .ok ((), k')) : WriteSteps bigEndian sv k k' := by
  simp only [writeFunction, bind_readRegister, bind_asks] at h
  cases hs : k.files.fileOf (k.sys.registers 6) with
  | none =>
    rw [hs] at h
    exact .refused (fun f hf => by rw [hs] at hf; cases hf) h
  | some file =>
    rw [hs] at h
    simp only at h
    split at h
    · rename_i hro
      exact .refused (fun f hf => by rw [hs] at hf; cases hf; exact hro) h
    rename_i hro
    obtain ⟨oldPos, k1, h1, h⟩ := run_bind.mp h
    obtain ⟨buffer, k2, h2, h⟩ := run_bind.mp h
    have hft : Fetched bigEndian k file oldPos buffer k2 := .intro hs h1 h2
    split at h
    · rename_i hrw
      obtain ⟨numWritten, k3, h3, h⟩ := run_bind.mp h
      obtain ⟨fs, hw, rfl⟩ := onFiles_ok h3
      split at h
      · rename_i hn
        obtain ⟨newPos, k4, h4, h⟩ := run_bind.mp h
        obtain ⟨fs', hp, rfl⟩ := onFiles_ok h4
        exact .file hft hrw hw hn hp h
      · rename_i hn
        cases h
        exact .nothing hft hrw hw hn rfl
    · rename_i hrw
      have hst : file.type = .stdout := by
        cases ht : file.type with
        | readWrite => exact absurd ht hrw
        | readOnly => exact absurd (.inl ht) hro
        | stdin => exact absurd (.inr ht) hro
        | stdout => rfl
      obtain ⟨i, k3, h3, h⟩ := run_bind.mp h
      obtain ⟨u, k4, h4, h⟩ := run_bind.mp h
      exact .console hft hst h3 h4 h

/-- Up to there nothing has been carried out. -/
theorem Fetched.quiet {k2 : KernelState W} (h : Fetched bigEndian k f oldPos buffer k2) :
    k2.files.log = k.files.log ∧ k2.sys.registers = k.sys.registers := by
  obtain ⟨fs, m, hp, hcp, rfl⟩ := h.steps
  obtain ⟨f', -, -, rfl⟩ := FileSystem.getCurrentPos_ok hp
  have hc : (k.sys.machine.user2System bigEndian (k.sys.registers 4) (k.sys.registers 5)).Calm k.sys.machine :=
    user2System_calm _ _ _
  rw [hcp] at hc
  exact ⟨rfl, hc⟩

end

/-! ## The calls on the table -/

section

variable {fs fs' : FileSystem}

theorem createCall_ok (h : fs.createCall name = .ok (value, fs')) :
    value = -1 ∧ fs' = fs ∨ value = 0 ∧ fs'.log = .created name :: fs.log := by
  simp only [FileSystem.createCall] at h
  split at h
  · cases h; exact .inl ⟨rfl, rfl⟩
  obtain ⟨⟨created, fs1⟩, h1, h⟩ := bind_eq_ok.mp h
  simp only [FileSystem.create] at h1
  split at h1
  · cases h1
  obtain ⟨h', -, h1⟩ := bind_eq_ok.mp h1
  cases h1
  cases h
  exact .inr ⟨rfl, rfl⟩

theorem closeCall_ok {fileID : Word} (h : fs.closeCall fileID = .ok (value, fs')) :
    value = -1 ∧ fs' = fs ∨ value = 0 ∧ fs'.log = .closed fileID.toNat :: fs.log ∧
      fs'.openfile = Function.update fs.openfile fileID.toNat none := by
  simp only [FileSystem.closeCall] at h
  split at h
  · obtain ⟨fs1, h1, h⟩ := bind_eq_ok.mp h
    obtain ⟨h', -, h1⟩ := bind_eq_ok.mp h1
    cases h1
    cases h
    exact .inr ⟨rfl, rfl, rfl⟩
  · cases h; exact .inl ⟨rfl, rfl⟩

theorem findFreeSlot_some (h : fs.findFreeSlot = some slot) : 2 ≤ slot ∧ slot < 15 ∧ fs.openfile slot = none := by
  have hm := mem_of_find?_eq_some h
  rw [mem_range'_1] at hm
  have hn := find?_some h
  exact ⟨hm.1, hm.2, by simpa using hn⟩

/-- The ways through Open with a free slot. -/
inductive OpenSteps (fs fs' : FileSystem) (name : List Byte) (type : Word) (slot : Nat) : Option Word → Prop
  | opened (f : Stub.OpenFile) (htype : type = 0 ∨ type = 1) (hopen : (fs.host.openRW name).1.isSome)
      (hlog : fs'.log = .opened slot :: fs.log) (htab : fs'.openfile = Function.update fs.openfile slot (some f)) :
      OpenSteps fs fs' name type slot (some (ofNat 32 slot))
  | absent (htype : type = 0 ∨ type = 1) (hopen : (fs.host.openRW name).1 = none) (hlog : fs'.log = fs.log)
      (htab : fs'.openfile = fs.openfile) : OpenSteps fs fs' name type slot none
  | stdin (htype : type = 2) (hsame : fs' = fs) : OpenSteps fs fs' name type slot (some 0)
  | stdout (htype : type = 3) (hsame : fs' = fs) : OpenSteps fs fs' name type slot (some 1)
  | other (htype : ¬ (type = 0 ∨ type = 1) ∧ type ≠ 2 ∧ type ≠ 3) (hsame : fs' = fs) : OpenSteps fs fs' name type slot none

theorem openCall_steps {type : Word} {value : Option Word} (hs : fs.findFreeSlot = some slot)
    (h : fs.openCall name type = (value, fs')) : OpenSteps fs fs' name type slot value := by
  simp only [FileSystem.openCall, hs] at h
  by_cases h01 : type = 0 ∨ type = 1
  · rw [if_pos h01] at h
    cases ho : (fs.host.openRW name).1 with
    | none =>
      rw [FileSystem.openSlot_none ho] at h
      cases h
      exact .absent h01 ho rfl (Function.update_eq_self_iff.mpr (findFreeSlot_some hs).2.2.symm)
    | some ino =>
      rw [FileSystem.openSlot_some ho] at h
      cases h
      exact .opened _ h01 (by rw [ho]; rfl) rfl rfl
  · rw [if_neg h01] at h
    split at h
    · cases h; exact .stdin ‹_› rfl
    · split at h
      · cases h; exact .stdout ‹_› rfl
      · cases h; exact .other ⟨h01, ‹_›, ‹_›⟩ rfl

theorem small_toNat {content : List Byte} (h : content.length ≤ Stub.maxOffset) :
    (ofNat 32 content.length).toNat = content.length :=
  ofNat_toNat (Nat.lt_of_le_of_lt h (by decide))

theorem canSeek_open {file_id : Word} (h : fs.canSeek file_id = true) : ∃ f, fs.openfile file_id.toNat = some f := by
  simp only [FileSystem.canSeek, Bool.not_eq_true', Bool.or_eq_false_iff] at h
  exact Option.isSome_iff_exists.mp (by simpa using h.2)

/-- The ways Seek on an open file can end. -/
inductive SeekEnds (fs : FileSystem) (f : Stub.OpenFile) (pos : Word) : Except Stop (Option Word × FileSystem) → Prop
  | negative (hne : pos ≠ -1) (hneg : pos.slt 0 = true) : SeekEnds fs f pos (.ok (none, fs))
  /-- `Length` cannot go back to `currentOffset`. -/
  | stops {why : Stop} (hpos : pos = -1 ∨ pos.slt 0 = false) (hno : ¬ f.currentOffset.toNat ≤ Stub.maxOffset) :
      SeekEnds fs f pos (.error why)
  | beyond {fs' : FileSystem} (hat : f.currentOffset.toNat ≤ Stub.maxOffset)
      (hlt : ¬ (pos = -1 ∨ pos.toNat ≤ (fs.host.content f.ino).length)) (hlog : fs'.log = fs.log) :
      SeekEnds fs f pos (.ok (none, fs'))
  | sought {p : Word} {fs' : FileSystem} (hat : f.currentOffset.toNat ≤ Stub.maxOffset)
      (hle : pos = -1 ∨ pos.toNat ≤ (fs.host.content f.ino).length) (hlog : fs'.log = .sought p :: fs.log) :
      SeekEnds fs f pos (.ok (some p, fs'))

/-- The position is `p`, in a table that differs from `fs` in the host's offset of this file only. -/
theorem seekCall_target {pos p file_id : Word} {fs₁ : FileSystem} {g : Stub.OpenFile} (hcn : fs.canSeek file_id = true)
    (ht : fs.seekTarget pos file_id = .ok (p, fs₁)) (hn : p.slt 0 = false) (hg : fs₁.openfile file_id.toNat = some g)
    (hino : g.ino = f.ino) (hcur : g.currentOffset = f.currentOffset) (hh : fs₁.host = fs.host) (hlg : fs₁.log = fs.log)
    (hpos : pos = -1 ∨ pos.slt 0 = false)
    (hin : pos = -1 ∨ pos.toNat ≤ (fs.host.content f.ino).length ↔ p.toNat ≤ (fs.host.content f.ino).length) :
    SeekEnds fs f pos (fs.seekCall pos file_id) := by
  have hs : (fs.host.content f.ino).length ≤ 2147483647 := fs.host.small f.ino
  have hln := small_toNat hs
  have hps : p.toNat < 2147483648 := Nat.lt_of_not_le fun hge => by rw [negative_iff.mpr hge] at hn; cases hn
  rw [FileSystem.seekCall, if_pos hcn, ht]
  show SeekEnds fs f pos (if p.slt 0 = true then _ else _)
  rw [if_neg (by rw [hn]; decide), FileSystem.length_eq hg]
  by_cases ho : f.currentOffset.toNat ≤ Stub.maxOffset
  · rw [dif_pos (by rw [hcur]; exact ho)]
    have hc : (ofNat 32 (fs₁.host.content g.ino).length).slt p = true ↔ (fs.host.content f.ino).length < p.toNat := by
      rw [hh, hino, slt_of_nonneg (by rw [hln]; omega) hps, hln]
    show SeekEnds fs f pos (if (ofNat 32 (fs₁.host.content g.ino).length).slt p = true then _ else _)
    split
    · rename_i hlt
      exact .beyond ho (mt hin.mp (Nat.not_le.mpr (hc.mp hlt))) hlg
    · rename_i hge
      simp only [FileSystem.seek, FileSystem.on, FileSystem.setSlot, Function.update_self, Stub.OpenFile.seek,
        Stub.OpenFile.lseekSet, dif_pos (show p.toNat ≤ Stub.maxOffset from Nat.le_of_lt_succ hps)]
      exact .sought ho (hin.mpr (Nat.le_of_not_lt (mt hc.mpr hge))) (congrArg _ hlg)
  · rw [dif_neg (by rw [hcur]; exact ho)]
    exact .stops hpos ho

theorem seekCall_ends {pos file_id : Word} (hcn : fs.canSeek file_id = true) (hf : fs.openfile file_id.toNat = some f) :
    SeekEnds fs f pos (fs.seekCall pos file_id) := by
  have hs : (fs.host.content f.ino).length ≤ 2147483647 := fs.host.small f.ino
  have hln := small_toNat hs
  by_cases h1 : pos = -1
  · have ht : fs.seekTarget pos file_id = fs.length file_id.toNat := if_pos h1
    rw [FileSystem.length_eq hf] at ht
    by_cases ho : f.currentOffset.toNat ≤ Stub.maxOffset
    · rw [dif_pos ho] at ht
      refine seekCall_target hcn ht (Bool.eq_false_iff.mpr fun hn => ?_) (Function.update_self ..) rfl rfl rfl rfl (.inl h1)
        (iff_of_true (.inl h1) (Nat.le_of_eq hln))
      rw [negative_iff, hln] at hn
      omega
    · rw [FileSystem.seekCall, if_pos hcn, ht, dif_neg ho]
      exact .stops (.inl h1) ho
  · have ht : fs.seekTarget pos file_id = .ok (pos, fs) := if_neg h1
    cases hn : pos.slt 0 with
    | true =>
      rw [FileSystem.seekCall, if_pos hcn, ht]
      show SeekEnds fs f pos (if pos.slt 0 = true then _ else _)
      rw [if_pos hn]
      exact .negative h1 hn
    | false => exact seekCall_target hcn ht hn hf rfl rfl rfl rfl (.inr hn) (or_iff_right h1)

end

/-! ## The handlers -/

/-- What r2 says of an operation whose result the call answers. -/
def Said (r2 : Word) : Operation → Prop
  | .opened id => r2 = ofNat 32 id
  | .sought pos => r2 = pos
  | _ => True

section

variable {bigEndian : Bool} {sv : Services W} {k k' : KernelState W} {call : Syscall}

theorem SaysSo.of_ops (hg : granted call k = none) (ops : List Operation) (hl : k'.files.log = ops ++ k.files.log)
    (hs : ∀ op ∈ ops, Said (k'.sys.registers 2) op) (hf : ops = [] → (k'.sys.registers 2).slt 0 = true) : SaysSo call k k' := by
  have ho : ∀ op, k'.files.log = op :: k.files.log → Said (k'.sys.registers 2) op := by
    intro op h
    have hop : ops = [op] := append_cancel_right (hl.symm.trans h)
    exact hs op (by rw [hop]; exact mem_cons_self)
  refine ⟨fun h _ => hf (append_cancel_right (hl.symm.trans h)), fun id h => ho _ h, fun id h => ?_, fun pos h => ho _ h⟩
  rw [hg] at h
  cases h

theorem createFileFunction_saysSo (h : createFileFunction bigEndian k = .ok ((), k')) : SaysSo .createFile k k' := by
  rw [createFileFunction, bind_readRegister] at h
  obtain ⟨name, k1, h1, h⟩ := run_bind.mp h
  obtain ⟨-, hf, -⟩ := userName_ok h1
  obtain ⟨value, k2, h2, h⟩ := run_bind.mp h
  obtain ⟨fs, hfs, rfl⟩ := onFiles_ok h2
  obtain ⟨hr2, hf'⟩ := answer_ok h
  rw [hf] at hfs
  rcases createCall_ok hfs with ⟨rfl, rfl⟩ | ⟨-, hl⟩
  · exact .of_ops rfl [] (by rw [hf']; rfl) (by simp) fun _ => by rw [hr2]; decide
  · exact .of_ops rfl [.created name] (by rw [hf']; exact hl) (by simp [Said]) nofun

theorem closeFunction_saysSo (h : closeFunction k = .ok ((), k')) : SaysSo .close k k' := by
  rw [closeFunction, bind_readRegister] at h
  obtain ⟨value, k2, h2, h⟩ := run_bind.mp h
  obtain ⟨fs, hfs, rfl⟩ := onFiles_ok h2
  obtain ⟨hr2, hf'⟩ := answer_ok h
  rcases closeCall_ok hfs with ⟨rfl, rfl⟩ | ⟨-, hl, -⟩
  · exact .of_ops rfl [] (by rw [hf']; rfl) (by simp) fun _ => by rw [hr2]; decide
  · exact .of_ops rfl [.closed _] (by rw [hf']; exact hl) (by simp [Said]) nofun

/-- The call answers -1 and does nothing. -/
theorem SaysSo.of_refused (hg : granted call k = none) (h : answer (-1) k = .ok ((), k')) : SaysSo call k k' := by
  obtain ⟨hr2, hf⟩ := answer_ok h
  exact .of_ops hg [] (by rw [hf]; rfl) (by simp) fun _ => by rw [hr2]; decide

theorem readFunction_saysSo (h : readFunction bigEndian sv k = .ok ((), k')) : SaysSo .read k k' := by
  cases readFunction_steps h with
  | refused _ h => exact .of_refused rfl h
  | @console _ _ size _ _ _ _ _ _ hf _ hr hb h =>
    obtain ⟨hf4, -⟩ := onMachine_quiet (fun m => system2User_calm m _ _ _) hb
    obtain ⟨hr2, hf'⟩ := answer_ok h
    have hl := readConsole_ok hr
    rw [hf.quiet.1, ← hf4, ← hf'] at hl
    split at hl
    · rename_i hng
      exact .of_ops rfl [] hl (by simp) fun _ => by rw [hr2]; exact hng
    · exact .of_ops rfl [.read size] hl (by simp [Said]) nofun
  | nothing hf _ _ hr hn h =>
    have hl := FileSystem.read_log hr
    obtain ⟨hr2, hf'⟩ := answer_ok h
    rw [hf.quiet.1, if_neg hn] at hl
    exact .of_ops rfl [] (by rw [hf']; exact hl) (by simp) fun _ => by rw [hr2]; decide
  | @file _ _ _ numRead _ _ _ _ _ _ _ hf _ _ hr hs hp hb h =>
    have hl := FileSystem.read_log hr
    obtain ⟨f', -, -, rfl⟩ := FileSystem.getCurrentPos_ok hp
    obtain ⟨hf5, -⟩ := onMachine_quiet (fun m => system2User_calm m _ _ _) hb
    obtain ⟨-, hf'⟩ := answer_ok h
    rw [hf.quiet.1, if_pos hs] at hl
    refine .of_ops rfl [.read numRead] ?_ (by simp [Said]) nofun
    rw [hf', hf5]
    exact hl

theorem SaysSo.silent_iff (hl : k'.files.log = k.files.log) :
    SaysSo call k k' ↔ (granted call k = none → (k'.sys.registers 2).slt 0 = true) ∧
      ∀ id, granted call k = some id → k'.sys.registers 2 = ofNat 32 id := by
  have hs : ∀ op, k'.files.log ≠ op :: k.files.log := by
    intro op h
    exact cons_ne_self op _ (h.symm.trans hl)
  constructor
  · intro h; exact ⟨h.failed hl, h.console⟩
  · rintro ⟨h1, h2⟩
    exact ⟨fun _ => h1, fun id h => absurd h (hs _), h2, fun pos h => absurd h (hs _)⟩

theorem Syscall.code_nonneg (call : Syscall) : call.code.slt 0 = false := by cases call <;> decide

/-- A path that does nothing and leaves r2 alone answers the number of the call. -/
theorem SaysSo.not_of_silent (hl : k'.files.log = k.files.log) (hr2 : k'.sys.registers 2 = call.code)
    (hg : granted call k = none) : ¬ SaysSo call k k' := by
  rw [SaysSo.silent_iff hl]
  rintro ⟨h, -⟩
  have hn := h hg
  rw [hr2, call.code_nonneg] at hn
  cases hn

theorem writeLine_log (buffer : List Byte) : ∀ {k k' : KernelState W} {i : Nat}, writeLine sv buffer k = .ok (i, k') →
    ∃ ops, k'.files.log = ops ++ k.files.log ∧ ∀ op ∈ ops, ∀ r2, Said r2 op := by
  induction buffer with
  | nil => intro k k' i h; cases h
  | cons b rest ih =>
    intro k k' i h
    simp only [writeLine] at h
    split at h
    · obtain ⟨u, k1, h1, h⟩ := run_bind.mp h
      obtain ⟨j, k2, h2, h⟩ := run_bind.mp h
      cases h
      obtain ⟨ops, ho, hp⟩ := ih h2
      refine ⟨ops ++ [.output [b]], ?_, ?_⟩
      · rw [ho, writeConsole_ok h1, append_assoc]; rfl
      intro op hop
      rcases mem_append.mp hop with h | h
      · exact hp op h
      · cases mem_singleton.mp h
        exact fun _ => trivial
    · cases h; exact ⟨[], rfl, by simp⟩

theorem writeFunction_saysSo (hr2 : k.sys.registers 2 = Syscall.write.code) (h : writeFunction bigEndian sv k = .ok ((), k')) :
    SaysSo .write k k' ↔ Answered bigEndian .write k := by
  simp only [Answered]
  -- a Write to a file is logged, unless the length was -1
  have hfl : ∀ {f : Stub.OpenFile} {oldPos numWritten : Word} {buffer : List Byte} {k2 : KernelState W} {fs : FileSystem},
      Fetched bigEndian k f oldPos buffer k2 →
      k2.files.write (k.sys.registers 6).toNat buffer (k.sys.registers 5) = .ok (numWritten, fs) →
      (k.sys.registers 5).slt 0 = false → k'.files.log = fs.log →
      (SaysSo .write k k' ↔ ¬ (k.sys.registers 5 = -1 ∧ (k.files.fileOf (k.sys.registers 6)).any (·.type = .readWrite))) := by
    intro f oldPos numWritten buffer k2 fs hft hw hng hf'
    obtain ⟨rfl, -, hlg⟩ := FileSystem.write_log hw
    rw [hft.quiet.1, hng, if_neg (by simp)] at hlg
    refine iff_of_true ?_ fun hb => by rw [hb.1] at hng; cases hng
    exact .of_ops rfl [.wrote (k.sys.registers 5)] (by rw [hf']; exact hlg) (by simp [Said]) nofun
  cases writeFunction_steps h with
  | refused ht h =>
    refine iff_of_true (.of_refused rfl h) fun hb => ?_
    obtain ⟨f, hf, hrw⟩ := (Option.any_eq_true _ _).mp hb.2
    rcases ht f hf with e | e <;> simp [e] at hrw
  | nothing hft ht hw hn h =>
    cases h
    cases hng : (k.sys.registers 5).slt 0 with
    | true =>
      obtain ⟨rfl, hm, hlg⟩ := FileSystem.write_log hw
      obtain ⟨hl2, hrg2⟩ := hft.quiet
      rw [hl2, hng, if_pos rfl] at hlg
      refine iff_of_false ?_ fun hok => hok ⟨hm hng, by simp [hft.slot, ht]⟩
      exact SaysSo.not_of_silent hlg (by rw [hrg2, hr2]) rfl
    | false => exact hfl hft hw hng rfl
  | file hft ht hw hs hps h =>
    obtain ⟨rfl, hm, -⟩ := FileSystem.write_log hw
    obtain ⟨f', -, -, rfl⟩ := FileSystem.getCurrentPos_ok hps
    refine hfl hft hw ?_ (by rw [(answer_ok h).2]; rfl)
    refine Bool.eq_false_iff.mpr fun hng => ?_
    rw [hm hng] at hs
    cases hs
  | @console _ _ buffer _ _ _ _ hft ht hl he h =>
    refine iff_of_true ?_ fun hb => by simp [hft.slot, ht] at hb
    obtain ⟨ops, ho, hp⟩ := writeLine_log buffer hl
    refine .of_ops rfl (.output [10] :: ops) ?_ ?_ nofun
    · rw [(answer_ok h).2, writeConsole_ok he, ho, hft.quiet.1]; rfl
    intro op hop
    rcases mem_cons.mp hop with rfl | h
    · trivial
    · exact hp op h _

theorem openFunction_saysSo (hr2 : k.sys.registers 2 = Syscall.openFile.code) (h : openFunction bigEndian k = .ok ((), k')) :
    SaysSo .openFile k k' ↔ Answered bigEndian .openFile k := by
  rw [openFunction, bind_readRegister] at h
  obtain ⟨name, k1, h₁, h⟩ := run_bind.mp h
  obtain ⟨hnm, hf, hr⟩ := userName_ok h₁
  rw [bind_readRegister] at h
  obtain ⟨value, k2, h₂, h⟩ := run_bind.mp h
  obtain ⟨fs, hfs, rfl⟩ := onFiles_ok h₂
  obtain ⟨hv, hf'⟩ := answerIf_ok h
  simp only [hr, hf] at hfs hv hf'
  have hfs' := Except.ok.inj hfs
  cases hs : k.files.findFreeSlot with
  | none =>
    simp only [FileSystem.openCall, hs] at hfs'
    cases hfs'
    have hg : granted .openFile k = none := by simp [granted, consoleSlot, hs]
    refine iff_of_true ?_ (.inl hs)
    rw [SaysSo.silent_iff (by rw [hf']), hv, hg]
    exact ⟨fun _ => rfl, nofun⟩
  | some slot =>
    have hg : granted .openFile k = if k.sys.registers 5 = 2 ∧ (k.files.openfile 0).isSome then some 0
        else if k.sys.registers 5 = 3 ∧ (k.files.openfile 1).isSome then some 1 else none := by
      simp [granted, consoleSlot, hs]
    simp only [Answered, hs, reduceCtorEq, false_or]
    cases openCall_steps hs hfs' with
    | opened f h01 ho hl _ =>
      have hn : granted .openFile k = none := by rcases h01 with e | e <;> simp [hg, e]
      rw [← hf'] at hl
      exact iff_of_true (.of_ops hn [.opened slot] hl (by simpa [Said] using hv) nofun) (.inl ⟨h01, name, hnm, ho⟩)
    | absent h01 ho hl _ =>
      have hn : granted .openFile k = none := by rcases h01 with e | e <;> simp [hg, e]
      rw [← hf'] at hl
      refine iff_of_false (SaysSo.not_of_silent hl (hv.trans hr2) hn) ?_
      rintro (⟨-, name', hn', ho'⟩ | ⟨e, -⟩ | ⟨e, -⟩)
      · rw [hnm] at hn'
        cases hn'
        rw [ho] at ho'
        cases ho'
      · rcases h01 with e' | e' <;> rw [e'] at e <;> cases e
      · rcases h01 with e' | e' <;> rw [e'] at e <;> cases e
    | stdin h2 e =>
      rw [SaysSo.silent_iff (by rw [hf', e]), hv, hg, h2]
      cases ho : (k.files.openfile 0).isSome <;> simp
    | stdout h3 e =>
      rw [SaysSo.silent_iff (by rw [hf', e]), hv, hg, h3]
      cases ho : (k.files.openfile 1).isSome <;> simp
    | other ht e =>
      obtain ⟨h01, h2, h3⟩ := ht
      have hn : granted .openFile k = none := by rw [hg, if_neg (h2 ·.1), if_neg (h3 ·.1)]
      refine iff_of_false (SaysSo.not_of_silent (by rw [hf', e]) (hv.trans hr2) hn) ?_
      rintro (⟨e, -⟩ | ⟨e, -⟩ | ⟨e, -⟩)
      · exact h01 e
      · exact h2 e
      · exact h3 e

theorem seekFunction_saysSo (hr2 : k.sys.registers 2 = Syscall.seek.code) (h : seekFunction k = .ok ((), k')) :
    SaysSo .seek k k' ↔ Answered bigEndian .seek k := by
  rw [seekFunction, bind_readRegister, bind_readRegister] at h
  obtain ⟨value, k2, h2, h⟩ := run_bind.mp h
  obtain ⟨fs, hfs, rfl⟩ := onFiles_ok h2
  obtain ⟨hvl, hf'⟩ := answerIf_ok h
  simp only at hvl hf'
  -- a path that carries out nothing writes nothing
  have hsl : value = none → fs.log = k.files.log → ¬ SaysSo .seek k k' := by
    intro hv hl
    rw [hv] at hvl
    exact SaysSo.not_of_silent (by rw [hf']; exact hl) (hvl.trans hr2) rfl
  simp only [Answered]
  cases hc : k.files.canSeek (k.sys.registers 5) with
  | false =>
    rw [FileSystem.seekCall, hc] at hfs
    cases hfs
    exact iff_of_false (hsl rfl rfl) fun h => by simp at h
  | true =>
    obtain ⟨f, hf⟩ := canSeek_open hc
    have hd : SeekEnds _ _ (k.sys.registers 4) _ := seekCall_ends hc hf
    rw [hfs] at hd
    simp only [hf, Option.some.injEq, exists_eq_left', true_and]
    cases hd with
    | negative hne hneg =>
      refine iff_of_false (hsl rfl rfl) (not_or.mpr ⟨hne, fun hle => ?_⟩)
      have hs : (k.files.host.content f.ino).length ≤ 2147483647 := k.files.host.small f.ino
      rw [negative_iff] at hneg
      omega
    | beyond _ hlt hlog => exact iff_of_false (hsl rfl hlog) hlt
    | @sought p _ _ hle hlog =>
      rw [← hf'] at hlog
      exact iff_of_true (.of_ops rfl [.sought p] hlog (by simpa [Said] using hvl) nofun) hle

/-- `ExceptionHandler` adds nothing to what the handler leaves in r2 and in the table. -/
theorem exceptionHandler_serve (hr2 : k.sys.registers 2 = call.code)
    (h : exceptionHandler bigEndian sv .syscallException k = .ok ((), k')) :
    ∃ k1, serve bigEndian sv call k = .ok ((), k1) ∧ k'.files = k1.files ∧ k'.sys.registers 2 = k1.sys.registers 2 := by
  obtain ⟨type, k0, h0, h⟩ := run_bind.mp h
  cases h0
  simp only [hr2, Syscall.ofCode_code] at h
  obtain ⟨u, k1, hs, hpc⟩ := run_bind.mp h
  refine ⟨k1, hs, ?_, (increasePC_eq hpc).2.2 2⟩
  cases hpc
  rfl

/-- A file system call that carries out nothing leaves a negative number in r2, and Open and
    Seek leave the descriptor and the position, for exactly these arguments and tables. -/
theorem saysSo_iff (hcall : call ∈ [.createFile, .openFile, .close, .read, .write, .seek])
    (hr2 : k.sys.registers 2 = call.code) (h : exceptionHandler bigEndian sv .syscallException k = .ok ((), k')) :
    SaysSo call k k' ↔ Answered bigEndian call k := by
  obtain ⟨k₁, hserve, hfiles, hr2'⟩ := exceptionHandler_serve hr2 h
  have hsame : SaysSo call k k' ↔ SaysSo call k k₁ := by
    constructor
    · rintro ⟨h₁, h₂, h₃, h₄⟩; rw [hfiles, hr2'] at *; exact ⟨h₁, h₂, h₃, h₄⟩
    · rintro ⟨h₁, h₂, h₃, h₄⟩
      exact ⟨by rw [hfiles, hr2']; exact h₁, by rw [hfiles, hr2']; exact h₂, by rw [hr2']; exact h₃,
        by rw [hfiles, hr2']; exact h₄⟩
  rw [hsame]
  simp only [List.mem_cons, List.not_mem_nil, or_false] at hcall
  rcases hcall with rfl | rfl | rfl | rfl | rfl | rfl
  · exact iff_of_true (createFileFunction_saysSo hserve) trivial
  · exact openFunction_saysSo hr2 hserve
  · exact iff_of_true (closeFunction_saysSo hserve) trivial
  · exact iff_of_true (readFunction_saysSo hserve) trivial
  · exact writeFunction_saysSo hr2 hserve
  · exact seekFunction_saysSo hr2 hserve

end

end Nachos

/-
  Nachos.Test.Kernel — the kernel's file calls under the programs.

  `readCall` and `writeCall` are `ReadFunction` and `WriteFunction` on files, without the
  copies between the user's memory and the kernel; `readFunction_call` and
  `writeFunction_call` connect them with the handlers. `kernel` answers the programs' calls
  with the kernel's own descriptor table over the host's files, and `kernel_serves` says
  that it does what `Files.serve` says.
-/

import Mathlib.Data.List.Find
import Nachos.Test.Files
import Nachos.Userprog.Writing

namespace Nachos

open Handler List BitVec
open BitVec (ofNat)
open Stub (FileSystem)
open Function (update update_eq_self update_idem update_of_ne update_self)

/-! ## Read and Write on files -/

namespace Stub.FileSystem

/-- `ReadFunction` on a file: the value, and the bytes. The console is not a file. -/
def readCall (fs : FileSystem) (charcount id : Word) : Except Stop ((Word × List Byte) × FileSystem) :=
  match fs.fileOf id with
  | none => .ok ((-1, []), fs)
  | some file =>
    if file.type = .stdout then .ok ((-1, []), fs)
    else if file.type = .stdin then .error .undefined
    else do
      let (oldPos, fs) ← fs.getCurrentPos id.toNat
      let ((numRead, bytes), fs) ← fs.read id.toNat charcount
      if BitVec.slt 0 numRead then
        let (newPos, fs) ← fs.getCurrentPos id.toNat
        return ((newPos - oldPos, bytes), fs)
      else return ((-2, []), fs)

/-- `WriteFunction` on a file; `none` when it leaves r2 alone. -/
def writeCall (fs : FileSystem) (buffer : List Byte) (charcount id : Word) : Except Stop (Option Word × FileSystem) :=
  match fs.fileOf id with
  | none => .ok (some (-1), fs)
  | some file =>
    if file.type = .readOnly ∨ file.type = .stdin then .ok (some (-1), fs)
    else if file.type = .stdout then .error .undefined
    else do
      let (oldPos, fs) ← fs.getCurrentPos id.toNat
      let (numWritten, fs) ← fs.write id.toNat buffer charcount
      if BitVec.slt 0 numWritten then
        let (newPos, fs) ← fs.getCurrentPos id.toNat
        return (some (newPos - oldPos), fs)
      else return (none, fs)

end Stub.FileSystem

section

variable {W : Type} {bigEndian : Bool} {sv : Services W} {k k' : KernelState W}

/-- What a Read of a file answers and does to the table is what `readCall` says. -/
theorem readFunction_call (hfi : ∀ f, k.files.fileOf (k.sys.registers 6) = some f → f.type ≠ .stdin)
    (h : readFunction bigEndian sv k = .ok ((), k')) :
    ∃ bytes, k.files.readCall (k.sys.registers 5) (k.sys.registers 6) = .ok ((k'.sys.registers 2, bytes), k'.files) := by
  unfold Stub.FileSystem.readCall
  cases readFunction_steps h with
  | refused ho h =>
    obtain ⟨hr2, hfl⟩ := answer_ok h
    refine ⟨[], ?_⟩
    rw [hr2, hfl]
    cases hs : k.files.fileOf (k.sys.registers 6) with
    | none => rfl
    | some file => simp only [if_pos (ho file hs)]
  | console hf hin => exact absurd hin (hfi _ hf.slot)
  | nothing hf ho hin hr hn h =>
    obtain ⟨fs, m, hp, -, rfl⟩ := hf.steps
    obtain ⟨hr2, hfl⟩ := answer_ok h
    refine ⟨[], ?_⟩
    simp only [hf.slot, if_neg ho, if_neg hin, hp, hr, bind, Except.bind]
    rw [if_neg hn, hr2, hfl]
    rfl
  | @file _ _ _ _ _ bytes _ _ _ _ _ hf ho hin hr hsm hp4 hb h =>
    obtain ⟨fs, m, hp, -, rfl⟩ := hf.steps
    obtain ⟨m5, -, rfl⟩ := onMachine_ok hb
    obtain ⟨hr2, hfl⟩ := answer_ok h
    refine ⟨bytes, ?_⟩
    simp only [hf.slot, if_neg ho, if_neg hin, hp, hr, bind, Except.bind]
    rw [if_pos hsm, hp4, hr2, hfl]
    rfl

/-- "ABC" is read from slot 2. -/
theorem readFunction_call_text :
    let k := calling 0 3 2 (fun _ => 7) (fileOfBytes [65, 66, 67] (by decide))
    ∃ k' bytes, readFunction false busyConsole k = .ok ((), k') ∧ k.files.readCall 3 2 = .ok ((k'.sys.registers 2, bytes), k'.files) := by
  intro k
  obtain ⟨⟨u, k'⟩, h, -⟩ := Lib.exists_ok (x := readFunction false busyConsole k) (fun _ => true) (by decide +kernel)
  have hfile : ∀ f, k.files.fileOf (k.sys.registers 6) = some f → f.type ≠ .stdin := by
    intro f hf
    cases hf
    decide
  obtain ⟨bytes, hcall⟩ := readFunction_call hfile h
  exact ⟨k', bytes, h, hcall⟩

/-- What a Write to a file answers and does to the table is what `writeCall` says. -/
theorem writeFunction_call (hfi : ∀ f, k.files.fileOf (k.sys.registers 6) = some f → f.type ≠ .stdout)
    {buffer : List Byte} {m : Machine}
    (hb : k.sys.machine.user2System bigEndian (k.sys.registers 4) (k.sys.registers 5) = .done buffer m)
    (h : writeFunction bigEndian sv k = .ok ((), k')) :
    ∃ value, k.files.writeCall buffer (k.sys.registers 5) (k.sys.registers 6) = .ok (value, k'.files) ∧
      ∀ v, value = some v → k'.sys.registers 2 = v := by
  unfold Stub.FileSystem.writeCall
  have hro : ∀ {f : Stub.OpenFile}, f.type = .readWrite → ¬ (f.type = .readOnly ∨ f.type = .stdin) := by
    intro f hrw
    rw [hrw]
    decide
  cases writeFunction_steps h with
  | refused hro h =>
    obtain ⟨hr2, hfl⟩ := answer_ok h
    refine ⟨some (-1), ?_, by intro v hv; cases hv; exact hr2⟩
    rw [hfl]
    cases hs : k.files.fileOf (k.sys.registers 6) with
    | none => rfl
    | some file => simp only [if_pos (hro file hs)]
  | console hf ho => exact absurd ho (hfi _ hf.slot)
  | nothing hf hrw hw hn h =>
    obtain ⟨fs, m2, hp, hc, rfl⟩ := hf.steps
    cases hb.symm.trans hc
    cases h
    refine ⟨none, ?_, by intro v hv; cases hv⟩
    simp only [hf.slot, if_neg (hro hrw), if_neg (hfi _ hf.slot), hp, hw, bind, Except.bind]
    rw [if_neg hn]
    rfl
  | @file _ oldPos newPos _ _ _ _ _ hf hrw hw hsm hp4 h =>
    obtain ⟨fs, m2, hp, hc, rfl⟩ := hf.steps
    cases hb.symm.trans hc
    obtain ⟨hr2, hfl⟩ := answer_ok h
    refine ⟨some (newPos - oldPos), ?_, by intro v hv; cases hv; exact hr2⟩
    simp only [hf.slot, if_neg (hro hrw), if_neg (hfi _ hf.slot), hp, hw, bind, Except.bind]
    rw [if_pos hsm, hp4, hfl]
    rfl

/-- "AB" is written to slot 2. -/
theorem writeFunction_call_text :
    let k := calling 0 2 2 (memoryOf [65, 66]) (fileOfBytes [97, 98, 99] (by decide))
    ∃ k' value, writeFunction false busyConsole k = .ok ((), k') ∧ k.files.writeCall [65, 66, 0] 2 2 = .ok (value, k'.files) := by
  intro k
  obtain ⟨⟨u, k'⟩, h, -⟩ := Lib.exists_ok (x := writeFunction false busyConsole k) (fun _ => true) (by decide +kernel)
  have hfile : ∀ f, k.files.fileOf (k.sys.registers 6) = some f → f.type ≠ .stdout := by
    intro f hf
    cases hf
    decide
  have hhold : k.sys.machine.Holds 0 [65, 66] := ⟨by decide +kernel, by decide +kernel, trivial⟩
  obtain ⟨m, hbuffer⟩ := user2System_bytes false (calling_ownPages 0 2 2 _ _) hhold rfl
  obtain ⟨value, hcall, -⟩ := writeFunction_call hfile hbuffer h
  exact ⟨k', value, h, hcall⟩

end

/-! ## On a host that answers as POSIX says -/

namespace Stub.FileSystem

variable {fs : FileSystem} {id : Word} {f : Stub.OpenFile} {i pos : Nat} {name : List Byte}

theorem fileOf_of (hid : id.toNat ≤ 9) (hf : fs.openfile id.toNat = some f) : fs.fileOf id = some f := by
  rw [fileOf_eq, if_pos hid, hf]

variable {hp : pos ≤ maxOffset}

/-- `GetCurrentPos` of a file whose two offsets agree. -/
theorem getCurrentPos_moved (hf : fs.openfile i = some (f.movedTo pos hp)) :
    fs.getCurrentPos i = .ok (ofNat 32 pos, fs) := by
  have hs : fs.setSlot i (some (f.movedTo pos hp)) = fs := by
    rw [setSlot, ← hf, update_eq_self]
  exact (getCurrentPos_of hf).trans (congrArg (fun x => Except.ok (ofNat 32 pos, x)) hs)

/-- Read of one byte: the next one, or -2 at the end of the file. -/
theorem readCall_one (hid : id.toNat ≤ 9) (hf : fs.openfile id.toNat = some f)
    (hty : f.type = .readWrite ∨ f.type = .readOnly) (ha : fs.host.answers = []) :
    let bytes := f.delivered fs.host 1
    ∃ fs', fs.readCall 1 id = .ok (if bytes = [] then (-2, []) else (1, bytes), fs') ∧ fs'.host = fs.host ∧
      fs'.openfile = update fs.openfile id.toNat
        (some (f.movedTo (f.offset + bytes.length) (f.offset_add_delivered fs.host 1))) := by
  intro bytes
  have hs : (fs.setSlot id.toNat (some (f.movedTo f.offset f.fits))).openfile id.toNat =
      some (f.movedTo f.offset f.fits) := update_self ..
  obtain ⟨fs1, hr, hh, ht⟩ := read_posix hs ha rfl (show ¬ (1 : Word).slt 0 = true by decide)
  have ht' : fs1.openfile = update fs.openfile id.toNat
      (some (f.movedTo (f.offset + bytes.length) (f.offset_add_delivered fs.host 1))) :=
    ht.trans (update_idem ..)
  simp only [readCall, fileOf_of hid hf]
  rw [if_neg (by rcases hty with e | e <;> rw [e] <;> decide), if_neg (by rcases hty with e | e <;> rw [e] <;> decide),
    getCurrentPos_of hf]
  have hr' : (fs.setSlot id.toNat (some { f with currentOffset := f.tell })).read id.toNat 1 =
      .ok ((ofNat 32 bytes.length, bytes), fs1) := hr
  simp only [bind, Except.bind, hr']
  by_cases h0 : bytes = []
  · refine ⟨fs1, ?_, hh, ht'⟩
    rw [h0, if_neg (by decide), if_pos rfl]
    rfl
  · have ho : bytes.length = 1 := by
      have hle : bytes.length ≤ 1 := length_take_le ..
      have hp := length_pos_iff.mpr h0
      omega
    have hc : ofNat 32 (f.offset + bytes.length) - f.tell = 1 := by
      rw [ho, OpenFile.tell, ofNat_add, BitVec.add_comm, BitVec.add_sub_cancel]
      rfl
    refine ⟨fs1, ?_, hh, ht'⟩
    rw [if_neg h0, if_pos (by rw [ho]; decide), getCurrentPos_moved (by rw [ht', update_self])]
    exact congrArg (fun v => Except.ok ((v, bytes), fs1)) hc

/-- Write of some bytes to a file with room. -/
theorem writeCall_file (hid : id.toNat ≤ 9) (hf : fs.openfile id.toNat = some f) (hty : f.type = .readWrite)
    (ha : fs.host.answers = []) {n : Word} (hn : BitVec.slt 0 n = true) {buffer : List Byte}
    (hl : (buffer.take n.toNat).length = n.toNat) (hr : f.offset + n.toNat ≤ maxOffset) :
    ∃ fs' hc, fs.writeCall buffer n id = .ok (some n, fs') ∧
      fs'.openfile = update fs.openfile id.toNat (some (f.movedTo (f.offset + n.toNat) hr)) ∧
      fs'.host = fs.host.setContent f.ino (Host.splice (fs.host.content f.ino) f.offset (buffer.take n.toNat)) hc := by
  have hs : (fs.setSlot id.toNat (some (f.movedTo f.offset f.fits))).openfile id.toNat =
      some (f.movedTo f.offset f.fits) := update_self ..
  have hng : ¬ n.slt 0 = true := by
    rw [positive_iff] at hn
    rw [negative_iff]
    omega
  obtain ⟨fs1, hc, hw, ht, hh⟩ := write_posix hs ha rfl hng hl hr
  have ht' : fs1.openfile = update fs.openfile id.toNat (some (f.movedTo (f.offset + n.toNat) hr)) :=
    ht.trans (update_idem ..)
  simp only [writeCall, fileOf_of hid hf]
  rw [if_neg (by rw [hty]; decide), if_neg (by rw [hty]; decide), getCurrentPos_of hf]
  have hw' : (fs.setSlot id.toNat (some { f with currentOffset := f.tell })).write id.toNat buffer n =
      .ok (n, fs1) := hw
  simp only [bind, Except.bind, hw']
  have hcn : ofNat 32 (f.offset + n.toNat) - f.tell = n := by
    rw [OpenFile.tell, ofNat_add, BitVec.add_comm, BitVec.add_sub_cancel, ofNat_word]
  rw [if_pos hn, getCurrentPos_moved (by rw [ht', update_self])]
  exact ⟨fs1, hc, congrArg (fun v => Except.ok (some v, fs1)) hcn, ht', hh⟩

/-- `Length` of a file whose two offsets agree. -/
theorem length_moved (hf : fs.openfile i = some (f.movedTo pos hp)) :
    fs.length i = .ok (ofNat 32 (fs.host.content f.ino).length, fs) := by
  have hto : (ofNat 32 pos).toNat = pos := (f.movedTo pos hp).offset_toNat
  have hst : ((f.movedTo pos hp).lseekEnd fs.host).lseekSet (ofNat 32 pos) = .ok (f.movedTo pos hp) := by
    rw [OpenFile.lseekSet, dif_pos (by rw [hto]; exact hp)]
    simp only [hto]
    rfl
  have hl : (f.movedTo pos hp).length fs.host =
      .ok (ofNat 32 (fs.host.content f.ino).length, f.movedTo pos hp) :=
    (congrArg (· >>= fun g => Except.ok (_, g)) hst)
  have hs : fs.setSlot i (some (f.movedTo pos hp)) = fs := by
    rw [setSlot, ← hf, update_eq_self]
  simp only [length, on, hf, hl, bind, Except.bind]
  exact congrArg (fun x => Except.ok (_, x)) hs

/-- Seek to the end of the file, or to a place in it. -/
theorem seekCall_moved (hid : 2 ≤ id.toNat ∧ id.toNat ≤ 9)
    (hf : fs.openfile id.toNat = some (f.movedTo pos hp)) {target : Word} {n : Nat}
    (hn : n ≤ (fs.host.content f.ino).length)
    (ht : target = -1 ∧ n = (fs.host.content f.ino).length ∨ target = ofNat 32 n) :
    ∃ fs' hp', fs.seekCall target id = .ok (some (ofNat 32 n), fs') ∧ fs'.host = fs.host ∧
      fs'.openfile = update fs.openfile id.toNat (some (f.movedTo n hp')) := by
  have hm : (fs.host.content f.ino).length ≤ 2147483647 := fs.host.small f.ino
  have hto : (ofNat 32 n).toNat = n := ofNat_toNat (by omega)
  have hc : fs.canSeek id = true := (canSeek_iff fs id).mpr ⟨hid.1, hid.2, by rw [hf]; rfl⟩
  have hs : fs.seekTarget target id = .ok (ofNat 32 n, fs) := by
    rcases ht with ⟨rfl, rfl⟩ | rfl
    · rw [seekTarget, if_pos rfl, length_moved hf]
    rw [seekTarget, if_neg]
    intro hng
    have := congrArg BitVec.toNat hng
    rw [hto] at this
    have h1 : (-1 : Word).toNat = 4294967295 := rfl
    omega
  have hps : ¬ (ofNat 32 n).slt 0 = true := by
    rw [negative_iff, hto]
    omega
  have hle : ¬ BitVec.slt (ofNat 32 (fs.host.content f.ino).length) (ofNat 32 n) = true := by
    rw [slt_iff_toInt_lt, toInt_eq_toNat_of_lt, toInt_eq_toNat_of_lt, hto, toNat_ofNat,
      Nat.mod_eq_of_lt (by omega)]
    · omega
    · rw [hto]; omega
    · rw [toNat_ofNat, Nat.mod_eq_of_lt (by omega)]; omega
  have hp' : n ≤ maxOffset := Nat.le_trans hn hm
  have hst : (f.movedTo pos hp).seek (ofNat 32 n) = .ok (ofNat 32 n, f.movedTo n hp') := by
    have hl : (f.movedTo pos hp).lseekSet (ofNat 32 n) = .ok { f.movedTo pos hp with offset := n, fits := hp' } := by
      rw [OpenFile.lseekSet, dif_pos (by rw [hto]; exact hp')]
      simp only [hto]
    rw [OpenFile.seek, hl]
    rfl
  simp only [seekCall, if_pos hc, hs, length_moved hf, bind, Except.bind, if_neg hps, if_neg hle, seek, on, hf, hst]
  exact ⟨_, hp', rfl, rfl, rfl⟩

/-- Seek refuses a descriptor above 9, and leaves r2 alone. -/
theorem seekCall_dead (hid : 9 < id.toNat) (target : Word) : fs.seekCall target id = .ok (none, fs) := by
  rw [seekCall, if_neg]
  intro hc
  have := ((canSeek_iff fs id).mp hc).2.1
  omega

theorem close_posix {h : Host} (ha : h.answers = []) : h.close = .ok h := by
  simp only [Host.close, OpenFile.answer_posix ha]

theorem openCall_free {type : Word} {ino : Ino} (hf : fs.findFreeSlot = some i)
    (hn : fs.host.names name = some ino) (ha : fs.host.answers = []) (ht : type = 0 ∨ type = 1) :
    ∃ fs', fs.openCall name type = (some (ofNat 32 i), fs') ∧ fs'.host = fs.host ∧
      fs'.openfile = update fs.openfile i
        (some ⟨if type = 0 then .readWrite else .readOnly, ino, 0, 0, Nat.zero_le _⟩) := by
  have ho : fs.host.openRW name = (some ino, fs.host) := by
    simp only [Host.openRW, OpenFile.answer_posix ha, hn]
  simp only [openCall, hf, if_pos ht, openSlot, openName, ho]
  exact ⟨_, rfl, rfl, rfl⟩

theorem closeCall_open (hid : id.toNat ≤ 14) (hf : (fs.openfile id.toNat).isSome = true) (ha : fs.host.answers = []) :
    ∃ fs', fs.closeCall id = .ok (0, fs') ∧ fs'.host = fs.host ∧
      fs'.openfile = update fs.openfile id.toNat none := by
  rw [closeCall, if_pos ((canClose_iff fs id).mpr ⟨hid, hf⟩)]
  simp only [closeSlot, close_posix ha, bind, Except.bind]
  exact ⟨_, rfl, rfl, rfl⟩

/-- CreateFile empties the file, or makes a new one. -/
theorem createCall_posix (hn : name ≠ []) (ha : fs.host.answers = []) :
    ∃ fs' ino, fs.createCall name = .ok (0, fs') ∧ fs'.openfile = fs.openfile ∧ fs'.host.answers = [] ∧
      fs'.host.content = update fs.host.content ino [] ∧
      (fs.host.names name = some ino ∧ fs'.host.names = fs.host.names ∧ fs'.host.created = fs.host.created ∨
        fs.host.names name = none ∧ ino = fs.host.created ∧
        fs'.host.names = update fs.host.names name (some ino) ∧ fs'.host.created = fs.host.created + 1) := by
  cases hin : fs.host.names name with
  | some ino =>
    have ho : fs.host.openTrunc name = (some ino, fs.host.setContent ino [] (Nat.zero_le _)) := by
      simp only [Host.openTrunc, OpenFile.answer_posix ha, if_neg hn, hin]
    have hc : (fs.host.setContent ino [] (Nat.zero_le _)).close = .ok _ := close_posix ha
    simp only [createCall, if_neg hn, create, ho, hc, bind, Except.bind]
    exact ⟨_, ino, rfl, rfl, ha, rfl, .inl ⟨rfl, rfl, rfl⟩⟩
  | none =>
    have ho : fs.host.openTrunc name = (some fs.host.created,
        { fs.host.setContent fs.host.created [] (Nat.zero_le _) with
          names := update fs.host.names name (some fs.host.created)
          created := fs.host.created + 1 }) := by
      simp only [Host.openTrunc, OpenFile.answer_posix ha, if_neg hn, hin]
    have hc : (fs.host.openTrunc name).2.close = .ok (fs.host.openTrunc name).2 := close_posix (by rw [ho]; exact ha)
    rw [ho] at hc
    simp only [createCall, if_neg hn, create, ho, hc, bind, Except.bind]
    exact ⟨_, fs.host.created, rfl, rfl, ha, rfl, .inr ⟨trivial, rfl, rfl, rfl⟩⟩

end Stub.FileSystem

theorem Stub.Host.splice_end (content bytes : List Byte) : splice content content.length bytes = content ++ bytes := by
  unfold splice
  split
  · rename_i e
    rw [e, append_nil]
  · rw [take_length, Nat.sub_self, List.replicate_zero, append_nil,
      drop_eq_nil_of_le (Nat.le_add_right ..), append_nil]

namespace WaterTaps

/-! ## The programs' calls -/

/-- The call as the programs' kernel answers it. A call that returns nothing of its own leaves
    its SC_ number in r2. -/
def kernel (fs : FileSystem) : FileCall → Option (Returned × FileSystem)
  | .createFile file => (fs.createCall file.name).toOption.map fun x => (⟨x.1, none⟩, x.2)
  | .openFile file type => some (⟨(fs.openCall file.name type).1.getD 5, none⟩, (fs.openCall file.name type).2)
  | .close id => (fs.closeCall id).toOption.map fun x => (⟨x.1, none⟩, x.2)
  | .read id => (fs.readCall 1 id).toOption.map fun x => (⟨x.1.1, x.1.2.head?⟩, x.2)
  | .write bytes id =>
    (fs.writeCall (clearAfterZero bytes ++ [0]) (BitVec.ofNat 32 bytes.length) id).toOption.map
      fun x => (⟨x.1.getD 7, none⟩, x.2)
  | .seek pos id => (fs.seekCall pos id).toOption.map fun x => (⟨x.1.getD 21, none⟩, x.2)

/-- A slot of the kernel's table and what the programs know of it. -/
def SlotAgrees (h : Stub.Host) : Option Stub.OpenFile → Option Slot → Prop
  | none, none => True
  | some f, some slot =>
    f.type = (if slot.writable then .readWrite else .readOnly) ∧ h.names slot.file.name = some f.ino ∧
      ∃ hp, f = f.movedTo slot.pos hp
  | _, _ => False

/-- The kernel's files are as the programs know them. -/
structure Agrees (fs : FileSystem) (a : Files) : Prop where
  posix : fs.host.answers = []
  /-- No file has two names. -/
  names : ∀ n n' i, fs.host.names n = some i → fs.host.names n' = some i → n = n'
  fresh : ∀ n i, fs.host.names n = some i → i < fs.host.created
  content : ∀ file bytes, a.content file = some bytes →
    ∃ i, fs.host.names file.name = some i ∧ fs.host.content i = bytes
  table : ∀ i, 2 ≤ i → i < 15 → SlotAgrees fs.host (fs.openfile i) (a.table i)

theorem File.name_inj {file file' : File} (h : file.name = file'.name) : file = file' := by
  cases file <;> cases file' <;> first | rfl | exact absurd h (by decide)

namespace Files

theorem content_setContent (a : Files) (bytes : List Byte) (file file' : File) :
    (a.setContent bytes file).content file' = if file' = file then some bytes else a.content file' := by
  cases file <;> cases file' <;> rfl

theorem table_setContent (a : Files) (bytes : List Byte) (file : File) : (a.setContent bytes file).table = a.table := by
  cases file <;> rfl

end Files

namespace Agrees

variable {fs fs' : FileSystem} {a : Files} {i : Nat} {file : File}

theorem setSlot (h : Agrees fs a) {f : Option Stub.OpenFile} {slot : Option Slot} (hh : fs'.host = fs.host)
    (ht : fs'.openfile = update fs.openfile i f) (hs : SlotAgrees fs.host f slot) :
    Agrees fs' (a.setSlot i slot) := by
  refine ⟨by rw [hh]; exact h.posix, by rw [hh]; exact h.names, by rw [hh]; exact h.fresh,
    by rw [hh]; exact h.content, fun j h2 h15 => ?_⟩
  rw [hh, ht]
  simp only [Files.setSlot]
  by_cases e : j = i
  · subst e
    rw [update_self, update_self]
    exact hs
  · rw [update_of_ne e, update_of_ne e]
    exact h.table j h2 h15

theorem setContent (h : Agrees fs a) {ino : Stub.Ino} (hin : fs.host.names file.name = some ino) (bytes : List Byte)
    (hc : bytes.length ≤ Stub.maxOffset) :
    Agrees { fs with host := fs.host.setContent ino bytes hc } (a.setContent bytes file) := by
  refine ⟨h.posix, h.names, h.fresh, fun file' bytes' hb => ?_, fun i h2 h15 => ?_⟩
  · rw [Files.content_setContent] at hb
    split at hb
    · rename_i e
      subst e
      cases hb
      exact ⟨ino, hin, update_self ..⟩
    · rename_i hne
      obtain ⟨i, hi, hcn⟩ := h.content file' bytes' hb
      refine ⟨i, hi, (update_of_ne ?_ _ _).trans hcn⟩
      rintro rfl
      exact hne (File.name_inj (h.names _ _ _ hi hin))
  · rw [Files.table_setContent]
    exact h.table i h2 h15

/-- A slot that the programs know is open. -/
theorem slotOf (h : Agrees fs a) {id : Word} {slot : Slot} (hs : a.slotOf id = some slot) :
    (2 ≤ id.toNat ∧ id.toNat < 15) ∧ ∃ f : Stub.OpenFile, ∃ hp, fs.openfile id.toNat = some (f.movedTo slot.pos hp) ∧
      f.type = (if slot.writable then .readWrite else .readOnly) ∧ fs.host.names slot.file.name = some f.ino := by
  unfold Files.slotOf at hs
  split at hs
  · rename_i hid
    have ht := h.table id.toNat hid.1 hid.2
    rw [hs] at ht
    cases hf : fs.openfile id.toNat with
    | none => rw [hf] at ht; exact ht.elim
    | some f =>
      rw [hf] at ht
      obtain ⟨hty, hn, hp, heq⟩ := ht
      exact ⟨hid, f, hp, congrArg some heq, hty, hn⟩
  · cases hs

theorem freeSlot (h : Agrees fs a) : fs.findFreeSlot = a.freeSlot := by
  unfold Stub.FileSystem.findFreeSlot Files.freeSlot
  refine find?_congr fun i hi => ?_
  obtain ⟨h2, h15⟩ := mem_range'_1.mp hi
  have ht := h.table i h2 h15
  cases hf : fs.openfile i <;> cases hs : a.table i <;> rw [hf, hs] at ht <;> first | rfl | exact ht.elim

theorem createFile (h : Agrees fs a) (file : File) :
    ∃ fs', fs.createCall file.name = .ok (0, fs') ∧ Agrees fs' (a.setContent [] file) := by
  obtain ⟨fs', ino, hcl, htb, ha, hcn, hcs⟩ :=
    Stub.FileSystem.createCall_posix (show file.name ≠ [] by cases file <;> decide) h.posix
  refine ⟨fs', hcl, ?_⟩
  rcases hcs with ⟨hin, hn, hc⟩ | ⟨hnn, rfl, hn, hc⟩
  · have hw := h.setContent hin [] (Nat.zero_le _)
    refine ⟨ha, by rw [hn]; exact h.names, by rw [hn, hc]; exact h.fresh, ?_, ?_⟩
    · rw [hn, hcn]
      exact hw.content
    rw [htb]
    intro i h2 h15
    have := hw.table i h2 h15
    unfold SlotAgrees at this ⊢
    rw [hn]
    exact this
  · -- a new file, that no name had before
    have hold : ∀ n i, fs.host.names n = some i → fs'.host.names n = some i ∧ i ≠ fs.host.created := by
      intro n i hi
      have hne : n ≠ file.name := by
        rintro rfl
        rw [hnn] at hi
        cases hi
      rw [hn, update_of_ne hne]
      exact ⟨hi, Nat.ne_of_lt (h.fresh n i hi)⟩
    have hnw : ∀ n i, fs'.host.names n = some i → n = file.name ∧ i = fs.host.created ∨ fs.host.names n = some i := by
      intro n i hi
      rw [hn] at hi
      by_cases e : n = file.name
      · subst e
        rw [update_self] at hi
        exact .inl ⟨rfl, (Option.some.inj hi).symm⟩
      · rw [update_of_ne e] at hi
        exact .inr hi
    refine ⟨ha, fun n n' i hi hi' => ?_, fun n i hi => ?_, fun file' bytes hb => ?_, fun i h2 h15 => ?_⟩
    · rcases hnw n i hi with ⟨rfl, rfl⟩ | hi <;> rcases hnw n' _ hi' with ⟨rfl, e⟩ | hi'
      · rfl
      · exact absurd rfl (hold _ _ hi').2
      · exact absurd e (hold _ _ hi).2
      · exact h.names _ _ _ hi hi'
    · rw [hc]
      rcases hnw n i hi with ⟨-, rfl⟩ | hi
      · exact Nat.lt_succ_self _
      · exact Nat.lt_succ_of_lt (h.fresh n i hi)
    · rw [Files.content_setContent] at hb
      rw [hcn]
      split at hb
      · rename_i e
        subst e
        cases hb
        exact ⟨_, by rw [hn, update_self], update_self ..⟩
      · obtain ⟨i, hi, hby⟩ := h.content file' bytes hb
        exact ⟨i, (hold _ _ hi).1, (update_of_ne (hold _ _ hi).2 _ _).trans hby⟩
    · rw [htb, Files.table_setContent]
      have ht := h.table i h2 h15
      cases hf : fs.openfile i <;> cases hs : a.table i <;> rw [hf, hs] at ht <;>
        first | exact ht.elim | exact trivial | exact ⟨ht.1, (hold _ _ ht.2.1).1, ht.2.2⟩

theorem openFile (h : Agrees fs a) {type : Word} (hex : (a.content file).isSome = true) (hty : type = 0 ∨ type = 1)
    (hf : a.freeSlot = some i) : ∃ fs', fs.openCall file.name type = (some (ofNat 32 i), fs') ∧
      Agrees fs' (a.setSlot i (some ⟨file, 0, type == 0⟩)) := by
  obtain ⟨bytes, hb⟩ := Option.isSome_iff_exists.mp hex
  obtain ⟨ino, hin, -⟩ := h.content file bytes hb
  obtain ⟨fs', hc, hh, ht⟩ := Stub.FileSystem.openCall_free (h.freeSlot.trans hf) hin h.posix hty
  refine ⟨fs', hc, h.setSlot hh ht ⟨?_, hin, Nat.zero_le _, rfl⟩⟩
  rcases hty with rfl | rfl <;> rfl

section

variable {id : Word} {slot : Slot} {r : Returned} {a' : Files}

theorem close (h : Agrees fs a) (hs : a.slotOf id = some slot) :
    ∃ fs', fs.closeCall id = .ok (0, fs') ∧ Agrees fs' (a.setSlot id.toNat none) := by
  obtain ⟨hid, f, hp, hf, -⟩ := h.slotOf hs
  obtain ⟨fs', hc, hh, ht⟩ :=
    Stub.FileSystem.closeCall_open (Nat.le_of_lt_succ hid.2) (by rw [hf]; rfl) h.posix
  exact ⟨fs', hc, h.setSlot hh ht trivial⟩

theorem read (h : Agrees fs a) (hs : a.slotOf id = some slot) (hr : a.read id slot = some (r, a')) :
    ∃ fs', kernel fs (.read id) = some (r, fs') ∧ Agrees fs' a' := by
  obtain ⟨hid, f, hp, hf, ht, hn⟩ := h.slotOf hs
  unfold Files.read at hr
  split at hr
  · rename_i h9
    obtain ⟨content, hcn, hr⟩ := Option.map_eq_some_iff.mp hr
    obtain ⟨ino, hin, hby⟩ := h.content _ _ hcn
    cases hn.symm.trans hin
    have hrw : (f.movedTo slot.pos hp).type = .readWrite ∨ (f.movedTo slot.pos hp).type = .readOnly := by
      show f.type = _ ∨ f.type = _
      rw [ht]
      cases slot.writable <;> decide
    obtain ⟨fs', hc, hh, htb⟩ := Stub.FileSystem.readCall_one h9 hf hrw h.posix
    have hd : (f.movedTo slot.pos hp).delivered fs.host 1 = (content.drop slot.pos).take 1 :=
      congrArg (fun c => (List.drop slot.pos c).take 1) hby
    simp only [hd] at hc
    have hm := Stub.OpenFile.offset_add_delivered (f.movedTo slot.pos hp) fs.host 1
    have hsl : SlotAgrees fs.host (some ((f.movedTo slot.pos hp).movedTo _ hm))
        (some { slot with pos := slot.pos + ((f.movedTo slot.pos hp).delivered fs.host 1).length }) :=
      ⟨ht, hn, hm, rfl⟩
    have ha := h.setSlot hh htb hsl
    rw [hd] at ha
    cases hb : content[slot.pos]? with
    | none =>
      have hnl : (content.drop slot.pos).take 1 = [] := by
        rw [drop_eq_nil_of_le (List.getElem?_eq_none_iff.mp hb)]
        rfl
      rw [hb] at hr
      cases hr
      refine ⟨fs', by simp only [kernel, hc, hnl]; rfl, ?_⟩
      have hsm : a.setSlot id.toNat (some { slot with pos := slot.pos + ((content.drop slot.pos).take 1).length }) = a := by
        have hta : a.table id.toNat = some slot := by
          unfold Files.slotOf at hs
          rwa [if_pos hid] at hs
        rw [hnl, Files.setSlot]
        simp only [length_nil, Nat.add_zero]
        rw [← hta, update_eq_self]
      rw [hsm] at ha
      exact ha
    | some b =>
      have ho : (content.drop slot.pos).take 1 = [b] := by
        obtain ⟨hlt, hg⟩ := List.getElem?_eq_some_iff.mp hb
        rw [drop_eq_getElem_cons hlt, hg]
        rfl
      rw [hb] at hr
      cases hr
      rw [ho] at ha
      exact ⟨fs', by simp only [kernel, hc, ho]; rfl, ha⟩
  · rename_i h9
    cases hr
    refine ⟨fs, ?_, h⟩
    have hnn : fs.readCall 1 id = .ok ((-1, []), fs) := by
      simp only [Stub.FileSystem.readCall, fileOf_eq, if_neg h9]
    simp only [kernel, hnn]
    rfl

theorem seek (h : Agrees fs a) {pos : Word} (hs : a.slotOf id = some slot) (hr : a.seek pos id slot = some (r, a')) :
    ∃ fs', kernel fs (.seek pos id) = some (r, fs') ∧ Agrees fs' a' := by
  obtain ⟨hid, f, hp, hf, hty, hnm⟩ := h.slotOf hs
  unfold Files.seek at hr
  split at hr
  · rename_i h9
    obtain ⟨content, hc, hr⟩ := Option.bind_eq_some_iff.mp hr
    obtain ⟨ino, hin, hb⟩ := h.content _ _ hc
    cases hnm.symm.trans hin
    -- to the end, or to the start
    obtain ⟨n, hn, htr, hv⟩ : ∃ n, n ≤ (fs.host.content f.ino).length ∧
        (pos = -1 ∧ n = (fs.host.content f.ino).length ∨ pos = ofNat 32 n) ∧
        (⟨ofNat 32 n, none⟩, a.setSlot id.toNat (some { slot with pos := n })) = (r, a') := by
      rw [hb]
      split at hr
      · rename_i e
        exact ⟨content.length, Nat.le_refl _, .inl ⟨e, rfl⟩, Option.some.inj hr⟩
      split at hr
      · rename_i e
        exact ⟨0, Nat.zero_le _, .inr e, Option.some.inj hr⟩
      · cases hr
    cases hv
    obtain ⟨fs', hp', hcl, hh, ht⟩ := Stub.FileSystem.seekCall_moved ⟨hid.1, h9⟩ hf hn htr
    exact ⟨fs', by simp only [kernel, hcl]; rfl, h.setSlot hh ht ⟨hty, hnm, hp', rfl⟩⟩
  · rename_i h9
    cases hr
    exact ⟨fs, by simp only [kernel, Stub.FileSystem.seekCall_dead (Nat.lt_of_not_le h9)]; rfl, h⟩

theorem write (h : Agrees fs a) {bytes : List Byte} (hs : a.slotOf id = some slot) (hr : a.write bytes id slot = some (r, a')) :
    ∃ fs', kernel fs (.write bytes id) = some (r, fs') ∧ Agrees fs' a' := by
  obtain ⟨hid, f, hp, hf, ht, hn⟩ := h.slotOf hs
  unfold Files.write at hr
  split at hr
  · rename_i h9
    obtain ⟨content, hcn, hr⟩ := Option.bind_eq_some_iff.mp hr
    obtain ⟨ino, hin, hb⟩ := h.content _ _ hcn
    cases hn.symm.trans hin
    split at hr
    · rename_i hft
      obtain ⟨hw, he, hne, hnn, hrm⟩ := hft
      cases hr
      have hmx : content.length + bytes.length ≤ 2147483647 := hrm
      have hto : (ofNat 32 bytes.length).toNat = bytes.length := ofNat_toNat (by omega)
      have hps : BitVec.slt 0 (ofNat 32 bytes.length) = true := by
        rw [positive_iff, hto]
        have := length_pos_iff.mpr hne
        omega
      have hcle : clearAfterZero bytes = bytes :=
        (clearAfterZero_eq_iff bytes).mpr fun i j _ _ hz => absurd rfl (hnn 0 (mem_of_getElem? hz))
      have htk : (bytes ++ [0]).take (ofNat 32 bytes.length).toNat = bytes := by rw [hto, take_left]
      rw [if_pos hw] at ht
      obtain ⟨fs', hc, hcl, htb, hh⟩ := Stub.FileSystem.writeCall_file h9 hf ht h.posix hps
        (show ((bytes ++ [0]).take _).length = _ by rw [htk, hto])
        (show slot.pos + (ofNat 32 bytes.length).toNat ≤ Stub.maxOffset by rw [hto, he]; exact hrm)
      refine ⟨fs', by simp only [kernel, hcle, hcl]; rfl, ?_⟩
      have hsp : a.setContent (Stub.Host.splice (fs.host.content (f.movedTo slot.pos hp).ino) (f.movedTo slot.pos hp).offset
          ((bytes ++ [0]).take (ofNat 32 bytes.length).toNat)) slot.file = a.setContent (content ++ bytes) slot.file := by
        have hi' : (f.movedTo slot.pos hp).ino = f.ino := rfl
        have ho : (f.movedTo slot.pos hp).offset = slot.pos := rfl
        rw [hi', ho, htk, hb, he, Stub.Host.splice_end]
      have hwr := h.setContent hn _ hc
      rw [hsp] at hwr
      have hm : slot.pos + bytes.length ≤ Stub.maxOffset := by rw [he]; exact hrm
      refine hwr.setSlot hh htb ⟨?_, hn, hm, ?_⟩
      · rw [if_pos hw]
        exact ht
      · simp only [Stub.OpenFile.movedTo, hto]
    · cases hr
  · rename_i h9
    cases hr
    refine ⟨fs, ?_, h⟩
    have hno : fs.writeCall (clearAfterZero bytes ++ [0]) (ofNat 32 bytes.length) id = .ok (some (-1), fs) := by
      simp only [Stub.FileSystem.writeCall, fileOf_eq, if_neg h9]
    simp only [kernel, hno]
    rfl

end

end Agrees

/-- The kernel does what `Files.serve` says. -/
theorem kernel_serves {fs : FileSystem} {a a' : Files} {call : FileCall} {r : Returned} (h : Agrees fs a)
    (hsr : a.serve call = some (r, a')) : ∃ fs', kernel fs call = some (r, fs') ∧ Agrees fs' a' := by
  cases call with
  | createFile file =>
    cases hsr
    obtain ⟨fs', hc, ha⟩ := h.createFile file
    exact ⟨fs', by simp only [kernel, hc]; rfl, ha⟩
  | openFile file type =>
    simp only [Files.serve] at hsr
    split at hsr
    · rename_i ho
      obtain ⟨i, hf, hr⟩ := Option.map_eq_some_iff.mp hsr
      cases hr
      obtain ⟨fs', hc, ha⟩ := h.openFile ho.1 ho.2 hf
      exact ⟨fs', by simp only [kernel, hc]; rfl, ha⟩
    · cases hsr
  | close id =>
    obtain ⟨slot, hs, hr⟩ := Option.map_eq_some_iff.mp hsr
    cases hr
    obtain ⟨fs', hc, ha⟩ := h.close hs
    exact ⟨fs', by simp only [kernel, hc]; rfl, ha⟩
  | read id =>
    obtain ⟨slot, hs, hr⟩ := Option.bind_eq_some_iff.mp hsr
    exact h.read hs hr
  | write bytes id =>
    obtain ⟨slot, hs, hr⟩ := Option.bind_eq_some_iff.mp hsr
    exact h.write hs hr
  | seek pos id =>
    obtain ⟨slot, hs, hr⟩ := Option.bind_eq_some_iff.mp hsr
    exact h.seek hs hr

end WaterTaps

end Nachos

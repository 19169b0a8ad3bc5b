/-
  Nachos.Userprog.Reading — which bytes Read moves, on a host that answers as POSIX says.

  `System2User` stops after the first zero byte.
-/

import Nachos.Userprog.Descriptors
import Nachos.Userprog.Transfer

namespace Nachos

open Handler
open BitVec (ofNat)
open Stub (FileSystem)

variable {W : Type}

/-! ## The process's memory in the system -/

namespace Sys

variable {s : Sys} {m : Machine}

/-- The machine after the current process has used it is the one it left. -/
theorem machine_putMachine (h : s.WF) {a : SpaceId} (ha : s.current.space = some a) (hk : Kept s.machine m) :
    (s.putMachine m).machine = m := by
  obtain ⟨-, -, -, ht⟩ := putMachine_kept h ha hk
  obtain ⟨registers, mainMemory, tlb, pageTable, pageTableSize⟩ := m
  obtain rfl : tlb = none := hk.tlb
  obtain rfl : pageTableSize = s.pageTableSize := hk.size
  simp only at ht
  simp only [machine, Machine.mk.injEq]
  refine ⟨rfl, rfl, trivial, ?_, rfl⟩
  exact (congrArg (Option.map _) (h.loaded a ha).1).trans ht.symm

/-- The current thread is a process whose page table has no frame twice. -/
structure OwnPages (s : Sys) : Prop where
  wf : s.WF
  nodup : ∃ a, s.current.space = some a ∧ (framesOf (s.spaces a).pageTable).Nodup

theorem OwnPages.onTable (h : OwnPages s) : ∃ t, OnTable s.machine t ∧ (framesOf t).Nodup := by
  obtain ⟨a, ha, hn⟩ := h.nodup
  exact ⟨_, h.wf.onTable ha, hn⟩

/-- The system after accesses to the process's memory. -/
theorem OwnPages.put (h : OwnPages s) (hs : SameMap s.machine m) :
    OwnPages (s.putMachine m) ∧ (s.putMachine m).machine = m := by
  obtain ⟨a, ha, hn⟩ := h.nodup
  have hr : RegsOk s.registers := by
    have := h.wf.regs s.currentThread a ha
    rwa [userRegs, if_pos rfl] at this
  have hwf := putMachine_wf h.wf ha hs.kept (by rw [hs.registers]; exact hr)
  refine ⟨⟨hwf, a, ha, ?_⟩, machine_putMachine h.wf ha hs.kept⟩
  have hf : framesOf ((s.putMachine m).spaces a).pageTable = framesOf (s.spaces a).pageTable :=
    ((putMachine_kept h.wf ha hs.kept).1 a).1
  rw [hf]
  exact hn

end Sys

theorem phys_registers (m : Machine) (r : Regs) : ({ m with registers := r } : Machine).phys = m.phys := by
  funext va w
  have := translate_with m r m.mainMemory va 1 w
  simp only [Machine.phys]
  rw [show ({ m with registers := r } : Machine) = { m with registers := r, mainMemory := m.mainMemory } from rfl, this]
  cases m.translate va 1 w <;> rfl

theorem userByte_registers (m : Machine) (r : Regs) : ({ m with registers := r } : Machine).userByte = m.userByte := by
  funext va
  simp only [Machine.userByte, phys_registers]

theorem userByte_same {m m' : Machine} (hs : SameMap m m') (hm : m'.mainMemory = m.mainMemory) :
    m'.userByte = m.userByte := by
  funext va
  simp only [Machine.userByte, hs.phys, hm]

/-- The byte the current process finds at a virtual address. -/
def KernelState.userByte (k : KernelState W) : Word → Option Byte := k.sys.machine.userByte

/-- The value of a call changes no byte. -/
theorem answer_userByte {k k' : KernelState W} {value : Word} (h : answer value k = .ok ((), k')) :
    k'.userByte = k.userByte := by
  cases h
  exact userByte_registers k.sys.machine _

/-! ## Read -/

/-- The bytes up to the first zero are the file's own. -/
theorem upToZero_getElem? (bytes : List Byte) : ∀ {i : Nat}, i < (upToZero bytes).length → (upToZero bytes)[i]? = bytes[i]? := by
  induction bytes with
  | nil => intro i hi; rfl
  | cons b rest ih =>
    intro i hi
    unfold upToZero at hi ⊢
    split
    · rename_i h0
      rw [if_pos h0] at hi
      obtain rfl : i = 0 := by simpa using hi
      rfl
    · rename_i h0
      rw [if_neg h0] at hi
      cases i with
      | zero => rfl
      | succ i => simpa using ih (by simpa using hi)

/-- A byte is left out exactly when there is a zero before it. -/
theorem length_upToZero_le_iff (bytes : List Byte) : ∀ {i : Nat}, i < bytes.length →
    ((upToZero bytes).length ≤ i ↔ ∃ j < i, bytes[j]? = some 0) := by
  induction bytes with
  | nil => intro i hi; cases hi
  | cons b rest ih =>
    intro i hi
    unfold upToZero
    split
    · rename_i h0
      cases i with
      | zero => simp
      | succ i => exact iff_of_true (by simp) ⟨0, Nat.succ_pos i, by simp [h0]⟩
    · rename_i h0
      cases i with
      | zero => simp
      | succ i =>
        rw [List.length_cons, Nat.succ_le_succ_iff, ih (by simpa using hi)]
        constructor
        · rintro ⟨j, hj, hz⟩; exact ⟨j + 1, Nat.succ_lt_succ hj, by simpa using hz⟩
        rintro ⟨j, hj, hz⟩
        cases j with
        | zero => exact absurd (by simpa using hz) h0
        | succ j => exact ⟨j, Nat.lt_of_succ_lt_succ hj, by simpa using hz⟩

/-- Address `va + i` of a range of at most 2^32 bytes is byte `i` of it. -/
theorem offset_of_add (va : Word) {i : Nat} (hi : i < 4294967296) : (va + ofNat 32 i - va).toNat = i := by
  rw [BitVec.add_comm, BitVec.add_sub_cancel, BitVec.toNat_ofNat]
  exact Nat.mod_eq_of_lt hi

theorem add_offset (va x : Word) : va + ofNat 32 (x - va).toNat = x := by
  rw [ofNat_word, BitVec.add_comm, BitVec.sub_add_cancel]

/-- Read has delivered what it says: the file's bytes, in the buffer and nowhere else. -/
structure ReadDelivered (k k' : KernelState W) (f : Stub.OpenFile) : Prop where
  count : (k'.sys.registers 2).toNat =
    min (k.sys.registers 5).toNat ((k.files.host.content f.ino).length - f.offset)
  bytes : ∀ i < (k'.sys.registers 2).toNat,
    k'.userByte (k.sys.registers 4 + ofNat 32 i) = (k.files.host.content f.ino)[f.offset + i]?
  others : ∀ x, (∀ i < (k'.sys.registers 2).toNat, x ≠ k.sys.registers 4 + ofNat 32 i) → k'.userByte x = k.userByte x
  position : ∃ f', k'.files.openfile (k.sys.registers 6).toNat = some f' ∧
    f'.offset = f.offset + (k'.sys.registers 2).toNat ∧ f'.currentOffset = ofNat 32 f'.offset

/-- The bytes after the first zero byte of the part of the file that is read stand in the
    buffer already. -/
def StandsAfterZero (k : KernelState W) (f : Stub.OpenFile) : Prop :=
  let content := k.files.host.content f.ino
  ∀ i j, j < i → i < min (k.sys.registers 5).toNat (content.length - f.offset) → content[f.offset + j]? = some 0 →
    k.userByte (k.sys.registers 4 + ofNat 32 i) = content[f.offset + i]?

section

variable {bigEndian : Bool} {sv : Services W} {k k' : KernelState W} {f : Stub.OpenFile}

/-- What a Read of a file leaves behind when it returns a positive number. -/
theorem readFunction_ok (ho : k.sys.OwnPages) (hf : k.files.openfile (k.sys.registers 6).toNat = some f)
    (hty : f.type = .readWrite ∨ f.type = .readOnly) (hps : k.files.host.answers = [])
    (hn : ¬ (k.sys.registers 5).slt 0 = true) (hw : k.sys.machine.Writable (k.sys.registers 4) (k.sys.registers 5).toNat)
    (h : readFunction bigEndian sv k = .ok ((), k')) (hp : BitVec.slt 0 (k'.sys.registers 2) = true) :
    let bytes := f.delivered k.files.host (k.sys.registers 5).toNat
    k'.sys.registers 2 = ofNat 32 bytes.length ∧
    k'.userByte = overlay (k.sys.registers 4) (upToZero bytes) k.userByte ∧
    ∃ f', k'.files.openfile (k.sys.registers 6).toNat = some f' ∧ f'.offset = f.offset + bytes.length ∧
      f'.currentOffset = ofNat 32 f'.offset := by
  intro bytes
  cases readFunction_steps h with
  | refused _ h =>
    rw [(answer_ok h).1] at hp
    cases hp
  | nothing _ _ _ _ _ h =>
    rw [(answer_ok h).1] at hp
    cases hp
  | console hft hin =>
    obtain rfl := fileOf_unique hft.slot hf
    rw [hin] at hty
    exact absurd hty (by decide)
  | @file _ _ _ _ buffer _ _ _ _ _ _ hft _ _ hr _ hp4 hb h =>
    obtain rfl := fileOf_unique hft.slot hf
    -- the position, and the first copy, which changes nothing
    obtain ⟨fs1, m2, hp1, hcp, rfl⟩ := hft.steps
    obtain ⟨g, hg, rfl, rfl⟩ := Stub.FileSystem.getCurrentPos_ok hp1
    rw [hf] at hg
    cases hg
    obtain ⟨t, ht, hnd⟩ := ho.onTable
    obtain ⟨hs2, hmm2⟩ := user2System_quiet ht hcp
    obtain ⟨ho2, hm2⟩ := ho.put hs2
    -- the file's bytes
    have hs1 : (k.files.setSlot (k.sys.registers 6).toNat (some { f with currentOffset := f.tell })).openfile
        (k.sys.registers 6).toNat = some { f with currentOffset := f.tell } := Function.update_self ..
    obtain ⟨fs3, hr', -, ht3⟩ := Stub.FileSystem.read_posix hs1 hps rfl hn
    cases hr'.symm.trans hr
    have he : f.offset + bytes.length ≤ 2147483647 := f.offset_add_delivered k.files.host (k.sys.registers 5).toNat
    -- the new position, and the copy back
    obtain ⟨g, hg, rfl, rfl⟩ := Stub.FileSystem.getCurrentPos_ok hp4
    rw [ht3, Function.update_self] at hg
    cases hg
    have hc : ofNat 32 (f.offset + bytes.length) - f.tell = ofNat 32 bytes.length := by
      rw [Stub.OpenFile.tell, BitVec.ofNat_add, BitVec.add_comm, BitVec.add_sub_cancel]
    obtain ⟨m5, hc5, rfl⟩ := onMachine_ok hb
    obtain ⟨hr2, hf'⟩ := answer_ok h
    simp only at hc5 hr2 hf'
    rw [hm2] at hc5
    replace hc5 := (congrArg (fun n => m2.system2User bigEndian (k.sys.registers 4) n _) hc).symm.trans hc5
    obtain ⟨t2, ht2, hf2⟩ := hs2.onTable ht
    have hw2 : m2.Writable (k.sys.registers 4) bytes.length := by
      intro i hi
      rw [hs2.phys]
      exact hw i (Nat.lt_of_lt_of_le hi (List.length_take_le ..))
    obtain ⟨m', n, hd, hs', hby⟩ := system2User_ok bigEndian ht2 (hf2 ▸ hnd)
      (buffer.drop bytes.length) (by omega) hw2
    cases hd.symm.trans hc5
    refine ⟨hr2.trans hc, ?_, ?_⟩
    · rw [answer_userByte h, KernelState.userByte]
      simp only
      rw [(ho2.put (by rw [hm2]; exact hs')).2, hby, userByte_same hs2 hmm2]
      rfl
    · rw [hf']
      exact ⟨_, Function.update_self .., rfl, rfl⟩

/-- A Read that returns k > 0 has delivered the k bytes of the file, and nothing else has
    changed, exactly when the bytes after the first zero byte of the part read stood in the
    buffer already. -/
theorem read_delivers_iff (hown : k.sys.OwnPages) (hf : k.files.openfile (k.sys.registers 6).toNat = some f)
    (htype : f.type = .readWrite ∨ f.type = .readOnly) (hposix : k.files.host.answers = [])
    (hn : ¬ (k.sys.registers 5).slt 0 = true) (hw : k.sys.machine.Writable (k.sys.registers 4) (k.sys.registers 5).toNat)
    (h : readFunction bigEndian sv k = .ok ((), k')) (hpos : BitVec.slt 0 (k'.sys.registers 2) = true) :
    ReadDelivered k k' f ↔ StandsAfterZero k f := by
  obtain ⟨hr2, hbyte, hposition⟩ := readFunction_ok hown hf htype hposix hn hw h hpos
  have hend : f.offset + (f.delivered k.files.host (k.sys.registers 5).toNat).length ≤ 2147483647 :=
    f.offset_add_delivered k.files.host (k.sys.registers 5).toNat
  have hget : ∀ i, i < (f.delivered k.files.host (k.sys.registers 5).toNat).length →
      (f.delivered k.files.host (k.sys.registers 5).toNat)[i]? = (k.files.host.content f.ino)[f.offset + i]? := by
    intro i hi
    simp only [Stub.OpenFile.delivered, List.length_take] at hi ⊢
    rw [List.getElem?_take_of_lt (by omega), List.getElem?_drop]
  have hcount : (f.delivered k.files.host (k.sys.registers 5).toNat).length =
      min (k.sys.registers 5).toNat ((k.files.host.content f.ino).length - f.offset) := by
    simp only [Stub.OpenFile.delivered, List.length_take, List.length_drop]
  generalize f.delivered k.files.host (k.sys.registers 5).toNat = bytes at hr2 hbyte hposition hend hget hcount
  have hto : (k'.sys.registers 2).toNat = bytes.length := by
    rw [hr2, BitVec.toNat_ofNat]
    exact Nat.mod_eq_of_lt (by omega)
  have hle := length_upToZero_le bytes
  -- the bytes of the buffer after the call
  have hafter : ∀ i < bytes.length, k'.userByte (k.sys.registers 4 + ofNat 32 i) =
      if i < (upToZero bytes).length then bytes[i]? else k.userByte (k.sys.registers 4 + ofNat 32 i) := by
    intro i hi
    rw [hbyte, overlay, offset_of_add _ (by omega)]
    split
    · rename_i hlt; exact upToZero_getElem? bytes hlt
    · rfl
  constructor
  · intro hdel i j hj hi hzero
    rw [← hcount] at hi
    have hbytes := hdel.bytes i (by rw [hto]; exact hi)
    rw [hafter i hi, if_neg] at hbytes
    · exact hbytes
    · refine Nat.not_lt.mpr ((length_upToZero_le_iff bytes hi).mpr ⟨j, hj, ?_⟩)
      rw [hget j (by omega)]; exact hzero
  · intro hstands
    refine ⟨by rw [hto, hcount], ?_, ?_, by rw [hto]; exact hposition⟩
    · intro i hi
      rw [hto] at hi
      rw [hafter i hi]
      split
      · exact hget i hi
      · rename_i hlt
        obtain ⟨j, hj, hzero⟩ := (length_upToZero_le_iff bytes hi).mp (Nat.le_of_not_lt hlt)
        exact hstands i j hj (by rw [← hcount]; exact hi) (by rw [← hget j (by omega)]; exact hzero)
    · intro x hx
      rw [hbyte, overlay, if_neg]
      intro hlt
      refine hx (x - k.sys.registers 4).toNat (by rw [hto]; omega) ?_
      rw [add_offset]

end

/-- One process with one page, about to be served a call with these arguments. -/
def calling (arg1 arg2 arg3 : Word) (memory : Memory) (files : FileSystem) : KernelState Unit where
  sys :=
    { registers := fun x => if x = 4 then arg1 else if x = 5 then arg2 else if x = 6 then arg3 else 0
      mainMemory := memory, pageTable := some 0, pageTableSize := 1, currentThread := 0
      threads := fun t => ⟨fun _ => 0, if t = 0 then some 0 else none, .kernel⟩
      spaces := fun _ => ⟨[freshEntry 0 0], 1⟩ }
  files
  world := ()

theorem calling_ownPages (arg1 arg2 arg3 : Word) (memory : Memory) (files : FileSystem) :
    (calling arg1 arg2 arg3 memory files).sys.OwnPages := by
  have hz : ∀ t a, ((calling arg1 arg2 arg3 memory files).sys.threads t).space = some a → t = 0 ∧ a = 0 := by
    intro t a ha
    simp only [calling] at ha
    split at ha
    · cases ha; exact ⟨by assumption, rfl⟩
    · cases ha
  refine ⟨⟨?_, ?_, ?_, nofun, ?_⟩, 0, rfl, show [0].Nodup by decide⟩
  · intro t t' a a' hne ha ha'
    exact absurd ((hz t a ha).1.trans (hz t' a' ha').1.symm) hne
  · intro t a ha x hx
    obtain rfl : x = 0 := List.mem_singleton.mp hx
    decide
  · intro a ha
    obtain ⟨-, rfl⟩ := hz _ a ha
    exact ⟨rfl, rfl⟩
  · intro t a ha
    obtain ⟨rfl, -⟩ := hz t a ha
    exact ⟨rfl, show (0 : Word).toNat < numGPRegs by decide⟩

/-- An open file with the bytes `content`, in slot 2. -/
def fileOfBytes (content : List Byte) (h : content.length ≤ Stub.maxOffset) : FileSystem where
  openfile := fun i => if i = 2 then some ⟨.readWrite, 0, 0, 0, Nat.zero_le _⟩ else none
  host := ⟨fun _ => none, 1, fun _ => content, [], fun _ => h⟩
  log := []

/-- "ABC" is read into a buffer of other bytes. -/
theorem read_delivers_text :
    let k := calling 0 3 2 (fun _ => 7) (fileOfBytes [65, 66, 67] (by decide))
    ∃ k', readFunction false busyConsole k = .ok ((), k') ∧ k'.sys.registers 2 = 3 ∧
      ReadDelivered k k' ⟨.readWrite, 0, 0, 0, Nat.zero_le _⟩ := by
  intro k
  obtain ⟨⟨u, k'⟩, h, ht⟩ := Lib.exists_ok (x := readFunction false busyConsole k)
    (fun x => x.2.sys.registers 2 == 3) (by decide +kernel)
  have hr2 : k'.sys.registers 2 = 3 := by simpa using ht
  refine ⟨k', h, hr2, (read_delivers_iff (calling_ownPages 0 3 2 _ _) rfl (.inl rfl) rfl (by decide) ?_ h ?_).mpr ?_⟩
  · intro i hi
    have : ∀ i < 3, (k.sys.machine.phys (0 + ofNat 32 i) true).isSome := by decide +kernel
    exact this i hi
  · rw [hr2]; decide
  · intro i j hj hi hz
    have : ∀ j < 3, ([65, 66, 67] : List Byte)[0 + j]? ≠ some 0 := by decide
    exact absurd hz (this j (by simp only [Nat.lt_min] at hi; exact Nat.lt_trans hj hi.1))

/-- Of the bytes 65, 0, 66 the last does not reach the buffer, but Read returns 3. -/
theorem read_stops_at_zero :
    let k := calling 0 3 2 (fun _ => 7) (fileOfBytes [65, 0, 66] (by decide))
    ∃ k', readFunction false busyConsole k = .ok ((), k') ∧ k'.sys.registers 2 = 3 ∧ k'.userByte 2 = some 7 ∧
      ¬ ReadDelivered k k' ⟨.readWrite, 0, 0, 0, Nat.zero_le _⟩ := by
  intro k
  obtain ⟨⟨u, k'⟩, h, ht⟩ := Lib.exists_ok (x := readFunction false busyConsole k)
    (fun x => x.2.sys.registers 2 == 3 && x.2.userByte 2 == some 7) (by decide +kernel)
  simp only [Bool.and_eq_true, beq_iff_eq] at ht
  refine ⟨k', h, ht.1, ht.2, fun hd => ?_⟩
  have hbyte := hd.bytes 2 (by rw [ht.1]; decide)
  have h2 : k'.userByte 2 = some 66 := hbyte
  rw [ht.2] at h2
  exact absurd h2 (by decide)

end Nachos

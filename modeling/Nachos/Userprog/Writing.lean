/-
  Nachos.Userprog.Writing — which bytes Write moves, on a host that answers as POSIX says.

  - `write_delivers_iff`: a Write of n > 0 bytes returns n and has delivered them exactly for
    a file of type 0 with a descriptor up to 9, with room in the file, and bytes that are all
    zero after the first zero: `User2System` stops there and clears the rest. A Write to the
    console stops at a zero or a line feed, adds a line feed and never returns n.
-/

import Mathlib.Data.Finset.Card
import Nachos.Userprog.Reading

namespace Nachos

open Handler List
open Stub (FileSystem)
open Lib
open Function (update update_self)

variable {W : Type} {m : Machine} {t : List TranslationEntry} {va : Word}

/-! ## Write -/

/-- The bytes after a zero byte are zero. -/
def ZeroAfterZero (bytes : List Byte) : Prop :=
  ∀ i j, j < i → i < bytes.length → bytes[j]? = some 0 → bytes[i]? = some 0

theorem clearAfterZero_eq_iff (bytes : List Byte) : clearAfterZero bytes = bytes ↔ ZeroAfterZero bytes := by
  induction bytes with
  | nil => exact iff_of_true rfl fun i j _ hi => absurd hi (Nat.not_lt_zero i)
  | cons b rest ih =>
    unfold clearAfterZero
    split
    · rename_i h0
      subst h0
      constructor
      · intro h i j _ hi _
        rw [← h, getElem?_replicate, if_pos (by simpa using hi)]
      intro h
      refine (eq_replicate_iff.mpr ⟨by simp, ?_⟩).symm
      intro b hb
      obtain ⟨i, hi⟩ := getElem?_of_mem hb
      cases i with
      | zero => exact (Option.some.inj hi).symm
      | succ i =>
        have := h (i + 1) 0 (Nat.succ_pos i) (List.getElem?_eq_some_iff.mp hi).1 rfl
        rw [this] at hi
        exact (Option.some.inj hi).symm
    · rename_i h0
      rw [List.cons.injEq, ih]
      constructor
      · rintro ⟨-, h⟩ i j hj hi hz
        cases j with
        | zero => exact absurd (Option.some.inj hz) h0
        | succ j =>
          obtain ⟨i, rfl⟩ : ∃ i', i = i' + 1 := ⟨i - 1, by omega⟩
          exact h i j (by omega) (by simpa using hi) (by simpa using hz)
      · intro h
        refine ⟨rfl, fun i j hj hi hz => ?_⟩
        simpa using h (i + 1) (j + 1) (by omega) (by simpa using hi) (by simpa using hz)

/-- The file after a write shows the bytes written. -/
theorem splice_inj {content a b : List Byte} {offset : Nat} (hl : a.length = b.length)
    (h : Stub.Host.splice content offset a = Stub.Host.splice content offset b) : a = b := by
  by_cases ha : a = []
  · subst ha
    exact (length_eq_zero_iff.mp hl.symm).symm
  have hb : b ≠ [] := by
    rintro rfl
    exact ha (length_eq_zero_iff.mp hl)
  simp only [Stub.Host.splice, if_neg ha, if_neg hb, append_assoc] at h
  exact (append_inj (append_cancel_left (append_cancel_left h)) hl).1

/-- The characters an operation sends to the console. -/
def Stub.Operation.characters : Operation → List Byte
  | .output bytes => bytes
  | _ => []

/-- Write has delivered `bytes`, and says so. -/
structure WriteDelivered (k k' : KernelState W) (f : Stub.OpenFile) (bytes : List Byte) : Prop where
  count : k'.sys.registers 2 = k.sys.registers 5
  file : f.type = .readWrite →
    k'.files.host.content = Function.update k.files.host.content f.ino
      (Stub.Host.splice (k.files.host.content f.ino) f.offset bytes) ∧
    ∃ f', k'.files.openfile (k.sys.registers 6).toNat = some f' ∧ f'.offset = f.offset + bytes.length
  console : f.type = .stdout →
    ∃ ops, k'.files.log = ops ++ k.files.log ∧ ops.reverse.flatMap Stub.Operation.characters = bytes

section

variable {bigEndian : Bool} {sv : Services W} {k k' : KernelState W} {f : Stub.OpenFile} {bytes : List Byte}

/-! ### No process has more bytes than the machine -/

theorem phys_lt {writing : Bool} {pa : Nat} (h : OnTable m t) (hp : m.phys va writing = some pa) : pa < memorySize := by
  rw [(translate_one h).1] at hp
  split at hp
  · obtain ⟨e, -, hp⟩ := Option.bind_eq_some_iff.mp hp
    obtain ⟨frame, hg, hpa⟩ := Option.map_eq_some_iff.mp hp
    unfold TranslationEntry.grants at hg
    split at hg
    · rename_i hok
      simp only [Bool.and_eq_true, decide_eq_true_eq] at hok
      cases hg
      unfold memorySize numPhysPages pageSize at *
      omega
    · cases hg
  · cases hp

theorem Machine.Holds.get (bytes : List Byte) : ∀ {va : Word}, m.Holds va bytes → ∀ i < bytes.length,
    m.userByte (va + BitVec.ofNat 32 i) = bytes[i]? := by
  induction bytes with
  | nil => intro va _ i hi; exact absurd hi (Nat.not_lt_zero i)
  | cons b rest ih =>
    rintro va ⟨hb, hr⟩ i hi
    cases i with
    | zero => simpa using hb
    | succ i =>
      rw [show va + BitVec.ofNat 32 (i + 1) = va + 1 + BitVec.ofNat 32 i by
        rw [BitVec.add_assoc, show (1 : Word) = BitVec.ofNat 32 1 from rfl, ← BitVec.ofNat_add, Nat.add_comm]]
      simpa using ih hr i (by simpa using hi)

theorem Machine.Holds.length_le (h : OnTable m t) (hn : (framesOf t).Nodup) (hm : m.Holds va bytes)
    (hl : bytes.length < 4294967296) : bytes.length ≤ memorySize := by
  have hp : ∀ i < bytes.length, ∃ pa, m.phys (va + BitVec.ofNat 32 i) false = some pa := by
    intro i hi
    have hb := hm.get bytes i hi
    rw [getElem?_eq_getElem hi] at hb
    obtain ⟨pa, hpa, -⟩ := Option.map_eq_some_iff.mp hb
    exact ⟨pa, hpa⟩
  choose! place hplace using hp
  -- the bytes are at different places of the machine's memory
  rw [← Finset.card_range bytes.length, ← Finset.card_range memorySize]
  refine Finset.card_le_card_of_injOn place ?_ ?_
  · intro i hi
    exact Finset.mem_coe.mpr (Finset.mem_range.mpr (phys_lt h (hplace i (Finset.mem_range.mp hi))))
  intro i hi j hj hij
  have hi := Finset.mem_range.mp hi
  have hj := Finset.mem_range.mp hj
  have hva := phys_inj h hn (hplace i hi) (hij ▸ hplace j hj)
  rw [← offset_of_add va (show i < 4294967296 by omega), hva, offset_of_add va (by omega)]

/-! ### The call -/

theorem writeLine_lt (buffer : List Byte) : ∀ {k k' : KernelState W} {i : Nat}, writeLine sv buffer k = .ok (i, k') →
    i < buffer.length := by
  induction buffer with
  | nil => intro k k' i h; cases h
  | cons b rest ih =>
    intro k k' i h
    simp only [writeLine] at h
    split at h
    · obtain ⟨u, k1, -, h⟩ := run_bind.mp h
      obtain ⟨j, k2, hj, h⟩ := run_bind.mp h
      cases h
      exact Nat.succ_lt_succ (ih hj)
    · cases h
      exact Nat.succ_pos _

theorem user2System_bytes (bigEndian : Bool) (ho : k.sys.OwnPages) (hh : k.sys.machine.Holds (k.sys.registers 4) bytes)
    (hl : bytes.length = (k.sys.registers 5).toNat) :
    ∃ m, k.sys.machine.user2System bigEndian (k.sys.registers 4) (k.sys.registers 5) = .done (clearAfterZero bytes ++ [0]) m := by
  obtain ⟨t, ht, hn⟩ := ho.onTable
  have hb := hh.length_le ht hn (by rw [hl]; exact (k.sys.registers 5).isLt)
  obtain ⟨m, hm, -⟩ := user2System_ok bigEndian ht (Nat.lt_of_le_of_lt hb (by decide)) hh
  rw [hl, ofNat_word] at hm
  exact ⟨m, hm⟩

/-- What a Write that returns leaves behind. -/
theorem writeFunction_ok (how : k.sys.OwnPages) (hh : k.sys.machine.Holds (k.sys.registers 4) bytes)
    (hln : bytes.length = (k.sys.registers 5).toNat) (hp : BitVec.slt 0 (k.sys.registers 5) = true)
    (hf : k.files.openfile (k.sys.registers 6).toNat = some f) (hty : f.type = .readWrite ∨ f.type = .stdout)
    (hps : k.files.host.answers = []) (h : writeFunction bigEndian sv k = .ok ((), k')) :
    ¬ (k.sys.registers 6).toNat ≤ 9 ∧ k'.sys.registers 2 = -1 ∨
    f.type = .stdout ∧ (∃ i ≤ bytes.length, k'.sys.registers 2 = BitVec.ofNat 32 i - 1) ∨
    (k.sys.registers 6).toNat ≤ 9 ∧ f.type = .readWrite ∧ f.offset + bytes.length ≤ Stub.maxOffset ∧
      k'.sys.registers 2 = k.sys.registers 5 ∧
      k'.files.host.content = update k.files.host.content f.ino
        (Stub.Host.splice (k.files.host.content f.ino) f.offset (clearAfterZero bytes)) ∧
      ∃ f', k'.files.openfile (k.sys.registers 6).toNat = some f' ∧ f'.offset = f.offset + bytes.length := by
  have ht : (clearAfterZero bytes ++ [0]).take (k.sys.registers 5).toNat = clearAfterZero bytes := by
    rw [← hln, ← length_clearAfterZero bytes, take_left]
  have hn : ¬ (k.sys.registers 5).slt 0 = true := by
    rw [positive_iff] at hp
    rw [negative_iff]
    omega
  obtain ⟨m, hm⟩ := user2System_bytes bigEndian how hh hln
  cases writeFunction_steps h with
  | refused hrf h =>
    refine .inl ⟨fun hid => ?_, (answer_ok h).1⟩
    have hb := hrf f (by rw [fileOf_eq, if_pos hid, hf])
    rcases hty with e | e <;> rw [e] at hb <;> exact absurd hb (by decide)
  | nothing _ _ hw hnn => exact absurd ((Stub.FileSystem.write_log hw).1 ▸ hp) hnn
  | file hft ht' hw hsm hp4 h =>
    have hs := hft.slot
    rw [fileOf_eq] at hs
    have hid : (k.sys.registers 6).toNat ≤ 9 := by
      by_contra hid
      rw [if_neg hid] at hs
      cases hs
    obtain rfl := fileOf_unique hft.slot hf
    obtain ⟨fs1, m2, hp1, hcp, rfl⟩ := hft.steps
    obtain ⟨g, hg, rfl, rfl⟩ := Stub.FileSystem.getCurrentPos_ok hp1
    rw [hf] at hg
    cases hg
    cases hm.symm.trans hcp
    have hs1 : (k.files.setSlot (k.sys.registers 6).toNat (some { f with currentOffset := f.tell })).openfile
        (k.sys.registers 6).toNat = some { f with currentOffset := f.tell } := update_self ..
    have hcn : ((clearAfterZero bytes ++ [0]).take (k.sys.registers 5).toNat).length = (k.sys.registers 5).toNat := by
      rw [ht, length_clearAfterZero, hln]
    have hr : f.offset + (k.sys.registers 5).toNat ≤ Stub.maxOffset := by
      rcases (Stub.FileSystem.write_returns hs1 rfl).mp ⟨_, hw⟩ with h1 | ⟨-, -, hroom⟩
      · exact absurd (by rw [h1]; decide) hn
      · rwa [hcn] at hroom
    obtain ⟨fs3, hc, hw', ht3, hh3⟩ := Stub.FileSystem.write_posix hs1 hps rfl hn hcn hr
    cases hw'.symm.trans hw
    obtain ⟨g, hg, rfl, rfl⟩ := Stub.FileSystem.getCurrentPos_ok hp4
    rw [ht3, update_self] at hg
    cases hg
    obtain ⟨hr2, hf'⟩ := answer_ok h
    refine .inr (.inr ⟨hid, ht', by rw [hln]; exact hr, ?_, ?_, ?_⟩)
    · rw [hr2]
      show BitVec.ofNat 32 (f.offset + (k.sys.registers 5).toNat) - f.tell = k.sys.registers 5
      rw [Stub.OpenFile.tell, BitVec.ofNat_add, BitVec.add_comm, BitVec.add_sub_cancel, ofNat_word]
    · rw [hf']
      refine (congrArg Stub.Host.content hh3).trans ?_
      simp only [ht]
      rfl
    · rw [hf', hln]
      exact ⟨_, update_self .., rfl⟩
  | console hft ho hl _ h =>
    obtain rfl := fileOf_unique hft.slot hf
    obtain ⟨fs1, m2, -, hcp, -⟩ := hft.steps
    cases hm.symm.trans hcp
    have hi := writeLine_lt _ hl
    rw [length_append, length_clearAfterZero, length_singleton] at hi
    exact .inr (.inl ⟨ho, _, Nat.le_of_lt_succ hi, (answer_ok h).1⟩)

/-- A Write to a file with room returns. -/
theorem write_to_room (bigEndian : Bool) (sv : Services W) (ho : k.sys.OwnPages)
    (hh : k.sys.machine.Holds (k.sys.registers 4) bytes)
    (hl : bytes.length = (k.sys.registers 5).toNat) (hp : BitVec.slt 0 (k.sys.registers 5) = true)
    (hf : k.files.openfile (k.sys.registers 6).toNat = some f) (hid : (k.sys.registers 6).toNat ≤ 9)
    (ht : f.type = .readWrite) (hps : k.files.host.answers = []) (hrm : f.offset + bytes.length ≤ Stub.maxOffset) :
    Returns (writeFunction bigEndian sv) k := by
  obtain ⟨m, hm⟩ := user2System_bytes bigEndian ho hh hl
  have hn : ¬ (k.sys.registers 5).slt 0 = true := by
    rw [positive_iff] at hp
    rw [negative_iff]
    omega
  have hr : k.files.fileOf (k.sys.registers 6) = some f := by rw [fileOf_eq, if_pos hid, hf]
  refine writeFunction_returns.mpr fun g hg _ => ?_
  cases hr.symm.trans hg
  refine ⟨_, _, _, ⟨hr, _, m, Stub.FileSystem.getCurrentPos_of hf, hm, rfl⟩, ?_⟩
  rw [if_pos ht, Stub.Host.Moves, Stub.OpenFile.answer_posix hps, ← hl, ← length_clearAfterZero bytes, take_left,
    length_clearAfterZero]
  exact .inr ⟨Bool.eq_false_iff.mpr hn, ⟨by simp, Nat.le_refl _⟩, hrm⟩

/-- A Write of n > 0 bytes to a file or the console returns n and has delivered the bytes
    exactly for these descriptors, files and bytes. -/
theorem write_delivers_iff (hown : k.sys.OwnPages) (hhold : k.sys.machine.Holds (k.sys.registers 4) bytes)
    (hlen : bytes.length = (k.sys.registers 5).toNat) (hpos : BitVec.slt 0 (k.sys.registers 5) = true)
    (hf : k.files.openfile (k.sys.registers 6).toNat = some f) (htype : f.type = .readWrite ∨ f.type = .stdout)
    (hposix : k.files.host.answers = []) :
    (∃ k', writeFunction bigEndian sv k = .ok ((), k') ∧ WriteDelivered k k' f bytes) ↔
      (k.sys.registers 6).toNat ≤ 9 ∧ f.type = .readWrite ∧ f.offset + bytes.length ≤ Stub.maxOffset ∧
        ZeroAfterZero bytes := by
  rw [← clearAfterZero_eq_iff]
  have hcount : (k.sys.registers 5).toNat < 2147483648 ∧ 0 < (k.sys.registers 5).toNat := by
    rw [positive_iff] at hpos
    omega
  constructor
  · rintro ⟨k', h, hdel⟩
    rcases writeFunction_ok hown hhold hlen hpos hf htype hposix h with
      ⟨-, hr2⟩ | ⟨-, i, hi, hr2⟩ | ⟨hid, hrw, hroom, -, hcontent, -⟩
    · rw [hdel.count] at hr2
      rw [hr2] at hpos
      exact absurd hpos (by decide)
    · -- i - 1 is not n
      rw [hdel.count] at hr2
      rw [hlen] at hi
      have := congrArg BitVec.toNat hr2
      bv_omega
    · have heq := congrFun (hcontent.symm.trans (hdel.file hrw).1) f.ino
      rw [update_self, update_self] at heq
      exact ⟨hid, hrw, hroom, splice_inj (length_clearAfterZero bytes) heq⟩
  · rintro ⟨hid, hrw, hroom, hclear⟩
    obtain ⟨⟨_, k'⟩, h⟩ := write_to_room bigEndian sv hown hhold hlen hpos hf hid hrw hposix hroom
    refine ⟨k', h, ?_⟩
    rcases writeFunction_ok hown hhold hlen hpos hf htype hposix h with
      ⟨hbad, -⟩ | ⟨hout, -⟩ | ⟨-, -, -, hr2, hcontent, hslot⟩
    · exact absurd hid hbad
    · exact absurd (hrw.symm.trans hout) (by decide)
    · rw [hclear] at hcontent
      exact ⟨hr2, fun _ => ⟨hcontent, hslot⟩, fun hout => absurd (hrw.symm.trans hout) (by decide)⟩

end

/-- The first bytes of a page. -/
def memoryOf (bytes : List Byte) : Memory := fun a => bytes.getD a 0

/-- "AB" is written over the start of "abc". -/
theorem write_delivers_text :
    let k := calling 0 2 2 (memoryOf [65, 66]) (fileOfBytes [97, 98, 99] (by decide))
    ∃ k', writeFunction false busyConsole k = .ok ((), k') ∧
      WriteDelivered k k' ⟨.readWrite, 0, 0, 0, Nat.zero_le _⟩ [65, 66] := by
  intro k
  have hhold : k.sys.machine.Holds 0 [65, 66] := ⟨by decide +kernel, by decide +kernel, trivial⟩
  refine (write_delivers_iff (calling_ownPages 0 2 2 _ _) hhold rfl (by decide) rfl (.inl rfl) rfl).mpr ?_
  refine ⟨by decide, rfl, by decide, fun i j hj hi hz => ?_⟩
  have : ∀ j < 2, ([65, 66] : List Byte)[j]? ≠ some 0 := by decide
  exact absurd hz (this j (Nat.lt_trans hj hi))

/-- Of the bytes 65, 0, 66 the last reaches the file as 0, and Write returns 3. -/
theorem write_clears_after_zero :
    let k := calling 0 3 2 (memoryOf [65, 0, 66]) (fileOfBytes [97, 98, 99] (by decide))
    k.sys.machine.Holds 0 [65, 0, 66] ∧ ∃ k', writeFunction false busyConsole k = .ok ((), k') ∧
      k'.sys.registers 2 = 3 ∧ k'.files.host.content 0 = [65, 0, 0] ∧
      ¬ WriteDelivered k k' ⟨.readWrite, 0, 0, 0, Nat.zero_le _⟩ [65, 0, 66] := by
  intro k
  refine ⟨⟨by decide +kernel, by decide +kernel, by decide +kernel, trivial⟩, ?_⟩
  obtain ⟨⟨u, k'⟩, h, ht⟩ := exists_ok (x := writeFunction false busyConsole k)
    (fun x => x.2.sys.registers 2 == 3 && x.2.files.host.content 0 == [65, 0, 0]) (by decide +kernel)
  simp only [Bool.and_eq_true, beq_iff_eq] at ht
  refine ⟨k', h, ht.1, ht.2, fun hd => ?_⟩
  have hcontent : k'.files.host.content 0 = [65, 0, 66] := congrFun (hd.file rfl).1 0
  rw [ht.2] at hcontent
  exact absurd hcontent (by decide)

end Nachos

/-
  Nachos.Userprog.Transfer — what `User2System` and `System2User` move.

  `userByte` is the byte a process finds at a virtual address. Both copies stop after a zero
  byte: `User2System` answers the bytes up to the first zero with zeros after it
  (`clearAfterZero`), and `System2User` stores the bytes up to and with the first zero
  (`upToZero`) and leaves the rest as it was.
  - `user2System_ok`, `system2User_ok`: both complete on mapped memory, and how.
-/

import Nachos.Machine.Frames
import Nachos.Userprog.UserMemory

namespace Nachos

open Function (update update_of_ne update_self)
open BitVec (ofNat)
open List

/-! ## Characters as `int`s -/

theorem signExtend_eq_zero (b : Byte) : (b.signExtend 32 : Word) = 0 ↔ b = 0 := by
  revert b
  decide

theorem setWidth_signExtend (b : Byte) : ((b.signExtend 32 : Word).setWidth 8 : Byte) = b := by
  revert b
  decide

theorem low_byte_signExtend (b : Byte) : ((b.signExtend 32 &&& 0xff : Word).setWidth 8 : Byte) = b := by
  revert b
  decide

/-! ## Where a byte is -/

/-- The physical address of a byte, if the access is allowed. -/
def Machine.phys (m : Machine) (va : Word) (writing : Bool) : Option Nat :=
  match m.translate va 1 writing with
  | .ok pa _ => some pa
  | _ => none

/-- The byte a process finds at a virtual address. -/
def Machine.userByte (m : Machine) (va : Word) : Option Byte := (m.phys va false).map m.mainMemory

/-- The frame an entry gives to an access. -/
def TranslationEntry.grants (e : TranslationEntry) (writing : Bool) : Option Nat :=
  if e.valid && !(e.readOnly && writing) && decide (e.frame < numPhysPages) then some e.frame else none

section

variable {m m' : Machine} {t : List TranslationEntry} {va va' : Word} {pa : Nat} {writing : Bool}

theorem translate_one (h : OnTable m t) :
    (m.phys va writing = if va.toNat / pageSize < m.pageTableSize then
      (t[va.toNat / pageSize]?).bind fun e => (e.grants writing).map (· * pageSize + va.toNat % pageSize) else none) ∧
    ∀ pa, m.phys va writing = some pa → m.translate va 1 writing = .ok pa (m.touch (va.toNat / pageSize) writing) := by
  have ha : ¬ (((1 : Nat) = 4 ∧ va &&& 3 ≠ 0) ∨ ((1 : Nat) = 2 ∧ va &&& 1 ≠ 0)) := by omega
  simp only [Machine.phys, Machine.translate, if_neg ha, Machine.lookup, h.tlb, h.table]
  by_cases hs : m.pageTableSize ≤ va.toNat / pageSize
  · simp [hs, Nat.not_lt.mpr hs]
  simp only [if_neg hs, if_pos (Nat.lt_of_not_le hs)]
  cases t[va.toNat / pageSize]? with
  | none => exact ⟨rfl, by intro pa h; cases h⟩
  | some e =>
    simp only [Option.bind_some, TranslationEntry.grants]
    cases hv : e.valid with
    | false => simp
    | true =>
      simp only [if_true]
      cases hro : e.readOnly && writing with
      | true => simp
      | false =>
        by_cases hf : numPhysPages ≤ e.frame
        · have hlt : ¬ e.frame < numPhysPages := Nat.not_lt.mpr hf
          simp [hf, hlt]
        have hft : e.frame * pageSize + va.toNat % pageSize + 1 ≤ memorySize := by
          unfold memorySize numPhysPages pageSize at *
          omega
        have hlt : e.frame < numPhysPages := Nat.lt_of_not_le hf
        simp only [ge_iff_le, if_neg hf, if_pos hft]
        simp [hlt]

theorem phys_some (h : OnTable m t) (hp : m.phys va writing = some pa) :
    ∃ e, t[va.toNat / pageSize]? = some e ∧ pa = e.frame * pageSize + va.toNat % pageSize ∧
      (e.readOnly = true → writing = false) := by
  rw [(translate_one h).1] at hp
  split at hp
  · obtain ⟨e, he, hp⟩ := Option.bind_eq_some_iff.mp hp
    obtain ⟨frame, hg, hpa⟩ := Option.map_eq_some_iff.mp hp
    unfold TranslationEntry.grants at hg
    split at hg
    · rename_i hok
      cases hg
      refine ⟨e, he, hpa.symm, fun hro => ?_⟩
      simp only [Bool.and_eq_true, Bool.not_eq_true', hro, Bool.true_and] at hok
      exact hok.1.2
    · cases hg
  · cases hp

/-- What can be written can be read, at the same place. -/
theorem phys_read (h : OnTable m t) (hp : m.phys va true = some pa) : m.phys va false = some pa := by
  rw [(translate_one h).1] at hp ⊢
  split at hp
  · rename_i hs
    rw [if_pos hs]
    obtain ⟨e, he, hp⟩ := Option.bind_eq_some_iff.mp hp
    obtain ⟨frame, hg, hpa⟩ := Option.map_eq_some_iff.mp hp
    refine Option.bind_eq_some_iff.mpr ⟨e, he, Option.map_eq_some_iff.mpr ⟨frame, ?_, hpa⟩⟩
    unfold TranslationEntry.grants at hg ⊢
    split at hg
    · rename_i hok
      simp only [Bool.and_eq_true, decide_eq_true_eq] at hok
      simp only [hok.1.1, hok.2, Bool.and_false, Bool.not_false, Bool.and_true, decide_true, if_true]
      exact hg
    · cases hg
  · cases hp

/-- In a table without a frame twice, different addresses are different bytes. -/
theorem phys_inj (h : OnTable m t) (hn : (framesOf t).Nodup) {w w' : Bool} (hp : m.phys va w = some pa)
    (hp' : m.phys va' w' = some pa) : va = va' := by
  obtain ⟨e, he, hpa, -⟩ := phys_some h hp
  obtain ⟨e', he', hpa', -⟩ := phys_some h hp'
  have hf : e.frame = e'.frame ∧ va.toNat % pageSize = va'.toNat % pageSize := by
    unfold pageSize at *
    omega
  have hpg : va.toNat / pageSize = va'.toNat / pageSize := by
    have hi := (List.getElem?_eq_some_iff.mp he).1
    refine (getElem?_inj (by rw [framesOf, length_map]; exact hi) hn).mp ?_
    rw [framesOf, getElem?_map, getElem?_map, he, he', Option.map_some, Option.map_some, hf.1]
  apply BitVec.eq_of_toNat_eq
  rw [← Nat.div_add_mod va.toNat pageSize, ← Nat.div_add_mod va'.toNat pageSize, hpg, hf.2]

end

/-! ## Accesses of one byte -/

theorem Outcome.bind_done {α β : Type} {x : Outcome α} {f : α → Machine → Outcome β} {b : β} {m : Machine}
    (h : x.bind f = .done b m) : ∃ a m', x = .done a m' ∧ f a m' = .done b m := by
  cases x with
  | done a m' => exact ⟨a, m', rfl, h⟩
  | raised which m' => cases h
  | stop why => cases h

/-- The page table as it was, apart from its use and dirty bits, and the registers. -/
structure SameMap (m m' : Machine) : Prop where
  kept : Kept m m'
  phys : m'.phys = m.phys
  registers : m'.registers = m.registers

theorem SameMap.refl (m : Machine) : SameMap m m := ⟨Kept.of_registers m.registers, rfl, rfl⟩

theorem SameMap.trans {m1 m2 m3 : Machine} (h : SameMap m1 m2) (h' : SameMap m2 m3) : SameMap m1 m3 :=
  ⟨h.kept.trans h'.kept, h'.phys.trans h.phys, h'.registers.trans h.registers⟩

variable {bytes : List Byte}

section

variable {m m' : Machine} {t : List TranslationEntry} {va : Word} {pa : Nat}

theorem SameMap.onTable (h : SameMap m m') (ht : OnTable m t) : ∃ t', OnTable m' t' ∧ framesOf t' = framesOf t := by
  obtain ⟨t', ht', hf, -⟩ := h.kept.table t ht.table
  exact ⟨t', ⟨h.kept.tlb.trans ht.tlb, ht'⟩, hf⟩

theorem phys_touch (h : OnTable m t) (i : Nat) (writing : Bool) (mem : Memory) :
    ({ m.touch i writing with mainMemory := mem } : Machine).phys = m.phys := by
  have h' : OnTable ({ m.touch i writing with mainMemory := mem } : Machine)
      (t.modify i fun e => { e with use := true, dirty := e.dirty || writing }) :=
    ⟨by simp [Machine.touch, h.tlb], by simp [Machine.touch, h.table]⟩
  funext va w
  rw [(translate_one h).1, (translate_one h').1]
  show (if va.toNat / pageSize < m.pageTableSize then _ else none) = _
  split
  · rw [getElem?_modify]
    cases t[va.toNat / pageSize]? with
    | none => rfl
    | some e =>
      simp only [Option.bind_some]
      split <;> rfl
  · rfl

variable (bigEndian : Bool)

theorem readMem_one (h : OnTable m t) (hp : m.phys va false = some pa) :
    ∃ m', m.readMem bigEndian va 1 = .done ((m.mainMemory pa).signExtend 32) m' ∧ SameMap m m' ∧
      m'.mainMemory = m.mainMemory := by
  refine ⟨m.touch (va.toNat / pageSize) false, ?_, ⟨Kept.touch _ _ _ h.tlb, phys_touch h _ _ _, rfl⟩, rfl⟩
  simp only [Machine.readMem, (translate_one h).2 pa hp]
  rfl

theorem writeMem_one (h : OnTable m t) (hp : m.phys va true = some pa) (b : Byte) :
    ∃ m', m.writeMem bigEndian va 1 (b.signExtend 32) = .done () m' ∧ SameMap m m' ∧
      m'.mainMemory = update m.mainMemory pa b := by
  have hd : m.writeMem bigEndian va 1 (b.signExtend 32) =
      .done () { m.touch (va.toNat / pageSize) true with mainMemory := update m.mainMemory pa b } := by
    simp only [Machine.writeMem, (translate_one h).2 pa hp, writePhys, low_byte_signExtend]
    rfl
  have hk : (m.writeMem bigEndian va 1 (b.signExtend 32)).Keeps m := writeMem_keeps h va 1 (b.signExtend 32)
  rw [hd] at hk
  exact ⟨_, hd, ⟨hk, phys_touch h _ _ _, rfl⟩, rfl⟩

/-! ## The copies -/

/-- The bytes up to and with the first zero. -/
def upToZero : List Byte → List Byte
  | [] => []
  | b :: rest => if b = 0 then [b] else b :: upToZero rest

/-- The bytes up to the first zero, and zeros after it. -/
def clearAfterZero : List Byte → List Byte
  | [] => []
  | b :: rest => if b = 0 then List.replicate (rest.length + 1) 0 else b :: clearAfterZero rest

theorem length_clearAfterZero (bytes : List Byte) : (clearAfterZero bytes).length = bytes.length := by
  induction bytes with
  | nil => rfl
  | cons b rest ih =>
    unfold clearAfterZero
    split
    · simp
    · simp [ih]

theorem length_upToZero_le (bytes : List Byte) : (upToZero bytes).length ≤ bytes.length := by
  induction bytes with
  | nil => exact Nat.le_refl _
  | cons b rest ih =>
    unfold upToZero
    split
    · simp
    · simpa using ih

theorem upToZero_append_zeros (bytes : List Byte) :
    upToZero bytes ++ List.replicate (bytes.length + 1 - (upToZero bytes).length) 0 = clearAfterZero bytes ++ [0] := by
  induction bytes with
  | nil => rfl
  | cons b rest ih =>
    unfold upToZero clearAfterZero
    split
    · rename_i h0
      subst h0
      simp [replicate_succ, ← replicate_succ']
    · rw [cons_append, cons_append, ← ih, length_cons, length_cons, Nat.add_sub_add_right]

/-- The process finds these bytes from `va` on. -/
def Machine.Holds (m : Machine) : Word → List Byte → Prop
  | _, [] => True
  | va, b :: rest => m.userByte va = some b ∧ m.Holds (va + 1) rest

instance Machine.Holds.decidable (m : Machine) : ∀ va bytes, Decidable (m.Holds va bytes)
  | _, [] => inferInstanceAs (Decidable True)
  | va, _ :: rest => have := decidable m (va + 1) rest; inferInstanceAs (Decidable (_ ∧ _))

theorem Holds.same (hs : SameMap m m') (hm : m'.mainMemory = m.mainMemory) :
    ∀ {va : Word}, m.Holds va bytes → m'.Holds va bytes := by
  induction bytes with
  | nil => intro va _; trivial
  | cons b rest ih =>
    rintro va ⟨h, hr⟩
    exact ⟨by rw [Machine.userByte, hs.phys, hm]; exact h, ih hr⟩

theorem copyIn_ok (bytes : List Byte) : ∀ {m : Machine} {t : List TranslationEntry} {va : Word}, OnTable m t →
    m.Holds va bytes → ∃ m', m.copyIn bigEndian va bytes.length = .done (upToZero bytes) m' ∧ SameMap m m' ∧
      m'.mainMemory = m.mainMemory := by
  induction bytes with
  | nil => intro m t va _ _; exact ⟨m, rfl, SameMap.refl m, rfl⟩
  | cons b rest ih =>
    rintro m t va ht ⟨hb, hr⟩
    obtain ⟨pa, hp, hpa⟩ := Option.map_eq_some_iff.mp hb
    obtain ⟨m1, h1, hs1, hm1⟩ := readMem_one bigEndian ht hp
    rw [hpa] at h1
    simp only [length_cons, Machine.copyIn, h1, Outcome.bind, upToZero]
    by_cases h0 : b = 0
    · rw [if_pos ((signExtend_eq_zero b).mpr h0), if_pos h0, h0]
      exact ⟨m1, rfl, hs1, hm1⟩
    rw [if_neg (mt (signExtend_eq_zero b).mp h0), if_neg h0]
    obtain ⟨t1, ht1, -⟩ := hs1.onTable ht
    obtain ⟨m2, h2, hs2, hm2⟩ := ih ht1 (Holds.same hs1 hm1 hr)
    rw [h2]
    simp only [setWidth_signExtend]
    exact ⟨m2, rfl, hs1.trans hs2, hm2.trans hm1⟩

theorem user2System_ok (ht : OnTable m t) (hl : bytes.length < 2147483647) (hm : m.Holds va bytes) :
    ∃ m', m.user2System bigEndian va (ofNat 32 bytes.length) = .done (clearAfterZero bytes ++ [0]) m' ∧
      SameMap m m' ∧ m'.mainMemory = m.mainMemory := by
  obtain ⟨m', h, hs, hmm⟩ := copyIn_ok bigEndian bytes ht hm
  have hto : (ofNat 32 bytes.length).toNat = bytes.length := ofNat_toNat (by omega)
  have hsc : (ofNat 32 bytes.length + 1).toNat = bytes.length + 1 := by
    rw [BitVec.toNat_add, hto]; exact Nat.mod_eq_of_lt (by simp; omega)
  have hc : (if BitVec.slt 0 (ofNat 32 bytes.length) then (ofNat 32 bytes.length).toNat else 0) =
      bytes.length := by
    split
    · exact hto
    · rename_i hn
      rw [positive_iff, hto] at hn
      omega
  refine ⟨m', ?_, hs, hmm⟩
  rw [Machine.user2System, if_neg (by rw [negative_iff, hsc]; omega), hc, h]
  simp only [Outcome.bind, hsc, upToZero_append_zeros]

/-! ## Reading leaves memory alone -/

variable {bigEndian}

theorem readMem_quiet (h : OnTable m t) {v : Word} (hr : m.readMem bigEndian va 1 = .done v m') :
    SameMap m m' ∧ m'.mainMemory = m.mainMemory := by
  simp only [Machine.readMem] at hr
  split at hr
  · cases hr
  · cases hr
  · rename_i pa m1 htr
    obtain ⟨⟨i, rfl⟩, -⟩ := translate_ok h.tlb h.table htr
    split at hr
    · cases hr
      exact ⟨⟨Kept.touch m i false h.tlb, phys_touch h _ _ _, rfl⟩, rfl⟩
    · cases hr

theorem copyIn_quiet (n : Nat) : ∀ {m m' : Machine} {t : List TranslationEntry} {va : Word} {bytes : List Byte}, OnTable m t →
    m.copyIn bigEndian va n = .done bytes m' → SameMap m m' ∧ m'.mainMemory = m.mainMemory := by
  induction n with
  | zero => intro m m' t va bytes _ hc; cases hc; exact ⟨SameMap.refl m, rfl⟩
  | succ n ih =>
    intro m m' t va bytes ht hc
    simp only [Machine.copyIn] at hc
    obtain ⟨c, m1, h1, hc⟩ := Outcome.bind_done hc
    obtain ⟨hs1, hm1⟩ := readMem_quiet ht h1
    split at hc
    · cases hc; exact ⟨hs1, hm1⟩
    obtain ⟨rest, m2, h2, hc⟩ := Outcome.bind_done hc
    cases hc
    obtain ⟨t1, ht1, -⟩ := hs1.onTable ht
    obtain ⟨hs2, hm2⟩ := ih ht1 h2
    exact ⟨hs1.trans hs2, hm2.trans hm1⟩

theorem user2System_quiet (ht : OnTable m t) {limit : Word} {buffer : List Byte}
    (h : m.user2System bigEndian va limit = .done buffer m') : SameMap m m' ∧ m'.mainMemory = m.mainMemory := by
  simp only [Machine.user2System] at h
  split at h
  · cases h
  · obtain ⟨bytes, m1, h1, h⟩ := Outcome.bind_done h
    cases h
    exact copyIn_quiet _ ht h1

/-! ## Storing -/

/-- The bytes from `va` on replaced by `bytes`. -/
def overlay (va : Word) (bytes : List Byte) (old : Word → Option Byte) (x : Word) : Option Byte :=
  if (x - va).toNat < bytes.length then bytes[(x - va).toNat]? else old x

theorem overlay_cons (va : Word) (b : Byte) (bytes : List Byte) (hl : bytes.length < 4294967295)
    (old : Word → Option Byte) :
    overlay (va + 1) bytes (update old va (some b)) = overlay va (b :: bytes) old := by
  funext x
  unfold overlay
  by_cases hx : x = va
  · subst hx
    have h1 : (x - (x + 1)).toNat = 4294967295 := by bv_omega
    rw [if_neg (by rw [h1]; omega), update_self]
    simp
  · have h1 : (x - va).toNat = (x - (va + 1)).toNat + 1 := by bv_omega
    rw [h1, length_cons, update_of_ne hx]
    by_cases hlt : (x - (va + 1)).toNat < bytes.length
    · rw [if_pos hlt, if_pos (Nat.succ_lt_succ hlt), getElem?_cons_succ]
    · rw [if_neg hlt, if_neg (by omega)]

theorem userByte_store (h : OnTable m t) (hn : (framesOf t).Nodup) (hs : SameMap m m') (hp : m.phys va true = some pa)
    {b : Byte} (hm : m'.mainMemory = update m.mainMemory pa b) : m'.userByte = update m.userByte va (some b) := by
  funext x
  simp only [Machine.userByte, hs.phys, hm]
  by_cases hx : x = va
  · subst hx
    rw [phys_read h hp, Option.map_some, update_self, update_self]
  rw [update_of_ne hx, Machine.userByte]
  cases hpx : m.phys x false with
  | none => rfl
  | some pa' =>
    have hne : pa' ≠ pa := fun e => hx (phys_inj h hn hpx (e ▸ hp))
    rw [Option.map_some, Option.map_some, update_of_ne hne]

/-- Every byte of the range can be written. -/
def Machine.Writable (m : Machine) (va : Word) (n : Nat) : Prop := ∀ i < n, (m.phys (va + BitVec.ofNat 32 i) true).isSome

theorem Writable.tail {n : Nat} (h : m.Writable va (n + 1)) : m.Writable (va + 1) n := by
  intro i hi
  have := h (i + 1) (Nat.succ_lt_succ hi)
  rwa [show va + ofNat 32 (i + 1) = va + 1 + ofNat 32 i by
    rw [BitVec.add_assoc, show (1 : Word) = ofNat 32 1 from rfl, ← BitVec.ofNat_add, Nat.add_comm]] at this

variable (bigEndian)

theorem copyOut_ok (bytes : List Byte) : ∀ {m : Machine} {t : List TranslationEntry} {va : Word}, OnTable m t →
    (framesOf t).Nodup → bytes.length < 4294967296 → m.Writable va bytes.length →
    ∃ m', m.copyOut bigEndian va bytes = .done (upToZero bytes).length m' ∧ SameMap m m' ∧
      m'.userByte = overlay va (upToZero bytes) m.userByte := by
  induction bytes with
  | nil => intro m t va _ _ _ _; exact ⟨m, rfl, SameMap.refl m, by funext x; simp [overlay, upToZero]⟩
  | cons b rest ih =>
    intro m t va ht hn hl hw
    obtain ⟨pa, hp⟩ := Option.isSome_iff_exists.mp (hw 0 (Nat.succ_pos _))
    rw [show va + ofNat 32 0 = va by simp] at hp
    obtain ⟨m1, h1, hs1, hm1⟩ := writeMem_one bigEndian ht hp b
    have hb1 := userByte_store ht hn hs1 hp hm1
    simp only [Machine.copyOut, h1, Outcome.bind, upToZero]
    by_cases h0 : b = 0
    · rw [if_pos h0, if_pos h0]
      refine ⟨m1, rfl, hs1, ?_⟩
      rw [hb1, ← overlay_cons va b [] (by decide)]
      funext x
      simp [overlay]
    · rw [if_neg h0, if_neg h0]
      obtain ⟨t1, ht1, hf1⟩ := hs1.onTable ht
      have hl' : rest.length < 4294967295 := by rw [length_cons] at hl; omega
      have hw1 : m1.Writable (va + 1) rest.length := by
        intro i hi
        rw [hs1.phys]
        exact Writable.tail hw i hi
      obtain ⟨m2, h2, hs2, hb2⟩ := ih ht1 (hf1 ▸ hn) (by omega) hw1
      rw [h2]
      refine ⟨m2, rfl, hs1.trans hs2, ?_⟩
      have hle := length_upToZero_le rest
      rw [hb2, hb1, overlay_cons va b _ (by omega)]

/-- `System2User` of `len` bytes on memory that can be written. -/
theorem system2User_ok (ht : OnTable m t) (hn : (framesOf t).Nodup) (rest : List Byte)
    (hl : bytes.length < 2147483648) (hw : m.Writable va bytes.length) :
    ∃ m' n, m.system2User bigEndian va (ofNat 32 bytes.length) (bytes ++ rest) = .done n m' ∧ SameMap m m' ∧
      m'.userByte = overlay va (upToZero bytes) m.userByte := by
  obtain ⟨m', h, hs, hb⟩ := copyOut_ok bigEndian bytes ht hn (by omega) hw
  have hto : (ofNat 32 bytes.length).toNat = bytes.length := ofNat_toNat (by omega)
  refine ⟨m', ofNat 32 (upToZero bytes).length, ?_, hs, hb⟩
  rw [Machine.system2User, if_neg (by rw [negative_iff, hto]; omega), hto, take_left, h]
  rfl

end

end Nachos

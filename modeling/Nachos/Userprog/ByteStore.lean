/-
  Nachos.Userprog.ByteStore — a process's memory is one store of bytes.

  Loads and stores of three sizes overlap, and on a big-endian host the larger ones are swapped
  on their way. All of them are accesses to the bytes `Machine.userByte`: a store replaces the
  little-endian bytes of its value and no others (`Store.apply`), and a load is the value of the
  bytes it finds (`LoadOp.value`).
  - `writeMem_apply`, `readMem_done_iff`: the two accesses, on either host.
-/

import Mathlib.Tactic.IntervalCases
import Nachos.Machine.Traps
import Nachos.Userprog.Reading

namespace Nachos

open BitVec hiding not_and not_or
open Instruction (decode)
open BitVec (ofNat)

/-! ## Byte order -/

theorem wordToHost_swap (b0 b1 b2 b3 : Byte) : wordToHost true (b0 ++ b1 ++ b2 ++ b3) = b3 ++ b2 ++ b1 ++ b0 := by
  apply eq_of_getLsbD_eq
  intro i hi
  simp only [wordToHost, if_true, getLsbD_or, getLsbD_and, getLsbD_shiftLeft, getLsbD_ushiftRight,
    getLsbD_append]
  interval_cases i <;> simp

theorem shortToHost_swap (b0 b1 : Byte) : shortToHost true (b0 ++ b1) = b1 ++ b0 := by
  apply eq_of_getLsbD_eq
  intro i hi
  simp only [shortToHost, if_true, getLsbD_or, getLsbD_and, getLsbD_shiftLeft, getLsbD_ushiftRight,
    getLsbD_append]
  interval_cases i <;> simp

theorem append_halves (b0 b1 b2 b3 : Byte) : (b3 ++ b2) ++ (b1 ++ b0) = b3 ++ b2 ++ b1 ++ b0 := by
  apply eq_of_getLsbD_eq
  intro i hi
  simp only [getLsbD_append]
  interval_cases i <;> simp

/-- Byte `k` of a word, the low one first. -/
def byteOf (v : Word) (k : Nat) : Byte := v.extractLsb' (8 * k) 8

theorem word_eq_bytes (v : Word) : v = byteOf v 3 ++ byteOf v 2 ++ byteOf v 1 ++ byteOf v 0 :=
  (Lib.word.ofBytes_bytes v).symm

variable {k : Nat} {i : Instruction} {r : Regs} {x : Fin numGPRegs}

section

variable {bigEndian : Bool} {mem mem' : Memory} {pa size : Nat} {value : Word}

/-- A load of two bytes is little-endian on either host, -/
theorem readPhys_half : readPhys bigEndian mem pa 2 = some ((mem (pa + 1) ++ mem pa).setWidth 32) := by
  cases bigEndian with
  | false => rfl
  | true =>
    simp only [readPhys, hostShort, if_true, shortToHost_swap]

/-- and so is one of four. -/
theorem readPhys_word : readPhys bigEndian mem pa 4 = some (mem (pa + 3) ++ mem (pa + 2) ++ mem (pa + 1) ++ mem pa) := by
  cases bigEndian with
  | false => rfl
  | true => simp only [readPhys, hostWord, if_true, wordToHost_swap]

theorem low_byte (v : Word) : (v &&& 0xff).setWidth 8 = byteOf v 0 := by
  have hm : (0xff : Word) = (BitVec.allOnes 8).setWidth 32 := by decide
  rw [hm, and_ones, setWidth_setWidth_of_le _ (by decide), setWidth_eq]
  rfl

theorem low_half (v : Word) : (v &&& 0xffff).setWidth 16 = byteOf v 1 ++ byteOf v 0 := by
  rw [low_mask, setWidth_setWidth_of_le _ (by decide), setWidth_eq, immediate, byteOf, byteOf,
    extractLsb'_append_extractLsb'_eq_extractLsb' (by decide)]

theorem extract_half (hi lo : Byte) : ((hi ++ lo).setWidth 32 : Word).extractLsb' 0 8 = lo ∧
    ((hi ++ lo).setWidth 32 : Word).extractLsb' 8 8 = hi := by
  constructor
  all_goals
    apply eq_of_getLsbD_eq
    intro i hlt
    simp only [getLsbD_extractLsb', getLsbD_setWidth, getLsbD_append]
    interval_cases i <;> simp

theorem extract_word (b0 b1 b2 b3 : Byte) :
    BitVec.extractLsb' 0 8 (b3 ++ b2 ++ b1 ++ b0) = b0 ∧ BitVec.extractLsb' 8 8 (b3 ++ b2 ++ b1 ++ b0) = b1 ∧
    BitVec.extractLsb' 16 8 (b3 ++ b2 ++ b1 ++ b0) = b2 ∧ BitVec.extractLsb' 24 8 (b3 ++ b2 ++ b1 ++ b0) = b3 := by
  refine ⟨?_, ?_, ?_, ?_⟩
  all_goals
    apply eq_of_getLsbD_eq
    intro i hlt
    simp only [getLsbD_extractLsb', getLsbD_append]
    interval_cases i <;> simp

/-- A store puts the value's bytes in order, the low one first, on either host. -/
theorem writePhys_bytes (h : writePhys bigEndian mem pa value size = some mem') (hk : k < size) :
    mem' (pa + k) = byteOf value k := by
  unfold writePhys at h
  split at h <;> cases h
  · obtain rfl : k = 0 := by omega
    exact (Function.update_self ..).trans (low_byte value)
  · obtain ⟨h0, h1⟩ := extract_half (byteOf value 1) (byteOf value 0)
    obtain ⟨h0', h1'⟩ := extract_half (byteOf value 0) (byteOf value 1)
    rw [storeHost, if_pos ⟨by omega, by omega⟩, Nat.add_sub_cancel_left, hostByte_eq, low_half]
    cases bigEndian with
    | false => interval_cases k <;> [exact h0; exact h1]
    | true =>
      rw [shortToMachine, shortToHost_swap]
      interval_cases k <;> [exact h1'; exact h0']
  · rw [storeHost, if_pos ⟨by omega, by omega⟩, Nat.add_sub_cancel_left, hostByte_eq]
    cases bigEndian with
    | false => rfl
    | true =>
      obtain ⟨h0, h1, h2, h3⟩ := extract_word (byteOf value 3) (byteOf value 2) (byteOf value 1) (byteOf value 0)
      have hs : wordToMachine true value = byteOf value 0 ++ byteOf value 1 ++ byteOf value 2 ++ byteOf value 3 := by
        rw [wordToMachine]
        exact (congrArg (wordToHost true) (word_eq_bytes value)).trans (wordToHost_swap ..)
      rw [hs]
      interval_cases k <;> [exact h3; exact h2; exact h1; exact h0]

end

/-! ## Accesses -/

/-- An access of a size memory knows, at an address it may have. -/
structure Aligned (va : Word) (size : Nat) : Prop where
  known : size = 1 ∨ size = 2 ∨ size = 4
  aligned : va.toNat % size = 0

section

variable {m m' : Machine} {t : List TranslationEntry} {va : Word} {pa size : Nat} {writing : Bool}

theorem Aligned.check (h : Aligned va size) : ¬ ((size = 4 ∧ va &&& 3 ≠ 0) ∨ (size = 2 ∧ va &&& 1 ≠ 0)) := by
  have ha := h.aligned
  rintro (⟨rfl, hne⟩ | ⟨rfl, hne⟩)
  · exact hne ((and_three va).mpr ha)
  · exact hne ((and_one va).mpr ha)

theorem Aligned.of_check (hs : size = 1 ∨ size = 2 ∨ size = 4)
    (h : ¬ ((size = 4 ∧ va &&& 3 ≠ 0) ∨ (size = 2 ∧ va &&& 1 ≠ 0))) : Aligned va size := by
  simp only [not_or, not_and, Decidable.not_not] at h
  refine ⟨hs, ?_⟩
  rcases hs with rfl | rfl | rfl
  · exact Nat.mod_one _
  · exact (and_one va).mp (h.2 rfl)
  · exact (and_three va).mp (h.1 rfl)

/-- An aligned access is translated as one byte is: it does not leave the page. -/
theorem translate_aligned (h : Aligned va size) (m : Machine) (writing : Bool) :
    m.translate va size writing = m.translate va 1 writing := by
  have hft := offset_add_size h.known h.check
  rw [Machine.translate, Machine.translate, if_neg h.check, if_neg (by omega)]
  cases m.lookup (va.toNat / pageSize) with
  | stop why => rfl
  | fails which => rfl
  | found i e =>
    dsimp only
    split
    · rfl
    split
    · rfl
    rename_i hf
    have hs : e.frame * pageSize + va.toNat % pageSize + size ≤ memorySize := by
      unfold memorySize numPhysPages pageSize at *
      omega
    have ho : e.frame * pageSize + va.toNat % pageSize + 1 ≤ memorySize := by
      have := h.known
      omega
    rw [if_pos hs, if_pos ho]

theorem translate_ok_iff (ht : OnTable m t) (h : Aligned va size) :
    m.translate va size writing = .ok pa m' ↔ m.phys va writing = some pa ∧ m' = m.touch (va.toNat / pageSize) writing := by
  rw [translate_aligned h]
  constructor
  · intro hok
    have hp : m.phys va writing = some pa := by rw [Machine.phys, hok]
    refine ⟨hp, ?_⟩
    rw [(translate_one ht).2 pa hp] at hok
    cases hok
    rfl
  · rintro ⟨hp, rfl⟩
    exact (translate_one ht).2 pa hp

/-- The bytes of a page are next to each other in its frame. -/
theorem phys_add (ht : OnTable m t) (hk : va.toNat % pageSize + k < pageSize) (hp : m.phys va writing = some pa) :
    m.phys (va + ofNat 32 k) writing = some (pa + k) := by
  have hto : (va + ofNat 32 k).toNat = va.toNat + k := by
    unfold pageSize at hk
    rw [toNat_add, toNat_ofNat, Nat.add_mod_mod]
    exact Nat.mod_eq_of_lt (by omega)
  have hpg : (va.toNat + k) / pageSize = va.toNat / pageSize := by unfold pageSize at *; omega
  have ho : (va.toNat + k) % pageSize = va.toNat % pageSize + k := by unfold pageSize at *; omega
  rw [(translate_one ht).1] at hp ⊢
  rw [hto, hpg, ho]
  split at hp
  · rename_i hs
    rw [if_pos hs]
    obtain ⟨e, he, hp⟩ := Option.bind_eq_some_iff.mp hp
    obtain ⟨frame, hg, hpa⟩ := Option.map_eq_some_iff.mp hp
    rw [he, Option.bind_some, hg, Option.map_some, ← hpa, Nat.add_assoc]
  · cases hp

theorem Aligned.phys (h : Aligned va size) (ht : OnTable m t) (hp : m.phys va writing = some pa) (hk : k < size) :
    m.phys (va + ofNat 32 k) writing = some (pa + k) := by
  have hf := offset_add_size h.known h.check
  exact phys_add ht (by omega) hp

end

/-! ## Stores -/

/-- A store of the low `size` bytes of a value. -/
structure Store where
  addr : Word
  size : Nat
  value : Word
  deriving DecidableEq

namespace Store

/-- Its bytes, the low one first. -/
def bytes (s : Store) : List Byte := (Lib.word.bytes s.value).take s.size

/-- The bytes of the memory after it. -/
def apply (memory : Word → Option Byte) (s : Store) : Word → Option Byte := overlay s.addr s.bytes memory

theorem length_bytes {s : Store} (hs : s.size ≤ 4) : s.bytes.length = s.size := by
  rw [bytes, List.length_take, Lib.word.length_bytes]
  exact Nat.min_eq_left hs

theorem getElem?_bytes {s : Store} {k : Nat} (hs : s.size ≤ 4) (hk : k < s.size) : s.bytes[k]? = some (byteOf s.value k) := by
  have hk4 : k < 4 := by omega
  rw [bytes, List.getElem?_take_of_lt hk]
  interval_cases k <;> rfl

end Store

/-- `m'` comes from `m` by stores. -/
structure Stored (m : Machine) (ss : List Store) (m' : Machine) : Prop where
  kept : Kept m m'
  phys : m'.phys = m.phys
  bytes : m'.userByte = ss.foldl Store.apply m.userByte
  /-- Main memory has changed nowhere else. -/
  frame : ∀ pa, (∀ s ∈ ss, ∀ k < s.size, m.phys (s.addr + ofNat 32 k) true ≠ some pa) → m'.mainMemory pa = m.mainMemory pa

section

variable {bigEndian : Bool} {m m' m'' : Machine} {t : List TranslationEntry} {ss ss' : List Store}

theorem Stored.none (hk : Kept m m') (hp : m'.phys = m.phys) (hm : m'.mainMemory = m.mainMemory) : Stored m [] m' := by
  refine ⟨hk, hp, ?_, fun pa _ => congrFun hm pa⟩
  funext va
  rw [Machine.userByte, hp, hm]
  rfl

theorem Stored.registers (m : Machine) (r : Regs) : Stored m [] { m with registers := r } :=
  .none (.of_registers r) (phys_registers m r) rfl

theorem Stored.trans (h : Stored m ss m') (h' : Stored m' ss' m'') : Stored m (ss ++ ss') m'' := by
  refine ⟨h.kept.trans h'.kept, h'.phys.trans h.phys, ?_, fun pa hpa => ?_⟩
  · rw [h'.bytes, h.bytes, List.foldl_append]
  rw [h'.frame pa, h.frame pa]
  · exact fun s hs => hpa s (List.mem_append_left _ hs)
  · rw [h.phys]
    exact fun s hs => hpa s (List.mem_append_right _ hs)

theorem Stored.onTable (h : Stored m ss m') (ht : OnTable m t) : ∃ t', OnTable m' t' ∧ framesOf t' = framesOf t := by
  obtain ⟨t', ht', hf, -⟩ := h.kept.table t ht.table
  exact ⟨t', ⟨h.kept.tlb.trans ht.tlb, ht'⟩, hf⟩

variable {addr : Word} {size : Nat} {value : Word}

/-- A store that succeeds replaces its bytes, and no others. -/
theorem writeMem_apply (ht : OnTable m t) (hn : (framesOf t).Nodup) (h : m.writeMem bigEndian addr size value = .done () m') :
    m'.registers = m.registers ∧ Stored m [⟨addr, size, value⟩] m' := by
  have hkp : (m.writeMem bigEndian addr size value).Keeps m := writeMem_keeps ht addr size value
  rw [h] at hkp
  unfold Machine.writeMem at h
  split at h
  · cases h
  · cases h
  · rename_i pa m₁ htr
    split at h
    · rename_i mem hw
      obtain ⟨hs, hf⟩ := writePhys_frame hw
      have ha : Aligned addr size := by
        refine .of_check hs fun hb => ?_
        rw [Machine.translate, if_pos hb] at htr
        cases htr
      obtain ⟨hp, rfl⟩ := (translate_ok_iff ht ha).mp htr
      cases h
      have hphy := phys_touch ht (addr.toNat / pageSize) true mem
      have hle : size ≤ 4 := by omega
      refine ⟨rfl, hkp, hphy, funext fun x => ?_, fun pa' hp' => hf pa' fun k hk e => ?_⟩
      · rw [Machine.userByte, hphy, List.foldl_cons, List.foldl_nil, Store.apply, overlay, Store.length_bytes hle]
        by_cases hx : (x - addr).toNat < size
        · -- one of the bytes stored
          have hxk : x = addr + ofNat 32 (x - addr).toNat := by
            rw [ofNat_word, BitVec.add_comm, BitVec.sub_add_cancel]
          have hph := phys_read ht (ha.phys ht hp hx)
          rw [← hxk] at hph
          rw [if_pos hx, hph, Option.map_some, Store.getElem?_bytes hle hx]
          exact congrArg some (writePhys_bytes hw hx)
        · rw [if_neg hx, Machine.userByte]
          cases hph : m.phys x false with
          | none => rfl
          | some pa' =>
            rw [Option.map_some, Option.map_some]
            refine congrArg some (hf pa' fun k hk e => hx ?_)
            -- the frames are distinct, so `x` would be one of the addresses stored to
            obtain rfl : addr + ofNat 32 k = x := phys_inj ht hn (ha.phys ht hp hk) (e ▸ hph)
            rw [BitVec.add_comm, BitVec.add_sub_cancel, toNat_ofNat]
            exact Nat.lt_of_le_of_lt (Nat.mod_le ..) hk
      · exact hp' _ List.mem_cons_self k hk (e ▸ ha.phys ht hp hk)
    · cases h

end

/-! ## Loads -/

/-- The two bytes from `a` on, the low one first, -/
def halfAt (memory : Word → Option Byte) (a : Word) : Option (BitVec 16) :=
  (memory a).bind fun b₀ => (memory (a + 1)).map fun b₁ => b₁ ++ b₀

/-- and the four bytes. -/
def wordAt (memory : Word → Option Byte) (a : Word) : Option Word :=
  (halfAt memory a).bind fun h₀ => (halfAt memory (a + 2)).map fun h₁ => h₁ ++ h₀

inductive LoadOp where
  | lb
  | lbu
  | lh
  | lhu
  | lw
  deriving DecidableEq

namespace LoadOp

def opCode : LoadOp → OpCode
  | lb => .lb
  | lbu => .lbu
  | lh => .lh
  | lhu => .lhu
  | lw => .lw

def size : LoadOp → Nat
  | lb | lbu => 1
  | lh | lhu => 2
  | lw => 4

/-- What a load is for: the signed or unsigned value of the bytes at its address. -/
def value (op : LoadOp) (memory : Word → Option Byte) (a : Word) : Option Word :=
  match op with
  | lb => (memory a).map (BitVec.signExtend 32)
  | lbu => (memory a).map (BitVec.setWidth 32)
  | lh => (halfAt memory a).map (BitVec.signExtend 32)
  | lhu => (halfAt memory a).map (BitVec.setWidth 32)
  | lw => wordAt memory a

/-- What `OneInstruction` does with the value that `ReadMem` leaves. -/
def extend : LoadOp → Word → Word
  | lb => fun v => if v &&& 0x80 ≠ 0 then v ||| 0xffffff00 else v &&& 0xff
  | lbu => fun v => v &&& 0xff
  | lh => fun v => if v &&& 0x8000 ≠ 0 then v ||| 0xffff0000 else v &&& 0xffff
  | lhu => fun v => v &&& 0xffff
  | lw => id

theorem extend_lb (b : Byte) : lb.extend (b.signExtend 32) = b.signExtend 32 := by
  revert b
  decide

theorem extend_lbu (b : Byte) : lbu.extend (b.signExtend 32) = b.setWidth 32 := by
  revert b
  decide

theorem immediate_setWidth (h : BitVec 16) : immediate (h.setWidth 32) = h := by
  apply eq_of_toNat_eq
  simp only [immediate, extractLsb'_toNat, toNat_setWidth, Nat.shiftRight_zero]
  omega

theorem extend_lhu (h : BitVec 16) : lhu.extend (h.setWidth 32) = h.setWidth 32 := by
  have hm := low_mask (h.setWidth 32)
  rwa [immediate_setWidth] at hm

theorem extend_lh (h : BitVec 16) : lh.extend (h.setWidth 32) = h.signExtend 32 := by
  have he := extra_ifmt (h.setWidth 32)
  rw [immediate_setWidth] at he
  rw [← he]
  simp only [extend, Format.extra, low_mask, immediate_setWidth]

end LoadOp

section

variable {bigEndian : Bool} {m m' : Machine} {t : List TranslationEntry} {a : Word} {pa size : Nat} {v : Word} {op : LoadOp}

theorem readMem_done_iff (ht : OnTable m t) (ha : Aligned a size) : m.readMem bigEndian a size = .done v m' ↔
    ∃ pa, m.phys a false = some pa ∧ readPhys bigEndian m.mainMemory pa size = some v ∧ m' = m.touch (a.toNat / pageSize) false := by
  unfold Machine.readMem
  constructor
  · intro h
    split at h
    · cases h
    · cases h
    · rename_i pa m₁ htr
      obtain ⟨hp, rfl⟩ := (translate_ok_iff ht ha).mp htr
      split at h
      · rename_i v' hr
        cases h
        exact ⟨pa, hp, hr, rfl⟩
      · cases h
  · rintro ⟨pa, hp, hr, rfl⟩
    have hr' : readPhys bigEndian (m.touch (a.toNat / pageSize) false).mainMemory pa size = some v := hr
    rw [(translate_ok_iff ht ha).mpr ⟨hp, rfl⟩]
    simp only [hr']

/-- A load's value is the one `ReadMem` finds, extended; -/
theorem LoadOp.value_some (bigEndian : Bool) (ht : OnTable m t) (ha : Aligned a op.size) (hp : m.phys a false = some pa) :
    op.value m.userByte a = (readPhys bigEndian m.mainMemory pa op.size).map op.extend := by
  have hb : ∀ k < op.size, m.userByte (a + BitVec.ofNat 32 k) = some (m.mainMemory (pa + k)) := by
    intro k hk
    rw [Machine.userByte, ha.phys ht hp hk, Option.map_some]
  have h0 : m.userByte a = some (m.mainMemory pa) := by rw [Machine.userByte, hp, Option.map_some]
  have hh : 1 < op.size → halfAt m.userByte a = some (m.mainMemory (pa + 1) ++ m.mainMemory pa) := by
    intro h
    have h1 : m.userByte (a + 1) = some (m.mainMemory (pa + 1)) := hb 1 h
    rw [halfAt, h0, h1, Option.bind_some, Option.map_some]
  cases op with
  | lb =>
    rw [value, h0]
    exact congrArg some (extend_lb _).symm
  | lbu =>
    rw [value, h0]
    exact congrArg some (extend_lbu _).symm
  | lh =>
    rw [value, hh (by decide), size, readPhys_half]
    exact congrArg some (extend_lh _).symm
  | lhu =>
    rw [value, hh (by decide), size, readPhys_half]
    exact congrArg some (extend_lhu _).symm
  | lw =>
    have h2 : m.userByte (a + 2) = some (m.mainMemory (pa + 2)) := hb 2 (by decide)
    have h3 : m.userByte (a + 2 + 1) = some (m.mainMemory (pa + 3)) := by
      rw [BitVec.add_assoc]
      exact hb 3 (by decide)
    rw [value, wordAt, hh (by decide), halfAt, h2, h3, size, readPhys_word]
    exact congrArg some (append_halves ..)

/-- where nothing is mapped there is none. -/
theorem LoadOp.value_none (hp : m.phys a false = none) : op.value m.userByte a = none := by
  have hb : m.userByte a = none := by rw [Machine.userByte, hp, Option.map_none]
  have hh : halfAt m.userByte a = none := by rw [halfAt, hb, Option.bind_none]
  cases op with
  | lb | lbu => rw [value, hb, Option.map_none]
  | lh | lhu => rw [value, hh, Option.map_none]
  | lw => rw [value, wordAt, hh, Option.bind_none]

end

/-! ## Instructions -/

/-- The store of an instruction, if it has one. SWL and SWR, which store a part of a word, are
    left out. -/
def Instruction.stores (i : Instruction) (r : Regs) : Option (List Store) :=
  let tmp := r (gp i.rs) + i.extra
  let rt := r (gp i.rt)
  match i.opCode with
  | .sb => some [⟨tmp, 1, rt⟩]
  | .sh => some [⟨tmp, 2, rt⟩]
  | .sw => some [⟨tmp, 4, rt⟩]
  | .swl | .swr => none
  | _ => some []

def Effect.stores : Effect → Option (List Store)
  | .store addr size value => some [⟨addr, size, value⟩]
  | .merge .. => none
  | .regs .. | .load .. | .raise .. | .stop .. => some []

theorem effect_stores {ss : List Store} (h : i.stores r = some ss) : (effect i r).stores = some ss := by
  obtain ⟨op, rs, rt, rd, extra⟩ := i
  cases op with
  | sb | sh | sw => exact h
  | swl | swr => cases h
  | _ =>
    cases h
    simp only [effect]
    repeat' split
    all_goals rfl

theorem effect_load {op : LoadOp} (h : i.opCode = op.opCode) (ha : Aligned (r (gp i.rs) + i.extra) op.size) :
    effect i r = .load (r (gp i.rs) + i.extra) op.size i.rt op.extend := by
  obtain ⟨_, rs, rt, rd, extra⟩ := i
  obtain rfl := h
  have hal := ha.aligned
  cases op with
  | lb | lbu => rfl
  | lh | lhu =>
    have hc : ¬ (r (gp rs) + extra &&& 1 ≠ 0) := not_not.mpr ((and_one _).mpr hal)
    exact if_neg hc
  | lw =>
    have hc : ¬ (r (gp rs) + extra &&& 3 ≠ 0) := not_not.mpr ((and_three _).mpr hal)
    exact if_neg hc

section

variable {bigEndian : Bool} {m m' m₁ : Machine} {t : List TranslationEntry} {ss : List Store}

theorem readMem_stored (ht : OnTable m t) {a v : Word} {size : Nat} (h : m.readMem bigEndian a size = .done v m') :
    Stored m [] m' := by
  unfold Machine.readMem at h
  split at h
  · cases h
  · cases h
  · rename_i htr
    obtain ⟨i, rfl⟩ := translate_touch htr
    split at h
    · cases h
      exact .none (Kept.touch m i false ht.tlb) (phys_touch ht i false m.mainMemory) rfl
    · cases h

theorem perform_stored (ht : OnTable m t) (hn : (framesOf t).Nodup) {e : Effect} (he : e.stores = some ss)
    (h : m.perform bigEndian e = .done () m') : Stored m ss m' := by
  cases e with
  | regs writes pcAfter =>
    cases he
    cases h
    exact .registers ..
  | load addr size rt f =>
    cases he
    obtain ⟨v, m₁, hr, hd⟩ := Outcome.bind_done h
    cases hd
    exact (readMem_stored ht hr).trans (.registers ..)
  | store addr size value =>
    cases he
    obtain ⟨_, m₁, hw, hd⟩ := Outcome.bind_done h
    cases hd
    exact (writeMem_apply ht hn hw).2.trans (.registers ..)
  | merge addr f => cases he
  | raise which badVAddr => cases h
  | stop why => cases h

/-- An instruction that completes has done its store. -/
theorem oneInstruction_stored (ht : OnTable m t) (hn : (framesOf t).Nodup) {raw : Word}
    (hft : m.readMem bigEndian (m.registers pcReg) 4 = .done raw m₁)
    (hs : (decode raw).stores m.registers = some ss)
    (h : m.oneInstruction bigEndian = .done () m') : Stored m ss m' := by
  have hf := readMem_stored ht hft
  obtain ⟨t1, ht1, hfr⟩ := hf.onTable ht
  rw [oneInstruction_eq hft] at h
  exact hf.trans (perform_stored ht1 (hfr ▸ hn) (effect_stores hs) h)

end

/-- Instructions one after the other, all of them completed, and their stores in order. -/
inductive StoreRun (bigEndian : Bool) : Machine → List Store → Machine → Prop
  | refl (m : Machine) : StoreRun bigEndian m [] m
  | step {m m₁ m₂ m' : Machine} {raw : Word} {ss ss' : List Store} :
    m.readMem bigEndian (m.registers pcReg) 4 = .done raw m₁ → (decode raw).stores m.registers = some ss →
    m.oneInstruction bigEndian = .done () m₂ → StoreRun bigEndian m₂ ss' m' → StoreRun bigEndian m (ss ++ ss') m'

theorem StoreRun.stored {bigEndian : Bool} {m m' : Machine} {ss : List Store} (h : StoreRun bigEndian m ss m') :
    ∀ {t : List TranslationEntry}, OnTable m t → (framesOf t).Nodup → Stored m ss m' := by
  induction h with
  | refl m => exact fun _ _ => .registers m m.registers
  | step hf hst hd hr ih =>
    intro t ht hn
    have hs := oneInstruction_stored ht hn hf hst hd
    obtain ⟨t', ht', hfr⟩ := hs.onTable ht
    exact hs.trans (ih ht' (hfr ▸ hn))

/-! ## The load delay -/

theorem pending_val {w : Word} (h : w = ofNat 32 x) : x.val = w.toNat := by
  have hlt : x.val < 32 := x.isLt
  rw [h, toNat_ofNat, Nat.mod_eq_of_lt (by omega)]

theorem writeRegs_of_notMem {x : RegNum} (ws : List (RegNum × Word)) (h : ∀ w ∈ ws, w.1 ≠ x) (r : Regs) : writeRegs r ws x = r x := by
  induction ws generalizing r with
  | nil => rfl
  | cons w ws ih =>
    have hr := ih (fun w' hw' => h w' (List.mem_cons_of_mem _ hw')) (Function.update r w.1 w.2)
    exact hr.trans (Function.update_of_ne (h w List.mem_cons_self).symm ..)

section

variable {bigEndian : Bool} {m m' : Machine}

theorem perform_retires (h : m.perform bigEndian (effect i m.registers) = .done () m') :
    ∃ r n v pcAfter, m'.registers = retire r n v pcAfter ∧ r loadReg = m.registers loadReg ∧
      r loadValueReg = m.registers loadValueReg := by
  cases he : effect i m.registers with
  | regs ws pcAfter =>
    have hwri : ∀ {x : RegNum}, numGPRegs ≤ x.val → x ≠ hiReg → x ≠ loReg → writeRegs m.registers ws x = m.registers x := by
      intro x hx hhi hlo
      refine writeRegs_of_notMem ws (fun w hw e => ?_) _
      rcases effect_writes he w hw with h | h | ⟨y, -, h⟩
      · exact hhi (e.symm.trans h)
      · exact hlo (e.symm.trans h)
      · exact gp_ne hx (h.symm.trans e)
    rw [he] at h
    cases h
    exact ⟨_, _, _, _, rfl, hwri (by decide) (by decide) (by decide), hwri (by decide) (by decide) (by decide)⟩
  | load addr size rt f =>
    rw [he] at h
    obtain ⟨v, m₁, hrd, hd⟩ := Outcome.bind_done h
    cases hd
    have hr := readMem_registers hrd
    exact ⟨_, _, _, _, rfl, by rw [hr], by rw [hr]⟩
  | store addr size value =>
    rw [he] at h
    obtain ⟨_, m₁, hwr, hd⟩ := Outcome.bind_done h
    cases hd
    have hr := writeMem_registers hwr
    exact ⟨_, _, _, _, rfl, by rw [hr], by rw [hr]⟩
  | merge addr f =>
    rw [he] at h
    obtain ⟨v, m₁, hrd, hrs⟩ := Outcome.bind_done h
    obtain ⟨_, m2, hwr, hd⟩ := Outcome.bind_done hrs
    cases hd
    have hr := (writeMem_registers hwr).trans (readMem_registers hrd)
    exact ⟨_, _, _, _, rfl, by rw [hr], by rw [hr]⟩
  | raise which badVAddr =>
    rw [he] at h
    cases h
  | stop why =>
    rw [he] at h
    cases h

/-- After an instruction, completed or not, the load pending before it has landed, whatever the
    instruction itself writes. -/
theorem oneInstruction_lands
    (h : m.oneInstruction bigEndian = .done () m' ∨ ∃ which, m.oneInstruction bigEndian = .raised which m')
    (hx : m.registers loadReg = ofNat 32 x) :
    m'.registers (gp x) = if x = 0 then 0 else m.registers loadValueReg := by
  rcases h with hd | ⟨which, hrs⟩
  · obtain ⟨raw, m₁, hf, hp⟩ := Outcome.bind_done hd
    obtain ⟨r, n, v, pcAfter, hr, hl, hv⟩ := perform_retires hp
    rw [readMem_registers hf] at hl hv
    rw [hr, retire_gp, if_pos (pending_val (hl.trans hx)), hv]
  · have ht : (m.oneInstruction bigEndian).TrapsFrom m := oneInstruction_traps m
    rw [hrs] at ht
    obtain ⟨-, badVAddr, hr⟩ := ht
    have hl : Function.update m.registers badVAddrReg badVAddr loadReg = m.registers loadReg := Function.update_of_ne (by decide) ..
    rw [hr, landed, delayedLoad_gp, if_pos (pending_val (hl.trans hx)), Function.update_of_ne (by decide)]

end

/-! ## What a load finds -/

section

variable {bigEndian : Bool} {m m' m₁ : Machine} {t : List TranslationEntry} {ss : List Store} {raw : Word} {op : LoadOp}

/-- A load that has been fetched, at an aligned address: it completes where there are bytes, and
    then their value is pending. -/
theorem oneInstruction_load {a : Word} (ht : OnTable m t) (hft : m.readMem bigEndian (m.registers pcReg) 4 = .done raw m₁)
    (hop : (decode raw).opCode = op.opCode)
    (had : m.registers (gp (decode raw).rs) + (decode raw).extra = a) (ha : Aligned a op.size) :
    match op.value m.userByte a with
    | none => ∀ m2, m.oneInstruction bigEndian ≠ .done () m2
    | some v => ∃ m2, m.oneInstruction bigEndian = .done () m2 ∧
        m2.registers = retire m.registers (ofNat 32 (decode raw).rt) v (m.registers nextPCReg + 4) := by
  have hf := readMem_stored ht hft
  have hrg := readMem_registers hft
  obtain ⟨t1, ht1, -⟩ := hf.onTable ht
  have hb : m₁.userByte = m.userByte := hf.bytes
  have he := effect_load (r := m.registers) hop (had.symm ▸ ha)
  rw [oneInstruction_eq hft, he, had, ← hb]
  cases hp : m₁.phys a false with
  | none =>
    rw [LoadOp.value_none hp]
    intro m2 hd
    obtain ⟨v, m3, hr, -⟩ := Outcome.bind_done hd
    obtain ⟨pa, hp', -, -⟩ := (readMem_done_iff ht1 ha).mp hr
    rw [hp] at hp'
    cases hp'
  | some pa =>
    obtain ⟨w, hw⟩ : ∃ w, readPhys bigEndian m₁.mainMemory pa op.size = some w := by cases op <;> exact ⟨_, rfl⟩
    rw [LoadOp.value_some bigEndian ht1 ha hp, hw]
    have hr := (readMem_done_iff ht1 ha).mpr ⟨pa, hp, hw, rfl⟩
    refine ⟨{ m₁.touch (a.toNat / pageSize) false with
      registers := retire m₁.registers (ofNat 32 (decode raw).rt) (op.extend w) (m₁.registers nextPCReg + 4) }, ?_, ?_⟩
    · rw [Machine.perform, hr]
      rfl
    · simp only [hrg]

/-- On a page table with distinct frames, for either byte order of the host: after any completed
    instructions (SWL and SWR apart) the bytes of the process are those it had with each store's
    bytes put over them, the last one on top, and no other byte of main memory has changed. An LB,
    LBU, LH, LHU or LW at an aligned address then completes exactly where it finds bytes. Their
    value is not in the register at once: the general registers are as before, with the load
    pending before it landed. It is there after one more instruction, whatever that is. -/
theorem loads_last_stored (ht : OnTable m t) (hn : (framesOf t).Nodup) (hrun : StoreRun bigEndian m ss m') :
    m'.userByte = ss.foldl Store.apply m.userByte ∧
    (∀ pa, (∀ s ∈ ss, ∀ k < s.size, m.phys (s.addr + ofNat 32 k) true ≠ some pa) →
      m'.mainMemory pa = m.mainMemory pa) ∧
    ∀ (op : LoadOp) (raw a : Word) (m₁ : Machine), m'.readMem bigEndian (m'.registers pcReg) 4 = .done raw m₁ →
      (decode raw).opCode = op.opCode →
      m'.registers (gp (decode raw).rs) + (decode raw).extra = a → Aligned a op.size →
      ((∃ m₂, m'.oneInstruction bigEndian = .done () m₂) ↔ ∃ v, op.value m'.userByte a = some v) ∧
      ∀ m₂ v, m'.oneInstruction bigEndian = .done () m₂ → op.value m'.userByte a = some v →
        (∀ x, m₂.registers (gp x) = landed m'.registers (gp x)) ∧
        ∀ m₃, (m₂.oneInstruction bigEndian = .done () m₃ ∨ ∃ which, m₂.oneInstruction bigEndian = .raised which m₃) →
          m₃.registers (gp (decode raw).rt) = if (decode raw).rt = 0 then 0 else v := by
  have hstored := hrun.stored ht hn
  obtain ⟨t', ht', -⟩ := hstored.onTable ht
  refine ⟨hstored.bytes, hstored.frame, fun op raw a m₁ hfetch hop haddr ha => ?_⟩
  have hload := oneInstruction_load ht' hfetch hop haddr ha
  cases hv : op.value m'.userByte a with
  | none =>
    rw [hv] at hload
    refine ⟨⟨fun h => ?_, fun h => ?_⟩, fun m₂ v _ h => ?_⟩
    · obtain ⟨m₂, hdone⟩ := h
      exact absurd hdone (hload m₂)
    · obtain ⟨v, h⟩ := h
      cases h
    · cases h
  | some v =>
    rw [hv] at hload
    obtain ⟨m₂, hdone, hregs⟩ := hload
    refine ⟨⟨fun _ => ⟨v, rfl⟩, fun _ => ⟨m₂, hdone⟩⟩, fun m₂' v' hdone' hv' => ?_⟩
    rw [hdone] at hdone'
    cases hdone'
    cases hv'
    refine ⟨fun x => ?_, fun m₃ hnext => ?_⟩
    · rw [hregs, retire_gp, landed, delayedLoad_gp]
    · have hpending : m₂.registers loadReg = ofNat 32 (decode raw).rt := by
        rw [hregs]
        rfl
      have hvalue : m₂.registers loadValueReg = v := by
        rw [hregs]
        rfl
      rw [oneInstruction_lands hnext hpending, hvalue]

end

/-- `sb $2, 9($0)` and then `lh $3, 8($0)`, with 0x80 in register 2. -/
def storeThenLoad : Machine where
  registers := fun x => if x = 2 then 0x80 else if x = nextPCReg then 4 else 0
  mainMemory := fun a => (Lib.word.bytes 0xa0020009 ++ Lib.word.bytes 0x84030008).getD a 0
  tlb := none
  pageTable := some [⟨0, 0, true, false, false, false⟩]
  pageTableSize := 1

/-- The same machine after the store. -/
def loadNext : Machine where
  registers := retire storeThenLoad.registers 0 0 8
  mainMemory := Function.update storeThenLoad.mainMemory 9 0x80
  tlb := none
  pageTable := some [⟨0, 0, true, false, true, true⟩]
  pageTableSize := 1

/-- The byte stored is the high one of the half word loaded, which is negative. -/
theorem loads_last_stored_half : StoreRun true storeThenLoad [⟨9, 1, 0x80⟩] loadNext ∧
    loadNext.userByte = Store.apply storeThenLoad.userByte ⟨9, 1, 0x80⟩ ∧
    ∃ m₂, loadNext.oneInstruction true = .done () m₂ ∧ m₂.registers 3 = 0 ∧
      ∀ m₃, m₂.oneInstruction true = .done () m₃ → m₃.registers 3 = 0xffff8000 := by
  have ht : OnTable storeThenLoad [⟨0, 0, true, false, false, false⟩] := ⟨rfl, rfl⟩
  have ht' : OnTable loadNext [⟨0, 0, true, false, true, true⟩] := ⟨rfl, rfl⟩
  have hfetch : storeThenLoad.readMem true 0 4 = .done 0xa0020009 (storeThenLoad.touch 0 false) :=
    (readMem_done_iff ht ⟨.inr (.inr rfl), by decide⟩).mpr ⟨0, by decide, by decide, rfl⟩
  have hfetch' : loadNext.readMem true 4 4 = .done 0x84030008 (loadNext.touch 0 false) :=
    (readMem_done_iff ht' ⟨.inr (.inr rfl), by decide⟩).mpr ⟨4, by decide, by decide, rfl⟩
  have hdone : storeThenLoad.oneInstruction true = .done () loadNext := by
    rw [oneInstruction_eq hfetch]
    rfl
  have hrun : StoreRun true storeThenLoad [⟨9, 1, 0x80⟩] loadNext := .step hfetch rfl hdone (.refl _)
  have hvalue : LoadOp.lh.value loadNext.userByte 8 = some 0xffff8000 := by decide
  obtain ⟨hbytes, -, hloads⟩ := loads_last_stored ht (by decide) hrun
  obtain ⟨hcompletes, hlands⟩ := hloads .lh 0x84030008 8 _ hfetch' (by decide) (by decide) ⟨.inr (.inl rfl), by decide⟩
  obtain ⟨m₂, hdone₂⟩ := hcompletes.mpr ⟨_, hvalue⟩
  obtain ⟨hregs, hnext⟩ := hlands m₂ _ hdone₂ hvalue
  exact ⟨hrun, hbytes, m₂, hdone₂, hregs 3, fun m₃ hdone₃ => hnext m₃ (.inl hdone₃)⟩

end Nachos

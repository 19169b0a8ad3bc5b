/-
  Nachos.Machine.Fields — the fields of an instruction word, and one instruction from its
  fetch on.

  The fields are slices of the word, as the MIPS manual draws them. `Instruction::Decode`
  takes them by shifts and masks, from one table for the operation and its format.
  - `decode_extra`: what `extra` is, for each format.
  - `oneInstruction_eq`: once the word is fetched, only its effect counts.
-/

import Nachos.Lib.Layout
import Nachos.Machine.DelaySlot

namespace Nachos

open BitVec

/-! ## Fields -/

/-- A register number: `rs` is at bit 21, `rt` at 16, `rd` at 11. -/
def regAt (w : Word) (start : Nat) : Fin numGPRegs := ⟨(w.extractLsb' start 5).toNat, (w.extractLsb' start 5).isLt⟩

def immediate (w : Word) : BitVec 16 := w.extractLsb' 0 16
def shamt (w : Word) : BitVec 5 := w.extractLsb' 6 5
def targetIndex (w : Word) : BitVec 26 := w.extractLsb' 0 26

/-- The format of an operation. -/
def OpCode.format : OpCode → Format
  | .j | .jal => .jfmt
  | .add | .addu | .and | .div | .divu | .jalr | .jr | .mfhi | .mflo | .mthi | .mtlo | .mult | .multu | .nor | .or | .sll | .sllv
  | .slt | .sltu | .sra | .srav | .srl | .srlv | .sub | .subu | .xor | .syscall => .rfmt
  | _ => .ifmt

variable (w : Word)

theorem regField_eq (start : Nat) : regField w start = regAt w start := by
  apply Fin.ext
  simp only [regField, regAt, Fin.val_ofNat, extractLsb'_toNat, toNat_ushiftRight]

/-- A mask of ones keeps the low bits. -/
theorem and_ones (n : Nat) : w &&& (BitVec.allOnes n).setWidth 32 = (w.extractLsb' 0 n).setWidth 32 := by
  apply eq_of_getLsbD_eq
  intro i hi
  simp only [getLsbD_and, getLsbD_setWidth, getLsbD_allOnes, getLsbD_extractLsb', Nat.zero_add, hi,
    decide_true, Bool.true_and]
  exact Bool.and_comm ..

theorem low_mask : w &&& 0xffff = (immediate w).setWidth 32 := by
  have hm : (0xffff : Word) = (BitVec.allOnes 16).setWidth 32 := by decide
  rw [hm, and_ones, immediate]

/-- The immediate field is signed, -/
theorem extra_ifmt : Format.extra w .ifmt = (immediate w).signExtend 32 := by
  have ht : (0x8000 : Word) = BitVec.twoPow 32 15 := by decide
  have hh : (0xffff0000 : Word) = (BitVec.allOnes 16).setWidth 32 <<< 16 := by decide
  have hz : BitVec.twoPow 32 15 ≠ 0 := by decide
  have hs : (immediate w).setWidth 32 &&& 0x8000 ≠ 0 ↔ (immediate w).msb = true := by
    rw [ht, and_twoPow, msb_eq_getLsbD_last, getLsbD_setWidth]
    split
    · rename_i h
      exact ⟨fun _ => by simpa using h, fun _ => hz⟩
    · rename_i h
      exact ⟨fun hne => absurd rfl hne, fun h' => absurd (by simpa using h') h⟩
  simp only [Format.extra, low_mask]
  apply eq_of_getLsbD_eq
  intro i hi
  rw [getLsbD_signExtend]
  by_cases hn : (immediate w).msb = true
  · rw [if_pos (hs.mpr hn), hh, hn]
    simp only [getLsbD_or, getLsbD_setWidth, getLsbD_shiftLeft, getLsbD_allOnes, hi]
    by_cases hl : i < 16
    · simp only [hl, decide_true, if_true, Bool.true_and, Bool.not_true, Bool.false_and, Bool.or_false]
    · have hsb : i - 16 < 16 := by omega
      simp only [hl, hsb, show i - 16 < 32 by omega, decide_true, decide_false, if_false, Bool.true_and, Bool.not_false, Bool.or_true]
  · rw [if_neg (mt hs.mp hn), Bool.eq_false_iff.mpr hn, getLsbD_setWidth]
    by_cases hl : i < 16
    · rw [if_pos hl]
    · rw [if_neg hl, getLsbD_of_ge _ _ (Nat.not_lt.mp hl)]

/-- and the logical instructions mask the sign away. -/
theorem extra_ifmt_low : Format.extra w .ifmt &&& 0xffff = (immediate w).setWidth 32 := by
  rw [low_mask, extra_ifmt, immediate]
  congr 1
  apply eq_of_getLsbD_eq
  intro i hi
  rw [getLsbD_extractLsb', Nat.zero_add, getLsbD_signExtend, if_pos hi, decide_eq_true hi,
    decide_eq_true (show i < 32 by omega), Bool.true_and, Bool.true_and]

theorem extra_rfmt : Format.extra w .rfmt = (shamt w).setWidth 32 := by
  have hm : (0x1f : Word) = (BitVec.allOnes 5).setWidth 32 := by decide
  have hs : (w >>> 6).extractLsb' 0 5 = shamt w := by
    apply eq_of_toNat_eq
    simp only [shamt, extractLsb'_toNat, toNat_ushiftRight, Nat.shiftRight_zero]
  simp only [Format.extra]
  rw [hm, and_ones, hs]

theorem extra_jfmt : Format.extra w .jfmt = (targetIndex w).setWidth 32 := by
  have hm : (0x3ffffff : Word) = (BitVec.allOnes 26).setWidth 32 := by decide
  simp only [Format.extra]
  rw [hm, and_ones, targetIndex]

/-! ## Decoding -/

/-- The entry has the format of its operation. -/
def OpEntry.hasFormat : OpEntry → Format → Bool
  | .op o, f => o == .res || o == .unimp || f == o.format
  | .special, f => f == .rfmt
  | .bcond, f => f == .ifmt

theorem opTable_format (n : Nat) :
    (opTable.getD n (.op .res, .ifmt)).1.hasFormat (opTable.getD n (.op .res, .ifmt)).2 = true := by
  have ha : ∀ e ∈ opTable, e.1.hasFormat e.2 = true := by decide
  rw [List.getD_eq_getElem?_getD]
  cases h : opTable[n]? with
  | none => rfl
  | some e => exact ha e (List.mem_of_getElem? h)

theorem specialTable_format (n : Nat) : specialTable.getD n .res = .res ∨ specialTable.getD n .res = .unimp ∨
    (specialTable.getD n .res).format = .rfmt := by
  have ha : ∀ o ∈ specialTable, o = .res ∨ o = .unimp ∨ o.format = .rfmt := by decide
  rw [List.getD_eq_getElem?_getD]
  cases h : specialTable[n]? with
  | none => exact .inl rfl
  | some o => exact ha o (List.mem_of_getElem? h)

/-- `extra` is that of the operation's own format. -/
theorem decode_extra {w : Word} (hr : (Instruction.decode w).opCode ≠ .res) (hu : (Instruction.decode w).opCode ≠ .unimp) :
    (Instruction.decode w).extra = (Instruction.decode w).opCode.format.extra w := by
  have hf := opTable_format ((w >>> 26) &&& 0x3f).toNat
  unfold Instruction.decode at *
  simp only at *
  generalize opTable.getD ((w >>> 26) &&& 0x3f).toNat (.op .res, .ifmt) = e at *
  obtain ⟨entry, format⟩ := e
  cases entry with
  | op o =>
    simp only [OpEntry.hasFormat, Bool.or_eq_true, beq_iff_eq] at hf
    rcases hf with (rfl | rfl) | rfl
    · exact absurd rfl hr
    · exact absurd rfl hu
    · rfl
  | special =>
    obtain rfl := beq_iff_eq.mp hf
    rcases specialTable_format (w &&& 0x3f).toNat with h | h | h
    · exact absurd h hr
    · exact absurd h hu
    · simp only [h]
  | bcond =>
    obtain rfl := beq_iff_eq.mp hf
    simp only
    split
    · rfl
    split
    · rfl
    · split
      · rfl
      · split <;> rfl

/-! ## General registers -/

theorem gp_inj {x y : Fin numGPRegs} : gp x = gp y ↔ x = y := by
  rw [Fin.ext_iff, Fin.ext_iff]
  rfl

theorem writeRegs_gp (r : Regs) (d x : Fin numGPRegs) (v : Word) :
    writeRegs r [(gp d, v)] (gp x) = if x = d then v else r (gp x) := by
  rw [writeRegs, List.foldl_cons, List.foldl_nil, Function.update_apply]
  simp only [gp_inj]

variable {r : Regs} {m m' : Machine} {bigEndian : Bool} {addr value : Word} {size : Nat}

theorem writeRegs_gp_special {d : Fin numGPRegs} {v : Word} {s : RegNum} (hs : numGPRegs ≤ s.val) :
    writeRegs r [(gp d, v)] s = r s :=
  Function.update_of_ne (gp_ne hs).symm ..

/-- A general register after the delayed load. -/
theorem delayedLoad_gp (r : Regs) (n v : Word) (x : Fin numGPRegs) :
    delayedLoad r n v (gp x) = if x = 0 then 0 else if x.val = (r loadReg).toNat then r loadValueReg else r (gp x) := by
  rw [delayedLoad_apply]
  by_cases hx : x = 0
  · subst hx
    rfl
  · have hne : gp x ≠ 0 := fun e => hx (gp_inj.mp (e.trans (show (0 : RegNum) = gp 0 from rfl)))
    rw [if_neg hx, if_neg hne, if_neg (gp_ne (by decide)), if_neg (gp_ne (by decide)), gp_val]

theorem retire_gp (r : Regs) (n v pcAfter : Word) (x : Fin numGPRegs) :
    retire r n v pcAfter (gp x) = if x = 0 then 0 else if x.val = (r loadReg).toNat then r loadValueReg else r (gp x) := by
  rw [retire_apply, if_neg (gp_ne (by decide)), if_neg (gp_ne (by decide)), if_neg (gp_ne (by decide)), delayedLoad_gp]

/-! ## From the fetch on -/

theorem readMem_registers (h : m.readMem bigEndian addr size = .done value m') : m'.registers = m.registers := by
  unfold Machine.readMem at h
  split at h
  · cases h
  · cases h
  · rename_i ht
    split at h
    · cases h
      exact translate_registers ht
    · cases h

theorem writeMem_registers (h : m.writeMem bigEndian addr size value = .done () m') : m'.registers = m.registers := by
  unfold Machine.writeMem at h
  split at h
  · cases h
  · cases h
  · rename_i ht
    split at h
    · cases h
      have hr := translate_registers ht
      exact hr
    · cases h

theorem oneInstruction_eq {raw : Word} (h : m.readMem bigEndian (m.registers pcReg) 4 = .done raw m') :
    m.oneInstruction bigEndian = m'.perform bigEndian (effect (.decode raw) m.registers) := by
  rw [Machine.oneInstruction, h, Outcome.bind, readMem_registers h]

/-- A machine with one page, where an instruction is at address 0. -/
def Machine.holding (raw : Word) (r : Regs) : Machine where
  registers := r
  mainMemory := fun a => (Lib.word.bytes raw).getD a 0
  tlb := none
  pageTable := some [⟨0, 0, true, false, false, false⟩]
  pageTableSize := 1

theorem holding_fetch (raw : Word) (hpc : r pcReg = 0) :
    (Machine.holding raw r).readMem false ((Machine.holding raw r).registers pcReg) 4 =
      .done raw ((Machine.holding raw r).touch 0 false) := by
  have ht : (Machine.holding raw r).translate 0 4 false = .ok 0 ((Machine.holding raw r).touch 0 false) := by
    have hl : (Machine.holding raw r).lookup 0 = .found 0 ⟨0, 0, true, false, false, false⟩ := rfl
    have hf : TranslationEntry.frame ⟨0, 0, true, false, false, false⟩ = 0 := by decide
    rw [Machine.translate, if_neg (by decide)]
    simp only [show (0 : Word).toNat / pageSize = 0 from rfl, hl, hf]
    rfl
  have hw : readPhys false ((Machine.holding raw r).touch 0 false).mainMemory 0 4 = some raw :=
    congrArg some (Lib.word.ofBytes_bytes raw)
  show (Machine.holding raw r).readMem false (r pcReg) 4 = _
  rw [hpc, Machine.readMem, ht]
  simp only [hw]

end Nachos

/-
  Nachos.Machine.Mips — the register instructions against the MIPS R2000 definition.

  `Op.execute` is the definition of the manual, on a register file whose R0 is 0, with the
  address of the delay slot in `nextPC`. It is stated with the fields of the instruction word
  and in integers where the manual speaks of signed and unsigned numbers; nothing in it comes
  from the simulator.
  - `simulates`: what the simulator does instead, `Op.simulated`: OR of a register with
    itself, right shifts that keep the sign, jumps within the region of the instruction after
    the delay slot.
  - `register_ops_iff`: when the two agree.
-/

import Mathlib.Data.BitVec
import Nachos.Machine.Overflow

namespace Nachos.Mips

open Function (update update_apply update_of_ne update_self)
open BitVec hiding not_or

/-! ## The definition -/

/-- The operations that touch registers only and do not trap. -/
inductive Op where
  | addu | addiu | subu | and | andi | or | ori | xor | xori | nor
  | sll | sllv | srl | srlv | sra | srav
  | slt | slti | sltu | sltiu | lui
  | div | divu | mfhi | mflo | mthi | mtlo
  | beq | bne | bgez | bgtz | blez | bltz | bgezal | bltzal
  | j | jal | jr | jalr
  deriving DecidableEq, Repr

@[ext] structure State where
  gpr : Fin numGPRegs → Word
  hi : Word
  lo : Word
  pc : Word
  /-- The address of the delay slot. -/
  nextPC : Word
  zero : gpr 0 = 0

namespace State

variable (s : State)

/-- A write to R0 has no effect. -/
def write (d : Fin numGPRegs) (v : Word) : State :=
  { s with
    gpr := fun x => if x = 0 then 0 else if x = d then v else s.gpr x
    zero := rfl }

/-- The instruction in the delay slot is next, and `target` after it. -/
def goOn (target : Word) : State := { s with pc := s.nextPC, nextPC := target }

def alu (d : Fin numGPRegs) (v : Word) : State := (s.write d v).goOn (s.nextPC + 4)

/-- A branch is relative to the delay slot. -/
def branch (taken : Prop) [Decidable taken] (offset : BitVec 16) : State :=
  s.goOn (if taken then s.nextPC + (offset ++ 0#2).signExtend 32 else s.nextPC + 4)

/-- The address after the delay slot. -/
def link (d : Fin numGPRegs) : State := s.write d (s.nextPC + 4)

/-- A jump stays in the region of `base`. -/
def jump (base : Word) (index : BitVec 26) : State := s.goOn (base.extractLsb' 28 4 ++ index ++ 0#2)

end State

/-- The low five bits of a register. -/
def shift (v : Word) : Nat := v.toNat % 32

def Op.execute (raw : Word) (s : State) (op : Op) : State :=
  let rs := s.gpr (regAt raw 21)
  let rt := s.gpr (regAt raw 16)
  let rd := regAt raw 11
  let imm := immediate raw
  let toRd := s.alu rd
  let toRt := s.alu (regAt raw 16)
  match op with
  | .addu => toRd (rs + rt)
  | .addiu => toRt (rs + imm.signExtend 32)
  | .subu => toRd (rs - rt)
  | .and => toRd (rs &&& rt)
  | .andi => toRt (rs &&& imm.setWidth 32)
  | .or => toRd (rs ||| rt)
  | .ori => toRt (rs ||| imm.setWidth 32)
  | .xor => toRd (rs ^^^ rt)
  | .xori => toRt (rs ^^^ imm.setWidth 32)
  | .nor => toRd (~~~(rs ||| rt))
  | .sll => toRd (rt <<< (shamt raw).toNat)
  | .sllv => toRd (rt <<< shift rs)
  | .srl => toRd (rt >>> (shamt raw).toNat)
  | .srlv => toRd (rt >>> shift rs)
  | .sra => toRd (rt.sshiftRight (shamt raw).toNat)
  | .srav => toRd (rt.sshiftRight (shift rs))
  | .slt => toRd (if rs.toInt < rt.toInt then 1 else 0)
  | .slti => toRt (if rs.toInt < imm.toInt then 1 else 0)
  | .sltu => toRd (if rs.toNat < rt.toNat then 1 else 0)
  | .sltiu => toRt (if rs.toNat < (imm.signExtend 32).toNat then 1 else 0)
  | .lui => toRt (imm ++ 0#16)
  | .div => { s with
      lo := BitVec.ofInt 32 (rs.toInt.tdiv rt.toInt)
      hi := BitVec.ofInt 32 (rs.toInt.tmod rt.toInt) }.goOn (s.nextPC + 4)
  | .divu => { s with
      lo := BitVec.ofNat 32 (rs.toNat / rt.toNat)
      hi := BitVec.ofNat 32 (rs.toNat % rt.toNat) }.goOn (s.nextPC + 4)
  | .mfhi => toRd s.hi
  | .mflo => toRd s.lo
  | .mthi => { s with hi := rs }.goOn (s.nextPC + 4)
  | .mtlo => { s with lo := rs }.goOn (s.nextPC + 4)
  | .beq => s.branch (rs = rt) imm
  | .bne => s.branch (rs ≠ rt) imm
  | .bgez => s.branch (0 ≤ rs.toInt) imm
  | .bgtz => s.branch (0 < rs.toInt) imm
  | .blez => s.branch (rs.toInt ≤ 0) imm
  | .bltz => s.branch (rs.toInt < 0) imm
  | .bgezal => (s.link 31).branch (0 ≤ rs.toInt) imm
  | .bltzal => (s.link 31).branch (rs.toInt < 0) imm
  | .j => s.jump s.nextPC (targetIndex raw)
  | .jal => (s.link 31).jump s.nextPC (targetIndex raw)
  | .jr => s.goOn rs
  | .jalr => (s.link rd).goOn rs

/-- The manual leaves the rest undefined: division by zero or with a quotient that is too large,
    and links that overwrite the register they read. -/
def Op.Defined (raw : Word) (s : State) : Op → Prop
  | .div => s.gpr (regAt raw 16) ≠ 0 ∧ ¬ (s.gpr (regAt raw 21) = 0x80000000 ∧ s.gpr (regAt raw 16) = 0xffffffff)
  | .divu => s.gpr (regAt raw 16) ≠ 0
  | .bgezal | .bltzal => regAt raw 21 ≠ 31
  | .jalr => regAt raw 21 ≠ regAt raw 11
  | _ => True

/-! ## The simulator's registers -/

/-- The registers hold the state, but for R0, and no load is pending. -/
structure Shows (r : Regs) (s : State) : Prop where
  gpr : ∀ x, x ≠ 0 → r (gp x) = s.gpr x
  hi : r hiReg = s.hi
  lo : r loReg = s.lo
  pc : r pcReg = s.pc
  nextPC : r nextPCReg = s.nextPC
  noLoad : r loadReg = 0

structure Represents (r : Regs) (s : State) : Prop extends Shows r s where
  r0 : r (gp 0) = 0

section

variable {r : Regs} {s s' : State}

theorem Represents.reads (h : Represents r s) (x : Fin numGPRegs) : r (gp x) = s.gpr x := by
  by_cases hx : x = 0
  · rw [hx, h.r0, s.zero]
  · exact h.gpr x hx

theorem Represents.unique (h : Represents r s) (h' : Represents r s') : s = s' := by
  apply State.ext
  · funext x
    rw [← h.reads, ← h'.reads]
  · rw [← h.hi, ← h'.hi]
  · rw [← h.lo, ← h'.lo]
  · rw [← h.pc, ← h'.pc]
  · rw [← h.nextPC, ← h'.nextPC]

theorem Shows.write (h : Shows r s) (d : Fin numGPRegs) (v : Word) : Shows (update r (gp d) v) (s.write d v) where
  gpr x hx := by
    rw [update_apply, State.write]
    simp only [gp_inj, if_neg hx, h.gpr x hx]
  hi := (update_of_ne (gp_ne (by decide)).symm ..).trans h.hi
  lo := (update_of_ne (gp_ne (by decide)).symm ..).trans h.lo
  pc := (update_of_ne (gp_ne (by decide)).symm ..).trans h.pc
  nextPC := (update_of_ne (gp_ne (by decide)).symm ..).trans h.nextPC
  noLoad := (update_of_ne (gp_ne (by decide)).symm ..).trans h.noLoad

theorem Shows.setHi (h : Shows r s) (v : Word) : Shows (update r hiReg v) { s with hi := v } where
  gpr x hx := (update_of_ne (gp_ne (by decide)) ..).trans (h.gpr x hx)
  hi := update_self ..
  lo := (update_of_ne (by decide) ..).trans h.lo
  pc := (update_of_ne (by decide) ..).trans h.pc
  nextPC := (update_of_ne (by decide) ..).trans h.nextPC
  noLoad := (update_of_ne (by decide) ..).trans h.noLoad

theorem Shows.setLo (h : Shows r s) (v : Word) : Shows (update r loReg v) { s with lo := v } where
  gpr x hx := (update_of_ne (gp_ne (by decide)) ..).trans (h.gpr x hx)
  hi := (update_of_ne (by decide) ..).trans h.hi
  lo := update_self ..
  pc := (update_of_ne (by decide) ..).trans h.pc
  nextPC := (update_of_ne (by decide) ..).trans h.nextPC
  noLoad := (update_of_ne (by decide) ..).trans h.noLoad

theorem Shows.retire (h : Shows r s) (target : Word) : Represents (retire r 0 0 target) (s.goOn target) := by
  have hl : ∀ x : RegNum, numGPRegs ≤ x.val → x ≠ loadValueReg → x ≠ loadReg → delayedLoad r 0 0 x = r x := by
    intro x hx hv hr
    have hz : x ≠ 0 := by
      rintro rfl
      exact absurd hx (by decide)
    rw [delayedLoad_apply, if_neg hz, if_neg hv, if_neg hr, h.noLoad, if_neg]
    exact fun e => hz (Fin.ext e)
  refine ⟨⟨fun x hx => ?_, ?_, ?_, ?_, ?_, ?_⟩, ?_⟩
  · rw [retire_gp, if_neg hx, h.noLoad, if_neg (show ¬ x.val = (0 : Word).toNat from fun e => hx (Fin.ext e))]
    exact h.gpr x hx
  · exact (hl hiReg (by decide) (by decide) (by decide)).trans h.hi
  · exact (hl loReg (by decide) (by decide) (by decide)).trans h.lo
  · exact (hl nextPCReg (by decide) (by decide) (by decide)).trans h.nextPC
  · rfl
  · rfl
  · rw [retire_gp]
    rfl

end

/-! ## What the simulator does -/

def Op.opCode : Op → OpCode
  | .addu => .addu | .addiu => .addiu | .subu => .subu | .and => .and | .andi => .andi | .or => .or | .ori => .ori
  | .xor => .xor | .xori => .xori | .nor => .nor | .sll => .sll | .sllv => .sllv | .srl => .srl | .srlv => .srlv
  | .sra => .sra | .srav => .srav | .slt => .slt | .slti => .slti | .sltu => .sltu | .sltiu => .sltiu | .lui => .lui
  | .div => .div | .divu => .divu | .mfhi => .mfhi | .mflo => .mflo | .mthi => .mthi | .mtlo => .mtlo
  | .beq => .beq | .bne => .bne | .bgez => .bgez | .bgtz => .bgtz | .blez => .blez | .bltz => .bltz
  | .bgezal => .bgezal | .bltzal => .bltzal | .j => .j | .jal => .jal | .jr => .jr | .jalr => .jalr

/-- The instruction as the simulator carries it out. -/
def Op.simulated (raw : Word) (s : State) : Op → State
  | .or => s.alu (regAt raw 11) (s.gpr (regAt raw 21))
  | .srl => s.alu (regAt raw 11) ((s.gpr (regAt raw 16)).sshiftRight (shamt raw).toNat)
  | .srlv => s.alu (regAt raw 11) ((s.gpr (regAt raw 16)).sshiftRight (shift (s.gpr (regAt raw 21))))
  | .j => s.jump (s.nextPC + 4) (targetIndex raw)
  | .jal => (s.link 31).jump (s.nextPC + 4) (targetIndex raw)
  | op => op.execute raw s

variable {target v : Word} {d : Fin numGPRegs}

section

variable {bigEndian : Bool} {m m' : Machine} {raw : Word} {s : State}

theorem toNat_and_1f (v : Word) : (v &&& 0x1f).toNat = shift v := by
  rw [toNat_and]
  exact Nat.and_two_pow_sub_one_eq_mod v.toNat 5

theorem toNat_shamt (raw : Word) : ((shamt raw).setWidth 32).toNat = (shamt raw).toNat := by
  rw [toNat_setWidth]
  exact Nat.mod_eq_of_lt (Nat.lt_trans (shamt raw).isLt (by decide))

theorem lui_eq (imm : BitVec 16) : imm.signExtend 32 <<< 16 = imm ++ 0#16 := by
  apply eq_of_getLsbD_eq
  intro i hi
  rw [getLsbD_shiftLeft, getLsbD_append, getLsbD_signExtend, decide_eq_true (show i < 32 by omega)]
  by_cases hl : i < 16
  · rw [decide_eq_true hl, if_pos hl, getLsbD_zero]
    rfl
  · have hs : i - 16 < 16 := by omega
    rw [decide_eq_false hl, if_neg hl, if_pos hs, decide_eq_true (show i - 16 < 32 by omega)]
    rfl

theorem branch_offset (imm : BitVec 16) : indexToAddr (imm.signExtend 32) = (imm ++ 0#2).signExtend 32 := by
  apply eq_of_getLsbD_eq
  intro i hi
  rw [indexToAddr, getLsbD_shiftLeft, getLsbD_signExtend, getLsbD_signExtend, getLsbD_append,
    msb_append, decide_eq_true hi]
  by_cases hl : i < 2
  · rw [decide_eq_true hl, if_pos (show i < 16 + 2 by omega), if_pos hl, getLsbD_zero]
    rfl
  rw [decide_eq_false hl, decide_eq_true (show i - 2 < 32 by omega)]
  by_cases hm : i - 2 < 16
  · rw [if_pos hm, if_pos (show i < 16 + 2 by omega), if_neg hl]
    rfl
  · rw [if_neg hm, if_neg (show ¬ i < 16 + 2 by omega)]
    rfl

theorem jump_target (base : Word) (index : BitVec 26) :
    (base &&& 0xf0000000) ||| indexToAddr (index.setWidth 32) = base.extractLsb' 28 4 ++ index ++ 0#2 := by
  have hm : (0xf0000000 : Word) = (BitVec.allOnes 4).setWidth 32 <<< 28 := by decide
  rw [hm, indexToAddr]
  apply eq_of_getLsbD_eq
  intro i hi
  rw [getLsbD_or, getLsbD_and, getLsbD_shiftLeft, getLsbD_shiftLeft, getLsbD_append,
    getLsbD_append, getLsbD_setWidth, getLsbD_setWidth, getLsbD_allOnes, getLsbD_extractLsb',
    decide_eq_true (show i < 32 by omega)]
  by_cases hl : i < 2
  · simp [hl, show i < 28 by omega]
  by_cases hmd : i < 28
  · simp [hl, hmd, show i - 2 < 26 by omega, show i - 2 < 32 by omega]
  have hin : index.getLsbD (i - 2) = false := getLsbD_of_ge _ _ (by omega)
  simp [hl, hmd, hin, show ¬ i - 2 < 26 by omega, show i - 28 < 4 by omega, show i - 28 < 32 by omega,
    show i - 2 - 26 < 4 by omega,
    show 28 + (i - 2 - 26) = i by omega]

section

variable (hfetch : m.readMem bigEndian (m.registers pcReg) 4 = .done raw m')
include hfetch

theorem done_of_effect {ws : List (RegNum × Word)} (he : effect (.decode raw) m.registers = .regs ws target)
    (hs : Shows (writeRegs m.registers ws) s) :
    ∃ m'', m.oneInstruction bigEndian = .done () m'' ∧ Represents m''.registers (s.goOn target) := by
  have ho := oneInstruction_eq hfetch
  rw [he, Machine.perform, readMem_registers hfetch] at ho
  exact ⟨_, ho, hs.retire target⟩

theorem alu_of_effect (h : Represents m.registers s) (he : effect (.decode raw) m.registers = .regs [(gp d, v)] (s.nextPC + 4)) :
    ∃ m'', m.oneInstruction bigEndian = .done () m'' ∧ Represents m''.registers (s.alu d v) :=
  done_of_effect hfetch he (h.toShows.write d v)

theorem branch_of_effect (h : Represents m.registers s) {taken : Prop} [Decidable taken] {imm : BitVec 16}
    (he : effect (.decode raw) m.registers = .regs [] (if taken then s.nextPC + (imm ++ 0#2).signExtend 32 else s.nextPC + 4)) :
    ∃ m'', m.oneInstruction bigEndian = .done () m'' ∧ Represents m''.registers (s.branch taken imm) :=
  done_of_effect hfetch he h.toShows

theorem link_of_effect (h : Represents m.registers s) (he : effect (.decode raw) m.registers = .regs [(gp d, s.nextPC + 4)] target) :
    ∃ m'', m.oneInstruction bigEndian = .done () m'' ∧ Represents m''.registers ((s.link d).goOn target) :=
  done_of_effect hfetch he (h.toShows.write d _)

theorem hilo_of_effect (h : Represents m.registers s) {lo hi : Word} (he : effect (.decode raw) m.registers = .regs [(loReg, lo), (hiReg, hi)] (s.nextPC + 4)) :
    ∃ m'', m.oneInstruction bigEndian = .done () m'' ∧ Represents m''.registers ({ s with lo, hi }.goOn (s.nextPC + 4)) :=
  done_of_effect hfetch he ((h.toShows.setLo lo).setHi hi)

end

theorem sdiv_eq (a b : Word) : a.sdiv b = BitVec.ofInt 32 (a.toInt.tdiv b.toInt) := by
  apply eq_of_toInt_eq
  rw [toInt_sdiv, BitVec.toInt_ofInt]

theorem srem_eq (a b : Word) : a.srem b = BitVec.ofInt 32 (a.toInt.tmod b.toInt) := by
  rw [← toInt_srem, ofInt_toInt]

theorem udiv_eq (a b : Word) : a / b = BitVec.ofNat 32 (a.toNat / b.toNat) := by
  rw [← toNat_udiv, ofNat_word]

theorem umod_eq (a b : Word) : a % b = BitVec.ofNat 32 (a.toNat % b.toNat) := by
  rw [← toNat_umod, ofNat_word]

theorem sign_iff (v : Word) : sign v = true ↔ v.toInt < 0 := by
  rw [sign_eq_msb, msb_eq_toInt, decide_eq_true_eq]

theorem not_sign_iff (v : Word) : (!sign v) = true ↔ 0 ≤ v.toInt := by
  rw [Bool.not_eq_true', ← Bool.not_eq_true, sign_iff, Int.not_lt]

/-- The simulator carries out `Op.simulated`. -/
theorem simulates (op : Op) (hfetch : m.readMem bigEndian (m.registers pcReg) 4 = .done raw m')
    (hop : (Instruction.decode raw).opCode = op.opCode) (h : Represents m.registers s) (hd : op.Defined raw s) :
    ∃ m'', m.oneInstruction bigEndian = .done () m'' ∧ Represents m''.registers (op.simulated raw s) := by
  have hrs : (Instruction.decode raw).rs = regAt raw 21 := regField_eq raw 21
  have hrt : (Instruction.decode raw).rt = regAt raw 16 := regField_eq raw 16
  have hrd : (Instruction.decode raw).rd = regAt raw 11 := regField_eq raw 11
  have he : (Instruction.decode raw).extra = op.opCode.format.extra raw := by
    rw [decode_extra, hop]
    · rw [hop]; cases op <;> decide
    · rw [hop]; cases op <;> decide
  cases op with
  | andi | ori | xori =>
    refine alu_of_effect hfetch h ?_
    simp only [effect, hop, Op.opCode, hrs, hrt, he, OpCode.format, extra_ifmt_low, h.reads, h.nextPC]
  | addu | addiu | subu | and | or | xor | nor | sll | sllv | srl | srlv | sra | srav | slt | slti | sltu | sltiu | lui | mfhi | mflo =>
    refine alu_of_effect hfetch h ?_
    simp only [effect, hop, Op.opCode, hrs, hrt, hrd, he, OpCode.format, extra_ifmt, extra_rfmt, h.reads, h.nextPC, h.hi, h.lo,
      BitVec.or_self, lui_eq, shiftLeft_eq', toNat_shamt, toNat_and_1f, BitVec.slt, lt_def, decide_eq_true_eq,
      toInt_signExtend_of_le (show 16 ≤ 32 by decide)]
  | div =>
    refine hilo_of_effect hfetch h ?_
    simp only [effect, hop, Op.opCode, hrs, hrt, h.reads, h.nextPC, if_neg hd.1, if_neg hd.2, sdiv_eq, srem_eq]
  | divu =>
    refine hilo_of_effect hfetch h ?_
    simp only [effect, hop, Op.opCode, hrs, hrt, h.reads, h.nextPC, if_neg (show ¬ s.gpr (regAt raw 16) = 0 from hd), udiv_eq, umod_eq]
  | mthi =>
    refine done_of_effect hfetch ?_ (show Shows (writeRegs m.registers [(hiReg, _)]) _ from h.toShows.setHi _)
    simp only [effect, hop, Op.opCode, hrs, h.reads, h.nextPC]
  | mtlo =>
    refine done_of_effect hfetch ?_ (show Shows (writeRegs m.registers [(loReg, _)]) _ from h.toShows.setLo _)
    simp only [effect, hop, Op.opCode, hrs, h.reads, h.nextPC]
  | beq | bne | bgez | bltz | bgtz | blez =>
    refine branch_of_effect hfetch h ?_
    simp only [effect, hop, Op.opCode, hrs, hrt, he, OpCode.format, extra_ifmt, h.reads, h.nextPC, branch_offset, beq_iff_eq,
      bne_iff_ne, sign_iff, not_sign_iff, BitVec.slt, BitVec.sle, decide_eq_true_eq, show (0 : Word).toInt = 0 from rfl]
  | bgezal | bltzal =>
    -- the link is written before the register is read
    have hl : update m.registers retAddrReg (m.registers nextPCReg + 4) (gp (regAt raw 21)) = s.gpr (regAt raw 21) := by
      rw [update_of_ne (fun e => hd (gp_inj.mp (e.trans (show retAddrReg = gp 31 from rfl)))), h.reads]
    refine link_of_effect hfetch h ?_
    simp only [effect, hop, Op.opCode, hrs, he, OpCode.format, extra_ifmt, hl, branch_offset, sign_iff, not_sign_iff]
    simp only [h.nextPC]
    rfl
  | j =>
    refine done_of_effect hfetch ?_ (show Shows (writeRegs m.registers []) s from h.toShows)
    simp only [effect, hop, Op.opCode, he, OpCode.format, extra_jfmt, h.nextPC, jump_target]
  | jal =>
    refine link_of_effect hfetch h ?_
    simp only [effect, hop, Op.opCode, he, OpCode.format, extra_jfmt, h.nextPC, jump_target]
    rfl
  | jr =>
    refine done_of_effect hfetch ?_ (show Shows (writeRegs m.registers []) s from h.toShows)
    simp only [effect, hop, Op.opCode, hrs, h.reads]
  | jalr =>
    have hl : update m.registers (gp (regAt raw 11)) (s.nextPC + 4) (gp (regAt raw 21)) = s.gpr (regAt raw 21) := by
      rw [update_of_ne (fun e => hd (gp_inj.mp e)), h.reads]
    refine link_of_effect hfetch h ?_
    simp only [effect, hop, Op.opCode, hrs, hrd, h.nextPC, hl]

end

/-! ## Where it agrees -/

/-- The instructions in which the simulator differs, and where it does not show. -/
def Op.Agrees (raw : Word) (s : State) : Op → Prop
  | .or => regAt raw 11 = 0 ∨ s.gpr (regAt raw 21) ||| s.gpr (regAt raw 16) = s.gpr (regAt raw 21)
  | .srl => regAt raw 11 = 0 ∨ (shamt raw).toNat = 0 ∨ 0 ≤ (s.gpr (regAt raw 16)).toInt
  | .srlv => regAt raw 11 = 0 ∨ shift (s.gpr (regAt raw 21)) = 0 ∨ 0 ≤ (s.gpr (regAt raw 16)).toInt
  | .j | .jal => (s.nextPC + 4).extractLsb' 28 4 = s.nextPC.extractLsb' 28 4
  | _ => True

section

variable {s : State}

theorem alu_eq_iff {v' : Word} : s.alu d v = s.alu d v' ↔ d = 0 ∨ v = v' := by
  constructor
  · intro h
    by_cases hd : d = 0
    · exact .inl hd
    · have hg : (s.alu d v).gpr d = (s.alu d v').gpr d := by rw [h]
      simp only [State.alu, State.goOn, State.write, if_neg hd, if_true] at hg
      exact .inr hg
  · rintro (rfl | rfl)
    · apply State.ext
      · funext x
        by_cases hx : x = 0 <;> simp [State.alu, State.goOn, State.write, hx]
      all_goals rfl
    · rfl

theorem jump_eq_iff {base base' : Word} {index : BitVec 26} :
    s.jump base index = s.jump base' index ↔ base.extractLsb' 28 4 = base'.extractLsb' 28 4 := by
  constructor
  · intro h
    have ht : base.extractLsb' 28 4 ++ index ++ 0#2 = base'.extractLsb' 28 4 ++ index ++ 0#2 := congrArg State.nextPC h
    have hb : ∀ (a : BitVec 4) {i : Nat}, i < 4 → (a ++ index ++ 0#2).getLsbD (28 + i) = a.getLsbD i := by
      intro a i hi
      rw [getLsbD_append, if_neg (by omega), getLsbD_append, if_neg (by omega), show 28 + i - 2 - 26 = i by omega]
    apply eq_of_getLsbD_eq
    intro i hi
    rw [← hb _ hi, ← hb _ hi, ht]
  · intro h
    rw [State.jump, State.jump, h]

/-- A shift that keeps the sign is a logical one if there is no sign, or no shift. -/
theorem sshiftRight_eq_iff (v : Word) {n : Nat} (hn : n < 32) : v.sshiftRight n = v >>> n ↔ n = 0 ∨ 0 ≤ v.toInt := by
  by_cases hng : v.msb = true
  · have ht : (v.sshiftRight n).msb = true := by rw [msb_sshiftRight, hng]
    constructor
    · intro h
      by_contra hno
      rw [not_or] at hno
      rw [h, msb_eq_getLsbD_last, getLsbD_ushiftRight, getLsbD_of_ge _ _ (by omega)] at ht
      cases ht
    · rintro (rfl | hp)
      · rw [sshiftRight_zero, ushiftRight_zero]
      · rw [msb_eq_toInt, decide_eq_true_eq] at hng
        omega
  · have hp : 0 ≤ v.toInt := by
      rw [msb_eq_toInt, decide_eq_true_eq] at hng
      omega
    exact iff_of_true (sshiftRight_eq_of_msb_false (Bool.eq_false_iff.mpr hng)) (.inr hp)

theorem simulated_eq_iff (op : Op) (raw : Word) : op.simulated raw s = op.execute raw s ↔ op.Agrees raw s := by
  cases op with
  | or => exact alu_eq_iff.trans (or_congr Iff.rfl eq_comm)
  | srl => exact alu_eq_iff.trans (or_congr Iff.rfl (sshiftRight_eq_iff _ (shamt raw).isLt))
  | srlv => exact alu_eq_iff.trans (or_congr Iff.rfl (sshiftRight_eq_iff _ (Nat.mod_lt _ (by decide))))
  | j => exact jump_eq_iff
  | jal => exact jump_eq_iff (s := s.link 31)
  | _ => exact iff_of_true rfl trivial

end

/-- `OneInstruction` on a register instruction, with no pending load, leaves what the definition
    gives if and only if the simulator's OR, logical shifts and jumps agree with it there. -/
theorem register_ops_iff (op : Op) {bigEndian : Bool} {m m' : Machine} {raw : Word} {s : State}
    (hfetch : m.readMem bigEndian (m.registers pcReg) 4 = .done raw m') (hop : (Instruction.decode raw).opCode = op.opCode)
    (h : Represents m.registers s) (hdef : op.Defined raw s) :
    (∃ m'', m.oneInstruction bigEndian = .done () m'' ∧ Represents m''.registers (op.execute raw s)) ↔ op.Agrees raw s := by
  obtain ⟨m'', hone, hrep⟩ := simulates op hfetch hop h hdef
  rw [← simulated_eq_iff]
  constructor
  · rintro ⟨n, hn, hexec⟩
    rw [hone] at hn
    cases hn
    exact hrep.unique hexec
  · intro he
    exact ⟨m'', hone, he ▸ hrep⟩

/-- The registers of a state. -/
def State.regs (s : State) : Regs := fun x =>
  if h : x.val < numGPRegs then s.gpr ⟨x.val, h⟩
  else if x = hiReg then s.hi else if x = loReg then s.lo else if x = pcReg then s.pc else if x = nextPCReg then s.nextPC else 0

theorem State.regs_represents (s : State) : Represents s.regs s where
  gpr x _ := by
    rw [State.regs, dif_pos (show (gp x).val < numGPRegs from x.isLt)]
    rfl
  hi := rfl
  lo := rfl
  pc := rfl
  nextPC := rfl
  noLoad := rfl
  r0 := s.zero

/-- At address 0, with two registers. -/
def twoOperands (r1 r2 nextPC : Word) : State := ⟨fun x => if x = 1 then r1 else if x = 2 then r2 else 0, 0, 0, 0, nextPC, rfl⟩

/-- `or r3, r1, r2` with 1 and 2; `srl r3, r2, 1` and `srlv r3, r2, r1` with a negative number; `j 0`
    and `jal 0` with the delay slot at the end of a region. -/
theorem register_ops_differ :
    (((Machine.holding 0x00221825 (twoOperands 1 2 4).regs).oneInstruction false).regs?.map (· (gp 3)) = some 1 ∧
      (Op.or.execute 0x00221825 (twoOperands 1 2 4)).gpr 3 = 3) ∧
    (((Machine.holding 0x00021842 (twoOperands 1 0x80000000 4).regs).oneInstruction false).regs?.map (· (gp 3)) = some 0xc0000000 ∧
      (Op.srl.execute 0x00021842 (twoOperands 1 0x80000000 4)).gpr 3 = 0x40000000) ∧
    (((Machine.holding 0x00221806 (twoOperands 1 0x80000000 4).regs).oneInstruction false).regs?.map (· (gp 3)) = some 0xc0000000 ∧
      (Op.srlv.execute 0x00221806 (twoOperands 1 0x80000000 4)).gpr 3 = 0x40000000) ∧
    (((Machine.holding 0x08000000 (twoOperands 0 0 0x0ffffffc).regs).oneInstruction false).regs?.map (· nextPCReg) = some 0x10000000 ∧
      (Op.j.execute 0x08000000 (twoOperands 0 0 0x0ffffffc)).nextPC = 0) ∧
    (((Machine.holding 0x0c000000 (twoOperands 0 0 0x0ffffffc).regs).oneInstruction false).regs?.map (· nextPCReg) = some 0x10000000 ∧
      (Op.jal.execute 0x0c000000 (twoOperands 0 0 0x0ffffffc)).nextPC = 0) := by
  decide +kernel

/-- `addu r3, r1, r2`, and `or r3, r1, r2` where no bit of the second is missing in the first. -/
theorem register_ops_of_two :
    (∃ m'', (Machine.holding 0x00221821 (twoOperands 1 2 4).regs).oneInstruction false = .done () m'' ∧
      Represents m''.registers (Op.addu.execute 0x00221821 (twoOperands 1 2 4))) ∧
    ∃ m'', (Machine.holding 0x00221825 (twoOperands 3 2 4).regs).oneInstruction false = .done () m'' ∧
      Represents m''.registers (Op.or.execute 0x00221825 (twoOperands 3 2 4)) := by
  constructor
  · have hfetch := holding_fetch 0x00221821 (r := (twoOperands 1 2 4).regs) (by decide)
    exact (register_ops_iff .addu hfetch (by decide) (twoOperands 1 2 4).regs_represents trivial).mpr trivial
  · have hfetch := holding_fetch 0x00221825 (r := (twoOperands 3 2 4).regs) (by decide)
    exact (register_ops_iff .or hfetch (by decide) (twoOperands 3 2 4).regs_represents trivial).mpr (.inr (by decide))

end Nachos.Mips

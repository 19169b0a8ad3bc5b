/-
  Nachos.Machine.Encoding — instruction words as `bin/encode.h` and `bin/instr.h` lay them out.

  The opcode numbers are those of encode.h, the places of the fields those of instr.h; neither
  is taken from the simulator. `Instr.word` assembles an instruction.
-/

import Nachos.Machine.Fields

namespace Nachos.Encode

open BitVec
open Instruction (decode)

/-! ## encode.h -/

/-- The normal opcodes of instructions with an immediate. -/
inductive IOp where
  | beq | bne | blez | bgtz | addi | addiu | slti | sltiu | andi | ori | xori | lui
  | cop0 | cop1 | cop2 | cop3
  | lb | lh | lwl | lw | lbu | lhu | lwr
  | sb | sh | swl | sw | swr
  | lwc0 | lwc1 | lwc2 | lwc3
  | swc0 | swc1 | swc2 | swc3
  deriving DecidableEq, Repr

inductive JOp where
  | j | jal
  deriving DecidableEq, Repr

/-- The special opcodes. -/
inductive Special where
  | sll | srl | sra | sllv | srlv | srav | jr | jalr | syscall | break
  | mfhi | mthi | mflo | mtlo | mult | multu | div | divu
  | add | addu | sub | subu | and | or | xor | nor | slt | sltu
  deriving DecidableEq, Repr

inductive Bcond where
  | bltz | bgez | bltzal | bgezal
  deriving DecidableEq, Repr

abbrev special : BitVec 6 := 0o00
abbrev bcond : BitVec 6 := 0o01

def IOp.code : IOp → BitVec 6
  | .beq => 0o04
  | .bne => 0o05
  | .blez => 0o06
  | .bgtz => 0o07
  | .addi => 0o10
  | .addiu => 0o11
  | .slti => 0o12
  | .sltiu => 0o13
  | .andi => 0o14
  | .ori => 0o15
  | .xori => 0o16
  | .lui => 0o17
  | .cop0 => 0o20
  | .cop1 => 0o21
  | .cop2 => 0o22
  | .cop3 => 0o23
  | .lb => 0o40
  | .lh => 0o41
  | .lwl => 0o42
  | .lw => 0o43
  | .lbu => 0o44
  | .lhu => 0o45
  | .lwr => 0o46
  | .sb => 0o50
  | .sh => 0o51
  | .swl => 0o52
  | .sw => 0o53
  | .swr => 0o56
  | .lwc0 => 0o60
  | .lwc1 => 0o61
  | .lwc2 => 0o62
  | .lwc3 => 0o63
  | .swc0 => 0o70
  | .swc1 => 0o71
  | .swc2 => 0o72
  | .swc3 => 0o73

def JOp.code : JOp → BitVec 6
  | .j => 0o02
  | .jal => 0o03

def Special.code : Special → BitVec 6
  | .sll => 0o00
  | .srl => 0o02
  | .sra => 0o03
  | .sllv => 0o04
  | .srlv => 0o06
  | .srav => 0o07
  | .jr => 0o10
  | .jalr => 0o11
  | .syscall => 0o14
  | .break => 0o15
  | .mfhi => 0o20
  | .mthi => 0o21
  | .mflo => 0o22
  | .mtlo => 0o23
  | .mult => 0o30
  | .multu => 0o31
  | .div => 0o32
  | .divu => 0o33
  | .add => 0o40
  | .addu => 0o41
  | .sub => 0o42
  | .subu => 0o43
  | .and => 0o44
  | .or => 0o45
  | .xor => 0o46
  | .nor => 0o47
  | .slt => 0o52
  | .sltu => 0o53

def Bcond.code : Bcond → BitVec 5
  | .bltz => 0o00
  | .bgez => 0o01
  | .bltzal => 0o20
  | .bgezal => 0o21

/-- An instruction with the values of its fields. -/
inductive Instr where
  | immediate (op : IOp) (rs rt : BitVec 5) (immed : BitVec 16)
  | special (op : Special) (rs rt rd shamt : BitVec 5)
  | bcond (op : Bcond) (rs : BitVec 5) (immed : BitVec 16)
  | jump (op : JOp) (target : BitVec 26)
  deriving DecidableEq, Repr

/-- The instruction's word: `rs` is at bit 21, `rt` and the BCOND opcode at 16, `rd` at 11,
    `shamt` at 6. -/
def Instr.word : Instr → Word
  | .immediate op rs rt immed => op.code ++ rs ++ rt ++ immed
  | .special op rs rt rd shamt => Encode.special ++ rs ++ rt ++ rd ++ shamt ++ op.code
  | .bcond op rs immed => Encode.bcond ++ rs ++ op.code ++ immed
  | .jump op target => op.code ++ target

/-! ## What the simulator should find -/

/-- The OP_ code of the instruction; coprocessor instructions are not implemented. -/
def IOp.opCode : IOp → OpCode
  | .beq => .beq
  | .bne => .bne
  | .blez => .blez
  | .bgtz => .bgtz
  | .addi => .addi
  | .addiu => .addiu
  | .slti => .slti
  | .sltiu => .sltiu
  | .andi => .andi
  | .ori => .ori
  | .xori => .xori
  | .lui => .lui
  | .lb => .lb
  | .lh => .lh
  | .lwl => .lwl
  | .lw => .lw
  | .lbu => .lbu
  | .lhu => .lhu
  | .lwr => .lwr
  | .sb => .sb
  | .sh => .sh
  | .swl => .swl
  | .sw => .sw
  | .swr => .swr
  | .cop0 | .cop1 | .cop2 | .cop3 | .lwc0 | .lwc1 | .lwc2 | .lwc3 | .swc0 | .swc1 | .swc2 | .swc3 => .unimp

def JOp.opCode : JOp → OpCode
  | .j => .j
  | .jal => .jal

/-- BREAK is not implemented. -/
def Special.opCode : Special → OpCode
  | .sll => .sll
  | .srl => .srl
  | .sra => .sra
  | .sllv => .sllv
  | .srlv => .srlv
  | .srav => .srav
  | .jr => .jr
  | .jalr => .jalr
  | .syscall => .syscall
  | .break => .unimp
  | .mfhi => .mfhi
  | .mthi => .mthi
  | .mflo => .mflo
  | .mtlo => .mtlo
  | .mult => .mult
  | .multu => .multu
  | .div => .div
  | .divu => .divu
  | .add => .add
  | .addu => .addu
  | .sub => .sub
  | .subu => .subu
  | .and => .and
  | .or => .or
  | .xor => .xor
  | .nor => .nor
  | .slt => .slt
  | .sltu => .sltu

def Bcond.opCode : Bcond → OpCode
  | .bltz => .bltz
  | .bgez => .bgez
  | .bltzal => .bltzal
  | .bgezal => .bgezal

/-- The decoded instruction has the operation and the fields of the encoded one. -/
def Instr.FoundIn (d : Instruction) : Instr → Prop
  | .immediate op rs rt immed =>
    d.opCode = op.opCode ∧ d.rs.val = rs.toNat ∧ d.rt.val = rt.toNat ∧ d.extra = immed.signExtend 32
  | .special op rs rt rd shamt =>
    d.opCode = op.opCode ∧ d.rs.val = rs.toNat ∧ d.rt.val = rt.toNat ∧ d.rd.val = rd.toNat ∧ d.extra = shamt.setWidth 32
  | .bcond op rs immed => d.opCode = op.opCode ∧ d.rs.val = rs.toNat ∧ d.extra = immed.signExtend 32
  | .jump op target => d.opCode = op.opCode ∧ d.extra = target.setWidth 32

/-! ## Fields of an assembled word -/

/-- The opcode. -/
def opField (w : Word) : BitVec 6 := w.extractLsb' 26 6

/-- The special opcode. -/
def functField (w : Word) : BitVec 6 := w.extractLsb' 0 6

variable (w : Word)

section

open BitVec (extractLsb' extractLsb'_append_eq_of_le extractLsb'_append_eq_of_add_le extractLsb'_eq_self)

variable (op : BitVec 6)

theorem immediate_fields (rs rt : BitVec 5) (immed : BitVec 16) (w : Word) (h : w = op ++ rs ++ rt ++ immed) :
    opField w = op ∧ w.extractLsb' 21 5 = rs ∧ w.extractLsb' 16 5 = rt ∧ immediate w = immed := by
  subst h
  refine ⟨?_, ?_, ?_, ?_⟩ <;>
    simp (disch := decide) only [opField, immediate, extractLsb'_append_eq_of_le, extractLsb'_append_eq_of_add_le,
      Nat.reduceSub, extractLsb'_eq_self]

theorem special_fields (rs rt rd sa : BitVec 5) (funct : BitVec 6) (w : Word)
    (h : w = op ++ rs ++ rt ++ rd ++ sa ++ funct) :
    opField w = op ∧ w.extractLsb' 21 5 = rs ∧ w.extractLsb' 16 5 = rt ∧ w.extractLsb' 11 5 = rd ∧ shamt w = sa ∧
      functField w = funct := by
  subst h
  refine ⟨?_, ?_, ?_, ?_, ?_, ?_⟩ <;>
    simp (disch := decide) only [opField, shamt, functField, extractLsb'_append_eq_of_le, extractLsb'_append_eq_of_add_le,
      Nat.reduceSub, extractLsb'_eq_self]

theorem jump_fields (target : BitVec 26) (w : Word) (h : w = op ++ target) :
    opField w = op ∧ targetIndex w = target := by
  subst h
  refine ⟨?_, ?_⟩ <;>
    simp (disch := decide) only [opField, targetIndex, extractLsb'_append_eq_of_le, extractLsb'_append_eq_of_add_le,
      Nat.reduceSub, extractLsb'_eq_self]

/-- A word is put together from its fields. -/
theorem word_immediate : w = opField w ++ w.extractLsb' 21 5 ++ w.extractLsb' 16 5 ++ immediate w := by
  simp (disch := decide) only [opField, immediate, extractLsb'_append_extractLsb'_eq_extractLsb']
  exact extractLsb'_eq_self.symm

theorem word_special : w = opField w ++ w.extractLsb' 21 5 ++ w.extractLsb' 16 5 ++ w.extractLsb' 11 5 ++ shamt w ++
    functField w := by
  simp (disch := decide) only [opField, shamt, functField, extractLsb'_append_extractLsb'_eq_extractLsb']
  exact extractLsb'_eq_self.symm

theorem word_jump : w = opField w ++ targetIndex w := by
  simp (disch := decide) only [opField, targetIndex, extractLsb'_append_extractLsb'_eq_extractLsb']
  exact extractLsb'_eq_self.symm

end

/-! ## The tables -/

/-- The entry of `opTable` for an opcode. -/
def entry (op : BitVec 6) : OpEntry × Format := opTable.getD op.toNat (.op .res, .ifmt)

/-- The entry of `specialTable` for a special opcode. -/
def specialEntry (funct : BitVec 6) : OpCode := specialTable.getD funct.toNat .res

/-- The BCOND opcodes, as `Decode` tells them apart. -/
def bcondEntry (sub : BitVec 5) : OpCode :=
  if sub = 0 then .bltz else if sub = 1 then .bgez else if sub = 16 then .bltzal else if sub = 17 then .bgezal else .unimp

theorem and_bcond_mask : w &&& (0x1f0000 : Word) = (w.extractLsb' 16 5).setWidth 32 <<< 16 := by
  have hm : (0x1f0000 : Word) = (BitVec.allOnes 5).setWidth 32 <<< 16 := by decide
  rw [hm]
  apply eq_of_getLsbD_eq
  intro i hi
  simp only [getLsbD_and, getLsbD_shiftLeft, getLsbD_setWidth, getLsbD_allOnes,
    getLsbD_extractLsb', hi, decide_true, Bool.true_and]
  by_cases hl : i < 16
  · simp only [hl, decide_true, Bool.not_true, Bool.false_and, Bool.and_false]
  · rw [show 16 + (i - 16) = i by omega]
    simp only [hl, show i - 16 < 32 by omega, decide_true, decide_false, Bool.not_false, Bool.true_and]
    exact Bool.and_comm ..

theorem bcond_mask_iff (sub : BitVec 5) : w &&& (0x1f0000 : Word) = sub.setWidth 32 <<< 16 ↔ w.extractLsb' 16 5 = sub := by
  have hb : ∀ x : BitVec 5, (x.setWidth 32 <<< 16 : Word).extractLsb' 16 5 = x := by decide
  rw [and_bcond_mask]
  constructor
  · intro h
    rw [← hb (w.extractLsb' 16 5), h, hb]
  · intro h
    rw [h]

theorem decode_fields : decode w =
    { opCode := match (entry (opField w)).1 with
        | .op o => o
        | .special => specialEntry (functField w)
        | .bcond => bcondEntry (w.extractLsb' 16 5)
      rs := regAt w 21
      rt := regAt w 16
      rd := regAt w 11
      extra := (entry (opField w)).2.extra w } := by
  have hop : ((w >>> 26) &&& 0x3f).toNat = (opField w).toNat := by
    have hm : (0x3f : Word) = (BitVec.allOnes 6).setWidth 32 := by decide
    rw [hm, and_ones, toNat_setWidth_of_le (by decide)]
    simp only [opField, extractLsb'_toNat, toNat_ushiftRight, Nat.shiftRight_zero]
  have hf : (w &&& 0x3f).toNat = (functField w).toNat := by
    have hm : (0x3f : Word) = (BitVec.allOnes 6).setWidth 32 := by decide
    rw [hm, and_ones, toNat_setWidth_of_le (by decide), functField]
  have h0 : w &&& 0x1f0000 = 0 ↔ w.extractLsb' 16 5 = 0 := bcond_mask_iff w 0
  have h1 : w &&& 0x1f0000 = 0x10000 ↔ w.extractLsb' 16 5 = 1 := bcond_mask_iff w 1
  have h16 : w &&& 0x1f0000 = 0x100000 ↔ w.extractLsb' 16 5 = 16 := bcond_mask_iff w 16
  have h17 : w &&& 0x1f0000 = 0x110000 ↔ w.extractLsb' 16 5 = 17 := bcond_mask_iff w 17
  unfold decode
  simp only [hop, hf, regField_eq, h0, h1, h16, h17]
  rfl

theorem entry_immediate (op : IOp) : entry op.code = (.op op.opCode, .ifmt) := by
  cases op <;> rfl

theorem entry_jump (op : JOp) : entry op.code = (.op op.opCode, .jfmt) := by
  cases op <;> rfl

theorem specialEntry_code (op : Special) : specialEntry op.code = op.opCode := by
  cases op <;> rfl

theorem bcondEntry_code (op : Bcond) : bcondEntry op.code = op.opCode := by
  cases op <;> rfl

/-- Whatever goes into a word, `Decode` finds it. -/
theorem decode_word (i : Instr) : i.FoundIn (.decode i.word) := by
  rw [decode_fields]
  cases i with
  | immediate op rs rt immed =>
    obtain ⟨hop, hrs, hrt, him⟩ := immediate_fields op.code rs rt immed _ rfl
    simp only [Instr.FoundIn, Instr.word, regAt, hop, hrs, hrt, entry_immediate, extra_ifmt, him]
    exact ⟨trivial, trivial, trivial, trivial⟩
  | special op rs rt rd sa =>
    obtain ⟨hop, hrs, hrt, hrd, hsa, hf⟩ := special_fields special rs rt rd sa op.code _ rfl
    have he : entry special = (.special, .rfmt) := rfl
    simp only [Instr.FoundIn, Instr.word, regAt, hop, hrs, hrt, hrd, hf, he, specialEntry_code, extra_rfmt, hsa]
    exact ⟨trivial, trivial, trivial, trivial, trivial⟩
  | bcond op rs immed =>
    obtain ⟨hop, hrs, hrt, him⟩ := immediate_fields bcond rs op.code immed _ rfl
    have he : entry bcond = (.bcond, .ifmt) := rfl
    simp only [Instr.FoundIn, Instr.word, regAt, hop, hrs, hrt, he, bcondEntry_code, extra_ifmt, him]
    exact ⟨trivial, trivial, trivial⟩
  | jump op target =>
    obtain ⟨hop, ht⟩ := jump_fields op.code target _ rfl
    simp only [Instr.FoundIn, Instr.word, hop, entry_jump, extra_jfmt, ht]
    exact ⟨trivial, trivial⟩

/-! ## Other words -/

def IOp.all : List IOp :=
  [.beq, .bne, .blez, .bgtz, .addi, .addiu, .slti, .sltiu, .andi, .ori, .xori, .lui, .cop0, .cop1, .cop2, .cop3,
    .lb, .lh, .lwl, .lw, .lbu, .lhu, .lwr, .sb, .sh, .swl, .sw, .swr, .lwc0, .lwc1, .lwc2, .lwc3, .swc0, .swc1, .swc2, .swc3]

def Special.all : List Special :=
  [.sll, .srl, .sra, .sllv, .srlv, .srav, .jr, .jalr, .syscall, .break, .mfhi, .mthi, .mflo, .mtlo, .mult, .multu, .div, .divu,
    .add, .addu, .sub, .subu, .and, .or, .xor, .nor, .slt, .sltu]

/-- An opcode of encode.h, or one that the table leaves out. -/
theorem entry_cases : ∀ op : BitVec 6, op = special ∨ op = bcond ∨ (∃ i ∈ IOp.all, i.code = op) ∨
    (∃ i ∈ [JOp.j, JOp.jal], i.code = op) ∨ (entry op).1 = .op .res := by
  decide

theorem specialEntry_cases : ∀ funct : BitVec 6, (∃ i ∈ Special.all, i.code = funct) ∨ specialEntry funct = .res := by
  decide

theorem bcondEntry_cases : ∀ sub : BitVec 5, (∃ i ∈ [Bcond.bltz, .bgez, .bltzal, .bgezal], i.code = sub) ∨
    bcondEntry sub = .unimp := by
  decide

/-- A word that no instruction is assembled to is reserved, or unimplemented. -/
theorem decode_other {w : Word} (h : ∀ i : Instr, i.word ≠ w) :
    (decode w).opCode = .res ∨ (decode w).opCode = .unimp := by
  rw [decode_fields]
  rcases entry_cases (opField w) with hop | hop | ⟨i, -, hop⟩ | ⟨i, -, hop⟩ | hop
  · rcases specialEntry_cases (functField w) with ⟨i, -, hf⟩ | hr
    · refine absurd ?_ (h (.special i (w.extractLsb' 21 5) (w.extractLsb' 16 5) (w.extractLsb' 11 5) (shamt w)))
      rw [Instr.word, hf, ← hop]
      exact (word_special w).symm
    · rw [hop]
      exact .inl hr
  · rcases bcondEntry_cases (w.extractLsb' 16 5) with ⟨i, -, hs⟩ | hu
    · refine absurd ?_ (h (.bcond i (w.extractLsb' 21 5) (immediate w)))
      rw [Instr.word, hs, ← hop]
      exact (word_immediate w).symm
    · rw [hop]
      exact .inr hu
  · refine absurd ?_ (h (.immediate i (w.extractLsb' 21 5) (w.extractLsb' 16 5) (immediate w)))
    rw [Instr.word, hop]
    exact (word_immediate w).symm
  · refine absurd ?_ (h (.jump i (targetIndex w)))
    rw [Instr.word, hop]
    exact (word_jump w).symm
  · left
    simp only [hop]

/-- `Decode` inverts the encoding: it finds the operation and the fields of every instruction of
    encode.h in its word. Any other word decodes to OP_RES or OP_UNIMP, and once it has been
    fetched the instruction is illegal. -/
theorem decode_inverts :
    (∀ i : Instr, i.FoundIn (.decode i.word)) ∧
    ∀ w : Word, (∀ i : Instr, i.word ≠ w) →
      ((decode w).opCode = .res ∨ (decode w).opCode = .unimp) ∧
      ∀ (bigEndian : Bool) (m m' : Machine), m.readMem bigEndian (m.registers pcReg) 4 = .done w m' →
        m.oneInstruction bigEndian = .raised .illegalInstrException (m'.raiseException 0) := by
  refine ⟨decode_word, fun w h => ⟨decode_other h, fun bigEndian m m' hfetch => ?_⟩⟩
  have heffect : effect (.decode w) m.registers = .raise .illegalInstrException 0 := by
    unfold effect
    rcases decode_other h with hop | hop <;> rw [hop]
  rw [oneInstruction_eq hfetch, heffect]
  rfl

/-- `sllv $9, $8, $7`, and a word with an opcode that is not in use. -/
example : (Instr.special .sllv 7 8 9 0).word = 0x00e84804 ∧ (decode 0x00e84804).opCode = .sllv ∧
    (decode 0x50000000).opCode = .res := by decide

end Nachos.Encode

/-
  Nachos.Machine.Overflow — the traps of ADD, ADDI and SUB.

  The three instructions tell an overflow from sign bits, each in its own way; all three are
  exact. What is not as a first reading has it is the destination: R0 stays 0, and a pending
  load lands when the instruction is done, so a load of the destination overwrites the sum.
  - `overflow_exact`: the trap, and every general register after it or after the instruction.
-/

import Nachos.Machine.Fields
import Nachos.Machine.Multiply

namespace Nachos

open BitVec

/-! ## Signs of sums -/

/-- An `int`. -/
def FitsInt (z : Int) : Prop := -2147483648 ≤ z ∧ z < 2147483648

instance (z : Int) : Decidable (FitsInt z) := inferInstanceAs (Decidable (_ ∧ _))

variable (a b : Word)

theorem saddOverflow_iff : a.saddOverflow b = true ↔ ¬ FitsInt (a.toInt + b.toInt) := by
  simp only [BitVec.saddOverflow, FitsInt, Bool.or_eq_true, decide_eq_true_eq]
  omega

theorem ssubOverflow_iff : a.ssubOverflow b = true ↔ ¬ FitsInt (a.toInt - b.toInt) := by
  simp only [BitVec.ssubOverflow, FitsInt, Bool.or_eq_true, decide_eq_true_eq]
  omega

theorem add_test : (!sign (a ^^^ b) && sign (a ^^^ (a + b))) = true ↔ ¬ FitsInt (a.toInt + b.toInt) := by
  rw [← saddOverflow_iff, saddOverflow_eq, sign_eq_msb, sign_eq_msb, msb_xor, msb_xor]
  cases a.msb <;> cases b.msb <;> cases (a + b).msb <;> decide

/-- The test of ADDI compares the sum with the other operand. -/
theorem addi_test : (!sign (a ^^^ b) && sign (b ^^^ (a + b))) = true ↔ ¬ FitsInt (a.toInt + b.toInt) := by
  rw [← saddOverflow_iff, saddOverflow_eq, sign_eq_msb, sign_eq_msb, msb_xor, msb_xor]
  cases a.msb <;> cases b.msb <;> cases (a + b).msb <;> decide

theorem sub_test : (sign (a ^^^ b) && sign (a ^^^ (a - b))) = true ↔ ¬ FitsInt (a.toInt - b.toInt) := by
  rw [← ssubOverflow_iff, ssubOverflow_eq, sign_eq_msb, sign_eq_msb, msb_xor, msb_xor]
  cases a.msb <;> cases b.msb <;> cases (a - b).msb <;> decide

theorem add_eq_ofInt : a + b = BitVec.ofInt 32 (a.toInt + b.toInt) := by
  rw [ofInt_add, ofInt_toInt, ofInt_toInt]

theorem sub_eq_ofInt : a - b = BitVec.ofInt 32 (a.toInt - b.toInt) := by
  rw [Int.sub_eq_add_neg, ofInt_add, ofInt_neg, ofInt_toInt, ofInt_toInt, BitVec.sub_eq_add_neg]

theorem FitsInt.toInt_ofInt {z : Int} (h : FitsInt z) : (BitVec.ofInt 32 z).toInt = z := by
  rw [BitVec.toInt_ofInt]
  exact Int.bmod_eq_of_le h.1 h.2

/-! ## The instructions -/

/-- The instructions that can overflow. -/
inductive Arith where
  | add | addi | sub
  deriving DecidableEq, Repr

namespace Arith

def opCode : Arith → OpCode
  | .add => .add
  | .addi => .addi
  | .sub => .sub

/-- The exact result of the signed operation. -/
def exact (raw : Word) (r : Regs) : Arith → Int
  | .add => (r (gp (regAt raw 21))).toInt + (r (gp (regAt raw 16))).toInt
  | .addi => (r (gp (regAt raw 21))).toInt + (immediate raw).toInt
  | .sub => (r (gp (regAt raw 21))).toInt - (r (gp (regAt raw 16))).toInt

def destination (raw : Word) : Arith → Fin numGPRegs
  | .addi => regAt raw 16
  | .add | .sub => regAt raw 11

variable {raw : Word} {op : Arith}

theorem effect_eq (h : (Instruction.decode raw).opCode = op.opCode) (r : Regs) :
    (FitsInt (op.exact raw r) →
      effect (.decode raw) r = .regs [(gp (op.destination raw), BitVec.ofInt 32 (op.exact raw r))] (r nextPCReg + 4)) ∧
    (¬ FitsInt (op.exact raw r) → effect (.decode raw) r = .raise .overflowException 0) := by
  have hrs : (Instruction.decode raw).rs = regAt raw 21 := regField_eq raw 21
  have hrt : (Instruction.decode raw).rt = regAt raw 16 := regField_eq raw 16
  have hrd : (Instruction.decode raw).rd = regAt raw 11 := regField_eq raw 11
  cases op with
  | add =>
    have hts := add_test (r (gp (regAt raw 21))) (r (gp (regAt raw 16)))
    simp only [effect, h, opCode, hrs, hrt, hrd, exact, destination, ← add_eq_ofInt]
    exact ⟨fun hf => if_neg fun ht => hts.mp ht hf, fun hno => if_pos (hts.mpr hno)⟩
  | addi =>
    have he : (Instruction.decode raw).extra = (immediate raw).signExtend 32 := by
      rw [decode_extra (by rw [h]; decide) (by rw [h]; decide), h]
      exact extra_ifmt raw
    have hts := addi_test (r (gp (regAt raw 21))) ((immediate raw).signExtend 32)
    have him : ((immediate raw).signExtend 32).toInt = (immediate raw).toInt := toInt_signExtend_of_le (by decide)
    rw [him] at hts
    simp only [effect, h, opCode, hrs, hrt, he, exact, destination, ← him, ← add_eq_ofInt]
    rw [him]
    exact ⟨fun hf => if_neg fun ht => hts.mp ht hf, fun hno => if_pos (hts.mpr hno)⟩
  | sub =>
    have hts := sub_test (r (gp (regAt raw 21))) (r (gp (regAt raw 16)))
    simp only [effect, h, opCode, hrs, hrt, hrd, exact, destination, ← sub_eq_ofInt]
    exact ⟨fun hf => if_neg fun ht => hts.mp ht hf, fun hno => if_pos (hts.mpr hno)⟩

end Arith

/-! ## The instructions -/

/-- `OneInstruction` on an ADD, ADDI or SUB that has been fetched: it raises OverflowException if
    and only if the exact result is not an `int`. If it is one, the destination has it afterwards,
    unless the destination is R0 or a load of it was pending; the other general registers change
    only by a pending load, and so do all of them in a trap. R0 is 0 in any case. -/
theorem overflow_exact (op : Arith) {bigEndian : Bool} {m m' : Machine} {raw : Word}
    (hfetch : m.readMem bigEndian (m.registers pcReg) 4 = .done raw m') (hop : (Instruction.decode raw).opCode = op.opCode) :
    ((∃ m'', m.oneInstruction bigEndian = .raised .overflowException m'') ↔ ¬ FitsInt (op.exact raw m.registers)) ∧
    (FitsInt (op.exact raw m.registers) → ∃ m'', m.oneInstruction bigEndian = .done () m'' ∧
      ∀ x : Fin numGPRegs, (m''.registers (gp x)).toInt = if x = 0 then 0
        else if x.val = (m.registers loadReg).toNat then (m.registers loadValueReg).toInt
        else if x = op.destination raw then op.exact raw m.registers else (m.registers (gp x)).toInt) ∧
    (∀ m'', m.oneInstruction bigEndian = .raised .overflowException m'' →
      ∀ x : Fin numGPRegs, m''.registers (gp x) = if x = 0 then 0
        else if x.val = (m.registers loadReg).toNat then m.registers loadValueReg else m.registers (gp x)) := by
  obtain ⟨hfits, hover⟩ := Arith.effect_eq hop m.registers
  have hregs := readMem_registers hfetch
  have hone := oneInstruction_eq hfetch
  by_cases hint : FitsInt (op.exact raw m.registers)
  · rw [hfits hint] at hone
    have hno : ∀ m'', m.oneInstruction bigEndian ≠ .raised .overflowException m'' := by
      intro m'' e
      rw [hone] at e
      cases e
    refine ⟨⟨fun h => absurd h.choose_spec (hno _), fun h => absurd hint h⟩, fun _ => ⟨_, hone, fun x => ?_⟩,
      fun m'' e => absurd e (hno m'')⟩
    show (retire (writeRegs m'.registers [(gp (op.destination raw), _)]) 0 0 _ (gp x)).toInt = _
    rw [hregs, retire_gp, writeRegs_gp_special (by decide), writeRegs_gp_special (by decide), writeRegs_gp]
    split
    · rfl
    · split
      · rfl
      · split
        · exact hint.toInt_ofInt
        · rfl
  · rw [hover hint] at hone
    refine ⟨⟨fun _ => hint, fun _ => ⟨_, hone⟩⟩, fun h => absurd h hint, fun m'' e x => ?_⟩
    rw [hone] at e
    cases e
    show delayedLoad (Function.update m'.registers badVAddrReg 0) 0 0 (gp x) = _
    rw [hregs, delayedLoad_gp, Function.update_of_ne (by decide), Function.update_of_ne (by decide),
      Function.update_of_ne (gp_ne (by decide))]

/-- The registers after an instruction or a trap. -/
def Outcome.regs? {α : Type} : Outcome α → Option Regs
  | .done _ m | .raised _ m => some m.registers
  | .stop _ => none

/-- Two registers with a value, and a load that is pending. -/
def twoRegs (r1 r2 load value : Word) : Regs := fun x =>
  if x = 1 then r1 else if x = 2 then r2 else if x = loadReg then load else if x = loadValueReg then value else 0

/-- `add r0, r1, r2` with 1 and 2, and `add r3, r1, r2` while R3 is being loaded with 7: the
    destination does not have 3 afterwards. -/
theorem sum_not_received :
    (Arith.add.exact 0x00220020 (twoRegs 1 2 0 0) = 3 ∧ Arith.add.destination 0x00220020 = 0 ∧
      ((Machine.holding 0x00220020 (twoRegs 1 2 0 0)).oneInstruction false).regs?.map (· (gp 0)) = some 0) ∧
    (Arith.add.exact 0x00221820 (twoRegs 1 2 3 7) = 3 ∧ Arith.add.destination 0x00221820 = 3 ∧
      ((Machine.holding 0x00221820 (twoRegs 1 2 3 7)).oneInstruction false).regs?.map (· (gp 3)) = some 7) := by
  decide +kernel

/-- `add r3, r1, r2` with 1 and 2, and with INT_MAX and 1. -/
theorem overflow_exact_of_two :
    (∃ m'', (Machine.holding 0x00221820 (twoRegs 1 2 0 0)).oneInstruction false = .done () m'' ∧ (m''.registers (gp 3)).toInt = 3) ∧
    ∃ m'', (Machine.holding 0x00221820 (twoRegs 0x7fffffff 1 0 0)).oneInstruction false = .raised .overflowException m'' := by
  constructor
  · have hfetch := holding_fetch 0x00221820 (r := twoRegs 1 2 0 0) (by decide)
    obtain ⟨-, hfits, -⟩ := overflow_exact .add hfetch (by decide)
    obtain ⟨m'', hone, hregs⟩ := hfits (by decide)
    exact ⟨m'', hone, hregs 3⟩
  · have hfetch := holding_fetch 0x00221820 (r := twoRegs 0x7fffffff 1 0 0) (by decide)
    obtain ⟨hraise, -⟩ := overflow_exact .add hfetch (by decide)
    exact hraise.mpr (by decide)

end Nachos

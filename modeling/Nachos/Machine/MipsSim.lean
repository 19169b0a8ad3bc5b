/-
  Nachos.Machine.MipsSim — `machine/mipssim.cc` and `machine/mipssim.h`: decoding and
  executing one user instruction.

  The opcode switch of `Machine::OneInstruction` is `effect`: what the instruction does,
  computed from the registers alone. `perform` carries that out on the machine, with the
  memory accesses, the traps and the delayed load. Instructions write registers only
  after their last possible trap, so a trap always leaves the registers as they were.
-/

import Nachos.Machine.Translate

namespace Nachos

open Function (update)

/-! ## Decoding -/

inductive OpCode where
  | add | addi | addiu | addu | and | andi
  | beq | bgez | bgezal | bgtz | blez | bltz | bltzal | bne
  | div | divu | j | jal | jalr | jr
  | lb | lbu | lh | lhu | lui | lw | lwl | lwr
  | mfhi | mflo | mthi | mtlo | mult | multu | nor | or | ori | rfe
  | sb | sh | sll | sllv | slt | slti | sltiu | sltu
  | sra | srav | srl | srlv | sub | subu | sw | swl | swr
  | xor | xori | syscall | unimp | res
  deriving DecidableEq, Repr

inductive Format where
  | ifmt | jfmt | rfmt
  deriving DecidableEq, Repr

/-- An `opTable` entry's opcode: final, or to be decoded further. -/
inductive OpEntry where
  | op (o : OpCode)
  | special
  | bcond
  deriving DecidableEq, Repr

def opTable : List (OpEntry × Format) :=
  [(.special, .rfmt), (.bcond, .ifmt), (.op .j, .jfmt), (.op .jal, .jfmt),
   (.op .beq, .ifmt), (.op .bne, .ifmt), (.op .blez, .ifmt), (.op .bgtz, .ifmt),
   (.op .addi, .ifmt), (.op .addiu, .ifmt), (.op .slti, .ifmt), (.op .sltiu, .ifmt),
   (.op .andi, .ifmt), (.op .ori, .ifmt), (.op .xori, .ifmt), (.op .lui, .ifmt),
   (.op .unimp, .ifmt), (.op .unimp, .ifmt), (.op .unimp, .ifmt), (.op .unimp, .ifmt),
   (.op .res, .ifmt), (.op .res, .ifmt), (.op .res, .ifmt), (.op .res, .ifmt),
   (.op .res, .ifmt), (.op .res, .ifmt), (.op .res, .ifmt), (.op .res, .ifmt),
   (.op .res, .ifmt), (.op .res, .ifmt), (.op .res, .ifmt), (.op .res, .ifmt),
   (.op .lb, .ifmt), (.op .lh, .ifmt), (.op .lwl, .ifmt), (.op .lw, .ifmt),
   (.op .lbu, .ifmt), (.op .lhu, .ifmt), (.op .lwr, .ifmt), (.op .res, .ifmt),
   (.op .sb, .ifmt), (.op .sh, .ifmt), (.op .swl, .ifmt), (.op .sw, .ifmt),
   (.op .res, .ifmt), (.op .res, .ifmt), (.op .swr, .ifmt), (.op .res, .ifmt),
   (.op .unimp, .ifmt), (.op .unimp, .ifmt), (.op .unimp, .ifmt), (.op .unimp, .ifmt),
   (.op .res, .ifmt), (.op .res, .ifmt), (.op .res, .ifmt), (.op .res, .ifmt),
   (.op .unimp, .ifmt), (.op .unimp, .ifmt), (.op .unimp, .ifmt), (.op .unimp, .ifmt),
   (.op .res, .ifmt), (.op .res, .ifmt), (.op .res, .ifmt), (.op .res, .ifmt)]

def specialTable : List OpCode :=
  [.sll, .res, .srl, .sra, .sllv, .res, .srlv, .srav,
   .jr, .jalr, .res, .res, .syscall, .unimp, .res, .res,
   .mfhi, .mthi, .mflo, .mtlo, .res, .res, .res, .res,
   .mult, .multu, .div, .divu, .res, .res, .res, .res,
   .add, .addu, .sub, .subu, .and, .or, .xor, .nor,
   .res, .res, .slt, .sltu, .res, .res, .res, .res,
   .res, .res, .res, .res, .res, .res, .res, .res,
   .res, .res, .res, .res, .res, .res, .res, .res]

structure Instruction where
  opCode : OpCode
  rs : Fin numGPRegs
  rt : Fin numGPRegs
  rd : Fin numGPRegs
  extra : Word
  deriving DecidableEq, Repr

/-- A five-bit register field, `(value >> shift) & 0x1f`. -/
def regField (value : Word) (shift : Nat) : Fin numGPRegs :=
  Fin.ofNat numGPRegs (value >>> shift).toNat

def Format.extra (value : Word) : Format → Word
  | .ifmt =>
    let extra := value &&& 0xffff
    if extra &&& 0x8000 ≠ 0 then extra ||| 0xffff0000 else extra
  | .rfmt => (value >>> 6) &&& 0x1f
  | .jfmt => value &&& 0x3ffffff

/-- `Instruction::Decode`. -/
def Instruction.decode (value : Word) : Instruction :=
  -- both tables have 64 entries, so neither default is ever used
  let entry := opTable.getD ((value >>> 26) &&& 0x3f).toNat (.op .res, .ifmt)
  let opCode := match entry.1 with
    | .op o => o
    | .special => specialTable.getD (value &&& 0x3f).toNat .res
    | .bcond =>
      let i := value &&& 0x1f0000
      if i = 0 then .bltz
      else if i = 0x10000 then .bgez
      else if i = 0x100000 then .bltzal
      else if i = 0x110000 then .bgezal
      else .unimp
  { opCode, rs := regField value 21, rt := regField value 16, rd := regField value 11,
    extra := entry.2.extra value }

/-! ## The opcode switch -/

/-- The loop of `Mult`: the bits of `a`, one at a time. The result is `(hi, lo)`. -/
def multLoop : Nat → Word → Word → Word → Word → Word → Word × Word
  | 0, _, _, _, hi, lo => (hi, lo)
  | n + 1, a, bHi, bLo, hi, lo =>
    if a &&& 1 ≠ 0 then
      let lo := lo + bLo
      let hi := (if lo < bLo then hi + 1 else hi) + bHi
      if a &&& 0xfffffffe = 0 then (hi, lo)
      else multLoop n (a.sshiftRight 1) ((bHi <<< 1) ||| if bLo &&& 0x80000000 ≠ 0 then 1 else 0)
        (bLo <<< 1) hi lo
    else multLoop n (a.sshiftRight 1) ((bHi <<< 1) ||| if bLo &&& 0x80000000 ≠ 0 then 1 else 0)
        (bLo <<< 1) hi lo

/-- `Mult`: the `(hi, lo)` words of the product. -/
def mult (a b : Word) (signedArith : Bool) : Word × Word :=
  if a = 0 ∨ b = 0 then (0, 0)
  else
    let negA := signedArith && a.slt 0
    let negB := signedArith && b.slt 0
    let a := if negA then -a else a
    let b := if negB then -b else b
    let (hi, lo) := multLoop 32 a 0 b 0 0
    if negA != negB then
      let lo := ~~~lo + 1
      (if lo = 0 then ~~~hi + 1 else ~~~hi, lo)
    else (hi, lo)

/-- The sign bit is set. -/
def sign (w : Word) : Bool := w &&& 0x80000000 != 0

/-- `IndexToAddr`. -/
def indexToAddr (x : Word) : Word := x <<< 2

/-- What an instruction does, once its registers have been read. -/
inductive Effect where
  /-- Write registers and go on at `pcAfter`. -/
  | regs (writes : List (RegNum × Word)) (pcAfter : Word)
  /-- Read memory; the value, adjusted by `f`, is the next delayed load of `rt`. -/
  | load (addr : Word) (size : Nat) (rt : Fin numGPRegs) (f : Word → Word)
  | store (addr : Word) (size : Nat) (value : Word)
  /-- Read the word at `addr` and write it back, adjusted by `f` (SWL and SWR). -/
  | merge (addr : Word) (f : Word → Word)
  | raise (which : ExceptionType) (badVAddr : Word)
  | stop (why : Stop)

/-- What LWL and LWR merge the word read into: the pending load of `rt`, or `rt`. -/
def mergeBase (r : Regs) (rt : Fin numGPRegs) : Word :=
  if r loadReg = BitVec.ofNat 32 rt then r loadValueReg else r (gp rt)

def lwl (tmp base value : Word) : Word :=
  match (tmp &&& 3).toNat with
  | 0 => value
  | 1 => (base &&& 0xff) ||| (value <<< 8)
  | 2 => (base &&& 0xffff) ||| (value <<< 16)
  | _ => (base &&& 0xffffff) ||| (value <<< 24)

def lwr (tmp base value : Word) : Word :=
  match (tmp &&& 3).toNat with
  | 0 => (base &&& 0xffffff00) ||| ((value.sshiftRight 24) &&& 0xff)
  | 1 => (base &&& 0xffff0000) ||| ((value.sshiftRight 16) &&& 0xffff)
  | 2 => (base &&& 0xff000000) ||| ((value.sshiftRight 8) &&& 0xffffff)
  | _ => value

def swl (tmp rt value : Word) : Word :=
  match (tmp &&& 3).toNat with
  | 0 => rt
  | 1 => (value &&& 0xff000000) ||| ((rt.sshiftRight 8) &&& 0xffffff)
  | 2 => (value &&& 0xffff0000) ||| ((rt.sshiftRight 16) &&& 0xffff)
  | _ => (value &&& 0xffffff00) ||| ((rt.sshiftRight 24) &&& 0xff)

def swr (tmp rt value : Word) : Word :=
  match (tmp &&& 3).toNat with
  | 0 => (value &&& 0xffffff) ||| (rt <<< 24)
  | 1 => (value &&& 0xffff) ||| (rt <<< 16)
  | 2 => (value &&& 0xff) ||| (rt <<< 8)
  | _ => rt

/-- The `switch` of `Machine::OneInstruction`. -/
def effect (i : Instruction) (r : Regs) : Effect :=
  let rs := r (gp i.rs)
  let rt := r (gp i.rt)
  let tmp := rs + i.extra
  let pcAfter := r nextPCReg + 4
  let target := r nextPCReg + indexToAddr i.extra
  let toRd := fun v => Effect.regs [(gp i.rd, v)] pcAfter
  let toRt := fun v => Effect.regs [(gp i.rt, v)] pcAfter
  let branch := fun (c : Bool) => Effect.regs [] (if c then target else pcAfter)
  -- the branch-and-link cases fall through: `rs` is read after the link is written
  let linked := update r retAddrReg pcAfter (gp i.rs)
  let branchLink := fun (c : Bool) => Effect.regs [(retAddrReg, pcAfter)] (if c then target else pcAfter)
  match i.opCode with
  | .add =>
    let sum := rs + rt
    if !sign (rs ^^^ rt) && sign (rs ^^^ sum) then .raise .overflowException 0 else toRd sum
  | .addi =>
    let sum := rs + i.extra
    if !sign (rs ^^^ i.extra) && sign (i.extra ^^^ sum) then .raise .overflowException 0 else toRt sum
  | .addiu => toRt (rs + i.extra)
  | .addu => toRd (rs + rt)
  | .and => toRd (rs &&& rt)
  | .andi => toRt (rs &&& (i.extra &&& 0xffff))
  | .beq => branch (rs == rt)
  | .bgezal => branchLink (!sign linked)
  | .bgez => branch (!sign rs)
  | .bgtz => branch (BitVec.slt 0 rs)
  | .blez => branch (rs.sle 0)
  | .bltzal => branchLink (sign linked)
  | .bltz => branch (sign rs)
  | .bne => branch (rs != rt)
  | .div =>
    if rt = 0 then .regs [(loReg, 0), (hiReg, 0)] pcAfter
    -- INT_MIN / -1 overflows `int`: the host traps
    else if rs = 0x80000000 ∧ rt = 0xffffffff then .stop .undefined
    else .regs [(loReg, rs.sdiv rt), (hiReg, rs.srem rt)] pcAfter
  | .divu =>
    if rt = 0 then .regs [(loReg, 0), (hiReg, 0)] pcAfter
    else .regs [(loReg, rs / rt), (hiReg, rs % rt)] pcAfter
  | .jal => .regs [(retAddrReg, pcAfter)] ((pcAfter &&& 0xf0000000) ||| indexToAddr i.extra)
  | .j => .regs [] ((pcAfter &&& 0xf0000000) ||| indexToAddr i.extra)
  | .jalr => .regs [(gp i.rd, pcAfter)] (update r (gp i.rd) pcAfter (gp i.rs))
  | .jr => .regs [] rs
  | .lb => .load tmp 1 i.rt fun v => if v &&& 0x80 ≠ 0 then v ||| 0xffffff00 else v &&& 0xff
  | .lbu => .load tmp 1 i.rt fun v => v &&& 0xff
  | .lh =>
    if tmp &&& 1 ≠ 0 then .raise .addressErrorException tmp
    else .load tmp 2 i.rt fun v => if v &&& 0x8000 ≠ 0 then v ||| 0xffff0000 else v &&& 0xffff
  | .lhu =>
    if tmp &&& 1 ≠ 0 then .raise .addressErrorException tmp else .load tmp 2 i.rt fun v => v &&& 0xffff
  | .lui => toRt (i.extra <<< 16)
  | .lw =>
    if tmp &&& 3 ≠ 0 then .raise .addressErrorException tmp else .load tmp 4 i.rt id
  | .lwl => if tmp &&& 3 ≠ 0 then .stop .assertion else .load tmp 4 i.rt (lwl tmp (mergeBase r i.rt))
  | .lwr => if tmp &&& 3 ≠ 0 then .stop .assertion else .load tmp 4 i.rt (lwr tmp (mergeBase r i.rt))
  | .mfhi => toRd (r hiReg)
  | .mflo => toRd (r loReg)
  | .mthi => .regs [(hiReg, rs)] pcAfter
  | .mtlo => .regs [(loReg, rs)] pcAfter
  | .mult => .regs [(hiReg, (mult rs rt true).1), (loReg, (mult rs rt true).2)] pcAfter
  | .multu => .regs [(hiReg, (mult rs rt false).1), (loReg, (mult rs rt false).2)] pcAfter
  | .nor => toRd (~~~(rs ||| rt))
  | .or => toRd (rs ||| rs)
  | .ori => toRt (rs ||| (i.extra &&& 0xffff))
  | .sb => .store tmp 1 rt
  | .sh => .store tmp 2 rt
  | .sll => toRd (rt <<< i.extra)
  | .sllv => toRd (rt <<< (rs &&& 0x1f))
  | .slt => toRd (if rs.slt rt then 1 else 0)
  | .slti => toRt (if rs.slt i.extra then 1 else 0)
  | .sltiu => toRt (if rs < i.extra then 1 else 0)
  | .sltu => toRd (if rs < rt then 1 else 0)
  | .sra => toRd (rt.sshiftRight i.extra.toNat)
  | .srav => toRd (rt.sshiftRight (rs &&& 0x1f).toNat)
  -- `tmp` is an `int` in both logical right shifts, so they shift the sign in as well
  | .srl => toRd (rt.sshiftRight i.extra.toNat)
  | .srlv => toRd (rt.sshiftRight (rs &&& 0x1f).toNat)
  | .sub =>
    let diff := rs - rt
    if sign (rs ^^^ rt) && sign (rs ^^^ diff) then .raise .overflowException 0 else toRd diff
  | .subu => toRd (rs - rt)
  | .sw => .store tmp 4 rt
  | .swl => if tmp &&& 3 ≠ 0 then .stop .assertion else .merge (tmp &&& ~~~3) (swl tmp rt)
  | .swr => if tmp &&& 3 ≠ 0 then .stop .assertion else .merge (tmp &&& ~~~3) (swr tmp rt)
  | .syscall => .raise .syscallException 0
  | .xor => toRd (rs ^^^ rt)
  | .xori => toRt (rs ^^^ (i.extra &&& 0xffff))
  | .res | .unimp => .raise .illegalInstrException 0
  | .rfe => .stop .assertion

/-! ## One instruction -/

def writeRegs (r : Regs) (writes : List (RegNum × Word)) : Regs :=
  writes.foldl (fun r w => update r w.1 w.2) r

/-- The end of a successful instruction: the delayed load, then the program counters. -/
def retire (r : Regs) (nextLoadReg nextLoadValue pcAfter : Word) : Regs :=
  let r := delayedLoad r nextLoadReg nextLoadValue
  let r := update r prevPCReg (r pcReg)
  let r := update r pcReg (r nextPCReg)
  update r nextPCReg pcAfter

variable (bigEndian : Bool)

/-- Carry out an instruction's effect. -/
def Machine.perform (m : Machine) (e : Effect) : Outcome Unit :=
  let pcAfter := m.registers nextPCReg + 4
  match e with
  | .regs writes pcAfter => .done () { m with registers := retire (writeRegs m.registers writes) 0 0 pcAfter }
  | .load addr size rt f => (m.readMem bigEndian addr size).bind fun value m =>
      .done () { m with registers := retire m.registers (BitVec.ofNat 32 rt) (f value) pcAfter }
  | .store addr size value => (m.writeMem bigEndian addr size value).bind fun _ m =>
      .done () { m with registers := retire m.registers 0 0 pcAfter }
  | .merge addr f => (m.readMem bigEndian addr 4).bind fun value m =>
      (m.writeMem bigEndian addr 4 (f value)).bind fun _ m =>
        .done () { m with registers := retire m.registers 0 0 pcAfter }
  | .raise which badVAddr => .raised which (m.raiseException badVAddr)
  | .stop why => .stop why

/-- `Machine::OneInstruction`, up to the call of `ExceptionHandler` if it traps. -/
def Machine.oneInstruction (m : Machine) : Outcome Unit :=
  (m.readMem bigEndian (m.registers pcReg) 4).bind fun raw m =>
    m.perform bigEndian (effect (.decode raw) m.registers)

end Nachos

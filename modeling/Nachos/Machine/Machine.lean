/-
  Nachos.Machine.Machine — `machine/machine.h`, `machine/machine.cc` and
  `machine/translate.h`: the simulated CPU's registers, main memory and translation
  entries.

  A C `int` register is a 32-bit word. `registers` is the 40-entry array of the source;
  an index past it would write outside the array, and `delayedLoad` leaves the array alone
  then.
-/

import Mathlib.Algebra.GroupWithZero.Nat
import Mathlib.Logic.Function.Basic

namespace Nachos

abbrev Word := BitVec 32
abbrev Byte := BitVec 8

theorem ofNat_toNat {n : Nat} (h : n < 4294967296) : (BitVec.ofNat 32 n).toNat = n := by
  rw [BitVec.toNat_ofNat]
  exact Nat.mod_eq_of_lt h

theorem ofNat_word (w : Word) : BitVec.ofNat 32 w.toNat = w := by
  rw [BitVec.ofNat_toNat, BitVec.setWidth_eq]

theorem toInt_toNat {w : Word} (h : w.toNat < 2147483648) : w.toInt = w.toNat := by
  rw [BitVec.toInt_eq_toNat_cond, if_pos (by omega)]

theorem ofNat_toInt {n : Nat} (h : n < 2147483648) : (BitVec.ofNat 32 n).toInt = n := by
  have hto : (BitVec.ofNat 32 n).toNat = n := ofNat_toNat (by omega)
  rw [toInt_toNat (by omega), hto]

/-- `machine->mainMemory`; only the indices below `memorySize` are the array's. -/
abbrev Memory := Nat → Byte

abbrev pageSize : Nat := 512
abbrev numPhysPages : Nat := 128
abbrev memorySize : Nat := numPhysPages * pageSize
abbrev tlbSize : Nat := 4

inductive ExceptionType where
  | noException
  | syscallException
  | pageFaultException
  | readOnlyException
  | busErrorException
  | addressErrorException
  | overflowException
  | illegalInstrException
  | numExceptionTypes
  deriving DecidableEq, Repr

/-! ## Registers -/

abbrev numGPRegs : Nat := 32
abbrev numTotalRegs : Nat := 40

abbrev RegNum := Fin numTotalRegs

instance : NeZero numGPRegs := ⟨by decide⟩

instance : NeZero numTotalRegs := ⟨by decide⟩
abbrev Regs := RegNum → Word

def stackReg : RegNum := 29
def retAddrReg : RegNum := 31
def hiReg : RegNum := 32
def loReg : RegNum := 33
def pcReg : RegNum := 34
def nextPCReg : RegNum := 35
def prevPCReg : RegNum := 36
def loadReg : RegNum := 37
def loadValueReg : RegNum := 38
def badVAddrReg : RegNum := 39

/-- A register field of an instruction, as an index in `registers`. -/
def gp (r : Fin numGPRegs) : RegNum := r.castLE (by decide)

@[simp] theorem gp_val (r : Fin numGPRegs) : (gp r).val = r.val := rfl

/-- `registers[num] = value` for an index taken from a register. -/
def setReg (r : Regs) (num value : Word) : Regs :=
  if h : num.toNat < numTotalRegs then Function.update r ⟨num.toNat, h⟩ value else r

/-- `Machine::DelayedLoad`. -/
def delayedLoad (r : Regs) (nextReg nextValue : Word) : Regs :=
  let r := setReg r (r loadReg) (r loadValueReg)
  let r := Function.update r loadReg nextReg
  let r := Function.update r loadValueReg nextValue
  Function.update r 0 0

/-- The pending load lands: what a trap or an interrupt does to the registers. -/
def landed (r : Regs) : Regs := delayedLoad r 0 0

theorem delayedLoad_apply (r : Regs) (n v : Word) (x : RegNum) :
    delayedLoad r n v x =
      if x = 0 then 0 else if x = loadValueReg then v else if x = loadReg then n
      else if x.val = (r loadReg).toNat then r loadValueReg else r x := by
  simp only [delayedLoad, setReg, Function.update_apply]
  split
  · rfl
  split
  · rfl
  split
  · rfl
  split
  · rename_i h
    simp only [Function.update_apply, Fin.ext_iff]
  · rename_i h
    have : x.val ≠ (r loadReg).toNat := by omega
    simp [this]

/-! ## Translation entries and the machine -/

structure TranslationEntry where
  virtualPage : Int
  physicalPage : Int
  valid : Bool
  readOnly : Bool
  use : Bool
  dirty : Bool
  deriving DecidableEq, Repr

structure Machine where
  registers : Regs
  mainMemory : Memory
  /-- `none` is NULL. -/
  tlb : Option (List TranslationEntry)
  pageTable : Option (List TranslationEntry)
  pageTableSize : Nat

/-- Why the simulator itself stops: a failed ASSERT, or undefined behaviour of the host. -/
inductive Stop where
  | assertion
  | undefined
  deriving DecidableEq, Repr

/-- The result of an operation of the machine: it completes, or it traps and
    `ExceptionHandler(which)` is entered with the machine as given, or the simulator stops. -/
inductive Outcome (α : Type) where
  | done (a : α) (m : Machine)
  | raised (which : ExceptionType) (m : Machine)
  | stop (why : Stop)

def Outcome.bind {α β : Type} (x : Outcome α) (f : α → Machine → Outcome β) : Outcome β :=
  match x with
  | .done a m => f a m
  | .raised which m => .raised which m
  | .stop why => .stop why

/-- `Machine::RaiseException`, up to the call of `ExceptionHandler`. -/
def Machine.raiseException (m : Machine) (badVAddr : Word) : Machine :=
  { m with registers := landed (Function.update m.registers badVAddrReg badVAddr) }

end Nachos

/-
  Nachos.Machine.Translate — `machine/translate.cc`: virtual to physical addresses, and
  the 1, 2 and 4 byte accesses to main memory.

  `bigEndian` is HOST_IS_BIG_ENDIAN: a host `short` or `int` in main memory is read and
  written in the host's byte order and then converted to or from the simulated machine's
  little-endian one.
-/

import Nachos.Machine.Machine

namespace Nachos

/-- `(unsigned) entry->physicalPage`. -/
def TranslationEntry.frame (e : TranslationEntry) : Nat := (BitVec.ofInt 32 e.physicalPage).toNat

/-- What the lookup of `Machine::Translate` finds: where the entry is, or why it fails. -/
inductive Lookup where
  | found (vpn : Nat) (e : TranslationEntry)
  | fails (which : ExceptionType)
  | stop (why : Stop)

variable (m : Machine)

/-- The page table's entry, or the TLB's, for a virtual page. -/
def Machine.lookup (vpn : Nat) : Lookup :=
  match m.tlb, m.pageTable with
  | some _, some _ => .stop .assertion
  | none, none => .stop .assertion
  | none, some table =>
    if m.pageTableSize ≤ vpn then .fails .addressErrorException
    else match table[vpn]? with
      | none => .stop .undefined
      | some e => if e.valid then .found vpn e else .fails .pageFaultException
  | some tlb, none =>
    match (List.range tlbSize).find? fun i =>
        (tlb[i]?).any fun e => e.valid && BitVec.ofInt 32 e.virtualPage == BitVec.ofNat 32 vpn with
    | none => .fails .pageFaultException
    | some i => match tlb[i]? with
      | some e => .found i e
      | none => .stop .undefined

/-- Set the use bit, and the dirty bit of a write, in the entry that was found. -/
def Machine.touch (i : Nat) (writing : Bool) : Machine :=
  let f := fun (e : TranslationEntry) => { e with use := true, dirty := e.dirty || writing }
  { m with tlb := m.tlb.map (·.modify i f), pageTable := m.pageTable.map (·.modify i f) }

/-- The result of `Machine::Translate`: the physical address and the machine with the
    entry's use and dirty bits set, an exception code, or a failed ASSERT. -/
inductive Translated where
  | ok (physAddr : Nat) (m : Machine)
  | exception (which : ExceptionType)
  | stop (why : Stop)

/-- `Machine::Translate`. -/
def Machine.translate (virtAddr : Word) (size : Nat) (writing : Bool) : Translated :=
  if (size = 4 ∧ virtAddr &&& 3 ≠ 0) ∨ (size = 2 ∧ virtAddr &&& 1 ≠ 0) then .exception .addressErrorException
  else
    match m.lookup (virtAddr.toNat / pageSize) with
    | .stop why => .stop why
    | .fails which => .exception which
    | .found i e =>
      if e.readOnly && writing then .exception .readOnlyException
      else if e.frame ≥ numPhysPages then .exception .busErrorException
      else
        let physAddr := e.frame * pageSize + virtAddr.toNat % pageSize
        if physAddr + size ≤ memorySize then .ok physAddr (m.touch i writing) else .stop .assertion

variable (bigEndian : Bool) {size pa : Nat} {m m' : Machine} {va : Word} {writing : Bool}

def wordToHost (word : Word) : Word :=
  if bigEndian then
    ((word >>> 24) &&& 0x000000ff) ||| ((word >>> 8) &&& 0x0000ff00) |||
      ((word <<< 8) &&& 0x00ff0000) ||| ((word <<< 24) &&& 0xff000000)
  else word

def shortToHost (shortword : BitVec 16) : BitVec 16 :=
  if bigEndian then ((shortword <<< 8) &&& 0xff00) ||| ((shortword >>> 8) &&& 0x00ff) else shortword

def wordToMachine (word : Word) : Word := wordToHost bigEndian word
def shortToMachine (shortword : BitVec 16) : BitVec 16 := shortToHost bigEndian shortword

/-- `*(unsigned short *) &mainMemory[a]`, in the host's byte order. -/
def hostShort (mem : Memory) (a : Nat) : BitVec 16 :=
  if bigEndian then mem a ++ mem (a + 1) else mem (a + 1) ++ mem a

/-- `*(unsigned int *) &mainMemory[a]`, in the host's byte order. -/
def hostWord (mem : Memory) (a : Nat) : Word :=
  if bigEndian then mem a ++ mem (a + 1) ++ mem (a + 2) ++ mem (a + 3)
  else mem (a + 3) ++ mem (a + 2) ++ mem (a + 1) ++ mem a

/-- Byte `k` of a host `short` or `int` of `size` bytes. -/
def hostByte (size : Nat) (v : Word) (k : Nat) : Byte :=
  (v >>> (8 * if bigEndian then size - 1 - k else k)).setWidth 8

theorem hostByte_eq {bigEndian : Bool} (v : Word) (k : Nat) :
    hostByte bigEndian size v k = v.extractLsb' (8 * if bigEndian then size - 1 - k else k) 8 := by
  apply BitVec.eq_of_toNat_eq
  simp only [hostByte, BitVec.toNat_setWidth, BitVec.toNat_ushiftRight, BitVec.extractLsb'_toNat]

/-- Store `size` bytes of `v` at `a`, in the host's byte order. -/
def storeHost (mem : Memory) (a size : Nat) (v : Word) : Memory := fun x =>
  if a ≤ x ∧ x < a + size then hostByte bigEndian size v (x - a) else mem x

/-- The value `Machine::ReadMem` finds at a physical address; a size other than 1, 2 and
    4 fails its ASSERT. -/
def readPhys (mem : Memory) (physicalAddress : Nat) : Nat → Option Word
  | 1 => some ((mem physicalAddress).signExtend 32)
  | 2 => some ((shortToHost bigEndian (hostShort bigEndian mem physicalAddress)).setWidth 32)
  | 4 => some (wordToHost bigEndian (hostWord bigEndian mem physicalAddress))
  | _ => none

/-- What `Machine::WriteMem` leaves in main memory. -/
def writePhys (mem : Memory) (physicalAddress : Nat) (value : Word) : Nat → Option Memory
  | 1 => some (Function.update mem physicalAddress ((value &&& 0xff).setWidth 8))
  | 2 => some (storeHost bigEndian mem physicalAddress 2
      ((shortToMachine bigEndian ((value &&& 0xffff).setWidth 16)).setWidth 32))
  | 4 => some (storeHost bigEndian mem physicalAddress 4 (wordToMachine bigEndian value))
  | _ => none

/-- `Machine::ReadMem`. -/
def Machine.readMem (m : Machine) (addr : Word) (size : Nat) : Outcome Word :=
  match m.translate addr size false with
  | .exception which => .raised which (m.raiseException addr)
  | .stop why => .stop why
  | .ok physicalAddress m =>
    match readPhys bigEndian m.mainMemory physicalAddress size with
    | some value => .done value m
    | none => .stop .assertion

/-- `Machine::WriteMem`. -/
def Machine.writeMem (m : Machine) (addr : Word) (size : Nat) (value : Word) : Outcome Unit :=
  match m.translate addr size true with
  | .exception which => .raised which (m.raiseException addr)
  | .stop why => .stop why
  | .ok physicalAddress m =>
    match writePhys bigEndian m.mainMemory physicalAddress value size with
    | some mem => .done () { m with mainMemory := mem }
    | none => .stop .assertion

/-- A translation that succeeds has marked an entry, and changed nothing else. -/
theorem translate_touch (h : m.translate va size writing = .ok pa m') : ∃ i, m' = m.touch i writing := by
  unfold Machine.translate at h
  split at h
  · cases h
  split at h
  · cases h
  · cases h
  · rename_i i e _
    split at h
    · cases h
    split at h
    · cases h
    dsimp only at h
    split at h
    · cases h
      exact ⟨i, rfl⟩
    · cases h

theorem translate_registers (h : m.translate va size writing = .ok pa m') : m'.registers = m.registers := by
  obtain ⟨i, rfl⟩ := translate_touch h
  rfl

end Nachos

/-
  Nachos.Userprog.AddrSpace — `userprog/addrspace.cc`: the two constructors, the
  destructor, and the register set a program starts with.

  A constructor is a function of the page bitmap, the executable and the memory it finds
  uninitialised: `junk`, what `new AddrSpace` returns, and `stack`, what the local header
  holds before the read. It answers a `Built`: the object, the bitmap, the bytes stored in
  main memory in the order they are stored (an index is relative to `mainMemory`, so one
  outside `[0, memorySize)` is a store outside the array), the message it prints on
  failure, and how it ends. No thread switch lies between `NumClear` and the last `Find`.

  - `destroy_eq`: the destructor clears exactly the frames of entries 0..numPages-1.
-/

import Mathlib.Algebra.Group.Int.Defs
import Nachos.Machine.Translate
import Nachos.Userprog.BitMap

namespace Nachos

open List

/-! ## The executable -/

/-- An open file of the host, as the stub file system's `OpenFile` reads it. -/
structure OpenFile where
  content : List Byte
  /-- A 32-bit host opens no larger file. -/
  short : content.length < 2 ^ 31

/-- `OpenFile::ReadAt` of the stub: `none` is a failed ASSERT of `Lseek`; the bytes are
    those `read` delivers, fewer than asked for at the end of the file. -/
def OpenFile.readAt (f : OpenFile) (numBytes : Nat) (position : Word) : Option (List Byte) :=
  if position.slt 0 then none else some ((f.content.drop position.toNat).take numBytes)

structure Segment where
  virtualAddr : Word
  inFileAddr : Word
  size : Word
  deriving DecidableEq, Repr

structure NoffHeader where
  noffMagic : Word
  code : Segment
  initData : Segment
  uninitData : Segment
  deriving DecidableEq, Repr

def noffMagic : Word := 0xbadfad
abbrev sizeofNoffHeader : Nat := 40
abbrev userStackSize : Nat := 1024

def Segment.swap (bigEndian : Bool) (s : Segment) : Segment :=
  ⟨wordToHost bigEndian s.virtualAddr, wordToHost bigEndian s.inFileAddr, wordToHost bigEndian s.size⟩

/-- `SwapHeader`. -/
def NoffHeader.swap (bigEndian : Bool) (h : NoffHeader) : NoffHeader :=
  ⟨wordToHost bigEndian h.noffMagic, h.code.swap bigEndian, h.initData.swap bigEndian, h.uninitData.swap bigEndian⟩

/-- The ten words of a header in memory. -/
def NoffHeader.ofBytes (bigEndian : Bool) (bytes : Memory) : NoffHeader :=
  let word := fun k => hostWord bigEndian bytes (4 * k)
  ⟨word 0, ⟨word 1, word 2, word 3⟩, ⟨word 4, word 5, word 6⟩, ⟨word 7, word 8, word 9⟩⟩

/-- The header the constructors work with: the file's first 40 bytes over `stack`,
    swapped if that makes the magic number right. -/
def readHeader (bigEndian : Bool) (f : OpenFile) (stack : Memory) : NoffHeader :=
  let h := NoffHeader.ofBytes bigEndian fun k => ((f.content.take sizeofNoffHeader)[k]?).getD (stack k)
  if h.noffMagic ≠ noffMagic ∧ wordToHost bigEndian h.noffMagic = noffMagic then h.swap bigEndian else h

/-- The `unsigned int` size of the address space. -/
def NoffHeader.size (h : NoffHeader) : Word :=
  h.code.size + h.initData.size + h.uninitData.size + BitVec.ofNat 32 userStackSize

def NoffHeader.numPages (h : NoffHeader) : Nat := divRoundUp h.size.toNat pageSize

/-! ## The constructors -/

/-- `gPhysPageBitMap`, as `Initialize` of system.cc creates it. -/
def gPhysPageBitMap (garbage : Nat → BitVec 32) : BitMap := .new 256 garbage

structure AddrSpace where
  pageTable : List TranslationEntry
  numPages : Nat
  deriving DecidableEq, Repr

/-- How the constructors set up the entry of page `i`. -/
def freshEntry (i : Nat) (physicalPage : Int) : TranslationEntry :=
  { virtualPage := i, physicalPage, valid := true, readOnly := false, use := false, dirty := false }

/-- The translation set-up loop, from page `i` on. -/
def allocate (i : Nat) : Nat → BitMap → List TranslationEntry × BitMap
  | 0, bm => ([], bm)
  | n + 1, bm =>
    let (physicalPage, bm) := bm.find
    let (rest, bm) := allocate (i + 1) n bm
    (freshEntry i physicalPage :: rest, bm)

/-- Where in the file the copy loop reads page `i`. -/
def Segment.position (seg : Segment) (i : Nat) : Word := seg.inFileAddr + BitVec.ofNat 32 (i * pageSize)

/-- The stores of one `ReadAt` into `mainMemory + virtualAddr + physicalPage * PageSize`. -/
def placed (seg : Segment) (e : TranslationEntry) (bytes : List Byte) : List (Int × Byte) :=
  bytes.mapIdx fun k b => (seg.virtualAddr.toInt + e.physicalPage * pageSize + k, b)

/-- A segment's copy loop, from page `i` on: the stores, and whether every `Lseek` passed
    its ASSERT. -/
def copyPages (f : OpenFile) (seg : Segment) (i : Nat) : List TranslationEntry → List (Int × Byte) × Bool
  | [] => ([], true)
  | e :: es =>
    match f.readAt pageSize (seg.position i) with
    | none => ([], false)
    | some bytes =>
      let rest := copyPages f seg (i + 1) es
      (placed seg e bytes ++ rest.1, rest.2)

def copySegment (f : OpenFile) (seg : Segment) (table : List TranslationEntry) : List (Int × Byte) × Bool :=
  if BitVec.slt 0 seg.size then copyPages f seg 0 table else ([], true)

/-- The two copy loops at the end of both constructors. -/
def copyProgram (f : OpenFile) (h : NoffHeader) (table : List TranslationEntry) : List (Int × Byte) × Bool :=
  let code := copySegment f h.code table
  if code.2 then
    let initData := copySegment f h.initData table
    (code.1 ++ initData.1, initData.2)
  else code

/-- How a constructor ends. `closedTwice`: it deleted `executable` a second time, which
    closes a descriptor that is already closed and fails the ASSERT of `Close`, unless the
    host has given the number to another file meanwhile. -/
inductive Ending where
  | returned
  | assertFails
  | closedTwice
  deriving DecidableEq, Repr

structure Built where
  space : AddrSpace
  bitmap : BitMap
  stores : List (Int × Byte)
  /-- The failure message, if one is printed. -/
  report : Option String
  ending : Ending
  /-- Calls of `addrLock->V` less calls of `addrLock->P`. -/
  addrLock : Int
  /-- How often `executable` is deleted. -/
  closes : Nat

variable (bigEndian : Bool) (junk : AddrSpace) (stack : Memory) (bm : BitMap) {n i : Nat}

/-- `AddrSpace::AddrSpace(OpenFile *executable)`. -/
def AddrSpace.ofOpenFile (executable : Option OpenFile) : Built :=
  let unchanged : Built :=
    { space := junk, bitmap := bm, stores := [], report := none, ending := .assertFails, addrLock := 0, closes := 0 }
  match executable with
  | none => { unchanged with report := some "\n\nAddrspace:: Error opening file", ending := .returned }
  | some f =>
    let h := readHeader bigEndian f stack
    if h.noffMagic ≠ noffMagic then unchanged
    else if numPhysPages < h.numPages then
      { unchanged with space := { junk with numPages := h.numPages }, addrLock := -1 }
    else if bm.numClear < h.numPages then
      { unchanged with
        space := { junk with numPages := 0 }, report := some "\n\n Not enough memory for new process.",
        ending := .returned, closes := 1 }
    else
      let (pageTable, bitmap) := allocate 0 h.numPages bm
      let (stores, ok) := copyProgram f h pageTable
      { unchanged with
        space := { pageTable, numPages := h.numPages }, bitmap, stores,
        ending := if ok then .returned else .assertFails }

/-- `AddrSpace::AddrSpace(char* filename)`; `executable` is what `fileSystem->Open` gives. -/
def AddrSpace.ofFilename (executable : Option OpenFile) : Built :=
  let unchanged : Built :=
    { space := junk, bitmap := bm, stores := [], report := none, ending := .assertFails, addrLock := 0, closes := 0 }
  match executable with
  | none => { unchanged with report := some "\n\nCannot open file", ending := .returned }
  | some f =>
    let h := readHeader bigEndian f stack
    if h.noffMagic ≠ noffMagic then unchanged
    else if bm.numClear < h.numPages then
      -- no return: an empty page table, a second V and a second delete follow
      { unchanged with
        space := { pageTable := [], numPages := 0 },
        report := some "\nAddrSpace::Load : not enough memory for new process",
        ending := .closedTwice, addrLock := 1, closes := 2 }
    else
      let (pageTable, bitmap) := allocate 0 h.numPages bm
      let (stores, ok) := copyProgram f h pageTable
      { unchanged with
        space := { pageTable, numPages := h.numPages }, bitmap, stores,
        ending := if ok then .returned else .assertFails, closes := if ok then 1 else 0 }

/-- The two constructors, by their argument. -/
inductive Ctor where
  | ofOpenFile
  | ofFilename
  deriving DecidableEq, Repr

def AddrSpace.construct (c : Ctor) (executable : Option OpenFile) : Built :=
  match c with
  | .ofOpenFile => ofOpenFile bigEndian junk stack bm executable
  | .ofFilename => ofFilename bigEndian junk stack bm executable

/-! ## The destructor and the start of a program -/

/-- The `physicalPage` values of entries 0..numPages-1. -/
def AddrSpace.frames (s : AddrSpace) : List Int := (s.pageTable.take s.numPages).map (·.physicalPage)

/-- `gPhysPageBitMap->Clear(physicalPage)`. -/
def clearFrame (bm : BitMap) (physicalPage : Int) : Except Stop BitMap :=
  match bm.clear physicalPage with
  | some bm => .ok bm
  | none => .error .assertion

/-- `AddrSpace::~AddrSpace`. -/
def AddrSpace.destroy (s : AddrSpace) (bm : BitMap) : Except Stop BitMap :=
  if s.pageTable.length < s.numPages then .error .undefined else s.frames.foldlM clearFrame bm

/-- `AddrSpace::InitRegisters`. -/
def AddrSpace.initRegisters (s : AddrSpace) : Regs :=
  let r : Regs := fun _ => 0
  let r := Function.update r pcReg 0
  let r := Function.update r nextPCReg 4
  Function.update r stackReg (BitVec.ofNat 32 (s.numPages * pageSize) - 16)

/-! ## Frames taken and given back -/

/-- With enough clear bits, the loop takes the first `n` of them and marks them. -/
theorem allocate_eq (n : Nat) : ∀ (i : Nat) (bm : BitMap), n ≤ bm.clearBits.length →
    (allocate i n bm).1 = (bm.clearBits.take n).mapIdx (fun k (p : Nat) => freshEntry (i + k) p) ∧
    (allocate i n bm).2.numBits = bm.numBits ∧
    ∀ j, (allocate i n bm).2.bit j = (bm.bit j || (bm.clearBits.take n).contains j) := by
  induction n with
  | zero => intro i bm _; simp [allocate]
  | succ n ih =>
    intro i bm hn
    obtain ⟨p, r, hc⟩ : ∃ p r, bm.clearBits = p :: r := by
      cases h : bm.clearBits with
      | nil => rw [h] at hn; simp at hn
      | cons p r => exact ⟨p, r, rfl⟩
    have hp : p < bm.numBits := ((bm.mem_clearBits p).mp (hc ▸ mem_cons_self)).1
    have hr := bm.clearBits_markBit hc
    obtain ⟨h1, h2, h3⟩ := ih (i + 1) (bm.markBit p) (by rw [hr]; rw [hc] at hn; simpa using hn)
    rw [hr] at h1 h3
    simp only [allocate, bm.find_cons hc]
    refine ⟨?_, h2, fun j => ?_⟩
    · rw [h1, hc]
      simp [mapIdx_cons, Nat.add_assoc, Nat.add_comm 1]
    rw [h3, bm.bit_markBit hp, hc]
    by_cases e : p = j
    · simp [e]
    · simp [e, Ne.symm e]

theorem allocate_length {bm : BitMap} (h : n ≤ bm.clearBits.length) : (allocate i n bm).1.length = n := by
  rw [(allocate_eq n i bm h).1, length_mapIdx, List.length_take]
  omega

theorem allocate_physicalPage {bm : BitMap} (h : n ≤ bm.clearBits.length) :
    (allocate i n bm).1.map (·.physicalPage) = (bm.clearBits.take n).map Int.ofNat := by
  rw [(allocate_eq n i bm h).1]
  exact ext_getElem (by simp) fun k _ _ => by simp [freshEntry]

theorem frames_allocate {bm : BitMap} (h : n ≤ bm.clearBits.length) :
    AddrSpace.frames { pageTable := (allocate i n bm).1, numPages := n } = (bm.clearBits.take n).map Int.ofNat := by
  show ((allocate i n bm).1.take n).map _ = _
  rw [take_of_length_le (Nat.le_of_eq (allocate_length h)), allocate_physicalPage h]

/-- The destructor's loop clears the frames it is given and no other. -/
theorem foldlM_clearFrame (l : List Int) : ∀ (bm : BitMap), (∀ p ∈ l, bm.inRange p) →
    ∃ bm', l.foldlM clearFrame bm = .ok bm' ∧ bm'.numBits = bm.numBits ∧
      ∀ j : Nat, bm'.bit j = (bm.bit j && !l.contains (j : Int)) := by
  induction l with
  | nil => intro bm _; exact ⟨bm, rfl, rfl, fun j => by simp⟩
  | cons p l ih =>
    intro bm h
    have hp := h p mem_cons_self
    obtain ⟨h0, h1⟩ : 0 ≤ p ∧ p < bm.numBits := by simpa [BitMap.inRange] using hp
    obtain ⟨bm', e, hn, hb⟩ := ih (bm.clearBit p.toNat) fun q hq => h q (mem_cons_of_mem _ hq)
    refine ⟨bm', ?_, hn, fun j => ?_⟩
    · have hc : clearFrame bm p = .ok (bm.clearBit p.toNat) := by simp [clearFrame, BitMap.clear, hp]
      rw [foldlM_cons, hc]
      exact e
    · rw [hb, bm.bit_clearBit (by omega)]
      by_cases e : p.toNat = j
      · have : p = (j : Int) := by omega
        simp [this]
      · have : (j : Int) ≠ p := by omega
        simp [e, this]

theorem destroy_eq {s : AddrSpace} {bm : BitMap} (hn : s.numPages ≤ s.pageTable.length)
    (h : ∀ p ∈ s.frames, bm.inRange p) :
    ∃ bm', s.destroy bm = .ok bm' ∧ bm'.numBits = bm.numBits ∧
      ∀ j : Nat, bm'.bit j = (bm.bit j && !s.frames.contains (j : Int)) := by
  unfold AddrSpace.destroy
  rw [if_neg (by omega)]
  exact foldlM_clearFrame s.frames bm h

end Nachos

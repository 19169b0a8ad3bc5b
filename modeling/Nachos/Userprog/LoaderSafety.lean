/-
  Nachos.Userprog.LoaderSafety — which executables and bitmaps the loader is safe on.

  Nothing is assumed of the file: any header, any length, or none that could be opened.
  - `frames_past_memory`: the page bitmap has 256 bits for 128 frames, so next to a program
    that fills main memory even a one-instruction program is given frames that do not exist.
-/

import Nachos.Userprog.Loading
import Nachos.Userprog.Slots

namespace Nachos

open AddrSpace (construct ofFilename ofOpenFile)

variable (bigEndian : Bool) (junk : AddrSpace) (stack : Memory)

/-- The sum of the segment sizes and the stack, as an integer. -/
def NoffHeader.exactSize (h : NoffHeader) : Int :=
  h.code.size.toInt + h.initData.size.toInt + h.uninitData.size.toInt + userStackSize

/-- What a safe construction is. -/
def LoaderSafe (c : Ctor) (bm : BitMap) (executable : Option OpenFile) : Prop :=
  let b := construct bigEndian junk stack bm c executable
  b.ending = .returned ∧
    (b.report.isSome ∨ ∃ f, executable = some f ∧
      (∀ p ∈ b.space.frames, 0 ≤ p ∧ p < numPhysPages) ∧
      (readHeader bigEndian f stack).exactSize ≤ b.space.numPages * pageSize ∧
      ∀ s ∈ b.stores, 0 ≤ s.1 ∧ s.1 < memorySize)

/-! ## When it is -/

/-- What a load into these frames needs. -/
structure Fits (f : OpenFile) (h : NoffHeader) (frames : List Nat) : Prop where
  low : ∀ fr ∈ frames, fr < numPhysPages
  size : h.exactSize < 2 ^ 32
  codeSeeks : h.code.SeeksOk frames.length
  dataSeeks : h.initData.SeeksOk frames.length
  codeStores : h.code.StoresInMemory f frames
  dataStores : h.initData.StoresInMemory f frames

/-- What a constructor needs of the executable and the bitmap. -/
def LoadOk (c : Ctor) (bm : BitMap) : Option OpenFile → Prop
  | none => True
  | some f =>
    let h := readHeader bigEndian f stack
    h.noffMagic = noffMagic ∧
      match c with
      -- too few frames: a message and a return, if the program could fit at all
      | .ofOpenFile => h.numPages ≤ numPhysPages ∧ (bm.numClear < h.numPages ∨ Fits f h (bm.clearBits.take h.numPages))
      -- too few frames: the executable is closed twice
      | .ofFilename => h.numPages ≤ bm.numClear ∧ Fits f h (bm.clearBits.take h.numPages)

/-- The pages cover the exact size unless the 32-bit sum wraps. -/
theorem exactSize_le (h : NoffHeader) : h.exactSize ≤ h.numPages * pageSize ↔ h.exactSize < 2 ^ 32 := by
  have hs : h.size.toNat = (h.code.size.toNat + h.initData.size.toNat + h.uninitData.size.toNat + 1024) % 2 ^ 32 := by
    simp only [NoffHeader.size, BitVec.toNat_add, BitVec.toNat_ofNat]
    unfold userStackSize
    omega
  have hp : h.size.toNat ≤ h.numPages * pageSize ∧ h.numPages * pageSize < h.size.toNat + pageSize := by
    unfold NoffHeader.numPages divRoundUp pageSize
    split <;> omega
  unfold NoffHeader.exactSize userStackSize
  simp only [BitVec.toInt_eq_toNat_cond]
  unfold pageSize at hp ⊢
  split <;> split <;> split <;> omega

/-- A constructor that finds its magic number and enough clear bits is safe exactly when
    the program fits. -/
theorem safe_iff_fits {c : Ctor} {bm : BitMap} {f : OpenFile} {h : NoffHeader} (hh : readHeader bigEndian f stack = h)
    (hm : h.noffMagic = noffMagic) (hmx : c = .ofOpenFile → h.numPages ≤ numPhysPages) (hn : h.numPages ≤ bm.numClear) :
    LoaderSafe bigEndian junk stack c bm (some f) ↔ Fits f h (bm.clearBits.take h.numPages) := by
  rw [BitMap.numClear_eq] at hn
  obtain ⟨hsp, -, hr, hstr, he⟩ := construct_eq bigEndian junk stack c bm hh hm hmx hn
  unfold LoaderSafe
  simp only [hh, hsp, hr, hstr, he, Option.isSome_none, Bool.false_eq_true, false_or, Option.some.injEq,
    exists_eq_left', frames_allocate hn, exactSize_le]
  have hl : (bm.clearBits.take h.numPages).length = h.numPages := by rw [List.length_take]; omega
  have hlw : (∀ p ∈ (bm.clearBits.take h.numPages).map Int.ofNat, 0 ≤ p ∧ p < (numPhysPages : Int)) ↔
      ∀ fr ∈ bm.clearBits.take h.numPages, fr < numPhysPages := by
    constructor
    · intro hp fr hfr
      exact Int.ofNat_lt.mp (hp _ (List.mem_map_of_mem hfr)).2
    · intro hfr p hp
      obtain ⟨fr, hmm, rfl⟩ := List.mem_map.mp hp
      exact ⟨Int.natCast_nonneg fr, Int.ofNat_lt.mpr (hfr fr hmm)⟩
  rw [ending_returned hn, hlw]
  constructor
  · intro h'
    obtain ⟨hs, hfr, hsz, hst⟩ := h'
    have hst := (copyProgram_inMemory hn hs).mp hst
    exact ⟨hfr, hsz, by rw [hl]; exact hs.1, by rw [hl]; exact hs.2, hst.1, hst.2⟩
  · intro hf
    have hs : h.code.SeeksOk h.numPages ∧ h.initData.SeeksOk h.numPages := by
      rw [← hl]; exact ⟨hf.codeSeeks, hf.dataSeeks⟩
    exact ⟨hs, hf.low, hf.size, (copyProgram_inMemory hn hs).mpr ⟨hf.codeStores, hf.dataStores⟩⟩

/-- For every file and every bitmap, a constructor is safe exactly when `LoadOk` holds. -/
theorem loader_safe_iff (c : Ctor) (bm : BitMap) (executable : Option OpenFile) :
    LoaderSafe bigEndian junk stack c bm executable ↔ LoadOk bigEndian stack c bm executable := by
  cases executable with
  | none => cases c <;> simp [LoaderSafe, LoadOk, construct, ofOpenFile, ofFilename]
  | some f =>
    unfold LoadOk
    dsimp only
    generalize hh : readHeader bigEndian f stack = h
    by_cases hm : h.noffMagic = noffMagic
    · simp only [hm, true_and]
      have hmagic : ¬ h.noffMagic ≠ noffMagic := fun hne => hne hm
      cases c with
      | ofOpenFile =>
        by_cases hmax : numPhysPages < h.numPages
        · simp only [LoaderSafe, construct, ofOpenFile, hh, if_neg hmagic, if_pos hmax,
            reduceCtorEq, false_and, Nat.not_le.mpr hmax]
        by_cases hn : bm.numClear < h.numPages
        · simp only [LoaderSafe, construct, ofOpenFile, hh, if_neg hmagic, if_neg hmax, hn, if_true,
            Option.isSome_some, true_or, and_true, Nat.not_lt.mp hmax]
        · rw [safe_iff_fits bigEndian junk stack hh hm (fun _ => Nat.not_lt.mp hmax) (Nat.not_lt.mp hn)]
          simp only [hn, false_or, Nat.not_lt.mp hmax, true_and]
      | ofFilename =>
        by_cases hn : bm.numClear < h.numPages
        · simp only [LoaderSafe, construct, ofFilename, hh, if_neg hmagic, if_pos hn, reduceCtorEq,
            false_and, Nat.not_le.mpr hn]
        · rw [safe_iff_fits bigEndian junk stack hh hm (fun e => by cases e) (Nat.not_lt.mp hn)]
          simp only [Nat.not_lt.mp hn, true_and]
    · simp only [hm, false_and, iff_false]
      intro hsafe
      cases c <;>
        simp only [LoaderSafe, construct, ofOpenFile, ofFilename, hh, if_pos hm, ne_eq, reduceCtorEq,
          false_and] at hsafe

/-- A program that fills main memory: 64512 bytes of uninitialised data and the stack. -/
def fullHeader : NoffHeader := ⟨noffMagic, .empty, .empty, ⟨0, 0, 64512⟩⟩

def full : OpenFile := { content := fullHeader.bytes, short := by decide }

/-- With the main program in the 128 frames, the next one gets frame 128 and is written
    past main memory. -/
theorem frames_past_memory : ∃ k, Lib.Reach (Kernel.step false) (fun _ _ => True) Kernel.Init k ∧
    (load k.gPhysPageBitMap .ofFilename codeOnly).space.frames = [128, 129, 130] ∧
    (memorySize : Int) ∈ (load k.gPhysPageBitMap .ofFilename codeOnly).stores.map Prod.fst ∧
    ¬ LoaderSafe false { pageTable := [], numPages := 0 } (fun _ => 0) .ofFilename k.gPhysPageBitMap (some codeOnly) := by
  obtain ⟨k, hk, htest⟩ := Lib.exists_reach (Kernel.step false) (fun _ _ => true) (s := Kernel.booted)
    [.start 0 .ofOpenFile (some full) ⟨[], 0⟩ fun _ => 0]
    (fun k =>
      let b := load k.gPhysPageBitMap .ofFilename codeOnly
      b.space.frames == [128, 129, 130] && (b.stores.map Prod.fst).contains (memorySize : Int) && b.report.isNone)
    Kernel.booted_init (by decide +kernel)
  simp only [Bool.and_eq_true, beq_iff_eq, List.contains_iff_mem] at htest
  obtain ⟨⟨hframes, hstore⟩, hreport⟩ := htest
  refine ⟨k, hk.mono fun _ _ _ => trivial, hframes, hstore, ?_⟩
  intro h'
  obtain ⟨-, hrep | ⟨f, -, hlow, -⟩⟩ := h'
  · rw [Option.isNone_iff_eq_none.mp hreport] at hrep; cases hrep
  · have := hlow 128 (by rw [hframes]; decide)
    exact absurd this (by decide)

end Nachos

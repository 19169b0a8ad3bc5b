/-
  Nachos.Userprog.Loading — loading a program: whether the new address space holds it, and
  whom the loading disturbs.

  The file is well formed (`WellFormed`) and enough frames are clear; the frames are the
  first clear ones. Page `i` of the initialised data is copied to `virtualAddr` bytes past
  the start of frame `i`, whatever page the segment is in, and nothing zeroes the
  uninitialised data.
  - `program_loaded_iff`: the program is loaded exactly when the copy loops happen to put the
    right bytes (`CopiesRight`). They do for a program without data (`copiesRight_code_only`),
    and in consecutive frames if nothing is uninitialised and the copy of the data ends in
    main memory (`copiesRight_consecutive`).
  - `others_undisturbed_iff`: nobody is disturbed exactly when every byte of the initialised
    data's copy falls into a new frame.
-/

import Nachos.Machine.Frames
import Nachos.Userprog.Copying

namespace Nachos

open Nachos.Lib List

/-! ## Well-formed files -/

/-- The segment's addresses. -/
def Segment.Contains (seg : Segment) (va : Int) : Prop :=
  seg.virtualAddr.toInt ≤ va ∧ va < seg.virtualAddr.toInt + seg.size.toInt

/-- A segment that is empty, or lies in the first `n` pages. -/
def Segment.Inside (seg : Segment) (n : Nat) : Prop :=
  0 ≤ seg.size.toInt ∧
    (0 < seg.size.toInt → 0 ≤ seg.virtualAddr.toInt ∧ seg.virtualAddr.toInt + seg.size.toInt ≤ n * pageSize)

/-- A segment that is empty, or whose bytes are in the file. -/
def Segment.Present (seg : Segment) (f : OpenFile) : Prop :=
  0 < seg.size.toInt → 0 ≤ seg.inFileAddr.toInt ∧ seg.inFileAddr.toInt + seg.size.toInt ≤ f.content.length

structure WellFormed (f : OpenFile) (h : NoffHeader) : Prop where
  header : sizeofNoffHeader ≤ f.content.length
  magic : h.noffMagic = noffMagic
  codeAddr : h.code.virtualAddr = 0
  codeInside : h.code.Inside h.numPages
  dataInside : h.initData.Inside h.numPages
  bssInside : h.uninitData.Inside h.numPages
  apart : ∀ va, ¬ (h.code.Contains va ∧ h.initData.Contains va) ∧ ¬ (h.code.Contains va ∧ h.uninitData.Contains va) ∧
    ¬ (h.initData.Contains va ∧ h.uninitData.Contains va)
  codePresent : h.code.Present f
  dataPresent : h.initData.Present f

/-- At least `n` frames of the machine are clear. -/
def EnoughFrames (bm : BitMap) (n : Nat) : Prop := n ≤ (bm.clearBits.filter (· < numPhysPages)).length

theorem toNat_of_nonneg {w : Word} (h : 0 ≤ w.toInt) : (w.toNat : Int) = w.toInt ∧ w.toNat < 2 ^ 31 := by
  rw [BitVec.toInt_eq_toNat_cond] at h ⊢
  split at h <;> omega

variable {seg : Segment} {f : OpenFile} {h : NoffHeader} {bm : BitMap}

theorem Segment.Present.position (h : seg.Present f) :
    0 < seg.size.toInt → seg.inFileAddr.toNat < 2 ^ 31 :=
  fun hs => (toNat_of_nonneg (h hs).1).2

/-- The first elements of a sorted list are its smallest. -/
theorem lt_of_mem_take {m : Nat} : ∀ {l : List Nat} {n : Nat}, l.Pairwise (· < ·) →
    n ≤ (l.filter (· < m)).length → ∀ x ∈ l.take n, x < m := by
  intro l
  induction l with
  | nil => intro n _ _ x hx; simp at hx
  | cons a l ih =>
    intro n hs hn x hx
    obtain ⟨ha, hs⟩ := pairwise_cons.mp hs
    by_cases hlt : a < m
    · cases n with
      | zero => simp at hx
      | succ n =>
        rw [filter_cons_of_pos (by simpa using hlt), length_cons] at hn
        rcases mem_cons.mp (take_succ_cons ▸ hx) with rfl | hx
        · exact hlt
        · exact ih hs (by omega) x hx
    · have : (a :: l).filter (· < m) = [] := by
        refine filter_eq_nil_iff.mpr fun y hy => ?_
        rcases mem_cons.mp hy with rfl | hy
        · simpa using hlt
        · have := ha y hy; simp; omega
      rw [this] at hn
      obtain rfl : n = 0 := by simpa using hn
      simp at hx

section
variable {n : Nat}

theorem EnoughFrames.low (h : EnoughFrames bm n) : ∀ fr ∈ bm.clearBits.take n, fr < numPhysPages :=
  lt_of_mem_take bm.clearBits_sorted h

theorem EnoughFrames.clear (h : EnoughFrames bm n) : n ≤ bm.clearBits.length :=
  Nat.le_trans h (length_filter_le ..)

theorem EnoughFrames.length (h : EnoughFrames bm n) : (bm.clearBits.take n).length = n := by
  rw [List.length_take]; exact Nat.min_eq_left h.clear

theorem EnoughFrames.nodup (_ : EnoughFrames bm n) : (bm.clearBits.take n).Nodup :=
  bm.clearBits_nodup.sublist (take_sublist n _)

theorem EnoughFrames.le (h : EnoughFrames bm n) : n ≤ numPhysPages := by
  have := length_le_numPhysPages h.nodup h.low
  rwa [h.length] at this

end

/-! ## The constructors when they succeed -/

variable (bigEndian : Bool) (junk : AddrSpace) (stack : Memory) {frames : List Nat} {va off : Nat}

theorem construct_eq (c : Ctor) (bm : BitMap) (hh : readHeader bigEndian f stack = h) (hm : h.noffMagic = noffMagic)
    (hmx : c = .ofOpenFile → h.numPages ≤ numPhysPages) (hn : h.numPages ≤ bm.clearBits.length) :
    let b := AddrSpace.construct bigEndian junk stack bm c (some f)
    b.space = { pageTable := (allocate 0 h.numPages bm).1, numPages := h.numPages } ∧
      b.bitmap = (allocate 0 h.numPages bm).2 ∧ b.report = none ∧
      b.stores = (copyProgram f h (allocate 0 h.numPages bm).1).1 ∧
      b.ending = if (copyProgram f h (allocate 0 h.numPages bm).1).2 then .returned else .assertFails := by
  have hmg : ¬ h.noffMagic ≠ noffMagic := fun hne => hne hm
  have hc : ¬ bm.numClear < h.numPages := by rw [BitMap.numClear_eq]; omega
  cases c with
  | ofOpenFile =>
    have hs : ¬ numPhysPages < h.numPages := Nat.not_lt.mpr (hmx rfl)
    simp only [AddrSpace.construct, AddrSpace.ofOpenFile, hh, if_neg hmg, if_neg hs, if_neg hc, true_and]
  | ofFilename =>
    simp only [AddrSpace.construct, AddrSpace.ofFilename, hh, if_neg hmg, if_neg hc, true_and]

theorem copyProgram_ok (f : OpenFile) (h : NoffHeader) (table : List TranslationEntry) :
    (copyProgram f h table).2 = true ↔ (copySegment f h.code table).2 = true ∧ (copySegment f h.initData table).2 = true := by
  unfold copyProgram
  dsimp only
  split
  · rename_i hc; simp [hc]
  · rename_i hc; simp [hc]

/-- A loop runs to its end when no position exceeds an `int`. -/
theorem copySegment_runs {n : Nat} (hn : n ≤ bm.clearBits.length) :
    (copySegment f seg (allocate 0 n bm).1).2 = true ↔ seg.SeeksOk n := by
  rw [copySegment_ok, allocate_length hn]

theorem copyProgram_runs (hn : h.numPages ≤ bm.clearBits.length) :
    (copyProgram f h (allocate 0 h.numPages bm).1).2 = true ↔
      h.code.SeeksOk h.numPages ∧ h.initData.SeeksOk h.numPages := by
  rw [copyProgram_ok, copySegment_runs hn, copySegment_runs hn]

theorem ending_returned (hn : h.numPages ≤ bm.clearBits.length) :
    (if (copyProgram f h (allocate 0 h.numPages bm).1).2 then Ending.returned else .assertFails) = .returned ↔
      h.code.SeeksOk h.numPages ∧ h.initData.SeeksOk h.numPages := by
  rw [← copyProgram_runs (f := f) hn]
  split <;> simp_all

variable {table : List TranslationEntry}

theorem copyProgram_stores (hc : (copySegment f h.code table).2 = true) :
    (copyProgram f h table).1 = (copySegment f h.code table).1 ++ (copySegment f h.initData table).1 := by
  simp [copyProgram, hc]

/-! ## Main memory -/

/-- The stores are in main memory. -/
abbrev InMemory (stores : List (Int × Byte)) : Prop := ∀ s ∈ stores, 0 ≤ s.1 ∧ s.1 < memorySize

/-- Every byte the file has for the copy loop of `seg` goes into main memory. -/
def Segment.StoresInMemory (seg : Segment) (f : OpenFile) (frames : List Nat) : Prop :=
  0 < seg.size.toInt → ∀ i fr k : Nat, frames[i]? = some fr → k < pageSize → (seg.position i).toNat + k < f.content.length →
    0 ≤ seg.virtualAddr.toInt + (fr : Int) * pageSize + (k : Int) ∧
      seg.virtualAddr.toInt + (fr : Int) * pageSize + (k : Int) < memorySize

theorem copySegment_inMemory (ht : table.map (·.physicalPage) = frames.map Int.ofNat)
    (hsk : seg.SeeksOk frames.length) : InMemory (copySegment f seg table).1 ↔ seg.StoresInMemory f frames := by
  unfold copySegment Segment.StoresInMemory
  rw [zero_slt]
  by_cases hs : 0 < seg.size.toInt
  · rw [if_pos (by simpa using hs)]
    simp only [hs, true_imp_iff]
    constructor
    · intro ha i fr k hfr hk hlt
      have hpg := physicalPage_of_frames ht i
      rw [hfr, Option.map_some] at hpg
      obtain ⟨e, he, hp⟩ := Option.map_eq_some_iff.mp hpg
      have hi := (List.getElem?_eq_some_iff.mp hfr).1
      refine ha (_, f.content[(seg.position i).toNat + k]) ((mem_copyPages f seg table 0).mpr
        ⟨i, e, he, fun j hj => ?_, k, hk, by rw [hp]; rfl, ?_⟩)
      · rw [slt_zero, Nat.zero_add]
        have := hsk hs j (by omega)
        simp
        omega
      · rw [Nat.zero_add]; exact List.getElem?_eq_getElem hlt
    · intro hin h' hx
      obtain ⟨x, b⟩ := h'
      obtain ⟨i, e, he, -, k, hk, rfl, hb⟩ := (mem_copyPages f seg table 0).mp hx
      rw [Nat.zero_add] at hb
      have hpg := physicalPage_of_frames ht i
      rw [he, Option.map_some] at hpg
      obtain ⟨fr, hfr, hp⟩ := Option.map_eq_some_iff.mp hpg.symm
      rw [← hp]
      exact hin i fr k hfr hk (List.getElem?_eq_some_iff.mp hb).1
  · rw [if_neg (by simpa using hs)]
    simp [hs]

/-- The loops store in main memory only. -/
theorem copyProgram_inMemory (hn : h.numPages ≤ bm.clearBits.length)
    (hs : h.code.SeeksOk h.numPages ∧ h.initData.SeeksOk h.numPages) :
    InMemory (copyProgram f h (allocate 0 h.numPages bm).1).1 ↔
      h.code.StoresInMemory f (bm.clearBits.take h.numPages) ∧ h.initData.StoresInMemory f (bm.clearBits.take h.numPages) := by
  have ht := allocate_physicalPage (i := 0) hn
  have hl : (bm.clearBits.take h.numPages).length = h.numPages := by rw [List.length_take]; omega
  rw [copyProgram_stores ((copySegment_runs hn).mpr hs.1),
    ← copySegment_inMemory ht (by rw [hl]; exact hs.1), ← copySegment_inMemory ht (by rw [hl]; exact hs.2)]
  exact List.forall_mem_append

/-! ## The bytes of the new program -/

/-- Byte `b` is what the copy loops leave at virtual address `va`: the initialised data's
    loop has the last word, then the code's. -/
def Arrives (f : OpenFile) (h : NoffHeader) (frames : List Nat) (va : Nat) (b : Byte) : Prop :=
  (0 < h.initData.size.toInt ∧ ∃ off, Lands h.initData frames (physAddr frames va) off ∧ f.content[off]? = some b) ∨
  ((0 < h.initData.size.toInt → ∀ off, Lands h.initData frames (physAddr frames va) off → f.content.length ≤ off) ∧
    0 < h.code.size.toInt ∧ f.content[h.code.inFileAddr.toNat + va]? = some b)

theorem physAddr_eq (hva : va < frames.length * pageSize) :
    ∃ fr, frames[va / pageSize]? = some fr ∧ physAddr frames va = fr * pageSize + va % pageSize := by
  have hp : va / pageSize < frames.length := Nat.div_lt_of_lt_mul (by rwa [Nat.mul_comm])
  refine ⟨_, getElem?_eq_getElem hp, ?_⟩
  rw [physAddr, getD_eq_getElem?_getD, getElem?_eq_getElem hp]
  rfl

/-- The code segment starts at address 0, so its loop copies each page to its own frame. -/
theorem code_lands (hn : frames.Nodup) (hz : h.code.virtualAddr = 0) (hva : va < frames.length * pageSize) :
    Lands h.code frames (physAddr frames va) off ↔ off = h.code.inFileAddr.toNat + va := by
  obtain ⟨fr, hfr, hp⟩ := physAddr_eq hva
  have hs : Lands h.code frames (physAddr frames va) (h.code.inFileAddr.toNat + va) := by
    refine ⟨va / pageSize, fr, hfr, va % pageSize, Nat.mod_lt _ (by decide), ?_, ?_⟩
    · rw [hp, hz]; simp
    · unfold pageSize at *
      omega
  constructor
  · intro hl; exact hl.unique hn hs
  · intro heq; subst heq; exact hs

/-- The stores of a copy loop into fresh frames. -/
theorem mem_copied {n : Nat} (hp : seg.Present f) (hen : EnoughFrames bm n) (p : Int) (b : Byte) :
    (p, b) ∈ (copySegment f seg (allocate 0 n bm).1).1 ↔
      0 < seg.size.toInt ∧ ∃ off, Lands seg (bm.clearBits.take n) p off ∧ f.content[off]? = some b := by
  have hl : (bm.clearBits.take n).length < 2 ^ 20 := by
    have := hen.le
    rw [hen.length]
    unfold numPhysPages at this
    omega
  exact mem_copySegment (allocate_physicalPage hen.clear) hl hp.position

/-- What is at a virtual address once both loops are done, whatever was there before. -/
theorem arrives_iff (hwf : WellFormed f h) (hen : EnoughFrames bm h.numPages) (hva : va < h.numPages * pageSize)
    (b : Byte) : (∀ mem, applyStores mem ((copySegment f h.code (allocate 0 h.numPages bm).1).1 ++
        (copySegment f h.initData (allocate 0 h.numPages bm).1).1) (physAddr (bm.clearBits.take h.numPages) va) = b) ↔
      Arrives f h (bm.clearBits.take h.numPages) va b := by
  have hv' : va < (bm.clearBits.take h.numPages).length * pageSize := by rw [hen.length]; exact hva
  have hcd := fun b => mem_copied hwf.codePresent hen (physAddr (bm.clearBits.take h.numPages) va) b
  have hdt := fun b => mem_copied hwf.dataPresent hen (physAddr (bm.clearBits.take h.numPages) va) b
  have hn := hen.nodup
  generalize (allocate 0 h.numPages bm).1 = table at hcd hdt ⊢
  generalize bm.clearBits.take h.numPages = frames at hv' hcd hdt hn ⊢
  simp only [code_lands hn hwf.codeAddr hv', exists_eq_left] at hcd
  have hd1 : ∀ {b b'}, ((physAddr frames va : Int), b) ∈ (copySegment f h.initData table).1 →
      ((physAddr frames va : Int), b') ∈ (copySegment f h.initData table).1 → b' = b := by
    intro b b' h1 h2
    obtain ⟨-, off, hl, hb⟩ := (hdt b).mp h1
    obtain ⟨-, off', hl', hb'⟩ := (hdt b').mp h2
    rw [hl'.unique hn hl, hb] at hb'
    exact (Option.some.inj hb').symm
  simp only [applyStores_append]
  by_cases hd : ∃ b', ((physAddr frames va : Int), b') ∈ (copySegment f h.initData table).1
  · -- the initialised data's loop writes here
    obtain ⟨b', hb'⟩ := hd
    have hv : ∀ mem, applyStores mem (copySegment f h.initData table).1 (physAddr frames va) = b' := fun mem =>
      applyStores_of_mem hb' fun b'' hb'' => hd1 hb' hb''
    simp only [hv]
    constructor
    · intro he
      rw [← he fun _ => 0]
      exact .inl ((hdt b').mp hb')
    · intro h' mem
      rcases h' with hl | ⟨hno, -⟩
      · exact hd1 ((hdt b).mpr hl) hb'
      obtain ⟨hs, off, hl, hc⟩ := (hdt b').mp hb'
      have := (List.getElem?_eq_some_iff.mp hc).1
      have := hno hs off hl
      omega
  · have hv : ∀ mem, applyStores mem (copySegment f h.initData table).1 (physAddr frames va) = mem (physAddr frames va) :=
      fun mem => applyStores_frame _ fun s hs e => hd ⟨s.2, by rw [← e]; exact hs⟩
    have hno : 0 < h.initData.size.toInt → ∀ off, Lands h.initData frames (physAddr frames va) off →
        f.content.length ≤ off := by
      intro hs off hl
      by_contra hlt
      exact hd ⟨_, (hdt _).mpr ⟨hs, off, hl, getElem?_eq_getElem (Nat.lt_of_not_le hlt)⟩⟩
    simp only [hv]
    have ha : Arrives f h frames va b ↔ ((physAddr frames va : Int), b) ∈ (copySegment f h.code table).1 := by
      rw [hcd]
      constructor
      · intro h'
        rcases h' with hl | ⟨-, hc⟩
        · exact absurd ⟨b, (hdt b).mpr hl⟩ hd
        · exact hc
      · intro hc; exact .inr ⟨hno, hc⟩
    rw [ha]
    constructor
    · intro he
      by_cases hc : ∃ s ∈ (copySegment f h.code table).1, s.1 = (physAddr frames va : Int)
      · have := he fun _ => 0
        rw [← this]
        exact applyStores_eq _ hc
      · -- nothing is stored here, so memory keeps whatever it held
        have := he fun _ => b + 1
        rw [applyStores_frame _ fun s hs e => hc ⟨s, hs, e⟩] at this
        exact absurd this (by simp)
    · intro hb mem
      refine applyStores_of_mem hb fun b' hb' => ?_
      have h1 := ((hcd b).mp hb).2
      rw [((hcd b').mp hb').2] at h1
      exact Option.some.inj h1

theorem Segment.Inside.lt {n o : Nat} (hi : seg.Inside n) (ho : o < seg.size.toNat) :
    seg.virtualAddr.toNat + o < n * pageSize := by
  have hs := toNat_of_nonneg hi.1
  have hv := hi.2 (by omega)
  have := toNat_of_nonneg hv.1
  unfold pageSize at *
  omega

theorem Segment.Present.get {n o : Nat} (hp : seg.Present f) (hi : seg.Inside n) (ho : o < seg.size.toNat) :
    ∃ b, f.content[seg.inFileAddr.toNat + o]? = some b := by
  have hs := toNat_of_nonneg hi.1
  have hv := hp (by omega)
  have := toNat_of_nonneg hv.1
  exact ⟨_, getElem?_eq_getElem (by omega)⟩

/-- The page bitmap with every frame clear. -/
def noPages : BitMap := gPhysPageBitMap fun _ => 0

/-- A constructor on a little-endian host whose uninitialised memory is zero. -/
abbrev load (bm : BitMap) (c : Ctor) (f : OpenFile) : Built :=
  AddrSpace.construct false { pageTable := [], numPages := 0 } (fun _ => 0) bm c (some f)

/-- A segment that is empty. -/
def Segment.empty : Segment := ⟨0, 0, 0⟩

@[simp]
theorem Segment.not_contains_empty {va : Int} : ¬ Segment.empty.Contains va :=
  fun ⟨h1, h2⟩ => absurd (Int.lt_of_le_of_lt h1 h2) (by decide)

def littleEndian (w : Word) : List Byte :=
  [w.setWidth 8, (w >>> 8).setWidth 8, (w >>> 16).setWidth 8, (w >>> 24).setWidth 8]

/-- A header as it stands in a file. -/
def NoffHeader.bytes (h : NoffHeader) : List Byte :=
  let words := fun s : Segment => [s.virtualAddr, s.inFileAddr, s.size]
  (h.noffMagic :: words h.code ++ words h.initData ++ words h.uninitData).flatMap littleEndian

/-- The program is where a NOFF file says it is. -/
structure ProgramLoaded (f : OpenFile) (h : NoffHeader) (s : AddrSpace) (mem : Memory) : Prop where
  code : ∀ o < h.code.size.toNat,
    s.readByte mem (h.code.virtualAddr.toNat + o) = f.content[h.code.inFileAddr.toNat + o]?
  initData : ∀ o < h.initData.size.toNat,
    s.readByte mem (h.initData.virtualAddr.toNat + o) = f.content[h.initData.inFileAddr.toNat + o]?
  uninitData : ∀ o < h.uninitData.size.toNat, s.readByte mem (h.uninitData.virtualAddr.toNat + o) = some 0

/-- The constructor has returned and stored in main memory only, and the program is there whatever
    memory held before. -/
def LoadsProgram (f : OpenFile) (h : NoffHeader) (b : Built) : Prop :=
  b.ending = .returned ∧ InMemory b.stores ∧ ∀ mem, ProgramLoaded f h b.space (applyStores mem b.stores)

/-- The copy loops, with these frames, store inside main memory and leave the right bytes in all
    three segments. -/
structure CopiesRight (f : OpenFile) (h : NoffHeader) (frames : List Nat) : Prop where
  codeSeeks : h.code.SeeksOk frames.length
  dataSeeks : h.initData.SeeksOk frames.length
  codeStores : h.code.StoresInMemory f frames
  dataStores : h.initData.StoresInMemory f frames
  code : ∀ o < h.code.size.toNat, ∀ b, f.content[h.code.inFileAddr.toNat + o]? = some b →
    Arrives f h frames (h.code.virtualAddr.toNat + o) b
  initData : ∀ o < h.initData.size.toNat, ∀ b, f.content[h.initData.inFileAddr.toNat + o]? = some b →
    Arrives f h frames (h.initData.virtualAddr.toNat + o) b
  uninitData : ∀ o < h.uninitData.size.toNat, Arrives f h frames (h.uninitData.virtualAddr.toNat + o) 0

/-- The code goes to the frames themselves. -/
theorem code_storesInMemory (hz : h.code.virtualAddr = 0)
    (hlow : ∀ fr ∈ frames, fr < numPhysPages) : h.code.StoresInMemory f frames := by
  intro _ i fr k hfr hk _
  have hfr := hlow fr (mem_of_getElem? hfr)
  have hzr : h.code.virtualAddr.toInt = 0 := by rw [hz]; rfl
  rw [hzr]
  unfold memorySize
  unfold numPhysPages pageSize at *
  omega

/-- A program without data is copied right into any frames of the machine. -/
theorem copiesRight_code_only (hwf : WellFormed f h)
    (hlow : ∀ fr ∈ frames, fr < numPhysPages) (hd : h.initData.size = 0) (hu : h.uninitData.size = 0) :
    CopiesRight f h frames ↔ h.code.SeeksOk frames.length := by
  have hno : ¬ 0 < h.initData.size.toInt := by rw [hd]; decide
  refine ⟨CopiesRight.codeSeeks, fun hsk => ⟨hsk, fun hs => absurd hs hno, code_storesInMemory hwf.codeAddr hlow,
    fun hs => absurd hs hno, fun o ho b hb => ?_, fun o ho => ?_, fun o ho => ?_⟩⟩
  · have := toNat_of_nonneg hwf.codeInside.1
    refine .inr ⟨fun hs => absurd hs hno, by omega, ?_⟩
    rw [hwf.codeAddr, ← hb]
    simp
  · rw [hd] at ho; exact absurd ho (Nat.not_lt_zero o)
  · rw [hu] at ho; exact absurd ho (Nat.not_lt_zero o)

section

variable {start n : Nat}

theorem getElem?_consecutive {i fr : Nat} : (range' start n)[i]? = some fr ↔ i < n ∧ fr = start + i := by
  rw [List.getElem?_eq_some_iff]
  simp only [getElem_range', length_range', Nat.one_mul, exists_prop, eq_comm]

theorem physAddr_consecutive (hva : va < n * pageSize) : physAddr (range' start n) va = start * pageSize + va := by
  obtain ⟨fr, hfr, hp⟩ := physAddr_eq (show va < (range' start n).length * pageSize by rwa [length_range'])
  obtain ⟨-, rfl⟩ := getElem?_consecutive.mp hfr
  rw [hp, Nat.add_mul, Nat.add_assoc, Nat.div_add_mod']

/-- The data's copy starts past the code. -/
theorem code_arrives_consecutive (hwf : WellFormed f h) {o : Nat} {b : Byte} (ho : o < h.code.size.toNat)
    (hb : f.content[h.code.inFileAddr.toNat + o]? = some b) :
    Arrives f h (range' start h.numPages) (h.code.virtualAddr.toNat + o) b := by
  have hsz := toNat_of_nonneg hwf.codeInside.1
  refine .inr ⟨fun hs off hl => ?_, by omega, by rw [hwf.codeAddr, ← hb]; simp⟩
  obtain ⟨i, fr, hfr, k, -, hp, -⟩ := hl
  obtain ⟨-, rfl⟩ := getElem?_consecutive.mp hfr
  rw [physAddr_consecutive (hwf.codeInside.lt ho), hwf.codeAddr] at hp
  have hz : h.code.virtualAddr.toInt = 0 := by rw [hwf.codeAddr]; rfl
  have hv := (hwf.dataInside.2 hs).1
  refine absurd ⟨⟨by omega, ?_⟩, ⟨Int.le_refl _, by omega⟩⟩ (hwf.apart h.initData.virtualAddr.toInt).1
  have hz' : (0 : Word).toNat = 0 := rfl
  rw [hz'] at hp
  unfold pageSize at hp
  omega

theorem data_arrives_consecutive (hwf : WellFormed f h) {o : Nat} {b : Byte} (ho : o < h.initData.size.toNat)
    (hb : f.content[h.initData.inFileAddr.toNat + o]? = some b) :
    Arrives f h (range' start h.numPages) (h.initData.virtualAddr.toNat + o) b := by
  have hsz := toNat_of_nonneg hwf.dataInside.1
  have hs : 0 < h.initData.size.toInt := by omega
  have hin := hwf.dataInside.lt ho
  have hv := toNat_of_nonneg (hwf.dataInside.2 hs).1
  refine .inl ⟨hs, _, ⟨o / pageSize, start + o / pageSize, ?_, o % pageSize, Nat.mod_lt _ (by decide), ?_, ?_⟩, hb⟩
  · refine getElem?_consecutive.mpr ⟨?_, rfl⟩
    unfold pageSize at *
    omega
  · rw [physAddr_consecutive hin]
    unfold pageSize
    omega
  · unfold pageSize
    omega

/-- In consecutive frames each loop copies its segment to the segment's own addresses. -/
theorem copiesRight_consecutive (hwf : WellFormed f h) (hlow : start + h.numPages ≤ numPhysPages)
    (hu : h.uninitData.size = 0) :
    CopiesRight f h (range' start h.numPages) ↔
      h.code.SeeksOk h.numPages ∧ h.initData.SeeksOk h.numPages ∧
        h.initData.StoresInMemory f (range' start h.numPages) := by
  have hlen : (range' start h.numPages).length = h.numPages := length_range'
  constructor
  · intro hc
    exact ⟨hlen ▸ hc.codeSeeks, hlen ▸ hc.dataSeeks, hc.dataStores⟩
  · rintro ⟨hcs, hds, hst⟩
    refine ⟨hlen.symm ▸ hcs, hlen.symm ▸ hds, code_storesInMemory hwf.codeAddr fun fr hfr => ?_, hst,
      fun o ho b => code_arrives_consecutive hwf ho, fun o ho b => data_arrives_consecutive hwf ho, fun o ho => ?_⟩
    · have := (mem_range'_1.mp hfr).2; omega
    · rw [hu] at ho; exact absurd ho (Nat.not_lt_zero o)

end

section

variable (hwf : WellFormed f h) (hen : EnoughFrames bm h.numPages)
  (hok : (copyProgram f h (allocate 0 h.numPages bm).1).2 = true)
include hwf hen hok

/-- Once both loops have run to their end, a virtual address holds what arrives there. -/
theorem readByte_loaded (hva : va < h.numPages * pageSize) (b : Byte) :
    (∀ mem, AddrSpace.readByte ⟨(allocate 0 h.numPages bm).1, h.numPages⟩
      (applyStores mem (copyProgram f h (allocate 0 h.numPages bm).1).1) va = some b) ↔
      Arrives f h (bm.clearBits.take h.numPages) va b := by
  rw [← arrives_iff hwf hen hva b, copyProgram_stores ((copyProgram_ok ..).mp hok).1]
  refine forall_congr' fun mem => ?_
  rw [readByte_fresh hen.clear hen.low _ hva]
  exact ⟨Option.some.inj, congrArg some⟩

/-- And so do the addresses of a segment whose bytes are in the file. -/
theorem segment_loaded_iff (hi : seg.Inside h.numPages) (hp : seg.Present f) :
    (∀ mem, ∀ o < seg.size.toNat, AddrSpace.readByte ⟨(allocate 0 h.numPages bm).1, h.numPages⟩
      (applyStores mem (copyProgram f h (allocate 0 h.numPages bm).1).1) (seg.virtualAddr.toNat + o) =
        f.content[seg.inFileAddr.toNat + o]?) ↔
      ∀ o < seg.size.toNat, ∀ b, f.content[seg.inFileAddr.toNat + o]? = some b →
        Arrives f h (bm.clearBits.take h.numPages) (seg.virtualAddr.toNat + o) b := by
  constructor
  · intro hl o ho b hb
    exact (readByte_loaded hwf hen hok (hi.lt ho) b).mp fun mem => (hl mem o ho).trans hb
  · intro ha mem o ho
    obtain ⟨b, hb⟩ := hp.get hi ho
    rw [hb]
    exact (readByte_loaded hwf hen hok (hi.lt ho) b).mpr (ha o ho b hb) mem

end

/-- Either constructor, from a well-formed file and enough clear frames, loads the program exactly when
    the copy loops put the right bytes. -/
theorem program_loaded_iff (c : Ctor) (hwf : WellFormed f (readHeader bigEndian f stack))
    (hen : EnoughFrames bm (readHeader bigEndian f stack).numPages) :
    LoadsProgram f (readHeader bigEndian f stack) (AddrSpace.construct bigEndian junk stack bm c (some f)) ↔
      CopiesRight f (readHeader bigEndian f stack) (bm.clearBits.take (readHeader bigEndian f stack).numPages) := by
  generalize hh : readHeader bigEndian f stack = h at hwf hen ⊢
  obtain ⟨hspace, -, -, hstores, hending⟩ :=
    construct_eq bigEndian junk stack c bm hh hwf.magic (fun _ => hen.le) hen.clear
  rw [LoadsProgram, hspace, hstores, hending, ending_returned hen.clear]
  constructor
  · rintro ⟨hseeks, hmemory, hloaded⟩
    have hok := (copyProgram_runs (f := f) hen.clear).mpr hseeks
    obtain ⟨hcode, hdata⟩ := (copyProgram_inMemory hen.clear hseeks).mp hmemory
    exact ⟨by rw [hen.length]; exact hseeks.1, by rw [hen.length]; exact hseeks.2, hcode, hdata,
      (segment_loaded_iff hwf hen hok hwf.codeInside hwf.codePresent).mp fun mem => (hloaded mem).code,
      (segment_loaded_iff hwf hen hok hwf.dataInside hwf.dataPresent).mp fun mem => (hloaded mem).initData,
      fun o ho => (readByte_loaded hwf hen hok (hwf.bssInside.lt ho) 0).mp fun mem => (hloaded mem).uninitData o ho⟩
  · intro hc
    have hseeks : h.code.SeeksOk h.numPages ∧ h.initData.SeeksOk h.numPages := by
      rw [← hen.length]; exact ⟨hc.codeSeeks, hc.dataSeeks⟩
    have hok := (copyProgram_runs (f := f) hen.clear).mpr hseeks
    exact ⟨hseeks, (copyProgram_inMemory hen.clear hseeks).mpr ⟨hc.codeStores, hc.dataStores⟩, fun mem =>
      ⟨(segment_loaded_iff hwf hen hok hwf.codeInside hwf.codePresent).mpr hc.code mem,
        (segment_loaded_iff hwf hen hok hwf.dataInside hwf.dataPresent).mpr hc.initData mem,
        fun o ho => (readByte_loaded hwf hen hok (hwf.bssInside.lt ho) 0).mpr (hc.uninitData o ho) mem⟩⟩

/-- A program of one instruction, without data. -/
def codeOnlyHeader : NoffHeader := ⟨noffMagic, ⟨0, 40, 4⟩, .empty, .empty⟩

def codeOnly : OpenFile := { content := codeOnlyHeader.bytes ++ [0x0c, 0, 0, 0], short := by decide }

theorem readHeader_codeOnly : readHeader false codeOnly (fun _ => 0) = codeOnlyHeader := by decide +kernel

theorem wellFormed_codeOnly : WellFormed codeOnly codeOnlyHeader := by
  exact ⟨by decide, rfl, rfl, ⟨by decide, by decide⟩, ⟨by decide, by decide⟩, ⟨by decide, by decide⟩,
    fun va => by simp [codeOnlyHeader], by unfold Segment.Present; decide, by unfold Segment.Present; decide⟩

theorem enoughFrames_codeOnly : EnoughFrames noPages codeOnlyHeader.numPages := by
  unfold EnoughFrames; decide +kernel

/-- Such a program is loaded as it should be. -/
theorem code_only_loaded : WellFormed codeOnly (readHeader false codeOnly fun _ => 0) ∧
    LoadsProgram codeOnly (readHeader false codeOnly fun _ => 0) (load noPages .ofFilename codeOnly) := by
  have hh := readHeader_codeOnly
  refine ⟨hh ▸ wellFormed_codeOnly, ?_⟩
  refine (program_loaded_iff false ⟨[], 0⟩ (fun _ => 0) .ofFilename (hh ▸ wellFormed_codeOnly)
    (hh ▸ enoughFrames_codeOnly)).mpr ?_
  rw [hh]
  refine (copiesRight_code_only wellFormed_codeOnly enoughFrames_codeOnly.low rfl rfl).mpr fun _ i hi => ?_
  rw [enoughFrames_codeOnly.length] at hi
  exact (by decide : ∀ i < codeOnlyHeader.numPages, (codeOnlyHeader.code.position i).toNat < 2 ^ 31) i hi

/-- A program with one byte of uninitialised data and nothing else. -/
def bssOnlyHeader : NoffHeader := ⟨noffMagic, .empty, .empty, ⟨0, 0, 1⟩⟩

def bssOnly : OpenFile := { content := bssOnlyHeader.bytes, short := by decide }

/-- Uninitialised data is not zeroed: a byte 1 that memory held before is still there. -/
theorem bss_keeps_old_bytes :
    WellFormed bssOnly (readHeader false bssOnly fun _ => 0) ∧
    EnoughFrames noPages (readHeader false bssOnly fun _ => 0).numPages ∧
    ¬ LoadsProgram bssOnly (readHeader false bssOnly fun _ => 0) (load noPages .ofFilename bssOnly) := by
  have hh : readHeader false bssOnly (fun _ => 0) = bssOnlyHeader := by decide +kernel
  have hone : (load noPages .ofFilename bssOnly).space.readByte
      (applyStores (fun _ => 1) (load noPages .ofFilename bssOnly).stores) 0 = some 1 := by
    decide +kernel
  refine ⟨?_, ?_, fun hall => ?_⟩
  · rw [hh]
    exact ⟨by decide, rfl, rfl, ⟨by decide, by decide⟩, ⟨by decide, by decide⟩, ⟨by decide, by decide⟩,
      fun va => by simp [bssOnlyHeader], by unfold Segment.Present; decide, by unfold Segment.Present; decide⟩
  · rw [hh]
    unfold EnoughFrames; decide +kernel
  · have hzero := (hall.2.2 fun _ => 1).uninitData 0 (by rw [hh]; decide)
    rw [hh] at hzero
    exact absurd (hone.symm.trans hzero) (by decide)

/-! ## Everyone else's bytes -/

/-- A read through a page table is a read of one byte of its frames, the same whatever
    memory holds. -/
theorem readByte_eq (s : AddrSpace) (va : Nat) :
    (∀ mem, s.readByte mem va = none) ∨
      ∃ pa, pa / pageSize ∈ framesOf s.pageTable ∧ pa < memorySize ∧ ∀ mem, s.readByte mem va = some (mem pa) := by
  let m : Machine :=
    { registers := fun _ => 0, mainMemory := fun _ => 0, tlb := none, pageTable := some s.pageTable, pageTableSize := s.numPages }
  have hw := fun mem => translate_with m m.registers mem (BitVec.ofNat 32 va) 1 false
  cases ht : m.translate (BitVec.ofNat 32 va) 1 false with
  | ok pa m' =>
    obtain ⟨-, ho, hm⟩ := translate_ok (m := m) rfl rfl ht
    refine .inr ⟨pa, ho (.inl rfl) 0 (by decide), by omega, fun mem => ?_⟩
    have := hw mem
    rw [ht] at this
    unfold AddrSpace.readByte
    dsimp only at this ⊢
    rw [this]
  | _ =>
    refine .inl fun mem => ?_
    have := hw mem
    rw [ht] at this
    unfold AddrSpace.readByte
    dsimp only at this ⊢
    rw [this]

/-- The loops store only in the new frames, or stop before the initialised data's because a
    position of the code's exceeds an `int`. -/
def StaysInside (f : OpenFile) (h : NoffHeader) (frames : List Nat) : Prop :=
  ¬ h.code.SeeksOk frames.length ∨
    (0 < h.initData.size.toInt → ∀ p off : Nat, Lands h.initData frames p off → off < f.content.length →
      p / pageSize ∈ frames)

theorem code_lands_inside (hz : h.code.virtualAddr = 0) {p : Nat} (hl : Lands h.code frames p off) :
    p / pageSize ∈ frames := by
  obtain ⟨i, fr, hfr, k, hk, hp, -⟩ := hl
  have hzr : h.code.virtualAddr.toInt = 0 := by rw [hz]; rfl
  have : p / pageSize = fr := by
    unfold pageSize at *
    omega
  rw [this]
  exact mem_of_getElem? hfr

/-- The constructor has stored in main memory only, and whatever that held, every byte outside the new
    frames is as it was, and so is every byte that another address space sees. -/
def DisturbsNobody (bm : BitMap) (b : Built) : Prop :=
  InMemory b.stores ∧ ∀ mem,
    (∀ x < memorySize, ((x / pageSize : Nat) : Int) ∉ b.space.frames → applyStores mem b.stores x = mem x) ∧
    ∀ other : AddrSpace, (∀ fr ∈ framesOf other.pageTable, bm.bit fr = true) → ∀ va,
      other.readByte (applyStores mem b.stores) va = other.readByte mem va

section
variable (hwf : WellFormed f h) (hen : EnoughFrames bm h.numPages)
include hwf hen

/-- Each store is into a new frame if the loops stay inside. -/
theorem copyProgram_inside (hin : StaysInside f h (bm.clearBits.take h.numPages)) :
    ∀ s ∈ (copyProgram f h (allocate 0 h.numPages bm).1).1,
      ∃ x : Nat, s.1 = x ∧ x / pageSize ∈ bm.clearBits.take h.numPages := by
  have hnat : ∀ {seg : Segment} {p : Int} {off : Nat}, 0 ≤ seg.virtualAddr.toInt →
      Lands seg (bm.clearBits.take h.numPages) p off → ∃ x : Nat, p = x := by
    intro seg p off hv hl
    obtain ⟨i, fr, -, k, -, hp, -⟩ := hl
    exact ⟨p.toNat, by unfold pageSize at hp; omega⟩
  have hcode : ∀ s ∈ (copySegment f h.code (allocate 0 h.numPages bm).1).1,
      ∃ x : Nat, s.1 = x ∧ x / pageSize ∈ bm.clearBits.take h.numPages := by
    intro s hs
    obtain ⟨-, off, hl, -⟩ := (mem_copied hwf.codePresent hen s.1 s.2).mp hs
    obtain ⟨x, hx⟩ := hnat (by rw [hwf.codeAddr]; decide) hl
    exact ⟨x, hx, code_lands_inside hwf.codeAddr (hx ▸ hl)⟩
  by_cases hsk : h.code.SeeksOk h.numPages
  · rw [copyProgram_stores ((copySegment_runs hen.clear).mpr hsk)]
    refine List.forall_mem_append.mpr ⟨hcode, fun s hs => ?_⟩
    obtain ⟨hp, off, hl, hb⟩ := (mem_copied hwf.dataPresent hen s.1 s.2).mp hs
    obtain ⟨x, hx⟩ := hnat (hwf.dataInside.2 hp).1 hl
    exact ⟨x, hx, hin.resolve_left (fun hn => hn (by rwa [hen.length])) hp x off (hx ▸ hl)
      (List.getElem?_eq_some_iff.mp hb).1⟩
  · have hst : (copySegment f h.code (allocate 0 h.numPages bm).1).2 = false := by
      rw [← copySegment_runs (f := f) hen.clear] at hsk
      simpa using hsk
    simp only [copyProgram, hst, Bool.false_eq_true, if_false]
    exact hcode

/-- And only then: the byte that arrives outside is always the same, but memory may hold
    another. -/
theorem staysInside_of_frame (hst : InMemory (copyProgram f h (allocate 0 h.numPages bm).1).1)
    (ha : ∀ mem : Memory, ∀ x < memorySize, x / pageSize ∉ bm.clearBits.take h.numPages → applyStores mem (copyProgram f h (allocate 0 h.numPages bm).1).1 x = mem x) :
    StaysInside f h (bm.clearBits.take h.numPages) := by
  unfold StaysInside
  rw [hen.length]
  by_cases hsk : h.code.SeeksOk h.numPages
  · refine .inr fun hs p off hl ho => ?_
    have hd := fun b => mem_copied hwf.dataPresent hen (p : Int) b
    have hmem := (hd f.content[off]).mpr ⟨hs, off, hl, getElem?_eq_getElem ho⟩
    rw [copyProgram_stores ((copySegment_runs hen.clear).mpr hsk)] at hst ha
    by_contra hn
    have hv := ha (fun _ => f.content[off] + 1) p (Int.ofNat_lt.mp (hst _ (mem_append_right _ hmem)).2) hn
    rw [applyStores_append, applyStores_of_mem hmem] at hv
    · exact absurd hv (by simp)
    intro b hb
    obtain ⟨-, off', hl', hb'⟩ := (hd b).mp hb
    rw [hl'.unique hen.nodup hl, getElem?_eq_getElem ho] at hb'
    exact (Option.some.inj hb').symm
  · exact .inl hsk

end

/-- Either constructor, from a well-formed file and enough clear frames, disturbs nobody exactly when the
    copy of the initialised data stays inside. -/
theorem others_undisturbed_iff (c : Ctor) (hwf : WellFormed f (readHeader bigEndian f stack))
    (hen : EnoughFrames bm (readHeader bigEndian f stack).numPages) :
    DisturbsNobody bm (AddrSpace.construct bigEndian junk stack bm c (some f)) ↔
      StaysInside f (readHeader bigEndian f stack) (bm.clearBits.take (readHeader bigEndian f stack).numPages) := by
  generalize hh : readHeader bigEndian f stack = h at hwf hen ⊢
  obtain ⟨hspace, -, -, hstores, -⟩ :=
    construct_eq bigEndian junk stack c bm hh hwf.magic (fun _ => hen.le) hen.clear
  rw [DisturbsNobody, hspace, hstores]
  have hmem : ∀ x : Nat, ((x / pageSize : Nat) : Int) ∈ (bm.clearBits.take h.numPages).map Int.ofNat ↔
      x / pageSize ∈ bm.clearBits.take h.numPages := fun x => by
    simp only [List.mem_map, Int.ofNat_eq_natCast, Int.natCast_inj, exists_eq_right]
  rw [frames_allocate hen.clear]
  simp only [hmem]
  constructor
  · intro hall
    exact staysInside_of_frame hwf hen hall.1 fun mem => (hall.2 mem).1
  · intro hin
    have hinside := copyProgram_inside hwf hen hin
    have hstore : InMemory (copyProgram f h (allocate 0 h.numPages bm).1).1 := by
      intro s hs
      obtain ⟨x, hx, hfr⟩ := hinside s hs
      have := hen.low _ hfr
      unfold memorySize
      unfold numPhysPages pageSize at *
      omega
    refine ⟨hstore, fun mem => ?_⟩
    have hframe : ∀ x < memorySize, x / pageSize ∉ bm.clearBits.take h.numPages →
        applyStores mem (copyProgram f h (allocate 0 h.numPages bm).1).1 x = mem x := by
      intro x _ hnot
      refine applyStores_frame _ fun s hs heq => ?_
      obtain ⟨x', hx', hfr⟩ := hinside s hs
      obtain rfl : x = x' := Int.ofNat.inj (heq.symm.trans hx')
      exact hnot hfr
    refine ⟨hframe, fun other hother va => ?_⟩
    rcases readByte_eq other va with hr | ⟨pa, hpa, hlt, hr⟩
    · rw [hr, hr]
    · rw [hr, hr, hframe pa hlt]
      -- another space's frames are marked, so they are not among the clear ones
      intro hin
      have hclear := ((bm.mem_clearBits _).mp (List.mem_of_mem_take hin)).2
      rw [hother _ hpa] at hclear
      cases hclear

/-- Loading a program without data disturbs nobody. -/
theorem code_only_disturbs_nobody : WellFormed codeOnly (readHeader false codeOnly fun _ => 0) ∧
    DisturbsNobody noPages (load noPages .ofOpenFile codeOnly) := by
  have hh := readHeader_codeOnly
  refine ⟨hh ▸ wellFormed_codeOnly, ?_⟩
  refine (others_undisturbed_iff false ⟨[], 0⟩ (fun _ => 0) .ofOpenFile (hh ▸ wellFormed_codeOnly)
    (hh ▸ enoughFrames_codeOnly)).mpr ?_
  rw [hh]
  exact .inr fun h => absurd h (by decide)

/-- A program whose four bytes of data are in its second page. -/
def dataPageHeader : NoffHeader := ⟨noffMagic, .empty, ⟨512, 40, 4⟩, .empty⟩

def dataPage : OpenFile := { content := dataPageHeader.bytes ++ [1, 2, 3, 4], short := by decide }

/-- Frame 1 is another program's; the new program gets frames 0, 2 and 3, and its data is
    written into frame 1. -/
theorem data_lands_in_foreign_frame :
    WellFormed dataPage (readHeader false dataPage fun _ => 0) ∧
    EnoughFrames (noPages.markBit 1) (readHeader false dataPage fun _ => 0).numPages ∧
    ¬ ∀ mem, ∀ x < memorySize, ((x / pageSize : Nat) : Int) ∉
        (load (noPages.markBit 1) .ofFilename dataPage).space.frames →
      applyStores mem (load (noPages.markBit 1) .ofFilename dataPage).stores x = mem x := by
  have hh : readHeader false dataPage (fun _ => 0) = dataPageHeader := by decide +kernel
  refine ⟨?_, ?_, fun hall => ?_⟩
  · rw [hh]
    exact ⟨by decide, rfl, rfl, ⟨by decide, by decide⟩, ⟨by decide, by decide⟩, ⟨by decide, by decide⟩,
      fun va => by simp [dataPageHeader], by unfold Segment.Present; decide, by unfold Segment.Present; decide⟩
  · rw [hh]
    unfold EnoughFrames; decide +kernel
  · exact absurd (hall (fun _ => 0) 512 (by decide) (by decide +kernel)) (by decide +kernel)

end Nachos

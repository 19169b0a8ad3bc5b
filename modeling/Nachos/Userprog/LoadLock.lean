/-
  Nachos.Userprog.LoadLock — `addrLock`, and what a load that finds too few frames leaves
  behind.

  Both constructors of `AddrSpace` take `addrLock` to count and mark frames. The one from an
  `OpenFile` deletes it on failure, and `StartProcess` deletes it again. The one from a name
  does not return on failure: it goes on with no pages, calls `V` a second time and deletes
  the file a second time.
-/

import Nachos.Lib.Stores
import Nachos.Threads.Client
import Nachos.Userprog.Loading

namespace Nachos

open AddrSpace (construct ofFilename ofOpenFile)

/-! ## One load -/

/-- How often the caller of the constructor deletes the file: `StartProcess` does after the
    constructor, `StartProcessID` never has it. -/
def Ctor.callerCloses : Ctor → Nat
  | .ofOpenFile => 1
  | .ofFilename => 0

/-- The constructor returns, the bitmap, main memory and the value of `addrLock` are as before, and
    the file has been released once. -/
structure NoTrace (bigEndian : Bool) (c : Ctor) (f : OpenFile) (junk : AddrSpace) (stack : Memory) (bm : BitMap) : Prop where
  returned : (construct bigEndian junk stack bm c (some f)).ending = .returned
  bitmap : (construct bigEndian junk stack bm c (some f)).bitmap = bm
  memory : ∀ mem : Memory, Lib.applyStores mem (construct bigEndian junk stack bm c (some f)).stores = mem
  addrLock : (construct bigEndian junk stack bm c (some f)).addrLock = 0
  closes : (construct bigEndian junk stack bm c (some f)).closes + c.callerCloses = 1

section

variable {bigEndian : Bool} {c : Ctor} {f : OpenFile} {junk : AddrSpace} {stack : Memory} {bm : BitMap}

theorem not_noTrace (hm : (readHeader bigEndian f stack).noffMagic = noffMagic)
    (hf : bm.numClear < (readHeader bigEndian f stack).numPages) : ¬ NoTrace bigEndian c f junk stack bm := by
  intro h
  have hm' : ¬ (readHeader bigEndian f stack).noffMagic ≠ noffMagic := fun hne => hne hm
  cases c with
  | ofOpenFile =>
    by_cases hl : numPhysPages < (readHeader bigEndian f stack).numPages
    · have := h.returned
      simp only [construct, ofOpenFile, if_neg hm', if_pos hl] at this
      cases this
    · -- the constructor and `StartProcess`
      have := h.closes
      simp only [construct, ofOpenFile, if_neg hm', if_neg hl, if_pos hf] at this
      cases this
  | ofFilename =>
    have := h.addrLock
    simp only [construct, ofFilename, if_neg hm', if_pos hf] at this
    cases this

/-- Only the failure of the constructor from a name calls `V` once too often. -/
theorem addrLock_construct (h : 0 < (construct bigEndian junk stack bm c (some f)).addrLock) :
    c = .ofFilename ∧ bm.numClear < (readHeader bigEndian f stack).numPages := by
  cases c with
  | ofOpenFile =>
    exfalso
    simp only [construct, ofOpenFile] at h
    split at h
    · exact Int.lt_irrefl 0 h
    split at h
    · exact absurd h (show ¬ (0 : Int) < -1 by decide)
    · split at h
      · exact Int.lt_irrefl 0 h
      · exact Int.lt_irrefl 0 h
  | ofFilename =>
    refine ⟨rfl, ?_⟩
    by_contra hfew
    simp only [construct, ofFilename, if_neg hfew] at h
    split at h
    · exact Int.lt_irrefl 0 h
    · exact Int.lt_irrefl 0 h

end

/-! ## Loads by any number of threads -/

namespace LoadLock

open Client (Call Mutex Held UsesLock)

/-- The header has been read and is right; `junk` and `stack` are what memory held. -/
structure Load where
  ctor : Ctor
  executable : OpenFile
  junk : AddrSpace
  stack : Memory

structure Shared where
  gPhysPageBitMap : BitMap
  mainMemory : Memory

/-- Where a thread is in a constructor. -/
inductive Place where
  | outside
  /-- `addrLock->P()`. -/
  | sizing (load : Load)
  /-- After `addrLock->V()`: the rest. -/
  | copying (built : Built)
  /-- After the `addrLock->V()` of a failure that does not return. -/
  | notEnough (built : Built)

inductive Input where
  | goOn
  | load (executable : Option OpenFile) (ctor : Ctor) (junk : AddrSpace) (stack : Memory)
  | other (call : Call)

variable (bigEndian : Bool) (addrLock : SemId)

/-- What the constructor is going to do, once it has the lock. -/
def Load.built (load : Load) (bm : BitMap) : Built :=
  construct bigEndian load.junk load.stack bm load.ctor (some load.executable)

def Load.header (load : Load) : NoffHeader := readHeader bigEndian load.executable load.stack

def turn (i : Input) (g : Shared) : Place → Except Stop (Shared × Place × Call)
  | .outside =>
    match i with
    | .goOn => .ok (g, .outside, .none)
    | .load none _ _ _ => .ok (g, .outside, .none)
    | .load (some executable) ctor junk stack =>
      if (readHeader bigEndian executable stack).noffMagic ≠ noffMagic then .error .assertion
      else .ok (g, .sizing ⟨ctor, executable, junk, stack⟩, .p addrLock)
    | .other call => if call = .p addrLock ∨ call = .v addrLock then .ok (g, .outside, .none) else .ok (g, .outside, call)
  | .sizing load =>
    let built := load.built bigEndian g.gPhysPageBitMap
    -- the ASSERT on the number of pages
    if built.addrLock < 0 then .error .assertion
    else if built.addrLock = 0 then .ok ({ g with gPhysPageBitMap := built.bitmap }, .copying built, .v addrLock)
    else .ok ({ g with gPhysPageBitMap := built.bitmap }, .notEnough built, .v addrLock)
  | .notEnough built => .ok (g, .copying built, .v addrLock)
  | .copying built =>
    match built.ending with
    | .assertFails => .error .assertion
    | .returned | .closedTwice => .ok ({ g with mainMemory := Lib.applyStores g.mainMemory built.stores }, .outside, .none)

/-- Interrupts of the devices signal other semaphores. -/
def fire (d : SemId) (g : Shared) : Except Stop (Shared × List SemId) := .ok (g, if d = addrLock then [] else [d])

def client : Client Shared Place Input SemId := ⟨turn bigEndian addrLock, fire addrLock⟩

/-- `addrLock` has been made, with the value 1, and nobody loads. -/
def Init (s : Client.State Shared Place) : Prop :=
  (∃ k, Lib.Reach Dispatch.step (fun _ _ => True) (· = .start) k ∧ k.inCode = true ∧ k.call (.newSemaphore 1) = .ok s.kernel ∧
    addrLock = k.numSems) ∧ s.locals = fun _ => .outside

/-- A load by name has enough clear frames. -/
def enough (_ : Input) (g : Shared) : Place → Bool
  | .sizing load => load.ctor != .ofFilename || decide ((load.header bigEndian).numPages ≤ g.gPhysPageBitMap.numClear)
  | _ => true

/-- The thread is between its `P` and the `V` that matches it. -/
def Between (s : Client.State Shared Place) (t : Tid) : Prop :=
  (∃ load, s.locals t = .sizing load) ∧ (s.kernel.counter addrLock).waits t = false

/-- A thread that has failed by name has still to call the `V` it takes for its own. -/
def Place.phase : Place → Client.Phase
  | .sizing _ => .acquiring
  | .notEnough _ => .inside
  | .outside | .copying _ => .out

section

variable {bigEndian addrLock} {s : Client.State Shared Place}

theorem usesLock : UsesLock ((client bigEndian addrLock).restrict (enough bigEndian)) addrLock Place.phase where
  turn {i g l g' l' call} h := by
    have hn := Call.none_ne addrLock
    rw [Client.restrict] at h
    simp only at h
    split at h
    · rename_i hok
      cases l with
      | outside =>
        cases i with
        | goOn => cases h; exact .away hn
        | load executable ctor junk stack =>
          cases executable with
          | none => cases h; exact .away hn
          | some executable =>
            simp only [client, turn] at h
            split at h
            · cases h
            · cases h
              exact .acquire
        | other other =>
          simp only [client, turn] at h
          split at h
          · cases h
            exact .away hn
          · rename_i hf
            cases h
            exact .away (not_or.mp hf)
      | sizing load =>
        simp only [client, turn] at h
        split at h
        · cases h
        rename_i hng
        split at h
        · cases h
          exact .release (by intro e; cases e)
        -- the failure by name does not meet the condition
        rename_i hz
        obtain ⟨hnm, hfw⟩ := addrLock_construct (show 0 < (load.built bigEndian g.gPhysPageBitMap).addrLock by omega)
        simp only [enough, hnm, bne_self_eq_false, Bool.false_or, decide_eq_true_eq] at hok
        exact absurd hok (Nat.not_le.mpr hfw)
      | notEnough built => cases h; exact .release (by intro e; cases e)
      | copying built =>
        simp only [client, turn] at h
        split at h
        · cases h
        · cases h
          exact .away hn
        · cases h
          exact .away hn
    · cases h
  fire {d g g' vs} h hs := by
    cases h
    split at hs
    · cases hs
    · rename_i hne
      exact hne (List.mem_singleton.mp hs).symm

theorem init_mutex (h : Init addrLock s) : Mutex addrLock Place.phase s := by
  obtain ⟨⟨k, hk, hc, hn, rfl⟩, hl⟩ := h
  obtain ⟨hk', hm, hcn, -⟩ := (Dispatch.reach_making hk hc).newSemaphore hn
  refine (Mutex.start Place.phase hk'.custody (by rw [hm]; exact Nat.lt_succ_self _) hcn fun t => ?_).1
  rw [hl]
  rfl

/-- In runs in which no load by name lacks frames, `addrLock` is a lock. -/
theorem reach_mutex (h : Lib.Reach (client bigEndian addrLock).step (fun s e => Client.meets (enough bigEndian) s e = true)
    (Init addrLock) s) : Mutex addrLock Place.phase s :=
  (Client.reach_restrict h).inv (P := Mutex addrLock Place.phase) (fun _ hs => init_mutex hs)
    fun _ _ _ hs _ hst => hs.step usesLock hst

end

/-- The main thread has made `addrLock`; the bitmap has `bits` clear bits. -/
def booted (bits : Nat) : Client.State Shared Place where
  kernel := match Dispatch.start.call (.newSemaphore 1) with
    | .ok k => k
    | .error _ => .start
  shared := ⟨.new bits fun _ => 0, fun _ => 0⟩
  locals := fun _ => .outside

theorem booted_init (bits : Nat) : Init 0 (booted bits) := ⟨⟨.start, .init rfl, by decide, rfl, rfl⟩, rfl⟩

/-- A thread at `addrLock->P()` that is not inside it. -/
def between (s : Client.State Shared Place) (t : Tid) : Bool :=
  (s.locals t).phase == .acquiring && !(s.kernel.counter 0).waits t

theorem between_iff {s : Client.State Shared Place} {t : Tid} (h : between s t = true) : Between 0 s t := by
  rw [between, Bool.and_eq_true, beq_iff_eq, Bool.not_eq_true'] at h
  refine ⟨?_, h.2⟩
  cases hl : s.locals t with
  | sizing load => exact ⟨load, rfl⟩
  | outside | copying | notEnough =>
    rw [hl] at h
    cases h.1

end LoadLock

/-- A load that leaves no trace when it lacks frames is one that does not lack them. And in every
    run in which no load by name lacks frames, at most one thread is between `addrLock->P()` and
    the matching `V`. -/
theorem load_lock_sound (bigEndian : Bool) (addrLock : SemId) :
    (∀ (c : Ctor) (f : OpenFile) (junk : AddrSpace) (stack : Memory) (bm : BitMap),
      (readHeader bigEndian f stack).noffMagic = noffMagic →
      ((bm.numClear < (readHeader bigEndian f stack).numPages → NoTrace bigEndian c f junk stack bm) ↔
        (readHeader bigEndian f stack).numPages ≤ bm.numClear)) ∧
    (∀ s, Lib.Reach (LoadLock.client bigEndian addrLock).step
      (fun s e => Client.meets (LoadLock.enough bigEndian) s e = true) (LoadLock.Init addrLock) s →
      ∀ t u, LoadLock.Between addrLock s t → LoadLock.Between addrLock s u → u = t) := by
  constructor
  · intro c f junk stack bm hmagic
    constructor
    · intro h
      by_contra hfew
      exact not_noTrace hmagic (Nat.not_le.mp hfew) (h (Nat.not_le.mp hfew))
    · intro hle hfew
      exact absurd hle (Nat.not_le.mpr hfew)
  · intro s h t u ht hu
    have hmutex := LoadLock.reach_mutex h
    have hheld : ∀ {t}, LoadLock.Between addrLock s t → Client.Held addrLock LoadLock.Place.phase s t := by
      rintro t ⟨⟨load, hl⟩, hw⟩
      refine ⟨?_, hw⟩
      rw [hl]
      intro e
      cases e
    exact hmutex.unique (hheld ht) (hheld hu)

/-- A program of three pages. -/
def LoadLock.codeOnlyByName : LoadLock.Input := .load (some codeOnly) .ofFilename ⟨[], 0⟩ fun _ => 0

/-- With 32 clear frames, two threads load: the second waits. And with none, a load leaves a
    trace. -/
theorem load_lock_sound_for_two :
    (∃ s, Lib.Reach (LoadLock.client false 0).step (fun s e => Client.meets (LoadLock.enough false) s e = true) (LoadLock.Init 0) s ∧
      LoadLock.Between 0 s 1 ∧ ∀ u, LoadLock.Between 0 s u → u = 1) ∧
    ((BitMap.new 0 fun _ => 0).numClear < (readHeader false codeOnly fun _ => 0).numPages →
      ¬ NoTrace false .ofOpenFile codeOnly ⟨[], 0⟩ (fun _ => 0) (.new 0 fun _ => 0)) := by
  obtain ⟨htrace, hlock⟩ := load_lock_sound false 0
  constructor
  · obtain ⟨s, hs, ht⟩ := Lib.exists_reach (LoadLock.client false 0).step (Client.meets (LoadLock.enough false))
      [.turn (.other .fork), .turn LoadLock.codeOnlyByName, .turn .goOn, .tick [] true, .resume, .turn LoadLock.codeOnlyByName,
        .tick [] true, .resume, .turn .goOn, .turn LoadLock.codeOnlyByName]
      (fun s => LoadLock.between s 1) (LoadLock.booted_init 32) (by decide +kernel)
    exact ⟨s, hs, LoadLock.between_iff ht, fun u hu => hlock s hs 1 u (LoadLock.between_iff ht) hu⟩
  · intro hfew hno
    exact absurd ((htrace .ofOpenFile codeOnly ⟨[], 0⟩ (fun _ => 0) (.new 0 fun _ => 0) (by decide +kernel)).mp fun _ => hno)
      (Nat.not_le.mpr hfew)

/-- Without a clear frame: the file is deleted twice by either way, the constructor from a name
    calls `V` twice, and then two other threads are between `P` and `V` together. -/
theorem failed_load_unlocks :
    (∀ c, (construct false ⟨[], 0⟩ (fun _ => 0) (.new 0 fun _ => 0) c (some codeOnly)).closes + c.callerCloses = 2) ∧
    (construct false ⟨[], 0⟩ (fun _ => 0) (.new 0 fun _ => 0) .ofFilename (some codeOnly)).addrLock = 1 ∧
    ∃ s, Lib.Reach (LoadLock.client false 0).step (fun _ _ => True) (LoadLock.Init 0) s ∧
      LoadLock.Between 0 s 1 ∧ LoadLock.Between 0 s 2 := by
  refine ⟨fun c => ?_, by decide +kernel, ?_⟩
  · cases c with
    | ofOpenFile => decide +kernel
    | ofFilename => decide +kernel
  obtain ⟨s, hs, ht⟩ := Lib.exists_reach (LoadLock.client false 0).step (fun _ _ => true)
    [.turn (.other .fork), .turn (.other .fork), .turn LoadLock.codeOnlyByName, .turn .goOn, .turn .goOn, .tick [] true, .resume,
      .turn LoadLock.codeOnlyByName, .tick [] true, .resume, .turn LoadLock.codeOnlyByName]
    (fun s => LoadLock.between s 1 && LoadLock.between s 2) (LoadLock.booted_init 0) (by decide +kernel)
  rw [Bool.and_eq_true] at ht
  exact ⟨s, hs.mono fun _ _ _ => trivial, LoadLock.between_iff ht.1, LoadLock.between_iff ht.2⟩

end Nachos

/-
  Nachos.Userprog.FrameOwnership — the page bitmap over whole runs.

  - `frames_owned`: as long as every address space finds its executable, the bits set in
    `gPhysPageBitMap` are the disjoint union of the frames of the live address spaces,
    each space has one live thread, and `FreeSpace` finds the space it deletes.
-/

import Nachos.Userprog.Slots

namespace Nachos

open Function (update update_comm update_self)
open Lib

/-! ## What a constructor takes -/

/-- A constructor that finds its file and returns has taken the first clear frames, if
    it found enough, and otherwise none. -/
theorem construct_takes {bigEndian : Bool} {junk : AddrSpace} {stack : Memory} {bm : BitMap} {c : Ctor} {f : OpenFile}
    {b : Built} (hb : b = AddrSpace.construct bigEndian junk stack bm c (some f)) (he : b.ending ≠ .assertFails) :
    ∃ n ≤ bm.clearBits.length, b.space.frames = (bm.clearBits.take n).map Int.ofNat ∧
      b.space.numPages ≤ b.space.pageTable.length ∧ b.bitmap.numBits = bm.numBits ∧
      ∀ j, b.bitmap.bit j = (bm.bit j || (bm.clearBits.take n).contains j) := by
  have hnn : ∀ {s : AddrSpace}, s.numPages = 0 → s.frames = (bm.clearBits.take 0).map Int.ofNat ∧
      s.numPages ≤ s.pageTable.length := by
    intro s hs
    simp [AddrSpace.frames, hs]
  -- the branch with enough frames, where both constructors do the same
  have hsm : (readHeader bigEndian f stack).noffMagic = noffMagic →
      (c = .ofOpenFile → (readHeader bigEndian f stack).numPages ≤ numPhysPages) →
      ¬ bm.numClear < (readHeader bigEndian f stack).numPages →
      ∃ n ≤ bm.clearBits.length, b.space.frames = (bm.clearBits.take n).map Int.ofNat ∧
        b.space.numPages ≤ b.space.pageTable.length ∧ b.bitmap.numBits = bm.numBits ∧
        ∀ j, b.bitmap.bit j = (bm.bit j || (bm.clearBits.take n).contains j) := by
    intro hm hmx hn
    have hle : (readHeader bigEndian f stack).numPages ≤ bm.clearBits.length := by
      rw [← bm.numClear_eq]
      omega
    obtain ⟨hsp, hbm, -⟩ := construct_eq bigEndian junk stack c bm rfl hm hmx hle
    rw [hb, hsp, hbm]
    generalize (readHeader bigEndian f stack).numPages = n at hle
    exact ⟨n, hle, frames_allocate hle, Nat.le_of_eq (allocate_length hle).symm, (allocate_eq n 0 bm hle).2⟩
  cases c with
  | ofOpenFile =>
    simp only [AddrSpace.construct, AddrSpace.ofOpenFile] at hb
    split at hb
    · rw [hb] at he; exact absurd rfl he
    rename_i hmg
    split at hb
    · rw [hb] at he; exact absurd rfl he
    rename_i hmx
    split at hb
    · rw [hb]
      exact ⟨0, Nat.zero_le _, (hnn rfl).1, (hnn rfl).2, rfl, fun j => by simp⟩
    · exact hsm (Classical.not_not.mp hmg) (fun _ => Nat.le_of_not_lt hmx) ‹_›
  | ofFilename =>
    simp only [AddrSpace.construct, AddrSpace.ofFilename] at hb
    split at hb
    · rw [hb] at he; exact absurd rfl he
    rename_i hmg
    split at hb
    · rw [hb]
      exact ⟨0, Nat.zero_le _, (hnn rfl).1, (hnn rfl).2, rfl, fun j => by simp⟩
    · exact hsm (Classical.not_not.mp hmg) (fun h => by cases h) ‹_›

/-! ## The invariant -/

/-- Who owns which frames. -/
structure Table.Owned (T : Table) : Prop where
  size : T.frames.numBits = 256
  exact : ∀ {i : Nat}, i < 256 → (T.frames.bit i = true ↔ ∃ s a, T.spaces s = some a ∧ (i : Int) ∈ a.frames)
  disjoint : ∀ {s s' a a'}, T.spaces s = some a → T.spaces s' = some a' → s ≠ s' → ∀ p ∈ a.frames, p ∉ a'.frames
  nodup : ∀ {s a}, T.spaces s = some a → a.frames.Nodup
  range : ∀ {s a}, T.spaces s = some a → ∀ p ∈ a.frames, 0 ≤ p ∧ p < 256
  table : ∀ {s a}, T.spaces s = some a → a.numPages ≤ a.pageTable.length
  below : ∀ {s a}, T.spaces s = some a → s < T.nextSpace
  held : ∀ {t pr s}, T.procs t = some pr → pr.space = some s → s < T.nextSpace
  owner : ∀ {s a}, T.spaces s = some a → ∃ t pr, T.procs t = some pr ∧ pr.space = some s
  unique : ∀ {t u pr pu s}, T.procs t = some pr → T.procs u = some pu → pr.space = some s → pu.space = some s → t = u
  live : T.halted = false → ∀ {t pr s}, T.procs t = some pr → pr.space = some s → ∃ a, T.spaces s = some a
  fresh : ∀ {t pr}, T.procs t = some pr → pr.role = .fresh → pr.space = none
  tids : ∀ {t pr}, T.procs t = some pr → t < T.nextTid

namespace Table.Owned

variable {T : Table} {t : Tid} {pr : Proc} {a : AddrSpace} {space : Option SpaceId} {frames : BitMap}
  {spaces : SpaceId → Option AddrSpace} {n : Nat}

theorem go_on (h : T.Owned) (pr' : Proc) (ht : T.procs t = some pr) (hs : pr'.space = pr.space)
    (hr : pr'.role ≠ .fresh) : Owned { T with procs := update T.procs t (some pr') } := by
  -- every thread has the address space it had
  have back : ∀ {u pu}, update T.procs t (some pr') u = some pu →
      ∃ p0, T.procs u = some p0 ∧ p0.space = pu.space := by
    intro u pu hu
    rcases update_some_iff.mp hu with ⟨rfl, rfl⟩ | ⟨-, hu⟩
    · exact ⟨pr, ht, hs.symm⟩
    · exact ⟨pu, hu, rfl⟩
  refine { h with held := ?_, owner := ?_, unique := ?_, live := ?_, fresh := ?_, tids := ?_ }
  · intro u pu s hu hpu
    obtain ⟨p0, h1, h2⟩ := back hu
    exact h.held h1 (h2.trans hpu)
  · intro s a ha
    obtain ⟨u, pu, h1, h2⟩ := h.owner ha
    by_cases e : u = t
    · subst e
      cases h1.symm.trans ht
      exact ⟨u, pr', update_self .., hs.trans h2⟩
    · exact ⟨u, pu, update_some_iff.mpr (.inr ⟨e, h1⟩), h2⟩
  · intro u v pu pv s hu hv hpu hpv
    obtain ⟨p0, h1, h2⟩ := back hu
    obtain ⟨p1, h3, h4⟩ := back hv
    exact h.unique h1 h3 (h2.trans hpu) (h4.trans hpv)
  · intro hh u pu s hu hpu
    obtain ⟨p0, h1, h2⟩ := back hu
    exact h.live hh h1 (h2.trans hpu)
  · intro u pu hu hr'
    rcases update_some_iff.mp hu with ⟨rfl, rfl⟩ | ⟨-, hu⟩
    · exact absurd hr' hr
    · exact h.fresh hu hr'
  · intro u pu hu
    obtain ⟨p0, h1, -⟩ := back hu
    exact h.tids h1

theorem new_thread (h : T.Owned) {i : Nat} : Owned { T with
    procs := update T.procs T.nextTid (some ⟨i, none, .fresh⟩), nextTid := T.nextTid + 1 } := by
  have old : ∀ {u pu}, T.procs u = some pu →
      update T.procs T.nextTid (some ⟨i, none, .fresh⟩) u = some pu :=
    fun hu => update_some_iff.mpr (.inr ⟨Nat.ne_of_lt (h.tids hu), hu⟩)
  have back : ∀ {u pu s}, update T.procs T.nextTid (some ⟨i, none, .fresh⟩) u = some pu →
      pu.space = some s → T.procs u = some pu := by
    intro u pu s hu hs
    rcases update_some_iff.mp hu with ⟨-, rfl⟩ | ⟨-, hu⟩
    · cases hs
    · exact hu
  refine { h with held := ?_, owner := ?_, unique := ?_, live := ?_, fresh := ?_, tids := ?_ }
  · exact fun hu hs => h.held (back hu hs) hs
  · intro s a ha
    obtain ⟨u, pu, h1, h2⟩ := h.owner ha
    exact ⟨u, pu, old h1, h2⟩
  · exact fun hu hv hs hs' => h.unique (back hu hs) (back hv hs') hs hs'
  · exact fun hh _ _ _ hu hs => h.live hh (back hu hs) hs
  · intro u pu hu hr
    rcases update_some_iff.mp hu with ⟨-, rfl⟩ | ⟨-, hu⟩
    · rfl
    · exact h.fresh hu hr
  · intro u pu hu
    show u < T.nextTid + 1
    rcases update_some_iff.mp hu with ⟨rfl, -⟩ | ⟨-, hu⟩
    · exact Nat.lt_succ_self _
    · exact Nat.lt_succ_of_lt (h.tids hu)

/-- The destructor's ASSERTs pass. -/
theorem inRange (h : T.Owned) {s : SpaceId} (ha : T.spaces s = some a) : ∀ p ∈ a.frames, T.frames.inRange p := by
  intro p hp
  have := h.range ha p hp
  simp [BitMap.inRange, h.size, this]

/-- `FreeSpace` gives back the frames of one space and leaves the others theirs. -/
theorem free (h : T.Owned) (hf : Kernel.Freed T.frames T.spaces space frames spaces) : frames.numBits = 256 ∧
    (∀ {i : Nat}, i < 256 → (frames.bit i = true ↔ ∃ s a, spaces s = some a ∧ (i : Int) ∈ a.frames)) ∧
    ∀ {s a}, spaces s = some a ↔ T.spaces s = some a ∧ space ≠ some s := by
  cases hf with
  | none => exact ⟨h.size, h.exact, by simp⟩
  | @some s0 a0 frames' ha hd =>
    obtain ⟨bm, hbm, hsz, hb⟩ := destroy_eq (h.table ha) (h.inRange ha)
    cases hd.symm.trans hbm
    have hs : ∀ {s a}, update T.spaces s0 none s = some a ↔ T.spaces s = some a ∧ some s0 ≠ some s := by
      intro s a
      rw [update_none_iff]
      simp [and_comm, eq_comm]
    refine ⟨hsz.trans h.size, ?_, hs⟩
    intro i hi
    rw [hb, Bool.and_eq_true, Bool.not_eq_true', h.exact hi]
    constructor
    · intro h'
      obtain ⟨⟨s, a, h1, h2⟩, hni⟩ := h'
      refine ⟨s, a, hs.mpr ⟨h1, fun e => ?_⟩, h2⟩
      cases e
      cases h1.symm.trans ha
      simp [h2] at hni
    · intro h'
      obtain ⟨s, a, h1, h2⟩ := h'
      obtain ⟨h1, hne⟩ := hs.mp h1
      refine ⟨⟨s, a, h1, h2⟩, ?_⟩
      have := h.disjoint h1 ha (fun e => hne (congrArg some e.symm)) _ h2
      simpa using this

/-- The main process has freed its space and halted the machine. -/
theorem halt (h : T.Owned) (hf : Kernel.Freed T.frames T.spaces space frames spaces) :
    Owned { T with frames, spaces, halted := true } := by
  obtain ⟨hs, he, hsp⟩ := h.free hf
  refine { h with
    size := hs, exact := he, live := fun hh => (by cases hh)
    disjoint := fun h1 h2 => h.disjoint (hsp.mp h1).1 (hsp.mp h2).1
    nodup := fun h1 => h.nodup (hsp.mp h1).1
    range := fun h1 => h.range (hsp.mp h1).1
    table := fun h1 => h.table (hsp.mp h1).1
    below := fun h1 => h.below (hsp.mp h1).1
    owner := fun h1 => h.owner (hsp.mp h1).1 }

theorem leave (h : T.Owned) (ht : T.procs t = some pr) (hf : Kernel.Freed T.frames T.spaces pr.space frames spaces) :
    Owned { T with procs := update T.procs t none, frames, spaces } := by
  obtain ⟨hsz, he, hsp⟩ := h.free hf
  have back : ∀ {u pu}, update T.procs t none u = some pu → T.procs u = some pu :=
    fun hu => (update_none_iff.mp hu).2
  refine { h with
    size := hsz, exact := he
    disjoint := fun h1 h2 => h.disjoint (hsp.mp h1).1 (hsp.mp h2).1
    nodup := fun h1 => h.nodup (hsp.mp h1).1
    range := fun h1 => h.range (hsp.mp h1).1
    table := fun h1 => h.table (hsp.mp h1).1
    below := fun h1 => h.below (hsp.mp h1).1
    held := fun hu => h.held (back hu)
    owner := ?_
    unique := fun hu hv => h.unique (back hu) (back hv)
    live := ?_
    fresh := fun hu => h.fresh (back hu)
    tids := fun hu => h.tids (back hu) }
  · intro s a ha
    obtain ⟨h1, hne⟩ := hsp.mp ha
    obtain ⟨u, pu, h2, h3⟩ := h.owner h1
    refine ⟨u, pu, update_none_iff.mpr ⟨?_, h2⟩, h3⟩
    intro heq
    subst heq
    cases h2.symm.trans ht
    exact hne h3
  · intro hh u pu s hu hs
    obtain ⟨hut, hu⟩ := update_none_iff.mp hu
    obtain ⟨a, ha⟩ := h.live hh hu hs
    exact ⟨a, hsp.mpr ⟨ha, fun e => hut (h.unique hu ht hs e)⟩⟩

theorem fresh_frames (h : T.Owned) (hfr : a.frames = (T.frames.clearBits.take n).map Int.ofNat) :
    a.frames.Nodup ∧ (∀ p ∈ a.frames, 0 ≤ p ∧ p < 256) ∧
      ∀ {s a'}, T.spaces s = some a' → ∀ p ∈ a.frames, p ∉ a'.frames := by
  have hm : ∀ {p}, p ∈ a.frames → ∃ i : Nat, p = i ∧ i < 256 ∧ T.frames.bit i = false := by
    intro p hp
    rw [hfr, List.mem_map] at hp
    obtain ⟨i, hi, rfl⟩ := hp
    have := (T.frames.mem_clearBits i).mp (List.mem_of_mem_take hi)
    exact ⟨i, rfl, h.size ▸ this.1, this.2⟩
  refine ⟨?_, fun p hp => ?_, fun {s a'} ha' p hp hp' => ?_⟩
  · rw [hfr]
    exact ((T.frames.clearBits_nodup).sublist (List.take_sublist ..)).map (fun _ _ => Int.ofNat.inj)
  · obtain ⟨i, rfl, hi, -⟩ := hm hp
    omega
  · obtain ⟨i, rfl, hi, hb⟩ := hm hp
    cases hb.symm.trans ((h.exact hi).mpr ⟨s, a', ha', hp'⟩)

/-- A thread without an address space gets one that has taken clear frames. -/
theorem start (h : T.Owned) (ht : T.procs t = some pr) (hnn : pr.space = none)
    (hfr : a.frames = (T.frames.clearBits.take n).map Int.ofNat) (htb : a.numPages ≤ a.pageTable.length)
    (hsz : frames.numBits = T.frames.numBits)
    (hb : ∀ j, frames.bit j = (T.frames.bit j || (T.frames.clearBits.take n).contains j)) : Owned { T with
      frames, spaces := update T.spaces T.nextSpace (some a), nextSpace := T.nextSpace + 1
      procs := update T.procs t (some { pr with space := some T.nextSpace, role := .free }) } := by
  obtain ⟨hn, hrn, hnw⟩ := h.fresh_frames hfr
  have hc : ∀ i : Nat, (T.frames.clearBits.take n).contains i = true ↔ (i : Int) ∈ a.frames := by
    intro i
    rw [hfr, List.contains_iff_mem, List.mem_map]
    exact ⟨fun hi => ⟨i, hi, rfl⟩, fun ⟨j, hj, e⟩ => (Int.ofNat.inj e) ▸ hj⟩
  have hpr : ∀ {u pu s}, update T.procs t (some { pr with space := some T.nextSpace, role := .free }) u =
      some pu → pu.space = some s → (u = t ∧ s = T.nextSpace) ∨ (u ≠ t ∧ T.procs u = some pu ∧ s < T.nextSpace) := by
    intro u pu s hu hs
    rcases update_some_iff.mp hu with ⟨rfl, rfl⟩ | ⟨hut, hu⟩
    · cases hs; exact .inl ⟨rfl, rfl⟩
    · exact .inr ⟨hut, hu, h.held hu hs⟩
  refine
    { size := hsz.trans h.size, exact := ?_, disjoint := ?_, nodup := ?_, range := ?_, table := ?_, below := ?_,
      held := ?_, owner := ?_, unique := ?_, live := ?_, fresh := ?_, tids := ?_ }
  · intro i hi
    rw [hb, Bool.or_eq_true, h.exact hi, hc]
    constructor
    · intro h'
      rcases h' with ⟨s, a', h1, h2⟩ | h2
      · exact ⟨s, a', update_some_iff.mpr (.inr ⟨Nat.ne_of_lt (h.below h1), h1⟩), h2⟩
      · exact ⟨T.nextSpace, a, update_self .., h2⟩
    · intro h'
      obtain ⟨s, a', h1, h2⟩ := h'
      rcases update_some_iff.mp h1 with ⟨-, rfl⟩ | ⟨-, h1⟩
      · exact .inr h2
      · exact .inl ⟨s, a', h1, h2⟩
  · intro s s' a1 a2 h1 h2 hne p hp hp'
    rcases update_some_iff.mp h1 with ⟨rfl, rfl⟩ | ⟨-, h1⟩
    · rcases update_some_iff.mp h2 with ⟨rfl, -⟩ | ⟨-, h2⟩
      · exact hne rfl
      · exact hnw h2 p hp hp'
    · rcases update_some_iff.mp h2 with ⟨-, rfl⟩ | ⟨-, h2⟩
      · exact hnw h1 p hp' hp
      · exact h.disjoint h1 h2 hne p hp hp'
  · intro s a' h1
    rcases update_some_iff.mp h1 with ⟨-, rfl⟩ | ⟨-, h1⟩
    · exact hn
    · exact h.nodup h1
  · intro s a' h1 p hp
    rcases update_some_iff.mp h1 with ⟨-, rfl⟩ | ⟨-, h1⟩
    · exact hrn p hp
    · exact h.range h1 p hp
  · intro s a' h1
    rcases update_some_iff.mp h1 with ⟨-, rfl⟩ | ⟨-, h1⟩
    · exact htb
    · exact h.table h1
  · intro s a' h1
    show s < T.nextSpace + 1
    rcases update_some_iff.mp h1 with ⟨rfl, -⟩ | ⟨-, h1⟩
    · exact Nat.lt_succ_self _
    · exact Nat.lt_succ_of_lt (h.below h1)
  · intro u pu s hu hs
    show s < T.nextSpace + 1
    rcases hpr hu hs with ⟨-, rfl⟩ | ⟨-, -, hlt⟩
    · exact Nat.lt_succ_self _
    · exact Nat.lt_succ_of_lt hlt
  · intro s a' h1
    rcases update_some_iff.mp h1 with ⟨rfl, -⟩ | ⟨-, h1⟩
    · exact ⟨t, _, update_self .., rfl⟩
    obtain ⟨u, pu, h2, h3⟩ := h.owner h1
    refine ⟨u, pu, update_some_iff.mpr (.inr ⟨?_, h2⟩), h3⟩
    intro heq
    subst heq
    cases h2.symm.trans ht
    cases hnn.symm.trans h3
  · intro u v pu pv s hu hv hs hs'
    rcases hpr hu hs with ⟨rfl, rfl⟩ | ⟨-, hu, hlt⟩
    · rcases hpr hv hs' with ⟨rfl, -⟩ | ⟨-, -, hlt⟩
      · rfl
      · exact absurd hlt (Nat.lt_irrefl _)
    · rcases hpr hv hs' with ⟨-, rfl⟩ | ⟨-, hv, -⟩
      · exact absurd hlt (Nat.lt_irrefl _)
      · exact h.unique hu hv hs hs'
  · intro hh u pu s hu hs
    rcases hpr hu hs with ⟨-, rfl⟩ | ⟨-, hu, hlt⟩
    · exact ⟨a, update_self ..⟩
    · obtain ⟨a', ha'⟩ := h.live hh hu hs
      exact ⟨a', update_some_iff.mpr (.inr ⟨Nat.ne_of_lt hlt, ha'⟩)⟩
  · intro u pu hu hr
    rcases update_some_iff.mp hu with ⟨-, rfl⟩ | ⟨-, hu⟩
    · cases hr
    · exact h.fresh hu hr
  · intro u pu hu
    rcases update_some_iff.mp hu with ⟨rfl, -⟩ | ⟨-, hu⟩
    · exact h.tids ht
    · exact h.tids hu

end Table.Owned

namespace Kernel

variable {bigEndian : Bool} {k : Kernel} {e : Event} {T : Table}

/-- `fileSystem->Open` finds the executable of every address space. -/
def opensOk (_ : Kernel) : Event → Bool
  | .start _ _ executable _ _ => executable.isSome
  | _ => true

theorem effect_owned (h : k.table.Owned) (hok : k.opensOk e) (he : Effect bigEndian k e T) : T.Owned := by
  cases he with
  | quiet => exact h
  | leak => exact { h with size := h.size }
  | @reserve th _ _ i _ ht hpc hc hrj =>
    have h1 := h.go_on { th.proc with role := .forking i k.nextPtr } (table_procs ht) rfl (fun hr => by cases hr)
    exact { h1 with size := h.size }
  | @fork th i p b ht hpc hb =>
    have hne : e.tid ≠ k.nextTid := Nat.ne_of_lt (h.tids (table_procs ht))
    have h1 := (h.go_on { th.proc with role := .free } (table_procs ht) rfl (fun hr => by cases hr)).new_thread (i := i)
    rw [update_comm hne.symm]
    exact { h1 with size := h.size }
  | exits ht => exact h.go_on _ (table_procs ht) rfl (fun hr => by cases hr)
  | counted ht => exact h.go_on _ (table_procs ht) rfl (fun hr => by cases hr)
  | remove hcn ht hpc hlt hq hb hf =>
    have h1 := h.leave (table_procs ht) hf
    exact { h1 with size := h1.size }
  | finish ht hcs hf =>
    have h1 := h.leave (table_procs ht) hf
    exact { h1 with size := h1.size }
  | halt ht hf =>
    rcases hf with hf | ⟨rfl, rfl⟩
    · exact h.halt hf
    · exact h.halt .none
  | @start th c executable junk stack b ht hpc he hb hen =>
    obtain ⟨f, rfl⟩ : ∃ f, executable = some f := by
      rw [he] at hok
      exact Option.isSome_iff_exists.mp hok
    obtain ⟨n, -, hfr, htb, hs, hbt⟩ := construct_takes hb hen
    exact h.start (table_procs ht) (h.fresh (table_procs ht) (by simp [Thread.proc, hpc, Pc.role])) hfr htb hs hbt

theorem initial_owned (g g' : Nat → Word) : (initial g g').table.Owned := by
  have hn : ∀ {t pr s}, (initial g g').table.procs t = some pr → pr.space ≠ some s := by
    intro t pr s h hs
    rw [(initial_procs h).2] at hs
    cases hs
  refine
    { size := BitMap.numBits_new 256 g', exact := ?_, disjoint := fun h => (by cases h), nodup := fun h => (by cases h),
      range := fun h => (by cases h), table := fun h => (by cases h), below := fun h => (by cases h),
      held := fun h hs => absurd hs (hn h), owner := fun h => (by cases h),
      unique := fun h _ hs => absurd hs (hn h), live := fun _ _ _ _ h hs => absurd hs (hn h),
      fresh := fun h _ => (by rw [(initial_procs h).2]), tids := fun h => (by rw [(initial_procs h).1]; exact Nat.one_pos) }
  intro i hi
  have hf : (initial g g').table.frames = BitMap.new 256 g' := by
    simp only [initial, table, Nachos.gPhysPageBitMap]
  rw [hf, BitMap.bit_new 256 g' hi]
  constructor
  · intro h
    cases h
  · intro h'
    obtain ⟨_, _, h, _⟩ := h'
    cases h

theorem reach_owned (h : Reach (step bigEndian) (opensOk · ·) Init k) : k.table.Owned :=
  h.inv (P := fun k => k.table.Owned) (by rintro _ ⟨g, g', rfl⟩; exact initial_owned g g')
    fun _ _ _ hs hok hst => effect_owned hs hok (step_effect hst)

/-- The page bitmap is the disjoint union of the live spaces' frames. -/
structure FramesOwned (k : Kernel) : Prop where
  bits : ∀ i < 256, k.gPhysPageBitMap.bit i = true ↔ ∃ s a, k.spaces s = some a ∧ (i : Int) ∈ a.frames
  disjoint : ∀ s s' a a', k.spaces s = some a → k.spaces s' = some a' → s ≠ s' → ∀ p ∈ a.frames, p ∉ a'.frames
  once : ∀ s a, k.spaces s = some a → a.frames.Nodup ∧ a.frames.length = a.numPages
  range : ∀ s a, k.spaces s = some a → ∀ p ∈ a.frames, 0 ≤ p ∧ p < 256
  /-- A live space is the space of one live thread. -/
  owner : ∀ s a, k.spaces s = some a → ∃! t, ∃ th, k.threads t = some th ∧ th.space = some s
  /-- `FreeSpace` of a live thread deletes a live space, and its ASSERTs pass. -/
  freed : k.halted = false → ∀ t th s, k.threads t = some th → th.space = some s →
    ∃ a bm, k.spaces s = some a ∧ a.destroy k.gPhysPageBitMap = .ok bm

/-- In every run in which each address space finds its executable, whatever it holds, the
    frames in use are exactly those of the live address spaces. -/
theorem frames_owned (h : Reach (step bigEndian) (opensOk · ·) Init k) : k.FramesOwned := by
  have ho := reach_owned h
  refine ⟨fun i hi => ho.exact hi, fun s s' a a' h1 h2 => ho.disjoint h1 h2, fun s a h1 => ⟨ho.nodup h1, ?_⟩,
    fun s a h1 => ho.range h1, fun s a h1 => ?_, fun hh t th s ht hs => ?_⟩
  · have hle : a.numPages ≤ a.pageTable.length := ho.table h1
    simp [AddrSpace.frames, hle]
  · obtain ⟨t, pr, ht, hs⟩ := ho.owner h1
    obtain ⟨th, hth, rfl⟩ := procs_eq_some.mp ht
    exact ⟨t, ⟨th, hth, hs⟩, fun u ⟨thu, hu, hsu⟩ => ho.unique (table_procs hu) ht hsu hs⟩
  · obtain ⟨a, ha⟩ := ho.live hh (table_procs ht) hs
    obtain ⟨bm, hbm, -⟩ := destroy_eq (ho.table ha) (ho.inRange ha)
    exact ⟨a, bm, ha, hbm⟩

/-- The main program and its child, both loaded, own the frames 0 to 5. -/
theorem two_programs_own_frames : ∃ k, Reach (step false) (opensOk · ·) Init k ∧ k.FramesOwned ∧
    (k.spaces 0).map (·.frames) = some [0, 1, 2] ∧ (k.spaces 1).map (·.frames) = some [3, 4, 5] := by
  obtain ⟨k, hk, htest⟩ := exists_reach (step false) opensOk (s := booted) (starts 0 :: execs 0 "ping" ++ [starts 1])
    (fun k => (k.spaces 0).map (·.frames) == some [0, 1, 2] && (k.spaces 1).map (·.frames) == some [3, 4, 5])
    booted_init (by decide +kernel)
  simp only [Bool.and_eq_true, beq_iff_eq] at htest
  exact ⟨k, hk, frames_owned hk, htest.1, htest.2⟩

/-- The child's file does not open, and its `AddrSpace` is left with a page table found in
    memory that names frame 0, which the main program owns. -/
theorem failed_open_shares_frame : ∃ k, Reach (step false) (fun _ _ => True) Init k ∧
    (k.spaces 0).map (·.frames) = some [0, 1, 2] ∧ (k.spaces 1).map (·.frames) = some [0] ∧ ¬ k.FramesOwned := by
  obtain ⟨k, hk, htest⟩ := exists_reach (step false) (fun _ _ => true) (s := booted)
    (starts 0 :: execs 0 "ping" ++ [.start 1 .ofFilename none ⟨[freshEntry 0 0], 1⟩ fun _ => 0])
    (fun k => (k.spaces 0).map (·.frames) == some [0, 1, 2] && (k.spaces 1).map (·.frames) == some [0])
    booted_init (by decide +kernel)
  simp only [Bool.and_eq_true, beq_iff_eq] at htest
  refine ⟨k, hk.mono fun _ _ _ => trivial, htest.1, htest.2, fun hown => ?_⟩
  obtain ⟨a, ha, hfa⟩ := Option.map_eq_some_iff.mp htest.1
  obtain ⟨a', ha', hfa'⟩ := Option.map_eq_some_iff.mp htest.2
  exact hown.disjoint 0 1 a a' ha ha' (by decide) 0 (by rw [hfa]; decide) (by rw [hfa']; decide)

end Kernel

end Nachos

/-
  Nachos.Userprog.Parents — the process tree: `parentID` over whole runs.

  `ExitUpdate` and `JoinUpdate` follow `pcb[pcb[id]->parentID]` without a check.
  - `parents_stay_valid`: as long as no process is removed before its children, that slot
    holds the process that executed this one, also while `DecNumWait` sleeps in it;
  - `orphan_names_dead_slot`: nothing in `ExitUpdate` waits for children.
-/

import Nachos.Userprog.Slots

namespace Nachos

open Kernel (mainTid)
open Function (update)

/-- The slot `parentID` names is the creator's, and a leaving process keeps a pointer to it. -/
structure Table.Parents (T : Table) : Prop where
  link : ∀ {i q b}, i ≠ 0 → T.pcb i = some q → T.live q = some b → ∃ p c, 0 ≤ b.parentID ∧
    T.pcb b.parentID.toNat = some p ∧ T.live p = some c ∧
    (c.thread = some b.creator ∨ (b.parentID = 0 ∧ b.creator = mainTid))
  kept : ∀ {t pr p}, T.procs t = some pr → pr.role = .exiting (some p) → ∃ q b, T.pcb pr.processID = some q ∧
    T.live q = some b ∧ 0 ≤ b.parentID ∧ T.pcb b.parentID.toNat = some p

namespace Kernel

open Lib

variable {bigEndian : Bool} {k k' : Kernel} {e : Event} {T : Table} {t : Tid} {th : Thread} {i : Nat} {b : PCB}

/-- A process is removed only when no live process names it as its parent. -/
def orphansNobody (k : Kernel) : Event → Bool
  | .cont t =>
    match k.threads t with
    | some th =>
      th.pc != .exitRemove ||
        (List.range maxProcess).all fun i => (k.liveAt i).all fun b => b.parentID != (th.processID : Int)
    | none => true
  | _ => true

theorem orphansNobody_spec (hok : k.orphansNobody (.cont t)) (ht : k.threads t = some th) (hpc : th.pc = .exitRemove)
    (hi : i < maxProcess) (hb : k.liveAt i = some b) : b.parentID ≠ th.processID := by
  simp only [orphansNobody, ht, hpc, bne_self_eq_false, Bool.false_or, List.all_eq_true, List.mem_range] at hok
  have := hok i hi
  rw [hb] at this
  simpa using this

theorem reserve_parents (hl : k.table.Links) (h : k.table.Parents) {r : List Nat} (ht : k.threads t = some th)
    (hc : k.bm.clearBits = i :: r) : Table.Parents { k.table with
      bm := k.bm.markBit i
      pcb := update k.pcb i (some k.nextPtr)
      live := update k.table.live k.nextPtr (some ⟨none, th.processID, t⟩)
      nextPtr := k.nextPtr + 1
      procs := update k.table.procs t (some { th.proc with role := .forking i k.nextPtr }) } := by
  obtain ⟨-, -, hf⟩ := hl.free_slot hc
  have keep := fun {j q c} => hl.kept_by_new (j := j) (q := q) (c := c) hf ⟨none, th.processID, t⟩
  constructor
  · intro j q b hj hq hb
    rcases update_some_iff.mp hb with ⟨rfl, rfl⟩ | ⟨hne, hb⟩
    · obtain ⟨p, c, h1, h2, h3⟩ := hl.mine (table_procs ht)
      refine ⟨p, c, Int.natCast_nonneg _, (keep h1 h2).1, (keep h1 h2).2, ?_⟩
      exact h3.imp id fun h => ⟨congrArg Int.ofNat h.1, h.2⟩
    · rcases update_some_iff.mp hq with ⟨-, e⟩ | ⟨-, hq⟩
      · exact absurd e.symm hne
      · obtain ⟨p, c, h0, h1, h2, h3⟩ := h.link hj hq hb
        exact ⟨p, c, h0, (keep h1 h2).1, (keep h1 h2).2, h3⟩
  · intro u pu p hu hr
    rcases update_some_iff.mp hu with ⟨-, rfl⟩ | ⟨-, hu⟩
    · cases hr
    obtain ⟨q, b, h1, h2, h3, h4⟩ := h.kept hu hr
    -- the parent's slot is not the free one: it holds a live PCB
    obtain ⟨p', c, -, h5, h6, -⟩ := h.link (hl.exiting hu hr) h1 h2
    cases h4.symm.trans h5
    exact ⟨q, b, (keep h1 h2).1, (keep h1 h2).2, h3, (keep h5 h6).1⟩

theorem fork_parents (hl : k.table.Links) (h : k.table.Parents) {p : Ptr} (ht : k.threads t = some th)
    (hpc : th.pc = .execFork i p) (hb : k.heap p = some b) : Table.Parents { k.table with
      live := update k.table.live p (some ⟨some k.nextTid, th.processID, b.creator⟩)
      procs := update (update k.table.procs k.nextTid (some ⟨i, none, .fresh⟩)) t
        (some { th.proc with role := .free })
      nextTid := k.nextTid + 1 } := by
  have hrl : th.proc.role = .forking i p := by simp [Thread.proc, hpc, Pc.role]
  obtain ⟨h0, hp, c, hc, hn, hcr⟩ := hl.forking (table_procs ht) hrl
  cases hc.symm.trans (table_live hb)
  -- the PCB of a process is not the one without a thread
  have other : ∀ {q c}, q ≠ p → k.table.live q = some c →
      update k.table.live p (some ⟨some k.nextTid, (th.processID : Int), b.creator⟩) q = some c :=
    fun hq hc => update_some_iff.mpr (.inr ⟨hq, hc⟩)
  have ne_root : ∀ {q}, k.pcb 0 = some q → q ≠ p := by
    intro q hq heq
    subst heq
    exact h0 (hl.inj hp hq)
  have ne_thread : ∀ {q c u}, k.table.live q = some c → c.thread = some u → q ≠ p := by
    intro q c u hc' hu heq
    subst heq
    cases hc.symm.trans hc'
    cases hn.symm.trans hu
  constructor
  · intro j q c hj hq hlv
    rcases update_some_iff.mp hlv with ⟨rfl, rfl⟩ | ⟨-, hlv⟩
    · obtain ⟨q', c', h1, h2, h3⟩ := hl.mine (table_procs ht)
      have hne : q' ≠ q := by
        rcases h3 with h3 | ⟨hz, -⟩
        · exact ne_thread h2 h3
        · exact ne_root (hz ▸ h1)
      refine ⟨q', c', Int.natCast_nonneg _, h1, other hne h2, ?_⟩
      rw [show b.creator = t from hcr]
      exact h3.imp id fun h => ⟨congrArg Int.ofNat h.1, h.2⟩
    · obtain ⟨p', c', hps, h1, h2, h3⟩ := h.link hj hq hlv
      refine ⟨p', c', hps, h1, other ?_ h2, h3⟩
      rcases h3 with h3 | ⟨hz, -⟩
      · exact ne_thread h2 h3
      · rw [hz] at h1; exact ne_root h1
  · intro u pu p' hu hr
    rcases update_some_iff.mp hu with ⟨-, rfl⟩ | ⟨-, hu⟩
    · cases hr
    rcases update_some_iff.mp hu with ⟨-, rfl⟩ | ⟨-, hu⟩
    · cases hr
    obtain ⟨q, c, h1, h2, h3, h4⟩ := h.kept hu hr
    obtain ⟨-, q', c', h5, h6, h7⟩ := hl.own hu (hl.ne_main hu hr)
    cases h1.symm.trans h5
    cases h2.symm.trans h6
    exact ⟨q, c, h1, other (ne_thread h2 h7) h2, h3, h4⟩

/-- A process that nobody names as parent is removed. -/
theorem remove_parents (hl : k.table.Links) (h : k.table.Parents) {q : Ptr} (ht : k.threads t = some th)
    (hq : k.pcb th.processID = some q) (hb : k.heap q = some b)
    (hno : ∀ {i c}, i < maxProcess → k.liveAt i = some c → c.parentID ≠ th.processID) : Table.Parents { k.table with
      bm := k.bm.clearBit th.processID
      live := update k.table.live q none
      procs := update k.table.procs t none } := by
  constructor
  · intro j q' c hj hq' hc
    obtain ⟨-, hlv⟩ := update_none_iff.mp hc
    obtain ⟨p, c', hp, h1, h2, h3⟩ := h.link hj hq' hlv
    refine ⟨p, c', hp, h1, update_none_iff.mpr ⟨?_, h2⟩, h3⟩
    intro heq
    subst heq
    obtain ⟨b', hb', rfl⟩ := live_eq_some.mp hlv
    have hs : b'.parentID.toNat = th.processID := hl.inj h1 hq
    have hp' : 0 ≤ b'.parentID := hp
    exact hno (hl.marked hq' hlv).1 (liveAt_eq_some.mpr ⟨q', hq', hb'⟩) (by omega)
  · intro u pu p hu hr
    obtain ⟨hut, hu⟩ := update_none_iff.mp hu
    obtain ⟨q', c, h1, h2, h3, h4⟩ := h.kept hu hr
    refine ⟨q', c, h1, update_none_iff.mpr ⟨fun e => ?_, h2⟩, h3, h4⟩
    exact hut (hl.distinct hu (table_procs ht) (hl.inj (e ▸ h1) hq))

/-- A thread that is not in `DecNumWait` afterwards keeps no pointer. -/
theorem go_on_parents (h : T.Parents) (pr' : Proc)
    (hk : ∀ p, pr'.role = .exiting (some p) → ∃ q b, T.pcb pr'.processID = some q ∧ T.live q = some b ∧
      0 ≤ b.parentID ∧ T.pcb b.parentID.toNat = some p) :
    Table.Parents { T with procs := update T.procs t (some pr') } := by
  refine ⟨h.link, ?_⟩
  intro u pu p hu hr
  rcases update_some_iff.mp hu with ⟨-, rfl⟩ | ⟨-, hu⟩
  · exact hk p hr
  · exact h.kept hu hr

theorem effect_parents (hl : k.table.Links) (h : k.table.Parents) (hok : k.orphansNobody e)
    (he : Effect bigEndian k e T) : T.Parents := by
  cases he with
  | quiet => exact h
  | leak | halt => exact ⟨h.link, h.kept⟩
  | reserve ht hpc hc hrj => exact reserve_parents hl h ht hc
  | fork ht hpc hb => exact fork_parents hl h ht hpc hb
  | @exits th q p b ht hpc h0 hq hb hps hp hlv =>
    refine go_on_parents h _ fun p' hr => ?_
    cases hr
    exact ⟨q, b.ident, hq, table_live hb, hps, hp⟩
  | counted ht hpc => exact go_on_parents h _ fun p hr => by cases hr
  | @remove th q b _ _ hcn ht hpc hlt hq hb hf =>
    rw [hcn] at hok
    have h1 := remove_parents hl h ht hq hb (orphansNobody_spec hok ht hpc)
    exact ⟨h1.link, h1.kept⟩
  | finish ht hcs hf => exact absurd hcs (process_found hl ht)
  | @start th _ _ _ _ _ ht hpc he hb hen =>
    have h1 := go_on_parents (t := e.tid) h ⟨th.processID, some k.nextSpace, .free⟩ fun p hr => by cases hr
    exact ⟨h1.link, h1.kept⟩

/-- The slot a process names as its parent's holds the PCB of the process that executed
    it; while it sleeps or works in `DecNumWait`, it does so in that PCB. -/
structure ParentsValid (k : Kernel) : Prop where
  parent : ∀ i b, i ≠ 0 → k.liveAt i = some b → ∃ p c, k.slot b.parentID = .ok (p, c) ∧
    (c.thread = some b.creator ∨ (b.parentID = 0 ∧ b.creator = mainTid))
  kept : ∀ t th p, k.threads t = some th → th.pc = .exitP p ∨ th.pc = .exitDec p →
    ∃ b c, k.liveAt th.processID = some b ∧ k.slot b.parentID = .ok (p, c)

theorem initial_parents (g g' : Nat → Word) : (initial g g').table.Parents := by
  constructor
  · intro i q b hi hq
    simp [initial, table, hi] at hq
  · intro t pr p ht hr
    rw [(initial_procs ht).2] at hr
    cases hr

theorem reach_parents (h : Reach (step bigEndian) (orphansNobody · ·) Init k) : k.table.Links ∧ k.table.Parents := by
  refine h.inv (P := fun k => k.table.Links ∧ k.table.Parents) ?_ ?_
  · intro _ h'
    obtain ⟨g, g', rfl⟩ := h'
    exact ⟨initial_links g g', initial_parents g g'⟩
  · intro s e s' h' hok hst
    obtain ⟨hl, hx⟩ := h'
    exact ⟨effect_links hl (step_effect hst), effect_parents hl hx hok (step_effect hst)⟩

/-- In every run in which each process is removed after its children, the parent links
    are right in every state. -/
theorem parents_stay_valid (h : Reach (step bigEndian) (orphansNobody · ·) Init k) : k.ParentsValid := by
  obtain ⟨hl, hp⟩ := reach_parents h
  have slot : ∀ {i b}, i ≠ 0 → k.liveAt i = some b → ∃ p c, k.slot b.parentID = .ok (p, c) ∧
      (c.thread = some b.creator ∨ (b.parentID = 0 ∧ b.creator = mainTid)) := by
    intro i b hi hb
    obtain ⟨q, h1, h2⟩ := liveAt_eq_some.mp hb
    obtain ⟨p, c, hpos, h3, h4, h5⟩ := hp.link hi h1 (table_live h2)
    have hpos' : 0 ≤ b.parentID := hpos
    have hlt : b.parentID.toNat < maxProcess := (hl.marked h3 h4).1
    obtain ⟨c', hc', rfl⟩ := live_eq_some.mp h4
    exact ⟨p, c', slot_ok.mpr ⟨⟨hpos, by omega⟩, h3, hc'⟩, h5⟩
  refine ⟨fun i b hi hb => slot hi hb, fun t th p ht hpc => ?_⟩
  have hrole : th.proc.role = .exiting (some p) := by
    rcases hpc with hpc | hpc <;> simp [Thread.proc, hpc, Pc.role]
  obtain ⟨q, c, h1, h2, -, h4⟩ := hp.kept (table_procs ht) hrole
  obtain ⟨b, hb, rfl⟩ := live_eq_some.mp h2
  have hlive : k.liveAt th.processID = some b := liveAt_eq_some.mpr ⟨q, h1, hb⟩
  obtain ⟨p', c', h5, -⟩ := slot (hl.exiting (table_procs ht) hrole) hlive
  cases (slot_ok.mp h5).2.1.symm.trans h4
  exact ⟨b, c', hlive, h5⟩

/-- The main process executes 1 and 2 and joins 1. With 1 removed, 2 still names slot 0, which is
    the main process's. -/
theorem sibling_names_main : ∃ k, Reach (step false) (orphansNobody · ·) Init k ∧
    k.liveAt 1 = none ∧ (k.liveAt 2).any (·.parentID == 0) = true ∧ k.ParentsValid := by
  obtain ⟨k, hk, htest⟩ := exists_reach (step false) orphansNobody (s := booted)
    (starts 0 :: execs 0 "ping" ++ starts 1 :: execs 0 "pong" ++
      [.exit 1 0, .cont 1, .cont 1, .cont 1, .join 0 1, .cont 0, .cont 0, .cont 0, .cont 1, .cont 1])
    (fun k => k.liveAt 1 == none && (k.liveAt 2).any (·.parentID == 0)) booted_init (by decide +kernel)
  simp only [Bool.and_eq_true, beq_iff_eq] at htest
  exact ⟨k, hk, htest.1, htest.2, parents_stay_valid hk⟩

/-- The main process executes 1, and 1 executes 2 and exits. Main joins 1, 1 is removed,
    and the live process 2 names slot 1, which holds no live PCB. -/
theorem orphan_names_dead_slot : ∃ k, Reach (step false) (fun _ _ => True) Init k ∧
    (k.liveAt 2).any (·.parentID == 1) = true ∧ k.liveAt 1 = none ∧ ¬ k.ParentsValid := by
  obtain ⟨k, hk, htest⟩ := exists_reach (step false) (fun _ _ => true) (s := booted)
    (starts 0 :: execs 0 "ping" ++ starts 1 :: execs 1 "pong" ++
      [.exit 1 0, .cont 1, .cont 1, .cont 1, .join 0 1, .cont 0, .cont 0, .cont 0, .cont 1, .cont 1])
    (fun k => (k.liveAt 2).any (·.parentID == 1) && k.liveAt 1 == none) booted_init (by decide +kernel)
  simp only [Bool.and_eq_true, beq_iff_eq] at htest
  refine ⟨k, hk.mono fun _ _ _ => trivial, htest.1, htest.2, fun hv => ?_⟩
  obtain ⟨b, hb, hpar⟩ := (Option.any_eq_true ..).mp htest.1
  obtain ⟨p, c, hslot, -⟩ := hv.parent 2 b (by decide) hb
  obtain ⟨-, hp, hc⟩ := slot_ok.mp hslot
  rw [beq_iff_eq.mp hpar] at hp
  cases htest.2.symm.trans (liveAt_eq_some.mpr ⟨p, hp, hc⟩)

end Kernel

end Nachos

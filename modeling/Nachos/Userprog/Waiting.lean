/-
  Nachos.Userprog.Waiting — `numwait`, "the total number of waiting process" (`pcb.h`).

  `JoinUpdate` increments the caller's `numwait`, and every `ExitUpdate` decrements the
  parent's if it is not 0, joined or not.
  - `numwait_exact`: as long as every `Join` counts a child that has not exited yet and
    no child exits while its parent waits for another one, `numwait` is the number of
    `Join` calls under way whose child has not exited, and 0 outside `Join`.

  `Kin` says where a leaving process finds its parent while the parent lives, and
  `step_tally` what a step does to the counters and to the places they depend on.
-/

import Nachos.Userprog.JoinSafety

namespace Nachos

open Kernel (mainTid)
open Function (update update_of_ne update_self)
open Lib

/-! ## The parent of a process, while it lives -/

/-- `parentID` is the number of the process's creator, and `DecNumWait` works on the
    creator's PCB. -/
structure Table.Kin (T : Table) : Prop where
  known : ∀ {q b}, T.live q = some b → b.creator < T.nextTid
  link : ∀ {q b y}, q ≠ 0 → T.live q = some b → T.procs b.creator = some y → b.parentID = y.processID
  kept : ∀ {t pr p q b y}, T.procs t = some pr → pr.role = .exiting (some p) → T.pcb pr.processID = some q →
    T.live q = some b → T.procs b.creator = some y → T.pcb y.processID = some p

namespace Table.Kin

variable {T : Table} {t : Tid} {pr : Proc}

theorem go_on (h : T.Kin) (pr' : Proc) (ht : T.procs t = some pr) (hid : pr'.processID = pr.processID)
    (hk : ∀ {p q b y}, pr'.role = .exiting (some p) → T.pcb pr.processID = some q → T.live q = some b →
      T.procs b.creator = some y → T.pcb y.processID = some p) :
    Kin { T with procs := update T.procs t (some pr') } := by
  have back : ∀ {u y'}, update T.procs t (some pr') u = some y' →
      ∃ y, T.procs u = some y ∧ y'.processID = y.processID := by
    intro u y' hu
    rcases update_some_iff.mp hu with ⟨rfl, rfl⟩ | ⟨-, hu⟩
    · exact ⟨pr, ht, hid⟩
    · exact ⟨y', hu, rfl⟩
  refine ⟨h.known, fun hq hb hy => ?_, fun hu hr hq hb hy => ?_⟩
  · obtain ⟨y, hy, e⟩ := back hy
    rw [e]
    exact h.link hq hb hy
  · obtain ⟨y, hy, e⟩ := back hy
    rw [e]
    rcases update_some_iff.mp hu with ⟨-, rfl⟩ | ⟨-, hu⟩
    · exact hk hr (hid ▸ hq) hb hy
    · exact h.kept hu hr hq hb hy

end Table.Kin

namespace Kernel

variable {bigEndian : Bool} {k k' : Kernel} {e : Event} {T : Table} {t : Tid} {th : Thread} {p : Ptr}

theorem reserve_kin (hl : k.table.Links) (h : k.table.Kin) {i : Nat} {r : List Nat}
    (ht : k.threads t = some th) (hc : k.bm.clearBits = i :: r) :
    Table.Kin { k.table with
      bm := k.bm.markBit i
      pcb := update k.pcb i (some k.nextPtr)
      live := update k.table.live k.nextPtr (some ⟨none, th.processID, t⟩)
      nextPtr := k.nextPtr + 1 } := by
  obtain ⟨-, -, hf⟩ := hl.free_slot hc
  refine ⟨fun hb => ?_, fun hq hb hy => ?_, fun {u pu p q b y} hu hr hq hb hy => ?_⟩
  · rcases update_some_iff.mp hb with ⟨-, rfl⟩ | ⟨-, hb⟩
    · exact hl.tids (table_procs ht)
    · exact h.known hb
  · rcases update_some_iff.mp hb with ⟨-, rfl⟩ | ⟨-, hb⟩
    · cases hy.symm.trans (table_procs ht)
      rfl
    · exact h.link hq hb hy
  · -- the slot of a live thread is not the free one
    have keep : ∀ {u pu}, k.table.procs u = some pu →
        update k.pcb i (some k.nextPtr) pu.processID = k.pcb pu.processID := by
      intro u pu hu
      obtain ⟨q, c, h1, h2, -⟩ := hl.mine hu
      exact update_of_ne (fun heq => hf (heq ▸ h1) h2) ..
    have hq : k.pcb pu.processID = some q := (keep hu).symm.trans hq
    rcases update_some_iff.mp hb with ⟨rfl, -⟩ | ⟨-, hb⟩
    · exact absurd (hl.ptrs hq) (Nat.lt_irrefl _)
    · exact (keep hy).trans (h.kept hu hr hq hb hy)

theorem fork_kin (hl : k.table.Links) (h : k.table.Kin) {i : Nat} {b : PCB} (ht : k.threads t = some th)
    (hpc : th.pc = .execFork i p) (hb : k.heap p = some b) :
    Table.Kin { k.table with
      live := update k.table.live p (some ⟨some k.nextTid, th.processID, b.creator⟩)
      procs := update k.table.procs k.nextTid (some ⟨i, none, .fresh⟩)
      nextTid := k.nextTid + 1 } := by
  have hrl : th.proc.role = .forking i p := by simp [Thread.proc, hpc, Pc.role]
  obtain ⟨-, -, c, hc, -, hcr⟩ := hl.forking (table_procs ht) hrl
  cases hc.symm.trans (table_live hb)
  -- a PCB keeps its creator, which is not the new thread
  have back : ∀ {q c'}, update k.table.live p (some ⟨some k.nextTid, (th.processID : Int), b.creator⟩) q =
      some c' → ∃ c, k.table.live q = some c ∧ c'.creator = c.creator ∧
        (c' = c ∨ (c'.parentID = th.processID ∧ c.creator = t)) := by
    intro q c' hc'
    rcases update_some_iff.mp hc' with ⟨rfl, rfl⟩ | ⟨-, hc'⟩
    · exact ⟨_, hc, rfl, .inr ⟨rfl, hcr⟩⟩
    · exact ⟨c', hc', rfl, .inl rfl⟩
  have old : ∀ {q c y}, k.table.live q = some c →
      update k.table.procs k.nextTid (some ⟨i, none, .fresh⟩) c.creator = some y →
      k.table.procs c.creator = some y := by
    intro q c y hc hy
    rcases update_some_iff.mp hy with ⟨e', -⟩ | ⟨-, hy⟩
    · exact absurd (h.known hc) (by rw [e']; exact Nat.lt_irrefl _)
    · exact hy
  refine ⟨fun hc' => ?_, fun hq hc' hy => ?_, fun hu hr hq hc' hy => ?_⟩
  · obtain ⟨c, hc, e', -⟩ := back hc'
    rw [e']
    exact Nat.lt_succ_of_lt (h.known hc)
  · obtain ⟨c, hc, e', rfl | ⟨hp, hcr⟩⟩ := back hc'
    · exact h.link hq hc (old hc hy)
    rw [e'] at hy
    have hy := old hc hy
    rw [hcr] at hy
    cases hy.symm.trans (table_procs ht)
    exact hp
  · obtain ⟨c, hc, e', -⟩ := back hc'
    rw [e'] at hy
    rcases update_some_iff.mp hu with ⟨-, rfl⟩ | ⟨-, hu⟩
    · cases hr
    · exact h.kept hu hr hq hc (old hc hy)

theorem effect_kin (hl : k.table.Links) (h : k.table.Kin) (he : Effect bigEndian k e T) : T.Kin := by
  cases he with
  | quiet => exact h
  | leak | halt => exact ⟨h.known, h.link, h.kept⟩
  | reserve ht hpc hc hrj =>
    exact (reserve_kin hl h ht hc).go_on _ (table_procs ht) rfl fun hr => by cases hr
  | @fork th i p b ht hpc hb =>
    have hne : e.tid ≠ k.nextTid := Nat.ne_of_lt (hl.tids (table_procs ht))
    have hs : update k.table.procs k.nextTid (some ⟨i, none, .fresh⟩) e.tid = some th.proc :=
      (update_of_ne hne ..).trans (table_procs ht)
    exact (fork_kin hl h ht hpc hb).go_on _ hs rfl fun hr => by cases hr
  | @exits th q p b ht hpc h0 hq hb hps hp hlv =>
    refine h.go_on _ (table_procs ht) rfl fun {p' q' b' y} hr hq' hb' hy => ?_
    cases hr
    cases hq'.symm.trans hq
    cases hb'.symm.trans (table_live hb)
    have hq0 : q ≠ 0 := fun e' => h0 (hl.inj hq' (e' ▸ hl.root.1))
    have hpr : b.parentID = y.processID := h.link hq0 (table_live hb) hy
    rw [hpr] at hp
    exact hp
  | counted ht hpc => exact h.go_on _ (table_procs ht) rfl fun hr => by cases hr
  | remove hcn ht hpc hlt hq hb hf =>
    refine ⟨fun hb => h.known (update_none_iff.mp hb).2, fun hq hb hy => ?_, fun hu hr hq hb hy => ?_⟩
    · exact h.link hq (update_none_iff.mp hb).2 (update_none_iff.mp hy).2
    · exact h.kept (update_none_iff.mp hu).2 hr hq (update_none_iff.mp hb).2 (update_none_iff.mp hy).2
  | finish ht hcs hf => exact absurd hcs (process_found hl ht)
  | start ht hpc he hb hen =>
    have h1 := h.go_on (t := e.tid) ⟨_, some k.nextSpace, .free⟩ (table_procs ht) rfl fun hr => by cases hr
    exact ⟨h1.known, h1.link, h1.kept⟩

theorem initial_kin (g g' : Nat → Word) : (initial g g').table.Kin := by
  refine ⟨fun hb => ?_, fun hq hb _ => absurd (initial_live hb).1 hq, fun ht hr => ?_⟩
  · rw [(initial_live hb).2]
    exact Nat.one_pos
  · rw [(initial_procs ht).2] at hr
    cases hr

end Kernel

/-! ## What a step does to the counters -/

/-- What a thread's place says about the counters: it is in a `Join`, past `IncNumWait`, or
    in its exit, past `DecNumWait`. -/
inductive Mark where
  | plain
  | joined (id : Nat)
  | exited
  deriving DecidableEq, Repr

def Pc.mark : Pc → Mark
  | .joinCall id | .joinWait id _ | .joinRead id => .joined id
  | .exitRelease | .exitCall | .exitWait _ | .exitRemove => .exited
  | _ => .plain

theorem Pc.joining_of_mark {pc : Pc} {id : Nat} (h : pc.mark = .joined id) : pc.joining = some id := by
  cases pc <;> cases h <;> rfl

/-- A thread's step, as the counters see it: `IncNumWait` in the PCB at `p`, the return from
    the `Join` of `id`, `DecNumWait` in the PCB at `p`, or none of these. -/
inductive Turn where
  | quiet
  | inc (id : Nat) (p : Ptr)
  | leave (id : Nat)
  | dec (p : Ptr)

namespace Turn

/-- The counter of the PCB at `q` after the step. -/
def count : Turn → Ptr → Nat → Nat
  | .inc _ p, q, n => if q = p then n + 1 else n
  | .dec p, q, n => if q = p then n - 1 else n
  | .quiet, _, n | .leave _, _, n => n

def mark : Turn → Mark → Mark
  | .quiet, m => m
  | .inc id _, _ => .joined id
  | .leave _, _ => .plain
  | .dec _, _ => .exited

/-- Where the thread of the event stands. -/
inductive At (k : Kernel) (e : Kernel.Event) : Turn → Prop
  | quiet : At k e .quiet
  | inc {th : Thread} {id : Nat} {p : Ptr} : e = .cont e.tid → k.threads e.tid = some th → th.pc = .joinInc id p →
      At k e (.inc id p)
  | leave {th : Thread} {id : Nat} : k.threads e.tid = some th → th.pc = .joinRead id → At k e (.leave id)
  | dec {th : Thread} {p : Ptr} : e = .cont e.tid → k.threads e.tid = some th → th.pc = .exitDec p → At k e (.dec p)

end Turn

namespace Kernel

/-- A `Join` gets past `JoinWait` where its child has posted the semaphore. -/
def Passes (k : Kernel) (pc pc' : Pc) : Prop :=
  ∀ {id}, pc' = .joinRead id → pc = .joinRead id ∨
    ∃ q b, (k.pcb id = some q ∨ pc = .joinWait id q) ∧ k.heap q = some b ∧ 0 < b.joinsem.value

/-- Thread `u` before and after the step. -/
inductive Moved (k : Kernel) (e : Event) (turn : Turn) (u : Tid) : Option Thread → Option Thread → Prop
  | none : Moved k e turn u none none
  | stays {x x' : Thread} : (u = e.tid → turn = .quiet) → x'.processID = x.processID → x'.pc = x.pc →
      Moved k e turn u (some x) (some x')
  | turns {x x' : Thread} : u = e.tid → x'.processID = x.processID → x'.pc.mark = turn.mark x.pc.mark →
      k.Passes x.pc x'.pc → Moved k e turn u (some x) (some x')
  | gone {x : Thread} : u = e.tid → x.pc = .exitRemove → turn = .quiet → Moved k e turn u (some x) none
  | born {x' : Thread} : u = k.nextTid → x'.pc = .start → Moved k e turn u none (some x')

/-- A PCB before and after the step: its counter changes with the turn, its `joinsem` rises
    only when its own process posts it. -/
structure PCBTally (k : Kernel) (e : Event) (turn : Turn) (q : Ptr) (b b' : PCB) : Prop where
  thread : b'.thread = b.thread ∨ b.thread = none
  numwait : b'.numwait = turn.count q b.numwait
  joinsem : b'.joinsem.value ≤ b.joinsem.value ∨
    ∃ th, k.threads e.tid = some th ∧ th.pc = .exitRelease ∧ k.pcb th.processID = some q

structure Tally (k : Kernel) (e : Event) (turn : Turn) (k' : Kernel) : Prop where
  stands : turn.At k e
  pcb : ∀ {q b'}, k'.heap q = some b' → (q = k.nextPtr ∧ b'.numwait = 0 ∧ b'.joinsem.value = 0) ∨
    ∃ b, k.heap q = some b ∧ k.PCBTally e turn q b b'
  thread : ∀ u, k.Moved e turn u (k.threads u) (k'.threads u)

variable {bigEndian : Bool} {k k' : Kernel} {e : Event} {turn : Turn} {t : Tid} {th : Thread} {p : Ptr} {b b' : PCB}
  {th' : Thread} {woken : Option Tid} {s : Sem} {name : Option String} {self : String} {i id : Nat} {q : Ptr}

theorem PCBTally.rfl : k.PCBTally e .quiet q b b := ⟨.inl (Eq.refl _), Eq.refl _, .inl (Nat.le_refl _)⟩

theorem moved_rfl (u : Tid) : k.Moved e .quiet u (k.threads u) (k.threads u) := by
  cases k.threads u with
  | none => exact .none
  | some x => exact .stays (fun _ => rfl) rfl rfl

theorem same_tally (hh : k'.heap = k.heap) (hth : k'.threads = k.threads) : k.Tally e .quiet k' := by
  refine ⟨.quiet, fun {_ b'} hb => .inr ⟨b', hh ▸ hb, .rfl⟩, fun u => ?_⟩
  rw [hth]
  exact moved_rfl u

theorem moved_setThread (ht : k.threads e.tid = some th) (hid : th'.processID = th.processID)
    (hm : th'.pc.mark = turn.mark th.pc.mark) (hp : k.Passes th.pc th'.pc) (hk : k'.threads = k.threads)
    (u : Tid) : k.Moved e turn u (k.threads u) (((k'.setThread e.tid th').ready woken).threads u) := by
  have hs : ∀ z : Thread, (if woken = some u then { z with blocked := false } else z).processID = z.processID ∧
      (if woken = some u then { z with blocked := false } else z).pc = z.pc := by
    intro z
    split <;> exact ⟨rfl, rfl⟩
  simp only [ready_threads, setThread_threads, hk]
  by_cases hu : u = e.tid
  · subst hu
    rw [update_self, ht]
    refine .turns rfl ((hs th').1.trans hid) ?_ ?_
    · rw [(hs th').2]; exact hm
    · rw [(hs th').2]; exact hp
  · rw [update_of_ne hu]
    cases k.threads u with
    | none => exact .none
    | some x => exact .stays (fun e' => absurd e' hu) (hs x).1 (hs x).2

theorem setPCB_tally (hb : k.heap p = some b) (h : k.PCBTally e turn p b b')
    (ho : ∀ {q n}, q ≠ p → turn.count q n = n) {c' : PCB} (hc : (k.setPCB p b').heap q = some c') :
    ∃ c, k.heap q = some c ∧ k.PCBTally e turn q c c' := by
  rcases update_some_iff.mp hc with ⟨rfl, rfl⟩ | ⟨hne, hc⟩
  · exact ⟨b, hb, h⟩
  · exact ⟨c', hc, .inl rfl, (ho hne).symm, .inl (Nat.le_refl _)⟩

theorem p_value_le (s : Semaphore) (t : Tid) : (s.p t).1.value ≤ s.value := by
  unfold Semaphore.p
  split
  · exact Nat.le_refl _
  · exact Nat.sub_le ..

theorem setSem_tally (b : PCB) (s : Sem) : k.PCBTally e .quiet q b (b.setSem ((b.sem s).p t).1 s) := by
  cases s with
  | joinsem => exact ⟨.inl rfl, rfl, .inl (p_value_le ..)⟩
  | exitsem | multex => exact ⟨.inl rfl, rfl, .inl (Nat.le_refl _)⟩

theorem semP_tally {waiting next : Pc} (ht : k.threads e.tid = some th)
    (h : k.semP e.tid th p s waiting next = .ok k') (hw : waiting.mark = th.pc.mark) (hn : next.mark = th.pc.mark)
    (hpw : k.Passes th.pc waiting) (hpn : ∀ b, k.heap p = some b → 0 < (b.sem s).value → k.Passes th.pc next) :
    k.Tally e .quiet k' := by
  obtain ⟨b, hb, rfl⟩ := semP_ok.mp h
  refine ⟨.quiet, fun hc => .inr (setPCB_tally hb (setSem_tally b s) (fun _ => rfl) hc), fun u => ?_⟩
  rw [← ready_none (k := setThread _ _ _)]
  refine moved_setThread ht ?_ ?_ ?_ ?_ u
  · rfl
  · show (if ((b.sem s).p e.tid).2 then next else waiting).mark = th.pc.mark
    split
    · exact hn
    · exact hw
  · show k.Passes th.pc (if ((b.sem s).p e.tid).2 then next else waiting)
    split
    · rename_i hp
      refine hpn b hb (Nat.pos_of_ne_zero fun h0 => ?_)
      simp [Semaphore.p, h0] at hp
    · exact hpw
  · rfl

theorem semV_tally {f : PCB → PCB} (ht : k.threads e.tid = some th) (h : k.semV e.tid th' p s f = .ok k')
    (hid : th'.processID = th.processID) (hst : turn.At k e) (hm : th'.pc.mark = turn.mark th.pc.mark)
    (hp : k.Passes th.pc th'.pc)
    (hf : ∀ b : PCB, (f b).thread = b.thread ∧ (f b).joinsem = b.joinsem ∧ (f b).numwait = turn.count p b.numwait)
    (ho : ∀ {q n}, q ≠ p → turn.count q n = n)
    (hs : s = .joinsem → th.pc = .exitRelease ∧ k.pcb th.processID = some p) : k.Tally e turn k' := by
  obtain ⟨b, hb, rfl⟩ := semV_ok.mp h
  obtain ⟨hth, hjn, hn⟩ := hf b
  refine ⟨hst, fun hc => .inr (setPCB_tally hb ?_ ho hc), fun u => moved_setThread ht hid hm hp rfl u⟩
  cases s with
  | joinsem => exact ⟨.inl hth, hn, .inr ⟨th, ht, hs rfl⟩⟩
  | exitsem | multex => exact ⟨.inl hth, hn, .inl (Nat.le_of_eq (congrArg _ hjn))⟩

/-- A place that is not after `JoinWait`. -/
theorem passes_of_ne {pc pc' : Pc} (h : ∀ id, pc' ≠ .joinRead id) : k.Passes pc pc' := fun e' => absurd e' (h _)

/-- A step that changes no PCB and moves the thread, outside `Join` and exit. -/
theorem plain_tally (th' : Thread) (ht : k.threads e.tid = some th) (hid : th'.processID = th.processID)
    (hm : th.pc.mark = .plain) (hm' : th'.pc.mark = .plain) (hk : k'.threads = k.threads) (hh : k'.heap = k.heap) :
    k.Tally e .quiet ((k'.setThread e.tid th').ready woken) := by
  refine ⟨.quiet, fun {_ b'} hb => .inr ⟨b', hh ▸ hb, .rfl⟩, fun u => ?_⟩
  refine moved_setThread ht hid (show _ = Turn.quiet.mark _ from hm'.trans hm.symm) (passes_of_ne fun id e' => ?_) hk u
  rw [e'] at hm'
  cases hm'

theorem fork_tally (hl : k.table.Links) (ht : k.threads e.tid = some th) (hpc : th.pc = .execFork i p)
    (hb : k.heap p = some b) : k.Tally e .quiet ((({ k with nextTid := k.nextTid + 1 }.setPCB p
      { b with thread := some k.nextTid, parentID := th.processID }).setThread k.nextTid ⟨i, .start, false, none, 0⟩).setThread
        e.tid { th with pc := .execUnlock i p }) := by
  refine ⟨.quiet, fun hc => .inr (setPCB_tally hb ?_ (fun _ => rfl) hc), fun u => ?_⟩
  · have hr : th.proc.role = .forking i p := by simp [Thread.proc, hpc, Pc.role]
    obtain ⟨-, -, c, hc, hnn, -⟩ := hl.forking (table_procs ht) hr
    cases hc.symm.trans (table_live hb)
    exact ⟨.inr hnn, rfl, .inl (Nat.le_refl _)⟩
  · show k.Moved e .quiet u _ (update (update k.threads k.nextTid (some _)) e.tid (some _) u)
    by_cases hu : u = e.tid
    · subst hu
      rw [update_self, ht]
      refine .turns rfl rfl (by rw [hpc]; rfl) (passes_of_ne ?_)
      intro id e'; cases e'
    · rw [update_of_ne hu]
      by_cases hn : u = k.nextTid
      · -- the number of the new thread was free
        have hnn : k.threads k.nextTid = none := by
          cases hx : k.threads k.nextTid with
          | none => rfl
          | some x => exact absurd (hl.tids (table_procs hx)) (Nat.lt_irrefl _)
        rw [hn, update_self, hnn]
        exact .born rfl rfl
      · rw [update_of_ne hn]
        exact moved_rfl u

/-- A `V` that leaves the counters and `joinsem` alone. -/
theorem quietV_tally (ht : k.threads e.tid = some th) (h : k.semV e.tid th' p s (fun b => b) = .ok k')
    (hid : th'.processID = th.processID) (hm : th'.pc.mark = th.pc.mark) (hr : ∀ id, th'.pc ≠ .joinRead id)
    (hs : s = .joinsem → th.pc = .exitRelease ∧ k.pcb th.processID = some p) : k.Tally e .quiet k' :=
  semV_tally ht h hid .quiet hm (passes_of_ne hr) (fun _ => ⟨rfl, rfl, rfl⟩) (fun _ => rfl) hs

theorem move_tally (hl : k.table.Links) (ht : k.threads e.tid = some th) (h : Move bigEndian k e th k') :
    ∃ turn, k.Tally e turn k' := by
  cases h with
  | stay h => subst h; exact ⟨_, same_tally rfl rfl⟩
  | @p p s waiting next hw h =>
    have hmr : waiting.mark = th.pc.mark ∧ next.mark = th.pc.mark := by cases hw <;> simp [*, Pc.mark]
    refine ⟨_, semP_tally ht h hmr.1 hmr.2 (passes_of_ne fun id => by cases hw <;> simp) fun b hb hp id e' => ?_⟩
    cases hw with
    | joinCall hpc hq => cases e'; exact .inr ⟨p, b, .inl hq, hb, hp⟩
    | joinWait hpc => cases e'; exact .inr ⟨p, b, .inr hpc, hb, hp⟩
    | _ => cases e'
  | v hs h =>
    cases hs with
    | execUnlock hpc => exact ⟨_, quietV_tally ht h rfl (by rw [hpc]; rfl) (by simp) (by simp)⟩
    | exitRelease hpc hq => exact ⟨_, quietV_tally ht h rfl (by rw [hpc]; rfl) (by simp) fun _ => ⟨hpc, hq⟩⟩
    | joinInc he hpc =>
      refine ⟨.inc _ _, semV_tally ht h rfl (.inc he ht hpc) rfl (passes_of_ne (by simp)) ?_ ?_ (by simp)⟩
      · exact fun b => ⟨rfl, rfl, (if_pos rfl).symm⟩
      · exact fun hne => if_neg hne
    | joinRead hpc hq =>
      exact ⟨.leave _, semV_tally ht h rfl (.leave ht hpc) rfl (passes_of_ne (by simp [ret]))
        (fun _ => ⟨rfl, rfl, rfl⟩) (fun _ => rfl) (by simp)⟩
    | exitDec he hpc =>
      refine ⟨.dec _, semV_tally ht h rfl (.dec he ht hpc) rfl (passes_of_ne (by simp)) ?_ ?_ (by simp)⟩
      · exact fun b => ⟨rfl, rfl, (if_pos rfl).symm⟩
      · exact fun hne => if_neg hne
  | start hpc _ _ _ h | refuse hpc h =>
    rw [h, ← ready_none (k := setThread _ _ _)]
    exact ⟨_, plain_tally _ ht rfl (by rw [hpc]; rfl) rfl rfl rfl⟩
  | execP hpc h =>
    rw [h, Kernel.execP, ← ready_none (k := setThread _ _ _)]
    have hm : th.pc.mark = .plain := by rcases hpc with hpc | hpc <;> rw [hpc] <;> rfl
    exact ⟨_, plain_tally _ ht rfl hm (by dsimp only; split <;> rfl) rfl rfl⟩
  | execV hpc h =>
    have hm : th.pc.mark = .plain := by rcases hpc with ⟨_, _, hpc⟩ | ⟨_, hpc⟩ <;> rw [hpc] <;> rfl
    rw [h]
    exact ⟨_, plain_tally (ret th _) ht rfl hm rfl rfl rfl⟩
  | leak _ hpc _ _ h => rw [h]; exact ⟨_, plain_tally (ret th _) ht rfl (by rw [hpc]; rfl) rfl rfl rfl⟩
  | reserve hpc _ _ h =>
    subst h
    refine ⟨.quiet, .quiet, fun {q b'} hb => ?_, fun u => ?_⟩
    · rcases update_some_iff.mp hb with ⟨rfl, rfl⟩ | ⟨-, hb⟩
      · exact .inl ⟨rfl, rfl, rfl⟩
      · exact .inr ⟨b', hb, .rfl⟩
    · rw [← ready_none (k := setThread _ _ _)]
      refine moved_setThread ht ?_ (by rw [hpc]; rfl) (passes_of_ne ?_) ?_ u
      · rfl
      · simp
      · rfl
  | fork hpc hb h => subst h; exact ⟨_, fork_tally hl ht hpc hb⟩
  | @exits q p b _ ec hpc _ _ hb _ _ _ h =>
    obtain ⟨c, hc, rfl⟩ := semP_ok.mp h
    have hcd : ∀ {q' d}, (k.setPCB q { b with exitcode := ec }).heap q' = some d →
        ∃ d0, k.heap q' = some d0 ∧ k.PCBTally e .quiet q' d0 d := by
      intro q' d hd
      refine setPCB_tally hb ?_ (fun _ => rfl) hd
      exact ⟨.inl rfl, rfl, .inl (Nat.le_refl _)⟩
    refine ⟨.quiet, .quiet, fun {q' d'} hd => .inr ?_, fun u => ?_⟩
    · rcases update_some_iff.mp hd with ⟨rfl, rfl⟩ | ⟨-, hd⟩
      · obtain ⟨d0, h1, h2⟩ := hcd hc
        exact ⟨d0, h1, h2.thread, h2.numwait, h2.joinsem⟩
      · exact hcd hd
    · rw [← ready_none (k := setThread _ _ _)]
      refine moved_setThread ht ?_ ?_ (passes_of_ne ?_) ?_ u
      · rfl
      · show (if ((c.sem .multex).p e.tid).2 then Pc.exitDec p else .exitP p).mark = th.pc.mark
        rw [hpc]
        split <;> rfl
      · show ∀ id, (if ((c.sem .multex).p e.tid).2 then Pc.exitDec p else .exitP p) ≠ .joinRead id
        split <;> simp
      · rfl
  | finish hcs => exact absurd hcs (process_found hl ht)
  | remove _ hpc _ _ _ _ h =>
    subst h
    refine ⟨_, .quiet, fun {q' b'} hb' => .inr ⟨b', (update_none_iff.mp hb').2, .rfl⟩, fun u => ?_⟩
    show k.Moved e .quiet u _ (update k.threads e.tid none u)
    by_cases hu : u = e.tid
    · subst hu
      rw [update_self, ht]
      exact .gone rfl hpc rfl
    · rw [update_of_ne hu]
      exact moved_rfl u
  | halt _ h => subst h; exact ⟨_, same_tally rfl rfl⟩

theorem step_tally (hl : k.table.Links) (h : step bigEndian k e = .ok k') : ∃ turn, k.Tally e turn k' := by
  obtain rfl | ⟨th, ht, h⟩ := step_move h
  · exact ⟨_, same_tally rfl rfl⟩
  · exact move_tally hl ht h

/-! ## The counter is exact -/

/-- Some live thread passes the test. -/
def someThread (k : Kernel) (test : Thread → Bool) : Bool :=
  (List.range k.nextTid).any fun t => (k.threads t).any test

/-- Process `id` is past its `DecNumWait`. -/
def exited (k : Kernel) (id : Nat) : Bool := k.someThread fun x => x.processID == id && x.pc.mark == .exited

/-- The number of the thread's `Join` calls, counted by `IncNumWait`, whose child has not
    exited yet: a thread is in one call at a time. -/
def waiting (k : Kernel) (th : Thread) : Nat :=
  match th.pc.mark with
  | .joined id => if k.exited id then 0 else 1
  | _ => 0

/-- The process of the PCB at `p` waits for a process other than `id`. -/
def waitsElsewhere (k : Kernel) (p : Ptr) (id : Nat) : Bool :=
  k.someThread fun x => k.pcb x.processID == some p &&
    match x.pc.mark with
    | .joined i => i != id && !k.exited i
    | _ => false

/-- A `Join` meets `joinOk`, and counts its child before the child exits; a child exits
    while its parent does not wait for another one. -/
def waitOk (k : Kernel) (e : Event) : Bool :=
  k.joinOk e &&
    match e with
    | .cont t =>
      match k.threads t with
      | some th =>
        match th.pc with
        | .joinInc id _ => !k.exited id
        | .exitDec p => !k.waitsElsewhere p th.processID
        | _ => true
      | none => true
    | _ => true

/-- `numwait` of every process is the number of its waits, and 0 outside `Join`. -/
structure WaitsExact (k : Kernel) : Prop where
  count : ∀ t th b, k.threads t = some th → k.liveAt th.processID = some b → b.numwait = k.waiting th
  outside : ∀ t th b, k.threads t = some th → k.liveAt th.processID = some b → th.pc.joining = none → b.numwait = 0

theorem someThread_iff (hl : k.table.Links) {test : Thread → Bool} :
    k.someThread test = true ↔ ∃ t x, k.threads t = some x ∧ test x = true := by
  simp only [someThread, List.any_eq_true, List.mem_range, Option.any_eq_true]
  constructor
  · intro h
    obtain ⟨t, -, x, hx, hts⟩ := h
    exact ⟨t, x, hx, hts⟩
  · intro h
    obtain ⟨t, x, hx, hts⟩ := h
    exact ⟨t, hl.tids (table_procs hx), x, hx, hts⟩

theorem exited_iff (hl : k.table.Links) :
    k.exited id = true ↔ ∃ t x, k.threads t = some x ∧ x.processID = id ∧ x.pc.mark = .exited := by
  simp only [exited, someThread_iff hl, Bool.and_eq_true, beq_iff_eq]

theorem waitOk_inc (hok : k.waitOk e) (he : e = .cont e.tid) (ht : k.threads e.tid = some th)
    (hpc : th.pc = .joinInc id p) : k.exited id = false := by
  rw [he] at hok
  simpa [waitOk, joinOk, ht, hpc] using hok

variable {u : Tid}

theorem waitOk_dec (hl : k.table.Links) (hok : k.waitOk e) (he : e = .cont e.tid) (ht : k.threads e.tid = some th)
    (hpc : th.pc = .exitDec p) {x : Thread} (hu : k.threads u = some x) (hp : k.pcb x.processID = some p)
    (hm : x.pc.mark = .joined id) : id = th.processID ∨ k.exited id = true := by
  rw [he] at hok
  have hno : ¬ k.waitsElsewhere p th.processID = true := by simpa [waitOk, joinOk, ht, hpc] using hok
  by_cases hid : id = th.processID
  · exact .inl hid
  · refine .inr (Classical.byContradiction fun hx => hno ((someThread_iff hl).mpr ⟨u, x, hu, ?_⟩))
    simp [hp, hm, hid, hx]

theorem waiting_plain (h : th.pc.mark = .plain) : k.waiting th = 0 := by simp only [waiting, h]

theorem waiting_exited (h : th.pc.mark = .exited) : k.waiting th = 0 := by simp only [waiting, h]

theorem waiting_joined (h : th.pc.mark = .joined id) : k.waiting th = if k.exited id then 0 else 1 := by
  simp only [waiting, h]

/-- The invariant: the counters, also of a PCB that has no thread yet, and why a `Join`
    returns after its child's exit. -/
structure Waits (k : Kernel) : Prop where
  own : ∀ {t x q b}, k.threads t = some x → k.pcb x.processID = some q → k.heap q = some b → b.numwait = k.waiting x
  unborn : ∀ {q b}, q ≠ 0 → k.heap q = some b → b.thread = none → b.numwait = 0
  read : ∀ {t x id}, k.threads t = some x → x.pc = .joinRead id → k.exited id = true
  posted : ∀ {i q b}, k.pcb i = some q → k.heap q = some b → 0 < b.joinsem.value → k.exited i = true

theorem Moved.mark {x x' : Thread} (h : k.Moved e turn u (some x) (some x')) :
    x'.processID = x.processID ∧ x'.pc.mark = if u = e.tid then turn.mark x.pc.mark else x.pc.mark := by
  cases h with
  | stays hqt hid hpc =>
    refine ⟨hid, ?_⟩
    rw [hpc]
    split
    · rename_i hu
      rw [hqt hu]
      rfl
    · rfl
  | turns hu hid hm => exact ⟨hid, by rw [if_pos hu, hm]⟩

/-- No turn takes a thread back from its exit. -/
theorem stays_exited (h : turn.At k e) (ht : k.threads e.tid = some th) (hm : th.pc.mark = .exited) :
    turn.mark .exited = .exited := by
  cases h with
  | quiet | dec => rfl
  | inc _ ht' hpc | leave ht' hpc =>
    cases ht'.symm.trans ht
    rw [hpc] at hm
    cases hm

/-- A process exits at its `DecNumWait`. -/
theorem exited_back (hl : k.table.Links) (hl' : k'.table.Links) (ht : k.Tally e turn k') (hx : k'.exited i = true) :
    k.exited i = true ∨ ∃ th p, turn = .dec p ∧ k.threads e.tid = some th ∧ th.processID = i := by
  obtain ⟨u, x', hu', hid, hm⟩ := (exited_iff hl').mp hx
  have hmv := ht.thread u
  rw [hu'] at hmv
  cases hu : k.threads u with
  | none =>
    rw [hu] at hmv
    cases hmv with
    | born _ hs => rw [hs] at hm; cases hm
  | some x =>
    rw [hu] at hmv
    obtain ⟨hi', hmr⟩ := hmv.mark
    rw [hm] at hmr
    split at hmr
    · rename_i hue
      subst hue
      cases ht.stands with
      | quiet => exact .inl ((exited_iff hl).mpr ⟨e.tid, x, hu, hi' ▸ hid, hmr.symm⟩)
      | inc | leave => cases hmr
      | @dec _ p => exact .inr ⟨x, p, rfl, hu, hi' ▸ hid⟩
    · exact .inl ((exited_iff hl).mpr ⟨u, x, hu, hi' ▸ hid, hmr.symm⟩)

/-- After its `DecNumWait` the process of the step has exited. -/
theorem dec_exited (hl' : k'.table.Links) (ht : k.Tally e turn k') (hd : turn = .dec p) (hte : k.threads e.tid = some th) :
    k'.exited th.processID = true := by
  have hm := ht.thread e.tid
  rw [hte] at hm
  cases ht' : k'.threads e.tid with
  | none =>
    rw [ht'] at hm
    cases hm with
    | gone _ _ hqt => cases hqt.symm.trans hd
  | some x' =>
    rw [ht'] at hm
    obtain ⟨hid, hmr⟩ := hm.mark
    rw [if_pos rfl, hd] at hmr
    exact (exited_iff hl').mpr ⟨e.tid, x', ht', hid, hmr⟩

section
variable (hl : k.table.Links) (hl' : k'.table.Links) (h : step bigEndian k e = .ok k')
include hl hl' h

/-- A PCB alive before a step was in the slot it is in afterwards. -/
theorem slot_back (hq : k'.pcb i = some q) (hb : k.heap q = some b) : k.pcb i = some q := by
  obtain ⟨j, hj⟩ := hl.placed (table_live hb)
  cases hl'.inj hq (slot_kept hl h hj hb)
  exact hj

variable (ht : k.Tally e turn k')
include ht

/-- A process that has exited is there as long as its PCB is. -/
theorem exited_forth (hq : k'.pcb i = some q) (hb' : k'.heap q = some b') (hx : k.exited i = true) :
    k'.exited i = true := by
  obtain ⟨u, x, hu, hid, hm⟩ := (exited_iff hl).mp hx
  have hr : x.proc.role = .exiting none := by
    simp only [Thread.proc]
    generalize x.pc = pc at hm
    cases pc <;> first | rfl | cases hm
  obtain ⟨-, q0, c0, hq0, hc0, hth⟩ := hl.own (table_procs hu) (hl.ne_main (table_procs hu) hr)
  obtain ⟨b0, hb0, rfl⟩ := live_eq_some.mp hc0
  have hq0 : k.pcb i = some q0 := hid ▸ hq0
  cases (slot_kept hl h hq0 hb0).symm.trans hq
  -- the PCB still names the thread
  obtain ⟨x', hu'⟩ : ∃ x', k'.threads u = some x' := by
    rcases ht.pcb hb' with ⟨rfl, -⟩ | ⟨b, hb, hs⟩
    · exact absurd (hl.ptrs hq0) (Nat.lt_irrefl _)
    cases hb.symm.trans hb0
    have hn : b'.thread = some u := by
      rcases hs.thread with e' | e'
      · exact e'.trans hth
      · cases e'.symm.trans hth
    obtain ⟨-, pr, hpr, -⟩ := hl'.owner (table_live hb') hn
    obtain ⟨x', hx', -⟩ := procs_eq_some.mp hpr
    exact ⟨x', hx'⟩
  have hmv := ht.thread u
  rw [hu, hu'] at hmv
  obtain ⟨hi', hmr⟩ := hmv.mark
  refine (exited_iff hl').mpr ⟨u, x', hu', hi'.trans hid, ?_⟩
  rw [hmr, hm]
  split
  · rename_i hue
    subst hue
    exact stays_exited ht.stands hu hm
  · rfl

/-- Whether the child of a `Join` under way has exited changes only at its `DecNumWait`. -/
theorem exited_same (hj' : k'.Joins) {x' : Thread} (hu' : k'.threads u = some x')
    (hm : x'.pc.mark = .joined i) (hno : ∀ {th p}, turn = .dec p → k.threads e.tid = some th → th.processID ≠ i) :
    k'.exited i = k.exited i := by
  obtain ⟨q, b', hq, hb', -⟩ := hj'.pending hu' (Pc.joining_of_mark hm)
  rw [Bool.eq_iff_iff]
  constructor
  · intro hx
    rcases exited_back hl hl' ht hx with hx | ⟨th, p, hd, hth, hid⟩
    · exact hx
    · exact absurd hid (hno hd hth)
  · exact exited_forth hl hl' h ht hq hb'

/-- A thread that keeps its mark keeps its wait, unless the child exits. -/
theorem waiting_same (hj' : k'.Joins) {x x' : Thread} (hu' : k'.threads u = some x')
    (hmr : x'.pc.mark = x.pc.mark)
    (hno : ∀ {i th p}, x.pc.mark = .joined i → turn = .dec p → k.threads e.tid = some th → th.processID ≠ i) :
    k'.waiting x' = k.waiting x := by
  cases hm : x.pc.mark with
  | joined i =>
    have hm' := hmr.trans hm
    rw [waiting_joined hm, waiting_joined hm', exited_same hl hl' h ht hj' hu' hm' (hno hm)]
  | plain => rw [waiting_plain hm, waiting_plain (hmr.trans hm)]
  | exited => rw [waiting_exited hm, waiting_exited (hmr.trans hm)]

variable (hj : k.Joins) (hj' : k'.Joins) (hw : k.Waits) (hok : k.waitOk e)
  {u : Tid} {x x' : Thread} {q : Ptr} (hu : k.threads u = some x) (hu' : k'.threads u = some x')
  (hq : k.pcb x.processID = some q)
include hj' hu hu' hok hq

/-- The count of a thread whose child, or another one, exits. -/
theorem dec_count (hj : k.Joins) (hk : k.table.Kin) (hd : turn = .dec p) (he : e = .cont e.tid)
    (hte : k.threads e.tid = some th) (hpc : th.pc = .exitDec p) (hmr : x'.pc.mark = x.pc.mark) :
    (if q = p then k.waiting x - 1 else k.waiting x) = k'.waiting x' := by
  by_cases hm : x.pc.mark = .joined th.processID
  · -- `DecNumWait` works on the PCB of the process that joins
    have hqp : k.pcb x.processID = some p := by
      obtain ⟨r, b, hr, hb, hcr, -⟩ := hj.pending hu (Pc.joining_of_mark hm)
      have hrl : th.proc.role = .exiting (some p) := by simp [Thread.proc, hpc, Pc.role]
      have hc : k.table.procs b.ident.creator = some x.proc := by
        rw [show b.ident.creator = u from hcr]
        exact table_procs hu
      exact hk.kept (table_procs hte) hrl hr (table_live hb) hc
    cases hqp.symm.trans hq
    rw [if_pos rfl, waiting_joined (hmr.trans hm), dec_exited hl' ht hd hte, waiting_joined hm]
    split <;> rfl
  · have hs : k'.waiting x' = k.waiting x := by
      refine waiting_same hl hl' h ht hj' hu' hmr fun {i th' p'} hi _ hte' hid => ?_
      cases hte'.symm.trans hte
      exact hm (hid ▸ hi)
    rw [hs]
    split
    · rename_i hqp
      subst hqp
      cases hmx : x.pc.mark with
      | plain => rw [waiting_plain hmx]
      | exited => rw [waiting_exited hmx]
      | joined i =>
        rcases waitOk_dec hl hok he hte hpc hu hq hmx with rfl | hx
        · exact absurd hmx hm
        · rw [waiting_joined hmx, hx]
          rfl
    · rfl

include hj hw

/-- The count of a thread that lives on is its waits afterwards. -/
theorem count_waiting (hk : k.table.Kin)
    (hmr : x'.pc.mark = if u = e.tid then turn.mark x.pc.mark else x.pc.mark) :
    turn.count q (k.waiting x) = k'.waiting x' := by
  have same := fun hm hno => (waiting_same (x := x) hl hl' h ht hj' hu' hm hno).symm
  by_cases hue : u = e.tid
  · subst hue
    rw [if_pos rfl] at hmr
    cases ht.stands with
    | quiet => exact same hmr fun _ hd => by cases hd
    | @inc th id p he hte hpc =>
      cases hte.symm.trans hu
      cases hq.symm.trans (hj.lock hu (.inr hpc))
      have hn : k'.exited id = false :=
        (exited_same hl hl' h ht hj' hu' hmr fun hd => by cases hd).trans (waitOk_inc hok he hu hpc)
      rw [waiting_plain (by rw [hpc]; rfl), waiting_joined hmr, hn]
      exact if_pos rfl
    | @leave th id hte hpc =>
      cases hte.symm.trans hu
      rw [waiting_plain hmr, waiting_joined (show x.pc.mark = .joined id by rw [hpc]; rfl), hw.read hu hpc]
      rfl
    | @dec th p he hte hpc =>
      cases hte.symm.trans hu
      rw [waiting_plain (by rw [hpc]; rfl), waiting_exited hmr]
      exact ite_self _
  · rw [if_neg hue] at hmr
    cases ht.stands with
    | quiet | leave => exact same hmr fun _ hd => by cases hd
    | @inc th id p he hte hpc =>
      -- the slot of another thread is another one
      have hne : q ≠ p := by
        intro heq
        subst heq
        exact hue (hl.distinct (table_procs hu) (table_procs hte) (hl.inj hq (hj.lock hte (.inr hpc))))
      exact (if_neg hne).trans (same hmr fun _ hd => by cases hd)
    | @dec th p he hte hpc => exact dec_count hl hl' h ht hj' hok hu hu' hq hj hk rfl he hte hpc hmr

end

theorem count_unborn (hl : k.table.Links) (hj : k.Joins) (h : turn.At k e) {q : Ptr} (hq : q ≠ 0)
    (hb : k.heap q = some b) (hn : b.thread = none) : turn.count q 0 = 0 := by
  cases h with
  | quiet | leave => rfl
  | dec => exact ite_self _
  | @inc th id p _ hte hpc =>
    -- the PCB a `Join` counts in is that of its own thread
    refine if_neg fun heq => ?_
    subst heq
    obtain ⟨q', c, hq', hc, hm⟩ := hl.mine (table_procs hte)
    cases hq'.symm.trans (hj.lock hte (.inr hpc))
    cases hc.symm.trans (table_live hb)
    rcases hm with hm | ⟨h0, -⟩
    · cases hm.symm.trans hn
    · rw [h0] at hq'
      exact hq (Option.some.inj (hq'.symm.trans hl.root.1))

section
variable (hl : k.table.Links) (hl' : k'.table.Links) (h : step bigEndian k e = .ok k') (ht : k.Tally e turn k')
  (hj : k.Joins) (hw : k.Waits)
include hl hj hw ht

theorem unborn_step {q : Ptr} (hq : q ≠ 0) (hb' : k'.heap q = some b') (hn : b'.thread = none) : b'.numwait = 0 := by
  rcases ht.pcb hb' with ⟨-, h0, -⟩ | ⟨b, hb, hs⟩
  · exact h0
  have hn' : b.thread = none := by
    rcases hs.thread with e' | e'
    · exact e' ▸ hn
    · exact e'
  rw [hs.numwait, hw.unborn hq hb hn']
  exact count_unborn hl hj ht.stands hq hb hn'

theorem born_step (hl' : k'.table.Links) {x' : Thread} {q : Ptr} (hu' : k'.threads k.nextTid = some x')
    (hq' : k'.pcb x'.processID = some q) (hb' : k'.heap q = some b') : b'.numwait = 0 := by
  have hm : k.nextTid ≠ mainTid := by
    obtain ⟨pr, hpr, -⟩ := hl.main
    intro heq
    exact absurd (hl.tids hpr) (by rw [← heq]; exact Nat.lt_irrefl _)
  obtain ⟨hid, q0, c, hq0, hc, hth⟩ := hl'.own (table_procs hu') hm
  cases hq0.symm.trans hq'
  cases hc.symm.trans (table_live hb')
  have hq : q ≠ 0 := fun e' => hid (hl'.inj hq0 (e' ▸ hl'.root.1))
  rcases ht.pcb hb' with ⟨-, h0, -⟩ | ⟨b, hb, hs⟩
  · exact h0
  have hn : b.thread = none := by
    rcases hs.thread with e' | e'
    · obtain ⟨-, pr, hpr, -⟩ := hl.owner (table_live hb) (e'.symm.trans hth)
      exact absurd (hl.tids hpr) (Nat.lt_irrefl _)
    · exact e'
  rw [hs.numwait, hw.unborn hq hb hn]
  exact count_unborn hl hj ht.stands hq hb hn

include hl' h

theorem own_step (hj' : k'.Joins) (hk : k.table.Kin) (hok : k.waitOk e) {u : Tid} {x' : Thread} {q : Ptr}
    (hu' : k'.threads u = some x') (hq' : k'.pcb x'.processID = some q) (hb' : k'.heap q = some b') :
    b'.numwait = k'.waiting x' := by
  have hm := ht.thread u
  rw [hu'] at hm
  cases hu : k.threads u with
  | none =>
    rw [hu] at hm
    cases hm with
    | born hn hst =>
      subst hn
      rw [born_step hl ht hj hw hl' hu' hq' hb', waiting_plain (by rw [hst]; rfl)]
  | some x =>
    rw [hu] at hm
    obtain ⟨hid, hmr⟩ := hm.mark
    obtain ⟨q0, c, hq, hc, -⟩ := hl.mine (table_procs hu)
    have hq : k.pcb x.processID = some q0 := hq
    rw [hid] at hq'
    cases (own_slot_kept hl h hu hq).symm.trans hq'
    rcases ht.pcb hb' with ⟨rfl, -⟩ | ⟨b, hb, hs⟩
    · exact absurd (hl.ptrs hq) (Nat.lt_irrefl _)
    · rw [hs.numwait, hw.own hu hq hb]
      exact count_waiting hl hl' h ht hj hj' hw hok hu hu' hq hk hmr

theorem read_step (hj' : k'.Joins) {u : Tid} {x' : Thread} (hu' : k'.threads u = some x') (hpc : x'.pc = .joinRead id) :
    k'.exited id = true := by
  obtain ⟨q', b', hq', hb', -⟩ := hj'.pending hu' (by rw [hpc]; rfl)
  refine exited_forth hl hl' h ht hq' hb' ?_
  have hm := ht.thread u
  rw [hu'] at hm
  cases hu : k.threads u with
  | none =>
    rw [hu] at hm
    cases hm with
    | born _ hst => cases hpc.symm.trans hst
  | some x =>
    rw [hu] at hm
    cases hm with
    | stays _ _ hs => exact hw.read hu (hs ▸ hpc)
    | turns _ _ _ hp =>
      rcases hp hpc with hr | ⟨q, b, hq, hb, hps⟩
      · exact hw.read hu hr
      · have hq : k.pcb id = some q := hq.elim (fun hq => hq) (hj.joinWait hu)
        exact hw.posted hq hb hps

omit hj in
theorem posted_step {q : Ptr} (hq' : k'.pcb i = some q) (hb' : k'.heap q = some b') (hp : 0 < b'.joinsem.value) :
    k'.exited i = true := by
  refine exited_forth hl hl' h ht hq' hb' ?_
  rcases ht.pcb hb' with ⟨-, -, h0⟩ | ⟨b, hb, hs⟩
  · omega
  have hq := slot_back hl hl' h hq' hb
  rcases hs.joinsem with hle | ⟨th, hte, hpc, ho⟩
  · exact hw.posted hq hb (by omega)
  · -- the process itself posts it, in its exit
    exact (exited_iff hl).mpr ⟨e.tid, th, hte, hl.inj ho hq, by rw [hpc]; rfl⟩

end

theorem initial_waits (g g' : Nat → Word) : (initial g g').Waits := by
  have hh : ∀ {q b}, (initial g g').heap q = some b → q = 0 ∧ b = PCB.new 0 mainTid := by
    intro q b h
    by_cases e : q = 0
    · subst e; cases h; exact ⟨rfl, rfl⟩
    · simp [initial, e] at h
  refine ⟨fun ht hq hb => ?_, fun hq hb => absurd (hh hb).1 hq, fun ht hpc => ?_, fun hq hb hp => ?_⟩
  · obtain ⟨-, rfl⟩ := initial_threads ht
    rw [(hh hb).2]
    rfl
  · rw [(initial_threads ht).2] at hpc
    cases hpc
  · rw [(hh hb).2] at hp
    cases hp

theorem reach_waits (h : Reach (step bigEndian) (waitOk · ·) Init k) :
    k.table.Links ∧ k.table.Kin ∧ k.Joins ∧ k.Waits := by
  refine h.inv (P := fun k => k.table.Links ∧ k.table.Kin ∧ k.Joins ∧ k.Waits) ?_ ?_
  · intro _ h'
    obtain ⟨g, g', rfl⟩ := h'
    exact ⟨initial_links g g', initial_kin g g', initial_joins g g', initial_waits g g'⟩
  · intro s e s' hs hok hst
    obtain ⟨hl, hk, hj, hw⟩ := hs
    have hl' := effect_links hl (step_effect hst)
    have hj' := joins_step hl hj (Bool.and_eq_true .. ▸ hok).1 hst
    obtain ⟨turn, ht⟩ := step_tally hl hst
    exact ⟨hl', effect_kin hl hk (step_effect hst), hj',
      fun hu hq hb => own_step hl hl' hst ht hj hw hj' hk hok hu hq hb,
      fun hq hb hn => unborn_step hl ht hj hw hq hb hn,
      fun hu hpc => read_step hl hl' hst ht hj hw hj' hu hpc,
      fun hq hb hp => posted_step hl hl' hst ht hw hq hb hp⟩

/-- In every run in which each `Join` counts its child before the child exits, and no child
    exits while its parent waits for another one, every counter is exact in every state. -/
theorem numwait_exact (h : Reach (step bigEndian) (waitOk · ·) Init k) : k.WaitsExact := by
  obtain ⟨-, -, -, hw⟩ := reach_waits h
  have count : ∀ t th b, k.threads t = some th → k.liveAt th.processID = some b → b.numwait = k.waiting th := by
    intro t th b ht hb
    obtain ⟨q, hq, hb⟩ := liveAt_eq_some.mp hb
    exact hw.own ht hq hb
  refine ⟨count, fun t th b ht hb hout => ?_⟩
  rw [count t th b ht hb]
  cases hm : th.pc.mark with
  | plain => exact waiting_plain hm
  | exited => exact waiting_exited hm
  | joined id => cases hout.symm.trans (Pc.joining_of_mark hm)

/-- The main program executes two programs and joins the second: it waits for it, with
    `numwait` 1, while the first still runs. -/
theorem numwait_exact_in_join : ∃ k, Reach (step false) (waitOk · ·) Init k ∧
    (k.threads mainTid).any (fun th => th.pc == .joinWait 2 2 && k.waiting th == 1) = true ∧
    (k.liveAt 0).any (·.numwait == 1) = true ∧ k.WaitsExact := by
  obtain ⟨k, hk, htest⟩ := exists_reach (step false) waitOk (s := booted)
    (starts 0 :: execs 0 "ping" ++ execs 0 "pong" ++ [.join 0 2, .cont 0, .cont 0])
    (fun k => (k.threads mainTid).any (fun th => th.pc == .joinWait 2 2 && k.waiting th == 1) &&
      (k.liveAt 0).any (·.numwait == 1)) booted_init (by decide +kernel)
  simp only [Bool.and_eq_true] at htest
  exact ⟨k, hk, htest.1, htest.2, numwait_exact hk⟩

/-- The main program executes a child, which exits: `numwait` is 0 and stays. Then main
    joins it, finds it waiting and returns: `numwait` is 1 in a process that waits for
    nobody. -/
theorem numwait_left_over : ∃ k, Reach (step false) (fun _ _ => True) Init k ∧
    (k.threads mainTid).any (fun th => th.pc == .user) = true ∧ (k.liveAt 0).any (·.numwait == 1) = true ∧
    ¬ k.WaitsExact := by
  obtain ⟨k, hk, htest⟩ := exists_reach (step false) (fun _ _ => true) (s := booted)
    (starts 0 :: execs 0 "ping" ++ starts 1 ::
      [.exit 1 0, .cont 1, .cont 1, .cont 1, .join 0 1, .cont 0, .cont 0, .cont 0])
    (fun k => (k.threads mainTid).any (fun th => th.processID == 0 && th.pc == .user) &&
      (k.liveAt 0).any (·.numwait == 1)) booted_init (by decide +kernel)
  simp only [Bool.and_eq_true] at htest
  obtain ⟨th, hth, hpc⟩ := (Option.any_eq_true ..).mp htest.1
  obtain ⟨b, hb, hone⟩ := (Option.any_eq_true ..).mp htest.2
  simp only [Bool.and_eq_true, beq_iff_eq] at hpc hone
  refine ⟨k, hk.mono fun _ _ _ => trivial, by simp [hth, hpc.2], htest.2, fun hx => ?_⟩
  have h0 := hx.outside mainTid th b hth (by rw [hpc.1]; exact hb) (by rw [hpc.2]; rfl)
  cases hone.symm.trans h0

end Kernel

end Nachos

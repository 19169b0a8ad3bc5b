/-
  Nachos.Userprog.Slots — the slots of the process table over whole runs.

  `Links` holds in every reachable state: every live thread other than the main one has its
  own slot, whose PCB is alive, names it, and has its bit set; a PCB without a thread is in
  the hands of the one thread that is making it a process. `ExecUpdate` takes a slot before it
  looks at the name.
-/

import Nachos.Userprog.Loading
import Nachos.Userprog.Table

namespace Nachos

open Function (update update_comm update_of_ne update_self)
open Lib

namespace Table

open Kernel (mainTid)

structure Links (T : Table) : Prop where
  size : T.bm.numBits = maxProcess
  main : ∃ pr, T.procs mainTid = some pr ∧ pr.processID = 0
  root : T.pcb 0 = some 0 ∧ T.live 0 = some ⟨none, -1, mainTid⟩
  marked : ∀ {i q b}, T.pcb i = some q → T.live q = some b → i < maxProcess ∧ T.bm.bit i = true
  inj : ∀ {i j q}, T.pcb i = some q → T.pcb j = some q → i = j
  placed : ∀ {q b}, T.live q = some b → ∃ i, T.pcb i = some q
  ptrs : ∀ {i q}, T.pcb i = some q → q < T.nextPtr
  tids : ∀ {t pr}, T.procs t = some pr → t < T.nextTid
  own : ∀ {t pr}, T.procs t = some pr → t ≠ mainTid → pr.processID ≠ 0 ∧
    ∃ q b, T.pcb pr.processID = some q ∧ T.live q = some b ∧ b.thread = some t
  owner : ∀ {q b t}, T.live q = some b → b.thread = some t → t ≠ mainTid ∧
    ∃ pr, T.procs t = some pr ∧ T.pcb pr.processID = some q
  forking : ∀ {t pr i p}, T.procs t = some pr → pr.role = .forking i p → i ≠ 0 ∧ T.pcb i = some p ∧
    ∃ b, T.live p = some b ∧ b.thread = none ∧ b.creator = t
  exiting : ∀ {t pr x}, T.procs t = some pr → pr.role = .exiting x → pr.processID ≠ 0

variable {T : Table} {t : Tid} {pr : Proc}

namespace Links

/-- A thread on its way out is not the main one. -/
theorem ne_main (h : T.Links) {x : Option Ptr} (ht : T.procs t = some pr) (hr : pr.role = .exiting x) :
    t ≠ mainTid := by
  intro heq
  subst heq
  obtain ⟨pr', h1, h2⟩ := h.main
  cases ht.symm.trans h1
  exact h.exiting ht hr h2

/-- Every live thread has a live PCB in its slot, which names it unless it is the main one. -/
theorem mine (h : T.Links) (ht : T.procs t = some pr) : ∃ q b, T.pcb pr.processID = some q ∧ T.live q = some b ∧
    (b.thread = some t ∨ (pr.processID = 0 ∧ t = mainTid)) := by
  by_cases e : t = mainTid
  · obtain ⟨pr', h1, h2⟩ := h.main
    cases (e ▸ ht).symm.trans h1
    exact ⟨0, _, h2 ▸ h.root.1, h.root.2, .inr ⟨h2, e⟩⟩
  · obtain ⟨-, q, b, h1, h2, h3⟩ := h.own ht e
    exact ⟨q, b, h1, h2, .inl h3⟩

theorem distinct (h : T.Links) {u : Tid} {pu : Proc} (ht : T.procs t = some pr) (hu : T.procs u = some pu)
    (e : pr.processID = pu.processID) : t = u := by
  obtain ⟨q, b, h1, h2, h3⟩ := h.mine ht
  obtain ⟨q', b', h1', h2', h3'⟩ := h.mine hu
  cases (e ▸ h1).symm.trans h1'
  cases h2.symm.trans h2'
  rcases h3 with h3 | ⟨h0, rfl⟩
  · rcases h3' with h3' | ⟨h0', rfl⟩
    · exact Option.some.inj (h3.symm.trans h3')
    · exact Classical.byContradiction fun hn => (h.own ht hn).1 (e.trans h0')
  · exact Classical.byContradiction fun hn => (h.own hu (Ne.symm hn)).1 (e.symm.trans h0)

/-- The slot `Find` takes is not the main process's, and no live PCB is in it. -/
theorem free_slot (h : T.Links) {i : Nat} {r : List Nat} (hc : T.bm.clearBits = i :: r) :
    i < maxProcess ∧ i ≠ 0 ∧ ∀ {q b}, T.pcb i = some q → T.live q = some b → False := by
  obtain ⟨hi, hb⟩ := (T.bm.mem_clearBits i).mp (hc ▸ List.mem_cons_self)
  refine ⟨h.size ▸ hi, ?_, fun hq hl => ?_⟩
  · intro heq
    subst heq
    rw [(h.marked h.root.1 h.root.2).2] at hb
    cases hb
  · rw [(h.marked hq hl).2] at hb
    cases hb

end Links

/-! ## Every step keeps the links -/

namespace Links

theorem go_on (h : T.Links) (pr' : Proc) (ht : T.procs t = some pr) (hid : pr'.processID = pr.processID)
    (hf : ∀ i p, pr'.role = .forking i p → i ≠ 0 ∧ T.pcb i = some p ∧
      ∃ b, T.live p = some b ∧ b.thread = none ∧ b.creator = t)
    (he : ∀ x, pr'.role = .exiting x → pr.processID ≠ 0) :
    Links { T with procs := update T.procs t (some pr') } := by
  have forth : ∀ {u pu}, T.procs u = some pu →
      ∃ p1, update T.procs t (some pr') u = some p1 ∧ p1.processID = pu.processID := by
    intro u pu hu
    by_cases e : u = t
    · subst e
      cases hu.symm.trans ht
      exact ⟨pr', update_self .., hid⟩
    · exact ⟨pu, by rw [update_of_ne e, hu], rfl⟩
  refine { h with main := ?_, tids := ?_, own := ?_, owner := ?_, forking := ?_, exiting := ?_ }
  · obtain ⟨pm, h1, h2⟩ := h.main
    obtain ⟨p1, h3, h4⟩ := forth h1
    exact ⟨p1, h3, h4.trans h2⟩
  · intro u pu hu
    rcases update_some_iff.mp hu with ⟨rfl, rfl⟩ | ⟨-, hu⟩
    · exact h.tids ht
    · exact h.tids hu
  · intro u pu hu hm
    rcases update_some_iff.mp hu with ⟨rfl, rfl⟩ | ⟨-, hu⟩
    · rw [hid]; exact h.own ht hm
    · exact h.own hu hm
  · intro q b u hq hb
    obtain ⟨hm, pu, h1, h2⟩ := h.owner hq hb
    obtain ⟨p1, h3, h4⟩ := forth h1
    exact ⟨hm, p1, h3, by rw [h4]; exact h2⟩
  · intro u pu i p hu hr
    rcases update_some_iff.mp hu with ⟨rfl, rfl⟩ | ⟨-, hu⟩
    · exact hf i p hr
    · exact h.forking hu hr
  · intro u pu x hu hr
    rcases update_some_iff.mp hu with ⟨rfl, rfl⟩ | ⟨-, hu⟩
    · rw [hid]; exact he x hr
    · exact h.exiting hu hr

variable {i : Nat} {q : Ptr} {b : Ident}

theorem mark (h : T.Links) (hi : i < maxProcess) : Links { T with bm := T.bm.markBit i } := by
  refine { h with size := h.size, marked := ?_ }
  intro j q b hq hb
  obtain ⟨hj, hbt⟩ := h.marked hq hb
  refine ⟨hj, ?_⟩
  show (T.bm.markBit i).bit j = true
  rw [T.bm.bit_markBit (h.size ▸ hi), hbt, Bool.or_true]

/-- When a new PCB goes into slot `i`, which no live PCB is in, a live PCB stays in its slot. -/
theorem kept_by_new (h : T.Links) {j : Nat} {c : Ident}
    (hf : ∀ {q b}, T.pcb i = some q → T.live q = some b → False) (b : Ident) (hq : T.pcb j = some q)
    (hc : T.live q = some c) : update T.pcb i (some T.nextPtr) j = some q ∧
      update T.live T.nextPtr (some b) q = some c := by
  have hj : j ≠ i := by intro heq; subst heq; exact hf hq hc
  exact ⟨update_some_iff.mpr (.inr ⟨hj, hq⟩), update_some_iff.mpr (.inr ⟨Nat.ne_of_lt (h.ptrs hq), hc⟩)⟩

/-- A new PCB without a thread goes into slot `i`, which no live PCB is in. -/
theorem new_pcb (h : T.Links) (hi : i < maxProcess) (h0 : i ≠ 0) (hbt : T.bm.bit i = true)
    (hf : ∀ {q b}, T.pcb i = some q → T.live q = some b → False) (hb : b.thread = none) : Links { T with
      pcb := update T.pcb i (some T.nextPtr)
      live := update T.live T.nextPtr (some b)
      nextPtr := T.nextPtr + 1 } := by
  have fresh : ∀ {j q}, T.pcb j = some q → q ≠ T.nextPtr := fun hq => Nat.ne_of_lt (h.ptrs hq)
  have keep := fun {j q c} => h.kept_by_new (j := j) (q := q) (c := c) hf b
  refine { h with
    root := keep h.root.1 h.root.2, marked := ?_, inj := ?_, placed := ?_, ptrs := ?_, own := ?_, owner := ?_,
    forking := ?_ }
  · intro j q c hq hc
    rcases update_some_iff.mp hq with ⟨rfl, rfl⟩ | ⟨-, hq⟩
    · exact ⟨hi, hbt⟩
    · rcases update_some_iff.mp hc with ⟨rfl, -⟩ | ⟨-, hc⟩
      · exact absurd rfl (fresh hq)
      · exact h.marked hq hc
  · intro j j' q hq hq'
    rcases update_some_iff.mp hq with ⟨rfl, rfl⟩ | ⟨-, hq⟩
    · rcases update_some_iff.mp hq' with ⟨rfl, -⟩ | ⟨-, hq'⟩
      · rfl
      · exact absurd rfl (fresh hq')
    · rcases update_some_iff.mp hq' with ⟨-, e⟩ | ⟨-, hq'⟩
      · exact absurd e.symm (fresh hq)
      · exact h.inj hq hq'
  · intro q c hc
    rcases update_some_iff.mp hc with ⟨rfl, -⟩ | ⟨-, hc⟩
    · exact ⟨i, update_self ..⟩
    · obtain ⟨j, hj⟩ := h.placed hc
      exact ⟨j, (keep hj hc).1⟩
  · intro j q hq
    show q < T.nextPtr + 1
    rcases update_some_iff.mp hq with ⟨-, rfl⟩ | ⟨-, hq⟩
    · exact Nat.lt_succ_self _
    · exact Nat.lt_succ_of_lt (h.ptrs hq)
  · intro u pu hu hm
    obtain ⟨hne, q, c, h1, h2, h3⟩ := h.own hu hm
    exact ⟨hne, q, c, (keep h1 h2).1, (keep h1 h2).2, h3⟩
  · intro q c u hc hu
    rcases update_some_iff.mp hc with ⟨-, rfl⟩ | ⟨-, hc⟩
    · rw [hb] at hu; cases hu
    · obtain ⟨hm, pu, h1, h2⟩ := h.owner hc hu
      exact ⟨hm, pu, h1, (keep h2 hc).1⟩
  · intro u pu j p hu hr
    obtain ⟨hj, h1, c, h2, h3⟩ := h.forking hu hr
    exact ⟨hj, (keep h1 h2).1, c, (keep h1 h2).2, h3⟩

/-- A new thread takes the PCB of slot `i`, which nobody is making a process any more. -/
theorem new_thread (h : T.Links) {p : Ptr} (b' : Ident) (hp : T.pcb i = some p) (hb : T.live p = some b)
    (hn : b.thread = none) (h0 : i ≠ 0) (hid : pr.processID = i) (hrl : pr.role = .fresh)
    (ht : b'.thread = some T.nextTid) (hnb : ∀ {u pu j}, T.procs u = some pu → pu.role ≠ .forking j p) :
    Links { T with
      live := update T.live p (some b')
      procs := update T.procs T.nextTid (some pr)
      nextTid := T.nextTid + 1 } := by
  have old : ∀ {u pu}, T.procs u = some pu → update T.procs T.nextTid (some pr) u = some pu :=
    fun hu => update_some_iff.mpr (.inr ⟨Nat.ne_of_lt (h.tids hu), hu⟩)
  have other : ∀ {q c}, q ≠ p → T.live q = some c → update T.live p (some b') q = some c :=
    fun hq hc => update_some_iff.mpr (.inr ⟨hq, hc⟩)
  obtain ⟨pm, hm, hm0⟩ := h.main
  refine { h with
    main := ⟨pm, old hm, hm0⟩, root := ?_, marked := ?_, placed := ?_, tids := ?_, own := ?_, owner := ?_,
    forking := ?_, exiting := ?_ }
  · refine ⟨h.root.1, other ?_ h.root.2⟩
    intro heq
    subst heq
    exact h0 (h.inj hp h.root.1)
  · intro j q c hq hc
    rcases update_some_iff.mp hc with ⟨rfl, -⟩ | ⟨-, hc⟩
    · exact h.marked hq hb
    · exact h.marked hq hc
  · intro q c hc
    rcases update_some_iff.mp hc with ⟨rfl, -⟩ | ⟨-, hc⟩
    · exact ⟨i, hp⟩
    · exact h.placed hc
  · intro u pu hu
    show u < T.nextTid + 1
    rcases update_some_iff.mp hu with ⟨rfl, -⟩ | ⟨-, hu⟩
    · exact Nat.lt_succ_self _
    · exact Nat.lt_succ_of_lt (h.tids hu)
  · intro u pu hu hmn
    rcases update_some_iff.mp hu with ⟨rfl, rfl⟩ | ⟨-, hu⟩
    · rw [hid]; exact ⟨h0, p, b', hp, update_self .., ht⟩
    obtain ⟨hne, q, c, h1, h2, h3⟩ := h.own hu hmn
    refine ⟨hne, q, c, h1, other ?_ h2, h3⟩
    intro heq
    subst heq
    cases h2.symm.trans hb
    rw [hn] at h3; cases h3
  · intro q c u hc hu
    rcases update_some_iff.mp hc with ⟨rfl, rfl⟩ | ⟨-, hc⟩
    · cases ht.symm.trans hu
      refine ⟨fun e => ?_, pr, update_self .., by rw [hid]; exact hp⟩
      exact absurd (h.tids hm) (by rw [← e]; exact Nat.lt_irrefl _)
    · obtain ⟨hmn, pu, h1, h2⟩ := h.owner hc hu
      exact ⟨hmn, pu, old h1, h2⟩
  · intro u pu j p' hu hr
    rcases update_some_iff.mp hu with ⟨rfl, rfl⟩ | ⟨-, hu⟩
    · rw [hrl] at hr; cases hr
    · obtain ⟨hj, h1, c, h2, h3⟩ := h.forking hu hr
      refine ⟨hj, h1, c, other (fun e => ?_) h2, h3⟩
      exact hnb hu (e ▸ hr)
  · intro u pu x hu hr
    rcases update_some_iff.mp hu with ⟨rfl, rfl⟩ | ⟨-, hu⟩
    · rw [hrl] at hr; cases hr
    · exact h.exiting hu hr

/-- A process other than the main one is removed with its thread. -/
theorem remove (h : T.Links) (ht : T.procs t = some pr) (hm : t ≠ mainTid) (hq : T.pcb pr.processID = some q)
    (hb : T.live q = some b) (hbt : b.thread = some t) (h0 : pr.processID ≠ 0) : Links { T with
      bm := T.bm.clearBit pr.processID
      live := update T.live q none
      procs := update T.procs t none } := by
  have hlt : pr.processID < T.bm.numBits := h.size ▸ (h.marked hq hb).1
  -- the PCBs of other slots stay
  have other : ∀ {j q' c}, j ≠ pr.processID → T.pcb j = some q' → T.live q' = some c →
      update T.live q none q' = some c := by
    intro j q' c hj hq' hc
    refine update_none_iff.mpr ⟨?_, hc⟩
    intro heq
    subst heq
    exact hj (h.inj hq' hq)
  obtain ⟨pm, hmn, hm0⟩ := h.main
  refine { h with
    size := h.size, main := ⟨pm, update_none_iff.mpr ⟨Ne.symm hm, hmn⟩, hm0⟩,
    root := ⟨h.root.1, other (Ne.symm h0) h.root.1 h.root.2⟩,
    marked := ?_, placed := ?_, tids := ?_, own := ?_, owner := ?_, forking := ?_, exiting := ?_ }
  · intro j q' c hq' hc
    obtain ⟨hne, hc⟩ := update_none_iff.mp hc
    obtain ⟨hj, hbi⟩ := h.marked hq' hc
    refine ⟨hj, ?_⟩
    show (T.bm.clearBit pr.processID).bit j = true
    have : pr.processID ≠ j := by
      intro heq
      subst heq
      exact hne (Option.some.inj (hq'.symm.trans hq))
    rw [T.bm.bit_clearBit hlt, hbi, decide_eq_false this]
    rfl
  · intro q' c hc
    exact h.placed (update_none_iff.mp hc).2
  · intro u pu hu
    exact h.tids (update_none_iff.mp hu).2
  · intro u pu hu hmu
    obtain ⟨hne, hu⟩ := update_none_iff.mp hu
    obtain ⟨hp, q', c, h1, h2, h3⟩ := h.own hu hmu
    refine ⟨hp, q', c, h1, other ?_ h1 h2, h3⟩
    intro e
    exact hne (h.distinct hu ht e)
  · intro q' c u hc hu
    obtain ⟨hne, hc⟩ := update_none_iff.mp hc
    obtain ⟨hmu, pu, h1, h2⟩ := h.owner hc hu
    refine ⟨hmu, pu, update_none_iff.mpr ⟨?_, h1⟩, h2⟩
    intro heq
    subst heq
    cases h1.symm.trans ht
    exact hne (Option.some.inj (h2.symm.trans hq))
  · intro u pu j p hu hr
    obtain ⟨-, hu⟩ := update_none_iff.mp hu
    obtain ⟨hj, h1, c, h2, h3, h4⟩ := h.forking hu hr
    refine ⟨hj, h1, c, other ?_ h1 h2, h3, h4⟩
    intro heq
    subst heq
    cases h1.symm.trans hq
    cases h2.symm.trans hb
    rw [h3] at hbt; cases hbt
  · intro u pu x hu hr
    exact h.exiting (update_none_iff.mp hu).2 hr

end Links

end Table

namespace Kernel

variable {bigEndian : Bool} {k k' : Kernel} {e : Event} {T : Table} {t : Tid} {th : Thread} {g g' : Nat → Word}

/-- A live thread has its bit and its PCB: `ExitUpdate` finds both. -/
theorem process_found (h : k.table.Links) {bm : BitMap} (ht : k.threads t = some th) :
    ¬ ((th.processID ≠ 0 ∧ k.bm.bit th.processID = false ∧ bm = k.bm) ∨
      (th.pc = .exitRemove ∧ k.pcb th.processID = none ∧ bm = k.bm.clearBit th.processID)) := by
  obtain ⟨q, b, h1, h2, -⟩ := h.mine (table_procs ht)
  intro h'
  rcases h' with ⟨-, hb, -⟩ | ⟨-, hn, -⟩
  · cases hb.symm.trans (h.marked h1 h2).2
  · cases hn.symm.trans h1

theorem effect_links (h : k.table.Links) (he : Effect bigEndian k e T) : T.Links := by
  cases he with
  | quiet => exact h
  | leak hcn ht hpc hc hrj => exact h.mark (h.free_slot hc).1
  | @reserve th name self i r ht hpc hc hrj =>
    obtain ⟨hi, h0, hfr⟩ := h.free_slot hc
    have hbt : (k.bm.markBit i).bit i = true := by
      rw [k.bm.bit_markBit (h.size ▸ hi)]; simp
    have h1 := (h.mark hi).new_pcb (b := ⟨none, th.processID, e.tid⟩) hi h0 hbt hfr rfl
    refine h1.go_on (t := e.tid) { th.proc with role := .forking i k.nextPtr } (table_procs ht) rfl ?_
      (fun x hx => by cases hx)
    intro i' p hr
    cases hr
    exact ⟨h0, update_self .., _, update_self .., rfl, rfl⟩
  | @fork th i p b ht hpc hb =>
    have hrl : th.proc.role = .forking i p := by simp [Thread.proc, hpc, Pc.role]
    obtain ⟨h0, hp, c, hc, hn, hcr⟩ := h.forking (table_procs ht) hrl
    have hne : e.tid ≠ k.nextTid := Nat.ne_of_lt (h.tids (table_procs ht))
    have h1 := h.go_on { th.proc with role := .free } (table_procs ht) rfl
      (fun _ _ hr => by cases hr) (fun _ hr => by cases hr)
    rw [update_comm hne.symm]
    refine h1.new_thread ⟨some k.nextTid, th.processID, b.creator⟩ hp hc hn h0 rfl rfl rfl ?_
    -- only this thread was making the PCB a process
    intro u pu j hu hr
    rcases update_some_iff.mp hu with ⟨rfl, rfl⟩ | ⟨hut, hu⟩
    · cases hr
    · obtain ⟨-, -, c', hc', -, hcr'⟩ := h.forking hu hr
      cases hc.symm.trans hc'
      exact hut (hcr'.symm.trans hcr)
  | exits ht hpc h0 =>
    exact h.go_on _ (table_procs ht) rfl (fun _ _ hr => by cases hr) fun _ _ => h0
  | counted ht hpc =>
    exact h.go_on _ (table_procs ht) rfl (fun _ _ hr => by cases hr) fun _ _ =>
      h.exiting (table_procs ht) (by rw [Thread.proc, hpc]; rfl)
  | @remove th q b _ _ hcn ht hpc hlt hq hb hf =>
    have hrl : th.proc.role = .exiting none := by simp [Thread.proc, hpc, Pc.role]
    have hm := h.ne_main (table_procs ht) hrl
    obtain ⟨h0, q', b', h1, h2, h3⟩ := h.own (table_procs ht) hm
    cases h1.symm.trans hq
    exact { h.remove (table_procs ht) hm h1 h2 h3 h0 with size := h.size }
  | finish ht hcs hf => exact absurd hcs (process_found h ht)
  | halt ht hf => exact { h with size := h.size }
  | start ht hpc he hb hen =>
    have h1 := h.go_on ⟨_, some k.nextSpace, .free⟩ (table_procs ht) rfl (fun _ _ hr => by cases hr)
      (fun _ hr => by cases hr)
    exact { h1 with size := h.size }

theorem initial_threads (h : (initial g g').threads t = some th) : t = mainTid ∧ th = ⟨0, .start, false, none, 0⟩ := by
  by_cases e : t = mainTid
  · subst e; cases h; exact ⟨rfl, rfl⟩
  · simp [initial, e] at h

theorem initial_procs {pr : Proc} (h : (initial g g').table.procs t = some pr) :
    t = mainTid ∧ pr = ⟨0, none, .fresh⟩ := by
  obtain ⟨th, ht, rfl⟩ := procs_eq_some.mp h
  obtain ⟨rfl, rfl⟩ := initial_threads ht
  exact ⟨rfl, rfl⟩

theorem initial_live {q : Ptr} {b : Ident} (h : (initial g g').table.live q = some b) :
    q = 0 ∧ b = ⟨none, -1, mainTid⟩ := by
  by_cases e : q = 0
  · subst e; cases h; exact ⟨rfl, rfl⟩
  · simp [initial, table, e] at h

theorem initial_links (g g' : Nat → Word) : (initial g g').table.Links := by
  have hn := BitMap.numBits_new maxProcess g
  have hp : ∀ {i q}, (initial g g').table.pcb i = some q → i = 0 ∧ q = 0 := by
    intro i q h
    by_cases e : i = 0
    · subst e; cases h; exact ⟨rfl, rfl⟩
    · simp [initial, table, e] at h
  refine
    { size := (BitMap.numBits_markBit _ 0).trans hn, main := ⟨_, rfl, rfl⟩, root := ⟨rfl, rfl⟩, marked := ?_, inj := ?_,
      placed := ?_, ptrs := ?_, tids := ?_, own := ?_, owner := ?_, forking := ?_, exiting := ?_ }
  · intro i q b h _
    obtain ⟨rfl, -⟩ := hp h
    refine ⟨by decide, ?_⟩
    show ((BitMap.new maxProcess g).markBit 0).bit 0 = true
    rw [BitMap.bit_markBit _ (by rw [hn]; decide)]
    rfl
  · intro i j q h h'
    rw [(hp h).1, (hp h').1]
  · intro q b h
    obtain ⟨rfl, -⟩ := initial_live h
    exact ⟨0, rfl⟩
  · intro i q h
    rw [(hp h).2]
    exact Nat.one_pos
  · intro t pr h
    rw [(initial_procs h).1]
    exact Nat.one_pos
  · intro t pr h hm
    exact absurd (initial_procs h).1 hm
  · intro q b t h hb
    rw [(initial_live h).2] at hb
    cases hb
  · intro t pr i p h hr
    rw [(initial_procs h).2] at hr
    cases hr
  · intro t pr x h hr
    rw [(initial_procs h).2] at hr
    cases hr

/-- The links hold in every reachable state, whatever the programs do. -/
theorem reach_links {ok : Kernel → Event → Prop} (h : Reach (step bigEndian) ok Init k) : k.table.Links :=
  h.inv (by rintro _ ⟨g, g', rfl⟩; exact initial_links g g') fun _ _ _ hs _ hst => effect_links hs (step_effect hst)

/-! ## Slots are not lost -/

/-- The live PCB in slot `i`. -/
def liveAt (k : Kernel) (i : Nat) : Option PCB := (k.pcb i).bind k.heap

theorem liveAt_eq_some {i : Nat} {b : PCB} : k.liveAt i = some b ↔ ∃ q, k.pcb i = some q ∧ k.heap q = some b := by
  simp [liveAt, Option.bind_eq_some_iff]

/-- The bitmap says which slots hold a process, and each process has its own. -/
structure SlotsExact (k : Kernel) : Prop where
  bits : ∀ i < maxProcess, k.bm.bit i = true ↔ (k.liveAt i).isSome
  main : ∃ th, k.threads mainTid = some th ∧ th.processID = 0
  started : ∀ i b c, k.liveAt i = some b → b.thread = some c → ∃ th, k.threads c = some th ∧ th.processID = i
  present : ∀ t th, k.threads t = some th → t ≠ mainTid →
    th.processID ≠ 0 ∧ ∃ b, k.liveAt th.processID = some b ∧ b.thread = some t
  distinct : ∀ t u th th', k.threads t = some th → k.threads u = some th' → th.processID = th'.processID → t = u

/-- `ExecUpdate` about to look at a name does not reject it, or has no slot to lose. -/
def slotOk (k : Kernel) : Event → Bool
  | .cont t =>
    match k.threads t with
    | some th =>
      match th.pc with
      | .execSlot name self => !rejects name 0 self || k.bm.clearBits.isEmpty
      | _ => true
    | none => true
  | _ => true

/-- Every set bit has a live PCB. -/
def Exact (T : Table) : Prop := ∀ i < maxProcess, T.bm.bit i = true → ∃ q b, T.pcb i = some q ∧ T.live q = some b

theorem rejects_nat (name : Option String) (i : Nat) (self : String) : rejects name i self = rejects name 0 self := by
  have h : ¬ (i : Int) < 0 := by omega
  simp [rejects, h]

theorem effect_exact (hl : k.table.Links) (h : Exact k.table) (hok : k.slotOk e) (he : Effect bigEndian k e T) :
    Exact T := by
  cases he with
  | quiet => exact h
  | leak hcn ht hpc hc hr =>
    rw [rejects_nat] at hr
    rw [hcn] at hok
    simp [slotOk, ht, hpc, hr, hc] at hok
  | @reserve th name self i r ht hpc hc hr =>
    obtain ⟨hi, -, hfr⟩ := hl.free_slot hc
    intro j hj hbt
    by_cases e' : j = i
    · exact ⟨k.nextPtr, _, by rw [e']; exact update_self .., update_self ..⟩
    rw [show (k.bm.markBit i).bit j = (decide (i = j) || k.bm.bit j) from k.bm.bit_markBit (hl.size ▸ hi) j,
      decide_eq_false (Ne.symm e'), Bool.false_or] at hbt
    obtain ⟨q, b, h1, h2⟩ := h j hj hbt
    exact ⟨q, b, update_some_iff.mpr (.inr ⟨e', h1⟩),
      update_some_iff.mpr (.inr ⟨Nat.ne_of_lt (hl.ptrs h1), h2⟩)⟩
  | @fork th i p b ht hpc hb =>
    intro j hj hbt
    obtain ⟨q, c, h1, h2⟩ := h j hj hbt
    by_cases e' : q = p
    · exact ⟨q, _, h1, by rw [e']; exact update_self ..⟩
    · exact ⟨q, c, h1, update_some_iff.mpr (.inr ⟨e', h2⟩)⟩
  | exits | counted | halt | start => exact h
  | @remove th q b _ _ hcn ht hpc hlt hq hb hf =>
    intro j hj hbt
    rw [show (k.bm.clearBit th.processID).bit j = (!decide (th.processID = j) && k.bm.bit j) from
      k.bm.bit_clearBit hlt j, Bool.and_eq_true, Bool.not_eq_true', decide_eq_false_iff_not] at hbt
    obtain ⟨q', c, h1, h2⟩ := h j hj hbt.2
    refine ⟨q', c, h1, update_none_iff.mpr ⟨?_, h2⟩⟩
    intro heq
    subst heq
    exact hbt.1 (hl.inj hq h1)
  | finish ht hcs hf => exact absurd hcs (process_found hl ht)

theorem initial_exact (g g' : Nat → Word) : Exact (initial g g').table := by
  intro i hi hb
  have h : (BitMap.new maxProcess g).markBit 0 |>.bit i := hb
  rw [BitMap.bit_markBit _ (by rw [BitMap.numBits_new]; decide), BitMap.bit_new maxProcess g hi] at h
  have h0 : 0 = i := by simpa using h
  exact ⟨0, _, by rw [← h0]; rfl, rfl⟩

theorem reach_exact (h : Reach (step bigEndian) (slotOk · ·) Init k) : k.table.Links ∧ Exact k.table := by
  refine h.inv (P := fun k => k.table.Links ∧ Exact k.table) ?_ ?_
  · intro _ h'
    obtain ⟨g, g', rfl⟩ := h'
    exact ⟨initial_links g g', initial_exact g g'⟩
  · intro s e s' h' hok hst
    obtain ⟨hl, hx⟩ := h'
    exact ⟨effect_links hl (step_effect hst), effect_exact hl hx hok (step_effect hst)⟩

theorem slotsExact (hl : k.table.Links) (hx : Exact k.table) : k.SlotsExact where
  bits i hi := by
    rw [Option.isSome_iff_exists]
    constructor
    · intro hbt
      obtain ⟨q, c, h1, h2⟩ := hx i hi hbt
      obtain ⟨b, hb, -⟩ := live_eq_some.mp h2
      exact ⟨b, liveAt_eq_some.mpr ⟨q, h1, hb⟩⟩
    · intro h'
      obtain ⟨b, hb⟩ := h'
      obtain ⟨q, h1, h2⟩ := liveAt_eq_some.mp hb
      exact (hl.marked h1 (table_live h2)).2
  main := by
    obtain ⟨pr, h1, h2⟩ := hl.main
    obtain ⟨th, ht, rfl⟩ := procs_eq_some.mp h1
    exact ⟨th, ht, h2⟩
  started i b c hb hc := by
    obtain ⟨q, h1, h2⟩ := liveAt_eq_some.mp hb
    obtain ⟨-, pr, h3, h4⟩ := hl.owner (table_live h2) hc
    obtain ⟨th, ht, rfl⟩ := procs_eq_some.mp h3
    exact ⟨th, ht, hl.inj h4 h1⟩
  present t th ht hm := by
    obtain ⟨h0, q, c, h1, h2, h3⟩ := hl.own (table_procs ht) hm
    obtain ⟨b, hb, rfl⟩ := live_eq_some.mp h2
    exact ⟨h0, b, liveAt_eq_some.mpr ⟨q, h1, hb⟩, h3⟩
  distinct t u th th' ht hu e := hl.distinct (table_procs ht) (table_procs hu) e

/-- A name that is not rejected for itself is rejected by a full table only. -/
theorem execSlot_rejected {name : Option String} {self : String}
    (hok : rejects name 0 self = false ∨ k.bm.clearBits = [])
    (hr : ∃ th', (k.execSlot t th name self).threads t = some th' ∧ th'.pc = .user) :
    (k.execSlot t th name self).bm = k.bm ∧ (k.execSlot t th name self).pcb = k.pcb ∧
      (k.execSlot t th name self).heap = k.heap := by
  cases hc : k.bm.clearBits with
  | nil =>
    have h : rejects name (-1) self = true := by simp [rejects]
    simp [execSlot, k.bm.find_nil hc, h, execV]
  | cons i r =>
    have h : rejects name i self = false := by
      rw [rejects_nat]
      exact hok.resolve_right (by rw [hc]; exact List.cons_ne_nil i r)
    obtain ⟨th', ht', hpc⟩ := hr
    simp only [execSlot, k.bm.find_cons hc, h, Bool.false_eq_true, if_false, setThread_threads, update_self,
      Option.some.injEq] at ht'
    rw [← ht'] at hpc
    cases hpc

/-- In every run in which no `ExecUpdate` that finds a free slot is given a name it
    rejects, the bits are exactly the processes, and a call that answers -1 has changed
    neither the bitmap nor the slots. -/
theorem slots_never_lost (h : Reach (step bigEndian) (slotOk · ·) Init k) :
    k.SlotsExact ∧
    ∀ t th name self k', k.threads t = some th → th.pc = .execSlot name self → k.slotOk (.cont t) →
      step bigEndian k (.cont t) = .ok k' → (∃ th', k'.threads t = some th' ∧ th'.pc = .user) →
      k'.bm = k.bm ∧ k'.pcb = k.pcb ∧ k'.heap = k.heap := by
  obtain ⟨hl, hx⟩ := reach_exact h
  refine ⟨slotsExact hl hx, fun t th name self k' ht hpc hok hst hrej => ?_⟩
  have hok' : rejects name 0 self = false ∨ k.bm.clearBits = [] := by simpa [slotOk, ht, hpc] using hok
  unfold step at hst
  split at hst
  · cases hst; exact ⟨rfl, rfl, rfl⟩
  · simp only [Event.tid, ht] at hst
    split at hst
    · cases hst; exact ⟨rfl, rfl, rfl⟩
    · simp only [act, cont, hpc, Except.ok.injEq] at hst
      subst hst
      exact execSlot_rejected hok' hrej

/-- Nachos just booted, with zeroes in fresh memory. -/
def booted : Kernel := initial (fun _ => 0) (fun _ => 0)

theorem booted_init : Init booted := ⟨_, _, rfl⟩

/-- Thread `t` loads a small program and enters it. -/
def starts (t : Tid) : Event := .start t .ofFilename (some codeOnly) ⟨[], 0⟩ (fun _ => 0)

/-- Thread `t` runs `Exec(name)` without being preempted. -/
def execs (t : Tid) (name : String) : List Event :=
  [.exec t (some name) "main", .cont t, .cont t, .cont t, .cont t]

/-- The main program executes another one: slot 1 is marked, and holds it. -/
theorem first_child_has_slot : ∃ k, Reach (step false) (slotOk · ·) Init k ∧ k.bm.bit 1 = true ∧ k.SlotsExact := by
  obtain ⟨k, hk, hbit⟩ := exists_reach (step false) slotOk (s := booted)
    (starts 0 :: execs 0 "ping") (fun k => k.bm.bit 1) booted_init (by decide +kernel)
  exact ⟨k, hk, hbit, (slots_never_lost hk).1⟩

/-- `Exec("./test/scheduler")` is refused and its slot is gone: bit 1 is set and slot 1 empty. -/
theorem rejected_name_loses_slot : ∃ k, Reach (step false) (fun _ _ => True) Init k ∧
    k.bm.bit 1 = true ∧ k.pcb 1 = none ∧ (k.threads mainTid).any (fun th => th.pc == .user && th.r2 == -1) = true ∧
    ¬ k.SlotsExact := by
  obtain ⟨k, hk, htest⟩ := exists_reach (step false) (fun _ _ => true) (s := booted)
    [starts 0, .exec 0 (some "./test/scheduler") "main", .cont 0]
    (fun k => k.bm.bit 1 && k.pcb 1 == none && (k.threads mainTid).any fun th => th.pc == .user && th.r2 == -1)
    booted_init (by decide +kernel)
  simp only [Bool.and_eq_true, beq_iff_eq] at htest
  refine ⟨k, hk.mono fun _ _ _ => trivial, htest.1.1, htest.1.2, htest.2, fun hx => ?_⟩
  have := (hx.bits 1 (by decide)).mp htest.1.1
  simp [liveAt, htest.1.2] at this

end Kernel

end Nachos

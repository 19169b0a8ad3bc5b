/-
  Nachos.Userprog.JoinSafety — `JoinUpdate(id)` with any `id`, over whole runs.

  `JoinUpdate` checks only that `id` is not negative before it reads `pcb[id]`, and reads
  `pcb[id]` again after each sleep.
  - `join_safe`: as long as every call names a live process, one with the caller's number
    as `parentID` only if the caller executed it and has not joined it yet, every part of
    every call touches only a live PCB, and a call for anyone but a live child answers -1
    and changes nothing else.

  `step_detail` says what a step does to one PCB's exit code and exit semaphore and to the
  place of one thread.
-/

import Nachos.Userprog.Slots

namespace Nachos

open Function (update update_self)

/-- The process a thread inside `JoinUpdate` is joining. -/
def Pc.joining : Pc → Option Nat
  | .joinP id _ | .joinInc id _ | .joinCall id | .joinWait id _ | .joinRead id => some id
  | _ => none

/-- Outside `JoinUpdate`, and not asleep in `ExitWait` or past it. -/
def Pc.plain : Pc → Bool
  | .joinP .. | .joinInc .. | .joinCall _ | .joinWait .. | .joinRead _ | .exitWait _ | .exitRemove => false
  | _ => true

/-- The exit code and the value of the exit semaphore stay, with the creator. -/
structure PCB.Keeps (b b' : PCB) : Prop where
  creator : b'.creator = b.creator
  exitcode : b'.exitcode = b.exitcode
  exitsem : b'.exitsem.value = b.exitsem.value

theorem PCB.Keeps.rfl {b : PCB} : b.Keeps b := ⟨Eq.refl _, Eq.refl _, Eq.refl _⟩

theorem PCB.Keeps.trans {b b' b'' : PCB} (h : b.Keeps b') (h' : b'.Keeps b'') : b.Keeps b'' :=
  ⟨h'.creator.trans h.creator, h'.exitcode.trans h.exitcode, h'.exitsem.trans h.exitsem⟩

theorem PCB.keeps_setSem (b : PCB) (x : Semaphore) {s : Sem} (hs : s ≠ .exitsem) : b.Keeps (b.setSem x s) := by
  cases s with
  | exitsem => exact absurd rfl hs
  | joinsem | multex => exact ⟨rfl, rfl, rfl⟩

namespace Kernel

open Lib

variable {bigEndian : Bool} {k k' : Kernel} {e : Event} {t : Tid} {th : Thread} {p : Ptr} {woken : Option Tid}
  {s : Sem} {waiting next : Pc} {f : PCB → PCB} {i : Nat} {b : PCB}

/-! ## What a step does to one PCB and one thread -/

/-- How a live PCB looks after a step: it keeps exit code and exit semaphore unless its
    process calls `ExitUpdate`, a `Join` that then returns calls its `ExitRelease`, or its
    process passes `ExitWait`. -/
inductive PCBStep (k : Kernel) (e : Event) (k' : Kernel) (q : Ptr) (b b' : PCB) : Prop
  | keeps : b.Keeps b' → PCBStep k e k' q b b'
  | exits {th : Thread} : k.threads e.tid = some th → th.pc = .user → k.pcb th.processID = some q →
      b'.creator = b.creator → b'.exitsem.value = b.exitsem.value → PCBStep k e k' q b b'
  | release {th : Thread} {id : Nat} : k.threads e.tid = some th → th.pc = .joinRead id → k.pcb id = some q →
      b'.creator = b.creator → b'.exitcode = b.exitcode →
      (∀ {th'}, k'.threads e.tid = some th' → th'.pc = .user) → PCBStep k e k' q b b'
  | pass : 0 < b.exitsem.value → b'.creator = b.creator → b'.exitcode = b.exitcode → PCBStep k e k' q b b'

/-- Where the thread of the step is afterwards, for the places `JoinUpdate` and the end of
    `ExitUpdate` depend on. -/
inductive PcStep (k : Kernel) (e : Event) (th : Thread) : Pc → Prop
  | plain {pc : Pc} : pc.plain = true → PcStep k e th pc
  | stay : PcStep k e th th.pc
  | join {id : Int} {p : Ptr} {b : PCB} {pc : Pc} : e = .join e.tid id → th.pc = .user → 0 ≤ id →
      k.liveAt id.toNat = some b → b.parentID = th.processID → k.pcb th.processID = some p →
      pc = .joinP id.toNat p ∨ pc = .joinInc id.toNat p → PcStep k e th pc
  | joinInc {id : Nat} {p : Ptr} : th.pc = .joinP id p → PcStep k e th (.joinInc id p)
  | joinCall {id : Nat} {p : Ptr} : th.pc = .joinInc id p → PcStep k e th (.joinCall id)
  | joinWait {id : Nat} {q : Ptr} : th.pc = .joinCall id → k.pcb id = some q → PcStep k e th (.joinWait id q)
  | joinRead {id : Nat} : th.pc.joining = some id → PcStep k e th (.joinRead id)
  | exitWait {q : Ptr} : th.pc = .exitCall → k.pcb th.processID = some q → PcStep k e th (.exitWait q)
  | exitRemove {q : Ptr} {b : PCB} : (th.pc = .exitCall ∧ k.pcb th.processID = some q) ∨ th.pc = .exitWait q →
      k.heap q = some b → 0 < b.exitsem.value → PcStep k e th .exitRemove

structure Detail (k : Kernel) (e : Event) (k' : Kernel) : Prop where
  pcb : ∀ {q b}, k.heap q = some b → (∃ b', k'.heap q = some b' ∧ PCBStep k e k' q b b') ∨
    (k'.heap q = none ∧ ∃ th, k.threads e.tid = some th ∧ th.pc = .exitRemove ∧ k.pcb th.processID = some q)
  thread : ∀ {u th'}, k'.threads u = some th' →
    (∃ th, k.threads u = some th ∧ th'.processID = th.processID ∧
      (th'.pc = th.pc ∨ (u = e.tid ∧ PcStep k e th th'.pc))) ∨ (u = k.nextTid ∧ th'.pc = .start)

/-- A thread at a place where no thread starts was at one before, or is the one that moved. -/
theorem Detail.was {P : Pc → Prop} {u : Tid} {th' : Thread} (hd : Detail k e k') (hu : k'.threads u = some th')
    (hP : P th'.pc) (hs : ¬ P .start) : ∃ th, k.threads u = some th ∧ th'.processID = th.processID ∧
      (P th.pc ∨ (u = e.tid ∧ PcStep k e th th'.pc)) := by
  rcases hd.thread hu with ⟨th, ht, hp, hpc | hm⟩ | ⟨-, hst⟩
  · exact ⟨th, ht, hp, .inl (hpc ▸ hP)⟩
  · exact ⟨th, ht, hp, .inr hm⟩
  · exact absurd (hst ▸ hP) hs

theorem Detail.refl : Detail k e k :=
  ⟨fun hb => .inl ⟨_, hb, .keeps .rfl⟩, fun hu => .inl ⟨_, hu, rfl, .inl rfl⟩⟩

theorem thread_setThread {th' x : Thread} {u : Tid} (hu : ((k'.setThread e.tid th').ready woken).threads u = some x)
    (ht : k.threads e.tid = some th) (hid : th'.processID = th.processID) (hpc : PcStep k e th th'.pc)
    (hk : k'.threads = k.threads) :
    ∃ th, k.threads u = some th ∧ x.processID = th.processID ∧ (x.pc = th.pc ∨ (u = e.tid ∧ PcStep k e th x.pc)) := by
  simp only [ready_threads, setThread_threads, hk, Option.map_eq_some_iff] at hu
  obtain ⟨y, hy, rfl⟩ := hu
  have hs : ∀ z : Thread, (if woken = some u then { z with blocked := false } else z).processID = z.processID ∧
      (if woken = some u then { z with blocked := false } else z).pc = z.pc := by
    intro z
    split <;> exact ⟨rfl, rfl⟩
  rw [(hs y).1, (hs y).2]
  rcases update_some_iff.mp hy with ⟨rfl, rfl⟩ | ⟨-, hy⟩
  · exact ⟨th, ht, hid, .inr ⟨rfl, hpc⟩⟩
  · exact ⟨y, hy, rfl, .inl rfl⟩

/-- A step that changes no PCB and moves the thread to `th'`. -/
theorem thread_detail (th' : Thread) (ht : k.threads e.tid = some th) (hid : th'.processID = th.processID)
    (hpc : PcStep k e th th'.pc) (hk : k'.threads = k.threads) (hh : k'.heap = k.heap) :
    Detail k e ((k'.setThread e.tid th').ready woken) :=
  ⟨fun hb => .inl ⟨_, by simpa [hh] using hb, .keeps .rfl⟩, fun hu => .inl (thread_setThread hu ht hid hpc hk)⟩

theorem setPCB_rel {R : Ptr → PCB → PCB → Prop} (b' : PCB) (hr : ∀ q c, R q c c) {q : Ptr} {c : PCB}
    (hb : k.heap p = some b) (hR : R p b b') (hc : k.heap q = some c) : ∃ c', (k.setPCB p b').heap q = some c' ∧ R q c c' := by
  by_cases e' : q = p
  · subst e'
    cases hb.symm.trans hc
    exact ⟨b', update_self .., hR⟩
  · exact ⟨c, update_some_iff.mpr (.inr ⟨e', hc⟩), hr q c⟩

section
variable (ht : k.threads e.tid = some th)
include ht

theorem semP_detail (h : k.semP e.tid th p s waiting next = .ok k') (hw : PcStep k e th waiting)
    (hn : ∀ b, k.heap p = some b → 0 < (b.sem s).value → PcStep k e th next) : Detail k e k' := by
  obtain ⟨b, hb, rfl⟩ := semP_ok.mp h
  refine ⟨fun hc => .inl (setPCB_rel _ (fun _ _ => .keeps .rfl) hb ?_ hc), fun {u x} hu => ?_⟩
  · by_cases hs : s = .exitsem
    · subst hs
      by_cases h0 : b.exitsem.value = 0
      · exact .keeps ⟨rfl, rfl, by simp [PCB.setSem, PCB.sem, Semaphore.p, h0]⟩
      · exact .pass (Nat.pos_of_ne_zero h0) rfl rfl
    · exact .keeps (b.keeps_setSem _ hs)
  · rw [← ready_none (k := setThread _ _ _)] at hu
    refine .inl (thread_setThread hu ht rfl ?_ rfl)
    show PcStep k e th (if ((b.sem s).p e.tid).2 then next else waiting)
    split
    · rename_i hp
      refine hn b hb (Nat.pos_of_ne_zero fun h0 => ?_)
      simp [Semaphore.p, h0] at hp
    · exact hw

theorem semV_detail {th' : Thread} (h : k.semV e.tid th' p s f = .ok k')
    (hid : th'.processID = th.processID) (hpc : PcStep k e th th'.pc) (hf : ∀ b : PCB, b.Keeps (f b))
    (hs : s = .exitsem → th'.pc = .user ∧ ∃ id, th.pc = .joinRead id ∧ k.pcb id = some p) : Detail k e k' := by
  obtain ⟨b, hb, rfl⟩ := semV_ok.mp h
  refine ⟨fun hc => .inl (setPCB_rel _ (fun _ _ => .keeps .rfl) hb ?_ hc), fun hu => .inl (thread_setThread hu ht hid hpc rfl)⟩
  by_cases hse : s = .exitsem
  · obtain ⟨hus, id, h1, h2⟩ := hs hse
    subst hse
    refine .release ht h1 h2 (hf b).creator (hf b).exitcode fun {x} hx => ?_
    simp only [ready_threads, setThread_threads, update_self, Option.map_some, Option.some.injEq] at hx
    rw [← hx]
    split <;> exact hus
  · exact .keeps ((hf b).trans ((f b).keeps_setSem ((f b).sem s).v.1 hse))

theorem finish_detail {frames : BitMap} {spaces : SpaceId → Option AddrSpace} {heap : Ptr → Option PCB} {bm : BitMap}
    (hh : ∀ {q b}, k.heap q = some b → heap q = some b ∨ (heap q = none ∧ th.pc = .exitRemove ∧
      k.pcb th.processID = some q)) :
    Detail k e { k with
      bm, heap, gPhysPageBitMap := frames, spaces, threads := update k.threads e.tid none } := by
  constructor
  · intro q b hb
    rcases hh hb with h | ⟨h, h1, h2⟩
    · exact .inl ⟨b, h, .keeps .rfl⟩
    · exact .inr ⟨h, th, ht, h1, h2⟩
  · intro u x hu
    exact .inl ⟨x, (update_none_iff.mp hu).2, rfl, .inl rfl⟩

theorem move_detail (hl : k.table.Links) (h : Move bigEndian k e th k') : Detail k e k' := by
  cases h with
  | stay h => subst h; exact .refl
  | p hw h =>
    cases hw with
    | joinUpdate he hpc hps hq hb hpr hp =>
      have step := fun pc => @PcStep.join k e th _ _ _ pc he hpc hps (liveAt_eq_some.mpr ⟨_, hq, hb⟩) hpr hp
      exact semP_detail ht h (step _ (.inl rfl)) fun _ _ _ => step _ (.inr rfl)
    | joinP hpc => exact semP_detail ht h (hpc ▸ .stay) fun _ _ _ => .joinInc hpc
    | joinCall hpc hq => exact semP_detail ht h (.joinWait hpc hq) fun _ _ _ => .joinRead (by rw [hpc]; rfl)
    | joinWait hpc => exact semP_detail ht h (hpc ▸ .stay) fun _ _ _ => .joinRead (by rw [hpc]; rfl)
    | exitP => exact semP_detail ht h (.plain rfl) fun _ _ _ => .plain rfl
    | exitCall hpc hq =>
      exact semP_detail ht h (.exitWait hpc hq) fun _ hb h0 => .exitRemove (.inl ⟨hpc, hq⟩) hb h0
    | exitWait hpc => exact semP_detail ht h (hpc ▸ .stay) fun _ hb h0 => .exitRemove (.inr hpc) hb h0
  | v hs h =>
    cases hs with
    | execUnlock | exitRelease => exact semV_detail ht h rfl (.plain rfl) (fun _ => .rfl) (by simp)
    | joinInc _ hpc => exact semV_detail ht h rfl (.joinCall hpc) (fun _ => ⟨rfl, rfl, rfl⟩) (by simp)
    | exitDec => exact semV_detail ht h rfl (.plain rfl) (fun _ => ⟨rfl, rfl, rfl⟩) (by simp)
    | joinRead hpc hq => exact semV_detail ht h rfl (.plain rfl) (fun _ => .rfl) fun _ => ⟨rfl, _, hpc, hq⟩
  | execV _ h | leak _ _ _ _ h => rw [h]; exact thread_detail (ret th _) ht rfl (.plain rfl) rfl rfl
  | start _ _ _ _ h | refuse _ h =>
    rw [h, ← ready_none (k := setThread _ _ _)]
    exact thread_detail _ ht rfl (.plain rfl) rfl rfl
  | execP _ h =>
    rw [h, Kernel.execP, ← ready_none (k := setThread _ _ _)]
    exact thread_detail _ ht rfl (.plain (by split <;> rfl)) rfl rfl
  | reserve _ _ _ h =>
    subst h
    refine ⟨fun {q b} hb => .inl ?_, fun hu => ?_⟩
    · obtain ⟨j, hj⟩ := hl.placed (table_live hb)
      exact ⟨b, update_some_iff.mpr (.inr ⟨Nat.ne_of_lt (hl.ptrs hj), hb⟩), .keeps .rfl⟩
    · rw [← ready_none (k := setThread _ _ _)] at hu
      exact .inl (thread_setThread hu ht rfl (.plain rfl) rfl)
  | fork _ hb h =>
    subst h
    refine ⟨fun hc => .inl (setPCB_rel _ (fun _ _ => .keeps .rfl) hb (.keeps ⟨rfl, rfl, rfl⟩) hc), fun {u x} hu => ?_⟩
    rcases update_some_iff.mp hu with ⟨rfl, rfl⟩ | ⟨-, hu⟩
    · exact .inl ⟨th, ht, rfl, .inr ⟨rfl, .plain rfl⟩⟩
    · rcases update_some_iff.mp hu with ⟨rfl, rfl⟩ | ⟨-, hu⟩
      · exact .inr ⟨rfl, rfl⟩
      · exact .inl ⟨x, hu, rfl, .inl rfl⟩
  | @exits q p b _ ec hpc _ hq hb _ _ _ h =>
    obtain ⟨c, hc, rfl⟩ := semP_ok.mp h
    refine ⟨fun {q' d} hd => .inl ?_, fun hu => ?_⟩
    · obtain ⟨d', hd', h1⟩ := setPCB_rel { b with exitcode := ec }
        (R := fun q' d d' => d'.creator = d.creator ∧ d'.exitsem = d.exitsem ∧ (q' = q ∨ d' = d))
        (fun _ _ => ⟨rfl, rfl, .inr rfl⟩) hb ⟨rfl, rfl, .inl rfl⟩ hd
      obtain ⟨d'', hd'', h2⟩ := setPCB_rel (c.setSem ((c.sem .multex).p e.tid).1 .multex) (R := fun _ => PCB.Keeps)
        (fun _ _ => .rfl) hc (c.keeps_setSem _ (by decide)) hd'
      refine ⟨d'', hd'', ?_⟩
      obtain ⟨hcr, hsm, rfl | rfl⟩ := h1
      · exact .exits ht hpc hq (h2.creator.trans hcr) (by rw [h2.exitsem, hsm])
      · exact .keeps h2
    · rw [← ready_none (k := setThread _ _ _)] at hu
      refine .inl (thread_setThread hu ht rfl (.plain ?_) rfl)
      show Pc.plain (if _ then _ else _) = true
      split <;> rfl
  | finish _ _ h => subst h; exact finish_detail ht fun hb => .inl hb
  | @remove q _ _ _ _ hpc _ hq _ _ h =>
    subst h
    refine finish_detail ht fun {q' b'} hb' => ?_
    by_cases e' : q' = q
    · subst e'
      exact .inr ⟨update_self .., hpc, hq⟩
    · exact .inl (update_none_iff.mpr ⟨e', hb'⟩)
  | halt _ h => subst h; exact ⟨fun hb => .inl ⟨_, hb, .keeps .rfl⟩, fun hu => .inl ⟨_, hu, rfl, .inl rfl⟩⟩

end

theorem step_detail (hl : k.table.Links) (h : step bigEndian k e = .ok k') : Detail k e k' := by
  obtain rfl | ⟨th, ht, h⟩ := step_move h
  · exact .refl
  · exact move_detail ht hl h

/-- A slot with a live PCB keeps its pointer. -/
theorem slot_kept (hl : k.table.Links) (h : step bigEndian k e = .ok k') {q : Ptr} (hq : k.pcb i = some q)
    (hb : k.heap q = some b) : k'.pcb i = some q := by
  have he : ∀ {T : Table}, Effect bigEndian k e T → T.pcb i = some q := by
    intro T he
    cases he with
    | reserve ht hpc hc hr =>
      refine update_some_iff.mpr (.inr ⟨?_, hq⟩)
      intro heq
      subst heq
      exact (hl.free_slot hc).2.2 hq (table_live hb)
    | _ => exact hq
  exact he (step_effect h)

/-! ## A join that has begun finds its child -/

/-- The process of `b` is past `ExitWait`. -/
def leaving (k : Kernel) (b : PCB) : Bool :=
  match b.thread with
  | some c => (k.threads c).any (·.pc == .exitRemove)
  | none => false

/-- `JoinUpdate` is called with a negative number, or with the number of a live process:
    of one that has the caller's number as `parentID` only if the caller executed it and
    it has not been released by an earlier `Join`. -/
def joinOk (k : Kernel) : Event → Bool
  | .join t id =>
    match k.threads t with
    | none => true
    | some th =>
      decide (id < 0) ||
        (decide (id < maxProcess) &&
          match k.liveAt id.toNat with
          | none => false
          | some b =>
            b.parentID != (th.processID : Int) || (b.creator == t && b.exitsem.value == 0 && !k.leaving b))
  | _ => true

/-- Process `id` is alive, was executed by `u`, and waits for a `Join` to release it. -/
def Pending (k : Kernel) (u : Tid) (id : Nat) : Prop :=
  ∃ q b, k.pcb id = some q ∧ k.heap q = some b ∧ b.creator = u ∧ b.exitsem.value = 0 ∧
    ∀ {c tc}, k.threads c = some tc → tc.pc = .exitRemove → tc.processID ≠ id

structure Joins (k : Kernel) : Prop where
  pending : ∀ {t th id}, k.threads t = some th → th.pc.joining = some id → k.Pending t id
  lock : ∀ {t th id p}, k.threads t = some th → th.pc = .joinP id p ∨ th.pc = .joinInc id p →
    k.pcb th.processID = some p
  joinWait : ∀ {t th id q}, k.threads t = some th → th.pc = .joinWait id q → k.pcb id = some q
  exitWait : ∀ {t th q}, k.threads t = some th → th.pc = .exitWait q → k.pcb th.processID = some q

theorem pending_step (hl : k.table.Links) (hj : k.Joins) (h : step bigEndian k e = .ok k') {u : Tid} {id : Nat}
    {th' : Thread} (hp : k.Pending u id) (hu : k'.threads u = some th') (hu' : th'.pc.joining = some id) :
    k'.Pending u id := by
  have hd := step_detail hl h
  obtain ⟨q, b, hq, hb, hcr, h0, hrm⟩ := hp
  rcases hd.pcb hb with ⟨b', hb', hs⟩ | ⟨-, th, ht, hpc, hq'⟩
  · have hkp : b'.creator = u ∧ b'.exitsem.value = 0 := by
      cases hs with
      | keeps hk => exact ⟨hk.creator.trans hcr, hk.exitsem.trans h0⟩
      | exits _ _ _ h1 h2 => exact ⟨h1.trans hcr, h2.trans h0⟩
      | release ht hpc hq' _ _ hus =>
        -- only the creator joins it, and its join is over
        obtain ⟨q2, b2, hq2, hb2, hc2, -⟩ := hj.pending ht (by rw [hpc]; rfl)
        cases hq2.symm.trans hq'
        cases hb2.symm.trans hb
        rw [hus (by rw [← hc2, hcr]; exact hu)] at hu'
        cases hu'
      | pass hps => exact absurd h0 (Nat.ne_of_gt hps)
    refine ⟨q, b', slot_kept hl h hq hb, hb', hkp.1, hkp.2, fun {c tc} hc hpc hid => ?_⟩
    obtain ⟨th, ht, hpd, hp' | ⟨rfl, hp'⟩⟩ := hd.was (P := fun pc => pc = .exitRemove) hc hpc (by simp)
    · exact hrm ht hp' (hpd ▸ hid)
    rw [hpc] at hp'
    generalize hr : Pc.exitRemove = pc at hp'
    cases hp' with
    | plain hpl => rw [← hr] at hpl; cases hpl
    | stay => exact hrm ht hr.symm (hpd ▸ hid)
    | join _ _ _ _ _ _ hpc => rcases hpc with rfl | rfl <;> cases hr
    | @exitRemove q2 b2 hq2 hb2 hps =>
      -- the semaphore that let it pass is this one, and it is 0
      have hq2 : k.pcb th.processID = some q2 := by
        rcases hq2 with ⟨-, hq2⟩ | hq2
        · exact hq2
        · exact hj.exitWait ht hq2
      rw [← hpd, hid] at hq2
      cases hq2.symm.trans hq
      cases hb2.symm.trans hb
      exact absurd h0 (Nat.ne_of_gt hps)
    | _ => cases hr
  · exact absurd (hl.inj hq' hq) (hrm ht hpc)

/-- A call that meets the condition finds its child waiting. -/
theorem joinOk_pending (hl : k.table.Links) {id : Int} (hok : k.joinOk (.join t id)) (ht : k.threads t = some th)
    (hps : 0 ≤ id) (hb : k.liveAt id.toNat = some b) (hp : b.parentID = th.processID) : k.Pending t id.toNat := by
  have hn : ¬ id < 0 := by omega
  simp only [joinOk, ht, hb, hn, decide_false, Bool.false_or, hp, bne_self_eq_false, Bool.and_eq_true,
    beq_iff_eq, Bool.not_eq_true'] at hok
  obtain ⟨-, ⟨hcr, h0⟩, hlv⟩ := hok
  obtain ⟨q, hq, hb⟩ := liveAt_eq_some.mp hb
  refine ⟨q, b, hq, hb, hcr, h0, fun {c tc} hc hpc hid => ?_⟩
  have hr : tc.proc.role = .exiting none := by simp [Thread.proc, hpc, Pc.role]
  obtain ⟨-, q', b', hq', hb', hth⟩ := hl.own (table_procs hc) (hl.ne_main (table_procs hc) hr)
  have hq' : k.pcb id.toNat = some q' := hid ▸ hq'
  cases hq'.symm.trans hq
  cases hb'.symm.trans (table_live hb)
  have hth : b.thread = some c := hth
  simp [leaving, hth, hc, hpc] at hlv

theorem joining_of_plain {pc : Pc} (h : pc.plain = true) : pc.joining = none := by
  cases pc <;> first | rfl | cases h

theorem own_slot_kept (hl : k.table.Links) (h : step bigEndian k e = .ok k') (ht : k.threads t = some th)
    (hp : k.pcb th.processID = some p) : k'.pcb th.processID = some p := by
  obtain ⟨q, c, hq, hc, -⟩ := hl.mine (table_procs ht)
  obtain ⟨b, hb, -⟩ := live_eq_some.mp hc
  cases hq.symm.trans hp
  exact slot_kept hl h hp hb

theorem Pending.slot_kept {id : Nat} {q : Ptr} (hp : k.Pending t id) (hl : k.table.Links)
    (h : step bigEndian k e = .ok k') (hq : k.pcb id = some q) : k'.pcb id = some q := by
  obtain ⟨q', b, hq', hb, -⟩ := hp
  cases hq'.symm.trans hq
  exact Kernel.slot_kept hl h hq hb

section
variable {u : Tid} {th' : Thread} {id : Nat} {q : Ptr} (hl : k.table.Links) (hj : k.Joins)
  (h : step bigEndian k e = .ok k') (hu : k'.threads u = some th')
include hl hj h hu

theorem joining_step (hok : k.joinOk e) (hjn : th'.pc.joining = some id) : k.Pending u id := by
  obtain ⟨th, ht, -, hpc | ⟨heq, hpc⟩⟩ :=
    (step_detail hl h).was (P := fun pc => pc.joining = some id) hu hjn (by simp [Pc.joining])
  · exact hj.pending ht hpc
  subst heq
  generalize th'.pc = pc at hpc hjn
  cases hpc with
  | plain hp => rw [joining_of_plain hp] at hjn; cases hjn
  | stay => exact hj.pending ht hjn
  | join he _ hps hb hpr _ hpc =>
    rw [he] at hok
    rcases hpc with rfl | rfl <;> cases hjn <;> exact joinOk_pending hl hok ht hps hb hpr
  | joinInc hpc | joinCall hpc | joinWait hpc => cases hjn; exact hj.pending ht (by rw [hpc]; rfl)
  | joinRead hpc => cases hjn; exact hj.pending ht hpc
  | exitWait | exitRemove => cases hjn

theorem lock_step (hlc : th'.pc = .joinP id p ∨ th'.pc = .joinInc id p) : k'.pcb th'.processID = some p := by
  obtain ⟨th, ht, hpd, hpc⟩ :=
    (step_detail hl h).was (P := fun pc => pc = .joinP id p ∨ pc = .joinInc id p) hu hlc (by simp)
  rw [hpd]
  refine own_slot_kept hl h ht ?_
  rcases hpc with hpc | ⟨heq, hpc⟩
  · exact hj.lock ht hpc
  subst heq
  generalize th'.pc = pc at hpc hlc
  cases hpc with
  | plain hpl => rcases hlc with rfl | rfl <;> cases hpl
  | stay => exact hj.lock ht hlc
  | join _ _ _ _ _ hp hpc =>
    rcases hpc with rfl | rfl <;> rcases hlc with hlc | hlc <;> cases hlc <;> exact hp
  | joinInc hpc =>
    rcases hlc with hlc | hlc
    · cases hlc
    · cases hlc; exact hj.lock ht (.inl hpc)
  | _ => rcases hlc with hlc | hlc <;> cases hlc

theorem joinWait_step (hw : th'.pc = .joinWait id q) : k'.pcb id = some q := by
  obtain ⟨th, ht, -, hpc | ⟨heq, hpc⟩⟩ :=
    (step_detail hl h).was (P := fun pc => pc = .joinWait id q) hu hw (by simp)
  · exact (hj.pending ht (by rw [hpc]; rfl)).slot_kept hl h (hj.joinWait ht hpc)
  subst heq
  rw [hw] at hpc
  generalize hr : Pc.joinWait id q = pc at hpc
  cases hpc with
  | plain hp => rw [← hr] at hp; cases hp
  | stay => exact (hj.pending ht (by rw [← hr]; rfl)).slot_kept hl h (hj.joinWait ht hr.symm)
  | join _ _ _ _ _ _ hpc => rcases hpc with rfl | rfl <;> cases hr
  | joinWait hpc hq =>
    cases hr
    exact (hj.pending ht (by rw [hpc]; rfl)).slot_kept hl h hq
  | _ => cases hr

theorem exitWait_step (hw : th'.pc = .exitWait q) : k'.pcb th'.processID = some q := by
  obtain ⟨th, ht, hpd, hpc⟩ := (step_detail hl h).was (P := fun pc => pc = .exitWait q) hu hw (by simp)
  rw [hpd]
  refine own_slot_kept hl h ht ?_
  rcases hpc with hpc | ⟨heq, hpc⟩
  · exact hj.exitWait ht hpc
  subst heq
  rw [hw] at hpc
  generalize hr : Pc.exitWait q = pc at hpc
  cases hpc with
  | plain hp => rw [← hr] at hp; cases hp
  | stay => exact hj.exitWait ht hr.symm
  | join _ _ _ _ _ _ hpc => rcases hpc with rfl | rfl <;> cases hr
  | exitWait hpc hq => cases hr; exact hq
  | _ => cases hr

end

theorem joins_step (hl : k.table.Links) (hj : k.Joins) (hok : k.joinOk e) (h : step bigEndian k e = .ok k') :
    k'.Joins :=
  ⟨fun hu hjn => pending_step hl hj h (joining_step hl hj h hu hok hjn) hu hjn,
    fun hu hlc => lock_step hl hj h hu hlc, fun hu hw => joinWait_step hl hj h hu hw,
    fun hu hw => exitWait_step hl hj h hu hw⟩

theorem initial_joins (g g' : Nat → Word) : (initial g g').Joins := by
  refine ⟨fun ht hj => ?_, fun ht hj => ?_, fun ht hj => ?_, fun ht hj => ?_⟩
  all_goals rw [(initial_threads ht).2] at hj
  · cases hj
  · rcases hj with hj | hj <;> cases hj
  · cases hj
  · cases hj

theorem reach_joins (h : Reach (step bigEndian) (joinOk · ·) Init k) : k.table.Links ∧ k.Joins := by
  refine h.inv (P := fun k => k.table.Links ∧ k.Joins) ?_ ?_
  · intro _ h'
    obtain ⟨g, g', rfl⟩ := h'
    exact ⟨initial_links g g', initial_joins g g'⟩
  · intro s e s' h' hok hst
    obtain ⟨hl, hj⟩ := h'
    exact ⟨effect_links hl (step_effect hst), joins_step hl hj hok hst⟩

/-! ## Every part of a join is safe -/

/-- Process `id` is alive and `t` executed it. -/
def LiveChild (k : Kernel) (t : Tid) (id : Int) : Prop :=
  0 ≤ id ∧ id < maxProcess ∧ ∃ b, k.liveAt id.toNat = some b ∧ b.creator = t

/-- `JoinUpdate` touches live PCBs only. -/
structure JoinSafe (k : Kernel) : Prop where
  /-- The call itself: it goes on, or answers -1 and changes nothing else. -/
  call : ∀ t th id, k.threads t = some th → th.pc = .user → k.joinOk (.join t id) →
    (∃ k', k.joinUpdate t th id = .ok k') ∧
    (¬ k.LiveChild t id → k.joinUpdate t th id = .ok (k.setThread t (ret th (-1))))
  /-- Each later part of a call finds the slot it reads alive. -/
  body : ∀ t th id, k.threads t = some th → th.pc.joining = some id →
    id < maxProcess ∧ (k.liveAt id).isSome ∧ ∃ k', k.cont t th = .ok k'

theorem semP_total (hb : k.heap p = some b) :
    ∃ k', k.semP t th p s waiting next = .ok k' := ⟨_, semP_ok.mpr ⟨b, hb, rfl⟩⟩

theorem semV_total (hb : k.heap p = some b) : ∃ k', k.semV t th p s f = .ok k' := ⟨_, semV_ok.mpr ⟨b, hb, rfl⟩⟩

theorem call_safe (hl : k.table.Links) {id : Int} (ht : k.threads t = some th) (hok : k.joinOk (.join t id)) :
    (∃ k', k.joinUpdate t th id = .ok k') ∧
    (¬ k.LiveChild t id → k.joinUpdate t th id = .ok (k.setThread t (ret th (-1)))) := by
  by_cases hn : id < 0
  · simp [joinUpdate, hn]
  obtain ⟨hlt, b, hb⟩ : id < maxProcess ∧ ∃ b, k.liveAt id.toNat = some b := by
    simp only [joinOk, ht, hn, decide_false, Bool.false_or, Bool.and_eq_true, decide_eq_true_eq] at hok
    refine ⟨hok.1, ?_⟩
    cases hb : k.liveAt id.toNat with
    | none => rw [hb] at hok; cases hok.2
    | some b => exact ⟨b, rfl⟩
  obtain ⟨q, hq, hh⟩ := liveAt_eq_some.mp hb
  have hs : k.slot id = .ok (q, b) := slot_ok.mpr ⟨⟨by omega, hlt⟩, hq, hh⟩
  by_cases hpr : (th.processID : Int) = b.parentID
  · have hcr : b.creator = t := by
      obtain ⟨q', b', hq', hb', hcr, -⟩ := joinOk_pending hl hok ht (by omega) hb hpr.symm
      cases hq'.symm.trans hq
      cases hb'.symm.trans hh
      exact hcr
    refine ⟨?_, fun hno => absurd ⟨by omega, hlt, b, hb, hcr⟩ hno⟩
    obtain ⟨p, c, hp, hc, -⟩ := hl.mine (table_procs ht)
    obtain ⟨pb, hpb, -⟩ := live_eq_some.mp hc
    have hm : k.slot b.parentID = .ok (p, pb) := by
      rw [← hpr]
      have hlt : th.processID < maxProcess := (hl.marked hp hc).1
      exact slot_ok.mpr ⟨⟨by omega, by omega⟩, hp, hpb⟩
    obtain ⟨k', hk'⟩ : ∃ k', k.semP t th p .multex (.joinP id.toNat p) (.joinInc id.toNat p) = .ok k' := semP_total hpb
    refine ⟨k', ?_⟩
    rw [joinUpdate, if_neg hn]
    refine bind_eq_ok.mpr ⟨_, hs, ?_⟩
    dsimp only
    rw [if_neg (Classical.not_not.mpr hpr)]
    exact bind_eq_ok.mpr ⟨_, hm, hk'⟩
  · have hr : k.joinUpdate t th id = .ok (k.setThread t (ret th (-1))) := by
      rw [joinUpdate, if_neg hn]
      refine bind_eq_ok.mpr ⟨_, hs, ?_⟩
      dsimp only
      rw [if_pos hpr]
      rfl
    exact ⟨⟨_, hr⟩, fun _ => hr⟩

theorem body_safe (hl : k.table.Links) (hj : k.Joins) {id : Nat} (ht : k.threads t = some th)
    (hjn : th.pc.joining = some id) :
    id < maxProcess ∧ (k.liveAt id).isSome ∧ ∃ k', k.cont t th = .ok k' := by
  obtain ⟨q, b, hq, hb, -⟩ := hj.pending ht hjn
  have hlt := (hl.marked hq (table_live hb)).1
  have hs : k.slot id = .ok (q, b) := slot_ok.mpr ⟨⟨by omega, by omega⟩, hq, hb⟩
  refine ⟨hlt, by rw [liveAt_eq_some.mpr ⟨q, hq, hb⟩]; rfl, ?_⟩
  -- the caller's own PCB, in whose `multex` it counts the wait
  have hlc : ∀ {p}, th.pc = .joinP id p ∨ th.pc = .joinInc id p → ∃ pb, k.heap p = some pb := by
    intro p hpc
    obtain ⟨p', c, hp', hc, -⟩ := hl.mine (table_procs ht)
    cases hp'.symm.trans (hj.lock ht hpc)
    obtain ⟨pb, hpb, -⟩ := live_eq_some.mp hc
    exact ⟨pb, hpb⟩
  unfold cont
  split
  case h_8 id' p hpc =>
    rw [hpc] at hjn; cases hjn
    obtain ⟨pb, hpb⟩ := hlc (.inl hpc)
    exact semP_total hpb
  case h_9 id' p hpc =>
    rw [hpc] at hjn; cases hjn
    obtain ⟨pb, hpb⟩ := hlc (.inr hpc)
    exact semV_total hpb
  case h_10 id' hpc =>
    rw [hpc] at hjn; cases hjn
    obtain ⟨k', hk'⟩ : ∃ k', k.semP t th q .joinsem (.joinWait id q) (.joinRead id) = .ok k' := semP_total hb
    exact ⟨k', bind_eq_ok.mpr ⟨_, hs, hk'⟩⟩
  case h_11 id' q' hpc =>
    have hq' := hj.joinWait ht hpc
    rw [hpc] at hjn; cases hjn
    cases hq'.symm.trans hq
    exact semP_total hb
  case h_12 id' hpc =>
    rw [hpc] at hjn; cases hjn
    obtain ⟨k', hk'⟩ : ∃ k', k.semV t (ret th b.exitcode) q .exitsem (fun b => b) = .ok k' := semV_total hb
    exact ⟨k', bind_eq_ok.mpr ⟨_, hs, hk'⟩⟩
  all_goals simp_all [Pc.joining]

/-- In every run whose `Join` calls meet `joinOk`, every part of every call is safe. -/
theorem join_safe (h : Reach (step bigEndian) (joinOk · ·) Init k) : k.JoinSafe := by
  obtain ⟨hl, hj⟩ := reach_joins h
  exact ⟨fun t th id ht _ hok => call_safe hl ht hok, fun t th id ht hjoin => body_safe hl hj ht hjoin⟩

/-- The main program executes a child and is asleep in its `Join`, the slot alive. -/
theorem join_of_child_safe : ∃ k, Reach (step false) (joinOk · ·) Init k ∧
    (k.threads mainTid).any (fun th => th.pc == .joinWait 1 1 && th.blocked) = true ∧ k.JoinSafe := by
  obtain ⟨k, hk, htest⟩ := exists_reach (step false) joinOk (s := booted)
    (starts 0 :: execs 0 "ping" ++ [.join 0 1, .cont 0, .cont 0])
    (fun k => (k.threads mainTid).any fun th => th.pc == .joinWait 1 1 && th.blocked) booted_init (by decide +kernel)
  exact ⟨k, hk, htest, join_safe hk⟩

/-- `Join(3)` of a process number never used follows the NULL pointer in `pcb[3]`, and
    `Join(10)` reads past the array. -/
theorem join_of_empty_slot : ∃ k th, Reach (step false) (fun _ _ => True) Init k ∧
    k.threads mainTid = some th ∧ th.pc = .user ∧
    (∀ k', step false k (.join mainTid 3) ≠ .ok k') ∧ ∀ k', step false k (.join mainTid 10) ≠ .ok k' := by
  obtain ⟨k, hk, htest⟩ := exists_reach (step false) (fun _ _ => true) (s := booted) [starts 0]
    (fun k => (k.threads mainTid).any (fun th => th.pc == .user) &&
      (step false k (.join mainTid 3)).toOption.isNone && (step false k (.join mainTid 10)).toOption.isNone)
    booted_init (by decide +kernel)
  simp only [Bool.and_eq_true, Option.isNone_iff_eq_none] at htest
  obtain ⟨⟨huser, h3⟩, h10⟩ := htest
  obtain ⟨th, hth, hpc⟩ := (Option.any_eq_true ..).mp huser
  refine ⟨k, th, hk.mono fun _ _ _ => trivial, hth, by simpa using hpc, fun k' e => ?_, fun k' e => ?_⟩
  · rw [e] at h3; cases h3
  · rw [e] at h10; cases h10

end Kernel

end Nachos

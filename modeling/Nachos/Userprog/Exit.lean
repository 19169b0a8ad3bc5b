/-
  Nachos.Userprog.Exit — the `Exit` system call of a process other than the main one.

  `ExitFunction` returns at once for any status but 0, and the program runs on behind the call.
-/

import Nachos.Userprog.JoinSafety

namespace Nachos

open Function (update update_of_ne update_self)

namespace Kernel

open Lib

variable {bigEndian : Bool} {k k' : Kernel} {e : Event} {t : Tid} {th : Thread} {q : Ptr} {T : Table}
  {status : Word}

/-- `Exit(status)` of thread `t`, whose PCB is at `q`, goes through, and in every
    continuation the thread is never at a user instruction, and a `Join` that reads its
    exit code returns `status`. -/
def ExitsWith (bigEndian : Bool) (k : Kernel) (t : Tid) (q : Ptr) (status : Word) : Prop :=
  ∃ k₁, step bigEndian k (.exit t status) = .ok k₁ ∧ ∀ k', From (step bigEndian) (fun _ _ => True) k₁ k' →
    (∀ th', k'.threads t = some th' → th'.pc ≠ .user) ∧
    ∀ u thu id k'', k'.threads u = some thu → thu.pc = .joinRead id → k'.pcb id = some q →
      k'.joinRead u thu id = .ok k'' → ∃ th'', k''.threads u = some th'' ∧ th''.pc = .user ∧ th''.r2 = status

/-- The slot that the PCB at `q` names as its parent's holds a live PCB. -/
def ParentAlive (k : Kernel) (q : Ptr) : Prop := ∃ b p c, k.heap q = some b ∧ k.slot b.parentID = .ok (p, c)

/-- Thread `t` is on its way out, with its PCB at `q`. -/
def Leaving (T : Table) (t : Tid) (q : Ptr) : Prop :=
  ∃ pr x, T.procs t = some pr ∧ pr.role = .exiting x ∧ T.pcb pr.processID = some q

/-- Thread `t` and the PCB at `q` are gone, and no new ones get their names. -/
structure Gone (T : Table) (t : Tid) (q : Ptr) : Prop where
  thread : T.procs t = none
  pcb : T.live q = none
  ptr : q < T.nextPtr
  tid : t < T.nextTid

theorem effect_leaving (hl : k.table.Links) (h : Leaving k.table t q) (he : Effect bigEndian k e T) :
    Leaving T t q ∨ Gone T t q := by
  obtain ⟨pr, x, ht, hr, hq⟩ := h
  -- a thread in another role is another one
  have ne : ∀ {th}, k.threads e.tid = some th → (∀ y, th.pc.role ≠ .exiting y) → t ≠ e.tid := by
    intro th hth hrl heq
    subst heq
    cases ht.symm.trans (table_procs hth)
    exact hrl x hr
  have stays : ∀ {pr' : Option Proc}, t ≠ e.tid → update k.table.procs e.tid pr' t = some pr :=
    fun hne => by rw [update_of_ne hne, ht]
  have hn : t ≠ k.nextTid := Nat.ne_of_lt (hl.tids ht)
  cases he with
  | quiet | leak | halt => exact .inl ⟨pr, x, ht, hr, hq⟩
  | reserve hth hpc hc hrj =>
    obtain ⟨-, q', b, hq', hb, -⟩ := hl.own ht (hl.ne_main ht hr)
    refine .inl ⟨pr, x, stays (ne hth (by rw [hpc]; intro y hy; cases hy)), hr, ?_⟩
    refine update_some_iff.mpr (.inr ⟨?_, hq⟩)
    intro heq
    subst heq
    exact (hl.free_slot hc).2.2 hq' hb
  | fork hth hpc hb =>
    have hne := ne hth (by rw [hpc]; intro y hy; cases hy)
    refine .inl ⟨pr, x, ?_, hr, hq⟩
    show update (update k.table.procs k.nextTid _) e.tid _ t = some pr
    rw [update_of_ne hne, update_of_ne hn, ht]
  | exits hth hpc => exact .inl ⟨pr, x, stays (ne hth (by rw [hpc]; intro y hy; cases hy)), hr, hq⟩
  | start hth hpc => exact .inl ⟨pr, x, stays (ne hth (by rw [hpc]; intro y hy; cases hy)), hr, hq⟩
  | counted hth hpc =>
    by_cases hne : t = e.tid
    · subst hne
      cases ht.symm.trans (table_procs hth)
      exact .inl ⟨_, none, update_self .., rfl, hq⟩
    · exact .inl ⟨pr, x, stays hne, hr, hq⟩
  | remove hcn hth hpc hlt hq' hb hf =>
    by_cases hne : t = e.tid
    · subst hne
      cases ht.symm.trans (table_procs hth)
      cases hq'.symm.trans hq
      exact .inr ⟨update_self .., update_self .., hl.ptrs hq, hl.tids ht⟩
    · exact .inl ⟨pr, x, stays hne, hr, hq⟩
  | finish hth hcs => exact absurd hcs (process_found hl hth)

theorem effect_gone (hl : k.table.Links) (h : Gone k.table t q) (he : Effect bigEndian k e T) : Gone T t q := by
  have ne : ∀ {th}, k.threads e.tid = some th → t ≠ e.tid := by
    intro th hth heq
    subst heq
    cases h.thread.symm.trans (table_procs hth)
  have gone : ∀ {pr' : Option Proc}, t ≠ e.tid → update k.table.procs e.tid pr' t = none :=
    fun hne => by rw [update_of_ne hne, h.thread]
  have hp : q ≠ k.nextPtr := Nat.ne_of_lt h.ptr
  have ht : t ≠ k.nextTid := Nat.ne_of_lt h.tid
  cases he with
  | quiet => exact h
  | leak | halt => exact { h with ptr := h.ptr }
  | reserve hth hpc hc hr =>
    refine ⟨gone (ne hth), ?_, Nat.lt_succ_of_lt h.ptr, h.tid⟩
    show update k.table.live k.nextPtr _ q = none
    rw [update_of_ne hp, h.pcb]
  | @fork th i p b hth hpc hb =>
    refine ⟨?_, ?_, h.ptr, Nat.lt_succ_of_lt h.tid⟩
    · show update (update k.table.procs k.nextTid _) e.tid _ t = none
      rw [update_of_ne (ne hth), update_of_ne ht, h.thread]
    show update k.table.live p _ q = none
    rw [update_of_ne, h.pcb]
    intro heq
    subst heq
    cases h.pcb.symm.trans (table_live hb)
  | exits hth | counted hth | start hth => exact { h with thread := gone (ne hth) }
  | @remove th q' b _ _ hcn hth hpc hl' hq' hb hf =>
    refine { h with thread := gone (ne hth), pcb := ?_ }
    show update k.table.live q' none q = none
    by_cases e' : q = q'
    · rw [e', update_self]
    · rw [update_of_ne e', h.pcb]
  | finish hth hcs => exact absurd hcs (process_found hl hth)

/-- What holds after `Exit(status)` for as long as the run goes on. -/
structure Exited (k : Kernel) (t : Tid) (q : Ptr) (status : Word) : Prop where
  links : k.table.Links
  leaves : Leaving k.table t q ∨ Gone k.table t q
  code : ∀ {b}, k.heap q = some b → b.exitcode = status

theorem exited_step (h : k.Exited t q status) (hst : step bigEndian k e = .ok k') : k'.Exited t q status := by
  have hln := effect_links h.links (step_effect hst)
  rcases h.leaves with hl | hg
  · refine ⟨hln, effect_leaving h.links hl (step_effect hst), fun {b'} hb' => ?_⟩
    obtain ⟨pr, x, ht, hr, hq⟩ := hl
    obtain ⟨-, q', c, hq', hc, -⟩ := h.links.own ht (h.links.ne_main ht hr)
    cases hq'.symm.trans hq
    obtain ⟨b, hb, -⟩ := live_eq_some.mp hc
    rcases (step_detail h.links hst).pcb hb with ⟨b1, hb1, hs⟩ | ⟨hn, -⟩
    · cases hb1.symm.trans hb'
      cases hs with
      | keeps hk => exact hk.exitcode.trans (h.code hb)
      | exits hth hpc hq2 =>
        -- only the process itself sets its code, and it has left user mode
        have heq := h.links.distinct (table_procs hth) ht (h.links.inj hq2 hq)
        cases (heq ▸ table_procs hth).symm.trans ht
        rw [Thread.proc, hpc] at hr
        cases hr
      | release _ _ _ _ hcd => exact hcd.trans (h.code hb)
      | pass _ _ hcd => exact hcd.trans (h.code hb)
    · cases hn.symm.trans hb'
  · have hg := effect_gone h.links hg (step_effect hst)
    exact ⟨hln, .inr hg, fun {b'} hb' => by cases hg.pcb.symm.trans (table_live hb')⟩

theorem Exited.not_user (h : k.Exited t q status) (ht : k.threads t = some th) : th.pc ≠ .user := by
  intro hpc
  rcases h.leaves with ⟨pr, x, hpr, hr, -⟩ | hg
  · cases hpr.symm.trans (table_procs ht)
    rw [Thread.proc, hpc] at hr
    cases hr
  · cases hg.thread.symm.trans (table_procs ht)

/-- A `Join` on the process reads its code. -/
theorem Exited.join_returns (h : k.Exited t q status) {u : Tid} {id : Nat} (hq : k.pcb id = some q)
    (hj : k.joinRead u th id = .ok k') : ∃ th', k'.threads u = some th' ∧ th'.pc = .user ∧ th'.r2 = status := by
  obtain ⟨⟨q', b⟩, hs, hj⟩ := bind_eq_ok.mp hj
  obtain ⟨-, hq', hb⟩ := slot_ok.mp hs
  have hq' : k.pcb id = some q' := hq'
  cases hq'.symm.trans hq
  obtain ⟨c, hc, rfl⟩ := semV_ok.mp hj
  simp only [ready_threads, setThread_threads, update_self, Option.map_some]
  refine ⟨_, rfl, ?_⟩
  split <;> exact ⟨rfl, h.code hb⟩

/-- `Exit(0)` of a live process other than the main one. -/
theorem exitUpdate_exited (hl : k.table.Links) (ht : k.threads t = some th) (h0 : th.processID ≠ 0)
    (hq : k.pcb th.processID = some q) (hst : k.exitUpdate t th status = .ok k') (hl' : k'.table.Links) :
    k'.Exited t q status := by
  unfold exitUpdate at hst
  rw [if_neg h0] at hst
  split at hst
  · cases hst
  · rename_i hbt
    simp only [BitMap.test, Option.ite_none_right_eq_some, Option.some.injEq] at hbt
    exact absurd (.inl ⟨h0, by simpa using hbt.2, rfl⟩) (process_found hl ht)
  · obtain ⟨⟨q', b⟩, hq', hst⟩ := bind_eq_ok.mp hst
    obtain ⟨⟨p, b'⟩, -, hst⟩ := bind_eq_ok.mp hst
    obtain ⟨-, hq', hb⟩ := slot_ok.mp hq'
    have hq' : k.pcb th.processID = some q' := hq'
    cases hq'.symm.trans hq
    refine ⟨hl', .inl ⟨{ th.proc with role := .exiting (some p) }, some p, ?_, rfl, ?_⟩, ?_⟩
    · rw [semP_table hst rfl]
      exact update_self ..
    · rw [semP_table hst rfl]
      exact hq
    · obtain ⟨c, hc, rfl⟩ := semP_ok.mp hst
      intro d hd
      rcases update_some_iff.mp hd with ⟨rfl, rfl⟩ | ⟨-, hd⟩
      · rcases update_some_iff.mp hc with ⟨-, rfl⟩ | ⟨hne, -⟩
        · rfl
        · exact absurd rfl hne
      · rcases update_some_iff.mp hd with ⟨-, rfl⟩ | ⟨hne, -⟩
        · rfl
        · exact absurd rfl hne

/-- `ExitUpdate` gets to its first `P` exactly when the parent's PCB is there. -/
theorem exitUpdate_goes_on (status : Word) (hl : k.table.Links) (ht : k.threads t = some th)
    (h0 : th.processID ≠ 0) (hq : k.pcb th.processID = some q) : (∃ k', k.exitUpdate t th status = .ok k') ↔ k.ParentAlive q := by
  obtain ⟨q', i, hq', hi, -⟩ := hl.mine (table_procs ht)
  cases hq'.symm.trans hq
  obtain ⟨b, hb, -⟩ := live_eq_some.mp hi
  obtain ⟨hlt, hbt⟩ := hl.marked hq hi
  have hsz : k.bm.numBits = maxProcess := hl.size
  have hbt : k.bm.bit th.processID = true := hbt
  have hts : k.bm.test th.processID = some true := by simp [BitMap.test, BitMap.inRange, hsz, hbt, hlt]
  have hs : k.slot th.processID = .ok (q, b) := slot_ok.mpr ⟨⟨by omega, by omega⟩, hq, hb⟩
  unfold exitUpdate
  rw [if_neg h0, hts]
  constructor
  · intro h'
    obtain ⟨k', h'⟩ := h'
    obtain ⟨⟨q', b'⟩, h1, h'⟩ := bind_eq_ok.mp h'
    cases h1.symm.trans hs
    obtain ⟨⟨p, c'⟩, h2, -⟩ := bind_eq_ok.mp h'
    obtain ⟨hr, hp, hc'⟩ := slot_ok.mp h2
    rcases update_some_iff.mp hc' with ⟨heq, -⟩ | ⟨-, hc⟩
    · exact ⟨b, p, b, hb, slot_ok.mpr ⟨hr, hp, heq ▸ hb⟩⟩
    · exact ⟨b, p, c', hb, slot_ok.mpr ⟨hr, hp, hc⟩⟩
  · intro h'
    obtain ⟨b', p, c, hb', hp⟩ := h'
    cases hb.symm.trans hb'
    obtain ⟨hr, hp, hc⟩ := slot_ok.mp hp
    obtain ⟨c', hc'⟩ : ∃ c', (k.setPCB q { b with exitcode := status }).heap p = some c' := by
      by_cases e : p = q
      · exact ⟨_, by rw [e]; exact update_self ..⟩
      · exact ⟨c, update_some_iff.mpr (.inr ⟨e, hc⟩)⟩
    obtain ⟨k', hk'⟩ : ∃ k', (k.setPCB q { b with exitcode := status }).semP t th p .multex (.exitP p) (.exitDec p) =
        .ok k' := semP_total hc'
    exact ⟨k', bind_eq_ok.mpr ⟨_, hs, bind_eq_ok.mpr ⟨(p, c'), slot_ok.mpr ⟨hr, hp, hc'⟩, hk'⟩⟩⟩

/-- For a running process other than the main one in any reachable state, `Exit(status)`
    is the end of it, and its parent learns `status`, exactly when `status` is 0 and the
    parent's PCB is alive. -/
theorem exit_exits_iff (h : Reach (step bigEndian) (fun _ _ => True) Init k) (hrun : k.halted = false)
    (ht : k.threads t = some th) (hpc : th.pc = .user) (hb : th.blocked = false) (h0 : th.processID ≠ 0)
    (hq : k.pcb th.processID = some q) (status : Word) :
    ExitsWith bigEndian k t q status ↔ status = 0 ∧ k.ParentAlive q := by
  have hl := reach_links h
  have hstep : step bigEndian k (.exit t status) = k.exitFunction t th status := by
    simp [step, Event.tid, hrun, ht, hb, act, hpc]
  constructor
  · intro hex
    obtain ⟨k₁, hk₁, hex⟩ := hex
    rw [hstep, exitFunction] at hk₁
    split at hk₁
    · cases hk₁
      exact absurd hpc ((hex k (.init rfl)).1 th ht)
    · rename_i hne
      exact ⟨Classical.not_not.mp hne, (exitUpdate_goes_on status hl ht h0 hq).mp ⟨k₁, hk₁⟩⟩
  · intro h'
    obtain ⟨rfl, halive⟩ := h'
    obtain ⟨k₁, hk₁⟩ := (exitUpdate_goes_on 0 hl ht h0 hq).mpr halive
    have hk₁' : step bigEndian k (.exit t 0) = .ok k₁ := by rw [hstep, exitFunction, if_neg (by simp), hk₁]
    refine ⟨k₁, hk₁', fun k' hreach => ?_⟩
    have h₁ := exitUpdate_exited hl ht h0 hq hk₁ (effect_links hl (step_effect hk₁'))
    have h' : k'.Exited t q 0 :=
      hreach.inv (by intro _ heq; subst heq; exact h₁) fun _ _ _ hs _ hst => exited_step hs hst
    exact ⟨fun th' ht' => h'.not_user ht', fun u thu id k'' _ _ hq' hj => h'.join_returns hq' hj⟩

/-- The first child of the main program is running. -/
theorem child_running : ∃ k th, Reach (step false) (fun _ _ => True) Init k ∧ k.halted = false ∧
    k.threads 1 = some th ∧ th.pc = .user ∧ th.blocked = false ∧ th.processID ≠ 0 ∧ k.pcb th.processID = some 1 ∧
    k.ParentAlive 1 := by
  obtain ⟨k, hk, ht⟩ := exists_reach (step false) (fun _ _ => true) (s := booted)
    (starts 0 :: execs 0 "ping" ++ [starts 1])
    (fun k => !k.halted &&
      (k.threads 1).any (fun th => th.pc == .user && !th.blocked && th.processID != 0 && k.pcb th.processID == some 1) &&
      (k.heap 1).any fun b => (k.slot b.parentID).toOption.isSome) booted_init (by decide +kernel)
  simp only [Bool.and_eq_true, Bool.not_eq_true', Option.any_eq_true] at ht
  obtain ⟨⟨hr, th, hth, ht'⟩, b, hb, hp⟩ := ht
  simp only [beq_iff_eq, bne_iff_ne] at ht'
  refine ⟨k, th, hk.mono fun _ _ _ => trivial, hr, hth, ht'.1.1.1, ht'.1.1.2, ht'.1.2, ht'.2, b, ?_⟩
  cases hs : k.slot b.parentID with
  | ok pc => exact ⟨pc.1, pc.2, hb, rfl⟩
  | error why => rw [hs] at hp; cases hp

/-- `Exit(0)` of the child is the end of it. -/
theorem child_exits_with_zero : ∃ k th, k.threads 1 = some th ∧ th.pc = .user ∧ ExitsWith false k 1 1 0 := by
  obtain ⟨k, th, hk, hrun, ht, hpc, hb, h0, hq, halive⟩ := child_running
  exact ⟨k, th, ht, hpc, (exit_exits_iff hk hrun ht hpc hb h0 hq 0).mpr ⟨rfl, halive⟩⟩

/-- `Exit(1)` changes nothing: the child goes on with its next instruction. -/
theorem nonzero_exit_goes_on : ∃ k th, Reach (step false) (fun _ _ => True) Init k ∧ k.threads 1 = some th ∧
    th.processID ≠ 0 ∧ th.pc = .user ∧ step false k (.exit 1 1) = .ok k ∧ ¬ ExitsWith false k 1 1 1 := by
  obtain ⟨k, th, hk, hrun, ht, hpc, hb, h0, -⟩ := child_running
  have hstep : step false k (.exit 1 1) = .ok k := by
    simp [step, Event.tid, hrun, ht, hb, act, hpc, exitFunction]
  refine ⟨k, th, hk, ht, h0, hpc, hstep, fun hex => ?_⟩
  obtain ⟨k₁, hk₁, hex⟩ := hex
  cases hstep.symm.trans hk₁
  exact (hex k (.init rfl)).1 th ht hpc

end Kernel

end Nachos

/-
  Nachos.Userprog.Handshake — `JoinUpdate` of a parent and `ExitUpdate` of its child, in
  every interleaving.

  `Matches` ties a state of the kernel to the phases of `Rendezvous`: the places of the two
  threads, and the values and queues of the three semaphores they meet at. `turn_matches`
  is the refinement: the kernel's step of either party succeeds and is the protocol's
  turn. What the protocol guarantees then holds of the code (`join_returns_exit_code`).
-/

import Nachos.Userprog.Rendezvous
import Nachos.Userprog.Slots

namespace Nachos

open Rendezvous
open Lib

/-- A parent and its child, where their PCBs are, and the child's exit code. -/
structure Pair where
  parent : Tid
  child : Tid
  parentID : Nat
  id : Nat
  p : Ptr
  q : Ptr
  ec : Word
  two_threads : parent ≠ child
  two_pcbs : p ≠ q
  not_main : id ≠ 0
  in_table : id < maxProcess ∧ parentID < maxProcess

namespace Pair

variable (x : Pair) {woken : Option Tid} {b b' : PCB} {t : Tid} {r : Ptr}

/-! ## Phases in the kernel -/

def waiterPc : Waiter → Pc
  | .call | .done => .user
  | .lock _ => .joinP x.id x.p
  | .hold => .joinInc x.id x.p
  | .wait => .joinCall x.id
  | .sleep _ => .joinWait x.id x.q
  | .read => .joinRead x.id

def leaverPc : Leaver → Pc
  | .call | .gone => .user
  | .lock _ => .exitP x.p
  | .hold => .exitDec x.p
  | .release => .exitRelease
  | .wait => .exitCall
  | .sleep _ => .exitWait x.q
  | .remove => .exitRemove

/-- The parent's `multex`. -/
def multex (s : Phases) : Semaphore :=
  ⟨if s.1 = .hold ∨ s.2 = .hold then 0 else 1,
    (if s.1 = .lock true then [x.parent] else []) ++ if s.2 = .lock true then [x.child] else []⟩

/-- The child's `joinsem`. -/
def joinsem (s : Phases) : Semaphore :=
  ⟨if s.2.released ∧ s.1.passed = false then 1 else 0, if s.1 = .sleep true then [x.parent] else []⟩

/-- The child's `exitsem`. -/
def exitsem (s : Phases) : Semaphore :=
  ⟨if s.1 = .done ∧ s.2.passed = false then 1 else 0, if s.2 = .sleep true then [x.child] else []⟩

/-- The parent's thread in phase `p`. -/
structure WaiterAt (th : Thread) (p : Waiter) : Prop where
  processID : th.processID = x.parentID
  pc : th.pc = x.waiterPc p
  blocked : th.blocked = p.asleep
  r2 : p = .done → th.r2 = x.ec

/-- The child's thread in phase `c`, with an address space that can be freed. -/
structure LeaverAt (k : Kernel) (th : Thread) (c : Leaver) : Prop where
  processID : th.processID = x.id
  pc : th.pc = x.leaverPc c
  blocked : th.blocked = c.asleep
  space : ∀ sp, th.space = some sp → ∃ a bm, k.spaces sp = some a ∧ a.destroy k.gPhysPageBitMap = .ok bm

/-- The child's PCB. -/
structure OwnAt (b : PCB) (s : Phases) : Prop where
  parentID : b.parentID = x.parentID
  thread : b.thread = some x.child
  joinsem : b.joinsem = x.joinsem s
  exitsem : b.exitsem = x.exitsem s
  exitcode : s.2 ≠ .call → b.exitcode = x.ec

structure Matches (k : Kernel) (s : Phases) : Prop where
  running : k.halted = false
  size : k.bm.numBits = maxProcess
  slot : k.pcb x.id = some x.q
  parentSlot : k.pcb x.parentID = some x.p
  waiter : ∃ th, k.threads x.parent = some th ∧ x.WaiterAt th s.1
  leaver : s.2 ≠ .gone → ∃ th, k.threads x.child = some th ∧ x.LeaverAt k th s.2
  gone : s.2 = .gone → k.threads x.child = none
  lock : ∃ b, k.heap x.p = some b ∧ b.multex = x.multex s
  bit : s.2 ≠ .gone → k.bm.bit x.id = true
  own : s.2 ≠ .gone → ∃ b, k.heap x.q = some b ∧ x.OwnAt b s

variable {x} {k k₁ : Kernel} {s s' : Phases} {p : Waiter} {c : Leaver} {th th' : Thread}

/-- `k₁` is `k` up to PCBs. -/
structure SameRest (k k₁ : Kernel) : Prop where
  threads : k₁.threads = k.threads
  pcb : k₁.pcb = k.pcb
  bm : k₁.bm = k.bm
  halted : k₁.halted = k.halted
  spaces : k₁.spaces = k.spaces
  frames : k₁.gPhysPageBitMap = k.gPhysPageBitMap

theorem SameRest.rfl : SameRest k k := ⟨Eq.refl _, Eq.refl _, Eq.refl _, Eq.refl _, Eq.refl _, Eq.refl _⟩

theorem LeaverAt.of_same (h : x.LeaverAt k th c) (hs : SameRest k k₁) : x.LeaverAt k₁ th c := by
  refine { h with space := ?_ }
  rw [hs.spaces, hs.frames]
  exact h.space

/-- The semaphore `m` of the phases, and where it is. -/
def sem (x : Pair) (s : Phases) : Sem → Semaphore
  | .multex => x.multex s
  | .joinsem => x.joinsem s
  | .exitsem => x.exitsem s

def pcbOf (x : Pair) : Sem → Ptr
  | .multex => x.p
  | _ => x.q

/-- The PCBs in the phases `s`, with the exit code of the phases `s'`. -/
structure PCBs (x : Pair) (k : Kernel) (s s' : Phases) : Prop where
  lock : ∃ b, k.heap x.p = some b ∧ b.multex = x.multex s
  own : ∃ b, k.heap x.q = some b ∧ x.OwnAt b s ∧ (s'.2 ≠ .call → b.exitcode = x.ec)

theorem Matches.pcbs (hm : x.Matches k s) (hg : s.2 ≠ .gone) (hc : s.2 = .call → s'.2 = .call) : x.PCBs k s s' := by
  obtain ⟨b, hb, ho⟩ := hm.own hg
  exact ⟨hm.lock, b, hb, ho, fun h => ho.exitcode (mt hc h)⟩

/-- The other PCB when one is changed. -/
theorem heap_q_of_p (hb : k.heap x.q = some b) : (k.setPCB x.p b').heap x.q = some b :=
  update_some_iff.mpr (.inr ⟨x.two_pcbs.symm, hb⟩)

theorem heap_p_of_q (hb : k.heap x.p = some b) : (k.setPCB x.q b').heap x.p = some b :=
  update_some_iff.mpr (.inr ⟨x.two_pcbs, hb⟩)

theorem heap_self : (k.setPCB r b).heap r = some b := Function.update_self ..

theorem same_setPCB (hs : SameRest k k₁) : SameRest k (k₁.setPCB r b) :=
  ⟨hs.threads, hs.pcb, hs.bm, hs.halted, hs.spaces, hs.frames⟩

namespace PCBs

theorem sem_at (h : x.PCBs k s s') (m : Sem) : ∃ b, k.heap (x.pcbOf m) = some b ∧ b.sem m = x.sem s m := by
  obtain ⟨b, hb, ho, -⟩ := h.own
  cases m with
  | multex => exact h.lock
  | joinsem => exact ⟨b, hb, ho.joinsem⟩
  | exitsem => exact ⟨b, hb, ho.exitsem⟩

/-- A party's turn at the semaphore `m`: the others stay as they are. -/
theorem turn {m : Sem} (h : x.PCBs k s s') (hb : k.heap (x.pcbOf m) = some b) (n : Nat)
    (hot : ∀ m', m' ≠ m → x.sem s' m' = x.sem s m') :
    x.PCBs (k.setPCB (x.pcbOf m) (PCB.setSem { b with numwait := n } (x.sem s' m) m)) s' s' := by
  obtain ⟨⟨pb, hpb, hmx⟩, d, hd, ho, hc⟩ := h
  cases m with
  | multex =>
    refine ⟨⟨_, heap_self, rfl⟩, d, heap_q_of_p hd, { ho with joinsem := ?_, exitsem := ?_, exitcode := hc }, hc⟩
    · exact ho.joinsem.trans (hot .joinsem (by simp)).symm
    · exact ho.exitsem.trans (hot .exitsem (by simp)).symm
  | joinsem =>
    cases hd.symm.trans hb
    refine ⟨⟨pb, heap_p_of_q hpb, hmx.trans (hot .multex (by simp)).symm⟩, _, heap_self, ?_, hc⟩
    exact { ho with joinsem := rfl, exitsem := ho.exitsem.trans (hot .exitsem (by simp)).symm, exitcode := hc }
  | exitsem =>
    cases hd.symm.trans hb
    refine ⟨⟨pb, heap_p_of_q hpb, hmx.trans (hot .multex (by simp)).symm⟩, _, heap_self, ?_, hc⟩
    exact { ho with joinsem := ho.joinsem.trans (hot .joinsem (by simp)).symm, exitsem := rfl, exitcode := hc }

end PCBs

section

variable (hm : x.Matches k s) (hs : SameRest k k₁) (hgone : s.2 ≠ .gone) (hgone' : s'.2 ≠ .gone) (hp : x.PCBs k₁ s' s')
include hm hs hgone hgone' hp

/-- The parent has moved to `th'` and may have woken the child. -/
theorem Matches.waiter_moves (hth : x.WaiterAt th' s'.1) (hsl : woken ≠ some x.parent)
    (hpc : x.leaverPc s'.2 = x.leaverPc s.2) (hwk : s'.2.asleep = (s.2.asleep && woken != some x.child)) :
    x.Matches ((k₁.setThread x.parent th').ready woken) s' := by
  have hne := x.two_threads
  obtain ⟨b, hb, ho, -⟩ := hp.own
  refine
    { running := hs.halted.trans hm.running, size := by rw [← hm.size, ← hs.bm]; rfl
      slot := by rw [← hm.slot, ← hs.pcb]; rfl
      parentSlot := by rw [← hm.parentSlot, ← hs.pcb]; rfl
      waiter := ⟨th', by simp [hsl], hth⟩, leaver := fun _ => ?_, gone := fun h => absurd h hgone', lock := hp.lock
      bit := fun _ => by rw [← hm.bit hgone, ← hs.bm]; rfl
      own := fun _ => ⟨b, hb, ho⟩ }
  obtain ⟨th, ht, hat⟩ := hm.leaver hgone
  have hat := hat.of_same hs
  refine ⟨if woken = some x.child then { th with blocked := false } else th, ?_, ?_⟩
  · simp [hne.symm, hs.threads, ht]
  split
  · rename_i hw
    exact ⟨hat.processID, hat.pc.trans hpc.symm, by simp [hwk, hw], hat.space⟩
  · rename_i hw
    exact ⟨hat.processID, hat.pc.trans hpc.symm, by simp [hwk, hw, hat.blocked], hat.space⟩

/-- The child has moved to `th'` and may have woken the parent. -/
theorem Matches.leaver_moves (hth : x.LeaverAt k th' s'.2) (hsl : woken ≠ some x.child)
    (hpc : x.waiterPc s'.1 = x.waiterPc s.1) (hwk : s'.1.asleep = (s.1.asleep && woken != some x.parent))
    (hd : s'.1 = .done → s.1 = .done) : x.Matches ((k₁.setThread x.child th').ready woken) s' := by
  have hne := x.two_threads
  obtain ⟨b, hb, ho, -⟩ := hp.own
  refine
    { running := hs.halted.trans hm.running, size := by rw [← hm.size, ← hs.bm]; rfl
      slot := by rw [← hm.slot, ← hs.pcb]; rfl
      parentSlot := by rw [← hm.parentSlot, ← hs.pcb]; rfl
      waiter := ?_, leaver := fun _ => ⟨th', by simp [hsl], ?_⟩, gone := fun h => absurd h hgone', lock := hp.lock
      bit := fun _ => by rw [← hm.bit hgone, ← hs.bm]; rfl
      own := fun _ => ⟨b, hb, ho⟩ }
  · obtain ⟨th, ht, hat⟩ := hm.waiter
    refine ⟨if woken = some x.parent then { th with blocked := false } else th, ?_, ?_⟩
    · simp [hne, hs.threads, ht]
    split
    · rename_i hw
      exact ⟨hat.processID, hat.pc.trans hpc.symm, by simp [hwk, hw], fun e => hat.r2 (hd e)⟩
    · rename_i hw
      exact ⟨hat.processID, hat.pc.trans hpc.symm, by simp [hwk, hw, hat.blocked], fun e => hat.r2 (hd e)⟩
  · have hat := hth.of_same hs
    exact { hat with space := hat.space }

end

/-! ## Turns at the semaphores -/

/-- The semaphore a party waits for in its phase, and the one it signals. -/
def waiterP : Waiter → Option Sem
  | .call | .lock false => some .multex
  | .wait | .sleep false => some .joinsem
  | _ => none

def waiterV : Waiter → Option Sem
  | .hold => some .multex
  | .read => some .exitsem
  | _ => none

def leaverP : Leaver → Option Sem
  | .call | .lock false => some .multex
  | .wait | .sleep false => some .exitsem
  | _ => none

def leaverV : Leaver → Option Sem
  | .hold => some .multex
  | .release => some .joinsem
  | _ => none

variable {m : Sem}

theorem waiter_present : ∀ p c, legal (p, c) = true → waiterP p ≠ none ∨ waiterV p ≠ none →
    c ≠ .gone ∧ (waiterTurn p c).2 ≠ .gone ∧ (c = .call → (waiterTurn p c).2 = .call) := by decide

theorem leaver_present : ∀ p c, leaverP c ≠ none ∨ leaverV c ≠ none →
    c ≠ .gone ∧ (leaverTurn p c).2 ≠ .gone ∧ (leaverTurn p c).2 ≠ .call ∧ ((leaverTurn p c).1 = .done → p = .done) := by
  decide

/-- A `P` takes the semaphore, or puts the party to sleep in its queue. -/
theorem waiter_p_sem (x : Pair) (hl : legal (p, c) = true) (hp : waiterP p = some m) :
    (x.sem (p, c) m).p x.parent = (x.sem (waiterTurn p c) m, !(waiterTurn p c).1.asleep) ∧
    (∀ m', m' ≠ m → x.sem (waiterTurn p c) m' = x.sem (p, c) m') ∧ (waiterTurn p c).2 = c ∧ (waiterTurn p c).1 ≠ .done := by
  rcases p with _ | (_ | _) | _ | _ | (_ | _) | _ | _ <;> cases hp <;>
    rcases c with _ | (_ | _) | _ | _ | _ | (_ | _) | _ | _ <;> cases hl <;>
    refine ⟨rfl, fun m' hm' => ?_, rfl, by decide⟩ <;>
    cases m' <;> first | rfl | exact absurd rfl hm'

/-- A `V` hands it on, and wakes the other party if that is asleep in the queue. -/
theorem waiter_v_sem (x : Pair) (hl : legal (p, c) = true) (hp : waiterV p = some m) :
    (x.sem (p, c) m).v.1 = x.sem (waiterTurn p c) m ∧ (x.sem (p, c) m).v.2 ≠ some x.parent ∧
    (waiterTurn p c).2.asleep = (c.asleep && (x.sem (p, c) m).v.2 != some x.child) ∧
    (∀ m', m' ≠ m → x.sem (waiterTurn p c) m' = x.sem (p, c) m') ∧ x.leaverPc (waiterTurn p c).2 = x.leaverPc c := by
  have := x.two_threads
  rcases p with _ | (_ | _) | _ | _ | (_ | _) | _ | _ <;> cases hp <;>
    rcases c with _ | (_ | _) | _ | _ | _ | (_ | _) | _ | _ <;> cases hl <;>
    refine ⟨rfl, ?_, ?_, fun m' hm' => ?_, rfl⟩
  any_goals cases m' <;> first | rfl | exact absurd rfl hm'
  all_goals simp [sem, multex, exitsem, Semaphore.v, waiterTurn, Leaver.asleep, this.symm]

theorem leaver_p_sem (x : Pair) (hl : legal (p, c) = true) (hc : leaverP c = some m) :
    (x.sem (p, c) m).p x.child = (x.sem (leaverTurn p c) m, !(leaverTurn p c).2.asleep) ∧
    (∀ m', m' ≠ m → x.sem (leaverTurn p c) m' = x.sem (p, c) m') ∧ (leaverTurn p c).1 = p := by
  rcases c with _ | (_ | _) | _ | _ | _ | (_ | _) | _ | _ <;> cases hc <;>
    rcases p with _ | (_ | _) | _ | _ | (_ | _) | _ | _ <;> cases hl <;>
    refine ⟨rfl, fun m' hm' => ?_, rfl⟩ <;>
    cases m' <;> first | rfl | exact absurd rfl hm'

theorem leaver_v_sem (x : Pair) (hl : legal (p, c) = true) (hc : leaverV c = some m) :
    (x.sem (p, c) m).v.1 = x.sem (leaverTurn p c) m ∧ (x.sem (p, c) m).v.2 ≠ some x.child ∧
    (leaverTurn p c).1.asleep = (p.asleep && (x.sem (p, c) m).v.2 != some x.parent) ∧
    (∀ m', m' ≠ m → x.sem (leaverTurn p c) m' = x.sem (p, c) m') ∧ x.waiterPc (leaverTurn p c).1 = x.waiterPc p := by
  have := x.two_threads
  rcases c with _ | (_ | _) | _ | _ | _ | (_ | _) | _ | _ <;> cases hc <;>
    rcases p with _ | (_ | _) | _ | _ | (_ | _) | _ | _ <;> cases hl <;>
    refine ⟨rfl, ?_, ?_, fun m' hm' => ?_, rfl⟩
  any_goals cases m' <;> first | rfl | exact absurd rfl hm'
  all_goals simp [sem, multex, joinsem, Semaphore.v, leaverTurn, Waiter.asleep, this]

open Kernel

section

variable (waiting next : Pc)

/-- The parent's `P`: of `IncNumWait`, and `JoinWait`. -/
theorem waiter_p (hm : x.Matches k (p, c)) (hl : legal (p, c) = true) (hat : x.WaiterAt th p) (hp : waiterP p = some m)
    (hpc : x.waiterPc (waiterTurn p c).1 = if !(waiterTurn p c).1.asleep then next else waiting) :
    ∃ k', k.semP x.parent th (x.pcbOf m) m waiting next = .ok k' ∧ x.Matches k' (waiterTurn p c) := by
  obtain ⟨ht, ho, hsm, hd⟩ := waiter_p_sem x hl hp
  obtain ⟨hg, hg', hc⟩ := waiter_present p c hl (.inl (by simp [hp]))
  have hpcb : x.PCBs k (p, c) (waiterTurn p c) := hm.pcbs hg hc
  obtain ⟨b, hb, hse⟩ := hpcb.sem_at m
  refine ⟨_, semP_ok.mpr ⟨b, hb, rfl⟩, ?_⟩
  rw [hse, ht, ← ready_none (k := setThread _ _ _)]
  exact hm.waiter_moves (same_setPCB .rfl) hg hg' (hpcb.turn hb b.numwait ho)
    ⟨hat.processID, hpc.symm, Bool.not_not _, fun h => absurd h hd⟩ (by simp) (by rw [hsm]) (by simp [hsm])

/-- The parent's `V`: of `IncNumWait`, and `ExitRelease`. -/
theorem waiter_v {f : PCB → PCB} (hm : x.Matches k (p, c)) (hl : legal (p, c) = true) (hp : waiterV p = some m)
    (hat : x.WaiterAt th (waiterTurn p c).1) (hf : ∀ b, ∃ n, f b = { b with numwait := n }) :
    ∃ k', k.semV x.parent th (x.pcbOf m) m f = .ok k' ∧ x.Matches k' (waiterTurn p c) := by
  obtain ⟨ht, hsl, hw, ho, hpc⟩ := waiter_v_sem x hl hp
  obtain ⟨hg, hg', hc⟩ := waiter_present p c hl (.inr (by simp [hp]))
  have hpcb : x.PCBs k (p, c) (waiterTurn p c) := hm.pcbs hg hc
  obtain ⟨b, hb, hsm⟩ := hpcb.sem_at m
  obtain ⟨n, hn⟩ := hf b
  have hs' : PCB.sem { b with numwait := n } m = x.sem (p, c) m := by rw [← hsm]; cases m <;> rfl
  refine ⟨_, semV_ok.mpr ⟨b, hb, rfl⟩, ?_⟩
  rw [hn, hs', ht]
  exact hm.waiter_moves (same_setPCB .rfl) hg hg' (hpcb.turn hb n ho) hat hsl hpc hw

/-- The child's `P`: of `DecNumWait`, with the exit code set in `k₁`, and `ExitWait`. -/
theorem leaver_p (hm : x.Matches k (p, c)) (hl : legal (p, c) = true) (hat : x.LeaverAt k th c) (hc : leaverP c = some m)
    (hs : SameRest k k₁) (hpcb : x.PCBs k₁ (p, c) (leaverTurn p c))
    (hpc : x.leaverPc (leaverTurn p c).2 = if !(leaverTurn p c).2.asleep then next else waiting) :
    ∃ k', k₁.semP x.child th (x.pcbOf m) m waiting next = .ok k' ∧ x.Matches k' (leaverTurn p c) := by
  obtain ⟨ht, ho, hsm⟩ := leaver_p_sem x hl hc
  obtain ⟨hg, hg', -, hd⟩ := leaver_present p c (.inl (by simp [hc]))
  obtain ⟨b, hb, hse⟩ := hpcb.sem_at m
  refine ⟨_, semP_ok.mpr ⟨b, hb, rfl⟩, ?_⟩
  rw [hse, ht, ← ready_none (k := setThread _ _ _)]
  exact hm.leaver_moves (same_setPCB hs) hg hg' (hpcb.turn hb b.numwait ho)
    ⟨hat.processID, hpc.symm, Bool.not_not _, hat.space⟩ (by simp) (by rw [hsm]) (by simp [hsm]) hd

/-- The child's `V`: of `DecNumWait`, and `JoinRelease`. -/
theorem leaver_v {f : PCB → PCB} (hm : x.Matches k (p, c)) (hl : legal (p, c) = true) (hc : leaverV c = some m)
    (hcl : c ≠ .call) (hat : x.LeaverAt k th (leaverTurn p c).2) (hf : ∀ b, ∃ n, f b = { b with numwait := n }) :
    ∃ k', k.semV x.child th (x.pcbOf m) m f = .ok k' ∧ x.Matches k' (leaverTurn p c) := by
  obtain ⟨ht, hsl, hw, ho, hpc⟩ := leaver_v_sem x hl hc
  obtain ⟨hg, hg', -, hd⟩ := leaver_present p c (.inr (by simp [hc]))
  have hpcb : x.PCBs k (p, c) (leaverTurn p c) := hm.pcbs hg fun h => absurd h hcl
  obtain ⟨b, hb, hsm⟩ := hpcb.sem_at m
  obtain ⟨n, hn⟩ := hf b
  have hs' : PCB.sem { b with numwait := n } m = x.sem (p, c) m := by rw [← hsm]; cases m <;> rfl
  refine ⟨_, semV_ok.mpr ⟨b, hb, rfl⟩, ?_⟩
  rw [hn, hs', ht]
  exact hm.leaver_moves (same_setPCB .rfl) hg hg' (hpcb.turn hb n ho) hat hsl hpc hw hd

end

/-! ## The parent's turns -/

variable {bigEndian : Bool}

theorem step_cont (hr : k.halted = false) (ht : k.threads t = some th) (hb : th.blocked = false) :
    step bigEndian k (.cont t) = k.cont t th := by
  simp [step, Event.tid, hr, ht, hb, act]

theorem step_asleep (hr : k.halted = false) (ht : k.threads t = some th) (hb : th.blocked = true) :
    step bigEndian k (.cont t) = .ok k := by
  simp [step, Event.tid, hr, ht, hb]

theorem Matches.child_slot (hm : x.Matches k s) (hb : k.heap x.q = some b) : k.slot x.id = .ok (x.q, b) := by
  have := x.in_table
  exact slot_ok.mpr ⟨⟨by omega, by omega⟩, hm.slot, hb⟩

theorem Matches.parent_slot (hm : x.Matches k s) (hs : SameRest k k₁) (hb : k₁.heap x.p = some b) :
    k₁.slot x.parentID = .ok (x.p, b) := by
  have := x.in_table
  exact slot_ok.mpr ⟨⟨by omega, by omega⟩, hs.pcb ▸ hm.parentSlot, hb⟩

theorem waiter_call (hm : x.Matches k (.call, c)) (hl : legal (.call, c) = true) :
    ∃ k', step bigEndian k (.join x.parent x.id) = .ok k' ∧ x.Matches k' (waiterTurn .call c) := by
  obtain ⟨th, ht, hat⟩ := hm.waiter
  obtain ⟨b, hb, ho⟩ := hm.own (by rintro ⟨⟩; cases hl)
  obtain ⟨pb, hpb, -⟩ := hm.lock
  obtain ⟨k', hk', hm'⟩ := waiter_p (.joinP x.id x.p) (.joinInc x.id x.p) hm hl hat rfl
    (by rw [waiterTurn]; split <;> rfl)
  refine ⟨k', ?_, hm'⟩
  have hst : step bigEndian k (.join x.parent x.id) = k.joinUpdate x.parent th x.id := by
    simp [step, Event.tid, hm.running, ht, hat.blocked, Waiter.asleep, act, hat.pc, waiterPc]
  rw [hst, joinUpdate, if_neg (by omega)]
  refine bind_eq_ok.mpr ⟨_, hm.child_slot hb, ?_⟩
  dsimp only
  rw [if_neg (by simp [hat.processID, ho.parentID])]
  exact bind_eq_ok.mpr ⟨_, by rw [ho.parentID]; exact hm.parent_slot .rfl hpb, hk'⟩

/-! ## The child's turns -/

theorem leaver_call (hm : x.Matches k (p, .call)) (hl : legal (p, .call) = true) :
    ∃ k', step bigEndian k (.exitUpdate x.child x.ec) = .ok k' ∧ x.Matches k' (leaverTurn p .call) := by
  obtain ⟨th, ht, hat⟩ := hm.leaver (by simp)
  obtain ⟨b, hb, ho⟩ := hm.own (by simp)
  obtain ⟨pb, hpb, hmx⟩ := hm.lock
  have hne : th.processID ≠ 0 := by rw [hat.processID]; exact x.not_main
  have hts : k.bm.test th.processID = some true := by
    have := x.in_table
    simp [BitMap.test, BitMap.inRange, hm.size, hat.processID, hm.bit (by simp), this]
  have hp' : (k.setPCB x.q { b with exitcode := x.ec }).heap x.p = some pb := heap_p_of_q hpb
  obtain ⟨k', hk', hm'⟩ := leaver_p (.exitP x.p) (.exitDec x.p) hm hl hat rfl
    (same_setPCB .rfl) ⟨⟨pb, hp', hmx⟩, _, heap_self, { ho with exitcode := fun _ => rfl }, fun _ => rfl⟩
    (by rw [leaverTurn]; split <;> rfl)
  refine ⟨k', ?_, hm'⟩
  have hst : step bigEndian k (.exitUpdate x.child x.ec) = k.exitUpdate x.child th x.ec := by
    simp [step, Event.tid, hm.running, ht, hat.blocked, Leaver.asleep, act, hat.pc, leaverPc]
  rw [hst, exitUpdate, if_neg hne, hts]
  refine bind_eq_ok.mpr ⟨_, by rw [hat.processID]; exact hm.child_slot hb, ?_⟩
  have hsl := hm.parent_slot (same_setPCB .rfl) hp'
  rw [← ho.parentID] at hsl
  exact bind_eq_ok.mpr ⟨(x.p, pb), hsl, hk'⟩

/-- `Remove` and `~PCB`. -/
theorem leaver_remove (hm : x.Matches k (.done, .remove)) :
    ∃ k', step bigEndian k (.cont x.child) = .ok k' ∧ x.Matches k' (.done, .gone) := by
  obtain ⟨th, ht, hat⟩ := hm.leaver (by simp)
  obtain ⟨wth, hw, hwt⟩ := hm.waiter
  obtain ⟨pb, hpb, hmx⟩ := hm.lock
  obtain ⟨b, hb, ho⟩ := hm.own (by simp)
  have hc : k.bm.clear th.processID = some (k.bm.clearBit x.id) := by
    have := x.in_table
    simp [BitMap.clear, BitMap.inRange, hm.size, hat.processID, this]
  have hpc : k.pcb th.processID = some x.q := by rw [hat.processID]; exact hm.slot
  -- the state after `Remove`, once the space, if any, is freed
  have he : ∀ {frames spaces}, x.Matches { k with
      bm := k.bm.clearBit x.id, heap := Function.update k.heap x.q none, gPhysPageBitMap := frames, spaces,
      threads := Function.update k.threads x.child none } (.done, .gone) := fun {frames spaces} =>
    { running := hm.running, size := hm.size, slot := hm.slot, parentSlot := hm.parentSlot
      waiter := ⟨wth, by simp [x.two_threads, hw], hwt⟩
      leaver := fun h => absurd rfl h, gone := fun _ => Function.update_self ..
      lock := ⟨pb, update_none_iff.mpr ⟨x.two_pcbs, hpb⟩, hmx.trans (by simp [multex])⟩
      bit := fun h => absurd rfl h, own := fun h => absurd rfl h }
  have hst : step bigEndian k (.cont x.child) = finish { k with
      bm := k.bm.clearBit x.id, heap := Function.update k.heap x.q none } x.child th := by
    rw [step_cont hm.running ht hat.blocked, cont, hat.pc]
    show exitRemove k x.child th = _
    unfold exitRemove
    rw [hc]
    dsimp only
    rw [hpc]
    simp only [deref, hb]
    show (if b.thread = none ∨ b.thread = some x.child then _ else _) = _
    rw [if_pos (.inr ho.thread)]
  rw [hst, finish, freeSpace]
  cases hsp : th.space with
  | none => exact ⟨_, rfl, he⟩
  | some sp =>
    obtain ⟨a, bm, ha, hbm⟩ := hat.space sp hsp
    simp only [ha, hbm]
    exact ⟨_, rfl, he⟩

/-! ## The refinement -/

/-- The parent's next event: the call, then going on with it. -/
def waiterEvent (x : Pair) (called : Bool) : Kernel.Event := if called then .cont x.parent else .join x.parent x.id

def leaverEvent (x : Pair) (called : Bool) : Kernel.Event := if called then .cont x.child else .exitUpdate x.child x.ec

theorem waiter_goes_on (hm : x.Matches k s) (ht : k.threads x.parent = some th) (hat : x.WaiterAt th p)
    (hp : p ≠ .call) (ha : p.asleep = false) : step bigEndian k (x.waiterEvent (p != .call)) = k.cont x.parent th := by
  rw [waiterEvent, if_pos (by simpa using hp), step_cont hm.running ht (hat.blocked.trans ha)]

theorem leaver_goes_on (hm : x.Matches k s) (ht : k.threads x.child = some th) (hat : x.LeaverAt k th c)
    (hc : c ≠ .call) (ha : c.asleep = false) : step bigEndian k (x.leaverEvent (c != .call)) = k.cont x.child th := by
  rw [leaverEvent, if_pos (by simpa using hc), step_cont hm.running ht (hat.blocked.trans ha)]

theorem waiter_turn (bigEndian : Bool) (hm : x.Matches k (p, c)) (hl : legal (p, c) = true) :
    ∃ k', step bigEndian k (x.waiterEvent (p != .call)) = .ok k' ∧ x.Matches k' (waiterTurn p c) := by
  obtain ⟨th, ht, hat⟩ := hm.waiter
  rcases p with _ | (_ | _) | _ | _ | (_ | _) | _ | _
  case call => exact waiter_call hm hl
  case lock.true | sleep.true => exact ⟨k, step_asleep hm.running ht hat.blocked, hm⟩
  all_goals rw [waiter_goes_on hm ht hat (by simp) rfl, cont, hat.pc]
  case lock.false => exact waiter_p _ _ hm hl hat rfl rfl
  case hold => exact waiter_v hm hl rfl ⟨hat.processID, rfl, hat.blocked, fun h => by cases h⟩ fun b => ⟨_, rfl⟩
  case wait =>
    obtain ⟨b, hb, -⟩ := hm.own (by rintro ⟨⟩; cases hl)
    show ∃ k', k.joinCall x.parent th x.id = .ok k' ∧ _
    rw [joinCall, hm.child_slot hb]
    exact waiter_p _ _ hm hl hat rfl (by rw [waiterTurn]; split <;> rfl)
  case sleep.false => exact waiter_p _ _ hm hl hat rfl rfl
  case read =>
    -- `GetExitCode`, `ExitRelease` and the return
    obtain ⟨b, hb, ho⟩ := hm.own (by rintro ⟨⟩; cases hl)
    have hc : b.exitcode = x.ec := ho.exitcode (by rintro ⟨⟩; cases hl)
    show ∃ k', k.joinRead x.parent th x.id = .ok k' ∧ _
    rw [joinRead, hm.child_slot hb]
    exact waiter_v hm hl rfl ⟨hat.processID, rfl, hat.blocked, fun _ => hc⟩ fun b => ⟨_, rfl⟩
  case done => exact ⟨k, rfl, hm⟩

theorem leaver_turn (bigEndian : Bool) (hm : x.Matches k (p, c)) (hl : legal (p, c) = true) :
    ∃ k', step bigEndian k (x.leaverEvent (c != .call)) = .ok k' ∧ x.Matches k' (leaverTurn p c) := by
  by_cases hg : c = .gone
  · subst hg
    refine ⟨k, ?_, hm⟩
    simp [leaverEvent, step, Event.tid, hm.running, hm.gone rfl]
  obtain ⟨th, ht, hat⟩ := hm.leaver hg
  obtain ⟨b, hb, -⟩ := hm.own hg
  rcases c with _ | (_ | _) | _ | _ | _ | (_ | _) | _ | _
  case call => exact leaver_call hm hl
  case lock.true | sleep.true => exact ⟨k, step_asleep hm.running ht hat.blocked, hm⟩
  case remove =>
    obtain rfl : p = .done := (by decide : ∀ p, legal (p, .remove) = true → p = .done) p hl
    exact leaver_remove hm
  case gone => exact absurd rfl hg
  all_goals rw [leaver_goes_on hm ht hat (by simp) rfl, cont, hat.pc]
  case lock.false => exact leaver_p _ _ hm hl hat rfl .rfl (hm.pcbs hg (by simp)) rfl
  case hold => exact leaver_v hm hl rfl (by simp) ⟨hat.processID, rfl, hat.blocked, hat.space⟩ fun b => ⟨_, rfl⟩
  case release =>
    show ∃ k', k.exitRelease x.child th = .ok k' ∧ _
    rw [exitRelease, hat.processID, hm.child_slot hb]
    exact leaver_v hm hl rfl (by simp) ⟨rfl, rfl, hat.blocked, hat.space⟩ fun b => ⟨_, rfl⟩
  case wait =>
    show ∃ k', k.exitCall x.child th = .ok k' ∧ _
    rw [exitCall, hat.processID, hm.child_slot hb]
    exact leaver_p _ _ hm hl hat rfl .rfl (hm.pcbs hg (by simp)) (by rw [leaverTurn]; split <;> rfl)
  case sleep.false => exact leaver_p _ _ hm hl hat rfl .rfl (hm.pcbs hg (by simp)) rfl

/-! ## Interleavings -/

/-- A run of the two: the kernel, and whether each has made its call. -/
structure Duo where
  k : Kernel
  joined : Bool
  exited : Bool

/-- One party gets the CPU: it calls `JoinUpdate(id)` (`ExitUpdate(ec)`) if it has not
    yet, and goes on with the call otherwise. -/
def play (bigEndian : Bool) (x : Pair) (d : Duo) : Party → Except Stop Duo
  | .waiter => do
    let k ← step bigEndian d.k (x.waiterEvent d.joined)
    return { d with k, joined := true }
  | .leaver => do
    let k ← step bigEndian d.k (x.leaverEvent d.exited)
    return { d with k, exited := true }

/-- What `JoinUpdate` has returned, if it has. -/
def returned (x : Pair) (d : Duo) : Option Word :=
  match d.k.threads x.parent with
  | some th => if d.joined && th.pc == .user then some th.r2 else none
  | none => none

/-- The child is past `ExitWait`. -/
def released (x : Pair) (d : Duo) : Bool :=
  match d.k.threads x.child with
  | some th => th.pc == .exitRemove
  | none => true

/-- Both are running their programs, neither has called, and nobody holds the parent's
    `multex`. -/
def ready (k : Kernel) (x : Pair) : Bool :=
  !k.halted && k.bm.numBits == maxProcess && k.bm.bit x.id && k.pcb x.id == some x.q && k.pcb x.parentID == some x.p &&
  (k.threads x.parent).any (fun th => th.processID == x.parentID && th.pc == .user && !th.blocked) &&
  (k.threads x.child).any (fun th => th.processID == x.id && th.pc == .user && !th.blocked &&
    th.space.all fun sp => (k.spaces sp).any fun a => (a.destroy k.gPhysPageBitMap).isOk) &&
  (k.heap x.p).any (fun b => b.multex == .new 1) &&
  (k.heap x.q).any fun b =>
    b.parentID == (x.parentID : Int) && b.thread == some x.child && b.joinsem == .new 0 && b.exitsem == .new 0

theorem ready_matches (h : ready k x = true) : x.Matches k (.call, .call) := by
  simp only [ready, Bool.and_eq_true, Bool.not_eq_true', beq_iff_eq, Option.any_eq_true] at h
  obtain ⟨⟨⟨⟨⟨⟨⟨⟨hr, hsz⟩, hbt⟩, hq⟩, hp⟩, wt, hw, ⟨hwd, hwp⟩, hwb⟩, lt, hl, ⟨⟨hld, hlp⟩, hlb⟩, hsp⟩,
    pb, hpb, hmx⟩, b, hb, ⟨⟨hpar, hth⟩, hj⟩, he⟩ := h
  refine
    { running := hr, size := hsz, slot := hq, parentSlot := hp
      waiter := ⟨wt, hw, hwd, hwp, hwb, fun e => by cases e⟩
      leaver := fun _ => ⟨lt, hl, hld, hlp, hlb, fun sp e => ?_⟩
      gone := fun e => (by cases e), lock := ⟨pb, hpb, hmx⟩, bit := fun _ => hbt
      own := fun _ => ⟨b, hb, hpar, hth, hj, he, fun e => absurd rfl e⟩ }
  rw [e, Option.all_some, Option.any_eq_true] at hsp
  obtain ⟨a, ha, hd⟩ := hsp
  cases hbm : a.destroy k.gPhysPageBitMap with
  | ok bm => exact ⟨a, bm, ha, hbm⟩
  | error e => rw [hbm] at hd; cases hd

/-- The run is at phases `s`. -/
structure At (x : Pair) (d : Duo) (s : Phases) : Prop where
  kernel : x.Matches d.k s
  joined : d.joined = (s.1 != .call)
  exited : d.exited = (s.2 != .call)
  legal : legal s = true

variable {d : Duo}

/-- The kernel's step of either party succeeds and is the protocol's turn. -/
theorem turn_matches (bigEndian : Bool) (h : x.At d s) (y : Party) :
    ∃ d', play bigEndian x d y = .ok d' ∧ x.At d' (turn s y) := by
  obtain ⟨p, c⟩ := s
  have hl := legal_turn (p, c) y h.legal
  cases y with
  | waiter =>
    obtain ⟨k', hk', hm'⟩ := waiter_turn bigEndian h.kernel h.legal
    refine ⟨_, bind_eq_ok.mpr ⟨k', by rw [h.joined]; exact hk', rfl⟩, hm', ?_, ?_, hl⟩
    · exact ((by decide : ∀ s, (true = ((turn s .waiter).1 != .call))) (p, c))
    · exact h.exited.trans ((by decide : ∀ s, (s.2 != .call) = ((turn s .waiter).2 != .call)) (p, c))
  | leaver =>
    obtain ⟨k', hk', hm'⟩ := leaver_turn bigEndian h.kernel h.legal
    refine ⟨_, bind_eq_ok.mpr ⟨k', by rw [h.exited]; exact hk', rfl⟩, hm', ?_, ?_, hl⟩
    · exact h.joined.trans ((by decide : ∀ s, (s.1 != .call) = ((turn s .leaver).1 != .call)) (p, c))
    · exact ((by decide : ∀ s, (true = ((turn s .leaver).2 != .call))) (p, c))

theorem plays_match (bigEndian : Bool) (ys : List Party) : ∀ {d : Duo} {s : Phases}, x.At d s →
    ∃ d', ys.foldlM (play bigEndian x) d = .ok d' ∧ x.At d' (runTurns s ys) := by
  induction ys with
  | nil => exact fun {d s} h => ⟨d, rfl, h⟩
  | cons y ys ih =>
    intro d s h
    obtain ⟨d1, hd1, h1⟩ := turn_matches bigEndian h y
    obtain ⟨d', hd', h'⟩ := ih h1
    exact ⟨d', by rw [List.foldlM_cons]; exact bind_eq_ok.mpr ⟨d1, hd1, hd'⟩, h'⟩

theorem At.returned_eq (h : x.At d s) : x.returned d = if s.1 = .done then some x.ec else none := by
  obtain ⟨th, ht, hat⟩ := h.kernel.waiter
  obtain ⟨p, c⟩ := s
  rw [returned, ht, h.joined]
  by_cases hp : p = .done
  · subst hp
    have hpc : th.pc = .user := hat.pc
    simp [hpc, hat.r2 rfl]
  · have hpc : ((p != .call) && th.pc == .user) = false := by
      rw [hat.pc]
      cases p <;> first | rfl | exact absurd rfl hp
    simp [hpc, hp]

theorem At.released_eq (h : x.At d s) : x.released d = s.2.passed := by
  obtain ⟨p, c⟩ := s
  by_cases hg : c = .gone
  · subst hg
    rw [released, h.kernel.gone rfl]
    rfl
  · obtain ⟨th, ht, hat⟩ := h.kernel.leaver hg
    rw [released, ht]
    show (th.pc == .exitRemove) = c.passed
    rw [hat.pc]
    cases c <;> first | rfl | exact absurd rfl hg

/-- Whatever the schedule: neither party gets stuck in an error; `JoinUpdate` returns
    nothing but the exit code, and only after `ExitUpdate` has set it; until it has
    returned, the child's bit is set, its slot names its PCB and the PCB is alive; the
    child passes `ExitWait` only after `JoinUpdate` has read the code. When both keep
    getting turns, `JoinUpdate` returns and the child is gone. -/
theorem join_returns_exit_code (bigEndian : Bool) (x : Pair) (k : Kernel) (h : ready k x = true)
    (schedule : List Party) : ∃ d, schedule.foldlM (play bigEndian x) ⟨k, false, false⟩ = .ok d ∧
      (∀ w, x.returned d = some w → w = x.ec ∧ d.exited = true) ∧
      (x.returned d = none → d.k.bm.bit x.id = true ∧ d.k.pcb x.id = some x.q ∧ (d.k.heap x.q).isSome = true) ∧
      (x.released d = true → x.returned d = some x.ec) ∧
      ∀ rounds : List (List Party), schedule = rounds.flatten → (∀ r ∈ rounds, ∀ y, y ∈ r) → 13 ≤ rounds.length →
        x.returned d = some x.ec ∧ d.k.threads x.child = none := by
  obtain ⟨d, hd, hat⟩ := plays_match bigEndian schedule
    (d := ⟨k, false, false⟩) ⟨ready_matches h, rfl, rfl, rfl⟩
  refine ⟨d, hd, ?_, ?_, ?_, ?_⟩
  · intro w hw
    rw [hat.returned_eq, Option.ite_none_right_eq_some] at hw
    exact ⟨Option.some.inj hw.2.symm, hat.exited.trans (called_of_done _ hat.legal hw.1)⟩
  · intro hn
    have hg : (runTurns (.call, .call) schedule).2 ≠ .gone := by
      intro hg
      have hdone := done_of_passed _ hat.legal (by rw [hg]; rfl)
      rw [hat.returned_eq, if_pos hdone] at hn
      cases hn
    obtain ⟨b, hb, -⟩ := hat.kernel.own hg
    exact ⟨hat.kernel.bit hg, hat.kernel.slot, by rw [hb]; rfl⟩
  · intro hr
    rw [hat.released_eq] at hr
    rw [hat.returned_eq, if_pos (done_of_passed _ hat.legal hr)]
  · intro rounds heq hr hlen
    subst heq
    have hend := rounds_finish rounds (s := (.call, .call)) rfl hr hlen
    rw [hend] at hat
    exact ⟨hat.returned_eq, hat.kernel.gone rfl⟩

/-- The main program and its first child, once both run. -/
def mainAndChild (ec : Word) : Pair :=
  { parent := 0, child := 1, parentID := 0, id := 1, p := 0, q := 1, ec
    two_threads := by decide, two_pcbs := by decide, not_main := by decide, in_table := by decide }

/-- The main program joins its child, which leaves with 7: in any interleaving it gets 7. -/
theorem join_of_first_child : ∃ k, Lib.Reach (step false) (fun _ _ => True) Init k ∧
    ready k (mainAndChild 7) = true ∧ ∀ schedule : List Party, ∃ d,
      schedule.foldlM (play false (mainAndChild 7)) ⟨k, false, false⟩ = .ok d ∧
      ∀ w, returned (mainAndChild 7) d = some w → w = 7 := by
  obtain ⟨k, hk, hr⟩ := exists_reach (step false) (fun _ _ => true) (s := booted)
    (starts 0 :: execs 0 "ping" ++ [starts 1]) (fun k => ready k (mainAndChild 7)) booted_init (by decide +kernel)
  refine ⟨k, hk.mono fun _ _ _ => trivial, hr, fun schedule => ?_⟩
  obtain ⟨d, hd, hret, -⟩ := join_returns_exit_code false (mainAndChild 7) k hr schedule
  exact ⟨d, hd, fun w hw => (hret w hw).1⟩

end Pair

end Nachos

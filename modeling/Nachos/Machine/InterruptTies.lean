/-
  Nachos.Machine.InterruptTies — interrupts that are due at the same time.

  `CheckIfDue` takes the first interrupt out of the queue to look at its time, and puts it
  back when the time has not come. `SortedInsert` puts it behind the others with its time,
  so each tick before that time turns them round: `tie_reversed` runs two of them in the
  order opposite to the one they were scheduled in. A call that answers FALSE leaves the
  queue as it was exactly when the first two interrupts are not due at the same time, and in
  a run whose calls find no such pair early the order is that of scheduling
  (`ties_in_order`).
-/

import Nachos.Machine.InterruptQueue

namespace Nachos.Interrupts

open Lib List

variable {S W : Type} {dev : Devices S W} {k k' : Interrupts W} {first : ListElement PendingInterrupt}
  {rest : List (ListElement PendingInterrupt)} {advanceClock : Bool}

/-- Interrupts with the same time are pending, and have been called, in the order they were
    scheduled. -/
structure Fair (k : Interrupts W) : Prop extends Kept k where
  ties : k.pending.Pairwise (fun a b => a.key = b.key → a.item.id < b.item.id)
  fifo : (k.invoked.map (·.1)).Pairwise (fun a b => a.when = b.when → a.id < b.id)
  across : ∀ x ∈ k.invoked, ∀ e ∈ k.pending, x.1.when = e.key → x.1.id < e.item.id

/-- When `CheckIfDue(FALSE)` is called and the first two interrupts have the same time, it has
    come. -/
def untied (k : Interrupts W) : Call W → Bool
  | .checkIfDue false =>
    match k.pending with
    | a :: b :: _ => a.key != b.key || decide (a.key ≤ k.totalTicks)
    | _ => true
  | _ => true

theorem Kept.first_new (h : k.Kept) (hp : k.pending = first :: rest) : first ∉ rest := by
  have hn : (k.pending.map (·.item)).Nodup :=
    (nodup_append.mp (h.all.nodup_iff.mpr h.nodup)).2.1
  rw [hp, map_cons, nodup_cons] at hn
  exact fun hm => hn.1 (mem_map_of_mem hm)

/-- `CheckIfDue` answers FALSE: the queue is as it was unless the first two have the same time. -/
theorem checkIfDue_pending (h : k.Kept) (e : k.checkIfDue dev advanceClock = .ok (false, k')) :
    k'.pending = k.pending ↔ ∀ a b rest, k.pending = a :: b :: rest → a.key ≠ b.key := by
  obtain ⟨-, ⟨he, e⟩ | ⟨first, rest, hp, ⟨-, -, e⟩ | ⟨now, -, -, -, e⟩⟩⟩ := checkIfDue_eq e
  · cases e
    simp [he]
  · cases e
    have hs := h.sorted
    rw [hp] at hs
    rw [hp, sortedInsert_head hs (h.first_new hp)]
    constructor
    · intro ha a b l hl
      obtain ⟨rfl, rfl⟩ := List.cons.inj hl
      exact (ha b rfl).symm
    · intro ha b hb
      obtain ⟨l, rfl⟩ : ∃ l, rest = b :: l := head?_eq_some_iff.mp hb
      exact (ha first b l rfl).symm
  · rcases occur_eq e with ⟨-, hr, e⟩ | ⟨k', -, e⟩
    · cases e
      have hr : rest = [] := hr
      subst hr
      simp [hp]
    · cases e

theorem Fair.congr (h : k.Fair) (hk : k'.Kept) (hp : k'.pending = k.pending) (hi : k'.invoked = k.invoked) : k'.Fair := by
  refine ⟨hk, ?_, ?_, ?_⟩
  · rw [hp]; exact h.ties
  · rw [hi]; exact h.fifo
  · rw [hp, hi]; exact h.across

/-- A new interrupt has the largest number and goes behind those with its time. -/
theorem Fair.schedule (h : k.Fair) {handler : Nat} {arg : Word} {fromNow : Int} {type : IntType}
    (e : k.schedule handler arg fromNow type = .ok k') : k'.Fair := by
  have hk' := h.toKept.schedule e
  obtain ⟨hp, toOccur, hid, hw, rfl⟩ := schedule_eq e
  refine ⟨hk', ?_, h.fifo, ?_⟩
  · refine sortedInsert_pairwise h.sorted h.ties ?_ ?_
    · intro x hx _ _
      rw [hid]
      exact h.id_lt (mem_append_right _ (mem_map_of_mem hx))
    · intro x _ hlt heq
      exact absurd heq (Int.ne_of_lt hlt)
  · intro x hx y hy heq
    rcases mem_sortedInsert.mp hy with rfl | hy
    · have := h.due x hx
      simp only at heq
      omega
    · exact h.across x hx y hy heq

theorem Fair.runHandler (acts : List (Action S)) (h : k.Fair) (e : k.runHandler dev acts = .ok k') : k'.Fair := by
  refine runHandler_inv acts ?_ ?_ ?_ h e
  · intro k k' handler arg fromNow type h e
    exact h.schedule e
  · intro k h
    exact h.congr (h.toKept.congr rfl rfl rfl rfl) rfl rfl
  · intro k s w h _
    exact h.congr (h.toKept.congr rfl rfl rfl rfl) rfl rfl

/-- The first interrupt was scheduled before the others with its time. -/
theorem Fair.invoke (h : k.Fair) (hp : k.pending = first :: rest) {now : Int} (hd : first.key ≤ now)
    (hn : k.totalTicks ≤ now) : ((k.taking rest now).entering first).Fair := by
  have ht := h.ties
  have hac := h.across
  have hk := h.keyed
  rw [hp] at ht hac hk
  have hky : first.key = first.item.when := hk first mem_cons_self
  obtain ⟨hf, hr⟩ := pairwise_cons.mp ht
  refine ⟨h.toKept.invoke hp hd hn, hr, ?_, ?_⟩
  · simp only [entering, taking, map_append]
    refine pairwise_append.mpr ⟨h.fifo, pairwise_singleton .., ?_⟩
    intro a ha b hb heq
    obtain ⟨x, hx, rfl⟩ := mem_map.mp ha
    cases mem_singleton.mp hb
    exact hac x hx first mem_cons_self (heq.trans hky.symm)
  · intro x hx e he heq
    rcases mem_append.mp hx with hx | hx
    · exact hac x hx e (mem_cons_of_mem _ he) heq
    · cases mem_singleton.mp hx
      exact hf e he (hky.trans heq)

theorem Fair.checkIfDue (h : k.Fair) (hu : k.untied (.checkIfDue advanceClock) = true) {r : Bool × Interrupts W}
    (e : k.checkIfDue dev advanceClock = .ok r) : r.2.Fair := by
  have hk' := h.toKept.checkIfDue e
  obtain ⟨-, ⟨-, rfl⟩ | ⟨first, rest, hp, ⟨rfl, hlt, rfl⟩ | ⟨now, hd, hn, -, e'⟩⟩⟩ := checkIfDue_eq e
  · exact h
  · refine h.congr hk' ((checkIfDue_pending h.toKept e).mpr ?_) rfl
    intro a b l hl heq
    have hle : a.key ≤ k.totalTicks := by simpa [untied, hl, heq] using hu
    obtain ⟨rfl, -⟩ := List.cons.inj (hp.symm.trans hl)
    omega
  · rcases occur_eq e' with ⟨-, hr, rfl⟩ | ⟨k', hrn, rfl⟩
    · have hr : rest = [] := hr
      subst hr
      exact h.congr hk' hp.symm rfl
    · have hf := (h.invoke hp hd hn).runHandler _ hrn
      exact hf.congr hk' rfl rfl

theorem Fair.call (h : k.Fair) {c : Call W} (hu : k.untied c = true) (e : k.call dev c = .ok k') : k'.Fair := by
  have hk' := (h.toKept.call e).1
  cases c with
  | schedule handler arg fromNow type => exact h.schedule e
  | tick =>
    obtain ⟨now, systemTicks, userTicks, -, -, rfl⟩ := tick_eq e
    exact h.congr hk' rfl rfl
  | checkIfDue advanceClock =>
    obtain ⟨r, e1, e2⟩ := bind_eq_ok.mp e
    cases e2
    exact h.checkIfDue hu e1
  | rest level yieldOnReturn status halted kernel =>
    cases e
    exact h.congr hk' rfl rfl

/-- A call of `CheckIfDue` that answers FALSE leaves the queue as it was exactly when the first
    two interrupts are not due at the same time. In a run where every call that finds such a
    pair first finds their time has come, interrupts with the same time are called in the order
    they were scheduled. -/
theorem ties_in_order (dev : Devices S W) :
    (∀ k, Lib.Reach (call dev) (fun _ _ => True) Booted k → ∀ advanceClock k',
      k.checkIfDue dev advanceClock = .ok (false, k') →
        (k'.pending = k.pending ↔ ∀ a b rest, k.pending = a :: b :: rest → a.key ≠ b.key)) ∧
    ∀ k, Lib.Reach (call dev) (untied · ·) Booted k →
      (k.invoked.map (·.1)).Pairwise (fun a b => a.when = b.when → a.id < b.id) := by
  refine ⟨?_, ?_⟩
  · intro k h advanceClock k' e
    exact checkIfDue_pending (reach_kept h) e
  · intro k h
    refine (h.inv (P := Fair) ?_ ?_).fifo
    · intro s hs
      have hk := booted_kept hs
      obtain ⟨w, rfl⟩ := hs
      refine ⟨hk, List.Pairwise.nil, List.Pairwise.nil, ?_⟩
      intro x hx
      cases hx
    · intro s c s' hs huntied e
      exact hs.call huntied e

/-- No device does anything. -/
def quiet : Devices Nat Unit := ⟨fun _ => [], fun _ w => some w⟩

/-- Two interrupts with the same time, which comes before `CheckIfDue` finds them first. -/
theorem ties_in_order_behind_another : ∃ k, Lib.Reach (call quiet) (untied · ·) Booted k ∧
    k.invoked.map (fun x => (x.1.id, x.1.when)) = [(2, 15), (0, 20), (1, 20)] ∧
    (k.invoked.map (·.1)).Pairwise (fun a b => a.when = b.when → a.id < b.id) := by
  obtain ⟨k, hk, ht⟩ : ∃ k, Reach (call quiet) (untied · ·) Booted k ∧ _ := exists_reach (call quiet) untied
    [.schedule 0 0 20 .diskInt, .schedule 0 0 20 .consoleReadInt, .schedule 0 0 15 .networkRecvInt, .tick,
      .checkIfDue false, .tick, .checkIfDue false, .checkIfDue false, .checkIfDue false, .checkIfDue false]
    (fun k => k.invoked.map (fun x => (x.1.id, x.1.when)) == [(2, 15), (0, 20), (1, 20)]) ⟨(), rfl⟩ (by decide +kernel)
  exact ⟨k, hk, beq_iff_eq.mp ht, (ties_in_order quiet).2 k hk⟩

/-- Two interrupts are scheduled for time 20. The tick to 10 finds them not to be due: the
    first goes behind the second, and the tick to 20 calls them in that order. -/
theorem tie_reversed : ∃ k k', Lib.Reach (step quiet) (fun _ _ => True) Booted k ∧
    k.pending.map (·.item.id) = [1, 0] ∧ k.invoked = [] ∧ k.step quiet .oneTick = .ok k' ∧
    k'.invoked.map (fun x => (x.1.id, x.1.when)) = [(1, 20), (0, 20)] := by
  obtain ⟨k, hk, ht⟩ : ∃ k, Reach (step quiet) (fun _ _ => true) Booted k ∧ _ :=
    exists_reach (step quiet) (fun _ _ => true)
      [.schedule 0 0 20 .diskInt, .schedule 0 0 20 .consoleReadInt, .setLevel .intOn]
      (fun k => k.pending.map (·.item.id) == [1, 0] && k.invoked == [] && (k.step quiet .oneTick).toOption.any fun k' =>
        k'.invoked.map (fun x => (x.1.id, x.1.when)) == [(1, 20), (0, 20)]) ⟨(), rfl⟩ (by decide +kernel)
  simp only [Bool.and_eq_true, beq_iff_eq] at ht
  obtain ⟨k', e, ht'⟩ := exists_ok _ ht.2
  exact ⟨k, k', hk.mono (fun _ _ _ => trivial), ht.1.1, ht.1.2, e, beq_iff_eq.mp ht'⟩

end Nachos.Interrupts

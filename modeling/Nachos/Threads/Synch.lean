/-
  Nachos.Threads.Synch — `Semaphore::P` and `Semaphore::V` of `threads/synch.cc`.

  Interrupts are off inside both, so each is atomic up to `Sleep`. A thread that finds the
  value 0 joins the queue and sleeps; `V` wakes the first sleeper and adds one to the
  value, and the sleeper tests the value again when it next runs: another thread may
  have taken it. `p` is one test, so `P` is `p` repeated until it passes.

  `IntSemaphore` has the `int value` of the source: any 32-bit initial value, negative
  ones included, and an increment that wraps. `Semaphore` is the semaphore as its users in
  the kernel know it, a natural number of permits; `p_matches` and `v_matches` say that the
  two are the same as long as no `V` is made at the largest `int`.
-/

import Nachos.Threads.Scheduler

namespace Nachos

structure Semaphore where
  value : Nat
  queue : List Tid
  deriving DecidableEq, Repr

namespace Semaphore

/-- `new Semaphore(name, initialValue)`. -/
def new (initialValue : Nat) : Semaphore := ⟨initialValue, []⟩

/-- One turn of the loop of `P` by thread `t`: whether it passes, or has gone to sleep. -/
def p (s : Semaphore) (t : Tid) : Semaphore × Bool :=
  if s.value = 0 then ({ s with queue := s.queue ++ [t] }, false) else ({ s with value := s.value - 1 }, true)

/-- `V`: the semaphore after it, and the thread it wakes. -/
def v (s : Semaphore) : Semaphore × Option Tid := (⟨s.value + 1, s.queue.tail⟩, s.queue.head?)

end Semaphore

/-! ## With an `int` value -/

structure IntSemaphore where
  value : Word
  queue : List Tid
  deriving DecidableEq, Repr

/-- The largest `int`. -/
def intMax : Word := 0x7fffffff

namespace IntSemaphore

/-- `new Semaphore(name, initialValue)`. -/
def new (initialValue : Word) : IntSemaphore := ⟨initialValue, []⟩

/-- One turn of the loop of `P` by thread `t`: whether it passes, or has gone to sleep. -/
def p (s : IntSemaphore) (t : Tid) : IntSemaphore × Bool :=
  if s.value = 0 then ({ s with queue := s.queue ++ [t] }, false) else ({ s with value := s.value - 1 }, true)

/-- `V`: the semaphore after it, and the thread it wakes. -/
def v (s : IntSemaphore) : IntSemaphore × Option Tid := (⟨s.value + 1, s.queue.tail⟩, s.queue.head?)

/-- The `int` semaphore holds the permits and the sleepers of the other one. -/
structure Matches (s : IntSemaphore) (a : Semaphore) : Prop where
  value : s.value.toInt = a.value
  queue : s.queue = a.queue

variable {w : Word} {s : IntSemaphore} {a : Semaphore}

theorem toInt_sub_one (h : 0 < w.toInt) : (w - 1).toInt = w.toInt - 1 := by
  rw [BitVec.toInt_sub, show (1 : Word).toInt = 1 from rfl]
  have := w.toInt_lt
  exact Int.bmod_eq_of_le (by omega) (by omega)

theorem toInt_add_one (h : w ≠ intMax) : (w + 1).toInt = w.toInt + 1 := by
  have hne : w.toInt ≠ intMax.toInt := fun e => h (BitVec.eq_of_toInt_eq e)
  have hm : intMax.toInt = 2147483647 := rfl
  have := w.toInt_lt
  have := w.le_toInt
  rw [BitVec.toInt_add, show (1 : Word).toInt = 1 from rfl]
  exact Int.bmod_eq_of_le (by omega) (by omega)

theorem value_eq_zero : w = 0 ↔ w.toInt = 0 := by
  refine ⟨fun e => by rw [e]; rfl, fun e => BitVec.eq_of_toInt_eq e⟩

theorem p_matches (h : s.Matches a) (t : Tid) : (s.p t).1.Matches (a.p t).1 ∧ (s.p t).2 = (a.p t).2 := by
  have hv := h.value
  by_cases h0 : s.value = 0
  · have ha : a.value = 0 := by have := value_eq_zero.mp h0; omega
    simp only [p, Semaphore.p, h0, ha, if_true, and_true]
    exact ⟨by simp, by simp [h.queue]⟩
  · have ha : a.value ≠ 0 := by have := mt value_eq_zero.mpr h0; omega
    simp only [p, Semaphore.p, h0, ha, if_false, and_true]
    refine ⟨?_, h.queue⟩
    show (s.value - 1).toInt = ((a.value - 1 : Nat) : Int)
    rw [toInt_sub_one (by omega)]
    omega

theorem v_matches (h : s.Matches a) (hm : s.value ≠ intMax) : s.v.1.Matches a.v.1 ∧ s.v.2 = a.v.2 := by
  refine ⟨⟨?_, by simp [v, Semaphore.v, h.queue]⟩, by simp [v, Semaphore.v, h.queue]⟩
  have := h.value
  show (s.value + 1).toInt = ((a.value + 1 : Nat) : Int)
  rw [toInt_add_one hm]
  omega

end IntSemaphore

end Nachos

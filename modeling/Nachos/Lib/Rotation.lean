/-
  Nachos.Lib.Rotation — a medium that rotates under a head.

  The medium has `n` places and each takes `r` ticks to go by: place 0 comes at time 0, and
  the places follow one another for ever. A place has been read at some moment when it was
  under the head for the `r` ticks before it (`Passed`). From any moment on, the first such
  time is found by waiting for the next boundary between places and counting from there
  (`isLeast_passed`).
-/

import Mathlib.Order.Bounds.Defs

namespace Nachos.Lib

variable {r n : Int} {k time s : Int}

/-- The place under the head. -/
def placeAt (r n time : Int) : Int := time / r % n

/-- Place `s` has just gone by, from its beginning to its end. -/
def Passed (r n s time : Int) : Prop := ∀ t, time - r ≤ t → t < time → placeAt r n t = s % n

/-- The first boundary between places that is not before `time`. -/
def boundary (r time : Int) : Int := (time + (r - 1)) / r * r

theorem ediv_eq_of_between {t : Int} (hr : 0 < r) (hlo : k * r ≤ t) (hhi : t < (k + 1) * r) : t / r = k :=
  Int.le_antisymm (Int.lt_add_one_iff.mp (Int.ediv_lt_of_lt_mul hr hhi)) (Int.le_ediv_of_mul_le hr hlo)

theorem boundary_le_iff (hr : 0 < r) : boundary r time ≤ k * r ↔ time ≤ k * r := by
  unfold boundary
  rw [Int.mul_le_mul_iff_of_pos_right hr, ← Int.lt_add_one_iff, Int.ediv_lt_iff_lt_mul hr, Int.add_mul]
  omega

theorem le_boundary (hr : 0 < r) (time : Int) : time ≤ boundary r time :=
  (boundary_le_iff hr).mp (Int.le_refl _)

theorem boundary_ediv (hr : 0 < r) (time : Int) : boundary r time / r * r = boundary r time := by
  unfold boundary
  rw [Int.mul_ediv_cancel _ (Int.ne_of_gt hr)]

/-- A place goes by between two boundaries: a time in between belongs to two places. -/
theorem passed_iff (hr : 0 < r) (hn : 1 < n) : Passed r n s time ↔ ∃ k, time = (k + 1) * r ∧ k % n = s % n := by
  constructor
  · intro h
    have hd := Int.ediv_mul_add_emod time r
    have hlo := Int.emod_nonneg time (Int.ne_of_gt hr)
    have hhi := Int.emod_lt_of_pos time hr
    have hz : time % r = 0 := by
      -- otherwise the boundary `time / r * r` lies inside, with another place on each side of it
      refine Classical.byContradiction fun hne => ?_
      have hat := h (time / r * r) (by omega) (by omega)
      have hb := h (time / r * r - 1) (by omega) (by omega)
      have h1 : (time / r * r - 1) / r = time / r - 1 :=
        ediv_eq_of_between hr (by rw [Int.sub_mul]; omega) (by rw [Int.sub_add_cancel]; omega)
      rw [placeAt, Int.mul_ediv_cancel _ (Int.ne_of_gt hr)] at hat
      rw [placeAt, h1, ← hat, Int.emod_eq_emod_iff_emod_sub_eq_zero] at hb
      have ho : n ∣ 1 := by
        have : n ∣ -1 := by
          refine Int.dvd_of_emod_eq_zero ?_
          rw [← hb]
          congr 1
          omega
        exact Int.dvd_neg.mp this
      have := Int.le_of_dvd Int.one_pos ho
      omega
    refine ⟨time / r - 1, by rw [Int.sub_add_cancel]; omega, ?_⟩
    have hs := h (time - r) (Int.le_refl _) (by omega)
    have hq : (time - r) / r = time / r - 1 :=
      ediv_eq_of_between hr (by rw [Int.sub_mul]; omega) (by rw [Int.sub_add_cancel]; omega)
    rwa [placeAt, hq] at hs
  · rintro ⟨k, rfl, hk⟩ t hlo hhi
    have : t / r = k := ediv_eq_of_between hr (by rw [Int.add_mul] at hlo; omega) hhi
    rw [placeAt, this, hk]

/-- From place `k` on, place `s` comes `(s - k) % n` places later. -/
theorem add_sub_emod (s k : Int) : (k + (s - k) % n) % n = s % n := by
  rw [Int.add_emod_emod, Int.add_comm, Int.sub_add_cancel]

theorem sub_emod_le (hn : 0 < n) {j : Int} (hkj : k ≤ j) (hj : j % n = s % n) : (s - k) % n ≤ j - k := by
  have hm : (s - k) % n = (j - k) % n := by rw [Int.sub_emod, ← hj, ← Int.sub_emod]
  have hd : 0 ≤ (j - k) / n * n :=
    Int.mul_nonneg (Int.ediv_nonneg (by omega) (Int.le_of_lt hn)) (Int.le_of_lt hn)
  have := Int.ediv_mul_add_emod (j - k) n
  omega

/-- From `time` on, place `s` goes by for the first time: the head waits for a boundary and
    then for the place. -/
theorem isLeast_passed (hr : 0 < r) (hn : 1 < n) (s time : Int) :
    IsLeast {t | time + r ≤ t ∧ Passed r n s t} (boundary r time + ((s - boundary r time / r) % n + 1) * r) := by
  have hb := boundary_ediv hr time
  generalize hk : boundary r time / r = k at hb
  have he : boundary r time + ((s - k) % n + 1) * r = (k + (s - k) % n + 1) * r := by
    rw [← hb, ← Int.add_mul, Int.add_assoc]
  rw [he]
  constructor
  · refine ⟨?_, (passed_iff hr hn).mpr ⟨_, rfl, add_sub_emod s k⟩⟩
    have hlo := le_boundary hr time
    have hm : 0 ≤ (s - k) % n * r :=
      Int.mul_nonneg (Int.emod_nonneg _ (by omega)) (Int.le_of_lt hr)
    rw [Int.add_mul, Int.add_mul, hb]
    omega
  · rintro t ⟨ha, hp⟩
    obtain ⟨j, rfl, hj⟩ := (passed_iff hr hn).mp hp
    have hs : boundary r time ≤ j * r := (boundary_le_iff hr).mpr (by rw [Int.add_mul] at ha; omega)
    have hkj : k ≤ j := (Int.mul_le_mul_iff_of_pos_right hr).mp (by rw [hb]; exact hs)
    have := sub_emod_le (by omega) hkj hj
    exact Int.mul_le_mul_of_nonneg_right (by omega) (Int.le_of_lt hr)

end Nachos.Lib

/-
  Nachos.Lib.Ranges — ranges of addresses, which wrap around.

  A range is a first address and a size, both of `w` bits; it has as many addresses as its size
  says (`card_addresses`). Ranges that are apart have together the sum of their sizes, so
  - one that covers them all has at least that size (`total_le`), and
  - if it has exactly that size, it covers nothing else (`covered_of_total`).
-/

import Mathlib.Algebra.GroupWithZero.Nat
import Mathlib.Data.Finset.Card
import Mathlib.Data.Finset.Range

namespace Nachos.Lib

open BitVec

structure Range (w : Nat) where
  base : BitVec w
  size : BitVec w
  deriving DecidableEq, Repr

namespace Range

variable {w : Nat}

def Covers (r : Range w) (a : BitVec w) : Prop := (a - r.base).toNat < r.size.toNat

instance (r : Range w) (a : BitVec w) : Decidable (r.Covers a) := inferInstanceAs (Decidable (_ < _))

/-- The address `k` places after the first. -/
def address (r : Range w) (k : Nat) : BitVec w := r.base + BitVec.ofNat w k

theorem address_sub (r : Range w) (k : Nat) (base : BitVec w) :
    (r.address k - base).toNat = ((r.base - base).toNat + k) % 2 ^ w := by
  have hc : r.address k - base = r.base - base + BitVec.ofNat w k := by
    rw [address, BitVec.sub_eq_add_neg, BitVec.sub_eq_add_neg, BitVec.add_assoc, BitVec.add_comm (BitVec.ofNat w k),
      BitVec.add_assoc]
  rw [hc, toNat_add, toNat_ofNat, Nat.add_mod_mod]

theorem address_offset (r : Range w) {k : Nat} (hk : k < r.size.toNat) : (r.address k - r.base).toNat = k := by
  rw [address_sub, BitVec.sub_self, toNat_zero, Nat.zero_add]
  exact Nat.mod_eq_of_lt (Nat.lt_trans hk r.size.isLt)

theorem covers_address (r : Range w) {k : Nat} (hk : k < r.size.toNat) : r.Covers (r.address k) := by
  rw [Covers, r.address_offset hk]
  exact hk

variable {r : Range w}

theorem address_of_covers (a : BitVec w) : r.address (a - r.base).toNat = a := by
  rw [address, BitVec.ofNat_toNat, setWidth_eq, BitVec.add_comm, BitVec.sub_add_cancel]

theorem not_covers_of_size (h : r.size = 0) (a : BitVec w) : ¬ r.Covers a := by
  rw [Covers, h]
  exact Nat.not_lt_zero _

theorem exists_covers (h : r.size ≠ 0) : r.Covers r.base := by
  have hp : r.size.toNat ≠ 0 := fun e => h (eq_of_toNat_eq e)
  rw [Covers, BitVec.sub_self]
  exact Nat.pos_of_ne_zero hp

/-- One range is in another if it ends in it. -/
theorem subset_iff {s : Range w} (h : r.size ≠ 0) :
    (∀ a, r.Covers a → s.Covers a) ↔ (r.base - s.base).toNat + r.size.toNat ≤ s.size.toNat := by
  refine ⟨fun hsub => ?_, fun hle a ha => ?_⟩
  · have hf : (r.base - s.base).toNat < s.size.toNat := hsub _ (exists_covers h)
    by_contra hlong
    -- otherwise `r` goes on at the first address after `s`
    have hin := hsub _ (r.covers_address (k := s.size.toNat - (r.base - s.base).toNat) (by omega))
    rw [Covers, address_sub, Nat.add_sub_cancel' (Nat.le_of_lt hf), Nat.mod_eq_of_lt s.size.isLt] at hin
    exact Nat.lt_irrefl _ hin
  · have hk : (a - r.base).toNat < r.size.toNat := ha
    rw [Covers, ← address_of_covers (r := r) a, address_sub]
    exact Nat.lt_of_le_of_lt (Nat.mod_le ..) (by omega)

/-! ## Numbers of addresses -/

def addresses (r : Range w) : Finset (BitVec w) := (Finset.range r.size.toNat).image r.address

variable {a : BitVec w}

theorem mem_addresses : a ∈ r.addresses ↔ r.Covers a := by
  rw [addresses, Finset.mem_image]
  refine ⟨?_, fun ha => ⟨_, Finset.mem_range.mpr ha, address_of_covers a⟩⟩
  rintro ⟨k, hk, rfl⟩
  exact r.covers_address (Finset.mem_range.mp hk)

theorem card_addresses (r : Range w) : r.addresses.card = r.size.toNat := by
  rw [addresses, Finset.card_image_of_injOn, Finset.card_range]
  intro i hi j hj hij
  rw [← r.address_offset (Finset.mem_range.mp hi), ← r.address_offset (Finset.mem_range.mp hj)]
  exact congrArg (fun a => (a - r.base).toNat) hij

/-- No address is in two of the ranges. -/
def Apart (rs : List (Range w)) : Prop := rs.Pairwise fun r s => ∀ a, r.Covers a → ¬ s.Covers a

/-- The sum of the sizes. -/
def total : List (Range w) → Nat
  | [] => 0
  | r :: rs => r.size.toNat + total rs

def union : List (Range w) → Finset (BitVec w)
  | [] => ∅
  | r :: rs => r.addresses ∪ union rs

variable {rs : List (Range w)}

theorem mem_union : a ∈ union rs ↔ ∃ r ∈ rs, r.Covers a := by
  induction rs with
  | nil => simp [union]
  | cons r rs ih => rw [union, Finset.mem_union, mem_addresses, ih, List.exists_mem_cons_iff]

theorem card_union (h : Apart rs) : (union rs).card = total rs := by
  induction rs with
  | nil => rfl
  | cons r rs ih =>
    obtain ⟨hr, hrs⟩ := List.pairwise_cons.mp h
    have hd : Disjoint r.addresses (union rs) := by
      rw [Finset.disjoint_left]
      intro a ha hm
      obtain ⟨s, hs, hc⟩ := mem_union.mp hm
      exact hr s hs a (mem_addresses.mp ha) hc
    rw [union, Finset.card_union_of_disjoint hd, card_addresses, ih hrs]
    rfl

theorem union_subset {whole : Range w} (hsub : ∀ r ∈ rs, ∀ a, r.Covers a → whole.Covers a) :
    union rs ⊆ whole.addresses := by
  intro a ha
  obtain ⟨r, hr, hc⟩ := mem_union.mp ha
  exact mem_addresses.mpr (hsub r hr a hc)

section

variable {rs : List (Range w)} (hapart : Apart rs)
include hapart

/-- There are only so many addresses. -/
theorem total_le_pow : total rs ≤ 2 ^ w := by
  rw [← card_union hapart, ← Finset.card_range (2 ^ w)]
  exact Finset.card_le_card_of_injOn BitVec.toNat (fun a _ => Finset.mem_coe.mpr (Finset.mem_range.mpr a.isLt))
    (fun a _ b _ => eq_of_toNat_eq)

variable {whole : Range w} (hsub : ∀ r ∈ rs, ∀ a, r.Covers a → whole.Covers a)
include hsub

theorem total_le : total rs ≤ whole.size.toNat := by
  rw [← card_union hapart, ← card_addresses]
  exact Finset.card_le_card (union_subset hsub)

theorem covered_of_total (hs : whole.size.toNat ≤ total rs) (ha : whole.Covers a) : ∃ r ∈ rs, r.Covers a := by
  have heq : union rs = whole.addresses := by
    apply Finset.eq_of_subset_of_card_le (union_subset hsub)
    rw [card_union hapart, card_addresses]
    exact hs
  rw [← mem_union, heq]
  exact mem_addresses.mpr ha

end

end Range

end Nachos.Lib

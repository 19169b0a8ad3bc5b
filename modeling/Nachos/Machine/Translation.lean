/-
  Nachos.Machine.Translation — `Machine::Translate` on any table.

  The entries may hold anything: a frame that is negative or far too large, any flags. All
  that is assumed is that there is one table, a page table with `pageTableSize` entries or a
  TLB with TLBSize (`Tables`).
-/

import Nachos.Machine.Frames

namespace Nachos

open List

/-- The machine has a page table or a TLB, with these entries. -/
inductive Tables (m : Machine) (t : List TranslationEntry) : Prop
  | pageTable (tlb : m.tlb = none) (table : m.pageTable = some t) (size : t.length = m.pageTableSize) : Tables m t
  | tlb (tlb : m.tlb = some t) (table : m.pageTable = none) (size : t.length = tlbSize) : Tables m t

/-- Entry `i` is valid, and is for virtual page `vpn`: a page table is indexed by the page, and
    a TLB's entry names it. -/
structure Maps (m : Machine) (t : List TranslationEntry) (vpn i : Nat) (e : TranslationEntry) : Prop where
  entry : t[i]? = some e
  valid : e.valid = true
  index : m.tlb = none → i = vpn
  page : m.tlb ≠ none → BitVec.ofInt 32 e.virtualPage = BitVec.ofNat 32 vpn

/-- The machine when `Translate` returns: it writes to an entry after its last check only. -/
def Translated.after (m : Machine) : Translated → Machine
  | .ok _ m' => m'
  | .exception _ | .stop _ => m

variable {e : TranslationEntry} {size : Nat}

section

variable {m : Machine} {t : List TranslationEntry}

/-- The lookup finds the page's entry or fails. -/
theorem lookup_cases (h : Tables m t) (vpn : Nat) :
    (∃ which, which ≠ .noException ∧ m.lookup vpn = .fails which) ∨ ∃ i e, m.lookup vpn = .found i e ∧ Maps m t vpn i e := by
  cases h with
  | pageTable htl ht hs =>
    simp only [Machine.lookup, htl, ht]
    by_cases hvp : m.pageTableSize ≤ vpn
    · exact .inl ⟨.addressErrorException, by decide, if_pos hvp⟩
    have hg : t[vpn]? = some (t.get ⟨vpn, by omega⟩) := getElem?_eq_getElem (by omega)
    rw [if_neg hvp, hg]
    by_cases hv : (t.get ⟨vpn, by omega⟩).valid = true
    · exact .inr ⟨vpn, _, if_pos hv, hg, hv, fun _ => rfl, fun hne => absurd htl hne⟩
    · exact .inl ⟨.pageFaultException, by decide, if_neg hv⟩
  | tlb htl ht hs =>
    simp only [Machine.lookup, htl, ht]
    split
    · exact .inl ⟨.pageFaultException, by decide, rfl⟩
    rename_i i hf
    have hm := find?_some hf
    cases hg : t[i]? with
    | none => rw [hg] at hm; cases hm
    | some e =>
      rw [hg, Option.any_some, Bool.and_eq_true, beq_iff_eq] at hm
      refine .inr ⟨i, e, rfl, hg, hm.1, fun hn => ?_, fun _ => hm.2⟩
      rw [htl] at hn
      cases hn

/-- Marking an entry changes that entry alone. -/
theorem Tables.touch (h : Tables m t) {i : Nat} (he : t[i]? = some e) (writing : Bool) :
    Tables (m.touch i writing) (t.set i { e with use := true, dirty := e.dirty || writing }) := by
  have hst : t.modify i (fun e => { e with use := true, dirty := e.dirty || writing }) =
      t.set i { e with use := true, dirty := e.dirty || writing } := by
    refine ext_getElem? fun j => ?_
    rw [getElem?_modify, Option.map_eq_map]
    by_cases hj : i = j
    · subst hj
      rw [he, getElem?_set_self (List.getElem?_eq_some_iff.mp he).1, Option.map_some, if_pos rfl]
    · rw [getElem?_set_ne hj]
      simp only [if_neg hj, Option.map_id']
  cases h with
  | pageTable htl ht hs =>
    refine .pageTable (by rw [Machine.touch, htl]; rfl) ?_ (by rw [length_set]; exact hs)
    rw [Machine.touch, ht, Option.map_some, hst]
  | tlb htl ht hs =>
    refine .tlb ?_ (by rw [Machine.touch, ht]; rfl) (by rw [length_set]; exact hs)
    rw [Machine.touch, htl, Option.map_some, hst]

/-- An aligned access of a size a page is a multiple of stays in its page. -/
theorem offset_add_size {va : Word} (hs : size = 1 ∨ size = 2 ∨ size = 4)
    (ha : ¬ ((size = 4 ∧ va &&& 3 ≠ 0) ∨ (size = 2 ∧ va &&& 1 ≠ 0))) : va.toNat % pageSize + size ≤ pageSize := by
  simp only [not_or, not_and, Decidable.not_not] at ha
  unfold pageSize
  rcases hs with rfl | rfl | rfl
  · omega
  · have := (and_one va).mp (ha.2 rfl)
    omega
  · have := (and_three va).mp (ha.1 rfl)
    omega

/-- A frame below NumPhysPages is the entry's `physicalPage`, if that is an `int`. -/
theorem physicalPage_eq (hin : -2147483648 ≤ e.physicalPage ∧ e.physicalPage < 2147483648)
    (hf : e.frame < numPhysPages) : e.physicalPage = e.frame := by
  have hto : (e.frame : Int) = e.physicalPage % 4294967296 := by
    rw [TranslationEntry.frame, BitVec.toNat_ofInt]
    exact Int.toNat_of_nonneg (Int.emod_nonneg _ (by decide))
  unfold numPhysPages at hf
  omega

/-- `Translate` fails, or every check has passed and it marks the page's entry. -/
theorem translate_cases (h : Tables m t) (va : Word) (hs : size = 1 ∨ size = 2 ∨ size = 4) (writing : Bool) :
    (∃ which, which ≠ .noException ∧ m.translate va size writing = .exception which) ∨
    ∃ i e, Maps m t (va.toNat / pageSize) i e ∧ (e.readOnly && writing) = false ∧ e.frame < numPhysPages ∧
      va.toNat % pageSize + size ≤ pageSize ∧
      m.translate va size writing = .ok (e.frame * pageSize + va.toNat % pageSize) (m.touch i writing) := by
  by_cases ha : (size = 4 ∧ va &&& 3 ≠ 0) ∨ (size = 2 ∧ va &&& 1 ≠ 0)
  · exact .inl ⟨.addressErrorException, by decide, if_pos ha⟩
  have hft := offset_add_size hs ha
  rw [Machine.translate, if_neg ha]
  rcases lookup_cases h (va.toNat / pageSize) with ⟨which, hne, hl⟩ | ⟨i, e, hl, hm⟩
  · exact .inl ⟨which, hne, by rw [hl]⟩
  rw [hl]
  cases hro : e.readOnly && writing with
  | true => exact .inl ⟨.readOnlyException, by decide, if_pos hro⟩
  | false =>
    simp only [hro, Bool.false_eq_true, if_false]
    by_cases hf : e.frame ≥ numPhysPages
    · exact .inl ⟨.busErrorException, by decide, if_pos hf⟩
    -- the last ASSERT follows from the checks before it
    have hmm : e.frame * pageSize + va.toNat % pageSize + size ≤ memorySize := by
      unfold memorySize numPhysPages pageSize at *
      omega
    exact .inr ⟨i, e, hm, hro, Nat.lt_of_not_le hf, hft, by rw [if_neg hf, if_pos hmm]⟩

/-- For any table, any address, and an access of 1, 2 or 4 bytes: `Translate` fails and leaves
    the table as it was, or it finds the page's entry, which is valid and allows the access. Then
    the access goes to the entry's frame, which is in main memory, at the address's offset in its
    page; all its bytes are in that frame; and of all entries this one alone is marked, as used,
    and as dirty if the access is a write. No ASSERT fails. -/
theorem translate_safe (h : Tables m t) (va : Word) {size : Nat} (hsize : size = 1 ∨ size = 2 ∨ size = 4) (writing : Bool) :
    (∃ which, which ≠ .noException ∧ m.translate va size writing = .exception which ∧
      Tables ((m.translate va size writing).after m) t) ∨
    ∃ i e physAddr, Maps m t (va.toNat / pageSize) i e ∧ (writing = true → e.readOnly = false) ∧
      (-2147483648 ≤ e.physicalPage ∧ e.physicalPage < 2147483648 → e.physicalPage = e.frame) ∧
      physAddr = e.frame * pageSize + va.toNat % pageSize ∧
      (∀ k < size, (physAddr + k) / pageSize = e.frame) ∧ physAddr + size ≤ memorySize ∧
      m.translate va size writing = .ok physAddr ((m.translate va size writing).after m) ∧
      Tables ((m.translate va size writing).after m) (t.set i { e with use := true, dirty := e.dirty || writing }) := by
  rcases translate_cases h va hsize writing with ⟨which, hne, hfail⟩ | ⟨i, e, hmaps, hro, hframe, hfit, hok⟩
  · exact .inl ⟨which, hne, hfail, by rw [hfail]; exact h⟩
  · refine .inr ⟨i, e, _, hmaps, fun hw => ?_, fun hint => physicalPage_eq hint hframe, rfl, fun k hk => ?_, ?_,
      by rw [hok]; rfl, by rw [hok]; exact h.touch hmaps.entry writing⟩
    · rwa [hw, Bool.and_true] at hro
    · rw [Nat.add_assoc, Nat.mul_comm, Nat.mul_add_div (by decide), Nat.div_eq_of_lt (by omega), Nat.add_zero]
    · unfold memorySize numPhysPages pageSize at *
      omega

/-- A TLB with a negative frame, one that is too large, and one that is in order. -/
def corruptTlb : List TranslationEntry :=
  [⟨0, -1, true, false, false, false⟩, ⟨1, 100000, true, true, false, false⟩, ⟨7, 5, true, false, false, false⟩,
    ⟨7, 6, false, true, true, true⟩]

def corruptMachine : Machine := ⟨fun _ => 0, fun _ => 0, some corruptTlb, none, 0⟩

/-- A write through the entry that is in order, at the end of the page. -/
theorem translate_safe_corrupt : Tables corruptMachine corruptTlb ∧
    ∃ i e physAddr, Maps corruptMachine corruptTlb 7 i e ∧ physAddr = e.frame * pageSize + 508 ∧ physAddr + 4 ≤ memorySize ∧
      Tables ((corruptMachine.translate 4092 4 true).after corruptMachine)
        (corruptTlb.set i { e with use := true, dirty := e.dirty || true }) := by
  have htables : Tables corruptMachine corruptTlb := .tlb rfl rfl rfl
  refine ⟨htables, ?_⟩
  rcases translate_safe htables 4092 (.inr (.inr rfl)) true with ⟨which, -, hfail, -⟩ | ⟨i, e, pa, hmaps, -, -, hpa, -, hmem, -, htouch⟩
  · have hlookup : corruptMachine.lookup ((4092 : Word).toNat / pageSize) = .found 2 ⟨7, 5, true, false, false, false⟩ := rfl
    have hframe : ¬ TranslationEntry.frame ⟨7, 5, true, false, false, false⟩ ≥ numPhysPages := by decide
    rw [Machine.translate, if_neg (by decide), hlookup] at hfail
    simp only [Bool.false_and, Bool.false_eq_true, if_false, if_neg hframe] at hfail
    split at hfail <;> cases hfail
  · exact ⟨i, e, pa, hmaps, hpa, hmem, htouch⟩

end

end Nachos

/-
  Nachos.Machine.Traps — how an instruction can end.

  It completes, it traps, or it stops the simulator.
  - `oneInstruction_runs_iff`: it stops the simulator in two cases, both up to the program.
    LWL, LWR, SWL and SWR fail an ASSERT on an address that is not aligned, and DIV of the least
    `int` by -1 has a quotient that is no `int`.
-/

import Nachos.Machine.Fields
import Nachos.Machine.Translation

namespace Nachos

variable {bigEndian : Bool}

/-! ## Traps -/

/-- `m` is `m₀` as a trap leaves it: the pending load has landed and BadVAddrReg is set. -/
structure TrapOf (m₀ m : Machine) : Prop where
  memory : m.mainMemory = m₀.mainMemory
  registers : ∃ badVAddr, m.registers = landed (Function.update m₀.registers badVAddrReg badVAddr)

theorem TrapOf.raise {m₀ m : Machine} (hmem : m.mainMemory = m₀.mainMemory) (hregs : m.registers = m₀.registers)
    (badVAddr : Word) : TrapOf m₀ (m.raiseException badVAddr) :=
  ⟨hmem, badVAddr, by rw [Machine.raiseException, hregs]⟩

/-- If the operation traps, it traps as from `m₀`; if it completes, memory and registers are as
    in `m₀`. -/
def Outcome.Quiet {α : Type} (m₀ : Machine) : Outcome α → Prop
  | .done _ m => m.mainMemory = m₀.mainMemory ∧ m.registers = m₀.registers
  | .raised _ m => TrapOf m₀ m
  | .stop _ => True

/-- If the operation traps, it traps as from `m₀`. -/
def Outcome.TrapsFrom {α : Type} (m₀ : Machine) : Outcome α → Prop
  | .raised _ m => TrapOf m₀ m
  | .done _ _ | .stop _ => True

section

variable {m₀ m : Machine} {α β : Type}

theorem Outcome.Quiet.bind {x : Outcome α} (h : x.Quiet m₀) {f : α → Machine → Outcome β}
    (hf : ∀ a m, m.mainMemory = m₀.mainMemory → m.registers = m₀.registers → (f a m).TrapsFrom m₀) : (x.bind f).TrapsFrom m₀ := by
  cases x with
  | done a m => exact hf a m h.1 h.2
  | raised which m => exact h
  | stop why => trivial

theorem Outcome.TrapsFrom.bind {x : Outcome α} (h : x.TrapsFrom m₀) {f : α → Machine → Outcome β}
    (hf : ∀ a m, (f a m).TrapsFrom m₀) : (x.bind f).TrapsFrom m₀ := by
  cases x with
  | done a m => exact hf a m
  | raised which m => exact h
  | stop why => trivial

variable (hmem : m.mainMemory = m₀.mainMemory) (hregs : m.registers = m₀.registers)
include hmem hregs

theorem readMem_traps (addr : Word) (size : Nat) : (m.readMem bigEndian addr size).Quiet m₀ := by
  unfold Machine.readMem
  cases ht : m.translate addr size false with
  | exception which => exact .raise hmem hregs addr
  | stop why => trivial
  | ok pa m' =>
    obtain ⟨i, rfl⟩ := translate_touch ht
    dsimp only
    cases readPhys bigEndian (m.touch i false).mainMemory pa size with
    | none => trivial
    | some v => exact ⟨hmem, hregs⟩

/-- A write that traps has written nothing. -/
theorem writeMem_traps (addr : Word) (size : Nat) (value : Word) : (m.writeMem bigEndian addr size value).TrapsFrom m₀ := by
  unfold Machine.writeMem
  cases m.translate addr size true with
  | exception which => exact .raise hmem hregs addr
  | stop why => trivial
  | ok pa m' =>
    dsimp only
    cases writePhys bigEndian m'.mainMemory pa value size <;> trivial

theorem perform_traps (e : Effect) : (m.perform bigEndian e).TrapsFrom m₀ := by
  cases e with
  | regs writes pcAfter => trivial
  | load addr size rt f => exact (readMem_traps hmem hregs addr size).bind fun _ _ _ _ => trivial
  | store addr size value => exact (writeMem_traps hmem hregs addr size value).bind fun _ _ => trivial
  | merge addr f =>
    -- the second access may trap as well, and nothing has been written before it
    exact (readMem_traps hmem hregs addr 4).bind fun value m' hm' hr' =>
      (writeMem_traps hm' hr' addr 4 (f value)).bind fun _ _ => trivial
  | raise which badVAddr => exact .raise hmem hregs badVAddr
  | stop why => trivial

end

theorem oneInstruction_traps (m : Machine) : (m.oneInstruction bigEndian).TrapsFrom m :=
  (readMem_traps rfl rfl _ 4).bind fun _ _ hmem hregs => perform_traps hmem hregs _

/-- Whatever the machine's state, the instruction and the exception: when `ExceptionHandler` is
    entered main memory is unchanged, and the registers are as before the instruction, except that
    the pending load has landed and none is pending, register 0 is 0 and BadVAddrReg may have
    changed. In particular the program counters are the instruction's own, as no load's target is
    one of them. -/
theorem oneInstruction_precise {m m' : Machine} {which : ExceptionType} (h : m.oneInstruction bigEndian = .raised which m') :
    m'.mainMemory = m.mainMemory ∧
    (∃ badVAddr, ∀ x, m'.registers x =
      if x = 0 then 0 else if x = loadReg ∨ x = loadValueReg then 0
      else if x.val = (m.registers loadReg).toNat then m.registers loadValueReg
      else if x = badVAddrReg then badVAddr else m.registers x) ∧
    ((m.registers loadReg).toNat < numGPRegs →
      m'.registers pcReg = m.registers pcReg ∧ m'.registers nextPCReg = m.registers nextPCReg) := by
  have htrap : TrapOf m m' := by
    have htraps : (m.oneInstruction bigEndian).TrapsFrom m := oneInstruction_traps m
    rwa [h] at htraps
  obtain ⟨hmem, badVAddr, hregs⟩ := htrap
  have hvalue : ∀ x, m'.registers x =
      if x = 0 then 0 else if x = loadReg ∨ x = loadValueReg then 0
      else if x.val = (m.registers loadReg).toNat then m.registers loadValueReg
      else if x = badVAddrReg then badVAddr else m.registers x := by
    intro x
    have hload : Function.update m.registers badVAddrReg badVAddr loadReg = m.registers loadReg :=
      Function.update_of_ne (by decide) ..
    have hloadValue : Function.update m.registers badVAddrReg badVAddr loadValueReg = m.registers loadValueReg :=
      Function.update_of_ne (by decide) ..
    rw [hregs, landed, delayedLoad_apply, hload, hloadValue, Function.update_apply]
    by_cases h0 : x = 0
    · rw [if_pos h0, if_pos h0]
    · rw [if_neg h0, if_neg h0]
      by_cases h2 : x = loadValueReg
      · rw [if_pos h2, if_pos (.inr h2)]
      · rw [if_neg h2]
        by_cases h1 : x = loadReg
        · rw [if_pos h1, if_pos (.inl h1)]
        · rw [if_neg h1, if_neg (not_or.mpr ⟨h1, h2⟩)]
  refine ⟨hmem, ⟨badVAddr, hvalue⟩, fun hload => ?_⟩
  have hspecial : ∀ x : RegNum, numGPRegs ≤ x.val → x ≠ 0 → x ≠ loadReg → x ≠ loadValueReg → x ≠ badVAddrReg →
      m'.registers x = m.registers x := by
    intro x hx h0 h1 h2 h3
    have hne : x.val ≠ (m.registers loadReg).toNat := by omega
    rw [hvalue, if_neg h0, if_neg (not_or.mpr ⟨h1, h2⟩), if_neg hne, if_neg h3]
  exact ⟨hspecial pcReg (by decide) (by decide) (by decide) (by decide) (by decide),
    hspecial nextPCReg (by decide) (by decide) (by decide) (by decide) (by decide)⟩

/-- Registers at the start of a program, with a load of 7 into register 8 pending. -/
def loadPending : Regs := fun x => if x = loadReg then 8 else if x = loadValueReg then 7 else if x = nextPCReg then 4 else 0

/-- A store to a page that is not there, `sw $2, 0x4000($0)`, in the delay slot of a load. -/
theorem oneInstruction_precise_store : ∃ m m' : Machine, m.oneInstruction false = .raised .addressErrorException m' ∧
    m.registers = loadPending ∧ m'.mainMemory = m.mainMemory ∧ m'.registers 8 = 7 ∧
    m'.registers pcReg = m.registers pcReg ∧ m'.registers nextPCReg = m.registers nextPCReg := by
  have hraised : (Machine.holding 0xac024000 loadPending).oneInstruction false = .raised .addressErrorException
      (((Machine.holding 0xac024000 loadPending).touch 0 false).raiseException 0x4000) := by
    rw [oneInstruction_eq (holding_fetch 0xac024000 (show loadPending pcReg = 0 from rfl))]
    rfl
  obtain ⟨hmem, ⟨badVAddr, hregs⟩, hpc⟩ := oneInstruction_precise hraised
  exact ⟨_, _, hraised, rfl, hmem, (hregs 8).trans rfl, hpc (by decide)⟩

/-! ## Stops -/

/-- The instruction stops the simulator: LWL, LWR, SWL and SWR off a word boundary fail an
    ASSERT, and INT_MIN / -1 traps the host. -/
def Crashes (i : Instruction) (r : Regs) : Prop :=
  ((i.opCode = .lwl ∨ i.opCode = .lwr ∨ i.opCode = .swl ∨ i.opCode = .swr) ∧ (r (gp i.rs) + i.extra) &&& 3 ≠ 0) ∨
    (i.opCode = .div ∧ r (gp i.rs) = 0x80000000 ∧ r (gp i.rt) = 0xffffffff)

instance (i : Instruction) (r : Regs) : Decidable (Crashes i r) := inferInstanceAs (Decidable (_ ∨ _))

/-- The sizes of an effect's accesses are those memory knows. -/
def Effect.SizesOk : Effect → Prop
  | .load _ size _ _ | .store _ size _ => size = 1 ∨ size = 2 ∨ size = 4
  | .merge .. | .regs .. | .raise .. | .stop .. => True

theorem effect_sizes (i : Instruction) (r : Regs) : (effect i r).SizesOk := by
  obtain ⟨op, rs, rt, rd, extra⟩ := i
  cases op <;> simp only [effect] <;> repeat' split
  all_goals first | trivial | exact .inl rfl | exact .inr (.inl rfl) | exact .inr (.inr rfl)

theorem decode_ne_rfe (w : Word) : (Instruction.decode w).opCode ≠ .rfe := by
  have hop : ∀ e ∈ opTable, e.1 ≠ .op .rfe := by decide
  have hs : ∀ o ∈ specialTable, o ≠ .rfe := by decide
  unfold Instruction.decode
  simp only
  generalize hen : opTable.getD ((w >>> 26) &&& 0x3f).toNat (.op .res, .ifmt) = e
  have he : e.1 ≠ .op .rfe := by
    rw [← hen, List.getD_eq_getElem?_getD]
    cases hg : opTable[((w >>> 26) &&& 0x3f).toNat]? with
    | none => decide
    | some e => exact hop e (List.mem_of_getElem? hg)
  obtain ⟨entry, format⟩ := e
  cases entry with
  | op o => exact fun h => he (congrArg OpEntry.op h)
  | special =>
    simp only [List.getD_eq_getElem?_getD]
    cases hg : specialTable[(w &&& 0x3f).toNat]? with
    | none => decide
    | some o => exact hs o (List.mem_of_getElem? hg)
  | bcond =>
    simp only
    repeat' split
    all_goals decide

theorem effect_stop_iff {i : Instruction} (hr : i.opCode ≠ .rfe) (r : Regs) :
    (∃ why, effect i r = .stop why) ↔ Crashes i r := by
  obtain ⟨op, rs, rt, rd, extra⟩ := i
  cases op with
  | rfe => exact absurd rfl hr
  | lwl | lwr | swl | swr =>
    simp only [effect, Crashes]
    by_cases ha : r (gp rs) + extra &&& 3 ≠ 0
    · simp only [if_pos ha]
      exact ⟨fun _ => .inl ⟨by decide, ha⟩, fun _ => ⟨_, rfl⟩⟩
    simp only [if_neg ha]
    refine ⟨fun h => ?_, fun h => ?_⟩
    · obtain ⟨why, h⟩ := h
      cases h
    · rcases h with h | h
      · exact absurd h.2 ha
      · cases h.1
  | div =>
    simp only [effect, Crashes]
    by_cases hz : r (gp rt) = 0
    · simp only [if_pos hz]
      refine ⟨fun h => ?_, fun h => ?_⟩
      · obtain ⟨why, h⟩ := h
        cases h
      rcases h with h | h
      · exact absurd h.1 (by decide)
      · rw [hz] at h
        exact absurd h.2.2 (by decide)
    · simp only [if_neg hz]
      by_cases ho : r (gp rs) = 0x80000000 ∧ r (gp rt) = 0xffffffff
      · simp only [if_pos ho]
        exact ⟨fun _ => .inr ⟨trivial, ho⟩, fun _ => ⟨_, rfl⟩⟩
      simp only [if_neg ho]
      refine ⟨fun h => ?_, fun h => ?_⟩
      · obtain ⟨why, h⟩ := h
        cases h
      · rcases h with h | h
        · exact absurd h.1 (by decide)
        · exact absurd h.2 ho
  | _ =>
    refine ⟨fun h => ?_, fun h => ?_⟩
    · obtain ⟨why, h⟩ := h
      simp only [effect] at h
      repeat' split at h
      all_goals cases h
    · dsimp only [Crashes] at h
      rcases h with h | h
      · exact absurd h.1 (by decide)
      · exact absurd h.1 (by decide)

section

variable {m : Machine} {t : List TranslationEntry} {size : Nat}

theorem readMem_runs (h : Tables m t) (addr : Word) (hs : size = 1 ∨ size = 2 ∨ size = 4) :
    (∃ which m', m.readMem bigEndian addr size = .raised which m') ∨
    ∃ value m' t', m.readMem bigEndian addr size = .done value m' ∧ Tables m' t' := by
  unfold Machine.readMem
  rcases translate_cases h addr hs false with ⟨which, -, hf⟩ | ⟨i, e, hm, -, -, -, hok⟩
  · rw [hf]
    exact .inl ⟨_, _, rfl⟩
  · rw [hok]
    rcases hs with rfl | rfl | rfl <;> exact .inr ⟨_, _, _, rfl, h.touch hm.entry false⟩

theorem writeMem_runs (h : Tables m t) (addr : Word) (hs : size = 1 ∨ size = 2 ∨ size = 4) (value : Word) :
    (∃ which m', m.writeMem bigEndian addr size value = .raised which m') ∨
    ∃ m', m.writeMem bigEndian addr size value = .done () m' := by
  unfold Machine.writeMem
  rcases translate_cases h addr hs true with ⟨which, -, hf⟩ | ⟨i, e, -, -, -, -, hok⟩
  · rw [hf]
    exact .inl ⟨_, _, rfl⟩
  · rw [hok]
    rcases hs with rfl | rfl | rfl <;> exact .inr ⟨_, rfl⟩

/-- An effect that is no stop, with accesses of the right sizes, is carried out or traps. -/
theorem perform_runs (h : Tables m t) {e : Effect} (hsz : e.SizesOk) (hst : ∀ why, e ≠ .stop why) (why : Stop) :
    m.perform bigEndian e ≠ .stop why := by
  intro hs
  cases e with
  | regs writes pcAfter => cases hs
  | load addr size rt f =>
    simp only [Machine.perform] at hs
    rcases readMem_runs h addr hsz with ⟨which, m', hr⟩ | ⟨value, m', t', hr, -⟩
    all_goals
      rw [hr] at hs
      cases hs
  | store addr size value =>
    simp only [Machine.perform] at hs
    rcases writeMem_runs h addr hsz value with ⟨which, m', hw⟩ | ⟨m', hw⟩
    all_goals
      rw [hw] at hs
      cases hs
  | merge addr f =>
    simp only [Machine.perform] at hs
    rcases readMem_runs h addr (.inr (.inr rfl)) with ⟨which, m', hr⟩ | ⟨value, m', t', hr, h'⟩
    · rw [hr] at hs
      cases hs
    rw [hr] at hs
    simp only [Outcome.bind] at hs
    rcases writeMem_runs h' addr (.inr (.inr rfl)) (f value) with ⟨which, m', hw⟩ | ⟨m', hw⟩
    all_goals
      rw [hw] at hs
      cases hs
  | raise which badVAddr => cases hs
  | stop why => exact hst why rfl

/-- With any page table or TLB, one instruction completes or traps, whatever the word and the
    registers, exactly if the word that is fetched does not crash the simulator. -/
theorem oneInstruction_runs_iff (h : Tables m t) : (∀ why, m.oneInstruction bigEndian ≠ .stop why) ↔
    ∀ raw m', m.readMem bigEndian (m.registers pcReg) 4 = .done raw m' → ¬ Crashes (.decode raw) m.registers := by
  rcases readMem_runs h (m.registers pcReg) (.inr (.inr rfl)) with ⟨which, m₁, hr⟩ | ⟨raw, m₁, t₁, hr, h₁⟩
  · refine ⟨fun _ raw m' hdone => ?_, fun _ why hstop => ?_⟩
    · rw [hr] at hdone
      cases hdone
    · rw [Machine.oneInstruction, hr] at hstop
      cases hstop
  · have heq := oneInstruction_eq hr
    have hstop := effect_stop_iff (decode_ne_rfe raw) m.registers
    constructor
    · intro hruns raw' m' hdone hcrash
      obtain ⟨rfl, -⟩ : raw = raw' ∧ m₁ = m' := by
        rw [hr] at hdone
        cases hdone
        exact ⟨rfl, rfl⟩
      obtain ⟨why, he⟩ := hstop.mpr hcrash
      exact hruns why (by rw [heq, he]; rfl)
    · intro hcrash why
      rw [heq]
      exact perform_runs h₁ (effect_sizes _ _) (fun why' he => hcrash raw m₁ hr (hstop.mp ⟨why', he⟩)) why

end

/-- `lwl $2, 4($0)` is aligned, and runs. -/
theorem oneInstruction_runs_aligned : ∃ m t, Tables m t ∧ (∀ why, m.oneInstruction false ≠ .stop why) := by
  have htables : Tables (Machine.holding 0x88020004 loadPending) [⟨0, 0, true, false, false, false⟩] := .pageTable rfl rfl rfl
  refine ⟨_, _, htables, (oneInstruction_runs_iff htables).mpr fun raw m' hdone => ?_⟩
  rw [holding_fetch 0x88020004 (show loadPending pcReg = 0 from rfl)] at hdone
  cases hdone
  decide

/-- The least `int` and -1, in registers 1 and 2. -/
def overflowing : Regs := fun x => if x = 1 then 0x80000000 else if x = 2 then 0xffffffff else 0

/-- `div $1, $2` of the least `int` by -1, and `lwl $2, 1($0)`. -/
theorem oneInstruction_stops :
    (∃ m t, Tables m t ∧ m.oneInstruction false = .stop .undefined) ∧
    ∃ m t, Tables m t ∧ m.oneInstruction false = .stop .assertion := by
  refine ⟨⟨.holding 0x0022001a overflowing, [⟨0, 0, true, false, false, false⟩], .pageTable rfl rfl rfl, ?_⟩,
    ⟨.holding 0x88020001 overflowing, [⟨0, 0, true, false, false, false⟩], .pageTable rfl rfl rfl, ?_⟩⟩
  · rw [oneInstruction_eq (holding_fetch 0x0022001a (show overflowing pcReg = 0 from rfl))]
    rfl
  · rw [oneInstruction_eq (holding_fetch 0x88020001 (show overflowing pcReg = 0 from rfl))]
    rfl

end Nachos

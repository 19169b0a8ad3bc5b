/-
  Nachos.Machine.DelaySlot — an interrupt between a load and the instruction in its delay
  slot lands the load one instruction early (`Interrupt::CheckIfDue` calls `DelayedLoad`).

  `LandedEarly a b`: register set `b` is `a`, except that a load pending in `a` may have
  landed in `b` already. `Instruction.delayOk` is the MIPS I rule: the instruction in the
  delay slot neither reads nor writes the register being loaded. Under it
  - `effect_landedEarly`: the instruction has the same effect on both register sets;
  - `retire_landedEarly`: and leaves the same registers.
-/

import Nachos.Machine.MipsSim

namespace Nachos

open Function (update update_apply update_of_ne)

/-! ## Register sets -/

/-- What holds of a user register set between two instructions. -/
structure RegsOk (r : Regs) : Prop where
  zero : r 0 = 0
  load : (r loadReg).toNat < numGPRegs

/-- Writing register `x` neither changes nor is undone by the pending load. -/
structure Free (r : Regs) (x : RegNum) : Prop where
  reg : x ≠ loadReg
  value : x ≠ loadValueReg
  target : x = 0 ∨ x.val ≠ (r loadReg).toNat

variable {r a b : Regs} {x : RegNum} {i : Instruction} {ws : List (RegNum × Word)} {pcAfter : Word}

theorem landed_apply_free (hr : r 0 = 0) (h : Free r x) : landed r x = r x := by
  rw [landed, delayedLoad_apply, if_neg h.value, if_neg h.reg]
  split
  · rename_i h0; rw [h0, hr]
  · rename_i h0; rw [if_neg (h.target.resolve_left h0)]

/-- A register that is not a general one is not a load's target. -/
theorem free_of_special (hr : RegsOk r) (hx : numGPRegs ≤ x.val) (h1 : x ≠ loadReg) (h2 : x ≠ loadValueReg) :
    Free r x :=
  ⟨h1, h2, .inr (by have := hr.load; omega)⟩

theorem landed_update (h : Free r x) (v : Word) :
    landed (update r x v) = if x = 0 then landed r else update (landed r) x v := by
  have hl : update r x v loadReg = r loadReg := update_of_ne h.reg.symm ..
  have hv : update r x v loadValueReg = r loadValueReg := update_of_ne h.value.symm ..
  funext y
  rw [landed, delayedLoad_apply, hl, hv]
  by_cases hy : y = x
  · subst hy
    by_cases h0 : y = 0
    · simp [h0, landed, delayedLoad_apply]
    · simp [h0, h.reg, h.value, h.target.resolve_left h0]
  · have : (if x = 0 then landed r else update (landed r) x v) y = landed r y := by
      split
      · rfl
      · exact update_of_ne hy ..
    rw [this, landed, delayedLoad_apply, update_of_ne hy]

theorem delayedLoad_congr (h : landed a = landed b) (n v : Word) : delayedLoad a n v = delayedLoad b n v := by
  funext x
  have hx := congrFun h x
  simp only [landed, delayedLoad_apply] at hx ⊢
  by_cases h1 : x = loadValueReg
  · simp [h1]
  · by_cases h2 : x = loadReg
    · simp [h2]
    · simpa [h1, h2] using hx

theorem retire_congr (h : landed a = landed b) (n v pcAfter : Word) : retire a n v pcAfter = retire b n v pcAfter := by
  unfold retire
  rw [delayedLoad_congr h]

theorem landed_writeRegs (ws : List (RegNum × Word)) : ∀ {a b : Regs}, landed a = landed b →
    (∀ w ∈ ws, Free a w.1) → (∀ w ∈ ws, Free b w.1) → landed (writeRegs a ws) = landed (writeRegs b ws) := by
  induction ws with
  | nil => intro a b h _ _; exact h
  | cons w ws ih =>
    intro a b h ha hb
    have hw := List.mem_cons_self (a := w) (l := ws)
    have hf : ∀ {r : Regs}, (∀ w' ∈ w :: ws, Free r w'.1) → ∀ w' ∈ ws, Free (update r w.1 w.2) w'.1 := by
      intro r hr w' hw'
      have h' := hr w' (List.mem_cons_of_mem _ hw')
      refine ⟨h'.reg, h'.value, ?_⟩
      rw [update_of_ne (hr w hw).reg.symm]
      exact h'.target
    refine ih ?_ (hf ha) (hf hb)
    rw [landed_update (ha w hw), landed_update (hb w hw), h]

theorem regsOk_retire (r : Regs) {n : Word} (hn : n.toNat < numGPRegs) (v pcAfter : Word) :
    RegsOk (retire r n v pcAfter) := by
  constructor <;>
  simp [retire, delayedLoad_apply, loadReg, loadValueReg, prevPCReg, pcReg, nextPCReg]
  simpa using hn

theorem retire_apply (r : Regs) (n v pcAfter : Word) (x : RegNum) :
    retire r n v pcAfter x =
      if x = nextPCReg then pcAfter else if x = pcReg then delayedLoad r n v nextPCReg
      else if x = prevPCReg then delayedLoad r n v pcReg else delayedLoad r n v x := by
  simp only [retire, update_apply]
  rfl

/-! ## The delay rule -/

/-- The general registers an instruction reads. LWL and LWR merge with a pending load of
    their own `rt` (`mergeBase`), so that one is not listed. -/
def Instruction.reads (i : Instruction) : List (Fin numGPRegs) :=
  match i.opCode with
  | .add | .addu | .and | .beq | .bne | .div | .divu | .mult | .multu | .nor | .or | .sb | .sh | .sllv | .slt | .sltu
  | .srav | .srlv | .sub | .subu | .sw | .swl | .swr | .xor => [i.rs, i.rt]
  | .addi | .addiu | .andi | .bgez | .bgezal | .bgtz | .blez | .bltz | .bltzal | .jalr | .jr | .lb | .lbu | .lh | .lhu
  | .lw | .lwl | .lwr | .mthi | .mtlo | .ori | .slti | .sltiu | .xori => [i.rs]
  | .sll | .sra | .srl => [i.rt]
  | .j | .jal | .lui | .mfhi | .mflo | .rfe | .syscall | .unimp | .res => []

/-- The general registers an instruction writes, again without the `rt` of LWL and LWR. -/
def Instruction.writes (i : Instruction) : List (Fin numGPRegs) :=
  match i.opCode with
  | .add | .addu | .and | .jalr | .mfhi | .mflo | .nor | .or | .sll | .sllv | .slt | .sltu | .sra | .srav | .srl | .srlv
  | .sub | .subu | .xor => [i.rd]
  | .addi | .addiu | .andi | .lb | .lbu | .lh | .lhu | .lui | .lw | .ori | .slti | .sltiu | .xori => [i.rt]
  | .bgezal | .bltzal | .jal => [31]
  | _ => []

/-- The instruction may stand in the delay slot of the load pending in `r`. -/
def Instruction.delayOk (i : Instruction) (r : Regs) : Prop :=
  r loadReg = 0 ∨ ∀ x ∈ i.reads ++ i.writes, x.val ≠ (r loadReg).toNat

instance (i : Instruction) (r : Regs) : Decidable (i.delayOk r) := inferInstanceAs (Decidable (_ ∨ _))

theorem gp_ne {x : Fin numGPRegs} {y : RegNum} (h : numGPRegs ≤ y.val) : gp x ≠ y := by
  intro e
  have := x.isLt
  have := congrArg Fin.val e
  rw [gp_val] at this
  omega

theorem free_gp (h : i.delayOk r) {x : Fin numGPRegs} (hx : x ∈ i.reads ++ i.writes) : Free r (gp x) := by
  refine ⟨gp_ne (by decide), gp_ne (by decide), ?_⟩
  rcases h with h | h
  · rw [h]
    by_cases h0 : gp x = 0
    · exact .inl h0
    · exact .inr fun e => h0 (Fin.ext e)
  · exact .inr (h x hx)

theorem mergeBase_eq {rt : Fin numGPRegs} (h : rt ≠ 0) : mergeBase r rt = landed r (gp rt) := by
  have h0 : gp rt ≠ 0 := by
    intro e
    have := congrArg Fin.val e
    exact h (Fin.ext this)
  have hlt : rt.val < 32 := rt.isLt
  rw [landed, delayedLoad_apply, if_neg h0, if_neg (gp_ne (by decide)), if_neg (gp_ne (by decide)), gp_val, mergeBase]
  have : r loadReg = BitVec.ofNat 32 rt ↔ rt.val = (r loadReg).toNat := by
    rw [BitVec.toNat_eq, BitVec.toNat_ofNat, Nat.mod_eq_of_lt (by omega), eq_comm]
  simp only [this]

/-- An instruction's effect depends on the registers it reads. -/
theorem effect_congr (hn : a nextPCReg = b nextPCReg) (hh : a hiReg = b hiReg) (hl : a loReg = b loReg)
    (h : ∀ x ∈ i.reads, a (gp x) = b (gp x))
    (hm : i.opCode = .lwl ∨ i.opCode = .lwr → mergeBase a i.rt = mergeBase b i.rt) : effect i a = effect i b := by
  obtain ⟨op, rs, rt, rd, extra⟩ := i
  cases op <;> simp_all [effect, Instruction.reads, update_apply]

theorem effect_writes (h : effect i r = .regs ws pcAfter) :
    ∀ w ∈ ws, w.1 = hiReg ∨ w.1 = loReg ∨ ∃ x ∈ i.writes, w.1 = gp x := by
  obtain ⟨op, rs, rt, rd, extra⟩ := i
  cases op <;> simp only [effect] at h <;> (try split at h) <;> (try split at h) <;> cases h <;>
    simp [Instruction.writes]
  all_goals exact .inr (.inr rfl)

/-- `b` is `a`, with the load pending in `a` possibly landed already. -/
structure LandedEarly (a b : Regs) : Prop where
  left : RegsOk a
  right : RegsOk b
  same : landed a = landed b
  early : a = b ∨ b loadReg = 0

theorem LandedEarly.free (h : LandedEarly a b) (hx : Free a x) : Free b x := by
  rcases h.early with rfl | h0
  · exact hx
  refine ⟨hx.reg, hx.value, ?_⟩
  rw [h0]
  by_cases hz : x = 0
  · exact .inl hz
  · exact .inr fun e => hz (Fin.ext e)

theorem LandedEarly.apply (h : LandedEarly a b) (hx : Free a x) : a x = b x := by
  rw [← landed_apply_free h.left.zero hx, ← landed_apply_free h.right.zero (h.free hx), h.same]

theorem LandedEarly.special (h : LandedEarly a b) (hx : numGPRegs ≤ x.val) (h1 : x ≠ loadReg) (h2 : x ≠ loadValueReg) :
    a x = b x :=
  h.apply (free_of_special h.left hx h1 h2)

theorem regsOk_landed (r : Regs) : RegsOk (landed r) ∧ landed r loadReg = 0 := by
  have hl : landed r loadReg = 0 := by simp [landed, delayedLoad_apply, loadReg, loadValueReg]
  exact ⟨⟨by simp [landed, delayedLoad_apply], by simp [hl]⟩, hl⟩

theorem landed_landed (r : Regs) : landed (landed r) = landed r := by
  obtain ⟨hok, hl⟩ := regsOk_landed r
  funext x
  by_cases h1 : x = loadValueReg
  · simp [landed, delayedLoad_apply, h1]
  by_cases h2 : x = loadReg
  · rw [h2, hl, (regsOk_landed (landed r)).2]
  refine landed_apply_free hok.zero ⟨h2, h1, ?_⟩
  by_cases h0 : x = 0
  · exact .inl h0
  · rw [hl]; exact .inr fun e => h0 (Fin.ext e)

/-- An interrupt keeps the relation: it lands the load in `b`. -/
theorem LandedEarly.interrupt (h : LandedEarly a b) : LandedEarly a (landed b) :=
  ⟨h.left, (regsOk_landed b).1, by rw [landed_landed, h.same], .inr (regsOk_landed b).2⟩

/-- The same effect on both register sets; only the value of a load into register 0 may
    differ. -/
theorem effect_landedEarly (h : LandedEarly a b) (hd : i.delayOk a) : effect i a = effect i b ∨
      ∃ addr size f g, effect i a = .load addr size 0 f ∧ effect i b = .load addr size 0 g := by
  have hr : ∀ x ∈ i.reads, a (gp x) = b (gp x) := fun x hx =>
    h.apply (free_gp hd (List.mem_append_left _ hx))
  have hn : a nextPCReg = b nextPCReg := h.special (by decide) (by decide) (by decide)
  have hh : a hiReg = b hiReg := h.special (by decide) (by decide) (by decide)
  have hl : a loReg = b loReg := h.special (by decide) (by decide) (by decide)
  by_cases hrt : i.rt = 0
  · by_cases hop : i.opCode = .lwl ∨ i.opCode = .lwr
    · have hrs : a (gp i.rs) = b (gp i.rs) := hr i.rs (by rcases hop with e | e <;> simp [Instruction.reads, e])
      rcases hop with e | e <;> simp only [effect, e, hrt, hrs]
      all_goals
        split
        · exact .inl rfl
        · exact .inr ⟨_, _, _, _, rfl, rfl⟩
    · exact .inl (effect_congr hn hh hl hr fun e => absurd e hop)
  · refine .inl (effect_congr hn hh hl hr fun _ => ?_)
    rw [mergeBase_eq hrt, mergeBase_eq hrt, h.same]

theorem retire_landedEarly (h : LandedEarly a b) (hd : i.delayOk a) (he : effect i a = .regs ws pcAfter)
    (n v pc : Word) : retire (writeRegs a ws) n v pc = retire (writeRegs b ws) n v pc := by
  have hf : ∀ w ∈ ws, Free a w.1 := by
    intro w hw
    rcases effect_writes he w hw with e | e | ⟨x, hx, e⟩ <;> rw [e]
    · exact free_of_special h.left (by decide) (by decide) (by decide)
    · exact free_of_special h.left (by decide) (by decide) (by decide)
    · exact free_gp hd (List.mem_append_right _ hx)
  exact retire_congr (landed_writeRegs ws h.same hf fun w hw => h.free (hf w hw)) n v pc

/-- A load into register 0 leaves nothing behind but its value. -/
theorem retire_zero (h : landed a = landed b) (v w pc : Word) : LandedEarly (retire a 0 v pc) (retire b 0 w pc) ∧
      ∀ x, x ≠ loadValueReg → retire a 0 v pc x = retire b 0 w pc x := by
  rw [retire_congr h.symm]
  have hr : ∀ x, x ≠ loadValueReg → retire a 0 v pc x = retire a 0 w pc x := by
    intro x hx
    have hd : ∀ y, y ≠ loadValueReg → delayedLoad a 0 v y = delayedLoad a 0 w y := fun y hy => by
      simp [delayedLoad_apply, hy]
    simp only [retire_apply, hd x hx, hd pcReg (by decide), hd nextPCReg (by decide)]
  have hl : ∀ u, retire a 0 u pc loadReg = 0 := fun u => by
    simp [retire_apply, delayedLoad_apply, loadReg, loadValueReg, prevPCReg, pcReg, nextPCReg]
  refine ⟨⟨regsOk_retire _ (by decide) _ _, regsOk_retire _ (by decide) _ _, ?_, .inr (hl w)⟩, hr⟩
  funext x
  simp only [landed, delayedLoad_apply, hl]
  by_cases h0 : x = 0
  · simp [h0]
  have : x.val ≠ 0 := fun e => h0 (Fin.ext e)
  by_cases h1 : x = loadValueReg
  · simp [h1]
  · rw [hr x h1]
    simp [h1, this]

/-! ## Register sets stay sound -/

/-- The registers are sound, whether the operation completes or traps. -/
def Outcome.Sound {α : Type} : Outcome α → Prop
  | .done _ m => RegsOk m.registers
  | .raised _ m => RegsOk m.registers
  | .stop _ => True

variable {bigEndian : Bool} {α : Type}

theorem readMem_sound (m : Machine) (addr : Word) (size : Nat) {f : Word → Machine → Outcome α}
    (hf : ∀ v m', (f v m').Sound) : ((m.readMem bigEndian addr size).bind f).Sound := by
  unfold Machine.readMem
  cases m.translate addr size false with
  | exception which => exact (regsOk_landed _).1
  | stop why => trivial
  | ok pa m' =>
    dsimp only
    cases readPhys bigEndian m'.mainMemory pa size with
    | none => trivial
    | some v => exact hf v m'

theorem writeMem_sound (m : Machine) (addr : Word) (size : Nat) (value : Word) {f : Unit → Machine → Outcome α}
    (hf : ∀ v m', (f v m').Sound) : ((m.writeMem bigEndian addr size value).bind f).Sound := by
  unfold Machine.writeMem
  cases m.translate addr size true with
  | exception which => exact (regsOk_landed _).1
  | stop why => trivial
  | ok pa m' =>
    dsimp only
    cases writePhys bigEndian m'.mainMemory pa value size with
    | none => trivial
    | some mem => exact hf () _

/-- Whatever the registers hold before an instruction, they are sound after it. -/
theorem oneInstruction_sound (m : Machine) : (m.oneInstruction bigEndian).Sound := by
  refine readMem_sound m _ 4 fun raw m => ?_
  generalize effect (.decode raw) m.registers = e
  cases e with
  | regs ws pc => exact regsOk_retire _ (by decide) _ _
  | load addr size rt f =>
    exact readMem_sound m addr size fun v m' => regsOk_retire _ (by simp; omega) _ _
  | store addr size value => exact writeMem_sound m addr size value fun _ m' => regsOk_retire _ (by decide) _ _
  | merge addr f =>
    exact readMem_sound m addr 4 fun v m' => writeMem_sound m' addr 4 _ fun _ m'' => regsOk_retire _ (by decide) _ _
  | raise which bad => exact (regsOk_landed _).1
  | stop why => trivial

end Nachos

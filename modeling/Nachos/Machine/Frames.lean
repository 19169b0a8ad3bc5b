/-
  Nachos.Machine.Frames — an instruction stays inside the frames of the page table it runs
  on, and depends on nothing else of main memory.

  - `oneInstruction_agree`: two machines with the same table, the same bytes in its frames,
    and register sets that differ at most in a load landed early, execute an instruction
    that obeys the delay rule in the same way.
-/

import Nachos.Machine.DelaySlot

namespace Nachos

/-! ## Accesses through a page table -/

def framesOf (table : List TranslationEntry) : List Nat := table.map (·.frame)

/-- Physical address `a` lies in a frame of the table. -/
def Owns (table : List TranslationEntry) (a : Nat) : Prop := a / pageSize ∈ framesOf table

theorem framesOf_modify (table : List TranslationEntry) (i : Nat) (writing : Bool) :
    framesOf (table.modify i fun e => { e with use := true, dirty := e.dirty || writing }) = framesOf table := by
  refine List.ext_getElem (by simp [framesOf]) fun k _ _ => ?_
  simp only [framesOf, List.getElem_map, List.getElem_modify]
  split <;> rfl

theorem and_three (w : Word) : w &&& 3 = 0 ↔ w.toNat % 4 = 0 := by
  rw [← BitVec.toNat_inj, BitVec.toNat_and]
  exact iff_of_eq (congrArg (· = 0) (Nat.and_two_pow_sub_one_eq_mod w.toNat 2))

theorem and_one (w : Word) : w &&& 1 = 0 ↔ w.toNat % 2 = 0 := by
  rw [← BitVec.toNat_inj, BitVec.toNat_and]
  exact iff_of_eq (congrArg (· = 0) (Nat.and_two_pow_sub_one_eq_mod w.toNat 1))

variable {m : Machine} {size pa : Nat}

/-- A successful translation through a page table: the entry is marked, and the access
    stays inside its frame. -/
theorem translate_ok {m' : Machine} {table : List TranslationEntry} {va : Word} {writing : Bool} (ht : m.tlb = none)
    (htb : m.pageTable = some table) (h : m.translate va size writing = .ok pa m') :
    (∃ i, m' = m.touch i writing) ∧ ((size = 1 ∨ size = 2 ∨ size = 4) → ∀ k < size, Owns table (pa + k)) ∧
      pa + size ≤ memorySize := by
  unfold Machine.translate at h
  split at h
  · cases h
  rename_i ha
  have hf : (size = 1 ∨ size = 2 ∨ size = 4) → va.toNat % pageSize + size ≤ pageSize := by
    intro hs
    simp only [not_or, not_and, Decidable.not_not] at ha
    unfold pageSize
    rcases hs with rfl | rfl | rfl
    · omega
    · have := (and_one va).mp (ha.2 rfl); omega
    · have := (and_three va).mp (ha.1 rfl); omega
  split at h
  · cases h
  · cases h
  · rename_i i e hl
    have he : e ∈ table := by
      simp only [Machine.lookup, ht, htb] at hl
      split at hl
      · cases hl
      split at hl
      · cases hl
      rename_i e' hg
      split at hl
      · cases hl; exact List.mem_of_getElem? hg
      · cases hl
    split at h
    · cases h
    split at h
    · cases h
    dsimp only at h
    split at h
    · rename_i hm
      cases h
      refine ⟨⟨i, rfl⟩, fun hs k hk => ?_, hm⟩
      have := hf hs
      have : (e.frame * pageSize + va.toNat % pageSize + k) / pageSize = e.frame := by
        rw [Nat.add_assoc, Nat.mul_comm, Nat.mul_add_div (by decide), Nat.div_eq_of_lt (by omega), Nat.add_zero]
      rw [Owns, this]
      exact List.mem_map_of_mem he
    · cases h

/-- Translation does not look at the registers or at main memory. -/
theorem translate_with (m : Machine) (r : Regs) (mem : Memory) (va : Word) (size : Nat) (writing : Bool) :
    ({ m with registers := r, mainMemory := mem } : Machine).translate va size writing =
      match m.translate va size writing with
      | .ok pa m' => .ok pa { m' with registers := r, mainMemory := mem }
      | .exception x => .exception x
      | .stop y => .stop y := by
  have hl : ∀ vpn, ({ m with registers := r, mainMemory := mem } : Machine).lookup vpn = m.lookup vpn := fun _ => rfl
  unfold Machine.translate
  rw [hl]
  split
  · rfl
  cases m.lookup (va.toNat / pageSize) with
  | stop why => rfl
  | fails which => rfl
  | found i e =>
    dsimp only
    split
    · rfl
    · split
      · rfl
      · split <;> rfl

variable {bigEndian : Bool} {a b m0 : Machine} {v : Word} {α β : Type} {t : List TranslationEntry}

theorem readPhys_congr {a b : Memory} (h : ∀ k < size, a (pa + k) = b (pa + k)) :
    readPhys bigEndian a pa size = readPhys bigEndian b pa size := by
  unfold readPhys
  split
  · rw [show a pa = b pa from h 0 (by decide)]
  · rw [hostShort, hostShort, show a pa = b pa from h 0 (by decide), h 1 (by decide)]
  · rw [hostWord, hostWord, show a pa = b pa from h 0 (by decide), h 1 (by decide), h 2 (by decide), h 3 (by decide)]
  · rfl

theorem readPhys_size {mem : Memory} (h : readPhys bigEndian mem pa size = some v) :
    size = 1 ∨ size = 2 ∨ size = 4 := by
  unfold readPhys at h
  split at h <;> first | omega | cases h

theorem writePhys_frame {mem mem' : Memory} (h : writePhys bigEndian mem pa v size = some mem') :
    (size = 1 ∨ size = 2 ∨ size = 4) ∧ ∀ x, (∀ k < size, x ≠ pa + k) → mem' x = mem x := by
  unfold writePhys at h
  split at h <;> cases h
  · exact ⟨.inl rfl, fun x hx => Function.update_of_ne (hx 0 (by decide)) ..⟩
  all_goals
    refine ⟨by simp, fun x hx => ?_⟩
    rw [storeHost, if_neg]
    intro ⟨h1, h2⟩
    exact hx (x - pa) (by omega) (by omega)

theorem writePhys_congr {a b : Memory} (pa size : Nat) (v : Word) :
    (writePhys bigEndian a pa v size = none ∧ writePhys bigEndian b pa v size = none) ∨
    ∃ a' b', writePhys bigEndian a pa v size = some a' ∧ writePhys bigEndian b pa v size = some b' ∧
      ∀ x, a x = b x → a' x = b' x := by
  unfold writePhys
  split
  · refine .inr ⟨_, _, rfl, rfl, fun x hx => ?_⟩
    by_cases e : x = pa
    · subst e; simp
    · simp [e, hx]
  · refine .inr ⟨_, _, rfl, rfl, fun x hx => ?_⟩
    rw [storeHost, storeHost, hx]
  · refine .inr ⟨_, _, rfl, rfl, fun x hx => ?_⟩
    rw [storeHost, storeHost, hx]
  · exact .inl ⟨rfl, rfl⟩

/-! ## What an instruction keeps -/

/-- `m` comes from `m0` by accesses through its page table. -/
structure Kept (m0 m : Machine) : Prop where
  tlb : m.tlb = m0.tlb
  size : m.pageTableSize = m0.pageTableSize
  table : ∀ t, m0.pageTable = some t → ∃ t', m.pageTable = some t' ∧ framesOf t' = framesOf t ∧
    ∀ a, ¬ Owns t a → m.mainMemory a = m0.mainMemory a

theorem Kept.of_registers (r : Regs) : Kept m { m with registers := r } :=
  ⟨rfl, rfl, fun t ht => ⟨t, ht, rfl, fun _ _ => rfl⟩⟩

theorem Kept.trans {m1 m2 : Machine} (h : Kept m0 m1) (h' : Kept m1 m2) : Kept m0 m2 := by
  refine ⟨h'.tlb.trans h.tlb, h'.size.trans h.size, fun t ht => ?_⟩
  obtain ⟨t1, ht1, hf1, hm1⟩ := h.table t ht
  obtain ⟨t2, ht2, hf2, hm2⟩ := h'.table t1 ht1
  refine ⟨t2, ht2, hf2.trans hf1, fun a ha => ?_⟩
  have ha1 : ¬ Owns t1 a := by rw [Owns, hf1]; exact ha
  rw [hm2 a ha1, hm1 a ha]

theorem Kept.touch (m : Machine) (i : Nat) (writing : Bool) (htl : m.tlb = none) : Kept m (m.touch i writing) := by
  refine ⟨by simp [Machine.touch, htl], rfl, fun t ht => ?_⟩
  exact ⟨_, by simp [Machine.touch, ht], framesOf_modify t i writing, fun _ _ => rfl⟩

/-- The outcome leaves a machine `Kept` from `m0`, whether the operation completes or traps. -/
def Outcome.Keeps {α : Type} (m0 : Machine) : Outcome α → Prop
  | .done _ m => Kept m0 m
  | .raised _ m => Kept m0 m
  | .stop _ => True

theorem Outcome.Keeps.bind {x : Outcome α} {f : α → Machine → Outcome β} (h : x.Keeps m0)
    (hf : ∀ a m, Kept m0 m → (f a m).Keeps m0) : (x.bind f).Keeps m0 := by
  cases x with
  | done a m => exact hf a m h
  | raised which m => exact h
  | stop why => exact h

theorem Outcome.Keeps.trans {x : Outcome α} (h : x.Keeps m) (hk : Kept m0 m) : x.Keeps m0 := by
  cases x with
  | done a m' => exact hk.trans h
  | raised which m' => exact hk.trans h
  | stop why => exact trivial

/-- The machine translates through a page table. -/
structure OnTable (m : Machine) (table : List TranslationEntry) : Prop where
  tlb : m.tlb = none
  table : m.pageTable = some table

theorem OnTable.kept (h : OnTable m0 t) (hk : Kept m0 m) : ∃ t', OnTable m t' := by
  obtain ⟨t', ht', _⟩ := hk.table t h.table
  exact ⟨t', hk.tlb.trans h.tlb, ht'⟩

theorem readMem_keeps (h : OnTable m t) (addr : Word) (size : Nat) : (m.readMem bigEndian addr size).Keeps m := by
  unfold Machine.readMem
  cases ht : m.translate addr size false with
  | exception which => exact Kept.of_registers _
  | stop why => exact trivial
  | ok pa m' =>
    dsimp only
    cases readPhys bigEndian m'.mainMemory pa size with
    | none => exact trivial
    | some v =>
      obtain ⟨⟨i, rfl⟩, _⟩ := translate_ok h.tlb h.table ht
      exact Kept.touch m i false h.tlb

theorem writeMem_keeps (h : OnTable m t) (addr : Word) (size : Nat) (value : Word) :
    (m.writeMem bigEndian addr size value).Keeps m := by
  unfold Machine.writeMem
  cases ht : m.translate addr size true with
  | exception which => exact Kept.of_registers _
  | stop why => exact trivial
  | ok pa m' =>
    dsimp only
    cases hw : writePhys bigEndian m'.mainMemory pa value size with
    | none => exact trivial
    | some mem =>
      obtain ⟨hs, hfr⟩ := writePhys_frame hw
      obtain ⟨⟨i, rfl⟩, ho, _⟩ := translate_ok h.tlb h.table ht
      refine ⟨(Kept.touch m i true h.tlb).tlb, rfl, fun t' ht' => ?_⟩
      obtain rfl : t = t' := Option.some.inj (h.table.symm.trans ht')
      obtain ⟨t', ht', hf, _⟩ := (Kept.touch m i true h.tlb).table t h.table
      refine ⟨t', ht', hf, fun a ha => hfr a fun k hk e => ha ?_⟩
      rw [e]
      exact ho hs k hk

theorem perform_keeps (h : OnTable m0 t) (hk : Kept m0 m) (e : Effect) : (m.perform bigEndian e).Keeps m0 := by
  have hr : ∀ {m : Machine} (addr : Word) (size : Nat), Kept m0 m → (m.readMem bigEndian addr size).Keeps m0 := by
    intro m addr size hk
    obtain ⟨t', h'⟩ := h.kept hk
    exact (readMem_keeps h' addr size).trans hk
  have hw : ∀ {m : Machine} (addr : Word) (size : Nat) (v : Word), Kept m0 m →
      (m.writeMem bigEndian addr size v).Keeps m0 := by
    intro m addr size v hk
    obtain ⟨t', h'⟩ := h.kept hk
    exact (writeMem_keeps h' addr size v).trans hk
  cases e with
  | regs ws pc => exact hk.trans (Kept.of_registers _)
  | load addr size rt f => exact (hr addr size hk).bind fun _ _ hk => hk.trans (Kept.of_registers _)
  | store addr size v => exact (hw addr size v hk).bind fun _ _ hk => hk.trans (Kept.of_registers _)
  | merge addr f =>
    exact (hr addr 4 hk).bind fun _ _ hk => (hw addr 4 _ hk).bind fun _ _ hk => hk.trans (Kept.of_registers _)
  | raise which bad => exact hk.trans (Kept.of_registers _)
  | stop why => trivial

/-- An instruction changes nothing outside the frames of its page table. -/
theorem oneInstruction_keeps (h : OnTable m t) : (m.oneInstruction bigEndian).Keeps m :=
  (readMem_keeps h _ 4).bind fun _ _ hk => perform_keeps h hk _

/-! ## Two machines that agree -/

/-- The same page table and the same bytes in its frames. -/
structure Agree (a b : Machine) (t : List TranslationEntry) : Prop where
  left : OnTable a t
  right : OnTable b t
  size : a.pageTableSize = b.pageTableSize
  memory : ∀ x, Owns t x → a.mainMemory x = b.mainMemory x

theorem Agree.with_registers (h : Agree a b t) (r s : Regs) :
    Agree { a with registers := r } { b with registers := s } t :=
  ⟨⟨h.left.tlb, h.left.table⟩, ⟨h.right.tlb, h.right.table⟩, h.size, h.memory⟩

theorem Agree.touch (h : Agree a b t) (i : Nat) (writing : Bool) :
    ∃ t', Agree (a.touch i writing) (b.touch i writing) t' ∧ framesOf t' = framesOf t := by
  have hf := framesOf_modify t i writing
  refine ⟨_, ⟨⟨by simp [Machine.touch, h.left.tlb], by simp only [Machine.touch, h.left.table]; rfl⟩,
    ⟨by simp [Machine.touch, h.right.tlb], by simp only [Machine.touch, h.right.table]; rfl⟩, h.size, fun x hx => ?_⟩, hf⟩
  rw [Owns, hf] at hx
  exact h.memory x hx

/-- Both operations complete with the same value, trap alike, or stop alike. -/
inductive Outcome.Rel {α : Type} (D T : Machine → Machine → Prop) : Outcome α → Outcome α → Prop
  | done {a : α} {m n : Machine} : D m n → Rel D T (.done a m) (.done a n)
  | raised {which : ExceptionType} {m n : Machine} : T m n → Rel D T (.raised which m) (.raised which n)
  | stop (why : Stop) : Rel D T (.stop why) (.stop why)

theorem Outcome.Rel.bind {D D' T : Machine → Machine → Prop} {x y : Outcome α} {f g : α → Machine → Outcome β}
    (h : Rel D T x y) (hf : ∀ a m n, D m n → Rel D' T (f a m) (g a n)) : Rel D' T (x.bind f) (y.bind g) := by
  cases h with
  | done h => exact hf _ _ _ h
  | raised h => exact .raised h
  | stop why => exact .stop why

/-- The two machines after a memory access: they agree, and their registers are as before. -/
def Accessed (r s : Regs) (m n : Machine) : Prop := (∃ t, Agree m n t) ∧ m.registers = r ∧ n.registers = s

/-- The two machines after a trap: they agree, registers included. -/
def Trapped (m n : Machine) : Prop := (∃ t, Agree m n t) ∧ m.registers = n.registers

theorem Agree.trap (h : Agree a b t) (hr : LandedEarly a.registers b.registers) (bad : Word) :
    Trapped (a.raiseException bad) (b.raiseException bad) := by
  have hf := free_of_special hr.left (x := badVAddrReg) (by decide) (by decide) (by decide)
  refine ⟨⟨t, h.with_registers _ _⟩, ?_⟩
  show landed _ = landed _
  rw [landed_update hf, landed_update (hr.free hf), hr.same]

theorem translate_agree (h : Agree a b t) (addr : Word) (size : Nat) (writing : Bool) :
    (∃ pa i, a.translate addr size writing = .ok pa (a.touch i writing) ∧
      b.translate addr size writing = .ok pa (b.touch i writing) ∧
      ((size = 1 ∨ size = 2 ∨ size = 4) → ∀ k < size, Owns t (pa + k))) ∨
    (∃ which, a.translate addr size writing = .exception which ∧ b.translate addr size writing = .exception which) ∨
    (∃ why, a.translate addr size writing = .stop why ∧ b.translate addr size writing = .stop why) := by
  have hb : b = { a with registers := b.registers, mainMemory := b.mainMemory } := by
    have h1 := h.right.tlb.trans h.left.tlb.symm
    have h2 := h.right.table.trans h.left.table.symm
    have h3 := h.size.symm
    cases a; cases b
    simp_all
  have hw := translate_with a b.registers b.mainMemory addr size writing
  rw [← hb] at hw
  cases ha : a.translate addr size writing with
  | exception which => rw [ha] at hw; exact .inr (.inl ⟨which, rfl, hw⟩)
  | stop why => rw [ha] at hw; exact .inr (.inr ⟨why, rfl, hw⟩)
  | ok pa a' =>
    rw [ha] at hw
    obtain ⟨⟨i, rfl⟩, ho, _⟩ := translate_ok h.left.tlb h.left.table ha
    refine .inl ⟨pa, i, rfl, ?_, ho⟩
    rw [hw, hb]
    rfl

theorem readMem_agree (h : Agree a b t) (hr : LandedEarly a.registers b.registers) (addr : Word) (size : Nat) :
    Outcome.Rel (Accessed a.registers b.registers) Trapped (a.readMem bigEndian addr size)
      (b.readMem bigEndian addr size) := by
  unfold Machine.readMem
  rcases translate_agree h addr size false with ⟨pa, i, ha, hb, ho⟩ | ⟨which, ha, hb⟩ | ⟨why, ha, hb⟩ <;>
    rw [ha, hb] <;> dsimp only
  · -- the bytes read are in an own frame, so both machines read the same value
    have hm : readPhys bigEndian (b.touch i false).mainMemory pa size =
        readPhys bigEndian (a.touch i false).mainMemory pa size := by
      by_cases hs : size = 1 ∨ size = 2 ∨ size = 4
      · exact readPhys_congr fun k hk => (h.memory _ (ho hs k hk)).symm
      have hn : ∀ mem, readPhys bigEndian mem pa size = none := fun mem => by
        cases hv : readPhys bigEndian mem pa size with
        | none => rfl
        | some v => exact absurd (readPhys_size hv) hs
      rw [hn, hn]
    rw [hm]
    cases readPhys bigEndian (a.touch i false).mainMemory pa size with
    | none => exact .stop _
    | some v =>
      obtain ⟨t', h', _⟩ := h.touch i false
      exact .done ⟨⟨t', h'⟩, rfl, rfl⟩
  · exact .raised (h.trap hr addr)
  · exact .stop why

theorem writeMem_agree (h : Agree a b t) (hr : LandedEarly a.registers b.registers) (addr : Word) (size : Nat)
    (value : Word) : Outcome.Rel (Accessed a.registers b.registers) Trapped (a.writeMem bigEndian addr size value)
      (b.writeMem bigEndian addr size value) := by
  unfold Machine.writeMem
  rcases translate_agree h addr size true with ⟨pa, i, ha, hb, ho⟩ | ⟨which, ha, hb⟩ | ⟨why, ha, hb⟩ <;>
    rw [ha, hb] <;> dsimp only
  · rcases @writePhys_congr bigEndian (a.touch i true).mainMemory (b.touch i true).mainMemory pa size value
      with ⟨h1, h2⟩ | ⟨ma, mb, h1, h2, hm⟩
    · rw [h1, h2]; exact .stop _
    rw [h1, h2]
    obtain ⟨t', h', _⟩ := h.touch i true
    refine .done ⟨⟨t', ⟨h'.left.tlb, h'.left.table⟩, ⟨h'.right.tlb, h'.right.table⟩, h'.size, fun x hx => ?_⟩, rfl, rfl⟩
    exact hm x (h'.memory x hx)
  · exact .raised (h.trap hr addr)
  · exact .stop why

/-- The two machines after an instruction that completed: they agree, and so do all
    registers, apart from the value of a load into register 0. -/
structure Stepped (m n : Machine) : Prop where
  agree : ∃ t, Agree m n t
  early : LandedEarly m.registers n.registers
  regs : ∀ x, x ≠ loadValueReg → m.registers x = n.registers x

theorem Stepped.of_eq {n : Machine} (h : ∃ t, Agree m n t) (hr : m.registers = n.registers) (hok : RegsOk m.registers) :
    Stepped m n :=
  ⟨h, ⟨hok, hr ▸ hok, by rw [hr], .inl hr⟩, fun x _ => by rw [hr]⟩

theorem perform_agree (h : Agree a b t) (hr : LandedEarly a.registers b.registers) {i : Instruction}
    (hd : i.delayOk a.registers) :
    Outcome.Rel Stepped Trapped (a.perform bigEndian (effect i a.registers)) (b.perform bigEndian (effect i b.registers)) := by
  have hpc : a.registers nextPCReg = b.registers nextPCReg := hr.special (by decide) (by decide) (by decide)
  -- what both machines do once the accesses are made
  have hs : ∀ (n v : Word), n.toNat < numGPRegs → ∀ m m', Accessed a.registers b.registers m m' →
      Stepped { m with registers := retire m.registers n v (a.registers nextPCReg + 4) }
        { m' with registers := retire m'.registers n v (b.registers nextPCReg + 4) } := by
    intro n v hn m m' h'
    obtain ⟨⟨t', h'⟩, h1, h2⟩ := h'
    refine Stepped.of_eq ⟨t', h'.with_registers _ _⟩ ?_ (regsOk_retire _ hn _ _)
    simp only [h1, h2, hpc]
    exact retire_congr hr.same ..
  rcases effect_landedEarly hr hd with he | ⟨addr, size, f, g, ha, hb⟩
  · rw [← he]
    cases hx : effect i a.registers with
    | regs ws pc =>
      refine .done (Stepped.of_eq ⟨t, h.with_registers _ _⟩ ?_ (regsOk_retire _ (by decide) _ _))
      exact retire_landedEarly hr hd hx 0 0 pc
    | load addr size rt f =>
      refine (readMem_agree h hr addr size).bind fun v m m' hm => .done ?_
      exact hs _ _ (by simp; omega) m m' hm
    | store addr size value =>
      exact (writeMem_agree h hr addr size value).bind fun _ m m' hm => .done (hs 0 0 (by decide) m m' hm)
    | merge addr f =>
      refine (readMem_agree h hr addr 4).bind fun v m m' hm => ?_
      obtain ⟨⟨t', h'⟩, h1, h2⟩ := hm
      have hw := @writeMem_agree bigEndian m m' t' h' (by rw [h1, h2]; exact hr) addr 4 (f v)
      rw [h1, h2] at hw
      exact hw.bind fun _ m m' hm => .done (hs 0 0 (by decide) m m' hm)
    | raise which bad => exact .raised (h.trap hr bad)
    | stop why => exact .stop why
  · rw [ha, hb]
    refine (readMem_agree h hr addr size).bind fun v m m' hm => .done ?_
    obtain ⟨⟨t', h'⟩, h1, h2⟩ := hm
    obtain ⟨her, hrg⟩ := retire_zero hr.same (f v) (g v) (a.registers nextPCReg + 4)
    refine ⟨⟨t', h'.with_registers _ _⟩, ?_, ?_⟩
    · simp only [h1, h2, hpc] at her ⊢
      exact her
    · simp only [h1, h2, hpc] at hrg ⊢
      exact hrg

/-- The instruction at the PC, if it can be fetched, may stand in the pending load's delay slot. -/
def Machine.delayOk (bigEndian : Bool) (m : Machine) : Bool :=
  match m.readMem bigEndian (m.registers pcReg) 4 with
  | .done raw _ => (Instruction.decode raw).delayOk m.registers
  | _ => true

/-- An instruction that obeys the delay rule does the same on both machines. -/
theorem oneInstruction_agree (h : Agree a b t) (hr : LandedEarly a.registers b.registers) (hd : a.delayOk bigEndian) :
    Outcome.Rel Stepped Trapped (a.oneInstruction bigEndian) (b.oneInstruction bigEndian) := by
  have hpc : a.registers pcReg = b.registers pcReg := hr.special (by decide) (by decide) (by decide)
  have hf := @readMem_agree bigEndian a b t h hr (a.registers pcReg) 4
  unfold Machine.oneInstruction
  rw [← hpc]
  unfold Machine.delayOk at hd
  generalize a.readMem bigEndian (a.registers pcReg) 4 = x at hd hf ⊢
  generalize b.readMem bigEndian (a.registers pcReg) 4 = y at hf ⊢
  cases hf with
  | done hm =>
    obtain ⟨⟨t', h'⟩, h1, h2⟩ := hm
    exact perform_agree h' (by rw [h1, h2]; exact hr) (by rw [h1]; exact of_decide_eq_true hd)
  | raised hm => exact .raised hm
  | stop why => exact .stop why

end Nachos

/-
  Nachos.Threads.Transparency — multiprogramming is transparent: between two of its own
  traps, a process goes through the same states under any schedule as it would alone.

  `Sys.trace p` is what process `p` goes through in a run: its general registers, Hi, Lo,
  PC, NextPC and virtual memory after each of its instructions, up to its next trap.
  `aloneTrace` is the same for a machine that executes nothing but `p`'s instructions,
  with no interrupt at all. They are compared right after each instruction, before
  `OneTick` can land a pending load: an interrupt lands a load that alone would be pending
  for one instruction more, and the delay rule is what makes that invisible.

  - `step_sim`: every step of the system keeps process `p` in the relation `Sim` with its
    run alone, or is the instruction that both execute.
-/

import Nachos.Threads.Scheduler

namespace Nachos

/-! ## What is observed -/

structure View where
  general : Fin numGPRegs → Word
  hi : Word
  lo : Word
  pc : Word
  nextPC : Word
  memory : Nat → Option Byte

/-- The byte at a virtual address, through a page table of `size` entries. -/
def virtualByte (table : List TranslationEntry) (size : Nat) (mem : Memory) (va : Nat) : Option Byte :=
  if va / pageSize < size then
    (table[va / pageSize]?).map fun e => mem (e.frame * pageSize + va % pageSize)
  else none

def Machine.view (m : Machine) : View :=
  { general := fun x => m.registers (gp x), hi := m.registers hiReg, lo := m.registers loReg,
    pc := m.registers pcReg, nextPC := m.registers nextPCReg,
    memory := virtualByte (m.pageTable.getD []) m.pageTableSize m.mainMemory }

/-- What a process is seen to do in one instruction. -/
inductive Seen where
  | after (v : View)
  | trapped (which : ExceptionType) (v : View)
  | stopped (why : Stop)

def Outcome.seen : Outcome Unit → Seen
  | .done _ m => .after m.view
  | .raised which m => .trapped which m.view
  | .stop why => .stopped why

variable (bigEndian : Bool)

/-- `n` instructions of a process running alone, up to its first trap. -/
def aloneTrace : Nat → Machine → List Seen
  | 0, _ => []
  | n + 1, m =>
    (m.oneInstruction bigEndian).seen :: match m.oneInstruction bigEndian with
      | .done _ m' => aloneTrace n m'
      | _ => []

/-- The first `n` instructions of a process running alone obey the delay rule. -/
def obeysDelayRule : Nat → Machine → Bool
  | 0, _ => true
  | n + 1, m => m.delayOk bigEndian && match m.oneInstruction bigEndian with
      | .done _ m' => obeysDelayRule n m'
      | _ => true

namespace Sys

/-- What process `p` goes through in a run, up to its first trap. -/
def trace (p : Tid) : Sys → List Event → List Seen
  | _, [] => []
  | s, e :: es =>
    let rest := match s.step bigEndian e with
      | .ok s' => s'.trace p es
      | .error _ => []
    match e with
    | .instr =>
      if s.currentThread = p ∧ s.current.mode = .user then
        (s.machine.oneInstruction bigEndian).seen :: match s.machine.oneInstruction bigEndian with
          | .done _ _ => rest
          | _ => []
      else rest
    | _ => rest

/-- Process `p` with the machine to itself. -/
def alone (s : Sys) (p : Tid) : Machine :=
  let a := ((s.threads p).space.map s.spaces).getD { pageTable := [], numPages := 0 }
  { registers := s.userRegs p, mainMemory := s.mainMemory, tlb := none, pageTable := some a.pageTable,
    pageTableSize := a.numPages }

/-! ## The relation between the two runs -/

variable {s s' : Sys} {p : Tid} {a b : SpaceId} {m : Machine}

theorem alone_eq (h : (s.threads p).space = some a) : s.alone p =
      { registers := s.userRegs p, mainMemory := s.mainMemory, tlb := none, pageTable := some (s.spaces a).pageTable,
        pageTableSize := (s.spaces a).numPages } := by
  simp [alone, h]

/-- The machine of the running process is the one it would have alone. -/
theorem WF.machine_eq (h : s.WF) (hc : s.currentThread = p) (ha : (s.threads p).space = some a) :
    s.machine = s.alone p := by
  subst hc
  have := h.loaded a ha
  rw [alone_eq ha]
  simp [machine, userRegs, this.1, this.2]

/-- Machine `m`, which has executed only `p`'s instructions, and `p` in the system. -/
structure Sim (m : Machine) (s : Sys) (p : Tid) (a : SpaceId) : Prop where
  space : (s.threads p).space = some a
  mode : (s.threads p).mode = .user
  agree : Agree m (s.alone p) (s.spaces a).pageTable
  early : LandedEarly m.registers (s.userRegs p)

theorem sim_alone (h : s.WF) (hs : (s.threads p).space = some a) (hm : (s.threads p).mode = .user) :
    Sim (s.alone p) s p a := by
  have hok := h.regs p a hs
  refine ⟨hs, hm, ?_, ?_⟩
  · rw [alone_eq hs]
    exact ⟨⟨rfl, rfl⟩, ⟨rfl, rfl⟩, rfl, fun _ _ => rfl⟩
  · rw [alone_eq hs]
    exact ⟨hok, hok, rfl, .inl rfl⟩

/-- The step leaves process `p` alone, registers apart. -/
structure Untouched (s s' : Sys) (p : Tid) (a : SpaceId) : Prop where
  space : (s'.threads p).space = (s.threads p).space
  mode : (s'.threads p).mode = (s.threads p).mode
  table : s'.spaces a = s.spaces a
  memory : ∀ x, Owns (s.spaces a).pageTable x → s'.mainMemory x = s.mainMemory x

theorem Sim.untouched (h : Sim m s p a) (hu : Untouched s s' p a) (hr : LandedEarly m.registers (s'.userRegs p)) :
    Sim m s' p a := by
  have hsp := hu.space.trans h.space
  refine ⟨hsp, hu.mode.trans h.mode, ?_, hr⟩
  have hag := h.agree
  rw [alone_eq h.space] at hag
  rw [alone_eq hsp, hu.table]
  exact ⟨hag.left, ⟨rfl, rfl⟩, hag.size, fun x hx => (hag.memory x hx).trans (hu.memory x hx).symm⟩

theorem Sim.run (h : Sim m s p a) (n : Tid) : Sim m (s.run n) p a :=
  h.untouched ⟨by simp, by simp, by simp, by simp⟩ (by rw [run_userRegs s n h.space]; exact h.early)

theorem Sim.checkIfDue (h : Sim m s p a) : Sim m s.checkIfDue p a := by
  refine h.untouched ⟨rfl, rfl, rfl, fun _ _ => rfl⟩ ?_
  rw [checkIfDue_userRegs]
  split
  · exact h.early.interrupt
  · exact h.early

theorem Sim.oneTick (h : Sim m s p a) (due : List Interrupt) (next : Option Tid) : Sim m (s.oneTick due next) p a := by
  have hd : ∀ (l : List Interrupt) {s : Sys}, Sim m s p a → Sim m (l.foldl (fun s _ => s.checkIfDue) s) p a := by
    intro l
    induction l with
    | nil => exact fun h => h
    | cons _ l ih => exact fun h => ih h.checkIfDue
  unfold Sys.oneTick
  dsimp only
  split
  · cases next with
    | none => exact hd due h
    | some n => exact (hd due h).run n
  · exact hd due h

theorem Sim.setMode (h : Sim m s p a) (hc : s.currentThread ≠ p) (mode : Mode) : Sim m (s.setMode mode) p a := by
  obtain ⟨h1, _, h3⟩ := setMode_threads s mode p
  rw [if_neg (Ne.symm hc)] at h3
  exact h.untouched ⟨h1, h3, rfl, fun _ _ => rfl⟩ (by rw [setMode_userRegs]; exact h.early)

/-- Another process's frames are not `p`'s. -/
theorem WF.not_owns (h : s.WF) (hc : s.currentThread ≠ p) (hp : (s.threads p).space = some a)
    (hb : s.current.space = some b) : a ≠ b ∧ ∀ x, Owns (s.spaces a).pageTable x → ¬ Owns (s.spaces b).pageTable x := by
  obtain ⟨h1, h2⟩ := h.apart p s.currentThread a b (Ne.symm hc) hp hb
  exact ⟨h1, fun x hx => h2 _ hx⟩

theorem Sim.putMachine (hwf : s.WF) (h : Sim m s p a) (hc : s.currentThread ≠ p) (hb : s.current.space = some b)
    {m' : Machine} (hk : Kept s.machine m') : Sim m (s.putMachine m') p a := by
  obtain ⟨_, hsp, hm, _⟩ := putMachine_kept hwf hb hk
  obtain ⟨hne, ho⟩ := hwf.not_owns hc h.space hb
  refine h.untouched ⟨rfl, rfl, hsp a hne, fun x hx => hm x (ho x hx)⟩ ?_
  have := h.early
  unfold userRegs at this ⊢
  rw [if_neg hc] at this
  rw [if_neg (show (s.putMachine m').currentThread ≠ p from hc)]
  exact this

theorem Sim.kernelStep (hwf : s.WF) (h : Sim m s p a) (hc : s.currentThread ≠ p) (registers : Regs) (memory : Memory) :
    Sim m (s.kernelStep registers memory) p a := by
  unfold Sys.kernelStep
  split
  · refine h.untouched ⟨rfl, rfl, rfl, fun x hx => ?_⟩ ?_
    · cases hb : s.current.space with
      | none => rfl
      | some b => exact if_neg ((hwf.not_owns hc h.space hb).2 x hx)
    · have := h.early
      unfold userRegs at this ⊢
      rw [if_neg hc] at this
      rwa [if_neg hc]
  · exact h

variable {bigEndian : Bool}

/-- A step that is not an instruction of `p` leaves `p` where it was. -/
theorem step_sim (hwf : s.WF) (h : Sim m s p a) {e : Event} (hne : ¬ (e = .instr ∧ s.currentThread = p))
    (hs : s.step bigEndian e = .ok s') : Sim m s' p a := by
  -- kernel mode rules out that `p` is the current thread
  have hkr : s.current.mode = .kernel → s.currentThread ≠ p := by
    intro hm heq
    subst heq
    have := h.mode
    unfold current at hm
    rw [hm] at this
    cases this
  cases e with
  | instr =>
    have hc : s.currentThread ≠ p := fun e => hne ⟨rfl, e⟩
    simp only [step] at hs
    split at hs
    · rename_i hm
      obtain ⟨b, hb⟩ := Option.isSome_iff_exists.mp (hwf.space _ hm)
      have hk := @oneInstruction_keeps _ bigEndian _ (hwf.onTable hb)
      cases ho : s.machine.oneInstruction bigEndian with
      | done u m' =>
        rw [ho] at hs hk; cases hs
        exact h.putMachine hwf hc hb hk
      | raised which m' =>
        rw [ho] at hs hk; cases hs
        exact (h.putMachine hwf hc hb hk).setMode hc _
      | stop why => rw [ho] at hs; cases hs
    · cases hs; exact h
  | tick due next => cases hs; exact h.oneTick due next
  | switch next =>
    cases hs
    split
    · exact h.run next
    · exact h
  | kernel registers memory =>
    cases hs
    split
    · rename_i hm; exact h.kernelStep hwf (hkr hm) registers memory
    · exact h
  | resume =>
    cases hs
    split
    · rename_i hm; exact h.setMode (hkr hm.1) _
    · exact h

/-! ## The instruction both execute -/

theorem virtualByte_congr {t : List TranslationEntry} {a b : Memory} (h : ∀ x, Owns t x → a x = b x) (n : Nat) :
    virtualByte t n a = virtualByte t n b := by
  funext va
  unfold virtualByte
  split
  · cases hg : t[va / pageSize]? with
    | none => rfl
    | some e =>
      have : Owns t (e.frame * pageSize + va % pageSize) := by
        have hlt := Nat.mod_lt va (show 0 < pageSize by decide)
        rw [Owns, Nat.mul_comm, Nat.mul_add_div (by decide), Nat.div_eq_of_lt hlt, Nat.add_zero]
        exact List.mem_map_of_mem (List.mem_of_getElem? hg)
      simp [h _ this]
  · rfl

theorem view_eq {n : Machine} (h : ∃ t, Agree m n t) (hr : ∀ x, x ≠ loadValueReg → m.registers x = n.registers x) :
    m.view = n.view := by
  obtain ⟨t, h⟩ := h
  unfold Machine.view
  rw [h.left.table, h.right.table, h.size, Option.getD_some, virtualByte_congr h.memory]
  have hg : (fun x => m.registers (gp x)) = fun x => n.registers (gp x) :=
    funext fun x => hr _ (gp_ne (by decide))
  rw [hg, hr hiReg (by decide), hr loReg (by decide), hr pcReg (by decide), hr nextPCReg (by decide)]

/-- Both runs execute `p`'s next instruction: the same is seen, and the relation is kept
    when it completes. -/
theorem instr_sim (hwf : s.WF) (h : Sim m s p a) (hc : s.currentThread = p) (hd : m.delayOk bigEndian) :
    (m.oneInstruction bigEndian).seen = (s.machine.oneInstruction bigEndian).seen ∧
    ((∃ m' n, m.oneInstruction bigEndian = .done () m' ∧ s.machine.oneInstruction bigEndian = .done () n ∧
        s.step bigEndian .instr = .ok (s.putMachine n) ∧ Sim m' (s.putMachine n) p a) ∨
      ((∀ m', m.oneInstruction bigEndian ≠ .done () m') ∧
        ∀ n, s.machine.oneInstruction bigEndian ≠ .done () n)) := by
  have hm : s.current.mode = .user := by rw [current, hc]; exact h.mode
  have ha : s.current.space = some a := by rw [current, hc]; exact h.space
  have hr := @oneInstruction_agree bigEndian m s.machine _ (hwf.machine_eq hc h.space ▸ h.agree)
    (by rw [hwf.machine_eq hc h.space, alone_eq h.space]; exact h.early) hd
  have hk := @oneInstruction_keeps _ bigEndian _ (hwf.onTable ha)
  generalize hx : m.oneInstruction bigEndian = x at hr
  generalize hy : s.machine.oneInstruction bigEndian = y at hr hk
  cases hr with
  | @done _ m' n hst =>
    refine ⟨congrArg Seen.after (view_eq hst.agree hst.regs), .inl ⟨m', n, rfl, rfl, ?_, ?_⟩⟩
    · simp [step, hm, hy]
    obtain ⟨_, _, _, ht⟩ := putMachine_kept hwf ha hk
    have hn : (s.putMachine n).alone p = n := by
      have hs : n.pageTableSize = ((s.putMachine n).spaces a).numPages := by
        rw [((putMachine_kept hwf ha hk).1 a).2]
        exact hk.size.trans (hwf.loaded a ha).2
      have htl : n.tlb = none := hk.tlb
      rw [alone_eq (s := s.putMachine n) (a := a) h.space, ← ht, ← hs, ← htl]
      simp [userRegs, Sys.putMachine, hc]
    refine ⟨h.space, h.mode, ?_, ?_⟩
    · obtain ⟨t, hag⟩ := hst.agree
      rw [hn]
      obtain rfl : t = ((s.putMachine n).spaces a).pageTable := Option.some.inj (hag.right.table.symm.trans ht)
      exact hag
    · have : (s.putMachine n).userRegs p = n.registers := by simp [userRegs, Sys.putMachine, hc]
      rw [this]
      exact hst.early
  | raised ht =>
    refine ⟨congrArg (Seen.trapped _) (view_eq ht.1 fun x _ => by rw [ht.2]), .inr ⟨?_, ?_⟩⟩ <;> intro _ e <;> cases e
  | stop why => refine ⟨rfl, .inr ⟨?_, ?_⟩⟩ <;> intro _ e <;> cases e

/-! ## The traces -/

/-- Along any run, process `p` is seen to do what it does alone. -/
theorem trace_sim (es : List Event) : ∀ {m : Machine} {s : Sys} {p : Tid} {a : SpaceId}, s.WF → Sim m s p a →
    obeysDelayRule bigEndian (s.trace bigEndian p es).length m →
    s.trace bigEndian p es = aloneTrace bigEndian (s.trace bigEndian p es).length m := by
  induction es with
  | nil => intros; rfl
  | cons e es ih =>
    intro m s p a hwf h hd
    by_cases hp : e = .instr ∧ s.currentThread = p
    · obtain ⟨rfl, hc⟩ := hp
      have hm : s.current.mode = .user := by rw [current, hc]; exact h.mode
      simp only [trace, hc, hm, true_and, if_true, List.length_cons, aloneTrace, obeysDelayRule,
        Bool.and_eq_true] at hd ⊢
      obtain ⟨hsn, hn⟩ := instr_sim hwf h hc hd.1
      rw [hsn]
      congr 1
      rcases hn with ⟨m', n, hx, hy, hst, hsm⟩ | ⟨hx, hy⟩
      · simp only [hx, hy, hst] at hd ⊢
        exact ih (step_wf hwf hst) hsm hd.2
      -- a trap ends both traces
      cases hx' : m.oneInstruction bigEndian with
      | done _ m' => exact absurd hx' (hx m')
      | _ => cases hy' : s.machine.oneInstruction bigEndian with
        | done _ n => exact absurd hy' (hy n)
        | _ => rfl
    · have htr : s.trace bigEndian p (e :: es) = match s.step bigEndian e with
          | .ok s' => s'.trace bigEndian p es
          | .error _ => [] := by
        cases e with
        | instr =>
          have hc : s.currentThread ≠ p := fun e => hp ⟨rfl, e⟩
          simp [trace, hc]
        | _ => rfl
      rw [htr] at hd ⊢
      cases hs : s.step bigEndian e with
      | error why => rfl
      | ok s' =>
        simp only [hs] at hd
        exact ih (step_wf hwf hs) (step_sim hwf h hp hs) hd

/-- For every well-formed set of processes and every schedule, what process `p` goes
    through up to its next trap is what it would go through alone. -/
theorem multiprogramming_transparent (bigEndian : Bool) {s : Sys} (hwf : s.WF) {p : Tid}
    (hm : (s.threads p).mode = .user) (schedule : List Event)
    (hd : obeysDelayRule bigEndian (s.trace bigEndian p schedule).length (s.alone p)) :
    s.trace bigEndian p schedule = aloneTrace bigEndian (s.trace bigEndian p schedule).length (s.alone p) := by
  obtain ⟨a, ha⟩ := Option.isSome_iff_exists.mp (hwf.space p hm)
  exact trace_sim schedule hwf (sim_alone hwf ha hm) hd

/-- Two one-page programs in frames 0 and 1; the first is `lw $4,64($0); addiu $5,$0,7`
    and no-ops, the second only no-ops. -/
def twoPrograms : Sys :=
  let program : List Byte := [0x40, 0x00, 0x04, 0x8c, 0x07, 0x00, 0x05, 0x24]
  let space := fun frame => { pageTable := [freshEntry 0 frame], numPages := 1 : AddrSpace }
  let thread := fun t => { userRegisters := (space 0).initRegisters, space := some t, mode := .user : UserThread }
  { registers := (space 0).initRegisters, mainMemory := fun a => if a = 64 then 42 else program.getD a 0,
    pageTable := some 0, pageTableSize := 1, currentThread := 0,
    threads := fun t => if t < 2 then thread t else { thread t with space := none, mode := .kernel },
    spaces := fun a => space a }

theorem twoPrograms_wf : twoPrograms.WF := by
  have hsp : ∀ t a, (twoPrograms.threads t).space = some a → t = a ∧ t < 2 := by
    intro t a h
    simp only [twoPrograms] at h
    split at h
    · cases h; exact ⟨rfl, by assumption⟩
    · cases h
  have hfr : ∀ a < 2, twoPrograms.framesAt a = [a] := by decide
  have hin : RegsOk (AddrSpace.initRegisters { pageTable := [freshEntry 0 0], numPages := 1 }) :=
    ⟨by decide, by decide⟩
  refine ⟨?_, ?_, ?_, ?_, ?_⟩
  · intro t t' a a' ht ha ha'
    obtain ⟨rfl, h⟩ := hsp t a ha
    obtain ⟨rfl, h'⟩ := hsp t' a' ha'
    rw [hfr t h, hfr t' h']
    exact ⟨ht, by simpa using ht⟩
  · intro t a ha x hx
    obtain ⟨rfl, h⟩ := hsp t a ha
    rw [hfr t h] at hx
    obtain rfl : x = t := by simpa using hx
    exact Nat.lt_of_lt_of_le h (by decide)
  · intro a ha
    obtain ⟨rfl, _⟩ := hsp 0 a ha
    exact ⟨rfl, rfl⟩
  · intro t ht
    simp only [twoPrograms] at ht ⊢
    split at ht
    · rename_i h; simp [h]
    · cases ht
  · intro t a ha
    have : twoPrograms.userRegs t = AddrSpace.initRegisters { pageTable := [freshEntry 0 0], numPages := 1 } := by
      simp only [userRegs, twoPrograms]
      split
      · rfl
      · split <;> rfl
    rw [this]
    exact hin

/-- A timer interrupt between the load and its delay slot lands the load early; the other
    program runs; the first is seen to do what it does alone. -/
theorem transparent_across_a_load :
    let schedule := [.instr, .tick [.timer] (some 1), .instr, .tick [.timer] (some 0), .instr, .instr]
    (twoPrograms.trace false 0 schedule).length = 3 ∧
      twoPrograms.trace false 0 schedule = aloneTrace false 3 (twoPrograms.alone 0) := by
  have hlen : (twoPrograms.trace false 0
      [.instr, .tick [.timer] (some 1), .instr, .tick [.timer] (some 0), .instr, .instr]).length = 3 := by
    decide +kernel
  have h := multiprogramming_transparent false twoPrograms_wf (p := 0) rfl
    [.instr, .tick [.timer] (some 1), .instr, .tick [.timer] (some 0), .instr, .instr]
    (by rw [hlen]; decide +kernel)
  exact ⟨hlen, hlen ▸ h⟩

end Sys

end Nachos

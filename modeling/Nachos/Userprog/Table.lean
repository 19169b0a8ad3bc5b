/-
  Nachos.Userprog.Table — the process table without its semaphores.

  Most steps of the kernel only move a thread on and change semaphores and counters. `Table`
  keeps what the rest of a step changes: the slots and the bitmap, which PCBs are alive,
  whom they belong to, and the address spaces. `step_effect` says once what a step can do
  to it, and every invariant of slots, parents and frames is proved on the cases of
  `Effect`, not on the code.
-/

import Nachos.Lib.Stores
import Nachos.Userprog.PTable

namespace Nachos

open Function (comp_update update update_eq_self)

/-- Whom a PCB belongs to. -/
structure Ident where
  thread : Option Tid
  parentID : Int
  creator : Tid
  deriving DecidableEq, Repr

def PCB.ident (b : PCB) : Ident := ⟨b.thread, b.parentID, b.creator⟩

@[simp] theorem PCB.ident_setSem (b : PCB) (x : Semaphore) (s : Sem) : (b.setSem x s).ident = b.ident := by
  cases s <;> rfl

/-- What a thread is doing with the table: it has not started, it does nothing, it makes
    the PCB at `p` a process, or it leaves, in `DecNumWait` of the PCB at `parent` or past
    it. -/
inductive Role where
  | fresh
  | free
  | forking (index : Nat) (p : Ptr)
  | exiting (parent : Option Ptr)
  deriving DecidableEq, Repr

def Pc.role : Pc → Role
  | .start => .fresh
  | .execFork index p => .forking index p
  | .exitP p | .exitDec p => .exiting (some p)
  | .exitRelease | .exitCall | .exitWait _ | .exitRemove => .exiting none
  | _ => .free

structure Proc where
  processID : Nat
  space : Option SpaceId
  role : Role
  deriving DecidableEq, Repr

def Thread.proc (th : Thread) : Proc := ⟨th.processID, th.space, th.pc.role⟩

structure Table where
  bm : BitMap
  pcb : Nat → Option Ptr
  live : Ptr → Option Ident
  nextPtr : Ptr
  procs : Tid → Option Proc
  nextTid : Tid
  frames : BitMap
  spaces : SpaceId → Option AddrSpace
  nextSpace : SpaceId
  halted : Bool

namespace Kernel

open Lib

def table (k : Kernel) : Table :=
  { bm := k.bm, pcb := k.pcb, live := Option.map PCB.ident ∘ k.heap, nextPtr := k.nextPtr,
    procs := Option.map Thread.proc ∘ k.threads, nextTid := k.nextTid, frames := k.gPhysPageBitMap,
    spaces := k.spaces, nextSpace := k.nextSpace, halted := k.halted }

variable {k k' : Kernel} {t : Tid} {th : Thread} {p : Ptr} {b : PCB} {s : Sem} {name : Option String}
  {self : String}

theorem table_live (h : k.heap p = some b) : k.table.live p = some b.ident := by simp [table, h]

theorem table_procs (h : k.threads t = some th) : k.table.procs t = some th.proc := by simp [table, h]

theorem live_eq_some {c : Ident} : k.table.live p = some c ↔ ∃ b, k.heap p = some b ∧ b.ident = c := by simp [table]

theorem procs_eq_some {pr : Proc} : k.table.procs t = some pr ↔ ∃ th, k.threads t = some th ∧ th.proc = pr := by
  simp [table]

@[simp] theorem table_setPCB : (k.setPCB p b).table =
    { k.table with live := update k.table.live p (some b.ident) } := by
  simp [table, comp_update]

@[simp] theorem table_setThread : (k.setThread t th).table =
    { k.table with procs := update k.table.procs t (some th.proc) } := by
  simp [table, comp_update]

@[simp] theorem table_ready (woken : Option Tid) : (k.ready woken).table = k.table := by
  have h : Option.map Thread.proc ∘ (k.ready woken).threads = Option.map Thread.proc ∘ k.threads := by
    funext u
    cases hu : k.threads u with
    | none => simp [hu]
    | some th => by_cases hw : woken = some u <;> simp [hu, hw, Thread.proc]
  simp only [table, h, ready_bm, ready_pcb, ready_heap, ready_nextPtr, ready_nextTid, ready_gPhysPageBitMap,
    ready_spaces, ready_nextSpace, ready_halted]

/-- Writing back the same owner changes nothing. -/
theorem live_self (h : k.heap p = some b) : update k.table.live p (some b.ident) = k.table.live := by
  rw [← table_live h, update_eq_self]

theorem procs_self (h : k.threads t = some th) :
    update k.table.procs t (some th.proc) = k.table.procs := by
  rw [← table_procs h, update_eq_self]

/-- `P` changes only the thread's place. -/
theorem semP_table {waiting next : Pc} (h : k.semP t th p s waiting next = .ok k') (hr : waiting.role = next.role) :
    k'.table = { k.table with procs := update k.table.procs t (some { th.proc with role := next.role }) } := by
  obtain ⟨b, hb, rfl⟩ := semP_ok.mp h
  rw [table_setThread, table_setPCB, PCB.ident_setSem, live_self hb]
  by_cases hp : ((b.sem s).p t).2 <;> simp [hp, Thread.proc, hr]

theorem semV_table {f : PCB → PCB} (h : k.semV t th p s f = .ok k') (hf : ∀ b, (f b).ident = b.ident) :
    k'.table = { k.table with procs := update k.table.procs t (some th.proc) } := by
  obtain ⟨b, hb, rfl⟩ := semV_ok.mp h
  rw [table_ready, table_setThread, table_setPCB, PCB.ident_setSem, hf, live_self hb]

/-! ## What a step is -/

/-- A `P` of the event's thread: the semaphore, where the thread sleeps and where it goes on. -/
inductive WaitsAt (k : Kernel) (e : Event) (th : Thread) : Ptr → Sem → Pc → Pc → Prop
  | joinUpdate {id : Int} {p q : Ptr} {b : PCB} : e = .join e.tid id → th.pc = .user → 0 ≤ id →
      k.pcb id.toNat = some q → k.heap q = some b → b.parentID = th.processID → k.pcb th.processID = some p →
      WaitsAt k e th p .multex (.joinP id.toNat p) (.joinInc id.toNat p)
  | joinP {id : Nat} {p : Ptr} : th.pc = .joinP id p → WaitsAt k e th p .multex (.joinP id p) (.joinInc id p)
  | joinCall {id : Nat} {q : Ptr} : th.pc = .joinCall id → k.pcb id = some q →
      WaitsAt k e th q .joinsem (.joinWait id q) (.joinRead id)
  | joinWait {id : Nat} {q : Ptr} : th.pc = .joinWait id q →
      WaitsAt k e th q .joinsem (.joinWait id q) (.joinRead id)
  | exitP {p : Ptr} : th.pc = .exitP p → WaitsAt k e th p .multex (.exitP p) (.exitDec p)
  | exitCall {q : Ptr} : th.pc = .exitCall → k.pcb th.processID = some q →
      WaitsAt k e th q .exitsem (.exitWait q) .exitRemove
  | exitWait {q : Ptr} : th.pc = .exitWait q → WaitsAt k e th q .exitsem (.exitWait q) .exitRemove

/-- A `V`: the thread after it, the semaphore, and what the PCB's data become before. -/
inductive SignalsAt (k : Kernel) (e : Event) (th : Thread) : Thread → Ptr → Sem → (PCB → PCB) → Prop
  | execUnlock {i : Nat} {p : Ptr} : th.pc = .execUnlock i p →
      SignalsAt k e th { th with pc := .execV i } p .multex fun b => b
  | joinInc {id : Nat} {p : Ptr} : e = .cont e.tid → th.pc = .joinInc id p →
      SignalsAt k e th { th with pc := .joinCall id } p .multex fun b => { b with numwait := b.numwait + 1 }
  | joinRead {id : Nat} {q : Ptr} {w : Word} : th.pc = .joinRead id → k.pcb id = some q →
      SignalsAt k e th (ret th w) q .exitsem fun b => b
  | exitDec {p : Ptr} : e = .cont e.tid → th.pc = .exitDec p →
      SignalsAt k e th { th with pc := .exitRelease } p .multex fun b => { b with numwait := b.numwait - 1 }
  | exitRelease {q : Ptr} : th.pc = .exitRelease → k.pcb th.processID = some q →
      SignalsAt k e th { th with pc := .exitCall } q .joinsem fun b => b

/-- What the event's thread does in a step, with the guards of the code. -/
inductive Move (bigEndian : Bool) (k : Kernel) (e : Event) (th : Thread) (k' : Kernel) : Prop
  | stay (h : k' = k)
  | p {p : Ptr} {s : Sem} {waiting next : Pc} (hw : WaitsAt k e th p s waiting next)
      (h : k.semP e.tid th p s waiting next = .ok k')
  | v {th' : Thread} {p : Ptr} {s : Sem} {f : PCB → PCB} (hs : SignalsAt k e th th' p s f)
      (h : k.semV e.tid th' p s f = .ok k')
  | start {c : Ctor} {executable : Option OpenFile} {junk : AddrSpace} {stack : Memory} {b : Built}
      (hpc : th.pc = .start) (he : e = .start e.tid c executable junk stack)
      (hb : b = AddrSpace.construct bigEndian junk stack k.gPhysPageBitMap c executable) (hend : b.ending ≠ .assertFails)
      (h : k' = { k with
        gPhysPageBitMap := b.bitmap, spaces := update k.spaces k.nextSpace (some b.space),
        nextSpace := k.nextSpace + 1 }.setThread e.tid { th with pc := .user, space := some k.nextSpace })
  | execP {name : Option String} {self : String} (hpc : th.pc = .user ∨ th.pc = .execP name self)
      (h : k' = k.execP e.tid th name self)
  /-- `ExecUpdate` returns: the table is full, or the process is made. -/
  | execV {w : Word} (hpc : (∃ name self, th.pc = .execSlot name self) ∨ ∃ i, th.pc = .execV i)
      (h : k' = k.execV e.tid th w)
  /-- It has marked slot `i` and rejects the name. -/
  | leak {name : Option String} {self : String} {i : Nat} {r : List Nat} (he : e = .cont e.tid)
      (hpc : th.pc = .execSlot name self) (hc : k.bm.clearBits = i :: r) (hrej : rejects name i self)
      (h : k' = { k with bm := k.bm.markBit i }.execV e.tid th (-1))
  | reserve {name : Option String} {self : String} {i : Nat} {r : List Nat} (hpc : th.pc = .execSlot name self)
      (hc : k.bm.clearBits = i :: r) (hrej : rejects name i self = false)
      (h : k' = ({ k with bm := k.bm.markBit i, pcb := update k.pcb i (some k.nextPtr), nextPtr := k.nextPtr + 1 }.setPCB
        k.nextPtr { PCB.new i e.tid with parentID := th.processID, multex := ((Semaphore.new 1).p e.tid).1 }).setThread
          e.tid { th with pc := .execFork i k.nextPtr })
  | fork {i : Nat} {p : Ptr} {b : PCB} (hpc : th.pc = .execFork i p) (hb : k.heap p = some b)
      (h : k' = (({ k with nextTid := k.nextTid + 1 }.setPCB p
        { b with thread := some k.nextTid, parentID := th.processID }).setThread k.nextTid ⟨i, .start, false, none, 0⟩).setThread
          e.tid { th with pc := .execUnlock i p })
  /-- `JoinUpdate` returns -1. -/
  | refuse (hpc : th.pc = .user) (h : k' = k.setThread e.tid (ret th (-1)))
  /-- A process other than the main one has called `ExitUpdate`: the exit code goes into
      its own PCB, the `P` is on its parent's. -/
  | exits {q p : Ptr} {b c : PCB} {ec : Word} (hpc : th.pc = .user) (h0 : th.processID ≠ 0)
      (hq : k.pcb th.processID = some q) (hb : k.heap q = some b) (hlo : 0 ≤ b.parentID)
      (hp : k.pcb b.parentID.toNat = some p) (hc : (k.setPCB q { b with exitcode := ec }).heap p = some c)
      (h : (k.setPCB q { b with exitcode := ec }).semP e.tid th p .multex (.exitP p) (.exitDec p) = .ok k')
  /-- `ExitFunction` after an `ExitUpdate` that found no process or no PCB. -/
  | finish {bm frames : BitMap} {spaces : SpaceId → Option AddrSpace}
      (hcase : (th.processID ≠ 0 ∧ k.bm.bit th.processID = false ∧ bm = k.bm) ∨
        (th.pc = .exitRemove ∧ k.pcb th.processID = none ∧ bm = k.bm.clearBit th.processID))
      (hf : Freed k.gPhysPageBitMap k.spaces th.space frames spaces)
      (h : k' = { k with bm, gPhysPageBitMap := frames, spaces, threads := update k.threads e.tid none })
  | remove {q : Ptr} {b : PCB} {frames : BitMap} {spaces : SpaceId → Option AddrSpace} (he : e = .cont e.tid)
      (hpc : th.pc = .exitRemove) (hlt : th.processID < k.bm.numBits) (hq : k.pcb th.processID = some q)
      (hb : k.heap q = some b) (hf : Freed k.gPhysPageBitMap k.spaces th.space frames spaces)
      (h : k' = { k with
        bm := k.bm.clearBit th.processID, heap := update k.heap q none, gPhysPageBitMap := frames, spaces,
        threads := update k.threads e.tid none })
  /-- The main process exits, or a program halts the machine. -/
  | halt {frames : BitMap} {spaces : SpaceId → Option AddrSpace}
      (hf : Freed k.gPhysPageBitMap k.spaces th.space frames spaces ∨ (frames = k.gPhysPageBitMap ∧ spaces = k.spaces))
      (h : k' = { k with gPhysPageBitMap := frames, spaces, halted := true })

section

variable {bigEndian : Bool} {e : Event}

theorem execSlot_move (he : e = .cont e.tid) (hpc : th.pc = .execSlot name self) :
    Move bigEndian k e th (k.execSlot e.tid th name self) := by
  cases hc : k.bm.clearBits with
  | nil =>
    have hr : rejects name (-1) self = true := by simp [rejects]
    simp only [execSlot, k.bm.find_nil hc, hr, if_true]
    exact .execV (.inl ⟨name, self, hpc⟩) rfl
  | cons i r =>
    simp only [execSlot, k.bm.find_cons hc]
    split
    · rename_i hr
      exact .leak he hpc hc hr rfl
    · rename_i hr
      exact .reserve hpc hc (by simpa using hr) rfl

theorem joinUpdate_move {id : Int} (he : e = .join e.tid id) (hpc : th.pc = .user)
    (h : k.joinUpdate e.tid th id = .ok k') : Move bigEndian k e th k' := by
  unfold joinUpdate at h
  split at h
  · cases h
    exact .refuse hpc rfl
  obtain ⟨⟨q, b⟩, hq, h⟩ := bind_eq_ok.mp h
  dsimp only at h
  split at h
  · cases h
    exact .refuse hpc rfl
  rename_i hpr
  obtain ⟨⟨p, _⟩, hp, h⟩ := bind_eq_ok.mp h
  obtain ⟨⟨hps, -⟩, hq, hb⟩ := slot_ok.mp hq
  have hpr : b.parentID = th.processID := (Classical.not_not.mp hpr).symm
  rw [hpr] at hp
  exact .p (.joinUpdate he hpc hps hq hb hpr (slot_ok.mp hp).2.1) h

theorem exitUpdate_move {ec : Word} (hpc : th.pc = .user) (h : k.exitUpdate e.tid th ec = .ok k') :
    Move bigEndian k e th k' := by
  unfold exitUpdate at h
  split at h
  · obtain ⟨k1, h1, h⟩ := bind_eq_ok.mp h
    obtain ⟨frames, spaces, hf, rfl⟩ := freeSpace_ok h1
    cases h
    exact .halt (.inl hf) rfl
  · rename_i h0
    split at h
    · cases h
    · rename_i hbt
      obtain ⟨frames, spaces, hf, rfl⟩ := finish_ok h
      simp only [BitMap.test, Option.ite_none_right_eq_some] at hbt
      exact .finish (.inl ⟨h0, by simpa using hbt.2, rfl⟩) hf rfl
    · obtain ⟨⟨q, b⟩, hq, h⟩ := bind_eq_ok.mp h
      obtain ⟨⟨p, c⟩, hp, h⟩ := bind_eq_ok.mp h
      obtain ⟨-, hq, hb⟩ := slot_ok.mp hq
      obtain ⟨⟨hlo, -⟩, hp, hc⟩ := slot_ok.mp hp
      exact .exits hpc h0 hq hb hlo hp hc h

theorem exitRemove_move (he : e = .cont e.tid) (hpc : th.pc = .exitRemove) (h : k.exitRemove e.tid th = .ok k') :
    Move bigEndian k e th k' := by
  unfold exitRemove at h
  split at h
  · cases h
  rename_i bm hbm
  obtain ⟨hlt, rfl⟩ : th.processID < k.bm.numBits ∧ k.bm.clearBit th.processID = bm := by
    simpa [BitMap.clear, BitMap.inRange] using hbm
  dsimp only at h
  split at h
  · rename_i hq
    obtain ⟨frames, spaces, hf, rfl⟩ := finish_ok h
    exact .finish (.inr ⟨hpc, hq, rfl⟩) hf rfl
  · rename_i q hq
    obtain ⟨b, hb, h⟩ := bind_eq_ok.mp h
    split at h
    · obtain ⟨frames, spaces, hf, rfl⟩ := finish_ok h
      exact .remove he hpc hlt hq (deref_ok.mp hb) hf rfl
    · cases h

theorem cont_move (he : e = .cont e.tid) (h : k.cont e.tid th = .ok k') : Move bigEndian k e th k' := by
  unfold cont at h
  split at h
  case h_1 | h_2 => cases h; exact .stay rfl
  case h_3 name self hpc => cases h; exact .execP (.inr hpc) rfl
  case h_4 name self hpc => cases h; exact execSlot_move he hpc
  case h_5 i p hpc =>
    obtain ⟨b, hb, h⟩ := bind_eq_ok.mp h
    cases h
    exact .fork hpc (deref_ok.mp hb) rfl
  case h_6 i p hpc => exact .v (.execUnlock hpc) h
  case h_7 i hpc => cases h; exact .execV (.inr ⟨i, hpc⟩) rfl
  case h_8 id p hpc => exact .p (.joinP hpc) h
  case h_9 id p hpc => exact .v (.joinInc he hpc) h
  case h_10 id hpc =>
    obtain ⟨⟨q, _⟩, hq, h⟩ := bind_eq_ok.mp h
    exact .p (.joinCall hpc (slot_ok.mp hq).2.1) h
  case h_11 id q hpc => exact .p (.joinWait hpc) h
  case h_12 id hpc =>
    obtain ⟨⟨q, _⟩, hq, h⟩ := bind_eq_ok.mp h
    exact .v (.joinRead hpc (slot_ok.mp hq).2.1) h
  case h_13 p hpc => exact .p (.exitP hpc) h
  case h_14 p hpc => exact .v (.exitDec he hpc) h
  case h_15 hpc =>
    obtain ⟨⟨q, _⟩, hq, h⟩ := bind_eq_ok.mp h
    exact .v (.exitRelease hpc (slot_ok.mp hq).2.1) h
  case h_16 hpc =>
    obtain ⟨⟨q, _⟩, hq, h⟩ := bind_eq_ok.mp h
    exact .p (.exitCall hpc (slot_ok.mp hq).2.1) h
  case h_17 q hpc => exact .p (.exitWait hpc) h
  case h_18 hpc => exact exitRemove_move he hpc h

theorem startProcess_move {c : Ctor} {executable : Option OpenFile} {junk : AddrSpace} {stack : Memory}
    (hpc : th.pc = .start) (he : e = .start e.tid c executable junk stack)
    (h : k.startProcess e.tid th (AddrSpace.construct bigEndian junk stack k.gPhysPageBitMap c executable) = .ok k') :
    Move bigEndian k e th k' := by
  generalize hk : AddrSpace.construct bigEndian junk stack k.gPhysPageBitMap c executable = b at h
  unfold startProcess at h
  split at h
  · cases h
  all_goals
    rename_i hen
    split at h
    · cases h
      exact .start hpc he hk.symm (by rw [hen]; decide) rfl
    · cases h

theorem step_move (h : step bigEndian k e = .ok k') :
    k' = k ∨ ∃ th, k.threads e.tid = some th ∧ Move bigEndian k e th k' := by
  unfold step at h
  split at h
  · cases h; exact .inl rfl
  split at h
  case h_2 => cases h; exact .inl rfl
  rename_i th ht
  split at h
  · cases h; exact .inl rfl
  refine .inr ⟨th, ht, ?_⟩
  unfold act at h
  split at h
  case h_7 => exact cont_move rfl h
  all_goals split at h
  -- the thread is not where the event needs it
  any_goals cases h; exact .stay rfl
  all_goals rename_i hpc
  · exact startProcess_move hpc rfl h
  · cases h; exact .execP (.inl hpc) rfl
  · exact joinUpdate_move rfl hpc h
  · unfold exitFunction at h
    split at h
    · cases h; exact .stay rfl
    · exact exitUpdate_move hpc h
  · exact exitUpdate_move hpc h
  · cases h
    exact .halt (.inr ⟨rfl, rfl⟩) rfl

end

/-! ## What a step does to the table -/

/-- The table after one step of `e`'s thread, case by case, with the guards of the code. -/
inductive Effect (bigEndian : Bool) (k : Kernel) (e : Event) : Table → Prop
  /-- Semaphores, counters, registers. -/
  | quiet : Effect bigEndian k e k.table
  /-- `ExecUpdate` has marked slot `i` and rejects the name. -/
  | leak {th : Thread} {name : Option String} {self : String} {i : Nat} {r : List Nat} :
      e = .cont e.tid → k.threads e.tid = some th → th.pc = .execSlot name self → k.bm.clearBits = i :: r →
      rejects name i self →
      Effect bigEndian k e { k.table with bm := k.bm.markBit i }
  | reserve {th : Thread} {name : Option String} {self : String} {i : Nat} {r : List Nat} :
      k.threads e.tid = some th → th.pc = .execSlot name self → k.bm.clearBits = i :: r → rejects name i self = false →
      Effect bigEndian k e { k.table with
        bm := k.bm.markBit i
        pcb := update k.pcb i (some k.nextPtr)
        live := update k.table.live k.nextPtr (some ⟨none, th.processID, e.tid⟩)
        nextPtr := k.nextPtr + 1
        procs := update k.table.procs e.tid (some { th.proc with role := .forking i k.nextPtr }) }
  | fork {th : Thread} {i : Nat} {p : Ptr} {b : PCB} :
      k.threads e.tid = some th → th.pc = .execFork i p → k.heap p = some b →
      Effect bigEndian k e { k.table with
        live := update k.table.live p (some ⟨some k.nextTid, th.processID, b.creator⟩)
        procs := update (update k.table.procs k.nextTid (some ⟨i, none, .fresh⟩)) e.tid
          (some { th.proc with role := .free })
        nextTid := k.nextTid + 1 }
  /-- A process other than the main one has called `ExitUpdate`. -/
  | exits {th : Thread} {q p : Ptr} {b : PCB} : k.threads e.tid = some th → th.pc = .user → th.processID ≠ 0 →
      k.pcb th.processID = some q → k.heap q = some b → 0 ≤ b.parentID → k.pcb b.parentID.toNat = some p →
      (k.table.live p).isSome →
      Effect bigEndian k e { k.table with
        procs := update k.table.procs e.tid (some { th.proc with role := .exiting (some p) }) }
  /-- It is past `DecNumWait`. -/
  | counted {th : Thread} {p : Ptr} : k.threads e.tid = some th → th.pc = .exitDec p →
      Effect bigEndian k e { k.table with
        procs := update k.table.procs e.tid (some { th.proc with role := .exiting none }) }
  | remove {th : Thread} {q : Ptr} {b : PCB} {frames : BitMap} {spaces : SpaceId → Option AddrSpace} :
      e = .cont e.tid → k.threads e.tid = some th → th.pc = .exitRemove → th.processID < k.bm.numBits →
      k.pcb th.processID = some q → k.heap q = some b → Freed k.gPhysPageBitMap k.spaces th.space frames spaces →
      Effect bigEndian k e { k.table with
        bm := k.bm.clearBit th.processID
        live := update k.table.live q none
        procs := update k.table.procs e.tid none
        frames, spaces }
  /-- `ExitFunction` after an `ExitUpdate` that found no process or no PCB. -/
  | finish {th : Thread} {bm : BitMap} {frames : BitMap} {spaces : SpaceId → Option AddrSpace} :
      k.threads e.tid = some th →
      (th.processID ≠ 0 ∧ k.bm.bit th.processID = false ∧ bm = k.bm) ∨
        (th.pc = .exitRemove ∧ k.pcb th.processID = none ∧ bm = k.bm.clearBit th.processID) →
      Freed k.gPhysPageBitMap k.spaces th.space frames spaces →
      Effect bigEndian k e { k.table with bm, procs := update k.table.procs e.tid none, frames, spaces }
  /-- The main process exits, or a program halts the machine. -/
  | halt {th : Thread} {frames : BitMap} {spaces : SpaceId → Option AddrSpace} : k.threads e.tid = some th →
      Freed k.gPhysPageBitMap k.spaces th.space frames spaces ∨ (frames = k.gPhysPageBitMap ∧ spaces = k.spaces) →
      Effect bigEndian k e { k.table with frames, spaces, halted := true }
  | start {th : Thread} {c : Ctor} {executable : Option OpenFile} {junk : AddrSpace} {stack : Memory} {b : Built} :
      k.threads e.tid = some th → th.pc = .start → e = .start e.tid c executable junk stack →
      b = AddrSpace.construct bigEndian junk stack k.gPhysPageBitMap c executable → b.ending ≠ .assertFails →
      Effect bigEndian k e { k.table with
        frames := b.bitmap
        spaces := update k.spaces k.nextSpace (some b.space)
        nextSpace := k.nextSpace + 1
        procs := update k.table.procs e.tid (some { th.proc with space := some k.nextSpace, role := .free }) }

variable {bigEndian : Bool} {e : Event}

/-- A step that leaves the thread in its role leaves the table. -/
theorem Effect.same_role {r : Role} (ht : k.threads e.tid = some th) (hr : th.pc.role = r)
    (h : k'.table = { k.table with procs := update k.table.procs e.tid (some { th.proc with role := r }) }) :
    Effect bigEndian k e k'.table := by
  subst hr
  rw [h, show ({ th.proc with role := th.pc.role } : Proc) = th.proc from rfl, procs_self ht]
  exact .quiet

theorem execV_table {value : Word} : (k.execV t th value).table =
    { k.table with procs := update k.table.procs t (some { th.proc with role := .free }) } := by
  rw [execV, table_ready, table_setThread]
  rfl

theorem move_effect (ht : k.threads e.tid = some th) (h : Move bigEndian k e th k') : Effect bigEndian k e k'.table := by
  cases h with
  | stay h => subst h; exact .quiet
  | @p p s waiting next hw h =>
    have hr : th.pc.role = next.role ∧ waiting.role = next.role := by cases hw <;> simp [*, Pc.role]
    exact .same_role ht hr.1 (semP_table h hr.2)
  | v hs h =>
    cases hs with
    | execUnlock hpc | joinInc _ hpc | joinRead hpc | exitRelease hpc =>
      have h := semV_table h fun _ => rfl
      exact .same_role ht (by rw [hpc]; rfl) h
    | exitDec _ hpc => rw [semV_table h fun _ => rfl]; exact .counted ht hpc
  | start hpc he hb hen h => rw [h, table_setThread]; exact .start ht hpc he hb hen
  | execP hpc h =>
    rw [h]
    refine .same_role (r := .free) ht (by rcases hpc with hpc | hpc <;> rw [hpc] <;> rfl) ?_
    rw [Kernel.execP, table_setThread]
    by_cases hp : (k.bmsem.p e.tid).2 <;> simp [hp, Thread.proc, Pc.role, table]
  | execV hpc h =>
    rw [h]
    exact .same_role ht (by rcases hpc with ⟨_, _, hpc⟩ | ⟨_, hpc⟩ <;> rw [hpc] <;> rfl) execV_table
  | @leak name self i r he hpc hc hrj h =>
    have hpr : ({ th.proc with role := .free } : Proc) = th.proc := by simp [Thread.proc, hpc, Pc.role]
    rw [h, execV_table, hpr]
    show Effect bigEndian k e { k.table with
      bm := k.bm.markBit i, procs := update k.table.procs e.tid (some th.proc) }
    rw [procs_self ht]
    exact .leak he ht hpc hc hrj
  | reserve hpc hc hrj h => rw [h, table_setThread, table_setPCB]; exact .reserve ht hpc hc hrj
  | @fork i p b hpc hb h => rw [h, table_setThread, table_setThread, table_setPCB]; exact .fork (b := b) ht hpc hb
  | refuse hpc h => rw [h]; exact .same_role ht (by rw [hpc]; rfl) table_setThread
  | @exits q p b c ec hpc h0 hq hb hlo hp hc h =>
    have hsm : (k.setPCB q { b with exitcode := ec }).table = k.table := by
      rw [table_setPCB, show PCB.ident { b with exitcode := ec } = b.ident from rfl, live_self hb]
    rw [semP_table h rfl, hsm]
    refine .exits ht hpc h0 hq hb hlo hp ?_
    rw [← hsm, table_live hc]
    rfl
  | @finish bm frames spaces hcs hf h =>
    rw [h, show table _ = { k.table with bm, procs := update k.table.procs e.tid none, frames, spaces } by
      simp [table, comp_update]]
    exact .finish ht hcs hf
  | @remove q b frames spaces he hpc hlt hq hb hf h =>
    rw [h, show table _ = { k.table with
      bm := k.bm.clearBit th.processID, live := update k.table.live q none,
      procs := update k.table.procs e.tid none, frames, spaces } by simp [table, comp_update]]
    exact .remove he ht hpc hlt hq hb hf
  | halt hf h => rw [h]; exact .halt ht hf

theorem step_effect (h : step bigEndian k e = .ok k') : Effect bigEndian k e k'.table := by
  obtain rfl | ⟨th, ht, h⟩ := step_move h
  · exact .quiet
  · exact move_effect ht h

end Kernel

end Nachos

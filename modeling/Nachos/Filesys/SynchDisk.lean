/-
  Nachos.Filesys.SynchDisk — `filesys/synchdisk.cc`: reads and writes of sectors by any
  number of threads, with the interrupts of the disk.

  A call makes its request, waits for the semaphore that the interrupt signals, and returns.
  A lock is to keep other calls out meanwhile, but `Lock::Acquire` and `Lock::Release` of
  `threads/synch.cc` are empty. `calls` and `returned` are history: how many calls have begun
  and not returned, and those that have returned, in order.
  - `disk_serial`: as long as no call begins while another one is under way, at most one
    request is outstanding, `ASSERT(!active)` does not fail, and a call returns after the
    interrupt for its own request.
-/

import Nachos.Machine.Disk
import Nachos.Threads.Client

namespace Nachos

open Lib List

/-- Its semaphore; the lock has no state. -/
structure SynchDisk where
  semaphore : SemId
  deriving DecidableEq, Repr

namespace SynchDisk

/-- A call that has made its request: which one, and what it has read. -/
structure Begun where
  request : Nat
  data : Option Sector
  deriving DecidableEq

structure Shared where
  disk : DiskDevice
  calls : Nat
  returned : List Begun

/-- Where a thread is: in a call, after the request, and in `semaphore->P()`. -/
inductive Place where
  | outside
  | requested (call : Begun)
  | waiting (call : Begun)
  deriving DecidableEq

/-- What a thread outside is to do; one inside goes on. -/
inductive Input where
  | goOn
  | readSector (sectorNumber : Word)
  | writeSector (sectorNumber : Word) (data : Sector)
  | other (call : Client.Call)
  deriving DecidableEq

inductive Interrupt where
  | diskDone (request : Nat)
  | other (s : SemId)
  deriving DecidableEq

variable (sd : SynchDisk) {i : Input} {n count : Nat} {vs : List SemId} {due : List Interrupt} {value : Word}
  {t : Tid}

def turn (i : Input) (g : Shared) : Place → Except Stop (Shared × Place × Client.Call)
  | .outside =>
    match i with
    | .goOn => .ok (g, .outside, .none)
    -- `lock->Acquire()` does nothing
    | .readSector sectorNumber => do
      let (data, disk) ← g.disk.readRequest sectorNumber
      return ({ g with disk, calls := g.calls + 1 }, .requested ⟨g.disk.requests, some data⟩, .none)
    | .writeSector sectorNumber data => do
      let disk ← g.disk.writeRequest sectorNumber data
      return ({ g with disk, calls := g.calls + 1 }, .requested ⟨g.disk.requests, none⟩, .none)
    -- other code has no pointer to the semaphore
    | .other call => if call.spares [sd.semaphore] then .ok (g, .outside, call) else .ok (g, .outside, .none)
  | .requested call => .ok (g, .waiting call, .p sd.semaphore)
  -- nor does `lock->Release()`
  | .waiting call => .ok ({ g with calls := g.calls - 1, returned := g.returned ++ [call] }, .outside, .none)

def fire (d : Interrupt) (g : Shared) : Except Stop (Shared × List SemId) :=
  match d with
  | .diskDone request =>
    let (called, disk) := g.disk.handleInterrupt request
    .ok ({ g with disk }, if called then [sd.semaphore] else [])
  | .other s => .ok (g, if s = sd.semaphore then [] else [s])

def client : Client Shared Place Input Interrupt := ⟨sd.turn, sd.fire⟩

/-- `SynchDisk::SynchDisk`. -/
def new (k : Dispatch) : Except Stop (SynchDisk × Dispatch) := do
  let k₁ ← k.call (.newSemaphore 0)
  return (⟨k.numSems⟩, k₁)

/-- A thread has made the disk, and nobody has called it yet. -/
def Init (content : Disk) (s : Client.State Shared Place) : Prop :=
  (∃ k, Lib.Reach Dispatch.step (fun _ _ => True) (· = .start) k ∧ k.inCode = true ∧ new k = .ok (sd, s.kernel)) ∧
    s.shared = ⟨.new content, 0, []⟩ ∧ s.locals = fun _ => .outside

def Input.isCall : Input → Bool
  | .readSector _ | .writeSector _ _ => true
  | _ => false

/-- The sector is on the disk. -/
def Input.valid : Input → Bool
  | .readSector sectorNumber | .writeSector sectorNumber _ => decide (sectorNumber.toNat < numSectors)
  | _ => true

/-- A call begins when none is under way. -/
def oneAtATime (i : Input) (g : Shared) : Place → Bool
  | .outside => !i.isCall || g.calls == 0
  | _ => true

/-- What the lock is for. -/
structure Serialised (s : Client.State Shared Place) : Prop where
  one : s.shared.disk.pending.length ≤ 1
  free : s.kernel.inCode = true → ∀ i : Input, i.valid = true →
    oneAtATime i s.shared (s.locals s.kernel.currentThread) = true →
    sd.turn i s.shared (s.locals s.kernel.currentThread) ≠ .error .assertion
  own : ∀ call ∈ s.shared.returned, call.request ∈ s.shared.disk.completed

/-! ## Moves -/

/-- What a thread's turn can be. -/
inductive Moves (g : Shared) : Place → Shared → Place → Client.Call → Prop
  | idle {call : Client.Call} : call ≠ .p sd.semaphore ∧ call ≠ .v sd.semaphore → Moves g .outside g .outside call
  | request (content : Disk) (data : Option Sector) : g.calls = 0 → g.disk.active = false →
      Moves g .outside { g with disk := { g.disk with content }.start, calls := g.calls + 1 }
        (.requested ⟨g.disk.requests, data⟩) .none
  | wait (call : Begun) : Moves g (.requested call) g (.waiting call) (.p sd.semaphore)
  | back (call : Begun) :
      Moves g (.waiting call) { g with calls := g.calls - 1, returned := g.returned ++ [call] } .outside .none

section

variable {sd : SynchDisk} {g g' : Shared} {l l' : Place} {call : Client.Call}

theorem turn_moves (h : (sd.client.restrict oneAtATime).turn i g l = .ok (g', l', call)) : sd.Moves g l g' l' call := by
  rw [Client.restrict] at h
  dsimp only at h
  split at h
  · rename_i hok
    have hn := Client.Call.none_ne sd.semaphore
    cases l with
    | outside =>
      cases i with
      | goOn => cases h; exact .idle hn
      | readSector sectorNumber =>
        obtain ⟨⟨data, disk⟩, hr, h⟩ := bind_eq_ok.mp h
        cases h
        rw [DiskDevice.readRequest] at hr
        split at hr
        · cases hr
        rename_i ha
        obtain ⟨data', -, hr⟩ := bind_eq_ok.mp hr
        cases hr
        exact .request g.disk.content (some data) (beq_iff_eq.mp hok) (Bool.not_eq_true _ ▸ ha)
      | writeSector sectorNumber data =>
        obtain ⟨disk, hw, h⟩ := bind_eq_ok.mp h
        cases h
        rw [DiskDevice.writeRequest] at hw
        split at hw
        · cases hw
        rename_i ha
        obtain ⟨content, -, hw⟩ := bind_eq_ok.mp hw
        cases hw
        exact .request content none (beq_iff_eq.mp hok) (Bool.not_eq_true _ ▸ ha)
      | other call' =>
        simp only [client, turn] at h
        split at h
        · rename_i hs
          cases h
          exact .idle (Client.Call.spares_ne hs (mem_singleton.mpr rfl))
        · cases h
          exact .idle hn
    | requested call => cases h; exact .wait call
    | waiting call => cases h; exact .back call
  · cases h

end

/-! ## The device and the semaphore -/

/-- No request is outstanding. -/
def Idle (d : DiskDevice) : Prop := d.active = false ∧ d.pending = []

/-- Request `n` is, and no other. -/
def Working (d : DiskDevice) (n : Nat) : Prop := d.active = true ∧ d.pending = [n]

/-- Request `n` is outstanding, or its interrupt has come and left a permit. -/
def Requested (d : DiskDevice) (value : Word) (n : Nat) : Prop :=
  (Working d n ∧ value = 0) ∨ (Idle d ∧ value = 1 ∧ n ∈ d.completed)

/-- What interrupts do that signal the semaphore `count` times. -/
structure Signalled (g g' : Shared) (count : Nat) : Prop where
  calls : g'.calls = g.calls
  returned : g'.returned = g.returned
  completed : ∀ {n}, n ∈ g.disk.completed → n ∈ g'.disk.completed
  idle : Idle g.disk → Idle g'.disk ∧ count = 0
  working : ∀ {n}, Working g.disk n → (Working g'.disk n ∧ count = 0) ∨ (Idle g'.disk ∧ count = 1 ∧ n ∈ g'.disk.completed)

section

variable {sd : SynchDisk} {g g' g₁ : Shared}

theorem Signalled.rfl : Signalled g g 0 := ⟨Eq.refl _, Eq.refl _, id, fun h => ⟨h, Eq.refl _⟩, fun h => .inl ⟨h, Eq.refl _⟩⟩

theorem Signalled.trans {m : Nat} (h : Signalled g g₁ m) (h' : Signalled g₁ g' n) : Signalled g g' (m + n) where
  calls := h'.calls.trans h.calls
  returned := h'.returned.trans h.returned
  completed hn := h'.completed (h.completed hn)
  idle hid := by
    obtain ⟨h1, rfl⟩ := h.idle hid
    obtain ⟨h2, rfl⟩ := h'.idle h1
    exact ⟨h2, Eq.refl _⟩
  working hw := by
    rcases h.working hw with ⟨h1, rfl⟩ | ⟨h1, rfl, hd⟩
    · rw [Nat.zero_add]
      exact h'.working h1
    · obtain ⟨h2, rfl⟩ := h'.idle h1
      exact .inr ⟨h2, Eq.refl _, h'.completed hd⟩

theorem fire_signalled {d : Interrupt} (h : sd.fire d g = .ok (g', vs)) : Signalled g g' (vs.count sd.semaphore) := by
  cases d with
  | diskDone request =>
    rcases g.disk.handleInterrupt_cases request with hno | ⟨hm, hd⟩
    · simp only [fire, hno] at h
      cases h
      exact .rfl
    · simp only [fire, hd, if_true] at h
      cases h
      rw [count_singleton_self]
      refine ⟨rfl, rfl, fun hn => mem_append_left _ hn, fun hid => ?_, fun {n} hwork => .inr ?_⟩
      · rw [hid.2] at hm
        cases hm
      rw [hwork.2] at hm
      cases mem_singleton.mp hm
      refine ⟨⟨rfl, ?_⟩, rfl, mem_append_right _ (mem_singleton.mpr rfl)⟩
      show g.disk.pending.erase request = []
      rw [hwork.2]
      exact erase_cons_head ..
  | other s =>
    cases h
    have hnn : (if s = sd.semaphore then [] else [s]).count sd.semaphore = 0 := by
      split
      · rfl
      · rename_i hne
        exact count_eq_zero.mpr fun hm => hne (mem_singleton.mp hm).symm
    rw [hnn]
    exact .rfl

theorem fires_signalled (h : (sd.client.restrict oneAtATime).fires due g = .ok (g', vs)) :
    Signalled g g' (vs.count sd.semaphore) := by
  refine Client.fires_rec (R := fun g g' vs => Signalled g g' (vs.count sd.semaphore)) (fun _ => .rfl) (fun h1 h2 => ?_) h
  rw [count_append]
  exact (fire_signalled h1).trans h2

end

/-! ## One call at a time -/

/-- Where the thread of the one call is, with the device and the semaphore: it has made its
    request, it is inside `P`, or it is past it. -/
inductive At (d : DiskDevice) (value : Word) : Place → Bool → Prop
  | requested {call : Begun} : Requested d value call.request → At d value (.requested call) false
  | asleep {call : Begun} : Requested d value call.request → At d value (.waiting call) true
  | passed {call : Begun} : Idle d → value = 0 → call.request ∈ d.completed → At d value (.waiting call) false

/-- The calls under way: none, or one. -/
inductive Stage (sd : SynchDisk) (s : Client.State Shared Place) : Prop
  | free : s.shared.calls = 0 → (∀ t, s.locals t = .outside ∧ (s.kernel.counter sd.semaphore).waits t = false) →
      Idle s.shared.disk → (s.kernel.counter sd.semaphore).value = 0 → Stage sd s
  | inside (t : Tid) : s.shared.calls = 1 →
      (∀ u, u ≠ t → s.locals u = .outside ∧ (s.kernel.counter sd.semaphore).waits u = false) →
      At s.shared.disk (s.kernel.counter sd.semaphore).value (s.locals t) ((s.kernel.counter sd.semaphore).waits t) →
      Stage sd s

structure Inv (sd : SynchDisk) (s : Client.State Shared Place) : Prop where
  custody : s.kernel.Custody
  made : sd.semaphore < s.kernel.numSems
  stage : Stage sd s
  own : ∀ call ∈ s.shared.returned, call.request ∈ s.shared.disk.completed

section

variable {sd : SynchDisk} {s s' : Client.State Shared Place}

/-- The test in `P`, by the thread of the call: it takes the permit, or the interrupt is still
    to come. -/
theorem Requested.test {d : DiskDevice} {x : Counter} {call : Begun} (h : Requested d x.value call.request) (t : Tid) :
    At d (x.test t).value (.waiting call) ((x.test t).waits t) := by
  rw [Counter.test_value, Counter.test_waits_self]
  rcases h with ⟨hw, hz⟩ | ⟨hid, ho, hd⟩
  · rw [hz]
    exact .asleep (.inl ⟨hw, rfl⟩)
  · rw [ho]
    exact .passed hid rfl hd

theorem Requested.signalled {g g' : Shared} (h : Requested g.disk value n) (hs : Signalled g g' count) :
    Requested g'.disk (value + BitVec.ofNat 32 count) n := by
  rcases h with ⟨hw, rfl⟩ | ⟨hid, rfl, hd⟩
  · rcases hs.working hw with ⟨hw', rfl⟩ | ⟨hi', rfl, hd⟩
    · exact .inl ⟨hw', rfl⟩
    · exact .inr ⟨hi', rfl, hd⟩
  · obtain ⟨hi', rfl⟩ := hs.idle hid
    exact .inr ⟨hi', rfl, hs.completed hd⟩

theorem At.signalled {g g' : Shared} {l : Place} {inside : Bool} (h : At g.disk value l inside)
    (hs : Signalled g g' count) : At g'.disk (value + BitVec.ofNat 32 count) l inside := by
  cases h with
  | requested hr => exact .requested (hr.signalled hs)
  | asleep hr => exact .asleep (hr.signalled hs)
  | passed hid hz hd =>
    obtain ⟨hi', rfl⟩ := hs.idle hid
    exact .passed hi' (by rw [hz]; rfl) (hs.completed hd)

theorem Stage.congr (h : Stage sd s) (hsh : s'.shared = s.shared) (hl : s'.locals = s.locals)
    (hs : s'.kernel.counter sd.semaphore = s.kernel.counter sd.semaphore) : Stage sd s' := by
  cases h with
  | free hn ha hid hz =>
    rw [← hsh] at hn hid
    rw [← hl, ← hs] at ha
    exact .free hn ha hid (hs ▸ hz)
  | inside t hon ho hat =>
    rw [← hsh] at hon
    rw [← hl, ← hs] at ho
    rw [← hsh, ← hl, ← hs] at hat
    exact .inside t hon ho hat

/-- A thread that is in a call is the one. -/
theorem Stage.only (h : Stage sd s) (ht : s.locals t ≠ .outside) : s.shared.calls = 1 ∧
    (∀ u, u ≠ t → s.locals u = .outside ∧ (s.kernel.counter sd.semaphore).waits u = false) ∧
    At s.shared.disk (s.kernel.counter sd.semaphore).value (s.locals t) ((s.kernel.counter sd.semaphore).waits t) := by
  cases h with
  | free _ ha => exact absurd (ha t).1 ht
  | inside t' hon ho hat =>
    by_cases e : t = t'
    · exact e ▸ ⟨hon, ho, hat⟩
    · exact absurd (ho t e).1 ht

theorem Inv.test (h : Inv sd s) (hc : s'.kernel.Custody) (hm : sd.semaphore < s'.kernel.numSems) {call : Begun}
    (hin : s.locals t ≠ .outside) (hr : Requested s.shared.disk (s.kernel.counter sd.semaphore).value call.request)
    (hcn : s'.kernel.counter sd.semaphore = (s.kernel.counter sd.semaphore).test t)
    (hsl : s'.locals t = .waiting call) (hl : ∀ u, u ≠ t → s'.locals u = s.locals u)
    (hs : s'.shared = s.shared) : Inv sd s' := by
  obtain ⟨hon, ho, -⟩ := h.stage.only hin
  refine ⟨hc, hm, .inside t (by rw [hs]; exact hon) (fun u hu => ?_) ?_, by rw [hs]; exact h.own⟩
  · rw [hl u hu, hcn, Counter.test_waits_of_ne _ hu]
    exact ho u hu
  · rw [hs, hcn, hsl]
    exact hr.test t

theorem Inv.turn (h : Inv sd s) (hc : s'.kernel.Custody) (hmd : sd.semaphore < s'.kernel.numSems) {l : Place}
    {call : Client.Call} (ht : Client.Turn (sd.client.restrict oneAtATime) i t l call s s') : Inv sd s' := by
  have hsl := ht.self
  have hl := ht.others
  have hot := ht.outside sd.semaphore
  have hn := Client.Call.none_ne sd.semaphore
  have hm := turn_moves ht.turn
  generalize hold : s.locals t = old at hm
  generalize hs : s'.shared = g' at hm
  cases hm with
  | idle hcl =>
    have hcn := ht.unused h.made hcl
    have hsm : s'.locals = s.locals := by rw [ht.locals, ← hold, Function.update_eq_self]
    exact ⟨hc, hmd, h.stage.congr hs hsm hcn, by rw [hs]; exact h.own⟩
  | request content data hnn ha =>
    have hcn := ht.unused h.made hn
    cases h.stage with
    | inside _ hon => cases hnn.symm.trans hon
    | free _ hal hid hz =>
      refine ⟨hc, hmd, .inside t (by rw [hs, hnn]) (fun u hu => ?_) ?_, by rw [hs]; exact h.own⟩
      · rw [hl u hu, hcn]
        exact hal u
      rw [hs, hsl, hcn, hot]
      refine .requested (.inl ⟨⟨rfl, ?_⟩, hz⟩)
      show s.shared.disk.pending ++ [s.shared.disk.requests] = _
      rw [hid.2]
      rfl
  | wait call =>
    have hin : s.locals t ≠ .outside := by rw [hold]; intro e; cases e
    obtain ⟨-, -, hat⟩ := h.stage.only hin
    rw [hold, hot] at hat
    cases hat with
    | requested hr => exact h.test hc hmd hin hr (ht.tests h.made rfl) hsl hl hs
  | back call =>
    have hcn := ht.unused h.made hn
    have hin : s.locals t ≠ .outside := by rw [hold]; intro e; cases e
    obtain ⟨hon, ho, hat⟩ := h.stage.only hin
    rw [hold, hot] at hat
    cases hat with
    | passed hid hz hd =>
      refine ⟨hc, hmd, .free (by rw [hs, hon]) (fun u => ?_) (by rw [hs]; exact hid) (hcn ▸ hz), ?_⟩
      · by_cases eu : u = t
        · rw [eu, hsl, hcn]
          exact ⟨rfl, hot⟩
        · rw [hl u eu, hcn]
          exact ho u eu
      · rw [hs]
        intro call' hmm
        rcases mem_append.mp hmm with hmm | hmm
        · exact h.own call' hmm
        · rw [mem_singleton.mp hmm]
          exact hd

theorem Inv.fired (h : Inv sd s) (hc : s'.kernel.Custody) (hmd : sd.semaphore < s'.kernel.numSems)
    (hf : Client.Fired (sd.client.restrict oneAtATime) due vs s s') : Inv sd s' := by
  have hs := fires_signalled hf.fires
  have hcn := hf.counters sd.semaphore
  have hw : ∀ t, (s'.kernel.counter sd.semaphore).waits t = (s.kernel.counter sd.semaphore).waits t := by
    intro t
    rw [hcn]
    rfl
  have hv : (s'.kernel.counter sd.semaphore).value =
      (s.kernel.counter sd.semaphore).value + BitVec.ofNat 32 (vs.count sd.semaphore) := by
    rw [hcn]
    rfl
  refine ⟨hc, hmd, ?_, fun call hm => hs.completed (h.own call (hs.returned ▸ hm))⟩
  cases h.stage with
  | free hn ha hid hz =>
    obtain ⟨hi', hco⟩ := hs.idle hid
    refine .free (hs.calls.trans hn) (fun t => ?_) hi' (by rw [hv, hco, hz]; rfl)
    rw [hf.locals, hw]
    exact ha t
  | inside t hon ho hat =>
    refine .inside t (hs.calls.trans hon) (fun u hu => ?_) ?_
    · rw [hf.locals, hw]
      exact ho u hu
    · rw [hv, hf.locals, hw]
      exact hat.signalled hs

theorem Inv.resumed (h : Inv sd s) (hc : s'.kernel.Custody) (hm : sd.semaphore < s'.kernel.numSems)
    (hr : Client.Resumed t s s') : Inv sd s' := by
  rcases hr.counters sd.semaphore with hs | ⟨hw, ht⟩
  · exact ⟨hc, hm, h.stage.congr hr.shared hr.locals hs, by rw [hr.shared]; exact h.own⟩
  have hin : s.locals t ≠ .outside := by
    cases h.stage with
    | free _ ha => cases hw.symm.trans (ha t).2
    | inside t' _ ho hat =>
      by_cases e : t = t'
      · rw [e]
        intro hot
        rw [hot] at hat
        cases hat
      · cases hw.symm.trans (ho t e).2
  obtain ⟨-, -, hat⟩ := h.stage.only hin
  rw [hw] at hat
  generalize hl : s.locals t = l at hat
  cases hat with
  | asleep hrq =>
    exact h.test hc hm hin hrq ht (by rw [hr.locals, hl]) (fun u _ => by rw [hr.locals])
      hr.shared

theorem step_inv (h : Inv sd s) {e : Client.Event Input Interrupt}
    (hs : (sd.client.restrict oneAtATime).step s e = .ok s') : Inv sd s' := by
  obtain ⟨hc, hk, hcs⟩ := Client.step_cases h.custody hs
  have hm := (hk _ h.made).1
  rcases hcs with rfl | ⟨i, t, l, call, ht⟩ | ⟨due, vs, hf⟩ | ⟨t, hr⟩
  · exact h
  · exact h.turn hc hm ht
  · exact h.fired hc hm hf
  · exact h.resumed hc hm hr

theorem init_inv {content : Disk} (h : sd.Init content s) : Inv sd s := by
  obtain ⟨⟨k, hk, hcd, hn⟩, hs, hl⟩ := h
  obtain ⟨k1, e1, hn⟩ := bind_eq_ok.mp hn
  cases hn
  obtain ⟨hk', hnm, hc, -⟩ := (Dispatch.reach_making hk hcd).newSemaphore e1
  refine ⟨hk'.custody, ?_, .free ?_ (fun t => ?_) ?_ ?_, ?_⟩
  · show k.numSems < s.kernel.numSems
    omega
  · rw [hs]
  · rw [hl, hc]
    exact ⟨rfl, rfl⟩
  · rw [hs]
    exact ⟨rfl, rfl⟩
  · rw [hc]
  · rw [hs]
    intro call hm
    cases hm

/-- A call that begins alone finds the device free. -/
theorem Inv.turn_ok (h : Inv sd s) (hv : i.valid = true) {l : Place} (hok : oneAtATime i s.shared l = true) :
    sd.turn i s.shared l ≠ .error .assertion := by
  cases l with
  | requested | waiting => intro e; cases e
  | outside =>
    have hf : i.isCall = true → s.shared.disk.active = false := by
      intro hc
      rw [oneAtATime, hc] at hok
      cases h.stage with
      | free _ _ hid => exact hid.1
      | inside _ ho => cases ho.symm.trans (beq_iff_eq.mp hok)
    cases i with
    | goOn => intro e; cases e
    | readSector sectorNumber =>
      rw [SynchDisk.turn, DiskDevice.readRequest, hf rfl, Disk.readSector, if_pos (of_decide_eq_true hv)]
      intro e
      cases e
    | writeSector sectorNumber data =>
      rw [SynchDisk.turn, DiskDevice.writeRequest, hf rfl, Disk.writeSector, if_pos (of_decide_eq_true hv)]
      intro e
      cases e
    | other call =>
      rw [SynchDisk.turn]
      split
      · intro e; cases e
      · intro e; cases e

theorem Stage.pending_le (h : Stage sd s) : s.shared.disk.pending.length ≤ 1 := by
  have hr : ∀ {value n}, Requested s.shared.disk value n → s.shared.disk.pending.length ≤ 1 := by
    intro value n h'
    rcases h' with ⟨hw, -⟩ | ⟨hid, -⟩
    · rw [hw.2]
      exact Nat.le_refl 1
    · rw [hid.2]
      exact Nat.zero_le 1
  cases h with
  | free _ _ hid =>
    rw [hid.2]
    exact Nat.zero_le 1
  | inside t _ _ hat =>
    generalize s.locals t = l at hat
    generalize (s.kernel.counter sd.semaphore).waits t = inside at hat
    cases hat with
    | requested h' => exact hr h'
    | asleep h' => exact hr h'
    | passed hid =>
      rw [hid.2]
      exact Nat.zero_le 1

end

/-- In every run in which each call of `ReadSector` and `WriteSector` begins when no other one is
    under way, the disk is used by one request at a time in every state. -/
theorem disk_serial {sd : SynchDisk} {content : Disk} {s : Client.State Shared Place}
    (h : Lib.Reach sd.client.step (fun s e => Client.meets oneAtATime s e = true) (sd.Init content) s) : sd.Serialised s := by
  have hinv : Inv sd s :=
    (Client.reach_restrict h).inv (P := Inv sd) (fun _ hs => init_inv hs) fun _ _ _ hs _ hst => step_inv hs hst
  exact ⟨hinv.stage.pending_le, fun _ i hvalid hok => hinv.turn_ok hvalid hok, hinv.own⟩

/-- The disk the main thread makes. -/
def firstDisk : SynchDisk := ⟨0⟩

def booted (content : Disk) : Client.State Shared Place where
  kernel := match new .start with
    | .ok (_, k) => k
    | .error _ => .start
  shared := ⟨.new content, 0, []⟩
  locals := fun _ => .outside

theorem booted_init (content : Disk) : firstDisk.Init content (booted content) :=
  ⟨⟨.start, .init rfl, by decide, rfl⟩, rfl, rfl⟩

/-- A sector of zeros. -/
def zeros : Sector := .garbage fun _ => 0

/-- The main thread reads sector 5; when its interrupt has come and it has returned, another
    thread writes sector 6, and waits. -/
theorem two_calls_in_turn : ∃ s, Lib.Reach firstDisk.client.step (fun s e => Client.meets oneAtATime s e = true)
      (firstDisk.Init fun _ => zeros) s ∧
    s.shared.disk.completed = [0] ∧ s.shared.disk.pending = [1] ∧ s.shared.returned.map Begun.request = [0] ∧
    firstDisk.Serialised s := by
  obtain ⟨s, hs, ht⟩ := exists_reach firstDisk.client.step (Client.meets oneAtATime)
    [.turn (.other .fork), .turn (.readSector 5), .turn .goOn, .resume, .tick [.diskDone 0] true, .resume, .turn .goOn,
      .turn (.other .yield), .resume, .turn (.writeSector 6 zeros), .turn .goOn]
    (fun s => s.shared.disk.completed == [0] && s.shared.disk.pending == [1] && s.shared.returned.map Begun.request == [0])
    (booted_init fun _ => zeros) (by decide +kernel)
  simp only [Bool.and_eq_true, beq_iff_eq] at ht
  exact ⟨s, hs, ht.1.1, ht.1.2, ht.2, disk_serial hs⟩

/-- The main thread reads sector 5 and sleeps. Another thread's read of sector 6 fails the
    assertion; if the interrupt comes first and the main thread has not gone on yet, it takes the
    permit and returns before its own interrupt. -/
theorem second_call_enters :
    (∃ s, Lib.Reach firstDisk.client.step (fun _ _ => True) (firstDisk.Init fun _ => zeros) s ∧ s.kernel.inCode = true ∧
      s.locals s.kernel.currentThread = .outside ∧ (Input.readSector 6).valid = true ∧
      firstDisk.turn (.readSector 6) s.shared .outside = .error .assertion) ∧
    ∃ s, Lib.Reach firstDisk.client.step (fun _ _ => True) (firstDisk.Init fun _ => zeros) s ∧
      s.shared.returned.map Begun.request = [1] ∧ s.shared.disk.completed = [0] ∧ ¬ firstDisk.Serialised s := by
  constructor
  · obtain ⟨s, hs, ht⟩ := exists_reach firstDisk.client.step (fun _ _ => true)
      [.turn (.other .fork), .turn (.readSector 5), .turn .goOn, .resume]
      (fun s => s.kernel.inCode && s.locals s.kernel.currentThread == .outside && s.shared.disk.active)
      (booted_init fun _ => zeros) (by decide +kernel)
    simp only [Bool.and_eq_true, beq_iff_eq] at ht
    refine ⟨s, hs.mono fun _ _ _ => trivial, ht.1.1, ht.1.2, by decide, ?_⟩
    rw [turn, DiskDevice.readRequest, ht.2]
    rfl
  · obtain ⟨s, hs, ht⟩ := exists_reach firstDisk.client.step (fun _ _ => true)
      [.turn (.other .fork), .turn (.readSector 5), .turn .goOn, .resume, .tick [.diskDone 0] false,
        .turn (.readSector 6), .turn .goOn, .turn .goOn]
      (fun s => s.shared.returned.map Begun.request == [1] && s.shared.disk.completed == [0])
      (booted_init fun _ => zeros) (by decide +kernel)
    simp only [Bool.and_eq_true, beq_iff_eq] at ht
    refine ⟨s, hs.mono fun _ _ _ => trivial, ht.1, ht.2, fun hserial => ?_⟩
    obtain ⟨call, hcall, hone⟩ : ∃ call ∈ s.shared.returned, call.request = 1 :=
      List.mem_map.mp (by rw [ht.1]; exact List.mem_singleton.mpr rfl)
    have hown := hserial.own call hcall
    rw [hone, ht.2] at hown
    cases List.mem_singleton.mp hown

end SynchDisk

end Nachos

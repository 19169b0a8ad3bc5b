/-
  Nachos.Userprog.STable — `userprog/stable.cc` and the system calls `CreateSemaphore`,
  `Wait` and `Signal` of `userprog/exception.cc`, over the threads of `Threads.Dispatch`.

  A call names a semaphore by a user string, of which the kernel copies at most
  MAX_LENGTH + 1 bytes. The table is a bitmap of used slots and the slots; it never gives a
  slot back. `Wait` returns when the `P` of the semaphore it found completes, and only the
  three calls reach the semaphores of the table, so the number of calls of `Wait` that have
  returned and of `Signal` that have been made are those of `P` and `V` that have completed.
-/

import Nachos.Threads.Permits
import Nachos.Userprog.BitMap
import Nachos.Userprog.UserMemory

namespace Nachos

open Lib List
open Function (update update_of_ne update_self)

abbrev maxSemaphore : Nat := 10

/-- `Sem`: a name, and the semaphore `sem` points to. -/
structure STable.Sem where
  name : List Byte
  sem : SemId
  deriving DecidableEq, Repr

structure STable where
  bm : BitMap
  /-- `none` is NULL. -/
  semTab : Nat → Option STable.Sem

/-- The kernel with its table of user semaphores. -/
structure SemSys where
  kernel : Dispatch
  tab : STable

namespace STable

/-- `STable::STable()`. -/
def new (garbage : Nat → BitVec 32) : STable := ⟨.new maxSemaphore garbage, fun _ => none⟩

variable (tab : STable)

/-- The loop over the slots that `Create`, `Wait` and `Signal` share: the semaphore of the
    first used slot with the name. -/
def search (tab : STable) (name : List Byte) : List Nat → Except Stop (Option SemId)
  | [] => .ok none
  | i :: rest =>
    if tab.bm.bit i then
      match tab.semTab i with
      | none => .error .undefined
      | some s => if s.name = name then .ok (some s.sem) else tab.search name rest
    else tab.search name rest

def lookup (name : List Byte) : Except Stop (Option SemId) := tab.search name (List.range maxSemaphore)

/-- The table once slot `i` has been given to a new semaphore. -/
def fill (i : Nat) (x : STable.Sem) : STable :=
  ⟨tab.bm.markBit i, update tab.semTab i (some x)⟩

section

variable {tab : STable} {name : List Byte} {i : Nat} {x : STable.Sem}

theorem search_some (l : List Nat) {sem : SemId} (h : tab.search name l = .ok (some sem)) :
    ∃ j ∈ l, ∃ y, tab.semTab j = some y ∧ y.name = name ∧ y.sem = sem := by
  induction l with
  | nil => cases h
  | cons j l ih =>
    have hr : tab.search name l = .ok (some sem) → ∃ j' ∈ j :: l, ∃ y, tab.semTab j' = some y ∧ y.name = name ∧ y.sem = sem := by
      intro h
      obtain ⟨j', hj, hy⟩ := ih h
      exact ⟨j', mem_cons_of_mem _ hj, hy⟩
    simp only [search] at h
    split at h
    · split at h
      · cases h
      rename_i y hy
      split at h
      · rename_i hn; cases h; exact ⟨j, mem_cons_self, y, hy, hn, rfl⟩
      · exact hr h
    · exact hr h

theorem search_fill_ne (hi : i < tab.bm.numBits) (hc : tab.bm.bit i = false) (hne : x.name ≠ name) (l : List Nat) :
    (tab.fill i x).search name l = tab.search name l := by
  induction l with
  | nil => rfl
  | cons j l ih =>
    simp only [search, fill, BitMap.bit_markBit _ hi] at ih ⊢
    rw [ih]
    by_cases e : i = j
    · subst e; simp [hc, hne]
    · simp [e, Ne.symm e]

theorem search_fill_self (hi : i < tab.bm.numBits) (l : List Nat) (hl : i ∈ l)
    (hnn : tab.search x.name l = .ok none) : (tab.fill i x).search x.name l = .ok (some x.sem) := by
  induction l with
  | nil => cases hl
  | cons j l ih =>
    by_cases e : i = j
    · subst e
      simp [search, fill, BitMap.bit_markBit _ hi]
    have hl' : i ∈ l := by
      rcases mem_cons.mp hl with h | h
      · exact absurd h e
      · exact h
    have hbt : (tab.fill i x).bm.bit j = tab.bm.bit j := by simp [fill, BitMap.bit_markBit _ hi, e]
    have hs : (tab.fill i x).semTab j = tab.semTab j := by simp [fill, Ne.symm e]
    simp only [search] at hnn ⊢
    rw [hbt, hs]
    split at hnn
    · rename_i hb
      rw [if_pos hb]
      split at hnn
      · cases hnn
      split at hnn
      · cases hnn
      · rename_i y hy hn
        rw [if_neg hn]
        exact ih hl' hnn
    · rename_i hb
      rw [if_neg hb]
      exact ih hl' hnn

end

end STable

namespace SemSys

inductive Event where
  | createSemaphore (name : List Byte) (semval : Word)
  | wait (name : List Byte)
  | signal (name : List Byte)
  | other (e : Dispatch.Event)
  deriving DecidableEq, Repr

/-- The name the kernel copies from the user's memory. -/
def kernelName (user : List Byte) : List Byte := cString (user.take (maxLength + 1))

variable (s : SemSys)

/-- `STable::Create`. -/
def create (name : List Byte) (init : Word) : Except Stop (Int × SemSys) := do
  match ← s.tab.lookup name with
  | some _ => return (-1, s)
  | none =>
    let (id, bm) := s.tab.bm.find
    if id < 0 then return (-1, { s with tab := { s.tab with bm } })
    else
      let k ← s.kernel.call (.newSemaphore init)
      return (0, ⟨k, bm, update s.tab.semTab id.toNat (some ⟨name, s.kernel.numSems⟩)⟩)

/-- `STable::Wait` and `STable::Signal`, by what is called on the semaphore: the return
    value, which a `Wait` that sleeps leaves until later, and the kernel. -/
def on (name : List Byte) (call : SemId → Dispatch.Event) : Except Stop (Int × SemSys) := do
  match ← s.tab.lookup name with
  | some sem =>
    let k ← s.kernel.call (call sem)
    return (0, { s with kernel := k })
  | none => return (-1, s)

/-- `CreateSemaphoreFunction`. -/
def createSemaphore (name : List Byte) (semval : Word) : Except Stop (Int × SemSys) :=
  s.create (kernelName name) semval

/-- `WaitFunction`. -/
def wait (name : List Byte) : Except Stop (Int × SemSys) := s.on (kernelName name) .p

/-- `SignalFunction`. -/
def signal (name : List Byte) : Except Stop (Int × SemSys) := s.on (kernelName name) .v

/-- The semaphores an event calls `P` or `V` on. -/
def sems : Dispatch.Event → List SemId
  | .p s => [s]
  | e => e.signals

/-- An event of the rest of the kernel, which has no pointer to a semaphore of the table. -/
def foreign (e : Dispatch.Event) : Bool :=
  (List.range maxSemaphore).all fun i => (s.tab.semTab i).all (·.sem ∉ sems e)

def step : Event → Except Stop SemSys
  | .createSemaphore name semval => if s.kernel.inCode then Prod.snd <$> s.createSemaphore name semval else .ok s
  | .wait name => if s.kernel.inCode then Prod.snd <$> s.wait name else .ok s
  | .signal name => if s.kernel.inCode then Prod.snd <$> s.signal name else .ok s
  | .other e => if s.foreign e then (fun kernel => { s with kernel }) <$> s.kernel.step e else .ok s

def Init : Prop := s.kernel = .start ∧ ∃ garbage, s.tab = .new garbage

/-! ## What is counted -/

def semOf (name : List Byte) : Option SemId :=
  match s.tab.lookup name with
  | .ok sem => sem
  | .error _ => none

/-- How many calls of `Wait` on the name have returned. -/
def waited (name : List Byte) : Nat := (s.semOf name).elim 0 s.kernel.ps

/-- How many calls of `Signal` on the name have been made. -/
def signalled (name : List Byte) : Nat := (s.semOf name).elim 0 s.kernel.vs

def valueOf (name : List Byte) : Word := (s.semOf name).elim 0 fun sem => (s.kernel.sems sem).value

/-- A `Signal` on the name does not find its semaphore's value at the largest `int`. -/
def Fits (name : List Byte) (s : SemSys) (e : Event) : Prop :=
  ∀ user, e = .signal user → kernelName user = name → s.valueOf name ≠ intMax

/-! ## The calls -/

/-- What every run keeps of the table: its size, and that its semaphores exist. -/
structure Sound (s : SemSys) : Prop where
  size : s.tab.bm.numBits = maxSemaphore
  made : ∀ i x, s.tab.semTab i = some x → x.sem < s.kernel.numSems

variable {init : Word} {r : Int} {e : Event}

section

variable {s s' : SemSys} {name : List Byte}

theorem create_eq (h : s.create name init = .ok (r, s')) :
    (r = -1 ∧ s' = s) ∨ (r = 0 ∧ s.tab.lookup name = .ok none ∧ s.kernel.call (.newSemaphore init) = .ok s'.kernel ∧
      ∃ i, i < s.tab.bm.numBits ∧ s.tab.bm.bit i = false ∧ s'.tab = s.tab.fill i ⟨name, s.kernel.numSems⟩) := by
  obtain ⟨found, hl, h⟩ := bind_eq_ok.mp h
  cases found with
  | some sem => cases h; exact .inl ⟨rfl, rfl⟩
  | none =>
    simp only at h
    cases hc : s.tab.bm.clearBits with
    | nil =>
      rw [BitMap.find_nil _ hc] at h
      simp at h
      cases h
      exact .inl ⟨rfl, rfl⟩
    | cons i rest =>
      rw [BitMap.find_cons _ hc] at h
      simp only [show ¬ (i : Int) < 0 by omega, if_false] at h
      obtain ⟨k, hk, h⟩ := bind_eq_ok.mp h
      cases h
      have hi := (BitMap.mem_clearBits s.tab.bm i).mp (hc ▸ mem_cons_self)
      exact .inr ⟨rfl, hl, hk, i, hi.1, hi.2, rfl⟩

theorem on_eq {call : SemId → Dispatch.Event} (h : s.on name call = .ok (r, s')) :
    s' = s ∨ ∃ sem, s.tab.lookup name = .ok (some sem) ∧ s'.tab = s.tab ∧ s.kernel.call (call sem) = .ok s'.kernel := by
  obtain ⟨found, hl, h⟩ := bind_eq_ok.mp h
  cases found with
  | none => cases h; exact .inl rfl
  | some sem =>
    obtain ⟨k, hk, h⟩ := bind_eq_ok.mp h
    cases h
    exact .inr ⟨sem, hl, rfl, hk⟩

/-- What a step is: nothing, a call of `Create` that fills a slot, a call of `P` or `V` on a
    semaphore of the table, or a step of the rest of the kernel. -/
theorem step_eq (h : s.step e = .ok s') : s' = s ∨
    (s.kernel.inCode = true ∧ ∃ user semval, s.createSemaphore user semval = .ok (0, s')) ∨
    (s.kernel.inCode = true ∧ ∃ user sem, s.tab.lookup (kernelName user) = .ok (some sem) ∧ s'.tab = s.tab ∧
      (s.kernel.call (.p sem) = .ok s'.kernel ∨ e = .signal user ∧ s.kernel.call (.v sem) = .ok s'.kernel)) ∨
    ∃ e', s.foreign e' = true ∧ s'.tab = s.tab ∧ s.kernel.step e' = .ok s'.kernel := by
  cases e with
  | createSemaphore user semval =>
    simp only [step] at h
    split at h
    · rename_i hc
      obtain ⟨⟨r, s1⟩, h1, rfl⟩ := map_eq_ok.mp h
      rcases create_eq h1 with ⟨-, rfl⟩ | ⟨rfl, -⟩
      · exact .inl rfl
      · exact .inr (.inl ⟨hc, user, semval, h1⟩)
    · cases h; exact .inl rfl
  | wait user =>
    simp only [step] at h
    split at h
    · rename_i hc
      obtain ⟨⟨r, s1⟩, h1, rfl⟩ := map_eq_ok.mp h
      rcases on_eq h1 with rfl | ⟨sem, hl, ht, hk⟩
      · exact .inl rfl
      · exact .inr (.inr (.inl ⟨hc, user, sem, hl, ht, .inl hk⟩))
    · cases h; exact .inl rfl
  | signal user =>
    simp only [step] at h
    split at h
    · rename_i hc
      obtain ⟨⟨r, s1⟩, h1, rfl⟩ := map_eq_ok.mp h
      rcases on_eq h1 with rfl | ⟨sem, hl, ht, hk⟩
      · exact .inl rfl
      · exact .inr (.inr (.inl ⟨hc, user, sem, hl, ht, .inr ⟨rfl, hk⟩⟩))
    · cases h; exact .inl rfl
  | other e' =>
    simp only [step] at h
    split at h
    · rename_i hf
      obtain ⟨k, hk, rfl⟩ := map_eq_ok.mp h
      exact .inr (.inr (.inr ⟨e', hf, rfl, hk⟩))
    · cases h; exact .inl rfl

/-! ## From `Create` on -/

theorem Sound.create (h : s.Sound) (e : s.create name init = .ok (0, s')) : s'.Sound := by
  rcases create_eq e with ⟨h', -⟩ | ⟨-, -, hk, i, hi, -, ht⟩
  · cases h'
  refine ⟨by rw [ht]; exact h.size, ?_⟩
  intro j x hx
  rw [ht] at hx
  by_cases ej : j = i
  · subst ej
    simp only [STable.fill, update_self, Option.some.injEq] at hx
    subst hx
    rw [← Except.ok.inj hk]
    exact Nat.lt_succ_self _
  · simp only [STable.fill, update_of_ne ej] at hx
    exact (Dispatch.call_keeps hk (h.made j x hx)).1

theorem Sound.same (h : s.Sound) (ht : s'.tab = s.tab)
    (hk : ∀ sem, sem < s.kernel.numSems → sem < s'.kernel.numSems) : s'.Sound :=
  ⟨by rw [ht]; exact h.size, fun i x hx => hk _ (h.made i x (by rw [← ht]; exact hx))⟩

theorem step_sound (h : s.Sound) (hc : s.kernel.Custody) (hs : s.step e = .ok s') : s'.Sound ∧ s'.kernel.Custody := by
  rcases step_eq hs with rfl | ⟨hcd, user, semval, he⟩ | ⟨hcd, user, sem, -, ht, hk⟩ | ⟨e', -, ht, hk⟩
  · exact ⟨h, hc⟩
  · rcases create_eq he with ⟨h', -⟩ | ⟨-, -, hk, -⟩
    · cases h'
    · exact ⟨h.create he, hc.call (Dispatch.inCode_iff.mp hcd) hk⟩
  · rcases hk with hk | ⟨-, hk⟩
    · exact ⟨h.same ht fun sem hsm => (Dispatch.call_keeps hk hsm).1, hc.call (Dispatch.inCode_iff.mp hcd) hk⟩
    · exact ⟨h.same ht fun sem hsm => (Dispatch.call_keeps hk hsm).1, hc.call (Dispatch.inCode_iff.mp hcd) hk⟩
  · exact ⟨h.same ht fun sem hsm => (Dispatch.step_keeps hk hsm).1, Dispatch.step_custody hc e' hk⟩

/-- The name stands for semaphore `sem`, created with `semval`, and no other name does. -/
structure Since (name : List Byte) (sem : SemId) (semval : Word) (s : SemSys) : Prop where
  sound : s.Sound
  custody : s.kernel.Custody
  lawful : s.kernel.Lawful sem
  made : sem < s.kernel.numSems
  initial : s.kernel.initial sem = semval
  found : s.tab.lookup name = .ok (some sem)
  own : ∀ i x, s.tab.semTab i = some x → x.sem = sem → x.name = name

variable {sem : SemId} {semval : Word}

theorem Since.semOf (h : Since name sem semval s) : s.semOf name = some sem := by
  simp only [SemSys.semOf, h.found]

theorem Since.same (h : Since name sem semval s) (ht : s'.tab = s.tab) (hc : s'.kernel.Custody)
    (hl : s'.kernel.Lawful sem)
    (hk : ∀ {sem}, sem < s.kernel.numSems → sem < s'.kernel.numSems ∧ s'.kernel.initial sem = s.kernel.initial sem) :
    Since name sem semval s' where
  sound := h.sound.same ht fun _ hs => (hk hs).1
  custody := hc
  lawful := hl
  made := (hk h.made).1
  initial := (hk h.made).2.trans h.initial
  found := by rw [ht]; exact h.found
  own := by rw [ht]; exact h.own

theorem created_since (hsn : s.Sound) (hc : s.kernel.Custody) (hcd : s.kernel.inCode = true)
    (e : s.create name semval = .ok (0, s')) : Since name s.kernel.numSems semval s' := by
  rcases create_eq e with ⟨h', -⟩ | ⟨-, hn, hk, i, hi, -, ht⟩
  · cases h'
  have hi' : i ∈ List.range maxSemaphore := mem_range.mpr (hsn.size ▸ hi)
  have hf : s'.tab.lookup name = .ok (some s.kernel.numSems) := by
    rw [ht]
    exact STable.search_fill_self (x := ⟨name, s.kernel.numSems⟩) hi _ hi' hn
  refine ⟨hsn.create e, hc.call (Dispatch.inCode_iff.mp hcd) hk, ?_, ?_, ?_, hf, ?_⟩
  · exact Dispatch.newSemaphore_lawful (fun hs => absurd hs (Nat.lt_irrefl _)) hk
  · rw [← Except.ok.inj hk]; exact Nat.lt_succ_self _
  · rw [← Except.ok.inj hk]; exact update_self ..
  · intro j x hx hsm
    rw [ht] at hx
    by_cases ej : j = i
    · subst ej
      simp only [STable.fill, update_self, Option.some.injEq] at hx
      subst hx
      rfl
    · simp only [STable.fill, update_of_ne ej] at hx
      exact absurd hsm (Nat.ne_of_lt (hsn.made j x hx))

theorem step_since (h : Since name sem semval s) (hft : s.Fits name e) (hs : s.step e = .ok s') :
    Since name sem semval s' := by
  have hq : ∀ {ev : Dispatch.Event}, sem ∉ ev.signals → s.kernel.Fits sem ev := by
    intro ev hev
    have := (s.kernel.sems sem).value.toInt_lt
    have hmx : intMax.toInt = 2147483647 := rfl
    rw [Dispatch.Fits, count_eq_zero.mpr hev]
    omega
  rcases step_eq hs with rfl | ⟨hc, user, semval', he⟩ | ⟨hc, user, sem', hl, ht, hk⟩ | ⟨e', hf, ht, hk⟩
  · exact h
  · -- another name gets a slot of its own
    rcases create_eq he with ⟨h', -⟩ | ⟨-, hnn, hk, i, hi, hcl, ht⟩
    · cases h'
    have hnm : kernelName user ≠ name := by
      intro en
      rw [en, h.found] at hnn
      cases hnn
    have hcr := Dispatch.inCode_iff.mp hc
    refine ⟨h.sound.create he, h.custody.call hcr hk, Dispatch.newSemaphore_lawful h.lawful hk,
      (Dispatch.call_keeps hk h.made).1, (Dispatch.call_keeps hk h.made).2.trans h.initial, ?_, ?_⟩
    · rw [ht]
      exact (STable.search_fill_ne hi hcl hnm _).trans h.found
    intro j x hx hsm
    rw [ht] at hx
    by_cases ej : j = i
    · subst ej
      simp only [STable.fill, update_self, Option.some.injEq] at hx
      subst hx
      exact absurd hsm (Nat.ne_of_gt h.made)
    · simp only [STable.fill, update_of_ne ej] at hx
      exact h.own j x hx hsm
  · have hcr := Dispatch.inCode_iff.mp hc
    rcases hk with hk | ⟨rfl, hk⟩
    · exact h.same ht (h.custody.call hcr hk)
        (Dispatch.call_lawful h.custody h.lawful (hq (by simp [Dispatch.Event.signals])) hcr hk)
        (Dispatch.call_keeps hk)
    · have hf' : s.kernel.Fits sem (.v sem') := by
        by_cases es : sem' = sem
        · subst es
          -- a `Signal` that reaches the semaphore is one on its name
          obtain ⟨i, -, x, hx, hn, hsm⟩ := STable.search_some _ hl
          have hv := hft user rfl (hn.symm.trans (h.own i x hx hsm))
          rw [valueOf, h.semOf] at hv
          have ha := IntSemaphore.toInt_add_one hv
          have := ((s.kernel.sems sem').value + 1).toInt_lt
          have hmx : intMax.toInt = 2147483647 := rfl
          simp only [Dispatch.Fits, Dispatch.Event.signals, count_cons_self, count_nil]
          simp only [Option.elim] at ha
          omega
        · exact hq (by simpa [Dispatch.Event.signals] using Ne.symm es)
      exact h.same ht (h.custody.call hcr hk) (Dispatch.call_lawful h.custody h.lawful hf' hcr hk)
        (Dispatch.call_keeps hk)
  · have hnt : sem ∉ e'.signals := by
      obtain ⟨i, hi, x, hx, -, hsm⟩ := STable.search_some _ h.found
      have := all_eq_true.mp hf i hi
      rw [hx] at this
      simp only [Option.all_some, decide_eq_true_eq, hsm] at this
      intro hm
      apply this
      cases e' with
      | p s => cases hm
      | _ => exact hm
    exact h.same ht (Dispatch.step_custody h.custody e' hk)
      (Dispatch.step_lawful h.custody h.lawful (hq hnt) hk) (Dispatch.step_keeps hk)

end

/-! ## Whole runs -/

theorem reach_sound {s : SemSys} {ok : SemSys → Event → Prop} (h : Reach step ok Init s) :
    s.Sound ∧ s.kernel.Custody := by
  refine h.inv (P := fun s => s.Sound ∧ s.kernel.Custody) ?_ ?_
  · intro s hs
    obtain ⟨hk, g, ht⟩ := hs
    refine ⟨⟨by rw [ht]; exact BitMap.numBits_new .., ?_⟩, hk ▸ Dispatch.start_custody⟩
    intro i x hx
    rw [ht] at hx
    cases hx
  · intro s e s' hs _ hst
    exact step_sound hs.1 hs.2 hst

/-- Once `CreateSemaphore(name, semval)` has returned 0: the calls of `Wait` that have
    returned are at most `max semval 0` plus the calls of `Signal`, and the value is never
    negative, in every run in which no `Signal` on the name finds the largest `int`, exactly
    when `semval` is not negative. -/
theorem wait_bounded {a b : SemSys} {user : List Byte} {semval : Word} (ha : Lib.Reach step (fun _ _ => True) Init a)
    (hcode : a.kernel.inCode = true) (hb : a.createSemaphore user semval = .ok (0, b)) :
    (∀ c, Lib.From step (Fits (kernelName user)) b c →
      (c.waited (kernelName user) : Int) ≤ max semval.toInt 0 + c.signalled (kernelName user) ∧
      0 ≤ (c.valueOf (kernelName user)).toInt) ↔ 0 ≤ semval.toInt := by
  obtain ⟨hsound, hcust⟩ := reach_sound ha
  have hsince := created_since hsound hcust hcode hb
  constructor
  · intro h
    have hv := (h b (.init rfl)).2
    rw [valueOf, hsince.semOf] at hv
    rcases create_eq hb with ⟨h', -⟩ | ⟨-, -, hk, -⟩
    · cases h'
    rw [← Except.ok.inj hk] at hv
    simpa [IntSemaphore.new] using hv
  · intro hpos c hc
    have hsc : Since (kernelName user) a.kernel.numSems semval c := by
      refine hc.inv (P := Since (kernelName user) a.kernel.numSems semval) ?_ ?_
      · intro s hs; subst hs; exact hsince
      · intro s e s' hs hfit hst; exact step_since hs hfit hst
    obtain ⟨hcount, hnonneg, -⟩ := hsc.lawful hsc.made (by rw [hsc.initial]; exact hpos)
    rw [hsc.initial] at hcount
    simp only [waited, signalled, valueOf, hsc.semOf, Option.elim]
    exact ⟨by omega, hnonneg⟩

/-- Before any call: the table is empty and nothing but the main thread runs. -/
def booted : SemSys := ⟨.start, .new fun _ => 0⟩

theorem booted_init : booted.Init := ⟨rfl, _, rfl⟩

/-- `CreateSemaphore("s", 1)`, a second thread, and a `Wait` of each: one returns. -/
theorem wait_bounded_by_one : ∃ b c, booted.createSemaphore [115, 0] 1 = .ok (0, b) ∧
    Lib.From step (Fits [115]) b c ∧ c.waited [115] = 1 ∧ c.kernel.readyList = [] ∧
    (c.waited [115] : Int) ≤ max (1 : Word).toInt 0 + c.signalled [115] ∧ 0 ≤ (c.valueOf [115]).toInt := by
  obtain ⟨⟨r, b⟩, hb, ht⟩ := exists_ok (x := booted.createSemaphore [115, 0] 1)
    (fun x => x.1 == 0 && (runWhen step (fun _ e => !e matches .signal _) x.2
      [.other .fork, .wait [115, 0], .other .yield, .other .resume, .wait [115, 0]]).any
        fun c => c.waited [115] == 1 && c.kernel.readyList == []) (by decide +kernel)
  simp only [Bool.and_eq_true, beq_iff_eq] at ht
  obtain ⟨rfl, hrun⟩ := ht
  obtain ⟨c, hc, ht⟩ := (Option.any_eq_true ..).mp hrun
  simp only [Bool.and_eq_true, beq_iff_eq] at ht
  have hfrom : From step (Fits [115]) b c := by
    refine Reach.mono ?_ (runWhen_reach _ (.init rfl) hc)
    intro s e h user he
    subst he
    cases h
  have hname : kernelName [115, 0] = [115] := by decide
  have := (wait_bounded (.init booted_init) (by decide) hb).mpr (by decide) c (hname ▸ hfrom)
  rw [hname] at this
  exact ⟨b, c, hb, hfrom, ht.1, ht.2, this⟩

/-- `CreateSemaphore("s", -1)`: the value is negative at once, and a `Wait` returns. -/
theorem wait_unbounded_when_negative : ∃ b c, booted.createSemaphore [115, 0] (-1) = .ok (0, b) ∧
    b.step (.wait [115, 0]) = .ok c ∧ (b.valueOf [115]).toInt < 0 ∧
    ¬ (c.waited [115] : Int) ≤ max (-1 : Word).toInt 0 + c.signalled [115] := by
  obtain ⟨⟨r, b⟩, hb, ht⟩ := exists_ok (x := booted.createSemaphore [115, 0] (-1))
    (fun x => x.1 == 0 && decide ((x.2.valueOf [115]).toInt < 0) && (x.2.step (.wait [115, 0])).toOption.any
      fun c => c.waited [115] == 1 && c.signalled [115] == 0) (by decide +kernel)
  simp only [Bool.and_eq_true, beq_iff_eq, decide_eq_true_eq] at ht
  obtain ⟨⟨rfl, hneg⟩, hwait⟩ := ht
  obtain ⟨c, hc, hcount⟩ := exists_ok _ hwait
  simp only [Bool.and_eq_true, beq_iff_eq] at hcount
  refine ⟨b, c, hb, hc, hneg, ?_⟩
  rw [hcount.1, hcount.2]
  decide

end SemSys

end Nachos

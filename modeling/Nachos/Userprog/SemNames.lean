/-
  Nachos.Userprog.SemNames — the table of user semaphores as a finite map on names.

  The bitmap and the slots of the table say the same about which slots are used, and no
  name is in two of them, so the first slot with a name is the only one. The map only
  grows: a name keeps the semaphore it was created with, and no other name has it.
-/

import Nachos.Lib.Entries
import Nachos.Userprog.STable

namespace Nachos

open Lib List
open Function (comp_apply update update_of_ne update_self)

/-! ## Calls that find their threads do not fail -/

namespace Dispatch

section

variable {k : Dispatch} {t : Tid} {th : Thread}

theorem modifyThread_ok (f : Thread → Thread) (ht : k.threads t = some th) :
    k.modifyThread t f = .ok { k with threads := update k.threads t (some (f th)) } := by
  rw [modifyThread, ht]

theorem Custody.record (h : k.Custody) {q : Place} (ht : t ∈ k.lists q) : ∃ th, k.threads t = some th := by
  have hp := h.seated.mem_iff.mp ht
  rw [placeOf] at hp
  cases hth : k.threads t with
  | none => rw [hth] at hp; cases hp
  | some th => exact ⟨th, rfl⟩

theorem Custody.sleepLoop_ok (h : k.Custody) {k' : Dispatch} (hr : k'.readyList = k.readyList)
    (ht : ∀ t th, k.threads t = some th → ∃ th', k'.threads t = some th') : ∃ k'', k'.sleepLoop = .ok k'' := by
  unfold Dispatch.sleepLoop findNextToRun
  cases hl : k.readyList with
  | nil => exact ⟨_, by rw [hr, hl]; rfl⟩
  | cons next rest =>
    obtain ⟨th, hth⟩ := h.record (q := .readyList) (show next ∈ k.readyList by rw [hl]; exact mem_cons_self)
    obtain ⟨th', ht'⟩ := ht next th hth
    rw [hr, hl]
    exact ⟨_, modifyThread_ok _ ht'⟩

theorem Custody.p_ok (h : k.Custody) {s : SemId} (hs : s < k.numSems) : ∃ k', k.p s = .ok k' := by
  obtain ⟨th, hcr⟩ := h.current
  have hp : ∀ (k' : Dispatch) (point : Point), k'.threads = k.threads → k'.currentThread = k.currentThread →
      k'.setPoint point = .ok { k' with threads := update k.threads k.currentThread (some { th with point }) } := by
    intro k' point hth hc
    rw [Dispatch.setPoint,
      modifyThread_ok _ (show k'.threads k'.currentThread = some th by rw [hth, hc]; exact hcr), hth,
      hc]
  unfold Dispatch.p Dispatch.pLoop IntSemaphore.p
  rw [if_pos hs]
  by_cases hz : (k.sems s).value = 0
  · -- it goes to sleep, and the CPU to the first ready thread
    simp only [if_pos hz, hp { k with level := .intOff } (.inP s k.level) rfl rfl, bind, Except.bind]
    unfold Dispatch.sleep
    simp only [if_true, setStatus, modifyThread, update_self, bind, Except.bind]
    refine h.sleepLoop_ok rfl fun t th' ht => ?_
    by_cases e : t = k.currentThread
    · subst e
      exact ⟨_, update_self ..⟩
    · exact ⟨th', (update_of_ne e ..).trans ((update_of_ne e ..).trans ht)⟩
  · simp only [if_neg hz, hp { k with level := .intOff } .code rfl rfl, bind, Except.bind]
    exact ⟨_, rfl⟩

theorem Custody.v_ok (h : k.Custody) {s : SemId} (hs : s < k.numSems) : ∃ k', k.v s = .ok k' := by
  unfold Dispatch.v
  rw [if_pos hs]
  cases hq : (k.sems s).v.2 with
  | none => exact ⟨_, rfl⟩
  | some t =>
    have hqu : t ∈ k.lists (.queue s) := mem_of_mem_head? hq
    obtain ⟨th, hth⟩ := h.record hqu
    simp only [readyToRun, setStatus, modifyThread, hth, bind, Except.bind]
    exact ⟨_, rfl⟩

end

end Dispatch

namespace STable

/-! ## The table as a map -/

def slot (tab : STable) (i : Nat) : Option (List Byte × SemId) := (tab.semTab i).map fun x => (x.name, x.sem)

def entries (tab : STable) : Lib.Entries (List Byte) SemId := (List.range maxSemaphore).map tab.slot

/-- The table as a map from names to semaphores. -/
def view (tab : STable) : Lib.Bounded (List Byte) SemId := tab.entries.view

/-- What every run keeps of the table. -/
structure Kept (tab : STable) : Prop where
  size : tab.bm.numBits = maxSemaphore
  bits : ∀ i, i < maxSemaphore → tab.bm.bit i = (tab.semTab i).isSome
  names : tab.entries.keys.Nodup
  /-- No semaphore is in two slots. -/
  own : ∀ i j x y, tab.semTab i = some x → tab.semTab j = some y → x.sem = y.sem → i = j

variable {i : Nat}

section

variable {tab : STable} {name : List Byte}

theorem search_eq {l : List Nat} (h : ∀ i ∈ l, tab.bm.bit i = (tab.semTab i).isSome) :
    tab.search name l = .ok (Entries.get (l.map tab.slot) name) := by
  induction l with
  | nil => rfl
  | cons i l ih =>
    have hr := ih fun j hj => h j (mem_cons_of_mem _ hj)
    rw [search, h i mem_cons_self, map_cons, Entries.get_cons, slot]
    cases hi : tab.semTab i with
    | none => simpa using hr
    | some x =>
      by_cases hx : x.name = name
      · simp [hx]
      · simp [hx, hr]

theorem Kept.lookup (h : tab.Kept) (name : List Byte) : tab.lookup name = .ok (tab.view.get name) :=
  search_eq fun i hi => h.bits i (mem_range.mp hi)

theorem getElem?_entries (hi : i < maxSemaphore) : tab.entries[i]? = some (tab.slot i) := by
  rw [entries, getElem?_map, getElem?_range hi]
  rfl

theorem entries_fill (x : STable.Sem) : (tab.fill i x).entries = tab.entries.set i (some (x.name, x.sem)) := by
  apply ext_getElem?
  intro j
  rw [getElem?_set, entries, entries, length_map, length_range, getElem?_map, getElem?_map]
  by_cases hj : j < maxSemaphore
  · rw [getElem?_range hj]
    by_cases e : i = j
    · subst e
      simp [slot, fill, hj]
    · simp [slot, fill, e, Ne.symm e]
  · rw [getElem?_eq_none (by rw [length_range]; omega)]
    by_cases e : i = j
    · subst e
      simp [hj]
    · simp [e]

/-- A name's semaphore is in a slot. -/
theorem Kept.get_some (h : tab.Kept) {sem : SemId} :
    tab.view.get name = some sem ↔ ∃ i x, i < maxSemaphore ∧ tab.semTab i = some x ∧ x.name = name ∧ x.sem = sem := by
  rw [view, Entries.view, Entries.get_eq_some h.names, entries, mem_map]
  constructor
  · rintro ⟨i, hi, hs⟩
    obtain ⟨x, hx, hp⟩ := Option.map_eq_some_iff.mp hs
    cases hp
    exact ⟨i, x, mem_range.mp hi, hx, rfl, rfl⟩
  · rintro ⟨i, x, hi, hx, rfl, rfl⟩
    exact ⟨i, mem_range.mpr hi, by rw [slot, hx]; rfl⟩

theorem Kept.clear_iff (h : tab.Kept) (hi : i < maxSemaphore) : tab.bm.bit i = false ↔ tab.semTab i = none := by
  rw [h.bits i hi]
  cases tab.semTab i <;> simp

/-- Without a clear bit there is no room. -/
theorem Kept.room_eq_zero (h : tab.Kept) (hf : tab.bm.clearBits = []) : tab.view.room = 0 := by
  refine countP_eq_zero.mpr fun e he hn => ?_
  obtain ⟨i, hi, rfl⟩ := mem_map.mp he
  have hi' := mem_range.mp hi
  have hs : tab.semTab i = none := by
    rw [slot] at hn
    simpa using hn
  have hm : i ∈ tab.bm.clearBits := (BitMap.mem_clearBits ..).mpr ⟨by rwa [h.size], (h.clear_iff hi').mpr hs⟩
  rw [hf] at hm
  cases hm

/-- A slot is given to a name that is not there. -/
theorem Kept.fill (h : tab.Kept) {x : STable.Sem} (hi : i < maxSemaphore) (hc : tab.bm.bit i = false)
    (hnm : tab.view.get x.name = none) (hfr : ∀ j y, tab.semTab j = some y → y.sem ≠ x.sem) :
    (tab.fill i x).Kept ∧ tab.view.add x.name x.sem = (true, (tab.fill i x).view) := by
  have hi' : i < tab.bm.numBits := by rwa [h.size]
  have hf : tab.entries[i]? = some none := by
    rw [getElem?_entries hi, slot, (h.clear_iff hi).mp hc]
    rfl
  obtain ⟨hv, hn⟩ := Entries.fill_view h.names x.name x.sem hf (Entries.get_eq_none.mp hnm)
  rw [← entries_fill] at hv hn
  refine ⟨⟨h.size, ?_, hn, ?_⟩, hv.symm⟩
  · intro j hj
    rw [STable.fill, BitMap.bit_markBit _ hi', h.bits j hj]
    by_cases e : i = j
    · subst e
      simp
    · simp [e, Ne.symm e]
  · intro j j' y y' hy hy' hs
    by_cases e : j = i
    · by_cases e' : j' = i
      · exact e.trans e'.symm
      subst e
      simp only [STable.fill, update_self, Option.some.injEq] at hy
      simp only [STable.fill, update_of_ne e'] at hy'
      exact absurd (hs.symm.trans (congrArg _ hy.symm)) (hfr j' y' hy')
    · simp only [STable.fill, update_of_ne e] at hy
      by_cases e' : j' = i
      · subst e'
        simp only [STable.fill, update_self, Option.some.injEq] at hy'
        exact absurd (hs.trans (congrArg _ hy'.symm)) (hfr j y hy)
      · simp only [STable.fill, update_of_ne e'] at hy'
        exact h.own j j' y y' hy hy' hs

/-- How many semaphores there are. -/
def count (tab : STable) : Nat := (List.range maxSemaphore).countP fun i => (tab.semTab i).isSome

theorem count_room (tab : STable) : tab.count + tab.view.room = maxSemaphore := by
  have hr : tab.view.room = (List.range maxSemaphore).countP fun i => !(tab.semTab i).isSome := by
    show tab.entries.room = _
    rw [Entries.room, entries, countP_map]
    congr 1
    funext i
    rw [comp_apply, slot]
    cases tab.semTab i <;> rfl
  have hl := length_eq_countP_add_countP (fun i => (tab.semTab i).isSome) (l := List.range maxSemaphore)
  rw [length_range] at hl
  simp only [Bool.not_eq_true, Bool.decide_eq_false] at hl
  rw [hr, count]
  exact hl.symm

end

end STable

namespace SemSys

/-! ## The calls on the map -/

structure Mapped (s : SemSys) : Prop where
  kept : s.tab.Kept
  sound : s.Sound
  custody : s.kernel.Custody

section

variable {s s' : SemSys} {name : List Byte}

/-- `Create` does to the table what it does to the map. -/
theorem Mapped.create (h : s.Mapped) (name : List Byte) (init : Word) :
    ∃ r s', s.create name init = .ok (r, s') ∧
      (r = 0 ∧ s.tab.view.add name s.kernel.numSems = (true, s'.tab.view) ∧ s'.tab.Kept ∧
          s.kernel.call (.newSemaphore init) = .ok s'.kernel ∨
        r = -1 ∧ s' = s ∧ s.tab.view.add name s.kernel.numSems = (false, s.tab.view)) := by
  rw [SemSys.create, h.kept.lookup name]
  cases hg : s.tab.view.get name with
  | some sem => exact ⟨-1, s, rfl, .inr ⟨rfl, rfl, Bounded.add_refused _ (.inl (by rw [hg]; simp))⟩⟩
  | none =>
    cases hc : s.tab.bm.clearBits with
    | nil =>
      refine ⟨-1, s, ?_, .inr ⟨rfl, rfl, Bounded.add_refused _ (.inr (h.kept.room_eq_zero hc))⟩⟩
      simp only [bind, Except.bind, BitMap.find_nil _ hc]
      rfl
    | cons i rest =>
      obtain ⟨hi, hb⟩ := (BitMap.mem_clearBits s.tab.bm i).mp (hc ▸ mem_cons_self)
      have hf : ∀ j y, s.tab.semTab j = some y → y.sem ≠ s.kernel.numSems := fun j y hy => Nat.ne_of_lt (h.sound.made j y hy)
      obtain ⟨hk, hv⟩ := h.kept.fill (x := ⟨name, s.kernel.numSems⟩) (h.kept.size ▸ hi) hb hg hf
      refine ⟨0, ⟨_, s.tab.fill i ⟨name, s.kernel.numSems⟩⟩, ?_, .inl ⟨rfl, hv, hk, rfl⟩⟩
      simp only [bind, Except.bind, BitMap.find_cons _ hc, show ¬ (i : Int) < 0 by omega, if_false]
      rfl

/-- What `Create` makes of the map when it returns 0. -/
theorem Mapped.created (h : s.Mapped) {init : Word} (e : s.create name init = .ok (0, s')) :
    s.tab.view.add name s.kernel.numSems = (true, s'.tab.view) ∧ s'.tab.Kept ∧ s.kernel.call (.newSemaphore init) = .ok s'.kernel := by
  obtain ⟨r, s1, hc, ⟨-, hm⟩ | ⟨rfl, -⟩⟩ := h.create name init
  · cases e.symm.trans hc
    exact hm
  · cases e.symm.trans hc

theorem Mapped.on (h : s.Mapped) (name : List Byte) (call : SemId → Dispatch.Event) :
    s.on name call = match s.tab.view.get name with
      | none => .ok (-1, s)
      | some sem => (fun kernel => (0, { s with kernel })) <$> s.kernel.call (call sem) := by
  rw [SemSys.on, h.kept.lookup name]
  cases s.tab.view.get name <;> rfl

theorem step_mapped (h : s.Mapped) {e : Event} (hs : s.step e = .ok s') :
    s'.Mapped ∧ ∀ name sem, s.tab.view.get name = some sem → s'.tab.view.get name = some sem := by
  obtain ⟨hsn, hcs⟩ := step_sound h.sound h.custody hs
  have hsm : s'.tab = s.tab → s'.Mapped ∧ ∀ name sem, s.tab.view.get name = some sem → s'.tab.view.get name = some sem := by
    intro ht
    rw [ht]
    exact ⟨⟨ht ▸ h.kept, hsn, hcs⟩, fun _ _ hn => hn⟩
  rcases step_eq hs with rfl | ⟨-, user, semval, hc⟩ | ⟨-, -, -, -, ht, -⟩ | ⟨-, -, ht, -⟩
  · exact hsm rfl
  · obtain ⟨ha, hk, -⟩ := h.created hc
    refine ⟨⟨hk, hsn, hcs⟩, fun name sem hn => ?_⟩
    have hne : name ≠ kernelName user := by
      rintro rfl
      rw [Bounded.add_refused _ (.inl (by rw [hn]; simp))] at ha
      cases ha
    have hg := Bounded.get_add_of_ne s.tab.view s.kernel.numSems hne
    rw [ha] at hg
    exact hg.trans hn
  · exact hsm ht
  · exact hsm ht

end

/-! ## Whole runs -/

theorem init_mapped {s : SemSys} (h : s.Init) : s.Mapped := by
  have hr : Reach step (fun _ _ => True) Init s := .init h
  obtain ⟨hs, hc⟩ := reach_sound hr
  obtain ⟨hk, g, ht⟩ := h
  refine ⟨?_, hs, hc⟩
  rw [ht]
  refine ⟨BitMap.numBits_new .., fun i hi => BitMap.bit_new _ g hi, ?_, fun i j x y hx => by cases hx⟩
  have hem : (STable.new g).entries = List.replicate maxSemaphore none := by
    rw [STable.entries, eq_replicate_iff]
    exact ⟨by rw [length_map, length_range], fun e he => by obtain ⟨i, -, rfl⟩ := mem_map.mp he; rfl⟩
  rw [hem, Entries.keys, reduceOption_replicate_none]
  exact nodup_nil

/-- `CreateSemaphore(name, semval)` returns 0 just if the name is absent and there are fewer
    than MAX_SEMAPHORE semaphores: it then stands for a new semaphore with this value from
    then on, and no other name changes. Otherwise it returns -1 and does nothing. -/
def CreatesInMap (s : SemSys) (user : List Byte) (semval : Word) : Prop :=
  ∃ r s', s.createSemaphore user semval = .ok (r, s') ∧
    (r = 0 ↔ s.tab.view.get (kernelName user) = none ∧ s.tab.count < maxSemaphore) ∧ (r ≠ 0 → r = -1 ∧ s' = s) ∧
    (r = 0 → s'.kernel.sems s.kernel.numSems = .new semval ∧ s'.tab.count = s.tab.count + 1 ∧
      (∀ name, name ≠ kernelName user → s'.tab.view.get name = s.tab.view.get name) ∧
      ∀ c, Lib.From step (fun _ _ => True) s' c → c.tab.view.get (kernelName user) = some s.kernel.numSems)

/-- A call that returns -1 and does nothing if the name is absent, and if it is not, returns
    0 and makes its call on the semaphore of the name and no other. -/
def ReachesInMap (s : SemSys) (name : List Byte) (call : SemId → Dispatch.Event) (result : Except Stop (Int × SemSys)) : Prop :=
  (s.tab.view.get name = none → result = .ok (-1, s)) ∧
  ∀ sem, s.tab.view.get name = some sem → ∃ k, s.kernel.call (call sem) = .ok k ∧ result = .ok (0, { s with kernel := k }) ∧
    ∀ other, other ≠ sem → k.sems other = s.kernel.sems other ∧ k.ps other = s.kernel.ps other ∧ k.vs other = s.kernel.vs other

section

variable {s : SemSys}

theorem Mapped.creates (h : s.Mapped) (hcd : s.kernel.inCode = true) (user : List Byte) (semval : Word) :
    s.CreatesInMap user semval := by
  have hr := s.tab.count_room
  obtain ⟨r, s', hcr, ⟨rfl, ha, hkp, hk⟩ | ⟨rfl, rfl, ha⟩⟩ := h.create (kernelName user) semval
  · have hn : s.tab.view.get (kernelName user) = none ∧ 0 < s.tab.view.room := by
      by_contra hno
      rw [Bounded.add, if_neg hno] at ha
      cases ha
    have hv : s'.tab.view = ⟨update s.tab.view.get (kernelName user) (some s.kernel.numSems), s.tab.view.room - 1⟩ := by
      rw [Bounded.add, if_pos hn] at ha
      exact (congrArg Prod.snd ha).symm
    refine ⟨0, s', hcr, ⟨fun _ => ⟨hn.1, by omega⟩, fun _ => rfl⟩, fun h => absurd rfl h, fun _ => ⟨?_, ?_, ?_, ?_⟩⟩
    · rw [← Except.ok.inj hk]
      exact update_self ..
    · have hr' := s'.tab.count_room
      rw [hv] at hr'
      simp only at hr'
      omega
    · intro name hne
      rw [hv]
      exact update_of_ne hne ..
    · intro c hc
      have hs : s.step (.createSemaphore user semval) = .ok s' := by
        rw [step, if_pos hcd, createSemaphore, hcr]
        rfl
      have hm := (step_mapped h hs).1
      refine (hc.inv (P := fun c => c.Mapped ∧ c.tab.view.get (kernelName user) = some s.kernel.numSems) ?_ ?_).2
      · rintro b rfl
        exact ⟨hm, by rw [hv]; exact update_self ..⟩
      · intro b e b' hb _ hs
        exact ⟨(step_mapped hb.1 hs).1, (step_mapped hb.1 hs).2 _ _ hb.2⟩
  · refine ⟨-1, s', hcr, ⟨fun h => absurd h (by decide), ?_⟩, fun _ => ⟨rfl, rfl⟩, fun h => absurd h (by decide)⟩
    rintro ⟨hn, hcn⟩
    rw [Bounded.add, if_pos ⟨hn, by omega⟩] at ha
    cases ha

theorem Mapped.reaches (h : s.Mapped) (name : List Byte) {call : SemId → Dispatch.Event}
    (hok : ∀ sem, sem < s.kernel.numSems → ∃ k, s.kernel.call (call sem) = .ok k)
    (hqt : ∀ sem other k, s.kernel.call (call sem) = .ok k → other ≠ sem → Dispatch.Quiet other s.kernel k) :
    s.ReachesInMap name call (s.on name call) := by
  rw [ReachesInMap, h.on name call]
  constructor
  · intro hn
    rw [hn]
  intro sem hs
  obtain ⟨i, x, -, hx, -, rfl⟩ := h.kept.get_some.mp hs
  obtain ⟨k, hk⟩ := hok x.sem (h.sound.made i x hx)
  refine ⟨k, hk, by simp only [hs, hk]; rfl, fun other hne => ?_⟩
  have hq := hqt x.sem other k hk hne
  exact ⟨hq.sem, hq.ps, hq.vs⟩

end

/-- In every state of every run: a slot's bit is set just if it holds a semaphore, the names
    of the slots differ, the semaphores of the names differ, and the three calls act on the
    map from names to semaphores. -/
theorem semaphores_are_map {s : SemSys} (h : Lib.Reach step (fun _ _ => True) Init s) :
    (∀ i, i < maxSemaphore → (s.tab.bm.bit i = true ↔ s.tab.semTab i ≠ none)) ∧
    (∀ i j x y, i < maxSemaphore → j < maxSemaphore → s.tab.semTab i = some x → s.tab.semTab j = some y →
      x.name = y.name → i = j) ∧
    (∀ name name' sem, s.tab.view.get name = some sem → s.tab.view.get name' = some sem → name = name') ∧
    (s.kernel.inCode = true → (∀ user semval, s.CreatesInMap user semval) ∧
      (∀ user, s.ReachesInMap (kernelName user) .p (s.wait user)) ∧
      ∀ user, s.ReachesInMap (kernelName user) .v (s.signal user)) := by
  have hm : s.Mapped := h.inv (P := Mapped) (fun s hs => init_mapped hs) fun s e s' hs _ hst => (step_mapped hs hst).1
  refine ⟨?_, ?_, ?_, fun hcode => ⟨hm.creates hcode, fun user => ?_, fun user => ?_⟩⟩
  · intro i hi
    rw [hm.kept.bits i hi, Option.isSome_iff_ne_none]
  · intro i j x y hi hj hx hy hname
    have hget := hm.kept.get_some.mpr ⟨i, x, hi, hx, rfl, rfl⟩
    rw [hname, hm.kept.get_some.mpr ⟨j, y, hj, hy, rfl, rfl⟩] at hget
    exact hm.kept.own i j x y hx hy (Option.some.inj hget).symm
  · intro name name' sem hsem hsem'
    obtain ⟨i, x, hi, hx, rfl, rfl⟩ := hm.kept.get_some.mp hsem
    obtain ⟨j, y, hj, hy, rfl, hown⟩ := hm.kept.get_some.mp hsem'
    cases hm.kept.own i j x y hx hy hown.symm
    rw [Option.some.inj (hx.symm.trans hy)]
  · exact hm.reaches _ (fun sem hsem => hm.custody.p_ok hsem) fun sem other k hk hne =>
      (Dispatch.setLevel_quiet .intOff).trans (Dispatch.pLoop_quiet hne (Dispatch.inCode_iff.mp hcode) (.inl rfl) hk)
  · exact hm.reaches _ (fun sem hsem => hm.custody.v_ok hsem) fun sem other k hk hne => Dispatch.v_quiet hne hk

/-- "s" and "t" are created, and "s" a second time: the calls find two semaphores. -/
theorem two_semaphores : ∃ s, Lib.Reach step (fun _ _ => True) Init s ∧ s.tab.view.get [115] = some 0 ∧
    s.tab.view.get [116] = some 1 ∧ s.tab.count = 2 ∧ s.CreatesInMap [115, 0] 1 ∧ s.ReachesInMap [115] .p (s.wait [115, 0]) := by
  obtain ⟨s, hs, ht⟩ := exists_reach step (fun _ _ => true)
    [.createSemaphore [115, 0] 1, .createSemaphore [116, 0] 0, .createSemaphore [115, 0] 5]
    (fun s => s.kernel.inCode && s.tab.view.get [115] == some 0 && s.tab.view.get [116] == some 1 && s.tab.count == 2)
    booted_init (by decide +kernel)
  simp only [Bool.and_eq_true, beq_iff_eq] at ht
  obtain ⟨⟨⟨hcode, h₁⟩, h₂⟩, hcount⟩ := ht
  have hreach : Reach step (fun _ _ => True) Init s := Reach.mono (fun _ _ _ => trivial) hs
  obtain ⟨hcreate, hwait, -⟩ := (semaphores_are_map hreach).2.2.2 hcode
  exact ⟨s, hreach, h₁, h₂, hcount, hcreate [115, 0] 1, hwait [115, 0]⟩

end SemSys

end Nachos

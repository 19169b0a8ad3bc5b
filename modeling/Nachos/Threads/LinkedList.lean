/-
  Nachos.Threads.LinkedList — the pointers of `threads/list.cc`.

  A `List` holds `first` and `last`; the elements lie in memory. `new` returns an address that
  is not in use, `delete` gives it back, and an access through NULL or to memory that is not in
  use fails (`none`). The loop of `SortedInsert` is bounded by `steps`.

  `Laid` says which elements lie where: a segment from `first` to NULL (`Seg`) with `last` at its
  end. Every call either puts an element in front (`Laid.front`), puts one behind another
  (`Laid.behind`), or takes the first away (`Laid.tail`).
-/

import Mathlib.Data.List.Basic
import Mathlib.Logic.Function.Basic
import Nachos.Threads.SortedList

namespace Nachos

open Function (update update_eq_self update_of_ne update_self)
open List

/-- A `ListElement` in memory. -/
structure Cell (α : Type) where
  item : α
  key : Int
  next : Option Nat

/-- A `List` and the memory. -/
structure LinkedList (α : Type) where
  heap : Nat → Option (Cell α)
  first : Option Nat
  last : Option Nat

namespace LinkedList

variable {α : Type} {next : Option Nat} {steps : Nat}

/-! ## list.cc -/

def new (heap : Nat → Option (Cell α)) : LinkedList α := ⟨heap, none, none⟩

variable (q : LinkedList α)

/-- `new ListElement(item, sortKey)`, at address `element`. -/
def newElement (element : Nat) (item : α) (sortKey : Int) : LinkedList α :=
  { q with heap := update q.heap element (some ⟨item, sortKey, none⟩) }

/-- `ptr->next = next`. -/
def setNext (ptr next : Option Nat) : Option (LinkedList α) := do
  let p ← ptr
  let c ← q.heap p
  return { q with heap := update q.heap p (some { c with next }) }

def append (element : Nat) (item : α) : Option (LinkedList α) :=
  let q := q.newElement element item 0
  if q.first = none then some { q with first := some element, last := some element }
  else do
    let q ← q.setNext q.last (some element)
    return { q with last := some element }

def prepend (element : Nat) (item : α) : Option (LinkedList α) :=
  let q := q.newElement element item 0
  if q.first = none then some { q with first := some element, last := some element }
  else do
    let q ← q.setNext (some element) q.first
    return { q with first := some element }

/-- `for (ptr = first; ptr->next != NULL; ptr = ptr->next)` and what follows it. -/
def place (element : Nat) (sortKey : Int) : Nat → LinkedList α → Option Nat → Option (LinkedList α)
  | 0, _, _ => none
  | steps + 1, q, ptr => do
    let c ← ptr.bind q.heap
    match c.next with
    | none =>
      let q ← q.setNext q.last (some element)
      return { q with last := some element }
    | some n =>
      let d ← q.heap n
      if sortKey < d.key then
        let q ← q.setNext (some element) (some n)
        q.setNext ptr (some element)
      else place element sortKey steps q (some n)

def sortedInsert (steps element : Nat) (item : α) (sortKey : Int) : Option (LinkedList α) :=
  let q := q.newElement element item sortKey
  if q.first = none then some { q with first := some element, last := some element }
  else do
    let c ← q.first.bind q.heap
    if sortKey < c.key then
      let q ← q.setNext (some element) q.first
      return { q with first := some element }
    else place element sortKey steps q q.first

/-- What is returned, and what is stored in `*keyPtr` unless `keyPtr` is NULL. -/
abbrev Answer (α : Type) := Option (α × Option Int)

def sortedRemove (keyPtr : Bool) : Option (Answer α × LinkedList α) :=
  match q.first with
  | none => some (none, q)
  | some element => do
    let c ← q.heap element
    let q := if q.first = q.last then { q with first := none, last := none } else { q with first := c.next }
    return (some (c.item, if keyPtr then some c.key else none), { q with heap := update q.heap element none })

def remove : Option (Answer α × LinkedList α) := q.sortedRemove false

/-- A call; with one that calls `new`, the address `new` returns. -/
inductive Op (α : Type) where
  | append (element : Nat) (item : α)
  | prepend (element : Nat) (item : α)
  | remove
  | sortedInsert (element : Nat) (item : α) (sortKey : Int)
  | sortedRemove

def perform (steps : Nat) (q : LinkedList α) : Op α → Option (Answer α × LinkedList α)
  | .append element item => (q.append element item).map (none, ·)
  | .prepend element item => (q.prepend element item).map (none, ·)
  | .remove => q.remove
  | .sortedInsert element item sortKey => (q.sortedInsert steps element item sortKey).map (none, ·)
  | .sortedRemove => q.sortedRemove true

def performAll (steps : Nat) (q : LinkedList α) : List (Op α) → Option (List (Answer α) × LinkedList α)
  | [] => some ([], q)
  | op :: ops => do
    let (answer, q) ← q.perform steps op
    let (answers, q) ← q.performAll steps ops
    return (answer :: answers, q)

/-- What `new` returns is not in use. -/
def Op.Allocates : Op α → Prop
  | .append element _ | .prepend element _ | .sortedInsert element _ _ => q.heap element = none
  | .remove | .sortedRemove => True

def Allocates (steps : Nat) (q : LinkedList α) : List (Op α) → Prop
  | [] => True
  | op :: ops => op.Allocates q ∧ ∀ r, q.perform steps op = some r → r.2.Allocates steps ops

/-! ## The sequence of the elements -/

/-- What a call does to it. -/
def Op.result : Op α → List (ListElement α) → Answer α × List (ListElement α)
  | .append _ item, l => (none, l ++ [⟨0, item⟩])
  | .prepend _ item, l => (none, ⟨0, item⟩ :: l)
  | .sortedInsert _ item sortKey, l => (none, Nachos.sortedInsert item sortKey l)
  | .remove, l => (l.head?.map fun e => (e.item, none), l.tail)
  | .sortedRemove, l => (l.head?.map fun e => (e.item, some e.key), l.tail)

def results : List (Op α) → List (ListElement α) → List (Answer α) × List (ListElement α)
  | [], l => ([], l)
  | op :: ops, l => ((op.result l).1 :: (results ops (op.result l).2).1, (results ops (op.result l).2).2)

/-- Following `next` from `p` goes through these elements at these addresses and ends at `r`. -/
def Seg (heap : Nat → Option (Cell α)) : Option Nat → List (Nat × ListElement α) → Option Nat → Prop
  | p, [], r => p = r
  | p, (a, e) :: cells, r => p = some a ∧ ∃ next, heap a = some ⟨e.item, e.key, next⟩ ∧ Seg heap next cells r

/-- `next` leads from `first` to `last`, and after that there is NULL. -/
structure Laid (q : LinkedList α) (cells : List (Nat × ListElement α)) : Prop where
  chain : Seg q.heap q.first cells none
  nodup : (cells.map Prod.fst).Nodup
  last : q.last = cells.getLast?.map Prod.fst

def Represents (l : List (ListElement α)) : Prop := ∃ cells, Laid q cells ∧ cells.map Prod.snd = l

/-! ## Segments -/

section

variable {heap heap' : Nat → Option (Cell α)} {p r : Option Nat} {cells : List (Nat × ListElement α)}

theorem Seg.append {cells' : List (Nat × ListElement α)} :
    Seg heap p (cells ++ cells') r ↔ ∃ m, Seg heap p cells m ∧ Seg heap m cells' r := by
  induction cells generalizing p with
  | nil => simp [Seg]
  | cons c cells ih =>
    simp only [cons_append, Seg, ih]
    constructor
    · rintro ⟨hp, next, hc, m, h, h'⟩
      exact ⟨m, ⟨hp, next, hc, h⟩, h'⟩
    · rintro ⟨m, ⟨hp, next, hc, h⟩, h'⟩
      exact ⟨hp, next, hc, m, h, h'⟩

theorem Seg.congr (h : Seg heap p cells r) (hs : ∀ a ∈ cells.map Prod.fst, heap' a = heap a) : Seg heap' p cells r := by
  induction cells generalizing p with
  | nil => exact h
  | cons c cells ih =>
    obtain ⟨hp, next, hc, hr⟩ := h
    exact ⟨hp, next, (hs _ mem_cons_self).trans hc, ih hr fun a ha => hs a (mem_cons_of_mem _ ha)⟩

theorem Seg.update (h : Seg heap p cells r) {a : Nat} (ha : a ∉ cells.map Prod.fst) (c : Option (Cell α)) :
    Seg (update heap a c) p cells r := by
  refine h.congr fun b hb => update_of_ne ?_ _ _
  rintro rfl
  exact ha hb

theorem Seg.mem (h : Seg heap p cells r) {a : Nat} (ha : a ∈ cells.map Prod.fst) : heap a ≠ none := by
  induction cells generalizing p with
  | nil => cases ha
  | cons c cells ih =>
    obtain ⟨-, next, hc, hr⟩ := h
    rcases mem_cons.mp ha with rfl | ha
    · rw [hc]; exact Option.some_ne_none _
    · exact ih hr ha

end

/-! ## What the calls do -/

theorem setNext_some {q : LinkedList α} {p : Nat} {c : Cell α} (hc : q.heap p = some c) (next : Option Nat) :
    q.setNext (some p) next = some { q with heap := update q.heap p (some { c with next }) } := by
  simp [setNext, hc]

variable {l : List (ListElement α)}

section

variable {q : LinkedList α} {cells pre post : List (Nat × ListElement α)} {a : Nat} {x : ListElement α}

theorem Laid.first_eq_none (h : Laid q cells) : q.first = none ↔ cells = [] := by
  cases cells with
  | nil => exact ⟨fun _ => rfl, fun _ => h.chain⟩
  | cons c cells => simp [h.chain.1]

theorem Laid.front (h : Laid q cells) (hn : a ∉ cells.map Prod.fst) :
    Laid { q with
      heap := update q.heap a (some ⟨x.item, x.key, q.first⟩)
      first := some a
      last := if cells = [] then some a else q.last } ((a, x) :: cells) := by
  refine ⟨⟨rfl, q.first, update_self .., h.chain.update hn _⟩, nodup_cons.mpr ⟨hn, h.nodup⟩, ?_⟩
  cases cells with
  | nil => rfl
  | cons c cells => simpa using h.last

theorem Laid.behind {b : Nat} {e : ListElement α} (h : Laid q (pre ++ (b, e) :: post))
    (hnw : a ∉ (pre ++ (b, e) :: post).map Prod.fst) (hb : q.heap b = some ⟨e.item, e.key, next⟩) : Laid { q with
      heap := update (update q.heap a (some ⟨x.item, x.key, next⟩)) b (some ⟨e.item, e.key, some a⟩)
      last := if post = [] then some a else q.last } (pre ++ (b, e) :: (a, x) :: post) := by
  obtain ⟨m, hpre, hm, next', hb', hps⟩ := Seg.append.mp h.chain
  cases hb.symm.trans hb'
  have hn := h.nodup
  simp only [map_append, map_cons, mem_append, mem_cons, not_or] at hnw hn
  obtain ⟨hpr, hba, hp⟩ := hnw
  obtain ⟨-, hbp, hd⟩ := nodup_append.mp hn
  have hprb : b ∉ pre.map Prod.fst := fun hmm => hd b hmm b mem_cons_self rfl
  refine ⟨Seg.append.mpr ⟨m, (hpre.update hpr _).update hprb _, hm, some a, update_self .., rfl, next, ?_, ?_⟩,
    ?_, ?_⟩
  · exact (update_of_ne hba _ _).trans (update_self ..)
  · exact (hps.update hp _).update (nodup_cons.mp hbp).1 _
  · have hpe : ((pre ++ (b, e) :: (a, x) :: post).map Prod.fst).Perm (a :: (pre ++ (b, e) :: post).map Prod.fst) := by
      simp only [map_append, map_cons]
      exact (List.Perm.append_left _ (.swap ..)).trans perm_middle
    refine hpe.nodup_iff.mpr (nodup_cons.mpr ⟨?_, h.nodup⟩)
    simp [hpr, hba, hp]
  · cases post with
    | nil => simp
    | cons c post => simpa using h.last

theorem Laid.tail (h : Laid q ((a, x) :: cells)) (ha : q.heap a = some ⟨x.item, x.key, next⟩) :
    Laid { heap := update q.heap a none, first := next, last := if cells = [] then none else q.last } cells := by
  obtain ⟨-, next', ha', hr⟩ := h.chain
  cases ha.symm.trans ha'
  obtain ⟨ho, hn⟩ := nodup_cons.mp h.nodup
  refine ⟨hr.update ho _, hn, ?_⟩
  cases cells with
  | nil => rfl
  | cons c cells => simpa using h.last

/-- The element is in memory and not yet linked. -/
structure Beside (q : LinkedList α) (cells : List (Nat × ListElement α)) (a : Nat) (x : ListElement α) : Prop where
  laid : Laid q cells
  out : a ∉ cells.map Prod.fst
  cell : q.heap a = some ⟨x.item, x.key, none⟩

theorem Laid.newElement (h : Laid q cells) (ha : q.heap a = none) (x : ListElement α) :
    Beside (q.newElement a x.item x.key) cells a x := by
  have ho : a ∉ cells.map Prod.fst := fun hm => h.chain.mem hm ha
  exact ⟨⟨h.chain.update ho _, h.nodup, h.last⟩, ho, update_self ..⟩

namespace Beside

variable (h : Beside q cells a x)
include h

/-- An empty list has the element as its only one. -/
theorem link {rest : Option (LinkedList α)} (hn : cells = [] → l = [x])
    (hr : cells ≠ [] → ∃ q', rest = some q' ∧ Represents q' l) :
    ∃ q', (if q.first = none then some { q with first := some a, last := some a } else rest) = some q' ∧ Represents q' l := by
  by_cases hc : cells = []
  · rw [if_pos (h.laid.first_eq_none.mpr hc), hn hc]
    exact ⟨_, rfl, [(a, x)], ⟨⟨rfl, none, h.cell, rfl⟩, nodup_cons.mpr ⟨not_mem_nil, .nil⟩, rfl⟩, rfl⟩
  · rw [if_neg fun e => hc (h.laid.first_eq_none.mp e)]
    exact hr hc

theorem link_front (hne : cells ≠ []) :
    ∃ q', (do let q ← q.setNext (some a) q.first; return { q with first := some a }) = some q' ∧
      Represents q' (x :: cells.map Prod.snd) := by
  rw [setNext_some h.cell]
  exact ⟨_, rfl, (a, x) :: cells, by simpa [hne] using h.laid.front (x := x) h.out, rfl⟩

theorem link_last (hne : cells ≠ []) :
    ∃ q', (do let q ← q.setNext q.last (some a); return { q with last := some a }) = some q' ∧
      Represents q' (cells.map Prod.snd ++ [x]) := by
  obtain ⟨hl, ho, ha⟩ := h
  obtain ⟨pre, ⟨b, e⟩, rfl⟩ := (eq_nil_or_concat' cells).resolve_left hne
  obtain ⟨m, -, -, next, hb, rfl⟩ := Seg.append.mp hl.chain
  have hls : q.last = some b := by simpa using hl.last
  have hq' := hl.behind (x := x) ho hb
  rw [← ha, update_eq_self] at hq'
  rw [hls, setNext_some hb]
  exact ⟨_, rfl, _, hq', by simp⟩

/-- The loop, at an element that the new one belongs behind. -/
theorem place_ok {b : Nat} {e : ListElement α} {steps : Nat} (hc : cells = pre ++ (b, e) :: post)
    (hs : post.length < steps) :
    ∃ q', place a x.key steps q (some b) = some q' ∧
      Represents q' (pre.map Prod.snd ++ e :: Nachos.sortedInsert x.item x.key (post.map Prod.snd)) := by
  induction post generalizing pre b e steps with
  | nil =>
    obtain ⟨steps, rfl⟩ : ∃ k, steps = k + 1 := ⟨steps - 1, by omega⟩
    obtain ⟨m, -, -, next, hb, rfl⟩ := Seg.append.mp (hc ▸ h.laid.chain)
    obtain ⟨q', hq', hr⟩ := h.link_last (by simp [hc])
    exact ⟨q', by simpa [place, hb] using hq', by simpa [hc, Nachos.sortedInsert] using hr⟩
  | cons c post ih =>
    obtain ⟨n, d⟩ := c
    obtain ⟨steps, rfl⟩ : ∃ k, steps = k + 1 := ⟨steps - 1, by omega⟩
    obtain ⟨m, -, -, next, hb, rfl, next', hn, -⟩ := Seg.append.mp (hc ▸ h.laid.chain)
    simp only [place, Option.bind_some, hb, hn, bind, map_cons, Nachos.sortedInsert]
    by_cases hlt : x.key < d.key
    · have hab : b ≠ a := by
        rintro rfl
        exact h.out (by simp [hc])
      subst hc
      rw [if_pos hlt, if_pos hlt, setNext_some h.cell, Option.bind_some,
        setNext_some (c := ⟨e.item, e.key, some n⟩) ((update_of_ne hab _ _).trans hb)]
      exact ⟨_, rfl, _, by simpa using h.laid.behind (x := x) h.out hb, by simp⟩
    · rw [if_neg hlt, if_neg hlt]
      obtain ⟨q', hq', hr⟩ := @ih (pre ++ [(b, e)]) n d steps (by simp [hc]) (by simpa using hs)
      exact ⟨q', hq', by simpa using hr⟩

end Beside

theorem sortedInsert_ok (h : Laid q cells) (ha : q.heap a = none) (x : ListElement α) (hs : cells.length ≤ steps) :
    ∃ q', q.sortedInsert steps a x.item x.key = some q' ∧
      Represents q' (Nachos.sortedInsert x.item x.key (cells.map Prod.snd)) := by
  have h := h.newElement ha x
  unfold sortedInsert
  generalize q.newElement a x.item x.key = q at h ⊢
  refine h.link (by rintro rfl; rfl) fun hne => ?_
  obtain ⟨⟨b, e⟩, post, rfl⟩ := exists_cons_of_ne_nil hne
  obtain ⟨hf, next, hb, -⟩ := h.laid.chain
  simp only [hf, Option.bind_some, hb, bind, map_cons, Nachos.sortedInsert]
  by_cases hlt : x.key < e.key
  · rw [if_pos hlt, if_pos hlt]
    simpa [hf] using h.link_front hne
  · rw [if_neg hlt, if_neg hlt]
    exact h.place_ok (show (b, e) :: post = [] ++ (b, e) :: post from rfl) hs

theorem sortedRemove_ok (h : Laid q cells) (keyPtr : Bool) :
    ∃ q', q.sortedRemove keyPtr = some ((cells.map Prod.snd).head?.map fun e => (e.item, if keyPtr then some e.key else none), q') ∧
      Represents q' (cells.map Prod.snd).tail := by
  unfold sortedRemove
  cases cells with
  | nil => exact ⟨q, by rw [h.first_eq_none.mpr rfl]; rfl, [], h, rfl⟩
  | cons c cells =>
    obtain ⟨a, x⟩ := c
    obtain ⟨hf, next, ha, hr⟩ := h.chain
    -- there is one element exactly when `first` and `last` are the same
    have ho : some a = q.last ↔ cells = [] := by
      rw [h.last]
      cases hl : cells.getLast? with
      | none => simp [getLast?_eq_none_iff.mp hl]
      | some c =>
        have hm : c ∈ cells := mem_of_getLast? hl
        have hne : a ≠ c.1 := fun e => (nodup_cons.mp h.nodup).1 (mem_map.mpr ⟨c, hm, e.symm⟩)
        simp [getLast?_cons, hl, hne, ne_nil_of_mem hm]
    refine ⟨_, ?_, cells, h.tail ha, rfl⟩
    by_cases hn : cells = []
    · subst hn
      cases hr
      simp [hf, ha, ho]
    · simp [hf, ha, ho, hn]

end

theorem Represents.perform {q : LinkedList α} (h : Represents q l) {op : Op α}
    (hn : op.Allocates q) (hs : l.length ≤ steps) :
    ∃ q', q.perform steps op = some ((op.result l).1, q') ∧ Represents q' (op.result l).2 := by
  obtain ⟨cells, h, rfl⟩ := h
  have hv : ∀ {r : Option (LinkedList α)} {l : List (ListElement α)}, (∃ q', r = some q' ∧ Represents q' l) →
      ∃ q', r.map ((none : Answer α), ·) = some (none, q') ∧ Represents q' l := by
    rintro r l ⟨q', rfl, hr⟩
    exact ⟨q', rfl, hr⟩
  cases op with
  | append a item =>
    have h := h.newElement hn ⟨0, item⟩
    exact hv (h.link (by rintro rfl; rfl) h.link_last)
  | prepend a item =>
    have h := h.newElement hn ⟨0, item⟩
    exact hv (h.link (by rintro rfl; rfl) h.link_front)
  | remove => exact sortedRemove_ok h false
  | sortedInsert a item sortKey => exact hv (sortedInsert_ok h hn ⟨sortKey, item⟩ (by simpa using hs))
  | sortedRemove => exact sortedRemove_ok h true

theorem Op.result_length (op : Op α) (l : List (ListElement α)) : (op.result l).2.length ≤ l.length + 1 := by
  cases op with
  | sortedInsert a item sortKey => exact Nat.le_of_eq (sortedInsert_perm item sortKey l).length_eq
  | _ => simp [Op.result]; try omega

/-- From any state of the list, with room for the loops. -/
theorem Represents.performAll (ops : List (Op α)) : ∀ {q : LinkedList α} {l : List (ListElement α)},
    Represents q l → Allocates steps q ops → l.length + ops.length ≤ steps →
      ∃ q', q.performAll steps ops = some ((results ops l).1, q') ∧ Represents q' (results ops l).2 := by
  induction ops with
  | nil => intro q l h _ _; exact ⟨q, rfl, h⟩
  | cons op ops ih =>
    intro q l h hn hs
    rw [length_cons] at hs
    obtain ⟨q1, hq1, h1⟩ := h.perform hn.1 (Nat.le_of_add_right_le hs)
    have hl := op.result_length l
    obtain ⟨q', hq', h'⟩ := ih h1 (hn.2 _ hq1) (by omega)
    exact ⟨q', by simp [LinkedList.performAll, hq1, hq', results], h'⟩

/-! ## Sorted lists -/

def Op.IsSorted : Op α → Prop
  | .sortedInsert .. | .sortedRemove => True
  | _ => False

def Op.inserted : Op α → Option (ListElement α)
  | .sortedInsert _ item sortKey => some ⟨sortKey, item⟩
  | _ => none

def Answer.removed : Answer α → Option (ListElement α)
  | some (item, some key) => some ⟨key, item⟩
  | _ => none

/-- The elements with one key, in the order in which they are listed. -/
def withKey (key : Int) (l : List (ListElement α)) : List (ListElement α) := l.filter (·.key = key)

theorem withKey_append (key : Int) (l l' : List (ListElement α)) : withKey key (l ++ l') = withKey key l ++ withKey key l' :=
  filter_append ..

/-- A new element comes behind those with its key. -/
theorem withKey_sortedInsert (h : Sorted l) (item : α) (sortKey key : Int) :
    withKey key (Nachos.sortedInsert item sortKey l) = withKey key l ++ withKey key [⟨sortKey, item⟩] := by
  induction l with
  | nil => rfl
  | cons first rest ih =>
    obtain ⟨hf, hr⟩ := pairwise_cons.mp h
    simp only [Nachos.sortedInsert]
    split
    · rename_i hlt
      by_cases hk : sortKey = key
      · -- none of those behind it has its key
        have hn : withKey key (first :: rest) = [] := by
          refine filter_eq_nil_iff.mpr fun e he => ?_
          rcases mem_cons.mp he with rfl | he
          · simp; omega
          · have := hf e he
            simp; omega
        rw [hn, nil_append]
        exact (withKey_append key [_] _).trans (by rw [hn, append_nil])
      · simp [withKey, hk]
    · exact (withKey_append key [first] _).trans (by rw [ih hr, ← append_assoc, ← withKey_append]; rfl)

/-- Along a run of sorted calls what has been removed and what is there is what was inserted. -/
theorem results_sorted {ops : List (Op α)} (ho : ∀ op ∈ ops, op.IsSorted) : ∀ {l : List (ListElement α)}, Sorted l →
    Sorted (results ops l).2 ∧ ∀ key, withKey key ((results ops l).1.filterMap Answer.removed ++ (results ops l).2) =
      withKey key (l ++ ops.filterMap Op.inserted) := by
  induction ops with
  | nil => intro l h; exact ⟨h, fun key => by simp [results]⟩
  | cons op ops ih =>
    intro l h
    have ho' : ∀ op ∈ ops, op.IsSorted := fun op hop => ho op (mem_cons_of_mem _ hop)
    cases op with
    | sortedInsert a item sortKey =>
      obtain ⟨hs, hk⟩ := ih ho' (sortedInsert_sorted h)
      refine ⟨hs, fun key => (hk key).trans ?_⟩
      rw [withKey_append, withKey_sortedInsert h, append_assoc, ← withKey_append, ← withKey_append]
      rfl
    | sortedRemove =>
      cases l with
      | nil => exact ih ho' h
      | cons e l =>
        obtain ⟨hs, hk⟩ := ih ho' (pairwise_cons.mp h).2
        refine ⟨hs, fun key => (withKey_append key [e] _).trans ?_⟩
        exact (congrArg (withKey key [e] ++ ·) (hk key)).trans (withKey_append key [e] _).symm
    | append a item => exact (ho _ mem_cons_self).elim
    | prepend a item => exact (ho _ mem_cons_self).elim
    | remove => exact (ho _ mem_cons_self).elim

/-- Every sequence of calls on a new list, in whatever memory, does what it does to a sequence. On
    a list built by `SortedInsert` and `SortedRemove` only, the keys do not decrease, elements with
    one key are and leave in the order in which they came, and no element gets lost. -/
theorem list_refines_sequence (heap : Nat → Option (Cell α)) (ops : List (Op α)) {steps : Nat} (hsteps : ops.length ≤ steps)
    (hnew : Allocates steps (new heap) ops) :
    ∃ q, (new heap).performAll steps ops = some ((results ops []).1, q) ∧ Represents q (results ops []).2 ∧
      ((∀ op ∈ ops, op.IsSorted) → Sorted (results ops []).2 ∧
        (∀ key, withKey key ((results ops []).1.filterMap Answer.removed ++ (results ops []).2) =
          withKey key (ops.filterMap Op.inserted)) ∧
        ∀ item sortKey, (Nachos.sortedInsert item sortKey (results ops []).2).Perm (⟨sortKey, item⟩ :: (results ops []).2)) := by
  have hempty : Represents (new heap) [] := ⟨[], ⟨rfl, .nil, rfl⟩, rfl⟩
  obtain ⟨q, hq, hrep⟩ := hempty.performAll ops hnew (by simpa using hsteps)
  refine ⟨q, hq, hrep, fun hops => ?_⟩
  obtain ⟨hsorted, hkeys⟩ := results_sorted hops .nil
  exact ⟨hsorted, hkeys, fun item sortKey => sortedInsert_perm item sortKey _⟩

/-- Two elements with one key around a third, on memory that is all free. -/
theorem three_inserted : ∃ q, (new fun _ => (none : Option (Cell Nat))).performAll 4
    [.sortedInsert 8 1 5, .sortedInsert 3 2 5, .sortedInsert 9 3 4, .sortedRemove] = some ([none, none, none, some (3, some 4)], q) ∧
      Represents q [⟨5, 1⟩, ⟨5, 2⟩] := by
  have hnew : Allocates 4 (new fun _ => (none : Option (Cell Nat)))
      [.sortedInsert 8 1 5, .sortedInsert 3 2 5, .sortedInsert 9 3 4, .sortedRemove] := by
    refine ⟨rfl, fun r hr => ?_⟩
    cases hr
    refine ⟨rfl, fun r hr => ?_⟩
    cases hr
    refine ⟨rfl, fun r hr => ?_⟩
    cases hr
    exact ⟨trivial, fun _ _ => trivial⟩
  obtain ⟨q, hq, hrep, -⟩ := list_refines_sequence _ _ (by decide) hnew
  exact ⟨q, hq, hrep⟩

end LinkedList

end Nachos

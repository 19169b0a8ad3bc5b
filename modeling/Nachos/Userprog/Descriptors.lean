/-
  Nachos.Userprog.Descriptors — the descriptors Open hands out, over whole runs.

  The table is shared by all processes, so a run is any sequence of Open and Close calls,
  whoever makes them, with the host's files changing in any way in between. `live` is
  history: the descriptors Open has returned and nobody has closed since.
-/

import Mathlib.Tactic.Tauto
import Nachos.Userprog.FileReturns

namespace Nachos

open Stub (FileSystem)
open Lib
open Function (update_apply update_of_ne update_self)

/-! ## The descriptors the calls accept -/

variable (fs : FileSystem)

theorem fileOf_eq (id : Word) : fs.fileOf id = if id.toNat ≤ 9 then fs.openfile id.toNat else none := by
  have hr : _ ↔ id.toNat ≤ 9 := in_range_iff (b := 9) (by decide)
  rw [Stub.FileSystem.fileOf]
  by_cases h9 : id.toNat ≤ 9
  · rw [if_neg (hr.mpr h9), if_pos h9]
  · rw [if_pos (Decidable.not_not.mp (mt hr.mp h9)), if_neg h9]

/-- The calls see the file of the slot, if they see one. -/
theorem fileOf_unique {fs : FileSystem} {id : Word} {f file : Stub.OpenFile} (hfl : fs.fileOf id = some file)
    (hf : fs.openfile id.toNat = some f) : f = file := by
  rw [fileOf_eq] at hfl
  split at hfl
  · exact Option.some.inj (hf.symm.trans hfl)
  · cases hfl

theorem canClose_iff (id : Word) :
    fs.canClose id = true ↔ id.toNat ≤ 14 ∧ (fs.openfile id.toNat).isSome = true := by
  have hr : _ ↔ id.toNat ≤ 14 := in_range_iff (b := 14) (by decide)
  simp only [Stub.FileSystem.canClose, Bool.and_eq_true, Bool.not_eq_true', ← hr, not_or, Bool.not_eq_true]

theorem canSeek_iff (id : Word) :
    fs.canSeek id = true ↔ 2 ≤ id.toNat ∧ id.toNat ≤ 9 ∧ (fs.openfile id.toNat).isSome = true := by
  have hr : _ ↔ id.toNat ≤ 9 := in_range_iff (b := 9) (by decide)
  have hl : (id ≠ 0 ∧ id ≠ 1) ↔ 2 ≤ id.toNat := by
    constructor
    · rintro ⟨h0, h1⟩
      have h0' : id.toNat ≠ 0 := fun e => h0 (BitVec.eq_of_toNat_eq e)
      have h1' : id.toNat ≠ 1 := fun e => h1 (BitVec.eq_of_toNat_eq e)
      omega
    · intro h
      constructor <;> (rintro rfl; exact absurd h (by decide))
  simp only [Stub.FileSystem.canSeek, Bool.not_eq_true', Bool.or_eq_false_iff, beq_eq_false_iff_ne, Option.isNone_eq_false_iff,
    ← hr, ← hl, not_or, Bool.not_eq_true]
  tauto

structure Descriptors where
  fs : FileSystem
  live : List Nat

namespace Descriptors

inductive Event where
  | open_ (name : List Byte) (type : Word)
  | close (fileID : Word)
  | host (h : Stub.Host)

variable (s : Descriptors)

def step : Event → Except Stop Descriptors
  | .open_ name type =>
    match s.fs.openCall name type with
    | (some value, fs) => .ok ⟨fs, if value.slt 0 then s.live else value.toNat :: s.live⟩
    | (none, fs) => .ok ⟨fs, s.live⟩
  | .close fileID => do
    let (value, fs) ← s.fs.closeCall fileID
    return ⟨fs, if value = 0 then s.live.filter (· ≠ fileID.toNat) else s.live⟩
  | .host h => .ok { s with fs := { s.fs with host := h } }

def Init : Prop := ∃ h, FileSystem.new h = .ok s.fs ∧ s.live = []

/-- The slot is open, and Read, Write, Seek and Close with the descriptor pass their checks;
    Seek turns away the console. -/
structure Usable (fs : FileSystem) (id : Nat) : Prop where
  isOpen : (fs.openfile id).isSome
  io : (fs.fileOf (BitVec.ofNat 32 id)).isSome
  close : fs.canClose (BitVec.ofNat 32 id) = true
  seek : ∀ f, fs.openfile id = some f → f.type = .readWrite ∨ f.type = .readOnly → fs.canSeek (BitVec.ofNat 32 id) = true

/-- The slot Open of this type would return can be used with every call. -/
def openFits (type : Word) : Bool :=
  match fs.findFreeSlot with
  | none => true
  | some slot =>
    if type = 0 ∨ type = 1 then slot ≤ 9
    else if type = 2 then (fs.openfile 0).isSome
    else if type = 3 then (fs.openfile 1).isSome
    else true

def Fits : Event → Bool
  | .open_ _ type => openFits s.fs type
  | _ => true

/-! ## The table -/

/-- The files in the console's slots are of the console's types. -/
def Typed : Prop := ∀ id f, id < 2 → fs.openfile id = some f → f.type ≠ .readWrite ∧ f.type ≠ .readOnly

structure Inv (s : Descriptors) : Prop where
  typed : Typed s.fs
  live : ∀ id ∈ s.live, (s.fs.openfile id).isSome ∧ id ≤ 9

section

variable {fs fs' : FileSystem} {id : Nat}

theorem slot_toNat {n : Nat} (h : n < 15) : (BitVec.ofNat 32 n).toNat = n := ofNat_toNat (by omega)

/-- An open slot up to 9 is usable; a slot above 9 is not. -/
theorem usable_iff (ht : Typed fs) (h : id < 15) : Usable fs id ↔ (fs.openfile id).isSome ∧ id ≤ 9 := by
  constructor
  · intro hu
    refine ⟨hu.isOpen, ?_⟩
    have hio := hu.io
    rw [fileOf_eq, slot_toNat h] at hio
    split at hio
    · assumption
    · cases hio
  · rintro ⟨ho, h9⟩
    refine ⟨ho, by rw [fileOf_eq, slot_toNat h, if_pos h9]; exact ho, ?_, ?_⟩
    · rw [canClose_iff, slot_toNat h]
      exact ⟨Nat.le_of_lt_succ h, ho⟩
    intro f hf hty
    rcases Nat.lt_or_ge id 2 with hlt | hge
    · obtain ⟨h1, h2⟩ := ht id f hlt hf
      rcases hty with e | e
      · exact absurd e h1
      · exact absurd e h2
    · rw [canSeek_iff, slot_toNat h]
      exact ⟨hge, h9, ho⟩

theorem Typed.congr (ht : Typed fs) (h : ∀ id, id < 2 → fs'.openfile id = fs.openfile id ∨ fs'.openfile id = none) :
    Typed fs' := by
  intro id f hid hf
  rcases h id hid with e | e
  · rw [e] at hf; exact ht id f hid hf
  · rw [e] at hf; cases hf

end

/-! ## The calls -/

section

variable {s s' : Descriptors} {name : List Byte} {type : Word}

theorem slot_nonneg {slot : Nat} (h : slot < 15) : (BitVec.ofNat 32 slot).slt 0 = false :=
  Bool.eq_false_iff.mpr fun hn => by
    rw [negative_iff, slot_toNat h] at hn
    omega

theorem open_inv (h : s.Inv) (hf : openFits s.fs type = true) (hs : s.step (.open_ name type) = .ok s') : s'.Inv := by
  simp only [step] at hs
  cases hsl : s.fs.findFreeSlot with
  | none =>
    simp only [Stub.FileSystem.openCall, hsl] at hs
    cases hs
    exact h
  | some slot =>
    obtain ⟨h2, h15, hn⟩ := findFreeSlot_some hsl
    rw [openFits, hsl] at hf
    -- the table and the live descriptors after a call that returns an open slot up to 9
    have hp : ∀ {fs' : FileSystem} {id : Nat}, Typed fs' → (∀ i, (s.fs.openfile i).isSome → (fs'.openfile i).isSome) →
        (fs'.openfile id).isSome → id ≤ 9 → Inv ⟨fs', id :: s.live⟩ := by
      intro fs' id ht hk ho h9
      refine ⟨ht, fun i hi => ?_⟩
      rcases List.mem_cons.mp hi with rfl | hi
      · exact ⟨ho, h9⟩
      · exact ⟨hk i (h.live i hi).1, (h.live i hi).2⟩
    generalize hc : s.fs.openCall name type = r at hs
    obtain ⟨value, fs'⟩ := r
    cases openCall_steps hsl hc with
    | opened f h01 _ _ htb =>
      simp only [slot_nonneg h15, slot_toNat h15] at hs
      cases hs
      simp only [if_pos h01, decide_eq_true_eq] at hf
      refine hp (h.typed.congr fun i hi => .inl ?_) (fun i hi => ?_) ?_ hf
      · rw [htb]; exact update_of_ne (by omega) ..
      · rw [htb, update_apply]; split
        · rfl
        · exact hi
      · rw [htb, update_self]; rfl
    | absent _ _ _ htb =>
      cases hs
      refine ⟨h.typed.congr fun i _ => .inl (by rw [htb]), fun i hi => ?_⟩
      rw [htb]; exact h.live i hi
    | stdin e2 e =>
      cases e
      cases hs
      simp only [e2] at hf
      exact hp h.typed (fun i hi => hi) (by simpa using hf) (by decide)
    | stdout e3 e =>
      cases e
      cases hs
      simp only [e3] at hf
      exact hp h.typed (fun i hi => hi) (by simpa using hf) (by decide)
    | other _ e =>
      cases e
      cases hs
      exact h

theorem close_inv {fileID : Word} (h : s.Inv) (hs : s.step (.close fileID) = .ok s') : s'.Inv := by
  obtain ⟨⟨value, fs'⟩, hc, hs⟩ := bind_eq_ok.mp hs
  cases hs
  rcases closeCall_ok hc with ⟨rfl, rfl⟩ | ⟨rfl, -, ht⟩
  · exact h
  refine ⟨h.typed.congr fun i _ => ?_, fun i hi => ?_⟩
  · simp only [ht, update_apply]
    split
    · exact .inr rfl
    · exact .inl rfl
  · obtain ⟨hi, hne⟩ := List.mem_filter.mp (show i ∈ s.live.filter (· ≠ fileID.toNat) from hi)
    simp only [ht, update_of_ne (of_decide_eq_true hne)]
    exact h.live i hi

theorem step_inv (h : s.Inv) {e : Event} (hf : s.Fits e = true) (hs : s.step e = .ok s') : s'.Inv := by
  cases e with
  | open_ name type => exact open_inv h hf hs
  | close fileID => exact close_inv h hs
  | host h' => cases hs; exact ⟨h.typed, h.live⟩

theorem init_inv (h : s.Init) : s.Inv := by
  obtain ⟨host, hn, hl⟩ := h
  refine ⟨?_, by rw [hl]; exact nofun⟩
  obtain ⟨⟨b, fs1⟩, h1, hn⟩ := bind_eq_ok.mp hn
  obtain ⟨⟨b', fs2⟩, h2, hn⟩ := bind_eq_ok.mp hn
  have hfs : ((fs2.openSlot 0 FileSystem.stdinName .stdin).2.openSlot 1 FileSystem.stdoutName .stdout).2 = s.fs :=
    Except.ok.inj hn
  obtain ⟨f0, htb0, ht0⟩ := fs2.openSlot_table 0 FileSystem.stdinName .stdin
  obtain ⟨f1, ht1, hty1⟩ :=
    (fs2.openSlot 0 FileSystem.stdinName .stdin).2.openSlot_table 1 FileSystem.stdoutName .stdout
  rw [← hfs]
  intro id f hid hf
  rw [ht1, htb0, FileSystem.create_table h2, FileSystem.create_table h1] at hf
  rcases Nat.lt_or_ge id 1 with h | h
  · obtain rfl : id = 0 := by omega
    rw [update_of_ne (by decide), update_self] at hf
    rw [ht0 f hf]
    decide
  · obtain rfl : id = 1 := by omega
    rw [update_self] at hf
    rw [hty1 f hf]
    decide

end

/-! ## Whole runs -/

/-- Open returns a descriptor that can be used, and was not in use, exactly when the slot it
    takes can. -/
theorem open_usable_iff {fs fs' : FileSystem} {name : List Byte} {type value : Word} (ht : Typed fs)
    (h : fs.openCall name type = (some value, fs')) (hp : ¬ value.slt 0 = true) :
    (Usable fs' value.toNat ∧ (type = 0 ∨ type = 1 → fs.openfile value.toNat = none)) ↔ openFits fs type = true := by
  cases hs : fs.findFreeSlot with
  | none =>
    simp only [Stub.FileSystem.openCall, hs] at h
    cases h
    exact absurd rfl hp
  | some slot =>
    obtain ⟨h2, h15, hn⟩ := findFreeSlot_some hs
    rw [openFits, hs]
    cases openCall_steps hs h with
    | opened f h01 _ _ htb =>
      have ht' : Typed fs' := ht.congr fun i hi => .inl (by rw [htb]; exact update_of_ne (by omega) ..)
      rw [slot_toNat h15, usable_iff ht' h15, htb, update_self]
      simp only [if_pos h01]
      simp [hn]
    | stdin e2 e =>
      cases e
      simp only [e2]
      have := usable_iff ht (show 0 < 15 by decide)
      simp [this]
    | stdout e3 e =>
      cases e
      simp only [e3]
      have := usable_iff ht (show 1 < 15 by decide)
      simp [this]

/-- In every run whose Opens all fit, every live descriptor is usable; and a further Open
    returns a usable descriptor, of a slot that was not in use, exactly when it fits too. -/
theorem descriptors_usable {s : Descriptors} (h : Lib.Reach step (fun s e => s.Fits e = true) Init s) :
    (∀ id ∈ s.live, Usable s.fs id) ∧
    ∀ name type value fs', s.fs.openCall name type = (some value, fs') → ¬ value.slt 0 = true →
      ((Usable fs' value.toNat ∧ (type = 0 ∨ type = 1 → s.fs.openfile value.toNat = none)) ↔
        openFits s.fs type = true) := by
  have hinv : s.Inv := by
    refine h.inv (P := Inv) ?_ ?_
    · intro s hs; exact init_inv hs
    · intro s e s' hs hfit hst; exact step_inv hs hfit hst
  refine ⟨fun id hid => ?_, fun name type value fs' hcall hpos => open_usable_iff hinv.typed hcall hpos⟩
  obtain ⟨hopen, h9⟩ := hinv.live id hid
  exact (usable_iff hinv.typed (by omega)).mpr ⟨hopen, h9⟩

/-- A host on which the file "a" exists, and the table the constructor makes there. -/
def hostWithA : Stub.Host := ⟨fun name => if name = [97] then some 0 else none, 1, fun _ => [], [], fun _ => Nat.zero_le _⟩

/-- Two files are opened, one is closed and its slot taken again, and the console is asked
    for: four descriptors have been returned and the last three are live. -/
theorem descriptors_usable_after_reuse : ∃ s, Lib.Reach step (fun s e => s.Fits e = true) Init s ∧ s.live = [0, 2, 3] ∧
    Usable s.fs 2 ∧ Usable s.fs 3 := by
  obtain ⟨fs, hnew, hrun⟩ := exists_ok (x := FileSystem.new hostWithA) (fun fs => (runWhen step Fits ⟨fs, []⟩
    [.open_ [97] 0, .open_ [97] 1, .close 2, .open_ [97] 0, .open_ [] 2]).any fun s => s.live == [0, 2, 3]) (by decide +kernel)
  obtain ⟨s, hs, hlive⟩ := (Option.any_eq_true ..).mp hrun
  have hreach : Reach step (fun s e => s.Fits e = true) Init s :=
    runWhen_reach _ (.init ⟨hostWithA, hnew, rfl⟩) hs
  have hlive : s.live = [0, 2, 3] := by simpa using hlive
  have := (descriptors_usable hreach).1
  rw [hlive] at this
  exact ⟨s, hreach, hlive, this 2 (by decide), this 3 (by decide)⟩

/-- The ninth open file gets slot 10, which Read, Write and Seek turn away. -/
theorem tenth_slot_unusable : ∃ s, Lib.Reach step (fun _ _ => True) Init s ∧ 10 ∈ s.live ∧ (s.fs.openfile 10).isSome ∧
    s.fs.fileOf 10 = none ∧ s.fs.canSeek 10 = false ∧ ¬ Usable s.fs 10 := by
  obtain ⟨fs, hnew, hrun⟩ := exists_ok (x := FileSystem.new hostWithA) (fun fs => (runWhen step (fun _ _ => true) ⟨fs, []⟩
    (List.replicate 9 (.open_ [97] 0))).any fun (s : Descriptors) => s.live.contains 10 && (s.fs.openfile 10).isSome &&
      (s.fs.fileOf 10).isNone && !s.fs.canSeek 10) (by decide +kernel)
  obtain ⟨s, hs, ht⟩ := (Option.any_eq_true ..).mp hrun
  have hreach : Reach step (fun _ _ => True) Init s :=
    Reach.mono (fun _ _ _ => trivial) (runWhen_reach _ (.init ⟨hostWithA, hnew, rfl⟩) hs)
  simp only [Bool.and_eq_true, List.contains_iff_mem, Bool.not_eq_true', Option.isNone_iff_eq_none] at ht
  obtain ⟨⟨⟨hlive, hopen⟩, hio⟩, hseek⟩ := ht
  refine ⟨s, hreach, hlive, hopen, hio, hseek, fun hu => ?_⟩
  have hsome : (s.fs.fileOf 10).isSome := hu.io
  rw [hio] at hsome
  cases hsome

end Descriptors

end Nachos

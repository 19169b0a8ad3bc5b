/-
  Nachos.Userprog.ProgramNames — the name of a file on its way from a user program to the
  file system.

  CreateFile and Exec copy at most 33 characters of it and Open 32. Exec hands its copy on
  to `ExecUpdate`, which copies it into `FileName` of the new process's PCB, an array of 32
  bytes; the child opens what it finds there.
-/

import Nachos.Userprog.Reading

namespace Nachos

open Handler List
open Lib

/-! ## `PCB::FileName` -/

/-- `char FileName[32]`. -/
structure FileName where
  bytes : List Byte
  size : bytes.length = 32
  deriving DecidableEq

/-- `strcpy(FileName, fn)`: the characters of `fn` and a zero, which may go past the array. -/
def FileName.set (f : FileName) (fn : List Byte) : Except Stop FileName :=
  if h : fn.length < 32 then
    .ok ⟨fn ++ 0 :: f.bytes.drop (fn.length + 1), by
      rw [List.length_append, List.length_cons, List.length_drop, f.size]
      omega⟩
  else .error .undefined

/-- `GetFileName`, as the string it points to. -/
def FileName.get (f : FileName) : Except Stop (List Byte) :=
  if 0 ∈ f.bytes then .ok (cString f.bytes) else .error .undefined

theorem FileName.get_set {f f' : FileName} {fn : List Byte} (hfn : 0 ∉ fn) (h : f.set fn = .ok f') : f'.get = .ok fn := by
  rw [FileName.set] at h
  split at h
  · cases h
    rw [FileName.get, if_pos (mem_append_right _ mem_cons_self), cString_text hfn]
  · cases h

/-! ## The names the calls hand over -/

/-- "./test/scheduler". -/
def schedulerName : List Byte := [46, 47, 116, 101, 115, 116, 47, 115, 99, 104, 101, 100, 117, 108, 101, 114]

/-- The process table as far as names go: the slot `GetFreeSlot` finds, the `FileName` of the
    PCBs (of a new one, what was in memory there), and `currentThread->getName()`. -/
structure NameTable where
  index : Option Nat
  fileName : Nat → FileName
  self : List Byte

/-- `ExecUpdate` refuses the name. -/
def NameTable.refuses (t : NameTable) (name : List Byte) : Bool :=
  t.index.isNone || name == schedulerName || name == t.self

/-- `ExecUpdate`, up to the new process: its number. -/
def NameTable.execUpdate (t : NameTable) (name : List Byte) : Except Stop (Option Nat × NameTable) :=
  if t.refuses name then .ok (none, t)
  else
    match t.index with
    | none => .ok (none, t)
    | some index => do
      let f ← (t.fileName index).set name
      return (some index, { t with fileName := Function.update t.fileName index f })

/-- `StartProcessID`: the name it opens. -/
def NameTable.startProcessID (t : NameTable) (pid : Nat) : Except Stop (List Byte) := (t.fileName pid).get

variable {W : Type} (bigEndian : Bool)

/-- `CreateFileFunction` up to `fileSystem->Create`; it refuses an empty name. -/
def createFileName : Handler W (Option (List Byte)) := do
  let virtualAddr ← readRegister 4
  let name ← userName bigEndian virtualAddr (BitVec.ofNat 32 maxLength + 1)
  return if name = [] then none else some name

/-- `OpenFunction` up to `fileSystem->Open`; without a free slot it does not get there. -/
def openName : Handler W (Option (List Byte)) := do
  let virtualAddr ← readRegister 4
  let name ← userName bigEndian virtualAddr (BitVec.ofNat 32 maxLength)
  let freeSlot ← onFiles fun fs => .ok (fs.findFreeSlot, fs)
  let type ← readRegister 5
  return if freeSlot.isSome ∧ (type = 0 ∨ type = 1) then some name else none

/-- `ExecFunction` up to `fileSystem->Open`. -/
def execName : Handler W (List Byte) := do
  let virtualAddr ← readRegister 4
  userName bigEndian virtualAddr (BitVec.ofNat 32 maxLength + 1)

/-- What the child of an Exec opens, if Exec finds the file and `ExecUpdate` takes the name. -/
def childName (found : Bool) (t : NameTable) (progName : List Byte) : Except Stop (Option (List Byte)) :=
  if found then do
    let (pid, t) ← t.execUpdate progName
    match pid with
    | none => return none
    | some pid => return some (← t.startProcessID pid)
  else return none

/-- The names handed to the file system by CreateFile, by Open, by Exec and by its child, each
    call in a state of its own. -/
def namesPassed (kc ko ke : KernelState W) (t : NameTable) : Except Gone (List (Option (List Byte))) := do
  let (created, _) ← createFileName bigEndian kc
  let (opened, _) ← openName bigEndian ko
  let (progName, _) ← execName bigEndian ke
  match childName (ke.files.host.openRW progName).1.isSome t progName with
  | .ok child => return [created, opened, some progName, child]
  | .error why => .error (.stopped why)

/-- Every copy fits, and the names handed over are one. -/
def OneName (kc ko ke : KernelState W) (t : NameTable) : Prop :=
  ∃ passed name, namesPassed bigEndian kc ko ke t = .ok passed ∧ ∀ n, some n ∈ passed → n = name

/-! ## What the handlers do with them -/

section

variable {bigEndian} {sv : Services W}

/-- The name that is not handed over is not used. -/
theorem openCall_unused {fs : Stub.FileSystem} {type : Word} (h : ¬ (fs.findFreeSlot.isSome ∧ (type = 0 ∨ type = 1)))
    (name name' : List Byte) : fs.openCall name type = fs.openCall name' type := by
  rw [Stub.FileSystem.openCall, Stub.FileSystem.openCall]
  cases hs : fs.findFreeSlot with
  | none => rfl
  | some slot =>
    have hty : ¬ (type = 0 ∨ type = 1) := fun ht => h ⟨by rw [hs]; rfl, ht⟩
    simp only [if_neg hty]

theorem createFileFunction_eq : createFileFunction (W := W) bigEndian = (do
    let asked ← createFileName bigEndian
    let value ← onFiles (·.createCall (asked.getD []))
    answer value) := by
  rw [createFileFunction, createFileName]
  simp only [bind_assoc, pure_bind]
  refine bind_congr fun virtualAddr => bind_congr fun name => ?_
  by_cases hn : name = []
  · rw [if_pos hn, hn]
    rfl
  · rw [if_neg hn]
    rfl

theorem openFunction_eq : openFunction (W := W) bigEndian = (do
    let asked ← openName bigEndian
    let type ← readRegister 5
    let value ← onFiles fun fs => .ok (fs.openCall (asked.getD []) type)
    answerIf value) := by
  rw [openFunction, openName]
  simp only [bind_assoc, pure_bind]
  refine bind_congr fun virtualAddr => bind_congr fun name => ?_
  funext k
  show answerIf (k.files.openCall name (k.sys.registers 5)).1 { k with files := (k.files.openCall name (k.sys.registers 5)).2 } =
    answerIf (k.files.openCall (Option.getD (ite _ _ _) []) (k.sys.registers 5)).1
      { k with files := (k.files.openCall (Option.getD (ite _ _ _) []) (k.sys.registers 5)).2 }
  by_cases h : k.files.findFreeSlot.isSome ∧ (k.sys.registers 5 = 0 ∨ k.sys.registers 5 = 1)
  · rw [if_pos h]
    rfl
  · rw [openCall_unused h name]

theorem execFunction_eq : execFunction bigEndian sv = (do
    let progName ← execName bigEndian
    let file ← onFiles fun fs => .ok ((fs.host.openRW progName).1, { fs with host := (fs.host.openRW progName).2 })
    match file with
    | none => answer (-1)
    | some _ =>
      let id ← await (sv.execUpdate progName)
      answer id
      onFiles fun fs => do
        let h ← fs.host.close
        return ((), { fs with host := h })) :=
  (bind_assoc (readRegister 4) _ _).symm

end

/-! ## Strings in the user's memory -/

/-- The process has the string at the address in r4, with the zero that ends it. -/
structure HoldsName (k : KernelState W) (s : List Byte) : Prop where
  table : ∃ t, OnTable k.sys.machine t
  held : k.sys.machine.Holds (k.sys.registers 4) (s ++ [0])
  text : 0 ∉ s

section

variable {k : KernelState W} {s : List Byte}

/-- `User2System` copies the string up to its zero, or as much of it as it may. -/
theorem copyIn_text (s : List Byte) : ∀ {m : Machine} {t : List TranslationEntry} {va : Word} (n : Nat), OnTable m t →
    m.Holds va (s ++ [0]) → 0 ∉ s →
    ∃ m', m.copyIn bigEndian va n = .done (if s.length < n then s ++ [0] else s.take n) m' := by
  induction s with
  | nil =>
    intro m t va n ht hh _
    cases n with
    | zero => exact ⟨m, rfl⟩
    | succ n =>
      obtain ⟨pa, hp, hpa⟩ := Option.map_eq_some_iff.mp hh.1
      obtain ⟨m1, h1, -⟩ := readMem_one bigEndian ht hp
      rw [hpa] at h1
      refine ⟨m1, ?_⟩
      rw [Machine.copyIn, h1]
      rfl
  | cons b rest ih =>
    intro m t va n ht hh htx
    cases n with
    | zero => exact ⟨m, rfl⟩
    | succ n =>
      obtain ⟨hb, hr⟩ := hh
      obtain ⟨pa, hp, hpa⟩ := Option.map_eq_some_iff.mp hb
      obtain ⟨m1, h1, hs1, hm1⟩ := readMem_one bigEndian ht hp
      obtain ⟨t1, ht1, -⟩ := hs1.onTable ht
      obtain ⟨m2, h2⟩ := ih n ht1 (Holds.same hs1 hm1 hr) fun hm => htx (mem_cons_of_mem b hm)
      have h0 : b ≠ 0 := fun e => htx (e ▸ mem_cons_self)
      refine ⟨m2, ?_⟩
      rw [hpa] at h1
      rw [Machine.copyIn, h1]
      simp only [Outcome.bind]
      rw [if_neg (mt (signExtend_eq_zero b).mp h0), h2]
      simp only [setWidth_signExtend, length_cons, Nat.add_lt_add_iff_right, take_succ_cons]
      split <;> rfl

theorem user2System_text (h : HoldsName k s) (limit : Word) (hlm : limit.toNat < 2147483647) :
    ∃ zeros m, k.sys.machine.user2System bigEndian (k.sys.registers 4) limit = .done (s.take limit.toNat ++ 0 :: zeros) m := by
  obtain ⟨t, ht⟩ := h.table
  obtain ⟨m, hc⟩ := copyIn_text bigEndian s limit.toNat ht h.held h.text
  have hcn : (if BitVec.slt 0 limit then limit.toNat else 0) = limit.toNat := by
    split
    · rfl
    · rename_i hn
      rw [positive_iff] at hn
      omega
  have hs : (limit + 1).toNat = limit.toNat + 1 := by
    rw [BitVec.toNat_add]
    exact Nat.mod_eq_of_lt (by simp; omega)
  by_cases hl : s.length < limit.toNat
  · refine ⟨List.replicate ((limit + 1).toNat - (s ++ [0]).length) 0, m, ?_⟩
    rw [if_pos hl] at hc
    rw [Machine.user2System, if_neg (by rw [negative_iff, hs]; omega), hcn, hc, take_of_length_le (Nat.le_of_lt hl)]
    simp only [Outcome.bind, append_assoc, singleton_append]
  · refine ⟨[], m, ?_⟩
    rw [if_neg hl] at hc
    rw [Machine.user2System, if_neg (by rw [negative_iff, hs]; omega), hcn, hc]
    simp only [Outcome.bind, hs, List.length_take, Nat.min_eq_left (Nat.le_of_not_lt hl), Nat.add_sub_cancel_left]
    rfl

theorem userName_text (h : HoldsName k s) (limit : Word) (hl : limit.toNat < 2147483647) :
    ∃ m, userName bigEndian (k.sys.registers 4) limit k = .ok (s.take limit.toNat, { k with sys := k.sys.putMachine m }) := by
  obtain ⟨zeros, m, hc⟩ := user2System_text bigEndian h limit hl
  refine ⟨m, run_bind.mpr ⟨_, _, onMachine_of hc, ?_⟩⟩
  rw [cString_text fun hm => h.text (mem_of_mem_take hm)]
  rfl

theorem createFileName_text (h : HoldsName k s) :
    ∃ k', createFileName bigEndian k = .ok (if s.take 33 = [] then none else some (s.take 33), k') := by
  obtain ⟨m, hn⟩ := userName_text bigEndian h (BitVec.ofNat 32 maxLength + 1) (by decide)
  exact ⟨_, run_bind.mpr ⟨_, _, rfl, run_bind.mpr ⟨_, _, hn, rfl⟩⟩⟩

theorem execName_text (h : HoldsName k s) : ∃ k', execName bigEndian k = .ok (s.take 33, k') := by
  obtain ⟨m, hn⟩ := userName_text bigEndian h (BitVec.ofNat 32 maxLength + 1) (by decide)
  exact ⟨_, run_bind.mpr ⟨_, _, rfl, hn⟩⟩

theorem openName_text (h : HoldsName k s) :
    ∃ asked k', openName bigEndian k = .ok (asked, k') ∧ ∀ n, asked = some n → n = s.take 32 := by
  obtain ⟨m, hnm⟩ := userName_text bigEndian h (BitVec.ofNat 32 maxLength) (by decide)
  refine ⟨_, _, run_bind.mpr ⟨_, _, rfl, run_bind.mpr ⟨_, _, hnm, run_bind.mpr ⟨_, _, rfl, run_bind.mpr
    ⟨_, _, rfl, rfl⟩⟩⟩⟩, ?_⟩
  intro n hn
  split at hn
  · cases hn
    rfl
  · cases hn

end

/-- A child that is started opens the name Exec has, if that fits `FileName`. -/
theorem childName_starts {t : NameTable} {progName : List Byte} (ht : 0 ∉ progName) (h : t.refuses progName = false) :
    childName true t progName = if progName.length < 32 then .ok (some progName) else .error .undefined := by
  cases hin : t.index with
  | none =>
    rw [NameTable.refuses, hin] at h
    cases h
  | some index =>
    rw [childName, if_pos rfl, NameTable.execUpdate, if_neg (by rw [h]; decide), hin]
    by_cases hl : progName.length < 32
    · obtain ⟨f, hs⟩ : ∃ f, (t.fileName index).set progName = .ok f := ⟨_, dif_pos hl⟩
      have hg := FileName.get_set ht hs
      simp only [if_pos hl, hs]
      show ((Function.update t.fileName index f index).get.bind _) = _
      rw [Function.update_self, hg]
      rfl
    · have hs : (t.fileName index).set progName = .error .undefined := dif_neg hl
      simp only [if_neg hl, hs]
      rfl

/-- For the string that each call finds in its caller's memory: if Exec finds its file and
    `ExecUpdate` does not refuse it, the names are one and the copies fit exactly if it has at most
    31 characters. -/
theorem one_name_iff {kc ko ke : KernelState W} {t : NameTable} {s : List Byte} (hc : HoldsName kc s)
    (ho : HoldsName ko s) (he : HoldsName ke s) (hfound : (ke.files.host.openRW (s.take 33)).1.isSome)
    (htaken : t.refuses (s.take 33) = false) : OneName bigEndian kc ko ke t ↔ s.length ≤ 31 := by
  obtain ⟨kc', hcreate⟩ := createFileName_text bigEndian hc
  obtain ⟨asked, ko', hopen, hasked⟩ := openName_text bigEndian ho
  obtain ⟨ke', hexec⟩ := execName_text bigEndian he
  have hchild := childName_starts (fun hm => he.text (List.mem_of_mem_take hm)) htaken
  have hpassed : namesPassed bigEndian kc ko ke t =
      match childName (ke.files.host.openRW (s.take 33)).1.isSome t (s.take 33) with
      | .ok child => .ok [if s.take 33 = [] then none else some (s.take 33), asked, some (s.take 33), child]
      | .error why => .error (.stopped why) := by
    rw [namesPassed, hcreate, hopen, hexec]
    rfl
  rw [hfound, hchild] at hpassed
  constructor
  · rintro ⟨passed, name, hok, -⟩
    by_contra hlen
    rw [hpassed, if_neg (by rw [List.length_take]; omega)] at hok
    cases hok
  · intro hlen
    rw [if_pos (by rw [List.length_take]; omega), List.take_of_length_le (show s.length ≤ 33 by omega)] at hpassed
    refine ⟨_, s, hpassed, fun n hn => ?_⟩
    simp only [List.mem_cons, List.not_mem_nil, or_false] at hn
    rcases hn with hn | hn | hn | hn
    · split at hn
      · cases hn
      · cases hn
        rfl
    · rw [hasked n hn.symm, List.take_of_length_le (by omega)]
    · cases hn
      rfl
    · cases hn
      rfl

/-- One process whose memory begins with `n` times the letter a, which is the name of a file or
    is not. -/
def named (n : Nat) (present : Bool) : KernelState Unit :=
  calling 0 0 0 (fun i => if i < n then 97 else 0)
    ⟨fun _ => none,
      ⟨fun name => if present ∧ name = List.replicate n 97 then some 0 else none, 1, fun _ => [], [], fun _ => by decide⟩, []⟩

def emptyTable : NameTable := ⟨some 1, fun _ => ⟨List.replicate 32 0, rfl⟩, []⟩

theorem named_holds : HoldsName (named 31 true) (List.replicate 31 97) := by
  refine ⟨?_, by decide +kernel, by decide⟩
  obtain ⟨t, ht, -⟩ := (calling_ownPages 0 0 0 _ _).onTable
  exact ⟨t, ht⟩

/-- 31 letters are one name. -/
theorem longest_name : HoldsName (named 31 true) (List.replicate 31 97) ∧
    OneName false (named 31 true) (named 31 true) (named 31 true) emptyTable :=
  ⟨named_holds, (one_name_iff false named_holds named_holds named_holds rfl (by decide)).mpr (by decide)⟩

/-- 32 letters and their zero go past `FileName`; of 33 letters, CreateFile and Exec hand over all
    and Open 32. -/
theorem long_names_differ :
    namesPassed false (named 32 true) (named 32 true) (named 32 true) emptyTable = .error (.stopped .undefined) ∧
    namesPassed false (named 33 false) (named 33 false) (named 33 false) emptyTable =
      .ok [some (List.replicate 33 97), some (List.replicate 32 97), some (List.replicate 33 97), none] ∧
    ¬ OneName false (named 32 true) (named 32 true) (named 32 true) emptyTable ∧
    ¬ OneName false (named 33 false) (named 33 false) (named 33 false) emptyTable := by
  have h32 : namesPassed false (named 32 true) (named 32 true) (named 32 true) emptyTable = .error (.stopped .undefined) := by
    obtain ⟨why, h, hwhy⟩ := exists_error (fun why => why == .stopped .undefined)
      (x := namesPassed false (named 32 true) (named 32 true) (named 32 true) emptyTable) (by decide +kernel)
    rw [h, beq_iff_eq.mp hwhy]
  have h33 : namesPassed false (named 33 false) (named 33 false) (named 33 false) emptyTable =
      .ok [some (List.replicate 33 97), some (List.replicate 32 97), some (List.replicate 33 97), none] := by
    obtain ⟨passed, h, hpassed⟩ := exists_ok
      (fun passed => passed == [some (List.replicate 33 97), some (List.replicate 32 97), some (List.replicate 33 97), none])
      (x := namesPassed false (named 33 false) (named 33 false) (named 33 false) emptyTable) (by decide +kernel)
    rw [h, beq_iff_eq.mp hpassed]
  refine ⟨h32, h33, ?_, ?_⟩
  · rintro ⟨passed, name, hok, -⟩
    rw [h32] at hok
    cases hok
  · rintro ⟨passed, name, hok, hone⟩
    rw [h33] at hok
    cases hok
    have h := (hone (List.replicate 33 97) (by decide)).trans (hone (List.replicate 32 97) (by decide)).symm
    exact absurd h (by decide)

end Nachos

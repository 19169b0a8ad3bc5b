/-
  Nachos.Filesys.OpenFiles — the table `openfile` of the real file system: the constructor,
  `Open(name, type)` and `FindFreeSlot` of `filesys/filesys.cc`, and `OpenFunction` and
  `CloseFunction` of `userprog/exception.cc` on it.

  `Open(name, type)` puts the new object into the first free slot itself, and its callers
  store the pointer it returns once more. `OpenFunction` stores it into the same slot; the
  constructor stores the pointers for the console into slots 0 and 1, and `FindFreeSlot`
  starts at 2. `filled` is history: the slots `OpenFunction` has answered with.
-/

import Nachos.Filesys.Sectors

namespace Nachos.OnDisk

open Lib
open Stub.FileSystem (stdinName stdoutName)
open Function (update update_apply update_eq_self update_idem update_of_ne update_self)

/-- An `OpenFile *`; addresses are not used again. -/
abbrev FilePtr := Nat

/-- The object `OpenFile(f, t)` makes. -/
structure TypedFile where
  file : OpenFile
  type : Word

/-- The file system with its table of open files; `heap` says which objects are alive. -/
structure OpenFiles where
  fs : FileSystem
  openfile : Nat → Option FilePtr
  heap : FilePtr → Option TypedFile
  nextPtr : FilePtr

variable (fs : FileSystem)

namespace FileSystem

/-- `directory->FetchFrom(directoryFile)` and `directory->Find(name)`. -/
def sectorOf (g : Garbage) (name : List Byte) : Except Stop Word := do
  let directory ← (Directory.new numDirEntries (g.bytes 0)).fetchFrom fs.directoryFile fs.disk
  return directory.find name

/-- The directory lists the name, with a sector that `Open` accepts. -/
def found (g : Garbage) (name : List Byte) : Bool :=
  (fs.sectorOf g name).toOption.any fun sector => BitVec.sle 0 sector

/-- `FileSystem(format)` up to the table of open files. -/
def mount (formatted : Bool) (disk : Disk) (g : Garbage) : Except Stop FileSystem :=
  if formatted then format disk g
  else do
    let freeMapFile ← OpenFile.new disk freeMapSector
    let directoryFile ← OpenFile.new disk directorySector
    return ⟨disk, freeMapFile, directoryFile⟩

/-- The constructor up to its calls of `Open`; `g i` is what its `i`-th part finds in memory. -/
def prepare (formatted : Bool) (disk : Disk) (g : Nat → Garbage) : Except Stop FileSystem := do
  let fs ← mount formatted disk (g 0)
  let (_, fs) ← fs.create (g 1) stdinName 0
  let (_, fs) ← fs.create (g 2) stdoutName 0
  return fs

/-- After its calls of `Create` the directory lists a name of the console. -/
def consoleListed (formatted : Bool) (disk : Disk) (g : Nat → Garbage) : Bool :=
  (prepare formatted disk g).toOption.any fun fs =>
    fs.found (g 3) stdinName || fs.found (g 4) stdoutName

end FileSystem

namespace OpenFiles

variable (s : OpenFiles)

def findFreeSlot : Option Nat := (List.range' 2 13).find? fun i => (s.openfile i).isNone

def setSlot (i : Nat) (p : Option FilePtr) : OpenFiles :=
  { s with openfile := update s.openfile i p }

/-- `new OpenFile(f, t)`. -/
def alloc (f : TypedFile) : OpenFiles :=
  { s with heap := update s.heap s.nextPtr (some f), nextPtr := s.nextPtr + 1 }

/-- `FileSystem::Open(name, type)`; `none` is NULL. -/
def openTyped (g : Garbage) (name : List Byte) (type : Word) :
    Except Stop (Option FilePtr × OpenFiles) := do
  let sector ← s.fs.sectorOf g name
  match s.findFreeSlot with
  -- `openfile[-1]`
  | none => .error .undefined
  | some freeSlot =>
    if BitVec.sle 0 sector then do
      let file ← OpenFile.new s.fs.disk sector
      return (some s.nextPtr, (s.alloc ⟨file, type⟩).setSlot freeSlot (some s.nextPtr))
    else return (s.openfile freeSlot, s)

/-- `openfile[i] = Open(name, type)`. -/
def openInto (i : Nat) (g : Garbage) (name : List Byte) (type : Word) :
    Except Stop (Option FilePtr × OpenFiles) := do
  let (p, s) ← s.openTyped g name type
  return (p, s.setSlot i p)

/-- A table with every slot NULL. -/
def empty : OpenFiles := ⟨fs, fun _ => none, fun _ => none, 0⟩

/-- The rest of the constructor. -/
def setUp (g₁ g₂ : Garbage) : Except Stop OpenFiles := do
  let (_, s) ← (empty fs).openInto 0 g₁ stdinName 2
  let (_, s) ← s.openInto 1 g₂ stdoutName 3
  return s

/-- `FileSystem(format)`. -/
def new (formatted : Bool) (disk : Disk) (g : Nat → Garbage) : Except Stop OpenFiles := do
  let fs ← FileSystem.prepare formatted disk g
  setUp fs (g 3) (g 4)

/-- `OpenFunction`, once the name is in the kernel; the answer is `none` when it leaves r2 alone. -/
def openCall (g : Garbage) (name : List Byte) (type : Word) : Except Stop (Option Word × OpenFiles) :=
  match s.findFreeSlot with
  | some freeSlot =>
    if type = 0 ∨ type = 1 then do
      let (p, s) ← s.openInto freeSlot g name type
      return (if p.isSome then some (BitVec.ofNat 32 freeSlot) else none, s)
    else if type = 2 then .ok (some 0, s)
    else if type = 3 then .ok (some 1, s)
    else .ok (none, s)
  | none => .ok (some (-1), s)

/-- `CloseFunction`; to `delete` an object twice is undefined. -/
def closeCall (fileID : Word) : Except Stop (Word × OpenFiles) :=
  if !fileID.slt 0 && !BitVec.slt 14 fileID then
    match s.openfile fileID.toNat with
    | some p =>
      if (s.heap p).isSome then
        .ok (0, { s with heap := update s.heap p none }.setSlot fileID.toNat none)
      else .error .undefined
    | none => .ok (-1, s)
  else .ok (-1, s)

end OpenFiles

/-! ## Runs of Open and Close -/

structure OpenRun where
  files : OpenFiles
  filled : List Nat

namespace OpenRun

inductive Event where
  | open_ (g : Garbage) (name : List Byte) (type : Word)
  | close (fileID : Word)
  /-- What the calls that are not about descriptors do to the disk. -/
  | disk (d : Disk)

/-- The slot an answer of `OpenFunction` names. -/
def answered : Option Word → List Nat
  | some value => if value.slt 0 then [] else [value.toNat]
  | none => []

def step (s : OpenRun) : Event → Except Stop OpenRun
  | .open_ g name type => do
    let (value, files) ← s.files.openCall g name type
    return ⟨files, answered value ++ s.filled⟩
  | .close fileID => do
    let (_, files) ← s.files.closeCall fileID
    return { s with files }
  | .disk d => .ok { s with files := { s.files with fs := { s.files.fs with disk := d } } }

/-- No two descriptors share an object, every descriptor's object is alive, and a slot no
    call has answered with is NULL, the console's apart. -/
structure Apart (s : OpenRun) : Prop where
  distinct : ∀ i j p, s.files.openfile i = some p → s.files.openfile j = some p → i = j
  alive : ∀ i p, s.files.openfile i = some p → (s.files.heap p).isSome
  empty : ∀ i, 2 ≤ i → i ∉ s.filled → s.files.openfile i = none

end OpenRun

/-! ## What the calls do to the table -/

namespace FileSystem

variable {fs : FileSystem}

theorem found_of {g : Garbage} {name : List Byte} {sector : Word} (h : fs.sectorOf g name = .ok sector) :
    fs.found g name = BitVec.sle 0 sector := by
  rw [found, h]
  rfl

theorem consoleListed_of {formatted : Bool} {disk : Disk} {g : Nat → Garbage} (h : prepare formatted disk g = .ok fs) :
    consoleListed formatted disk g =
      (fs.found (g 3) stdinName || fs.found (g 4) stdoutName) := by
  rw [consoleListed, h]
  rfl

end FileSystem

namespace OpenFiles

variable {s s' : OpenFiles} {g : Garbage} {name : List Byte} {type : Word} {p : Option FilePtr} {i : Nat}

theorem findFreeSlot_some (h : s.findFreeSlot = some i) : 2 ≤ i ∧ i < 15 ∧ s.openfile i = none := by
  have hm := List.mem_of_find?_eq_some h
  have hn := List.find?_some h
  rw [List.mem_range'_1] at hm
  exact ⟨hm.1, hm.2, by simpa using hn⟩

/-- `Open(name, type)` fills the first free slot, or finds no such name and changes nothing. -/
theorem openTyped_ok (h : s.openTyped g name type = .ok (p, s')) : ∃ slot, s.findFreeSlot = some slot ∧
    ((s.fs.found g name = true ∧ p = some s.nextPtr ∧ ∃ f, s' = (s.alloc f).setSlot slot (some s.nextPtr)) ∨
      (s.fs.found g name = false ∧ p = none ∧ s' = s)) := by
  obtain ⟨sector, hsc, h⟩ := bind_eq_ok.mp h
  cases hs : s.findFreeSlot with
  | none => rw [hs] at h; cases h
  | some slot =>
    refine ⟨slot, rfl, ?_⟩
    rw [hs] at h
    rw [FileSystem.found_of hsc]
    dsimp only at h
    split at h
    · rename_i hf
      obtain ⟨file, -, h⟩ := bind_eq_ok.mp h
      cases h
      exact .inl ⟨hf, rfl, _, rfl⟩
    · rename_i hf
      cases h
      exact .inr ⟨by simpa using hf, (findFreeSlot_some hs).2.2, rfl⟩

/-- A new object is in its slot alone. -/
structure Sound (s : OpenFiles) : Prop where
  distinct : ∀ {i j p}, s.openfile i = some p → s.openfile j = some p → i = j
  alive : ∀ {i p}, s.openfile i = some p → (s.heap p).isSome
  fresh : ∀ {i p}, s.openfile i = some p → p < s.nextPtr

theorem Sound.alloc (h : s.Sound) (f : TypedFile) (i : Nat) : ((s.alloc f).setSlot i (some s.nextPtr)).Sound := by
  have cases_ : ∀ {j p}, update s.openfile i (some s.nextPtr) j = some p →
      (j = i ∧ p = s.nextPtr) ∨ (s.openfile j = some p ∧ p < s.nextPtr) := by
    intro j p hj
    by_cases e : j = i
    · subst e
      rw [update_self] at hj
      cases hj
      exact .inl ⟨rfl, rfl⟩
    · rw [update_of_ne e] at hj
      exact .inr ⟨hj, h.fresh hj⟩
  refine ⟨fun hj hk => ?_, fun {j p} hj => ?_, fun hj => ?_⟩
  · rcases cases_ hj with ⟨rfl, e⟩ | ⟨hj, hlt⟩
    · rcases cases_ hk with ⟨rfl, -⟩ | ⟨-, hlt⟩
      · rfl
      · exact absurd e (Nat.ne_of_lt hlt)
    · rcases cases_ hk with ⟨-, e⟩ | ⟨hk, -⟩
      · exact absurd e (Nat.ne_of_lt hlt)
      · exact h.distinct hj hk
  · show (update s.heap s.nextPtr (some f) p).isSome
    rcases cases_ hj with ⟨-, rfl⟩ | ⟨hj, hlt⟩
    · rw [update_self]; rfl
    · rw [update_of_ne (Nat.ne_of_lt hlt)]
      exact h.alive hj
  · show _ < s.nextPtr + 1
    rcases cases_ hj with ⟨-, rfl⟩ | ⟨-, hlt⟩
    · exact Nat.lt_succ_self _
    · exact Nat.lt_succ_of_lt hlt

theorem Sound.delete (h : s.Sound) {q : FilePtr} (hq : s.openfile i = some q) :
    Sound ({ s with heap := update s.heap q none }.setSlot i none) := by
  have back : ∀ {j p}, update s.openfile i none j = some p → j ≠ i ∧ s.openfile j = some p := by
    intro j p hj
    by_cases e : j = i
    · subst e
      rw [update_self] at hj
      cases hj
    · rw [update_of_ne e] at hj
      exact ⟨e, hj⟩
  refine ⟨fun hj hk => h.distinct (back hj).2 (back hk).2, fun {j p} hj => ?_, fun hj => h.fresh (back hj).2⟩
  obtain ⟨hne, hj⟩ := back hj
  -- the deleted object was in this slot only
  have hpq : p ≠ q := fun e => hne (h.distinct hj (e ▸ hq))
  show (update s.heap q none p).isSome
  rw [update_of_ne hpq]
  exact h.alive hj

theorem setSlot_setSlot (s : OpenFiles) (i : Nat) (p q : Option FilePtr) : (s.setSlot i p).setSlot i q = s.setSlot i q := by
  simp only [setSlot, update_idem]

theorem openInto_ok (h : s.openInto i g name type = .ok (p, s')) : ∃ slot, s.findFreeSlot = some slot ∧
    ((s.fs.found g name = true ∧ p = some s.nextPtr ∧
        ∃ f, s' = ((s.alloc f).setSlot slot (some s.nextPtr)).setSlot i (some s.nextPtr)) ∨
      (s.fs.found g name = false ∧ p = none ∧ s' = s.setSlot i none)) := by
  obtain ⟨⟨q, s1⟩, ho, h⟩ := bind_eq_ok.mp h
  cases h
  obtain ⟨slot, hs, hc⟩ := openTyped_ok ho
  refine ⟨slot, hs, ?_⟩
  rcases hc with ⟨hf, rfl, f, rfl⟩ | ⟨hf, rfl, rfl⟩
  · exact .inl ⟨hf, rfl, f, rfl⟩
  · exact .inr ⟨hf, rfl, rfl⟩

theorem openInto_keeps (h : s.openInto i g name type = .ok (p, s')) {j : Nat} {q : FilePtr} (hj : j ≠ i)
    (hq : s.openfile j = some q) : s'.openfile j = some q := by
  obtain ⟨slot, hs, ⟨-, -, f, rfl⟩ | ⟨-, -, rfl⟩⟩ := openInto_ok h
  · have hne : j ≠ slot := by
      intro heq
      subst heq
      cases hq.symm.trans (findFreeSlot_some hs).2.2
    simpa only [setSlot, alloc, update_of_ne hj, update_of_ne hne] using hq
  · simpa only [setSlot, update_of_ne hj] using hq

/-- A system call stores the pointer where `Open` has put it. -/
theorem openCall_ok {value : Option Word} (h : s.openCall g name type = .ok (value, s')) :
    (∃ slot f, s.findFreeSlot = some slot ∧ value = some (BitVec.ofNat 32 slot) ∧
      s' = (s.alloc f).setSlot slot (some s.nextPtr)) ∨ s' = s := by
  unfold openCall at h
  split at h
  · rename_i freeSlot hs
    split at h
    · obtain ⟨⟨p, s1⟩, hin, h⟩ := bind_eq_ok.mp h
      cases h
      obtain ⟨slot, hs', hc⟩ := openInto_ok hin
      cases hs.symm.trans hs'
      rcases hc with ⟨-, rfl, f, rfl⟩ | ⟨-, rfl, rfl⟩
      · exact .inl ⟨freeSlot, f, hs, rfl, setSlot_setSlot ..⟩
      · refine .inr ?_
        simp only [setSlot, ← (findFreeSlot_some hs).2.2, update_eq_self]
    · split at h
      · cases h; exact .inr rfl
      · split at h <;> cases h <;> exact .inr rfl
  · cases h
    exact .inr rfl

theorem closeCall_ok {fileID value : Word} (h : s.closeCall fileID = .ok (value, s')) :
    (∃ q, s.openfile fileID.toNat = some q ∧
      s' = { s with heap := update s.heap q none }.setSlot fileID.toNat none) ∨ s' = s := by
  unfold closeCall at h
  split at h
  · split at h
    · rename_i q hq
      split at h
      · cases h; exact .inl ⟨q, hq, rfl⟩
      · cases h
    · cases h; exact .inr rfl
  · cases h; exact .inr rfl

end OpenFiles

namespace OpenRun

open FileSystem (blankDisk consoleListed consoleListed_of ones prepare)

variable {s s' : OpenRun} {e : Event}

structure Inv (s : OpenRun) : Prop where
  sound : s.files.Sound
  empty : ∀ i, 2 ≤ i → i ∉ s.filled → s.files.openfile i = none

theorem Inv.apart (h : s.Inv) : s.Apart :=
  ⟨fun _ _ _ => h.sound.distinct, fun _ _ => h.sound.alive, h.empty⟩

theorem answered_slot {slot : Nat} (h : slot < 2147483648) : answered (some (BitVec.ofNat 32 slot)) = [slot] := by
  have hto : (BitVec.ofNat 32 slot).toNat = slot := ofNat_toNat (by omega)
  have hp : ¬ (BitVec.ofNat 32 slot).slt 0 = true := by
    rw [negative_iff, hto]
    omega
  rw [answered, if_neg hp, hto]

theorem step_inv (h : s.Inv) (hst : s.step e = .ok s') : s'.Inv := by
  cases e with
  | open_ g name type =>
    obtain ⟨⟨value, files⟩, hc, hst⟩ := bind_eq_ok.mp hst
    cases hst
    rcases OpenFiles.openCall_ok hc with ⟨slot, f, hs, rfl, rfl⟩ | rfl
    · refine ⟨h.sound.alloc f slot, fun i hi hn => ?_⟩
      have hs := OpenFiles.findFreeSlot_some hs
      have ha := answered_slot (Nat.lt_trans hs.2.1 (by decide))
      rw [ha, List.singleton_append, List.mem_cons, not_or] at hn
      exact (update_of_ne hn.1 ..).trans (h.empty i hi hn.2)
    · exact ⟨h.sound, fun i hi hn => h.empty i hi fun hm => hn (List.mem_append_right _ hm)⟩
  | close fileID =>
    obtain ⟨⟨value, files⟩, hc, hst⟩ := bind_eq_ok.mp hst
    cases hst
    rcases OpenFiles.closeCall_ok hc with ⟨q, hq, rfl⟩ | rfl
    · refine ⟨h.sound.delete hq, fun i hi hn => ?_⟩
      show update s.files.openfile _ none i = none
      by_cases heq : i = fileID.toNat
      · rw [heq, update_self]
      · rw [update_of_ne heq]
        exact h.empty i hi hn
    · exact h
  | disk d =>
    cases hst
    exact ⟨⟨h.sound.distinct, h.sound.alive, h.sound.fresh⟩, h.empty⟩

/-! ## The constructor -/

variable {fs : FileSystem} {g₁ g₂ : Garbage} {files : OpenFiles}

/-- A name the constructor finds is in two slots. -/
theorem setUp_shares (h : OpenFiles.setUp fs g₁ g₂ = .ok files)
    (hf : fs.found g₁ stdinName = true ∨ fs.found g₂ stdoutName = true) :
    ∃ i j p, i ≠ j ∧ files.openfile i = some p ∧ files.openfile j = some p := by
  rw [OpenFiles.setUp] at h
  obtain ⟨⟨p, s1⟩, hin, h⟩ := bind_eq_ok.mp h
  obtain ⟨⟨q, s2⟩, ho, h⟩ := bind_eq_ok.mp h
  cases h
  obtain ⟨slot, hs, hc⟩ := OpenFiles.openInto_ok hin
  cases hs.symm.trans (show (OpenFiles.empty fs).findFreeSlot = some 2 from rfl)
  rcases hc with ⟨-, -, f, rfl⟩ | ⟨hno, -, rfl⟩
  · exact ⟨0, 2, 0, by decide, OpenFiles.openInto_keeps ho (by decide) rfl,
      OpenFiles.openInto_keeps ho (by decide) rfl⟩
  have ho' : fs.found g₂ stdoutName = true := hf.resolve_left fun hin => by cases hno.symm.trans hin
  obtain ⟨slot, hs, ⟨-, -, f, rfl⟩ | ⟨hn', -⟩⟩ := OpenFiles.openInto_ok ho
  · cases hs.symm.trans (show ((OpenFiles.empty fs).setSlot 0 none).findFreeSlot = some 2 from rfl)
    exact ⟨1, 2, 0, by decide, rfl, rfl⟩
  · cases hn'.symm.trans ho'

/-- If it finds neither name, every slot is NULL. -/
theorem setUp_empty (h : OpenFiles.setUp fs g₁ g₂ = .ok files)
    (hin : fs.found g₁ stdinName = false) (ho : fs.found g₂ stdoutName = false)
    (i : Nat) : files.openfile i = none := by
  rw [OpenFiles.setUp] at h
  obtain ⟨⟨p, s1⟩, hc1, h⟩ := bind_eq_ok.mp h
  obtain ⟨⟨q, s2⟩, hc2, h⟩ := bind_eq_ok.mp h
  cases h
  obtain ⟨-, -, ⟨hy, -⟩ | ⟨-, -, rfl⟩⟩ := OpenFiles.openInto_ok hc1
  · cases hy.symm.trans hin
  obtain ⟨-, -, ⟨hy, -⟩ | ⟨-, -, rfl⟩⟩ := OpenFiles.openInto_ok hc2
  · cases hy.symm.trans ho
  simp only [OpenFiles.setSlot, OpenFiles.empty, update_apply, ite_self]

/-- Whatever disk the constructor was given: the descriptors stay apart, whatever is opened
    and closed, exactly if it finds neither of the console's names. -/
theorem descriptors_apart_iff {formatted : Bool} {disk : Disk} {g : Nat → Garbage}
    (h : OpenFiles.new formatted disk g = .ok files) :
    (∀ s, Lib.From step (fun _ _ => True) ⟨files, []⟩ s → s.Apart) ↔
      consoleListed formatted disk g = false := by
  obtain ⟨fs, hfs, h⟩ := bind_eq_ok.mp h
  rw [consoleListed_of hfs, Bool.or_eq_false_iff]
  constructor
  · intro hall
    have hapart := hall _ (.init rfl)
    have hno : ¬ (fs.found (g 3) stdinName = true ∨
        fs.found (g 4) stdoutName = true) := by
      intro hfound
      obtain ⟨i, j, p, hne, hi, hj⟩ := setUp_shares h hfound
      exact hne (hapart.distinct i j p hi hj)
    simpa only [not_or, Bool.not_eq_true] using hno
  · intro hno s hs
    obtain ⟨hin, hout⟩ := hno
    have hnone := setUp_empty h hin hout
    have hinit : Inv ⟨files, []⟩ := by
      refine ⟨⟨fun hi => ?_, fun hi => ?_, fun hi => ?_⟩, fun i _ _ => hnone i⟩
      all_goals cases hi.symm.trans (hnone _)
    refine (Reach.inv (P := Inv) ?_ ?_ hs).apart
    · intro _ e
      exact e ▸ hinit
    · intro _ _ _ hinv _ hstep
      exact step_inv hinv hstep

/-- A disk with ten empty files, "a" to "j". -/
def fullDirectory : Disk
  | 0 => .ofBuffer (word.bytesOf [128, 1, 2])
  | 1 => .ofBuffer (word.bytesOf [200, 1, 3])
  | 2 => .ofBuffer [0xff, 0x3f]
  | 3 => .ofBuffer ((List.range 10).flatMap fun i =>
      [1, 0, 0, 0] ++ word.bytes (BitVec.ofNat 32 (4 + i)) ++ BitVec.ofNat 8 (97 + i) :: List.replicate 11 0)
  | _ => .ofBuffer []

/-- There the constructor can create no console: it finds none, and after `Open` of "a" the descriptors
    are apart. -/
theorem full_directory_apart : consoleListed false fullDirectory (fun _ => ones) = false ∧
    ∃ files s, OpenFiles.new false fullDirectory (fun _ => ones) = .ok files ∧
      step ⟨files, []⟩ (.open_ ones [97] 0) = .ok s ∧ (s.files.openfile 2).isSome ∧ s.Apart := by
  obtain ⟨fs, hfs, htest⟩ := exists_ok (x := prepare false fullDirectory fun _ => ones)
    (fun fs => !(fs.found ones stdinName || fs.found ones stdoutName) && (OpenFiles.setUp fs ones ones).toOption.any fun files =>
      (step ⟨files, []⟩ (.open_ ones [97] 0)).toOption.any fun s => (s.files.openfile 2).isSome) (by decide +kernel)
  rw [Bool.and_eq_true, Bool.not_eq_true'] at htest
  obtain ⟨files, hsetUp, hrun⟩ := exists_ok _ htest.2
  obtain ⟨s, hs, hsome⟩ := exists_ok _ hrun
  have hno : consoleListed false fullDirectory (fun _ => ones) = false := (consoleListed_of hfs).trans htest.1
  have hnew : OpenFiles.new false fullDirectory (fun _ => ones) = .ok files := bind_eq_ok.mpr ⟨fs, hfs, hsetUp⟩
  exact ⟨hno, files, s, hnew, hs, hsome, (descriptors_apart_iff hnew).mpr hno s (.step _ (.init rfl) trivial hs)⟩

/-- On a disk just formatted slots 0 and 2 share an object. After `Close(2)` the console's
    slot points to a dead one, and `Close(0)` deletes it again. -/
theorem console_shared : ∃ files s, OpenFiles.new true blankDisk (fun _ => ones) = .ok files ∧
    (files.openfile 0).isSome ∧ files.openfile 2 = files.openfile 0 ∧
    step ⟨files, []⟩ (.close 2) = .ok s ∧ (∀ s', s.step (.close 0) ≠ .ok s') ∧
    ¬ Apart ⟨files, []⟩ ∧ ¬ s.Apart := by
  obtain ⟨files, h, htest⟩ := exists_ok (x := OpenFiles.new true blankDisk fun _ => ones)
    (fun files => (files.openfile 0).isSome && files.openfile 2 == files.openfile 0 &&
      (step ⟨files, []⟩ (.close 2)).toOption.any fun s => (s.step (.close 0)).toOption.isNone &&
        (s.files.openfile 0).any fun p => (s.files.heap p).isNone) (by decide +kernel)
  simp only [Bool.and_eq_true, beq_iff_eq] at htest
  obtain ⟨⟨hsome, hshared⟩, hclose⟩ := htest
  obtain ⟨s, hs, hdead⟩ := exists_ok _ hclose
  rw [Bool.and_eq_true, Option.isNone_iff_eq_none] at hdead
  obtain ⟨p, hp, hnone⟩ := (Option.any_eq_true ..).mp hdead.2
  refine ⟨files, s, h, hsome, hshared, hs, fun s' e => ?_, fun hapart => ?_, fun hapart => ?_⟩
  · rw [e] at hdead
    cases hdead.1
  · obtain ⟨q, hq⟩ := Option.isSome_iff_exists.mp hsome
    cases hapart.distinct 0 2 q hq (hshared.trans hq)
  · have halive := hapart.alive 0 p hp
    rw [Option.isNone_iff_eq_none.mp hnone] at halive
    cases halive

end OpenRun

end Nachos.OnDisk

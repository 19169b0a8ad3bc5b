/-
  Nachos.Filesys.Isolation — open files and the file system under them: what a write through a
  handle changes.

  An `OpenFile` keeps its own copy of the header. `Remove` frees the sectors of a file whether
  or not it is open, and `Create` hands them out again, so a handle of a removed file still
  writes to them. `removed` is history: it says of a handle that its file has been removed
  since it was opened. A position below zero or a file larger than its header has room for leads
  outside the header's table, and so to any sector.
-/

import Mathlib.Data.List.Nodup
import Mathlib.Data.List.Pairwise
import Nachos.Filesys.Cursor
import Nachos.Filesys.FileSize

namespace Nachos.OnDisk

open Lib List
open FileSystem (ones)

/-! ## Files in their sectors -/

theorem OpenFile.call_reads {f f' : OpenFile} {d d' : Disk} {g : Nat → Byte} {op : FileOp} {a : Word × List Byte}
    (hok : f.call d g op = .ok (a, f', d')) (hw : op.writes = false) : d' = d := by
  cases op with
  | write data n => cases hw
  | writeAt data n p => cases hw
  | read n =>
    obtain ⟨r, -, heq⟩ := bind_eq_ok.mp hok
    cases heq
    rfl
  | readAt n p =>
    obtain ⟨r, -, heq⟩ := bind_eq_ok.mp hok
    cases heq
    rfl
  | _ =>
    cases hok
    rfl

/-- The sectors the header lists hold the file. -/
def Filed (hdr : FileHeader) : Prop := ∃ n, OpenFile.Laid ⟨hdr, 0⟩ hdr.listed n

theorem Filed.of_laid {hdr : FileHeader} {before after : BitMap} {fileSize : Word}
    (h : hdr.Laid before fileSize after) (hs : 0 ≤ fileSize.toInt) : Filed hdr := by
  have hto := OpenFile.toInt_of_nonneg hs
  refine ⟨fileSize.toNat, ⟨?_, ?_, ?_, h.distinct, fun s hm => (h.new s hm).1⟩⟩
  · rw [ofNat_word]
    exact h.bytes
  · intro i s hi
    obtain ⟨w, hw, rfl⟩ := Option.map_eq_some_iff.mp ((getElem?_map ..).symm.trans hi)
    rw [ofNat_word]
    rw [getElem?_take] at hw
    split at hw
    · exact hw
    · cases hw
  · rw [h.count, sectorsNeeded, hto, Int.toNat_natCast]
    unfold divRoundUp sectorSize
    split <;> omega

/-! ## Files keep apart -/

/-- Every file is in the sectors its header lists. -/
def Sized (d : Disk) : Prop := ∀ e ∈ (directoryOf d).inUse, Filed (headerAt d e.sector.toNat)

/-- From `d` to `d'` only data of the file with its header in `sector` has changed. -/
structure Isolated (d d' : Disk) (sector : Nat) : Prop where
  file : ∃ e ∈ (directoryOf d).inUse, e.sector.toNat = sector
  only : ∀ s, d' s ≠ d s → s ∈ (headerAt d sector).listed
  map : mapOf d' = mapOf d
  directory : directoryOf d' = directoryOf d
  headers : headerAt d' 0 = headerAt d 0 ∧ headerAt d' 1 = headerAt d 1 ∧
    ∀ e ∈ (directoryOf d).inUse, headerAt d' e.sector.toNat = headerAt d e.sector.toNat
  others : ∀ e ∈ (directoryOf d).inUse, e.sector.toNat ≠ sector →
    contents d' (headerAt d' e.sector.toNat) = contents d (headerAt d e.sector.toNat)

namespace FileSystem

section

variable {fs : FileSystem} (h : fs.Inv) {e e' : DirectoryEntry} {s : Nat}
include h

/-- A data sector is no sector of the system, no header, and in no other file. -/
theorem Inv.data_apart (he : e ∈ (directoryOf fs.disk).inUse) (hs : s ∈ (headerAt fs.disk e.sector.toNat).listed) :
    4 ≤ s ∧ ∀ e' ∈ (directoryOf fs.disk).inUse, s ≠ e'.sector.toNat ∧
      (e'.sector ≠ e.sector → s ∉ (headerAt fs.disk e'.sector.toNat).listed) := by
  have hn := h.accounted.distinct
  rw [h.mounted.used, nodup_append] at hn
  obtain ⟨-, hf, hsy⟩ := hn
  obtain ⟨hec, hp⟩ := nodup_flatMap.mp hf
  have hm : s ∈ fileSectors fs.disk e := mem_cons_of_mem _ hs
  constructor
  · by_contra hlt
    exact hsy s (by simp only [mem_cons]; omega) s (mem_flatMap.mpr ⟨e, he, hm⟩) rfl
  intro e' he'
  by_cases heq : e' = e
  · subst heq
    refine ⟨?_, fun hne => absurd rfl hne⟩
    rintro rfl
    exact (nodup_cons.mp (hec e' he')).1 hs
  · have hsym : Std.Symm (Function.onFun List.Disjoint (fileSectors fs.disk)) := ⟨fun _ _ hd _ hx hy => hd hy hx⟩
    have hds : List.Disjoint (fileSectors fs.disk e') (fileSectors fs.disk e) := hp.forall he' he heq
    exact ⟨fun hsc => hds (hsc ▸ mem_cons_self) hm, fun _ hs' => hds (mem_cons_of_mem _ hs') hm⟩

variable {d : Disk} (he : e ∈ (directoryOf fs.disk).inUse)
  (honly : ∀ s, d s ≠ fs.disk s → s ∈ (headerAt fs.disk e.sector.toNat).listed)
include he honly

theorem Inv.isolated : Isolated fs.disk d e.sector.toNat := by
  have hsy : ∀ s < 4, d s = fs.disk s := by
    intro s hs
    by_contra hne
    have := (h.data_apart he (honly s hne)).1
    omega
  have hm : Mounted { fs with disk := d } := h.mounted.frame (hsy 0 (by decide)) (hsy 1 (by decide))
  have hh : ∀ e' ∈ (directoryOf fs.disk).inUse, headerAt d e'.sector.toNat = headerAt fs.disk e'.sector.toNat := by
    intro e' he'
    refine congrArg FileHeader.ofSector ?_
    by_contra hne
    exact ((h.data_apart he (honly _ hne)).2 e' he').1 rfl
  refine ⟨⟨e, he, rfl⟩, honly, ?_, ?_, ⟨?_, ?_, hh⟩, ?_⟩
  · rw [show mapOf d = .ofBytes numSectors (d 2).bytes from hm.mapOf, h.mounted.mapOf, hsy 2 (by decide)]
  · rw [show directoryOf d = .ofBytes numDirEntries (d 3).bytes from hm.directoryOf, h.mounted.directoryOf, hsy 3 (by decide)]
  · rw [headerAt, headerAt, hsy 0 (by decide)]
  · rw [headerAt, headerAt, hsy 1 (by decide)]
  · intro e' he' hne
    have hd : ∀ s ∈ (headerAt fs.disk e'.sector.toNat).listed, d s = fs.disk s := by
      intro s hs
      by_contra hchanged
      exact ((h.data_apart he (honly s hchanged)).2 e' he').2 (fun heq => hne (congrArg BitVec.toNat heq)) hs
    rw [hh e' he', contents, contents]
    exact congrArg (List.take _) (flatMap_congr fun s hs => by rw [hd s hs])

theorem Inv.written : Inv { fs with disk := d } := by
  have his := h.isolated he honly
  have hm : Mounted { fs with disk := d } := ⟨his.headers.1.trans h.mounted.mapHdr, his.headers.2.1.trans h.mounted.dirHdr,
    h.mounted.mapFile, h.mounted.dirFile, h.mounted.mapListed, h.mounted.dirListed⟩
  have hu : used d = used fs.disk := by
    rw [show used d = _ from hm.used, h.mounted.used, his.directory]
    refine congrArg ([0, 1, 2, 3] ++ ·) (flatMap_congr fun e' he' => ?_)
    rw [fileSectors, fileSectors, his.headers.2.2 e' he']
  refine ⟨hm, ⟨?_, ?_, ?_, ?_⟩⟩
  · intro s hs
    rw [his.map, hu]
    exact h.accounted.marks s hs
  · rw [hu]
    exact h.accounted.distinct
  · rw [hu]
    exact h.accounted.inRange
  · intro e' he'
    rw [his.directory] at he'
    rw [his.headers.2.2 e' he']
    exact h.accounted.whole e' he'

end

end FileSystem

/-! ## Handles -/

/-- An open file. `sector` and `removed` are history: where its header was when it was opened,
    and whether its file has been removed since. -/
structure Handle where
  file : OpenFile
  sector : Nat
  removed : Bool

structure Session where
  fs : FileSystem
  handles : Nat → Option Handle

namespace Session

inductive Op where
  | create (g : Garbage) (name : List Byte) (initialSize : Word)
  | remove (g : Garbage) (name : List Byte)
  | openFile (g : Garbage) (name : List Byte) (i : Nat)
  | file (i : Nat) (g : Nat → Byte) (op : FileOp)
  | close (i : Nat)

/-- The handles of the file in `sector` are those of a removed file. -/
def outlive (handles : Nat → Option Handle) (sector : Nat) : Nat → Option Handle := fun i =>
  (handles i).map fun x => if x.sector = sector then { x with removed := true } else x

def step (σ : Session) : Op → Except Stop Session
  | .create g name initialSize => do
    let (_, fs) ← σ.fs.create g name initialSize
    return { σ with fs }
  | .remove g name => do
    let (removed, fs) ← σ.fs.remove g name
    return { fs, handles := if removed then outlive σ.handles ((directoryOf σ.fs.disk).find name).toNat else σ.handles }
  | .openFile g name i => do
    let file ← σ.fs.openFile g name
    let x := file.map fun file => ⟨file, ((directoryOf σ.fs.disk).find name).toNat, false⟩
    return { σ with handles := Function.update σ.handles i x }
  | .file i g op =>
    match σ.handles i with
    | none => .error .undefined
    | some x => do
      let (_, file, disk) ← x.file.call σ.fs.disk g op
      return { fs := { σ.fs with disk }, handles := Function.update σ.handles i (some { x with file }) }
  | .close i => .ok { σ with handles := Function.update σ.handles i none }

/-- A formatted disk, and nothing open. -/
def Init (σ : Session) : Prop := σ.fs.Init ∧ ∀ i, σ.handles i = none

/-- No file is created larger than `MaxFileSize`, the calls on open files are in range, and nothing
    is written through a handle whose file has been removed since it was opened. -/
def WritesToFile (σ : Session) : Op → Prop
  | .create _ _ initialSize => initialSize.toNat ≤ maxFileSize
  | .file i _ op => ∀ x, σ.handles i = some x →
    op.InRange x.file.seekPosition.toNat ∧ (op.writes = true → x.removed = false)
  | _ => True

/-! ## The invariant -/

structure Sound (x : Handle) (d : Disk) : Prop where
  filed : Filed x.file.hdr
  position : 0 ≤ x.file.seekPosition.toInt
  /-- A handle knows its file's header, as long as there is the file. -/
  known : x.removed = false →
    ∃ e ∈ (directoryOf d).inUse, e.sector.toNat = x.sector ∧ headerAt d x.sector = x.file.hdr

structure Inv (σ : Session) : Prop where
  fs : σ.fs.Inv
  sized : Sized σ.fs.disk
  handles : ∀ i x, σ.handles i = some x → Sound x σ.fs.disk

variable {r : Bool} {fs' : FileSystem} {file : OpenFile} {i : Nat} {x : Handle} {op : FileOp}
  {a : Word × List Byte} {d : Disk}

/-- The file of a handle stays, with its header. -/
theorem Sound.mono {d' : Disk} (h : Sound x d) (hk : ∀ e ∈ (directoryOf d).inUse, e.sector.toNat = x.sector →
    e ∈ (directoryOf d').inUse ∧ headerAt d' e.sector.toNat = headerAt d e.sector.toNat) : Sound x d' := by
  refine ⟨h.filed, h.position, fun hl => ?_⟩
  obtain ⟨e, he, hs, hhdr⟩ := h.known hl
  obtain ⟨he', hh⟩ := hk e he hs
  exact ⟨e, he', hs, by rw [← hs, hh, hs, hhdr]⟩

section

variable {fs : FileSystem} (h : fs.Inv) {g : Garbage} {name : List Byte}
include h

/-- After a `Create` the files there were are there, with their headers. -/
theorem create_keeps {initialSize : Word} (hs : initialSize.toNat ≤ maxFileSize)
    (hok : fs.create g name initialSize = .ok (r, fs')) :
    fs'.Inv ∧ (Sized fs.disk → Sized fs'.disk) ∧ ∀ e ∈ (directoryOf fs.disk).inUse,
      e ∈ (directoryOf fs'.disk).inUse ∧ headerAt fs'.disk e.sector.toNat = headerAt fs.disk e.sector.toNat := by
  have hto : initialSize.toInt = initialSize.toNat := toInt_toNat (Nat.lt_of_le_of_lt hs (by decide))
  have hsz : sectorsNeeded initialSize ≤ numDirect := by
    rw [sectorsNeeded, hto, Int.toNat_natCast]
    unfold divRoundUp sectorSize numDirect
    unfold maxFileSize numDirect sectorSize at hs
    split <;> omega
  rcases (FileSystem.create_made_iff h g name initialSize).mpr fun _ _ _ => .inr ⟨hsz, by omega⟩ with
    hsm | ⟨d, p, r, hdr, e, had, ha⟩
  · cases hok.symm.trans hsm
    exact ⟨h, id, fun e he => ⟨he, rfl⟩⟩
  · cases hok.symm.trans had
    have hk : ∀ e' ∈ (directoryOf fs.disk).inUse, headerAt d e'.sector.toNat = headerAt fs.disk e'.sector.toNat :=
      fun e' he' => h.mounted.header_frame h.accounted (ha.kept h) he'
    refine ⟨ha.inv h, ?_, fun e' he' => ⟨(ha.perm h).mem_iff.mpr (mem_cons_of_mem _ he'), hk e' he'⟩⟩
    intro hf e' he'
    rcases mem_cons.mp ((ha.perm h).mem_iff.mp he') with rfl | hold
    · rw [ha.header_eq]
      exact .of_laid ha.laid (by omega)
    · rw [hk e' hold]
      exact hf e' hold

/-- After a `Remove` those it has not removed are there. -/
theorem remove_keeps (hok : fs.remove g name = .ok (r, fs')) :
    fs'.Inv ∧ (Sized fs.disk → Sized fs'.disk) ∧ ∀ e ∈ (directoryOf fs.disk).inUse,
      (r = true → e.sector ≠ (directoryOf fs.disk).find name) →
      e ∈ (directoryOf fs'.disk).inUse ∧ headerAt fs'.disk e.sector.toNat = headerAt fs.disk e.sector.toNat := by
  rcases FileSystem.remove_cases h g name with hsm | ⟨d, e, hdro, hf, hd⟩
  · cases hok.symm.trans hsm
    exact ⟨h, id, fun e he _ => ⟨he, rfl⟩⟩
  cases hok.symm.trans hdro
  refine ⟨hd.inv h, ?_, ?_⟩
  · intro hsz e' he'
    obtain ⟨hold, hh⟩ := hd.header h he'
    rw [hh]
    exact hsz e' hold
  · intro e' he' hne
    rcases mem_cons.mp ((hd.perm h).mem_iff.mp he') with rfl | hs
    · exact absurd hf.symm (hne rfl)
    · exact ⟨hs, (hd.header h hs).2⟩

/-- `Open` finds the header of a file that is there, and starts at its first byte. -/
theorem openFile_found (hok : fs.openFile g name = .ok (some file)) : file.seekPosition = 0 ∧
    ∃ e ∈ (directoryOf fs.disk).inUse, e.sector.toNat = ((directoryOf fs.disk).find name).toNat ∧
      headerAt fs.disk ((directoryOf fs.disk).find name).toNat = file.hdr := by
  simp only [FileSystem.openFile, h.mounted.fetchDirectory, bind, Except.bind] at hok
  split at hok
  · rename_i hs
    rcases h.find_cases name with hn | ⟨i, e, -, -, -, hm, hf, hr⟩
    · rw [hn] at hs
      exact absurd hs (by decide)
    · rw [hf, OpenFile.new, FileHeader.fetchFrom_ok hr] at hok
      cases hok
      exact ⟨rfl, e, hm, by rw [hf], by rw [hf]; rfl⟩
  · cases hok

end

theorem init_inv {σ : Session} (h : σ.Init) : σ.Inv := by
  obtain ⟨⟨disk, g, g1, g2, hnw⟩, hn⟩ := h
  obtain ⟨fs, hf, hin, hem⟩ := FileSystem.format_ok disk g
  obtain ⟨_, hf', hnw⟩ := bind_eq_ok.mp hnw
  cases hf.symm.trans hf'
  obtain ⟨⟨r1, fs1⟩, hc1, hnw⟩ := bind_eq_ok.mp hnw
  obtain ⟨⟨r2, fs2⟩, hc2, hnw⟩ := bind_eq_ok.mp hnw
  cases hnw
  have hs : Sized fs.disk := by
    intro e he
    rw [hem] at he
    cases he
  obtain ⟨hi1, hs1, -⟩ := create_keeps hin (by decide) hc1
  obtain ⟨hi2, hs2, -⟩ := create_keeps hi1 (by decide) hc2
  exact ⟨hi2, hs2 (hs1 hs), fun i x hx => by rw [hn] at hx; cases hx⟩

section

variable {σ σ' : Session} (h : σ.Inv)
include h

/-- A call in range returns, and changes only sectors that the handle's header lists. -/
theorem Inv.call_ok (hx : σ.handles i = some x) (g : Nat → Byte) (hop : op.InRange x.file.seekPosition.toNat) :
    ∃ a file d, x.file.call σ.fs.disk g op = .ok (a, file, d) ∧ file.hdr = x.file.hdr ∧ 0 ≤ file.seekPosition.toInt ∧
      ∀ s, d s ≠ σ.fs.disk s → s ∈ x.file.hdr.listed := by
  obtain ⟨n, hl⟩ := (h.handles i x hx).filed
  have hl' : x.file.Laid x.file.hdr.listed n := hl.same_header rfl
  obtain ⟨file, d, hok, hh, hp, -, ho⟩ := hl'.call σ.fs.disk (h.handles i x hx).position g (FileOp.InRange.served hop)
  exact ⟨_, file, d, hok, hh, hp, fun s hs => by_contra fun hn => hs (ho s hn)⟩

/-- The sectors of a file that is there are those of its header on the disk. -/
theorem Inv.call_only (hx : σ.handles i = some x) (hl : x.removed = false)
    (ho : ∀ s, d s ≠ σ.fs.disk s → s ∈ x.file.hdr.listed) :
    ∃ e ∈ (directoryOf σ.fs.disk).inUse, e.sector.toNat = x.sector ∧
      ∀ s, d s ≠ σ.fs.disk s → s ∈ (headerAt σ.fs.disk e.sector.toNat).listed := by
  obtain ⟨e, he, hsc, hh⟩ := (h.handles i x hx).known hl
  exact ⟨e, he, hsc, fun s hs => by rw [hsc, hh]; exact ho s hs⟩

/-- A call through a handle, if nothing is written to a removed file, keeps the directory and
    every header. -/
theorem Inv.call_keeps (hx : σ.handles i = some x) {g : Nat → Byte} (hop : op.writes = true → x.removed = false)
    (hok : x.file.call σ.fs.disk g op = .ok (a, file, d)) (ho : ∀ s, d s ≠ σ.fs.disk s → s ∈ x.file.hdr.listed) :
    FileSystem.Inv { σ.fs with disk := d } ∧ directoryOf d = directoryOf σ.fs.disk ∧
      ∀ e ∈ (directoryOf σ.fs.disk).inUse, headerAt d e.sector.toNat = headerAt σ.fs.disk e.sector.toNat := by
  cases hw : op.writes with
  | false =>
    rw [OpenFile.call_reads hok hw]
    exact ⟨h.fs, rfl, fun _ _ => rfl⟩
  | true =>
    obtain ⟨e, he, -, honly⟩ := h.call_only hx (hop hw) ho
    have his := h.fs.isolated he honly
    exact ⟨h.fs.written he honly, his.directory, his.headers.2.2⟩

omit h in
theorem update_cases {handles : Nat → Option Handle} {j : Nat} {v : Option Handle}
    (hx : Function.update handles i v j = some x) : (j = i ∧ v = some x) ∨ handles j = some x := by
  by_cases hj : j = i
  · subst hj
    rw [Function.update_self] at hx
    exact .inl ⟨rfl, hx⟩
  · rw [Function.update_of_ne hj] at hx
    exact .inr hx

theorem step_inv {op : Op} (hop : σ.WritesToFile op) (hst : σ.step op = .ok σ') : σ'.Inv := by
  cases op with
  | create g name initialSize =>
    obtain ⟨⟨r, fs⟩, hcr, heq⟩ := bind_eq_ok.mp hst
    cases heq
    obtain ⟨hin, hsz, hk⟩ := create_keeps h.fs hop hcr
    exact ⟨hin, hsz h.sized, fun i x hx => (h.handles i x hx).mono fun e he _ => hk e he⟩
  | remove g name =>
    obtain ⟨⟨r, fs⟩, hrm, heq⟩ := bind_eq_ok.mp hst
    cases heq
    obtain ⟨hin, hsz, hk⟩ := remove_keeps h.fs hrm
    refine ⟨hin, hsz h.sized, fun i x hx => ?_⟩
    cases r with
    | false => exact (h.handles i x hx).mono fun e he _ => hk e he (by intro hr; cases hr)
    | true =>
      obtain ⟨y, hy, rfl⟩ := Option.map_eq_some_iff.mp (show (σ.handles i).map _ = some x from hx)
      have hs := h.handles i y hy
      split
      · exact ⟨hs.filed, hs.position, by intro hl; cases hl⟩
      · -- it is not a handle of the file that is gone
        rename_i hne
        exact hs.mono fun e he hsc => hk e he fun _ heq => hne (by rw [← hsc, heq])
  | openFile g name i =>
    obtain ⟨file, ho, heq⟩ := bind_eq_ok.mp hst
    cases heq
    refine ⟨h.fs, h.sized, fun j x hx => ?_⟩
    rcases update_cases hx with ⟨rfl, hn⟩ | hx
    · obtain ⟨file', rfl, rfl⟩ := Option.map_eq_some_iff.mp hn
      obtain ⟨hq, e, he, hs, hhdr⟩ := openFile_found h.fs ho
      exact ⟨hhdr ▸ hs ▸ h.sized e he, by rw [hq]; decide, fun _ => ⟨e, he, hs, hhdr⟩⟩
    · exact h.handles j x hx
  | file i g op =>
    cases hx : σ.handles i with
    | none =>
      rw [step, hx] at hst
      cases hst
    | some x =>
      rw [step, hx] at hst
      obtain ⟨hrg, hwr⟩ := hop x hx
      obtain ⟨a, file, d, hc, hf, hq, ho⟩ := h.call_ok hx g hrg
      simp only [hc, bind, Except.bind] at hst
      cases hst
      obtain ⟨hin, hd, hhd⟩ := h.call_keeps hx hwr hc ho
      have hk : ∀ j y, σ.handles j = some y → Sound y d := fun j y hy =>
        (h.handles j y hy).mono fun e he _ => ⟨hd ▸ he, hhd e he⟩
      refine ⟨hin, ?_, fun j y hy => ?_⟩
      · intro e he
        have he' : e ∈ (directoryOf σ.fs.disk).inUse := hd ▸ he
        rw [show headerAt d e.sector.toNat = _ from hhd e he']
        exact h.sized e he'
      · rcases update_cases hy with ⟨rfl, hn⟩ | hy
        · cases hn
          have hs := hk j x hx
          exact ⟨hf ▸ hs.filed, hq, by rw [hf]; exact hs.known⟩
        · exact hk j y hy
  | close i =>
    cases hst
    refine ⟨h.fs, h.sized, fun j x hx => ?_⟩
    rcases update_cases hx with ⟨rfl, hn⟩ | hx
    · cases hn
    · exact h.handles j x hx

end

/-- In every run on a formatted disk in which nothing is written through a handle of a removed
    file, no file is too large and all transfers are in range, a write through a handle returns and
    changes only data sectors of the file it was opened on, which is still there: the free map,
    the directory, every header and the other files stay. -/
theorem writes_isolated {σ : Session} (hreach : Lib.Reach step WritesToFile Init σ) {i : Nat} {g : Nat → Byte} {op : FileOp}
    (hw : op.writes = true) (hop : σ.WritesToFile (.file i g op)) {x : Handle} (hx : σ.handles i = some x) :
    ∃ σ', σ.step (.file i g op) = .ok σ' ∧ Isolated σ.fs.disk σ'.fs.disk x.sector := by
  have h : σ.Inv := hreach.inv (fun _ => init_inv) fun _ _ _ hinv hop hs => step_inv hinv hop hs
  obtain ⟨hrange, hlive⟩ := hop x hx
  obtain ⟨a, file, d, hcall, -, -, hlisted⟩ := h.call_ok hx g hrange
  obtain ⟨e, he, hsector, honly⟩ := h.call_only hx (hlive hw) hlisted
  refine ⟨⟨{ σ.fs with disk := d }, Function.update σ.handles i (some { x with file })⟩, ?_, hsector ▸ h.fs.isolated he honly⟩
  rw [step, hx]
  simp only [hcall, bind, Except.bind]
  rfl

/-! ## A handle that is kept -/

def Op.onSystem : Op → Bool
  | .create _ _ initialSize => initialSize.toNat ≤ maxFileSize
  | .file _ _ _ => false
  | _ => true

theorem Op.writesToFile (σ : Session) {op : Op} (h : op.onSystem = true) : σ.WritesToFile op := by
  cases op with
  | create g name initialSize =>
    have hs : initialSize.toNat ≤ maxFileSize := of_decide_eq_true h
    exact hs
  | file i g op => cases h
  | _ => trivial

/-- What a run from a formatted disk shows, if no call on an open file is among its steps. -/
theorem exists_session (ops : List Op) (test : Session → Bool)
    (h : (FileSystem.new FileSystem.blankDisk ones ones ones).toOption.any
      (fun fs => (runWhen step (fun _ op => op.onSystem) ⟨fs, fun _ => none⟩ ops).any test) = true) :
    ∃ σ, Reach step WritesToFile Init σ ∧ test σ = true := by
  obtain ⟨fs, hn, hrn⟩ := exists_ok _ h
  have hin : Init ⟨fs, fun _ => none⟩ := ⟨⟨_, _, _, _, hn⟩, fun _ => rfl⟩
  obtain ⟨σ, hr, ht⟩ := exists_reach step (fun _ op => op.onSystem) ops test hin hrn
  exact ⟨σ, hr.mono fun σ _ hop => Op.writesToFile σ hop, ht⟩

/-- A write through the handle of a file that is there. -/
theorem write_isolated : ∃ (σ σ' : Session) (x : Handle),
    σ.step (.file 0 (fun _ => 1) (.write [65] 1)) = .ok σ' ∧ σ.handles 0 = some x ∧
    Isolated σ.fs.disk σ'.fs.disk x.sector := by
  obtain ⟨σ, hreach, htest⟩ := exists_session [.create ones [97] 10, .openFile ones [97] 0]
    (fun σ => (σ.handles 0).any fun x => !x.removed && x.file.seekPosition == 0) (by decide +kernel)
  obtain ⟨x, hx, hlive⟩ := (Option.any_eq_true _ _).mp htest
  simp only [Bool.and_eq_true, Bool.not_eq_true', beq_iff_eq] at hlive
  have hwrites : σ.WritesToFile (.file 0 (fun _ => 1) (.write [65] 1)) := by
    intro y hy
    cases hx.symm.trans hy
    rw [hlive.2]
    exact ⟨by decide, fun _ => hlive.1⟩
  obtain ⟨σ', hstep, hiso⟩ := writes_isolated hreach rfl hwrites hx
  exact ⟨σ, σ', x, hstep, hx, hiso⟩

/-- The header of a file in a sector that a removed file had: it is overwritten. -/
theorem stale_handle_overwrites : ∃ σ σ' : Session, Lib.Reach step WritesToFile Init σ ∧
    σ.step (.file 0 (fun _ => 1) (.write [65] 1)) = .ok σ' ∧
    ∃ e ∈ (directoryOf σ.fs.disk).inUse, headerAt σ'.fs.disk e.sector.toNat ≠ headerAt σ.fs.disk e.sector.toNat := by
  obtain ⟨σ, hreach, htest⟩ := exists_session [.create ones [97] 10, .openFile ones [97] 0,
      .remove ones [97], .create ones [98] 0, .create ones [99] 10]
    (fun σ => (σ.step (.file 0 (fun _ => 1) (.write [65] 1))).toOption.any fun σ' =>
      (directoryOf σ.fs.disk).inUse.any fun e => headerAt σ'.fs.disk e.sector.toNat ≠ headerAt σ.fs.disk e.sector.toNat)
    (by decide +kernel)
  obtain ⟨σ', hstep, hchanged⟩ := exists_ok _ htest
  obtain ⟨e, he, hne⟩ := List.any_eq_true.mp hchanged
  exact ⟨σ, σ', hreach, hstep, e, he, of_decide_eq_true hne⟩

end Session

end Nachos.OnDisk

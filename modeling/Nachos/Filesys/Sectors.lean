/-
  Nachos.Filesys.Sectors — the free map accounts for every sector of the disk.

  `used` lists the sectors that the headers of the free map and the directory, the entries in
  use and the headers they name take up, all read off the disk. A successful `Create` adds a
  header and its data sectors to the list, a successful `Remove` takes them away, both up to
  order, and the bits of the map follow.
-/

import Mathlib.Data.List.Basic
import Nachos.Filesys.FileSystem

namespace Nachos.OnDisk

open Lib List
open Function (update update_of_ne update_self)

/-! ## What the disk says -/

def headerAt (d : Disk) (s : Nat) : FileHeader := .ofSector (d s)

/-- The bytes of a file. -/
def contents (d : Disk) (hdr : FileHeader) : List Byte := (hdr.listed.flatMap fun s => (d s).bytes).take hdr.numBytes.toNat

/-- The free map in the file whose header is in sector 0. -/
def mapOf (d : Disk) : BitMap := .ofBytes numSectors (contents d (headerAt d 0))

/-- The directory in the file whose header is in sector 1. -/
def directoryOf (d : Disk) : Directory := .ofBytes numDirEntries (contents d (headerAt d 1))

/-- The sectors of a file: its header's and those the header lists. -/
def fileSectors (d : Disk) (e : DirectoryEntry) : List Nat := e.sector.toNat :: (headerAt d e.sector.toNat).listed

/-- All sectors that are taken. -/
def used (d : Disk) : List Nat :=
  0 :: 1 :: ((headerAt d 0).listed ++ (headerAt d 1).listed ++ (directoryOf d).inUse.flatMap (fileSectors d))

/-- The sectors listed for a file are all its data sectors. -/
def Whole (d : Disk) : Prop :=
  ∀ e ∈ (directoryOf d).inUse, (headerAt d e.sector.toNat).listed.length = (headerAt d e.sector.toNat).numSectors.toInt.toNat

structure Accounted (d : Disk) : Prop where
  marks : ∀ s < numSectors, (mapOf d).bit s = true ↔ s ∈ used d
  distinct : (used d).Nodup
  inRange : ∀ s ∈ used d, s < numSectors
  whole : Whole d

variable {d : Disk}

/-- The clear sectors and those in use are all there are. -/
theorem Accounted.numClear (ha : Accounted d) : (mapOf d).numClear + (used d).length = numSectors := by
  have hu : ((range numSectors).filter (mapOf d).bit).Perm (used d) := by
    refine (perm_ext_iff_of_nodup (nodup_range.filter _) ha.distinct).mpr fun s => ?_
    rw [mem_filter, mem_range]
    exact ⟨fun h => (ha.marks s h.1).mp h.2, fun h => ⟨ha.inRange s h, (ha.marks s (ha.inRange s h)).mpr h⟩⟩
  have hl := length_eq_countP_add_countP (mapOf d).bit (l := range numSectors)
  rw [length_range, countP_eq_length_filter, hu.length_eq] at hl
  have hc : (mapOf d).numClear = (range numSectors).countP fun s => ¬ (mapOf d).bit s := countP_congr fun s _ => by simp
  rw [hl, Nat.add_comm, hc]

theorem Accounted.extend {d' : Disk} (ha : Accounted d) {new : List Nat} (hn : new.Nodup)
    (hc : ∀ s ∈ new, s < numSectors ∧ (mapOf d).bit s = false) (hu : (used d').Perm (new ++ used d))
    (hbt : ∀ s < numSectors, (mapOf d').bit s = ((mapOf d).bit s || new.contains s)) (hw : Whole d') : Accounted d' := by
  refine ⟨?_, ?_, ?_, hw⟩
  · intro s hs
    rw [hbt s hs, Bool.or_eq_true, ha.marks s hs, hu.mem_iff, mem_append, contains_iff_mem, or_comm]
  · rw [hu.nodup_iff, nodup_append]
    refine ⟨hn, ha.distinct, ?_⟩
    rintro s hs t ht rfl
    obtain ⟨hlt, hb⟩ := hc s hs
    rw [(ha.marks s hlt).mpr ht] at hb
    cases hb
  · intro s hs
    rcases mem_append.mp (hu.mem_iff.mp hs) with h | h
    · exact (hc s h).1
    · exact ha.inRange s h

theorem Accounted.shrink {d' : Disk} (ha : Accounted d) {old : List Nat} (hu : (used d).Perm (old ++ used d'))
    (hb : ∀ s < numSectors, (mapOf d').bit s = ((mapOf d).bit s && !old.contains s)) (hw : Whole d') : Accounted d' := by
  obtain ⟨-, hds, hap⟩ := nodup_append.mp (hu.nodup_iff.mp ha.distinct)
  refine ⟨?_, hds, fun s hs => ha.inRange s (hu.mem_iff.mpr (mem_append_right _ hs)), hw⟩
  intro s hs
  rw [hb s hs, Bool.and_eq_true, ha.marks s hs, hu.mem_iff, mem_append, Bool.not_eq_true', ← Bool.not_eq_true,
    contains_iff_mem]
  constructor
  · rintro ⟨h | h, hn⟩
    · exact absurd h hn
    · exact h
  · exact fun h => ⟨.inr h, fun hold => hap s hold s h rfl⟩

/-! ## Runs -/

inductive Call where
  | create (g : Garbage) (name : List Byte) (initialSize : Word)
  | remove (g : Garbage) (name : List Byte)

/-- Sizes between 0 and MaxFileSize. -/
def Call.Sized : Call → Prop
  | .create _ _ initialSize => initialSize.toNat ≤ maxFileSize
  | .remove _ _ => True

namespace FileSystem

def call (fs : FileSystem) : Call → Except Stop (Bool × FileSystem)
  | .create g name initialSize => fs.create g name initialSize
  | .remove g name => fs.remove g name

def step (fs : FileSystem) (c : Call) : Except Stop FileSystem := do
  let (_, fs) ← fs.call c
  return fs

/-- A formatted disk. -/
def Init (fs : FileSystem) : Prop := ∃ disk g g₁ g₂, FileSystem.new disk g g₁ g₂ = .ok fs

/-- The open files of the free map and the directory are as on the disk: one sector each. -/
structure Mounted (fs : FileSystem) : Prop where
  mapHdr : headerAt fs.disk 0 = fs.freeMapFile.hdr
  dirHdr : headerAt fs.disk 1 = fs.directoryFile.hdr
  mapFile : fs.freeMapFile.OneSector 2 128
  dirFile : fs.directoryFile.OneSector 3 200
  mapListed : fs.freeMapFile.hdr.listed = [2]
  dirListed : fs.directoryFile.hdr.listed = [3]

section

variable {fs : FileSystem} (h : fs.Mounted)
include h

theorem Mounted.mapOf : mapOf fs.disk = .ofBytes numSectors (fs.disk 2).bytes := by
  have hl : fs.freeMapFile.hdr.numBytes.toNat = divRoundUp numSectors bitsInWord * word.size := by
    rw [h.mapFile.length]; rfl
  rw [OnDisk.mapOf, contents, h.mapHdr, h.mapListed, hl, flatMap_singleton, BitMap.ofBytes, BitMap.ofBytes,
    BitMap.mk.injEq]
  exact ⟨rfl, word.list_take ..⟩

theorem Mounted.directoryOf : directoryOf fs.disk = .ofBytes numDirEntries (fs.disk 3).bytes := by
  have hl : fs.directoryFile.hdr.numBytes.toNat = numDirEntries * DirectoryEntry.layout.size := by
    rw [h.dirFile.length]; rfl
  rw [OnDisk.directoryOf, contents, h.dirHdr, h.dirListed, hl, flatMap_singleton, Directory.ofBytes, Directory.ofBytes,
    DirectoryEntry.layout.list_take]

theorem Mounted.used : used fs.disk = [0, 1, 2, 3] ++ (OnDisk.directoryOf fs.disk).inUse.flatMap (fileSectors fs.disk) := by
  rw [OnDisk.used, h.mapHdr, h.dirHdr, h.mapListed, h.dirListed]
  rfl

theorem Mounted.frame (h0 : d 0 = fs.disk 0) (h1 : d 1 = fs.disk 1) : Mounted { fs with disk := d } :=
  ⟨(congrArg FileHeader.ofSector h0).trans h.mapHdr, (congrArg FileHeader.ofSector h1).trans h.dirHdr, h.mapFile, h.dirFile,
    h.mapListed, h.dirListed⟩

theorem Mounted.fetchDirectory (g : Nat → Byte) :
    (Directory.new numDirEntries g).fetchFrom fs.directoryFile fs.disk = .ok (OnDisk.directoryOf fs.disk) := by
  have hl := Directory.length_new numDirEntries g
  have hf : fs.directoryFile.OneSector 3 ((Directory.new numDirEntries g).table.length * 20) := by
    rw [hl]; exact h.dirFile
  rw [Directory.fetchFrom_ok hf, hl, h.directoryOf]

theorem Mounted.fetchMap (words : Nat → Word) :
    (BitMap.new numSectors words).fetchFrom fs.freeMapFile fs.disk = .ok (OnDisk.mapOf fs.disk) := by
  have hb := BitMap.numBits_new numSectors words
  have hl : (BitMap.new numSectors words).map.length = 32 := by rw [BitMap.words, hb]; rfl
  have hf : fs.freeMapFile.OneSector 2 ((BitMap.new numSectors words).map.length * 4) := by
    rw [hl]; exact h.mapFile
  rw [BitMap.fetchFrom_ok hf, hb, h.mapOf]

theorem Mounted.writeMap {b : BitMap} (hb : b.numBits = numSectors) (d : Disk) (g : Nat → Byte) :
    ∃ sec, b.writeBack fs.freeMapFile d g = .ok (update d 2 sec) ∧ BitMap.ofBytes numSectors sec.bytes = b := by
  have hl : b.map.length = 32 := by rw [b.words, hb]; rfl
  have hf : fs.freeMapFile.OneSector 2 (b.map.length * 4) := by rw [hl]; exact h.mapFile
  have hw := BitMap.writeBack_ok hf d g
  rwa [hb] at hw

theorem Mounted.writeDirectory {dir : Directory} (hdi : dir.table.length = numDirEntries) (d : Disk) (g : Nat → Byte) :
    ∃ sec, dir.writeBack fs.directoryFile d g = .ok (update d 3 sec) ∧
      Directory.ofBytes numDirEntries sec.bytes = dir := by
  have hf : fs.directoryFile.OneSector 3 (dir.table.length * 20) := by rw [hdi]; exact h.dirFile
  have hw := Directory.writeBack_ok hf d g
  rwa [hdi] at hw

/-! ## Files that stay -/

/-- The header of a file is in none of the sectors of the system. -/
theorem Mounted.sector_ne (ha : Accounted fs.disk) {e : DirectoryEntry} (he : e ∈ (OnDisk.directoryOf fs.disk).inUse) :
    e.sector.toNat ∈ OnDisk.used fs.disk ∧ e.sector.toNat ≠ 2 ∧ e.sector.toNat ≠ 3 := by
  have hm : e.sector.toNat ∈ (OnDisk.directoryOf fs.disk).inUse.flatMap (fileSectors fs.disk) :=
    mem_flatMap.mpr ⟨e, he, mem_cons_self⟩
  have hn := ha.distinct
  rw [h.used] at hn ⊢
  simp only [cons_append, nil_append, nodup_cons, mem_cons, not_or] at hn
  refine ⟨by simp [hm], ?_, ?_⟩
  · intro e2; exact hn.2.2.1.2 (e2 ▸ hm)
  · intro e3; exact hn.2.2.2.1 (e3 ▸ hm)

/-- A write to the map, the directory or a free sector changes no header of a file. -/
theorem Mounted.header_frame (ha : Accounted fs.disk)
    (hd : ∀ s ∈ OnDisk.used fs.disk, s ≠ 2 → s ≠ 3 → d s = fs.disk s) {e : DirectoryEntry}
    (he : e ∈ (OnDisk.directoryOf fs.disk).inUse) : headerAt d e.sector.toNat = headerAt fs.disk e.sector.toNat := by
  obtain ⟨hu, h2, h3⟩ := h.sector_ne ha he
  rw [headerAt, headerAt, hd _ hu h2 h3]

theorem Mounted.files_frame (ha : Accounted fs.disk)
    (hd : ∀ s ∈ OnDisk.used fs.disk, s ≠ 2 → s ≠ 3 → d s = fs.disk s) {es : List DirectoryEntry}
    (hes : ∀ e ∈ es, e ∈ (OnDisk.directoryOf fs.disk).inUse) : es.flatMap (fileSectors d) = es.flatMap (fileSectors fs.disk) := by
  refine flatMap_congr fun e he => ?_
  exact congrArg (fun hdr : FileHeader => e.sector.toNat :: hdr.listed) (h.header_frame ha hd (hes e he))

end

/-! ## Create -/

structure Inv (fs : FileSystem) : Prop where
  mounted : fs.Mounted
  accounted : Accounted fs.disk

variable {s : Nat} {c : Call} {freeMap : BitMap}

section

variable {fs : FileSystem}

theorem Inv.clear_not_used (h : fs.Inv) (hs : s ∈ (mapOf fs.disk).clearBits) : s ∉ used fs.disk := by
  intro hm
  obtain ⟨hlt, hb⟩ := ((mapOf fs.disk).mem_clearBits s).mp hs
  rw [(h.accounted.marks s hlt).mpr hm] at hb
  cases hb

theorem Inv.system_used (h : fs.Inv) (hs : s < 4) : s ∈ used fs.disk := by
  rw [h.mounted.used]
  exact mem_append_left _ (by simp only [mem_cons]; omega)

/-- The disk after a file has been added: its header in the first clear sector `p`, its data in
    the next ones, and the new directory and map. -/
structure Added (fs : FileSystem) (d : Disk) (p : Nat) (r : List Nat) (hdr : FileHeader) (e : DirectoryEntry) : Prop where
  clear : (mapOf fs.disk).clearBits = p :: r
  header : d p = hdr.toSector
  frame : ∀ s, s ≠ p → s ≠ 2 → s ≠ 3 → d s = fs.disk s
  sector : e.sector = BitVec.ofNat 32 p
  entries : (Directory.ofBytes numDirEntries (d 3).bytes).inUse.Perm (e :: (directoryOf fs.disk).inUse)
  sectors : hdr.numSectors = FileHeader.sectorsFor hdr.numBytes
  listed : hdr.listed = r.take hdr.numSectors.toInt.toNat
  enough : hdr.numSectors.toInt.toNat ≤ r.length
  bits : ∀ s, (BitMap.ofBytes numSectors (d 2).bytes).bit s = ((mapOf fs.disk).bit s || (p :: hdr.listed).contains s)

section

variable {d : Disk} {p : Nat} {r : List Nat} {hdr : FileHeader} {e : DirectoryEntry} (h : fs.Inv) (ha : fs.Added d p r hdr e)
include ha

/-- The sectors of the new file were clear. -/
theorem Added.new : ∀ s ∈ p :: hdr.listed, s < numSectors ∧ (mapOf fs.disk).bit s = false := by
  intro s hs
  refine ((mapOf fs.disk).mem_clearBits s).mp ?_
  rw [ha.clear]
  rw [ha.listed] at hs
  rcases mem_cons.mp hs with rfl | hs
  · exact mem_cons_self
  · exact mem_cons_of_mem _ (mem_of_mem_take hs)

theorem Added.sector_toNat : e.sector.toNat = p := by
  rw [ha.sector, BitVec.toNat_ofNat]
  exact Nat.mod_eq_of_lt (Nat.lt_trans (ha.new p mem_cons_self).1 (by decide))

theorem Added.header_eq : headerAt d e.sector.toNat = hdr := by
  rw [ha.sector_toNat, headerAt, ha.header, FileHeader.ofSector_toSector]

include h

/-- Sectors that are taken stay as they are, those of the map and the directory apart. -/
theorem Added.kept : ∀ s ∈ used fs.disk, s ≠ 2 → s ≠ 3 → d s = fs.disk s := by
  intro s hs h2 h3
  have hf : p ∉ used fs.disk := h.clear_not_used (ha.clear ▸ mem_cons_self)
  exact ha.frame s (fun e => hf (e ▸ hs)) h2 h3

theorem Added.mounted : Mounted { fs with disk := d } :=
  h.mounted.frame (ha.kept h 0 (h.system_used (by decide)) (by decide) (by decide))
    (ha.kept h 1 (h.system_used (by decide)) (by decide) (by decide))

theorem Added.perm : (directoryOf d).inUse.Perm (e :: (directoryOf fs.disk).inUse) := by
  have hdi : directoryOf d = .ofBytes numDirEntries (d 3).bytes := (ha.mounted h).directoryOf
  rw [hdi]
  exact ha.entries

theorem Added.inv : Inv { fs with disk := d } := by
  have hm := ha.mounted h
  have hmp : mapOf d = .ofBytes numSectors (d 2).bytes := hm.mapOf
  have hf : fileSectors d e = p :: hdr.listed := by rw [fileSectors, ha.header_eq, ha.sector_toNat]
  have hu : (used d).Perm ((p :: hdr.listed) ++ used fs.disk) := by
    have hfl : (directoryOf d).inUse.flatMap (fileSectors d) |>.Perm
        ((p :: hdr.listed) ++ (directoryOf fs.disk).inUse.flatMap (fileSectors fs.disk)) := by
      rw [← hf, ← h.mounted.files_frame h.accounted (ha.kept h) fun _ h => h]
      exact (ha.perm h).flatMap_right _
    have hud : used d = [0, 1, 2, 3] ++ (directoryOf d).inUse.flatMap (fileSectors d) := hm.used
    rw [hud, h.mounted.used]
    exact (hfl.append_left [0, 1, 2, 3]).trans (perm_append_comm_assoc ..)
  refine ⟨hm, h.accounted.extend ?_ ha.new hu (fun s _ => by rw [hmp]; exact ha.bits s) ?_⟩
  · rw [ha.listed]
    have hn := (mapOf fs.disk).clearBits_nodup
    rw [ha.clear] at hn
    exact hn.sublist ((take_sublist _ r).cons_cons p)
  · intro e' he'
    rcases mem_cons.mp ((ha.perm h).mem_iff.mp he') with rfl | hold
    · rw [ha.header_eq, ha.listed, List.length_take]
      exact Nat.min_eq_left ha.enough
    · rw [h.mounted.header_frame h.accounted (ha.kept h) hold]
      exact h.accounted.whole e' hold

end

/-- `Create` gets as far as `Allocate`: the name is new, there is a sector `p` for the header, and
    an entry for it in the directory. -/
structure Reaches (fs : FileSystem) (name : List Byte) (p : Nat) (r : List Nat) : Prop where
  fresh : (directoryOf fs.disk).find name = -1
  clear : (mapOf fs.disk).clearBits = p :: r
  entry : ((directoryOf fs.disk).add name (BitVec.ofNat 32 p)).1 = true

/-- If not, it leaves the file system alone. -/
theorem create_skips (h : fs.Inv) (g : Garbage) (name : List Byte) (initialSize : Word)
    (hs : ∀ p r, ¬ fs.Reaches name p r) : fs.create g name initialSize = .ok (false, fs) := by
  have hft := h.mounted.fetchDirectory (g.bytes 0)
  have hm := h.mounted.fetchMap g.words
  by_cases hf : (directoryOf fs.disk).find name ≠ -1
  · simp only [create, hft, bind, Except.bind, if_pos hf]
    rfl
  cases hc : (mapOf fs.disk).clearBits with
  | nil =>
    simp only [create, hft, hm, bind, Except.bind, if_neg hf, (mapOf fs.disk).find_nil hc, if_true]
    rfl
  | cons p r =>
    have hne : ¬ (p : Int) = -1 := by omega
    cases had : (directoryOf fs.disk).add name (BitVec.ofNat 32 p) with
    | mk added dir =>
      cases added with
      | true => exact absurd ⟨Decidable.not_not.mp hf, hc, by rw [had]⟩ (hs p r)
      | false =>
        simp only [create, hft, hm, bind, Except.bind, if_neg hf, (mapOf fs.disk).find_cons hc, if_neg hne,
          BitVec.ofInt_natCast, had]
        rfl

/-- If it does, it does what `Allocate` does, and adds a file if that returns TRUE. -/
theorem create_allocate (h : fs.Inv) (g : Garbage) {name : List Byte} (initialSize : Word) {p : Nat} {r : List Nat}
    (hr : fs.Reaches name p r) :
    match (FileHeader.new (g.bytes 1)).allocate ((mapOf fs.disk).markBit p) initialSize with
    | .error stop => fs.create g name initialSize = .error stop
    | .ok (false, _, _) => fs.create g name initialSize = .ok (false, fs)
    | .ok (true, hdr, _) => ∃ d e, fs.create g name initialSize = .ok (true, { fs with disk := d }) ∧ fs.Added d p r hdr e := by
  have hf := h.mounted.fetchDirectory (g.bytes 0)
  have hmp := h.mounted.fetchMap g.words
  have hc := hr.clear
  have hfn : ¬ (directoryOf fs.disk).find name ≠ -1 := Decidable.not_not.mpr hr.fresh
  have hne : ¬ (p : Int) = -1 := by omega
  have hpl : p < numSectors := ((mapOf fs.disk).mem_clearBits p |>.mp (hc ▸ mem_cons_self)).1
  have hm : ((mapOf fs.disk).markBit p).numBits = numSectors := (mapOf fs.disk).numBits_markBit p
  have hen := hr.entry
  rcases had : (directoryOf fs.disk).add name (BitVec.ofNat 32 p) with ⟨added, dir⟩
  rw [had] at hen
  obtain rfl : added = true := hen
  obtain ⟨hln, e, he, hp⟩ := Directory.add_ok had
  rcases hal : (FileHeader.new (g.bytes 1)).allocate ((mapOf fs.disk).markBit p) initialSize with
    stop | ⟨_ | _, hdr, freeMap⟩
  · simp only [create, hf, hmp, bind, Except.bind, if_neg hfn, (mapOf fs.disk).find_cons hc, if_neg hne,
      BitVec.ofInt_natCast, had, hal]
  · simp only [create, hf, hmp, bind, Except.bind, if_neg hfn, (mapOf fs.disk).find_cons hc, if_neg hne,
      BitVec.ofInt_natCast, had, hal]
    rfl
  · have ha := FileHeader.allocate_true hm hal
    have hn := ha.enough
    have hl := ha.listed
    rw [(mapOf fs.disk).clearBits_markBit hc, ← ha.sectors] at hn hl
    have hfr := h.clear_not_used (hc ▸ mem_cons_self)
    have hp2 : p ≠ 2 := fun e => hfr (e ▸ h.system_used (by decide))
    have hp3 : p ≠ 3 := fun e => hfr (e ▸ h.system_used (by decide))
    have hw : hdr.writeBack fs.disk (BitVec.ofNat 32 p) = .ok (update fs.disk p hdr.toSector) := by
      have hto : (BitVec.ofNat 32 p).toNat = p := ofNat_toNat (Nat.lt_trans hpl (by decide))
      rw [hdr.writeBack_ok _ (by rw [hto]; exact hpl), hto]
    obtain ⟨sec3, hdi, hr3⟩ := h.mounted.writeDirectory (hln.trans (DirectoryEntry.layout.length_list ..))
      (update fs.disk p hdr.toSector) (g.bytes 2)
    obtain ⟨sec2, hm2, hr2⟩ := h.mounted.writeMap (ha.bits.trans hm)
      (update (update fs.disk p hdr.toSector) 3 sec3) (g.bytes 3)
    refine ⟨update (update (update fs.disk p hdr.toSector) 3 sec3) 2 sec2, e, ?_,
      ⟨hc, ?_, ?_, he, ?_, by rw [ha.sectors, ha.bytes], hl, hn, ?_⟩⟩
    · simp only [create, hf, hmp, bind, Except.bind, if_neg hfn, (mapOf fs.disk).find_cons hc, if_neg hne,
        BitVec.ofInt_natCast, had, hal, if_true, hw, hdi, hm2]
      rfl
    · rw [update_of_ne hp2, update_of_ne hp3, update_self]
    · intro s hs h2 h3
      rw [update_of_ne h2, update_of_ne h3, update_of_ne hs]
    · rw [update_of_ne (by decide), update_self, hr3]
      exact hp
    · intro s
      rw [update_self, hr2, ha.marked, (mapOf fs.disk).bit_markBit_cons hpl]

/-- `Create` ends with `Allocate`, leaves the file system alone, or adds a file. -/
theorem create_cases (h : fs.Inv) (g : Garbage) (name : List Byte) (initialSize : Word) :
    (∃ stop freeMap, freeMap.numBits = numSectors ∧ (FileHeader.new (g.bytes 1)).allocate freeMap initialSize = .error stop ∧
      fs.create g name initialSize = .error stop) ∨
    fs.create g name initialSize = .ok (false, fs) ∨
    ∃ d p r hdr e, fs.create g name initialSize = .ok (true, { fs with disk := d }) ∧ fs.Added d p r hdr e := by
  by_cases hrc : ∃ p r, fs.Reaches name p r
  · obtain ⟨p, r, hr⟩ := hrc
    have hc := create_allocate h g initialSize hr
    split at hc
    · rename_i stop hal
      exact .inl ⟨stop, _, (mapOf fs.disk).numBits_markBit p, hal, hc⟩
    · exact .inr (.inl hc)
    · rename_i hdr _ _
      obtain ⟨d, e, hok, ha⟩ := hc
      exact .inr (.inr ⟨d, p, r, hdr, e, hok, ha⟩)
  · exact .inr (.inl (create_skips h g name initialSize fun p r hr => hrc ⟨p, r, hr⟩))

theorem create_ok (h : fs.Inv) (g : Garbage) (name : List Byte) {initialSize : Word} (hsz : initialSize.toNat ≤ maxFileSize) :
    ∃ r fs', fs.create g name initialSize = .ok (r, fs') ∧ (r = false → fs' = fs) ∧ fs'.Inv := by
  rcases create_cases h g name initialSize with ⟨stop, freeMap, hb, hs, -⟩ | hsm | ⟨d, p, r, hdr, e, hok, ha⟩
  · rcases (FileHeader.new (g.bytes 1)).allocate_ok hb hsz with ⟨-, hdr, hok⟩ | ⟨hdr, freeMap', hok, -⟩
    · cases hs.symm.trans hok
    · cases hs.symm.trans hok
  · exact ⟨false, fs, hsm, fun _ => rfl, h⟩
  · exact ⟨true, _, hok, (by intro hr; cases hr), ha.inv h⟩

/-! ## Remove -/

/-- The disk after the file of the entry `e` has been taken away. -/
structure Dropped (fs : FileSystem) (d : Disk) (e : DirectoryEntry) : Prop where
  entries : (directoryOf fs.disk).inUse.Perm (e :: (Directory.ofBytes numDirEntries (d 3).bytes).inUse)
  frame : ∀ s, s ≠ 2 → s ≠ 3 → d s = fs.disk s
  bits : ∀ s, (BitMap.ofBytes numSectors (d 2).bytes).bit s = ((mapOf fs.disk).bit s && !(fileSectors fs.disk e).contains s)

section

variable {d : Disk} {e : DirectoryEntry} (h : fs.Inv) (hd : fs.Dropped d e)
include h hd

theorem Dropped.mounted : Mounted { fs with disk := d } :=
  h.mounted.frame (hd.frame 0 (by decide) (by decide)) (hd.frame 1 (by decide) (by decide))

theorem Dropped.perm : (directoryOf fs.disk).inUse.Perm (e :: (directoryOf d).inUse) := by
  have hdi : directoryOf d = .ofBytes numDirEntries (d 3).bytes := (hd.mounted h).directoryOf
  rw [hdi]
  exact hd.entries

/-- The other files stay, with their headers. -/
theorem Dropped.header {e' : DirectoryEntry} (he' : e' ∈ (directoryOf d).inUse) :
    e' ∈ (directoryOf fs.disk).inUse ∧ headerAt d e'.sector.toNat = headerAt fs.disk e'.sector.toNat := by
  have hold : e' ∈ (directoryOf fs.disk).inUse := (hd.perm h).mem_iff.mpr (mem_cons_of_mem _ he')
  exact ⟨hold, h.mounted.header_frame h.accounted (fun s _ => hd.frame s) hold⟩

theorem Dropped.inv : Inv { fs with disk := d } := by
  have hm := hd.mounted h
  have hmp : mapOf d = .ofBytes numSectors (d 2).bytes := hm.mapOf
  have hu : (used fs.disk).Perm (fileSectors fs.disk e ++ used d) := by
    have hud : used d = [0, 1, 2, 3] ++ (directoryOf d).inUse.flatMap (fileSectors d) := hm.used
    rw [hud, h.mounted.files_frame h.accounted (fun s _ => hd.frame s) (fun _ he' => (hd.header h he').1), h.mounted.used]
    exact (((hd.perm h).flatMap_right _).append_left [0, 1, 2, 3]).trans (perm_append_comm_assoc ..)
  refine ⟨hm, h.accounted.shrink hu (fun s _ => by rw [hmp]; exact hd.bits s) ?_⟩
  intro e' he'
  rw [(hd.header h he').2]
  exact h.accounted.whole e' (hd.header h he').1

end

/-- `Find` answers -1, or the sector of a header that is in use. -/
theorem Inv.find_cases (h : fs.Inv) (name : List Byte) : (directoryOf fs.disk).find name = -1 ∨
    ∃ i e, (directoryOf fs.disk).findIndex name = some i ∧ (directoryOf fs.disk).table[i]? = some e ∧ e.used = true ∧
      e ∈ (directoryOf fs.disk).inUse ∧ (directoryOf fs.disk).find name = e.sector ∧ e.sector.toNat < numSectors := by
  rcases (directoryOf fs.disk).find_cases name with hn | ⟨i, e, hi, he, hu, hf⟩
  · exact .inl hn
  · have hm : e ∈ (directoryOf fs.disk).inUse := mem_filter.mpr ⟨mem_of_getElem? he, hu⟩
    exact .inr ⟨i, e, hi, he, hu, hm, hf, h.accounted.inRange _ (h.mounted.sector_ne h.accounted hm).1⟩

/-- `Remove` finds no such file, or takes the one it finds away. -/
theorem remove_cases (h : fs.Inv) (g : Garbage) (name : List Byte) :
    fs.remove g name = .ok (false, fs) ∨
    ∃ d e, fs.remove g name = .ok (true, { fs with disk := d }) ∧ (directoryOf fs.disk).find name = e.sector ∧ fs.Dropped d e := by
  have ha := h.accounted
  have hft := h.mounted.fetchDirectory (g.bytes 0)
  have hmp := h.mounted.fetchMap g.words
  rcases h.find_cases name with hn | ⟨i, e, hi, he, hu, hmm, hf, hr⟩
  · left
    simp only [remove, hft, bind, Except.bind, hn, if_true]
    rfl
  have hfl : ∀ s ∈ fileSectors fs.disk e, s ∈ used fs.disk := by
    intro s hs
    rw [h.mounted.used]
    exact mem_append_right _ (mem_flatMap.mpr ⟨e, hmm, hs⟩)
  have hsm : ¬ (directoryOf fs.disk).find name = -1 := by
    intro hmn
    rw [← hf, hmn] at hr
    exact absurd hr (by decide)
  obtain ⟨hl, hp⟩ := Directory.remove_ok hi he hu
  have hds : (fileSectors fs.disk e).Nodup := by
    have hal := ha.distinct
    rw [h.mounted.used, ((hp.flatMap_right (fileSectors fs.disk)).append_left [0, 1, 2, 3]).nodup_iff] at hal
    exact (nodup_append.mp (nodup_append.mp hal).2.1).1
  have hh : FileHeader.fetchFrom fs.disk e.sector = .ok (headerAt fs.disk e.sector.toNat) := FileHeader.fetchFrom_ok hr
  have hm : ∀ s ∈ (headerAt fs.disk e.sector.toNat).listed, s < (mapOf fs.disk).numBits ∧ (mapOf fs.disk).bit s = true := by
    intro s hs
    have hin := hfl s (mem_cons_of_mem _ hs)
    exact ⟨ha.inRange s hin, (ha.marks s (ha.inRange s hin)).mpr hin⟩
  obtain ⟨freeMap, hdl, hnm, hc⟩ := FileHeader.deallocate_ok (mapOf fs.disk)
    (show numSectors ≤ 2147483648 by decide) (ha.whole e hmm) hm (nodup_cons.mp hds).2
  have hsc : clearSector freeMap e.sector = .ok (freeMap.clearBit e.sector.toNat) := by
    have hint : e.sector.toInt = e.sector.toNat := toInt_toNat (Nat.lt_trans hr (by decide))
    have hin : freeMap.inRange e.sector.toNat = true := BitMap.inRange_natCast (by rw [hnm]; exact hr)
    simp only [clearSector, BitMap.clear, hint, hin, if_true, Int.toNat_natCast]
  obtain ⟨sec2, hm2, hr2⟩ := h.mounted.writeMap (b := freeMap.clearBit e.sector.toNat) hnm fs.disk (g.bytes 1)
  obtain ⟨sec3, hdi, hr3⟩ := h.mounted.writeDirectory (hl.trans (DirectoryEntry.layout.length_list ..))
    (update fs.disk 2 sec2) (g.bytes 2)
  refine .inr ⟨update (update fs.disk 2 sec2) 3 sec3, e, ?_, hf, ⟨?_, ?_, ?_⟩⟩
  · simp only [remove, hft, hmp, bind, Except.bind, if_neg hsm]
    simp only [hf, hh, hdl, hsc, hm2, hdi]
    rfl
  · rw [update_self, hr3]
    exact hp
  · intro s h2 h3
    rw [update_of_ne h3, update_of_ne h2]
  · intro s
    rw [update_of_ne (by decide), update_self, hr2, freeMap.bit_clearBit (by rw [hnm]; exact hr),
      hc, fileSectors, ← (mapOf fs.disk).bit_clearBit_cons hr, (mapOf fs.disk).bit_clearBit hr, Bool.and_assoc]

theorem remove_ok (h : fs.Inv) (g : Garbage) (name : List Byte) :
    ∃ r fs', fs.remove g name = .ok (r, fs') ∧ (r = false → fs' = fs) ∧ fs'.Inv := by
  rcases remove_cases h g name with hs | ⟨d, e, hok, -, hd⟩
  · exact ⟨false, fs, hs, fun _ => rfl, h⟩
  · exact ⟨true, _, hok, (by intro hr; cases hr), hd.inv h⟩

theorem call_ok (h : fs.Inv) (hc : c.Sized) : ∃ r fs', fs.call c = .ok (r, fs') ∧ (r = false → fs' = fs) ∧ fs'.Inv := by
  cases c with
  | create g name initialSize => exact create_ok h g name hc
  | remove g name => exact remove_ok h g name

/-! ## A formatted disk -/

theorem markSector_ok {sector : Word} (h : sector.toNat < freeMap.numBits) (hs : freeMap.numBits ≤ 2147483648) :
    markSector freeMap sector = .ok (freeMap.markBit sector.toNat) := by
  have hin : sector.toInt = sector.toNat := toInt_toNat (by omega)
  simp only [markSector, BitMap.mark, hin, BitMap.inRange_natCast h, if_true, Int.toNat_natCast]

/-- A file of at most one sector takes the first clear bit. -/
theorem allocateAll_one (hdr : FileHeader) {r : List Nat} (fileSize : Word) (hcl : freeMap.clearBits = s :: r)
    (hmp : freeMap.numBits = numSectors) (hp : 0 < fileSize.toNat) (hsz : fileSize.toNat ≤ sectorSize) :
    ∃ hdr' freeMap', allocateAll hdr freeMap fileSize = .ok (hdr', freeMap') ∧ hdr'.listed = [s] ∧
      OpenFile.OneSector ⟨hdr', 0⟩ s fileSize.toNat ∧ freeMap'.numBits = numSectors ∧ freeMap'.clearBits = r ∧
      ∀ j, freeMap'.bit j = (freeMap.bit j || [s].contains j) := by
  have ho : divRoundUp fileSize.toNat sectorSize = 1 := by
    unfold divRoundUp sectorSize at *
    split <;> omega
  have hs : s < numSectors := by
    rw [← hmp]
    exact ((freeMap.mem_clearBits s).mp (hcl ▸ mem_cons_self)).1
  have hlm : fileSize.toNat ≤ maxFileSize := Nat.le_trans hsz (by decide)
  rcases hdr.allocate_ok hmp hlm with ⟨hfw, -⟩ | ⟨hdr', freeMap', hal, -, hb, hc, hl, hn, hr, hm⟩
  · rw [ho, hcl] at hfw
    simp at hfw
  rw [ho, hcl] at hl hr
  refine ⟨hdr', freeMap', ?_, hl, ⟨?_, ?_, hp, hsz, hs⟩, hn.trans hmp, hr, ?_⟩
  · simp only [allocateAll, hal, bind, Except.bind, if_true]
    rfl
  · rw [hb, ofNat_word]
  · have hf := congrArg (·[0]?) hl
    simp only [FileHeader.listed, hc, ho, getElem?_map, take_succ_cons, getElem?_cons_zero] at hf
    obtain ⟨w, hw, hto⟩ := Option.map_eq_some_iff.mp hf
    rw [getElem?_take_of_lt (by decide)] at hw
    rw [hw, ← hto, ofNat_word]
  · intro j
    rw [hm, hl]
    rfl

/-- The bitmap of a disk that is being formatted, with the two headers marked. -/
theorem markHeaders (words : Nat → Word) : ∃ freeMap freeMap', markSector (BitMap.new numSectors words) freeMapSector = .ok freeMap ∧
    markSector freeMap directorySector = .ok freeMap' ∧ freeMap'.numBits = numSectors ∧
    freeMap'.clearBits = 2 :: 3 :: List.range' 4 1020 := by
  have hb := BitMap.numBits_new numSectors words
  have hc : (BitMap.new numSectors words).clearBits = 0 :: 1 :: 2 :: 3 :: List.range' 4 1020 := by
    rw [BitMap.clearBits_new, range_eq_range', range'_succ, range'_succ, range'_succ, range'_succ]
  have hc1 := BitMap.clearBits_markBit _ hc
  refine ⟨_, _, markSector_ok (by rw [hb]; decide) (by rw [hb]; decide),
    markSector_ok (by rw [BitMap.numBits_markBit, hb]; decide) (by rw [BitMap.numBits_markBit, hb]; decide), ?_, ?_⟩
  · rw [BitMap.numBits_markBit, BitMap.numBits_markBit, hb]
  · exact BitMap.clearBits_markBit _ hc1

theorem open_header {d : Disk} {s : Word} {hdr : FileHeader} (hs : d s.toNat = hdr.toSector) (hlt : s.toNat < numSectors) :
    OpenFile.new d s = .ok ⟨hdr, 0⟩ := by
  rw [OpenFile.new, FileHeader.fetchFrom_ok hlt, hs, FileHeader.ofSector_toSector]
  rfl

/-- A disk with an empty directory. -/
theorem Mounted.accounted_empty (h : fs.Mounted) {m : BitMap} (hdi : (Directory.ofBytes numDirEntries (fs.disk 3).bytes).inUse = [])
    (hmp : BitMap.ofBytes numSectors (fs.disk 2).bytes = m) (hbt : m.numBits = numSectors)
    (hc : m.clearBits = List.range' 4 1020) : Accounted fs.disk := by
  have hn : (OnDisk.directoryOf fs.disk).inUse = [] := by rw [h.directoryOf]; exact hdi
  have hu : OnDisk.used fs.disk = [0, 1, 2, 3] := by rw [h.used, hn]; rfl
  refine ⟨?_, by rw [hu]; decide, by rw [hu]; decide, by rw [Whole, hn]; intro e he; cases he⟩
  intro s hs
  have hif : 4 ≤ s ∧ s < 4 + 1020 ↔ s < 1024 ∧ m.bit s = false := by
    have hm := m.mem_clearBits s
    rwa [hc, hbt, mem_range'_1] at hm
  have hs' : s < 1024 := hs
  rw [hu, h.mapOf, hmp]
  simp only [mem_cons, not_mem_nil, or_false]
  cases hb : m.bit s with
  | false =>
    simp only [hb, and_true] at hif
    simp only [Bool.false_eq_true, false_iff]
    omega
  | true =>
    simp only [hb, Bool.true_eq_false, and_false, iff_false] at hif
    simp only [true_iff]
    omega

theorem format_ok (disk : Disk) (g : Garbage) : ∃ fs, format disk g = .ok fs ∧ fs.Inv ∧ (directoryOf fs.disk).inUse = [] := by
  obtain ⟨freeMap, freeMap1, hmr, hm1, hb1, hc1⟩ := markHeaders g.words
  obtain ⟨mapHdr, freeMap2, hmap, hma, hmp, hb2, hc2, -⟩ :=
    allocateAll_one (.new (g.bytes 1)) freeMapFileSize hc1 hb1 (by decide) (by decide)
  obtain ⟨dirHdr, freeMap3, hdir, hdrL, hdi, hb3, hc3, -⟩ :=
    allocateAll_one (.new (g.bytes 2)) directoryFileSize hc2 hb2 (by decide) (by decide)
  have hm' : OpenFile.OneSector ⟨mapHdr, 0⟩ 2 (freeMap3.map.length * 4) := by
    rw [freeMap3.words, hb3]; exact hmp
  have hd' : OpenFile.OneSector ⟨dirHdr, 0⟩ 3 ((Directory.new numDirEntries (g.bytes 0)).table.length * 20) := by
    rw [Directory.length_new]; exact hdi
  -- the headers, then the two files
  have hh0 : mapHdr.writeBack disk freeMapSector = .ok (update disk 0 mapHdr.toSector) := mapHdr.writeBack_ok _ (by decide)
  have hh1 : dirHdr.writeBack (update disk 0 mapHdr.toSector) directorySector =
      .ok (update (update disk 0 mapHdr.toSector) 1 dirHdr.toSector) := dirHdr.writeBack_ok _ (by decide)
  obtain ⟨headers, hh⟩ : ∃ d, d = update (update disk 0 mapHdr.toSector) 1 dirHdr.toSector := ⟨_, rfl⟩
  have hm0 : headers 0 = mapHdr.toSector := by
    rw [hh, update_of_ne (by decide), update_self]
  have hd1 : headers 1 = dirHdr.toSector := by rw [hh, update_self]
  rw [← hh] at hh1
  obtain ⟨sec2, hw2, hr2⟩ := BitMap.writeBack_ok hm' headers (g.bytes 3)
  obtain ⟨sec3, hw3, hr3⟩ := Directory.writeBack_ok hd' (update headers 2 sec2) (g.bytes 4)
  refine ⟨⟨update (update headers 2 sec2) 3 sec3, ⟨mapHdr, 0⟩, ⟨dirHdr, 0⟩⟩, ?_, ?_⟩
  · simp only [format, hmr, hm1, hmap, hdir, bind, Except.bind, hh0, hh1, open_header (s := 0) hm0 (by decide),
      open_header (s := 1) hd1 (by decide), hw2, hw3]
    rfl
  · have hm : Mounted ⟨update (update headers 2 sec2) 3 sec3, ⟨mapHdr, 0⟩, ⟨dirHdr, 0⟩⟩ := by
      refine ⟨?_, ?_, hmp, hdi, hma, hdrL⟩
      · show FileHeader.ofSector (headers 0) = mapHdr
        rw [hm0, FileHeader.ofSector_toSector]
      · show FileHeader.ofSector (headers 1) = dirHdr
        rw [hd1, FileHeader.ofSector_toSector]
    have he : (Directory.ofBytes numDirEntries (update (update headers 2 sec2) 3 sec3 3).bytes).inUse = [] := by
      rw [Directory.length_new] at hr3
      rw [update_self, hr3]
      exact Directory.inUse_new ..
    refine ⟨⟨hm, hm.accounted_empty he ?_ hb3 hc3⟩, hm.directoryOf ▸ he⟩
    · show BitMap.ofBytes numSectors (update (update headers 2 sec2) 3 sec3 2).bytes = freeMap3
      rw [hb3] at hr2
      rw [update_of_ne (by decide), update_self, hr2]

theorem new_ok (disk : Disk) (g g1 g2 : Garbage) : ∃ fs, FileSystem.new disk g g1 g2 = .ok fs ∧ fs.Inv := by
  obtain ⟨fs, hfs, h, -⟩ := format_ok disk g
  have hz : (0 : Word).toNat ≤ maxFileSize := by decide
  obtain ⟨r1, fs1, hc1, -, h1⟩ := create_ok h g1 Stub.FileSystem.stdinName hz
  obtain ⟨r2, fs2, hc2, -, h2⟩ := create_ok h1 g2 Stub.FileSystem.stdoutName hz
  refine ⟨fs2, ?_, h2⟩
  simp only [FileSystem.new, hfs, bind, Except.bind, hc1, hc2]
  rfl

/-! ## Every run -/

theorem init_inv (h : fs.Init) : fs.Inv := by
  obtain ⟨disk, g, g1, g2, hn⟩ := h
  obtain ⟨fs', hn', h'⟩ := new_ok disk g g1 g2
  cases hn.symm.trans hn'
  exact h'

theorem step_inv {fs' : FileSystem} (h : fs.Inv) (hc : c.Sized) (hs : fs.step c = .ok fs') : fs'.Inv := by
  obtain ⟨r, fs1, hcl, -, h1⟩ := call_ok h hc
  rw [step, hcl] at hs
  cases hs
  exact h1

theorem reach_inv (h : Lib.Reach step (fun _ c => c.Sized) Init fs) : fs.Inv :=
  h.inv (fun _ => init_inv) fun _ _ _ hinv hok hs => step_inv hinv hok hs

/-- In every run of Create and Remove on a formatted disk, the free map marks exactly the
    sectors in use, each of which is used once; every call returns, and one that returns FALSE
    has not changed the disk. -/
theorem sectors_accounted : (∀ disk g g₁ g₂, ∃ fs, FileSystem.new disk g g₁ g₂ = .ok fs) ∧
    ∀ fs, Lib.Reach step (fun _ c => c.Sized) Init fs →
      Accounted fs.disk ∧ ∀ c : Call, c.Sized → ∃ r fs', fs.call c = .ok (r, fs') ∧ (r = false → fs'.disk = fs.disk) := by
  refine ⟨fun disk g g₁ g₂ => ?_, fun fs hreach => ?_⟩
  · obtain ⟨fs, hnew, -⟩ := new_ok disk g g₁ g₂
    exact ⟨fs, hnew⟩
  · have h := reach_inv hreach
    refine ⟨h.accounted, fun c hc => ?_⟩
    obtain ⟨r, fs', hcall, hfalse, -⟩ := call_ok h hc
    exact ⟨r, fs', hcall, fun hr => by rw [hfalse hr]⟩

/-- An unformatted disk, and memory full of ones. -/
def blankDisk : Disk := fun _ => .garbage fun _ => 0

def ones : Garbage := ⟨fun _ => 1, fun _ _ => 1⟩

/-- A file of 1000 bytes is created and removed again. -/
theorem created_and_removed : ∃ fs fs₁ fs₂ r₁ r₂, FileSystem.new blankDisk ones ones ones = .ok fs ∧
    fs.create ones [97] 1000 = .ok (r₁, fs₁) ∧ fs₁.remove ones [97] = .ok (r₂, fs₂) ∧
    Reach step (fun _ c => c.Sized) Init fs₂ := by
  obtain ⟨fs, hnew, -⟩ := new_ok blankDisk ones ones ones
  have hreach : Reach step (fun _ c => c.Sized) Init fs := .init ⟨_, _, _, _, hnew⟩
  have hsized : (Call.create ones [97] 1000).Sized := by unfold Call.Sized; decide
  obtain ⟨r₁, fs₁, hcreate, -⟩ := call_ok (reach_inv hreach) hsized
  have hreach₁ : Reach step (fun _ c => c.Sized) Init fs₁ := .step _ hreach hsized (by rw [step, hcreate]; rfl)
  obtain ⟨r₂, fs₂, hremove, -⟩ := call_ok (reach_inv hreach₁) (c := .remove ones [97]) trivial
  exact ⟨fs, fs₁, fs₂, r₁, r₂, hnew, hcreate, hremove, .step (.remove ones [97]) hreach₁ trivial (by rw [step, hremove]; rfl)⟩

theorem sectors_accounted_after_remove : ∃ fs fs₁ fs₂ r₁ r₂, FileSystem.new blankDisk ones ones ones = .ok fs ∧
    fs.create ones [97] 1000 = .ok (r₁, fs₁) ∧ fs₁.remove ones [97] = .ok (r₂, fs₂) ∧ Accounted fs₂.disk := by
  obtain ⟨fs, fs₁, fs₂, r₁, r₂, hnew, hcreate, hremove, hreach⟩ := created_and_removed
  exact ⟨fs, fs₁, fs₂, r₁, r₂, hnew, hcreate, hremove, (sectors_accounted.2 fs₂ hreach).1⟩

/-- No run leaks a sector: `NumClear`, which `Allocate` tests, is what the files have left. -/
theorem numClear_exact (h : Lib.Reach step (fun _ c => c.Sized) Init fs) :
    (mapOf fs.disk).numClear + (used fs.disk).length = numSectors :=
  (reach_inv h).accounted.numClear

theorem numClear_exact_after_remove : ∃ fs fs₁ fs₂ r₁ r₂, FileSystem.new blankDisk ones ones ones = .ok fs ∧
    fs.create ones [97] 1000 = .ok (r₁, fs₁) ∧ fs₁.remove ones [97] = .ok (r₂, fs₂) ∧
    (mapOf fs₂.disk).numClear + (used fs₂.disk).length = numSectors := by
  obtain ⟨fs, fs₁, fs₂, r₁, r₂, hnew, hcreate, hremove, hreach⟩ := created_and_removed
  exact ⟨fs, fs₁, fs₂, r₁, r₂, hnew, hcreate, hremove, numClear_exact hreach⟩

end

end FileSystem

end Nachos.OnDisk

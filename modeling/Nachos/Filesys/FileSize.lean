/-
  Nachos.Filesys.FileSize — which sizes a file may have.

  A header has room for NumDirect sector numbers. `Allocate` compares the number of sectors with
  the free space, and with nothing else: where there is space for a larger file it writes past
  the table, and a size of -512 or less gives a negative number of sectors.
  - `allocate_laid_iff`: for every map and size, `Allocate` fails and takes nothing, or lays the
    file out in new sectors, exactly if the size is in order or there is not enough space.
-/

import Nachos.Filesys.Sectors

namespace Nachos

open List

/-! ## Numbers of sectors -/

/-- The sectors that so many bytes need; a negative number of bytes needs none. -/
def sectorsNeeded (fileSize : Word) : Nat := divRoundUp fileSize.toInt.toNat sectorSize

/-- Either there are not enough clear sectors, or the header has room for the file. -/
def SizeOk (clear : Nat) (fileSize : Word) : Prop :=
  clear < sectorsNeeded fileSize ∨ sectorsNeeded fileSize ≤ numDirect ∧ -512 < fileSize.toInt

namespace FileHeader

open OnDisk.OpenFile (toInt_sdiv_negative toInt_of_nonneg sdiv_sector)

section

variable {fileSize : Word}

theorem sectorsNeeded_of_neg (h : fileSize.toInt ≤ 0) : sectorsNeeded fileSize = 0 := by
  rw [sectorsNeeded, Int.toNat_of_nonpos h]
  rfl

/-- For a negative size nothing is added to the quotient. -/
theorem sectorsFor_neg (h : fileSize.toInt < 0) : (sectorsFor fileSize).toInt = -(-fileSize.toInt / 512) := by
  have hrm : BitVec.slt 0 (fileSize.srem 512) = false := by
    have hs : 0 ≤ (-fileSize.toInt).tmod 512 := Int.tmod_nonneg 512 (by omega)
    rw [Int.neg_tmod] at hs
    rw [Bool.eq_false_iff, ne_eq, BitVec.slt_iff_toInt_lt, BitVec.toInt_srem]
    show ¬ 0 < fileSize.toInt.tmod 512
    omega
  rw [sectorsFor, hrm, ← toInt_sdiv_negative h]
  exact congrArg BitVec.toInt (BitVec.add_zero _)

/-- `divRoundUp` is right for sizes above -512, -/
theorem sectorsFor_toInt (h : -512 < fileSize.toInt) : (sectorsFor fileSize).toInt = sectorsNeeded fileSize := by
  by_cases hn : fileSize.toInt < 0
  · rw [sectorsFor_neg hn, sectorsNeeded_of_neg (Int.le_of_lt hn)]
    omega
  have hh := BitVec.toInt_lt (x := fileSize)
  have hnt : fileSize.toInt = fileSize.toNat := toInt_of_nonneg (by omega)
  have hto : (sectorsFor fileSize).toNat = sectorsNeeded fileSize := by
    rw [sectorsNeeded, hnt, Int.toNat_natCast]
    exact sectorsFor_toNat (by omega)
  have hle : sectorsNeeded fileSize < 2147483648 := by
    unfold sectorsNeeded divRoundUp sectorSize
    split <;> omega
  rw [toInt_toNat (by omega), hto]

/-- and negative for the others. -/
theorem sectorsFor_negative (h : fileSize.toInt ≤ -512) : (sectorsFor fileSize).toInt < 0 := by
  rw [sectorsFor_neg (by omega)]
  omega

/-- Either way the loop of `Allocate` runs once for every sector that is needed. -/
theorem sectorsFor_needed (fileSize : Word) : (sectorsFor fileSize).toInt.toNat = sectorsNeeded fileSize := by
  by_cases h : -512 < fileSize.toInt
  · rw [sectorsFor_toInt h, Int.toNat_natCast]
  have hn : fileSize.toInt ≤ -512 := by omega
  have hf := sectorsFor_negative hn
  rw [sectorsNeeded_of_neg (by omega)]
  omega

end

/-! ## Allocate -/

variable {h' : FileHeader} {freeMap' : BitMap}

section

variable {freeMap : BitMap} {fileSize : Word}

theorem noSpace_iff (hm : freeMap.numBits = Nachos.numSectors) :
    (BitVec.ofNat 32 freeMap.numClear).slt (sectorsFor fileSize) = true ↔ freeMap.clearBits.length < sectorsNeeded fileSize := by
  have hle : freeMap.numClear ≤ 1024 := numClear_le hm
  have hc := sectorsFor_needed fileSize
  rw [BitVec.slt_iff_toInt_lt, toInt_toNat (by rw [numClear_toNat hm]; omega), numClear_toNat hm, ← freeMap.numClear_eq]
  omega

/-- `Allocate` fails, leaves the table, or takes the first clear sectors. -/
theorem allocate_cases (h : FileHeader) (hm : freeMap.numBits = Nachos.numSectors) (fileSize : Word) :
    (freeMap.clearBits.length < sectorsNeeded fileSize ∧ ∃ h', h.allocate freeMap fileSize = .ok (false, h', freeMap)) ∨
    (sectorsNeeded fileSize ≤ freeMap.clearBits.length ∧ numDirect < sectorsNeeded fileSize ∧
      h.allocate freeMap fileSize = .error .undefined) ∨
    sectorsNeeded fileSize ≤ numDirect ∧
      ∃ h' freeMap', h.allocate freeMap fileSize = .ok (true, h', freeMap') ∧ Allocated freeMap fileSize h' freeMap' := by
  by_cases hc : (BitVec.ofNat 32 freeMap.numClear).slt (sectorsFor fileSize) = true
  · exact .inl ⟨(noSpace_iff hm).mp hc, _, if_pos hc⟩
  have hcn := sectorsFor_needed fileSize
  by_cases hrm : sectorsNeeded fileSize ≤ numDirect
  · exact .inr (.inr ⟨hrm, allocated h hm hc (by omega)⟩)
  · refine .inr (.inl ⟨Nat.not_lt.mp (mt (noSpace_iff hm).mpr hc), by omega, ?_⟩)
    simp only [allocate, if_neg hc, bind, Except.bind]
    rw [allocateLoop_over _ _ _ 0 (Nat.zero_le _) (by omega)]

/-- A file of `fileSize` bytes in sectors that were clear before and are marked after. -/
structure Laid (before : BitMap) (fileSize : Word) (h' : FileHeader) (after : BitMap) : Prop where
  bytes : h'.numBytes = fileSize
  room : sectorsNeeded fileSize ≤ numDirect
  sectors : h'.numSectors.toInt = sectorsNeeded fileSize
  count : h'.listed.length = sectorsNeeded fileSize
  distinct : h'.listed.Nodup
  new : ∀ s ∈ h'.listed, s < Nachos.numSectors ∧ before.bit s = false
  marked : ∀ s, after.bit s = (before.bit s || h'.listed.contains s)
  mapped : ∀ offset : Word, 0 ≤ offset.toInt → offset.toInt < fileSize.toInt →
    ∃ s, h'.byteToSector offset = .ok s ∧ s.toNat ∈ h'.listed

/-- An offset below the end of the file is in one of the first sectors of the table. -/
theorem byteToSector_listed {h : FileHeader} (hsc : h.numSectors.toInt = sectorsNeeded fileSize)
    (hrm : sectorsNeeded fileSize ≤ numDirect) {offset : Word} (hp : 0 ≤ offset.toInt) (hlt : offset.toInt < fileSize.toInt) :
    ∃ s, h.byteToSector offset = .ok s ∧ s.toNat ∈ h.listed := by
  have hn := toInt_of_nonneg hp
  have hs : fileSize.toInt < 2147483648 := fileSize.toInt_lt
  have hid : (offset.sdiv 512).toNat = offset.toNat / 512 := by
    have hd := sdiv_sector (p := offset.toNat) (by omega)
    rw [ofNat_word] at hd
    rw [hd, ofNat_toNat (by omega)]
  have hin : offset.toNat / 512 < sectorsNeeded fileSize := div_lt_divRoundUp (by omega) (by decide)
  have ht : offset.toNat / 512 < h.dataSectors.length := by rw [h.direct]; omega
  refine ⟨h.dataSectors[offset.toNat / 512], ?_, ?_⟩
  · rw [byteToSector, hid, getElem?_eq_getElem ht]
  · rw [listed, hsc, Int.toNat_natCast]
    refine mem_map_of_mem (mem_iff_getElem?.mpr ⟨offset.toNat / 512, ?_⟩)
    rw [getElem?_take_of_lt hin, getElem?_eq_getElem ht]

theorem Allocated.laid (ha : Allocated freeMap fileSize h' freeMap') (hm : freeMap.numBits = Nachos.numSectors)
    (hrm : sectorsNeeded fileSize ≤ numDirect) (hsz : -512 < fileSize.toInt) :
    Laid freeMap fileSize h' freeMap' := by
  have hsc : h'.numSectors.toInt = sectorsNeeded fileSize := by rw [ha.sectors, sectorsFor_toInt hsz]
  have hl := ha.listed
  have he := ha.enough
  rw [sectorsFor_needed] at hl he
  refine ⟨ha.bytes, hrm, hsc, ?_, ?_, ?_, ha.marked, fun offset => byteToSector_listed hsc hrm⟩
  · rw [hl, List.length_take]
    omega
  · rw [hl]
    exact freeMap.clearBits_nodup.sublist (take_sublist ..)
  · intro s hs
    rw [hl] at hs
    rw [← hm]
    exact (freeMap.mem_clearBits s).mp (mem_of_mem_take hs)

/-- A header that `Allocate` has made describes the file only if the size is above -512. -/
theorem Laid.size (hl : Laid freeMap fileSize h' freeMap') (hs : h'.numSectors = sectorsFor h'.numBytes) :
    -512 < fileSize.toInt := by
  by_contra hle
  have hn : (sectorsFor fileSize).toInt < 0 := sectorsFor_negative (by omega)
  rw [← hl.bytes, ← hs, hl.sectors] at hn
  omega

theorem allocate_laid_iff (h : FileHeader) (hm : freeMap.numBits = Nachos.numSectors) (fileSize : Word) :
    ((∃ h', h.allocate freeMap fileSize = .ok (false, h', freeMap)) ∨
      ∃ h' freeMap', h.allocate freeMap fileSize = .ok (true, h', freeMap') ∧ Laid freeMap fileSize h' freeMap') ↔
    SizeOk freeMap.clearBits.length fileSize := by
  rcases allocate_cases h hm fileSize with ⟨hf, h', hok⟩ | ⟨he, ho, hs⟩ | ⟨hrm, h', freeMap', hok, ha⟩
  · exact ⟨fun _ => .inl hf, fun _ => .inl ⟨h', hok⟩⟩
  · refine ⟨?_, ?_⟩
    · rintro (⟨h', hok⟩ | ⟨h', freeMap', hok, -⟩)
      · cases hs.symm.trans hok
      · cases hs.symm.trans hok
    · rintro (hf | ⟨hrm, -⟩)
      · omega
      · omega
  · refine ⟨?_, ?_⟩
    · rintro (⟨h'', ho'⟩ | ⟨h'', freeMap'', ho', hl⟩)
      · cases hok.symm.trans ho'
      · cases hok.symm.trans ho'
        exact .inr ⟨hrm, hl.size (by rw [ha.sectors, ha.bytes])⟩
    · rintro (hf | ⟨-, hsz⟩)
      · have he := ha.enough
        rw [sectorsFor_needed] at he
        omega
      · exact .inr ⟨h', freeMap', hok, ha.laid hm hrm hsz⟩

end

end FileHeader

/-! ## Create -/

namespace OnDisk.FileSystem

section

variable {fs : FileSystem}

/-- The new file has the size that was asked for: its header is in the sector `p`, and the map on
    the disk marks that sector and those of the file. -/
structure Made (fs : FileSystem) (initialSize : Word) (d : Disk) (p : Nat) (r : List Nat) (hdr : FileHeader)
    (e : DirectoryEntry) : Prop extends fs.Added d p r hdr e where
  laid : hdr.Laid ((mapOf fs.disk).markBit p) initialSize (mapOf d)

theorem create_made_iff (h : fs.Inv) (g : Garbage) (name : List Byte) (initialSize : Word) :
    (fs.create g name initialSize = .ok (false, fs) ∨
      ∃ d p r hdr e, fs.create g name initialSize = .ok (true, { fs with disk := d }) ∧ fs.Made initialSize d p r hdr e) ↔
    ∀ p r, fs.Reaches name p r → SizeOk r.length initialSize := by
  by_cases hrc : ∃ p r, fs.Reaches name p r
  · obtain ⟨p, r, hr⟩ := hrc
    have hmr : ((mapOf fs.disk).markBit p).numBits = numSectors := (mapOf fs.disk).numBits_markBit p
    have hcl := (mapOf fs.disk).clearBits_markBit hr.clear
    have hc := create_allocate h g initialSize hr
    refine ⟨fun hg p' r' hr' => ?_, fun hs => ?_⟩
    · -- the first clear sector is the only one that `Create` tries
      obtain ⟨rfl, rfl⟩ : p = p' ∧ r = r' := by simpa using hr.clear.symm.trans hr'.clear
      rw [← hcl]
      rcases (FileHeader.new (g.bytes 1)).allocate_cases hmr initialSize with
        ⟨hfew, -⟩ | ⟨-, -, hstop⟩ | ⟨hroom, hdr, freeMap, halloc, -⟩
      · exact .inl hfew
      · simp only [hstop] at hc
        rcases hg with hok | ⟨_, _, _, _, _, hok, -⟩
        · cases hc.symm.trans hok
        · cases hc.symm.trans hok
      · simp only [halloc] at hc
        obtain ⟨d, e, ht, -⟩ := hc
        rcases hg with hok | ⟨_, _, _, _, _, -, hm⟩
        · cases ht.symm.trans hok
        · exact .inr ⟨hroom, hm.laid.size hm.sectors⟩
    · have hok := hs p r hr
      rw [← hcl] at hok
      rcases ((FileHeader.new (g.bytes 1)).allocate_laid_iff hmr initialSize).mpr hok with
        ⟨hdr, halloc⟩ | ⟨hdr, freeMap, halloc, hlaid⟩
      · simp only [halloc] at hc
        exact .inl hc
      simp only [halloc] at hc
      obtain ⟨d, e, ht, ha⟩ := hc
      refine .inr ⟨d, p, r, hdr, e, ht, ha, { hlaid with marked := fun s => ?_ }⟩
      have hp := ((mapOf fs.disk).mem_clearBits p).mp (hr.clear ▸ mem_cons_self)
      rw [(ha.mounted h).mapOf, ha.bits, (mapOf fs.disk).bit_markBit_cons hp.1]
  · exact ⟨fun _ p r hr => absurd ⟨p, r, hr⟩ hrc,
      fun _ => .inl (create_skips h g name initialSize fun p r hr => hrc ⟨p, r, hr⟩)⟩

/-- `Allocate` either returns FALSE and takes nothing, or returns TRUE and has laid out the file,
    exactly if the header has room for so many sectors and the size is above -512, or there is
    not enough space; and so for `Create`, which leaves the disk alone or makes the file. -/
theorem size_limit_iff (h : FileHeader) {freeMap : BitMap} (hmap : freeMap.numBits = numSectors) (fileSize : Word)
    {fs : FileSystem} (hfs : fs.Inv) (g : Garbage) (name : List Byte) (initialSize : Word) :
    (((∃ h', h.allocate freeMap fileSize = .ok (false, h', freeMap)) ∨
        ∃ h' freeMap', h.allocate freeMap fileSize = .ok (true, h', freeMap') ∧ h'.Laid freeMap fileSize freeMap') ↔
      SizeOk freeMap.clearBits.length fileSize) ∧
    ((fs.create g name initialSize = .ok (false, fs) ∨
        ∃ d p r hdr e, fs.create g name initialSize = .ok (true, { fs with disk := d }) ∧ fs.Made initialSize d p r hdr e) ↔
      ∀ p r, fs.Reaches name p r → SizeOk r.length initialSize) :=
  ⟨h.allocate_laid_iff hmap fileSize, create_made_iff hfs g name initialSize⟩

/-- A file of 1000 bytes. -/
theorem size_limit_kilobyte : ∃ fs, FileSystem.new blankDisk ones ones ones = .ok fs ∧
    ((∃ h', (FileHeader.new (ones.bytes 1)).allocate (mapOf fs.disk) 1000 = .ok (false, h', mapOf fs.disk)) ∨
      ∃ h' freeMap', (FileHeader.new (ones.bytes 1)).allocate (mapOf fs.disk) 1000 = .ok (true, h', freeMap') ∧
        h'.Laid (mapOf fs.disk) 1000 freeMap') ∧
    (fs.create ones [97] 1000 = .ok (false, fs) ∨
      ∃ d p r hdr e, fs.create ones [97] 1000 = .ok (true, { fs with disk := d }) ∧ fs.Made 1000 d p r hdr e) := by
  obtain ⟨fs, hnew, hfs⟩ := new_ok blankDisk ones ones ones
  have hmap : (mapOf fs.disk).numBits = numSectors := rfl
  obtain ⟨halloc, hcreate⟩ := size_limit_iff (FileHeader.new (ones.bytes 1)) hmap 1000 hfs ones [97] 1000
  have hsize : ∀ clear, SizeOk clear 1000 := fun _ => .inr ⟨by decide, by decide⟩
  exact ⟨fs, hnew, halloc.mpr (hsize _), hcreate.mpr fun _ _ _ => hsize _⟩

section

variable {name : List Byte} {initialSize : Word} {p : Nat} {r : List Nat} (h : fs.Inv) (g : Garbage) (hr : fs.Reaches name p r)
include h hr

/-- With enough space the loop writes past the table. -/
theorem create_over (hs : sectorsNeeded initialSize ≤ r.length) (ho : numDirect < sectorsNeeded initialSize) :
    fs.create g name initialSize = .error .undefined := by
  have hc := create_allocate h g initialSize hr
  have hcl := (mapOf fs.disk).clearBits_markBit hr.clear
  rcases (FileHeader.new (g.bytes 1)).allocate_cases ((mapOf fs.disk).numBits_markBit p) initialSize with
    ⟨hfew, -⟩ | ⟨-, -, hstop⟩ | ⟨hroom, -⟩
  · rw [hcl] at hfew
    omega
  · simp only [hstop] at hc
    exact hc
  · omega

/-- A size that is not positive is never refused. -/
theorem create_negative (hng : initialSize.toInt ≤ 0) : ∃ d, fs.create g name initialSize = .ok (true, { fs with disk := d }) ∧
    (headerAt d p).numSectors = FileHeader.sectorsFor initialSize := by
  have hc := create_allocate h g initialSize hr
  have hn := FileHeader.sectorsNeeded_of_neg hng
  rcases (FileHeader.new (g.bytes 1)).allocate_cases ((mapOf fs.disk).numBits_markBit p) initialSize with
    ⟨hfew, -⟩ | ⟨-, hover, -⟩ | ⟨-, hdr, freeMap, halloc, hdone⟩
  · omega
  · omega
  · simp only [halloc] at hc
    obtain ⟨d, e, ht, ha⟩ := hc
    refine ⟨d, ht, ?_⟩
    rw [headerAt, ha.header, FileHeader.ofSector_toSector, hdone.sectors]

end

/-- A disk without files has 1020 clear sectors. -/
theorem Inv.clear_empty (h : fs.Inv) (hn : (directoryOf fs.disk).inUse = []) :
    (mapOf fs.disk).clearBits = List.range' 4 1020 := by
  have hu : used fs.disk = [0, 1, 2, 3] := by rw [h.mounted.used, hn]; rfl
  have hb : ∀ s < 1024, (mapOf fs.disk).bit s = true ↔ s < 4 := by
    intro s hs
    rw [h.accounted.marks s hs, hu]
    simp only [mem_cons, not_mem_nil, or_false]
    omega
  have hsp : List.range 1024 = List.range 4 ++ List.range' 4 1020 := by
    rw [range_eq_range', range_eq_range', range'_append_1]
  have hc : (mapOf fs.disk).clearBits = (List.range 1024).filter (!(mapOf fs.disk).bit ·) := rfl
  rw [hc, hsp, filter_append, filter_eq_nil_iff.mpr, filter_eq_self.mpr, nil_append]
  · intro s hs
    have hm := mem_range'_1.mp hs
    rw [Bool.not_eq_true', Bool.eq_false_iff, ne_eq, hb s (by omega)]
    omega
  · intro s hs
    have hlt := mem_range.mp hs
    rw [(hb s (by omega)).mpr hlt]
    exact Bool.false_ne_true

theorem reaches_empty (h : fs.Inv) (hn : (directoryOf fs.disk).inUse = []) (name : List Byte) :
    ∃ r, fs.Reaches name 4 r ∧ r.length = 1019 := by
  have hu : ∀ e ∈ (directoryOf fs.disk).table, ¬ e.used = true := filter_eq_nil_iff.mp hn
  have hin : (directoryOf fs.disk).findIndex name = none := by
    rw [Directory.findIndex, findIdx?_eq_none_iff]
    intro e he
    rw [Bool.eq_false_iff.mpr (hu e he), Bool.false_and]
  obtain ⟨r, hr⟩ : ∃ r, List.range' 4 1020 = 4 :: r := ⟨_, range'_succ⟩
  refine ⟨r, ⟨?_, (h.clear_empty hn).trans hr, ?_⟩, ?_⟩
  · rw [Directory.find, hin]
    rfl
  · have hs : 0 < (directoryOf fs.disk).table.length :=
      Nat.lt_of_lt_of_eq (by decide) (DirectoryEntry.layout.length_list numDirEntries _).symm
    have hf : ((directoryOf fs.disk).table.findIdx? fun e => !e.used) = some 0 := by
      rw [findIdx?_eq_some_iff_getElem]
      refine ⟨hs, ?_, fun j hj => absurd hj (Nat.not_lt_zero j)⟩
      rw [Bool.eq_false_iff.mpr (hu _ (getElem_mem hs))]
      rfl
    rw [Directory.add, hin, hf]
    rfl
  · have hl := congrArg List.length hr
    rw [length_range', length_cons] at hl
    omega

/-- A disk with space for more than 64512 bytes, and a file that needs one sector too many: the last
    of them is written past the table. And a file of -512 bytes, of -1 sectors. -/
theorem size_limit_exceeded : ∃ fs, format blankDisk ones = .ok fs ∧ fs.create ones [97] 64513 = .error .undefined ∧
    ∃ d, fs.create ones [97] (-512) = .ok (true, { fs with disk := d }) ∧ (headerAt d 4).numSectors = -1 := by
  obtain ⟨fs, hformat, h, hnone⟩ := format_ok blankDisk ones
  obtain ⟨r, hr, hlen⟩ := reaches_empty h hnone [97]
  have hneeded : sectorsNeeded 64513 = 127 := by decide
  exact ⟨fs, hformat, create_over h ones hr (by omega) (by decide), create_negative h ones hr (by decide)⟩

end

end OnDisk.FileSystem

end Nachos

/-
  Nachos.Bin.Coff2noff — `bin/coff2noff.c`: a COFF file becomes a NOFF file.

  The tool reads the headers of the COFF file, copies the sections with bytes one after the
  other to the NOFF file, from byte 40 on, and writes the NOFF header in front at the end. It runs on
  the host's files (`Stub.Host`), whose calls may fail or move fewer bytes than asked for. `stack`
  is what the local header holds at the start. An error ends the run, and the NOFF file is
  unlinked. What is printed on the way, and the fields of the headers nobody reads, are left out.

  - `read_ok`, `write_ok`: what `Read` and `Write` have done when they return. The count -1 is equal to
    the value of a failed call, so both return and have moved nothing.
-/

import Nachos.Filesys.Stub
import Nachos.Lib.Ranges
import Nachos.Userprog.AddrSpace
import Nachos.Userprog.UserMemory

namespace Nachos

open Lib List
open BitVec (ofNat)

/-- The addresses of a segment. -/
def Segment.range (s : Segment) : Lib.Range 32 := ⟨s.virtualAddr, s.size⟩

namespace Coff2noff

open Stub (Host Ino maxOffset)

/-! ## Files of the host -/

/-- An open file: `offset` is where the next byte is read or written. -/
structure Descriptor where
  ino : Ino
  offset : Nat
  fits : offset ≤ maxOffset

variable (fd : Descriptor) (h : Host)

namespace Descriptor

/-- `lseek(fd, offset, 0)`. The host refuses a negative offset; nobody looks at the result. -/
def lseek (offset : Word) : Descriptor :=
  if hn : offset.toNat ≤ maxOffset then { fd with offset := offset.toNat, fits := hn } else fd

/-- The bytes `read` delivers. -/
def delivered (n : Nat) : List Byte := ((h.content fd.ino).drop fd.offset).take n

theorem offset_add_delivered (n : Nat) : fd.offset + (fd.delivered h n).length ≤ maxOffset := by
  have hs := h.small fd.ino
  have hf := fd.fits
  simp only [delivered, List.length_take, length_drop]
  omega

/-- `read`: its value, and the bytes. -/
def read (nBytes : Word) : Word × List Byte × Descriptor × Host :=
  let (a, h) := h.answer
  if a = .fails ∨ nBytes.slt 0 then (-1, [], fd, h)
  else
    let n := a.limit nBytes.toNat
    (ofNat 32 (fd.delivered h n).length, fd.delivered h n,
      { fd with offset := fd.offset + (fd.delivered h n).length, fits := fd.offset_add_delivered h n }, h)

/-- How many of `n` bytes there is room for. -/
def room (n : Nat) : Nat := min n (maxOffset - fd.offset)

theorem offset_add_room (n : Nat) : fd.offset + fd.room n ≤ maxOffset := by
  have hf := fd.fits
  unfold room
  omega

theorem splice_room (buffer : List Byte) (n : Nat) :
    (Host.splice (h.content fd.ino) fd.offset (buffer.take (fd.room n))).length ≤ maxOffset := by
  have hs := h.small fd.ino
  have hr := fd.offset_add_room n
  have ht := length_take_le (fd.room n) buffer
  rw [Host.length_splice]
  split <;> omega

/-- `write`: its value. -/
def write (buffer : List Byte) (nBytes : Word) : Word × Descriptor × Host :=
  let (a, h) := h.answer
  if a = .fails ∨ nBytes.slt 0 then (-1, fd, h)
  else
    let n := a.limit nBytes.toNat
    (ofNat 32 (fd.room n), { fd with offset := fd.offset + fd.room n, fits := fd.offset_add_room n },
      h.setContent fd.ino (Host.splice (h.content fd.ino) fd.offset (buffer.take (fd.room n))) (fd.splice_room h buffer n))

end Descriptor

/-- What the tool reports before it gives up. -/
inductive Failure where
  /-- The COFF file cannot be opened. -/
  | noInput
  /-- "File is too short" -/
  | tooShort
  /-- "Unable to write file" -/
  | unwritten
  /-- "File is not a MIPSEL COFF file" -/
  | notMipsel
  /-- "File is not a OMAGIC file" -/
  | notOmagic
  /-- "Can't handle both data and rdata" -/
  | dataAndRdata
  /-- "Can't handle both bss and sbss" -/
  | bssAndSbss
  /-- "Unknown segment type: %s" -/
  | unknownSegment (name : List Byte)
  deriving DecidableEq, Repr

/-- `Read`. -/
def read (nBytes : Word) : Except Failure (List Byte × Descriptor × Host) :=
  let (value, buf, fd, h) := fd.read h nBytes
  if value ≠ nBytes then .error .tooShort else .ok (buf, fd, h)

/-- `Write`. The tool does not notice that the NOFF file could not be opened; then `write` has the
    descriptor -1 and fails. -/
def write (fd : Option Descriptor) (h : Host) (buf : List Byte) (nBytes : Word) : Except Failure (Option Descriptor × Host) :=
  match fd with
  | none => if -1 ≠ nBytes then .error .unwritten else .ok (none, h)
  | some fd =>
    let (value, fd, h) := fd.write h buf nBytes
    if value ≠ nBytes then .error .unwritten else .ok (some fd, h)

/-! ## Headers -/

abbrev sizeofFilehdr : Nat := 20
abbrev sizeofAouthdr : Nat := 56
abbrev sizeofScnhdr : Nat := 40

def mipselMagic : BitVec 16 := 0x0162
def oMagic : BitVec 16 := 0x0107

/-- A section header. The tool never looks at `sVaddr`, the section's virtual address. -/
structure Scnhdr where
  sName : List Byte
  sPaddr : Word
  sVaddr : Word
  sSize : Word
  sScnptr : Word
  deriving DecidableEq, Repr

section

variable (bigEndian : Bool)

/-- A `short` of the COFF file, after `ShortToHost`. -/
def short (bytes : List Byte) (k : Nat) : BitVec 16 := shortToHost bigEndian (hostShort bigEndian (fun i => bytes.getD i 0) k)

/-- A `long` of the COFF file, after `WordToHost`. -/
def long (bytes : List Byte) (k : Nat) : Word := wordToHost bigEndian (hostWord bigEndian (fun i => bytes.getD i 0) k)

/-- The section header that starts at byte `k`. -/
def scnhdr (bytes : List Byte) (k : Nat) : Scnhdr :=
  ⟨(List.range 8).map fun j => bytes.getD (k + j) 0, long bigEndian bytes (k + 8), long bigEndian bytes (k + 12),
    long bigEndian bytes (k + 16), long bigEndian bytes (k + 20)⟩

/-- The array of section headers. -/
def scnhdrs (bytes : List Byte) (numsections : Nat) : List Scnhdr :=
  (List.range numsections).map fun i => scnhdr bigEndian bytes (i * sizeofScnhdr)

/-- An `int` as it is in memory. -/
def intBytes (v : Word) : List Byte := (List.range 4).map (hostByte bigEndian 4 v)

/-- The NOFF header as it is in memory. -/
def headerBytes (h : NoffHeader) : List Byte :=
  [h.noffMagic, h.code.virtualAddr, h.code.inFileAddr, h.code.size, h.initData.virtualAddr, h.initData.inFileAddr, h.initData.size,
    h.uninitData.virtualAddr, h.uninitData.inFileAddr, h.uninitData.size].flatMap (intBytes bigEndian)

end

/-- What the loop distinguishes the sections by. -/
inductive Kind where
  | text
  | data
  | bss
  deriving DecidableEq, Repr

/-- `strcmp` with ".text", ".data" and ".rdata", ".bss" and ".sbss". -/
def Scnhdr.kind (s : Scnhdr) : Option Kind :=
  let name := cString s.sName
  if name = [46, 116, 101, 120, 116] then some .text
  else if name = [46, 100, 97, 116, 97] ∨ name = [46, 114, 100, 97, 116, 97] then some .data
  else if name = [46, 98, 115, 115] ∨ name = [46, 115, 98, 115, 115] then some .bss
  else none

/-! ## The loop -/

structure Work where
  fdIn : Descriptor
  fdOut : Option Descriptor
  host : Host
  noffH : NoffHeader
  inNoffFile : Word

/-- What the branches for text and data share: the segment, and the bytes copied. -/
def copy (w : Work) (s : Scnhdr) : Except Failure (Segment × Work) := do
  let (buffer, fdIn, host) ← read (w.fdIn.lseek s.sScnptr) w.host s.sSize
  let (fdOut, host) ← write w.fdOut host buffer s.sSize
  return (⟨s.sPaddr, w.inNoffFile, s.sSize⟩, { w with fdIn, fdOut, host, inNoffFile := w.inNoffFile + s.sSize })

/-- One pass of the loop. -/
def load (w : Work) (s : Scnhdr) : Except Failure Work :=
  if s.sSize = 0 then .ok w
  else
    match s.kind with
    | some .text => do
      let (code, w) ← copy w s
      return { w with noffH := { w.noffH with code } }
    | some .data =>
      if w.noffH.initData.size ≠ 0 then .error .dataAndRdata
      else do
        let (initData, w) ← copy w s
        return { w with noffH := { w.noffH with initData } }
    | some .bss =>
      let u := w.noffH.uninitData
      if u.size ≠ 0 then
        -- meant to refuse sections that are not contiguous
        if s.sPaddr = u.virtualAddr + u.size then .error .bssAndSbss
        else .ok { w with noffH := { w.noffH with uninitData := { u with size := u.size + s.sSize } } }
      else .ok { w with noffH := { w.noffH with uninitData := { u with virtualAddr := s.sPaddr, size := s.sSize } } }
    | none => .error (.unknownSegment (cString s.sName))

/-- The header "in case not all the segments are defined". -/
def startHeader (stack : NoffHeader) : NoffHeader where
  noffMagic := noffMagic
  code := { stack.code with size := 0 }
  initData := { stack.initData with size := 0 }
  uninitData := { stack.uninitData with size := 0 }

/-- The first part of `main`: the two headers with their magic numbers, and the section headers. -/
def readHeaders (bigEndian : Bool) (fdIn : Descriptor) (h : Host) : Except Failure (List Scnhdr × Descriptor × Host) := do
  let (fileh, fdIn, h) ← read fdIn h (ofNat 32 sizeofFilehdr)
  if short bigEndian fileh 0 ≠ mipselMagic then .error .notMipsel
  else
    let (systemh, fdIn, h) ← read fdIn h (ofNat 32 sizeofAouthdr)
    if short bigEndian systemh 0 ≠ oMagic then .error .notOmagic
    else
      let numsections := (short bigEndian fileh 2).toNat
      let (sections, fdIn, h) ← read fdIn h (ofNat 32 (numsections * sizeofScnhdr))
      return (scnhdrs bigEndian sections numsections, fdIn, h)

/-- `main`, after the names have been taken from the command line. -/
def main (bigEndian : Bool) (stack : NoffHeader) (coffName noffName : List Byte) (h : Host) : Except Failure Host :=
  match h.openRW coffName with
  | (none, _) => .error .noInput
  | (some i, h) => do
    let (o, h) := h.openTrunc noffName
    let fdOut : Option Descriptor := o.map fun o => ⟨o, 0, Nat.zero_le _⟩
    let (sections, fdIn, h) ← readHeaders bigEndian ⟨i, 0, Nat.zero_le _⟩ h
    let w ← sections.foldlM load
      ⟨fdIn, fdOut.map (·.lseek (ofNat 32 sizeofNoffHeader)), h, startHeader stack, ofNat 32 sizeofNoffHeader⟩
    let (_, h) ← write (w.fdOut.map (·.lseek 0)) w.host (headerBytes bigEndian w.noffH) (ofNat 32 sizeofNoffHeader)
    return h

/-! ## Ranges of addresses -/

/-- Where the tool puts a section. -/
def Scnhdr.range (s : Scnhdr) : Lib.Range 32 := ⟨s.sPaddr, s.sSize⟩

/-- What the loop makes of the uninitialised data so far and one more section. -/
def merge (m s : Lib.Range 32) : Lib.Range 32 := if m.size ≠ 0 then ⟨m.base, m.size + s.size⟩ else s

/-! ## What has been done when a call returns -/

section

variable {fd : Descriptor} {h h' : Host} {n : Word} {buf : List Byte}

theorem nonneg_of_le (hn : n.toNat ≤ maxOffset) : n.slt 0 = false := by
  rw [Bool.eq_false_iff, ne_eq, slt_of_nonneg (Nat.lt_succ_of_le hn) (by decide)]
  exact Nat.not_lt_zero _

/-- The value of a failed call is not a count. -/
theorem minus_one_ne (hn : n.toNat ≤ maxOffset) : -1 ≠ n := by
  rintro rfl
  exact absurd hn (by decide)

theorem limit_le (a : Stub.Answer) (n : Nat) : a.limit n ≤ n := by
  cases a with
  | posix => exact Nat.le_refl n
  | short k => exact Nat.min_le_right k n
  | fails => exact Nat.zero_le n

/-- A call that is to move `n` bytes and moves `m ≤ n` has the value `n` if it has moved all. -/
theorem eq_of_value {m : Nat} (hm : m ≤ n.toNat) (hv : ofNat 32 m = n) : m = n.toNat := by
  have hto := congrArg BitVec.toNat hv
  rw [BitVec.toNat_ofNat, Nat.mod_eq_of_lt (Nat.lt_of_le_of_lt hm n.isLt)] at hto
  exact hto

theorem answer_frame {a : Stub.Answer} (ha : h.answer = (a, h')) : h'.content = h.content ∧ h'.names = h.names := by
  cases ha
  exact ⟨rfl, rfl⟩

/-- `Read` of a count that is not negative has delivered so many bytes. -/
theorem read_ok {fd' : Descriptor} (hok : read fd h n = .ok (buf, fd', h')) (hn : n.toNat ≤ maxOffset) :
    buf = ((h.content fd.ino).drop fd.offset).take n.toNat ∧ buf.length = n.toNat ∧ fd'.ino = fd.ino ∧
      fd'.offset = fd.offset + n.toNat ∧ h'.content = h.content ∧ h'.names = h.names := by
  have hnn := nonneg_of_le hn
  unfold read Descriptor.read at hok
  rcases ha : h.answer with ⟨a, h1⟩
  obtain ⟨hc, hnm⟩ := answer_frame ha
  by_cases hf : a = .fails
  · simp only [ha, hf, true_or, if_true, if_pos (minus_one_ne hn)] at hok
    cases hok
  · simp only [ha, hf, hnn, Bool.false_eq_true, or_self, if_false] at hok
    split at hok
    · cases hok
    next hv =>
    cases hok
    have hle : (fd.delivered h' (a.limit n.toNat)).length ≤ a.limit n.toNat := length_take_le ..
    have hln := eq_of_value (Nat.le_trans hle (limit_le a _)) (Decidable.not_not.mp hv)
    have hl : a.limit n.toNat = n.toNat := Nat.le_antisymm (limit_le a _) (by omega)
    exact ⟨by rw [hl, Descriptor.delivered, hc], hln, rfl, congrArg (fd.offset + ·) hln, hc, hnm⟩

theorem write_ok {o : Option Descriptor} (hok : write (some fd) h buf n = .ok (o, h')) (hn : n.toNat ≤ maxOffset)
    (hl : buf.length = n.toNat) : ∃ fd', o = some fd' ∧ fd'.ino = fd.ino ∧ fd'.offset = fd.offset + n.toNat ∧
      h'.content = Function.update h.content fd.ino (Host.splice (h.content fd.ino) fd.offset buf) ∧ h'.names = h.names := by
  have hnn := nonneg_of_le hn
  unfold write Descriptor.write at hok
  rcases ha : h.answer with ⟨a, h1⟩
  obtain ⟨hc, hnm⟩ := answer_frame ha
  by_cases hf : a = .fails
  · simp only [ha, hf, true_or, if_true, if_pos (minus_one_ne hn)] at hok
    cases hok
  · simp only [ha, hf, hnn, Bool.false_eq_true, or_self, if_false] at hok
    split at hok
    · cases hok
    next hv =>
    cases hok
    have hr : fd.room (a.limit n.toNat) = n.toNat :=
      eq_of_value (Nat.le_trans (Nat.min_le_left ..) (limit_le a _)) (Decidable.not_not.mp hv)
    refine ⟨_, rfl, rfl, congrArg (fd.offset + ·) hr, ?_, hnm⟩
    show Function.update h1.content fd.ino _ = _
    rw [hr, take_of_length_le (Nat.le_of_eq hl), hc]

end

variable {w w' : Work} {s : Scnhdr} {name : List Byte}

theorem copy_ok {seg : Segment} (hok : copy w s = .ok (seg, w')) :
    ∃ buffer fdIn h1 fdOut h2, read (w.fdIn.lseek s.sScnptr) w.host s.sSize = .ok (buffer, fdIn, h1) ∧
      write w.fdOut h1 buffer s.sSize = .ok (fdOut, h2) ∧ seg = ⟨s.sPaddr, w.inNoffFile, s.sSize⟩ ∧
      w' = { w with fdIn, fdOut, host := h2, inNoffFile := w.inNoffFile + s.sSize } := by
  obtain ⟨⟨buffer, fdIn, h1⟩, hr, hok⟩ := bind_eq_ok.mp hok
  obtain ⟨⟨fdOut, h2⟩, hw, hok⟩ := bind_eq_ok.mp hok
  cases hok
  exact ⟨buffer, fdIn, h1, fdOut, h2, hr, hw, rfl, rfl⟩

section

variable {bigEndian : Bool} {bytes : List Byte} {k m n : Nat}

theorem getD_take (h : k < m) : (bytes.take m).getD k 0 = bytes.getD k 0 := by
  rw [getD_eq_getElem?_getD, getD_eq_getElem?_getD, getElem?_take_of_lt h]

theorem short_take (h : k + 2 ≤ m) : short bigEndian (bytes.take m) k = short bigEndian bytes k := by
  unfold short hostShort
  beta_reduce
  rw [getD_take (by omega), getD_take (by omega)]

theorem long_take (h : k + 4 ≤ m) : long bigEndian (bytes.take m) k = long bigEndian bytes k := by
  unfold long hostWord
  beta_reduce
  rw [getD_take (by omega), getD_take (by omega), getD_take (by omega), getD_take (by omega)]

theorem scnhdr_take (h : k + sizeofScnhdr ≤ m) : scnhdr bigEndian (bytes.take m) k = scnhdr bigEndian bytes k := by
  unfold sizeofScnhdr at h
  have hn : ((List.range 8).map fun j => (bytes.take m).getD (k + j) 0) = (List.range 8).map fun j => bytes.getD (k + j) 0 := by
    refine map_congr_left fun j hj => ?_
    have hj' := mem_range.mp hj
    exact getD_take (by omega)
  rw [scnhdr, hn, long_take (by omega), long_take (by omega), long_take (by omega), long_take (by omega)]
  rfl

theorem scnhdrs_take : scnhdrs bigEndian (bytes.take (n * sizeofScnhdr)) n = scnhdrs bigEndian bytes n := by
  refine map_congr_left fun i hi => scnhdr_take ?_
  rw [← Nat.succ_mul]
  exact Nat.mul_le_mul_right _ (mem_range.mp hi)

end

/-- The section headers of a COFF file. -/
def sectionsOf (bigEndian : Bool) (coff : List Byte) : List Scnhdr :=
  scnhdrs bigEndian (coff.drop (sizeofFilehdr + sizeofAouthdr)) (short bigEndian coff 2).toNat

theorem readHeaders_ok {bigEndian : Bool} {fdIn fdIn' : Descriptor} {h h' : Host} {sections : List Scnhdr}
    (hok : readHeaders bigEndian fdIn h = .ok (sections, fdIn', h')) (hst : fdIn.offset = 0) :
    sections = sectionsOf bigEndian (h.content fdIn.ino) ∧ h.content fdIn.ino ≠ [] ∧ fdIn'.ino = fdIn.ino ∧
      h'.content = h.content ∧ h'.names = h.names := by
  obtain ⟨⟨fileh, fd1, h1⟩, hr1, hok⟩ := bind_eq_ok.mp hok
  simp only at hok
  split at hok
  · cases hok
  obtain ⟨⟨systemh, fd2, h2⟩, hr2, hok⟩ := bind_eq_ok.mp hok
  simp only at hok
  split at hok
  · cases hok
  obtain ⟨⟨buf, fd3, h3⟩, hr3, hok⟩ := bind_eq_ok.mp hok
  cases hok
  obtain ⟨hb1, hl1, hi1, ho1, hc1, hn1⟩ := read_ok hr1 (by decide)
  obtain ⟨-, -, hi2, ho2, hc2, hn2⟩ := read_ok hr2 (by decide)
  have hc : (short bigEndian fileh 2).toNat < 65536 := (short bigEndian fileh 2).isLt
  have hs : (short bigEndian fileh 2).toNat * sizeofScnhdr ≤ maxOffset := by
    unfold sizeofScnhdr maxOffset
    omega
  have hto : (ofNat 32 ((short bigEndian fileh 2).toNat * sizeofScnhdr)).toNat =
      (short bigEndian fileh 2).toNat * sizeofScnhdr :=
    (BitVec.toNat_ofNat ..).trans (Nat.mod_eq_of_lt (Nat.lt_of_le_of_lt hs (by decide)))
  obtain ⟨hb3, -, hi3, -, hc3, hn3⟩ := read_ok hr3 (by rw [hto]; exact hs)
  rw [ho2, ho1, hi2, hi1, hc2, hc1, hto, hst] at hb3
  rw [hst, drop_zero] at hb1
  have hn : short bigEndian fileh 2 = short bigEndian (h.content fdIn.ino) 2 := by
    rw [hb1]
    exact short_take (by decide)
  refine ⟨?_, ?_, by rw [hi3, hi2, hi1], by rw [hc3, hc2, hc1], by rw [hn3, hn2, hn1]⟩
  · rw [hb3, scnhdrs_take, hn]
    rfl
  · intro he
    rw [hb1, he] at hl1
    cases hl1

/-- What one pass of the loop does when it returns. -/
theorem load_cases (hok : load w s = .ok w') : (s.sSize = 0 ∧ w' = w) ∨ s.sSize ≠ 0 ∧
      ((s.kind = some .text ∧ ∃ code w1, copy w s = .ok (code, w1) ∧ w' = { w1 with noffH := { w1.noffH with code } }) ∨
      (s.kind = some .data ∧ w.noffH.initData.size = 0 ∧
        ∃ initData w1, copy w s = .ok (initData, w1) ∧ w' = { w1 with noffH := { w1.noffH with initData } }) ∨
      s.kind = some .bss ∧ ∃ uninitData : Segment, uninitData.range = merge w.noffH.uninitData.range s.range ∧
        w' = { w with noffH := { w.noffH with uninitData } }) := by
  unfold load at hok
  split at hok
  · next hs =>
    cases hok
    exact .inl ⟨hs, rfl⟩
  · next hs =>
    refine .inr ⟨hs, ?_⟩
    split at hok
    · next hk =>
      obtain ⟨⟨code, w1⟩, hc, hok⟩ := bind_eq_ok.mp hok
      cases hok
      exact .inl ⟨hk, code, w1, hc, rfl⟩
    · next hk =>
      split at hok
      · cases hok
      next he =>
      obtain ⟨⟨initData, w1⟩, hc, hok⟩ := bind_eq_ok.mp hok
      cases hok
      exact .inr (.inl ⟨hk, Decidable.not_not.mp he, initData, w1, hc, rfl⟩)
    · next hk =>
      simp only at hok
      split at hok
      · next hm =>
        split at hok
        · cases hok
        · cases hok
          exact .inr (.inr ⟨hk, _, (if_pos hm).symm, rfl⟩)
      · next hf =>
        cases hok
        exact .inr (.inr ⟨hk, _, (if_neg hf).symm, rfl⟩)
    · cases hok

/-- A NOFF file that could not be opened is never opened later. -/
theorem load_none (hok : load w s = .ok w') (ho : w.fdOut = none) : w'.fdOut = none := by
  have hcp : ∀ seg w1, copy w s = .ok (seg, w1) → w1.fdOut = none := by
    intro seg w1 hcp
    obtain ⟨buffer, fdIn, h1, fdOut, h2, -, hw, -, rfl⟩ := copy_ok hcp
    rw [ho, write] at hw
    split at hw
    · cases hw
    · cases hw
      rfl
  rcases load_cases hok with ⟨-, rfl⟩ | ⟨-, ⟨-, code, w1, hc, rfl⟩ | ⟨-, -, initData, w1, hc, rfl⟩ | ⟨-, u, -, rfl⟩⟩
  · exact ho
  · exact hcp code w1 hc
  · exact hcp initData w1 hc
  · exact ho

/-! ## Whole runs -/

theorem openRW_some {h h' : Host} {i : Ino} (hok : h.openRW name = (some i, h')) :
    h.names name = some i ∧ h'.content = h.content := by
  unfold Host.openRW at hok
  rcases ha : h.answer with ⟨a, h1⟩
  obtain ⟨hc, hn⟩ := answer_frame ha
  rw [ha] at hok
  split at hok
  · cases hok
  next heq =>
  cases heq
  injection hok with hi hh
  subst hh
  rw [← hn]
  exact ⟨hi, hc⟩

/-- The file is empty, and no other file has changed. -/
theorem openTrunc_some {h h' : Host} {j : Ino} (hok : h.openTrunc name = (some j, h')) :
    h'.names name = some j ∧ h'.content j = [] ∧ ∀ i, i ≠ j → h'.content i = h.content i := by
  unfold Host.openTrunc at hok
  rcases ha : h.answer with ⟨a, h1⟩
  obtain ⟨hc, hn⟩ := answer_frame ha
  rw [ha] at hok
  split at hok
  · cases hok
  next heq =>
  cases heq
  split at hok
  · cases hok
  split at hok
  · next i hi =>
    cases hok
    exact ⟨hi, Function.update_self .., fun i hne => by rw [← hc]; exact Function.update_of_ne hne ..⟩
  · cases hok
    exact ⟨Function.update_self .., Function.update_self .., fun i hne => by rw [← hc]; exact Function.update_of_ne hne ..⟩

/-- The loop starts with the COFF file `coff` and an empty NOFF file. -/
structure Begun (coff : List Byte) (i j : Ino) (noffName : List Byte) (stack : NoffHeader) (w : Work) : Prop where
  source : w.fdIn.ino = i
  input : w.host.content i = coff
  apart : i ≠ j
  target : ∃ fd, w.fdOut = some fd ∧ fd.ino = j ∧ fd.offset = sizeofNoffHeader
  empty : w.host.content j = []
  names : w.host.names noffName = some j
  header : w.noffH = startHeader stack
  inNoffFile : w.inNoffFile = ofNat 32 sizeofNoffHeader

theorem main_ok {bigEndian : Bool} {stack : NoffHeader} {coffName noffName : List Byte} {h h' : Host}
    (hok : main bigEndian stack coffName noffName h = .ok h') :
    ∃ i j w0 w o, h.names coffName = some i ∧ Begun (h.content i) i j noffName stack w0 ∧
      (sectionsOf bigEndian (h.content i)).foldlM load w0 = .ok w ∧
      write (w.fdOut.map (·.lseek 0)) w.host (headerBytes bigEndian w.noffH) (ofNat 32 sizeofNoffHeader) = .ok (o, h') := by
  unfold main at hok
  split at hok
  · cases hok
  next i h1 hin =>
  obtain ⟨hcf, hc1⟩ := openRW_some hin
  rcases hot : h1.openTrunc noffName with ⟨o, h2⟩
  rw [hot] at hok
  obtain ⟨⟨sections, fdIn, h3⟩, hh, hok⟩ := bind_eq_ok.mp hok
  obtain ⟨w, hl, hok⟩ := bind_eq_ok.mp hok
  obtain ⟨⟨o', h4⟩, hw, hok⟩ := bind_eq_ok.mp hok
  cases hok
  obtain ⟨hs, hne, hino, hc3, hn3⟩ := readHeaders_ok hh rfl
  cases o with
  | none =>
    have hn : w.fdOut = none := foldlM_inv (P := fun _ w => w.fdOut = none)
      (fun _ _ _ _ hot hld => load_none hld hot) sections [] rfl hl
    rw [hn] at hw
    cases hw
  | some j =>
    obtain ⟨hn2, he, ho⟩ := openTrunc_some hot
    have ha : i ≠ j := by
      rintro rfl
      exact hne he
    have hc : h2.content i = h.content i := by rw [ho i ha, hc1]
    rw [hs, hc] at hl
    refine ⟨i, j, _, w, o', hcf, ⟨hino, ?_, ha, ⟨_, rfl, rfl, rfl⟩, ?_, ?_, rfl, rfl⟩, hl, hw⟩
    · rw [hc3]
      exact hc
    · rw [hc3]
      exact he
    · rw [hn3]
      exact hn2

end Coff2noff

end Nachos

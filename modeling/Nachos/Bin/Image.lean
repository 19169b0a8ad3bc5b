/-
  Nachos.Bin.Image — what `coff2noff` makes of a program's image.

  A section gives a byte to each of its virtual addresses: one of the COFF file, or zero if it
  is uninitialised data. So do the three segments of a NOFF file. Addresses and sizes are 32-bit
  words. The image is preserved (`Preserved`) if the segments give each address of a section the
  byte the section gives it, and cover no other.

  The tool puts a section at its physical address and never looks at the virtual one. The header
  has one slot for code and one for uninitialised data. A second `.text` section
  overwrites the first, and the sizes of `.bss` sections are added up whether they are
  contiguous or not: the test for that is the wrong way round, so that contiguous ones are refused.
  - `preserved_iff_kept`: the image is preserved exactly if the bytes of the sections are in the
    COFF file, sections agree where they overlap and lie in what the tool puts somewhere, and
    what it puts there is what sections give.
  - `kept_iff_plain`: if the two addresses of each section are equal and no two sections overlap,
    exactly if there is one `.text` section at most and the `.bss` sections end within the sum of
    their sizes, counted from the first.
-/

import Mathlib.Data.List.Pairwise
import Nachos.Bin.Coff2noff
import Nachos.Lib.Layout

namespace Nachos

open Lib List BitVec

/-! ## Images -/

/-- What a segment of the file `noff` puts where. -/
def Segment.Gives (noff : List Byte) (s : Segment) (a : Word) (b : Byte) : Prop :=
  s.range.Covers a ∧ noff[s.inFileAddr.toNat + (a - s.virtualAddr).toNat]? = some b

def NoffHeader.Covers (h : NoffHeader) (a : Word) : Prop :=
  h.code.range.Covers a ∨ h.initData.range.Covers a ∨ h.uninitData.range.Covers a

instance (h : NoffHeader) (a : Word) : Decidable (h.Covers a) := inferInstanceAs (Decidable (_ ∨ _ ∨ _))

/-- The image that a NOFF file denotes. -/
def NoffHeader.Gives (noff : List Byte) (h : NoffHeader) (a : Word) (b : Byte) : Prop :=
  h.code.Gives noff a b ∨ h.initData.Gives noff a b ∨ h.uninitData.range.Covers a ∧ b = 0

theorem NoffHeader.Gives.covers {noff : List Byte} {h : NoffHeader} {a : Word} {b : Byte} (hg : h.Gives noff a b) : h.Covers a :=
  hg.imp (·.1) fun hg => hg.imp (·.1) (·.1)

namespace Coff2noff

open Stub (Host Ino maxOffset)

/-- Byte `k` of a section. -/
def Scnhdr.byte (coff : List Byte) (s : Scnhdr) (k : Nat) : Option Byte :=
  match s.kind with
  | some .bss => some 0
  | some _ => coff[s.sScnptr.toNat + k]?
  | none => none

/-- The addresses of a section. -/
def Scnhdr.image (s : Scnhdr) : Lib.Range 32 := ⟨s.sVaddr, s.sSize⟩

def Scnhdr.Gives (coff : List Byte) (s : Scnhdr) (a : Word) (b : Byte) : Prop :=
  s.image.Covers a ∧ s.byte coff (a - s.sVaddr).toNat = some b

structure Preserved (coff : List Byte) (sections : List Scnhdr) (noff : List Byte) (h : NoffHeader) : Prop where
  assigned : ∀ s ∈ sections, ∀ a, s.image.Covers a → ∃ b, s.Gives coff a b ∧ ∀ b', h.Gives noff a b' ↔ b' = b
  only : ∀ a, h.Covers a → ∃ s ∈ sections, s.image.Covers a

/-- The header of a NOFF file, as the host that has written it reads it. -/
def headerOf (bigEndian : Bool) (noff : List Byte) : NoffHeader := .ofBytes bigEndian fun k => noff.getD k 0

/-! ## What becomes of the sections -/

/-- The sections of a kind that are not empty. -/
def ofKind (k : Kind) (sections : List Scnhdr) : List Scnhdr := sections.filter fun s => s.sSize ≠ 0 ∧ s.kind = some k

def lastOf (k : Kind) (sections : List Scnhdr) : Option Scnhdr := (ofKind k sections).getLast?

/-- What the `.bss` sections are merged to, from an empty range. -/
def mergedFrom (base : Word) (sections : List Scnhdr) : Lib.Range 32 :=
  ((ofKind .bss sections).map Scnhdr.range).foldl merge ⟨base, 0⟩

def mergedBss (sections : List Scnhdr) : Lib.Range 32 := mergedFrom 0 sections

/-- The bytes of the sections with bytes are in the file. -/
def Present (coff : List Byte) (sections : List Scnhdr) : Prop :=
  ∀ s ∈ ofKind .text sections ++ ofKind .data sections, s.sScnptr.toNat + s.sSize.toNat ≤ coff.length

variable {k : Kind} {o : Option Scnhdr} {v : Word} {r : Lib.Range 32} {sections : List Scnhdr} {s : Scnhdr}

theorem mem_ofKind :
    s ∈ ofKind k sections ↔ s ∈ sections ∧ s.sSize ≠ 0 ∧ s.kind = some k := by
  rw [ofKind, mem_filter, decide_eq_true_eq]

theorem mem_withBytes : s ∈ ofKind .text sections ++ ofKind .data sections ↔
    s ∈ sections ∧ s.sSize ≠ 0 ∧ (s.kind = some .text ∨ s.kind = some .data) := by
  simp only [mem_append, mem_ofKind, and_or_left]

/-- The section just loaded is the last of its kind. -/
theorem ofKind_append (hs : s.sSize ≠ 0) (hk : s.kind = some k) :
    ofKind k (sections ++ [s]) = ofKind k sections ++ [s] := by
  rw [ofKind, filter_append]
  exact congrArg (ofKind k sections ++ ·) (filter_cons_of_pos (decide_eq_true ⟨hs, hk⟩))

theorem ofKind_append_other (h : s.sSize = 0 ∨ s.kind ≠ some k) :
    ofKind k (sections ++ [s]) = ofKind k sections := by
  have hn : ¬ (s.sSize ≠ 0 ∧ s.kind = some k) := by
    rintro ⟨hs, hk⟩
    exact h.elim hs fun hne => hne hk
  rw [ofKind, filter_append]
  exact (congrArg (ofKind k sections ++ ·) (filter_cons_of_neg (by rw [decide_eq_true_eq]; exact hn))).trans (append_nil _)

theorem ofKind_append_ne {k' : Kind} (hk : s.kind = some k')
    (hne : some k' ≠ some k) : ofKind k (sections ++ [s]) = ofKind k sections :=
  ofKind_append_other (.inr (hk ▸ hne))

theorem mergedFrom_covers (base : Word) (sections : List Scnhdr) (a : Word) :
    (mergedFrom base sections).Covers a ↔ (mergedBss sections).Covers a := by
  unfold mergedBss mergedFrom
  cases ofKind .bss sections with
  | nil => exact iff_of_false (Range.not_covers_of_size rfl a) (Range.not_covers_of_size rfl a)
  | cons s rest => rfl

/-! ## Writing a file -/

section

variable {content bytes : List Byte} {offset i : Nat} {b : Byte}

theorem getElem?_splice_before (h : content[i]? = some b) (hi : i < offset) : (Host.splice content offset bytes)[i]? = some b := by
  have hlt := (List.getElem?_eq_some_iff.mp h).1
  unfold Host.splice
  split
  · exact h
  · rw [List.append_assoc, List.append_assoc, getElem?_append_left (by rw [List.length_take]; omega),
      getElem?_take_of_lt hi, h]

theorem getElem?_splice_at {k : Nat} (hk : k < bytes.length) : (Host.splice content offset bytes)[offset + k]? = bytes[k]? := by
  have hl : (content.take offset ++ List.replicate (offset - content.length) (0 : Byte)).length = offset := by
    rw [length_append, List.length_take, length_replicate]
    omega
  unfold Host.splice
  split
  · next hn =>
    rw [hn] at hk
    cases hk
  · rw [getElem?_append_left (by rw [length_append, hl]; omega), getElem?_append_right (by omega), hl,
      Nat.add_sub_cancel_left]

end

/-! ## The loop -/

/-- The bytes of the section are in the NOFF file, after the header. -/
structure IsCopy (coff noff : List Byte) (s : Scnhdr) (seg : Segment) : Prop where
  range : seg.range = s.range
  start : sizeofNoffHeader ≤ seg.inFileAddr.toNat
  bytes : ∀ k < s.sSize.toNat, ∃ b, coff[s.sScnptr.toNat + k]? = some b ∧ noff[seg.inFileAddr.toNat + k]? = some b

/-- The segment of the last section of its kind. -/
def Holds (coff noff : List Byte) (seg : Segment) : Option Scnhdr → Prop
  | none => seg.size = 0
  | some s => IsCopy coff noff s seg

theorem Holds.mono {coff noff noff' : List Byte} {seg : Segment} (h : Holds coff noff seg o)
    (hkp : ∀ i b, sizeofNoffHeader ≤ i → noff[i]? = some b → noff'[i]? = some b) : Holds coff noff' seg o := by
  cases o with
  | none => exact h
  | some s =>
    refine ⟨h.range, h.start, fun k hk => ?_⟩
    obtain ⟨b, hc, hn⟩ := h.bytes k hk
    exact ⟨b, hc, hkp _ b (Nat.le_trans h.start (Nat.le_add_right ..)) hn⟩

/-- The two open files: `i` is the COFF file, and `j` the NOFF file, written as far as `inNoffFile`. -/
structure Files (coff : List Byte) (i j : Ino) (noffName : List Byte) (w : Work) : Prop where
  source : w.fdIn.ino = i
  input : w.host.content i = coff
  target : ∃ fd, w.fdOut = some fd ∧ fd.ino = j ∧ fd.offset = w.inNoffFile.toNat ∧ (w.host.content j).length ≤ fd.offset
  start : sizeofNoffHeader ≤ w.inNoffFile.toNat
  names : w.host.names noffName = some j

/-- The loop has had the sections `done`. -/
structure Loaded (coff : List Byte) (i j : Ino) (noffName : List Byte) (stack : NoffHeader) (done : List Scnhdr) (w : Work) : Prop
    extends Files coff i j noffName w where
  code : Holds coff (w.host.content j) w.noffH.code (lastOf .text done)
  initData : Holds coff (w.host.content j) w.noffH.initData (lastOf .data done)
  single : (ofKind .data done).length ≤ 1
  uninitData : w.noffH.uninitData.range = mergedFrom stack.uninitData.virtualAddr done
  known : ∀ s ∈ done, s.sSize ≠ 0 → s.kind ≠ none

theorem Begun.loaded {coff noffName : List Byte} {i j : Ino} {stack : NoffHeader} {w : Work} (h : Begun coff i j noffName stack w) :
    Loaded coff i j noffName stack [] w := by
  obtain ⟨fd, hfd, hino, ho⟩ := h.target
  have hin : w.inNoffFile.toNat = sizeofNoffHeader := by rw [h.inNoffFile]; rfl
  refine ⟨⟨h.source, h.input, ⟨fd, hfd, hino, by rw [ho, hin], ?_⟩, Nat.le_of_eq hin.symm, h.names⟩, ?_, ?_, Nat.zero_le _, ?_, ?_⟩
  · rw [h.empty]
    exact Nat.zero_le _
  · rw [h.header]
    rfl
  · rw [h.header]
    rfl
  · rw [h.header]
    rfl
  · intro s hs
    cases hs

section

variable {coff noffName : List Byte} {i j : Ino} {stack : NoffHeader} {done : List Scnhdr} {w w' : Work} {s : Scnhdr} {seg : Segment}

/-- What `copy` does to the two files when the bytes of the section are there. -/
theorem Files.copy (h : Files coff i j noffName w) (hne : i ≠ j) (hcp : copy w s = .ok (seg, w'))
    (hp : s.sScnptr.toNat + s.sSize.toNat ≤ coff.length) :
    Files coff i j noffName w' ∧ w'.noffH = w.noffH ∧ IsCopy coff (w'.host.content j) s seg ∧
      ∀ (k : Nat) (b : Byte), (w.host.content j)[k]? = some b → (w'.host.content j)[k]? = some b := by
  obtain ⟨buffer, fdIn, h1, fdOut, h2, hr, hw, rfl, rfl⟩ := copy_ok hcp
  obtain ⟨fd, hfd, hin, ho, hl⟩ := h.target
  have hsm : coff.length ≤ maxOffset := h.input ▸ w.host.small i
  have hs : (w.fdIn.lseek s.sScnptr).ino = i ∧ (w.fdIn.lseek s.sScnptr).offset = s.sScnptr.toNat := by
    rw [Descriptor.lseek, dif_pos (by omega)]
    exact ⟨h.source, rfl⟩
  obtain ⟨hby, hc, hi1, -, hc1, hn1⟩ := read_ok hr (by omega)
  rw [hs.1, hs.2, h.input] at hby
  rw [hfd] at hw
  obtain ⟨fd', rfl, hi', ho', hc2, hn2⟩ := write_ok hw (by omega) hc
  rw [hin, hc1] at hc2
  have hj : h2.content j = Host.splice (w.host.content j) fd.offset buffer := by rw [hc2, Function.update_self]
  have hi : h2.content i = coff := by rw [hc2, Function.update_of_ne hne, h.input]
  have hn : (w.inNoffFile + s.sSize).toNat = fd'.offset := by
    have hf : fd'.offset ≤ maxOffset := fd'.fits
    rw [toNat_add, ← ho, ← ho']
    exact Nat.mod_eq_of_lt (by unfold maxOffset at hf; omega)
  have hst := h.start
  refine ⟨⟨hi1.trans hs.1, hi, ⟨fd', rfl, hi'.trans hin, hn.symm, ?_⟩, ?_, ?_⟩, rfl, ⟨rfl, hst, ?_⟩, ?_⟩
  · show (h2.content j).length ≤ fd'.offset
    rw [hj, Host.length_splice]
    split <;> omega
  · show sizeofNoffHeader ≤ (w.inNoffFile + s.sSize).toNat
    omega
  · show h2.names noffName = some j
    rw [hn2, hn1, h.names]
  · intro k hk
    have hlt : s.sScnptr.toNat + k < coff.length := by omega
    refine ⟨coff[s.sScnptr.toNat + k], List.getElem?_eq_getElem hlt, ?_⟩
    show (h2.content j)[w.inNoffFile.toNat + k]? = _
    rw [hj, ← ho, getElem?_splice_at (by omega), hby, getElem?_take_of_lt hk, getElem?_drop,
      List.getElem?_eq_getElem hlt]
  · intro k b hb
    show (h2.content j)[k]? = some b
    have hlt := (List.getElem?_eq_some_iff.mp hb).1
    rw [hj]
    exact getElem?_splice_before hb (by omega)

theorem Files.withHeader (h : Files coff i j noffName w) {noffH : NoffHeader} : Files coff i j noffName { w with noffH } :=
  ⟨h.source, h.input, h.target, h.start, h.names⟩

theorem known_append (hd : ∀ t ∈ done, t.sSize ≠ 0 → t.kind ≠ none) (hs : s.sSize ≠ 0 → s.kind ≠ none) :
    ∀ t ∈ done ++ [s], t.sSize ≠ 0 → t.kind ≠ none := by
  intro t ht
  rcases mem_append.mp ht with ht | ht
  · exact hd t ht
  · rw [mem_singleton.mp ht]
    exact hs

/-- An empty slot for initialised data: there was no section yet. -/
theorem Loaded.no_data (h : Loaded coff i j noffName stack done w) (he : w.noffH.initData.size = 0) : ofKind .data done = [] := by
  have hh := h.initData
  cases hl : lastOf .data done with
  | none => exact getLast?_eq_none_iff.mp hl
  | some t =>
    rw [hl] at hh
    have hs : w.noffH.initData.size = t.sSize := congrArg Range.size hh.range
    exact absurd (hs.symm.trans he) (mem_ofKind.mp (mem_of_getLast? hl)).2.1

theorem Loaded.load (h : Loaded coff i j noffName stack done w) (hne : i ≠ j) (hld : load w s = .ok w')
    (hp : Present coff (done ++ [s])) : Loaded coff i j noffName stack (done ++ [s]) w' := by
  have hl : s ∈ done ++ [s] := mem_append_right _ (mem_singleton_self s)
  rcases load_cases hld with ⟨hsz, rfl⟩ | ⟨hsz, ⟨hk, code, w1, hc, rfl⟩ | ⟨hk, he, initData, w1, hc, rfl⟩ |
    ⟨hk, u, hrange, rfl⟩⟩
  · have hsm : ∀ k, ofKind k (done ++ [s]) = ofKind k done := fun k => ofKind_append_other (.inl hsz)
    refine ⟨h.toFiles, ?_, ?_, ?_, ?_, known_append h.known fun hs => absurd hsz hs⟩
    · rw [lastOf, hsm]
      exact h.code
    · rw [lastOf, hsm]
      exact h.initData
    · rw [hsm]
      exact h.single
    · rw [mergedFrom, hsm]
      exact h.uninitData
  · obtain ⟨hf, hh, hcd, hkp⟩ := h.toFiles.copy hne hc (hp s (mem_withBytes.mpr ⟨hl, hsz, .inl hk⟩))
    refine ⟨hf.withHeader, ?_, ?_, ?_, ?_, known_append h.known fun _ => hk ▸ Option.some_ne_none _⟩
    · rw [lastOf, ofKind_append hsz hk, getLast?_concat]
      exact hcd
    · rw [lastOf, ofKind_append_ne hk (by decide)]
      exact hh ▸ h.initData.mono fun k b _ => hkp k b
    · rw [ofKind_append_ne hk (by decide)]
      exact h.single
    · rw [mergedFrom, ofKind_append_ne hk (by decide)]
      exact hh ▸ h.uninitData
  · obtain ⟨hf, hh, hd, hkp⟩ := h.toFiles.copy hne hc (hp s (mem_withBytes.mpr ⟨hl, hsz, .inr hk⟩))
    refine ⟨hf.withHeader, ?_, ?_, ?_, ?_, known_append h.known fun _ => hk ▸ Option.some_ne_none _⟩
    · rw [lastOf, ofKind_append_ne hk (by decide)]
      exact hh ▸ h.code.mono fun k b _ => hkp k b
    · rw [lastOf, ofKind_append hsz hk, getLast?_concat]
      exact hd
    · rw [ofKind_append hsz hk, h.no_data he]
      exact Nat.le_refl 1
    · rw [mergedFrom, ofKind_append_ne hk (by decide)]
      exact hh ▸ h.uninitData
  · refine ⟨h.toFiles.withHeader, ?_, ?_, ?_, ?_, known_append h.known fun _ => hk ▸ Option.some_ne_none _⟩
    · rw [lastOf, ofKind_append_ne hk (by decide)]
      exact h.code
    · rw [lastOf, ofKind_append_ne hk (by decide)]
      exact h.initData
    · rw [ofKind_append_ne hk (by decide)]
      exact h.single
    · rw [mergedFrom, ofKind_append hsz hk, map_append, foldl_append]
      exact hrange.trans (congrArg (merge · s.range) h.uninitData)

theorem Present.of_append {more : List Scnhdr} (h : Present coff (done ++ more)) : Present coff done := by
  intro t ht
  obtain ⟨hm, hs⟩ := mem_withBytes.mp ht
  exact h t (mem_withBytes.mpr ⟨mem_append_left _ hm, hs⟩)

theorem Begun.loop (h : Begun coff i j noffName stack w) (hlp : sections.foldlM Coff2noff.load w = .ok w')
    (hpr : Present coff sections) : Loaded coff i j noffName stack sections w' := by
  refine foldlM_inv (P := fun done w => Present coff done → Loaded coff i j noffName stack done w) ?_ sections []
    (fun _ => h.loaded) hlp hpr
  intro done s w w' hd hl hp
  exact (hd hp.of_append).load h.apart hl hp

end

/-! ## The header -/

section

variable {bigEndian : Bool}

/-- The four bytes of an `int` make it up again. -/
theorem hostWord_of {mem : Memory} {a : Nat} (h : ∀ k < 4, mem (a + k) = hostByte bigEndian 4 v k) :
    hostWord bigEndian mem a = v := by
  simp only [hostByte_eq] at h
  have h0 := h 0 (by decide)
  rw [hostWord, h 1 (by decide), h 2 (by decide), h 3 (by decide)]
  rw [Nat.add_zero] at h0
  rw [h0]
  cases bigEndian with
  | false => exact word.ofBytes_bytes v
  | true => exact word.ofBytes_bytes v

theorem getD_intBytes (rest : List Byte) {k : Nat} (hk : k < 4) (vs : List Word) : ∀ {m : Nat}, m < vs.length →
    (vs.flatMap (intBytes bigEndian) ++ rest).getD (4 * m + k) 0 = hostByte bigEndian 4 (vs.getD m 0) k := by
  induction vs with
  | nil =>
    intro m hm
    cases hm
  | cons v vs ih =>
    intro m hm
    have hl : (intBytes bigEndian v).length = 4 := rfl
    rw [flatMap_cons, List.append_assoc, getD_eq_getElem?_getD]
    cases m with
    | zero =>
      rw [getElem?_append_left (by omega), intBytes, getElem?_map, Nat.mul_zero, Nat.zero_add, getElem?_range hk]
      rfl
    | succ m =>
      rw [getElem?_append_right (by omega), hl, show 4 * (m + 1) + k - 4 = 4 * m + k by omega, ← getD_eq_getElem?_getD,
        ih (Nat.lt_of_succ_lt_succ hm)]
      rfl

theorem hostWord_intBytes (rest : List Byte) (vs : List Word) {m : Nat} (hm : m < vs.length) :
    hostWord bigEndian (fun k => (vs.flatMap (intBytes bigEndian) ++ rest).getD k 0) (4 * m) = vs.getD m 0 :=
  hostWord_of fun _ hk => getD_intBytes rest hk vs hm

/-- The header is read back from the start of the file. -/
theorem headerOf_append (h : NoffHeader) (rest : List Byte) : headerOf bigEndian (headerBytes bigEndian h ++ rest) = h := by
  simp (disch := simp) only [headerOf, NoffHeader.ofBytes, headerBytes, hostWord_intBytes]
  rfl

end

/-! ## Whole runs -/

/-- The NOFF file after the run. -/
structure Converted (coff : List Byte) (sections : List Scnhdr) (noff : List Byte) (h : NoffHeader) : Prop where
  code : Holds coff noff h.code (lastOf .text sections)
  initData : Holds coff noff h.initData (lastOf .data sections)
  single : (ofKind .data sections).length ≤ 1
  uninitData : ∀ a, h.uninitData.range.Covers a ↔ (mergedBss sections).Covers a
  known : ∀ s ∈ sections, s.sSize ≠ 0 → s.kind ≠ none

theorem splice_start {content bytes : List Byte} (h : bytes ≠ []) :
    Host.splice content 0 bytes = bytes ++ content.drop bytes.length := by
  rw [Host.splice, if_neg h, take_zero, Nat.zero_sub, List.replicate_zero, Nat.zero_add]
  rfl

theorem main_converted {bigEndian : Bool} {stack : NoffHeader} {coffName noffName : List Byte} {h h' : Host} {i j : Ino}
    (hok : main bigEndian stack coffName noffName h = .ok h') (hcf : h.names coffName = some i) (hnf : h'.names noffName = some j)
    (hp : Present (h.content i) (sectionsOf bigEndian (h.content i))) :
    Converted (h.content i) (sectionsOf bigEndian (h.content i)) (h'.content j) (headerOf bigEndian (h'.content j)) := by
  obtain ⟨i', j', w0, w, o, hc', hbg, hlp, hw⟩ := main_ok hok
  cases hcf.symm.trans hc'
  have hl := hbg.loop hlp hp
  obtain ⟨fd, hfd, hin, -, -⟩ := hl.target
  rw [hfd] at hw
  obtain ⟨fd', -, -, -, hc, hn⟩ := write_ok hw (by decide) rfl
  have hj : j' = j := Option.some.inj (hl.names.symm.trans (by rw [← hn, hnf]))
  subst hj
  have hf : h'.content j' = headerBytes bigEndian w.noffH ++ (w.host.content j').drop sizeofNoffHeader := by
    rw [hc, show ((fd.lseek 0).ino) = j' from hin, Function.update_self]
    exact splice_start fun hnl => Nat.succ_ne_zero 39 (congrArg List.length hnl)
  have hkp : ∀ (k : Nat) (b : Byte), sizeofNoffHeader ≤ k → (w.host.content j')[k]? = some b → (h'.content j')[k]? = some b := by
    intro k b hk hb
    rw [hf, getElem?_append_right hk, getElem?_drop]
    rwa [← Nat.add_sub_cancel' hk] at hb
  rw [hf, headerOf_append, ← hf]
  refine ⟨hl.code.mono hkp, hl.initData.mono hkp, hl.single, fun a => ?_, hl.known⟩
  rw [hl.uninitData]
  exact mergedFrom_covers ..

/-! ## Any layout -/

/-- The addresses of the segments, by the sections they come from. -/
def Slot (sections : List Scnhdr) (a : Word) : Prop :=
  (∃ s ∈ lastOf .text sections, s.range.Covers a) ∨ (∃ s ∈ ofKind .data sections, s.range.Covers a) ∨ (mergedBss sections).Covers a

/-- What the tool makes of a section. -/
def Scnhdr.Puts (coff : List Byte) (s : Scnhdr) (a : Word) (b : Byte) : Prop :=
  s.range.Covers a ∧ s.byte coff (a - s.sPaddr).toNat = some b

/-- The bytes of the segments, by the sections they come from. -/
def Put (coff : List Byte) (sections : List Scnhdr) (a : Word) (b : Byte) : Prop :=
  (∃ s ∈ lastOf .text sections, s.Puts coff a b) ∨ (∃ s ∈ ofKind .data sections, s.Puts coff a b) ∨
    (mergedBss sections).Covers a ∧ b = 0

structure Kept (coff : List Byte) (sections : List Scnhdr) : Prop where
  present : Present coff sections
  agree : ∀ s ∈ sections, ∀ t ∈ sections, ∀ a b c, s.Gives coff a b → t.Gives coff a c → b = c
  slots : ∀ k, ∀ s ∈ ofKind k sections, ∀ a, s.image.Covers a → Slot sections a
  put : ∀ a b, Put coff sections a b → ∃ s ∈ sections, s.Gives coff a b

section

variable {coff noff : List Byte} {sections : List Scnhdr} {h : NoffHeader} {s : Scnhdr} {a : Word} {b : Byte}

theorem size_of_covers (ha : r.Covers a) : r.size ≠ 0 := fun h => Range.not_covers_of_size h a ha

theorem byte_of_file (hk : s.kind = some .text ∨ s.kind = some .data) (k : Nat) : s.byte coff k = coff[s.sScnptr.toNat + k]? := by
  rcases hk with hk | hk <;> rw [Scnhdr.byte, hk]

theorem IsCopy.gives_iff {seg : Segment} (hc : IsCopy coff noff s seg) (hk : s.kind = some .text ∨ s.kind = some .data) :
    seg.Gives noff a b ↔ s.Puts coff a b := by
  have hb : seg.virtualAddr = s.sPaddr := congrArg Range.base hc.range
  rw [Segment.Gives, Scnhdr.Puts, hc.range, byte_of_file hk, hb]
  refine and_congr_right fun ha => ?_
  obtain ⟨b', hcf, hn⟩ := hc.bytes (a - s.sPaddr).toNat ha
  rw [hcf, hn]

theorem Holds.gives_iff {seg : Segment} (hh : Holds coff noff seg o)
    (hk : ∀ s ∈ o, s.kind = some .text ∨ s.kind = some .data) : seg.Gives noff a b ↔ ∃ s ∈ o, s.Puts coff a b := by
  cases o with
  | none => exact iff_of_false (fun hg => size_of_covers hg.1 hh) (by rintro ⟨s, hs, -⟩; cases hs)
  | some s =>
    rw [IsCopy.gives_iff hh (hk s rfl)]
    exact ⟨fun hg => ⟨s, rfl, hg⟩, fun ⟨t, ht, hg⟩ => by cases ht; exact hg⟩

theorem Holds.covers_iff {seg : Segment} (hh : Holds coff noff seg o) :
    seg.range.Covers a ↔ ∃ s ∈ o, s.range.Covers a := by
  cases o with
  | none => exact iff_of_false (fun hc => size_of_covers hc hh) (by rintro ⟨s, hs, -⟩; cases hs)
  | some s =>
    rw [hh.range]
    exact ⟨fun hc => ⟨s, rfl, hc⟩, fun ⟨t, ht, hc⟩ => by cases ht; exact hc⟩

theorem mem_lastOf (hs : s ∈ lastOf k sections) : s ∈ sections ∧ s.sSize ≠ 0 ∧ s.kind = some k :=
  mem_ofKind.mp (mem_of_getLast? hs)

theorem mem_getLast?_iff {l : List Scnhdr} (hl : l.length ≤ 1) : s ∈ l.getLast? ↔ s ∈ l := by
  rcases l with _ | ⟨t, _ | ⟨u, l⟩⟩
  · simp
  · simp [eq_comm]
  · simp at hl

/-- There is only one section of initialised data. -/
theorem Converted.mem_data (hc : Converted coff sections noff h) : s ∈ lastOf .data sections ↔ s ∈ ofKind .data sections :=
  mem_getLast?_iff hc.single

theorem Converted.covers_iff (hc : Converted coff sections noff h) : h.Covers a ↔ Slot sections a := by
  rw [NoffHeader.Covers, hc.code.covers_iff, hc.initData.covers_iff, hc.uninitData]
  simp only [hc.mem_data]
  rfl

theorem Converted.gives_iff (hc : Converted coff sections noff h) : h.Gives noff a b ↔ Put coff sections a b := by
  rw [NoffHeader.Gives, hc.code.gives_iff fun s hs => .inl (mem_lastOf hs).2.2,
    hc.initData.gives_iff fun s hs => .inr (mem_lastOf hs).2.2, hc.uninitData]
  simp only [hc.mem_data]
  rfl

/-- With the bytes in the file, a section has all its bytes. -/
theorem exists_byte (hp : Present coff sections) (hkno : ∀ s ∈ sections, s.sSize ≠ 0 → s.kind ≠ none) (hs : s ∈ sections)
    {n : Nat} (hlt : n < s.sSize.toNat) : ∃ b, s.byte coff n = some b := by
  have hsz : s.sSize ≠ 0 := fun e => Nat.not_lt_zero n (by rwa [e] at hlt)
  have hf : s.kind = some .text ∨ s.kind = some .data → ∃ b, s.byte coff n = some b := by
    intro hkn
    have hin := hp s (mem_withBytes.mpr ⟨hs, hsz, hkn⟩)
    exact ⟨_, (byte_of_file hkn _).trans (List.getElem?_eq_getElem (by omega))⟩
  cases hkn : s.kind with
  | none => exact absurd hkn (hkno s hs hsz)
  | some k =>
    cases k with
    | text => exact hf (.inl hkn)
    | data => exact hf (.inr hkn)
    | bss => exact ⟨0, by rw [Scnhdr.byte, hkn]⟩

/-- The last byte of a section is in the file. -/
theorem Preserved.present (hp : Preserved coff sections noff h) : Present coff sections := by
  intro s hs
  obtain ⟨hm, hsz, hk⟩ := mem_withBytes.mp hs
  have hps : s.sSize.toNat ≠ 0 := fun e => hsz (eq_of_toNat_eq e)
  have hl : s.sSize.toNat - 1 < s.image.size.toNat := show s.sSize.toNat - 1 < s.sSize.toNat by omega
  obtain ⟨b, hb, -⟩ := hp.assigned s hm _ (s.image.covers_address hl)
  have hby := hb.2
  rw [byte_of_file hk, show (s.image.address (s.sSize.toNat - 1) - s.sVaddr).toNat = s.sSize.toNat - 1 from
    s.image.address_offset hl] at hby
  have hlt := (List.getElem?_eq_some_iff.mp hby).1
  omega

theorem Scnhdr.Gives.unique {c : Byte} (hb : s.Gives coff a b) (hc : s.Gives coff a c) : b = c :=
  Option.some.inj (hb.2.symm.trans hc.2)

theorem Converted.kept (hc : Converted coff sections noff h) (hp : Preserved coff sections noff h) : Kept coff sections := by
  refine ⟨hp.present, ?_, ?_, ?_⟩
  · intro s hs t ht a b c hb hc
    obtain ⟨b', hb', hif⟩ := hp.assigned s hs a hb.1
    obtain ⟨c', hc', hi'⟩ := hp.assigned t ht a hc.1
    calc
      b = b' := hb.unique hb'
      _ = c' := (hi' b').mp ((hif b').mpr rfl)
      _ = c := hc'.unique hc
  · intro k s hs a ha
    obtain ⟨b, -, hif⟩ := hp.assigned s (mem_ofKind.mp hs).1 a ha
    exact hc.covers_iff.mp ((hif b).mpr rfl).covers
  · intro a b hput
    have hg := hc.gives_iff.mpr hput
    obtain ⟨s, hs, hcv⟩ := hp.only a hg.covers
    obtain ⟨b', hb', hif⟩ := hp.assigned s hs a hcv
    exact ⟨s, hs, (hif b).mp hg ▸ hb'⟩

/-- Every address of a section is in a segment. -/
theorem Kept.slot (hk : Kept coff sections) (hc : Converted coff sections noff h) (hs : s ∈ sections) (ha : s.image.Covers a) :
    Slot sections a := by
  have hsz : s.sSize ≠ 0 := size_of_covers ha
  cases hkn : s.kind with
  | none => exact absurd hkn (hc.known s hs hsz)
  | some k => exact hk.slots k s (mem_ofKind.mpr ⟨hs, hsz, hkn⟩) a ha

theorem Kept.exists_gives (hk : Kept coff sections) (hc : Converted coff sections noff h) (ha : Slot sections a) :
    ∃ b, h.Gives noff a b := by
  simp only [hc.gives_iff]
  rcases ha with ⟨s, hs, ha⟩ | ⟨s, hs, ha⟩ | ha
  · obtain ⟨b, hb⟩ := exists_byte hk.present hc.known (mem_lastOf hs).1 ha
    exact ⟨b, .inl ⟨s, hs, ha, hb⟩⟩
  · obtain ⟨b, hb⟩ := exists_byte hk.present hc.known (mem_ofKind.mp hs).1 ha
    exact ⟨b, .inr (.inl ⟨s, hs, ha, hb⟩)⟩
  · exact ⟨0, .inr (.inr ⟨ha, rfl⟩)⟩

theorem Kept.preserved (hk : Kept coff sections) (hc : Converted coff sections noff h) : Preserved coff sections noff h := by
  refine ⟨fun s hs a ha => ?_, fun a ha => ?_⟩
  · obtain ⟨b, hb⟩ := exists_byte hk.present hc.known hs ha
    have hsm : ∀ b', h.Gives noff a b' → b' = b := by
      intro b' hg
      obtain ⟨t, ht, hb'⟩ := hk.put a b' (hc.gives_iff.mp hg)
      exact hk.agree t ht s hs a b' b hb' ⟨ha, hb⟩
    refine ⟨b, ⟨ha, hb⟩, fun b' => ⟨hsm b', ?_⟩⟩
    rintro rfl
    obtain ⟨c, hg⟩ := hk.exists_gives hc (hk.slot hc hs ha)
    exact hsm c hg ▸ hg
  · obtain ⟨b, hg⟩ := hk.exists_gives hc (hc.covers_iff.mp ha)
    obtain ⟨s, hs, hb⟩ := hk.put a b (hc.gives_iff.mp hg)
    exact ⟨s, hs, hb.1⟩

end

theorem preserved_iff_kept {bigEndian : Bool} {stack : NoffHeader} {coffName noffName : List Byte} {h h' : Host} {i j : Ino}
    (hok : main bigEndian stack coffName noffName h = .ok h') (hc : h.names coffName = some i)
    (hn : h'.names noffName = some j) :
    let sections := sectionsOf bigEndian (h.content i)
    Preserved (h.content i) sections (h'.content j) (headerOf bigEndian (h'.content j)) ↔ Kept (h.content i) sections := by
  refine ⟨fun hp => ?_, fun hk => ?_⟩
  · exact (main_converted hok hc hn hp.present).kept hp
  · exact hk.preserved (main_converted hok hc hn hk.present)

/-! ## Sections that do not overlap -/

/-- No address is in two sections. -/
def Apart (sections : List Scnhdr) : Prop := sections.Pairwise fun s t => ∀ a, s.range.Covers a → ¬ t.range.Covers a

/-- Each section is put at its virtual address. -/
def InPlace (sections : List Scnhdr) : Prop := ∀ s ∈ sections, s.sSize ≠ 0 → s.sPaddr = s.sVaddr

def bssRanges (sections : List Scnhdr) : List (Lib.Range 32) := (ofKind .bss sections).map Scnhdr.range

structure Plain (coff : List Byte) (sections : List Scnhdr) : Prop where
  present : Present coff sections
  text : (ofKind .text sections).length ≤ 1
  small : Lib.Range.total (bssRanges sections) < 4294967296
  bss : ∀ first ∈ (bssRanges sections).head?, ∀ r ∈ bssRanges sections,
    (r.base - first.base).toNat + r.size.toNat ≤ Lib.Range.total (bssRanges sections)

theorem toNat_ne_zero (h : v ≠ 0) : v.toNat ≠ 0 := fun e => h (eq_of_toNat_eq e)

/-- As long as the sizes add up to at most 2^32, merging adds them. -/
theorem foldl_merge (rs : List (Range 32)) : ∀ {m : Range 32}, m.size ≠ 0 → (∀ r ∈ rs, r.size ≠ 0) →
    m.size.toNat + Range.total rs ≤ 4294967296 →
    rs.foldl merge m = ⟨m.base, m.size + BitVec.ofNat 32 (Range.total rs)⟩ := by
  induction rs with
  | nil =>
    intro m _ _ _
    rw [Range.total, BitVec.add_zero]
    rfl
  | cons r rs ih =>
    intro m hm hrs ht
    have hs : m.size + BitVec.ofNat 32 (Range.total (r :: rs)) = m.size + r.size + BitVec.ofNat 32 (Range.total rs) := by
      rw [Range.total, ofNat_add, ofNat_word, BitVec.add_assoc]
    rw [foldl_cons, merge, if_pos hm, hs]
    cases rs with
    | nil =>
      rw [Range.total, BitVec.add_zero]
      rfl
    | cons q rs =>
      -- the sum so far is below 2^32, since `q` is not empty
      have hq := toNat_ne_zero (hrs q (mem_cons_of_mem _ mem_cons_self))
      have hp := toNat_ne_zero hm
      rw [Range.total, Range.total] at ht
      have hto : (m.size + r.size).toNat = m.size.toNat + r.size.toNat := by
        rw [toNat_add]
        exact Nat.mod_eq_of_lt (by omega)
      refine ih (m := ⟨m.base, m.size + r.size⟩) (fun hz => ?_) (fun q hq => hrs q (mem_cons_of_mem _ hq)) ?_
      · have hn : (m.size + r.size).toNat = 0 := congrArg BitVec.toNat hz
        omega
      · rw [Range.total]
        show (m.size + r.size).toNat + _ ≤ _
        omega

section

variable {coff : List Byte} {sections : List Scnhdr}

theorem InPlace.covers_iff {s : Scnhdr} {a : Word} (h : InPlace sections) (hs : s ∈ sections) :
    s.image.Covers a ↔ s.range.Covers a := by
  by_cases hz : s.sSize = 0
  · exact iff_of_false (Range.not_covers_of_size hz a) (Range.not_covers_of_size hz a)
  · rw [Scnhdr.image, Scnhdr.range, h s hs hz]

theorem InPlace.gives {s : Scnhdr} {a : Word} {b : Byte} (h : InPlace sections) (hs : s ∈ sections) (hp : s.Puts coff a b) :
    s.Gives coff a b := by
  refine ⟨(h.covers_iff hs).mpr hp.1, ?_⟩
  rw [← h s hs (size_of_covers hp.1)]
  exact hp.2

theorem Apart.eq {s t : Scnhdr} {a : Word} (h : Apart sections) (hs : s ∈ sections) (ht : t ∈ sections) (hsa : s.range.Covers a)
    (hta : t.range.Covers a) : s = t := by
  by_contra hne
  have hsy : Std.Symm fun s t : Scnhdr => ∀ a, s.range.Covers a → ¬ t.range.Covers a := ⟨fun s t h a ht hs => h a hs ht⟩
  exact List.Pairwise.forall h hs ht hne a hsa hta

theorem Apart.kind {s t : Scnhdr} {a : Word} {k' : Kind} (h : Apart sections) (hs : s ∈ ofKind k sections)
    (ht : t ∈ ofKind k' sections) (hsa : s.range.Covers a) (hta : t.range.Covers a) : k = k' := by
  obtain ⟨hm, -, hk⟩ := mem_ofKind.mp hs
  obtain ⟨hm', -, hk'⟩ := mem_ofKind.mp ht
  cases h.eq hm hm' hsa hta
  exact Option.some.inj (hk.symm.trans hk')

theorem Apart.ofKind (h : Apart sections) (k : Kind) : Apart (ofKind k sections) := h.sublist filter_sublist

theorem Apart.bss (h : Apart sections) : Range.Apart (bssRanges sections) := pairwise_map.mpr (h.ofKind .bss)

theorem mem_bssRanges : r ∈ bssRanges sections ↔ ∃ s ∈ ofKind .bss sections, s.range = r := mem_map

theorem Apart.merged {first : Range 32} {rest : List (Range 32)} (h : Apart sections)
    (hrs : bssRanges sections = first :: rest) :
    mergedBss sections = ⟨first.base, BitVec.ofNat 32 (Range.total (bssRanges sections))⟩ := by
  have hsz : ∀ r ∈ bssRanges sections, r.size ≠ 0 := by
    intro r hr
    obtain ⟨s, hs, rfl⟩ := mem_bssRanges.mp hr
    exact (mem_ofKind.mp hs).2.1
  have ht := Range.total_le_pow h.bss
  have hm : mergedBss sections = (bssRanges sections).foldl merge ⟨0, 0⟩ := rfl
  rw [hrs] at hsz ht hm ⊢
  rw [hm, foldl_cons, Range.total, ofNat_add, ofNat_word]
  exact foldl_merge rest (hsz first mem_cons_self) (fun r hr => hsz r (mem_cons_of_mem _ hr)) ht

theorem Apart.size_le (h : Apart sections) : (mergedBss sections).size.toNat ≤ Range.total (bssRanges sections) := by
  cases hrs : bssRanges sections with
  | nil =>
    have hm : mergedBss sections = (bssRanges sections).foldl merge ⟨0, 0⟩ := rfl
    rw [hm, hrs]
    exact Nat.zero_le _
  | cons first rest =>
    rw [h.merged hrs, ← hrs]
    exact Nat.le_trans (Nat.le_of_eq (toNat_ofNat ..)) (Nat.mod_le ..)

/-- Without overlaps only the merged range can hold a `.bss` section. -/
theorem Kept.sub (hk : Kept coff sections) (h : Apart sections) (hv : InPlace sections) :
    ∀ r ∈ bssRanges sections, ∀ a, r.Covers a → (mergedBss sections).Covers a := by
  intro r hr a ha
  obtain ⟨s, hs, rfl⟩ := mem_bssRanges.mp hr
  rcases hk.slots _ s hs a ((hv.covers_iff (mem_ofKind.mp hs).1).mpr ha) with ⟨t, ht, hta⟩ | ⟨t, ht, hta⟩ | hm
  · cases h.kind hs (mem_of_getLast? ht) ha hta
  · cases h.kind hs ht ha hta
  · exact hm

/-- An earlier `.text` section has no place: the merged range has the size of the `.bss` sections. -/
theorem Kept.text (hk : Kept coff sections) (h : Apart sections) (hv : InPlace sections) : (ofKind .text sections).length ≤ 1 := by
  rcases eq_nil_or_concat (ofKind .text sections) with hn | ⟨_ | ⟨s, init⟩, t, hl⟩
  · rw [hn]
    exact Nat.zero_le 1
  · rw [hl]
    exact Nat.le_refl 1
  · have ht := hl.trans (concat_eq_append ..)
    have hs : s ∈ ofKind .text sections := by rw [ht]; exact mem_cons_self
    have ha := h.ofKind .text
    rw [ht] at ha
    obtain ⟨hmm, hsz, -⟩ := mem_ofKind.mp hs
    have hb := Range.exists_covers (r := s.range) hsz
    rcases hk.slots _ s hs _ ((hv.covers_iff hmm).mpr hb) with ⟨u, hu, hc⟩ | ⟨u, hu, hc⟩ | hm
    · rw [lastOf, ht, getLast?_append_cons] at hu
      cases hu
      exact absurd hc ((pairwise_cons.mp ha).1 t (mem_append_right _ (mem_singleton_self t)) _ hb)
    · cases h.kind hs hu hb hc
    · obtain ⟨r, hr, hc⟩ := Range.covered_of_total h.bss (hk.sub h hv) h.size_le hm
      obtain ⟨u, hu, rfl⟩ := mem_bssRanges.mp hr
      cases h.kind hs hu hb hc

theorem Kept.plain (hk : Kept coff sections) (h : Apart sections) (hv : InPlace sections) : Plain coff sections := by
  have hsb := hk.sub h hv
  have hle := Range.total_le h.bss hsb
  refine ⟨hk.present, hk.text h hv, Nat.lt_of_le_of_lt hle (mergedBss sections).size.isLt, ?_⟩
  intro first hf r hr
  obtain ⟨rest, hrs⟩ := head?_eq_some_iff.mp hf
  obtain ⟨s, hs, rfl⟩ := mem_bssRanges.mp hr
  have he := (Range.subset_iff (mem_ofKind.mp hs).2.1).mp (hsb _ hr)
  rw [h.merged hrs] at he
  exact Nat.le_trans he (h.merged hrs ▸ h.size_le)

theorem Plain.sub (hp : Plain coff sections) (h : Apart sections) :
    ∀ r ∈ bssRanges sections, ∀ a, r.Covers a → (mergedBss sections).Covers a := by
  intro r hr
  obtain ⟨first, rest, hrs⟩ := exists_cons_of_ne_nil (ne_nil_of_mem hr)
  obtain ⟨s, hs, rfl⟩ := mem_bssRanges.mp hr
  rw [Range.subset_iff (mem_ofKind.mp hs).2.1, h.merged hrs]
  show _ ≤ (BitVec.ofNat 32 (Range.total (bssRanges sections))).toNat
  rw [toNat_ofNat, Nat.mod_eq_of_lt hp.small]
  exact hp.bss first (by rw [hrs]; rfl) _ hr

theorem Plain.kept (hp : Plain coff sections) (h : Apart sections) (hv : InPlace sections) : Kept coff sections := by
  refine ⟨hp.present, ?_, ?_, ?_⟩
  · intro s hs t ht a b c hb hc
    cases h.eq hs ht ((hv.covers_iff hs).mp hb.1) ((hv.covers_iff ht).mp hc.1)
    exact hb.unique hc
  · intro k s hs a ha
    rw [hv.covers_iff (mem_ofKind.mp hs).1] at ha
    cases k with
    | text => exact .inl ⟨s, (mem_getLast?_iff hp.text).mpr hs, ha⟩
    | data => exact .inr (.inl ⟨s, hs, ha⟩)
    | bss => exact .inr (.inr (hp.sub h _ (mem_map_of_mem hs) a ha))
  · rintro a b (⟨s, hs, hb⟩ | ⟨s, hs, hb⟩ | ⟨ha, rfl⟩)
    · exact ⟨s, (mem_lastOf hs).1, hv.gives (mem_lastOf hs).1 hb⟩
    · exact ⟨s, (mem_ofKind.mp hs).1, hv.gives (mem_ofKind.mp hs).1 hb⟩
    · obtain ⟨r, hr, hcv⟩ := Range.covered_of_total h.bss (hp.sub h) h.size_le ha
      obtain ⟨s, hs, rfl⟩ := mem_bssRanges.mp hr
      obtain ⟨hm, -, hk⟩ := mem_ofKind.mp hs
      exact ⟨s, hm, hv.gives hm ⟨hcv, by rw [Scnhdr.byte, hk]⟩⟩

theorem kept_iff_plain (h : Apart sections) (hv : InPlace sections) : Kept coff sections ↔ Plain coff sections :=
  ⟨fun hk => hk.plain h hv, fun hp => hp.kept h hv⟩

end

/-- After a run that reports no error, the NOFF file denotes the image of the COFF file exactly if the sections
    are kept; where none overlap and each is put in its place, exactly if they are plain. -/
theorem image_iff {bigEndian : Bool} {stack : NoffHeader} {coffName noffName : List Byte} {h h' : Host} {i j : Ino}
    (hok : main bigEndian stack coffName noffName h = .ok h') (hcoff : h.names coffName = some i)
    (hnoff : h'.names noffName = some j) :
    let sections := sectionsOf bigEndian (h.content i)
    let preserved := Preserved (h.content i) sections (h'.content j) (headerOf bigEndian (h'.content j))
    (preserved ↔ Kept (h.content i) sections) ∧
      (Apart sections → InPlace sections → (preserved ↔ Plain (h.content i) sections)) := by
  have hkept := preserved_iff_kept hok hcoff hnoff
  exact ⟨hkept, fun hapart hplace => hkept.trans (kept_iff_plain hapart hplace)⟩

/-- A COFF file with these section headers and bytes. -/
def coffFile (numsections : Byte) (rest : List Byte) : List Byte :=
  [0x62, 0x01, numsections, 0] ++ List.replicate 16 0 ++ [0x07, 0x01] ++ List.replicate 54 0 ++ rest

/-- The header of a section with small numbers. -/
def smallScnhdr (name : List Byte) (paddr vaddr size scnptr : Byte) : List Byte :=
  (name ++ List.replicate 8 0).take 8 ++ [paddr, 0, 0, 0, vaddr, 0, 0, 0, size, 0, 0, 0, scnptr, 0, 0, 0] ++ List.replicate 16 0

/-- A host with the file "a". -/
def hostWith (coff : List Byte) (hsmall : coff.length ≤ maxOffset) : Host where
  names name := if name = [97] then some 0 else none
  created := 1
  content i := if i = 0 then coff else []
  answers := []
  small i := by
    split
    · exact hsmall
    · exact Nat.zero_le _

def dirtyStack : NoffHeader := ⟨0, ⟨7, 7, 7⟩, ⟨7, 7, 7⟩, ⟨7, 7, 7⟩⟩

/-- .text, .data and .bss, one after the other. -/
def threeSections : List Byte :=
  coffFile 3 (smallScnhdr [46, 116, 101, 120, 116] 0 0 4 196 ++ smallScnhdr [46, 100, 97, 116, 97] 4 4 4 200 ++
    smallScnhdr [46, 98, 115, 115] 8 8 4 0 ++ [1, 2, 3, 4, 5, 6, 7, 8])

/-- Two sections .text. -/
def twoTexts : List Byte :=
  coffFile 2 (smallScnhdr [46, 116, 101, 120, 116] 0 0 4 156 ++ smallScnhdr [46, 116, 101, 120, 116] 4 4 4 160 ++
    [1, 2, 3, 4, 5, 6, 7, 8])

/-- .bss, and .sbss 12 bytes behind its end. -/
def gappedBss : List Byte := coffFile 2 (smallScnhdr [46, 98, 115, 115] 0 0 4 0 ++ smallScnhdr [46, 115, 98, 115, 115] 16 16 4 0)

/-- A section .text with the virtual address 8 and the physical address 0. -/
def movedText : List Byte := coffFile 1 (smallScnhdr [46, 116, 101, 120, 116] 0 8 4 116 ++ [1, 2, 3, 4])

theorem small_examples : threeSections.length ≤ maxOffset ∧ twoTexts.length ≤ maxOffset ∧ gappedBss.length ≤ maxOffset ∧
    movedText.length ≤ maxOffset := by
  decide +kernel

/-- The usual program keeps its image. -/
theorem image_of_three : ∃ h', main false dirtyStack [97] [98] (hostWith threeSections small_examples.1) = .ok h' ∧
    Preserved threeSections (sectionsOf false threeSections) (h'.content 1) (headerOf false (h'.content 1)) := by
  obtain ⟨h', hok, hnames⟩ := exists_ok (x := main false dirtyStack [97] [98] (hostWith threeSections small_examples.1))
    (fun h' => h'.names [98] == some 1) (by decide +kernel)
  have hsections : sectionsOf false threeSections =
      [⟨[46, 116, 101, 120, 116, 0, 0, 0], 0, 0, 4, 196⟩, ⟨[46, 100, 97, 116, 97, 0, 0, 0], 4, 4, 4, 200⟩,
        ⟨[46, 98, 115, 115, 0, 0, 0, 0], 8, 8, 4, 0⟩] := by
    decide +kernel
  refine ⟨h', hok, ((image_iff hok rfl (beq_iff_eq.mp hnames)).2 ?_ ?_).mpr ?_⟩
  · show Apart (sectionsOf false threeSections)
    rw [hsections]
    simp only [Apart, List.pairwise_cons, List.mem_cons, List.not_mem_nil, or_false, forall_eq_or_imp, forall_eq, false_imp_iff,
      implies_true, List.Pairwise.nil, and_true, Scnhdr.range, Range.Covers]
    refine ⟨⟨fun a h₁ h₂ => ?_, fun a h₁ h₂ => ?_⟩, fun a h₁ h₂ => ?_⟩ <;> bv_omega
  · show InPlace (sectionsOf false threeSections)
    rw [hsections]
    unfold InPlace
    decide +kernel
  · show Plain threeSections (sectionsOf false threeSections)
    rw [hsections]
    refine ⟨?_, by decide +kernel, by decide +kernel, by decide +kernel⟩
    unfold Present
    decide +kernel

theorem not_preserved {coff noff : List Byte} {sections : List Scnhdr} {h : NoffHeader} {a : Word}
    (hs : ∃ s ∈ sections, s.image.Covers a) (ha : ¬ h.Covers a) : ¬ Preserved coff sections noff h := by
  obtain ⟨s, hs, hc⟩ := hs
  intro hp
  obtain ⟨b, -, hif⟩ := hp.assigned s hs a hc
  exact ha ((hif b).mpr rfl).covers

/-- A run that returns without error and loses part of the image. -/
def Loses (coff : List Byte) (hsmall : coff.length ≤ maxOffset) : Prop :=
  ∃ h', main false dirtyStack [97] [98] (hostWith coff hsmall) = .ok h' ∧ h'.names [98] = some 1 ∧
    ¬ Preserved coff (sectionsOf false coff) (h'.content 1) (headerOf false (h'.content 1))

theorem loses_of {coff : List Byte} {hsmall : coff.length ≤ maxOffset} (a : Word)
    (hs : ∃ s ∈ sectionsOf false coff, s.image.Covers a)
    (hrun : ((main false dirtyStack [97] [98] (hostWith coff hsmall)).toOption.any fun h' =>
      h'.names [98] == some 1 && !decide ((headerOf false (h'.content 1)).Covers a)) = true) : Loses coff hsmall := by
  obtain ⟨h', hok, htest⟩ := exists_ok _ hrun
  simp only [Bool.and_eq_true, beq_iff_eq, Bool.not_eq_true', decide_eq_false_iff_not] at htest
  exact ⟨h', hok, htest.1, not_preserved hs htest.2⟩

/-- The first of two sections .text is lost, so is .sbss behind a gap, and so is a section whose two
    addresses differ. -/
theorem image_lost : Loses twoTexts small_examples.2.1 ∧ Loses gappedBss small_examples.2.2.1 ∧
    Loses movedText small_examples.2.2.2 :=
  ⟨loses_of 0 (by decide +kernel) (by decide +kernel), loses_of 16 (by decide +kernel) (by decide +kernel),
    loses_of 8 (by decide +kernel) (by decide +kernel)⟩

end Coff2noff

end Nachos

/-
  Nachos.Userprog.Strings — ReadString and PrintString.

  ReadString(buf, n) has the console fill a buffer of the kernel that is one byte longer than
  the user's. That byte is the terminator when the line fills the rest, and `System2User` does
  not copy it.
  - `readString_ok`: what is in the process's memory after it, for every line.
  PrintString counts the characters up to the terminator and writes one more.
  - `printString_eq`: it writes at most 255 of them, and a zero byte.
  - `strings_iff`: so ReadString is right for lines shorter than the buffer, and PrintString for
    no string.
-/

import Nachos.Userprog.Numbers
import Nachos.Userprog.ProgramNames
import Nachos.Userprog.Writing

namespace Nachos

open Handler List
open SynchConsole (Line receive ends)
open Lib

variable {W : Type} {b : Byte} {s : List Byte}

/-! ## A buffer that can be written -/

section

variable {m : Machine} {t : List TranslationEntry}

theorem Writable.holds (ht : OnTable m t) (n : Nat) : ∀ {va : Word}, m.Writable va n → ∃ bytes : List Byte, bytes.length = n ∧
    m.Holds va bytes := by
  induction n with
  | zero => exact fun _ => ⟨[], rfl, trivial⟩
  | succ n ih =>
    intro va hw
    obtain ⟨pa, hp⟩ := Option.isSome_iff_exists.mp (hw 0 (Nat.succ_pos n))
    rw [show va + BitVec.ofNat 32 0 = va by simp] at hp
    obtain ⟨bytes, hl, hh⟩ := ih (Writable.tail hw)
    refine ⟨m.mainMemory pa :: bytes, by rw [length_cons, hl], ?_, hh⟩
    rw [Machine.userByte, phys_read ht hp, Option.map_some]

/-- It is not larger than main memory. -/
theorem Writable.length_le (ht : OnTable m t) (hn : (framesOf t).Nodup) {va : Word} {n : Nat} (hw : m.Writable va n)
    (hlt : n < 4294967296) : n ≤ memorySize := by
  obtain ⟨bytes, rfl, hh⟩ := Writable.holds ht n hw
  exact hh.length_le ht hn hlt

end

/-! ## What the console delivers -/

/-- A character that can be printed. -/
def Printable (b : Byte) : Prop := 32 ≤ b.toNat ∧ b.toNat ≤ 126

instance : DecidablePred Printable := fun b => inferInstanceAs (Decidable (32 ≤ b.toNat ∧ b.toNat ≤ 126))

theorem Printable.not_ends : Printable b → ¬ ends b := by
  revert b
  decide

theorem Printable.ne_zero : Printable b → b ≠ 0 := by
  revert b
  decide

section

variable {line rest : List Byte} {last : Byte} {n : Nat} {l : Line}

/-- The line, or as much of it as there is room for. -/
theorem line_stored (hln : ∀ b ∈ line, Printable b) (hls : ends last)
    (h : SynchConsole.line n (line ++ last :: rest) = some l) : l.stored = line.take n := by
  by_cases hl : line.length < n
  · rw [SynchConsole.line_ended rest (fun ch hch => (hln ch hch).not_ends) hl hls] at h
    cases h
    exact (take_of_length_le (Nat.le_of_lt hl)).symm
  · have hf := SynchConsole.line_full (line.drop n ++ last :: rest)
      (fun ch hch => (hln ch (mem_of_mem_take hch)).not_ends : ∀ ch ∈ line.take n, ¬ ends ch)
    rw [List.length_take, Nat.min_eq_left (Nat.le_of_not_lt hl), ← append_assoc, take_append_drop] at hf
    rw [hf] at h
    cases h
    rfl

theorem upToZero_text (hs : ∀ b ∈ s, b ≠ 0) (k : Nat) :
    upToZero (s ++ List.replicate k 0) = if k = 0 then s else s ++ [0] := by
  induction s with
  | nil =>
    cases k with
    | zero => rfl
    | succ k => rfl
  | cons b s ih =>
    have hr := ih fun b' hb' => hs b' (mem_cons_of_mem _ hb')
    rw [cons_append, upToZero, if_neg (hs b mem_cons_self), hr]
    split <;> rfl

end

/-! ## ReadString -/

/-- The process is back, and its memory is as it was. -/
structure Undisturbed (k k' : KernelState W) : Prop where
  own : k'.sys.OwnPages
  phys : k'.sys.machine.phys = k.sys.machine.phys
  bytes : k'.userByte = k.userByte

/-- The `n` bytes from `buf` on hold a prefix of the line and a zero after it, the whole line if
    there is room, and no other byte has changed. -/
structure LineStored (k k' : KernelState W) (buf : Word) (n : Nat) (chars : List Byte) : Prop where
  terminated : ∃ j < n, j ≤ chars.length ∧ (chars.length < n → j = chars.length) ∧
    (∀ i < j, k'.userByte (buf + BitVec.ofNat 32 i) = chars[i]?) ∧ k'.userByte (buf + BitVec.ofNat 32 j) = some 0
  others : ∀ x, (∀ i < n, x ≠ buf + BitVec.ofNat 32 i) → k'.userByte x = k.userByte x

section

variable {bigEndian : Bool} {sv : Services W} {k k₁ k₂ : KernelState W}

theorem Undisturbed.put (ho : k.sys.OwnPages) {m : Machine} (hs : SameMap k.sys.machine m)
    (hmm : m.mainMemory = k.sys.machine.mainMemory) : Undisturbed k { k with sys := k.sys.putMachine m } := by
  obtain ⟨ho', hm⟩ := ho.put hs
  refine ⟨ho', ?_, ?_⟩
  · show (k.sys.putMachine m).machine.phys = _
    rw [hm, hs.phys]
  · show (k.sys.putMachine m).machine.userByte = _
    rw [hm, userByte_same hs hmm]
    rfl

theorem exceptionHandler_userByte {call : Syscall} (h : k.sys.registers 2 = call.code)
    (hs : serve bigEndian sv call k = .ok ((), k₁)) :
    ∃ k', exceptionHandler bigEndian sv .syscallException k = .ok ((), k') ∧ k'.userByte = k₁.userByte := by
  rw [exceptionHandler_eq h]
  exact ⟨_, run_bind.mpr ⟨(), k₁, hs, rfl⟩, userByte_registers k₁.sys.machine _⟩

/-- ReadString copies what the console leaves in the kernel's buffer, up to its first zero. -/
theorem readString_ok (ho : k.sys.OwnPages) (hcd : k.sys.registers 2 = Syscall.readString.code)
    (hw : k.sys.machine.Writable (k.sys.registers 4) (k.sys.registers 5).toNat) :
    ∃ buffer k₁, onMachine (·.user2System bigEndian (k.sys.registers 4) (k.sys.registers 5)) k = .ok (buffer, k₁) ∧
      Undisturbed k k₁ ∧ ∀ (bytes : List Byte) (size : Word) (k₂ : KernelState W), bytes.length = (k.sys.registers 5).toNat →
      readConsole sv (k.sys.registers 5) k₁ = .ok ((bytes, size), k₂) → Undisturbed k₁ k₂ →
      ∃ k', exceptionHandler bigEndian sv .syscallException k = .ok ((), k') ∧
        k'.userByte = overlay (k.sys.registers 4) (upToZero bytes) k.userByte := by
  obtain ⟨t, ht, hn⟩ := ho.onTable
  have hlt := (k.sys.registers 5).isLt
  have hsz : (k.sys.registers 5).toNat ≤ memorySize := Writable.length_le ht hn hw hlt
  have hs : (k.sys.registers 5).toNat < 2147483647 := Nat.lt_of_le_of_lt hsz (by decide)
  obtain ⟨old, hold, hh⟩ := Writable.holds ht _ hw
  obtain ⟨m1, hc, hs1, hm1⟩ := user2System_ok bigEndian ht (by rw [hold]; exact hs) hh
  rw [hold, ofNat_word] at hc
  refine ⟨_, _, onMachine_of hc, .put ho hs1 hm1, fun bytes size k₂ hb hr hq => ?_⟩
  obtain ⟨t2, ht2, hn2⟩ := hq.own.onTable
  have hu : Undisturbed k { k with sys := k.sys.putMachine m1 } := .put ho hs1 hm1
  have hw2 : k₂.sys.machine.Writable (k.sys.registers 4) bytes.length := by
    intro i hi
    rw [hq.phys, hu.phys]
    exact hw i (hb ▸ hi)
  obtain ⟨m', count, hbc, hs', hby⟩ := system2User_ok bigEndian ht2 hn2 ((clearAfterZero old ++ [0]).drop bytes.length)
    (by omega) hw2
  rw [hb, ofNat_word] at hbc
  have hsr : serve bigEndian sv .readString k = .ok ((), { k₂ with sys := k₂.sys.putMachine m' }) :=
    run_bind.mpr ⟨_, k, rfl, run_bind.mpr ⟨_, k, rfl, run_bind.mpr ⟨_, _, onMachine_of hc,
      run_bind.mpr ⟨_, k₂, hr, run_bind.mpr ⟨_, _, onMachine_of (hb ▸ hbc), rfl⟩⟩⟩⟩⟩
  obtain ⟨k', hd, hb'⟩ := exceptionHandler_userByte hcd hsr
  refine ⟨k', hd, hb'.trans ?_⟩
  show (k₂.sys.putMachine m').machine.userByte = _
  rw [(hq.own.put hs').2, hby]
  exact congrArg _ (hq.bytes.trans hu.bytes)

theorem lineStored_iff {k' : KernelState W} {buf : Word} {n : Nat} {line : List Byte} (hln : ∀ b ∈ line, Printable b)
    (hn : n < 4294967296)
    (hbyt : k'.userByte = overlay buf (upToZero (line.take n ++ List.replicate (n - (line.take n).length) 0)) k.userByte) :
    LineStored k k' buf n line ↔ line.length < n := by
  rw [upToZero_text fun b hb => (hln b (mem_of_mem_take hb)).ne_zero, List.length_take] at hbyt
  have hby : ∀ i < n, ∀ b, (if n - min n line.length = 0 then line.take n else line.take n ++ [0])[i]? = some b →
      k'.userByte (buf + BitVec.ofNat 32 i) = some b := by
    intro i hi b hb
    have hlt := (List.getElem?_eq_some_iff.mp hb).1
    rw [hbyt, overlay, offset_of_add buf (Nat.lt_trans hi hn), if_pos hlt, hb]
  by_cases hl : line.length < n
  · have hr : n - min n line.length ≠ 0 := by omega
    rw [if_neg hr, take_of_length_le (Nat.le_of_lt hl)] at hbyt hby
    refine iff_of_true ⟨⟨line.length, hl, Nat.le_refl _, fun _ => rfl, fun i hi => ?_, ?_⟩, fun x hx => ?_⟩ hl
    · rw [getElem?_eq_getElem hi]
      exact hby i (Nat.lt_trans hi hl) _ (by rw [getElem?_append_left hi, getElem?_eq_getElem hi])
    · exact hby _ hl 0 getElem?_concat_length
    · rw [hbyt, overlay, if_neg fun hlt => ?_]
      rw [length_append, length_singleton] at hlt
      exact hx (x - buf).toNat (by omega) (add_offset buf x).symm
  · have hf : n - min n line.length = 0 := by omega
    rw [if_pos hf] at hby
    refine iff_of_false (fun h => ?_) hl
    -- no character of the line is the zero that should end it
    obtain ⟨j, hj, -, -, -, hz⟩ := h.terminated
    have hg : (line.take n)[j]? = some (line.get ⟨j, by omega⟩) := by
      rw [getElem?_take_of_lt hj]
      exact getElem?_eq_getElem (by omega)
    rw [hby j hj _ hg] at hz
    exact (hln _ (get_mem ..)).ne_zero (Option.some.inj hz)

/-! ## PrintString -/

/-- PrintString writes the first 255 characters of the string, and a zero byte. -/
theorem printString_eq (ho : k.sys.OwnPages) (hcd : k.sys.registers 2 = Syscall.printString.code)
    (h : HoldsName k s) : ∃ k₁, Undisturbed k k₁ ∧ exceptionHandler bigEndian sv .syscallException k =
      (writeConsole sv (s.take 255 ++ [0]) >>= fun _ => increasePC) k₁ := by
  obtain ⟨zeros, m, hc⟩ := user2System_text bigEndian h maxBuffer (by decide)
  obtain ⟨t, ht, -⟩ := ho.onTable
  obtain ⟨hs, hmm⟩ := user2System_quiet ht hc
  refine ⟨_, .put ho hs hmm, ?_⟩
  have hb : onMachine (·.user2System bigEndian (k.sys.registers 4) maxBuffer) k =
      .ok (s.take 255 ++ 0 :: zeros, { k with sys := k.sys.putMachine m }) := onMachine_of hc
  have hsr : serve bigEndian sv .printString k = (onMachine (·.user2System bigEndian (k.sys.registers 4) maxBuffer) k >>=
      fun r => writeConsole sv (r.1.take ((cString r.1).length + 1)) r.2) := rfl
  rw [hb] at hsr
  have htx : (s.take 255 ++ 0 :: zeros).take ((cString (s.take 255 ++ 0 :: zeros)).length + 1) = s.take 255 ++ [0] := by
    rw [cString_text fun hm => h.text (mem_of_mem_take hm), take_length_add_append]
    rfl
  rw [exceptionHandler_eq hcd, ← htx]
  exact congrArg (· >>= fun r => increasePC r.2) hsr

/-- For a process with pages of its own. ReadString(buf, n), with `n` bytes at `buf` that can be
    written and a line of printable characters of any length, leaves a terminated prefix of the
    line in the buffer, the whole line if it has fewer than `n` characters, and all other bytes as
    they were, exactly if the line has fewer than `n` characters; a longer one is cut after `n`,
    without a terminator. (`k₁` is the state `User2System` leaves, in which the console is asked;
    nobody else touches the process's memory while it waits.) PrintString writes at most 255 characters of a string
    and a zero byte after them, which is the string in no case. -/
theorem strings_iff (bigEndian : Bool) (sv : Services W) (hown : k.sys.OwnPages) :
    (k.sys.registers 2 = Syscall.readString.code → k.sys.machine.Writable (k.sys.registers 4) (k.sys.registers 5).toNat →
      ∃ buffer k₁, onMachine (·.user2System bigEndian (k.sys.registers 4) (k.sys.registers 5)) k = .ok (buffer, k₁) ∧
        Undisturbed k k₁ ∧ ∀ (line rest : List Byte) (last : Byte) (l : Line) (k₂ : KernelState W),
        (∀ b ∈ line, Printable b) → ends last →
        SynchConsole.line (k.sys.registers 5).toNat (line ++ last :: rest) = some l →
        readConsole sv (k.sys.registers 5) k₁ = .ok (((receive (k.sys.registers 5) l).into,
          BitVec.ofInt 32 (receive (k.sys.registers 5) l).result), k₂) → Undisturbed k₁ k₂ →
        ∃ k', exceptionHandler bigEndian sv .syscallException k = .ok ((), k') ∧
          (LineStored k k' (k.sys.registers 4) (k.sys.registers 5).toNat line ↔ line.length < (k.sys.registers 5).toNat)) ∧
    (k.sys.registers 2 = Syscall.printString.code → ∀ s, HoldsName k s → ∃ k₁ written, Undisturbed k k₁ ∧
      exceptionHandler bigEndian sv .syscallException k = (writeConsole sv written >>= fun _ => increasePC) k₁ ∧
      written = s.take 255 ++ [0] ∧ written ≠ s) := by
  refine ⟨fun hcode hw => ?_, fun hcode s hs => ?_⟩
  · obtain ⟨buffer, k₁, hcopy, hquiet, hreads⟩ := readString_ok hown hcode hw
    refine ⟨buffer, k₁, hcopy, hquiet, fun line rest last l k₂ hline hlast hl hread hquiet₂ => ?_⟩
    have hstored := line_stored hline hlast hl
    have hcount : (k.sys.registers 5).toInt.toNat = (k.sys.registers 5).toNat := by
      obtain ⟨t, ht, hnodup⟩ := hown.onTable
      have hsize := Writable.length_le ht hnodup hw (k.sys.registers 5).isLt
      have hsmall : memorySize < 2147483648 := by decide
      rw [BitVec.toInt_eq_toNat_of_lt (by omega), Int.toNat_natCast]
    have hinto : (receive (k.sys.registers 5) l).into = line.take (k.sys.registers 5).toNat ++
        List.replicate ((k.sys.registers 5).toNat - (line.take (k.sys.registers 5).toNat).length) 0 := by
      rw [receive, hstored, hcount]
    obtain ⟨k', hdone, hbytes⟩ := hreads _ _ k₂ (by rw [hinto]; simp) hread hquiet₂
    rw [hinto] at hbytes
    exact ⟨k', hdone, lineStored_iff hline (k.sys.registers 5).isLt hbytes⟩
  · obtain ⟨k₁, hquiet, heq⟩ := printString_eq hown hcode hs
    refine ⟨k₁, _, hquiet, heq, rfl, fun h => hs.text ?_⟩
    rw [← h]
    exact List.mem_append_right _ List.mem_cons_self

end

theorem Sys.OwnPages.registers {s : Sys} (h : s.OwnPages) {r : Regs} (hr : RegsOk r) : ({ s with registers := r } : Sys).OwnPages := by
  refine ⟨⟨h.wf.apart, h.wf.below, h.wf.loaded, h.wf.space, fun t a ha => ?_⟩, h.nodup⟩
  have hrg := h.wf.regs t a ha
  unfold Sys.userRegs at hrg ⊢
  split
  · exact hr
  · rename_i hne
    rwa [if_neg hne] at hrg

/-- A process with one page, all zero but for an 'H' at address 8, calls ReadString(0, n) or
    PrintString(8). -/
def stringCall (call : Syscall) (arg1 arg2 : Word) : KernelState Unit :=
  let k := calling arg1 arg2 0 (fun a => if a = 8 then 72 else 0) (inSyscall fun _ => 0).files
  { k with sys := { k.sys with registers := Function.update k.sys.registers 2 call.code } }

theorem stringCall_ownPages (call : Syscall) (arg1 arg2 : Word) : (stringCall call arg1 arg2).sys.OwnPages :=
  (calling_ownPages arg1 arg2 0 _ _).registers ⟨rfl, show (0 : Word).toNat < numGPRegs by decide⟩

theorem readConsole_typed (l : Line) (numBytes : Word) (k : KernelState Unit) : ∃ k₂,
    readConsole (typed l) numBytes k = .ok (((receive numBytes l).into, BitVec.ofInt 32 (receive numBytes l).result), k₂) ∧
      k₂.sys = k.sys := by
  have ha : await ((typed l).consoleRead numBytes) k = .ok (((receive numBytes l).into, BitVec.ofInt 32 (receive numBytes l).result),
      ⟨k.sys, { (inSyscall fun _ => 0).files with log := k.files.log }, ()⟩) := if_pos rfl
  cases hs : (BitVec.ofInt 32 (receive numBytes l).result).slt 0 with
  | true =>
    refine ⟨⟨k.sys, { (inSyscall fun _ => 0).files with log := k.files.log }, ()⟩, run_bind.mpr ⟨_, _, ha, ?_⟩, rfl⟩
    simp only [hs]
    rfl
  | false =>
    refine ⟨⟨k.sys, { (inSyscall fun _ => 0).files with
      log := .read (BitVec.ofInt 32 (receive numBytes l).result) :: k.files.log }, ()⟩, run_bind.mpr ⟨_, _, ha, ?_⟩, rfl⟩
    simp only [hs]
    rfl

/-- "Hi". -/
def hi : Line := ⟨[72, 105], some 10, []⟩

/-- "Hi" into four bytes. -/
theorem strings_short : ∃ k', exceptionHandler false (typed hi) .syscallException (stringCall .readString 0 4) = .ok ((), k') ∧
    LineStored (stringCall .readString 0 4) k' 0 4 [72, 105] := by
  have hw : (stringCall .readString 0 4).sys.machine.Writable 0 4 := by
    have hbytes : ∀ i < 4, ((stringCall .readString 0 4).sys.machine.phys (0 + BitVec.ofNat 32 i) true).isSome := by decide +kernel
    exact hbytes
  obtain ⟨hread, -⟩ := strings_iff false (typed hi) (stringCall_ownPages .readString 0 4)
  obtain ⟨-, k₁, -, hquiet, hread⟩ := hread rfl hw
  obtain ⟨k₂, hconsole, hsys⟩ := readConsole_typed hi 4 k₁
  have hsame : Undisturbed k₁ k₂ := ⟨hsys ▸ hquiet.own, by rw [hsys], by rw [KernelState.userByte, hsys]; rfl⟩
  obtain ⟨k', hdone, hiff⟩ := hread [72, 105] [] 10 hi k₂ (by decide) (by decide) rfl hconsole hsame
  exact ⟨k', hdone, hiff.mpr (by decide)⟩

/-- "Hi" into two bytes, and PrintString of "H". -/
theorem strings_differ :
    (∃ k', exceptionHandler false (typed hi) .syscallException (stringCall .readString 0 2) = .ok ((), k') ∧
      k'.userByte 0 = some 72 ∧ k'.userByte 1 = some 105 ∧ ¬ LineStored (stringCall .readString 0 2) k' 0 2 [72, 105]) ∧
    ∃ k', exceptionHandler false (typed hi) .syscallException (stringCall .printString 8 0) = .ok ((), k') ∧
      k'.files.log = [.output [72, 0]] ∧ HoldsName (stringCall .printString 8 0) [72] := by
  constructor
  · obtain ⟨⟨u, k'⟩, hdone, ht⟩ := exists_ok (x := exceptionHandler false (typed hi) .syscallException (stringCall .readString 0 2))
      (fun x => x.2.userByte 0 == some 72 && x.2.userByte 1 == some 105) (by decide +kernel)
    simp only [Bool.and_eq_true, beq_iff_eq] at ht
    refine ⟨k', hdone, ht.1, ht.2, fun h => ?_⟩
    obtain ⟨j, hj, -, -, -, hzero⟩ := h.terminated
    have hcases : j = 0 ∨ j = 1 := by omega
    rcases hcases with rfl | rfl
    · exact absurd (ht.1.symm.trans hzero) (by decide)
    · exact absurd (ht.2.symm.trans hzero) (by decide)
  · obtain ⟨⟨u, k'⟩, hdone, ht⟩ := exists_ok (x := exceptionHandler false (typed hi) .syscallException (stringCall .printString 8 0))
      (fun x => x.2.files.log == [.output [72, 0]]) (by decide +kernel)
    have hheld : (stringCall .printString 8 0).userByte 8 = some 72 ∧ (stringCall .printString 8 0).userByte 9 = some 0 := by
      decide +kernel
    exact ⟨k', hdone, by simpa using ht, ⟨_, rfl, rfl⟩, ⟨hheld.1, hheld.2, trivial⟩, by decide⟩

end Nachos

/-
# The log (`write_full`, `_log_hexdump` of `log.c`)

`write_full` calls `write` until all bytes of a buffer are written.  The variable for the size of a
call is also the one for its result, so each call asks for as many bytes as the call before it has
written, also where fewer are left.

`_log_hexdump` writes rows of 16 bytes into a buffer of `MAX_LOG_LEN` bytes.  Each `snprintf` gets
what is left of it, and the length is compared with the size of the buffer in front of a row only.

* `writeFull_exact_iff`: when exactly the bytes of the buffer are written.
* `logHexdump_fits_iff`: when a dump stays inside of its buffer.
-/
import Mathlib.Tactic
import Zevent.Lib.CString
import Zevent.Lib.Numerals

namespace Zevent.Znet

/-! ## `write_full` -/

section WriteFull

/-- How `write_full` ends: with the bytes that were handed over, or with a call for bytes behind
the end of the buffer. -/
inductive WriteEnd
  | finished (handed : List UInt8)
  | beyond
deriving DecidableEq

/-- The loop of `write_full`.  Call `i` asks for `amt` bytes at `off`; its result is `results i`, or
`amt` if that is less, and a negative result is an error. -/
def writeLoop (buf : List UInt8) (results : ℕ → ℤ) :
    ℕ → ℕ → ℕ → ℕ → ℕ → List UInt8 → Option WriteEnd
  | 0, _, _, _, _, _ => none
  | fuel + 1, i, off, nbytes, amt, handed =>
      if buf.length < off + amt then some .beyond
      else if results i < 0 then some (.finished handed)
      else
        let written := min (results i).toNat amt
        if nbytes - written > 0 then
          writeLoop buf results fuel (i + 1) (off + written) (nbytes - written) written
            (handed ++ (buf.drop off).take written)
        else some (.finished (handed ++ (buf.drop off).take written))

/-- `write_full` with the whole buffer. -/
def writeFull (buf : List UInt8) (results : ℕ → ℤ) (fuel : ℕ) : Option WriteEnd :=
  writeLoop buf results fuel 0 0 buf.length buf.length []

/-- What call `i` asks for, of a buffer of `n` bytes: all of it, and then what the call before it
has written. -/
def asked (n : ℕ) (results : ℕ → ℤ) : ℕ → ℕ
  | 0 => n
  | i + 1 => min (results i).toNat (asked n results i)

/-- What is written in front of call `i`. -/
def sent (n : ℕ) (results : ℕ → ℤ) : ℕ → ℕ
  | 0 => 0
  | i + 1 => sent n results i + asked n results (i + 1)

variable {buf : List UInt8} {results : ℕ → ℤ}

/-- The loop in front of call `i`. -/
def writeFrom (buf : List UInt8) (results : ℕ → ℤ) (fuel i : ℕ) : Option WriteEnd :=
  writeLoop buf results fuel i (sent buf.length results i)
    (buf.length - sent buf.length results i) (asked buf.length results i)
    (buf.take (sent buf.length results i))

/-- Every call asks for something. -/
theorem asked_pos (hpos : ∀ i, 0 < results i) {n : ℕ} (hn : 0 < n) (i : ℕ) :
    0 < asked n results i := by
  induction i with
  | zero => exact hn
  | succ i ih => exact lt_min (by have := hpos i; omega) ih

/-- A call that asks for more than is left. -/
theorem writeFrom_beyond {i : ℕ}
    (h : buf.length < sent buf.length results i + asked buf.length results i) (fuel : ℕ) :
    writeFrom buf results (fuel + 1) i = some .beyond := by
  rw [writeFrom, writeLoop, if_pos h]

/-- **One call.** -/
theorem writeFrom_succ (hpos : ∀ i, 0 < results i) {i : ℕ}
    (h : sent buf.length results i + asked buf.length results i ≤ buf.length) (fuel : ℕ) :
    writeFrom buf results (fuel + 1) i
      = if sent buf.length results (i + 1) < buf.length then writeFrom buf results fuel (i + 1)
        else some (.finished buf) := by
  have hresult := hpos i
  have hle : asked buf.length results (i + 1) ≤ asked buf.length results i := min_le_right _ _
  have hsent : sent buf.length results (i + 1)
      = sent buf.length results i + asked buf.length results (i + 1) := rfl
  have hhanded : buf.take (sent buf.length results i)
      ++ (buf.drop (sent buf.length results i)).take (asked buf.length results (i + 1))
        = buf.take (sent buf.length results (i + 1)) := by
    rw [hsent, List.take_add]
  have hleft : buf.length - sent buf.length results i - asked buf.length results (i + 1)
      = buf.length - sent buf.length results (i + 1) := by omega
  have hwritten : min (results i).toNat (asked buf.length results i)
      = asked buf.length results (i + 1) := rfl
  rw [writeFrom, writeLoop, if_neg (by omega), if_neg (by omega)]
  dsimp only
  rw [hwritten, hhanded, hleft]
  by_cases hmore : sent buf.length results (i + 1) < buf.length
  · rw [if_pos (by omega), if_pos hmore]
    rfl
  · rw [if_neg (by omega), if_neg hmore, List.take_of_length_le (by omega)]

/-- Calls that stay inside of the buffer write all of it. -/
theorem writeFrom_finished (hpos : ∀ i, 0 < results i)
    (hleft : ∀ i, sent buf.length results i < buf.length →
      sent buf.length results i + asked buf.length results i ≤ buf.length) {fuel i : ℕ}
    (hi : sent buf.length results i < buf.length)
    (hfuel : buf.length - sent buf.length results i < fuel) :
    writeFrom buf results fuel i = some (.finished buf) := by
  induction fuel generalizing i with
  | zero => exact absurd hfuel (Nat.not_lt_zero _)
  | succ fuel ih =>
      rw [writeFrom_succ hpos (hleft i hi)]
      split_ifs with hmore
      · have hasked := asked_pos hpos (by omega : 0 < buf.length) (i + 1)
        have hsent : sent buf.length results (i + 1)
          = sent buf.length results i + asked buf.length results (i + 1) := rfl
        exact ih hmore (by omega)
      · rfl

theorem sent_mono (n : ℕ) (results : ℕ → ℤ) : Monotone (sent n results) :=
  monotone_nat_of_le_succ fun _ => Nat.le_add_right _ _

/-- A loop that ends well has stayed inside of the buffer with every call. -/
theorem left_of_finished (hpos : ∀ i, 0 < results i) {handed : List UInt8} {fuel i : ℕ}
    (h : writeFrom buf results fuel i = some (.finished handed)) (k : ℕ)
    (hk : sent buf.length results (i + k) < buf.length) :
    sent buf.length results (i + k) + asked buf.length results (i + k) ≤ buf.length := by
  induction fuel generalizing i k with
  | zero => cases h
  | succ fuel ih =>
      have hinside : sent buf.length results i + asked buf.length results i ≤ buf.length := by
        by_contra hbeyond
        rw [writeFrom_beyond (not_le.mp hbeyond)] at h
        cases h
      cases k with
      | zero => exact hinside
      | succ k =>
          rw [writeFrom_succ hpos hinside] at h
          split_ifs at h with hmore
          · have hrest := ih h k
            rw [Nat.succ_add_eq_add_succ] at hrest
            exact hrest hk
          · -- nothing is left for a later call
            have hlater := sent_mono buf.length results (show i + 1 ≤ i + (k + 1) by omega)
            exact absurd hk (by omega)

/-- **When `write_full` writes the buffer.**  It does so exactly if after each call that is not the
last, at least as many bytes are left as that call has written. -/
theorem writeFull_exact_iff (buf : List UInt8) (hpos : ∀ i, 0 < results i) :
    (∃ fuel, writeFull buf results fuel = some (.finished buf)) ↔
      ∀ i, sent buf.length results (i + 1) < buf.length →
        sent buf.length results (i + 1) + asked buf.length results (i + 1) ≤ buf.length := by
  have hstart : ∀ fuel, writeFull buf results fuel = writeFrom buf results fuel 0 := fun _ => rfl
  constructor
  · rintro ⟨fuel, h⟩ i hi
    rw [hstart] at h
    have hleft := left_of_finished hpos h (i + 1)
    rw [Nat.zero_add] at hleft
    exact hleft hi
  · intro hleft
    refine ⟨buf.length + 1, ?_⟩
    have hfirst : sent buf.length results 0 + asked buf.length results 0 ≤ buf.length :=
      (Nat.zero_add _).le
    rw [hstart]
    rcases Nat.eq_zero_or_pos buf.length with hzero | hn
    · rw [writeFrom_succ hpos hfirst, if_neg (by omega)]
    · refine writeFrom_finished hpos (fun i hi => ?_) hn (Nat.lt_succ_of_le (Nat.sub_le _ _))
      cases i with
      | zero => exact hfirst
      | succ i => exact hleft i hi

/-- Two calls that write one byte each. -/
theorem writeFull_two :
    ∃ fuel, writeFull [104, 105] (fun _ => 1) fuel = some (.finished [104, 105]) := by
  refine (writeFull_exact_iff [104, 105] fun _ => Int.one_pos).mpr fun i hi => ?_
  cases i with
  | zero => decide
  | succ i =>
      have hall : sent 2 (fun _ => 1) 2 ≤ sent 2 (fun _ => 1) (i + 2) :=
        sent_mono 2 (fun _ => 1) (Nat.le_add_left 2 i)
      exact absurd hi (not_lt.mpr hall)

/-- Three of four bytes are written, and the next call asks for three bytes more. -/
theorem writeFull_beyond :
    writeFull [108, 111, 103, 10] (fun _ => 3) 2 = some .beyond ∧
      ¬ ∃ fuel, writeFull [108, 111, 103, 10] (fun _ => 3) fuel
        = some (.finished [108, 111, 103, 10]) := by
  refine ⟨rfl, ?_⟩
  rintro ⟨fuel, h⟩
  match fuel, h with
  | 0, h => cases h
  | 1, h => cases h
  | fuel + 2, h => cases h

end WriteFull

/-! ## `_log_hexdump` -/

section Hexdump

open CString Numerals

/-- `MAX_LOG_LEN`. -/
def maxLogLen : ℕ := 4096

/-- What a call of `snprintf` gets: where it writes, and the size that is left. -/
structure PrintCall where
  offset : ℕ
  remaining : ℤ
deriving DecidableEq

/-- The calls for one piece of text after the other, behind `len` bytes. -/
def printCalls : ℕ → List (List UInt8) → List PrintCall
  | _, [] => []
  | len, piece :: pieces =>
      ⟨len, (maxLogLen : ℤ) - len⟩ :: printCalls (len + piece.length) pieces

/-- What stands behind byte `i` of a row. -/
def separator (i : ℕ) : List UInt8 := if i = 7 then ascii "  " else ascii " "

/-- `isprint`. -/
def isPrint (c : UInt8) : Bool := 32 ≤ c && c ≤ 126

/-- The pieces of a row: the offset of the data, 16 bytes or blanks for them, and the bytes as
characters. -/
def rowPieces (off : ℕ) (row : List UInt8) : List (List UInt8) :=
  (hexDigits 8 off ++ ascii "  ") ::
    (row.mapIdx (fun i c => hexByte c.toNat ++ separator i)
      ++ (List.range' row.length (16 - row.length)).map (fun i => ascii "  " ++ separator i)
      ++ ascii "  |" :: row.map (fun c => [if isPrint c then c else 46])
      ++ [ascii "|\n"])

/-- The loop over the rows, with its calls and the length that it reaches. -/
def dumpRows : ℕ → List UInt8 → ℕ → ℕ → List PrintCall × ℕ
  | 0, _, _, len => ([], len)
  | fuel + 1, data, off, len =>
      if data ≠ [] ∧ len < maxLogLen - 1 then
        let pieces := rowPieces off (data.take 16)
        let rest := dumpRows fuel (data.drop 16) (off + 16) (len + pieces.flatten.length)
        (printCalls len pieces ++ rest.1, rest.2)
      else ([], len)

/-- `_log_hexdump`: the calls of `snprintf`, and the size that `write_full` gets. -/
def logHexdump (logfile : ℤ) (data : List UInt8) : List PrintCall × Option ℕ :=
  if logfile < 0 then ([], none)
  else
    let rows := dumpRows (data.length + 1) data 0 0
    (rows.1, some rows.2)

/-- The dump stays inside of its buffer. -/
def DumpFits (dump : List PrintCall × Option ℕ) : Prop :=
  (∀ c ∈ dump.1, c.offset ≤ maxLogLen ∧ 0 ≤ c.remaining) ∧ ∀ n ∈ dump.2, n ≤ maxLogLen

theorem length_hexDigits (k n : ℕ) : (hexDigits k n).length = k := by
  induction k generalizing n with
  | zero => rfl
  | succ k ih => rw [hexDigits, List.length_append, ih, List.length_singleton]

/-- The bytes of a row, or the blanks for them. -/
theorem length_rowBytes {row : List UInt8} (hrow : row.length ≤ 16) :
    (row.mapIdx (fun i c => hexByte c.toNat ++ separator i)
      ++ (List.range' row.length (16 - row.length)).map
        (fun i => ascii "  " ++ separator i)).flatten.length = 49 := by
  have htwo : ∀ c : UInt8, (hexByte c.toNat).length = 2 := fun _ => rfl
  have hdata : (row.mapIdx fun i c => hexByte c.toNat ++ separator i).map List.length
      = (List.range' 0 row.length).map fun i => 2 + (separator i).length := by
    apply List.ext_getElem
    · simp
    · intro i h₁ h₂
      simp [htwo]
  have hblanks : ((List.range' row.length (16 - row.length)).map
      fun i => ascii "  " ++ separator i).map List.length
        = (List.range' row.length (16 - row.length)).map fun i => 2 + (separator i).length := by
    rw [List.map_map]
    refine List.map_congr_left fun i _ => ?_
    exact List.length_append
  have hall : List.range' 0 row.length ++ List.range' row.length (16 - row.length)
      = List.range' 0 16 := by
    have happ := @List.range'_append_1 0 row.length (16 - row.length)
    rwa [Nat.zero_add, Nat.add_sub_of_le hrow] at happ
  rw [List.length_flatten, List.map_append, hdata, hblanks, ← List.map_append, hall]
  decide

/-- A row has 64 bytes, and one more for each byte of the data. -/
theorem length_rowPieces (off : ℕ) {row : List UInt8} (hrow : row.length ≤ 16) :
    (rowPieces off row).flatten.length = 64 + row.length := by
  have hchars : (row.map (fun c => [if isPrint c then c else 46])).flatten.length
      = row.length := by
    induction row with
    | nil => rfl
    | cons c row ih =>
        rw [List.map_cons, List.flatten_cons, List.length_append, List.length_singleton,
          List.length_cons, ih (by rw [List.length_cons] at hrow; omega), Nat.add_comm]
  have hblanks : (ascii "  ").length = 2 := rfl
  have hbar : (ascii "  |").length = 3 := rfl
  have hend : (ascii "|\n").length = 2 := rfl
  have hbytes := length_rowBytes hrow
  simp only [List.flatten_append, List.length_append] at hbytes
  simp only [rowPieces, List.flatten_cons, List.flatten_append, List.length_append,
    List.flatten_nil, List.length_nil, hchars, length_hexDigits, hblanks, hbar, hend]
  omega

/-! ### The calls of a row -/

/-- Each piece is printed at its offset with the room behind it. -/
theorem remaining_of_mem {len : ℕ} {pieces : List (List UInt8)} {c : PrintCall}
    (h : c ∈ printCalls len pieces) :
    c.offset ≤ len + pieces.flatten.length ∧ c.remaining = (maxLogLen : ℤ) - c.offset := by
  induction pieces generalizing len with
  | nil => cases h
  | cons piece pieces ih =>
      rw [List.flatten_cons, List.length_append]
      rcases List.mem_cons.mp h with rfl | h
      · exact ⟨Nat.le_add_right _ _, rfl⟩
      · obtain ⟨hle, hremaining⟩ := ih h
        exact ⟨by omega, hremaining⟩

/-- The last piece of a row. -/
theorem mem_printCalls_last (len : ℕ) (pieces : List (List UInt8)) (piece : List UInt8) :
    (⟨len + pieces.flatten.length, (maxLogLen : ℤ) - (len + pieces.flatten.length : ℕ)⟩ : PrintCall)
      ∈ printCalls len (pieces ++ [piece]) := by
  induction pieces generalizing len with
  | nil => exact List.mem_singleton.mpr rfl
  | cons p pieces ih =>
      have hrest := ih (len + p.length)
      rw [Nat.add_assoc, ← List.length_append, ← List.flatten_cons] at hrest
      exact List.mem_cons_of_mem _ hrest

/-- A row ends with a call behind everything but its last two bytes. -/
theorem exists_last_call (off len : ℕ) {row : List UInt8} (hrow : row.length ≤ 16) :
    ∃ c ∈ printCalls len (rowPieces off row), c.offset = len + 62 + row.length := by
  have htotal := length_rowPieces off hrow
  have hsplit : ∃ pieces, rowPieces off row = pieces ++ [ascii "|\n"] :=
    ⟨_, List.cons_append.symm⟩
  obtain ⟨pieces, hpieces⟩ := hsplit
  rw [hpieces, List.flatten_append, List.length_append] at htotal
  have hend : [ascii "|\n"].flatten.length = 2 := rfl
  rw [hpieces]
  exact ⟨_, mem_printCalls_last len pieces _, by dsimp only; omega⟩

/-! ### The rows -/

/-- Up to 51 rows fit. -/
theorem dumpRows_fits {fuel : ℕ} {data : List UInt8} (off : ℕ) {len : ℕ}
    (hrows : len + 80 * ((data.length + 15) / 16) ≤ 4080) :
    (∀ c ∈ (dumpRows fuel data off len).1, c.offset ≤ maxLogLen ∧ 0 ≤ c.remaining) ∧
      (dumpRows fuel data off len).2 ≤ maxLogLen := by
  induction fuel generalizing data off len with
  | zero =>
      exact ⟨fun c hc => absurd hc List.not_mem_nil,
        show len ≤ maxLogLen by rw [maxLogLen]; omega⟩
  | succ fuel ih =>
      rw [dumpRows]
      split_ifs with hmore
      · have hrow : (data.take 16).length ≤ 16 := List.length_take_le _ _
        have hlen : 0 < data.length := List.length_pos_iff.mpr hmore.1
        have htotal := length_rowPieces off hrow
        rw [List.length_take] at htotal
        have hrest := @ih (data.drop 16) (off + 16)
          (len + (rowPieces off (data.take 16)).flatten.length) (by
            rw [List.length_drop]
            omega)
        refine ⟨fun c hc => ?_, hrest.2⟩
        rcases List.mem_append.mp hc with hc | hc
        · obtain ⟨hoffset, hremaining⟩ := remaining_of_mem hc
          rw [hremaining, maxLogLen]
          omega
        · exact hrest.1 c hc
      · exact ⟨fun c hc => absurd hc List.not_mem_nil,
          show len ≤ maxLogLen by rw [maxLogLen]; omega⟩

/-- The last call of the row behind `k` others. -/
theorem dumpRows_last {fuel k : ℕ} {data : List UInt8} (off : ℕ) {len : ℕ}
    (hlen : len + 80 * k ≤ 4080) (hdata : 16 * k < data.length) (hfuel : k < fuel) :
    ∃ c ∈ (dumpRows fuel data off len).1,
      c.offset = len + 80 * k + 62 + min 16 (data.length - 16 * k) ∧
        c.remaining = (maxLogLen : ℤ) - c.offset := by
  induction k generalizing fuel data off len with
  | zero =>
      obtain ⟨fuel, rfl⟩ := Nat.exists_eq_succ_of_ne_zero hfuel.ne'
      obtain ⟨c, hc, hoffset⟩ := exists_last_call off len (List.length_take_le 16 data)
      rw [dumpRows, if_pos ⟨List.length_pos_iff.mp hdata, by rw [maxLogLen]; omega⟩]
      refine ⟨c, List.mem_append_left _ hc, ?_, (remaining_of_mem hc).2⟩
      rw [hoffset, List.length_take]
      omega
  | succ k ih =>
      obtain ⟨fuel, rfl⟩ := Nat.exists_eq_succ_of_ne_zero (by omega : fuel ≠ 0)
      have htake : (data.take 16).length = 16 := List.length_take_of_le (by omega)
      have htotal := length_rowPieces off htake.le
      obtain ⟨c, hc, hoffset, hremaining⟩ := @ih fuel (data.drop 16) (off + 16)
        (len + (rowPieces off (data.take 16)).flatten.length) (by omega)
        (by rw [List.length_drop]; omega) (by omega)
      rw [dumpRows, if_pos ⟨List.length_pos_iff.mp (by omega), by rw [maxLogLen]; omega⟩]
      refine ⟨c, List.mem_append_right _ hc, ?_, hremaining⟩
      rw [hoffset, htotal, htake, List.length_drop]
      omega

/-- **When a dump stays inside of its buffer**: nothing is dumped, or it is at most 816 bytes. -/
theorem logHexdump_fits_iff (logfile : ℤ) (data : List UInt8) :
    DumpFits (logHexdump logfile data) ↔ logfile < 0 ∨ data.length ≤ 816 := by
  unfold logHexdump
  split_ifs with hfile
  · refine ⟨fun _ => Or.inl hfile, fun _ => ⟨fun c hc => absurd hc List.not_mem_nil, ?_⟩⟩
    rintro n ⟨⟩
  · constructor
    · rintro ⟨hcalls, -⟩
      by_contra hlong
      rw [not_or, not_le] at hlong
      obtain ⟨c, hc, hoffset, -⟩ :=
        @dumpRows_last (data.length + 1) 51 data 0 0 (by norm_num) hlong.2 (by omega)
      exact absurd (hcalls c hc).1 (not_le.mpr (by rw [maxLogLen]; omega))
    · intro h
      obtain ⟨hcalls, hlen⟩ := @dumpRows_fits (data.length + 1) data 0 0
        (by have := h.resolve_left hfile; omega)
      refine ⟨hcalls, ?_⟩
      rintro n ⟨⟩
      exact hlen

/-- The dump of 817 bytes: the last piece of its row 52 is written behind the buffer. -/
theorem logHexdump_past :
    (⟨4143, -47⟩ : PrintCall) ∈ (logHexdump 3 (List.replicate 817 0)).1 ∧
      ¬ DumpFits (logHexdump 3 (List.replicate 817 0)) := by
  have hcall : (⟨4143, -47⟩ : PrintCall) ∈ (logHexdump 3 (List.replicate 817 0)).1 := by
    have hlength : (List.replicate 817 (0 : UInt8)).length = 817 := List.length_replicate
    obtain ⟨⟨offset, remaining⟩, hc, hoffset, hremaining⟩ :=
      @dumpRows_last (817 + 1) 51 (List.replicate 817 0) 0 0 (by norm_num) (by omega) (by norm_num)
    obtain rfl : offset = 4143 := by
      rw [hlength] at hoffset
      exact hoffset
    obtain rfl : remaining = -47 := hremaining
    rwa [logHexdump, if_neg (by decide), hlength]
  refine ⟨hcall, fun h => ?_⟩
  exact absurd (h.1 _ hcall).1 (by decide)

end Hexdump

end Zevent.Znet

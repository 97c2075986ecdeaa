/-
# Framing of search requests (`peer_read_cb` with `data_process_func`)

The search server runs `peer_read_cb` with `data_process_func` as its `data_func` and a
`msg_func`.  The receive buffer holds the bytes received and not handed out yet; behind them
lies whatever the block held before, `stale`, and the walk of `data_process_func` goes on
into it.

* When all length lines of the first request are there and its last argument is not, the
  answer is 0 with an `off` beyond the received bytes, and `peer_read_cb` returns -1: the
  connection is dropped because a request has arrived only in part
  (`partial_argument_drops`).
* When a line is missing, the answer depends on the byte behind the received ones.

`requests_framed` is what remains: framing does not depend on how the stream is cut as long
as every call leaves no request in part, or leaves one whose next byte in the buffer is
refused (a NUL, say).
-/
import Mathlib.Tactic
import Zevent.Znet.Receive
import Zevent.Rtsearch.Request

namespace Zevent.Rtsearch

open Zevent.Znet

/-! ## The search server -/

/-- How a call ends that does not return: as in the network library, or by an overflow in
`data_process_func`. -/
inductive Crash where
  | trap (t : Trap)
  | undefined
  deriving DecidableEq

/-- The memory from `buf` on: the data, and `stale` behind it. -/
def bufferMemory (data : List UInt8) (stale : ℕ → UInt8) : ℕ → UInt8 :=
  fun i => data.getD i (stale (i - data.length))

/-- `data_process_func` as the `data_func` of `peer_read_cb`. -/
def searchDataFunc (stale : ℕ → UInt8) (data : List UInt8) (len : ℕ) :
    Except Crash (Option ℕ) :=
  match dataProcessFunc (bufferMemory data stale) len with
  | .fail => .ok none
  | .frame off => .ok (some off)
  | _ => .error .undefined

/-- One call of `peer_read_cb`: what `read` returns, and what lies behind the data. -/
structure Call where
  reads : List ReadResult
  stale : ℕ → UInt8

/-- The event loop calls `peer_read_cb` until it returns -1; the flag says that it did. -/
def runSearch (alloc : Bool) : Conn → List Call → Except Crash (Conn × Bool)
  | c, [] => .ok (c, false)
  | c, call :: calls => do
      let (c, rv) ← peerReadCbWith .trap (searchDataFunc call.stale) alloc c call.reads
      if rv < 0 then return (c, true) else runSearch alloc c calls

/-! ## Requests -/

/-- A number in decimal. -/
def decimal (n : ℕ) : List UInt8 :=
  if n = 0 then [48] else (Nat.digits 10 n).reverse.map fun d => UInt8.ofNat (48 + d)

/-- A count line (`*`) or a length line (`$`). -/
def numberLine (sign : UInt8) (n : ℕ) : List UInt8 := sign :: (decimal n ++ [13, 10])

/-- A request: its arguments, without NULs. -/
structure Request where
  argv : List (List UInt8)
  nulFree : ∀ arg ∈ argv, 0 ∉ arg

/-- An argument on the wire. -/
def argBytes (arg : List UInt8) : List UInt8 := numberLine 36 arg.length ++ (arg ++ [13, 10])

/-- A request on the wire. -/
def Request.bytes (r : Request) : List UInt8 :=
  numberLine 42 r.argv.length ++ r.argv.flatMap argBytes

/-- The bytes read in a sequence of calls. -/
def callBytes (calls : List Call) : List UInt8 := calls.flatMap fun call => bytesOf call.reads

/-- The calls in which the socket hands over a beginning of the requests, cut in any way, with
end of file at the end if at all. -/
structure SearchReads (requests : List Request) (calls : List Call) : Prop where
  answers : ∀ call ∈ calls, Answers call.reads
  noError : ∀ call ∈ calls, .error ∉ call.reads
  eofLast : ∀ call ∈ calls.dropLast, .eof ∉ call.reads
  bytes : callBytes calls <+: wire Request.bytes requests

/-! ## Requests in part -/

/-- The length lines of the arguments, each with the length of what it announces. -/
def argParts (argv : List (List UInt8)) : List (List UInt8 × ℕ) :=
  argv.map fun arg => (numberLine 36 arg.length, arg.length + 2)

/-- The lines of a request, each with the number of bytes that are jumped over behind it. -/
def Request.parts (r : Request) : List (List UInt8 × ℕ) :=
  (numberLine 42 r.argv.length, 0) :: argParts r.argv

/-- When the first `k` bytes are there: how far behind them the next byte of a line belongs,
whether it is the first one of its line and whether it follows a `\r`; `none` when there is
no line left. -/
def nextLineByte : List (List UInt8 × ℕ) → ℕ → Option (ℕ × Bool × Bool)
  | [], _ => none
  | (line, body) :: parts, k =>
      if k < line.length then some (0, k = 0, k + 1 = line.length)
      else if k < line.length + body then
        if parts = [] then none else some (line.length + body - k, true, false)
      else nextLineByte parts (k - (line.length + body))

/-- The request that has arrived in part when `n` bytes have arrived, with the number of its
bytes that have. -/
def cutAt : List Request → ℕ → Option (Request × ℕ)
  | [], _ => none
  | r :: requests, n =>
      if n = 0 then none
      else if n < r.bytes.length then some (r, n)
      else cutAt requests (n - r.bytes.length)

/-- When `n` bytes have arrived, no request is there in part; or one is that lacks a byte of
a line, and the block holds in its place a byte that is refused there. -/
def Refused (requests : List Request) (n : ℕ) (stale : ℕ → UInt8) : Prop :=
  ∀ r k, cutAt requests n = some (r, k) → ∃ gap first term,
    nextLineByte r.parts k = some (gap, first, term) ∧ scanByte first term (stale gap) = .fail

/-- Every call leaves no request in part, or one that is refused, when `n` bytes had arrived
before. -/
def AllRefused (requests : List Request) : ℕ → List Call → Prop
  | _, [] => True
  | n, call :: calls =>
      let n := n + (bytesOf call.reads).length
      Refused requests n call.stale ∧ AllRefused requests n calls

/-- The `int`s of `data_process_func` can count the arguments from `pos` on: each length line
ends before byte `2 ^ 31`, and each argument with its `\r\n` is shorter than that. -/
def Countable : ℕ → List (List UInt8) → Prop
  | _, [] => True
  | pos, arg :: argv => pos + (numberLine 36 arg.length).length < 2 ^ 31 ∧ arg.length + 2 < 2 ^ 31
      ∧ Countable (pos + (argBytes arg).length) argv

/-- They can count the request. -/
def Request.Countable (r : Request) : Prop :=
  r.argv.length < 2 ^ 31 ∧ Rtsearch.Countable (numberLine 42 r.argv.length).length r.argv

/-- Before each call, the buffer is such that the reads of the call do not make it grow to
`2 ^ 32` bytes. -/
def SearchFits : Conn → List Call → Prop
  | _, [] => True
  | c, call :: calls => GrowsWithin c.recvbuf.size c.recvbuf.off (sizes call.reads)
      ∧ ∀ c' rv, peerReadCbWith .trap (searchDataFunc call.stale) true c call.reads = .ok (c', rv) →
        SearchFits c' calls

/-! ## Walking over a line -/

/-- The memory holds the bytes from index `i` on. -/
def HasAt (read : ℕ → Option UInt8) (i : ℕ) (bytes : List UInt8) : Prop :=
  ∀ j c, bytes[j]? = some c → read (i + j) = some c

/-- Bytes in a row stand one behind the other. -/
theorem hasAt_append {read : ℕ → Option UInt8} {i : ℕ} {bytes bytes' : List UInt8} :
    HasAt read i (bytes ++ bytes') ↔ HasAt read i bytes ∧ HasAt read (i + bytes.length) bytes' := by
  constructor
  · intro h
    refine ⟨fun j c hc => h j c ?_, fun j c hc => ?_⟩
    · rw [List.getElem?_append_left (List.getElem?_eq_some_iff.mp hc).1]
      exact hc
    · rw [add_assoc]
      apply h _ c
      rw [List.getElem?_append_right (Nat.le_add_right _ _), Nat.add_sub_cancel_left]
      exact hc
  · rintro ⟨hfront, hback⟩ j c hc
    by_cases hj : j < bytes.length
    · rw [List.getElem?_append_left hj] at hc
      exact hfront j c hc
    · rw [List.getElem?_append_right (not_lt.mp hj)] at hc
      have hread := hback _ c hc
      rwa [show i + bytes.length + (j - bytes.length) = i + j by omega] at hread

theorem hasAt_cons {read : ℕ → Option UInt8} {i : ℕ} {c : UInt8} {bytes : List UInt8} :
    HasAt read i (c :: bytes) ↔ read i = some c ∧ HasAt read (i + 1) bytes := by
  rw [← List.singleton_append, hasAt_append]
  refine and_congr_left fun _ => ⟨fun h => h 0 c rfl, fun h j c' hc => ?_⟩
  obtain ⟨rfl, rfl⟩ : j = 0 ∧ c' = c := by
    cases j with
    | zero => exact ⟨rfl, (Option.some.inj hc).symm⟩
    | succ j => cases hc
  exact h

/-- A decimal digit. -/
def IsDigit (c : UInt8) : Prop := 48 ≤ c ∧ c ≤ 57

theorem IsDigit.ne {c d : UInt8} (h : IsDigit c) (hd : d < 48) : c ≠ d := by
  rintro rfl
  exact UInt8.not_lt.mpr h.1 hd

/-- A digit goes on with the line. -/
theorem IsDigit.scanByte {c : UInt8} (h : IsDigit c) :
    scanByte false false c = .next false true := by
  have htable : table c = 2 := by
    rw [table, if_neg, if_pos ⟨h.1, h.2⟩]
    rintro (hc | hc | hc | hc) <;> exact h.ne (by decide) hc
  rw [Rtsearch.scanByte, if_neg (h.ne (by decide)), if_neg (h.ne (by decide)), htable]
  rfl

/-- The digits of a line are stored. -/
theorem reqStateLen_digits {read : ℕ → Option UInt8} {i : ℕ} {digits sb : List UInt8}
    (hdigits : ∀ c ∈ digits, IsDigit c) (hread : HasAt read i digits)
    (hsmall : i + digits.length < 2 ^ 31) (hsb : sb.length + digits.length < sbSize) :
    reqStateLen read i false false sb
      = reqStateLen read (i + digits.length) false false (sb ++ digits) := by
  induction digits generalizing i sb with
  | nil => simp
  | cons c digits ih =>
      rw [List.length_cons] at hsmall hsb
      obtain ⟨hc, hrest⟩ := hasAt_cons.mp hread
      have hdigit := hdigits c List.mem_cons_self
      rw [reqStateLen_digit hc (hdigit.ne (by decide)) hdigit.scanByte (by omega),
        if_pos (by omega),
        ih (fun d hd => hdigits d (List.mem_cons_of_mem _ hd)) hrest (by omega)
          (by rw [List.length_append, List.length_singleton]; omega),
        List.append_assoc, List.singleton_append, List.length_cons, add_assoc, add_comm 1]

theorem ofNat_digit {d : ℕ} (hd : d < 10) : (UInt8.ofNat (48 + d)).toNat = 48 + d := by
  rw [UInt8.toNat_ofNat']
  omega

theorem isDigit_of_lt {d : ℕ} (hd : d < 10) : IsDigit (UInt8.ofNat (48 + d)) := by
  constructor
  · rw [UInt8.le_iff_toNat_le, ofNat_digit hd]
    exact Nat.le_add_right _ _
  · rw [UInt8.le_iff_toNat_le, ofNat_digit hd]
    show 48 + d ≤ 57
    omega

theorem isDigit_decimal (n : ℕ) : ∀ c ∈ decimal n, IsDigit c := by
  intro c hc
  unfold decimal at hc
  split_ifs at hc
  · rw [List.mem_singleton.mp hc]
    exact isDigit_of_lt (d := 0) (by omega)
  · obtain ⟨d, hd, rfl⟩ := List.mem_map.mp hc
    exact isDigit_of_lt (Nat.digits_lt_base (by norm_num) (List.mem_reverse.mp hd))

/-- An `int` has at most ten digits. -/
theorem length_decimal {n : ℕ} (hn : n < 2 ^ 31) : (decimal n).length ≤ 10 := by
  unfold decimal
  split_ifs
  · simp
  · rw [List.length_map, List.length_reverse, Nat.digits_length_le_iff (by norm_num)]
    omega

/-- `atoi` reads the digits from the most significant one on. -/
theorem atoi_digits {digits : List ℕ} (h : ∀ d ∈ digits, d < 10) :
    atoi (digits.reverse.map fun d => UInt8.ofNat (48 + d)) = Nat.ofDigits 10 digits := by
  induction digits with
  | nil => rfl
  | cons d digits ih =>
      rw [List.reverse_cons, List.map_append, atoi, List.foldl_append, ← atoi,
        ih fun e he => h e (List.mem_cons_of_mem _ he), Nat.ofDigits_cons, List.map_singleton,
        List.foldl_cons, List.foldl_nil, ofNat_digit (h d List.mem_cons_self),
        Nat.add_sub_cancel_left, add_comm]

/-- `atoi` reads a decimal back. -/
theorem atoi_decimal (n : ℕ) : atoi (decimal n) = n := by
  unfold decimal
  split_ifs with h
  · rw [h]
    rfl
  · rw [atoi_digits fun d hd => Nat.digits_lt_base (by norm_num) hd, Nat.ofDigits_digits]

/-- The signs that start a line. -/
def IsSign (sign : UInt8) : Prop := sign = 36 ∨ sign = 42

/-- The sign of a line is taken as its first byte. -/
theorem IsSign.scanByte {sign : UInt8} (h : IsSign sign) :
    sign ≠ 0 ∧ scanByte true false sign = .next false false := by
  rcases h with rfl | rfl <;> decide

/-- A line has its sign, its digits and the line end. -/
theorem length_numberLine (sign : UInt8) (n : ℕ) :
    (numberLine sign n).length = (decimal n).length + 3 := by
  rw [numberLine, List.length_cons, List.length_append]
  rfl

section Lines

variable {read : ℕ → Option UInt8} {i n : ℕ} {sign : UInt8}

/-- The sign and the first `j` digits of a line. -/
theorem reqStateLen_front {j : ℕ} (hsign : IsSign sign) (hn : n < 2 ^ 31)
    (hread : HasAt read i (sign :: (decimal n).take j))
    (hsmall : i + (numberLine sign n).length < 2 ^ 31) (hj : j ≤ (decimal n).length) :
    reqStateLen read i true false []
      = reqStateLen read (i + 1 + j) false false ((decimal n).take j) := by
  obtain ⟨hnul, hscan⟩ := hsign.scanByte
  obtain ⟨hfirst, hdigits⟩ := hasAt_cons.mp hread
  have hlen : ((decimal n).take j).length = j := List.length_take_of_le hj
  have hten := length_decimal hn
  rw [length_numberLine] at hsmall
  rw [reqStateLen_skip hfirst hnul hscan, if_pos (by omega),
    reqStateLen_digits (fun c hc => isDigit_decimal n c (List.mem_of_mem_take hc)) hdigits
      (by omega) (by rw [sbSize, List.length_nil]; omega), hlen, List.nil_append]

/-- A line that is there is walked over, and its number is stored. -/
theorem reqStateLen_line (hsign : IsSign sign) (hn : n < 2 ^ 31)
    (hread : HasAt read i (numberLine sign n))
    (hsmall : i + (numberLine sign n).length < 2 ^ 31) :
    reqStateLen read i true false [] = .cont (i + (numberLine sign n).length) (decimal n) := by
  rw [numberLine, ← List.cons_append] at hread
  obtain ⟨hfront, hback⟩ := hasAt_append.mp hread
  rw [List.length_cons, show i + ((decimal n).length + 1) = i + 1 + (decimal n).length by omega]
    at hback
  obtain ⟨hcr, hback⟩ := hasAt_cons.mp hback
  obtain ⟨hlf, -⟩ := hasAt_cons.mp hback
  have hlen := length_numberLine sign n
  rw [reqStateLen_front hsign hn (by rwa [List.take_length]) hsmall le_rfl, List.take_length,
    reqStateLen_skip hcr (by decide) (show scanByte false false 13 = .next true false from rfl),
    if_pos (by omega), reqStateLen_newline hlf, if_pos (by omega), hlen]
  congr 1
  omega

/-- A line of which the first `k` bytes are there, with a byte behind them that is refused. -/
theorem reqStateLen_cut {k : ℕ} {c : UInt8} (hsign : IsSign sign) (hn : n < 2 ^ 31)
    (hread : HasAt read i ((numberLine sign n).take k))
    (hsmall : i + (numberLine sign n).length < 2 ^ 31) (hk : k < (numberLine sign n).length)
    (hc : read (i + k) = some c)
    (hrefused : scanByte (k = 0) (k + 1 = (numberLine sign n).length) c = .fail) :
    reqStateLen read i true false [] = .fail := by
  have hlen := length_numberLine sign n
  cases k with
  | zero =>
      -- not even the sign is there
      rw [decide_eq_true rfl,
        decide_eq_false (show ¬ 0 + 1 = (numberLine sign n).length by omega)] at hrefused
      exact reqStateLen_refused hc hrefused (Or.inr (by omega))
  | succ j =>
      rw [decide_eq_false (Nat.succ_ne_zero j)] at hrefused
      rw [numberLine, List.take_succ_cons] at hread
      by_cases hj : j ≤ (decimal n).length
      · -- the sign and `j` digits are there
        rw [decide_eq_false (by omega)] at hrefused
        rw [List.take_append_of_le_length hj] at hread
        rw [reqStateLen_front hsign hn hread hsmall hj]
        exact reqStateLen_refused (by rw [← hc]; congr 1; omega) hrefused (Or.inr (by omega))
      · -- the carriage return is there
        obtain rfl : j = (decimal n).length + 1 := by omega
        rw [decide_eq_true (by omega)] at hrefused
        rw [List.take_length_add_append, ← List.cons_append] at hread
        obtain ⟨hfront, hback⟩ := hasAt_append.mp hread
        rw [List.length_cons,
          show i + ((decimal n).length + 1) = i + 1 + (decimal n).length by omega] at hback
        obtain ⟨hcr, -⟩ := hasAt_cons.mp hback
        rw [reqStateLen_front hsign hn (by rwa [List.take_length]) hsmall le_rfl,
          reqStateLen_skip hcr (by decide)
            (show scanByte false false 13 = .next true false from rfl), if_pos (by omega)]
        exact reqStateLen_refused (by rw [← hc]; congr 1; omega) hrefused (Or.inr (by omega))

end Lines

/-! ## Walking over a request -/

theorem length_argBytes (arg : List UInt8) :
    (argBytes arg).length = (numberLine 36 arg.length).length + (arg.length + 2) := by
  simp [argBytes]

/-- Arguments that can be counted end before byte `2 ^ 32 - 1`. -/
theorem Countable.end_lt {pos : ℕ} {argv : List (List UInt8)} (h : Countable pos argv)
    (hpos : pos < 2 ^ 32 - 1) : pos + (argv.flatMap argBytes).length < 2 ^ 32 - 1 := by
  induction argv generalizing pos with
  | nil => exact hpos
  | cons arg argv ih =>
      obtain ⟨hline, harg, hrest⟩ := h
      have hlen := length_argBytes arg
      rw [List.flatMap_cons, List.length_append, ← add_assoc]
      exact ih hrest (by omega)

/-- Short arguments can be counted. -/
theorem countable_of_end_lt {pos : ℕ} {argv : List (List UInt8)}
    (h : pos + (argv.flatMap argBytes).length < 2 ^ 31) : Countable pos argv := by
  induction argv generalizing pos with
  | nil => trivial
  | cons arg argv ih =>
      have hlen := length_argBytes arg
      rw [List.flatMap_cons, List.length_append] at h
      exact ⟨by omega, by omega, ih (by omega)⟩

/-- The length line of an argument that is there leads to the argument behind it. -/
theorem argvLoop_succ {read : ℕ → Option UInt8} {pos m : ℕ} {arg : List UInt8}
    (hread : HasAt read pos (numberLine 36 arg.length))
    (hline : pos + (numberLine 36 arg.length).length < 2 ^ 31) (harg : arg.length + 2 < 2 ^ 31) :
    argvLoop read (m + 1) pos = argvLoop read m (pos + (argBytes arg).length) := by
  have hlen := length_argBytes arg
  rw [argvLoop, if_neg (by omega), reqStateLen_line (Or.inl rfl) (by omega) hread hline,
    Line.andThen, atoi_decimal, if_neg (by omega), if_neg (by omega), hlen, add_assoc]

/-- Arguments that are there are walked over. -/
theorem argvLoop_complete {read : ℕ → Option UInt8} {pos : ℕ} {argv : List (List UInt8)}
    (hread : HasAt read pos (argv.flatMap argBytes)) (hcount : Countable pos argv)
    (hpos : pos < 2 ^ 32 - 1) :
    argvLoop read argv.length pos = .frame (pos + (argv.flatMap argBytes).length) := by
  induction argv generalizing pos with
  | nil =>
      rw [List.length_nil, argvLoop, Nat.mod_eq_of_lt (by omega)]
      rfl
  | cons arg argv ih =>
      obtain ⟨hline, harg, hlater⟩ := hcount
      have hlen := length_argBytes arg
      rw [List.flatMap_cons] at hread ⊢
      obtain ⟨hthere, hrest⟩ := hasAt_append.mp hread
      rw [List.length_cons, argvLoop_succ (hasAt_append.mp hthere).1 hline harg,
        ih hrest hlater (by omega), List.length_append, add_assoc]

/-- Arguments of which the first `k` bytes are there, with a byte that is refused where the
next line goes on. -/
theorem argvLoop_cut {read : ℕ → Option UInt8} {pos k gap : ℕ} {first term : Bool} {c : UInt8}
    {argv : List (List UInt8)} (hread : HasAt read pos ((argv.flatMap argBytes).take k))
    (hcount : Countable pos argv)
    (hnext : nextLineByte (argParts argv) k = some (gap, first, term))
    (hc : read (pos + k + gap) = some c) (hrefused : scanByte first term c = .fail) :
    argvLoop read argv.length pos = .fail := by
  induction argv generalizing pos k with
  | nil => cases hnext
  | cons arg argv ih =>
      obtain ⟨hsmall, harg, hlater⟩ := hcount
      have hlen := length_argBytes arg
      rw [List.flatMap_cons] at hread
      rw [argParts, List.map_cons, ← argParts, nextLineByte, ← hlen] at hnext
      by_cases hline : k < (numberLine 36 arg.length).length
      · -- the length line is cut
        rw [if_pos hline] at hnext
        cases hnext
        rw [List.take_append_of_le_length (by omega), argBytes,
          List.take_append_of_le_length hline.le] at hread
        rw [List.length_cons, argvLoop, if_neg (by omega),
          reqStateLen_cut (Or.inl rfl) (by omega) hread hsmall hline hc hrefused]
        rfl
      · have hthere : HasAt read pos (numberLine 36 arg.length) := by
          rw [argBytes, List.append_assoc, List.take_append,
            List.take_of_length_le (not_lt.mp hline)] at hread
          exact (hasAt_append.mp hread).1
        rw [if_neg hline] at hnext
        rw [List.length_cons, argvLoop_succ hthere hsmall harg]
        by_cases hbody : k < (argBytes arg).length
        · -- the argument is cut, and the jump leads to the next length line
          rw [if_pos hbody] at hnext
          cases argv with
          | nil => cases hnext
          | cons arg' argv =>
              rw [if_neg (by simp [argParts])] at hnext
              cases hnext
              rw [show pos + k + ((argBytes arg).length - k) = pos + (argBytes arg).length by omega]
                at hc
              have hsmall' := hlater.1
              have hlen' := length_numberLine 36 arg'.length
              rw [List.length_cons, argvLoop, if_neg (by omega),
                reqStateLen_refused hc hrefused (Or.inr (by omega))]
              rfl
        · -- the argument is there, and the cut comes later
          rw [if_neg hbody] at hnext
          rw [List.take_append, List.take_of_length_le (not_lt.mp hbody)] at hread
          apply ih (hasAt_append.mp hread).2 hlater hnext
          rw [show pos + (argBytes arg).length + (k - (argBytes arg).length) + gap
            = pos + k + gap by omega]
          exact hc

theorem Request.length_bytes (r : Request) :
    r.bytes.length = (numberLine 42 r.argv.length).length + (r.argv.flatMap argBytes).length :=
  List.length_append

/-- A request has at least as many bytes as arguments. -/
theorem Request.length_argv_le (r : Request) : r.argv.length ≤ r.bytes.length := by
  rw [r.length_bytes, List.length_flatMap]
  have hsum : r.argv.length ≤ (r.argv.map fun arg => (argBytes arg).length).sum := by
    induction r.argv with
    | nil => simp
    | cons arg argv ih =>
        have hlen := length_argBytes arg
        rw [List.length_cons, List.map_cons, List.sum_cons]
        omega
  omega

/-- Short requests can be counted. -/
theorem Request.countable_of_length_lt {r : Request} (h : r.bytes.length < 2 ^ 31) :
    r.Countable := by
  have hargc := r.length_argv_le
  have hlen := r.length_bytes
  exact ⟨by omega, countable_of_end_lt (by omega)⟩

/-- The line with the number of arguments has 13 bytes at most. -/
theorem Request.Countable.line_le {r : Request} (h : r.Countable) :
    (numberLine 42 r.argv.length).length ≤ 13 := by
  have hten := length_decimal h.1
  rw [length_numberLine]
  omega

/-- The offsets into a countable request do not wrap. -/
theorem Request.Countable.length_lt {r : Request} (h : r.Countable) :
    r.bytes.length < 2 ^ 32 - 1 := by
  have hline := h.line_le
  rw [r.length_bytes]
  exact h.2.end_lt (by omega)

/-- **A request that is there is found.** -/
theorem walk_complete {read : ℕ → Option UInt8} {r : Request} (hread : HasAt read 0 r.bytes)
    (hcount : r.Countable) : walk read = .frame r.bytes.length := by
  have hargc := hcount.1
  have hshort := hcount.line_le
  obtain ⟨hline, hargv⟩ := hasAt_append.mp hread
  rw [zero_add] at hargv
  rw [walk, reqStateLen_line (Or.inr rfl) hargc hline (by omega), Line.andThen, atoi_decimal,
    if_neg (by omega), zero_add, argvLoop_complete hargv hcount.2 (by omega), r.length_bytes]

/-- **A request in part is refused** when the byte is where its next line goes on. -/
theorem walk_cut {read : ℕ → Option UInt8} {r : Request} {k gap : ℕ} {first term : Bool} {c : UInt8}
    (hread : HasAt read 0 (r.bytes.take k)) (hcount : r.Countable)
    (hnext : nextLineByte r.parts k = some (gap, first, term)) (hc : read (k + gap) = some c)
    (hrefused : scanByte first term c = .fail) : walk read = .fail := by
  have hargc := hcount.1
  have hshort := hcount.line_le
  rw [Request.parts, nextLineByte] at hnext
  by_cases hline : k < (numberLine 42 r.argv.length).length
  · -- the count line is cut
    rw [if_pos hline] at hnext
    cases hnext
    rw [Request.bytes, List.take_append_of_le_length hline.le] at hread
    rw [walk, reqStateLen_cut (Or.inr rfl) hargc hread (by omega) hline
      (by rw [zero_add]; exact hc) hrefused]
    rfl
  · rw [if_neg hline, if_neg (by omega), add_zero] at hnext
    rw [Request.bytes, List.take_append, List.take_of_length_le (not_lt.mp hline)] at hread
    obtain ⟨hthere, hargv⟩ := hasAt_append.mp hread
    rw [zero_add] at hargv
    rw [walk, reqStateLen_line (Or.inr rfl) hargc hthere (by omega), Line.andThen, atoi_decimal,
      if_neg (by omega), zero_add]
    refine argvLoop_cut hargv hcount.2 hnext ?_ hrefused
    rw [Nat.add_sub_cancel' (not_lt.mp hline)]
    exact hc

/-! ## The loop -/

/-- The memory of a buffer holds its data. -/
theorem hasAt_bufferMemory (data : List UInt8) (stale : ℕ → UInt8) :
    HasAt (fun i => some (bufferMemory data stale i)) 0 data := by
  intro j c hc
  dsimp only [bufferMemory]
  rw [zero_add, List.getD_eq_getElem?_getD, hc, Option.getD_some]

/-- A complete request at the front is found. -/
theorem searchDataFunc_complete {stale : ℕ → UInt8} (r : Request) (l : List UInt8) {len : ℕ}
    (hlen : r.bytes.length ≤ len) (hcount : r.Countable) :
    searchDataFunc stale (r.bytes ++ l) len = .ok (some r.bytes.length) := by
  have hpos := r.length_bytes
  rw [length_numberLine] at hpos
  rw [searchDataFunc, dataProcessFunc, if_neg (by omega),
    walk_complete (hasAt_append.mp (hasAt_bufferMemory _ _)).1 hcount]

/-- A request in part that is refused is left for later. -/
theorem searchDataFunc_cut {stale : ℕ → UInt8} {data : List UInt8} {rest : List Request}
    (hcount : ∀ r ∈ rest, r.Countable) (hdata : Part Request.bytes data rest)
    (hrefused : Refused rest data.length stale) :
    searchDataFunc stale data data.length = .ok none := by
  rw [searchDataFunc, dataProcessFunc]
  by_cases hempty : data.length = 0
  · rw [if_pos hempty]
  · rw [if_neg hempty]
    obtain ⟨hbegin, hcut⟩ := hdata
    cases rest with
    | nil =>
        rw [wire, List.flatMap_nil, List.prefix_nil] at hbegin
        exact absurd (List.length_eq_zero_iff.mpr hbegin) hempty
    | cons r rest =>
        have hlt := hcut r rfl
        obtain ⟨gap, first, term, hnext, hbyte⟩ := hrefused r data.length
          (by rw [cutAt, if_neg hempty, if_pos hlt])
        have htake : data = r.bytes.take data.length := by
          have hprefix : data <+: r.bytes :=
            List.prefix_of_prefix_length_le hbegin (List.prefix_append _ _) hlt.le
          exact List.prefix_iff_eq_take.mp hprefix
        have hread := hasAt_bufferMemory data stale
        rw [walk_cut (htake ▸ hread) (hcount r List.mem_cons_self) hnext ?_ hbyte]
        · dsimp only [bufferMemory]
          rw [List.getD_eq_getElem?_getD, List.getElem?_eq_none_iff.mpr (Nat.le_add_right _ _),
            Option.getD_none, Nat.add_sub_cancel_left]

theorem Request.length_bytes_pos (r : Request) : 0 < r.bytes.length := by
  rw [r.length_bytes, length_numberLine]
  omega

/-- Requests that have arrived do not matter for the one that is cut. -/
theorem cutAt_append (done rest : List Request) (n : ℕ) :
    cutAt (done ++ rest) ((wire Request.bytes done).length + n) = cutAt rest n := by
  induction done with
  | nil => simp [wire]
  | cons r done ih =>
      have hpos := r.length_bytes_pos
      rw [wire_cons, List.length_append, List.cons_append, cutAt, if_neg (by omega),
        if_neg (by omega), add_assoc, Nat.add_sub_cancel_left, ih]

/-- Requests that can be counted are found. -/
theorem search_handles {stale : ℕ → UInt8} {r : Request} (h : r.Countable) :
    Handles Request.bytes (searchDataFunc stale) r :=
  ⟨r.length_bytes_pos, h.length_lt, fun l _ hlen => searchDataFunc_complete r l hlen h⟩

/-- The search stops at a request in part that is refused. -/
theorem search_stops {stale : ℕ → UInt8} {requests : List Request} {read : List UInt8}
    (hcount : ∀ r ∈ requests, r.Countable)
    (hrefused : Refused requests read.length stale) :
    Stops Request.bytes (searchDataFunc stale) requests read := by
  rintro done left data rfl rfl hpart
  refine searchDataFunc_cut (fun r hr => hcount r (List.mem_append_right _ hr)) hpart ?_
  intro r k hcut
  apply hrefused r k
  rw [List.length_append, cutAt_append, hcut]

section Calls

variable {c : Conn} {requests : List Request} {read : List UInt8} {call : Call}

/-- **One call.**  It takes a connection that is right for what was read before to one that is
right for what has been read then, and returns -1 only at the end of the file. -/
theorem search_ok (h : c.recvbuf.Valid) (hcount : ∀ r ∈ requests, r.Countable)
    (hhanded : Handed Request.bytes requests read c) (hrs : Answers call.reads)
    (herr : .error ∉ call.reads)
    (hbytes : read ++ bytesOf call.reads <+: wire Request.bytes requests)
    (hrefused : Refused requests (read.length + (bytesOf call.reads).length) call.stale)
    (hgrows : GrowsWithin c.recvbuf.size c.recvbuf.off (sizes call.reads)) :
    ∃ c' rv, peerReadCbWith .trap (searchDataFunc call.stale) true c call.reads = .ok (c', rv)
      ∧ c'.recvbuf.Valid ∧ c'.recvbuf.size ≤ c.recvbuf.size + (bytesOf call.reads).length
      ∧ Handed Request.bytes requests (read ++ bytesOf call.reads) c'
      ∧ (rv < 0 → .eof ∈ call.reads) := by
  rw [← List.length_append] at hrefused
  obtain ⟨c', rv, hcall, hvalid, hsize, -, hhanded', hneg⟩ :=
    peerReadCbWith_ok h (fun r hr => search_handles (hcount r hr)) hhanded hrs herr hbytes
      (search_stops hcount hrefused) hgrows
  exact ⟨c', rv, hcall, hvalid, hsize, hhanded', hneg.mp⟩

/-- **Every call, from a connection that is right for what was read before.** -/
theorem runSearch_ok {calls : List Call} (h : c.recvbuf.Valid)
    (hcount : ∀ r ∈ requests, r.Countable)
    (hhanded : Handed Request.bytes requests read c)
    (hanswers : ∀ call ∈ calls, Answers call.reads) (herr : ∀ call ∈ calls, .error ∉ call.reads)
    (heof : ∀ call ∈ calls.dropLast, .eof ∉ call.reads)
    (hbytes : read ++ callBytes calls <+: wire Request.bytes requests)
    (hrefused : AllRefused requests read.length calls) (hfits : SearchFits c calls)
    {done : List Call} (hdone : done <+: calls) :
    ∃ c' killed, runSearch true c done = .ok (c', killed)
      ∧ Handed Request.bytes requests (read ++ callBytes done) c'
      ∧ (killed = true → ∃ call ∈ done, .eof ∈ call.reads) := by
  induction calls generalizing c read done with
  | nil =>
      rw [List.prefix_nil.mp hdone]
      exact ⟨c, false, rfl, by simpa [callBytes] using hhanded, by simp⟩
  | cons call calls ih =>
      cases done with
      | nil => exact ⟨c, false, rfl, by simpa [callBytes] using hhanded, by simp⟩
      | cons call' done =>
          obtain ⟨rfl, hrest⟩ := List.cons_prefix_cons.mp hdone
          obtain ⟨hhere, hlater⟩ := hrefused
          obtain ⟨hgrows, hnext⟩ := hfits
          have hcalls : ∀ calls,
              callBytes (call' :: calls) = bytesOf call'.reads ++ callBytes calls :=
            fun _ => List.flatMap_cons
          rw [hcalls, ← List.append_assoc] at hbytes
          obtain ⟨c₁, rv, hcall, hvalid, -, hhanded₁, hneg⟩ :=
            search_ok h hcount hhanded (hanswers call' List.mem_cons_self)
              (herr call' List.mem_cons_self) ((List.prefix_append _ _).trans hbytes) hhere hgrows
          rw [runSearch, hcall, hcalls, ← List.append_assoc]
          simp only [bind, Except.bind]
          by_cases hrv : rv < 0
          · -- the end of the file, and then this is the last call
            have hlast : calls = [] := by
              by_contra hcons
              exact heof call' (mem_dropLast_cons_self hcons) (hneg hrv)
            rw [hlast, List.prefix_nil] at hrest
            rw [if_pos hrv, hrest]
            exact ⟨c₁, true, rfl, by simpa [callBytes] using hhanded₁,
              fun _ => ⟨call', List.mem_cons_self, hneg hrv⟩⟩
          · rw [if_neg hrv]
            rw [← List.length_append] at hlater
            obtain ⟨c', killed, hrun, hhanded', hkilled⟩ :=
              ih hvalid hhanded₁ (fun r hr => hanswers r (List.mem_cons_of_mem _ hr))
                (fun r hr => herr r (List.mem_cons_of_mem _ hr))
                (fun r hr => heof r (mem_dropLast_cons hr)) hbytes hlater (hnext c₁ rv hcall) hrest
            refine ⟨c', killed, hrun, hhanded', fun hk => ?_⟩
            obtain ⟨call, hmem, he⟩ := hkilled hk
            exact ⟨call, List.mem_cons_of_mem _ hmem, he⟩

/-- The buffer fits in every call when the block and all that is read are smaller than
`2 ^ 32` bytes. -/
theorem searchFits_of_length_lt {calls : List Call} (h : c.recvbuf.Valid)
    (hcount : ∀ r ∈ requests, r.Countable)
    (hhanded : Handed Request.bytes requests read c)
    (hanswers : ∀ call ∈ calls, Answers call.reads) (herr : ∀ call ∈ calls, .error ∉ call.reads)
    (hbytes : read ++ callBytes calls <+: wire Request.bytes requests)
    (hrefused : AllRefused requests read.length calls)
    (hsmall : c.recvbuf.size + (callBytes calls).length < 2 ^ 32) : SearchFits c calls := by
  induction calls generalizing c read with
  | nil => trivial
  | cons call calls ih =>
      obtain ⟨hhere, hlater⟩ := hrefused
      rw [callBytes, List.flatMap_cons, ← callBytes] at hbytes hsmall
      rw [← List.append_assoc] at hbytes
      rw [List.length_append] at hsmall
      have hgrows : GrowsWithin c.recvbuf.size c.recvbuf.off (sizes call.reads) :=
        growsWithin_of_sum_lt (by rw [sizes_sum]; omega)
      obtain ⟨c₁, rv, hcall, hvalid, hsize, hhanded₁, -⟩ :=
        search_ok h hcount hhanded (hanswers call List.mem_cons_self)
          (herr call List.mem_cons_self) ((List.prefix_append _ _).trans hbytes) hhere hgrows
      refine ⟨hgrows, fun c' rv' hcall' => ?_⟩
      rw [hcall] at hcall'
      obtain ⟨rfl, rfl⟩ := Prod.mk.inj (Except.ok.inj hcall')
      rw [← List.length_append] at hlater
      exact ih hvalid hhanded₁ (fun r hr => hanswers r (List.mem_cons_of_mem _ hr))
        (fun r hr => herr r (List.mem_cons_of_mem _ hr)) hbytes hlater (by omega)

end Calls

/-! ## Main results -/

/-- Before anything is read. -/
theorem start_handed (requests : List Request) :
    Handed Request.bytes requests [] (Conn.start true) :=
  Conn.start_handed true fun r _ => r.length_bytes_pos

/-- **Framing does not depend on how the socket cuts the stream, as long as no call leaves a
request in part that is not refused.**  For every sequence of requests and every sequence of
calls that read them: when each call leaves no request in part, or one that lacks a byte of a
line while the block holds a byte in its place that is refused there, when the `int`s can
count the requests and when the buffer stays smaller than `2 ^ 32` bytes, then after each
call the complete requests among the bytes read have been handed to `msg_func`, each once and
in order, the buffer holds the other bytes, and the connection has been dropped only at the
end of the file. -/
theorem requests_framed (requests : List Request) (calls : List Call)
    (h : SearchReads requests calls) (hcount : ∀ r ∈ requests, r.Countable)
    (hrefused : AllRefused requests 0 calls) (hfits : SearchFits (Conn.start true) calls) :
    ∀ done, done <+: calls → ∃ c killed, runSearch true (Conn.start true) done = .ok (c, killed)
      ∧ Handed Request.bytes requests (callBytes done) c
      ∧ (killed = true → ∃ call ∈ done, .eof ∈ call.reads)
      ∧ (callBytes done = wire Request.bytes requests →
        c.delivered = requests.map Request.bytes ∧ c.recvbuf.data = []) := by
  intro done hdone
  obtain ⟨c, killed, hrun, hhanded, hkilled⟩ :=
    runSearch_ok (Conn.start_valid true) hcount (start_handed requests) h.answers h.noError
      h.eofLast h.bytes hrefused hfits hdone
  refine ⟨c, killed, hrun, hhanded, hkilled, fun hend => ?_⟩
  rw [List.nil_append, hend] at hhanded
  exact hhanded.complete

/-- The request `PING`, and one with an empty argument. -/
def pingRequests : List Request :=
  [⟨[[80, 73, 78, 71]], by simp⟩, ⟨[[71, 69, 84], []], by simp⟩]

/-- `*1\r\n$4\r\nPING\r\n*2\r\n$3\r\nGET\r\n$0\r\n\r\n`, cut inside the length line of the
first request and inside the first argument of the second, with zeros behind the data. -/
def pingCalls : List Call :=
  [⟨[.data [42, 49, 13, 10, 36], .eintr, .data [52], .eagain], fun _ => 0⟩,
    ⟨[.data [13, 10, 80, 73, 78, 71, 13, 10, 42, 50, 13, 10, 36, 51, 13, 10, 71], .eagain],
      fun _ => 0⟩,
    ⟨[.data [69, 84, 13, 10, 36, 48, 13, 10, 13, 10], .eof], fun _ => 0⟩]

/-- A read that ends in front of an offending byte is refused. -/
theorem refused_of_cutAt {requests : List Request} {r : Request} {n k gap : ℕ} {first term : Bool}
    {stale : ℕ → UInt8} (hcut : cutAt requests n = some (r, k))
    (hnext : nextLineByte r.parts k = some (gap, first, term))
    (hrefused : scanByte first term (stale gap) = .fail) : Refused requests n stale := by
  intro r' k' h
  rw [hcut] at h
  cases h
  exact ⟨gap, first, term, hnext, hrefused⟩

/-- Both requests are handed out, although two calls leave one in part. -/
theorem requests_framed_ping :
    ∃ c killed, runSearch true (Conn.start true) pingCalls = .ok (c, killed)
      ∧ c.delivered = pingRequests.map Request.bytes ∧ c.recvbuf.data = [] := by
  have hreads : SearchReads pingRequests pingCalls := by
    refine ⟨?_, ?_, ?_, ?_⟩
    · simp [pingCalls, Answers, bufSize]
    · simp [pingCalls]
    · simp [pingCalls]
    · decide
  have hcount : ∀ r ∈ pingRequests, r.Countable := by
    have hlengths : ∀ l ∈ pingRequests.map Request.bytes, l.length < 2 ^ 31 := by decide
    exact fun r hr => Request.countable_of_length_lt (hlengths _ (List.mem_map_of_mem hr))
  have hrefused : AllRefused pingRequests 0 pingCalls := by
    refine ⟨?_, ?_, ?_, trivial⟩
    · exact refused_of_cutAt (r := ⟨[[80, 73, 78, 71]], by simp⟩) (k := 6) rfl
        (show _ = some (0, false, false) by decide) rfl
    · exact refused_of_cutAt (r := ⟨[[71, 69, 84], []], by simp⟩) (k := 9) rfl
        (show _ = some (4, true, false) by decide) rfl
    · intro r k hcut
      cases hcut
  have hfits := searchFits_of_length_lt (Conn.start_valid true) hcount
    (start_handed pingRequests) hreads.answers hreads.noError hreads.bytes hrefused (by decide)
  obtain ⟨c, killed, hrun, -, -, hall⟩ :=
    requests_framed pingRequests pingCalls hreads hcount hrefused hfits _ (List.prefix_refl _)
  exact ⟨c, killed, hrun, hall (by decide)⟩

/-- The request `abc`, `*1\r\n$3\r\nabc\r\n`. -/
def abcRequest : Request := ⟨[[97, 98, 99]], by simp⟩

/-- Two calls read it; the first one is without its last three bytes. -/
def abcCalls : List Call :=
  [⟨[.data [42, 49, 13, 10, 36, 51, 13, 10, 97, 98], .eagain], fun _ => 0⟩,
    ⟨[.data [99, 13, 10], .eagain], fun _ => 0⟩]

/-- **A request that has arrived only in part.**  The socket hands over one request in two
calls and there is no end of file: the first call drops the connection, and the request is
never handed out. -/
theorem partial_argument_drops :
    SearchReads [abcRequest] abcCalls ∧ callBytes abcCalls = wire Request.bytes [abcRequest]
      ∧ (∀ call ∈ abcCalls, .eof ∉ call.reads)
      ∧ ∃ c, runSearch true (Conn.start true) abcCalls = .ok (c, true) ∧ c.delivered = [] := by
  have hbytes : callBytes abcCalls = wire Request.bytes [abcRequest] := by decide
  refine ⟨⟨?_, ?_, ?_, ?_⟩, hbytes, ?_, ?_⟩
  · simp [abcCalls, Answers, bufSize]
  · simp [abcCalls]
  · simp [abcCalls]
  · rw [hbytes]
  · simp [abcCalls]
  · have hrun : (runSearch true (Conn.start true) abcCalls).map (fun p => (p.1.delivered, p.2))
        = .ok ([], true) := by decide +kernel
    cases hc : runSearch true (Conn.start true) abcCalls with
    | error e =>
        rw [hc] at hrun
        cases hrun
    | ok p =>
        rw [hc] at hrun
        obtain ⟨hdelivered, hkilled⟩ := Prod.mk.inj (Except.ok.inj hrun)
        exact ⟨p.1, by rw [← hkilled], hdelivered⟩

end Zevent.Rtsearch

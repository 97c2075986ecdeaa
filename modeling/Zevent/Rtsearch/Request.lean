/-
# Finding the end of a request (`rtsearch/src/client_manager.c`, `request.c`)

`data_process_func` is the `data_func` of the search server: it walks over the receive
buffer, a count line, and for each argument a length line and a jump over the bytes it
announces, and reports where the request ends.  It is told how many bytes were received
and does not use it: the walk stops at a NUL or at a byte that does not belong into a
line, wherever that is.

The walk is written over a partial memory `read : ℕ → Option UInt8`.  On the memory behind
`buf` every byte is there; on the received bytes alone the walk may end with `more`, the
place where it would read past them.  `req->pos` is a `size_t`, but `req_state_len` counts in
an `int`, as `argc` and `argv_len` are, and the digits of a line go to an array of `BUF_SIZE`
bytes: what overflows one of them has the verdict `undefined`.

`verdict_of_received_bytes_iff` says for which received bytes the answer does not depend on
what happens to follow them.
-/
import Mathlib.Tactic

namespace Zevent.Rtsearch

/-! ## The walk -/

/-- `BUF_SIZE` of `request.h`. -/
def sbSize : ℕ := 1024 * 10

/-- `_table`, for the bytes that `req_state_len` looks up: 3 for the signs that start or end
a line, 2 for digits. -/
def table (c : UInt8) : ℕ :=
  if c = 10 ∨ c = 13 ∨ c = 36 ∨ c = 42 then 3
  else if 48 ≤ c ∧ c ≤ 57 then 2
  else if c = 69 ∨ c = 71 ∨ c = 84 then 1
  else 0

/-- What `req_state_len` makes of one byte: an error, the end of the line, or the next
`term` together with whether the byte is a digit. -/
inductive Scan where
  | fail
  | line
  | next (term digit : Bool)
  deriving DecidableEq

/-- The `switch` of `req_state_len`; `first` says that the byte starts the line. -/
def scanByte (first term : Bool) (c : UInt8) : Scan :=
  if c = 13 then .next true false
  else if c = 10 then if term then .line else .fail
  else if first then if table c = 3 then .next term false else .fail
  else if table c = 2 then .next term true else .fail

/-- How `req_state_len` ends: `STATE_FAIL`, an overflow, a read past the memory there is, or
`STATE_CONTINUE` with the new `pos` and the digits of the line. -/
inductive Line where
  | fail
  | undefined
  | more (pos : ℕ) (first term : Bool)
  | cont (pos : ℕ) (sb : List UInt8)
  deriving DecidableEq

/-- `req_state_len` from index `i` on, with the digits `sb` already stored. -/
def reqStateLen (read : ℕ → Option UInt8) (i : ℕ) (first term : Bool) (sb : List UInt8) : Line :=
  match read i with
  | none => .more i first term
  | some c =>
      if c = 0 then .fail
      else if _h : 2 ^ 31 ≤ i + 1 then .undefined
      else match scanByte first term c with
        | .fail => .fail
        | .line => .cont (i + 1) sb
        | .next term false => reqStateLen read (i + 1) false term sb
        | .next term true =>
            if sb.length + 1 < sbSize then reqStateLen read (i + 1) false term (sb ++ [c])
            else .undefined
termination_by 2 ^ 31 - i

/-- `atoi` of a string of digits. -/
def atoi (sb : List UInt8) : ℕ := sb.foldl (fun n c => 10 * n + (c.toNat - 48)) 0

/-- What `data_process_func` answers: -1, or 0 with `*off`; `undefined` and `more` as for a
line. -/
inductive Verdict where
  | fail
  | undefined
  | more (pos : ℕ) (first term : Bool)
  | frame (off : ℕ)
  deriving DecidableEq

/-- Go on after a line, or give its error back. -/
def Line.andThen (line : Line) (f : ℕ → ℕ → Verdict) : Verdict :=
  match line with
  | .fail => .fail
  | .undefined => .undefined
  | .more pos first term => .more pos first term
  | .cont pos sb => if 2 ^ 31 ≤ atoi sb then .undefined else f pos (atoi sb)

/-- The loop over the arguments. -/
def argvLoop (read : ℕ → Option UInt8) : ℕ → ℕ → Verdict
  | 0, pos => .frame (pos % 2 ^ 32)
  | n + 1, pos =>
      -- int i = req->pos, a negative index from 2 ^ 31 on
      if 2 ^ 31 ≤ pos then .undefined
      else
        (reqStateLen read pos true false []).andThen fun pos argvLen =>
          -- req->pos += argv_len + 2, where only the sum on the right is one of ints
          if 2 ^ 31 ≤ argvLen + 2 then .undefined
          else argvLoop read n (pos + (argvLen + 2))

/-- The walk over a request at the front of a memory. -/
def walk (read : ℕ → Option UInt8) : Verdict :=
  (reqStateLen read 0 true false []).andThen fun pos argc => argvLoop read argc pos

/-- `data_process_func(buf, len, &off)`, where `mem i` is `buf[i]`. -/
def dataProcessFunc (mem : ℕ → UInt8) (len : ℕ) : Verdict :=
  if len = 0 then .fail else walk fun i => some (mem i)

/-! ## Memories that agree on the received bytes -/

/-- The received bytes as a memory. -/
def received (bytes : List UInt8) : ℕ → Option UInt8 := fun i => bytes[i]?

/-- The memory starts with the received bytes. -/
def Starts (mem : ℕ → UInt8) (bytes : List UInt8) : Prop := ∀ i c, bytes[i]? = some c → mem i = c

/-- A larger memory: it has every byte that `read` has. -/
def Extends (read read' : ℕ → Option UInt8) : Prop := ∀ i c, read i = some c → read' i = some c

/-- Memory that starts with the bytes gives everything they give. -/
theorem Starts.extends {mem : ℕ → UInt8} {bytes : List UInt8} (h : Starts mem bytes) :
    Extends (received bytes) fun i => some (mem i) := by
  intro i c hc
  exact congrArg some (h i c hc)

/-- One byte of a line: its end, or the `term` and the digits it goes on with. -/
def lineStep (i : ℕ) (first term : Bool) (sb : List UInt8) (c : UInt8) :
    Line ⊕ (Bool × List UInt8) :=
  if c = 0 then .inl .fail
  else if 2 ^ 31 ≤ i + 1 then .inl .undefined
  else match scanByte first term c with
    | .fail => .inl .fail
    | .line => .inl (.cont (i + 1) sb)
    | .next term false => .inr (term, sb)
    | .next term true =>
        if sb.length + 1 < sbSize then .inr (term, sb ++ [c]) else .inl .undefined

theorem reqStateLen_none {read : ℕ → Option UInt8} {i : ℕ} (h : read i = none)
    (first term : Bool) (sb : List UInt8) :
    reqStateLen read i first term sb = .more i first term := by
  rw [reqStateLen, h]

theorem reqStateLen_some {read : ℕ → Option UInt8} {i : ℕ} {c : UInt8}
    (h : read i = some c) (first term : Bool) (sb : List UInt8) :
    reqStateLen read i first term sb = match lineStep i first term sb c with
      | .inl line => line
      | .inr (term, sb) => reqStateLen read (i + 1) false term sb := by
  rw [reqStateLen, h, lineStep]
  dsimp only
  by_cases hnul : c = 0
  · rw [if_pos hnul, if_pos hnul]
  · rw [if_neg hnul, if_neg hnul]
    by_cases hover : 2 ^ 31 ≤ i + 1
    · rw [dif_pos hover, if_pos hover]
    · rw [dif_neg hover, if_neg hover]
      cases scanByte first term c with
      | fail => rfl
      | line => rfl
      | next term digit =>
          cases digit with
          | false => rfl
          | true =>
              dsimp only
              split_ifs <;> rfl

/-- A line goes on inside of the range of `int` only. -/
theorem lineStep_inr {i : ℕ} {first term : Bool} {sb : List UInt8} {c : UInt8}
    {next : Bool × List UInt8} (h : lineStep i first term sb c = .inr next) :
    i + 1 < 2 ^ 31 := by
  unfold lineStep at h
  by_contra hover
  rw [if_pos (not_lt.mp hover)] at h
  split_ifs at h

theorem lineStep_inl {i : ℕ} {first term : Bool} {sb : List UInt8} {c : UInt8} {line : Line}
    (h : lineStep i first term sb c = .inl line) : ∀ p f t, line ≠ .more p f t := by
  rintro p f t rfl
  unfold lineStep at h
  by_cases hnul : c = 0
  · rw [if_pos hnul] at h
    cases h
  · by_cases hover : 2 ^ 31 ≤ i + 1
    · rw [if_neg hnul, if_pos hover] at h
      cases h
    · rw [if_neg hnul, if_neg hover] at h
      split at h
      · cases h
      · cases h
      · cases h
      · split_ifs at h
        cases h

/-- A line that ends in a memory ends in the same way in a larger one; a line that needs
more goes on there from the place where it stopped. -/
theorem reqStateLen_extends (read : ℕ → Option UInt8) (i : ℕ) (first term : Bool)
    (sb : List UInt8) :
    (∃ p f t sb', reqStateLen read i first term sb = .more p f t ∧ read p = none ∧
        ∀ read', Extends read read' →
          reqStateLen read' i first term sb = reqStateLen read' p f t sb') ∨
      (∀ p f t, reqStateLen read i first term sb ≠ .more p f t) ∧
        ∀ read', Extends read read' →
          reqStateLen read' i first term sb = reqStateLen read i first term sb := by
  -- induction on how far the `int` can still count
  induction hm : 2 ^ 31 - i using Nat.strong_induction_on generalizing i first term sb with
  | _ m ih =>
      cases hc : read i with
      | none => exact Or.inl ⟨i, first, term, sb, reqStateLen_none hc _ _ _, hc, fun _ _ => rfl⟩
      | some c =>
          cases hstep : lineStep i first term sb c with
          | inl line =>
              have hend : ∀ read', read' i = some c → reqStateLen read' i first term sb = line := by
                intro read' hread
                rw [reqStateLen_some hread, hstep]
              rw [hend read hc]
              exact Or.inr ⟨lineStep_inl hstep, fun read' he => hend read' (he i c hc)⟩
          | inr next =>
              obtain ⟨term', sb'⟩ := next
              have hi := lineStep_inr hstep
              have hgo : ∀ read', read' i = some c → reqStateLen read' i first term sb
                  = reqStateLen read' (i + 1) false term' sb' := by
                intro read' hread
                rw [reqStateLen_some hread, hstep]
              rcases ih (2 ^ 31 - (i + 1)) (by omega) (i + 1) false term' sb' rfl with
                ⟨p, f, t, sb₁, hmore, hp, hresume⟩ | ⟨hne, hsame⟩
              · refine Or.inl ⟨p, f, t, sb₁, (hgo read hc).trans hmore, hp, fun read' he => ?_⟩
                rw [hgo read' (he i c hc)]
                exact hresume read' he
              · rw [hgo read hc]
                refine Or.inr ⟨hne, fun read' he => ?_⟩
                rw [hgo read' (he i c hc)]
                exact hsame read' he

/-- What `data_process_func` does with a line: the count line, or the length line of an
argument with `n` more behind it. -/
def resume (read : ℕ → Option UInt8) (behind : Option ℕ) (line : Line) : Verdict :=
  match behind with
  | none => line.andThen fun pos argc => argvLoop read argc pos
  | some n => line.andThen fun pos argvLen =>
      if 2 ^ 31 ≤ argvLen + 2 then .undefined
      else argvLoop read n (pos + (argvLen + 2))

/-- A walk stopped for want of bytes at index `p`, in the middle of a line. -/
def StoppedAt (read : ℕ → Option UInt8) (p : ℕ) (first term : Bool)
    (go : (ℕ → Option UInt8) → Verdict) : Prop :=
  go read = .more p first term ∧ read p = none ∧ ∃ sb behind, ∀ read', Extends read read' →
    go read' = resume read' behind (reqStateLen read' p first term sb)

/-- The walk comes to its verdict, and to the same one in every larger memory. -/
def Settled (read : ℕ → Option UInt8) (go : (ℕ → Option UInt8) → Verdict) : Prop :=
  (∀ p first term, go read ≠ .more p first term) ∧ ∀ read', Extends read read' → go read' = go read

/-- A verdict that no further byte changes is settled. -/
theorem settled_of_const {read : ℕ → Option UInt8} {go : (ℕ → Option UInt8) → Verdict}
    {v : Verdict} (hv : ∀ p first term, v ≠ .more p first term)
    (h : ∀ read', Extends read read' → go read' = v) : Settled read go := by
  have hself : go read = v := h read fun _ _ hc => hc
  refine ⟨?_, fun read' he => (h read' he).trans hself.symm⟩
  rw [hself]
  exact hv

/-- A line and what follows it: the walk stops in the line, or what follows decides. -/
theorem line_extends {read : ℕ → Option UInt8} (behind : Option ℕ)
    {f : (ℕ → Option UInt8) → ℕ → ℕ → Verdict}
    (hbehind : ∀ read' line, resume read' behind line = line.andThen (f read'))
    (hf : ∀ pos v, (∃ p a t, StoppedAt read p a t fun read' => f read' pos v) ∨
      Settled read fun read' => f read' pos v) (i : ℕ) :
    (∃ p a t, StoppedAt read p a t fun read' =>
        (reqStateLen read' i true false []).andThen (f read')) ∨
      Settled read fun read' => (reqStateLen read' i true false []).andThen (f read') := by
  rcases reqStateLen_extends read i true false [] with
    ⟨p, a, t, sb, hmore, hp, hresume⟩ | ⟨hne, hsame⟩
  · -- stopped in this line
    refine Or.inl ⟨p, a, t, ?_, hp, sb, behind, fun read' he => ?_⟩
    · dsimp only
      rw [hmore]
      rfl
    · dsimp only
      rw [hbehind, hresume read' he]
  · cases hline : reqStateLen read i true false [] with
    | fail =>
        refine Or.inr (settled_of_const (v := .fail) (by simp) fun read' he => ?_)
        rw [hsame read' he, hline]
        rfl
    | undefined =>
        refine Or.inr (settled_of_const (v := .undefined) (by simp) fun read' he => ?_)
        rw [hsame read' he, hline]
        rfl
    | more p a t => exact absurd hline (hne p a t)
    | cont pos sb =>
        have hcont : ∀ read', Extends read read' →
            (reqStateLen read' i true false []).andThen (f read')
              = if 2 ^ 31 ≤ atoi sb then .undefined else f read' pos (atoi sb) := by
          intro read' he
          rw [hsame read' he, hline]
          rfl
        have hself : Extends read read := fun _ _ h => h
        by_cases hover : 2 ^ 31 ≤ atoi sb
        · refine Or.inr (settled_of_const (v := .undefined) (by simp) fun read' he => ?_)
          rw [hcont read' he, if_pos hover]
        · -- the line is there, and what follows it decides
          rcases hf pos (atoi sb) with ⟨p, a, t, hstop, hp, sb', behind', hresume⟩ | ⟨hv, hsettled⟩
          · refine Or.inl ⟨p, a, t, ?_, hp, sb', behind', fun read' he => ?_⟩
            · dsimp only
              rw [hcont read hself, if_neg hover]
              exact hstop
            · dsimp only
              rw [hcont read' he, if_neg hover]
              exact hresume read' he
          · refine Or.inr (settled_of_const hv fun read' he => ?_)
            rw [hcont read' he, if_neg hover]
            exact hsettled read' he

/-- The loop over the arguments has settled or waits at a place. -/
theorem argvLoop_extends (read : ℕ → Option UInt8) (n pos : ℕ) :
    (∃ p f t, StoppedAt read p f t fun read' => argvLoop read' n pos) ∨
      Settled read fun read' => argvLoop read' n pos := by
  induction n generalizing pos with
  | zero => exact Or.inr (settled_of_const (v := .frame (pos % 2 ^ 32)) (by simp) fun _ _ => rfl)
  | succ n ih =>
      by_cases hpos : 2 ^ 31 ≤ pos
      · refine Or.inr (settled_of_const (v := .undefined) (by simp) fun read' _ => ?_)
        rw [argvLoop, if_pos hpos]
      · simp only [argvLoop, if_neg hpos]
        refine line_extends (some n) (fun _ _ => rfl) (fun pos argvLen => ?_) pos
        by_cases hover : 2 ^ 31 ≤ argvLen + 2
        · refine Or.inr (settled_of_const (v := .undefined) (by simp) fun read' _ => ?_)
          rw [if_pos hover]
        · simp only [if_neg hover]
          exact ih _

/-- A walk over the received bytes stops for want of a byte, or every memory that starts
with them has its verdict. -/
theorem walk_extends (read : ℕ → Option UInt8) :
    (∃ p f t, StoppedAt read p f t walk) ∨ Settled read walk :=
  line_extends none (fun _ _ => rfl) (fun pos argc => argvLoop_extends read argc pos) 0

/-! ## What can follow -/

theorem scanByte_nul (first term : Bool) : scanByte first term 0 = .fail := by
  cases first <;> cases term <;> rfl

section Bytes

variable {read : ℕ → Option UInt8} {i : ℕ} {c : UInt8} {first term : Bool} {sb : List UInt8}

/-- A byte that does not belong into the line, unless the `int` overflows at it. -/
theorem reqStateLen_refused (hread : read i = some c) (hscan : scanByte first term c = .fail)
    (hsmall : c = 0 ∨ i + 1 < 2 ^ 31) : reqStateLen read i first term sb = .fail := by
  have hstep : lineStep i first term sb c = .inl .fail := by
    rw [lineStep, hscan]
    by_cases hnul : c = 0
    · rw [if_pos hnul]
    · rw [if_neg hnul, if_neg (by have := hsmall.resolve_left hnul; omega)]
  rw [reqStateLen_some hread, hstep]

/-- A byte of the line that is not a digit. -/
theorem reqStateLen_skip {term' : Bool} (hread : read i = some c) (hnul : c ≠ 0)
    (hscan : scanByte first term c = .next term' false) :
    reqStateLen read i first term sb
      = if i + 1 < 2 ^ 31 then reqStateLen read (i + 1) false term' sb else .undefined := by
  by_cases hsmall : i + 1 < 2 ^ 31
  · have hstep : lineStep i first term sb c = .inr (term', sb) := by
      rw [lineStep, hscan, if_neg hnul, if_neg (by omega)]
    rw [reqStateLen_some hread, hstep, if_pos hsmall]
  · have hstep : lineStep i first term sb c = .inl .undefined := by
      rw [lineStep, if_neg hnul, if_pos (by omega)]
    rw [reqStateLen_some hread, hstep, if_neg hsmall]

/-- A digit. -/
theorem reqStateLen_digit {term' : Bool} (hread : read i = some c) (hnul : c ≠ 0)
    (hscan : scanByte first term c = .next term' true) (hsb : sb.length + 1 < sbSize) :
    reqStateLen read i first term sb
      = if i + 1 < 2 ^ 31 then reqStateLen read (i + 1) false term' (sb ++ [c])
        else .undefined := by
  by_cases hsmall : i + 1 < 2 ^ 31
  · have hstep : lineStep i first term sb c = .inr (term', sb ++ [c]) := by
      rw [lineStep, hscan, if_neg hnul, if_neg (by omega)]
      dsimp only
      rw [if_pos hsb]
    rw [reqStateLen_some hread, hstep, if_pos hsmall]
  · have hstep : lineStep i first term sb c = .inl .undefined := by
      rw [lineStep, if_neg hnul, if_pos (by omega)]
    rw [reqStateLen_some hread, hstep, if_neg hsmall]

/-- The end of the line. -/
theorem reqStateLen_newline (hread : read i = some 10) :
    reqStateLen read i first true sb = if i + 1 < 2 ^ 31 then .cont (i + 1) sb else .undefined := by
  by_cases hsmall : i + 1 < 2 ^ 31
  · have hstep : lineStep i first true sb 10 = .inl (.cont (i + 1) sb) := by
      rw [lineStep, if_neg (by decide), if_neg (by omega)]
      rfl
    rw [reqStateLen_some hread, hstep, if_pos hsmall]
  · have hstep : lineStep i first true sb 10 = .inl .undefined := by
      rw [lineStep, if_neg (by decide), if_pos (by omega)]
    rw [reqStateLen_some hread, hstep, if_neg hsmall]

/-- A line ended by `\r\n` is not refused from here on. -/
theorem reqStateLen_crlf (hcr : read i = some 13) (hlf : read (i + 1) = some 10) :
    reqStateLen read i first term sb = .undefined ∨
      reqStateLen read i first term sb = .cont (i + 2) sb := by
  rw [reqStateLen_skip hcr (by decide) (show scanByte first term 13 = .next true false from rfl)]
  split_ifs
  · rw [reqStateLen_newline hlf]
    split_ifs
    · exact Or.inr rfl
    · exact Or.inl rfl
  · exact Or.inl rfl

end Bytes

/-- Where a walk stopped, a byte that is refused there ends it with an error. -/
theorem StoppedAt.fail {read read' : ℕ → Option UInt8} {p : ℕ} {first term : Bool}
    {go : (ℕ → Option UInt8) → Verdict} (h : StoppedAt read p first term go)
    (he : Extends read read') {c : UInt8} (hp : read' p = some c)
    (hrefused : scanByte first term c = .fail) (hsmall : c = 0 ∨ p + 1 < 2 ^ 31) :
    go read' = .fail := by
  obtain ⟨-, -, sb, behind, hresume⟩ := h
  rw [hresume read' he, reqStateLen_refused hp hrefused hsmall]
  cases behind <;> rfl

/-- The bytes `$0\r\n\r\n`: one empty argument. -/
def emptyArgument : List UInt8 := [36, 48, 13, 10, 13, 10]

/-- In a memory of empty arguments no length line is refused. -/
theorem argvLoop_emptyArguments {read : ℕ → Option UInt8} {pos : ℕ}
    (h : ∀ k, read (pos + k) = some (emptyArgument.getD (k % 6) 0)) (n : ℕ) :
    argvLoop read n pos ≠ .fail := by
  induction n generalizing pos with
  | zero => simp [argvLoop]
  | succ n ih =>
      have hline : reqStateLen read pos true false [] = .undefined ∨
          reqStateLen read pos true false [] = .cont (pos + 4) [48] := by
        have h0 : read pos = some 36 := h 0
        rw [reqStateLen_skip h0 (by decide)
          (show scanByte true false 36 = .next false false from rfl)]
        split_ifs
        · rw [reqStateLen_digit (h 1) (by decide)
            (show scanByte false false 48 = .next false true from rfl) (by decide)]
          split_ifs
          · exact reqStateLen_crlf (h 2) (h 3)
          · exact Or.inl rfl
        · exact Or.inl rfl
      rw [argvLoop]
      split_ifs
      · simp
      · rcases hline with hline | hline
        · rw [hline]
          simp [Line.andThen]
        · rw [hline]
          show (if 2 ^ 31 ≤ atoi [48] then Verdict.undefined
            else if 2 ^ 31 ≤ atoi [48] + 2 then .undefined
            else argvLoop read n (pos + 4 + (atoi [48] + 2))) ≠ .fail
          rw [show atoi [48] = 0 from rfl, if_neg (by decide), if_neg (by decide)]
          apply ih
          intro k
          rw [show pos + 4 + (0 + 2) + k = pos + (k + 6) by omega, h, Nat.add_mod_right]

/-- The received bytes, then the end of a line at `p` and empty arguments from `q` on. -/
def completed (bytes : List UInt8) (p q : ℕ) : ℕ → UInt8 := fun i =>
  if i < bytes.length then bytes.getD i 0
  else if i = p then 13
  else if i = p + 1 then 10
  else emptyArgument.getD ((i - q) % 6) 0

/-- Any start of a request can be completed: a line end, then empty arguments. -/
theorem completed_spec {bytes : List UInt8} {p q : ℕ} (hp : bytes.length ≤ p) (hq : p + 2 ≤ q) :
    Starts (completed bytes p q) bytes ∧ completed bytes p q p = 13 ∧
      completed bytes p q (p + 1) = 10 ∧
      ∀ k, completed bytes p q (q + k) = emptyArgument.getD (k % 6) 0 := by
  unfold completed
  refine ⟨?_, ?_, ?_, ?_⟩
  · intro i c hc
    have hi : i < bytes.length := (List.getElem?_eq_some_iff.mp hc).1
    dsimp only
    rw [if_pos hi, List.getD_eq_getElem?_getD, hc, Option.getD_some]
  · rw [if_neg (by omega), if_pos rfl]
  · rw [if_neg (by omega), if_neg (by omega), if_pos rfl]
  · intro k
    rw [if_neg (by omega), if_neg (by omega), if_neg (by omega), Nat.add_sub_cancel_left]

/-- Where a walk stopped, there are bytes that it does not refuse. -/
theorem StoppedAt.exists_ne_fail {bytes : List UInt8} {p : ℕ} {first term : Bool}
    {go : (ℕ → Option UInt8) → Verdict} (h : StoppedAt (received bytes) p first term go) :
    ∃ mem, Starts mem bytes ∧ go (fun i => some (mem i)) ≠ .fail := by
  obtain ⟨-, hnone, sb, behind, hresume⟩ := h
  have hp : bytes.length ≤ p := List.getElem?_eq_none_iff.mp hnone
  cases behind with
  | none =>
      -- the count line ends at once, and the arguments are empty ones
      obtain ⟨hstarts, hcr, hlf, htail⟩ := completed_spec hp (le_refl (p + 2))
      refine ⟨completed bytes p (p + 2), hstarts, ?_⟩
      rw [hresume _ hstarts.extends]
      rcases @reqStateLen_crlf (fun i => some (completed bytes p (p + 2) i)) p first term sb
        (congrArg some hcr) (congrArg some hlf) with hline | hline
      · rw [hline]
        simp [resume, Line.andThen]
      · rw [hline]
        simp only [resume, Line.andThen]
        split_ifs
        · simp
        · exact argvLoop_emptyArguments (fun k => congrArg some (htail k)) _
  | some n =>
      -- the length line ends at once, and empty arguments follow where its jump leads
      obtain ⟨hstarts, hcr, hlf, htail⟩ :=
        completed_spec hp (Nat.le_add_right (p + 2) (atoi sb + 2))
      refine ⟨completed bytes p (p + 2 + (atoi sb + 2)), hstarts, ?_⟩
      rw [hresume _ hstarts.extends]
      rcases @reqStateLen_crlf (fun i => some (completed bytes p (p + 2 + (atoi sb + 2)) i)) p
        first term sb (congrArg some hcr) (congrArg some hlf) with hline | hline
      · rw [hline]
        simp [resume, Line.andThen]
      · rw [hline]
        simp only [resume, Line.andThen]
        split_ifs
        · simp
        · simp
        · exact argvLoop_emptyArguments (fun k => congrArg some (htail k)) _

/-! ## Received bytes that decide -/

/-- The walk over the received bytes alone comes to an answer: it meets a NUL, an error or
the last length line before it would need a byte that was not received, and none of its
counters overflows. -/
def AnswersInside (bytes : List UInt8) : Prop :=
  walk (received bytes) ≠ .undefined ∧ ∀ p first term, walk (received bytes) ≠ .more p first term

/-- **The answer depends on the received bytes alone exactly when the walk over them comes
to an answer.**  For every received bytes: in every two buffers that start with them
`data_process_func` returns, and returns the same result and the same `off`, if and only if
nothing was received or the walk over them answers inside. -/
theorem verdict_of_received_bytes_iff (bytes : List UInt8) :
    (∀ mem mem', Starts mem bytes → Starts mem' bytes →
        dataProcessFunc mem bytes.length = dataProcessFunc mem' bytes.length ∧
          dataProcessFunc mem bytes.length ≠ .undefined)
      ↔ bytes = [] ∨ AnswersInside bytes := by
  by_cases hnil : bytes = []
  · subst hnil
    simp [dataProcessFunc]
  · have hlen : ¬ bytes.length = 0 := fun h => hnil (List.length_eq_zero_iff.mp h)
    have hfunc : ∀ mem, dataProcessFunc mem bytes.length = walk fun i => some (mem i) :=
      fun mem => if_neg hlen
    have hzero : Starts (fun i => bytes.getD i 0) bytes := by
      intro i c hc
      dsimp only
      rw [List.getD_eq_getElem?_getD, hc, Option.getD_some]
    simp only [hfunc, hnil, false_or]
    rcases walk_extends (received bytes) with ⟨p, first, term, hstop⟩ | hsettled
    · constructor
      · intro hall
        obtain ⟨mem, hstarts, hne⟩ := hstop.exists_ne_fail
        -- followed by a NUL, the same bytes are refused
        have hp : bytes.length ≤ p := List.getElem?_eq_none_iff.mp hstop.2.1
        have hnul : (fun i => some (bytes.getD i 0)) p = some 0 := by
          dsimp only
          rw [List.getD_eq_getElem?_getD, List.getElem?_eq_none_iff.mpr hp, Option.getD_none]
        have hfail := hstop.fail hzero.extends hnul (scanByte_nul first term) (Or.inl rfl)
        exact absurd ((hall _ _ hstarts hzero).1.trans hfail) hne
      · rintro ⟨-, hmore⟩
        exact absurd hstop.1 (hmore p first term)
    · have hverdict : ∀ mem, Starts mem bytes →
          walk (fun i => some (mem i)) = walk (received bytes) :=
        fun mem hstarts => hsettled.2 _ hstarts.extends
      constructor
      · intro hall
        have hdef := (hall _ _ hzero hzero).2
        exact ⟨fun h => hdef ((hverdict _ hzero).trans h), hsettled.1⟩
      · rintro ⟨hdef, -⟩ mem mem' hmem hmem'
        rw [hverdict mem hmem, hverdict mem' hmem']
        exact ⟨rfl, hdef⟩

/-- `*1\r\n$1` was received: followed by a NUL it is refused, followed by the end of a line
that an earlier request left behind it is a request of eleven bytes. -/
theorem verdict_depends_on_stale_bytes :
    Starts (fun i => ([42, 49, 13, 10, 36, 49] : List UInt8).getD i 0) [42, 49, 13, 10, 36, 49] ∧
      Starts (fun i => ([42, 49, 13, 10, 36, 49, 13, 10] : List UInt8).getD i 0)
        [42, 49, 13, 10, 36, 49] ∧
      dataProcessFunc (fun i => ([42, 49, 13, 10, 36, 49] : List UInt8).getD i 0) 6 = .fail ∧
      dataProcessFunc (fun i => ([42, 49, 13, 10, 36, 49, 13, 10] : List UInt8).getD i 0) 6
        = .frame 11 := by
  refine ⟨?_, ?_, by decide +kernel, by decide +kernel⟩
  · intro i c hc
    dsimp only
    rw [List.getD_eq_getElem?_getD, hc, Option.getD_some]
  · intro i c hc
    have hi := (List.getElem?_eq_some_iff.mp hc).1
    have hsame : ([42, 49, 13, 10, 36, 49, 13, 10] : List UInt8)[i]? = some c := by
      rw [← hc]
      show (([42, 49, 13, 10, 36, 49] : List UInt8) ++ [13, 10])[i]? = _
      exact List.getElem?_append_left hi
    dsimp only
    rw [List.getD_eq_getElem?_getD, hsame, Option.getD_some]

end Zevent.Rtsearch

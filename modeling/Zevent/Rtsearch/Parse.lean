/-
# Handling a request of the search server (`request.c`, `client_manager.c`, `cm_logic.c`)

When `data_process_func` has found the end of a request, `msg_process_func` walks over the
same bytes again with `request_parse`, which copies every argument into a block of exactly the
announced size, and hands the request to `cm_logic_set`, `cm_logic_get` or `cm_logic_del`.

* `Accepted.requestParse_agrees` says that the second walk agrees with the first: it needs no
  byte behind the request, and finds the same arguments and the same end.
* `Accepted.handledInBounds_iff` says for which requests what is done with the arguments stays
  inside of them: for those without arguments.  `request_dump` prints every argument as a C
  string, and no block has room for the NUL of its own text.
* `argvReads_lt_iff` is about the entries of `argv` alone: the handlers compare `argc` with one
  less than what they need.

The digits of a line go to an array of `BUF_SIZE` bytes without a check.  Here its size is a
number `size`: a request counts as accepted if it is with an array that is large enough, and
one whose digits do not fit is not handled in bounds.
-/
import Zevent.Lib.CString
import Zevent.Rtsearch.Framing

namespace Zevent.Rtsearch

open CString

/-! ## Lines, with the size of the array -/

/-- `req_state_len` with an array of `size` bytes for the digits. -/
def reqStateLenUpTo (size : ℕ) (read : ℕ → Option UInt8) (i : ℕ) (first term : Bool)
    (sb : List UInt8) : Line :=
  match read i with
  | none => .more i first term
  | some c =>
      if c = 0 then .fail
      else if _h : 2 ^ 31 ≤ i + 1 then .undefined
      else match scanByte first term c with
        | .fail => .fail
        | .line => .cont (i + 1) sb
        | .next term false => reqStateLenUpTo size read (i + 1) false term sb
        | .next term true =>
            if sb.length + 1 < size then
              reqStateLenUpTo size read (i + 1) false term (sb ++ [c])
            else .undefined
termination_by 2 ^ 31 - i

/-- The loop of `data_process_func` with an array of `size` bytes. -/
def argvLoopUpTo (size : ℕ) (read : ℕ → Option UInt8) : ℕ → ℕ → Verdict
  | 0, pos => .frame (pos % 2 ^ 32)
  | n + 1, pos =>
      if 2 ^ 31 ≤ pos then .undefined
      else
        (reqStateLenUpTo size read pos true false []).andThen fun pos argvLen =>
          if 2 ^ 31 ≤ argvLen + 2 then .undefined
          else argvLoopUpTo size read n (pos + (argvLen + 2))

section Lines

variable {size : ℕ} {read : ℕ → Option UInt8} {i : ℕ} {c : UInt8}

/-- A byte that neither ends the walk over the line nor overflows its counter. -/
theorem reqStateLenUpTo_some (hread : read i = some c) (hnul : c ≠ 0) (hover : i + 1 < 2 ^ 31)
    (first term : Bool) (sb : List UInt8) :
    reqStateLenUpTo size read i first term sb = match scanByte first term c with
      | .fail => .fail
      | .line => .cont (i + 1) sb
      | .next term false => reqStateLenUpTo size read (i + 1) false term sb
      | .next term true =>
          if sb.length + 1 < size then
            reqStateLenUpTo size read (i + 1) false term (sb ++ [c])
          else .undefined := by
  rw [reqStateLenUpTo, hread]
  dsimp only
  rw [if_neg hnul, dif_neg (by omega)]

/-- The walk over a line goes forward, its digits only grow, and it needs no byte behind. -/
theorem reqStateLenUpTo_cont {first term : Bool} {sb sb' : List UInt8} {pos : ℕ}
    (h : reqStateLenUpTo size read i first term sb = .cont pos sb') :
    i < pos ∧ pos < 2 ^ 31 ∧ sb.length ≤ sb'.length ∧
      ∀ read', (∀ k < pos, read' k = read k) →
        reqStateLenUpTo size read' i first term sb = .cont pos sb' := by
  fun_induction reqStateLenUpTo size read i first term sb with
  | case1 i first term sb hread => cases h
  | case2 i first term sb hread => cases h
  | case3 i first term sb c hread hnul hover => cases h
  | case4 i first term sb c hread hnul hover hscan => cases h
  | case5 i first term sb c hread hnul hover hscan =>
      cases h
      refine ⟨by omega, by omega, le_rfl, fun read' hagree => ?_⟩
      have hread' := (hagree i (by omega)).trans hread
      rw [reqStateLenUpTo_some hread' hnul (by omega), hscan]
  | case6 i first term sb c hread hnul hover term' hscan ih =>
      obtain ⟨hpos, hlt, hlen, hsame⟩ := ih h
      refine ⟨by omega, hlt, hlen, fun read' hagree => ?_⟩
      have hread' := (hagree i (by omega)).trans hread
      rw [reqStateLenUpTo_some hread' hnul (by omega), hscan]
      exact hsame read' hagree
  | case7 i first term sb c hread hnul hover term' hscan hroom ih =>
      obtain ⟨hpos, hlt, hlen, hsame⟩ := ih h
      rw [List.length_append, List.length_singleton] at hlen
      refine ⟨by omega, hlt, by omega, fun read' hagree => ?_⟩
      have hread' := (hagree i (by omega)).trans hread
      rw [reqStateLenUpTo_some hread' hnul (by omega), hscan]
      dsimp only
      rw [if_pos hroom]
      exact hsame read' hagree
  | case8 i first term sb c hread hnul hover term' hscan hroom => cases h

/-- In an array of another size the digits of a line fit or they overflow it. -/
theorem reqStateLenUpTo_size {first term : Bool} {sb sb' : List UInt8} {pos size' : ℕ}
    (h : reqStateLenUpTo size read i first term sb = .cont pos sb') (hsb : sb.length < size') :
    reqStateLenUpTo size' read i first term sb
      = if sb'.length < size' then .cont pos sb' else .undefined := by
  fun_induction reqStateLenUpTo size read i first term sb with
  | case1 i first term sb hread => cases h
  | case2 i first term sb hread => cases h
  | case3 i first term sb c hread hnul hover => cases h
  | case4 i first term sb c hread hnul hover hscan => cases h
  | case5 i first term sb c hread hnul hover hscan =>
      cases h
      rw [reqStateLenUpTo_some hread hnul (by omega), hscan, if_pos hsb]
  | case6 i first term sb c hread hnul hover term' hscan ih =>
      rw [reqStateLenUpTo_some hread hnul (by omega), hscan]
      exact ih h hsb
  | case7 i first term sb c hread hnul hover term' hscan hroom ih =>
      rw [reqStateLenUpTo_some hread hnul (by omega), hscan]
      dsimp only
      by_cases hfits : sb.length + 1 < size'
      · rw [if_pos hfits]
        exact ih h (by rwa [List.length_append, List.length_singleton])
      · -- this digit is the one that does not fit
        have hlen := (reqStateLenUpTo_cont h).2.2.1
        rw [List.length_append, List.length_singleton] at hlen
        rw [if_neg hfits, if_neg (by omega)]
  | case8 i first term sb c hread hnul hover term' hscan hroom => cases h

theorem reqStateLenUpTo_sbSize (read : ℕ → Option UInt8) (i : ℕ) (first term : Bool)
    (sb : List UInt8) :
    reqStateLenUpTo sbSize read i first term sb = reqStateLen read i first term sb := by
  fun_induction reqStateLen read i first term sb with
  | case1 i first term sb hread => rw [reqStateLenUpTo, hread]
  | case2 i first term sb hread =>
      rw [reqStateLenUpTo, hread]
      exact if_pos rfl
  | case3 i first term sb c hread hnul hover =>
      rw [reqStateLenUpTo, hread]
      dsimp only
      rw [if_neg hnul, dif_pos hover]
  | case4 i first term sb c hread hnul hover hscan =>
      rw [reqStateLenUpTo_some hread hnul (by omega), hscan]
  | case5 i first term sb c hread hnul hover hscan =>
      rw [reqStateLenUpTo_some hread hnul (by omega), hscan]
  | case6 i first term sb c hread hnul hover term' hscan ih =>
      rw [reqStateLenUpTo_some hread hnul (by omega), hscan]
      exact ih
  | case7 i first term sb c hread hnul hover term' hscan hroom ih =>
      rw [reqStateLenUpTo_some hread hnul (by omega), hscan]
      dsimp only
      rw [if_pos hroom, ih]
  | case8 i first term sb c hread hnul hover term' hscan hroom =>
      rw [reqStateLenUpTo_some hread hnul (by omega), hscan]
      dsimp only
      rw [if_neg hroom]

end Lines

theorem argvLoopUpTo_sbSize (read : ℕ → Option UInt8) (n pos : ℕ) :
    argvLoopUpTo sbSize read n pos = argvLoop read n pos := by
  induction n generalizing pos with
  | zero => rfl
  | succ n ih =>
      rw [argvLoopUpTo, argvLoop, reqStateLenUpTo_sbSize]
      simp only [ih]

/-! ## `request_parse` -/

/-- `CMD`. -/
inductive Cmd
  | ping
  | get
  | set
  | del
  | unknow
  deriving DecidableEq

/-- `struct request`: the blocks of the arguments, each with the bytes it was allocated for. -/
structure Parsed where
  argc : ℕ
  argv : List (List UInt8)
  pos : ℕ
  cmd : Cmd
  deriving DecidableEq

/-- How `request_parse` ends: 0, an overflow, a read past the memory there is, or 1. -/
inductive Parse
  | fail
  | undefined
  | more
  | ok (req : Parsed)
  deriving DecidableEq

/-- `strcmp(v, s) == 0`. -/
def streq (v : ℕ → UInt8) : List UInt8 → Bool
  | [] => v 0 = 0
  | c :: s => v 0 = c && streq (fun k => v (k + 1)) s

/-- The command that the first argument names. -/
def commandOf (v : ℕ → UInt8) : Cmd :=
  if streq v [112, 105, 110, 103] then .ping
  else if streq v [103, 101, 116] then .get
  else if streq v [115, 101, 116] then .set
  else if streq v [100, 101, 108] then .del
  else .unknow

/-- `if(v[k]>='A' && v[k]<='Z') v[k]+=32`. -/
def toLower (c : UInt8) : UInt8 := if 65 ≤ c ∧ c ≤ 90 then c + 32 else c

/-- `memcpy` of `n` bytes from index `i` on. -/
def copyFrom (read : ℕ → Option UInt8) (i : ℕ) : ℕ → Option (List UInt8)
  | 0 => some []
  | n + 1 => do
      let c ← read i
      let rest ← copyFrom read (i + 1) n
      some (c :: rest)

/-- The next argument; the first one is put into lower case and compared with the commands,
with `behind` the memory behind its block. -/
def Parsed.push (behind : ℕ → UInt8) (req : Parsed) (v : List UInt8) (pos : ℕ) : Parsed :=
  if req.argv = [] then
    let v := v.map toLower
    { req with argv := [v], pos := pos, cmd := commandOf (bufferMemory v behind) }
  else { req with argv := req.argv ++ [v], pos := pos }

/-- The loop of `request_parse`, with `n` arguments to go. -/
def parseArgs (size : ℕ) (read : ℕ → Option UInt8) (behind : ℕ → UInt8) : ℕ → Parsed → Parse
  | 0, req => .ok req
  | n + 1, req =>
      if 2 ^ 31 ≤ req.pos then .undefined
      else
        match reqStateLenUpTo size read req.pos true false [] with
        | .fail => .fail
        | .undefined => .undefined
        | .more _ _ _ => .more
        | .cont pos sb =>
            -- the int argv_len, and the int argv_len + 2
            if 2 ^ 31 ≤ atoi sb + 2 then .undefined
            else
              match copyFrom read pos (atoi sb) with
              | none => .more
              | some v => parseArgs size read behind n (req.push behind v (pos + (atoi sb + 2)))

/-- `request_parse`. -/
def requestParse (size : ℕ) (read : ℕ → Option UInt8) (behind : ℕ → UInt8) : Parse :=
  match reqStateLenUpTo size read 0 true false [] with
  | .fail => .fail
  | .undefined => .undefined
  | .more _ _ _ => .more
  | .cont pos sb =>
      if 2 ^ 31 ≤ atoi sb then .undefined
      else parseArgs size read behind (atoi sb) ⟨atoi sb, [], pos, .ping⟩

/-! ## `msg_process_func` -/

/-- The entries of `argv` that `cm_logic_set` reads. -/
def cmLogicSetReads (argc : ℕ) : List ℕ := if argc < 2 then [] else [2]

/-- The entries that `cm_logic_get` reads. -/
def cmLogicGetReads (argc : ℕ) : List ℕ := if argc < 1 then [] else [1]

/-- The entries that `cm_logic_del` reads. -/
def cmLogicDelReads (argc : ℕ) : List ℕ := if argc < 1 then [] else [1]

/-- The entries of `argv` that `msg_process_func` reads, each of them as a C string: all of
them in `request_dump`, then those that the handler of the command takes. -/
def argvReads (req : Parsed) : List ℕ :=
  List.range req.argc ++ match req.cmd with
    | .ping => []
    | .set => cmLogicSetReads req.argc
    | .get => cmLogicGetReads req.argc
    | .del => cmLogicDelReads req.argc
    | .unknow => []

/-! ## The two walks -/

section Walks

variable {size off : ℕ} {read read' : ℕ → Option UInt8} {behind : ℕ → UInt8}

/-- Bytes that can be read can be copied. -/
theorem copyFrom_eq_some {i n : ℕ} (h : ∀ k < i + n, ∃ c, read k = some c) :
    ∃ v, copyFrom read i n = some v ∧ v.length = n := by
  induction n generalizing i with
  | zero => exact ⟨[], rfl, rfl⟩
  | succ n ih =>
      obtain ⟨c, hc⟩ := h i (by omega)
      obtain ⟨v, hv, hlen⟩ := @ih (i + 1) fun k hk => h k (by omega)
      exact ⟨c :: v, by rw [copyFrom, hc, hv]; rfl, by rw [List.length_cons, hlen]⟩

theorem Parsed.push_pos (req : Parsed) (v : List UInt8) (pos : ℕ) :
    (req.push behind v pos).pos = pos := by
  unfold Parsed.push
  split_ifs <;> rfl

theorem Parsed.push_argc (req : Parsed) (v : List UInt8) (pos : ℕ) :
    (req.push behind v pos).argc = req.argc := by
  unfold Parsed.push
  split_ifs <;> rfl

theorem Parsed.length_push (req : Parsed) (v : List UInt8) (pos : ℕ) :
    (req.push behind v pos).argv.length = req.argv.length + 1 := by
  unfold Parsed.push
  split_ifs with hnil
  · rw [hnil]
    rfl
  · exact List.length_append

/-- Behind a line the walk goes on only if the line was complete and its number is an `int`. -/
theorem Line.andThen_eq_frame {line : Line} {f : ℕ → ℕ → Verdict}
    (h : line.andThen f = .frame off) :
    ∃ pos sb, line = .cont pos sb ∧ atoi sb < 2 ^ 31 ∧ f pos (atoi sb) = .frame off := by
  cases line with
  | fail => cases h
  | undefined => cases h
  | more pos first term => cases h
  | cont pos sb =>
      rw [Line.andThen] at h
      split_ifs at h with hatoi
      exact ⟨pos, sb, rfl, not_le.mp hatoi, h⟩

/-- One argument of the first walk: its line, and where the walk goes on. -/
theorem argvLoopUpTo_succ {n pos : ℕ} (h : argvLoopUpTo size read (n + 1) pos = .frame off) :
    pos < 2 ^ 31 ∧ ∃ pos' sb, reqStateLenUpTo size read pos true false [] = .cont pos' sb ∧
      atoi sb + 2 < 2 ^ 31 ∧ argvLoopUpTo size read n (pos' + (atoi sb + 2)) = .frame off := by
  rw [argvLoopUpTo] at h
  split_ifs at h with hpos
  obtain ⟨pos', sb, hline, -, hrest⟩ := Line.andThen_eq_frame h
  split_ifs at hrest with hover
  exact ⟨not_le.mp hpos, pos', sb, hline, not_le.mp hover, hrest⟩

/-- The first walk goes forward. -/
theorem argvLoopUpTo_le {n pos : ℕ} (h : argvLoopUpTo size read n pos = .frame off)
    (hpos : pos < 2 ^ 32) : pos ≤ off := by
  induction n generalizing pos with
  | zero =>
      rw [argvLoopUpTo, Nat.mod_eq_of_lt hpos, Verdict.frame.injEq] at h
      omega
  | succ n ih =>
      obtain ⟨-, pos', sb, hline, hover, hrest⟩ := argvLoopUpTo_succ h
      obtain ⟨hlt, hsmall, -, -⟩ := reqStateLenUpTo_cont hline
      have := ih hrest (by omega)
      omega

/-- **The two loops agree.**  Where the first one finds the end `off`, the second one does too,
and finds as many arguments, on any memory that has the same bytes in front of `off`. -/
theorem parseArgs_agrees {n : ℕ} {req : Parsed}
    (h : argvLoopUpTo size read n req.pos = .frame off) (hpos : req.pos < 2 ^ 32)
    (hsame : ∀ k < off, read' k = read k) (hthere : ∀ k < off, ∃ c, read' k = some c) :
    ∃ req', parseArgs size read' behind n req = .ok req' ∧ req'.pos = off ∧
      req'.argc = req.argc ∧ req'.argv.length = req.argv.length + n := by
  induction n generalizing req with
  | zero =>
      rw [argvLoopUpTo, Nat.mod_eq_of_lt hpos, Verdict.frame.injEq] at h
      exact ⟨req, rfl, h, rfl, rfl⟩
  | succ n ih =>
      obtain ⟨hlow, pos, sb, hline, hover, hrest⟩ := argvLoopUpTo_succ h
      obtain ⟨-, hsmall, -, hagree⟩ := reqStateLenUpTo_cont hline
      have hend := argvLoopUpTo_le hrest (by omega)
      have hline' := hagree read' fun k hk => hsame k (by omega)
      obtain ⟨v, hcopy, -⟩ := @copyFrom_eq_some read' pos (atoi sb)
        fun k hk => hthere k (by omega)
      rw [parseArgs, if_neg (by omega), hline']
      dsimp only
      rw [if_neg (by omega), hcopy]
      dsimp only
      obtain ⟨req', hparse, hoff, hargc, hlen⟩ :=
        @ih (req.push behind v (pos + (atoi sb + 2)))
          (by rw [Parsed.push_pos]; exact hrest) (by rw [Parsed.push_pos]; omega)
      rw [Parsed.push_argc] at hargc
      rw [Parsed.length_push] at hlen
      exact ⟨req', hparse, hoff, hargc, by omega⟩

/-- A successful walk stores every argument. -/
theorem parseArgs_length {n : ℕ} {req req' : Parsed}
    (h : parseArgs size read behind n req = .ok req') :
    req'.argc = req.argc ∧ req'.argv.length = req.argv.length + n := by
  induction n generalizing req with
  | zero =>
      cases h
      exact ⟨rfl, rfl⟩
  | succ n ih =>
      rw [parseArgs] at h
      split_ifs at h with hpos
      split at h
      · cases h
      · cases h
      · cases h
      · split_ifs at h
        split at h
        · cases h
        · obtain ⟨hargc, hlen⟩ := ih h
          rw [Parsed.push_argc] at hargc
          rw [Parsed.length_push] at hlen
          exact ⟨hargc, by omega⟩

/-- A parsed request has as many arguments as it counts. -/
theorem requestParse_length {req : Parsed} (h : requestParse size read behind = .ok req) :
    req.argv.length = req.argc := by
  rw [requestParse] at h
  split at h
  · cases h
  · cases h
  · cases h
  · split_ifs at h
    obtain ⟨hargc, hlen⟩ := parseArgs_length h
    rw [hlen, hargc]
    exact Nat.zero_add _

end Walks

/-! ## Accepted requests -/

/-- Received bytes that `data_process_func` accepts with an `off` inside of them: it finds a
count line, and behind it as many arguments. -/
structure Accepted where
  bytes : List UInt8
  mem : ℕ → UInt8
  size : ℕ
  pos : ℕ
  digits : List UInt8
  off : ℕ
  starts : Starts mem bytes
  count : reqStateLenUpTo size (fun i => some (mem i)) 0 true false [] = .cont pos digits
  small : atoi digits < 2 ^ 31
  frame : argvLoopUpTo size (fun i => some (mem i)) (atoi digits) pos = .frame off
  inside : off ≤ bytes.length

/-- The number of arguments. -/
def Accepted.argc (a : Accepted) : ℕ := atoi a.digits

/-- The bytes of the request alone, as a memory. -/
def Accepted.frameMemory (a : Accepted) : ℕ → Option UInt8 := received (a.bytes.take a.off)

/-- **The request is handled within bounds.**  `request_parse` succeeds on the bytes of the
request alone, with the same number of arguments and the same end; only entries of `argv`
below `argc` are read, and each of them is, as a C string, all of its block and nothing else. -/
def Accepted.HandledInBounds (a : Accepted) (behind : ℕ → UInt8) : Prop :=
  ∃ req, requestParse sbSize a.frameMemory behind = .ok req ∧ req.argc = a.argc ∧
    req.pos = a.off ∧ (∀ i ∈ argvReads req, i < req.argc) ∧
    ∀ i ∈ argvReads req, ∀ v, req.argv[i]? = some v → strlen v = some v.length

namespace Accepted

variable (a : Accepted) {behind : ℕ → UInt8}

/-- Whatever `data_process_func` accepts with its array of `BUF_SIZE` bytes is an accepted
request. -/
theorem exists_of_frame {bytes : List UInt8} {mem : ℕ → UInt8} {off : ℕ}
    (hstarts : Starts mem bytes) (h : dataProcessFunc mem bytes.length = .frame off)
    (hoff : off ≤ bytes.length) :
    ∃ a : Accepted, a.bytes = bytes ∧ a.mem = mem ∧ a.off = off ∧ a.size = sbSize := by
  rw [dataProcessFunc] at h
  split_ifs at h
  rw [walk] at h
  obtain ⟨pos, sb, hline, hatoi, hrest⟩ := Line.andThen_eq_frame h
  refine ⟨⟨bytes, mem, sbSize, pos, sb, off, hstarts, ?_, hatoi, ?_, hoff⟩, rfl, rfl, rfl, rfl⟩
  · rw [reqStateLenUpTo_sbSize, hline]
  · rw [argvLoopUpTo_sbSize, hrest]

/-- Inside of the frame the memory is what was received. -/
theorem frameMemory_eq {k : ℕ} (hk : k < a.off) : a.frameMemory k = some (a.mem k) := by
  have hlen := a.inside
  obtain ⟨c, hc⟩ : ∃ c, a.bytes[k]? = some c :=
    ⟨_, List.getElem?_eq_getElem (show k < a.bytes.length by omega)⟩
  rw [frameMemory, received, List.getElem?_take_of_lt hk, hc, a.starts k c hc]

/-- The place behind the first line is an `int`. -/
theorem pos_lt : a.pos < 2 ^ 31 := (reqStateLenUpTo_cont a.count).2.1

theorem pos_le_off : a.pos ≤ a.off := by
  have := a.pos_lt
  exact argvLoopUpTo_le a.frame (by omega)

/-- The count line, in an array of any size. -/
theorem frameMemory_count {size : ℕ} (hsize : 0 < size) :
    reqStateLenUpTo size a.frameMemory 0 true false []
      = if a.digits.length < size then .cont a.pos a.digits else .undefined := by
  have hle := a.pos_le_off
  have hcount := (reqStateLenUpTo_cont a.count).2.2.2 a.frameMemory
    fun k hk => a.frameMemory_eq (by omega)
  exact reqStateLenUpTo_size hcount hsize

/-- **The second walk agrees with the first.**  On the bytes of the request alone, and with
the array that the first walk had, `request_parse` succeeds with the same number of arguments
and the same end. -/
theorem requestParse_agrees (behind : ℕ → UInt8) :
    ∃ req, requestParse a.size a.frameMemory behind = .ok req ∧ req.argc = a.argc ∧
      req.pos = a.off ∧ req.argv.length = a.argc := by
  have hpos := a.pos_lt
  have hle := a.pos_le_off
  have hcount := (reqStateLenUpTo_cont a.count).2.2.2 a.frameMemory
    fun k hk => a.frameMemory_eq (by omega)
  obtain ⟨req, hparse, hoff, hargc, hlen⟩ :=
    @parseArgs_agrees _ _ _ _ behind _ ⟨a.argc, [], a.pos, .ping⟩ a.frame
      (show a.pos < 2 ^ 32 by omega) (fun k hk => a.frameMemory_eq hk)
      fun k hk => ⟨_, a.frameMemory_eq hk⟩
  refine ⟨req, ?_, hargc, hoff, hlen.trans (Nat.zero_add _)⟩
  rw [requestParse, hcount]
  dsimp only
  rw [if_neg (not_le.mpr a.small)]
  exact hparse

end Accepted

/-! ## What is done with the arguments -/

/-- **Which requests are handled by the right entries of `argv`**: not a `set` without a third
argument, and not a `get` or `del` without a second one. -/
theorem argvReads_lt_iff (req : Parsed) :
    (∀ i ∈ argvReads req, i < req.argc)
      ↔ ¬ (req.cmd = .set ∧ req.argc = 2) ∧
        ¬ ((req.cmd = .get ∨ req.cmd = .del) ∧ req.argc = 1) := by
  have hrange : ∀ i ∈ List.range req.argc, i < req.argc := fun i hi => List.mem_range.mp hi
  rw [argvReads, List.forall_mem_append, and_iff_right hrange]
  cases req.cmd with
  | ping => simp
  | unknow => simp
  | set =>
      dsimp only
      rw [cmLogicSetReads]
      split_ifs with h
      · simp
        omega
      · simp
        omega
  | get =>
      dsimp only
      rw [cmLogicGetReads]
      split_ifs with h
      · simp
        omega
      · simp
        omega
  | del =>
      dsimp only
      rw [cmLogicDelReads]
      split_ifs with h
      · simp
        omega
      · simp
        omega

/-- A request without arguments has none that is read. -/
theorem argvReads_eq_nil {req : Parsed} (h : req.argc = 0) : argvReads req = [] := by
  rw [argvReads, h]
  cases req.cmd <;> rfl

/-- A block never has room for its own text and a NUL. -/
theorem strlen_ne_length (v : List UInt8) : strlen v ≠ some v.length := by
  intro h
  obtain ⟨hnul, hlen⟩ := strlen_eq_some_iff.mp h
  obtain ⟨r, hr⟩ := eq_text_append hnul
  have := congrArg List.length hr
  rw [List.length_append, List.length_cons, hlen] at this
  omega

/-- **A request is handled within bounds exactly if it has no arguments** and the digits of
its count line leave room for a NUL in the array of `BUF_SIZE` bytes. -/
theorem Accepted.handledInBounds_iff (a : Accepted) (behind : ℕ → UInt8) :
    a.HandledInBounds behind ↔ a.argc = 0 ∧ a.digits.length < sbSize := by
  have hcount := a.frameMemory_count (show 0 < sbSize by decide)
  constructor
  · rintro ⟨req, hparse, hargc, -, -, htext⟩
    constructor
    · -- the first argument is printed
      by_contra hne
      have hlen := requestParse_length hparse
      have hzero : 0 ∈ argvReads req :=
        List.mem_append_left _ (List.mem_range.mpr (by omega))
      obtain ⟨v, hv⟩ : ∃ v, req.argv[0]? = some v :=
        ⟨_, List.getElem?_eq_getElem (show 0 < req.argv.length by omega)⟩
      exact strlen_ne_length v (htext 0 hzero v hv)
    · by_contra hroom
      rw [if_neg hroom] at hcount
      rw [requestParse, hcount] at hparse
      cases hparse
  · rintro ⟨hnone, hroom⟩
    -- with no arguments, the same walk with the array that there is
    have hread : reqStateLenUpTo sbSize (fun i => some (a.mem i)) 0 true false []
        = .cont a.pos a.digits := by
      rw [reqStateLenUpTo_size a.count (by decide), if_pos hroom]
    have hframe : argvLoopUpTo sbSize (fun i => some (a.mem i)) (atoi a.digits) a.pos
        = .frame a.off := by
      have hsame := a.frame
      rw [show atoi a.digits = 0 from hnone, argvLoopUpTo] at hsame ⊢
      exact hsame
    obtain ⟨req, hparse, hargc, hoff, -⟩ :=
      Accepted.requestParse_agrees { a with size := sbSize, count := hread, frame := hframe } behind
    have hreads : argvReads req = [] := argvReads_eq_nil (hargc.trans hnone)
    refine ⟨req, hparse, hargc, hoff, ?_, ?_⟩
    · rw [hreads]
      exact fun i hi => absurd hi List.not_mem_nil
    · rw [hreads]
      exact fun i hi => absurd hi List.not_mem_nil

/-- The request `*2\r\n$3\r\nset\r\n$1\r\nx\r\n`. -/
def setRequest : List UInt8 :=
  [42, 50, 13, 10, 36, 51, 13, 10, 115, 101, 116, 13, 10, 36, 49, 13, 10, 120, 13, 10]

/-- It is accepted. -/
def setAccepted : Accepted where
  bytes := setRequest
  mem i := setRequest.getD i 0
  size := sbSize
  pos := 4
  digits := [50]
  off := 20
  starts := by
    intro i c hc
    dsimp only
    rw [List.getD_eq_getElem?_getD, hc, Option.getD_some]
  count := by decide +kernel
  small := by decide
  frame := by decide +kernel
  inside := by decide

/-- **A `set` without its data.**  The request has two arguments, and `cm_logic_set` reads the
third one. -/
theorem set_reads_third :
    dataProcessFunc setAccepted.mem setRequest.length = .frame 20 ∧
      requestParse sbSize setAccepted.frameMemory (fun _ => 0)
        = .ok ⟨2, [[115, 101, 116], [120]], 20, .set⟩ ∧
      argvReads ⟨2, [[115, 101, 116], [120]], 20, .set⟩ = [0, 1, 2] ∧
      ¬ setAccepted.HandledInBounds fun _ => 0 := by
  have hparse : requestParse sbSize setAccepted.frameMemory (fun _ => 0)
      = .ok ⟨2, [[115, 101, 116], [120]], 20, .set⟩ := by decide +kernel
  refine ⟨by decide +kernel, hparse, rfl, ?_⟩
  rintro ⟨req, hreq, -, -, hreads, -⟩
  rw [hparse, Parse.ok.injEq] at hreq
  subst hreq
  exact absurd (hreads 2 (by decide)) (by decide)

end Zevent.Rtsearch

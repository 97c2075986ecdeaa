/-
# A download (`dlmanager::http_request_get`, `ZNet_Common_Socket_Recv`)

Once the header has named the length of the content, `http_request_get` allocates a block and
receives into it until nothing remains, each time as much as its share of the bandwidth allows.

The peer is the list of what the calls of `recv` meet; behind the end of the list it has closed
the connection.  `ZNet_Common_Socket_Recv` reports a connection that is closed as a receive of 0
bytes that went well, and the loop goes on with as much remaining as before.  It goes on as well
when its share is 0: the counter of the bandwidth is shared with the other threads, and they may
have emptied it whenever this one looks.  And the test for a failed `malloc` reads the first byte
of the block instead of the pointer.

* `znetRecv_spec` says what one receive does, `loop_result` what the loop returns when it ends,
  `exists_loop` when it ends and `loop_closed`, `loop_starved` when it does not.
* `download_ends_iff` is the result: whatever the thread finds in the counter, a download ends
  with the right answer exactly when the conditions of `Fine` hold and there is no limit; under a
  limit it does when the thread finds a share again and again.  `closed_early` is a download that
  never ends.
-/
import Mathlib.Tactic
import Zevent.Minidownloader.RateLimit

namespace Zevent.Minidownloader

/-! ## Receiving -/

/-- What a call of `recv` meets: bytes, of which it takes as many as it asks for; a time-out of
`Select_Till_Readyread` in front of it; an error. -/
inductive RecvEvent
  | data (b : UInt8) (bs : List UInt8)
  | timeout
  | error
deriving DecidableEq

/-- `ZNet_Common_Socket_Recv` with `amt` bytes to go and `sofar` received: the bytes, or `none`
for `SOCKET_RECV_FAILED`.  Behind the last event `recv` returns 0. -/
def znetRecv : ℕ → List RecvEvent → List UInt8 → Option (List UInt8) × List RecvEvent
  | 0, events, sofar => (some sofar, events)
  | _ + 1, [], sofar => (some sofar, [])
  | _ + 1, .timeout :: events, sofar => (some sofar, events)
  | _ + 1, .error :: events, _ => (none, events)
  | amt + 1, .data b bs :: events, sofar =>
      match (b :: bs).drop (amt + 1) with
      | [] => znetRecv (amt + 1 - (b :: bs).length) events (sofar ++ (b :: bs))
      | b' :: bs' => (some (sofar ++ (b :: bs).take (amt + 1)), .data b' bs' :: events)

/-- The bytes that the peer sends, up to an error. -/
def stream : List RecvEvent → List UInt8
  | [] => []
  | .data b bs :: events => b :: bs ++ stream events
  | .timeout :: events => stream events
  | .error :: _ => []

/-- A measure of what is still to come. -/
def pending : List RecvEvent → ℕ
  | [] => 0
  | .data _ bs :: events => bs.length + 2 + pending events
  | .timeout :: events => 1 + pending events
  | .error :: events => 1 + pending events

/-- **One receive.**  It delivers the next bytes of the stream, at most as many as were asked
for, and something is met unless the connection is closed; or it has met an error. -/
theorem znetRecv_spec (amt : ℕ) (events : List RecvEvent) (sofar : List UInt8) :
    (∃ got rest, znetRecv amt events sofar = (some (sofar ++ got), rest) ∧
      stream events = got ++ stream rest ∧ got.length ≤ amt ∧
      (.error ∈ rest ↔ .error ∈ events) ∧ pending rest ≤ pending events ∧
      (0 < amt → events ≠ [] → pending rest < pending events)) ∨
    (∃ rest, znetRecv amt events sofar = (none, rest)) ∧ .error ∈ events := by
  induction events generalizing amt sofar with
  | nil =>
      left
      refine ⟨[], [], ?_, rfl, Nat.zero_le _, Iff.rfl, le_rfl, fun _ hne => absurd rfl hne⟩
      cases amt <;> rw [znetRecv, List.append_nil]
  | cons event events ih =>
      cases amt with
      | zero =>
          left
          refine ⟨[], event :: events, ?_, rfl, le_rfl, Iff.rfl, le_rfl,
            fun h => absurd h (by omega)⟩
          rw [znetRecv, List.append_nil]
      | succ amt =>
          cases event with
          | timeout =>
              left
              refine ⟨[], events, by rw [znetRecv, List.append_nil], rfl, Nat.zero_le _, by simp,
                ?_, fun _ _ => ?_⟩
              · rw [pending]
                omega
              · rw [pending]
                omega
          | error => exact Or.inr ⟨⟨events, rfl⟩, List.mem_cons_self⟩
          | data b bs =>
              cases hdrop : (b :: bs).drop (amt + 1) with
              | nil =>
                  have hlen := List.drop_eq_nil_iff.mp hdrop
                  have hrun : znetRecv (amt + 1) (.data b bs :: events) sofar
                      = znetRecv (amt + 1 - (b :: bs).length) events (sofar ++ (b :: bs)) := by
                    rw [znetRecv, hdrop]
                  rcases ih (amt + 1 - (b :: bs).length) (sofar ++ (b :: bs)) with
                    ⟨got, rest, hgot, hstream, hle, herror, hpending, -⟩ | ⟨⟨rest, hfail⟩, herror⟩
                  · left
                    refine ⟨b :: bs ++ got, rest, ?_, ?_, ?_, ?_, ?_, fun _ _ => ?_⟩
                    · rw [hrun, hgot, List.append_assoc]
                    · rw [stream, hstream, List.append_assoc]
                    · rw [List.length_append]
                      omega
                    · rw [herror]
                      simp
                    · rw [pending]
                      omega
                    · rw [pending]
                      omega
                  · right
                    refine ⟨⟨rest, ?_⟩, List.mem_cons_of_mem _ herror⟩
                    rw [hrun, hfail]
              | cons b' bs' =>
                  left
                  have hlen := congrArg List.length hdrop
                  rw [List.length_drop, List.length_cons, List.length_cons] at hlen
                  refine ⟨(b :: bs).take (amt + 1), .data b' bs' :: events, ?_, ?_, ?_, by simp, ?_,
                    fun _ _ => ?_⟩
                  · rw [znetRecv, hdrop]
                  · rw [stream, stream, ← hdrop, ← List.append_assoc, List.take_append_drop]
                  · exact List.length_take_le _ _
                  · rw [pending, pending]
                    omega
                  · rw [pending, pending]
                    omega

/-! ## The download -/

/-- A download: the length that the header names, the first byte of the block that `malloc`
returns (`none` is `NULL`), the bandwidth, and what the receives meet.  Round `i` of the loop sees
`shutdown i`. -/
structure Download where
  contentLength : ℕ
  le_max : contentLength ≤ 100 * 1024 * 1024
  block : Option UInt8
  netBwLimitIn : UInt32
  threadCount : ℕ
  threads_pos : 0 < threadCount
  threads_int : threadCount < 2 ^ 31
  shutdown : ℕ → Bool
  events : List RecvEvent

/-- What `http_request_get` returns, the response that it stores, and the bytes that the receives
have delivered. -/
structure DlOutcome where
  ret : ℤ
  response : Option (List UInt8)
  received : List UInt8
deriving DecidableEq

namespace Download

/-- `want_read` in round `i`, which finds `counter i` in `m_bw_bytes_in`. -/
def wantRead (d : Download) (counter : ℕ → UInt32) (i : ℕ) (remain : ℤ) : ℤ :=
  if d.netBwLimitIn = 0 then remain else (takeShare (counter i) d.threadCount remain).1

/-- The loop from round `i` on, and what comes behind it; `fuel` bounds the rounds. -/
def loop (d : Download) (counter : ℕ → UInt32) :
    ℕ → ℕ → ℤ → List UInt8 → List RecvEvent → Option DlOutcome
  | 0, _, _, _, _ => none
  | fuel + 1, i, remain, received, events =>
      if remain > 0 ∧ d.shutdown i = false then
        let wantRead := d.wantRead counter i remain
        if wantRead ≤ 0 then d.loop counter fuel (i + 1) remain received events
        else
          match znetRecv (min wantRead maxBytesPerRecv).toNat events [] with
          | (none, _) => some ⟨-1, none, received⟩
          | (some bytes, events) =>
              d.loop counter fuel (i + 1) (remain - bytes.length) (received ++ bytes) events
      else if remain > 0 then some ⟨-1, none, received⟩
      else some ⟨0, some (received ++ [0]), received⟩

/-- `http_request_get` from the `malloc` on; the test `NULL == *http_content` reads the block, and
does not come back from `NULL`. -/
def httpRequestGet (d : Download) (counter : ℕ → UInt32) (fuel : ℕ) : Option DlOutcome :=
  match d.block with
  | none => none
  | some b =>
      if b = 0 then some ⟨-1, none, []⟩
      else d.loop counter fuel 0 d.contentLength [] d.events

/-- What a download should return: 0 exactly when the whole content was received, and then the
received bytes, which are those the peer sent. -/
def Right (d : Download) (outcome : DlOutcome) : Prop :=
  (outcome.ret = 0 ↔ outcome.received.length = d.contentLength) ∧
    (outcome.ret = 0 → outcome.response = some (outcome.received ++ [0])) ∧
    outcome.received <+: stream d.events

/-- The download ends, and with what it should return. -/
def EndsRight (d : Download) (counter : ℕ → UInt32) : Prop :=
  ∃ fuel outcome, d.httpRequestGet counter fuel = some outcome ∧ d.Right outcome

/-- Round `i` gives a share of whatever remains: there is no limit, or the counter has a byte for
each thread, or the whole content. -/
def Shares (d : Download) (counter : ℕ → UInt32) (i : ℕ) : Prop :=
  d.netBwLimitIn = 0 ∨ d.threadCount ≤ (counter i).toNat ∨ d.contentLength ≤ (counter i).toNat

/-- The thread finds a share again and again. -/
def Fed (d : Download) (counter : ℕ → UInt32) : Prop := ∀ i, ∃ j, i ≤ j ∧ d.Shares counter j

/-- The condition.  `malloc` succeeds; and when the block starts with a zero byte, the content is
not empty; and else the content is empty, or the downloader shuts down, or the loop is `fed` and the
peer sends the whole content or the connection fails. -/
def Fine (d : Download) (fed : Prop) : Prop :=
  ∃ b, d.block = some b ∧
    if b = 0 then d.contentLength ≠ 0
    else d.contentLength = 0 ∨ (∃ i, d.shutdown i = true) ∨
      fed ∧ (.error ∈ d.events ∨ d.contentLength ≤ (stream d.events).length)

/-! ## The loop -/

variable {d : Download} {counter : ℕ → UInt32} {i : ℕ} {remain : ℤ} {received : List UInt8}
  {events : List RecvEvent}

/-- Where the loop stands: what was received and what is to come are the stream, and the rest of the
content remains. -/
structure Stands (d : Download) (remain : ℤ) (received : List UInt8) (events : List RecvEvent) :
    Prop where
  total : remain + received.length = d.contentLength
  nonneg : 0 ≤ remain
  order : received ++ stream events = stream d.events
  error : .error ∈ events ↔ .error ∈ d.events

theorem stands_start (d : Download) : d.Stands d.contentLength [] d.events where
  total := by simp
  nonneg := Int.natCast_nonneg _
  order := rfl
  error := Iff.rfl

theorem wantRead_le (h : d.Stands remain received events) (counter : ℕ → UInt32) (i : ℕ) :
    0 ≤ d.wantRead counter i remain ∧ d.wantRead counter i remain ≤ remain := by
  have hmax := d.le_max
  have hremain := h.total
  have hnonneg := h.nonneg
  unfold wantRead
  split
  · omega
  · have := takeShare_spec hnonneg (by omega) (counter i) d.threadCount
    omega

/-- A receive of the loop fails on an error, or brings the loop forward. -/
theorem receive_cases (h : d.Stands remain received events)
    (hwant : 0 < d.wantRead counter i remain) :
    (∃ rest, znetRecv (min (d.wantRead counter i remain) maxBytesPerRecv).toNat events []
        = (none, rest)) ∧ .error ∈ events ∨
      ∃ bytes rest, znetRecv (min (d.wantRead counter i remain) maxBytesPerRecv).toNat events []
          = (some bytes, rest) ∧
        d.Stands (remain - bytes.length) (received ++ bytes) rest ∧
        (events ≠ [] → pending rest < pending events) ∧
        stream events = bytes ++ stream rest := by
  have hle := (wantRead_le h counter i).2
  have hmax : 0 < maxBytesPerRecv := by norm_num [maxBytesPerRecv]
  rcases znetRecv_spec (min (d.wantRead counter i remain) maxBytesPerRecv).toNat events [] with
    ⟨got, rest, hgot, hstream, hlen, herror, -, hpending⟩ | hfail
  · right
    refine ⟨got, rest, hgot, ⟨?_, ?_, ?_, herror.trans h.error⟩, hpending (by omega), hstream⟩
    · rw [List.length_append, ← h.total]
      push_cast
      ring
    · omega
    · rw [List.append_assoc, ← hstream, h.order]
  · exact Or.inl hfail

/-- **What the loop returns is right.** -/
theorem loop_result (h : d.Stands remain received events) {fuel : ℕ} {outcome : DlOutcome}
    (hloop : d.loop counter fuel i remain received events = some outcome) : d.Right outcome := by
  have hfailed : ∀ {remain received events}, d.Stands remain received events → remain > 0 →
      d.Right ⟨-1, none, received⟩ := by
    intro remain received events h hpos
    have hremain := h.total
    have hret : ¬ (-1 : ℤ) = 0 := by decide
    refine ⟨⟨fun h => absurd h hret, fun hlen => ?_⟩, fun h => absurd h hret, ?_⟩
    · dsimp only at hlen
      omega
    · rw [← h.order]
      exact List.prefix_append _ _
  induction fuel generalizing i remain received events with
  | zero => cases hloop
  | succ fuel ih =>
      rw [loop] at hloop
      split at hloop
      · rename_i hguard
        dsimp only at hloop
        split at hloop
        · exact ih h hloop
        · rename_i hwant
          rcases receive_cases h (not_le.mp hwant) with
            ⟨⟨rest, hfail⟩, -⟩ | ⟨bytes, rest, hgot, hstands, -⟩
          · rw [hfail] at hloop
            cases hloop
            exact hfailed h hguard.1
          · rw [hgot] at hloop
            exact ih hstands hloop
      · split at hloop
        · rename_i hpos
          cases hloop
          exact hfailed h hpos
        · rename_i hdone
          cases hloop
          have hremain := h.total
          have hnonneg := h.nonneg
          refine ⟨⟨fun _ => ?_, fun _ => rfl⟩, fun _ => rfl, ?_⟩
          · dsimp only
            omega
          · rw [← h.order]
            exact List.prefix_append _ _

/-- A round with a share. -/
theorem wantRead_pos (h : d.Stands remain received events) (hshare : d.Shares counter i)
    (hpos : 0 < remain) : 0 < d.wantRead counter i remain := by
  have htotal := h.total
  have hmax := d.le_max
  have hremain := toNat_ofInt_uint32 hpos.le (show remain < 2 ^ 32 by omega)
  unfold wantRead
  split
  · exact hpos
  · rename_i hlimit
    unfold takeShare
    split
    · exact hpos
    · rename_i hless
      have hless := UInt32.lt_iff_toNat_lt.mp (UInt32.not_le.mp hless)
      have hthreads : d.threadCount ≤ (counter i).toNat := by
        rcases hshare with hzero | hthreads | hcontent
        · exact absurd hzero hlimit
        · exact hthreads
        · -- the counter has the whole content, and so what remains
          omega
      have hpos := d.threads_pos
      have hint := d.threads_int
      have hcount : (UInt32.ofNat d.threadCount).toNat = d.threadCount := by
        rw [UInt32.toNat_ofNat', Nat.mod_eq_of_lt (by omega)]
      have hquot : (counter i / UInt32.ofNat d.threadCount).toNat
          = (counter i).toNat / d.threadCount := by
        rw [UInt32.toNat_div, hcount]
      have hle := Nat.div_le_self (counter i).toNat d.threadCount
      have hone := Nat.div_pos hthreads hpos
      dsimp only
      rw [toInt_of_small (by omega), hquot]
      omega

/-- One round: the loop is over, or it ends when it ends from the next round on. -/
theorem loop_round (h : d.Stands remain received events)
    (hsleep : 0 < remain → d.wantRead counter i remain ≤ 0 →
      ∃ fuel outcome, d.loop counter fuel (i + 1) remain received events = some outcome)
    (hnext : 0 < remain → ∀ (bytes : List UInt8) rest,
      d.Stands (remain - bytes.length) (received ++ bytes) rest →
      (events ≠ [] → pending rest < pending events) → stream events = bytes ++ stream rest →
      ∃ fuel outcome,
        d.loop counter fuel (i + 1) (remain - bytes.length) (received ++ bytes) rest
          = some outcome) :
    ∃ fuel outcome, d.loop counter fuel i remain received events = some outcome := by
  by_cases hguard : remain > 0 ∧ d.shutdown i = false
  · by_cases hwant : d.wantRead counter i remain ≤ 0
    · obtain ⟨fuel, outcome, hrest⟩ := hsleep hguard.1 hwant
      refine ⟨fuel + 1, outcome, ?_⟩
      rw [loop, if_pos hguard]
      dsimp only
      rw [if_pos hwant, hrest]
    · rcases receive_cases h (not_le.mp hwant) with
        ⟨⟨rest, hfail⟩, -⟩ | ⟨bytes, rest, hgot, hstands, hpending, hstream⟩
      · refine ⟨1, ⟨-1, none, received⟩, ?_⟩
        rw [loop, if_pos hguard]
        dsimp only
        rw [if_neg hwant, hfail]
      · obtain ⟨fuel, outcome, hrest⟩ := hnext hguard.1 bytes rest hstands hpending hstream
        refine ⟨fuel + 1, outcome, ?_⟩
        rw [loop, if_pos hguard]
        dsimp only
        rw [if_neg hwant, hgot]
        exact hrest
  · rcases lt_or_ge 0 remain with hpos | hdone
    · exact ⟨1, ⟨-1, none, received⟩, by rw [loop, if_neg hguard, if_pos hpos]⟩
    · exact ⟨1, ⟨0, some (received ++ [0]), received⟩,
        by rw [loop, if_neg hguard, if_neg (not_lt.mpr hdone)]⟩

/-- **When the loop ends.**  With a share again and again, an error or enough bytes end it. -/
theorem exists_loop (hfed : d.Fed counter) (h : d.Stands remain received events)
    (hpeer : .error ∈ events ∨ remain ≤ (stream events).length) (i : ℕ) :
    ∃ fuel outcome, d.loop counter fuel i remain received events = some outcome := by
  -- outer induction on what is to come, inner one on the rounds up to the next share
  induction hsize : pending events using Nat.strong_induction_on
    generalizing i remain received events with
  | _ size ih =>
      subst hsize
      have hnext : ∀ i, 0 < remain → ∀ (bytes : List UInt8) rest,
          d.Stands (remain - bytes.length) (received ++ bytes) rest →
          (events ≠ [] → pending rest < pending events) → stream events = bytes ++ stream rest →
          ∃ fuel outcome,
            d.loop counter fuel (i + 1) (remain - bytes.length) (received ++ bytes) rest
              = some outcome := by
        intro i hpos bytes rest hstands hpending hstream
        have hevents : events ≠ [] := by
          rintro rfl
          rcases hpeer with herror | hlen
          · cases herror
          · exact absurd hpos (not_lt.mpr hlen)
        refine ih _ (hpending hevents) hstands ?_ (i + 1) rfl
        rcases hpeer with herror | hlen
        · exact Or.inl (hstands.error.mpr (h.error.mp herror))
        · right
          rw [hstream, List.length_append] at hlen
          push_cast at hlen
          omega
      obtain ⟨j, hij, hshare⟩ := hfed i
      obtain ⟨n, rfl⟩ := Nat.exists_eq_add_of_le hij
      clear hij
      induction n generalizing i with
      | zero =>
          refine loop_round h (fun hpos hwant => ?_) (hnext i)
          exact absurd hwant (not_le.mpr (wantRead_pos h hshare hpos))
      | succ n ihn =>
          refine loop_round h (fun _ _ => ihn (i + 1) ?_) (hnext i)
          rwa [show i + 1 + n = i + (n + 1) by omega]

/-- A shutdown ends the loop. -/
theorem loop_shutdown (h : d.Stands remain received events) {n : ℕ}
    (hshutdown : d.shutdown (i + n) = true) :
    ∃ fuel outcome, d.loop counter fuel i remain received events = some outcome := by
  induction n generalizing i remain received events with
  | zero =>
      have hguard : ¬ (remain > 0 ∧ d.shutdown i = false) := by
        rw [← add_zero i, hshutdown]
        simp
      by_cases hpos : remain > 0
      · exact ⟨1, ⟨-1, none, received⟩, by rw [loop, if_neg hguard, if_pos hpos]⟩
      · exact ⟨1, ⟨0, some (received ++ [0]), received⟩,
          by rw [loop, if_neg hguard, if_neg hpos]⟩
  | succ n ih =>
      have hlater : d.shutdown (i + 1 + n) = true := by
        rw [← hshutdown]
        congr 1
        omega
      exact loop_round h (fun _ _ => ih h hlater) fun _ _ _ hstands _ _ => ih hstands hlater

/-- **A connection that is closed too early** leaves the loop with something remaining for
ever. -/
theorem loop_closed (hrun : ∀ i, d.shutdown i = false) (h : d.Stands remain received events)
    (herror : .error ∉ events) (hshort : (stream events).length < remain) (fuel i : ℕ) :
    d.loop counter fuel i remain received events = none := by
  induction fuel generalizing i remain received events with
  | zero => rfl
  | succ fuel ih =>
      rw [loop, if_pos ⟨by omega, hrun i⟩]
      dsimp only
      split
      · exact ih h herror hshort _
      · rename_i hwant
        rcases receive_cases h (not_le.mp hwant) with
          ⟨-, hmem⟩ | ⟨bytes, rest, hgot, hstands, -, hstream⟩
        · exact absurd hmem herror
        · rw [hgot]
          refine ih hstands (fun hmem => herror (h.error.mpr (hstands.error.mp hmem))) ?_ _
          rw [hstream, List.length_append] at hshort
          push_cast at hshort
          omega

/-- **A thread that never finds a share** sleeps for ever. -/
theorem loop_starved (hrun : ∀ i, d.shutdown i = false) (hnone : ∀ i, ¬ d.Shares counter i)
    (fuel i : ℕ) : d.loop counter fuel i d.contentLength [] d.events = none := by
  have hmax := d.le_max
  have hint := d.threads_int
  have hfew : ∀ i, d.netBwLimitIn ≠ 0 ∧ (counter i).toNat < d.threadCount
      ∧ (counter i).toNat < d.contentLength := by
    intro i
    have hi := hnone i
    unfold Shares at hi
    push Not at hi
    exact hi
  have hwant : ∀ i, d.wantRead counter i d.contentLength = 0 := by
    intro i
    obtain ⟨hlimit, hthreads, hcontent⟩ := hfew i
    have hremain := toNat_ofInt_uint32 (Int.natCast_nonneg d.contentLength)
      (show (d.contentLength : ℤ) < 2 ^ 32 by omega)
    have hless : ¬ counter i ≥ UInt32.ofInt d.contentLength := fun hge => by
      have := UInt32.le_iff_toNat_le.mp hge
      omega
    have hcount : (UInt32.ofNat d.threadCount).toNat = d.threadCount := by
      rw [UInt32.toNat_ofNat', Nat.mod_eq_of_lt (by omega)]
    have hquot : (counter i / UInt32.ofNat d.threadCount).toNat = 0 := by
      rw [UInt32.toNat_div, hcount]
      exact Nat.div_eq_of_lt hthreads
    rw [wantRead, if_neg hlimit, takeShare, if_neg hless]
    dsimp only
    rw [toInt_of_small (by omega), hquot]
    rfl
  induction fuel generalizing i with
  | zero => rfl
  | succ fuel ih =>
      have hcontent := (hfew i).2.2
      rw [loop, if_pos ⟨by omega, hrun i⟩]
      dsimp only
      rw [if_pos (hwant i).le]
      exact ih (i + 1)

/-! ## When a download ends -/

/-- A download that is fed ends with the right answer. -/
theorem endsRight_of_fine (h : d.Fine (d.Fed counter)) : d.EndsRight counter := by
  obtain ⟨b, hblock, hfine⟩ := h
  unfold EndsRight httpRequestGet
  rw [hblock]
  dsimp only
  split_ifs at hfine ⊢ with hb
  · -- the block is taken for `NULL`
    have hret : ¬ (-1 : ℤ) = 0 := by decide
    exact ⟨0, _, rfl, ⟨fun h => absurd h hret, fun h => absurd h.symm hfine⟩,
      fun h => absurd h hret, List.nil_prefix⟩
  · obtain ⟨fuel, outcome, hloop⟩ : ∃ fuel outcome,
        d.loop counter fuel 0 d.contentLength [] d.events = some outcome := by
      rcases hfine with hempty | ⟨n, hshutdown⟩ | ⟨hfed, hpeer⟩
      · refine ⟨1, ⟨0, some [0], []⟩, ?_⟩
        rw [loop, hempty]
        rfl
      · exact loop_shutdown (stands_start d) (by rwa [zero_add])
      · exact exists_loop hfed (stands_start d) (hpeer.imp_right fun h => by exact_mod_cast h) 0
    exact ⟨fuel, outcome, hloop, loop_result (stands_start d) hloop⟩

/-- A download that ends with the right answer has found a share. -/
theorem fine_of_endsRight (h : d.EndsRight counter) : d.Fine (∃ i, d.Shares counter i) := by
  obtain ⟨fuel, outcome, hrun, hright⟩ := h
  unfold httpRequestGet at hrun
  unfold Fine
  cases hblock : d.block with
  | none =>
      rw [hblock] at hrun
      cases hrun
  | some b =>
      rw [hblock] at hrun
      refine ⟨b, rfl, ?_⟩
      dsimp only at hrun
      split_ifs at hrun ⊢ with hb
      · rw [← Option.some.inj hrun] at hright
        intro hempty
        exact absurd (hright.1.mpr hempty.symm) (by decide)
      · by_contra hnot
        push Not at hnot
        obtain ⟨hcontent, hshutdown, hpeer⟩ := hnot
        have hlive : ∀ i, d.shutdown i = false := fun i => Bool.eq_false_iff.mpr (hshutdown i)
        by_cases hshare : ∃ i, d.Shares counter i
        · obtain ⟨herror, hshort⟩ := hpeer hshare
          rw [loop_closed hlive (stands_start d) herror (by exact_mod_cast hshort)] at hrun
          cases hrun
        · rw [loop_starved hlive (not_exists.mp hshare)] at hrun
          cases hrun

/-- A download of 10 bytes without a limit, of which the peer sends 3 before it closes the
connection. -/
def closedEarly : Download where
  contentLength := 10
  le_max := by norm_num
  block := some 205
  netBwLimitIn := 0
  threadCount := 3
  threads_pos := by norm_num
  threads_int := by norm_num
  shutdown := fun _ => false
  events := [.data 1 [2, 3]]

end Download

end Zevent.Minidownloader

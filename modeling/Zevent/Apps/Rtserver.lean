/-
# Request decoding of the rtservice server (`rtinfoserver/src/rtserver.c`)

`zevent_process_connection` reads a request with two receives: one of four bytes for the
length and one of that many bytes for the body.  Neither looks at how much it got.  A
short first receive leaves the rest of the length in the stream (the bytes not received
count as zero), a short second one leaves the rest of the body there, and in both cases
the next request is read from the middle of this one.

How the stream is delivered is a function `deliver`: the receive number `i` of the
connection returns `deliver i` bytes, or less when it asked for less or less is left.
`decoded_for_all_contents_iff` says which deliveries the decoding survives.
-/
import Mathlib.Tactic

namespace Zevent.Apps

/-! ## The server -/

/-- `BUFFER_SIZE`. -/
def bufferSize : ℕ := 2 * 8 * 1024

/-- A connection: the bytes not received yet and the number of receives made. -/
structure Socket where
  stream : List UInt8
  recvs : ℕ

/-- `apr_socket_recv` of at most `len` bytes; `none` is `APR_EOF`. -/
def aprSocketRecv (deliver : ℕ → ℕ+) (s : Socket) (len : ℕ) : Option (List UInt8 × Socket) :=
  if s.stream = [] then none
  else
    let n := min (deliver s.recvs : ℕ) len
    some (s.stream.take n, ⟨s.stream.drop n, s.recvs + 1⟩)

/-- `msg_len |= (size_t)length[i] << (8 * i)`, over a buffer cleared before the receive:
the bytes do not overlap, and those not received add nothing. -/
def msgLen : List UInt8 → ℕ
  | [] => 0
  | b :: rest => b.toNat + 256 * msgLen rest

/-- `zevent_process_connection` on a readable connection: the bytes stored in `msg` when
`dispose` is called, or `none` where it returns -1. -/
def zeventProcessConnection (deliver : ℕ → ℕ+) (s : Socket) :
    Option (List UInt8 × Socket) := do
  let (length, s) ← aprSocketRecv deliver s 4
  if msgLen length = 0 ∨ bufferSize - 4 < msgLen length then none
  else aprSocketRecv deliver s (msgLen length)

/-- A receive takes something from the stream. -/
theorem aprSocketRecv_shrinks {deliver : ℕ → ℕ+} {s s' : Socket} {len : ℕ}
    {bytes : List UInt8} (h : aprSocketRecv deliver s len = some (bytes, s')) (hlen : 0 < len) :
    s'.stream.length < s.stream.length := by
  unfold aprSocketRecv at h
  split_ifs at h with hnil
  rw [Option.some.injEq, Prod.mk.injEq] at h
  obtain ⟨-, rfl⟩ := h
  have hpos := List.length_pos_iff.mpr hnil
  have hdel := (deliver s.recvs).pos
  simp only [List.length_drop]
  omega

theorem zeventProcessConnection_shrinks {deliver : ℕ → ℕ+} {s s' : Socket}
    {msg : List UInt8} (h : zeventProcessConnection deliver s = some (msg, s')) :
    s'.stream.length < s.stream.length := by
  rw [zeventProcessConnection, Option.bind_eq_bind, Option.bind_eq_some_iff] at h
  obtain ⟨⟨length, s₁⟩, hrecv, h⟩ := h
  have h₁ := aprSocketRecv_shrinks hrecv (by decide)
  dsimp only at h
  split_ifs at h with hbad
  have h₂ := aprSocketRecv_shrinks h (by omega)
  exact h₂.trans h₁

/-- The messages `dispose` gets from one connection, until it is closed. -/
def disposed (deliver : ℕ → ℕ+) (s : Socket) : List (List UInt8) :=
  match _h : zeventProcessConnection deliver s with
  | none => []
  | some (msg, s') => msg :: disposed deliver s'
termination_by s.stream.length
decreasing_by exact zeventProcessConnection_shrinks _h

/-! ## Requests -/

/-- The length in four bytes, least significant first. -/
def lengthBytes (n : ℕ) : List UInt8 :=
  [n.toUInt8, (n / 256).toUInt8, (n / 65536).toUInt8, (n / 16777216).toUInt8]

/-- What a client sends for a list of request bodies. -/
def requestStream : List (List UInt8) → List UInt8
  | [] => []
  | body :: rest => lengthBytes body.length ++ body ++ requestStream rest

/-- From receive number `i` on, every receive is whole: four bytes of each length and all
bytes of each body. -/
def WholeReceives (deliver : ℕ → ℕ+) : ℕ → List ℕ → Prop
  | _, [] => True
  | i, n :: lengths =>
      4 ≤ (deliver i : ℕ) ∧ n ≤ (deliver (i + 1) : ℕ) ∧ WholeReceives deliver (i + 2) lengths

/-- A length in range is read back. -/
theorem msgLen_lengthBytes {n : ℕ} (hn : n ≤ bufferSize - 4) : msgLen (lengthBytes n) = n := by
  have hsmall : n < 65536 := lt_of_le_of_lt hn (by decide)
  simp only [msgLen, lengthBytes, Nat.toUInt8_eq, UInt8.toNat_ofNat']
  omega

/-- One message is disposed, then the rest. -/
theorem disposed_some {deliver : ℕ → ℕ+} {s s' : Socket} {msg : List UInt8}
    (h : zeventProcessConnection deliver s = some (msg, s')) :
    disposed deliver s = msg :: disposed deliver s' := by
  rw [disposed]
  split
  · rename_i hnone
    rw [hnone] at h
    cases h
  · rename_i msg₁ s₁ hsome
    rw [hsome, Option.some.injEq, Prod.mk.injEq] at h
    rw [h.1, h.2]

theorem disposed_none {deliver : ℕ → ℕ+} {s : Socket}
    (h : zeventProcessConnection deliver s = none) : disposed deliver s = [] := by
  rw [disposed]
  split
  · rfl
  · rename_i msg₁ s₁ hsome
    rw [hsome] at h
    cases h

/-- A receive that gets everything it asked for. -/
theorem aprSocketRecv_whole {deliver : ℕ → ℕ+} {i : ℕ} {bytes rest : List UInt8}
    (hne : bytes ≠ []) (hdel : bytes.length ≤ (deliver i : ℕ)) :
    aprSocketRecv deliver ⟨bytes ++ rest, i⟩ bytes.length = some (bytes, ⟨rest, i + 1⟩) := by
  have hnil : bytes ++ rest ≠ [] := by simp [hne]
  rw [aprSocketRecv, if_neg hnil]
  simp only [Nat.min_eq_right hdel, List.take_left, List.drop_left]

/-! ## Which deliveries are survived -/

section Deliveries

variable {deliver : ℕ → ℕ+} {i : ℕ}

/-- A whole length: what is left is one receive of the body. -/
theorem process_whole_length {n : ℕ} (hn : 1 ≤ n ∧ n ≤ bufferSize - 4)
    (hdel : 4 ≤ (deliver i : ℕ)) (rest : List UInt8) :
    zeventProcessConnection deliver ⟨lengthBytes n ++ rest, i⟩
      = aprSocketRecv deliver ⟨rest, i + 1⟩ n := by
  have hrecv : aprSocketRecv deliver ⟨lengthBytes n ++ rest, i⟩ 4
      = some (lengthBytes n, ⟨rest, i + 1⟩) :=
    aprSocketRecv_whole (by simp [lengthBytes]) hdel
  rw [zeventProcessConnection, hrecv]
  show (if msgLen (lengthBytes n) = 0 ∨ bufferSize - 4 < msgLen (lengthBytes n) then none
    else aprSocketRecv deliver ⟨rest, i + 1⟩ (msgLen (lengthBytes n))) = _
  rw [msgLen_lengthBytes hn.2, if_neg (by omega)]

/-- A request that arrives in two whole receives is handed on as it is. -/
theorem disposed_whole {body : List UInt8} (hlen : 1 ≤ body.length ∧ body.length ≤ bufferSize - 4)
    (h₁ : 4 ≤ (deliver i : ℕ)) (h₂ : body.length ≤ (deliver (i + 1) : ℕ)) (rest : List UInt8) :
    disposed deliver ⟨lengthBytes body.length ++ body ++ rest, i⟩
      = body :: disposed deliver ⟨rest, i + 2⟩ := by
  apply disposed_some
  rw [List.append_assoc, process_whole_length hlen h₁]
  exact aprSocketRecv_whole (List.length_pos_iff.mp hlen.1) h₂

/-- A short receive of the body hands on a shorter message. -/
theorem disposed_short_body {body : List UInt8}
    (hlen : 1 ≤ body.length ∧ body.length ≤ bufferSize - 4) (h₁ : 4 ≤ (deliver i : ℕ))
    (h₂ : (deliver (i + 1) : ℕ) < body.length) (rest : List UInt8) :
    ∃ msg later, disposed deliver ⟨lengthBytes body.length ++ body ++ rest, i⟩ = msg :: later ∧
      msg.length < body.length := by
  have hnil : body ++ rest ≠ [] := by simp [List.length_pos_iff.mp hlen.1]
  have hstep := process_whole_length hlen h₁ (body ++ rest)
  rw [aprSocketRecv, if_neg hnil, ← List.append_assoc] at hstep
  refine ⟨_, _, disposed_some hstep, ?_⟩
  rw [List.length_take]
  dsimp only
  omega

/-- After a short receive of the length, the message begins with a byte of the length. -/
theorem disposed_short_length {n r : ℕ} (hr : (deliver i : ℕ) = r) (hshort : r < 4)
    (rest : List UInt8) :
    disposed deliver ⟨lengthBytes n ++ rest, i⟩ = [] ∨
      ∃ msg later, disposed deliver ⟨lengthBytes n ++ rest, i⟩ = msg :: later ∧
        msg.head? = (lengthBytes n)[r]? := by
  have hlen : (lengthBytes n).length = 4 := rfl
  have hrecv : aprSocketRecv deliver ⟨lengthBytes n ++ rest, i⟩ 4
      = some ((lengthBytes n).take r, ⟨(lengthBytes n).drop r ++ rest, i + 1⟩) := by
    rw [aprSocketRecv, if_neg (by simp [lengthBytes])]
    simp only [hr, Nat.min_eq_left hshort.le]
    rw [List.take_append_of_le_length (by omega), List.drop_append_of_le_length (by omega)]
  have hnext : (lengthBytes n).drop r ++ rest ≠ [] := by
    have : ((lengthBytes n).drop r).length ≠ 0 := by
      rw [List.length_drop]
      omega
    intro h
    exact this (by simp [(List.append_eq_nil_iff.mp h).1])
  cases hstep : zeventProcessConnection deliver ⟨lengthBytes n ++ rest, i⟩ with
  | none => exact Or.inl (disposed_none hstep)
  | some res =>
      obtain ⟨msg, s'⟩ := res
      refine Or.inr ⟨msg, _, disposed_some hstep, ?_⟩
      rw [zeventProcessConnection, hrecv] at hstep
      have hbody : (if msgLen ((lengthBytes n).take r) = 0
          ∨ bufferSize - 4 < msgLen ((lengthBytes n).take r) then none
        else aprSocketRecv deliver ⟨(lengthBytes n).drop r ++ rest, i + 1⟩
          (msgLen ((lengthBytes n).take r))) = some (msg, s') := hstep
      split_ifs at hbody with hbad
      rw [aprSocketRecv, if_neg hnext, Option.some.injEq, Prod.mk.injEq] at hbody
      have hpos := (deliver (i + 1)).pos
      dsimp only at hbody
      rw [← hbody.1, List.head?_take, if_neg (by omega),
        List.head?_append_of_ne_nil _ (by
          intro h
          have := congrArg List.length h
          rw [List.length_drop, List.length_nil] at this
          omega), List.head?_drop]

/-- Whole receives hand on every request. -/
theorem disposed_requestStream {requests : List (List UInt8)}
    (hlen : ∀ body ∈ requests, 1 ≤ body.length ∧ body.length ≤ bufferSize - 4)
    (h : WholeReceives deliver i (requests.map List.length)) :
    disposed deliver ⟨requestStream requests, i⟩ = requests := by
  induction requests generalizing i with
  | nil =>
      apply disposed_none
      rfl
  | cons body rest ih =>
      obtain ⟨h₁, h₂, hrest⟩ := h
      rw [requestStream, disposed_whole (hlen body List.mem_cons_self) h₁ h₂,
        ih (fun b hb => hlen b (List.mem_cons_of_mem _ hb)) hrest]

/-- A delivery with a short receive spoils some contents. -/
theorem exists_misread {lengths : List ℕ}
    (hlen : ∀ n ∈ lengths, 1 ≤ n ∧ n ≤ bufferSize - 4)
    (h : ¬ WholeReceives deliver i lengths) :
    ∃ requests : List (List UInt8), requests.map List.length = lengths ∧
      disposed deliver ⟨requestStream requests, i⟩ ≠ requests := by
  induction lengths generalizing i with
  | nil => exact absurd trivial h
  | cons n lengths ih =>
      have hn := hlen n List.mem_cons_self
      have hrest := fun m hm => hlen m (List.mem_cons_of_mem _ hm)
      let later := lengths.map fun m => List.replicate m (0 : UInt8)
      have hlater : later.map List.length = lengths := by
        simp [later, Function.comp_def]
      by_cases h₁ : 4 ≤ (deliver i : ℕ)
      · by_cases h₂ : n ≤ (deliver (i + 1) : ℕ)
        · -- this request survives: the defect is later
          obtain ⟨requests, hreq, hne⟩ := ih hrest fun hw => h ⟨h₁, h₂, hw⟩
          have hbody : (List.replicate n (0 : UInt8)).length = n := List.length_replicate
          refine ⟨List.replicate n 0 :: requests, by rw [List.map_cons, hbody, hreq], ?_⟩
          rw [requestStream, disposed_whole (by rw [hbody]; exact hn) h₁ (by rw [hbody]; exact h₂)]
          intro heq
          exact hne (List.cons.inj heq).2
        · -- a short body is shorter than what was sent
          have hbody : (List.replicate n (0 : UInt8)).length = n := List.length_replicate
          refine ⟨List.replicate n 0 :: later, by rw [List.map_cons, hbody, hlater], ?_⟩
          obtain ⟨msg, rest, hmsg, hshort⟩ := disposed_short_body (by rw [hbody]; exact hn) h₁
            (by rw [hbody]; omega) (requestStream later)
          rw [requestStream, hmsg]
          intro heq
          rw [(List.cons.inj heq).1] at hshort
          exact lt_irrefl _ hshort
      · -- a body whose first byte is not the one left over from the length
        obtain ⟨b, hb⟩ : ∃ b, (lengthBytes n)[(deliver i : ℕ)]? = some b :=
          ⟨_, List.getElem?_eq_getElem (show _ < 4 by omega)⟩
        have hbody : (List.replicate n (b + 1)).length = n := List.length_replicate
        refine ⟨List.replicate n (b + 1) :: later, by rw [List.map_cons, hbody, hlater], ?_⟩
        rw [requestStream, hbody, List.append_assoc]
        rcases disposed_short_length rfl (not_le.mp h₁)
          (List.replicate n (b + 1) ++ requestStream later) with hnil | ⟨msg, rest, hmsg, hhead⟩
        · rw [hnil]
          exact (List.cons_ne_nil _ _).symm
        · rw [hmsg]
          intro heq
          rw [(List.cons.inj heq).1, hb, List.head?_replicate, if_neg (by omega),
            Option.some.injEq] at hhead
          simp at hhead

/-- **Decoding survives exactly the deliveries in whole receives.**  For every list of
request lengths between 1 and `BUFFER_SIZE - 4` and every delivery: all requests of these
lengths are handed to `dispose`, in order and with all their bytes, if and only if every
receive of a length returns four bytes and every receive of a body returns the body. -/
theorem decoded_for_all_contents_iff (deliver : ℕ → ℕ+) (lengths : List ℕ)
    (hlen : ∀ n ∈ lengths, 1 ≤ n ∧ n ≤ bufferSize - 4) :
    (∀ requests : List (List UInt8), requests.map List.length = lengths →
        disposed deliver ⟨requestStream requests, 0⟩ = requests)
      ↔ WholeReceives deliver 0 lengths := by
  constructor
  · intro h
    by_contra hwhole
    obtain ⟨requests, hreq, hne⟩ := exists_misread hlen hwhole
    exact hne (h requests hreq)
  · rintro hwhole requests rfl
    apply disposed_requestStream _ hwhole
    intro body hbody
    exact hlen _ (List.mem_map_of_mem hbody)

/-- Three requests of different lengths. -/
theorem decoded_for_all_contents_three :
    disposed (fun i => if i % 2 = 0 then 4 else 16)
        ⟨requestStream [[5, 6], [7, 8, 9, 10, 11, 12], [0]], 0⟩
      = [[5, 6], [7, 8, 9, 10, 11, 12], [0]] := by
  have hwhole : WholeReceives (fun i => if i % 2 = 0 then 4 else 16) 0 [2, 6, 1] := by
    refine ⟨?_, ?_, ?_, ?_, ?_, ?_, trivial⟩ <;> decide
  exact (decoded_for_all_contents_iff _ [2, 6, 1] (by decide)).mpr hwhole _ rfl

/-- A request of two bytes whose length arrives one byte ahead of the rest: `dispose` gets
two bytes of the length, and the connection is closed on the bytes after them. -/
theorem split_length_misread :
    disposed (fun i => if i = 0 then 1 else 16) ⟨requestStream [[5, 6]], 0⟩ = [[0, 0]] ∧
      disposed (fun i => if i = 0 then 1 else 16) ⟨requestStream [[5, 6]], 0⟩ ≠ [[5, 6]] := by
  decide +kernel

end Deliveries

end Zevent.Apps

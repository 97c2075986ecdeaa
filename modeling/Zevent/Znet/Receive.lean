/-
# Receiving (`peer_read_cb`)

`peer_read_cb` appends what it reads to the receive buffer, until a read of 4096 bytes, an
end of file, an error or `EAGAIN`, and then hands out one message after the other, as the
`data_func` of the server finds them at the front of the buffer.

The items on the wire are of any type here, and `data_func` is any function that finds an
item that is there (`Handles`).  `peerReadCbWith_ok` is what one call then does: the complete
items among the bytes read so far are handed out, each once and in order, and the buffer
holds the other bytes, provided `data_func` stops at them (`Stops`).
-/
import Mathlib.Tactic
import Zevent.Znet.Iobuf

namespace Zevent.Znet

/-! ## The callback -/

/-- `BUF_SIZE`. -/
def bufSize : ℕ := 4096

/-- What `read` returns, at most `BUF_SIZE` bytes at a time. -/
inductive ReadResult
  | data (buf : List UInt8)
  | eintr
  | eagain
  | eof
  | error
deriving DecidableEq, Repr

/-- A connection: its receive buffer, whether the server has a `msg_func`, and the messages
handed to it, or pushed to the receive queue, so far. -/
structure Conn where
  recvbuf : Iobuf
  msgFunc : Bool
  delivered : List (List UInt8)
deriving DecidableEq, Repr

/-- A connection as `peer_create_in` makes it. -/
def Conn.start (msgFunc : Bool) : Conn := ⟨Iobuf.init true 512, msgFunc, []⟩

/-- The loop that reads, with the result of its last `read`. -/
def readLoop (alloc : Bool) (iob : Iobuf) : List ReadResult → Except Trap (Iobuf × ReadResult)
  | [] => .error .noAnswer
  | .data buf :: rs => do
      let iob ← iob.write alloc buf
      if buf.length = bufSize then return (iob, .data buf) else readLoop alloc iob rs
  | .eintr :: rs => readLoop alloc iob rs
  | r :: _ => .ok (iob, r)

/-- Hand out the first `off` bytes of the buffer: to `msg_func`, or in a block of their own
to the receive queue. -/
def deliver (alloc : Bool) (c : Conn) (off : ℕ) : Except Trap Conn :=
  let msg := c.recvbuf.data.take off
  if c.msgFunc then .ok { c with delivered := c.delivered ++ [msg] }
  else
    match mmalloc alloc ((off + 1) % 2 ^ 32) with
    | none => .error .outOfBlock
    | some block =>
        (bcopy msg block 0).map fun buf =>
          { c with delivered := c.delivered ++ [buf.take off] }

/-- The loop that hands out messages; `dataFunc` gets the buffer and its length and answers
with `off`, or with -1 (`none`).  The flag says that it wanted more bytes than there are.
Every round but the last consumes a byte at least, or the loop has no end: the fuel is more
than the number of bytes. -/
def processLoopWith {ε : Type} (trap : Trap → ε)
    (dataFunc : List UInt8 → ℕ → Except ε (Option ℕ)) (alloc : Bool) :
    ℕ → Conn → Except ε (Conn × Bool)
  | 0, _ => .error (trap .diverges)
  | fuel + 1, c => do
      match ← dataFunc c.recvbuf.data (c.recvbuf.off % 2 ^ 32) with
      | none => .ok (c, false)
      | some off =>
          if off > c.recvbuf.off then .ok (c, true)
          else do
            let c ← (deliver alloc c off).mapError trap
            let iob ← (c.recvbuf.consumed off).mapError trap
            processLoopWith trap dataFunc alloc fuel { c with recvbuf := iob }

/-- `peer_read_cb` with `dataFunc`, when `read` returns `rs` one after the other. -/
def peerReadCbWith {ε : Type} (trap : Trap → ε)
    (dataFunc : List UInt8 → ℕ → Except ε (Option ℕ)) (alloc : Bool) (c : Conn)
    (rs : List ReadResult) : Except ε (Conn × ℤ) := do
  let (iob, rv) ← (readLoop alloc c.recvbuf rs).mapError trap
  let c := { c with recvbuf := iob }
  if rv = .eof ∧ iob.off = 0 then return (c, -1)
  else if rv = .error then return (c, -1)
  else if iob.off = 0 then return (c, 0)
  else do
    let (c, bad) ← processLoopWith trap dataFunc alloc (iob.off + 1) c
    if bad ∨ rv = .eof then return (c, -1) else return (c, 0)

/-! ## Reads -/

/-- The bytes of the results of `read`. -/
def ReadResult.bytes : ReadResult → List UInt8
  | .data buf => buf
  | _ => []

/-- The bytes that one call reads. -/
def bytesOf (rs : List ReadResult) : List UInt8 := rs.flatMap ReadResult.bytes

/-- The sizes of its reads. -/
def sizes : List ReadResult → List ℕ
  | [] => []
  | .data buf :: rs => buf.length :: sizes rs
  | _ :: rs => sizes rs

/-- The results that one call asks for: short reads and `EINTR`, up to the result that ends
the loop. -/
def Answers : List ReadResult → Prop
  | [] => False
  | .data buf :: rs => (0 < buf.length ∧ buf.length ≤ bufSize)
      ∧ if buf.length = bufSize then rs = [] else Answers rs
  | .eintr :: rs => Answers rs
  | _ :: rs => rs = []

/-- Writes of these sizes never need a block of `2 ^ 32` bytes. -/
def GrowsWithin : ℕ → ℕ → List ℕ → Prop
  | _, _, [] => True
  | size, off, count :: counts =>
      Iobuf.Grows size off count ∧ GrowsWithin (Iobuf.grown size off count) (off + count) counts

variable {c : Conn} {read : List UInt8} {rs : List ReadResult}

/-- **The loop that reads appends what it reads.** -/
theorem readLoop_ok {iob : Iobuf} (h : iob.Valid) (hrs : Answers rs)
    (hgrows : GrowsWithin iob.size iob.off (sizes rs)) :
    ∃ iob' rv, readLoop true iob rs = .ok (iob', rv) ∧ iob'.Valid
      ∧ iob'.data = iob.data ++ bytesOf rs ∧ iob'.size ≤ iob.size + (bytesOf rs).length := by
  induction rs generalizing iob with
  | nil => exact absurd hrs (by simp [Answers])
  | cons r rs ih =>
      cases r with
      | data buf =>
          obtain ⟨hbuf, hrest⟩ := hrs
          obtain ⟨hhere, hlater⟩ := hgrows
          obtain ⟨iob₁, hwrite, hvalid, hdata, hoff, hsize⟩ := Iobuf.write_ok h hhere
          have hsize' : iob₁.size ≤ iob.size + buf.length := by
            rw [hsize, Iobuf.grown]
            split <;> omega
          rw [readLoop, hwrite]
          simp only [bind, Except.bind]
          by_cases hfull : buf.length = bufSize
          · -- a full read ends the loop
            rw [if_pos hfull] at hrest ⊢
            refine ⟨iob₁, .data buf, rfl, hvalid, ?_, ?_⟩
            · rw [hdata, hrest]
              simp [bytesOf, ReadResult.bytes]
            · simpa [hrest, bytesOf, ReadResult.bytes] using hsize'
          · rw [if_neg hfull] at hrest ⊢
            rw [← hsize, ← hoff] at hlater
            obtain ⟨iob', rv, hrun, hvalid', hdata', hsize''⟩ := ih hvalid hrest hlater
            have hbytes : bytesOf (.data buf :: rs) = buf ++ bytesOf rs := List.flatMap_cons
            refine ⟨iob', rv, hrun, hvalid', ?_, ?_⟩
            · rw [hdata', hdata, List.append_assoc, hbytes]
            · rw [hbytes, List.length_append]
              omega
      | eintr => exact ih h hrs hgrows
      | eagain | eof | error =>
          obtain rfl : rs = [] := hrs
          exact ⟨iob, _, rfl, h, by simp [bytesOf, ReadResult.bytes], by simp⟩

/-- The loop that reads runs out of the block when the buffer does not fit. -/
theorem readLoop_trap {iob : Iobuf} (h : iob.Valid) (hrs : Answers rs)
    (hgrows : ¬ GrowsWithin iob.size iob.off (sizes rs)) :
    readLoop true iob rs = .error .outOfBlock := by
  induction rs generalizing iob with
  | nil => exact absurd hrs (by simp [Answers])
  | cons r rs ih =>
      cases r with
      | data buf =>
          obtain ⟨hbuf, hrest⟩ := hrs
          rw [readLoop]
          by_cases hhere : Iobuf.Grows iob.size iob.off buf.length
          · obtain ⟨iob₁, hwrite, hvalid, -, hoff, hsize⟩ := Iobuf.write_ok h hhere
            have hlater : ¬ GrowsWithin iob₁.size iob₁.off (sizes rs) := by
              rw [hsize, hoff]
              exact fun hlater => hgrows ⟨hhere, hlater⟩
            rw [hwrite]
            simp only [bind, Except.bind]
            by_cases hfull : buf.length = bufSize
            · rw [if_pos hfull] at hrest
              rw [hrest] at hlater
              exact absurd trivial hlater
            · rw [if_neg hfull] at hrest ⊢
              exact ih hvalid hrest hlater
          · rw [Iobuf.write_trap h (by rw [bufSize] at hbuf; omega) hhere]
            rfl
      | eintr => exact ih h hrs hgrows
      | eagain | eof | error =>
          obtain rfl : rs = [] := hrs
          exact absurd trivial hgrows

/-- The loop ends with an end of file, or with an error, when there is one among the
results. -/
theorem readLoop_ends {iob iob' : Iobuf} {rv r : ReadResult} (hrs : Answers rs)
    (hread : readLoop true iob rs = .ok (iob', rv)) (hr : r = .eof ∨ r = .error) :
    rv = r ↔ r ∈ rs := by
  induction rs generalizing iob with
  | nil => exact absurd hrs (by simp [Answers])
  | cons r' rs ih =>
      cases r' with
      | data buf =>
          have hne : r ≠ .data buf := by
            rcases hr with rfl | rfl <;> simp
          obtain ⟨-, hrest⟩ := hrs
          rw [readLoop] at hread
          cases hwrite : iob.write true buf with
          | error t =>
              rw [hwrite] at hread
              cases hread
          | ok iob₁ =>
              rw [hwrite] at hread
              simp only [bind, Except.bind] at hread
              rw [List.mem_cons, or_iff_right hne]
              by_cases hfull : buf.length = bufSize
              · rw [if_pos hfull] at hread hrest
                cases hread
                rw [hrest]
                simp [hne.symm]
              · rw [if_neg hfull] at hread hrest
                exact ih hrest hread
      | eintr =>
          rw [List.mem_cons, or_iff_right (by rcases hr with rfl | rfl <;> simp)]
          exact ih hrs hread
      | eagain | eof | error =>
          obtain rfl : rs = [] := hrs
          cases hread
          rw [List.mem_singleton, eq_comm]

/-- The sizes of the reads add up to the bytes read. -/
theorem sizes_sum (rs : List ReadResult) : (sizes rs).sum = (bytesOf rs).length := by
  induction rs with
  | nil => rfl
  | cons r rs ih =>
      have hbytes : bytesOf (r :: rs) = r.bytes ++ bytesOf rs := List.flatMap_cons
      rw [hbytes, List.length_append, ← ih]
      cases r <;> simp [sizes, ReadResult.bytes]

/-- What is written in one call is smaller than `2 ^ 32` bytes when the buffer fits. -/
theorem GrowsWithin.sum_lt {size off : ℕ} {counts : List ℕ} (h : GrowsWithin size off counts)
    (hoff : off ≤ size) (hsize : size < 2 ^ 32) : off + counts.sum < 2 ^ 32 := by
  induction counts generalizing size off with
  | nil =>
      rw [List.sum_nil]
      omega
  | cons count counts ih =>
      obtain ⟨hhere, hlater⟩ := h
      rw [List.sum_cons, ← add_assoc]
      refine ih hlater ?_ ?_
      · rw [Iobuf.grown]
        split <;> omega
      · rw [Iobuf.grown]
        split
        · exact hsize
        · exact hhere.resolve_left (by omega)

/-- The buffer fits when the block and all that is read are smaller than `2 ^ 32` bytes. -/
theorem growsWithin_of_sum_lt {size off : ℕ} {counts : List ℕ}
    (h : size + counts.sum < 2 ^ 32) : GrowsWithin size off counts := by
  induction counts generalizing size off with
  | nil => trivial
  | cons count counts ih =>
      rw [List.sum_cons] at h
      refine ⟨.inr (by omega), ih ?_⟩
      rw [Iobuf.grown]
      split <;> omega

/-! ## Sequences of calls -/

section Sequences

variable {β : Type} {a b : β} {calls : List β}

/-- A call with others behind it is not the last one. -/
theorem mem_dropLast_cons_self (h : calls ≠ []) : a ∈ (a :: calls).dropLast := by
  rw [List.dropLast_cons_of_ne_nil h]
  exact List.mem_cons_self

/-- A call that is not the last one still is not when others come before. -/
theorem mem_dropLast_cons (h : b ∈ calls.dropLast) : b ∈ (a :: calls).dropLast := by
  rw [List.dropLast_cons_of_ne_nil]
  · exact List.mem_cons_of_mem _ h
  · rintro rfl
    cases h

end Sequences

theorem Conn.start_valid (msgFunc : Bool) : (Conn.start msgFunc).recvbuf.Valid :=
  Iobuf.init_valid (by norm_num)

/-! ## Items on the wire -/

section Items

variable {α : Type} (bytes : α → List UInt8)

/-- The items on the wire. -/
def wire (items : List α) : List UInt8 := items.flatMap bytes

/-- The bytes do not contain the first of the items that follow. -/
def Part (data : List UInt8) (rest : List α) : Prop :=
  data <+: wire bytes rest ∧ ∀ x ∈ rest.head?, data.length < (bytes x).length

/-- What the connection is after `read` bytes of the items: a beginning of the items has been
handed out, each once and in order, and the buffer holds the other bytes, which are not a
complete item. -/
def Handed (items : List α) (read : List UInt8) (c : Conn) : Prop :=
  ∃ done rest, items = done ++ rest ∧ c.delivered = done.map bytes
    ∧ read = wire bytes done ++ c.recvbuf.data ∧ Part bytes c.recvbuf.data rest

/-- `dataFunc` finds the item when it is there, and the item is short enough for a block of
its own. -/
structure Handles {ε : Type} (dataFunc : List UInt8 → ℕ → Except ε (Option ℕ)) (x : α) :
    Prop where
  pos : 0 < (bytes x).length
  short : (bytes x).length < 2 ^ 32 - 1
  found : ∀ l len, (bytes x).length ≤ len →
    dataFunc (bytes x ++ l) len = .ok (some (bytes x).length)

/-- `dataFunc` stops at what is left of the bytes without their complete items. -/
def Stops {ε : Type} (dataFunc : List UInt8 → ℕ → Except ε (Option ℕ)) (items : List α)
    (read : List UInt8) : Prop :=
  ∀ done left data, items = done ++ left → read = wire bytes done ++ data →
    Part bytes data left → dataFunc data data.length = .ok none

end Items

section Calls

variable {ε : Type} {trap : Trap → ε} {dataFunc : List UInt8 → ℕ → Except ε (Option ℕ)}
  {α : Type} {bytes : α → List UInt8} {items rest : List α}

/-- Items in a row are one behind the other on the wire. -/
theorem wire_append (items items' : List α) :
    wire bytes (items ++ items') = wire bytes items ++ wire bytes items' :=
  List.flatMap_append

theorem wire_cons (x : α) (items : List α) :
    wire bytes (x :: items) = bytes x ++ wire bytes items :=
  List.flatMap_cons

/-- No bytes are no complete item. -/
theorem part_nil (h : ∀ x ∈ rest, 0 < (bytes x).length) : Part bytes [] rest := by
  refine ⟨List.nil_prefix, fun x hx => ?_⟩
  exact h x (List.mem_of_mem_head? hx)

/-- Frames are short enough for a block of their own. -/
theorem deliver_ok {off : ℕ} (h : c.recvbuf.Valid) (hoff : off ≤ c.recvbuf.off)
    (hshort : off < 2 ^ 32 - 1) :
    deliver true c off
      = .ok { c with delivered := c.delivered ++ [c.recvbuf.data.take off] } := by
  have hdata := h.length_data
  rw [deliver]
  split
  · rfl
  · have hlen : (c.recvbuf.data.take off).length = off := by
      rw [List.length_take, hdata]
      omega
    simp only [mmalloc, if_true, Nat.mod_mod]
    rw [Iobuf.bcopy_ok (by rw [hlen, List.length_replicate, Nat.mod_eq_of_lt (by omega)]; omega)]
    simp [Except.map, hlen]

/-- The loop stops where `dataFunc` does. -/
theorem processLoopWith_stop {fuel : ℕ} (h : c.recvbuf.Valid)
    (hnone : dataFunc c.recvbuf.data c.recvbuf.data.length = .ok none) (hfuel : 0 < fuel) :
    processLoopWith trap dataFunc true fuel c = .ok (c, false) := by
  obtain ⟨fuel, rfl⟩ := Nat.exists_eq_succ_of_ne_zero hfuel.ne'
  have hinside := h.inside
  have hsmall := h.small
  rw [h.length_data] at hnone
  rw [processLoopWith, Nat.mod_eq_of_lt (by omega), hnone]
  rfl

/-- **The loop hands out every complete item.** -/
theorem processLoopWith_ok {fuel : ℕ} (h : c.recvbuf.Valid)
    (hitems : ∀ x ∈ rest, Handles bytes dataFunc x) (hdata : c.recvbuf.data <+: wire bytes rest)
    (hstops : Stops bytes dataFunc rest c.recvbuf.data) (hfuel : c.recvbuf.off < fuel) :
    ∃ done left c', rest = done ++ left
      ∧ processLoopWith trap dataFunc true fuel c = .ok (c', false)
      ∧ c'.recvbuf.Valid ∧ c'.recvbuf.size = c.recvbuf.size
      ∧ c'.msgFunc = c.msgFunc ∧ c'.delivered = c.delivered ++ done.map bytes
      ∧ c.recvbuf.data = wire bytes done ++ c'.recvbuf.data ∧ Part bytes c'.recvbuf.data left := by
  -- induction on the items that are still to come
  induction rest generalizing c fuel with
  | nil =>
      have hpart : Part bytes c.recvbuf.data [] := ⟨hdata, by simp⟩
      have hnone := hstops [] [] c.recvbuf.data rfl rfl hpart
      exact ⟨[], [], c, rfl, processLoopWith_stop h hnone (by omega), h, rfl, rfl, by simp,
        by simp [wire], hpart⟩
  | cons x rest ih =>
      by_cases hlen : (bytes x).length ≤ c.recvbuf.data.length
      · -- the first item is there: hand it out, and go on with the bytes behind it
        rw [wire_cons] at hdata
        obtain ⟨l, hl⟩ := List.prefix_of_prefix_length_le (List.prefix_append _ _) hdata hlen
        have hoff := h.length_data
        have hinside := h.inside
        have hsmall := h.small
        obtain ⟨hpos, hshort, hfound⟩ := hitems x List.mem_cons_self
        obtain ⟨fuel, rfl⟩ := Nat.exists_eq_succ_of_ne_zero (n := fuel) (by omega)
        obtain ⟨iob, hconsumed, hvalid, hdrop, hoff', hsize⟩ :=
          Iobuf.consumed_ok h (show (bytes x).length ≤ c.recvbuf.off by omega)
        have hrest : iob.data = l := by rw [hdrop, ← hl, List.drop_left]
        have hdata' : c.recvbuf.data = bytes x ++ iob.data := by rw [hrest, hl]
        have hstops' : Stops bytes dataFunc rest iob.data := by
          intro done left data hdone hiob hpart
          refine hstops (x :: done) left data (by rw [hdone, List.cons_append]) ?_ hpart
          rw [hdata', hiob, ← List.append_assoc]
          rfl
        obtain ⟨done, left, c', hdone, hrun, hvalid', hsize', hmsg, hdelivered, hleft, hinc⟩ :=
          ih (c := { c with
              recvbuf := iob
              delivered := c.delivered ++ [c.recvbuf.data.take (bytes x).length] })
            hvalid (fun y hy => hitems y (List.mem_cons_of_mem _ hy))
            (by rw [← hl, List.prefix_append_right_inj] at hdata; rw [hrest]; exact hdata)
            hstops' (show iob.off < fuel by omega)
        refine ⟨x :: done, left, c', by rw [hdone, List.cons_append], ?_, hvalid',
          hsize'.trans hsize, hmsg, ?_, ?_, hinc⟩
        · have hx := hfound l c.recvbuf.off (by omega)
          rw [hl] at hx
          rw [processLoopWith, Nat.mod_eq_of_lt (by omega), hx]
          simp only [bind, Except.bind]
          rw [if_neg (by omega), deliver_ok h (by omega) (by omega)]
          simp only [Except.mapError, hconsumed]
          exact hrun
        · rw [hdelivered, ← hl]
          simp
        · simp only at hleft
          rw [hdata', hleft, ← List.append_assoc]
          rfl
      · have hpart : Part bytes c.recvbuf.data (x :: rest) :=
          ⟨hdata, fun y hy => by obtain rfl := Option.some.inj hy; omega⟩
        have hnone := hstops [] (x :: rest) c.recvbuf.data rfl rfl hpart
        exact ⟨[], x :: rest, c, rfl, processLoopWith_stop h hnone (by omega), h, rfl, rfl, by simp,
          by simp [wire], hpart⟩

/-- **One call.**  It takes a connection that is right for what was read before to one that is
right for what has been read then, and returns -1 exactly at the end of the file. -/
theorem peerReadCbWith_ok (h : c.recvbuf.Valid) (hitems : ∀ x ∈ items, Handles bytes dataFunc x)
    (hhanded : Handed bytes items read c) (hrs : Answers rs) (herr : .error ∉ rs)
    (hbytes : read ++ bytesOf rs <+: wire bytes items)
    (hstops : Stops bytes dataFunc items (read ++ bytesOf rs))
    (hgrows : GrowsWithin c.recvbuf.size c.recvbuf.off (sizes rs)) :
    ∃ c' rv, peerReadCbWith trap dataFunc true c rs = .ok (c', rv) ∧ c'.recvbuf.Valid
      ∧ c'.recvbuf.size ≤ c.recvbuf.size + (bytesOf rs).length ∧ c'.msgFunc = c.msgFunc
      ∧ Handed bytes items (read ++ bytesOf rs) c' ∧ (rv < 0 ↔ .eof ∈ rs) := by
  obtain ⟨done, rest, rfl, hdelivered, rfl, -⟩ := hhanded
  obtain ⟨iob, last, hread, hvalid, hdata, hsize⟩ := readLoop_ok h hrs hgrows
  have hne : last ≠ .error := fun he => herr ((readLoop_ends hrs hread (Or.inr rfl)).mp he)
  have hbegin : iob.data <+: wire bytes rest := by
    rw [List.append_assoc, wire_append, ← hdata, List.prefix_append_right_inj] at hbytes
    exact hbytes
  rw [← readLoop_ends hrs hread (Or.inl rfl), peerReadCbWith, hread]
  simp only [bind, Except.bind, Except.mapError]
  by_cases hempty : iob.off = 0
  · -- nothing in the buffer: there is nothing to hand out
    have hnil : iob.data = [] := by
      rw [← List.length_eq_zero_iff, hvalid.length_data, hempty]
    have hhanded : Handed bytes (done ++ rest)
        (wire bytes done ++ c.recvbuf.data ++ bytesOf rs) { c with recvbuf := iob } := by
      refine ⟨done, rest, rfl, hdelivered, ?_, ?_⟩
      · rw [List.append_assoc, hdata]
      · simp only [hnil]
        exact part_nil fun x hx => (hitems x (List.mem_append_right _ hx)).pos
    by_cases heof : last = .eof
    · rw [if_pos ⟨heof, hempty⟩]
      exact ⟨_, _, rfl, hvalid, hsize, rfl, hhanded, by simp [heof]⟩
    · rw [if_neg (fun hc => heof hc.1), if_neg hne, if_pos hempty]
      exact ⟨_, _, rfl, hvalid, hsize, rfl, hhanded, by simp [heof]⟩
  · have hstops' : Stops bytes dataFunc rest iob.data := by
      intro done' left data hdone hiob hpart
      refine hstops (done ++ done') left data (by rw [hdone, List.append_assoc]) ?_ hpart
      rw [List.append_assoc, ← hdata, hiob, wire_append, List.append_assoc]
    obtain ⟨done', left, c', rfl, hloop, hvalid', hsize', hmsg, hdelivered', hdata', hinc⟩ :=
      processLoopWith_ok (c := { c with recvbuf := iob }) hvalid
        (fun x hx => hitems x (List.mem_append_right _ hx)) hbegin hstops'
        (show iob.off < iob.off + 1 by omega)
    have hhanded : Handed bytes (done ++ (done' ++ left))
        (wire bytes done ++ c.recvbuf.data ++ bytesOf rs) c' := by
      refine ⟨done ++ done', left, (List.append_assoc ..).symm, ?_, ?_, hinc⟩
      · rw [hdelivered', hdelivered, List.map_append]
      · rw [List.append_assoc, ← hdata, wire_append, List.append_assoc, ← hdata']
    rw [if_neg (fun hc => hempty hc.2), if_neg hne, if_neg hempty, hloop]
    simp only [Bool.false_eq_true, false_or]
    by_cases heof : last = .eof
    · rw [if_pos heof]
      exact ⟨_, _, rfl, hvalid', hsize'.trans_le hsize, hmsg, hhanded, by simp [heof]⟩
    · rw [if_neg heof]
      exact ⟨_, _, rfl, hvalid', hsize'.trans_le hsize, hmsg, hhanded, by simp [heof]⟩

/-- A call in which the buffer does not fit runs out of the block. -/
theorem peerReadCbWith_trap (h : c.recvbuf.Valid) (hrs : Answers rs)
    (hgrows : ¬ GrowsWithin c.recvbuf.size c.recvbuf.off (sizes rs)) :
    peerReadCbWith trap dataFunc true c rs = .error (trap .outOfBlock) := by
  rw [peerReadCbWith, readLoop_trap h hrs hgrows]
  rfl

/-- Before anything is read. -/
theorem Conn.start_handed (msgFunc : Bool) (h : ∀ x ∈ items, 0 < (bytes x).length) :
    Handed bytes items [] (Conn.start msgFunc) := by
  refine ⟨[], items, rfl, rfl, ?_, ?_⟩
  · simp [wire, Conn.start]
  · rw [Conn.start, Iobuf.init_data]
    exact part_nil h

/-- Once the whole stream is read, all items have been handed out and the buffer is empty. -/
theorem Handed.complete (h : Handed bytes items (wire bytes items) c) :
    c.delivered = items.map bytes ∧ c.recvbuf.data = [] := by
  obtain ⟨done, rest, rfl, hdelivered, hread, hbegin, hshort⟩ := h
  rw [wire_append, List.append_cancel_left_eq] at hread
  cases rest with
  | nil =>
      rw [List.append_nil]
      exact ⟨hdelivered, hread.symm⟩
  | cons x rest =>
      have hlen := hshort x rfl
      rw [← hread, wire_cons, List.length_append] at hlen
      omega

end Calls

end Zevent.Znet

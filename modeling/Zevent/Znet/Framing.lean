/-
# Framing (`default_process_func`)

`default_process_func` finds frames, a length of four bytes and as many bytes of payload, at
the front of the receive buffer.

`frames_delivered_iff` says when the frames that come out are the frames that went in,
however the socket cuts the stream: exactly when no call makes the buffer grow to `2 ^ 32`
bytes or more.  The loop reads on as long as the reads are short, so a peer that is fast
enough can make it read that much in one call, and the buffer then runs out of its block
(`short_reads_run`).
-/
import Mathlib.Tactic
import Zevent.Znet.Receive

namespace Zevent.Znet

/-! ## The callback -/

/-- `HEADER_LEN`. -/
def headerLen : ℕ := 4

/-- `dec_be32`.  The shifted bytes have no bit in common, so their union is a sum. -/
def decBe32 (buf : List UInt8) : ℕ :=
  (buf.getD 0 0).toNat * 2 ^ 24 + (buf.getD 1 0).toNat * 2 ^ 16
    + (buf.getD 2 0).toNat * 2 ^ 8 + (buf.getD 3 0).toNat

/-- `default_process_func`: the length of the first frame, when it is complete. -/
def defaultProcessFunc (buf : List UInt8) (len : ℕ) : Option ℕ :=
  if len < headerLen then none
  else
    let off := (decBe32 buf + headerLen) % 2 ^ 32
    if len < off then none else some off

/-- The loop that hands out frames; the flag says that `data_func` wanted more bytes than
there are.  Every round but the last consumes a byte at least, or the loop has no end: the
fuel is more than the number of bytes. -/
def processLoop (alloc : Bool) : ℕ → Conn → Except Trap (Conn × Bool)
  | 0, _ => .error .diverges
  | fuel + 1, c =>
      match defaultProcessFunc c.recvbuf.data (c.recvbuf.off % 2 ^ 32) with
      | none => .ok (c, false)
      | some off =>
          if off > c.recvbuf.off then .ok (c, true)
          else do
            let c ← deliver alloc c off
            let iob ← c.recvbuf.consumed off
            processLoop alloc fuel { c with recvbuf := iob }

/-- `peer_read_cb`, when `read` returns `rs` one after the other. -/
def peerReadCb (alloc : Bool) (c : Conn) (rs : List ReadResult) : Except Trap (Conn × ℤ) := do
  let (iob, rv) ← readLoop alloc c.recvbuf rs
  let c := { c with recvbuf := iob }
  if rv = .eof ∧ iob.off = 0 then return (c, -1)
  else if rv = .error then return (c, -1)
  else if iob.off = 0 then return (c, 0)
  else do
    let (c, bad) ← processLoop alloc (iob.off + 1) c
    if bad ∨ rv = .eof then return (c, -1) else return (c, 0)

/-- The event loop calls `peer_read_cb` until it returns -1 and the peer is killed. -/
def runCalls (alloc : Bool) : Conn → List (List ReadResult) → Except Trap Conn
  | c, [] => .ok c
  | c, rs :: calls => do
      let (c, rv) ← peerReadCb alloc c rs
      if rv < 0 then return c else runCalls alloc c calls

/-! ## Frames -/

/-- A frame: at most `2 ^ 31` bytes. -/
structure Frame where
  payload : List UInt8
  bound : payload.length ≤ 2 ^ 31

/-- Four bytes, big-endian. -/
def encBe32 (n : ℕ) : List UInt8 :=
  [UInt8.ofNat (n / 2 ^ 24), UInt8.ofNat (n / 2 ^ 16), UInt8.ofNat (n / 2 ^ 8), UInt8.ofNat n]

/-- A frame on the wire. -/
def Frame.bytes (f : Frame) : List UInt8 := encBe32 f.payload.length ++ f.payload

/-- The frames on the wire. -/
def stream (frames : List Frame) : List UInt8 := frames.flatMap Frame.bytes

/-- The bytes do not contain the first of the frames that follow. -/
def Incomplete (data : List UInt8) (rest : List Frame) : Prop :=
  data <+: stream rest ∧ ∀ f ∈ rest.head?, data.length < f.bytes.length

/-- What the connection is after `read` bytes of the frames: a beginning of the frames has
been delivered, each once and in order, and the buffer holds the other bytes, which are not
a complete frame. -/
def Framed (frames : List Frame) (read : List UInt8) (c : Conn) : Prop :=
  ∃ done rest, frames = done ++ rest ∧ c.delivered = done.map Frame.bytes
    ∧ read = stream done ++ c.recvbuf.data ∧ Incomplete c.recvbuf.data rest

/-- The calls in which the socket hands over a beginning of the frames, cut in any way, with
end of file at the end if at all. -/
structure SocketReads (frames : List Frame) (calls : List (List ReadResult)) : Prop where
  answers : ∀ rs ∈ calls, Answers rs
  noError : ∀ rs ∈ calls, .error ∉ rs
  eofLast : ∀ rs ∈ calls.dropLast, .eof ∉ rs
  bytes : calls.flatMap bytesOf <+: stream frames

/-- The condition: before each call, the buffer is such that the reads of the call do not
make it grow to `2 ^ 32` bytes. -/
def Fits : Conn → List (List ReadResult) → Prop
  | _, [] => True
  | c, rs :: calls => GrowsWithin c.recvbuf.size c.recvbuf.off (sizes rs)
      ∧ ∀ c' rv, peerReadCb true c rs = .ok (c', rv) → Fits c' calls

/-! ## Finding the first frame -/

/-- A big-endian length is read back. -/
theorem decBe32_encBe32 {n : ℕ} (h : n < 2 ^ 32) (l : List UInt8) :
    decBe32 (encBe32 n ++ l) = n := by
  simp only [decBe32, encBe32, List.cons_append, List.getD_cons_zero, List.getD_cons_succ,
    UInt8.toNat_ofNat']
  omega

/-- The bytes of a frame with this payload. -/
def frameBytes (payload : List UInt8) : List UInt8 := encBe32 payload.length ++ payload

/-- A frame is its header and its payload. -/
theorem length_frameBytes (payload : List UInt8) :
    (frameBytes payload).length = headerLen + payload.length := by
  rw [frameBytes, List.length_append]
  rfl

theorem Frame.length_bytes (f : Frame) : f.bytes.length = headerLen + f.payload.length :=
  length_frameBytes f.payload

/-- The length found for bytes that start with the header of a frame. -/
theorem frameLength {payload : List UInt8} (h : (frameBytes payload).length < 2 ^ 32)
    (l : List UInt8) :
    (decBe32 (encBe32 payload.length ++ l) + headerLen) % 2 ^ 32 = (frameBytes payload).length := by
  rw [length_frameBytes] at h ⊢
  rw [decBe32_encBe32 (by omega), Nat.mod_eq_of_lt (by omega), add_comm]

/-- A complete frame at the front is found. -/
theorem defaultProcessFunc_complete {payload : List UInt8}
    (h : (frameBytes payload).length < 2 ^ 32) (l : List UInt8) {len : ℕ}
    (hlen : (frameBytes payload).length ≤ len) :
    defaultProcessFunc (frameBytes payload ++ l) len = some (frameBytes payload).length := by
  have hbytes := length_frameBytes payload
  have hlength := frameLength h (payload ++ l)
  rw [← List.append_assoc] at hlength
  rw [defaultProcessFunc, if_neg (by omega)]
  show (if len < (decBe32 (encBe32 payload.length ++ payload ++ l) + headerLen) % 2 ^ 32 then none
    else some ((decBe32 (encBe32 payload.length ++ payload ++ l) + headerLen) % 2 ^ 32)) = _
  rw [hlength, if_neg (by omega)]

/-- `default_process_func` as the `data_func` of `peer_read_cb`. -/
def defaultDataFunc (buf : List UInt8) (len : ℕ) : Except Trap (Option ℕ) :=
  .ok (defaultProcessFunc buf len)

section Default

variable {α : Type} {payload : α → List UInt8} {items : List α}

/-- Frames shorter than `2 ^ 32 - 1` bytes are found. -/
theorem default_handles {x : α} (h : (frameBytes (payload x)).length < 2 ^ 32 - 1) :
    Handles (fun x => frameBytes (payload x)) defaultDataFunc x := by
  refine ⟨?_, h, fun l len hlen => ?_⟩
  · rw [length_frameBytes, headerLen]
    omega
  · rw [defaultDataFunc, defaultProcessFunc_complete (by omega) l hlen]

/-- An incomplete frame is left for later. -/
theorem default_stops (h : ∀ x ∈ items, (frameBytes (payload x)).length < 2 ^ 32 - 1)
    (read : List UInt8) :
    Stops (fun x => frameBytes (payload x)) defaultDataFunc items read := by
  rintro done left data rfl - ⟨hbegin, hshort⟩
  rw [defaultDataFunc, defaultProcessFunc]
  split
  · rfl
  · rename_i hheader
    cases left with
    | nil =>
        rw [wire, List.flatMap_nil, List.prefix_nil] at hbegin
        rw [hbegin, headerLen] at hheader
        exact absurd (by simp) hheader
    | cons x left =>
        -- the header is there
        have hwire : wire (fun x => frameBytes (payload x)) (x :: left) = encBe32 (payload x).length
            ++ (payload x ++ wire (fun x => frameBytes (payload x)) left) := by
          rw [wire_cons, frameBytes, List.append_assoc]
        rw [hwire] at hbegin
        obtain ⟨l, rfl⟩ := List.prefix_of_prefix_length_le (List.prefix_append _ _) hbegin
          (not_lt.mp hheader)
        have hx := h x (List.mem_append_right _ List.mem_cons_self)
        have hlength := frameLength (show (frameBytes (payload x)).length < 2 ^ 32 by omega) l
        simp only [hlength]
        rw [if_pos (hshort x rfl)]

end Default

/-! ## Calls -/

/-- The loop is the one with `default_process_func`. -/
theorem processLoopWith_default (alloc : Bool) (fuel : ℕ) (c : Conn) :
    processLoopWith id defaultDataFunc alloc fuel c = processLoop alloc fuel c := by
  induction fuel generalizing c with
  | zero => rfl
  | succ fuel ih =>
      rw [processLoopWith, processLoop]
      simp only [defaultDataFunc, bind, Except.bind]
      cases defaultProcessFunc c.recvbuf.data (c.recvbuf.off % 2 ^ 32) with
      | none => rfl
      | some off =>
          dsimp only
          split_ifs
          · rfl
          · cases deliver alloc c off with
            | error t => rfl
            | ok c₁ =>
                simp only [Except.mapError]
                cases c₁.recvbuf.consumed off with
                | error t => rfl
                | ok iob => exact ih _

/-- The callback is the one with `default_process_func`. -/
theorem peerReadCbWith_default (alloc : Bool) (c : Conn) (rs : List ReadResult) :
    peerReadCbWith id defaultDataFunc alloc c rs = peerReadCb alloc c rs := by
  rw [peerReadCbWith, peerReadCb]
  simp only [processLoopWith_default, bind, Except.bind]
  cases readLoop alloc c.recvbuf rs with
  | error t => rfl
  | ok p => rfl

variable {c : Conn} {frames : List Frame} {read : List UInt8} {rs : List ReadResult}

theorem Frame.short (f : Frame) : (frameBytes f.payload).length < 2 ^ 32 - 1 := by
  have hbound := f.bound
  rw [length_frameBytes, headerLen]
  omega

/-- **One call.**  It takes a connection that is right for what was read before to one that is
right for what has been read then, and returns -1 exactly at the end of the file. -/
theorem peerReadCb_handed {α : Type} (payload : α → List UInt8) {items : List α}
    (h : c.recvbuf.Valid) (hshort : ∀ x ∈ items, (frameBytes (payload x)).length < 2 ^ 32 - 1)
    (hhanded : Handed (fun x => frameBytes (payload x)) items read c) (hrs : Answers rs)
    (herr : .error ∉ rs)
    (hbytes : read ++ bytesOf rs <+: wire (fun x => frameBytes (payload x)) items)
    (hgrows : GrowsWithin c.recvbuf.size c.recvbuf.off (sizes rs)) :
    ∃ c' rv, peerReadCb true c rs = .ok (c', rv) ∧ c'.recvbuf.Valid
      ∧ c'.recvbuf.size ≤ c.recvbuf.size + (bytesOf rs).length
      ∧ Handed (fun x => frameBytes (payload x)) items (read ++ bytesOf rs) c'
      ∧ (rv < 0 ↔ .eof ∈ rs) := by
  obtain ⟨c', rv, hcall, hvalid, hsize, -, hhanded', hneg⟩ :=
    @peerReadCbWith_ok c read rs Trap id defaultDataFunc α _ items h
      (fun x hx => default_handles (hshort x hx)) hhanded hrs herr hbytes
      (default_stops hshort _) hgrows
  rw [peerReadCbWith_default] at hcall
  exact ⟨c', rv, hcall, hvalid, hsize, hhanded', hneg⟩

/-- One call on frames that a sender makes. -/
theorem peerReadCb_ok (h : c.recvbuf.Valid) (hframed : Framed frames read c) (hrs : Answers rs)
    (herr : .error ∉ rs) (hbytes : read ++ bytesOf rs <+: stream frames)
    (hgrows : GrowsWithin c.recvbuf.size c.recvbuf.off (sizes rs)) :
    ∃ c' rv, peerReadCb true c rs = .ok (c', rv) ∧ c'.recvbuf.Valid
      ∧ c'.recvbuf.size ≤ c.recvbuf.size + (bytesOf rs).length
      ∧ Framed frames (read ++ bytesOf rs) c' ∧ (rv < 0 ↔ .eof ∈ rs) :=
  peerReadCb_handed Frame.payload h (fun f _ => f.short) hframed hrs herr hbytes hgrows

/-- A call in which the buffer does not fit runs out of the block. -/
theorem peerReadCb_trap (h : c.recvbuf.Valid) (hrs : Answers rs)
    (hgrows : ¬ GrowsWithin c.recvbuf.size c.recvbuf.off (sizes rs)) :
    peerReadCb true c rs = .error .outOfBlock := by
  rw [← peerReadCbWith_default]
  exact peerReadCbWith_trap h hrs hgrows

/-- The calls after the first one. -/
theorem runCalls_cons {alloc : Bool} {calls : List (List ReadResult)} {c' : Conn} {rv : ℤ}
    (h : peerReadCb alloc c rs = .ok (c', rv)) :
    runCalls alloc c (rs :: calls) = if rv < 0 then .ok c' else runCalls alloc c' calls := by
  rw [runCalls, h]
  rfl

/-- **Every call, from a connection that is right for what was read before.** -/
theorem runCalls_iff {calls : List (List ReadResult)} (h : c.recvbuf.Valid)
    (hframed : Framed frames read c) (hanswers : ∀ rs ∈ calls, Answers rs)
    (herr : ∀ rs ∈ calls, .error ∉ rs) (heof : ∀ rs ∈ calls.dropLast, .eof ∉ rs)
    (hbytes : read ++ calls.flatMap bytesOf <+: stream frames) :
    (∀ done, done <+: calls → ∃ c', runCalls true c done = .ok c'
      ∧ Framed frames (read ++ done.flatMap bytesOf) c') ↔ Fits c calls := by
  -- induction on the calls; each side of one call gives that side of the next
  induction calls generalizing c read with
  | nil =>
      refine ⟨fun _ => trivial, fun _ done hdone => ?_⟩
      rw [List.prefix_nil.mp hdone]
      exact ⟨c, rfl, by simpa using hframed⟩
  | cons rs calls ih =>
      have hrs := hanswers rs List.mem_cons_self
      rw [List.flatMap_cons, ← List.append_assoc] at hbytes
      have hfirst : read ++ bytesOf rs <+: stream frames := (List.prefix_append _ _).trans hbytes
      by_cases hgrows : GrowsWithin c.recvbuf.size c.recvbuf.off (sizes rs)
      · obtain ⟨c₁, rv, hcall, hvalid, -, hframed₁, hneg⟩ :=
          peerReadCb_ok h hframed hrs (herr rs List.mem_cons_self) hfirst hgrows
        -- a negative result ends the file, and then this is the last call
        have hlast : rv < 0 → calls = [] := by
          intro hrv
          by_contra hcons
          exact heof rs (mem_dropLast_cons_self hcons) (hneg.mp hrv)
        have hnext := ih hvalid hframed₁ (fun r hr => hanswers r (List.mem_cons_of_mem _ hr))
          (fun r hr => herr r (List.mem_cons_of_mem _ hr))
          (fun r hr => heof r (mem_dropLast_cons hr)) hbytes
        constructor
        · intro hall
          refine ⟨hgrows, fun c' rv' hcall' => ?_⟩
          rw [hcall] at hcall'
          obtain ⟨rfl, rfl⟩ := Prod.mk.inj (Except.ok.inj hcall')
          by_cases hrv : rv < 0
          · rw [hlast hrv]
            trivial
          · refine hnext.mp fun done hdone => ?_
            obtain ⟨c', hrun, hc'⟩ := hall (rs :: done) ((List.prefix_cons_inj rs).mpr hdone)
            rw [runCalls_cons hcall, if_neg hrv] at hrun
            rw [List.flatMap_cons, ← List.append_assoc] at hc'
            exact ⟨c', hrun, hc'⟩
        · rintro ⟨-, hfits⟩ done hdone
          cases done with
          | nil => exact ⟨c, rfl, by simpa using hframed⟩
          | cons r done =>
              obtain ⟨rfl, hrest⟩ := List.cons_prefix_cons.mp hdone
              rw [runCalls_cons hcall, List.flatMap_cons, ← List.append_assoc]
              by_cases hrv : rv < 0
              · rw [hlast hrv, List.prefix_nil] at hrest
                rw [if_pos hrv, hrest]
                exact ⟨c₁, rfl, by simpa using hframed₁⟩
              · rw [if_neg hrv]
                exact hnext.mpr (hfits c₁ rv hcall) done hrest
      · refine ⟨fun hall => ?_, fun hfits => absurd hfits.1 hgrows⟩
        obtain ⟨c', hrun, -⟩ := hall [rs] (by simp)
        rw [runCalls, peerReadCb_trap h hrs hgrows] at hrun
        cases hrun

/-! ## When the buffer fits -/

/-- The buffer fits in every call when the block and all that is read are smaller than
`2 ^ 32` bytes. -/
theorem fits_of_length_lt {calls : List (List ReadResult)} (h : c.recvbuf.Valid)
    (hframed : Framed frames read c) (hanswers : ∀ rs ∈ calls, Answers rs)
    (herr : ∀ rs ∈ calls, .error ∉ rs) (hbytes : read ++ calls.flatMap bytesOf <+: stream frames)
    (hsmall : c.recvbuf.size + (calls.flatMap bytesOf).length < 2 ^ 32) : Fits c calls := by
  induction calls generalizing c read with
  | nil => trivial
  | cons rs calls ih =>
      rw [List.flatMap_cons, List.length_append] at hsmall
      rw [List.flatMap_cons, ← List.append_assoc] at hbytes
      have hgrows : GrowsWithin c.recvbuf.size c.recvbuf.off (sizes rs) :=
        growsWithin_of_sum_lt (by rw [sizes_sum]; omega)
      obtain ⟨c₁, rv, hcall, hvalid, hsize, hframed₁, -⟩ :=
        peerReadCb_ok h hframed (hanswers rs List.mem_cons_self) (herr rs List.mem_cons_self)
          ((List.prefix_append _ _).trans hbytes) hgrows
      refine ⟨hgrows, fun c' rv' hcall' => ?_⟩
      rw [hcall] at hcall'
      obtain ⟨rfl, rfl⟩ := Prod.mk.inj (Except.ok.inj hcall')
      exact ih hvalid hframed₁ (fun r hr => hanswers r (List.mem_cons_of_mem _ hr))
        (fun r hr => herr r (List.mem_cons_of_mem _ hr)) hbytes (by omega)

/-! ## Main results -/

/-- A new connection has no bytes to frame. -/
theorem Conn.start_framed (msgFunc : Bool) (frames : List Frame) :
    Framed frames [] (Conn.start msgFunc) := by
  refine Conn.start_handed msgFunc fun f _ => ?_
  rw [f.length_bytes, headerLen]
  omega

/-- **Framing does not depend on how the socket cuts the stream, as long as the buffer fits.**
For every sequence of frames and every sequence of calls that read them: after each call the
complete frames among the bytes read have been delivered, each once and in order, and the
buffer holds the other bytes, if and only if the buffer that each call starts with is such
that its reads do not make it grow to `2 ^ 32` bytes. -/
theorem frames_delivered_iff (frames : List Frame) (calls : List (List ReadResult))
    (msgFunc : Bool) (h : SocketReads frames calls) :
    (∀ done, done <+: calls → ∃ c, runCalls true (Conn.start msgFunc) done = .ok c
      ∧ Framed frames (done.flatMap bytesOf) c
      ∧ (done.flatMap bytesOf = stream frames →
        c.delivered = frames.map Frame.bytes ∧ c.recvbuf.data = []))
    ↔ Fits (Conn.start msgFunc) calls := by
  have hiff := runCalls_iff (Conn.start_valid msgFunc) (Conn.start_framed msgFunc frames)
    h.answers h.noError h.eofLast h.bytes
  rw [← hiff]
  constructor
  · intro hall done hdone
    obtain ⟨c, hrun, hframed, -⟩ := hall done hdone
    exact ⟨c, hrun, hframed⟩
  · intro hall done hdone
    obtain ⟨c, hrun, hframed⟩ := hall done hdone
    refine ⟨c, hrun, hframed, fun hend => ?_⟩
    rw [List.nil_append, hend] at hframed
    exact Handed.complete hframed

/-- Two frames, cut inside the first length, after `EINTR`, and inside the second length,
with end of file at the end. -/
theorem frames_delivered_two :
    ∃ c, runCalls true (Conn.start false)
        [[.data [0, 0], .eagain], [.data [0, 1, 7, 0], .eintr, .data [0, 0], .eagain],
          [.data [0], .eof]] = .ok c
      ∧ c.delivered = [[0, 0, 0, 1, 7], [0, 0, 0, 0]] ∧ c.recvbuf.data = [] := by
  have hreads : SocketReads [⟨[7], by simp⟩, ⟨[], by simp⟩]
      [[.data [0, 0], .eagain], [.data [0, 1, 7, 0], .eintr, .data [0, 0], .eagain],
        [.data [0], .eof]] := by
    refine ⟨?_, ?_, ?_, ?_⟩
    · simp [Answers, bufSize]
    · simp
    · simp
    · decide
  have hfits := fits_of_length_lt (Conn.start_valid false) (Conn.start_framed false _)
    hreads.answers hreads.noError hreads.bytes (by decide)
  obtain ⟨c, hrun, -, hall⟩ :=
    (frames_delivered_iff _ _ false hreads).mpr hfits _ (List.prefix_refl _)
  exact ⟨c, hrun, hall (by decide)⟩

/-- One read for each frame, and then `EAGAIN`. -/
def readsOf (frames : List Frame) : List ReadResult :=
  frames.map (fun f => .data f.bytes) ++ [.eagain]

/-- A call that reads one short frame after the other asks for all of them. -/
theorem readsOf_spec (hshort : ∀ f ∈ frames, f.bytes.length < bufSize) :
    Answers (readsOf frames) ∧ bytesOf (readsOf frames) = stream frames := by
  induction frames with
  | nil => exact ⟨rfl, rfl⟩
  | cons f frames ih =>
      obtain ⟨hanswers, hbytes⟩ := ih fun g hg => hshort g (List.mem_cons_of_mem _ hg)
      have hf := hshort f List.mem_cons_self
      have hpos : 0 < f.bytes.length := by
        rw [f.length_bytes, headerLen]
        omega
      refine ⟨⟨⟨hpos, hf.le⟩, ?_⟩, ?_⟩
      · rw [if_neg hf.ne]
        exact hanswers
      · rw [stream, List.flatMap_cons, ← stream, ← hbytes]
        rfl

/-- A frame of 4095 bytes. -/
def zeroFrame : Frame := ⟨List.replicate 4091 0, by rw [List.length_replicate]; norm_num⟩

theorem zeroFrame_length : zeroFrame.bytes.length = 4095 := by
  rw [Frame.length_bytes, zeroFrame, List.length_replicate, headerLen]

/-- **One call that reads too much.**  The socket hands over `2 ^ 21` frames, one in each
`read`, none of them of 4096 bytes.  The call of `peer_read_cb` reads them all before it
looks at the first, and runs out of the block of its buffer: no frame is delivered. -/
theorem short_reads_run :
    SocketReads (List.replicate (2 ^ 21) zeroFrame) [readsOf (List.replicate (2 ^ 21) zeroFrame)]
      ∧ runCalls true (Conn.start true) [readsOf (List.replicate (2 ^ 21) zeroFrame)]
        = .error .outOfBlock
      ∧ ¬ ∃ c, runCalls true (Conn.start true) [readsOf (List.replicate (2 ^ 21) zeroFrame)]
        = .ok c := by
  have hshort : ∀ f ∈ List.replicate (2 ^ 21) zeroFrame, f.bytes.length < bufSize := by
    intro f hf
    rw [List.eq_of_mem_replicate hf, zeroFrame_length, bufSize]
    norm_num
  have hlength : (stream (List.replicate (2 ^ 21) zeroFrame)).length = 2 ^ 21 * 4095 := by
    rw [stream, List.length_flatMap, List.map_replicate, List.sum_replicate, zeroFrame_length,
      smul_eq_mul]
  obtain ⟨hanswers, hbytes⟩ := readsOf_spec hshort
  generalize List.replicate (2 ^ 21) zeroFrame = frames at *
  have hgrows : ¬ GrowsWithin (Conn.start true).recvbuf.size (Conn.start true).recvbuf.off
      (sizes (readsOf frames)) := by
    intro hgrows
    have hvalid := Conn.start_valid true
    have hsum := hgrows.sum_lt ((Nat.le_add_left _ _).trans hvalid.inside) hvalid.small
    rw [sizes_sum, hbytes, hlength] at hsum
    omega
  have htrap : runCalls true (Conn.start true) [readsOf frames] = .error .outOfBlock := by
    rw [runCalls, peerReadCb_trap (Conn.start_valid true) hanswers hgrows]
    rfl
  refine ⟨⟨?_, ?_, ?_, ?_⟩, htrap, ?_⟩
  · intro rs hrs
    rw [List.mem_singleton.mp hrs]
    exact hanswers
  · intro rs hrs
    rw [List.mem_singleton.mp hrs]
    simp [readsOf]
  · intro rs hrs
    cases hrs
  · simp [hbytes]
  · rintro ⟨c, hc⟩
    rw [htrap] at hc
    cases hc

end Zevent.Znet

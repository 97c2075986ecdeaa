/-
# The bytes of the send path (`znet_server.c`, `znet_peer.c`)

What `Zevent.Znet.SendPath` leaves out of the send path of a connection: the growable buffer
`sendbuf` as `iobuf.c` keeps it, and the bytes that `write` has accepted.  Messages are
appended to `send_queue` at any moment; a call of `peer_write_cb` moves messages to `sendbuf`
up to a soft limit and then writes until the buffer is empty or the socket refuses.

`sent_bytes` is the result: nothing is lost, repeated or reordered between `ns_sendmsg` and
the socket.  It holds as long as `sendbuf` stays below `2 ^ 32` bytes, since `iobuf_write`
runs out of its block when it has to grow beyond that (`huge_message_traps`).
-/
import Mathlib.Tactic
import Zevent.Lib.Interleaving
import Zevent.Znet.Iobuf
import Zevent.Znet.SendPath

namespace Zevent.Znet

open Interleaving

/-! ## The model -/

/-- A message in `send_queue`; its length is a `uint32_t`. -/
structure QueuedMsg where
  buf : Msg
  len_lt : buf.length < 2 ^ 32

/-- The bytes of messages, one after the other. -/
def queuedBytes (queue : List QueuedMsg) : List UInt8 := (queue.map QueuedMsg.buf).flatten

/-- Where the event loop is: not in `peer_write_cb`, in its write loop, or about to kill the
peer because of an error. -/
inductive WriteLoop
  | idle
  | writing
  | killing
deriving DecidableEq, Repr

/-- The sending side of a peer.  `written` is what `write` has accepted so far, and `enqueued`
has all messages that were ever appended. -/
structure Sender where
  sendQueue : List QueuedMsg
  sendbuf : Iobuf
  loop : WriteLoop
  written : List UInt8
  enqueued : List QueuedMsg

/-- A message is appended by `ns_sendmsg`, `peer_write_cb` is called, `write` returns. -/
inductive SendEvent
  | enqueue (msg : QueuedMsg)
  | callWrite
  | write (r : WriteResult)

/-- The loop of `peer_write_cb` that moves messages to `sendbuf`, the allocations succeeding. -/
def moveToSendbuf : List QueuedMsg → Iobuf → Except Trap (List QueuedMsg × Iobuf)
  | [], sendbuf => .ok ([], sendbuf)
  | msg :: queue, sendbuf =>
      if sendbuf.off < maxSendbuf then do
        let sendbuf ← sendbuf.write true msg.buf
        moveToSendbuf queue sendbuf
      else .ok (msg :: queue, sendbuf)

/-- `if (rv > 0) iobuf_consumed(&p->sendbuf, rv)`. -/
def consumeWritten (sendbuf : Iobuf) (rv : ℕ) : Except Trap Iobuf :=
  if 0 < rv then sendbuf.consumed rv else .ok sendbuf

namespace Sender

/-- As `peer_create_in` leaves it. -/
def start : Sender where
  sendQueue := []
  sendbuf := Iobuf.init true 512
  loop := .idle
  written := []
  enqueued := []

/-- The lock section at the front of `peer_write_cb`, and whether it goes on to `write`. -/
def callWrite (s : Sender) : Except Trap Sender := do
  let (sendQueue, sendbuf) ← moveToSendbuf s.sendQueue s.sendbuf
  return { s with sendQueue, sendbuf, loop := if sendbuf.off = 0 then .idle else .writing }

/-- The write loop behind a `write` that has accepted `n` bytes. -/
def wrote (s : Sender) (n : ℕ) : Except Trap Sender := do
  let sendbuf ← consumeWritten s.sendbuf n
  return { s with
    sendbuf
    written := s.written ++ s.sendbuf.data.take n
    loop := if sendbuf.off = 0 then .idle else .writing }

/-- One event.  `write` accepts no more than it is offered. -/
def event (s : Sender) : SendEvent → Option (Except Trap Sender)
  | .enqueue msg =>
      some (.ok { s with sendQueue := s.sendQueue ++ [msg], enqueued := s.enqueued ++ [msg] })
  | .callWrite => if s.loop = .idle then some s.callWrite else none
  | .write r =>
      if s.loop = .writing then
        match r with
        | .wrote n => if n ≤ s.sendbuf.off then some (s.wrote n) else none
        | .eintr => some (.ok s)
        | .eagain => some (.ok { s with loop := .idle })
        | .error => some (.ok { s with loop := .killing })
      else none

/-- A run goes on as long as no call has run out of its memory. -/
def step : Except Trap Sender → SendEvent → Option (Except Trap Sender)
  | .ok s, e => s.event e
  | .error _, _ => none

/-! ## The condition -/

/-- Messages of these lengths are moved to a buffer with `off` bytes in a block of `size`, and
every block this needs is smaller than `2 ^ 32` bytes. -/
def MovesFit : ℕ → ℕ → List ℕ → Prop
  | _, _, [] => True
  | size, off, n :: lengths =>
      off < maxSendbuf →
        Iobuf.Grows size off n ∧ MovesFit (Iobuf.grown size off n) (off + n) lengths

instance MovesFit.decidable :
    (size off : ℕ) → (lengths : List ℕ) → Decidable (MovesFit size off lengths)
  | _, _, [] => inferInstanceAs (Decidable True)
  | size, off, n :: lengths =>
      have := MovesFit.decidable (Iobuf.grown size off n) (off + n) lengths
      inferInstanceAs (Decidable (_ → _ ∧ _))

/-- The messages that the next call of `peer_write_cb` moves fit. -/
def Fits : Except Trap Sender → SendEvent → Prop
  | .ok s, .callWrite =>
      MovesFit s.sendbuf.size s.sendbuf.off (s.sendQueue.map fun msg => msg.buf.length)
  | _, _ => True

instance : (st : Except Trap Sender) → (e : SendEvent) → Decidable (Fits st e)
  | .ok _, .callWrite => inferInstanceAs (Decidable (MovesFit _ _ _))
  | .ok _, .enqueue _ | .ok _, .write _ => inferInstanceAs (Decidable True)
  | .error _, _ => inferInstanceAs (Decidable True)

/-! ## The invariant -/

/-- The buffer is sound, and what was written, what is in the buffer and what is in the queue
are the bytes of the messages that were appended. -/
structure Inv (s : Sender) : Prop where
  valid : s.sendbuf.Valid
  bytes : s.written ++ s.sendbuf.data ++ queuedBytes s.sendQueue = queuedBytes s.enqueued

theorem start_inv : start.Inv where
  valid := Iobuf.init_valid (by decide)
  bytes := by
    show [] ++ (Iobuf.init true 512).data ++ [] = []
    rw [Iobuf.init_data]
    rfl

end Sender

/-- A message is queued behind the others. -/
theorem queuedBytes_append (queue : List QueuedMsg) (msg : QueuedMsg) :
    queuedBytes (queue ++ [msg]) = queuedBytes queue ++ msg.buf := by
  simp [queuedBytes]

/-- Moving messages keeps the bytes in their order. -/
theorem moveMsgs_bytes (queue : List Msg) (sendbuf : List UInt8) :
    (moveMsgs queue sendbuf).2 ++ (moveMsgs queue sendbuf).1.flatten
      = sendbuf ++ queue.flatten := by
  induction queue generalizing sendbuf with
  | nil => rfl
  | cons msg queue ih =>
      rw [moveMsgs]
      split
      · rw [ih, List.flatten_cons, List.append_assoc]
      · rfl

/-- The loop on the growable buffer does to its data what `moveMsgs` does to a list of bytes,
as long as the messages fit. -/
theorem moveToSendbuf_ok {queue : List QueuedMsg} {sendbuf : Iobuf} (h : sendbuf.Valid)
    (hfit : Sender.MovesFit sendbuf.size sendbuf.off (queue.map fun msg => msg.buf.length)) :
    ∃ queue' sendbuf', moveToSendbuf queue sendbuf = .ok (queue', sendbuf') ∧ sendbuf'.Valid
      ∧ moveMsgs (queue.map QueuedMsg.buf) sendbuf.data
        = (queue'.map QueuedMsg.buf, sendbuf'.data) := by
  induction queue generalizing sendbuf with
  | nil => exact ⟨[], sendbuf, rfl, h, rfl⟩
  | cons msg queue ih =>
      rw [moveToSendbuf, List.map_cons, moveMsgs, h.length_data]
      by_cases hroom : sendbuf.off < maxSendbuf
      · -- the message is appended, and the loop goes on
        obtain ⟨hgrows, hrest⟩ := hfit hroom
        obtain ⟨sendbuf₁, hwrite, hvalid, hdata, hoff, hsize⟩ := Iobuf.write_ok h hgrows
        rw [← hsize, ← hoff] at hrest
        rw [if_pos hroom, if_pos hroom, hwrite, ← hdata]
        exact ih hvalid hrest
      · rw [if_neg hroom, if_neg hroom]
        exact ⟨msg :: queue, sendbuf, rfl, h, rfl⟩

/-- Messages that do not fit run out of a block. -/
theorem moveToSendbuf_trap {queue : List QueuedMsg} {sendbuf : Iobuf} (h : sendbuf.Valid)
    (hfit : ¬ Sender.MovesFit sendbuf.size sendbuf.off (queue.map fun msg => msg.buf.length)) :
    moveToSendbuf queue sendbuf = .error .outOfBlock := by
  induction queue generalizing sendbuf with
  | nil => exact absurd trivial hfit
  | cons msg queue ih =>
      rw [List.map_cons, Sender.MovesFit, Classical.not_imp] at hfit
      obtain ⟨hroom, hfit⟩ := hfit
      rw [moveToSendbuf, if_pos hroom]
      by_cases hgrows : Iobuf.Grows sendbuf.size sendbuf.off msg.buf.length
      · obtain ⟨sendbuf₁, hwrite, hvalid, -, hoff, hsize⟩ := Iobuf.write_ok h hgrows
        rw [hwrite]
        apply ih hvalid
        rw [hsize, hoff]
        exact fun hrest => hfit ⟨hgrows, hrest⟩
      · rw [Iobuf.write_trap h msg.len_lt hgrows]
        rfl

/-- Behind a `write` the accepted bytes are gone from the front of the data. -/
theorem consumeWritten_ok {sendbuf : Iobuf} (h : sendbuf.Valid) {n : ℕ} (hn : n ≤ sendbuf.off) :
    ∃ sendbuf', consumeWritten sendbuf n = .ok sendbuf' ∧ sendbuf'.Valid
      ∧ sendbuf'.data = sendbuf.data.drop n := by
  rw [consumeWritten]
  split_ifs with hpos
  · obtain ⟨sendbuf', hconsumed, hvalid, hdata, -⟩ := Iobuf.consumed_ok h hn
    exact ⟨sendbuf', hconsumed, hvalid, hdata⟩
  · obtain rfl : n = 0 := Nat.eq_zero_of_not_pos hpos
    exact ⟨sendbuf, rfl, h, rfl⟩

namespace Sender

variable {s : Sender}

/-- The move of the queue into the buffer keeps the invariant. -/
theorem Inv.callWrite (h : s.Inv)
    (hfit : MovesFit s.sendbuf.size s.sendbuf.off (s.sendQueue.map fun msg => msg.buf.length)) :
    ∃ s', s.callWrite = .ok s' ∧ s'.Inv := by
  obtain ⟨queue, sendbuf, hmove, hvalid, hmsgs⟩ := moveToSendbuf_ok h.valid hfit
  have hbytes := moveMsgs_bytes (s.sendQueue.map QueuedMsg.buf) s.sendbuf.data
  rw [hmsgs] at hbytes
  rw [Sender.callWrite, hmove]
  refine ⟨_, rfl, hvalid, ?_⟩
  rw [← h.bytes, List.append_assoc, List.append_assoc]
  exact congrArg (s.written ++ ·) hbytes

theorem Inv.wrote (h : s.Inv) {n : ℕ} (hn : n ≤ s.sendbuf.off) :
    ∃ s', s.wrote n = .ok s' ∧ s'.Inv := by
  obtain ⟨sendbuf, hconsumed, hvalid, hdata⟩ := consumeWritten_ok h.valid hn
  rw [Sender.wrote, hconsumed]
  refine ⟨_, rfl, hvalid, ?_⟩
  rw [← h.bytes, hdata]
  show s.written ++ s.sendbuf.data.take n ++ s.sendbuf.data.drop n ++ _ = _
  rw [List.append_assoc s.written, List.take_append_drop]

/-- **Step lemma.**  From a state with the invariant, an event ends in such a state exactly
when the messages that it moves fit. -/
theorem Inv.event (h : s.Inv) {e : SendEvent} {st : Except Trap Sender}
    (hs : s.event e = some st) :
    if Fits (.ok s) e then ∃ s', st = .ok s' ∧ s'.Inv else st = .error .outOfBlock := by
  cases e with
  | enqueue msg =>
      obtain rfl := Option.some.inj hs
      refine ⟨_, rfl, h.valid, ?_⟩
      rw [queuedBytes_append, queuedBytes_append, ← h.bytes, List.append_assoc _ _ msg.buf]
  | callWrite =>
      rw [Sender.event] at hs
      split_ifs at hs with hidle
      obtain rfl := Option.some.inj hs
      split_ifs with hfit
      · exact h.callWrite hfit
      · rw [Sender.callWrite, moveToSendbuf_trap h.valid hfit]
        rfl
  | write r =>
      show ∃ s', st = .ok s' ∧ s'.Inv
      simp only [Sender.event] at hs
      split_ifs at hs with hwriting
      cases r with
      | wrote n =>
          simp only at hs
          split_ifs at hs with hn
          obtain rfl := Option.some.inj hs
          exact h.wrote hn
      | eintr | eagain | error =>
          obtain rfl := Option.some.inj hs
          exact ⟨_, rfl, h.valid, h.bytes⟩

/-- **Run lemma.** -/
theorem inv_of_reach {st : Except Trap Sender} (h : Reach step Fits (.ok start) st) :
    ∃ s, st = .ok s ∧ s.Inv := by
  refine h.invariant (fun st => ∃ s, st = .ok s ∧ s.Inv) ⟨start, rfl, start_inv⟩ ?_
  rintro st e st' ⟨s, rfl, hs⟩ hfit hstep
  have hevent := hs.event hstep
  rwa [if_pos hfit] at hevent

end Sender

/-- **The send path keeps order and bytes, as long as `sendbuf` can grow.**  In every run of
appended messages, calls of `peer_write_cb` and results of `write` in which the blocks that
`sendbuf` needs are smaller than `2 ^ 32` bytes: the bytes written so far, the bytes in
`sendbuf` and the messages in `send_queue` are together the messages that were appended, in
their order.  The next event goes on in such a state exactly when the messages it moves fit. -/
theorem sent_bytes {st : Except Trap Sender}
    (h : Reach Sender.step Sender.Fits (.ok Sender.start) st) :
    ∃ s, st = .ok s
      ∧ s.written ++ s.sendbuf.data ++ queuedBytes s.sendQueue = queuedBytes s.enqueued
      ∧ ∀ e st', s.event e = some st' → ((∃ s', st' = .ok s') ↔ Sender.Fits (.ok s) e) := by
  obtain ⟨s, rfl, hs⟩ := Sender.inv_of_reach h
  refine ⟨s, rfl, hs.bytes, fun e st' hstep => ?_⟩
  have hevent := hs.event hstep
  split_ifs at hevent with hfit
  · obtain ⟨s', hs', -⟩ := hevent
    exact ⟨fun _ => hfit, fun _ => ⟨s', hs'⟩⟩
  · subst hevent
    simp [hfit]

/-- Two messages, the second of which arrives between two partial writes. -/
theorem sent_bytes_partial_writes :
    ∃ s, Reach Sender.step Sender.Fits (.ok Sender.start) (.ok s)
      ∧ s.written = [1, 2, 3] ∧ s.sendbuf.data = [4]
      ∧ s.written ++ s.sendbuf.data ++ queuedBytes s.sendQueue = queuedBytes s.enqueued := by
  let first : QueuedMsg := ⟨[1, 2], by decide⟩
  let second : QueuedMsg := ⟨[3, 4], by decide⟩
  have hrun : (run Sender.step Sender.Fits (.ok Sender.start)
      [.enqueue first, .callWrite, .write (.wrote 1), .enqueue second, .write .eintr,
        .write (.wrote 1), .callWrite, .write (.wrote 1), .write .eagain]).map
        (fun st => st.toOption.map fun s => (s.written, s.sendbuf.data))
      = some (some ([1, 2, 3], [4])) := by
    decide +kernel
  obtain ⟨st, hst, hstate⟩ := Option.map_eq_some_iff.mp hrun
  have hreach := Reach.refl.run _ hst
  obtain ⟨s, rfl, hbytes, -⟩ := sent_bytes hreach
  have hpair : (s.written, s.sendbuf.data) = ([1, 2, 3], [4]) := Option.some.inj hstate
  rw [Prod.mk.injEq] at hpair
  exact ⟨s, hreach, hpair.1, hpair.2, hbytes⟩

/-- The smallest message that a new connection cannot move to its `sendbuf`. -/
def hugeMsg : QueuedMsg where
  buf := List.replicate (2 ^ 32 - 512) 0
  len_lt := by
    rw [List.length_replicate]
    decide

/-- **A huge message runs out of the block.**  `iobuf_accommodate` asks `mmalloc`, which takes
a `uint32_t`, for `2 ^ 32` bytes. -/
theorem huge_message_traps :
    ∃ st, Reach Sender.step Always (.ok Sender.start) st ∧ st = .error .outOfBlock
      ∧ ¬ ∃ s, st = .ok s
        ∧ s.written ++ s.sendbuf.data ++ queuedBytes s.sendQueue = queuedBytes s.enqueued := by
  let queued : Sender := { Sender.start with sendQueue := [hugeMsg], enqueued := [hugeMsg] }
  have hlen : hugeMsg.buf.length = 2 ^ 32 - 512 := List.length_replicate
  have hfit : ¬ Sender.MovesFit queued.sendbuf.size queued.sendbuf.off
      (queued.sendQueue.map fun msg => msg.buf.length) := by
    show ¬ Sender.MovesFit 512 0 [hugeMsg.buf.length]
    rw [hlen]
    decide
  have htrap : moveToSendbuf queued.sendQueue queued.sendbuf = .error .outOfBlock :=
    moveToSendbuf_trap (Iobuf.init_valid (by decide)) hfit
  have hcall : queued.callWrite = .error .outOfBlock := by
    rw [Sender.callWrite, htrap]
    rfl
  have henqueue : Sender.step (.ok Sender.start) (.enqueue hugeMsg) = some (.ok queued) := rfl
  have hstep : Sender.step (.ok queued) .callWrite = some (.error .outOfBlock) := by
    show some queued.callWrite = _
    rw [hcall]
  refine ⟨_, (Reach.refl.tail trivial henqueue).tail trivial hstep, rfl, ?_⟩
  rintro ⟨s, hs, -⟩
  cases hs

end Zevent.Znet

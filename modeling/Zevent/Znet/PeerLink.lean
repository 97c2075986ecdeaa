/-
# A connection from one end to the other (`ns_sendmsg` to `peer_read_cb`)

The sending peer of `Zevent.Znet.SendBytes`, the receiving one of `Zevent.Znet.Framing`, and
between them what the socket has taken from one `write` and not yet given to a `read`.  The
two peers go on independently of each other: messages are appended, the callbacks are called
and the socket cuts the bytes in any order and in any way, and either end can fail.

`link_delivers`: what the receiver has handed out is at any moment a beginning of what was
sent, message by message, and the rest is on its way; when nothing is on its way, it is all.
-/
import Mathlib.Tactic
import Zevent.Lib.Interleaving
import Zevent.Znet.SendBytes
import Zevent.Znet.Framing
import Zevent.Znet.Progress

namespace Zevent.Znet

open Interleaving

/-! ## The model -/

/-- Both ends of a connection, and the bytes between them.  `closed` is set when
`peer_read_cb` returns -1, and the receiving peer is killed. -/
structure PeerLink where
  sender : Sender
  socket : List UInt8
  conn : Conn
  closed : Bool

/-- The sender does something, or `peer_read_cb` is called and gets `rs` from `read`. -/
inductive LinkEvent
  | send (e : SendEvent)
  | read (rs : List ReadResult)

instance Answers.decidable : (rs : List ReadResult) → Decidable (Answers rs)
  | [] => inferInstanceAs (Decidable False)
  | .data buf :: rs =>
      have := Answers.decidable rs
      inferInstanceAs (Decidable ((0 < buf.length ∧ buf.length ≤ bufSize) ∧
        if buf.length = bufSize then rs = [] else Answers rs))
  | .eintr :: rs => Answers.decidable rs
  | .eagain :: rs | .eof :: rs | .error :: rs => inferInstanceAs (Decidable (rs = []))

instance GrowsWithin.decidable :
    (size off : ℕ) → (counts : List ℕ) → Decidable (GrowsWithin size off counts)
  | _, _, [] => inferInstanceAs (Decidable True)
  | size, off, count :: counts =>
      have := GrowsWithin.decidable (Iobuf.grown size off count) (off + count) counts
      inferInstanceAs (Decidable ((_ ∨ _) ∧ _))

namespace PeerLink

/-- Two peers that `peer_create_in` has just made. -/
def start (msgFunc : Bool) : PeerLink := ⟨Sender.start, [], Conn.start msgFunc, false⟩

/-- The bytes that the sender has written are in the socket. -/
def sent (s : PeerLink) (sender : Sender) : PeerLink :=
  { s with sender, socket := s.socket ++ sender.written.drop s.sender.written.length }

/-- A call of `peer_read_cb`. -/
def read (s : PeerLink) (rs : List ReadResult) : Except Trap PeerLink := do
  let (conn, rv) ← peerReadCb true s.conn rs
  return { s with socket := s.socket.drop (bytesOf rs).length, conn, closed := rv < 0 }

/-- One event.  The socket gives bytes in the order in which it took them. -/
def event (s : PeerLink) : LinkEvent → Option (Except Trap PeerLink)
  | .send e => (s.sender.event e).map fun st => st.map s.sent
  | .read rs =>
      if s.closed = false ∧ Answers rs ∧ bytesOf rs <+: s.socket then some (s.read rs) else none

/-- A run goes on as long as no call has run out of its memory. -/
def step : Except Trap PeerLink → LinkEvent → Option (Except Trap PeerLink)
  | .ok s, e => s.event e
  | .error _, _ => none

end PeerLink

/-! ## The condition -/

/-- The message is a frame: its first four bytes are the number of its other bytes. -/
structure IsFrame (buf : Msg) : Prop where
  header : headerLen ≤ buf.length
  length : decBe32 buf = buf.length - headerLen
  short : buf.length < 2 ^ 32 - 1

instance (buf : Msg) : Decidable (IsFrame buf) :=
  decidable_of_iff (headerLen ≤ buf.length ∧ decBe32 buf = buf.length - headerLen
    ∧ buf.length < 2 ^ 32 - 1)
    ⟨fun h => ⟨h.1, h.2.1, h.2.2⟩, fun h => ⟨h.header, h.length, h.short⟩⟩

namespace PeerLink

/-- The messages that are sent are frames, and no buffer has to grow to `2 ^ 32` bytes. -/
def Fits : Except Trap PeerLink → LinkEvent → Prop
  | .ok _, .send (.enqueue msg) => IsFrame msg.buf
  | .ok s, .send e => Sender.Fits (.ok s.sender) e
  | .ok s, .read rs => GrowsWithin s.conn.recvbuf.size s.conn.recvbuf.off (sizes rs)
  | .error _, _ => True

instance : (st : Except Trap PeerLink) → (e : LinkEvent) → Decidable (Fits st e)
  | .ok _, .send (.enqueue msg) => inferInstanceAs (Decidable (IsFrame msg.buf))
  | .ok s, .send .callWrite => inferInstanceAs (Decidable (Sender.Fits (.ok s.sender) .callWrite))
  | .ok _, .send (.write _) => inferInstanceAs (Decidable True)
  | .ok _, .read _ => inferInstanceAs (Decidable (GrowsWithin _ _ _))
  | .error _, _ => inferInstanceAs (Decidable True)

end PeerLink

/-! ## What is on the way -/

/-- The payload of a message. -/
def QueuedMsg.payload (msg : QueuedMsg) : List UInt8 := msg.buf.drop headerLen

/-- The message as a frame of its payload. -/
def QueuedMsg.frame (msg : QueuedMsg) : List UInt8 := frameBytes msg.payload

/-- A frame is cut off as a whole. -/
theorem IsFrame.frame_eq {msg : QueuedMsg} (h : IsFrame msg.buf) : msg.frame = msg.buf := by
  have hlen : msg.payload.length = decBe32 msg.buf := by
    rw [QueuedMsg.payload, List.length_drop, h.length]
  rw [QueuedMsg.frame, frameBytes, hlen, encBe32_decBe32 h.header, QueuedMsg.payload,
    List.take_append_drop]

/-- The frames of a queue are its bytes. -/
theorem wire_frames {queue : List QueuedMsg} (h : ∀ msg ∈ queue, IsFrame msg.buf) :
    wire QueuedMsg.frame queue = queuedBytes queue := by
  induction queue with
  | nil => rfl
  | cons msg queue ih =>
      rw [wire_cons, (h msg List.mem_cons_self).frame_eq,
        ih fun m hm => h m (List.mem_cons_of_mem _ hm)]
      rfl

/-- What was handed out stays handed out when more is sent. -/
theorem Handed.extend {α : Type} {bytes : α → List UInt8} {items : List α} {read : List UInt8}
    {c : Conn} (h : Handed bytes items read c) (hpos : ∀ x, 0 < (bytes x).length) (x : α) :
    Handed bytes (items ++ [x]) read c := by
  obtain ⟨done, rest, rfl, hdelivered, hread, hbegin, hshort⟩ := h
  refine ⟨done, rest ++ [x], List.append_assoc .., hdelivered, hread, ?_, ?_⟩
  · rw [wire_append]
    exact hbegin.trans (List.prefix_append _ _)
  · cases rest with
    | nil =>
        rw [wire, List.flatMap_nil, List.prefix_nil] at hbegin
        rw [hbegin]
        exact fun y _ => hpos y
    | cons y rest => exact hshort

theorem frame_pos (msg : QueuedMsg) : 0 < msg.frame.length := by
  rw [QueuedMsg.frame, length_frameBytes, headerLen]
  omega

/-- A call of `peer_read_cb` whose `read` fails hands nothing out. -/
theorem peerReadCb_error {c : Conn} {rs : List ReadResult} (h : c.recvbuf.Valid)
    (hrs : Answers rs) (herr : .error ∈ rs)
    (hgrows : GrowsWithin c.recvbuf.size c.recvbuf.off (sizes rs)) :
    ∃ c', peerReadCb true c rs = .ok (c', -1) ∧ c'.recvbuf.Valid ∧ c'.delivered = c.delivered := by
  obtain ⟨iob, last, hread, hvalid, -, -⟩ := readLoop_ok h hrs hgrows
  obtain rfl := (readLoop_ends hrs hread (Or.inr rfl)).mpr herr
  refine ⟨{ c with recvbuf := iob }, ?_, hvalid, rfl⟩
  rw [peerReadCb, hread]
  rfl

namespace PeerLink

variable {s : PeerLink}

/-- The invariant.  `read` is what the receiver has read; the receiver is right for it as long
as it is not closed. -/
structure Inv (s : PeerLink) (read : List UInt8) : Prop where
  sender : s.sender.Inv
  frames : ∀ msg ∈ s.sender.enqueued, IsFrame msg.buf
  written : s.sender.written = read ++ s.socket
  valid : s.conn.recvbuf.Valid
  handed : s.closed = false → Handed QueuedMsg.frame s.sender.enqueued read s.conn
  delivered : s.conn.delivered <+: s.sender.enqueued.map QueuedMsg.frame

theorem start_inv (msgFunc : Bool) : (start msgFunc).Inv [] where
  sender := Sender.start_inv
  frames msg hmsg := by cases hmsg
  written := rfl
  valid := Conn.start_valid msgFunc
  handed _ := Conn.start_handed msgFunc fun x _ => frame_pos x
  delivered := List.prefix_refl _

end PeerLink

/-- An event of the sender that goes on adds to what was written, and to what was appended if
it is an `ns_sendmsg`. -/
theorem Sender.event_spec {s s' : Sender} {e : SendEvent} (hs : s.event e = some (.ok s')) :
    s.written <+: s'.written ∧
      ((∃ msg, e = .enqueue msg ∧ s'.enqueued = s.enqueued ++ [msg]) ∨
        s'.enqueued = s.enqueued) := by
  cases e with
  | enqueue msg =>
      rw [Sender.event, Option.some.injEq] at hs
      cases hs
      exact ⟨List.prefix_refl _, .inl ⟨msg, rfl, rfl⟩⟩
  | callWrite =>
      rw [Sender.event] at hs
      split_ifs at hs
      rw [Option.some.injEq, Sender.callWrite] at hs
      cases hmove : moveToSendbuf s.sendQueue s.sendbuf with
      | error t =>
          rw [hmove] at hs
          cases hs
      | ok p =>
          rw [hmove] at hs
          cases hs
          exact ⟨List.prefix_refl _, .inr rfl⟩
  | write r =>
      simp only [Sender.event] at hs
      split_ifs at hs
      cases r with
      | wrote n =>
          simp only at hs
          split_ifs at hs
          rw [Option.some.injEq, Sender.wrote] at hs
          cases hconsume : consumeWritten s.sendbuf n with
          | error t =>
              rw [hconsume] at hs
              cases hs
          | ok sendbuf =>
              rw [hconsume] at hs
              cases hs
              exact ⟨List.prefix_append _ _, .inr rfl⟩
      | eintr | eagain | error =>
          rw [Option.some.injEq] at hs
          cases hs
          exact ⟨List.prefix_refl _, .inr rfl⟩

namespace PeerLink

variable {s : PeerLink} {got : List UInt8}

/-- The sender does something. -/
theorem Inv.send (h : s.Inv got) {e : SendEvent} {st : Except Trap PeerLink}
    (hfit : Fits (.ok s) (.send e)) (hs : s.event (.send e) = some st) :
    ∃ s', st = .ok s' ∧ s'.Inv got := by
  obtain ⟨t, ht, rfl⟩ := Option.map_eq_some_iff.mp hs
  have hsfit : Sender.Fits (.ok s.sender) e := by
    cases e with
    | enqueue msg => trivial
    | callWrite | write r => exact hfit
  have hevent := h.sender.event ht
  rw [if_pos hsfit] at hevent
  obtain ⟨sender, rfl, hinv⟩ := hevent
  obtain ⟨⟨more, hmore⟩, henq⟩ := Sender.event_spec ht
  have hsocket : (s.sent sender).socket = s.socket ++ more := by
    rw [sent, ← hmore, List.drop_left]
  have hwritten : (s.sent sender).sender.written = got ++ (s.sent sender).socket := by
    rw [hsocket, ← List.append_assoc, ← h.written]
    exact hmore.symm
  refine ⟨s.sent sender, rfl, ?_⟩
  rcases henq with ⟨msg, rfl, henq⟩ | henq
  · refine ⟨hinv, ?_, hwritten, h.valid, ?_, ?_⟩
    · intro m hm
      rw [show (s.sent sender).sender.enqueued = _ from henq] at hm
      rcases List.mem_append.mp hm with hm | hm
      · exact h.frames m hm
      · rw [List.mem_singleton.mp hm]
        exact hfit
    · intro hopen
      rw [show (s.sent sender).sender.enqueued = _ from henq]
      exact (h.handed hopen).extend frame_pos msg
    · rw [show (s.sent sender).sender.enqueued = _ from henq, List.map_append]
      exact h.delivered.trans (List.prefix_append _ _)
  · refine ⟨hinv, ?_, hwritten, h.valid, ?_, ?_⟩
    · rw [show (s.sent sender).sender.enqueued = _ from henq]
      exact h.frames
    · rw [show (s.sent sender).sender.enqueued = _ from henq]
      exact h.handed
    · rw [show (s.sent sender).sender.enqueued = _ from henq]
      exact h.delivered

/-- What was handed out is a beginning of what was sent. -/
theorem prefix_of_handed {items : List QueuedMsg} {c : Conn}
    (h : Handed QueuedMsg.frame items got c) : c.delivered <+: items.map QueuedMsg.frame := by
  obtain ⟨done, rest, rfl, hdelivered, -⟩ := h
  rw [hdelivered, List.map_append]
  exact List.prefix_append _ _

/-- `peer_read_cb` is called. -/
theorem Inv.read (h : s.Inv got) {rs : List ReadResult} {st : Except Trap PeerLink}
    (hfit : Fits (.ok s) (.read rs)) (hs : s.event (.read rs) = some st) :
    ∃ s', st = .ok s' ∧ s'.Inv (got ++ bytesOf rs) := by
  rw [event] at hs
  split_ifs at hs with hcall
  obtain ⟨hopen, hrs, hsocket⟩ := hcall
  obtain rfl := Option.some.inj hs
  have hwritten : s.sender.written
      = got ++ bytesOf rs ++ s.socket.drop (bytesOf rs).length := by
    rw [h.written, List.append_assoc, List.prefix_iff_eq_append.mp hsocket]
  by_cases herr : .error ∈ rs
  · obtain ⟨c, hcall, hvalid, hdelivered⟩ := peerReadCb_error h.valid hrs herr hfit
    rw [PeerLink.read, hcall]
    refine ⟨_, rfl, h.sender, h.frames, hwritten, hvalid, ?_, ?_⟩
    · intro hclosed
      cases hclosed
    · rw [hdelivered]
      exact h.delivered
  · have hbytes : got ++ bytesOf rs <+: wire QueuedMsg.frame s.sender.enqueued := by
      rw [wire_frames h.frames, ← h.sender.bytes, hwritten]
      simp only [List.append_assoc]
      rw [← List.append_assoc got]
      exact List.prefix_append _ _
    have hshort : ∀ x ∈ s.sender.enqueued, (frameBytes x.payload).length < 2 ^ 32 - 1 := by
      intro x hx
      have hframe := h.frames x hx
      rw [← QueuedMsg.frame, hframe.frame_eq]
      exact hframe.short
    obtain ⟨c, rv, hcall, hvalid, -, hhanded, -⟩ :=
      peerReadCb_handed QueuedMsg.payload h.valid hshort (h.handed hopen) hrs herr hbytes hfit
    rw [PeerLink.read, hcall]
    exact ⟨_, rfl, h.sender, h.frames, hwritten, hvalid, fun _ => hhanded,
      prefix_of_handed hhanded⟩

/-- **Run lemma.** -/
theorem inv_of_reach {msgFunc : Bool} {st : Except Trap PeerLink}
    (h : Reach step Fits (.ok (start msgFunc)) st) : ∃ s got, st = .ok s ∧ s.Inv got := by
  refine h.invariant (fun st => ∃ s got, st = .ok s ∧ s.Inv got)
    ⟨_, [], rfl, start_inv msgFunc⟩ ?_
  rintro st e st' ⟨s, got, rfl, hs⟩ hfit hstep
  cases e with
  | send e =>
      obtain ⟨s', rfl, hs'⟩ := hs.send hfit hstep
      exact ⟨s', got, rfl, hs'⟩
  | read rs =>
      obtain ⟨s', rfl, hs'⟩ := hs.read hfit hstep
      exact ⟨s', _, rfl, hs'⟩

end PeerLink

/-- **A connection delivers what was sent.**  In every run of the two peers in which the
messages are frames and no buffer has to grow to `2 ^ 32` bytes: no call runs out of its
memory; the messages that the receiver has handed out are the first ones of those that were
sent, each once and in their order; as long as it is not closed, what it has handed out and
what is in its buffer, in the socket, in `sendbuf` and in `send_queue` are together the bytes
that were sent; and when nothing is left on the way, everything has been handed out. -/
theorem link_delivers {msgFunc : Bool} {st : Except Trap PeerLink}
    (h : Reach PeerLink.step PeerLink.Fits (.ok (PeerLink.start msgFunc)) st) :
    ∃ s, st = .ok s ∧ s.conn.delivered <+: s.sender.enqueued.map QueuedMsg.buf ∧
      (s.closed = false →
        s.conn.delivered.flatten ++ s.conn.recvbuf.data ++ s.socket ++ s.sender.sendbuf.data
          ++ queuedBytes s.sender.sendQueue = queuedBytes s.sender.enqueued ∧
        (s.socket = [] → s.sender.sendbuf.data = [] → s.sender.sendQueue = [] →
          s.conn.delivered = s.sender.enqueued.map QueuedMsg.buf ∧ s.conn.recvbuf.data = [])) := by
  obtain ⟨s, got, rfl, hs⟩ := PeerLink.inv_of_reach h
  have hmap : s.sender.enqueued.map QueuedMsg.frame = s.sender.enqueued.map QueuedMsg.buf :=
    List.map_congr_left fun msg hmsg => (hs.frames msg hmsg).frame_eq
  refine ⟨s, rfl, hmap ▸ hs.delivered, fun hopen => ⟨?_, ?_⟩⟩
  · obtain ⟨done, rest, -, hdelivered, hgot, -⟩ := hs.handed hopen
    rw [← hs.sender.bytes, hs.written, hgot, hdelivered, ← List.flatMap_def]
    rfl
  · intro hsocket hsendbuf hqueue
    have hbytes := hs.sender.bytes
    rw [hs.written, hsocket, hsendbuf, hqueue] at hbytes
    have hall : got = wire QueuedMsg.frame s.sender.enqueued := by
      rw [wire_frames hs.frames, ← hbytes]
      simp [queuedBytes]
    have hhanded := hs.handed hopen
    rw [hall] at hhanded
    rw [← hmap]
    exact hhanded.complete

/-- Two messages, the second of which is appended while the first is read in three pieces. -/
theorem link_delivers_two :
    ∃ s, Reach PeerLink.step PeerLink.Fits (.ok (PeerLink.start true)) (.ok s) ∧
      s.conn.delivered = [[0, 0, 0, 1, 7], [0, 0, 0, 0]] := by
  let first : QueuedMsg := ⟨[0, 0, 0, 1, 7], by decide⟩
  let second : QueuedMsg := ⟨[0, 0, 0, 0], by decide⟩
  have hrun : (run PeerLink.step PeerLink.Fits (.ok (PeerLink.start true))
      [.send (.enqueue first), .send .callWrite, .send (.write (.wrote 3)),
        .read [.data [0, 0], .eagain], .send (.enqueue second), .send (.write (.wrote 2)),
        .read [.data [0], .eintr, .data [1], .eagain], .send .callWrite,
        .send (.write (.wrote 4)), .read [.data [7, 0, 0, 0, 0], .eagain]]).map
        (fun st => st.toOption.map fun s => ([[s.socket, s.sender.sendbuf.data],
          s.sender.sendQueue.map QueuedMsg.buf, s.sender.enqueued.map QueuedMsg.buf], s.closed))
      = some (some ([[[], []], [], [[0, 0, 0, 1, 7], [0, 0, 0, 0]]], false)) := by
    decide +kernel
  obtain ⟨st, hst, hstate⟩ := Option.map_eq_some_iff.mp hrun
  have hreach := Reach.refl.run _ hst
  obtain ⟨s, rfl, -, hall⟩ := link_delivers hreach
  have hobs : ([[s.socket, s.sender.sendbuf.data], s.sender.sendQueue.map QueuedMsg.buf,
      s.sender.enqueued.map QueuedMsg.buf], s.closed)
      = ([[[], []], [], [[0, 0, 0, 1, 7], [0, 0, 0, 0]]], false) := Option.some.inj hstate
  simp only [Prod.mk.injEq, List.cons.injEq, and_true, List.map_eq_nil_iff] at hobs
  obtain ⟨⟨⟨hsocket, hsendbuf⟩, hqueue, henqueued⟩, hopen⟩ := hobs
  refine ⟨s, hreach, ?_⟩
  rw [← henqueued]
  exact ((hall hopen).2 hsocket hsendbuf hqueue).1

end Zevent.Znet

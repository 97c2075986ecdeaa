/-
# The disconnect notice (`net_io_cb`, `peer_kill`)

When a callback of a connection returns -1, `peer_kill` closes the connection and pushes one
`MSG_DISCONNECT` behind the messages that `peer_read_cb` has pushed.  `peer_read_cb` returns
at a read error before it looks at the buffer: frames that came in with the reads before the
error, in the same call, are never pushed (`reset_loses_frame`).

`frames_before_disconnect_iff` says when the notice comes behind every frame that has
arrived: exactly when no call that ends in a read error has completed a frame, and the buffer
fits in every call.
-/
import Mathlib.Tactic
import Zevent.Znet.Framing

namespace Zevent.Znet

/-! ## The event loop -/

/-- A message in the receive queue, `MSG_DATA` with its bytes or `MSG_DISCONNECT`. -/
inductive RecvMsg where
  | data (buf : List UInt8)
  | disconnect
  deriving DecidableEq, Repr

/-- A peer in the event loop: its connection, whether its `status` is `PEER_CONNECTED`, and
the messages it has pushed to the receive queue. -/
structure PeerConn where
  conn : Conn
  connected : Bool
  pushed : List RecvMsg
  deriving DecidableEq, Repr

/-- A peer as `peer_create_in` makes it, in a server without a `msg_func`. -/
def PeerConn.start : PeerConn := ⟨Conn.start false, true, []⟩

/-- What `net_io_cb` is called for: `EV_READ` with the results of `read`, or `EV_WRITE` with
whether `peer_write_cb` fails. -/
inductive IoEvent where
  | read (rs : List ReadResult)
  | write (failed : Bool)
  deriving DecidableEq, Repr

/-- The connection after `peer_read_cb`, with the messages that it pushed. -/
def PeerConn.receive (p : PeerConn) (c : Conn) : PeerConn :=
  { p with
    conn := c
    pushed := p.pushed ++ (c.delivered.drop p.conn.delivered.length).map .data }

/-- `peer_kill`, up to the release of the peer. -/
def peerKill (p : PeerConn) : PeerConn :=
  if p.connected then { p with connected := false, pushed := p.pushed ++ [.disconnect] } else p

/-- `net_io_cb`. -/
def netIoCb (alloc : Bool) (p : PeerConn) : IoEvent → Except Trap PeerConn
  | .read rs => do
      let (c, rv) ← peerReadCb alloc p.conn rs
      let p := p.receive c
      return if rv < 0 then peerKill p else p
  | .write failed => return if failed then peerKill p else p

/-- The event loop calls `net_io_cb` until `peer_kill` has taken the socket out of it. -/
def runPeer (alloc : Bool) : PeerConn → List IoEvent → Except Trap PeerConn
  | p, [] => .ok p
  | p, ev :: events => do
      let p ← netIoCb alloc p ev
      if p.connected then runPeer alloc p events else return p

/-! ## What is to be pushed -/

/-- A frame of any length that `off` can hold. -/
structure Packet where
  payload : List UInt8
  short : (frameBytes payload).length < 2 ^ 32 - 1

/-- A frame on the wire. -/
def Packet.bytes (f : Packet) : List UInt8 := frameBytes f.payload

/-- The number of frames that are complete when `n` bytes have arrived. -/
def completeCount : List Packet → ℕ → ℕ
  | [], _ => 0
  | f :: frames, n =>
      if f.bytes.length ≤ n then completeCount frames (n - f.bytes.length) + 1 else 0

/-- The queue is right when `n` bytes have arrived: the complete frames, in order, and behind
them one notice when the peer is disconnected. -/
def Noticed (frames : List Packet) (n : ℕ) (p : PeerConn) : Prop :=
  p.pushed = (frames.take (completeCount frames n)).map (fun f => .data f.bytes)
    ++ if p.connected then [] else [.disconnect]

/-- The bytes that an event brings. -/
def IoEvent.bytes : IoEvent → List UInt8
  | .read rs => bytesOf rs
  | .write _ => []

/-- The event ends the connection. -/
def IoEvent.Ends : IoEvent → Prop
  | .read rs => .eof ∈ rs ∨ .error ∈ rs
  | .write failed => failed = true

/-- The bytes that a sequence of events brings. -/
def eventBytes (events : List IoEvent) : List UInt8 := events.flatMap IoEvent.bytes

/-- The events of a connection on which a beginning of the frames arrives, cut in any way,
up to the event that ends it. -/
structure PeerEvents (frames : List Packet) (events : List IoEvent) : Prop where
  answers : ∀ rs, .read rs ∈ events → Answers rs
  endsLast : ∀ ev ∈ events.dropLast, ¬ ev.Ends
  bytes : eventBytes events <+: wire Packet.bytes frames

/-- Before each event, the buffer is such that the reads do not make it grow to `2 ^ 32`
bytes. -/
def EventFits (p : PeerConn) : IoEvent → Prop
  | .read rs => GrowsWithin p.conn.recvbuf.size p.conn.recvbuf.off (sizes rs)
  | .write _ => True

/-- The buffer fits in every event. -/
def EventsFit : PeerConn → List IoEvent → Prop
  | _, [] => True
  | p, ev :: events => EventFits p ev ∧ ∀ p', netIoCb true p ev = .ok p' → EventsFit p' events

/-- When `n` bytes had arrived before: a call that ends in a read error has not completed a
frame. -/
def KeepsFrames (frames : List Packet) (n : ℕ) : IoEvent → Prop
  | .read rs => .error ∈ rs →
      completeCount frames (n + (bytesOf rs).length) = completeCount frames n
  | .write _ => True

/-- No call that ends in a read error has completed a frame. -/
def AllKeepFrames (frames : List Packet) : ℕ → List IoEvent → Prop
  | _, [] => True
  | n, ev :: events =>
      KeepsFrames frames n ev ∧ AllKeepFrames frames (n + ev.bytes.length) events

/-! ## Complete frames -/

theorem completeCount_le (frames : List Packet) (n : ℕ) :
    completeCount frames n ≤ frames.length := by
  induction frames generalizing n with
  | nil => exact le_rfl
  | cons f frames ih =>
      have := ih (n - f.bytes.length)
      rw [completeCount, List.length_cons]
      split_ifs <;> omega

/-- Whole frames are counted, then what is behind them. -/
theorem completeCount_append (done rest : List Packet) (n : ℕ) :
    completeCount (done ++ rest) ((wire Packet.bytes done).length + n)
      = done.length + completeCount rest n := by
  induction done with
  | nil => simp [wire]
  | cons f done ih =>
      rw [wire_cons, List.length_append, List.cons_append, completeCount, if_pos (by omega),
        add_assoc, Nat.add_sub_cancel_left, ih, List.length_cons]
      omega

/-- A part of a frame counts nothing. -/
theorem completeCount_of_part {data : List UInt8} {rest : List Packet}
    (h : Part Packet.bytes data rest) : completeCount rest data.length = 0 := by
  cases rest with
  | nil => rfl
  | cons f rest => rw [completeCount, if_neg (by have := h.2 f rfl; omega)]

/-- The frames that have been handed out are those that are complete. -/
theorem Handed.delivered_eq {frames : List Packet} {read : List UInt8} {c : Conn}
    (h : Handed Packet.bytes frames read c) :
    c.delivered = (frames.take (completeCount frames read.length)).map Packet.bytes := by
  obtain ⟨done, rest, rfl, hdelivered, rfl, hpart⟩ := h
  rw [List.length_append, completeCount_append, completeCount_of_part hpart, add_zero,
    List.take_left, hdelivered]

/-! ## One event -/

/-- What a connected peer is after `read` bytes of the frames. -/
structure PeerOk (frames : List Packet) (read : List UInt8) (p : PeerConn) : Prop where
  valid : p.conn.recvbuf.Valid
  handed : Handed Packet.bytes frames read p.conn
  connected : p.connected = true
  pushed : p.pushed = p.conn.delivered.map .data

variable {frames : List Packet} {read : List UInt8} {p : PeerConn} {rs : List ReadResult}

/-- The messages of a connected peer. -/
theorem PeerOk.pushed_eq (h : PeerOk frames read p) :
    p.pushed = (frames.take (completeCount frames read.length)).map (fun f => .data f.bytes) := by
  rw [h.pushed, h.handed.delivered_eq, List.map_map]
  rfl

theorem PeerOk.noticed (h : PeerOk frames read p) : Noticed frames read.length p := by
  rw [Noticed, h.connected, h.pushed_eq, if_pos rfl, List.append_nil]

/-- The notice behind the messages of a connected peer. -/
theorem PeerOk.peerKill (h : PeerOk frames read p) :
    Noticed frames read.length (peerKill p) ∧ (Znet.peerKill p).connected = false := by
  rw [Znet.peerKill, if_pos h.connected]
  refine ⟨?_, rfl⟩
  rw [Noticed, ← h.pushed_eq]
  rfl

/-- The messages pushed are those handed out, before and after a call. -/
theorem PeerOk.receive (h : PeerOk frames read p) {read' : List UInt8} {c : Conn}
    (hvalid : c.recvbuf.Valid) (hhanded : Handed Packet.bytes frames read' c)
    (hmore : p.conn.delivered <+: c.delivered) : PeerOk frames read' (p.receive c) := by
  refine ⟨hvalid, hhanded, h.connected, ?_⟩
  obtain ⟨new, hnew⟩ := hmore
  show p.pushed ++ (c.delivered.drop p.conn.delivered.length).map .data = c.delivered.map .data
  rw [h.pushed, ← hnew, List.drop_left, List.map_append]

/-- More bytes complete more frames. -/
theorem completeCount_mono (frames : List Packet) {m n : ℕ} (h : m ≤ n) :
    completeCount frames m ≤ completeCount frames n := by
  induction frames generalizing m n with
  | nil => exact le_rfl
  | cons f frames ih =>
      rw [completeCount, completeCount]
      by_cases hm : f.bytes.length ≤ m
      · rw [if_pos hm, if_pos (hm.trans h)]
        exact Nat.succ_le_succ (ih (by omega))
      · rw [if_neg hm]
        exact Nat.zero_le _

/-- A call without a read error. -/
theorem netIoCb_read (h : PeerOk frames read p) (hrs : Answers rs) (herr : .error ∉ rs)
    (hbytes : read ++ bytesOf rs <+: wire Packet.bytes frames)
    (hfits : GrowsWithin p.conn.recvbuf.size p.conn.recvbuf.off (sizes rs)) :
    ∃ p', netIoCb true p (.read rs) = .ok p' ∧ Noticed frames (read ++ bytesOf rs).length p'
      ∧ (p'.connected = true → PeerOk frames (read ++ bytesOf rs) p')
      ∧ p'.conn.recvbuf.size ≤ p.conn.recvbuf.size + (bytesOf rs).length
      ∧ (p'.connected = false ↔ .eof ∈ rs) := by
  obtain ⟨c, rv, hcall, hvalid, hsize, hhanded, hneg⟩ :=
    peerReadCb_handed Packet.payload h.valid (fun f _ => f.short) h.handed hrs herr hbytes hfits
  have hmore : p.conn.delivered <+: c.delivered := by
    rw [h.handed.delivered_eq, Handed.delivered_eq hhanded]
    refine List.IsPrefix.map _ (List.take_prefix_take_left ?_)
    exact completeCount_mono frames (by rw [List.length_append]; omega)
  have hok := h.receive hvalid hhanded hmore
  rw [netIoCb, hcall]
  simp only [bind, Except.bind, pure, Except.pure]
  by_cases hrv : rv < 0
  · -- the end of the file: the buffer has been parsed, and the notice follows
    rw [if_pos hrv]
    obtain ⟨hnoticed, hdead⟩ := hok.peerKill
    refine ⟨_, rfl, hnoticed, fun hlive => ?_, ?_, ?_⟩
    · rw [hdead] at hlive
      cases hlive
    · rw [Znet.peerKill, if_pos hok.connected]
      exact hsize
    · rw [hdead, ← hneg]
      simp [hrv]
  · rw [if_neg hrv]
    refine ⟨_, rfl, hok.noticed, fun _ => hok, hsize, ?_⟩
    rw [hok.connected, ← hneg]
    simp [hrv]

/-- A call that ends in a read error pushes the notice and nothing else. -/
theorem netIoCb_error (h : PeerOk frames read p) (hrs : Answers rs) (herr : .error ∈ rs)
    (hfits : GrowsWithin p.conn.recvbuf.size p.conn.recvbuf.off (sizes rs)) :
    ∃ p', netIoCb true p (.read rs) = .ok p' ∧ p'.connected = false
      ∧ p'.pushed = (frames.take (completeCount frames read.length)).map (fun f => .data f.bytes)
        ++ [.disconnect] := by
  obtain ⟨iob, rv, hread, -⟩ := readLoop_ok h.valid hrs hfits
  obtain rfl : rv = .error := (readLoop_ends hrs hread (Or.inr rfl)).mpr herr
  have hcall : peerReadCb true p.conn rs = .ok ({ p.conn with recvbuf := iob }, -1) := by
    rw [peerReadCb, hread]
    rfl
  rw [netIoCb, hcall]
  refine ⟨_, rfl, ?_, ?_⟩
  · simp [Znet.peerKill, PeerConn.receive, h.connected]
  · simp [Znet.peerKill, PeerConn.receive, h.connected, h.pushed_eq]

variable {ev : IoEvent} {events : List IoEvent}

/-- **One event that keeps the frames.** -/
theorem netIoCb_ok (h : PeerOk frames read p) (hev : ∀ rs, ev = .read rs → Answers rs)
    (hbytes : read ++ ev.bytes <+: wire Packet.bytes frames) (hfits : EventFits p ev)
    (hkeeps : KeepsFrames frames read.length ev) :
    ∃ p', netIoCb true p ev = .ok p' ∧ Noticed frames (read ++ ev.bytes).length p'
      ∧ (p'.connected = true → PeerOk frames (read ++ ev.bytes) p'
        ∧ p'.conn.recvbuf.size ≤ p.conn.recvbuf.size + ev.bytes.length)
      ∧ (p'.connected = false ↔ ev.Ends) := by
  cases ev with
  | read rs =>
      have hrs := hev rs rfl
      by_cases herr : .error ∈ rs
      · obtain ⟨p', hrun, hdead, hpushed⟩ := netIoCb_error h hrs herr hfits
        refine ⟨p', hrun, ?_, fun hlive => ?_, ?_⟩
        · rw [Noticed, hdead, hpushed, List.length_append, IoEvent.bytes, hkeeps herr]
          rfl
        · rw [hdead] at hlive
          cases hlive
        · exact ⟨fun _ => Or.inr herr, fun _ => hdead⟩
      · obtain ⟨p', hrun, hnoticed, hlive, hsize, hdead⟩ := netIoCb_read h hrs herr hbytes hfits
        refine ⟨p', hrun, hnoticed, fun hc => ⟨hlive hc, hsize⟩, hdead.trans ?_⟩
        exact ⟨Or.inl, fun hends => hends.resolve_right herr⟩
  | write failed =>
      rw [IoEvent.bytes, List.append_nil]
      cases failed with
      | true =>
          obtain ⟨hnoticed, hdead⟩ := h.peerKill
          refine ⟨_, rfl, hnoticed, fun hlive => ?_, ?_⟩
          · exact absurd hlive (by simp [hdead])
          · exact ⟨fun _ => rfl, fun _ => hdead⟩
      | false =>
          refine ⟨p, rfl, h.noticed, fun _ => ⟨h, Nat.le_add_right _ _⟩, ?_⟩
          rw [h.connected]
          simp [IoEvent.Ends]

/-- An event that runs out of the block, or that loses a frame. -/
theorem netIoCb_fails (h : PeerOk frames read p) (hev : ∀ rs, ev = .read rs → Answers rs)
    (hnot : ¬ (EventFits p ev ∧ KeepsFrames frames read.length ev)) :
    ¬ ∃ p', netIoCb true p ev = .ok p' ∧ Noticed frames (read ++ ev.bytes).length p' := by
  rintro ⟨p', hrun, hnoticed⟩
  cases ev with
  | read rs =>
      have hrs := hev rs rfl
      by_cases hfits : GrowsWithin p.conn.recvbuf.size p.conn.recvbuf.off (sizes rs)
      · refine hnot ⟨hfits, fun herr => ?_⟩
        obtain ⟨p₁, hrun₁, hdead, hpushed⟩ := netIoCb_error h hrs herr hfits
        rw [hrun₁] at hrun
        cases hrun
        rw [Noticed, hdead, hpushed, List.length_append] at hnoticed
        -- both queues end in the notice, so they hold as many frames
        have hlength := congrArg List.length hnoticed
        simp only [List.length_append, List.length_map, List.length_take, Bool.false_eq_true,
          if_false] at hlength
        have hbefore := completeCount_le frames read.length
        have hafter := completeCount_le frames (read.length + (bytesOf rs).length)
        rw [IoEvent.bytes] at hlength
        omega
      · rw [netIoCb, peerReadCb_trap h.valid hrs hfits] at hrun
        cases hrun
  | write failed => exact hnot ⟨trivial, trivial⟩

/-! ## Runs -/

/-- One event, then the others while the peer is connected. -/
theorem runPeer_cons {alloc : Bool} {p' : PeerConn} (h : netIoCb alloc p ev = .ok p') :
    runPeer alloc p (ev :: events)
      = if p'.connected then runPeer alloc p' events else .ok p' := by
  rw [runPeer, h]
  rfl

/-- The queue is right after every beginning of the events, and the peer is disconnected
exactly when one of them ended the connection. -/
def RightAlong (frames : List Packet) (read : List UInt8) (p : PeerConn)
    (events : List IoEvent) : Prop :=
  ∀ done, done <+: events → ∃ p', runPeer true p done = .ok p'
    ∧ Noticed frames (read ++ eventBytes done).length p'
    ∧ (p'.connected = false ↔ ∃ ev ∈ done, ev.Ends)

/-- No events. -/
theorem PeerOk.rightAlong_nil (h : PeerOk frames read p) :
    ∃ p', runPeer true p [] = .ok p' ∧ Noticed frames (read ++ eventBytes []).length p'
      ∧ (p'.connected = false ↔ ∃ ev ∈ ([] : List IoEvent), ev.Ends) := by
  refine ⟨p, rfl, ?_, ?_⟩
  · simpa [eventBytes] using h.noticed
  · simp [h.connected]

/-- After an event that keeps the frames and the connection, what follows decides. -/
theorem rightAlong_cons_live {p' : PeerConn} (h : PeerOk frames read p)
    (hrun : netIoCb true p ev = .ok p') (hlive : p'.connected = true) (hends : ¬ ev.Ends) :
    RightAlong frames read p (ev :: events)
      ↔ RightAlong frames (read ++ ev.bytes) p' events := by
  have hcons : ∀ done, eventBytes (ev :: done) = ev.bytes ++ eventBytes done :=
    fun _ => List.flatMap_cons
  have hstep : ∀ done, runPeer true p (ev :: done) = runPeer true p' done := by
    intro done
    rw [runPeer_cons hrun, if_pos hlive]
  have hdead : ∀ done : List IoEvent,
      (∃ ev' ∈ ev :: done, ev'.Ends) ↔ ∃ ev' ∈ done, ev'.Ends := by
    intro done
    simp [hends]
  constructor
  · intro hall done hdone
    obtain ⟨p₁, hrun₁, hnoticed, hiff⟩ := hall (ev :: done) ((List.prefix_cons_inj ev).mpr hdone)
    rw [hstep] at hrun₁
    rw [hcons, ← List.append_assoc] at hnoticed
    exact ⟨p₁, hrun₁, hnoticed, hiff.trans (hdead done)⟩
  · intro hall done hdone
    cases done with
    | nil => exact h.rightAlong_nil
    | cons ev' done =>
        obtain ⟨rfl, hrest⟩ := List.cons_prefix_cons.mp hdone
        obtain ⟨p₁, hrun₁, hnoticed, hiff⟩ := hall done hrest
        rw [hstep, hcons, ← List.append_assoc]
        exact ⟨p₁, hrun₁, hnoticed, hiff.trans (hdead done).symm⟩

/-- **Every event, from a peer that is right for what was read before.** -/
theorem rightAlong_iff (h : PeerOk frames read p) (hanswers : ∀ rs, .read rs ∈ events → Answers rs)
    (hlast : ∀ ev ∈ events.dropLast, ¬ ev.Ends)
    (hbytes : read ++ eventBytes events <+: wire Packet.bytes frames) :
    RightAlong frames read p events
      ↔ EventsFit p events ∧ AllKeepFrames frames read.length events := by
  -- induction on the events; each side of one event gives that side of the next
  induction events generalizing p read with
  | nil =>
      refine ⟨fun _ => ⟨trivial, trivial⟩, fun _ done hdone => ?_⟩
      rw [List.prefix_nil.mp hdone]
      exact h.rightAlong_nil
  | cons ev events ih =>
      have hev : ∀ rs, ev = .read rs → Answers rs := by
        rintro rs rfl
        exact hanswers rs List.mem_cons_self
      rw [eventBytes, List.flatMap_cons, ← eventBytes, ← List.append_assoc] at hbytes
      by_cases hgood : EventFits p ev ∧ KeepsFrames frames read.length ev
      · obtain ⟨p', hrun, hnoticed, hlive, hdead⟩ :=
          netIoCb_ok h hev ((List.prefix_append _ _).trans hbytes) hgood.1 hgood.2
        have hsplit : EventsFit p (ev :: events) ∧ AllKeepFrames frames read.length (ev :: events)
            ↔ EventsFit p' events ∧ AllKeepFrames frames (read ++ ev.bytes).length events := by
          rw [EventsFit, AllKeepFrames, hrun, List.length_append]
          constructor
          · rintro ⟨⟨-, hfits⟩, -, hkeep⟩
            exact ⟨hfits p' rfl, hkeep⟩
          · rintro ⟨hfits, hkeep⟩
            refine ⟨⟨hgood.1, fun p₁ hp₁ => ?_⟩, hgood.2, hkeep⟩
            rw [← Except.ok.inj hp₁]
            exact hfits
        rw [hsplit]
        by_cases hconn : p'.connected = true
        · have hends : ¬ ev.Ends := fun he => by
            rw [hdead.mpr he] at hconn
            cases hconn
          rw [rightAlong_cons_live h hrun hconn hends]
          exact ih (hlive hconn).1 (fun rs hrs => hanswers rs (List.mem_cons_of_mem _ hrs))
            (fun e he => hlast e (mem_dropLast_cons he)) hbytes
        · -- the connection has ended, and then this is the last event
          have hends : ev.Ends := hdead.mp (Bool.eq_false_iff.mpr hconn)
          obtain rfl : events = [] := by
            by_contra hcons
            exact hlast ev (mem_dropLast_cons_self hcons) hends
          refine ⟨fun _ => ⟨trivial, trivial⟩, fun _ done hdone => ?_⟩
          cases done with
          | nil => exact h.rightAlong_nil
          | cons ev' done =>
              obtain ⟨rfl, hrest⟩ := List.cons_prefix_cons.mp hdone
              rw [List.prefix_nil.mp hrest, runPeer_cons hrun, if_neg hconn]
              refine ⟨p', rfl, by simpa [eventBytes] using hnoticed, ?_⟩
              simp [hdead]
      · refine ⟨fun hall => ?_, fun hc => absurd ⟨hc.1.1, hc.2.1⟩ hgood⟩
        obtain ⟨p', hrun, hnoticed, -⟩ := hall [ev] (by simp)
        refine absurd ⟨p', ?_, by simpa [eventBytes] using hnoticed⟩ (netIoCb_fails h hev hgood)
        cases hcall : netIoCb true p ev with
        | error t =>
            rw [runPeer, hcall] at hrun
            cases hrun
        | ok p₁ =>
            rw [runPeer_cons hcall] at hrun
            rw [← hrun]
            split_ifs <;> rfl

/-- The buffer fits in every event when the block and all that is read are smaller than
`2 ^ 32` bytes. -/
theorem eventsFit_of_length_lt (h : PeerOk frames read p)
    (hanswers : ∀ rs, .read rs ∈ events → Answers rs) (hlast : ∀ ev ∈ events.dropLast, ¬ ev.Ends)
    (hbytes : read ++ eventBytes events <+: wire Packet.bytes frames)
    (hkeeps : AllKeepFrames frames read.length events)
    (hsmall : p.conn.recvbuf.size + (eventBytes events).length < 2 ^ 32) : EventsFit p events := by
  induction events generalizing p read with
  | nil => trivial
  | cons ev events ih =>
      have hev : ∀ rs, ev = .read rs → Answers rs := by
        rintro rs rfl
        exact hanswers rs List.mem_cons_self
      rw [eventBytes, List.flatMap_cons, ← eventBytes] at hbytes hsmall
      rw [← List.append_assoc] at hbytes
      rw [List.length_append] at hsmall
      obtain ⟨hhere, hlater⟩ := hkeeps
      have hfits : EventFits p ev := by
        cases ev with
        | read rs =>
            rw [IoEvent.bytes] at hsmall
            exact growsWithin_of_sum_lt (by rw [sizes_sum]; omega)
        | write failed => trivial
      obtain ⟨p₁, hrun, -, hlive, hdead⟩ :=
        netIoCb_ok h hev ((List.prefix_append _ _).trans hbytes) hfits hhere
      refine ⟨hfits, fun p' hp' => ?_⟩
      rw [hrun] at hp'
      cases hp'
      by_cases hnil : events = []
      · rw [hnil]
        trivial
      · have hends : ¬ ev.Ends := hlast ev (mem_dropLast_cons_self hnil)
        obtain ⟨hok, hsize⟩ := hlive (Bool.eq_true_of_not_eq_false fun hd => hends (hdead.mp hd))
        rw [← List.length_append] at hlater
        exact ih hok (fun rs hrs => hanswers rs (List.mem_cons_of_mem _ hrs))
          (fun e he => hlast e (mem_dropLast_cons he)) hbytes hlater (by omega)

/-! ## Main results -/

/-- A new peer has read nothing. -/
theorem PeerConn.start_ok (frames : List Packet) : PeerOk frames [] PeerConn.start := by
  refine ⟨Conn.start_valid false, Conn.start_handed false fun f _ => ?_, rfl, rfl⟩
  rw [Packet.bytes, length_frameBytes, headerLen]
  omega

/-- **Every frame comes before the notice unless a read error hides it.**  For every sequence
of frames and of events of a connection on which they arrive: after every event the queue
holds the frames that are complete among the bytes read, in order, with one notice behind
them when the connection has ended and none before, if and only if the buffer fits in every
event and no call that ends in a read error has completed a frame. -/
theorem frames_before_disconnect_iff (frames : List Packet) (events : List IoEvent)
    (h : PeerEvents frames events) :
    (∀ done, done <+: events → ∃ p, runPeer true PeerConn.start done = .ok p
      ∧ Noticed frames (eventBytes done).length p
      ∧ (p.connected = false ↔ ∃ ev ∈ done, ev.Ends))
    ↔ EventsFit PeerConn.start events ∧ AllKeepFrames frames 0 events :=
  rightAlong_iff (PeerConn.start_ok frames) h.answers h.endsLast h.bytes

/-- A frame, part of a second one, a write, more of the second one and a read error: the first
frame is pushed, and then the notice. -/
theorem frames_before_disconnect_reset :
    ∃ p, runPeer true PeerConn.start [.read [.data [0, 0, 0, 1, 7, 0], .eagain], .write false,
        .read [.data [0, 0], .error]] = .ok p
      ∧ p.pushed = [.data [0, 0, 0, 1, 7], .disconnect] := by
  have hevents : PeerEvents [⟨[7], by decide⟩, ⟨[], by decide⟩]
      [.read [.data [0, 0, 0, 1, 7, 0], .eagain], .write false, .read [.data [0, 0], .error]] := by
    refine ⟨?_, ?_, ?_⟩
    · simp [Answers, bufSize]
    · simp [IoEvent.Ends]
    · decide
  have hkeeps : AllKeepFrames [⟨[7], by decide⟩, ⟨[], by decide⟩] 0
      [.read [.data [0, 0, 0, 1, 7, 0], .eagain], .write false, .read [.data [0, 0], .error]] := by
    refine ⟨?_, trivial, ?_, trivial⟩
    · intro herr
      simp at herr
    · intro _
      decide
  have hfits := eventsFit_of_length_lt (PeerConn.start_ok _) hevents.answers hevents.endsLast
    hevents.bytes hkeeps (by decide)
  obtain ⟨p, hrun, hnoticed, hdead⟩ :=
    (frames_before_disconnect_iff _ _ hevents).mpr ⟨hfits, hkeeps⟩ _ (List.prefix_refl _)
  refine ⟨p, hrun, ?_⟩
  rw [Noticed, hdead.mpr ⟨_, List.mem_cons_of_mem _ (List.mem_cons_of_mem _ List.mem_cons_self),
    by simp [IoEvent.Ends]⟩] at hnoticed
  rw [hnoticed]
  decide

/-- **A connection reset hides a frame.**  One call reads a whole frame and then finds the
connection reset: the queue holds the notice and no frame. -/
theorem reset_loses_frame :
    PeerEvents [⟨[7], by decide⟩] [.read [.data [0, 0, 0, 1, 7], .error]]
      ∧ ∃ p, runPeer true PeerConn.start [.read [.data [0, 0, 0, 1, 7], .error]] = .ok p
        ∧ p.pushed = [.disconnect]
        ∧ ¬ Noticed [⟨[7], by decide⟩]
          (eventBytes [.read [.data [0, 0, 0, 1, 7], .error]]).length p := by
  refine ⟨⟨?_, ?_, ?_⟩, ?_⟩
  · simp [Answers, bufSize]
  · simp
  · decide
  · have hrun : (runPeer true PeerConn.start [.read [.data [0, 0, 0, 1, 7], .error]]).map
        (fun p => (p.pushed, p.connected)) = .ok ([.disconnect], false) := by
      decide +kernel
    cases hp : runPeer true PeerConn.start [.read [.data [0, 0, 0, 1, 7], .error]] with
    | error t =>
        rw [hp] at hrun
        cases hrun
    | ok p =>
        rw [hp] at hrun
        obtain ⟨hpushed, hdead⟩ := Prod.mk.inj (Except.ok.inj hrun)
        refine ⟨p, rfl, hpushed, ?_⟩
        rw [Noticed, hpushed, hdead]
        decide

end Zevent.Znet

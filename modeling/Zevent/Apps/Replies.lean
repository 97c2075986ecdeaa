/-
# Replies of the rtservice server (`rtinfoserver/src/rtserver.c`)

`zevent_process_connection` is called each time the poll set reports a connection.  When there
is something to read it receives one request, lets `dispose` answer it and puts the reply at
the end of the brigade `bbout`; otherwise it walks through `bbout` and sends bucket after
bucket.  A bucket that went out is deleted, one that went out in part is cut and its front
part deleted, and after anything but a complete send the walk ends.  The connection is then
polled for output if the walk did not reach the end of the brigade.

After a complete send the loop goes on to the next bucket by the link of the one that it has just
destroyed.  `replies_sent_in_order` says that nothing is lost, doubled or moved when these links
can still be read: after any series of such calls, whatever the sends return, the bytes sent and
the bytes that are still in `bbout` are together the replies so far, and as long as there are any
of the latter the connection is polled for output.  `reply_left_behind` is a run in which such a
link is gone.

The brigades of APR are the parameter `A`, with the laws of `Brigades`.
-/
import Zevent.Apps.Rtserver
import Zevent.Lib.Brigade

namespace Zevent.Apps.Replies

/-! ## The connection -/

/-- `reqevents`. -/
structure PollEvents where
  pollin : Bool
  pollout : Bool
  deriving DecidableEq

/-- A connection (`conn_state_t`), with what the peer was sent and the replies so far. -/
structure Conn (B : Type) where
  sock : Socket
  bbout : B
  reqevents : PollEvents
  sent : List UInt8
  replies : List (List UInt8)

/-- What `apr_socket_send` returns: success with the number of bytes sent, which is at most
what it was given, or an error, with nothing sent. -/
inductive SendResult
  | success (n : ℕ)
  | error

/-- A call of `zevent_process_connection`. -/
inductive Event
  /-- With `APR_POLLIN` in `rtnevents`: these bytes have arrived in addition, a receive or the
  allocation fails or not, and `dispose` turns the request into this reply. -/
  | readable (arrived : List UInt8) (fails : Bool) (dispose : List UInt8 → List UInt8)
  /-- Without: the results of the sends of this call. -/
  | writable (results : ℕ → SendResult)

section Server

variable {B K : Type} (A : Brigades B K UInt8)

/-- The loop over the buckets from the cursor on: `bbout`, the cursor at the end and the bytes
sent; `none` if `fuel` turns do not suffice.  The sends so far are `i`. -/
def sendLoop (results : ℕ → SendResult) :
    ℕ → ℕ → B → Option K → List UInt8 → Option (B × Option K × List UInt8)
  | 0, _, _, _, _ => none
  | _ + 1, _, bbout, none, sent => some (bbout, none, sent)
  | fuel + 1, i, bbout, some b, sent =>
      let buf := A.read bbout b
      match results i with
      | .error => some (bbout, some b, sent)
      | .success n =>
          let len := min n buf.length
          let sent := sent ++ buf.take len
          if buf.length ≤ len then
            -- `APR_BUCKET_NEXT` of the loop reads the link of the bucket that was destroyed
            let bbout := A.delete bbout b
            sendLoop results fuel (i + 1) bbout (A.next bbout b) sent
          else
            let bbout := A.split bbout b len
            let bucket := A.next bbout b
            some (A.delete bbout b, bucket, sent)

/-- `zevent_process_connection`: the connection after the call and the result. -/
def zeventProcessConnection (deliver : ℕ → ℕ+) (c : Conn B) : Event → Option (Conn B × ℤ)
  | .readable arrived fails dispose =>
      let sock := { c.sock with stream := c.sock.stream ++ arrived }
      let c := { c with sock := sock, reqevents := ⟨true, false⟩ }
      if fails then some (c, -1)
      else
        match Apps.zeventProcessConnection deliver sock with
        | none => some (c, -1)
        | some (msg, sock) =>
            let reply := dispose msg
            some ({ c with
              sock := sock
              bbout := A.insertTail c.bbout reply
              reqevents := ⟨true, true⟩
              replies := c.replies ++ [reply] }, 0)
  | .writable results => do
      let (bbout, b, sent) ← sendLoop A results ((A.buckets c.bbout).length + 1) 0 c.bbout
        (A.first c.bbout) c.sent
      some ({ c with bbout := bbout, sent := sent, reqevents := ⟨true, b.isSome⟩ }, 0)

/-- A new connection. -/
def accepted : Conn B where
  sock := ⟨[], 0⟩
  bbout := A.create
  reqevents := ⟨true, false⟩
  sent := []
  replies := []

/-- The calls for a connection, with the last result: after -1 it is closed. -/
def serve (deliver : ℕ → ℕ+) (c : Conn B) : List Event → Option (Conn B × ℤ)
  | [] => some (c, 0)
  | e :: rest => do
      let (c', rv) ← zeventProcessConnection A deliver c e
      if rv < 0 then some (c', rv) else serve deliver c' rest

/-! ## Links of destroyed buckets -/

/-- A walk over these buckets finds its way: each bucket that a send takes whole still leads to the
one behind it when it has been destroyed. -/
def LinksKept (results : ℕ → SendResult) : ℕ → B → List (K × List UInt8) → Prop
  | _, _, [] => True
  | i, bbout, (b, buf) :: post =>
      match results i with
      | .error => True
      | .success n => buf.length ≤ n →
          A.next (A.delete bbout b) b = post.head?.map Prod.fst ∧
            LinksKept results (i + 1) (A.delete bbout b) post

/-- The condition on a call. -/
def Conn.LinksKept (c : Conn B) : Event → Prop
  | .readable .. => True
  | .writable results => Replies.LinksKept A results 0 c.bbout (A.buckets c.bbout)

/-- The condition on the calls for a connection, as long as it is not closed. -/
def ServeKept (deliver : ℕ → ℕ+) (c : Conn B) : List Event → Prop
  | [] => True
  | e :: rest => c.LinksKept A e ∧
      ∀ c' rv, zeventProcessConnection A deliver c e = some (c', rv) → 0 ≤ rv →
        ServeKept deliver c' rest

variable {A}

/-- Where destroyed buckets keep their links, every walk finds its way. -/
theorem linksKept_of_next_delete
    (hA : ∀ {b pre k data post}, A.buckets b = pre ++ (k, data) :: post →
      A.next (A.delete b k) k = post.head?.map Prod.fst)
    (results : ℕ → SendResult) (i : ℕ) (bbout : B) :
    LinksKept A results i bbout (A.buckets bbout) := by
  generalize hcells : A.buckets bbout = cells
  induction cells generalizing i bbout with
  | nil => trivial
  | cons c post ih =>
      rw [LinksKept]
      cases results i with
      | error => trivial
      | success n =>
          intro _
          exact ⟨hA (Brigades.nil_append hcells), ih (i + 1) _ (Brigades.delete_first hcells)⟩

theorem serveKept_of_next_delete
    (hA : ∀ {b pre k data post}, A.buckets b = pre ++ (k, data) :: post →
      A.next (A.delete b k) k = post.head?.map Prod.fst)
    (deliver : ℕ → ℕ+) (c : Conn B) (events : List Event) : ServeKept A deliver c events := by
  induction events generalizing c with
  | nil => trivial
  | cons e rest ih =>
      refine ⟨?_, fun c' _ _ _ => ih c'⟩
      cases e with
      | readable arrived fails dispose => trivial
      | writable results => exact linksKept_of_next_delete hA results 0 c.bbout

/-! ## The loop -/

/-- **What a walk does.**  From the first bucket on, it takes bytes off the front of the
brigade, sends these bytes, and ends at what is the first bucket then. -/
theorem sendLoop_spec (results : ℕ → SendResult) {fuel : ℕ} (i : ℕ) {bbout : B}
    (hkept : LinksKept A results i bbout (A.buckets bbout))
    (hfuel : (A.buckets bbout).length < fuel) (sent : List UInt8) :
    ∃ bbout' out, sendLoop A results fuel i bbout (A.first bbout) sent
        = some (bbout', A.first bbout', sent ++ out) ∧
      out ++ A.contents bbout' = A.contents bbout := by
  induction fuel generalizing i bbout sent with
  | zero => omega
  | succ fuel ih =>
      cases hb : A.buckets bbout with
      | nil =>
          have hfirst : A.first bbout = none := by rw [A.first_eq, hb]; rfl
          refine ⟨bbout, [], ?_, rfl⟩
          rw [hfirst, sendLoop, List.append_nil]
      | cons c post =>
          obtain ⟨b, buf⟩ := c
          have hfirst : A.first bbout = some b := by rw [A.first_eq, hb]; rfl
          rw [hb, LinksKept] at hkept
          rw [hfirst, sendLoop, Brigades.read_first hb]
          cases hresult : results i with
          | error => exact ⟨bbout, [], by rw [hfirst, List.append_nil], rfl⟩
          | success n =>
              rw [hresult] at hkept
              by_cases hall : buf.length ≤ min n buf.length
              · -- the bucket is destroyed and leads to the new first one
                have hpost := Brigades.delete_first hb
                obtain ⟨hnext, hkept⟩ := hkept (le_min_iff.mp hall).1
                rw [← hpost] at hkept
                have hnew : A.next (A.delete bbout b) b = A.first (A.delete bbout b) := by
                  rw [hnext, A.first_eq, hpost]
                obtain ⟨bbout', out, hloop, hout⟩ := ih (i + 1) hkept
                  (by rw [hpost]; rw [hb, List.length_cons] at hfuel; omega) (sent ++ buf)
                refine ⟨bbout', buf ++ out, ?_, ?_⟩
                · dsimp only
                  rw [if_pos hall, List.take_of_length_le hall, hnew, hloop, List.append_assoc]
                · rw [List.append_assoc, hout, Brigades.contents_of_first hb, Brigades.contents,
                    hpost]
              · -- the rest of the bucket is the new first one
                obtain ⟨k', hk', hnext⟩ := Brigades.split_first hb (min_le_right n buf.length)
                refine ⟨A.delete (A.split bbout b (min n buf.length)) b,
                  buf.take (min n buf.length), ?_, ?_⟩
                · dsimp only
                  rw [if_neg hall, hnext, A.first_eq, hk']
                  rfl
                · rw [Brigades.contents_of_first hk', Brigades.contents_of_first hb,
                    ← List.append_assoc, List.take_append_drop]

/-! ## Every call -/

/-- What was sent and what is in `bbout` are the replies, one after the other. -/
def Conn.InOrder (A : Brigades B K UInt8) (c : Conn B) : Prop :=
  c.sent ++ A.contents c.bbout = c.replies.flatten

/-- The connection is polled for output exactly if there is something to send. -/
def Conn.Polled (A : Brigades B K UInt8) (c : Conn B) : Prop :=
  c.reqevents.pollout = true ↔ A.buckets c.bbout ≠ []

theorem accepted_inOrder : (accepted A).InOrder A := by
  rw [Conn.InOrder, accepted, Brigades.contents_create]
  rfl

theorem accepted_polled : (accepted A).Polled A := by
  rw [Conn.Polled, accepted, A.buckets_create]
  exact iff_of_false Bool.false_ne_true (fun h => h rfl)

/-- A brigade has a first bucket unless it is empty. -/
theorem first_isSome_iff (b : B) : (A.first b).isSome = true ↔ A.buckets b ≠ [] := by
  rw [A.first_eq, Option.isSome_map]
  exact List.isSome_head?

/-- **Step lemma.** -/
theorem zeventProcessConnection_inOrder (deliver : ℕ → ℕ+) {c : Conn B} (e : Event)
    (hkept : c.LinksKept A e) (h : c.InOrder A) :
    ∃ c' rv, zeventProcessConnection A deliver c e = some (c', rv) ∧ c'.InOrder A ∧
      (rv < 0 ∨ c'.Polled A) := by
  cases e with
  | readable arrived fails dispose =>
      rw [zeventProcessConnection]
      dsimp only
      cases fails with
      | true => exact ⟨_, _, rfl, h, Or.inl (by decide)⟩
      | false =>
          cases Apps.zeventProcessConnection deliver
              { c.sock with stream := c.sock.stream ++ arrived } with
          | none => exact ⟨_, _, rfl, h, Or.inl (by decide)⟩
          | some res =>
              obtain ⟨msg, sock⟩ := res
              refine ⟨_, _, rfl, ?_, Or.inr ?_⟩
              · rw [Conn.InOrder] at h ⊢
                rw [Brigades.contents_insertTail, ← List.append_assoc, h, List.flatten_append,
                  List.flatten_singleton]
              · exact iff_of_true rfl (A.insertTail_ne_nil c.bbout (dispose msg))
  | writable results =>
      obtain ⟨bbout', out, hloop, hout⟩ := sendLoop_spec results 0 hkept
        (Nat.lt_succ_self (A.buckets c.bbout).length) c.sent
      rw [zeventProcessConnection, hloop]
      refine ⟨_, _, rfl, ?_, Or.inr (first_isSome_iff bbout')⟩
      rw [Conn.InOrder] at h ⊢
      rw [List.append_assoc, hout, h]

/-- **Run lemma.** -/
theorem serve_inOrder (deliver : ℕ → ℕ+) {c : Conn B} (events : List Event)
    (hkept : ServeKept A deliver c events) (h : c.InOrder A) (hpoll : c.Polled A) :
    ∃ c' rv, serve A deliver c events = some (c', rv) ∧ c'.InOrder A ∧
      (rv < 0 ∨ c'.Polled A) := by
  induction events generalizing c with
  | nil => exact ⟨c, 0, rfl, h, Or.inr hpoll⟩
  | cons e rest ih =>
      obtain ⟨hhere, hrest⟩ := hkept
      obtain ⟨c₁, rv, hstep, h₁, hpoll₁⟩ := zeventProcessConnection_inOrder deliver e hhere h
      rw [serve, hstep]
      by_cases hrv : rv < 0
      · exact ⟨c₁, rv, if_pos hrv, h₁, Or.inl hrv⟩
      · obtain ⟨c₂, rv₂, hserve, h₂⟩ := ih (hrest c₁ rv hstep (not_lt.mp hrv)) h₁
          (hpoll₁.resolve_left hrv)
        exact ⟨c₂, rv₂, (if_neg hrv).trans hserve, h₂⟩

/-- **Replies go out completely and in order, as long as destroyed buckets can be read.**  After
any series of calls for a connection (requests to read and chances to write in any order, every
send complete, partial or failed) in which every bucket that a send has taken whole still leads
to the one behind it when it has been destroyed, the bytes sent, followed by those in `bbout`, are
the replies so far one after the other; and when the last call returned 0 with something in
`bbout`, the connection is polled for output. -/
theorem replies_sent_in_order (A : Brigades B K UInt8) (deliver : ℕ → ℕ+)
    (events : List Event) (hkept : ServeKept A deliver (accepted A) events) :
    ∃ c rv, serve A deliver (accepted A) events = some (c, rv) ∧
      c.sent ++ A.contents c.bbout = c.replies.flatten ∧
      (rv = 0 → A.buckets c.bbout ≠ [] → c.reqevents.pollout = true) := by
  obtain ⟨c, rv, hserve, h, hpoll⟩ :=
    serve_inOrder deliver events hkept accepted_inOrder accepted_polled
  refine ⟨c, rv, hserve, h, fun hrv hne => ?_⟩
  rcases hpoll with hneg | hpoll
  · omega
  · exact hpoll.mpr hne

/-- Two requests, with the reply to the first one sent in part before the second one comes, where
destroyed buckets keep their links. -/
theorem replies_sent_in_order_two :
    ∃ c rv, serve (Brigades.linked id) (fun _ => 16) (accepted (Brigades.linked id))
        [.readable (requestStream [[7]]) false (fun _ => [1, 2, 3]),
          .writable (fun _ => .success 1),
          .readable (requestStream [[8]]) false (fun _ => [4, 5]),
          .writable (fun i => if i = 0 then .success 2 else .error)] = some (c, rv) ∧
      c.sent ++ (Brigades.linked id).contents c.bbout = c.replies.flatten ∧
      c.sent = [1, 2, 3] ∧ c.replies = [[1, 2, 3], [4, 5]] ∧ c.reqevents.pollout = true := by
  obtain ⟨c, rv, hserve, horder, -⟩ := replies_sent_in_order (Brigades.linked id) (fun _ => 16)
    [.readable (requestStream [[7]]) false (fun _ => [1, 2, 3]),
      .writable (fun _ => .success 1),
      .readable (requestStream [[8]]) false (fun _ => [4, 5]),
      .writable (fun i => if i = 0 then .success 2 else .error)]
    (serveKept_of_next_delete Brigades.Linked.next_delete _ _ _)
  have hend : (serve (Brigades.linked id) (fun _ => 16) (accepted (Brigades.linked id))
      [.readable (requestStream [[7]]) false (fun _ => [1, 2, 3]),
        .writable (fun _ => .success 1),
        .readable (requestStream [[8]]) false (fun _ => [4, 5]),
        .writable (fun i => if i = 0 then .success 2 else .error)]).map
      (fun res => (res.1.sent, res.1.replies, res.1.reqevents.pollout))
      = some ([1, 2, 3], [[1, 2, 3], [4, 5]], true) := by
    decide
  rw [hserve, Option.map_some, Option.some.injEq, Prod.mk.injEq, Prod.mk.injEq] at hend
  exact ⟨c, rv, hserve, horder, hend⟩

/-- **A reply is left behind.**  Two replies are in `bbout`, and the first is sent completely.
The memory of its bucket has another content when the loop reads the link in it, and the walk ends
there: the call returns 0, the second reply is in `bbout`, and nobody waits for a chance to send
it. -/
theorem reply_left_behind :
    ∃ c, serve (Brigades.linked fun _ => none) (fun _ => 16)
        (accepted (Brigades.linked fun _ => none))
        [.readable (requestStream [[7]]) false (fun _ => [1, 2, 3]),
          .readable (requestStream [[8]]) false (fun _ => [4, 5]),
          .writable (fun _ => .success 3)] = some (c, 0) ∧
      (Brigades.linked fun _ => none).contents c.bbout = [4, 5] ∧
      c.reqevents.pollout = false := by
  have hend : (serve (Brigades.linked fun _ => none) (fun _ => 16)
      (accepted (Brigades.linked fun _ => none))
      [.readable (requestStream [[7]]) false (fun _ => [1, 2, 3]),
        .readable (requestStream [[8]]) false (fun _ => [4, 5]),
        .writable (fun _ => .success 3)]).map
      (fun res => (res.2, (Brigades.linked fun _ => none).contents res.1.bbout,
        res.1.reqevents.pollout))
      = some (0, [4, 5], false) := by
    decide
  obtain ⟨⟨c, rv⟩, hserve, hobs⟩ := Option.map_eq_some_iff.mp hend
  simp only [Prod.mk.injEq] at hobs
  obtain ⟨rfl, hleft, hpoll⟩ := hobs
  exact ⟨c, hserve, hleft, hpoll⟩

end Server

end Zevent.Apps.Replies

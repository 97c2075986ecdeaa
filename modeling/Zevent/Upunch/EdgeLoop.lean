/-
# The loop of an edge (`upunch/p2p_punch.c`)

An edge asks its supernode to register it, again and again: `update_supernode_reg` sends a
REGISTER_SUPER with a new cookie when the lifetime of the last one is over, or earlier when no
answer has come, and `readFromIPSocket` takes an answer with that cookie and calls
`reg_callback`.  In between datagrams of any content arrive, holes are punched, and the lists
of peers are purged.

`edge_registers` says what holds of every order of these: no two requests are within two
seconds, whatever lifetimes the answers name, no request is credited twice, and a datagram
registers the edge only with the cookie of the last request.  The lists of peers are those of
a run of `Zevent.Upunch.Edge`.

`edge_init` clears the edge, and only `punching_hole` sets `puch_callback`: a REGISTER_ACK that
comes before the first hole makes `readFromIPSocket` call `NULL`, and nothing else breaks an edge.
-/
import Zevent.Upunch.EdgeReceive

namespace Zevent.Upunch

open Interleaving

/-! ## The loop -/

/-- `REGISTER_SUPER_INTERVAL_DFL`. -/
def registerSuperIntervalDfl : ℕ := 60

/-- What an edge sends and calls, in order; a REGISTER_SUPER with its cookie and its time. -/
inductive Output
  | registerSuper (now : ℕ) (cookie : Bytes 4) (d : PeerSent)
  | peer (d : PeerSent)
  | callback (c : Callback)

/-- The fields of `p2p_edge_t` that the loop works on, next to those of a datagram, and what
has been sent and called.  The flag is whether there is a `puch_callback`. -/
structure EdgeLoop where
  eee : P2pEdge
  puchCallback : Bool
  supernode : SockMem
  snIdx : ℕ
  snNum : ℕ
  lastRegisterReq : ℕ
  outputs : List Output

/-- What happens to an edge: a datagram is read, `update_supernode_reg` is called, with what
`rand` gives it for a cookie, the lists are purged, or a hole is punched. -/
inductive EdgeInput
  | datagram (senderSock : SockaddrIn) (udpBuf : List UInt8) (now : ℤ) (u : Uninit)
  | supernode (nowTime : ℕ) (cookie : Bytes 4)
  | purge (t₁ t₂ : ℤ)
  | punchingHole (port : UInt16) (addr : Bytes 4) (junk snode : SockMem) (now : ℤ)

namespace EdgeLoop

/-- An edge after `edge_init` and the settings of `start_punching_daemon`. -/
def start (community : Bytes 16) (supernode : SockMem) : EdgeLoop where
  eee :=
    { lists := Edge.start
      communityName := community
      snWait := false
      lastCookie := fun _ => 0
      lastSup := 0
      supAttempts := edgeSupAttempts
      registerLifetime := registerSuperIntervalDfl }
  puchCallback := false
  supernode := supernode
  snIdx := 0
  snNum := 1
  lastRegisterReq := 0
  outputs := []

/-- `send_register_super`. -/
def sendRegisterSuper (s : EdgeLoop) (cookie : Bytes 4) : PeerSent :=
  let cmn : Common := { ttl := defaultTtl, pc := 5, flags := 0, community := s.eee.communityName }
  let reg : RegisterSuper := { cookie, auth := Auth.zero }
  ⟨s.supernode, (encodeRegisterSuper [] cmn reg).1⟩

/-- `send_packet`. -/
def sendPacket (s : EdgeLoop) (dst : SockMem) : PeerSent :=
  let cmn : Common := { ttl := defaultTtl, pc := 3, flags := 0, community := s.eee.communityName }
  ⟨dst, (encodeCommon [] cmn).1⟩

/-- `update_supernode_reg` returns at once: it is too early. -/
def TooEarly (s : EdgeLoop) (nowTime : ℕ) : Prop :=
  ¬ (s.eee.snWait = true ∧ s.lastRegisterReq + s.eee.registerLifetime / 10 < nowTime)
    ∧ nowTime < s.lastRegisterReq + s.eee.registerLifetime

instance (s : EdgeLoop) (nowTime : ℕ) : Decidable (s.TooEarly nowTime) :=
  inferInstanceAs (Decidable (_ ∧ _))

/-- The attempts that are left, and the supernode they are for. -/
def nextAttempt (s : EdgeLoop) : ℕ × ℕ :=
  if s.eee.supAttempts = 0 then
    (edgeSupAttempts, if s.snNum ≤ s.snIdx + 1 then 0 else s.snIdx + 1)
  else (s.eee.supAttempts - 1, s.snIdx)

/-- `update_supernode_reg`. -/
def updateSupernodeReg (s : EdgeLoop) (nowTime : ℕ) (cookie : Bytes 4) : EdgeLoop :=
  if s.TooEarly nowTime then s
  else
    { s with
      eee := { s.eee with supAttempts := s.nextAttempt.1, lastCookie := cookie, snWait := true }
      snIdx := s.nextAttempt.2
      lastRegisterReq := nowTime
      outputs := s.outputs ++ [.registerSuper nowTime cookie (s.sendRegisterSuper cookie)] }

/-- `punching_hole`, with the address of the peer and that of the supernode. -/
def punchingHole (s : EdgeLoop) (dest snode : SockMem) (now : ℤ) : EdgeLoop :=
  { s with
    eee := (s.eee.trySendRegister 0 dest snode now).1
    puchCallback := true
    outputs := s.outputs
      ++ (s.sendPacket dest :: (s.eee.trySendRegister 0 dest snode now).2).map .peer }

/-- One input; `none` is a fault, such as the call of a `puch_callback` that is `NULL`. -/
def step (s : EdgeLoop) : EdgeInput → Option EdgeLoop
  | .datagram senderSock udpBuf now u =>
      match s.eee.readFromIPSocket senderSock udpBuf now u with
      | .error _ => none
      | .ok r =>
          if .puch ∈ r.callbacks ∧ s.puchCallback = false then none
          else some
            { s with
              eee := r.eee
              outputs := s.outputs ++ r.sent.map .peer ++ r.callbacks.map .callback }
  | .supernode nowTime cookie => some (s.updateSupernodeReg nowTime cookie)
  | .purge t₁ t₂ => some { s with eee.lists := s.eee.lists.round t₁ t₂ }
  | .punchingHole port addr junk snode now =>
      some (s.punchingHole (ipv4Sock port addr junk) snode now)

/-- Holes are punched to peers that are not known yet. -/
def PunchUnknown (s : EdgeLoop) : EdgeInput → Prop
  | .punchingHole port addr junk _ now =>
      s.eee.lists.PunchUnknown (.punchingHole port addr junk now)
  | _ => True

/-- The input is a REGISTER_ACK. -/
def Acked (s : EdgeLoop) : EdgeInput → Prop
  | .datagram _ udpBuf _ u => s.eee.AcksRegister udpBuf u
  | _ => False

/-! ## What has been sent and called -/

/-- The requests for a registration: the time and the cookie of each. -/
def asked (outputs : List Output) : List (ℕ × Bytes 4) :=
  outputs.filterMap fun o => match o with
    | .registerSuper now cookie _ => some (now, cookie)
    | _ => none

/-- The calls of `reg_callback`. -/
def answered (outputs : List Output) : ℕ :=
  outputs.countP fun o => match o with
    | .callback .reg => true
    | _ => false

@[simp] theorem asked_append (l l' : List Output) : asked (l ++ l') = asked l ++ asked l' :=
  List.filterMap_append

@[simp] theorem answered_append (l l' : List Output) :
    answered (l ++ l') = answered l + answered l' :=
  List.countP_append

theorem asked_peer (l : List PeerSent) : asked (l.map .peer) = [] := by
  rw [asked, List.filterMap_map]
  exact List.filterMap_eq_nil_iff.mpr fun _ _ => rfl

theorem answered_peer (l : List PeerSent) : answered (l.map .peer) = 0 := by
  rw [answered, List.countP_map]
  exact List.countP_eq_zero.mpr fun _ _ => Bool.false_ne_true

theorem asked_callback (l : List Callback) : asked (l.map .callback) = [] := by
  rw [asked, List.filterMap_map]
  exact List.filterMap_eq_nil_iff.mpr fun _ _ => rfl

theorem answered_callback {l : List Callback} (h : .reg ∉ l) : answered (l.map .callback) = 0 := by
  rw [answered, List.countP_map]
  refine List.countP_eq_zero.mpr fun c hc => ?_
  cases c with
  | reg => exact absurd hc h
  | puch => exact Bool.false_ne_true

/-- What holds between any two inputs: the settings are in their ranges, a request that is
waited for is the last one, no request is credited twice, and each one is more than two
seconds after the one before it. -/
structure Registered (s : EdgeLoop) : Prop where
  lifetime_ge : registerSuperIntervalMin ≤ s.eee.registerLifetime
  lifetime_le : s.eee.registerLifetime ≤ registerSuperIntervalMax
  supAttempts_le : s.eee.supAttempts ≤ edgeSupAttempts
  snIdx_lt : s.snIdx < s.snNum
  waiting : s.eee.snWait = true →
    (asked s.outputs).getLast? = some (s.lastRegisterReq, s.eee.lastCookie)
  last : ∀ a ∈ (asked s.outputs).getLast?, a.1 = s.lastRegisterReq
  credited : answered s.outputs + (if s.eee.snWait then 1 else 0) ≤ (asked s.outputs).length
  spaced : (asked s.outputs).IsChain fun a b => a.1 + 2 < b.1

/-! ## What every input keeps -/

section Step

variable {s s' : EdgeLoop}

/-- Nothing but peers and datagrams to peers changes. -/
theorem Registered.peers (h : s.Registered) {lists : Edge} {puchCallback : Bool}
    {outputs : List Output} (hasked : asked outputs = asked s.outputs)
    (hanswered : answered outputs = answered s.outputs) :
    ({ s with eee := { s.eee with lists }, puchCallback, outputs } : EdgeLoop).Registered := by
  refine ⟨h.lifetime_ge, h.lifetime_le, h.supAttempts_le, h.snIdx_lt, ?_, ?_, ?_, ?_⟩
  · rw [hasked]
    exact h.waiting
  · rw [hasked]
    exact h.last
  · rw [hasked, hanswered]
    exact h.credited
  · rw [hasked]
    exact h.spaced

/-- A new request is more than two seconds after the last one. -/
theorem Registered.updateSupernodeReg (h : s.Registered) (nowTime : ℕ) (cookie : Bytes 4) :
    (s.updateSupernodeReg nowTime cookie).Registered := by
  rw [EdgeLoop.updateSupernodeReg]
  split_ifs with hearly
  · exact h
  have hlate : s.lastRegisterReq + 2 < nowTime := by
    have hge := h.lifetime_ge
    rw [registerSuperIntervalMin] at hge
    rw [TooEarly, not_and_or, not_not] at hearly
    rcases hearly with ⟨-, hretry⟩ | hdue <;> omega
  have hasked : asked (s.outputs ++ [.registerSuper nowTime cookie (s.sendRegisterSuper cookie)])
      = asked s.outputs ++ [(nowTime, cookie)] := asked_append ..
  have hanswered : answered
      (s.outputs ++ [.registerSuper nowTime cookie (s.sendRegisterSuper cookie)])
      = answered s.outputs := answered_append ..
  refine ⟨h.lifetime_ge, h.lifetime_le, ?_, ?_, fun _ => ?_, fun a ha => ?_, ?_, ?_⟩
  · have hle := h.supAttempts_le
    dsimp only
    rw [nextAttempt]
    split_ifs
    · exact le_rfl
    · exact le_rfl
    · exact (Nat.sub_le _ _).trans hle
  · have hlt := h.snIdx_lt
    dsimp only
    rw [nextAttempt]
    split_ifs <;> dsimp only <;> omega
  · rw [hasked, List.getLast?_concat]
  · rw [hasked, List.getLast?_concat, Option.mem_some_iff] at ha
    rw [← ha]
  · have hcredited := h.credited
    dsimp only
    rw [hasked, hanswered, List.length_append, List.length_singleton, if_pos rfl]
    omega
  · rw [hasked]
    refine h.spaced.append (List.isChain_singleton _) fun a ha b hb => ?_
    rw [List.head?_cons, Option.mem_some_iff] at hb
    rw [h.last a ha, ← hb]
    exact hlate

/-- An answer credits the request that is waited for. -/
theorem Registered.answer (h : s.Registered) (hwait : s.eee.snWait = true) {now : ℤ}
    {lifetime : ℕ} :
    ({ s with
        eee := { s.eee with
          lastSup := now
          snWait := false
          supAttempts := edgeSupAttempts
          registerLifetime :=
            min (max lifetime registerSuperIntervalMin) registerSuperIntervalMax }
        outputs := s.outputs ++ ([] : List PeerSent).map .peer ++ [Callback.reg].map .callback } :
      EdgeLoop).Registered := by
  have hasked : asked (s.outputs ++ ([] : List PeerSent).map .peer
      ++ [Callback.reg].map .callback) = asked s.outputs := by
    rw [asked_append, asked_append, asked_peer, asked_callback, List.append_nil, List.append_nil]
  have hanswered : answered (s.outputs ++ ([] : List PeerSent).map .peer
      ++ [Callback.reg].map .callback) = answered s.outputs + 1 := by
    rw [answered_append, answered_append, answered_peer]
    rfl
  have hcredited := h.credited
  rw [if_pos hwait] at hcredited
  refine ⟨?_, min_le_right _ _, le_rfl, h.snIdx_lt, fun hfalse => (by cases hfalse), ?_, ?_, ?_⟩
  · exact le_min (le_max_right _ _) (by decide)
  · rw [hasked]
    exact h.last
  · rw [hasked, hanswered]
    exact hcredited
  · rw [hasked]
    exact h.spaced

/-- **Every input.** -/
theorem Registered.step (h : s.Registered) {input : EdgeInput} (hs : s.step input = some s') :
    s'.Registered := by
  cases input with
  | datagram senderSock udpBuf now u =>
      rw [EdgeLoop.step] at hs
      split at hs
      · cases hs
      · rename_i r hr
        split_ifs at hs
        obtain rfl := Option.some.inj hs
        rcases P2pEdge.readFromIPSocket_super hr with
          ⟨⟨lists, heee⟩, hreg⟩ | ⟨ra, ret, c, c', -, hwait, -, rfl⟩
        · rw [heee]
          apply h.peers
          · rw [asked_append, asked_append, asked_peer, asked_callback, List.append_nil,
              List.append_nil]
          · rw [answered_append, answered_append, answered_peer, answered_callback hreg]
            rfl
        · exact h.answer hwait
  | supernode nowTime cookie =>
      obtain rfl := Option.some.inj hs
      exact h.updateSupernodeReg nowTime cookie
  | purge t₁ t₂ =>
      obtain rfl := Option.some.inj hs
      exact h.peers rfl rfl
  | punchingHole port addr junk snode now =>
      obtain rfl := Option.some.inj hs
      rw [EdgeLoop.punchingHole, P2pEdge.trySendRegister_lists]
      apply h.peers
      · rw [asked_append, asked_peer, List.append_nil]
      · rw [answered_append, answered_peer]
        rfl

/-- **What breaks an edge**: a REGISTER_ACK before there is a `puch_callback`. -/
theorem step_eq_none_iff (s : EdgeLoop) (input : EdgeInput) :
    s.step input = none ↔ s.puchCallback = false ∧ s.Acked input := by
  cases input with
  | datagram senderSock udpBuf now u =>
      obtain ⟨r, hr⟩ := s.eee.readFromIPSocket_ok senderSock udpBuf now u
      rw [EdgeLoop.step, hr, Acked, ← P2pEdge.readFromIPSocket_puch hr]
      dsimp only
      by_cases hnull : .puch ∈ r.callbacks ∧ s.puchCallback = false
      · rw [if_pos hnull]
        exact iff_of_true rfl hnull.symm
      · rw [if_neg hnull]
        exact iff_of_false (Option.some_ne_none _) fun h => hnull h.symm
  | supernode nowTime cookie => exact iff_of_false (Option.some_ne_none _) fun h => h.2
  | purge t₁ t₂ => exact iff_of_false (Option.some_ne_none _) fun h => h.2
  | punchingHole port addr junk snode now =>
      exact iff_of_false (Option.some_ne_none _) fun h => h.2

/-- An input leaves the lists of peers alone or is an event for them, an allowed one if holes
are punched to unknown peers. -/
theorem lists_step {input : EdgeInput} (hs : s.step input = some s') :
    s'.eee.lists = s.eee.lists
      ∨ ∃ event, (s.PunchUnknown input → s.eee.lists.PunchUnknown event)
        ∧ s.eee.lists.step event = some s'.eee.lists := by
  cases input with
  | datagram senderSock udpBuf now u =>
      rw [EdgeLoop.step] at hs
      split at hs
      · cases hs
      · rename_i r hr
        split_ifs at hs
        obtain rfl := Option.some.inj hs
        rcases P2pEdge.readFromIPSocket_lists hr with hsame | ⟨event, hallowed, hevent⟩
        · exact .inl hsame
        · exact .inr ⟨event, fun _ => hallowed, hevent⟩
  | supernode nowTime cookie =>
      obtain rfl := Option.some.inj hs
      rw [EdgeLoop.updateSupernodeReg]
      split_ifs
      · exact .inl rfl
      · exact .inl rfl
  | purge t₁ t₂ =>
      obtain rfl := Option.some.inj hs
      exact .inr ⟨.round t₁ t₂, fun _ => trivial, rfl⟩
  | punchingHole port addr junk snode now =>
      obtain rfl := Option.some.inj hs
      rw [EdgeLoop.punchingHole, P2pEdge.trySendRegister_lists]
      exact .inr ⟨.punchingHole port addr junk now, fun h => h, rfl⟩

end Step

/-! ## Over every run -/

/-- A new edge satisfies the invariant. -/
theorem registered_start (community : Bytes 16) (supernode : SockMem) :
    (start community supernode).Registered where
  lifetime_ge := show registerSuperIntervalMin ≤ registerSuperIntervalDfl by decide
  lifetime_le := show registerSuperIntervalDfl ≤ registerSuperIntervalMax by decide
  supAttempts_le := le_rfl
  snIdx_lt := Nat.zero_lt_one
  waiting h := by cases h
  last a ha := by cases ha
  credited := le_rfl
  spaced := List.IsChain.nil

/-- An answer to a request with the cookie 7, 7, 7, 7, and no lifetime. -/
def sampleAnswer : List UInt8 :=
  (encodeRegisterSuperAck [] { ttl := 2, pc := 6, flags := 0, community := fun _ => 97 }
    { cookie := fun _ => 7, lifetime := 0, sock := { Sock.zero with family := afInet }, numSn := 0
      snBak := Sock.zero }).1

/-- A REGISTER_ACK of another edge. -/
def sampleRegisterAck : List UInt8 :=
  (encodeRegisterAck [] { ttl := 2, pc := 4, flags := 0, community := fun _ => 97 }
    { cookie := fun _ => 5, sock := Sock.zero }).1

end EdgeLoop

end Zevent.Upunch

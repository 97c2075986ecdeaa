/-
# Datagrams that were cut (`upunch/p2p_wire.c`, `sn.c`, `p2p_punch.c`)

A field that is not there any more makes its decoder return zero and leaves the variable as it
was, and none of the callers looks at what the decoders return; `decode_common` fails only
when the version is missing.  So a datagram that was cut is treated like a whole one, with
zeros, or what was in memory, in the place of what is missing.

`CutDatagram` is a proper prefix of an encoding, and `Rejects` says that a datagram changes no
edge or peer and makes nothing be sent, whatever the state it meets.
`truncated_rejected_iff` says which cut datagrams are rejected: those of which nothing is left,
and those whose type or time to live is still there and is one that is ignored anyway.
-/
import Zevent.Upunch.EdgeReceive
import Zevent.Upunch.Forward

namespace Zevent.Upunch

open Interleaving

/-! ## Cut datagrams -/

/-- The bodies that follow a header: the encoding of a message of its type, or nothing when
the type has no body. -/
inductive Encoding (common : Common) : List UInt8 → Prop
  | message (m : Message) (hm : m.Carried common) (hkind : kindOf common.pc = some m.kind) :
      Encoding common m.bytes
  | header (hkind : kindOf common.pc = none) : Encoding common []

/-- A proper prefix of the encoding of a message. -/
structure CutDatagram where
  common : Common
  body : List UInt8
  masked : common.Masked
  encoding : Encoding common body
  cut : ℕ
  proper : cut < (commonBytes common ++ body).length

/-- What arrives. -/
def CutDatagram.bytes (d : CutDatagram) : List UInt8 :=
  (commonBytes d.common ++ d.body).take d.cut

/-- The supernode changes no edge and sends nothing because of the datagram. -/
def Supernode.Rejects (udpBuf : List UInt8) : Prop :=
  ∀ sss, Reach Supernode.step Always Supernode.start sss →
    ∀ (sender : SockaddrIn) (now : ℤ) (u : Uninit) (sendOk : Bool),
      ∃ r, sss.processUdp sender udpBuf now u sendOk = .ok r ∧ r.sss.edges = sss.edges
        ∧ r.sent = []

/-- An edge changes nothing and sends nothing because of the datagram. -/
def P2pEdge.Rejects (udpBuf : List UInt8) : Prop :=
  ∀ eee : P2pEdge, Reach Edge.step Always Edge.start eee.lists →
    ∀ (sender : SockaddrIn) (now : ℤ) (u : Uninit),
      ∃ r, eee.readFromIPSocket sender udpBuf now u = .ok r ∧ r.eee = eee ∧ r.sent = []

/-! ## Headers -/

/-- The record that `decode_common` leaves. -/
def headerOf (ttl : UInt8) (word : UInt16) (community : Bytes 16) : Common where
  ttl
  pc := (word &&& flagsTypeMask).toUInt32
  flags := word &&& flagsBitsMask
  community

/-- A header that is cut in front of the end of its flags: what was in memory stays. -/
theorem decodeCommon_noFlags {rest : List UInt8} (hlen : rest.length < 3) (out : Common) :
    ∃ r c, decodeCommon out (pktVersion :: rest) ⟨0, (pktVersion :: rest).length⟩
        = .ok (headerOf (rest.headD out.ttl) out.flags out.community, r, c) ∧ ¬ r < 0 := by
  have h := remains_start (pktVersion :: rest)
  have h₁ : Remains _ _ rest := h.advance (n := 1) (by simp)
  rw [decodeCommon, decodeUint8_cons h, ok_bind]
  dsimp only
  rw [if_neg (not_not.mpr rfl)]
  cases rest with
  | nil =>
      rw [decodeUint8_nil h₁, ok_bind]
      dsimp only
      rw [decodeUint16_short h₁ (by simp), ok_bind]
      dsimp only
      rw [decodeBuf_short h₁ (by simp)]
      exact ⟨_, _, rfl, by simp [Cursor.advance]⟩
  | cons b rest =>
      have h₂ : Remains _ _ rest := h₁.advance (n := 1) (by simp)
      rw [List.length_cons] at hlen
      rw [decodeUint8_cons h₁, ok_bind]
      dsimp only
      rw [decodeUint16_short h₂ (by omega), ok_bind]
      dsimp only
      rw [decodeBuf_short h₂ (by omega)]
      exact ⟨_, _, rfl, by simp [Cursor.advance]⟩

/-- A header with its flags, whatever there is behind them. -/
theorem decodeCommon_flags (ttl : UInt8) (word : UInt16) (rest : List UInt8) (out : Common) :
    ∃ community r c rest',
      decodeCommon out (pktVersion :: ttl :: (be16 word ++ rest))
          ⟨0, (pktVersion :: ttl :: (be16 word ++ rest)).length⟩
        = .ok (headerOf ttl word community, r, c) ∧ ¬ r < 0
      ∧ Remains (pktVersion :: ttl :: (be16 word ++ rest)) c rest' := by
  have h := remains_start (pktVersion :: ttl :: (be16 word ++ rest))
  have h₁ : Remains _ _ (ttl :: (be16 word ++ rest)) := h.advance (n := 1) (by simp)
  have h₂ : Remains _ _ (be16 word ++ rest) := h₁.advance (n := 1) (by simp)
  have h₃ : Remains _ (Cursor.advance _ 2) rest := h₂.advance_append
  obtain ⟨community, r, c, rest', hbuf, hrest', -⟩ :=
    decodeBuf_stays h₃ le_rfl le_rfl out.community
  refine ⟨community, (c.idx : ℤ) - (0 : ℕ), c, rest', ?_, by simp, hrest'⟩
  rw [decodeCommon, decodeUint8_cons h, ok_bind]
  dsimp only
  rw [if_neg (not_not.mpr rfl), decodeUint8_cons h₁, ok_bind]
  dsimp only
  rw [decodeUint16_be16 h₂, ok_bind]
  dsimp only
  rw [hbuf]
  rfl

namespace CutDatagram

variable (d : CutDatagram)

/-- A datagram is the version, the hops, the type and flags, the community and the body. -/
theorem whole_eq : commonBytes d.common ++ d.body
    = pktVersion :: d.common.ttl
      :: (be16 d.common.packed ++ (List.ofFn d.common.community ++ d.body)) := by
  rw [commonBytes, List.append_assoc, List.append_assoc]
  rfl

theorem bytes_zero (h : d.cut = 0) : d.bytes = [] := by
  rw [bytes, h, List.take_zero]

/-- Cut behind the version. -/
theorem bytes_one (h : d.cut = 1) : d.bytes = [pktVersion] := by
  rw [bytes, whole_eq, h]
  rfl

/-- Cut in front of the end of the flags. -/
theorem bytes_two (h₂ : 2 ≤ d.cut) (h₄ : d.cut < 4) :
    ∃ rest, d.bytes = pktVersion :: d.common.ttl :: rest ∧ rest.length < 2 := by
  obtain ⟨n, hn⟩ := Nat.exists_eq_add_of_le h₂
  refine ⟨(be16 d.common.packed ++ (List.ofFn d.common.community ++ d.body)).take n, ?_, ?_⟩
  · rw [bytes, whole_eq, hn, Nat.add_comm]
    rfl
  · rw [List.length_take]
    omega

/-- Cut behind the flags. -/
theorem bytes_four (h : 4 ≤ d.cut) : ∃ rest, d.bytes
    = pktVersion :: d.common.ttl :: (be16 d.common.packed ++ rest) := by
  obtain ⟨n, hn⟩ := Nat.exists_eq_add_of_le h
  refine ⟨(List.ofFn d.common.community ++ d.body).take n, ?_⟩
  rw [bytes, whole_eq, hn, Nat.add_comm]
  rfl

end CutDatagram

/-! ## Rejected datagrams -/

/-- The empty datagram is rejected by supernode and edge. -/
theorem rejects_nil : Supernode.Rejects [] ∧ P2pEdge.Rejects [] :=
  ⟨fun sss _ _ _ _ _ => ⟨⟨-1, sss, []⟩, rfl, rfl, rfl⟩,
    fun eee _ _ _ _ => ⟨⟨eee, [], []⟩, rfl, rfl, rfl⟩⟩

/-- A datagram that is not to live any more is rejected by the supernode. -/
theorem supernode_rejects_of_ttl {udpBuf : List UInt8}
    (h : ∀ out, ∃ cmn r c, decodeCommon out udpBuf ⟨0, udpBuf.length⟩ = .ok (cmn, r, c)
      ∧ ¬ r < 0 ∧ cmn.ttl = 0) : Supernode.Rejects udpBuf := by
  intro sss _ sender now u sendOk
  obtain ⟨cmn, r, c, hcommon, hr, httl⟩ := h u.cmn
  refine ⟨⟨0, sss, []⟩, ?_, rfl, rfl⟩
  rw [Supernode.processUdp, hcommon, ok_bind]
  dsimp only
  rw [if_neg hr, if_pos (by rw [httl]; decide)]
  rfl

/-- A type that the supernode does nothing with. -/
theorem supernode_rejects_of_pc {udpBuf : List UInt8}
    (h : ∀ out, ∃ cmn r c, decodeCommon out udpBuf ⟨0, udpBuf.length⟩ = .ok (cmn, r, c)
      ∧ ¬ r < 0 ∧ cmn.pc ≠ 1 ∧ cmn.pc ≠ 5 ∧ cmn.pc ≠ 8) : Supernode.Rejects udpBuf := by
  intro sss _ sender now u sendOk
  obtain ⟨cmn, r, c, hcommon, hr, h₁, h₅, h₈⟩ := h u.cmn
  refine ⟨⟨0, sss, []⟩, ?_, rfl, rfl⟩
  rw [Supernode.processUdp, hcommon, ok_bind]
  dsimp only
  rw [if_neg hr, if_neg h₈, if_neg h₁, if_neg h₅]
  split <;> rfl

/-- A type that an edge does nothing with. -/
theorem edge_rejects_of_pc {udpBuf : List UInt8}
    (h : ∀ out, ∃ cmn r c, decodeCommon out udpBuf ⟨0, udpBuf.length⟩ = .ok (cmn, r, c)
      ∧ ¬ r < 0 ∧ cmn.pc ≠ 1 ∧ cmn.pc ≠ 4 ∧ cmn.pc ≠ 6) : P2pEdge.Rejects udpBuf := by
  intro eee _ sender now u
  obtain ⟨cmn, r, c, hcommon, hr, h₁, h₄, h₆⟩ := h u.cmn
  refine ⟨⟨eee, [], []⟩, ?_, rfl, rfl⟩
  rw [P2pEdge.readFromIPSocket]
  split_ifs
  · rfl
  rw [hcommon, ok_bind]
  dsimp only
  rw [if_neg hr, if_neg h₁, if_neg h₄, if_neg h₆]
  split <;> rfl

/-! ## Datagrams that are acted on -/

/-- An edge of any key can be registered. -/
theorem reach_edge (key : UInt16 × Bytes 4) :
    ∃ sss, Reach Supernode.step Always Supernode.start sss
      ∧ ∃ p, sss.edges = [p] ∧ p.sock.key = key ∧ p.sock.family = afInet ∧ p.lastSeen = 1000 := by
  obtain ⟨port, addr⟩ := key
  have hreg : ∃ r, Supernode.start.processUdp ⟨htons port, addr⟩ Supernode.registerSuperDatagram
      1000 Supernode.blankUninit true = .ok r
      ∧ r.sss.edges = [⟨⟨ipv4Sock (ntohs (htons port)) addr blankSock, 1000⟩,
        overwrite (fun _ => 0) (List.replicate 16 97)⟩] := ⟨_, rfl, rfl⟩
  obtain ⟨r, hr, hedges⟩ := hreg
  have hstep : Supernode.start.step (.datagram ⟨htons port, addr⟩ Supernode.registerSuperDatagram
      1000 Supernode.blankUninit true) = some r.sss := by
    rw [Supernode.step, hr]
    rfl
  refine ⟨r.sss, Reach.refl.tail trivial hstep, _, hedges, ?_, rfl, rfl⟩
  rw [v4_ipv4Sock, htons, ntohs_ntohs]

/-- What the variables hold when the header in memory is `out`. -/
def leftBehind (out : Common) : Uninit := { Supernode.blankUninit with cmn := out }

section ActedOn

variable {udpBuf : List UInt8} {out cmn : Common} {ret : ℤ} {c : Cursor}
  (hcommon : decodeCommon out udpBuf ⟨0, udpBuf.length⟩ = .ok (cmn, ret, c)) (hret : ¬ ret < 0)
include hcommon hret

/-- The first steps of `processUdp` on a datagram that is to live. -/
theorem processUdp_alive (httl : ¬ cmn.ttl < 1) (sss : Supernode) :
    sss.processUdp (Supernode.sampleSender 0x2020) udpBuf 2000 (leftBehind out) true
      = if cmn.pc = 8 then .ok ⟨0, sss.heartbeat (Supernode.sampleSender 0x2020) 2000, []⟩
        else if cmn.pc = 1 then sss.register (Supernode.sampleSender 0x2020) udpBuf 2000
          (leftBehind out) true { cmn with ttl := cmn.ttl - 1 } c
        else if cmn.pc = 5 then sss.registerSuper (Supernode.sampleSender 0x2020) udpBuf 2000
          (leftBehind out) { cmn with ttl := cmn.ttl - 1 } c
        else .ok ⟨0, sss, []⟩ := by
  have hcommon' : decodeCommon (leftBehind out).cmn udpBuf ⟨0, udpBuf.length⟩
      = .ok (cmn, ret, c) := hcommon
  rw [Supernode.processUdp, hcommon', ok_bind]
  dsimp only
  rw [if_neg hret, if_neg httl]
  rfl

/-- Whatever there is of a REGISTER_SUPER, it is answered. -/
theorem not_rejects_registerSuper (httl : ¬ cmn.ttl < 1) (hpc : cmn.pc = 5) :
    ¬ Supernode.Rejects udpBuf := by
  intro h
  obtain ⟨r, hr, -, hsent⟩ := h _ Reach.refl (Supernode.sampleSender 0x2020) 2000
    (leftBehind out) true
  rw [processUdp_alive hcommon hret httl, if_neg (by rw [hpc]; decide),
    if_neg (by rw [hpc]; decide), if_pos hpc, Supernode.registerSuper] at hr
  obtain ⟨⟨reg, ret', c'⟩, -, hr⟩ := Supernode.bind_eq_ok hr
  cases hr
  cases hsent

/-- Whatever there is of a REGISTER, it is forwarded when there is an edge at the address that
the decoder makes of it. -/
theorem not_rejects_register (httl : ¬ cmn.ttl < 1) (hpc : cmn.pc = 1) :
    ¬ Supernode.Rejects udpBuf := by
  intro h
  have hbranch := processUdp_alive hcommon hret httl
  simp only [hpc, if_neg (show ¬ (1 : UInt32) = 8 by decide), if_true] at hbranch
  have hdecoded : ∃ reg ret' c',
      decodeRegister (leftBehind out).flags udpBuf c = .ok (reg, ret', c') := by
    obtain ⟨r, hr, -⟩ := h _ Reach.refl (Supernode.sampleSender 0x2020) 2000
      (leftBehind out) true
    rw [hbranch, Supernode.register] at hr
    obtain ⟨⟨reg, ret', c'⟩, hreg, -⟩ := Supernode.bind_eq_ok hr
    exact ⟨reg, ret', c', hreg⟩
  obtain ⟨reg, ret', c', hreg⟩ := hdecoded
  obtain ⟨sss, hreach, p, hedges, hkey, hfamily, -⟩ := reach_edge reg.destSock.key
  obtain ⟨r, hr, -, hsent⟩ := h sss hreach (Supernode.sampleSender 0x2020) 2000
    (leftBehind out) true
  have hfind : Supernode.findPeerByAddr sss.edges reg.destSock.key = some p := by
    rw [hedges, Supernode.findPeerByAddr, List.find?_cons_of_pos (by simpa using hkey)]
  rw [hbranch, Supernode.register, hreg, ok_bind] at hr
  obtain ⟨recBuf, -, hr⟩ := Supernode.bind_eq_ok hr
  rw [← Except.ok.inj hr] at hsent
  have hforward : (({ sss with stats.lastFwd := 2000 } : Supernode).tryForward reg.destSock recBuf
      true).2 = [⟨⟨htons p.sock.port, p.sock.v4⟩, recBuf⟩] := by
    apply tryForward_found
    · exact hfind
    · exact hfamily
  exact absurd (hforward.symm.trans hsent) (List.cons_ne_nil _ _)

/-- Whatever there is of a HEARTBEAT, it is one. -/
theorem not_rejects_heartbeat (httl : ¬ cmn.ttl < 1) (hpc : cmn.pc = 8) :
    ¬ Supernode.Rejects udpBuf := by
  intro h
  obtain ⟨sss, hreach, p, hedges, hkey, -, hseen⟩ :=
    reach_edge (Supernode.sampleSender 0x2020).key
  obtain ⟨r, hr, hsame, -⟩ := h sss hreach (Supernode.sampleSender 0x2020) 2000
    (leftBehind out) true
  rw [processUdp_alive hcommon hret httl, if_pos hpc] at hr
  cases hr
  dsimp only [Supernode.heartbeat] at hsame
  rw [hedges, Supernode.modifyFound, if_pos hkey, List.cons.injEq] at hsame
  have htime := congrArg (fun q => q.lastSeen) hsame.1
  dsimp only at htime
  omega

/-- The socket that an edge makes of the sample sender. -/
def sampleSock : SockMem := ipv4Sock (ntohs 0x2020) sampleV4 blankSock

/-- An edge of the community `community` that waits for the answer with the cookie `cookie`. -/
def waitingEdge (lists : Edge) (community : Bytes 16) (cookie : Bytes 4) : P2pEdge where
  lists
  communityName := community
  snWait := true
  lastCookie := cookie
  lastSup := 0
  supAttempts := edgeSupAttempts
  registerLifetime := registerSuperIntervalMin

/-- The first steps of `readFromIPSocket` on a datagram of the community of the edge. -/
theorem readFromIPSocket_community (hne : udpBuf.length ≠ 0) {eee : P2pEdge}
    (hown : cmn.community = eee.communityName) :
    eee.readFromIPSocket (Supernode.sampleSender 0x2020) udpBuf 2000 (leftBehind out)
      = if cmn.pc = 1 then eee.register sampleSock udpBuf 2000 (leftBehind out) cmn c
        else if cmn.pc = 4 then eee.registerAck sampleSock udpBuf 2000 (leftBehind out) cmn c
        else if cmn.pc = 6 then eee.registerSuperAck udpBuf 2000 (leftBehind out) c
        else .ok ⟨eee, [], []⟩ := by
  have hcommon' : decodeCommon (leftBehind out).cmn udpBuf ⟨0, udpBuf.length⟩
      = .ok (cmn, ret, c) := hcommon
  rw [P2pEdge.readFromIPSocket, if_neg hne, hcommon', ok_bind]
  dsimp only
  rw [if_neg hret, if_pos hown]
  rfl

/-- Whatever there is of a REGISTER, an edge acknowledges it. -/
theorem not_edge_rejects_register (hne : udpBuf.length ≠ 0) (hpc : cmn.pc = 1) :
    ¬ P2pEdge.Rejects udpBuf := by
  intro h
  obtain ⟨r, hr, -, hsent⟩ := h (waitingEdge Edge.start cmn.community fun _ => 0) Reach.refl
    (Supernode.sampleSender 0x2020) 2000 (leftBehind out)
  rw [readFromIPSocket_community hcommon hret hne rfl, if_pos hpc, P2pEdge.register] at hr
  obtain ⟨⟨reg, ret', c'⟩, -, hr⟩ := Supernode.bind_eq_ok hr
  rw [← Except.ok.inj hr] at hsent
  exact List.append_ne_nil_of_right_ne_nil _ (List.cons_ne_nil _ _) hsent

/-- Whatever there is of a REGISTER_ACK, an edge that waits for the one of the sender takes
it. -/
theorem not_edge_rejects_registerAck (hne : udpBuf.length ≠ 0) (hpc : cmn.pc = 4) :
    ¬ P2pEdge.Rejects udpBuf := by
  intro h
  -- a hole was punched to the sender before
  have hpunch : Edge.start.step (.punchingHole (ntohs 0x2020) sampleV4 blankSock 1000)
      = some ⟨[], [⟨sampleSock, 1000⟩], 0, []⟩ := rfl
  obtain ⟨r, hr, hsame, -⟩ := h
    (waitingEdge ⟨[], [⟨sampleSock, 1000⟩], 0, []⟩ cmn.community fun _ => 0)
    (Reach.refl.tail trivial hpunch) (Supernode.sampleSender 0x2020) 2000 (leftBehind out)
  rw [readFromIPSocket_community hcommon hret hne rfl, if_neg (by rw [hpc]; decide), if_pos hpc,
    P2pEdge.registerAck] at hr
  obtain ⟨ra, -, hr⟩ := Supernode.bind_eq_ok hr
  rw [← Except.ok.inj hr] at hsame
  have hknown : [(⟨sampleSock, 2000⟩ : PeerInfo)] = [] :=
    congrArg (fun e : P2pEdge => e.lists.knownPeers) hsame
  exact List.cons_ne_nil _ _ hknown

/-- Whatever there is of a REGISTER_SUPER_ACK, an edge that waits for the cookie that the decoder
makes of it takes it. -/
theorem not_edge_rejects_registerSuperAck (hne : udpBuf.length ≠ 0) (hpc : cmn.pc = 6) :
    ¬ P2pEdge.Rejects udpBuf := by
  intro h
  have hwaits : ∀ cookie, (waitingEdge Edge.start cmn.community cookie).snWait = true :=
    fun _ => rfl
  have hread : ∀ cookie, ∃ r, (waitingEdge Edge.start cmn.community cookie).registerSuperAck
      udpBuf 2000 (leftBehind out) c = .ok r
      ∧ r.eee = waitingEdge Edge.start cmn.community cookie := by
    intro cookie
    obtain ⟨r, hr, hsame, -⟩ := h (waitingEdge Edge.start cmn.community cookie) Reach.refl
      (Supernode.sampleSender 0x2020) 2000 (leftBehind out)
    rw [readFromIPSocket_community hcommon hret hne rfl, if_neg (by rw [hpc]; decide),
      if_neg (by rw [hpc]; decide), if_pos hpc] at hr
    exact ⟨r, hr, hsame⟩
  obtain ⟨ra, ret', c', hra⟩ : ∃ ra ret' c',
      decodeRegisterSuperAck (leftBehind out).flags udpBuf c = .ok (ra, ret', c') := by
    obtain ⟨r, hr, -⟩ := hread fun _ => 0
    rw [P2pEdge.registerSuperAck, if_pos (hwaits _)] at hr
    obtain ⟨⟨ra, ret', c'⟩, hra, -⟩ := Supernode.bind_eq_ok hr
    exact ⟨ra, ret', c', hra⟩
  obtain ⟨r, hr, hsame⟩ := hread ra.cookie
  have hcookie : ra.cookie = (waitingEdge Edge.start cmn.community ra.cookie).lastCookie := rfl
  rw [P2pEdge.registerSuperAck, if_pos (hwaits _), hra, ok_bind] at hr
  dsimp only at hr
  rw [if_pos hcookie] at hr
  rw [← Except.ok.inj hr] at hsame
  have hwait : false = true := congrArg P2pEdge.snWait hsame
  cases hwait

end ActedOn

/-! ## Which cut datagrams are rejected -/

section Cut

variable (d : CutDatagram)

theorem ttl_lt_one {ttl : UInt8} : ttl < 1 ↔ ttl = 0 := by
  rw [UInt8.lt_iff_toNat_lt, ← UInt8.toNat_inj]
  exact Nat.lt_one_iff

theorem CutDatagram.headerOf_pc (community : Bytes 16) :
    (headerOf d.common.ttl d.common.packed community).pc = d.common.pc :=
  packed_pc d.masked

/-- The header of a datagram with its flags. -/
theorem CutDatagram.decodeCommon_four (h : 4 ≤ d.cut) (out : Common) :
    ∃ community r c, decodeCommon out d.bytes ⟨0, d.bytes.length⟩
      = .ok (headerOf d.common.ttl d.common.packed community, r, c) ∧ ¬ r < 0 := by
  obtain ⟨rest, hbytes⟩ := d.bytes_four h
  obtain ⟨community, r, c, -, hcommon, hr, -⟩ :=
    decodeCommon_flags d.common.ttl d.common.packed rest out
  rw [hbytes]
  exact ⟨community, r, c, hcommon, hr⟩

/-- The header of a datagram without its flags. -/
theorem CutDatagram.decodeCommon_one (h₁ : 1 ≤ d.cut) (h₄ : d.cut < 4) (out : Common) :
    ∃ r c, decodeCommon out d.bytes ⟨0, d.bytes.length⟩
      = .ok (headerOf (if d.cut = 1 then out.ttl else d.common.ttl) out.flags out.community, r, c)
        ∧ ¬ r < 0 := by
  by_cases h : d.cut = 1
  · rw [d.bytes_one h, if_pos h]
    exact decodeCommon_noFlags (by decide) out
  · obtain ⟨rest, hbytes, hlen⟩ := d.bytes_two (by omega) h₄
    rw [hbytes, if_neg h]
    exact decodeCommon_noFlags (by rw [List.length_cons]; omega) out

theorem CutDatagram.length_bytes : d.bytes.length = d.cut := by
  rw [bytes, List.length_take, Nat.min_eq_left d.proper.le]

/-- What of a cut datagram the supernode acts on. -/
theorem CutDatagram.not_supernode_rejects (h₁ : 1 ≤ d.cut) (httl : d.cut = 1 ∨ d.common.ttl ≠ 0)
    (hpc : d.cut < 4 ∨ d.common.pc = 1 ∨ d.common.pc = 5 ∨ d.common.pc = 8) :
    ¬ Supernode.Rejects d.bytes := by
  by_cases h₄ : 4 ≤ d.cut
  · obtain ⟨community, r, c, hcommon, hr⟩ := d.decodeCommon_four h₄ Supernode.blankUninit.cmn
    have hlives : ¬ d.common.ttl < 1 := by
      rcases httl with h | h
      · omega
      · rwa [ttl_lt_one]
    rcases hpc with h | h | h | h
    · omega
    · exact not_rejects_register hcommon hr hlives (by rw [d.headerOf_pc, h])
    · exact not_rejects_registerSuper hcommon hr hlives (by rw [d.headerOf_pc, h])
    · exact not_rejects_heartbeat hcommon hr hlives (by rw [d.headerOf_pc, h])
  · -- the type is what was in memory
    obtain ⟨r, c, hcommon, hr⟩ := d.decodeCommon_one h₁ (by omega) ⟨1, 0, 5, fun _ => 0⟩
    refine not_rejects_registerSuper hcommon hr ?_ (by rfl)
    dsimp only [headerOf]
    rw [ttl_lt_one]
    split_ifs with h
    · decide
    · exact httl.resolve_left h

/-- What of a cut datagram an edge acts on. -/
theorem CutDatagram.not_edge_rejects (h₁ : 1 ≤ d.cut)
    (hpc : d.cut < 4 ∨ d.common.pc = 1 ∨ d.common.pc = 4 ∨ d.common.pc = 6) :
    ¬ P2pEdge.Rejects d.bytes := by
  have hne : d.bytes.length ≠ 0 := by
    rw [d.length_bytes]
    omega
  by_cases h₄ : 4 ≤ d.cut
  · obtain ⟨community, r, c, hcommon, hr⟩ := d.decodeCommon_four h₄ Supernode.blankUninit.cmn
    rcases hpc with h | h | h | h
    · omega
    · exact not_edge_rejects_register hcommon hr hne (by rw [d.headerOf_pc, h])
    · exact not_edge_rejects_registerAck hcommon hr hne (by rw [d.headerOf_pc, h])
    · exact not_edge_rejects_registerSuperAck hcommon hr hne (by rw [d.headerOf_pc, h])
  · -- the type is what was in memory
    obtain ⟨r, c, hcommon, hr⟩ := d.decodeCommon_one h₁ (by omega) ⟨1, 0, 1, fun _ => 0⟩
    exact not_edge_rejects_register hcommon hr hne (by rfl)

/-- The supernode rejects what is not to live any more. -/
theorem CutDatagram.supernode_rejects_ttl (h₂ : 2 ≤ d.cut) (httl : d.common.ttl = 0) :
    Supernode.Rejects d.bytes := by
  apply supernode_rejects_of_ttl
  intro out
  by_cases h₄ : 4 ≤ d.cut
  · obtain ⟨community, r, c, hcommon, hr⟩ := d.decodeCommon_four h₄ out
    exact ⟨_, r, c, hcommon, hr, httl⟩
  · obtain ⟨r, c, hcommon, hr⟩ := d.decodeCommon_one (by omega) (by omega) out
    refine ⟨_, r, c, hcommon, hr, ?_⟩
    dsimp only [headerOf]
    rw [if_neg (by omega), httl]

/-- Which cut datagrams the supernode rejects. -/
theorem CutDatagram.supernode_rejects_iff :
    Supernode.Rejects d.bytes ↔ d.cut = 0 ∨ (2 ≤ d.cut ∧ d.common.ttl = 0)
      ∨ (4 ≤ d.cut ∧ d.common.pc ≠ 1 ∧ d.common.pc ≠ 5 ∧ d.common.pc ≠ 8) := by
  constructor
  · intro h
    by_contra hkept
    push Not at hkept
    obtain ⟨h₀, httl, hpc⟩ := hkept
    refine d.not_supernode_rejects (by omega) ?_ ?_ h
    · by_cases h₂ : 2 ≤ d.cut
      · exact .inr (httl h₂)
      · exact .inl (by omega)
    · by_cases h₄ : 4 ≤ d.cut
      · have := hpc h₄
        tauto
      · exact .inl (by omega)
  · rintro (h₀ | ⟨h₂, httl⟩ | ⟨h₄, h₁, h₅, h₈⟩)
    · rw [d.bytes_zero h₀]
      exact rejects_nil.1
    · exact d.supernode_rejects_ttl h₂ httl
    · apply supernode_rejects_of_pc
      intro out
      obtain ⟨community, r, c, hcommon, hr⟩ := d.decodeCommon_four h₄ out
      rw [← d.headerOf_pc community] at h₁ h₅ h₈
      exact ⟨_, r, c, hcommon, hr, h₁, h₅, h₈⟩

/-- Which cut datagrams an edge rejects. -/
theorem CutDatagram.edge_rejects_iff :
    P2pEdge.Rejects d.bytes ↔ d.cut = 0
      ∨ (4 ≤ d.cut ∧ d.common.pc ≠ 1 ∧ d.common.pc ≠ 4 ∧ d.common.pc ≠ 6) := by
  constructor
  · intro h
    by_contra hkept
    push Not at hkept
    obtain ⟨h₀, hpc⟩ := hkept
    refine d.not_edge_rejects (by omega) ?_ h
    by_cases h₄ : 4 ≤ d.cut
    · have := hpc h₄
      tauto
    · exact .inl (by omega)
  · rintro (h₀ | ⟨h₄, h₁, hack, h₆⟩)
    · rw [d.bytes_zero h₀]
      exact rejects_nil.2
    · apply edge_rejects_of_pc
      intro out
      obtain ⟨community, r, c, hcommon, hr⟩ := d.decodeCommon_four h₄ out
      rw [← d.headerOf_pc community] at h₁ hack h₆
      exact ⟨_, r, c, hcommon, hr, h₁, hack, h₆⟩

/-- **Cut datagrams are not rejected.**  The supernode rejects a proper prefix of an encoding
exactly when nothing is left of it, or its time to live is left and is over, or its type is left
and is none that the supernode takes; an edge exactly when nothing is left, or the type is left
and is none that an edge takes. -/
theorem truncated_rejected_iff :
    (Supernode.Rejects d.bytes ↔ d.cut = 0 ∨ (2 ≤ d.cut ∧ d.common.ttl = 0)
      ∨ (4 ≤ d.cut ∧ d.common.pc ≠ 1 ∧ d.common.pc ≠ 5 ∧ d.common.pc ≠ 8))
    ∧ (P2pEdge.Rejects d.bytes ↔ d.cut = 0
      ∨ (4 ≤ d.cut ∧ d.common.pc ≠ 1 ∧ d.common.pc ≠ 4 ∧ d.common.pc ≠ 6)) :=
  ⟨d.supernode_rejects_iff, d.edge_rejects_iff⟩

end Cut

/-- A REGISTER_SUPER of which only the header arrives. -/
def cutRegisterSuper : CutDatagram where
  common := ⟨2, 5, 0, overwrite (fun _ => 0) (List.replicate 16 97)⟩
  body := (Message.registerSuper ⟨fun _ => 1, Auth.zero⟩).bytes
  masked := ⟨by decide, by decide⟩
  encoding := .message _ rfl rfl
  cut := 20
  proper := by decide

/-- **A header alone registers an edge.**  The supernode registers the sender of a REGISTER_SUPER
without its cookie and its authentication, and answers. -/
theorem header_alone_registers :
    ∃ r, Supernode.start.processUdp (Supernode.sampleSender 0x2020) cutRegisterSuper.bytes 1000
        Supernode.blankUninit true = .ok r
      ∧ r.sss.edges = [Supernode.sampleEdge 0x2020] ∧ r.sent.length = 1
      ∧ ¬ Supernode.Rejects cutRegisterSuper.bytes := by
  have hbytes : cutRegisterSuper.bytes = [2, 2, 0, 5] ++ List.replicate 16 97 := by decide
  have hrun : ∃ r, Supernode.start.processUdp (Supernode.sampleSender 0x2020)
      cutRegisterSuper.bytes 1000 Supernode.blankUninit true = .ok r
      ∧ r.sss.edges = [Supernode.sampleEdge 0x2020] ∧ r.sent.length = 1 := by
    rw [hbytes]
    exact ⟨_, rfl, rfl, rfl⟩
  obtain ⟨r, hr, hedges, hsent⟩ := hrun
  refine ⟨r, hr, hedges, hsent, ?_⟩
  intro h
  obtain ⟨r', hr', hsame, -⟩ := h _ Reach.refl (Supernode.sampleSender 0x2020) 1000
    Supernode.blankUninit true
  rw [hr] at hr'
  rw [← Except.ok.inj hr', hedges] at hsame
  exact List.cons_ne_nil _ _ hsame

end Zevent.Upunch

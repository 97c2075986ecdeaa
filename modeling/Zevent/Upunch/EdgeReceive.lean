/-
# What an edge does with a datagram (`upunch/p2p_punch.c`)

`readFromIPSocket` is the whole of the function of that name: after the decoding it asks the
sender of a REGISTER to register as well and acknowledges, makes the sender of a REGISTER_ACK
operational, and takes the answer of the supernode that it waits for.  Next to what becomes of
the edge it returns the datagrams that are sent and the callbacks that are called.

`Zevent.Upunch.Edge` has what the functions do to the two lists of peers.  They are written
here with the datagrams, and `readFromIPSocket_lists` says that a datagram does to the lists
what an event there does.
-/
import Zevent.Upunch.Supernode

namespace Zevent.Upunch

/-! ## The edge -/

/-- `REGISTER_SUPER_INTERVAL_MIN`. -/
def registerSuperIntervalMin : ℕ := 20

/-- `REGISTER_SUPER_INTERVAL_MAX`. -/
def registerSuperIntervalMax : ℕ := 3600

/-- `P2P_EDGE_SUP_ATTEMPTS`. -/
def edgeSupAttempts : ℕ := 3

/-- The fields of `p2p_edge_t` that a datagram is about. -/
structure P2pEdge where
  lists : Edge
  communityName : Bytes 16
  snWait : Bool
  lastCookie : Bytes 4
  lastSup : ℤ
  supAttempts : ℕ
  registerLifetime : ℕ

/-- The callbacks of an edge. -/
inductive Callback
  | reg
  | puch
  deriving DecidableEq

/-- A datagram that is given to `sendto_sock`. -/
structure PeerSent where
  dest : SockMem
  bytes : List UInt8
  deriving DecidableEq

/-- What `readFromIPSocket` leaves. -/
structure Received where
  eee : P2pEdge
  sent : List PeerSent
  callbacks : List Callback

namespace P2pEdge

/-! ## What is sent -/

/-- The cookie of every REGISTER: `encode_uint32` of 123456789. -/
def registerCookie : Bytes 4 := ![0x07, 0x5b, 0xcd, 0x15]

/-- `send_register`. -/
def sendRegister (eee : P2pEdge) (flags : UInt16) (sn dst : SockMem) : PeerSent :=
  let cmn : Common := { ttl := defaultTtl, pc := 1, flags, community := eee.communityName }
  let reg : Register :=
    { cookie := registerCookie
      origSender := { Sock.zero with family := afInet }
      destSock := dst.toSock }
  ⟨sn, (encodeRegister [] cmn reg).1⟩

/-- `send_register_ack`. -/
def sendRegisterAck (eee : P2pEdge) (remotePeer : SockMem) (reg : Register) : PeerSent :=
  let cmn : Common := { ttl := defaultTtl, pc := 4, flags := 0, community := eee.communityName }
  let ack : RegisterAck := { cookie := reg.cookie, sock := Sock.zero }
  ⟨remotePeer, (encodeRegisterAck [] cmn ack).1⟩

/-- `try_send_register`. -/
def trySendRegister (eee : P2pEdge) (fromSupernode : UInt16) (dst sn : SockMem) (now : ℤ) :
    P2pEdge × List PeerSent :=
  match findPeerByAddr eee.lists.pendingPeers dst with
  | [] =>
      ({ eee with
          lists.pendingPeers := peerListAdd eee.lists.pendingPeers ⟨dst, now⟩ now },
        [eee.sendRegister fromSupernode sn dst])
  | _ :: _ => (eee, [])

/-- `update_peer_address`. -/
def updatePeerAddress (eee : P2pEdge) (fromSupernode : UInt16) (dst peer : SockMem) (now : ℤ) :
    P2pEdge × List PeerSent :=
  if isEmptyIpAddress peer.toSock then (eee, [])
  else
    let before := eee.lists.knownPeers.takeWhile fun p => p.sock ≠ dst
    match eee.lists.knownPeers.dropWhile fun p => p.sock ≠ dst with
    | [] => (eee, [])
    | scan :: rest =>
        if sockEqual scan.sock.toSock peer.toSock then
          ({ eee with lists.knownPeers := before ++ { scan with lastSeen := now } :: rest }, [])
        else if fromSupernode = 0 then
          trySendRegister { eee with lists.knownPeers := before ++ rest } fromSupernode dst peer now
        else (eee, [])

/-- `check_peer`. -/
def checkPeer (eee : P2pEdge) (fromSupernode : UInt16) (dst peer : SockMem) (now : ℤ) :
    P2pEdge × List PeerSent :=
  match findPeerByAddr eee.lists.knownPeers dst with
  | [] => eee.trySendRegister fromSupernode dst peer now
  | _ :: _ => eee.updatePeerAddress fromSupernode dst peer now

/-! ## `readFromIPSocket` -/

/-- A socket of a record that was cleared, its padding included. -/
def cleared (s : Sock) : SockMem := { s with pad := 0 }

/-- The branch of a REGISTER. -/
def register (eee : P2pEdge) (sender : SockMem) (udpBuf : List UInt8) (now : ℤ) (u : Uninit)
    (cmn : Common) (c : Cursor) : Except Fault Received := do
  let (reg, _, _) ← decodeRegister u.flags udpBuf c
  let viaSupernode := cmn.flags = flagsFromSupernode
  let origSender := if viaSupernode then cleared reg.origSender else sender
  let fromSupernode := if viaSupernode then 0 else cmn.flags &&& flagsFromSupernode
  let (eee, sent) := eee.checkPeer fromSupernode origSender origSender now
  return ⟨eee, sent ++ [eee.sendRegisterAck origSender reg], []⟩

/-- The branch of a REGISTER_ACK. -/
def registerAck (eee : P2pEdge) (sender : SockMem) (udpBuf : List UInt8) (now : ℤ)
    (u : Uninit) (cmn : Common) (c : Cursor) : Except Fault Received := do
  let _ ← decodeRegisterAck u.flags cmn udpBuf c
  return ⟨{ eee with lists := eee.lists.setPeerOperational sender now }, [], [.puch]⟩

/-- The branch of a REGISTER_SUPER_ACK. -/
def registerSuperAck (eee : P2pEdge) (udpBuf : List UInt8) (now : ℤ) (u : Uninit)
    (c : Cursor) : Except Fault Received :=
  if eee.snWait then do
    let (ra, _, _) ← decodeRegisterSuperAck u.flags udpBuf c
    if ra.cookie = eee.lastCookie then
      return ⟨{ eee with
        lastSup := now
        snWait := false
        supAttempts := edgeSupAttempts
        registerLifetime :=
          min (max ra.lifetime.toNat registerSuperIntervalMin) registerSuperIntervalMax },
        [], [.reg]⟩
    else return ⟨eee, [], []⟩
  else return ⟨eee, [], []⟩

/-- `readFromIPSocket`, with the datagram that `recvfrom` returns. -/
def readFromIPSocket (eee : P2pEdge) (senderSock : SockaddrIn) (udpBuf : List UInt8) (now : ℤ)
    (u : Uninit) : Except Fault Received :=
  if udpBuf.length = 0 then .ok ⟨eee, [], []⟩
  else do
    let sender := ipv4Sock (ntohs senderSock.sinPort) senderSock.sinAddr u.sock
    let (cmn, r, c) ← decodeCommon u.cmn udpBuf ⟨0, udpBuf.length⟩
    if r < 0 then return ⟨eee, [], []⟩
    else if cmn.community = eee.communityName then
      if cmn.pc = 1 then eee.register sender udpBuf now u cmn c
      else if cmn.pc = 4 then eee.registerAck sender udpBuf now u cmn c
      else if cmn.pc = 6 then eee.registerSuperAck udpBuf now u c
      else return ⟨eee, [], []⟩
    else return ⟨eee, [], []⟩

/-! ## The lists of peers -/

section Lists

variable (eee : P2pEdge) (fromSupernode : UInt16) (dst peer : SockMem) (now : ℤ)

/-- `try_send_register` does to the lists what it does in `Edge`. -/
theorem trySendRegister_lists :
    (eee.trySendRegister fromSupernode dst peer now).1
      = { eee with lists := eee.lists.trySendRegister dst now } := by
  rw [trySendRegister, Edge.trySendRegister]
  cases findPeerByAddr eee.lists.pendingPeers dst <;> rfl

theorem updatePeerAddress_lists :
    (eee.updatePeerAddress fromSupernode dst peer now).1
      = { eee with lists := eee.lists.updatePeerAddress fromSupernode dst peer now } := by
  rw [updatePeerAddress, Edge.updatePeerAddress]
  by_cases hempty : isEmptyIpAddress peer.toSock = true
  · rw [if_pos hempty, if_pos hempty]
  rw [if_neg hempty, if_neg hempty]
  cases eee.lists.knownPeers.dropWhile fun p => decide (p.sock ≠ dst) with
  | nil => rfl
  | cons scan rest =>
      dsimp only
      split_ifs
      · rfl
      · exact trySendRegister_lists _ fromSupernode dst peer now
      · rfl

theorem checkPeer_lists :
    (eee.checkPeer fromSupernode dst peer now).1
      = { eee with lists := eee.lists.checkPeer fromSupernode dst peer now } := by
  rw [checkPeer, Edge.checkPeer]
  cases findPeerByAddr eee.lists.knownPeers dst with
  | nil => exact trySendRegister_lists eee fromSupernode dst peer now
  | cons => exact updatePeerAddress_lists eee fromSupernode dst peer now

end Lists

/-- The datagram leaves the lists alone, or does to them what an allowed event does. -/
def ListsStep (lists lists' : Edge) : Prop :=
  lists' = lists ∨ ∃ event, lists.PunchUnknown event ∧ lists.step event = some lists'

/-- A REGISTER is one step of the lists. -/
theorem register_lists {eee : P2pEdge} {sender : SockMem} {udpBuf : List UInt8} {now : ℤ}
    {u : Uninit} {cmn : Common} {c : Cursor} {r : Received}
    (h : eee.register sender udpBuf now u cmn c = .ok r) : ListsStep eee.lists r.eee.lists := by
  rw [register] at h
  obtain ⟨⟨reg, ret, c'⟩, -, h⟩ := Supernode.bind_eq_ok h
  obtain rfl := Except.ok.inj h
  show ListsStep eee.lists (checkPeer eee _ _ _ now).1.lists
  rw [checkPeer_lists]
  exact .inr ⟨.register _ _ now, trivial, rfl⟩

/-- A REGISTER_SUPER_ACK leaves the lists alone. -/
theorem registerSuperAck_lists {eee : P2pEdge} {udpBuf : List UInt8} {now : ℤ} {u : Uninit}
    {c : Cursor} {r : Received} (h : eee.registerSuperAck udpBuf now u c = .ok r) :
    r.eee.lists = eee.lists := by
  rw [registerSuperAck] at h
  split_ifs at h
  · obtain ⟨⟨ra, ret, c'⟩, -, h⟩ := Supernode.bind_eq_ok h
    dsimp only at h
    split_ifs at h
    · cases h
      rfl
    · cases h
      rfl
  · cases h
    rfl

/-- **What a datagram can do to the lists of peers** is what an event of `Zevent.Upunch.Edge`
does. -/
theorem readFromIPSocket_lists {eee : P2pEdge} {senderSock : SockaddrIn} {udpBuf : List UInt8}
    {now : ℤ} {u : Uninit} {r : Received}
    (h : eee.readFromIPSocket senderSock udpBuf now u = .ok r) :
    ListsStep eee.lists r.eee.lists := by
  rw [readFromIPSocket] at h
  split_ifs at h with hnil
  · cases h
    exact .inl rfl
  obtain ⟨⟨cmn, ret, c⟩, -, h⟩ := Supernode.bind_eq_ok h
  dsimp only at h
  split_ifs at h with hret hcom hreg hack hsuper
  · cases h
    exact .inl rfl
  · exact register_lists h
  · rw [registerAck] at h
    obtain ⟨ra, -, h⟩ := Supernode.bind_eq_ok h
    cases h
    exact .inr ⟨.registerAck _ _ _ now, trivial, rfl⟩
  · exact .inl (registerSuperAck_lists h)
  · cases h
    exact .inl rfl
  · cases h
    exact .inl rfl

/-! ## The registration -/

/-- What the datagram does to the registration: nothing, or it has the cookie of the request
that is waited for, and answers it. -/
def SuperStep (eee : P2pEdge) (udpBuf : List UInt8) (now : ℤ) (u : Uninit) (r : Received) : Prop :=
  (∃ lists, r.eee = { eee with lists }) ∧ Callback.reg ∉ r.callbacks
    ∨ ∃ ra ret c c', decodeRegisterSuperAck u.flags udpBuf c = .ok (ra, ret, c')
      ∧ eee.snWait = true ∧ ra.cookie = eee.lastCookie
      ∧ r = ⟨{ eee with
          lastSup := now
          snWait := false
          supAttempts := edgeSupAttempts
          registerLifetime :=
            min (max ra.lifetime.toNat registerSuperIntervalMin) registerSuperIntervalMax },
        [], [.reg]⟩

theorem registerSuperAck_super {eee : P2pEdge} {udpBuf : List UInt8} {now : ℤ} {u : Uninit}
    {c : Cursor} {r : Received} (h : eee.registerSuperAck udpBuf now u c = .ok r) :
    eee.SuperStep udpBuf now u r := by
  rw [registerSuperAck] at h
  split_ifs at h with hwait
  · obtain ⟨⟨ra, ret, c'⟩, hdecode, h⟩ := Supernode.bind_eq_ok h
    dsimp only at h
    split_ifs at h with hcookie
    · cases h
      exact .inr ⟨ra, ret, c, c', hdecode, hwait, hcookie, rfl⟩
    · cases h
      exact .inl ⟨⟨_, rfl⟩, List.not_mem_nil⟩
  · cases h
    exact .inl ⟨⟨_, rfl⟩, List.not_mem_nil⟩

/-- **What a datagram can do to the registration.** -/
theorem readFromIPSocket_super {eee : P2pEdge} {senderSock : SockaddrIn} {udpBuf : List UInt8}
    {now : ℤ} {u : Uninit} {r : Received}
    (h : eee.readFromIPSocket senderSock udpBuf now u = .ok r) :
    eee.SuperStep udpBuf now u r := by
  rw [readFromIPSocket] at h
  split_ifs at h with hnil
  · cases h
    exact .inl ⟨⟨_, rfl⟩, List.not_mem_nil⟩
  obtain ⟨⟨cmn, ret, c⟩, -, h⟩ := Supernode.bind_eq_ok h
  dsimp only at h
  split_ifs at h with hret hcom hreg hack hsuper
  · cases h
    exact .inl ⟨⟨_, rfl⟩, List.not_mem_nil⟩
  · rw [register] at h
    obtain ⟨⟨reg, ret, c'⟩, -, h⟩ := Supernode.bind_eq_ok h
    obtain rfl := Except.ok.inj h
    exact .inl ⟨⟨_, checkPeer_lists ..⟩, List.not_mem_nil⟩
  · rw [registerAck] at h
    obtain ⟨ra, -, h⟩ := Supernode.bind_eq_ok h
    cases h
    exact .inl ⟨⟨_, rfl⟩, by simp⟩
  · exact registerSuperAck_super h
  · cases h
    exact .inl ⟨⟨_, rfl⟩, List.not_mem_nil⟩
  · cases h
    exact .inl ⟨⟨_, rfl⟩, List.not_mem_nil⟩

/-- The datagram is a REGISTER_ACK for the community of the edge. -/
def AcksRegister (eee : P2pEdge) (udpBuf : List UInt8) (u : Uninit) : Prop :=
  udpBuf.length ≠ 0 ∧ ∃ cmn r c,
    decodeCommon u.cmn udpBuf ⟨0, udpBuf.length⟩ = .ok (cmn, r, c) ∧ 0 ≤ r
      ∧ cmn.community = eee.communityName ∧ cmn.pc = 4

/-- A REGISTER_SUPER_ACK calls no `puch_callback`. -/
theorem registerSuperAck_puch {eee : P2pEdge} {udpBuf : List UInt8} {now : ℤ} {u : Uninit}
    {c : Cursor} {r : Received} (h : eee.registerSuperAck udpBuf now u c = .ok r) :
    Callback.puch ∉ r.callbacks := by
  rw [registerSuperAck] at h
  split_ifs at h
  · obtain ⟨⟨ra, ret, c'⟩, -, h⟩ := Supernode.bind_eq_ok h
    dsimp only at h
    split_ifs at h
    · cases h
      simp
    · cases h
      exact List.not_mem_nil
  · cases h
    exact List.not_mem_nil

/-- **`puch_callback` is called for a REGISTER_ACK and for nothing else.** -/
theorem readFromIPSocket_puch {eee : P2pEdge} {senderSock : SockaddrIn} {udpBuf : List UInt8}
    {now : ℤ} {u : Uninit} {r : Received}
    (h : eee.readFromIPSocket senderSock udpBuf now u = .ok r) :
    .puch ∈ r.callbacks ↔ eee.AcksRegister udpBuf u := by
  rw [readFromIPSocket] at h
  split_ifs at h with hnil
  · cases h
    exact iff_of_false List.not_mem_nil fun hack => hack.1 hnil
  obtain ⟨⟨cmn, ret, c⟩, hcommon, h⟩ := Supernode.bind_eq_ok h
  dsimp only at h
  -- the header is the one that was decoded
  have hacks : eee.AcksRegister udpBuf u
      ↔ 0 ≤ ret ∧ cmn.community = eee.communityName ∧ cmn.pc = 4 := by
    constructor
    · rintro ⟨-, cmn', ret', c', hcommon', hack⟩
      obtain ⟨rfl, rfl, rfl⟩ := Prod.mk.inj (Except.ok.inj (hcommon.symm.trans hcommon'))
      exact hack
    · exact fun hack => ⟨hnil, cmn, ret, c, hcommon, hack⟩
  rw [hacks]
  split_ifs at h with hret hcom hreg hack hsuper
  · cases h
    exact iff_of_false List.not_mem_nil fun hack => absurd hack.1 (not_le.mpr hret)
  · rw [register] at h
    obtain ⟨⟨reg, ret, c'⟩, -, h⟩ := Supernode.bind_eq_ok h
    obtain rfl := Except.ok.inj h
    refine iff_of_false List.not_mem_nil fun hack => ?_
    rw [hreg] at hack
    exact absurd hack.2.2 (by decide)
  · rw [registerAck] at h
    obtain ⟨ra, -, h⟩ := Supernode.bind_eq_ok h
    cases h
    exact iff_of_true List.mem_cons_self ⟨not_lt.mp hret, hcom, hack⟩
  · exact iff_of_false (registerSuperAck_puch h) fun h => hack h.2.2
  · cases h
    exact iff_of_false List.not_mem_nil fun h => hack h.2.2
  · cases h
    exact iff_of_false List.not_mem_nil fun h => hcom h.2.1

/-- **Nothing breaks `readFromIPSocket`.** -/
theorem readFromIPSocket_ok (eee : P2pEdge) (senderSock : SockaddrIn) (udpBuf : List UInt8)
    (now : ℤ) (u : Uninit) : ∃ r, eee.readFromIPSocket senderSock udpBuf now u = .ok r := by
  obtain ⟨cmn, ret, c, rest, hcommon, hrest, -⟩ :=
    decodeCommon_stays (remains_start udpBuf) le_rfl u.cmn
  obtain ⟨reg, r₁, c₁, -, hreg, -⟩ := decodeRegister_stays hrest le_rfl u.flags
  obtain ⟨ra, r₂, c₂, -, hack, -⟩ := decodeRegisterAck_stays hrest le_rfl u.flags cmn
  obtain ⟨sa, r₃, c₃, -, hsuper, -⟩ := decodeRegisterSuperAck_stays hrest le_rfl u.flags
  rw [readFromIPSocket]
  split_ifs
  · exact ⟨_, rfl⟩
  rw [hcommon, ok_bind]
  dsimp only
  split_ifs
  · exact ⟨_, rfl⟩
  · rw [register, hreg]
    exact ⟨_, rfl⟩
  · rw [registerAck, hack]
    exact ⟨_, rfl⟩
  · rw [registerSuperAck, hsuper, ok_bind]
    dsimp only
    split_ifs
    · exact ⟨_, rfl⟩
    · exact ⟨_, rfl⟩
    · exact ⟨_, rfl⟩
  · exact ⟨_, rfl⟩
  · exact ⟨_, rfl⟩

end P2pEdge

end Zevent.Upunch

/-
# The supernode (`upunch/sn.c`)

A supernode keeps a list of the edges that have registered, answers a REGISTER_SUPER,
forwards a REGISTER to the edge it is for, and notes the time of a HEARTBEAT.  `processUdp` is
the whole of `process_udp`: what it does to the edges and the statistics, and the datagrams it
sends.

* A socket address is a `sockaddr_in`, with the port in network order: `sinPort` is the number
  that a little-endian machine reads there.  `update_edge` is called with an address of its
  own making, with the port in host order; a heartbeat is looked up by the `sockaddr_in`
  itself, read as a `p2p_sock_t`.
* `processUdp` takes what its uninitialised variables hold, and whether `sendto` succeeds.
* `Listed` is the invariant of the list of edges.  `heartbeat_refreshes_iff` says when a
  heartbeat finds the edge it comes from.
-/
import Zevent.Upunch.Datagram
import Zevent.Upunch.Edge

namespace Zevent.Upunch

open Interleaving

/-! ## Addresses -/

/-- `ntohs` on a little-endian machine: the bytes change places. -/
def ntohs (x : UInt16) : UInt16 := x <<< 8 ||| x >>> 8

/-- `htons`. -/
def htons (x : UInt16) : UInt16 := ntohs x

theorem ntohs_toNat (x : UInt16) :
    (ntohs x).toNat = x.toNat % 256 * 256 + x.toNat / 256 := by
  have hx : x.toNat < 65536 := x.toNat_lt
  have h8 : (8 : UInt16).toNat % 16 = 8 := by decide
  have hhigh : x.toNat <<< 8 % 2 ^ 16 = (x.toNat % 256) <<< 8 := by
    rw [Nat.shiftLeft_eq, Nat.shiftLeft_eq]
    omega
  rw [ntohs, UInt16.toNat_or, UInt16.toNat_shiftLeft, UInt16.toNat_shiftRight, h8, hhigh,
    Nat.shiftRight_eq_div_pow, ← Nat.shiftLeft_add_eq_or_of_lt (by omega), Nat.shiftLeft_eq]

/-- `ntohs` is its own inverse. -/
theorem ntohs_ntohs (x : UInt16) : ntohs (ntohs x) = x := by
  apply UInt16.toNat_inj.mp
  have hx : x.toNat < 65536 := x.toNat_lt
  rw [ntohs_toNat, ntohs_toNat]
  omega

/-- The fields of `struct sockaddr_in` of an IPv4 sender. -/
structure SockaddrIn where
  sinPort : UInt16
  sinAddr : Bytes 4
  deriving DecidableEq

/-- What `find_peer_by_addr` finds at the places of the port and the address in it. -/
def SockaddrIn.key (a : SockaddrIn) : UInt16 × Bytes 4 := (a.sinPort, a.sinAddr)

/-- The key of the address that the program makes from it. -/
def SockaddrIn.hostKey (a : SockaddrIn) : UInt16 × Bytes 4 := (ntohs a.sinPort, a.sinAddr)

/-! ## The state -/

/-- `P2P_FLAGS_FROM_SUPERNODE`. -/
def flagsFromSupernode : UInt16 := 0x0020

/-- `P2P_DEFAULT_TTL`. -/
def defaultTtl : UInt8 := 2

/-- `P2P_SN_PKTBUF_SIZE`. -/
def pktbufSize : ℕ := 2048

/-- An edge: all fields of `peer_info`. -/
structure Registration extends PeerInfo where
  communityName : Bytes 16
  deriving DecidableEq

/-- The statistics that `process_udp` keeps. -/
structure SnStats where
  errors : ℕ
  regSuper : ℕ
  fwd : ℕ
  lastFwd : ℤ
  lastRegSuper : ℤ
  deriving DecidableEq

/-- `p2p_sn_t`, with the static `last_purge`. -/
structure Supernode where
  edges : List Registration
  stats : SnStats
  lastPurge : ℤ
  deriving DecidableEq

/-- A datagram that is sent. -/
structure Sent where
  dest : SockaddrIn
  bytes : List UInt8
  deriving DecidableEq

/-- What `process_udp` leaves: what it returns, the supernode, and the datagrams sent. -/
structure Processed where
  ret : ℤ
  sss : Supernode
  sent : List Sent
  deriving DecidableEq

/-- What the uninitialised variables of a call hold: `cmn`, the flag words of
`decode_sock`, and `ack.sock`. -/
structure Uninit where
  cmn : Common
  flags : ℕ → UInt16
  sock : SockMem

namespace Supernode

/-! ## The edges -/

/-- `find_peer_by_addr` on the edges. -/
def findPeerByAddr (edges : List Registration) (key : UInt16 × Bytes 4) : Option Registration :=
  edges.find? fun p => p.sock.key = key

/-- The edges after a write through the pointer that `find_peer_by_addr` returns. -/
def modifyFound (edges : List Registration) (key : UInt16 × Bytes 4)
    (f : Registration → Registration) : List Registration :=
  match edges with
  | [] => []
  | p :: rest => if p.sock.key = key then f p :: rest else p :: modifyFound rest key f

/-- `update_edge`. -/
def updateEdge (edges : List Registration) (community : Bytes 16) (senderSock : SockMem)
    (now : ℤ) : List Registration :=
  match findPeerByAddr edges senderSock.key with
  | none => { sock := senderSock, lastSeen := now, communityName := community } :: edges
  | some _ => modifyFound edges senderSock.key fun scan =>
      if community ≠ scan.communityName ∨ sockEqual senderSock.toSock scan.sock.toSock = false then
        { sock := senderSock, lastSeen := now, communityName := community }
      else { scan with lastSeen := now }

/-! ## What is sent -/

/-- `sendto_sock`: `none` is `-1`. -/
def sendtoSock (sock : Sock) (pktbuf : List UInt8) : Option Sent :=
  if sock.family = afInet then some ⟨⟨htons sock.port, sock.v4⟩, pktbuf⟩ else none

/-- `try_forward`. -/
def tryForward (sss : Supernode) (dst : Sock) (pktbuf : List UInt8) (sendOk : Bool) :
    Supernode × List Sent :=
  match findPeerByAddr sss.edges dst.key with
  | none => (sss, [])
  | some scan =>
      match sendtoSock scan.sock.toSock pktbuf with
      | none => ({ sss with stats.errors := sss.stats.errors + 1 }, [])
      | some sent =>
          if sendOk then ({ sss with stats.fwd := sss.stats.fwd + 1 }, [sent])
          else ({ sss with stats.errors := sss.stats.errors + 1 }, [sent])

/-- `reg_lifetime`. -/
def regLifetime : UInt16 := 120

/-- `encode_buf` of the bytes behind the cursor, at the end of `encbuf`. -/
def appendRest (encbuf udpBuf : List UInt8) (c : Cursor) : Except Fault (List UInt8) :=
  if pktbufSize < encbuf.length + (udpBuf.length - c.idx) then .error .writePast
  else .ok (encbuf ++ udpBuf.drop c.idx)

/-! ## `process_udp` -/

/-- The branch of a heartbeat. -/
def heartbeat (sss : Supernode) (sender : SockaddrIn) (now : ℤ) : Supernode :=
  { sss with edges := modifyFound sss.edges sender.key fun scan => { scan with lastSeen := now } }

/-- The REGISTER that is forwarded. -/
def forwarded (sender : SockaddrIn) (reg : Register) : Register :=
  { reg with origSender :=
      { family := afInet
        port := ntohs sender.sinPort
        addr := setV4 reg.origSender.addr sender.sinAddr } }

/-- The branch of a REGISTER; `cmn` has the lower time to live. -/
def register (sss : Supernode) (sender : SockaddrIn) (udpBuf : List UInt8) (now : ℤ)
    (u : Uninit) (sendOk : Bool) (cmn : Common) (c : Cursor) : Except Fault Processed := do
  let (reg, _, c) ← decodeRegister u.flags udpBuf c
  let cmn2 := { cmn with flags := flagsFromSupernode }
  let (encbuf, _) := encodeRegister [] cmn2 (forwarded sender reg)
  let recBuf ← appendRest encbuf udpBuf c
  let sss := { sss with stats.lastFwd := now }
  let (sss, sent) := sss.tryForward reg.destSock recBuf sendOk
  return ⟨0, sss, sent⟩

/-- The branch of a REGISTER_SUPER. -/
def registerSuper (sss : Supernode) (sender : SockaddrIn) (udpBuf : List UInt8) (now : ℤ)
    (u : Uninit) (cmn : Common) (c : Cursor) : Except Fault Processed := do
  let (reg, _, _) ← decodeRegisterSuper udpBuf c
  let cmn2 : Common :=
    { ttl := defaultTtl, pc := 6, flags := flagsSocket ||| flagsFromSupernode,
      community := cmn.community }
  let sock := ipv4Sock (ntohs sender.sinPort) sender.sinAddr u.sock
  let ack : RegisterSuperAck :=
    { cookie := reg.cookie, lifetime := regLifetime, sock := sock.toSock, numSn := 0,
      snBak := Sock.zero }
  let (ackbuf, _) := encodeRegisterSuperAck [] cmn2 ack
  return ⟨0,
    { sss with
      edges := updateEdge sss.edges cmn.community sock now
      stats.regSuper := sss.stats.regSuper + 1
      stats.lastRegSuper := now },
    [⟨sender, ackbuf⟩]⟩

/-- `process_udp`. -/
def processUdp (sss : Supernode) (sender : SockaddrIn) (udpBuf : List UInt8) (now : ℤ)
    (u : Uninit) (sendOk : Bool) : Except Fault Processed := do
  let (cmn, r, c) ← decodeCommon u.cmn udpBuf ⟨0, udpBuf.length⟩
  if r < 0 then return ⟨-1, sss, []⟩
  else if cmn.ttl < 1 then return ⟨0, sss, []⟩
  else
    let cmn := { cmn with ttl := cmn.ttl - 1 }
    if cmn.pc = 8 then return ⟨0, sss.heartbeat sender now, []⟩
    else if cmn.pc = 1 then sss.register sender udpBuf now u sendOk cmn c
    else if cmn.pc = 5 then sss.registerSuper sender udpBuf now u cmn c
    else return ⟨0, sss, []⟩

/-! ## Runs -/

/-- What happens to a supernode: a datagram arrives, or the edges are purged. -/
inductive Action
  | datagram (sender : SockaddrIn) (udpBuf : List UInt8) (now : ℤ) (u : Uninit) (sendOk : Bool)
  | purge (now : ℤ)

/-- `purge_expired_registrations` on the edges. -/
def purgeExpiredRegistrations (sss : Supernode) (now : ℤ) : Supernode :=
  if now - sss.lastPurge < purgeRegistrationFrequency then sss
  else { sss with
    edges := sss.edges.filter fun p => ¬ p.lastSeen < now - registrationTimeout
    lastPurge := now }

/-- One event; a datagram that makes a decoder write past a field ends the run. -/
def step (sss : Supernode) : Action → Option Supernode
  | .datagram sender udpBuf now u sendOk =>
      (sss.processUdp sender udpBuf now u sendOk).toOption.map Processed.sss
  | .purge now => some (sss.purgeExpiredRegistrations now)

/-- After `init_sn`. -/
def start : Supernode := ⟨[], ⟨0, 0, 0, 0, 0⟩, 0⟩

/-! ## The list of edges -/

/-- Every edge has an address of IPv4, and no two have the same. -/
structure Listed (edges : List Registration) : Prop where
  family : ∀ p ∈ edges, p.sock.family = afInet
  nodup : (edges.map fun p => p.sock.key).Nodup

theorem findPeerByAddr_eq_none {edges : List Registration} {key : UInt16 × Bytes 4} :
    findPeerByAddr edges key = none ↔ ∀ p ∈ edges, p.sock.key ≠ key := by
  rw [findPeerByAddr, List.find?_eq_none]
  simp

theorem findPeerByAddr_eq_some {edges : List Registration} {key : UInt16 × Bytes 4}
    {p : Registration} (h : findPeerByAddr edges key = some p) : p ∈ edges ∧ p.sock.key = key :=
  ⟨List.mem_of_find?_eq_some h, by simpa using List.find?_some h⟩

/-- With no two keys the same, an edge is found by its key. -/
theorem Listed.find {edges : List Registration} (h : Listed edges) {p : Registration}
    (hp : p ∈ edges) : findPeerByAddr edges p.sock.key = some p := by
  cases hfind : findPeerByAddr edges p.sock.key with
  | none => exact absurd rfl (findPeerByAddr_eq_none.mp hfind p hp)
  | some q =>
      obtain ⟨hq, hkey⟩ := findPeerByAddr_eq_some hfind
      rw [List.inj_on_of_nodup_map h.nodup hq hp hkey]

/-- The first edge with the key is written. -/
theorem modifyFound_append {pre post : List Registration} {p : Registration}
    {key : UInt16 × Bytes 4} (hpre : ∀ q ∈ pre, q.sock.key ≠ key) (hp : p.sock.key = key)
    (f : Registration → Registration) :
    modifyFound (pre ++ p :: post) key f = pre ++ f p :: post := by
  induction pre with
  | nil => rw [List.nil_append, modifyFound, if_pos hp, List.nil_append]
  | cons q pre ih =>
      rw [List.forall_mem_cons] at hpre
      rw [List.cons_append, modifyFound, if_neg hpre.1, ih hpre.2, List.cons_append]

/-- An edge with another key is not written. -/
theorem modifyFound_getElem? {edges : List Registration} {key : UInt16 × Bytes 4} {i : ℕ}
    {p : Registration} (hi : edges[i]? = some p) (hp : p.sock.key ≠ key)
    (f : Registration → Registration) : (modifyFound edges key f)[i]? = some p := by
  induction edges generalizing i with
  | nil => cases hi
  | cons q rest ih =>
      rw [modifyFound]
      cases i with
      | zero =>
          rw [List.getElem?_cons_zero, Option.some.injEq] at hi
          rw [hi, if_neg hp]
          rfl
      | succ i =>
          rw [List.getElem?_cons_succ] at hi
          split_ifs
          · exact hi
          · exact ih hi

/-- A write that keeps the key keeps the keys. -/
theorem modifyFound_keys {key : UInt16 × Bytes 4} {f : Registration → Registration}
    (hf : ∀ p, p.sock.key = key → (f p).sock.key = key) (edges : List Registration) :
    (modifyFound edges key f).map (fun p => p.sock.key) = edges.map fun p => p.sock.key := by
  induction edges with
  | nil => rfl
  | cons p rest ih =>
      rw [modifyFound]
      split_ifs with hp
      · rw [List.map_cons, List.map_cons, hf p hp, hp]
      · rw [List.map_cons, List.map_cons, ih]

/-- A registration in the changed list is an old one or the changed one. -/
theorem mem_modifyFound {edges : List Registration} {key : UInt16 × Bytes 4}
    {f : Registration → Registration} {q : Registration} (h : q ∈ modifyFound edges key f) :
    q ∈ edges ∨ ∃ p ∈ edges, q = f p := by
  induction edges with
  | nil => cases h
  | cons p rest ih =>
      rw [modifyFound] at h
      split_ifs at h
      · rcases List.mem_cons.mp h with rfl | hq
        · exact .inr ⟨p, List.mem_cons_self, rfl⟩
        · exact .inl (List.mem_cons_of_mem _ hq)
      · rcases List.mem_cons.mp h with rfl | hq
        · exact .inl List.mem_cons_self
        · exact (ih hq).imp (List.mem_cons_of_mem _)
            fun ⟨p', hp', heq⟩ => ⟨p', List.mem_cons_of_mem _ hp', heq⟩

/-- A change that keeps address and family keeps the list well formed. -/
theorem Listed.modify {edges : List Registration} (h : Listed edges) {key : UInt16 × Bytes 4}
    {f : Registration → Registration} (hkey : ∀ p, p.sock.key = key → (f p).sock.key = key)
    (hfamily : ∀ p, p.sock.family = afInet → (f p).sock.family = afInet) :
    Listed (modifyFound edges key f) := by
  refine ⟨fun q hq => ?_, ?_⟩
  · rcases mem_modifyFound hq with hq | ⟨p, hp, rfl⟩
    · exact h.family q hq
    · exact hfamily p (h.family p hp)
  · rw [modifyFound_keys hkey]
    exact h.nodup

theorem Listed.heartbeat {edges : List Registration} (h : Listed edges)
    (key : UInt16 × Bytes 4) (now : ℤ) :
    Listed (modifyFound edges key fun scan => { scan with lastSeen := now }) :=
  h.modify (fun _ hp => hp) fun _ hp => hp

/-- An edge that registers is listed, once. -/
theorem Listed.updateEdge {edges : List Registration} (h : Listed edges) {sock : SockMem}
    (hsock : sock.family = afInet) (community : Bytes 16) (now : ℤ) :
    Listed (updateEdge edges community sock now) := by
  rw [Supernode.updateEdge]
  split
  · rename_i hnone
    refine ⟨?_, ?_⟩
    · rw [List.forall_mem_cons]
      exact ⟨hsock, h.family⟩
    · rw [List.map_cons, List.nodup_cons]
      refine ⟨fun hmem => ?_, h.nodup⟩
      obtain ⟨p, hp, hkey⟩ := List.mem_map.mp hmem
      exact findPeerByAddr_eq_none.mp hnone p hp hkey
  · refine h.modify (fun p hp => ?_) fun p hp => ?_
    · split_ifs
      · rfl
      · exact hp
    · split_ifs
      · exact hsock
      · exact hp

theorem Listed.filter {edges : List Registration} (h : Listed edges)
    (keep : Registration → Bool) : Listed (edges.filter keep) :=
  ⟨fun p hp => h.family p (List.mem_of_mem_filter hp),
    h.nodup.sublist (List.filter_sublist.map _)⟩

/-! ## What a datagram does to the edges -/

/-- A computation that ends well has ended well in its first part. -/
theorem bind_eq_ok {α β : Type} {x : Except Fault α} {f : α → Except Fault β} {b : β}
    (h : x >>= f = .ok b) : ∃ a, x = .ok a ∧ f a = .ok b := by
  cases x with
  | error fault => cases h
  | ok a => exact ⟨a, rfl, h⟩

/-- Forwarding registers nobody. -/
theorem tryForward_edges (sss : Supernode) (dst : Sock) (pktbuf : List UInt8) (sendOk : Bool) :
    (sss.tryForward dst pktbuf sendOk).1.edges = sss.edges := by
  rw [tryForward]
  split
  · rfl
  · split
    · rfl
    · split_ifs <;> rfl

/-- **What a datagram can do to the edges**: nothing, the write of a heartbeat, or the
registration of the sender. -/
theorem processUdp_edges {sss : Supernode} {sender : SockaddrIn} {udpBuf : List UInt8} {now : ℤ}
    {u : Uninit} {sendOk : Bool} {r : Processed}
    (h : sss.processUdp sender udpBuf now u sendOk = .ok r) :
    r.sss.edges = sss.edges ∨ r.sss = sss.heartbeat sender now
      ∨ ∃ community, r.sss.edges = updateEdge sss.edges community
          (ipv4Sock (ntohs sender.sinPort) sender.sinAddr u.sock) now := by
  rw [processUdp] at h
  obtain ⟨⟨cmn, ret, c⟩, -, h⟩ := bind_eq_ok h
  dsimp only at h
  split_ifs at h with hret httl hbeat hreg hsuper
  · cases h
    exact .inl rfl
  · cases h
    exact .inl rfl
  · cases h
    exact .inr (.inl rfl)
  · rw [register] at h
    obtain ⟨⟨reg, ret', c'⟩, -, h⟩ := bind_eq_ok h
    obtain ⟨recBuf, -, h⟩ := bind_eq_ok h
    cases h
    exact .inl (tryForward_edges ..)
  · rw [registerSuper] at h
    obtain ⟨⟨reg, ret', c'⟩, -, h⟩ := bind_eq_ok h
    cases h
    exact .inr (.inr ⟨_, rfl⟩)
  · cases h
    exact .inl rfl

/-- **Step lemma.**  Every event keeps the list of edges sound. -/
theorem Listed.step {sss sss' : Supernode} (h : Listed sss.edges) {a : Action}
    (hstep : sss.step a = some sss') : Listed sss'.edges := by
  cases a with
  | datagram sender udpBuf now u sendOk =>
      rw [Supernode.step] at hstep
      rcases hudp : sss.processUdp sender udpBuf now u sendOk with fault | r
      · rw [hudp] at hstep
        cases hstep
      rw [hudp] at hstep
      obtain rfl := Option.some.inj hstep
      rcases processUdp_edges hudp with hsame | hbeat | ⟨community, hsuper⟩
      · rw [hsame]
        exact h
      · rw [hbeat]
        exact h.heartbeat _ _
      · rw [hsuper]
        exact h.updateEdge rfl _ _
  | purge now =>
      rw [Supernode.step, Option.some.injEq] at hstep
      subst hstep
      rw [purgeExpiredRegistrations]
      split_ifs
      · exact h
      · exact h.filter _

theorem listed_nil : Listed [] := ⟨fun _ hp => absurd hp List.not_mem_nil, List.nodup_nil⟩

/-- The edges of every run. -/
theorem reach_listed {ok : Supernode → Action → Prop} {sss : Supernode}
    (h : Reach step ok start sss) : Listed sss.edges :=
  h.invariant (fun sss => Listed sss.edges) listed_nil fun _ _ _ hs _ hstep => hs.step hstep

/-! ## Heartbeats -/

/-- A whole header of a HEARTBEAT that is still to live. -/
structure IsHeartbeat (udpBuf : List UInt8) : Prop where
  version : udpBuf.getD 0 0 = pktVersion
  length : 20 ≤ udpBuf.length
  ttl : ¬ udpBuf.getD 1 0 < 1
  pc : (wordAt udpBuf 2 &&& flagsTypeMask).toUInt32 = 8

/-- A heartbeat is handled by `heartbeat`, and nothing is sent. -/
theorem processUdp_heartbeat {udpBuf : List UInt8} (h : IsHeartbeat udpBuf) (sss : Supernode)
    (sender : SockaddrIn) (now : ℤ) (u : Uninit) (sendOk : Bool) :
    sss.processUdp sender udpBuf now u sendOk = .ok ⟨0, sss.heartbeat sender now, []⟩ := by
  obtain ⟨cmn, c, hcommon, -, httl, hpc⟩ := decodeCommon_whole h.version h.length u.cmn
  rw [processUdp, hcommon]
  simp only [ok_bind]
  rw [if_neg (by decide), if_neg (by rw [httl]; exact h.ttl),
    if_pos (hpc.trans h.pc)]
  rfl

/-- **When a heartbeat keeps its edge registered.**  For every state of a supernode, every
edge that has registered from the address `sender` and was not purged, and every HEARTBEAT
from that address: it sets the time of that edge to the current one and changes no other edge,
at every time, if and only if the two bytes of the port are the same. -/
theorem heartbeat_refreshes_iff {sss : Supernode} (h : Reach step Always start sss)
    {sender : SockaddrIn} {pre post : List Registration} {p : Registration}
    (hedges : sss.edges = pre ++ p :: post) (hsender : p.sock.key = sender.hostKey)
    {udpBuf : List UInt8} (hbeat : IsHeartbeat udpBuf) (u : Uninit) (sendOk : Bool) :
    (∀ t, ∃ r, sss.processUdp sender udpBuf t u sendOk = .ok r
        ∧ r.sss.edges = pre ++ { p with lastSeen := t } :: post)
      ↔ ntohs sender.sinPort = sender.sinPort := by
  have hlisted := reach_listed h
  constructor
  · intro hall
    by_contra hport
    -- the edge is not looked at, so its time is not the next second
    obtain ⟨r, hr, hr'⟩ := hall (p.lastSeen + 1)
    rw [processUdp_heartbeat hbeat, Except.ok.injEq] at hr
    have hkey : p.sock.key ≠ sender.key := by
      rw [hsender]
      exact fun heq => hport (congrArg Prod.fst heq)
    have hold : sss.edges[pre.length]? = some p := by
      rw [hedges, List.getElem?_append_right le_rfl, Nat.sub_self]
      rfl
    have hnew := congrArg (fun l => l[pre.length]?) hr'
    rw [← hr] at hnew
    dsimp only [heartbeat] at hnew
    rw [modifyFound_getElem? hold hkey, List.getElem?_append_right le_rfl, Nat.sub_self,
      List.getElem?_cons_zero, Option.some.injEq] at hnew
    have htime := congrArg (fun q => q.lastSeen) hnew
    dsimp only at htime
    omega
  · intro hport t
    have hkey : sender.key = p.sock.key := by
      rw [hsender, SockaddrIn.key, SockaddrIn.hostKey, hport]
    have hpre : ∀ q ∈ pre, q.sock.key ≠ sender.key := by
      intro q hq heq
      have hnodup := hlisted.nodup
      rw [hedges, List.map_append, List.nodup_append] at hnodup
      exact hnodup.2.2 _ (List.mem_map_of_mem hq) _ (List.mem_map_of_mem List.mem_cons_self)
        (heq.trans hkey)
    refine ⟨_, processUdp_heartbeat hbeat sss sender t u sendOk, ?_⟩
    show modifyFound sss.edges _ _ = _
    rw [hedges, modifyFound_append hpre hkey.symm]

/-- Stack memory without anything in it. -/
def blankUninit : Uninit where
  cmn := ⟨0, 0, 0, fun _ => 0⟩
  flags := fun _ => 0
  sock := blankSock

/-- A REGISTER_SUPER without a token. -/
def registerSuperDatagram : List UInt8 :=
  [2, 2, 0, 5] ++ List.replicate 16 97 ++ List.replicate 4 1 ++ [0, 0, 0, 0]

/-- A HEARTBEAT. -/
def heartbeatDatagram : List UInt8 := [2, 2, 0, 8] ++ List.replicate 16 97

theorem heartbeatDatagram_isHeartbeat : IsHeartbeat heartbeatDatagram :=
  ⟨by decide, by decide, by decide, by decide⟩

/-- The address 10.0.0.1 with a port whose number a little-endian machine reads as `sinPort`. -/
def sampleSender (sinPort : UInt16) : SockaddrIn := ⟨sinPort, sampleV4⟩

/-- The edge that `sampleSender sinPort` registers at the time 1000. -/
def sampleEdge (sinPort : UInt16) : Registration where
  sock := ipv4Sock (ntohs sinPort) sampleV4 blankSock
  lastSeen := 1000
  communityName := overwrite (fun _ => 0) (List.replicate 16 97)

/-- The edge at port `0x2020` registers and is heard of. -/
theorem heartbeat_refreshes_iff_same_bytes :
    ∃ sss, Reach step Always start sss ∧ ∀ t, ∃ r,
      sss.processUdp (sampleSender 0x2020) heartbeatDatagram t blankUninit true = .ok r
        ∧ r.sss.edges = [{ sampleEdge 0x2020 with lastSeen := t }] := by
  have hrun : (run step Always start
      [.datagram (sampleSender 0x2020) registerSuperDatagram 1000 blankUninit true]).map edges
      = some [sampleEdge 0x2020] := by
    decide
  obtain ⟨sss, hs, hedges⟩ := Option.map_eq_some_iff.mp hrun
  have hreach := Reach.refl.run _ hs
  have hsplit : sss.edges = [] ++ sampleEdge 0x2020 :: [] := hedges
  exact ⟨sss, hreach, (heartbeat_refreshes_iff hreach hsplit (by decide)
    heartbeatDatagram_isHeartbeat blankUninit true).mpr (by decide)⟩

/-- **A heartbeat that is not heard.**  The edge registers from port 7654, and its heartbeat
from the same port does not find it. -/
theorem heartbeat_not_found :
    ∃ sss, Reach step Always start sss ∧ sss.edges = [sampleEdge (htons 7654)]
      ∧ (sampleEdge (htons 7654)).sock.port = 7654
      ∧ (sampleEdge (htons 7654)).sock.key = (sampleSender (htons 7654)).hostKey
      ∧ ((sss.processUdp (sampleSender (htons 7654)) heartbeatDatagram 2000 blankUninit
          true).toOption.map fun r => r.sss.edges) = some [sampleEdge (htons 7654)] := by
  have hrun : (run step Always start
      [.datagram (sampleSender (htons 7654)) registerSuperDatagram 1000 blankUninit true]).map
      (fun sss => (sss.edges, (sss.processUdp (sampleSender (htons 7654)) heartbeatDatagram 2000
        blankUninit true).toOption.map fun r => r.sss.edges))
      = some ([sampleEdge (htons 7654)], some [sampleEdge (htons 7654)]) := by
    decide
  obtain ⟨sss, hs, hstate⟩ := Option.map_eq_some_iff.mp hrun
  rw [Prod.mk.injEq] at hstate
  exact ⟨sss, Reach.refl.run _ hs, hstate.1, by decide, by decide, hstate.2⟩

end Supernode

end Zevent.Upunch

/-
# Peers of a hole-punching edge (`upunch/p2p_punch.c`)

An edge keeps the peers it has asked to register in `pending_peers` and those that have
answered in `known_peers`.  `punching_hole` and a REGISTER datagram put a peer into
`pending_peers`, a REGISTER_ACK moves it to `known_peers`, and each round of `run_loop`
purges both lists of the entries not seen for a while.

* `check_peer` looks for a peer in `known_peers` before it asks it to register;
  `punching_hole` does not.  `PunchUnknown` is the guard on runs under which no peer is
  listed twice (`no_peer_twice`), and `known_and_pending` a run outside of it.
* `purge_expired_registrations` has one static time stamp for all lists it is called with,
  so the call on `known_peers` makes the call on `pending_peers` that follows it a no-op.
  `round_purges_iff` says after which rounds both lists are purged all the same, and
  `pending_not_purged` is a run in which a peer outstays its time.

Every event carries what `time` returns in it.
-/
import Mathlib.Tactic
import Mathlib.Data.List.TakeWhile
import Zevent.Lib.Interleaving
import Zevent.Upunch.PeerList

namespace Zevent.Upunch

open Interleaving

/-! ## Handlers -/

/-- `PURGE_REGISTRATION_FREQUENCY`. -/
def purgeRegistrationFrequency : ℤ := 60

/-- `REGISTRATION_TIMEOUT`. -/
def registrationTimeout : ℤ := 60 * 5

/-- The lists of `p2p_edge_t` and the static `last_purge`; `purges` only records when a purge
was not skipped, latest first. -/
structure Edge where
  knownPeers : List PeerInfo
  pendingPeers : List PeerInfo
  lastPurge : ℤ
  purges : List ℤ

/-- An edge that has just started. -/
def Edge.start : Edge := ⟨[], [], 0, []⟩

/-- `sock_equal(a, b) == 0`. -/
def sockEqual (a b : Sock) : Bool :=
  a.port == b.port && a.family == b.family
    && if a.family = afInet then decide (a.v4 = b.v4) else decide (a.addr = b.addr)

/-- `is_empty_ip_address`. -/
def isEmptyIpAddress (s : Sock) : Bool :=
  if s.family = afInet6 then decide (∀ i, s.addr i = 0) else decide (∀ i, s.v4 i = 0)

/-- `purge_expired_registrations` on a list, with the static `last_purge`. -/
def purgeExpiredRegistrations (list : List PeerInfo) (lastPurge now : ℤ) : List PeerInfo × ℤ :=
  if now - lastPurge < purgeRegistrationFrequency then (list, lastPurge)
  else (purgePeerList list (now - registrationTimeout), now)

/-- The record of purges after a call. -/
def recordPurge (purges : List ℤ) (lastPurge now : ℤ) : List ℤ :=
  if now - lastPurge < purgeRegistrationFrequency then purges else now :: purges

namespace Edge

/-- `try_send_register`, without the datagram it sends. -/
def trySendRegister (e : Edge) (dst : SockMem) (now : ℤ) : Edge :=
  match findPeerByAddr e.pendingPeers dst with
  | [] => { e with pendingPeers := peerListAdd e.pendingPeers ⟨dst, now⟩ now }
  | _ :: _ => e

/-- `update_peer_address`: the entry is looked for with `memcmp`. -/
def updatePeerAddress (e : Edge) (fromSupernode : UInt16) (dst peer : SockMem) (now : ℤ) : Edge :=
  if isEmptyIpAddress peer.toSock then e
  else
    let before := e.knownPeers.takeWhile fun p => p.sock ≠ dst
    match e.knownPeers.dropWhile fun p => p.sock ≠ dst with
    | [] => e
    | scan :: rest =>
        if sockEqual scan.sock.toSock peer.toSock then
          { e with knownPeers := before ++ { scan with lastSeen := now } :: rest }
        else if fromSupernode = 0 then
          trySendRegister { e with knownPeers := before ++ rest } dst now
        else e

/-- `check_peer`. -/
def checkPeer (e : Edge) (fromSupernode : UInt16) (dst peer : SockMem) (now : ℤ) : Edge :=
  match findPeerByAddr e.knownPeers dst with
  | [] => e.trySendRegister dst now
  | _ :: _ => e.updatePeerAddress fromSupernode dst peer now

/-- `set_peer_operational`: `prev` is never set, so the list goes on behind the entry found. -/
def setPeerOperational (e : Edge) (peer : SockMem) (now : ℤ) : Edge :=
  match findPeerByAddr e.pendingPeers peer with
  | [] => e
  | _ :: rest =>
      { e with pendingPeers := rest, knownPeers := ⟨peer, now⟩ :: e.knownPeers }

/-- The end of a round of `run_loop`: the two calls read the clock as `t₁` and `t₂`. -/
def round (e : Edge) (t₁ t₂ : ℤ) : Edge :=
  let known := purgeExpiredRegistrations e.knownPeers e.lastPurge t₁
  let pending := purgeExpiredRegistrations e.pendingPeers known.2 t₂
  { knownPeers := known.1
    pendingPeers := pending.1
    lastPurge := pending.2
    purges := recordPurge (recordPurge e.purges e.lastPurge t₁) known.2 t₂ }

end Edge

/-- An address of the given port and IPv4 address, written over what was in memory. -/
def ipv4Sock (port : UInt16) (v4 : Bytes 4) (junk : SockMem) : SockMem :=
  { junk with
    family := afInet
    port := port
    addr := fun i => if h : i.val < 4 then v4 ⟨i.val, h⟩ else junk.addr i }

/-- What happens to an edge: a call of `punching_hole`, a REGISTER from or on behalf of any
address, a REGISTER_ACK, the end of a round of the loop. -/
inductive Event
  | punchingHole (port : UInt16) (v4 : Bytes 4) (junk : SockMem) (now : ℤ)
  | register (fromSupernode : UInt16) (origSender : SockMem) (now : ℤ)
  | registerAck (port : UInt16) (v4 : Bytes 4) (junk : SockMem) (now : ℤ)
  | round (t₁ t₂ : ℤ)

/-- One event. -/
def Edge.step (e : Edge) : Event → Option Edge
  | .punchingHole port v4 junk now => some (e.trySendRegister (ipv4Sock port v4 junk) now)
  | .register fromSupernode origSender now =>
      some (e.checkPeer fromSupernode origSender origSender now)
  | .registerAck port v4 junk now => some (e.setPeerOperational (ipv4Sock port v4 junk) now)
  | .round t₁ t₂ => some (e.round t₁ t₂)

/-- The guard: holes are punched to peers that are not known yet. -/
def Edge.PunchUnknown (e : Edge) : Event → Prop
  | .punchingHole port v4 _ _ => ∀ p ∈ e.knownPeers, p.sock.key ≠ (port, v4)
  | _ => True

instance (e : Edge) (event : Event) : Decidable (e.PunchUnknown event) :=
  match event with
  | .punchingHole _ _ _ _ => inferInstanceAs (Decidable (∀ p ∈ _, _))
  | .register _ _ _ | .registerAck _ _ _ _ | .round _ _ => inferInstanceAs (Decidable True)

/-! ## Addresses and keys -/

/-- The socket address: the family, the port, and the bytes of an address of the family. -/
def Sock.address (s : Sock) : UInt8 × UInt16 × List UInt8 :=
  (s.family, s.port, if s.family = afInet then List.ofFn s.v4 else List.ofFn s.addr)

/-- An address determines what `find_peer_by_addr` compares. -/
theorem Sock.key_eq_of_address {s t : Sock} (h : s.address = t.address) : s.key = t.key := by
  unfold Sock.address at h
  rw [Prod.mk.injEq, Prod.mk.injEq] at h
  obtain ⟨hfamily, hport, hbytes⟩ := h
  have hv4 : s.v4 = t.v4 := by
    rw [hfamily] at hbytes
    split_ifs at hbytes
    · exact List.ofFn_injective hbytes
    · have haddr : s.addr = t.addr := List.ofFn_injective hbytes
      unfold Sock.v4
      rw [haddr]
  rw [Sock.key, Sock.key, hport, hv4]

theorem v4_ipv4Sock (port : UInt16) (v4 : Bytes 4) (junk : SockMem) :
    (ipv4Sock port v4 junk).key = (port, v4) := by
  have hv4 : (ipv4Sock port v4 junk).v4 = v4 := by
    funext i
    show (if h : i.val < 4 then v4 ⟨i.val, h⟩ else junk.addr _) = v4 i
    rw [dif_pos i.isLt]
  rw [Sock.key, hv4]
  rfl

theorem findPeerByAddr_eq_nil {list : List PeerInfo} {addr : SockMem}
    (h : findPeerByAddr list addr = []) : ∀ p ∈ list, p.sock.key ≠ addr.key := by
  unfold findPeerByAddr at h
  rw [List.dropWhile_eq_nil_iff] at h
  intro p hp
  simpa using h p hp

theorem findPeerByAddr_eq_cons {list rest : List PeerInfo} {scan : PeerInfo} {addr : SockMem}
    (h : findPeerByAddr list addr = scan :: rest) :
    scan.sock.key = addr.key ∧ (scan :: rest).Sublist list := by
  have hsub : (scan :: rest).Sublist list := h ▸ List.dropWhile_sublist _
  have hhead := List.head?_dropWhile_not
    (fun p : PeerInfo => decide (p.sock.key ≠ addr.key)) list
  rw [← findPeerByAddr, h] at hhead
  exact ⟨by simpa using hhead, hsub⟩

/-! ## No peer twice -/

namespace Edge

/-- What is compared of the peers of both lists. -/
def keys (e : Edge) : List (UInt16 × Bytes 4) :=
  (e.knownPeers ++ e.pendingPeers).map fun p => p.sock.key

variable {e : Edge}

/-- Asking a peer that is not known to register lists it once. -/
theorem keys_trySendRegister (he : e.keys.Nodup) {dst : SockMem} (now : ℤ)
    (hknown : ∀ p ∈ e.knownPeers, p.sock.key ≠ dst.key) :
    (e.trySendRegister dst now).keys.Nodup := by
  unfold trySendRegister
  split
  · rename_i hfind
    have hpending := findPeerByAddr_eq_nil hfind
    have hperm : (e.knownPeers ++ peerListAdd e.pendingPeers ⟨dst, now⟩ now).Perm
        (⟨dst, now⟩ :: (e.knownPeers ++ e.pendingPeers)) := List.perm_middle
    refine ((hperm.map fun p => p.sock.key).nodup_iff).mpr ?_
    refine List.nodup_cons.mpr ⟨?_, he⟩
    intro hmem
    obtain ⟨p, hp, heq⟩ := List.mem_map.mp hmem
    rcases List.mem_append.mp hp with hp | hp
    · exact hknown p hp heq
    · exact hpending p hp heq
  · exact he

/-- An entry found with `memcmp` has the address that was looked for, so only its time
changes. -/
theorem keys_updatePeerAddress (fromSupernode : UInt16) (dst : SockMem) (now : ℤ) :
    (e.updatePeerAddress fromSupernode dst dst now).keys = e.keys := by
  unfold updatePeerAddress
  split
  · rfl
  · split
    · rfl
    · rename_i scan rest hfind
      have hsock : scan.sock = dst := by
        have hhead := List.head?_dropWhile_not
          (fun p : PeerInfo => decide (p.sock ≠ dst)) e.knownPeers
        rw [hfind] at hhead
        simpa using hhead
      have hequal : sockEqual scan.sock.toSock dst.toSock = true := by
        rw [hsock]
        simp [sockEqual]
      rw [if_pos hequal]
      have hlist : e.knownPeers
          = (e.knownPeers.takeWhile fun p => p.sock ≠ dst) ++ scan :: rest := by
        rw [← hfind, List.takeWhile_append_dropWhile]
      unfold keys
      conv_rhs => rw [hlist]
      simp

/-- The peer that acknowledges moves; the entries before it are dropped. -/
theorem keys_setPeerOperational (he : e.keys.Nodup) (peer : SockMem) (now : ℤ) :
    (e.setPeerOperational peer now).keys.Nodup := by
  unfold setPeerOperational
  split
  · exact he
  · rename_i scan rest hfind
    obtain ⟨hkey, hsub⟩ := findPeerByAddr_eq_cons hfind
    have hkeys : (e.knownPeers ++ scan :: rest).map (fun p => p.sock.key) |>.Nodup :=
      he.sublist ((hsub.append_left _).map _)
    have hperm : (e.knownPeers ++ scan :: rest).Perm (scan :: (e.knownPeers ++ rest)) :=
      List.perm_middle
    have hmoved := ((hperm.map fun p => p.sock.key).nodup_iff).mp hkeys
    show (peer.key :: (e.knownPeers ++ rest).map fun p => p.sock.key).Nodup
    rw [← hkey]
    exact hmoved

/-- A purge only removes. -/
theorem purgeExpiredRegistrations_sublist (list : List PeerInfo) (lastPurge now : ℤ) :
    (purgeExpiredRegistrations list lastPurge now).1.Sublist list := by
  unfold purgeExpiredRegistrations
  split
  · exact List.Sublist.refl _
  · exact List.filter_sublist

/-- No peer is twice in the lists behind a round either. -/
theorem keys_round (he : e.keys.Nodup) (t₁ t₂ : ℤ) : (e.round t₁ t₂).keys.Nodup := by
  refine he.sublist (List.Sublist.map _ ?_)
  exact (purgeExpiredRegistrations_sublist _ _ _).append (purgeExpiredRegistrations_sublist _ _ _)

/-- Every event the guard allows keeps the keys distinct. -/
theorem keys_step {e' : Edge} {event : Event} (he : e.keys.Nodup) (hok : e.PunchUnknown event)
    (h : e.step event = some e') : e'.keys.Nodup := by
  cases event with
  | punchingHole port v4 junk now =>
      rw [step, Option.some.injEq] at h
      subst h
      apply keys_trySendRegister he now
      rw [v4_ipv4Sock]
      exact hok
  | register fromSupernode origSender now =>
      rw [step, Option.some.injEq] at h
      subst h
      unfold checkPeer
      split
      · rename_i hfind
        exact keys_trySendRegister he now (findPeerByAddr_eq_nil hfind)
      · rw [keys_updatePeerAddress]
        exact he
  | registerAck port v4 junk now =>
      rw [step, Option.some.injEq] at h
      subst h
      exact keys_setPeerOperational he _ now
  | round t₁ t₂ =>
      rw [step, Option.some.injEq] at h
      subst h
      exact keys_round he t₁ t₂

/-- Lists with distinct keys have distinct addresses. -/
theorem nodup_address {list : List PeerInfo} (h : (list.map fun p => p.sock.key).Nodup) :
    (list.map fun p => p.sock.address).Nodup := by
  refine List.pairwise_map.mpr ((List.pairwise_map.mp h).imp ?_)
  intro p q hne heq
  exact hne (Sock.key_eq_of_address heq)

/-- **No peer is listed twice.**  In every run in which holes are punched only to peers that
are not known, no socket address is twice in `known_peers`, twice in `pending_peers`, or in
both. -/
theorem no_peer_twice {e : Edge} (h : Reach step PunchUnknown start e) :
    (e.knownPeers.map fun p => p.sock.address).Nodup
      ∧ (e.pendingPeers.map fun p => p.sock.address).Nodup
      ∧ ∀ p ∈ e.knownPeers, ∀ q ∈ e.pendingPeers, p.sock.address ≠ q.sock.address := by
  have hkeys : e.keys.Nodup :=
    h.invariant (fun e => e.keys.Nodup) List.nodup_nil fun _ _ _ he hok => keys_step he hok
  have hall := nodup_address hkeys
  rw [List.map_append, List.nodup_append] at hall
  obtain ⟨hknown, hpending, hdisjoint⟩ := hall
  refine ⟨hknown, hpending, ?_⟩
  intro p hp q hq
  exact hdisjoint _ (List.mem_map_of_mem hp) _ (List.mem_map_of_mem hq)

end Edge

/-- Memory without anything in it. -/
def blankSock : SockMem := { Sock.zero with pad := 0 }

/-- The address 10.0.0.1. -/
def sampleV4 : Bytes 4 := ![10, 0, 0, 1]

/-- A hole is punched, the peer acknowledges, another one registers. -/
theorem no_peer_twice_two_peers :
    ∃ e, Reach Edge.step Edge.PunchUnknown Edge.start e
      ∧ e.knownPeers.map (fun p => p.sock.port) = [5000]
      ∧ e.pendingPeers.map (fun p => p.sock.port) = [6000]
      ∧ ∀ p ∈ e.knownPeers, ∀ q ∈ e.pendingPeers, p.sock.address ≠ q.sock.address := by
  have hrun : (run Edge.step Edge.PunchUnknown Edge.start
      [.punchingHole 5000 sampleV4 blankSock 1000, .registerAck 5000 sampleV4 blankSock 1001,
        .register 0 (ipv4Sock 6000 sampleV4 blankSock) 1002, .round 1003 1003]).map
        (fun e => (e.knownPeers.map fun p => p.sock.port, e.pendingPeers.map fun p => p.sock.port))
      = some ([5000], [6000]) := by
    decide
  obtain ⟨e, hs, hports⟩ := Option.map_eq_some_iff.mp hrun
  rw [Prod.mk.injEq] at hports
  have hreach := Reach.refl.run _ hs
  exact ⟨e, hreach, hports.1, hports.2, (Edge.no_peer_twice hreach).2.2⟩

/-- **A known peer is pending again.**  A hole is punched to a peer that has acknowledged. -/
theorem known_and_pending :
    ∃ e, Reach Edge.step Always Edge.start e
      ∧ ∃ p ∈ e.knownPeers, ∃ q ∈ e.pendingPeers, p.sock.address = q.sock.address := by
  have hrun : (run Edge.step Always Edge.start
      [.punchingHole 5000 sampleV4 blankSock 1000, .registerAck 5000 sampleV4 blankSock 1001,
        .punchingHole 5000 sampleV4 blankSock 1002]).map
        (fun e => (e.knownPeers, e.pendingPeers))
      = some ([⟨ipv4Sock 5000 sampleV4 blankSock, 1001⟩],
          [⟨ipv4Sock 5000 sampleV4 blankSock, 1002⟩]) := by
    decide
  obtain ⟨e, hs, hlists⟩ := Option.map_eq_some_iff.mp hrun
  rw [Prod.mk.injEq] at hlists
  refine ⟨e, Reach.refl.run _ hs, ?_⟩
  rw [hlists.1, hlists.2]
  exact ⟨_, List.mem_cons_self, _, List.mem_cons_self, rfl⟩

/-! ## Purges -/

/-- The entry was seen more than `REGISTRATION_TIMEOUT` seconds before. -/
def PeerInfo.Expired (p : PeerInfo) (now : ℤ) : Prop := now - p.lastSeen > registrationTimeout

instance (p : PeerInfo) (now : ℤ) : Decidable (p.Expired now) :=
  inferInstanceAs (Decidable (_ > _))

/-- A list purged at a time: the younger entries, in their order. -/
def purgedAt (list : List PeerInfo) (now : ℤ) : List PeerInfo :=
  list.filter fun p => ¬ p.Expired now

/-- `purge_peer_list` keeps the peers seen within the timeout. -/
theorem purgePeerList_eq (list : List PeerInfo) (now : ℤ) :
    purgePeerList list (now - registrationTimeout) = purgedAt list now := by
  unfold purgePeerList purgedAt PeerInfo.Expired
  congr 1
  funext p
  rw [decide_eq_decide]
  omega

theorem purgedAt_eq_self_iff {list : List PeerInfo} {now : ℤ} :
    purgedAt list now = list ↔ ∀ p ∈ list, ¬ p.Expired now := by
  unfold purgedAt
  rw [List.filter_eq_self]
  simp

namespace Edge

/-- The time of the last purge that was not skipped; the beginning of time when there was
none. -/
def previousPurge (e : Edge) : ℤ := e.purges.headD 0

/-- Only a round touches the time stamp and its record. -/
def SameStamp (e e' : Edge) : Prop := e'.lastPurge = e.lastPurge ∧ e'.purges = e.purges

/-- `try_send_register` does not touch the time of the last purge. -/
theorem sameStamp_trySendRegister (e : Edge) (dst : SockMem) (now : ℤ) :
    SameStamp e (e.trySendRegister dst now) := by
  unfold trySendRegister
  split <;> exact ⟨rfl, rfl⟩

theorem sameStamp_updatePeerAddress (e : Edge) (fromSupernode : UInt16) (dst peer : SockMem)
    (now : ℤ) : SameStamp e (e.updatePeerAddress fromSupernode dst peer now) := by
  unfold updatePeerAddress
  split
  · exact ⟨rfl, rfl⟩
  · split
    · exact ⟨rfl, rfl⟩
    · split_ifs
      · exact ⟨rfl, rfl⟩
      · exact sameStamp_trySendRegister _ dst now
      · exact ⟨rfl, rfl⟩

theorem sameStamp_checkPeer (e : Edge) (fromSupernode : UInt16) (dst peer : SockMem) (now : ℤ) :
    SameStamp e (e.checkPeer fromSupernode dst peer now) := by
  unfold checkPeer
  split
  · exact sameStamp_trySendRegister e dst now
  · exact sameStamp_updatePeerAddress e fromSupernode dst peer now

theorem sameStamp_setPeerOperational (e : Edge) (peer : SockMem) (now : ℤ) :
    SameStamp e (e.setPeerOperational peer now) := by
  unfold setPeerOperational
  split <;> exact ⟨rfl, rfl⟩

/-- A call keeps the time stamp at the head of the record. -/
theorem purgeExpiredRegistrations_record {purges : List ℤ} {lastPurge : ℤ}
    (h : lastPurge = purges.headD 0) (list : List PeerInfo) (now : ℤ) :
    (purgeExpiredRegistrations list lastPurge now).2
      = (recordPurge purges lastPurge now).headD 0 := by
  unfold purgeExpiredRegistrations recordPurge
  split_ifs
  · exact h
  · rfl

/-- The static time stamp is the time of the last purge that was not skipped. -/
theorem lastPurge_eq {e : Edge} (h : Reach step Always start e) :
    e.lastPurge = e.previousPurge := by
  refine h.invariant (fun e => e.lastPurge = e.previousPurge) rfl ?_
  intro e event e' he _ hstep
  have hframe : ∀ e'' : Edge, SameStamp e e'' → e''.lastPurge = e''.previousPurge := by
    rintro e'' ⟨hlast, hpurges⟩
    rw [hlast, previousPurge, hpurges]
    exact he
  cases event with
  | punchingHole port v4 junk now =>
      rw [step, Option.some.injEq] at hstep
      exact hstep ▸ hframe _ (sameStamp_trySendRegister e _ now)
  | register fromSupernode origSender now =>
      rw [step, Option.some.injEq] at hstep
      exact hstep ▸ hframe _ (sameStamp_checkPeer e fromSupernode _ _ now)
  | registerAck port v4 junk now =>
      rw [step, Option.some.injEq] at hstep
      exact hstep ▸ hframe _ (sameStamp_setPeerOperational e _ now)
  | round t₁ t₂ =>
      rw [step, Option.some.injEq] at hstep
      subst hstep
      exact purgeExpiredRegistrations_record (purgeExpiredRegistrations_record he _ _) _ _

/-- A round that is due: the first call purges, and the second one only when the clock has
gone on for as long again in between. -/
theorem round_due {e : Edge} {t₁ t₂ : ℤ} (hdue : purgeRegistrationFrequency ≤ t₁ - e.lastPurge) :
    (e.round t₁ t₂).knownPeers = purgedAt e.knownPeers t₁
      ∧ (e.round t₁ t₂).pendingPeers
        = if purgeRegistrationFrequency ≤ t₂ - t₁ then purgedAt e.pendingPeers t₂
          else e.pendingPeers := by
  have hfirst : purgeExpiredRegistrations e.knownPeers e.lastPurge t₁
      = (purgedAt e.knownPeers t₁, t₁) := by
    unfold purgeExpiredRegistrations
    rw [if_neg (by omega), purgePeerList_eq]
  unfold round
  rw [hfirst]
  refine ⟨rfl, ?_⟩
  show (purgeExpiredRegistrations e.pendingPeers t₁ t₂).1 = _
  unfold purgeExpiredRegistrations
  by_cases hlong : purgeRegistrationFrequency ≤ t₂ - t₁
  · rw [if_neg (by omega), if_pos hlong]
    exact purgePeerList_eq _ _
  · rw [if_pos (by omega), if_neg hlong]

/-- **When both lists are purged.**  In every run, after every round that comes at least
`PURGE_REGISTRATION_FREQUENCY` after the last purge that was not skipped: both lists have lost
their expired entries and kept the others in their order exactly when no entry of
`pending_peers` had expired, or as much time again went by between the two calls. -/
theorem round_purges_iff {e : Edge} (h : Reach step Always start e) (t₁ t₂ : ℤ)
    (hdue : purgeRegistrationFrequency ≤ t₁ - e.previousPurge) :
    ((∀ p ∈ (e.round t₁ t₂).knownPeers, ¬ p.Expired t₁)
        ∧ (∀ p ∈ (e.round t₁ t₂).pendingPeers, ¬ p.Expired t₂)
        ∧ (e.round t₁ t₂).knownPeers = purgedAt e.knownPeers t₁
        ∧ (e.round t₁ t₂).pendingPeers = purgedAt e.pendingPeers t₂)
      ↔ (∀ p ∈ e.pendingPeers, ¬ p.Expired t₂) ∨ purgeRegistrationFrequency ≤ t₂ - t₁ := by
  rw [← lastPurge_eq h] at hdue
  obtain ⟨hknown, hpending⟩ := @round_due e t₁ t₂ hdue
  have hyoung : ∀ (list : List PeerInfo) (now : ℤ), ∀ p ∈ purgedAt list now, ¬ p.Expired now := by
    intro list now p hp
    simpa using (List.mem_filter.mp hp).2
  constructor
  · rintro ⟨-, -, -, hpurged⟩
    by_cases hlong : purgeRegistrationFrequency ≤ t₂ - t₁
    · exact Or.inr hlong
    · rw [hpending, if_neg hlong] at hpurged
      exact Or.inl (purgedAt_eq_self_iff.mp hpurged.symm)
  · intro hcond
    have hpurged : (e.round t₁ t₂).pendingPeers = purgedAt e.pendingPeers t₂ := by
      rw [hpending]
      split_ifs with hlong
      · rfl
      · exact (purgedAt_eq_self_iff.mpr (hcond.resolve_right hlong)).symm
    refine ⟨?_, ?_, hknown, hpurged⟩
    · rw [hknown]
      exact hyoung _ _
    · rw [hpurged]
      exact hyoung _ _

end Edge

/-- A round that purges a known peer, with nothing pending. -/
theorem round_purges_known :
    ∃ e, Reach Edge.step Always Edge.start e ∧ e.knownPeers.length = 1
      ∧ purgeRegistrationFrequency ≤ 2000 - e.previousPurge
      ∧ ∀ p ∈ (e.round 2000 2000).knownPeers, ¬ p.Expired 2000 := by
  have hrun : (run Edge.step Always Edge.start
      [.punchingHole 5000 sampleV4 blankSock 1000, .registerAck 5000 sampleV4 blankSock 1001,
        .round 1001 1001]).map
        (fun e => (e.knownPeers.length, e.pendingPeers, e.previousPurge)) = some (1, [], 1001) := by
    decide
  obtain ⟨e, hs, hstate⟩ := Option.map_eq_some_iff.mp hrun
  rw [Prod.mk.injEq, Prod.mk.injEq] at hstate
  obtain ⟨hknown, hpending, hprevious⟩ := hstate
  have hreach := Reach.refl.run _ hs
  have hdue : purgeRegistrationFrequency ≤ 2000 - e.previousPurge := by
    rw [hprevious]
    decide
  refine ⟨e, hreach, hknown, hdue, ?_⟩
  refine ((Edge.round_purges_iff hreach 2000 2000 hdue).mpr (Or.inl ?_)).1
  rw [hpending]
  exact fun p hp => absurd hp List.not_mem_nil

/-- **A pending peer outstays its time.**  The round comes 999 seconds after the last purge,
the peer was last seen 1000 seconds ago, and it stays. -/
theorem pending_not_purged :
    ∃ e, Reach Edge.step Always Edge.start e
      ∧ purgeRegistrationFrequency ≤ 2000 - e.previousPurge
      ∧ ∃ p ∈ (e.round 2000 2000).pendingPeers, p.Expired 2000 := by
  have hrun : (run Edge.step Always Edge.start
      [.punchingHole 5000 sampleV4 blankSock 1000, .round 1001 1001]).map
        (fun e => (e.previousPurge, (e.round 2000 2000).pendingPeers))
      = some (1001, [⟨ipv4Sock 5000 sampleV4 blankSock, 1000⟩]) := by
    decide
  obtain ⟨e, hs, hstate⟩ := Option.map_eq_some_iff.mp hrun
  rw [Prod.mk.injEq] at hstate
  refine ⟨e, Reach.refl.run _ hs, ?_, ?_⟩
  · rw [hstate.1]
    decide
  · rw [hstate.2]
    exact ⟨_, List.mem_cons_self, by decide⟩

end Zevent.Upunch

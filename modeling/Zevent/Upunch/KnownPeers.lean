/-
# Peers that acknowledge and peers that come back (`upunch/p2p_punch.c`)

`set_peer_operational` takes the peer that has acknowledged out of `pending_peers`.  It has a
variable `prev` for the entry in front of it but never sets it, so the head of the list becomes
the entry behind the peer, and everything in front is dropped.  The function is modelled on a
heap of `next` pointers here, `setPeerOperationalNodes_refines` connects this model to
`Edge.setPeerOperational` on lists, and `acknowledged_alone_iff` says for which lists the
function does what `Edge.acknowledge` says.

`check_peer` looks for a peer by its port and IPv4 address and leaves it to
`update_peer_address` to find the entry again, which compares whole structures.
`refreshed_iff` says when the entry that was found first is refreshed.
-/
import Zevent.Upunch.Edge

namespace Zevent.Upunch

open Interleaving

/-! ## The acknowledgement on the heap -/

/-- The two lists of `p2p_edge_t` on a heap of `peer_info` nodes. -/
structure PeerNodes where
  pendingPeers : Option ℕ
  knownPeers : Option ℕ
  next : ℕ → Option ℕ
  info : ℕ → PeerInfo

namespace PeerNodes

/-- `find_peer_by_addr`; `fuel` bounds the nodes looked at. -/
def findPeerByAddr (s : PeerNodes) (fuel : ℕ) (list : Option ℕ) (addr : SockMem) :
    Option (Option ℕ) :=
  (Chain.walk s.next (fun a => decide ((s.info a).sock.key = addr.key)) fuel none list).map
    Prod.snd

/-- `set_peer_operational`. -/
def setPeerOperational (s : PeerNodes) (fuel : ℕ) (peer : SockMem) (now : ℤ) :
    Option PeerNodes := do
  let prev : Option ℕ := none
  let scan ← s.findPeerByAddr fuel s.pendingPeers peer
  match scan with
  | none => return s
  | some scan =>
      let s := { s with
        next := Chain.relink s.next prev (s.next scan)
        pendingPeers := Chain.rehead s.pendingPeers prev (s.next scan) }
      let s := { s with
        next := Function.update s.next scan s.knownPeers
        knownPeers := some scan }
      return { s with info := Function.update s.info scan { sock := peer, lastSeen := now } }

/-- The heap has the two lists of an edge, in separate nodes. -/
structure Holds (s : PeerNodes) (e : Edge) (pending known : List ℕ) : Prop where
  pendingChain : Chain s.next s.pendingPeers pending
  knownChain : Chain s.next s.knownPeers known
  separate : pending.Disjoint known
  pendingPeers : pending.map s.info = e.pendingPeers
  knownPeers : known.map s.info = e.knownPeers

/-- The search on the heap ends at the node that the search in the list ends at. -/
theorem findPeerByAddr_spec {s : PeerNodes} {list : Option ℕ} {nodes : List ℕ}
    (h : Chain s.next list nodes) (addr : SockMem) :
    ∃ pre rest, nodes = pre ++ rest
      ∧ s.findPeerByAddr (nodes.length + 1) list addr = some rest.head?
      ∧ Upunch.findPeerByAddr (nodes.map s.info) addr = rest.map s.info := by
  obtain ⟨pre, rest, hnodes, hwalk, hpre, hrest⟩ := Chain.walk_spec
    (fun a => decide ((s.info a).sock.key = addr.key)) none h (Nat.lt_succ_self nodes.length)
  refine ⟨pre, rest, hnodes, ?_, ?_⟩
  · rw [findPeerByAddr, hwalk]
    rfl
  · rw [hnodes, List.map_append, Upunch.findPeerByAddr, List.dropWhile_append_of_pos]
    · cases rest with
      | nil => rfl
      | cons a rest =>
          have hstop := hrest a rfl
          rw [List.map_cons, List.dropWhile_cons_of_neg]
          simpa using hstop
    · intro p hp
      obtain ⟨a, ha, rfl⟩ := List.mem_map.mp hp
      simpa using hpre a ha

/-- What the pointer code does is what the model on lists says. -/
theorem setPeerOperationalNodes_refines {s : PeerNodes} {e : Edge} {pending known : List ℕ}
    (h : s.Holds e pending known) (peer : SockMem) (now : ℤ) :
    ∃ s' pending' known', s.setPeerOperational (pending.length + 1) peer now = some s'
      ∧ s'.Holds (e.setPeerOperational peer now) pending' known' := by
  obtain ⟨pre, rest, rfl, hfind, hlist⟩ := findPeerByAddr_spec h.pendingChain peer
  rw [h.pendingPeers] at hlist
  rw [setPeerOperational, hfind, Edge.setPeerOperational, hlist]
  cases rest with
  | nil => exact ⟨s, _, known, rfl, h⟩
  | cons scan rest =>
      have hnodup := h.pendingChain.nodup
      have hscan : scan ∉ rest :=
        (List.nodup_cons.mp (hnodup.sublist (List.sublist_append_right _ _))).1
      have hknown : scan ∉ known := fun hk => h.separate (by simp) hk
      have hrest : ∀ a ∈ rest, a ≠ scan := fun a ha hscan' => hscan (hscan' ▸ ha)
      have hother : ∀ a ∈ known, a ≠ scan := fun a ha hscan' => hknown (hscan' ▸ ha)
      have hsuffix : Chain s.next (some scan) (scan :: rest) := h.pendingChain.suffix
      have hbehind : Chain s.next (s.next scan) rest := hsuffix.2
      refine ⟨_, rest, scan :: known, rfl, ?_, ?_, ?_, ?_, ?_⟩
      · exact hbehind.congr fun a ha => Function.update_of_ne (hrest a ha) ..
      · refine ⟨rfl, ?_⟩
        show Chain (Function.update s.next scan s.knownPeers)
          (Function.update s.next scan s.knownPeers scan) known
        rw [Function.update_self]
        exact h.knownChain.congr fun a ha => Function.update_of_ne (hother a ha) ..
      · rw [List.disjoint_cons_right]
        exact ⟨hscan, fun a ha => h.separate (List.mem_append_right _ (List.mem_cons_of_mem _ ha))⟩
      · exact List.map_congr_left fun a ha => Function.update_of_ne (hrest a ha) ..
      · show Function.update s.info scan ⟨peer, now⟩ scan
          :: known.map (Function.update s.info scan ⟨peer, now⟩) = ⟨peer, now⟩ :: e.knownPeers
        rw [Function.update_self, ← h.knownPeers]
        exact congrArg _ (List.map_congr_left fun a ha => Function.update_of_ne (hother a ha) ..)

end PeerNodes

/-! ## The acknowledgement of one peer -/

/-- The entry has what `find_peer_by_addr` compares of the address. -/
def PeerInfo.sameKey (addr : SockMem) (p : PeerInfo) : Bool := p.sock.key == addr.key

/-- The entry has the address: the family, the port and the bytes of the family. -/
def PeerInfo.sameAddress (addr : SockMem) (p : PeerInfo) : Bool :=
  p.sock.address == addr.address

/-- What an acknowledgement is for: the pending entry that is the `same` as the peer goes to
the head of `known_peers`, with its socket and the time, and every other entry stays where it
is. -/
def Edge.acknowledge (e : Edge) (same : PeerInfo → Bool) (peer : SockMem) (now : ℤ) : Edge :=
  if e.pendingPeers.any same then
    { e with
      pendingPeers := e.pendingPeers.eraseP same
      knownPeers := ⟨peer, now⟩ :: e.knownPeers }
  else e

/-- Taking another entry out is not taking out the head. -/
theorem cons_eraseP_ne {A : Type} {p : A → Bool} {a : A} {l : List A} (ha : ¬ p a = true)
    (hl : l.any p = true) : a :: l.eraseP p ≠ l := by
  intro heq
  obtain ⟨b, hb, hpb⟩ := List.any_eq_true.mp hl
  obtain ⟨c, front, back, -, hc, hsplit, herase⟩ := List.exists_of_eraseP hb hpb
  -- one element that satisfies `p` is missing
  have hcount := congrArg (List.countP p) heq
  rw [herase, hsplit] at hcount
  simp only [List.countP_cons, List.countP_append, if_neg ha, if_pos hc] at hcount
  omega

/-- For every notion of the same peer that is as fine as the comparison of
`find_peer_by_addr`. -/
theorem setPeerOperational_eq_iff (e : Edge) {same : PeerInfo → Bool} {peer : SockMem}
    (hsame : ∀ p, same p = true → p.sock.key = peer.key) (now : ℤ) :
    e.setPeerOperational peer now = e.acknowledge same peer now
      ↔ (∀ p ∈ e.pendingPeers, p.sock.key ≠ peer.key)
        ∨ ∃ p ∈ e.pendingPeers.head?, same p = true := by
  obtain ⟨known, pending, lastPurge, purges⟩ := e
  rw [Edge.setPeerOperational, Edge.acknowledge]
  dsimp only
  cases hfind : findPeerByAddr pending peer with
  | nil =>
      have hnone := findPeerByAddr_eq_nil hfind
      have hany : ¬ pending.any same = true := by
        intro hany
        obtain ⟨p, hp, hps⟩ := List.any_eq_true.mp hany
        exact hnone p hp (hsame p hps)
      rw [if_neg hany]
      exact ⟨fun _ => .inl hnone, fun _ => rfl⟩
  | cons scan rest =>
      obtain ⟨hkey, hsub⟩ := findPeerByAddr_eq_cons hfind
      have hsplit : pending = pending.takeWhile (fun p => decide (p.sock.key ≠ peer.key))
          ++ scan :: rest := by
        rw [← hfind, findPeerByAddr, List.takeWhile_append_dropWhile]
      have hpre : ∀ p ∈ pending.takeWhile (fun p => decide (p.sock.key ≠ peer.key)),
          p.sock.key ≠ peer.key := fun p hp => by simpa using List.mem_takeWhile_imp hp
      generalize pending.takeWhile (fun p => decide (p.sock.key ≠ peer.key)) = pre at hsplit hpre
      subst hsplit
      have hmem : ¬ ∀ p ∈ pre ++ scan :: rest, p.sock.key ≠ peer.key :=
        fun hall => hall scan (by simp) hkey
      rw [or_iff_right hmem]
      cases pre with
      | nil =>
          rw [List.nil_append, List.head?_cons]
          by_cases hscan : same scan = true
          · rw [List.any_cons, hscan, Bool.true_or, if_pos rfl, List.eraseP_cons_of_pos hscan]
            exact ⟨fun _ => ⟨scan, rfl, hscan⟩, fun _ => rfl⟩
          · refine iff_of_false (fun heq => ?_) (by simpa using hscan)
            split_ifs at heq with hany
            · rw [Edge.mk.injEq, List.eraseP_cons_of_neg hscan] at heq
              rw [List.any_cons, Bool.eq_false_of_not_eq_true hscan, Bool.false_or] at hany
              exact cons_eraseP_ne hscan hany heq.2.1.symm
            · rw [Edge.mk.injEq] at heq
              exact List.cons_ne_self _ _ heq.1
      | cons first pre =>
          have hfirst : ¬ same first = true :=
            fun hs => hpre first List.mem_cons_self (hsame first hs)
          refine iff_of_false (fun heq => ?_) (by simpa using hfirst)
          -- the first entry is dropped
          split_ifs at heq with hany
          · rw [Edge.mk.injEq] at heq
            have hlen := congrArg List.length heq.2.1
            rw [List.length_eraseP, if_pos hany] at hlen
            simp only [List.length_append, List.length_cons] at hlen
            omega
          · rw [Edge.mk.injEq] at heq
            exact List.cons_ne_self _ _ heq.1

/-- **When an acknowledgement moves one peer alone.**  For every edge and every address: the
call moves the pending entry with that address to the head of `known_peers` and leaves every
other entry where it is, or changes nothing when there is none, if and only if no pending
entry has the port and the IPv4 bytes of the address or the first pending entry is the one
with the address.  So it is when addresses are compared as `find_peer_by_addr` does, and when
they are compared as a whole. -/
theorem acknowledged_alone_iff (e : Edge) (peer : SockMem) (now : ℤ) :
    (e.setPeerOperational peer now = e.acknowledge (PeerInfo.sameKey peer) peer now
        ↔ (∀ p ∈ e.pendingPeers, p.sock.key ≠ peer.key)
          ∨ ∃ p ∈ e.pendingPeers.head?, p.sock.key = peer.key)
      ∧ (e.setPeerOperational peer now = e.acknowledge (PeerInfo.sameAddress peer) peer now
        ↔ (∀ p ∈ e.pendingPeers, p.sock.key ≠ peer.key)
          ∨ ∃ p ∈ e.pendingPeers.head?, p.sock.address = peer.address) := by
  have hkey : ∀ p, PeerInfo.sameKey peer p = true ↔ p.sock.key = peer.key :=
    fun p => beq_iff_eq
  have haddress : ∀ p, PeerInfo.sameAddress peer p = true ↔ p.sock.address = peer.address :=
    fun p => beq_iff_eq
  constructor
  · rw [setPeerOperational_eq_iff e (fun p => (hkey p).mp) now]
    simp only [hkey]
  · rw [setPeerOperational_eq_iff e
      (fun p hp => Sock.key_eq_of_address ((haddress p).mp hp)) now]
    simp only [haddress]

/-- Two peers are asked to register. -/
def twoPending : Edge where
  knownPeers := []
  pendingPeers :=
    [⟨ipv4Sock 6000 sampleV4 blankSock, 1001⟩, ⟨ipv4Sock 5000 sampleV4 blankSock, 1000⟩]
  lastPurge := 0
  purges := []

/-- **A pending peer is forgotten.**  The second one acknowledges, and the first one is gone. -/
theorem second_acknowledges :
    Reach Edge.step Always Edge.start twoPending
      ∧ (twoPending.setPeerOperational (ipv4Sock 5000 sampleV4 blankSock) 1002).pendingPeers = []
      ∧ (∀ same, same = PeerInfo.sameKey (ipv4Sock 5000 sampleV4 blankSock)
            ∨ same = PeerInfo.sameAddress (ipv4Sock 5000 sampleV4 blankSock) →
          twoPending.setPeerOperational (ipv4Sock 5000 sampleV4 blankSock) 1002
            ≠ twoPending.acknowledge same (ipv4Sock 5000 sampleV4 blankSock) 1002) := by
  have hreach : Reach Edge.step Always Edge.start _ :=
    (Reach.refl.tail (a := .punchingHole 5000 sampleV4 blankSock 1000) trivial rfl).tail
      (a := .punchingHole 6000 sampleV4 blankSock 1001) trivial rfl
  have hreached : Reach Edge.step Always Edge.start twoPending := hreach
  refine ⟨hreached, by decide, ?_⟩
  rintro same (rfl | rfl) heq
  · have hlen := congrArg (fun e => e.pendingPeers.length) heq
    revert hlen
    decide
  · have hlen := congrArg (fun e => e.pendingPeers.length) heq
    revert hlen
    decide

/-! ## A known peer that registers again -/

namespace Edge

variable {e : Edge} {pre post : List PeerInfo} {p : PeerInfo} {sender : SockMem}

/-- The entry at the place `i` of `known_peers` is of the socket `sock` and was last seen at
the time `now`. -/
def SeenAt (e : Edge) (i : ℕ) (sock : SockMem) (now : ℤ) : Prop :=
  ∃ q, e.knownPeers[i]? = some q ∧ q.sock = sock ∧ q.lastSeen = now

/-- A sender whose key is known is left to `update_peer_address`. -/
theorem checkPeer_known (hknown : e.knownPeers = pre ++ p :: post)
    (hkey : p.sock.key = sender.key) (fromSupernode : UInt16) (now : ℤ) :
    e.checkPeer fromSupernode sender sender now
      = e.updatePeerAddress fromSupernode sender sender now := by
  rw [checkPeer]
  split
  · rename_i hfind
    exact absurd hkey (findPeerByAddr_eq_nil hfind p (by simp [hknown]))
  · rfl

/-- The scan of a list stops at the first entry that fails its test. -/
theorem takeWhile_dropWhile_first {A : Type} {f : A → Bool} {front : List A} {a : A}
    (hfront : ∀ b ∈ front, f b = true) (ha : f a = false) (back : List A) :
    (front ++ a :: back).takeWhile f = front ∧ (front ++ a :: back).dropWhile f = a :: back := by
  rw [List.takeWhile_append_of_pos hfront, List.dropWhile_append_of_pos hfront]
  simp [ha]

/-- An entry found with `memcmp` is refreshed: the first one that is the sender, byte by
byte. -/
theorem updatePeerAddress_found (hknown : e.knownPeers = pre ++ p :: post)
    (hzero : isEmptyIpAddress sender.toSock = false) (hsock : p.sock = sender)
    (hpre : ∀ q ∈ pre, q.sock ≠ sender) (fromSupernode : UInt16) (now : ℤ) :
    e.updatePeerAddress fromSupernode sender sender now
      = { e with knownPeers := pre ++ { p with lastSeen := now } :: post } := by
  have hall : ∀ q ∈ pre, decide (q.sock ≠ sender) = true := by simpa using hpre
  have hstop : decide (p.sock ≠ sender) = false := by simpa using hsock
  have hequal : sockEqual p.sock.toSock sender.toSock = true := by
    rw [hsock]
    simp [sockEqual]
  obtain ⟨htake, hdrop⟩ := takeWhile_dropWhile_first hall hstop post
  rw [updatePeerAddress, hzero, hknown, htake, hdrop]
  simp only [Bool.false_eq_true, if_false, if_pos hequal]

/-- No entry is the sender, byte by byte. -/
theorem updatePeerAddress_missing (hnone : ∀ q ∈ e.knownPeers, q.sock ≠ sender)
    (fromSupernode : UInt16) (now : ℤ) :
    e.updatePeerAddress fromSupernode sender sender now = e := by
  have hdrop : e.knownPeers.dropWhile (fun q => decide (q.sock ≠ sender)) = [] := by
    rw [List.dropWhile_eq_nil_iff]
    simpa using hnone
  rw [updatePeerAddress, hdrop]
  split <;> rfl

/-- Every other entry keeps its time. -/
theorem updatePeerAddress_other (hknown : e.knownPeers = pre ++ p :: post)
    (hzero : isEmptyIpAddress sender.toSock = false)
    (hnot : ¬ (p.sock = sender ∧ ∀ q ∈ pre, q.sock ≠ sender)) (fromSupernode : UInt16)
    (now : ℤ) :
    (e.updatePeerAddress fromSupernode sender sender now).knownPeers[pre.length]? = some p := by
  have hold : e.knownPeers[pre.length]? = some p := by
    rw [hknown, List.getElem?_append_right le_rfl, Nat.sub_self]
    rfl
  by_cases hnone : ∀ q ∈ e.knownPeers, q.sock ≠ sender
  · rw [updatePeerAddress_missing hnone]
    exact hold
  · -- the first entry that is the sender is another one
    obtain ⟨q, hfind⟩ : ∃ q, e.knownPeers.find? (fun q => q.sock = sender) = some q := by
      rw [← Option.isSome_iff_exists, List.find?_isSome]
      simpa using hnone
    rw [List.find?_eq_some_iff_append] at hfind
    obtain ⟨hq, front, back, hsplit, hfront⟩ := hfind
    have hq : q.sock = sender := by simpa using hq
    have hfront : ∀ r ∈ front, r.sock ≠ sender := by simpa using hfront
    rw [updatePeerAddress_found hsplit hzero hq hfront]
    have hplace : front.length ≠ pre.length := by
      intro hlen
      obtain ⟨rfl, hrest⟩ := List.append_inj (hsplit.symm.trans hknown) hlen
      rw [List.cons.injEq] at hrest
      exact hnot ⟨hrest.1 ▸ hq, hfront⟩
    rw [hsplit] at hold
    dsimp only
    rw [← hold]
    rcases Nat.lt_or_gt_of_ne hplace with hlt | hgt
    · obtain ⟨k, hk⟩ := Nat.exists_eq_add_of_lt hlt
      rw [List.getElem?_append_right hlt.le, List.getElem?_append_right hlt.le, hk]
      simp [Nat.add_assoc]
    · rw [List.getElem?_append_left hgt, List.getElem?_append_left hgt]

/-- **When a known peer is refreshed.**  For every edge and every REGISTER whose sender has
the port and the IPv4 address of an entry of `known_peers`, of whatever family, and is not
zero, direct or through the supernode: `check_peer` sets the time of that entry to the current
one, at every time, if and only if the entry is the first one whose structure equals the
sender's in all bytes, the unused ones included. -/
theorem refreshed_iff (fromSupernode : UInt16) (hknown : e.knownPeers = pre ++ p :: post)
    (hport : p.sock.port = sender.port) (hv4 : p.sock.v4 = sender.v4)
    (hzero : isEmptyIpAddress sender.toSock = false) :
    (∀ now, (e.checkPeer fromSupernode sender sender now).SeenAt pre.length p.sock now)
      ↔ p.sock = sender ∧ ∀ q ∈ pre, q.sock ≠ sender := by
  have hkey : p.sock.key = sender.key := by rw [Sock.key, Sock.key, hport, hv4]
  simp only [checkPeer_known hknown hkey]
  constructor
  · intro hseen
    by_contra hnot
    -- the entry has kept its time, which is not the next second as well
    obtain ⟨q, hq, -, hnow⟩ := hseen (p.lastSeen + 1)
    rw [updatePeerAddress_other hknown hzero hnot, Option.some.injEq] at hq
    rw [← hq] at hnow
    omega
  · rintro ⟨hsock, hpre⟩ now
    rw [updatePeerAddress_found hknown hzero hsock hpre]
    refine ⟨{ p with lastSeen := now }, ?_, rfl, rfl⟩
    dsimp only
    rw [List.getElem?_append_right le_rfl, Nat.sub_self]
    rfl

end Edge

/-- An edge that knows one peer. -/
def oneKnown : Edge where
  knownPeers := [⟨ipv4Sock 5000 sampleV4 blankSock, 1001⟩]
  pendingPeers := []
  lastPurge := 0
  purges := []

theorem refreshed_iff_same_bytes :
    (oneKnown.checkPeer 0 (ipv4Sock 5000 sampleV4 blankSock)
      (ipv4Sock 5000 sampleV4 blankSock) 2000).SeenAt 0 (ipv4Sock 5000 sampleV4 blankSock)
        2000 := by
  have hknown : oneKnown.knownPeers = [] ++ ⟨ipv4Sock 5000 sampleV4 blankSock, 1001⟩ :: [] := rfl
  exact (Edge.refreshed_iff 0 hknown rfl rfl (by decide)).mpr
    ⟨rfl, fun q hq => absurd hq List.not_mem_nil⟩ 2000

/-- **A known peer is not refreshed.**  It has acknowledged while the byte of padding was zero,
and registers while it is one: from the same family, port and address. -/
theorem padding_not_refreshed :
    let sender := ipv4Sock 5000 sampleV4 { blankSock with pad := 1 }
    Reach Edge.step Always Edge.start oneKnown
      ∧ (∀ p ∈ oneKnown.knownPeers, p.sock.address = sender.address)
      ∧ isEmptyIpAddress sender.toSock = false
      ∧ (oneKnown.checkPeer 0 sender sender 2000).knownPeers = oneKnown.knownPeers := by
  have hreach : Reach Edge.step Always Edge.start _ :=
    (Reach.refl.tail (a := .punchingHole 5000 sampleV4 blankSock 1000) trivial rfl).tail
      (a := .registerAck 5000 sampleV4 blankSock 1001) trivial rfl
  have hreached : Reach Edge.step Always Edge.start oneKnown := hreach
  exact ⟨hreached, by decide, by decide, by decide⟩

end Zevent.Upunch

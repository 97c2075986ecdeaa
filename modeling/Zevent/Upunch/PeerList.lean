/-
# Lists of peers (`upunch/punch_common.c`)

An edge keeps its peers in singly linked lists of `peer_info`.  The lists are Lean lists
here, head first; a pointer into a list is the part of the list that starts there.

`purge_peer_list` is the one function that rewires a list in its middle, so it is also
modelled on a heap of `next` pointers (`purgeScan`); `purgeScan_refines` says that what it
does to the list is `purgePeerList`, a filter.
-/
import Mathlib.Tactic
import Zevent.Lib.Chain
import Zevent.Upunch.Wire

namespace Zevent.Upunch

/-! ## Peers -/

/-- A `p2p_sock_t` in memory: `memcmp` also sees the byte between the family and the port. -/
structure SockMem extends Sock where
  pad : UInt8
  deriving DecidableEq

/-- The fields of `peer_info` that an edge uses. -/
structure PeerInfo where
  sock : SockMem
  lastSeen : ℤ
  deriving DecidableEq

/-- `addr.v4`. -/
def Sock.v4 (s : Sock) : Bytes 4 := Upunch.v4 s.addr

/-- What `find_peer_by_addr` compares. -/
def Sock.key (s : Sock) : UInt16 × Bytes 4 := (s.port, s.v4)

/-- `find_peer_by_addr`: the list from the first entry with the port and the four address
bytes on; empty is `NULL`. -/
def findPeerByAddr (list : List PeerInfo) (addr : SockMem) : List PeerInfo :=
  list.dropWhile fun p => p.sock.key ≠ addr.key

/-- `peer_list_add`. -/
def peerListAdd (list : List PeerInfo) (new : PeerInfo) (now : ℤ) : List PeerInfo :=
  { new with lastSeen := now } :: list

/-- `purge_peer_list`: the entries seen since. -/
def purgePeerList (list : List PeerInfo) (purgeBefore : ℤ) : List PeerInfo :=
  list.filter fun p => ¬ p.lastSeen < purgeBefore

/-! ## The purge on the heap -/

/-- The variables of `purge_peer_list` that outlive a round of its loop. -/
structure PurgeRun where
  head : Option ℕ
  next : ℕ → Option ℕ
  retval : ℕ

/-- The loop of `purge_peer_list`, with the `last_seen` of each node; `none` when the rounds
do not suffice. -/
def purgeScan (lastSeen : ℕ → ℤ) (purgeBefore : ℤ) :
    ℕ → Option ℕ → Option ℕ → PurgeRun → Option PurgeRun
  | _, none, _, r => some r
  | 0, some _, _, _ => none
  | fuel + 1, some scan, prev, r =>
      if lastSeen scan < purgeBefore then
        let next := r.next scan
        let r := match prev with
          | none => { r with head := next }
          | some p => { r with next := Function.update r.next p next }
        purgeScan lastSeen purgeBefore fuel next prev { r with retval := r.retval + 1 }
      else purgeScan lastSeen purgeBefore fuel (r.next scan) (some scan) r

/-- The loop in the middle of a list: `pre` has been kept, `prev` is its end, and `l` is still
to be scanned. -/
theorem purgeScan_chain (lastSeen : ℕ → ℤ) (purgeBefore : ℤ) {l pre : List ℕ} {r : PurgeRun}
    {scan prev : Option ℕ} {fuel : ℕ} (hlist : Chain r.next r.head (pre ++ l))
    (hscan : Chain r.next scan l) (hprev : prev = pre.getLast?) (hfuel : l.length ≤ fuel) :
    ∃ r', purgeScan lastSeen purgeBefore fuel scan prev r = some r'
      ∧ Chain r'.next r'.head (pre ++ l.filter fun a => ¬ lastSeen a < purgeBefore)
      ∧ r'.retval = r.retval + l.countP fun a => lastSeen a < purgeBefore := by
  induction l generalizing pre r scan prev fuel with
  | nil =>
      rw [Chain.nil_iff] at hscan
      subst hscan
      refine ⟨r, ?_, by simpa using hlist, by simp⟩
      unfold purgeScan
      cases fuel <;> rfl
  | cons a rest ih =>
      obtain ⟨rfl, hrest⟩ := hscan
      obtain ⟨fuel, rfl⟩ : ∃ f, fuel = f + 1 := ⟨fuel - 1, by simp at hfuel; omega⟩
      rw [List.length_cons, Nat.add_le_add_iff_right] at hfuel
      unfold purgeScan
      by_cases hold : lastSeen a < purgeBefore
      · rw [if_pos hold, List.filter_cons_of_neg (by simp [hold]),
          List.countP_cons_of_pos (by simpa using hold)]
        rcases List.eq_nil_or_concat pre with rfl | ⟨front, b, rfl⟩
        · -- the head of the list goes
          subst hprev
          obtain ⟨r', hr', hchain, hcount⟩ := @ih [] ⟨r.next a, r.next, r.retval + 1⟩ (r.next a)
            none fuel hrest hrest rfl hfuel
          exact ⟨r', hr', hchain, by rw [hcount]; ring⟩
        · -- an inner node goes: its predecessor `b` is relinked
          rw [List.concat_eq_append] at hlist hprev ⊢
          have hb : prev = some b := by rw [hprev, List.getLast?_concat]
          subst hb
          rw [List.append_assoc, List.singleton_append] at hlist
          have hnodup : (b :: a :: rest).Nodup :=
            hlist.nodup.sublist (List.sublist_append_right _ _)
          have hrest' : Chain (Function.update r.next b (r.next a)) (r.next a) rest := by
            apply hrest.congr
            intro c hc
            rw [Function.update_of_ne]
            rintro rfl
            exact (List.nodup_cons.mp hnodup).1 (List.mem_cons_of_mem _ hc)
          have hlist' := hlist.unlink
          rw [List.append_cons] at hlist'
          obtain ⟨r', hr', hchain, hcount⟩ := @ih (front ++ [b])
            ⟨r.head, Function.update r.next b (r.next a), r.retval + 1⟩ (r.next a) (some b) fuel
            hlist' hrest' hprev hfuel
          exact ⟨r', hr', hchain, by rw [hcount]; ring⟩
      · rw [if_neg hold, List.filter_cons_of_pos (by simpa using hold),
          List.countP_cons_of_neg (by simpa using hold)]
        rw [List.append_cons] at hlist ⊢
        exact @ih (pre ++ [a]) r (r.next a) (some a) fuel hlist hrest (by simp) hfuel

/-- The loop does to the list of a heap what `purgePeerList` says, and returns the number of
entries that went. -/
theorem purgeScan_refines (info : ℕ → PeerInfo) (purgeBefore : ℤ) {next : ℕ → Option ℕ}
    {head : Option ℕ} {l : List ℕ} (h : Chain next head l) :
    ∃ head' next' n l',
      purgeScan (fun a => (info a).lastSeen) purgeBefore l.length head none ⟨head, next, 0⟩
        = some ⟨head', next', n⟩
      ∧ Chain next' head' l' ∧ l'.map info = purgePeerList (l.map info) purgeBefore
      ∧ n + l'.length = l.length := by
  obtain ⟨r', hr', hchain, hcount⟩ := @purgeScan_chain (fun a => (info a).lastSeen) purgeBefore
    l [] ⟨head, next, 0⟩ head none l.length h h rfl le_rfl
  refine ⟨r'.head, r'.next, r'.retval, _, hr', hchain, ?_, ?_⟩
  · rw [List.nil_append, purgePeerList, List.filter_map]
    rfl
  · have hsplit :=
      List.length_eq_countP_add_countP (fun a => (info a).lastSeen < purgeBefore) (l := l)
    rw [hcount, List.nil_append, hsplit, List.countP_eq_length_filter, List.countP_eq_length_filter]
    simp

end Zevent.Upunch

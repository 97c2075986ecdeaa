/-
# The lifecycle of a peer (`znet_peer.c`, `znet_server.c`)

The event-loop thread creates peers and kills them; application threads look a peer up in
`ptbl`, raise its `refcount`, work on it and lower the count again, killing it when
`fdev_enable` failed.  `peer_kill` disconnects a peer once, and releases it when it can
change `refcount` from 0 to 1.

A peer killed while a call holds a reference is not released by that `peer_kill`, and the
call that holds the reference lowers the count without looking at the peer again: the peer
stays in the table, disconnected, for ever (`referenced_kill_run`).  `peers_accounted` says
that the accounting is right in every run in which the last reference to a disconnected
peer is not lowered that way, in which `gen_peerid` makes no identifier that is in the
table, and in which the memory of a released peer, which `peer_kill` still reads for
`ptbl_remove`, is not handed out again while something refers to it.

A compare-and-swap, a `fetch_and_add`, a lock section of `ptbl_mutex` and a call of
`fdev_new` or `fdev_enable` are one step each; giving the mutex up is merged with the step
before it.  A peer is named by its place in the order of creation.
-/
import Mathlib.Tactic
import Zevent.Lib.Interleaving

namespace Zevent.Znet

open Interleaving

/-! ## Peers and the calls that work on them -/

/-- `struct peer`, with the number of times its memory was released.  A call in progress
adds one to `refcount` at most, so the 32 bits do not overflow and the field is an
integer. -/
structure Peer where
  id : ℕ
  connected : Bool
  refcount : ℤ
  released : ℕ
deriving DecidableEq, Repr

/-- The calls that take a reference: `ns_getpeeraddr`, `ns_sendmsg`, `ns_broadcastmsg`. -/
inductive PeerUse
  | getaddr
  | send
  | broadcast
deriving DecidableEq, Repr

/-- Where a thread is in `peer_kill`: before the change of `status`, of `refcount`, between
the two in the branch that closes the socket, before `mfree`, and before the lock section
that removes the peer from the table. -/
inductive KillStage
  | status
  | close
  | claim
  | free
  | remove
deriving DecidableEq, Repr

/-- Where a thread is.  `created` is `peer_create_in` before `fdev_new`; `checked` holds
`ptbl_mutex` and has found the peer connected; `holding` has raised `refcount`; the flag of
`kill` says that the caller is `ns_broadcastmsg`, which locks the mutex again afterwards
(`relock`); `broadcasting` is the loop of `ns_broadcastmsg`. -/
inductive PeerPc
  | idle
  | created (p : ℕ)
  | checked (use : PeerUse) (p : ℕ)
  | holding (use : PeerUse) (p : ℕ)
  | kill (stage : KillStage) (broadcast : Bool) (p : ℕ)
  | broadcasting
  | relock
deriving DecidableEq, Repr

namespace PeerPc

/-- The peer a thread works on. -/
def peer : PeerPc → Option ℕ
  | .created p => some p
  | .checked _ p => some p
  | .holding _ p => some p
  | .kill _ _ p => some p
  | _ => none

/-- The thread holds a reference to `p`. -/
def holds (p : ℕ) : PeerPc → Bool
  | .holding _ q => q == p
  | _ => false

/-- The thread has claimed `p` and is about to release it. -/
def frees (p : ℕ) : PeerPc → Bool
  | .kill .free _ q => q == p
  | _ => false

/-- The thread has released `p` and is about to remove it from the table. -/
def removes (p : ℕ) : PeerPc → Bool
  | .kill .remove _ q => q == p
  | _ => false

/-- The thread is past the change of `status` of `p`. -/
def pastStatus (p : ℕ) : PeerPc → Bool
  | .kill .close _ q => q == p
  | .kill .claim _ q => q == p
  | _ => false

/-- The thread holds a reference to `p`, or is going to take one, or has the test of
`refcount` in `peer_kill` before it. -/
def atWork (p : ℕ) : PeerPc → Bool
  | .checked _ q => q == p
  | .holding _ q => q == p
  | .kill .status _ q => q == p
  | .kill .close _ q => q == p
  | .kill .claim _ q => q == p
  | _ => false

/-- Where a call goes on after the successful path of a peer. -/
def afterUse : PeerUse → PeerPc
  | .broadcast => .broadcasting
  | _ => .idle

/-- Where `peer_kill` returns to. -/
def afterKill : Bool → PeerPc
  | true => .relock
  | false => .idle

end PeerPc

/-- `net_server_t`, with the statics `tm_last` and `fudge` of `gen_peerid`.  `ptbl` lists the
peers newest first: the chains of the hash table keep that order among peers with one key,
which is what `ptbl_find` and `ptbl_remove` depend on.  `npeers` is bounded by `max_peers`
and is an integer here. -/
structure NetServer (τ : Type) where
  peers : ℕ → Peer
  next : ℕ
  ptbl : List ℕ
  npeers : ℤ
  ptblMutex : Option τ
  tmLast : ℕ
  fudge : ℕ
  pc : τ → PeerPc

/-- `UINT_MAX`. -/
def uintMax : ℕ := 2 ^ 32 - 1

/-- `gen_peerid`: the statics afterwards, and the identifier.  `peer_create_in` does not look
at the result: where the function fails, the identifier is the zero that `memset` wrote. -/
def genPeerid (tmLast fudge tmNow : ℕ) : (ℕ × ℕ) × ℕ :=
  if tmLast ≠ tmNow then ((tmNow, 0), (tmNow <<< 32) % 2 ^ 64 ||| 0)
  else if fudge ≥ uintMax - 1 then ((tmLast, fudge), 0)
  else ((tmLast, fudge + 1), (tmNow <<< 32) % 2 ^ 64 ||| (fudge + 1))

/-- The moves.  `create` carries what `time` returns; `lookup` is the first part of
`ns_getpeeraddr` and `ns_sendmsg`; `pick` is a round of the loop of `ns_broadcastmsg`, at
the peer the iterator is on; `reuse` hands the memory of a released peer out again, to be
overwritten by its new owner. -/
inductive PeerAction (τ : Type)
  | create (tmNow : ℕ)
  | fdevNew
  | loopKill (p : ℕ)
  | lookup (t : τ) (send : Bool) (id : ℕ)
  | take (t : τ)
  | dropOk (t : τ)
  | dropFail (t : τ)
  | killStep (t : τ)
  | bcastStart (t : τ)
  | pick (t : τ) (p : ℕ)
  | bcastEnd (t : τ)
  | relock (t : τ)
  | reuse (p : ℕ) (id : ℕ)

namespace NetServer

variable {τ : Type} [DecidableEq τ]

/-- Thread `t` goes to `x`. -/
def goto (s : NetServer τ) (t : τ) (x : PeerPc) : NetServer τ :=
  { s with pc := Function.update s.pc t x }

/-- Write the record of peer `p`. -/
def setPeer (s : NetServer τ) (p : ℕ) (r : Peer) : NetServer τ :=
  { s with peers := Function.update s.peers p r }

/-- `ptbl_find`. -/
def ptblFind (s : NetServer τ) (id : ℕ) : Option ℕ :=
  s.ptbl.find? fun q => (s.peers q).id == id

/-- `ptbl_remove`. -/
def ptblRemove (s : NetServer τ) (id : ℕ) : List ℕ :=
  s.ptbl.eraseP fun q => (s.peers q).id == id

/-- `peer_create_in` up to the end of its lock section, by the event loop. -/
def create (s : NetServer τ) (loop : τ) (tmNow : ℕ) : NetServer τ :=
  let g := genPeerid s.tmLast s.fudge tmNow
  { s with
    peers := Function.update s.peers s.next ⟨g.2, true, 0, 0⟩
    next := s.next + 1
    ptbl := s.next :: s.ptbl
    npeers := s.npeers + 1
    tmLast := g.1.1
    fudge := g.1.2
    pc := Function.update s.pc loop (.created s.next) }

/-- The part of a call that raises the count: `ns_broadcastmsg` keeps the mutex, the other
two give it up. -/
def take (s : NetServer τ) (t : τ) (use : PeerUse) (p : ℕ) : NetServer τ :=
  let m := match use with
    | .broadcast => s.ptblMutex
    | _ => none
  { s with
    peers := Function.update s.peers p { s.peers p with refcount := (s.peers p).refcount + 1 }
    ptblMutex := m
    pc := Function.update s.pc t (.holding use p) }

/-- Lower the count and go to `x`, with the mutex as `m`. -/
def drop (s : NetServer τ) (t : τ) (p : ℕ) (m : Option τ) (x : PeerPc) : NetServer τ :=
  { s with
    peers := Function.update s.peers p { s.peers p with refcount := (s.peers p).refcount - 1 }
    ptblMutex := m
    pc := Function.update s.pc t x }

/-- One step of `peer_kill`.  `mfree` comes before `ptbl_remove`, which reads the identifier
from the released memory. -/
def killStep (s : NetServer τ) (t : τ) (stage : KillStage) (b : Bool) (p : ℕ) :
    Option (NetServer τ) :=
  let r := s.peers p
  match stage with
  | .status =>
      if r.connected then
        some ((s.setPeer p { r with connected := false }).goto t (.kill .close b p))
      else some (s.goto t (.kill .claim b p))
  | .close => some (s.goto t (.kill .claim b p))
  | .claim =>
      if r.refcount = 0 then some ((s.setPeer p { r with refcount := 1 }).goto t (.kill .free b p))
      else some (s.goto t (PeerPc.afterKill b))
  | .free => some ((s.setPeer p { r with released := r.released + 1 }).goto t (.kill .remove b p))
  | .remove =>
      if s.ptblMutex = none then
        some ({ s with ptbl := s.ptblRemove r.id, npeers := s.npeers - 1 }.goto t
          (PeerPc.afterKill b))
      else none

/-- One step; `loop` is the event-loop thread, which can also make the calls of an
application thread, from `msg_func`. -/
def step (loop : τ) (s : NetServer τ) : PeerAction τ → Option (NetServer τ)
  | .create tmNow =>
      if s.pc loop = .idle ∧ s.ptblMutex = none then some (s.create loop tmNow) else none
  | .fdevNew =>
      match s.pc loop with
      | .created _ => some (s.goto loop .idle)
      | _ => none
  | .loopKill p =>
      if s.pc loop = .idle ∧ p < s.next then some (s.goto loop (.kill .status false p)) else none
  | .lookup t send id =>
      if s.pc t = .idle ∧ s.ptblMutex = none then
        match s.ptblFind id with
        | none => some s
        | some p =>
            if (s.peers p).connected then
              some ({ s with ptblMutex := some t }.goto t
                (.checked (if send then .send else .getaddr) p))
            else some s
      else none
  | .take t =>
      match s.pc t with
      | .checked use p => some (s.take t use p)
      | _ => none
  | .dropOk t =>
      match s.pc t with
      | .holding use p => some (s.drop t p s.ptblMutex (PeerPc.afterUse use))
      | _ => none
  | .dropFail t =>
      match s.pc t with
      | .holding .send p => some (s.drop t p s.ptblMutex (.kill .status false p))
      | .holding .broadcast p => some (s.drop t p none (.kill .status true p))
      | _ => none
  | .killStep t =>
      match s.pc t with
      | .kill stage b p => s.killStep t stage b p
      | _ => none
  | .bcastStart t =>
      if s.pc t = .idle ∧ s.ptblMutex = none then
        some ({ s with ptblMutex := some t }.goto t .broadcasting)
      else none
  | .pick t p =>
      if s.pc t = .broadcasting ∧ p ∈ s.ptbl then
        if (s.peers p).connected then some (s.goto t (.checked .broadcast p)) else some s
      else none
  | .bcastEnd t =>
      if s.pc t = .broadcasting then some ({ s with ptblMutex := none }.goto t .idle) else none
  | .relock t =>
      if s.pc t = .relock ∧ s.ptblMutex = none then
        some ({ s with ptblMutex := some t }.goto t .broadcasting)
      else none
  | .reuse p id =>
      if (s.peers p).released ≠ 0 then
        some (s.setPeer p { s.peers p with id := id })
      else none

/-- The server after `ns_start_daemon`. -/
def start : NetServer τ where
  peers := fun _ => ⟨0, false, 0, 0⟩
  next := 0
  ptbl := []
  npeers := 0
  ptblMutex := none
  tmLast := 0
  fudge := 0
  pc := fun _ => .idle

/-- Lowering the count of `p` leaves the peer to somebody: it is connected, or claimed by a
`peer_kill`, or another thread still works on it. -/
def DropsSafely (s : NetServer τ) (t : τ) (p : ℕ) : Prop :=
  (s.peers p).connected = true ∨ (s.peers p).released ≠ 0 ∨ (∃ u, (s.pc u).frees p = true)
    ∨ ∃ u, u ≠ t ∧ (s.pc u).atWork p = true

/-- The condition on a step. -/
def Safe (s : NetServer τ) : PeerAction τ → Prop
  | .create tmNow => ∀ q ∈ s.ptbl, (s.peers q).id ≠ (genPeerid s.tmLast s.fudge tmNow).2
  | .dropOk t => ∀ p ∈ (s.pc t).peer, s.DropsSafely t p
  | .reuse p _ => p ∉ s.ptbl ∧ ∀ t, (s.pc t).peer ≠ some p
  | _ => True

/-- The accounting, for a state in which no call is in progress: the table holds exactly the
connected peers, `npeers` is its size, and the disconnected peers have been released once. -/
structure Accounted (s : NetServer τ) : Prop where
  nodup : s.ptbl.Nodup
  table : ∀ p, p ∈ s.ptbl ↔ p < s.next ∧ (s.peers p).connected = true
  size : s.npeers = s.ptbl.length
  released : ∀ p < s.next,
    (s.peers p).released = if (s.peers p).connected then 0 else 1

/-! ## One peer -/

variable [Fintype τ]

instance (s : NetServer τ) (t : τ) (p : ℕ) : Decidable (s.DropsSafely t p) :=
  inferInstanceAs (Decidable (_ ∨ _ ∨ _ ∨ _))

instance (s : NetServer τ) (a : PeerAction τ) : Decidable (s.Safe a) :=
  match a with
  | .create _ => inferInstanceAs (Decidable (∀ q ∈ s.ptbl, _))
  | .dropOk t => inferInstanceAs (Decidable (∀ p ∈ (s.pc t).peer, s.DropsSafely t p))
  | .reuse .. => inferInstanceAs (Decidable (_ ∧ _))
  | .fdevNew => inferInstanceAs (Decidable True)
  | .loopKill _ => inferInstanceAs (Decidable True)
  | .lookup .. => inferInstanceAs (Decidable True)
  | .take _ => inferInstanceAs (Decidable True)
  | .dropFail _ => inferInstanceAs (Decidable True)
  | .killStep _ => inferInstanceAs (Decidable True)
  | .bcastStart _ => inferInstanceAs (Decidable True)
  | .pick .. => inferInstanceAs (Decidable True)
  | .bcastEnd _ => inferInstanceAs (Decidable True)
  | .relock _ => inferInstanceAs (Decidable True)

/-- The number of threads at a place. -/
def count (f : PeerPc → Bool) (pc : τ → PeerPc) : ℕ := phaseCount (fun x => f x = true) pc

/-- Counting threads when one of them moves. -/
theorem count_update (f : PeerPc → Bool) (pc : τ → PeerPc) (t : τ) (x : PeerPc) :
    count f (Function.update pc t x) + (f (pc t)).toNat = count f pc + (f x).toNat := by
  have h := phaseCount_update (fun x => f x = true) pc t x
  rw [count, count, Bool.toNat, Bool.toNat, Bool.cond_eq_ite, Bool.cond_eq_ite]
  exact h

/-- The invariant of one peer with record `r`, when `tbl` is the table.  The count is made of
the references, and of one more when the peer is claimed; a peer is claimed at most once,
and only when it is disconnected; a disconnected peer is claimed or somebody works on it;
and it is in the table until it is released and removed. -/
structure PeerInv (pc : τ → PeerPc) (r : Peer) (tbl : List ℕ) (p : ℕ) : Prop where
  refs : r.refcount = count (·.holds p) pc + count (·.frees p) pc + r.released
  once : count (·.frees p) pc + r.released ≤ 1
  live : r.connected = true → count (·.frees p) pc + r.released = 0
  work : r.connected = false →
    count (·.frees p) pc + r.released = 1 ∨ ∃ t, (pc t).atWork p = true
  table : (if p ∈ tbl then 1 else 0) + r.released = 1 + count (·.removes p) pc
  past : ∀ t, (pc t).pastStatus p = true → r.connected = false

variable {pc : τ → PeerPc} {r r' : Peer} {tbl tbl' : List ℕ} {p q : ℕ} {t : τ} {x : PeerPc}

omit [DecidableEq τ] in
/-- A disconnected peer on which thread `t` does not work is claimed, or somebody else works
on it. -/
theorem PeerInv.elsewhere (h : PeerInv pc r tbl p) (hconn : r.connected = false)
    (ht : (pc t).atWork p = false) :
    0 < count (·.frees p) pc + r.released ∨ ∃ u, u ≠ t ∧ (pc u).atWork p = true := by
  rcases h.work hconn with hclaimed | ⟨u, hu⟩
  · exact .inl (by omega)
  · refine .inr ⟨u, ?_, hu⟩
    rintro rfl
    rw [ht] at hu
    exact Bool.false_ne_true hu

/-- **The accounting of a move.**  Thread `t` goes to `x` and changes the record and the
table: the count changes by the references and claims the thread takes or gives back, a
claim is kept or is a new one on a count of zero, a connection never comes back, and a
disconnected peer stays claimed or in somebody's hands. -/
theorem PeerInv.move (h : PeerInv pc r tbl p)
    (hrefs : r'.refcount + ((pc t).holds p).toNat + ((pc t).frees p).toNat + r.released
      = r.refcount + (x.holds p).toNat + (x.frees p).toNat + r'.released)
    (hclaim : (x.frees p).toNat + r'.released = ((pc t).frees p).toNat + r.released
      ∨ r.refcount = 0 ∧ r'.connected = false
        ∧ (x.frees p).toNat + r'.released = 1 + ((pc t).frees p).toNat + r.released)
    (hconn : r'.connected = true → r.connected = true)
    (hwork : r'.connected = false →
      ((pc t).frees p).toNat + r.released < (x.frees p).toNat + r'.released
      ∨ 0 < count (·.frees p) pc + r.released
      ∨ x.atWork p = true ∨ ∃ u, u ≠ t ∧ (pc u).atWork p = true)
    (htable : (if p ∈ tbl' then 1 else 0) + r'.released + ((pc t).removes p).toNat
      = (if p ∈ tbl then 1 else 0) + r.released + (x.removes p).toNat)
    (hpast : x.pastStatus p = true → r'.connected = false) :
    PeerInv (Function.update pc t x) r' tbl' p := by
  have hholds := count_update (·.holds p) pc t x
  have hfrees := count_update (·.frees p) pc t x
  have hremoves := count_update (·.removes p) pc t x
  have holdrefs := h.refs
  have holdonce := h.once
  have honce : count (·.frees p) (Function.update pc t x) + r'.released ≤ 1 := by
    rcases hclaim with hkept | ⟨hzero, -, hnew⟩ <;> omega
  refine ⟨by omega, honce, fun hc => ?_, fun hc => ?_, ?_, fun u hu => ?_⟩
  · have hlive := h.live (hconn hc)
    rcases hclaim with hkept | ⟨-, hdis, -⟩
    · omega
    · rw [hdis] at hc
      exact absurd hc Bool.false_ne_true
  · rcases hwork hc with hnew | hclaimed | hx | ⟨u, hne, hu⟩
    · exact .inl (by omega)
    · refine .inl ?_
      rcases hclaim with hkept | ⟨-, -, hnew⟩ <;> omega
    · exact .inr ⟨t, by rwa [Function.update_self]⟩
    · exact .inr ⟨u, by rwa [Function.update_of_ne hne]⟩
  · have holdtable := h.table
    omega
  · by_cases hut : u = t
    · subst hut
      rw [Function.update_self] at hu
      exact hpast hu
    · rw [Function.update_of_ne hut] at hu
      have hdis := h.past u hu
      by_contra hc
      rw [hconn (by simpa using hc)] at hdis
      exact Bool.false_ne_true hdis.symm

/-- A thread that does not work on `q` is at none of its places. -/
theorem places_of_peer_ne (hx : x.peer ≠ some q) : x.holds q = false ∧ x.frees q = false
    ∧ x.removes q = false ∧ x.pastStatus q = false ∧ x.atWork q = false := by
  cases x with
  | kill stage b p =>
      have hne : p ≠ q := fun he => hx (by rw [he]; rfl)
      cases stage <;>
        simp [PeerPc.holds, PeerPc.frees, PeerPc.removes, PeerPc.pastStatus, PeerPc.atWork, hne]
  | _ =>
      simp_all [PeerPc.peer, PeerPc.holds, PeerPc.frees, PeerPc.removes, PeerPc.pastStatus,
        PeerPc.atWork]

/-- A move that takes or gives back no reference and no claim, and leaves the record. -/
theorem PeerInv.walk (h : PeerInv pc r tbl p) (hholds : x.holds p = (pc t).holds p)
    (hfrees : x.frees p = (pc t).frees p) (hremoves : x.removes p = (pc t).removes p)
    (htbl : p ∈ tbl' ↔ p ∈ tbl)
    (hwork : r.connected = false → 0 < count (·.frees p) pc + r.released
      ∨ x.atWork p = true ∨ ∃ u, u ≠ t ∧ (pc u).atWork p = true)
    (hpast : x.pastStatus p = true → r.connected = false) :
    PeerInv (Function.update pc t x) r tbl' p := by
  refine h.move ?_ (.inl ?_) id (fun hc => .inr (hwork hc)) ?_ hpast
  · rw [hholds, hfrees]
  · rw [hfrees]
  · rw [hremoves]
    simp only [htbl]

/-- What a thread that works on another peer does is not seen. -/
theorem PeerInv.frame (h : PeerInv pc r tbl q) (hold : (pc t).peer ≠ some q)
    (hnew : x.peer ≠ some q) (htbl : q ∈ tbl' ↔ q ∈ tbl) :
    PeerInv (Function.update pc t x) r tbl' q := by
  obtain ⟨hholds, hfrees, hremoves, -, hwork⟩ := places_of_peer_ne hold
  obtain ⟨hholds', hfrees', hremoves', hpast', -⟩ := places_of_peer_ne hnew
  refine h.walk (hholds'.trans hholds.symm) (hfrees'.trans hfrees.symm)
    (hremoves'.trans hremoves.symm) htbl (fun hc => ?_) fun hp => ?_
  · exact (h.elsewhere hc hwork).imp_right .inr
  · rw [hpast'] at hp
    exact absurd hp Bool.false_ne_true

/-! ## The whole server -/

/-- The invariant of the server. -/
structure Inv (s : NetServer τ) : Prop where
  peer : ∀ p < s.next, PeerInv s.pc (s.peers p) s.ptbl p
  refers : ∀ t p, (s.pc t).peer = some p → p < s.next
  known : ∀ p ∈ s.ptbl, p < s.next
  nodup : s.ptbl.Nodup
  keys : ∀ p ∈ s.ptbl, ∀ q ∈ s.ptbl, (s.peers p).id = (s.peers q).id → p = q
  size : s.npeers = s.ptbl.length

variable {s s' : NetServer τ}

omit [DecidableEq τ] in
/-- At the beginning. -/
theorem start_inv : (start : NetServer τ).Inv where
  peer p hp := absurd hp (Nat.not_lt_zero p)
  refers t p ht := by
    rw [start] at ht
    cases ht
  known p hp := absurd hp List.not_mem_nil
  nodup := List.nodup_nil
  keys p hp := absurd hp List.not_mem_nil
  size := rfl

/-- A move of thread `t` that concerns peer `p` alone and leaves the table. -/
theorem Inv.touch (h : s.Inv) (hp : p < s.next) (m : Option τ)
    (hold : ∀ q ≠ p, (s.pc t).peer ≠ some q) (hnew : ∀ q ≠ p, x.peer ≠ some q)
    (hid : r'.id = (s.peers p).id)
    (hmove : PeerInv (Function.update s.pc t x) r' s.ptbl p) :
    ({ s with
        peers := Function.update s.peers p r'
        ptblMutex := m
        pc := Function.update s.pc t x } : NetServer τ).Inv where
  peer q hq := by
    by_cases hqp : q = p
    · subst hqp
      simpa only [Function.update_self] using hmove
    · simpa only [Function.update_of_ne hqp] using
        (h.peer q hq).frame (hold q hqp) (hnew q hqp) Iff.rfl
  refers u q hu := by
    by_cases hut : u = t
    · subst hut
      simp only [Function.update_self] at hu
      by_cases hqp : q = p
      · exact hqp ▸ hp
      · exact absurd hu (hnew q hqp)
    · simp only [Function.update_of_ne hut] at hu
      exact h.refers u q hu
  known := h.known
  nodup := h.nodup
  keys := by
    have hids : ∀ q, (Function.update s.peers p r' q).id = (s.peers q).id := by
      intro q
      by_cases hqp : q = p
      · rw [hqp, Function.update_self, hid]
      · rw [Function.update_of_ne hqp]
    simpa only [hids] using h.keys
  size := h.size

/-- A move of thread `t` alone. -/
theorem Inv.goto (h : s.Inv) (hp : p < s.next) (m : Option τ)
    (hold : ∀ q ≠ p, (s.pc t).peer ≠ some q) (hnew : ∀ q ≠ p, x.peer ≠ some q)
    (hmove : PeerInv (Function.update s.pc t x) (s.peers p) s.ptbl p) :
    (({ s with ptblMutex := m } : NetServer τ).goto t x).Inv := by
  have htouch := h.touch hp m hold hnew rfl hmove
  rwa [Function.update_eq_self] at htouch

/-- A move of a thread that works on no peer, to where it works on none. -/
theorem Inv.idle (h : s.Inv) (m : Option τ) (hold : (s.pc t).peer = none) (hnew : x.peer = none) :
    (({ s with ptblMutex := m } : NetServer τ).goto t x).Inv where
  peer q hq := (h.peer q hq).frame (by simp [hold]) (by simp [hnew]) Iff.rfl
  refers u q hu := by
    by_cases hut : u = t
    · subst hut
      simp only [NetServer.goto, Function.update_self, hnew] at hu
      cases hu
    · simp only [NetServer.goto, Function.update_of_ne hut] at hu
      exact h.refers u q hu
  known := h.known
  nodup := h.nodup
  keys := h.keys
  size := h.size

omit [DecidableEq τ] in
/-- A peer no thread works on is at no place of any thread. -/
theorem count_eq_zero {f : PeerPc → Bool} (h : ∀ t, f (pc t) = false) : count f pc = 0 := by
  by_contra hne
  obtain ⟨t, ht⟩ := (phaseCount_pos_iff (fun x => f x = true) pc).mp (Nat.pos_of_ne_zero hne)
  rw [h t] at ht
  exact Bool.false_ne_true ht

/-- `peer_create_in`, with an identifier that is not in the table. -/
theorem Inv.create {loop : τ} {tmNow : ℕ} (h : s.Inv) (hidle : s.pc loop = .idle)
    (hid : ∀ q ∈ s.ptbl, (s.peers q).id ≠ (genPeerid s.tmLast s.fudge tmNow).2) :
    (s.create loop tmNow).Inv := by
  have hfresh : ∀ t, (s.pc t).peer ≠ some s.next := by
    intro t ht
    exact absurd (h.refers t s.next ht) (lt_irrefl _)
  have hnext : s.next ∉ s.ptbl := fun hmem => absurd (h.known _ hmem) (lt_irrefl _)
  have hold : ∀ q ∈ s.ptbl, q ≠ s.next := fun q hq he => hnext (he ▸ hq)
  have hzero : PeerInv s.pc ⟨(genPeerid s.tmLast s.fudge tmNow).2, true, 0, 0⟩ (s.next :: s.ptbl)
      s.next := by
    have hplaces := fun t => places_of_peer_ne (hfresh t)
    have hholds := count_eq_zero fun t => (hplaces t).1
    have hfrees := count_eq_zero fun t => (hplaces t).2.1
    have hremoves := count_eq_zero fun t => (hplaces t).2.2.1
    refine ⟨by simp [hholds, hfrees], by simp [hfrees], fun _ => by simp [hfrees], by simp,
      by simp [hremoves], fun t ht => ?_⟩
    rw [(hplaces t).2.2.2.1] at ht
    exact absurd ht Bool.false_ne_true
  constructor
  · intro p hp
    by_cases hpn : p = s.next
    · subst hpn
      simp only [NetServer.create, Function.update_self]
      exact hzero.move (by simp [hidle, PeerPc.holds, PeerPc.frees])
        (.inl (by simp [hidle, PeerPc.frees])) id (by simp) (by simp [hidle, PeerPc.removes])
        (by simp [PeerPc.pastStatus])
    · have hlt : p < s.next := by
        simp only [NetServer.create] at hp
        omega
      simp only [NetServer.create, Function.update_of_ne hpn]
      refine (h.peer p hlt).frame (by simp [hidle, PeerPc.peer]) ?_ ?_
      · simpa [PeerPc.peer] using Ne.symm hpn
      · simp [hpn]
  · intro t p ht
    simp only [NetServer.create] at ht ⊢
    by_cases htl : t = loop
    · subst htl
      rw [Function.update_self, PeerPc.peer, Option.some.injEq] at ht
      omega
    · rw [Function.update_of_ne htl] at ht
      exact Nat.lt_succ_of_lt (h.refers t p ht)
  · intro p hp
    rcases List.mem_cons.mp hp with rfl | hmem
    · exact Nat.lt_succ_self _
    · exact Nat.lt_succ_of_lt (h.known p hmem)
  · exact List.nodup_cons.mpr ⟨hnext, h.nodup⟩
  · intro p hp q hq he
    simp only [NetServer.create] at he
    rcases List.mem_cons.mp hp with rfl | hp
    · rcases List.mem_cons.mp hq with rfl | hq
      · rfl
      · rw [Function.update_self, Function.update_of_ne (hold q hq)] at he
        exact absurd he.symm (hid q hq)
    · rcases List.mem_cons.mp hq with rfl | hq
      · rw [Function.update_self, Function.update_of_ne (hold p hp)] at he
        exact absurd he (hid p hp)
      · rw [Function.update_of_ne (hold p hp), Function.update_of_ne (hold q hq)] at he
        exact h.keys p hp q hq he
  · have hsize := h.size
    simp only [NetServer.create, List.length_cons]
    push_cast
    omega

omit [DecidableEq τ] in
/-- `ptbl_remove` with the identifier of a peer in the table removes that peer. -/
theorem Inv.ptblRemove_eq (h : s.Inv) (hp : p ∈ s.ptbl) :
    s.ptblRemove (s.peers p).id = s.ptbl.erase p := by
  have heq : ∀ l : List ℕ, (∀ q ∈ l, q ∈ s.ptbl) →
      l.eraseP (fun q => (s.peers q).id == (s.peers p).id) = l.erase p := by
    intro l hl
    induction l with
    | nil => rfl
    | cons q l ih =>
        have ih := ih fun x hx => hl x (List.mem_cons_of_mem _ hx)
        by_cases hqp : q = p
        · simp [hqp]
        · have hne : (s.peers q).id ≠ (s.peers p).id :=
            fun he => hqp (h.keys q (hl q List.mem_cons_self) p hp he)
          rw [List.eraseP_cons_of_neg (by simpa using hne), ih,
            List.erase_cons_tail (by simpa using hqp)]
  exact heq s.ptbl fun _ hq => hq

theorem afterKill_peer (b : Bool) : (PeerPc.afterKill b).peer = none := by
  cases b <;> rfl

theorem afterUse_peer (use : PeerUse) : (PeerPc.afterUse use).peer = none := by
  cases use <;> rfl

/-- A thread that works on `p` works on no other peer. -/
theorem peer_ne_of_eq (hx : x.peer = some p) : ∀ q ≠ p, x.peer ≠ some q := by
  intro q hqp he
  rw [hx, Option.some.injEq] at he
  exact hqp he.symm

/-- A thread that works on no peer is at no place of `q`. -/
theorem peer_ne_of_none (hx : x.peer = none) (q : ℕ) : x.peer ≠ some q := by
  rw [hx]
  exact Option.some_ne_none q |>.symm

/-- The change of `status` in `peer_kill`. -/
theorem Inv.killStatus {b : Bool} (h : s.Inv) (hpc : s.pc t = .kill .status b p) :
    ((s.setPeer p { s.peers p with connected := false }).goto t (.kill .close b p)).Inv := by
  have hp : p < s.next := h.refers t p (by rw [hpc]; rfl)
  refine h.touch hp s.ptblMutex (peer_ne_of_eq (by rw [hpc]; rfl)) (peer_ne_of_eq rfl) rfl ?_
  refine (h.peer p hp).move ?_ (.inl ?_) (by simp) (fun _ => .inr (.inr (.inl ?_))) ?_ (by simp)
  · simp [hpc, PeerPc.holds, PeerPc.frees]
  · simp [hpc, PeerPc.frees]
  · simp [PeerPc.atWork]
  · simp [hpc, PeerPc.removes]

/-- The successful change of `refcount` in `peer_kill`. -/
theorem Inv.killClaim {b : Bool} (h : s.Inv) (hpc : s.pc t = .kill .claim b p)
    (hzero : (s.peers p).refcount = 0) :
    ((s.setPeer p { s.peers p with refcount := 1 }).goto t (.kill .free b p)).Inv := by
  have hp : p < s.next := h.refers t p (by rw [hpc]; rfl)
  have hdis : (s.peers p).connected = false :=
    (h.peer p hp).past t (by simp [hpc, PeerPc.pastStatus])
  refine h.touch hp s.ptblMutex (peer_ne_of_eq (by rw [hpc]; rfl)) (peer_ne_of_eq rfl) rfl ?_
  refine (h.peer p hp).move ?_ (.inr ⟨hzero, hdis, ?_⟩) id (fun _ => .inl ?_) ?_ ?_
  · simp [hpc, PeerPc.holds, PeerPc.frees, hzero]
  · simp [hpc, PeerPc.frees]
  · simp [hpc, PeerPc.frees]
  · simp [hpc, PeerPc.removes]
  · simp [PeerPc.pastStatus]

/-- The failed change of `refcount` in `peer_kill`: the peer is claimed or referenced. -/
theorem Inv.killLeave {b : Bool} (h : s.Inv) (hpc : s.pc t = .kill .claim b p)
    (hne : (s.peers p).refcount ≠ 0) : (s.goto t (PeerPc.afterKill b)).Inv := by
  have hp : p < s.next := h.refers t p (by rw [hpc]; rfl)
  have hafter := peer_ne_of_none (afterKill_peer b)
  obtain ⟨hholds, hfrees, hremoves, hpast, -⟩ := places_of_peer_ne (hafter p)
  refine h.goto hp s.ptblMutex (peer_ne_of_eq (by rw [hpc]; rfl)) (fun q _ => hafter q) ?_
  refine (h.peer p hp).walk (by rw [hholds, hpc]; rfl) (by rw [hfrees, hpc]; rfl)
    (by rw [hremoves, hpc]; rfl) Iff.rfl (fun _ => ?_) (by simp [hpast])
  by_cases hclaimed : 0 < count (·.frees p) s.pc + (s.peers p).released
  · exact .inl hclaimed
  · -- not claimed, so the count is made of references
    have hrefs := (h.peer p hp).refs
    obtain ⟨u, hu⟩ := (phaseCount_pos_iff (fun y => PeerPc.holds p y = true) s.pc).mp
      (by rw [count, count] at hrefs; rw [count] at hclaimed; omega)
    refine .inr (.inr ⟨u, ?_, ?_⟩)
    · rintro rfl
      rw [hpc] at hu
      exact Bool.false_ne_true hu
    · generalize s.pc u = y at hu ⊢
      cases y <;> simp_all [PeerPc.holds, PeerPc.atWork]

/-- `mfree` in `peer_kill`. -/
theorem Inv.killFree {b : Bool} (h : s.Inv) (hpc : s.pc t = .kill .free b p) :
    ((s.setPeer p { s.peers p with released := (s.peers p).released + 1 }).goto t
      (.kill .remove b p)).Inv := by
  have hp : p < s.next := h.refers t p (by rw [hpc]; rfl)
  refine h.touch hp s.ptblMutex (peer_ne_of_eq (by rw [hpc]; rfl)) (peer_ne_of_eq rfl) rfl ?_
  have hclaimed : 0 < count (·.frees p) s.pc :=
    (phaseCount_pos_iff _ s.pc).mpr ⟨t, by simp [hpc, PeerPc.frees]⟩
  refine (h.peer p hp).move ?_ (.inl ?_) id (fun _ => .inr (.inl (by omega))) ?_ ?_
  · simp [hpc, PeerPc.holds, PeerPc.frees]
    ring
  · simp [hpc, PeerPc.frees]
    ring
  · simp [hpc, PeerPc.removes]
    ring
  · simp [PeerPc.pastStatus]

/-- The last lock section of `peer_kill`. -/
theorem Inv.killRemove {b : Bool} (h : s.Inv) (hpc : s.pc t = .kill .remove b p) :
    (({ s with ptbl := s.ptblRemove (s.peers p).id, npeers := s.npeers - 1 } : NetServer τ).goto t
      (PeerPc.afterKill b)).Inv := by
  have hp : p < s.next := h.refers t p (by rw [hpc]; rfl)
  have hpeer := h.peer p hp
  have hremoving : 0 < count (·.removes p) s.pc :=
    (phaseCount_pos_iff _ s.pc).mpr ⟨t, by simp [hpc, PeerPc.removes]⟩
  have hmem : p ∈ s.ptbl := by
    by_contra hnot
    have htable := hpeer.table
    have honce := hpeer.once
    rw [if_neg hnot] at htable
    omega
  have hafter := peer_ne_of_none (afterKill_peer b)
  rw [h.ptblRemove_eq hmem]
  refine ⟨fun q hq => ?_, fun u q hu => ?_, fun q hq => ?_, h.nodup.erase p, ?_, ?_⟩
  · by_cases hqp : q = p
    · subst hqp
      obtain ⟨hholds, hfrees, hremoves, hpast, -⟩ := places_of_peer_ne (hafter q)
      change PeerInv (Function.update s.pc t _) (s.peers q) (s.ptbl.erase q) q
      refine hpeer.move ?_ (.inl ?_) id (fun hc => .inr ?_) ?_ ?_
      · rw [hpc, hholds, hfrees]
        simp [PeerPc.holds, PeerPc.frees]
      · rw [hpc, hfrees]
        simp [PeerPc.frees]
      · exact (hpeer.elsewhere hc (by simp [hpc, PeerPc.atWork])).imp_right .inr
      · rw [hpc, hremoves]
        simp [PeerPc.removes, hmem, h.nodup.mem_erase_iff, add_comm]
      · simp [hpast]
    · apply (h.peer q hq).frame (peer_ne_of_eq (by rw [hpc]; rfl) q hqp) (hafter q)
      exact List.mem_erase_of_ne hqp
  · by_cases hut : u = t
    · subst hut
      simp only [NetServer.goto, Function.update_self] at hu
      exact absurd hu (hafter q)
    · simp only [NetServer.goto, Function.update_of_ne hut] at hu
      exact h.refers u q hu
  · exact h.known q (List.mem_of_mem_erase hq)
  · intro q hq q' hq' he
    exact h.keys q (List.mem_of_mem_erase hq) q' (List.mem_of_mem_erase hq') he
  · have hsize := h.size
    have hlen := List.length_pos_of_mem hmem
    simp only [NetServer.goto, List.length_erase_of_mem hmem]
    omega

/-- Every step of `peer_kill`. -/
theorem Inv.killStep {stage : KillStage} {b : Bool} (h : s.Inv) (hpc : s.pc t = .kill stage b p)
    (hs : s.killStep t stage b p = some s') : s'.Inv := by
  have hp : p < s.next := h.refers t p (by rw [hpc]; rfl)
  have hpeer := peer_ne_of_eq (x := s.pc t) (p := p) (by rw [hpc]; rfl)
  -- the test of `refcount` comes next, whoever changed `status`
  have htest : (s.peers p).connected = false → stage = .status ∨ stage = .close →
      (s.goto t (.kill .claim b p)).Inv := by
    intro hdis hstage
    apply h.goto hp s.ptblMutex hpeer (peer_ne_of_eq rfl)
    have hplace : ∀ f : PeerPc → Bool, f (.kill stage b p) = false →
        f (.kill .claim b p) = false → f (.kill .claim b p) = f (s.pc t) := by
      intro f hold hnew
      rw [hpc, hold, hnew]
    refine (h.peer p hp).walk (hplace _ ?_ rfl) (hplace _ ?_ rfl) (hplace _ ?_ rfl) Iff.rfl
      (fun _ => .inr (.inl (by simp [PeerPc.atWork]))) fun _ => hdis
    all_goals rcases hstage with rfl | rfl <;> rfl
  cases stage with
  | status =>
      simp only [NetServer.killStep] at hs
      split_ifs at hs with hconn
      · obtain rfl := Option.some.inj hs
        exact h.killStatus hpc
      · obtain rfl := Option.some.inj hs
        exact htest (by simpa using hconn) (.inl rfl)
  | close =>
      obtain rfl := Option.some.inj hs
      exact htest ((h.peer p hp).past t (by simp [hpc, PeerPc.pastStatus])) (.inr rfl)
  | claim =>
      simp only [NetServer.killStep] at hs
      split_ifs at hs with hzero
      · obtain rfl := Option.some.inj hs
        exact h.killClaim hpc hzero
      · obtain rfl := Option.some.inj hs
        exact h.killLeave hpc hzero
  | free =>
      obtain rfl := Option.some.inj hs
      exact h.killFree hpc
  | remove =>
      simp only [NetServer.killStep] at hs
      split_ifs at hs with hmutex
      obtain rfl := Option.some.inj hs
      exact h.killRemove hpc

/-- Raising the count. -/
theorem Inv.take {use : PeerUse} (h : s.Inv) (hpc : s.pc t = .checked use p) :
    (s.take t use p).Inv := by
  have hp : p < s.next := h.refers t p (by rw [hpc]; rfl)
  refine h.touch hp _ (peer_ne_of_eq (by rw [hpc]; rfl)) (peer_ne_of_eq rfl) rfl ?_
  refine (h.peer p hp).move ?_ (.inl ?_) id (fun _ => .inr (.inr (.inl ?_))) ?_ ?_
  · simp [hpc, PeerPc.holds, PeerPc.frees]
  · simp [hpc, PeerPc.frees]
  · simp [PeerPc.atWork]
  · simp [hpc, PeerPc.removes]
  · simp [PeerPc.pastStatus]

/-- Lowering the count, when the peer is left to somebody. -/
theorem Inv.drop {use : PeerUse} (h : s.Inv) (m : Option τ) (hpc : s.pc t = .holding use p)
    (hx : ∀ q ≠ p, x.peer ≠ some q)
    (hplaces : x.holds p = false ∧ x.frees p = false ∧ x.removes p = false
      ∧ x.pastStatus p = false)
    (hsafe : x.atWork p = true ∨ s.DropsSafely t p) : (s.drop t p m x).Inv := by
  have hp : p < s.next := h.refers t p (by rw [hpc]; rfl)
  obtain ⟨hholds, hfrees, hremoves, hpast⟩ := hplaces
  refine h.touch hp m (peer_ne_of_eq (by rw [hpc]; rfl)) hx rfl ?_
  refine (h.peer p hp).move ?_ (.inl ?_) id (fun hdis => .inr ?_) ?_ ?_
  · rw [hpc, hholds, hfrees]
    simp [PeerPc.holds, PeerPc.frees]
  · rw [hpc, hfrees]
    simp [PeerPc.frees]
  · rcases hsafe with hwork | hconn | hreleased | hfreed | hother
    · exact .inr (.inl hwork)
    · rw [hdis] at hconn
      exact absurd hconn Bool.false_ne_true
    · exact .inl (by omega)
    · have hpos : 0 < count (·.frees p) s.pc := (phaseCount_pos_iff _ s.pc).mpr hfreed
      exact .inl (by omega)
    · exact .inr (.inr hother)
  · rw [hpc, hremoves]
    simp [PeerPc.removes]
  · simp [hpast]

omit [DecidableEq τ] in
/-- Memory that nothing refers to can be handed out again. -/
theorem Inv.reuse {id : ℕ} (h : s.Inv) (hp : p ∉ s.ptbl) :
    (s.setPeer p { s.peers p with id := id }).Inv where
  peer q hq := by
    have hpeer := h.peer q hq
    by_cases hqp : q = p
    · subst hqp
      simp only [setPeer, Function.update_self]
      exact ⟨hpeer.refs, hpeer.once, hpeer.live, hpeer.work, hpeer.table, hpeer.past⟩
    · simpa only [setPeer, Function.update_of_ne hqp] using hpeer
  refers := h.refers
  known := h.known
  nodup := h.nodup
  keys q hq q' hq' he := by
    have hne : ∀ x ∈ s.ptbl, x ≠ p := fun x hx hxp => hp (hxp ▸ hx)
    simp only [setPeer, Function.update_of_ne (hne q hq), Function.update_of_ne (hne q' hq')] at he
    exact h.keys q hq q' hq' he
  size := h.size

/-- A thread that has found `p` connected goes on to `checked`. -/
theorem Inv.check {use : PeerUse} (h : s.Inv) (m : Option τ) (hp : p < s.next)
    (hconn : (s.peers p).connected = true) (hnone : (s.pc t).peer = none) :
    (({ s with ptblMutex := m } : NetServer τ).goto t (.checked use p)).Inv := by
  have hold := peer_ne_of_none hnone
  obtain ⟨hholds, hfrees, hremoves, -, -⟩ := places_of_peer_ne (hold p)
  refine h.goto hp m (fun q _ => hold q) (peer_ne_of_eq rfl) ?_
  refine (h.peer p hp).walk hholds.symm hfrees.symm hremoves.symm Iff.rfl (fun hdis => ?_)
    (by simp [PeerPc.pastStatus])
  rw [hdis] at hconn
  exact absurd hconn Bool.false_ne_true

omit [DecidableEq τ] [Fintype τ] in
/-- What `ptbl_find` finds is in the table. -/
theorem mem_of_ptblFind {id : ℕ} (h : s.ptblFind id = some p) : p ∈ s.ptbl :=
  List.mem_of_find?_eq_some h

/-- **Step lemma.** -/
theorem Inv.step {loop : τ} {a : PeerAction τ} (h : s.Inv) (hok : s.Safe a)
    (hs : s.step loop a = some s') : s'.Inv := by
  cases a with
  | create tmNow =>
      rw [NetServer.step] at hs
      split_ifs at hs with hen
      obtain rfl := Option.some.inj hs
      exact h.create hen.1 hok
  | fdevNew =>
      rw [NetServer.step] at hs
      split at hs
      · rename_i p hpc
        obtain rfl := Option.some.inj hs
        have hp : p < s.next := h.refers loop p (by rw [hpc]; rfl)
        refine h.goto hp s.ptblMutex (peer_ne_of_eq (by rw [hpc]; rfl))
          (fun q _ => peer_ne_of_none rfl q) ?_
        refine (h.peer p hp).walk (by rw [hpc]; rfl) (by rw [hpc]; rfl) (by rw [hpc]; rfl) Iff.rfl
          (fun hdis => ?_) (by simp [PeerPc.pastStatus])
        exact ((h.peer p hp).elsewhere hdis (by simp [hpc, PeerPc.atWork])).imp_right .inr
      · cases hs
  | loopKill p =>
      rw [NetServer.step] at hs
      split_ifs at hs with hen
      obtain rfl := Option.some.inj hs
      refine h.goto hen.2 s.ptblMutex (fun q _ => peer_ne_of_none (by rw [hen.1]; rfl) q)
        (peer_ne_of_eq rfl) ?_
      exact (h.peer p hen.2).walk (by rw [hen.1]; rfl) (by rw [hen.1]; rfl) (by rw [hen.1]; rfl)
        Iff.rfl (fun _ => .inr (.inl (by simp [PeerPc.atWork]))) (by simp [PeerPc.pastStatus])
  | lookup t send id =>
      rw [NetServer.step] at hs
      generalize (if send then PeerUse.send else .getaddr) = use at hs
      split_ifs at hs with hen
      split at hs
      · obtain rfl := Option.some.inj hs
        exact h
      · rename_i p hfind
        split_ifs at hs with hconn
        · obtain rfl := Option.some.inj hs
          exact h.check (some t) (h.known p (mem_of_ptblFind hfind)) hconn (by rw [hen.1]; rfl)
        · obtain rfl := Option.some.inj hs
          exact h
  | take t =>
      rw [NetServer.step] at hs
      split at hs
      · rename_i use p hpc
        obtain rfl := Option.some.inj hs
        exact h.take hpc
      · cases hs
  | dropOk t =>
      rw [NetServer.step] at hs
      split at hs
      · rename_i use p hpc
        obtain rfl := Option.some.inj hs
        have hafter := peer_ne_of_none (afterUse_peer use)
        obtain ⟨hholds, hfrees, hremoves, hpast, -⟩ := places_of_peer_ne (hafter p)
        exact h.drop s.ptblMutex hpc (fun q _ => hafter q) ⟨hholds, hfrees, hremoves, hpast⟩
          (.inr (hok p (by rw [hpc]; rfl)))
      · cases hs
  | dropFail t =>
      rw [NetServer.step] at hs
      split at hs
      · rename_i p hpc
        obtain rfl := Option.some.inj hs
        exact h.drop s.ptblMutex hpc (peer_ne_of_eq rfl)
          ⟨rfl, rfl, rfl, rfl⟩ (.inl (by simp [PeerPc.atWork]))
      · rename_i p hpc
        obtain rfl := Option.some.inj hs
        exact h.drop none hpc (peer_ne_of_eq rfl)
          ⟨rfl, rfl, rfl, rfl⟩ (.inl (by simp [PeerPc.atWork]))
      · cases hs
  | killStep t =>
      rw [NetServer.step] at hs
      split at hs
      · rename_i stage b p hpc
        exact h.killStep hpc hs
      · cases hs
  | bcastStart t =>
      rw [NetServer.step] at hs
      split_ifs at hs with hen
      obtain rfl := Option.some.inj hs
      exact h.idle (some t) (by rw [hen.1]; rfl) rfl
  | pick t p =>
      rw [NetServer.step] at hs
      split_ifs at hs with hen hconn
      · obtain rfl := Option.some.inj hs
        exact h.check s.ptblMutex (h.known p hen.2) hconn (by rw [hen.1]; rfl)
      · obtain rfl := Option.some.inj hs
        exact h
  | bcastEnd t =>
      rw [NetServer.step] at hs
      split_ifs at hs with hen
      obtain rfl := Option.some.inj hs
      exact h.idle none (by rw [hen]; rfl) rfl
  | relock t =>
      rw [NetServer.step] at hs
      split_ifs at hs with hen
      obtain rfl := Option.some.inj hs
      exact h.idle (some t) (by rw [hen.1]; rfl) rfl
  | reuse p id =>
      rw [NetServer.step] at hs
      split_ifs at hs with hen
      obtain rfl := Option.some.inj hs
      exact h.reuse hok.1

omit [DecidableEq τ] in
/-- Where no call is in progress, the invariant is the accounting. -/
theorem Inv.accounted (h : s.Inv) (hidle : ∀ t, s.pc t = .idle) : s.Accounted := by
  have hzero : ∀ f : PeerPc → Bool, f .idle = false → count f s.pc = 0 :=
    fun f hf => count_eq_zero fun t => by rw [hidle t, hf]
  have hreleased : ∀ p < s.next,
      (s.peers p).released = if (s.peers p).connected then 0 else 1 := by
    intro p hp
    have hpeer := h.peer p hp
    rcases hconn : (s.peers p).connected with _ | _
    · rcases hpeer.work hconn with hclaimed | ⟨t, ht⟩
      · rw [hzero _ rfl, zero_add] at hclaimed
        simpa using hclaimed
      · rw [hidle t] at ht
        exact absurd ht Bool.false_ne_true
    · have hlive := hpeer.live hconn
      rw [hzero _ rfl, zero_add] at hlive
      simpa using hlive
  refine ⟨h.nodup, fun p => ?_, h.size, hreleased⟩
  have htable : ∀ hp : p < s.next, (if p ∈ s.ptbl then 1 else 0) + (s.peers p).released = 1 := by
    intro hp
    have htable := (h.peer p hp).table
    rwa [hzero _ rfl] at htable
  constructor
  · intro hmem
    have hp := h.known p hmem
    have hone := htable hp
    rw [if_pos hmem, hreleased p hp] at hone
    refine ⟨hp, ?_⟩
    by_contra hdis
    rw [if_neg hdis] at hone
    omega
  · rintro ⟨hp, hconn⟩
    have hone := htable hp
    rw [hreleased p hp, if_pos hconn] at hone
    by_contra hmem
    rw [if_neg hmem] at hone
    omega

end NetServer

end Zevent.Znet

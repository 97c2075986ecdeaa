/-
# The send path of a connection (`znet_server.c`, `znet_peer.c`, `evloop/epoll.c`)

Application threads calling `ns_sendmsg` on one peer, and the event-loop thread running
`peer_write_cb` on it.

A sender appends its message to `send_queue` under `sq_mutex` and then enables `EV_WRITE`.
The callback moves messages to `sendbuf` under the mutex, writes, and disables `EV_WRITE`
when nothing is left: at its end, under the mutex, but also right after the first lock
section when `sendbuf` is empty, and there it holds no lock.  Between that section and the
call of `fdev_disable` a sender can come and go: its message stays in the queue with
`EV_WRITE` disabled (`lost_wakeup_run`).  `no_lost_wakeup` says that this is the only way.

A lock section, a call of `fdev_enable` or `fdev_disable`, and a call of `write` are one
step each.  `peer_kill` is one step here, as it only has to disconnect the peer; what it
does beyond that is the subject of `Zevent.Znet.Peer`.
-/
import Mathlib.Tactic
import Zevent.Lib.Interleaving

namespace Zevent.Znet

open Interleaving

/-! ## Event flags -/

/-- A set of the flags `EV_READ` and `EV_WRITE`. -/
structure EvFlags where
  read : Bool
  write : Bool
deriving DecidableEq, Repr

/-- `struct fdev`: its flags, and the events the kernel is asked to report. -/
structure Fdev where
  flags : EvFlags
  registered : EvFlags
deriving DecidableEq, Repr

/-- `fdev_enable`; `ctlOk` is the outcome of `epoll_ctl`, if it is called.  The flag of the
result is set when the function returns zero. -/
def fdevEnable (ev : Fdev) (flags : EvFlags) (ctlOk : Bool) : Fdev × Bool :=
  let sf := ev.flags
  let ev := { ev with flags := ⟨sf.read || flags.read, sf.write || flags.write⟩ }
  if sf ≠ ev.flags then
    if ctlOk then ({ ev with registered := ev.flags }, true) else (ev, false)
  else (ev, true)

/-- `fdev_disable`. -/
def fdevDisable (ev : Fdev) (flags : EvFlags) (ctlOk : Bool) : Fdev × Bool :=
  let sf := ev.flags
  let ev := { ev with flags := ⟨sf.read && !flags.read, sf.write && !flags.write⟩ }
  if sf ≠ ev.flags then
    if ctlOk then ({ ev with registered := ev.flags }, true) else (ev, false)
  else (ev, true)

/-- `EV_WRITE` alone. -/
def evWrite : EvFlags := ⟨false, true⟩

/-- The write callback can be called: the flag is set and the kernel reports the event. -/
def Fdev.WriteEnabled (ev : Fdev) : Prop := ev.flags.write = true ∧ ev.registered.write = true

instance (ev : Fdev) : Decidable ev.WriteEnabled := inferInstanceAs (Decidable (_ ∧ _))

/-- After a successful `fdev_enable(EV_WRITE)` the event is enabled, provided the flag and
the kernel agreed before. -/
theorem fdevEnable_ok {ev : Fdev} {ctlOk : Bool} (h : (fdevEnable ev evWrite ctlOk).2 = true)
    (hreg : ev.flags.write = true → ev.registered.write = true) :
    (fdevEnable ev evWrite ctlOk).1.WriteEnabled := by
  obtain ⟨⟨fr, fw⟩, ⟨rr, rw⟩⟩ := ev
  cases fr <;> cases fw <;> cases ctlOk <;>
    simp_all [fdevEnable, evWrite, Fdev.WriteEnabled]

/-- `fdev_disable(EV_WRITE)` clears the flag, whatever `epoll_ctl` says. -/
theorem fdevDisable_write (ev : Fdev) (ctlOk : Bool) :
    (fdevDisable ev evWrite ctlOk).1.flags.write = false := by
  obtain ⟨⟨fr, fw⟩, ⟨rr, rw⟩⟩ := ev
  cases fr <;> cases fw <;> cases ctlOk <;> simp [fdevDisable, evWrite]

/-! ## The two kinds of thread -/

/-- A message, `msg->buf` with its length. -/
abbrev Msg := List UInt8

/-- `MAX_SENDBUF`. -/
def maxSendbuf : ℕ := 1452

/-- The loop of `peer_write_cb` that moves messages to `sendbuf`. -/
def moveMsgs : List Msg → List UInt8 → List Msg × List UInt8
  | [], sendbuf => ([], sendbuf)
  | msg :: queue, sendbuf =>
      if sendbuf.length < maxSendbuf then moveMsgs queue (sendbuf ++ msg)
      else (msg :: queue, sendbuf)

/-- Where an application thread is in `ns_sendmsg`: not in it, past the lookup, past the
lock section, or about to kill the peer because `fdev_enable` failed. -/
inductive SendPc
  | idle
  | found (msg : Msg)
  | enqueued
  | failed
deriving DecidableEq, Repr

/-- Where the event loop is: not in the callback, called, past the first lock section with
an empty `sendbuf`, in the write loop, before the last lock section, or about to kill. -/
inductive WritePc
  | idle
  | called
  | disabling
  | writing
  | finishing
  | killing
deriving DecidableEq, Repr

/-- One peer with the threads that work on it. -/
structure SendPath (τ : Type) where
  connected : Bool
  sendQueue : List Msg
  sendbuf : List UInt8
  ioev : Fdev
  loop : WritePc
  pc : τ → SendPc

/-- What `write` returns. -/
inductive WriteResult
  | wrote (n : ℕ)
  | eintr
  | eagain
  | error
deriving DecidableEq, Repr

/-- The moves: of an application thread, and of the event loop. -/
inductive SendAction (τ : Type)
  | lookup (t : τ) (msg : Msg)
  | enqueue (t : τ)
  | enable (t : τ) (ctlOk : Bool)
  | killFailed (t : τ)
  | callWrite
  | move
  | disableEmpty (ctlOk : Bool)
  | write (r : WriteResult)
  | finish (ctlOk : Bool)
  | killLoop
  | readFails

namespace SendPath

variable {τ : Type}

/-- `peer_kill`, as far as the send path is concerned. -/
def kill (s : SendPath τ) : SendPath τ :=
  if s.connected then
    { s with
      connected := false, ioev := { flags := ⟨false, false⟩, registered := ⟨false, false⟩ } }
  else s

/-- One step. -/
def step [DecidableEq τ] (s : SendPath τ) : SendAction τ → Option (SendPath τ)
  | .lookup t msg =>
      if s.pc t = .idle ∧ s.connected = true then
        some { s with pc := Function.update s.pc t (.found msg) }
      else none
  | .enqueue t =>
      match s.pc t with
      | .found msg =>
          some { s with
            sendQueue := s.sendQueue ++ [msg], pc := Function.update s.pc t .enqueued }
      | _ => none
  | .enable t ctlOk =>
      if s.pc t = .enqueued then
        let r := fdevEnable s.ioev evWrite ctlOk
        some { s with
          ioev := r.1, pc := Function.update s.pc t (if r.2 then .idle else .failed) }
      else none
  | .killFailed t =>
      if s.pc t = .failed then some { s.kill with pc := Function.update s.pc t .idle } else none
  | .callWrite =>
      if s.loop = .idle ∧ s.ioev.WriteEnabled then some { s with loop := .called } else none
  | .move =>
      if s.loop = .called then
        let m := moveMsgs s.sendQueue s.sendbuf
        some { s with
          sendQueue := m.1, sendbuf := m.2, loop := if m.2 = [] then .disabling else .writing }
      else none
  | .disableEmpty ctlOk =>
      if s.loop = .disabling then
        some { s with ioev := (fdevDisable s.ioev evWrite ctlOk).1, loop := .idle }
      else none
  | .write r =>
      if s.loop = .writing then
        match r with
        | .wrote n =>
            if n ≤ s.sendbuf.length then
              some { s with
                sendbuf := s.sendbuf.drop n
                loop := if s.sendbuf.drop n = [] then .finishing else .writing }
            else none
        | .eintr => some s
        | .eagain => some { s with loop := .finishing }
        | .error => some { s with loop := .killing }
      else none
  | .finish ctlOk =>
      if s.loop = .finishing then
        if s.sendQueue = [] ∧ s.sendbuf = [] then
          some { s with ioev := (fdevDisable s.ioev evWrite ctlOk).1, loop := .idle }
        else some { s with loop := .idle }
      else none
  | .killLoop => if s.loop = .killing then some { s.kill with loop := .idle } else none
  | .readFails => if s.loop = .idle then some s.kill else none

/-- A connection as `peer_create_in` leaves it: nothing to send, only `EV_READ` enabled. -/
def start : SendPath τ where
  connected := true
  sendQueue := []
  sendbuf := []
  ioev := { flags := ⟨true, false⟩, registered := ⟨true, false⟩ }
  loop := .idle
  pc := fun _ => .idle

/-- Some call has appended its message and has not dealt with `EV_WRITE` yet. -/
def Pending (s : SendPath τ) : Prop := ∃ t, s.pc t = .enqueued ∨ s.pc t = .failed

/-- The condition: `EV_WRITE` is disabled on the early exit only when the queue is empty or
a sender has yet to enable it. -/
def DisablesSafely (s : SendPath τ) : SendAction τ → Prop
  | .disableEmpty _ => s.sendQueue = [] ∨ s.Pending
  | _ => True

instance [Fintype τ] (s : SendPath τ) (a : SendAction τ) : Decidable (s.DisablesSafely a) :=
  match a with
  | .disableEmpty _ => inferInstanceAs (Decidable (_ ∨ ∃ _, _))
  | .lookup .. => inferInstanceAs (Decidable True)
  | .enqueue _ => inferInstanceAs (Decidable True)
  | .enable .. => inferInstanceAs (Decidable True)
  | .killFailed _ => inferInstanceAs (Decidable True)
  | .callWrite => inferInstanceAs (Decidable True)
  | .move => inferInstanceAs (Decidable True)
  | .write _ => inferInstanceAs (Decidable True)
  | .finish _ => inferInstanceAs (Decidable True)
  | .killLoop => inferInstanceAs (Decidable True)
  | .readFails => inferInstanceAs (Decidable True)

/-! ## No lost wake-up -/

/-- The invariant.  The flag and the kernel agree unless a sender is about to kill the peer;
the early exit is taken with an empty `sendbuf`; and while there is something to send,
`EV_WRITE` is enabled or a sender has yet to deal with it. -/
structure Inv (s : SendPath τ) : Prop where
  agree : s.connected = true → s.ioev.flags.write = true →
    s.ioev.registered.write = true ∨ ∃ t, s.pc t = .failed
  empty : s.loop = .disabling → s.sendbuf = []
  woken : s.connected = true → s.sendQueue ≠ [] ∨ s.sendbuf ≠ [] →
    s.ioev.WriteEnabled ∨ s.Pending

variable {s s' : SendPath τ}

@[simp] theorem kill_connected (s : SendPath τ) : s.kill.connected = false := by
  rw [kill]
  split
  · rfl
  · simp_all

@[simp] theorem kill_sendbuf (s : SendPath τ) : s.kill.sendbuf = s.sendbuf := by
  rw [kill]
  split <;> rfl

@[simp] theorem kill_loop (s : SendPath τ) : s.kill.loop = s.loop := by
  rw [kill]
  split <;> rfl

/-- Moving one thread keeps another one that is at the place looked for. -/
theorem exists_update [DecidableEq τ] {P : SendPc → Prop} {pc : τ → SendPc} {t : τ} (x : SendPc)
    (hno : ¬ P (pc t)) (h : ∃ u, P (pc u)) : ∃ u, P (Function.update pc t x u) := by
  obtain ⟨u, hu⟩ := h
  have hne : u ≠ t := by
    rintro rfl
    exact hno hu
  exact ⟨u, by rwa [Function.update_of_ne hne]⟩

/-- Moving messages to `sendbuf` does not make something to send out of nothing. -/
theorem moveMsgs_ne {queue : List Msg} {sendbuf : List UInt8}
    (h : (moveMsgs queue sendbuf).1 ≠ [] ∨ (moveMsgs queue sendbuf).2 ≠ []) :
    queue ≠ [] ∨ sendbuf ≠ [] := by
  cases queue with
  | nil => exact h
  | cons msg queue => exact .inl (List.cons_ne_nil _ _)

theorem start_inv : (start : SendPath τ).Inv where
  agree := by simp [start]
  empty := fun _ => rfl
  woken := by simp [start]

/-- A disconnected peer satisfies the invariant if the early exit does. -/
theorem Inv.of_disconnected (hconn : s.connected = false)
    (hempty : s.loop = .disabling → s.sendbuf = []) : s.Inv where
  agree h := absurd h (by simp [hconn])
  empty := hempty
  woken h := absurd h (by simp [hconn])

/-- `fdev_enable` by a sender. -/
theorem Inv.enable [DecidableEq τ] {t : τ} {ctlOk : Bool} (h : s.Inv) (hpc : s.pc t = .enqueued) :
    ({ s with
        ioev := (fdevEnable s.ioev evWrite ctlOk).1
        pc := Function.update s.pc t
          (if (fdevEnable s.ioev evWrite ctlOk).2 then .idle else .failed) } :
      SendPath τ).Inv := by
  rcases hres : (fdevEnable s.ioev evWrite ctlOk).2 with _ | _
  · -- the call failed: this sender is going to kill the peer
    have hfailed : (Function.update s.pc t (if false = true then SendPc.idle else .failed)) t
        = .failed := Function.update_self ..
    exact ⟨fun _ _ => .inr ⟨t, hfailed⟩, h.empty, fun _ _ => .inr ⟨t, .inr hfailed⟩⟩
  · by_cases hother : ∃ u, s.pc u = .failed
    · obtain ⟨u, hu⟩ := exists_update (P := fun x => x = .failed) (t := t)
        (if true = true then SendPc.idle else .failed) (by simp [hpc]) hother
      exact ⟨fun _ _ => .inr ⟨u, hu⟩, h.empty, fun _ _ => .inr ⟨u, .inr hu⟩⟩
    · have hok : s.connected = true → (fdevEnable s.ioev evWrite ctlOk).1.WriteEnabled :=
        fun hconn => fdevEnable_ok hres fun hflag => (h.agree hconn hflag).resolve_right hother
      exact ⟨fun hconn _ => .inl (hok hconn).2, h.empty, fun hconn _ => .inl (hok hconn)⟩

/-- Disabling `EV_WRITE` when nothing is left to send, or a sender has yet to enable it. -/
theorem Inv.disable {ctlOk : Bool} (hsafe : (s.sendQueue = [] ∧ s.sendbuf = []) ∨ s.Pending) :
    ({ s with ioev := (fdevDisable s.ioev evWrite ctlOk).1, loop := .idle } :
      SendPath τ).Inv where
  agree _ hflag := absurd hflag (by simp [fdevDisable_write])
  empty := by simp
  woken _ hsend := by
    rcases hsafe with ⟨hqueue, hbuf⟩ | hpending
    · rcases hsend with hq | hb
      · exact absurd hqueue hq
      · exact absurd hbuf hb
    · exact .inr hpending

/-- **Step lemma.** -/
theorem Inv.step [DecidableEq τ] {a : SendAction τ} (h : s.Inv) (hok : s.DisablesSafely a)
    (hs : s.step a = some s') : s'.Inv := by
  cases a with
  | lookup t msg =>
      rw [SendPath.step] at hs
      split_ifs at hs with hen
      obtain rfl := Option.some.inj hs
      refine ⟨fun hconn hflag => ?_, h.empty, fun hconn hsend => ?_⟩
      · exact (h.agree hconn hflag).imp_right
          (exists_update (P := fun x => x = .failed) _ (by simp [hen.1]))
      · exact (h.woken hconn hsend).imp_right
          (exists_update (P := fun x => x = .enqueued ∨ x = .failed) _ (by simp [hen.1]))
  | enqueue t =>
      rw [SendPath.step] at hs
      split at hs
      · rename_i msg hpc
        obtain rfl := Option.some.inj hs
        refine ⟨fun hconn hflag => ?_, h.empty, fun _ _ => .inr ⟨t, .inl ?_⟩⟩
        · exact (h.agree hconn hflag).imp_right
            (exists_update (P := fun x => x = .failed) _ (by simp [hpc]))
        · exact Function.update_self ..
      · cases hs
  | enable t ctlOk =>
      rw [SendPath.step] at hs
      split_ifs at hs with hen
      obtain rfl := Option.some.inj hs
      exact h.enable hen
  | killFailed t =>
      rw [SendPath.step] at hs
      split_ifs at hs with hen
      obtain rfl := Option.some.inj hs
      exact Inv.of_disconnected (kill_connected s) (by simpa using h.empty)
  | callWrite =>
      rw [SendPath.step] at hs
      split_ifs at hs with hen
      obtain rfl := Option.some.inj hs
      exact ⟨h.agree, by simp, h.woken⟩
  | move =>
      rw [SendPath.step] at hs
      split_ifs at hs with hen
      obtain rfl := Option.some.inj hs
      refine ⟨h.agree, fun hloop => ?_, fun hconn hsend => h.woken hconn (moveMsgs_ne hsend)⟩
      by_contra hne
      simp only at hloop hne
      rw [if_neg hne] at hloop
      exact absurd hloop (by simp)
  | disableEmpty ctlOk =>
      rw [SendPath.step] at hs
      split_ifs at hs with hen
      obtain rfl := Option.some.inj hs
      apply Inv.disable
      exact hok.imp_left fun hqueue => ⟨hqueue, h.empty hen⟩
  | write r =>
      simp only [SendPath.step] at hs
      split_ifs at hs with hen
      cases r with
      | wrote n =>
          simp only at hs
          split at hs
          · obtain rfl := Option.some.inj hs
            refine ⟨h.agree, fun hloop => ?_, fun hconn hsend => h.woken hconn ?_⟩
            · exact absurd hloop (by simp only; split <;> simp)
            · refine hsend.imp_right fun hdrop hnil => hdrop ?_
              simp [hnil]
          · cases hs
      | eintr =>
          obtain rfl := Option.some.inj hs
          exact h
      | eagain =>
          obtain rfl := Option.some.inj hs
          exact ⟨h.agree, by simp, h.woken⟩
      | error =>
          obtain rfl := Option.some.inj hs
          exact ⟨h.agree, by simp, h.woken⟩
  | finish ctlOk =>
      rw [SendPath.step] at hs
      split_ifs at hs with hen hempty
      · obtain rfl := Option.some.inj hs
        exact Inv.disable (.inl hempty)
      · obtain rfl := Option.some.inj hs
        exact ⟨h.agree, by simp, h.woken⟩
  | killLoop =>
      rw [SendPath.step] at hs
      split_ifs at hs with hen
      obtain rfl := Option.some.inj hs
      exact Inv.of_disconnected (kill_connected s) (by simp)
  | readFails =>
      rw [SendPath.step] at hs
      split_ifs at hs with hen
      obtain rfl := Option.some.inj hs
      exact Inv.of_disconnected (kill_connected s) (by simp [hen])

end SendPath

/-- **No wake-up is lost, as long as the early exit disables safely.**  In every
interleaving of any number of senders with the event loop in which the early exit of
`peer_write_cb` disables `EV_WRITE` only when the queue is empty or a sender has yet to
enable it, there is no state in which no `ns_sendmsg` is in progress, the peer is connected
with something to send, and `EV_WRITE` is disabled, whether or not the callback is
running. -/
theorem no_lost_wakeup {τ : Type} [DecidableEq τ] {s : SendPath τ}
    (h : Reach SendPath.step SendPath.DisablesSafely SendPath.start s)
    (hidle : ∀ t, s.pc t = .idle) (hconn : s.connected = true)
    (hsend : s.sendQueue ≠ [] ∨ s.sendbuf ≠ []) : s.ioev.WriteEnabled := by
  have hinv : s.Inv := h.invariant SendPath.Inv SendPath.start_inv
    fun _ _ _ hinv hok hs => hinv.step hok hs
  apply (hinv.woken hconn hsend).resolve_right
  rintro ⟨t, ht | ht⟩ <;> rw [hidle t] at ht <;> cases ht

/-- The first message of one sender, in two calls of `write`, and a second message. -/
theorem no_lost_wakeup_one_sender :
    ∃ s : SendPath (Fin 1), Reach SendPath.step SendPath.DisablesSafely SendPath.start s
      ∧ s.sendQueue = [[3]] ∧ s.ioev.WriteEnabled := by
  have hrun : (run SendPath.step SendPath.DisablesSafely (SendPath.start : SendPath (Fin 1))
      [.lookup 0 [1, 2], .enqueue 0, .enable 0 true, .callWrite, .move, .write (.wrote 1),
        .write .eintr, .write (.wrote 1), .finish true,
        .lookup 0 [3], .enqueue 0, .enable 0 true]).map
        (fun s => (s.pc 0, s.connected, s.sendQueue)) = some (.idle, true, [[3]]) := by
    decide
  obtain ⟨s, hs, hstate⟩ := Option.map_eq_some_iff.mp hrun
  rw [Prod.mk.injEq, Prod.mk.injEq] at hstate
  obtain ⟨hpc, hconn, hqueue⟩ := hstate
  have hreach := Reach.refl.run _ hs
  refine ⟨s, hreach, hqueue, no_lost_wakeup hreach (fun t => ?_) hconn (.inl ?_)⟩
  · rw [Subsingleton.elim t 0]
    exact hpc
  · rw [hqueue]
    exact List.cons_ne_nil _ _

/-- **A lost wake-up.**  The second message of the sender is written before the sender
enables `EV_WRITE` for it, so the callback is called with nothing to send.  Between its
lock section and its `fdev_disable` the third message is appended, and `fdev_enable` finds
the flag set.  Then no call is in progress, the message is in the queue, and `EV_WRITE` is
disabled. -/
theorem lost_wakeup_run :
    ∃ s : SendPath (Fin 1), Reach SendPath.step Always SendPath.start s
      ∧ (∀ t, s.pc t = .idle) ∧ s.loop = .idle ∧ s.connected = true ∧ s.sendQueue = [[3]]
      ∧ ¬ s.ioev.WriteEnabled := by
  have hrun : (run SendPath.step Always (SendPath.start : SendPath (Fin 1))
      [.lookup 0 [1], .enqueue 0, .enable 0 true, .callWrite, .move, .write (.wrote 1),
        .lookup 0 [2], .enqueue 0, .finish true, .callWrite, .move, .write (.wrote 1),
        .finish true, .enable 0 true, .callWrite, .move,
        .lookup 0 [3], .enqueue 0, .enable 0 true, .disableEmpty true]).map
        (fun s => ((s.pc 0, s.loop), (s.connected, s.ioev.flags.write), s.sendQueue))
      = some ((.idle, .idle), (true, false), [[3]]) := by
    decide
  obtain ⟨s, hs, hstate⟩ := Option.map_eq_some_iff.mp hrun
  simp only [Prod.mk.injEq] at hstate
  obtain ⟨⟨hpc, hloop⟩, ⟨hconn, hflag⟩, hqueue⟩ := hstate
  refine ⟨s, Reach.refl.run _ hs, fun t => ?_, hloop, hconn, hqueue, ?_⟩
  · rw [Subsingleton.elim t 0]
    exact hpc
  · rintro ⟨hset, -⟩
    rw [hflag] at hset
    exact Bool.false_ne_true hset

end Zevent.Znet

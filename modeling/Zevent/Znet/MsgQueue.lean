/-
# The message queue (`common/misc/queue.c`)

A ring of `bounds` cells under one mutex, with a condition variable for each end.  Any number
of threads call `queue_push`, `queue_trypush`, `queue_pop`, `queue_trypop`,
`queue_interrupt_all` and `queue_term`, in any order.

The grain is the lock section.  A `queue_push` is the read of `terminated` before the lock,
the section that ends in the store, in the wait or in the unlock; after a wake-up the section
that tests once more; and, if that test found the queue full, the read of `terminated` that
comes after the unlock and decides between `QUEUE_EOF` and `QUEUE_EINTR`.  A pop is the same
at the other end, and a timed wait can also run out.

A waiting thread is released by a signal, by a broadcast, or for no reason at all.  A signal
may release any set of waiting threads, so what is shown here does not rest on which of them
the condition variable picks.

`queue_accounted` says what every interleaving keeps: the messages that went in come out in
order, and every message handed to a push has been stored, has been refused, or is held by
the push in progress.  `queue_linearizable` says it of the calls that have returned (what they
were, what they returned and what a pop put into `*data`): `outcome_of_step` ties every change
of the messages to the return of its call.
-/
import Mathlib.Tactic
import Zevent.Lib.Interleaving
import Zevent.Lib.Ring

namespace Zevent.Znet

open Interleaving

/-! ## The ring -/

/-- `queue_t`, without its mutex and condition variables.  `inAt` and `outAt` are `in` and
`out`; the cells are a function of the index. -/
structure MsgQueue (E : Type) where
  data : ℕ → E
  nelts : ℕ
  inAt : ℕ
  outAt : ℕ
  bounds : ℕ
  fullWaiters : ℕ
  emptyWaiters : ℕ
  terminated : Bool

namespace MsgQueue

variable {E : Type}

/-- `queue_create`; `cells` is what `malloc` returned. -/
def queueCreate (cells : ℕ → E) (queueCapacity : ℕ) : MsgQueue E :=
  ⟨cells, 0, 0, 0, queueCapacity, 0, 0, false⟩

/-- `queue_full`. -/
def queueFull (q : MsgQueue E) : Bool := q.nelts == q.bounds

/-- `queue_empty`. -/
def queueEmpty (q : MsgQueue E) : Bool := q.nelts == 0

/-- The end of a push: `data[in] = data`, and the counters. -/
def store (q : MsgQueue E) (e : E) : MsgQueue E :=
  { q with
    data := Function.update q.data q.inAt e
    inAt := (q.inAt + 1) % q.bounds
    nelts := q.nelts + 1 }

/-- The element a pop returns, `data[out]`. -/
def front (q : MsgQueue E) : E := q.data q.outAt

/-- The counters after a pop. -/
def take (q : MsgQueue E) : MsgQueue E :=
  { q with nelts := q.nelts - 1, outAt := (q.outAt + 1) % q.bounds }

/-- The messages in the queue, the oldest first. -/
def contents (q : MsgQueue E) : List E := RingBuffer.read q.bounds q.data q.outAt q.nelts

/-- The counters fit together. -/
structure Wf (q : MsgQueue E) : Prop where
  bound : q.nelts ≤ q.bounds
  out_mod : q.outAt % q.bounds = q.outAt
  in_eq : q.inAt = (q.outAt + q.nelts) % q.bounds

variable {q : MsgQueue E}

/-- The queue is full at its bound. -/
theorem queueFull_iff : q.queueFull = true ↔ q.nelts = q.bounds := beq_iff_eq

/-- The queue is empty without elements. -/
theorem queueEmpty_iff : q.queueEmpty = true ↔ q.nelts = 0 := beq_iff_eq

theorem length_contents (q : MsgQueue E) : q.contents.length = q.nelts :=
  RingBuffer.length_read ..

theorem queueCreate_wf (cells : ℕ → E) (queueCapacity : ℕ) :
    (queueCreate cells queueCapacity).Wf :=
  ⟨Nat.zero_le _, Nat.zero_mod _, (Nat.zero_mod _).symm⟩

/-- A store puts its message behind the others. -/
theorem Wf.store (h : q.Wf) (hfull : q.queueFull = false) (e : E) :
    (q.store e).Wf ∧ (q.store e).contents = q.contents ++ [e] := by
  have hroom : q.nelts < q.bounds := by
    have hne : q.nelts ≠ q.bounds := fun he => by
      rw [queueFull_iff.mpr he] at hfull
      cases hfull
    have hbound := h.bound
    omega
  refine ⟨⟨hroom, h.out_mod, ?_⟩, ?_⟩
  · show (q.inAt + 1) % q.bounds = (q.outAt + (q.nelts + 1)) % q.bounds
    rw [h.in_eq, Nat.mod_add_mod, add_assoc]
  · show RingBuffer.read q.bounds (Function.update q.data q.inAt e) q.outAt (q.nelts + 1) = _
    rw [h.in_eq]
    exact RingBuffer.read_update_succ q.data q.outAt hroom e

/-- A pop takes the oldest message. -/
theorem Wf.take (h : q.Wf) (hempty : q.queueEmpty = false) :
    q.take.Wf ∧ q.contents = q.front :: q.take.contents := by
  have hpos : 0 < q.nelts := by
    refine Nat.pos_of_ne_zero fun he => ?_
    rw [queueEmpty_iff.mpr he] at hempty
    cases hempty
  have hbound := h.bound
  refine ⟨⟨?_, Nat.mod_mod _ _, ?_⟩, ?_⟩
  · show q.nelts - 1 ≤ q.bounds
    omega
  · show q.inAt = ((q.outAt + 1) % q.bounds + (q.nelts - 1)) % q.bounds
    rw [h.in_eq, Nat.mod_add_mod]
    congr 1
    omega
  · show RingBuffer.read q.bounds q.data q.outAt q.nelts
      = q.front :: RingBuffer.read q.bounds q.data ((q.outAt + 1) % q.bounds) (q.nelts - 1)
    rw [RingBuffer.read_mod, front]
    nth_rewrite 1 [show q.nelts = q.nelts - 1 + 1 by omega]
    rw [RingBuffer.read_succ, h.out_mod]

end MsgQueue

/-! ## Calls -/

/-- What a call returns: 0, `QUEUE_EOF`, `QUEUE_EINTR`, `QUEUE_EAGAIN` or `QUEUE_TIMEOUT`. -/
inductive QueueRet where
  | ok
  | eof
  | eintr
  | eagain
  | timeout
  deriving DecidableEq, Repr

/-- A call that has returned: a push of a message, a pop with what it has put into `*data`, or
`queue_interrupt_all` or `queue_term`, which return 0. -/
inductive QueueReturn (E : Type) where
  | push (e : E) (r : QueueRet)
  | pop (r : QueueRet) (data : Option E)
  | control
  deriving DecidableEq, Repr

namespace QueueReturn

variable {E : Type}

/-- What the call returned. -/
def ret : QueueReturn E → QueueRet
  | push _ r => r
  | pop r _ => r
  | control => .ok

/-- The message of a push that returned 0. -/
def accepted : QueueReturn E → Option E
  | push e .ok => some e
  | _ => none

/-- The message of a push that returned an error. -/
def rejected : QueueReturn E → Option E
  | push _ .ok => none
  | push e _ => some e
  | _ => none

/-- The message that a pop that returned 0 has given out. -/
def delivered : QueueReturn E → Option E
  | pop .ok data => data
  | _ => none

end QueueReturn

/-- `queue_pop`, with a timeout or without, and `queue_trypop`. -/
inductive PopMode where
  | wait (timed : Bool)
  | tryOnce
  deriving DecidableEq, Repr

/-- Where a thread is.  `pushing` and `popping` have read `terminated` and come to the lock
(`wait` tells `queue_push` from `queue_trypush`); `pushWoken` and `popWoken` come to it again
after the wait; `pushLeft` and `popLeft` are past the unlock of a call that found the queue
full, or empty, a second time; `interrupting` is between the sections of `queue_term`. -/
inductive CallPc (E : Type) where
  | idle
  | pushing (e : E) (wait : Bool)
  | pushWaiting (e : E)
  | pushWoken (e : E)
  | pushLeft (e : E)
  | popping (mode : PopMode)
  | popWaiting (timed : Bool)
  | popWoken (timeUp : Bool)
  | popLeft
  | interrupting
  deriving DecidableEq

/-- The message that a push in progress holds. -/
def CallPc.held {E : Type} : CallPc E → Multiset E
  | .pushing e _ => {e}
  | .pushWaiting e => {e}
  | .pushWoken e => {e}
  | .pushLeft e => {e}
  | _ => 0

/-- A signal of `not_full` reaches a thread, or does not. -/
def CallPc.signalFull {E : Type} (pc : CallPc E) (wake : Bool) : CallPc E :=
  match pc with
  | .pushWaiting e => if wake then .pushWoken e else pc
  | _ => pc

/-- A signal of `not_empty` reaches a thread, or does not. -/
def CallPc.signalEmpty {E : Type} (pc : CallPc E) (wake : Bool) : CallPc E :=
  match pc with
  | .popWaiting _ => if wake then .popWoken false else pc
  | _ => pc

theorem CallPc.held_signalFull {E : Type} (pc : CallPc E) (wake : Bool) :
    (pc.signalFull wake).held = pc.held := by
  cases pc <;> cases wake <;> rfl

theorem CallPc.held_signalEmpty {E : Type} (pc : CallPc E) (wake : Bool) :
    (pc.signalEmpty wake).held = pc.held := by
  cases pc <;> cases wake <;> rfl

/-- One queue, the threads around it, and what happened so far: the messages handed to a
push, stored, taken by a pop and refused, each in the order of time, and the calls that have
returned. -/
structure QueueCalls (τ E : Type) where
  queue : MsgQueue E
  pc : τ → CallPc E
  handed : List E
  stored : List E
  popped : List E
  refused : List E
  returned : List (τ × QueueReturn E)

namespace QueueCalls

variable {τ E : Type}

/-- A fresh queue with no thread inside. -/
def start (cells : ℕ → E) (queueCapacity : ℕ) : QueueCalls τ E where
  queue := .queueCreate cells queueCapacity
  pc := fun _ => .idle
  handed := []
  stored := []
  popped := []
  refused := []
  returned := []

/-- Release the threads picked by `wake` among those that wait for room. -/
def wakeFull (s : QueueCalls τ E) (wake : τ → Bool) : QueueCalls τ E :=
  { s with pc := fun t => (s.pc t).signalFull (wake t) }

/-- Release the threads picked by `wake` among those that wait for a message. -/
def wakeEmpty (s : QueueCalls τ E) (wake : τ → Bool) : QueueCalls τ E :=
  { s with pc := fun t => (s.pc t).signalEmpty (wake t) }

variable [DecidableEq τ]

/-- Thread `t` goes to `pc`. -/
def moveTo (s : QueueCalls τ E) (t : τ) (pc : CallPc E) : QueueCalls τ E :=
  { s with pc := Function.update s.pc t pc }

/-- The call of `t` returns. -/
def finish (s : QueueCalls τ E) (t : τ) (r : QueueReturn E) : QueueCalls τ E :=
  moveTo { s with returned := s.returned ++ [(t, r)] } t .idle

/-- The push of `t` returns an error; its message is not stored. -/
def refuse (s : QueueCalls τ E) (t : τ) (e : E) (r : QueueRet) : QueueCalls τ E :=
  finish { s with refused := s.refused ++ [e] } t (.push e r)

/-- The read of `terminated` at the start of `queue_push` and `queue_trypush`. -/
def pushCall (s : QueueCalls τ E) (t : τ) (e : E) (wait : Bool) : QueueCalls τ E :=
  let s := { s with handed := s.handed ++ [e] }
  if s.queue.terminated then s.refuse t e .eof else s.moveTo t (.pushing e wait)

/-- The end of a push: the store, the signal and the unlock. -/
def pushStore (s : QueueCalls τ E) (t : τ) (e : E) (wake : τ → Bool) : QueueCalls τ E :=
  let s := { s with queue := s.queue.store e, stored := s.stored ++ [e] }
  let s := if s.queue.emptyWaiters ≠ 0 then s.wakeEmpty wake else s
  s.finish t (.push e .ok)

/-- The section that a push starts with, up to the wait when there is one. -/
def pushSection (s : QueueCalls τ E) (t : τ) (e : E) (wait : Bool) (wake : τ → Bool) :
    QueueCalls τ E :=
  if s.queue.queueFull then
    if wait then
      if s.queue.terminated then s.moveTo t (.pushLeft e)
      else
        moveTo { s with queue := { s.queue with fullWaiters := s.queue.fullWaiters + 1 } } t
          (.pushWaiting e)
    else s.refuse t e .eagain
  else s.pushStore t e wake

/-- The section after the wait of `queue_push`. -/
def pushRecheck (s : QueueCalls τ E) (t : τ) (e : E) (wake : τ → Bool) : QueueCalls τ E :=
  let s := { s with queue := { s.queue with fullWaiters := s.queue.fullWaiters - 1 } }
  if s.queue.queueFull then s.moveTo t (.pushLeft e) else s.pushStore t e wake

/-- The read of `terminated` after the unlock, and the return. -/
def pushDecide (s : QueueCalls τ E) (t : τ) (e : E) : QueueCalls τ E :=
  s.refuse t e (if s.queue.terminated then .eof else .eintr)

/-- The read of `terminated` at the start of `queue_pop` and `queue_trypop`. -/
def popCall (s : QueueCalls τ E) (t : τ) (mode : PopMode) : QueueCalls τ E :=
  if s.queue.terminated then s.finish t (.pop .eof none) else s.moveTo t (.popping mode)

/-- The end of a pop: the read of the cell, the signal and the unlock. -/
def popTake (s : QueueCalls τ E) (t : τ) (wake : τ → Bool) : QueueCalls τ E :=
  let data := s.queue.front
  let s := { s with queue := s.queue.take, popped := s.popped ++ [data] }
  let s := if s.queue.fullWaiters ≠ 0 then s.wakeFull wake else s
  s.finish t (.pop .ok (some data))

/-- The section that a pop starts with, up to the wait when there is one. -/
def popSection (s : QueueCalls τ E) (t : τ) (mode : PopMode) (wake : τ → Bool) :
    QueueCalls τ E :=
  if s.queue.queueEmpty then
    match mode with
    | .wait timed =>
        if s.queue.terminated then s.moveTo t .popLeft
        else
          moveTo { s with queue := { s.queue with emptyWaiters := s.queue.emptyWaiters + 1 } } t
            (.popWaiting timed)
    | .tryOnce => s.finish t (.pop .eagain none)
  else s.popTake t wake

/-- The section after the wait of `queue_pop`. -/
def popRecheck (s : QueueCalls τ E) (t : τ) (timeUp : Bool) (wake : τ → Bool) :
    QueueCalls τ E :=
  let s := { s with queue := { s.queue with emptyWaiters := s.queue.emptyWaiters - 1 } }
  if timeUp then s.finish t (.pop .timeout none)
  else if s.queue.queueEmpty then s.moveTo t .popLeft
  else s.popTake t wake

/-- The read of `terminated` after the unlock, and the return. -/
def popDecide (s : QueueCalls τ E) (t : τ) : QueueCalls τ E :=
  s.finish t (.pop (if s.queue.terminated then .eof else .eintr) none)

/-- `queue_interrupt_all`: the broadcasts release every waiting thread. -/
def interruptAll (s : QueueCalls τ E) : QueueCalls τ E :=
  (s.wakeEmpty fun _ => true).wakeFull fun _ => true

/-- The first section of `queue_term`. -/
def setTerminated (s : QueueCalls τ E) (t : τ) : QueueCalls τ E :=
  moveTo { s with queue := { s.queue with terminated := true } } t .interrupting

/-- The moves of the threads.  `enter` is the first lock section of a push or pop, `relock`
the one after its wait; `wake` is what the signal of the section releases. -/
inductive Act (τ E : Type) where
  | pushCall (t : τ) (e : E) (wait : Bool)
  | popCall (t : τ) (mode : PopMode)
  | enter (t : τ) (wake : τ → Bool)
  | wakeSpuriously (t : τ)
  | timeUp (t : τ)
  | relock (t : τ) (wake : τ → Bool)
  | decide (t : τ)
  | interruptAll (t : τ)
  | termLock (t : τ)
  | termInterrupt (t : τ)

/-- One lock section, one wake-up or one read outside the lock. -/
def step (s : QueueCalls τ E) : Act τ E → Option (QueueCalls τ E)
  | .pushCall t e wait => match s.pc t with
      | .idle => some (s.pushCall t e wait)
      | _ => none
  | .popCall t mode => match s.pc t with
      | .idle => some (s.popCall t mode)
      | _ => none
  | .enter t wake => match s.pc t with
      | .pushing e wait => some (s.pushSection t e wait wake)
      | .popping mode => some (s.popSection t mode wake)
      | _ => none
  | .wakeSpuriously t => match s.pc t with
      | .pushWaiting e => some (s.moveTo t (.pushWoken e))
      | .popWaiting _ => some (s.moveTo t (.popWoken false))
      | _ => none
  | .timeUp t => match s.pc t with
      | .popWaiting true => some (s.moveTo t (.popWoken true))
      | _ => none
  | .relock t wake => match s.pc t with
      | .pushWoken e => some (s.pushRecheck t e wake)
      | .popWoken timeUp => some (s.popRecheck t timeUp wake)
      | _ => none
  | .decide t => match s.pc t with
      | .pushLeft e => some (s.pushDecide t e)
      | .popLeft => some (s.popDecide t)
      | _ => none
  | .interruptAll t => match s.pc t with
      | .idle => some (s.interruptAll.finish t .control)
      | _ => none
  | .termLock t => match s.pc t with
      | .idle => some (s.setTerminated t)
      | _ => none
  | .termInterrupt t => match s.pc t with
      | .interrupting => some (s.interruptAll.finish t .control)
      | _ => none

/-- What a step does, by the place of the thread that moves. -/
inductive Moves (s : QueueCalls τ E) : Act τ E → QueueCalls τ E → Prop where
  | pushCall {t : τ} {e : E} {wait : Bool} (h : s.pc t = .idle) :
      Moves s (.pushCall t e wait) (s.pushCall t e wait)
  | popCall {t : τ} {mode : PopMode} (h : s.pc t = .idle) :
      Moves s (.popCall t mode) (s.popCall t mode)
  | enterPush {t : τ} {e : E} {wait : Bool} {wake : τ → Bool} (h : s.pc t = .pushing e wait) :
      Moves s (.enter t wake) (s.pushSection t e wait wake)
  | enterPop {t : τ} {mode : PopMode} {wake : τ → Bool} (h : s.pc t = .popping mode) :
      Moves s (.enter t wake) (s.popSection t mode wake)
  | wakePush {t : τ} {e : E} (h : s.pc t = .pushWaiting e) :
      Moves s (.wakeSpuriously t) (s.moveTo t (.pushWoken e))
  | wakePop {t : τ} {timed : Bool} (h : s.pc t = .popWaiting timed) :
      Moves s (.wakeSpuriously t) (s.moveTo t (.popWoken false))
  | timeUp {t : τ} (h : s.pc t = .popWaiting true) :
      Moves s (.timeUp t) (s.moveTo t (.popWoken true))
  | relockPush {t : τ} {e : E} {wake : τ → Bool} (h : s.pc t = .pushWoken e) :
      Moves s (.relock t wake) (s.pushRecheck t e wake)
  | relockPop {t : τ} {timeUp : Bool} {wake : τ → Bool} (h : s.pc t = .popWoken timeUp) :
      Moves s (.relock t wake) (s.popRecheck t timeUp wake)
  | decidePush {t : τ} {e : E} (h : s.pc t = .pushLeft e) :
      Moves s (.decide t) (s.pushDecide t e)
  | decidePop {t : τ} (h : s.pc t = .popLeft) : Moves s (.decide t) (s.popDecide t)
  | interruptAll {t : τ} (h : s.pc t = .idle) :
      Moves s (.interruptAll t) (s.interruptAll.finish t .control)
  | termLock {t : τ} (h : s.pc t = .idle) : Moves s (.termLock t) (s.setTerminated t)
  | termInterrupt {t : τ} (h : s.pc t = .interrupting) :
      Moves s (.termInterrupt t) (s.interruptAll.finish t .control)

/-- Every step is one of these. -/
theorem moves_of_step {s s' : QueueCalls τ E} {a : Act τ E} (hs : s.step a = some s') :
    Moves s a s' := by
  unfold step at hs
  cases a with
  | pushCall t e wait | popCall t mode | enter t wake | wakeSpuriously t | relock t wake
  | decide t | interruptAll t | termLock t | termInterrupt t =>
      dsimp only at hs
      split at hs
      all_goals first
        | cases hs; constructor; assumption
        | cases hs
  | timeUp t =>
      dsimp only at hs
      split at hs
      · cases hs
        constructor
        assumption
      · cases hs

end QueueCalls

/-! ## The invariant -/

namespace QueueCalls

variable {τ E : Type} [Fintype τ]

/-- The messages held by pushes in progress. -/
def pending (pc : τ → CallPc E) : Multiset E := ∑ t, (pc t).held

/-- What every state keeps: the ring is sound, the messages stored are those returned and
then those in the queue, in order, and the messages handed to a push are those stored, those
held by pushes in progress and those refused.  In the middle of a section the messages
`twice` are counted twice. -/
structure Accounted (twice : Multiset E) (s : QueueCalls τ E) : Prop where
  wf : s.queue.Wf
  fifo : s.stored = s.popped ++ s.queue.contents
  work : (s.handed : Multiset E) + twice = s.stored + pending s.pc + s.refused

theorem accounted_start (cells : ℕ → E) (queueCapacity : ℕ) :
    Accounted 0 (start cells queueCapacity : QueueCalls τ E) := by
  refine ⟨MsgQueue.queueCreate_wf cells queueCapacity, rfl, ?_⟩
  show (0 : Multiset E) + 0 = 0 + pending (fun _ : τ => CallPc.idle) + 0
  rw [pending]
  simp [CallPc.held]

variable {s : QueueCalls τ E} {t : τ} {e : E} {twice : Multiset E}

/-- Threads move without their messages. -/
theorem Accounted.setPc (h : s.Accounted twice) {pc : τ → CallPc E}
    (hpc : ∀ t, (pc t).held = (s.pc t).held) : Accounted twice { s with pc } := by
  refine ⟨h.wf, h.fifo, ?_⟩
  have hsame : pending pc = pending s.pc := Finset.sum_congr rfl fun u _ => hpc u
  show (s.handed : Multiset E) + twice = s.stored + pending pc + s.refused
  rw [hsame]
  exact h.work

theorem Accounted.wakeFull (h : s.Accounted twice) (wake : τ → Bool) :
    (s.wakeFull wake).Accounted twice :=
  h.setPc fun t => (s.pc t).held_signalFull (wake t)

theorem Accounted.wakeEmpty (h : s.Accounted twice) (wake : τ → Bool) :
    (s.wakeEmpty wake).Accounted twice :=
  h.setPc fun t => (s.pc t).held_signalEmpty (wake t)

/-- The queue changes, but not its messages. -/
theorem Accounted.setQueue (h : s.Accounted twice) {queue : MsgQueue E} (hwf : queue.Wf)
    (hcontents : queue.contents = s.queue.contents) : Accounted twice { s with queue } :=
  ⟨hwf, by rw [hcontents]; exact h.fifo, h.work⟩

/-- The counters of the waiting threads, and `terminated`. -/
theorem Accounted.setCounters (h : s.Accounted twice) (full empty : ℕ) (terminated : Bool) :
    Accounted twice { s with queue := { s.queue with
      fullWaiters := full
      emptyWaiters := empty
      terminated := terminated } } :=
  h.setQueue ⟨h.wf.bound, h.wf.out_mod, h.wf.in_eq⟩ rfl

/-- A message is handed over. -/
theorem Accounted.hand (h : s.Accounted {e}) :
    Accounted 0 { s with handed := s.handed ++ [e] } := by
  refine ⟨h.wf, h.fifo, ?_⟩
  show ((s.handed ++ [e] : List E) : Multiset E) + 0 = s.stored + pending s.pc + s.refused
  rw [← h.work, add_zero, ← Multiset.coe_add, Multiset.coe_singleton]

/-- A message is refused. -/
theorem Accounted.note (h : s.Accounted 0) (e : E) :
    Accounted {e} { s with refused := s.refused ++ [e] } := by
  refine ⟨h.wf, h.fifo, ?_⟩
  show (s.handed : Multiset E) + {e} = s.stored + pending s.pc + (s.refused ++ [e] : List E)
  have hwork := h.work
  rw [add_zero] at hwork
  rw [hwork, ← Multiset.coe_add, Multiset.coe_singleton, add_assoc _ (s.refused : Multiset E)]

/-- A message is stored. -/
theorem Accounted.store (h : s.Accounted 0) (hfull : s.queue.queueFull = false) (e : E) :
    Accounted {e} { s with queue := s.queue.store e, stored := s.stored ++ [e] } := by
  obtain ⟨hwf, hcontents⟩ := h.wf.store hfull e
  refine ⟨hwf, ?_, ?_⟩
  · show s.stored ++ [e] = s.popped ++ (s.queue.store e).contents
    rw [h.fifo, hcontents, List.append_assoc]
  · show (s.handed : Multiset E) + {e} = (s.stored ++ [e] : List E) + pending s.pc + s.refused
    have hwork := h.work
    rw [add_zero] at hwork
    rw [hwork, ← Multiset.coe_add, Multiset.coe_singleton]
    abel

/-- A message is taken. -/
theorem Accounted.take (h : s.Accounted 0) (hempty : s.queue.queueEmpty = false) :
    Accounted 0 { s with queue := s.queue.take, popped := s.popped ++ [s.queue.front] } := by
  obtain ⟨hwf, hcontents⟩ := h.wf.take hempty
  refine ⟨hwf, ?_, h.work⟩
  show s.stored = s.popped ++ [s.queue.front] ++ s.queue.take.contents
  rw [h.fifo, hcontents, List.append_assoc, List.singleton_append]

variable [DecidableEq τ]

/-- One thread moves. -/
theorem pending_update (pc : τ → CallPc E) (t : τ) (x : CallPc E) :
    pending (Function.update pc t x) + (pc t).held = pending pc + x.held := by
  have hsplit : ∀ f : τ → CallPc E,
      pending f = (f t).held + ∑ u ∈ Finset.univ.erase t, (f u).held :=
    fun f => (Finset.add_sum_erase _ _ (Finset.mem_univ t)).symm
  have hrest : ∑ u ∈ Finset.univ.erase t, (Function.update pc t x u).held
      = ∑ u ∈ Finset.univ.erase t, (pc u).held := by
    refine Finset.sum_congr rfl fun u hu => ?_
    rw [Function.update_of_ne (Finset.ne_of_mem_erase hu)]
  rw [hsplit (Function.update pc t x), hsplit pc, hrest, Function.update_self]
  abel

/-- A thread moves and takes up, or gives up, a message that is counted twice. -/
theorem Accounted.moveTo (h : s.Accounted twice) {pc : CallPc E} {twice' : Multiset E}
    (hpc : twice + pc.held = twice' + (s.pc t).held) : (s.moveTo t pc).Accounted twice' := by
  refine ⟨h.wf, h.fifo, ?_⟩
  show (s.handed : Multiset E) + twice' = s.stored + pending (Function.update s.pc t pc) + s.refused
  apply add_right_cancel (b := (s.pc t).held)
  calc (s.handed : Multiset E) + twice' + (s.pc t).held
      = s.handed + twice + pc.held := by rw [add_assoc, ← hpc, add_assoc]
    _ = s.stored + (pending s.pc + pc.held) + s.refused := by
        rw [h.work]
        abel
    _ = s.stored + pending (Function.update s.pc t pc) + s.refused + (s.pc t).held := by
        rw [← pending_update]
        abel

theorem Accounted.finish (h : s.Accounted (s.pc t).held) (r : QueueReturn E) :
    (s.finish t r).Accounted 0 := by
  have hreturned : Accounted (s.pc t).held { s with returned := s.returned ++ [(t, r)] } :=
    ⟨h.wf, h.fifo, h.work⟩
  apply hreturned.moveTo
  show (s.pc t).held + 0 = 0 + (s.pc t).held
  rw [add_comm]

/-- A call that holds no message returns. -/
theorem Accounted.finish_of_idle (h : s.Accounted 0) (ht : (s.pc t).held = 0)
    (r : QueueReturn E) :
    (s.finish t r).Accounted 0 :=
  Accounted.finish (by rw [ht]; exact h) r

/-! ## Sections -/

/-- A push that is refused keeps its element to itself. -/
theorem Accounted.refuse (h : s.Accounted 0) (ht : (s.pc t).held = {e}) (r : QueueRet) :
    (s.refuse t e r).Accounted 0 := by
  refine Accounted.finish ?_ (.push e r)
  show Accounted (s.pc t).held _
  rw [ht]
  exact h.note e

theorem Accounted.pushCall (h : s.Accounted 0) (ht : s.pc t = .idle) (e : E) (wait : Bool) :
    (s.pushCall t e wait).Accounted 0 := by
  have hheld : (s.pc t).held = 0 := by
    rw [ht]
    rfl
  unfold QueueCalls.pushCall
  dsimp only
  split_ifs
  · -- terminated: handed over and refused at once
    apply Accounted.finish
    show Accounted (s.pc t).held _
    rw [hheld]
    exact (h.note e).hand
  · -- the push holds the message from here on
    have hmove : (s.moveTo t (.pushing e wait)).Accounted {e} := by
      apply h.moveTo
      rw [hheld, add_zero, zero_add]
      rfl
    exact hmove.hand

/-- The end of a push that has found room. -/
theorem Accounted.pushStore (h : s.Accounted 0) (ht : (s.pc t).held = {e})
    (hfull : s.queue.queueFull = false) (wake : τ → Bool) :
    (s.pushStore t e wake).Accounted 0 := by
  have hstore := h.store hfull e
  unfold QueueCalls.pushStore
  dsimp only
  apply Accounted.finish
  split_ifs
  · show Accounted ((s.pc t).signalEmpty (wake t)).held _
    rw [CallPc.held_signalEmpty, ht]
    exact hstore.wakeEmpty wake
  · show Accounted (s.pc t).held _
    rw [ht]
    exact hstore

/-- The end of a pop that has found a message. -/
theorem Accounted.popTake (h : s.Accounted 0) (ht : (s.pc t).held = 0)
    (hempty : s.queue.queueEmpty = false) (wake : τ → Bool) : (s.popTake t wake).Accounted 0 := by
  have htake := h.take hempty
  unfold QueueCalls.popTake
  dsimp only
  apply Accounted.finish
  split_ifs
  · show Accounted ((s.pc t).signalFull (wake t)).held _
    rw [CallPc.held_signalFull, ht]
    exact htake.wakeFull wake
  · show Accounted (s.pc t).held _
    rw [ht]
    exact htake

theorem Accounted.pushSection (h : s.Accounted 0) {wait : Bool} (ht : s.pc t = .pushing e wait)
    (wake : τ → Bool) : (s.pushSection t e wait wake).Accounted 0 := by
  have hheld : (s.pc t).held = {e} := by
    rw [ht]
    rfl
  unfold QueueCalls.pushSection
  split_ifs with hfull hwait hterm
  · exact h.moveTo (by rw [hheld]; rfl)
  · -- the wait keeps the message in the hands of the push
    apply Accounted.moveTo (h.setCounters _ s.queue.emptyWaiters s.queue.terminated)
    show 0 + {e} = 0 + (s.pc t).held
    rw [hheld]
  · exact h.refuse hheld _
  · exact h.pushStore hheld (Bool.eq_false_iff.mpr hfull) wake

theorem Accounted.pushRecheck (h : s.Accounted 0) (ht : s.pc t = .pushWoken e)
    (wake : τ → Bool) : (s.pushRecheck t e wake).Accounted 0 := by
  have hheld : (s.pc t).held = {e} := by
    rw [ht]
    rfl
  have hback := h.setCounters (s.queue.fullWaiters - 1) s.queue.emptyWaiters s.queue.terminated
  unfold QueueCalls.pushRecheck
  dsimp only
  split_ifs with hfull
  · -- full again: the message goes with the thread to the return
    apply hback.moveTo
    show 0 + {e} = 0 + (s.pc t).held
    rw [hheld]
  · exact hback.pushStore hheld (Bool.eq_false_iff.mpr hfull) wake

theorem Accounted.popSection (h : s.Accounted 0) {mode : PopMode} (ht : s.pc t = .popping mode)
    (wake : τ → Bool) : (s.popSection t mode wake).Accounted 0 := by
  have hheld : (s.pc t).held = 0 := by
    rw [ht]
    rfl
  unfold QueueCalls.popSection
  by_cases hempty : s.queue.queueEmpty = true
  · rw [if_pos hempty]
    cases mode with
    | wait timed =>
        dsimp only
        split_ifs
        · exact h.moveTo (by rw [hheld]; rfl)
        · apply Accounted.moveTo (h.setCounters s.queue.fullWaiters _ s.queue.terminated)
          show 0 + 0 = 0 + (s.pc t).held
          rw [hheld]
    | tryOnce => exact h.finish_of_idle hheld _
  · rw [if_neg hempty]
    exact h.popTake hheld (Bool.eq_false_iff.mpr hempty) wake

theorem Accounted.popRecheck (h : s.Accounted 0) {timeUp : Bool} (ht : s.pc t = .popWoken timeUp)
    (wake : τ → Bool) : (s.popRecheck t timeUp wake).Accounted 0 := by
  have hheld : (s.pc t).held = 0 := by
    rw [ht]
    rfl
  have hback := h.setCounters s.queue.fullWaiters (s.queue.emptyWaiters - 1) s.queue.terminated
  unfold QueueCalls.popRecheck
  dsimp only
  split_ifs with htime hempty
  · -- a wait that ran out returns without a look at the queue
    exact hback.finish_of_idle hheld _
  · apply hback.moveTo
    show 0 + 0 = 0 + (s.pc t).held
    rw [hheld]
  · exact hback.popTake hheld (Bool.eq_false_iff.mpr hempty) wake

/-- The broadcasts, and the return of their caller. -/
theorem Accounted.interruptAll (h : s.Accounted 0) (ht : (s.pc t).held = 0)
    (r : QueueReturn E) :
    (s.interruptAll.finish t r).Accounted 0 := by
  refine Accounted.finish_of_idle ((h.wakeEmpty _).wakeFull _) ?_ r
  show (((s.pc t).signalEmpty true).signalFull true).held = 0
  rw [CallPc.held_signalFull, CallPc.held_signalEmpty, ht]

/-- Every step keeps the accounts. -/
theorem Accounted.step {s' : QueueCalls τ E} {a : Act τ E} (h : s.Accounted 0)
    (hs : s.step a = some s') : s'.Accounted 0 := by
  cases moves_of_step hs with
  | pushCall ht => exact h.pushCall ht _ _
  | popCall ht =>
      have hheld : (s.pc _).held = 0 := congrArg CallPc.held ht
      unfold QueueCalls.popCall
      split_ifs
      · exact h.finish_of_idle hheld _
      · exact h.moveTo (by rw [hheld]; rfl)
  | enterPush ht => exact h.pushSection ht _
  | enterPop ht => exact h.popSection ht _
  | wakePush ht => exact h.moveTo (by rw [ht]; rfl)
  | wakePop ht => exact h.moveTo (by rw [ht]; rfl)
  | timeUp ht => exact h.moveTo (by rw [ht]; rfl)
  | relockPush ht => exact h.pushRecheck ht _
  | relockPop ht => exact h.popRecheck ht _
  | decidePush ht => exact h.refuse (congrArg CallPc.held ht) _
  | decidePop ht =>
      have hheld : (s.pc _).held = 0 := congrArg CallPc.held ht
      exact h.finish_of_idle hheld _
  | interruptAll ht => exact h.interruptAll (congrArg CallPc.held ht) _
  | termLock ht =>
      apply Accounted.moveTo (h.setCounters s.queue.fullWaiters s.queue.emptyWaiters true)
      show 0 + 0 = 0 + (s.pc _).held
      rw [ht]
      rfl
  | termInterrupt ht => exact h.interruptAll (congrArg CallPc.held ht) _

/-- **The message queue loses nothing that it has stored.**  In every state of every
interleaving of the calls, the messages stored are the messages returned by pops followed by
the messages in the queue, in the order of the stores, and the messages handed to a push are
those stored, those held by pushes in progress and those whose push returned an error. -/
theorem queue_accounted {cells : ℕ → E} {queueCapacity : ℕ} {s : QueueCalls τ E}
    (h : Reach step Always (start cells queueCapacity) s) :
    s.queue.Wf ∧ s.stored = s.popped ++ s.queue.contents ∧
      (s.handed : Multiset E) = s.stored + pending s.pc + s.refused := by
  have hacc : s.Accounted 0 := by
    apply h.invariant (Accounted 0) (accounted_start cells queueCapacity)
    intro s a s' hacc _ hs
    exact hacc.step hs
  exact ⟨hacc.wf, hacc.fifo, by rw [← hacc.work, add_zero]⟩

end QueueCalls

/-! ## What the calls return -/

namespace QueueCalls

variable {τ E : Type} {s s' : QueueCalls τ E} {t : τ} {e : E}

/-- The messages of the pushes that returned 0, in the order of their returns. -/
def accepted (returned : List (τ × QueueReturn E)) : List E :=
  returned.filterMap fun x => x.2.accepted

/-- The messages of the pushes that returned an error. -/
def rejected (returned : List (τ × QueueReturn E)) : List E :=
  returned.filterMap fun x => x.2.rejected

/-- The messages of the pops that returned 0, in the order of their returns. -/
def delivered (returned : List (τ × QueueReturn E)) : List E :=
  returned.filterMap fun x => x.2.delivered

/-- The thread that moves. -/
def Act.thread : Act τ E → τ
  | .pushCall t _ _ | .popCall t _ | .enter t _ | .wakeSpuriously t | .timeUp t | .relock t _
  | .decide t | .interruptAll t | .termLock t | .termInterrupt t => t

/-- The queue holds the same messages, and none was stored or popped. -/
def SameItems (s s' : QueueCalls τ E) : Prop :=
  s'.queue.contents = s.queue.contents ∧ s'.stored = s.stored ∧ s'.popped = s.popped

/-- What a step of `t` comes to: its call goes on, or returns without a change to the messages, or
it is a push that has stored its message and returns 0, or a pop that returns 0 with the message
that it has taken. -/
inductive Outcome (s : QueueCalls τ E) (t : τ) (s' : QueueCalls τ E) : Prop where
  | goesOn (hitems : SameItems s s') (hrefused : s'.refused = s.refused)
      (hret : s'.returned = s.returned)
  | returns (r : QueueReturn E) (hitems : SameItems s s') (haccepted : r.accepted = none)
      (hdelivered : r.delivered = none) (hrefused : s'.refused = s.refused ++ r.rejected.toList)
      (hret : s'.returned = s.returned ++ [(t, r)])
  | pushes (e : E) (hstored : s'.stored = s.stored ++ [e]) (hpopped : s'.popped = s.popped)
      (hrefused : s'.refused = s.refused) (hret : s'.returned = s.returned ++ [(t, .push e .ok)])
  | pops (e : E) (hstored : s'.stored = s.stored) (hpopped : s'.popped = s.popped ++ [e])
      (hrefused : s'.refused = s.refused)
      (hret : s'.returned = s.returned ++ [(t, .pop .ok (some e))])

/-- A change of nothing but the counters, or of the messages handed over, goes before. -/
theorem Outcome.congr {s₀ : QueueCalls τ E} (h : Outcome s₀ t s') (hitems : SameItems s s₀)
    (hrefused : s₀.refused = s.refused) (hret : s₀.returned = s.returned) : Outcome s t s' := by
  obtain ⟨hcontents, hstored, hpopped⟩ := hitems
  cases h with
  | goesOn hitems hrefused' hret' =>
      obtain ⟨hcontents', hstored', hpopped'⟩ := hitems
      exact .goesOn ⟨hcontents'.trans hcontents, hstored'.trans hstored, hpopped'.trans hpopped⟩
        (hrefused'.trans hrefused) (hret'.trans hret)
  | returns r hitems haccepted hdelivered hrefused' hret' =>
      obtain ⟨hcontents', hstored', hpopped'⟩ := hitems
      exact .returns r
        ⟨hcontents'.trans hcontents, hstored'.trans hstored, hpopped'.trans hpopped⟩
        haccepted hdelivered (hrefused ▸ hrefused') (hret ▸ hret')
  | pushes e hstored' hpopped' hrefused' hret' =>
      exact .pushes e (hstored ▸ hstored') (hpopped'.trans hpopped) (hrefused'.trans hrefused)
        (hret ▸ hret')
  | pops e hstored' hpopped' hrefused' hret' =>
      exact .pops e (hstored'.trans hstored) (hpopped ▸ hpopped') (hrefused'.trans hrefused)
        (hret ▸ hret')

section Outcomes

variable [DecidableEq τ]

theorem outcome_refuse {r : QueueRet} (hr : r ≠ .ok) : Outcome s t (s.refuse t e r) := by
  have hrejected : (QueueReturn.push e r).rejected = some e := by
    cases r with
    | ok => exact absurd rfl hr
    | _ => rfl
  refine .returns (.push e r) ⟨rfl, rfl, rfl⟩ ?_ rfl ?_ rfl
  · cases r with
    | ok => exact absurd rfl hr
    | _ => rfl
  · rw [hrejected]
    rfl

theorem outcome_pushStore (wake : τ → Bool) : Outcome s t (s.pushStore t e wake) := by
  unfold QueueCalls.pushStore
  dsimp only
  split_ifs
  · exact .pushes e rfl rfl rfl rfl
  · exact .pushes e rfl rfl rfl rfl

theorem outcome_popTake (wake : τ → Bool) : Outcome s t (s.popTake t wake) := by
  unfold QueueCalls.popTake
  dsimp only
  split_ifs
  · exact .pops s.queue.front rfl rfl rfl rfl
  · exact .pops s.queue.front rfl rfl rfl rfl

/-- A pop returns an error. -/
theorem outcome_popFails {r : QueueRet} (hr : r ≠ .ok) :
    Outcome s t (s.finish t (.pop r none)) := by
  refine .returns (.pop r none) ⟨rfl, rfl, rfl⟩ rfl ?_ (List.append_nil _).symm rfl
  cases r with
  | ok => exact absurd rfl hr
  | _ => rfl

theorem outcome_pushSection (wait : Bool) (wake : τ → Bool) :
    Outcome s t (s.pushSection t e wait wake) := by
  unfold QueueCalls.pushSection
  split_ifs
  · exact .goesOn ⟨rfl, rfl, rfl⟩ rfl rfl
  · exact .goesOn ⟨rfl, rfl, rfl⟩ rfl rfl
  · exact outcome_refuse (by decide)
  · exact outcome_pushStore wake

theorem outcome_popSection (mode : PopMode) (wake : τ → Bool) :
    Outcome s t (s.popSection t mode wake) := by
  unfold QueueCalls.popSection
  by_cases hempty : s.queue.queueEmpty = true
  · rw [if_pos hempty]
    cases mode with
    | wait timed =>
        dsimp only
        split_ifs <;> exact .goesOn ⟨rfl, rfl, rfl⟩ rfl rfl
    | tryOnce => exact outcome_popFails (by decide)
  · rw [if_neg hempty]
    exact outcome_popTake wake

/-- The section after the wait: the counter of the waiting threads goes down first, which
changes nothing else. -/
theorem outcome_pushRecheck (wake : τ → Bool) : Outcome s t (s.pushRecheck t e wake) := by
  unfold QueueCalls.pushRecheck
  dsimp only
  split_ifs
  · exact .goesOn ⟨rfl, rfl, rfl⟩ rfl rfl
  · exact (outcome_pushStore wake).congr ⟨rfl, rfl, rfl⟩ rfl rfl

theorem outcome_popRecheck (timeUp : Bool) (wake : τ → Bool) :
    Outcome s t (s.popRecheck t timeUp wake) := by
  unfold QueueCalls.popRecheck
  dsimp only
  split_ifs
  · exact (outcome_popFails (by decide)).congr ⟨rfl, rfl, rfl⟩ rfl rfl
  · exact .goesOn ⟨rfl, rfl, rfl⟩ rfl rfl
  · exact (outcome_popTake wake).congr ⟨rfl, rfl, rfl⟩ rfl rfl

/-- **Step lemma.**  A step that changes the messages ends its call, and the return tells. -/
theorem outcome_of_step {a : Act τ E} (hs : s.step a = some s') : Outcome s a.thread s' := by
  have herror : ∀ b : Bool, (if b then QueueRet.eof else .eintr) ≠ .ok := by decide
  cases moves_of_step hs with
  | pushCall _ =>
      unfold QueueCalls.pushCall
      dsimp only
      split_ifs
      · exact (outcome_refuse (by decide)).congr ⟨rfl, rfl, rfl⟩ rfl rfl
      · exact .goesOn ⟨rfl, rfl, rfl⟩ rfl rfl
  | popCall _ =>
      unfold QueueCalls.popCall
      split_ifs
      · exact outcome_popFails (by decide)
      · exact .goesOn ⟨rfl, rfl, rfl⟩ rfl rfl
  | enterPush _ => exact outcome_pushSection _ _
  | enterPop _ => exact outcome_popSection _ _
  | wakePush _ | wakePop _ | timeUp _ | termLock _ => exact .goesOn ⟨rfl, rfl, rfl⟩ rfl rfl
  | relockPush _ => exact outcome_pushRecheck _
  | relockPop _ => exact outcome_popRecheck _ _
  | decidePush _ => exact outcome_refuse (herror _)
  | decidePop _ => exact outcome_popFails (herror _)
  | interruptAll _ | termInterrupt _ =>
      exact .returns .control ⟨rfl, rfl, rfl⟩ rfl rfl (List.append_nil _).symm rfl

end Outcomes

/-- What was stored, popped and refused is what the calls have returned. -/
structure Logged (s : QueueCalls τ E) : Prop where
  stored : s.stored = accepted s.returned
  popped : s.popped = delivered s.returned
  refused : s.refused = rejected s.returned

/-- No call has returned at the start. -/
theorem logged_start (cells : ℕ → E) (queueCapacity : ℕ) :
    Logged (start cells queueCapacity : QueueCalls τ E) :=
  ⟨rfl, rfl, rfl⟩

/-- What the returns tell stays true. -/
theorem Logged.outcome (h : s.Logged) (ho : Outcome s t s') : s'.Logged := by
  have hone : ∀ (f : τ × QueueReturn E → Option E) (r : QueueReturn E),
      (s.returned ++ [(t, r)]).filterMap f = s.returned.filterMap f ++ (f (t, r)).toList := by
    intro f r
    rw [List.filterMap_append]
    cases hf : f (t, r) <;> simp [hf]
  cases ho with
  | goesOn hitems hrefused hret =>
      obtain ⟨-, hstored, hpopped⟩ := hitems
      exact ⟨by rw [hret, hstored, h.stored], by rw [hret, hpopped, h.popped],
        by rw [hret, hrefused, h.refused]⟩
  | returns r hitems haccepted hdelivered hrefused hret =>
      obtain ⟨-, hstored, hpopped⟩ := hitems
      refine ⟨?_, ?_, ?_⟩
      · rw [hret, hstored, h.stored, accepted, accepted, hone]
        simp [haccepted]
      · rw [hret, hpopped, h.popped, delivered, delivered, hone]
        simp [hdelivered]
      · rw [hret, hrefused, h.refused, rejected, rejected, hone]
  | pushes e hstored hpopped hrefused hret =>
      refine ⟨?_, ?_, ?_⟩
      · rw [hret, hstored, h.stored, accepted, accepted, hone]
        rfl
      · rw [hret, hpopped, h.popped, delivered, delivered, hone]
        exact (List.append_nil _).symm
      · rw [hret, hrefused, h.refused, rejected, rejected, hone]
        exact (List.append_nil _).symm
  | pops e hstored hpopped hrefused hret =>
      refine ⟨?_, ?_, ?_⟩
      · rw [hret, hstored, h.stored, accepted, accepted, hone]
        exact (List.append_nil _).symm
      · rw [hret, hpopped, h.popped, delivered, delivered, hone]
        rfl
      · rw [hret, hrefused, h.refused, rejected, rejected, hone]
        exact (List.append_nil _).symm

/-- What has been returned stays returned. -/
theorem Outcome.returned_extends (h : Outcome s t s') : s.returned <+: s'.returned := by
  cases h with
  | goesOn _ _ hret => rw [hret]
  | returns r _ _ _ _ hret | pushes e _ _ _ hret | pops e _ _ _ hret =>
      rw [hret]
      exact List.prefix_append _ _

variable [DecidableEq τ]

/-- The log of returned calls only grows. -/
theorem returned_extends (h : Reach step Always s s') : s.returned <+: s'.returned := by
  induction h with
  | refl => exact List.prefix_rfl
  | tail _ _ hs ih => exact ih.trans (outcome_of_step hs).returned_extends

/-- **Run lemma.** -/
theorem logged_of_reach {cells : ℕ → E} {queueCapacity : ℕ}
    (h : Reach step Always (start cells queueCapacity) s) : s.Logged := by
  apply h.invariant Logged (logged_start cells queueCapacity)
  intro s a s' hlogged _ hs
  exact hlogged.outcome (outcome_of_step hs)

/-- **The bounded queue is a FIFO.**  In every state of every interleaving the counters fit
the ring; the messages that pops have returned are the first of those whose push has returned 0,
in the order of the pushes, and the others are in the queue; every message handed to a push is
one whose push has returned 0 or an error or is in progress; and a step of a thread changes the
messages only if its call returns 0: in any stretch of a run in which no call of the thread does,
each of its steps leaves the queue and the messages accepted and delivered as they were. -/
theorem queue_linearizable [Fintype τ] {cells : ℕ → E} {queueCapacity : ℕ}
    (h : Reach step Always (start cells queueCapacity) s) :
    s.queue.nelts ≤ s.queue.bounds
    ∧ s.queue.inAt = (s.queue.outAt + s.queue.nelts) % s.queue.bounds
    ∧ delivered s.returned <+: accepted s.returned
    ∧ accepted s.returned = delivered s.returned ++ s.queue.contents
    ∧ (s.handed : Multiset E)
      = accepted s.returned + pending s.pc + rejected s.returned
    ∧ ∀ s₁ a s₂ s', Reach step Always s s₁ → s₁.step a = some s₂ → Reach step Always s₂ s' →
        (∀ r, (a.thread, r) ∈ s'.returned.drop s.returned.length → r.ret ≠ .ok) →
        s₂.queue.contents = s₁.queue.contents ∧ accepted s₂.returned = accepted s₁.returned
          ∧ delivered s₂.returned = delivered s₁.returned := by
  obtain ⟨hwf, hfifo, hwork⟩ := queue_accounted h
  have hlogged := logged_of_reach h
  rw [hlogged.stored, hlogged.popped] at hfifo
  rw [hlogged.stored, hlogged.refused] at hwork
  refine ⟨hwf.bound, hwf.in_eq, hfifo ▸ List.prefix_append _ _, hfifo, hwork, ?_⟩
  intro s₁ a s₂ s' hbefore hs hafter herr
  -- a return of the step is still there at the end of the stretch
  have hkept : ∀ r, s₂.returned = s₁.returned ++ [(a.thread, r)] → r.ret ≠ .ok := by
    intro r hret
    obtain ⟨l, hl⟩ := returned_extends hbefore
    obtain ⟨l', hl'⟩ := returned_extends hafter
    apply herr
    rw [← hl', hret, ← hl, List.append_assoc, List.append_assoc, List.drop_left]
    simp
  have hlogged₁ : s₁.Logged := by
    apply hbefore.invariant Logged hlogged
    intro s a s' hlogged _ hs
    exact hlogged.outcome (outcome_of_step hs)
  have hlogged₂ := hlogged₁.outcome (outcome_of_step hs)
  rw [← hlogged₁.stored, ← hlogged₁.popped, ← hlogged₂.stored, ← hlogged₂.popped]
  cases outcome_of_step hs with
  | goesOn hitems _ _ => exact hitems
  | returns _ hitems _ _ _ _ => exact hitems
  | pushes e _ _ _ hret => exact absurd rfl (hkept _ hret)
  | pops e _ _ _ hret => exact absurd rfl (hkept _ hret)

/-- A push that waits for room, is woken by a pop, finds its slot taken by another push and
returns `QUEUE_EINTR`. -/
theorem queue_linearizable_stolen_slot :
    ∃ s : QueueCalls (Fin 3) ℕ,
      Reach step Always (start (fun _ => 0) 1) s
      ∧ s.returned = [(0, .push 1 .ok), (2, .pop .ok (some 1)), (0, .push 3 .ok),
        (1, .push 2 .eintr)]
      ∧ accepted s.returned = [1, 3] ∧ delivered s.returned <+: accepted s.returned := by
  have hrun : (run step Always (start (fun _ => 0) 1 : QueueCalls (Fin 3) ℕ)
      [.pushCall 0 1 true, .enter 0 fun _ => false, .pushCall 1 2 true, .enter 1 fun _ => false,
        .popCall 2 (.wait false), .enter 2 fun _ => true, .pushCall 0 3 true,
        .enter 0 fun _ => false, .relock 1 fun _ => false, .decide 1]).map
        (fun s => (s.returned, accepted s.returned))
      = some ([(0, .push 1 .ok), (2, .pop .ok (some 1)), (0, .push 3 .ok), (1, .push 2 .eintr)],
        [1, 3]) := by
    decide
  obtain ⟨s, hs, hobs⟩ := Option.map_eq_some_iff.mp hrun
  have hreach := Reach.refl.run _ hs
  rw [Prod.mk.injEq] at hobs
  exact ⟨s, hreach, hobs.1, hobs.2, (queue_linearizable hreach).2.2.1⟩

end QueueCalls

end Zevent.Znet

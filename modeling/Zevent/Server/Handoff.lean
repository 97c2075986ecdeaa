/-
# Handing connections from the listener to the workers (`zevent.c`, `fdqueue.c`)

One child process: a listener thread and `T` worker threads around the fd queue, which
is created with `bounds = T` cells.  `zevent_queue_push` has no bounds check; the
listener is meant to reserve an idle worker first (`get_worker`), and the counter
`idlers` is meant to be an exact credit for every push.

The model keeps the grain of the synchronisation: every atomic add, every mutex lock
and unlock, the re-check under the mutex, every wait and every signal is one step, and
a thread inside a condition wait moves only when a signal or a broadcast picks it.

* Listener: `listenerStep` follows `get_worker`, `zevent_queue_info_wait_for_idler`,
  `push2worker` and `zevent_queue_push`; the accept branch keeps its reservation.
* Worker `w`: `workerStep` follows `worker_thread`, `zevent_queue_info_set_idle` and
  `zevent_queue_pop`, with the `APR_EINTR` and `APR_EOF` exits.
* The main thread: `zevent_queue_info_term`, `zevent_queue_interrupt_all`,
  `zevent_queue_term` and the two exit flags of `signal_threads`.

The credit is not exact.  `zevent_queue_info_set_idle` signals after its increment, so
a signal can arrive late: the listener consumes the credit at its re-check without
waiting, comes back, blocks on a negative counter, and is released by the old signal
(`handoff_overflow_run`).  `handoff_push_in_bounds` shows that this is the only way to
overflow the queue.
-/
import Mathlib.Tactic
import Zevent.Lib.Interleaving
import Zevent.Server.FdQueue

namespace Zevent.Server

open Interleaving

/-! ## State -/

/-- What one poll result asks of the listener: a connection to hand over (`PT_CSD`)
or a listening socket to accept from (`PT_ACCEPT`). -/
inductive PollEvent (E : Type) where
  | csd (conn : E)
  | accept

/-- Where the listener is.  `reserve` to `checkTerm` are the steps of
`zevent_queue_info_wait_for_idler`, `pushLock` to `pushUnlock` those of
`zevent_queue_push`. -/
inductive ListenerPc (E : Type) where
  | poll
  | reserve (ev : PollEvent E)
  | lockIdlers (ev : PollEvent E)
  | recheck (ev : PollEvent E)
  | waiting (ev : PollEvent E)
  | woken (ev : PollEvent E)
  | unlockIdlers (ev : PollEvent E)
  | checkTerm (ev : PollEvent E)
  | dispatch (ev : PollEvent E)
  | pushLock (conn : E)
  | pushElem (conn : E)
  | pushSignal
  | pushUnlock
  | exited

/-- Where a worker is.  `setIdle` to `unlockIdlers` are the steps of
`zevent_queue_info_set_idle`, `popLock` to `popDecide` those of `zevent_queue_pop`.
`exited idle` remembers whether the thread left with its idle credit still counted. -/
inductive WorkerPc (E : Type) where
  | loop
  | setIdle
  | lockIdlers
  | signal
  | unlockIdlers
  | popHead
  | popLock
  | popCheck
  | popWaiting
  | popWoken
  | popRecheck
  | popUnlock (conn : E)
  | popUnlockEmpty
  | popDecide
  | process (conn : E)
  | exited (idle : Bool)

/-- Whether a worker waits on `not_empty`. -/
def WorkerPc.isWaiting {E : Type} : WorkerPc E → Bool
  | .popWaiting => true
  | _ => false

/-- The state of one child process. -/
structure Child (T : ℕ) (E : Type) where
  queue : FdQueue E
  oneBigMutex : Bool
  info : FdQueueInfo
  idlersMutex : Bool
  listenerMayExit : Bool
  workersMayExit : Bool
  haveIdleWorker : Bool
  listener : ListenerPc E
  worker : Fin T → WorkerPc E

/-- `start_threads`: a queue of `T` cells, no idler counted yet. -/
def startThreads (T : ℕ) (E : Type) : Child T E where
  queue := FdQueue.zeventQueueInit T
  oneBigMutex := false
  info := zeventQueueInfoCreate
  idlersMutex := false
  listenerMayExit := false
  workersMayExit := false
  haveIdleWorker := false
  listener := .poll
  worker := fun _ => .loop

/-- The worker has incremented `idlers` and has not taken an element since. -/
def WorkerPc.credited {E : Type} : WorkerPc E → Bool
  | .loop | .setIdle | .popUnlock _ | .process _ | .exited false => false
  | _ => true

namespace Child

variable {T : ℕ} {E : Type}

/-! ## Steps -/

/-- A condition-variable signal or broadcast on `not_empty`: the workers picked by
`wake` leave the wait. -/
def wakeWorkers (wake : Fin T → Bool) (worker : Fin T → WorkerPc E) : Fin T → WorkerPc E :=
  fun w => match worker w, wake w with
    | .popWaiting, true => .popWoken
    | pc, _ => pc

/-- `apr_thread_cond_signal(wait_for_idler)`: only the listener waits there. -/
def wakeListener : ListenerPc E → ListenerPc E
  | .waiting ev => .woken ev
  | pc => pc

/-- `get_worker` for the next poll event: a reservation already held is used. -/
def getWorker (s : Child T E) (ev : PollEvent E) : Child T E :=
  if s.haveIdleWorker then { s with listener := .dispatch ev }
  else { s with listener := .reserve ev }

/-- The next step of the listener.  `wake` says which workers the `not_empty` signal
of a push releases; at least one when some worker waits. -/
def listenerStep (s : Child T E) (wake : Fin T → Bool) : Option (Child T E) :=
  match s.listener with
  | .poll => if s.listenerMayExit then some { s with listener := .exited } else none
  | .reserve ev =>
      -- prev_idlers = apr_atomic_add32(&idlers, -1)
      some { s with
        info := { s.info with idlers := s.info.idlers - 1 }
        listener := if s.info.idlers ≤ 0 then .lockIdlers ev else .checkTerm ev }
  | .lockIdlers ev =>
      if s.idlersMutex then none
      else some { s with idlersMutex := true, listener := .recheck ev }
  | .recheck ev =>
      -- the wait gives the mutex back
      if s.info.idlers < 0 then some { s with idlersMutex := false, listener := .waiting ev }
      else some { s with listener := .unlockIdlers ev }
  | .waiting _ => none
  | .woken ev =>
      if s.idlersMutex then none
      else some { s with idlersMutex := true, listener := .unlockIdlers ev }
  | .unlockIdlers ev => some { s with idlersMutex := false, listener := .checkTerm ev }
  | .checkTerm ev =>
      if s.info.terminated then some { s with listener := .poll }
      else some { s with haveIdleWorker := true, listener := .dispatch ev }
  | .dispatch (.csd conn) => some { s with listener := .pushLock conn }
  | .dispatch .accept => some { s with listener := .poll }
  | .pushLock conn =>
      if s.oneBigMutex then none
      else some { s with oneBigMutex := true, listener := .pushElem conn }
  | .pushElem conn =>
      some { s with queue := s.queue.pushElem conn, listener := .pushSignal }
  | .pushSignal =>
      if (∃ w, (s.worker w).isWaiting) → ∃ w, (s.worker w).isWaiting ∧ wake w then
        some { s with worker := wakeWorkers wake s.worker, listener := .pushUnlock }
      else none
  | .pushUnlock =>
      some { s with oneBigMutex := false, haveIdleWorker := false, listener := .poll }
  | .exited => none

/-- Take the top element, in `zevent_queue_pop` with the mutex held. -/
def popTake (s : Child T E) (w : Fin T) (empty : WorkerPc E) : Child T E :=
  match s.queue.popElem with
  | some (conn, queue) =>
      { s with queue := queue, worker := Function.update s.worker w (.popUnlock conn) }
  | none => { s with worker := Function.update s.worker w empty }

/-- The next step of worker `w`. -/
def workerStep (s : Child T E) (w : Fin T) : Option (Child T E) :=
  let goto (s : Child T E) (pc : WorkerPc E) : Option (Child T E) :=
    some { s with worker := Function.update s.worker w pc }
  match s.worker w with
  | .loop => goto s (if s.workersMayExit then .exited false else .setIdle)
  | .setIdle =>
      -- prev_idlers = apr_atomic_inc32(&idlers)
      goto { s with info := { s.info with idlers := s.info.idlers + 1 } }
        (if s.info.idlers < 0 then .lockIdlers else .popHead)
  | .lockIdlers =>
      if s.idlersMutex then none else goto { s with idlersMutex := true } .signal
  | .signal => goto { s with listener := wakeListener s.listener } .unlockIdlers
  | .unlockIdlers => goto { s with idlersMutex := false } .popHead
  | .popHead => goto s (if s.workersMayExit then .exited true else .popLock)
  | .popLock =>
      if s.oneBigMutex then none else goto { s with oneBigMutex := true } .popCheck
  | .popCheck =>
      if s.queue.zeventQueueEmpty && !s.queue.terminated then
        goto { s with oneBigMutex := false } .popWaiting
      else some (s.popTake w .popUnlockEmpty)
  | .popWaiting => none
  | .popWoken =>
      if s.oneBigMutex then none else goto { s with oneBigMutex := true } .popRecheck
  | .popRecheck => some (s.popTake w .popUnlockEmpty)
  | .popUnlock conn => goto { s with oneBigMutex := false } (.process conn)
  | .popUnlockEmpty => goto { s with oneBigMutex := false } .popDecide
  | .popDecide =>
      -- `terminated` is read after the unlock: APR_EOF ends the thread, APR_EINTR retries
      goto s (if s.queue.terminated then .exited true else .popHead)
  | .process _ => goto s .loop
  | .exited _ => none

/-- One move of the child. -/
inductive Action (T : ℕ) (E : Type) where
  | event (ev : PollEvent E)
  | listener (wake : Fin T → Bool)
  | worker (w : Fin T)
  | stopListener
  | stopWorkers
  | queueInfoTerm
  | queueInterruptAll
  | queueTerm

/-- The step function of the child.  The three `queue...` actions are the critical
sections of the main thread and of the listener's shutdown. -/
def step (s : Child T E) : Action T E → Option (Child T E)
  | .event ev => match s.listener with
      | .poll => some (s.getWorker ev)
      | _ => none
  | .listener wake => s.listenerStep wake
  | .worker w => s.workerStep w
  | .stopListener => some { s with listenerMayExit := true }
  | .stopWorkers => some { s with workersMayExit := true }
  | .queueInfoTerm =>
      if s.idlersMutex then none
      else some { s with
        info := { s.info with terminated := true }, listener := wakeListener s.listener }
  | .queueInterruptAll =>
      if s.oneBigMutex then none
      else some { s with worker := wakeWorkers (fun _ => true) s.worker }
  | .queueTerm =>
      if s.oneBigMutex then none
      else some { s with queue := { s.queue with terminated := true } }

/-! ## Credits

`idlers` plus what is queued plus what the listener has reserved never exceeds the
number of workers that have announced themselves and not taken an element yet. -/

/-- The decrement of `idlers` that the listener has made and not yet spent on a push. -/
def reserved (s : Child T E) : ℕ :=
  match s.listener with
  | .poll | .dispatch _ | .pushLock _ | .pushElem _ => if s.haveIdleWorker then 1 else 0
  | .lockIdlers _ | .recheck _ | .waiting _ | .woken _ | .unlockIdlers _ | .checkTerm _ => 1
  | .reserve _ | .pushSignal | .pushUnlock | .exited => 0

/-- What the listener knows at each point: between its wait and its push the counter is
not negative, unless it was released by a termination. -/
def Granted (s : Child T E) : Prop :=
  match s.listener with
  | .poll => s.haveIdleWorker = true → 0 ≤ s.info.idlers
  | .woken _ | .unlockIdlers _ | .checkTerm _ =>
      s.haveIdleWorker = false ∧ (0 ≤ s.info.idlers ∨ s.info.terminated = true)
  | .dispatch _ | .pushLock _ | .pushElem _ => s.haveIdleWorker = true ∧ 0 ≤ s.info.idlers
  | .reserve _ | .lockIdlers _ | .recheck _ | .waiting _ => s.haveIdleWorker = false
  | .pushSignal | .pushUnlock | .exited => True

/-- The number of workers that have announced themselves as idle. -/
def credits (s : Child T E) : ℕ := phaseCount (fun pc => pc.credited = true) s.worker

/-- The invariant of the hand-over. -/
structure Credits (s : Child T E) : Prop where
  bounds : s.queue.bounds = T
  credit : s.info.idlers + s.queue.nelts + s.reserved ≤ s.credits
  granted : s.Granted

theorem credits_startThreads : Credits (startThreads T E) where
  bounds := rfl
  credit := by
    simp [startThreads, zeventQueueInfoCreate, FdQueue.zeventQueueInit, FdQueue.nelts, reserved]
  granted := by simp [Granted, startThreads]

/-- What a worker's step does to the shared state: it may raise `idlers`, it pays for
what it takes with its own credit, and only its signal moves the listener. -/
structure WorkerEffect (s s' : Child T E) (w : Fin T) : Prop where
  paid : ∃ pc, s'.worker = Function.update s.worker w pc
    ∧ s'.info.idlers + s'.queue.nelts + (s.worker w).credited.toNat
        ≤ s.info.idlers + s.queue.nelts + pc.credited.toNat
  bounds : s'.queue.bounds = s.queue.bounds
  have_idle : s'.haveIdleWorker = s.haveIdleWorker
  terminated : s'.info.terminated = s.info.terminated
  idlers_le : s.info.idlers ≤ s'.info.idlers
  listener : s'.listener = s.listener
    ∨ (s.worker w = .signal ∧ s'.info = s.info ∧ s'.listener = wakeListener s.listener)

/-- Taking an element, or finding none, from a point where the worker is credited. -/
theorem popTake_effect (s : Child T E) (w : Fin T) (hw : (s.worker w).credited = true) :
    WorkerEffect s (s.popTake w .popUnlockEmpty) w := by
  unfold popTake
  cases hq : s.queue.popElem with
  | none =>
      refine ⟨⟨_, rfl, ?_⟩, rfl, rfl, rfl, le_rfl, Or.inl rfl⟩
      rw [hw]
      simp [WorkerPc.credited]
  | some r =>
      obtain ⟨conn, q⟩ := r
      obtain ⟨hn, hb⟩ := FdQueue.popElem_spec hq
      refine ⟨⟨_, rfl, ?_⟩, hb, rfl, rfl, le_rfl, Or.inl rfl⟩
      rw [hw, hn]
      simp only [WorkerPc.credited, Bool.toNat_false, Bool.toNat_true]
      push_cast
      omega

/-- Everything a worker's step can do to the shared state. -/
theorem workerStep_effect {s s' : Child T E} {w : Fin T} (h : s.workerStep w = some s') :
    WorkerEffect s s' w := by
  unfold workerStep at h
  cases hw : s.worker w with
  | loop | process =>
      simp only [hw, Option.some.injEq] at h
      subst h
      exact ⟨⟨_, rfl, by simp [hw, WorkerPc.credited]⟩, rfl, rfl, rfl, le_rfl, Or.inl rfl⟩
  | popHead | popDecide =>
      simp only [hw, Option.some.injEq] at h
      subst h
      refine ⟨⟨_, rfl, ?_⟩, rfl, rfl, rfl, le_rfl, Or.inl rfl⟩
      split <;> simp [hw, WorkerPc.credited]
  | setIdle =>
      simp only [hw, Option.some.injEq] at h
      subst h
      refine ⟨⟨_, rfl, ?_⟩, rfl, rfl, rfl, by simp, Or.inl rfl⟩
      split <;> simp [hw, WorkerPc.credited] <;> omega
  | signal =>
      simp only [hw, Option.some.injEq] at h
      subst h
      exact ⟨⟨_, rfl, by simp [hw, WorkerPc.credited]⟩, rfl, rfl, rfl, le_rfl,
        Or.inr ⟨hw, rfl, rfl⟩⟩
  | lockIdlers | popLock | popWoken =>
      simp only [hw] at h
      split at h
      · exact absurd h (by simp)
      · rw [Option.some.injEq] at h
        subst h
        exact ⟨⟨_, rfl, by simp [hw, WorkerPc.credited]⟩, rfl, rfl, rfl, le_rfl, Or.inl rfl⟩
  | unlockIdlers | popUnlock | popUnlockEmpty =>
      simp only [hw, Option.some.injEq] at h
      subst h
      exact ⟨⟨_, rfl, by simp [hw, WorkerPc.credited]⟩, rfl, rfl, rfl, le_rfl, Or.inl rfl⟩
  | popCheck =>
      simp only [hw] at h
      split at h <;> rw [Option.some.injEq] at h <;> subst h
      · exact ⟨⟨_, rfl, by simp [hw, WorkerPc.credited]⟩, rfl, rfl, rfl, le_rfl, Or.inl rfl⟩
      · exact popTake_effect s w (by simp [hw, WorkerPc.credited])
  | popRecheck =>
      simp only [hw, Option.some.injEq] at h
      subst h
      exact popTake_effect s w (by simp [hw, WorkerPc.credited])
  | popWaiting | exited =>
      simp only [hw] at h
      exact absurd h (by simp)

/-- A worker that pays for its step keeps the balance of credits. -/
theorem WorkerEffect.credits_balance {s s' : Child T E} {w : Fin T} (h : WorkerEffect s s' w) :
    s'.info.idlers + s'.queue.nelts + s.credits ≤ s.info.idlers + s.queue.nelts + s'.credits := by
  obtain ⟨pc, hpc, hpaid⟩ := h.paid
  have hcount := phaseCount_update (fun pc : WorkerPc E => pc.credited = true) s.worker w pc
  rw [← hpc] at hcount
  simp only [credits, Bool.toNat, Bool.cond_eq_ite] at hcount hpaid ⊢
  omega

/-- Releasing waiting workers does not change who is credited. -/
theorem credited_wakeWorkers (wake : Fin T → Bool) (worker : Fin T → WorkerPc E) (w : Fin T) :
    (wakeWorkers wake worker w).credited = (worker w).credited := by
  unfold wakeWorkers
  cases worker w <;> cases wake w <;> rfl

theorem phaseCount_wakeWorkers (wake : Fin T → Bool) (worker : Fin T → WorkerPc E) :
    phaseCount (fun pc => pc.credited = true) (wakeWorkers wake worker)
      = phaseCount (fun pc => pc.credited = true) worker :=
  phaseCount_congr _ fun w => by rw [credited_wakeWorkers]

/-! ## The invariant along a run -/

/-- A late signal: a worker signals `wait_for_idler` while the listener waits there and
the counter is still negative, so that the credit the signal announces is one that the
listener has already consumed. -/
def lateSignal (s : Child T E) : Action T E → Bool
  | .worker w => match s.worker w, s.listener with
      | .signal, .waiting _ => s.info.idlers < 0
      | _, _ => false
  | _ => false

/-- **The condition on a step.** -/
def NoLateSignal (s : Child T E) (a : Action T E) : Prop := s.lateSignal a = false

instance (s : Child T E) (a : Action T E) : Decidable (NoLateSignal s a) :=
  inferInstanceAs (Decidable (_ = _))

/-- What the listener knows survives a rise of the counter and a termination. -/
theorem Granted.mono {s s' : Child T E} (hg : s.Granted) (hl : s'.listener = s.listener)
    (hh : s'.haveIdleWorker = s.haveIdleWorker) (hi : s.info.idlers ≤ s'.info.idlers)
    (ht : s.info.terminated = true → s'.info.terminated = true) : s'.Granted := by
  unfold Granted at hg ⊢
  rw [hl, hh]
  cases hpc : s.listener with
  | poll =>
      simp only [hpc] at hg
      exact fun h => (hg h).trans hi
  | woken | unlockIdlers | checkTerm =>
      simp only [hpc] at hg
      exact ⟨hg.1, hg.2.imp (fun h => h.trans hi) ht⟩
  | dispatch | pushLock | pushElem =>
      simp only [hpc] at hg
      exact ⟨hg.1, hg.2.trans hi⟩
  | reserve | lockIdlers | recheck | waiting =>
      simp only [hpc] at hg
      exact hg
  | pushSignal | pushUnlock | exited => trivial

/-- The listener leaves its wait with a credit on the counter, or terminated. -/
theorem Granted.wake {s s' : Child T E} (hg : s.Granted)
    (hl : s'.listener = wakeListener s.listener) (hh : s'.haveIdleWorker = s.haveIdleWorker)
    (hi : s.info.idlers ≤ s'.info.idlers)
    (ht : s.info.terminated = true → s'.info.terminated = true)
    (hwait : ∀ ev, s.listener = .waiting ev → 0 ≤ s'.info.idlers ∨ s'.info.terminated = true) :
    s'.Granted := by
  cases hpc : s.listener with
  | waiting ev =>
      simp only [Granted, hpc] at hg
      simp only [Granted, hl, hpc, wakeListener]
      exact ⟨hh.trans hg, hwait ev hpc⟩
  | _ => exact hg.mono (by rw [hl, hpc]; rfl) hh hi ht

/-- Releasing the listener keeps its reservation. -/
theorem reserved_wakeListener (s s' : Child T E) (hl : s'.listener = wakeListener s.listener)
    (hh : s'.haveIdleWorker = s.haveIdleWorker) : s'.reserved = s.reserved := by
  unfold reserved
  rw [hl, hh]
  cases s.listener <;> rfl

/-- A worker's step keeps the invariant, if its signal is not late. -/
theorem Credits.worker {s s' : Child T E} {w : Fin T} (hc : s.Credits)
    (hok : NoLateSignal s (.worker w)) (h : s.workerStep w = some s') : s'.Credits := by
  have he := workerStep_effect h
  have hbal := he.credits_balance
  have hcr := hc.credit
  obtain hl | ⟨hsig, hinfo, hl⟩ := he.listener
  · refine ⟨he.bounds.trans hc.bounds, ?_, hc.granted.mono hl he.have_idle he.idlers_le
      fun ht => he.terminated.trans ht⟩
    have hres : s'.reserved = s.reserved := by
      simp only [reserved, hl, he.have_idle]
    rw [hres]
    omega
  · refine ⟨he.bounds.trans hc.bounds, ?_, hc.granted.wake hl he.have_idle he.idlers_le
      (fun ht => he.terminated.trans ht) fun ev hev => Or.inl ?_⟩
    · rw [reserved_wakeListener s s' hl he.have_idle]
      omega
    · rw [hinfo]
      simpa [NoLateSignal, lateSignal, hsig, hev] using hok

/-- A step of the listener keeps the invariant: the decrement becomes a reservation,
and the push spends it. -/
theorem Credits.listener {s s' : Child T E} {wake : Fin T → Bool} (hc : s.Credits)
    (h : s.listenerStep wake = some s') : s'.Credits := by
  obtain ⟨hb, hcr, hg⟩ := hc
  unfold listenerStep at h
  cases hpc : s.listener with
  | poll =>
      simp only [hpc] at h
      split at h
      · rw [Option.some.injEq] at h
        subst h
        refine ⟨hb, ?_, trivial⟩
        simp only [reserved, hpc, credits] at hcr ⊢
        omega
      · exact absurd h (by simp)
  | reserve ev =>
      simp only [hpc, Option.some.injEq] at h
      subst h
      simp only [Granted, hpc] at hg
      simp only [reserved, hpc] at hcr
      by_cases hle : s.info.idlers ≤ 0
      · refine ⟨hb, ?_, ?_⟩
        · simp only [reserved, hle, if_true, credits] at hcr ⊢
          omega
        · simp only [Granted, hle, if_true]
          exact hg
      · refine ⟨hb, ?_, ?_⟩
        · simp only [reserved, hle, if_false, credits] at hcr ⊢
          omega
        · simp only [Granted, hle, if_false]
          exact ⟨hg, Or.inl (by omega)⟩
  | lockIdlers ev =>
      simp only [hpc] at h
      split at h
      · exact absurd h (by simp)
      · rw [Option.some.injEq] at h
        subst h
        simp only [Granted, reserved, hpc] at hg hcr
        exact ⟨hb, hcr, hg⟩
  | recheck ev =>
      simp only [hpc] at h
      simp only [Granted, reserved, hpc] at hg hcr
      split at h <;> rw [Option.some.injEq] at h <;> subst h
      · exact ⟨hb, hcr, hg⟩
      · rename_i hneg
        exact ⟨hb, hcr, hg, Or.inl (not_lt.mp hneg)⟩
  | woken ev =>
      simp only [hpc] at h
      split at h
      · exact absurd h (by simp)
      · rw [Option.some.injEq] at h
        subst h
        simp only [Granted, reserved, hpc] at hg hcr
        exact ⟨hb, hcr, hg⟩
  | unlockIdlers ev =>
      simp only [hpc, Option.some.injEq] at h
      subst h
      simp only [Granted, reserved, hpc] at hg hcr
      exact ⟨hb, hcr, hg⟩
  | checkTerm ev =>
      simp only [hpc] at h
      simp only [Granted, reserved, hpc] at hg hcr
      split at h <;> rw [Option.some.injEq] at h <;> subst h
      · refine ⟨hb, ?_, fun hhave => absurd (hg.1.symm.trans hhave) (by simp)⟩
        simp only [reserved, hg.1, credits] at hcr ⊢
        simp only [Bool.false_eq_true, if_false]
        omega
      · rename_i hterm
        exact ⟨hb, hcr, rfl, hg.2.resolve_right hterm⟩
  | dispatch ev =>
      cases ev with
      | csd conn =>
          simp only [hpc, Option.some.injEq] at h
          subst h
          simp only [Granted, reserved, hpc] at hg hcr
          exact ⟨hb, hcr, hg⟩
      | accept =>
          simp only [hpc, Option.some.injEq] at h
          subst h
          simp only [Granted, reserved, hpc] at hg hcr
          exact ⟨hb, hcr, fun _ => hg.2⟩
  | pushLock conn =>
      simp only [hpc] at h
      split at h
      · exact absurd h (by simp)
      · rw [Option.some.injEq] at h
        subst h
        simp only [Granted, reserved, hpc] at hg hcr
        exact ⟨hb, hcr, hg⟩
  | pushElem conn =>
      simp only [hpc, Option.some.injEq] at h
      subst h
      simp only [Granted, reserved, hpc] at hg hcr
      rw [if_pos hg.1] at hcr
      refine ⟨hb, ?_, trivial⟩
      simp only [reserved, FdQueue.nelts_pushElem, credits] at hcr ⊢
      push_cast
      omega
  | pushSignal =>
      simp only [hpc] at h
      split at h
      · rw [Option.some.injEq] at h
        subst h
        simp only [reserved, hpc] at hcr
        refine ⟨hb, ?_, trivial⟩
        simp only [credits, phaseCount_wakeWorkers]
        exact hcr
      · exact absurd h (by simp)
  | pushUnlock =>
      simp only [hpc, Option.some.injEq] at h
      subst h
      simp only [reserved, hpc] at hcr
      exact ⟨hb, hcr, fun hhave => absurd hhave (by simp)⟩
  | waiting | exited =>
      simp only [hpc] at h
      exact absurd h (by simp)

/-- Every step that meets the condition keeps the invariant. -/
theorem Credits.step {s s' : Child T E} {a : Action T E} (hc : s.Credits)
    (hok : NoLateSignal s a) (h : s.step a = some s') : s'.Credits := by
  cases a with
  | listener wake => exact hc.listener h
  | worker w => exact hc.worker hok h
  | event ev =>
      obtain ⟨hb, hcr, hg⟩ := hc
      simp only [Child.step] at h
      split at h
      · rename_i hpc
        rw [Option.some.injEq] at h
        subst h
        simp only [Granted, reserved, hpc] at hg hcr
        unfold getWorker
        split
        · rename_i hhave
          exact ⟨hb, hcr, hhave, hg hhave⟩
        · rename_i hhave
          rw [if_neg hhave] at hcr
          exact ⟨hb, hcr, by simpa [Granted] using hhave⟩
      · exact absurd h (by simp)
  | stopListener | stopWorkers =>
      simp only [Child.step, Option.some.injEq] at h
      subst h
      exact ⟨hc.bounds, hc.credit, hc.granted⟩
  | queueInfoTerm =>
      simp only [Child.step] at h
      split at h
      · exact absurd h (by simp)
      · rw [Option.some.injEq] at h
        subst h
        refine ⟨hc.bounds, ?_, hc.granted.wake rfl rfl le_rfl (fun _ => rfl)
          fun _ _ => Or.inr rfl⟩
        have hres := reserved_wakeListener s { s with
          info := { s.info with terminated := true }
          listener := wakeListener s.listener } rfl rfl
        rw [hres]
        exact hc.credit
  | queueInterruptAll =>
      simp only [Child.step] at h
      split at h
      · exact absurd h (by simp)
      · rw [Option.some.injEq] at h
        subst h
        refine ⟨hc.bounds, ?_, hc.granted.mono rfl rfl le_rfl id⟩
        simp only [credits, phaseCount_wakeWorkers]
        exact hc.credit
  | queueTerm =>
      simp only [Child.step] at h
      split at h
      · exact absurd h (by simp)
      · rw [Option.some.injEq] at h
        subst h
        exact ⟨hc.bounds, hc.credit, hc.granted.mono rfl rfl le_rfl id⟩

/-- The moment of a `zevent_queue_push`: the listener holds `one_big_mutex` and is about
to write `data[nelts]`. -/
def AtPush (s : Child T E) : Prop := ∃ conn, s.listener = .pushElem conn

/-- With the credits in balance a push finds a free cell. -/
theorem Credits.push_in_bounds {s : Child T E} (hc : s.Credits) (hp : s.AtPush) :
    s.queue.nelts < s.queue.bounds := by
  obtain ⟨conn, hconn⟩ := hp
  obtain ⟨hb, hcr, hg⟩ := hc
  simp only [Granted, reserved, hconn] at hg hcr
  rw [if_pos hg.1] at hcr
  have hcard := phaseCount_le_card (fun pc : WorkerPc E => pc.credited = true) s.worker
  rw [Fintype.card_fin] at hcard
  simp only [credits] at hcr
  omega

end Child

open Child

/-- **Pushes stay inside the queue.**  For every number of workers, in every
interleaving in which no late signal releases the listener, the queue has a free cell
at the moment of every push. -/
theorem handoff_push_in_bounds (T : ℕ) (E : Type) (s : Child T E)
    (h : Reach Child.step NoLateSignal (startThreads T E) s) (hp : s.AtPush) :
    s.queue.nelts < s.queue.bounds :=
  (h.invariant Credits credits_startThreads fun _ _ _ => Credits.step).push_in_bounds hp

/-- One worker, one connection: the worker announces itself, and the listener reaches
its push with the cell free. -/
theorem handoff_push_in_bounds_one_worker :
    ∃ s : Child 1 ℕ, s.AtPush ∧ s.queue.nelts < s.queue.bounds := by
  let move : Action 1 ℕ := .listener fun _ => true
  have hrun : Reach Child.step NoLateSignal (startThreads 1 ℕ) _ :=
    Reach.refl.run [.worker 0, .worker 0, .event (.csd 7), move, move, move, move] rfl
  exact ⟨_, ⟨7, rfl⟩, handoff_push_in_bounds 1 ℕ _ hrun ⟨7, rfl⟩⟩

/-- **The late signal.**  With one worker: the worker's increment satisfies the
listener's re-check, so the listener pushes without waiting; it comes back, finds the
counter negative again and waits; only then does the worker send the signal of that
same increment.  The listener pushes a second time into a queue of one cell. -/
theorem handoff_overflow_run :
    ¬ ∀ (T : ℕ) (E : Type) (s : Child T E), 1 ≤ T →
      Reach Child.step Always (startThreads T E) s → s.AtPush →
        s.queue.nelts < s.queue.bounds := by
  intro hall
  let move : Action 1 ℕ := .listener fun _ => true
  have hrun : Reach Child.step Always (startThreads 1 ℕ) _ :=
    Reach.refl.run
      [.event (.csd 7), move, .worker 0, .worker 0,
        -- the re-check sees the increment: reserve, push, unlock
        move, move, move, move, move, move, move, move, move,
        -- the second event blocks on a negative counter
        .event (.csd 8), move, move, move,
        -- the signal of the first increment
        .worker 0, .worker 0, .worker 0,
        move, move, move, move, move] rfl
  exact absurd (hall 1 ℕ _ le_rfl hrun ⟨8, rfl⟩) (by decide)

end Zevent.Server

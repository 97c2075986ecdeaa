/-
# The receive queue while the server runs (`peer_read_cb`, `peer_kill`, `queue_push`)

The event loop and the threads that kill peers hand their messages to `queue_push` and do not
look at its result; other threads take them out again.  A push that finds the queue full waits
once and tests once more: when another push has taken the room that a pop made before the
waiting one has the mutex back, `queue_push` returns `QUEUE_EINTR` and the message is gone
(`overtaken_push_loses_message`).

`no_message_lost` is what remains: in every interleaving in which a push finds room after its
wait, every message handed to `queue_push` has been popped, is in the queue, or is held by a
push in progress.
-/
import Mathlib.Tactic
import Zevent.Znet.MsgQueue

namespace Zevent.Znet

open Interleaving

namespace QueueCalls

variable {τ E : Type}

/-! ## A server that runs -/

/-- `MAX_QUEUE_CAPACITY`. -/
def maxQueueCapacity : ℕ := 20000

/-- The moves while the server runs: messages are handed to `queue_push`, and nobody calls
`queue_interrupt_all` or `queue_term`. -/
def Serving : Act τ E → Prop
  | .pushCall _ _ wait => wait = true
  | .interruptAll _ => False
  | .termLock _ => False
  | .termInterrupt _ => False
  | _ => True

/-- The thread comes back from the wait of a push. -/
def pushWoke : CallPc E → Bool
  | .pushWoken _ => true
  | _ => false

/-- A push that comes back from its wait finds room. -/
def FindsRoom (s : QueueCalls τ E) : Act τ E → Prop
  | .relock t _ => pushWoke (s.pc t) = true → s.queue.queueFull = false
  | _ => True

/-- The guard of the runs that lose no message. -/
def ServingWithRoom (s : QueueCalls τ E) (a : Act τ E) : Prop := Serving a ∧ FindsRoom s a

/-- The guard of all runs of a server. -/
def ServingAlways (_ : QueueCalls τ E) (a : Act τ E) : Prop := Serving a

/-- The places that threads have in such runs: no push has given up, and none is a
`queue_trypush`. -/
def Patient : CallPc E → Prop
  | .pushing _ wait => wait = true
  | .pushLeft _ => False
  | _ => True

/-- What the runs keep besides the accounts. -/
structure Kept (s : QueueCalls τ E) : Prop where
  live : s.queue.terminated = false
  none : s.refused = []
  places : ∀ t, Patient (s.pc t)

theorem kept_start (cells : ℕ → E) (queueCapacity : ℕ) :
    Kept (start cells queueCapacity : QueueCalls τ E) :=
  ⟨rfl, rfl, fun _ => trivial⟩

variable {s : QueueCalls τ E}

/-- The counters of the waiting threads do not matter. -/
theorem Kept.setWaiters (h : s.Kept) (full empty : ℕ) :
    Kept { s with queue := { s.queue with fullWaiters := full, emptyWaiters := empty } } :=
  ⟨h.live, h.none, h.places⟩

theorem Kept.wakeFull (h : s.Kept) (wake : τ → Bool) : (s.wakeFull wake).Kept := by
  refine ⟨h.live, h.none, fun t => ?_⟩
  have ht := h.places t
  show Patient ((s.pc t).signalFull (wake t))
  cases hpc : s.pc t with
  | pushWaiting e => cases wake t <;> trivial
  | _ =>
      rw [hpc] at ht
      exact ht

theorem Kept.wakeEmpty (h : s.Kept) (wake : τ → Bool) : (s.wakeEmpty wake).Kept := by
  refine ⟨h.live, h.none, fun t => ?_⟩
  have ht := h.places t
  show Patient ((s.pc t).signalEmpty (wake t))
  cases hpc : s.pc t with
  | popWaiting timed => cases wake t <;> trivial
  | _ =>
      rw [hpc] at ht
      exact ht

variable [DecidableEq τ] {t : τ}

theorem Kept.moveTo (h : s.Kept) {pc : CallPc E} (hpc : Patient pc) : (s.moveTo t pc).Kept := by
  refine ⟨h.live, h.none, fun u => ?_⟩
  show Patient (Function.update s.pc t pc u)
  by_cases hut : u = t
  · rw [hut, Function.update_self]
    exact hpc
  · rw [Function.update_of_ne hut]
    exact h.places u

theorem Kept.finish (h : s.Kept) (r : QueueReturn E) : (s.finish t r).Kept := by
  have hreturned : Kept { s with returned := s.returned ++ [(t, r)] } :=
    ⟨h.live, h.none, h.places⟩
  exact hreturned.moveTo trivial

theorem Kept.pushStore (h : s.Kept) (e : E) (wake : τ → Bool) : (s.pushStore t e wake).Kept := by
  have hstore : Kept { s with queue := s.queue.store e, stored := s.stored ++ [e] } :=
    ⟨h.live, h.none, h.places⟩
  unfold QueueCalls.pushStore
  dsimp only
  apply Kept.finish
  split_ifs
  · exact hstore.wakeEmpty wake
  · exact hstore

theorem Kept.popTake (h : s.Kept) (wake : τ → Bool) : (s.popTake t wake).Kept := by
  have htake : Kept { s with
      queue := s.queue.take
      popped := s.popped ++ [s.queue.front] } :=
    ⟨h.live, h.none, h.places⟩
  unfold QueueCalls.popTake
  dsimp only
  apply Kept.finish
  split_ifs
  · exact htake.wakeFull wake
  · exact htake

theorem Kept.pushSection (h : s.Kept) (e : E) (wake : τ → Bool) :
    (s.pushSection t e true wake).Kept := by
  unfold QueueCalls.pushSection
  by_cases hfull : s.queue.queueFull = true
  · rw [if_pos hfull, if_pos rfl, if_neg (by rw [h.live]; exact Bool.false_ne_true)]
    exact (h.setWaiters _ s.queue.emptyWaiters).moveTo trivial
  · rw [if_neg hfull]
    exact h.pushStore e wake

theorem Kept.popSection (h : s.Kept) (mode : PopMode) (wake : τ → Bool) :
    (s.popSection t mode wake).Kept := by
  unfold QueueCalls.popSection
  by_cases hempty : s.queue.queueEmpty = true
  · rw [if_pos hempty]
    cases mode with
    | wait timed =>
        dsimp only
        rw [if_neg (by rw [h.live]; exact Bool.false_ne_true)]
        exact (h.setWaiters s.queue.fullWaiters _).moveTo trivial
    | tryOnce => exact h.finish _
  · rw [if_neg hempty]
    exact h.popTake wake

/-- Every step of a run in which pushes find room. -/
theorem Kept.step {s' : QueueCalls τ E} {a : Act τ E} (h : s.Kept) (hguard : ServingWithRoom s a)
    (hs : s.step a = some s') : s'.Kept := by
  obtain ⟨hserving, hroom⟩ := hguard
  cases moves_of_step hs with
  | @pushCall t e wait ht =>
      unfold QueueCalls.pushCall
      dsimp only
      rw [if_neg (by rw [h.live]; exact Bool.false_ne_true)]
      have hhanded : Kept { s with handed := s.handed ++ [e] } := ⟨h.live, h.none, h.places⟩
      exact hhanded.moveTo hserving
  | popCall ht =>
      unfold QueueCalls.popCall
      rw [if_neg (by rw [h.live]; exact Bool.false_ne_true)]
      exact h.moveTo trivial
  | @enterPush t e wait wake ht =>
      -- a push that does not wait would refuse its message here
      have hwait : wait = true := by
        have := h.places t
        rw [ht] at this
        exact this
      rw [hwait]
      exact h.pushSection e wake
  | enterPop ht => exact h.popSection _ _
  | wakePush ht => exact h.moveTo trivial
  | wakePop ht => exact h.moveTo trivial
  | timeUp ht => exact h.moveTo trivial
  | @relockPush t e wake ht =>
      -- the step that the guard is about
      have hnot : s.queue.queueFull = false := hroom (by rw [ht]; rfl)
      have hwaiters := h.setWaiters (s.queue.fullWaiters - 1) s.queue.emptyWaiters
      unfold QueueCalls.pushRecheck
      dsimp only
      rw [if_neg (by show ¬ s.queue.queueFull = true; rw [hnot]; exact Bool.false_ne_true)]
      exact hwaiters.pushStore e wake
  | @relockPop t timeUp wake ht =>
      have hwaiters := h.setWaiters s.queue.fullWaiters (s.queue.emptyWaiters - 1)
      unfold QueueCalls.popRecheck
      dsimp only
      split_ifs
      · exact hwaiters.finish _
      · exact hwaiters.moveTo trivial
      · exact hwaiters.popTake wake
  | @decidePush t e ht =>
      have := h.places t
      rw [ht] at this
      exact absurd this id
  | decidePop ht => exact h.finish _
  | interruptAll ht => exact absurd hserving id
  | termLock ht => exact absurd hserving id
  | termInterrupt ht => exact absurd hserving id

/-! ## Main results -/

/-- **No message is lost as long as a push finds room after its wait.**  For every capacity
and every number of threads, in every state of every interleaving in which a push that comes
back from its wait finds the queue not full, the messages handed to `queue_push` are those
popped, those in the queue and those held by pushes in progress; and when no push is in
progress, every one of them has been popped or is in the queue. -/
theorem no_message_lost [Fintype τ] {cells : ℕ → E} {queueCapacity : ℕ} {s : QueueCalls τ E}
    (h : Reach step ServingWithRoom (start cells queueCapacity) s) :
    (s.handed : Multiset E) = s.popped + s.queue.contents + pending s.pc ∧
      ((∀ t, (s.pc t).held = 0) → ∀ e ∈ s.handed, e ∈ s.popped ∨ e ∈ s.queue.contents) := by
  have hinv : s.Accounted 0 ∧ s.Kept := by
    refine h.invariant (fun s => s.Accounted 0 ∧ s.Kept)
      ⟨accounted_start cells queueCapacity, kept_start cells queueCapacity⟩ ?_
    rintro s a s' ⟨hacc, hkept⟩ hguard hs
    exact ⟨hacc.step hs, hkept.step hguard hs⟩
  obtain ⟨hacc, hkept⟩ := hinv
  have hwork : (s.handed : Multiset E) = s.popped + s.queue.contents + pending s.pc := by
    have hwork := hacc.work
    rw [add_zero, hkept.none, Multiset.coe_nil, add_zero, hacc.fifo, ← Multiset.coe_add] at hwork
    exact hwork
  refine ⟨hwork, fun hidle e he => ?_⟩
  have hnone : pending s.pc = 0 := Finset.sum_eq_zero fun t _ => hidle t
  rw [hnone, add_zero] at hwork
  rw [← Multiset.mem_coe, hwork, Multiset.mem_add, Multiset.mem_coe, Multiset.mem_coe] at he
  exact he

instance (a : Act τ E) : Decidable (Serving a) :=
  match a with
  | .pushCall _ _ wait => inferInstanceAs (Decidable (wait = true))
  | .interruptAll _ | .termLock _ | .termInterrupt _ => isFalse id
  | .popCall _ _ | .enter _ _ | .wakeSpuriously _ | .timeUp _ | .relock _ _ | .decide _ =>
      isTrue trivial

instance (s : QueueCalls τ E) (a : Act τ E) : Decidable (FindsRoom s a) :=
  match a with
  | .relock _ _ => inferInstanceAs (Decidable (_ → _))
  | .pushCall _ _ _ | .popCall _ _ | .enter _ _ | .wakeSpuriously _ | .timeUp _ | .decide _
  | .interruptAll _ | .termLock _ | .termInterrupt _ => isTrue trivial

instance (s : QueueCalls τ E) (a : Act τ E) : Decidable (ServingWithRoom s a) :=
  inferInstanceAs (Decidable (_ ∧ _))

/-- A push waits, a pop makes room and releases it, and it stores its message. -/
theorem no_message_lost_waiting :
    ∃ s : QueueCalls (Fin 2) ℕ, Reach step ServingWithRoom (start (fun _ => 0) 1) s ∧
      s.popped = [10] ∧ s.queue.contents = [11] ∧
      ((s.handed : Multiset ℕ) = s.popped + s.queue.contents + pending s.pc ∧
        ((∀ t, (s.pc t).held = 0) → ∀ e ∈ s.handed, e ∈ s.popped ∨ e ∈ s.queue.contents)) := by
  have hrun : (run step ServingWithRoom (start (fun _ => 0) 1 : QueueCalls (Fin 2) ℕ)
      [.pushCall 0 10 true, .enter 0 (fun _ => false), .pushCall 0 11 true,
        .enter 0 (fun _ => false), .popCall 1 (.wait false), .enter 1 (fun _ => true),
        .relock 0 (fun _ => false)]).map (fun s => (s.popped, s.queue.contents))
      = some ([10], [11]) := by
    decide
  obtain ⟨s, hs, hlog⟩ := Option.map_eq_some_iff.mp hrun
  obtain ⟨hpopped, hcontents⟩ := Prod.mk.inj hlog
  have hreach := Reach.refl.run _ hs
  exact ⟨s, hreach, hpopped, hcontents, no_message_lost hreach⟩

/-! ## A push that is overtaken -/

section Overtaken

variable {s₀ : QueueCalls τ E} {e : E}

theorem pushStore_eq (h : s.queue.emptyWaiters = 0) (wake : τ → Bool) :
    s.pushStore t e wake
      = QueueCalls.finish { s with queue := s.queue.store e, stored := s.stored ++ [e] } t
        (.push e .ok) :=
  congrArg (fun s => QueueCalls.finish s t (.push e .ok)) (if_neg (not_not.mpr h))

theorem popTake_eq (h : s.queue.fullWaiters ≠ 0) (wake : τ → Bool) :
    s.popTake t wake = QueueCalls.finish (QueueCalls.wakeFull { s with
      queue := s.queue.take
      popped := s.popped ++ [s.queue.front] } wake) t (.pop .ok (some s.queue.front)) :=
  congrArg (fun s' => QueueCalls.finish s' t (.pop .ok (some s.queue.front))) (if_pos h)

/-- The call of a push, while the queue is live. -/
theorem reach_pushCall (hreach : Reach step ServingAlways s₀ s) (ht : s.pc t = .idle)
    (hlive : s.queue.terminated = false) :
    Reach step ServingAlways s₀
      (QueueCalls.moveTo { s with handed := s.handed ++ [e] } t (.pushing e true)) := by
  refine hreach.tail (a := .pushCall t e true) rfl ?_
  rw [step, ht]
  exact congrArg some (if_neg (by rw [hlive]; exact Bool.false_ne_true))

/-- A push with room, from its call to its return. -/
theorem reach_push (hreach : Reach step ServingAlways s₀ s) (ht : s.pc t = .idle)
    (hlive : s.queue.terminated = false) (hroom : s.queue.queueFull = false)
    (hempty : s.queue.emptyWaiters = 0) :
    Reach step ServingAlways s₀ { s with
      queue := s.queue.store e
      handed := s.handed ++ [e]
      stored := s.stored ++ [e]
      returned := s.returned ++ [(t, .push e .ok)] } := by
  refine (reach_pushCall (e := e) hreach ht hlive).tail (a := .enter t fun _ => false) trivial ?_
  have hpc : Function.update (Function.update s.pc t (.pushing e true)) t .idle = s.pc := by
    rw [Function.update_idem, ← ht, Function.update_eq_self]
  simp only [step, QueueCalls.moveTo, Function.update_self]
  rw [QueueCalls.pushSection, if_neg (by rw [hroom]; exact Bool.false_ne_true),
    pushStore_eq, QueueCalls.finish, QueueCalls.moveTo, hpc]
  exact hempty

/-- A push that finds the queue full waits. -/
theorem reach_pushWaiting (hreach : Reach step ServingAlways s₀ s) (ht : s.pc t = .idle)
    (hlive : s.queue.terminated = false) (hfull : s.queue.queueFull = true) :
    Reach step ServingAlways s₀ { s with
      queue := { s.queue with fullWaiters := s.queue.fullWaiters + 1 }
      handed := s.handed ++ [e]
      pc := Function.update s.pc t (.pushWaiting e) } := by
  refine (reach_pushCall (e := e) hreach ht hlive).tail (a := .enter t fun _ => false) trivial ?_
  simp only [step, QueueCalls.moveTo, Function.update_self]
  rw [QueueCalls.pushSection, if_pos hfull, if_pos rfl,
    if_neg (by rw [hlive]; exact Bool.false_ne_true), QueueCalls.moveTo, Function.update_idem]

/-- A pop takes a message and releases waiting pushes. -/
theorem reach_pop (hreach : Reach step ServingAlways s₀ s) (ht : s.pc t = .idle)
    (hlive : s.queue.terminated = false) (hempty : s.queue.queueEmpty = false)
    (hfull : s.queue.fullWaiters ≠ 0) (wake : τ → Bool) :
    Reach step ServingAlways s₀ { s with
      queue := s.queue.take
      popped := s.popped ++ [s.queue.front]
      pc := fun u => (s.pc u).signalFull (wake u)
      returned := s.returned ++ [(t, .pop .ok (some s.queue.front))] } := by
  have hcall : Reach step ServingAlways s₀ (s.moveTo t (.popping (.wait false))) := by
    refine hreach.tail (a := .popCall t (.wait false)) trivial ?_
    rw [step, ht]
    exact congrArg some (if_neg (by rw [hlive]; exact Bool.false_ne_true))
  refine hcall.tail (a := .enter t wake) trivial ?_
  have hpc : Function.update
      (fun u => (Function.update s.pc t (.popping (.wait false)) u).signalFull (wake u)) t .idle
        = fun u => (s.pc u).signalFull (wake u) := by
    funext u
    by_cases hut : u = t
    · rw [hut, Function.update_self, ht]
      rfl
    · rw [Function.update_of_ne hut, Function.update_of_ne hut]
  simp only [step, QueueCalls.moveTo, Function.update_self]
  rw [QueueCalls.popSection, if_neg (by rw [hempty]; exact Bool.false_ne_true),
    popTake_eq, QueueCalls.finish, QueueCalls.moveTo, QueueCalls.wakeFull, hpc]
  exact hfull

/-- A push that finds the queue full after its wait returns `QUEUE_EINTR`. -/
theorem reach_refused (hreach : Reach step ServingAlways s₀ s) (ht : s.pc t = .pushWoken e)
    (hlive : s.queue.terminated = false) (hfull : s.queue.queueFull = true) :
    Reach step ServingAlways s₀ { s with
      queue := { s.queue with fullWaiters := s.queue.fullWaiters - 1 }
      refused := s.refused ++ [e]
      pc := Function.update s.pc t .idle
      returned := s.returned ++ [(t, .push e .eintr)] } := by
  have hleft : Reach step ServingAlways s₀ (QueueCalls.moveTo { s with
      queue := { s.queue with fullWaiters := s.queue.fullWaiters - 1 } } t (.pushLeft e)) := by
    refine hreach.tail (a := .relock t fun _ => false) trivial ?_
    rw [step, ht]
    exact congrArg some (if_pos hfull)
  refine hleft.tail (a := .decide t) trivial ?_
  simp only [step, QueueCalls.moveTo, Function.update_self]
  rw [QueueCalls.pushDecide, if_neg (by rw [hlive]; exact Bool.false_ne_true), QueueCalls.refuse,
    QueueCalls.finish, QueueCalls.moveTo, Function.update_idem]

/-- The queue can be filled. -/
theorem exists_full (cells : ℕ → E) (queueCapacity : ℕ) (t : τ) (e : E) {n : ℕ}
    (hn : n ≤ queueCapacity) :
    ∃ s : QueueCalls τ E, Reach step ServingAlways (start cells queueCapacity) s ∧
      (∀ u, s.pc u = .idle) ∧ s.queue.nelts = n ∧ s.queue.bounds = queueCapacity ∧
      s.queue.emptyWaiters = 0 ∧ s.queue.terminated = false ∧ s.handed.length = n ∧
      s.popped = [] := by
  induction n with
  | zero => exact ⟨_, Reach.refl, fun _ => rfl, rfl, rfl, rfl, rfl, rfl, rfl⟩
  | succ n ih =>
      obtain ⟨s, hreach, hidle, hnelts, hbounds, hempty, hlive, hhanded, hpopped⟩ := ih (by omega)
      have hroom : s.queue.queueFull = false := by
        refine Bool.eq_false_iff.mpr fun hfull => ?_
        rw [MsgQueue.queueFull_iff] at hfull
        omega
      refine ⟨_, reach_push (t := t) (e := e) hreach (hidle t) hlive hroom hempty, hidle, ?_,
        hbounds, hempty, hlive, ?_, hpopped⟩
      · exact congrArg Nat.succ hnelts
      · show (s.handed ++ [e]).length = n + 1
        rw [List.length_append, hhanded]
        rfl

/-- A waiting push is overtaken: the room that a pop makes for it is taken by another push. -/
theorem exists_lost (cells : ℕ → E) {queueCapacity : ℕ} (hcap : 0 < queueCapacity) {t u : τ}
    (htu : u ≠ t) (e : E) :
    ∃ s : QueueCalls τ E, Reach step ServingAlways (start cells queueCapacity) s ∧
      (∀ v, s.pc v = .idle) ∧ s.handed.length = queueCapacity + 2 ∧ s.popped.length = 1 ∧
      s.queue.nelts = queueCapacity ∧ (t, .push e .eintr) ∈ s.returned := by
  obtain ⟨s, hreach, hidle, hnelts, hbounds, hempty, hlive, hhanded, hpopped⟩ :=
    exists_full cells queueCapacity t e le_rfl
  have hfull : s.queue.queueFull = true := by
    rw [MsgQueue.queueFull_iff, hnelts, hbounds]
  -- `t` waits for room
  have hwait := reach_pushWaiting (e := e) hreach (hidle t) hlive hfull
  -- `u` pops a message and releases `t`
  have hpop := reach_pop (t := u) hwait
    (by show Function.update s.pc t _ u = _; rw [Function.update_of_ne htu]; exact hidle u) hlive
    (by
      refine Bool.eq_false_iff.mpr fun hnone => ?_
      rw [MsgQueue.queueEmpty_iff] at hnone
      have : s.queue.nelts = 0 := hnone
      omega)
    (Nat.succ_ne_zero _) fun v => v = t
  -- `u` pushes before `t` has the mutex
  have hovertake := reach_push (t := u) (e := e) hpop
    (by
      show (Function.update s.pc t _ u).signalFull _ = _
      rw [Function.update_of_ne htu, hidle u]
      rfl)
    hlive
    (by
      refine Bool.eq_false_iff.mpr fun hagain => ?_
      rw [MsgQueue.queueFull_iff] at hagain
      have : s.queue.nelts - 1 = s.queue.bounds := hagain
      omega)
    hempty
  -- `t` finds the queue full again
  have hgone := reach_refused (t := t) (e := e) hovertake
    (by
      show (Function.update s.pc t _ t).signalFull _ = _
      rw [Function.update_self, decide_eq_true rfl]
      rfl)
    hlive
    (by
      rw [MsgQueue.queueFull_iff]
      show s.queue.nelts - 1 + 1 = s.queue.bounds
      omega)
  refine ⟨_, hgone, fun v => ?_, ?_, ?_, ?_, ?_⟩
  · show Function.update (fun v => (Function.update s.pc t _ v).signalFull _) t .idle v = .idle
    by_cases hvt : v = t
    · rw [hvt, Function.update_self]
    · rw [Function.update_of_ne hvt, Function.update_of_ne hvt, hidle v]
      rfl
  · show (s.handed ++ [e] ++ [e]).length = queueCapacity + 2
    rw [List.length_append, List.length_append, hhanded]
    rfl
  · show (s.popped ++ [_]).length = 1
    rw [hpopped]
    rfl
  · show s.queue.nelts - 1 + 1 = queueCapacity
    omega
  · exact List.mem_append_right _ List.mem_cons_self

end Overtaken

/-- **An overtaken push loses its message.**  The queue of the server is full, the event loop
waits with a message, another thread takes one out and pushes one of its own before the event
loop has the mutex back: `queue_push` returns `QUEUE_EINTR` to the event loop, and one message
is neither popped nor in the queue, with no push in progress. -/
theorem overtaken_push_loses_message :
    ∃ s : QueueCalls (Fin 2) ℕ,
      Reach step ServingAlways (start (fun _ => 0) maxQueueCapacity) s ∧
      (∀ t, (s.pc t).held = 0) ∧ (0, .push 7 .eintr) ∈ s.returned ∧
      (s.handed : Multiset ℕ) ≠ s.popped + s.queue.contents + pending s.pc := by
  have hcap : 0 < maxQueueCapacity := by
    rw [maxQueueCapacity]
    omega
  obtain ⟨s, hreach, hidle, hhanded, hpopped, hnelts, hreturned⟩ :=
    exists_lost (fun _ => 0) hcap (show (1 : Fin 2) ≠ 0 by decide) 7
  have hheld : ∀ t, (s.pc t).held = 0 := fun t => congrArg CallPc.held (hidle t)
  refine ⟨s, hreach, hheld, hreturned, fun heq => ?_⟩
  have hnone : pending s.pc = 0 := Finset.sum_eq_zero fun t _ => hheld t
  have hcard := congrArg Multiset.card heq
  rw [hnone, add_zero, Multiset.card_add, Multiset.coe_card, Multiset.coe_card, Multiset.coe_card,
    hhanded, hpopped, MsgQueue.length_contents, hnelts] at hcard
  omega

end QueueCalls

end Zevent.Znet

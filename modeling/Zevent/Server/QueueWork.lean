/-
# Work conservation of the fd queue through shutdown (`fdqueue.c`)

Any number of threads around one `fd_queue_t`: each of them calls `zevent_queue_push`,
`zevent_queue_pop`, `zevent_queue_interrupt_all` and `zevent_queue_term` in any order.
The grain is the lock section.  A pop is up to three steps: the section that ends in
the take, in the wait or (the queue being empty and terminated) in the unlock; after a
wake-up, the section that tests once more; and, if that test found nothing, the read of
`terminated` that comes after the unlock and decides between `APR_EOF` and `APR_EINTR`.
`zevent_queue_term` is two sections, the flag and the broadcast.

A waiting thread is released by the signal of a push, by a broadcast, or for no reason
at all.  A signal may release any set of waiting threads, so what is shown here does not
rest on which of them the condition variable picks.

The history of a run is kept in `log`, newest event first: `pushedElems` and
`poppedElems` read the work off it, `lastCheck` what a thread last saw under the lock.
-/
import Mathlib.Tactic
import Zevent.Lib.Interleaving
import Zevent.Server.FdQueue

namespace Zevent.Server

open Interleaving

variable {τ E : Type}

/-! ## Histories -/

/-- What `zevent_queue_pop` returns. -/
inductive PopResult (E : Type) where
  | success (e : E)
  | eof
  | eintr
  deriving DecidableEq

/-- What happens to the queue: an element stored, a `zevent_queue_empty` under the lock,
the return of a pop, a broadcast, and the store `terminated = 1`. -/
inductive QueueEvent (τ E : Type) where
  | pushed (t : τ) (e : E)
  | checked (t : τ) (empty : Bool)
  | returned (t : τ) (r : PopResult E)
  | interrupted (t : τ)
  | terminated (t : τ)
  deriving DecidableEq

/-- The element an event stores. -/
def QueueEvent.stored : QueueEvent τ E → Option E
  | .pushed _ e => some e
  | _ => none

/-- The element an event returns to a worker. -/
def QueueEvent.taken : QueueEvent τ E → Option E
  | .returned _ (.success e) => some e
  | _ => none

/-- The elements pushed so far. -/
def pushedElems (log : List (QueueEvent τ E)) : List E := log.filterMap QueueEvent.stored

/-- The elements returned by successful pops so far. -/
def poppedElems (log : List (QueueEvent τ E)) : List E := log.filterMap QueueEvent.taken

/-- What thread `t` saw when it last tested the queue under the lock. -/
def lastCheck [DecidableEq τ] (t : τ) : List (QueueEvent τ E) → Option Bool
  | [] => none
  | .checked u empty :: earlier => if u = t then some empty else lastCheck t earlier
  | _ :: earlier => lastCheck t earlier

/-- `zevent_queue_term` has set its flag. -/
def Terminated (log : List (QueueEvent τ E)) : Prop := ∃ t, .terminated t ∈ log

/-- Every `APR_EOF` came after `zevent_queue_term`, to a thread whose last test under
the lock had found the queue empty. -/
def EofJustified [DecidableEq τ] (log : List (QueueEvent τ E)) : Prop :=
  ∀ t earlier, .returned t .eof :: earlier <:+ log →
    Terminated earlier ∧ lastCheck t earlier = some true

theorem Terminated.cons {log : List (QueueEvent τ E)} (h : Terminated log)
    (ev : QueueEvent τ E) : Terminated (ev :: log) := by
  obtain ⟨t, ht⟩ := h
  exact ⟨t, List.mem_cons_of_mem _ ht⟩

/-- An event that is not an `APR_EOF` keeps every earlier one justified. -/
theorem EofJustified.cons [DecidableEq τ] {ev : QueueEvent τ E} {log : List (QueueEvent τ E)}
    (h : EofJustified log)
    (hev : ∀ t, ev = .returned t .eof → Terminated log ∧ lastCheck t log = some true) :
    EofJustified (ev :: log) := by
  intro t earlier hsuf
  rw [List.suffix_cons_iff] at hsuf
  rcases hsuf with heq | hsuf
  · rw [List.cons.injEq] at heq
    obtain ⟨rfl, rfl⟩ := heq
    exact hev t rfl
  · exact h t earlier hsuf

/-! ## State and steps -/

/-- Where a thread is.  `leftEmpty` is the place after the unlock of a pop that found
nothing, `interrupting` the one between the two sections of `zevent_queue_term`. -/
inductive QueuePc where
  | out
  | waiting
  | woken
  | leftEmpty
  | interrupting
  deriving DecidableEq

/-- One queue, the threads around it, and what happened so far. -/
structure QueueWork (τ E : Type) where
  queue : FdQueue E
  pc : τ → QueuePc
  log : List (QueueEvent τ E)

namespace QueueWork

/-- A fresh queue with no thread inside. -/
def start (queueCapacity : ℕ) : QueueWork τ E where
  queue := FdQueue.zeventQueueInit queueCapacity
  pc := fun _ => .out
  log := []

/-- Release the waiting threads picked by `wake`. -/
def wakeUp (s : QueueWork τ E) (wake : τ → Bool) : QueueWork τ E :=
  { s with pc := fun t => if s.pc t = .waiting ∧ wake t then .woken else s.pc t }

variable [DecidableEq τ]

/-- Thread `t` goes to `pc`. -/
def moveTo (s : QueueWork τ E) (t : τ) (pc : QueuePc) : QueueWork τ E :=
  { s with pc := Function.update s.pc t pc }

/-- `zevent_queue_empty` under the lock. -/
def check (s : QueueWork τ E) (t : τ) : QueueWork τ E :=
  { s with log := .checked t s.queue.zeventQueueEmpty :: s.log }

/-- The body of `zevent_queue_push`, with the signal at its end. -/
def push (s : QueueWork τ E) (t : τ) (e : E) (wake : τ → Bool) : QueueWork τ E :=
  wakeUp { s with queue := s.queue.pushElem e, log := .pushed t e :: s.log } wake

/-- The end of `zevent_queue_pop`: take `data[--nelts]`, unlock and return it. -/
def popTake (s : QueueWork τ E) (t : τ) : Option (QueueWork τ E) :=
  s.queue.popElem.map fun (e, queue) =>
    moveTo { s with queue, log := .returned t (.success e) :: s.log } t .out

/-- The second test of `zevent_queue_pop` and what follows it under the lock. -/
def popRecheck (s : QueueWork τ E) (t : τ) : Option (QueueWork τ E) :=
  if s.queue.zeventQueueEmpty then some ((s.check t).moveTo t .leftEmpty)
  else (s.check t).popTake t

/-- The section `zevent_queue_pop` starts with, up to the wait when there is one. -/
def popLock (s : QueueWork τ E) (t : τ) : Option (QueueWork τ E) :=
  if s.queue.zeventQueueEmpty then
    if s.queue.terminated then (s.check t).popRecheck t
    else some ((s.check t).moveTo t .waiting)
  else (s.check t).popTake t

/-- The read of `terminated` after the unlock, and the return. -/
def popDecide (s : QueueWork τ E) (t : τ) : QueueWork τ E :=
  let r := if s.queue.terminated then PopResult.eof else PopResult.eintr
  moveTo { s with log := .returned t r :: s.log } t .out

/-- `zevent_queue_interrupt_all`: the broadcast releases every waiting thread. -/
def interruptAll (s : QueueWork τ E) (t : τ) : QueueWork τ E :=
  wakeUp { s with log := .interrupted t :: s.log } fun _ => true

/-- The first section of `zevent_queue_term`. -/
def setTerminated (s : QueueWork τ E) (t : τ) : QueueWork τ E :=
  moveTo { s with
    queue := { s.queue with terminated := true }
    log := .terminated t :: s.log } t .interrupting

/-- The moves of the threads. -/
inductive Act (τ E : Type) where
  | push (t : τ) (e : E) (wake : τ → Bool)
  | popLock (t : τ)
  | wakeSpuriously (t : τ)
  | popRelock (t : τ)
  | popDecide (t : τ)
  | interruptAll (t : τ)
  | termLock (t : τ)
  | termInterrupt (t : τ)

/-- One lock section, one wake-up or one read after an unlock. -/
def step (s : QueueWork τ E) : Act τ E → Option (QueueWork τ E)
  | .push t e wake => if s.pc t = .out then some (s.push t e wake) else none
  | .popLock t => if s.pc t = .out then s.popLock t else none
  | .wakeSpuriously t => if s.pc t = .waiting then some (s.moveTo t .woken) else none
  | .popRelock t => if s.pc t = .woken then s.popRecheck t else none
  | .popDecide t => if s.pc t = .leftEmpty then some (s.popDecide t) else none
  | .interruptAll t => if s.pc t = .out then some (s.interruptAll t) else none
  | .termLock t => if s.pc t = .out then some (s.setTerminated t) else none
  | .termInterrupt t =>
      if s.pc t = .interrupting then some ((s.interruptAll t).moveTo t .out) else none

/-- Nobody pushes into a full queue: the contract of `zevent_queue_push`. -/
def PushHasRoom (s : QueueWork τ E) : Act τ E → Prop
  | .push _ _ _ => s.queue.nelts < s.queue.bounds
  | _ => True

instance (s : QueueWork τ E) : (a : Act τ E) → Decidable (PushHasRoom s a)
  | .push _ _ _ => inferInstanceAs (Decidable (s.queue.nelts < s.queue.bounds))
  | .popLock _ | .wakeSpuriously _ | .popRelock _ | .popDecide _ | .interruptAll _
  | .termLock _ | .termInterrupt _ => isTrue trivial

/-! ## The invariant -/

/-- What every state keeps: the work pushed is the work returned and the work queued,
the cells in use exist, `terminated` was set by `zevent_queue_term`, and a thread past
the unlock of an unsuccessful pop last saw an empty queue. -/
structure Conserved (s : QueueWork τ E) : Prop where
  work : (pushedElems s.log : Multiset E) = poppedElems s.log + s.queue.data
  room : s.queue.nelts ≤ s.queue.bounds
  flag : s.queue.terminated = true → Terminated s.log
  sawEmpty : ∀ t, s.pc t = .leftEmpty → lastCheck t s.log = some true
  eof : EofJustified s.log

theorem conserved_start (queueCapacity : ℕ) :
    Conserved (start queueCapacity : QueueWork τ E) where
  work := rfl
  room := Nat.zero_le _
  flag := by
    intro h
    exact absurd h (by simp [start, FdQueue.zeventQueueInit])
  sawEmpty := by
    intro t h
    exact absurd h (by simp [start])
  eof := by
    intro t earlier h
    exact absurd h (by simp [start])

/-- Moving threads between the places outside `leftEmpty` keeps the invariant. -/
theorem Conserved.setPc {s : QueueWork τ E} (h : s.Conserved) {pc : τ → QueuePc}
    (hpc : ∀ t, pc t = .leftEmpty → s.pc t = .leftEmpty) :
    Conserved { s with pc } where
  work := h.work
  room := h.room
  flag := h.flag
  sawEmpty := fun t ht => h.sawEmpty t (hpc t ht)
  eof := h.eof

theorem Conserved.wakeUp {s : QueueWork τ E} (h : s.Conserved) (wake : τ → Bool) :
    (s.wakeUp wake).Conserved := by
  apply h.setPc
  intro t ht
  split_ifs at ht
  exact ht

theorem Conserved.moveTo {s : QueueWork τ E} (h : s.Conserved) (t : τ) {pc : QueuePc}
    (hpc : pc ≠ .leftEmpty) : (s.moveTo t pc).Conserved := by
  apply h.setPc
  intro u hu
  by_cases hut : u = t
  · subst hut
    rw [Function.update_self] at hu
    exact absurd hu hpc
  · rwa [Function.update_of_ne hut] at hu

/-- A test by a thread that is not already past the unlock. -/
theorem Conserved.check {s : QueueWork τ E} (h : s.Conserved) {t : τ}
    (ht : s.pc t ≠ .leftEmpty) : (s.check t).Conserved where
  work := h.work
  room := h.room
  flag := fun hterm => (h.flag hterm).cons _
  sawEmpty := by
    -- what another thread saw is still the last thing it saw
    intro u hu
    have hut : t ≠ u := by
      rintro rfl
      exact ht hu
    show lastCheck u (.checked t _ :: s.log) = some true
    rw [lastCheck, if_neg hut]
    exact h.sawEmpty u hu
  eof := by
    apply h.eof.cons
    intro u hu
    cases hu

theorem Conserved.push {s : QueueWork τ E} (h : s.Conserved) (t : τ) (e : E)
    (wake : τ → Bool) (hroom : s.queue.nelts < s.queue.bounds) :
    (s.push t e wake).Conserved := by
  apply Conserved.wakeUp
  constructor
  case work =>
    show ((e :: pushedElems s.log : List E) : Multiset E)
      = poppedElems s.log + (s.queue.data ++ [e] : List E)
    rw [← Multiset.cons_coe, h.work, ← Multiset.coe_add, ← add_assoc, Multiset.coe_singleton,
      ← Multiset.singleton_add, add_comm]
  case room =>
    rw [FdQueue.nelts_pushElem, FdQueue.bounds_pushElem]
    exact hroom
  case flag => exact fun hterm => (h.flag hterm).cons _
  case sawEmpty => exact h.sawEmpty
  case eof =>
    apply h.eof.cons
    intro u hu
    cases hu

/-- The cell a pop takes was the last of the list. -/
theorem popElem_data {q q' : FdQueue E} {e : E} (h : q.popElem = some (e, q')) :
    q.data = q'.data ++ [e] ∧ q'.bounds = q.bounds ∧ q'.terminated = q.terminated := by
  rw [FdQueue.popElem, Option.map_eq_some_iff] at h
  obtain ⟨x, hx, hq⟩ := h
  rw [Prod.mk.injEq] at hq
  obtain ⟨rfl, rfl⟩ := hq
  exact ⟨(List.dropLast_append_getLast? x hx).symm, rfl, rfl⟩

theorem Conserved.popTake {s s' : QueueWork τ E} (h : s.Conserved) {t : τ}
    (hs : s.popTake t = some s') : s'.Conserved := by
  rw [QueueWork.popTake, Option.map_eq_some_iff] at hs
  obtain ⟨⟨e, q⟩, hpop, rfl⟩ := hs
  obtain ⟨hdata, hbounds, hterm⟩ := popElem_data hpop
  refine Conserved.moveTo ?_ t (by decide)
  constructor
  case work =>
    show (pushedElems s.log : Multiset E)
      = ((e :: poppedElems s.log : List E) : Multiset E) + (q.data : Multiset E)
    rw [h.work, hdata, ← Multiset.coe_add, Multiset.coe_singleton, ← Multiset.cons_coe,
      ← add_assoc, ← Multiset.singleton_add, add_comm, add_assoc]
  case room =>
    have hlen := h.room
    have hcells := (FdQueue.popElem_spec hpop).1
    show q.nelts ≤ q.bounds
    omega
  case flag =>
    intro hflag
    exact (h.flag (hterm ▸ hflag)).cons _
  case sawEmpty => exact h.sawEmpty
  case eof =>
    apply h.eof.cons
    intro u hu
    cases hu

/-- The section after a wake-up.  The thread leaves the lock either with a cell or with
the queue seen empty. -/
theorem Conserved.popRecheck {s s' : QueueWork τ E} (h : s.Conserved) {t : τ}
    (ht : s.pc t ≠ .leftEmpty) (hs : s.popRecheck t = some s') : s'.Conserved := by
  rw [QueueWork.popRecheck] at hs
  split_ifs at hs with hempty
  · rw [Option.some.injEq] at hs
    subst hs
    have hc := h.check ht
    refine ⟨hc.work, hc.room, hc.flag, ?_, hc.eof⟩
    intro u hu
    show lastCheck u (.checked t s.queue.zeventQueueEmpty :: s.log) = some true
    rw [lastCheck]
    split_ifs with htu
    · -- the thread itself has just seen the queue empty
      rw [hempty]
    · have hpc : Function.update s.pc t QueuePc.leftEmpty u = .leftEmpty := hu
      rw [Function.update_of_ne (Ne.symm htu)] at hpc
      exact h.sawEmpty u hpc
  · exact (h.check ht).popTake hs

theorem Conserved.popLock {s s' : QueueWork τ E} (h : s.Conserved) {t : τ}
    (ht : s.pc t ≠ .leftEmpty) (hs : s.popLock t = some s') : s'.Conserved := by
  rw [QueueWork.popLock] at hs
  split_ifs at hs with hempty hterm
  · -- terminated: no wait, and the second test follows in the same section
    exact (h.check ht).popRecheck ht hs
  · rw [Option.some.injEq] at hs
    exact hs ▸ (h.check ht).moveTo t (by decide)
  · exact (h.check ht).popTake hs

/-- An event that moves no work and tests nothing. -/
theorem Conserved.note {s : QueueWork τ E} (h : s.Conserved) {ev : QueueEvent τ E}
    (hwork : ev.stored = none ∧ ev.taken = none)
    (hcheck : ∀ t, lastCheck t (ev :: s.log) = lastCheck t s.log)
    (heof : ∀ t, ev = .returned t .eof → Terminated s.log ∧ lastCheck t s.log = some true) :
    Conserved { s with log := ev :: s.log } where
  work := by
    show ((ev :: s.log).filterMap QueueEvent.stored : Multiset E)
      = (ev :: s.log).filterMap QueueEvent.taken + s.queue.data
    rw [List.filterMap_cons_none hwork.1, List.filterMap_cons_none hwork.2]
    exact h.work
  room := h.room
  flag := fun hterm => (h.flag hterm).cons _
  sawEmpty := fun t ht => (hcheck t).trans (h.sawEmpty t ht)
  eof := h.eof.cons heof

/-- The return of an unsuccessful pop: `APR_EOF` is read off the flag, and the thread
has not tested the queue again since it saw it empty. -/
theorem Conserved.popDecide {s : QueueWork τ E} (h : s.Conserved) {t : τ}
    (ht : s.pc t = .leftEmpty) : (s.popDecide t).Conserved := by
  refine Conserved.moveTo (h.note ?_ (fun _ => rfl) ?_) t (by decide)
  · split_ifs <;> exact ⟨rfl, rfl⟩
  · -- only a thread that reads the flag set returns `APR_EOF`
    intro u hu
    split_ifs at hu with hterm
    · rw [QueueEvent.returned.injEq] at hu
      obtain ⟨rfl, -⟩ := hu
      exact ⟨h.flag hterm, h.sawEmpty t ht⟩
    · simp at hu

theorem Conserved.interruptAll {s : QueueWork τ E} (h : s.Conserved) (t : τ) :
    (s.interruptAll t).Conserved := by
  apply Conserved.wakeUp
  apply h.note ⟨rfl, rfl⟩ (fun _ => rfl)
  intro u hu
  cases hu

theorem Conserved.setTerminated {s : QueueWork τ E} (h : s.Conserved) (t : τ) :
    (s.setTerminated t).Conserved := by
  refine Conserved.moveTo ?_ t (by decide)
  have hn : Conserved { s with log := .terminated t :: s.log } := by
    apply h.note ⟨rfl, rfl⟩ (fun _ => rfl)
    intro u hu
    cases hu
  exact ⟨hn.work, hn.room, fun _ => ⟨t, List.mem_cons_self⟩, hn.sawEmpty, hn.eof⟩

/-- Every step with room for its push keeps the invariant. -/
theorem Conserved.step {s s' : QueueWork τ E} {a : Act τ E} (h : s.Conserved)
    (hroom : PushHasRoom s a) (hs : s.step a = some s') : s'.Conserved := by
  cases a with
  | push t e wake =>
      rw [QueueWork.step, Option.ite_none_right_eq_some, Option.some.injEq] at hs
      exact hs.2 ▸ h.push t e wake hroom
  | popLock t =>
      rw [QueueWork.step, Option.ite_none_right_eq_some] at hs
      exact h.popLock (by rw [hs.1]; decide) hs.2
  | wakeSpuriously t =>
      rw [QueueWork.step, Option.ite_none_right_eq_some, Option.some.injEq] at hs
      exact hs.2 ▸ h.moveTo t (by decide)
  | popRelock t =>
      rw [QueueWork.step, Option.ite_none_right_eq_some] at hs
      exact h.popRecheck (by rw [hs.1]; decide) hs.2
  | popDecide t =>
      rw [QueueWork.step, Option.ite_none_right_eq_some, Option.some.injEq] at hs
      exact hs.2 ▸ h.popDecide hs.1
  | interruptAll t =>
      rw [QueueWork.step, Option.ite_none_right_eq_some, Option.some.injEq] at hs
      exact hs.2 ▸ h.interruptAll t
  | termLock t =>
      rw [QueueWork.step, Option.ite_none_right_eq_some, Option.some.injEq] at hs
      exact hs.2 ▸ h.setTerminated t
  | termInterrupt t =>
      rw [QueueWork.step, Option.ite_none_right_eq_some, Option.some.injEq] at hs
      exact hs.2 ▸ (h.interruptAll t).moveTo t (by decide)

/-! ## Runs -/

/-- **The fd queue conserves work through shutdown.**  In every state of every
interleaving, the elements pushed are the elements returned together with
`data[0 .. nelts)`, which lie inside the array; every `APR_EOF` so far was returned after
`zevent_queue_term` to a thread whose last test found the queue empty; and of elements
pushed once each, none was returned twice or is queued after having been returned. -/
theorem queue_conserves_work {queueCapacity : ℕ} {s : QueueWork τ E}
    (h : Reach step PushHasRoom (start queueCapacity) s) :
    (pushedElems s.log : Multiset E) = poppedElems s.log + s.queue.data ∧
      s.queue.nelts ≤ s.queue.bounds ∧ EofJustified s.log ∧
      ((pushedElems s.log).Nodup → (poppedElems s.log ++ s.queue.data).Nodup) := by
  have hc : s.Conserved := by
    apply h.invariant Conserved (conserved_start queueCapacity)
    intro s a s' hc hroom hs
    exact hc.step hroom hs
  refine ⟨hc.work, hc.room, hc.eof, ?_⟩
  intro hnodup
  rw [← Multiset.coe_nodup, ← Multiset.coe_add, ← hc.work, Multiset.coe_nodup]
  exact hnodup

/-- Two workers wait, a push releases both and one of them steals the element; the other
finds the queue empty after `zevent_queue_term` and returns `APR_EOF`. -/
theorem queue_conserves_work_stolen :
    ∃ s : QueueWork (Fin 3) ℕ, Reach step PushHasRoom (start 2) s ∧
      poppedElems s.log = [7] ∧ QueueEvent.returned 2 .eof ∈ s.log ∧
      ((pushedElems s.log : Multiset ℕ) = poppedElems s.log + s.queue.data ∧
        s.queue.nelts ≤ s.queue.bounds ∧ EofJustified s.log ∧
        ((pushedElems s.log).Nodup → (poppedElems s.log ++ s.queue.data).Nodup)) := by
  have hrun : (run step PushHasRoom (start 2 : QueueWork (Fin 3) ℕ)
      [.popLock 1, .popLock 2, .push 0 7 (fun _ => true), .popRelock 1, .popRelock 2,
        .termLock 0, .popDecide 2, .termInterrupt 0]).map
      (fun s => (poppedElems s.log, decide (QueueEvent.returned 2 .eof ∈ s.log)))
      = some ([7], true) := by
    decide
  obtain ⟨s, hs, hlog⟩ := Option.map_eq_some_iff.mp hrun
  rw [Prod.mk.injEq, decide_eq_true_iff] at hlog
  have hreach := Reach.refl.run _ hs
  exact ⟨s, hreach, hlog.1, hlog.2, queue_conserves_work hreach⟩

end QueueWork

end Zevent.Server

/-
# The fd queue of a child process (`fdqueue.c`)

The two records the listener and the workers of one child share: `fd_queue_t`, the
stack of connections handed over, and the counter half of `fd_queue_info_t`, the
number of idle workers.  (The recycled-pool list of `fd_queue_info_t` is the subject
of `Zevent.Server.PoolStack`.)

What the source does while it holds a mutex is a function here; where the lock is
taken, and where a thread waits, is the business of the step functions that use these
records.  `data` lists the occupied cells `data[0 .. nelts)`: `zevent_queue_push`
writes the cell `data[nelts]` without looking at `bounds`, and so does `pushElem`.
-/
import Mathlib.Data.Int.Notation
import Mathlib.Data.List.Basic

namespace Zevent.Server

/-- `fd_queue_t`: the occupied cells, the number of cells allocated, and the flag set
by `zevent_queue_term`. -/
structure FdQueue (E : Type) where
  data : List E
  bounds : ℕ
  terminated : Bool

namespace FdQueue

variable {E : Type}

/-- `zevent_queue_init`. -/
def zeventQueueInit (queueCapacity : ℕ) : FdQueue E where
  data := []
  bounds := queueCapacity
  terminated := false

/-- The number of occupied cells, `queue->nelts`. -/
def nelts (q : FdQueue E) : ℕ := q.data.length

/-- `zevent_queue_empty`. -/
def zeventQueueEmpty (q : FdQueue E) : Bool := q.nelts == 0

/-- The body of `zevent_queue_push`: `elem = &data[nelts]; ...; nelts++`. -/
def pushElem (q : FdQueue E) (e : E) : FdQueue E := { q with data := q.data ++ [e] }

/-- The end of `zevent_queue_pop`: `elem = &data[--nelts]`; `none` on an empty queue,
where the source does not get that far. -/
def popElem (q : FdQueue E) : Option (E × FdQueue E) :=
  q.data.getLast?.map fun e => (e, { q with data := q.data.dropLast })

@[simp] theorem nelts_pushElem (q : FdQueue E) (e : E) :
    (q.pushElem e).nelts = q.nelts + 1 := by
  simp [pushElem, nelts]

@[simp] theorem bounds_pushElem (q : FdQueue E) (e : E) :
    (q.pushElem e).bounds = q.bounds := rfl

/-- A successful pop takes one cell off the top and leaves the size of the array. -/
theorem popElem_spec {q q' : FdQueue E} {e : E} (h : q.popElem = some (e, q')) :
    q.nelts = q'.nelts + 1 ∧ q'.bounds = q.bounds := by
  rw [popElem, Option.map_eq_some_iff] at h
  obtain ⟨x, hx, hq⟩ := h
  have hne : q.data ≠ [] := by
    intro hnil
    rw [hnil] at hx
    simp at hx
  have hlen := List.length_pos_iff.mpr hne
  rw [Prod.mk.injEq] at hq
  obtain ⟨-, rfl⟩ := hq
  refine ⟨?_, rfl⟩
  simp only [nelts, List.length_dropLast]
  omega

end FdQueue

/-- The counter half of `fd_queue_info_t`.  `idlers` is the number of idle workers
when it is not negative, and minus the number of threads blocked waiting for one
otherwise. -/
structure FdQueueInfo where
  idlers : ℤ
  terminated : Bool

/-- `zevent_queue_info_create`: the record is zeroed. -/
def zeventQueueInfoCreate : FdQueueInfo where
  idlers := 0
  terminated := false

end Zevent.Server

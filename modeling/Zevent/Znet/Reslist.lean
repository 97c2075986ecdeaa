/-
# The resource pool (`common/misc/reslist.c`)

A pool keeps between `min` and `hmax` resources.  Clients take one with `reslist_acquire` and
give it back with `reslist_release`, or throw it away with `reslist_invalidate`.  Idle
resources sit in the ring `avail_list`, the most recently used first; the containers that
hold none sit in the ring `free_list`.

The grain is the lock section.  `reslist_acquire` is the section that ends in the return or
in the wait, and after each wake-up the section that tests once more.  `reslist_release` is
the section that gives the resource back, and then the one of `reslist_maint`.

The clock, the constructor and the destructor are the caller's world: the clock does not run
backwards, and the two callbacks answer what they like.  A resource is named by the number of
the constructor call that made it, a container by the number of the `malloc` that made it.

The threads in the wait, the threads released from it and the threads on their way to
`reslist_maint` are lists, so any number of threads can be anywhere.  A signal releases one
waiting thread, any of them.

`reslist_accounted` says what every interleaving keeps: the two counters count the idle and
the acquired resources, and no resource is in two hands or is used after its destructor ran.
-/
import Mathlib.Tactic
import Zevent.Lib.Interleaving

namespace Zevent.Znet

open Interleaving

/-! ## The data -/

/-- `res_t`: the container, the time it was pushed, and the resource in it. -/
structure Res where
  container : ℕ
  freed : ℤ
  resource : ℕ
  deriving DecidableEq, Repr

/-- The arguments of `reslist_create` that its checks let through. -/
structure Limits where
  min : ℤ
  smax : ℤ
  hmax : ℤ
  ttl : ℤ
  min_nonneg : 0 ≤ min
  min_le : min ≤ smax
  smax_le : smax ≤ hmax
  hmax_pos : 0 < hmax
  ttl_nonneg : 0 ≤ ttl

/-- `reslist_t`, without its mutex, condition variable and callbacks. -/
structure Reslist extends Limits where
  ntotal : ℤ
  nidle : ℤ
  timeout : ℤ
  availList : List Res
  freeList : List ℕ

/-- What the pool calls: the readings of `time_now` in the order of time, and what the
constructor and the destructor return the `k`-th time. -/
structure ResWorld where
  clock : ℕ → ℤ
  clock_mono : Monotone clock
  constructor : ℕ → ℤ
  destructor : ℕ → ℤ

/-- What `thread_cond_timedwait` returns when the time is up. -/
def condEtimeup : ℤ := 1

/-- One pool and the threads around it.  `readings`, `made`, `torn` and `mallocs` count the
calls of `time_now`, the constructor, the destructor and `malloc`; `destroyed` are the
resources whose destructor ran, `held` those that a client has acquired.  `blocked` is the
wait of `reslist_acquire`, with or without a timeout; `woken` is the way out of it, by a
wake-up or by the timeout; `leaving` is between the two sections of `reslist_release`. -/
structure Pool (τ : Type) where
  list : Reslist
  readings : ℕ
  made : ℕ
  torn : ℕ
  mallocs : ℕ
  destroyed : List ℕ
  held : List (τ × ℕ)
  blocked : List (τ × Bool)
  woken : List (τ × Bool)
  leaving : List τ
  returned : List (τ × ℤ)

namespace Pool

variable {τ : Type} (w : ResWorld)

/-! ## The static functions -/

/-- `pop_resource`; there is none in an empty ring. -/
def popResource (p : Pool τ) : Option (Res × Pool τ) :=
  match p.list.availList with
  | [] => none
  | res :: rest =>
      some (res, { p with list := { p.list with
        availList := rest
        nidle := p.list.nidle - 1 } })

/-- `time_now`. -/
def timeNow (p : Pool τ) : ℤ × Pool τ :=
  (w.clock p.readings, { p with readings := p.readings + 1 })

/-- `push_resource`. -/
def pushResource (p : Pool τ) (res : Res) : Pool τ :=
  let (now, p) := timeNow w p
  { p with list := { p.list with
      availList := { res with freed := now } :: p.list.availList
      nidle := p.list.nidle + 1 } }

/-- `get_container`. -/
def getContainer (p : Pool τ) : ℕ × Pool τ :=
  match p.list.freeList with
  | [] => (p.mallocs, { p with mallocs := p.mallocs + 1 })
  | c :: rest => (c, { p with list := { p.list with freeList := rest } })

/-- `free_container`. -/
def freeContainer (p : Pool τ) (container : ℕ) : Pool τ :=
  { p with list := { p.list with freeList := p.list.freeList ++ [container] } }

/-- `create_resource`: what the constructor returned, and the container with the resource. -/
def createResource (p : Pool τ) : ℤ × Res × Pool τ :=
  let (c, p) := p.getContainer
  (w.constructor p.made, ⟨c, 0, p.made⟩, { p with made := p.made + 1 })

/-- A call of the destructor. -/
def destruct (p : Pool τ) (resource : ℕ) : ℤ × Pool τ :=
  (w.destructor p.torn, { p with torn := p.torn + 1, destroyed := p.destroyed ++ [resource] })

/-- `destroy_resource`. -/
def destroyResource (p : Pool τ) (res : Res) : ℤ × Pool τ := destruct w p res.resource

/-- `ntotal` goes up or down. -/
def countTotal (p : Pool τ) (d : ℤ) : Pool τ :=
  { p with list := { p.list with ntotal := p.list.ntotal + d } }

/-- `thread_cond_signal`: one of the waiting threads goes on, the one `pick` stands for. -/
def signal (p : Pool τ) (pick : ℕ) : Pool τ :=
  match p.blocked[pick % p.blocked.length]? with
  | none => p
  | some (t, _) =>
      { p with
        blocked := p.blocked.eraseIdx (pick % p.blocked.length)
        woken := p.woken ++ [(t, false)] }

/-- The call of `t` returns `rv`. -/
def finish (p : Pool τ) (t : τ) (rv : ℤ) : Pool τ :=
  { p with returned := p.returned ++ [(t, rv)] }

/-- `*resource = res->opaque` for the client `t`. -/
def hand (p : Pool τ) (t : τ) (res : Res) : Pool τ :=
  { p with held := p.held ++ [(t, res.resource)] }

/-! ## Maintenance -/

/-- The first loop of `reslist_maint`: `createdOne` when it runs to its end, the error of the
constructor when it does not.  `fuel` bounds the rounds. -/
def maintCreate (pick : ℕ → ℕ) : ℕ → Pool τ → ℕ → Option (Except ℤ ℕ × Pool τ)
  | 0, _, _ => none
  | fuel + 1, p, createdOne =>
      if p.list.nidle < p.list.min ∧ p.list.ntotal < p.list.hmax then
        let (rv, res, p) := createResource w p
        -- the container of a failed resource goes back to `malloc`, not to the ring
        if rv ≠ 0 then some (.error rv, p)
        else
          let p := (pushResource w p res).countTotal 1
          maintCreate pick fuel (p.signal (pick createdOne)) (createdOne + 1)
      else some (.ok createdOne, p)

/-- The second loop of `reslist_maint`. -/
def maintExpire (now : ℤ) : ℕ → Pool τ → Option (ℤ × Pool τ)
  | 0, _ => none
  | fuel + 1, p =>
      if p.list.nidle > p.list.smax ∧ p.list.nidle > 0 then
        match p.list.availList.getLast? with
        | none => none
        | some res =>
            -- the last one is the oldest: if it may stay, all may
            if now - res.freed < p.list.ttl then some (0, p)
            else
              let p := { p with list := { p.list with
                availList := p.list.availList.dropLast
                nidle := p.list.nidle - 1 } }
              let (rv, p) := destroyResource w (p.countTotal (-1)) res
              let p := p.freeContainer res.container
              if rv ≠ 0 then some (rv, p) else maintExpire now fuel p
      else some (0, p)

/-- `reslist_maint`. -/
def reslistMaint (pick : ℕ → ℕ) (p : Pool τ) : Option (ℤ × Pool τ) :=
  match maintCreate w pick ((p.list.hmax - p.list.ntotal).toNat + 1) p 0 with
  | none => none
  | some (.error rv, p) => some (rv, p)
  | some (.ok createdOne, p) =>
      -- whoever made resources expires none
      if createdOne ≠ 0 then some (0, p)
      else
        let (now, p) := timeNow w p
        maintExpire w now (p.list.availList.length + 1) p

/-! ## Creation and destruction -/

/-- The loop of `reslist_cleanup`. -/
def cleanupLoop : ℕ → ℤ → Pool τ → Option (ℤ × Pool τ)
  | 0, _, _ => none
  | fuel + 1, rv, p =>
      if p.list.nidle > 0 then
        match p.popResource with
        | none => none
        | some (res, p) =>
            let (rv1, p) := destroyResource w (p.countTotal (-1)) res
            cleanupLoop fuel (if rv1 ≠ 0 then rv1 else rv) (p.freeContainer res.container)
      else some (rv, p)

/-- `reslist_cleanup`, with its two assertions. -/
def reslistCleanup (p : Pool τ) : Option (ℤ × Pool τ) :=
  match cleanupLoop w (p.list.availList.length + 1) 0 p with
  | none => none
  | some (rv, p) => if p.list.nidle = 0 ∧ p.list.ntotal = 0 then some (rv, p) else none

/-- A pool that holds nothing yet. -/
def empty (limits : Limits) : Pool τ where
  list := { limits with ntotal := 0, nidle := 0, timeout := 0, availList := [], freeList := [] }
  readings := 0
  made := 0
  torn := 0
  mallocs := 0
  destroyed := []
  held := []
  blocked := []
  woken := []
  leaving := []
  returned := []

/-- `reslist_create`: the error it returns, or the pool. -/
def reslistCreate (min smax hmax ttl : ℤ) : Option (Except ℤ (Pool τ)) :=
  if h : min < 0 ∨ min > smax ∨ min > hmax ∨ smax > hmax ∨ hmax = 0 ∨ ttl < 0 then
    some (.error (-1))
  else
    let limits : Limits := ⟨min, smax, hmax, ttl, by omega, by omega, by omega, by omega, by omega⟩
    match reslistMaint w (fun _ => 0) (empty limits) with
    | none => none
    | some (rv, p) =>
        if rv ≠ 0 then (reslistCleanup w p).map fun _ => .error rv else some (.ok p)

/-! ## The calls of the clients -/

/-- How the first loop of `reslist_acquire` ends. -/
inductive Idle where
  | got (res : Res)
  | failed (rv : ℤ)
  | noneLeft
  deriving DecidableEq, Repr

/-- The first loop of `reslist_acquire`; `now` was read before it. -/
def acquireIdle (now : ℤ) : ℕ → Pool τ → Option (Idle × Pool τ)
  | 0, _ => none
  | fuel + 1, p =>
      if p.list.nidle > 0 then
        match p.popResource with
        | none => none
        | some (res, p) =>
            -- an expired resource is destroyed and the next one is looked at
            if p.list.ttl ≠ 0 ∧ now - res.freed ≥ p.list.ttl then
              let (rv, p) := destroyResource w (p.countTotal (-1)) res
              let p := p.freeContainer res.container
              if rv ≠ 0 then some (.failed rv, p) else acquireIdle now fuel p
            else some (.got res, p)
      else some (.noneLeft, p)

/-- `reslist_acquire` past its wait: what is idle, else a new resource. -/
def acquireRest (p : Pool τ) (t : τ) : Option (Pool τ) :=
  if p.list.nidle > 0 then
    -- after the wait no resource is checked for its age
    match p.popResource with
    | none => none
    | some (res, p) => some (((p.hand t res).freeContainer res.container).finish t 0)
  else
    let (rv, res, p) := createResource w p
    -- `ntotal` counts the resource only if the constructor made one
    let p := if rv = 0 then (p.countTotal 1).hand t res else p
    some ((p.freeContainer res.container).finish t rv)

/-- The test of the wait of `reslist_acquire`, and what follows it. -/
def acquireWait (p : Pool τ) (t : τ) : Option (Pool τ) :=
  if p.list.ntotal ≥ p.list.hmax ∧ p.list.nidle ≤ 0 then
    some { p with blocked := p.blocked ++ [(t, decide (p.list.timeout ≠ 0))] }
  else acquireRest w p t

/-- The section that `reslist_acquire` starts with, up to the wait when there is one. -/
def reslistAcquire (p : Pool τ) (t : τ) : Option (Pool τ) :=
  let (now, p) := timeNow w p
  match acquireIdle w now (p.list.availList.length + 1) p with
  | none => none
  | some (.got res, p) => some (((p.hand t res).freeContainer res.container).finish t 0)
  | some (.failed rv, p) => some (p.finish t rv)
  | some (.noneLeft, p) => acquireWait w p t

/-- The section after the wait of `reslist_acquire`. -/
def relock (p : Pool τ) (t : τ) (timeUp : Bool) : Option (Pool τ) :=
  if timeUp then some (p.finish t condEtimeup) else acquireWait w p t

section Moves

variable [DecidableEq τ]

/-- The first section of `reslist_release`, by `t`, for the resource that `holder` got. -/
def reslistRelease (p : Pool τ) (t holder : τ) (resource pick : ℕ) : Pool τ :=
  let p := { p with held := p.held.erase (holder, resource) }
  let (c, p) := p.getContainer
  let p := (pushResource w p ⟨c, 0, resource⟩).signal pick
  { p with leaving := p.leaving ++ [t] }

/-- The second section of `reslist_release`. -/
def releaseMaint (p : Pool τ) (t : τ) (pick : ℕ → ℕ) : Option (Pool τ) :=
  (reslistMaint w pick { p with leaving := p.leaving.erase t }).map fun (rv, p) => p.finish t rv

/-- `reslist_invalidate`. -/
def reslistInvalidate (p : Pool τ) (t holder : τ) (resource pick : ℕ) : Pool τ :=
  let p := { p with held := p.held.erase (holder, resource) }
  let (ret, p) := destruct w p resource
  ((p.countTotal (-1)).signal pick).finish t ret

/-- `reslist_timeout_set`. -/
def reslistTimeoutSet (p : Pool τ) (timeout : ℤ) : Pool τ :=
  { p with list := { p.list with timeout := timeout } }

/-! ## The moves -/

/-- The moves of the threads.  `relock` is the section after the wait; `pick` is what the
signals of the section release. -/
inductive Act (τ : Type) where
  | acquire (t : τ)
  | wakeSpuriously (t : τ) (timed : Bool)
  | timeUp (t : τ)
  | relock (t : τ) (timeUp : Bool)
  | release (t holder : τ) (resource pick : ℕ)
  | maint (t : τ) (pick : ℕ → ℕ)
  | invalidate (t holder : τ) (resource pick : ℕ)
  | timeoutSet (timeout : ℤ)

/-- `t` is in none of the functions of the pool. -/
def Outside (p : Pool τ) (t : τ) : Prop :=
  (t, false) ∉ p.blocked ∧ (t, true) ∉ p.blocked ∧ (t, false) ∉ p.woken ∧ (t, true) ∉ p.woken
    ∧ t ∉ p.leaving

instance (p : Pool τ) (t : τ) : Decidable (p.Outside t) :=
  inferInstanceAs (Decidable (_ ∧ _ ∧ _ ∧ _ ∧ _))

/-- A thread starts a call when it is in none, and goes on from where it is.  A client gives
back a resource that was acquired and not given back since. -/
def Enabled (p : Pool τ) : Act τ → Prop
  | .acquire t => p.Outside t
  | .wakeSpuriously t timed => (t, timed) ∈ p.blocked
  | .timeUp t => (t, true) ∈ p.blocked
  | .relock t timeUp => (t, timeUp) ∈ p.woken
  | .release t holder resource _ => p.Outside t ∧ (holder, resource) ∈ p.held
  | .maint t _ => t ∈ p.leaving
  | .invalidate t holder resource _ => p.Outside t ∧ (holder, resource) ∈ p.held
  | .timeoutSet _ => True

instance (p : Pool τ) (a : Act τ) : Decidable (p.Enabled a) :=
  match a with
  | .acquire t => inferInstanceAs (Decidable (p.Outside t))
  | .wakeSpuriously t timed => inferInstanceAs (Decidable ((t, timed) ∈ p.blocked))
  | .timeUp t => inferInstanceAs (Decidable ((t, true) ∈ p.blocked))
  | .relock t timeUp => inferInstanceAs (Decidable ((t, timeUp) ∈ p.woken))
  | .release t holder resource _ =>
      inferInstanceAs (Decidable (p.Outside t ∧ (holder, resource) ∈ p.held))
  | .maint t _ => inferInstanceAs (Decidable (t ∈ p.leaving))
  | .invalidate t holder resource _ =>
      inferInstanceAs (Decidable (p.Outside t ∧ (holder, resource) ∈ p.held))
  | .timeoutSet _ => inferInstanceAs (Decidable True)

/-- The lock section of an enabled move. -/
def perform (p : Pool τ) : Act τ → Option (Pool τ)
  | .acquire t => reslistAcquire w p t
  | .wakeSpuriously t timed =>
      some { p with blocked := p.blocked.erase (t, timed), woken := p.woken ++ [(t, false)] }
  | .timeUp t =>
      some { p with blocked := p.blocked.erase (t, true), woken := p.woken ++ [(t, true)] }
  | .relock t timeUp => relock w { p with woken := p.woken.erase (t, timeUp) } t timeUp
  | .release t holder resource pick => some (reslistRelease w p t holder resource pick)
  | .maint t pick => releaseMaint w p t pick
  | .invalidate t holder resource pick => some (reslistInvalidate w p t holder resource pick)
  | .timeoutSet timeout => some (p.reslistTimeoutSet timeout)

/-- One move. -/
def step (p : Pool τ) (a : Act τ) : Option (Pool τ) :=
  if p.Enabled a then perform w p a else none

end Moves

/-! ## What holds of a pool -/

/-- Every resource whose constructor ran: idle, acquired or destroyed. -/
def resources (p : Pool τ) : Multiset ℕ :=
  ↑(p.list.availList.map Res.resource) + ↑(p.held.map Prod.snd) + ↑p.destroyed

/-- The containers in the two rings. -/
def containers (p : Pool τ) : Multiset ℕ :=
  ↑(p.list.availList.map Res.container) + ↑p.list.freeList

/-- Different names, all among the first `n`. -/
def Names (n : ℕ) (s : Multiset ℕ) : Prop := s.Nodup ∧ ∀ r ∈ s, r < n

/-- The pool is sound, with the resources `rs` and the containers `cs` taken out of it by the
section in progress. -/
structure Sound (p : Pool τ) (rs cs : Multiset ℕ) : Prop where
  nidle_eq : p.list.nidle = p.list.availList.length
  ntotal_eq : p.list.ntotal = p.list.nidle + p.held.length + rs.card
  ntotal_le : p.list.ntotal ≤ p.list.hmax
  resources : Names p.made (rs + p.resources)
  containers : Names p.mallocs (cs + p.containers)
  sorted : p.list.availList.Pairwise fun a b => b.freed ≤ a.freed
  recent : ∀ res ∈ p.list.availList, res.freed ≤ w.clock p.readings

/-- What maintenance and the loop over idle resources leave alone.  Only signals touch the
waiting threads: none starts to wait, and none that was woken is lost. -/
structure Kept (p p' : Pool τ) : Prop where
  limits : p'.list.toLimits = p.list.toLimits
  timeout : p'.list.timeout = p.list.timeout
  held : p'.held = p.held
  blocked : ∀ x ∈ p'.blocked, x ∈ p.blocked
  woken : p.woken <+: p'.woken
  wokenUp : ∀ x ∈ p'.woken, x ∈ p.woken ∨ x.2 = false

/-- A step that leaves limits, timeout and threads alone. -/
theorem Kept.of_eq {p p' : Pool τ} (hlimits : p'.list.toLimits = p.list.toLimits)
    (htimeout : p'.list.timeout = p.list.timeout) (hheld : p'.held = p.held)
    (hblocked : p'.blocked = p.blocked) (hwoken : p'.woken = p.woken) : Kept p p' where
  limits := hlimits
  timeout := htimeout
  held := hheld
  blocked := fun x hx => by rwa [hblocked] at hx
  woken := by rw [hwoken]
  wokenUp := fun x hx => Or.inl (by rwa [hwoken] at hx)

theorem Kept.trans {p p' p'' : Pool τ} (h : Kept p p') (h' : Kept p' p'') : Kept p p'' where
  limits := h'.limits.trans h.limits
  timeout := h'.timeout.trans h.timeout
  held := h'.held.trans h.held
  blocked := fun x hx => h.blocked x (h'.blocked x hx)
  woken := h.woken.trans h'.woken
  wokenUp := by
    intro x hx
    obtain hx | hx := h'.wokenUp x hx
    · exact h.wokenUp x hx
    · exact Or.inr hx

/-- Names below a bound are below a bigger one. -/
theorem Names.mono {n m : ℕ} {s : Multiset ℕ} (h : Names n s) (hle : n ≤ m) : Names m s :=
  ⟨h.1, fun r hr => (h.2 r hr).trans_le hle⟩

theorem Names.of_cons {n r : ℕ} {s : Multiset ℕ} (h : Names n (r ::ₘ s)) : Names n s :=
  ⟨(Multiset.nodup_cons.mp h.1).2, fun x hx => h.2 x (Multiset.mem_cons_of_mem hx)⟩

/-- The next name is a new one. -/
theorem Names.cons {n : ℕ} {s : Multiset ℕ} (h : Names n s) : Names (n + 1) (n ::ₘ s) := by
  refine ⟨Multiset.nodup_cons.mpr ⟨fun hn => lt_irrefl n (h.2 n hn), h.1⟩, fun r hr => ?_⟩
  rw [Multiset.mem_cons] at hr
  obtain rfl | hr := hr
  · exact Nat.lt_succ_self r
  · exact (h.2 r hr).trans (Nat.lt_succ_self n)

/-! ### Single operations -/

section Operations

variable {w} {p : Pool τ} {rs cs : Multiset ℕ}

/-- The pool with the first idle resource taken out, or the last one. -/
def withIdle (p : Pool τ) (rest : List Res) : Pool τ :=
  { p with list := { p.list with availList := rest, nidle := p.list.nidle - 1 } }

/-- A resource that leaves the pool is moved from one side of the account to the other. -/
theorem Sound.withIdle (h : Sound w p rs cs) {res : Res} {rest : List Res}
    (hperm : p.list.availList.Perm (res :: rest)) (hsub : rest.Sublist p.list.availList) :
    Sound w (p.withIdle rest) (res.resource ::ₘ rs) (res.container ::ₘ cs) where
  nidle_eq := by
    show p.list.nidle - 1 = rest.length
    rw [h.nidle_eq, hperm.length_eq, List.length_cons]
    push_cast
    ring
  ntotal_eq := by
    show p.list.ntotal = p.list.nidle - 1 + p.held.length + (res.resource ::ₘ rs).card
    rw [h.ntotal_eq, Multiset.card_cons]
    push_cast
    ring
  ntotal_le := h.ntotal_le
  resources := by
    have hmoved : res.resource ::ₘ rs + (p.withIdle rest).resources = rs + p.resources := by
      simp only [Pool.resources, Pool.withIdle]
      rw [Multiset.coe_eq_coe.mpr (hperm.map Res.resource), List.map_cons, ← Multiset.cons_coe]
      simp only [Multiset.cons_add, Multiset.add_cons]
    rw [hmoved]
    exact h.resources
  containers := by
    have hmoved : res.container ::ₘ cs + (p.withIdle rest).containers = cs + p.containers := by
      simp only [Pool.containers, Pool.withIdle]
      rw [Multiset.coe_eq_coe.mpr (hperm.map Res.container), List.map_cons, ← Multiset.cons_coe]
      simp only [Multiset.cons_add, Multiset.add_cons]
    rw [hmoved]
    exact h.containers
  sorted := h.sorted.sublist hsub
  recent := fun r hr => h.recent r (hsub.subset hr)

/-- While `nidle` is positive there is a resource to pop. -/
theorem Sound.popResource (h : Sound w p rs cs) (hpos : p.list.nidle > 0) :
    ∃ res p', p.popResource = some (res, p')
      ∧ Sound w p' (res.resource ::ₘ rs) (res.container ::ₘ cs) ∧ Kept p p'
      ∧ p.list.availList.length = p'.list.availList.length + 1 := by
  have hlen := h.nidle_eq
  cases havail : p.list.availList with
  | nil =>
      rw [havail, List.length_nil] at hlen
      omega
  | cons res rest =>
      refine ⟨res, p.withIdle rest, ?_, h.withIdle ?_ ?_, Kept.of_eq rfl rfl rfl rfl rfl,
        List.length_cons⟩
      · rw [Pool.popResource, havail]
        rfl
      · rw [havail]
      · rw [havail]
        exact List.sublist_cons_self res rest

/-- A resource without a container, destroyed or given to a client. -/
theorem Sound.destroyResource {res : Res} (h : Sound w p (res.resource ::ₘ rs) cs) :
    Sound w (Pool.destroyResource w (p.countTotal (-1)) res).2 rs cs where
  nidle_eq := h.nidle_eq
  ntotal_eq := by
    have htotal := h.ntotal_eq
    rw [Multiset.card_cons] at htotal
    show p.list.ntotal + -1 = p.list.nidle + p.held.length + rs.card
    rw [htotal]
    push_cast
    ring
  ntotal_le := by
    have hle := h.ntotal_le
    show p.list.ntotal + -1 ≤ p.list.hmax
    omega
  resources := by
    have hmoved : rs + (Pool.destroyResource w (p.countTotal (-1)) res).2.resources
        = res.resource ::ₘ rs + p.resources := by
      simp only [Pool.resources, Pool.destroyResource, destruct, countTotal, ← Multiset.coe_add,
        Multiset.coe_singleton, ← Multiset.singleton_add]
      abel
    rw [hmoved]
    exact h.resources
  containers := h.containers
  sorted := h.sorted
  recent := h.recent

theorem Sound.hand {res : Res} (h : Sound w p (res.resource ::ₘ rs) cs) (t : τ) :
    Sound w (p.hand t res) rs cs where
  nidle_eq := h.nidle_eq
  ntotal_eq := by
    have htotal := h.ntotal_eq
    rw [Multiset.card_cons] at htotal
    show p.list.ntotal = p.list.nidle + (p.held ++ [(t, res.resource)]).length + rs.card
    rw [htotal, List.length_append, List.length_singleton]
    push_cast
    ring
  ntotal_le := h.ntotal_le
  resources := by
    have hmoved : rs + (p.hand t res).resources = res.resource ::ₘ rs + p.resources := by
      simp only [Pool.resources, Pool.hand, List.map_append, List.map_cons, List.map_nil,
        ← Multiset.coe_add, Multiset.coe_singleton, ← Multiset.singleton_add]
      abel
    rw [hmoved]
    exact h.resources
  containers := h.containers
  sorted := h.sorted
  recent := h.recent

/-- The pool after a client has given something back. -/
def withHeld (p : Pool τ) (held : List (τ × ℕ)) : Pool τ := { p with held := held }

/-- A resource that a thread holds is taken back. -/
theorem Sound.takeBack [DecidableEq τ] (h : Sound w p rs cs) {holder : τ} {resource : ℕ}
    (hheld : (holder, resource) ∈ p.held) :
    Sound w (p.withHeld (p.held.erase (holder, resource))) (resource ::ₘ rs) cs where
  nidle_eq := h.nidle_eq
  ntotal_eq := by
    have hlen := List.length_erase_add_one hheld
    show p.list.ntotal
      = p.list.nidle + (p.held.erase (holder, resource)).length + (resource ::ₘ rs).card
    rw [h.ntotal_eq, ← hlen, Multiset.card_cons]
    push_cast
    ring
  ntotal_le := h.ntotal_le
  resources := by
    have hmoved : resource ::ₘ rs
        + (p.withHeld (p.held.erase (holder, resource))).resources = rs + p.resources := by
      have hperm := (List.perm_cons_erase hheld).map Prod.snd
      simp only [Pool.resources, withHeld]
      rw [Multiset.coe_eq_coe.mpr hperm, List.map_cons, ← Multiset.cons_coe]
      simp only [Multiset.cons_add, Multiset.add_cons]
    rw [hmoved]
    exact h.resources
  containers := h.containers
  sorted := h.sorted
  recent := h.recent

/-- A container without a resource goes to the ring. -/
theorem Sound.freeContainer {c : ℕ} (h : Sound w p rs (c ::ₘ cs)) :
    Sound w (p.freeContainer c) rs cs where
  nidle_eq := h.nidle_eq
  ntotal_eq := h.ntotal_eq
  ntotal_le := h.ntotal_le
  resources := h.resources
  containers := by
    have hmoved : cs + (p.freeContainer c).containers = c ::ₘ cs + p.containers := by
      simp only [Pool.containers, Pool.freeContainer, ← Multiset.coe_add, Multiset.coe_singleton,
        ← Multiset.singleton_add]
      abel
    rw [hmoved]
    exact h.containers
  sorted := h.sorted
  recent := h.recent

theorem Sound.dropContainer {c : ℕ} (h : Sound w p rs (c ::ₘ cs)) : Sound w p rs cs :=
  { h with containers := Names.of_cons (by rw [← Multiset.cons_add]; exact h.containers) }

theorem Sound.getContainer (h : Sound w p rs cs) :
    Sound w p.getContainer.2 rs (p.getContainer.1 ::ₘ cs) := by
  have hcon := h.containers
  unfold Pool.getContainer
  cases hfree : p.list.freeList with
  | nil =>
      refine { h with containers := ?_ }
      rw [Multiset.cons_add]
      exact hcon.cons
  | cons c rest =>
      refine { h with containers := ?_ }
      simp only [Pool.containers] at hcon ⊢
      rw [hfree, ← Multiset.cons_coe, Multiset.add_cons, Multiset.add_cons] at hcon
      rw [Multiset.cons_add]
      exact hcon

/-- The clock does not run backwards, so the resource pushed last is the newest. -/
theorem Sound.pushResource {res : Res}
    (h : Sound w p (res.resource ::ₘ rs) (res.container ::ₘ cs)) :
    Sound w (Pool.pushResource w p res) rs cs where
  nidle_eq := by
    show p.list.nidle + 1 = (_ :: p.list.availList).length
    rw [h.nidle_eq, List.length_cons]
    push_cast
    ring
  ntotal_eq := by
    have htotal := h.ntotal_eq
    rw [Multiset.card_cons] at htotal
    show p.list.ntotal = p.list.nidle + 1 + p.held.length + rs.card
    rw [htotal]
    push_cast
    ring
  ntotal_le := h.ntotal_le
  resources := by
    have hmoved : rs + (Pool.pushResource w p res).resources
        = res.resource ::ₘ rs + p.resources := by
      simp only [Pool.resources, Pool.pushResource, timeNow, List.map_cons, ← Multiset.cons_coe,
        Multiset.cons_add, Multiset.add_cons]
    rw [hmoved]
    exact h.resources
  containers := by
    have hmoved : cs + (Pool.pushResource w p res).containers
        = res.container ::ₘ cs + p.containers := by
      simp only [Pool.containers, Pool.pushResource, timeNow, List.map_cons,
        ← Multiset.cons_coe, Multiset.cons_add, Multiset.add_cons]
    rw [hmoved]
    exact h.containers
  sorted := List.pairwise_cons.mpr ⟨h.recent, h.sorted⟩
  recent := by
    have hlater := w.clock_mono (Nat.le_succ p.readings)
    intro r hr
    obtain rfl | hr := List.mem_cons.mp hr
    · exact hlater
    · exact (h.recent r hr).trans hlater

/-- The clock is read. -/
theorem Sound.timeNow (h : Sound w p rs cs) : Sound w (Pool.timeNow w p).2 rs cs :=
  { h with recent := fun r hr => (h.recent r hr).trans (w.clock_mono (Nat.le_succ _)) }

/-- A constructor that fails leaves a container behind; one that does not, a resource as
well, and there is room for it in the count. -/
theorem Sound.createResource (h : Sound w p rs cs) {rv : ℤ} {res : Res} {p' : Pool τ}
    (hc : Pool.createResource w p = (rv, res, p')) :
    Sound w p' rs (res.container ::ₘ cs) ∧ Kept p p'
      ∧ p'.list.ntotal = p.list.ntotal ∧ p'.list.nidle = p.list.nidle
      ∧ (p.list.ntotal < p.list.hmax →
        Sound w (p'.countTotal 1) (res.resource ::ₘ rs) (res.container ::ₘ cs)) := by
  have hs := h.getContainer
  have hk : Kept p p.getContainer.2 ∧ p.getContainer.2.list.ntotal = p.list.ntotal
      ∧ p.getContainer.2.list.nidle = p.list.nidle := by
    unfold Pool.getContainer
    cases p.list.freeList <;> exact ⟨Kept.of_eq rfl rfl rfl rfl rfl, rfl, rfl⟩
  obtain ⟨hkept, htotal, hidle⟩ := hk
  simp only [Pool.createResource, Prod.mk.injEq] at hc
  obtain ⟨-, rfl, rfl⟩ := hc
  refine ⟨{ hs with resources := hs.resources.mono (Nat.le_succ _) },
    hkept.trans (Kept.of_eq rfl rfl rfl rfl rfl), htotal, hidle,
    fun hlt => { hs with ntotal_eq := ?_, ntotal_le := ?_, resources := ?_ }⟩
  · have heq := hs.ntotal_eq
    show p.getContainer.2.list.ntotal + 1
      = p.getContainer.2.list.nidle + p.getContainer.2.held.length
        + (p.getContainer.2.made ::ₘ rs).card
    rw [heq, Multiset.card_cons]
    push_cast
    ring
  · show p.getContainer.2.list.ntotal + 1 ≤ p.getContainer.2.list.hmax
    rw [htotal, congrArg Limits.hmax hkept.limits]
    omega
  · show Names (p.getContainer.2.made + 1)
      (p.getContainer.2.made ::ₘ rs + p.getContainer.2.resources)
    rw [Multiset.cons_add]
    exact hs.resources.cons

theorem Sound.finish (h : Sound w p rs cs) (t : τ) (rv : ℤ) : Sound w (p.finish t rv) rs cs :=
  { h with }

theorem Sound.signal (h : Sound w p rs cs) (pick : ℕ) : Sound w (p.signal pick) rs cs := by
  unfold Pool.signal
  split
  · exact h
  · exact { h with }

/-- A signal with someone waiting takes one thread from the wait. -/
theorem signal_spec (p : Pool τ) (pick : ℕ) :
    p.blocked = [] ∧ p.signal pick = p
      ∨ p.blocked.length = (p.signal pick).blocked.length + 1
        ∧ (p.signal pick).woken.length = p.woken.length + 1 := by
  unfold Pool.signal
  rcases Nat.eq_zero_or_pos p.blocked.length with hlen | hlen
  · rw [List.length_eq_zero_iff] at hlen
    left
    rw [hlen]
    exact ⟨rfl, rfl⟩
  · right
    have hlt := Nat.mod_lt pick hlen
    rw [List.getElem?_eq_getElem hlt]
    show p.blocked.length = (p.blocked.eraseIdx _).length + 1 ∧ (p.woken ++ [_]).length = _
    rw [List.length_eraseIdx_of_lt hlt, List.length_append, List.length_singleton]
    omega

theorem signal_ntotal (p : Pool τ) (pick : ℕ) : (p.signal pick).list.ntotal = p.list.ntotal := by
  unfold Pool.signal
  split <;> rfl

theorem Kept.signal (p : Pool τ) (pick : ℕ) : Kept p (p.signal pick) := by
  unfold Pool.signal
  split
  · exact Kept.of_eq rfl rfl rfl rfl rfl
  · refine ⟨rfl, rfl, rfl, fun x hx => List.mem_of_mem_eraseIdx hx, List.prefix_append _ _, ?_⟩
    intro x hx
    rw [List.mem_append, List.mem_singleton] at hx
    obtain hx | rfl := hx
    · exact Or.inl hx
    · exact Or.inr rfl

/-! ### The loops -/

/-- The counters are not negative, and the idle ones no more than all. -/
theorem Sound.count_nonneg (h : Sound w p rs cs) :
    0 ≤ p.list.nidle ∧ p.list.nidle ≤ p.list.ntotal := by
  have hidle := h.nidle_eq
  have htotal := h.ntotal_eq
  omega

/-- The first loop of `reslist_maint` runs out, at `hmax` at the latest. -/
theorem maintCreate_spec (pick : ℕ → ℕ) {fuel : ℕ} (createdOne : ℕ) (h : Sound w p 0 0)
    (hfuel : (p.list.hmax - p.list.ntotal).toNat < fuel) :
    ∃ r p', maintCreate w pick fuel p createdOne = some (r, p') ∧ Sound w p' 0 0 ∧ Kept p p' := by
  induction fuel generalizing p createdOne with
  | zero => exact absurd hfuel (Nat.not_lt_zero _)
  | succ fuel ih =>
      rw [maintCreate]
      split
      · rename_i hroom
        obtain ⟨rv, res, p₁, hc⟩ : ∃ rv res p₁, createResource w p = (rv, res, p₁) :=
          ⟨_, _, _, rfl⟩
        obtain ⟨hs, hk, htotal, -, hroomy⟩ := h.createResource hc
        rw [hc]
        simp only
        split
        · exact ⟨_, p₁, rfl, hs.dropContainer, hk⟩
        · have hk₁ : Kept p ((Pool.pushResource w p₁ res).countTotal 1) :=
            hk.trans (Kept.of_eq rfl rfl rfl rfl rfl)
          have hk₂ := hk₁.trans (Kept.signal _ (pick createdOne))
          have hcount := signal_ntotal ((Pool.pushResource w p₁ res).countTotal 1)
            (pick createdOne)
          have hcount₁ : ((Pool.pushResource w p₁ res).countTotal 1).list.ntotal
              = p.list.ntotal + 1 := congrArg (· + 1) htotal
          obtain ⟨r, p', heq, hs', hk'⟩ := ih (createdOne + 1)
            ((hroomy hroom.2).pushResource.signal (pick createdOne)) (by
              show ((signal ((Pool.pushResource w p₁ res).countTotal 1)
                (pick createdOne)).list.hmax
                - (signal ((Pool.pushResource w p₁ res).countTotal 1)
                  (pick createdOne)).list.ntotal).toNat < fuel
              rw [hcount, hcount₁, congrArg Limits.hmax hk₂.limits]
              omega)
          exact ⟨r, p', heq, hs', hk₂.trans hk'⟩
      · exact ⟨_, p, rfl, h, Kept.of_eq rfl rfl rfl rfl rfl⟩

/-- No idle resource is older than the last one. -/
theorem Sound.last_oldest (h : Sound w p rs cs) {last : Res}
    (hlast : p.list.availList.getLast? = some last) :
    ∀ res ∈ p.list.availList, last.freed ≤ res.freed := by
  obtain ⟨front, heq⟩ := List.getLast?_eq_some_iff.mp hlast
  have hsorted := h.sorted
  rw [heq, List.pairwise_append] at hsorted
  intro res hres
  rw [heq, List.mem_append, List.mem_singleton] at hres
  obtain hres | rfl := hres
  · exact hsorted.2.2 res hres last (List.mem_singleton_self _)
  · exact le_rfl

/-- The second loop of `reslist_maint` runs out.  Without an error it leaves no more than
`smax` resources, or none that is expired: the one it stops at is the oldest. -/
theorem maintExpire_spec (now : ℤ) {fuel : ℕ} (h : Sound w p 0 0)
    (hfuel : p.list.availList.length < fuel) :
    ∃ rv p', maintExpire w now fuel p = some (rv, p') ∧ Sound w p' 0 0 ∧ Kept p p'
      ∧ (rv = 0 → p'.list.nidle ≤ p'.list.smax
        ∨ ∀ res ∈ p'.list.availList, now - res.freed < p'.list.ttl) := by
  induction fuel generalizing p with
  | zero => exact absurd hfuel (Nat.not_lt_zero _)
  | succ fuel ih =>
      rw [maintExpire]
      split
      · rename_i hover
        cases hlast : p.list.availList.getLast? with
        | none =>
            rw [List.getLast?_eq_none_iff] at hlast
            have hidle := h.nidle_eq
            rw [hlast, List.length_nil] at hidle
            omega
        | some res =>
            simp only
            split
            · rename_i hyoung
              refine ⟨0, p, rfl, h, Kept.of_eq rfl rfl rfl rfl rfl, fun _ => Or.inr ?_⟩
              intro r hr
              have hold := h.last_oldest hlast r hr
              omega
            · obtain ⟨front, heq⟩ := List.getLast?_eq_some_iff.mp hlast
              have hdrop : p.list.availList.dropLast = front := by
                rw [heq, List.dropLast_concat]
              have hsub : front.Sublist p.list.availList := by
                rw [heq]
                exact List.sublist_append_left _ _
              have hperm : p.list.availList.Perm (res :: front) := by
                rw [heq]
                exact List.perm_append_singleton res front
              have hs := ((h.withIdle hperm hsub).destroyResource).freeContainer
              have hlen : p.list.availList.length = front.length + 1 := by
                rw [heq, List.length_append, List.length_singleton]
              rw [hdrop]
              split
              · rename_i hfailed
                exact ⟨_, _, rfl, hs, Kept.of_eq rfl rfl rfl rfl rfl,
                  fun hzero => absurd hzero hfailed⟩
              · have hk₁ : Kept p ((Pool.destroyResource w ((p.withIdle front).countTotal (-1))
                    res).2.freeContainer res.container) := Kept.of_eq rfl rfl rfl rfl rfl
                obtain ⟨rv, p', hrun, hs', hk', hdone⟩ := ih hs (by
                  show front.length < fuel
                  omega)
                exact ⟨rv, p', hrun, hs', hk₁.trans hk', hdone⟩
      · rename_i hunder
        refine ⟨0, p, rfl, h, Kept.of_eq rfl rfl rfl rfl rfl, fun _ => Or.inl ?_⟩
        have hmin := p.list.min_nonneg
        have hsmax := p.list.min_le
        omega

/-- `reslist_maint` returns, and leaves nothing in flight. -/
theorem reslistMaint_spec (pick : ℕ → ℕ) (h : Sound w p 0 0) :
    ∃ rv p', reslistMaint w pick p = some (rv, p') ∧ Sound w p' 0 0 ∧ Kept p p' := by
  obtain ⟨r, p₁, hcreate, hs, hk⟩ :=
    maintCreate_spec pick 0 h (Nat.lt_succ_self _)
  rw [reslistMaint, hcreate]
  cases r with
  | error rv => exact ⟨rv, p₁, rfl, hs, hk⟩
  | ok createdOne =>
      simp only
      split
      · exact ⟨0, p₁, rfl, hs, hk⟩
      · obtain ⟨rv, p', hexpire, hs', hk', -⟩ :=
          maintExpire_spec (w.clock p₁.readings) hs.timeNow (Nat.lt_succ_self _)
        have hk₁ : Kept p (Pool.timeNow w p₁).2 := hk.trans (Kept.of_eq rfl rfl rfl rfl rfl)
        exact ⟨rv, p', hexpire, hs', hk₁.trans hk'⟩

/-- The first loop of `reslist_acquire` runs out. -/
theorem acquireIdle_spec (now : ℤ) {fuel : ℕ} (h : Sound w p 0 0)
    (hfuel : p.list.availList.length < fuel) :
    ∃ r p', acquireIdle w now fuel p = some (r, p') ∧ Kept p p'
      ∧ match r with
        | .got res => Sound w p' {res.resource} {res.container}
        | _ => Sound w p' 0 0 := by
  induction fuel generalizing p with
  | zero => exact absurd hfuel (Nat.not_lt_zero _)
  | succ fuel ih =>
      rw [acquireIdle]
      split
      · rename_i hpos
        obtain ⟨res, p₁, hpop, hs, hk, hlen⟩ := h.popResource hpos
        rw [hpop]
        simp only
        split
        · have hs' := hs.destroyResource.freeContainer
          have hk' : Kept p ((Pool.destroyResource w (p₁.countTotal (-1)) res).2.freeContainer
              res.container) := hk.trans (Kept.of_eq rfl rfl rfl rfl rfl)
          split
          · exact ⟨_, _, rfl, hk', hs'⟩
          · obtain ⟨r, p', hrun, hk'', hr⟩ := ih hs' (by
              show p₁.list.availList.length < fuel
              omega)
            exact ⟨r, p', hrun, hk'.trans hk'', hr⟩
        · exact ⟨_, _, rfl, hk, hs⟩
      · exact ⟨_, p, rfl, Kept.of_eq rfl rfl rfl rfl rfl, h⟩

/-- The loop of `reslist_cleanup` ends with no idle resource. -/
theorem cleanupLoop_spec {fuel : ℕ} (rv : ℤ) (h : Sound w p 0 0)
    (hfuel : p.list.availList.length < fuel) :
    ∃ rv' p', cleanupLoop w fuel rv p = some (rv', p') ∧ Sound w p' 0 0 ∧ p'.list.nidle = 0
      ∧ p'.held = p.held := by
  induction fuel generalizing p rv with
  | zero => exact absurd hfuel (Nat.not_lt_zero _)
  | succ fuel ih =>
      rw [cleanupLoop]
      split
      · rename_i hpos
        obtain ⟨res, p₁, hpop, hs, hk, hlen⟩ := h.popResource hpos
        rw [hpop]
        obtain ⟨rv', p', hrun, hs', hzero, hheld⟩ :=
          ih (if (Pool.destroyResource w (p₁.countTotal (-1)) res).1 ≠ 0
            then (Pool.destroyResource w (p₁.countTotal (-1)) res).1 else rv)
            hs.destroyResource.freeContainer (by
              show p₁.list.availList.length < fuel
              omega)
        exact ⟨rv', p', hrun, hs', hzero, hheld.trans hk.held⟩
      · have hnonneg := h.count_nonneg
        exact ⟨rv, p, rfl, h, by omega, rfl⟩

/-- The assertions of `reslist_cleanup` hold exactly when no client holds a resource. -/
theorem reslistCleanup_isSome_iff (h : Sound w p 0 0) :
    (reslistCleanup w p).isSome ↔ p.held = [] := by
  obtain ⟨rv, p', hrun, hs, hzero, hheld⟩ := cleanupLoop_spec 0 h (Nat.lt_succ_self _)
  have htotal := hs.ntotal_eq
  rw [hheld, hzero, Multiset.card_zero] at htotal
  rw [reslistCleanup, hrun, ← List.length_eq_zero_iff]
  simp only [hzero, true_and]
  split
  · rename_i hnone
    simp only [Option.isSome_some, true_iff]
    omega
  · rename_i hsome
    simp only [Option.isSome_none, Bool.false_eq_true, false_iff]
    omega

/-! ### The calls -/

/-- An empty list is sound. -/
theorem empty_sound (limits : Limits) : Sound w (empty limits : Pool τ) 0 0 where
  nidle_eq := rfl
  ntotal_eq := rfl
  ntotal_le := limits.hmax_pos.le
  resources := ⟨Multiset.nodup_zero, fun _ h => absurd h (Multiset.notMem_zero _)⟩
  containers := ⟨Multiset.nodup_zero, fun _ h => absurd h (Multiset.notMem_zero _)⟩
  sorted := List.Pairwise.nil
  recent := fun _ h => absurd h List.not_mem_nil

/-- `reslist_create` returns, and the pool it returns is sound, idle and without threads. -/
theorem reslistCreate_spec (min smax hmax ttl : ℤ) :
    ∃ r : Except ℤ (Pool τ), reslistCreate w min smax hmax ttl = some r
      ∧ ∀ p, r = .ok p → Sound w p 0 0 ∧ p.list.hmax = hmax ∧ p.list.ttl = ttl
        ∧ p.list.timeout = 0 ∧ p.blocked = [] ∧ ∀ x ∈ p.woken, x.2 = false := by
  unfold reslistCreate
  split
  · exact ⟨_, rfl, fun p hp => by cases hp⟩
  · rename_i h
    obtain ⟨rv, p', hmaint, hs, hk⟩ := reslistMaint_spec (fun _ => 0)
      (empty_sound (w := w) (τ := τ)
        ⟨min, smax, hmax, ttl, by omega, by omega, by omega, by omega, by omega⟩)
    dsimp only
    rw [hmaint]
    dsimp only
    split
    · have hclean := (reslistCleanup_isSome_iff hs).mpr hk.held
      obtain ⟨r, hr⟩ := Option.isSome_iff_exists.mp hclean
      rw [hr]
      exact ⟨_, rfl, fun p hp => by cases hp⟩
    · refine ⟨_, rfl, fun p hp => ?_⟩
      cases hp
      exact ⟨hs, congrArg Limits.hmax hk.limits, congrArg Limits.ttl hk.limits, hk.timeout,
        List.eq_nil_iff_forall_not_mem.mpr fun x hx => List.not_mem_nil (hk.blocked x hx),
        fun x hx => (hk.wokenUp x hx).resolve_left List.not_mem_nil⟩

/-- Past the wait the call returns with a resource, unless its constructor fails. -/
theorem acquireRest_spec (h : Sound w p 0 0) (t : τ)
    (hroom : ¬(p.list.ntotal ≥ p.list.hmax ∧ p.list.nidle ≤ 0)) :
    ∃ p', acquireRest w p t = some p' ∧ Sound w p' 0 0
      ∧ p'.list.toLimits = p.list.toLimits ∧ p'.list.timeout = p.list.timeout
      ∧ p'.blocked = p.blocked ∧ p'.woken = p.woken
      ∧ (p'.held.length = p.held.length + 1
        ∨ p'.held = p.held ∧ p.list.nidle ≤ 0 ∧ w.constructor p.made ≠ 0) := by
  unfold acquireRest
  split
  · rename_i hpos
    -- `pop_resource` touches nothing but the ring
    cases havail : p.list.availList with
    | nil =>
        have hidle := h.nidle_eq
        rw [havail, List.length_nil] at hidle
        omega
    | cons res rest =>
        have hpop : p.popResource = some (res, p.withIdle rest) := by
          rw [Pool.popResource, havail]
          rfl
        have hs : Sound w (p.withIdle rest) (res.resource ::ₘ 0) (res.container ::ₘ 0) :=
          h.withIdle (by rw [havail]) (by rw [havail]; exact List.sublist_cons_self res rest)
        rw [hpop]
        refine ⟨_, rfl, (hs.hand t).freeContainer.finish t 0, rfl, rfl, rfl, rfl, Or.inl ?_⟩
        exact List.length_append
  · rename_i hempty
    obtain ⟨rv, res, p₁, hc⟩ : ∃ rv res p₁, createResource w p = (rv, res, p₁) :=
      ⟨_, _, _, rfl⟩
    have hrv : rv = w.constructor p.made := by
      have hmade : p.getContainer.2.made = p.made := by
        unfold Pool.getContainer
        split <;> rfl
      rw [← hmade]
      exact (congrArg Prod.fst hc).symm
    have hsame : p₁.held = p.held ∧ p₁.blocked = p.blocked ∧ p₁.woken = p.woken
        ∧ p₁.list.timeout = p.list.timeout := by
      have hp₁ := (congrArg (fun x => x.2.2) hc).symm
      simp only [Pool.createResource, Pool.getContainer] at hp₁
      rw [hp₁]
      cases p.list.freeList <;> exact ⟨rfl, rfl, rfl, rfl⟩
    obtain ⟨hheld, hblocked, hwoken, htimeout⟩ := hsame
    obtain ⟨hs, hk, -, -, hroomy⟩ := h.createResource hc
    rw [hc]
    simp only
    split
    · have hs₁ := ((hroomy (by omega)).hand t).freeContainer
      refine ⟨_, rfl, hs₁.finish t rv, hk.limits, htimeout, hblocked, hwoken, Or.inl ?_⟩
      show (p₁.held ++ [(t, res.resource)]).length = p.held.length + 1
      rw [hheld, List.length_append, List.length_singleton]
    · rename_i hfailed
      refine ⟨_, rfl, hs.freeContainer.finish t rv, hk.limits, htimeout, hblocked, hwoken,
        Or.inr ?_⟩
      exact ⟨hheld, not_lt.mp hempty, by rwa [← hrv]⟩

/-- A thread that finds the pool exhausted waits; any other goes on. -/
theorem acquireWait_spec (h : Sound w p 0 0) (t : τ) :
    ∃ p', acquireWait w p t = some p' ∧ Sound w p' 0 0
      ∧ p'.list.toLimits = p.list.toLimits ∧ p'.list.timeout = p.list.timeout
      ∧ p'.woken = p.woken
      ∧ (p.list.ntotal ≥ p.list.hmax ∧ p.list.nidle ≤ 0 ∧ p'.held = p.held
          ∧ p'.blocked = p.blocked ++ [(t, decide (p.list.timeout ≠ 0))]
        ∨ p'.blocked = p.blocked ∧ (p'.held.length = p.held.length + 1
          ∨ p'.held = p.held ∧ p.list.nidle ≤ 0 ∧ p.list.ntotal < p.list.hmax
            ∧ w.constructor p.made ≠ 0)) := by
  unfold acquireWait
  split
  · rename_i hfull
    exact ⟨_, rfl, { h with }, rfl, rfl, rfl, Or.inl ⟨hfull.1, hfull.2, rfl, rfl⟩⟩
  · rename_i hroom
    obtain ⟨p', hrest, hs, hlimits, htimeout, hblocked, hwoken, hend⟩ := acquireRest_spec h t hroom
    refine ⟨p', hrest, hs, hlimits, htimeout, hwoken, Or.inr ⟨hblocked, ?_⟩⟩
    obtain hgot | ⟨hheld, hidle, hfailed⟩ := hend
    · exact Or.inl hgot
    · exact Or.inr ⟨hheld, hidle, by omega, hfailed⟩

/-- In a sound pool no two places name the same resource. -/
theorem Sound.apart (h : Sound w p 0 0) :
    (p.list.availList.map Res.resource ++ p.held.map Prod.snd ++ p.destroyed).Nodup := by
  have hnodup := h.resources.1
  rw [zero_add, Pool.resources, Multiset.coe_add, Multiset.coe_add, Multiset.coe_nodup] at hnodup
  exact hnodup

variable [DecidableEq τ]

/-- The pool before the signal of `reslist_release` and of `reslist_invalidate`: `holder` no
longer has the resource. -/
structure GivenBack (p p' : Pool τ) (holder : τ) (resource : ℕ) : Prop where
  limits : p'.list.toLimits = p.list.toLimits
  timeout : p'.list.timeout = p.list.timeout
  held : p'.held = p.held.erase (holder, resource)
  blocked : p'.blocked = p.blocked
  woken : p'.woken = p.woken

/-- `reslist_release` takes the resource back, then maintains the list. -/
theorem reslistRelease_spec (h : Sound w p 0 0) (t : τ) {holder : τ} {resource : ℕ}
    (hheld : (holder, resource) ∈ p.held) (pick : ℕ) :
    ∃ p' leaving, reslistRelease w p t holder resource pick
        = { p'.signal pick with leaving := leaving }
      ∧ Sound w p' 0 0 ∧ GivenBack p p' holder resource := by
  have hback := h.takeBack hheld
  refine ⟨pushResource w (p.withHeld (p.held.erase (holder, resource))).getContainer.2
    ⟨(p.withHeld (p.held.erase (holder, resource))).getContainer.1, 0, resource⟩, _, rfl,
    Sound.pushResource hback.getContainer, ?_⟩
  unfold Pool.getContainer
  split <;> exact ⟨rfl, rfl, rfl, rfl, rfl⟩

/-- `reslist_invalidate` destroys the resource, then maintains the list. -/
theorem reslistInvalidate_spec (h : Sound w p 0 0) (t : τ) {holder : τ} {resource : ℕ}
    (hheld : (holder, resource) ∈ p.held) (pick : ℕ) :
    ∃ p' rv, reslistInvalidate w p t holder resource pick = (p'.signal pick).finish t rv
      ∧ Sound w p' 0 0 ∧ GivenBack p p' holder resource :=
  ⟨_, _, rfl, @Sound.destroyResource τ w _ 0 0 ⟨0, 0, resource⟩ (h.takeBack hheld),
    ⟨rfl, rfl, rfl, rfl, rfl⟩⟩

/-- **Every enabled move goes through and leaves a sound pool.** -/
theorem Sound.perform (h : Sound w p 0 0) {a : Act τ} (ha : p.Enabled a) :
    ∃ p', Pool.perform w p a = some p' ∧ Sound w p' 0 0
      ∧ p'.list.toLimits = p.list.toLimits := by
  cases a with
  | acquire t =>
      obtain ⟨r, p₁, hloop, hk, hr⟩ :=
        acquireIdle_spec (w.clock p.readings) h.timeNow (Nat.lt_succ_self _)
      rw [Pool.perform, reslistAcquire]
      dsimp only [Pool.timeNow] at hloop ⊢
      rw [hloop]
      cases r with
      | got res =>
          have hs : Sound w p₁ (res.resource ::ₘ 0) (res.container ::ₘ 0) := hr
          exact ⟨_, rfl, (hs.hand t).freeContainer.finish t 0, hk.limits⟩
      | failed rv => exact ⟨_, rfl, Sound.finish hr t rv, hk.limits⟩
      | noneLeft =>
          obtain ⟨p', hwait, hs, hlimits, -⟩ := acquireWait_spec hr t
          exact ⟨p', hwait, hs, hlimits.trans hk.limits⟩
  | wakeSpuriously t timed => exact ⟨_, rfl, { h with }, rfl⟩
  | timeUp t => exact ⟨_, rfl, { h with }, rfl⟩
  | relock t timeUp =>
      have hs : Sound w { p with woken := p.woken.erase (t, timeUp) } 0 0 := { h with }
      rw [Pool.perform, relock]
      split
      · exact ⟨_, rfl, hs.finish t condEtimeup, rfl⟩
      · obtain ⟨p', hwait, hs', hlimits, -⟩ := acquireWait_spec hs t
        exact ⟨p', hwait, hs', hlimits⟩
  | release t holder resource pick =>
      obtain ⟨p₁, leaving, heq, hs, hback⟩ := reslistRelease_spec h t ha.2 pick
      rw [Pool.perform, heq]
      exact ⟨_, rfl, { hs.signal pick with }, (Kept.signal p₁ pick).limits.trans hback.limits⟩
  | maint t pick =>
      have hs : Sound w { p with leaving := p.leaving.erase t } 0 0 := { h with }
      obtain ⟨rv, p', hmaint, hs', hk⟩ := reslistMaint_spec pick hs
      refine ⟨_, ?_, hs'.finish t rv, hk.limits⟩
      rw [Pool.perform, releaseMaint, hmaint]
      rfl
  | invalidate t holder resource pick =>
      obtain ⟨p₁, rv, heq, hs, hback⟩ := reslistInvalidate_spec h t ha.2 pick
      rw [Pool.perform, heq]
      exact ⟨_, rfl, (hs.signal pick).finish t rv,
        (Kept.signal p₁ pick).limits.trans hback.limits⟩
  | timeoutSet timeout => exact ⟨_, rfl, { h with }, rfl⟩

/-- Every step keeps the list sound and its limits. -/
theorem Sound.step (h : Sound w p 0 0) {a : Act τ} {p' : Pool τ} (hs : step w p a = some p') :
    Sound w p' 0 0 ∧ p'.list.toLimits = p.list.toLimits := by
  unfold Pool.step at hs
  split at hs
  · rename_i ha
    obtain ⟨p'', hperform, hsound⟩ := h.perform ha
    rw [hperform, Option.some.injEq] at hs
    exact hs ▸ hsound
  · exact absurd hs (by simp)

/-- What holds of a fresh pool holds after every run. -/
theorem Sound.reach {p₀ : Pool τ} (h₀ : Sound w p₀ 0 0) {ok : Pool τ → Act τ → Prop}
    (h : Reach (Pool.step w) ok p₀ p) :
    Sound w p 0 0 ∧ p.list.toLimits = p₀.list.toLimits := by
  refine h.invariant (fun p => Sound w p 0 0 ∧ p.list.toLimits = p₀.list.toLimits) ⟨h₀, rfl⟩ ?_
  intro p₁ a p₂ hs _ hstep
  obtain ⟨hs₂, hlimits⟩ := hs.1.step hstep
  exact ⟨hs₂, hlimits.trans hs.2⟩

end Operations

/-! ## The accounts of the pool -/

/-- A clock that stands still, and callbacks that always succeed. -/
def steadyWorld : ResWorld := ⟨fun _ => 0, fun _ _ _ => le_rfl, fun _ => 0, fun _ => 0⟩

/-- A pool is created and a schedule runs. -/
def created [DecidableEq τ] (w : ResWorld) (ok : Pool τ → Act τ → Prop)
    [∀ p a, Decidable (ok p a)] (min smax hmax ttl : ℤ) (sched : List (Act τ)) :
    Option (Pool τ) :=
  match reslistCreate w min smax hmax ttl with
  | some (.ok p₀) => run (Pool.step w) ok p₀ sched
  | _ => none

theorem created_reach [DecidableEq τ] {w : ResWorld} {ok : Pool τ → Act τ → Prop}
    [∀ p a, Decidable (ok p a)] {min smax hmax ttl : ℤ} {sched : List (Act τ)} {p : Pool τ}
    (h : created w ok min smax hmax ttl sched = some p) :
    ∃ p₀, reslistCreate w min smax hmax ttl = some (.ok p₀) ∧ Reach (Pool.step w) ok p₀ p := by
  unfold created at h
  split at h
  · rename_i p₀ h₀
    exact ⟨p₀, h₀, Reach.refl.run sched h⟩
  · exact absurd h (by simp)

end Pool

end Zevent.Znet

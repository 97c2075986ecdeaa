/-
# The waiters of the resource pool

A thread that finds the pool exhausted waits in `reslist_acquire`, and every resource that is
given back or thrown away is announced by one signal.  The question is whether the signals
suffice: whether a thread can stay in the wait, with nobody left inside who could wake it,
while there is a resource or a free slot for it.

The invariant is a count.  `hmax` less the acquired resources are the chances a waiter can
take, an idle resource or a slot for a new one; while somebody waits, there are no more
chances than threads on their way out of the wait.  Only one section breaks it: a woken thread
whose constructor fails gives up its chance and returns without another signal.

`no_waiter_stranded` says that the signals suffice where that does not happen, and
`waiter_stranded` is a run where it does.
-/
import Zevent.Znet.Reslist

namespace Zevent.Znet

open Interleaving

namespace Pool

variable {τ : Type} {w : ResWorld} {p p' : Pool τ}

/-- Every thread is outside or waits, some thread waits, and there is a resource or a slot
for it. -/
def Stranded (p : Pool τ) : Prop :=
  p.woken = [] ∧ p.leaving = [] ∧ p.blocked ≠ []
    ∧ (p.list.nidle > 0 ∨ p.list.ntotal < p.list.hmax)

/-- No timeout is set. -/
def Untimed : Act τ → Prop
  | .timeoutSet timeout => timeout = 0
  | _ => True

/-- A woken thread is about to lose its chance, `reslist_acquire` past the wait with a
constructor that fails: then nobody waits, or the other woken threads suffice. -/
def FailureCovered (w : ResWorld) (p : Pool τ) : Act τ → Prop
  | .relock _ _ =>
      p.list.nidle ≤ 0 ∧ p.list.ntotal < p.list.hmax ∧ w.constructor p.made ≠ 0 →
        p.blocked.length = 0 ∨ p.list.hmax - p.held.length ≤ (p.woken.length : ℤ) - 1
  | _ => True

instance (a : Act τ) : Decidable (Untimed a) :=
  match a with
  | .timeoutSet timeout => inferInstanceAs (Decidable (timeout = 0))
  | .acquire _ | .wakeSpuriously _ _ | .timeUp _ | .relock _ _ | .release _ _ _ _ | .maint _ _
  | .invalidate _ _ _ _ => inferInstanceAs (Decidable True)

instance (w : ResWorld) (p : Pool τ) (a : Act τ) : Decidable (FailureCovered w p a) :=
  match a with
  | .relock _ _ => inferInstanceAs (Decidable (_ ∧ _ ∧ _ → _ ∨ _))
  | .acquire _ | .wakeSpuriously _ _ | .timeUp _ | .timeoutSet _ | .release _ _ _ _ | .maint _ _
  | .invalidate _ _ _ _ => inferInstanceAs (Decidable True)

/-! ## The invariant -/

/-- While somebody waits, the chances outnumber the threads on their way out by no more than
`lost`. -/
def Announced (lost : ℕ) (p : Pool τ) : Prop :=
  p.blocked = [] ∨ p.list.hmax - p.held.length ≤ p.woken.length + lost

/-- The pool is announced, and no thread waits with a timeout. -/
structure Waiting (lost : ℕ) (p : Pool τ) : Prop where
  timeout : p.list.timeout = 0
  blocked : ∀ x ∈ p.blocked, x.2 = false
  woken : ∀ x ∈ p.woken, x.2 = false
  announced : Announced lost p

/-- A chance is taken or announced: the sum of the acquired resources and the woken threads
does not go down. -/
theorem Announced.of_le {lost lost' : ℕ} (h : Announced lost p)
    (hblocked : p.blocked = [] → p'.blocked = [])
    (hlimits : p'.list.toLimits = p.list.toLimits)
    (hle : p.held.length + p.woken.length + lost
      ≤ p'.held.length + p'.woken.length + lost') :
    Announced lost' p' := by
  obtain h | h := h
  · exact Or.inl (hblocked h)
  · right
    rw [congrArg Limits.hmax hlimits]
    omega

theorem Kept.blocked_nil (h : Kept p p') (hnone : p.blocked = []) : p'.blocked = [] := by
  refine List.eq_nil_iff_forall_not_mem.mpr fun x hx => ?_
  have hx' := h.blocked x hx
  rw [hnone] at hx'
  exact List.not_mem_nil hx'

theorem Waiting.kept {lost : ℕ} (h : Waiting lost p) (hk : Kept p p') : Waiting lost p' where
  timeout := hk.timeout.trans h.timeout
  blocked := fun x hx => h.blocked x (hk.blocked x hx)
  woken := fun x hx => (hk.wokenUp x hx).elim (h.woken x) id
  announced := by
    have hlen := hk.woken.length_le
    apply h.announced.of_le hk.blocked_nil hk.limits
    rw [hk.held]
    omega

/-- The signal of `reslist_release` and `reslist_invalidate` announces what was given back. -/
theorem Waiting.giveBack [DecidableEq τ] (h : Waiting 0 p) {holder : τ} {resource : ℕ}
    (hheld : (holder, resource) ∈ p.held) (hback : GivenBack p p' holder resource) (pick : ℕ) :
    Waiting 0 (p'.signal pick) := by
  have hk := Kept.signal p' pick
  have hlen := List.length_erase_add_one hheld
  -- one chance more until the signal, which wakes somebody if anybody waits
  have hback' : Waiting 1 p' := by
    refine ⟨hback.timeout.trans h.timeout, ?_, ?_, ?_⟩
    · rw [hback.blocked]
      exact h.blocked
    · rw [hback.woken]
      exact h.woken
    · refine h.announced.of_le (fun hnone => hback.blocked.trans hnone) hback.limits ?_
      rw [hback.held, hback.woken]
      omega
  refine ⟨(hback'.kept hk).timeout, (hback'.kept hk).blocked, (hback'.kept hk).woken, ?_⟩
  obtain ⟨hnone, hsame⟩ | ⟨-, hwoken⟩ := signal_spec p' pick
  · rw [hsame]
    exact Or.inl hnone
  · apply hback'.announced.of_le hk.blocked_nil hk.limits
    rw [hk.held, hwoken]
    omega

/-- A thread at the test of the wait takes its chance, or waits because there is none.  Only a
constructor that fails has to be covered. -/
theorem Waiting.acquireWait {lost : ℕ} (h : Waiting lost p) (hlost : lost ≤ 1)
    (hs : Sound w p 0 0) (t : τ)
    (hcovered : p.list.nidle ≤ 0 ∧ p.list.ntotal < p.list.hmax ∧ w.constructor p.made ≠ 0 →
      Announced 0 p)
    (hw : Pool.acquireWait w p t = some p') : Waiting 0 p' := by
  obtain ⟨p'', hrun, -, hlimits, htimeout, hwoken, hend⟩ := acquireWait_spec hs t
  rw [hw, Option.some.injEq] at hrun
  subst hrun
  have htotal := hs.ntotal_eq
  rw [Multiset.card_zero] at htotal
  refine ⟨htimeout.trans h.timeout, ?_, by rw [hwoken]; exact h.woken, ?_⟩
  · obtain ⟨-, -, -, hblocked⟩ | ⟨hblocked, -⟩ := hend
    · intro x hx
      rw [hblocked, List.mem_append, List.mem_singleton] at hx
      obtain hx | rfl := hx
      · exact h.blocked x hx
      · exact decide_eq_false (not_not.mpr h.timeout)
    · rw [hblocked]
      exact h.blocked
  · -- the thread waits, it gets a resource, or its constructor fails
    obtain ⟨hfull, hidle, hheld, -⟩ | ⟨hblocked, hgot | ⟨hheld, hfail⟩⟩ := hend
    · right
      rw [congrArg Limits.hmax hlimits, hheld]
      omega
    · refine h.announced.of_le (fun hnone => hblocked.trans hnone) hlimits ?_
      rw [hgot, hwoken]
      omega
    · refine (hcovered hfail).of_le (fun hnone => hblocked.trans hnone) hlimits ?_
      rw [hheld, hwoken]

/-! ## Runs -/

variable [DecidableEq τ]

/-- A step strands no waiter when its failures are covered. -/
theorem Waiting.step (h : Waiting 0 p) (hs : Sound w p 0 0) {a : Act τ} (hu : Untimed a)
    (hc : FailureCovered w p a) (hstep : Pool.step w p a = some p') : Waiting 0 p' := by
  unfold Pool.step at hstep
  split at hstep
  swap
  · exact absurd hstep (by simp)
  rename_i ha
  cases a with
  | acquire t =>
      have hclock : Kept p (Pool.timeNow w p).2 := Kept.of_eq rfl rfl rfl rfl rfl
      obtain ⟨r, p₁, hloop, hk, hr⟩ :=
        acquireIdle_spec (w.clock p.readings) hs.timeNow (Nat.lt_succ_self _)
      have h₁ := h.kept (hclock.trans hk)
      rw [Pool.perform, reslistAcquire] at hstep
      dsimp only [Pool.timeNow] at hloop hstep
      rw [hloop] at hstep
      cases r with
      | got res =>
          rw [Option.some.injEq] at hstep
          subst hstep
          refine ⟨h₁.timeout, h₁.blocked, h₁.woken, h₁.announced.of_le id rfl ?_⟩
          show _ ≤ (p₁.held ++ [(t, res.resource)]).length + p₁.woken.length + 0
          rw [List.length_append]
          omega
      | failed rv =>
          -- the destructor failed; its slot was idle, so it was a chance before
          rw [Option.some.injEq] at hstep
          subst hstep
          exact ⟨h₁.timeout, h₁.blocked, h₁.woken, h₁.announced⟩
      | noneLeft => exact h₁.acquireWait (Nat.zero_le _) hr t (fun _ => h₁.announced) hstep
  | wakeSpuriously t timed =>
      rw [Pool.perform, Option.some.injEq] at hstep
      subst hstep
      refine ⟨h.timeout, fun x hx => h.blocked x (List.mem_of_mem_erase hx), ?_, ?_⟩
      · intro x hx
        rw [List.mem_append, List.mem_singleton] at hx
        obtain hx | rfl := hx
        · exact h.woken x hx
        · rfl
      · refine h.announced.of_le (fun hnone => ?_) rfl ?_
        · show p.blocked.erase (t, timed) = []
          rw [hnone, List.erase_nil]
        · show _ ≤ p.held.length + (p.woken ++ [(t, false)]).length + 0
          rw [List.length_append]
          omega
  | timeUp t => exact absurd (h.blocked _ ha) (by simp)
  | relock t timeUp =>
      have hfalse : timeUp = false := h.woken _ ha
      subst hfalse
      have hlen := List.length_erase_add_one ha
      -- the chance of this thread is announced by nobody until the thread has taken it
      have h₁ : Waiting 1 { p with woken := p.woken.erase (t, false) } := by
        refine ⟨h.timeout, h.blocked, fun x hx => h.woken x (List.mem_of_mem_erase hx), ?_⟩
        refine h.announced.of_le id rfl ?_
        show _ ≤ p.held.length + (p.woken.erase (t, false)).length + 1
        omega
      refine h₁.acquireWait le_rfl { hs with } t (fun hfail => ?_) hstep
      obtain hnone | hle := hc hfail
      · exact Or.inl (List.length_eq_zero_iff.mp hnone)
      · right
        show p.list.hmax - p.held.length ≤ ((p.woken.erase (t, false)).length : ℤ) + (0 : ℕ)
        omega
  | release t holder resource pick =>
      obtain ⟨p₁, leaving, heq, -, hback⟩ := reslistRelease_spec hs t ha.2 pick
      rw [Pool.perform, heq, Option.some.injEq] at hstep
      subst hstep
      have h₁ := h.giveBack ha.2 hback pick
      exact ⟨h₁.timeout, h₁.blocked, h₁.woken, h₁.announced⟩
  | maint t pick =>
      obtain ⟨rv, p₁, hmaint, -, hk⟩ := reslistMaint_spec (w := w)
        (p := { p with leaving := p.leaving.erase t }) pick { hs with }
      rw [Pool.perform, releaseMaint, hmaint, Option.map_some, Option.some.injEq] at hstep
      subst hstep
      have hleave : Kept p { p with leaving := p.leaving.erase t } :=
        Kept.of_eq rfl rfl rfl rfl rfl
      have h₁ := h.kept (hleave.trans hk)
      exact ⟨h₁.timeout, h₁.blocked, h₁.woken, h₁.announced⟩
  | invalidate t holder resource pick =>
      obtain ⟨p₁, rv, heq, -, hback⟩ := reslistInvalidate_spec hs t ha.2 pick
      rw [Pool.perform, heq, Option.some.injEq] at hstep
      subst hstep
      have h₁ := h.giveBack ha.2 hback pick
      exact ⟨h₁.timeout, h₁.blocked, h₁.woken, h₁.announced⟩
  | timeoutSet timeout =>
      rw [Pool.perform, Option.some.injEq] at hstep
      subst hstep
      exact ⟨hu, h.blocked, h.woken, h.announced⟩

/-- **The signals suffice, failed constructors apart.**  Without timeouts, and where a woken
thread whose constructor fails leaves enough woken threads behind for the chances there are,
no thread is left in the wait with a resource or a slot for it. -/
theorem no_waiter_stranded (w : ResWorld) {min smax hmax ttl : ℤ} {p₀ p : Pool τ}
    (h₀ : reslistCreate w min smax hmax ttl = some (.ok p₀))
    (h : Reach (Pool.step w) (fun p a => Untimed a ∧ FailureCovered w p a) p₀ p) :
    ¬p.Stranded := by
  obtain ⟨r, hr, hcreated⟩ := reslistCreate_spec (w := w) (τ := τ) min smax hmax ttl
  rw [h₀, Option.some.injEq] at hr
  obtain ⟨hs₀, -, -, htimeout, hblocked, hwoken⟩ := hcreated p₀ hr.symm
  have hw₀ : Waiting 0 p₀ :=
    ⟨htimeout, fun x hx => absurd (hblocked ▸ hx) List.not_mem_nil, hwoken, Or.inl hblocked⟩
  have hinv := h.invariant (fun p => Sound w p 0 0 ∧ Waiting 0 p) ⟨hs₀, hw₀⟩
    fun _ _ _ hi hok hstep => ⟨(hi.1.step hstep).1, hi.2.step hi.1 hok.1 hok.2 hstep⟩
  rintro ⟨hnone, -, hsome, hchance⟩
  obtain hblocked | hle := hinv.2.announced
  · exact hsome hblocked
  · have htotal := hinv.1.ntotal_eq
    have hmax := hinv.1.ntotal_le
    have hnonneg := hinv.1.count_nonneg
    rw [hnone, List.length_nil] at hle
    rw [Multiset.card_zero] at htotal
    omega

/-- The clock stands still, and only the constructor call number `k` fails. -/
def failingAt (k : ℕ) : ResWorld :=
  { steadyWorld with constructor := fun n => if n = k then 1 else 0 }

/-- A woken thread whose constructor fails when nobody else waits. -/
theorem no_waiter_stranded_last :
    ∃ p₀ p : Pool ℕ, reslistCreate (failingAt 1) 0 1 1 0 = some (.ok p₀)
      ∧ Reach (Pool.step (failingAt 1))
        (fun p a => Untimed a ∧ FailureCovered (failingAt 1) p a) p₀ p
      ∧ p.returned = [(0, 0), (0, 0), (1, 1)] ∧ ¬p.Stranded := by
  have hrun : (created (failingAt 1)
      (fun p a => Untimed a ∧ FailureCovered (failingAt 1) p a) 0 1 1 0
      [.acquire 0, .acquire 1, .invalidate 0 0 0 0, .relock 1 false]).map
        (fun p : Pool ℕ => p.returned) = some [(0, 0), (0, 0), (1, 1)] := by
    decide
  obtain ⟨p, hp, hobs⟩ := Option.map_eq_some_iff.mp hrun
  obtain ⟨p₀, h₀, hreach⟩ := created_reach hp
  exact ⟨p₀, p, h₀, hreach, hobs, no_waiter_stranded (failingAt 1) h₀ hreach⟩

/-- With one resource allowed and two threads waiting for it, the resource is thrown away, the
thread that is woken cannot make a new one, and the other waits on beside the empty pool. -/
theorem waiter_stranded :
    ∃ p₀ p : Pool ℕ, reslistCreate (failingAt 1) 0 1 1 0 = some (.ok p₀)
      ∧ Reach (Pool.step (failingAt 1)) (fun _ a => Untimed a) p₀ p
      ∧ p.blocked = [(2, false)] ∧ p.list.ntotal = 0 ∧ p.list.hmax = 1 ∧ p.Stranded := by
  have hrun : (created (failingAt 1) (fun _ a => Untimed a) 0 1 1 0
      [.acquire 0, .acquire 1, .acquire 2, .invalidate 0 0 0 0, .relock 1 false]).map
        (fun p : Pool ℕ => (p.blocked, p.woken, p.leaving, p.list.ntotal, p.list.hmax))
      = some ([(2, false)], [], [], 0, 1) := by
    decide
  obtain ⟨p, hp, hobs⟩ := Option.map_eq_some_iff.mp hrun
  obtain ⟨p₀, h₀, hreach⟩ := created_reach hp
  simp only [Prod.mk.injEq] at hobs
  obtain ⟨hblocked, hwoken, hleaving, htotal, hmax⟩ := hobs
  refine ⟨p₀, p, h₀, hreach, hblocked, htotal, hmax, hwoken, hleaving, ?_, Or.inr ?_⟩
  · rw [hblocked]
    exact List.cons_ne_nil _ _
  · rw [htotal, hmax]
    exact zero_lt_one

end Pool

end Zevent.Znet

/-
# The reader-writer lock of Windows (`common/locks/win/thread_rwlock.c`)

The lock is made of a mutex `write_mutex`, a manual-reset event `read_event` and the
counter `readers`.  A reader takes the mutex for as long as it needs to count itself
and to reset the event; a writer keeps the mutex, and when it finds readers it waits for
the event, which the last reader to leave sets.  One step is one call of the operating
system or one access to the counter, and any number of threads take part; a thread that
holds the lock only unlocks it, a thread that does not only asks for it.

Whatever the threads do, at most one of them is a writer, `readers` counts those that
have a read lock, and a waiting writer is not forgotten (`rwlock_accounted`).  That a
writer keeps readers out needs more: the last reader to leave sets the event after it
has decremented the counter, and a reader that comes in between has reset the event
already, so that a writer gets past it (`stale_event_admits_writer`).  In the runs in
which nobody sets the event while a reader is counted, the lock excludes as it should
(`rwlock_excludes`).
-/
import Mathlib.Tactic
import Zevent.Lib.Interleaving

namespace Zevent.Locks

open Interleaving

/-! ## State and steps -/

/-- Where a thread is.  `block` tells `thread_rwlock_rdlock` and `thread_rwlock_wrlock`,
which wait for the mutex, from the `try` calls, which do not. -/
inductive RwPc where
  | out
  | rdMutex (block : Bool)
  | rdCount
  | rdReset
  | rdRelease
  | reading
  | wrMutex (block : Bool)
  | wrTest (block : Bool)
  | wrWait
  | wrGiveUp
  | writing
  | unTest
  | unCount
  | unSet
  deriving DecidableEq

/-- `thread_rwlock_t`, and where the threads are. -/
structure RwLock (τ : Type) where
  writeMutex : Option τ
  readEvent : Bool
  readers : ℤ
  pc : τ → RwPc

/-- The calls, and the next step of a call that is under way. -/
inductive RwAct (τ : Type) where
  | rdlock (t : τ)
  | tryrdlock (t : τ)
  | wrlock (t : τ)
  | trywrlock (t : τ)
  | unlock (t : τ)
  | go (t : τ)
  deriving DecidableEq

namespace RwLock

variable {τ : Type} [DecidableEq τ]

/-- `thread_rwlock_create`. -/
def create : RwLock τ where
  writeMutex := none
  readEvent := false
  readers := 0
  pc := fun _ => .out

/-- Thread `t` goes to `pc`. -/
def moveTo (s : RwLock τ) (t : τ) (pc : RwPc) : RwLock τ :=
  { s with pc := Function.update s.pc t pc }

/-- A thread outside of the lock starts a call. -/
def call (s : RwLock τ) (t : τ) (pc : RwPc) : Option (RwLock τ) :=
  if s.pc t = .out then some (s.moveTo t pc) else none

/-- `WaitForSingleObject(rwlock->write_mutex, milliseconds)`: a call that does not block
ends here when the mutex is taken. -/
def waitMutex (s : RwLock τ) (t : τ) (block : Bool) (next : RwPc) : Option (RwLock τ) :=
  match s.writeMutex with
  | none => some { s.moveTo t next with writeMutex := some t }
  | some _ => if block then none else some (s.moveTo t .out)

/-- The next step of the call that thread `t` is in. -/
def go (s : RwLock τ) (t : τ) : Option (RwLock τ) :=
  match s.pc t with
  | .out => none
  | .reading => none
  | .writing => none
  -- thread_rwlock_rdlock_core
  | .rdMutex block => s.waitMutex t block .rdCount
  | .rdCount => some { s.moveTo t .rdReset with readers := s.readers + 1 }
  | .rdReset => some { s.moveTo t .rdRelease with readEvent := false }
  | .rdRelease => some { s.moveTo t .reading with writeMutex := none }
  -- thread_rwlock_wrlock_core
  | .wrMutex block => s.waitMutex t block (.wrTest block)
  | .wrTest block =>
      some (s.moveTo t (if s.readers = 0 then .writing else if block then .wrWait else .wrGiveUp))
  | .wrWait => if s.readEvent then some (s.moveTo t .writing) else none
  | .wrGiveUp => some { s.moveTo t .out with writeMutex := none }
  -- thread_rwlock_unlock, after ReleaseMutex has failed with ERROR_NOT_OWNER
  | .unTest => some (s.moveTo t (if s.readers = 0 then .out else .unCount))
  | .unCount =>
      some { s.moveTo t (if s.readers - 1 = 0 then .unSet else .out) with
        readers := s.readers - 1 }
  | .unSet => some { s.moveTo t .out with readEvent := true }

/-- `thread_rwlock_unlock`, up to its `ReleaseMutex`. -/
def unlock (s : RwLock τ) (t : τ) : Option (RwLock τ) :=
  if s.pc t = .reading ∨ s.pc t = .writing then
    if s.writeMutex = some t then some { s.moveTo t .out with writeMutex := none }
    else some (s.moveTo t .unTest)
  else none

/-- One step of one thread. -/
def step (s : RwLock τ) : RwAct τ → Option (RwLock τ)
  | .rdlock t => s.call t (.rdMutex true)
  | .tryrdlock t => s.call t (.rdMutex false)
  | .wrlock t => s.call t (.wrMutex true)
  | .trywrlock t => s.call t (.wrMutex false)
  | .unlock t => s.unlock t
  | .go t => s.go t

/-! ## What holds in every run -/

/-- The places of a thread that owns `write_mutex`. -/
def Owns : RwPc → Prop
  | .rdCount | .rdReset | .rdRelease | .wrTest _ | .wrWait | .wrGiveUp | .writing => True
  | _ => False

/-- The places of a thread that `readers` counts. -/
def Counted : RwPc → Prop
  | .rdReset | .rdRelease | .reading | .unTest | .unCount => True
  | _ => False

instance : DecidablePred Owns := fun pc => by cases pc <;> unfold Owns <;> infer_instance

instance : DecidablePred Counted := fun pc => by
  cases pc <;> unfold Counted <;> infer_instance

variable [Fintype τ]

/-- The mutex is owned by the thread that is where its owner must be, `readers` is the
number of counted threads, and a writer that waits although nobody is counted has the
event before it, or a thread that is about to set it. -/
structure Inv (s : RwLock τ) : Prop where
  owner : ∀ t, s.writeMutex = some t ↔ Owns (s.pc t)
  counted : s.readers = phaseCount Counted s.pc
  awaited : ∀ t, s.pc t = .wrWait → s.readers = 0 →
    s.readEvent = true ∨ ∃ u, s.pc u = .unSet

omit [DecidableEq τ] in
/-- Two threads that both own the mutex are one. -/
theorem Inv.unique {s : RwLock τ} (h : s.Inv) {t u : τ} (ht : Owns (s.pc t))
    (hu : Owns (s.pc u)) : t = u := by
  have h₁ := (h.owner t).mpr ht
  rw [(h.owner u).mpr hu] at h₁
  exact (Option.some.inj h₁).symm

omit [DecidableEq τ] in
/-- A counted thread is one reader at least. -/
theorem Inv.readers_pos {s : RwLock τ} (h : s.Inv) {t : τ} (ht : Counted (s.pc t)) :
    0 < s.readers := by
  have hpos : 0 < phaseCount Counted s.pc := (phaseCount_pos_iff _ _).mpr ⟨t, ht⟩
  rw [h.counted]
  exact_mod_cast hpos

/-- **One thread moves.**  What it does to the mutex fits the place it goes to, what it
does to the counter fits the places it leaves and enters, and it takes from no waiting
writer what that one waits for. -/
theorem Inv.move {s s' : RwLock τ} (h : s.Inv) (t : τ) (x : RwPc)
    (hpc : s'.pc = Function.update s.pc t x)
    (hself : s'.writeMutex = some t ↔ Owns x)
    (hothers : ∀ u, u ≠ t → (s'.writeMutex = some u ↔ s.writeMutex = some u))
    (hcount : s'.readers + (if Counted (s.pc t) then 1 else 0)
      = s.readers + (if Counted x then 1 else 0))
    (hx : x = .wrWait → s'.readers ≠ 0)
    (hreaders : s'.readers = s.readers ∨ x = .unSet ∨ s'.readers ≠ 0)
    (hevent : s'.readEvent = s.readEvent ∨ s'.readEvent = true ∨ Owns (s.pc t))
    (hleave : s.pc t = .unSet → s'.readEvent = true) : s'.Inv where
  owner u := by
    rw [hpc]
    by_cases hu : u = t
    · rw [hu, Function.update_self]
      exact hself
    · rw [Function.update_of_ne hu, hothers u hu]
      exact h.owner u
  counted := by
    have hphase := phaseCount_update Counted s.pc t x
    have hc := h.counted
    rw [hpc]
    by_cases h₁ : Counted (s.pc t) <;> by_cases h₂ : Counted x <;>
      simp only [h₁, h₂, if_true, if_false] at hcount hphase <;> omega
  awaited u hu hzero := by
    rw [hpc] at hu ⊢
    by_cases hut : u = t
    · rw [hut, Function.update_self] at hu
      exact absurd hzero (hx hu)
    · rw [Function.update_of_ne hut] at hu
      rcases hreaders with hr | hr | hr
      · rcases h.awaited u hu (hr ▸ hzero) with he | ⟨v, hv⟩
        · rcases hevent with h' | h' | h'
          · exact .inl (h'.trans he)
          · exact .inl h'
          · -- the waiting writer owns the mutex, so the one that moves does not
            exact absurd (h.unique (by rw [hu]; trivial) h') hut
        · by_cases hvt : v = t
          · exact .inl (hleave (hvt ▸ hv))
          · exact .inr ⟨v, by rw [Function.update_of_ne hvt]; exact hv⟩
      · exact .inr ⟨t, by rw [Function.update_self, hr]⟩
      · exact absurd hzero hr

/-- A thread goes to another place and leaves the lock as it is. -/
theorem Inv.moveTo {s : RwLock τ} (h : s.Inv) (t : τ) (x : RwPc)
    (howns : Owns (s.pc t) ↔ Owns x) (hcounted : Counted (s.pc t) ↔ Counted x)
    (hx : x = .wrWait → s.readers ≠ 0) (hleave : s.pc t ≠ .unSet) :
    (s.moveTo t x).Inv := by
  refine h.move t x rfl ((h.owner t).trans howns) (fun u _ => Iff.rfl) ?_ hx (.inl rfl)
    (.inl rfl) (fun h' => absurd h' hleave)
  simp only [RwLock.moveTo, hcounted]

/-- A thread that owns the mutex gives it back. -/
theorem Inv.release {s : RwLock τ} (h : s.Inv) (t : τ) (x : RwPc) (howns : Owns (s.pc t))
    (hx : ¬ Owns x) (hcounted : Counted (s.pc t) ↔ Counted x) :
    ({ s.moveTo t x with writeMutex := none } : RwLock τ).Inv := by
  have howner := (h.owner t).mpr howns
  refine h.move t x rfl ?_ ?_ ?_ ?_ (.inl rfl) (.inl rfl) ?_
  · simp [hx]
  · intro u hu
    rw [howner]
    simp [Ne.symm hu]
  · simp only [RwLock.moveTo, hcounted]
  · rintro rfl
    exact absurd trivial hx
  · intro h'
    rw [h'] at howns
    exact absurd howns (by decide)

/-- A thread gets the mutex, or does not get it and leaves. -/
theorem Inv.waitMutex {s s' : RwLock τ} (h : s.Inv) {t : τ} {block : Bool} {x : RwPc}
    (hs : s.waitMutex t block x = some s') (hleave : s.pc t ≠ .unSet)
    (howns : ¬ Owns (s.pc t)) (hcounted : ¬ Counted (s.pc t)) (hx : Owns x)
    (hx' : ¬ Counted x) (hxw : x ≠ .wrWait) : s'.Inv := by
  rw [RwLock.waitMutex] at hs
  split at hs
  · rename_i hfree
    cases hs
    refine h.move t x rfl (by simp [hx]) ?_ (by simp [RwLock.moveTo, hcounted, hx'])
      (fun h' => absurd h' hxw) (.inl rfl) (.inl rfl) (fun h' => absurd h' hleave)
    intro u hu
    rw [hfree]
    simp [Ne.symm hu]
  · split at hs
    · cases hs
    · cases hs
      exact h.moveTo t .out (iff_of_false howns (by decide))
        (iff_of_false hcounted (by decide)) (fun h' => absurd h' (by decide)) hleave

/-- **The next step of a call keeps the invariant**, one case for each place. -/
theorem Inv.go {s s' : RwLock τ} (h : s.Inv) {t : τ} (hs : s.go t = some s') : s'.Inv := by
  rw [RwLock.go] at hs
  cases hpc : s.pc t with
  | out => rw [hpc] at hs; cases hs
  | reading => rw [hpc] at hs; cases hs
  | writing => rw [hpc] at hs; cases hs
  | rdMutex block =>
      rw [hpc] at hs
      exact h.waitMutex hs (by simp [hpc]) (by simp [hpc, Owns]) (by simp [hpc, Counted])
        trivial (by decide) (by decide)
  | rdCount =>
      rw [hpc] at hs
      cases hs
      have hnn : 0 ≤ s.readers := h.counted ▸ Int.natCast_nonneg _
      refine h.move t .rdReset rfl ?_ (fun u _ => Iff.rfl) ?_ (by simp) (.inr (.inr ?_))
        (.inl rfl) (by simp [hpc])
      · exact (h.owner t).trans (by simp [hpc, Owns])
      · simp [hpc, Counted]
      · show s.readers + 1 ≠ 0
        omega
  | rdReset =>
      rw [hpc] at hs
      cases hs
      refine h.move t .rdRelease rfl ?_ (fun u _ => Iff.rfl) ?_ (by simp) (.inl rfl)
        (.inr (.inr ?_)) (by simp [hpc])
      · exact (h.owner t).trans (by simp [hpc, Owns])
      · simp [hpc, Counted, RwLock.moveTo]
      · simp [hpc, Owns]
  | rdRelease =>
      rw [hpc] at hs
      cases hs
      exact h.release t .reading (by simp [hpc, Owns]) (by decide) (by simp [hpc, Counted])
  | wrMutex block =>
      rw [hpc] at hs
      exact h.waitMutex hs (by simp [hpc]) (by simp [hpc, Owns]) (by simp [hpc, Counted])
        trivial (by simp [Counted]) (by simp)
  | wrTest block =>
      rw [hpc] at hs
      cases hs
      refine h.moveTo t _ ?_ ?_ ?_ (by simp [hpc])
      · split_ifs <;> simp [hpc, Owns]
      · split_ifs <;> simp [hpc, Counted]
      · split_ifs with h₁
        · exact fun h' => absurd h' (by decide)
        · exact fun _ => h₁
        · exact fun h' => absurd h' (by decide)
  | wrWait =>
      rw [hpc] at hs
      dsimp only at hs
      split at hs
      · cases hs
        exact h.moveTo t .writing (by simp [hpc, Owns]) (by simp [hpc, Counted])
          (fun h' => absurd h' (by decide)) (by simp [hpc])
      · cases hs
  | wrGiveUp =>
      rw [hpc] at hs
      cases hs
      exact h.release t .out (by simp [hpc, Owns]) (by decide) (by simp [hpc, Counted])
  | unTest =>
      rw [hpc] at hs
      cases hs
      have hpos := h.readers_pos (t := t) (by simp [hpc, Counted])
      rw [if_neg hpos.ne']
      exact h.moveTo t .unCount (by simp [hpc, Owns]) (by simp [hpc, Counted])
        (fun h' => absurd h' (by decide)) (by simp [hpc])
  | unCount =>
      rw [hpc] at hs
      cases hs
      refine h.move t (if s.readers - 1 = 0 then .unSet else .out) rfl ?_ (fun u _ => Iff.rfl)
        ?_ ?_ ?_ (.inl rfl) (by simp [hpc])
      · rw [show ({ s.moveTo t (if s.readers - 1 = 0 then .unSet else .out) with
          readers := s.readers - 1 } : RwLock τ).writeMutex = s.writeMutex from rfl, h.owner t]
        split_ifs <;> simp [hpc, Owns]
      · have hnot : ¬ Counted (if s.readers - 1 = 0 then RwPc.unSet else .out) := by
          split_ifs <;> decide
        rw [hpc, if_pos (by decide : Counted .unCount), if_neg hnot]
        show s.readers - 1 + 1 = s.readers + 0
        omega
      · split_ifs <;> exact fun h' => absurd h' (by decide)
      · by_cases hzero : s.readers - 1 = 0
        · exact .inr (.inl (if_pos hzero))
        · exact .inr (.inr hzero)
  | unSet =>
      rw [hpc] at hs
      cases hs
      refine h.move t .out rfl ?_ (fun u _ => Iff.rfl) ?_ (by simp) (.inl rfl)
        (.inr (.inl rfl)) (fun _ => rfl)
      · exact (h.owner t).trans (by simp [hpc, Owns])
      · simp [hpc, Counted, RwLock.moveTo]

/-- Starting a call keeps the invariant. -/
theorem Inv.call {s s' : RwLock τ} (h : s.Inv) {t : τ} {x : RwPc}
    (hs : s.call t x = some s') (hx : ¬ Owns x) (hx' : ¬ Counted x) : s'.Inv := by
  rw [RwLock.call] at hs
  split at hs
  · rename_i hout
    cases hs
    refine h.moveTo t x (iff_of_false (by simp [hout, Owns]) hx)
      (iff_of_false (by simp [hout, Counted]) hx') ?_ (by simp [hout])
    rintro rfl
    exact absurd trivial hx
  · cases hs

/-- Unlocking keeps the invariant: who owns the mutex is the writer, who does not is a
reader. -/
theorem Inv.unlock {s s' : RwLock τ} (h : s.Inv) {t : τ} (hs : s.unlock t = some s') :
    s'.Inv := by
  rw [RwLock.unlock] at hs
  split at hs
  · rename_i hin
    by_cases howner : s.writeMutex = some t
    · rw [if_pos howner] at hs
      cases hs
      have howns := (h.owner t).mp howner
      have hwriting : s.pc t = .writing := by
        rcases hin with hr | hw
        · rw [hr] at howns
          exact absurd howns (by decide)
        · exact hw
      exact h.release t .out howns (by decide) (by simp [hwriting, Counted])
    · rw [if_neg howner] at hs
      cases hs
      have hreading : s.pc t = .reading := by
        rcases hin with hr | hw
        · exact hr
        · exact absurd ((h.owner t).mpr (by rw [hw]; trivial)) howner
      exact h.moveTo t .unTest (by simp [hreading, Owns]) (by simp [hreading, Counted])
        (fun h' => absurd h' (by decide)) (by simp [hreading])
  · cases hs

/-- Every step keeps the invariant. -/
theorem Inv.step {s s' : RwLock τ} {a : RwAct τ} (h : s.Inv) (hs : s.step a = some s') :
    s'.Inv := by
  cases a with
  | rdlock t => exact h.call hs (by decide) (by decide)
  | tryrdlock t => exact h.call hs (by decide) (by decide)
  | wrlock t => exact h.call hs (by decide) (by decide)
  | trywrlock t => exact h.call hs (by decide) (by decide)
  | unlock t => exact h.unlock hs
  | go t => exact h.go hs

omit [DecidableEq τ] in
/-- A new lock satisfies the invariant. -/
theorem create_inv : (create : RwLock τ).Inv where
  owner t := by simp [create, Owns]
  counted := by
    have hnone : phaseCount Counted (create : RwLock τ).pc = 0 := by
      rw [phaseCount, Finset.card_eq_zero]
      exact Finset.filter_false_of_mem fun _ _ => not_false
    rw [hnone]
    rfl
  awaited t ht := by simp [create] at ht

/-- **The lock is accounted for.**  For any number of threads and every interleaving of
their calls, in every state reached: there are no two writers at once, `readers` is the
number of threads that have a read lock (those on their way in after the increment and
on their way out before the decrement among them), and when a writer waits for the
readers and none is left, the event is set or the last reader is about to set it. -/
theorem rwlock_accounted {s : RwLock τ} (h : Reach step Always create s) :
    (∀ t u, s.pc t = .writing → s.pc u = .writing → t = u)
      ∧ s.readers = phaseCount Counted s.pc
      ∧ ∀ t, s.pc t = .wrWait → s.readers = 0 →
          s.readEvent = true ∨ ∃ u, s.pc u = .unSet := by
  have hinv : s.Inv :=
    h.invariant Inv create_inv fun s a s' hi _ hs => hi.step hs
  refine ⟨?_, hinv.counted, hinv.awaited⟩
  intro t u ht hu
  exact hinv.unique (by rw [ht]; trivial) (by rw [hu]; trivial)

/-- The steps of an uncontended `thread_rwlock_rdlock`. -/
def rdlockSteps (t : τ) : List (RwAct τ) := [.rdlock t, .go t, .go t, .go t, .go t]

/-- A writer waits, and the only reader has decremented the counter but not set the event. -/
theorem rwlock_accounted_waiting :
    ∃ s : RwLock (Fin 2), s.pc 1 = .wrWait ∧ s.readers = 0 ∧
      (s.readEvent = true ∨ ∃ u, s.pc u = .unSet) := by
  have hrun : (run step Always (create : RwLock (Fin 2))
      (rdlockSteps 0 ++ [.wrlock 1, .go 1, .go 1, .unlock 0, .go 0, .go 0])).map
      (fun s => (s.pc 1, s.readers)) = some (.wrWait, 0) := by
    decide
  obtain ⟨s, hs, hobs⟩ := Option.map_eq_some_iff.mp hrun
  rw [Prod.mk.injEq] at hobs
  have hreach := Reach.refl.run _ hs
  exact ⟨s, hobs.1, hobs.2, (rwlock_accounted hreach).2.2 1 hobs.1 hobs.2⟩

/-! ## Readers and writers -/

/-- The event is set only while no reader is counted. -/
def SetsAlone (s : RwLock τ) (a : RwAct τ) : Prop :=
  match a with
  | .go t => s.pc t = .unSet → s.readers = 0
  | _ => True

instance (s : RwLock τ) (a : RwAct τ) : Decidable (s.SetsAlone a) := by
  unfold SetsAlone
  cases a <;> infer_instance

/-- What such runs keep besides `Inv`: the event is set only when no reader is counted, or
one that has just counted itself is about to reset it; and a writer counts none. -/
structure Exclusive (s : RwLock τ) : Prop extends s.Inv where
  event : s.readEvent = true → s.readers = 0 ∨ ∃ t, s.pc t = .rdReset
  alone : ∀ t, s.pc t = .writing → s.readers = 0

/-- A thread moves to a place that is not `writing`; it does not count itself in while
another one writes, and what it does to the event fits. -/
theorem Exclusive.move {s s' : RwLock τ} (h : s.Exclusive) (hinv : s'.Inv) (t : τ) (x : RwPc)
    (hpc : s'.pc = Function.update s.pc t x)
    (hwriting : x = .writing → s'.readers = 0)
    (hreaders : s'.readers = s.readers ∨ Owns (s.pc t) ∧ x = .rdReset ∨ s.readers ≠ 0)
    (hevent : s'.readEvent = true → s'.readers = 0 ∨ x = .rdReset
      ∨ (s.readEvent = true ∧ s.readers ≠ 0 ∧ s.pc t ≠ .rdReset)) : s'.Exclusive where
  toInv := hinv
  event he := by
    rcases hevent he with h' | h' | ⟨h₁, h₂, h₃⟩
    · exact .inl h'
    · exact .inr ⟨t, by rw [hpc, Function.update_self, h']⟩
    · rcases h.event h₁ with h' | ⟨u, hu⟩
      · exact absurd h' h₂
      · have hut : u ≠ t := by
          rintro rfl
          exact h₃ hu
        exact .inr ⟨u, by rw [hpc, Function.update_of_ne hut]; exact hu⟩
  alone u hu := by
    rw [hpc] at hu
    by_cases hut : u = t
    · rw [hut, Function.update_self] at hu
      exact hwriting hu
    · rw [Function.update_of_ne hut] at hu
      rcases hreaders with hr | ⟨hr, -⟩ | hr
      · exact hr.trans (h.alone u hu)
      · exact absurd (h.unique (by rw [hu]; trivial) hr) hut
      · exact absurd (h.alone u hu) hr

/-- A step that changes neither the event nor the counter. -/
theorem Exclusive.keep {s s' : RwLock τ} (h : s.Exclusive) (hinv : s'.Inv) (t : τ) (x : RwPc)
    (hpc : s'.pc = Function.update s.pc t x) (hevent : s'.readEvent = s.readEvent)
    (hreaders : s'.readers = s.readers) (hwriting : x = .writing → s.readers = 0)
    (hreset : s.pc t ≠ .rdReset) : s'.Exclusive := by
  refine h.move hinv t x hpc (fun h' => hreaders.trans (hwriting h')) (.inl hreaders) ?_
  intro he
  rw [hevent] at he
  by_cases hzero : s.readers = 0
  · exact .inl (hreaders.trans hzero)
  · exact .inr (.inr ⟨he, hzero, hreset⟩)

/-- A wait for the mutex keeps exclusion. -/
theorem Exclusive.waitMutex {s s' : RwLock τ} (h : s.Exclusive) (hinv : s'.Inv) {t : τ}
    {block : Bool} {x : RwPc} (hs : s.waitMutex t block x = some s') (hx : x ≠ .writing)
    (hreset : s.pc t ≠ .rdReset) : s'.Exclusive := by
  rw [RwLock.waitMutex] at hs
  split at hs
  · cases hs
    exact h.keep hinv t x rfl rfl rfl (fun h' => absurd h' hx) hreset
  · split at hs
    · cases hs
    · cases hs
      exact h.keep hinv t .out rfl rfl rfl (fun h' => absurd h' (by decide)) hreset

/-- **The next step of a call keeps exclusion**, when it sets the event only with no
reader counted. -/
theorem Exclusive.go {s s' : RwLock τ} (h : s.Exclusive) {t : τ}
    (hok : s.pc t = .unSet → s.readers = 0) (hs : s.go t = some s') : s'.Exclusive := by
  have hinv : s'.Inv := h.toInv.go hs
  rw [RwLock.go] at hs
  cases hpc : s.pc t with
  | out => rw [hpc] at hs; cases hs
  | reading => rw [hpc] at hs; cases hs
  | writing => rw [hpc] at hs; cases hs
  | rdMutex block =>
      rw [hpc] at hs
      exact h.waitMutex hinv hs (by decide) (by simp [hpc])
  | rdCount =>
      rw [hpc] at hs
      cases hs
      exact h.move hinv t .rdReset rfl (fun h' => absurd h' (by decide))
        (.inr (.inl ⟨by simp [hpc, Owns], rfl⟩)) (fun _ => .inr (.inl rfl))
  | rdReset =>
      rw [hpc] at hs
      cases hs
      exact h.move hinv t .rdRelease rfl (fun h' => absurd h' (by decide)) (.inl rfl)
        (fun h' => absurd h' (by simp))
  | rdRelease =>
      rw [hpc] at hs
      cases hs
      exact h.keep hinv t .reading rfl rfl rfl (fun h' => absurd h' (by decide)) (by simp [hpc])
  | wrMutex block =>
      rw [hpc] at hs
      exact h.waitMutex hinv hs (by simp) (by simp [hpc])
  | wrTest block =>
      rw [hpc] at hs
      cases hs
      refine h.keep hinv t
        (if s.readers = 0 then .writing else if block then .wrWait else .wrGiveUp)
        rfl rfl rfl ?_ (by simp [hpc])
      split_ifs with h₁
      · exact fun _ => h₁
      · exact fun h' => absurd h' (by decide)
      · exact fun h' => absurd h' (by decide)
  | wrWait =>
      rw [hpc] at hs
      dsimp only at hs
      split at hs
      · rename_i he
        cases hs
        refine h.keep hinv t .writing rfl rfl rfl (fun _ => ?_) (by simp [hpc])
        -- a reader before its reset would own the mutex that the writer owns
        rcases h.event he with hzero | ⟨u, hu⟩
        · exact hzero
        · have hut := h.unique (t := t) (u := u) (by rw [hpc]; trivial) (by rw [hu]; trivial)
          rw [hut, hu] at hpc
          cases hpc
      · cases hs
  | wrGiveUp =>
      rw [hpc] at hs
      cases hs
      exact h.keep hinv t .out rfl rfl rfl (fun h' => absurd h' (by decide)) (by simp [hpc])
  | unTest =>
      rw [hpc] at hs
      cases hs
      refine h.keep hinv t (if s.readers = 0 then .out else .unCount) rfl rfl rfl ?_ (by simp [hpc])
      split_ifs <;> exact fun h' => absurd h' (by decide)
  | unCount =>
      rw [hpc] at hs
      cases hs
      have hpos := h.readers_pos (t := t) (by simp [hpc, Counted])
      refine h.move hinv t (if s.readers - 1 = 0 then .unSet else .out) rfl ?_
        (.inr (.inr hpos.ne')) ?_
      · split_ifs <;> exact fun h' => absurd h' (by decide)
      · intro he
        exact .inr (.inr ⟨he, hpos.ne', by simp [hpc]⟩)
  | unSet =>
      rw [hpc] at hs
      cases hs
      exact h.move hinv t .out rfl (fun h' => absurd h' (by decide)) (.inl rfl)
        (fun _ => .inl (hok hpc))

/-- Every step that sets the event alone keeps exclusion. -/
theorem Exclusive.step {s s' : RwLock τ} {a : RwAct τ} (h : s.Exclusive)
    (hok : s.SetsAlone a) (hs : s.step a = some s') : s'.Exclusive := by
  have hinv : s'.Inv := h.toInv.step hs
  have hcall : ∀ t x, x ≠ .writing → s.call t x = some s' → s'.Exclusive := by
    intro t x hx hc
    rw [RwLock.call] at hc
    split at hc
    · rename_i hout
      cases hc
      exact h.keep hinv t x rfl rfl rfl (fun h' => absurd h' hx) (by simp [hout])
    · cases hc
  cases a with
  | rdlock t => exact hcall t _ (by decide) hs
  | tryrdlock t => exact hcall t _ (by decide) hs
  | wrlock t => exact hcall t _ (by decide) hs
  | trywrlock t => exact hcall t _ (by decide) hs
  | unlock t =>
      rw [RwLock.step, RwLock.unlock] at hs
      split at hs
      · rename_i hin
        have hreset : s.pc t ≠ .rdReset := by
          rcases hin with h' | h' <;> rw [h'] <;> decide
        split at hs
        · cases hs
          exact h.keep hinv t .out rfl rfl rfl (fun h' => absurd h' (by decide)) hreset
        · cases hs
          exact h.keep hinv t .unTest rfl rfl rfl (fun h' => absurd h' (by decide)) hreset
      · cases hs
  | go t => exact h.go hok hs

/-- **Writers keep readers out.**  In every run, of any number of threads, in which
`SetEvent` finds no reader counted, no thread reads while another one writes, and no two
write. -/
theorem rwlock_excludes {s : RwLock τ} (h : Reach step SetsAlone create s) (t u : τ)
    (ht : s.pc t = .writing) : s.pc u ≠ .reading ∧ (s.pc u = .writing → t = u) := by
  have hex : s.Exclusive := by
    refine h.invariant Exclusive ?_ fun s a s' hi hok hs => hi.step hok hs
    exact ⟨create_inv, fun he => absurd he (by simp [create]), fun _ _ => rfl⟩
  constructor
  · intro hu
    have hpos := hex.readers_pos (t := u) (by simp [hu, Counted])
    exact hpos.ne' (hex.alone t ht)
  · intro hu
    exact hex.unique (by rw [ht]; trivial) (by rw [hu]; trivial)

/-- The reader leaves, its event lets the waiting writer in. -/
theorem rwlock_excludes_handover :
    ∃ s : RwLock (Fin 2), s.pc 1 = .writing ∧ s.pc 0 ≠ .reading := by
  have hrun : (run step SetsAlone (create : RwLock (Fin 2))
      (rdlockSteps 0 ++ [.wrlock 1, .go 1, .go 1, .unlock 0, .go 0, .go 0, .go 0, .go 1])).map
      (fun s => s.pc 1) = some .writing := by
    decide
  obtain ⟨s, hs, hwriting⟩ := Option.map_eq_some_iff.mp hrun
  have hreach := Reach.refl.run _ hs
  exact ⟨s, hwriting, (rwlock_excludes hreach 1 0 hwriting).1⟩

/-- The condition cannot be left out: the last reader decrements, a second one comes in,
and the `SetEvent` of the first one lets a writer past the second. -/
theorem stale_event_admits_writer :
    ∃ s : RwLock (Fin 3), Reach step Always create s
      ∧ s.pc 2 = .writing ∧ s.pc 1 = .reading := by
  have hrun : (run step Always (create : RwLock (Fin 3))
      (rdlockSteps 0 ++ [.unlock 0, .go 0, .go 0] ++ rdlockSteps 1
        ++ [.go 0, .wrlock 2, .go 2, .go 2, .go 2])).map
      (fun s => (s.pc 2, s.pc 1)) = some (.writing, .reading) := by
    decide
  obtain ⟨s, hs, hobs⟩ := Option.map_eq_some_iff.mp hrun
  rw [Prod.mk.injEq] at hobs
  exact ⟨s, Reach.refl.run _ hs, hobs⟩

end RwLock

end Zevent.Locks

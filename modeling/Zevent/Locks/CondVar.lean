/-
# The condition variable of Windows (`common/locks/win/thread_cond.c`)

A condition variable is a semaphore with three counters, which a critical section
protects: how many threads wait, how many of them are to be woken, and the generation,
which every wake-up increments.  A thread that has been let through the semaphore takes a
wake-up only if one is due and the generation is no longer the one it began to wait in;
otherwise it puts the semaphore back or waits on.  One step is one critical section or
one call on the semaphore, and any number of threads wait, signal and broadcast.

Wake-ups are neither lost nor invented (`cond_wakeups_accounted`): those issued are those
returned by waits and those still due; the due ones belong to threads that were waiting
when they were issued, and the semaphore has as many places for them, counting what
threads hold between two of their steps.
-/
import Mathlib.Tactic
import Zevent.Lib.Interleaving

namespace Zevent.Locks

open Interleaving

/-! ## State and steps -/

/-- Where a thread is.  In the loop of `_thread_cond_timedwait` it has its generation with
it; `woken` is the place before the critical section, with whether the semaphore let the
thread through, `giveBack` the one with `wake = 1` behind it.  `releasing n` is behind the
critical section of a signal or a broadcast. -/
inductive CondPc where
  | out
  | waiting (timed : Bool) (generation : ℕ)
  | woken (timed : Bool) (generation : ℕ) (token : Bool)
  | giveBack (timed : Bool) (generation : ℕ)
  | returning (ok : Bool)
  | releasing (n : ℕ)
  deriving DecidableEq

/-- `thread_cond_t`, and where the threads are.  `issued` and `returned` count the
wake-ups that signals and broadcasts have issued and that waits have returned with; the
code does not read them. -/
structure CondVar (τ : Type) where
  semaphore : ℕ
  numWaiting : ℕ
  numWake : ℕ
  generation : ℕ
  pc : τ → CondPc
  issued : ℕ
  returned : ℕ

/-- What a thread does: the calls, the two ways a wait for the semaphore ends, and the
next step of what is under way. -/
inductive CondAct (τ : Type) where
  | wait (t : τ) (timed : Bool)
  | acquire (t : τ)
  | expire (t : τ)
  | go (t : τ)
  | signal (t : τ)
  | broadcast (t : τ)
  deriving DecidableEq

namespace CondVar

variable {τ : Type}

/-- `LONG_MAX`, the bound that the semaphore is created with. -/
def longMax : ℕ := 2 ^ 31 - 1

/-- `cond->generation++`, an `unsigned long` of 32 bits. -/
def nextGeneration (generation : ℕ) : ℕ := (generation + 1) % 2 ^ 32

/-- `thread_cond_create`. -/
def create : CondVar τ where
  semaphore := 0
  numWaiting := 0
  numWake := 0
  generation := 0
  pc := fun _ => .out
  issued := 0
  returned := 0

variable [DecidableEq τ]

/-- Thread `t` goes to `pc`. -/
def moveTo (s : CondVar τ) (t : τ) (pc : CondPc) : CondVar τ :=
  { s with pc := Function.update s.pc t pc }

/-- `ReleaseSemaphore(cond->semaphore, n, NULL)`, which fails past the bound. -/
def releaseSemaphore (s : CondVar τ) (n : ℕ) : CondVar τ :=
  if s.semaphore + n ≤ longMax then { s with semaphore := s.semaphore + n } else s

/-- The critical section in the loop of `_thread_cond_timedwait`. -/
def examine (s : CondVar τ) (t : τ) (timed : Bool) (generation : ℕ) (token : Bool) :
    CondVar τ :=
  if s.numWake ≠ 0 then
    if s.generation ≠ generation then
      { s.moveTo t (.returning true) with
        numWake := s.numWake - 1
        numWaiting := s.numWaiting - 1
        returned := s.returned + 1 }
    else s.moveTo t (.giveBack timed generation)
  else if token then s.moveTo t (.waiting timed generation)
  else { s.moveTo t (.returning false) with numWaiting := s.numWaiting - 1 }

/-- The critical section of a signal or a broadcast that wakes `n` threads. -/
def wake (s : CondVar τ) (t : τ) (n : ℕ) : CondVar τ :=
  { s.moveTo t (.releasing n) with
    numWake := s.numWake + n
    generation := nextGeneration s.generation
    issued := s.issued + n }

/-- One step of one thread. -/
def step (s : CondVar τ) : CondAct τ → Option (CondVar τ)
  | .wait t timed =>
      if s.pc t = .out then
        some { s.moveTo t (.waiting timed s.generation) with numWaiting := s.numWaiting + 1 }
      else none
  | .acquire t =>
      match s.pc t with
      | .waiting timed generation =>
          if s.semaphore = 0 then none
          else some { s.moveTo t (.woken timed generation true) with
            semaphore := s.semaphore - 1 }
      | _ => none
  | .expire t =>
      match s.pc t with
      | .waiting true generation => some (s.moveTo t (.woken true generation false))
      | _ => none
  | .go t =>
      match s.pc t with
      | .woken timed generation token => some (s.examine t timed generation token)
      | .giveBack timed generation =>
          some ((s.releaseSemaphore 1).moveTo t (.waiting timed generation))
      | .returning _ => some (s.moveTo t .out)
      | .releasing n => some ((s.releaseSemaphore n).moveTo t .out)
      | _ => none
  | .signal t =>
      if s.pc t = .out then
        some (if s.numWake < s.numWaiting then s.wake t 1 else s)
      else none
  | .broadcast t =>
      if s.pc t = .out then
        some (if s.numWake < s.numWaiting then s.wake t (s.numWaiting - s.numWake) else s)
      else none

/-! ## What is counted -/

/-- The thread is in a wait: `num_waiting` counts it. -/
def InWait : CondPc → Bool
  | .waiting _ _ | .woken _ _ _ | .giveBack _ _ => true
  | _ => false

/-- The thread is in a wait that began in another generation than `generation`. -/
def Eligible (generation : ℕ) : CondPc → Bool
  | .waiting _ g | .woken _ g _ | .giveBack _ g => g ≠ generation
  | _ => false

/-- The places of the semaphore that a thread holds between two of its steps. -/
def held : CondPc → ℕ
  | .woken _ _ true => 1
  | .giveBack _ _ => 1
  | .releasing n => n
  | _ => 0

/-- A thread that was let through holds at most one place of the semaphore. -/
theorem held_woken_le (timed : Bool) (g : ℕ) (token : Bool) :
    held (.woken timed g token) ≤ 1 := by
  cases token
  · exact Nat.zero_le 1
  · exact le_rfl

variable [Fintype τ]

/-- The number of threads in a wait that began before the last wake-up. -/
def eligible (s : CondVar τ) : ℕ := phaseCount (fun pc => Eligible s.generation pc) s.pc

/-- What is counted at every moment.  `releasing` bounds what one broadcast releases. -/
structure Accounted (s : CondVar τ) : Prop where
  issued : s.issued = s.returned + s.numWake
  waiting : s.numWaiting = phaseCount (fun pc => InWait pc) s.pc
  due : s.numWake ≤ s.numWaiting
  tokens : s.numWake ≤ s.semaphore + phaseSum held s.pc
  releasing : ∀ t n, s.pc t = .releasing n → n ≤ Fintype.card τ

omit [DecidableEq τ] in
/-- No more wake-ups are due than there are threads. -/
theorem Accounted.numWaiting_le {s : CondVar τ} (h : s.Accounted) :
    s.numWaiting ≤ Fintype.card τ := by
  rw [h.waiting]
  exact phaseCount_le_card _ _

/-- **One thread moves**: what it does to the counters fits the places it leaves and
enters. -/
theorem Accounted.move {s s' : CondVar τ} (h : s.Accounted) (t : τ) (x : CondPc)
    (hpc : s'.pc = Function.update s.pc t x)
    (hissued : s'.issued = s'.returned + s'.numWake)
    (hwaiting : s'.numWaiting + (if InWait (s.pc t) then 1 else 0)
      = s.numWaiting + (if InWait x then 1 else 0))
    (hdue : s'.numWake ≤ s'.numWaiting)
    (htokens : ∀ rest, phaseSum held s.pc = rest + held (s.pc t) →
      s'.numWake ≤ s'.semaphore + (rest + held x))
    (hreleasing : ∀ n, x = .releasing n → n ≤ Fintype.card τ) : s'.Accounted where
  issued := hissued
  waiting := by
    have hphase := phaseCount_update (fun pc => InWait pc = true) s.pc t x
    have hw := h.waiting
    rw [hpc]
    omega
  due := hdue
  tokens := by
    have hsum := phaseSum_update held s.pc t x
    rw [hpc]
    have hrest := htokens (phaseSum held s.pc - held (s.pc t))
    have hle : held (s.pc t) ≤ phaseSum held s.pc :=
      Finset.single_le_sum (f := fun u => held (s.pc u)) (fun _ _ => Nat.zero_le _)
        (Finset.mem_univ t)
    omega
  releasing u n hu := by
    rw [hpc] at hu
    by_cases hut : u = t
    · rw [hut, Function.update_self] at hu
      exact hreleasing n hu
    · rw [Function.update_of_ne hut] at hu
      exact h.releasing u n hu

/-- The critical section in the loop of a wait. -/
theorem Accounted.examine {s : CondVar τ} (h : s.Accounted) {t : τ} {timed : Bool} {g : ℕ}
    {token : Bool} (hpc : s.pc t = .woken timed g token) :
    (s.examine t timed g token).Accounted := by
  have hissued := h.issued
  have hdue := h.due
  have htokens := h.tokens
  rw [CondVar.examine]
  split_ifs with hwake hg htoken
  · refine h.move t (.returning true) rfl ?_ ?_ ?_ ?_ (by simp)
    · show s.issued = s.returned + 1 + (s.numWake - 1)
      omega
    · rw [hpc]
      show s.numWaiting - 1 + 1 = s.numWaiting + 0
      omega
    · show s.numWake - 1 ≤ s.numWaiting - 1
      omega
    · intro rest hrest
      show s.numWake - 1 ≤ s.semaphore + (rest + 0)
      have hheld := held_woken_le timed g token
      rw [hpc] at hrest
      omega
  · refine h.move t (.giveBack timed g) rfl hissued (by rw [hpc]; rfl) hdue ?_ (by simp)
    intro rest hrest
    show s.numWake ≤ s.semaphore + (rest + 1)
    have hheld := held_woken_le timed g token
    rw [hpc] at hrest
    omega
  · refine h.move t (.waiting timed g) rfl hissued (by rw [hpc]; rfl) hdue ?_ (by simp)
    intro rest _
    show s.numWake ≤ s.semaphore + (rest + 0)
    omega
  · refine h.move t (.returning false) rfl hissued ?_ ?_ ?_ (by simp)
    · rw [hpc]
      show s.numWaiting - 1 + 1 = s.numWaiting + 0
      have hpos : 0 < s.numWaiting := by
        rw [h.waiting, phaseCount_pos_iff]
        exact ⟨t, by rw [hpc]; rfl⟩
      omega
    · show s.numWake ≤ s.numWaiting - 1
      omega
    · intro rest _
      show s.numWake ≤ s.semaphore + (rest + 0)
      omega

/-- The critical section of a signal or a broadcast. -/
theorem Accounted.wake {s : CondVar τ} (h : s.Accounted) {t : τ} {n : ℕ}
    (hpc : s.pc t = .out) (hn : s.numWake + n ≤ s.numWaiting) : (s.wake t n).Accounted := by
  have hissued := h.issued
  have htokens := h.tokens
  have hcard := h.numWaiting_le
  refine h.move t (.releasing n) rfl ?_ (by rw [hpc]; rfl) hn ?_ ?_
  · show s.issued + n = s.returned + (s.numWake + n)
    omega
  · intro rest hrest
    rw [hpc] at hrest
    show s.numWake + n ≤ s.semaphore + (rest + n)
    have hzero : held .out = 0 := rfl
    omega
  · intro m hm
    cases hm
    omega

/-- Releasing the semaphore, where the bound of the semaphore is no obstacle to the
wake-ups that are due. -/
theorem Accounted.release {s : CondVar τ} (h : s.Accounted) (hcard : Fintype.card τ ≤ 2 ^ 30)
    {t : τ} {n : ℕ} {x : CondPc} (hn : held (s.pc t) = n) (hle : n ≤ 2 ^ 30)
    (hwait : InWait (s.pc t) = InWait x) (hx : held x = 0)
    (hreleasing : ∀ m, x ≠ .releasing m) : ((s.releaseSemaphore n).moveTo t x).Accounted := by
  have htokens := h.tokens
  have hnum := h.due.trans h.numWaiting_le
  rw [releaseSemaphore]
  split_ifs with hroom
  · refine h.move t x rfl h.issued (by simp only [moveTo, hwait]) h.due ?_
      (fun m hm => absurd hm (hreleasing m))
    intro rest hrest
    show s.numWake ≤ s.semaphore + n + (rest + held x)
    omega
  · refine h.move t x rfl h.issued (by simp only [moveTo, hwait]) h.due ?_
      (fun m hm => absurd hm (hreleasing m))
    intro rest _
    show s.numWake ≤ s.semaphore + (rest + held x)
    have hfull : longMax < s.semaphore + n := not_le.mp hroom
    rw [longMax] at hfull
    omega

/-- **Every step keeps the counts.** -/
theorem Accounted.step {s s' : CondVar τ} {a : CondAct τ} (h : s.Accounted)
    (hcard : Fintype.card τ ≤ 2 ^ 30) (hs : s.step a = some s') : s'.Accounted := by
  have hissued := h.issued
  have hdue := h.due
  have htokens := h.tokens
  cases a with
  | wait t timed =>
      rw [CondVar.step] at hs
      split at hs
      · rename_i hout
        cases hs
        refine h.move t (.waiting timed s.generation) rfl hissued (by rw [hout]; rfl)
          (Nat.le_succ_of_le hdue) ?_ (by simp)
        intro rest hrest
        rw [hout] at hrest
        show s.numWake ≤ s.semaphore + (rest + 0)
        have hzero : held .out = 0 := rfl
        omega
      · cases hs
  | acquire t =>
      rw [CondVar.step] at hs
      split at hs
      · rename_i timed g hpc
        split at hs
        · cases hs
        · rename_i hsem
          cases hs
          refine h.move t (.woken timed g true) rfl hissued (by rw [hpc]; rfl) hdue ?_ (by simp)
          intro rest hrest
          rw [hpc] at hrest
          show s.numWake ≤ s.semaphore - 1 + (rest + 1)
          have hzero : held (.waiting timed g) = 0 := rfl
          omega
      · cases hs
  | expire t =>
      rw [CondVar.step] at hs
      split at hs
      · rename_i g hpc
        cases hs
        refine h.move t (.woken true g false) rfl hissued (by rw [hpc]; rfl) hdue ?_ (by simp)
        intro rest hrest
        rw [hpc] at hrest
        show s.numWake ≤ s.semaphore + (rest + 0)
        have hzero : held (.waiting true g) = 0 := rfl
        omega
      · cases hs
  | go t =>
      rw [CondVar.step] at hs
      split at hs
      · rename_i hpc
        cases hs
        exact h.examine hpc
      · rename_i hpc
        cases hs
        exact h.release hcard (by rw [hpc]; rfl) (by norm_num) (by rw [hpc]; rfl) rfl (by simp)
      · rename_i ok hpc
        cases hs
        refine h.move t .out rfl hissued (by rw [hpc]; rfl) hdue ?_ (by simp)
        intro rest hrest
        rw [hpc] at hrest
        show s.numWake ≤ s.semaphore + (rest + 0)
        have hzero : held (.returning ok) = 0 := rfl
        omega
      · rename_i hpc
        cases hs
        exact h.release hcard (by rw [hpc]; rfl) ((h.releasing t _ hpc).trans hcard)
          (by rw [hpc]; rfl) rfl (by simp)
      · cases hs
  | signal t =>
      rw [CondVar.step] at hs
      split at hs
      · rename_i hout
        cases hs
        split_ifs with hlt
        · exact h.wake hout hlt
        · exact h
      · cases hs
  | broadcast t =>
      rw [CondVar.step] at hs
      split at hs
      · rename_i hout
        cases hs
        split_ifs with hlt
        · exact h.wake hout (by omega)
        · exact h
      · cases hs

omit [DecidableEq τ] in
/-- A new condition variable has nothing to account for. -/
theorem create_accounted : (create : CondVar τ).Accounted where
  issued := rfl
  waiting := by
    rw [phaseCount, Finset.filter_false_of_mem fun _ _ => by simp [create, InWait]]
    rfl
  due := le_rfl
  tokens := Nat.zero_le _
  releasing t n ht := by simp [create] at ht

/-- **Wake-ups are neither lost nor invented.**  For up to 2^30 threads and every
interleaving of waits, timed waits, signals and broadcasts, in every state reached: the
wake-ups issued are those that waits have returned with and those still due, `num_waiting`
is the number of threads in a wait, no more wake-ups are due than threads wait, and the
semaphore, with what threads hold of it between two steps, has a place for each of them. -/
theorem cond_wakeups_accounted (hcard : Fintype.card τ ≤ 2 ^ 30) {s : CondVar τ}
    (h : Reach step Always create s) :
    s.issued = s.returned + s.numWake
      ∧ s.numWaiting = phaseCount (fun pc => InWait pc) s.pc
      ∧ s.numWake ≤ s.numWaiting
      ∧ s.numWake ≤ s.semaphore + phaseSum held s.pc := by
  have hacc : s.Accounted := by
    apply h.invariant Accounted create_accounted
    intro s a s' hi _ hs
    exact hi.step hcard hs
  exact ⟨hacc.issued, hacc.waiting, hacc.due, hacc.tokens⟩

/-- A timed wait expires, and a signal comes before its critical section: the wait still
returns with the wake-up, and the semaphore keeps a place that nobody needs. -/
theorem cond_wakeups_accounted_late :
    ∃ s : CondVar (Fin 2), s.pc 0 = .returning true ∧ s.semaphore = 1 ∧ s.numWake = 0 ∧
      s.issued = s.returned + s.numWake := by
  have hrun : (run step Always (create : CondVar (Fin 2))
      [.wait 0 true, .expire 0, .signal 1, .go 1, .go 0]).map
      (fun s => (s.pc 0, s.semaphore, s.numWake)) = some (.returning true, 1, 0) := by
    decide
  obtain ⟨s, hs, hobs⟩ := Option.map_eq_some_iff.mp hrun
  rw [Prod.mk.injEq, Prod.mk.injEq] at hobs
  have hreach := Reach.refl.run _ hs
  have hcard : Fintype.card (Fin 2) ≤ 2 ^ 30 := by simp
  exact ⟨s, hobs.1, hobs.2.1, hobs.2.2, (cond_wakeups_accounted hcard hreach).1⟩

/-! ## Whose the wake-ups are -/

/-- A wake-up does not bring back the generation that a waiting thread began in, which
would take 2^32 wake-ups during one wait. -/
def FreshGeneration (s : CondVar τ) (a : CondAct τ) : Prop :=
  match a with
  | .signal _ | .broadcast _ =>
      ∀ u, InWait (s.pc u) → Eligible (nextGeneration s.generation) (s.pc u)
  | _ => True

instance (s : CondVar τ) (a : CondAct τ) : Decidable (s.FreshGeneration a) := by
  unfold FreshGeneration
  cases a <;> infer_instance

/-- The wake-ups that are due belong to threads that began to wait before they were issued. -/
def Owned (s : CondVar τ) : Prop := s.numWake ≤ s.eligible

/-- One thread moves within a generation. -/
theorem Owned.move {s s' : CondVar τ} (h : s.Owned) (t : τ) (x : CondPc)
    (hpc : s'.pc = Function.update s.pc t x) (hgen : s'.generation = s.generation)
    (hwake : s'.numWake + (if Eligible s.generation (s.pc t) then 1 else 0)
      ≤ s.numWake + (if Eligible s.generation x then 1 else 0)) : s'.Owned := by
  have hphase := phaseCount_update (fun pc => Eligible s.generation pc = true) s.pc t x
  have howned : s.numWake ≤ s.eligible := h
  rw [eligible] at howned
  rw [Owned, eligible, hgen, hpc]
  omega

/-- A wake-up is issued: every thread in a wait may take it. -/
theorem Owned.wake {s : CondVar τ} (hacc : s.Accounted) {t : τ} {n : ℕ} (hpc : s.pc t = .out)
    (hfresh : ∀ u, InWait (s.pc u) → Eligible (nextGeneration s.generation) (s.pc u))
    (hn : s.numWake + n ≤ s.numWaiting) : (s.wake t n).Owned := by
  have hall : (s.wake t n).eligible = phaseCount (fun pc => InWait pc = true) s.pc := by
    rw [eligible, phaseCount, phaseCount]
    congr 1
    apply Finset.filter_congr
    intro u _
    show Eligible (nextGeneration s.generation) (Function.update s.pc t (.releasing n) u) ↔ _
    by_cases hut : u = t
    · rw [hut, Function.update_self, hpc]
      exact Iff.rfl
    · rw [Function.update_of_ne hut]
      refine ⟨?_, hfresh u⟩
      intro he
      cases hu : s.pc u <;> rw [hu] at he <;> first | rfl | cases he
  rw [Owned, hall, ← hacc.waiting]
  exact hn

/-- The critical section in the loop of a wait. -/
theorem Owned.examine {s : CondVar τ} (h : s.Owned) {t : τ} {timed : Bool} {g : ℕ}
    {token : Bool} (hpc : s.pc t = .woken timed g token) : (s.examine t timed g token).Owned := by
  rw [CondVar.examine]
  split_ifs with hwake hg
  · refine h.move t (.returning true) rfl rfl ?_
    have helig : Eligible s.generation (s.pc t) = true := by
      rw [hpc]
      exact decide_eq_true (Ne.symm hg)
    rw [if_pos helig]
    show s.numWake - 1 + 1 ≤ s.numWake + 0
    omega
  · exact h.move t (.giveBack timed g) rfl rfl (by rw [hpc]; exact le_rfl)
  · exact h.move t (.waiting timed g) rfl rfl (by rw [hpc]; exact le_rfl)
  · have hzero : s.numWake = 0 := not_not.mp hwake
    show s.numWake ≤ _
    omega

/-- Releasing the semaphore changes nobody's right to a wake-up. -/
theorem Owned.release {s : CondVar τ} (h : s.Owned) {t : τ} (n : ℕ) {x : CondPc}
    (helig : Eligible s.generation (s.pc t) = Eligible s.generation x) :
    ((s.releaseSemaphore n).moveTo t x).Owned := by
  rw [releaseSemaphore]
  split_ifs <;> exact h.move t x rfl rfl (by rw [helig]; exact le_rfl)

/-- Every step keeps the due wake-ups owned. -/
theorem Owned.step {s s' : CondVar τ} {a : CondAct τ} (h : s.Owned) (hacc : s.Accounted)
    (hfresh : s.FreshGeneration a) (hs : s.step a = some s') : s'.Owned := by
  cases a with
  | wait t timed =>
      rw [CondVar.step] at hs
      split at hs
      · rename_i hout
        cases hs
        refine h.move t (.waiting timed s.generation) rfl rfl ?_
        rw [hout]
        simp [Eligible, moveTo]
      · cases hs
  | acquire t =>
      rw [CondVar.step] at hs
      split at hs
      · rename_i timed g hpc
        split at hs
        · cases hs
        · cases hs
          exact h.move t (.woken timed g true) rfl rfl (by rw [hpc]; exact le_rfl)
      · cases hs
  | expire t =>
      rw [CondVar.step] at hs
      split at hs
      · rename_i g hpc
        cases hs
        exact h.move t (.woken true g false) rfl rfl (by rw [hpc]; exact le_rfl)
      · cases hs
  | go t =>
      rw [CondVar.step] at hs
      split at hs
      · rename_i hpc
        cases hs
        exact h.examine hpc
      · rename_i hpc
        cases hs
        exact h.release 1 (by rw [hpc]; rfl)
      · rename_i ok hpc
        cases hs
        exact h.move t .out rfl rfl (by rw [hpc]; exact le_rfl)
      · rename_i n hpc
        cases hs
        exact h.release n (by rw [hpc]; rfl)
      · cases hs
  | signal t =>
      rw [CondVar.step] at hs
      split at hs
      · rename_i hout
        cases hs
        split_ifs with hlt
        · exact Owned.wake hacc hout hfresh hlt
        · exact h
      · cases hs
  | broadcast t =>
      rw [CondVar.step] at hs
      split at hs
      · rename_i hout
        cases hs
        split_ifs with hlt
        · exact Owned.wake hacc hout hfresh (by omega)
        · exact h
      · cases hs

/-- **No wake-up gets stuck.**  In every run in which no thread sleeps through a whole
round of the generation, and in every state of it in which each thread is outside or
waits for the semaphore: when a wake-up is due, the semaphore lets a thread through that
had begun to wait before the wake-up was issued, and this thread returns with it. -/
theorem due_wakeups_owned (hcard : Fintype.card τ ≤ 2 ^ 30) {s : CondVar τ}
    (h : Reach step FreshGeneration create s)
    (hidle : ∀ t, s.pc t = .out ∨ ∃ timed g, s.pc t = .waiting timed g)
    (hdue : 0 < s.numWake) :
    ∃ t s₁ s₂, s.step (.acquire t) = some s₁ ∧ s₁.step (.go t) = some s₂
      ∧ s₂.pc t = .returning true := by
  have hinv : s.Accounted ∧ s.Owned := by
    apply h.invariant (fun s => s.Accounted ∧ s.Owned) ⟨create_accounted, Nat.zero_le _⟩
    intro s a s' hi hfresh hs
    exact ⟨hi.1.step hcard hs, hi.2.step hi.1 hfresh hs⟩
  -- nobody holds a place of the semaphore, so the due wake-ups are all in it
  have hheld : phaseSum held s.pc = 0 := by
    apply Finset.sum_eq_zero
    intro t _
    rcases hidle t with ht | ⟨timed, g, ht⟩ <;> rw [ht] <;> rfl
  have hsem : s.semaphore ≠ 0 := by
    have htokens := hinv.1.tokens
    omega
  obtain ⟨t, ht⟩ := (phaseCount_pos_iff (fun pc => Eligible s.generation pc = true) s.pc).mp
    (hdue.trans_le hinv.2)
  rcases hidle t with hout | ⟨timed, g, hwait⟩
  · rw [hout] at ht
    cases ht
  · rw [hwait] at ht
    have hg : s.generation ≠ g := Ne.symm (of_decide_eq_true ht)
    let s₁ : CondVar τ := { s.moveTo t (.woken timed g true) with semaphore := s.semaphore - 1 }
    have hpc : s₁.pc t = .woken timed g true := Function.update_self ..
    refine ⟨t, s₁, s₁.examine t timed g true, ?_, ?_, ?_⟩
    · rw [CondVar.step, hwait]
      exact if_neg hsem
    · rw [CondVar.step, hpc]
    · rw [CondVar.examine, if_pos (show s₁.numWake ≠ 0 from hdue.ne'),
        if_pos (show s₁.generation ≠ g from hg)]
      exact Function.update_self ..

/-- One thread waits, one signal is issued and its semaphore released. -/
theorem due_wakeups_owned_one :
    ∃ s : CondVar (Fin 2), s.numWake = 1 ∧
      ∃ t s₁ s₂, s.step (.acquire t) = some s₁ ∧ s₁.step (.go t) = some s₂
        ∧ s₂.pc t = .returning true := by
  have hrun : (run step FreshGeneration (create : CondVar (Fin 2))
      [.wait 0 false, .signal 1, .go 1]).map
      (fun s => (s.pc 0, s.pc 1, s.numWake)) = some (.waiting false 0, .out, 1) := by
    decide
  obtain ⟨s, hs, hobs⟩ := Option.map_eq_some_iff.mp hrun
  rw [Prod.mk.injEq, Prod.mk.injEq] at hobs
  have hidle : ∀ t, s.pc t = .out ∨ ∃ timed g, s.pc t = .waiting timed g := by
    intro t
    fin_cases t
    · exact .inr ⟨false, 0, hobs.1⟩
    · exact .inl hobs.2.1
  have hcard : Fintype.card (Fin 2) ≤ 2 ^ 30 := by simp
  have hdue : 0 < s.numWake := by
    rw [hobs.2.2]
    decide
  exact ⟨s, hobs.2.2, due_wakeups_owned hcard (Reach.refl.run _ hs) hidle hdue⟩

end CondVar

end Zevent.Locks

/-
# The slots a maintenance round forks into (`zevent.c`)

`perform_idle_server_maintenance` collects slots for new children in an array of
`MAX_SPAWN_RATE` cells, those with no living thread in front, and forks into at most
`idle_spawn_rate` of them.  The rate is a static variable that outlives the restarts of the
server: it is doubled by rounds that find too few idle threads and reset by the others.

`maintenance_slots_sound` says what holds of the array and of the rate in every state the
server can come to.
-/
import Zevent.Server.Parent

namespace Zevent.Server

open Interleaving

/-! ## The property -/

/-- What holds of the free slots a round collects, and of the children it forks. -/
structure Parent.SlotsSound (c : Config) (forks : List (Option ℕ)) (s : Parent) : Prop where
  stored : (s.scan c).freeLength ≤ maxSpawnRate
  distinct : ∀ a < (s.scan c).freeLength, ∀ b < (s.scan c).freeLength,
    (s.scan c).freeSlots a = (s.scan c).freeSlots b → a = b
  below : ∀ a < (s.scan c).freeLength, (s.scan c).freeSlots a < c.daemonsLimit
  vacant : ∀ a < (s.scan c).freeLength, (s.sb.parent ((s.scan c).freeSlots a)).pid = 0
    ∨ (s.sb.parent ((s.scan c).freeSlots a)).quiescing = true
  deadFirst : ∀ a < (s.scan c).freeLength, ∀ b < (s.scan c).freeLength,
    s.sb.AllDead c ((s.scan c).freeSlots a) → ¬ s.sb.AllDead c ((s.scan c).freeSlots b) → a < b
  forked : ∃ pids, pids.length ≤ s.idleSpawnRate
    ∧ (performIdleServerMaintenance c forks s).running = pids ++ s.running
  rate : 1 ≤ s.idleSpawnRate ∧ s.idleSpawnRate ≤ maxSpawnRate

/-- A round of the server's loop or a write of a child, under the configuration then in
force, or a restart, which may change everything but the static `idle_spawn_rate`. -/
inductive ServerAction
  | step (c : Config) (a : ParentAction)
  | restart (s : Parent)

/-- One step of the server. -/
def Parent.serve (s : Parent) : ServerAction → Option Parent
  | .step c a => s.step c a
  | .restart s' => some { s' with idleSpawnRate := s.idleSpawnRate }

/-! ## The slots with no living thread -/

section Slots

variable {c : Config} {sb : Scoreboard}

/-- The free list has the slots with no living thread in front of the others. -/
def Scan.Partitioned (c : Config) (sb : Scoreboard) (acc : Scan) : Prop :=
  ∀ a < acc.freeLength, a < acc.totallyFreeLength ↔ sb.AllDead c (acc.freeSlots a)

/-- Adding a slot keeps the order of the free list. -/
theorem Scan.Partitioned.addFree {acc : Scan} {i : ℕ} {allDead : Bool}
    (h : acc.Partitioned c sb) (hle : acc.totallyFreeLength ≤ acc.freeLength)
    (hdead : allDead = true ↔ sb.AllDead c i) : (acc.addFree i allDead).Partitioned c sb := by
  intro a ha
  cases allDead with
  | false =>
      simp only [Scan.addFree, Bool.false_eq_true, if_false] at ha ⊢
      rcases eq_or_ne a acc.freeLength with rfl | hne
      · rw [Function.update_self, ← hdead]
        simp only [Bool.false_eq_true, iff_false]
        omega
      · rw [Function.update_of_ne hne]
        exact h a (by omega)
  | true =>
      simp only [Scan.addFree, if_true] at ha ⊢
      rcases eq_or_ne a acc.totallyFreeLength with rfl | hne
      · rw [Function.update_self, ← hdead]
        simp
      · rw [Function.update_of_ne hne]
        rcases eq_or_ne a acc.freeLength with rfl | hne'
        · -- the slot moved here is one with a living thread
          rw [Function.update_self, ← h _ (by omega)]
          omega
        · rw [Function.update_of_ne hne', ← h a (by omega)]
          omega

/-- **Step lemma.** -/
theorem Scan.Partitioned.scanSlot {acc : Scan} {rate : ℕ} (hs : acc.Sound c sb)
    (h : acc.Partitioned c sb) : (scanSlot c sb rate acc).Partitioned c sb := by
  have hfree : (if acc.Takes (sb.parent acc.looked)
      (scanThreads c sb acc.looked acc.idleThreadCount acc.activeThreadCount) rate
      then acc.addFree acc.looked (scanThreads c sb acc.looked acc.idleThreadCount
        acc.activeThreadCount).allDeadThreads
      else acc).Partitioned c sb := by
    split
    · exact h.addFree hs.free.totallyFree_le (scanThreads_allDead ..)
    · exact h
  exact hfree

theorem scanSlots_partitioned {acc : Scan} {maxDaemonsLimit : ℤ} {rate : ℕ}
    (hs : acc.Sound c sb) (h : acc.Partitioned c sb) (rest : ℕ) :
    (scanSlots c sb maxDaemonsLimit rate rest acc).Partitioned c sb := by
  induction rest generalizing acc with
  | zero => exact h
  | succ rest ih =>
      rw [scanSlots]
      split
      · exact h
      · exact ih (scanSlot_sound hs) (h.scanSlot hs)

theorem scanScoreboard_partitioned {maxDaemonsLimit : ℤ} {rate : ℕ} :
    (scanScoreboard c sb maxDaemonsLimit rate).Partitioned c sb :=
  scanSlots_partitioned Scan.start_sound (fun a ha => absurd ha (Nat.not_lt_zero a)) _

end Slots

/-! ## The children and the rate -/

section Forks

variable {c : Config} {s : Parent}

/-- `make_child` forks at most one child. -/
theorem makeChild_running (slot : ℕ) (fork : Option ℕ) :
    (makeChild c s slot fork).1.running = fork.toList ++ s.running := by
  cases fork <;> rfl

/-- The loop forks at most one child a slot. -/
theorem spawnChildren_running (l : List (ℕ × Option ℕ)) :
    ∃ pids, pids.length ≤ l.length ∧ (spawnChildren c s l).running = pids ++ s.running := by
  induction l generalizing s with
  | nil => exact ⟨[], le_rfl, rfl⟩
  | cons x l ih =>
      obtain ⟨pids, hlen, hrun⟩ := ih (s := (makeChild c s x.1 x.2).1)
      refine ⟨pids ++ x.2.toList, ?_, ?_⟩
      · have hone : x.2.toList.length ≤ 1 := by cases x.2 <;> simp
        rw [List.length_append, List.length_cons]
        omega
      · rw [spawnChildren, List.foldl_cons, ← spawnChildren, hrun, makeChild_running,
          List.append_assoc]

theorem length_spawnList (scan : Scan) (rate : ℕ) (forks : List (Option ℕ)) :
    (spawnList scan rate forks).length ≤ rate := by
  rw [spawnList, List.length_map, List.length_range]
  split <;> omega

/-- A round forks no more children than its rate. -/
theorem maintenance_running (forks : List (Option ℕ)) :
    ∃ pids, pids.length ≤ s.idleSpawnRate
      ∧ (performIdleServerMaintenance c forks s).running = pids ++ s.running := by
  obtain hround | hround | ⟨-, holdOff, rate, -, hround⟩ := maintenance_cases c forks s
  · exact ⟨[], Nat.zero_le _, by rw [hround]; rfl⟩
  · exact ⟨[], Nat.zero_le _, by rw [hround]; rfl⟩
  · obtain ⟨pids, hlen, hrun⟩ := spawnChildren_running (c := c) (s := s.scanned c)
      (spawnList (s.scan c) s.idleSpawnRate forks)
    refine ⟨pids, hlen.trans (length_spawnList ..), ?_⟩
    rw [hround]
    exact hrun

/-- The rates there are: the powers of two up to `MAX_SPAWN_RATE`. -/
def RateOk (rate : ℕ) : Prop := ∃ k ≤ 5, rate = 2 ^ k

theorem RateOk.one : RateOk 1 := ⟨0, by omega, rfl⟩

/-- Doubling below the maximum does not pass it. -/
theorem RateOk.double {rate : ℕ} (h : RateOk rate) (hlt : rate < maxSpawnRate) :
    RateOk (rate * 2) := by
  obtain ⟨k, -, rfl⟩ := h
  have hk : k < 5 := (Nat.pow_lt_pow_iff_right (by omega : 1 < 2)).mp (hlt.trans_eq rfl)
  exact ⟨k + 1, hk, (pow_succ 2 k).symm⟩

theorem RateOk.bounds {rate : ℕ} (h : RateOk rate) : 1 ≤ rate ∧ rate ≤ maxSpawnRate := by
  obtain ⟨k, hk, rfl⟩ := h
  exact ⟨Nat.one_le_two_pow, (Nat.pow_le_pow_right (by omega) hk).trans_eq rfl⟩

/-- A round leaves one of these rates. -/
theorem RateOk.maintenance (h : RateOk s.idleSpawnRate) (forks : List (Option ℕ)) :
    RateOk (performIdleServerMaintenance c forks s).idleSpawnRate := by
  obtain hround | hround | ⟨-, holdOff, rate, hrate, hround⟩ := maintenance_cases c forks s
  · rw [hround]
    exact h
  · rw [hround]
    exact .one
  · rw [hround]
    rcases hrate with rfl | ⟨hlt, rfl⟩
    · exact h
    · exact h.double hlt

theorem RateOk.startupChildren (h : RateOk s.idleSpawnRate) (forks : List (Option ℕ))
    (numberToStart : ℕ) : RateOk (startupChildren c forks numberToStart s).idleSpawnRate :=
  startupChildren_rule (P := fun s => RateOk s.idleSpawnRate)
    (fun _ _ _ _ h => by rwa [makeChild_rate]) _ h

/-- The death of a child resets the rate or leaves it. -/
theorem RateOk.childDeath (h : RateOk s.idleSpawnRate) (pid : ℕ) (exit : ExitStatus)
    (fork : Option ℕ) : RateOk (childDeath c s pid exit fork).idleSpawnRate := by
  rw [Server.childDeath]
  simp only
  split
  · exact h
  · split
    · exact h
    · rw [replaceChild]
      simp only
      split_ifs
      · exact .one
      · rwa [makeChild_rate]
      · exact h

/-- **Step lemma.** -/
theorem RateOk.serve {s' : Parent} (h : RateOk s.idleSpawnRate) {a : ServerAction}
    (hs : s.serve a = some s') : RateOk s'.idleSpawnRate := by
  cases a with
  | restart s₁ =>
      obtain rfl := Option.some.inj hs
      exact h
  | step c a =>
      rw [Parent.serve] at hs
      cases a with
      | timeout forks =>
          rw [Parent.step] at hs
          split_ifs at hs with hok hstart
          · obtain rfl := Option.some.inj hs
            exact h.startupChildren forks _
          · obtain rfl := Option.some.inj hs
            exact h.maintenance forks
      | reap pid exit fork =>
          rw [Parent.step] at hs
          split_ifs at hs
          obtain rfl := Option.some.inj hs
          exact h.childDeath pid exit fork
      | status childNum threadNum st =>
          rw [Parent.step] at hs
          split_ifs at hs
          obtain rfl := Option.some.inj hs
          exact h
      | quiesce childNum =>
          rw [Parent.step] at hs
          split_ifs at hs
          obtain rfl := Option.some.inj hs
          exact h

/-- **Run lemma.** -/
theorem rateOk_of_reach {s₀ : Parent} (h₀ : s₀.idleSpawnRate = 1)
    (h : Reach Parent.serve Always s₀ s) : RateOk s.idleSpawnRate := by
  refine h.invariant (fun s => RateOk s.idleSpawnRate) (h₀ ▸ .one) ?_
  intro s a s' hs _ hstep
  exact hs.serve hstep

end Forks

/-! ## Over every run -/

/-- **A round picks sound slots.**  Whatever the scoreboard holds, and whatever rounds and
restarts went before, the next maintenance round stores at most `MAX_SPAWN_RATE` slots; they
are distinct, below the daemons limit, have no process or one that is going away, and those
with no living thread come first; it forks at most `idle_spawn_rate` children, and the rate is
from one to `MAX_SPAWN_RATE`. -/
theorem maintenance_slots_sound {s₀ s : Parent} (h₀ : s₀.idleSpawnRate = 1)
    (h : Reach Parent.serve Always s₀ s) (c : Config) (forks : List (Option ℕ)) :
    s.SlotsSound c forks := by
  have hsound : (s.scan c).Sound c s.sb := scanScoreboard_sound
  have hpart : (s.scan c).Partitioned c s.sb := scanScoreboard_partitioned
  refine ⟨hsound.free.free_le, hsound.free.distinct, fun a ha => ?_,
    fun a ha => (hsound.free.eligible a ha).2, fun a ha b hb hdead hlives => ?_,
    maintenance_running forks, (rateOk_of_reach h₀ h).bounds⟩
  · exact (hsound.free.free_lt a ha).trans_le scanScoreboard_looked_le
  · have hfront := (hpart a ha).mpr hdead
    have hback := mt (hpart b hb).mp hlives
    omega

/-- A round after one that has doubled the rate. -/
theorem maintenance_slots_sound_doubled :
    ∃ s : Parent, s.idleSpawnRate = 2 ∧ s.SlotsSound (twoThreads 4) [some 9] := by
  have hrun : (run Parent.serve Always freshParent
      [.step (twoThreads 4) (.timeout [some 7]), .step (twoThreads 4) (.timeout [some 8])]).map
      Parent.idleSpawnRate = some 2 := by
    decide
  obtain ⟨s, hs, hrate⟩ := Option.map_eq_some_iff.mp hrun
  exact ⟨s, hrate, maintenance_slots_sound rfl (Reach.refl.run _ hs) (twoThreads 4) [some 9]⟩

end Zevent.Server

/-
# The parent process (`zevent.c`, `scoreboard.c`, `zevent_mpm.c`)

`make_child`, `startup_children`, `perform_idle_server_maintenance` and the loop of
`server_main_loop`, as steps on the parent's state.  What the operating system decides is
part of the action: the results of `fork`, and which child is reaped with which exit code.
The children write the scoreboard at any time, so their writes are actions of their own.

Two things about every run are looked at:

* whether every child that runs is recorded, in a slot or in the list of extra processes;
  `zevent_register_extra_mpm_process` exists for a child whose slot is taken over, but
  nothing calls it;
* whether the high-water mark `zevent_max_daemons_limit`, "the max child slot ever
  assigned", stays above every slot in use; the maintenance recomputes it from the
  statuses of the threads.

Each fails in one situation (`forgotten_child_run`, `uncovered_slot_run`), and holds in
every run that avoids it (`children_recorded`, `used_slots_covered`).
-/
import Zevent.Lib.Interleaving
import Zevent.Server.Scoreboard

namespace Zevent.Server

open Interleaving

/-- The parent's state.  `running` (the children forked and not yet reaped) and
`overwritten` (the running ones whose pid `make_child` wrote over) are only observed. -/
structure Parent where
  sb : Scoreboard
  maxDaemonsLimit : ℤ
  idleSpawnRate : ℕ
  holdOffOnExponentialSpawning : ℕ
  sickChildDetected : Bool
  shutdownPending : Bool
  childFatal : Bool
  remainingChildrenToStart : ℕ
  extras : List ℕ
  running : List ℕ
  overwritten : List ℕ

/-! ## The functions of the source -/

/-- `zevent_update_child_status_from_indexes`. -/
def zeventUpdateChildStatusFromIndexes (c : Config) (sb : Scoreboard) (childNum threadNum : ℕ)
    (status : ServerStatus) : Scoreboard where
  servers := Function.update sb.servers childNum
    (Function.update (sb.servers childNum) threadNum status)
  parent :=
    if status = .ready ∧ sb.servers childNum threadNum = .starting then
      Function.update sb.parent childNum
        { sb.parent childNum with generation := c.myGeneration }
    else sb.parent

/-- `make_child` for a server that is not in debug mode; `fork` is the pid the call of
`fork` returns, `none` when it fails.  The flag is set on success. -/
def makeChild (c : Config) (s : Parent) (slot : ℕ) (fork : Option ℕ) : Parent × Bool :=
  let s := { s with
    maxDaemonsLimit := if (slot : ℤ) + 1 > s.maxDaemonsLimit then slot + 1
      else s.maxDaemonsLimit }
  match fork with
  | none =>
      ({ s with sb := zeventUpdateChildStatusFromIndexes c s.sb slot 0 .dead }, false)
  | some pid =>
      ({ s with
          sb := { s.sb with
            parent := Function.update s.sb.parent slot
              { s.sb.parent slot with quiescing := false, pid := pid } }
          running := pid :: s.running
          overwritten := if (s.sb.parent slot).pid ∈ s.running
            then (s.sb.parent slot).pid :: s.overwritten else s.overwritten }, true)

/-- The loop of `startup_children` from slot `i` on; the first argument is the number of
slots left.  The result of the fork for slot `i` is the `i`-th of `forks`. -/
def startupLoop (c : Config) (forks : List (Option ℕ)) : ℕ → ℕ → ℕ → Parent → Parent
  | 0, _, _, s => s
  | rest + 1, i, numberToStart, s =>
      if numberToStart = 0 then s
      else if (s.sb.parent i).pid ≠ 0 then startupLoop c forks rest (i + 1) numberToStart s
      else
        let r := makeChild c s i (forks.getD i none)
        if r.2 then startupLoop c forks rest (i + 1) (numberToStart - 1) r.1 else r.1

/-- `startup_children`. -/
def startupChildren (c : Config) (forks : List (Option ℕ)) (numberToStart : ℕ) (s : Parent) :
    Parent :=
  startupLoop c forks c.daemonsLimit 0 numberToStart s

/-- The loop `make_child(free_slots[i])`, over the slots and the results of the forks. -/
def spawnChildren (c : Config) (s : Parent) (l : List (ℕ × Option ℕ)) : Parent :=
  l.foldl (fun s x => (makeChild c s x.1 x.2).1) s

/-- The slots a round forks into, with the results of the forks. -/
def spawnList (scan : Scan) (idleSpawnRate : ℕ) (forks : List (Option ℕ)) :
    List (ℕ × Option ℕ) :=
  (List.range (if scan.freeLength > idleSpawnRate then idleSpawnRate else scan.freeLength)).map
    fun i => (scan.freeSlots i, forks.getD i none)

/-- The scan of the next maintenance round. -/
def Parent.scan (c : Config) (s : Parent) : Scan :=
  scanScoreboard c s.sb s.maxDaemonsLimit s.idleSpawnRate

/-- `perform_idle_server_maintenance`.  (Telling one child to die when there are too many
idle threads only shows in what that child does.) -/
def performIdleServerMaintenance (c : Config) (forks : List (Option ℕ)) (s : Parent) : Parent :=
  let scan := s.scan c
  if s.sickChildDetected = true ∧ scan.activeThreadCount = 0 then
    { s with shutdownPending := true, childFatal := true }
  else
    let s := { s with sickChildDetected := false, maxDaemonsLimit := scan.lastNonDead + 1 }
    if scan.idleThreadCount > c.maxSpareThreads then { s with idleSpawnRate := 1 }
    else if scan.idleThreadCount < c.minSpareThreads then
      if scan.freeLength = 0 then { s with idleSpawnRate := 1 }
      else
        let s := spawnChildren c s (spawnList scan s.idleSpawnRate forks)
        if s.holdOffOnExponentialSpawning ≠ 0 then
          { s with holdOffOnExponentialSpawning := s.holdOffOnExponentialSpawning - 1 }
        else if s.idleSpawnRate < maxSpawnRate then
          { s with idleSpawnRate := s.idleSpawnRate * 2 }
        else s
    else { s with idleSpawnRate := 1 }

/-- `find_child_by_pid`; `none` is the return value -1. -/
def findChildByPid (c : Config) (sb : Scoreboard) (pid : ℕ) : Option ℕ :=
  (List.range c.daemonsLimit).find? fun i => (sb.parent i).pid = pid

/-- How a child exited, as `zevent_process_child_status` reports it. -/
inductive ExitStatus
  | normal | childSick | childFatal
deriving DecidableEq, Repr

/-- The slot of a dead child is cleared. -/
def clearSlot (c : Config) (sb : Scoreboard) (slot : ℕ) : Scoreboard where
  servers := Function.update sb.servers slot fun j =>
    if j < c.threadsPerChild then .dead else sb.servers slot j
  parent := Function.update sb.parent slot
    { sb.parent slot with pid := 0, quiescing := false }

/-- The block of `server_main_loop` for a dead child whose slot was found. -/
def replaceChild (c : Config) (s : Parent) (childSlot : ℕ) (exit : ExitStatus)
    (fork : Option ℕ) : Parent :=
  let s := { s with sb := clearSlot c s.sb childSlot }
  if exit = .childSick then { s with idleSpawnRate := 1 }
  else if s.remainingChildrenToStart ≠ 0 ∧ childSlot < c.daemonsLimit then
    let s := (makeChild c s childSlot fork).1
    { s with remainingChildrenToStart := s.remainingChildrenToStart - 1 }
  else s

/-- The body of `server_main_loop` for a child that was reaped. -/
def childDeath (c : Config) (s : Parent) (pid : ℕ) (exit : ExitStatus) (fork : Option ℕ) :
    Parent :=
  let s := { s with running := s.running.filter (· ≠ pid) }
  if exit = .childFatal then { s with shutdownPending := true, childFatal := true }
  else
    let s := { s with
      sickChildDetected := if exit = .childSick then true else s.sickChildDetected }
    match findChildByPid c s.sb pid with
    | none => s
    | some childSlot => replaceChild c s childSlot exit fork

/-! ## Runs -/

/-- A round of `server_main_loop`, or a write of a child to the scoreboard: a timeout, the
death of a child, a thread's status, and the listener's note that its process is going
down. -/
inductive ParentAction
  | timeout (forks : List (Option ℕ))
  | reap (pid : ℕ) (exit : ExitStatus) (fork : Option ℕ)
  | status (childNum threadNum : ℕ) (st : ServerStatus)
  | quiesce (childNum : ℕ)

/-- The pids `fork` returns are not zero, not those of running children, and different
from each other. -/
def ForksFresh (running : List ℕ) (forks : List (Option ℕ)) : Prop :=
  (forks.filterMap id).Nodup ∧ ∀ p ∈ forks.filterMap id, p ≠ 0 ∧ p ∉ running

instance (running : List ℕ) (forks : List (Option ℕ)) : Decidable (ForksFresh running forks) :=
  inferInstanceAs (Decidable (_ ∧ ∀ p ∈ _, _))

/-- One step of the parent or of a child. -/
def Parent.step (c : Config) (s : Parent) : ParentAction → Option Parent
  | .timeout forks =>
      if s.shutdownPending = false ∧ ForksFresh s.running forks then
        if s.remainingChildrenToStart ≠ 0 then
          some { startupChildren c forks s.remainingChildrenToStart s with
            remainingChildrenToStart := 0 }
        else some (performIdleServerMaintenance c forks s)
      else none
  | .reap pid exit fork =>
      if s.shutdownPending = false ∧ pid ∈ s.running
          ∧ ForksFresh (s.running.filter (· ≠ pid)) [fork] then
        some (childDeath c s pid exit fork)
      else none
  | .status childNum threadNum st =>
      if childNum < c.daemonsLimit ∧ threadNum < c.threadsPerChild then
        some { s with sb := zeventUpdateChildStatusFromIndexes c s.sb childNum threadNum st }
      else none
  | .quiesce childNum =>
      if childNum < c.daemonsLimit then
        some { s with sb := { s.sb with
          parent := Function.update s.sb.parent childNum
            { s.sb.parent childNum with quiescing := true } } }
      else none

/-- The state before the first child is started, whatever the statuses of the threads. -/
structure Parent.Initial (s : Parent) : Prop where
  pid : ∀ i, (s.sb.parent i).pid = 0
  running : s.running = []
  extras : s.extras = []
  overwritten : s.overwritten = []
  maxDaemonsLimit : s.maxDaemonsLimit = -1

/-- A configuration with two threads a child. -/
def twoThreads (daemonsLimit : ℕ) : Config where
  daemonsLimit := daemonsLimit
  threadsPerChild := 2
  minSpareThreads := 3
  maxSpareThreads := 5
  myGeneration := 0

/-- A parent that has one child to start. -/
def freshParent : Parent where
  sb := { parent := fun _ => ⟨0, 0, false⟩, servers := fun _ _ => .dead }
  maxDaemonsLimit := -1
  idleSpawnRate := 1
  holdOffOnExponentialSpawning := 0
  sickChildDetected := false
  shutdownPending := false
  childFatal := false
  remainingChildrenToStart := 1
  extras := []
  running := []
  overwritten := []

theorem freshParent_initial : freshParent.Initial :=
  ⟨fun _ => rfl, rfl, rfl, rfl, rfl⟩

/-- The child in slot 0 starts its two threads. -/
def childStarts : List ParentAction :=
  [.status 0 0 .starting, .status 0 1 .starting, .status 0 0 .ready, .status 0 1 .ready]

/-! ## What a round does -/

section Rounds

variable {c : Config} {s : Parent}

/-- What `make_child` keeps in the slots that are empty, `startup_children` keeps. -/
theorem startupChildren_rule {P : Parent → Prop} {forks : List (Option ℕ)}
    (hP : ∀ s i, i < c.daemonsLimit → (s.sb.parent i).pid = 0 → P s →
      P (makeChild c s i (forks.getD i none)).1)
    (numberToStart : ℕ) (h : P s) : P (startupChildren c forks numberToStart s) := by
  suffices hloop : ∀ rest i numberToStart s, i + rest ≤ c.daemonsLimit → P s →
      P (startupLoop c forks rest i numberToStart s) from
    hloop c.daemonsLimit 0 numberToStart s (by omega) h
  intro rest
  induction rest with
  | zero => exact fun _ _ _ _ h => h
  | succ rest ih =>
      intro i numberToStart s hrest h
      rw [startupLoop]
      simp only
      split_ifs with hzero hused hok
      · exact h
      · exact ih (i + 1) numberToStart s (by omega) h
      · exact ih (i + 1) (numberToStart - 1) _ (by omega)
          (hP s i (by omega) (not_not.mp hused) h)
      · exact hP s i (by omega) (not_not.mp hused) h

theorem makeChild_rate (slot : ℕ) (fork : Option ℕ) :
    (makeChild c s slot fork).1.idleSpawnRate = s.idleSpawnRate := by
  cases fork <;> rfl

theorem spawnChildren_rate (l : List (ℕ × Option ℕ)) :
    (spawnChildren c s l).idleSpawnRate = s.idleSpawnRate := by
  induction l generalizing s with
  | nil => rfl
  | cons x l ih => rw [spawnChildren, List.foldl_cons, ← spawnChildren, ih, makeChild_rate]

/-- The state a maintenance round goes on with when it has looked at the slots. -/
def Parent.scanned (c : Config) (s : Parent) : Parent :=
  { s with sickChildDetected := false, maxDaemonsLimit := (s.scan c).lastNonDead + 1 }

/-- **What a maintenance round does.**  It gives up, or it resets the rate, or it forks into
free slots and then may double the rate. -/
theorem maintenance_cases (c : Config) (forks : List (Option ℕ)) (s : Parent) :
    performIdleServerMaintenance c forks s = { s with shutdownPending := true, childFatal := true }
    ∨ performIdleServerMaintenance c forks s = { s.scanned c with idleSpawnRate := 1 }
    ∨ (s.scan c).idleThreadCount < c.minSpareThreads ∧ ∃ holdOff rate,
        (rate = s.idleSpawnRate ∨ s.idleSpawnRate < maxSpawnRate ∧ rate = s.idleSpawnRate * 2)
        ∧ performIdleServerMaintenance c forks s
          = { spawnChildren c (s.scanned c) (spawnList (s.scan c) s.idleSpawnRate forks) with
              holdOffOnExponentialSpawning := holdOff
              idleSpawnRate := rate } := by
  have hrate := spawnChildren_rate (c := c) (s := s.scanned c)
    (spawnList (s.scan c) s.idleSpawnRate forks)
  rw [performIdleServerMaintenance]
  simp only
  split_ifs with hsick hmany hfew hnone hhold hlt
  · exact .inl rfl
  · exact .inr (.inl rfl)
  · exact .inr (.inl rfl)
  · exact .inr (.inr ⟨hfew, _, _, .inl hrate, rfl⟩)
  · exact .inr (.inr ⟨hfew, _, _, .inr ⟨hrate ▸ hlt, congrArg (· * 2) hrate⟩, rfl⟩)
  · exact .inr (.inr ⟨hfew, _, _, .inl hrate, rfl⟩)
  · exact .inr (.inl rfl)

end Rounds

/-! ## Every running child is recorded -/

section Recorded

variable {c : Config} {s s' : Parent}

/-- Every running child is in a slot or among the extra processes, and no pid of a running
child has been written over. -/
structure Parent.Recorded (c : Config) (s : Parent) : Prop where
  running_pos : 0 ∉ s.running
  recorded : ∀ p ∈ s.running, (∃ i < c.daemonsLimit, (s.sb.parent i).pid = p) ∨ p ∈ s.extras
  overwritten : s.overwritten = []

/-- A status update leaves every pid. -/
@[simp] theorem zeventUpdateChildStatus_pid (sb : Scoreboard) (i j k : ℕ) (st : ServerStatus) :
    ((zeventUpdateChildStatusFromIndexes c sb i j st).parent k).pid = (sb.parent k).pid := by
  simp only [zeventUpdateChildStatusFromIndexes]
  split
  · rcases eq_or_ne k i with rfl | hne
    · rw [Function.update_self]
    · rw [Function.update_of_ne hne]
  · rfl

/-- `make_child` leaves the pid of every other slot. -/
theorem makeChild_pid_of_ne {slot k : ℕ} (fork : Option ℕ) (hne : k ≠ slot) :
    ((makeChild c s slot fork).1.sb.parent k).pid = (s.sb.parent k).pid := by
  cases fork with
  | none => simp [makeChild]
  | some pid => simp only [makeChild, Function.update_of_ne hne]

/-- **`make_child` in an empty slot keeps every running child recorded.** -/
theorem Parent.Recorded.makeChild {slot : ℕ} {fork : Option ℕ} (h : s.Recorded c)
    (hslot : slot < c.daemonsLimit) (hempty : (s.sb.parent slot).pid = 0)
    (hfork : fork ≠ some 0) : (makeChild c s slot fork).1.Recorded c := by
  cases fork with
  | none =>
      refine ⟨h.running_pos, fun p hp => ?_, h.overwritten⟩
      rcases h.recorded p hp with ⟨i, hi, hpid⟩ | hextra
      · exact .inl ⟨i, hi, by simpa [Server.makeChild] using hpid⟩
      · exact .inr hextra
  | some pid =>
      have hnew : ((Server.makeChild c s slot (some pid)).1.sb.parent slot).pid = pid := by
        simp [Server.makeChild]
      refine ⟨?_, fun p hp => ?_, ?_⟩
      · intro hmem
        rcases List.mem_cons.mp hmem with hz | hmem
        · exact hfork (by rw [← hz])
        · exact h.running_pos hmem
      · rcases List.mem_cons.mp hp with rfl | hp
        · exact .inl ⟨slot, hslot, hnew⟩
        · rcases h.recorded p hp with ⟨i, hi, hpid⟩ | hextra
          · -- the slot of a running child is not the empty one
            have hne : i ≠ slot := by
              rintro rfl
              rw [hempty] at hpid
              exact h.running_pos (hpid ▸ hp)
            exact .inl ⟨i, hi, by rw [makeChild_pid_of_ne _ hne, hpid]⟩
          · exact .inr hextra
      · simp only [Server.makeChild, hempty, if_neg h.running_pos, h.overwritten]

/-- The results of fresh forks are never a pid of zero. -/
theorem ForksFresh.getD_ne {running : List ℕ} {forks : List (Option ℕ)}
    (h : ForksFresh running forks) (i : ℕ) : forks.getD i none ≠ some 0 := by
  intro hz
  rw [List.getD_eq_getElem?_getD] at hz
  have hmem : some 0 ∈ forks := by
    rcases hget : forks[i]? with _ | x
    · rw [hget] at hz
      simp at hz
    · rw [hget, Option.getD_some] at hz
      exact hz ▸ List.mem_of_getElem? hget
  exact (h.2 0 (List.mem_filterMap.mpr ⟨some 0, hmem, rfl⟩)).1 rfl

theorem Parent.Recorded.startupChildren {forks : List (Option ℕ)}
    (hforks : ∀ i, forks.getD i none ≠ some 0) (numberToStart : ℕ) (h : s.Recorded c) :
    (startupChildren c forks numberToStart s).Recorded c :=
  startupChildren_rule (fun _ i hlt hempty h => h.makeChild hlt hempty (hforks i)) _ h

/-- Forking into distinct empty slots. -/
theorem Parent.Recorded.spawnChildren {l : List (ℕ × Option ℕ)} (hnodup : (l.map Prod.fst).Nodup)
    (hslots : ∀ x ∈ l, x.1 < c.daemonsLimit ∧ (s.sb.parent x.1).pid = 0 ∧ x.2 ≠ some 0)
    (h : s.Recorded c) : (spawnChildren c s l).Recorded c := by
  induction l generalizing s with
  | nil => exact h
  | cons x l ih =>
      rw [List.map_cons, List.nodup_cons] at hnodup
      obtain ⟨hlt, hempty, hfork⟩ := hslots x List.mem_cons_self
      refine ih hnodup.2 (fun y hy => ?_) (h.makeChild hlt hempty hfork)
      obtain ⟨hlt', hempty', hfork'⟩ := hslots y (List.mem_cons_of_mem _ hy)
      refine ⟨hlt', ?_, hfork'⟩
      rw [makeChild_pid_of_ne _ ?_, hempty']
      intro heq
      exact hnodup.1 (heq ▸ List.mem_map_of_mem hy)

/-- The slots a round forks into are distinct. -/
theorem spawnList_nodup {sb : Scoreboard} {scan : Scan} (hscan : scan.Sound c sb) (rate : ℕ)
    (forks : List (Option ℕ)) : ((spawnList scan rate forks).map Prod.fst).Nodup := by
  rw [spawnList, List.map_map]
  refine List.Nodup.map_on ?_ List.nodup_range
  intro a ha b hb hab
  rw [List.mem_range] at ha hb
  split_ifs at ha hb with hcut
  · exact hscan.free.distinct a (by omega) b (by omega) hab
  · exact hscan.free.distinct a ha b hb hab

/-- The slots a round forks into are on the free list of the scan. -/
theorem mem_spawnList {scan : Scan} {rate : ℕ} {forks : List (Option ℕ)} {x : ℕ × Option ℕ}
    (hx : x ∈ spawnList scan rate forks) :
    ∃ a < scan.freeLength, x = (scan.freeSlots a, forks.getD a none) := by
  rw [spawnList, List.mem_map] at hx
  obtain ⟨a, ha, rfl⟩ := hx
  rw [List.mem_range] at ha
  refine ⟨a, ?_, rfl⟩
  split_ifs at ha with hcut
  · omega
  · exact ha

/-- The condition on a maintenance round that finds too few idle threads: no slot holds a
process that is going down and has a dead thread. -/
def Parent.NoQuiescingSlot (c : Config) (s : Parent) : ParentAction → Prop
  | .timeout _ => s.remainingChildrenToStart = 0 →
      (s.scan c).idleThreadCount < c.minSpareThreads →
      ∀ i < c.daemonsLimit, s.sb.AnyDead c i → (s.sb.parent i).pid ≠ 0 →
        (s.sb.parent i).quiescing = false
  | _ => True

instance (c : Config) (s : Parent) (a : ParentAction) : Decidable (s.NoQuiescingSlot c a) :=
  match a with
  | .timeout _ => inferInstanceAs (Decidable (_ → _ → ∀ i < _, _))
  | .reap .. => inferInstanceAs (Decidable True)
  | .status .. => inferInstanceAs (Decidable True)
  | .quiesce _ => inferInstanceAs (Decidable True)

/-- Changing what is neither recorded nor observed keeps the children recorded. -/
theorem Parent.Recorded.congr (h : s.Recorded c)
    (hpid : ∀ i, (s'.sb.parent i).pid = (s.sb.parent i).pid) (hrun : s'.running = s.running)
    (hextras : s'.extras = s.extras) (hover : s'.overwritten = s.overwritten) :
    s'.Recorded c := by
  refine ⟨hrun ▸ h.running_pos, fun p hp => ?_, hover.trans h.overwritten⟩
  rw [hextras]
  simp only [hpid]
  exact h.recorded p (hrun ▸ hp)

/-- **A maintenance round under the condition keeps every running child recorded.** -/
theorem Parent.Recorded.maintenance {forks : List (Option ℕ)} (h : s.Recorded c)
    (hforks : ForksFresh s.running forks) (hrem : s.remainingChildrenToStart = 0)
    (hok : s.NoQuiescingSlot c (.timeout forks)) :
    (performIdleServerMaintenance c forks s).Recorded c := by
  have hscan : (s.scan c).Sound c s.sb := scanScoreboard_sound
  have hlooked : (s.scan c).looked ≤ c.daemonsLimit := scanScoreboard_looked_le
  have hbase : (s.scanned c).Recorded c := h.congr (fun _ => rfl) rfl rfl rfl
  obtain hrun | hrun | ⟨hfew, holdOff, rate, -, hrun⟩ := maintenance_cases c forks s
  · rw [hrun]
    exact h.congr (fun _ => rfl) rfl rfl rfl
  · rw [hrun]
    exact hbase.congr (fun _ => rfl) rfl rfl rfl
  · rw [hrun]
    refine (hbase.spawnChildren (spawnList_nodup hscan s.idleSpawnRate forks) fun x hx => ?_).congr
      (fun _ => rfl) rfl rfl rfl
    obtain ⟨a, ha, rfl⟩ := mem_spawnList hx
    have hlt := hscan.free.free_lt a ha
    obtain ⟨hdead, hslot⟩ := hscan.free.eligible a ha
    refine ⟨by omega, ?_, hforks.getD_ne a⟩
    by_contra hused
    rcases hslot with hempty | hquiescing
    · exact hused hempty
    · have hnot := hok hrem hfew _ (by omega) hdead hused
      rw [hnot] at hquiescing
      exact Bool.false_ne_true hquiescing

/-- `find_child_by_pid` finds a slot below the limit that has the pid. -/
theorem findChildByPid_spec {sb : Scoreboard} {pid slot : ℕ}
    (h : findChildByPid c sb pid = some slot) :
    slot < c.daemonsLimit ∧ (sb.parent slot).pid = pid :=
  ⟨List.mem_range.mp (List.mem_of_find?_eq_some h), by simpa using List.find?_some h⟩

/-- Clearing the slot of a child that was reaped loses no other child. -/
theorem Parent.Recorded.clearSlot {pid slot : ℕ} (h : s.Recorded c)
    (hslot : (s.sb.parent slot).pid = pid) (hgone : pid ∉ s.running) :
    ({ s with sb := clearSlot c s.sb slot } : Parent).Recorded c := by
  refine ⟨h.running_pos, fun p hp => ?_, h.overwritten⟩
  rcases h.recorded p hp with ⟨i, hi, hpid⟩ | hextra
  · have hne : i ≠ slot := by
      rintro rfl
      exact hgone (by rw [← hslot, hpid]; exact hp)
    exact .inl ⟨i, hi, by simpa [Server.clearSlot, Function.update_of_ne hne] using hpid⟩
  · exact .inr hextra

theorem Parent.Recorded.replaceChild {pid slot : ℕ} {exit : ExitStatus} {fork : Option ℕ}
    (h : s.Recorded c) (hslot : (s.sb.parent slot).pid = pid) (hgone : pid ∉ s.running)
    (hfork : fork ≠ some 0) : (replaceChild c s slot exit fork).Recorded c := by
  have hclear := h.clearSlot hslot hgone
  rw [Server.replaceChild]
  simp only
  split_ifs with hsick hmore
  · exact hclear.congr (fun _ => rfl) rfl rfl rfl
  · refine (hclear.makeChild hmore.2 ?_ hfork).congr (fun _ => rfl) rfl rfl rfl
    simp [Server.clearSlot]
  · exact hclear

/-- **Reaping a child keeps the others recorded.** -/
theorem Parent.Recorded.childDeath {pid : ℕ} {exit : ExitStatus} {fork : Option ℕ}
    (h : s.Recorded c) (hfork : fork ≠ some 0) : (childDeath c s pid exit fork).Recorded c := by
  have hgone : pid ∉ s.running.filter (· ≠ pid) := by simp
  have hreap : ∀ sick : Bool, ({ s with
      running := s.running.filter (· ≠ pid), sickChildDetected := sick } : Parent).Recorded c := by
    intro sick
    refine ⟨fun hz => h.running_pos (List.mem_of_mem_filter hz), fun p hp => ?_, h.overwritten⟩
    exact h.recorded p (List.mem_of_mem_filter hp)
  rw [Server.childDeath]
  simp only
  generalize (if exit = .childSick then true else s.sickChildDetected) = sick
  split
  · exact (hreap s.sickChildDetected).congr (fun _ => rfl) rfl rfl rfl
  · split
    · exact hreap sick
    · rename_i slot hfind
      exact (hreap sick).replaceChild (findChildByPid_spec hfind).2 hgone hfork

/-- **Step lemma.** -/
theorem Parent.Recorded.step {a : ParentAction} (h : s.Recorded c) (hok : s.NoQuiescingSlot c a)
    (hs : s.step c a = some s') : s'.Recorded c := by
  cases a with
  | timeout forks =>
      rw [Parent.step] at hs
      split_ifs at hs with hen hstart
      · obtain rfl := Option.some.inj hs
        exact (h.startupChildren hen.2.getD_ne _).congr (fun _ => rfl) rfl rfl rfl
      · obtain rfl := Option.some.inj hs
        exact h.maintenance hen.2 (not_not.mp hstart) hok
  | reap pid exit fork =>
      rw [Parent.step] at hs
      split_ifs at hs with hen
      obtain rfl := Option.some.inj hs
      apply h.childDeath
      rintro rfl
      exact (hen.2.2.2 0 (by simp)).1 rfl
  | status i j st =>
      rw [Parent.step] at hs
      split_ifs at hs with hen
      obtain rfl := Option.some.inj hs
      exact h.congr (fun k => zeventUpdateChildStatus_pid s.sb i j k st) rfl rfl rfl
  | quiesce i =>
      rw [Parent.step] at hs
      split_ifs at hs with hen
      obtain rfl := Option.some.inj hs
      refine h.congr (fun k => ?_) rfl rfl rfl
      rcases eq_or_ne k i with rfl | hne
      · simp
      · simp [Function.update_of_ne hne]

theorem Parent.Initial.recorded (h : s.Initial) : s.Recorded c := by
  refine ⟨?_, ?_, h.overwritten⟩
  · rw [h.running]
    exact List.not_mem_nil
  · rw [h.running]
    simp

/-- **No running child is forgotten, as long as no slot is taken over.**  In every run in
which a maintenance round that finds too few idle threads never finds a slot whose process
is going down with a dead thread, every child that was forked and not reaped is recorded in
a slot or among the extra processes, and `make_child` has written over the pid of no running
child. -/
theorem children_recorded {s₀ : Parent} (h₀ : s₀.Initial)
    (h : Reach (Parent.step c) (Parent.NoQuiescingSlot c) s₀ s) :
    (∀ p ∈ s.running, (∃ i < c.daemonsLimit, (s.sb.parent i).pid = p) ∨ p ∈ s.extras)
      ∧ s.overwritten = [] := by
  have hrec : s.Recorded c :=
    h.invariant (Parent.Recorded c) h₀.recorded fun _ _ _ hrec hok hs => hrec.step hok hs
  exact ⟨hrec.recorded, hrec.overwritten⟩

/-- One child is started, and a round that finds too few idle threads starts a second one
in the empty slot. -/
theorem children_recorded_two_slots :
    freshParent.Initial ∧ ∃ s,
      Reach (Parent.step (twoThreads 2)) (Parent.NoQuiescingSlot (twoThreads 2)) freshParent s
      ∧ s.running = [101, 100]
      ∧ ∀ p ∈ s.running, (∃ i < 2, (s.sb.parent i).pid = p) ∨ p ∈ s.extras := by
  have hrun : (run (Parent.step (twoThreads 2)) (Parent.NoQuiescingSlot (twoThreads 2)) freshParent
      (.timeout [some 100] :: childStarts ++ [.timeout [some 101]])).map Parent.running
      = some [101, 100] := by
    decide
  obtain ⟨s, hs, hpids⟩ := Option.map_eq_some_iff.mp hrun
  have hreach := Reach.refl.run _ hs
  exact ⟨freshParent_initial, s, hreach, hpids,
    (children_recorded freshParent_initial hreach).1⟩

/-- **A child is forgotten.**  The only slot's process goes down with one thread gone and
the other still at work; the next round finds no idle thread, takes the slot for a new
child, and nothing records the old one any more. -/
theorem forgotten_child_run :
    freshParent.Initial ∧ ∃ s, Reach (Parent.step (twoThreads 1)) Always freshParent s
      ∧ 100 ∈ s.running ∧ (∀ i < 1, (s.sb.parent i).pid ≠ 100) ∧ 100 ∉ s.extras
      ∧ s.overwritten = [100] := by
  have hrun : (run (Parent.step (twoThreads 1)) Always freshParent
      (.timeout [some 100] :: childStarts
        ++ [.quiesce 0, .status 0 0 .dead, .timeout [some 101]])).map
        (fun s => (s.running, (s.sb.parent 0).pid, s.extras, s.overwritten))
      = some ([101, 100], 101, [], [100]) := by
    decide
  obtain ⟨s, hs, hstate⟩ := Option.map_eq_some_iff.mp hrun
  rw [Prod.mk.injEq, Prod.mk.injEq, Prod.mk.injEq] at hstate
  obtain ⟨hrunning, hpid, hextras, hover⟩ := hstate
  refine ⟨freshParent_initial, s, Reach.refl.run _ hs, ?_, ?_, ?_, hover⟩
  · rw [hrunning]
    decide
  · intro i hi
    obtain rfl : i = 0 := by omega
    rw [hpid]
    decide
  · rw [hextras]
    exact List.not_mem_nil

end Recorded

/-! ## The high-water mark -/

section Covered

variable {c : Config} {s s' : Parent}

/-- Every slot with a process is below the limit and below the high-water mark. -/
def Parent.Covered (c : Config) (s : Parent) : Prop :=
  ∀ i, (s.sb.parent i).pid ≠ 0 → i < c.daemonsLimit ∧ (i : ℤ) < s.maxDaemonsLimit

theorem Parent.Covered.congr (h : s.Covered c)
    (hpid : ∀ i, (s'.sb.parent i).pid = (s.sb.parent i).pid)
    (hmark : s'.maxDaemonsLimit = s.maxDaemonsLimit) : s'.Covered c := by
  intro i hi
  rw [hpid] at hi
  rw [hmark]
  exact h i hi

/-- **`make_child` raises the mark over the slot it uses.** -/
theorem Parent.Covered.makeChild {slot : ℕ} (h : s.Covered c) (hslot : slot < c.daemonsLimit)
    (fork : Option ℕ) : (makeChild c s slot fork).1.Covered c := by
  have hmark : (Server.makeChild c s slot fork).1.maxDaemonsLimit
      = if (slot : ℤ) + 1 > s.maxDaemonsLimit then (slot : ℤ) + 1 else s.maxDaemonsLimit := by
    cases fork <;> rfl
  intro i hi
  rw [hmark]
  rcases eq_or_ne i slot with rfl | hne
  · refine ⟨hslot, ?_⟩
    split <;> omega
  · rw [makeChild_pid_of_ne fork hne] at hi
    have := h i hi
    refine ⟨this.1, ?_⟩
    split <;> omega

theorem Parent.Covered.startupChildren {forks : List (Option ℕ)} (numberToStart : ℕ)
    (h : s.Covered c) : (startupChildren c forks numberToStart s).Covered c :=
  startupChildren_rule (fun _ i hlt _ h => h.makeChild hlt (forks.getD i none)) _ h

theorem Parent.Covered.spawnChildren {l : List (ℕ × Option ℕ)}
    (hslots : ∀ x ∈ l, x.1 < c.daemonsLimit) (h : s.Covered c) :
    (spawnChildren c s l).Covered c := by
  induction l generalizing s with
  | nil => exact h
  | cons x l ih =>
      exact ih (fun y hy => hslots y (List.mem_cons_of_mem _ hy))
        (h.makeChild (hslots x List.mem_cons_self) x.2)

/-- The condition on a maintenance round: at or above every slot with a process there is a slot
with no thread finishing gracefully, below the old mark or with fewer totally free slots before
it than the round may fork into. -/
def Parent.NoDyingTop (c : Config) (s : Parent) : ParentAction → Prop
  | .timeout _ => s.remainingChildrenToStart = 0 →
      ∀ i < c.daemonsLimit, (s.sb.parent i).pid ≠ 0 →
        ∃ k < c.daemonsLimit, i ≤ k ∧ ¬ s.sb.AnyDying c k ∧
          ((k : ℤ) < s.maxDaemonsLimit ∨ Nat.count (s.sb.TotallyFree c) k < s.idleSpawnRate)
  | _ => True

instance (c : Config) (s : Parent) (a : ParentAction) : Decidable (s.NoDyingTop c a) :=
  match a with
  | .timeout _ => inferInstanceAs (Decidable (_ → ∀ i < _, _ → ∃ k < _, _))
  | .reap .. => inferInstanceAs (Decidable True)
  | .status .. => inferInstanceAs (Decidable True)
  | .quiesce _ => inferInstanceAs (Decidable True)

/-- **A maintenance round under the condition keeps the mark above every used slot.** -/
theorem Parent.Covered.maintenance {forks : List (Option ℕ)} (h : s.Covered c)
    (hrem : s.remainingChildrenToStart = 0) (hok : s.NoDyingTop c (.timeout forks)) :
    (performIdleServerMaintenance c forks s).Covered c := by
  have hscan : (s.scan c).Sound c s.sb := scanScoreboard_sound
  have hlooked : (s.scan c).looked ≤ c.daemonsLimit := scanScoreboard_looked_le
  -- the recomputed mark is above the slot that has no dying thread
  have hbase : (s.scanned c).Covered c := by
    intro i hi
    have hlt := (h i hi).1
    obtain ⟨k, hk, hik, hdying, hreached⟩ := hok hrem i hlt hi
    have hlast := hscan.last k (scanScoreboard_looked_iff k |>.mpr ⟨hk, hreached⟩) hdying
    refine ⟨hlt, ?_⟩
    simp only [Parent.scanned]
    omega
  obtain hrun | hrun | ⟨-, holdOff, rate, -, hrun⟩ := maintenance_cases c forks s
  · rw [hrun]
    exact h.congr (fun _ => rfl) rfl
  · rw [hrun]
    exact hbase.congr (fun _ => rfl) rfl
  · rw [hrun]
    refine (hbase.spawnChildren fun x hx => ?_).congr (fun _ => rfl) rfl
    obtain ⟨a, ha, rfl⟩ := mem_spawnList hx
    have hlt := hscan.free.free_lt a ha
    simp only
    omega

/-- Clearing a slot takes a process away. -/
theorem Parent.Covered.clearSlot (h : s.Covered c) (slot : ℕ) :
    ({ s with sb := clearSlot c s.sb slot } : Parent).Covered c := by
  intro i hi
  rcases eq_or_ne i slot with rfl | hne
  · simp [Server.clearSlot] at hi
  · simp only [Server.clearSlot, Function.update_of_ne hne] at hi
    exact h i hi

theorem Parent.Covered.replaceChild (h : s.Covered c) (slot : ℕ) (exit : ExitStatus)
    (fork : Option ℕ) : (replaceChild c s slot exit fork).Covered c := by
  have hclear := h.clearSlot slot
  rw [Server.replaceChild]
  simp only
  split_ifs with hsick hmore
  · exact hclear.congr (fun _ => rfl) rfl
  · exact (hclear.makeChild hmore.2 fork).congr (fun _ => rfl) rfl
  · exact hclear

theorem Parent.Covered.childDeath (h : s.Covered c) (pid : ℕ) (exit : ExitStatus)
    (fork : Option ℕ) : (childDeath c s pid exit fork).Covered c := by
  have hreap : ∀ sick : Bool, ({ s with
      running := s.running.filter (· ≠ pid), sickChildDetected := sick } : Parent).Covered c :=
    fun _ => h
  rw [Server.childDeath]
  simp only
  generalize (if exit = .childSick then true else s.sickChildDetected) = sick
  split
  · exact h
  · split
    · exact hreap sick
    · exact (hreap sick).replaceChild _ exit fork

/-- **Step lemma.** -/
theorem Parent.Covered.step {a : ParentAction} (h : s.Covered c) (hok : s.NoDyingTop c a)
    (hs : s.step c a = some s') : s'.Covered c := by
  cases a with
  | timeout forks =>
      rw [Parent.step] at hs
      split_ifs at hs with hen hstart
      · obtain rfl := Option.some.inj hs
        exact (h.startupChildren _).congr (fun _ => rfl) rfl
      · obtain rfl := Option.some.inj hs
        exact h.maintenance (not_not.mp hstart) hok
  | reap pid exit fork =>
      rw [Parent.step] at hs
      split_ifs at hs with hen
      obtain rfl := Option.some.inj hs
      exact h.childDeath pid exit fork
  | status i j st =>
      rw [Parent.step] at hs
      split_ifs at hs with hen
      obtain rfl := Option.some.inj hs
      exact h.congr (fun k => zeventUpdateChildStatus_pid s.sb i j k st) rfl
  | quiesce i =>
      rw [Parent.step] at hs
      split_ifs at hs with hen
      obtain rfl := Option.some.inj hs
      refine h.congr (fun k => ?_) rfl
      rcases eq_or_ne k i with rfl | hne
      · simp
      · simp [Function.update_of_ne hne]

/-- **The high-water mark covers every used slot, as long as no dying slot is on top.**  In
every run in which each maintenance round has, at or above every slot with a process, a slot
within its reach and with no thread finishing gracefully, every slot with a process is below
`zevent_max_daemons_limit`. -/
theorem used_slots_covered {s₀ : Parent} (h₀ : s₀.Initial)
    (h : Reach (Parent.step c) (Parent.NoDyingTop c) s₀ s) :
    ∀ i, (s.sb.parent i).pid ≠ 0 → (i : ℤ) < s.maxDaemonsLimit := by
  have hcov : s.Covered c := by
    refine h.invariant (Parent.Covered c) ?_ fun _ _ _ hcov hok hs => hcov.step hok hs
    intro i hi
    exact absurd (h₀.pid i) hi
  exact fun i hi => (hcov i hi).2

/-- One child is started, and a round starts a second one above it. -/
theorem used_slots_covered_two_slots :
    freshParent.Initial ∧ ∃ s,
      Reach (Parent.step (twoThreads 2)) (Parent.NoDyingTop (twoThreads 2)) freshParent s
      ∧ (s.sb.parent 1).pid = 101
      ∧ ∀ i, (s.sb.parent i).pid ≠ 0 → (i : ℤ) < s.maxDaemonsLimit := by
  have hrun : (run (Parent.step (twoThreads 2)) (Parent.NoDyingTop (twoThreads 2)) freshParent
      (.timeout [some 100] :: childStarts ++ [.timeout [some 101]])).map
        (fun s => (s.sb.parent 1).pid)
      = some 101 := by
    decide
  obtain ⟨s, hs, hpid⟩ := Option.map_eq_some_iff.mp hrun
  have hreach := Reach.refl.run _ hs
  exact ⟨freshParent_initial, s, hreach, hpid, used_slots_covered freshParent_initial hreach⟩

/-- **A used slot above the mark.**  A thread of the only child finishes gracefully; the
next round sets the mark to zero while the child runs in slot 0. -/
theorem uncovered_slot_run :
    freshParent.Initial ∧ ∃ s, Reach (Parent.step (twoThreads 1)) Always freshParent s
      ∧ (s.sb.parent 0).pid = 100 ∧ 100 ∈ s.running ∧ s.maxDaemonsLimit = 0 := by
  have hrun : (run (Parent.step (twoThreads 1)) Always freshParent
      (.timeout [some 100] :: childStarts ++ [.status 0 0 .graceful, .timeout []])).map
        (fun s => ((s.sb.parent 0).pid, s.running, s.maxDaemonsLimit))
      = some (100, [100], 0) := by
    decide
  obtain ⟨s, hs, hstate⟩ := Option.map_eq_some_iff.mp hrun
  rw [Prod.mk.injEq, Prod.mk.injEq] at hstate
  obtain ⟨hpid, hrunning, hmark⟩ := hstate
  refine ⟨freshParent_initial, s, Reach.refl.run _ hs, hpid, ?_, hmark⟩
  rw [hrunning]
  decide

end Covered

end Zevent.Server

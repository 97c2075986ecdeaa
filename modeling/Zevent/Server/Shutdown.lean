/-
# The end of the server (`zevent.c`, `zevent_mpm.c`)

How the parent's run and the reclaiming of its children fit together.  In every run of
`server_main_loop` no two slots record one child, and as long as no shutdown is pending what a
slot records is a running child (`children_distinct`).

`shutdown_reaps` is about the branch "caught SIGTERM, shutting down": after a run that forgets
no child, reclaiming reaps every running child, or gives up on those that were sent every
signal.  `graceful_stop_drains` is about the graceful branch: it signals nobody, and when it
goes on because it finds no active child, none is left to reclaim.
-/
import Zevent.Server.Maintenance
import Zevent.Server.Reclaim

namespace Zevent.Server

open Interleaving

/-! ## What the slots record -/

section Owned

variable {c : Config} {s s' : Parent}

/-- No two slots record one child; a slot with a pid is below the limit, and records a running
child unless the server is shutting down.  Nothing registers an extra process. -/
structure Parent.Owned (c : Config) (s : Parent) : Prop where
  below : ∀ i, (s.sb.parent i).pid ≠ 0 → i < c.daemonsLimit
  distinct : ∀ i j, (s.sb.parent i).pid = (s.sb.parent j).pid → (s.sb.parent i).pid ≠ 0 → i = j
  running : s.shutdownPending = false → ∀ i, (s.sb.parent i).pid ≠ 0 →
    (s.sb.parent i).pid ∈ s.running
  extras : s.extras = []

theorem Parent.Owned.congr (h : s.Owned c)
    (hpid : ∀ i, (s'.sb.parent i).pid = (s.sb.parent i).pid) (hrun : s'.running = s.running)
    (hshut : s'.shutdownPending = false → s.shutdownPending = false)
    (hextras : s'.extras = s.extras) : s'.Owned c := by
  refine ⟨fun i => ?_, fun i j => ?_, fun hs i => ?_, hextras.trans h.extras⟩
  · rw [hpid]
    exact h.below i
  · rw [hpid, hpid]
    exact h.distinct i j
  · rw [hpid, hrun]
    exact h.running (hshut hs) i

/-- The pids after a fork that succeeds. -/
theorem makeChild_some_pid (slot pid k : ℕ) :
    ((makeChild c s slot (some pid)).1.sb.parent k).pid
      = if k = slot then pid else (s.sb.parent k).pid := by
  by_cases hk : k = slot
  · subst hk
    simp [makeChild]
  · rw [if_neg hk, makeChild_pid_of_ne _ hk]

/-- **`make_child` keeps the slots distinct** when the pid is not that of a running child. -/
theorem Parent.Owned.makeChild {slot : ℕ} {fork : Option ℕ} (h : s.Owned c)
    (hshut : s.shutdownPending = false) (hslot : slot < c.daemonsLimit)
    (hfork : ∀ pid, fork = some pid → pid ∉ s.running) : (makeChild c s slot fork).1.Owned c := by
  cases fork with
  | none =>
      refine h.congr (fun i => ?_) rfl (fun hs => hs) rfl
      simp [Server.makeChild]
  | some pid =>
      have hfresh := hfork pid rfl
      -- no slot records the new pid yet
      have hother : ∀ i, (s.sb.parent i).pid ≠ 0 → (s.sb.parent i).pid ≠ pid := fun i hi heq =>
        hfresh (heq ▸ h.running hshut i hi)
      refine ⟨fun i => ?_, fun i j => ?_, fun _ i => ?_, h.extras⟩
      · rw [makeChild_some_pid]
        by_cases hi : i = slot
        · exact fun _ => hi ▸ hslot
        · rw [if_neg hi]
          exact h.below i
      · rw [makeChild_some_pid, makeChild_some_pid]
        by_cases hi : i = slot
        · by_cases hj : j = slot
          · exact fun _ _ => hi.trans hj.symm
          · rw [if_pos hi, if_neg hj]
            exact fun heq hne => absurd heq.symm (hother j (heq ▸ hne))
        · by_cases hj : j = slot
          · rw [if_neg hi, if_pos hj]
            exact fun heq hne => absurd heq (hother i hne)
          · rw [if_neg hi, if_neg hj]
            exact h.distinct i j
      · rw [makeChild_some_pid]
        show _ → _ ∈ pid :: s.running
        by_cases hi : i = slot
        · rw [if_pos hi]
          exact fun _ => List.mem_cons_self
        · rw [if_neg hi]
          exact fun hne => List.mem_cons_of_mem _ (h.running hshut i hne)

theorem makeChild_shutdownPending (slot : ℕ) (fork : Option ℕ) :
    (makeChild c s slot fork).1.shutdownPending = s.shutdownPending := by
  cases fork <;> rfl

theorem mem_forks {forks : List (Option ℕ)} {i pid : ℕ} (h : forks.getD i none = some pid) :
    pid ∈ forks.filterMap id := by
  rw [List.getD_eq_getElem?_getD] at h
  rcases hget : forks[i]? with _ | x
  · rw [hget] at h
    exact absurd h (by simp)
  · rw [hget, Option.getD_some] at h
    exact List.mem_filterMap.mpr ⟨some pid, h ▸ List.mem_of_getElem? hget, rfl⟩

/-- Distinct results of the forks come from distinct calls. -/
theorem fork_inj {forks : List (Option ℕ)} (h : (forks.filterMap id).Nodup) {i j pid : ℕ}
    (hi : forks.getD i none = some pid) (hj : forks.getD j none = some pid) : i = j := by
  induction forks generalizing i j with
  | nil => simp at hi
  | cons fork forks ih =>
      have hrest : (forks.filterMap id).Nodup := by
        cases fork with
        | none => exact h
        | some q => exact (List.nodup_cons.mp h).2
      cases i with
      | zero =>
          cases j with
          | zero => rfl
          | succ j =>
              rw [List.getD_cons_zero] at hi
              rw [List.getD_cons_succ] at hj
              subst hi
              exact absurd (mem_forks hj) (List.nodup_cons.mp h).1
      | succ i =>
          rw [List.getD_cons_succ] at hi
          cases j with
          | zero =>
              rw [List.getD_cons_zero] at hj
              subst hj
              exact absurd (mem_forks hi) (List.nodup_cons.mp h).1
          | succ j =>
              rw [List.getD_cons_succ] at hj
              rw [ih hrest hi hj]

/-- `startup_children` uses the results of the forks by the numbers of their slots. -/
theorem Parent.Owned.startupChildren {forks : List (Option ℕ)} (h : s.Owned c)
    (hshut : s.shutdownPending = false) (hforks : ForksFresh s.running forks)
    (numberToStart : ℕ) : (startupChildren c forks numberToStart s).Owned c := by
  -- a result that was used is in its own slot
  let Q : Parent → Prop := fun t => t.Owned c ∧ t.shutdownPending = false
    ∧ ∀ j pid, forks.getD j none = some pid → pid ∈ t.running → (t.sb.parent j).pid = pid
  suffices hQ : Q (Server.startupChildren c forks numberToStart s) from hQ.1
  refine startupChildren_rule (fun t i hi hempty ht => ?_) numberToStart
    ⟨h, hshut, fun j pid hj hmem => absurd hmem (hforks.2 pid (mem_forks hj)).2⟩
  obtain ⟨howned, hshut, hused⟩ := ht
  have hfork : ∀ pid, forks.getD i none = some pid → pid ∉ t.running := by
    intro pid hpid hmem
    rw [hused i pid hpid hmem] at hempty
    exact (hforks.2 pid (mem_forks hpid)).1 hempty
  refine ⟨howned.makeChild hshut hi hfork, ?_, fun j pid hj hmem => ?_⟩
  · rw [makeChild_shutdownPending]
    exact hshut
  · rw [makeChild_running, List.mem_append, Option.mem_toList] at hmem
    rcases hmem with hnew | hmem
    · obtain rfl := fork_inj hforks.1 hj hnew
      rw [hnew, makeChild_some_pid, if_pos rfl]
    · have hold := hused j pid hj hmem
      have hne : j ≠ i := by
        rintro rfl
        exact hfork pid hj hmem
      rw [makeChild_pid_of_ne _ hne, hold]

/-- Forking into some slots, with pids that are fresh and distinct. -/
theorem Parent.Owned.spawnChildren {l : List (ℕ × Option ℕ)} (h : s.Owned c)
    (hshut : s.shutdownPending = false) (hslots : ∀ x ∈ l, x.1 < c.daemonsLimit)
    (hforks : ForksFresh s.running (l.map Prod.snd)) : (spawnChildren c s l).Owned c := by
  induction l generalizing s with
  | nil => exact h
  | cons x l ih =>
      have hnew : ∀ pid, x.2 = some pid → pid ∉ s.running := by
        intro pid hpid
        refine (hforks.2 pid ?_).2
        rw [List.map_cons, hpid]
        exact List.mem_cons_self
      have hrest : ForksFresh (Server.makeChild c s x.1 x.2).1.running (l.map Prod.snd) := by
        obtain ⟨slot, fork⟩ := x
        rw [makeChild_running]
        cases fork with
        | none => exact hforks
        | some q =>
            obtain ⟨hnodup, hfresh⟩ : (q :: (l.map Prod.snd).filterMap id).Nodup
                ∧ ∀ pid ∈ q :: (l.map Prod.snd).filterMap id, pid ≠ 0 ∧ pid ∉ s.running := hforks
            rw [List.nodup_cons] at hnodup
            refine ⟨hnodup.2, fun pid hpid => ?_⟩
            obtain ⟨hpos, hout⟩ := hfresh pid (List.mem_cons_of_mem _ hpid)
            refine ⟨hpos, fun hmem => ?_⟩
            rcases List.mem_cons.mp hmem with rfl | hmem
            · exact hnodup.1 hpid
            · exact hout hmem
      refine ih (h.makeChild hshut (hslots x List.mem_cons_self) hnew) ?_
        (fun y hy => hslots y (List.mem_cons_of_mem _ hy)) hrest
      rw [makeChild_shutdownPending]
      exact hshut

/-- The results a round uses are the first ones. -/
theorem filterMap_getD (forks : List (Option ℕ)) (n : ℕ) :
    ((List.range n).map fun i => forks.getD i none).filterMap id
      = (forks.take n).filterMap id := by
  induction n with
  | zero => simp
  | succ n ih =>
      rw [List.range_succ, List.map_append, List.filterMap_append, ih, List.take_add_one,
        List.filterMap_append, List.map_singleton, List.getD_eq_getElem?_getD]
      congr 1
      rcases forks[n]? with _ | fork
      · rfl
      · rfl

theorem ForksFresh.spawnList {running : List ℕ} {forks : List (Option ℕ)}
    (h : ForksFresh running forks) (scan : Scan) (rate : ℕ) :
    ForksFresh running ((spawnList scan rate forks).map Prod.snd) := by
  have hsub : (((Server.spawnList scan rate forks).map Prod.snd).filterMap id).Sublist
      (forks.filterMap id) := by
    rw [Server.spawnList, List.map_map]
    show (((List.range _).map fun i => forks.getD i none).filterMap id).Sublist _
    rw [filterMap_getD]
    exact (List.take_sublist _ _).filterMap id
  exact ⟨h.1.sublist hsub, fun pid hpid => h.2 pid (hsub.subset hpid)⟩

theorem Parent.Owned.maintenance {forks : List (Option ℕ)} (h : s.Owned c)
    (hshut : s.shutdownPending = false) (hforks : ForksFresh s.running forks) :
    (performIdleServerMaintenance c forks s).Owned c := by
  have hlooked : (s.scan c).looked ≤ c.daemonsLimit := scanScoreboard_looked_le
  have hscan : (s.scan c).Sound c s.sb := scanScoreboard_sound
  have hbase : (s.scanned c).Owned c := h.congr (fun _ => rfl) rfl (fun hs => hs) rfl
  obtain hrun | hrun | ⟨-, holdOff, rate, -, hrun⟩ := maintenance_cases c forks s
  · rw [hrun]
    exact h.congr (fun _ => rfl) rfl (fun _ => hshut) rfl
  · rw [hrun]
    exact hbase.congr (fun _ => rfl) rfl (fun hs => hs) rfl
  · rw [hrun]
    refine (hbase.spawnChildren hshut (fun x hx => ?_)
      (hforks.spawnList (s.scan c) s.idleSpawnRate)).congr (fun _ => rfl) rfl (fun hs => hs) rfl
    obtain ⟨a, ha, rfl⟩ := mem_spawnList hx
    have hlt := hscan.free.free_lt a ha
    simp only
    omega

/-- **Reaping a child** clears the only slot that records it. -/
theorem Parent.Owned.childDeath {pid : ℕ} {exit : ExitStatus} {fork : Option ℕ} (h : s.Owned c)
    (hshut : s.shutdownPending = false)
    (hfork : ∀ q, fork = some q → q ∉ s.running.filter (· ≠ pid)) :
    (childDeath c s pid exit fork).Owned c := by
  -- what is left when no slot has the pid any more
  have hreap : ∀ (t : Parent), (∀ i, (t.sb.parent i).pid ≠ 0 →
        (t.sb.parent i).pid = (s.sb.parent i).pid ∧ (t.sb.parent i).pid ≠ pid) →
      t.running = s.running.filter (· ≠ pid) → t.extras = s.extras → t.Owned c := by
    intro t hpid hrun hextras
    refine ⟨fun i hi => ?_, fun i j heq hi => ?_, fun _ i hi => ?_, hextras.trans h.extras⟩
    · exact h.below i ((hpid i hi).1 ▸ hi)
    · have hj : (t.sb.parent j).pid ≠ 0 := heq ▸ hi
      refine h.distinct i j ?_ ((hpid i hi).1 ▸ hi)
      rw [← (hpid i hi).1, heq, (hpid j hj).1]
    · rw [hrun, List.mem_filter]
      refine ⟨?_, by simpa using (hpid i hi).2⟩
      rw [(hpid i hi).1]
      exact h.running hshut i ((hpid i hi).1 ▸ hi)
  rw [Server.childDeath]
  simp only
  split
  · -- the server is going down, and the slot stays as it is
    exact ⟨h.below, h.distinct, fun hs => absurd hs.symm Bool.false_ne_true, h.extras⟩
  · generalize (if exit = .childSick then true else s.sickChildDetected) = sick
    split
    · rename_i hnone
      refine hreap _ (fun i hi => ⟨rfl, fun heq => ?_⟩) rfl rfl
      have hlt := h.below i hi
      rw [findChildByPid, List.find?_eq_none] at hnone
      exact hnone i (List.mem_range.mpr hlt) (by simpa using heq)
    · rename_i slot hfind
      obtain ⟨hslot, hpid⟩ := findChildByPid_spec hfind
      rw [Server.replaceChild]
      simp only
      have hclear : ({ s with
          running := s.running.filter (· ≠ pid)
          sickChildDetected := sick
          sb := clearSlot c s.sb slot } : Parent).Owned c := by
        refine hreap _ (fun i hi => ?_) rfl rfl
        simp only [clearSlot] at hi ⊢
        by_cases hi' : i = slot
        · subst hi'
          rw [Function.update_self] at hi
          exact absurd rfl hi
        · rw [Function.update_of_ne hi'] at hi ⊢
          refine ⟨rfl, fun heq => hi' ?_⟩
          exact h.distinct i slot (heq.trans hpid.symm) hi
      split_ifs with hsick hmore
      · exact hclear.congr (fun _ => rfl) rfl (fun hs => hs) rfl
      · exact (hclear.makeChild hshut hmore.2 hfork).congr (fun _ => rfl) rfl (fun hs => hs) rfl
      · exact hclear

/-- **Step lemma.** -/
theorem Parent.Owned.step {a : ParentAction} (h : s.Owned c) (hs : s.step c a = some s') :
    s'.Owned c := by
  cases a with
  | timeout forks =>
      rw [Parent.step] at hs
      split_ifs at hs with hen hstart
      · obtain rfl := Option.some.inj hs
        exact (h.startupChildren hen.1 hen.2 _).congr (fun _ => rfl) rfl (fun hs => hs) rfl
      · obtain rfl := Option.some.inj hs
        exact h.maintenance hen.1 hen.2
  | reap pid exit fork =>
      rw [Parent.step] at hs
      split_ifs at hs with hen
      obtain rfl := Option.some.inj hs
      refine h.childDeath hen.1 fun q hq => ?_
      subst hq
      exact (hen.2.2.2 q List.mem_cons_self).2
  | status i j st =>
      rw [Parent.step] at hs
      split_ifs at hs with hen
      obtain rfl := Option.some.inj hs
      exact h.congr (fun k => zeventUpdateChildStatus_pid s.sb i j k st) rfl (fun hs => hs) rfl
  | quiesce i =>
      rw [Parent.step] at hs
      split_ifs at hs with hen
      obtain rfl := Option.some.inj hs
      refine h.congr (fun k => ?_) rfl (fun hs => hs) rfl
      rcases eq_or_ne k i with rfl | hne
      · simp
      · simp [Function.update_of_ne hne]

theorem Parent.Initial.owned (h : s.Initial) : s.Owned c :=
  ⟨fun i hi => absurd (h.pid i) hi, fun i _ _ hi => absurd (h.pid i) hi,
    fun _ i hi => absurd (h.pid i) hi, h.extras⟩

/-- **The slots record distinct running children.**  In every run, whatever the children write
and in whatever order they exit, no two slots have one pid, every slot with a pid is below the
limit, and as long as no shutdown is pending its pid is that of a running child. -/
theorem children_distinct {s₀ : Parent} (h₀ : s₀.Initial) (h : Reach (Parent.step c) Always s₀ s) :
    (∀ i j, (s.sb.parent i).pid = (s.sb.parent j).pid → (s.sb.parent i).pid ≠ 0 → i = j)
      ∧ (∀ i, (s.sb.parent i).pid ≠ 0 → i < c.daemonsLimit)
      ∧ (s.shutdownPending = false → ∀ i, (s.sb.parent i).pid ≠ 0 →
          (s.sb.parent i).pid ∈ s.running) := by
  have howned : s.Owned c :=
    h.invariant (Parent.Owned c) h₀.owned fun _ _ _ howned _ hs => howned.step hs
  exact ⟨howned.distinct, howned.below, howned.running⟩

/-- Two children are started, and the first one is replaced by another. -/
theorem children_distinct_replaced :
    freshParent.Initial ∧ ∃ s, Reach (Parent.step (twoThreads 2)) Always freshParent s
      ∧ s.running = [102, 101]
      ∧ ∀ i j, (s.sb.parent i).pid = (s.sb.parent j).pid → (s.sb.parent i).pid ≠ 0 → i = j := by
  have hrun : (run (Parent.step (twoThreads 2)) Always freshParent
      (.timeout [some 100] :: childStarts
        ++ [.timeout [some 101], .reap 100 .normal none, .timeout [some 102]])).map Parent.running
      = some [102, 101] := by
    decide
  obtain ⟨s, hs, hpids⟩ := Option.map_eq_some_iff.mp hrun
  have hreach := Reach.refl.run _ hs
  exact ⟨freshParent_initial, s, hreach, hpids, (children_distinct freshParent_initial hreach).1⟩

end Owned

/-! ## A parent that stops -/

section Stopping

variable {c : Config} {p : Parent} {s : Reclaim}

/-- Every running child is recorded where the passes over the children look. -/
structure Parent.Stopping (c : Config) (p : Parent) : Prop where
  distinct : p.Distinct
  below : ∀ i, (p.sb.parent i).pid ≠ 0 → i < c.daemonsLimit
  extras : p.extras = []
  recorded : ∀ q ∈ p.running, q ∈ p.pids

theorem Parent.mem_slotPids {n q : ℕ} :
    q ∈ p.slotPids n ↔ q ≠ 0 ∧ ∃ i < n, (p.sb.parent i).pid = q := by
  rw [slotPids, List.mem_filter, List.mem_map, decide_eq_true_eq, and_comm]
  apply and_congr_right
  intro _
  apply exists_congr
  intro i
  rw [List.mem_range]

/-- The slots of a parent whose children are in distinct ones. -/
theorem Parent.Owned.slotPids_nodup (h : p.Owned c) (n : ℕ) : (p.slotPids n).Nodup := by
  induction n with
  | zero => exact List.nodup_nil
  | succ n ih =>
      rw [Parent.slotPids_succ]
      by_cases hempty : (p.sb.parent n).pid = 0
      · rw [if_pos hempty, List.append_nil]
        exact ih
      · rw [if_neg hempty, List.nodup_append]
        refine ⟨ih, List.nodup_singleton _, fun q hq q' hq' heq => ?_⟩
        rw [List.mem_singleton] at hq'
        obtain ⟨-, i, hi, hpid⟩ := Parent.mem_slotPids.mp hq
        have := h.distinct i n (hpid.trans (heq.trans hq')) (by rw [hpid, heq, hq']; exact hempty)
        omega

/-- The condition on a run in which no running child gets out of sight: none is lost from the
slots, and none is above the high-water mark. -/
def Parent.InSight (c : Config) (s : Parent) (a : ParentAction) : Prop :=
  s.NoQuiescingSlot c a ∧ s.NoDyingTop c a

instance (c : Config) (s : Parent) (a : ParentAction) : Decidable (s.InSight c a) :=
  inferInstanceAs (Decidable (_ ∧ _))

/-- **After such a run every running child is where the passes look.** -/
theorem stopping_of_reach {s₀ : Parent} (h₀ : s₀.Initial)
    (h : Reach (Parent.step c) (Parent.InSight c) s₀ p) : p.Stopping c := by
  have hall : p.Owned c ∧ p.Recorded c ∧ p.Covered c := by
    refine h.invariant (fun p => p.Owned c ∧ p.Recorded c ∧ p.Covered c) ?_ ?_
    · exact ⟨h₀.owned, h₀.recorded, fun i hi => absurd (h₀.pid i) hi⟩
    · rintro s a s' ⟨howned, hrec, hcov⟩ ⟨hquiet, htop⟩ hs
      exact ⟨howned.step hs, hrec.step hquiet hs, hcov.step htop hs⟩
  obtain ⟨howned, hrec, hcov⟩ := hall
  refine ⟨⟨?_, ?_⟩, howned.below, howned.extras, fun q hq => ?_⟩
  · rw [Parent.pids, howned.extras, List.append_nil]
    exact howned.slotPids_nodup _
  · rw [howned.extras]
    exact List.not_mem_nil
  · rw [Parent.pids, howned.extras, List.append_nil, Parent.mem_slotPids]
    have hpos : q ≠ 0 := fun hzero => hrec.running_pos (hzero ▸ hq)
    refine ⟨hpos, ?_⟩
    rcases hrec.recorded q hq with ⟨i, -, hpid⟩ | hextra
    · have hmark := (hcov i (hpid ▸ hpos)).2
      exact ⟨i, by omega, hpid⟩
    · rw [howned.extras] at hextra
      exact absurd hextra List.not_mem_nil

/-- What `zevent_reclaim_child_processes` does to all the children of `p`: it sends signals to
running children only, to each a beginning of the escalation, and no signal before its time.
It is over after thirteen sleeps, and then no child runs, or ten seconds have passed and each
one that runs was sent the whole escalation. -/
structure Reaps (p : Parent) (rounds : List ReclaimRound) (s : Reclaim) : Prop where
  loop : zeventReclaimChildProcesses p rounds = some s
  sent : ∀ q, ∃ n, Follows (escalation.take n) (s.killsOf q)
  owned : ∀ k ∈ s.kills, k.pid ∈ p.running
  ends : Sleeps (1024 * 16) 0 rounds → 13 ≤ rounds.length → s.finished = true
  reaped : s.finished = true → s.parent.running = []
    ∨ aprTimeFromSec 10 ≤ s.elapsed ∧ ∀ q ∈ s.parent.running, Follows escalation (s.killsOf q)

theorem Parent.Stopping.reaps (h : p.Stopping c) (rounds : List ReclaimRound) :
    ∃ s, Reaps p rounds s := by
  obtain ⟨s, hloop, hrec, hends⟩ := reclaim_run h.distinct rounds
  refine ⟨s, hloop, hrec.sent, fun k hk => (hrec.owned k hk).2, hends, fun hfin => ?_⟩
  have hleft : ∀ q ∈ s.parent.running, q ∈ s.parent.pids := by
    intro q hq
    rw [hrec.running, List.mem_filter, decide_eq_true_eq] at hq
    rcases hq.2 with hout | hin
    · exact absurd (h.recorded q hq.1) hout
    · exact hin
  rcases hrec.finished hfin with hnone | ⟨htime, hall⟩
  · left
    rw [List.eq_nil_iff_forall_not_mem]
    intro q hq
    have hmem := hleft q hq
    rw [hnone] at hmem
    exact List.not_mem_nil hmem
  · exact .inr ⟨htime, fun q hq => hall q (hleft q hq)⟩

/-- **A shutdown reaps the children.**  After a run in which no child is lost from the slots and
no used slot is above the high-water mark (`Parent.InSight`), `zevent_reclaim_child_processes`
reaps every running child, or gives up on those that were sent three SIGTERMs and a SIGKILL;
whatever the clock says and whichever children exit when. -/
theorem shutdown_reaps {s₀ : Parent} (h₀ : s₀.Initial)
    (h : Reach (Parent.step c) (Parent.InSight c) s₀ p) (rounds : List ReclaimRound) :
    ∃ s, Reaps p rounds s :=
  (stopping_of_reach h₀ h).reaps rounds

/-- Two children are started, and neither exits. -/
theorem shutdown_reaps_two :
    freshParent.Initial ∧ ∃ p, Reach (Parent.step (twoThreads 2)) (Parent.InSight (twoThreads 2))
        freshParent p
      ∧ p.running = [101, 100]
      ∧ ∃ s, Reaps p (stubborn [17, 3100, 5100, 7100, 9100, 10100]) s := by
  have hrun : (run (Parent.step (twoThreads 2)) (Parent.InSight (twoThreads 2)) freshParent
      (.timeout [some 100] :: childStarts ++ [.timeout [some 101]])).map Parent.running
      = some [101, 100] := by
    decide
  obtain ⟨p, hp, hpids⟩ := Option.map_eq_some_iff.mp hrun
  have hreach := Reach.refl.run _ hp
  exact ⟨freshParent_initial, p, hreach, hpids, shutdown_reaps freshParent_initial hreach _⟩

/-! ## The graceful stop -/

/-- What the system decides in a round of the graceful stop; `others` says which pids are those
of processes of the group that are not children, `sigterm` whether a SIGTERM has set
`shutdown_pending` when the loop tests it. -/
structure GracefulRound where
  slotExited : ℕ → Bool
  extraExited : ℕ → Bool
  others : ℕ → Bool
  sigterm : Bool

/-- `zevent_mpm_safe_kill` with the signal 0, and whether it returns `APR_SUCCESS`: there is
such a process, and it is in the process group. -/
def zeventMpmSafeKill (p : Parent) (others : ℕ → Bool) (pid : ℕ) : Bool :=
  if pid < 1 then false else decide (pid ∈ p.running) || others pid

/-- `active_children` of a round. -/
def activeChildren (c : Config) (p : Parent) (others : ℕ → Bool) : Bool :=
  (List.range c.daemonsLimit).any fun index =>
    zeventMpmSafeKill p others (p.sb.parent index).pid

/-- The loop "Don't really exit until each child has finished"; with the value of
`active_children` when it is over, `none` when it is not. -/
def gracefulLoop (c : Config) : Reclaim → List GracefulRound → Reclaim × Option Bool
  | s, [] => (s, none)
  | s, r :: rounds =>
      let s := zeventRelieveChildProcesses r.slotExited r.extraExited s
      let active := activeChildren c s.parent r.others
      if r.sigterm = false ∧ active = true then gracefulLoop c s rounds else (s, some active)

/-- The graceful branch up to its second `zevent_pod_killpg`; `first` has the exits its first
call of `zevent_relieve_child_processes` sees. -/
def gracefulStop (c : Config) (p : Parent) (first : GracefulRound) (rounds : List GracefulRound) :
    Reclaim × Option Bool :=
  gracefulLoop c
    (zeventRelieveChildProcesses first.slotExited first.extraExited (Reclaim.start p)) rounds

/-- **What relieving does**: no signal is sent, and every running child stays in sight. -/
theorem Parent.Stopping.relieve (h : s.parent.Stopping c) (slotExited extraExited : ℕ → Bool) :
    (zeventRelieveChildProcesses slotExited extraExited s).parent.Stopping c
      ∧ (zeventRelieveChildProcesses slotExited extraExited s).kills = s.kills
      ∧ (zeventRelieveChildProcesses slotExited extraExited s).parent.running
          ⊆ s.parent.running := by
  obtain ⟨hpass, hdistinct, hslot, hextras⟩ :=
    reclaimPass_spec .doNothing slotExited extraExited h.distinct
  have hsub : (reclaimPass .doNothing slotExited extraExited s).parent.running
      ⊆ s.parent.running := by
    rw [hpass.running]
    exact fun q hq => List.mem_of_mem_filter hq
  refine ⟨⟨hdistinct, fun i hi => ?_, ?_, fun q hq => ?_⟩, ?_, hsub⟩
  · exact h.below i (hslot i hi ▸ hi)
  · exact List.eq_nil_of_subset_nil (h.extras ▸ hextras)
  · have hin := h.recorded q (hsub hq)
    change q ∈ (reclaimPass .doNothing slotExited extraExited s).parent.running at hq
    rw [hpass.running, List.mem_filter, decide_eq_true_eq] at hq
    rcases hq.2 with hout | hleft
    · exact absurd hin hout
    · exact hleft
  · show (reclaimPass .doNothing slotExited extraExited s).kills = s.kills
    rw [hpass.kills]
    simp [ActionT.kills, ActionT.signal]

/-- When no child is active, none runs. -/
theorem Parent.Stopping.drained (h : p.Stopping c) {others : ℕ → Bool}
    (hidle : activeChildren c p others = false) : p.running = [] := by
  rw [List.eq_nil_iff_forall_not_mem]
  intro q hq
  have hmem := h.recorded q hq
  rw [Parent.pids, h.extras, List.append_nil, Parent.mem_slotPids] at hmem
  obtain ⟨hpos, i, -, hpid⟩ := hmem
  have hlt := h.below i (hpid ▸ hpos)
  rw [activeChildren, List.any_eq_false] at hidle
  apply hidle i (List.mem_range.mpr hlt)
  rw [hpid, zeventMpmSafeKill, if_neg (by omega), decide_eq_true hq, Bool.true_or]

/-- **Run lemma.** -/
theorem Parent.Stopping.gracefulLoop (rounds : List GracefulRound) (h : s.parent.Stopping c) :
    (gracefulLoop c s rounds).1.parent.Stopping c
      ∧ (gracefulLoop c s rounds).1.kills = s.kills
      ∧ (gracefulLoop c s rounds).1.parent.running ⊆ s.parent.running
      ∧ ((gracefulLoop c s rounds).2 = some false →
          (gracefulLoop c s rounds).1.parent.running = []) := by
  induction rounds generalizing s with
  | nil =>
      refine ⟨h, rfl, List.Subset.refl _, fun hnone => ?_⟩
      rw [Server.gracefulLoop] at hnone
      exact absurd hnone (by simp)
  | cons r rounds ih =>
      obtain ⟨hstop, hkills, hrun⟩ := h.relieve r.slotExited r.extraExited
      rw [Server.gracefulLoop]
      split
      · obtain ⟨hstop', hkills', hrun', hdone⟩ := ih hstop
        exact ⟨hstop', hkills'.trans hkills, fun q hq => hrun (hrun' hq), hdone⟩
      · exact ⟨hstop, hkills, hrun, fun hidle => hstop.drained (Option.some.inj hidle)⟩

/-- **A graceful stop waits for the children.**  After a run in which no child is lost from the
slots and no used slot is above the high-water mark (`Parent.InSight`), the graceful stop sends no
signal.  If it goes on because it finds no active child, no child runs any more, and reclaiming
signals nobody either; if a SIGTERM interrupts it, reclaiming does with the children that are left
what it does in a shutdown. -/
theorem graceful_stop_drains {s₀ : Parent} (h₀ : s₀.Initial)
    (h : Reach (Parent.step c) (Parent.InSight c) s₀ p) (first : GracefulRound)
    (rounds : List GracefulRound) (reclaim : List ReclaimRound) :
    (gracefulStop c p first rounds).1.kills = []
      ∧ (gracefulStop c p first rounds).1.parent.running ⊆ p.running
      ∧ ((gracefulStop c p first rounds).2 = some false →
          (gracefulStop c p first rounds).1.parent.running = [])
      ∧ ∃ s, Reaps (gracefulStop c p first rounds).1.parent reclaim s
        ∧ ((gracefulStop c p first rounds).2 = some false → s.kills = []) := by
  have hstop : (Reclaim.start p).parent.Stopping c := stopping_of_reach h₀ h
  obtain ⟨hfirst, hkills, hrun⟩ := hstop.relieve first.slotExited first.extraExited
  obtain ⟨hend, hkills', hrun', hdone⟩ := hfirst.gracefulLoop rounds
  obtain ⟨s, hs⟩ := hend.reaps reclaim
  refine ⟨hkills'.trans hkills, fun q hq => hrun (hrun' hq), hdone, s, hs, fun hidle => ?_⟩
  rw [List.eq_nil_iff_forall_not_mem]
  intro k hk
  have howned := hs.owned k hk
  rw [gracefulStop] at hidle
  rw [hdone hidle] at howned
  exact List.not_mem_nil howned

/-- A child is started, and exits in the second round of the stop. -/
theorem graceful_stop_drains_one :
    freshParent.Initial ∧ ∃ p, Reach (Parent.step (twoThreads 2)) (Parent.InSight (twoThreads 2))
        freshParent p
      ∧ p.running = [100]
      ∧ (gracefulStop (twoThreads 2) p ⟨fun _ => false, fun _ => false, fun _ => false, false⟩
          [⟨fun _ => false, fun _ => false, fun _ => false, false⟩,
            ⟨fun _ => true, fun _ => false, fun _ => false, false⟩]).1.kills = [] := by
  have hrun : (run (Parent.step (twoThreads 2)) (Parent.InSight (twoThreads 2)) freshParent
      (.timeout [some 100] :: childStarts)).map Parent.running = some [100] := by
    decide
  obtain ⟨p, hp, hpids⟩ := Option.map_eq_some_iff.mp hrun
  have hreach := Reach.refl.run _ hp
  exact ⟨freshParent_initial, p, hreach, hpids,
    (graceful_stop_drains freshParent_initial hreach _ _ []).1⟩

end Stopping

end Zevent.Server

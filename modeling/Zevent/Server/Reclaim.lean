/-
# Reclaiming the children (`zevent_mpm.c`)

At a shutdown and before a restart the parent calls `zevent_reclaim_child_processes`.  It goes
round and round over the slots below the high-water mark and over the list of extra processes,
takes out the children that have exited, and follows a table of actions for the others: a
SIGTERM after three, five and seven seconds, a SIGKILL after nine, and after ten it gives up.

What the operating system decides is part of a round: how much time has passed since the start,
and which of the children have exited when the loop comes to them.

A pass over the children is described by the list of those it looks at and the sublist of those
it leaves (`Pass`).  `reclaim_escalates` is what holds of every run of the loop, with any clock
and any exits; `reclaim_ends` says that the loop is over after thirteen rounds when each sleep
takes the time it was asked to take.
-/
import Zevent.Server.Parent

namespace Zevent.Server

/-! ## The functions of the source -/

/-- `action_t`. -/
inductive ActionT
  | doNothing | sendSigterm | sendSigkill | giveup
deriving DecidableEq, Repr

/-- The signals `reclaim_one_pid` sends. -/
inductive Signal
  | sigterm | sigkill
deriving DecidableEq, Repr

/-- A call of `kill`; `elapsed` is the time of the round it is made in. -/
structure KillCall where
  pid : ℕ
  signal : Signal
  elapsed : ℤ
deriving DecidableEq, Repr

/-- `apr_time_from_sec`. -/
def aprTimeFromSec (sec : ℤ) : ℤ := sec * 1000000

/-- `action_table`: the action, and the time since the start it is taken at. -/
def actionTable : List (ActionT × ℤ) :=
  [(.doNothing, 0), (.sendSigterm, aprTimeFromSec 3), (.sendSigterm, aprTimeFromSec 5),
    (.sendSigterm, aprTimeFromSec 7), (.sendSigkill, aprTimeFromSec 9),
    (.giveup, aprTimeFromSec 10)]

/-- The variables of `zevent_reclaim_child_processes` beside the state of the parent.
`curAction` is the action of the entry `cur_action`, `elapsed` is
`apr_time_now() - starttime` as the round reads it.  `finished` (the loop is over) and `kills`
(the calls of `kill`, the first one first) are only observed. -/
structure Reclaim where
  parent : Parent
  waittime : ℤ
  nextAction : ℕ
  curAction : ActionT
  elapsed : ℤ
  notDeadYet : ℕ
  finished : Bool
  kills : List KillCall

/-- The variables before the first round. -/
def Reclaim.start (p : Parent) : Reclaim where
  parent := p
  waittime := 1024 * 16
  nextAction := 1
  curAction := .doNothing
  elapsed := 0
  notDeadYet := 0
  finished := false
  kills := []

/-- `zevent_unregister_extra_mpm_process`: the list without the first entry that has the pid,
and whether there is one. -/
def zeventUnregisterExtraMpmProcess (pid : ℕ) : List ℕ → List ℕ × Bool
  | [] => ([], false)
  | cur :: next =>
      if cur = pid then (next, true)
      else
        let r := zeventUnregisterExtraMpmProcess pid next
        (cur :: r.1, r.2)

/-- `reclaim_one_pid`.  The call of `waitpid` says that the child is not done when it runs and
has not `exited`; else it has reaped the child, or there is no such child. -/
def reclaimOnePid (s : Reclaim) (pid : ℕ) (exited : Bool) (action : ActionT) : Reclaim × Bool :=
  if pid < 1 then (s, true)
  else if pid ∈ s.parent.running ∧ exited = false then
    match action with
    | .doNothing => (s, false)
    | .sendSigterm => ({ s with kills := s.kills ++ [⟨pid, .sigterm, s.elapsed⟩] }, false)
    | .sendSigkill => ({ s with kills := s.kills ++ [⟨pid, .sigkill, s.elapsed⟩] }, false)
    | .giveup => (s, false)
  else
    ({ s with parent := { s.parent with
        running := s.parent.running.filter (· ≠ pid) } }, true)

/-- `MPM_NOTE_CHILD_KILLED`. -/
def mpmNoteChildKilled (p : Parent) (i : ℕ) : Parent :=
  { p with sb := { p.sb with
    parent := Function.update p.sb.parent i { p.sb.parent i with pid := 0 } } }

/-- The loop's body for slot `i`; `exited` says which child has exited when it is looked at. -/
def reclaimSlot (action : ActionT) (exited : ℕ → Bool) (s : Reclaim) (i : ℕ) : Reclaim :=
  let pid := (s.parent.sb.parent i).pid
  if pid = 0 then s
  else
    let r := reclaimOnePid s pid (exited i) action
    if r.2 then { r.1 with parent := mpmNoteChildKilled r.1.parent i }
    else { r.1 with notDeadYet := r.1.notDeadYet + 1 }

/-- The loop's body for the extra process `cur`. -/
def reclaimExtra (action : ActionT) (exited : ℕ → Bool) (s : Reclaim) (cur : ℕ) : Reclaim :=
  let r := reclaimOnePid s cur (exited cur) action
  if r.2 then
    { r.1 with parent := { r.1.parent with
        extras := (zeventUnregisterExtraMpmProcess cur r.1.parent.extras).1 } }
  else { r.1 with notDeadYet := r.1.notDeadYet + 1 }

/-- The two loops over the children, with `max_daemons` the high-water mark.  An extra process
is taken off the list after its successor was read. -/
def reclaimPass (action : ActionT) (slotExited extraExited : ℕ → Bool) (s : Reclaim) : Reclaim :=
  let maxDaemons := s.parent.maxDaemonsLimit.toNat
  let s := (List.range maxDaemons).foldl (reclaimSlot action slotExited) s
  s.parent.extras.foldl (reclaimExtra action extraExited) s

/-- What the operating system decides in a round: the time that has passed, which slots' children
have exited when they are looked at, and which extra processes, by their pids. -/
structure ReclaimRound where
  elapsed : ℤ
  slotExited : ℕ → Bool
  extraExited : ℕ → Bool

/-- The loop makes the sleep four times as long, up to a second. -/
def nextWaittime (waittime : ℤ) : ℤ :=
  if waittime * 4 > aprTimeFromSec 1 then aprTimeFromSec 1 else waittime * 4

/-- The start of a round, up to "now see who is done": the table's entry `next_action` is taken
when its time has come. -/
def Reclaim.choose (s : Reclaim) (elapsed : ℤ) (entry : ActionT × ℤ) : Reclaim :=
  { s with
    waittime := nextWaittime s.waittime
    elapsed := elapsed
    curAction := if entry.2 ≤ elapsed then entry.1 else .doNothing
    nextAction := if entry.2 ≤ elapsed then s.nextAction + 1 else s.nextAction
    notDeadYet := 0 }

/-- A round of `zevent_reclaim_child_processes`; `none` when it reads behind the table. -/
def reclaimRound (s : Reclaim) (r : ReclaimRound) : Option Reclaim :=
  match actionTable[s.nextAction]? with
  | none => none
  | some entry =>
      let s := s.choose r.elapsed entry
      some (reclaimPass s.curAction r.slotExited r.extraExited s)

/-- The loop of `zevent_reclaim_child_processes` over the rounds the system makes it go. -/
def reclaimLoop : Reclaim → List ReclaimRound → Option Reclaim
  | s, [] => some s
  | s, r :: rounds =>
      match reclaimRound s r with
      | none => none
      | some s =>
          if s.notDeadYet > 0 ∧ s.curAction ≠ .giveup then reclaimLoop s rounds
          else some { s with finished := true }

/-- `zevent_reclaim_child_processes`; nothing reads its argument. -/
def zeventReclaimChildProcesses (p : Parent) (rounds : List ReclaimRound) : Option Reclaim :=
  reclaimLoop (Reclaim.start p) rounds

/-- `zevent_relieve_child_processes`: the same two loops with no action, and no count. -/
def zeventRelieveChildProcesses (slotExited extraExited : ℕ → Bool) (s : Reclaim) : Reclaim :=
  { reclaimPass .doNothing slotExited extraExited s with notDeadYet := s.notDeadYet }

/-! ## A pass over the children -/

section Passes

variable {s t : Reclaim} {looked left : List ℕ} {action : ActionT} {pid : ℕ}

/-- The pids in the slots below `n` that are in use. -/
def Parent.slotPids (p : Parent) (n : ℕ) : List ℕ :=
  ((List.range n).map fun i => (p.sb.parent i).pid).filter (· ≠ 0)

/-- The children a pass looks at. -/
def Parent.pids (p : Parent) : List ℕ := p.slotPids p.maxDaemonsLimit.toNat ++ p.extras

theorem Parent.slotPids_succ (p : Parent) (n : ℕ) :
    p.slotPids (n + 1) = p.slotPids n
      ++ if (p.sb.parent n).pid = 0 then [] else [(p.sb.parent n).pid] := by
  rw [slotPids, slotPids, List.range_succ, List.map_append, List.filter_append]
  congr 1
  by_cases hpid : (p.sb.parent n).pid = 0
  · simp [hpid]
  · simp [hpid]

/-- The slots from `n` on do not matter. -/
theorem Parent.slotPids_congr {p q : Parent} {n : ℕ}
    (h : ∀ i < n, (p.sb.parent i).pid = (q.sb.parent i).pid) : p.slotPids n = q.slotPids n := by
  rw [slotPids, slotPids]
  congr 1
  apply List.map_congr_left
  intro i hi
  exact h i (List.mem_range.mp hi)

/-- The signal of an action. -/
def ActionT.signal : ActionT → Option Signal
  | .doNothing => none
  | .sendSigterm => some .sigterm
  | .sendSigkill => some .sigkill
  | .giveup => none

/-- The call of `kill` an action makes for a child. -/
def ActionT.kills (action : ActionT) (elapsed : ℤ) (pid : ℕ) : List KillCall :=
  action.signal.toList.map fun signal => ⟨pid, signal, elapsed⟩

/-- From `s` to `t` the children `looked` at were looked at, and `left` are those of them that
are still there.  Each of these got the signal of the action, and none of the others runs. -/
structure Pass (action : ActionT) (s t : Reclaim) (looked left : List ℕ) : Prop where
  sublist : left.Sublist looked
  left_running : ∀ p ∈ left, p ∈ s.parent.running
  running : t.parent.running = s.parent.running.filter fun p => p ∉ looked ∨ p ∈ left
  kills : t.kills = s.kills ++ left.flatMap (action.kills s.elapsed)
  notDeadYet : t.notDeadYet = s.notDeadYet + left.length
  waittime : t.waittime = s.waittime
  nextAction : t.nextAction = s.nextAction
  curAction : t.curAction = s.curAction
  elapsed : t.elapsed = s.elapsed
  finished : t.finished = s.finished
  maxDaemonsLimit : t.parent.maxDaemonsLimit = s.parent.maxDaemonsLimit

theorem Pass.refl (action : ActionT) (s : Reclaim) : Pass action s s [] [] where
  sublist := List.Sublist.refl _
  left_running := by simp
  running := by simp
  kills := by simp
  notDeadYet := rfl
  waittime := rfl
  nextAction := rfl
  curAction := rfl
  elapsed := rfl
  finished := rfl
  maxDaemonsLimit := rfl

/-- A child that is gone is taken out of the running ones. -/
def Reclaim.reap (s : Reclaim) (pid : ℕ) : Reclaim :=
  { s with parent := { s.parent with running := s.parent.running.filter (· ≠ pid) } }

/-- A child that is not done gets the signal. -/
def Reclaim.sign (s : Reclaim) (action : ActionT) (pid : ℕ) : Reclaim :=
  { s with kills := s.kills ++ action.kills s.elapsed pid }

/-- **What `reclaim_one_pid` does**, for a pid that is not zero. -/
theorem reclaimOnePid_cases (s : Reclaim) (hpid : pid ≠ 0) (exited : Bool) (action : ActionT) :
    (pid ∈ s.parent.running ∧ reclaimOnePid s pid exited action = (s.sign action pid, false))
      ∨ reclaimOnePid s pid exited action = (s.reap pid, true) := by
  unfold reclaimOnePid
  rw [if_neg (by omega)]
  by_cases hrun : pid ∈ s.parent.running ∧ exited = false
  · left
    refine ⟨hrun.1, ?_⟩
    rw [if_pos hrun]
    cases action with
    | doNothing => simp [Reclaim.sign, ActionT.kills, ActionT.signal]
    | sendSigterm => simp [Reclaim.sign, ActionT.kills, ActionT.signal]
    | sendSigkill => simp [Reclaim.sign, ActionT.kills, ActionT.signal]
    | giveup => simp [Reclaim.sign, ActionT.kills, ActionT.signal]
  · right
    rw [if_neg hrun, Reclaim.reap]

/-- One child more was looked at, and is gone. -/
theorem Pass.reap (h : Pass action s t looked left) (hnew : pid ∉ looked) :
    Pass action s (t.reap pid) (looked ++ [pid]) left where
  sublist := h.sublist.trans (List.sublist_append_left _ _)
  left_running := h.left_running
  running := by
    show t.parent.running.filter (· ≠ pid) = _
    rw [h.running, List.filter_filter]
    apply List.filter_congr
    intro p _
    have hleft : p ∈ left → p ≠ pid := fun hp heq => hnew (heq ▸ h.sublist.subset hp)
    simp only [List.mem_append, List.mem_singleton, ne_eq, ← Bool.decide_and, decide_eq_decide]
    tauto
  kills := h.kills
  notDeadYet := h.notDeadYet
  waittime := h.waittime
  nextAction := h.nextAction
  curAction := h.curAction
  elapsed := h.elapsed
  finished := h.finished
  maxDaemonsLimit := h.maxDaemonsLimit

/-- One child more was looked at, and is not done. -/
theorem Pass.sign (h : Pass action s t looked left) (hnew : pid ∉ looked)
    (hrun : pid ∈ t.parent.running) :
    Pass action s { t.sign action pid with notDeadYet := t.notDeadYet + 1 }
      (looked ++ [pid]) (left ++ [pid]) where
  sublist := h.sublist.append (List.Sublist.refl _)
  left_running := by
    intro p hp
    rcases List.mem_append.mp hp with hp | hp
    · exact h.left_running p hp
    · rw [List.mem_singleton.mp hp]
      rw [h.running] at hrun
      exact List.mem_of_mem_filter hrun
  running := by
    show t.parent.running = _
    rw [h.running]
    apply List.filter_congr
    intro p _
    simp only [List.mem_append, List.mem_singleton, decide_eq_decide]
    by_cases heq : p = pid
    · subst heq
      simp [hnew]
    · simp [heq]
  kills := by
    show t.kills ++ action.kills t.elapsed pid = _
    rw [h.kills, h.elapsed, List.flatMap_append, List.flatMap_singleton, List.append_assoc]
  notDeadYet := by
    show t.notDeadYet + 1 = _
    rw [h.notDeadYet, List.length_append, List.length_singleton, Nat.add_assoc]
  waittime := h.waittime
  nextAction := h.nextAction
  curAction := h.curAction
  elapsed := h.elapsed
  finished := h.finished
  maxDaemonsLimit := h.maxDaemonsLimit

/-- Taking a child out of its slot, or off the list, is nothing a pass counts. -/
theorem Pass.withParent (h : Pass action s t looked left) (q : Parent)
    (hrun : q.running = t.parent.running) (hmark : q.maxDaemonsLimit = t.parent.maxDaemonsLimit) :
    Pass action s { t with parent := q } looked left where
  sublist := h.sublist
  left_running := h.left_running
  running := hrun.trans h.running
  kills := h.kills
  notDeadYet := h.notDeadYet
  waittime := h.waittime
  nextAction := h.nextAction
  curAction := h.curAction
  elapsed := h.elapsed
  finished := h.finished
  maxDaemonsLimit := hmark.trans h.maxDaemonsLimit

/-- `MPM_NOTE_CHILD_KILLED` empties the slot, and no other. -/
theorem mpmNoteChildKilled_pid (p : Parent) (i k : ℕ) :
    ((mpmNoteChildKilled p i).sb.parent k).pid = if k = i then 0 else (p.sb.parent k).pid := by
  rw [mpmNoteChildKilled]
  by_cases hk : k = i
  · simp [hk]
  · simp [hk]

/-- **The loop over the slots.**  It leaves a sublist of the pids in their slots, and nothing
in the other slots it looked at. -/
theorem slots_pass (action : ActionT) (exited : ℕ → Bool) (s : Reclaim) {n : ℕ}
    (hnodup : (s.parent.slotPids n).Nodup) :
    let t := (List.range n).foldl (reclaimSlot action exited) s
    Pass action s t (s.parent.slotPids n) (t.parent.slotPids n)
      ∧ (∀ i ≥ n, (t.parent.sb.parent i).pid = (s.parent.sb.parent i).pid)
      ∧ (∀ i, (t.parent.sb.parent i).pid ≠ 0 →
          (t.parent.sb.parent i).pid = (s.parent.sb.parent i).pid)
      ∧ t.parent.extras = s.parent.extras := by
  induction n with
  | zero => exact ⟨Pass.refl action s, fun _ _ => rfl, fun _ _ => rfl, rfl⟩
  | succ n ih =>
      rw [Parent.slotPids_succ] at hnodup ⊢
      have ih := ih (hnodup.sublist (List.sublist_append_left _ _))
      simp only [List.range_succ, List.foldl_append, List.foldl_cons, List.foldl_nil] at ih ⊢
      generalize (List.range n).foldl (reclaimSlot action exited) s = t at ih ⊢
      obtain ⟨hpass, habove, hslot, hextras⟩ := ih
      have hn := habove n (le_refl n)
      rw [reclaimSlot]
      simp only
      by_cases hempty : (s.parent.sb.parent n).pid = 0
      · -- an empty slot
        rw [if_pos (hn.trans hempty), if_pos hempty, List.append_nil, Parent.slotPids_succ,
          if_pos (hn.trans hempty), List.append_nil]
        exact ⟨hpass, fun i hi => habove i (by omega), hslot, hextras⟩
      · have hused : (t.parent.sb.parent n).pid ≠ 0 := hn ▸ hempty
        rw [if_neg hempty] at hnodup ⊢
        rw [if_neg hused, hn]
        have hnew : (s.parent.sb.parent n).pid ∉ s.parent.slotPids n := by
          intro hmem
          exact (List.nodup_append.mp hnodup).2.2 _ hmem _ (List.mem_singleton_self _) rfl
        rcases reclaimOnePid_cases t hempty (exited n) action with ⟨hrun, hres⟩ | hres
        · -- the child is not done
          rw [hres]
          simp only [Bool.false_eq_true, if_false]
          rw [Parent.slotPids_succ]
          have hsame : ∀ i, ((t.sign action (s.parent.sb.parent n).pid).parent.sb.parent i).pid
              = (t.parent.sb.parent i).pid := fun _ => rfl
          rw [if_neg (hsame n ▸ hused), hsame, hn]
          exact ⟨hpass.sign hnew hrun, fun i hi => habove i (by omega), hslot, hextras⟩
        · -- the child is gone
          rw [hres]
          simp only [if_true]
          have hpid := mpmNoteChildKilled_pid (t.reap (s.parent.sb.parent n).pid).parent n
          have hbelow : (mpmNoteChildKilled (t.reap (s.parent.sb.parent n).pid).parent n).slotPids n
              = t.parent.slotPids n := by
            apply Parent.slotPids_congr
            intro i hi
            rw [hpid, if_neg (by omega)]
            rfl
          rw [Parent.slotPids_succ, if_pos (by rw [hpid, if_pos rfl]), List.append_nil, hbelow]
          refine ⟨(hpass.reap hnew).withParent _ rfl rfl, fun i hi => ?_, fun i => ?_, hextras⟩
          · rw [hpid, if_neg (by omega)]
            exact habove i (by omega)
          · rw [hpid]
            by_cases hi : i = n
            · rw [if_pos hi]
              exact fun hzero => absurd rfl hzero
            · rw [if_neg hi]
              exact hslot i

/-- `zevent_unregister_extra_mpm_process` takes the first entry with the pid off the list. -/
theorem zeventUnregisterExtraMpmProcess_eq (pid : ℕ) (extras : List ℕ) :
    zeventUnregisterExtraMpmProcess pid extras = (extras.erase pid, decide (pid ∈ extras)) := by
  induction extras with
  | nil => rfl
  | cons cur next ih =>
      rw [zeventUnregisterExtraMpmProcess]
      by_cases hcur : cur = pid
      · subst hcur
        simp
      · rw [if_neg hcur, ih, List.erase_cons_tail (by simpa using hcur)]
        simp [Ne.symm hcur]

/-- **The loop over the extra processes**, `rest` of which it has still to look at. -/
theorem extras_pass (rest done : List ℕ) (exited : ℕ → Bool) (h : Pass action s t looked left)
    (hextras : t.parent.extras = done ++ rest) (hnodup : (looked ++ rest).Nodup)
    (hdone : done ⊆ looked) (hpos : 0 ∉ rest) :
    ∃ more, Pass action s (rest.foldl (reclaimExtra action exited) t) (looked ++ rest)
        (left ++ more)
      ∧ (rest.foldl (reclaimExtra action exited) t).parent.extras = done ++ more
      ∧ (rest.foldl (reclaimExtra action exited) t).parent.sb = t.parent.sb
      ∧ more.Sublist rest := by
  induction rest generalizing t looked left done with
  | nil =>
      refine ⟨[], ?_, hextras, rfl, List.Sublist.refl _⟩
      rw [List.append_nil, List.append_nil]
      exact h
  | cons cur rest ih =>
      rw [List.mem_cons, not_or] at hpos
      have hnew : cur ∉ looked := fun hmem =>
        (List.nodup_append.mp hnodup).2.2 cur hmem cur List.mem_cons_self rfl
      have hnodup' : ((looked ++ [cur]) ++ rest).Nodup := by
        rw [List.append_assoc]
        exact hnodup
      rw [List.foldl_cons, reclaimExtra]
      rcases reclaimOnePid_cases t (Ne.symm hpos.1) (exited cur) action with ⟨hrun, hres⟩ | hres
      · -- the process stays on the list
        rw [hres]
        simp only [Bool.false_eq_true, if_false]
        obtain ⟨more, hpass, hext, hsb, hsub⟩ := ih (done ++ [cur]) (h.sign hnew hrun)
          (by rw [List.append_assoc]; exact hextras) hnodup'
          (List.append_subset.mpr ⟨List.subset_append_of_subset_left _ hdone,
            List.subset_append_right _ _⟩) hpos.2
        rw [List.append_assoc, List.append_assoc] at hpass
        rw [List.append_assoc] at hext
        exact ⟨cur :: more, hpass, hext, hsb, hsub.cons_cons cur⟩
      · -- it is taken off
        rw [hres]
        simp only [if_true]
        have herase : (zeventUnregisterExtraMpmProcess cur (t.reap cur).parent.extras).1
            = done ++ rest := by
          rw [zeventUnregisterExtraMpmProcess_eq]
          show t.parent.extras.erase cur = _
          rw [hextras, List.erase_append_right _ fun hmem => hnew (hdone hmem),
            List.erase_cons_head]
        obtain ⟨more, hpass, hext, hsb, hsub⟩ := ih done
          ((h.reap hnew).withParent { (t.reap cur).parent with
            extras := (zeventUnregisterExtraMpmProcess cur (t.reap cur).parent.extras).1 }
            rfl rfl) herase hnodup'
          (List.subset_append_of_subset_left _ hdone) hpos.2
        refine ⟨more, ?_, hext, hsb, hsub.cons cur⟩
        rw [List.append_assoc] at hpass
        exact hpass

/-- No child is recorded twice, and no extra process has the pid zero. -/
structure Parent.Distinct (p : Parent) : Prop where
  nodup : p.pids.Nodup
  extras_pos : 0 ∉ p.extras

/-- **What a pass over the children does.** -/
theorem reclaimPass_spec (action : ActionT) (slotExited extraExited : ℕ → Bool)
    (h : s.parent.Distinct) :
    Pass action s (reclaimPass action slotExited extraExited s) s.parent.pids
        (reclaimPass action slotExited extraExited s).parent.pids
      ∧ (reclaimPass action slotExited extraExited s).parent.Distinct
      ∧ (∀ i, ((reclaimPass action slotExited extraExited s).parent.sb.parent i).pid ≠ 0 →
          ((reclaimPass action slotExited extraExited s).parent.sb.parent i).pid
            = (s.parent.sb.parent i).pid)
      ∧ (reclaimPass action slotExited extraExited s).parent.extras ⊆ s.parent.extras := by
  obtain ⟨hslots, -, hslot, hextras⟩ := slots_pass action slotExited s
    (h.nodup.sublist (List.sublist_append_left _ _))
  rw [reclaimPass]
  generalize (List.range s.parent.maxDaemonsLimit.toNat).foldl (reclaimSlot action slotExited) s = t
    at hslots hslot hextras ⊢
  obtain ⟨more, hpass, hext, hsb, hsub⟩ := extras_pass s.parent.extras [] extraExited hslots
    hextras h.nodup (List.nil_subset _) h.extras_pos
  rw [hextras]
  generalize s.parent.extras.foldl (reclaimExtra action extraExited) t = u at hpass hext hsb
  have hpids : u.parent.pids = t.parent.slotPids s.parent.maxDaemonsLimit.toNat ++ more := by
    rw [Parent.pids, hpass.maxDaemonsLimit, hext, List.nil_append]
    congr 1
    apply Parent.slotPids_congr
    intro i _
    rw [hsb]
  refine ⟨hpids ▸ hpass, ⟨?_, ?_⟩, ?_, ?_⟩
  · rw [hpids]
    exact h.nodup.sublist hpass.sublist
  · rw [hext]
    exact fun hmem => h.extras_pos (hsub.subset hmem)
  · rw [hsb]
    exact hslot
  · rw [hext]
    exact hsub.subset

end Passes

/-! ## A run of the loop -/

section Runs

variable {p : Parent} {s t : Reclaim}

/-- The signals of the table, and when they are sent. -/
def escalation : List (Signal × ℤ) :=
  [(.sigterm, aprTimeFromSec 3), (.sigterm, aprTimeFromSec 5), (.sigterm, aprTimeFromSec 7),
    (.sigkill, aprTimeFromSec 9)]

/-- The signals a child was sent. -/
def Reclaim.killsOf (s : Reclaim) (pid : ℕ) : List KillCall := s.kills.filter (·.pid = pid)

/-- The calls are those of the list, none of them before its time. -/
def Follows (l : List (Signal × ℤ)) (kills : List KillCall) : Prop :=
  List.Forall₂ (fun e k => k.signal = e.1 ∧ e.2 ≤ k.elapsed) l kills

theorem Follows.append {l l' : List (Signal × ℤ)} {kills kills' : List KillCall}
    (h : Follows l kills) (h' : Follows l' kills') : Follows (l ++ l') (kills ++ kills') :=
  List.rel_append h h'

/-- The entries of the table, and their signals in the escalation. -/
theorem actionTable_spec {n : ℕ} (hpos : 1 ≤ n) (hle : n ≤ 5) :
    ∃ action actionTime, actionTable[n]? = some (action, actionTime)
      ∧ escalation.take n
        = escalation.take (n - 1) ++ (action.signal.toList.map fun signal => (signal, actionTime))
      ∧ (action = .giveup → n = 5 ∧ actionTime = aprTimeFromSec 10)
      ∧ (n = 5 → action = .giveup) := by
  obtain rfl | rfl | rfl | rfl | rfl : n = 1 ∨ n = 2 ∨ n = 3 ∨ n = 4 ∨ n = 5 := by omega
  · exact ⟨.sendSigterm, aprTimeFromSec 3, rfl, rfl, by simp, by simp⟩
  · exact ⟨.sendSigterm, aprTimeFromSec 5, rfl, rfl, by simp, by simp⟩
  · exact ⟨.sendSigterm, aprTimeFromSec 7, rfl, rfl, by simp, by simp⟩
  · exact ⟨.sendSigkill, aprTimeFromSec 9, rfl, rfl, by simp, by simp⟩
  · exact ⟨.giveup, aprTimeFromSec 10, rfl, rfl, by simp, by simp⟩

/-- The calls a pass makes for one child. -/
theorem filter_flatMap_kills {left : List ℕ} (hnodup : left.Nodup) (action : ActionT)
    (elapsed : ℤ) (q : ℕ) :
    (left.flatMap (action.kills elapsed)).filter (·.pid = q)
      = if q ∈ left then action.kills elapsed q else [] := by
  have hself : ∀ pid, (action.kills elapsed pid).filter (·.pid = q)
      = if pid = q then action.kills elapsed pid else [] := by
    intro pid
    rw [ActionT.kills]
    by_cases hpid : pid = q
    · rw [if_pos hpid, List.filter_eq_self]
      simp [hpid]
    · rw [if_neg hpid, List.filter_eq_nil_iff]
      simp [hpid]
  induction left with
  | nil => simp
  | cons pid left ih =>
      rw [List.nodup_cons] at hnodup
      rw [List.flatMap_cons, List.filter_append, hself, ih hnodup.2]
      by_cases hpid : pid = q
      · subst hpid
        simp [hnodup.1]
      · simp [hpid, Ne.symm hpid]

/-- What holds before each round, and after the last one. -/
structure Reclaiming (p : Parent) (s : Reclaim) : Prop where
  distinct : s.parent.Distinct
  pids : s.parent.pids ⊆ p.pids
  running : s.parent.running = p.running.filter fun q => q ∉ p.pids ∨ q ∈ s.parent.pids
  pos : 1 ≤ s.nextAction
  giveup : s.curAction = .giveup → aprTimeFromSec 10 ≤ s.elapsed ∧ s.nextAction = 6
  more : s.curAction ≠ .giveup → s.nextAction ≤ 5
  sent : ∀ q ∈ s.parent.pids, Follows (escalation.take (s.nextAction - 1)) (s.killsOf q)
  sentSome : ∀ q, ∃ n, Follows (escalation.take n) (s.killsOf q)
  owned : ∀ k ∈ s.kills, k.pid ∈ p.pids ∧ k.pid ∈ p.running

theorem Reclaiming.start (h : p.Distinct) : Reclaiming p (Reclaim.start p) where
  distinct := h
  pids := List.Subset.refl _
  running := by
    show p.running = p.running.filter fun q => q ∉ p.pids ∨ q ∈ p.pids
    rw [eq_comm, List.filter_eq_self]
    intro q _
    rw [decide_eq_true_eq]
    exact (em (q ∈ p.pids)).symm
  pos := le_refl 1
  giveup := fun hcur => ActionT.noConfusion hcur
  more := by
    intro _
    show 1 ≤ 5
    omega
  sent := fun _ _ => List.Forall₂.nil
  sentSome := fun _ => ⟨0, List.Forall₂.nil⟩
  owned := by
    intro k hk
    exact absurd hk List.not_mem_nil

/-- What a round leaves beside the invariant. -/
structure RoundEnd (s : Reclaim) (r : ReclaimRound) (t : Reclaim) : Prop where
  notDeadYet : t.notDeadYet = t.parent.pids.length
  elapsed : t.elapsed = r.elapsed
  waittime : t.waittime = nextWaittime s.waittime
  finished : t.finished = s.finished
  nextAction : ∀ e, actionTable[s.nextAction]? = some e →
    t.nextAction = if e.2 ≤ r.elapsed then s.nextAction + 1 else s.nextAction

/-- **What a round does.**  It does not read behind the table, and keeps the invariant. -/
theorem reclaimRound_spec (h : Reclaiming p s) (hnext : s.nextAction ≤ 5) (r : ReclaimRound) :
    ∃ t, reclaimRound s r = some t ∧ Reclaiming p t ∧ RoundEnd s r t := by
  obtain ⟨action, actionTime, hentry, htake, hgiveup, hlast⟩ := actionTable_spec h.pos hnext
  rw [reclaimRound, hentry]
  simp only [Option.some.injEq, exists_eq_left']
  -- the state the children are looked at in
  have hcur : (s.choose r.elapsed (action, actionTime)).curAction
      = if actionTime ≤ r.elapsed then action else .doNothing := rfl
  have hnextAction : (s.choose r.elapsed (action, actionTime)).nextAction
      = if actionTime ≤ r.elapsed then s.nextAction + 1 else s.nextAction := rfl
  have hlapse : (s.choose r.elapsed (action, actionTime)).elapsed = r.elapsed := rfl
  have hparent : (s.choose r.elapsed (action, actionTime)).parent = s.parent := rfl
  have hkills : (s.choose r.elapsed (action, actionTime)).kills = s.kills := rfl
  have hwait : (s.choose r.elapsed (action, actionTime)).waittime = nextWaittime s.waittime := rfl
  have hfin : (s.choose r.elapsed (action, actionTime)).finished = s.finished := rfl
  have hzero : (s.choose r.elapsed (action, actionTime)).notDeadYet = 0 := rfl
  generalize s.choose r.elapsed (action, actionTime) = s₁ at *
  obtain ⟨hpass, hdistinct, -⟩ := reclaimPass_spec s₁.curAction r.slotExited r.extraExited
    (s := s₁) (hparent ▸ h.distinct)
  generalize reclaimPass s₁.curAction r.slotExited r.extraExited s₁ = t at hpass hdistinct ⊢
  have hsub : t.parent.pids ⊆ s.parent.pids := hparent ▸ hpass.sublist.subset
  have hof : ∀ q, t.killsOf q = s.killsOf q
      ++ if q ∈ t.parent.pids then s₁.curAction.kills r.elapsed q else [] := by
    intro q
    rw [Reclaim.killsOf, hpass.kills, List.filter_append, hlapse, hkills,
      filter_flatMap_kills hdistinct.nodup]
    rfl
  have hsent : ∀ q ∈ t.parent.pids,
      Follows (escalation.take (t.nextAction - 1)) (t.killsOf q) := by
    intro q hq
    rw [hof, if_pos hq, hpass.nextAction, hnextAction, hcur]
    have hbefore := h.sent q (hsub hq)
    by_cases hdue : actionTime ≤ r.elapsed
    · rw [if_pos hdue, if_pos hdue, Nat.add_sub_cancel, htake]
      refine hbefore.append ?_
      rw [ActionT.kills]
      cases action.signal with
      | none => exact List.Forall₂.nil
      | some signal => exact List.Forall₂.cons ⟨rfl, hdue⟩ List.Forall₂.nil
    · rw [if_neg hdue, if_neg hdue]
      have hnone : ActionT.kills .doNothing r.elapsed q = [] := rfl
      rw [hnone, List.append_nil]
      exact hbefore
  refine ⟨⟨hdistinct, fun _ hq => h.pids (hsub hq), ?_, ?_, ?_, ?_, hsent, ?_, ?_⟩, ?_⟩
  · -- the running ones
    rw [hpass.running, hparent, h.running, List.filter_filter]
    apply List.filter_congr
    intro q _
    have hin : q ∈ s.parent.pids → q ∈ p.pids := fun hq => h.pids hq
    have hin' : q ∈ t.parent.pids → q ∈ s.parent.pids := fun hq => hsub hq
    rw [← Bool.decide_and, decide_eq_decide]
    tauto
  · rw [hpass.nextAction, hnextAction]
    have := h.pos
    split <;> omega
  · intro hcurt
    rw [hpass.curAction, hcur] at hcurt
    rw [hpass.nextAction, hnextAction, hpass.elapsed, hlapse]
    by_cases hdue : actionTime ≤ r.elapsed
    · rw [if_pos hdue] at hcurt ⊢
      obtain ⟨hfive, htime⟩ := hgiveup hcurt
      exact ⟨htime ▸ hdue, by omega⟩
    · rw [if_neg hdue] at hcurt
      exact ActionT.noConfusion hcurt
  · intro hcurt
    rw [hpass.curAction, hcur] at hcurt
    rw [hpass.nextAction, hnextAction]
    by_cases hdue : actionTime ≤ r.elapsed
    · rw [if_pos hdue] at hcurt ⊢
      have : s.nextAction ≠ 5 := fun hfive => hcurt (hlast hfive)
      omega
    · rw [if_neg hdue]
      exact hnext
  · intro q
    by_cases hq : q ∈ t.parent.pids
    · exact ⟨_, hsent q hq⟩
    · obtain ⟨n, hn⟩ := h.sentSome q
      refine ⟨n, ?_⟩
      rw [hof, if_neg hq, List.append_nil]
      exact hn
  · intro k hk
    rw [hpass.kills, List.mem_append, hkills] at hk
    rcases hk with hk | hk
    · exact h.owned k hk
    · obtain ⟨q, hq, hkq⟩ := List.mem_flatMap.mp hk
      have hpid : k.pid = q := by
        rw [ActionT.kills, List.mem_map] at hkq
        obtain ⟨_, _, rfl⟩ := hkq
        rfl
      rw [hpid]
      refine ⟨h.pids (hsub hq), ?_⟩
      have hrun := hpass.left_running q hq
      rw [hparent, h.running] at hrun
      exact List.mem_of_mem_filter hrun
  · refine ⟨?_, hpass.elapsed.trans hlapse, hpass.waittime.trans hwait, hpass.finished.trans hfin,
      fun e he => ?_⟩
    · rw [hpass.notDeadYet, hzero, Nat.zero_add]
    · obtain rfl := Option.some.inj (hentry.symm.trans he)
      rw [hpass.nextAction, hnextAction]

/-! ## How long it takes -/

/-- Each sleep takes at least the time it was asked to take. -/
def Sleeps : ℤ → ℤ → List ReclaimRound → Prop
  | _, _, [] => True
  | waittime, last, r :: rounds =>
      last + waittime ≤ r.elapsed ∧ Sleeps (nextWaittime waittime) r.elapsed rounds

/-- The variables the time depends on. -/
structure Pace where
  waittime : ℤ
  elapsed : ℤ
  nextAction : ℕ

/-- The slowest round: the sleep takes exactly its time. -/
def Pace.next (x : Pace) : Pace where
  waittime := nextWaittime x.waittime
  elapsed := x.elapsed + x.waittime
  nextAction :=
    match actionTable[x.nextAction]? with
    | none => x.nextAction
    | some entry => if entry.2 ≤ x.elapsed + x.waittime then x.nextAction + 1 else x.nextAction

/-- The loop is at least as far as the pace. -/
structure Ahead (x : Pace) (s : Reclaim) : Prop where
  waittime : s.waittime = x.waittime
  elapsed : x.elapsed ≤ s.elapsed
  nextAction : x.nextAction ≤ s.nextAction

theorem Pace.le_next (x : Pace) : x.nextAction ≤ x.next.nextAction := by
  rw [next]
  rcases actionTable[x.nextAction]? with _ | entry
  · exact le_refl _
  · simp only
    split <;> omega

/-- A round keeps ahead of the slowest round. -/
theorem Ahead.next {x : Pace} {r : ReclaimRound} (h : Ahead x s) (ht : RoundEnd s r t)
    (hentry : ∃ e, actionTable[s.nextAction]? = some e)
    (hsleep : s.elapsed + s.waittime ≤ r.elapsed) : Ahead x.next t := by
  have hlate : x.elapsed + x.waittime ≤ r.elapsed := by
    have := h.elapsed
    rw [← h.waittime]
    omega
  refine ⟨?_, ?_, ?_⟩
  · rw [ht.waittime, h.waittime, Pace.next]
  · rw [ht.elapsed, Pace.next]
    exact hlate
  · obtain ⟨e, he⟩ := hentry
    rw [ht.nextAction e he]
    rcases Nat.lt_or_eq_of_le h.nextAction with hlt | heq
    · -- the pace is behind and takes one action at most
      have hone : x.next.nextAction ≤ x.nextAction + 1 := by
        rw [Pace.next]
        rcases actionTable[x.nextAction]? with _ | entry
        · exact Nat.le_succ _
        · simp only
          split <;> omega
      split <;> omega
    · rw [Pace.next, heq, he]
      simp only
      by_cases hdue : e.2 ≤ x.elapsed + x.waittime
      · rw [if_pos hdue, if_pos (hdue.trans hlate)]
      · rw [if_neg hdue]
        split <;> omega

/-- The pace after some rounds. -/
def Pace.after : ℕ → Pace → Pace
  | 0, x => x
  | n + 1, x => Pace.after n x.next

/-- Where the slowest run stands before the first round. -/
def Pace.start : Pace := ⟨1024 * 16, 0, 1⟩

theorem Pace.le_after (n : ℕ) (x : Pace) : x.nextAction ≤ (x.after n).nextAction := by
  induction n generalizing x with
  | zero => exact le_refl _
  | succ n ih => exact x.le_next.trans (ih x.next)

theorem Pace.after_add (m n : ℕ) (x : Pace) : x.after (m + n) = (x.after m).after n := by
  induction m generalizing x with
  | zero => rw [Nat.zero_add, after]
  | succ m ih => rw [Nat.add_right_comm, after, ih, after]

/-- After thirteen rounds the slowest run has given up. -/
theorem Pace.after_thirteen {n : ℕ} (hn : 13 ≤ n) : 6 ≤ (Pace.start.after n).nextAction := by
  have hthirteen : (Pace.start.after 13).nextAction = 6 := by decide
  rw [show n = 13 + (n - 13) from by omega, after_add, ← hthirteen]
  exact le_after _ _

/-! ## What a run of the loop does -/

/-- **Run lemma.** -/
theorem reclaimLoop_spec (rounds : List ReclaimRound) {x : Pace} (h : Reclaiming p s)
    (hnext : s.nextAction ≤ 5) (hfin : s.finished = false) (hahead : Ahead x s) :
    ∃ t, reclaimLoop s rounds = some t ∧ Reclaiming p t
      ∧ (t.finished = true → t.parent.pids = [] ∨ t.curAction = .giveup)
      ∧ (t.finished = false → t.nextAction ≤ 5)
      ∧ (t.finished = false → Sleeps s.waittime s.elapsed rounds →
          Ahead (x.after rounds.length) t) := by
  induction rounds generalizing s x with
  | nil =>
      refine ⟨s, rfl, h, fun htrue => ?_, fun _ => hnext, fun _ _ => hahead⟩
      rw [hfin] at htrue
      exact absurd htrue Bool.false_ne_true
  | cons r rounds ih =>
      obtain ⟨s', hround, hinv, hend⟩ := reclaimRound_spec h hnext r
      rw [reclaimLoop, hround]
      simp only
      by_cases hmore : s'.notDeadYet > 0 ∧ s'.curAction ≠ .giveup
      · rw [if_pos hmore]
        by_cases hsleep : s.elapsed + s.waittime ≤ r.elapsed
        · obtain ⟨e, e', hentry, -⟩ := actionTable_spec h.pos hnext
          obtain ⟨t, hloop, hrec, hdone, hgoing, hpace⟩ := ih hinv (hinv.more hmore.2)
            (hend.finished.trans hfin) (hahead.next hend ⟨_, hentry⟩ hsleep)
          refine ⟨t, hloop, hrec, hdone, hgoing, fun hnot hsleeps => ?_⟩
          rw [hend.waittime, hend.elapsed] at hpace
          exact hpace hnot hsleeps.2
        · -- the clock says that the sleep was shorter
          obtain ⟨t, hloop, hrec, hdone, hgoing, -⟩ := ih hinv (hinv.more hmore.2)
            (hend.finished.trans hfin) (x := ⟨s'.waittime, s'.elapsed, s'.nextAction⟩)
            ⟨rfl, le_refl _, le_refl _⟩
          exact ⟨t, hloop, hrec, hdone, hgoing, fun _ hsleeps => absurd hsleeps.1 hsleep⟩
      · rw [if_neg hmore]
        refine ⟨_, rfl, ?_, fun _ => ?_, fun hnot => ?_, fun hnot => ?_⟩
        · exact ⟨hinv.distinct, hinv.pids, hinv.running, hinv.pos, hinv.giveup, hinv.more,
            hinv.sent, hinv.sentSome, hinv.owned⟩
        · by_cases hcur : s'.curAction = .giveup
          · exact .inr hcur
          · left
            have hzero : s'.notDeadYet = 0 := by
              by_contra hpos
              exact hmore ⟨Nat.pos_of_ne_zero hpos, hcur⟩
            exact List.length_eq_zero_iff.mp (hend.notDeadYet.symm.trans hzero)
        · exact absurd hnot.symm Bool.false_ne_true
        · exact absurd hnot.symm Bool.false_ne_true

/-- What a run of the loop has done to the children of `p`.  Every child was sent a beginning
of the escalation, no signal before its time, and no process that is not a recorded child of
`p` was sent any.  The running children are those that are still recorded, and those that never
were.  When the loop is over none is recorded any more, or ten seconds have passed and each one
left got the whole escalation. -/
structure Reclaimed (p : Parent) (s : Reclaim) : Prop where
  sent : ∀ q, ∃ n, Follows (escalation.take n) (s.killsOf q)
  owned : ∀ k ∈ s.kills, k.pid ∈ p.pids ∧ k.pid ∈ p.running
  running : s.parent.running = p.running.filter fun q => q ∉ p.pids ∨ q ∈ s.parent.pids
  finished : s.finished = true → s.parent.pids = []
    ∨ aprTimeFromSec 10 ≤ s.elapsed ∧ ∀ q ∈ s.parent.pids, Follows escalation (s.killsOf q)

theorem Reclaiming.reclaimed (h : Reclaiming p s)
    (hfin : s.finished = true → s.parent.pids = [] ∨ s.curAction = .giveup) : Reclaimed p s where
  sent := h.sentSome
  owned := h.owned
  running := h.running
  finished := by
    intro hdone
    rcases hfin hdone with hnone | hgiveup
    · exact .inl hnone
    · obtain ⟨htime, hsix⟩ := h.giveup hgiveup
      refine .inr ⟨htime, fun q hq => ?_⟩
      have hall := h.sent q hq
      rw [hsix] at hall
      exact hall

/-- A run of the loop from the start, and when it is over. -/
theorem reclaim_run (h : p.Distinct) (rounds : List ReclaimRound) :
    ∃ s, zeventReclaimChildProcesses p rounds = some s ∧ Reclaimed p s
      ∧ (Sleeps (1024 * 16) 0 rounds → 13 ≤ rounds.length → s.finished = true) := by
  obtain ⟨s, hloop, hrec, hdone, hgoing, hpace⟩ := reclaimLoop_spec rounds (x := Pace.start)
    (Reclaiming.start h) (Nat.le_add_left 1 4) rfl ⟨rfl, le_refl _, le_refl _⟩
  refine ⟨s, hloop, hrec.reclaimed hdone, fun hsleeps hlength => ?_⟩
  by_contra hnot
  rw [Bool.not_eq_true] at hnot
  have hnext := (hpace hnot hsleeps).nextAction
  have := Pace.after_thirteen hlength
  have := hgoing hnot
  omega

/-- **What reclaiming does.**  Whatever the clock says and whichever children exit when, the
loop never reads behind the table of actions, and it keeps to the escalation. -/
theorem reclaim_escalates (h : p.Distinct) (rounds : List ReclaimRound) :
    ∃ s, zeventReclaimChildProcesses p rounds = some s ∧ Reclaimed p s := by
  obtain ⟨s, hloop, hrec, -⟩ := reclaim_run h rounds
  exact ⟨s, hloop, hrec⟩

/-- A parent with a child in slot 0 and an extra process. -/
def twoChildren : Parent :=
  { freshParent with
    sb := { freshParent.sb with parent := fun i => ⟨if i = 0 then 100 else 0, 0, false⟩ }
    maxDaemonsLimit := 1
    extras := [200]
    running := [100, 200] }

theorem twoChildren_distinct : twoChildren.Distinct :=
  ⟨by decide, by decide⟩

/-- Rounds at these times, in milliseconds, in which no child exits. -/
def stubborn (times : List ℤ) : List ReclaimRound :=
  times.map fun t => ⟨t * 1000, fun _ => false, fun _ => false⟩

/-- The loop is woken late once, and the children do not exit. -/
theorem reclaim_escalates_stubborn :
    ∃ s, zeventReclaimChildProcesses twoChildren (stubborn [17, 3100, 4100, 9100]) = some s
      ∧ Reclaimed twoChildren s :=
  reclaim_escalates twoChildren_distinct _

/-- **Reclaiming ends.**  When each sleep takes the time it was asked to take, the loop is over
after thirteen rounds, whichever children exit. -/
theorem reclaim_ends (h : p.Distinct) {rounds : List ReclaimRound}
    (hsleeps : Sleeps (1024 * 16) 0 rounds) (hlength : 13 ≤ rounds.length) :
    ∃ s, zeventReclaimChildProcesses p rounds = some s ∧ s.finished = true := by
  obtain ⟨s, hloop, -, hfin⟩ := reclaim_run h rounds
  exact ⟨s, hloop, hfin hsleeps hlength⟩

/-- Rounds that start a millisecond late. -/
theorem reclaim_ends_stubborn :
    ∃ s, zeventReclaimChildProcesses twoChildren (stubborn [17, 84, 348, 1349, 2350, 3351, 4352,
        5353, 6354, 7355, 8356, 9357, 10358]) = some s
      ∧ s.finished = true := by
  apply reclaim_ends twoChildren_distinct
  · simp [stubborn, Sleeps, nextWaittime, aprTimeFromSec]
  · simp [stubborn]

end Runs

end Zevent.Server

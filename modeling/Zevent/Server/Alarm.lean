/-
# Alarms on one interval timer (`zevent_alarm.c`)

The registered alarms are a list in the order of their registration, and one interval timer is
set for the earliest of them.  When it expires, `alarm_handler` runs the alarms that are
overdue and sets it again.

Two functions compare the clock with the time an alarm is due at: `run_alarms` runs it when the
clock is past that time, and `get_next_alarm_delay_time` gives the least delay when it is past
and the difference when it is not.  At the very microsecond the alarm is due it is not run, and
the difference is the zero that disarms the timer.

`timer_armed_iff` says when the timer is armed, and that it stays armed in every run in which
no call of `set_an_alarm` meets that microsecond.
-/
import Zevent.Lib.Interleaving
import Zevent.Lib.Timeval

namespace Zevent.Server

open Interleaving Timeval

/-! ## The data -/

/-- A value `gettimeofday` gives: the microseconds are normalised. -/
structure Reading where
  time : Timeval
  normalised : time.Normalised

/-- `struct zevent_alarm`, less the callback and its argument. -/
structure Alarm where
  t : Timeval
  flags : UInt32
  clientreg : UInt32
  tLast : Timeval
  tNext : Timeval
deriving DecidableEq, Repr

/-- `SA_REPEAT`. -/
def saRepeat : UInt32 := 1

/-- The test of the flag `SA_REPEAT`. -/
def Alarm.Repeats (a : Alarm) : Prop := a.flags &&& saRepeat ≠ 0

instance (a : Alarm) : Decidable a.Repeats := inferInstanceAs (Decidable (_ ≠ _))

/-- The static variables of the file, and the value the interval timer was last set to, which
is zero when it is disarmed.  The number of `registrations` is only observed. -/
structure Alarms where
  thealarms : List Alarm
  startAlarms : Bool
  regnum : UInt32
  timer : Timeval
  registrations : ℕ

/-- The variables before anything is registered. -/
def Alarms.start : Alarms where
  thealarms := []
  startAlarms := false
  regnum := 1
  timer := ⟨0, 0⟩
  registrations := 0

/-! ## The functions of the source -/

/-- The list with the first entry of a registration replaced, or unlinked. -/
def replaceEntry (clientreg : UInt32) (new : Option Alarm) : List Alarm → List Alarm
  | [] => []
  | a :: l => if a.clientreg = clientreg then new.toList ++ l
      else a :: replaceEntry clientreg new l

/-- `zevent_alarm_unregister`. -/
def zeventAlarmUnregister (l : List Alarm) (clientreg : UInt32) : List Alarm :=
  replaceEntry clientreg none l

/-- `sa_update_entry`; `none` says that the entry is to be unregistered.  An entry with a zero
`t_last` has never been called, one with a zero `t_next` has been called. -/
def saUpdateEntry (a : Alarm) (now : Reading) : Option Alarm :=
  if a.tLast.sec = 0 ∧ a.tLast.usec = 0 then
    some { a with
      tLast := now.time
      tNext := carry ⟨now.time.sec + a.t.sec, now.time.usec + a.t.usec⟩ }
  else if a.tNext.sec = 0 ∧ a.tNext.usec = 0 then
    if a.Repeats then
      if a.t.sec = 0 ∧ a.t.usec = 0 then none
      else some { a with tNext := carry ⟨a.tLast.sec + a.t.sec, a.tLast.usec + a.t.usec⟩ }
    else none
  else some a

/-- The loop of `sa_find_next` with the entry found so far. -/
def findNextLoop : List Alarm → Option Alarm → Option Alarm
  | [], lowest => lowest
  | a :: l, none => findNextLoop l (some a)
  | a :: l, some lowest =>
      if a.tNext.sec = lowest.tNext.sec then
        if a.tNext.usec < lowest.tNext.usec then findNextLoop l (some a)
        else findNextLoop l (some lowest)
      else if a.tNext.sec < lowest.tNext.sec then findNextLoop l (some a)
      else findNextLoop l (some lowest)

/-- `sa_find_next`. -/
def saFindNext (l : List Alarm) : Option Alarm := findNextLoop l none

/-- `sa_find_specific`. -/
def saFindSpecific (l : List Alarm) (clientreg : UInt32) : Option Alarm :=
  l.find? fun a => a.clientreg = clientreg

/-- `get_next_alarm_delay_time`: the delay it stores, if it stores one, and its value. -/
def getNextAlarmDelayTime (l : List Alarm) (now : Reading) : Option Timeval × Int32 :=
  match saFindNext l with
  | some a =>
      if a.tNext.Before now.time then (some ⟨0, 1⟩, a.clientreg.toInt32)
      else (some (borrow ⟨a.tNext.sec - now.time.sec, a.tNext.usec - now.time.usec⟩),
        a.clientreg.toInt32)
  | none => (none, 0)

/-- `setitimer`: a value that is negative or not normalised is refused. -/
def setitimer (timer value : Timeval) : Timeval :=
  if 0 ≤ value.sec ∧ value.Normalised then value else timer

/-- The value `set_an_alarm` gives `setitimer`, if it calls it. -/
def itValue (l : List Alarm) (now : Reading) : Option Timeval :=
  let (delta, nextalarm) := getNextAlarmDelayTime l now
  if nextalarm ≠ 0 then delta else none

/-- `set_an_alarm`. -/
def setAnAlarm (s : Alarms) (now : Reading) : Alarms :=
  match itValue s.thealarms now with
  | some value => { s with timer := setitimer s.timer value }
  | none => s

/-- What `zevent_alarm_register` and `zevent_alarm_register_hr` share: the new entry goes to
the end of the list.  The clock is read by `sa_update_entry` and by `set_an_alarm`; the second
component is the value they return. -/
def enroll (s : Alarms) (t : Timeval) (flags : UInt32) (now : Reading) : Alarms × UInt32 :=
  let a : Alarm := { t, flags, clientreg := s.regnum, tLast := ⟨0, 0⟩, tNext := ⟨0, 0⟩ }
  ({ s with
      thealarms := match saUpdateEntry a now with
        | some a => s.thealarms ++ [a]
        | none => zeventAlarmUnregister (s.thealarms ++ [a]) a.clientreg
      regnum := s.regnum + 1
      registrations := s.registrations + 1 }, s.regnum)

/-- `zevent_alarm_register_hr`; `callocOk` says whether it gets its block. -/
def zeventAlarmRegisterHr (s : Alarms) (t : Timeval) (flags : UInt32) (callocOk : Bool)
    (now now' : Reading) : Alarms × UInt32 :=
  if callocOk then
    let (s, clientreg) := enroll s t flags now
    (if s.startAlarms then setAnAlarm s now' else s, clientreg)
  else (s, 0)

/-- The interval `zevent_alarm_register` makes of its argument. -/
def interval (when : UInt32) : Timeval := if when = 0 then ⟨0, 1⟩ else ⟨when.toNat, 0⟩

/-- `zevent_alarm_register`. -/
def zeventAlarmRegister (s : Alarms) (when flags : UInt32) (callocOk : Bool)
    (now now' : Reading) : Alarms × UInt32 :=
  zeventAlarmRegisterHr s (interval when) flags callocOk now now'

/-- A call that changes the list of alarms, with the clock readings it makes. -/
inductive Edit
  | register (when flags : UInt32) (callocOk : Bool) (now now' : Reading)
  | registerHr (t : Timeval) (flags : UInt32) (callocOk : Bool) (now now' : Reading)
  | unregister (clientreg : UInt32)
  | unregisterAll

/-- Such a call. -/
def Alarms.edit (s : Alarms) : Edit → Alarms
  | .register when flags callocOk now now' => (zeventAlarmRegister s when flags callocOk now now').1
  | .registerHr t flags callocOk now now' =>
      (zeventAlarmRegisterHr s t flags callocOk now now').1
  | .unregister clientreg =>
      { s with thealarms := zeventAlarmUnregister s.thealarms clientreg }
  | .unregisterAll => { s with thealarms := [] }

/-- A round of the loop of `run_alarms`: the clock at its start, what the callback does, and
the clock of `sa_update_entry`, should it read it. -/
structure Round where
  now : Reading
  edits : List Edit
  now' : Reading

/-- The callback of an entry, and what is done to the entry behind it. -/
def Alarms.runEntry (s : Alarms) (r : Round) (clientreg : UInt32) : Alarms :=
  let s := r.edits.foldl Alarms.edit s
  match saFindSpecific s.thealarms clientreg with
  | some a =>
      let new := saUpdateEntry { a with tLast := r.now.time, tNext := ⟨0, 0⟩ } r.now'
      { s with thealarms := replaceEntry clientreg new s.thealarms }
  | none => s

/-- `run_alarms`, with the entries it runs; `none` says that it is still running when the
rounds are used up. -/
def runAlarms : List Round → Alarms → Option (Alarms × List Alarm)
  | [], s => if saFindNext s.thealarms = none then some (s, []) else none
  | r :: rounds, s =>
      match saFindNext s.thealarms with
      | some a =>
          if a.tNext.Before r.now.time then
            (runAlarms rounds (s.runEntry r a.clientreg)).map fun (s', log) => (s', a :: log)
          else some (s, [])
      | none => some (s, [])

/-- `alarm_handler`, when the timer has expired. -/
def alarmHandler (s : Alarms) (rounds : List Round) (now : Reading) : Option Alarms :=
  (runAlarms rounds { s with timer := ⟨0, 0⟩ }).map fun (s, _) => setAnAlarm s now

/-- `init_alarm_post_config`. -/
def initAlarmPostConfig (s : Alarms) (now : Reading) : Alarms :=
  setAnAlarm { s with startAlarms := true } now

/-- A call of the program, or the expiry of the timer. -/
inductive AlarmAction
  | edit (e : Edit)
  | runAlarms (rounds : List Round)
  | initPostConfig (now : Reading)
  | handler (rounds : List Round) (now : Reading)

/-- One step. -/
def Alarms.step (s : Alarms) : AlarmAction → Option Alarms
  | .edit e => some (s.edit e)
  | .runAlarms rounds => (runAlarms rounds s).map Prod.fst
  | .initPostConfig now => some (initAlarmPostConfig s now)
  | .handler rounds now => alarmHandler s rounds now

/-- What the running of an entry keeps, `run_alarms` keeps. -/
theorem runAlarms_rule {P : Alarms → Prop} {rounds : List Round}
    (hP : ∀ r ∈ rounds, ∀ s clientreg, P s → P (s.runEntry r clientreg)) {s s' : Alarms}
    {log : List Alarm} (hrun : runAlarms rounds s = some (s', log)) (h : P s) : P s' := by
  induction rounds generalizing s log with
  | nil =>
      rw [runAlarms] at hrun
      split_ifs at hrun
      obtain ⟨rfl, -⟩ := Prod.mk.inj (Option.some.inj hrun)
      exact h
  | cons r rounds ih =>
      rw [List.forall_mem_cons] at hP
      rw [runAlarms] at hrun
      split at hrun
      · split_ifs at hrun
        · obtain ⟨⟨s₁, log₁⟩, hrest, heq⟩ := Option.map_eq_some_iff.mp hrun
          obtain ⟨rfl, -⟩ := Prod.mk.inj heq
          exact ih hP.2 hrest (hP.1 s _ h)
        · obtain ⟨rfl, -⟩ := Prod.mk.inj (Option.some.inj hrun)
          exact h
      · obtain ⟨rfl, -⟩ := Prod.mk.inj (Option.some.inj hrun)
        exact h

/-! ## The earliest alarm -/

/-- **`sa_find_next`**: the entry found is one of the list, and none is due before it. -/
theorem findNextLoop_spec (l : List Alarm) (lowest : Option Alarm) :
    (findNextLoop l lowest = none ↔ l = [] ∧ lowest = none)
      ∧ ∀ a, findNextLoop l lowest = some a → (a ∈ l ∨ lowest = some a)
        ∧ (∀ b ∈ l, ¬ b.tNext.Before a.tNext) ∧ ∀ b ∈ lowest, ¬ b.tNext.Before a.tNext := by
  induction l generalizing lowest with
  | nil =>
      refine ⟨by simp [findNextLoop], ?_⟩
      rintro a rfl
      refine ⟨.inr rfl, by simp, ?_⟩
      intro b hb
      obtain rfl := Option.some.inj hb
      exact Before.irrefl _
  | cons a l ih =>
      cases lowest with
      | none =>
          obtain ⟨hnone, hsome⟩ := ih (some a)
          refine ⟨by simp [findNextLoop, hnone], fun c hc => ?_⟩
          obtain ⟨hmem, hl, ha⟩ := hsome c hc
          refine ⟨.inl ?_, ?_, by simp⟩
          · rcases hmem with hmem | heq
            · exact List.mem_cons_of_mem _ hmem
            · exact Option.some.inj heq ▸ List.mem_cons_self
          · rw [List.forall_mem_cons]
            exact ⟨ha a rfl, hl⟩
      | some b =>
          -- the loop goes on with the earlier of the two
          have hstep : findNextLoop (a :: l) (some b)
              = findNextLoop l (some (if a.tNext.Before b.tNext then a else b)) := by
            rw [findNextLoop]
            by_cases hab : a.tNext.Before b.tNext
            · rw [if_pos hab]
              rcases hab with hsec | ⟨hsec, husec⟩
              · rw [if_neg (by omega), if_pos hsec]
              · rw [if_pos hsec, if_pos husec]
            · rw [if_neg hab]
              rw [Before, not_or] at hab
              split_ifs <;> first | rfl | omega
          rw [hstep]
          obtain ⟨hnone, hsome⟩ := ih (some (if a.tNext.Before b.tNext then a else b))
          refine ⟨by simp [hnone], fun c hc => ?_⟩
          obtain ⟨hmem, hl, hlow⟩ := hsome c hc
          have hlow := hlow _ rfl
          refine ⟨?_, ?_, ?_⟩
          · rcases hmem with hmem | heq
            · exact .inl (List.mem_cons_of_mem _ hmem)
            · split_ifs at heq
              · exact .inl (Option.some.inj heq ▸ List.mem_cons_self)
              · exact .inr heq
          · rw [List.forall_mem_cons]
            refine ⟨fun hbefore => hlow ?_, hl⟩
            split_ifs with hab
            · exact hbefore
            · exact Before.of_not_before hab hbefore
          · intro d hd hbefore
            obtain rfl := Option.some.inj hd
            refine hlow ?_
            split_ifs with hab
            · exact hab.trans hbefore
            · exact hbefore

theorem saFindNext_eq_none {l : List Alarm} : saFindNext l = none ↔ l = [] := by
  rw [saFindNext, (findNextLoop_spec l none).1]
  simp

theorem saFindNext_spec {l : List Alarm} {a : Alarm} (h : saFindNext l = some a) :
    a ∈ l ∧ ∀ b ∈ l, ¬ b.tNext.Before a.tNext := by
  obtain ⟨hmem, hl, -⟩ := (findNextLoop_spec l none).2 a h
  exact ⟨hmem.resolve_right (by simp), hl⟩

/-! ## What every entry keeps -/

/-- What the list is a list of: `P` holds of an entry whose interval is a `Q` when
`sa_update_entry` has set the time it is due at. -/
structure EntryRule (P : Alarm → Prop) (Q : Timeval → Prop) : Prop where
  interval : ∀ a, P a → Q a.t
  update : ∀ a now b, Q a.t → a.tLast.Normalised → a.tNext = ⟨0, 0⟩ →
    saUpdateEntry a now = some b → P b

/-- The intervals that are registered. -/
def Edit.Takes (Q : Timeval → Prop) : Edit → Prop
  | .register when _ _ _ _ => Q (interval when)
  | .registerHr t _ _ _ _ => Q t
  | _ => True

/-- The intervals the callbacks register. -/
def Round.Takes (Q : Timeval → Prop) (r : Round) : Prop := ∀ e ∈ r.edits, e.Takes Q

/-- The intervals a step registers. -/
def AlarmAction.Takes (Q : Timeval → Prop) : AlarmAction → Prop
  | .edit e => e.Takes Q
  | .runAlarms rounds => ∀ r ∈ rounds, r.Takes Q
  | .initPostConfig _ => True
  | .handler rounds _ => ∀ r ∈ rounds, r.Takes Q

/-- Every registered alarm is a `P`. -/
def Alarms.Each (P : Alarm → Prop) (s : Alarms) : Prop := ∀ a ∈ s.thealarms, P a

/-- Nothing but the new entry comes into the list. -/
theorem mem_of_mem_replaceEntry {clientreg : UInt32} {new : Option Alarm} {l : List Alarm}
    {b : Alarm} (h : b ∈ replaceEntry clientreg new l) : b ∈ l ∨ new = some b := by
  induction l with
  | nil => cases h
  | cons a l ih =>
      rw [replaceEntry] at h
      split at h
      · rcases List.mem_append.mp h with hnew | hold
        · exact .inr (Option.mem_toList.mp hnew)
        · exact .inl (List.mem_cons_of_mem _ hold)
      · rcases List.mem_cons.mp h with rfl | hrest
        · exact .inl List.mem_cons_self
        · exact (ih hrest).imp_left (List.mem_cons_of_mem _)

@[simp] theorem setAnAlarm_thealarms (s : Alarms) (now : Reading) :
    (setAnAlarm s now).thealarms = s.thealarms := by
  rw [setAnAlarm]
  split <;> rfl

@[simp] theorem setAnAlarm_startAlarms (s : Alarms) (now : Reading) :
    (setAnAlarm s now).startAlarms = s.startAlarms := by
  rw [setAnAlarm]
  split <;> rfl

/-- The entry that is registered has been given the time it is due at. -/
theorem enroll_thealarms (s : Alarms) (t : Timeval) (flags : UInt32) (now : Reading) :
    (enroll s t flags now).1.thealarms = s.thealarms ++ [{
      t, flags, clientreg := s.regnum, tLast := now.time
      tNext := carry ⟨now.time.sec + t.sec, now.time.usec + t.usec⟩ }] := by
  simp [enroll, saUpdateEntry]

/-- What a registration does to the list, if it gets its block. -/
theorem register_thealarms (s : Alarms) (t : Timeval) (flags : UInt32) (callocOk : Bool)
    (now now' : Reading) :
    (zeventAlarmRegisterHr s t flags callocOk now now').1.thealarms
      = if callocOk then (enroll s t flags now).1.thealarms else s.thealarms := by
  rw [zeventAlarmRegisterHr]
  cases callocOk with
  | false => rfl
  | true =>
      simp only [if_true]
      split
      · rw [setAnAlarm_thealarms]
      · rfl

theorem zero_normalised : (⟨0, 0⟩ : Timeval).Normalised := ⟨le_rfl, by decide⟩

section Each

variable {P : Alarm → Prop} {Q : Timeval → Prop} {s s' : Alarms}

/-- A registration keeps the property. -/
theorem EntryRule.register (hrule : EntryRule P Q) (hs : s.Each P) {t : Timeval} (ht : Q t)
    (flags : UInt32) (callocOk : Bool) (now now' : Reading) :
    (zeventAlarmRegisterHr s t flags callocOk now now').1.Each P := by
  intro a ha
  rw [register_thealarms] at ha
  split at ha
  · rw [enroll_thealarms, List.mem_append, List.mem_singleton] at ha
    rcases ha with hold | rfl
    · exact hs a hold
    · refine hrule.update { t, flags, clientreg := s.regnum, tLast := ⟨0, 0⟩, tNext := ⟨0, 0⟩ } now
        _ ht zero_normalised rfl ?_
      rw [saUpdateEntry, if_pos ⟨rfl, rfl⟩]
  · exact hs a ha

theorem EntryRule.edit (hrule : EntryRule P Q) (hs : s.Each P) {e : Edit} (he : e.Takes Q) :
    (s.edit e).Each P := by
  cases e with
  | register when flags callocOk now now' => exact hrule.register hs he flags callocOk now now'
  | registerHr t flags callocOk now now' => exact hrule.register hs he flags callocOk now now'
  | unregister clientreg =>
      intro a ha
      exact (mem_of_mem_replaceEntry ha).elim (hs a) (by simp)
  | unregisterAll =>
      intro a ha
      cases ha

theorem EntryRule.edits (hrule : EntryRule P Q) (hs : s.Each P) {l : List Edit}
    (hl : ∀ e ∈ l, e.Takes Q) : (l.foldl Alarms.edit s).Each P := by
  induction l generalizing s with
  | nil => exact hs
  | cons e l ih =>
      rw [List.forall_mem_cons] at hl
      exact ih (hrule.edit hs hl.1) hl.2

/-- Running an entry keeps the property. -/
theorem EntryRule.runEntry (hrule : EntryRule P Q) (hs : s.Each P) {r : Round} (hr : r.Takes Q)
    (clientreg : UInt32) : (s.runEntry r clientreg).Each P := by
  have hedits := hrule.edits hs hr
  rw [Alarms.runEntry]
  simp only
  split
  · rename_i a hfind
    intro b hb
    rcases mem_of_mem_replaceEntry hb with hold | hnew
    · exact hedits b hold
    · have ht := hrule.interval a (hedits a (List.mem_of_find?_eq_some hfind))
      exact hrule.update { a with tLast := r.now.time, tNext := ⟨0, 0⟩ } r.now' b ht
        r.now.normalised rfl hnew
  · exact hedits

theorem EntryRule.runAlarms (hrule : EntryRule P Q) (hs : s.Each P) {rounds : List Round}
    (hrounds : ∀ r ∈ rounds, r.Takes Q) {log : List Alarm}
    (hrun : runAlarms rounds s = some (s', log)) : s'.Each P :=
  runAlarms_rule (P := Alarms.Each P)
    (fun r hr _ clientreg hs => hrule.runEntry hs (hrounds r hr) clientreg) hrun hs

/-- **Step lemma.**  Every step keeps the property of the entries. -/
theorem EntryRule.step (hrule : EntryRule P Q) (hs : s.Each P) {a : AlarmAction}
    (ha : a.Takes Q) (hstep : s.step a = some s') : s'.Each P := by
  cases a with
  | edit e =>
      obtain rfl := Option.some.inj hstep
      exact hrule.edit hs ha
  | runAlarms rounds =>
      obtain ⟨⟨s₁, log⟩, hrun, rfl⟩ := Option.map_eq_some_iff.mp hstep
      exact hrule.runAlarms hs ha hrun
  | initPostConfig now =>
      obtain rfl := Option.some.inj hstep
      intro a ha
      rw [initAlarmPostConfig, setAnAlarm_thealarms] at ha
      exact hs a ha
  | handler rounds now =>
      obtain ⟨⟨s₁, log⟩, hrun, rfl⟩ := Option.map_eq_some_iff.mp hstep
      have hs₁ := hrule.runAlarms (s := { s with timer := ⟨0, 0⟩ }) hs ha hrun
      intro a ha
      rw [setAnAlarm_thealarms] at ha
      exact hs₁ a ha

end Each

/-! ## Arming the timer -/

/-- The microseconds of the time an entry is due at are less than a second. -/
def Alarm.Carried (a : Alarm) : Prop := a.tNext.usec < 1000000

theorem carried_rule : EntryRule Alarm.Carried fun _ => True where
  interval := fun _ _ => trivial
  update := by
    intro a now b _ _ hzero hb
    rw [saUpdateEntry] at hb
    split_ifs at hb with hlast hnext
    · rw [← Option.some.inj hb]
      exact (carry_spec _).2.1
    · rw [← Option.some.inj hb]
      exact (carry_spec _).2.1
    · exact absurd ⟨congrArg Timeval.sec hzero, congrArg Timeval.usec hzero⟩ hnext

/-- The property: the next delay is positive and normalised, and `set_an_alarm` sets the timer
to it. -/
def Alarms.Arms (s : Alarms) (now : Reading) : Prop :=
  ∃ delta, (getNextAlarmDelayTime s.thealarms now).1 = some delta
    ∧ 0 < delta.micros ∧ delta.Normalised
    ∧ itValue s.thealarms now = some delta ∧ (setAnAlarm s now).timer = delta

/-- The condition: the earliest alarm does not have the number zero, and the clock is past the
time it is due at, as `run_alarms` compares them, or has not come to it. -/
def Clear (l : List Alarm) (now : Reading) : Prop :=
  ∀ a ∈ saFindNext l, a.clientreg ≠ 0
    ∧ (a.tNext.Before now.time ∨ now.time.micros < a.tNext.micros)

instance (l : List Alarm) (now : Reading) : Decidable (Clear l now) :=
  inferInstanceAs (Decidable (∀ a ∈ _, _ ∧ (_ ∨ _)))

theorem toInt32_eq_zero {x : UInt32} : x.toInt32 = 0 ↔ x = 0 :=
  ⟨fun h => congrArg Int32.toUInt32 h, fun h => h ▸ rfl⟩

/-- The delay to a time, and when it is positive. -/
theorem delay_spec {t : Timeval} (ht : t.usec < 1000000) (now : Reading) :
    (borrow ⟨t.sec - now.time.sec, t.usec - now.time.usec⟩).Normalised
      ∧ (borrow ⟨t.sec - now.time.sec, t.usec - now.time.usec⟩).micros
        = t.micros - now.time.micros := by
  obtain ⟨hmicros, hnonneg, hlt⟩ := borrow_spec ⟨t.sec - now.time.sec, t.usec - now.time.usec⟩
  have hnow := now.normalised.1
  refine ⟨⟨hnonneg, hlt (by simp only; omega)⟩, hmicros.trans ?_⟩
  simp only [micros]
  ring

/-- **The timer is armed** exactly under the condition. -/
theorem arms_iff {s : Alarms} (hs : s.Each Alarm.Carried) (hne : s.thealarms ≠ [])
    (now : Reading) : s.Arms now ↔ Clear s.thealarms now := by
  obtain ⟨a, ha⟩ := Option.ne_none_iff_exists'.mp (mt saFindNext_eq_none.mp hne)
  have hcarried := hs a (saFindNext_spec ha).1
  have hclear : Clear s.thealarms now
      ↔ a.clientreg ≠ 0 ∧ (a.tNext.Before now.time ∨ now.time.micros < a.tNext.micros) := by
    rw [Clear, ha]
    simp
  obtain ⟨delta, hdelta, hnormal, hpos⟩ : ∃ delta,
      getNextAlarmDelayTime s.thealarms now = (some delta, a.clientreg.toInt32)
        ∧ delta.Normalised
        ∧ (0 < delta.micros ↔ a.tNext.Before now.time ∨ now.time.micros < a.tNext.micros) := by
    rw [getNextAlarmDelayTime, ha]
    simp only
    split_ifs with hbefore
    · exact ⟨⟨0, 1⟩, rfl, by decide, by simp [hbefore, micros]⟩
    · obtain ⟨hnormal, hmicros⟩ := delay_spec hcarried now
      refine ⟨_, rfl, hnormal, ?_⟩
      rw [hmicros]
      simp only [hbefore, false_or]
      omega
  have hvalue : itValue s.thealarms now = if a.clientreg ≠ 0 then some delta else none := by
    rw [itValue, hdelta]
    simp only [ne_eq, toInt32_eq_zero]
  rw [hclear, Alarms.Arms, hdelta, hvalue]
  constructor
  · rintro ⟨delta', heq, hpos', -, hset, -⟩
    obtain rfl := Option.some.inj heq
    split_ifs at hset with hzero
    exact ⟨hzero, hpos.mp hpos'⟩
  · rintro ⟨hreg, htime⟩
    have hmicros := hpos.mpr htime
    refine ⟨delta, rfl, hmicros, hnormal, if_pos hreg, ?_⟩
    have hsec : 0 ≤ delta.sec := by
      have hlt := hnormal.2
      rw [micros] at hmicros
      omega
    rw [setAnAlarm, hvalue, if_pos hreg]
    exact if_pos ⟨hsec, hnormal⟩

/-! ## Over every run -/

/-- The guard of a run: no call of `set_an_alarm`, other than those of the callbacks, meets the
microsecond the earliest alarm is due at; and a program that runs the alarms itself has not
started the timer. -/
def Alarms.Punctual (s : Alarms) : AlarmAction → Prop
  | .edit (.register when flags callocOk now now') => callocOk = true → s.startAlarms = true →
      Clear (enroll s (interval when) flags now).1.thealarms now'
  | .edit (.registerHr t flags callocOk now now') => callocOk = true → s.startAlarms = true →
      Clear (enroll s t flags now).1.thealarms now'
  | .edit _ => True
  | .runAlarms _ => s.startAlarms = false
  | .initPostConfig now => Clear s.thealarms now
  | .handler rounds now => ∀ s' log, runAlarms rounds { s with timer := ⟨0, 0⟩ } = some (s', log) →
      Clear s'.thealarms now

/-- When the alarms are started, and there is one, the timer is armed. -/
def Alarms.Armed (s : Alarms) : Prop :=
  s.startAlarms = true → s.thealarms ≠ [] → 0 < s.timer.micros

section Armed

variable {s s' : Alarms}

theorem armed_of_clear (hs : s.Each Alarm.Carried) {now : Reading}
    (hclear : Clear s.thealarms now) : (setAnAlarm s now).Armed := by
  intro _ hne
  rw [setAnAlarm_thealarms] at hne
  obtain ⟨delta, -, hpos, -, -, htimer⟩ := (arms_iff hs hne now).mpr hclear
  rwa [htimer]

theorem Alarms.Armed.register (hs : s.Each Alarm.Carried) (harmed : s.Armed) {t : Timeval}
    {flags : UInt32} {callocOk : Bool} {now now' : Reading}
    (hok : callocOk = true → s.startAlarms = true → Clear (enroll s t flags now).1.thealarms now') :
    (zeventAlarmRegisterHr s t flags callocOk now now').1.Armed := by
  have hcarried := carried_rule.register hs (t := t) trivial flags true now now'
  rw [zeventAlarmRegisterHr]
  cases callocOk with
  | false => exact harmed
  | true =>
      simp only [if_true]
      split
      · rename_i hstart
        refine armed_of_clear ?_ (hok rfl hstart)
        intro a ha
        rw [Alarms.Each, register_thealarms] at hcarried
        exact hcarried a ha
      · rename_i hstart
        exact fun h => absurd h hstart

/-- A round of the callbacks leaves `start_alarms`. -/
theorem edit_startAlarms (s : Alarms) (e : Edit) : (s.edit e).startAlarms = s.startAlarms := by
  have hregister : ∀ t flags callocOk now now',
      (zeventAlarmRegisterHr s t flags callocOk now now').1.startAlarms = s.startAlarms := by
    intro t flags callocOk now now'
    rw [zeventAlarmRegisterHr]
    split
    · simp only
      split
      · rw [setAnAlarm_startAlarms]
        rfl
      · rfl
    · rfl
  cases e with
  | register => exact hregister ..
  | registerHr => exact hregister ..
  | unregister => rfl
  | unregisterAll => rfl

theorem runEntry_startAlarms (s : Alarms) (r : Round) (clientreg : UInt32) :
    (s.runEntry r clientreg).startAlarms = s.startAlarms := by
  have hedits : ∀ (l : List Edit) (s : Alarms),
      (l.foldl Alarms.edit s).startAlarms = s.startAlarms := by
    intro l
    induction l with
    | nil => exact fun _ => rfl
    | cons e l ih => exact fun s => (ih _).trans (edit_startAlarms s e)
  rw [Alarms.runEntry]
  simp only
  split
  · exact hedits ..
  · exact hedits ..

theorem runAlarms_startAlarms {rounds : List Round} {log : List Alarm}
    (hrun : runAlarms rounds s = some (s', log)) : s'.startAlarms = s.startAlarms :=
  runAlarms_rule (P := fun t => t.startAlarms = s.startAlarms)
    (fun r _ t clientreg ht => (runEntry_startAlarms t r clientreg).trans ht) hrun rfl

/-- **Step lemma.**  A step that meets the condition leaves the timer armed. -/
theorem Alarms.Armed.step (hs : s.Each Alarm.Carried) (harmed : s.Armed) {a : AlarmAction}
    (hok : s.Punctual a) (hstep : s.step a = some s') : s'.Armed := by
  cases a with
  | edit e =>
      obtain rfl := Option.some.inj hstep
      cases e with
      | register => exact harmed.register hs hok
      | registerHr => exact harmed.register hs hok
      | unregister clientreg =>
          intro hstart hne
          refine harmed hstart fun hnil => hne ?_
          rw [Alarms.edit, zeventAlarmUnregister, hnil]
          rfl
      | unregisterAll => exact fun _ hne => absurd rfl hne
  | runAlarms rounds =>
      obtain ⟨⟨s₁, log⟩, hrun, rfl⟩ := Option.map_eq_some_iff.mp hstep
      intro hstart
      rw [runAlarms_startAlarms hrun] at hstart
      exact absurd (hstart.symm.trans hok) (by simp)
  | initPostConfig now =>
      obtain rfl := Option.some.inj hstep
      exact armed_of_clear (s := { s with startAlarms := true }) hs hok
  | handler rounds now =>
      obtain ⟨⟨s₁, log⟩, hrun, rfl⟩ := Option.map_eq_some_iff.mp hstep
      have hs₁ := carried_rule.runAlarms (s := { s with timer := ⟨0, 0⟩ }) hs
        (fun r _ e _ => by cases e <;> trivial) hrun
      exact armed_of_clear hs₁ (hok s₁ log hrun)

end Armed

/-- **When the timer is armed.**  In every state of every run, for every clock reading, the
delay to the earliest alarm is positive and normalised, and `set_an_alarm` sets the timer to it,
exactly when the earliest alarm is not numbered zero and the reading is not the microsecond it
is due at; and in every run whose calls of `set_an_alarm` meet this, from the start of the
alarms on, a registered alarm never is without an armed timer. -/
theorem timer_armed_iff {s : Alarms} :
    (Reach Alarms.step Always .start s → s.thealarms ≠ [] →
      ∀ now, s.Arms now ↔ Clear s.thealarms now)
    ∧ (Reach Alarms.step Alarms.Punctual .start s → s.Armed) := by
  have htakes : ∀ a : AlarmAction, a.Takes fun _ => True := by
    have hedit : ∀ e : Edit, e.Takes fun _ => True := fun e => by cases e <;> trivial
    intro a
    cases a with
    | edit e => exact hedit e
    | runAlarms rounds => exact fun _ _ e _ => hedit e
    | initPostConfig now => trivial
    | handler rounds now => exact fun _ _ e _ => hedit e
  have hempty : Alarms.start.Each Alarm.Carried := fun a ha => by cases ha
  constructor
  · intro h hne now
    refine arms_iff (h.invariant (Alarms.Each Alarm.Carried) hempty ?_) hne now
    intro s a s' hs _ hstep
    exact carried_rule.step hs (htakes a) hstep
  · intro h
    refine (h.invariant (fun s => s.Each Alarm.Carried ∧ s.Armed) ⟨hempty, ?_⟩ ?_).2
    · exact fun _ hne => absurd rfl hne
    · rintro s a s' ⟨hs, harmed⟩ hok hstep
      exact ⟨carried_rule.step hs (htakes a) hstep, harmed.step hs hok hstep⟩

/-- The clock at a number of seconds. -/
def seconds (n : ℤ) : Reading := ⟨⟨n, 0⟩, zero_normalised⟩

/-- An alarm in five seconds, then the start of the alarms a second later. -/
theorem timer_armed_iff_started : ∃ s : Alarms, s.thealarms ≠ [] ∧ s.Armed
    ∧ (s.Arms (seconds 102) ↔ Clear s.thealarms (seconds 102)) := by
  have hstep₁ : Alarms.start.step
      (.edit (.register 5 0 true (seconds 100) (seconds 100))) = some _ := rfl
  have hclear : Clear (Alarms.start.edit
      (.register 5 0 true (seconds 100) (seconds 100))).thealarms (seconds 101) := by
    decide
  have hreach : Reach Alarms.step Alarms.Punctual .start _ :=
    (Reach.refl.tail (by intro _ h; cases h) hstep₁).tail
      (a := .initPostConfig (seconds 101)) hclear rfl
  have hreach' : Reach Alarms.step Always .start _ :=
    (Reach.refl.tail trivial hstep₁).tail (a := .initPostConfig (seconds 101)) trivial rfl
  have hne : (initAlarmPostConfig (Alarms.start.edit
      (.register 5 0 true (seconds 100) (seconds 100))) (seconds 101)).thealarms ≠ [] := by
    decide
  exact ⟨_, hne, timer_armed_iff.2 hreach, timer_armed_iff.1 hreach' hne (seconds 102)⟩

/-- **At the microsecond an alarm is due** it is not run, and the timer is disarmed. -/
theorem timer_disarmed_when_due :
    ¬ ∀ s : Alarms, Reach Alarms.step Always .start s → s.thealarms ≠ [] →
      (∀ now, s.Arms now) ∧ ∀ rounds now s', alarmHandler s rounds now = some s' →
        s'.thealarms ≠ [] → 0 < s'.timer.micros := by
  intro hforall
  have hstep : Alarms.start.step
      (.edit (.register 5 0 true (seconds 100) (seconds 100))) = some _ := rfl
  have hrun : (alarmHandler (Alarms.start.edit
        (.register 5 0 true (seconds 100) (seconds 100)))
        [{ now := seconds 105, edits := [], now' := seconds 105 }] (seconds 105)).map
      (fun s => (s.thealarms.length, s.timer)) = some (1, ⟨0, 0⟩) := by
    decide
  obtain ⟨s', hs', hobs⟩ := Option.map_eq_some_iff.mp hrun
  rw [Prod.mk.injEq] at hobs
  have hpos := (hforall _ (Reach.refl.tail trivial hstep) (by decide)).2 _ _ s' hs'
    (List.ne_nil_of_length_pos (by omega))
  rw [hobs.2] at hpos
  exact absurd hpos (by decide)

end Zevent.Server

/-
# What a run of the alarms does (`zevent_alarm.c`)

`run_alarms` goes on looking for the earliest alarm as long as that one is overdue, while the
callbacks of the alarms it runs unregister alarms and register others.  At a clock that stands
still an alarm that was run is not overdue again: one that repeats is due a positive interval
later, and so is one that a callback registers.  So the overdue alarms get fewer, and each is
run once.

`run_alarms_exact` is the statement for every reachable list of alarms with positive
intervals.  The numbers of the registrations tell the alarms apart as long as there are fewer
than `2 ^ 32` of them.
-/
import Zevent.Server.Alarm

namespace Zevent.Server

open Interleaving Timeval

/-! ## The property -/

/-- An interval that is longer than nothing. -/
def PositiveInterval (t : Timeval) : Prop := 0 ≤ t.sec ∧ 0 ≤ t.usec ∧ 0 < t.micros

/-- The call takes an alarm off the list, if it is there. -/
def Edit.Unregisters (clientreg : UInt32) : Edit → Prop
  | .unregister clientreg' => clientreg' = clientreg
  | .unregisterAll => True
  | _ => False

/-- Some call of the callback does. -/
def Round.Unregisters (r : Round) (clientreg : UInt32) : Prop :=
  ∃ e ∈ r.edits, e.Unregisters clientreg

/-- One of the first `n` callbacks does. -/
def Gone (rounds : ℕ → Round) (n : ℕ) (clientreg : UInt32) : Prop :=
  ∃ i < n, (rounds i).Unregisters clientreg

/-- The registrations a call makes. -/
def Edit.count : Edit → ℕ
  | .register _ _ callocOk _ _ => if callocOk then 1 else 0
  | .registerHr _ _ callocOk _ _ => if callocOk then 1 else 0
  | _ => 0

/-- The registrations a callback makes. -/
def Round.count (r : Round) : ℕ := (r.edits.map Edit.count).sum

/-- Every clock reading of the call is `now`. -/
def Edit.At (now : Reading) : Edit → Prop
  | .register _ _ _ now₁ now₂ => now₁ = now ∧ now₂ = now
  | .registerHr _ _ _ now₁ now₂ => now₁ = now ∧ now₂ = now
  | _ => True

/-- Every clock reading of the round is `now`. -/
def Round.At (r : Round) (now : Reading) : Prop :=
  r.now = now ∧ r.now' = now ∧ ∀ e ∈ r.edits, e.At now

/-- An alarm is due before the time `now`. -/
def Alarm.Overdue (now : Reading) (a : Alarm) : Prop := a.tNext.Before now.time

instance (now : Reading) (a : Alarm) : Decidable (a.Overdue now) :=
  inferInstanceAs (Decidable (Before _ _))

/-- The entry `b` is `a` set to exactly its interval after `now`, with the microseconds
normalised. -/
structure Rearmed (now : Reading) (a b : Alarm) : Prop where
  clientreg : b.clientreg = a.clientreg
  t : b.t = a.t
  flags : b.flags = a.flags
  tLast : b.tLast = now.time
  tNext : b.tNext.micros = now.time.micros + a.t.micros
  normalised : b.tNext.Normalised

/-- What a run at the time `now` does: `log` has the alarms it runs, in their order.  They are
overdue alarms of the start, each once and in the order they are due in, and all of those that
no callback unregistered.  One that does not repeat is not registered any more; one that does
is set to its interval after `now`, unless a callback unregistered it.  No overdue alarm is
left, and the other alarms stay unless they are unregistered. -/
structure RunExact (now : Reading) (rounds : ℕ → Round) (s s' : Alarms) (log : List Alarm) :
    Prop where
  overdue : ∀ a ∈ log, a ∈ s.thealarms ∧ a.Overdue now
  once : (log.map Alarm.clientreg).Nodup
  all : ∀ a ∈ s.thealarms, a.Overdue now → a ∈ log ∨ Gone rounds log.length a.clientreg
  ordered : log.Pairwise fun a b => a.tNext.micros ≤ b.tNext.micros
  oneShot : ∀ a ∈ log, ¬ a.Repeats → ∀ b ∈ s'.thealarms, b.clientreg ≠ a.clientreg
  rearmed : ∀ a ∈ log, a.Repeats → Gone rounds log.length a.clientreg
    ∨ ∃ b ∈ s'.thealarms, Rearmed now a b
  only : ∀ a ∈ log, ∀ b ∈ s'.thealarms, b.clientreg = a.clientreg → Rearmed now a b
  none : ∀ b ∈ s'.thealarms, ¬ b.Overdue now
  kept : ∀ b ∈ s.thealarms, ¬ b.Overdue now →
    b ∈ s'.thealarms ∨ Gone rounds log.length b.clientreg
  others : ∀ b ∈ s'.thealarms, b ∈ s.thealarms ∨ s.registrations < b.clientreg.toNat
    ∨ ∃ a ∈ log, Rearmed now a b

/-! ## The numbers of the alarms -/

/-- The alarms are numbered in the order of their registrations, and apart while the numbers
last. -/
structure Alarms.Numbered (s : Alarms) : Prop where
  regnum : s.regnum.toNat = (1 + s.registrations) % 4294967296
  nodup : s.registrations < 4294967296 → (s.thealarms.map Alarm.clientreg).Nodup
  known : s.registrations < 4294967296 → ∀ a ∈ s.thealarms, a.clientreg.toNat ≤ s.registrations

/-- Replacing an entry by one of its number adds no number. -/
theorem replaceEntry_sublist {clientreg : UInt32} {new : Option Alarm}
    (hnew : ∀ b ∈ new, b.clientreg = clientreg) (l : List Alarm) :
    ((replaceEntry clientreg new l).map Alarm.clientreg).Sublist (l.map Alarm.clientreg) := by
  induction l with
  | nil => exact List.Sublist.refl _
  | cons a l ih =>
      rw [replaceEntry]
      split
      · rename_i ha
        cases new with
        | none => exact List.sublist_cons_self ..
        | some b =>
            rw [Option.toList_some, List.singleton_append, List.map_cons, List.map_cons, ha,
              hnew b rfl]
      · exact ih.cons_cons _

/-- When no two entries have the same number, exactly that one is replaced. -/
theorem mem_replaceEntry {clientreg : UInt32} {new : Option Alarm} {l : List Alarm} {b : Alarm}
    (hl : (l.map Alarm.clientreg).Nodup) :
    b ∈ replaceEntry clientreg new l
      ↔ b ∈ l ∧ b.clientreg ≠ clientreg
        ∨ (∃ a ∈ l, a.clientreg = clientreg) ∧ new = some b := by
  induction l with
  | nil => simp [replaceEntry]
  | cons a l ih =>
      rw [List.map_cons, List.nodup_cons] at hl
      rw [replaceEntry]
      split
      · rename_i ha
        have hrest : ∀ c ∈ l, c.clientreg ≠ clientreg :=
          fun c hc heq => hl.1 (ha.trans heq.symm ▸ List.mem_map_of_mem hc)
        rw [List.mem_append, Option.mem_toList, List.mem_cons]
        constructor
        · rintro (hnew | hb)
          · exact .inr ⟨⟨a, List.mem_cons_self, ha⟩, hnew⟩
          · exact .inl ⟨.inr hb, hrest b hb⟩
        · rintro (⟨rfl | hb, hne⟩ | ⟨-, hnew⟩)
          · exact absurd ha hne
          · exact .inr hb
          · exact .inl hnew
      · rename_i ha
        rw [List.mem_cons, ih hl.2, List.mem_cons]
        constructor
        · rintro (rfl | ⟨hb, hne⟩ | ⟨⟨c, hc, hreg⟩, hnew⟩)
          · exact .inl ⟨.inl rfl, ha⟩
          · exact .inl ⟨.inr hb, hne⟩
          · exact .inr ⟨⟨c, List.mem_cons_of_mem _ hc, hreg⟩, hnew⟩
        · rintro (⟨rfl | hb, hne⟩ | ⟨⟨c, hc, hreg⟩, hnew⟩)
          · exact .inl rfl
          · exact .inr (.inl ⟨hb, hne⟩)
          · rcases List.mem_cons.mp hc with rfl | hc
            · exact absurd hreg ha
            · exact .inr (.inr ⟨⟨c, hc, hreg⟩, hnew⟩)

/-- No two entries have the same number. -/
theorem eq_of_clientreg {l : List Alarm} (hl : (l.map Alarm.clientreg).Nodup) {a b : Alarm}
    (ha : a ∈ l) (hb : b ∈ l) (h : a.clientreg = b.clientreg) : a = b :=
  List.inj_on_of_nodup_map hl ha hb h

@[simp] theorem setAnAlarm_registrations (s : Alarms) (now : Reading) :
    (setAnAlarm s now).registrations = s.registrations := by
  rw [setAnAlarm]
  split <;> rfl

@[simp] theorem setAnAlarm_regnum (s : Alarms) (now : Reading) :
    (setAnAlarm s now).regnum = s.regnum := by
  rw [setAnAlarm]
  split <;> rfl

section Numbered

variable {s s' : Alarms}

theorem Alarms.Numbered.congr (h : s.Numbered) (s' : Alarms) (hlist : s'.thealarms = s.thealarms)
    (hregnum : s'.regnum = s.regnum) (hregs : s'.registrations = s.registrations) :
    s'.Numbered := by
  refine ⟨?_, ?_, ?_⟩
  · rw [hregnum, hregs]
    exact h.regnum
  · rw [hlist, hregs]
    exact h.nodup
  · rw [hlist, hregs]
    exact h.known

/-- Fewer entries, or entries replaced by others of their numbers. -/
theorem Alarms.Numbered.replace (h : s.Numbered) {l : List Alarm}
    (hl : (l.map Alarm.clientreg).Sublist (s.thealarms.map Alarm.clientreg)) :
    ({ s with thealarms := l } : Alarms).Numbered := by
  refine ⟨h.regnum, fun hlt => (h.nodup hlt).sublist hl, fun hlt a ha => ?_⟩
  obtain ⟨b, hb, hreg⟩ := List.mem_map.mp (hl.subset (List.mem_map_of_mem ha))
  exact hreg ▸ h.known hlt b hb

/-- A registration takes the next number. -/
theorem Alarms.Numbered.enroll (h : s.Numbered) (t : Timeval) (flags : UInt32) (now : Reading) :
    (enroll s t flags now).1.Numbered := by
  have hregnum := h.regnum
  refine ⟨?_, fun hlt => ?_, fun hlt a ha => ?_⟩
  · change (s.regnum + 1).toNat = (1 + (s.registrations + 1)) % 4294967296
    rw [UInt32.toNat_add, hregnum]
    simp
    omega
  · change s.registrations + 1 < 4294967296 at hlt
    rw [enroll_thealarms, List.map_append, List.nodup_append]
    refine ⟨h.nodup (by omega), List.nodup_singleton _, ?_⟩
    rintro x hx y hy rfl
    obtain ⟨b, hb, rfl⟩ := List.mem_map.mp hx
    rw [List.map_singleton, List.mem_singleton] at hy
    have hknown := h.known (by omega) b hb
    rw [hy, hregnum] at hknown
    omega
  · change s.registrations + 1 < 4294967296 at hlt
    change a.clientreg.toNat ≤ s.registrations + 1
    rw [enroll_thealarms, List.mem_append, List.mem_singleton] at ha
    rcases ha with hold | rfl
    · exact (h.known (by omega) a hold).trans (Nat.le_succ _)
    · simp only [hregnum]
      omega

theorem Alarms.Numbered.register (h : s.Numbered) (t : Timeval) (flags : UInt32)
    (callocOk : Bool) (now now' : Reading) :
    (zeventAlarmRegisterHr s t flags callocOk now now').1.Numbered := by
  have henroll := h.enroll t flags now
  rw [zeventAlarmRegisterHr]
  split
  · simp only
    split
    · exact henroll.congr _ (setAnAlarm_thealarms ..) (setAnAlarm_regnum ..)
        (setAnAlarm_registrations ..)
    · exact henroll
  · exact h

theorem register_registrations (s : Alarms) (t : Timeval) (flags : UInt32) (callocOk : Bool)
    (now now' : Reading) :
    (zeventAlarmRegisterHr s t flags callocOk now now').1.registrations
      = s.registrations + if callocOk then 1 else 0 := by
  rw [zeventAlarmRegisterHr]
  cases callocOk with
  | false => rfl
  | true =>
      simp only [if_true]
      split
      · rw [setAnAlarm_registrations]
        rfl
      · rfl

/-- A call keeps the numbering. -/
theorem Alarms.Numbered.edit (h : s.Numbered) (e : Edit) : (s.edit e).Numbered := by
  cases e with
  | register => exact h.register ..
  | registerHr => exact h.register ..
  | unregister clientreg => exact h.replace (replaceEntry_sublist (by simp) _)
  | unregisterAll => exact h.replace (List.nil_sublist _)

theorem edit_registrations (s : Alarms) (e : Edit) :
    (s.edit e).registrations = s.registrations + e.count := by
  cases e with
  | register => exact register_registrations ..
  | registerHr => exact register_registrations ..
  | unregister => rfl
  | unregisterAll => rfl

theorem Alarms.Numbered.edits (h : s.Numbered) (l : List Edit) :
    (l.foldl Alarms.edit s).Numbered := by
  induction l generalizing s with
  | nil => exact h
  | cons e l ih => exact ih (h.edit e)

theorem edits_registrations (s : Alarms) (l : List Edit) :
    (l.foldl Alarms.edit s).registrations = s.registrations + (l.map Edit.count).sum := by
  induction l generalizing s with
  | nil => rfl
  | cons e l ih =>
      rw [List.foldl_cons, ih, edit_registrations, List.map_cons, List.sum_cons, Nat.add_assoc]

theorem saUpdateEntry_clientreg {a b : Alarm} {now : Reading}
    (h : saUpdateEntry a now = some b) : b.clientreg = a.clientreg := by
  rw [saUpdateEntry] at h
  split_ifs at h <;> rw [← Option.some.inj h]

/-- What is done to an entry behind its callback keeps the numbering. -/
theorem Alarms.Numbered.runEntry (h : s.Numbered) (r : Round) (clientreg : UInt32) :
    (s.runEntry r clientreg).Numbered := by
  have hedits := h.edits r.edits
  rw [Alarms.runEntry]
  simp only
  split
  · rename_i a hfind
    refine hedits.replace (replaceEntry_sublist (fun b hb => ?_) _)
    rw [saUpdateEntry_clientreg hb]
    simpa using List.find?_some hfind
  · exact hedits

theorem runEntry_registrations (s : Alarms) (r : Round) (clientreg : UInt32) :
    (s.runEntry r clientreg).registrations = s.registrations + r.count := by
  have hedits := edits_registrations s r.edits
  rw [Alarms.runEntry]
  simp only
  split
  · exact hedits
  · exact hedits

theorem Alarms.Numbered.runAlarms (h : s.Numbered) {rounds : List Round} {log : List Alarm}
    (hrun : runAlarms rounds s = some (s', log)) : s'.Numbered :=
  runAlarms_rule (P := Alarms.Numbered) (fun r _ _ clientreg hs => hs.runEntry r clientreg) hrun h

theorem Alarms.Numbered.setAnAlarm (h : s.Numbered) (now : Reading) :
    (setAnAlarm s now).Numbered :=
  h.congr _ (setAnAlarm_thealarms ..) (setAnAlarm_regnum ..) (setAnAlarm_registrations ..)

/-- **Step lemma.**  Every step keeps the numbering. -/
theorem Alarms.Numbered.step (h : s.Numbered) {a : AlarmAction} (hstep : s.step a = some s') :
    s'.Numbered := by
  cases a with
  | edit e =>
      obtain rfl := Option.some.inj hstep
      exact h.edit e
  | runAlarms rounds =>
      obtain ⟨⟨s₁, log⟩, hrun, rfl⟩ := Option.map_eq_some_iff.mp hstep
      exact h.runAlarms hrun
  | initPostConfig now =>
      obtain rfl := Option.some.inj hstep
      exact (h.congr { s with startAlarms := true } rfl rfl rfl).setAnAlarm now
  | handler rounds now =>
      obtain ⟨⟨s₁, log⟩, hrun, rfl⟩ := Option.map_eq_some_iff.mp hstep
      have hzero := h.congr { s with timer := ⟨0, 0⟩ } rfl rfl rfl
      exact (hzero.runAlarms hrun).setAnAlarm now

end Numbered

/-! ## Positive intervals -/

/-- The interval is positive, and the time the alarm is due at is normalised. -/
def Alarm.Sound (a : Alarm) : Prop := PositiveInterval a.t ∧ a.tNext.Normalised

theorem interval_positive (when : UInt32) : PositiveInterval (interval when) := by
  rw [interval]
  split
  · exact ⟨le_rfl, by decide, by decide⟩
  · rename_i hne
    have hpos : when.toNat ≠ 0 := fun h => hne (UInt32.toNat_inj.mp h)
    refine ⟨Int.natCast_nonneg _, le_rfl, ?_⟩
    simp only [micros]
    omega

/-- The end of an interval that starts at a normalised time. -/
theorem carry_interval {now t : Timeval} (hnow : now.Normalised) (ht : PositiveInterval t) :
    (carry ⟨now.sec + t.sec, now.usec + t.usec⟩).Normalised
      ∧ (carry ⟨now.sec + t.sec, now.usec + t.usec⟩).micros = now.micros + t.micros := by
  obtain ⟨hmicros, hlt, hnonneg⟩ := carry_spec ⟨now.sec + t.sec, now.usec + t.usec⟩
  have husec := ht.2.1
  refine ⟨⟨hnonneg (Int.add_nonneg hnow.1 husec), hlt⟩, hmicros.trans ?_⟩
  simp only [micros]
  ring

theorem sound_rule : EntryRule Alarm.Sound PositiveInterval where
  interval := fun _ ha => ha.1
  update := by
    intro a now b ht hlast hzero hb
    rw [saUpdateEntry] at hb
    split_ifs at hb with hnever hnext
    · rw [← Option.some.inj hb]
      exact ⟨ht, (carry_interval now.normalised ht).1⟩
    · rw [← Option.some.inj hb]
      exact ⟨ht, (carry_interval hlast ht).1⟩
    · exact absurd ⟨congrArg Timeval.sec hzero, congrArg Timeval.usec hzero⟩ hnext

/-- What is due a positive interval after a time is not overdue then. -/
theorem not_overdue_of_micros {now : Reading} {a : Alarm} (ha : a.tNext.Normalised)
    {t : Timeval} (ht : PositiveInterval t) (hnext : a.tNext.micros = now.time.micros + t.micros) :
    ¬ a.Overdue now := by
  intro hdue
  have hlt := (before_iff_micros ha now.normalised).mp hdue
  have hpos := ht.2.2
  omega

/-- **What is done to an entry that was run**: it is set to its interval after the time of the
run if it repeats, and unregistered if it does not. -/
theorem saUpdateEntry_ran {a : Alarm} (ha : a.Sound) {now : Reading} (hnow : 0 < now.time.micros)
    (now' : Reading) :
    saUpdateEntry { a with tLast := now.time, tNext := ⟨0, 0⟩ } now'
      = if a.Repeats then some { a with
          tLast := now.time
          tNext := carry ⟨now.time.sec + a.t.sec, now.time.usec + a.t.usec⟩ }
        else none := by
  have hlast : ¬ (now.time.sec = 0 ∧ now.time.usec = 0) := by
    rw [micros] at hnow
    omega
  have hinterval : ¬ (a.t.sec = 0 ∧ a.t.usec = 0) := by
    have hpos := ha.1.2.2
    rw [micros] at hpos
    omega
  rw [saUpdateEntry, if_neg hlast, if_pos ⟨rfl, rfl⟩, if_neg hinterval]
  rfl

/-! ## The callbacks -/

/-- What calls at the time `now` do to the list: the entries they add are numbered on and not
overdue, and those they take away are unregistered. -/
structure Edited (now : Reading) (l : List Edit) (s s' : Alarms) : Prop where
  old : ∀ b ∈ s'.thealarms, b ∈ s.thealarms
    ∨ s.registrations < b.clientreg.toNat ∧ ¬ b.Overdue now
  kept : ∀ b ∈ s.thealarms, b ∈ s'.thealarms ∨ ∃ e ∈ l, e.Unregisters b.clientreg

section Callbacks

variable {s : Alarms} {now : Reading}

theorem register_edited (hs : s.Numbered) {t : Timeval} (ht : PositiveInterval t)
    (flags : UInt32) (callocOk : Bool) (now' : Reading)
    (hcount : s.registrations + (if callocOk then 1 else 0) < 4294967296) (l : List Edit) :
    Edited now l s (zeventAlarmRegisterHr s t flags callocOk now now').1 := by
  have hlist := register_thealarms s t flags callocOk now now'
  cases callocOk with
  | false =>
      rw [if_neg Bool.false_ne_true] at hlist
      constructor
      · intro b hb
        exact .inl (hlist ▸ hb)
      · intro b hb
        exact .inl (hlist ▸ hb)
  | true =>
      rw [if_pos rfl, enroll_thealarms] at hlist
      rw [if_pos rfl] at hcount
      obtain ⟨hnormal, hmicros⟩ := carry_interval now.normalised ht
      constructor
      · intro b hb
        rw [hlist, List.mem_append, List.mem_singleton] at hb
        rcases hb with hold | rfl
        · exact .inl hold
        · refine .inr ⟨?_, not_overdue_of_micros hnormal ht hmicros⟩
          rw [hs.regnum]
          omega
      · intro b hb
        rw [hlist]
        exact .inl (List.mem_append_left _ hb)

/-- One call. -/
theorem edit_edited (hs : s.Numbered) {e : Edit} (hat : e.At now)
    (htakes : e.Takes PositiveInterval) (hcount : s.registrations + e.count < 4294967296) :
    Edited now [e] s (s.edit e) := by
  cases e with
  | register when flags callocOk now₁ now₂ =>
      obtain ⟨rfl, -⟩ := hat
      exact register_edited hs htakes flags callocOk now₂ hcount _
  | registerHr t flags callocOk now₁ now₂ =>
      obtain ⟨rfl, -⟩ := hat
      exact register_edited hs htakes flags callocOk now₂ hcount _
  | unregister clientreg =>
      have hnodup := hs.nodup (by omega)
      constructor
      · intro b hb
        rcases (mem_replaceEntry hnodup).mp hb with ⟨hb, -⟩ | ⟨-, hnew⟩
        · exact .inl hb
        · cases hnew
      · intro b hb
        by_cases hreg : b.clientreg = clientreg
        · exact .inr ⟨_, List.mem_singleton_self _, hreg.symm⟩
        · exact .inl ((mem_replaceEntry hnodup).mpr (.inl ⟨hb, hreg⟩))
  | unregisterAll =>
      constructor
      · intro b hb
        cases hb
      · intro b hb
        exact .inr ⟨_, List.mem_singleton_self _, trivial⟩

/-- **The callback of one alarm.** -/
theorem edits_edited (hs : s.Numbered) {l : List Edit} (hat : ∀ e ∈ l, e.At now)
    (htakes : ∀ e ∈ l, e.Takes PositiveInterval)
    (hcount : s.registrations + (l.map Edit.count).sum < 4294967296) :
    Edited now l s (l.foldl Alarms.edit s) := by
  induction l generalizing s with
  | nil => exact ⟨fun b hb => .inl hb, fun b hb => .inl hb⟩
  | cons e l ih =>
      rw [List.forall_mem_cons] at hat htakes
      rw [List.map_cons, List.sum_cons] at hcount
      have hregs := edit_registrations s e
      have hone := edit_edited hs hat.1 htakes.1 (by omega)
      have hrest := ih (hs.edit e) hat.2 htakes.2 (by omega)
      rw [List.foldl_cons]
      constructor
      · intro b hb
        rcases hrest.old b hb with hmid | ⟨hnew, hdue⟩
        · exact hone.old b hmid
        · exact .inr ⟨by omega, hdue⟩
      · intro b hb
        rcases hone.kept b hb with hmid | ⟨e', he', hgone⟩
        · rcases hrest.kept b hmid with hend | ⟨e', he', hgone⟩
          · exact .inl hend
          · exact .inr ⟨e', List.mem_cons_of_mem _ he', hgone⟩
        · rw [List.mem_singleton] at he'
          exact .inr ⟨e', he' ▸ List.mem_cons_self, hgone⟩

end Callbacks

/-! ## One round -/

/-- What one round does that runs the alarm `a`. -/
structure Ran (now : Reading) (r : Round) (a : Alarm) (s s' : Alarms) : Prop where
  old : ∀ b ∈ s'.thealarms, b.clientreg ≠ a.clientreg →
    b ∈ s.thealarms ∨ s.registrations < b.clientreg.toNat ∧ ¬ b.Overdue now
  kept : ∀ b ∈ s.thealarms, b.clientreg ≠ a.clientreg →
    b ∈ s'.thealarms ∨ r.Unregisters b.clientreg
  ran : ∀ b ∈ s'.thealarms, b.clientreg = a.clientreg → a.Repeats ∧ Rearmed now a b
  rearmed : a.Repeats → r.Unregisters a.clientreg ∨ ∃ b ∈ s'.thealarms, Rearmed now a b

/-- **Step lemma**: one round of the loop. -/
theorem runEntry_ran {s : Alarms} {now : Reading} (hnow : 0 < now.time.micros) (hs : s.Numbered)
    (hsound : s.Each Alarm.Sound) {a : Alarm} (ha : a ∈ s.thealarms) {r : Round}
    (hat : r.At now) (htakes : r.Takes PositiveInterval)
    (hcount : s.registrations + r.count < 4294967296) :
    Ran now r a s (s.runEntry r a.clientreg) := by
  obtain ⟨hnow₁, -, hedits⟩ := hat
  have hed := edits_edited hs hedits htakes hcount
  have hregs := edits_registrations s r.edits
  have hnodup := (hs.edits r.edits).nodup (hregs.trans_lt hcount)
  have hknown := hs.known (by omega) a ha
  -- the entry of the alarm, if it is still there, is the one from before the callback
  have hsame : ∀ b ∈ (r.edits.foldl Alarms.edit s).thealarms, b.clientreg = a.clientreg →
      b = a := by
    intro b hb hreg
    rcases hed.old b hb with hold | ⟨hnew, -⟩
    · exact eq_of_clientreg (hs.nodup (by omega)) hold ha hreg
    · rw [hreg] at hnew
      omega
  rw [Alarms.runEntry]
  simp only
  split
  · rename_i b hfind
    have hb := List.mem_of_find?_eq_some hfind
    obtain rfl := hsame b hb (by simpa using List.find?_some hfind)
    have hupdate := saUpdateEntry_ran (hsound b ha) hnow r.now'
    rw [hnow₁, hupdate]
    obtain ⟨hnormal, hmicros⟩ := carry_interval now.normalised (hsound b ha).1
    have hrearmed : Rearmed now b { b with
        tLast := now.time
        tNext := carry ⟨now.time.sec + b.t.sec, now.time.usec + b.t.usec⟩ } :=
      ⟨rfl, rfl, rfl, rfl, hmicros, hnormal⟩
    refine ⟨fun c hc hne => ?_, fun c hc hne => ?_, fun c hc hreg => ?_, fun hrep => ?_⟩
    · rcases (mem_replaceEntry hnodup).mp hc with ⟨hc, -⟩ | ⟨-, hnew⟩
      · exact hed.old c hc
      · split_ifs at hnew
        exact absurd (congrArg Alarm.clientreg (Option.some.inj hnew)).symm hne
    · rcases hed.kept c hc with hc | hgone
      · exact .inl ((mem_replaceEntry hnodup).mpr (.inl ⟨hc, hne⟩))
      · exact .inr hgone
    · rcases (mem_replaceEntry hnodup).mp hc with ⟨-, hne⟩ | ⟨-, hnew⟩
      · exact absurd hreg hne
      · split_ifs at hnew with hrep
        rw [← Option.some.inj hnew]
        exact ⟨hrep, hrearmed⟩
    · refine .inr ⟨_, (mem_replaceEntry hnodup).mpr (.inr ⟨⟨b, hb, rfl⟩, if_pos hrep⟩), hrearmed⟩
  · rename_i hfind
    have hgone : ∀ b ∈ (r.edits.foldl Alarms.edit s).thealarms, b.clientreg ≠ a.clientreg := by
      intro b hb
      simpa using List.find?_eq_none.mp hfind b hb
    refine ⟨fun c hc _ => hed.old c hc, fun c hc _ => hed.kept c hc,
      fun c hc hreg => absurd hreg (hgone c hc), fun _ => .inl ?_⟩
    exact (hed.kept a ha).resolve_left fun h => hgone a h rfl

/-! ## The whole run -/

section Run

variable {now : Reading} {s : Alarms}

/-- The alarms that are overdue. -/
def Alarms.overdue (s : Alarms) (now : Reading) : List Alarm :=
  s.thealarms.filter fun a => a.Overdue now

theorem mem_overdue {a : Alarm} : a ∈ s.overdue now ↔ a ∈ s.thealarms ∧ a.Overdue now := by
  simp [Alarms.overdue]

theorem Rearmed.not_overdue {a b : Alarm} (h : Rearmed now a b) (ha : PositiveInterval a.t) :
    ¬ b.Overdue now :=
  not_overdue_of_micros h.normalised ha h.tNext

/-- Fewer alarms are overdue after a round. -/
theorem Ran.overdue_lt {r : Round} {a : Alarm} {s' : Alarms} (hran : Ran now r a s s')
    (hs' : (s'.thealarms.map Alarm.clientreg).Nodup) (ha : a ∈ s.thealarms)
    (hdue : a.Overdue now) (ht : PositiveInterval a.t) :
    (s'.overdue now).length < (s.overdue now).length := by
  have hnodup : (s'.overdue now).Nodup := (List.Nodup.of_map _ hs').filter _
  have hsubset : s'.overdue now ⊆ (s.overdue now).erase a := by
    intro b hb
    rw [mem_overdue] at hb
    have hne : b.clientreg ≠ a.clientreg :=
      fun hreg => (hran.ran b hb.1 hreg).2.not_overdue ht hb.2
    have hold := (hran.old b hb.1 hne).resolve_right fun hnew => hnew.2 hb.2
    refine (List.mem_erase_of_ne fun heq => hne (congrArg Alarm.clientreg heq)).mpr ?_
    exact mem_overdue.mpr ⟨hold, hb.2⟩
  have hle := (hnodup.subperm hsubset).length_le
  rw [List.length_erase_of_mem (mem_overdue.mpr ⟨ha, hdue⟩)] at hle
  have hpos := List.length_pos_of_mem (mem_overdue.mpr ⟨ha, hdue⟩)
  omega

/-- A later callback is one of the run. -/
theorem Gone.succ {rounds : ℕ → Round} {n : ℕ} {clientreg : UInt32}
    (h : Gone (fun i => rounds (i + 1)) n clientreg) : Gone rounds (n + 1) clientreg := by
  obtain ⟨i, hi, hgone⟩ := h
  exact ⟨i + 1, Nat.succ_lt_succ hi, hgone⟩

/-- The rounds after the first one complete the run. -/
theorem RunExact.cons {rounds : ℕ → Round} {a : Alarm} {s₁ s' : Alarms} {log : List Alarm}
    (hs : s.Numbered) (hlt : s.registrations < 4294967296) (hsound : s.Each Alarm.Sound)
    (hfind : saFindNext s.thealarms = some a) (hdue : a.Overdue now)
    (hran : Ran now (rounds 0) a s s₁) (hregs : s.registrations ≤ s₁.registrations)
    (hrest : RunExact now (fun i => rounds (i + 1)) s₁ s' log) :
    RunExact now rounds s s' (a :: log) := by
  obtain ⟨ha, hfirst⟩ := saFindNext_spec hfind
  have ht := (hsound a ha).1
  have hknown := hs.known hlt a ha
  have hnodup := hs.nodup hlt
  have hgone₀ : ∀ reg, (rounds 0).Unregisters reg → Gone rounds (a :: log).length reg :=
    fun reg h => ⟨0, Nat.succ_pos _, h⟩
  -- what is run later has another number, and was overdue at the start
  have hother : ∀ c ∈ log, c.clientreg ≠ a.clientreg := by
    intro c hc hreg
    obtain ⟨hc₁, hcdue⟩ := hrest.overdue c hc
    exact (hran.ran c hc₁ hreg).2.not_overdue ht hcdue
  have holder : ∀ c ∈ log, c ∈ s.thealarms ∧ c.Overdue now := by
    intro c hc
    obtain ⟨hc₁, hcdue⟩ := hrest.overdue c hc
    exact ⟨(hran.old c hc₁ (hother c hc)).resolve_right fun hnew => hnew.2 hcdue, hcdue⟩
  have hhead : ∀ b ∈ s'.thealarms, b.clientreg = a.clientreg → a.Repeats ∧ Rearmed now a b := by
    intro b hb hreg
    rcases hrest.others b hb with hb₁ | hnew | ⟨c, hc, hcb⟩
    · exact hran.ran b hb₁ hreg
    · rw [hreg] at hnew
      omega
    · exact absurd (hcb.clientreg.symm.trans hreg) (hother c hc)
  refine ⟨?_, ?_, ?_, ?_, ?_, ?_, ?_, hrest.none, ?_, ?_⟩
  · rw [List.forall_mem_cons]
    exact ⟨⟨ha, hdue⟩, holder⟩
  · rw [List.map_cons, List.nodup_cons]
    refine ⟨fun hmem => ?_, hrest.once⟩
    obtain ⟨c, hc, hreg⟩ := List.mem_map.mp hmem
    exact hother c hc hreg
  · intro b hb hbdue
    by_cases hreg : b.clientreg = a.clientreg
    · exact .inl (eq_of_clientreg hnodup hb ha hreg ▸ List.mem_cons_self)
    · rcases hran.kept b hb hreg with hb₁ | hgone
      · exact (hrest.all b hb₁ hbdue).imp (List.mem_cons_of_mem _) Gone.succ
      · exact .inr (hgone₀ _ hgone)
  · rw [List.pairwise_cons]
    refine ⟨fun c hc => ?_, hrest.ordered⟩
    have hnot := hfirst c (holder c hc).1
    rw [before_iff_micros (hsound c (holder c hc).1).2 (hsound a ha).2] at hnot
    exact not_lt.mp hnot
  · rw [List.forall_mem_cons]
    exact ⟨fun hrep b hb hreg => hrep (hhead b hb hreg).1, hrest.oneShot⟩
  · rw [List.forall_mem_cons]
    refine ⟨fun hrep => ?_, fun c hc hrep => (hrest.rearmed c hc hrep).imp_left Gone.succ⟩
    rcases hran.rearmed hrep with hgone | ⟨b, hb, hab⟩
    · exact .inl (hgone₀ _ hgone)
    · rcases hrest.kept b hb (hab.not_overdue ht) with hb' | hgone
      · exact .inr ⟨b, hb', hab⟩
      · exact .inl (hab.clientreg ▸ hgone.succ)
  · rw [List.forall_mem_cons]
    exact ⟨fun b hb hreg => (hhead b hb hreg).2, hrest.only⟩
  · intro b hb hbdue
    have hreg : b.clientreg ≠ a.clientreg :=
      fun hreg => hbdue (eq_of_clientreg hnodup hb ha hreg ▸ hdue)
    rcases hran.kept b hb hreg with hb₁ | hgone
    · exact (hrest.kept b hb₁ hbdue).imp_right Gone.succ
    · exact .inr (hgone₀ _ hgone)
  · intro b hb
    rcases hrest.others b hb with hb₁ | hnew | ⟨c, hc, hcb⟩
    · by_cases hreg : b.clientreg = a.clientreg
      · exact .inr (.inr ⟨a, List.mem_cons_self, (hran.ran b hb₁ hreg).2⟩)
      · rcases hran.old b hb₁ hreg with hold | ⟨hnew, -⟩
        · exact .inl hold
        · exact .inr (.inl hnew)
    · exact .inr (.inl (hregs.trans_lt hnew))
    · exact .inr (.inr ⟨c, List.mem_cons_of_mem _ hc, hcb⟩)

/-- A run that has nothing to do. -/
theorem RunExact.nil {rounds : ℕ → Round} (h : ∀ b ∈ s.thealarms, ¬ b.Overdue now) :
    RunExact now rounds s s [] := by
  refine ⟨by simp, by simp, fun a ha hdue => absurd hdue (h a ha), by simp, by simp, by simp,
    by simp, h, fun b hb _ => .inl hb, fun b hb => .inl hb⟩

/-- **Run lemma**, by induction on the number of overdue alarms. -/
theorem runAlarms_exact (hnow : 0 < now.time.micros) (k : ℕ) :
    ∀ {s : Alarms} (rounds : ℕ → Round), (s.overdue now).length ≤ k → s.Numbered →
      s.Each Alarm.Sound → (∀ i, (rounds i).At now ∧ (rounds i).Takes PositiveInterval) →
      (∀ n ≤ (s.overdue now).length,
        s.registrations + ((List.range n).map fun i => (rounds i).count).sum < 4294967296) →
      ∃ n s' log, runAlarms ((List.range n).map rounds) s = some (s', log)
        ∧ RunExact now rounds s s' log := by
  induction k with
  | zero =>
      intro s rounds hk hs hsound hrounds hcount
      have hnone : ∀ b ∈ s.thealarms, ¬ b.Overdue now := by
        intro b hb hdue
        have hpos := List.length_pos_of_mem (mem_overdue.mpr ⟨hb, hdue⟩)
        omega
      refine ⟨1, s, [], ?_, .nil hnone⟩
      rw [List.range_one, List.map_singleton, runAlarms]
      cases hfind : saFindNext s.thealarms with
      | none => rfl
      | some a =>
          simp only
          rw [if_neg]
          rw [(hrounds 0).1.1]
          exact hnone a (saFindNext_spec hfind).1
  | succ k ih =>
      intro s rounds hk hs hsound hrounds hcount
      have hlt : s.registrations < 4294967296 := by simpa using hcount 0 (Nat.zero_le _)
      cases hfind : saFindNext s.thealarms with
      | none =>
          refine ⟨0, s, [], ?_, .nil ?_⟩
          · rw [List.range_zero, List.map_nil, runAlarms, if_pos hfind]
          · rw [saFindNext_eq_none.mp hfind]
            simp
      | some a =>
          obtain ⟨ha, hfirst⟩ := saFindNext_spec hfind
          by_cases hdue : a.Overdue now
          · obtain ⟨hat, htakes⟩ := hrounds 0
            have hone : s.registrations + (rounds 0).count < 4294967296 := by
              simpa using hcount 1 (List.length_pos_of_mem (mem_overdue.mpr ⟨ha, hdue⟩))
            have hran := runEntry_ran hnow hs hsound ha hat htakes hone
            have hs₁ := hs.runEntry (rounds 0) a.clientreg
            have hregs := runEntry_registrations s (rounds 0) a.clientreg
            have hless := hran.overdue_lt (hs₁.nodup (hregs.trans_lt hone)) ha hdue (hsound a ha).1
            have hcount₁ : ∀ n ≤ ((s.runEntry (rounds 0) a.clientreg).overdue now).length,
                (s.runEntry (rounds 0) a.clientreg).registrations
                  + ((List.range n).map fun i => (rounds (i + 1)).count).sum < 4294967296 := by
              intro n hn
              have hsum := hcount (n + 1) (by omega)
              rw [List.range_succ_eq_map, List.map_cons, List.sum_cons, List.map_map] at hsum
              rw [hregs, Nat.add_assoc]
              exact hsum
            obtain ⟨n, s', log, hrun, hexact⟩ := ih (fun i => rounds (i + 1)) (by omega) hs₁
              (sound_rule.runEntry hsound htakes _) (fun i => hrounds (i + 1)) hcount₁
            refine ⟨n + 1, s', a :: log, ?_, hexact.cons hs hlt hsound hfind hdue hran ?_⟩
            · have hlist : (List.range (n + 1)).map rounds
                  = rounds 0 :: (List.range n).map fun i => rounds (i + 1) := by
                rw [List.range_succ_eq_map, List.map_cons, List.map_map]
                rfl
              rw [hlist, runAlarms, hfind]
              simp only
              rw [hat.1, if_pos (show a.tNext.Before now.time from hdue), hrun]
              rfl
            · rw [hregs]
              exact Nat.le_add_right _ _
          · -- the earliest alarm is not overdue, so none is
            have hnone : ∀ b ∈ s.thealarms, ¬ b.Overdue now :=
              fun b hb hbdue => hdue (Before.of_not_before (hfirst b hb) hbdue)
            refine ⟨1, s, [], ?_, .nil hnone⟩
            rw [List.range_one, List.map_singleton, runAlarms, hfind]
            simp only
            rw [(hrounds 0).1.1, if_neg (show ¬ a.tNext.Before now.time from hdue)]

end Run

/-! ## Over every run -/

/-- The guard of a run: the intervals that are registered are positive. -/
def Alarms.Positive (_ : Alarms) (a : AlarmAction) : Prop := a.Takes PositiveInterval

end Zevent.Server

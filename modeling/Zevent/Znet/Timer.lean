/-
# Timers (`znet/evloop/timer.c`)

A timer is a handle of the heap of `timeheap.c`, and its index doubles as the flag that it is
pending: `evtimer_add` inserts a timer whose index is `-1` and moves any other, `evtimer_del`
and the loop of `evtimers_run` set the index back.  The loop takes the earliest timer off the
heap as long as less than a millisecond is left until its deadline, and calls the callback
of each, which calls `evtimer_add` and `evtimer_del` again.

At a clock reading `now` a timer is *due* when its deadline is less than a millisecond after
`now`.  Deadlines that callbacks set are not due, so the due timers get fewer with every round
of the loop.  `evtimers_run_exact` says which timers a run fires, in every state that calls
and rounds of the loop lead to.
-/
import Zevent.Znet.Timeheap

namespace Zevent.Znet

open HeapOrder Interleaving

/-! ## Times -/

/-- `addtime`. -/
def addtime (a b : Timespec) : Timespec :=
  let ret : Timespec := ⟨a.tvSec + b.tvSec, a.tvNsec + b.tvNsec⟩
  if ret.tvNsec ≥ 1000000000 then ⟨ret.tvSec + 1, ret.tvNsec - 1000000000⟩ else ret

/-- `subtime`. -/
def subtime (a b : Timespec) : Timespec :=
  let ret : Timespec := ⟨a.tvSec - b.tvSec, a.tvNsec - b.tvNsec⟩
  if ret.tvNsec < 0 then ⟨ret.tvSec - 1, ret.tvNsec + 1000000000⟩ else ret

namespace Timespec

/-- The time in nanoseconds. -/
def nanos (t : Timespec) : ℤ := t.tvSec * 1000000000 + t.tvNsec

/-- The nanoseconds are those of less than a second. -/
def Normalised (t : Timespec) : Prop := 0 ≤ t.tvNsec ∧ t.tvNsec < 1000000000

instance (t : Timespec) : Decidable t.Normalised := inferInstanceAs (Decidable (_ ∧ _))

/-- On normalised times the order of the heap is that of the nanoseconds. -/
theorem key_le_iff {a b : Timespec} (ha : a.Normalised) (hb : b.Normalised) :
    a.key ≤ b.key ↔ a.nanos ≤ b.nanos := by
  obtain ⟨ha₀, ha₁⟩ := ha
  obtain ⟨hb₀, hb₁⟩ := hb
  rw [key, key, Prod.Lex.toLex_le_toLex, nanos, nanos]
  dsimp only
  omega

/-- The sum of two normalised times is one. -/
theorem addtime_normalised {a b : Timespec} (ha : a.Normalised) (hb : b.Normalised) :
    (addtime a b).Normalised := by
  obtain ⟨ha₀, ha₁⟩ := ha
  obtain ⟨hb₀, hb₁⟩ := hb
  rw [addtime, Normalised]
  dsimp only
  split_ifs <;> dsimp only <;> omega

end Timespec

/-- The test of `evtimers_run` on the top of the heap. -/
def expires (top now : Timespec) : Bool :=
  let diff := subtime top now
  diff.tvSec < 0 || (diff.tvSec == 0 && diff.tvNsec < 1000000)

/-- On normalised times the test is that less than a millisecond is left. -/
theorem expires_iff {top now : Timespec} (htop : top.Normalised) (hnow : now.Normalised) :
    expires top now = true ↔ top.nanos < now.nanos + 1000000 := by
  obtain ⟨htop₀, htop₁⟩ := htop
  obtain ⟨hnow₀, hnow₁⟩ := hnow
  rw [expires, Timespec.nanos, Timespec.nanos]
  simp only [subtime, Bool.or_eq_true, Bool.and_eq_true, decide_eq_true_eq, beq_iff_eq]
  split_ifs <;> dsimp only <;> omega

namespace Timeheap

variable {H : Type} [DecidableEq H]

/-! ## The calls -/

/-- `evtimer_init`, as far as the heap sees it. -/
def evtimerInit (s : Timeheap H) (h : H) : Timeheap H :=
  { s with index := Function.update s.index h (-1) }

/-- `timeheap_insert` with what it returns; `reallocOk` says whether `realloc` has memory. -/
def timeheapInsertRet (s : Timeheap H) (h : H) (t : Timespec) (reallocOk : Bool) :
    ℤ × Timeheap H :=
  if s.heapUse = s.heapCap ∧ reallocOk = false then (-1, s) else (0, s.timeheapInsert h t)

/-- `evtimer_add` at the clock reading `now`. -/
def evtimerAdd (s : Timeheap H) (h : H) (t now : Timespec) (reallocOk : Bool) :
    Option (ℤ × Timeheap H) :=
  let sum := addtime now t
  if s.index h = -1 then some (s.timeheapInsertRet h sum reallocOk)
  else (s.timeheapChange h sum).map fun s => (0, s)

/-- `evtimer_del`. -/
def evtimerDel (s : Timeheap H) (h : H) : Option (Timeheap H) :=
  if s.index h ≥ 0 then (s.timeheapRemove h).map fun s => s.evtimerInit h else some s

/-- A call that a callback, or other code, makes. -/
inductive TimerCall (H : Type) where
  | add (h : H) (t now : Timespec) (reallocOk : Bool)
  | del (h : H)

/-- The timer a call is about. -/
def TimerCall.handle : TimerCall H → H
  | .add h _ _ _ => h
  | .del h => h

/-- One call. -/
def timerCall (s : Timeheap H) : TimerCall H → Option (Timeheap H)
  | .add h t now reallocOk => (s.evtimerAdd h t now reallocOk).map Prod.snd
  | .del h => s.evtimerDel h

/-- The calls of one callback: the heap after each of them, the last one last. -/
def callback (s : Timeheap H) : List (TimerCall H) → Option (List (Timeheap H))
  | [] => some []
  | c :: calls => do
      let s' ← s.timerCall c
      let points ← s'.callback calls
      return s' :: points

/-- The first half of a round of the loop: the earliest timer, off the heap and marked. -/
def expireTop (s : Timeheap H) : Option (H × Timeheap H) :=
  (s.timeheapRemoveTop id).map fun t => (t.1, t.2.evtimerInit t.1)

/-- What a run leaves: the timers it fired, as they were in the heap, and the heap at every
point between two operations on it, the last one last. -/
structure Expiry (H : Type) where
  fired : List (ThEntry H)
  points : List (Timeheap H)

/-- The loop of `evtimers_run` at the clock reading `now`, for at most `fuel` rounds; `rounds i`
are the calls that the callback of round `i` makes. -/
def evtimersRun (now : Timespec) : ℕ → (ℕ → List (TimerCall H)) → Timeheap H → Option (Expiry H)
  | 0, _, _ => none
  | fuel + 1, rounds, s =>
      if s.heapUse > 0 then
        if expires (s.heap 0).t now then do
          let (_, s₁) ← s.expireTop
          let points ← s₁.callback (rounds 0)
          let rest ← evtimersRun now fuel (fun i => rounds (i + 1)) (points.getLastD s₁)
          return ⟨s.heap 0 :: rest.fired, s₁ :: points ++ rest.points⟩
        else some ⟨[], [s]⟩
      else some ⟨[], [s]⟩

/-! ## Handles that are not in the heap -/

section Dead

omit [DecidableEq H] in
/-- A handle is live when it has an entry. -/
theorem live_iff {s : Timeheap H} {h : H} : s.Live h ↔ ∃ e ∈ s.entries, e.h = h := by
  constructor
  · rintro ⟨k, hk, hh⟩
    exact ⟨s.heap k, Multiset.mem_map_of_mem _ (Multiset.mem_range.mpr hk), hh⟩
  · rintro ⟨e, he, hh⟩
    obtain ⟨k, hk, rfl⟩ := Multiset.mem_map.mp he
    exact ⟨k, Multiset.mem_range.mp hk, hh⟩

omit [DecidableEq H] in
theorem live_congr {s s' : Timeheap H} (h : s'.entries = s.entries) (a : H) :
    s'.Live a ↔ s.Live a := by
  rw [live_iff, live_iff, h]

/-- A swap does not change the index of a handle without an entry. -/
theorem swap_index {s : Timeheap H} {i j : ℕ} {h : H} (hi : i < s.heapUse) (hj : j < s.heapUse)
    (hdead : ¬ s.Live h) : (s.swap i j).index h = s.index h := by
  have hindex : (s.swap i j).index
      = Function.update (Function.update s.index (s.heap j).h i) (s.heap i).h j := by
    simp only [Timeheap.swap, Function.update_self]
  have hne : ∀ k < s.heapUse, h ≠ (s.heap k).h := fun k hk heq => hdead ⟨k, hk, heq.symm⟩
  rw [hindex, Function.update_of_ne (hne i hi), Function.update_of_ne (hne j hj)]

/-- The loops touch the handles in the heap only. -/
theorem bubbleUp_index {s : Timeheap H} {i : ℕ} {h : H} (hi : i < s.heapUse)
    (hdead : ¬ s.Live h) : (s.bubbleUp i).index h = s.index h := by
  induction i using Nat.strong_induction_on generalizing s with
  | _ i ih =>
      rw [bubbleUp]
      split_ifs with hi0 hlt
      · rfl
      · have hp : (i - 1) / 2 < i := by omega
        have hpn : (i - 1) / 2 < s.heapUse := hp.trans hi
        have hdead' : ¬ (s.swap i ((i - 1) / 2)).Live h :=
          (live_congr (swap_entries hi hpn) h).not.mpr hdead
        rw [ih _ hp (show (i - 1) / 2 < (s.swap i ((i - 1) / 2)).heapUse from hpn) hdead',
          swap_index hi hpn hdead]
      · rfl

theorem bubbleDown_index {s : Timeheap H} {i : ℕ} {h : H} (hdead : ¬ s.Live h) :
    (s.bubbleDown i).index h = s.index h := by
  induction hm : s.heapUse - i using Nat.strong_induction_on generalizing s i with
  | _ m ih =>
      rw [bubbleDown]
      split
      · rfl
      · rename_i ci hci
        obtain ⟨hpos, hcn, hp⟩ := child_some hci
        have hic : i < ci := hp ▸ parent_lt hpos
        have hin : i < s.heapUse := hic.trans hcn
        split_ifs
        · have hless : (s.swap i ci).heapUse - ci < m := by
            show s.heapUse - ci < m
            omega
          rw [ih _ hless ((live_congr (swap_entries hin hcn) h).not.mpr hdead) rfl,
            swap_index hin hcn hdead]
        · rfl

theorem timeheapInsert_index {s : Timeheap H} {h a : H} (t : Timespec) (hdead : ¬ s.Live a)
    (hne : a ≠ h) : (s.timeheapInsert h t).index a = s.index a := by
  have hgrown : ∃ cap, (if s.heapUse = s.heapCap then { s with heapCap := s.heapCap * 2 } else s)
      = { s with heapCap := cap } := by
    split_ifs
    · exact ⟨_, rfl⟩
    · exact ⟨s.heapCap, rfl⟩
  obtain ⟨cap, hgrown⟩ := hgrown
  rw [timeheapInsert, hgrown]
  dsimp only
  rw [Function.update_self, Int.toNat_natCast, bubbleUp_index]
  · exact Function.update_of_ne hne ..
  · exact Nat.lt_succ_self _
  · rintro ⟨k, hk, hka⟩
    have hk' : k < s.heapUse + 1 := hk
    dsimp only at hka
    by_cases hku : k = s.heapUse
    · rw [hku, Function.update_self] at hka
      exact hne hka.symm
    · rw [Function.update_of_ne hku] at hka
      exact hdead ⟨k, by omega, hka⟩

theorem removeAt_index {s s' : Timeheap H} {i : ℕ} {a : H} (hdead : ¬ s.Live a)
    (hremove : s.removeAt i = some s') : s'.index a = s.index a := by
  rw [removeAt] at hremove
  split_ifs at hremove with hi
  have hi' : i < s.heapUse := by exact_mod_cast hi.2
  dsimp only at hremove
  rw [Int.toNat_natCast] at hremove
  by_cases hpos : s.heapUse - 1 > 0
  · rw [if_pos hpos] at hremove
    obtain rfl := Option.some.inj hremove
    generalize hs₁ : (Timeheap.mk (Function.update s.heap i (s.heap (s.heapUse - 1))) s.heapCap
      (s.heapUse - 1) (Function.update s.index (s.heap (s.heapUse - 1)).h i)) = s₁
    have hindex : s₁.index a = s.index a := by
      subst hs₁
      exact Function.update_of_ne (fun heq => hdead ⟨s.heapUse - 1, by omega, heq.symm⟩) ..
    have hdead₁ : ¬ s₁.Live a := by
      subst hs₁
      rintro ⟨k, hk, hka⟩
      have hk' : k < s.heapUse - 1 := hk
      dsimp only at hka
      by_cases hki : k = i
      · rw [hki, Function.update_self] at hka
        exact hdead ⟨_, by omega, hka⟩
      · rw [Function.update_of_ne hki] at hka
        exact hdead ⟨k, by omega, hka⟩
    split_ifs with hearlier
    · -- the last entry is not earlier than itself
      have hne : i ≠ s.heapUse - 1 := by
        rintro rfl
        rw [cmpentryLt_iff] at hearlier
        exact lt_irrefl _ hearlier
      rw [bubbleUp_index _ hdead₁, hindex]
      subst hs₁
      show i < s.heapUse - 1
      omega
    · rw [bubbleDown_index hdead₁, hindex]
  · rw [if_neg hpos] at hremove
    obtain rfl := Option.some.inj hremove
    rfl

theorem timeheapChange_index {s s' : Timeheap H} {h a : H} {t : Timespec} (hdead : ¬ s.Live a)
    (hchange : s.timeheapChange h t = some s') : s'.index a = s.index a := by
  rw [timeheapChange] at hchange
  split_ifs at hchange with hi
  dsimp only at hchange
  obtain rfl := Option.some.inj hchange
  have hdead₁ : ¬ (Timeheap.mk (Function.update s.heap (s.index h).toNat
      { s.heap (s.index h).toNat with t }) s.heapCap s.heapUse s.index).Live a := by
    rintro ⟨k, hk, hka⟩
    refine hdead ⟨k, hk, ?_⟩
    dsimp only at hka
    by_cases hki : k = (s.index h).toNat
    · rw [hki, Function.update_self] at hka
      rw [hki]
      exact hka
    · rw [Function.update_of_ne hki] at hka
      exact hka
  split_ifs
  · refine bubbleUp_index ?_ hdead₁
    show (s.index h).toNat < s.heapUse
    omega
  · exact bubbleDown_index hdead₁

end Dead

/-! ## The flags -/

/-- The index of a timer is `-1` exactly when it is not in the heap. -/
def Flagged (s : Timeheap H) : Prop := ∀ h, s.index h = -1 ↔ ¬ s.Live h

/-- The invariant between two operations on the heap. -/
structure Valid (s : Timeheap H) : Prop where
  sound : s.Sound
  flagged : s.Flagged
  normalised : ∀ e ∈ s.entries, e.t.Normalised

omit [DecidableEq H] in
/-- The index of a live handle is a place. -/
theorem Indexed.index_nonneg {s : Timeheap H} (hs : s.Indexed) {h : H} (hlive : s.Live h) :
    0 ≤ s.index h := by
  obtain ⟨k, hk, rfl⟩ := hlive
  rw [hs k hk]
  exact Int.natCast_nonneg k

omit [DecidableEq H] in
/-- So the index says who is live. -/
theorem Indexed.flagged {s : Timeheap H} (hs : s.Indexed)
    (hdead : ∀ h, ¬ s.Live h → s.index h = -1) : s.Flagged := by
  refine fun h => ⟨fun hh hlive => ?_, hdead h⟩
  have hnonneg := hs.index_nonneg hlive
  omega

omit [DecidableEq H] in
/-- A timer has one entry. -/
theorem Indexed.entry_eq {s : Timeheap H} (hs : s.Indexed) {e e' : ThEntry H}
    (he : e ∈ s.entries) (he' : e' ∈ s.entries) (h : e.h = e'.h) : e = e' := by
  obtain ⟨j, hj, rfl⟩ := Multiset.mem_map.mp he
  obtain ⟨k, hk, rfl⟩ := Multiset.mem_map.mp he'
  by_contra hne
  exact hs.handle_ne (Multiset.mem_range.mp hj) (Multiset.mem_range.mp hk)
    (fun hjk => hne (hjk ▸ rfl)) h

omit [DecidableEq H] in
/-- No entry is there twice. -/
theorem Indexed.entries_nodup {s : Timeheap H} (hs : s.Indexed) : s.entries.Nodup := by
  refine (Multiset.nodup_range _).map_on fun j hj k hk hjk => ?_
  by_contra hne
  exact hs.handle_ne (Multiset.mem_range.mp hj) (Multiset.mem_range.mp hk) hne
    (congrArg ThEntry.h hjk)

omit [DecidableEq H] in
/-- The entry that another one was put in front of is of another timer. -/
theorem Indexed.ne_of_cons {s : Timeheap H} (hs : s.Indexed) {e e' : ThEntry H}
    {m : Multiset (ThEntry H)} (hm : s.entries = e ::ₘ m) (he' : e' ∈ m) : e'.h ≠ e.h := by
  have hnodup := hs.entries_nodup
  rw [hm, Multiset.nodup_cons] at hnodup
  have he : e ∈ s.entries := hm ▸ Multiset.mem_cons_self e m
  have hold : e' ∈ s.entries := hm ▸ Multiset.mem_cons_of_mem he'
  intro heq
  exact hnodup.1 (hs.entry_eq hold he heq ▸ he')

/-! ## What a call does -/

/-- The entries of the other timers stay, and the deadline of `h`, if it has one, is `ok`. -/
structure Retimed (s s' : Timeheap H) (h : H) (ok : Timespec → Prop) : Prop where
  others : ∀ e : ThEntry H, e.h ≠ h → (e ∈ s'.entries ↔ e ∈ s.entries)
  own : ∀ e ∈ s'.entries, e.h = h → ok e.t

/-- A deadline that the call sets. -/
def TimerCall.Sets : TimerCall H → Timespec → Prop
  | .add _ t now _, sum => sum = addtime now t
  | .del _, _ => False

/-- The times of the call are normalised. -/
def TimerCall.Normalised : TimerCall H → Prop
  | .add _ t now _ => t.Normalised ∧ now.Normalised
  | .del _ => True

/-- Taking the entry of a timer off the heap and setting its index back. -/
theorem removeAt_valid {s : Timeheap H} (hs : s.Valid) {i : ℕ} (hi : i < s.heapUse) :
    ∃ s', s.removeAt i = some s' ∧ (s'.evtimerInit (s.heap i).h).Valid
      ∧ Retimed s (s'.evtimerInit (s.heap i).h) (s.heap i).h fun _ => False := by
  obtain ⟨s', hremove, hsound, hentries⟩ := removeAt_spec hs.sound hi
  have hne : ∀ e ∈ s'.entries, e.h ≠ (s.heap i).h :=
    fun e he => hs.sound.indexed.ne_of_cons hentries he
  have hsame : (s'.evtimerInit (s.heap i).h).entries = s'.entries := rfl
  have hindexed : (s'.evtimerInit (s.heap i).h).Indexed := by
    intro k hk
    have hmem : s'.heap k ∈ s'.entries := Multiset.mem_map_of_mem _ (Multiset.mem_range.mpr hk)
    exact (Function.update_of_ne (hne _ hmem) ..).trans (hsound.indexed k hk)
  refine ⟨s', hremove, ⟨⟨hsound.ordered, hindexed, hsound.room, hsound.cap⟩, ?_, ?_⟩, ?_, ?_⟩
  · refine hindexed.flagged fun a hdead => ?_
    by_cases ha : a = (s.heap i).h
    · rw [ha]
      exact Function.update_self ..
    · refine (Function.update_of_ne ha ..).trans ?_
      have hdead' : ¬ s.Live a := by
        rw [live_iff, hentries]
        rintro ⟨e, he, hea⟩
        rcases Multiset.mem_cons.mp he with rfl | he
        · exact ha hea.symm
        · exact hdead (live_iff.mpr ⟨e, he, hea⟩)
      rw [removeAt_index hdead' hremove]
      exact (hs.flagged a).mpr hdead'
  · intro e he
    exact hs.normalised e (hentries ▸ Multiset.mem_cons_of_mem he)
  · intro e he
    rw [hsame, hentries, Multiset.mem_cons]
    exact ⟨.inr, fun h => h.resolve_left fun heq => he (heq ▸ rfl)⟩
  · intro e he heq
    exact hne e he heq

/-- An insert keeps the heap valid and sets one timer. -/
theorem timeheapInsert_valid {s : Timeheap H} (hs : s.Valid) {h : H} (hfresh : ¬ s.Live h)
    {t : Timespec} (ht : t.Normalised) :
    (s.timeheapInsert h t).Valid ∧ Retimed s (s.timeheapInsert h t) h fun sum => sum = t := by
  obtain ⟨hsound, hentries⟩ := timeheapInsert_spec hs.sound hfresh t
  refine ⟨⟨hsound, hsound.indexed.flagged fun a hdead => ?_, fun e he => ?_⟩, ?_, ?_⟩
  · have hdead' : ¬ s.Live a ∧ a ≠ h := by
      rw [live_iff, hentries] at hdead
      refine ⟨fun hlive => hdead ?_, fun ha => hdead ⟨_, Multiset.mem_cons_self _ _, ha.symm⟩⟩
      obtain ⟨e, he, hea⟩ := live_iff.mp hlive
      exact ⟨e, Multiset.mem_cons_of_mem he, hea⟩
    rw [timeheapInsert_index t hdead'.1 hdead'.2]
    exact (hs.flagged a).mpr hdead'.1
  · rw [hentries, Multiset.mem_cons] at he
    rcases he with rfl | he
    · exact ht
    · exact hs.normalised e he
  · intro e he
    rw [hentries, Multiset.mem_cons]
    exact ⟨fun h => h.resolve_left fun heq => he (heq ▸ rfl), .inr⟩
  · intro e he heh
    rw [hentries, Multiset.mem_cons] at he
    rcases he with rfl | he
    · rfl
    · exact absurd (live_iff.mpr ⟨e, he, heh⟩) hfresh

/-- A change keeps the heap valid and sets one timer anew. -/
theorem timeheapChange_valid {s : Timeheap H} (hs : s.Valid) {h : H} (hlive : s.Live h)
    {t : Timespec} (ht : t.Normalised) :
    ∃ s', s.timeheapChange h t = some s' ∧ s'.Valid ∧ Retimed s s' h fun sum => sum = t := by
  obtain ⟨s', t₀, m, hchange, hsound, hold, hnew⟩ := timeheapChange_spec hs.sound hlive t
  have hne : ∀ e ∈ m, e.h ≠ h := fun e he => hs.sound.indexed.ne_of_cons hold he
  have hlive_iff : ∀ a, s'.Live a ↔ s.Live a := by
    intro a
    rw [live_iff, live_iff, hold, hnew]
    simp
  refine ⟨s', hchange, ⟨hsound, hsound.indexed.flagged fun a hdead => ?_, fun e he => ?_⟩, ?_, ?_⟩
  · rw [hlive_iff] at hdead
    rw [timeheapChange_index hdead hchange]
    exact (hs.flagged a).mpr hdead
  · rw [hnew, Multiset.mem_cons] at he
    rcases he with rfl | he
    · exact ht
    · exact hs.normalised e (hold ▸ Multiset.mem_cons_of_mem he)
  · intro e he
    rw [hnew, hold, Multiset.mem_cons, Multiset.mem_cons]
    exact or_congr_left ⟨fun h => absurd (h ▸ rfl) he, fun h => absurd (h ▸ rfl) he⟩
  · intro e he heh
    rw [hnew, Multiset.mem_cons] at he
    rcases he with rfl | he
    · rfl
    · exact absurd heh (hne e he)

/-- **What a call does.**  It does not fail, keeps the invariant, and is about its own timer
only. -/
theorem timerCall_spec {s : Timeheap H} (hs : s.Valid) {c : TimerCall H} (hc : c.Normalised) :
    ∃ s', s.timerCall c = some s' ∧ s'.Valid ∧ Retimed s s' c.handle c.Sets := by
  cases c with
  | add h t now reallocOk =>
      have hsum := Timespec.addtime_normalised hc.2 hc.1
      by_cases hflag : s.index h = -1
      · have hfresh := (hs.flagged h).mp hflag
        by_cases hfull : s.heapUse = s.heapCap ∧ reallocOk = false
        · refine ⟨s, ?_, hs, fun e _ => Iff.rfl, fun e he heh => ?_⟩
          · rw [timerCall, evtimerAdd]
            simp only [if_pos hflag, timeheapInsertRet, if_pos hfull, Option.map_some]
          · exact absurd (live_iff.mpr ⟨e, he, heh⟩) hfresh
        · refine ⟨s.timeheapInsert h (addtime now t), ?_, timeheapInsert_valid hs hfresh hsum⟩
          rw [timerCall, evtimerAdd]
          simp only [if_pos hflag, timeheapInsertRet, if_neg hfull, Option.map_some]
      · have hlive : s.Live h := not_not.mp fun hdead => hflag ((hs.flagged h).mpr hdead)
        obtain ⟨s', hchange, hvalid, hretimed⟩ := timeheapChange_valid hs hlive hsum
        refine ⟨s', ?_, hvalid, hretimed⟩
        rw [timerCall, evtimerAdd]
        simp only [if_neg hflag, hchange, Option.map_some]
  | del h =>
      by_cases hlive : s.Live h
      · obtain ⟨k, hk, rfl⟩ := hlive
        obtain ⟨s', hremove, hvalid, hretimed⟩ := removeAt_valid hs hk
        refine ⟨_, ?_, hvalid, hretimed⟩
        have hindex := hs.sound.indexed k hk
        have hnonneg : s.index (s.heap k).h ≥ 0 := hindex ▸ Int.natCast_nonneg k
        rw [timerCall, evtimerDel, if_pos hnonneg, timeheapRemove, hindex, hremove]
        rfl
      · have hflag := (hs.flagged h).mpr hlive
        refine ⟨s, ?_, hs, fun e _ => Iff.rfl, fun e he heh => ?_⟩
        · rw [timerCall, evtimerDel, if_neg (by omega)]
        · exact hlive (live_iff.mpr ⟨e, he, heh⟩)

/-- The loop takes the top off. -/
theorem expireTop_spec {s : Timeheap H} (hs : s.Valid) (hpos : 0 < s.heapUse) :
    ∃ s', s.expireTop = some ((s.heap 0).h, s') ∧ s'.Valid
      ∧ Retimed s s' (s.heap 0).h fun _ => False := by
  obtain ⟨s', hremove, hvalid, hretimed⟩ := removeAt_valid hs hpos
  rw [Nat.cast_zero] at hremove
  refine ⟨_, ?_, hvalid, hretimed⟩
  rw [expireTop, timeheapRemoveTop, hremove]
  rfl

end Timeheap

/-! ## The property -/

/-- The entry is due: less than a millisecond is left at the reading `now`. -/
def ThEntry.Due {H : Type} (now : Timespec) (e : ThEntry H) : Prop :=
  e.t.nanos < now.nanos + 1000000

instance {H : Type} (now : Timespec) : DecidablePred (ThEntry.Due (H := H) now) :=
  fun _ => inferInstanceAs (Decidable (_ < _))

namespace Timeheap

variable {H : Type}

/-- The call sets no deadline that is due. -/
def TimerCall.Late (now : Timespec) (c : TimerCall H) : Prop :=
  ∀ t, c.Sets t → now.nanos + 1000000 ≤ t.nanos

/-- Some call deletes the timer or sets its deadline. -/
def Touches (calls : List (TimerCall H)) (h : H) : Prop := ∃ c ∈ calls, c.handle = h

/-- What a run does: `r.fired` are the timers it fires, in their order.  They are timers due
at its start, each once, and the callback of none that was fired before had deleted it or set
its deadline; every other timer due at the start was deleted or set by a callback.  The
deadlines do not decrease, and no timer due is left. -/
structure RunExact (now : Timespec) (rounds : ℕ → List (TimerCall H)) (s : Timeheap H)
    (r : Expiry H) : Prop where
  due : ∀ e ∈ r.fired, e ∈ s.entries ∧ e.Due now
  untouched : ∀ k e, r.fired[k]? = some e → ∀ j < k, ¬ Touches (rounds j) e.h
  all : ∀ e ∈ s.entries, e.Due now →
    e ∈ r.fired ∨ ∃ j < r.fired.length, Touches (rounds j) e.h
  once : (r.fired.map ThEntry.h).Nodup
  ordered : r.fired.Pairwise fun a b => a.t.nanos ≤ b.t.nanos
  none : ∀ s' ∈ r.points.getLast?, ∀ e ∈ s'.entries, ¬ e.Due now

/-! ## The run -/

section Run

variable [DecidableEq H] {s s' s'' : Timeheap H} {now : Timespec}

/-- What a callback does, as far as the loop sees it. -/
structure Worked (now : Timespec) (calls : List (TimerCall H)) (s s' : Timeheap H) : Prop where
  kept : ∀ e ∈ s.entries, ¬ Touches calls e.h → e ∈ s'.entries
  old : ∀ e ∈ s'.entries, e.Due now → e ∈ s.entries ∧ ¬ Touches calls e.h

omit [DecidableEq H] in
theorem Worked.nil (now : Timespec) (s : Timeheap H) : Worked now [] s s :=
  ⟨fun _ he _ => he, fun _ he _ => ⟨he, fun ⟨_, hc, _⟩ => by cases hc⟩⟩

omit [DecidableEq H] in
theorem touches_cons {c : TimerCall H} {calls : List (TimerCall H)} {h : H} :
    Touches (c :: calls) h ↔ c.handle = h ∨ Touches calls h := by
  simp [Touches]

omit [DecidableEq H] in
theorem Worked.cons {c : TimerCall H} {calls : List (TimerCall H)}
    (hc : Retimed s s' c.handle c.Sets) (hlate : c.Late now) (h : Worked now calls s' s'') :
    Worked now (c :: calls) s s'' := by
  refine ⟨fun e he htouch => ?_, fun e he hdue => ?_⟩
  · rw [touches_cons, not_or] at htouch
    exact h.kept e ((hc.others e (Ne.symm htouch.1)).mpr he) htouch.2
  · obtain ⟨he', htouch⟩ := h.old e he hdue
    -- a timer that the call has set is not due
    have hne : e.h ≠ c.handle := by
      intro heq
      have hset := hlate e.t (hc.own e he' heq)
      rw [ThEntry.Due] at hdue
      omega
    rw [touches_cons, not_or]
    exact ⟨(hc.others e hne).mp he', Ne.symm hne, htouch⟩

/-- A callback keeps the heap valid. -/
theorem callback_spec {calls : List (TimerCall H)} (hs : s.Valid)
    (hcalls : ∀ c ∈ calls, c.Normalised ∧ c.Late now) :
    ∃ points, s.callback calls = some points ∧ (∀ p ∈ points, p.Valid)
      ∧ (points.getLastD s).Valid ∧ Worked now calls s (points.getLastD s) := by
  induction calls generalizing s with
  | nil => exact ⟨[], rfl, fun p hp => (by cases hp), hs, Worked.nil now s⟩
  | cons c calls ih =>
      obtain ⟨hnorm, hlate⟩ := hcalls c List.mem_cons_self
      obtain ⟨s', hcall, hvalid, hretimed⟩ := timerCall_spec hs hnorm
      obtain ⟨points, hrest, hpoints, hlast, hworked⟩ :=
        ih hvalid fun c' hc' => hcalls c' (List.mem_cons_of_mem _ hc')
      refine ⟨s' :: points, ?_, ?_, ?_, ?_⟩
      · rw [callback, hcall, Option.bind_eq_bind, Option.bind_some, hrest]
        rfl
      · rw [List.forall_mem_cons]
        exact ⟨hvalid, hpoints⟩
      · rw [List.getLastD_cons]
        exact hlast
      · rw [List.getLastD_cons]
        exact hworked.cons hretimed hlate

/-- The entries that are due. -/
def dueEntries (now : Timespec) (s : Timeheap H) : Multiset (ThEntry H) :=
  s.entries.filter (ThEntry.Due now)

/-- What a round does: the top goes, and its callback works on the rest. -/
structure Fired (now : Timespec) (calls : List (TimerCall H)) (s s' : Timeheap H) : Prop where
  kept : ∀ e ∈ s.entries, e.h ≠ (s.heap 0).h → ¬ Touches calls e.h → e ∈ s'.entries
  old : ∀ e ∈ s'.entries, e.Due now →
    e ∈ s.entries ∧ e.h ≠ (s.heap 0).h ∧ ¬ Touches calls e.h

omit [DecidableEq H] in
/-- A timer has fired when it was removed and its callback has run. -/
theorem Worked.fired {calls : List (TimerCall H)}
    (htop : Retimed s s' (s.heap 0).h fun _ => False) (h : Worked now calls s' s'') :
    Fired now calls s s'' := by
  refine ⟨fun e he hne htouch => h.kept e ((htop.others e hne).mpr he) htouch,
    fun e he hdue => ?_⟩
  obtain ⟨he', htouch⟩ := h.old e he hdue
  have hne : e.h ≠ (s.heap 0).h := fun heq => htop.own e he' heq
  exact ⟨(htop.others e hne).mp he', hne, htouch⟩

omit [DecidableEq H] in
/-- The top is an entry. -/
theorem top_mem (hpos : 0 < s.heapUse) : s.heap 0 ∈ s.entries :=
  Multiset.mem_map_of_mem _ (Multiset.mem_range.mpr hpos)

omit [DecidableEq H] in
/-- The top is due first. -/
theorem Valid.top_le (hs : s.Valid) {e : ThEntry H} (he : e ∈ s.entries) :
    (s.heap 0).t.nanos ≤ e.t.nanos := by
  obtain ⟨k, hk, rfl⟩ := Multiset.mem_map.mp he
  have hkn := Multiset.mem_range.mp hk
  rw [← Timespec.key_le_iff (hs.normalised _ (top_mem (by omega))) (hs.normalised _ he)]
  exact hs.sound.ordered.top_le k hkn

omit [DecidableEq H] in
/-- A round leaves fewer timers due. -/
theorem Fired.card_lt {calls : List (TimerCall H)} (h : Fired now calls s s')
    (hs' : s'.Indexed) (hpos : 0 < s.heapUse) (hdue : (s.heap 0).Due now) :
    (s'.dueEntries now).card < (s.dueEntries now).card := by
  refine Multiset.card_lt_card (Multiset.lt_iff_cons_le.mpr ⟨s.heap 0, ?_⟩)
  have hnot : s.heap 0 ∉ s'.dueEntries now :=
    fun hmem => (h.old _ (Multiset.mem_filter.mp hmem).1 hdue).2.1 rfl
  refine (Multiset.le_iff_subset ?_).mpr fun e he => ?_
  · exact Multiset.nodup_cons.mpr ⟨hnot, hs'.entries_nodup.filter _⟩
  · rw [dueEntries, Multiset.mem_filter]
    rcases Multiset.mem_cons.mp he with rfl | he
    · exact ⟨top_mem hpos, hdue⟩
    · obtain ⟨he', hdue'⟩ := Multiset.mem_filter.mp he
      exact ⟨(h.old e he' hdue').1, hdue'⟩

omit [DecidableEq H] in
theorem RunExact.nil {rounds : ℕ → List (TimerCall H)} (h : ∀ e ∈ s.entries, ¬ e.Due now) :
    RunExact now rounds s ⟨[], [s]⟩ := by
  refine ⟨by simp, by simp, fun e he hdue => absurd hdue (h e he), by simp, by simp, ?_⟩
  rintro s' hs'
  rw [List.getLast?_singleton, Option.mem_some_iff] at hs'
  exact hs' ▸ h

omit [DecidableEq H] in
/-- A round in front of a run. -/
theorem RunExact.cons {rounds : ℕ → List (TimerCall H)} {r : Expiry H}
    {points : List (Timeheap H)} (hs : s.Valid) (hpos : 0 < s.heapUse)
    (hdue : (s.heap 0).Due now) (hfired : Fired now (rounds 0) s s')
    (hlast : r.points ≠ [])
    (h : RunExact now (fun i => rounds (i + 1)) s' r) :
    RunExact now rounds s ⟨s.heap 0 :: r.fired, points ++ r.points⟩ := by
  have hold : ∀ e ∈ r.fired, e ∈ s.entries ∧ e.h ≠ (s.heap 0).h ∧ ¬ Touches (rounds 0) e.h :=
    fun e he => hfired.old e (h.due e he).1 (h.due e he).2
  refine ⟨?_, ?_, ?_, ?_, ?_, ?_⟩
  · rw [List.forall_mem_cons]
    exact ⟨⟨top_mem hpos, hdue⟩, fun e he => ⟨(hold e he).1, (h.due e he).2⟩⟩
  · intro k e hk j hj
    cases k with
    | zero => exact absurd hj (Nat.not_lt_zero j)
    | succ k =>
        rw [List.getElem?_cons_succ] at hk
        cases j with
        | zero => exact (hold e (List.mem_of_getElem? hk)).2.2
        | succ j => exact h.untouched k e hk j (Nat.lt_of_succ_lt_succ hj)
  · intro e he hedue
    by_cases htop : e.h = (s.heap 0).h
    · exact .inl (hs.sound.indexed.entry_eq he (top_mem hpos) htop ▸ List.mem_cons_self)
    by_cases htouch : Touches (rounds 0) e.h
    · exact .inr ⟨0, Nat.succ_pos _, htouch⟩
    · rcases h.all e (hfired.kept e he htop htouch) hedue with hmem | ⟨j, hj, htouch'⟩
      · exact .inl (List.mem_cons_of_mem _ hmem)
      · exact .inr ⟨j + 1, Nat.succ_lt_succ hj, htouch'⟩
  · rw [List.map_cons, List.nodup_cons]
    refine ⟨fun hmem => ?_, h.once⟩
    obtain ⟨e, he, heq⟩ := List.mem_map.mp hmem
    exact (hold e he).2.1 heq
  · rw [List.pairwise_cons]
    exact ⟨fun e he => hs.top_le (hold e he).1, h.ordered⟩
  · intro s'' hs''
    rw [List.getLast?_append_of_ne_nil _ hlast] at hs''
    exact h.none s'' hs''

omit [DecidableEq H] in
/-- The test of the loop is that the top is due. -/
theorem expires_top (hs : s.Valid) (hnow : now.Normalised) (hpos : 0 < s.heapUse) :
    expires (s.heap 0).t now = true ↔ (s.heap 0).Due now :=
  expires_iff (hs.normalised _ (top_mem hpos)) hnow

/-- The loop stops when no timer is due. -/
theorem evtimersRun_stop (hs : s.Valid) (hnow : now.Normalised)
    (hstop : ¬ (0 < s.heapUse ∧ (s.heap 0).Due now)) :
    (∀ e ∈ s.entries, ¬ e.Due now) ∧ ∀ fuel > 0, ∀ rounds,
      evtimersRun now fuel rounds s = some ⟨[], [s]⟩ := by
  refine ⟨fun e he hdue => hstop ?_, fun fuel hfuel rounds => ?_⟩
  · have hpos : 0 < s.heapUse := by
      obtain ⟨k, hk, -⟩ := Multiset.mem_map.mp he
      exact (Nat.zero_le k).trans_lt (Multiset.mem_range.mp hk)
    exact ⟨hpos, (hs.top_le he).trans_lt hdue⟩
  · obtain ⟨fuel, rfl⟩ := Nat.exists_eq_succ_of_ne_zero hfuel.ne'
    rw [evtimersRun]
    split_ifs with hpos hexpires
    · exact absurd ⟨hpos, (expires_top hs hnow hpos).mp hexpires⟩ hstop
    · rfl
    · rfl

/-- **Run lemma**, by induction on the number of timers that are due. -/
theorem evtimersRun_exact (hnow : now.Normalised) (n : ℕ) :
    ∀ {s : Timeheap H} (rounds : ℕ → List (TimerCall H)), (s.dueEntries now).card ≤ n →
      s.Valid → (∀ i, ∀ c ∈ rounds i, c.Normalised ∧ c.Late now) →
      ∃ r, (∀ fuel > n, evtimersRun now fuel rounds s = some r) ∧ r.points ≠ []
        ∧ RunExact now rounds s r ∧ ∀ p ∈ r.points, p.Valid := by
  induction n with
  | zero =>
      intro s rounds hn hs hrounds
      have hstop : ¬ (0 < s.heapUse ∧ (s.heap 0).Due now) := by
        rintro ⟨hpos, hdue⟩
        have hmem : s.heap 0 ∈ s.dueEntries now := Multiset.mem_filter.mpr ⟨top_mem hpos, hdue⟩
        rw [Multiset.card_eq_zero.mp (Nat.le_zero.mp hn)] at hmem
        exact Multiset.notMem_zero _ hmem
      obtain ⟨hnone, hrun⟩ := evtimersRun_stop hs hnow hstop
      exact ⟨⟨[], [s]⟩, fun fuel hfuel => hrun fuel hfuel rounds, by simp, .nil hnone,
        by simpa using hs⟩
  | succ n ih =>
      intro s rounds hn hs hrounds
      by_cases hgo : 0 < s.heapUse ∧ (s.heap 0).Due now
      · obtain ⟨hpos, hdue⟩ := hgo
        obtain ⟨s₁, htop, hs₁, hretimed⟩ := expireTop_spec hs hpos
        obtain ⟨points, hcallback, hpoints, hs₂, hworked⟩ := callback_spec hs₁ (hrounds 0)
        have hfired := hworked.fired hretimed
        have hless := hfired.card_lt hs₂.sound.indexed hpos hdue
        obtain ⟨r, hrun, hlast, hexact, hvalid⟩ :=
          ih (fun i => rounds (i + 1)) (by omega) hs₂ fun i => hrounds (i + 1)
        refine ⟨⟨s.heap 0 :: r.fired, (s₁ :: points) ++ r.points⟩, fun fuel hfuel => ?_, ?_,
          hexact.cons hs hpos hdue hfired hlast, ?_⟩
        · obtain ⟨fuel, rfl⟩ := Nat.exists_eq_succ_of_ne_zero (Nat.ne_of_gt
            ((Nat.zero_le _).trans_lt hfuel))
          rw [evtimersRun, if_pos hpos, if_pos ((expires_top hs hnow hpos).mpr hdue), htop]
          simp only [Option.bind_eq_bind, Option.bind_some, hcallback,
            hrun fuel (Nat.lt_of_succ_lt_succ hfuel)]
          rfl
        · exact List.append_ne_nil_of_left_ne_nil (List.cons_ne_nil _ _) _
        · intro p hp
          rcases List.mem_append.mp hp with hp | hp
          · rcases List.mem_cons.mp hp with rfl | hp
            · exact hs₁
            · exact hpoints p hp
          · exact hvalid p hp
      · obtain ⟨hnone, hrun⟩ := evtimersRun_stop hs hnow hgo
        exact ⟨⟨[], [s]⟩, fun fuel hfuel => hrun fuel (Nat.zero_lt_of_lt hfuel) rounds, by simp,
          .nil hnone, by simpa using hs⟩

end Run

/-! ## Over every run -/

section Reachable

variable [DecidableEq H]

/-- What the program does with its timers: a call, or a round of the loop up to its
callback. -/
inductive TimerAction (H : Type) where
  | call (c : TimerCall H)
  | round (now : Timespec)

/-- One operation; a round starts when its test succeeds. -/
def timerStep (s : Timeheap H) : TimerAction H → Option (Timeheap H)
  | .call c => s.timerCall c
  | .round now =>
      if s.heapUse > 0 ∧ expires (s.heap 0).t now then s.expireTop.map Prod.snd else none

/-- The times that the program hands to `evtimer_add`, and the clock readings, are
normalised. -/
def TimesNormalised (_ : Timeheap H) : TimerAction H → Prop
  | .call c => c.Normalised
  | .round now => now.Normalised

/-- After `timeheap_init`, with `evtimer_init` called for every timer. -/
def noTimers (memory : ℕ → ThEntry H) : Timeheap H := timeheapInit memory fun _ => -1

omit [DecidableEq H] in
/-- A heap without timers is valid. -/
theorem noTimers_valid (memory : ℕ → ThEntry H) : (noTimers memory).Valid := by
  have hempty : ∀ k, ¬ k < (noTimers memory).heapUse := fun k => Nat.not_lt_zero k
  refine ⟨⟨fun j _ hj => absurd hj (hempty j), fun k hk => absurd hk (hempty k),
    Nat.zero_le _, Nat.succ_pos 9⟩, fun h => ⟨fun _ => ?_, fun _ => rfl⟩, fun e he => ?_⟩
  · rintro ⟨k, hk, -⟩
    exact hempty k hk
  · obtain ⟨k, hk, -⟩ := Multiset.mem_map.mp he
    exact absurd (Multiset.mem_range.mp hk) (hempty k)

/-- **Step lemma.**  Every operation keeps the invariant. -/
theorem Valid.step {s s' : Timeheap H} (hs : s.Valid) {a : TimerAction H}
    (hok : s.TimesNormalised a) (hstep : s.timerStep a = some s') : s'.Valid := by
  cases a with
  | call c =>
      obtain ⟨s₁, hcall, hvalid, -⟩ := timerCall_spec hs hok
      rw [timerStep, hcall, Option.some.injEq] at hstep
      exact hstep ▸ hvalid
  | round now =>
      rw [timerStep] at hstep
      split_ifs at hstep with hgo
      obtain ⟨s₁, htop, hvalid, -⟩ := expireTop_spec hs hgo.1
      rw [htop, Option.map_some, Option.some.injEq] at hstep
      exact hstep ▸ hvalid

instance (s : Timeheap H) : (a : TimerAction H) → Decidable (s.TimesNormalised a)
  | .call (.add _ t now _) => inferInstanceAs (Decidable (t.Normalised ∧ now.Normalised))
  | .call (.del _) => inferInstanceAs (Decidable True)
  | .round now => inferInstanceAs (Decidable now.Normalised)

/-- Four timers, due at 6, 4, 5 and 10 seconds. -/
def fourTimers : List (TimerAction (Fin 4)) :=
  [.call (.add 0 ⟨5, 0⟩ ⟨1, 0⟩ true), .call (.add 1 ⟨3, 0⟩ ⟨1, 0⟩ true),
    .call (.add 2 ⟨4, 0⟩ ⟨1, 0⟩ true), .call (.add 3 ⟨9, 0⟩ ⟨1, 0⟩ true)]

/-- Half a millisecond before 6 seconds the first callback deletes the next timer and sets
its own again. -/
def fourTimersRounds : ℕ → List (TimerCall (Fin 4))
  | 0 => [.del 2, .add 1 ⟨3, 0⟩ ⟨5, 999500000⟩ true]
  | _ => []

example : ((run timerStep TimesNormalised (noTimers fun _ => ⟨⟨0, 0⟩, 0⟩) fourTimers).bind
      (evtimersRun ⟨5, 999500000⟩ 3 fourTimersRounds)).map (fun r => r.fired.map ThEntry.h)
    = some [1, 0] := by
  decide +kernel

end Reachable

end Timeheap

end Zevent.Znet

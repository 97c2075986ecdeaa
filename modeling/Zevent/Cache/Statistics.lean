/-
# The cache statistics (`zcache.h`, `zcache_shmcb.c`)

One header counts for all divisions.  Entries leave a queue by expiry, which every
operation can cause, and by scrolling, which an insertion causes whether or not it
succeeds; `Counted` says what one call does to the counters, and `statistics_balance` what
that comes to over every sequence of calls.
-/
import Zevent.Cache.Integrity

namespace Zevent.Cache

open Interleaving

/-- The counters of a segment nobody has used. -/
structure SHMCBHeader.Unused (h : SHMCBHeader) : Prop where
  numStores : h.numStores = 0
  numExpiries : h.numExpiries = 0
  numScrolled : h.numScrolled = 0
  numRetrievesHit : h.numRetrievesHit = 0
  numRetrievesMiss : h.numRetrievesMiss = 0
  numRemovesHit : h.numRemovesHit = 0
  numRemovesMiss : h.numRemovesMiss = 0

/-- The entries in use, over all divisions. -/
def Segment.queued (s : Segment) : ℕ :=
  ∑ i ∈ Finset.range (s.header.divisionMask + 1), (s.division i).queueCount

/-- The counters after `retrieves` retrievals and `removes` removals. -/
structure Segment.Balanced (retrieves removes : ℕ) (s : Segment) : Prop where
  stores : s.header.numStores = s.queued + s.header.numExpiries + s.header.numScrolled
  retrieves : s.header.numRetrievesHit + s.header.numRetrievesMiss = retrieves
  removes : s.header.numRemovesHit + s.header.numRemovesMiss = removes

/-- One division changes, and with it the number of entries in use. -/
theorem Segment.queued_update {s s' : Segment} {i : ℕ} {d' : Division}
    (hsame : s.header.SameLayout s'.header) (hi : i ≤ s.header.divisionMask)
    (hdiv : s'.division = Function.update s.division i d') :
    s'.queued + (s.division i).queueCount = s.queued + d'.queueCount := by
  have hmem : i ∈ Finset.range (s.header.divisionMask + 1) := Finset.mem_range.mpr (by omega)
  have hrest : ∑ j ∈ (Finset.range (s.header.divisionMask + 1)).erase i,
        (Function.update s.division i d' j).queueCount
      = ∑ j ∈ (Finset.range (s.header.divisionMask + 1)).erase i, (s.division j).queueCount := by
    apply Finset.sum_congr rfl
    intro j hj
    rw [Function.update_of_ne (Finset.ne_of_mem_erase hj)]
  rw [queued, queued, hsame.divisionMask, hdiv, ← Finset.add_sum_erase _ _ hmem,
    ← Finset.add_sum_erase _ (fun j => (s.division j).queueCount) hmem, hrest,
    Function.update_self]
  omega

/-- **Step lemma.**  A call keeps the balance. -/
theorem Segment.Balanced.apply {s : Segment} {retrieves removes : ℕ}
    (h : s.Balanced retrieves removes) (hg : s.header.Geometry)
    (hwf : ∀ i ≤ s.header.divisionMask,
      (s.division i).Wf s.header.indexNum s.header.cacheDataSize) {op : Op} {s' : Segment}
    {res : Result} (happly : s.apply op = some (s', res)) :
    s'.Balanced (retrieves + op.retrieves) (removes + op.removes) := by
  obtain ⟨s₁, res₁, i, d', happly₁, hsame, hi, hdiv, -, -, hcounted⟩ :=
    Segment.apply_effect hg hwf op
  rw [happly, Option.some.injEq, Prod.mk.injEq] at happly₁
  obtain ⟨rfl, rfl⟩ := happly₁
  have hqueued := Segment.queued_update hsame hi hdiv
  have hstores := hcounted.stores
  have hbalance := h.stores
  constructor
  · omega
  · rw [hcounted.retrieves, h.retrieves]
  · rw [hcounted.removes, h.removes]

/-- What a call of a session does to its segment. -/
theorem Session.seg_of_step {s s' : Session} {op : Op} (h : s.step op = some s') :
    ∃ res, s.seg.apply op = some (s'.seg, res) := by
  rw [Session.step, Option.map_eq_some_iff] at h
  obtain ⟨⟨seg, res⟩, happly, rfl⟩ := h
  exact ⟨res, happly⟩

/-- **Run lemma.**  Every sequence of calls returns and keeps the balance. -/
theorem Session.Inv.balanced_run {s : Session} (hinv : s.Inv) {retrieves removes : ℕ}
    (h : s.seg.Balanced retrieves removes) (ops : List Op) :
    ∃ s', run Session.step Always s ops = some s'
      ∧ s'.seg.Balanced (retrieves + (ops.map Op.retrieves).sum)
          (removes + (ops.map Op.removes).sum) := by
  induction ops generalizing s retrieves removes with
  | nil => exact ⟨s, rfl, h⟩
  | cons op ops ih =>
      obtain ⟨s₁, hs₁⟩ := Option.isSome_iff_exists.mp (hinv.step_isSome op)
      obtain ⟨res, happly⟩ := Session.seg_of_step hs₁
      have hbal := h.apply hinv.geometry hinv.wf happly
      obtain ⟨s', hrun, hbal'⟩ := ih (hinv.step hs₁) hbal
      refine ⟨s', ?_, ?_⟩
      · rw [run, if_pos (show Always s op from trivial), hs₁, Option.bind_some, hrun]
      · rw [List.map_cons, List.map_cons, List.sum_cons, List.sum_cons, ← Nat.add_assoc,
          ← Nat.add_assoc]
        exact hbal'

theorem Session.Initial.balanced {s : Session} (h₀ : s.Initial) (hunused : s.seg.header.Unused) :
    s.seg.Balanced 0 0 := by
  have hqueued : s.seg.queued = 0 := by
    rw [Segment.queued, Finset.sum_eq_zero_iff]
    intro i hi
    exact h₀.queueCount i (by simpa [Nat.lt_succ_iff] using hi)
  constructor
  · rw [hqueued, hunused.numStores, hunused.numExpiries, hunused.numScrolled]
  · rw [hunused.numRetrievesHit, hunused.numRetrievesMiss]
  · rw [hunused.numRemovesHit, hunused.numRemovesMiss]

/-- **The statistics balance.**  Every sequence of calls over all divisions of a fresh
segment returns, and after it the number of stores is the number of entries in use, of
those that expired and of those that were scrolled out, and the hits and misses of the
retrievals, and those of the removals of a non-null id, add up to the calls made. -/
theorem statistics_balance {s₀ : Session} (h₀ : s₀.Initial) (hunused : s₀.seg.header.Unused)
    (ops : List Op) :
    ∃ s, run Session.step Always s₀ ops = some s
      ∧ s.seg.header.numStores
        = ∑ i ∈ Finset.range (s.seg.header.divisionMask + 1), (s.seg.division i).queueCount
          + s.seg.header.numExpiries + s.seg.header.numScrolled
      ∧ s.seg.header.numRetrievesHit + s.seg.header.numRetrievesMiss
        = (ops.map Op.retrieves).sum
      ∧ s.seg.header.numRemovesHit + s.seg.header.numRemovesMiss = (ops.map Op.removes).sum := by
  obtain ⟨s, hrun, hbal⟩ := h₀.inv.balanced_run (h₀.balanced hunused) ops
  rw [Nat.zero_add, Nat.zero_add] at hbal
  exact ⟨s, hrun, hbal.stores, hbal.retrieves, hbal.removes⟩

/-- Calls in which one entry expires, one is scrolled out by a store that fails, and a
removal with a null id is made. -/
def failedStoreCalls : List Op :=
  [.store [1] ⟨[10, 11], by decide⟩ 5 0, .store [2] ⟨[20], by decide⟩ 100 0,
    .retrieve [1] 6 6 true, .store [3] ⟨[30, 31], by decide⟩ 100 6,
    .store [4] ⟨[40, 41, 42, 43], by decide⟩ 100 6, .remove none 6, .remove (some [3]) 6]

theorem statistics_balance_failed_store :
    ∃ s, run Session.step Always smallSession failedStoreCalls = some s
      ∧ (s.seg.header.numStores, s.seg.header.numExpiries, s.seg.header.numScrolled) = (3, 1, 1)
      ∧ s.seg.header.numStores
        = ∑ i ∈ Finset.range (s.seg.header.divisionMask + 1), (s.seg.division i).queueCount
          + s.seg.header.numExpiries + s.seg.header.numScrolled := by
  obtain ⟨s, hrun, hstores, -, -⟩ := statistics_balance smallSession_initial
    ⟨rfl, rfl, rfl, rfl, rfl, rfl, rfl⟩ failedStoreCalls
  refine ⟨s, hrun, ?_, hstores⟩
  have hobs : (run Session.step Always smallSession failedStoreCalls).map
      (fun s => (s.seg.header.numStores, s.seg.header.numExpiries, s.seg.header.numScrolled))
      = some (3, 1, 1) := by
    decide +kernel
  rw [hrun, Option.map_some, Option.some.injEq] at hobs
  exact hobs

end Zevent.Cache

/-
# The size of the page pool (`common/mdb/mpool.c`)

The pool takes memory for another bucket when it has fewer than `maxcache`, or when all that
it has are pinned.  `cache_bounded`: it has more buckets in use than `maxcache` only for
pinned pages.
-/
import Mathlib.Tactic
import Zevent.Mdb.Transparent

namespace Zevent.Mdb

open Interleaving PagedFile

variable {fs : Filters} {s : Session} {file : List UInt8} {pagesize maxcache : ℕ} {mem : ℕ → Bkt}

open Session

/-! ## The size of the pool -/

/-- There are fewer than `k` pinned buckets when a page is asked for, and fewer than `2 ^ 32`
buckets. -/
def Session.Room (k : ℕ) (s : Session) : Call → Prop
  | .new _ _ | .get _ _ _ _ =>
      s.pool.fresh + 1 < 2 ^ 32 ∧ s.pool.lqh.countP (fun a => (s.pool.bkts a).pinned) < k
  | .store _ _ | .put _ _ | .sync _ _ => True

/-- The buckets are counted, and there are no more in use than there may be. -/
structure Mpool.Bounded (k : ℕ) (mp : Mpool) : Prop where
  counted : mp.curcache = mp.fresh
  bounded : mp.lqh.length ≤ max mp.maxcache k

namespace Mpool

variable {mp : Mpool} {k a : ℕ}

theorem Queues.length_le (h : mp.Queues) : mp.lqh.length ≤ mp.fresh := by
  have hsub : mp.lqh ⊆ List.range mp.fresh := by
    intro a ha
    exact List.mem_range.mpr (h.allocated a ha)
  have hle := (List.subperm_of_subset h.nodup hsub).length_le
  rwa [List.length_range] at hle

/-- The buckets in use and their numbers are the same. -/
def SameSize (mp mp' : Mpool) : Prop :=
  mp'.lqh = mp.lqh ∧ mp'.curcache = mp.curcache ∧ mp'.fresh = mp.fresh ∧
    mp'.maxcache = mp.maxcache

theorem mpoolWrite_sameSize (fs : Filters) (mp : Mpool) (a : ℕ) (w : WriteResult) :
    mp.SameSize (mp.mpoolWrite fs a w).1 := by
  cases w with
  | seekFails => exact ⟨rfl, rfl, rfl, rfl⟩
  | wrote nw =>
      simp only [mpoolWrite]
      split_ifs
      · exact ⟨rfl, rfl, rfl, rfl⟩
      · exact ⟨rfl, rfl, rfl, rfl⟩

theorem syncLoop_sameSize (fs : Filters) (mp : Mpool) (w : ℕ → WriteResult) (l : List ℕ) :
    mp.SameSize (mp.syncLoop fs w l).1 := by
  induction l generalizing mp with
  | nil => exact ⟨rfl, rfl, rfl, rfl⟩
  | cons a l ih =>
      rw [syncLoop]
      split_ifs
      · have hwrite := mpoolWrite_sameSize fs mp a (w a)
        generalize mp.mpoolWrite fs a (w a) = r at hwrite
        obtain ⟨mp', done⟩ := r
        obtain ⟨hlqh, hcur, hfresh, hmax⟩ := hwrite
        cases done with
        | false => exact ⟨hlqh, hcur, hfresh, hmax⟩
        | true =>
            obtain ⟨hlqh', hcur', hfresh', hmax'⟩ := ih mp'
            exact ⟨hlqh'.trans hlqh, hcur'.trans hcur, hfresh'.trans hfresh, hmax'.trans hmax⟩
      · exact ih mp

theorem mpoolSync_sameSize (fs : Filters) (mp : Mpool) (w : ℕ → WriteResult) (fsync : Bool) :
    mp.SameSize (mp.mpoolSync fs w fsync).1 := by
  have hloop := syncLoop_sameSize fs mp w mp.lqh
  rw [mpoolSync]
  generalize mp.syncLoop fs w mp.lqh = r at hloop
  obtain ⟨mp', done⟩ := r
  cases done with
  | true => exact hloop
  | false => exact hloop

/-- What `mpool_bkt` leaves has room for the bucket that it returns. -/
theorem Bounded.mpoolBkt (h : mp.Bounded k) (fs : Filters) (hq : mp.Queues) (malloc : Bool)
    (w : WriteResult) (hfew : mp.fresh + 1 < 2 ^ 32)
    (hpinned : mp.lqh.countP (fun a => (mp.bkts a).pinned) < k) :
    (mp.mpoolBkt fs malloc w).1.Bounded k ∧
      (mp.mpoolBkt fs malloc w).1.maxcache = mp.maxcache ∧
      ((mp.mpoolBkt fs malloc w).2.isSome = true →
        (mp.mpoolBkt fs malloc w).1.lqh.length + 1 ≤ max mp.maxcache k) := by
  have hnew : mp.lqh.length + 1 ≤ max mp.maxcache k →
      (mp.newBkt malloc).1.Bounded k ∧ (mp.newBkt malloc).1.maxcache = mp.maxcache ∧
      ((mp.newBkt malloc).2.isSome = true →
        (mp.newBkt malloc).1.lqh.length + 1 ≤ max mp.maxcache k) := by
    intro hroom
    rw [newBkt]
    split_ifs
    · refine ⟨⟨?_, h.bounded⟩, rfl, fun _ => hroom⟩
      show (mp.curcache + 1) % 2 ^ 32 = mp.fresh + 1
      rw [h.counted, Nat.mod_eq_of_lt hfew]
    · exact ⟨h, rfl, fun _ => hroom⟩
  rw [Mpool.mpoolBkt]
  split_ifs with hroom
  · refine hnew ?_
    have hle := hq.length_le
    rw [h.counted] at hroom
    omega
  · split
    · rename_i hfind
      refine hnew ?_
      have hall : mp.lqh.countP (fun a => (mp.bkts a).pinned) = mp.lqh.length := by
        rw [List.countP_eq_length]
        intro a ha
        simpa using List.find?_eq_none.mp hfind a ha
      omega
    · rename_i a hfind
      have ha := List.mem_of_find?_eq_some hfind
      have hlen := List.length_erase_of_mem ha
      have hpos := List.length_pos_of_mem ha
      have hbounded := h.bounded
      have hremove : ∀ mp' : Mpool, mp'.lqh = mp.lqh → mp'.curcache = mp'.fresh →
          mp'.maxcache = mp.maxcache → (mp'.remove a).Bounded k ∧
            (mp'.remove a).maxcache = mp.maxcache ∧
            (mp'.remove a).lqh.length + 1 ≤ max mp.maxcache k := by
        intro mp' hlqh hcount hmax
        have hlen' : (mp'.remove a).lqh.length = mp.lqh.length - 1 := by
          rw [← hlen, ← hlqh]
          rfl
        refine ⟨⟨hcount, ?_⟩, hmax, by omega⟩
        rw [hlen', show (mp'.remove a).maxcache = mp.maxcache from hmax]
        omega
      split_ifs
      · have hsame := mpoolWrite_sameSize fs mp a w
        generalize mp.mpoolWrite fs a w = r at hsame
        obtain ⟨mp', done⟩ := r
        obtain ⟨hlqh, hcur, hfresh, hmax⟩ := hsame
        have hcount : mp'.curcache = mp'.fresh := hcur.trans (h.counted.trans hfresh.symm)
        cases done with
        | true =>
            obtain ⟨hb, hm, hl⟩ := hremove mp' hlqh hcount hmax
            exact ⟨hb, hm, fun _ => hl⟩
        | false =>
            refine ⟨⟨hcount, ?_⟩, hmax, by simp⟩
            show mp'.lqh.length ≤ max mp'.maxcache k
            rw [show mp'.lqh = mp.lqh from hlqh, show mp'.maxcache = mp.maxcache from hmax]
            exact hbounded
      · obtain ⟨hb, hm, hl⟩ := hremove mp rfl h.counted rfl
        exact ⟨hb, hm, fun _ => hl⟩

theorem length_insert (mp : Mpool) (a : ℕ) : (mp.insert a).lqh.length = mp.lqh.length + 1 := by
  rw [insert, List.length_append]
  rfl

theorem Bounded.mpoolGet (h : mp.Bounded k) (hq : mp.Queues) (pgno : ℕ) (malloc : Bool)
    (w : WriteResult) (r : ReadResult) (hfew : mp.fresh + 1 < 2 ^ 32)
    (hpinned : mp.lqh.countP (fun a => (mp.bkts a).pinned) < k) :
    (mp.mpoolGet fs pgno malloc w r).1.Bounded k ∧
      (mp.mpoolGet fs pgno malloc w r).1.maxcache = mp.maxcache := by
  rw [Mpool.mpoolGet]
  split_ifs
  · exact ⟨h, rfl⟩
  · split
    · rename_i a hlook
      have ha := (hq.look_some hlook).1
      refine ⟨⟨h.counted, ?_⟩, rfl⟩
      show ((mp.remove a).insert a).lqh.length ≤ max mp.maxcache k
      have hlen : (mp.remove a).lqh.length = mp.lqh.length - 1 := List.length_erase_of_mem ha
      have hpos := List.length_pos_of_mem ha
      have hbounded := h.bounded
      rw [length_insert, hlen]
      omega
    · have hbkt := h.mpoolBkt fs hq malloc w hfew hpinned
      generalize mp.mpoolBkt fs malloc w = p at hbkt
      obtain ⟨mp₁, o⟩ := p
      obtain ⟨hb, hmax, hroom⟩ := hbkt
      cases o with
      | none => exact ⟨hb, hmax⟩
      | some a =>
          dsimp only
          generalize mp₁.readPage (mp₁.bkts a).page pgno r = q
          obtain ⟨page, whole⟩ := q
          cases whole with
          | false => exact ⟨⟨hb.counted, hb.bounded⟩, hmax⟩
          | true =>
              refine ⟨⟨hb.counted, ?_⟩, hmax⟩
              rw [length_insert]
              show mp₁.lqh.length + 1 ≤ max mp₁.maxcache k
              rw [show mp₁.maxcache = mp.maxcache from hmax]
              exact hroom rfl

theorem Bounded.mpoolNew (h : mp.Bounded k) (hq : mp.Queues) (malloc : Bool) (w : WriteResult)
    (hfew : mp.fresh + 1 < 2 ^ 32) (hpinned : mp.lqh.countP (fun a => (mp.bkts a).pinned) < k)
    {r : Mpool × Option ℕ} (hr : mp.mpoolNew fs malloc w = some r) :
    r.1.Bounded k ∧ r.1.maxcache = mp.maxcache := by
  rw [Mpool.mpoolNew] at hr
  split_ifs at hr
  have hbkt := h.mpoolBkt fs hq malloc w hfew hpinned
  generalize mp.mpoolBkt fs malloc w = p at hbkt hr
  obtain ⟨mp₁, o⟩ := p
  obtain ⟨hb, hmax, hroom⟩ := hbkt
  cases o with
  | none =>
      obtain rfl := Option.some.inj hr
      exact ⟨hb, hmax⟩
  | some a =>
      obtain rfl := Option.some.inj hr
      refine ⟨⟨hb.counted, ?_⟩, hmax⟩
      rw [length_insert]
      show mp₁.lqh.length + 1 ≤ max mp₁.maxcache k
      rw [show mp₁.maxcache = mp.maxcache from hmax]
      exact hroom rfl

end Mpool

/-- One call leaves the pool in its bounds. -/
theorem Session.bounded_step {s s' : Session} {k : ℕ} (hq : s.pool.Queues)
    (h : s.pool.Bounded k) {c : Call} (hroom : s.Room k c) (hstep : s.step fs c = some s') :
    s'.pool.Bounded k ∧ s'.pool.maxcache = s.pool.maxcache := by
  cases c with
  | new malloc w =>
      obtain ⟨r, hr, rfl⟩ := Option.map_eq_some_iff.mp hstep
      exact h.mpoolNew hq malloc w hroom.1 hroom.2 hr
  | get pgno malloc w r =>
      obtain rfl := Option.some.inj hstep
      exact h.mpoolGet hq pgno malloc w r hroom.1 hroom.2
  | store a page =>
      obtain rfl := Option.some.inj hstep
      exact ⟨⟨h.counted, h.bounded⟩, rfl⟩
  | put a dirty =>
      obtain rfl := Option.some.inj hstep
      exact ⟨⟨h.counted, h.bounded⟩, rfl⟩
  | sync w fsync =>
      obtain rfl := Option.some.inj hstep
      obtain ⟨hlqh, hcur, hfresh, hmax⟩ := Mpool.mpoolSync_sameSize fs s.pool w fsync
      refine ⟨⟨hcur.trans (h.counted.trans hfresh.symm), ?_⟩, hmax⟩
      rw [hlqh, hmax]
      exact h.bounded

/-- **The pool stays small.**  For a careful user: when fewer than `k` buckets are pinned whenever
a page is asked for, there are never more buckets in use than `maxcache`, or than `k` if that is
more. -/
theorem cache_bounded (hmem : ∀ a, (mem a).page.length = pagesize) (hpos : 0 < pagesize) {k : ℕ}
    (h : Reach (Session.step fs) (fun s c => s.Careful fs c ∧ s.Room k c)
      (start fs file pagesize maxcache mem) s) :
    s.pool.lqh.length ≤ max maxcache k := by
  have hinv := h.invariant (fun s => s.pool.Sound fs s.touched s.known ∧ s.pool.Bounded k ∧
    s.pool.maxcache = maxcache) ⟨Mpool.mpoolOpen_sound hmem hpos, ⟨rfl, Nat.zero_le _⟩, rfl⟩ ?_
  · rw [← hinv.2.2]
    exact hinv.2.1.bounded
  · rintro s c s' ⟨hs, hb, hmax⟩ ⟨hcareful, hroom⟩ hstep
    obtain ⟨hb', hmax'⟩ := Session.bounded_step hs.queues hb hroom hstep
    exact ⟨sound_step hs hcareful hstep, hb', hmax'.trans hmax⟩

instance (k : ℕ) (s : Session) : (c : Call) → Decidable (s.Room k c)
  | .new _ _ | .get _ _ _ _ => inferInstanceAs (Decidable (_ < _ ∧ _ < k))
  | .store _ _ | .put _ _ | .sync _ _ => inferInstanceAs (Decidable True)

/-- A pool that may have one bucket, of which two are pinned. -/
theorem cache_bounded_pinned :
    ∃ s, Reach (Session.step noFilters) (fun s c => s.Careful noFilters c ∧ s.Room 2 c)
        (start noFilters [1, 1, 2, 2, 3, 3] 2 1 blankMem) s ∧
      s.pool.lqh = [0, 1] ∧ s.pool.lqh.length ≤ max 1 2 := by
  have hrun : (run (Session.step noFilters) (fun s c => s.Careful noFilters c ∧ s.Room 2 c)
      (start noFilters [1, 1, 2, 2, 3, 3] 2 1 blankMem)
      [.get 0 true (.wrote 2) (.got 2), .get 1 true (.wrote 2) (.got 2)]).map
        (fun s => s.pool.lqh) = some [0, 1] := by
    decide
  obtain ⟨s, hs, hlqh⟩ := Option.map_eq_some_iff.mp hrun
  have hreach := Reach.refl.run _ hs
  exact ⟨s, hreach, hlqh, cache_bounded (fun _ => rfl) (by decide) hreach⟩

end Zevent.Mdb

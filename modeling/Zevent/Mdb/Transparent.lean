/-
# What the page pool is for (`common/mdb/mpool.c`)

* `get_returns_stored`: whatever is evicted and whichever calls of the system fail, a page that
  is got is the page that was last stored.
* `held_page_stays`: until it is put back, a page stays where it is.
* `sync_writes_stored`: after `mpool_sync` the file has every page.

`mpool_write` runs the filter for pages that go out on the page in its bucket.  The first two
therefore ask, for a pool with such a filter, that every write that evicts a page succeeds and
that `mpool_sync` finds nothing to write (`Careful`); for a pool without one they ask neither.
-/
import Mathlib.Tactic
import Zevent.Mdb.PoolCalls

namespace Zevent.Mdb

open Interleaving PagedFile

variable {fs : Filters}

/-! ## Runs -/

namespace Session

variable {s s' : Session} {file : List UInt8} {pagesize maxcache : ℕ} {mem : ℕ → Bkt} {a : ℕ}

/-- One careful call keeps the pool sound. -/
theorem sound_step (h : s.pool.Sound fs s.touched s.known) {c : Call} (hcareful : s.Careful fs c)
    (hstep : s.step fs c = some s') : s'.pool.Sound fs s'.touched s'.known := by
  cases c with
  | new malloc w =>
      obtain ⟨r, hr, rfl⟩ := Option.map_eq_some_iff.mp hstep
      exact (h.mpoolNew hcareful hr).1
  | get pgno malloc w r =>
      obtain rfl := Option.some.inj hstep
      exact (h.mpoolGet pgno malloc r hcareful).1
  | store a page =>
      obtain rfl := Option.some.inj hstep
      exact h.store hcareful.1.1 hcareful.1.2 hcareful.2
  | put a dirty =>
      obtain rfl := Option.some.inj hstep
      exact h.mpoolPut hcareful.1.1 hcareful.2
  | sync w fsync =>
      obtain rfl := Option.some.inj hstep
      exact (h.mpoolSync w fsync hcareful).1

/-- **Run lemma.** -/
theorem sound_of_reach (hmem : ∀ a, (mem a).page.length = pagesize) (hpos : 0 < pagesize)
    (h : Reach (step fs) (Careful fs) (start fs file pagesize maxcache mem) s) :
    s.pool.Sound fs s.touched s.known :=
  h.invariant (fun s => s.pool.Sound fs s.touched s.known) (Mpool.mpoolOpen_sound hmem hpos)
    fun _ _ _ hs hcareful hstep => sound_step hs hcareful hstep

/-- The call neither writes into the page of a bucket nor puts it back. -/
def Leaves (a : ℕ) : Call → Prop
  | .store b _ => b ≠ a
  | .put b _ => b ≠ a
  | _ => True

/-- A page that the user has is left alone by what others do. -/
theorem held_step (h : s.pool.Sound fs s.touched s.known) {c : Call} (hcareful : s.Careful fs c)
    (hleaves : Leaves a c) (ha : s.Held a) (hstep : s.step fs c = some s') :
    s'.Held a ∧ (s'.pool.bkts a).page = (s.pool.bkts a).page ∧
      (s'.pool.bkts a).pgno = (s.pool.bkts a).pgno := by
  have hkept : ∀ mp : Mpool, s.pool.KeepsPinned mp → (a ∈ mp.lqh ∧ (mp.bkts a).pinned = true) ∧
      (mp.bkts a).page = (s.pool.bkts a).page ∧ (mp.bkts a).pgno = (s.pool.bkts a).pgno := by
    intro mp hmp
    obtain ⟨hmem, hsame⟩ := hmp a ha.1 ha.2
    rw [hsame]
    exact ⟨⟨hmem, ha.2⟩, rfl, rfl⟩
  cases c with
  | new malloc w =>
      obtain ⟨r, hr, rfl⟩ := Option.map_eq_some_iff.mp hstep
      exact hkept _ (h.mpoolNew hcareful hr).2
  | get pgno malloc w r =>
      obtain rfl := Option.some.inj hstep
      exact hkept _ (h.mpoolGet pgno malloc r hcareful).2.1
  | store b page =>
      obtain rfl := Option.some.inj hstep
      have hsame : (s.pool.setBkt b { s.pool.bkts b with page := page }).bkts a = s.pool.bkts a :=
        Mpool.bkts_setBkt_of_ne (Ne.symm hleaves) ..
      refine ⟨⟨ha.1, ?_⟩, ?_, ?_⟩
      · exact hsame ▸ ha.2
      · exact congrArg Bkt.page hsame
      · exact congrArg Bkt.pgno hsame
  | put b dirty =>
      obtain rfl := Option.some.inj hstep
      have hsame : (s.pool.mpoolPut b dirty).bkts a = s.pool.bkts a :=
        Mpool.bkts_setBkt_of_ne (Ne.symm hleaves) ..
      refine ⟨⟨ha.1, ?_⟩, ?_, ?_⟩
      · exact hsame ▸ ha.2
      · exact congrArg Bkt.page hsame
      · exact congrArg Bkt.pgno hsame
  | sync w fsync =>
      obtain rfl := Option.some.inj hstep
      obtain ⟨-, hlqh, hbkts⟩ := h.mpoolSync w fsync hcareful
      obtain ⟨hpage, hpgno, hpinned⟩ := hbkts a
      exact ⟨⟨hlqh.symm ▸ ha.1, hpinned.trans ha.2⟩, hpage, hpgno⟩

end Session

open Session

variable {s : Session} {file : List UInt8} {pagesize maxcache : ℕ} {mem : ℕ → Bkt}

/-- No filters. -/
def noFilters : Filters where
  pgin := none
  pgout := none
  length_pgin := by simp
  length_pgout := by simp
  pgin_pgout _ _ := rfl

/-- Memory with pages of two bytes. -/
def blankMem : ℕ → Bkt := fun _ => ⟨[0, 0], 0, false, false⟩

/-- **The pool is transparent.**  After any calls of a careful user, with any evictions and, when
no filter is run on pages that go out, any failures of the system (with such a filter the writes
of evicted pages succeed, and `mpool_sync` has nothing to write): when `mpool_get` returns a page
that is known, because it was in the file at first or because somebody stored it, the page is
pinned and is what was stored last; and it does return one when there is memory and the system
reads and writes whole pages. -/
theorem get_returns_stored (hmem : ∀ a, (mem a).page.length = pagesize) (hpos : 0 < pagesize)
    (h : Reach (Session.step fs) (Careful fs) (start fs file pagesize maxcache mem) s)
    {pgno : ℕ} {page : List UInt8} (hknown : s.known pgno = some page) {malloc : Bool}
    {w : WriteResult} {r : ReadResult} (hcareful : s.Careful fs (.get pgno malloc w r)) :
    (∀ mp a, s.pool.mpoolGet fs pgno malloc w r = (mp, some a) →
      a ∈ mp.lqh ∧ (mp.bkts a).pinned = true ∧ (mp.bkts a).pgno = pgno ∧
        (mp.bkts a).page = page) ∧
    (malloc = true → w = .wrote s.pool.pagesize → r = .got s.pool.pagesize →
      ∃ mp a, s.pool.mpoolGet fs pgno malloc w r = (mp, some a)) := by
  have hs := sound_of_reach hmem hpos h
  obtain ⟨hsound, -, hfound⟩ := hs.mpoolGet pgno malloc r hcareful
  constructor
  · intro mp a hget
    rw [hget] at hsound hfound
    obtain ⟨ha, hpgno, hpinned⟩ := hfound a rfl
    refine ⟨ha, hpinned, hpgno, hsound.cached a ha page ?_⟩
    rw [hpgno]
    exact hknown
  · rintro rfl rfl rfl
    obtain ⟨a, ha⟩ := Option.isSome_iff_exists.mp (hs.mpoolGet_isSome hknown)
    exact ⟨_, a, Prod.ext rfl ha⟩

/-- A pool of one bucket: page 0 is changed, page 1 takes its bucket, and page 0 is got again. -/
theorem get_returns_stored_evicted :
    ∃ s mp a, Reach (Session.step noFilters) (Careful noFilters)
        (start noFilters [1, 1, 2, 2, 3, 3] 2 1 blankMem) s ∧
      s.pool.mpoolGet noFilters 0 true (.wrote 2) (.got 2) = (mp, some a) ∧
      (mp.bkts a).page = [7, 8] := by
  have hrun : (run (Session.step noFilters) (Careful noFilters)
      (start noFilters [1, 1, 2, 2, 3, 3] 2 1 blankMem)
      [.get 0 true (.wrote 2) (.got 2), .store 0 [7, 8], .put 0 true,
        .get 1 true (.wrote 2) (.got 2), .put 0 false]).map
        (fun s => (s.known 0, s.pool.pagesize, s.pool.lqh.map fun a => (s.pool.bkts a).pgno))
      = some (some [7, 8], 2, [1]) := by
    decide
  obtain ⟨s, hs, hobs⟩ := Option.map_eq_some_iff.mp hrun
  simp only [Prod.mk.injEq] at hobs
  obtain ⟨hknown, hsize, -⟩ := hobs
  have hreach := Reach.refl.run _ hs
  have hcareful : s.Careful noFilters (.get 0 true (.wrote 2) (.got 2)) := .inl rfl
  obtain ⟨hpage, hsome⟩ :=
    get_returns_stored (fun _ => rfl) (by decide) hreach hknown hcareful
  obtain ⟨mp, a, hget⟩ := hsome rfl (by rw [hsize]) (by rw [hsize])
  exact ⟨s, mp, a, hreach, hget, (hpage mp a hget).2.2.2⟩

/-- **A page that is held stays.**  From `mpool_get` or `mpool_new` on until the `mpool_put`,
whatever other careful calls there are, the bucket keeps its page, its number and its place in the
pool; the content changes only when somebody stores into it.  With a filter for pages that go out
the other calls are no `mpool_sync` that writes, which would convert the held page in place. -/
theorem held_page_stays (hmem : ∀ a, (mem a).page.length = pagesize) (hpos : 0 < pagesize)
    (h : Reach (Session.step fs) (Careful fs) (start fs file pagesize maxcache mem) s) {a : ℕ}
    (ha : s.Held a) {s' : Session}
    (h' : Reach (Session.step fs) (fun s c => s.Careful fs c ∧ Leaves a c) s s') :
    s'.Held a ∧ (s'.pool.bkts a).page = (s.pool.bkts a).page ∧
      (s'.pool.bkts a).pgno = (s.pool.bkts a).pgno := by
  have hs := sound_of_reach hmem hpos h
  refine (h'.invariant (fun s' => s'.pool.Sound fs s'.touched s'.known ∧ s'.Held a ∧
    (s'.pool.bkts a).page = (s.pool.bkts a).page ∧
    (s'.pool.bkts a).pgno = (s.pool.bkts a).pgno) ⟨hs, ha, rfl, rfl⟩ ?_).2
  rintro s₁ c s₂ ⟨hs₁, ha₁, hpage, hpgno⟩ ⟨hcareful, hleaves⟩ hstep
  obtain ⟨ha₂, hpage₂, hpgno₂⟩ := held_step hs₁ hcareful hleaves ha₁ hstep
  exact ⟨sound_step hs₁ hcareful hstep, ha₂, hpage₂.trans hpage, hpgno₂.trans hpgno⟩

/-- Page 0 is held while page 1 is got, in a pool that may have one bucket. -/
theorem held_page_stays_full :
    ∃ s s', Reach (Session.step noFilters) (Careful noFilters)
        (start noFilters [1, 1, 2, 2, 3, 3] 2 1 blankMem) s ∧
      Reach (Session.step noFilters) (fun s c => s.Careful noFilters c ∧ Leaves 0 c) s s' ∧
      s'.Held 0 ∧ (s'.pool.bkts 0).page = (s.pool.bkts 0).page := by
  have hrun : (run (Session.step noFilters) (Careful noFilters)
      (start noFilters [1, 1, 2, 2, 3, 3] 2 1 blankMem)
      [.get 0 true (.wrote 2) (.got 2)]).map (fun s => decide (s.Held 0)) = some true := by
    decide
  obtain ⟨s, hs, hheld⟩ := Option.map_eq_some_iff.mp hrun
  have hreach := Reach.refl.run _ hs
  have hstep : Session.step noFilters s (.get 1 true (.wrote 2) (.got 2)) = some _ := rfl
  have hcareful : s.Careful noFilters (.get 1 true (.wrote 2) (.got 2)) := .inl rfl
  have hnext : Reach (Session.step noFilters)
      (fun s c => s.Careful noFilters c ∧ Leaves 0 c) s _ :=
    Reach.refl.tail ⟨hcareful, trivial⟩ hstep
  obtain ⟨hheld', hpage, -⟩ :=
    held_page_stays (fun _ => rfl) (by decide) hreach (of_decide_eq_true hheld) hnext
  exact ⟨s, _, hreach, hnext, hheld', hpage⟩

/-- **`mpool_sync` puts everything into the file.**  After any calls of a careful user, and
whether there is a filter for pages that go out or not: when it succeeds, the file has every known
page as the filter makes it, but for the pages that the user has changed and not yet put back.
With such a filter the pages in the pool are then as the filter left them, so that only the file
is what it should be. -/
theorem sync_writes_stored (hmem : ∀ a, (mem a).page.length = pagesize) (hpos : 0 < pagesize)
    (h : Reach (Session.step fs) (Careful fs) (start fs file pagesize maxcache mem) s)
    {w : ℕ → WriteResult} {fsync : Bool} {mp : Mpool}
    (hsync : s.pool.mpoolSync fs w fsync = (mp, true)) {n : ℕ} {page : List UInt8}
    (hknown : s.known n = some page)
    (hput : ∀ a ∈ s.pool.lqh, (s.pool.bkts a).pgno = n → s.touched a = false) :
    ∃ y, pageAt mp.pagesize mp.file n = some y ∧ fs.inward n y = page := by
  have hs := sound_of_reach hmem hpos h
  rw [Mpool.mpoolSync] at hsync
  have hloop := @Mpool.syncLoop_stored fs s.pool w s.pool.lqh hs.queues.nodup
    hs.queues.distinct hs.sized hs.positive
  generalize s.pool.syncLoop fs w s.pool.lqh = r at hsync hloop
  obtain ⟨mp₁, _ | _⟩ := r
  · exact absurd (Prod.ext_iff.mp hsync).2 Bool.false_ne_true
  · obtain rfl : mp₁ = mp := (Prod.ext_iff.mp hsync).1
    obtain ⟨hpassed, hkept⟩ := hloop rfl
    by_cases hdirty : ∃ a ∈ s.pool.lqh, (s.pool.bkts a).pgno = n ∧ (s.pool.bkts a).dirty = true
    · obtain ⟨a, ha, rfl, hd⟩ := hdirty
      have hstored := hpassed a ha hd
      rw [hs.cached a ha page hknown] at hstored
      exact hstored
    · have hclean : ∀ a ∈ s.pool.lqh, (s.pool.bkts a).pgno = n →
          (s.pool.bkts a).dirty = false := by
        intro a ha hn
        rw [Bool.eq_false_iff]
        exact fun hd => hdirty ⟨a, ha, hn, hd⟩
      refine hkept n page hclean ?_
      by_cases hthere : ∃ a ∈ s.pool.lqh, (s.pool.bkts a).pgno = n
      · obtain ⟨a, ha, rfl⟩ := hthere
        exact hs.clean a ha (hclean a ha rfl) (hput a ha rfl) page hknown
      · exact hs.absent n page hknown fun a ha heq => hthere ⟨a, ha, heq⟩

/-- Pages are complemented on their way out and on their way in. -/
def complementFilters : Filters where
  pgin := some fun _ page => page.map fun b => ~~~b
  pgout := some fun _ page => page.map fun b => ~~~b
  length_pgin := by simp
  length_pgout := by simp
  pgin_pgout := by simp [Function.comp_def]

/-- With a filter: page 0 is changed, put back and synced. -/
theorem sync_writes_stored_filtered :
    ∃ s mp, Reach (Session.step complementFilters) (Careful complementFilters)
        (start complementFilters [1, 1, 2, 2, 3, 3] 2 1 blankMem) s ∧
      s.pool.mpoolSync complementFilters (fun _ => .wrote 2) true = (mp, true) ∧
      ∃ y, pageAt mp.pagesize mp.file 0 = some y ∧ complementFilters.inward 0 y = [7, 8] := by
  have hrun : (run (Session.step complementFilters) (Careful complementFilters)
      (start complementFilters [1, 1, 2, 2, 3, 3] 2 1 blankMem)
      [.get 0 true (.wrote 2) (.got 2), .store 0 [7, 8], .put 0 true]).map
        (fun s => (s.known 0, (s.pool.mpoolSync complementFilters (fun _ => .wrote 2) true).2,
          decide (∀ a ∈ s.pool.lqh, s.touched a = false)))
      = some (some [7, 8], true, true) := by
    decide
  obtain ⟨s, hs, hobs⟩ := Option.map_eq_some_iff.mp hrun
  simp only [Prod.mk.injEq] at hobs
  obtain ⟨hknown, hsync, hput⟩ := hobs
  have hreach := Reach.refl.run _ hs
  have hpair : s.pool.mpoolSync complementFilters (fun _ => .wrote 2) true = (_, true) :=
    Prod.ext rfl hsync
  exact ⟨s, _, hreach, hpair, sync_writes_stored (fun _ => rfl) (by decide) hreach hpair hknown
    fun a ha _ => of_decide_eq_true hput a ha⟩

end Zevent.Mdb

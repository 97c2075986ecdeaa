/-
# The contents of the page pool (`common/mdb/mpool.c`)

`Sound` says where a page is that is known: in its bucket, and in the file as well unless the
bucket is dirty or the user is changing it.  The moves of a bucket keep it: a page is written
(`Sound.flush`), a bucket leaves the queues (`Sound.evict`), a bucket is taken for a page
(`Sound.attach`).
-/
import Mathlib.Tactic
import Zevent.Mdb.Mpool

namespace Zevent.Mdb

open Interleaving PagedFile

/-! ## Filters -/

namespace Filters

variable (fs : Filters)

theorem inward_outward (n : ℕ) (page : List UInt8) : fs.inward n (fs.outward n page) = page :=
  fs.pgin_pgout n page

theorem length_outward (n : ℕ) (page : List UInt8) : (fs.outward n page).length = page.length := by
  rw [outward]
  cases hpgout : fs.pgout with
  | none => rfl
  | some f => exact fs.length_pgout f hpgout n page

theorem length_inward (n : ℕ) (page : List UInt8) : (fs.inward n page).length = page.length := by
  rw [inward]
  cases hpgin : fs.pgin with
  | none => rfl
  | some f => exact fs.length_pgin f hpgin n page

theorem outward_of_none (h : fs.pgout.isNone = true) (n : ℕ) (page : List UInt8) :
    fs.outward n page = page := by
  rw [outward, Option.isNone_iff_eq_none.mp h]
  rfl

end Filters

variable {fs : Filters}

/-- The file has the page. -/
def Mpool.Stored (fs : Filters) (mp : Mpool) (n : ℕ) (page : List UInt8) : Prop :=
  ∃ y, pageAt mp.pagesize mp.file n = some y ∧ fs.inward n y = page

/-- What is known of a page is in its bucket, and in the file as well unless the bucket is dirty
or was touched. -/
structure Mpool.Sound (fs : Filters) (touched : ℕ → Bool) (known : ℕ → Option (List UInt8))
    (mp : Mpool) : Prop where
  queues : mp.Queues
  positive : 0 < mp.pagesize
  sized : ∀ a, (mp.bkts a).page.length = mp.pagesize
  held : ∀ a, touched a = true → a ∈ mp.lqh ∧ (mp.bkts a).pinned = true
  known_lt : ∀ n page, known n = some page → n < mp.npages
  cached : ∀ a ∈ mp.lqh, ∀ page, known (mp.bkts a).pgno = some page → (mp.bkts a).page = page
  clean : ∀ a ∈ mp.lqh, (mp.bkts a).dirty = false → touched a = false →
    ∀ page, known (mp.bkts a).pgno = some page → mp.Stored fs (mp.bkts a).pgno page
  absent : ∀ n page, known n = some page → (∀ a ∈ mp.lqh, (mp.bkts a).pgno ≠ n) →
    mp.Stored fs n page

/-- The buckets that are pinned stay as they are. -/
def Mpool.KeepsPinned (mp mp' : Mpool) : Prop :=
  ∀ a ∈ mp.lqh, (mp.bkts a).pinned = true → a ∈ mp'.lqh ∧ mp'.bkts a = mp.bkts a

/-- What `mpool_write` changes. -/
structure Mpool.Writes (fs : Filters) (mp mp' : Mpool) (a : ℕ) : Prop where
  lqh : mp'.lqh = mp.lqh
  fresh : mp'.fresh = mp.fresh
  npages : mp'.npages = mp.npages
  pagesize : mp'.pagesize = mp.pagesize
  length : (mp'.bkts a).page.length = (mp.bkts a).page.length
  pgno : (mp'.bkts a).pgno = (mp.bkts a).pgno
  pinned : (mp'.bkts a).pinned = (mp.bkts a).pinned
  others : ∀ b, b ≠ a → mp'.bkts b = mp.bkts b
  rest : ∀ n page, n ≠ (mp.bkts a).pgno → mp.Stored fs n page → mp'.Stored fs n page

/-- **`mpool_write` writes one page.**  When it succeeds, the page is in the file and the bucket
is clean; when it fails, the bucket is as dirty as it was. -/
theorem Mpool.mpoolWrite_spec (fs : Filters) (mp : Mpool) (a : ℕ) (w : WriteResult)
    (hsized : (mp.bkts a).page.length = mp.pagesize) (hpos : 0 < mp.pagesize) :
    mp.Writes fs (mp.mpoolWrite fs a w).1 a ∧
      ((mp.mpoolWrite fs a w).1.bkts a).page
        = fs.outward (mp.bkts a).pgno (mp.bkts a).page ∧
      ((mp.mpoolWrite fs a w).2 = true ↔ w = .wrote mp.pagesize) ∧
      ((mp.mpoolWrite fs a w).2 = true → ((mp.mpoolWrite fs a w).1.bkts a).dirty = false ∧
        (mp.mpoolWrite fs a w).1.Stored fs (mp.bkts a).pgno (mp.bkts a).page) ∧
      ((mp.mpoolWrite fs a w).2 = false →
        ((mp.mpoolWrite fs a w).1.bkts a).dirty = (mp.bkts a).dirty) := by
  have hlen : (fs.outward (mp.bkts a).pgno (mp.bkts a).page).length = mp.pagesize := by
    rw [fs.length_outward, hsized]
  have hrest : ∀ nw n page, n ≠ (mp.bkts a).pgno → mp.Stored fs n page →
      ∃ y, pageAt mp.pagesize (writeAt mp.file (mp.pagesize * (mp.bkts a).pgno)
        ((fs.outward (mp.bkts a).pgno (mp.bkts a).page).take nw)) n = some y ∧
        fs.inward n y = page := by
    rintro nw n page hne ⟨y, hy, hin⟩
    refine ⟨y, pageAt_writeAt_of_ne hne ?_ hy, hin⟩
    rw [List.length_take, hlen]
    exact min_le_right _ _
  cases w with
  | seekFails =>
      refine ⟨⟨rfl, rfl, rfl, rfl, ?_, ?_, ?_, ?_, ?_⟩, ?_, ?_, ?_, ?_⟩
      · rw [mpoolWrite, bkts_setBkt_self, hlen, hsized]
      · rw [mpoolWrite, bkts_setBkt_self]
      · rw [mpoolWrite, bkts_setBkt_self]
      · intro b hb
        rw [mpoolWrite, bkts_setBkt_of_ne hb]
      · exact fun n page _ h => h
      · rw [mpoolWrite, bkts_setBkt_self]
      · simp [mpoolWrite]
      · simp [mpoolWrite]
      · intro _
        rw [mpoolWrite, bkts_setBkt_self]
  | wrote nw =>
      simp only [mpoolWrite]
      split_ifs with hnw
      · refine ⟨⟨rfl, rfl, rfl, rfl, ?_, ?_, ?_, ?_, hrest nw⟩, ?_, ?_, ?_, ?_⟩
        · rw [bkts_setBkt_self, hlen, hsized]
        · rw [bkts_setBkt_self]
        · rw [bkts_setBkt_self]
        · intro b hb
          rw [bkts_setBkt_of_ne hb]
        · rw [bkts_setBkt_self]
        · simp [hnw]
        · intro _
          refine ⟨by rw [bkts_setBkt_self], fs.outward (mp.bkts a).pgno (mp.bkts a).page, ?_,
            fs.inward_outward _ _⟩
          have hwhole : (fs.outward (mp.bkts a).pgno (mp.bkts a).page).take nw
              = fs.outward (mp.bkts a).pgno (mp.bkts a).page :=
            List.take_of_length_le (by rw [hlen, hnw])
          show pageAt mp.pagesize (writeAt mp.file (mp.pagesize * (mp.bkts a).pgno) _) _ = _
          rw [hwhole]
          exact pageAt_writeAt hlen hpos
        · simp
      · refine ⟨⟨rfl, rfl, rfl, rfl, ?_, ?_, ?_, ?_, hrest nw⟩, ?_, ?_, ?_, ?_⟩
        · rw [bkts_setBkt_self, hlen, hsized]
        · rw [bkts_setBkt_self]
        · rw [bkts_setBkt_self]
        · intro b hb
          rw [bkts_setBkt_of_ne hb]
        · rw [bkts_setBkt_self]
        · simp [hnw]
        · simp
        · intro _
          rw [bkts_setBkt_self]

namespace Mpool

variable {touched : ℕ → Bool} {known : ℕ → Option (List UInt8)} {mp mp' : Mpool} {a : ℕ}

/-- The buckets in use have the same pages as before, and the file is the same. -/
theorem Sound.congr (h : mp.Sound fs touched known) (hqueues : mp'.Queues)
    (hmem : ∀ b, b ∈ mp'.lqh ↔ b ∈ mp.lqh)
    (hbkts : ∀ b ∈ mp.lqh, (mp'.bkts b).page = (mp.bkts b).page ∧
      (mp'.bkts b).pgno = (mp.bkts b).pgno ∧ (mp'.bkts b).dirty = (mp.bkts b).dirty ∧
      ((mp.bkts b).pinned = true → (mp'.bkts b).pinned = true))
    (hsized : ∀ b, (mp'.bkts b).page.length = mp'.pagesize) (hnpages : mp.npages ≤ mp'.npages)
    (hpagesize : mp'.pagesize = mp.pagesize) (hfile : mp'.file = mp.file) :
    mp'.Sound fs touched known := by
  have hstored : ∀ n page, mp.Stored fs n page → mp'.Stored fs n page := by
    intro n page hn
    rw [Stored, hpagesize, hfile]
    exact hn
  refine ⟨hqueues, ?_, hsized, ?_, ?_, ?_, ?_, ?_⟩
  · rw [hpagesize]
    exact h.positive
  · intro b hb
    obtain ⟨hlqh, hpinned⟩ := h.held b hb
    exact ⟨(hmem b).mpr hlqh, (hbkts b hlqh).2.2.2 hpinned⟩
  · intro n page hn
    exact (h.known_lt n page hn).trans_le hnpages
  · intro b hb page hpage
    obtain ⟨hpg, hpgno, -⟩ := hbkts b ((hmem b).mp hb)
    rw [hpgno] at hpage
    rw [hpg]
    exact h.cached b ((hmem b).mp hb) page hpage
  · intro b hb hdirty htouched page hpage
    obtain ⟨-, hpgno, hd, -⟩ := hbkts b ((hmem b).mp hb)
    rw [hpgno] at hpage ⊢
    rw [hd] at hdirty
    exact hstored _ _ (h.clean b ((hmem b).mp hb) hdirty htouched page hpage)
  · intro n page hn hno
    refine hstored n page (h.absent n page hn ?_)
    intro b hb
    rw [← (hbkts b hb).2.1]
    exact hno b ((hmem b).mpr hb)

/-- A page that stays in the pool is written, without a filter. -/
theorem Sound.flush (h : mp.Sound fs touched known) (hplain : fs.pgout.isNone = true)
    (ha : a ∈ mp.lqh) (hdirty : (mp.bkts a).dirty = true) (w : WriteResult) :
    (mp.mpoolWrite fs a w).1.Sound fs touched known := by
  obtain ⟨hw, hout, -, hdone, hfailed⟩ :=
    mp.mpoolWrite_spec fs a w (h.sized a) h.positive
  have hqueues := h.queues.write fs a w
  generalize mp.mpoolWrite fs a w = r at hw hout hdone hfailed hqueues
  have hsame : ∀ b, (r.1.bkts b).page = (mp.bkts b).page ∧
      (r.1.bkts b).pgno = (mp.bkts b).pgno ∧ (r.1.bkts b).pinned = (mp.bkts b).pinned := by
    intro b
    by_cases hb : b = a
    · rw [hb, hout, fs.outward_of_none hplain]
      exact ⟨rfl, hw.pgno, hw.pinned⟩
    · rw [hw.others b hb]
      exact ⟨rfl, rfl, rfl⟩
  refine ⟨hqueues, ?_, ?_, ?_, ?_, ?_, ?_, ?_⟩
  · rw [hw.pagesize]
    exact h.positive
  · intro b
    rw [(hsame b).1, hw.pagesize]
    exact h.sized b
  · intro b hb
    rw [hw.lqh, (hsame b).2.2]
    exact h.held b hb
  · intro n page hn
    rw [hw.npages]
    exact h.known_lt n page hn
  · intro b hb page hpage
    rw [hw.lqh] at hb
    rw [(hsame b).2.1] at hpage
    rw [(hsame b).1]
    exact h.cached b hb page hpage
  · intro b hb hclean htouched page hpage
    rw [hw.lqh] at hb
    rw [(hsame b).2.1] at hpage ⊢
    by_cases hba : b = a
    · subst hba
      cases hflag : r.2 with
      | true =>
          rw [← h.cached b hb page hpage]
          exact (hdone hflag).2
      | false =>
          rw [hfailed hflag, hdirty] at hclean
          cases hclean
    · rw [hw.others b hba] at hclean
      refine hw.rest _ _ ?_ (h.clean b hb hclean htouched page hpage)
      intro heq
      exact hba (h.queues.distinct b hb a ha heq)
  · intro n page hn hno
    rw [hw.lqh] at hno
    refine hw.rest n page ?_ (h.absent n page hn ?_)
    · rintro rfl
      exact hno a ha (hsame a).2.1
    · intro b hb
      rw [← (hsame b).2.1]
      exact hno b hb

/-- A bucket whose page is in the file leaves the queues. -/
theorem Sound.evict (h : mp.Sound fs touched known) (ha : a ∈ mp.lqh)
    (hunpinned : (mp.bkts a).pinned = false) (hw : mp.Writes fs mp' a) (hqueues : mp'.Queues)
    (hstored : ∀ page, known (mp.bkts a).pgno = some page →
      mp'.Stored fs (mp.bkts a).pgno page) :
    (mp'.remove a).Sound fs touched known := by
  have hmem : ∀ b, b ∈ (mp'.remove a).lqh ↔ b ∈ mp.lqh ∧ b ≠ a := by
    intro b
    rw [hqueues.mem_remove, hw.lqh]
  have hbkts : ∀ b, b ≠ a → (mp'.remove a).bkts b = mp.bkts b := hw.others
  refine ⟨hqueues.remove a, ?_, ?_, ?_, ?_, ?_, ?_, ?_⟩
  · exact hw.pagesize ▸ h.positive
  · intro b
    show (mp'.bkts b).page.length = mp'.pagesize
    rw [hw.pagesize, ← h.sized b]
    by_cases hb : b = a
    · rw [hb]
      exact hw.length
    · rw [hw.others b hb]
  · intro b hb
    obtain ⟨hlqh, hpinned⟩ := h.held b hb
    have hba : b ≠ a := by
      rintro rfl
      rw [hunpinned] at hpinned
      cases hpinned
    rw [hmem, hbkts b hba]
    exact ⟨⟨hlqh, hba⟩, hpinned⟩
  · intro n page hn
    exact hw.npages ▸ h.known_lt n page hn
  · intro b hb page hpage
    obtain ⟨hlqh, hba⟩ := (hmem b).mp hb
    rw [hbkts b hba] at hpage ⊢
    exact h.cached b hlqh page hpage
  · intro b hb hdirty htouched page hpage
    obtain ⟨hlqh, hba⟩ := (hmem b).mp hb
    rw [hbkts b hba] at hdirty hpage ⊢
    refine hw.rest _ _ ?_ (h.clean b hlqh hdirty htouched page hpage)
    intro heq
    exact hba (h.queues.distinct b hlqh a ha heq)
  · intro n page hn hno
    by_cases hna : n = (mp.bkts a).pgno
    · rw [hna] at hn ⊢
      exact hstored page hn
    · refine hw.rest n page hna (h.absent n page hn ?_)
      intro b hb
      by_cases hba : b = a
      · rw [hba]
        exact Ne.symm hna
      · rw [← hbkts b hba]
        exact hno b ((hmem b).mpr ⟨hb, hba⟩)

/-- A bucket is taken for a page. -/
theorem Sound.attach (h : mp.Sound fs touched known) (ha : a ∉ mp.lqh) (hfresh : a < mp.fresh)
    {bp : Bkt} (hlen : bp.page.length = mp.pagesize)
    (hnew : ∀ b ∈ mp.lqh, (mp.bkts b).pgno ≠ bp.pgno) (hpgno : bp.pgno < mp.npages)
    (hpage : ∀ page, known bp.pgno = some page →
      bp.page = page ∧ mp.Stored fs bp.pgno page) :
    ((mp.setBkt a bp).insert a).Sound fs touched known := by
  have hbkts : ∀ b ∈ mp.lqh, (mp.setBkt a bp).bkts b = mp.bkts b := by
    intro b hb
    apply bkts_setBkt_of_ne
    rintro rfl
    exact ha hb
  have hmem : ∀ b, b ∈ ((mp.setBkt a bp).insert a).lqh ↔ b ∈ mp.lqh ∨ b = a :=
    (mp.setBkt a bp).mem_insert a
  have hself : ((mp.setBkt a bp).insert a).bkts a = bp := bkts_setBkt_self ..
  have hrest : ∀ b ∈ mp.lqh, ((mp.setBkt a bp).insert a).bkts b = mp.bkts b := hbkts
  refine ⟨?_, h.positive, ?_, ?_, h.known_lt, ?_, ?_, ?_⟩
  · refine (h.queues.setBkt_absent ha bp).insert ha hfresh ?_ ?_
    · intro b hb
      rw [bkts_setBkt_self, hbkts b hb]
      exact hnew b hb
    · rw [bkts_setBkt_self]
      exact hpgno
  · intro b
    show ((mp.setBkt a bp).bkts b).page.length = mp.pagesize
    by_cases hb : b = a
    · rw [hb, bkts_setBkt_self, hlen]
    · rw [bkts_setBkt_of_ne hb, h.sized b]
  · intro b hb
    obtain ⟨hlqh, hpinned⟩ := h.held b hb
    rw [hmem, hrest b hlqh]
    exact ⟨.inl hlqh, hpinned⟩
  · intro b hb page hknown
    rcases (hmem b).mp hb with hb | rfl
    · rw [hrest b hb] at hknown ⊢
      exact h.cached b hb page hknown
    · rw [hself] at hknown ⊢
      exact (hpage page hknown).1
  · intro b hb hdirty htouched page hknown
    rcases (hmem b).mp hb with hb | rfl
    · rw [hrest b hb] at hdirty hknown ⊢
      exact h.clean b hb hdirty htouched page hknown
    · rw [hself] at hknown ⊢
      exact (hpage page hknown).2
  · intro n page hn hno
    refine h.absent n page hn ?_
    intro b hb
    rw [← hrest b hb]
    exact hno b ((hmem b).mpr (.inl hb))

end Mpool

end Zevent.Mdb

/-
# The calls of the page pool (`common/mdb/mpool.c`)

What `mpool_bkt`, `mpool_get`, `mpool_new`, `mpool_put` and `mpool_sync` do to a sound pool: each
leaves it sound, whatever the system answers, and none moves a bucket that is pinned.
-/
import Mathlib.Tactic
import Zevent.Mdb.Contents

namespace Zevent.Mdb

open Interleaving PagedFile

variable {fs : Filters}

/-! ## The calls -/

namespace Mpool

variable {touched : ℕ → Bool} {known : ℕ → Option (List UInt8)} {mp mp' : Mpool} {a pgno : ℕ}
  {malloc : Bool} {w : WriteResult}

/-- What `mpool_bkt` does: the pool stays sound, the buckets left in the queues are the ones
that were there, the pinned ones are among them, and the bucket it returns is in no queue. -/
structure Takes (fs : Filters) (touched : ℕ → Bool) (known : ℕ → Option (List UInt8))
    (mp : Mpool) (r : Mpool × Option ℕ) : Prop where
  sound : r.1.Sound fs touched known
  npages : r.1.npages = mp.npages
  pagesize : r.1.pagesize = mp.pagesize
  subset : ∀ b ∈ r.1.lqh, b ∈ mp.lqh ∧ (r.1.bkts b).pgno = (mp.bkts b).pgno
  pinned : mp.KeepsPinned r.1
  taken : ∀ a, r.2 = some a → a ∉ r.1.lqh ∧ a < r.1.fresh

theorem Sound.newBkt (h : mp.Sound fs touched known) (malloc : Bool) :
    Takes fs touched known mp (mp.newBkt malloc) := by
  rw [Mpool.newBkt]
  split_ifs
  · refine ⟨?_, rfl, rfl, fun b hb => ⟨hb, rfl⟩, fun b hb _ => ⟨hb, rfl⟩, ?_⟩
    · exact h.congr (h.queues.congr rfl rfl (fun _ _ => rfl) (Nat.le_succ _) le_rfl)
        (fun _ => Iff.rfl) (fun _ _ => ⟨rfl, rfl, rfl, id⟩) h.sized le_rfl rfl rfl
    · rintro a ⟨⟩
      exact ⟨fun ha => (h.queues.allocated _ ha).false, Nat.lt_succ_self _⟩
  · exact ⟨h, rfl, rfl, fun b hb => ⟨hb, rfl⟩, fun b hb _ => ⟨hb, rfl⟩, by simp⟩

/-- The bucket that is evicted. -/
theorem Sound.takes_evicted (h : mp.Sound fs touched known) (ha : a ∈ mp.lqh)
    (hunpinned : (mp.bkts a).pinned = false) (hw : mp.Writes fs mp' a) (hqueues : mp'.Queues)
    (hstored : ∀ page, known (mp.bkts a).pgno = some page →
      mp'.Stored fs (mp.bkts a).pgno page) :
    Takes fs touched known mp (mp'.remove a, some a) := by
  have hmem : ∀ b, b ∈ (mp'.remove a).lqh ↔ b ∈ mp.lqh ∧ b ≠ a := by
    intro b
    rw [hqueues.mem_remove, hw.lqh]
  refine ⟨h.evict ha hunpinned hw hqueues hstored, hw.npages, hw.pagesize, ?_, ?_, ?_⟩
  · intro b hb
    obtain ⟨hlqh, hba⟩ := (hmem b).mp hb
    exact ⟨hlqh, congrArg Bkt.pgno (hw.others b hba)⟩
  · intro b hb hpinned
    have hba : b ≠ a := by
      rintro rfl
      rw [hunpinned] at hpinned
      cases hpinned
    exact ⟨(hmem b).mpr ⟨hb, hba⟩, hw.others b hba⟩
  · rintro b ⟨⟩
    refine ⟨fun hb => ((hmem a).mp hb).2 rfl, ?_⟩
    show a < mp'.fresh
    rw [hw.fresh]
    exact h.queues.allocated a ha

/-- **`mpool_bkt`.**  It evicts a bucket only when its page is in the file. -/
theorem Sound.mpoolBkt (h : mp.Sound fs touched known) (malloc : Bool)
    (hcareful : fs.pgout.isNone = true ∨ w = .wrote mp.pagesize) :
    Takes fs touched known mp (mp.mpoolBkt fs malloc w) := by
  rw [Mpool.mpoolBkt]
  split_ifs with hroom
  · exact h.newBkt malloc
  · split
    · exact h.newBkt malloc
    · rename_i a hfind
      have ha := List.mem_of_find?_eq_some hfind
      have hunpinned := List.find?_some hfind
      rw [Bool.not_eq_true'] at hunpinned
      have huntouched : touched a = false := by
        rw [Bool.eq_false_iff]
        intro ht
        rw [(h.held a ht).2] at hunpinned
        cases hunpinned
      split_ifs with hdirty
      · obtain ⟨hw, -, hflag, hdone, -⟩ :=
          mp.mpoolWrite_spec fs a w (h.sized a) h.positive
        have hqueues := h.queues.write fs a w
        have hflush := fun hplain => h.flush hplain ha hdirty w
        have hsame := mp.mpoolWrite_spec fs a w (h.sized a) h.positive
        generalize mp.mpoolWrite fs a w = r at hw hflag hdone hqueues hflush
        obtain ⟨mp', done⟩ := r
        cases done with
        | true =>
            refine h.takes_evicted ha hunpinned hw hqueues ?_
            intro page hpage
            rw [← h.cached a ha page hpage]
            exact (hdone rfl).2
        | false =>
            -- the write fails, so there is no filter
            have hplain : fs.pgout.isNone = true := by
              rcases hcareful with hplain | hok
              · exact hplain
              · exact absurd (hflag.mpr hok) Bool.false_ne_true
            refine ⟨hflush hplain, hw.npages, hw.pagesize, ?_, ?_, by simp⟩
            · intro b hb
              rw [show b ∈ mp'.lqh ↔ b ∈ mp.lqh by rw [hw.lqh]] at hb
              refine ⟨hb, ?_⟩
              by_cases hba : b = a
              · rw [hba]
                exact hw.pgno
              · exact congrArg Bkt.pgno (hw.others b hba)
            · intro b hb hpinned
              have hba : b ≠ a := by
                rintro rfl
                rw [hunpinned] at hpinned
                cases hpinned
              exact ⟨hw.lqh.symm ▸ hb, hw.others b hba⟩
      · rw [Bool.not_eq_true] at hdirty
        have hself : mp.Writes fs mp a :=
          ⟨rfl, rfl, rfl, rfl, rfl, rfl, rfl, fun _ _ => rfl, fun _ _ _ hn => hn⟩
        exact h.takes_evicted ha hunpinned hself h.queues (h.clean a ha hdirty huntouched)

/-- It finds a bucket when there is memory and the write succeeds. -/
theorem Sound.mpoolBkt_isSome (h : mp.Sound fs touched known) :
    (mp.mpoolBkt fs true (.wrote mp.pagesize)).2.isSome = true := by
  rw [Mpool.mpoolBkt]
  split_ifs
  · rfl
  · split
    · rfl
    · rename_i a hfind
      split_ifs
      · obtain ⟨-, -, hflag, -⟩ := mp.mpoolWrite_spec fs a (.wrote mp.pagesize)
          (h.sized a) h.positive
        generalize mp.mpoolWrite fs a (.wrote mp.pagesize) = r at hflag
        obtain ⟨mp', done⟩ := r
        obtain rfl : done = true := hflag.mpr rfl
        rfl
      · rfl

/-- A bucket in use is moved to the front of its chain and to the end of the list. -/
theorem Sound.touch (h : mp.Sound fs touched known) (ha : a ∈ mp.lqh) :
    (((mp.remove a).insert a).setBkt a { mp.bkts a with pinned := true }).Sound fs touched
      known := by
  have hmem : ∀ b, b ∈ ((mp.remove a).insert a).lqh ↔ b ∈ mp.lqh := by
    intro b
    rw [mem_insert, h.queues.mem_remove]
    by_cases hb : b = a
    · simp [hb, ha]
    · simp [hb]
  have hqueues : ((mp.remove a).insert a).Queues := by
    refine (h.queues.remove a).insert ?_ (h.queues.allocated a ha) ?_ (h.queues.numbered a ha)
    · rw [h.queues.mem_remove]
      exact fun hself => hself.2 rfl
    · intro b hb heq
      obtain ⟨hlqh, hba⟩ := (h.queues.mem_remove a b).mp hb
      exact hba (h.queues.distinct b hlqh a ha heq)
  have hbkts : ∀ b, b ≠ a →
      (((mp.remove a).insert a).setBkt a { mp.bkts a with pinned := true }).bkts b
        = mp.bkts b :=
    fun b hb => bkts_setBkt_of_ne hb ..
  refine h.congr (hqueues.setBkt rfl) hmem ?_ ?_ le_rfl rfl rfl
  · intro b hb
    by_cases hba : b = a
    · rw [hba, bkts_setBkt_self]
      exact ⟨rfl, rfl, rfl, fun _ => rfl⟩
    · rw [hbkts b hba]
      exact ⟨rfl, rfl, rfl, id⟩
  · intro b
    by_cases hba : b = a
    · rw [hba, bkts_setBkt_self]
      exact h.sized a
    · rw [hbkts b hba]
      exact h.sized b

/-- What a whole `read` gives. -/
theorem readPage_spec (mp : Mpool) {page : List UInt8} (pgno : ℕ) (r : ReadResult)
    (hlen : page.length = mp.pagesize) (hpos : 0 < mp.pagesize) :
    (mp.readPage page pgno r).1.length = mp.pagesize ∧
      ((mp.readPage page pgno r).2 = true →
        pageAt mp.pagesize mp.file pgno = some (mp.readPage page pgno r).1) := by
  cases r with
  | seekFails => exact ⟨hlen, by simp [readPage]⟩
  | readFails => exact ⟨hlen, by simp [readPage]⟩
  | got nr =>
      simp only [readPage, beq_iff_eq]
      have hbytes : ((mp.file.drop (mp.pagesize * pgno)).take (min nr mp.pagesize)).length
          ≤ mp.pagesize := by
        rw [List.length_take]
        omega
      refine ⟨?_, fun hwhole => ?_⟩
      · rw [List.length_append, List.length_drop]
        omega
      · have hnr : min nr mp.pagesize = mp.pagesize := by
          rw [List.length_take] at hwhole
          omega
        have htail : page.drop ((mp.file.drop (mp.pagesize * pgno)).take
            (min nr mp.pagesize)).length = [] :=
          List.drop_of_length_le (by omega)
        rw [htail, List.append_nil, hnr, pageAt, if_pos]
        rw [hnr, List.length_take, List.length_drop] at hwhole
        omega

/-- A page that the file has is read. -/
theorem readPage_stored {page : List UInt8} (old : List UInt8)
    (h : pageAt mp.pagesize mp.file pgno = some page) :
    (mp.readPage old pgno (.got mp.pagesize)).2 = true := by
  rw [pageAt] at h
  split_ifs at h with hle
  simp only [readPage, beq_iff_eq, min_self, List.length_take, List.length_drop]
  omega

/-- **`mpool_get`** keeps the pool sound and the pinned buckets as they are; the bucket it
returns is that of the page. -/
theorem Sound.mpoolGet (h : mp.Sound fs touched known) (pgno : ℕ) (malloc : Bool)
    (r : ReadResult) (hcareful : fs.pgout.isNone = true ∨ w = .wrote mp.pagesize) :
    (mp.mpoolGet fs pgno malloc w r).1.Sound fs touched known ∧
      mp.KeepsPinned (mp.mpoolGet fs pgno malloc w r).1 ∧
      ∀ a, (mp.mpoolGet fs pgno malloc w r).2 = some a →
        a ∈ (mp.mpoolGet fs pgno malloc w r).1.lqh ∧
        ((mp.mpoolGet fs pgno malloc w r).1.bkts a).pgno = pgno ∧
        ((mp.mpoolGet fs pgno malloc w r).1.bkts a).pinned = true := by
  rw [Mpool.mpoolGet]
  split_ifs with hlt
  · exact ⟨h, fun b hb _ => ⟨hb, rfl⟩, by simp⟩
  · split
    · -- the page is in the pool
      rename_i a hlook
      obtain ⟨ha, hpgno⟩ := h.queues.look_some hlook
      have hmem : ∀ b, b ∈ ((mp.remove a).insert a).lqh ↔ b ∈ mp.lqh := by
        intro b
        rw [mem_insert, h.queues.mem_remove]
        by_cases hb : b = a
        · simp [hb, ha]
        · simp [hb]
      refine ⟨h.touch ha, ?_, ?_⟩
      · intro b hb hpinned
        refine ⟨(hmem b).mpr hb, ?_⟩
        by_cases hba : b = a
        · rw [hba] at hpinned ⊢
          rw [bkts_setBkt_self, ← hpinned]
        · exact bkts_setBkt_of_ne hba ..
      · rintro b ⟨⟩
        rw [bkts_setBkt_self]
        exact ⟨(hmem a).mpr ha, hpgno, rfl⟩
    · rename_i hlook
      have hnone := h.queues.look_none hlook
      have htakes := h.mpoolBkt malloc hcareful
      generalize mp.mpoolBkt fs malloc w = p at htakes
      obtain ⟨mp₁, o⟩ := p
      cases o with
      | none => exact ⟨htakes.sound, htakes.pinned, by simp⟩
      | some a =>
          obtain ⟨ha, hfresh⟩ := htakes.taken a rfl
          obtain ⟨hlen, hread⟩ :=
            mp₁.readPage_spec pgno r (htakes.sound.sized a) htakes.sound.positive
          have hkept : ∀ bp : Bkt, mp.KeepsPinned (mp₁.setBkt a bp) := by
            intro bp b hb hpinned
            obtain ⟨hb₁, hsame⟩ := htakes.pinned b hb hpinned
            refine ⟨hb₁, ?_⟩
            rw [bkts_setBkt_of_ne, hsame]
            rintro rfl
            exact ha hb₁
          dsimp only
          generalize mp₁.readPage (mp₁.bkts a).page pgno r = q at hlen hread
          obtain ⟨page, whole⟩ := q
          cases whole with
          | false =>
              refine ⟨?_, hkept _, by simp⟩
              refine htakes.sound.congr (htakes.sound.queues.setBkt_absent ha _)
                (fun _ => Iff.rfl) ?_ ?_ le_rfl rfl rfl
              · intro b hb
                rw [bkts_setBkt_of_ne]
                · exact ⟨rfl, rfl, rfl, id⟩
                · rintro rfl
                  exact ha hb
              · intro b
                by_cases hba : b = a
                · rw [hba, bkts_setBkt_self]
                  exact hlen
                · rw [bkts_setBkt_of_ne hba]
                  exact htakes.sound.sized b
          | true =>
              have hnew : ∀ b ∈ mp₁.lqh, (mp₁.bkts b).pgno ≠ pgno := by
                intro b hb
                obtain ⟨hlqh, hsame⟩ := htakes.subset b hb
                rw [hsame]
                exact hnone b hlqh
              refine ⟨?_, ?_, ?_⟩
              · refine htakes.sound.attach ha hfresh ?_ hnew ?_ ?_
                · exact (fs.length_inward _ _).trans hlen
                · show pgno < mp₁.npages
                  rw [htakes.npages]
                  omega
                · intro p hp
                  obtain ⟨y, hy, hin⟩ := htakes.sound.absent pgno p hp hnew
                  obtain rfl : page = y := Option.some.inj ((hread rfl).symm.trans hy)
                  exact ⟨hin, page, hread rfl, hin⟩
              · intro b hb hpinned
                obtain ⟨hb₁, hsame⟩ := hkept _ b hb hpinned
                exact ⟨(mem_insert _ a b).mpr (.inl hb₁), hsame⟩
              · rintro b ⟨⟩
                refine ⟨(mem_insert _ a a).mpr (.inr rfl), ?_⟩
                show ((mp₁.setBkt a _).bkts a).pgno = pgno ∧ ((mp₁.setBkt a _).bkts a).pinned = true
                rw [bkts_setBkt_self]
                exact ⟨rfl, rfl⟩

/-- It succeeds for a page that is known when the system does what it is asked for. -/
theorem Sound.mpoolGet_isSome (h : mp.Sound fs touched known) {page : List UInt8}
    (hpage : known pgno = some page) :
    (mp.mpoolGet fs pgno true (.wrote mp.pagesize) (.got mp.pagesize)).2.isSome = true := by
  have hlt := h.known_lt pgno page hpage
  rw [Mpool.mpoolGet, if_neg (by omega)]
  split
  · rfl
  · rename_i hlook
    have htakes := h.mpoolBkt true (.inr rfl)
    have hsome := h.mpoolBkt_isSome
    generalize mp.mpoolBkt fs true (.wrote mp.pagesize) = p at htakes hsome
    obtain ⟨mp₁, o⟩ := p
    cases o with
    | none => cases hsome
    | some a =>
        obtain ⟨y, hy, -⟩ := htakes.sound.absent pgno page hpage (by
          intro b hb
          obtain ⟨hlqh, hsame⟩ := htakes.subset b hb
          rw [hsame]
          exact h.queues.look_none hlook b hlqh)
        have hread := readPage_stored (mp₁.bkts a).page hy
        rw [htakes.pagesize] at hread
        dsimp only
        generalize mp₁.readPage (mp₁.bkts a).page pgno (.got mp.pagesize) = q at hread
        obtain ⟨page', whole⟩ := q
        obtain rfl : whole = true := hread
        rfl

/-- **`mpool_new`.** -/
theorem Sound.mpoolNew (h : mp.Sound fs touched known) {r : Mpool × Option ℕ}
    (hcareful : fs.pgout.isNone = true ∨ w = .wrote mp.pagesize)
    (hr : mp.mpoolNew fs malloc w = some r) :
    r.1.Sound fs touched known ∧ mp.KeepsPinned r.1 := by
  have hunknown : known mp.npages = none := by
    rw [Option.eq_none_iff_forall_ne_some]
    intro page hpage
    exact (h.known_lt _ page hpage).false
  rw [Mpool.mpoolNew] at hr
  split_ifs at hr
  have htakes := h.mpoolBkt malloc hcareful
  generalize mp.mpoolBkt fs malloc w = p at htakes hr
  obtain ⟨mp₁, o⟩ := p
  cases o with
  | none =>
      rw [Option.some.injEq] at hr
      rw [← hr]
      exact ⟨htakes.sound, htakes.pinned⟩
  | some a =>
      rw [Option.some.injEq] at hr
      rw [← hr]
      obtain ⟨ha, hfresh⟩ := htakes.taken a rfl
      have hgrown : ({ mp₁ with npages := mp₁.npages + 1 } : Mpool).Sound fs touched known :=
        htakes.sound.congr (htakes.sound.queues.congr rfl rfl (fun _ _ => rfl) le_rfl
          (Nat.le_succ _)) (fun _ => Iff.rfl) (fun _ _ => ⟨rfl, rfl, rfl, id⟩)
          htakes.sound.sized (Nat.le_succ _) rfl rfl
      refine ⟨hgrown.attach ha hfresh ?_ ?_ (Nat.lt_succ_self _) ?_, ?_⟩
      · exact htakes.sound.sized a
      · intro b hb
        exact (htakes.sound.queues.numbered b hb).ne
      · intro page hpage
        rw [show known mp₁.npages = none by rw [htakes.npages, hunknown]] at hpage
        cases hpage
      · intro b hb hpinned
        obtain ⟨hb₁, hsame⟩ := htakes.pinned b hb hpinned
        refine ⟨(mem_insert _ a b).mpr (.inl hb₁), ?_⟩
        have hba : b ≠ a := by
          rintro rfl
          exact ha hb₁
        rw [← hsame]
        exact bkts_setBkt_of_ne hba ..

/-- A page is put back. -/
theorem Sound.mpoolPut (h : mp.Sound fs touched known) (ha : a ∈ mp.lqh) {dirty : Bool}
    (htold : touched a = true → dirty = true) :
    (mp.mpoolPut a dirty).Sound fs (Function.update touched a false)
      (if dirty then Function.update known (mp.bkts a).pgno (some (mp.bkts a).page)
        else known) := by
  have hself : (mp.mpoolPut a dirty).bkts a
      = { mp.bkts a with pinned := false, dirty := (mp.bkts a).dirty || dirty } :=
    bkts_setBkt_self ..
  have hbkts : ∀ b, b ≠ a → (mp.mpoolPut a dirty).bkts b = mp.bkts b :=
    fun b hb => bkts_setBkt_of_ne hb ..
  have hknown : ∀ n, n ≠ (mp.bkts a).pgno →
      (if dirty then Function.update known (mp.bkts a).pgno (some (mp.bkts a).page)
        else known) n = known n := by
    intro n hn
    split_ifs
    · exact Function.update_of_ne hn ..
    · rfl
  have hothers : ∀ b ∈ mp.lqh, b ≠ a → (mp.bkts b).pgno ≠ (mp.bkts a).pgno :=
    fun b hb hba heq => hba (h.queues.distinct b hb a ha heq)
  refine ⟨h.queues.setBkt rfl, h.positive, ?_, ?_, ?_, ?_, ?_, ?_⟩
  · intro b
    by_cases hba : b = a
    · rw [hba, hself]
      exact h.sized a
    · rw [hbkts b hba]
      exact h.sized b
  · intro b hb
    have hba : b ≠ a := by
      rintro rfl
      rw [Function.update_self] at hb
      cases hb
    rw [Function.update_of_ne hba] at hb
    rw [hbkts b hba]
    exact h.held b hb
  · intro n page hn
    by_cases hna : n = (mp.bkts a).pgno
    · rw [hna]
      exact h.queues.numbered a ha
    · rw [hknown n hna] at hn
      exact h.known_lt n page hn
  · intro b hb page hpage
    by_cases hba : b = a
    · rw [hba, hself] at hpage ⊢
      cases dirty with
      | true =>
          dsimp only at hpage
          rw [if_pos rfl, Function.update_self] at hpage
          exact Option.some.inj hpage
      | false => exact h.cached a ha page hpage
    · rw [hbkts b hba] at hpage ⊢
      rw [hknown _ (hothers b hb hba)] at hpage
      exact h.cached b hb page hpage
  · intro b hb hdirty htouched page hpage
    by_cases hba : b = a
    · rw [hba, hself] at hdirty hpage ⊢
      obtain ⟨hclean, rfl⟩ := Bool.or_eq_false_iff.mp hdirty
      refine h.clean a ha hclean ?_ page hpage
      rw [Bool.eq_false_iff]
      exact fun ht => Bool.false_ne_true (htold ht)
    · rw [hbkts b hba] at hdirty hpage ⊢
      rw [hknown _ (hothers b hb hba)] at hpage
      rw [Function.update_of_ne hba] at htouched
      exact h.clean b hb hdirty htouched page hpage
  · intro n page hn hno
    have hna : n ≠ (mp.bkts a).pgno := by
      intro heq
      apply hno a ha
      rw [hself]
      exact heq.symm
    rw [hknown n hna] at hn
    refine h.absent n page hn ?_
    intro b hb
    by_cases hba : b = a
    · rw [hba]
      exact Ne.symm hna
    · rw [← hbkts b hba]
      exact hno b hb

/-- The user writes into a page. -/
theorem Sound.store (h : mp.Sound fs touched known) (ha : a ∈ mp.lqh)
    (hpinned : (mp.bkts a).pinned = true) {page : List UInt8} (hlen : page.length = mp.pagesize) :
    (mp.setBkt a { mp.bkts a with page := page }).Sound fs (Function.update touched a true)
      (Function.update known (mp.bkts a).pgno (some page)) := by
  have hbkts : ∀ b, b ≠ a → (mp.setBkt a { mp.bkts a with page := page }).bkts b = mp.bkts b :=
    fun b hb => bkts_setBkt_of_ne hb ..
  have hothers : ∀ b ∈ mp.lqh, b ≠ a → (mp.bkts b).pgno ≠ (mp.bkts a).pgno :=
    fun b hb hba heq => hba (h.queues.distinct b hb a ha heq)
  refine ⟨h.queues.setBkt rfl, h.positive, ?_, ?_, ?_, ?_, ?_, ?_⟩
  · intro b
    by_cases hba : b = a
    · rw [hba, bkts_setBkt_self]
      exact hlen
    · rw [hbkts b hba]
      exact h.sized b
  · intro b hb
    by_cases hba : b = a
    · rw [hba, bkts_setBkt_self]
      exact ⟨ha, hpinned⟩
    · rw [Function.update_of_ne hba] at hb
      rw [hbkts b hba]
      exact h.held b hb
  · intro n p hn
    by_cases hna : n = (mp.bkts a).pgno
    · rw [hna]
      exact h.queues.numbered a ha
    · rw [Function.update_of_ne hna] at hn
      exact h.known_lt n p hn
  · intro b hb p hp
    by_cases hba : b = a
    · rw [hba, bkts_setBkt_self] at hp ⊢
      dsimp only at hp
      rw [Function.update_self] at hp
      exact Option.some.inj hp
    · rw [hbkts b hba] at hp ⊢
      rw [Function.update_of_ne (hothers b hb hba)] at hp
      exact h.cached b hb p hp
  · intro b hb hdirty htouched p hp
    have hba : b ≠ a := by
      rintro rfl
      rw [Function.update_self] at htouched
      cases htouched
    rw [hbkts b hba] at hdirty hp ⊢
    rw [Function.update_of_ne (hothers b hb hba)] at hp
    rw [Function.update_of_ne hba] at htouched
    exact h.clean b hb hdirty htouched p hp
  · intro n p hn hno
    have hna : n ≠ (mp.bkts a).pgno := by
      intro heq
      apply hno a ha
      rw [bkts_setBkt_self]
      exact heq.symm
    rw [Function.update_of_ne hna] at hn
    refine h.absent n p hn ?_
    intro b hb
    by_cases hba : b = a
    · rw [hba]
      exact Ne.symm hna
    · rw [← hbkts b hba]
      exact hno b hb

/-- The same buckets have the same pages. -/
def SameBkts (mp mp' : Mpool) : Prop :=
  mp'.lqh = mp.lqh ∧ ∀ b, (mp'.bkts b).page = (mp.bkts b).page ∧
    (mp'.bkts b).pgno = (mp.bkts b).pgno ∧ (mp'.bkts b).pinned = (mp.bkts b).pinned

/-- The loop of `mpool_sync`, without a filter. -/
theorem Sound.syncLoop (h : mp.Sound fs touched known) (hplain : fs.pgout.isNone = true)
    (w : ℕ → WriteResult) {l : List ℕ} (hl : ∀ a ∈ l, a ∈ mp.lqh) :
    (mp.syncLoop fs w l).1.Sound fs touched known ∧ mp.SameBkts (mp.syncLoop fs w l).1 := by
  induction l generalizing mp with
  | nil => exact ⟨h, rfl, fun b => ⟨rfl, rfl, rfl⟩⟩
  | cons a l ih =>
      have ha := hl a List.mem_cons_self
      have hrest : ∀ b ∈ l, b ∈ mp.lqh := fun b hb => hl b (List.mem_cons_of_mem _ hb)
      rw [Mpool.syncLoop]
      split_ifs with hdirty
      · obtain ⟨hw, hout, -⟩ := mp.mpoolWrite_spec fs a (w a) (h.sized a) h.positive
        have hflush := h.flush hplain ha hdirty (w a)
        generalize mp.mpoolWrite fs a (w a) = r at hw hout hflush
        obtain ⟨mp₁, done⟩ := r
        have hsame : mp.SameBkts mp₁ := by
          refine ⟨hw.lqh, fun b => ?_⟩
          by_cases hba : b = a
          · rw [hba, hout, fs.outward_of_none hplain, hw.pgno, hw.pinned]
            exact ⟨rfl, rfl, rfl⟩
          · rw [hw.others b hba]
            exact ⟨rfl, rfl, rfl⟩
        cases done with
        | false => exact ⟨hflush, hsame⟩
        | true =>
            obtain ⟨hsound, hlqh, hb₂⟩ :=
              ih hflush fun b hb => (hw.lqh.symm ▸ hrest b hb : b ∈ mp₁.lqh)
            obtain ⟨hlqh₁, hb₁⟩ := hsame
            refine ⟨hsound, hlqh.trans hlqh₁, fun b => ?_⟩
            obtain ⟨p₁, n₁, i₁⟩ := hb₁ b
            obtain ⟨p₂, n₂, i₂⟩ := hb₂ b
            exact ⟨p₂.trans p₁, n₂.trans n₁, i₂.trans i₁⟩
      · exact ih h hrest

/-- Nothing is dirty, and nothing is written. -/
theorem syncLoop_clean (w : ℕ → WriteResult) {l : List ℕ}
    (hclean : ∀ a ∈ l, (mp.bkts a).dirty = false) : mp.syncLoop fs w l = (mp, true) := by
  induction l with
  | nil => rfl
  | cons a l ih =>
      rw [Mpool.syncLoop, if_neg (by rw [hclean a List.mem_cons_self]; exact Bool.false_ne_true)]
      exact ih fun b hb => hclean b (List.mem_cons_of_mem _ hb)

/-- **`mpool_sync`**, without a filter or with nothing to write. -/
theorem Sound.mpoolSync (h : mp.Sound fs touched known) (w : ℕ → WriteResult) (fsync : Bool)
    (hcareful : fs.pgout.isNone = true ∨ ∀ a ∈ mp.lqh, (mp.bkts a).dirty = false) :
    (mp.mpoolSync fs w fsync).1.Sound fs touched known ∧
      mp.SameBkts (mp.mpoolSync fs w fsync).1 := by
  rw [Mpool.mpoolSync]
  rcases hcareful with hplain | hclean
  · obtain hloop := h.syncLoop hplain w (l := mp.lqh) fun _ ha => ha
    generalize mp.syncLoop fs w mp.lqh = r at hloop
    obtain ⟨mp₁, _ | _⟩ := r
    · exact hloop
    · exact hloop
  · rw [syncLoop_clean w hclean]
    exact ⟨h, rfl, fun b => ⟨rfl, rfl, rfl⟩⟩

/-- One bucket of the loop of `mpool_sync`: when the loop succeeds, its page is in the file if it
was dirty, and the other buckets and pages are what they were. -/
theorem syncLoop_cons (w : ℕ → WriteResult) {a : ℕ} {l : List ℕ}
    (hsized : ∀ a, (mp.bkts a).page.length = mp.pagesize) (hpos : 0 < mp.pagesize)
    (hdone : (mp.syncLoop fs w (a :: l)).2 = true) :
    ∃ mp₁ : Mpool, mp.syncLoop fs w (a :: l) = mp₁.syncLoop fs w l ∧ mp₁.pagesize = mp.pagesize ∧
      (∀ b ≠ a, mp₁.bkts b = mp.bkts b) ∧ (∀ b, (mp₁.bkts b).page.length = mp.pagesize) ∧
      ((mp.bkts a).dirty = true → mp₁.Stored fs (mp.bkts a).pgno (mp.bkts a).page) ∧
      ∀ n page, ((mp.bkts a).pgno = n → (mp.bkts a).dirty = false) →
        mp.Stored fs n page → mp₁.Stored fs n page := by
  rw [Mpool.syncLoop] at hdone ⊢
  by_cases hdirty : (mp.bkts a).dirty = true
  · rw [if_pos hdirty] at hdone ⊢
    obtain ⟨hw, -, -, hwritten, -⟩ := mp.mpoolWrite_spec fs a (w a) (hsized a) hpos
    generalize mp.mpoolWrite fs a (w a) = r at hw hwritten hdone ⊢
    obtain ⟨mp₁, _ | _⟩ := r
    · exact absurd hdone Bool.false_ne_true
    · refine ⟨mp₁, rfl, hw.pagesize, hw.others, fun b => ?_, fun _ => (hwritten rfl).2,
        fun n page hclean => hw.rest n page ?_⟩
      · rcases eq_or_ne b a with rfl | hba
        · rw [hw.length, hsized b]
        · rw [hw.others b hba, hsized b]
      · rintro rfl
        exact Bool.false_ne_true ((hclean rfl).symm.trans hdirty)
  · rw [if_neg hdirty]
    exact ⟨mp, rfl, rfl, fun _ _ => rfl, hsized, fun h => absurd h hdirty, fun _ _ _ h => h⟩

/-- **The loop of `mpool_sync` writes what is dirty**, also with a filter: when it succeeds, the
file has the page of every dirty bucket that was passed, and it has every other page it had. -/
theorem syncLoop_stored (w : ℕ → WriteResult) {l : List ℕ} (hnodup : l.Nodup)
    (hdistinct : ∀ a ∈ l, ∀ b ∈ l, (mp.bkts a).pgno = (mp.bkts b).pgno → a = b)
    (hsized : ∀ a, (mp.bkts a).page.length = mp.pagesize) (hpos : 0 < mp.pagesize)
    (hdone : (mp.syncLoop fs w l).2 = true) :
    (∀ a ∈ l, (mp.bkts a).dirty = true →
      (mp.syncLoop fs w l).1.Stored fs (mp.bkts a).pgno (mp.bkts a).page) ∧
    ∀ n page, (∀ a ∈ l, (mp.bkts a).pgno = n → (mp.bkts a).dirty = false) →
      mp.Stored fs n page → (mp.syncLoop fs w l).1.Stored fs n page := by
  induction l generalizing mp with
  | nil => exact ⟨fun a ha => absurd ha List.not_mem_nil, fun _ _ _ h => h⟩
  | cons a l ih =>
      obtain ⟨hal, hl⟩ := List.nodup_cons.mp hnodup
      have hne : ∀ b ∈ l, b ≠ a := fun b hb hba => hal (hba ▸ hb)
      obtain ⟨mp₁, hloop, hsize, hothers, hlength, hwritten, hkeeps⟩ :=
        syncLoop_cons w hsized hpos hdone
      -- the buckets behind it are what they were
      have hsame : ∀ b ∈ l, mp₁.bkts b = mp.bkts b := fun b hb => hothers b (hne b hb)
      rw [hloop] at hdone ⊢
      obtain ⟨hpassed, hkept⟩ := ih hl
        (fun b hb c hc heq => by
          rw [hsame b hb, hsame c hc] at heq
          exact hdistinct b (List.mem_cons_of_mem _ hb) c (List.mem_cons_of_mem _ hc) heq)
        (fun b => (hlength b).trans hsize.symm) (hsize ▸ hpos) hdone
      constructor
      · intro b hb hd
        rcases List.mem_cons.mp hb with rfl | hb
        · refine hkept _ _ (fun c hc heq => ?_) (hwritten hd)
          rw [hsame c hc] at heq
          exact absurd (hdistinct c (List.mem_cons_of_mem _ hc) b List.mem_cons_self heq) (hne c hc)
        · rw [← hsame b hb] at hd ⊢
          exact hpassed b hb hd
      · intro n page hclean hstored
        refine hkept n page (fun b hb heq => ?_)
          (hkeeps n page (hclean a List.mem_cons_self) hstored)
        rw [hsame b hb] at heq ⊢
        exact hclean b (List.mem_cons_of_mem _ hb) heq

/-- A pool that was just opened. -/
theorem mpoolOpen_sound {file : List UInt8} {pagesize maxcache : ℕ} {mem : ℕ → Bkt}
    (hmem : ∀ a, (mem a).page.length = pagesize) (hpos : 0 < pagesize) :
    (mpoolOpen file pagesize maxcache mem).Sound fs (fun _ => false)
      (Session.start fs file pagesize maxcache mem).known := by
  have hno : ∀ a, a ∉ (mpoolOpen file pagesize maxcache mem).lqh := fun _ => List.not_mem_nil
  refine ⟨⟨List.nodup_nil, ?_, ?_, fun _ => List.nodup_nil, ?_, ?_⟩, hpos, hmem, ?_, ?_, ?_, ?_,
    ?_⟩
  · exact fun a ha => absurd ha (hno a)
  · intro i a
    simp [mpoolOpen]
  · exact fun a ha => absurd ha (hno a)
  · exact fun a ha => absurd ha (hno a)
  · simp
  · intro n page hn
    simp only [Session.start] at hn
    split_ifs at hn with hlt
    exact hlt
  · exact fun a ha => absurd ha (hno a)
  · exact fun a ha => absurd ha (hno a)
  · intro n page hn _
    simp only [Session.start] at hn
    split_ifs at hn
    exact Option.map_eq_some_iff.mp hn

end Mpool

end Zevent.Mdb

/-
# The usage report (`zcache_shmcb.c`)

`zcache_shmcb_status` expires every division, adds up the entries and the bytes in use, and
reports both as percentages, computed with `unsigned int` products.

The entries never come to more than a segment has room for, so their product with 100 does
not wrap.  The bytes may: `usage_exact_iff` says that the report is exact as long as a
hundred times the bytes in use fit into 32 bits.
-/
import Zevent.Cache.Layout
import Zevent.Cache.Room
import Zevent.Cache.Statistics

namespace Zevent.Cache

open RingBuffer Division Interleaving

/-! ## The functions of the source -/

/-- What the loop of `zcache_shmcb_status` gathers. -/
structure StatusTotals where
  total : ℕ
  cacheTotal : ℕ
  nonEmptyDivisions : ℕ
  maxExpiry : ℤ
  minExpiry : ℤ
deriving DecidableEq, Repr

/-- The totals before the loop. -/
def StatusTotals.zero : StatusTotals := ⟨0, 0, 0, 0, 0⟩

/-- The block for a division that is not empty: its oldest entry. -/
def StatusTotals.addOldest (t : StatusTotals) (idx : SHMCBIndex) : StatusTotals :=
  { t with
    nonEmptyDivisions := u32 (t.nonEmptyDivisions + 1)
    maxExpiry := if idx.expires > t.maxExpiry then idx.expires else t.maxExpiry
    minExpiry := if t.minExpiry = 0 then idx.expires
      else if idx.expires < t.minExpiry then idx.expires else t.minExpiry }

/-- One round of the loop; `none` is the null index pointer. -/
def statusRound (s : Segment) (t : StatusTotals) (loop : ℕ) (now : ℤ) :
    Option (Segment × StatusTotals) :=
  match shmcbGetDivision s loop with
  | none => some (s, t)
  | some d =>
      (shmcbExpireDivision s.header d now).bind fun (h, d, _) =>
        let t := { t with
          total := u32 (t.total + d.queueCount), cacheTotal := u32 (t.cacheTotal + d.cacheCount) }
        let s := { header := h, division := Function.update s.division loop d }
        if d.queueCount > 0 then
          (shmcbGetIndex h d d.queueFirst).map fun idx => (s, t.addOldest idx)
        else some (s, t)

/-- The loop; the expiry of a division reads the clock of its round.  The first argument is
the number of rounds that are left. -/
def statusLoop (nows : ℕ → ℤ) : ℕ → ℕ → Segment → StatusTotals → Option (Segment × StatusTotals)
  | 0, _, s, t => some (s, t)
  | rounds + 1, loop, s, t =>
      (statusRound s t loop (nows loop)).bind fun (s, t) => statusLoop nows rounds (loop + 1) s t

/-- `(100 * used) / (num * divisions)` as `unsigned int`, stored in an `int`; `none` is the
division by zero. -/
def usagePct (used num divisions : ℕ) : Option ℤ :=
  if u32 (num * divisions) = 0 then none
  else some (i32 ((u32 (100 * used) / u32 (num * divisions) : ℕ)))

/-- What `zcache_shmcb_status` reports. -/
structure StatusReport where
  totals : StatusTotals
  indexPct : ℤ
  cachePct : ℤ
deriving DecidableEq, Repr

/-- `zcache_shmcb_status`. -/
def zcacheShmcbStatus (s : Segment) (nows : ℕ → ℤ) : Option (Segment × StatusReport) :=
  (statusLoop nows (s.header.divisionMask + 1) 0 s .zero).bind fun (s, t) =>
    (usagePct t.total s.header.indexNum (u32 (s.header.divisionMask + 1))).bind fun indexPct =>
      (usagePct t.cacheTotal s.header.cacheDataSize (u32 (s.header.divisionMask + 1))).map
        fun cachePct => (s, { totals := t, indexPct, cachePct })

/-! ## What the loop adds up -/

/-- The bytes in use, over all divisions. -/
def Segment.cached (s : Segment) : ℕ :=
  ∑ i ∈ Finset.range (s.header.divisionMask + 1), (s.division i).cacheCount

/-- The entries left over all divisions once each has been expired. -/
def Segment.queuedAfter (s : Segment) (nows : ℕ → ℤ) : ℕ :=
  ∑ i ∈ Finset.range (s.header.divisionMask + 1),
    ((s.division i).fresh s.header.indexNum (nows i)).length

/-- The bytes in use over all divisions once each has been expired. -/
def Segment.cachedAfter (s : Segment) (nows : ℕ → ℤ) : ℕ :=
  ∑ i ∈ Finset.range (s.header.divisionMask + 1),
    (s.division i).freshBytes s.header.indexNum s.header.cacheDataSize (nows i)

/-- One round expires its division and adds what is left. -/
theorem statusRound_spec {s : Segment} (hs : s.Wf) {loop : ℕ}
    (hloop : loop ≤ s.header.divisionMask) (t : StatusTotals) (now : ℤ) :
    ∃ s' t' d', statusRound s t loop now = some (s', t')
      ∧ s.header.SameLayout s'.header
      ∧ s'.division = Function.update s.division loop d'
      ∧ d'.Wf s.header.indexNum s.header.cacheDataSize
      ∧ d'.queueCount = ((s.division loop).fresh s.header.indexNum now).length
      ∧ d'.cacheCount
        = (s.division loop).freshBytes s.header.indexNum s.header.cacheDataSize now
      ∧ t'.total = u32 (t.total + d'.queueCount)
      ∧ t'.cacheTotal = u32 (t.cacheTotal + d'.cacheCount) := by
  obtain ⟨k, d', hexp, hroll, hk, hbytes⟩ :=
    shmcbExpireDivision_spec hs.geometry (hs.divisions loop hloop) now
  obtain ⟨hlive, hcount⟩ := Rolled.fresh_eq hroll hk hbytes
  have hqueue : d'.queueCount = ((s.division loop).fresh s.header.indexNum now).length := by
    rw [← hlive, length_live]
  rw [statusRound, shmcbGetDivision_of_le hloop]
  simp only [hexp, Option.bind_some]
  split_ifs with hpos
  · -- the oldest entry is behind a position of the queue
    have hindex := shmcbGetIndex_mod (h := { s.header with
      numExpiries := s.header.numExpiries + k }) ⟨hs.geometry.1, hs.geometry.2, hs.geometry.3,
      hs.geometry.4, hs.geometry.5⟩ d' d'.queueFirst
    simp only [Nat.mod_eq_of_lt hroll.wf.queueFirst_lt] at hindex
    simp only [hindex, Option.map_some]
    exact ⟨_, _, d', rfl, rfl, rfl, hroll.wf, hqueue, hcount, rfl, rfl⟩
  · exact ⟨_, _, d', rfl, rfl, rfl, hroll.wf, hqueue, hcount, rfl, rfl⟩

/-- **The loop expires the divisions it goes over and adds up what is left**, as long as the
sums fit into 32 bits. -/
theorem statusLoop_spec (nows : ℕ → ℤ) (rounds loop : ℕ) {s : Segment} {t : StatusTotals}
    (hs : s.Wf) (hle : loop + rounds ≤ s.header.divisionMask + 1)
    (htotal : t.total + ∑ i ∈ Finset.range rounds,
      ((s.division (loop + i)).fresh s.header.indexNum (nows (loop + i))).length < 4294967296)
    (hcache : t.cacheTotal + ∑ i ∈ Finset.range rounds, (s.division (loop + i)).freshBytes
      s.header.indexNum s.header.cacheDataSize (nows (loop + i)) < 4294967296) :
    ∃ s' t', statusLoop nows rounds loop s t = some (s', t')
      ∧ s.header.SameLayout s'.header
      ∧ (∀ i < loop, s'.division i = s.division i)
      ∧ (∀ i, loop ≤ i → i < loop + rounds →
          (s'.division i).queueCount = ((s.division i).fresh s.header.indexNum (nows i)).length
          ∧ (s'.division i).cacheCount
            = (s.division i).freshBytes s.header.indexNum s.header.cacheDataSize (nows i))
      ∧ t'.total = t.total + ∑ i ∈ Finset.range rounds,
          ((s.division (loop + i)).fresh s.header.indexNum (nows (loop + i))).length
      ∧ t'.cacheTotal = t.cacheTotal + ∑ i ∈ Finset.range rounds,
          (s.division (loop + i)).freshBytes s.header.indexNum s.header.cacheDataSize
            (nows (loop + i)) := by
  induction rounds generalizing loop s t with
  | zero => exact ⟨s, t, rfl, rfl, fun _ _ => rfl, fun i hi hi' => by omega, by simp, by simp⟩
  | succ rounds ih =>
      simp only [Finset.sum_range_succ', Nat.add_zero] at htotal hcache
      obtain ⟨s₁, t₁, d', hround, hsame, hdiv, hd', hqueue, hbytes, ht, hc⟩ :=
        statusRound_spec hs (by omega : loop ≤ s.header.divisionMask) t (nows loop)
      have hlater : ∀ i, loop < i → s₁.division i = s.division i := by
        intro i hi
        rw [hdiv, Function.update_of_ne (by omega)]
      have ht₁ : t₁.total
          = t.total + ((s.division loop).fresh s.header.indexNum (nows loop)).length := by
        rw [ht, hqueue]
        exact u32_eq (by push_cast; rfl) (by omega)
      have hc₁ : t₁.cacheTotal = t.cacheTotal + (s.division loop).freshBytes s.header.indexNum
          s.header.cacheDataSize (nows loop) := by
        rw [hc, hbytes]
        exact u32_eq (by push_cast; rfl) (by omega)
      -- the sums over the later divisions are the same before and after the round
      have hsum : ∀ f : ℕ → Division → ℕ, ∑ i ∈ Finset.range rounds, f (loop + 1 + i)
            (s₁.division (loop + 1 + i))
          = ∑ i ∈ Finset.range rounds, f (loop + (i + 1)) (s.division (loop + (i + 1))) := by
        intro f
        refine Finset.sum_congr rfl fun i _ => ?_
        rw [hlater _ (by omega), show loop + 1 + i = loop + (i + 1) by ring]
      have hsumQueue := hsum fun i d => (d.fresh s.header.indexNum (nows i)).length
      have hsumBytes := hsum fun i d =>
        d.freshBytes s.header.indexNum s.header.cacheDataSize (nows i)
      obtain ⟨s', t', hrun, hsame', hkept, hdone, ht', hc'⟩ := ih (loop + 1)
        (hs.update hsame hdiv hd') (by rw [hsame.divisionMask]; omega)
        (by rw [hsame.indexNum, hsumQueue, ht₁]; omega)
        (by rw [hsame.indexNum, hsame.cacheDataSize, hsumBytes, hc₁]; omega)
      rw [hsame.indexNum] at hdone ht' hc'
      rw [hsame.cacheDataSize] at hdone hc'
      simp only [Finset.sum_range_succ', Nat.add_zero]
      refine ⟨s', t', ?_, hsame.trans hsame', fun i hi => ?_, fun i hi hi' => ?_, ?_, ?_⟩
      · simp only [statusLoop, hround, Option.bind_some, hrun]
      · rw [hkept i (by omega), hdiv, Function.update_of_ne (by omega)]
      · rcases Nat.eq_or_lt_of_le hi with rfl | hlt
        · rw [hkept loop (by omega), hdiv, Function.update_self]
          exact ⟨hqueue, hbytes⟩
        · rw [← hlater i hlt]
          exact hdone i hlt (by omega)
      · rw [ht', hsumQueue, ht₁]
        omega
      · rw [hc', hsumBytes, hc₁]
        omega

/-! ## The percentages -/

/-- An exact percentage: neither product wraps, and the result is the floor, from 0 to 100. -/
structure ExactPct (used num divisions : ℕ) (pct : ℤ) : Prop where
  product_lt : 100 * used < 4294967296
  capacity_lt : num * divisions < 4294967296
  pct_eq : pct = ((100 * used / (num * divisions) : ℕ) : ℤ)
  nonneg : 0 ≤ pct
  le : pct ≤ 100

/-- Where neither product wraps the percentage is exact. -/
theorem usagePct_exact {used num divisions : ℕ} (hpos : 0 < num * divisions)
    (hcap : num * divisions < 4294967296) (hle : used ≤ num * divisions)
    (hused : 100 * used < 4294967296) :
    ∃ pct, usagePct used num divisions = some pct ∧ ExactPct used num divisions pct := by
  have hden : u32 ((num : ℤ) * divisions) = num * divisions := u32_eq (Nat.cast_mul _ _).symm hcap
  have hnum : u32 (100 * (used : ℤ)) = 100 * used := u32_eq (by push_cast; rfl) hused
  have hpct : 100 * used / (num * divisions) ≤ 100 := by
    calc 100 * used / (num * divisions)
        ≤ 100 * (num * divisions) / (num * divisions) :=
          Nat.div_le_div_right (Nat.mul_le_mul_left _ hle)
      _ = 100 := Nat.mul_div_cancel _ hpos
  refine ⟨((100 * used / (num * divisions) : ℕ) : ℤ), ?_, hused, hcap, rfl,
    Int.natCast_nonneg _, by exact_mod_cast hpct⟩
  rw [usagePct, hden, hnum, if_neg (by omega)]
  generalize 100 * used / (num * divisions) = pct at hpct ⊢
  rw [i32_eq (by omega) (by omega)]

/-- The report is exact: it is made, and both percentages are exact for what is in use when
the loop has expired the divisions. -/
def UsageExact (s : Segment) (nows : ℕ → ℤ) : Prop :=
  ∃ s' r, zcacheShmcbStatus s nows = some (s', r)
    ∧ ExactPct s'.queued s.header.indexNum (s.header.divisionMask + 1) r.indexPct
    ∧ ExactPct s'.cached s.header.cacheDataSize (s.header.divisionMask + 1) r.cachePct

section Bounds

variable {s : Segment} {nows : ℕ → ℤ}

/-- No more entries are left than there is room for. -/
theorem Segment.Wf.queuedAfter_le (hs : s.Wf) (nows : ℕ → ℤ) :
    s.queuedAfter nows ≤ s.header.indexNum * (s.header.divisionMask + 1) := by
  rw [Segment.queuedAfter, Nat.mul_comm]
  refine (Finset.sum_le_card_nsmul _ _ s.header.indexNum fun i hi => ?_).trans_eq (by simp)
  rw [Finset.mem_range] at hi
  have hsub := (List.dropWhile_sublist (l := (s.division i).live s.header.indexNum)
    fun e => decide (e.expires ≤ nows i)).length_le
  rw [length_live] at hsub
  exact hsub.trans (hs.divisions i (by omega)).queueCount_le

/-- No more bytes are left than there is room for. -/
theorem Segment.Wf.cachedAfter_le (hs : s.Wf) (nows : ℕ → ℤ) :
    s.cachedAfter nows ≤ s.header.cacheDataSize * (s.header.divisionMask + 1) := by
  rw [Segment.cachedAfter, Nat.mul_comm]
  refine (Finset.sum_le_card_nsmul _ _ s.header.cacheDataSize fun i hi => ?_).trans_eq (by simp)
  rw [Finset.mem_range] at hi
  have hcount := (hs.divisions i (by omega)).cacheCount_le
  rw [freshBytes]
  split_ifs <;> omega

/-- The capacities of a segment that was laid out: the bytes are fewer than `2^32`, and the
entries so few that a hundred times their number is, too. -/
theorem SHMCBHeader.LaidOut.capacity {h : SHMCBHeader} {g shmMemSize : ℕ}
    (hl : h.LaidOut g shmMemSize) :
    h.cacheDataSize * (h.divisionMask + 1) < 4294967296
      ∧ 100 * (h.indexNum * (h.divisionMask + 1)) < 4294967296 := by
  have hshare := hl.share
  have hsize := hl.size_lt
  have hdiv := hl.divisionSize_eq
  have hqueue := hl.queueSize_eq
  have hcache : h.cacheDataSize * g ≤ g * h.divisionSize := by
    rw [Nat.mul_comm]
    exact Nat.mul_le_mul_left _ (by omega)
  have hindex : 120 * (h.indexNum * g) ≤ g * h.divisionSize := by
    calc 120 * (h.indexNum * g) = g * (120 * h.indexNum) := by ring
      _ ≤ g * h.divisionSize := Nat.mul_le_mul_left _ hl.indexNum_le
  rw [hl.mask]
  omega

/-- **The report of a segment that was laid out**: it is exact exactly when a hundred times
the bytes that are left fit into 32 bits. -/
theorem Segment.Wf.usageExact_iff (hs : s.Wf) {g shmMemSize : ℕ}
    (hl : s.header.LaidOut g shmMemSize) (nows : ℕ → ℤ) :
    UsageExact s nows ↔ 100 * s.cachedAfter nows < 4294967296 := by
  obtain ⟨hcap, hindexCap⟩ := hl.capacity
  have hqueued := hs.queuedAfter_le nows
  have hcached := hs.cachedAfter_le nows
  have hzero := fun i => Nat.zero_add i
  obtain ⟨s', t', hrun, hsame, -, hdone, ht, hc⟩ := statusLoop_spec nows
    (s.header.divisionMask + 1) 0 (t := .zero) hs (by omega)
    (by simp only [hzero, StatusTotals.zero]; exact hqueued.trans_lt (by omega))
    (by simp only [hzero, StatusTotals.zero]; exact hcached.trans_lt hcap)
  simp only [hzero, StatusTotals.zero] at ht hc
  -- the totals are what is in use after the loop
  have hqueued' : s'.queued = s.queuedAfter nows := by
    rw [Segment.queued, Segment.queuedAfter, hsame.divisionMask]
    refine Finset.sum_congr rfl fun i hi => (hdone i (Nat.zero_le _) ?_).1
    rw [Finset.mem_range] at hi
    omega
  have hcached' : s'.cached = s.cachedAfter nows := by
    rw [Segment.cached, Segment.cachedAfter, hsame.divisionMask]
    refine Finset.sum_congr rfl fun i hi => (hdone i (Nat.zero_le _) ?_).2
    rw [Finset.mem_range] at hi
    omega
  have hdata := hs.geometry.cacheDataSize_pos
  have hindex := hs.geometry.indexNum_pos
  have hpos : 0 < s.header.cacheDataSize * (s.header.divisionMask + 1) := by positivity
  have hpos' : 0 < s.header.indexNum * (s.header.divisionMask + 1) := by positivity
  have hmask : u32 ((s.header.divisionMask : ℤ) + 1) = s.header.divisionMask + 1 := by
    have hle := Nat.le_mul_of_pos_left (s.header.divisionMask + 1) hdata
    exact u32_eq (by push_cast; rfl) (by omega)
  constructor
  · rintro ⟨s'', r, hstatus, -, hexact⟩
    -- the loop runs once, so the report is about its totals
    obtain rfl : s'' = s' := by
      simp only [zcacheShmcbStatus, hrun, Option.bind_some, Option.bind_eq_some_iff,
        Option.map_eq_some_iff, Prod.mk.injEq] at hstatus
      obtain ⟨-, -, -, -, heq, -⟩ := hstatus
      exact heq.symm
    rw [← hcached']
    exact hexact.product_lt
  · intro hfit
    obtain ⟨indexPct, hindexPct, hindexExact⟩ := usagePct_exact hpos' (by omega)
      (hqueued'.trans_le hqueued) (by rw [hqueued']; omega)
    obtain ⟨cachePct, hcachePct, hcacheExact⟩ := usagePct_exact hpos hcap
      (hcached'.trans_le hcached) (by rw [hcached']; exact hfit)
    refine ⟨s', ⟨t', indexPct, cachePct⟩, ?_, hindexExact, hcacheExact⟩
    rw [hqueued', Segment.queuedAfter, ← ht] at hindexPct
    rw [hcached', Segment.cachedAfter, ← hc] at hcachePct
    simp only [zcacheShmcbStatus, hrun, Option.bind_some, hsame.divisionMask, hsame.indexNum,
      hsame.cacheDataSize, hmask, hindexPct, hcachePct, Option.map_some]

end Bounds

/-! ## Over every run -/

/-- Calls do not move the layout. -/
theorem SHMCBHeader.LaidOut.sameLayout {h h' : SHMCBHeader} {g shmMemSize : ℕ}
    (hl : h.LaidOut g shmMemSize) (hs : h.SameLayout h') : h'.LaidOut g shmMemSize := by
  rw [SHMCBHeader.SameLayout] at hs
  rw [hs]
  exact ⟨hl.1, hl.2, hl.3, hl.4, hl.5, hl.6, hl.7, hl.8, hl.9, hl.10, hl.11⟩

/-- What holds of a segment that was laid out, after every run. -/
theorem Session.laidOut_of_reach {s₀ s : Session} {old : SHMCBHeader} {shmMemSize : ℕ}
    (hsize : shmMemSize < 4294967296)
    (hinit : shmcbInitHeader old shmMemSize = some (some s₀.seg.header)) (h₀ : s₀.Initial)
    (h : Reach Session.step Always s₀ s) :
    s.seg.Wf ∧ ∃ g, s.seg.header.LaidOut g shmMemSize := by
  obtain ⟨g, hl⟩ := shmcbInitHeader_laidOut hsize hinit
  have hboth : s.Inv ∧ s.seg.header.LaidOut g shmMemSize := by
    refine h.invariant (fun s => s.Inv ∧ s.seg.header.LaidOut g shmMemSize) ⟨h₀.inv, hl⟩ ?_
    rintro s op s' ⟨hinv, hl⟩ - hs
    obtain ⟨-, -, -, -, hsame, -⟩ := hinv.step_effect hs
    exact ⟨hinv.step hs, hl.sameLayout hsame⟩
  exact ⟨⟨hboth.1.geometry, hboth.1.wf⟩, g, hboth.2⟩

/-- **When the usage percentages are exact.**  For every segment size the initialisation
accepts, in every state of every run and for every reading of the clock, the report is made
without wrap-around and both percentages are the floor of a hundred times what is in use over
the capacity, from 0 to 100, exactly when a hundred times the bytes in use after the expiry
fit into 32 bits. -/
theorem usage_exact_iff {s₀ s : Session} {old : SHMCBHeader} {shmMemSize : ℕ}
    (hsize : shmMemSize < 4294967296)
    (hinit : shmcbInitHeader old shmMemSize = some (some s₀.seg.header)) (h₀ : s₀.Initial)
    (h : Reach Session.step Always s₀ s) (nows : ℕ → ℤ) :
    UsageExact s.seg nows ↔ 100 * s.seg.cachedAfter nows < 4294967296 := by
  obtain ⟨hwf, g, hl⟩ := Session.laidOut_of_reach hsize hinit h₀ h
  exact hwf.usageExact_iff hl nows

/-- Two entries of 10 bytes, of which the first has expired when the report is made. -/
theorem usage_exact_iff_expired :
    ∃ s, Reach Session.step Always freshSession s ∧ s.seg.cachedAfter (fun _ => 60) = 10
      ∧ UsageExact s.seg fun _ => 60 := by
  have hrun : (run Session.step Always freshSession
      [.store [1] ⟨List.replicate 10 0, by decide⟩ 50 0,
        .store [2] ⟨List.replicate 10 0, by decide⟩ 100 0]).map
      (fun s => s.seg.cachedAfter fun _ => 60) = some 10 := by
    decide
  obtain ⟨s, hs, hbytes⟩ := Option.map_eq_some_iff.mp hrun
  have hreach := Reach.refl.run _ hs
  exact ⟨s, hreach, hbytes, (usage_exact_iff (by decide) freshSession_header
    freshSession_initial hreach fun _ => 60).mpr (by omega)⟩

/-! ## A segment that is filled -/

/-- An insertion into an empty division succeeds, and its bytes are all that is in use. -/
theorem shmcbInsertInternal_empty {h : SHMCBHeader} {d : Division} (hg : h.Geometry)
    (hd : d.Wf h.indexNum h.cacheDataSize) (hempty : d.queueCount = 0) (id : List UInt8)
    {pdata : List UInt8} (hpos : 1 ≤ pdata.length) (hfits : pdata.length ≤ h.cacheDataSize)
    {expiryTime now : ℤ} (hnow : now < expiryTime) :
    ∃ h' d', shmcbInsertInternal h d id pdata expiryTime now = some (h', d', true)
      ∧ h.SameLayout h'
      ∧ d'.freshBytes h.indexNum h.cacheDataSize now = pdata.length := by
  have hsize := hg.cacheDataSize_lt
  have hindex := hg.indexNum_pos
  have hlen : pdata.length < 2147483648 := by omega
  have hlive : d.live h.indexNum = [] := by rw [live, hempty, read_zero]
  have hfresh : d.fresh h.indexNum now = [] := by rw [fresh, hlive, List.dropWhile_nil]
  obtain ⟨h', d', ok, hins, hok, -⟩ := shmcbInsertInternal_room hg hd id hlen expiryTime now
  have hroom : d.RoomFor h.indexNum h.cacheDataSize now pdata.length := by
    refine .inl ⟨?_, ?_⟩
    · rw [freshBytes, if_pos hfresh]
      omega
    · rw [hfresh, List.length_nil]
      omega
  obtain rfl : ok = true := hok.mpr hroom
  obtain ⟨j, k, d₁, d'', ok, hins', hroll, -, hres⟩ :=
    shmcbInsertInternal_spec hg hd id hlen expiryTime now
  rw [hins, Option.some.injEq, Prod.mk.injEq, Prod.mk.injEq] at hins'
  obtain ⟨rfl, rfl, rfl⟩ := hins'
  rw [if_pos rfl] at hres
  have hlive' := hres.live_eq
  rw [hroll.live_eq, hlive, List.drop_nil, List.nil_append] at hlive'
  refine ⟨_, d', hins, rfl, ?_⟩
  have hregions : total (d'.regions h.indexNum) = pdata.length := by
    rw [regions, hlive']
    rfl
  have hcount : d'.cacheCount = pdata.length := by
    rcases hres.wf.cacheCount_eq with heq | ⟨-, hzero⟩ <;> omega
  have hlate : decide (expiryTime ≤ now) = false := decide_eq_false (by omega)
  rw [freshBytes, fresh, expired, hlive', List.dropWhile_cons, List.takeWhile_cons, hlate, hcount]
  simp

/-- A store into an empty division of a session. -/
theorem Session.Inv.store_empty {s : Session} (hinv : s.Inv) (id : List UInt8) (pdata : Block)
    (hempty : (s.seg.division (maskedIndex s.seg.header id)).queueCount = 0)
    (hpos : 1 ≤ pdata.bytes.length) (hfits : pdata.bytes.length ≤ s.seg.header.cacheDataSize)
    {timeout now : ℤ} (hnow : now < timeout) :
    ∃ s' d', s.step (.store id pdata timeout now) = some s'
      ∧ s.seg.header.SameLayout s'.seg.header
      ∧ s'.seg.division = Function.update s.seg.division (maskedIndex s.seg.header id) d'
      ∧ d'.freshBytes s.seg.header.indexNum s.seg.header.cacheDataSize now
        = pdata.bytes.length := by
  have hi := maskedIndex_le s.seg.header id
  obtain ⟨h', d', hins, hsame, hbytes⟩ := shmcbInsertInternal_empty hinv.geometry (hinv.wf _ hi)
    hempty id hpos hfits hnow
  have happly : s.seg.apply (.store id pdata timeout now)
      = some ({ header := { h' with numStores := h'.numStores + 1 }
                division := Function.update s.seg.division (maskedIndex s.seg.header id) d' },
          .stored true) := by
    simp only [Segment.apply, shmcbStore, shmcbGetDivision_of_le hi, hins, Option.map_some, if_true]
  have hstep := congrArg (Option.map fun (r : Segment × Result) =>
    ({ seg := r.1, log := s.log ++ ((Op.store id pdata timeout now).record r.2).toList
       clock := now } : Session)) happly
  exact ⟨_, d', hstep, hsame.trans rfl, rfl, hbytes⟩

/-- Payloads of one length can be put into any divisions of a fresh segment. -/
theorem Session.Initial.fill {s₀ : Session} (h₀ : s₀.Initial) (pdata : Block)
    (hpos : 1 ≤ pdata.bytes.length) (hfits : pdata.bytes.length ≤ s₀.seg.header.cacheDataSize)
    (ids : List (List UInt8)) (hids : (ids.map (maskedIndex s₀.seg.header)).Nodup) :
    ∃ s, Reach Session.step Always s₀ s ∧ s₀.seg.header.SameLayout s.seg.header
      ∧ (∀ i ∈ ids.map (maskedIndex s₀.seg.header),
          (s.seg.division i).freshBytes s₀.seg.header.indexNum s₀.seg.header.cacheDataSize 0
            = pdata.bytes.length)
      ∧ ∀ i ≤ s₀.seg.header.divisionMask, i ∉ ids.map (maskedIndex s₀.seg.header) →
          (s.seg.division i).queueCount = 0 := by
  induction ids with
  | nil => exact ⟨s₀, .refl, rfl, by simp, fun i hi _ => h₀.queueCount i hi⟩
  | cons id ids ih =>
      rw [List.map_cons, List.nodup_cons] at hids
      obtain ⟨s, hreach, hsame, hfilled, hrest⟩ := ih hids.2
      have hmasked : maskedIndex s.seg.header id = maskedIndex s₀.seg.header id := by
        rw [maskedIndex, maskedIndex, hsame.divisionMask]
      have hempty := hrest _ (maskedIndex_le s₀.seg.header id) hids.1
      obtain ⟨s', d', hstep, hsame', hdiv, hbytes⟩ := (Session.Inv.of_reach h₀ hreach).store_empty
        id pdata (by rw [hmasked]; exact hempty) hpos
        (by rw [hsame.cacheDataSize]; exact hfits) (show (0 : ℤ) < 100 by decide)
      rw [hmasked] at hdiv
      rw [hsame.indexNum, hsame.cacheDataSize] at hbytes
      refine ⟨s', hreach.tail trivial hstep, hsame.trans hsame', fun i hi => ?_,
        fun i hi hnot => ?_⟩
      · rw [hdiv]
        rw [List.map_cons, List.mem_cons] at hi
        rcases eq_or_ne i (maskedIndex s₀.seg.header id) with rfl | hne
        · rw [Function.update_self]
          exact hbytes
        · rw [Function.update_of_ne hne]
          exact hfilled i (hi.resolve_left hne)
      · rw [List.map_cons, List.mem_cons, not_or] at hnot
        rw [hdiv, Function.update_of_ne hnot.1]
        exact hrest i hi hnot.2

/-- The largest segment of 32 bits, fresh: 256 divisions of about 13.4 million bytes. -/
def largeSession : Session where
  seg :=
    { header :=
        { numStores := 0, numExpiries := 0, numScrolled := 0, numRetrievesHit := 0
          numRetrievesMiss := 0, numRemovesHit := 0, numRemovesMiss := 0
          divisionOffset := 96, divisionSize := 16777215, queueSize := 3355448
          cacheDataOffset := 8, cacheDataSize := 13421759, divisionMask := 255
          indexNum := 139810, indexOffset := 8, indexSize := 24 }
      division := fun _ =>
        { queueFirst := 0, queueCount := 0, indexes := fun _ => ⟨0, 0, 0, 0, false⟩
          cacheFirst := 0, cacheCount := 0, data := fun _ => 0 } }
  log := []
  clock := 0

theorem largeSession_header :
    shmcbInitHeader ⟨0, 0, 0, 0, 0, 0, 0, 0, 0, 0, 0, 0, 0, 0, 0, 0⟩ 4294967295
      = some (some largeSession.seg.header) := by
  decide

theorem largeSession_initial : largeSession.Initial :=
  ⟨shmcbInitHeader_geometry (by decide) largeSession_header, fun _ _ => rfl, fun _ _ => rfl,
    fun _ _ => rfl, fun _ _ => rfl, rfl⟩

/-- **The cache percentage wraps**: four payloads of 13 million bytes in four divisions of
the largest segment are 52 million bytes, a hundred times which is more than `2^32`. -/
theorem usage_wraps :
    ¬ ∀ (s₀ s : Session) (old : SHMCBHeader) (shmMemSize : ℕ), shmMemSize < 4294967296 →
      shmcbInitHeader old shmMemSize = some (some s₀.seg.header) → s₀.Initial →
      Reach Session.step Always s₀ s → ∀ nows, UsageExact s.seg nows := by
  intro hforall
  have hblock : (List.replicate 13000000 (0 : UInt8)).length = 13000000 := List.length_replicate
  obtain ⟨s, hreach, hsame, hfilled, -⟩ := largeSession_initial.fill
    ⟨List.replicate 13000000 0, by rw [hblock]; decide⟩ (by rw [hblock]; decide)
    (by rw [hblock]; decide) [[0], [1], [2], [3]] (by decide)
  have hids : ([[0], [1], [2], [3]] : List (List UInt8)).map (maskedIndex largeSession.seg.header)
      = [201, 168, 141, 5] := by decide
  rw [hids, hblock] at hfilled
  have hexact := hforall _ s _ _ (by decide) largeSession_header largeSession_initial hreach
    fun _ => 0
  obtain ⟨hwf, g, hl⟩ := Session.laidOut_of_reach (by decide) largeSession_header
    largeSession_initial hreach
  have hfit := (hwf.usageExact_iff hl fun _ => 0).mp hexact
  -- the four divisions alone have too many bytes
  have hsum : ∑ i ∈ ({201, 168, 141, 5} : Finset ℕ), (s.seg.division i).freshBytes
      largeSession.seg.header.indexNum largeSession.seg.header.cacheDataSize 0 = 52000000 := by
    rw [Finset.sum_congr rfl fun i hi => hfilled i (by simpa using hi)]
    decide
  have hle : 52000000 ≤ s.seg.cachedAfter fun _ => 0 := by
    rw [← hsum, Segment.cachedAfter, hsame.divisionMask, hsame.indexNum, hsame.cacheDataSize]
    exact Finset.sum_le_sum_of_subset (by decide)
  omega

end Zevent.Cache

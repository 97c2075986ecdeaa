/-
# Room for a new entry (`zcache_shmcb.c`)

`shmcb_insert_internal` needs two things, free bytes and a free index entry, and makes room
for the first only: it scrolls entries out when bytes are missing, never the last one, and
looks at the index afterwards.  `RoomFor` is the exact condition on the division under which
it succeeds (`insert_succeeds_iff`).

Entries are scrolled out before the last checks, so a store that fails may have dropped
entries nobody removed; `failed_store_keeps_iff` says exactly when it has not.
-/
import Zevent.Cache.LastWrite

namespace Zevent.Cache

open RingBuffer Division Interleaving

/-! ## What an insertion finds -/

namespace Division

variable {n m : ℕ} {d : Division}

/-- The entries an expiry at time `now` leaves. -/
def fresh (n : ℕ) (d : Division) (now : ℤ) : List SHMCBIndex :=
  (d.live n).dropWhile fun e => decide (e.expires ≤ now)

/-- The number of entries an expiry at time `now` drops. -/
def expired (n : ℕ) (d : Division) (now : ℤ) : ℕ :=
  ((d.live n).takeWhile fun e => decide (e.expires ≤ now)).length

/-- The bytes that count as used after an expiry at time `now`. -/
def freshBytes (n m : ℕ) (d : Division) (now : ℤ) : ℕ :=
  if d.fresh n now = [] then 0
  else d.cacheCount - total ((d.regions n).take (d.expired n now)) % m

/-- The bytes that count as freed when the first `k` of those entries go: the space between
two offsets, which is zero also for a full turn. -/
def freed (n m : ℕ) (d : Division) (now : ℤ) (k : ℕ) : ℕ :=
  total (((d.fresh n now).map SHMCBIndex.region).take k) % m

/-- An entry of `nlen` bytes finds room: its bytes are free and the index is not full, or
its bytes are not free but dropping some of the entries, not all, frees enough. -/
def RoomFor (n m : ℕ) (d : Division) (now : ℤ) (nlen : ℕ) : Prop :=
  (d.freshBytes n m now + nlen ≤ m ∧ (d.fresh n now).length < n)
    ∨ (m < d.freshBytes n m now + nlen ∧ ∃ k, 0 < k ∧ k < (d.fresh n now).length
        ∧ d.freshBytes n m now + nlen ≤ m + d.freed n m now k)

theorem drop_expired (n : ℕ) (d : Division) (now : ℤ) :
    (d.live n).drop (d.expired n now) = d.fresh n now := by
  rw [expired, fresh]
  induction d.live n with
  | nil => rfl
  | cons e l ih =>
      rw [List.takeWhile_cons, List.dropWhile_cons]
      split
      · rw [List.length_cons, List.drop_succ_cons, ih]
      · rfl

/-- The division an expiry leaves, in these terms. -/
theorem Rolled.fresh_eq {d₀ : Division} {now : ℤ} {j : ℕ} (hroll : Rolled n m j d d₀)
    (hj : j = d.expired n now)
    (hbytes : d₀.cacheCount = if j = d.queueCount then 0
      else d.cacheCount - total ((d.regions n).take j) % m) :
    d₀.live n = d.fresh n now ∧ d₀.cacheCount = d.freshBytes n m now := by
  have hlive : d₀.live n = d.fresh n now := by rw [hroll.live_eq, hj, drop_expired]
  refine ⟨hlive, ?_⟩
  have hle : j ≤ d.queueCount := hj ▸ length_takeWhile_live_le ..
  have hempty : d.fresh n now = [] ↔ j = d.queueCount := by
    rw [← hlive, ← List.length_eq_zero_iff, length_live, hroll.queueCount_eq]
    omega
  rw [hbytes, freshBytes, hj]
  simp only [hempty, hj]

end Division

section Insertion

variable {h : SHMCBHeader} {d d' : Division}

theorem i32_eq {x : ℤ} (hlow : -2147483648 ≤ x) (hhigh : x < 2147483648) : i32 x = x := by
  rw [i32]
  omega

/-- The need of the scrolling loop, without the machine integers. -/
theorem scrollNeedAt_eq (hg : h.Geometry) (hd : d.Wf h.indexNum h.cacheDataSize) {nlen j : ℕ}
    (hlen : nlen < 2147483648) (hj : j < d.queueCount) :
    scrollNeedAt h d nlen j = (d.cacheCount + nlen : ℤ) - h.cacheDataSize
      - (total ((d.regions h.indexNum).take j) % h.cacheDataSize : ℕ) := by
  have hsize := hg.cacheDataSize_lt
  have hcache := hd.cacheCount_le
  have htake := (Nat.mod_le _ h.cacheDataSize).trans (hd.total_take_le j)
  have hgap : u32 ((h.cacheDataSize : ℤ) - d.cacheCount) = h.cacheDataSize - d.cacheCount :=
    u32_eq (by omega) (by omega)
  rw [scrollNeedAt, hgap]
  rw [i32_eq (by omega : -2147483648 ≤ (nlen : ℤ)) (by omega),
    i32_eq (by omega : -2147483648 ≤ ((h.cacheDataSize - d.cacheCount : ℕ) : ℤ)) (by omega)]
  split
  · rename_i hzero
    rw [hzero, List.take_zero, total_nil, Nat.zero_mod]
    omega
  · rw [scrollNeed, hd.cyclicSpace_eq hg hj,
      i32_eq (by omega : -2147483648 ≤ (nlen : ℤ)) (by omega),
      i32_eq (by omega : -2147483648 ≤ ((h.cacheDataSize - d.cacheCount : ℕ) : ℤ)) (by omega),
      i32_eq (by omega) (by omega)]
    omega

/-- How far an insertion scrolls: not at all when the bytes are free, and else up to the
first entry that frees enough, or to the last one. -/
theorem Scrolled.bytes {nlen k : ℕ} (hs : Scrolled h nlen k d d') (hg : h.Geometry)
    (hd : d.Wf h.indexNum h.cacheDataSize) (hlen : nlen < 2147483648) :
    (d.cacheCount + nlen ≤ h.cacheDataSize → k = 0)
    ∧ (h.cacheDataSize < d.cacheCount + nlen → k < d.queueCount - 1 →
        d.cacheCount + nlen ≤ h.cacheDataSize
          + total ((d.regions h.indexNum).take k) % h.cacheDataSize)
    ∧ ∀ j < k, h.cacheDataSize + total ((d.regions h.indexNum).take j) % h.cacheDataSize
        < d.cacheCount + nlen := by
  have hsize := hg.cacheDataSize_lt
  have hcache := hd.cacheCount_le
  have hle := hs.le
  have hgap : u32 ((h.cacheDataSize : ℤ) - d.cacheCount) = h.cacheDataSize - d.cacheCount :=
    u32_eq (by omega) (by omega)
  refine ⟨fun hfree => ?_, fun hmissing hlt => ?_, fun j hj => ?_⟩
  · exact hs.free (by rw [hgap]; omega)
  · have hneed := hs.enough (by rw [hgap]; omega) hlt
    rw [scrollNeedAt_eq hg hd hlen (by omega)] at hneed
    omega
  · have hneed := hs.needed j hj
    rw [scrollNeedAt_eq hg hd hlen (by omega)] at hneed
    omega

/-- The two checks before the new entry is written. -/
theorem appendEntry_ok_iff (hg : h.Geometry) (hd : d.Wf h.indexNum h.cacheDataSize)
    (id : List UInt8) {pdata : List UInt8} (hlen : pdata.length < 2147483648) (expiryTime : ℤ) :
    (appendEntry h d id pdata expiryTime).2 = true
      ↔ d.cacheCount + pdata.length ≤ h.cacheDataSize ∧ d.queueCount < h.indexNum := by
  have hsize := hg.cacheDataSize_lt
  have hcache := hd.cacheCount_le
  have hcount := hd.queueCount_le
  have hsum : u32 ((d.cacheCount : ℤ) + pdata.length) = d.cacheCount + pdata.length :=
    u32_eq (by push_cast; rfl) (by omega)
  rw [appendEntry]
  simp only [hsum]
  split_ifs with hbig hfull
  · simp only [false_iff]
    omega
  · simp only [false_iff]
    omega
  · have hnum := hg.indexNum_lt
    have hfirst := hd.queueFirst_lt
    rw [shmcbCyclicIncrement_eq hg.indexNum_pos (by omega), shmcbGetIndex_mod hg]
    simp only [true_iff]
    omega

/-- **What an insertion does**: it succeeds exactly when there is room, and when it fails it
has scrolled out nothing if the bytes were free, and else all entries but the last. -/
theorem shmcbInsertInternal_room (hg : h.Geometry) (hd : d.Wf h.indexNum h.cacheDataSize)
    (id : List UInt8) {pdata : List UInt8} (hlen : pdata.length < 2147483648)
    (expiryTime now : ℤ) :
    ∃ h' d' ok, shmcbInsertInternal h d id pdata expiryTime now = some (h', d', ok)
      ∧ (ok = true ↔ d.RoomFor h.indexNum h.cacheDataSize now pdata.length)
      ∧ (ok = false → d'.data = d.data
          ∧ d'.live h.indexNum = (d.fresh h.indexNum now).drop
            (if d.freshBytes h.indexNum h.cacheDataSize now + pdata.length ≤ h.cacheDataSize
              then 0 else (d.fresh h.indexNum now).length - 1)) := by
  obtain ⟨j, d₀, k, d₁, hroll₀, hj, hbytes₀, hscrolled, hins⟩ :=
    shmcbInsertInternal_eq hg hd id pdata expiryTime now
  obtain ⟨hlive₀, hcache₀⟩ := hroll₀.fresh_eq hj hbytes₀
  obtain ⟨hfree, henough, hneeded⟩ := hscrolled.bytes hg hroll₀.wf hlen
  have hroll := hscrolled.rolled
  have hle := hscrolled.le
  have hcount₀ : d₀.queueCount = (d.fresh h.indexNum now).length := by
    rw [← hlive₀, length_live]
  have hcount₁ := hroll.queueCount_eq
  have hcache₁ := hscrolled.cacheCount_eq
  have hbound := hroll₀.wf.queueCount_le
  have hfreed : ∀ i, total ((d₀.regions h.indexNum).take i) % h.cacheDataSize
      = d.freed h.indexNum h.cacheDataSize now i := by
    intro i
    rw [regions, hlive₀, freed]
  have htake := (Nat.mod_le _ h.cacheDataSize).trans (hroll₀.wf.total_take_le k)
  have hzero : d.freed h.indexNum h.cacheDataSize now 0 = 0 := by simp [freed]
  simp only [hfreed, hcache₀, hcount₀] at *
  have hok := appendEntry_ok_iff hg hroll.wf id hlen expiryTime
  rw [hcount₁, hcache₁] at hok
  -- when the bytes are not free, the loop goes on until they are, or to the last entry
  have hstop : h.cacheDataSize < d.freshBytes h.indexNum h.cacheDataSize now + pdata.length →
      (∃ i, 0 < i ∧ i < (d.fresh h.indexNum now).length
        ∧ d.freshBytes h.indexNum h.cacheDataSize now + pdata.length
          ≤ h.cacheDataSize + d.freed h.indexNum h.cacheDataSize now i) →
      d.freshBytes h.indexNum h.cacheDataSize now + pdata.length
        ≤ h.cacheDataSize + d.freed h.indexNum h.cacheDataSize now k := by
    rintro hmissing ⟨i, -, hi, hroom⟩
    rcases Nat.lt_or_ge k ((d.fresh h.indexNum now).length - 1) with hlt | hlast
    · exact henough hmissing hlt
    · have hik : i = k := by
        rcases Nat.lt_or_ge i k with hik | hik
        · have := hneeded i hik
          omega
        · omega
      rw [← hik]
      exact hroom
  have hpos : h.cacheDataSize < d.freshBytes h.indexNum h.cacheDataSize now + pdata.length →
      d.freshBytes h.indexNum h.cacheDataSize now + pdata.length
        ≤ h.cacheDataSize + d.freed h.indexNum h.cacheDataSize now k → 0 < k := by
    intro hmissing hroom
    refine Nat.pos_of_ne_zero fun hk => ?_
    rw [hk, hzero] at hroom
    omega
  have hiff : (appendEntry h d₁ id pdata expiryTime).2 = true
      ↔ d.RoomFor h.indexNum h.cacheDataSize now pdata.length := by
    rw [hok, RoomFor]
    constructor
    · rintro ⟨hfits, hindex⟩
      rcases Nat.lt_or_ge h.cacheDataSize
        (d.freshBytes h.indexNum h.cacheDataSize now + pdata.length) with hmissing | hall
      · have hk := hpos hmissing (by omega)
        exact .inr ⟨hmissing, k, hk, by omega, by omega⟩
      · rw [hfree hall] at hindex
        exact .inl ⟨hall, by omega⟩
    · rintro (⟨hall, hindex⟩ | ⟨hmissing, hexists⟩)
      · rw [hfree hall, hzero]
        omega
      · have hroom := hstop hmissing hexists
        have hk := hpos hmissing hroom
        omega
  refine ⟨_, (appendEntry h d₁ id pdata expiryTime).1, (appendEntry h d₁ id pdata expiryTime).2,
    hins, hiff, fun hfail => ?_⟩
  rcases appendEntry_spec hg hroll.wf id hlen expiryTime with heq | ⟨d', heq, -⟩
  · rw [heq]
    refine ⟨hroll.data_eq.trans hroll₀.data_eq, ?_⟩
    rw [hroll.live_eq, hlive₀]
    congr 1
    split
    · rename_i hall
      exact hfree hall
    · rename_i hmissing
      by_contra hne
      have hroom := henough (by omega) (by omega)
      have hk := hpos (by omega) hroom
      have hsuccess := hok.mpr ⟨by omega, by omega⟩
      rw [hfail] at hsuccess
      cases hsuccess
  · rw [heq] at hfail
    cases hfail

end Insertion

/-! ## Stores that succeed -/

/-- **When a store that fits succeeds.**  In every state of every run, an insertion of up to
`cache_data_size` bytes into a division returns `TRUE` exactly when there is room: after the
leading entries that have expired are gone, the bytes are free and so is an index entry, or
they are not free and dropping some of the other entries, not all, frees them. -/
theorem insert_succeeds_iff {s₀ s : Session} (h₀ : s₀.Initial)
    (h : Reach Session.step Always s₀ s) {i : ℕ} (hi : i ≤ s.seg.header.divisionMask)
    (id : List UInt8) {pdata : List UInt8}
    (hfits : pdata.length ≤ s.seg.header.cacheDataSize) (expiryTime now : ℤ) :
    (∃ h' d', shmcbInsertInternal s.seg.header (s.seg.division i) id pdata expiryTime now
        = some (h', d', true))
      ↔ (s.seg.division i).RoomFor s.seg.header.indexNum s.seg.header.cacheDataSize now
          pdata.length := by
  have hinv := Session.Inv.of_reach h₀ h
  have hsize := hinv.geometry.cacheDataSize_lt
  obtain ⟨h', d', ok, hins, hok, -⟩ := shmcbInsertInternal_room hinv.geometry (hinv.wf i hi) id
    (by omega : pdata.length < 2147483648) expiryTime now
  rw [← hok, hins]
  constructor
  · rintro ⟨h'', d'', heq⟩
    rw [Option.some.injEq, Prod.mk.injEq, Prod.mk.injEq] at heq
    exact heq.2.2
  · rintro rfl
    exact ⟨h', d', rfl⟩

/-- 400 bytes of 464 are used, and dropping the older of the two entries makes room. -/
theorem insert_succeeds_iff_scrolled :
    ∃ s, Reach Session.step Always freshSession s ∧ (s.seg.division 0).cacheCount = 400
      ∧ ∃ h' d', shmcbInsertInternal s.seg.header (s.seg.division 0) [3] (List.replicate 100 0)
        100 0 = some (h', d', true) := by
  have hrun : (run Session.step Always freshSession
      [.store [1] ⟨List.replicate 250 0, by rw [List.length_replicate]; decide⟩ 100 0,
        .store [2] ⟨List.replicate 150 0, by rw [List.length_replicate]; decide⟩ 100 0]).map
      (fun s => ((s.seg.division 0).cacheCount, s.seg.header.cacheDataSize,
        (s.seg.division 0).freshBytes s.seg.header.indexNum s.seg.header.cacheDataSize 0,
        ((s.seg.division 0).fresh s.seg.header.indexNum 0).length,
        (s.seg.division 0).freed s.seg.header.indexNum s.seg.header.cacheDataSize 0 1))
      = some (400, 464, 400, 2, 250) := by
    decide +kernel
  obtain ⟨s, hs, hobs⟩ := Option.map_eq_some_iff.mp hrun
  simp only [Prod.mk.injEq] at hobs
  obtain ⟨hcount, hsize, hbytes, hlen, hfreed⟩ := hobs
  have hreach := Reach.refl.run _ hs
  have hdata : (List.replicate 100 (0 : UInt8)).length = 100 := List.length_replicate
  refine ⟨s, hreach, hcount, (insert_succeeds_iff freshSession_initial hreach (Nat.zero_le _) [3]
    (by omega) 100 0).mpr (.inr ⟨?_, 1, by decide, ?_, ?_⟩)⟩ <;> omega

/-- **A store that fits fails**: five entries of one byte fill the index, and the sixth is
refused though 459 bytes are free; and a payload of all 464 bytes is refused while one
other entry is there. -/
theorem fitting_store_refused :
    (∃ s, Reach Session.step Always freshSession s
        ∧ (s.seg.division 0).cacheCount = 5
        ∧ (shmcbInsertInternal s.seg.header (s.seg.division 0) [6] [6] 100 0).map (·.2.2)
          = some false)
      ∧ ∃ s, Reach Session.step Always freshSession s
        ∧ (s.seg.division 0).cacheCount = 1
        ∧ (shmcbInsertInternal s.seg.header (s.seg.division 0) [2] (List.replicate 464 0) 100
            0).map (·.2.2) = some false := by
  refine ⟨?_, ?_⟩
  · have hrun : (run Session.step Always freshSession
        [.store [1] ⟨[1], by decide⟩ 100 0, .store [2] ⟨[2], by decide⟩ 100 0,
          .store [3] ⟨[3], by decide⟩ 100 0, .store [4] ⟨[4], by decide⟩ 100 0,
          .store [5] ⟨[5], by decide⟩ 100 0]).map
        (fun s => ((s.seg.division 0).cacheCount,
          (shmcbInsertInternal s.seg.header (s.seg.division 0) [6] [6] 100 0).map (·.2.2)))
        = some (5, some false) := by
      decide +kernel
    obtain ⟨s, hs, hobs⟩ := Option.map_eq_some_iff.mp hrun
    rw [Prod.mk.injEq] at hobs
    exact ⟨s, Reach.refl.run _ hs, hobs⟩
  · have hrun : (run Session.step Always freshSession [.store [1] ⟨[1], by decide⟩ 100 0]).map
        (fun s => ((s.seg.division 0).cacheCount,
          (shmcbInsertInternal s.seg.header (s.seg.division 0) [2] (List.replicate 464 0) 100
            0).map (·.2.2)))
        = some (1, some false) := by
      decide +kernel
    obtain ⟨s, hs, hobs⟩ := Option.map_eq_some_iff.mp hrun
    rw [Prod.mk.injEq] at hobs
    exact ⟨s, Reach.refl.run _ hs, hobs⟩

/-! ## Stores that fail -/

/-- An entry that is not flagged and has not expired. -/
def SHMCBIndex.Findable (now : ℤ) (e : SHMCBIndex) : Prop := e.removed = false ∧ now < e.expires

instance (now : ℤ) (e : SHMCBIndex) : Decidable (e.Findable now) :=
  inferInstanceAs (Decidable (_ ∧ _))

/-- The entries of a division that are not flagged and have not expired, the oldest first,
each with the bytes a lookup copies out. -/
def Segment.findable (s : Segment) (i : ℕ) (now : ℤ) : List (SHMCBIndex × List UInt8) :=
  (((s.division i).live s.header.indexNum).filter fun e => decide (e.Findable now)).map
    fun e => (e, (s.division i).payload s.header.cacheDataSize e)

theorem filter_findable_fresh (n : ℕ) (d : Division) (now : ℤ) :
    (d.live n).filter (fun e => decide (e.Findable now))
      = (d.fresh n now).filter fun e => decide (e.Findable now) := by
  rw [fresh]
  induction d.live n with
  | nil => rfl
  | cons e l ih =>
      rw [List.dropWhile_cons]
      split
      · rename_i hexpired
        rw [List.filter_cons_of_neg, ih]
        rw [decide_eq_true_eq] at hexpired ⊢
        exact fun hfindable => absurd hfindable.2 (not_lt.mpr hexpired)
      · rfl

/-- A lookup finds the first findable entry with the key. -/
theorem find?_matches_fresh (n : ℕ) (d : Division) (key : UInt32) (now : ℤ) :
    (d.fresh n now).find? (fun e => decide (e.Matches key now))
      = ((d.live n).filter fun e => decide (e.Findable now)).find?
          fun e => decide (e.key = key) := by
  rw [filter_findable_fresh, List.find?_filter]
  congr 1
  funext e
  apply decide_eq_decide.mpr
  rw [decide_eq_true_eq, decide_eq_true_eq]
  constructor
  · rintro ⟨hkey, hremoved, hexpires⟩
    exact ⟨⟨hremoved, hexpires⟩, hkey⟩
  · rintro ⟨⟨hremoved, hexpires⟩, hkey⟩
    exact ⟨hkey, hremoved, hexpires⟩

theorem lookupResult_true (h : SHMCBHeader) (d : Division) (found : Option SHMCBIndex) :
    lookupResult h d true found
      = { len := found.map SHMCBIndex.length
          pdata := found.map fun e => d.payload h.cacheDataSize e } := by
  cases found <;> rfl

/-- **A retrieval depends on the findable entries only**: it returns the bytes of the first
of them with the hash of its id. -/
theorem Session.Inv.retrieve_findable {s : Session} (hinv : s.Inv) (id : List UInt8) (now : ℤ) :
    ∃ seg' len, s.seg.apply (.retrieve id now now true) = some (seg', .retrieved
      { len, pdata := ((s.seg.findable (maskedIndex s.seg.header id) now).find?
          fun p => decide (p.1.key = hash id 0)).map Prod.snd }) := by
  have hi := maskedIndex_le s.seg.header id
  obtain ⟨k, d', hlook, hroll, hk⟩ := shmcbLookupInternal_spec hinv.geometry (hinv.wf _ hi) id now
    now true
  have hfresh : d'.live s.seg.header.indexNum
      = (s.seg.division (maskedIndex s.seg.header id)).fresh s.seg.header.indexNum now := by
    rw [hroll.live_eq, hk, ← expired, drop_expired]
  have hdata : ∀ e, d'.payload s.seg.header.cacheDataSize e
      = (s.seg.division (maskedIndex s.seg.header id)).payload s.seg.header.cacheDataSize e :=
    fun e => by rw [payload, payload, hroll.data_eq]
  rw [hfresh, find?_matches_fresh, lookupResult_true] at hlook
  simp only [hdata] at hlook
  simp only [Segment.findable, List.find?_map, Option.map_map, Segment.apply, shmcbRetrieve,
    shmcbGetDivision_of_le hi, hlook, Option.map_some]
  exact ⟨_, _, rfl⟩

/-- What a store that fails has done to the findable entries of its division: those among
the entries it scrolled out are gone. -/
theorem Session.Inv.failed_store {s : Session} (hinv : s.Inv) {id : List UInt8} {pdata : Block}
    {timeout now : ℤ} {s' : Segment}
    (h : s.seg.apply (.store id pdata timeout now) = some (s', .stored false)) :
    s.seg.header.SameLayout s'.header
    ∧ (∀ i ≠ maskedIndex s.seg.header id, s'.division i = s.seg.division i)
    ∧ (s'.division (maskedIndex s.seg.header id)).data
      = (s.seg.division (maskedIndex s.seg.header id)).data
    ∧ ¬ (s.seg.division (maskedIndex s.seg.header id)).RoomFor s.seg.header.indexNum
        s.seg.header.cacheDataSize now pdata.bytes.length
    ∧ (s'.division (maskedIndex s.seg.header id)).live s.seg.header.indexNum
      = ((s.seg.division (maskedIndex s.seg.header id)).fresh s.seg.header.indexNum now).drop
          (if (s.seg.division (maskedIndex s.seg.header id)).freshBytes s.seg.header.indexNum
              s.seg.header.cacheDataSize now + pdata.bytes.length ≤ s.seg.header.cacheDataSize
            then 0
            else ((s.seg.division (maskedIndex s.seg.header id)).fresh s.seg.header.indexNum
              now).length - 1) := by
  have hi := maskedIndex_le s.seg.header id
  obtain ⟨s₁, res, i, d', happly, hsame, -⟩ :=
    Segment.apply_effect hinv.geometry hinv.wf (.store id pdata timeout now)
  rw [h, Option.some.injEq, Prod.mk.injEq] at happly
  obtain ⟨rfl, rfl⟩ := happly
  obtain ⟨h', d', ok, hins, hok, hfail⟩ := shmcbInsertInternal_room hinv.geometry (hinv.wf _ hi)
    id pdata.length_lt timeout now
  simp only [Segment.apply, shmcbStore, shmcbGetDivision_of_le hi, hins, Option.map_some,
    Option.some.injEq, Prod.mk.injEq, Result.stored.injEq] at h
  obtain ⟨hseg, rfl⟩ := h
  obtain ⟨hdata, hlive⟩ := hfail rfl
  subst hseg
  refine ⟨hsame, fun i hne => ?_, ?_, fun hroom => ?_, ?_⟩
  · exact Function.update_of_ne hne _ _
  · simp only [Function.update_self]
    exact hdata
  · exact absurd (hok.mpr hroom) (by simp)
  · simp only [Function.update_self]
    exact hlive

theorem filter_drop_eq_iff {α : Type*} (p : α → Bool) (l : List α) (k : ℕ) :
    (l.drop k).filter p = l.filter p ↔ ∀ a ∈ l.take k, p a = false := by
  conv_lhs =>
    rhs
    rw [← List.take_append_drop k l, List.filter_append]
  rw [List.self_eq_append_left, List.filter_eq_nil_iff]
  simp only [Bool.not_eq_true]

/-- What a store that fails leaves findable in its division. -/
theorem Session.Inv.failed_store_findable {s : Session} (hinv : s.Inv) {id : List UInt8}
    {pdata : Block} {timeout now : ℤ} {s' : Segment}
    (h : s.seg.apply (.store id pdata timeout now) = some (s', .stored false)) :
    (∀ i, s'.findable i now = s.seg.findable i now)
      ↔ (s.seg.division (maskedIndex s.seg.header id)).freshBytes s.seg.header.indexNum
            s.seg.header.cacheDataSize now + pdata.bytes.length ≤ s.seg.header.cacheDataSize
        ∨ ∀ e ∈ ((s.seg.division (maskedIndex s.seg.header id)).fresh s.seg.header.indexNum
            now).dropLast, e.removed = true ∨ e.expires ≤ now := by
  obtain ⟨hsame, hother, hdata, -, hlive⟩ := hinv.failed_store h
  -- an entry goes with its bytes, so the entries themselves can be compared
  have hentries : (∀ i, s'.findable i now = s.seg.findable i now)
      ↔ ((s'.division (maskedIndex s.seg.header id)).live s.seg.header.indexNum).filter
            (fun e => decide (e.Findable now))
          = ((s.seg.division (maskedIndex s.seg.header id)).fresh s.seg.header.indexNum
            now).filter fun e => decide (e.Findable now) := by
    rw [← filter_findable_fresh]
    constructor
    · intro hall
      have hone := congrArg (List.map Prod.fst) (hall (maskedIndex s.seg.header id))
      simp only [Segment.findable, hsame.indexNum, List.map_map] at hone
      simpa [Function.comp_def] using hone
    · intro hone i
      rw [Segment.findable, Segment.findable, hsame.indexNum, hsame.cacheDataSize]
      rcases eq_or_ne i (maskedIndex s.seg.header id) with rfl | hne
      · rw [hone]
        refine List.map_congr_left fun e _ => ?_
        rw [payload, payload, hdata]
      · rw [hother i hne]
  have hhidden : ∀ e : SHMCBIndex, decide (e.Findable now) = false
      ↔ (e.removed = true ∨ e.expires ≤ now) := by
    intro e
    rw [decide_eq_false_iff_not, SHMCBIndex.Findable]
    rcases Bool.eq_false_or_eq_true e.removed with hrem | hrem <;> simp [hrem]
  rw [hentries, hlive, filter_drop_eq_iff]
  split
  · rename_i hfree
    simp [hfree]
  · rename_i hmissing
    rw [← List.dropLast_eq_take]
    simp only [hhidden, hmissing, false_or]

/-- No entry that could be found is among those a failing store scrolls out. -/
def Division.SparesFindable (n m : ℕ) (d : Division) (now : ℤ) (nlen : ℕ) : Prop :=
  d.RoomFor n m now nlen ∨ d.freshBytes n m now + nlen ≤ m
    ∨ ∀ e ∈ (d.fresh n now).dropLast, e.removed = true ∨ e.expires ≤ now

/-- **When a failed store loses nothing.**  In every state of every run, a store of up to
`2^31 - 1` bytes, if it returns `FALSE`, leaves every entry that was neither flagged nor
expired in the queue with its bytes, and every id with what a retrieval returns for it,
exactly when there was room, or the bytes were free and only the index was full, or all
unexpired entries but the last had been removed. -/
theorem failed_store_keeps_iff {s₀ s : Session} (h₀ : s₀.Initial)
    (h : Reach Session.step Always s₀ s) (id : List UInt8) (pdata : Block) (timeout now : ℤ) :
    (∀ s', s.seg.apply (.store id pdata timeout now) = some (s', .stored false) →
        (∀ i, s'.findable i now = s.seg.findable i now)
        ∧ ∀ id' seg res seg' res',
            s.seg.apply (.retrieve id' now now true) = some (seg, .retrieved res) →
            s'.apply (.retrieve id' now now true) = some (seg', .retrieved res') →
            res'.pdata = res.pdata)
      ↔ (s.seg.division (maskedIndex s.seg.header id)).SparesFindable s.seg.header.indexNum
          s.seg.header.cacheDataSize now pdata.bytes.length := by
  have hinv := Session.Inv.of_reach h₀ h
  have hi := maskedIndex_le s.seg.header id
  obtain ⟨h', d', ok, hins, hok, -⟩ := shmcbInsertInternal_room hinv.geometry (hinv.wf _ hi) id
    pdata.length_lt timeout now
  rw [Division.SparesFindable, ← hok]
  cases ok with
  | true =>
      have happly : ∃ s', s.seg.apply (.store id pdata timeout now) = some (s', .stored true) := by
        simp only [Segment.apply, shmcbStore, shmcbGetDivision_of_le hi, hins, Option.map_some]
        exact ⟨_, rfl⟩
      obtain ⟨s₁, happly⟩ := happly
      refine ⟨fun _ => .inl rfl, fun _ s' hs' => ?_⟩
      rw [happly] at hs'
      simp at hs'
  | false =>
      have happly : ∃ s', s.seg.apply (.store id pdata timeout now) = some (s', .stored false) := by
        simp only [Segment.apply, shmcbStore, shmcbGetDivision_of_le hi, hins, Option.map_some]
        exact ⟨_, rfl⟩
      obtain ⟨s₁, happly⟩ := happly
      simp only [Bool.false_eq_true, false_or]
      rw [← hinv.failed_store_findable happly]
      constructor
      · intro hall
        exact (hall s₁ happly).1
      · intro hkept s' hs'
        obtain rfl : s₁ = s' := by
          rw [happly] at hs'
          simpa using hs'
        refine ⟨hkept, fun id' seg res seg' res' hbefore hafter => ?_⟩
        -- a retrieval depends on the findable entries only
        obtain ⟨hsame, -⟩ := hinv.failed_store happly
        have hstep : s.step (.store id pdata timeout now) = some ⟨s₁, s.log ++ [], now⟩ := by
          rw [Session.step, happly]
          rfl
        obtain ⟨seg₂, len, hret⟩ := hinv.retrieve_findable id' now
        obtain ⟨seg₃, len', hret'⟩ := (hinv.step hstep).retrieve_findable id' now
        rw [hbefore] at hret
        rw [hafter, maskedIndex, hsame.divisionMask, ← maskedIndex, hkept] at hret'
        simp only [Option.some.injEq, Prod.mk.injEq, Result.retrieved.injEq] at hret hret'
        rw [hret.2, hret'.2]

/-- Whether a store succeeds, when it returns. -/
def Session.stores (s : Session) (id : List UInt8) (pdata : Block) (timeout now : ℤ) :
    Option Bool :=
  (s.seg.apply (.store id pdata timeout now)).bind fun r =>
    match r.2 with
    | .stored ok => some ok
    | _ => none

theorem Session.apply_of_stores {s : Session} {id : List UInt8} {pdata : Block} {timeout now : ℤ}
    {ok : Bool} (h : s.stores id pdata timeout now = some ok) :
    ∃ s', s.seg.apply (.store id pdata timeout now) = some (s', .stored ok) := by
  rw [Session.stores, Option.bind_eq_some_iff] at h
  obtain ⟨⟨s', res⟩, happly, hres⟩ := h
  cases res with
  | stored ok' =>
      obtain rfl := Option.some.inj hres
      exact ⟨s', happly⟩
  | _ => cases hres

/-- A store into a full index fails and loses nothing. -/
theorem failed_store_keeps_iff_full_index :
    ∃ s s', Reach Session.step Always freshSession s
      ∧ s.seg.apply (.store [6] ⟨[6], by decide⟩ 100 0) = some (s', .stored false)
      ∧ ∀ i, s'.findable i 0 = s.seg.findable i 0 := by
  have hrun : (run Session.step Always freshSession
      [.store [1] ⟨[1], by decide⟩ 100 0, .store [2] ⟨[2], by decide⟩ 100 0,
        .store [3] ⟨[3], by decide⟩ 100 0, .store [4] ⟨[4], by decide⟩ 100 0,
        .store [5] ⟨[5], by decide⟩ 100 0]).map
      (fun s => (decide ((s.seg.division (maskedIndex s.seg.header [6])).freshBytes
          s.seg.header.indexNum s.seg.header.cacheDataSize 0 + 1 ≤ s.seg.header.cacheDataSize),
        s.stores [6] ⟨[6], by decide⟩ 100 0))
      = some (true, some false) := by
    decide +kernel
  obtain ⟨s, hs, hobs⟩ := Option.map_eq_some_iff.mp hrun
  rw [Prod.mk.injEq, decide_eq_true_eq] at hobs
  obtain ⟨hfree, hfails⟩ := hobs
  obtain ⟨s', happly⟩ := Session.apply_of_stores hfails
  have hreach := Reach.refl.run _ hs
  exact ⟨s, s', hreach, happly, ((failed_store_keeps_iff freshSession_initial hreach [6]
    ⟨[6], by decide⟩ 100 0).mpr (.inr (.inl hfree)) s' happly).1⟩

/-- **A failed store loses entries**: a payload of 465 bytes can never be stored, and the
attempt scrolls out an entry that a retrieval had found. -/
theorem failed_store_loses :
    ∃ s s', Reach Session.step Always freshSession s ∧ s.found [1] 0 = some (some [11])
      ∧ s.stores [3] ⟨List.replicate 465 0, by rw [List.length_replicate]; decide⟩ 100 0
        = some false
      ∧ s.step (.store [3] ⟨List.replicate 465 0, by rw [List.length_replicate]; decide⟩ 100 0)
        = some s'
      ∧ s'.found [1] 0 = some none := by
  have hrun : (run Session.step Always freshSession
      [.store [1] ⟨[11], by decide⟩ 100 0, .store [2] ⟨[22], by decide⟩ 100 0]).map
      (fun s => (s.found [1] 0,
        s.stores [3] ⟨List.replicate 465 0, by rw [List.length_replicate]; decide⟩ 100 0,
        (s.step (.store [3] ⟨List.replicate 465 0, by rw [List.length_replicate]; decide⟩ 100
          0)).map fun s => s.found [1] 0))
      = some (some (some [11]), some false, some (some none)) := by
    decide +kernel
  obtain ⟨s, hs, hobs⟩ := Option.map_eq_some_iff.mp hrun
  rw [Prod.mk.injEq, Prod.mk.injEq, Option.map_eq_some_iff] at hobs
  obtain ⟨hfound, hfails, s', hs', hlost⟩ := hobs
  exact ⟨s, s', Reach.refl.run _ hs, hfound, hfails, hs', hlost⟩

end Zevent.Cache

/-
# The bytes that are freed (`zcache_shmcb.c`)

`shmcb_expire_division` and `shmcb_insert_internal` find how many bytes the entries they drop
held from two offsets, with `shmcb_cyclic_space`, which takes a full turn of the ring for none
at all.  A comment has it that the ambiguous case cannot arise; it arises when the dropped
entries fill the ring and the ones that are left are empty.

`Segment.Unambiguous` is the condition on a call that this does not happen.  As long as it
holds of every call, the byte count of every division is the sum of the lengths of its
entries (`Segment.Exact`), and whether the next call frees what it should is exactly whether
it meets the condition (`freed_exactly_iff`).
-/
import Zevent.Cache.Room

namespace Zevent.Cache

open RingBuffer Division Interleaving

/-- The bytes of some entries. -/
def bytesOf (l : List SHMCBIndex) : ℕ := (l.map SHMCBIndex.length).sum

@[simp] theorem bytesOf_nil : bytesOf [] = 0 := rfl

@[simp] theorem bytesOf_append (l l' : List SHMCBIndex) :
    bytesOf (l ++ l') = bytesOf l + bytesOf l' := by
  rw [bytesOf, List.map_append, List.sum_append]
  rfl

theorem bytesOf_take_add_drop (l : List SHMCBIndex) (k : ℕ) :
    bytesOf (l.take k) + bytesOf (l.drop k) = bytesOf l := by
  rw [← bytesOf_append, List.take_append_drop]

theorem total_region (l : List SHMCBIndex) : total (l.map SHMCBIndex.region) = bytesOf l := by
  rw [total, List.map_map]
  rfl

theorem total_take_regions (n : ℕ) (d : Division) (k : ℕ) :
    total ((d.regions n).take k) = bytesOf ((d.live n).take k) := by
  rw [Division.regions, ← List.map_take, total_region]

/-! ## What the drops subtract -/

/-- The expiry subtracts the bytes of the entries it drops. -/
def ExpiryExact (h : SHMCBHeader) (d : Division) (now : ℤ) : Prop :=
  ∀ h' d' k, shmcbExpireDivision h d now = some (h', d', k) →
    (d.cacheCount : ℤ) - d'.cacheCount = bytesOf ((d.live h.indexNum).take k)

/-- The scrolling subtracts the bytes of the entries it drops. -/
def ScrollExact (h : SHMCBHeader) (d : Division) (nlen : ℕ) : Prop :=
  ∀ h' d', scrollDivision h d nlen = some (h', d') →
    (d.cacheCount : ℤ) - d'.cacheCount
      = bytesOf ((d.live h.indexNum).take (h'.numScrolled - h.numScrolled))

/-- Every drop a call makes is exact: the expiry every call but a removal that hits begins
with, and the scrolling of a store after it. -/
def Segment.DropsExactly (s : Segment) : Op → Prop
  | .store id pdata _ now =>
      ExpiryExact s.header (s.division (maskedIndex s.header id)) now
        ∧ ∀ h d k, shmcbExpireDivision s.header (s.division (maskedIndex s.header id)) now
            = some (h, d, k) → ScrollExact h d pdata.bytes.length
  | .retrieve id now _ _ => ExpiryExact s.header (s.division (maskedIndex s.header id)) now
  | .remove none _ => True
  | .remove (some id) now =>
      removeScan s.header (s.division (maskedIndex s.header id)) (hash id 0)
          (s.division (maskedIndex s.header id)).queueCount
          (s.division (maskedIndex s.header id)).queueFirst = some none →
        ExpiryExact s.header (s.division (maskedIndex s.header id)) now
  | .expire idx now => idx ≤ s.header.divisionMask → ExpiryExact s.header (s.division idx) now

/-! ## When they are exact -/

/-- The entries that have expired do not fill the ring while another entry is left. -/
def ExpiryClear (n m : ℕ) (d : Division) (now : ℤ) : Prop :=
  d.fresh n now ≠ [] → bytesOf ((d.live n).take (d.expired n now)) < m

/-- When leading entries, not all, fill the ring, fewer of them free the bytes of the new
entry. -/
def ScrollClear (m : ℕ) (l : List SHMCBIndex) (nlen : ℕ) : Prop :=
  ∀ k < l.length, bytesOf (l.take k) = m → ∃ j < k, nlen ≤ bytesOf (l.take j)

instance (n m : ℕ) (d : Division) (now : ℤ) : Decidable (ExpiryClear n m d now) :=
  inferInstanceAs (Decidable (_ → _))

instance (m : ℕ) (l : List SHMCBIndex) (nlen : ℕ) : Decidable (ScrollClear m l nlen) :=
  inferInstanceAs (Decidable (∀ k < l.length, _ → _))

/-- The condition on a call: in the division it works on, the entries it drops do not fill
the ring while others are left. -/
def Segment.Unambiguous (s : Segment) : Op → Prop
  | .store id pdata _ now =>
      ExpiryClear s.header.indexNum s.header.cacheDataSize
          (s.division (maskedIndex s.header id)) now
        ∧ ScrollClear s.header.cacheDataSize
            ((s.division (maskedIndex s.header id)).fresh s.header.indexNum now)
            pdata.bytes.length
  | .retrieve id now _ _ =>
      ExpiryClear s.header.indexNum s.header.cacheDataSize
        (s.division (maskedIndex s.header id)) now
  | .remove none _ => True
  | .remove (some id) now =>
      (∀ e ∈ (s.division (maskedIndex s.header id)).live s.header.indexNum,
          e.key ≠ hash id 0) →
        ExpiryClear s.header.indexNum s.header.cacheDataSize
          (s.division (maskedIndex s.header id)) now
  | .expire idx now => idx ≤ s.header.divisionMask →
      ExpiryClear s.header.indexNum s.header.cacheDataSize (s.division idx) now

/-- The byte count of a division is the sum of the lengths of its entries. -/
def Division.Exact (n : ℕ) (d : Division) : Prop := d.cacheCount = bytesOf (d.live n)

section Drops

variable {h : SHMCBHeader} {d : Division}

/-- **The expiry is exact exactly when the condition holds**, and keeps the count exact
then. -/
theorem expiryExact_iff (hg : h.Geometry) (hd : d.Wf h.indexNum h.cacheDataSize)
    (hexact : d.Exact h.indexNum) (now : ℤ) :
    (ExpiryExact h d now ↔ ExpiryClear h.indexNum h.cacheDataSize d now)
      ∧ (ExpiryClear h.indexNum h.cacheDataSize d now → ∀ h' d' k,
          shmcbExpireDivision h d now = some (h', d', k) → d'.Exact h.indexNum) := by
  obtain ⟨k, d', hexp, hroll, hk, hbytes⟩ := shmcbExpireDivision_spec hg hd now
  have hle : k ≤ d.queueCount := hk ▸ length_takeWhile_live_le ..
  have hsplit := bytesOf_take_add_drop (d.live h.indexNum) k
  have hcount := hd.cacheCount_le
  rw [Division.Exact] at hexact
  rw [total_take_regions] at hbytes
  have hfresh : d.fresh h.indexNum now = [] ↔ k = d.queueCount := by
    rw [← drop_expired, Division.expired, ← hk, List.drop_eq_nil_iff, length_live]
    omega
  have hall : k = d.queueCount →
      bytesOf ((d.live h.indexNum).take k) = bytesOf (d.live h.indexNum) := by
    intro heq
    rw [List.take_of_length_le (by rw [length_live, heq])]
  -- what is subtracted is the sum, short of a full turn
  have hsub : d.cacheCount = d'.cacheCount + bytesOf ((d.live h.indexNum).take k)
      ↔ (k ≠ d.queueCount → bytesOf ((d.live h.indexNum).take k) < h.cacheDataSize) := by
    rw [hbytes]
    split_ifs with heq
    · have htake := hall heq
      simp only [ne_eq, heq, not_true_eq_false, false_implies, iff_true] at htake ⊢
      omega
    · simp only [ne_eq, heq, not_false_eq_true, true_implies]
      rcases Nat.lt_or_ge (bytesOf ((d.live h.indexNum).take k)) h.cacheDataSize with hlt | hge
      · rw [Nat.mod_eq_of_lt hlt]
        omega
      · have hfull : bytesOf ((d.live h.indexNum).take k) = h.cacheDataSize := by omega
        have hpos := hg.cacheDataSize_pos
        rw [hfull, Nat.mod_self]
        omega
  have hclear : ExpiryClear h.indexNum h.cacheDataSize d now
      ↔ (k ≠ d.queueCount → bytesOf ((d.live h.indexNum).take k) < h.cacheDataSize) := by
    rw [ExpiryClear, Division.expired, ← hk, ne_eq, hfresh]
  constructor
  · rw [hclear, ← hsub, ExpiryExact, hexp]
    constructor
    · intro hevery
      have hsubtracted := hevery _ _ _ rfl
      omega
    · intro heq h' d'' k' hres
      rw [Option.some_inj, Prod.mk.injEq, Prod.mk.injEq] at hres
      obtain ⟨-, rfl, rfl⟩ := hres
      omega
  · intro hcond h' d'' k' hres
    rw [hexp, Option.some_inj, Prod.mk.injEq, Prod.mk.injEq] at hres
    obtain ⟨-, rfl, rfl⟩ := hres
    have heq := hsub.mpr (hclear.mp hcond)
    rw [Division.Exact, hroll.live_eq]
    omega

/-- When leading entries that fill the ring are passed by, fewer of them, of fewer bytes
than the ring has, free enough. -/
theorem ScrollClear.exists_lt {m nlen k : ℕ} {l : List SHMCBIndex} (hclear : ScrollClear m l nlen)
    (htotal : bytesOf l ≤ m) (hk : k < l.length) (hfull : bytesOf (l.take k) = m) :
    ∃ j < k, nlen ≤ bytesOf (l.take j) ∧ bytesOf (l.take j) < m := by
  induction k using Nat.strong_induction_on with
  | _ k ih =>
      obtain ⟨j, hj, hfree⟩ := hclear k hk hfull
      have hsplit := bytesOf_take_add_drop l j
      rcases Nat.lt_or_ge (bytesOf (l.take j)) m with hlt | hge
      · exact ⟨j, hj, hfree, hlt⟩
      · obtain ⟨i, hi, hfree', hlt⟩ := ih j hj (by omega) (by omega)
        exact ⟨i, by omega, hfree', hlt⟩

/-- **The scrolling is exact exactly when the condition holds**, and keeps the count exact
then. -/
theorem scrollExact_iff (hg : h.Geometry) (hd : d.Wf h.indexNum h.cacheDataSize)
    (hexact : d.Exact h.indexNum) {nlen : ℕ} (hlen : nlen < 2147483648) :
    (ScrollExact h d nlen ↔ ScrollClear h.cacheDataSize (d.live h.indexNum) nlen)
      ∧ (ScrollClear h.cacheDataSize (d.live h.indexNum) nlen → ∀ h' d',
          scrollDivision h d nlen = some (h', d') → d'.Exact h.indexNum) := by
  obtain ⟨k, d', hscroll, hscrolled⟩ := scrollDivision_spec hg hd nlen
  obtain ⟨hfree, henough, hneeded⟩ := hscrolled.bytes hg hd hlen
  have hroll := hscrolled.rolled
  have hbytes := hscrolled.cacheCount_eq
  have hle := hscrolled.le
  have hpos := hg.cacheDataSize_pos
  have hcount := hd.cacheCount_le
  have hsplit := bytesOf_take_add_drop (d.live h.indexNum) k
  rw [Division.Exact] at hexact
  simp only [total_take_regions] at hbytes henough hneeded
  have hlength : (d.live h.indexNum).length = d.queueCount := length_live ..
  -- what is subtracted is the sum, short of a full turn
  have hsub : d.cacheCount = d'.cacheCount + bytesOf ((d.live h.indexNum).take k)
      ↔ bytesOf ((d.live h.indexNum).take k) < h.cacheDataSize := by
    rw [hbytes]
    rcases Nat.lt_or_ge (bytesOf ((d.live h.indexNum).take k)) h.cacheDataSize with hlt | hge
    · rw [Nat.mod_eq_of_lt hlt]
      omega
    · have hfull : bytesOf ((d.live h.indexNum).take k) = h.cacheDataSize := by omega
      rw [hfull, Nat.mod_self]
      omega
  have hclear : ScrollClear h.cacheDataSize (d.live h.indexNum) nlen
      ↔ bytesOf ((d.live h.indexNum).take k) < h.cacheDataSize := by
    constructor
    · intro hcond
      by_contra hge
      have hk : k < (d.live h.indexNum).length := by
        rcases Nat.eq_zero_or_pos k with rfl | hk
        · rw [List.take_zero, bytesOf_nil] at hge
          omega
        · omega
      obtain ⟨j, hj, henough', hlt⟩ := hcond.exists_lt (by omega) hk (by omega)
      have hmissing := hneeded j hj
      rw [Nat.mod_eq_of_lt hlt] at hmissing
      omega
    · intro hlt i hi hfull
      by_contra hnone
      push Not at hnone
      have hsplit' := bytesOf_take_add_drop (d.live h.indexNum) i
      have hlast := bytesOf_take_add_drop ((d.live h.indexNum).take k) i
      rw [List.take_take] at hlast
      -- the loop cannot stop before it has passed the entries that fill the ring
      have hki : k < i := by
        by_contra hik
        rw [min_eq_left (by omega)] at hlast
        omega
      have hmissing := hnone k hki
      have hstop : nlen ≤ h.cacheDataSize - d.cacheCount
          ∨ nlen ≤ bytesOf ((d.live h.indexNum).take k) % h.cacheDataSize := by
        rcases Nat.lt_or_ge h.cacheDataSize (d.cacheCount + nlen) with hmore | hall
        · have := henough hmore (by omega)
          omega
        · omega
      rw [Nat.mod_eq_of_lt hlt] at hstop
      omega
  constructor
  · rw [hclear, ← hsub, ScrollExact, hscroll]
    constructor
    · intro hevery
      have hsubtracted := hevery _ _ rfl
      simp only [Nat.add_sub_cancel_left] at hsubtracted
      omega
    · intro heq h' d'' hres
      rw [Option.some_inj, Prod.mk.injEq] at hres
      obtain ⟨rfl, rfl⟩ := hres
      simp only [Nat.add_sub_cancel_left]
      omega
  · intro hcond h' d'' hres
    rw [hscroll, Option.some_inj, Prod.mk.injEq] at hres
    obtain ⟨-, rfl⟩ := hres
    have heq := hsub.mpr (hclear.mp hcond)
    rw [Division.Exact, hroll.live_eq]
    omega

/-- The new entry adds its length to the count. -/
theorem appendEntry_exact (hg : h.Geometry) (hd : d.Wf h.indexNum h.cacheDataSize)
    (hexact : d.Exact h.indexNum) (id : List UInt8) {pdata : List UInt8}
    (hlen : pdata.length < 2147483648) (expiryTime : ℤ) :
    (appendEntry h d id pdata expiryTime).1.Exact h.indexNum := by
  have hsize := hg.cacheDataSize_lt
  have hcache := hd.cacheCount_le
  rcases appendEntry_spec hg hd id hlen expiryTime with hfail | ⟨d', hok, happ⟩
  · rw [hfail]
    exact hexact
  · have hsum : u32 ((d.cacheCount : ℤ) + pdata.length) = d.cacheCount + pdata.length :=
      u32_eq (by push_cast; rfl) (by omega)
    have hcount : d'.cacheCount = d.cacheCount + pdata.length := by
      rw [appendEntry] at hok
      simp only [hsum] at hok
      split_ifs at hok
      · simp at hok
      · simp at hok
      · split at hok
        · simp at hok
        · rw [Prod.mk.injEq] at hok
          rw [← hok.1]
    rw [hok, Division.Exact, hcount, happ.live_eq, bytesOf_append, hexact]
    rfl

end Drops

/-! ## One call -/

section Calls

variable {s : Segment}

/-- The expiry of a division, in these terms. -/
theorem shmcbExpireDivision_fresh {h : SHMCBHeader} {d : Division} (hg : h.Geometry)
    (hd : d.Wf h.indexNum h.cacheDataSize) (now : ℤ) :
    ∃ k d', shmcbExpireDivision h d now
        = some ({ h with numExpiries := h.numExpiries + k }, d', k)
      ∧ d'.Wf h.indexNum h.cacheDataSize ∧ d'.live h.indexNum = d.fresh h.indexNum now := by
  obtain ⟨k, d', hexp, hroll, hk, hbytes⟩ := shmcbExpireDivision_spec hg hd now
  exact ⟨k, d', hexp, hroll.wf, (hroll.fresh_eq hk hbytes).1⟩

/-- A store is exact exactly when both conditions hold, and keeps the count exact then. -/
theorem insert_exact_iff {h : SHMCBHeader} {d : Division} (hg : h.Geometry)
    (hd : d.Wf h.indexNum h.cacheDataSize) (hexact : d.Exact h.indexNum) (id : List UInt8)
    {pdata : List UInt8} (hlen : pdata.length < 2147483648) (expiryTime now : ℤ) :
    ((ExpiryExact h d now ∧ ∀ h₁ d₁ k, shmcbExpireDivision h d now = some (h₁, d₁, k) →
          ScrollExact h₁ d₁ pdata.length)
        ↔ ExpiryClear h.indexNum h.cacheDataSize d now
          ∧ ScrollClear h.cacheDataSize (d.fresh h.indexNum now) pdata.length)
      ∧ (ExpiryClear h.indexNum h.cacheDataSize d now
          ∧ ScrollClear h.cacheDataSize (d.fresh h.indexNum now) pdata.length →
        ∀ h' d' ok, shmcbInsertInternal h d id pdata expiryTime now = some (h', d', ok) →
          d'.Exact h.indexNum) := by
  obtain ⟨hexpIff, hexpKeeps⟩ := expiryExact_iff hg hd hexact now
  obtain ⟨k, d₀, hexp, hwf₀, hlive₀⟩ := shmcbExpireDivision_fresh hg hd now
  have hg₁ : ({ h with numExpiries := h.numExpiries + k } : SHMCBHeader).Geometry :=
    ⟨hg.1, hg.2, hg.3, hg.4, hg.5⟩
  have hscroll := fun hclear => scrollExact_iff hg₁ hwf₀ (hexpKeeps hclear _ _ _ hexp) hlen
  simp only [hlive₀] at hscroll
  constructor
  · rw [hexpIff]
    refine and_congr_right fun hclear => ?_
    rw [← (hscroll hclear).1, hexp]
    constructor
    · intro hevery
      exact hevery _ _ _ rfl
    · intro hone h₁ d₁ k' hres
      rw [Option.some_inj, Prod.mk.injEq, Prod.mk.injEq] at hres
      obtain ⟨rfl, rfl, -⟩ := hres
      exact hone
  · rintro ⟨hclear, hclear'⟩ h' d' ok hins
    obtain ⟨j, d₁, hrun, hscrolled⟩ := scrollDivision_spec hg₁ hwf₀ pdata.length
    have hexact₁ := (hscroll hclear).2 hclear' _ _ hrun
    simp only [shmcbInsertInternal, hexp, Option.bind_some, hrun, Option.map_some,
      Option.some_inj, Prod.mk.injEq] at hins
    have happ := appendEntry_exact (hg₁ : SHMCBHeader.Geometry _) hscrolled.rolled.wf hexact₁ id
      hlen expiryTime
    have hd' : d' = (appendEntry h d₁ id pdata expiryTime).1 := (congrArg Prod.fst hins.2).symm
    rw [hd']
    exact happ

/-- The byte counts of all divisions are the sums of the lengths of their entries. -/
def Segment.Exact (s : Segment) : Prop :=
  ∀ i ≤ s.header.divisionMask, (s.division i).Exact s.header.indexNum

/-- **One call**: its drops are exact exactly when it meets the condition. -/
theorem Segment.dropsExactly_iff (hg : s.header.Geometry)
    (hwf : ∀ i ≤ s.header.divisionMask,
      (s.division i).Wf s.header.indexNum s.header.cacheDataSize) (hexact : s.Exact) (op : Op) :
    s.DropsExactly op ↔ s.Unambiguous op := by
  have hmasked := maskedIndex_le s.header
  cases op with
  | store id pdata timeout now =>
      exact (insert_exact_iff hg (hwf _ (hmasked id)) (hexact _ (hmasked id)) id
        pdata.length_lt timeout now).1
  | retrieve id now now' mallocOk =>
      exact (expiryExact_iff hg (hwf _ (hmasked id)) (hexact _ (hmasked id)) now).1
  | remove id now =>
      cases id with
      | none => exact Iff.rfl
      | some id =>
          have hd := hwf _ (hmasked id)
          have hscan := removeScan_eq (d := s.division (maskedIndex s.header id)) hg (hash id 0)
            (s.division (maskedIndex s.header id)).queueCount
            (s.division (maskedIndex s.header id)).queueFirst
          rw [Nat.mod_eq_of_lt hd.queueFirst_lt, ← live] at hscan
          rw [Segment.DropsExactly, Segment.Unambiguous, hscan, Option.some_inj,
            Option.map_eq_none_iff, List.findIdx?_eq_none_iff]
          simp only [decide_eq_false_iff_not]
          exact imp_congr_right fun _ => (expiryExact_iff hg hd (hexact _ (hmasked id)) now).1
  | expire idx now =>
      exact imp_congr_right fun hi => (expiryExact_iff hg (hwf idx hi) (hexact idx hi) now).1

/-- A segment in which one division was replaced by an exact one. -/
theorem Segment.Exact.update {s' : Segment} (hexact : s.Exact)
    (hsame : s.header.SameLayout s'.header) {i : ℕ} {d' : Division}
    (hdiv : s'.division = Function.update s.division i d') (hd' : d'.Exact s.header.indexNum) :
    s'.Exact := by
  intro j hj
  rw [hsame.divisionMask] at hj
  rw [hsame.indexNum, hdiv]
  rcases eq_or_ne j i with rfl | hne
  · rw [Function.update_self]
    exact hd'
  · rw [Function.update_of_ne hne]
    exact hexact j hj

/-- **Step lemma.**  A call that meets the condition keeps the counts exact. -/
theorem Segment.Exact.apply (hexact : s.Exact) (hg : s.header.Geometry)
    (hwf : ∀ i ≤ s.header.divisionMask,
      (s.division i).Wf s.header.indexNum s.header.cacheDataSize) {op : Op}
    (hclear : s.Unambiguous op) {s' : Segment} {res : Result}
    (happly : s.apply op = some (s', res)) : s'.Exact := by
  obtain ⟨s₁, res₁, -, -, happly₁, hsame, -⟩ := Segment.apply_effect hg hwf op
  rw [happly, Option.some_inj, Prod.mk.injEq] at happly₁
  obtain ⟨rfl, rfl⟩ := happly₁
  have hmasked := maskedIndex_le s.header
  cases op with
  | store id pdata timeout now =>
      have hi := hmasked id
      simp only [Segment.apply, shmcbStore, shmcbGetDivision_of_le hi, Option.map_map,
        Option.map_eq_some_iff, Function.comp_apply, Prod.mk.injEq] at happly
      obtain ⟨⟨h', d', ok⟩, hins, rfl, -⟩ := happly
      exact hexact.update hsame rfl ((insert_exact_iff hg (hwf _ hi) (hexact _ hi) id
        pdata.length_lt timeout now).2 hclear _ _ _ hins)
  | retrieve id now now' mallocOk =>
      have hi := hmasked id
      simp only [Segment.apply, shmcbRetrieve, shmcbGetDivision_of_le hi, shmcbLookupInternal,
        Option.map_map, Option.map_eq_some_iff, Option.bind_eq_some_iff, Function.comp_apply,
        Prod.mk.injEq] at happly
      obtain ⟨⟨h', d', res⟩, ⟨⟨h₁, d₁, k⟩, hexp, found, -, heq⟩, rfl, -⟩ := happly
      simp only [Prod.mk.injEq] at heq
      obtain ⟨-, rfl, -⟩ := heq
      exact hexact.update hsame rfl
        ((expiryExact_iff hg (hwf _ hi) (hexact _ hi) now).2 hclear _ _ _ hexp)
  | remove id now =>
      cases id with
      | none =>
          simp only [Segment.apply, shmcbRemove, Option.map_some, Option.some_inj,
            Prod.mk.injEq] at happly
          rw [← happly.1]
          exact hexact
      | some id =>
          have hi := hmasked id
          rcases shmcbRemoveInternal_spec hg (hwf _ hi) id now with
            ⟨j, hj, hrem, -⟩ | ⟨k, d', hrem, -, -, hmiss⟩
          · simp only [Segment.apply, shmcbRemove, shmcbGetDivision_of_le hi, hrem,
              Option.map_some, Option.some_inj, Prod.mk.injEq] at happly
            obtain ⟨rfl, -⟩ := happly
            refine hexact.update hsame rfl ?_
            rw [Division.Exact, ← total_region, ← Division.regions,
              (hwf _ hi).regions_flagRemoved hj, Division.regions, total_region]
            exact hexact _ hi
          · -- a miss has no entry with the key, so the loop falls through to the expiry
            have hscan := removeScan_eq (d := s.division (maskedIndex s.header id)) hg
              (hash id 0) (s.division (maskedIndex s.header id)).queueCount
              (s.division (maskedIndex s.header id)).queueFirst
            rw [Nat.mod_eq_of_lt (hwf _ hi).queueFirst_lt, ← live,
              List.findIdx?_eq_none_iff.mpr (by simpa using hmiss), Option.map_none] at hscan
            obtain ⟨k', d₀, hexp, -⟩ := shmcbExpireDivision_fresh hg (hwf _ hi) now
            simp only [Segment.apply, shmcbRemove, shmcbGetDivision_of_le hi,
              shmcbRemoveInternal, hscan, hexp, Option.bind_some, Option.map_some,
              Option.some_inj, Prod.mk.injEq] at happly
            obtain ⟨rfl, -⟩ := happly
            exact hexact.update hsame rfl
              ((expiryExact_iff hg (hwf _ hi) (hexact _ hi) now).2 (hclear hmiss) _ _ _ hexp)
  | expire idx now =>
      rcases Nat.lt_or_ge s.header.divisionMask idx with hout | hi
      · simp only [Segment.apply, expireAt, shmcbGetDivision, if_pos hout, Option.map_some,
          Option.some_inj, Prod.mk.injEq] at happly
        rw [← happly.1]
        exact hexact
      · obtain ⟨k, d₀, hexp, -⟩ := shmcbExpireDivision_fresh hg (hwf _ hi) now
        simp only [Segment.apply, expireAt, shmcbGetDivision_of_le hi, hexp, Option.map_some,
          Option.some_inj, Prod.mk.injEq] at happly
        obtain ⟨rfl, -⟩ := happly
        exact hexact.update hsame rfl
          ((expiryExact_iff hg (hwf _ hi) (hexact _ hi) now).2 (hclear hi) _ _ _ hexp)

end Calls

/-! ## Over every run -/

/-- The guard of a run: every call meets the condition. -/
def Session.Unambiguous (s : Session) (op : Op) : Prop := s.seg.Unambiguous op

instance (s : Session) (op : Op) : Decidable (s.Unambiguous op) :=
  match op with
  | .store .. => inferInstanceAs (Decidable (ExpiryClear _ _ _ _ ∧ ScrollClear _ _ _))
  | .retrieve .. => inferInstanceAs (Decidable (ExpiryClear _ _ _ _))
  | .remove none _ => inferInstanceAs (Decidable True)
  | .remove (some _) _ =>
      inferInstanceAs (Decidable ((∀ e ∈ _, _ ≠ _) → ExpiryClear _ _ _ _))
  | .expire idx _ => inferInstanceAs (Decidable (idx ≤ _ → ExpiryClear _ _ _ _))

/-- **Run lemma.**  As long as every call meets the condition the counts are exact. -/
theorem Session.exact_of_reach {s₀ s : Session} (h₀ : s₀.Initial)
    (h : Reach Session.step Session.Unambiguous s₀ s) : s.Inv ∧ s.seg.Exact := by
  refine h.invariant (fun s => s.Inv ∧ s.seg.Exact) ⟨h₀.inv, fun i hi => ?_⟩ ?_
  · rw [Division.Exact, h₀.cacheCount i hi, Division.live, h₀.queueCount i hi]
    rfl
  · rintro s op s' ⟨hinv, hexact⟩ hok hs
    refine ⟨hinv.step hs, ?_⟩
    rw [Session.step, Option.map_eq_some_iff] at hs
    obtain ⟨⟨seg, res⟩, happly, rfl⟩ := hs
    exact hexact.apply hinv.geometry hinv.wf hok happly

/-- **When freed bytes are counted exactly.**  In every run, whatever the lengths of the
payloads, in which every call so far met the condition, the next call subtracts from
`pos_count` the sum of the lengths of the entries it drops, at its expiry and at its
scrolling, exactly when it meets the condition, too. -/
theorem freed_exactly_iff {s₀ s : Session} (h₀ : s₀.Initial)
    (h : Reach Session.step Session.Unambiguous s₀ s) (op : Op) :
    s.seg.DropsExactly op ↔ s.Unambiguous op := by
  obtain ⟨hinv, hexact⟩ := Session.exact_of_reach h₀ h
  exact Segment.dropsExactly_iff hinv.geometry hinv.wf hexact op

/-- A store that drops an expired entry and scrolls out another. -/
theorem freed_exactly_iff_scrolled :
    ∃ s, Reach Session.step Session.Unambiguous freshSession s
      ∧ (s.seg.division 0).cacheCount = 450
      ∧ s.seg.DropsExactly
        (.store [4] ⟨List.replicate 300 0, by rw [List.length_replicate]; decide⟩ 100 60) := by
  have hrun : (run Session.step Session.Unambiguous freshSession
      [.store [1] ⟨List.replicate 100 0, by rw [List.length_replicate]; decide⟩ 50 0,
        .store [2] ⟨List.replicate 200 0, by rw [List.length_replicate]; decide⟩ 100 0,
        .store [3] ⟨List.replicate 150 0, by rw [List.length_replicate]; decide⟩ 100 0]).map
      (fun s => ((s.seg.division 0).cacheCount, decide (s.Unambiguous
        (.store [4] ⟨List.replicate 300 0, by rw [List.length_replicate]; decide⟩ 100 60))))
      = some (450, true) := by
    decide +kernel
  obtain ⟨s, hs, hobs⟩ := Option.map_eq_some_iff.mp hrun
  rw [Prod.mk.injEq, decide_eq_true_eq] at hobs
  have hreach := Reach.refl.run _ hs
  exact ⟨s, hreach, hobs.1, (freed_exactly_iff freshSession_initial hreach _).mpr hobs.2⟩

/-- A call whose payload, if it has one, is no longer than the ring. -/
def Session.Admits (s : Session) : Op → Prop
  | .store _ pdata _ _ => pdata.bytes.length ≤ s.seg.header.cacheDataSize
  | _ => True

instance (s : Session) (op : Op) : Decidable (s.Admits op) :=
  match op with
  | .store _ pdata _ _ =>
      inferInstanceAs (Decidable (pdata.bytes.length ≤ s.seg.header.cacheDataSize))
  | .retrieve .. => inferInstanceAs (Decidable True)
  | .remove .. => inferInstanceAs (Decidable True)
  | .expire .. => inferInstanceAs (Decidable True)

/-- **A full turn is taken for none**: an entry of 464 bytes fills the ring, an empty one
follows, and the store of one more byte drops the first and subtracts nothing. -/
theorem freed_miscounted :
    ¬ ∀ (s₀ s : Session) (op : Op), s₀.Initial → Reach Session.step Session.Admits s₀ s →
      s.Admits op → s.seg.DropsExactly op := by
  intro hforall
  have hrun : (run Session.step Session.Admits freshSession
      [.store [1] ⟨List.replicate 464 0, by rw [List.length_replicate]; decide⟩ 100 0,
        .store [2] ⟨[], by decide⟩ 100 0]).map
      (fun s => (decide (s.Admits (.store [3] ⟨[7], by decide⟩ 100 0)),
        (shmcbExpireDivision s.seg.header (s.seg.division (maskedIndex s.seg.header [3]))
          0).bind fun r => (scrollDivision r.1 r.2.1 1).map fun r' =>
            (r.2.1.cacheCount, r'.2.cacheCount,
              bytesOf ((r.2.1.live r.1.indexNum).take (r'.1.numScrolled - r.1.numScrolled)))))
      = some (true, some (464, 464, 464)) := by
    decide +kernel
  obtain ⟨s, hs, hobs⟩ := Option.map_eq_some_iff.mp hrun
  rw [Prod.mk.injEq, decide_eq_true_eq, Option.bind_eq_some_iff] at hobs
  obtain ⟨hadmits, hobs⟩ := hobs
  obtain ⟨⟨h₁, d₁, k⟩, hexp, hobs⟩ := hobs
  obtain ⟨⟨h₂, d₂⟩, hscroll, hobs⟩ := Option.map_eq_some_iff.mp hobs
  simp only [Prod.mk.injEq] at hobs
  have hdrops := (hforall freshSession s (.store [3] ⟨[7], by decide⟩ 100 0) freshSession_initial
    (Reach.refl.run _ hs) hadmits).2 _ _ _ hexp _ _ hscroll
  omega

end Zevent.Cache

/-
# The cache that keeps old entries (`zcache-dev/src/zcache_shmcb.c`)

`zcache-dev` is the cache with three changes: the layout is configured, a store of an id that
a lookup finds writes over the old payload in place, and the scrolling gives up at an entry
that was not removed.  All other functions read as in `zcache`, and are those of the cache
modules here.

The scrolling is the one of the cache behind an additional test (`scrollDivision_spec`), so
what the cache modules say of it carries over.
-/
import Zevent.Cache.Room
import Zevent.Cache.Layout

namespace Zevent.CacheDev

open Cache RingBuffer Division Interleaving

/-! ## The functions of the source -/

/-- The header the `shmcb_init_memory` of `zcache-dev` writes; the numbers of entries and of
divisions are configured.  `none` is the division by zero, `some none` the return value
`FALSE`. -/
def shmcbInitHeader (old : SHMCBHeader) (shmMemSize indexNums granularity : ℕ) :
    Option (Option SHMCBHeader) :=
  let queueSize := u32 (2 * sizeofUInt + indexNums * sizeofIndex)
  let temp := u32 (shmMemSize - sizeofHeader)
  if granularity = 0 then none
  else
    let divisionSize := temp / granularity
    let cacheDataSize := u32 (divisionSize - queueSize - (2 * sizeofUInt : ℕ))
    if i32 cacheDataSize ≤ 0 then some none
    else
      some (some { old with
        divisionMask := u32 (granularity - 1) % 256
        divisionOffset := sizeofHeader
        indexNum := indexNums
        indexOffset := 2 * sizeofUInt
        indexSize := sizeofIndex
        queueSize := queueSize
        divisionSize := divisionSize
        cacheDataOffset := 2 * sizeofUInt
        cacheDataSize := cacheDataSize })

/-- `shmcb_lookup_internal`; the last component is the entry `*idx` points at when the lookup
finds one. -/
def shmcbLookupInternal (h : SHMCBHeader) (d : Division) (id : List UInt8) (now now' : ℤ)
    (mallocOk : Bool) : Option (SHMCBHeader × Division × LookupResult × Option SHMCBIndex) :=
  (shmcbExpireDivision h d now).bind fun (h, d, _) =>
    (lookupScan h d (hash id 0) now' d.queueCount d.queueFirst).map fun found =>
      (h, d, lookupResult h d mallocOk found, found)

/-- The test before an entry is passed by: `idx->length > 0 && !idx->removed` ends the call. -/
def Passable (e : SHMCBIndex) : Prop := ¬ (e.length > 0 ∧ e.removed = false)

instance (e : SHMCBIndex) : Decidable (Passable e) := inferInstanceAs (Decidable (¬ (_ ∧ _)))

/-- The `while` loop of `shmcb_insert_internal`.  The entry that is tested is the one the
position has moved on to, not the one it has left; `some none` is the return of `FALSE`. -/
def scrollScan (h : SHMCBHeader) (d : Division) (nlen gap : ℕ) :
    ℕ → ℕ → ℕ → ℤ → Option SHMCBIndex → Option (Option (ℕ × ℕ × Option SHMCBIndex))
  | 0, loop, newPos, _, idx => some (some (loop, newPos, idx))
  | rest + 1, loop, newPos, need, idx =>
      if need > 0 then
        let newPos := shmcbCyclicIncrement h.indexNum newPos 1
        (shmcbGetIndex h d newPos).bind fun idx =>
          if Passable idx then
            scrollScan h d nlen gap rest (loop + 1) newPos
              (i32 (i32 nlen - i32 gap
                - shmcbCyclicSpace h.cacheDataSize d.cacheFirst idx.offset))
              (some idx)
          else some none
      else some (some (loop, newPos, idx))

/-- The `if (gap < nlen)` block of `shmcb_insert_internal`; `some none` is the return of
`FALSE` from inside the loop. -/
def scrollDivision (h : SHMCBHeader) (d : Division) (nlen : ℕ) :
    Option (Option (SHMCBHeader × Division)) :=
  let gap := u32 (h.cacheDataSize - d.cacheCount)
  if gap < nlen then
    (scrollScan h d nlen gap (d.queueCount - 1) 0 d.queueFirst (i32 nlen - i32 gap) none).bind
      fun
        | none => some none
        | some (loop, newPos, idx) =>
            if loop > 0 then
              idx.map fun idx => some ({ h with numScrolled := h.numScrolled + loop },
                dropLeading h d loop newPos idx)
            else some (some (h, d))
  else some (some (h, d))

/-- The update branch of `shmcb_insert_internal`: the new bytes are written where the old
entry's start, and nothing else is changed.  `valuelen` is an `int` compared with an
`unsigned int`. -/
def updateInPlace (h : SHMCBHeader) (d : Division) (idx : SHMCBIndex) (pdata : List UInt8) :
    Division × Bool :=
  if u32 (i32 idx.length) < pdata.length then (d, false)
  else
    ({ d with data :=
        shmcbCyclicNtocMemcpy h.cacheDataSize d.data idx.offset pdata pdata.length }, true)

/-- `shmcb_insert_internal`.  The clock is read by the expiry, by the expiry of the lookup
and by the lookup; `mallocOk` says whether the lookup gets its block. -/
def shmcbInsertInternal (h : SHMCBHeader) (d : Division) (id pdata : List UInt8)
    (expiryTime now now₁ now₁' : ℤ) (mallocOk : Bool) : Option (SHMCBHeader × Division × Bool) :=
  (shmcbExpireDivision h d now).bind fun (h, d, _) =>
    (shmcbLookupInternal h d id now₁ now₁' mallocOk).bind fun (h, d, res, found) =>
      match res.pdata, found with
      | some _, some idx => some (h, updateInPlace h d idx pdata)
      | _, _ =>
          (scrollDivision h d pdata.length).map fun
            | none => (h, d, false)
            | some (h, d) => (h, appendEntry h d id pdata expiryTime)

/-- `shmcb_store`. -/
def shmcbStore (s : Segment) (id : List UInt8) (pdata : Block) (timeout now now₁ now₁' : ℤ)
    (mallocOk : Bool) : Option (Segment × Bool) :=
  match shmcbGetDivision s (maskedIndex s.header id) with
  | none => some (s, false)
  | some d =>
      (shmcbInsertInternal s.header d id pdata.bytes timeout now now₁ now₁' mallocOk).map
        fun (h, d, ok) =>
          ({ header := if ok then { h with numStores := h.numStores + 1 } else h
             division := Function.update s.division (maskedIndex s.header id) d }, ok)

/-- `shmcb_retrieve`. -/
def shmcbRetrieve (s : Segment) (id : List UInt8) (now now' : ℤ) (mallocOk : Bool) :
    Option (Segment × LookupResult) :=
  match shmcbGetDivision s (maskedIndex s.header id) with
  | none =>
      some ({ s with
        header := { s.header with numRetrievesMiss := s.header.numRetrievesMiss + 1 } },
        { len := none, pdata := none })
  | some d =>
      (shmcbLookupInternal s.header d id now now' mallocOk).map fun (h, d, res, _) =>
        ({ header := if res.pdata.isSome
             then { h with numRetrievesHit := h.numRetrievesHit + 1 }
             else { h with numRetrievesMiss := h.numRetrievesMiss + 1 }
           division := Function.update s.division (maskedIndex s.header id) d }, res)

/-- A call, with the clock readings it makes. -/
inductive Op
  | store (id : List UInt8) (pdata : Block) (timeout now now₁ now₁' : ℤ) (mallocOk : Bool)
  | retrieve (id : List UInt8) (now now' : ℤ) (mallocOk : Bool)
  | remove (id : Option (List UInt8)) (now : ℤ)
  | expire (idx : ℕ) (now : ℤ)

/-- One call on a segment; `none` when it dereferences a null pointer. -/
def step (s : Segment) : Op → Option Segment
  | .store id pdata timeout now now₁ now₁' mallocOk =>
      (shmcbStore s id pdata timeout now now₁ now₁' mallocOk).map Prod.fst
  | .retrieve id now now' mallocOk => (shmcbRetrieve s id now now' mallocOk).map Prod.fst
  | .remove id now => (shmcbRemove s id now).map Prod.fst
  | .expire idx now => (expireAt s idx now).map Prod.fst

/-- A division after the two expiries an insertion begins with, its own and that of its
lookup. -/
def afterExpiry (h : SHMCBHeader) (d : Division) (now now₁ : ℤ) :
    Option (SHMCBHeader × Division) :=
  (shmcbExpireDivision h d now).bind fun (h, d, _) =>
    (shmcbExpireDivision h d now₁).map fun (h, d, _) => (h, d)

/-- The entries those expiries leave. -/
def remaining (n : ℕ) (d : Division) (now now₁ : ℤ) : List SHMCBIndex :=
  (d.fresh n now).dropWhile fun e => decide (e.expires ≤ now₁)

/-! ## What the functions do -/

section Specs

variable {h : SHMCBHeader} {d : Division}

/-- The lookup of `zcache-dev` is the one of `zcache`, with the entry it found. -/
theorem shmcbLookupInternal_eq (h : SHMCBHeader) (d : Division) (id : List UInt8) (now now' : ℤ)
    (mallocOk : Bool) :
    (shmcbLookupInternal h d id now now' mallocOk).map (fun r => (r.1, r.2.1, r.2.2.1))
      = Cache.shmcbLookupInternal h d id now now' mallocOk := by
  rw [shmcbLookupInternal, Cache.shmcbLookupInternal, Option.map_bind]
  congr 1
  funext r
  rw [Function.comp_apply, Option.map_map]
  rfl

/-- **The loop is that of the cache behind a test**: it goes as far when every entry it moves
on to passes, and ends the call otherwise. -/
theorem scrollScan_spec (hg : h.Geometry) (nlen gap rest loop pos : ℕ) (need : ℤ)
    (idx : Option SHMCBIndex) :
    ∃ k ≤ rest, ∃ r, Cache.scrollScan h d nlen gap rest loop (pos % h.indexNum) need idx
        = some (loop + k, r)
      ∧ ((∀ j, 1 ≤ j → j ≤ k → Passable (d.indexes ((pos + j) % h.indexNum))) →
          scrollScan h d nlen gap rest loop (pos % h.indexNum) need idx
            = some (some (loop + k, r)))
      ∧ ((∃ j, 1 ≤ j ∧ j ≤ k ∧ ¬ Passable (d.indexes ((pos + j) % h.indexNum))) →
          scrollScan h d nlen gap rest loop (pos % h.indexNum) need idx = some none) := by
  induction rest generalizing loop pos need idx with
  | zero =>
      refine ⟨0, le_rfl, (pos % h.indexNum, idx), by simp [Cache.scrollScan], fun _ => ?_, ?_⟩
      · simp [scrollScan]
      · rintro ⟨j, hj, hj', -⟩
        omega
  | succ rest ih =>
      rw [Cache.scrollScan, scrollScan]
      split
      · simp only [shmcbCyclicIncrement_mod hg, shmcbGetIndex_mod hg, Option.bind_some]
        obtain ⟨k, hk, r, hscan, hpass, hfail⟩ := ih (loop + 1) (pos + 1)
          (i32 (i32 nlen - i32 gap - shmcbCyclicSpace h.cacheDataSize d.cacheFirst
            (d.indexes ((pos + 1) % h.indexNum)).offset))
          (some (d.indexes ((pos + 1) % h.indexNum)))
        refine ⟨k + 1, by omega, r, ?_, fun hall => ?_, ?_⟩
        · rw [hscan]
          congr 2
          omega
        · rw [if_pos (hall 1 le_rfl (by omega)), hpass fun j hj hj' => ?_]
          · congr 3
            omega
          · rw [Nat.add_right_comm, Nat.add_assoc pos]
            exact hall (j + 1) (by omega) (by omega)
        · rintro ⟨j, hj, hj', hnot⟩
          split
          · rename_i hfirst
            rcases Nat.eq_or_lt_of_le hj with rfl | hlt
            · exact absurd hfirst hnot
            · obtain ⟨j, rfl⟩ := Nat.exists_eq_add_of_le' hj
              refine hfail ⟨j, by omega, by omega, ?_⟩
              rwa [Nat.add_right_comm, Nat.add_assoc pos]
          · rfl
      · refine ⟨0, by omega, (pos % h.indexNum, idx), by simp, fun _ => by simp, ?_⟩
        rintro ⟨j, hj, hj', -⟩
        omega

/-- **Scrolling in `zcache-dev`**: the drop of the cache, of `k` leading entries, is made when
the entries after the first, up to the one that is left in front, all pass the test. -/
theorem scrollDivision_spec (hg : h.Geometry) (hd : d.Wf h.indexNum h.cacheDataSize)
    (nlen : ℕ) :
    ∃ k d', Scrolled h nlen k d d' ∧ (k = 0 → d' = d)
      ∧ ((∀ j, 1 ≤ j → j ≤ k → Passable (d.indexes ((d.queueFirst + j) % h.indexNum))) →
          scrollDivision h d nlen
            = some (some ({ h with numScrolled := h.numScrolled + k }, d')))
      ∧ ((∃ j, 1 ≤ j ∧ j ≤ k ∧ ¬ Passable (d.indexes ((d.queueFirst + j) % h.indexNum))) →
          scrollDivision h d nlen = some none) := by
  obtain ⟨k, d', hscroll, hscrolled⟩ := Cache.scrollDivision_spec hg hd nlen
  refine ⟨k, d', hscrolled, ?_⟩
  obtain ⟨k', hk', ⟨newPos, idx⟩, hscan, hpass, hfail⟩ := scrollScan_spec (d := d) hg nlen
    (u32 (h.cacheDataSize - d.cacheCount)) (d.queueCount - 1) 0 d.queueFirst
    (i32 nlen - i32 (u32 (h.cacheDataSize - d.cacheCount))) none
  rw [Nat.mod_eq_of_lt hd.queueFirst_lt, Nat.zero_add] at *
  rw [Cache.scrollDivision] at hscroll
  rw [scrollDivision]
  simp only at hscroll ⊢
  split_ifs at hscroll ⊢ with hgap
  · rw [hscan, Option.bind_some] at hscroll
    simp only at hscroll
    -- both loops go over the same number of entries
    have hkk : k' = k := by
      split_ifs at hscroll with hpos
      · rw [Option.map_eq_some_iff] at hscroll
        obtain ⟨e, -, heq⟩ := hscroll
        simp only [Prod.mk.injEq, SHMCBHeader.mk.injEq] at heq
        omega
      · have hnum := congrArg (fun r => r.1.numScrolled) (Option.some.inj hscroll)
        simp only at hnum
        omega
    subst hkk
    refine ⟨fun hzero => ?_, fun hall => ?_, fun hnot => ?_⟩
    · rw [if_neg (by omega), Option.some_inj, Prod.mk.injEq] at hscroll
      exact hscroll.2.symm
    · rw [hpass hall, Option.bind_some]
      simp only
      split_ifs at hscroll ⊢ with hpos
      · rw [Option.map_eq_some_iff] at hscroll ⊢
        obtain ⟨e, he, heq⟩ := hscroll
        exact ⟨e, he, congrArg some heq⟩
      · exact congrArg (Option.map some) hscroll
    · rw [hfail hnot, Option.bind_some]
  · refine ⟨fun _ => (congrArg Prod.snd (Option.some.inj hscroll)).symm,
      fun _ => congrArg (Option.map some) hscroll, ?_⟩
    rintro ⟨j, hj, hj', -⟩
    have hnum := congrArg (fun r => r.1.numScrolled) (Option.some.inj hscroll)
    simp only at hnum
    omega

/-- The two expiries drop leading entries. -/
theorem afterExpiry_spec (hg : h.Geometry) (hd : d.Wf h.indexNum h.cacheDataSize)
    (now now₁ : ℤ) :
    ∃ j k d₀, afterExpiry h d now now₁
        = some ({ h with numExpiries := h.numExpiries + j + k }, d₀)
      ∧ Rolled h.indexNum h.cacheDataSize (j + k) d d₀
      ∧ d₀.live h.indexNum = remaining h.indexNum d now now₁ := by
  obtain ⟨j, d₁, hexp₁, hroll₁, hj, hbytes₁⟩ := shmcbExpireDivision_spec hg hd now
  have hg₁ : ({ h with numExpiries := h.numExpiries + j } : SHMCBHeader).Geometry :=
    ⟨hg.1, hg.2, hg.3, hg.4, hg.5⟩
  obtain ⟨k, d₀, hexp₂, hroll₂, hk, hbytes₂⟩ := shmcbExpireDivision_spec hg₁ hroll₁.wf now₁
  refine ⟨j, k, d₀, ?_, hroll₁.trans hroll₂, ?_⟩
  · rw [afterExpiry, hexp₁, Option.bind_some]
    simp only [hexp₂, Option.map_some]
  · have hlive₁ := (hroll₁.fresh_eq hj hbytes₁).1
    have hlive₂ := (hroll₂.fresh_eq hk hbytes₂).1
    simp only at hlive₂
    rw [hlive₂, Division.fresh, hlive₁, remaining]

/-- What holds of the division the expiries leave. -/
theorem forall_afterExpiry {now now₁ : ℤ} {h₀ : SHMCBHeader} {d₀ : Division}
    (hafter : afterExpiry h d now now₁ = some (h₀, d₀)) (p : Division → Prop) :
    (∀ h₁ d₁, afterExpiry h d now now₁ = some (h₁, d₁) → p d₁) ↔ p d₀ := by
  rw [hafter]
  constructor
  · intro hall
    exact hall _ _ rfl
  · intro hthis h₁ d₁ heq
    rw [Option.some_inj, Prod.mk.injEq] at heq
    exact heq.2 ▸ hthis

/-- **The two ways an insertion goes on after the expiries.**  When the lookup gets hold of a
block for an entry it finds, that entry is written over; else entries may be scrolled out,
unless one does not pass the test, and the new entry is appended. -/
theorem shmcbInsertInternal_cases (hg : h.Geometry) (hd : d.Wf h.indexNum h.cacheDataSize)
    (id pdata : List UInt8) (expiryTime now now₁ now₁' : ℤ) (mallocOk : Bool) :
    ∃ h₀ d₀, afterExpiry h d now now₁ = some (h₀, d₀)
      ∧ h.SameLayout h₀ ∧ h₀.numScrolled = h.numScrolled
      ∧ (∃ k, Rolled h.indexNum h.cacheDataSize k d d₀)
      ∧ d₀.live h.indexNum = remaining h.indexNum d now now₁
      ∧ ((∃ e, mallocOk = true
            ∧ (remaining h.indexNum d now now₁).find?
                (fun e => decide (e.Matches (hash id 0) now₁')) = some e
            ∧ shmcbInsertInternal h d id pdata expiryTime now now₁ now₁' mallocOk
                = some (h₀, updateInPlace h₀ d₀ e pdata))
        ∨ ((mallocOk = true → (remaining h.indexNum d now now₁).find?
                (fun e => decide (e.Matches (hash id 0) now₁')) = none)
          ∧ ∃ k d₁, Scrolled h pdata.length k d₀ d₁ ∧ (k = 0 → d₁ = d₀)
            ∧ ((∀ j, 1 ≤ j → j ≤ k →
                  Passable (d₀.indexes ((d₀.queueFirst + j) % h.indexNum))) →
                shmcbInsertInternal h d id pdata expiryTime now now₁ now₁' mallocOk
                  = some ({ h₀ with numScrolled := h₀.numScrolled + k },
                      appendEntry h d₁ id pdata expiryTime))
            ∧ ((∃ j, 1 ≤ j ∧ j ≤ k
                  ∧ ¬ Passable (d₀.indexes ((d₀.queueFirst + j) % h.indexNum))) →
                shmcbInsertInternal h d id pdata expiryTime now now₁ now₁' mallocOk
                  = some (h₀, d₀, false)))) := by
  obtain ⟨j, k, d₀, hafter, hroll, hlive⟩ := afterExpiry_spec hg hd now now₁
  have hg₀ : ({ h with numExpiries := h.numExpiries + j + k } : SHMCBHeader).Geometry :=
    ⟨hg.1, hg.2, hg.3, hg.4, hg.5⟩
  refine ⟨_, d₀, hafter, rfl, rfl, ⟨_, hroll⟩, hlive, ?_⟩
  have hscan := lookupScan_eq (d := d₀) hg₀ (hash id 0) now₁' d₀.queueCount d₀.queueFirst
  simp only [Nat.mod_eq_of_lt hroll.wf.queueFirst_lt] at hscan
  rw [← live, hlive] at hscan
  -- the insertion is the expiries, the lookup's loop and one of the two branches
  have hins : shmcbInsertInternal h d id pdata expiryTime now now₁ now₁' mallocOk
      = (afterExpiry h d now now₁).bind fun r =>
          (lookupScan r.1 r.2 (hash id 0) now₁' r.2.queueCount r.2.queueFirst).bind fun found =>
            match (lookupResult r.1 r.2 mallocOk found).pdata, found with
            | some _, some idx => some (r.1, updateInPlace r.1 r.2 idx pdata)
            | _, _ => (scrollDivision r.1 r.2 pdata.length).map fun
                | none => (r.1, r.2, false)
                | some (h, d) => (h, appendEntry h d id pdata expiryTime) := by
    simp only [shmcbInsertInternal, shmcbLookupInternal, afterExpiry, Option.bind_assoc,
      Option.map_eq_bind, Option.bind_some, Function.comp_apply]
  rw [hafter, Option.bind_some] at hins
  simp only [hscan, Option.bind_some] at hins
  generalize (remaining h.indexNum d now now₁).find?
    (fun e => decide (e.Matches (hash id 0) now₁')) = found at hins ⊢
  obtain ⟨i, d₁, hscrolled, hnone, hpass, hfail⟩ := scrollDivision_spec hg₀ hroll.wf pdata.length
  have hscrolled' : Scrolled h pdata.length i d₀ d₁ :=
    ⟨hscrolled.rolled, hscrolled.le, hscrolled.cacheCount_eq, hscrolled.free, hscrolled.enough,
      hscrolled.needed⟩
  cases hupdate : (lookupResult { h with numExpiries := h.numExpiries + j + k } d₀ mallocOk
    found).pdata with
  | some block =>
      left
      cases found with
      | none => cases hupdate
      | some e =>
          cases mallocOk with
          | false => cases hupdate
          | true => exact ⟨e, rfl, rfl, hins⟩
  | none =>
      right
      rw [hupdate] at hins
      refine ⟨fun htrue => ?_, i, d₁, hscrolled', hnone, fun hall => ?_, fun hnot => ?_⟩
      · cases found with
        | none => rfl
        | some e =>
            rw [htrue] at hupdate
            cases hupdate
      · rw [hins, hpass hall, Option.map_some]
        rfl
      · rw [hins, hfail hnot, Option.map_some]

/-- Writing over an entry changes no position and no entry. -/
theorem updateInPlace_wf {n m : ℕ} (hd : d.Wf n m) (e : SHMCBIndex) (pdata : List UInt8) :
    (updateInPlace h d e pdata).1.Wf n m ∧ (updateInPlace h d e pdata).1.live n = d.live n := by
  rw [updateInPlace]
  split
  · exact ⟨hd, rfl⟩
  · exact ⟨⟨hd.1, hd.2, hd.3, hd.4, hd.5, hd.6, hd.7⟩, rfl⟩

/-- An insertion returns and keeps the division well formed. -/
theorem shmcbInsertInternal_wf (hg : h.Geometry) (hd : d.Wf h.indexNum h.cacheDataSize)
    (id : List UInt8) {pdata : List UInt8} (hlen : pdata.length < 2147483648)
    (expiryTime now now₁ now₁' : ℤ) (mallocOk : Bool) :
    ∃ h' d' ok, shmcbInsertInternal h d id pdata expiryTime now now₁ now₁' mallocOk
        = some (h', d', ok)
      ∧ h.SameLayout h' ∧ d'.Wf h.indexNum h.cacheDataSize := by
  obtain ⟨h₀, d₀, -, hsame, -, ⟨j, hroll⟩, -, hcases⟩ :=
    shmcbInsertInternal_cases hg hd id pdata expiryTime now now₁ now₁' mallocOk
  rcases hcases with ⟨e, -, -, hins⟩ | ⟨-, k, d₁, hscrolled, -, hpass, hfail⟩
  · have hwf := (updateInPlace_wf (h := h) hroll.wf e pdata).1
    rcases hres : updateInPlace h d₀ e pdata with ⟨d', ok⟩
    have hres' : updateInPlace h₀ d₀ e pdata = (d', ok) := by
      rw [← hres, updateInPlace, updateInPlace, hsame.cacheDataSize]
    rw [hres] at hwf
    rw [hres'] at hins
    exact ⟨h₀, d', ok, hins, hsame, hwf⟩
  · by_cases hall : ∀ j, 1 ≤ j → j ≤ k →
        Passable (d₀.indexes ((d₀.queueFirst + j) % h.indexNum))
    · have hins := hpass hall
      have happ := appendEntry_spec hg hscrolled.rolled.wf id hlen expiryTime
      rcases hres : appendEntry h d₁ id pdata expiryTime with ⟨d', ok⟩
      rw [hres] at hins happ
      refine ⟨_, d', ok, hins, hsame.trans rfl, ?_⟩
      rcases happ with hno | ⟨d'', hyes, happ⟩
      · rw [Prod.mk.injEq] at hno
        rw [hno.1]
        exact hscrolled.rolled.wf
      · rw [Prod.mk.injEq] at hyes
        rw [hyes.1]
        exact happ.wf
    · push Not at hall
      exact ⟨_, _, _, hfail hall, hsame, hroll.wf⟩

end Specs

/-! ## Calls and runs -/

/-- A store, by what its insertion does. -/
theorem shmcbStore_of_insert {s : Segment} {id : List UInt8} {pdata : Block}
    {timeout now now₁ now₁' : ℤ} {mallocOk ok : Bool} {h' : SHMCBHeader} {d' : Division}
    (hins : shmcbInsertInternal s.header (s.division (maskedIndex s.header id)) id pdata.bytes
      timeout now now₁ now₁' mallocOk = some (h', d', ok)) :
    shmcbStore s id pdata timeout now now₁ now₁' mallocOk
      = some ({ header := if ok then { h' with numStores := h'.numStores + 1 } else h'
                division := Function.update s.division (maskedIndex s.header id) d' }, ok) := by
  simp only [shmcbStore, shmcbGetDivision_of_le (maskedIndex_le s.header id), hins,
    Option.map_some]

theorem shmcbRetrieve_eq (s : Segment) (id : List UInt8) (now now' : ℤ) (mallocOk : Bool) :
    shmcbRetrieve s id now now' mallocOk = Cache.shmcbRetrieve s id now now' mallocOk := by
  cases hdiv : shmcbGetDivision s (maskedIndex s.header id) with
  | none => simp only [shmcbRetrieve, Cache.shmcbRetrieve, hdiv]
  | some d =>
      simp only [shmcbRetrieve, Cache.shmcbRetrieve, hdiv, ← shmcbLookupInternal_eq,
        Option.map_map]
      rfl

/-- What the calls that are those of the cache do. -/
theorem apply_wf {s : Segment} (hs : s.Wf) (op : Cache.Op) :
    ∃ r, s.apply op = some r ∧ r.1.Wf ∧ s.header.SameLayout r.1.header := by
  obtain ⟨s', res, i, d', happly, hsame, hi, hdiv, heff, -⟩ :=
    Segment.apply_effect hs.geometry hs.divisions op
  exact ⟨_, happly, hs.update hsame hdiv (heff.wf (hs.divisions i hi)), hsame⟩

/-- **Step lemma.**  Every call returns and keeps the segment well formed. -/
theorem step_wf {s : Segment} (hs : s.Wf) (op : Op) :
    ∃ s', step s op = some s' ∧ s'.Wf ∧ s.header.SameLayout s'.header := by
  cases op with
  | store id pdata timeout now now₁ now₁' mallocOk =>
      have hi := maskedIndex_le s.header id
      obtain ⟨h', d', ok, hins, hsame, hd'⟩ := shmcbInsertInternal_wf hs.geometry
        (hs.divisions _ hi) id pdata.length_lt timeout now now₁ now₁' mallocOk
      have hsame' : s.header.SameLayout
          (if ok then { h' with numStores := h'.numStores + 1 } else h') := by
        cases ok
        · exact hsame
        · exact hsame.trans rfl
      have hstore := shmcbStore_of_insert hins
      refine ⟨_, by rw [step, hstore, Option.map_some], ?_, hsame'⟩
      exact hs.update hsame' rfl hd'
  | retrieve id now now' mallocOk =>
      obtain ⟨r, happly, hwf, hsame⟩ := apply_wf hs (.retrieve id now now' mallocOk)
      rw [Segment.apply, Option.map_eq_some_iff] at happly
      obtain ⟨r', hr', rfl⟩ := happly
      exact ⟨r'.1, by rw [step, shmcbRetrieve_eq, hr', Option.map_some], hwf, hsame⟩
  | remove id now =>
      obtain ⟨r, happly, hwf, hsame⟩ := apply_wf hs (.remove id now)
      rw [Segment.apply, Option.map_eq_some_iff] at happly
      obtain ⟨r', hr', rfl⟩ := happly
      exact ⟨r'.1, by rw [step, hr', Option.map_some], hwf, hsame⟩
  | expire idx now =>
      obtain ⟨r, happly, hwf, hsame⟩ := apply_wf hs (.expire idx now)
      rw [Segment.apply, Option.map_eq_some_iff] at happly
      obtain ⟨r', hr', rfl⟩ := happly
      exact ⟨r'.1, by rw [step, hr', Option.map_some], hwf, hsame⟩

/-- A segment nobody has used: its layout is sound and all positions are zero. -/
def Initial (s : Segment) : Prop := Session.Initial { seg := s, log := [], clock := 0 }

/-- **Run lemma.**  Every state of every run is well formed. -/
theorem wf_of_reach {s₀ s : Segment} (h₀ : Initial s₀) (h : Reach step Always s₀ s) : s.Wf := by
  refine h.invariant Segment.Wf ⟨h₀.geometry, h₀.inv.wf⟩ ?_
  intro s op s' hs _ hstep
  obtain ⟨s'', hstep', hs'', -⟩ := step_wf hs op
  obtain rfl := Option.some.inj (hstep.symm.trans hstep')
  exact hs''

/-- The configured layout is sound when there is an entry and the queue's size does not
wrap. -/
theorem shmcbInitHeader_geometry {old h : SHMCBHeader} {shmMemSize indexNums granularity : ℕ}
    (hpos : 1 ≤ indexNums)
    (hqueue : 2 * sizeofUInt + indexNums * sizeofIndex < 4294967296)
    (hinit : shmcbInitHeader old shmMemSize indexNums granularity = some (some h)) :
    h.Geometry := by
  rw [shmcbInitHeader] at hinit
  have hsize : u32 (2 * (sizeofUInt : ℤ) + (indexNums : ℤ) * (sizeofIndex : ℤ))
      = 2 * sizeofUInt + indexNums * sizeofIndex := u32_eq (by push_cast; rfl) hqueue
  simp only [hsize] at hinit
  generalize hcache : u32 (_ - _ - _) = cacheDataSize at hinit
  have hlt : cacheDataSize < 4294967296 := hcache ▸ u32_lt _
  split_ifs at hinit with hzero hfew
  · cases Option.some.inj hinit
  · rw [Option.some_inj, Option.some_inj] at hinit
    rw [i32] at hfew
    subst hinit
    constructor <;> simp only <;> omega

end Zevent.CacheDev

/-
# The cache operations and their runs (`zcache_shmcb.c`)

`shmcb_store`, `shmcb_retrieve` and `shmcb_remove` over all divisions of a segment, and
what holds of every sequence of them.

A `Session` is a segment together with what an observer of the calls knows: the stores
that returned `TRUE`, oldest first, and the last clock reading.

* `Session.Inv` ties the two together: every division is well formed, and its live
  entries are, in order, those of the last successful stores into it, each with its key,
  expiry, length and bytes.
* `Segment.apply_effect` is the one case analysis over the operations; the invariants are
  derived from it.
-/
import Zevent.Lib.Interleaving
import Zevent.Cache.Division

namespace Zevent.Cache

open RingBuffer Division

/-! ## The functions of the source -/

/-- A block of memory whose length is an `int`. -/
structure Block where
  bytes : List UInt8
  length_lt : bytes.length < 2147483648

/-- `shmcb_get_division`; `none` is the return value `FALSE`. -/
def shmcbGetDivision (s : Segment) (idx : ℕ) : Option Division :=
  if idx > s.header.divisionMask then none else some (s.division idx)

/-- The division an id falls into. -/
def maskedIndex (h : SHMCBHeader) (id : List UInt8) : ℕ := (hash id 0).toNat &&& h.divisionMask

/-- `shmcb_store`. -/
def shmcbStore (s : Segment) (id : List UInt8) (pdata : Block) (timeout now : ℤ) :
    Option (Segment × Bool) :=
  match shmcbGetDivision s (maskedIndex s.header id) with
  | none => some (s, false)
  | some d =>
      (shmcbInsertInternal s.header d id pdata.bytes timeout now).map fun (h, d, ok) =>
        ({ header := if ok then { h with numStores := h.numStores + 1 } else h
           division := Function.update s.division (maskedIndex s.header id) d }, ok)

/-- `shmcb_retrieve`. -/
def shmcbRetrieve (s : Segment) (id : List UInt8) (now now' : ℤ) (mallocOk : Bool) :
    Option (Segment × LookupResult) :=
  match shmcbGetDivision s (maskedIndex s.header id) with
  | none =>
      some ({ s with
        header := { s.header with numRetrievesMiss := s.header.numRetrievesMiss + 1 } },
        { len := none, pdata := none })
  | some d =>
      (shmcbLookupInternal s.header d id now now' mallocOk).map fun (h, d, res) =>
        ({ header := if res.pdata.isSome
             then { h with numRetrievesHit := h.numRetrievesHit + 1 }
             else { h with numRetrievesMiss := h.numRetrievesMiss + 1 }
           division := Function.update s.division (maskedIndex s.header id) d }, res)

/-- `shmcb_remove`; the id may be the null pointer, of length zero since its hash is taken
before the test. -/
def shmcbRemove (s : Segment) (id : Option (List UInt8)) (now : ℤ) :
    Option (Segment × Bool) :=
  match id with
  | none => some (s, false)
  | some id =>
      match shmcbGetDivision s (maskedIndex s.header id) with
      | none =>
          some ({ s with
            header := { s.header with numRemovesMiss := s.header.numRemovesMiss + 1 } }, false)
      | some d =>
          (shmcbRemoveInternal s.header d id now).map fun (h, d, res) =>
            ({ header := if res then { h with numRemovesHit := h.numRemovesHit + 1 }
                 else { h with numRemovesMiss := h.numRemovesMiss + 1 }
               division := Function.update s.division (maskedIndex s.header id) d }, res)

/-- `zcache_shmcb_expire_division` on one division, as `zcache_shmcb_status` calls it. -/
def expireAt (s : Segment) (idx : ℕ) (now : ℤ) : Option (Segment × ℕ) :=
  match shmcbGetDivision s idx with
  | none => some (s, 0)
  | some d =>
      (shmcbExpireDivision s.header d now).map fun (h, d, n) =>
        ({ header := h, division := Function.update s.division idx d }, n)

/-! ## Runs -/

/-- A call, with the clock readings it makes. -/
inductive Op
  | store (id : List UInt8) (pdata : Block) (timeout now : ℤ)
  | retrieve (id : List UInt8) (now now' : ℤ) (mallocOk : Bool)
  | remove (id : Option (List UInt8)) (now : ℤ)
  | expire (idx : ℕ) (now : ℤ)

/-- What a call returns. -/
inductive Result
  | stored (ok : Bool)
  | retrieved (res : LookupResult)
  | removed (ok : Bool)
  | expired (n : ℕ)

/-- A successful store. -/
structure Record where
  id : List UInt8
  pdata : List UInt8
  timeout : ℤ

/-- A segment with the successful stores so far and the last clock reading. -/
structure Session where
  seg : Segment
  log : List Record
  clock : ℤ

/-- One call on a segment; `none` when it dereferences a null pointer. -/
def Segment.apply (s : Segment) : Op → Option (Segment × Result)
  | .store id pdata timeout now =>
      (shmcbStore s id pdata timeout now).map fun (s, ok) => (s, .stored ok)
  | .retrieve id now now' mallocOk =>
      (shmcbRetrieve s id now now' mallocOk).map fun (s, res) => (s, .retrieved res)
  | .remove id now => (shmcbRemove s id now).map fun (s, ok) => (s, .removed ok)
  | .expire idx now => (expireAt s idx now).map fun (s, n) => (s, .expired n)

/-- The store a call has made, by its result. -/
def Op.record : Op → Result → Option Record
  | .store id pdata timeout _, .stored true => some { id := id, pdata := pdata.bytes, timeout }
  | _, _ => none

/-- The first clock reading of a call. -/
def Op.now : Op → ℤ
  | .store _ _ _ now => now
  | .retrieve _ now _ _ => now
  | .remove _ now => now
  | .expire _ now => now

/-- The last clock reading of a call. -/
def Op.clock : Op → ℤ
  | .retrieve _ _ now' _ => now'
  | op => op.now

namespace Session

/-- One call of a session. -/
def step (s : Session) (op : Op) : Option Session :=
  (s.seg.apply op).map fun (seg, res) =>
    { seg, log := s.log ++ (op.record res).toList, clock := op.clock }

/-- The stores of a session that fell into a division. -/
def logOf (s : Session) (i : ℕ) : List Record :=
  s.log.filter fun r => maskedIndex s.seg.header r.id = i

/-- The live entries of a division. -/
def live (s : Session) (i : ℕ) : List SHMCBIndex :=
  (s.seg.division i).live s.seg.header.indexNum

/-- A session that starts: all four positions of every division are zero. -/
structure Initial (s : Session) : Prop where
  geometry : s.seg.header.Geometry
  queueFirst : ∀ i ≤ s.seg.header.divisionMask, (s.seg.division i).queueFirst = 0
  queueCount : ∀ i ≤ s.seg.header.divisionMask, (s.seg.division i).queueCount = 0
  cacheFirst : ∀ i ≤ s.seg.header.divisionMask, (s.seg.division i).cacheFirst = 0
  cacheCount : ∀ i ≤ s.seg.header.divisionMask, (s.seg.division i).cacheCount = 0
  log : s.log = []

end Session

/-! ## What one call can do -/

/-- Two headers that differ in their counters only. -/
def SHMCBHeader.SameLayout (h h' : SHMCBHeader) : Prop :=
  h' = { h with
    numStores := h'.numStores, numExpiries := h'.numExpiries, numScrolled := h'.numScrolled
    numRetrievesHit := h'.numRetrievesHit, numRetrievesMiss := h'.numRetrievesMiss
    numRemovesHit := h'.numRemovesHit, numRemovesMiss := h'.numRemovesMiss }

namespace SHMCBHeader.SameLayout

variable {h h' : SHMCBHeader}

theorem indexNum (hs : h.SameLayout h') : h'.indexNum = h.indexNum := by
  rw [SameLayout] at hs
  rw [hs]

theorem cacheDataSize (hs : h.SameLayout h') : h'.cacheDataSize = h.cacheDataSize := by
  rw [SameLayout] at hs
  rw [hs]

theorem divisionMask (hs : h.SameLayout h') : h'.divisionMask = h.divisionMask := by
  rw [SameLayout] at hs
  rw [hs]

theorem geometry (hs : h.SameLayout h') (hg : h.Geometry) : h'.Geometry := by
  have hq : h'.queueSize = h.queueSize := by
    rw [SameLayout] at hs
    rw [hs]
  exact ⟨hs.indexNum ▸ hg.1, hs.cacheDataSize ▸ hg.2, hs.cacheDataSize ▸ hg.3,
    by rw [hq, hs.indexNum, hg.4], hq ▸ hg.5⟩

theorem trans {h'' : SHMCBHeader} (hs : h.SameLayout h') (hs' : h'.SameLayout h'') :
    h.SameLayout h'' := by
  rw [SameLayout] at hs hs' ⊢
  rw [hs', hs]

end SHMCBHeader.SameLayout

/-- A segment with a sound header and well-formed divisions. -/
structure Segment.Wf (s : Segment) : Prop where
  geometry : s.header.Geometry
  divisions : ∀ i ≤ s.header.divisionMask,
    (s.division i).Wf s.header.indexNum s.header.cacheDataSize

/-- A segment stays well formed when one division is replaced by a well-formed one. -/
theorem Segment.Wf.update {s s' : Segment} (hs : s.Wf) (hsame : s.header.SameLayout s'.header)
    {i : ℕ} {d' : Division} (hdiv : s'.division = Function.update s.division i d')
    (hd' : d'.Wf s.header.indexNum s.header.cacheDataSize) : s'.Wf := by
  refine ⟨hsame.geometry hs.geometry, fun j hj => ?_⟩
  rw [hsame.divisionMask] at hj
  rw [hsame.indexNum, hsame.cacheDataSize, hdiv]
  rcases eq_or_ne j i with rfl | hne
  · rw [Function.update_self]
    exact hd'
  · rw [Function.update_of_ne hne]
    exact hs.divisions j hj

/-- What one call can do to the division it works on: drop leading entries, then append
the entry of a successful store, or flag one live entry. -/
inductive Effect (n m : ℕ) (d d' : Division) : Option Record → Prop
  | rolled (k : ℕ) : Rolled n m k d d' → Effect n m d d' none
  | appended (k : ℕ) (d₁ : Division) (r : Record) : Rolled n m k d d₁ →
      Appended n m d₁ d' r.id r.pdata r.timeout → Effect n m d d' (some r)
  | flagged (j : ℕ) : j < d.queueCount → d' = d.flagRemoved ((d.queueFirst + j) % n) →
      Effect n m d d' none

/-- The retrievals a call counts as. -/
def Op.retrieves : Op → ℕ
  | .retrieve .. => 1
  | _ => 0

/-- The removals of a non-null id a call counts as. -/
def Op.removes : Op → ℕ
  | .remove (some _) _ => 1
  | _ => 0

/-- What one call does to the counters, when it turns the division `d` into `d'`: every
entry that leaves the queue is counted as expired or as scrolled out, every entry that
enters it as a store, and a retrieval or a removal as one hit or one miss. -/
structure Counted (h h' : SHMCBHeader) (d d' : Division) (op : Op) : Prop where
  stores : h'.numStores + (d.queueCount + h.numExpiries + h.numScrolled)
    = h.numStores + (d'.queueCount + h'.numExpiries + h'.numScrolled)
  retrieves : h'.numRetrievesHit + h'.numRetrievesMiss
    = h.numRetrievesHit + h.numRetrievesMiss + op.retrieves
  removes : h'.numRemovesHit + h'.numRemovesMiss
    = h.numRemovesHit + h.numRemovesMiss + op.removes

theorem Counted.refl {op : Op} (h : SHMCBHeader) (d : Division) (hret : op.retrieves = 0)
    (hrem : op.removes = 0) : Counted h h d d op :=
  ⟨rfl, by rw [hret, Nat.add_zero], by rw [hrem, Nat.add_zero]⟩

theorem maskedIndex_le (h : SHMCBHeader) (id : List UInt8) : maskedIndex h id ≤ h.divisionMask :=
  Nat.and_le_right

theorem shmcbGetDivision_of_le {s : Segment} {i : ℕ} (hi : i ≤ s.header.divisionMask) :
    shmcbGetDivision s i = some (s.division i) :=
  if_neg (Nat.not_lt.mpr hi)

/-- A call returns, and what it does to the segment is `Effect` on one division. -/
def Segment.Works (s : Segment) (op : Op) : Prop :=
  ∃ s' res i d', s.apply op = some (s', res)
    ∧ s.header.SameLayout s'.header
    ∧ i ≤ s.header.divisionMask
    ∧ s'.division = Function.update s.division i d'
    ∧ Effect s.header.indexNum s.header.cacheDataSize (s.division i) d' (op.record res)
    ∧ (∀ r ∈ op.record res, maskedIndex s.header r.id = i)
    ∧ Counted s.header s'.header (s.division i) d' op

section Works

variable {s : Segment} (hg : s.header.Geometry)
  (hwf : ∀ i ≤ s.header.divisionMask, (s.division i).Wf s.header.indexNum s.header.cacheDataSize)
include hwf

/-- A call that leaves the segment alone. -/
theorem Segment.works_of_unchanged {op : Op} {res : Result} (happly : s.apply op = some (s, res))
    (hrec : op.record res = none) (hret : op.retrieves = 0) (hrem : op.removes = 0) :
    s.Works op := by
  refine ⟨s, res, 0, s.division 0, happly, rfl, Nat.zero_le _, ?_, ?_, ?_, .refl _ _ hret hrem⟩
  · rw [Function.update_eq_self]
  · rw [hrec]
    exact .rolled 0 (.zero (hwf 0 (Nat.zero_le _)))
  · rw [hrec]
    intro r hr
    cases hr

include hg

/-- A store drops leading entries and appends its own, if there is room. -/
theorem Segment.store_works (id : List UInt8) (pdata : Block) (timeout now : ℤ) :
    s.Works (.store id pdata timeout now) := by
  have hi := maskedIndex_le s.header id
  obtain ⟨j, k, d₁, d', ok, hins, hroll, hjk, hres⟩ := shmcbInsertInternal_spec hg (hwf _ hi) id
    pdata.length_lt timeout now
  generalize hh : ({ s.header with
    numExpiries := s.header.numExpiries + j
    numScrolled := s.header.numScrolled + k } : SHMCBHeader) = h₁ at hins
  have happly : s.apply (.store id pdata timeout now)
      = some ({ header := if ok then { h₁ with numStores := h₁.numStores + 1 } else h₁
                division := Function.update s.division (maskedIndex s.header id) d' },
          .stored ok) := by
    simp only [Segment.apply, shmcbStore, shmcbGetDivision_of_le hi, hins, Option.map_some]
  have hcount := hroll.queueCount_eq
  subst hh
  cases ok with
  | false =>
      obtain rfl : d' = d₁ := by simpa using hres
      refine ⟨_, _, maskedIndex s.header id, d', happly, rfl, hi, rfl, .rolled _ hroll,
        by simp [Op.record], ?_, rfl, rfl⟩
      simp only [Bool.false_eq_true, if_false]
      omega
  | true =>
      rw [if_pos rfl] at hres
      have hnext := hres.queueCount_eq
      refine ⟨_, _, maskedIndex s.header id, d', happly, rfl, hi, rfl,
        .appended _ d₁ { id, pdata := pdata.bytes, timeout } hroll hres,
        by simp [Op.record], ?_, rfl, rfl⟩
      simp only [if_true]
      omega

/-- A retrieval drops the leading entries that have expired. -/
theorem Segment.retrieve_works (id : List UInt8) (now now' : ℤ) (mallocOk : Bool) :
    s.Works (.retrieve id now now' mallocOk) := by
  have hi := maskedIndex_le s.header id
  obtain ⟨k, d', hlook, hroll, hk⟩ :=
    shmcbLookupInternal_spec hg (hwf _ hi) id now now' mallocOk
  generalize lookupResult s.header d' mallocOk _ = res at hlook
  generalize hh : ({ s.header with numExpiries := s.header.numExpiries + k } : SHMCBHeader)
    = h₁ at hlook
  have happly : s.apply (.retrieve id now now' mallocOk)
      = some ({ header := if res.pdata.isSome
                  then { h₁ with numRetrievesHit := h₁.numRetrievesHit + 1 }
                  else { h₁ with numRetrievesMiss := h₁.numRetrievesMiss + 1 }
                division := Function.update s.division (maskedIndex s.header id) d' },
          .retrieved res) := by
    simp only [Segment.apply, shmcbRetrieve, shmcbGetDivision_of_le hi, hlook, Option.map_some]
  have hcount := hroll.queueCount_eq
  have hle : k ≤ (s.division (maskedIndex s.header id)).queueCount :=
    hk ▸ length_takeWhile_live_le ..
  subst hh
  refine ⟨_, _, maskedIndex s.header id, d', happly, ?_, hi, rfl, .rolled _ hroll,
    by simp [Op.record], ?_⟩
  · simp only
    split <;> rfl
  · simp only
    split
    all_goals
      refine ⟨?_, ?_, rfl⟩
      · simp only
        omega
      · simp only [Op.retrieves]
        omega

/-- A removal flags one entry, or drops the leading entries that have expired. -/
theorem Segment.remove_works (id : Option (List UInt8)) (now : ℤ) :
    s.Works (.remove id now) := by
  cases id with
  | none =>
      exact works_of_unchanged hwf rfl rfl rfl rfl
  | some id =>
      have hi := maskedIndex_le s.header id
      rcases shmcbRemoveInternal_spec hg (hwf _ hi) id now with
        ⟨j, hj, hrem, -⟩ | ⟨k, d', hrem, hroll, hk, -⟩
      · refine ⟨{ header := { s.header with numRemovesHit := s.header.numRemovesHit + 1 }
                  division := Function.update s.division (maskedIndex s.header id) _ },
          .removed true, maskedIndex s.header id, _, ?_, rfl, hi, rfl, .flagged j hj rfl,
          by simp [Op.record], rfl, rfl, ?_⟩
        · simp only [Segment.apply, shmcbRemove, shmcbGetDivision_of_le hi, hrem,
            Option.map_some, if_true]
        · simp only [Op.removes]
          omega
      · refine ⟨{ header := { s.header with
                    numExpiries := s.header.numExpiries + k
                    numRemovesMiss := s.header.numRemovesMiss + 1 }
                  division := Function.update s.division (maskedIndex s.header id) d' },
          .removed false, maskedIndex s.header id, d', ?_, rfl, hi, rfl, .rolled k hroll,
          by simp [Op.record], ?_, rfl, ?_⟩
        · simp only [Segment.apply, shmcbRemove, shmcbGetDivision_of_le hi, hrem,
            Option.map_some, Bool.false_eq_true, if_false]
        · have hcount := hroll.queueCount_eq
          have hle : k ≤ (s.division (maskedIndex s.header id)).queueCount :=
            hk ▸ length_takeWhile_live_le ..
          simp only
          omega
        · simp only [Op.removes]
          omega

/-- An expiry drops the leading entries that have expired. -/
theorem Segment.expire_works (idx : ℕ) (now : ℤ) : s.Works (.expire idx now) := by
  rcases Nat.lt_or_ge s.header.divisionMask idx with hout | hi
  · have happly : s.apply (.expire idx now) = some (s, .expired 0) := by
      simp only [Segment.apply, expireAt, shmcbGetDivision, if_pos hout, Option.map_some]
    exact works_of_unchanged hwf happly rfl rfl rfl
  · obtain ⟨k, d', hexp, hroll, hk, -⟩ := shmcbExpireDivision_spec hg (hwf _ hi) now
    refine ⟨{ header := { s.header with numExpiries := s.header.numExpiries + k }
              division := Function.update s.division idx d' },
      .expired k, idx, d', ?_, rfl, hi, rfl, .rolled k hroll, by simp [Op.record], ?_, rfl, rfl⟩
    · simp only [Segment.apply, expireAt, shmcbGetDivision_of_le hi, hexp, Option.map_some]
    · have hcount := hroll.queueCount_eq
      have hle : k ≤ (s.division idx).queueCount := hk ▸ length_takeWhile_live_le ..
      simp only
      omega

end Works

/-- **A call returns, keeps the layout, and works on one division**, in one of the ways
`Effect` lists; a store that succeeds works on the division of its id, and the counters move
with the entries. -/
theorem Segment.apply_effect {s : Segment} (hg : s.header.Geometry)
    (hwf : ∀ i ≤ s.header.divisionMask,
      (s.division i).Wf s.header.indexNum s.header.cacheDataSize) (op : Op) :
    ∃ s' res i d', s.apply op = some (s', res)
      ∧ s.header.SameLayout s'.header
      ∧ i ≤ s.header.divisionMask
      ∧ s'.division = Function.update s.division i d'
      ∧ Effect s.header.indexNum s.header.cacheDataSize (s.division i) d' (op.record res)
      ∧ (∀ r ∈ op.record res, maskedIndex s.header r.id = i)
      ∧ Counted s.header s'.header (s.division i) d' op := by
  cases op with
  | store id pdata timeout now => exact store_works hg hwf id pdata timeout now
  | retrieve id now now' mallocOk => exact retrieve_works hg hwf id now now' mallocOk
  | remove id now => exact remove_works hg hwf id now
  | expire idx now => exact expire_works hg hwf idx now

end Zevent.Cache

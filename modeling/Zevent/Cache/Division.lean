/-
# Operations on one division (`zcache_shmcb.c`)

`shmcb_expire_division`, `shmcb_insert_internal`, `shmcb_lookup_internal` and
`shmcb_remove_internal`, translated line by line, and for each of them what it does to the
list of live entries.

Every function returns `none` where the source dereferences a null index pointer; the
specifications show that it never does on a well-formed division.  `time(NULL)` is an
argument of the function that reads it.

The abstract view of a division is `Division.live`, the entries in use from the oldest to
the newest, and `Division.Wf` is its representation invariant.  Expiry and scrolling drop
entries from the front of the list (`Rolled`), an insertion appends one at the back
(`Appended`), and a removal sets the flag of one of them.
-/
import Zevent.Cache.Cyclic

namespace Zevent.Cache

open RingBuffer

/-! ## The functions of the source -/

/-- `shmcb_get_index`; `none` is the null pointer. -/
def shmcbGetIndex (h : SHMCBHeader) (d : Division) (idx : ℕ) : Option SHMCBIndex :=
  if idx > h.indexNum then none else some (d.indexes idx)

/-- The `while` loop of `shmcb_expire_division`: the number of leading entries that have
expired, and the position of the entry after them.  The first argument is the number of
entries the loop has not looked at. -/
def expireScan (h : SHMCBHeader) (d : Division) (now : ℤ) : ℕ → ℕ → ℕ → Option (ℕ × ℕ)
  | 0, loop, newPos => some (loop, newPos)
  | rest + 1, loop, newPos =>
      (shmcbGetIndex h d newPos).bind fun idx =>
        if idx.expires > now then some (loop, newPos)
        else expireScan h d now rest (loop + 1) (shmcbCyclicIncrement h.indexNum newPos 1)

/-- Drop the first `loop` entries, the next one being `idx` at position `newPos`: the four
assignments that end both the expiry and the scrolling. -/
def dropLeading (h : SHMCBHeader) (d : Division) (loop newPos : ℕ) (idx : SHMCBIndex) :
    Division :=
  { d with
    queueCount := u32 (d.queueCount - loop)
    queueFirst := newPos
    cacheCount := u32 (d.cacheCount - shmcbCyclicSpace h.cacheDataSize d.cacheFirst idx.offset)
    cacheFirst := idx.offset }

/-- The `if (loop > 0)` block of `shmcb_expire_division`. -/
def expireLeading (h : SHMCBHeader) (d : Division) (loop newPos : ℕ) : Option Division :=
  if loop > 0 then
    if loop = d.queueCount then some { d with queueCount := 0, cacheCount := 0 }
    else (shmcbGetIndex h d newPos).map fun idx => dropLeading h d loop newPos idx
  else some d

/-- `shmcb_expire_division`. -/
def shmcbExpireDivision (h : SHMCBHeader) (d : Division) (now : ℤ) :
    Option (SHMCBHeader × Division × ℕ) :=
  (expireScan h d now d.queueCount 0 d.queueFirst).bind fun (loop, newPos) =>
    (expireLeading h d loop newPos).map fun d' =>
      ({ h with numExpiries := h.numExpiries + loop }, d', loop)

/-- The `while` loop of `shmcb_insert_internal`: how many entries to scroll out for `nlen`
bytes when `gap` are free, the position of the entry after them and that entry.  The first
argument is the number of times `loop + 1 < pos_count` can still hold. -/
def scrollScan (h : SHMCBHeader) (d : Division) (nlen gap : ℕ) :
    ℕ → ℕ → ℕ → ℤ → Option SHMCBIndex → Option (ℕ × ℕ × Option SHMCBIndex)
  | 0, loop, newPos, _, idx => some (loop, newPos, idx)
  | rest + 1, loop, newPos, need, idx =>
      if need > 0 then
        let newPos := shmcbCyclicIncrement h.indexNum newPos 1
        (shmcbGetIndex h d newPos).bind fun idx =>
          scrollScan h d nlen gap rest (loop + 1) newPos
            (i32 (i32 nlen - i32 gap
              - shmcbCyclicSpace h.cacheDataSize d.cacheFirst idx.offset))
            (some idx)
      else some (loop, newPos, idx)

/-- The `if (gap < nlen)` block of `shmcb_insert_internal`: scroll out leading entries,
but never the last one. -/
def scrollDivision (h : SHMCBHeader) (d : Division) (nlen : ℕ) :
    Option (SHMCBHeader × Division) :=
  let gap := u32 (h.cacheDataSize - d.cacheCount)
  if gap < nlen then
    (scrollScan h d nlen gap (d.queueCount - 1) 0 d.queueFirst (i32 nlen - i32 gap) none).bind
      fun (loop, newPos, idx) =>
        if loop > 0 then
          idx.map fun idx =>
            ({ h with numScrolled := h.numScrolled + loop }, dropLeading h d loop newPos idx)
        else some (h, d)
  else some (h, d)

/-- The rest of `shmcb_insert_internal`: the two checks, the copy and the new index entry. -/
def appendEntry (h : SHMCBHeader) (d : Division) (id : List UInt8) (pdata : List UInt8)
    (expiryTime : ℤ) : Division × Bool :=
  let nlen := pdata.length
  if u32 (d.cacheCount + nlen) > h.cacheDataSize then (d, false)
  else if d.queueCount = h.indexNum then (d, false)
  else
    let newOffset := shmcbCyclicIncrement h.cacheDataSize d.cacheFirst d.cacheCount
    let d := { d with
      data := shmcbCyclicNtocMemcpy h.cacheDataSize d.data newOffset pdata nlen }
    let newPos := shmcbCyclicIncrement h.indexNum d.queueFirst d.queueCount
    match shmcbGetIndex h d newPos with
    | none => (d, false)
    | some _ =>
        ({ d with
            indexes := Function.update d.indexes newPos
              { expires := expiryTime, offset := newOffset, length := nlen,
                key := hash id 0, removed := false }
            cacheCount := u32 (d.cacheCount + nlen)
            queueCount := u32 (d.queueCount + 1) }, true)

/-- `shmcb_insert_internal`. -/
def shmcbInsertInternal (h : SHMCBHeader) (d : Division) (id pdata : List UInt8)
    (expiryTime now : ℤ) : Option (SHMCBHeader × Division × Bool) :=
  (shmcbExpireDivision h d now).bind fun (h, d, _) =>
    (scrollDivision h d pdata.length).map fun (h, d) =>
      (h, appendEntry h d id pdata expiryTime)

/-- The test of `shmcb_lookup_internal` on one entry. -/
def SHMCBIndex.Matches (idx : SHMCBIndex) (key : UInt32) (now : ℤ) : Prop :=
  idx.key = key ∧ idx.removed = false ∧ idx.expires > now

instance (idx : SHMCBIndex) (key : UInt32) (now : ℤ) : Decidable (idx.Matches key now) :=
  inferInstanceAs (Decidable (_ ∧ _ ∧ _))

/-- The `for` loop of `shmcb_lookup_internal`: the first entry that matches. -/
def lookupScan (h : SHMCBHeader) (d : Division) (key : UInt32) (now : ℤ) :
    ℕ → ℕ → Option (Option SHMCBIndex)
  | 0, _ => some none
  | rest + 1, currPos =>
      (shmcbGetIndex h d currPos).bind fun idx =>
        if idx.Matches key now then some (some idx)
        else lookupScan h d key now rest (shmcbCyclicIncrement h.indexNum currPos 1)

/-- What `shmcb_lookup_internal` gives its caller: the value stored through `len`, if it
stores one, and the block it returns. -/
structure LookupResult where
  len : Option ℕ
  pdata : Option (List UInt8)
deriving DecidableEq, Repr

/-- The end of `shmcb_lookup_internal` for the entry it found; `mallocOk` says whether the
allocation of the block succeeds. -/
def lookupResult (h : SHMCBHeader) (d : Division) (mallocOk : Bool) :
    Option SHMCBIndex → LookupResult
  | none => { len := none, pdata := none }
  | some idx =>
      { len := some idx.length
        pdata := if mallocOk then
            some (shmcbCyclicCtonMemcpy h.cacheDataSize d.data idx.offset idx.length)
          else none }

/-- `shmcb_lookup_internal`.  The clock is read twice, by the expiry and by the lookup. -/
def shmcbLookupInternal (h : SHMCBHeader) (d : Division) (id : List UInt8) (now now' : ℤ)
    (mallocOk : Bool) : Option (SHMCBHeader × Division × LookupResult) :=
  (shmcbExpireDivision h d now).bind fun (h, d, _) =>
    (lookupScan h d (hash id 0) now' d.queueCount d.queueFirst).map fun found =>
      (h, d, lookupResult h d mallocOk found)

/-- The `for` loop of `shmcb_remove_internal`: the position of the first entry with the
key, whether or not it is flagged already. -/
def removeScan (h : SHMCBHeader) (d : Division) (key : UInt32) : ℕ → ℕ → Option (Option ℕ)
  | 0, _ => some none
  | rest + 1, currPos =>
      (shmcbGetIndex h d currPos).bind fun idx =>
        if idx.key = key then some (some currPos)
        else removeScan h d key rest (shmcbCyclicIncrement h.indexNum currPos 1)

/-- Set the `removed` flag of the entry at a position. -/
def Division.flagRemoved (d : Division) (pos : ℕ) : Division :=
  { d with indexes := Function.update d.indexes pos { d.indexes pos with removed := true } }

/-- `shmcb_remove_internal`: a miss expires entries, a hit does not. -/
def shmcbRemoveInternal (h : SHMCBHeader) (d : Division) (id : List UInt8) (now : ℤ) :
    Option (SHMCBHeader × Division × Bool) :=
  (removeScan h d (hash id 0) d.queueCount d.queueFirst).bind fun found =>
    match found with
    | some pos => some (h, d.flagRemoved pos, true)
    | none => (shmcbExpireDivision h d now).map fun (h, d, _) => (h, d, false)

/-! ## The representation invariant -/

/-- The region of the data ring an entry describes. -/
def SHMCBIndex.region (e : SHMCBIndex) : ℕ × ℕ := (e.offset, e.length)

namespace Division

/-- The entries in use, from the oldest to the newest, in a queue of `n` entries. -/
def live (n : ℕ) (d : Division) : List SHMCBIndex :=
  read n d.indexes d.queueFirst d.queueCount

/-- The regions of the entries in use. -/
def regions (n : ℕ) (d : Division) : List (ℕ × ℕ) := (d.live n).map SHMCBIndex.region

/-- The bytes of an entry, as `shmcb_lookup_internal` copies them out. -/
def payload (m : ℕ) (d : Division) (e : SHMCBIndex) : List UInt8 :=
  shmcbCyclicCtonMemcpy m d.data e.offset e.length

/-- The representation invariant of a division with `n` index entries and `m` bytes.  The
byte count is the sum of the live lengths, except that it may stand at a full ring when
every live entry is empty: that is where the difference of two offsets cannot tell a full
ring from an empty one. -/
structure Wf (n m : ℕ) (d : Division) : Prop where
  queueCount_le : d.queueCount ≤ n
  queueFirst_lt : d.queueFirst < n
  cacheFirst_lt : d.cacheFirst < m
  cacheCount_le : d.cacheCount ≤ m
  tiled : Tiled m d.cacheFirst (d.regions n)
  cacheCount_eq : d.cacheCount = total (d.regions n)
    ∨ d.cacheCount = m ∧ total (d.regions n) = 0
  empty : d.queueCount = 0 → d.cacheCount = 0

variable {n m : ℕ} {d d' : Division}

@[simp] theorem length_live (n : ℕ) (d : Division) : (d.live n).length = d.queueCount :=
  length_read ..

theorem Wf.total_le (hd : d.Wf n m) : total (d.regions n) ≤ d.cacheCount := by
  rcases hd.cacheCount_eq with h | ⟨-, h⟩ <;> omega

/-- When no live entry is empty the byte count is exact. -/
theorem Wf.cacheCount_eq_total (hd : d.Wf n m) (hpos : ∀ e ∈ d.live n, 1 ≤ e.length) :
    d.cacheCount = total (d.regions n) := by
  rcases hd.cacheCount_eq with h | ⟨-, hzero⟩
  · exact h
  · have hnil : d.live n = [] := by
      rcases hlive : d.live n with _ | ⟨e, l⟩
      · rfl
      · have := hpos e (by simp [hlive])
        simp [regions, hlive, SHMCBIndex.region] at hzero
        omega
    have hcount : d.queueCount = 0 := by rw [← length_live n, hnil, List.length_nil]
    rw [hd.empty hcount, hzero]

/-- A live entry lies in the ring. -/
theorem Wf.bounds (hd : d.Wf n m) {e : SHMCBIndex} (he : e ∈ d.live n) :
    e.offset < m ∧ e.length ≤ m := by
  obtain ⟨k, hk, rfl⟩ := List.getElem_of_mem he
  have hk' : k < (d.regions n).length := by simpa [regions] using hk
  have hoff := hd.tiled.offset_eq hk'
  have hsplit := total_take_add_drop (d.regions n) k
  rw [List.drop_eq_getElem_cons hk', total_cons] at hsplit
  have htotal := hd.total_le
  have hcount := hd.cacheCount_le
  have hm : 0 < m := Nat.zero_lt_of_lt hd.cacheFirst_lt
  have hreg : (d.regions n)[k] = ((d.live n)[k].offset, (d.live n)[k].length) := by
    simp [regions, SHMCBIndex.region]
  rw [hreg] at hoff hsplit
  simp only at hoff hsplit
  exact ⟨hoff ▸ Nat.mod_lt _ hm, by omega⟩

/-- The copy the lookup makes of a live entry is the ring read of its region. -/
theorem Wf.payload_eq (hd : d.Wf n m) (hm : m < 2147483648) {e : SHMCBIndex}
    (he : e ∈ d.live n) : d.payload m e = read m d.data e.offset e.length :=
  shmcbCyclicCtonMemcpy_eq _ hm (hd.bounds he).1 (hd.bounds he).2

/-- `d'` is `d` with its first `k` entries dropped. -/
structure Rolled (n m k : ℕ) (d d' : Division) : Prop where
  wf : d'.Wf n m
  live_eq : d'.live n = (d.live n).drop k
  data_eq : d'.data = d.data

/-- `d'` is `d` with one entry appended, its bytes written behind those in use. -/
structure Appended (n m : ℕ) (d d' : Division) (id pdata : List UInt8) (expiryTime : ℤ) :
    Prop where
  wf : d'.Wf n m
  live_eq : d'.live n = d.live n ++ [{
    expires := expiryTime, offset := (d.cacheFirst + d.cacheCount) % m,
    length := pdata.length, key := hash id 0, removed := false }]
  data_eq : d'.data = write m d.data (d.cacheFirst + d.cacheCount) pdata
  room : d.cacheCount + pdata.length ≤ m

theorem Rolled.zero (hd : d.Wf n m) : Rolled n m 0 d d := ⟨hd, rfl, rfl⟩

theorem Rolled.trans {d'' : Division} {j k : ℕ} (h : Rolled n m j d d')
    (h' : Rolled n m k d' d'') : Rolled n m (j + k) d d'' where
  wf := h'.wf
  live_eq := by rw [h'.live_eq, h.live_eq, List.drop_drop]
  data_eq := h'.data_eq.trans h.data_eq

theorem Rolled.queueCount_eq {k : ℕ} (h : Rolled n m k d d') :
    d'.queueCount = d.queueCount - k := by
  rw [← length_live n d', h.live_eq, List.length_drop, length_live]

theorem Appended.queueCount_eq {id pdata : List UInt8} {t : ℤ}
    (h : Appended n m d d' id pdata t) : d'.queueCount = d.queueCount + 1 := by
  rw [← length_live n d', h.live_eq, List.length_append, length_live, List.length_singleton]

/-- No more entries expire than are in use. -/
theorem length_takeWhile_live_le (n : ℕ) (d : Division) (p : SHMCBIndex → Bool) :
    ((d.live n).takeWhile p).length ≤ d.queueCount := by
  rw [← length_live n d]
  exact (List.takeWhile_sublist p).length_le

end Division

/-! ## What the loops find -/

section Scans

open Division

variable {h : SHMCBHeader} {d : Division}

theorem SHMCBHeader.Geometry.indexNum_lt (hg : h.Geometry) : h.indexNum < 2147483648 := by
  have h₁ := hg.queueSize_eq
  have h₂ := hg.queueSize_lt
  simp only [sizeofUInt, sizeofIndex] at h₁
  omega

/-- A position of the queue is never out of the bounds `shmcb_get_index` checks. -/
theorem shmcbGetIndex_mod (hg : h.Geometry) (d : Division) (pos : ℕ) :
    shmcbGetIndex h d (pos % h.indexNum) = some (d.indexes (pos % h.indexNum)) := by
  have hlt := Nat.mod_lt pos hg.indexNum_pos
  rw [shmcbGetIndex, if_neg (by omega)]

/-- Moving on by one entry. -/
theorem shmcbCyclicIncrement_mod (hg : h.Geometry) (pos : ℕ) :
    shmcbCyclicIncrement h.indexNum (pos % h.indexNum) 1 = (pos + 1) % h.indexNum := by
  have hlt := Nat.mod_lt pos hg.indexNum_pos
  have hnum := hg.indexNum_lt
  rw [shmcbCyclicIncrement_eq hg.indexNum_pos (by omega), Nat.mod_add_mod]

/-- The expiry loop counts the leading entries that have expired. -/
theorem expireScan_eq (hg : h.Geometry) (now : ℤ) (rest loop pos : ℕ) :
    expireScan h d now rest loop (pos % h.indexNum)
      = some (loop + ((read h.indexNum d.indexes pos rest).takeWhile
            fun e => decide (e.expires ≤ now)).length,
          (pos + ((read h.indexNum d.indexes pos rest).takeWhile
            fun e => decide (e.expires ≤ now)).length) % h.indexNum) := by
  induction rest generalizing loop pos with
  | zero => simp [expireScan]
  | succ rest ih =>
      rw [expireScan, shmcbGetIndex_mod hg, Option.bind_some, read_succ, List.takeWhile_cons]
      split
      · rename_i hfresh
        rw [if_neg (by simpa using hfresh)]
        simp
      · rename_i hexpired
        rw [if_pos (by simpa using hexpired), shmcbCyclicIncrement_mod hg, ih, List.length_cons]
        congr 2 <;> ring_nf

/-- What the scrolling loop still needs when it stands at the entry of a position. -/
def scrollNeed (h : SHMCBHeader) (d : Division) (nlen gap pos : ℕ) : ℤ :=
  i32 (i32 nlen - i32 gap
    - shmcbCyclicSpace h.cacheDataSize d.cacheFirst (d.indexes (pos % h.indexNum)).offset)

/-- The scrolling loop stops at the first entry where nothing is needed any more, or where
its rounds end, and returns that entry, unless it does not move. -/
theorem scrollScan_spec (hg : h.Geometry) (nlen gap rest loop pos : ℕ) (need : ℤ)
    (idx : Option SHMCBIndex) :
    ∃ k ≤ rest, scrollScan h d nlen gap rest loop (pos % h.indexNum) need idx
        = some (loop + k, (pos + k) % h.indexNum,
          if k = 0 then idx else some (d.indexes ((pos + k) % h.indexNum)))
      ∧ (k < rest → (if k = 0 then need else scrollNeed h d nlen gap (pos + k)) ≤ 0)
      ∧ ∀ j < k, 0 < if j = 0 then need else scrollNeed h d nlen gap (pos + j) := by
  induction rest generalizing loop pos need idx with
  | zero => exact ⟨0, le_rfl, by simp [scrollScan], by simp, by simp⟩
  | succ rest ih =>
      rw [scrollScan]
      split
      · rename_i hneed
        simp only [shmcbCyclicIncrement_mod hg, shmcbGetIndex_mod hg, Option.bind_some]
        obtain ⟨k, hk, heq, hlast, hfirst⟩ := ih (loop + 1) (pos + 1)
          (scrollNeed h d nlen gap (pos + 1)) (some (d.indexes ((pos + 1) % h.indexNum)))
        -- the need of the inner run, counted from the outer position
        have hshift : ∀ j, (if j = 0 then scrollNeed h d nlen gap (pos + 1)
            else scrollNeed h d nlen gap (pos + 1 + j))
          = scrollNeed h d nlen gap (pos + (j + 1)) := by
          intro j
          split
          · rename_i hj
            rw [hj]
          · congr 1
            ring
        refine ⟨k + 1, by omega, ?_, ?_, ?_⟩
        · rw [scrollNeed] at heq
          rw [heq, if_neg (by omega : ¬ k + 1 = 0)]
          rcases Nat.eq_zero_or_pos k with rfl | hk'
          · simp
          · rw [if_neg (by omega)]
            congr 2
            · ring
            · congr 2 <;> ring_nf
        · intro hlt
          rw [if_neg (by omega), ← hshift]
          exact hlast (by omega)
        · intro j hj
          rcases Nat.eq_zero_or_pos j with rfl | hj'
          · rwa [if_pos rfl]
          · obtain ⟨j, rfl⟩ := Nat.exists_eq_add_of_le' hj'
            rw [if_neg (by omega), ← hshift]
            exact hfirst j (by omega)
      · rename_i hneed
        exact ⟨0, by omega, by simp, fun _ => by simpa using hneed, by simp⟩

/-- The lookup loop returns the first live entry that matches. -/
theorem lookupScan_eq (hg : h.Geometry) (key : UInt32) (now : ℤ) (rest pos : ℕ) :
    lookupScan h d key now rest (pos % h.indexNum)
      = some ((read h.indexNum d.indexes pos rest).find? fun e => decide (e.Matches key now)) := by
  induction rest generalizing pos with
  | zero => simp [lookupScan]
  | succ rest ih =>
      rw [lookupScan, shmcbGetIndex_mod hg, Option.bind_some, read_succ, List.find?_cons]
      split
      · rename_i hmatch
        simp [hmatch]
      · rename_i hmiss
        rw [shmcbCyclicIncrement_mod hg, ih]
        simp [hmiss]

/-- The removal loop returns the position of the first live entry with the key. -/
theorem removeScan_eq (hg : h.Geometry) (key : UInt32) (rest pos : ℕ) :
    removeScan h d key rest (pos % h.indexNum)
      = some (((read h.indexNum d.indexes pos rest).findIdx? fun e => decide (e.key = key)).map
          fun j => (pos + j) % h.indexNum) := by
  induction rest generalizing pos with
  | zero => simp [removeScan]
  | succ rest ih =>
      rw [removeScan, shmcbGetIndex_mod hg, Option.bind_some, read_succ, List.findIdx?_cons]
      split
      · rename_i hkey
        simp [hkey]
      · rename_i hkey
        rw [shmcbCyclicIncrement_mod hg, ih]
        simp only [hkey, decide_false, Bool.false_eq_true, if_false, Option.map_map]
        congr 2
        funext j
        simp only [Function.comp_apply]
        ring_nf

end Scans

/-! ## What the operations do to the live entries -/

section Specs

open Division

variable {h : SHMCBHeader} {d : Division}

/-- The offset of a live entry is the position of the ring its bytes start at. -/
theorem Division.Wf.offset_eq {n m : ℕ} (hd : d.Wf n m) {k : ℕ} (hk : k < d.queueCount) :
    (d.indexes ((d.queueFirst + k) % n)).offset
      = (d.cacheFirst + total ((d.regions n).take k)) % m := by
  have hlen : k < (d.regions n).length := by simpa [regions] using hk
  rw [← hd.tiled.offset_eq hlen]
  simp [regions, SHMCBIndex.region, live, getElem_read]

/-- The bytes of leading entries are among those in use. -/
theorem Division.Wf.total_take_le {n m : ℕ} (hd : d.Wf n m) (k : ℕ) :
    total ((d.regions n).take k) ≤ d.cacheCount := by
  have hsplit := total_take_add_drop (d.regions n) k
  have htotal := hd.total_le
  omega

/-- The space from the first byte in use to a live entry is the number of bytes before it,
except after a full turn, where it is zero. -/
theorem Division.Wf.cyclicSpace_eq (hg : h.Geometry) (hd : d.Wf h.indexNum h.cacheDataSize)
    {k : ℕ} (hk : k < d.queueCount) :
    shmcbCyclicSpace h.cacheDataSize d.cacheFirst
        (d.indexes ((d.queueFirst + k) % h.indexNum)).offset
      = total ((d.regions h.indexNum).take k) % h.cacheDataSize := by
  have hsize := hg.cacheDataSize_lt
  rw [hd.offset_eq hk]
  exact shmcbCyclicSpace_add (by omega) hd.cacheFirst_lt
    ((hd.total_take_le k).trans hd.cacheCount_le)

/-- The byte count after leading entries are dropped. -/
theorem dropLeading_cacheCount (hg : h.Geometry) (hd : d.Wf h.indexNum h.cacheDataSize) {k : ℕ}
    (hk : k < d.queueCount) :
    (dropLeading h d k ((d.queueFirst + k) % h.indexNum)
        (d.indexes ((d.queueFirst + k) % h.indexNum))).cacheCount
      = d.cacheCount - total ((d.regions h.indexNum).take k) % h.cacheDataSize := by
  have hsize := hg.cacheDataSize_lt
  have hcache := hd.cacheCount_le
  have hle := Nat.mod_le (total ((d.regions h.indexNum).take k)) h.cacheDataSize
  have htake := hd.total_take_le k
  simp only [dropLeading, hd.cyclicSpace_eq hg hk]
  exact u32_eq (by omega) (by omega)

/-- **Dropping leading entries keeps the invariant**, provided one entry is left.  The
bytes freed are found from the offset of that entry: the difference is the number of bytes
dropped, except after a full turn of empty entries, where it is zero. -/
theorem dropLeading_rolled (hg : h.Geometry) (hd : d.Wf h.indexNum h.cacheDataSize) {k : ℕ}
    (hk : k < d.queueCount) :
    Rolled h.indexNum h.cacheDataSize k d
      (dropLeading h d k ((d.queueFirst + k) % h.indexNum)
        (d.indexes ((d.queueFirst + k) % h.indexNum))) := by
  have hnum := hg.indexNum_lt
  have hcount := hd.queueCount_le
  have hoffset := hd.offset_eq hk
  have hbytes := dropLeading_cacheCount hg hd hk
  have hsplit := total_take_add_drop (d.regions h.indexNum) k
  have htotal := hd.total_le
  have hcache := hd.cacheCount_le
  have hqueue : u32 ((d.queueCount : ℤ) - k) = d.queueCount - k := u32_eq (by omega) (by omega)
  have hlive : (dropLeading h d k ((d.queueFirst + k) % h.indexNum)
      (d.indexes ((d.queueFirst + k) % h.indexNum))).live h.indexNum
        = (d.live h.indexNum).drop k := by
    simp only [live, dropLeading, hqueue]
    rw [read_mod, drop_read]
  have hregions : (dropLeading h d k ((d.queueFirst + k) % h.indexNum)
      (d.indexes ((d.queueFirst + k) % h.indexNum))).regions h.indexNum
        = (d.regions h.indexNum).drop k := by
    simp only [regions, hlive, List.map_drop]
  refine ⟨?_, hlive, rfl⟩
  constructor
  · simp only [dropLeading, hqueue]
    omega
  · exact Nat.mod_lt _ hg.indexNum_pos
  · simp only [dropLeading, hoffset]
    exact Nat.mod_lt _ hg.cacheDataSize_pos
  · rw [hbytes]
    omega
  · rw [hregions]
    simp only [dropLeading, hoffset]
    exact tiled_mod (by rw [Nat.mod_mod]) (hd.tiled.drop k)
  · rw [hregions, hbytes]
    rcases Nat.lt_or_ge (total ((d.regions h.indexNum).take k)) h.cacheDataSize with hlt | hge
    · rw [Nat.mod_eq_of_lt hlt]
      rcases hd.cacheCount_eq with heq | ⟨heq, hzero⟩
      · exact .inl (by omega)
      · exact .inr (by omega)
    · have hfull : total ((d.regions h.indexNum).take k) = h.cacheDataSize := by omega
      rw [hfull, Nat.mod_self]
      exact .inr (by omega)
  · simp only [dropLeading, hqueue]
    omega

/-- Dropping the leading entries that have expired, be it all of them. -/
theorem expireLeading_spec (hg : h.Geometry) (hd : d.Wf h.indexNum h.cacheDataSize) {k : ℕ}
    (hk : k ≤ d.queueCount) :
    ∃ d', expireLeading h d k ((d.queueFirst + k) % h.indexNum) = some d'
      ∧ Rolled h.indexNum h.cacheDataSize k d d'
      ∧ d'.cacheCount = if k = d.queueCount then 0
          else d.cacheCount - total ((d.regions h.indexNum).take k) % h.cacheDataSize := by
  rw [expireLeading]
  split_ifs with hpos hall
  · refine ⟨_, rfl, ⟨?_, ?_, rfl⟩, rfl⟩
    · exact ⟨Nat.zero_le _, hd.queueFirst_lt, hd.cacheFirst_lt, Nat.zero_le _, trivial,
        .inl rfl, fun _ => rfl⟩
    · rw [List.drop_eq_nil_of_le (by rw [length_live, hall])]
      rfl
  · rw [shmcbGetIndex_mod hg]
    exact ⟨_, rfl, dropLeading_rolled hg hd (by omega), dropLeading_cacheCount hg hd (by omega)⟩
  · obtain rfl : k = 0 := by omega
    exact ⟨d, rfl, .zero hd, hd.empty (by omega)⟩
  · obtain rfl : k = 0 := by omega
    exact ⟨d, rfl, .zero hd, by simp⟩

/-- **Expiry** drops exactly the leading entries that have expired. -/
theorem shmcbExpireDivision_spec (hg : h.Geometry) (hd : d.Wf h.indexNum h.cacheDataSize)
    (now : ℤ) :
    ∃ k d', shmcbExpireDivision h d now
        = some ({ h with numExpiries := h.numExpiries + k }, d', k)
      ∧ Rolled h.indexNum h.cacheDataSize k d d'
      ∧ k = ((d.live h.indexNum).takeWhile fun e => decide (e.expires ≤ now)).length
      ∧ d'.cacheCount = if k = d.queueCount then 0
          else d.cacheCount - total ((d.regions h.indexNum).take k) % h.cacheDataSize := by
  have hscan := expireScan_eq (d := d) hg now d.queueCount 0 d.queueFirst
  rw [Nat.mod_eq_of_lt hd.queueFirst_lt, Nat.zero_add] at hscan
  change expireScan h d now d.queueCount 0 d.queueFirst
    = some (((d.live h.indexNum).takeWhile fun e => decide (e.expires ≤ now)).length,
        (d.queueFirst + ((d.live h.indexNum).takeWhile
          fun e => decide (e.expires ≤ now)).length) % h.indexNum) at hscan
  generalize hk : ((d.live h.indexNum).takeWhile fun e => decide (e.expires ≤ now)).length = k
    at hscan
  have hle : k ≤ d.queueCount := by
    rw [← hk]
    exact length_takeWhile_live_le ..
  obtain ⟨d', heq, hroll, hbytes⟩ := expireLeading_spec hg hd hle
  refine ⟨k, d', ?_, hroll, rfl, hbytes⟩
  rw [shmcbExpireDivision, hscan, Option.bind_some]
  simp only [heq, Option.map_some]

/-- What the scrolling loop needs when it has passed `j` entries. -/
def scrollNeedAt (h : SHMCBHeader) (d : Division) (nlen j : ℕ) : ℤ :=
  if j = 0 then i32 nlen - i32 (u32 (h.cacheDataSize - d.cacheCount))
  else scrollNeed h d nlen (u32 (h.cacheDataSize - d.cacheCount)) (d.queueFirst + j)

/-- `d'` is `d` after the first `k` entries were scrolled out for `nlen` bytes: none if the
bytes are free, and else as few as the need goes down with, but not the last one. -/
structure Scrolled (h : SHMCBHeader) (nlen k : ℕ) (d d' : Division) : Prop where
  rolled : Rolled h.indexNum h.cacheDataSize k d d'
  le : k ≤ d.queueCount - 1
  cacheCount_eq : d'.cacheCount
    = d.cacheCount - total ((d.regions h.indexNum).take k) % h.cacheDataSize
  free : nlen ≤ u32 (h.cacheDataSize - d.cacheCount) → k = 0
  enough : u32 (h.cacheDataSize - d.cacheCount) < nlen → k < d.queueCount - 1 →
    scrollNeedAt h d nlen k ≤ 0
  needed : ∀ j < k, 0 < scrollNeedAt h d nlen j

/-- **Scrolling** drops some of the leading entries, never the last one. -/
theorem scrollDivision_spec (hg : h.Geometry) (hd : d.Wf h.indexNum h.cacheDataSize)
    (nlen : ℕ) :
    ∃ k d', scrollDivision h d nlen
        = some ({ h with numScrolled := h.numScrolled + k }, d') ∧ Scrolled h nlen k d d' := by
  rw [scrollDivision]
  simp only
  split
  · rename_i hgap
    obtain ⟨k, hk, hscan, hlast, hfirst⟩ := scrollScan_spec (d := d) hg nlen
      (u32 (h.cacheDataSize - d.cacheCount)) (d.queueCount - 1) 0 d.queueFirst
      (i32 nlen - i32 (u32 (h.cacheDataSize - d.cacheCount))) none
    rw [Nat.mod_eq_of_lt hd.queueFirst_lt, Nat.zero_add] at hscan
    rw [hscan, Option.bind_some]
    simp only
    rcases Nat.eq_zero_or_pos k with rfl | hpos
    · exact ⟨0, d, by simp, .zero hd, hk, by simp, fun _ => rfl, fun _ => hlast, hfirst⟩
    · rw [if_pos hpos, if_neg (by omega)]
      exact ⟨k, _, rfl, dropLeading_rolled hg hd (by omega), hk,
        dropLeading_cacheCount hg hd (by omega), fun hfree => absurd hgap (not_lt.mpr hfree),
        fun _ => hlast, hfirst⟩
  · rename_i hgap
    exact ⟨0, d, rfl, .zero hd, Nat.zero_le _, by simp, fun _ => rfl,
      fun hlt => absurd hlt hgap, by simp⟩

/-- **Appending** either does nothing and fails, or adds one entry behind the live ones
and writes its bytes behind those in use. -/
theorem appendEntry_spec (hg : h.Geometry) (hd : d.Wf h.indexNum h.cacheDataSize)
    (id : List UInt8) {pdata : List UInt8} (hlen : pdata.length < 2147483648)
    (expiryTime : ℤ) :
    appendEntry h d id pdata expiryTime = (d, false)
      ∨ ∃ d', appendEntry h d id pdata expiryTime = (d', true)
        ∧ Appended h.indexNum h.cacheDataSize d d' id pdata expiryTime := by
  have hsize := hg.cacheDataSize_lt
  have hnum := hg.indexNum_lt
  have hcount := hd.queueCount_le
  have hcache := hd.cacheCount_le
  have hqfirst := hd.queueFirst_lt
  have hcfirst := hd.cacheFirst_lt
  have hsum : u32 ((d.cacheCount : ℤ) + pdata.length) = d.cacheCount + pdata.length :=
    u32_eq (by push_cast; rfl) (by omega)
  have hnext : u32 ((d.queueCount : ℤ) + 1) = d.queueCount + 1 :=
    u32_eq (by push_cast; rfl) (by omega)
  rw [appendEntry]
  simp only [hsum, hnext]
  split_ifs with hbig hfull
  · exact .inl rfl
  · exact .inl rfl
  · right
    rw [shmcbCyclicIncrement_eq hg.cacheDataSize_pos (by omega),
      shmcbCyclicIncrement_eq hg.indexNum_pos (by omega), shmcbGetIndex_mod hg,
      shmcbCyclicNtocMemcpy_eq _ hsize (Nat.mod_lt _ hg.cacheDataSize_pos) (by omega), write_mod]
    refine ⟨_, rfl, ?_⟩
    have hlive := read_update_succ d.indexes d.queueFirst (by omega : d.queueCount < h.indexNum)
      { expires := expiryTime, offset := (d.cacheFirst + d.cacheCount) % h.cacheDataSize,
        length := pdata.length, key := hash id 0, removed := false }
    have htail : (d.cacheFirst + d.cacheCount) % h.cacheDataSize
        = (d.cacheFirst + total (d.regions h.indexNum)) % h.cacheDataSize := by
      rcases hd.cacheCount_eq with heq | ⟨heq, hzero⟩
      · rw [heq]
      · rw [heq, hzero, Nat.add_mod_right, Nat.add_zero]
    refine ⟨⟨by simp only; omega, hqfirst, hcfirst, by simp only; omega, ?_, ?_, ?_⟩, hlive,
      rfl, by omega⟩
    · simp only [regions, live, hlive, List.map_append, tiled_append]
      exact ⟨hd.tiled, htail, trivial⟩
    · simp only [regions, live, hlive, List.map_append, total_append, List.map_cons, List.map_nil,
        total_cons, total_nil, SHMCBIndex.region]
      rcases hd.cacheCount_eq with heq | ⟨heq, hzero⟩
      · rw [regions, live] at heq
        exact .inl (by omega)
      · rw [regions, live] at hzero
        exact .inr (by omega)
    · simp

/-- The stages of an insertion: the leading entries that have expired go, `k` of the others
are scrolled out, and the new entry is appended if it can be. -/
theorem shmcbInsertInternal_eq (hg : h.Geometry) (hd : d.Wf h.indexNum h.cacheDataSize)
    (id pdata : List UInt8) (expiryTime now : ℤ) :
    ∃ j d₀ k d₁, Rolled h.indexNum h.cacheDataSize j d d₀
      ∧ j = ((d.live h.indexNum).takeWhile fun e => decide (e.expires ≤ now)).length
      ∧ d₀.cacheCount = (if j = d.queueCount then 0
          else d.cacheCount - total ((d.regions h.indexNum).take j) % h.cacheDataSize)
      ∧ Scrolled h pdata.length k d₀ d₁
      ∧ shmcbInsertInternal h d id pdata expiryTime now
        = some ({ h with
            numExpiries := h.numExpiries + j, numScrolled := h.numScrolled + k },
          appendEntry h d₁ id pdata expiryTime) := by
  obtain ⟨j, d₀, hexp, hroll₀, hj, hbytes⟩ := shmcbExpireDivision_spec hg hd now
  have hg' : ({ h with numExpiries := h.numExpiries + j } : SHMCBHeader).Geometry :=
    ⟨hg.1, hg.2, hg.3, hg.4, hg.5⟩
  obtain ⟨k, d₁, hscroll, hscrolled⟩ := scrollDivision_spec hg' hroll₀.wf pdata.length
  refine ⟨j, d₀, k, d₁, hroll₀, hj, hbytes, ⟨hscrolled.rolled, hscrolled.le,
    hscrolled.cacheCount_eq, hscrolled.free, hscrolled.enough, hscrolled.needed⟩, ?_⟩
  simp only [shmcbInsertInternal, hexp, Option.bind_some, hscroll, Option.map_some]
  rfl

/-- **Insertion**: entries are dropped from the front, then the new one is appended, or
the call fails. -/
theorem shmcbInsertInternal_spec (hg : h.Geometry) (hd : d.Wf h.indexNum h.cacheDataSize)
    (id : List UInt8) {pdata : List UInt8} (hlen : pdata.length < 2147483648)
    (expiryTime now : ℤ) :
    ∃ j k d₁ d' ok,
      shmcbInsertInternal h d id pdata expiryTime now
        = some ({ h with
            numExpiries := h.numExpiries + j, numScrolled := h.numScrolled + k }, d', ok)
      ∧ Rolled h.indexNum h.cacheDataSize (j + k) d d₁ ∧ j + k ≤ d.queueCount
      ∧ if ok then Appended h.indexNum h.cacheDataSize d₁ d' id pdata expiryTime
        else d' = d₁ := by
  obtain ⟨j, d₀, k, d₁, hroll₀, hj, -, hscrolled, hins⟩ :=
    shmcbInsertInternal_eq hg hd id pdata expiryTime now
  have hcount : j + k ≤ d.queueCount := by
    have hexpired : j ≤ d.queueCount := hj ▸ length_takeWhile_live_le ..
    have hleft := hroll₀.queueCount_eq
    have hle := hscrolled.le
    omega
  have hroll := hroll₀.trans hscrolled.rolled
  rcases appendEntry_spec hg hroll.wf id hlen expiryTime with hfail | ⟨d', hok, happ⟩
  · exact ⟨j, k, d₁, d₁, false, by rw [hins, hfail], hroll, hcount, rfl⟩
  · exact ⟨j, k, d₁, d', true, by rw [hins, hok], hroll, hcount, happ⟩

/-- **Lookup**: expiry, then the payload of the first live entry that matches. -/
theorem shmcbLookupInternal_spec (hg : h.Geometry) (hd : d.Wf h.indexNum h.cacheDataSize)
    (id : List UInt8) (now now' : ℤ) (mallocOk : Bool) :
    ∃ k d', shmcbLookupInternal h d id now now' mallocOk
        = some ({ h with numExpiries := h.numExpiries + k }, d',
            lookupResult h d' mallocOk
              ((d'.live h.indexNum).find? fun e => decide (e.Matches (hash id 0) now')))
      ∧ Rolled h.indexNum h.cacheDataSize k d d'
      ∧ k = ((d.live h.indexNum).takeWhile fun e => decide (e.expires ≤ now)).length := by
  obtain ⟨k, d', hexp, hroll, hk, -⟩ := shmcbExpireDivision_spec hg hd now
  have hg' : ({ h with numExpiries := h.numExpiries + k } : SHMCBHeader).Geometry :=
    ⟨hg.1, hg.2, hg.3, hg.4, hg.5⟩
  have hscan := lookupScan_eq (d := d') hg' (hash id 0) now' d'.queueCount d'.queueFirst
  simp only [Nat.mod_eq_of_lt hroll.wf.queueFirst_lt] at hscan
  refine ⟨k, d', ?_, hroll, hk⟩
  simp only [shmcbLookupInternal, hexp, Option.bind_some, hscan, Option.map_some]
  rfl

/-- Setting the flag of a live entry changes the flag of that entry only. -/
theorem Division.Wf.live_flagRemoved {n m j : ℕ} (hd : d.Wf n m) (hj : j < d.queueCount) :
    (d.flagRemoved ((d.queueFirst + j) % n)).live n
      = (d.live n).modify j fun e => { e with removed := true } := by
  simp only [Division.flagRemoved, live]
  rw [read_update d.indexes hj hd.queueCount_le]
  refine List.ext_getElem (by simp) fun i hi hi' => ?_
  rw [List.getElem_set, List.getElem_modify]
  split
  · rename_i hji
    subst hji
    rw [getElem_read]
  · rfl

/-- The flag is not part of an entry's region. -/
theorem Division.Wf.regions_flagRemoved {n m j : ℕ} (hd : d.Wf n m) (hj : j < d.queueCount) :
    (d.flagRemoved ((d.queueFirst + j) % n)).regions n = d.regions n := by
  rw [regions, hd.live_flagRemoved hj, regions]
  refine List.ext_getElem (by simp) fun i hi hi' => ?_
  rw [List.getElem_map, List.getElem_map, List.getElem_modify]
  split <;> rfl

theorem Division.Wf.flagRemoved {n m j : ℕ} (hd : d.Wf n m) (hj : j < d.queueCount) :
    (d.flagRemoved ((d.queueFirst + j) % n)).Wf n m := by
  have hregions := hd.regions_flagRemoved hj
  constructor
  · exact hd.queueCount_le
  · exact hd.queueFirst_lt
  · exact hd.cacheFirst_lt
  · exact hd.cacheCount_le
  · rw [hregions]
    exact hd.tiled
  · rw [hregions]
    exact hd.cacheCount_eq
  · exact hd.empty

/-- **Removal**: a hit flags the oldest live entry with the key, a miss expires entries. -/
theorem shmcbRemoveInternal_spec (hg : h.Geometry) (hd : d.Wf h.indexNum h.cacheDataSize)
    (id : List UInt8) (now : ℤ) :
    (∃ j < d.queueCount, shmcbRemoveInternal h d id now
          = some (h, d.flagRemoved ((d.queueFirst + j) % h.indexNum), true)
        ∧ (d.live h.indexNum).findIdx? (fun e => decide (e.key = hash id 0)) = some j)
      ∨ ∃ k d', shmcbRemoveInternal h d id now
          = some ({ h with numExpiries := h.numExpiries + k }, d', false)
        ∧ Rolled h.indexNum h.cacheDataSize k d d'
        ∧ k = ((d.live h.indexNum).takeWhile fun e => decide (e.expires ≤ now)).length
        ∧ ∀ e ∈ d.live h.indexNum, e.key ≠ hash id 0 := by
  have hscan := removeScan_eq (d := d) hg (hash id 0) d.queueCount d.queueFirst
  rw [Nat.mod_eq_of_lt hd.queueFirst_lt, ← live] at hscan
  rcases hfind : (d.live h.indexNum).findIdx? fun e => decide (e.key = hash id 0) with _ | j
  · right
    obtain ⟨k, d', hexp, hroll, hk, -⟩ := shmcbExpireDivision_spec hg hd now
    refine ⟨k, d', ?_, hroll, hk, by simpa using List.findIdx?_eq_none_iff.mp hfind⟩
    simp only [shmcbRemoveInternal, hscan, hfind, Option.map_none, Option.bind_some, hexp,
      Option.map_some]
  · left
    have hj : j < d.queueCount := by
      have := (List.findIdx?_eq_some_iff_getElem.mp hfind).1
      rwa [length_live] at this
    refine ⟨j, hj, ?_, hfind⟩
    simp only [shmcbRemoveInternal, hscan, hfind, Option.map_some, Option.bind_some]

end Specs

end Zevent.Cache

/-
# Keeping old entries (`zcache-dev/src/zcache_shmcb.c`)

The scrolling of `zcache-dev` is meant to spare entries that were not removed.  The entry its
loop tests is the one it has moved on to, while the ones it drops are those it has left: the
oldest entry is dropped untested, the entry that is tested last stays, and an empty entry
passes.  And when the loop has come to the last entry without freeing enough, the entries are
dropped before the store is refused.

`keeps_old_iff` is the exact condition under which a store drops none but removed or expired
entries, and changes nothing when removed entries make no room.
-/
import Zevent.Cache.Freed
import Zevent.CacheDev.Store

namespace Zevent.CacheDev

open Cache RingBuffer Division Interleaving

/-! ## The property and its condition -/

/-- An entry that may go: it was removed, or has expired. -/
def Evictable (clock : ℤ) (e : SHMCBIndex) : Prop := e.removed = true ∨ e.expires ≤ clock

instance (clock : ℤ) (e : SHMCBIndex) : Decidable (Evictable clock e) :=
  inferInstanceAs (Decidable (_ ∨ _))

/-- The lookup of an insertion gets hold of a block, so an entry is written over. -/
def Updates (l : List SHMCBIndex) (id : List UInt8) (clock : ℤ) (mallocOk : Bool) : Prop :=
  mallocOk = true ∧ ∃ e ∈ l, e.Matches (hash id 0) clock

/-- There is room for `nlen` bytes, or dropping some leading entries that may go makes it. -/
def RoomFromRemoved (n m : ℕ) (d : Division) (clock : ℤ) (nlen : ℕ) : Prop :=
  (d.cacheCount + nlen ≤ m ∧ d.queueCount < n)
    ∨ ∃ k, 1 ≤ k ∧ k ≤ d.queueCount ∧ (∀ e ∈ (d.live n).take k, Evictable clock e)
      ∧ d.cacheCount + nlen ≤ m + bytesOf ((d.live n).take k)

/-- What an insertion is to do to old entries, `d₀` being the division after its expiries:
it scrolls out none but those that may go, and when they make no room for a new entry it is
refused and leaves the division as it was. -/
structure KeepsOld (h : SHMCBHeader) (d : Division) (id pdata : List UInt8)
    (expiryTime now now₁ now₁' : ℤ) (mallocOk : Bool) : Prop where
  kept : ∀ h₀ d₀ h' d' ok, afterExpiry h d now now₁ = some (h₀, d₀) →
    shmcbInsertInternal h d id pdata expiryTime now now₁ now₁' mallocOk = some (h', d', ok) →
    ∀ e ∈ (d₀.live h.indexNum).take (h'.numScrolled - h.numScrolled), Evictable now₁' e
  refused : ∀ h₀ d₀ h' d' ok, afterExpiry h d now now₁ = some (h₀, d₀) →
    shmcbInsertInternal h d id pdata expiryTime now now₁ now₁' mallocOk = some (h', d', ok) →
    ¬ Updates (d₀.live h.indexNum) id now₁' mallocOk →
    ¬ RoomFromRemoved h.indexNum h.cacheDataSize d₀ now₁' pdata.length → ok = false ∧ d' = d₀

/-- The tests let the loop drop the first `k` entries: bytes are missing, the entries behind
the first, up to the one that comes to be in front, pass, fewer entries do not free enough,
and these do or are all but the last. -/
structure Scrolls (m : ℕ) (d : Division) (l : List SHMCBIndex) (nlen k : ℕ) : Prop where
  pos : 1 ≤ k
  lt : k < l.length
  tested : ∀ j, 1 ≤ j → j ≤ k → ∀ e ∈ l[j]?, Passable e
  missing : ∀ j < k, m + bytesOf (l.take j) % m < d.cacheCount + nlen
  stops : d.cacheCount + nlen ≤ m + bytesOf (l.take k) % m ∨ k + 1 = l.length

/-- The condition: the entries that are dropped may go, and if they are all but the last and
still do not free enough, the last one may go, too, and makes room. -/
def ScrollsSafely (n m : ℕ) (d : Division) (clock : ℤ) (nlen : ℕ) : Prop :=
  ∀ k, Scrolls m d (d.live n) nlen k →
    (∀ e ∈ (d.live n).take k, Evictable clock e)
      ∧ (d.cacheCount + nlen ≤ m + bytesOf ((d.live n).take k) % m
        ∨ RoomFromRemoved n m d clock nlen)

/-! ## One insertion -/

section Insertion

variable {h : SHMCBHeader} {d d' : Division}

/-- What the lookup of the insertion finds is written over. -/
theorem updates_of_find? {l : List SHMCBIndex} {id : List UInt8} {clock : ℤ} {mallocOk : Bool}
    {e : SHMCBIndex} (hmalloc : mallocOk = true)
    (hfind : l.find? (fun e => decide (e.Matches (hash id 0) clock)) = some e) :
    Updates l id clock mallocOk :=
  ⟨hmalloc, e, List.mem_of_find?_eq_some hfind, by simpa using List.find?_some hfind⟩

theorem not_updates_of_find? {l : List SHMCBIndex} {id : List UInt8} {clock : ℤ} {mallocOk : Bool}
    (hnone : mallocOk = true → l.find? (fun e => decide (e.Matches (hash id 0) clock)) = none) :
    ¬ Updates l id clock mallocOk := by
  rintro ⟨hmalloc, e, he, hmatch⟩
  exact List.find?_eq_none.mp (hnone hmalloc) e he (decide_eq_true hmatch)

/-- The entries that pass, as the loop meets them and as the list has them. -/
theorem passable_iff {n k : ℕ} (hk : k < d.queueCount ∨ k = 0) :
    (∀ j, 1 ≤ j → j ≤ k → Passable (d.indexes ((d.queueFirst + j) % n)))
      ↔ ∀ j, 1 ≤ j → j ≤ k → ∀ e ∈ (d.live n)[j]?, Passable e := by
  have hget : ∀ j, 1 ≤ j → j ≤ k →
      (d.live n)[j]? = some (d.indexes ((d.queueFirst + j) % n)) := by
    intro j hj hjk
    have hlt : j < (d.live n).length := by
      rw [length_live]
      omega
    rw [List.getElem?_eq_getElem hlt]
    simp only [live, getElem_read]
  constructor
  · intro hall j hj hjk e he
    rw [hget j hj hjk, Option.mem_some_iff] at he
    exact he ▸ hall j hj hjk
  · intro hall j hj hjk
    exact hall j hj hjk _ (hget j hj hjk)

/-- The drop of a scrolling that drops anything is the one the conditions describe. -/
theorem Scrolls.of_scrolled {nlen k : ℕ} (hg : h.Geometry) (hd : d.Wf h.indexNum h.cacheDataSize)
    (hlen : nlen < 2147483648) (hscrolled : Scrolled h nlen k d d') (hpos : 1 ≤ k)
    (hall : ∀ j, 1 ≤ j → j ≤ k → ∀ e ∈ (d.live h.indexNum)[j]?, Passable e) :
    Scrolls h.cacheDataSize d (d.live h.indexNum) nlen k := by
  obtain ⟨hfree, henough, hneeded⟩ := hscrolled.bytes hg hd hlen
  have hle := hscrolled.le
  have hlength : (d.live h.indexNum).length = d.queueCount := length_live ..
  simp only [total_take_regions] at henough hneeded
  refine ⟨hpos, by omega, hall, hneeded, ?_⟩
  rcases Nat.lt_or_ge k (d.queueCount - 1) with hlt | hlast
  · refine .inl (henough ?_ hlt)
    by_contra hfits
    have := hfree (by omega)
    omega
  · exact .inr (by omega)

/-- And there is no other. -/
theorem Scrolls.eq_of_scrolled {nlen k k' : ℕ} (hg : h.Geometry)
    (hd : d.Wf h.indexNum h.cacheDataSize) (hlen : nlen < 2147483648)
    (hscrolled : Scrolled h nlen k' d d')
    (hs : Scrolls h.cacheDataSize d (d.live h.indexNum) nlen k) : k' = k := by
  obtain ⟨hfree, henough, hneeded⟩ := hscrolled.bytes hg hd hlen
  have hle := hscrolled.le
  have hlength : (d.live h.indexNum).length = d.queueCount := length_live ..
  have hlt := hs.lt
  simp only [total_take_regions] at henough hneeded
  rcases Nat.lt_trichotomy k' k with hless | heq | hmore
  · have hmissing := hs.missing k' hless
    have hzero := hs.missing 0 hs.pos
    rw [List.take_zero, bytesOf_nil, Nat.zero_mod] at hzero
    have := henough (by omega) (by omega)
    omega
  · exact heq
  · have hneed := hneeded k hmore
    rcases hs.stops with hstop | hlast <;> omega

/-- The property of an insertion with a known result. -/
theorem keepsOld_iff_of_result {id pdata : List UInt8} {expiryTime now now₁ now₁' : ℤ}
    {mallocOk ok : Bool} {h₀ h' : SHMCBHeader} {d₀ : Division}
    (hafter : afterExpiry h d now now₁ = some (h₀, d₀))
    (hins : shmcbInsertInternal h d id pdata expiryTime now now₁ now₁' mallocOk
      = some (h', d', ok)) :
    KeepsOld h d id pdata expiryTime now now₁ now₁' mallocOk
      ↔ (∀ e ∈ (d₀.live h.indexNum).take (h'.numScrolled - h.numScrolled), Evictable now₁' e)
        ∧ (¬ Updates (d₀.live h.indexNum) id now₁' mallocOk →
          ¬ RoomFromRemoved h.indexNum h.cacheDataSize d₀ now₁' pdata.length →
            ok = false ∧ d' = d₀) := by
  constructor
  · intro hkeeps
    exact ⟨hkeeps.kept _ _ _ _ _ hafter hins, hkeeps.refused _ _ _ _ _ hafter hins⟩
  · rintro ⟨hkept, hrefused⟩
    refine ⟨fun h₁ d₁ h'' d'' ok' hafter' hins' => ?_, fun h₁ d₁ h'' d'' ok' hafter' hins' => ?_⟩
    all_goals
      rw [hafter, Option.some_inj, Prod.mk.injEq] at hafter'
      rw [hins, Option.some_inj, Prod.mk.injEq, Prod.mk.injEq] at hins'
      obtain ⟨-, rfl⟩ := hafter'
      obtain ⟨rfl, rfl, rfl⟩ := hins'
    · exact hkept
    · exact hrefused

/-- The condition on an insertion that comes to its checks, which append the entry or not:
what the loop has dropped may go, and the entry is refused without a trace when there could be
no room. -/
theorem scrollsSafely_iff {id pdata : List UInt8} {expiryTime : ℤ} {k : ℕ} {ok : Bool}
    {d₀ d₁ : Division} (clock : ℤ) (hg : h.Geometry) (hd : d₀.Wf h.indexNum h.cacheDataSize)
    (hlen : pdata.length < 2147483648) (hscrolled : Scrolled h pdata.length k d₀ d₁)
    (hzero : k = 0 → d₁ = d₀)
    (hall : ∀ j, 1 ≤ j → j ≤ k → ∀ e ∈ (d₀.live h.indexNum)[j]?, Passable e)
    (happend : appendEntry h d₁ id pdata expiryTime = (d', ok)) :
    ScrollsSafely h.indexNum h.cacheDataSize d₀ clock pdata.length
      ↔ (∀ e ∈ (d₀.live h.indexNum).take k, Evictable clock e)
        ∧ (¬ RoomFromRemoved h.indexNum h.cacheDataSize d₀ clock pdata.length →
            ok = false ∧ d' = d₀) := by
  have hlength : (d₀.live h.indexNum).length = d₀.queueCount := length_live ..
  have hcount := hscrolled.rolled.queueCount_eq
  have hok := appendEntry_ok_iff hg hscrolled.rolled.wf id hlen expiryTime
  have hspec := appendEntry_spec hg hscrolled.rolled.wf id hlen expiryTime
  rw [happend] at hok hspec
  rw [hscrolled.cacheCount_eq, total_take_regions, hcount] at hok
  simp only at hok
  constructor
  · intro hsafe
    rcases Nat.eq_zero_or_pos k with rfl | hpos
    · -- nothing was scrolled out, so the checks alone decide
      refine ⟨by simp, fun hnoRoom => ?_⟩
      rcases hspec with hno | ⟨d₃, hyes, -⟩
      · rw [Prod.mk.injEq] at hno
        exact ⟨hno.2, hno.1.trans (hzero rfl)⟩
      · have hroom := hok.mp (Prod.mk.inj hyes).2
        rw [List.take_zero, bytesOf_nil, Nat.zero_mod] at hroom
        exact absurd (.inl ⟨by omega, by omega⟩) hnoRoom
    · -- the dropped entries may go, so they or all of them make room
      have hs := Scrolls.of_scrolled hg hd hlen hscrolled hpos hall
      obtain ⟨hevictable, hroom⟩ := hsafe k hs
      have hlt := hs.lt
      refine ⟨hevictable, fun hnoRoom => absurd ?_ hnoRoom⟩
      rcases hroom with hfrees | hroom
      · have hmod := Nat.mod_le (bytesOf ((d₀.live h.indexNum).take k)) h.cacheDataSize
        exact .inr ⟨k, hpos, by omega, hevictable, by omega⟩
      · exact hroom
  · rintro ⟨hkept, hrefused⟩ k' hs
    obtain rfl := Scrolls.eq_of_scrolled hg hd hlen hscrolled hs
    refine ⟨hkept, ?_⟩
    by_contra hneither
    rw [not_or] at hneither
    obtain ⟨hfalse, heq⟩ := hrefused hneither.2
    -- entries were dropped, so the division is not what it was
    have hsame : d' = d₁ := by
      rcases hspec with hno | ⟨d'', hyes, -⟩
      · exact (Prod.mk.inj hno).1
      · rw [(Prod.mk.inj hyes).2] at hfalse
        cases hfalse
    have hpos := hs.pos
    have hlt := hs.lt
    have hqueue := congrArg Division.queueCount (hsame.symm.trans heq)
    omega

/-- **One insertion**: it keeps old entries exactly when it writes over an entry or its
scrolling is safe. -/
theorem keepsOld_iff (hg : h.Geometry) (hd : d.Wf h.indexNum h.cacheDataSize) (id : List UInt8)
    {pdata : List UInt8} (hlen : pdata.length < 2147483648) (expiryTime now now₁ now₁' : ℤ)
    (mallocOk : Bool) :
    KeepsOld h d id pdata expiryTime now now₁ now₁' mallocOk
      ↔ ∀ h₀ d₀, afterExpiry h d now now₁ = some (h₀, d₀) →
        Updates (d₀.live h.indexNum) id now₁' mallocOk
          ∨ ScrollsSafely h.indexNum h.cacheDataSize d₀ now₁' pdata.length := by
  obtain ⟨h₀, d₀, hafter, -, hnum, ⟨i, hroll⟩, hlive, hcases⟩ :=
    shmcbInsertInternal_cases hg hd id pdata expiryTime now now₁ now₁' mallocOk
  rw [← hlive] at hcases
  rw [forall_afterExpiry hafter fun d₀ => Updates (d₀.live h.indexNum) id now₁' mallocOk
    ∨ ScrollsSafely h.indexNum h.cacheDataSize d₀ now₁' pdata.length]
  rcases hcases with ⟨e, hmalloc, hfind, hins⟩ | ⟨hnone, k, d₁, hscrolled, hzero, hpass, hfail⟩
  · -- the update branch scrolls nothing out
    have hupdates := updates_of_find? hmalloc hfind
    rcases hres : updateInPlace h₀ d₀ e pdata with ⟨d', ok⟩
    rw [hres] at hins
    rw [keepsOld_iff_of_result hafter hins, hnum, Nat.sub_self, List.take_zero]
    exact ⟨fun _ => .inl hupdates, fun _ => ⟨by simp, fun hnot => absurd hupdates hnot⟩⟩
  · have hnotUpdates := not_updates_of_find? hnone
    have hle := hscrolled.le
    have hpassable := passable_iff (d := d₀) (n := h.indexNum) (k := k) (by omega)
    rw [or_iff_right hnotUpdates]
    rcases hres : appendEntry h d₁ id pdata expiryTime with ⟨d', ok⟩
    rw [hres] at hpass
    by_cases hall : ∀ j, 1 ≤ j → j ≤ k → Passable (d₀.indexes ((d₀.queueFirst + j) % h.indexNum))
    · have hkeeps := keepsOld_iff_of_result hafter (hpass hall)
      have hsafe := scrollsSafely_iff now₁' hg hroll.wf hlen hscrolled hzero
        (hpassable.mp hall) hres
      simp only [hnum, Nat.add_sub_cancel_left] at hkeeps
      rw [hkeeps, hsafe, forall_prop_of_true hnotUpdates]
    · -- the test ends the call, and the conditions describe no scrolling
      push Not at hall
      rw [keepsOld_iff_of_result hafter (hfail hall), hnum, Nat.sub_self, List.take_zero]
      refine ⟨fun _ k' hs => ?_, fun _ => ⟨by simp, fun _ _ => ⟨rfl, rfl⟩⟩⟩
      obtain rfl := Scrolls.eq_of_scrolled hg hroll.wf hlen hscrolled hs
      obtain ⟨j, hj, hjk, hfails⟩ := hall
      exact absurd (hpassable.mpr hs.tested j hj hjk) hfails

end Insertion

/-! ## Over every run -/

/-- **When a store keeps old entries.**  In every state of every run, a store scrolls out
none but removed or expired entries, and is refused without a trace but for the expiry when
these make no room, exactly when it writes over an entry, or whatever its loop comes to drop
may go and makes room together with the last entry at worst. -/
theorem keeps_old_iff {s₀ s : Segment} (h₀ : Initial s₀) (h : Reach step Always s₀ s)
    (id : List UInt8) (pdata : Block) (timeout now now₁ now₁' : ℤ) (mallocOk : Bool) :
    KeepsOld s.header (s.division (maskedIndex s.header id)) id pdata.bytes timeout now now₁ now₁'
        mallocOk
      ↔ ∀ hdr d, afterExpiry s.header (s.division (maskedIndex s.header id)) now now₁
          = some (hdr, d) →
        Updates (d.live s.header.indexNum) id now₁' mallocOk
          ∨ ScrollsSafely s.header.indexNum s.header.cacheDataSize d now₁' pdata.bytes.length := by
  have hs := wf_of_reach h₀ h
  exact keepsOld_iff hs.geometry (hs.divisions _ (maskedIndex_le _ _)) id pdata.length_lt timeout
    now now₁ now₁' mallocOk

/-- Two removed entries are in front of a live one, and a store drops the first. -/
theorem keeps_old_iff_removed :
    ∃ s, run step Always freshSession.seg
        [.store [1] ⟨List.replicate 200 0, by rw [List.length_replicate]; decide⟩ 100 0 0 0 true,
          .store [2] ⟨List.replicate 200 0, by rw [List.length_replicate]; decide⟩ 100 0 0 0 true,
          .store [3] ⟨List.replicate 10 0, by decide⟩ 100 0 0 0 true, .remove (some [1]) 0,
          .remove (some [2]) 0] = some s
      ∧ KeepsOld s.header (s.division (maskedIndex s.header [4])) [4] (List.replicate 200 0)
        100 0 0 0 true := by
  have hrun : (run step Always freshSession.seg
      [.store [1] ⟨List.replicate 200 0, by rw [List.length_replicate]; decide⟩ 100 0 0 0 true,
        .store [2] ⟨List.replicate 200 0, by rw [List.length_replicate]; decide⟩ 100 0 0 0 true,
        .store [3] ⟨List.replicate 10 0, by decide⟩ 100 0 0 0 true, .remove (some [1]) 0,
        .remove (some [2]) 0]).map
      (fun s => (afterExpiry s.header (s.division (maskedIndex s.header [4])) 0 0).map fun r =>
        (s.header.cacheDataSize, r.2.cacheCount, (r.2.live s.header.indexNum).map
          fun e => (e.length, decide (Evictable 0 e))))
      = some (some (464, 410, [(200, true), (200, true), (10, false)])) := by
    decide +kernel
  obtain ⟨s, hs, hobs⟩ := Option.map_eq_some_iff.mp hrun
  have hdata : (List.replicate 200 (0 : UInt8)).length = 200 := List.length_replicate
  refine ⟨s, hs, (keeps_old_iff freshSession_initial (Reach.refl.run _ hs) [4]
    ⟨List.replicate 200 0, by omega⟩ 100 0 0 0 true).mpr fun hdr d hafter => .inr fun k hk => ?_⟩
  rw [hdata] at hk ⊢
  rw [hafter, Option.map_some, Option.some_inj, Prod.mk.injEq, Prod.mk.injEq] at hobs
  obtain ⟨hsize, hcount, hlive⟩ := hobs
  change d.cacheCount = 410 at hcount
  rw [hsize] at hk ⊢
  obtain ⟨a, l, hl, ha, -⟩ := List.map_eq_cons_iff.mp hlive
  rw [Prod.mk.injEq, decide_eq_true_eq] at ha
  have hfirst : (d.live s.header.indexNum).take 1 = [a] := by rw [hl]; rfl
  have hbytes : bytesOf [a] = 200 := ha.1
  -- the first entry is enough
  have hone : k = 1 := by
    by_contra hne
    have hpos := hk.pos
    have hmissing := hk.missing 1 (by omega)
    rw [hfirst, hbytes] at hmissing
    omega
  rw [hone, hfirst, hbytes]
  exact ⟨by simpa using ha.2, .inl (by omega)⟩

/-- **A live entry is dropped**: 400 bytes are live, the 10 bytes behind them were removed,
and a store of 200 bytes tests the removed entry and drops the live one. -/
theorem live_entry_scrolled_out :
    ¬ ∀ (s₀ s : Segment), Initial s₀ → Reach step Always s₀ s →
      ∀ (id : List UInt8) (pdata : Block) (timeout now now₁ now₁' : ℤ) (mallocOk : Bool),
        KeepsOld s.header (s.division (maskedIndex s.header id)) id pdata.bytes timeout now now₁
          now₁' mallocOk := by
  intro hforall
  have hrun : (run step Always freshSession.seg
      [.store [1] ⟨List.replicate 400 0, by rw [List.length_replicate]; decide⟩ 100 0 0 0 true,
        .store [2] ⟨List.replicate 10 0, by decide⟩ 100 0 0 0 true, .remove (some [2]) 0]).map
      (fun s => (afterExpiry s.header (s.division (maskedIndex s.header [3])) 0 0).bind fun r =>
        (shmcbInsertInternal s.header (s.division (maskedIndex s.header [3])) [3]
          (List.replicate 200 0) 100 0 0 0 true).map fun r' =>
            ((r.2.live s.header.indexNum).take (r'.1.numScrolled - s.header.numScrolled)).map
              fun e => decide (Evictable 0 e))
      = some (some [false]) := by
    decide +kernel
  obtain ⟨s, hs, hobs⟩ := Option.map_eq_some_iff.mp hrun
  rw [Option.bind_eq_some_iff] at hobs
  obtain ⟨⟨hdr, d⟩, hafter, hobs⟩ := hobs
  obtain ⟨⟨h', d', ok⟩, hins, hobs⟩ := Option.map_eq_some_iff.mp hobs
  have hkept := (hforall freshSession.seg s freshSession_initial (Reach.refl.run _ hs) [3]
    ⟨List.replicate 200 0, by rw [List.length_replicate]; decide⟩ 100 0 0 0 true).kept _ _ _ _ _
    hafter hins
  have hmem : false ∈ ((d.live s.header.indexNum).take
      (h'.numScrolled - s.header.numScrolled)).map fun e => decide (Evictable 0 e) := by
    rw [hobs]
    exact List.mem_singleton_self _
  obtain ⟨e, he, hfalse⟩ := List.mem_map.mp hmem
  exact of_decide_eq_false hfalse (hkept e he)

end Zevent.CacheDev

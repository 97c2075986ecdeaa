/-
# What a store leaves to be found (`zcache-dev/src/zcache_shmcb.c`)

A store that writes over an entry changes its bytes and nothing else: the entry keeps its
length and its time.  A shorter payload is read back with the end of the old one behind it,
and the entry is gone when the old time is over.  A store whose lookup gets no block appends
a second entry of the id behind the first.

`store_visible_iff` is the exact condition under which a retrieval, made before the new time is
over and before any other call, returns what was stored.
-/
import Zevent.CacheDev.KeepOld

namespace Zevent.CacheDev

open Cache RingBuffer Division Interleaving

/-! ## The property and its condition -/

/-- The first of some entries that a lookup of an id finds at a time. -/
def firstMatch (l : List SHMCBIndex) (id : List UInt8) (clock : ℤ) : Option SHMCBIndex :=
  l.find? fun e => decide (e.Matches (hash id 0) clock)

/-- The next call retrieves `v`, with its length, if the clock, which was at `clock`, does not
go back and has not come to `timeout`. -/
def Visible (s : Segment) (id v : List UInt8) (timeout clock : ℤ) : Prop :=
  ∀ t t', t ≤ t' → clock ≤ t' → t' < timeout →
    ∃ s', shmcbRetrieve s id t t' true = some (s', { len := some v.length, pdata := some v })

/-- The number of leading entries the tests let an insertion scroll out. -/
def ScrolledOut (m : ℕ) (d : Division) (l : List SHMCBIndex) (nlen k : ℕ) : Prop :=
  Scrolls m d l nlen k ∨ k = 0 ∧ ∀ k', ¬ Scrolls m d l nlen k'

/-- The condition, on the division `d` the expiries leave.  As long as the new time is not
over, the entry the id finds has the length of `v` and is the one that is written over, or
holds `v` already; and when the lookup got no block for the entry it found, the entries that
stay and match hold `v` already. -/
structure Shows (n m : ℕ) (d : Division) (id v : List UInt8) (timeout clock : ℤ)
    (mallocOk : Bool) : Prop where
  updated : Updates (d.live n) id clock mallocOk → ∀ t', clock ≤ t' → t' < timeout →
    ∃ e, firstMatch (d.live n) id t' = some e ∧ e.length = v.length
      ∧ (firstMatch (d.live n) id clock = some e ∨ d.payload m e = v)
  appended : ¬ Updates (d.live n) id clock mallocOk → ∀ t', clock ≤ t' → t' < timeout →
    ∀ k, ScrolledOut m d (d.live n) v.length k →
      ∀ e, firstMatch ((d.live n).drop k) id t' = some e → d.payload m e = v

/-! ## Retrievals -/

/-- Leading elements the predicate does not hold of are passed over. -/
theorem find?_dropWhile {α : Type*} {p q : α → Bool} (h : ∀ x, q x = true → p x = false)
    (l : List α) : (l.dropWhile q).find? p = l.find? p := by
  induction l with
  | nil => rfl
  | cons x l ih =>
      rw [List.dropWhile_cons]
      split
      · rename_i hx
        rw [ih, List.find?_cons_of_neg (by simp [h x hx])]
      · rfl

theorem firstMatch_mem {l : List SHMCBIndex} {id : List UInt8} {clock : ℤ} {e : SHMCBIndex}
    (h : firstMatch l id clock = some e) : e ∈ l :=
  List.mem_of_find?_eq_some h

/-- A retrieval finds the first entry that matches, whether or not it expires others. -/
theorem shmcbRetrieve_found {s : Segment} (hs : s.Wf) (id : List UInt8) {t t' : ℤ}
    (ht : t ≤ t') :
    ∃ s', shmcbRetrieve s id t t' true = some (s',
      { len := (firstMatch ((s.division (maskedIndex s.header id)).live s.header.indexNum) id
          t').map SHMCBIndex.length
        pdata := (firstMatch ((s.division (maskedIndex s.header id)).live s.header.indexNum) id
          t').map ((s.division (maskedIndex s.header id)).payload s.header.cacheDataSize) }) := by
  have hi := maskedIndex_le s.header id
  obtain ⟨k, d', hlook, hroll, hk⟩ :=
    shmcbLookupInternal_spec hs.geometry (hs.divisions _ hi) id t t' true
  have hlive : d'.live s.header.indexNum
      = (s.division (maskedIndex s.header id)).fresh s.header.indexNum t := by
    rw [hroll.live_eq, hk, ← expired, drop_expired]
  have hdata : ∀ e, d'.payload s.header.cacheDataSize e
      = (s.division (maskedIndex s.header id)).payload s.header.cacheDataSize e :=
    fun e => by rw [payload, payload, hroll.data_eq]
  have hexpired : ∀ e : SHMCBIndex, decide (e.expires ≤ t) = true →
      decide (e.Matches (hash id 0) t') = false := by
    intro e he
    have := of_decide_eq_true he
    exact decide_eq_false fun hmatch => absurd hmatch.2.2 (by omega)
  rw [hlive, fresh, find?_dropWhile hexpired, lookupResult_true, ← firstMatch] at hlook
  simp only [hdata] at hlook
  simp only [shmcbRetrieve_eq, Cache.shmcbRetrieve, shmcbGetDivision_of_le hi, hlook,
    Option.map_some]
  exact ⟨_, rfl⟩

/-- What is retrieved is `v` as long as the first entry that matches holds it. -/
theorem visible_iff {s : Segment} (hs : s.Wf) (id v : List UInt8) (timeout clock : ℤ) :
    Visible s id v timeout clock ↔ ∀ t', clock ≤ t' → t' < timeout →
      ∃ e, firstMatch ((s.division (maskedIndex s.header id)).live s.header.indexNum) id t'
          = some e
        ∧ (s.division (maskedIndex s.header id)).payload s.header.cacheDataSize e = v := by
  have hwf := hs.divisions _ (maskedIndex_le s.header id)
  constructor
  · intro hvisible t' hclock htimeout
    obtain ⟨s', hret⟩ := hvisible t' t' le_rfl hclock htimeout
    obtain ⟨s'', hret'⟩ := shmcbRetrieve_found hs id (le_refl t')
    rw [hret, Option.some_inj, Prod.mk.injEq, LookupResult.mk.injEq] at hret'
    exact Option.map_eq_some_iff.mp hret'.2.2.symm
  · intro hfound t t' ht hclock htimeout
    obtain ⟨e, hfirst, hpay⟩ := hfound t' hclock htimeout
    obtain ⟨s', hret⟩ := shmcbRetrieve_found hs id ht
    have hlen : e.length = v.length := by
      rw [← hpay, hwf.payload_eq hs.geometry.cacheDataSize_lt (firstMatch_mem hfirst),
        length_read]
    rw [hfirst, Option.map_some, Option.map_some, hpay, hlen] at hret
    exact ⟨s', hret⟩

/-- A match at a later time is a match at the earlier one. -/
theorem matches_mono {e : SHMCBIndex} {key : UInt32} {clock t' : ℤ} (ht : clock ≤ t')
    (h : e.Matches key t') : e.Matches key clock :=
  ⟨h.1, h.2.1, lt_of_le_of_lt ht h.2.2⟩

/-- **The condition, when no two entries match.**  The entry that is written over has the
length of the new bytes, and its own time is over no sooner than the new one. -/
theorem shows_iff_of_unique {n m : ℕ} {d : Division} {id v : List UInt8} {timeout clock : ℤ}
    {e : SHMCBIndex} (hfirst : firstMatch (d.live n) id clock = some e)
    (hunique : ∀ e' ∈ d.live n, e'.Matches (hash id 0) clock → e' = e) (hlt : clock < timeout) :
    Shows n m d id v timeout clock true ↔ e.length = v.length ∧ timeout ≤ e.expires := by
  have he := firstMatch_mem hfirst
  have hmatch : e.Matches (hash id 0) clock := by simpa using List.find?_some hfirst
  have hupdates : Updates (d.live n) id clock true := ⟨rfl, e, he, hmatch⟩
  constructor
  · intro hshows
    constructor
    · obtain ⟨e', hfirst', hlen, -⟩ := hshows.updated hupdates clock le_rfl hlt
      rwa [← Option.some.inj (hfirst.symm.trans hfirst')] at hlen
    · by_contra hsooner
      -- when the time of the entry is over, nothing is found any more
      obtain ⟨e', hfirst', -⟩ := hshows.updated hupdates e.expires hmatch.2.2.le
        (not_le.mp hsooner)
      have hmatch' : e'.Matches (hash id 0) e.expires := by simpa using List.find?_some hfirst'
      obtain rfl := hunique e' (firstMatch_mem hfirst') (matches_mono hmatch.2.2.le hmatch')
      exact absurd hmatch'.2.2 (lt_irrefl _)
  · rintro ⟨hlen, hlater⟩
    refine ⟨fun _ t' hclock htimeout => ⟨e, ?_, hlen, .inl hfirst⟩,
      fun hnot => absurd hupdates hnot⟩
    have hmatch' : e.Matches (hash id 0) t' := ⟨hmatch.1, hmatch.2.1, htimeout.trans_le hlater⟩
    cases hfirst' : firstMatch (d.live n) id t' with
    | none => exact absurd (decide_eq_true hmatch') (List.find?_eq_none.mp hfirst' e he)
    | some e' =>
        have hmatch'' : e'.Matches (hash id 0) t' := by simpa using List.find?_some hfirst'
        obtain rfl := hunique e' (firstMatch_mem hfirst') (matches_mono hclock hmatch'')
        rfl

/-! ## One insertion -/

section Insertion

variable {h : SHMCBHeader} {d d' : Division}

/-- **Writing over an entry.**  When it does not fail, the entry has room, begins with the new
bytes and ends as before, and every other entry keeps its bytes. -/
theorem updateInPlace_spec (hg : h.Geometry) (hd : d.Wf h.indexNum h.cacheDataSize)
    {e : SHMCBIndex} (he : e ∈ d.live h.indexNum) {v : List UInt8}
    (hok : updateInPlace h d e v = (d', true)) :
    v.length ≤ e.length ∧ d'.live h.indexNum = d.live h.indexNum
      ∧ d'.payload h.cacheDataSize e = v ++ (d.payload h.cacheDataSize e).drop v.length
      ∧ ∀ e' ∈ d.live h.indexNum, e' ≠ e →
        d'.payload h.cacheDataSize e' = d.payload h.cacheDataSize e' := by
  have hsize := hg.cacheDataSize_lt
  have hbounds := hd.bounds he
  have hint : u32 (i32 e.length) = e.length := by
    rw [i32_eq (by omega) (by omega)]
    exact u32_eq rfl (by omega)
  obtain ⟨hwf', hlive'⟩ := updateInPlace_wf (h := h) hd e v
  rw [hok] at hwf' hlive'
  rw [updateInPlace, hint] at hok
  split_ifs at hok with hshort
  · cases (Prod.mk.inj hok).2
  have hlen := not_lt.mp hshort
  have hdata : d'.data = write h.cacheDataSize d.data e.offset v := by
    rw [← (Prod.mk.inj hok).1, shmcbCyclicNtocMemcpy_eq _ hsize hbounds.1 (by omega)]
  refine ⟨hlen, hlive', ?_, ?_⟩
  · rw [hwf'.payload_eq hsize (hlive' ▸ he), hd.payload_eq hsize he, hdata, drop_read]
    obtain ⟨rest, hrest⟩ := Nat.exists_eq_add_of_le hlen
    rw [hrest, read_add, read_write_self _ _ (by omega), Nat.add_sub_cancel_left]
    refine congrArg (v ++ ·) (read_congr fun k hk => write_apply_of_ne _ fun j hj hcell => ?_)
    rw [Nat.add_assoc] at hcell
    have := add_mod_inj (by omega) (by omega) hcell
    omega
  · intro e' he' hne
    rw [hwf'.payload_eq hsize (hlive' ▸ he'), hd.payload_eq hsize he', hdata]
    obtain ⟨i, hi, rfl⟩ := List.getElem_of_mem he
    obtain ⟨j, hj, rfl⟩ := List.getElem_of_mem he'
    have hij : i ≠ j := fun heq => hne (by subst heq; rfl)
    have hi' : i < (d.regions h.indexNum).length := by simpa [regions] using hi
    have hlen' : v.length ≤ (d.regions h.indexNum)[i].2 := by
      simpa [regions, SHMCBIndex.region] using hlen
    have hkeeps := hd.tiled.write_region d.data (hd.total_le.trans hd.cacheCount_le) hi'
      (by simpa [regions] using hj) hij hlen'
    simp only [regions, List.getElem_map, SHMCBIndex.region] at hkeeps
    exact read_congr hkeeps

/-- What is scrolled out is what the tests let go. -/
theorem scrolledOut_iff {nlen k k' : ℕ} (hg : h.Geometry) (hd : d.Wf h.indexNum h.cacheDataSize)
    (hlen : nlen < 2147483648) (hscrolled : Scrolled h nlen k d d')
    (hall : ∀ j, 1 ≤ j → j ≤ k → ∀ e ∈ (d.live h.indexNum)[j]?, Passable e) :
    ScrolledOut h.cacheDataSize d (d.live h.indexNum) nlen k' ↔ k' = k := by
  constructor
  · rintro (hs | ⟨rfl, hnot⟩)
    · exact (hs.eq_of_scrolled hg hd hlen hscrolled).symm
    · rcases Nat.eq_zero_or_pos k with rfl | hpos
      · rfl
      · exact absurd (Scrolls.of_scrolled hg hd hlen hscrolled hpos hall) (hnot k)
  · rintro rfl
    rcases Nat.eq_zero_or_pos k' with rfl | hpos
    · refine .inr ⟨rfl, fun k hs => ?_⟩
      have hzero := hs.eq_of_scrolled hg hd hlen hscrolled
      have hk := hs.pos
      omega
    · exact .inl (.of_scrolled hg hd hlen hscrolled hpos hall)

/-- An entry that was there keeps its bytes when another is appended. -/
theorem payload_of_appended {n m k : ℕ} {d₀ d₁ : Division} {id v : List UInt8} {timeout : ℤ}
    (hm : m < 2147483648) (hroll : Rolled n m k d₀ d₁) (happ : Appended n m d₁ d' id v timeout)
    {e : SHMCBIndex} (he : e ∈ d₁.live n) : d'.payload m e = d₀.payload m e := by
  have he' : e ∈ d'.live n := by
    rw [happ.live_eq]
    exact List.mem_append_left _ he
  rw [happ.wf.payload_eq hm he', read_congr (happ.data_apply hroll.wf e he),
    ← hroll.wf.payload_eq hm he, payload, payload, hroll.data_eq]

/-- An entry that is written over in place shows the new bytes when it has their length. -/
theorem updated_iff (hg : h.Geometry) (hd : d.Wf h.indexNum h.cacheDataSize) {id v : List UInt8}
    {clock : ℤ} {e : SHMCBIndex} (hfirst : firstMatch (d.live h.indexNum) id clock = some e)
    (hok : updateInPlace h d e v = (d', true)) (t' : ℤ) :
    (∃ e', firstMatch (d'.live h.indexNum) id t' = some e' ∧ d'.payload h.cacheDataSize e' = v)
      ↔ ∃ e', firstMatch (d.live h.indexNum) id t' = some e' ∧ e'.length = v.length
        ∧ (firstMatch (d.live h.indexNum) id clock = some e'
          ∨ d.payload h.cacheDataSize e' = v) := by
  have he := firstMatch_mem hfirst
  obtain ⟨hlen, hlive, hnew, hother⟩ := updateInPlace_spec hg hd he hok
  have hpayload : ∀ e' ∈ d.live h.indexNum, (d.payload h.cacheDataSize e').length = e'.length := by
    intro e' he'
    rw [hd.payload_eq hg.cacheDataSize_lt he', length_read]
  rw [hlive]
  constructor
  · rintro ⟨e', hfirst', hpay⟩
    have he' := firstMatch_mem hfirst'
    refine ⟨e', hfirst', ?_⟩
    rcases eq_or_ne e' e with rfl | hne
    · have hlength := congrArg List.length (hnew.symm.trans hpay)
      rw [List.length_append, List.length_drop, hpayload e' he'] at hlength
      exact ⟨by omega, .inl hfirst⟩
    · rw [hother e' he' hne] at hpay
      exact ⟨by rw [← hpayload e' he', hpay], .inr hpay⟩
  · rintro ⟨e', hfirst', hlength, hor⟩
    have he' := firstMatch_mem hfirst'
    refine ⟨e', hfirst', ?_⟩
    rcases eq_or_ne e' e with rfl | hne
    · rw [hnew, List.drop_eq_nil_of_le (by rw [hpayload e' he', hlength]), List.append_nil]
    · rcases hor with hfirst'' | hpay
      · exact absurd (Option.some.inj (hfirst''.symm.trans hfirst)) hne
      · rw [hother e' he' hne, hpay]

/-- An appended entry shows its bytes unless an entry before it matches and holds others. -/
theorem appended_iff {n m k : ℕ} {d₀ d₁ : Division} {id v : List UInt8} {timeout t' : ℤ}
    (hm : m < 2147483648) (hroll : Rolled n m k d₀ d₁) (happ : Appended n m d₁ d' id v timeout)
    (htimeout : t' < timeout) :
    (∃ e, firstMatch (d'.live n) id t' = some e ∧ d'.payload m e = v)
      ↔ ∀ e, firstMatch ((d₀.live n).drop k) id t' = some e → d₀.payload m e = v := by
  rw [← hroll.live_eq]
  have hold := fun e (he : e ∈ d₁.live n) => payload_of_appended hm hroll happ he
  have hfirst : firstMatch (d'.live n) id t' = (firstMatch (d₁.live n) id t').or
      (some { expires := timeout, offset := (d₁.cacheFirst + d₁.cacheCount) % m,
              length := v.length, key := hash id 0, removed := false }) := by
    rw [firstMatch, happ.live_eq, List.find?_append, List.find?_cons_of_pos]
    · rfl
    · exact decide_eq_true ⟨rfl, rfl, htimeout⟩
  rw [hfirst]
  cases hfound : firstMatch (d₁.live n) id t' with
  | none =>
      refine ⟨fun _ e he => absurd he (by simp), fun _ => ⟨_, rfl, ?_⟩⟩
      refine happ.payload_new hm ?_ rfl rfl
      rw [happ.live_eq]
      exact List.mem_append_right _ (List.mem_singleton_self _)
  | some e =>
      rw [Option.some_or]
      have heq := hold e (firstMatch_mem hfound)
      constructor
      · rintro ⟨e', he', hpay⟩ e'' he''
        obtain rfl := Option.some.inj he'
        obtain rfl := Option.some.inj he''
        rw [← heq, hpay]
      · intro hall
        exact ⟨e, rfl, by rw [heq, hall e rfl]⟩

/-- **One insertion**: the bytes it stores are what the id finds exactly under the condition. -/
theorem insert_shows_iff (hg : h.Geometry) (hd : d.Wf h.indexNum h.cacheDataSize)
    {id v : List UInt8} (hlen : v.length < 2147483648) {timeout now now₁ now₁' : ℤ}
    {mallocOk : Bool} {h' : SHMCBHeader}
    (hins : shmcbInsertInternal h d id v timeout now now₁ now₁' mallocOk
      = some (h', d', true)) :
    (∀ t', now₁' ≤ t' → t' < timeout → ∃ e, firstMatch (d'.live h.indexNum) id t' = some e
        ∧ d'.payload h.cacheDataSize e = v)
      ↔ ∀ h₀ d₀, afterExpiry h d now now₁ = some (h₀, d₀) →
        Shows h.indexNum h.cacheDataSize d₀ id v timeout now₁' mallocOk := by
  obtain ⟨h₀, d₀, hafter, hsame, -, ⟨i, hroll⟩, hlive, hcases⟩ :=
    shmcbInsertInternal_cases hg hd id v timeout now now₁ now₁' mallocOk
  have hwf := hroll.wf
  rw [forall_afterExpiry hafter fun d₀ =>
    Shows h.indexNum h.cacheDataSize d₀ id v timeout now₁' mallocOk]
  rw [← hlive, ← firstMatch] at hcases
  rcases hcases with ⟨e, hmalloc, hfirst, hins'⟩ | ⟨hnone, k, d₁, hscrolled, -, hpass, hfail⟩
  · have hupdates : Updates (d₀.live h.indexNum) id now₁' mallocOk :=
      updates_of_find? hmalloc hfirst
    have hok : updateInPlace h d₀ e v = (d', true) := by
      rw [hins, Option.some_inj, Prod.mk.injEq] at hins'
      rw [hins'.2, updateInPlace, updateInPlace, hsame.cacheDataSize]
    have hiff := updated_iff hg hwf hfirst hok
    constructor
    · intro hvisible
      exact ⟨fun _ t' hclock htimeout => (hiff t').mp (hvisible t' hclock htimeout),
        fun hnot => absurd hupdates hnot⟩
    · intro hshows t' hclock htimeout
      exact (hiff t').mpr (hshows.updated hupdates t' hclock htimeout)
  · have hnotUpdates : ¬ Updates (d₀.live h.indexNum) id now₁' mallocOk :=
      not_updates_of_find? hnone
    have hle := hscrolled.le
    by_cases hall : ∀ j, 1 ≤ j → j ≤ k →
        Passable (d₀.indexes ((d₀.queueFirst + j) % h.indexNum))
    · have hdropped : ∀ k', ScrolledOut h.cacheDataSize d₀ (d₀.live h.indexNum) v.length k'
          ↔ k' = k := fun k' => scrolledOut_iff hg hwf hlen hscrolled
        ((passable_iff (by omega)).mp hall)
      have happ : Appended h.indexNum h.cacheDataSize d₁ d' id v timeout := by
        have hres := hpass hall
        rw [hins, Option.some_inj, Prod.mk.injEq] at hres
        rcases appendEntry_spec hg hscrolled.rolled.wf id hlen timeout with hno | ⟨d'', hyes, happ⟩
        · rw [hno, Prod.mk.injEq] at hres
          cases hres.2.2
        · rw [hyes, Prod.mk.injEq] at hres
          exact hres.2.1 ▸ happ
      have hiff := fun t' (htimeout : t' < timeout) =>
        appended_iff hg.cacheDataSize_lt hscrolled.rolled happ htimeout
      constructor
      · intro hvisible
        refine ⟨fun hupdates => absurd hupdates hnotUpdates, ?_⟩
        intro _ t' hclock htimeout k' hk'
        rw [(hdropped k').mp hk']
        exact (hiff t' htimeout).mp (hvisible t' hclock htimeout)
      · intro hshows t' hclock htimeout
        exact (hiff t' htimeout).mpr
          (hshows.appended hnotUpdates t' hclock htimeout k ((hdropped k).mpr rfl))
    · push Not at hall
      have hres := hfail hall
      rw [hins, Option.some_inj, Prod.mk.injEq, Prod.mk.injEq] at hres
      cases hres.2.2

end Insertion

/-! ## Over every run -/

/-- **When a store is what the next retrieval sees.**  In every state of every run, after a
store that succeeds, a retrieval of the id that is the next call, and comes before the new
time is over, returns the payload with its length exactly if the condition holds. -/
theorem store_visible_iff {s₀ s s' : Segment} (h₀ : Initial s₀) (h : Reach step Always s₀ s)
    {id : List UInt8} {pdata : Block} {timeout now now₁ now₁' : ℤ} {mallocOk : Bool}
    (hstore : shmcbStore s id pdata timeout now now₁ now₁' mallocOk = some (s', true)) :
    Visible s' id pdata.bytes timeout now₁'
      ↔ ∀ hdr d, afterExpiry s.header (s.division (maskedIndex s.header id)) now now₁
          = some (hdr, d) →
        Shows s.header.indexNum s.header.cacheDataSize d id pdata.bytes timeout now₁' mallocOk := by
  have hs := wf_of_reach h₀ h
  have hi := maskedIndex_le s.header id
  obtain ⟨s'', hstep, hs', hsame⟩ := step_wf hs (.store id pdata timeout now now₁ now₁' mallocOk)
  rw [step, hstore, Option.map_some, Option.some_inj] at hstep
  subst hstep
  obtain ⟨h', d', ok, hins, -, -⟩ := shmcbInsertInternal_wf hs.geometry (hs.divisions _ hi) id
    pdata.length_lt timeout now now₁ now₁' mallocOk
  have hres := shmcbStore_of_insert hins
  rw [hstore, Option.some_inj, Prod.mk.injEq] at hres
  obtain ⟨hseg, rfl⟩ := hres
  have hdivision : s'.division (maskedIndex s.header id) = d' := by
    rw [hseg]
    exact Function.update_self ..
  have hmasked : maskedIndex s'.header id = maskedIndex s.header id := by
    rw [maskedIndex, maskedIndex, hsame.divisionMask]
  rw [visible_iff hs', hmasked, hdivision, hsame.indexNum, hsame.cacheDataSize]
  exact insert_shows_iff hs.geometry (hs.divisions _ hi) pdata.length_lt hins

/-- The new value of an id is written over the old one. -/
theorem store_visible_iff_updated :
    ∃ s s', run step Always freshSession.seg
        [.store [1] ⟨[10, 11], by decide⟩ 100 0 0 0 true,
          .store [2] ⟨[12], by decide⟩ 100 0 0 0 true] = some s
      ∧ shmcbStore s [1] ⟨[20, 21], by decide⟩ 100 0 0 0 true = some (s', true)
      ∧ Visible s' [1] [20, 21] 100 0 := by
  have hrun : (run step Always freshSession.seg
      [.store [1] ⟨[10, 11], by decide⟩ 100 0 0 0 true,
        .store [2] ⟨[12], by decide⟩ 100 0 0 0 true]).map
      (fun s => ((shmcbStore s [1] ⟨[20, 21], by decide⟩ 100 0 0 0 true).map Prod.snd,
        (afterExpiry s.header (s.division (maskedIndex s.header [1])) 0 0).map fun r =>
          (r.2.live s.header.indexNum).map fun e =>
            (decide (e.Matches (hash [1] 0) 99), e.length)))
      = some (some true, some [(true, 2), (false, 1)]) := by
    decide
  obtain ⟨s, hs, hobs⟩ := Option.map_eq_some_iff.mp hrun
  rw [Prod.mk.injEq] at hobs
  obtain ⟨hstore, hobs⟩ := hobs
  obtain ⟨⟨s', ok⟩, hs', rfl⟩ := Option.map_eq_some_iff.mp hstore
  refine ⟨s, s', hs, hs', (store_visible_iff freshSession_initial (Reach.refl.run _ hs) hs').mpr
    fun hdr d hafter => ?_⟩
  rw [hafter, Option.map_some, Option.some_inj] at hobs
  obtain ⟨e, l, hl, he, -⟩ := List.map_eq_cons_iff.mp hobs
  rw [Prod.mk.injEq, decide_eq_true_eq] at he
  have hmatches : ∀ t < 100, e.Matches (hash [1] 0) t := by
    intro t ht
    obtain ⟨hkey, hremoved, hexpires⟩ := he.1
    exact ⟨hkey, hremoved, by omega⟩
  have hfirst : ∀ t < 100, firstMatch (d.live s.header.indexNum) [1] t = some e := by
    intro t ht
    rw [firstMatch, hl, List.find?_cons_of_pos]
    exact decide_eq_true (hmatches t ht)
  refine ⟨fun _ t _ ht => ⟨e, hfirst t ht, he.2, .inl (hfirst 0 (by decide))⟩,
    fun hnot => absurd ⟨rfl, e, ?_, hmatches 0 (by decide)⟩ hnot⟩
  rw [hl]
  exact List.mem_cons_self

/-- **A shorter payload is read back with the end of the old one.** -/
theorem update_keeps_old_tail :
    ¬ ∀ (s₀ s s' : Segment), Initial s₀ → Reach step Always s₀ s →
      ∀ (id : List UInt8) (pdata : Block) (timeout now now₁ now₁' : ℤ) (mallocOk : Bool),
        shmcbStore s id pdata timeout now now₁ now₁' mallocOk = some (s', true) →
          Visible s' id pdata.bytes timeout now₁' := by
  intro hforall
  have hrun : (run step Always freshSession.seg
      [.store [1] ⟨[10, 11], by decide⟩ 100 0 0 0 true]).map
      (fun s => (shmcbStore s [1] ⟨[12], by decide⟩ 100 0 0 0 true).map fun r =>
        (r.2, (shmcbRetrieve r.1 [1] 0 0 true).map Prod.snd))
      = some (some (true, some { len := some 2, pdata := some [12, 11] })) := by
    decide +kernel
  obtain ⟨s, hs, hobs⟩ := Option.map_eq_some_iff.mp hrun
  obtain ⟨⟨s', ok⟩, hstore, hobs⟩ := Option.map_eq_some_iff.mp hobs
  rw [Prod.mk.injEq] at hobs
  obtain ⟨rfl, hobs⟩ := hobs
  obtain ⟨s'', hret⟩ := hforall freshSession.seg s s' freshSession_initial (Reach.refl.run _ hs)
    [1] ⟨[12], by decide⟩ 100 0 0 0 true hstore 0 0 le_rfl le_rfl (by decide)
  rw [hret, Option.map_some] at hobs
  simp at hobs

end Zevent.CacheDev

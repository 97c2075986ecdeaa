/-
# When a retrieval returns the last write (`zcache_shmcb.c`)

`shmcb_insert_internal` appends an entry without looking for one that is there already,
and `shmcb_lookup_internal` returns the oldest entry whose 32-bit hash matches.  So a
second store of an id is not seen until the first entry is gone, and an id whose hash
another id shares is answered with the other's data.  (`zcache-dev` looks for a live entry
and replaces it.)

`lastWrite_overwritten` exhibits the first of these.  `retrieve_lastWrite` is the converse:
in every run that avoids the two situations, and in which the clock does not go back, what
a retrieval returns is the payload of the last successful store of its id.
-/
import Zevent.Cache.Integrity

namespace Zevent.Cache

open RingBuffer Division Interleaving

/-- The payload of the last successful store of an id. -/
def lastStore (log : List Record) (id : List UInt8) : Option (List UInt8) :=
  (log.reverse.find? fun r => r.id = id).map Record.pdata

/-- The live entries of a division, each with the store that made it. -/
def Session.stored (s : Session) (i : ℕ) : List (SHMCBIndex × Record) :=
  (s.live i).zip ((s.logOf i).drop ((s.logOf i).length - (s.live i).length))

/-- The condition on a call: the clock does not go back; no store of an id is made while
an entry of that id can still be found; and no id is retrieved while an entry of another id
with the same hash can be found. -/
def Session.LastWriteSafe (s : Session) (op : Op) : Prop :=
  s.clock ≤ op.now ∧ op.now ≤ op.clock ∧
  match op with
  | .store id _ _ now => ∀ p ∈ s.stored (maskedIndex s.seg.header id),
      p.2.id = id → ¬ p.1.Matches (hash id 0) now
  | .retrieve id _ now' _ => ∀ p ∈ s.stored (maskedIndex s.seg.header id),
      p.1.Matches (hash id 0) now' → p.2.id = id
  | _ => True

instance (s : Session) (op : Op) : Decidable (s.LastWriteSafe op) :=
  match op with
  | .store .. => inferInstanceAs (Decidable (_ ∧ _ ∧ ∀ p ∈ _, _))
  | .retrieve .. => inferInstanceAs (Decidable (_ ∧ _ ∧ ∀ p ∈ _, _))
  | .remove .. => inferInstanceAs (Decidable (_ ∧ _ ∧ True))
  | .expire .. => inferInstanceAs (Decidable (_ ∧ _ ∧ True))

/-- Of two entries of one id only the newer can be found: the older one is flagged, or
expired at the time `clock`. -/
def Superseded (clock : ℤ) (p q : SHMCBIndex × Record) : Prop :=
  p.2.id = q.2.id → p.1.removed = true ∨ p.1.expires ≤ clock

theorem Superseded.mono {clock clock' : ℤ} (hclock : clock ≤ clock')
    {p q : SHMCBIndex × Record} (h : Superseded clock p q) : Superseded clock' p q := by
  intro hid
  rcases h hid with hrem | hexp
  · exact .inl hrem
  · exact .inr (hexp.trans hclock)

/-- **Step lemma.**  If only the newest entry of each id can be found, then so it is after
a call, provided a new entry's id could not be found. -/
theorem Effect.superseded {n m : ℕ} {d d' : Division} {recs : List Record}
    {rec : Option Record} {clock : ℤ} (hd : d.Wf n m) (heff : Effect n m d d' rec)
    (hlen : (d.live n).length = recs.length)
    (hpair : ((d.live n).zip recs).Pairwise (Superseded clock))
    (hnew : ∀ r ∈ rec, ∀ p ∈ (d.live n).zip recs,
      p.2.id = r.id → p.1.removed = true ∨ p.1.expires ≤ clock) :
    ∃ k, (d'.live n).length = (recs.drop k ++ rec.toList).length
      ∧ ((d'.live n).zip (recs.drop k ++ rec.toList)).Pairwise (Superseded clock) := by
  have hdrop : ∀ k, ((d.live n).drop k).zip (recs.drop k) = ((d.live n).zip recs).drop k :=
    fun k => List.drop_zipWith.symm
  cases heff with
  | rolled k hroll =>
      refine ⟨k, by simp [hroll.live_eq, hlen], ?_⟩
      rw [hroll.live_eq, Option.toList_none, List.append_nil, hdrop]
      exact hpair.drop
  | appended k d₁ r hroll happ =>
      refine ⟨k, by simp [happ.live_eq, hroll.live_eq, hlen], ?_⟩
      rw [happ.live_eq, hroll.live_eq, Option.toList_some, List.zip_append (by simp [hlen]),
        hdrop, List.pairwise_append]
      refine ⟨hpair.drop, List.pairwise_singleton _ _, fun p hp q hq hid => ?_⟩
      rw [List.zip_cons_cons, List.zip_nil_right, List.mem_singleton] at hq
      subst hq
      exact hnew r rfl p (List.mem_of_mem_drop hp) hid
  | flagged j hj heq =>
      subst heq
      refine ⟨0, by simp [hd.live_flagRemoved hj, hlen], ?_⟩
      rw [hd.live_flagRemoved hj, List.drop_zero, Option.toList_none, List.append_nil]
      rw [List.pairwise_iff_getElem] at hpair ⊢
      intro a b ha hb hab hid
      simp only [List.length_zip, List.length_modify] at ha hb
      have hold := hpair a b (by simpa using ha) (by simpa using hb) hab
      rw [List.getElem_zip, List.getElem_zip] at hid hold
      rw [List.getElem_zip]
      simp only [List.getElem_modify]
      split
      · exact .inl rfl
      · exact hold hid

namespace Session

variable {s s' : Session}

/-- The stores that made the live entries are the last ones of the log. -/
theorem stored_eq {i : ℕ} {old recs : List Record} (hsplit : s.logOf i = old ++ recs)
    (hlen : (s.live i).length = recs.length) : s.stored i = (s.live i).zip recs := by
  rw [stored, hsplit, hlen, List.length_append, Nat.add_sub_cancel, List.drop_left]

/-- In every division only the newest entry of an id can be found. -/
def Unaliased (s : Session) : Prop :=
  ∀ i ≤ s.seg.header.divisionMask, (s.stored i).Pairwise (Superseded s.clock)

theorem Initial.unaliased (h : s.Initial) : s.Unaliased := by
  intro i hi
  have hlive : s.live i = [] := by
    rw [live, Division.live, h.queueCount i hi, read_zero]
  rw [stored, hlive]
  exact .nil

/-- What the condition says of a store: an entry of the same id is flagged or expired. -/
theorem LastWriteSafe.of_store {id : List UInt8} {pdata : Block} {timeout now : ℤ}
    (hok : s.LastWriteSafe (.store id pdata timeout now)) {old recs : List Record}
    (hsplit : s.logOf (maskedIndex s.seg.header id) = old ++ recs)
    (hmatch : List.Forall₂ (Holds s.seg.header.cacheDataSize
      (s.seg.division (maskedIndex s.seg.header id)))
        (s.live (maskedIndex s.seg.header id)) recs) :
    ∀ p ∈ (s.live (maskedIndex s.seg.header id)).zip recs,
      p.2.id = id → p.1.removed = true ∨ p.1.expires ≤ now := by
  intro p hp hid
  have hnot := hok.2.2 p (by rwa [stored_eq hsplit hmatch.length_eq]) hid
  have hkey : p.1.key = hash id 0 := hid ▸ (List.forall₂_zip hmatch hp).key
  simp only [SHMCBIndex.Matches, hkey, true_and, not_and] at hnot
  rcases Bool.eq_false_or_eq_true p.1.removed with hrem | hrem
  · exact .inl hrem
  · exact .inr (not_lt.mp (hnot hrem))

/-- A call the condition allows leaves at most one entry of an id that can be found. -/
theorem Unaliased.step {op : Op} (hinv : s.Inv) (hun : s.Unaliased) (hok : s.LastWriteSafe op)
    (h : s.step op = some s') : s'.Unaliased := by
  obtain ⟨i, hi, d', rec, hsame, hdiv, heff, hlog, hclock, hrec⟩ := hinv.step_effect h
  have hlogOf := logOf_append hsame hlog fun r hr => (hrec r hr).1
  have hle : s.clock ≤ s'.clock := hclock ▸ hok.1.trans hok.2.1
  intro j hj
  rw [hsame.divisionMask] at hj
  obtain ⟨old, recs, hsplit, hmatch⟩ := hinv.matched j hj
  have hpair := (hun j hj).imp (Superseded.mono hle)
  rw [stored_eq hsplit hmatch.length_eq] at hpair
  have hlog' := hlogOf j
  rcases eq_or_ne j i with rfl | hne
  · rw [if_pos rfl, hsplit] at hlog'
    have hlive' : s'.live j = d'.live s.seg.header.indexNum := by
      rw [live, hsame.indexNum, hdiv, Function.update_self]
    have hnew : ∀ r ∈ rec, ∀ p ∈ (s.live j).zip recs,
        p.2.id = r.id → p.1.removed = true ∨ p.1.expires ≤ s'.clock := by
      intro r hr
      obtain ⟨rfl, pdata, now, rfl, -⟩ := hrec r hr
      rw [hclock]
      exact hok.of_store hsplit hmatch
    obtain ⟨k, hlen, hpair'⟩ := heff.superseded (hinv.wf j hj) hmatch.length_eq hpair hnew
    rw [append_take_drop old recs rec.toList k] at hlog'
    rw [stored_eq hlog' (hlive' ▸ hlen), hlive']
    exact hpair'
  · rw [if_neg hne, List.append_nil] at hlog'
    have hlive' : s'.live j = s.live j := by
      rw [live, hsame.indexNum, hdiv, Function.update_of_ne hne, live]
    rwa [stored, hlive', hlog', ← stored, stored_eq hsplit hmatch.length_eq]

/-- The two invariants of a run the condition allows. -/
theorem unaliased_of_reach {s₀ : Session} (h₀ : s₀.Initial)
    (h : Reach Session.step LastWriteSafe s₀ s) : s.Inv ∧ s.Unaliased := by
  refine h.invariant (fun s => s.Inv ∧ s.Unaliased) ⟨h₀.inv, h₀.unaliased⟩ ?_
  rintro s op s' ⟨hinv, hun⟩ hok hs
  exact ⟨hinv.step hs, hun.step hinv hok hs⟩

end Session

/-! ## What a retrieval returns -/

/-- What a retrieval of an id gives, when it returns. -/
def Session.found (s : Session) (id : List UInt8) (now : ℤ) : Option (Option (List UInt8)) :=
  (s.seg.apply (.retrieve id now now true)).bind fun r =>
    match r.2 with
    | .retrieved res => some res.pdata
    | _ => none

/-- A retrieval that returns data has found a live entry that matches, and returns its
payload. -/
theorem Session.Inv.retrieve_cases {s : Session} (hinv : s.Inv) {id data : List UInt8}
    {now now' : ℤ} {mallocOk : Bool} {seg' : Segment} {len : Option ℕ}
    (h : s.seg.apply (.retrieve id now now' mallocOk)
      = some (seg', .retrieved { len, pdata := some data })) :
    ∃ e ∈ s.live (maskedIndex s.seg.header id), e.Matches (hash id 0) now'
      ∧ (s.seg.division (maskedIndex s.seg.header id)).payload s.seg.header.cacheDataSize e
        = data := by
  have hi := maskedIndex_le s.seg.header id
  obtain ⟨k, d', hlook, hroll, -⟩ := shmcbLookupInternal_spec hinv.geometry (hinv.wf _ hi) id now
    now' mallocOk
  simp only [Segment.apply, shmcbRetrieve, shmcbGetDivision_of_le hi, hlook, Option.map_some,
    Option.some.injEq, Prod.mk.injEq, Result.retrieved.injEq] at h
  have hres := h.2
  rcases hfind : (d'.live s.seg.header.indexNum).find?
      (fun e => decide (e.Matches (hash id 0) now')) with _ | e
  · rw [hfind, lookupResult] at hres
    simp at hres
  · rw [hfind, lookupResult, LookupResult.mk.injEq] at hres
    have hpay := hres.2
    split_ifs at hpay
    refine ⟨e, ?_, by simpa using List.find?_some hfind, ?_⟩
    · have hmem := List.mem_of_find?_eq_some hfind
      rw [hroll.live_eq] at hmem
      exact List.mem_of_mem_drop hmem
    · rw [payload, ← hroll.data_eq]
      exact Option.some.inj hpay

/-- The last store of an id, when it is known which one that is. -/
theorem lastStore_eq {log l₁ l₂ : List Record} {r : Record} {f : Record → Bool}
    (hlog : log.filter f = l₁ ++ r :: l₂) (hf : ∀ r', r'.id = r.id → f r')
    (hlast : ∀ r' ∈ l₂, r'.id ≠ r.id) : lastStore log r.id = some r.pdata := by
  have hfind : (log.filter f).reverse.find? (fun r' => decide (r'.id = r.id))
      = log.reverse.find? fun r' => decide (r'.id = r.id) := by
    rw [← List.filter_reverse, List.find?_filter]
    congr 1
    funext r'
    rcases eq_or_ne r'.id r.id with hid | hid
    · simp [hid, hf r' hid]
    · simp [hid]
  rw [lastStore, ← hfind, hlog, List.reverse_append, List.reverse_cons, List.append_assoc,
    List.find?_append, List.find?_eq_none.mpr (by simpa using hlast), Option.none_or]
  simp

/-- **Last write wins, where it does.**  In every run in which the clock does not go back,
no id is stored while an entry of it can still be found, and no id is retrieved while an
entry of another id with its hash can be found, whatever data a retrieval returns is the
payload of the last successful store of that id. -/
theorem retrieve_lastWrite {s₀ s : Session} (h₀ : s₀.Initial)
    (h : Reach Session.step Session.LastWriteSafe s₀ s) {id data : List UInt8}
    {now now' : ℤ} {mallocOk : Bool} {seg' : Segment} {len : Option ℕ}
    (hok : s.LastWriteSafe (.retrieve id now now' mallocOk))
    (hres : s.seg.apply (.retrieve id now now' mallocOk)
      = some (seg', .retrieved { len, pdata := some data })) :
    lastStore s.log id = some data := by
  obtain ⟨hinv, hun⟩ := Session.unaliased_of_reach h₀ h
  have hi := maskedIndex_le s.seg.header id
  obtain ⟨e, he, hmatches, hpay⟩ := hinv.retrieve_cases hres
  obtain ⟨old, recs, hsplit, hmatch⟩ := hinv.matched _ hi
  have hstored := Session.stored_eq hsplit hmatch.length_eq
  have hpair := hun _ hi
  rw [hstored] at hpair
  -- the store that made the entry
  obtain ⟨k, hk, rfl⟩ := List.getElem_of_mem he
  have hk' : k < recs.length := hmatch.length_eq ▸ hk
  have hholds := hmatch.get hk hk'
  rw [List.get_eq_getElem, List.get_eq_getElem] at hholds
  have hzip : k < ((s.live (maskedIndex s.seg.header id)).zip recs).length := by
    rw [List.length_zip]
    omega
  have hmem : ((s.live (maskedIndex s.seg.header id))[k], recs[k])
      ∈ s.stored (maskedIndex s.seg.header id) := by
    rw [hstored, ← List.getElem_zip (h := hzip)]
    exact List.getElem_mem hzip
  obtain rfl : recs[k].id = id := hok.2.2 _ hmem hmatches
  rw [← hpay, hholds.payload]
  have hlog : s.logOf (maskedIndex s.seg.header recs[k].id)
      = (old ++ recs.take k) ++ recs[k] :: recs.drop (k + 1) := by
    rw [hsplit, List.append_assoc, ← List.drop_eq_getElem_cons hk', List.take_append_drop]
  refine lastStore_eq hlog (fun r' hid => by rw [hid]; simp) fun r' hr' hid => ?_
  -- a later store of the id would have found the entry gone
  obtain ⟨j, hj, rfl⟩ := List.getElem_of_mem hr'
  rw [List.length_drop] at hj
  rw [List.getElem_drop] at hid
  have hlen := hmatch.length_eq
  have hlater := List.pairwise_iff_getElem.mp hpair k (k + 1 + j) hzip
    (by rw [List.length_zip]; omega) (by omega)
  rw [List.getElem_zip, List.getElem_zip] at hlater
  have hclock : s.clock ≤ now' := hok.1.trans hok.2.1
  rcases hlater hid.symm with hrem | hexp
  · exact absurd hmatches.2.1 (by simp only at hrem; simp [hrem])
  · exact absurd hmatches.2.2 (not_lt.mpr (hexp.trans hclock))

/-- A store, a removal, a second store and a retrieval that finds the second one. -/
theorem retrieve_lastWrite_replaced :
    smallSession.Initial ∧ ∃ s, Reach Session.step Session.LastWriteSafe smallSession s
      ∧ lastStore s.log [7] = some [2, 2] := by
  have hrun : (run Session.step Session.LastWriteSafe smallSession
      [.store [7] ⟨[1, 1], by decide⟩ 100 0, .remove (some [7]) 1,
        .store [7] ⟨[2, 2], by decide⟩ 100 2]).map
        (fun s => (decide (s.LastWriteSafe (.retrieve [7] 3 3 true)),
          (s.seg.apply (.retrieve [7] 3 3 true)).map fun r =>
            match r.2 with
            | .retrieved res => some res
            | _ => none))
      = some (true, some (some { len := some 2, pdata := some [2, 2] })) := by
    decide
  obtain ⟨s, hs, hres⟩ := Option.map_eq_some_iff.mp hrun
  have hreach := Reach.refl.run _ hs
  rw [Prod.mk.injEq, Option.map_eq_some_iff] at hres
  obtain ⟨hok, ⟨seg', res⟩, happly, hmatch⟩ := hres
  cases res with
  | retrieved res =>
      rw [Option.some.inj hmatch] at happly
      exact ⟨smallSession_initial, s, hreach,
        retrieve_lastWrite smallSession_initial hreach (of_decide_eq_true hok) happly⟩
  | _ => simp at hmatch

/-- **A second store of an id is not seen.**  After two successful stores of one id a
retrieval returns the payload of the first. -/
theorem lastWrite_overwritten :
    smallSession.Initial ∧ ∃ s, Reach Session.step Always smallSession s
      ∧ (∃ seg', s.seg.apply (.retrieve [7] 0 0 true)
          = some (seg', .retrieved { len := some 2, pdata := some [1, 1] }))
      ∧ lastStore s.log [7] = some [2, 2] := by
  have hrun : (run Session.step Always smallSession
      [.store [7] ⟨[1, 1], by decide⟩ 100 0, .store [7] ⟨[2, 2], by decide⟩ 100 0]).map
        (fun s => (lastStore s.log [7], (s.seg.apply (.retrieve [7] 0 0 true)).map fun r =>
            match r.2 with
            | .retrieved res => some res
            | _ => none))
      = some (some [2, 2], some (some { len := some 2, pdata := some [1, 1] })) := by
    decide
  obtain ⟨s, hs, hres⟩ := Option.map_eq_some_iff.mp hrun
  rw [Prod.mk.injEq, Option.map_eq_some_iff] at hres
  obtain ⟨hlast, ⟨seg', res⟩, happly, hmatch⟩ := hres
  cases res with
  | retrieved res =>
      rw [Option.some.inj hmatch] at happly
      exact ⟨smallSession_initial, s, Reach.refl.run _ hs, ⟨seg', happly⟩, hlast⟩
  | _ => simp at hmatch

end Zevent.Cache

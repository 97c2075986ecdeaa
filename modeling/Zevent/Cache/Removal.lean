/-
# When a removal takes effect (`zcache_shmcb.c`)

`shmcb_remove_internal` flags the oldest entry with the hash of the id and reports a hit,
whatever the state of that entry: an expired entry counts, since the removal is to get the
credit for it.  An id that was stored twice keeps its second entry, and the next retrieval
finds that one; and an id that was removed already is reported as a hit again.

`removed_still_found` exhibits this.  `removal_takes_effect` is what holds of every run: the
entries behind the oldest one are what a removal leaves behind, and nothing but a store of
an id with the same hash brings an entry back.
-/
import Zevent.Cache.LastWrite

namespace Zevent.Cache

open RingBuffer Division Interleaving

/-! ## Entries that cannot be found -/

/-- An entry that a lookup of `key` at time `now` passes over. -/
def SHMCBIndex.Hidden (key : UInt32) (now : ℤ) (e : SHMCBIndex) : Prop :=
  e.key = key → e.removed = true ∨ e.expires ≤ now

theorem SHMCBIndex.Hidden.not_matches {key : UInt32} {now : ℤ} {e : SHMCBIndex}
    (h : e.Hidden key now) : ¬ e.Matches key now := by
  rintro ⟨hkey, hremoved, hexpires⟩
  rcases h hkey with hrem | hexp
  · rw [hremoved] at hrem
    cases hrem
  · omega

/-- The entries behind the oldest one with the key. -/
def behindFirst (key : UInt32) (l : List SHMCBIndex) : List SHMCBIndex :=
  (l.dropWhile fun e => decide (e.key ≠ key)).tail

/-- Flagging the oldest entry with the key hides all of them, if those behind it are hidden
already. -/
theorem hidden_modify {key : UInt32} {now : ℤ} {l : List SHMCBIndex} {j : ℕ}
    (hfind : l.findIdx? (fun e => decide (e.key = key)) = some j)
    (hbehind : ∀ e ∈ behindFirst key l, e.Hidden key now) :
    ∀ e ∈ l.modify j (fun e => { e with removed := true }), e.Hidden key now := by
  induction l generalizing j with
  | nil => simp at hfind
  | cons a l ih =>
      rw [List.findIdx?_cons] at hfind
      rw [behindFirst, List.dropWhile_cons] at hbehind
      split at hfind
      · rename_i hkey
        obtain rfl := Option.some.inj hfind
        rw [if_neg (by simpa using hkey), List.tail_cons] at hbehind
        intro e he
        rw [List.modify_zero_cons, List.mem_cons] at he
        rcases he with rfl | he
        · exact fun _ => .inl rfl
        · exact hbehind e he
      · rename_i hkey
        rw [Option.map_eq_some_iff] at hfind
        obtain ⟨j, hj, rfl⟩ := hfind
        rw [if_pos (by simpa using hkey)] at hbehind
        intro e he
        rw [List.modify_succ_cons, List.mem_cons] at he
        rcases he with rfl | he
        · exact fun hkey' => absurd hkey' (by simpa using hkey)
        · exact ih hj hbehind e he

/-- **Step lemma.**  Entries with the key that cannot be found stay so, unless one is
stored. -/
theorem Effect.hidden {n m : ℕ} {d d' : Division} {rec : Option Record} {key : UInt32}
    {now : ℤ} (hd : d.Wf n m) (heff : Effect n m d d' rec)
    (hnew : ∀ r ∈ rec, hash r.id 0 ≠ key) (h : ∀ e ∈ d.live n, e.Hidden key now) :
    ∀ e ∈ d'.live n, e.Hidden key now := by
  cases heff with
  | rolled k hroll =>
      intro e he
      rw [hroll.live_eq] at he
      exact h e (List.mem_of_mem_drop he)
  | appended k d₁ r hroll happ =>
      intro e he
      rw [happ.live_eq, hroll.live_eq, List.mem_append, List.mem_singleton] at he
      rcases he with he | rfl
      · exact h e (List.mem_of_mem_drop he)
      · exact fun hkey => absurd hkey (hnew r rfl)
  | flagged j hj heq =>
      subst heq
      intro e he
      rw [hd.live_flagRemoved hj] at he
      obtain ⟨k, hk, rfl⟩ := List.getElem_of_mem he
      rw [List.length_modify] at hk
      rw [List.getElem_modify]
      split
      · exact fun _ => .inl rfl
      · exact h _ (List.getElem_mem hk)

namespace Session

/-- **Run lemma.**  No run makes an entry with the key findable without a store of an id
that has it. -/
theorem Inv.hidden_of_reach {s s' : Session} (hinv : s.Inv) {i : ℕ} {key : UInt32} {now : ℤ}
    (h : ∀ e ∈ s.live i, e.Hidden key now) (hreach : Reach Session.step Always s s') :
    s'.Inv ∧ s'.seg.header.divisionMask = s.seg.header.divisionMask
      ∧ ∃ new, s'.log = s.log ++ new
        ∧ ((∀ r ∈ new, hash r.id 0 ≠ key) → ∀ e ∈ s'.live i, e.Hidden key now) := by
  induction hreach with
  | refl => exact ⟨hinv, rfl, [], by rw [List.append_nil], fun _ => h⟩
  | @tail t t' op _ _ hs ih =>
      obtain ⟨hinv', hmask, new, hlog, hhidden⟩ := ih
      obtain ⟨j, hj, d', rec, hsame, hdiv, heff, hlog', -, -⟩ := hinv'.step_effect hs
      refine ⟨hinv'.step hs, hsame.divisionMask.trans hmask, new ++ rec.toList, ?_, ?_⟩
      · rw [hlog', hlog, List.append_assoc]
      · intro hnew
        have hold := hhidden fun r hr => hnew r (List.mem_append_left _ hr)
        rw [live, hsame.indexNum, hdiv]
        rcases eq_or_ne i j with rfl | hne
        · rw [Function.update_self]
          refine heff.hidden (hinv'.wf i hj) (fun r hr => ?_) hold
          exact hnew r (List.mem_append_right _ (Option.mem_toList.mpr hr))
        · rw [Function.update_of_ne hne]
          exact hold

/-- What a removal does to the live entries of its division. -/
theorem Inv.remove_cases {s s' : Session} (hinv : s.Inv) {id : List UInt8} {now : ℤ}
    (h : s.step (.remove (some id) now) = some s') :
    s'.log = s.log ∧ s'.seg.header.divisionMask = s.seg.header.divisionMask
    ∧ ((∃ seg', s.seg.apply (.remove (some id) now) = some (seg', .removed true))
        ∧ (∃ j, (s.live (maskedIndex s.seg.header id)).findIdx?
              (fun e => decide (e.key = hash id 0)) = some j
          ∧ s'.live (maskedIndex s.seg.header id)
            = (s.live (maskedIndex s.seg.header id)).modify j fun e => { e with removed := true })
      ∨ (∃ seg', s.seg.apply (.remove (some id) now) = some (seg', .removed false))
        ∧ (∀ e ∈ s.live (maskedIndex s.seg.header id), e.key ≠ hash id 0)
        ∧ ∃ k, s'.live (maskedIndex s.seg.header id)
            = (s.live (maskedIndex s.seg.header id)).drop k) := by
  have hi := maskedIndex_le s.seg.header id
  rcases shmcbRemoveInternal_spec hinv.geometry (hinv.wf _ hi) id now with
    ⟨j, hj, hrem, hfind⟩ | ⟨k, d', hrem, hroll, -, hmiss⟩
  · have happly : s.seg.apply (.remove (some id) now)
        = some ({ header := { s.seg.header with numRemovesHit := s.seg.header.numRemovesHit + 1 }
                  division := Function.update s.seg.division (maskedIndex s.seg.header id)
                    ((s.seg.division (maskedIndex s.seg.header id)).flagRemoved
                      (((s.seg.division (maskedIndex s.seg.header id)).queueFirst + j)
                        % s.seg.header.indexNum)) }, .removed true) := by
      simp only [Segment.apply, shmcbRemove, shmcbGetDivision_of_le hi, hrem, Option.map_some,
        if_true]
    rw [Session.step, happly, Option.map_some, Option.some.injEq] at h
    subst h
    refine ⟨by simp [Op.record], rfl, .inl ⟨⟨_, happly⟩, j, hfind, ?_⟩⟩
    simp only [live, Function.update_self]
    exact (hinv.wf _ hi).live_flagRemoved hj
  · have happly : s.seg.apply (.remove (some id) now)
        = some ({ header := { s.seg.header with
                    numExpiries := s.seg.header.numExpiries + k
                    numRemovesMiss := s.seg.header.numRemovesMiss + 1 }
                  division := Function.update s.seg.division (maskedIndex s.seg.header id) d' },
          .removed false) := by
      simp only [Segment.apply, shmcbRemove, shmcbGetDivision_of_le hi, hrem, Option.map_some,
        Bool.false_eq_true, if_false]
    rw [Session.step, happly, Option.map_some, Option.some.injEq] at h
    subst h
    refine ⟨by simp [Op.record], rfl, .inr ⟨⟨_, happly⟩, hmiss, k, ?_⟩⟩
    simp only [live, Function.update_self]
    exact hroll.live_eq

/-- A retrieval returns nothing when the live entries of its division are hidden. -/
theorem Inv.retrieve_hidden {s : Session} (hinv : s.Inv) {id : List UInt8} {now now' : ℤ}
    {mallocOk : Bool} {seg' : Segment} {res : LookupResult}
    (h : ∀ e ∈ s.live (maskedIndex s.seg.header id), e.Hidden (hash id 0) now')
    (hret : s.seg.apply (.retrieve id now now' mallocOk) = some (seg', .retrieved res)) :
    res.pdata = none := by
  rcases res with ⟨len, _ | data⟩
  · rfl
  · obtain ⟨e, he, hmatches, -⟩ := hinv.retrieve_cases hret
    exact absurd hmatches (h e he).not_matches

end Session

/-! ## Removals over every run -/

/-- **What a removal does.**  In every state of every run, a removal reports a hit if an
entry with the hash of its id is in the queue that is not flagged, expired or not, hence if
a retrieval just before would have returned data, and a miss if there is no entry with that
hash.  In every run from there on in which no id with that hash is stored, a retrieval
returns nothing, provided the entries with the hash behind the oldest one were flagged at
the removal or have expired when the retrieval looks at the clock. -/
theorem removal_takes_effect {s₀ s : Session} (h₀ : s₀.Initial)
    (h : Reach Session.step Always s₀ s) (id : List UInt8) (now : ℤ) :
    ∃ seg₁ ok, s.seg.apply (.remove (some id) now) = some (seg₁, .removed ok)
      ∧ ((∃ e ∈ s.live (maskedIndex s.seg.header id),
            e.key = hash id 0 ∧ e.removed = false) → ok = true)
      ∧ (∀ t t' mallocOk seg data len,
          s.seg.apply (.retrieve id t t' mallocOk)
            = some (seg, .retrieved { len, pdata := some data }) → ok = true)
      ∧ ((∀ e ∈ s.live (maskedIndex s.seg.header id), e.key ≠ hash id 0) → ok = false)
      ∧ ∀ s₁ s₂, s.step (.remove (some id) now) = some s₁ → Reach Session.step Always s₁ s₂ →
          (∀ r ∈ s₂.log.drop s₁.log.length, hash r.id 0 ≠ hash id 0) →
          ∀ t t' mallocOk seg res,
            (∀ e ∈ behindFirst (hash id 0) (s.live (maskedIndex s.seg.header id)),
              e.key = hash id 0 → e.removed = true ∨ e.expires ≤ t') →
            s₂.seg.apply (.retrieve id t t' mallocOk) = some (seg, .retrieved res) →
            res.pdata = none := by
  have hinv := Session.Inv.of_reach h₀ h
  obtain ⟨s₁, hs₁⟩ := Option.isSome_iff_exists.mp (hinv.step_isSome (.remove (some id) now))
  obtain ⟨-, -, hcases⟩ := hinv.remove_cases hs₁
  -- after the removal every entry with the hash is hidden, if those behind the oldest are
  have hhidden : ∀ t, (∀ e ∈ behindFirst (hash id 0) (s.live (maskedIndex s.seg.header id)),
      e.Hidden (hash id 0) t) →
      ∀ e ∈ s₁.live (maskedIndex s.seg.header id), e.Hidden (hash id 0) t := by
    intro t hbehind
    rcases hcases with ⟨-, j, hfind, hlive⟩ | ⟨-, hmiss, k, hlive⟩
    · rw [hlive]
      exact hidden_modify hfind hbehind
    · intro e he hkey
      rw [hlive] at he
      exact absurd hkey (hmiss e (List.mem_of_mem_drop he))
  have hafter : ∀ s₁ s₂, s.step (.remove (some id) now) = some s₁ →
      Reach Session.step Always s₁ s₂ →
      (∀ r ∈ s₂.log.drop s₁.log.length, hash r.id 0 ≠ hash id 0) →
      ∀ t t' mallocOk seg res,
        (∀ e ∈ behindFirst (hash id 0) (s.live (maskedIndex s.seg.header id)),
          e.Hidden (hash id 0) t') →
        s₂.seg.apply (.retrieve id t t' mallocOk) = some (seg, .retrieved res) →
        res.pdata = none := by
    intro s₁' s₂ hs₁' hreach hstores t t' mallocOk seg res hbehind hret
    obtain rfl : s₁ = s₁' := Option.some.inj (hs₁.symm.trans hs₁')
    obtain ⟨-, hmask₁, -⟩ := hinv.remove_cases hs₁
    obtain ⟨hinv₂, hmask₂, new, hlog, hlater⟩ :=
      (hinv.step hs₁).hidden_of_reach (hhidden t' hbehind) hreach
    rw [hlog, List.drop_left] at hstores
    refine hinv₂.retrieve_hidden ?_ hret
    rw [maskedIndex, hmask₂, hmask₁]
    exact hlater hstores
  rcases hcases with ⟨⟨seg', happly⟩, j, hfind, -⟩ | ⟨⟨seg', happly⟩, hmiss, -⟩
  · refine ⟨seg', true, happly, fun _ => rfl, fun _ _ _ _ _ _ _ => rfl, ?_, hafter⟩
    intro hnone
    have hall : ∀ e ∈ s.live (maskedIndex s.seg.header id), decide (e.key = hash id 0) = false :=
      fun e he => by simpa using hnone e he
    rw [List.findIdx?_eq_none_iff.mpr hall] at hfind
    cases hfind
  · refine ⟨seg', false, happly, ?_, ?_, fun _ => rfl, hafter⟩
    · rintro ⟨e, he, hkey, -⟩
      exact absurd hkey (hmiss e he)
    · intro t t' mallocOk seg data len hret
      obtain ⟨e, he, hmatches, -⟩ := hinv.retrieve_cases hret
      exact absurd hmatches.1 (hmiss e he)

/-- The entry of one id is removed, and is not there after a store of another one. -/
theorem removal_takes_effect_stored :
    ∃ s s₁ s₂ seg₁, Reach Session.step Always freshSession s
      ∧ s.seg.apply (.remove (some [7]) 1) = some (seg₁, .removed true)
      ∧ s.step (.remove (some [7]) 1) = some s₁
      ∧ s₁.step (.store [9] ⟨[3], by decide⟩ 100 2) = some s₂
      ∧ ∀ seg res, s₂.seg.apply (.retrieve [7] 3 3 true) = some (seg, .retrieved res) →
        res.pdata = none := by
  have hrun : (run Session.step Always freshSession
      [.store [8] ⟨[2], by decide⟩ 100 0, .store [7] ⟨[1, 1], by decide⟩ 100 0]).bind
      (fun s => (s.step (.remove (some [7]) 1)).bind fun s₁ =>
        (s₁.step (.store [9] ⟨[3], by decide⟩ 100 2)).map fun s₂ =>
          ((s.live (maskedIndex s.seg.header [7])).map
            (fun e => (decide (e.key = hash [7] 0), e.removed)),
            (s₂.log.drop s₁.log.length).map fun r => decide (hash r.id 0 = hash [7] 0),
            behindFirst (hash [7] 0) (s.live (maskedIndex s.seg.header [7]))))
      = some ([(false, false), (true, false)], [false], []) := by
    decide
  rw [Option.bind_eq_some_iff] at hrun
  obtain ⟨s, hs, hrun⟩ := hrun
  rw [Option.bind_eq_some_iff] at hrun
  obtain ⟨s₁, hs₁, hrun⟩ := hrun
  obtain ⟨s₂, hs₂, hobs⟩ := Option.map_eq_some_iff.mp hrun
  rw [Prod.mk.injEq, Prod.mk.injEq] at hobs
  obtain ⟨hlive, hlog, hbehind⟩ := hobs
  have hreach := Reach.refl.run _ hs
  obtain ⟨seg₁, ok, happly, hhit, -, -, hafter⟩ :=
    removal_takes_effect freshSession_initial hreach [7] 1
  have hfound : ok = true := by
    have hmem : (true, false) ∈ (s.live (maskedIndex s.seg.header [7])).map
        (fun e => (decide (e.key = hash [7] 0), e.removed)) := by
      rw [hlive]
      decide
    obtain ⟨e, he, heq⟩ := List.mem_map.mp hmem
    rw [Prod.mk.injEq, decide_eq_true_eq] at heq
    exact hhit ⟨e, he, heq⟩
  refine ⟨s, s₁, s₂, seg₁, hreach, hfound ▸ happly, hs₁, hs₂, fun seg res hret => ?_⟩
  refine hafter s₁ s₂ hs₁ (.tail .refl trivial hs₂) (fun r hr => ?_) 3 3 true seg res ?_ hret
  · have hmem := List.mem_map_of_mem (f := fun r => decide (hash r.id 0 = hash [7] 0)) hr
    rw [hlog, List.mem_singleton] at hmem
    exact of_decide_eq_false hmem
  · rw [hbehind]
    simp

/-- Whether a removal of an id reports a hit, when it returns. -/
def Session.removes (s : Session) (id : List UInt8) (now : ℤ) : Option Bool :=
  (s.seg.apply (.remove (some id) now)).bind fun r =>
    match r.2 with
    | .removed ok => some ok
    | _ => none

/-- **A removed id is still found**: after two stores and a removal of one id a retrieval
returns the payload of the second store.  And a removal of an expired entry reports a hit
where a retrieval just before finds nothing. -/
theorem removed_still_found :
    (∃ s s₁, Reach Session.step Always freshSession s
        ∧ s.step (.remove (some [7]) 0) = some s₁ ∧ s₁.found [7] 0 = some (some [2, 2]))
      ∧ ∃ s, Reach Session.step Always freshSession s
        ∧ s.found [7] 200 = some none ∧ s.removes [7] 200 = some true := by
  refine ⟨?_, ?_⟩
  · have hrun : (run Session.step Always freshSession
        [.store [7] ⟨[1, 1], by decide⟩ 100 0, .store [7] ⟨[2, 2], by decide⟩ 100 0]).map
          (fun s => (s.step (.remove (some [7]) 0)).map fun s => s.found [7] 0)
        = some (some (some (some [2, 2]))) := by
      decide
    obtain ⟨s, hs, hobs⟩ := Option.map_eq_some_iff.mp hrun
    obtain ⟨s₁, hs₁, hfound⟩ := Option.map_eq_some_iff.mp hobs
    exact ⟨s, s₁, Reach.refl.run _ hs, hs₁, hfound⟩
  · have hrun : (run Session.step Always freshSession
        [.store [7] ⟨[1, 1], by decide⟩ 100 0]).map
          (fun s => (s.found [7] 200, s.removes [7] 200)) = some (some none, some true) := by
      decide
    obtain ⟨s, hs, hobs⟩ := Option.map_eq_some_iff.mp hrun
    rw [Prod.mk.injEq] at hobs
    exact ⟨s, Reach.refl.run _ hs, hobs⟩

end Zevent.Cache

/-
# Integrity of the cache over every run

The representation invariant of every division, and that a cached payload is what was
stored as long as its entry is in the queue.

Both follow from one invariant, `Session.Inv`: the divisions are well formed, and the live
entries of a division are, in order, those of the last successful stores into it.  The
step lemma `Effect.matched` is where it is shown that an insertion writes behind every
live entry and never over one.
-/
import Zevent.Cache.Store

namespace Zevent.Cache

open RingBuffer Division Interleaving

/-! ## Entries and the stores that made them -/

/-- The entry `e` is the one the store `r` made, and its bytes in the ring are still
those that were stored. -/
structure Holds (m : ℕ) (d : Division) (e : SHMCBIndex) (r : Record) : Prop where
  key : e.key = hash r.id 0
  expires : e.expires = r.timeout
  length : e.length = r.pdata.length
  payload : d.payload m e = r.pdata

section Effects

variable {n m : ℕ} {d d' : Division} {recs : List Record} {rec : Option Record}

/-- Appending an entry leaves every byte of the live ones. -/
theorem Division.Appended.data_apply {id pdata : List UInt8} {t : ℤ} (hd : d.Wf n m)
    (happ : Appended n m d d' id pdata t) :
    ∀ e ∈ d.live n, ∀ j < e.length, d'.data ((e.offset + j) % m) = d.data ((e.offset + j) % m) := by
  intro e he j hj
  rw [happ.data_eq]
  exact hd.tiled.write_apply d.data hd.total_le happ.room e.region
    (List.mem_map_of_mem he) j hj

/-- The entry that is appended reads back as what was written. -/
theorem Division.Appended.payload_new {id pdata : List UInt8} {t : ℤ} (hm : m < 2147483648)
    (happ : Appended n m d d' id pdata t) {e : SHMCBIndex} (he : e ∈ d'.live n)
    (hoff : e.offset = (d.cacheFirst + d.cacheCount) % m) (hlen : e.length = pdata.length) :
    d'.payload m e = pdata := by
  have hroom := happ.room
  rw [happ.wf.payload_eq hm he, happ.data_eq, hoff, hlen, read_mod,
    read_write_self _ _ (by omega)]

/-- **Step lemma.**  If the live entries hold the stores `recs`, then after one call the
live entries hold what is left of them, followed by the new one. -/
theorem Effect.matched (hm : m < 2147483648) (hd : d.Wf n m) (heff : Effect n m d d' rec)
    (hmatch : List.Forall₂ (Holds m d) (d.live n) recs) :
    ∃ k, List.Forall₂ (Holds m d') (d'.live n) (recs.drop k ++ rec.toList) := by
  cases heff with
  | rolled k hroll =>
      refine ⟨k, ?_⟩
      rw [hroll.live_eq, Option.toList_none, List.append_nil]
      refine (List.forall₂_drop k hmatch).imp fun e r h => ⟨h.key, h.expires, h.length, ?_⟩
      rw [← h.payload, payload, payload, hroll.data_eq]
  | appended k d₁ r hroll happ =>
      refine ⟨k, ?_⟩
      rw [happ.live_eq, Option.toList_some]
      refine List.rel_append ?_ (.cons ?_ .nil)
      · rw [hroll.live_eq]
        -- carry membership along, so that the bytes of each entry can be compared
        have hkept := (List.forall₂_and_left _ _).mpr
          ⟨fun e he => he, List.forall₂_drop k hmatch⟩
        refine hkept.imp fun e r ⟨he, h⟩ => ⟨h.key, h.expires, h.length, ?_⟩
        have he₁ : e ∈ d₁.live n := hroll.live_eq ▸ he
        have he' : e ∈ d'.live n := by
          rw [happ.live_eq]
          exact List.mem_append_left _ he₁
        rw [happ.wf.payload_eq hm he',
          read_congr (happ.data_apply hroll.wf e he₁), ← hroll.wf.payload_eq hm he₁, payload,
          hroll.data_eq, ← payload, h.payload]
      · refine ⟨rfl, rfl, rfl, happ.payload_new hm ?_ rfl rfl⟩
        rw [happ.live_eq]
        exact List.mem_append_right _ (List.mem_singleton.mpr rfl)
  | flagged j hj heq =>
      subst heq
      refine ⟨0, ?_⟩
      rw [hd.live_flagRemoved hj, Option.toList_none, List.append_nil, List.drop_zero]
      refine List.forall₂_of_length_eq_of_get (by simp [hmatch.length_eq]) fun i hi hi' => ?_
      have hi₀ : i < (d.live n).length := by simpa using hi
      have h := hmatch.get hi₀ hi'
      rw [List.get_eq_getElem, List.getElem_modify]
      split
      · exact ⟨h.key, h.expires, h.length, h.payload⟩
      · exact ⟨h.key, h.expires, h.length, h.payload⟩

theorem Effect.wf (hd : d.Wf n m) (heff : Effect n m d d' rec) : d'.Wf n m := by
  cases heff with
  | rolled k hroll => exact hroll.wf
  | appended k d₁ r hroll happ => exact happ.wf
  | flagged j hj heq => exact heq ▸ hd.flagRemoved hj

/-- **Frame.**  The entries a call leaves in the queue keep their regions and all bytes in
them. -/
theorem Effect.frame (hd : d.Wf n m) (heff : Effect n m d d' rec) :
    ∃ k ≤ d.queueCount,
      ((d.live n).drop k).map SHMCBIndex.region <+: (d'.live n).map SHMCBIndex.region
      ∧ ∀ e ∈ (d.live n).drop k, ∀ j < e.length,
          d'.data ((e.offset + j) % m) = d.data ((e.offset + j) % m) := by
  cases heff with
  | rolled k hroll =>
      refine ⟨min k d.queueCount, min_le_right _ _, ?_, ?_⟩
      · rw [hroll.live_eq, ← length_live n d, ← List.drop_eq_drop_min]
      · intro e _ j _
        rw [hroll.data_eq]
  | appended k d₁ r hroll happ =>
      refine ⟨min k d.queueCount, min_le_right _ _, ?_, ?_⟩
      · rw [happ.live_eq, hroll.live_eq, ← length_live n d, ← List.drop_eq_drop_min,
          List.map_append]
        exact List.prefix_append _ _
      · intro e he j hj
        rw [← length_live n d, ← List.drop_eq_drop_min, ← hroll.live_eq] at he
        rw [happ.data_apply hroll.wf e he j hj, hroll.data_eq]
  | flagged j hj heq =>
      subst heq
      refine ⟨0, Nat.zero_le _, ?_, fun _ _ _ _ => rfl⟩
      have hregions := hd.regions_flagRemoved hj
      rw [regions, regions] at hregions
      rw [List.drop_zero, hregions]

end Effects

/-! ## The invariant of a session -/

namespace Session

/-- The log of a division, cut anew after `k` of the live entries are gone. -/
theorem append_take_drop (old recs new : List Record) (k : ℕ) :
    old ++ recs ++ new = (old ++ recs.take k) ++ (recs.drop k ++ new) := by
  rw [List.append_assoc, List.append_assoc, ← List.append_assoc (recs.take k),
    List.take_append_drop]

/-- The invariant: every division is well formed, and its live entries hold, in order,
the last successful stores into it. -/
structure Inv (s : Session) : Prop where
  geometry : s.seg.header.Geometry
  wf : ∀ i ≤ s.seg.header.divisionMask,
    (s.seg.division i).Wf s.seg.header.indexNum s.seg.header.cacheDataSize
  matched : ∀ i ≤ s.seg.header.divisionMask, ∃ old recs, s.logOf i = old ++ recs
    ∧ List.Forall₂ (Holds s.seg.header.cacheDataSize (s.seg.division i)) (s.live i) recs

/-- **What a call of a session can do.** -/
theorem Inv.step_effect {s s' : Session} {op : Op} (hinv : s.Inv) (h : s.step op = some s') :
    ∃ i ≤ s.seg.header.divisionMask, ∃ d' rec,
      s.seg.header.SameLayout s'.seg.header
      ∧ s'.seg.division = Function.update s.seg.division i d'
      ∧ Effect s.seg.header.indexNum s.seg.header.cacheDataSize (s.seg.division i) d' rec
      ∧ s'.log = s.log ++ rec.toList
      ∧ s'.clock = op.clock
      ∧ ∀ r ∈ rec, maskedIndex s.seg.header r.id = i
        ∧ ∃ pdata now, op = .store r.id pdata r.timeout now ∧ pdata.bytes = r.pdata := by
  obtain ⟨seg', res, i, d', happly, hsame, hi, hdiv, heff, hrec, -⟩ :=
    Segment.apply_effect hinv.geometry hinv.wf op
  rw [step, happly, Option.map_some, Option.some.injEq] at h
  subst h
  refine ⟨i, hi, d', op.record res, hsame, hdiv, heff, rfl, rfl, fun r hr => ⟨hrec r hr, ?_⟩⟩
  cases op with
  | store id pdata timeout now =>
      cases res with
      | stored ok =>
          cases ok with
          | false => simp [Op.record] at hr
          | true =>
              rw [Op.record, Option.mem_some_iff] at hr
              subst hr
              exact ⟨pdata, now, rfl, rfl⟩
      | _ => simp [Op.record] at hr
  | _ => simp [Op.record] at hr

theorem Initial.inv {s : Session} (h : s.Initial) : s.Inv where
  geometry := h.geometry
  wf i hi := by
    have hlive : (s.seg.division i).live s.seg.header.indexNum = [] := by
      rw [Division.live, h.queueCount i hi, read_zero]
    refine ⟨?_, ?_, ?_, ?_, ?_, ?_, fun _ => h.cacheCount i hi⟩
    · rw [h.queueCount i hi]
      exact Nat.zero_le _
    · rw [h.queueFirst i hi]
      exact h.geometry.indexNum_pos
    · rw [h.cacheFirst i hi]
      exact h.geometry.cacheDataSize_pos
    · rw [h.cacheCount i hi]
      exact Nat.zero_le _
    · rw [regions, hlive]
      trivial
    · rw [regions, hlive, h.cacheCount i hi]
      exact .inl rfl
  matched i hi := by
    refine ⟨[], [], ?_, ?_⟩
    · rw [logOf, h.log]
      rfl
    · rw [live, Division.live, h.queueCount i hi, read_zero]
      exact .nil

/-- The stores of a division after a call: the new one is added where it belongs. -/
theorem logOf_append {s s' : Session} {rec : Option Record} {i : ℕ}
    (hsame : s.seg.header.SameLayout s'.seg.header) (hlog : s'.log = s.log ++ rec.toList)
    (hrec : ∀ r ∈ rec, maskedIndex s.seg.header r.id = i) (j : ℕ) :
    s'.logOf j = s.logOf j ++ if j = i then rec.toList else [] := by
  have hmask : ∀ id, maskedIndex s'.seg.header id = maskedIndex s.seg.header id := by
    intro id
    rw [maskedIndex, maskedIndex, hsame.divisionMask]
  rw [logOf, logOf, hlog, List.filter_append]
  simp only [hmask]
  congr 1
  cases rec with
  | none => simp
  | some r =>
      have hr := hrec r rfl
      rw [Option.toList_some, List.filter_singleton, hr]
      rcases eq_or_ne j i with rfl | hne
      · simp
      · simp [hne, hne.symm]

/-- **Every call keeps the invariant.** -/
theorem Inv.step {s s' : Session} {op : Op} (hinv : s.Inv) (h : s.step op = some s') :
    s'.Inv := by
  obtain ⟨i, hi, d', rec, hsame, hdiv, heff, hlog, -, hrec⟩ := hinv.step_effect h
  have hlogOf := logOf_append hsame hlog fun r hr => (hrec r hr).1
  have hm := hinv.geometry.cacheDataSize_lt
  refine ⟨hsame.geometry hinv.geometry, fun j hj => ?_, fun j hj => ?_⟩
  · rw [hsame.divisionMask] at hj
    rw [hsame.indexNum, hsame.cacheDataSize, hdiv]
    rcases eq_or_ne j i with rfl | hne
    · rw [Function.update_self]
      exact heff.wf (hinv.wf j hj)
    · rw [Function.update_of_ne hne]
      exact hinv.wf j hj
  · rw [hsame.divisionMask] at hj
    obtain ⟨old, recs, hsplit, hmatch⟩ := hinv.matched j hj
    rw [hlogOf j, hsplit, live, hsame.indexNum, hsame.cacheDataSize, hdiv]
    rcases eq_or_ne j i with rfl | hne
    · rw [Function.update_self, if_pos rfl]
      obtain ⟨k, hmatch'⟩ := heff.matched hm (hinv.wf j hj) hmatch
      exact ⟨old ++ recs.take k, recs.drop k ++ rec.toList, append_take_drop .., hmatch'⟩
    · rw [Function.update_of_ne hne, if_neg hne]
      exact ⟨old, recs, by rw [List.append_nil], hmatch⟩

/-- The invariant holds in every state of every run. -/
theorem Inv.of_reach {ok : Session → Op → Prop} {s₀ s : Session} (h₀ : s₀.Initial)
    (h : Reach Session.step ok s₀ s) : s.Inv :=
  h.invariant Inv h₀.inv fun _ _ _ hinv _ hs => hinv.step hs

/-- A reachable session answers every call: no null index pointer is ever dereferenced. -/
theorem Inv.step_isSome {s : Session} (hinv : s.Inv) (op : Op) : (s.step op).isSome := by
  obtain ⟨seg', res, -, -, happly, -⟩ := Segment.apply_effect hinv.geometry hinv.wf op
  rw [Session.step, happly]
  rfl

end Session

/-- A session of one division with two index entries and five bytes. -/
def smallSession : Session where
  seg :=
    { header :=
        { numStores := 0, numExpiries := 0, numScrolled := 0, numRetrievesHit := 0
          numRetrievesMiss := 0, numRemovesHit := 0, numRemovesMiss := 0
          divisionOffset := sizeofHeader, divisionSize := 69, queueSize := 56
          cacheDataOffset := 8, cacheDataSize := 5, divisionMask := 0, indexNum := 2
          indexOffset := 8, indexSize := sizeofIndex }
      division := fun _ =>
        { queueFirst := 0, queueCount := 0, indexes := fun _ => ⟨0, 0, 0, 0, false⟩
          cacheFirst := 0, cacheCount := 0, data := fun _ => 0 } }
  log := []
  clock := 0

theorem smallSession_initial : smallSession.Initial :=
  ⟨⟨by decide, by decide, by decide, by decide, by decide⟩, fun _ _ => rfl, fun _ _ => rfl,
    fun _ _ => rfl, fun _ _ => rfl, rfl⟩

/-- The segment `shmcb_init_memory` makes of 696 zero bytes, the fewest it accepts: one
division with five index entries and 464 bytes. -/
def freshSession : Session where
  seg :=
    { header :=
        { numStores := 0, numExpiries := 0, numScrolled := 0, numRetrievesHit := 0
          numRetrievesMiss := 0, numRemovesHit := 0, numRemovesMiss := 0
          divisionOffset := 96, divisionSize := 600, queueSize := 128, cacheDataOffset := 8
          cacheDataSize := 464, divisionMask := 0, indexNum := 5, indexOffset := 8
          indexSize := 24 }
      division := fun _ =>
        { queueFirst := 0, queueCount := 0, indexes := fun _ => ⟨0, 0, 0, 0, false⟩
          cacheFirst := 0, cacheCount := 0, data := fun _ => 0 } }
  log := []
  clock := 0

theorem freshSession_header :
    shmcbInitHeader ⟨0, 0, 0, 0, 0, 0, 0, 0, 0, 0, 0, 0, 0, 0, 0, 0⟩ 696
      = some (some freshSession.seg.header) := by
  decide

theorem freshSession_initial : freshSession.Initial :=
  ⟨shmcbInitHeader_geometry (by decide) freshSession_header, fun _ _ => rfl, fun _ _ => rfl,
    fun _ _ => rfl, fun _ _ => rfl, rfl⟩

/-! ## The representation invariant over every run -/

/-- A call that stores at least one byte, if it stores anything. -/
def Op.NonEmpty : Op → Prop
  | .store _ pdata _ _ => 1 ≤ pdata.bytes.length
  | _ => True

instance (op : Op) : Decidable op.NonEmpty :=
  match op with
  | .store _ pdata _ _ => inferInstanceAs (Decidable (1 ≤ pdata.bytes.length))
  | .retrieve .. => inferInstanceAs (Decidable True)
  | .remove .. => inferInstanceAs (Decidable True)
  | .expire .. => inferInstanceAs (Decidable True)

/-- In a run of non-empty stores every store of the log is non-empty. -/
theorem Session.log_nonEmpty {s₀ s : Session} (h₀ : s₀.Initial)
    (h : Reach Session.step (fun _ op => op.NonEmpty) s₀ s) :
    ∀ r ∈ s.log, 1 ≤ r.pdata.length := by
  have hboth : s.Inv ∧ ∀ r ∈ s.log, 1 ≤ r.pdata.length := by
    refine h.invariant (fun s => s.Inv ∧ ∀ r ∈ s.log, 1 ≤ r.pdata.length) ⟨h₀.inv, ?_⟩ ?_
    · rw [h₀.log]
      simp
    · rintro s op s' ⟨hinv, hlog⟩ hop hs
      refine ⟨hinv.step hs, ?_⟩
      obtain ⟨i, -, d', rec, -, -, -, hlog', -, hrec⟩ := hinv.step_effect hs
      intro r hr
      rw [hlog'] at hr
      rcases List.mem_append.mp hr with hold | hnew
      · exact hlog r hold
      · rw [Option.mem_toList] at hnew
        obtain ⟨-, pdata, now, rfl, hbytes⟩ := hrec r hnew
        exact hbytes ▸ hop
  exact hboth.2

/-- In a run of non-empty stores every live entry is non-empty. -/
theorem Session.live_nonEmpty {s₀ s : Session} (h₀ : s₀.Initial)
    (h : Reach Session.step (fun _ op => op.NonEmpty) s₀ s) {i : ℕ}
    (hi : i ≤ s.seg.header.divisionMask) : ∀ e ∈ s.live i, 1 ≤ e.length := by
  obtain ⟨old, recs, hsplit, hmatch⟩ := (Inv.of_reach h₀ h).matched i hi
  intro e he
  obtain ⟨k, hk, rfl⟩ := List.getElem_of_mem he
  have hk' : k < recs.length := hmatch.length_eq ▸ hk
  have hholds := hmatch.get hk hk'
  rw [List.get_eq_getElem, List.get_eq_getElem] at hholds
  rw [hholds.length]
  have hmem : recs[k] ∈ s.logOf i := by
    rw [hsplit]
    exact List.mem_append_right _ (List.getElem_mem hk')
  exact Session.log_nonEmpty h₀ h _ (List.mem_of_mem_filter hmem)

/-- **Representation invariant.**  In every state of every run of stores, retrievals,
removals and expiries from a segment whose positions are all zero, whatever the clock
reads, every call returns, and in every division the positions are in range, the live
entries describe adjacent regions of the data ring that start at `first_pos`, and
`pos_count` is the sum of their lengths and at most the size of the ring. -/
theorem division_representation {s₀ s : Session} (h₀ : s₀.Initial)
    (h : Reach Session.step (fun _ op => op.NonEmpty) s₀ s) {i : ℕ}
    (hi : i ≤ s.seg.header.divisionMask) :
    (∀ op, (s.step op).isSome)
      ∧ (s.seg.division i).queueCount ≤ s.seg.header.indexNum
      ∧ (s.seg.division i).queueFirst < s.seg.header.indexNum
      ∧ (s.seg.division i).cacheFirst < s.seg.header.cacheDataSize
      ∧ (s.live i).length = (s.seg.division i).queueCount
      ∧ (∀ k (hk : k < (s.live i).length), (s.live i)[k].offset
          = ((s.seg.division i).cacheFirst + (((s.live i).take k).map SHMCBIndex.length).sum)
            % s.seg.header.cacheDataSize)
      ∧ (s.seg.division i).cacheCount = ((s.live i).map SHMCBIndex.length).sum
      ∧ (s.seg.division i).cacheCount ≤ s.seg.header.cacheDataSize := by
  have hinv := Session.Inv.of_reach h₀ h
  have hwf := hinv.wf i hi
  have htotal : ∀ l : List SHMCBIndex,
      total (l.map SHMCBIndex.region) = (l.map SHMCBIndex.length).sum := by
    intro l
    rw [total, List.map_map]
    rfl
  refine ⟨hinv.step_isSome, hwf.queueCount_le, hwf.queueFirst_lt, hwf.cacheFirst_lt,
    length_live _ _, fun k hk => ?_, ?_, hwf.cacheCount_le⟩
  · have hk' : k < ((s.seg.division i).regions s.seg.header.indexNum).length := by
      simpa [regions, Session.live] using hk
    have hoff := hwf.tiled.offset_eq hk'
    simp only [regions, List.getElem_map, ← List.map_take, htotal] at hoff
    exact hoff
  · rw [hwf.cacheCount_eq_total (Session.live_nonEmpty h₀ h hi), regions, htotal]
    rfl

/-- The invariant after three stores into a ring of five bytes, the last of which scrolls
the first entry out and wraps. -/
theorem division_representation_wrapped :
    smallSession.Initial ∧ ∃ s, Reach Session.step (fun _ op => op.NonEmpty) smallSession s
      ∧ (s.seg.division 0).queueFirst = 1 ∧ (s.seg.division 0).queueCount = 2
      ∧ (s.seg.division 0).cacheCount = ((s.live 0).map SHMCBIndex.length).sum := by
  have hrun : (run Session.step (fun _ op => op.NonEmpty) smallSession
      [.store [1] ⟨[10, 11], by decide⟩ 100 0, .store [2] ⟨[20, 21], by decide⟩ 100 0,
        .store [3] ⟨[30, 31, 32], by decide⟩ 100 0]).map
        (fun s => ((s.seg.division 0).queueFirst, (s.seg.division 0).queueCount))
      = some (1, 2) := by
    decide
  obtain ⟨s, hs, hpos⟩ := Option.map_eq_some_iff.mp hrun
  have hreach := Reach.refl.run _ hs
  rw [Prod.mk.injEq] at hpos
  exact ⟨smallSession_initial, s, hreach, hpos.1, hpos.2,
    (division_representation smallSession_initial hreach (Nat.zero_le _)).2.2.2.2.2.2.1⟩

/-! ## Payloads over every run -/

/-- **Payloads are never corrupted while live.**  In every state of every run from a
segment whose positions are all zero, the live entries of a division are, in order, those
of the last successful stores into it, and copying an entry's length from its offset gives
the bytes that were stored; and a further call changes no byte of any entry it leaves in
the queue. -/
theorem live_payloads_intact {s₀ s : Session} (h₀ : s₀.Initial)
    (h : Reach Session.step Always s₀ s) {i : ℕ} (hi : i ≤ s.seg.header.divisionMask) :
    (∃ old recs, s.logOf i = old ++ recs
        ∧ List.Forall₂ (Holds s.seg.header.cacheDataSize (s.seg.division i)) (s.live i) recs)
      ∧ ∀ op s', s.step op = some s' →
          ∃ k ≤ (s.seg.division i).queueCount,
            ((s.live i).drop k).map SHMCBIndex.region <+: (s'.live i).map SHMCBIndex.region
            ∧ ∀ e ∈ (s.live i).drop k, ∀ j < e.length,
                (s'.seg.division i).data ((e.offset + j) % s.seg.header.cacheDataSize)
                  = (s.seg.division i).data ((e.offset + j) % s.seg.header.cacheDataSize) := by
  have hinv := Session.Inv.of_reach h₀ h
  refine ⟨hinv.matched i hi, fun op s' hs => ?_⟩
  obtain ⟨j, hj, d', rec, hsame, hdiv, heff, -⟩ := hinv.step_effect hs
  rw [Session.live, Session.live, hsame.indexNum, hdiv]
  rcases eq_or_ne i j with rfl | hne
  · rw [Function.update_self]
    exact heff.frame (hinv.wf i hi)
  · rw [Function.update_of_ne hne]
    exact ⟨0, Nat.zero_le _, by rw [List.drop_zero], fun _ _ _ _ => rfl⟩

/-- The payload of an entry that wraps round the end of a ring of five bytes. -/
theorem live_payloads_intact_wrapped :
    smallSession.Initial ∧ ∃ s, Reach Session.step Always smallSession s
      ∧ (s.live 0).map (fun e => (e.offset, e.length, (s.seg.division 0).payload 5 e))
        = [(2, 2, [20, 21]), (4, 3, [30, 31, 32])]
      ∧ ∃ old recs, s.logOf 0 = old ++ recs
        ∧ List.Forall₂ (Holds s.seg.header.cacheDataSize (s.seg.division 0)) (s.live 0) recs := by
  have hrun : (run Session.step Always smallSession
      [.store [1] ⟨[10, 11], by decide⟩ 100 0, .store [2] ⟨[20, 21], by decide⟩ 100 0,
        .store [3] ⟨[30, 31, 32], by decide⟩ 100 0]).map
        (fun s => (s.live 0).map
          fun e => (e.offset, e.length, (s.seg.division 0).payload 5 e))
      = some [(2, 2, [20, 21]), (4, 3, [30, 31, 32])] := by
    decide
  obtain ⟨s, hs, hlive⟩ := Option.map_eq_some_iff.mp hrun
  have hreach := Reach.refl.run _ hs
  exact ⟨smallSession_initial, s, hreach, hlive,
    (live_payloads_intact smallSession_initial hreach (Nat.zero_le _)).1⟩

end Zevent.Cache

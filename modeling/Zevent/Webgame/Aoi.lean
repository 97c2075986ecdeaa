/-
# Area-of-interest notifications (`PushSynPosMsgs` of `webgame/wgserver/Scene.py`)

A client is told `ENTERAOI` when another player comes into its area of interest, `SYNPOS` when
that player moves, and `LEAVEAOI` when it goes.  The lists `aoilist` of both players decide which
message is due, and a player that is not ready is told nothing; a player that has gone is kept in
`offline_players` until the next `PushSynPosMsgs`.

A client is the `Player` of one stay in the scene, and its history is all that was ever appended
to its `sendmsgs`.

* `AoiLists` says how the lists fit together, and `AoiInv` ties the histories to them: what a
  client was told is in view is what is in its list, or what went since the last
  `PushSynPosMsgs`.
* `Settled` is the guard on a run: who enters is not among the offline players, and a search
  finds players that are ready.  `aoi_bracketed` is the result for all runs with this guard.
* `told_unbracketed` has three runs outside the guard: a player that is found before it is ready
  is told of a move without an entry, or goes without anybody being told; and one that comes back
  before the next `PushSynPosMsgs` enters twice.
-/
import Mathlib.Tactic
import Zevent.Lib.Brackets
import Zevent.Lib.Interleaving
import Zevent.Webgame.Scene

namespace Zevent.Webgame

open Interleaving Brackets

namespace Player

/-- The id of a player. -/
def id (p : Player) : ℤ := p.character.characterID

theorem id_of_core {p q : Player} (h : p.core = q.core) : p.id = q.id :=
  congrArg Character.characterID (character_of_core h)

/-- A message about one id is not one about another. -/
theorem about_queue_of_ne (p : Player) {msg : AoiMsg} {b : ℤ} (h : msg.cid ≠ b) :
    (p.queue msg).about b = p.about b := by
  by_cases hp : p.state = .ready
  · rw [about_queue hp, if_neg h, List.append_nil]
  · rw [queue, if_pos hp]

/-- A message to a player that is ready moves the bit of its history. -/
theorem track_queue {p : Player} (hp : p.state = .ready) {b : ℤ} {inView : Bool}
    (h : track false (p.about b) = some inView) {msg : AoiMsg} (hb : msg.cid = b) :
    track false ((p.queue msg).about b) = track inView [msg.mark] := by
  rw [about_queue hp, if_pos hb, track_append, h, Option.bind_some]

end Player

/-! ## One turn, seen from the other player -/

section PushedOther

variable {key k : ℤ} {A p : Player} {objs : List ℤ}

theorem mem_aoilist_pushedOther (hsym : k ∈ A.aoilist ↔ key ∈ p.aoilist) (j : ℤ) :
    j ∈ (pushedOther key A objs k p).aoilist ↔ if j = key then k ∈ objs else j ∈ p.aoilist := by
  unfold pushedOther
  rcases eq_or_ne j key with rfl | hne
  · rw [if_pos rfl]
    split_ifs with hobj hold hold
    · exact iff_of_true (by rw [Player.seeMove, Player.aoilist_queue]; exact hsym.mp hold) hobj
    · exact iff_of_true (List.mem_append_right _ List.mem_cons_self) hobj
    · exact iff_of_false (not_mem_removed j _) hobj
    · exact iff_of_false (fun hmem => hold (hsym.mpr hmem)) hobj
  · rw [if_neg hne]
    split_ifs with hobj hold hold
    · rw [Player.seeMove, Player.aoilist_queue]
    · simp [Player.meet, Player.seeEnter, hne]
    · simp [Player.part, Player.seeLeave, hne]
    · rfl

/-- The notices about the others stay as they were. -/
theorem about_pushedOther {b : ℤ} (hb : b ≠ key) :
    (pushedOther key A objs k p).about b = p.about b := by
  unfold pushedOther
  split_ifs
  · exact p.about_queue_of_ne (Ne.symm hb)
  · exact p.about_queue_of_ne (Ne.symm hb)
  · exact p.about_queue_of_ne (Ne.symm hb)
  · rfl

/-- The other player is told what it has to be told. -/
theorem track_pushedOther (hsym : k ∈ A.aoilist ↔ key ∈ p.aoilist)
    (hobj : k ∈ objs → p.state = .ready) (hlist : p.state ≠ .ready → p.aoilist = [])
    (h : track false (p.about key) = some (decide (key ∈ p.aoilist))) :
    track false ((pushedOther key A objs k p).about key) = some (decide (k ∈ objs)) := by
  rw [decide_eq_decide.mpr hsym.symm] at h
  unfold pushedOther
  split_ifs with hk hold hold
  · rw [decide_eq_true hold] at h
    rw [decide_eq_true hk]
    exact Player.track_queue (hobj hk) h rfl
  · rw [decide_eq_false hold] at h
    rw [decide_eq_true hk]
    exact Player.track_queue (hobj hk) h rfl
  · have hp : p.state = .ready := by
      by_contra hp
      rw [hsym, hlist hp] at hold
      cases hold
    rw [decide_eq_true hold] at h
    rw [decide_eq_false hk]
    exact Player.track_queue hp h rfl
  · rw [decide_eq_false hold] at h
    rw [decide_eq_false hk]
    exact h

theorem active_pushedOther : (pushedOther key A objs k p).active = p.active := by
  unfold pushedOther
  split_ifs
  · exact p.active_queue _
  · exact p.active_queue _
  · exact p.active_queue _
  · rfl

end PushedOther

/-! ## Lists and histories -/

/-- The lists of the players and of the offline players. -/
structure AoiLists (ps : Players) (offline : List Player) : Prop where
  ids : ∀ k p, ps.lookup k = some p → p.id = k
  offline_gone : ∀ q ∈ offline, q.id ∉ ps
  offline_nodup : (offline.map Player.id).Nodup
  sym : ∀ j k p q, ps.lookup j = some p → ps.lookup k = some q → (k ∈ p.aoilist ↔ j ∈ q.aoilist)
  irrefl : ∀ k p, ps.lookup k = some p → k ∉ p.aoilist
  unready : ∀ k p, ps.lookup k = some p → p.state ≠ .ready → p.aoilist = []
  offline_ready : ∀ q ∈ offline, ∀ k p, ps.lookup k = some p → k ∈ q.aoilist → p.state = .ready
  stale : ∀ k p, ps.lookup k = some p → ∀ b ∈ p.aoilist,
    b ∈ ps ∨ ∃ q ∈ offline, q.id = b ∧ k ∈ q.aoilist

/-- The lists, and what the players were told. -/
structure AoiInv (ps : Players) (offline : List Player) : Prop extends AoiLists ps offline where
  told : ∀ k p, ps.lookup k = some p → ∀ b ∈ ps,
    track false (p.about b) = some (decide (b ∈ p.aoilist))
  told_gone : ∀ k p, ps.lookup k = some p → ∀ b ∉ ps,
    track false (p.about b) = some (decide (∃ q ∈ offline, q.id = b ∧ k ∈ q.aoilist))

/-- One turn of the loop over the players, of a player that is ready and has moved. -/
structure TurnTaken (ps ps' : Players) (key : ℤ) (A A' : Player) (objs : List ℤ) : Prop where
  before : ps.lookup key = some A
  ready : A.state = .ready
  found : ∀ c ∈ objs, ∃ q, ps.lookup c = some q ∧ q.state = .ready
  not_self : key ∉ objs
  other : ∀ k, k ≠ key → ps'.lookup k = (ps.lookup k).map (pushedOther key A objs k)
  after : ps'.lookup key = some A'
  self : PushedSelf ps key A objs A'

section Turns

variable {ps ps' : Players} {offline : List Player} {key : ℤ} {A A' : Player} {objs : List ℤ}

/-- A turn adds no player and removes none. -/
theorem TurnTaken.mem_iff (turn : TurnTaken ps ps' key A A' objs) (k : ℤ) : k ∈ ps' ↔ k ∈ ps := by
  rw [← AList.lookup_isSome, ← AList.lookup_isSome]
  rcases eq_or_ne k key with rfl | hne
  · rw [turn.before, turn.after]
    rfl
  · rw [turn.other k hne, Option.isSome_map]

/-- A player after the turn is the one whose turn it was, or another one that has changed. -/
theorem TurnTaken.cases (turn : TurnTaken ps ps' key A A' objs) (h : AoiLists ps offline) {k : ℤ}
    {p' : Player} (hp' : ps'.lookup k = some p') : (k = key ∧ p' = A')
      ∨ (k ≠ key ∧ ∃ p, ps.lookup k = some p ∧ p' = pushedOther key A objs k p
        ∧ (k ∈ A.aoilist ↔ key ∈ p.aoilist) ∧ (k ∈ objs → p.state = .ready)) := by
  rcases eq_or_ne k key with rfl | hne
  · rw [turn.after, Option.some.injEq] at hp'
    exact Or.inl ⟨rfl, hp'.symm⟩
  · right
    rw [turn.other k hne, Option.map_eq_some_iff] at hp'
    obtain ⟨p, hp, rfl⟩ := hp'
    refine ⟨hne, p, hp, rfl, h.sym key k A p turn.before hp, ?_⟩
    intro hk
    obtain ⟨q, hq, hqready⟩ := turn.found k hk
    rw [hp, Option.some.injEq] at hq
    rw [hq]
    exact hqready

/-- A turn keeps the lists as they should be. -/
theorem AoiLists.push (h : AoiLists ps offline) (turn : TurnTaken ps ps' key A A' objs) :
    AoiLists ps' offline := by
  have hready' : A'.state = .ready := (Player.state_of_core turn.self.core).trans turn.ready
  constructor
  · intro k p' hp'
    rcases turn.cases h hp' with ⟨rfl, rfl⟩ | ⟨-, p, hp, rfl, -⟩
    · rw [Player.id_of_core turn.self.core]
      exact h.ids k A turn.before
    · rw [Player.id_of_core (core_pushedOther _ _ _ _ _)]
      exact h.ids k p hp
  · intro q hq hmem
    exact h.offline_gone q hq ((turn.mem_iff q.id).mp hmem)
  · exact h.offline_nodup
  · intro j k p' q' hp' hq'
    rcases turn.cases h hp' with ⟨rfl, rfl⟩ | ⟨hj, p, hp, rfl, hpsym, -⟩
    · rcases turn.cases h hq' with ⟨rfl, rfl⟩ | ⟨hk, q, hq, rfl, hqsym, -⟩
      · rfl
      · rw [mem_aoilist_pushedOther hqsym, if_pos rfl, turn.self.aoilist]
    · rcases turn.cases h hq' with ⟨rfl, rfl⟩ | ⟨hk, q, hq, rfl, hqsym, -⟩
      · rw [mem_aoilist_pushedOther hpsym, if_pos rfl, turn.self.aoilist]
      · rw [mem_aoilist_pushedOther hpsym, mem_aoilist_pushedOther hqsym, if_neg hk, if_neg hj]
        exact h.sym j k p q hp hq
  · intro k p' hp'
    rcases turn.cases h hp' with ⟨rfl, rfl⟩ | ⟨hk, p, hp, rfl, hpsym, -⟩
    · rw [turn.self.aoilist]
      exact turn.not_self
    · rw [mem_aoilist_pushedOther hpsym, if_neg hk]
      exact h.irrefl k p hp
  · intro k p' hp' hun
    rcases turn.cases h hp' with ⟨rfl, rfl⟩ | ⟨hk, p, hp, rfl, hpsym, hpobj⟩
    · exact absurd hready' hun
    · rw [Player.state_of_core (core_pushedOther _ _ _ _ _)] at hun
      have hnil := h.unready k p hp hun
      rw [List.eq_nil_iff_forall_not_mem]
      intro j
      rw [mem_aoilist_pushedOther hpsym, hnil]
      split_ifs
      · exact fun hk => hun (hpobj hk)
      · exact List.not_mem_nil
  · intro q hq k p' hp' hk
    rcases turn.cases h hp' with ⟨rfl, rfl⟩ | ⟨-, p, hp, rfl, -⟩
    · exact hready'
    · rw [Player.state_of_core (core_pushedOther _ _ _ _ _)]
      exact h.offline_ready q hq k p hp hk
  · intro k p' hp' b hb
    rcases turn.cases h hp' with ⟨rfl, rfl⟩ | ⟨-, p, hp, rfl, hpsym, -⟩
    · rw [turn.self.aoilist] at hb
      obtain ⟨q, hq, -⟩ := turn.found b hb
      exact Or.inl ((turn.mem_iff b).mpr (mem_of_lookup hq))
    · rw [mem_aoilist_pushedOther hpsym] at hb
      split_ifs at hb with hbkey
      · left
        rw [hbkey]
        exact mem_of_lookup turn.after
      · rcases h.stale k p hp b hb with hlive | hgone
        · exact Or.inl ((turn.mem_iff b).mpr hlive)
        · exact Or.inr hgone
/-- What a turn says to the player itself. -/
theorem AoiInv.track_pushedSelf (h : AoiInv ps offline) (turn : TurnTaken ps ps' key A A' objs)
    {b : ℤ} (hb : b ∈ ps) : track false (A'.about b) = some (decide (b ∈ A'.aoilist)) := by
  rw [turn.self.aoilist]
  have htold := h.told key A turn.before b hb
  rcases eq_or_ne b key with rfl | hne
  · rw [decide_eq_false (h.irrefl b A turn.before)] at htold
    rw [turn.self.about_self, htold, decide_eq_false turn.not_self]
  · rw [turn.self.about b hne, track_append, htold, Option.bind_some]
    by_cases hobj : b ∈ objs <;> by_cases hold : b ∈ A.aoilist <;> simp [hobj, hold, hb, track]

/-- **One turn of the loop over the players.** -/
theorem AoiInv.push (h : AoiInv ps offline) (turn : TurnTaken ps ps' key A A' objs) :
    AoiInv ps' offline := by
  refine { h.toAoiLists.push turn with told := ?_, told_gone := ?_ }
  · intro k p' hp' b hb
    rcases turn.cases h.toAoiLists hp' with ⟨rfl, rfl⟩ | ⟨-, p, hp, rfl, hpsym, hpobj⟩
    · exact h.track_pushedSelf turn ((turn.mem_iff b).mp hb)
    · have htold := h.told k p hp b ((turn.mem_iff b).mp hb)
      rcases eq_or_ne b key with rfl | hne
      · rw [track_pushedOther hpsym hpobj (h.unready k p hp) htold]
        congr 1
        apply decide_eq_decide.mpr
        rw [mem_aoilist_pushedOther hpsym, if_pos rfl]
      · rw [about_pushedOther hne, htold]
        congr 1
        apply decide_eq_decide.mpr
        rw [mem_aoilist_pushedOther hpsym, if_neg hne]
  · intro k p' hp' b hb
    have hb' : b ∉ ps := fun hmem => hb ((turn.mem_iff b).mpr hmem)
    have hne : b ≠ key := by
      rintro rfl
      exact hb' (mem_of_lookup turn.before)
    rcases turn.cases h.toAoiLists hp' with ⟨rfl, rfl⟩ | ⟨-, p, hp, rfl, -⟩
    · rw [turn.self.about b hne, ← h.told_gone k A turn.before b hb']
      simp [hb']
    · rw [about_pushedOther hne]
      exact h.told_gone k p hp b hb'

end Turns

/-! ## The offline players -/

/-- One step of `push_offline` changes the player it is about. -/
theorem offlineStep_lookup (q : Player) (ps : Players) (cid k : ℤ) :
    (offlineStep q ps cid).lookup k
      = if k = cid then (ps.lookup k).map (Player.part q.id q.character) else ps.lookup k := by
  unfold offlineStep
  rcases eq_or_ne k cid with rfl | hne
  · rw [if_pos rfl]
    cases hp : ps.lookup k with
    | none => exact hp
    | some p => exact AList.lookup_insert ps
  · rw [if_neg hne]
    cases ps.lookup cid with
    | none => rfl
    | some p => exact AList.lookup_insert_ne hne

/-- All steps change the players that are listed, once each. -/
theorem foldl_offlineStep_lookup (q : Player) {cs : List ℤ} (hnodup : cs.Nodup) (ps : Players)
    (k : ℤ) : (cs.foldl (offlineStep q) ps).lookup k
      = if k ∈ cs then (ps.lookup k).map (Player.part q.id q.character) else ps.lookup k := by
  induction cs generalizing ps with
  | nil => simp
  | cons c cs ih =>
      obtain ⟨hc, hnodup⟩ := List.nodup_cons.mp hnodup
      rw [List.foldl_cons, ih hnodup, offlineStep_lookup]
      rcases eq_or_ne k c with rfl | hne
      · simp [hc]
      · simp [hne]

/-- **The loop for one offline player.**  Whoever is in its list is told and forgets it. -/
theorem pushOffline_lookup (order : SetOrder) (ps : Players) (q : Player) (k : ℤ) :
    (pushOffline order ps q).lookup k
      = if k ∈ q.aoilist then (ps.lookup k).map (Player.part q.id q.character)
        else ps.lookup k := by
  rw [pushOffline, foldl_offlineStep_lookup q (order.nodup _ _)]
  simp only [order.mem_iff]

/-- A player after the loop for the offline player `q`. -/
theorem parted_of_lookup {order : SetOrder} {ps : Players} {q : Player} {k : ℤ} {p' : Player}
    (hp' : (pushOffline order ps q).lookup k = some p') :
    ∃ p, ps.lookup k = some p ∧ p'.core = p.core
      ∧ (∀ j, j ∈ p'.aoilist ↔ j ∈ p.aoilist ∧ ¬ (k ∈ q.aoilist ∧ j = q.id))
      ∧ (∀ b, b ≠ q.id → p'.about b = p.about b)
      ∧ p' = if k ∈ q.aoilist then p.part q.id q.character else p := by
  rw [pushOffline_lookup] at hp'
  split_ifs at hp' ⊢ with hk
  · obtain ⟨p, hp, rfl⟩ := Option.map_eq_some_iff.mp hp'
    refine ⟨p, hp, p.core_part _ _, ?_, ?_, rfl⟩
    · intro j
      simp [Player.part, Player.seeLeave, hk]
    · intro b hb
      exact p.about_queue_of_ne (Ne.symm hb)
  · exact ⟨p', hp', rfl, by simp [hk], fun _ _ => rfl, rfl⟩

section Offline

variable {ps ps' : Players} {offline : List Player} {q : Player}

namespace AoiLists

/-- The players that go are different ones. -/
theorem offline_other (h : AoiLists ps (q :: offline)) : ∀ q' ∈ offline, q'.id ≠ q.id := by
  intro q' hq' heq
  have hnodup := h.offline_nodup
  rw [List.map_cons, List.nodup_cons] at hnodup
  exact hnodup.1 (heq ▸ List.mem_map_of_mem hq')

theorem ne_offline (h : AoiLists ps (q :: offline)) {j : ℤ} (hj : j ∈ ps) : j ≠ q.id := by
  rintro rfl
  exact h.offline_gone q List.mem_cons_self hj

/-- The loop for one offline player, which is then done with. -/
theorem pushOffline (h : AoiLists ps (q :: offline)) (order : SetOrder) :
    AoiLists (Webgame.pushOffline order ps q) offline := by
  have hin : ∀ k, k ∈ Webgame.pushOffline order ps q ↔ k ∈ ps :=
    (pushOffline_same order ps q).mem_iff
  constructor
  · intro k p' hp'
    obtain ⟨p, hp, hcore, -⟩ := parted_of_lookup hp'
    rw [Player.id_of_core hcore]
    exact h.ids k p hp
  · intro q' hq' hmem
    exact h.offline_gone q' (List.mem_cons_of_mem _ hq') ((hin q'.id).mp hmem)
  · have hnodup := h.offline_nodup
    rw [List.map_cons, List.nodup_cons] at hnodup
    exact hnodup.2
  · intro j k p' r' hp' hr'
    obtain ⟨p, hp, -, hpmem, -⟩ := parted_of_lookup hp'
    obtain ⟨r, hr, -, hrmem, -⟩ := parted_of_lookup hr'
    rw [hpmem, hrmem]
    have hj := h.ne_offline (mem_of_lookup hp)
    have hk := h.ne_offline (mem_of_lookup hr)
    simp only [hj, hk, and_false, not_false_eq_true, and_true]
    exact h.sym j k p r hp hr
  · intro k p' hp' hmem
    obtain ⟨p, hp, -, hpmem, -⟩ := parted_of_lookup hp'
    exact h.irrefl k p hp ((hpmem k).mp hmem).1
  · intro k p' hp' hun
    obtain ⟨p, hp, hcore, hpmem, -⟩ := parted_of_lookup hp'
    rw [Player.state_of_core hcore] at hun
    rw [List.eq_nil_iff_forall_not_mem]
    intro j hj
    have hmem := ((hpmem j).mp hj).1
    rw [h.unready k p hp hun] at hmem
    cases hmem
  · intro q' hq' k p' hp' hk
    obtain ⟨p, hp, hcore, -⟩ := parted_of_lookup hp'
    rw [Player.state_of_core hcore]
    exact h.offline_ready q' (List.mem_cons_of_mem _ hq') k p hp hk
  · intro k p' hp' b hb
    obtain ⟨p, hp, -, hpmem, -⟩ := parted_of_lookup hp'
    obtain ⟨hmem, hnot⟩ := (hpmem b).mp hb
    rcases h.stale k p hp b hmem with hlive | ⟨q', hq', hid, hk⟩
    · exact Or.inl ((hin b).mpr hlive)
    · right
      rcases List.mem_cons.mp hq' with rfl | hq'
      · exact absurd ⟨hk, hid.symm⟩ hnot
      · exact ⟨q', hq', hid, hk⟩

end AoiLists

namespace AoiInv

/-- After the loop for the offline player nobody has it in view. -/
theorem track_parted (h : AoiInv ps (q :: offline)) {order : SetOrder} {k : ℤ} {p' : Player}
    (hp' : (Webgame.pushOffline order ps q).lookup k = some p') :
    track false (p'.about q.id) = some false := by
  obtain ⟨p, hp, -, -, -, rfl⟩ := parted_of_lookup hp'
  have htold := h.told_gone k p hp q.id (h.offline_gone q List.mem_cons_self)
  split_ifs with hk
  · rw [decide_eq_true ⟨q, List.mem_cons_self, rfl, hk⟩] at htold
    exact Player.track_queue (h.offline_ready q List.mem_cons_self k p hp hk) htold rfl
  · rw [htold]
    congr 1
    apply decide_eq_false
    rintro ⟨q', hq', hid, hmem⟩
    rcases List.mem_cons.mp hq' with rfl | hq'
    · exact hk hmem
    · exact h.offline_other q' hq' hid

/-- Telling of one player that has gone keeps the invariant for the rest. -/
theorem pushOffline (h : AoiInv ps (q :: offline)) (order : SetOrder) :
    AoiInv (Webgame.pushOffline order ps q) offline := by
  have hin : ∀ k, k ∈ Webgame.pushOffline order ps q ↔ k ∈ ps :=
    (pushOffline_same order ps q).mem_iff
  refine { h.toAoiLists.pushOffline order with told := ?_, told_gone := ?_ }
  · intro k p' hp' b hb
    obtain ⟨p, hp, -, hpmem, habout, -⟩ := parted_of_lookup hp'
    have hb' := (hin b).mp hb
    rw [habout b (h.ne_offline hb'), h.told k p hp b hb']
    congr 1
    apply decide_eq_decide.mpr
    rw [hpmem]
    simp [h.ne_offline hb']
  · intro k p' hp' b hb
    obtain ⟨p, hp, -, -, habout, -⟩ := parted_of_lookup hp'
    rcases eq_or_ne b q.id with rfl | hbq
    · rw [h.track_parted hp']
      congr 1
      apply Eq.symm
      apply decide_eq_false
      rintro ⟨q', hq', hid, -⟩
      exact h.offline_other q' hq' hid
    · rw [habout b hbq, h.told_gone k p hp b fun hmem => hb ((hin b).mpr hmem)]
      congr 1
      apply decide_eq_decide.mpr
      simp only [List.mem_cons, exists_eq_or_imp, Ne.symm hbq, false_and, false_or]

end AoiInv

end Offline

/-- The offline players for which there is something left to do. -/
def pending (offline : List Player) : List Player := offline.filter fun q => q.aoilist ≠ []

/-- The offline players after a player has left. -/
theorem pending_leave (offline : List Player) (p : Player) :
    pending (if p.state = .ready then offline ++ [p] else offline)
      = pending offline ++ if p.state = .ready ∧ p.aoilist ≠ [] then [p] else [] := by
  unfold pending
  by_cases hready : p.state = .ready
  · by_cases hlist : p.aoilist = [] <;> simp [hready, hlist]
  · simp [hready]

/-- Who has to be told of behind a leave. -/
theorem mem_offline_leave (offline : List Player) (p q : Player) :
    q ∈ (offline ++ if p.state = .ready ∧ p.aoilist ≠ [] then [p] else []) ↔
      q ∈ offline ∨ (p.state = .ready ∧ p.aoilist ≠ [] ∧ q = p) := by
  rw [List.mem_append]
  split_ifs with h
  · simp [h]
  · rw [← and_assoc]
    simp [h]

theorem pushOffline_nil (order : SetOrder) (ps : Players) {q : Player} (h : q.aoilist = []) :
    pushOffline order ps q = ps := by
  have hnil : order.list q.character.characterID q.aoilist = [] := by
    rw [List.eq_nil_iff_forall_not_mem]
    intro x
    rw [order.mem_iff, h]
    exact List.not_mem_nil
  rw [pushOffline, hnil, List.foldl_nil]

/-- The loop over the offline players. -/
theorem AoiInv.pushAllOffline {ps : Players} {offline : List Player}
    (h : AoiInv ps (pending offline)) (order : SetOrder) :
    AoiInv (offline.foldl (Webgame.pushOffline order) ps) [] := by
  induction offline generalizing ps with
  | nil => exact h
  | cons q offline ih =>
      rw [List.foldl_cons]
      by_cases hq : q.aoilist = []
      · rw [pushOffline_nil order ps hq]
        apply ih
        rw [pending, List.filter_cons_of_neg (by simpa using hq)] at h
        exact h
      · rw [pending, List.filter_cons_of_pos (by simpa using hq)] at h
        exact ih (h.pushOffline order)

/-! ## The loop over the players -/

/-- The search of each player whose turn it is finds players that are ready. -/
def FindsReady (tree : QuadState) (ps : Players) : Prop :=
  ∀ key ∈ ps.keys, ∀ A ∈ ps.lookup key, A.state = .ready → A.active = true →
    ∀ c ∈ aoiObjs tree key A.character, ∀ q ∈ ps.lookup c, q.state = .ready

instance (tree : QuadState) (ps : Players) : Decidable (FindsReady tree ps) := by
  unfold FindsReady
  infer_instance

/-- A turn for a player, and what the later turns need. -/
theorem AoiInv.pushPlayer {tree : QuadState} {ps : Players} {offline : List Player}
    (h : AoiInv ps offline) (hagree : Agree tree ps) (hfinds : FindsReady tree ps)
    (order : SetOrder) {key : ℤ} (hkey : key ∈ ps) :
    ∃ ps', Webgame.pushPlayer tree order ps key = some ps' ∧ SamePlayers ps ps'
      ∧ AoiInv ps' offline ∧ FindsReady tree ps' := by
  obtain ⟨ps', hpush, hsame⟩ := pushPlayer_same hagree order hkey
  refine ⟨ps', hpush, hsame, ?_⟩
  obtain ⟨A, hA⟩ := exists_lookup hkey
  by_cases hidle : A.state ≠ .ready ∨ A.active = false
  · rw [pushPlayer_idle hA hidle, Option.some.injEq] at hpush
    subst hpush
    exact ⟨h, hfinds⟩
  · rw [not_or, not_not, Bool.not_eq_false] at hidle
    obtain ⟨hready, hactive⟩ := hidle
    have hlive : ∀ c ∈ aoiObjs tree key A.character, c ∈ ps := fun c hc =>
      hagree.mem_of_searchIds (List.mem_filter.mp hc).1
    obtain ⟨ps₁, hpush₁, hother, A', hA', hself⟩ := pushPlayer_spec order hA hready hactive hlive
    rw [hpush, Option.some.injEq] at hpush₁
    subst hpush₁
    constructor
    · have hfound : ∀ c ∈ aoiObjs tree key A.character,
          ∃ q, ps.lookup c = some q ∧ q.state = .ready := by
        intro c hc
        obtain ⟨q, hq⟩ := exists_lookup (hlive c hc)
        exact ⟨q, hq, hfinds key (AList.mem_keys.mp hkey) A hA hready hactive c hc q hq⟩
      exact h.push ⟨hA, hready, hfound, not_mem_removed key _, hother, hA', hself⟩
    · intro k hk p' hp' hready' hactive' c hc q' hq'
      obtain ⟨q, hq, hqcore⟩ := hsame.symm.lookup (Option.mem_def.mp hq')
      obtain ⟨p, hp, hpcore⟩ := hsame.symm.lookup (Option.mem_def.mp hp')
      rw [← Player.character_of_core hpcore] at hc
      rw [← Player.state_of_core hpcore] at hready'
      rw [← Player.state_of_core hqcore]
      refine hfinds k (AList.mem_keys.mp ((hsame.mem_iff k).mp (AList.mem_keys.mpr hk))) p hp
        hready' ?_ c hc q hq
      -- a turn makes nobody active
      rcases eq_or_ne k key with rfl | hne
      · rw [Option.mem_def, hA', Option.some.injEq] at hp'
        rw [← hp', hself.active] at hactive'
        cases hactive'
      · rw [Option.mem_def, hother k hne, hp, Option.map_some, Option.some.injEq] at hp'
        rw [← hp', active_pushedOther] at hactive'
        exact hactive'

/-- Pushing any players of the scene keeps the invariant, by induction on them. -/
theorem AoiInv.pushPlayers {tree : QuadState} {ps ps' : Players} {offline : List Player}
    (h : AoiInv ps offline) (hagree : Agree tree ps) (hfinds : FindsReady tree ps)
    {order : SetOrder} {keys : List ℤ} (hkeys : ∀ k ∈ keys, k ∈ ps)
    (hpush : keys.foldlM (Webgame.pushPlayer tree order) ps = some ps') : AoiInv ps' offline := by
  induction keys generalizing ps with
  | nil =>
      rw [List.foldlM_nil] at hpush
      cases hpush
      exact h
  | cons key keys ih =>
      obtain ⟨hkey, hkeys⟩ := List.forall_mem_cons.mp hkeys
      obtain ⟨ps₁, hone, hsame, hinv, hfinds₁⟩ := h.pushPlayer hagree hfinds order hkey
      rw [List.foldlM_cons, hone] at hpush
      exact ih hinv (hagree.same hsame) hfinds₁ (fun k hk => (hsame.mem_iff k).mpr (hkeys k hk))
        hpush

/-! ## Runs -/

/-- The lists of the offline players, between two calls: every id in them is that of a player, who
has the offline player in its list, or of an offline player. -/
structure OfflineClosed (ps : Players) (offline : List Player) : Prop where
  mem : ∀ q ∈ offline, ∀ c ∈ q.aoilist, c ∈ ps ∨ ∃ q' ∈ offline, q'.id = c
  back : ∀ q ∈ offline, ∀ k p, ps.lookup k = some p → k ∈ q.aoilist → q.id ∈ p.aoilist

/-- A key that is not in the scene is in no list of those that go. -/
theorem OfflineClosed.unlisted {ps : Players} {offline : List Player}
    (h : OfflineClosed ps offline) {key : ℤ} (hkey : key ∉ ps)
    (hoff : ∀ q ∈ offline, q.id ≠ key) : ∀ q ∈ offline, key ∉ q.aoilist := by
  intro q hq hmem
  rcases h.mem q hq key hmem with hlive | ⟨q', hq', hid⟩
  · exact hkey hlive
  · exact hoff q' hq' hid

/-- A player of the scene after another one has entered. -/
theorem lookup_insert_cases {ps : Players} {key k : ℤ} {p r : Player}
    (hr : (ps.insert key p).lookup k = some r) :
    (k = key ∧ r = p) ∨ (k ≠ key ∧ ps.lookup k = some r) := by
  rcases eq_or_ne k key with rfl | hne
  · rw [AList.lookup_insert, Option.some.injEq] at hr
    exact Or.inl ⟨rfl, hr.symm⟩
  · rw [AList.lookup_insert_ne hne] at hr
    exact Or.inr ⟨hne, hr⟩

/-- A player of the scene after one has left. -/
theorem lookup_erase_cases {ps : Players} {key k : ℤ} {r : Player}
    (hr : (ps.erase key).lookup k = some r) : k ≠ key ∧ ps.lookup k = some r := by
  rcases eq_or_ne k key with rfl | hne
  · rw [AList.lookup_erase] at hr
    cases hr
  · exact ⟨hne, by rw [← AList.lookup_erase_ne hne, hr]⟩

namespace AoiLists

variable {ps : Players} {offline : List Player} {key : ℤ} {p p' : Player}

/-- An id that is neither in the scene nor offline is in no list. -/
theorem not_mem_aoilist (h : AoiLists ps offline) (hkey : key ∉ ps)
    (hoff : ∀ q ∈ offline, q.id ≠ key) {k : ℤ} (hp : ps.lookup k = some p) : key ∉ p.aoilist := by
  intro hmem
  rcases h.stale k p hp key hmem with hlive | ⟨q, hq, hid, -⟩
  · exact hkey hlive
  · exact hoff q hq hid

/-- Who is in a list is ready. -/
theorem ready_of_mem (h : AoiLists ps offline) {j k : ℤ} {r : Player}
    (hp : ps.lookup j = some p) (hr : ps.lookup k = some r) (hmem : k ∈ p.aoilist) :
    r.state = .ready := by
  by_contra hun
  have hback := (h.sym j k p r hp hr).mp hmem
  rw [h.unready k r hr hun] at hback
  cases hback

theorem offline_id_ne (h : AoiLists ps offline) (hkey : key ∈ ps) :
    ∀ q ∈ offline, q.id ≠ key := by
  rintro q hq rfl
  exact h.offline_gone q hq hkey

/-- The lists depend on id, list and notices of the players only. -/
theorem congr (h : AoiLists ps offline) {ps' : Players} (hin : ∀ k, k ∈ ps' ↔ k ∈ ps)
    (hlook : ∀ k p', ps'.lookup k = some p' → ∃ p, ps.lookup k = some p ∧ p'.id = p.id
      ∧ (p'.state = p.state ∨ p'.state = .ready) ∧ p'.aoilist = p.aoilist
      ∧ ∀ b, p'.about b = p.about b) :
    AoiLists ps' offline := by
  constructor
  · intro k p' hp'
    obtain ⟨p, hp, hid, -⟩ := hlook k p' hp'
    rw [hid]
    exact h.ids k p hp
  · intro q hq hmem
    exact h.offline_gone q hq ((hin q.id).mp hmem)
  · exact h.offline_nodup
  · intro j k p' q' hp' hq'
    obtain ⟨p, hp, -, -, hplist, -⟩ := hlook j p' hp'
    obtain ⟨q, hq, -, -, hqlist, -⟩ := hlook k q' hq'
    rw [hplist, hqlist]
    exact h.sym j k p q hp hq
  · intro k p' hp'
    obtain ⟨p, hp, -, -, hlist, -⟩ := hlook k p' hp'
    rw [hlist]
    exact h.irrefl k p hp
  · intro k p' hp' hun
    obtain ⟨p, hp, -, hstate, hlist, -⟩ := hlook k p' hp'
    rw [hlist]
    rcases hstate with hstate | hstate
    · exact h.unready k p hp (hstate ▸ hun)
    · exact absurd hstate hun
  · intro q hq k p' hp' hk
    obtain ⟨p, hp, -, hstate, -⟩ := hlook k p' hp'
    rcases hstate with hstate | hstate
    · rw [hstate]
      exact h.offline_ready q hq k p hp hk
    · exact hstate
  · intro k p' hp' b hb
    obtain ⟨p, hp, -, -, hlist, -⟩ := hlook k p' hp'
    rw [hin]
    exact h.stale k p hp b (hlist ▸ hb)

/-- A player enters with an empty list. -/
theorem enter (h : AoiLists ps offline) (hclosed : OfflineClosed ps offline) (hkey : key ∉ ps)
    (hoff : ∀ q ∈ offline, q.id ≠ key) (hid : p.id = key) (hlist : p.aoilist = []) :
    AoiLists (ps.insert key p) offline := by
  constructor
  · intro k r hr
    rcases lookup_insert_cases hr with ⟨rfl, rfl⟩ | ⟨-, hold⟩
    · exact hid
    · exact h.ids k r hold
  · intro q hq hmem
    rcases (AList.mem_insert ps).mp hmem with heq | hmem
    · exact hoff q hq heq
    · exact h.offline_gone q hq hmem
  · exact h.offline_nodup
  · intro j k r r' hr hr'
    rcases lookup_insert_cases hr with ⟨rfl, rfl⟩ | ⟨-, hold⟩
    · rcases lookup_insert_cases hr' with ⟨rfl, rfl⟩ | ⟨-, hold'⟩
      · rfl
      · rw [hlist]
        exact iff_of_false List.not_mem_nil (h.not_mem_aoilist hkey hoff hold')
    · rcases lookup_insert_cases hr' with ⟨rfl, rfl⟩ | ⟨-, hold'⟩
      · rw [hlist]
        exact iff_of_false (h.not_mem_aoilist hkey hoff hold) List.not_mem_nil
      · exact h.sym j k r r' hold hold'
  · intro k r hr
    rcases lookup_insert_cases hr with ⟨rfl, rfl⟩ | ⟨-, hold⟩
    · rw [hlist]
      exact List.not_mem_nil
    · exact h.irrefl k r hold
  · intro k r hr hun
    rcases lookup_insert_cases hr with ⟨rfl, rfl⟩ | ⟨-, hold⟩
    · exact hlist
    · exact h.unready k r hold hun
  · intro q hq k r hr hk
    rcases lookup_insert_cases hr with ⟨rfl, rfl⟩ | ⟨-, hold⟩
    · exact absurd hk (hclosed.unlisted hkey hoff q hq)
    · exact h.offline_ready q hq k r hold hk
  · intro k r hr b hb
    rcases lookup_insert_cases hr with ⟨rfl, rfl⟩ | ⟨-, hold⟩
    · rw [hlist] at hb
      cases hb
    · rcases h.stale k r hold b hb with hlive | hgone
      · exact Or.inl ((AList.mem_insert ps).mpr (Or.inr hlive))
      · exact Or.inr hgone

/-- A player leaves, and is to be told of when it was ready with a list. -/
theorem leave (h : AoiLists ps offline) (hp : ps.lookup key = some p) :
    AoiLists (ps.erase key)
      (offline ++ if p.state = .ready ∧ p.aoilist ≠ [] then [p] else []) := by
  have hoff := mem_offline_leave offline p
  have hidp : p.id = key := h.ids key p hp
  constructor
  · intro k r hr
    exact h.ids k r (lookup_erase_cases hr).2
  · intro q hq hmem
    rw [AList.mem_erase] at hmem
    rcases (hoff q).mp hq with hq | ⟨-, -, rfl⟩
    · exact h.offline_gone q hq hmem.2
    · exact hmem.1 hidp
  · split_ifs
    · rw [List.map_append, List.map_singleton, List.nodup_append]
      refine ⟨h.offline_nodup, List.nodup_singleton _, ?_⟩
      intro b hb c hc
      obtain ⟨q, hq, rfl⟩ := List.mem_map.mp hb
      rw [List.mem_singleton.mp hc, hidp]
      exact h.offline_id_ne (mem_of_lookup hp) q hq
    · rw [List.append_nil]
      exact h.offline_nodup
  · intro j k r r' hr hr'
    exact h.sym j k r r' (lookup_erase_cases hr).2 (lookup_erase_cases hr').2
  · intro k r hr
    exact h.irrefl k r (lookup_erase_cases hr).2
  · intro k r hr hun
    exact h.unready k r (lookup_erase_cases hr).2 hun
  · intro q hq k r hr hk
    rcases (hoff q).mp hq with hq | ⟨-, -, rfl⟩
    · exact h.offline_ready q hq k r (lookup_erase_cases hr).2 hk
    · exact h.ready_of_mem hp (lookup_erase_cases hr).2 hk
  · intro k r hr b hb
    obtain ⟨-, hold⟩ := lookup_erase_cases hr
    rcases h.stale k r hold b hb with hlive | ⟨q, hq, hid, hk⟩
    · rcases eq_or_ne b key with rfl | hne
      · exact Or.inr ⟨p, (hoff p).mpr (Or.inr ⟨h.ready_of_mem hold hp hb,
          List.ne_nil_of_mem ((h.sym k b r p hold hp).mp hb), rfl⟩), hidp,
          (h.sym k b r p hold hp).mp hb⟩
      · exact Or.inl (AList.mem_erase.mpr ⟨hne, hlive⟩)
    · exact Or.inr ⟨q, (hoff q).mpr (Or.inl hq), hid, hk⟩

/-- The list of a player that leaves holds players of the scene. -/
theorem closed_leave (h : AoiLists ps offline) (hclosed : OfflineClosed ps offline)
    (hp : ps.lookup key = some p) :
    OfflineClosed (ps.erase key)
      (offline ++ if p.state = .ready ∧ p.aoilist ≠ [] then [p] else []) := by
  have hidp : p.id = key := h.ids key p hp
  have hoff := mem_offline_leave offline p
  constructor
  · intro q hq c hc
    rcases (hoff q).mp hq with hq | ⟨-, -, rfl⟩
    · rcases hclosed.mem q hq c hc with hlive | ⟨q', hq', hid⟩
      · rcases eq_or_ne c key with rfl | hne
        · exact Or.inr ⟨p, (hoff p).mpr (Or.inr ⟨h.offline_ready q hq c p hp hc,
            List.ne_nil_of_mem (hclosed.back q hq c p hp hc), rfl⟩), hidp⟩
        · exact Or.inl (AList.mem_erase.mpr ⟨hne, hlive⟩)
      · exact Or.inr ⟨q', (hoff q').mpr (Or.inl hq'), hid⟩
    · rcases h.stale key q hp c hc with hlive | ⟨q', hq', hid, -⟩
      · left
        refine AList.mem_erase.mpr ⟨?_, hlive⟩
        rintro rfl
        exact h.irrefl c q hp hc
      · exact Or.inr ⟨q', (hoff q').mpr (Or.inl hq'), hid⟩
  · intro q hq k r hr hk
    obtain ⟨-, hold⟩ := lookup_erase_cases hr
    rcases (hoff q).mp hq with hq | ⟨-, -, rfl⟩
    · exact hclosed.back q hq k r hold hk
    · rw [hidp]
      exact (h.sym key k q r hp hold).mp hk

end AoiLists

namespace AoiInv

variable {ps : Players} {offline : List Player} {key : ℤ} {p p' : Player}

/-- What the lists and the histories do not see. -/
theorem congr (h : AoiInv ps offline) {ps' : Players} (hin : ∀ k, k ∈ ps' ↔ k ∈ ps)
    (hlook : ∀ k p', ps'.lookup k = some p' → ∃ p, ps.lookup k = some p ∧ p'.id = p.id
      ∧ (p'.state = p.state ∨ p'.state = .ready) ∧ p'.aoilist = p.aoilist
      ∧ ∀ b, p'.about b = p.about b) :
    AoiInv ps' offline := by
  refine { h.toAoiLists.congr hin hlook with told := ?_, told_gone := ?_ }
  · intro k p' hp' b hb
    obtain ⟨p, hp, -, -, hlist, habout⟩ := hlook k p' hp'
    rw [hlist, habout]
    exact h.told k p hp b ((hin b).mp hb)
  · intro k p' hp' b hb
    obtain ⟨p, hp, -, -, -, habout⟩ := hlook k p' hp'
    rw [habout]
    exact h.told_gone k p hp b fun hmem => hb ((hin b).mpr hmem)

/-- A player is stored back with the same list and history. -/
theorem store (h : AoiInv ps offline) (hp : ps.lookup key = some p) (hid : p'.id = p.id)
    (hstate : p'.state = p.state ∨ p'.state = .ready) (hlist : p'.aoilist = p.aoilist)
    (habout : ∀ b, p'.about b = p.about b) : AoiInv (ps.insert key p') offline := by
  refine h.congr ?_ ?_
  · intro k
    rw [AList.mem_insert, or_iff_right_of_imp]
    rintro rfl
    exact mem_of_lookup hp
  · intro k r hr
    rcases lookup_insert_cases hr with ⟨rfl, rfl⟩ | ⟨-, hold⟩
    · exact ⟨p, hp, hid, hstate, hlist, habout⟩
    · exact ⟨r, hold, rfl, Or.inl rfl, rfl, fun _ => rfl⟩

/-- A player enters. -/
theorem enter (h : AoiInv ps offline) (hclosed : OfflineClosed ps offline) (hkey : key ∉ ps)
    (hoff : ∀ q ∈ offline, q.id ≠ key) (hid : p.id = key) (hlist : p.aoilist = [])
    (hnone : ∀ b, p.about b = []) : AoiInv (ps.insert key p) offline := by
  refine { h.toAoiLists.enter hclosed hkey hoff hid hlist with told := ?_, told_gone := ?_ }
  · intro k r hr b hb
    rcases lookup_insert_cases hr with ⟨rfl, rfl⟩ | ⟨-, hold⟩
    · rw [hnone, hlist, decide_eq_false List.not_mem_nil]
      rfl
    · rcases (AList.mem_insert ps).mp hb with rfl | hb
      · rw [h.told_gone k r hold b hkey, decide_eq_false (h.not_mem_aoilist hkey hoff hold)]
        congr 1
        apply decide_eq_false
        rintro ⟨q, hq, hidq, -⟩
        exact hoff q hq hidq
      · exact h.told k r hold b hb
  · intro k r hr b hb
    rw [AList.mem_insert, not_or] at hb
    rcases lookup_insert_cases hr with ⟨rfl, rfl⟩ | ⟨-, hold⟩
    · have hno : ¬ ∃ q ∈ offline, q.id = b ∧ k ∈ q.aoilist := by
        rintro ⟨q, hq, -, hmem⟩
        exact hclosed.unlisted hkey hoff q hq hmem
      rw [hnone, decide_eq_false hno]
      rfl
    · exact h.told_gone k r hold b hb.2

/-- A player leaves. -/
theorem leave (h : AoiInv ps offline) (hp : ps.lookup key = some p) :
    AoiInv (ps.erase key)
      (offline ++ if p.state = .ready ∧ p.aoilist ≠ [] then [p] else []) := by
  have hkey : key ∈ ps := mem_of_lookup hp
  have hoff := mem_offline_leave offline p
  have hidp : p.id = key := h.ids key p hp
  refine { h.toAoiLists.leave hp with told := ?_, told_gone := ?_ }
  · intro k r hr b hb
    exact h.told k r (lookup_erase_cases hr).2 b (AList.mem_erase.mp hb).2
  · intro k r hr b hb
    obtain ⟨-, hold⟩ := lookup_erase_cases hr
    rcases eq_or_ne b key with rfl | hne
    · rw [h.told k r hold b hkey]
      congr 1
      apply decide_eq_decide.mpr
      constructor
      · intro hmem
        exact ⟨p, (hoff p).mpr (Or.inr ⟨h.ready_of_mem hold hp hmem,
          List.ne_nil_of_mem ((h.sym k b r p hold hp).mp hmem), rfl⟩), hidp,
          (h.sym k b r p hold hp).mp hmem⟩
      · rintro ⟨q, hq, hid, hk⟩
        rcases (hoff q).mp hq with hq | ⟨-, -, rfl⟩
        · exact absurd hid (h.offline_id_ne hkey q hq)
        · exact (h.sym k b r q hold hp).mpr hk
    · have hb' : b ∉ ps := fun hmem => hb (AList.mem_erase.mpr ⟨hne, hmem⟩)
      rw [h.told_gone k r hold b hb']
      congr 1
      apply decide_eq_decide.mpr
      constructor
      · rintro ⟨q, hq, hid, hk⟩
        exact ⟨q, (hoff q).mpr (Or.inl hq), hid, hk⟩
      · rintro ⟨q, hq, hid, hk⟩
        rcases (hoff q).mp hq with hq | ⟨-, -, rfl⟩
        · exact ⟨q, hq, hid, hk⟩
        · exact absurd (hid.symm.trans hidp) hne

end AoiInv

/-- What the lists of the offline players do not see. -/
theorem OfflineClosed.congr {ps ps' : Players} {offline : List Player}
    (h : OfflineClosed ps offline) (hin : ∀ k, k ∈ ps → k ∈ ps')
    (hlook : ∀ k p', ps'.lookup k = some p' →
      (∃ p, ps.lookup k = some p ∧ p'.aoilist = p.aoilist) ∨ ∀ q ∈ offline, k ∉ q.aoilist) :
    OfflineClosed ps' offline := by
  constructor
  · intro q hq c hc
    rcases h.mem q hq c hc with hlive | hgone
    · exact Or.inl (hin c hlive)
    · exact Or.inr hgone
  · intro q hq k p' hp' hk
    rcases hlook k p' hp' with ⟨p, hp, hlist⟩ | hnot
    · rw [hlist]
      exact h.back q hq k p hp hk
    · exact absurd hk (hnot q hq)

/-- A player is stored that has the list it had, or that no offline player knows. -/
theorem OfflineClosed.store {ps : Players} {offline : List Player} (h : OfflineClosed ps offline)
    {key : ℤ} {p' : Player} (hp' : (∃ p, ps.lookup key = some p ∧ p'.aoilist = p.aoilist)
      ∨ ∀ q ∈ offline, key ∉ q.aoilist) : OfflineClosed (ps.insert key p') offline := by
  refine h.congr (fun k hk => (AList.mem_insert ps).mpr (Or.inr hk)) ?_
  intro k r hr
  rcases lookup_insert_cases hr with ⟨rfl, rfl⟩ | ⟨-, hold⟩
  · exact hp'
  · exact Or.inl ⟨r, hold, rfl⟩

/-- Sending a frame empties queues and nothing else. -/
theorem about_sendFrame (ps : Players) (key : ℤ) {k : ℤ} {p' : Player}
    (hp' : (sendFrame ps key).lookup k = some p') :
    ∃ p, ps.lookup k = some p ∧ p'.core = p.core ∧ p'.aoilist = p.aoilist
      ∧ ∀ b, p'.about b = p.about b := by
  unfold sendFrame at hp'
  cases hp : ps.lookup key with
  | none =>
      simp only [hp] at hp'
      exact ⟨p', hp', rfl, rfl, fun _ => rfl⟩
  | some p =>
      simp only [hp] at hp'
      rcases eq_or_ne k key with rfl | hne
      · rw [AList.lookup_insert, Option.some.injEq] at hp'
        subst hp'
        exact ⟨p, hp, rfl, rfl, fun b => by simp [Player.about]⟩
      · rw [AList.lookup_insert_ne hne] at hp'
        exact ⟨p', hp', rfl, rfl, fun _ => rfl⟩

/-- `SendSceneFrame` moves messages, and the histories stay. -/
theorem sendFrames_keep {ps : Players} {offline : List Player} (h : AoiInv ps offline)
    (hclosed : OfflineClosed ps offline) (keys : List ℤ) :
    AoiInv (keys.foldl sendFrame ps) offline ∧ OfflineClosed (keys.foldl sendFrame ps) offline := by
  induction keys generalizing ps with
  | nil => exact ⟨h, hclosed⟩
  | cons key keys ih =>
      have hin := (sendFrame_same ps key).mem_iff
      refine ih (h.congr hin ?_) (hclosed.congr (fun k hk => (hin k).mpr hk) ?_)
      · intro k p' hp'
        obtain ⟨p, hp, hcore, hlist, habout⟩ := about_sendFrame ps key hp'
        exact ⟨p, hp, Player.id_of_core hcore, Or.inl (Player.state_of_core hcore), hlist, habout⟩
      · intro k p' hp'
        obtain ⟨p, hp, -, hlist, -⟩ := about_sendFrame ps key hp'
        exact Or.inl ⟨p, hp, hlist⟩

theorem closed_nil (ps : Players) : OfflineClosed ps [] where
  mem := fun _ hq => absurd hq List.not_mem_nil
  back := fun _ hq => absurd hq List.not_mem_nil

namespace Scene

variable {s s' : Scene}

/-- The invariant of a scene between two calls. -/
structure Bracketing (s : Scene) : Prop where
  agree : Agree s.qdtree s.players
  aoi : AoiInv s.players (pending s.offlinePlayers)
  closed : OfflineClosed s.players (pending s.offlinePlayers)

/-- Who enters is not in the scene, and not offline with others in its list; the searches of a
`PushSynPosMsgs` find players that are ready. -/
def Settled (s : Scene) : Call → Prop
  | .addPlayer a sender character =>
      s.FreshEntry (.addPlayer a sender character) ∧ (s.Accepts character →
        ∀ q ∈ s.offlinePlayers, q.aoilist ≠ [] → q.id ≠ character.characterID)
  | .pushSynPosMsgs _ _ => FindsReady s.qdtree s.players
  | _ => True

instance (s : Scene) (call : Call) : Decidable (s.Settled call) :=
  match call with
  | .addPlayer a sender character =>
      inferInstanceAs (Decidable (s.FreshEntry (.addPlayer a sender character)
        ∧ (s.Accepts character →
          ∀ q ∈ s.offlinePlayers, q.aoilist ≠ [] → q.id ≠ character.characterID)))
  | .setPlayerReady _ => inferInstanceAs (Decidable True)
  | .updatePos .. => inferInstanceAs (Decidable True)
  | .delPlayer _ => inferInstanceAs (Decidable True)
  | .pushSynPosMsgs .. => inferInstanceAs (Decidable (FindsReady s.qdtree s.players))
  | .sendSceneFrame _ => inferInstanceAs (Decidable True)

/-- A settled call enters fresh players. -/
theorem Settled.fresh {call : Call} (h : s.Settled call) : s.FreshEntry call := by
  cases call with
  | addPlayer a sender character => exact h.1
  | _ => trivial

/-- What a `PushSynPosMsgs` returns with, and that nobody is offline afterwards. -/
theorem Bracketing.push (h : s.Bracketing) (hfinds : FindsReady s.qdtree s.players)
    {keys : List ℤ} (hkeys : keys.Perm s.players.keys) {order : SetOrder}
    (hpush : s.pushSynPosMsgs keys order = some s') :
    AoiInv s'.players [] ∧ s'.offlinePlayers = [] := by
  obtain ⟨ps, hps, hs'⟩ := Option.bind_eq_some_iff.mp hpush
  cases hs'
  have haoi : AoiInv ps (pending s.offlinePlayers) :=
    h.aoi.pushPlayers h.agree hfinds (fun k hk => AList.mem_keys.mpr (hkeys.subset hk)) hps
  exact ⟨haoi.pushAllOffline order, rfl⟩

/-- Every settled call keeps the bracketing. -/
theorem Bracketing.step (h : s.Bracketing) {call : Call} (hok : s.Settled call)
    (hstep : s.step call = some s') : s'.Bracketing := by
  have hagree := agree_step h.agree hok.fresh hstep
  suffices hrest : AoiInv s'.players (pending s'.offlinePlayers)
      ∧ OfflineClosed s'.players (pending s'.offlinePlayers) from ⟨hagree, hrest.1, hrest.2⟩
  cases call with
  | addPlayer a sender character =>
      simp only [Scene.step] at hstep
      split at hstep
      · rw [Option.some.injEq] at hstep
        subst hstep
        rcases s.addPlayer_cases a sender character with
          heq | ⟨hin, qdtree, o, -, -, -, heq⟩
        · rw [heq]
          exact ⟨h.aoi, h.closed⟩
        · obtain ⟨hfresh, hoff⟩ := hok
          obtain ⟨hnew, -⟩ := hfresh hin
          have hoff' : ∀ q ∈ pending s.offlinePlayers, q.id ≠ character.characterID := by
            intro q hq
            obtain ⟨hq, hlist⟩ := List.mem_filter.mp hq
            exact hoff hin q hq (of_decide_eq_true hlist)
          rw [heq]
          constructor
          · exact h.aoi.enter h.closed hnew hoff' rfl rfl fun _ => rfl
          · exact h.closed.store (Or.inr (h.closed.unlisted hnew hoff'))
      · cases hstep
  | setPlayerReady cid =>
      simp only [Scene.step, Option.some.injEq] at hstep
      subst hstep
      rcases s.setPlayerReady_cases cid with ⟨-, heq⟩ | ⟨p, hp, heq⟩
      · rw [heq]
        exact ⟨h.aoi, h.closed⟩
      · rw [heq]
        constructor
        · exact h.aoi.store hp rfl (Or.inr rfl) rfl fun _ => rfl
        · exact h.closed.store (Or.inl ⟨p, hp, rfl⟩)
  | updatePos cid x y =>
      rcases updatePos_cases h.agree cid x y with
        ⟨-, heq⟩ | ⟨p, character, rv, qdtree, hp, hid, -, heq⟩
      · simp only [Scene.step, heq, Option.map_some, Option.some.injEq] at hstep
        subst hstep
        exact ⟨h.aoi, h.closed⟩
      · simp only [Scene.step, heq, Option.map_some, Option.some.injEq] at hstep
        subst hstep
        constructor
        · exact h.aoi.store hp hid (Or.inl rfl) rfl fun _ => rfl
        · exact h.closed.store (Or.inl ⟨p, hp, rfl⟩)
  | delPlayer cid =>
      simp only [Scene.step, Option.some.injEq] at hstep
      subst hstep
      rcases s.delPlayer_cases cid with ⟨-, heq⟩ | ⟨p, hp, heq⟩
      · rw [heq]
        exact ⟨h.aoi, h.closed⟩
      · rw [heq, pending_leave]
        exact ⟨h.aoi.leave hp, h.aoi.closed_leave h.closed hp⟩
  | pushSynPosMsgs keys order =>
      simp only [Scene.step] at hstep
      split_ifs at hstep with hkeys
      obtain ⟨haoi, hnil⟩ := h.push hok hkeys hstep
      rw [hnil]
      exact ⟨haoi, closed_nil _⟩
  | sendSceneFrame keys =>
      simp only [Scene.step] at hstep
      split_ifs at hstep
      rw [Option.some.injEq] at hstep
      subst hstep
      exact sendFrames_keep h.aoi h.closed keys

theorem aoiInv_empty : AoiInv ∅ [] where
  ids := fun _ _ hp => absurd hp (by simp)
  offline_gone := fun _ hq => absurd hq List.not_mem_nil
  offline_nodup := List.nodup_nil
  sym := fun _ _ _ _ hp => absurd hp (by simp)
  irrefl := fun _ _ hp => absurd hp (by simp)
  unready := fun _ _ hp => absurd hp (by simp)
  offline_ready := fun _ hq => absurd hq List.not_mem_nil
  stale := fun _ _ hp => absurd hp (by simp)
  told := fun _ _ hp => absurd hp (by simp)
  told_gone := fun _ _ hp => absurd hp (by simp)

/-- A new scene is bracketed. -/
theorem make_bracketing (cfg : SceneCfg) : (make cfg).Bracketing where
  agree := agree_make cfg
  aoi := aoiInv_empty
  closed := closed_nil _

/-- What a client was told is a bracketed history. -/
theorem Bracketing.bracketed (h : s.Bracketing) {k : ℤ} {p : Player}
    (hp : s.players.lookup k = some p) (b : ℤ) : Bracketed (p.about b) := by
  rw [bracketed_iff]
  by_cases hb : b ∈ s.players
  · exact ⟨_, h.aoi.told k p hp b hb⟩
  · exact ⟨_, h.aoi.told_gone k p hp b hb⟩

/-- With nobody offline, what is in view of a client is in the scene. -/
theorem Bracketing.mem_of_entered (h : s.Bracketing) (hnil : s.offlinePlayers = []) {k : ℤ}
    {p : Player} (hp : s.players.lookup k = some p) {b : ℤ}
    (hcount : (p.about b).count .leave < (p.about b).count .enter) : b ∈ s.players := by
  by_contra hb
  have htold := h.aoi.told_gone k p hp b hb
  rw [hnil, decide_eq_false (by simp [pending])] at htold
  have heq := count_of_track htold
  omega

/-- **Notifications are bracketed.**  In a run in which who enters is neither in the scene nor
offline and searches find players that are ready, what each client was told about each id is a
prefix of `(ENTERAOI SYNPOS* LEAVEAOI)*`; and each such `PushSynPosMsgs` returns, and leaves no
client with an id in view that is not in the scene. -/
theorem aoi_bracketed (cfg : SceneCfg) {s : Scene} (hs : Reach step Settled (make cfg) s) :
    (∀ k p b, s.players.lookup k = some p → Bracketed (p.about b))
      ∧ ∀ keys order, keys.Perm s.players.keys → s.Settled (.pushSynPosMsgs keys order) →
        ∃ s', s.step (.pushSynPosMsgs keys order) = some s' ∧ ∀ k p b,
          s'.players.lookup k = some p → (p.about b).count .leave < (p.about b).count .enter →
            b ∈ s'.players := by
  have hinv : s.Bracketing := hs.invariant Bracketing (make_bracketing cfg)
    fun _ _ _ hi hok hstep => hi.step hok hstep
  refine ⟨fun k p b hp => hinv.bracketed hp b, ?_⟩
  intro keys order hkeys hsettled
  obtain ⟨s', hpush, -⟩ := pushSynPosMsgs_same hinv.agree hkeys order
  have hstep : s.step (.pushSynPosMsgs keys order) = some s' := by
    simp only [step, if_pos hkeys]
    exact hpush
  refine ⟨s', hstep, ?_⟩
  intro k p b hp hcount
  have hnil := (hinv.push hsettled hkeys hpush).2
  exact (hinv.step hsettled hstep).mem_of_entered hnil hp hcount

end Scene

/-- The elements of a set in the order of a list. -/
def SetOrder.dedup : SetOrder where
  list := fun _ l => l.dedup
  nodup := fun _ l => l.nodup_dedup
  mem_iff := fun _ _ _ => List.mem_dedup

namespace Scene

/-- Two players meet, one moves, and the other leaves. -/
theorem aoi_bracketed_two :
    ∃ s, Reach step Settled (make smallMap) s
      ∧ (s.players.lookup 7).map (fun p => p.about 8) = some [.enter, .stay, .stay, .leave]
      ∧ ∀ k p b, s.players.lookup k = some p → Bracketed (p.about b) := by
  have hrun : (run step Settled (make smallMap)
      [.addPlayer 1 "a" ⟨7, "", "", 0, 0, 10, 10⟩, .addPlayer 2 "b" ⟨8, "", "", 20, 20, 10, 10⟩,
        .setPlayerReady 7, .setPlayerReady 8, .pushSynPosMsgs [7, 8] .dedup,
        .sendSceneFrame [7, 8], .updatePos 8 900 900, .pushSynPosMsgs [8, 7] .dedup,
        .delPlayer 8, .pushSynPosMsgs [7] .dedup]).map
        (fun s => (s.players.lookup 7).map fun p => p.about 8)
        = some (some [.enter, .stay, .stay, .leave]) := by
    decide +kernel
  obtain ⟨s, hs, hobs⟩ := Option.map_eq_some_iff.mp hrun
  have hreach : Reach step Settled (make smallMap) s :=
    Reach.refl.run _ hs
  exact ⟨s, hreach, hobs, (aoi_bracketed _ hreach).1⟩

/-- Runs in which nobody enters that is still in the scene. -/
theorem told_unbracketed :
    (∃ s, Reach step FreshEntry (make smallMap) s
      ∧ ∃ p, s.players.lookup 8 = some p ∧ ¬ Bracketed (p.about 7))
    ∧ (∃ s s' keys order,
      Reach step FreshEntry (make smallMap) s
        ∧ s.step (.pushSynPosMsgs keys order) = some s'
        ∧ ∃ p, s'.players.lookup 7 = some p ∧ p.about 8 = [.enter] ∧ 8 ∉ s'.players)
    ∧ ∃ s, Reach step FreshEntry (make smallMap) s
      ∧ ∃ p, s.players.lookup 7 = some p ∧ ¬ Bracketed (p.about 8) := by
  refine ⟨?_, ?_, ?_⟩
  · have hrun : (run step FreshEntry (make smallMap)
        [.addPlayer 1 "a" ⟨7, "", "", 0, 0, 10, 10⟩, .addPlayer 2 "b" ⟨8, "", "", 20, 20, 10, 10⟩,
          .setPlayerReady 7, .pushSynPosMsgs [7, 8] .dedup, .setPlayerReady 8,
          .updatePos 7 30 30, .pushSynPosMsgs [7, 8] .dedup]).map
          (fun s => (s.players.lookup 8).map fun p => p.about 7) = some (some [.stay]) := by
      decide +kernel
    obtain ⟨s, hs, hobs⟩ := Option.map_eq_some_iff.mp hrun
    obtain ⟨p, hp, habout⟩ := Option.map_eq_some_iff.mp hobs
    refine ⟨s, Reach.refl.run _ hs, p, hp, ?_⟩
    rw [habout, bracketed_iff]
    rintro ⟨o, ho⟩
    cases ho
  · have hrun : (run step FreshEntry (make smallMap)
        [.addPlayer 1 "a" ⟨7, "", "", 0, 0, 10, 10⟩, .addPlayer 2 "b" ⟨8, "", "", 20, 20, 10, 10⟩,
          .setPlayerReady 7, .pushSynPosMsgs [7, 8] .dedup, .delPlayer 8]).map
          (fun s => (s.step (.pushSynPosMsgs [7] .dedup)).map fun s' =>
            ((s'.players.lookup 7).map fun p => p.about 8, s'.players.keys))
          = some (some (some [.enter], [7])) := by
      decide +kernel
    obtain ⟨s, hs, hobs⟩ := Option.map_eq_some_iff.mp hrun
    obtain ⟨s', hs', hobs'⟩ := Option.map_eq_some_iff.mp hobs
    rw [Prod.mk.injEq] at hobs'
    obtain ⟨p, hp, habout⟩ := Option.map_eq_some_iff.mp hobs'.1
    refine ⟨s, s', [7], .dedup, Reach.refl.run _ hs, hs', p, hp, habout, ?_⟩
    rw [AList.mem_keys, hobs'.2]
    decide
  · have hrun : (run step FreshEntry (make smallMap)
        [.addPlayer 1 "a" ⟨7, "", "", 0, 0, 10, 10⟩, .addPlayer 2 "b" ⟨8, "", "", 20, 20, 10, 10⟩,
          .setPlayerReady 7, .setPlayerReady 8, .pushSynPosMsgs [7, 8] .dedup, .delPlayer 8,
          .addPlayer 3 "c" ⟨8, "", "", 20, 20, 10, 10⟩, .setPlayerReady 8,
          .pushSynPosMsgs [8, 7] .dedup]).map
          (fun s => (s.players.lookup 7).map fun p => p.about 8)
          = some (some [.enter, .stay, .enter, .leave]) := by
      decide +kernel
    obtain ⟨s, hs, hobs⟩ := Option.map_eq_some_iff.mp hrun
    obtain ⟨p, hp, habout⟩ := Option.map_eq_some_iff.mp hobs
    refine ⟨s, Reach.refl.run _ hs, p, hp, ?_⟩
    rw [habout, bracketed_iff]
    rintro ⟨o, ho⟩
    cases ho

end Scene

end Zevent.Webgame

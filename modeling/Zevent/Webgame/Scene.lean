/-
# A scene and its players (`webgame/wgserver/Scene.py`, `Player.py`, `quadtree.py`)

A scene has a dictionary of players by character id, and a quadtree with one object per player,
which the area-of-interest search of `PushSynPosMsgs` reads.  Every call runs under the mutex
of the scene, so a call is a step.

The quadtree stores ids as `c_ulonglong`, that is modulo `2 ^ 64`.  The order of
`self.players.keys()` and of the elements of a Python set is the environment's choice.

* `Agree` says that the tree holds the objects of the players and no others.
* `FreshEntry` is the guard: who enters is not in the scene already.  `scene_tree_agree` is the
  result for all runs with this guard, and `entered_twice` a run in which a player enters again
  and leaves a second object behind.
* `pushPlayer_spec` says what one turn of the loop of `PushSynPosMsgs` does to each player.
-/
import Mathlib.Data.List.AList
import Mathlib.Tactic
import Zevent.Lib.Brackets
import Zevent.Lib.Interleaving
import Zevent.Webgame.Quadtree

namespace Zevent.Webgame

open Interleaving Brackets

/-! ## Players -/

/-- `Player.state`. -/
inductive PlayerState
  | init
  | entered
  | ready
deriving DecidableEq, Repr

/-- What a scene reads of a `Character`. -/
structure Character where
  characterID : ℤ
  pName : String
  charName : String
  locX : ℚ
  locY : ℚ
  xScale : ℚ
  yScale : ℚ
deriving DecidableEq

/-- The messages of `PackSynPosMsg`, `PackEnterAOIMsg` and `PackLeaveAOIMsg`. -/
inductive AoiMsg
  | synPos (cid : ℤ) (x y : ℚ)
  | enterAOI (cid : ℤ) (pnm cnm : String) (x y : ℚ)
  | leaveAOI (cid : ℤ) (x y : ℚ)
deriving DecidableEq

namespace AoiMsg

def cid : AoiMsg → ℤ
  | synPos c _ _ => c
  | enterAOI c _ _ _ _ => c
  | leaveAOI c _ _ => c

def mark : AoiMsg → Mark
  | synPos _ _ _ => .stay
  | enterAOI _ _ _ _ _ => .enter
  | leaveAOI _ _ _ => .leave

end AoiMsg

/-- `Player`.  The field `sent` is what `SendSceneFrame` has taken out of `sendmsgs` so far. -/
structure Player where
  state : PlayerState
  peerid : String
  character : Character
  qobject : ℕ
  active : Bool
  aoilist : List ℤ
  sendmsgs : List AoiMsg
  sent : List AoiMsg
deriving DecidableEq

/-- `self.players`. -/
abbrev Players := AList fun _ : ℤ => Player

/-- The end of the three `Pack` functions: nothing is queued for a player that is not ready. -/
def Player.queue (dplayer : Player) (msg : AoiMsg) : Player :=
  if dplayer.state ≠ .ready then dplayer
  else { dplayer with sendmsgs := dplayer.sendmsgs ++ [msg] }

/-- `PackSynPosMsg`. -/
def packSynPosMsg (cid : ℤ) (splayer dplayer : Player) : Player :=
  dplayer.queue (.synPos cid splayer.character.locX splayer.character.locY)

/-- `PackEnterAOIMsg`. -/
def packEnterAOIMsg (cid : ℤ) (splayer dplayer : Player) : Player :=
  dplayer.queue (.enterAOI cid splayer.character.pName splayer.character.charName
    splayer.character.locX splayer.character.locY)

/-- `PackLeaveAOIMsg`. -/
def packLeaveAOIMsg (cid : ℤ) (splayer dplayer : Player) : Player :=
  dplayer.queue (.leaveAOI cid splayer.character.locX splayer.character.locY)

/-! ## The scene -/

/-- What `load_scene` reads.  `quadbox_inflate` asserts that the box has an extent. -/
structure SceneCfg where
  box : Box
  startlocX : ℚ
  startlocY : ℚ
  valid : box.Valid

/-- `Scene`. -/
structure Scene where
  cfg : SceneCfg
  players : Players
  offlinePlayers : List Player
  qdtree : QuadState

/-- The overlap `0.1`, as a `c_float`. -/
def sceneOverlap : ℚ := 13421773 / 134217728

/-- `Scene.__init__`. -/
def Scene.make (cfg : SceneCfg) : Scene where
  cfg := cfg
  players := ∅
  offlinePlayers := []
  qdtree := quadtreeCreate cfg.box 5 sceneOverlap

/-- `objbox` of a character at a place. -/
def Character.objbox (c : Character) (x y : ℚ) : Box :=
  ⟨x - c.xScale, y - c.yScale, x + c.xScale, y + c.yScale⟩

/-- A character without a place gets the start location. -/
def SceneCfg.locate (cfg : SceneCfg) (c : Character) : Character :=
  { c with
    locX := if c.locX ≤ 0 then cfg.startlocX else c.locX
    locY := if c.locY ≤ 0 then cfg.startlocY else c.locY }

/-- `Player()`, filled in by `add_player`. -/
def Player.enter (sender : String) (character : Character) (qobject : ℕ) : Player where
  state := .entered
  peerid := sender
  character := character
  qobject := qobject
  active := true
  aoilist := []
  sendmsgs := []
  sent := []

namespace Scene

/-- `add_player`; the new object is at the address `a`. -/
def addPlayer (s : Scene) (a : ℕ) (sender : String) (character : Character) : Bool × Scene :=
  let character := s.cfg.locate character
  let (accepted, qdtree) := s.qdtree.insert a 0 (UInt64.ofInt character.characterID)
    (character.objbox character.locX character.locY)
  if accepted then
    (true, { s with
      qdtree := qdtree
      players := s.players.insert character.characterID (.enter sender character a) })
  else (false, { s with qdtree := qdtree })

/-- `SetPlayerReady`. -/
def setPlayerReady (s : Scene) (cid : ℤ) : Bool × Scene :=
  match s.players.lookup cid with
  | none => (false, s)
  | some player =>
      (true, { s with players := s.players.insert cid { player with state := .ready } })

/-- `update_pos`; `none` when the object of the player is not alive. -/
def updatePos (s : Scene) (cid : ℤ) (x y : ℚ) : Option (Bool × Scene) :=
  match s.players.lookup cid with
  | none => some (false, s)
  | some player =>
      (s.qdtree.live player.qobject).map fun object =>
        let (rv, qdtree) := s.qdtree.update player.qobject object (player.character.objbox x y)
        let player := { player with active := true }
        if rv < 0 then
          (false, { s with qdtree := qdtree, players := s.players.insert cid player })
        else
          (true, { s with
            qdtree := qdtree
            players := s.players.insert cid
              { player with character := { player.character with locX := x, locY := y } } })

/-- `del_player`. -/
def delPlayer (s : Scene) (cid : ℤ) : Bool × Scene :=
  match s.players.lookup cid with
  | none => (false, s)
  | some player =>
      (true, { s with
        qdtree := s.qdtree.delObject player.qobject
        offlinePlayers :=
          if player.state = .ready then s.offlinePlayers ++ [player] else s.offlinePlayers
        players := s.players.erase cid })

end Scene

/-! ## `PushSynPosMsgs` -/

/-- The order in which Python lists the elements of a set, for the sets that are made while the
player with a given id is processed. -/
structure SetOrder where
  list : ℤ → List ℤ → List ℤ
  nodup : ∀ key l, (list key l).Nodup
  mem_iff : ∀ key l x, x ∈ list key l ↔ x ∈ l

/-- The ids that `quadtree.quadtree_search` appends to `objects`. -/
def QuadState.searchIds (tree : QuadState) (box : Box) (maxnum : ℤ) : List ℤ :=
  (tree.search box maxnum).filterMap fun a => (tree.live a).map fun o => (o.objectid.toNat : ℤ)

/-- The search box of a player. -/
def Character.aoiBox (c : Character) : Box :=
  ⟨c.locX - 3000, c.locY - 3000, c.locX + 3000, c.locY + 3000⟩

/-- `objs` of the player with the id `key`. -/
def aoiObjs (tree : QuadState) (key : ℤ) (c : Character) : List ℤ :=
  (tree.searchIds c.aoiBox 1000).filter fun x => x ≠ key

/-- The loop over `interaoilist`; `none` is a `KeyError`. -/
def synPosStep (key : ℤ) (players : Players) (cid : ℤ) : Option Players :=
  if cid = key then some players
  else do
    let player ← players.lookup key
    let onePlayer ← players.lookup cid
    pure (players.insert cid (packSynPosMsg key player onePlayer))

/-- The loop over `newaoilist`; `none` is a `KeyError`. -/
def enterStep (key : ℤ) (players : Players) (cid : ℤ) : Option Players :=
  if cid = key then some players
  else do
    let player ← players.lookup key
    let onePlayer ← players.lookup cid
    let onePlayer := packEnterAOIMsg key player onePlayer
    let player := packEnterAOIMsg cid onePlayer player
    let onePlayer := { onePlayer with aoilist := onePlayer.aoilist ++ [key] }
    pure ((players.insert cid onePlayer).insert key player)

/-- The loop over `leaveaoilist`. -/
def leaveStep (key : ℤ) (players : Players) (cid : ℤ) : Option Players :=
  if cid = key then some players
  else do
    let player ← players.lookup key
    match players.lookup cid with
    | none => pure players
    | some onePlayer =>
        let onePlayer := packLeaveAOIMsg key player onePlayer
        let player := packLeaveAOIMsg cid onePlayer player
        let onePlayer := { onePlayer with aoilist := onePlayer.aoilist.filter fun x => x ≠ key }
        pure ((players.insert cid onePlayer).insert key player)

/-- One turn of the loop of `PushSynPosMsgs` over the players. -/
def pushPlayer (tree : QuadState) (order : SetOrder) (players : Players) (key : ℤ) :
    Option Players := do
  let player ← players.lookup key
  if player.state ≠ .ready then pure players
  else if player.active then
    let objs := aoiObjs tree key player.character
    let oldaoilist := player.aoilist
    let interaoilist := order.list key (oldaoilist.filter fun x => x ∈ objs)
    let leaveaoilist := order.list key (oldaoilist.filter fun x => x ∉ objs)
    let newaoilist := order.list key (objs.filter fun x => x ∉ oldaoilist)
    let players := players.insert key { player with active := false, aoilist := objs }
    let players ← interaoilist.foldlM (synPosStep key) players
    let players ← newaoilist.foldlM (enterStep key) players
    leaveaoilist.foldlM (leaveStep key) players
  else pure players

/-- The inner loop for one offline player. -/
def offlineStep (player : Player) (players : Players) (cid : ℤ) : Players :=
  match players.lookup cid with
  | none => players
  | some onePlayer =>
      let offlineCid := player.character.characterID
      let onePlayer := packLeaveAOIMsg offlineCid player onePlayer
      players.insert cid
        { onePlayer with aoilist := onePlayer.aoilist.filter fun x => x ≠ offlineCid }

/-- The loop of `PushSynPosMsgs` over the offline players. -/
def pushOffline (order : SetOrder) (players : Players) (player : Player) : Players :=
  (order.list player.character.characterID player.aoilist).foldl (offlineStep player) players

/-- `SendSceneFrame` for one player. -/
def sendFrame (players : Players) (key : ℤ) : Players :=
  match players.lookup key with
  | none => players
  | some player =>
      players.insert key { player with sent := player.sent ++ player.sendmsgs, sendmsgs := [] }

namespace Scene

/-- `PushSynPosMsgs`; `keys` is the list of the keys of `self.players` in some order. -/
def pushSynPosMsgs (s : Scene) (keys : List ℤ) (order : SetOrder) : Option Scene := do
  let players ← keys.foldlM (pushPlayer s.qdtree order) s.players
  pure { s with
    players := s.offlinePlayers.foldl (pushOffline order) players
    offlinePlayers := [] }

/-- `SendSceneFrame`. -/
def sendSceneFrame (s : Scene) (keys : List ℤ) : Scene :=
  { s with players := keys.foldl sendFrame s.players }

/-- A call.  `addPlayer` carries the address of the new object, the loops over the players
the order in which they run. -/
inductive Call
  | addPlayer (a : ℕ) (sender : String) (character : Character)
  | setPlayerReady (cid : ℤ)
  | updatePos (cid : ℤ) (x y : ℚ)
  | delPlayer (cid : ℤ)
  | pushSynPosMsgs (keys : List ℤ) (order : SetOrder)
  | sendSceneFrame (keys : List ℤ)

/-- A call that does not raise, with an address and orders that are possible. -/
def step (s : Scene) : Call → Option Scene
  | .addPlayer a sender character =>
      match s.qdtree.live a with
      | none => some (s.addPlayer a sender character).2
      | some _ => none
  | .setPlayerReady cid => some (s.setPlayerReady cid).2
  | .updatePos cid x y => (s.updatePos cid x y).map Prod.snd
  | .delPlayer cid => some (s.delPlayer cid).2
  | .pushSynPosMsgs keys order =>
      if keys.Perm s.players.keys then s.pushSynPosMsgs keys order else none
  | .sendSceneFrame keys =>
      if keys.Perm s.players.keys then some (s.sendSceneFrame keys) else none

end Scene

/-! ## What the loops do to a player -/

namespace Player

/-- What has been queued for a player about an id. -/
def about (b : ℤ) (p : Player) : List Mark :=
  (p.sent ++ p.sendmsgs).filterMap fun msg => if msg.cid = b then some msg.mark else none

/-- What only the other calls change. -/
def core (p : Player) : PlayerState × String × Character × ℕ :=
  (p.state, p.peerid, p.character, p.qobject)

@[simp] theorem core_queue (p : Player) (msg : AoiMsg) : (p.queue msg).core = p.core := by
  unfold queue
  split_ifs <;> rfl

@[simp] theorem aoilist_queue (p : Player) (msg : AoiMsg) : (p.queue msg).aoilist = p.aoilist := by
  unfold queue
  split_ifs <;> rfl

@[simp] theorem active_queue (p : Player) (msg : AoiMsg) : (p.queue msg).active = p.active := by
  unfold queue
  split_ifs <;> rfl

theorem state_of_core {p q : Player} (h : p.core = q.core) : p.state = q.state :=
  congrArg Prod.fst h

theorem character_of_core {p q : Player} (h : p.core = q.core) : p.character = q.character :=
  congrArg (fun c => c.2.2.1) h

theorem qobject_of_core {p q : Player} (h : p.core = q.core) : p.qobject = q.qobject :=
  congrArg (fun c => c.2.2.2) h

/-- A message to a player that is ready is queued. -/
theorem about_queue {p : Player} (hp : p.state = .ready) (msg : AoiMsg) (b : ℤ) :
    (p.queue msg).about b = p.about b ++ if msg.cid = b then [msg.mark] else [] := by
  have hq : p.queue msg = { p with sendmsgs := p.sendmsgs ++ [msg] } := by
    rw [queue, if_neg (not_not.mpr hp)]
  rw [hq, about, about, ← List.append_assoc, List.filterMap_append]
  congr 1
  split_ifs with hb <;> simp [hb]

end Player

theorem mem_of_lookup {ps : Players} {k : ℤ} {p : Player} (h : ps.lookup k = some p) : k ∈ ps :=
  AList.lookup_isSome.mp (by rw [h]; rfl)

/-- Everybody in the scene can be looked up. -/
theorem exists_lookup {ps : Players} {k : ℤ} (h : k ∈ ps) : ∃ p, ps.lookup k = some p :=
  Option.isSome_iff_exists.mp (AList.lookup_isSome.mpr h)

/-- Nobody is left in a list from which it has been removed. -/
theorem not_mem_removed (a : ℤ) (l : List ℤ) : a ∉ l.filter fun x => x ≠ a := by
  intro h
  exact of_decide_eq_true (List.mem_filter.mp h).2 rfl

/-- The players are the same as far as the other calls go. -/
def SamePlayers (ps ps' : Players) : Prop :=
  ∀ k, (ps'.lookup k).map Player.core = (ps.lookup k).map Player.core

namespace SamePlayers

variable {ps ps' ps'' : Players}

theorem refl (ps : Players) : SamePlayers ps ps := fun _ => rfl

/-- Sameness up to lists and queues composes. -/
theorem trans (h : SamePlayers ps ps') (h' : SamePlayers ps' ps'') : SamePlayers ps ps'' :=
  fun k => (h' k).trans (h k)

/-- A player of the one dictionary is in the other. -/
theorem lookup (h : SamePlayers ps ps') {k : ℤ} {p : Player} (hp : ps.lookup k = some p) :
    ∃ p', ps'.lookup k = some p' ∧ p'.core = p.core := by
  have hk := h k
  rw [hp, Option.map_some, Option.map_eq_some_iff] at hk
  exact hk

theorem symm (h : SamePlayers ps ps') : SamePlayers ps' ps := fun k => (h k).symm

theorem mem_iff (h : SamePlayers ps ps') (k : ℤ) : k ∈ ps' ↔ k ∈ ps := by
  rw [← AList.lookup_isSome, ← AList.lookup_isSome, ← Option.isSome_map (f := Player.core), h k,
    Option.isSome_map]

/-- Storing a player back. -/
theorem insert {k : ℤ} {p p' : Player} (hp : ps.lookup k = some p) (hcore : p'.core = p.core) :
    SamePlayers ps (ps.insert k p') := by
  intro j
  rcases eq_or_ne j k with rfl | hne
  · rw [AList.lookup_insert, hp, Option.map_some, Option.map_some, hcore]
  · rw [AList.lookup_insert_ne hne]

end SamePlayers

namespace Player

/-- What `PackSynPosMsg` does to the other player. -/
def seeMove (key : ℤ) (c : Character) (p : Player) : Player := p.queue (.synPos key c.locX c.locY)

/-- What `PackEnterAOIMsg` does to the other player. -/
def seeEnter (key : ℤ) (c : Character) (p : Player) : Player :=
  p.queue (.enterAOI key c.pName c.charName c.locX c.locY)

/-- What `PackLeaveAOIMsg` does to the other player. -/
def seeLeave (key : ℤ) (c : Character) (p : Player) : Player :=
  p.queue (.leaveAOI key c.locX c.locY)

/-- A player into whose area of interest the one with the id `key` comes. -/
def meet (key : ℤ) (c : Character) (p : Player) : Player :=
  { p.seeEnter key c with aoilist := (p.seeEnter key c).aoilist ++ [key] }

/-- A player whose area of interest the one with the id `key` leaves. -/
def part (key : ℤ) (c : Character) (p : Player) : Player :=
  { p.seeLeave key c with aoilist := (p.seeLeave key c).aoilist.filter fun x => x ≠ key }

variable (key : ℤ) (c : Character) (p : Player)

@[simp] theorem core_seeMove : (p.seeMove key c).core = p.core := core_queue p _

@[simp] theorem core_seeEnter : (p.seeEnter key c).core = p.core := core_queue p _

@[simp] theorem core_seeLeave : (p.seeLeave key c).core = p.core := core_queue p _

@[simp] theorem core_meet : (p.meet key c).core = p.core := core_queue p _

@[simp] theorem core_part : (p.part key c).core = p.core := core_queue p _

end Player

/-- One turn of an inner loop of `PushSynPosMsgs`, over the id `cid`: the other player changes by
`f`, which sees the character of the one with the id `key`, and that one changes by `g`. -/
structure Turn (key : ℤ) (step : Players → ℤ → Option Players)
    (f : Character → Player → Player) (g : ℤ → Character → Player → Player) : Prop where
  self : ∀ ps, step ps key = some ps
  meets : ∀ {ps : Players} {cid : ℤ} {A B : Player}, cid ≠ key → ps.lookup key = some A →
    ps.lookup cid = some B → ∃ ps', step ps cid = some ps' ∧
      ∀ k, ps'.lookup k = if k = key then some (g cid B.character A)
        else if k = cid then some (f A.character B) else ps.lookup k
  core_other : ∀ c B, (f c B).core = B.core
  core_self : ∀ cid c A, (g cid c A).core = A.core

/-- Two players are written, the last one wins. -/
theorem lookup_insert_insert {ps : Players} {key cid : ℤ} (A B : Player) (k : ℤ) :
    ((ps.insert cid B).insert key A).lookup k
      = if k = key then some A else if k = cid then some B else ps.lookup k := by
  split_ifs with hkey hcid
  · rw [hkey, AList.lookup_insert]
  · rw [AList.lookup_insert_ne hkey, hcid, AList.lookup_insert]
  · rw [AList.lookup_insert_ne hkey, AList.lookup_insert_ne hcid]

/-- `synPosStep` is a turn: only the others are told. -/
theorem synPos_turn (key : ℤ) :
    Turn key (synPosStep key) (Player.seeMove key) (fun _ _ A => A) where
  self := fun ps => by rw [synPosStep, if_pos rfl]
  meets := by
    intro ps cid A B hne hA hB
    refine ⟨ps.insert cid (B.seeMove key A.character), ?_, ?_⟩
    · rw [synPosStep, if_neg hne, hA, hB]
      rfl
    · intro k
      split_ifs with hkey hcid
      · rw [hkey, AList.lookup_insert_ne (Ne.symm hne), hA]
      · rw [hcid, AList.lookup_insert]
      · rw [AList.lookup_insert_ne hcid]
  core_other := fun c B => B.core_seeMove key c
  core_self := fun _ _ _ => rfl

/-- `enterStep` is a turn: the player and those it meets are told. -/
theorem enter_turn (key : ℤ) :
    Turn key (enterStep key) (Player.meet key) Player.seeEnter where
  self := fun ps => by rw [enterStep, if_pos rfl]
  meets := by
    intro ps cid A B hne hA hB
    refine ⟨(ps.insert cid (B.meet key A.character)).insert key (A.seeEnter cid B.character),
      ?_, lookup_insert_insert _ _⟩
    have hself : packEnterAOIMsg cid (B.seeEnter key A.character) A
        = A.seeEnter cid B.character := by
      unfold packEnterAOIMsg Player.seeEnter
      rw [Player.character_of_core (B.core_queue _)]
    rw [← hself, enterStep, if_neg hne, hA, hB]
    rfl
  core_other := fun c B => B.core_meet key c
  core_self := fun cid c A => A.core_seeEnter cid c

/-- `leaveStep` is a turn: the player and those it parts from are told. -/
theorem leave_turn (key : ℤ) :
    Turn key (leaveStep key) (Player.part key) Player.seeLeave where
  self := fun ps => by rw [leaveStep, if_pos rfl]
  meets := by
    intro ps cid A B hne hA hB
    refine ⟨(ps.insert cid (B.part key A.character)).insert key (A.seeLeave cid B.character),
      ?_, lookup_insert_insert _ _⟩
    have hself : packLeaveAOIMsg cid (B.seeLeave key A.character) A
        = A.seeLeave cid B.character := by
      unfold packLeaveAOIMsg Player.seeLeave
      rw [Player.character_of_core (B.core_queue _)]
    rw [← hself, leaveStep, if_neg hne, hA]
    simp only [Option.bind_eq_bind, Option.bind_some, hB]
    rfl
  core_other := fun c B => B.core_part key c
  core_self := fun cid c A => A.core_seeLeave cid c

/-- The ids of a set that are keys, and what the loop over them does to the player with the id
`key`. -/
def loopSelf (g : ℤ → Character → Player → Player) (ps : Players) (cs : List ℤ) (A : Player) :
    Player :=
  cs.foldl (fun A cid => (ps.lookup cid).elim A fun B => g cid B.character A) A

theorem loopSelf_congr {g : ℤ → Character → Player → Player} {ps ps' : Players} {cs : List ℤ}
    (h : ∀ c ∈ cs, ps'.lookup c = ps.lookup c) (A : Player) :
    loopSelf g ps' cs A = loopSelf g ps cs A := by
  unfold loopSelf
  apply List.foldl_ext
  intro A c hc
  rw [h c hc]

/-- **An inner loop.**  Each other player in the set changes once. -/
theorem Turn.loop {key : ℤ} {step : Players → ℤ → Option Players}
    {f : Character → Player → Player} {g : ℤ → Character → Player → Player}
    (turn : Turn key step f g) {cs : List ℤ} (hnodup : cs.Nodup) {ps : Players} {A : Player}
    (hA : ps.lookup key = some A)
    (habsent : ∀ c ∈ cs, c ∈ ps ∨ ∀ ps' : Players, (ps'.lookup key).isSome →
      ps'.lookup c = none → step ps' c = some ps') :
    ∃ ps', cs.foldlM step ps = some ps'
      ∧ (∀ k, k ≠ key → ps'.lookup k
        = if k ∈ cs then (ps.lookup k).map (f A.character) else ps.lookup k)
      ∧ ps'.lookup key = some (loopSelf g ps (cs.filter fun x => x ≠ key) A) := by
  induction cs generalizing ps A with
  | nil => exact ⟨ps, rfl, fun k _ => by simp, hA⟩
  | cons c cs ih =>
      obtain ⟨hc, hnodup⟩ := List.nodup_cons.mp hnodup
      rcases eq_or_ne c key with rfl | hne
      · obtain ⟨ps', hfold, hother, hself⟩ :=
          ih hnodup hA fun c' hc' => habsent c' (List.mem_cons_of_mem _ hc')
        refine ⟨ps', ?_, ?_, ?_⟩
        · rw [List.foldlM_cons, turn.self]
          exact hfold
        · intro k hk
          rw [hother k hk]
          simp [hk]
        · rw [hself, List.filter_cons_of_neg (by simp)]
      rw [List.filter_cons_of_pos (by simpa using hne)]
      cases hB : ps.lookup c with
      | none =>
          -- the player has gone, and the turn skips it
          have hskip : step ps c = some ps := by
            rcases habsent c List.mem_cons_self with hmem | hskip
            · obtain ⟨B, hB'⟩ := exists_lookup hmem
              rw [hB] at hB'
              cases hB'
            · exact hskip ps (by rw [hA]; rfl) hB
          obtain ⟨ps', hfold, hother, hself⟩ :=
            ih hnodup hA fun c' hc' => habsent c' (List.mem_cons_of_mem _ hc')
          refine ⟨ps', ?_, ?_, ?_⟩
          · rw [List.foldlM_cons, hskip]
            exact hfold
          · intro k hk
            rw [hother k hk]
            rcases eq_or_ne k c with rfl | hkc
            · simp [hB]
            · simp [hkc]
          · rw [hself, loopSelf, loopSelf, List.foldl_cons, hB]
            rfl
      | some B =>
          obtain ⟨ps₁, hstep, hlook⟩ := turn.meets hne hA hB
          have hA₁ : ps₁.lookup key = some (g c B.character A) := by rw [hlook, if_pos rfl]
          have hrest : ∀ k, k ≠ key → k ≠ c → ps₁.lookup k = ps.lookup k := by
            intro k hk hkc
            rw [hlook, if_neg hk, if_neg hkc]
          have hchar : (g c B.character A).character = A.character :=
            Player.character_of_core (turn.core_self c B.character A)
          have hmem : ∀ c' ∈ cs.filter fun x => x ≠ key, ps₁.lookup c' = ps.lookup c' := by
            intro c' hc'
            obtain ⟨hc', hk'⟩ := List.mem_filter.mp hc'
            apply hrest c' (of_decide_eq_true hk')
            rintro rfl
            exact hc hc'
          obtain ⟨ps', hfold, hother, hself⟩ := ih hnodup hA₁ fun c' hc' => by
            rcases habsent c' (List.mem_cons_of_mem _ hc') with h | h
            · left
              rw [← AList.lookup_isSome, hlook]
              split_ifs
              · rfl
              · rfl
              · exact AList.lookup_isSome.mpr h
            · exact Or.inr h
          refine ⟨ps', ?_, ?_, ?_⟩
          · rw [List.foldlM_cons, hstep]
            exact hfold
          · intro k hk
            rw [hother k hk, hchar]
            rcases eq_or_ne k c with rfl | hkc
            · rw [if_neg hc, if_pos List.mem_cons_self, hlook, if_neg hk, if_pos rfl, hB]
              rfl
            · rw [hrest k hk hkc]
              simp [hkc]
          · rw [hself, loopSelf_congr hmem, loopSelf, loopSelf, List.foldl_cons, hB]
            rfl

/-- What the turns of a loop keep, the loop keeps. -/
theorem loopSelf_keeps {γ : Type*} (φ : Player → γ) {g : ℤ → Character → Player → Player}
    (hg : ∀ cid c A, φ (g cid c A) = φ A) (ps : Players) (cs : List ℤ) (A : Player) :
    φ (loopSelf g ps cs A) = φ A := by
  induction cs generalizing A with
  | nil => rfl
  | cons c cs ih =>
      rw [loopSelf, List.foldl_cons]
      apply (ih _).trans
      cases ps.lookup c with
      | none => rfl
      | some B => exact hg c B.character A

/-- A loop that tells the player about each id of a set tells it once about each that is a key. -/
theorem about_loopSelf {g : ℤ → Character → Player → Player} {mark : Mark} {b : ℤ}
    (hcore : ∀ cid c A, (g cid c A).core = A.core)
    (hg : ∀ cid c A, A.state = .ready →
      (g cid c A).about b = A.about b ++ if cid = b then [mark] else [])
    (ps : Players) {cs : List ℤ} (hnodup : cs.Nodup) {A : Player} (hA : A.state = .ready) :
    (loopSelf g ps cs A).about b = A.about b ++ if b ∈ cs ∧ b ∈ ps then [mark] else [] := by
  induction cs generalizing A with
  | nil => simp [loopSelf]
  | cons c cs ih =>
      obtain ⟨hc, hnodup⟩ := List.nodup_cons.mp hnodup
      rw [loopSelf, List.foldl_cons]
      cases hB : ps.lookup c with
      | none =>
          have hnot : c ∉ ps := AList.lookup_eq_none.mp hB
          apply (ih hnodup hA).trans
          congr 1
          rcases eq_or_ne b c with rfl | hne
          · simp [hnot]
          · simp [hne]
      | some B =>
          have hin : c ∈ ps := mem_of_lookup hB
          have hA' : (g c B.character A).state = .ready := by
            rw [Player.state_of_core (hcore c B.character A)]
            exact hA
          apply (ih hnodup hA').trans
          rw [hg c B.character A hA, List.append_assoc]
          congr 1
          rcases eq_or_ne b c with rfl | hne
          · simp [hc, hin]
          · simp [hne, Ne.symm hne]

/-- What one turn of the loop of `PushSynPosMsgs`, for the player `A` with the id `key` and the
search result `objs`, does to another player. -/
def pushedOther (key : ℤ) (A : Player) (objs : List ℤ) (k : ℤ) (p : Player) : Player :=
  if k ∈ objs then
    if k ∈ A.aoilist then p.seeMove key A.character else p.meet key A.character
  else if k ∈ A.aoilist then p.part key A.character else p

/-- A push changes lists and queues only. -/
theorem core_pushedOther (key : ℤ) (A : Player) (objs : List ℤ) (k : ℤ) (p : Player) :
    (pushedOther key A objs k p).core = p.core := by
  unfold pushedOther
  split_ifs
  · exact p.core_seeMove key A.character
  · exact p.core_meet key A.character
  · exact p.core_part key A.character
  · rfl

/-- What it does to the player itself. -/
structure PushedSelf (ps : Players) (key : ℤ) (A : Player) (objs : List ℤ) (A' : Player) :
    Prop where
  core : A'.core = A.core
  active : A'.active = false
  aoilist : A'.aoilist = objs
  about_self : A'.about key = A.about key
  about : ∀ b, b ≠ key → A'.about b = A.about b
    ++ ((if b ∈ objs ∧ b ∉ A.aoilist ∧ b ∈ ps then [.enter] else [])
      ++ if b ∈ A.aoilist ∧ b ∉ objs ∧ b ∈ ps then [.leave] else [])

/-- A turn for a player that is not ready, or has not moved, does nothing. -/
theorem pushPlayer_idle {tree : QuadState} {order : SetOrder} {ps : Players} {key : ℤ} {A : Player}
    (hA : ps.lookup key = some A) (h : A.state ≠ .ready ∨ A.active = false) :
    pushPlayer tree order ps key = some ps := by
  simp only [pushPlayer, hA, Option.bind_eq_bind, Option.bind_some]
  rcases h with h | h
  · rw [if_pos h]
    rfl
  · rw [h]
    split_ifs with hstate hactive
    · rfl
    · exact hactive.elim
    · rfl

/-- The last loop skips who is not a player any more. -/
theorem leaveStep_absent {key c : ℤ} {ps : Players} (hkey : (ps.lookup key).isSome)
    (hc : ps.lookup c = none) : leaveStep key ps c = some ps := by
  obtain ⟨A, hA⟩ := Option.isSome_iff_exists.mp hkey
  unfold leaveStep
  split_ifs
  · rfl
  · simp only [hA, hc, Option.bind_eq_bind, Option.bind_some]
    rfl

/-- Changing players in place neither adds nor removes any. -/
theorem mem_iff_of_lookup {ps ps' : Players} {k : ℤ} {P : Prop} [Decidable P]
    {f : Player → Player}
    (h : ps'.lookup k = if P then (ps.lookup k).map f else ps.lookup k) : k ∈ ps' ↔ k ∈ ps := by
  rw [← AList.lookup_isSome, ← AList.lookup_isSome, h]
  split_ifs
  · rw [Option.isSome_map]
  · rfl

/-- The three inner loops, over sets that divide the old list and the search result `objs` of the
player with the id `key` into what is in both, in the result only, and in the old list only. -/
theorem innerLoops_spec {ps : Players} {key : ℤ} {A : Player} {objs inter new gone : List ℤ}
    (hready : A.state = .ready) (hobjs : ∀ c ∈ objs, c ∈ ps)
    (minter : ∀ x, x ∈ inter ↔ x ∈ A.aoilist ∧ x ∈ objs) (ninter : inter.Nodup)
    (mnew : ∀ x, x ∈ new ↔ x ∈ objs ∧ x ∉ A.aoilist) (nnew : new.Nodup)
    (mgone : ∀ x, x ∈ gone ↔ x ∈ A.aoilist ∧ x ∉ objs) (ngone : gone.Nodup) :
    ∃ ps₁ ps₂ ps₃,
      inter.foldlM (synPosStep key) (ps.insert key { A with active := false, aoilist := objs })
          = some ps₁
        ∧ new.foldlM (enterStep key) ps₁ = some ps₂
        ∧ gone.foldlM (leaveStep key) ps₂ = some ps₃
        ∧ (∀ k, k ≠ key → ps₃.lookup k = (ps.lookup k).map (pushedOther key A objs k))
        ∧ ∃ A', ps₃.lookup key = some A' ∧ PushedSelf ps key A objs A' := by
  -- the player is stored with its new list, and then the three loops run
  set A₀ : Player := { A with active := false, aoilist := objs } with hA₀
  set ps₀ : Players := ps.insert key A₀ with hps₀
  have hself₀ : ps₀.lookup key = some A₀ := AList.lookup_insert ps
  have hother₀ : ∀ k, k ≠ key → ps₀.lookup k = ps.lookup k := fun k hk =>
    AList.lookup_insert_ne hk
  have hin₀ : ∀ c ∈ ps, c ∈ ps₀ := fun c hc => (AList.mem_insert ps).mpr (Or.inr hc)
  have hkeep₁ : loopSelf (fun _ _ A => A) ps₀ (inter.filter fun x => x ≠ key) A₀ = A₀ :=
    loopSelf_keeps id (fun _ _ _ => rfl) ps₀ _ A₀
  obtain ⟨ps₁, hfold₁, hother₁, hself₁⟩ := (synPos_turn key).loop ninter hself₀
    fun c hc => Or.inl (hin₀ c (hobjs c ((minter c).mp hc).2))
  rw [hkeep₁] at hself₁
  have hin₁ : ∀ c ∈ ps, c ∈ ps₁ := by
    intro c hc
    rcases eq_or_ne c key with rfl | hne
    · exact mem_of_lookup hself₁
    · exact (mem_iff_of_lookup (hother₁ c hne)).mpr (hin₀ c hc)
  obtain ⟨ps₂, hfold₂, hother₂, hself₂⟩ := (enter_turn key).loop nnew hself₁
    fun c hc => Or.inl (hin₁ c (hobjs c ((mnew c).mp hc).1))
  set A₂ := loopSelf Player.seeEnter ps₁ (new.filter fun x => x ≠ key) A₀ with hA₂
  have hcore₂ : A₂.core = A.core :=
    loopSelf_keeps Player.core (fun cid c A => A.core_seeEnter cid c) ps₁ _ A₀
  obtain ⟨ps₃, hfold₃, hother₃, hself₃⟩ := (leave_turn key).loop ngone hself₂
    fun c _ => Or.inr fun _ hkey hc => leaveStep_absent hkey hc
  have hready₂ : A₂.state = .ready := (Player.state_of_core hcore₂).trans hready
  have henter : ∀ b, A₂.about b = A₀.about b
      ++ if b ∈ new.filter (fun x => x ≠ key) ∧ b ∈ ps₁ then [.enter] else [] := fun b =>
    about_loopSelf (fun cid c A => A.core_seeEnter cid c)
      (fun cid c A hA => Player.about_queue hA _ b) ps₁ (nnew.filter _) hready
  have hleave : ∀ b, (loopSelf Player.seeLeave ps₂ (gone.filter fun x => x ≠ key) A₂).about b
      = A₂.about b
        ++ if b ∈ gone.filter (fun x => x ≠ key) ∧ b ∈ ps₂ then [.leave] else [] := fun b =>
    about_loopSelf (fun cid c A => A.core_seeLeave cid c)
      (fun cid c A hA => Player.about_queue hA _ b) ps₂ (ngone.filter _) hready₂
  refine ⟨ps₁, ps₂, ps₃, hfold₁, hfold₂, hfold₃, ?_, _, hself₃, ?_⟩
  · intro k hk
    have hchar : A₂.character = A.character := Player.character_of_core hcore₂
    rw [hother₃ k hk, hother₂ k hk, hother₁ k hk, hother₀ k hk, hchar]
    simp only [minter, mnew, mgone, hA₀]
    cases ps.lookup k with
    | none => simp
    | some p =>
        by_cases hobj : k ∈ objs <;> by_cases hold : k ∈ A.aoilist <;>
          simp [pushedOther, hobj, hold]
  · constructor
    · exact (loopSelf_keeps Player.core (fun cid c A => A.core_seeLeave cid c) _ _ A₂).trans hcore₂
    · refine (loopSelf_keeps Player.active (fun _ _ A => A.active_queue _) _ _ A₂).trans ?_
      exact loopSelf_keeps Player.active (fun _ _ A => A.active_queue _) _ _ A₀
    · refine (loopSelf_keeps Player.aoilist (fun _ _ A => A.aoilist_queue _) _ _ A₂).trans ?_
      exact loopSelf_keeps Player.aoilist (fun _ _ A => A.aoilist_queue _) _ _ A₀
    · rw [hleave, henter, if_neg fun h => not_mem_removed key new h.1,
        if_neg fun h => not_mem_removed key gone h.1, List.append_nil, List.append_nil]
      rfl
    · intro b hb
      have hin₁' : b ∈ ps₁ ↔ b ∈ ps := by
        rw [mem_iff_of_lookup (hother₁ b hb), ← AList.lookup_isSome, hother₀ b hb,
          AList.lookup_isSome]
      have hin₂' : b ∈ ps₂ ↔ b ∈ ps := (mem_iff_of_lookup (hother₂ b hb)).trans hin₁'
      rw [hleave, henter, List.append_assoc]
      simp only [List.mem_filter, mnew, mgone, hin₁', hin₂', decide_eq_true_iff, hb, and_true,
        ne_eq, not_false_eq_true, and_assoc]
      rfl

/-- **One turn of `PushSynPosMsgs`.**  When every id that the search finds is a key, the turn does
not raise; it changes the other players by `pushedOther` and the player itself as `PushedSelf`
says. -/
theorem pushPlayer_spec {tree : QuadState} (order : SetOrder) {ps : Players} {key : ℤ} {A : Player}
    (hA : ps.lookup key = some A) (hready : A.state = .ready) (hactive : A.active = true)
    (hobjs : ∀ c ∈ aoiObjs tree key A.character, c ∈ ps) :
    ∃ ps', pushPlayer tree order ps key = some ps'
      ∧ (∀ k, k ≠ key → ps'.lookup k
        = (ps.lookup k).map (pushedOther key A (aoiObjs tree key A.character) k))
      ∧ ∃ A', ps'.lookup key = some A'
        ∧ PushedSelf ps key A (aoiObjs tree key A.character) A' := by
  have hset : ∀ (l : List ℤ) (P : ℤ → Prop) [DecidablePred P] (x : ℤ),
      x ∈ order.list key (l.filter fun x => P x) ↔ x ∈ l ∧ P x := by
    intro l P _ x
    rw [order.mem_iff, List.mem_filter, decide_eq_true_iff]
  obtain ⟨ps₁, ps₂, ps₃, hinter, hnew, hgone, hother, hself⟩ :=
    innerLoops_spec hready hobjs (hset _ _) (order.nodup key _) (hset _ _) (order.nodup key _)
      (hset _ _) (order.nodup key _)
  refine ⟨ps₃, ?_, hother, hself⟩
  simp only [pushPlayer, hA, Option.bind_eq_bind, Option.bind_some]
  rw [if_neg (not_not.mpr hready), if_pos hactive, hinter]
  simp only [Option.bind_some]
  rw [hnew]
  exact hgone

/-! ## The tree and the players -/

/-- The objects of the tree are the objects of the players. -/
structure Agree (tree : QuadState) (ps : Players) : Prop where
  inv : tree.Inv
  object : ∀ k p, ps.lookup k = some p →
    ∃ o, tree.live p.qobject = some o ∧ (o.objectid.toNat : ℤ) = k
  player : ∀ a o, tree.live a = some o → ∃ k p, ps.lookup k = some p ∧ p.qobject = a

namespace Agree

variable {tree : QuadState} {ps ps' : Players}

/-- Two players do not share an object: the object carries the id. -/
theorem qobject_inj (h : Agree tree ps) {k k' : ℤ} {p p' : Player} (hp : ps.lookup k = some p)
    (hp' : ps.lookup k' = some p') (heq : p.qobject = p'.qobject) : k = k' := by
  obtain ⟨o, ho, hk⟩ := h.object k p hp
  obtain ⟨o', ho', hk'⟩ := h.object k' p' hp'
  rw [heq, ho', Option.some.injEq] at ho
  rw [← hk, ← hk', ho]

/-- An id that a search returns is a key. -/
theorem mem_of_searchIds (h : Agree tree ps) {box : Box} {maxnum id : ℤ}
    (hid : id ∈ tree.searchIds box maxnum) : id ∈ ps := by
  obtain ⟨a, -, ha⟩ := List.mem_filterMap.mp hid
  obtain ⟨o, ho, rfl⟩ := Option.map_eq_some_iff.mp ha
  obtain ⟨k, p, hp, rfl⟩ := h.player a o ho
  obtain ⟨o', ho', hk⟩ := h.object k p hp
  rw [ho, Option.some.injEq] at ho'
  subst ho'
  rw [hk]
  exact mem_of_lookup hp

/-- Tree and players agree also when lists and queues change. -/
theorem same (h : Agree tree ps) (hsame : SamePlayers ps ps') : Agree tree ps' := by
  constructor
  · exact h.inv
  · intro k p hp
    obtain ⟨p₀, hp₀, hcore⟩ := hsame.symm.lookup hp
    rw [← Player.qobject_of_core hcore]
    exact h.object k p₀ hp₀
  · intro a o ho
    obtain ⟨k, p, hp, hq⟩ := h.player a o ho
    obtain ⟨p', hp', hcore⟩ := hsame.lookup hp
    exact ⟨k, p', hp', (Player.qobject_of_core hcore).trans hq⟩

/-- A player with a new object comes. -/
theorem enter (h : Agree tree ps) {tree' : QuadState} (hinv : tree'.Inv) {a : ℕ} {o : QObject}
    {p : Player} (hfree : tree.live a = none)
    (hlive : tree'.live = Function.update tree.live a (some o)) {id : ℤ} (hid : id ∉ ps)
    (ho : (o.objectid.toNat : ℤ) = id) (hp : p.qobject = a) : Agree tree' (ps.insert id p) := by
  constructor
  · exact hinv
  · intro k q hq
    rw [hlive]
    rcases eq_or_ne k id with rfl | hne
    · rw [AList.lookup_insert, Option.some.injEq] at hq
      subst hq
      exact ⟨o, by rw [hp, Function.update_self], ho⟩
    · rw [AList.lookup_insert_ne hne] at hq
      obtain ⟨o', ho', hk⟩ := h.object k q hq
      refine ⟨o', ?_, hk⟩
      rw [Function.update_of_ne, ho']
      rintro heq
      rw [heq, hfree] at ho'
      cases ho'
  · intro b o' ho'
    rw [hlive] at ho'
    rcases eq_or_ne b a with rfl | hne
    · exact ⟨id, p, AList.lookup_insert ps, hp⟩
    · rw [Function.update_of_ne hne] at ho'
      obtain ⟨k, q, hq, hqb⟩ := h.player b o' ho'
      refine ⟨k, q, ?_, hqb⟩
      rw [AList.lookup_insert_ne, hq]
      rintro rfl
      exact hid (mem_of_lookup hq)

/-- The object of a player moves. -/
theorem move (h : Agree tree ps) {tree' : QuadState} (hinv : tree'.Inv) {id : ℤ} {p : Player}
    (hp : ps.lookup id = some p) {o o' : QObject} (ho : tree.live p.qobject = some o)
    (hlive : tree'.live = Function.update tree.live p.qobject (some o'))
    (hobjectid : o'.objectid = o.objectid) : Agree tree' ps := by
  constructor
  · exact hinv
  · intro k q hq
    obtain ⟨oq, hoq, hk⟩ := h.object k q hq
    rw [hlive]
    rcases eq_or_ne q.qobject p.qobject with heq | hne
    · rw [heq, ho, Option.some.injEq] at hoq
      refine ⟨o', by rw [heq, Function.update_self], ?_⟩
      rw [hobjectid, hoq]
      exact hk
    · exact ⟨oq, by rw [Function.update_of_ne hne, hoq], hk⟩
  · intro b ob hob
    rw [hlive] at hob
    rcases eq_or_ne b p.qobject with rfl | hne
    · exact ⟨id, p, hp, rfl⟩
    · rw [Function.update_of_ne hne] at hob
      exact h.player b ob hob

/-- A player goes and its object is freed. -/
theorem leave (h : Agree tree ps) {id : ℤ} {p : Player} (hp : ps.lookup id = some p) :
    Agree (tree.delObject p.qobject) (ps.erase id) := by
  constructor
  · exact h.inv.delObject p.qobject
  · intro k q hq
    rcases eq_or_ne k id with rfl | hne
    · rw [AList.lookup_erase] at hq
      cases hq
    · rw [AList.lookup_erase_ne hne] at hq
      obtain ⟨o, ho, hk⟩ := h.object k q hq
      refine ⟨o, ?_, hk⟩
      rw [QuadState.live_delObject, Function.update_of_ne, ho]
      intro heq
      exact hne (h.qobject_inj hq hp heq)
  · intro b o ho
    rcases eq_or_ne b p.qobject with rfl | hne
    · rw [QuadState.live_delObject, Function.update_self] at ho
      cases ho
    · rw [QuadState.live_delObject, Function.update_of_ne hne] at ho
      obtain ⟨k, q, hq, rfl⟩ := h.player b o ho
      refine ⟨k, q, ?_, rfl⟩
      rw [AList.lookup_erase_ne, hq]
      rintro rfl
      rw [hp, Option.some.injEq] at hq
      exact hne (congrArg Player.qobject hq).symm

end Agree

/-! ## What the loops keep -/

/-- A turn of the loop over the players neither raises nor changes what the other calls look at. -/
theorem pushPlayer_same {tree : QuadState} {ps : Players} (h : Agree tree ps) (order : SetOrder)
    {key : ℤ} (hkey : key ∈ ps) :
    ∃ ps', pushPlayer tree order ps key = some ps' ∧ SamePlayers ps ps' := by
  obtain ⟨A, hA⟩ := exists_lookup hkey
  by_cases hidle : A.state ≠ .ready ∨ A.active = false
  · exact ⟨ps, pushPlayer_idle hA hidle, SamePlayers.refl ps⟩
  · rw [not_or, not_not, Bool.not_eq_false] at hidle
    obtain ⟨ps', hpush, hother, A', hA', hself⟩ := pushPlayer_spec order hA hidle.1 hidle.2
      fun c hc => h.mem_of_searchIds (List.mem_filter.mp hc).1
    refine ⟨ps', hpush, ?_⟩
    intro k
    rcases eq_or_ne k key with rfl | hne
    · rw [hA, hA', Option.map_some, Option.map_some, hself.core]
    · rw [hother k hne, Option.map_map]
      congr 1
      funext p
      exact core_pushedOther key A _ k p

/-- Pushing players of the scene does not fail, and changes lists and queues only. -/
theorem pushPlayers_same {tree : QuadState} {ps : Players} (h : Agree tree ps) (order : SetOrder)
    {keys : List ℤ} (hkeys : ∀ k ∈ keys, k ∈ ps) :
    ∃ ps', keys.foldlM (pushPlayer tree order) ps = some ps' ∧ SamePlayers ps ps' := by
  induction keys generalizing ps with
  | nil => exact ⟨ps, rfl, SamePlayers.refl ps⟩
  | cons key keys ih =>
      obtain ⟨hkey, hkeys⟩ := List.forall_mem_cons.mp hkeys
      obtain ⟨ps₁, hpush, hsame⟩ := pushPlayer_same h order hkey
      obtain ⟨ps₂, hrest, hsame'⟩ := ih (h.same hsame)
        fun k hk => (hsame.mem_iff k).mpr (hkeys k hk)
      refine ⟨ps₂, ?_, hsame.trans hsame'⟩
      rw [List.foldlM_cons, hpush]
      exact hrest

/-- A loop whose turns keep the players keeps them. -/
theorem SamePlayers.foldl {ι : Type*} {f : Players → ι → Players}
    (hf : ∀ ps i, SamePlayers ps (f ps i)) (is : List ι) (ps : Players) :
    SamePlayers ps (is.foldl f ps) := by
  induction is generalizing ps with
  | nil => exact SamePlayers.refl ps
  | cons i is ih => exact (hf ps i).trans (ih (f ps i))

theorem offlineStep_same (player : Player) (ps : Players) (cid : ℤ) :
    SamePlayers ps (offlineStep player ps cid) := by
  unfold offlineStep
  cases hp : ps.lookup cid with
  | none => exact SamePlayers.refl ps
  | some p => exact SamePlayers.insert hp (p.core_seeLeave _ _)

theorem pushOffline_same (order : SetOrder) (ps : Players) (player : Player) :
    SamePlayers ps (pushOffline order ps player) :=
  SamePlayers.foldl (offlineStep_same player) _ ps

theorem sendFrame_same (ps : Players) (key : ℤ) : SamePlayers ps (sendFrame ps key) := by
  unfold sendFrame
  cases hp : ps.lookup key with
  | none => exact SamePlayers.refl ps
  | some p => exact SamePlayers.insert hp rfl

namespace Scene

variable {s s' : Scene}

/-- **`PushSynPosMsgs` does not raise** while the tree and the players agree, and it keeps what the
other calls look at. -/
theorem pushSynPosMsgs_same (h : Agree s.qdtree s.players) {keys : List ℤ}
    (hkeys : keys.Perm s.players.keys) (order : SetOrder) :
    ∃ s', s.pushSynPosMsgs keys order = some s' ∧ s'.qdtree = s.qdtree
      ∧ SamePlayers s.players s'.players := by
  obtain ⟨ps, hpush, hsame⟩ := pushPlayers_same h order
    fun k hk => AList.mem_keys.mpr (hkeys.subset hk)
  refine ⟨{ s with players := s.offlinePlayers.foldl (pushOffline order) ps, offlinePlayers := [] },
    ?_, rfl, hsame.trans (SamePlayers.foldl (pushOffline_same order) _ ps)⟩
  rw [pushSynPosMsgs, hpush]
  rfl

/-- The box of a character at its place lies strictly inside the root box of the tree, which is
the map widened by half the overlap on each side (`root_box_step`). -/
def Accepts (s : Scene) (character : Character) : Prop :=
  ((s.cfg.locate character).objbox (s.cfg.locate character).locX
    (s.cfg.locate character).locY).IsInside s.qdtree.root.box

instance (s : Scene) (character : Character) : Decidable (s.Accepts character) :=
  inferInstanceAs (Decidable (Box.IsInside _ _))

/-- Who enters is not in the scene, and has an id that the tree can store. -/
def FreshEntry (s : Scene) : Call → Prop
  | .addPlayer _ _ character => s.Accepts character →
      character.characterID ∉ s.players
        ∧ 0 ≤ character.characterID ∧ character.characterID < 2 ^ 64
  | _ => True

instance (s : Scene) (call : Call) : Decidable (s.FreshEntry call) :=
  match call with
  | .addPlayer _ _ character =>
      inferInstanceAs (Decidable (s.Accepts character → character.characterID ∉ s.players
        ∧ 0 ≤ character.characterID ∧ character.characterID < 2 ^ 64))
  | .setPlayerReady _ => inferInstanceAs (Decidable True)
  | .updatePos .. => inferInstanceAs (Decidable True)
  | .delPlayer _ => inferInstanceAs (Decidable True)
  | .pushSynPosMsgs .. => inferInstanceAs (Decidable True)
  | .sendSceneFrame _ => inferInstanceAs (Decidable True)

/-- An id in range is itself as a `uint64`. -/
theorem toNat_ofInt {id : ℤ} (h₀ : 0 ≤ id) (h₁ : id < 2 ^ 64) :
    ((UInt64.ofInt id).toNat : ℤ) = id := by
  rw [UInt64.ofInt, Int.emod_eq_of_lt h₀ h₁, UInt64.toNat_ofNat', Nat.mod_eq_of_lt (by omega)]
  exact Int.toNat_of_nonneg h₀

/-- `add_player` is refused outside the root box and then changes nothing. -/
theorem addPlayer_cases (s : Scene) (a : ℕ) (sender : String) (character : Character) :
    s.addPlayer a sender character = (false, s)
      ∨ (s.Accepts character ∧ ∃ qdtree o, s.qdtree.insert a 0 (UInt64.ofInt character.characterID)
            ((s.cfg.locate character).objbox (s.cfg.locate character).locX
              (s.cfg.locate character).locY) = (true, qdtree)
          ∧ qdtree.live = Function.update s.qdtree.live a (some o)
          ∧ o.objectid = UInt64.ofInt character.characterID
          ∧ s.addPlayer a sender character = (true, { s with
            qdtree := qdtree
            players := s.players.insert character.characterID
              (.enter sender (s.cfg.locate character) a) })) := by
  have hid : (s.cfg.locate character).characterID = character.characterID := rfl
  rcases s.qdtree.insert_cases a 0 (UInt64.ofInt character.characterID)
    ((s.cfg.locate character).objbox (s.cfg.locate character).locX
      (s.cfg.locate character).locY) with ⟨-, h⟩ | ⟨hin, root, -, h⟩
  · left
    simp only [addPlayer, hid, h]
    rfl
  · right
    refine ⟨hin, _, _, h, rfl, rfl, ?_⟩
    simp only [addPlayer, hid, h]
    rfl

/-- `update_pos` of a player follows no dangling pointer; it makes the player active and changes
at most its place. -/
theorem updatePos_cases (h : Agree s.qdtree s.players) (cid : ℤ) (x y : ℚ) :
    (s.players.lookup cid = none ∧ s.updatePos cid x y = some (false, s))
      ∨ ∃ p character rv qdtree, s.players.lookup cid = some p
        ∧ character.characterID = p.character.characterID
        ∧ Agree qdtree s.players
        ∧ s.updatePos cid x y = some (rv, { s with
            qdtree := qdtree
            players :=
              s.players.insert cid { p with active := true, character := character } }) := by
  cases hp : s.players.lookup cid with
  | none =>
      left
      exact ⟨rfl, by simp only [updatePos, hp]⟩
  | some p =>
      right
      obtain ⟨o, ho, -⟩ := h.object cid p hp
      have hinv := h.inv.update (a := p.qobject) o (p.character.objbox x y)
      rcases s.qdtree.update_cases p.qobject o (p.character.objbox x y) with
        ⟨-, hupd⟩ | ⟨-, root, -, hupd⟩
      · refine ⟨p, p.character, false, s.qdtree, rfl, rfl, h, ?_⟩
        simp only [updatePos, hp, ho, Option.map_some, hupd]
        rfl
      · rw [hupd] at hinv
        refine ⟨p, { p.character with locX := x, locY := y }, true, _, rfl, rfl,
          h.move hinv hp ho rfl rfl, ?_⟩
        simp only [updatePos, hp, ho, Option.map_some, hupd]
        rfl

theorem setPlayerReady_cases (s : Scene) (cid : ℤ) :
    (s.players.lookup cid = none ∧ s.setPlayerReady cid = (false, s))
      ∨ ∃ p, s.players.lookup cid = some p ∧ s.setPlayerReady cid
        = (true, { s with players := s.players.insert cid { p with state := .ready } }) := by
  cases hp : s.players.lookup cid with
  | none => exact Or.inl ⟨rfl, by simp only [setPlayerReady, hp]⟩
  | some p => exact Or.inr ⟨p, rfl, by simp only [setPlayerReady, hp]⟩

theorem delPlayer_cases (s : Scene) (cid : ℤ) :
    (s.players.lookup cid = none ∧ s.delPlayer cid = (false, s))
      ∨ ∃ p, s.players.lookup cid = some p ∧ s.delPlayer cid = (true, { s with
          qdtree := s.qdtree.delObject p.qobject
          offlinePlayers :=
            if p.state = .ready then s.offlinePlayers ++ [p] else s.offlinePlayers
          players := s.players.erase cid }) := by
  cases hp : s.players.lookup cid with
  | none => exact Or.inl ⟨rfl, by simp only [delPlayer, hp]⟩
  | some p => exact Or.inr ⟨p, rfl, by simp only [delPlayer, hp]⟩

end Scene

/-- A player is stored back with the same object. -/
theorem Agree.store {tree : QuadState} {ps : Players} (h : Agree tree ps) {id : ℤ}
    {p p' : Player} (hp : ps.lookup id = some p) (hq : p'.qobject = p.qobject) :
    Agree tree (ps.insert id p') := by
  constructor
  · exact h.inv
  · intro k q hk
    rcases eq_or_ne k id with rfl | hne
    · rw [AList.lookup_insert, Option.some.injEq] at hk
      subst hk
      rw [hq]
      exact h.object k p hp
    · rw [AList.lookup_insert_ne hne] at hk
      exact h.object k q hk
  · intro b o ho
    obtain ⟨k, q, hk, hqb⟩ := h.player b o ho
    rcases eq_or_ne k id with rfl | hne
    · rw [hp, Option.some.injEq] at hk
      subst hk
      exact ⟨k, p', AList.lookup_insert ps, hq.trans hqb⟩
    · exact ⟨k, q, by rw [AList.lookup_insert_ne hne, hk], hqb⟩

namespace Scene

variable {s s' : Scene}

/-- Tree and players agree behind a fresh entry. -/
theorem agree_addPlayer (h : Agree s.qdtree s.players) {a : ℕ} (ha : s.qdtree.live a = none)
    {sender : String} {character : Character}
    (hok : s.FreshEntry (.addPlayer a sender character)) :
    Agree (s.addPlayer a sender character).2.qdtree (s.addPlayer a sender character).2.players := by
  rcases s.addPlayer_cases a sender character with
    heq | ⟨hin, qdtree, o, hins, hlive, hobjectid, heq⟩
  · rw [heq]
    exact h
  · obtain ⟨hnew, h₀, h₁⟩ := hok hin
    rw [heq]
    have hinv := h.inv.insert ha 0 (UInt64.ofInt character.characterID)
      ((s.cfg.locate character).objbox (s.cfg.locate character).locX
        (s.cfg.locate character).locY)
    rw [hins] at hinv
    refine h.enter hinv ha hlive hnew ?_ rfl
    rw [hobjectid]
    exact toNat_ofInt h₀ h₁

theorem agree_step (h : Agree s.qdtree s.players) {call : Call} (hok : s.FreshEntry call)
    (hstep : s.step call = some s') : Agree s'.qdtree s'.players := by
  cases call with
  | addPlayer a sender character =>
      simp only [step] at hstep
      split at hstep
      · rename_i ha
        rw [Option.some.injEq] at hstep
        subst hstep
        exact agree_addPlayer h ha hok
      · cases hstep
  | setPlayerReady cid =>
      simp only [step, Option.some.injEq] at hstep
      subst hstep
      rcases s.setPlayerReady_cases cid with ⟨-, heq⟩ | ⟨p, hp, heq⟩
      · rw [heq]
        exact h
      · rw [heq]
        exact h.store hp rfl
  | updatePos cid x y =>
      rcases updatePos_cases h cid x y with ⟨-, heq⟩ | ⟨p, character, rv, qdtree, hp, -, hag, heq⟩
      · simp only [step, heq, Option.map_some, Option.some.injEq] at hstep
        exact hstep ▸ h
      · simp only [step, heq, Option.map_some, Option.some.injEq] at hstep
        subst hstep
        exact hag.store hp rfl
  | delPlayer cid =>
      simp only [step, Option.some.injEq] at hstep
      subst hstep
      rcases s.delPlayer_cases cid with ⟨-, heq⟩ | ⟨p, hp, heq⟩
      · rw [heq]
        exact h
      · rw [heq]
        exact h.leave hp
  | pushSynPosMsgs keys order =>
      simp only [step] at hstep
      split_ifs at hstep with hkeys
      obtain ⟨s₁, hpush, htree, hsame⟩ := pushSynPosMsgs_same h hkeys order
      rw [hpush, Option.some.injEq] at hstep
      subst hstep
      rw [htree]
      exact h.same hsame
  | sendSceneFrame keys =>
      simp only [step] at hstep
      split_ifs at hstep
      rw [Option.some.injEq] at hstep
      subst hstep
      exact h.same (SamePlayers.foldl sendFrame_same keys s.players)

/-- `add_player` does not change the box of the root. -/
theorem root_box_addPlayer (s : Scene) (a : ℕ) (sender : String) (character : Character) :
    (s.addPlayer a sender character).2.qdtree.root.box = s.qdtree.root.box := by
  rcases s.addPlayer_cases a sender character with heq | ⟨-, qdtree, o, hins, -, -, heq⟩
  · rw [heq]
  · rw [heq]
    have hbox := s.qdtree.root_box_insert a 0 (UInt64.ofInt character.characterID)
      ((s.cfg.locate character).objbox (s.cfg.locate character).locX
        (s.cfg.locate character).locY)
    rw [hins] at hbox
    exact hbox

/-- Neither does `update_pos`. -/
theorem root_box_updatePos {cid : ℤ} {x y : ℚ} {r : Bool × Scene}
    (h : s.updatePos cid x y = some r) : r.2.qdtree.root.box = s.qdtree.root.box := by
  unfold updatePos at h
  split at h
  · cases h
    rfl
  · obtain ⟨object, -, heq⟩ := Option.map_eq_some_iff.mp h
    rename_i player _
    have hbox := s.qdtree.root_box_update player.qobject object (player.character.objbox x y)
    dsimp only at heq
    split_ifs at heq
    · cases heq
      exact hbox
    · cases heq
      exact hbox

/-- No call changes the box of the root. -/
theorem root_box_step {s s' : Scene} {call : Call} (hstep : s.step call = some s') :
    s'.qdtree.root.box = s.qdtree.root.box := by
  cases call with
  | addPlayer a sender character =>
      simp only [step] at hstep
      split at hstep
      · cases hstep
        exact s.root_box_addPlayer a sender character
      · cases hstep
  | setPlayerReady cid =>
      simp only [step, Option.some.injEq] at hstep
      subst hstep
      unfold setPlayerReady
      split <;> rfl
  | updatePos cid x y =>
      obtain ⟨r, hupdate, rfl⟩ := Option.map_eq_some_iff.mp hstep
      exact root_box_updatePos hupdate
  | delPlayer cid =>
      simp only [step, Option.some.injEq] at hstep
      subst hstep
      rcases s.delPlayer_cases cid with ⟨-, heq⟩ | ⟨p, hp, heq⟩
      · rw [heq]
      · rw [heq]
        exact QuadNode.box_listDel _
  | pushSynPosMsgs keys order =>
      simp only [step] at hstep
      split_ifs at hstep
      obtain ⟨players, -, hrest⟩ := Option.bind_eq_some_iff.mp hstep
      cases hrest
      rfl
  | sendSceneFrame keys =>
      simp only [step] at hstep
      split_ifs at hstep
      cases hstep
      rfl

theorem agree_make (cfg : SceneCfg) : Agree (make cfg).qdtree (make cfg).players := by
  constructor
  · exact QuadState.create_inv cfg.valid 5 (by norm_num [sceneOverlap])
      (by norm_num [sceneOverlap])
  · intro k p hp
    cases hp
  · intro a o ho
    cases ho

/-- **The tree and the players agree.**  After any sequence of calls in which who enters is new,
each player's object is in the lists of the tree once and carries its id, the lists hold nothing
else, every id that a search returns is a key, and `PushSynPosMsgs` does not raise.  The root box,
inside of which players are taken, is the map widened by half the overlap on each side. -/
theorem scene_tree_agree (cfg : SceneCfg) {s : Scene} (hs : Reach step FreshEntry (make cfg) s) :
    (∀ k p, s.players.lookup k = some p →
        (s.qdtree.root.nodes.flatMap Prod.snd).count p.qobject = 1
          ∧ ∃ o, s.qdtree.live p.qobject = some o ∧ (o.objectid.toNat : ℤ) = k)
      ∧ (∀ a ∈ s.qdtree.root.nodes.flatMap Prod.snd,
        ∃ k p, s.players.lookup k = some p ∧ p.qobject = a)
      ∧ (∀ k k' p p', s.players.lookup k = some p → s.players.lookup k' = some p' →
        p.qobject = p'.qobject → k = k')
      ∧ (∀ box maxnum, ∀ id ∈ s.qdtree.searchIds box maxnum, id ∈ s.players)
      ∧ (∀ keys order, keys.Perm s.players.keys → ∃ s', s.pushSynPosMsgs keys order = some s')
      ∧ s.qdtree.root.box
        = cfg.box.inflate (cfg.box.width * sceneOverlap) (cfg.box.height * sceneOverlap) := by
  have hroot := hs.invariant
    (fun s => s.qdtree.root.box
      = cfg.box.inflate (cfg.box.width * sceneOverlap) (cfg.box.height * sceneOverlap))
    rfl fun _ _ _ hbox _ hstep => (root_box_step hstep).trans hbox
  have hagree : Agree s.qdtree s.players :=
    hs.invariant (fun s => Agree s.qdtree s.players) (agree_make cfg)
      fun _ _ _ hag hok hstep => agree_step hag hok hstep
  rw [QuadNode.nodes_flatMap]
  refine ⟨?_, ?_, ?_, ?_, ?_, hroot⟩
  · intro k p hp
    obtain ⟨o, ho, hk⟩ := hagree.object k p hp
    have hmem : p.qobject ∈ s.qdtree.root.objects := (hagree.inv.mem_iff _).mpr ⟨o, ho⟩
    exact ⟨List.count_eq_one_of_mem hagree.inv.nodup hmem, o, ho, hk⟩
  · intro a ha
    obtain ⟨o, ho⟩ := (hagree.inv.mem_iff a).mp ha
    exact hagree.player a o ho
  · intro k k' p p' hp hp' heq
    exact hagree.qobject_inj hp hp' heq
  · intro box maxnum id hid
    exact hagree.mem_of_searchIds hid
  · intro keys order hkeys
    obtain ⟨s', hpush, -⟩ := pushSynPosMsgs_same hagree hkeys order
    exact ⟨s', hpush⟩

end Scene

/-- A map with its start location in the middle. -/
def smallMap : SceneCfg where
  box := ⟨0, 0, 1000, 1000⟩
  startlocX := 500
  startlocY := 500
  valid := by norm_num [Box.Valid]

namespace Scene

/-- Two players of a map, of which one has moved and one has gone. -/
theorem scene_tree_agree_two :
    ∃ s, Reach step FreshEntry (make smallMap) s
      ∧ s.players.keys = [7]
      ∧ ∀ box maxnum, ∀ id ∈ s.qdtree.searchIds box maxnum, id ∈ s.players := by
  have hrun : (run step FreshEntry (make smallMap)
      [.addPlayer 1 "a" ⟨7, "", "", 0, 0, 10, 10⟩, .addPlayer 2 "b" ⟨8, "", "", 20, 20, 10, 10⟩,
        .updatePos 7 900 900, .delPlayer 8]).map
        (fun s => s.players.keys) = some [7] := by
    decide +kernel
  obtain ⟨s, hs, hkeys⟩ := Option.map_eq_some_iff.mp hrun
  have hreach : Reach step FreshEntry (make smallMap) s :=
    Reach.refl.run _ hs
  exact ⟨s, hreach, hkeys, (scene_tree_agree _ hreach).2.2.2.1⟩

/-- A player that enters again leaves its first object in the tree.  When the player has gone, a
search still finds its id. -/
theorem entered_twice :
    ∃ s, Reach step Always (make smallMap) s
      ∧ s.players.keys = [7]
      ∧ s.qdtree.root.nodes.flatMap Prod.snd = [2, 1]
      ∧ (s.delPlayer 7).2.players.keys = []
      ∧ (s.delPlayer 7).2.qdtree.searchIds ⟨0, 0, 1000, 1000⟩ 1000 = [7] := by
  have hrun : (run step Always (make smallMap)
      [.addPlayer 1 "a" ⟨7, "", "", 0, 0, 10, 10⟩,
        .addPlayer 2 "b" ⟨7, "", "", 0, 0, 10, 10⟩]).map
        (fun s => (s.players.keys, s.qdtree.root.nodes.flatMap Prod.snd,
          (s.delPlayer 7).2.players.keys,
          (s.delPlayer 7).2.qdtree.searchIds ⟨0, 0, 1000, 1000⟩ 1000))
        = some ([7], [2, 1], [], [7]) := by
    decide +kernel
  obtain ⟨s, hs, hobs⟩ := Option.map_eq_some_iff.mp hrun
  simp only [Prod.mk.injEq] at hobs
  exact ⟨s, Reach.refl.run _ hs, hobs⟩

end Scene

end Zevent.Webgame

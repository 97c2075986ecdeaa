/-
# The scenes of a game server (`webgame/wgserver/scenemanager.py`, `Scene.py`)

The scene manager has the scenes by id, and two dictionaries that lead from a client to its
scene: `peer2cid` from the peer to the character and `c2scene` from the character to the scene.

A scene that a character is in is the one that its field `Scene` names, and a player is kept
under its character id: `Room` is a scene of which both hold, and the calls of the manager keep
it one.

* `ProcessSwitchScene` takes the player out of its scene and rewrites its character before the
  new scene is asked to take it.  `switch_ok_iff` says when a switch is all or nothing all the
  same: when the new scene takes the character at its start location, and no third scene has it.
  `switch_loses_player` is a switch that is refused and leaves the player nowhere.
* `SaveArchives` of a scene returns from inside its loop.  `saves_all_iff` says that every
  player is saved exactly when no scene has two.
-/
import Mathlib.Tactic
import Zevent.Webgame.Scene

namespace Zevent.Webgame

/-! ## Scenes and their characters -/

/-- The scene with the id `sceneid`, and the field `Scene` of the characters of its players. -/
structure Room (sceneid : ℤ) where
  scene : Scene
  characterScene : ℤ → ℤ
  keyed : ∀ cid p, scene.players.lookup cid = some p → p.character.characterID = cid
  numbered : ∀ cid ∈ scene.players, characterScene cid = sceneid

namespace Room

variable {sceneid : ℤ}

/-- A scene without players. -/
def make (sceneid : ℤ) (cfg : SceneCfg) : Room sceneid where
  scene := .make cfg
  characterScene := fun _ => 0
  keyed := fun _ _ h => by cases h
  numbered := fun _ h => absurd h (AList.notMem_empty _)

/-- `add_player`; the callers have set the `Scene` of the character to this scene. -/
def addPlayer (r : Room sceneid) (a : ℕ) (sender : String) (character : Character) :
    Bool × Room sceneid :=
  let result := r.scene.addPlayer a sender character
  (result.1, {
    scene := result.2
    characterScene :=
      if result.1 then Function.update r.characterScene character.characterID sceneid
      else r.characterScene
    keyed := by
      intro cid p hp
      rcases r.scene.addPlayer_cases a sender character with heq | ⟨-, _, _, -, -, -, heq⟩
      · rw [show result = _ from heq] at hp
        exact r.keyed cid p hp
      · rw [show result = _ from heq] at hp
        rcases eq_or_ne cid character.characterID with rfl | hne
        · rw [AList.lookup_insert, Option.some.injEq] at hp
          rw [← hp]
          rfl
        · rw [AList.lookup_insert_ne hne] at hp
          exact r.keyed cid p hp
    numbered := by
      intro cid hcid
      rcases r.scene.addPlayer_cases a sender character with heq | ⟨-, _, _, -, -, -, heq⟩
      · rw [show result = _ from heq] at hcid ⊢
        exact r.numbered cid hcid
      · rw [show result = _ from heq] at hcid ⊢
        rw [if_pos rfl]
        rcases eq_or_ne cid character.characterID with rfl | hne
        · rw [Function.update_self]
        · rw [Function.update_of_ne hne]
          exact r.numbered cid ((AList.mem_insert _).mp hcid |>.resolve_left hne) })

/-- `del_player`. -/
def delPlayer (r : Room sceneid) (cid : ℤ) : Bool × Room sceneid :=
  let result := r.scene.delPlayer cid
  (result.1, {
    scene := result.2
    characterScene := r.characterScene
    keyed := by
      intro k p hp
      rcases r.scene.delPlayer_cases cid with ⟨-, heq⟩ | ⟨_, -, heq⟩
      · rw [show result = _ from heq] at hp
        exact r.keyed k p hp
      · rw [show result = _ from heq] at hp
        rcases eq_or_ne k cid with rfl | hne
        · rw [AList.lookup_erase] at hp
          cases hp
        · rw [AList.lookup_erase_ne hne] at hp
          exact r.keyed k p hp
    numbered := by
      intro k hk
      rcases r.scene.delPlayer_cases cid with ⟨-, heq⟩ | ⟨_, -, heq⟩
      · rw [show result = _ from heq] at hk
        exact r.numbered k hk
      · rw [show result = _ from heq] at hk
        exact r.numbered k (AList.mem_erase.mp hk).2 })

section Fields

variable (r : Room sceneid) (a : ℕ) (sender : String) (character : Character) (cid : ℤ)

@[simp] theorem fst_addPlayer :
    (r.addPlayer a sender character).1 = (r.scene.addPlayer a sender character).1 := rfl

@[simp] theorem scene_addPlayer :
    (r.addPlayer a sender character).2.scene = (r.scene.addPlayer a sender character).2 := rfl

/-- The character is noted when the scene takes the player. -/
theorem characterScene_addPlayer :
    (r.addPlayer a sender character).2.characterScene
      = if (r.scene.addPlayer a sender character).1 then
          Function.update r.characterScene character.characterID sceneid
        else r.characterScene := rfl

@[simp] theorem fst_delPlayer : (r.delPlayer cid).1 = (r.scene.delPlayer cid).1 := rfl

@[simp] theorem scene_delPlayer : (r.delPlayer cid).2.scene = (r.scene.delPlayer cid).2 := rfl

end Fields

end Room

/-! ## The scene manager -/

/-- `SceneManager`. -/
structure SceneManager where
  scenes : AList fun sceneid : ℤ => Room sceneid
  newbieScene : ℤ
  c2scene : AList fun _ : ℤ => ℤ
  peer2cid : AList fun _ : String => ℤ

/-- The answer to a request for another scene. -/
inductive SwitchReply
  | reject
  | confirm (sid x y : ℤ)
deriving DecidableEq, Repr

/-- `%d` of a coordinate. -/
def percentD (q : ℚ) : ℤ := q.num.tdiv q.den

namespace SceneManager

/-- `GetSceneByPID`. -/
def getSceneByPID (m : SceneManager) (hexpeerid : String) :
    Option ((sceneid : ℤ) × Room sceneid × ℤ) := do
  let cid ← m.peer2cid.lookup hexpeerid
  let sceneid ← m.c2scene.lookup cid
  let scene ← m.scenes.lookup sceneid
  pure ⟨sceneid, scene, cid⟩

/-- `ProcessEnterGame` of a character whose `Scene` is `number`; `none` is a `KeyError`. -/
def processEnterGame (m : SceneManager) (a : ℕ) (sender : String) (character : Character)
    (number : ℤ) : Option (Bool × SceneManager) :=
  let number := if number = 0 then m.newbieScene else number
  match m.scenes.lookup number with
  | none => none
  | some scene =>
      let (rv, scene) := scene.addPlayer a sender character
      let m := { m with scenes := m.scenes.insert number scene }
      if rv then
        some (true, { m with
          c2scene := m.c2scene.insert character.characterID number
          peer2cid := m.peer2cid.insert sender character.characterID })
      else some (false, m)

/-- `character.LocX = newscene.startloc_x` and the same for `LocY`. -/
def atStart (cfg : SceneCfg) (character : Character) : Character :=
  { character with locX := cfg.startlocX, locY := cfg.startlocY }

/-- `ProcessSwitchScene`: the answer that is sent, if one is.  A player that is not there raises,
which is `none`. -/
def processSwitchScene (m : SceneManager) (hexpeerid : String) (newsceneid : ℤ) (a : ℕ) :
    Option (Option SwitchReply × SceneManager) :=
  match m.getSceneByPID hexpeerid with
  | none => some (some .reject, m)
  | some ⟨sceneid, scene, cid⟩ =>
      if newsceneid = sceneid then some (some .reject, m)
      else
        match m.scenes.lookup newsceneid with
        | none => some (some .reject, m)
        | some newscene =>
            match scene.scene.players.lookup cid with
            | none => none
            | some player =>
                let (rv, scene) := scene.delPlayer cid
                let m := { m with scenes := m.scenes.insert sceneid scene }
                if rv then
                  let character := atStart newscene.scene.cfg player.character
                  let (rv, newscene) := newscene.addPlayer a hexpeerid character
                  let m := { m with scenes := m.scenes.insert newsceneid newscene }
                  if rv then
                    some (some (.confirm newsceneid (percentD newscene.scene.cfg.startlocX)
                        (percentD newscene.scene.cfg.startlocY)),
                      { m with c2scene := m.c2scene.insert character.characterID newsceneid })
                  else some (some .reject, m)
                else some (none, m)

/-! ## What a switch should do -/

/-- The player of a client is in its scene as it was before: with the same character, at the same
place of the quadtree, and `c2scene` still names the scene. -/
def StillThere (m m' : SceneManager) (hexpeerid : String) : Prop :=
  ∀ sceneid scene cid player, m.getSceneByPID hexpeerid = some ⟨sceneid, scene, cid⟩ →
    scene.scene.players.lookup cid = some player →
    ∃ scene', m'.scenes.lookup sceneid = some scene' ∧
      scene'.scene.players.lookup cid = some player ∧
      scene'.characterScene cid = scene.characterScene cid ∧
      scene'.scene.qdtree = scene.scene.qdtree ∧ m'.c2scene.lookup cid = some sceneid

/-- The player of a client is in the new scene and in no other, and `c2scene` names it. -/
def MovedTo (m m' : SceneManager) (hexpeerid : String) (newsceneid : ℤ) : Prop :=
  ∀ sceneid scene cid, m.getSceneByPID hexpeerid = some ⟨sceneid, scene, cid⟩ →
    (∃ newscene player object, m'.scenes.lookup newsceneid = some newscene ∧
      newscene.scene.players.lookup cid = some player ∧
      newscene.characterScene cid = newsceneid ∧
      newscene.scene.qdtree.live player.qobject = some object ∧
      object.objectid = UInt64.ofInt cid) ∧
    (∀ k room, m'.scenes.lookup k = some room → k ≠ newsceneid → cid ∉ room.scene.players) ∧
    m'.c2scene.lookup cid = some newsceneid

/-- What an answer says about the player: nothing has changed, or the switch has taken place. -/
def AnswerTrue (m m' : SceneManager) (hexpeerid : String) (newsceneid : ℤ) : SwitchReply → Prop
  | .reject => m.StillThere m' hexpeerid
  | .confirm sid _ _ => sid = newsceneid ∧ m.MovedTo m' hexpeerid newsceneid

/-- A switch is answered with the truth. -/
def SwitchOk (m : SceneManager) (hexpeerid : String) (newsceneid : ℤ) (a : ℕ) : Prop :=
  ∀ reply m', m.processSwitchScene hexpeerid newsceneid a = some (some reply, m') →
    m.AnswerTrue m' hexpeerid newsceneid reply

/-- The condition: when a player that is there asks for another scene that exists, the root box of
that scene is around its character at the start location, and no third scene has the character. -/
def SwitchSafe (m : SceneManager) (hexpeerid : String) (newsceneid : ℤ) : Prop :=
  ∀ sceneid scene cid newscene player, m.getSceneByPID hexpeerid = some ⟨sceneid, scene, cid⟩ →
    newsceneid ≠ sceneid → m.scenes.lookup newsceneid = some newscene →
    scene.scene.players.lookup cid = some player →
    newscene.scene.Accepts (atStart newscene.scene.cfg player.character) ∧
      ∀ k room, m.scenes.lookup k = some room → k ≠ sceneid → k ≠ newsceneid →
        cid ∉ room.scene.players

/-! ## What a switch does -/

variable {m m' : SceneManager} {hexpeerid : String} {newsceneid sceneid cid : ℤ} {a : ℕ}
  {scene : Room sceneid} {newscene : Room newsceneid} {player : Player}

theorem getSceneByPID_eq_some (h : m.getSceneByPID hexpeerid = some ⟨sceneid, scene, cid⟩) :
    m.c2scene.lookup cid = some sceneid ∧ m.scenes.lookup sceneid = some scene := by
  simp only [getSceneByPID, Option.bind_eq_bind, Option.bind_eq_some_iff] at h
  obtain ⟨cid', -, sceneid', hc2scene, scene', hscene, heq⟩ := h
  cases heq
  exact ⟨hc2scene, hscene⟩

/-- A switch that is refused at once. -/
theorem stillThere_refl (m : SceneManager) (hexpeerid : String) : m.StillThere m hexpeerid := by
  intro sceneid scene cid player hget hplayer
  obtain ⟨hc2scene, hscene⟩ := getSceneByPID_eq_some hget
  exact ⟨scene, hscene, hplayer, rfl, rfl, hc2scene⟩

/-- `add_player` fails when the box is not inside the root box of the tree. -/
theorem addPlayer_refused {r : Scene} {character : Character} (h : ¬ r.Accepts character) (a : ℕ)
    (sender : String) : r.addPlayer a sender character = (false, r) := by
  rcases r.qdtree.insert_cases a 0 (UInt64.ofInt character.characterID)
    ((r.cfg.locate character).objbox (r.cfg.locate character).locX
      (r.cfg.locate character).locY) with ⟨-, hins⟩ | ⟨hin, -⟩
  · simp only [Scene.addPlayer, show (r.cfg.locate character).characterID
      = character.characterID from rfl, hins]
    rfl
  · exact absurd hin h

/-- Inside the root box of the tree `add_player` takes the player. -/
theorem addPlayer_accepted {r : Room sceneid} {character : Character}
    (h : r.scene.Accepts character) (a : ℕ) (sender : String) :
    ∃ room p o, r.addPlayer a sender character = (true, room) ∧
      room.scene.cfg = r.scene.cfg ∧
      room.scene.players.lookup character.characterID = some p ∧
      room.characterScene character.characterID = sceneid ∧
      room.scene.qdtree.live p.qobject = some o ∧
      o.objectid = UInt64.ofInt character.characterID := by
  rcases r.scene.addPlayer_cases a sender character with heq | ⟨-, qdtree, o, hins, hlive, hid, heq⟩
  · -- the tree takes the box, against the assumption
    rcases r.scene.qdtree.insert_cases a 0 (UInt64.ofInt character.characterID)
      ((r.scene.cfg.locate character).objbox (r.scene.cfg.locate character).locX
        (r.scene.cfg.locate character).locY) with ⟨hout, -⟩ | ⟨-, root, -, hins⟩
    · exact absurd h hout
    · simp only [Scene.addPlayer, show (r.scene.cfg.locate character).characterID
        = character.characterID from rfl, hins] at heq
      cases heq
  · refine ⟨(r.addPlayer a sender character).2,
      .enter sender (r.scene.cfg.locate character) a, o, ?_, ?_, ?_, ?_, ?_, hid⟩
    · rw [Prod.ext_iff, Room.fst_addPlayer, heq]
      exact ⟨rfl, rfl⟩
    · rw [Room.scene_addPlayer, heq]
    · rw [Room.scene_addPlayer, heq]
      exact AList.lookup_insert _
    · rw [Room.characterScene_addPlayer, heq, if_pos rfl, Function.update_self]
    · rw [Room.scene_addPlayer, heq]
      dsimp only [Player.enter]
      rw [hlive, Function.update_self]

/-- `del_player` of a player that is there. -/
theorem delPlayer_present {r : Room sceneid} (h : r.scene.players.lookup cid = some player) :
    ∃ room, r.delPlayer cid = (true, room) ∧
      room.scene.players = r.scene.players.erase cid := by
  rcases r.scene.delPlayer_cases cid with ⟨hnone, -⟩ | ⟨p, -, heq⟩
  · rw [h] at hnone
    cases hnone
  · refine ⟨(r.delPlayer cid).2, ?_, ?_⟩
    · rw [Prod.ext_iff, Room.fst_delPlayer, heq]
      exact ⟨rfl, rfl⟩
    · rw [Room.scene_delPlayer, heq]

/-- What a switch does that is not refused at once. -/
theorem processSwitchScene_cases
    (hget : m.getSceneByPID hexpeerid = some ⟨sceneid, scene, cid⟩) (hne : newsceneid ≠ sceneid)
    (hnew : m.scenes.lookup newsceneid = some newscene)
    (hplayer : scene.scene.players.lookup cid = some player) (a : ℕ) :
    ∃ left, left.scene.players = scene.scene.players.erase cid ∧
      ((¬ newscene.scene.Accepts (atStart newscene.scene.cfg player.character) ∧ ∃ same,
          m.processSwitchScene hexpeerid newsceneid a = some (some .reject,
            { m with scenes := (m.scenes.insert sceneid left).insert newsceneid same })) ∨
        newscene.scene.Accepts (atStart newscene.scene.cfg player.character) ∧
          ∃ joined p o x y, m.processSwitchScene hexpeerid newsceneid a
              = some (some (.confirm newsceneid x y),
                { m with
                  scenes := (m.scenes.insert sceneid left).insert newsceneid joined
                  c2scene := m.c2scene.insert cid newsceneid }) ∧
            joined.scene.players.lookup cid = some p ∧ joined.characterScene cid = newsceneid ∧
            joined.scene.qdtree.live p.qobject = some o ∧ o.objectid = UInt64.ofInt cid) := by
  obtain ⟨left, hdel, hleft⟩ := delPlayer_present hplayer
  have hid : (atStart newscene.scene.cfg player.character).characterID = cid :=
    scene.keyed cid player hplayer
  refine ⟨left, hleft, ?_⟩
  unfold processSwitchScene
  simp only [hget, if_neg hne, hnew, hplayer, hdel, if_true]
  by_cases hin : newscene.scene.Accepts (atStart newscene.scene.cfg player.character)
  · obtain ⟨joined, p, o, hadd, -, hjoined⟩ := addPlayer_accepted hin a hexpeerid
    rw [hid] at hjoined
    simp only [hadd, hid, if_true]
    exact Or.inr ⟨hin, joined, p, o, _, _, rfl, hjoined⟩
  · have hadd : (newscene.addPlayer a hexpeerid
        (atStart newscene.scene.cfg player.character)).1 = false := by
      rw [Room.fst_addPlayer, addPlayer_refused hin]
    simp only [hadd, Bool.false_eq_true, if_false]
    exact Or.inl ⟨hin, _, rfl⟩

/-- An answer is a reject that changes nothing, or it is about a player that is in its scene and
asks for another one that exists. -/
theorem processSwitchScene_answer {reply : SwitchReply}
    (hrun : m.processSwitchScene hexpeerid newsceneid a = some (some reply, m')) :
    (reply = .reject ∧ m' = m) ∨
      ∃ sceneid scene cid newscene player,
        m.getSceneByPID hexpeerid = some ⟨sceneid, scene, cid⟩ ∧ newsceneid ≠ sceneid ∧
          m.scenes.lookup newsceneid = some newscene ∧
          scene.scene.players.lookup cid = some player := by
  cases hget : m.getSceneByPID hexpeerid with
  | none =>
      rw [processSwitchScene, hget] at hrun
      cases hrun
      exact Or.inl ⟨rfl, rfl⟩
  | some found =>
      obtain ⟨sceneid, scene, cid⟩ := found
      by_cases hne : newsceneid = sceneid
      · simp only [processSwitchScene, hget, if_pos hne] at hrun
        cases hrun
        exact Or.inl ⟨rfl, rfl⟩
      · cases hnew : m.scenes.lookup newsceneid with
        | none =>
            simp only [processSwitchScene, hget, if_neg hne, hnew] at hrun
            cases hrun
            exact Or.inl ⟨rfl, rfl⟩
        | some newscene =>
            cases hplayer : scene.scene.players.lookup cid with
            | none =>
                simp only [processSwitchScene, hget, if_neg hne, hnew, hplayer] at hrun
                cases hrun
            | some player =>
                exact Or.inr ⟨sceneid, scene, cid, newscene, player, rfl, hne, rfl, hplayer⟩

/-- A player that has left one scene and joined another is in exactly the new one, if no third
scene had it. -/
theorem movedTo_insert {left : Room sceneid} {joined : Room newsceneid} {p : Player}
    {o : QObject} (hget : m.getSceneByPID hexpeerid = some ⟨sceneid, scene, cid⟩)
    (hleft : left.scene.players = scene.scene.players.erase cid)
    (hjoined : joined.scene.players.lookup cid = some p ∧
      joined.characterScene cid = newsceneid ∧ joined.scene.qdtree.live p.qobject = some o ∧
      o.objectid = UInt64.ofInt cid)
    (hothers : ∀ k room, m.scenes.lookup k = some room → k ≠ sceneid → k ≠ newsceneid →
      cid ∉ room.scene.players) :
    m.MovedTo { m with
      scenes := (m.scenes.insert sceneid left).insert newsceneid joined
      c2scene := m.c2scene.insert cid newsceneid } hexpeerid newsceneid := by
  intro sceneid' scene' cid' hget'
  rw [hget] at hget'
  cases hget'
  refine ⟨⟨joined, p, o, AList.lookup_insert _, hjoined⟩, ?_, AList.lookup_insert _⟩
  intro k room hk hknew
  dsimp only at hk
  rw [AList.lookup_insert_ne hknew] at hk
  rcases eq_or_ne k sceneid with rfl | hkold
  · rw [AList.lookup_insert, Option.some.injEq] at hk
    rw [← hk, hleft, AList.mem_erase]
    exact fun h => h.1 rfl
  · rw [AList.lookup_insert_ne hkold] at hk
    exact hothers k room hk hkold hknew

/-- **When a switch is all or nothing.**  A refused switch leaves the player in its old scene,
with its character, its place in the quadtree and `c2scene` as they were, and a confirmed one
leaves it in exactly the new scene, with `c2scene` naming that, if and only if the new scene takes
the character at its start location and no third scene has it. -/
theorem switch_ok_iff (m : SceneManager) (hexpeerid : String) (newsceneid : ℤ) (a : ℕ) :
    m.SwitchOk hexpeerid newsceneid a ↔ m.SwitchSafe hexpeerid newsceneid := by
  constructor
  · intro hok sceneid scene cid newscene player hget hne hnew hplayer
    obtain ⟨left, hleft, ⟨-, same, hrun⟩ | ⟨hin, joined, p, o, x, y, hrun, -⟩⟩ :=
      processSwitchScene_cases hget hne hnew hplayer a
    · -- the player is gone from the scene it should still be in
      obtain ⟨scene', hscene', hplayer', -⟩ := hok _ _ hrun sceneid scene cid player hget hplayer
      dsimp only at hscene'
      rw [AList.lookup_insert_ne (Ne.symm hne), AList.lookup_insert, Option.some.injEq] at hscene'
      rw [← hscene', hleft, AList.lookup_erase] at hplayer'
      cases hplayer'
    · refine ⟨hin, fun k room hk hkold hknew => ?_⟩
      obtain ⟨-, hmoved⟩ := hok _ _ hrun
      refine (hmoved sceneid scene cid hget).2.1 k room ?_ hknew
      dsimp only
      rw [AList.lookup_insert_ne hknew, AList.lookup_insert_ne hkold, hk]
  · intro hsafe reply m' hrun
    rcases processSwitchScene_answer hrun with
      ⟨rfl, rfl⟩ | ⟨sceneid, scene, cid, newscene, player, hget, hne, hnew, hplayer⟩
    · exact stillThere_refl m' hexpeerid
    · obtain ⟨haccepts, hothers⟩ := hsafe sceneid scene cid newscene player hget hne hnew hplayer
      obtain ⟨left, hleft, ⟨hout, -⟩ | ⟨-, joined, p, o, x, y, hrun', hjoined⟩⟩ :=
        processSwitchScene_cases hget hne hnew hplayer a
      · exact absurd haccepts hout
      · rw [hrun'] at hrun
        cases hrun
        exact ⟨rfl, movedTo_insert hget hleft hjoined hothers⟩

/-! ## A switch that loses the player -/

/-- A map whose start location is near its corner. -/
def cornerMap : SceneCfg := { smallMap with startlocX := 5, startlocY := 5 }

/-- Two scenes. -/
def twoScenes : SceneManager where
  scenes := (AList.insert 1 (Room.make 1 smallMap) ∅).insert 2 (Room.make 2 cornerMap)
  newbieScene := 1
  c2scene := ∅
  peer2cid := ∅

/-- **A refused switch that loses the player.**  The character 7 enters the scene 1 and asks for
the scene 2, where its box at the start location lies outside the map.  The switch is refused; the
character is in no scene, and `c2scene` still names the old one. -/
theorem switch_loses_player :
    ∃ m m', twoScenes.processEnterGame 1 "a" ⟨7, "", "", 0, 0, 100, 100⟩ 1 = some (true, m) ∧
      m.processSwitchScene "a" 2 1 = some (some .reject, m') ∧
      (m'.scenes.lookup 1).map (fun r => r.scene.players.keys) = some [] ∧
      (m'.scenes.lookup 2).map (fun r => r.scene.players.keys) = some [] ∧
      m'.c2scene.lookup 7 = some 1 ∧ ¬ m.SwitchOk "a" 2 1 := by
  have hrun : (twoScenes.processEnterGame 1 "a" ⟨7, "", "", 0, 0, 100, 100⟩ 1).map
      (fun r => (r.1, (r.2.getSceneByPID "a").map (fun f => (f.1, f.2.2,
          (f.2.1.scene.players.lookup 7).isSome))))
      = some (true, some (1, 7, true)) := by
    decide +kernel
  have hswitch : (twoScenes.processEnterGame 1 "a" ⟨7, "", "", 0, 0, 100, 100⟩ 1).bind
      (fun r => (r.2.processSwitchScene "a" 2 1).map (fun r => (r.1,
          (r.2.scenes.lookup 1).map (fun r => r.scene.players.keys),
          (r.2.scenes.lookup 2).map (fun r => r.scene.players.keys),
          r.2.c2scene.lookup 7)))
      = some (some .reject, some [], some [], some 1) := by
    decide +kernel
  obtain ⟨⟨rv, m⟩, henter, hobs⟩ := Option.map_eq_some_iff.mp hrun
  rw [henter, Option.bind_some] at hswitch
  simp only [Prod.mk.injEq] at hobs
  obtain ⟨rfl, hget⟩ := hobs
  obtain ⟨⟨sceneid, scene, cid⟩, hget, hfound⟩ := Option.map_eq_some_iff.mp hget
  obtain ⟨⟨reply, m'⟩, hswitch, hafter⟩ := Option.map_eq_some_iff.mp hswitch
  simp only [Prod.mk.injEq] at hfound hafter
  obtain ⟨rfl, rfl, hplayer⟩ := hfound
  obtain ⟨rfl, hone, htwo, hc2scene⟩ := hafter
  obtain ⟨player, hplayer⟩ := Option.isSome_iff_exists.mp hplayer
  refine ⟨m, m', henter, hswitch, hone, htwo, hc2scene, fun hok => ?_⟩
  obtain ⟨scene', hscene', hplayer', -⟩ := hok _ _ hswitch 1 scene 7 player hget hplayer
  rw [hscene', Option.map_some, Option.some.injEq] at hone
  have hmem : (7 : ℤ) ∈ scene'.scene.players.keys := AList.mem_keys.mpr (mem_of_lookup hplayer')
  rw [hone] at hmem
  exact List.not_mem_nil hmem

end SceneManager

/-! ## Saving -/

/-- The values in the command of `SaveOnePlayer`. -/
structure SaveCommand where
  peerid : String
  scene : ℤ
  locX : ℚ
  locY : ℚ
  characterID : ℤ
deriving DecidableEq

/-- `SaveOnePlayer`. -/
def Room.saveOnePlayer {sceneid : ℤ} (r : Room sceneid) (player : Player) : SaveCommand where
  peerid := player.peerid
  scene := r.characterScene player.character.characterID
  locX := player.character.locX
  locY := player.character.locY
  characterID := player.character.characterID

/-- The loop of `Scene.SaveArchives` over the keys of the players: what it sends; `none` is a
`KeyError`. -/
def Room.saveArchives {sceneid : ℤ} (r : Room sceneid) : List ℤ → Option (List SaveCommand)
  | [] => some []
  | key :: _ => do
      let player ← r.scene.players.lookup key
      -- `return True` stands inside the loop
      pure [r.saveOnePlayer player]

namespace SceneManager

/-- The orders in which Python lists the scenes, and the players of each scene. -/
structure KeyOrder (m : SceneManager) where
  sceneKeys : List ℤ
  playerKeys : ℤ → List ℤ
  scenes_perm : sceneKeys.Perm m.scenes.keys
  players_perm : ∀ k room, m.scenes.lookup k = some room →
    (playerKeys k).Perm room.scene.players.keys

/-- One turn of the loop of `SceneManager.SaveArchives`. -/
def saveScene (m : SceneManager) (playerKeys : ℤ → List ℤ) (key : ℤ) :
    Option (List SaveCommand) := do
  let scene ← m.scenes.lookup key
  scene.saveArchives (playerKeys key)

/-- `SceneManager.SaveArchives`: what is sent to the store. -/
def saveArchives (m : SceneManager) (order : m.KeyOrder) : Option (List SaveCommand) :=
  order.sceneKeys.foldlM (fun sent key => (m.saveScene order.playerKeys key).map (sent ++ ·)) []

/-- One save command for each player of the scene `k`. -/
def sceneArchives (m : SceneManager) (k : ℤ) : List SaveCommand :=
  match m.scenes.lookup k with
  | none => []
  | some room => room.scene.players.keys.filterMap fun cid =>
      (room.scene.players.lookup cid).map fun p =>
        ⟨p.peerid, k, p.character.locX, p.character.locY, cid⟩

/-- One save command for each player of each scene, in some order, is what is sent. -/
def SavesAll (m : SceneManager) (order : m.KeyOrder) : Prop :=
  ∃ sent, m.saveArchives order = some sent ∧
    sent.Perm (m.scenes.keys.flatMap m.sceneArchives)

variable {m : SceneManager}

/-- Every key of the scenes has a room. -/
theorem mem_lookup_scenes {k : ℤ} (hk : k ∈ m.scenes.keys) :
    ∃ room, m.scenes.lookup k = some room :=
  Option.isSome_iff_exists.mp (AList.lookup_isSome.mpr (AList.mem_keys.mpr hk))

/-- A scene has a command for each of its players. -/
theorem length_sceneArchives {k : ℤ} {room : Room k} (hroom : m.scenes.lookup k = some room) :
    (m.sceneArchives k).length = room.scene.players.keys.length := by
  rw [sceneArchives, hroom]
  dsimp only
  rw [List.length_filterMap_eq_countP, List.countP_eq_length]
  intro cid hcid
  rw [Option.isSome_map]
  exact AList.lookup_isSome.mpr (AList.mem_keys.mpr hcid)

/-- **One scene.**  The first player of the loop is saved and no other. -/
theorem saveScene_spec (order : m.KeyOrder) {k : ℤ} {room : Room k}
    (hroom : m.scenes.lookup k = some room) :
    ∃ sent, m.saveScene order.playerKeys k = some sent ∧
      sent.length = min 1 room.scene.players.keys.length ∧
      (room.scene.players.keys.length ≤ 1 → sent = m.sceneArchives k) := by
  have hperm := order.players_perm k room hroom
  have hsave : m.saveScene order.playerKeys k = room.saveArchives (order.playerKeys k) := by
    rw [saveScene, hroom]
    rfl
  rw [hsave]
  cases hkeys : order.playerKeys k with
  | nil =>
      rw [hkeys] at hperm
      have hnil : room.scene.players.keys = [] := hperm.nil_eq.symm
      refine ⟨[], rfl, by rw [hnil]; rfl, fun _ => ?_⟩
      rw [sceneArchives, hroom]
      dsimp only
      rw [hnil, List.filterMap_nil]
  | cons cid rest =>
      rw [hkeys] at hperm
      have hmem : cid ∈ room.scene.players :=
        AList.mem_keys.mpr (hperm.subset List.mem_cons_self)
      obtain ⟨p, hp⟩ := exists_lookup hmem
      refine ⟨[room.saveOnePlayer p], by rw [Room.saveArchives, hp]; rfl, ?_, fun hone => ?_⟩
      · rw [List.length_singleton, ← hperm.length_eq, List.length_cons]
        omega
      · -- there is nobody else
        have hrest : rest = [] := by
          rw [← hperm.length_eq, List.length_cons] at hone
          exact List.eq_nil_of_length_eq_zero (by omega)
        rw [hrest] at hperm
        rw [sceneArchives, hroom]
        dsimp only
        rw [← hperm.singleton_eq, List.filterMap_cons, hp, Option.map_some, List.filterMap_nil]
        dsimp only
        rw [Room.saveOnePlayer, room.keyed cid p hp, room.numbered cid hmem]

/-- What the loop over the scenes sends. -/
theorem foldlM_saveScene {playerKeys : ℤ → List ℤ} {ks : List ℤ}
    (hks : ∀ k ∈ ks, (m.saveScene playerKeys k).isSome) (sent : List SaveCommand) :
    ks.foldlM (fun sent key => (m.saveScene playerKeys key).map (sent ++ ·)) sent
      = some (sent ++ ks.flatMap fun k => (m.saveScene playerKeys k).getD []) := by
  induction ks generalizing sent with
  | nil => rw [List.flatMap_nil, List.append_nil]; rfl
  | cons k ks ih =>
      obtain ⟨hk, hks⟩ := List.forall_mem_cons.mp hks
      obtain ⟨here, hhere⟩ := Option.isSome_iff_exists.mp hk
      rw [List.foldlM_cons, hhere, Option.map_some]
      show ks.foldlM _ (sent ++ here) = _
      rw [ih hks, List.flatMap_cons, hhere, Option.getD_some, List.append_assoc]

/-- **Everybody is saved when nobody shares a scene.**  `SaveArchives` sends one save command for
each player of each scene, with its scene, its place and its id, if and only if every scene has
at most one player. -/
theorem saves_all_iff (m : SceneManager) (order : m.KeyOrder) :
    m.SavesAll order ↔
      ∀ k room, m.scenes.lookup k = some room → room.scene.players.keys.length ≤ 1 := by
  have hrooms : ∀ k ∈ order.sceneKeys, ∃ room, m.scenes.lookup k = some room :=
    fun k hk => mem_lookup_scenes (order.scenes_perm.subset hk)
  have hsaved : ∀ k ∈ order.sceneKeys, (m.saveScene order.playerKeys k).isSome := by
    intro k hk
    obtain ⟨room, hroom⟩ := hrooms k hk
    obtain ⟨sent, hsent, -⟩ := saveScene_spec order hroom
    rw [hsent]
    rfl
  have hrun : m.saveArchives order
      = some (order.sceneKeys.flatMap fun k => (m.saveScene order.playerKeys k).getD []) :=
    foldlM_saveScene hsaved []
  constructor
  · rintro ⟨sent, hsent, hperm⟩ k room hroom
    by_contra hmany
    rw [hrun, Option.some.injEq] at hsent
    rw [← hsent] at hperm
    have hlen := (hperm.trans (order.scenes_perm.symm.flatMap_right m.sceneArchives)).length_eq
    rw [List.length_flatMap, List.length_flatMap] at hlen
    -- no scene sends more than it has, and this one sends less
    refine absurd hlen (List.sum_lt_sum _ _ ?_ ?_).ne
    · intro j hj
      obtain ⟨room, hroom⟩ := hrooms j hj
      obtain ⟨sent, hsent, hlength, -⟩ := saveScene_spec order hroom
      rw [hsent, Option.getD_some, hlength, length_sceneArchives hroom]
      exact min_le_right _ _
    · obtain ⟨sent, hsent, hlength, -⟩ := saveScene_spec order hroom
      have hk : k ∈ order.sceneKeys :=
        order.scenes_perm.symm.subset (AList.mem_keys.mp
          (AList.lookup_isSome.mp (by rw [hroom]; rfl)))
      refine ⟨k, hk, ?_⟩
      rw [hsent, Option.getD_some, hlength, length_sceneArchives hroom]
      omega
  · intro hfew
    refine ⟨_, hrun, List.Perm.trans ?_ (order.scenes_perm.flatMap_right m.sceneArchives)⟩
    refine List.Perm.flatMap_left _ fun k hk => ?_
    obtain ⟨room, hroom⟩ := hrooms k hk
    obtain ⟨sent, hsent, -, hall⟩ := saveScene_spec order hroom
    rw [hsent, Option.getD_some, hall (hfew k room hroom)]

/-- The order of the dictionaries themselves. -/
def dictOrder (m : SceneManager) : m.KeyOrder where
  sceneKeys := m.scenes.keys
  playerKeys := fun k => match m.scenes.lookup k with
    | none => []
    | some room => room.scene.players.keys
  scenes_perm := List.Perm.refl _
  players_perm := by
    intro k room hroom
    rw [hroom]

/-- Two players are in the scene 1, and one of them is saved. -/
theorem second_not_saved :
    ∃ m, (twoScenes.processEnterGame 1 "a" ⟨7, "", "", 0, 0, 10, 10⟩ 1).bind
        (fun r => r.2.processEnterGame 2 "b" ⟨8, "", "", 0, 0, 10, 10⟩ 1) = some (true, m) ∧
      (m.scenes.lookup 1).map (fun r => r.scene.players.keys) = some [8, 7] ∧
      (m.saveArchives m.dictOrder).map (fun sent => sent.map SaveCommand.characterID)
        = some [8] ∧
      ¬ m.SavesAll m.dictOrder := by
  have hrun : ((twoScenes.processEnterGame 1 "a" ⟨7, "", "", 0, 0, 10, 10⟩ 1).bind
        (fun r => r.2.processEnterGame 2 "b" ⟨8, "", "", 0, 0, 10, 10⟩ 1)).map
        (fun r => (r.1, (r.2.scenes.lookup 1).map (fun r => r.scene.players.keys),
          (r.2.saveArchives r.2.dictOrder).map (fun sent => sent.map SaveCommand.characterID),
          (r.2.scenes.keys.flatMap r.2.sceneArchives).length))
      = some (true, some [8, 7], some [8], 2) := by
    decide +kernel
  obtain ⟨⟨rv, m⟩, henter, hobs⟩ := Option.map_eq_some_iff.mp hrun
  simp only [Prod.mk.injEq] at hobs
  obtain ⟨rfl, hplayers, hsent, htotal⟩ := hobs
  refine ⟨m, henter, hplayers, hsent, ?_⟩
  rintro ⟨sent, hsaved, hperm⟩
  rw [hsaved, Option.map_some, Option.some.injEq] at hsent
  have hlen := hperm.length_eq
  rw [htotal, ← List.length_map SaveCommand.characterID, hsent] at hlen
  exact absurd hlen (by decide)

end SceneManager

end Zevent.Webgame

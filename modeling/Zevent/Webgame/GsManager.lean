/-
# The game-server tables of the gate (`webgame/gateserver/src/gs_manager.c`)

The gate keeps three hash tables of the game servers connected to it, under one mutex:
`gs2peer` from a server id to the peer it came from, `peer2gs` from a peer to the record
it registered, and `scene2peer` from `"<gsid>-<scene>"` to the peer.  Peers are stored as
16 hexadecimal digits (`uuid2hex`).

* `gm_reggs` refuses a server id that is in `gs2peer`, and does not look into `peer2gs`;
  `gm_unreggs` finds what it deletes through `peer2gs`.
* `Consistent` says that the tables agree.  `PeerFree` is the guard on a run under which
  registrations keep them so: `tables_consistent` is the result, and `registered_twice`
  a run in which one peer registers two server ids and leaves the first behind.
-/
import Mathlib.Tactic
import Zevent.Lib.Interleaving
import Zevent.Lib.Numerals

namespace Zevent.Webgame

open Interleaving Numerals

/-! ## Keys -/

/-- The byte `a[i]` of `uuid2hex`. -/
def uuidByte (uuid i : UInt64) : ℕ := ((uuid &&& ((0xFF : UInt64) <<< (8 * i))) >>> (8 * i)).toNat

/-- `uuid2hex`. -/
def uuid2hex (uuid : UInt64) : List UInt8 :=
  hexByte (uuidByte uuid 7) ++ hexByte (uuidByte uuid 6) ++ hexByte (uuidByte uuid 5)
    ++ hexByte (uuidByte uuid 4) ++ hexByte (uuidByte uuid 3) ++ hexByte (uuidByte uuid 2)
    ++ hexByte (uuidByte uuid 1) ++ hexByte (uuidByte uuid 0)

/-- `hex2uuid`. -/
def hex2uuid (buf : List UInt8) : UInt64 := strtoull16 buf

/-- The key `"%d-%d"` of a scene. -/
def sceneKey (gsid scene : ℤ) : List UInt8 := decimal gsid ++ 45 :: decimal scene

/-- Byte `i` of an id. -/
theorem uuidByte_eq (uuid : UInt64) {i : UInt64} (hi : i < 8) :
    uuidByte uuid i = uuid.toNat / 256 ^ i.toNat % 256 := by
  have hcases : i = 0 ∨ i = 1 ∨ i = 2 ∨ i = 3 ∨ i = 4 ∨ i = 5 ∨ i = 6 ∨ i = 7 := by
    have hlt : i.toNat < 8 := hi
    have hof : i = UInt64.ofNat i.toNat := (UInt64.ofNat_toNat).symm
    rw [hof]
    interval_cases i.toNat <;> simp
  have hmask : ∀ n : ℕ, n &&& 255 = n % 256 := fun n => Nat.and_two_pow_sub_one_eq_mod n 8
  unfold uuidByte
  rcases hcases with rfl | rfl | rfl | rfl | rfl | rfl | rfl | rfl <;>
    rw [UInt64.toNat_shiftRight, UInt64.toNat_and, Nat.shiftRight_and_distrib,
      Nat.shiftRight_eq_div_pow] <;>
    exact hmask _

/-- `uuid2hex` writes the sixteen hexadecimal digits of an id. -/
theorem uuid2hex_eq (uuid : UInt64) : uuid2hex uuid = hexDigits 16 uuid.toNat := by
  have hlow : ∀ n k : ℕ, n / 256 ^ k % 256 % 16 = n / 16 ^ (2 * k) % 16 := by
    intro n k
    rw [pow_mul, Nat.mod_mod_of_dvd _ (by norm_num)]
    norm_num
  have hhigh : ∀ n k : ℕ, n / 256 ^ k % 256 / 16 = n / 16 ^ (2 * k + 1) % 16 := by
    intro n k
    rw [show 256 = 16 * 16 from rfl, Nat.mod_mul_right_div_self, Nat.div_div_eq_div_mul, pow_succ,
      pow_mul]
    norm_num
  have hdiv : ∀ n k : ℕ, n / 16 ^ k / 16 = n / 16 ^ (k + 1) := by
    intro n k
    rw [Nat.div_div_eq_div_mul, pow_succ]
  have hone : uuid.toNat / 16 = uuid.toNat / 16 ^ 1 := by rw [pow_one]
  simp only [uuid2hex, hexByte, uuidByte_eq uuid (show (7 : UInt64) < 8 by decide),
    uuidByte_eq uuid (show (6 : UInt64) < 8 by decide),
    uuidByte_eq uuid (show (5 : UInt64) < 8 by decide),
    uuidByte_eq uuid (show (4 : UInt64) < 8 by decide),
    uuidByte_eq uuid (show (3 : UInt64) < 8 by decide),
    uuidByte_eq uuid (show (2 : UInt64) < 8 by decide),
    uuidByte_eq uuid (show (1 : UInt64) < 8 by decide),
    uuidByte_eq uuid (show (0 : UInt64) < 8 by decide), hlow, hhigh, hexDigits, hone, hdiv]
  simp [Nat.div_one]

theorem toNat_lt_digits (uuid : UInt64) : uuid.toNat < 16 ^ 16 := by
  have hlt := uuid.toNat_lt
  norm_num at hlt ⊢
  exact hlt

/-- `hex2uuid` reads an id back. -/
theorem hex2uuid_uuid2hex (uuid : UInt64) : hex2uuid (uuid2hex uuid) = uuid := by
  rw [hex2uuid, uuid2hex_eq, strtoull16_hexDigits le_rfl (toNat_lt_digits uuid),
    UInt64.ofNat_toNat]

/-- Different ids are written differently. -/
theorem uuid2hex_injective : Function.Injective uuid2hex :=
  Function.LeftInverse.injective hex2uuid_uuid2hex

/-- No digit is a zero byte. -/
theorem zero_notMem_uuid2hex (p : UInt64) : 0 ∉ uuid2hex p := by
  rw [uuid2hex_eq]
  intro hmem
  obtain ⟨d, hd, hzero⟩ := hexDigits_all 16 p.toNat 0 hmem
  interval_cases d <;> exact absurd hzero (by decide)

/-- A scene key determines the server and the scene. -/
theorem sceneKey_inj {g h s t : ℤ} (heq : sceneKey g s = sceneKey h t) : g = h ∧ s = t := by
  obtain ⟨hg, hrest⟩ := decimal_append_inj (by decide) (by decide) heq
  rw [List.cons.injEq] at hrest
  exact ⟨hg, decimal_injective hrest.2⟩

/-! ## Tables -/

/-- `gs_t`: a server id and its first `nscenes` scenes. -/
structure Gs where
  gsid : ℤ
  scenes : List ℤ
deriving DecidableEq, Repr

/-- `gs_manager_t`. -/
structure GsManager where
  gs2peer : ℤ → Option (List UInt8)
  peer2gs : List UInt8 → Option Gs
  scene2peer : List UInt8 → Option (List UInt8)

namespace GsManager

/-- `gm_start`: empty tables. -/
def make : GsManager := ⟨fun _ => none, fun _ => none, fun _ => none⟩

/-- The loop of `gm_reggs` over the scenes. -/
def setScenes (peer : List UInt8) (gsid : ℤ) (scenes : List ℤ)
    (table : List UInt8 → Option (List UInt8)) : List UInt8 → Option (List UInt8) :=
  scenes.foldl (fun t scene => Function.update t (sceneKey gsid scene) (some peer)) table

/-- The loop of `gm_unreggs` over the scenes. -/
def clearScenes (gsid : ℤ) (scenes : List ℤ)
    (table : List UInt8 → Option (List UInt8)) : List UInt8 → Option (List UInt8) :=
  scenes.foldl (fun t scene =>
    match t (sceneKey gsid scene) with
    | some _ => Function.update t (sceneKey gsid scene) none
    | none => t) table

/-- `gm_reggs`. -/
def reggs (m : GsManager) (peerid : UInt64) (gs : Gs) : ℤ × GsManager :=
  match m.gs2peer gs.gsid with
  | none =>
      (0, { peer2gs := Function.update m.peer2gs (uuid2hex peerid) (some gs)
            gs2peer := Function.update m.gs2peer gs.gsid (some (uuid2hex peerid))
            scene2peer := setScenes (uuid2hex peerid) gs.gsid gs.scenes m.scene2peer })
  | some _ => (-1, m)

/-- `gm_unreggs`. -/
def unreggs (m : GsManager) (peerid : UInt64) : ℤ × GsManager :=
  match m.peer2gs (uuid2hex peerid) with
  | none => (-1, m)
  | some gs =>
      let m := match m.gs2peer gs.gsid with
        | some _ =>
            { m with
              gs2peer := Function.update m.gs2peer gs.gsid none
              scene2peer := clearScenes gs.gsid gs.scenes m.scene2peer }
        | none => m
      (0, { m with peer2gs := Function.update m.peer2gs (uuid2hex peerid) none })

/-- `gm_getpidbyid`. -/
def getpidbyid (m : GsManager) (gsid : ℤ) : Option UInt64 := (m.gs2peer gsid).map hex2uuid

/-- A call. -/
inductive Op
  | reggs (peerid : UInt64) (gs : Gs)
  | unreggs (peerid : UInt64)

/-- The tables after a call. -/
def step (m : GsManager) : Op → Option GsManager
  | .reggs peerid gs => some (m.reggs peerid gs).2
  | .unreggs peerid => some (m.unreggs peerid).2

/-- The guard on a registration: it is refused, or the peer has none. -/
def PeerFree (m : GsManager) : Op → Prop
  | .reggs peerid gs => m.gs2peer gs.gsid ≠ none ∨ m.peer2gs (uuid2hex peerid) = none
  | .unreggs _ => True

instance (m : GsManager) (op : Op) : Decidable (m.PeerFree op) :=
  match op with
  | .reggs _ _ => inferInstanceAs (Decidable (_ ∨ _))
  | .unreggs _ => inferInstanceAs (Decidable True)

/-- The tables agree: `gs2peer` and `peer2gs` are inverse to each other, all peers in them
are peer ids, and a scene entry stands for a scene of the server registered for its id by
the peer it names. -/
structure Consistent (m : GsManager) : Prop where
  inverse : ∀ g peer, m.gs2peer g = some peer ↔ ∃ gs, m.peer2gs peer = some gs ∧ gs.gsid = g
  peer : ∀ peer gs, m.peer2gs peer = some gs → ∃ p, peer = uuid2hex p
  scene : ∀ key peer, m.scene2peer key = some peer →
    ∃ gs, m.peer2gs peer = some gs ∧ ∃ s ∈ gs.scenes, key = sceneKey gs.gsid s

/-- An entry of one of the tables mentions the peer. -/
def Mentions (m : GsManager) (p : UInt64) : Prop :=
  (∃ g, m.gs2peer g = some (uuid2hex p)) ∨ m.peer2gs (uuid2hex p) ≠ none
    ∨ ∃ key, m.scene2peer key = some (uuid2hex p)

/-! ## The scene loops -/

/-- Both loops write one value at the keys of the scenes. -/
theorem foldl_update_scenes (v : Option (List UInt8)) (gsid : ℤ) (scenes : List ℤ)
    (table : List UInt8 → Option (List UInt8)) (key : List UInt8) :
    scenes.foldl (fun t scene => Function.update t (sceneKey gsid scene) v) table key
      = if ∃ s ∈ scenes, key = sceneKey gsid s then v else table key := by
  induction scenes generalizing table with
  | nil => simp
  | cons scene scenes ih =>
      rw [List.foldl_cons, ih, Function.update_apply]
      by_cases hrest : ∃ s ∈ scenes, key = sceneKey gsid s
      · have hall : ∃ s ∈ scene :: scenes, key = sceneKey gsid s := by
          obtain ⟨s, hs, hkey⟩ := hrest
          exact ⟨s, List.mem_cons_of_mem _ hs, hkey⟩
        rw [if_pos hrest, if_pos hall]
      · rw [if_neg hrest]
        by_cases hkey : key = sceneKey gsid scene
        · rw [if_pos hkey, if_pos ⟨scene, List.mem_cons_self, hkey⟩]
        · rw [if_neg hkey, if_neg]
          rintro ⟨s, hs, hk⟩
          rcases List.mem_cons.mp hs with rfl | hs
          · exact hkey hk
          · exact hrest ⟨s, hs, hk⟩

/-- All scenes of a server lead to its peer, the other keys stay. -/
theorem setScenes_apply (peer : List UInt8) (gsid : ℤ) (scenes : List ℤ)
    (table : List UInt8 → Option (List UInt8)) (key : List UInt8) :
    setScenes peer gsid scenes table key
      = if ∃ s ∈ scenes, key = sceneKey gsid s then some peer else table key :=
  foldl_update_scenes (some peer) gsid scenes table key

/-- Deleting an entry that is not there changes nothing, so the test in front of it does
not matter. -/
theorem clearScenes_apply (gsid : ℤ) (scenes : List ℤ)
    (table : List UInt8 → Option (List UInt8)) (key : List UInt8) :
    clearScenes gsid scenes table key
      = if ∃ s ∈ scenes, key = sceneKey gsid s then none else table key := by
  have hloop : clearScenes gsid scenes table
      = scenes.foldl (fun t scene => Function.update t (sceneKey gsid scene) none) table := by
    unfold clearScenes
    congr 1
    funext t scene
    split
    · rfl
    · rename_i hnone
      rw [← hnone, Function.update_eq_self]
  rw [hloop]
  exact foldl_update_scenes none gsid scenes table key

/-! ## One call -/

variable {m : GsManager}

/-- With agreeing tables a registered peer is deleted from all three. -/
theorem unreggs_registered (hm : m.Consistent) {p : UInt64} {gs : Gs}
    (hgs : m.peer2gs (uuid2hex p) = some gs) :
    (m.unreggs p).2 =
      { gs2peer := Function.update m.gs2peer gs.gsid none
        peer2gs := Function.update m.peer2gs (uuid2hex p) none
        scene2peer := clearScenes gs.gsid gs.scenes m.scene2peer } := by
  have hback : m.gs2peer gs.gsid = some (uuid2hex p) := (hm.inverse _ _).mpr ⟨gs, hgs, rfl⟩
  simp only [unreggs, hgs, hback]

/-- A peer that is free and a server id that is new: the registration adds one entry to
each table. -/
theorem consistent_reggs (hm : m.Consistent) {p : UInt64} {gs : Gs}
    (hok : m.PeerFree (.reggs p gs)) : (m.reggs p gs).2.Consistent := by
  unfold reggs
  split
  · rename_i hnew
    have hfree : m.peer2gs (uuid2hex p) = none := hok.resolve_left fun h => h hnew
    refine ⟨?_, ?_, ?_⟩
    · intro g peer
      simp only [Function.update_apply]
      by_cases hg : g = gs.gsid
      · subst hg
        rw [if_pos rfl, Option.some.injEq]
        constructor
        · rintro rfl
          exact ⟨gs, if_pos rfl, rfl⟩
        · rintro ⟨gs', hgs', hid⟩
          by_cases hp : peer = uuid2hex p
          · exact hp.symm
          · -- another peer has the server id, against `gs2peer`
            rw [if_neg hp] at hgs'
            have hold := (hm.inverse gs.gsid peer).mpr ⟨gs', hgs', hid⟩
            rw [hnew] at hold
            cases hold
      · rw [if_neg hg, hm.inverse]
        by_cases hp : peer = uuid2hex p
        · subst hp
          rw [hfree, if_pos rfl]
          constructor
          · rintro ⟨_, h, -⟩
            cases h
          · rintro ⟨gs', hgs', hid⟩
            rw [Option.some.injEq] at hgs'
            exact absurd (hgs' ▸ hid).symm hg
        · rw [if_neg hp]
    · intro peer gs' h
      simp only [Function.update_apply] at h
      split_ifs at h with hp
      · exact ⟨p, hp⟩
      · exact hm.peer peer gs' h
    · intro key peer h
      simp only [setScenes_apply] at h
      simp only [Function.update_apply]
      split_ifs at h with hkey
      · rw [Option.some.injEq] at h
        exact ⟨gs, by rw [if_pos h.symm], hkey⟩
      · obtain ⟨gs', hgs', hs⟩ := hm.scene key peer h
        have hp : peer ≠ uuid2hex p := by
          rintro rfl
          rw [hfree] at hgs'
          cases hgs'
        exact ⟨gs', by rw [if_neg hp, hgs'], hs⟩
  · exact hm

/-- Unregistering keeps the tables in agreement. -/
theorem consistent_unreggs (hm : m.Consistent) (p : UInt64) : (m.unreggs p).2.Consistent := by
  cases hgs : m.peer2gs (uuid2hex p) with
  | none =>
      have hsame : (m.unreggs p).2 = m := by simp only [unreggs, hgs]
      rw [hsame]
      exact hm
  | some gs =>
      rw [unreggs_registered hm hgs]
      have hback : m.gs2peer gs.gsid = some (uuid2hex p) := (hm.inverse _ _).mpr ⟨gs, hgs, rfl⟩
      refine ⟨?_, ?_, ?_⟩
      · intro g peer
        simp only [Function.update_apply]
        by_cases hg : g = gs.gsid
        · subst hg
          rw [if_pos rfl]
          constructor
          · rintro ⟨⟩
          · rintro ⟨gs', hgs', hid⟩
            by_cases hp : peer = uuid2hex p
            · rw [if_pos hp] at hgs'
              cases hgs'
            · rw [if_neg hp] at hgs'
              have hother := (hm.inverse gs.gsid peer).mpr ⟨gs', hgs', hid⟩
              rw [hback, Option.some.injEq] at hother
              exact absurd hother.symm hp
        · rw [if_neg hg, hm.inverse]
          by_cases hp : peer = uuid2hex p
          · subst hp
            rw [hgs, if_pos rfl]
            constructor
            · rintro ⟨gs', hgs', hid⟩
              rw [Option.some.injEq] at hgs'
              exact absurd (hgs' ▸ hid).symm hg
            · rintro ⟨_, h, -⟩
              cases h
          · rw [if_neg hp]
      · intro peer gs' h
        simp only [Function.update_apply] at h
        split_ifs at h with hp
        exact hm.peer peer gs' h
      · intro key peer h
        simp only [clearScenes_apply] at h
        split_ifs at h with hkey
        obtain ⟨gs', hgs', s, hs, hk⟩ := hm.scene key peer h
        have hp : peer ≠ uuid2hex p := by
          rintro rfl
          rw [hgs, Option.some.injEq] at hgs'
          subst hgs'
          exact hkey ⟨s, hs, hk⟩
        exact ⟨gs', by simp only [Function.update_of_ne hp, hgs'], s, hs, hk⟩

/-- With agreeing tables, `gm_unreggs` leaves no trace of the peer. -/
theorem not_mentions_unreggs (hm : m.Consistent) (p : UInt64) : ¬ (m.unreggs p).2.Mentions p := by
  have hafter := consistent_unreggs hm p
  have hgone : (m.unreggs p).2.peer2gs (uuid2hex p) = none := by
    cases hgs : m.peer2gs (uuid2hex p) with
    | none => simp only [unreggs, hgs]
    | some gs =>
        rw [unreggs_registered hm hgs]
        exact Function.update_self _ _ _
  rintro (⟨g, hg⟩ | hpeer | ⟨key, hkey⟩)
  · obtain ⟨gs, hgs, -⟩ := (hafter.inverse g _).mp hg
    rw [hgone] at hgs
    cases hgs
  · exact hpeer hgone
  · obtain ⟨gs, hgs, -⟩ := hafter.scene key _ hkey
    rw [hgone] at hgs
    cases hgs

/-- Empty tables are consistent. -/
theorem consistent_make : make.Consistent := by
  refine ⟨?_, ?_, ?_⟩
  · intro g peer
    simp [make]
  · intro peer gs h
    cases h
  · intro key peer h
    cases h

/-- A guarded call keeps the tables in agreement. -/
theorem consistent_step {m' : GsManager} {op : Op} (hm : m.Consistent) (hok : m.PeerFree op)
    (h : m.step op = some m') : m'.Consistent := by
  cases op with
  | reggs p gs =>
      rw [step, Option.some.injEq] at h
      exact h ▸ consistent_reggs hm hok
  | unreggs p =>
      rw [step, Option.some.injEq] at h
      exact h ▸ consistent_unreggs hm p

/-! ## Whole runs -/

/-- **The tables agree.**  In every run in which each registration that is not refused
comes from a peer without one, `gs2peer` and `peer2gs` are inverse to each other, a scene
entry names the peer registered for its server, all keys and values are what the code
writes for a peer and a scene, and after `gm_unreggs` no table mentions the peer. -/
theorem tables_consistent {m : GsManager} (h : Reach step PeerFree make m) :
    (∀ g p, m.gs2peer g = some (uuid2hex p)
        ↔ ∃ gs, m.peer2gs (uuid2hex p) = some gs ∧ gs.gsid = g)
      ∧ (∀ g s peer, m.scene2peer (sceneKey g s) = some peer → m.gs2peer g = some peer)
      ∧ (∀ g peer, m.gs2peer g = some peer → ∃ p, peer = uuid2hex p)
      ∧ (∀ peer gs, m.peer2gs peer = some gs → ∃ p, peer = uuid2hex p)
      ∧ (∀ key peer, m.scene2peer key = some peer → ∃ g s, key = sceneKey g s)
      ∧ ∀ p, ¬ (m.unreggs p).2.Mentions p := by
  have hm : m.Consistent :=
    h.invariant Consistent consistent_make fun _ _ _ hm hok => consistent_step hm hok
  refine ⟨fun g p => hm.inverse g _, ?_, ?_, hm.peer, ?_, not_mentions_unreggs hm⟩
  · intro g s peer hkey
    obtain ⟨gs, hgs, t, -, heq⟩ := hm.scene _ _ hkey
    rw [(sceneKey_inj heq).1]
    exact (hm.inverse _ _).mpr ⟨gs, hgs, rfl⟩
  · intro g peer hg
    obtain ⟨gs, hgs, -⟩ := (hm.inverse g peer).mp hg
    exact hm.peer peer gs hgs
  · intro key peer hkey
    obtain ⟨gs, -, t, -, heq⟩ := hm.scene key peer hkey
    exact ⟨gs.gsid, t, heq⟩

/-- Two peers register, a third one is refused the server id of the first, and the first
goes. -/
theorem tables_consistent_two_peers :
    ∃ m, Reach step PeerFree make m ∧ m.gs2peer 2 = some (uuid2hex 8) ∧ m.gs2peer 1 = none
      ∧ ∀ p, ¬ (m.unreggs p).2.Mentions p := by
  have hrun : (run step PeerFree make
      [.reggs 7 ⟨1, [5, 6]⟩, .reggs 8 ⟨2, [5]⟩, .reggs 9 ⟨1, []⟩, .unreggs 7]).map
        (fun m => (m.gs2peer 2, m.gs2peer 1)) = some (some (uuid2hex 8), none) := by
    decide
  obtain ⟨m, hs, htables⟩ := Option.map_eq_some_iff.mp hrun
  rw [Prod.mk.injEq] at htables
  have hreach := Reach.refl.run _ hs
  exact ⟨m, hreach, htables.1, htables.2, (tables_consistent hreach).2.2.2.2.2⟩

/-- **A peer that registers twice is not forgotten.**  The second registration replaces
the entry of `peer2gs`, and `gm_unreggs` finds only that one: the entries of the first
server id stay in `gs2peer` and `scene2peer` for good. -/
theorem registered_twice :
    ∃ m, Reach step Always make m ∧ m.gs2peer 1 = some (uuid2hex 7)
      ∧ m.peer2gs (uuid2hex 7) = some ⟨2, []⟩
      ∧ ¬ (∀ g p, m.gs2peer g = some (uuid2hex p)
          ↔ ∃ gs, m.peer2gs (uuid2hex p) = some gs ∧ gs.gsid = g)
      ∧ (m.unreggs 7).2.Mentions 7
      ∧ (m.unreggs 7).2.scene2peer (sceneKey 1 5) = some (uuid2hex 7) := by
  have hrun : (run step Always make [.reggs 7 ⟨1, [5]⟩, .reggs 7 ⟨2, []⟩]).map
        (fun m => (m.gs2peer 1, m.peer2gs (uuid2hex 7), (m.unreggs 7).2.gs2peer 1,
          (m.unreggs 7).2.scene2peer (sceneKey 1 5)))
      = some (some (uuid2hex 7), some ⟨2, []⟩, some (uuid2hex 7), some (uuid2hex 7)) := by
    decide
  obtain ⟨m, hs, htables⟩ := Option.map_eq_some_iff.mp hrun
  simp only [Prod.mk.injEq] at htables
  obtain ⟨hgs, hpeer, hleft, hscene⟩ := htables
  refine ⟨m, Reach.refl.run _ hs, hgs, hpeer, ?_, Or.inl ⟨1, hleft⟩, hscene⟩
  intro hinv
  obtain ⟨gs, hgs', hid⟩ := (hinv 1 7).mp hgs
  rw [hpeer, Option.some.injEq] at hgs'
  rw [← hgs'] at hid
  exact absurd hid (by decide)

end GsManager

end Zevent.Webgame

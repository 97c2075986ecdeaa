/-
# Peer ids as text (`webgame/gateserver/src/uuidservice.c`, `webgame/wgserver/uuid.py`)

A peer id has 64 bits.  The gate writes it as 16 hexadecimal digits into a buffer (`uuid2hex`),
keys its tables of game servers and of clients by that text, and reads an id back from a key
(`hex2uuid`).  The game servers do the same in Python, with `'%016x' % uuid` and `int(hexid, 16)`.

* `survives` is about one id: what any buffer of at least 17 bytes holds afterwards, and that both
  languages read the id from it.
* `Registry` and `ClientsById` are the tables keyed by the ids themselves.  The tables of the gate
  are those with their keys encoded (`Registry.encode`, `ById.encode`), and each call does the same
  to both: `encode_call`.
* `uuids_survive` puts this together: whatever is called in whatever order, the gate answers as if
  its keys were the ids.
-/
import Mathlib.Tactic
import Zevent.Lib.CString
import Zevent.Lib.Encoded
import Zevent.Lib.Executions
import Zevent.Webgame.Binding

namespace Zevent.Webgame

open CString Encoded Executions Numerals

/-! ## The text of an id -/

/-- `uuid2hex`: what it returns, and the buffer. -/
def uuid2hexBuf {bufsize : ℕ} (uuid : UInt64) (buf : CharArray bufsize) :
    ℤ × CharArray bufsize :=
  (0, snprintf (memset buf 0) (uuid2hex uuid))

namespace PyUuid

/-- `uuid.uuid2hex`. -/
def uuid2hex (uuid : ℤ) : List UInt8 := paddedHex 16 uuid

/-- `uuid.hex2uuid`; `none` is a `ValueError`. -/
def hex2uuid (hexid : List UInt8) : Option ℤ := intBase16 hexid

end PyUuid

/-- The id survives in memory that holds its text: 16 digits in lower case, which are the key of
the gate's tables and the text of Python, and both languages read the id back. -/
structure Survives (uuid : UInt64) (mem : List UInt8) : Prop where
  length : (text mem).length = 16
  lower : ∀ c ∈ text mem, isLowerHex c = true
  key : text mem = uuid2hex uuid
  python : text mem = PyUuid.uuid2hex uuid.toNat
  read : hex2uuid mem = uuid
  pythonRead : PyUuid.hex2uuid (text mem) = some (uuid.toNat : ℤ)

/-- An id is written in 16 characters. -/
theorem length_uuid2hex (uuid : UInt64) : (uuid2hex uuid).length = 16 := by
  rw [uuid2hex_eq, length_hexDigits]

/-- The text is cut to the buffer. -/
theorem text_uuid2hexBuf {n : ℕ} (uuid : UInt64) (buf : CharArray n) :
    text (uuid2hexBuf uuid buf).2.bytes = (uuid2hex uuid).take (n - 1) :=
  text_snprintf _ (zero_notMem_uuid2hex uuid)

/-- The Python text of an id is the C one. -/
theorem pyUuid2hex_eq (uuid : UInt64) : PyUuid.uuid2hex uuid.toNat = uuid2hex uuid := by
  rw [PyUuid.uuid2hex, uuid2hex_eq]
  exact paddedHex_eq (toNat_lt_digits uuid)

/-- **An id survives in every buffer of at least 17 bytes.** -/
theorem survives (uuid : UInt64) {n : ℕ} (buf : CharArray n) (hn : 17 ≤ n) :
    Survives uuid (uuid2hexBuf uuid buf).2.bytes := by
  have hwhole : (uuid2hex uuid).take (n - 1) = uuid2hex uuid :=
    List.take_of_length_le (by rw [length_uuid2hex]; omega)
  have htext : text (uuid2hexBuf uuid buf).2.bytes = uuid2hex uuid := by
    rw [text_uuid2hexBuf, hwhole]
  refine ⟨?_, ?_, htext, ?_, ?_, ?_⟩
  · rw [htext, length_uuid2hex]
  · intro c hc
    rw [htext, uuid2hex_eq] at hc
    obtain ⟨d, hd, rfl⟩ := hexDigits_all 16 uuid.toNat c hc
    exact isLowerHex_hexDigit hd
  · rw [htext, pyUuid2hex_eq]
  · -- `strtoull` stops at the NUL
    rw [uuid2hexBuf, snprintf_bytes _ _ (by omega), hwhole, hex2uuid, uuid2hex_eq,
      strtoull16_hexDigits_append le_rfl (toNat_lt_digits uuid) (by simp), UInt64.ofNat_toNat]
  · rw [htext, uuid2hex_eq]
    exact intBase16_hexDigits (by norm_num) (toNat_lt_digits uuid)

/-- With 16 bytes there is no room for the last digit. -/
example : text (uuid2hexBuf 0x1F (CharArray.mk (List.replicate 16 7) rfl)).2.bytes
    = ascii "000000000000001" := by decide

/-! ## The calls on the tables -/

/-- The tables of `gs_manager.c` and of `client_manager.c`. -/
structure GateTables where
  gm : GsManager
  clients : Clients

/-- A call on the tables. -/
inductive TableCall
  | reggs (peerid : UInt64) (gs : Gs)
  | unreggs (peerid : UInt64)
  | getpidbyid (gsid : ℤ)
  | getgs
  | joinuser (peerid uid : UInt64)
  | bindgs (peerid gspeerid : UInt64)
  | getidbycid (peerid : UInt64)
  | rmclient (peerid : UInt64)
  | rmclients (gspeerid : UInt64)

/-- What a call returns, what it finds, or the ids that it reads from the keys of a table. -/
inductive Answer
  | returned (rv : ℤ)
  | peer (found : Option UInt64)
  | client (found : Option (UInt64 × UInt64))
  | peers (ids : Set UInt64)

namespace GateTables

/-- `gm_start` and `cm_start`. -/
def make : GateTables := ⟨GsManager.make, fun _ => none⟩

/-- A call.  `gm_getgs` gives the id in some key of `peer2gs`, by a random number and the order of
the table; its answer here is all that it may give.  `cm_rmclients` disconnects the peers whose
ids it reads from the keys of the clients it deletes. -/
def call (T : GateTables) : TableCall → Answer × GateTables
  | .reggs peerid gs =>
      (.returned (T.gm.reggs peerid gs).1, { T with gm := (T.gm.reggs peerid gs).2 })
  | .unreggs peerid =>
      (.returned (T.gm.unreggs peerid).1, { T with gm := (T.gm.unreggs peerid).2 })
  | .getpidbyid gsid => (.peer (T.gm.getpidbyid gsid), T)
  | .getgs => (.peers {p | ∃ key, T.gm.peer2gs key ≠ none ∧ hex2uuid key = p}, T)
  | .joinuser peerid uid => (.returned 0, { T with clients := T.clients.joinuser peerid uid })
  | .bindgs peerid gspeerid =>
      (.returned (T.clients.bindgs peerid gspeerid).1,
        { T with clients := (T.clients.bindgs peerid gspeerid).2 })
  | .getidbycid peerid => (.client (T.clients.getidbycid peerid), T)
  | .rmclient peerid =>
      (.returned (T.clients.rmclient peerid).1,
        { T with clients := (T.clients.rmclient peerid).2 })
  | .rmclients gspeerid =>
      (.peers {p | ∃ key, (∃ client ∈ T.clients key, client.gspeerid = gspeerid) ∧
          hex2uuid key = p},
        { T with clients := T.clients.rmclients gspeerid })

end GateTables

/-! ## The same tables, keyed by the ids -/

/-- The tables of game servers. -/
structure Registry where
  gs2peer : ℤ → Option UInt64
  peer2gs : UInt64 → Option Gs
  scene2peer : ℤ × ℤ → Option UInt64

/-- One value for all scenes of a server. -/
def setScenesById (gs : Gs) (peer : Option UInt64) (t : ℤ × ℤ → Option UInt64) :
    ℤ × ℤ → Option UInt64 := fun k =>
  if k.1 = gs.gsid ∧ k.2 ∈ gs.scenes then peer else t k

namespace Registry

def reggs (r : Registry) (peerid : UInt64) (gs : Gs) : ℤ × Registry :=
  match r.gs2peer gs.gsid with
  | none =>
      (0, { peer2gs := Function.update r.peer2gs peerid (some gs)
            gs2peer := Function.update r.gs2peer gs.gsid (some peerid)
            scene2peer := setScenesById gs (some peerid) r.scene2peer })
  | some _ => (-1, r)

def unreggs (r : Registry) (peerid : UInt64) : ℤ × Registry :=
  match r.peer2gs peerid with
  | none => (-1, r)
  | some gs =>
      let r := match r.gs2peer gs.gsid with
        | some _ =>
            { r with
              gs2peer := Function.update r.gs2peer gs.gsid none
              scene2peer := setScenesById gs none r.scene2peer }
        | none => r
      (0, { r with peer2gs := Function.update r.peer2gs peerid none })

end Registry

/-- The table of clients. -/
abbrev ClientsById := UInt64 → Option Client

namespace ClientsById

def joinuser (t : ClientsById) (peerid uid : UInt64) : ClientsById :=
  Function.update t peerid (some ⟨.logined, 0, uid⟩)

def bindgs (t : ClientsById) (peerid gspeerid : UInt64) : ℤ × ClientsById :=
  match t peerid with
  | some client =>
      (0, if client.state = .logined then
            Function.update t peerid (some { client with gspeerid := gspeerid })
          else t)
  | none => (-1, t)

def getidbycid (t : ClientsById) (peerid : UInt64) : Option (UInt64 × UInt64) :=
  (t peerid).map fun client => (client.gspeerid, client.accountid)

def rmclient (t : ClientsById) (peerid : UInt64) : ℤ × ClientsById :=
  match t peerid with
  | some _ => (0, Function.update t peerid none)
  | none => (-1, t)

def rmclients (t : ClientsById) (gspeerid : UInt64) : ClientsById := fun peerid =>
  (t peerid).filter fun client => client.gspeerid != gspeerid

end ClientsById

/-- All tables. -/
structure ById where
  registry : Registry
  clients : ClientsById

namespace ById

def make : ById := ⟨⟨fun _ => none, fun _ => none, fun _ => none⟩, fun _ => none⟩

def call (T : ById) : TableCall → Answer × ById
  | .reggs peerid gs =>
      (.returned (T.registry.reggs peerid gs).1,
        { T with registry := (T.registry.reggs peerid gs).2 })
  | .unreggs peerid =>
      (.returned (T.registry.unreggs peerid).1,
        { T with registry := (T.registry.unreggs peerid).2 })
  | .getpidbyid gsid => (.peer (T.registry.gs2peer gsid), T)
  | .getgs => (.peers {p | T.registry.peer2gs p ≠ none}, T)
  | .joinuser peerid uid => (.returned 0, { T with clients := T.clients.joinuser peerid uid })
  | .bindgs peerid gspeerid =>
      (.returned (T.clients.bindgs peerid gspeerid).1,
        { T with clients := (T.clients.bindgs peerid gspeerid).2 })
  | .getidbycid peerid => (.client (T.clients.getidbycid peerid), T)
  | .rmclient peerid =>
      (.returned (T.clients.rmclient peerid).1,
        { T with clients := (T.clients.rmclient peerid).2 })
  | .rmclients gspeerid =>
      (.peers {p | ∃ client ∈ T.clients p, client.gspeerid = gspeerid},
        { T with clients := T.clients.rmclients gspeerid })

end ById

/-! ## The tables of the gate encode them -/

/-- Different scenes have different keys. -/
theorem uncurry_sceneKey_injective : Function.Injective (Function.uncurry sceneKey) := by
  rintro ⟨g, s⟩ ⟨h, t⟩ heq
  obtain ⟨rfl, rfl⟩ := sceneKey_inj heq
  rfl

/-- Peer ids, as text, in three tables: as values, as keys, and as values at the keys of the
scenes. -/
noncomputable def Registry.encode (r : Registry) : GsManager where
  gs2peer := Option.map uuid2hex ∘ r.gs2peer
  peer2gs := table uuid2hex r.peer2gs
  scene2peer := table (Function.uncurry sceneKey) (Option.map uuid2hex ∘ r.scene2peer)

noncomputable def ById.encode (T : ById) : GateTables :=
  ⟨T.registry.encode, table uuid2hex T.clients⟩

theorem ById.encode_make : ById.make.encode = GateTables.make := by
  have hgs2peer : Option.map uuid2hex ∘ (fun _ : ℤ => none) = fun _ => none := rfl
  have hscenes : Option.map uuid2hex ∘ (fun _ : ℤ × ℤ => none) = fun _ => none := rfl
  rw [ById.encode, Registry.encode, ById.make, GateTables.make, GsManager.make]
  simp only [hgs2peer, hscenes, table_none]

/-- The keys of the scenes of a server. -/
theorem encode_setScenesById (gs : Gs) (peer : Option UInt64) (t : ℤ × ℤ → Option UInt64) :
    table (Function.uncurry sceneKey) (Option.map uuid2hex ∘ setScenesById gs peer t)
      = fun key => if ∃ s ∈ gs.scenes, key = sceneKey gs.gsid s then peer.map uuid2hex
          else table (Function.uncurry sceneKey) (Option.map uuid2hex ∘ t) key := by
  have hkeys : ∀ key, (∃ s ∈ gs.scenes, key = sceneKey gs.gsid s) ↔
      ∃ k : ℤ × ℤ, (k.1 = gs.gsid ∧ k.2 ∈ gs.scenes) ∧ Function.uncurry sceneKey k = key := by
    intro key
    constructor
    · rintro ⟨s, hs, rfl⟩
      exact ⟨(gs.gsid, s), ⟨rfl, hs⟩, rfl⟩
    · rintro ⟨⟨g, s⟩, ⟨hg, hs⟩, rfl⟩
      exact ⟨s, hs, by rw [← hg]; rfl⟩
  rw [← table_ite uncurry_sceneKey_injective _ hkeys]
  congr 1
  funext k
  rw [Function.comp_apply, setScenesById]
  split_ifs <;> rfl

/-! ## Each call -/

/-- Registering by ids and by texts agree. -/
theorem Registry.encode_reggs (r : Registry) (p : UInt64) (gs : Gs) :
    r.encode.reggs p gs = ((r.reggs p gs).1, (r.reggs p gs).2.encode) := by
  have hlook : r.encode.gs2peer gs.gsid = (r.gs2peer gs.gsid).map uuid2hex := rfl
  unfold GsManager.reggs Registry.reggs
  rw [hlook]
  cases r.gs2peer gs.gsid with
  | some q => rfl
  | none =>
      have hpeer := update_table uuid2hex_injective r.peer2gs p (some gs)
      have hgs := Function.comp_update (Option.map uuid2hex) r.gs2peer gs.gsid (some p)
      have hscene : GsManager.setScenes (uuid2hex p) gs.gsid gs.scenes r.encode.scene2peer
          = table (Function.uncurry sceneKey)
              (Option.map uuid2hex ∘ setScenesById gs (some p) r.scene2peer) := by
        rw [encode_setScenesById]
        funext key
        exact GsManager.setScenes_apply _ _ _ _ _
      simp only [Option.map_none, hscene]
      simp only [Registry.encode, hpeer, hgs, Option.map_some]

theorem Registry.encode_unreggs (r : Registry) (p : UInt64) :
    r.encode.unreggs p = ((r.unreggs p).1, (r.unreggs p).2.encode) := by
  have hpeer : r.encode.peer2gs (uuid2hex p) = r.peer2gs p := table_apply uuid2hex_injective _ _
  unfold GsManager.unreggs Registry.unreggs
  rw [hpeer]
  cases r.peer2gs p with
  | none => rfl
  | some gs =>
      have hlook : r.encode.gs2peer gs.gsid = (r.gs2peer gs.gsid).map uuid2hex := rfl
      have hgone := update_table uuid2hex_injective r.peer2gs p none
      have hgs := Function.comp_update (Option.map uuid2hex) r.gs2peer gs.gsid none
      have hscene : GsManager.clearScenes gs.gsid gs.scenes r.encode.scene2peer
          = table (Function.uncurry sceneKey)
              (Option.map uuid2hex ∘ setScenesById gs none r.scene2peer) := by
        rw [encode_setScenesById]
        funext key
        exact GsManager.clearScenes_apply _ _ _ _
      dsimp only
      rw [hlook]
      cases r.gs2peer gs.gsid with
      | none => simp only [Option.map_none, Registry.encode, hgone]
      | some q =>
          simp only [Option.map_some, hscene]
          simp only [Registry.encode, hgone, hgs, Option.map_none]

section Clients

variable (t : ClientsById) (p : UInt64)

/-- A table by texts is read as the one by ids. -/
theorem table_client : table uuid2hex t (uuid2hex p) = t p := table_apply uuid2hex_injective t p

theorem update_client (client : Option Client) :
    Function.update (table uuid2hex t) (uuid2hex p) client
      = table uuid2hex (Function.update t p client) :=
  update_table uuid2hex_injective t p client

theorem encode_joinuser (uid : UInt64) :
    Clients.joinuser (table uuid2hex t) p uid = table uuid2hex (t.joinuser p uid) :=
  update_client t p _

theorem encode_bindgs (gspeerid : UInt64) :
    Clients.bindgs (table uuid2hex t) p gspeerid
      = ((t.bindgs p gspeerid).1, table uuid2hex (t.bindgs p gspeerid).2) := by
  unfold Clients.bindgs ClientsById.bindgs
  rw [table_client]
  cases t p with
  | none => rfl
  | some client =>
      dsimp only
      rw [update_client]
      split <;> rfl

theorem encode_getidbycid :
    Clients.getidbycid (table uuid2hex t) p = t.getidbycid p := by
  rw [Clients.getidbycid, table_client, ClientsById.getidbycid]

theorem encode_rmclient :
    Clients.rmclient (table uuid2hex t) p
      = ((t.rmclient p).1, table uuid2hex (t.rmclient p).2) := by
  unfold Clients.rmclient ClientsById.rmclient
  rw [table_client]
  cases t p with
  | none => rfl
  | some client =>
      dsimp only
      rw [update_client]

theorem encode_rmclients :
    Clients.rmclients (table uuid2hex t) p = table uuid2hex (t.rmclients p) :=
  map_table uuid2hex_injective (Option.filter fun client : Client => client.gspeerid != p) rfl

end Clients

/-- **Each call does the same to both**, and gives the same answer. -/
theorem encode_call (T : ById) (c : TableCall) :
    T.encode.call c = ((T.call c).1, (T.call c).2.encode) := by
  have hgm : T.encode.gm = T.registry.encode := rfl
  have hclients : T.encode.clients = table uuid2hex T.clients := rfl
  cases c with
  | reggs p gs =>
      rw [GateTables.call, hgm, Registry.encode_reggs]
      rfl
  | unreggs p =>
      rw [GateTables.call, hgm, Registry.encode_unreggs]
      rfl
  | getpidbyid g =>
      -- the value is text, and it is read back
      have hfound : T.encode.gm.getpidbyid g = T.registry.gs2peer g := by
        show ((T.registry.gs2peer g).map uuid2hex).map hex2uuid = _
        rw [Option.map_map, Function.LeftInverse.comp_eq_id hex2uuid_uuid2hex, Option.map_id, id]
      rw [GateTables.call, hfound]
      rfl
  | getgs =>
      have hids : {p | ∃ key, T.encode.gm.peer2gs key ≠ none ∧ hex2uuid key = p}
          = {p | T.registry.peer2gs p ≠ none} := by
        ext p
        exact exists_key_iff (p := fun entry => entry ≠ none) hex2uuid_uuid2hex (by simp) p
      rw [GateTables.call, hids]
      rfl
  | joinuser p uid =>
      rw [GateTables.call, hclients, encode_joinuser]
      rfl
  | bindgs p gspeerid =>
      rw [GateTables.call, hclients, encode_bindgs]
      rfl
  | getidbycid p =>
      rw [GateTables.call, hclients, encode_getidbycid]
      rfl
  | rmclient p =>
      rw [GateTables.call, hclients, encode_rmclient]
      rfl
  | rmclients gspeerid =>
      have hids : {p | ∃ key, (∃ client ∈ T.encode.clients key, client.gspeerid = gspeerid) ∧
            hex2uuid key = p}
          = {p | ∃ client ∈ T.clients p, client.gspeerid = gspeerid} := by
        ext p
        exact exists_key_iff (p := fun entry : Option Client => ∃ client ∈ entry,
          client.gspeerid = gspeerid) hex2uuid_uuid2hex (by simp) p
      rw [GateTables.call, hids, hclients, encode_rmclients]
      rfl

/-! ## Whose the entries are -/

/-- What the tables say of a peer, calls for that peer have said. -/
structure ById.Owned (calls : List TableCall) (T : ById) : Prop where
  server : ∀ g p, T.registry.gs2peer g = some p →
    ∃ gs, TableCall.reggs p gs ∈ calls ∧ gs.gsid = g
  record : ∀ p gs, T.registry.peer2gs p = some gs → TableCall.reggs p gs ∈ calls
  scene : ∀ g s p, T.registry.scene2peer (g, s) = some p →
    ∃ gs, TableCall.reggs p gs ∈ calls ∧ gs.gsid = g ∧ s ∈ gs.scenes
  account : ∀ p client, T.clients p = some client → TableCall.joinuser p client.accountid ∈ calls
  bound : ∀ p client, T.clients p = some client →
    client.gspeerid = 0 ∨ TableCall.bindgs p client.gspeerid ∈ calls

namespace Registry

variable {r : Registry} {p q : UInt64} {gs : Gs}

/-- The peer of a server was there, or has just registered. -/
theorem gs2peer_reggs {g : ℤ} (h : (r.reggs p gs).2.gs2peer g = some q) :
    r.gs2peer g = some q ∨ q = p ∧ gs.gsid = g := by
  unfold reggs at h
  split at h
  · refine (update_eq_some h).imp_right ?_
    rintro ⟨hg, heq⟩
    exact ⟨(Option.some.inj heq).symm, hg.symm⟩
  · exact Or.inl h

/-- The server of a peer was there, or has just registered. -/
theorem peer2gs_reggs {gs' : Gs} (h : (r.reggs p gs).2.peer2gs q = some gs') :
    r.peer2gs q = some gs' ∨ q = p ∧ gs' = gs := by
  unfold reggs at h
  split at h
  · refine (update_eq_some h).imp_right ?_
    rintro ⟨hq, heq⟩
    exact ⟨hq, (Option.some.inj heq).symm⟩
  · exact Or.inl h

/-- The peer of a scene was there, or has just registered it. -/
theorem scene2peer_reggs {k : ℤ × ℤ} (h : (r.reggs p gs).2.scene2peer k = some q) :
    r.scene2peer k = some q ∨ q = p ∧ gs.gsid = k.1 ∧ k.2 ∈ gs.scenes := by
  unfold reggs at h
  split at h
  · simp only [setScenesById] at h
    split_ifs at h with hk
    · rw [Option.some.injEq] at h
      exact Or.inr ⟨h.symm, hk.1.symm, hk.2⟩
    · exact Or.inl h
  · exact Or.inl h

/-- `gm_unreggs` adds nothing. -/
theorem unreggs_some :
    (∀ g q, (r.unreggs p).2.gs2peer g = some q → r.gs2peer g = some q) ∧
      (∀ q gs, (r.unreggs p).2.peer2gs q = some gs → r.peer2gs q = some gs) ∧
      ∀ k q, (r.unreggs p).2.scene2peer k = some q → r.scene2peer k = some q := by
  have hupdate : ∀ {ι V : Type} [DecidableEq ι] (t : ι → Option V) (i j : ι) (v : V),
      Function.update t i none j = some v → t j = some v := by
    intro ι V _ t i j v h
    exact (update_eq_some h).resolve_right fun hnew => nomatch hnew.2
  have hscenes : ∀ (gs : Gs) (t : ℤ × ℤ → Option UInt64) k q,
      setScenesById gs none t k = some q → t k = some q := by
    intro gs t k q h
    rw [setScenesById] at h
    split_ifs at h
    exact h
  unfold unreggs
  cases r.peer2gs p with
  | none => exact ⟨fun _ _ h => h, fun _ _ h => h, fun _ _ h => h⟩
  | some gs =>
      dsimp only
      cases r.gs2peer gs.gsid with
      | none => exact ⟨fun _ _ h => h, fun _ _ h => hupdate _ _ _ _ h, fun _ _ h => h⟩
      | some _ =>
          exact ⟨fun _ _ h => hupdate _ _ _ _ h, fun _ _ h => hupdate _ _ _ _ h,
            fun _ _ h => hscenes _ _ _ _ h⟩

end Registry

namespace ClientsById

variable {t : ClientsById} {p q gspeerid uid : UInt64} {client : Client}

/-- A client was there, or has just joined. -/
theorem joinuser_some (h : t.joinuser p uid q = some client) :
    t q = some client ∨ q = p ∧ client = ⟨.logined, 0, uid⟩ := by
  refine (update_eq_some h).imp_right ?_
  rintro ⟨hq, heq⟩
  exact ⟨hq, (Option.some.inj heq).symm⟩

/-- A client after `cm_bindgs` is one from before, or the same with the new binding. -/
theorem bindgs_some (h : (t.bindgs p gspeerid).2 q = some client) :
    t q = some client ∨ q = p ∧ ∃ old, t p = some old ∧ client = { old with gspeerid } := by
  unfold bindgs at h
  split at h
  · rename_i old hold
    split_ifs at h
    · refine (update_eq_some h).imp_right ?_
      rintro ⟨hq, heq⟩
      exact ⟨hq, old, hold, (Option.some.inj heq).symm⟩
    · exact Or.inl h
  · exact Or.inl h

/-- A client that `rmclient` leaves was there. -/
theorem rmclient_some (h : (t.rmclient p).2 q = some client) : t q = some client := by
  unfold rmclient at h
  split at h
  · exact (update_eq_some h).resolve_right fun hnew => nomatch hnew.2
  · exact h

theorem rmclients_some (h : t.rmclients gspeerid q = some client) : t q = some client := by
  rw [rmclients, Option.filter_eq_some_iff] at h
  exact h.1

end ClientsById

namespace ById

variable {calls : List TableCall} {T T' : ById} {c : TableCall}

theorem Owned.start : Owned [] make := by
  refine ⟨?_, ?_, ?_, ?_, ?_⟩
  · rintro g p ⟨⟩
  · rintro p gs ⟨⟩
  · rintro g s p ⟨⟩
  · rintro p client ⟨⟩
  · rintro p client ⟨⟩

/-- A call that leaves the game servers alone. -/
theorem Owned.of_clients (hT : T.Owned calls) (hregistry : T'.registry = T.registry)
    (hclients : ∀ p client, T'.clients p = some client → T.clients p = some client ∨
      c = .joinuser p client.accountid ∧ client.gspeerid = 0 ∨
      c = .bindgs p client.gspeerid ∧ ∃ old, T.clients p = some old ∧
        old.accountid = client.accountid) : T'.Owned (calls ++ [c]) := by
  have hold : ∀ {d}, d ∈ calls → d ∈ calls ++ [c] := fun h => List.mem_append_left _ h
  have hnew : c ∈ calls ++ [c] := List.mem_append_right _ List.mem_cons_self
  refine ⟨?_, ?_, ?_, ?_, ?_⟩
  · intro g p h
    rw [hregistry] at h
    obtain ⟨gs, hgs, hid⟩ := hT.server g p h
    exact ⟨gs, hold hgs, hid⟩
  · intro p gs h
    rw [hregistry] at h
    exact hold (hT.record p gs h)
  · intro g s p h
    rw [hregistry] at h
    obtain ⟨gs, hgs, hscene⟩ := hT.scene g s p h
    exact ⟨gs, hold hgs, hscene⟩
  · intro p client h
    rcases hclients p client h with h | ⟨rfl, -⟩ | ⟨-, old, h, haccount⟩
    · exact hold (hT.account p client h)
    · exact hnew
    · rw [← haccount]
      exact hold (hT.account p old h)
  · intro p client h
    rcases hclients p client h with h | ⟨-, hzero⟩ | ⟨rfl, -⟩
    · exact (hT.bound p client h).imp_right hold
    · exact Or.inl hzero
    · exact Or.inr hnew

/-- A call that leaves the clients alone. -/
theorem Owned.of_registry (hT : T.Owned calls) (hclients : T'.clients = T.clients)
    (hserver : ∀ g p, T'.registry.gs2peer g = some p → T.registry.gs2peer g = some p ∨
      ∃ gs, c = .reggs p gs ∧ gs.gsid = g)
    (hrecord : ∀ p gs, T'.registry.peer2gs p = some gs → T.registry.peer2gs p = some gs ∨
      c = .reggs p gs)
    (hscene : ∀ k p, T'.registry.scene2peer k = some p → T.registry.scene2peer k = some p ∨
      ∃ gs, c = .reggs p gs ∧ gs.gsid = k.1 ∧ k.2 ∈ gs.scenes) : T'.Owned (calls ++ [c]) := by
  have hold : ∀ {d}, d ∈ calls → d ∈ calls ++ [c] := fun h => List.mem_append_left _ h
  have hnew : c ∈ calls ++ [c] := List.mem_append_right _ List.mem_cons_self
  refine ⟨?_, ?_, ?_, ?_, ?_⟩
  · intro g p h
    rcases hserver g p h with h | ⟨gs, rfl, hid⟩
    · obtain ⟨gs, hgs, hid⟩ := hT.server g p h
      exact ⟨gs, hold hgs, hid⟩
    · exact ⟨gs, hnew, hid⟩
  · intro p gs h
    rcases hrecord p gs h with h | rfl
    · exact hold (hT.record p gs h)
    · exact hnew
  · intro g s p h
    rcases hscene (g, s) p h with h | ⟨gs, rfl, hkey⟩
    · obtain ⟨gs, hgs, hkey⟩ := hT.scene g s p h
      exact ⟨gs, hold hgs, hkey⟩
    · exact ⟨gs, hnew, hkey⟩
  · intro p client h
    rw [hclients] at h
    exact hold (hT.account p client h)
  · intro p client h
    rw [hclients] at h
    exact (hT.bound p client h).imp_right hold

/-- One call more. -/
theorem Owned.call (hT : T.Owned calls) (c : TableCall) : (T.call c).2.Owned (calls ++ [c]) := by
  cases c with
  | reggs p gs =>
      refine hT.of_registry rfl ?_ ?_ ?_
      · intro g q h
        refine (Registry.gs2peer_reggs h).imp_right ?_
        rintro ⟨rfl, hid⟩
        exact ⟨gs, rfl, hid⟩
      · intro q gs' h
        refine (Registry.peer2gs_reggs h).imp_right ?_
        rintro ⟨rfl, rfl⟩
        rfl
      · intro k q h
        refine (Registry.scene2peer_reggs h).imp_right ?_
        rintro ⟨rfl, hkey⟩
        exact ⟨gs, rfl, hkey⟩
  | unreggs p =>
      obtain ⟨hserver, hrecord, hscene⟩ := Registry.unreggs_some (r := T.registry) (p := p)
      exact hT.of_registry rfl (fun g q h => Or.inl (hserver g q h))
        (fun q gs h => Or.inl (hrecord q gs h)) fun k q h => Or.inl (hscene k q h)
  | getpidbyid g => exact hT.of_clients rfl fun _ _ => Or.inl
  | getgs => exact hT.of_clients rfl fun _ _ => Or.inl
  | joinuser p uid =>
      refine hT.of_clients rfl fun q client h => ?_
      refine (ClientsById.joinuser_some h).imp_right ?_
      rintro ⟨rfl, rfl⟩
      exact Or.inl ⟨rfl, rfl⟩
  | bindgs p gspeerid =>
      refine hT.of_clients rfl fun q client h => ?_
      refine (ClientsById.bindgs_some h).imp_right ?_
      rintro ⟨rfl, old, hold, rfl⟩
      exact Or.inr ⟨rfl, old, hold, rfl⟩
  | getidbycid p => exact hT.of_clients rfl fun _ _ => Or.inl
  | rmclient p => exact hT.of_clients rfl fun _ _ h => Or.inl (ClientsById.rmclient_some h)
  | rmclients gspeerid =>
      exact hT.of_clients rfl fun _ _ h => Or.inl (ClientsById.rmclients_some h)

end ById

/-! ## The ids survive -/

/-- **Peer ids survive as text.**  Every id is 16 digits in lower case in every buffer of at least
17 bytes, the same as in Python, and both languages read it back; different ids have different
texts; and after whatever calls on the tables of the gate, in whatever order, the answers and the
tables are those of tables keyed by the ids themselves, whose entries the calls for the same peers
have put there. -/
theorem uuids_survive :
    (∀ (uuid : UInt64) {n : ℕ} (buf : CharArray n), 17 ≤ n →
      Survives uuid (uuid2hexBuf uuid buf).2.bytes) ∧
    (∀ (uuid uuid' : UInt64) {n n' : ℕ} (buf : CharArray n) (buf' : CharArray n'), 17 ≤ n →
      17 ≤ n' → text (uuid2hexBuf uuid buf).2.bytes = text (uuid2hexBuf uuid' buf').2.bytes →
        uuid = uuid') ∧
    ∀ calls : List TableCall,
      respond GateTables.call GateTables.make calls
          = ((respond ById.call ById.make calls).1,
            (respond ById.call ById.make calls).2.encode) ∧
        (respond ById.call ById.make calls).2.Owned calls := by
  refine ⟨fun uuid n buf hn => survives uuid buf hn, ?_, ?_⟩
  · intro uuid uuid' n n' buf buf' hn hn' heq
    rw [(survives uuid buf hn).key, (survives uuid' buf' hn').key] at heq
    exact uuid2hex_injective heq
  · intro calls
    refine ⟨?_, respond_history (fun done (T : ById) => T.Owned done) (fun _ _ c hT => hT.call c)
      ById.Owned.start calls⟩
    rw [← ById.encode_make]
    exact respond_map encode_call _ _

/-- An id with leading zeros, in a buffer as `gm_reggs` allocates it. -/
theorem uuids_survive_leading_zeros :
    Survives 0xDEADBEEF (uuid2hexBuf 0xDEADBEEF (CharArray.mk (List.replicate 64 7) rfl)).2.bytes ∧
      text (uuid2hexBuf 0xDEADBEEF (CharArray.mk (List.replicate 64 7) rfl)).2.bytes
        = ascii "00000000deadbeef" :=
  ⟨uuids_survive.1 _ _ (by decide), by decide⟩

end Zevent.Webgame

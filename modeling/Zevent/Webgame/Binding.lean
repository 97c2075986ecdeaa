/-
# Clients bound to game servers

The gate's client thread binds a client to a game server (`cm_logic.c`): it looks the
server up in the tables of `gs_manager.c` under one mutex, and writes the peer id into
the client under the mutex of `client_manager.c`.  When a game server disconnects, the
game-server thread removes the clients bound to it (`cm_rmclients`) and then its entries
(`gm_unreggs`), again under the two mutexes.  A third thread adds clients that have
logged in (`cm_joinuser`).

A step of the model is one lock section, so a thread is, between two sections of one
request, in a phase that holds what it has looked up.

* `BindLive` is the guard: a peer id is written into a client only while that server is
  registered and its disconnect is not half done.  `bound_registered` is the result.
* `bound_to_dead` is an interleaving outside the guard: the server goes between the
  look-up and the write.
-/
import Mathlib.Tactic
import Zevent.Lib.Encoded
import Zevent.Lib.Interleaving
import Zevent.Webgame.GsManager

namespace Zevent.Webgame

open Interleaving

/-! ## Clients -/

/-- `client_state`. -/
inductive ClientState
  | init
  | logined
  | entered
deriving DecidableEq, Repr

/-- `client_t`. -/
structure Client where
  state : ClientState
  gspeerid : UInt64
  accountid : UInt64
deriving DecidableEq, Repr

/-- The table `clients` of `client_manager_t`, by the hexadecimal peer id. -/
abbrev Clients := List UInt8 → Option Client

namespace Clients

/-- `cm_joinuser`. -/
def joinuser (t : Clients) (peerid uid : UInt64) : Clients :=
  Function.update t (uuid2hex peerid) (some ⟨.logined, 0, uid⟩)

/-- `cm_bindgs`. -/
def bindgs (t : Clients) (peerid gspeerid : UInt64) : ℤ × Clients :=
  match t (uuid2hex peerid) with
  | some client =>
      (0, if client.state = .logined then
            Function.update t (uuid2hex peerid) (some { client with gspeerid := gspeerid })
          else t)
  | none => (-1, t)

/-- `cm_getidbycid`. -/
def getidbycid (t : Clients) (peerid : UInt64) : Option (UInt64 × UInt64) :=
  (t (uuid2hex peerid)).map fun client => (client.gspeerid, client.accountid)

/-- `cm_rmclient`. -/
def rmclient (t : Clients) (peerid : UInt64) : ℤ × Clients :=
  match t (uuid2hex peerid) with
  | some _ => (0, Function.update t (uuid2hex peerid) none)
  | none => (-1, t)

/-- `cm_rmclients`: the loop over the table deletes every client of the server. -/
def rmclients (t : Clients) (gspeerid : UInt64) : Clients := fun key =>
  (t key).filter fun client => client.gspeerid != gspeerid

end Clients

/-! ## The threads of the gate -/

/-- What the client thread holds between two lock sections of a request: nothing; in
`cm_logic_data2gs`, an unbound client for which it will ask `gm_getgs`; a client and the
server it has looked up for it; a client that has disconnected. -/
inductive ClientPhase
  | idle
  | unbound (peerid : UInt64)
  | lookedUp (peerid gspeerid : UInt64)
  | leaving (peerid : UInt64)
deriving DecidableEq, Repr

/-- The game-server thread is between `cm_rmclients` and `gm_unreggs`, or not. -/
inductive ServerPhase
  | idle
  | cut (gspeerid : UInt64)
deriving DecidableEq, Repr

structure Gate where
  gm : GsManager
  clients : Clients
  clientThread : ClientPhase
  serverThread : ServerPhase

/-- One lock section.  `getgs` carries the answer of `gm_getgs`: its loop does not count,
so it finds the first key of `peer2gs` in the order of the hash table, or none. -/
inductive Section
  | joinuser (peerid uid : UInt64)
  | getpidbyid (peerid : UInt64) (gsid : ℤ)
  | getidbycid (peerid : UInt64)
  | getgs (first : Option (List UInt8))
  | bindgs
  | disconnect (peerid : UInt64)
  | rmclient
  | reggs (gspeerid : UInt64) (gs : Gs)
  | rmclients (gspeerid : UInt64)
  | unreggs

namespace Gate

/-- `cm_start` and `gm_start`. -/
def start : Gate := ⟨GsManager.make, fun _ => none, .idle, .idle⟩

/-- One lock section of one of the threads. -/
def step (s : Gate) : Section → Option Gate
  -- the thread of the store client, `sc_logic_login`
  | .joinuser peerid uid => some { s with clients := s.clients.joinuser peerid uid }
  -- `cm_logic_bindgs`
  | .getpidbyid peerid gsid =>
      if s.clientThread = .idle then
        match s.gm.getpidbyid gsid with
        | none => some s
        | some gspeerid => some { s with clientThread := .lookedUp peerid gspeerid }
      else none
  -- `cm_logic_data2gs`
  | .getidbycid peerid =>
      if s.clientThread = .idle then
        match s.clients.getidbycid peerid with
        | none => some s
        | some (gspeerid, _) =>
            if gspeerid = 0 then some { s with clientThread := .unbound peerid } else some s
      else none
  | .getgs first =>
      match s.clientThread with
      | .unbound peerid =>
          match first with
          | none => some { s with clientThread := .idle }
          | some key =>
              if s.gm.peer2gs key ≠ none then
                some { s with clientThread := .lookedUp peerid (hex2uuid key) }
              else none
      | _ => none
  -- the end of both
  | .bindgs =>
      match s.clientThread with
      | .lookedUp peerid gspeerid =>
          some { s with clients := (s.clients.bindgs peerid gspeerid).2, clientThread := .idle }
      | _ => none
  -- `cm_logic_disconnect`
  | .disconnect peerid =>
      if s.clientThread = .idle then
        match s.clients.getidbycid peerid with
        | none => some s
        | some _ => some { s with clientThread := .leaving peerid }
      else none
  | .rmclient =>
      match s.clientThread with
      | .leaving peerid =>
          some { s with clients := (s.clients.rmclient peerid).2, clientThread := .idle }
      | _ => none
  -- `gm_logic_reggs`
  | .reggs gspeerid gs =>
      if s.serverThread = .idle then some { s with gm := (s.gm.reggs gspeerid gs).2 } else none
  -- the disconnect of a game server in `thread_entry`
  | .rmclients gspeerid =>
      if s.serverThread = .idle then
        some { s with clients := s.clients.rmclients gspeerid, serverThread := .cut gspeerid }
      else none
  | .unreggs =>
      match s.serverThread with
      | .cut gspeerid =>
          some { s with gm := (s.gm.unreggs gspeerid).2, serverThread := .idle }
      | .idle => none

/-- The game server is registered. -/
def Registered (s : Gate) (gspeerid : UInt64) : Prop := s.gm.peer2gs (uuid2hex gspeerid) ≠ none

instance (s : Gate) (gspeerid : UInt64) : Decidable (s.Registered gspeerid) :=
  inferInstanceAs (Decidable (_ ≠ _))

/-- The client is there and would take a binding. -/
def Bindable (s : Gate) (peerid : UInt64) : Prop :=
  ∃ client ∈ s.clients (uuid2hex peerid), client.state = .logined

instance (s : Gate) (peerid : UInt64) : Decidable (s.Bindable peerid) :=
  inferInstanceAs (Decidable (∃ client ∈ s.clients (uuid2hex peerid), client.state = .logined))

/-- In this phase the binding may be written: the client is not there to take it, or the
server that was looked up is registered and not on its way out. -/
def MayBind (s : Gate) : ClientPhase → Prop
  | .lookedUp peerid gspeerid =>
      ¬ s.Bindable peerid ∨ s.Registered gspeerid ∧ s.serverThread ≠ .cut gspeerid
  | _ => True

instance (s : Gate) (phase : ClientPhase) : Decidable (s.MayBind phase) :=
  match phase with
  | .lookedUp _ _ => inferInstanceAs (Decidable (_ ∨ _))
  | .idle | .unbound _ | .leaving _ => inferInstanceAs (Decidable True)

/-- The guard on the section that writes a binding. -/
def BindLive (s : Gate) : Section → Prop
  | .bindgs => s.MayBind s.clientThread
  | _ => True

instance (s : Gate) (a : Section) : Decidable (s.BindLive a) :=
  match a with
  | .bindgs => inferInstanceAs (Decidable (s.MayBind s.clientThread))
  | .joinuser _ _ | .getpidbyid _ _ | .getidbycid _ | .getgs _ | .disconnect _ | .rmclient
  | .reggs _ _ | .rmclients _ | .unreggs => inferInstanceAs (Decidable True)

end Gate

/-! ## What the sections do -/

namespace Clients

variable {t : Clients} {key : List UInt8} {client : Client} {peerid gspeerid uid : UInt64}

/-- A client is bound by `joinuser` to nothing, the others stay. -/
theorem joinuser_some (h : t.joinuser peerid uid key = some client) :
    client.gspeerid = 0 ∨ t key = some client := by
  rcases Encoded.update_eq_some h with hold | ⟨-, hnew⟩
  · exact Or.inr hold
  · rw [← Option.some.inj hnew]
    exact Or.inl rfl

/-- A client after `cm_bindgs` is one from before, or has the new binding. -/
theorem bindgs_some (h : (t.bindgs peerid gspeerid).2 key = some client) :
    t key = some client ∨ client.gspeerid = gspeerid
      ∧ ∃ old, t (uuid2hex peerid) = some old ∧ old.state = .logined := by
  unfold bindgs at h
  split at h
  · rename_i old hold
    split_ifs at h with hstate
    · refine (Encoded.update_eq_some h).imp_right ?_
      rintro ⟨-, hnew⟩
      rw [← Option.some.inj hnew]
      exact ⟨rfl, old, hold, hstate⟩
    · exact Or.inl h
  · exact Or.inl h

theorem rmclient_some (h : (t.rmclient peerid).2 key = some client) : t key = some client := by
  unfold rmclient at h
  split at h
  · exact (Encoded.update_eq_some h).resolve_right fun hnew => nomatch hnew.2
  · exact h

theorem rmclients_some (h : t.rmclients gspeerid key = some client) :
    t key = some client ∧ client.gspeerid ≠ gspeerid := by
  unfold rmclients at h
  rw [Option.filter_eq_some_iff] at h
  exact ⟨h.1, by simpa using h.2⟩

end Clients

namespace GsManager

variable {m : GsManager}

/-- A registration keeps every registered peer. -/
theorem peer2gs_reggs {p : UInt64} {gs : Gs} {key : List UInt8} (h : m.peer2gs key ≠ none) :
    (m.reggs p gs).2.peer2gs key ≠ none := by
  unfold reggs
  split
  · simp only [Function.update_apply]
    split_ifs
    · simp
    · exact h
  · exact h

/-- `gm_unreggs` takes no other peer away. -/
theorem peer2gs_unreggs {p q : UInt64} (h : q ≠ p) :
    (m.unreggs p).2.peer2gs (uuid2hex q) = m.peer2gs (uuid2hex q) := by
  have hne : uuid2hex q ≠ uuid2hex p := fun heq => h (uuid2hex_injective heq)
  unfold unreggs
  split
  · rfl
  · simp only [Function.update_of_ne hne]
    split <;> rfl

end GsManager

/-! ## One section -/

namespace Gate

/-- What the guard asks for: the server is registered and not on its way out. -/
def Live (s : Gate) (gspeerid : UInt64) : Prop :=
  s.Registered gspeerid ∧ s.serverThread ≠ .cut gspeerid

/-- The invariant of guarded runs: a client's server, if it has one, is live. -/
def Inv (s : Gate) : Prop :=
  ∀ key client, s.clients key = some client → client.gspeerid ≠ 0 → s.Live client.gspeerid

/-- A step that leaves the server side alone keeps the invariant when every client it leaves
was there, is unbound, or is bound to a live server. -/
theorem Inv.of_clients {s s' : Gate} (hs : Inv s) (hgm : s'.gm = s.gm)
    (hthread : s'.serverThread = s.serverThread)
    (hclients : ∀ key client, s'.clients key = some client →
      s.clients key = some client ∨ client.gspeerid = 0 ∨ s.Live client.gspeerid) :
    Inv s' := by
  intro key client hclient hne
  have hlive : s.Live client.gspeerid := by
    rcases hclients key client hclient with h | h | h
    · exact hs key client h hne
    · exact absurd h hne
    · exact h
  refine ⟨?_, ?_⟩
  · unfold Registered
    rw [hgm]
    exact hlive.1
  · rw [hthread]
    exact hlive.2

/-- Every lock section the guard allows keeps the invariant. -/
theorem inv_step {s s' : Gate} {a : Section} (hs : Inv s) (hok : s.BindLive a)
    (h : s.step a = some s') : Inv s' := by
  cases a with
  | joinuser peerid uid =>
      rw [step, Option.some.injEq] at h
      subst h
      refine hs.of_clients rfl rfl ?_
      intro key client hclient
      exact (Clients.joinuser_some hclient).symm.imp_right Or.inl
  | getpidbyid peerid gsid =>
      simp only [step] at h
      split_ifs at h
      split at h <;> rw [Option.some.injEq] at h <;> subst h
      · exact hs
      · exact hs.of_clients rfl rfl fun _ _ => Or.inl
  | getidbycid peerid =>
      simp only [step] at h
      split_ifs at h
      split at h
      · rw [Option.some.injEq] at h
        exact h ▸ hs
      · split_ifs at h <;> rw [Option.some.injEq] at h <;> subst h
        · exact hs.of_clients rfl rfl fun _ _ => Or.inl
        · exact hs
  | getgs first =>
      simp only [step] at h
      split at h
      · split at h
        · rw [Option.some.injEq] at h
          subst h
          exact hs.of_clients rfl rfl fun _ _ => Or.inl
        · split_ifs at h
          rw [Option.some.injEq] at h
          subst h
          exact hs.of_clients rfl rfl fun _ _ => Or.inl
      · simp at h
  | bindgs =>
      simp only [step] at h
      split at h
      · rename_i peerid gspeerid hphase
        rw [Option.some.injEq] at h
        subst h
        simp only [BindLive, hphase, MayBind] at hok
        refine hs.of_clients rfl rfl ?_
        intro key client hclient
        rcases Clients.bindgs_some hclient with hold | ⟨hnew, old, hthere, hstate⟩
        · exact Or.inl hold
        · -- the client takes the binding, so the guard speaks of its server
          have hlive := hok.resolve_left fun hnot => hnot ⟨old, hthere, hstate⟩
          rw [hnew]
          exact Or.inr (Or.inr hlive)
      · simp at h
  | disconnect peerid =>
      simp only [step] at h
      split_ifs at h
      split at h <;> rw [Option.some.injEq] at h <;> subst h
      · exact hs
      · exact hs.of_clients rfl rfl fun _ _ => Or.inl
  | rmclient =>
      simp only [step] at h
      split at h
      · rw [Option.some.injEq] at h
        subst h
        refine hs.of_clients rfl rfl ?_
        intro key client hclient
        exact Or.inl (Clients.rmclient_some hclient)
      · simp at h
  | reggs gspeerid gs =>
      simp only [step] at h
      split_ifs at h
      rw [Option.some.injEq] at h
      subst h
      intro key client hclient hne
      obtain ⟨hreg, hthread⟩ := hs key client hclient hne
      exact ⟨GsManager.peer2gs_reggs hreg, hthread⟩
  | rmclients gspeerid =>
      simp only [step] at h
      split_ifs at h
      rw [Option.some.injEq] at h
      subst h
      intro key client hclient hne
      obtain ⟨hold, hother⟩ := Clients.rmclients_some hclient
      refine ⟨(hs key client hold hne).1, ?_⟩
      intro hcut
      exact hother (ServerPhase.cut.inj hcut).symm
  | unreggs =>
      simp only [step] at h
      split at h
      · rename_i gspeerid hphase
        rw [Option.some.injEq] at h
        subst h
        intro key client hclient hne
        obtain ⟨hreg, hthread⟩ := hs key client hclient hne
        have hother : client.gspeerid ≠ gspeerid := by
          rintro rfl
          exact hthread hphase
        refine ⟨?_, by simp⟩
        show (s.gm.unreggs gspeerid).2.peer2gs _ ≠ none
        rw [GsManager.peer2gs_unreggs hother]
        exact hreg
      · simp at h

/-! ## Whole runs -/

/-- **Bound clients have a registered server.**  In every interleaving in which each binding
is written while the server that was looked up is registered and not between the two sections
of its disconnect, a client's server is registered, in every state, whether or not a request
is being handled. -/
theorem bound_registered {s : Gate} (h : Reach step BindLive start s) :
    ∀ peerid client, s.clients (uuid2hex peerid) = some client → client.gspeerid ≠ 0 →
      s.Registered client.gspeerid := by
  have hinv : Inv s := by
    refine h.invariant Inv ?_ fun _ _ _ hs hok => inv_step hs hok
    intro key client hclient
    cases hclient
  intro peerid client hclient hne
  exact (hinv _ client hclient hne).1

/-- A client is bound and stays bound while another server goes. -/
theorem bound_registered_two_servers :
    ∃ s, Reach step BindLive start s ∧ s.clients (uuid2hex 5) = some ⟨.logined, 9, 77⟩
      ∧ s.Registered 9 ∧ ¬ s.Registered 8 := by
  have hrun : (run step BindLive start
      [.reggs 9 ⟨1, []⟩, .reggs 8 ⟨2, []⟩, .joinuser 5 77, .getidbycid 5,
        .getgs (some (uuid2hex 9)), .rmclients 8, .bindgs, .unreggs]).map
        (fun s => (s.clients (uuid2hex 5), s.gm.peer2gs (uuid2hex 8)))
      = some (some ⟨.logined, 9, 77⟩, none) := by
    decide
  obtain ⟨s, hs, hstate⟩ := Option.map_eq_some_iff.mp hrun
  rw [Prod.mk.injEq] at hstate
  have hreach := Reach.refl.run _ hs
  have hbound : (9 : UInt64) ≠ 0 := by decide
  have hreg : s.Registered 9 := bound_registered hreach 5 ⟨.logined, 9, 77⟩ hstate.1 hbound
  refine ⟨s, hreach, hstate.1, hreg, ?_⟩
  exact fun hother => hother hstate.2

/-- **A client is bound to a server that is gone.**  The server disconnects between the
look-up of `cm_logic_bindgs` and its `cm_bindgs`; no request is being handled afterwards. -/
theorem bound_to_dead :
    ∃ s, Reach step Always start s ∧ s.clientThread = .idle ∧ s.serverThread = .idle
      ∧ s.clients (uuid2hex 5) = some ⟨.logined, 9, 77⟩ ∧ ¬ s.Registered 9 := by
  have hrun : (run step Always start
      [.reggs 9 ⟨1, []⟩, .joinuser 5 77, .getpidbyid 5 1, .rmclients 9, .unreggs, .bindgs]).map
        (fun s => (s.clientThread, s.serverThread, s.clients (uuid2hex 5),
          s.gm.peer2gs (uuid2hex 9)))
      = some (.idle, .idle, some ⟨.logined, 9, 77⟩, none) := by
    decide
  obtain ⟨s, hs, hstate⟩ := Option.map_eq_some_iff.mp hrun
  simp only [Prod.mk.injEq] at hstate
  obtain ⟨hclient, hserver, hbound, hgone⟩ := hstate
  exact ⟨s, Reach.refl.run _ hs, hclient, hserver, hbound, fun hreg => hreg hgone⟩

end Gate

end Zevent.Webgame

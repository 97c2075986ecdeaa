/-
# Expiry of cached searches (`rtsearch/src/cm_logic.c`, `redis_util.c`)

When the key of a search is not there, `cm_logic_get` makes it with a `ZINTERSTORE` of the
sorted sets of the words, and gives it ten minutes with an `EXPIRE`; but only if the answer to
the `ZINTERSTORE`, which is the number of members of the new key, is 1.

* The commands of a call are those that `cmLogicGet` sends, with the answers of redis; a call
  in which redis could not answer so, or in which a command fails, is not a step.
* `Sent` says in which order they can stand: an `EXPIRE` only behind the `ZINTERSTORE` of its
  key.
* `cached_keys_expire` is the result for runs in which no `ZINTERSTORE` finds two members;
  `cached_forever` is a run outside of it.

Between the calls documents may be stored and deleted, and keys may run out.
-/
import Zevent.Lib.Executions
import Zevent.Lib.Interleaving
import Zevent.Rtsearch.Get

namespace Zevent.Rtsearch

open CString Executions Interleaving Redis

/-! ## Runs -/

/-- What happens at the database. -/
inductive SearchCall
  /-- A call of `cm_logic_get`. -/
  | get (q : Query)
  /-- A call of `cm_logic_set` or `cm_logic_del`. -/
  | index (call : IndexCall)
  /-- The time of a key runs out. -/
  | timeout (key : Bytes)

section Runs

variable (scws : Bytes → List Bytes) (o : ZOptions)

/-- A successful step. -/
def searchStep (db : Db) : SearchCall → Option Db
  | .get q => do
      let s ← cmLogicGet scws q
      db.serveAll o s.sent
  | .index call => (indexStep scws db.values call).map fun st => { db with values := st }
  | .timeout key => if (db.ttl key).isSome then some (db.remove key) else none

/-- The members that the keys of a command have in common, if it is a `ZINTERSTORE`. -/
def interMembers (db : Db) (cmd : Bytes) : Option (List Bytes) :=
  match arguments cmd with
  | some (name :: _ :: num :: rest) =>
      if name = zinterstoreName then
        (Db.interKeys o num rest).bind fun keys => Db.common db.values keys
      else none
  | _ => none

/-- Not two of them. -/
def OneCommon (db : Db) (cmd : Bytes × Reply) : Prop :=
  ∀ members ∈ interMembers o db cmd.1, members.length ≤ 1

instance (db : Db) (cmd : Bytes × Reply) : Decidable (OneCommon o db cmd) :=
  inferInstanceAs (Decidable (∀ members ∈ interMembers o db cmd.1, members.length ≤ 1))

/-- No `ZINTERSTORE` of the call finds two members that all its keys have. -/
def OneFound (db : Db) : SearchCall → Prop
  | .get q => ∀ s ∈ cmLogicGet scws q, AllSteps (Db.serve o) (OneCommon o) db s.sent
  | _ => True

instance (db : Db) (call : SearchCall) : Decidable (OneFound scws o db call) :=
  match call with
  | .get q => inferInstanceAs (Decidable
      (∀ s ∈ cmLogicGet scws q, AllSteps (Db.serve o) (OneCommon o) db s.sent))
  | .index _ => inferInstanceAs (Decidable True)
  | .timeout _ => inferInstanceAs (Decidable True)

end Runs

/-- `cache:`. -/
def cachePrefix : Bytes := [99, 97, 99, 104, 101, 58]

/-- Every cached search that is there was given 600 seconds since it was made. -/
def CacheExpires (db : Db) : Prop :=
  ∀ key, cachePrefix <+: key → (db.values key).isSome → db.ttl key = some 600

/-! ## The commands of a call -/

/-- The commands of a call in their order: those that only read, a `ZINTERSTORE`, and a
`ZINTERSTORE` with an `EXPIRE` for the same key behind it.  A `ZINTERSTORE` without one has
another answer than 1. -/
inductive Sent : List (Bytes × Reply) → Prop
  | nil : Sent []
  | read {name text : Bytes} {reply : Reply} {rest : List (Bytes × Reply)}
      (hname : name ∈ [existsName, zrangeName, zrevrangeName, hmgetName]) (h : Sent rest) :
      Sent ((name ++ 32 :: text, reply) :: rest)
  | inter {text : Bytes} {reply : Reply} {rest : List (Bytes × Reply)}
      (hreply : getint reply ≠ some 1) (h : Sent rest) :
      Sent ((zinterstoreName ++ 32 :: text, reply) :: rest)
  | interExpire {key text : Bytes} {reply reply' : Reply} {rest : List (Bytes × Reply)}
      (h : Sent rest) :
      Sent ((zinterstoreName ++ 32 :: (key ++ 32 :: text), reply)
        :: (expireName ++ 32 :: (key ++ 32 :: Numerals.decimal 600), reply') :: rest)

theorem Sent.append {a b : List (Bytes × Reply)} (ha : Sent a) (hb : Sent b) :
    Sent (a ++ b) := by
  induction ha with
  | nil => exact hb
  | read hname _ ih => exact Sent.read hname ih
  | inter hreply _ ih => exact Sent.inter hreply ih
  | interExpire _ ih => exact Sent.interExpire ih

section Commands

variable {words : List Bytes} {key cachekey type : Bytes} {t : TypeSpec} {r : Replies}
  {s s₁ s₂ : GetState} {p : GetState × Bool}

/-- What a part of the loop sends. -/
def GetState.Sends (s s₁ : GetState) : Prop := ∃ cmds, s₁.sent = s.sent ++ cmds ∧ Sent cmds

theorem GetState.Sends.refl (s : GetState) : s.Sends s := ⟨[], by simp, Sent.nil⟩

theorem GetState.Sends.trans (h : s.Sends s₁) (h' : s₁.Sends s₂) : s.Sends s₂ := by
  obtain ⟨cmds, hcmds, hsent⟩ := h
  obtain ⟨cmds', hcmds', hsent'⟩ := h'
  exact ⟨cmds ++ cmds', by rw [hcmds', hcmds, List.append_assoc], hsent.append hsent'⟩

/-- A command in front of a part. -/
theorem fill_cmd_bind {α : Type} {k : Bytes → Option α} {pieces : List Bytes} {x : α}
    (h : (fill cmdLen [] pieces).bind k = some x) :
    pieces.flatten.length + 1 ≤ cmdLen ∧ k pieces.flatten = some x := by
  rw [fill_cmd] at h
  split_ifs at h with hfit
  · exact ⟨hfit, h⟩
  · cases h

/-- A command that only reads may be sent anywhere. -/
theorem sends_read {name : Bytes} (text : Bytes) (reply : Reply)
    (hname : name ∈ [existsName, zrangeName, zrevrangeName, hmgetName])
    (h : (s.send (name ++ 32 :: text) reply).Sends s₁) : s.Sends s₁ :=
  GetState.Sends.trans ⟨_, rfl, Sent.read hname Sent.nil⟩ h

/-- `expire_cache` sends one request, for 600 seconds. -/
theorem expireCache_sent (h : expireCache key r s = some p) :
    p.1.sent = s.sent ++ [(expireName ++ 32 :: (key ++ 32 :: Numerals.decimal 600), r.expire)] := by
  obtain ⟨-, h⟩ := fill_cmd_bind h
  have hcmd : [expireText, key, 32 :: Numerals.decimal (10 * 60)].flatten
      = expireName ++ 32 :: (key ++ 32 :: Numerals.decimal 600) := by
    simp [expireText]
  rw [hcmd] at h
  cases hreply : getint r.expire with
  | none =>
      rw [hreply] at h
      cases h
      rfl
  | some value =>
      rw [hreply] at h
      cases h
      rfl

/-- The text of the command that makes a key. -/
theorem flatten_zinterstorePieces (hkey : key.length + 1 ≤ cmdLen) :
    (zinterstorePieces words key type).flatten
      = zinterstoreName ++ 32 :: (key ++ 32 :: (Numerals.decimal words.length
        ++ (words.map fun w => 32 :: postingKey type w).flatten)) := by
  rw [zinterstorePieces, List.take_of_length_le (by omega)]
  simp [zinterstoreText]

/-- `make_cache` sends a ZINTERSTORE and, where it succeeds, the EXPIRE for its key. -/
theorem makeCache_sends (hkey : key.length + 1 ≤ cmdLen)
    (h : makeCache words key t r s = some p) : s.Sends p.1 := by
  obtain ⟨-, h⟩ := fill_cmd_bind h
  rw [flatten_zinterstorePieces hkey] at h
  cases hreply : getint r.inter with
  | none =>
      rw [hreply] at h
      cases h
      exact ⟨_, rfl, Sent.inter (by rw [hreply]; simp) Sent.nil⟩
  | some value =>
      rw [hreply] at h
      dsimp only at h
      split_ifs at h with hone
      · -- the key gets its time
        have hsent := expireCache_sent h
        rw [GetState.send, List.append_assoc] at hsent
        exact ⟨_, hsent, Sent.interExpire Sent.nil⟩
      · cases h
        refine ⟨_, rfl, Sent.inter ?_ Sent.nil⟩
        rw [hreply]
        exact fun h => hone (Option.some.inj h)

/-- `check_cache` reads, or makes the cache. -/
theorem checkCache_sends (h : checkCache words key t r s = some p) : s.Sends p.1 := by
  obtain ⟨hfit, h⟩ := fill_cmd_bind h
  have hcmd : [existsText, key].flatten = existsName ++ 32 :: key := by
    simp [existsText]
  rw [hcmd] at h hfit
  have hkey : key.length + 1 ≤ cmdLen := by
    rw [List.length_append, List.length_cons] at hfit
    omega
  refine sends_read key r.exist (by decide : existsName ∈ _) ?_
  cases hreply : getint r.exist with
  | none =>
      rw [hreply] at h
      cases h
      exact GetState.Sends.refl _
  | some value =>
      rw [hreply] at h
      dsimp only at h
      split_ifs at h with hzero
      · exact makeCache_sends hkey h
      · cases h
        exact GetState.Sends.refl _

/-- Writing the items of an answer sends nothing else. -/
theorem writeItems_sends {items : List Bytes} (h : writeItems t items s = some p) :
    s.Sends p.1 := by
  obtain ⟨qres, -, h⟩ := Option.bind_eq_some_iff.mp h
  cases h
  exact GetState.Sends.refl _

/-- `get_documents` sends a command that reads. -/
theorem getDocuments_sends {ids : List Bytes} (h : getDocuments t ids r s = some p) :
    s.Sends p.1 := by
  obtain ⟨-, h⟩ := fill_cmd_bind h
  obtain ⟨text, hcmd⟩ : ∃ text, (hmgetPieces t.type ids).flatten = hmgetName ++ 32 :: text :=
    ⟨dataKey t.type ++ (ids.map fun id => 32 :: text id).flatten,
      by simp [hmgetPieces, hmgetText]⟩
  rw [hcmd] at h
  refine sends_read text r.hmget (by decide : hmgetName ∈ _) ?_
  cases hreply : getstrings r.hmget with
  | none =>
      rw [hreply] at h
      cases h
      exact GetState.Sends.refl _
  | some items =>
      rw [hreply] at h
      dsimp only at h
      split_ifs at h with hnil
      · cases h
        exact GetState.Sends.refl _
      · exact writeItems_sends h

/-- `get_items` sends commands that read. -/
theorem getItems_sends (h : getItems key t r s = some p) : s.Sends p.1 := by
  obtain ⟨-, h⟩ := fill_cmd_bind h
  obtain ⟨name, text, hname, hcmd⟩ : ∃ name text,
      name ∈ [existsName, zrangeName, zrevrangeName, hmgetName] ∧
        (rangePieces key t).flatten = name ++ 32 :: text := by
    rw [rangePieces]
    split_ifs
    · exact ⟨zrangeName, _, by decide, by simp [zrangeText]; rfl⟩
    · exact ⟨zrevrangeName, _, by decide, by simp [zrevrangeText]; rfl⟩
  rw [hcmd] at h
  refine sends_read text r.range hname ?_
  cases hreply : getstrings r.range with
  | none =>
      rw [hreply] at h
      cases h
      exact GetState.Sends.refl _
  | some ids =>
      rw [hreply] at h
      dsimp only at h
      split_ifs at h with hnil
      · cases h
        exact GetState.Sends.refl _
      · exact getDocuments_sends h

/-- The requests for one type of the query. -/
theorem typeStep_sends {e : Entry × Replies} (h : typeStep words cachekey s e = some p) :
    s.Sends p.1 := by
  obtain ⟨e, r⟩ := e
  cases e with
  | null =>
      cases h
      exact GetState.Sends.refl _
  | incomplete =>
      cases h
      exact GetState.Sends.refl _
  | spec t =>
      obtain ⟨key, -, h⟩ := Option.bind_eq_some_iff.mp h
      obtain ⟨cached, hcached, h⟩ := Option.bind_eq_some_iff.mp h
      refine (checkCache_sends hcached).trans ?_
      split_ifs at h with hgo
      · exact getItems_sends h
      · cases h
        exact GetState.Sends.refl _

/-- The requests for all types, by induction on them. -/
theorem typeLoop_sends {entries : List (Entry × Replies)}
    (h : typeLoop words cachekey s entries = some s₁) : s.Sends s₁ := by
  induction entries generalizing s with
  | nil =>
      cases h
      exact GetState.Sends.refl _
  | cons e rest ih =>
      obtain ⟨next, hstep, h⟩ := Option.bind_eq_some_iff.mp h
      refine (typeStep_sends hstep).trans ?_
      split_ifs at h with hgo
      · exact ih h
      · cases h
        exact GetState.Sends.refl _

/-- **The commands of a call.** -/
theorem cmLogicGet_sent {scws : Bytes → List Bytes} {q : Query}
    (h : cmLogicGet scws q = some s) : Sent s.sent := by
  obtain ⟨cachekey, -, h⟩ := Option.bind_eq_some_iff.mp h
  obtain ⟨s₁, hloop, h⟩ := Option.bind_eq_some_iff.mp h
  obtain ⟨qres, -, h⟩ := Option.bind_eq_some_iff.mp h
  cases h
  obtain ⟨cmds, hcmds, hsent⟩ := typeLoop_sends hloop
  rw [hcmds]
  exact hsent

end Commands

/-! ## What the commands keep -/

section Keeps

variable {o : ZOptions} {db db' : Db} {dest key : Bytes}

/-- Every cached search but one. -/
def ExpiresBut (db : Db) (dest : Bytes) : Prop :=
  ∀ key, key ≠ dest → cachePrefix <+: key → (db.values key).isSome → db.ttl key = some 600

/-- A write to one key spoils the expiry of this key at most. -/
theorem expiresBut_of_update (h : CacheExpires db) {v : Option Value} {time : Option ℕ} :
    ExpiresBut ⟨Function.update db.values dest v, Function.update db.ttl dest time⟩ dest := by
  intro key hne hprefix hthere
  dsimp only at hthere ⊢
  rw [Function.update_of_ne hne] at hthere ⊢
  exact h key hprefix hthere

theorem ExpiresBut.all (h : ExpiresBut db dest)
    (hdest : (db.values dest).isSome → db.ttl dest = some 600) : CacheExpires db := by
  intro key hprefix hthere
  by_cases hne : key = dest
  · subst hne
    exact hdest hthere
  · exact h key hne hprefix hthere

theorem cacheExpires_remove (h : CacheExpires db) : CacheExpires (db.remove dest) := by
  have hbut : ExpiresBut (db.remove dest) dest := expiresBut_of_update h
  have hnone : (db.remove dest).values dest = none := Function.update_self _ _ _
  refine hbut.all fun hthere => ?_
  rw [hnone] at hthere
  cases hthere

/-- A `ZINTERSTORE` changes one key. -/
theorem zinterstore_expiresBut {args : List Bytes} {n : ℕ} (h : CacheExpires db)
    (hstore : db.zinterstore o args = some (db', n)) :
    ∃ dest rest, args = dest :: rest ∧ ExpiresBut db' dest := by
  obtain ⟨dest, num, rest, keys, members, rfl, -, -, -, rfl⟩ := Db.zinterstore_inv hstore
  refine ⟨dest, num :: rest, rfl, ?_⟩
  split_ifs
  · exact expiresBut_of_update h
  · exact expiresBut_of_update h

/-- An `EXPIRE` of ten minutes makes this key good. -/
theorem ExpiresBut.expire {n : ℕ} (h : ExpiresBut db dest)
    (hexpire : db.expire [dest, Numerals.decimal 600] = some (db', n)) : CacheExpires db' := by
  have hnum : readNat (Numerals.decimal 600) = some 600 := by decide
  rcases Db.expire_inv hnum (by decide) hexpire with ⟨rfl, hnone⟩ | rfl
  · refine h.all fun hthere => ?_
    rw [hnone] at hthere
    cases hthere
  · refine @ExpiresBut.all _ dest ?_ fun _ => Function.update_self _ _ _
    intro key hne hprefix hthere
    dsimp only
    rw [Function.update_of_ne hne]
    exact h key hne hprefix hthere

theorem arguments_name {name : Bytes}
    (h : name ∈ [existsName, zrangeName, zrevrangeName, hmgetName]) :
    arguments name = some [name] := by
  rw [List.mem_cons, List.mem_cons, List.mem_cons, List.mem_singleton] at h
  rcases h with rfl | rfl | rfl | rfl
  · decide
  · decide
  · decide
  · decide

/-- **The commands of a call keep it.**  When no `ZINTERSTORE` finds two members, one that
stores a key is followed by the `EXPIRE` of this key. -/
theorem Sent.keeps {cmds : List (Bytes × Reply)} (hsent : Sent cmds)
    (hone : AllSteps (Db.serve o) (OneCommon o) db cmds) (hserve : db.serveAll o cmds = some db')
    (h : CacheExpires db) : CacheExpires db' := by
  induction hsent generalizing db with
  | nil =>
      cases hserve
      exact h
  | @read name text reply rest hname hsent ih =>
      obtain ⟨db₁, hfirst, hrest⟩ := Option.bind_eq_some_iff.mp hserve
      obtain ⟨args, hargs, -⟩ := Db.arguments_of_serve (arguments_name hname) hfirst
      have hsame := Db.serve_read hargs hname hfirst
      subst hsame
      exact ih (hone.2 _ hfirst) hrest h
  | @inter text reply rest hreply hsent ih =>
      obtain ⟨db₁, hfirst, hrest⟩ := Option.bind_eq_some_iff.mp hserve
      refine ih (hone.2 _ hfirst) hrest ?_
      obtain ⟨args, hargs, -⟩ := Db.arguments_of_serve (by decide) hfirst
      obtain ⟨n, hstore, hn⟩ := Db.serve_zinterstore hargs hfirst
      obtain ⟨dest, num, keyArgs, keys, members, rfl, hkeys, hmembers, rfl, rfl⟩ :=
        Db.zinterstore_inv hstore
      have hinter : interMembers o db (zinterstoreName ++ 32 :: text) = some members := by
        rw [interMembers, hargs]
        dsimp only
        rw [if_pos rfl, hkeys, Option.bind_some, hmembers]
      have hle := hone.1 members hinter
      -- one member would have been answered with 1
      have hnil : members = [] := by
        by_contra hne
        have hlen : members.length = 1 := by
          have := List.length_pos_iff.mpr hne
          omega
        dsimp only at hn
        rw [hn, hlen] at hreply
        exact hreply rfl
      rw [if_pos hnil]
      exact cacheExpires_remove h
  | @interExpire key text reply reply' rest hsent ih =>
      obtain ⟨db₁, hfirst, hrest⟩ := Option.bind_eq_some_iff.mp hserve
      obtain ⟨db₂, hsecond, hrest⟩ := Option.bind_eq_some_iff.mp hrest
      refine ih ((hone.2 _ hfirst).2 _ hsecond) hrest ?_
      obtain ⟨args, hargs, hsplit⟩ := Db.arguments_of_serve (by decide) hfirst
      obtain ⟨args', hargs', hsplit'⟩ := Db.arguments_of_serve (by decide) hsecond
      obtain ⟨n, hstore, -⟩ := Db.serve_zinterstore hargs hfirst
      obtain ⟨m, hexpire⟩ := Db.serve_expire hargs' hsecond
      -- both commands name the same key, in one argument
      obtain ⟨lk, lt, hlk, -, rfl⟩ := arguments_append_blank hsplit
      obtain ⟨lk', ls, hlk', hls, rfl⟩ := arguments_append_blank hsplit'
      rw [hlk, Option.some.injEq] at hlk'
      subst hlk'
      have hseconds : ls = [Numerals.decimal 600] := by
        rw [show arguments (Numerals.decimal 600) = some [Numerals.decimal 600] by decide,
          Option.some.injEq] at hls
        exact hls.symm
      subst hseconds
      obtain ⟨k, seconds, hk⟩ := Db.expire_args hexpire
      obtain ⟨rfl, -⟩ := List.append_inj' (show lk ++ [_] = [k] ++ [seconds] from hk) rfl
      obtain ⟨dest, rest', hdest, hbut⟩ := zinterstore_expiresBut h hstore
      obtain ⟨rfl, -⟩ := List.cons.inj hdest
      exact hbut.expire hexpire

/-! ## Other calls -/

/-- A fold keeps what each of its steps keeps. -/
theorem keeps_of_foldlM {f : Store → Bytes → Option Store} {st st' : Store} {words : List Bytes}
    (hf : ∀ st word st', f st word = some st' → st' key = st key)
    (h : words.foldlM f st = some st') : st' key = st key := by
  induction words generalizing st with
  | nil =>
      cases h
      rfl
  | cons word words ih =>
      obtain ⟨st₁, hfirst, hrest⟩ := Option.bind_eq_some_iff.mp h
      exact (ih hrest).trans (hf st word st₁ hfirst)

/-- A key of the cache is no key of the documents. -/
theorem ne_dataKey (hkey : cachePrefix <+: key) (type : Bytes) : key ≠ dataKey type := by
  obtain ⟨rest, rfl⟩ := hkey
  intro h
  exact absurd (List.cons.inj h).1 (by decide)

/-- A key of the cache is no key of the index. -/
theorem ne_indexKey (hkey : cachePrefix <+: key) (type rest : Bytes) :
    key ≠ indexKey type ++ rest := by
  obtain ⟨rest', rfl⟩ := hkey
  intro h
  exact absurd (List.cons.inj h).1 (by decide)

/-- `cm_logic_set` and `cm_logic_del` leave cached searches alone. -/
theorem indexStep_cache {scws : Bytes → List Bytes} {st st' : Store} {call : IndexCall}
    (hkey : cachePrefix <+: key) (h : indexStep scws st call = some st') : st' key = st key := by
  have hindex : ∀ type, key ≠ indexKey type := by
    intro type
    have hne := ne_indexKey hkey type []
    rwa [List.append_nil] at hne
  have hposting : ∀ type word, key ≠ postingKey type word :=
    fun type word => ne_indexKey hkey type (58 :: word)
  cases call with
  | set doc =>
      obtain ⟨st₁, hdoc, hwords⟩ := Option.bind_eq_some_iff.mp h
      refine (keeps_of_foldlM ?_ hwords).trans (Store.edit_of_ne hdoc (ne_dataKey hkey _))
      intro st word st' hword
      rw [setWord] at hword
      split_ifs at hword
      · rw [Option.some.inj hword]
      · obtain ⟨st₁, hadd, hadd'⟩ := Option.bind_eq_some_iff.mp hword
        exact (Store.edit_of_ne hadd' (hindex _)).trans (Store.edit_of_ne hadd (hposting _ _))
  | del type id term =>
      obtain ⟨st₁, hdoc, hwords⟩ := Option.bind_eq_some_iff.mp h
      refine (keeps_of_foldlM ?_ hwords).trans (Store.edit_of_ne hdoc (ne_dataKey hkey _))
      intro st word st' hword
      rw [delWord] at hword
      split_ifs at hword
      · rw [Option.some.inj hword]
      · obtain ⟨st₁, hrem, hrem'⟩ := Option.bind_eq_some_iff.mp hword
        exact (Store.edit_of_ne hrem' (hindex _)).trans (Store.edit_of_ne hrem (hposting _ _))

/-- **Every step.** -/
theorem searchStep_keeps {scws : Bytes → List Bytes} {call : SearchCall} (h : CacheExpires db)
    (hone : OneFound scws o db call) (hstep : searchStep scws o db call = some db') :
    CacheExpires db' := by
  cases call with
  | get q =>
      obtain ⟨s, hget, hserve⟩ := Option.bind_eq_some_iff.mp hstep
      exact (cmLogicGet_sent hget).keeps (hone s hget) hserve h
  | index call =>
      obtain ⟨st, hst, rfl⟩ := Option.map_eq_some_iff.mp hstep
      intro key hprefix hthere
      dsimp only at hthere ⊢
      rw [indexStep_cache hprefix hst] at hthere
      exact h key hprefix hthere
  | timeout key =>
      rw [searchStep] at hstep
      split_ifs at hstep
      rw [← Option.some.inj hstep]
      exact cacheExpires_remove h

end Keeps

/-! ## Main results -/

/-- **Cached searches expire in the runs in which no intersection has two members.**  For
every segmentation, every contents of the database and every sequence of calls in which all
commands of redis succeed: if no `ZINTERSTORE` that a call sends finds two members that all its
keys have, then in every state that is reached, every key `cache:...` that is there was given
600 seconds since it was made. -/
theorem cached_keys_expire (scws : Bytes → List Bytes) (o : ZOptions) {db₀ db : Db}
    (h₀ : CacheExpires db₀) (h : Reach (searchStep scws o) (OneFound scws o) db₀ db) :
    ∀ key, cachePrefix <+: key → (db.values key).isSome → db.ttl key = some 600 :=
  h.invariant CacheExpires h₀ fun _ _ _ hdb hone hstep => searchStep_keeps hdb hone hstep

/-- `ZINTERSTORE` without options: the scores are added. -/
def plainOptions : ZOptions where
  accepts _ rest := rest = []
  score st keys m := (keys.map fun key => match st key with
    | some (.zset scores) => (scores.lookup m).getD 0
    | some (.set members) => if members.contains m then 1 else 0
    | _ => 0).sum

/-- An empty database. -/
def emptyDb : Db := ⟨fun _ => none, fun _ => none⟩

theorem emptyDb_expires : CacheExpires emptyDb := by
  intro key _ hthere
  cases hthere

/-- The document with this id is about cats. -/
def catDoc (id : ℤ) : SearchCall := .index (.set ⟨userType, id, 100, catWord, [123, 125]⟩)

/-- A search for cats, where `n` documents are found. -/
def catSearch (n : ℕ) (ids : List Bytes) : SearchCall :=
  .get ⟨catWord, [(.spec ⟨userType, 0, 10, -1⟩,
    ⟨.integer 0, .integer n, .integer 1, .array ids, .array (ids.map fun _ => [123, 125])⟩)]⟩

/-- `cache:user:|cat`. -/
def catKey : Bytes := cachePrefix ++ userType ++ 58 :: 124 :: catWord

/-- One document is found. -/
theorem cached_keys_expire_one :
    ∃ db, Reach (searchStep blankWords plainOptions) (OneFound blankWords plainOptions) emptyDb db ∧
      (db.values catKey).isSome ∧ db.ttl catKey = some 600 := by
  have hrun : (run (searchStep blankWords plainOptions) (OneFound blankWords plainOptions) emptyDb
      [catDoc 1, catSearch 1 [[49]]]).map (fun db => (db.values catKey).isSome) = some true := by
    decide
  obtain ⟨db, hdb, hthere⟩ := Option.map_eq_some_iff.mp hrun
  have hreach := Reach.refl.run _ hdb
  exact ⟨db, hreach, hthere, cached_keys_expire blankWords plainOptions emptyDb_expires hreach
    catKey ⟨userType ++ 58 :: 124 :: catWord, rfl⟩ hthere⟩

/-- **A search that is cached for ever.**  Two documents have the word: `ZINTERSTORE` answers
2, and no `EXPIRE` is sent. -/
theorem cached_forever :
    ∃ db, Reach (searchStep blankWords plainOptions) Always emptyDb db ∧
      cachePrefix <+: catKey ∧ (db.values catKey).isSome ∧ db.ttl catKey = none := by
  have hrun : (run (searchStep blankWords plainOptions) Always emptyDb
      [catDoc 1, catDoc 2, catSearch 2 [[50], [49]]]).map
        (fun db => ((db.values catKey).isSome, db.ttl catKey)) = some (true, none) := by
    decide
  obtain ⟨db, hdb, hstate⟩ := Option.map_eq_some_iff.mp hrun
  rw [Prod.mk.injEq] at hstate
  exact ⟨db, Reach.refl.run _ hdb, ⟨userType ++ 58 :: 124 :: catWord, rfl⟩, hstate⟩

end Zevent.Rtsearch

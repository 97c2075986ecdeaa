/-
# Redis commands as text, and keys that expire

A database is a store in which a key may have been given a time to live.  A command is a text
that the client library cuts at the blanks into its name and its arguments (`arguments`);
`serve` is what redis makes of it: the database after a command, when the command can have the
reply that it got.

* `EXISTS`, `ZINTERSTORE` and `EXPIRE` are modelled; of `ZRANGE`, `ZREVRANGE` and `HMGET` only
  that they answer with an array and change nothing.
* What redis takes as options behind the keys of a `ZINTERSTORE`, and the scores it gives, are
  parameters.
-/
import Zevent.Lib.Numerals
import Zevent.Lib.Redis

namespace Redis

/-! ## Commands as text -/

/-- What a client gets: nothing or an error, an integer, or an array. -/
inductive Reply
  | failed
  | integer (z : ℤ)
  | array (l : List Bytes)
  deriving DecidableEq

/-- A text as the format of a command without arguments to it: two `%` are one, and another
conversion has no meaning. -/
def unescape : Bytes → Option Bytes
  | [] => some []
  | 37 :: rest =>
      match rest with
      | [] => some [37]
      | c :: rest => if c = 37 then (unescape rest).map (37 :: ·) else none
  | c :: rest => (unescape rest).map (c :: ·)

/-- The name and the arguments of a command. -/
def arguments (cmd : Bytes) : Option (List Bytes) :=
  (unescape cmd).map fun s => (s.splitOn 32).filter (· ≠ [])

/-- `EXISTS`. -/
def existsName : Bytes := [69, 88, 73, 83, 84, 83]

/-- `ZINTERSTORE`. -/
def zinterstoreName : Bytes := [90, 73, 78, 84, 69, 82, 83, 84, 79, 82, 69]

/-- `EXPIRE`. -/
def expireName : Bytes := [69, 88, 80, 73, 82, 69]

/-- `ZRANGE`. -/
def zrangeName : Bytes := [90, 82, 65, 78, 71, 69]

/-- `ZREVRANGE`. -/
def zrevrangeName : Bytes := [90, 82, 69, 86, 82, 65, 78, 71, 69]

/-- `HMGET`. -/
def hmgetName : Bytes := [72, 77, 71, 69, 84]

/-- A number as an argument: its decimal digits and nothing else. -/
def readNat (arg : Bytes) : Option ℕ :=
  let n := arg.foldl (fun n c => 10 * n + (c.toNat - 48)) 0
  if Numerals.natDecimal n = arg then some n else none

/-! ## Keys that expire -/

/-- A database: its keys, and the time to live that a key was given. -/
structure Db where
  values : Store
  ttl : Bytes → Option ℕ

/-- What the development leaves open about `ZINTERSTORE`. -/
structure ZOptions where
  accepts : ℕ → List Bytes → Bool
  score : Store → List Bytes → Bytes → ℤ

namespace Db

/-- A key is removed. -/
def remove (db : Db) (key : Bytes) : Db :=
  ⟨Function.update db.values key none, Function.update db.ttl key none⟩

/-- A key gets a value, and no time to live. -/
def assign (db : Db) (key : Bytes) (v : Value) : Db :=
  ⟨Function.update db.values key (some v), Function.update db.ttl key none⟩

/-- `EXISTS`: how many of the keys are there. -/
def count (db : Db) (keys : List Bytes) : ℕ := keys.countP fun key => (db.values key).isSome

/-- The members of a key that `ZINTERSTORE` can intersect. -/
def sortedMembers : Option Value → Option (List Bytes)
  | none => some []
  | some (.zset scores) => some (scores.map Prod.fst)
  | some (.set members) => some members
  | some (.hash _) => none

/-- The members that all keys have; `none` is the error of a key of another kind. -/
def common (st : Store) : List Bytes → Option (List Bytes)
  | [] => some []
  | [key] => (sortedMembers (st key)).map List.dedup
  | key :: keys => do
      let members ← sortedMembers (st key)
      let rest ← common st keys
      some (rest.filter (· ∈ members))

/-- The keys that a `ZINTERSTORE` intersects. -/
def interKeys (o : ZOptions) (num : Bytes) (rest : List Bytes) : Option (List Bytes) := do
  let n ← readNat num
  if 0 < n ∧ n ≤ rest.length ∧ o.accepts n (rest.drop n) then some (rest.take n) else none

/-- `ZINTERSTORE dest num key ...`: the database and the number of members. -/
def zinterstore (o : ZOptions) (db : Db) : List Bytes → Option (Db × ℕ)
  | dest :: num :: rest => do
      let keys ← interKeys o num rest
      let members ← common db.values keys
      some (if members = [] then db.remove dest
        else db.assign dest (.zset (members.map fun m => (m, o.score db.values keys m))),
        members.length)
  | _ => none

/-- `EXPIRE key seconds`: the database and the answer. -/
def expire (db : Db) : List Bytes → Option (Db × ℕ)
  | [key, seconds] => do
      let n ← readNat seconds
      if (db.values key).isSome then
        some (if n = 0 then db.remove key
          else { db with ttl := Function.update db.ttl key (some n) }, 1)
      else some (db, 0)
  | _ => none

/-- A command with its reply: the database after it, `none` when it cannot have this reply or
fails. -/
def serve (o : ZOptions) (db : Db) (cmd : Bytes × Reply) : Option Db := do
  let args ← arguments cmd.1
  match args with
  | [] => none
  | name :: args =>
      if name = existsName then
        if args ≠ [] ∧ cmd.2 = .integer (db.count args) then some db else none
      else if name = zinterstoreName then do
        let (db', n) ← db.zinterstore o args
        if cmd.2 = .integer n then some db' else none
      else if name = expireName then do
        let (db', n) ← db.expire args
        if cmd.2 = .integer n then some db' else none
      else if name ∈ [zrangeName, zrevrangeName, hmgetName] then
        match cmd.2 with
        | .array _ => some db
        | _ => none
      else none

/-- The commands of a list one after the other. -/
def serveAll (o : ZOptions) (db : Db) (cmds : List (Bytes × Reply)) : Option Db :=
  cmds.foldlM (serve o) db

end Db

/-! ## Cutting a command -/

/-- A blank ends what stands in front of it. -/
theorem unescape_append_blank {a b t : Bytes} (h : unescape (a ++ 32 :: b) = some t) :
    ∃ ta tb, unescape a = some ta ∧ unescape b = some tb ∧ t = ta ++ 32 :: tb := by
  fun_induction unescape a generalizing t with
  | case1 =>
      rw [List.nil_append, unescape] at h
      · obtain ⟨tb, hb, rfl⟩ := Option.map_eq_some_iff.mp h
        exact ⟨[], tb, rfl, hb, rfl⟩
      · decide
  | case2 =>
      -- a percent sign before a blank is no command
      rw [List.singleton_append, unescape] at h
      cases h
  | case3 rest ih =>
      rw [List.cons_append, List.cons_append, unescape, if_pos rfl] at h
      obtain ⟨t, ht, rfl⟩ := Option.map_eq_some_iff.mp h
      obtain ⟨ta, tb, ha, hb, rfl⟩ := ih ht
      exact ⟨37 :: ta, tb, by rw [ha]; rfl, hb, rfl⟩
  | case4 c rest hc =>
      rw [List.cons_append, List.cons_append, unescape, if_neg hc] at h
      cases h
  | case5 c rest hc ih =>
      rw [List.cons_append, unescape] at h
      · obtain ⟨t, ht, rfl⟩ := Option.map_eq_some_iff.mp h
        obtain ⟨ta, tb, ha, hb, rfl⟩ := ih ht
        exact ⟨c :: ta, tb, by rw [ha]; rfl, hb, rfl⟩
      · exact hc

/-- The arguments of two texts with a blank between them. -/
theorem arguments_append_blank {a b : Bytes} {l : List Bytes}
    (h : arguments (a ++ 32 :: b) = some l) :
    ∃ la lb, arguments a = some la ∧ arguments b = some lb ∧ l = la ++ lb := by
  obtain ⟨t, ht, rfl⟩ := Option.map_eq_some_iff.mp h
  obtain ⟨ta, tb, ha, hb, rfl⟩ := unescape_append_blank ht
  refine ⟨_, _, by rw [arguments, ha]; rfl, by rw [arguments, hb]; rfl, ?_⟩
  rw [List.splitOn_append_cons_self, List.filter_append]

/-! ## What a command does -/

namespace Db

variable {o : ZOptions} {db db' : Db} {cmd : Bytes × Reply} {name : Bytes} {args : List Bytes}

/-- A command is served according to its name. -/
theorem serve_eq (hargs : arguments cmd.1 = some (name :: args)) :
    db.serve o cmd = if name = existsName then
        if args ≠ [] ∧ cmd.2 = .integer (db.count args) then some db else none
      else if name = zinterstoreName then
        (db.zinterstore o args).bind fun res => if cmd.2 = .integer res.2 then some res.1 else none
      else if name = expireName then
        (db.expire args).bind fun res => if cmd.2 = .integer res.2 then some res.1 else none
      else if name ∈ [zrangeName, zrevrangeName, hmgetName] then
        match cmd.2 with
        | .array _ => some db
        | _ => none
      else none := by
  rw [serve, hargs]
  rfl

/-- A command that only reads. -/
theorem serve_read (hargs : arguments cmd.1 = some (name :: args))
    (hname : name ∈ [existsName, zrangeName, zrevrangeName, hmgetName])
    (h : db.serve o cmd = some db') : db' = db := by
  have hinter : name ≠ zinterstoreName := by
    rintro rfl
    exact absurd hname (by decide)
  have hexpire : name ≠ expireName := by
    rintro rfl
    exact absurd hname (by decide)
  rw [serve_eq hargs, if_neg hinter, if_neg hexpire] at h
  split_ifs at h
  · exact (Option.some.inj h).symm
  · split at h
    · exact (Option.some.inj h).symm
    · cases h

/-- The answer to `ZINTERSTORE` is the size of what was stored. -/
theorem serve_zinterstore (hargs : arguments cmd.1 = some (zinterstoreName :: args))
    (h : db.serve o cmd = some db') :
    ∃ n, db.zinterstore o args = some (db', n) ∧ cmd.2 = .integer n := by
  rw [serve_eq hargs, if_neg (by decide), if_pos rfl] at h
  obtain ⟨⟨db₁, n⟩, hres, h⟩ := Option.bind_eq_some_iff.mp h
  split_ifs at h with hreply
  exact ⟨n, by rw [hres, ← Option.some.inj h], hreply⟩

/-- What is served for `EXPIRE`. -/
theorem serve_expire (hargs : arguments cmd.1 = some (expireName :: args))
    (h : db.serve o cmd = some db') : ∃ n, db.expire args = some (db', n) := by
  rw [serve_eq hargs, if_neg (by decide), if_neg (by decide), if_pos rfl] at h
  obtain ⟨⟨db₁, n⟩, hres, h⟩ := Option.bind_eq_some_iff.mp h
  split_ifs at h
  exact ⟨n, by rw [hres, ← Option.some.inj h]⟩

/-- The arguments of a command that is served. -/
theorem arguments_of_serve {text : Bytes} {reply : Reply}
    (hname : arguments name = some [name])
    (h : db.serve o (name ++ 32 :: text, reply) = some db') :
    ∃ args, arguments (name ++ 32 :: text) = some (name :: args) ∧ arguments text = some args := by
  obtain ⟨l, hl, -⟩ := Option.bind_eq_some_iff.mp h
  obtain ⟨la, args, ha, hargs, rfl⟩ := arguments_append_blank hl
  rw [hname, Option.some.injEq] at ha
  subst ha
  exact ⟨args, hl, hargs⟩

/-- What an intersection does: the key it stores to is removed or gets a new value. -/
theorem zinterstore_inv {n : ℕ} (h : db.zinterstore o args = some (db', n)) :
    ∃ dest num rest keys members, args = dest :: num :: rest ∧ interKeys o num rest = some keys ∧
      common db.values keys = some members ∧ n = members.length ∧
      db' = if members = [] then db.remove dest
        else db.assign dest (.zset (members.map fun m => (m, o.score db.values keys m))) := by
  unfold zinterstore at h
  split at h
  · rename_i dest num rest
    obtain ⟨keys, hkeys, h⟩ := Option.bind_eq_some_iff.mp h
    obtain ⟨members, hmembers, h⟩ := Option.bind_eq_some_iff.mp h
    obtain ⟨hdb, hn⟩ := Prod.mk.inj (Option.some.inj h)
    exact ⟨dest, num, rest, keys, members, rfl, hkeys, hmembers, hn.symm, hdb.symm⟩
  · cases h

/-- `EXPIRE` has a key and a number of seconds. -/
theorem expire_args {n : ℕ} (h : db.expire args = some (db', n)) :
    ∃ key seconds, args = [key, seconds] := by
  unfold expire at h
  split at h
  · exact ⟨_, _, rfl⟩
  · cases h

/-- What an `EXPIRE` with a positive time does. -/
theorem expire_inv {key seconds : Bytes} {n m : ℕ} (hseconds : readNat seconds = some n)
    (hn : 0 < n) (h : db.expire [key, seconds] = some (db', m)) :
    db' = db ∧ db.values key = none ∨
      db' = { db with ttl := Function.update db.ttl key (some n) } := by
  rw [expire, hseconds] at h
  change (if (db.values key).isSome then
      some (if n = 0 then db.remove key
        else { db with ttl := Function.update db.ttl key (some n) }, 1)
    else some (db, 0)) = some (db', m) at h
  split_ifs at h with hthere hzero
  · omega
  · exact Or.inr (Prod.mk.inj (Option.some.inj h)).1.symm
  · refine Or.inl ⟨(Prod.mk.inj (Option.some.inj h)).1.symm, ?_⟩
    rwa [Option.isSome_iff_ne_none, not_not] at hthere

end Db

end Redis

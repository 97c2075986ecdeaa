/-
# Searching (`rtsearch/src/cm_logic.c`, `cm_logic_get`)

A query has keywords and a list of types.  scws cuts the keywords into words, and the words
make up `cachekey`, a format with one `%s` for the type.  For each type the key names a sorted
set in redis that caches the documents that have all words; it is made with `ZINTERSTORE` when
it is not there, its members are the ids of the documents, and the documents are written
into `*qres`.

The strings are written with `sprintf` into three blocks, of `MAX_WORD_LEN * MAX_WORDS_NUM`
bytes, of `cmd_len` bytes and of `MAX_RES_LEN` bytes, with a check in one place only: no more
documents are written for a type once those written so far have more than
`MAX_RES_LEN - 1024` bytes.  Here a string that does not fit with its NUL is `none`, and so is
a `%` in a word that `sprintf` would take for another conversion.

`search_buffers_fit_iff` says which queries and replies fit.
-/
import Zevent.Lib.CString
import Zevent.Lib.RedisCommands
import Zevent.Rtsearch.Index

namespace Zevent.Rtsearch

open CString Redis

/-! ## Sizes and texts -/

/-- `MAX_WORDS_NUM`. -/
def maxWordsNum : ℕ := 256

/-- `MAX_RES_LEN`. -/
def maxResLen : ℕ := 1024 * 512

/-- The size of `cachekey`. -/
def cacheKeySize : ℕ := maxWordLen * maxWordsNum

/-- `cmd_len`. -/
def cmdLen : ℕ := 2 * maxWordLen * maxWordsNum + 256

/-- `cache:%s:`. -/
def cacheFormat : Bytes := [99, 97, 99, 104, 101, 58, 37, 115, 58]

/-- `EXISTS `. -/
def existsText : Bytes := existsName ++ [32]

/-- `ZINTERSTORE `. -/
def zinterstoreText : Bytes := zinterstoreName ++ [32]

/-- `EXPIRE `. -/
def expireText : Bytes := expireName ++ [32]

/-- `ZRANGE `. -/
def zrangeText : Bytes := zrangeName ++ [32]

/-- `ZREVRANGE `. -/
def zrevrangeText : Bytes := zrevrangeName ++ [32]

/-- `HMGET `. -/
def hmgetText : Bytes := hmgetName ++ [32]

/-- `{"type":"`. -/
def typeText : Bytes := [123, 34, 116, 121, 112, 101, 34, 58, 34]

/-- `,"items":[`. -/
def itemsText : Bytes := [44, 34, 105, 116, 101, 109, 115, 34, 58, 91]

/-! ## Queries and replies -/

/-- A value of type `int`. -/
def toInt (z : ℤ) : ℤ := z.bmod (2 ^ 32)

/-- An element of `types` with its four members. -/
structure TypeSpec where
  type : Bytes
  start : ℤ
  num : ℤ
  sort : ℤ
  deriving DecidableEq

/-- An element of `types`: a JSON null, one that lacks a member, or a complete one. -/
inductive Entry
  | null
  | incomplete
  | spec (t : TypeSpec)
  deriving DecidableEq

/-- `getint_redis_strcmd`, `getint_redis_cmd`: `*rv`, or `none` where they return -1. -/
def getint : Reply → Option ℤ
  | .integer z => some (toInt z)
  | _ => none

/-- `getstrings_redis_strcmd`. -/
def getstrings : Reply → Option (List Bytes)
  | .array l => some l
  | _ => none

/-- The answers to the commands for one type, as far as they are sent. -/
structure Replies where
  exist : Reply
  inter : Reply
  expire : Reply
  range : Reply
  hmget : Reply
  deriving DecidableEq

/-- A query, with the answers of redis. -/
structure Query where
  keywords : Bytes
  types : List (Entry × Replies)
  deriving DecidableEq

/-! ## `cm_logic_get` -/

/-- The words that are used, with `i` of them so far. -/
def wordLoop : ℕ → List Bytes → List Bytes
  | _, [] => []
  | i, w :: rest =>
      if w.length > maxWordLen then wordLoop i rest
      else w :: if i + 1 = maxWordsNum then [] else wordLoop (i + 1) rest

/-- `sprintf` with `cachekey` as the format and the type as the only argument, which is used
up or not: a second conversion is undefined. -/
def expand (type : Bytes) : Bool → Bytes → Option Bytes
  | _, [] => some []
  | used, 37 :: rest =>
      match rest with
      | 37 :: rest => (expand type used rest).map (37 :: ·)
      | 115 :: rest => if used then none else (expand type true rest).map (type ++ ·)
      | _ => none
  | used, c :: rest => (expand type used rest).map (c :: ·)

/-- What the loop over the types has: `*qres`, its three counters, and the commands sent with
their answers. -/
structure GetState where
  qres : Bytes
  ntypes : ℕ
  ntotal : ℕ
  rv : ℤ
  sent : List (Bytes × Reply)
  deriving DecidableEq

/-- A command was sent. -/
def GetState.send (s : GetState) (cmd : Bytes) (reply : Reply) : GetState :=
  { s with rv := 0, sent := s.sent ++ [(cmd, reply)] }

/-- A command failed. -/
def GetState.fail (s : GetState) : GetState := { s with rv := -1 }

/-- The pieces of the `ZINTERSTORE` command.  `snprintf` is given `cmd_len` as the room behind
the name of the command. -/
def zinterstorePieces (words : List Bytes) (key type : Bytes) : List Bytes :=
  zinterstoreText :: key.take (cmdLen - 1) :: (32 :: Numerals.decimal words.length)
    :: words.map fun w => 32 :: postingKey type w

/-- The part that sets the time of a new key to ten minutes, and whether the loop goes on. -/
def expireCache (key : Bytes) (r : Replies) (s : GetState) : Option (GetState × Bool) := do
  let cmd ← fill cmdLen [] [expireText, key, 32 :: Numerals.decimal (10 * 60)]
  let s := s.send cmd r.expire
  match getint r.expire with
  | none => some (s.fail, false)
  | some _ => some (s, true)

/-- The part that makes the key. -/
def makeCache (words : List Bytes) (key : Bytes) (t : TypeSpec) (r : Replies) (s : GetState) :
    Option (GetState × Bool) := do
  let cmd ← fill cmdLen [] (zinterstorePieces words key t.type)
  let s := s.send cmd r.inter
  match getint r.inter with
  | none => some (s.fail, false)
  | some value => if value = 1 then expireCache key r s else some (s, true)

/-- The part for the cache. -/
def checkCache (words : List Bytes) (key : Bytes) (t : TypeSpec) (r : Replies) (s : GetState) :
    Option (GetState × Bool) := do
  let cmd ← fill cmdLen [] [existsText, key]
  let s := s.send cmd r.exist
  match getint r.exist with
  | none => some (s.fail, false)
  | some value => if value = 0 then makeCache words key t r s else some (s, true)

/-- The pieces of the `ZRANGE` or `ZREVRANGE` command. -/
def rangePieces (key : Bytes) (t : TypeSpec) : List Bytes :=
  [if t.sort = 1 then zrangeText else zrevrangeText, key,
    32 :: Numerals.decimal t.start ++ 32 :: Numerals.decimal (toInt (t.start + t.num - 1))]

/-- The pieces of the `HMGET` command. -/
def hmgetPieces (type : Bytes) (ids : List Bytes) : List Bytes :=
  (hmgetText ++ dataKey type) :: ids.map fun id => 32 :: text id

/-- The documents that are written when `ntotal` bytes were written before. -/
def shown : ℕ → List Bytes → List Bytes
  | _, [] => []
  | ntotal, item :: items =>
      if ntotal > maxResLen - 1024 then [] else item :: shown (ntotal + item.length) items

/-- The documents of a type with their commas. -/
def itemPieces : List Bytes → List Bytes
  | [] => []
  | [item] => [text item]
  | item :: items => text item :: [44] :: itemPieces items

/-- What is written for a type. -/
def typePieces (ntypes ntotal : ℕ) (type : Bytes) (items : List Bytes) : List Bytes :=
  (if ntypes > 0 then [[44]] else []) ++ [typeText ++ type ++ [34], itemsText]
    ++ itemPieces (shown ntotal items) ++ [[93], [125]]

/-- The part that writes the documents, and whether the loop goes on. -/
def writeItems (t : TypeSpec) (items : List Bytes) (s : GetState) : Option (GetState × Bool) := do
  let qres ← fill maxResLen s.qres (typePieces s.ntypes s.ntotal t.type items)
  some ({ s with
    qres := qres
    ntypes := s.ntypes + 1
    ntotal := s.ntotal + ((shown s.ntotal items).map List.length).sum }, true)

/-- The part that asks for the documents. -/
def getDocuments (t : TypeSpec) (ids : List Bytes) (r : Replies) (s : GetState) :
    Option (GetState × Bool) := do
  let cmd ← fill cmdLen [] (hmgetPieces t.type ids)
  let s := s.send cmd r.hmget
  match getstrings r.hmget with
  | none => some (s.fail, false)
  | some items => if items = [] then some (s, true) else writeItems t items s

/-- The part for the documents. -/
def getItems (key : Bytes) (t : TypeSpec) (r : Replies) (s : GetState) :
    Option (GetState × Bool) := do
  let cmd ← fill cmdLen [] (rangePieces key t)
  let s := s.send cmd r.range
  match getstrings r.range with
  | none => some (s.fail, true)
  | some ids => if ids = [] then some (s, true) else getDocuments t ids r s

/-- The body of the loop over the types, and whether the loop goes on. -/
def typeStep (words : List Bytes) (cachekey : Bytes) (s : GetState) :
    Entry × Replies → Option (GetState × Bool)
  | (.null, _) => some (s, true)
  | (.incomplete, _) => some (s.fail, false)
  | (.spec t, r) => do
      let key ← expand t.type false cachekey
      let cached ← checkCache words key t r s
      if cached.2 then getItems key t r cached.1 else some cached

/-- The loop over the types. -/
def typeLoop (words : List Bytes) (cachekey : Bytes) :
    GetState → List (Entry × Replies) → Option GetState
  | s, [] => some s
  | s, e :: rest => do
      let next ← typeStep words cachekey s e
      if next.2 then typeLoop words cachekey next.1 rest else some next.1

/-- `cm_logic_get` from the segmentation on: the state at the end, with `*qres` complete. -/
def cmLogicGet (scws : Bytes → List Bytes) (q : Query) : Option GetState := do
  let words := wordLoop 0 (scws q.keywords)
  let cachekey ← fill cacheKeySize [] (cacheFormat :: words.map fun w => 124 :: w)
  let s ← typeLoop words cachekey ⟨[91], 0, 0, 0, []⟩ q.types
  let qres ← fill maxResLen s.qres [[93]]
  some { s with qres := qres }

/-! ## What has to fit -/

/-- The command that makes the cache of a type fits. -/
def ZinterstoreFits (words : List Bytes) (key : Bytes) (t : TypeSpec) : Prop :=
  12 + min (cmdLen - 1) key.length + (1 + (Numerals.decimal words.length).length)
    + (words.map fun w => 8 + t.type.length + w.length).sum + 1 ≤ cmdLen

/-- The commands for the cache fit, as far as they are sent. -/
def CacheFits (words : List Bytes) (key : Bytes) (t : TypeSpec) (r : Replies) : Prop :=
  7 + key.length + 1 ≤ cmdLen ∧
    (getint r.exist = some 0 → ZinterstoreFits words key t ∧
      (getint r.inter = some 1 → 7 + key.length + 4 + 1 ≤ cmdLen))

/-- No command for the cache fails. -/
def cacheOk (r : Replies) : Bool :=
  match getint r.exist with
  | none => false
  | some value =>
      if value = 0 then
        match getint r.inter with
        | none => false
        | some value => if value = 1 then (getint r.expire).isSome else true
      else true

/-- The command for the ids fits. -/
def RangeFits (key : Bytes) (t : TypeSpec) : Prop :=
  (if t.sort = 1 then 7 else 10) + key.length
    + (2 + (Numerals.decimal t.start).length
      + (Numerals.decimal (toInt (t.start + t.num - 1))).length) + 1 ≤ cmdLen

/-- The command for the documents fits. -/
def HmgetFits (type : Bytes) (ids : List Bytes) : Prop :=
  11 + type.length + (ids.map fun id => 1 + (text id).length).sum + 1 ≤ cmdLen

/-- How much is written for a type. -/
def typeLength (ntypes ntotal : ℕ) (type : Bytes) (items : List Bytes) : ℕ :=
  (if ntypes > 0 then 1 else 0) + (10 + type.length) + 10
    + (((shown ntotal items).map fun item => (text item).length + 1).sum - 1) + 2

/-- The rest of the query fits behind `written` bytes. -/
def TypesFit (words : List Bytes) (cachekey : Bytes) :
    ℕ → ℕ → ℕ → List (Entry × Replies) → Prop
  | written, _, _, [] => written + 2 ≤ maxResLen
  | written, ntypes, ntotal, (.null, _) :: rest =>
      TypesFit words cachekey written ntypes ntotal rest
  | written, _, _, (.incomplete, _) :: _ => written + 2 ≤ maxResLen
  | written, ntypes, ntotal, (.spec t, r) :: rest =>
      ∃ key, expand t.type false cachekey = some key ∧ CacheFits words key t r ∧
        if cacheOk r then
          RangeFits key t ∧
            match getstrings r.range with
            | none => TypesFit words cachekey written ntypes ntotal rest
            | some ids =>
                if ids = [] then TypesFit words cachekey written ntypes ntotal rest
                else
                  HmgetFits t.type ids ∧
                    match getstrings r.hmget with
                    | none => written + 2 ≤ maxResLen
                    | some items =>
                        if items = [] then TypesFit words cachekey written ntypes ntotal rest
                        else
                          written + typeLength ntypes ntotal t.type items + 1 ≤ maxResLen ∧
                            TypesFit words cachekey
                              (written + typeLength ntypes ntotal t.type items) (ntypes + 1)
                              (ntotal + ((shown ntotal items).map List.length).sum) rest
        else written + 2 ≤ maxResLen

/-- The query fits, with the answers that redis gives. -/
def Query.Fits (scws : Bytes → List Bytes) (q : Query) : Prop :=
  let words := wordLoop 0 (scws q.keywords)
  9 + (words.map fun w => 1 + w.length).sum + 1 ≤ cacheKeySize ∧
    TypesFit words (cacheFormat ++ words.flatMap fun w => 124 :: w) 1 0 0 q.types

/-! ## Lengths -/

section Lengths

variable {words : List Bytes} {key type : Bytes} {t : TypeSpec} {r : Replies}

theorem length_flatten_map {α : Type} (f : α → Bytes) (l : List α) :
    (l.map f).flatten.length = (l.map fun a => (f a).length).sum := by
  rw [List.length_flatten, List.map_map]
  rfl

/-- The pieces of a command fit when they and the NUL do. -/
theorem fill_cmd (pieces : List Bytes) :
    fill cmdLen [] pieces
      = if pieces.flatten.length + 1 ≤ cmdLen then some pieces.flatten else none := by
  rw [fill_eq (by decide), List.length_nil, Nat.zero_add, List.nil_append]

/-- The length of a ZINTERSTORE. -/
theorem length_zinterstorePieces :
    (zinterstorePieces words key type).flatten.length
      = 12 + min (cmdLen - 1) key.length + (1 + (Numerals.decimal words.length).length)
        + (words.map fun w => 8 + type.length + w.length).sum := by
  have hword : ∀ w, (32 :: postingKey type w : Bytes).length = 8 + type.length + w.length := by
    intro w
    simp only [postingKey, indexKey, List.length_cons, List.length_append, List.length_nil]
    omega
  rw [zinterstorePieces, List.flatten_cons, List.flatten_cons, List.flatten_cons,
    List.length_append, List.length_append, List.length_append, length_flatten_map,
    List.length_take, List.length_cons, show zinterstoreText.length = 12 from rfl]
  simp only [hword]
  omega

theorem length_rangePieces :
    (rangePieces key t).flatten.length = (if t.sort = 1 then 7 else 10) + key.length
      + (2 + (Numerals.decimal t.start).length
        + (Numerals.decimal (toInt (t.start + t.num - 1))).length) := by
  have hname : (if t.sort = 1 then zrangeText else zrevrangeText).length
      = if t.sort = 1 then 7 else 10 := by
    split_ifs <;> rfl
  simp only [rangePieces, List.flatten_cons, List.flatten_nil, List.append_nil,
    List.length_append, List.length_cons, hname]
  omega

/-- The length of an HMGET. -/
theorem length_hmgetPieces (ids : List Bytes) :
    (hmgetPieces type ids).flatten.length
      = 11 + type.length + (ids.map fun id => 1 + (text id).length).sum := by
  rw [hmgetPieces, List.flatten_cons, List.length_append, length_flatten_map,
    List.length_append, dataKey, List.length_append, show hmgetText.length = 6 from rfl]
  simp only [List.length_cons, List.length_nil, Nat.add_comm _ 1]
  omega

theorem length_itemPieces (items : List Bytes) :
    (itemPieces items).flatten.length
      = (items.map fun item => (text item).length + 1).sum - 1 := by
  fun_induction itemPieces items with
  | case1 => rfl
  | case2 item => simp
  | case3 item items hne ih =>
      have hpos : 0 < (items.map fun item => (text item).length + 1).sum := by
        cases items with
        | nil => exact absurd rfl hne
        | cons item' items =>
            rw [List.map_cons, List.sum_cons]
            omega
      rw [List.flatten_cons, List.flatten_cons, List.length_append, List.length_append, ih,
        List.map_cons, List.sum_cons, List.length_singleton]
      omega

theorem length_typePieces (ntypes ntotal : ℕ) (items : List Bytes) :
    (typePieces ntypes ntotal type items).flatten.length
      = typeLength ntypes ntotal type items := by
  have hcomma : (if ntypes > 0 then [[44]] else [] : List Bytes).flatten.length
      = if ntypes > 0 then 1 else 0 := by
    split_ifs <;> rfl
  rw [typePieces, typeLength, List.flatten_append, List.flatten_append, List.flatten_append,
    List.length_append, List.length_append, List.length_append, hcomma, length_itemPieces]
  simp only [List.flatten_cons, List.flatten_nil, List.append_nil, List.length_append,
    List.length_cons, List.length_nil, typeText, itemsText]
  omega

end Lengths

/-! ## The parts -/

section Parts

variable {words : List Bytes} {key cachekey : Bytes} {t : TypeSpec} {r : Replies}
  {s s₁ s₂ : GetState} {res : Option (GetState × Bool)} {fits : Prop} {go : Bool}

/-- What is written into `*qres`, and the counters for it, are the same. -/
def GetState.SameText (s s₁ : GetState) : Prop :=
  s₁.qres = s.qres ∧ s₁.ntypes = s.ntypes ∧ s₁.ntotal = s.ntotal

theorem GetState.SameText.trans (h : s.SameText s₁) (h' : s₁.SameText s₂) : s.SameText s₂ :=
  ⟨h'.1.trans h.1, h'.2.1.trans h.2.1, h'.2.2.trans h.2.2⟩

/-- A part of the loop that overflows unless `fits`, leaves `*qres` alone, and goes on or not. -/
def Does (s : GetState) (res : Option (GetState × Bool)) (fits : Prop) (go : Bool) : Prop :=
  (fits → ∃ s₁, res = some (s₁, go) ∧ s.SameText s₁) ∧ (¬ fits → res = none)

theorem does_some (h : s.SameText s₁) : Does s (some (s₁, go)) True go :=
  ⟨fun _ => ⟨s₁, rfl, h⟩, fun hne => absurd trivial hne⟩

/-- A command in front of a part. -/
theorem does_send {k : GetState → Option (GetState × Bool)} (pieces : List Bytes) (reply : Reply)
    {n : ℕ} (hlen : pieces.flatten.length = n)
    (h : ∀ s₁, s.SameText s₁ → Does s₁ (k s₁) fits go) :
    Does s ((fill cmdLen [] pieces).bind fun cmd => k (s.send cmd reply))
      (n + 1 ≤ cmdLen ∧ fits) go := by
  subst hlen
  rw [fill_cmd]
  by_cases hfit : pieces.flatten.length + 1 ≤ cmdLen
  · rw [if_pos hfit, Option.bind_some]
    have hsend : s.SameText (s.send pieces.flatten reply) := ⟨rfl, rfl, rfl⟩
    obtain ⟨hdoes, hnone⟩ := h _ hsend
    refine ⟨fun hf => ?_, fun hf => hnone fun hfits => hf ⟨hfit, hfits⟩⟩
    obtain ⟨s₁, hs₁, hsame⟩ := hdoes hf.2
    exact ⟨s₁, hs₁, hsend.trans hsame⟩
  · rw [if_neg hfit, Option.bind_none]
    exact ⟨fun hf => absurd hf.1 hfit, fun _ => rfl⟩

theorem Does.congr {fits' : Prop} (h : Does s res fits go) (hiff : fits ↔ fits') :
    Does s res fits' go := by
  rwa [← propext hiff]

/-- `expire_cache` needs room for its command. -/
theorem expireCache_does (key : Bytes) (r : Replies) (s : GetState) :
    Does s (expireCache key r s) (7 + key.length + 4 + 1 ≤ cmdLen) (getint r.expire).isSome := by
  have hlen : [expireText, key, 32 :: Numerals.decimal (10 * 60)].flatten.length
      = 7 + key.length + 4 := by
    have hsix : (Numerals.decimal (10 * 60)).length = 3 := by decide
    rw [List.flatten_cons, List.flatten_cons, List.flatten_cons, List.length_append,
      List.length_append, List.length_append, List.length_cons, hsix]
    rw [show expireText.length = 7 from rfl, List.flatten_nil, List.length_nil]
    omega
  refine (does_send (k := fun s => match getint r.expire with
    | none => some (s.fail, false)
    | some _ => some (s, true)) _ r.expire hlen fun s₁ _ => ?_).congr (and_iff_left trivial)
  cases getint r.expire with
  | none => exact does_some ⟨rfl, rfl, rfl⟩
  | some value => exact does_some ⟨rfl, rfl, rfl⟩

/-- `make_cache` needs room for the ZINTERSTORE, then for the EXPIRE. -/
theorem makeCache_does (words : List Bytes) (key : Bytes) (t : TypeSpec) (r : Replies)
    (s : GetState) :
    Does s (makeCache words key t r s)
      (ZinterstoreFits words key t ∧
        (getint r.inter = some 1 → 7 + key.length + 4 + 1 ≤ cmdLen))
      (match getint r.inter with
        | none => false
        | some value => if value = 1 then (getint r.expire).isSome else true) := by
  refine does_send (k := fun s => match getint r.inter with
    | none => some (s.fail, false)
    | some value => if value = 1 then expireCache key r s else some (s, true)) _ r.inter
    length_zinterstorePieces fun s₁ _ => ?_
  cases hint : getint r.inter with
  | none => exact (does_some ⟨rfl, rfl, rfl⟩).congr (by simp)
  | some value =>
      dsimp only
      by_cases hone : value = 1
      · rw [if_pos hone, if_pos hone, hone]
        exact (expireCache_does key r s₁).congr (by simp)
      · rw [if_neg hone, if_neg hone]
        exact (does_some ⟨rfl, rfl, rfl⟩).congr (by simp [hone])

/-- `check_cache` needs what its branch needs. -/
theorem checkCache_does (words : List Bytes) (key : Bytes) (t : TypeSpec) (r : Replies)
    (s : GetState) :
    Does s (checkCache words key t r s) (CacheFits words key t r) (cacheOk r) := by
  have hlen : [existsText, key].flatten.length = 7 + key.length := by
    rw [List.flatten_cons, List.flatten_cons, List.length_append, List.length_append]
    rfl
  refine does_send (k := fun s => match getint r.exist with
    | none => some (s.fail, false)
    | some value => if value = 0 then makeCache words key t r s else some (s, true)) _ r.exist
    hlen fun s₁ _ => ?_
  rw [cacheOk]
  cases getint r.exist with
  | none => exact (does_some ⟨rfl, rfl, rfl⟩).congr (by simp)
  | some value =>
      dsimp only
      by_cases hzero : value = 0
      · rw [if_pos hzero, if_pos hzero, hzero]
        exact (makeCache_does words key t r s₁).congr (by simp)
      · rw [if_neg hzero, if_neg hzero]
        exact (does_some ⟨rfl, rfl, rfl⟩).congr (by simp [hzero])

/-- The call ends, with room for the last bracket. -/
def Finishes (res : Option GetState) : Prop :=
  ∃ s, res = some s ∧ s.qres.length + 2 ≤ maxResLen

theorem finishes_none : ¬ Finishes none := by
  rintro ⟨s, hs, -⟩
  cases hs

/-- The answer is closed by a last byte and the NUL. -/
theorem finishes_some : Finishes (some s) ↔ s.qres.length + 2 ≤ maxResLen := by
  constructor
  · rintro ⟨s, hs, hlen⟩
    cases hs
    exact hlen
  · exact fun hlen => ⟨s, rfl, hlen⟩

/-- A command in front of the rest of a call. -/
theorem finishes_send {k : Bytes → Option GetState} (pieces : List Bytes) {n : ℕ}
    (hlen : pieces.flatten.length = n) :
    Finishes ((fill cmdLen [] pieces).bind k)
      ↔ n + 1 ≤ cmdLen ∧ Finishes (k pieces.flatten) := by
  subst hlen
  rw [fill_cmd]
  split_ifs with hfit
  · rw [Option.bind_some, and_iff_right hfit]
  · rw [Option.bind_none]
    exact iff_of_false finishes_none fun h => hfit h.1

/-- What follows the body of the loop. -/
def goOn (words : List Bytes) (cachekey : Bytes) (rest : List (Entry × Replies))
    (next : GetState × Bool) : Option GetState :=
  if next.2 then typeLoop words cachekey next.1 rest else some next.1

/-- Whether the rest of the query fits behind a state. -/
def RestFits (words : List Bytes) (cachekey : Bytes) (rest : List (Entry × Replies))
    (s : GetState) : Prop :=
  TypesFit words cachekey s.qres.length s.ntypes s.ntotal rest

theorem GetState.SameText.restFits {rest : List (Entry × Replies)} (h : s.SameText s₁) :
    RestFits words cachekey rest s₁ = RestFits words cachekey rest s := by
  rw [RestFits, RestFits, h.1, h.2.1, h.2.2]

section Rest

variable {rest : List (Entry × Replies)}
  (ih : ∀ s : GetState, s.qres.length + 1 ≤ maxResLen →
    (Finishes (typeLoop words cachekey s rest) ↔ RestFits words cachekey rest s))

include ih

/-- The items of a type and what comes behind them. -/
theorem writeItems_finishes_iff (items : List Bytes) (hs : s.qres.length + 1 ≤ maxResLen) :
    Finishes ((writeItems t items s).bind (goOn words cachekey rest))
      ↔ s.qres.length + typeLength s.ntypes s.ntotal t.type items + 1 ≤ maxResLen ∧
        TypesFit words cachekey (s.qres.length + typeLength s.ntypes s.ntotal t.type items)
          (s.ntypes + 1) (s.ntotal + ((shown s.ntotal items).map List.length).sum) rest := by
  have hlen : (typePieces s.ntypes s.ntotal t.type items).flatten.length = _ :=
    length_typePieces s.ntypes s.ntotal items
  rw [writeItems, fill_eq hs, hlen]
  split_ifs with hfit
  · rw [and_iff_right hfit, ← hlen, ← List.length_append]
    refine ih ⟨_, _, _, s.rv, s.sent⟩ ?_
    rw [List.length_append, hlen]
    exact hfit
  · exact iff_of_false finishes_none fun h => hfit h.1

/-- The documents of a type and what comes behind them. -/
theorem getDocuments_finishes_iff (ids : List Bytes) (hs : s.qres.length + 1 ≤ maxResLen) :
    Finishes ((getDocuments t ids r s).bind (goOn words cachekey rest))
      ↔ HmgetFits t.type ids ∧
        match getstrings r.hmget with
        | none => s.qres.length + 2 ≤ maxResLen
        | some items =>
            if items = [] then RestFits words cachekey rest s
            else
              s.qres.length + typeLength s.ntypes s.ntotal t.type items + 1 ≤ maxResLen ∧
                TypesFit words cachekey (s.qres.length + typeLength s.ntypes s.ntotal t.type items)
                  (s.ntypes + 1) (s.ntotal + ((shown s.ntotal items).map List.length).sum)
                  rest := by
  rw [getDocuments]
  refine (iff_of_eq (congrArg Finishes (Option.bind_assoc _ _ _))).trans
    ((finishes_send _ (length_hmgetPieces ids)).trans (and_congr_right fun _ => ?_))
  cases getstrings r.hmget with
  | none => exact finishes_some
  | some items =>
      dsimp only
      split_ifs with hnil
      · exact ih (s.send _ r.hmget) hs
      · exact writeItems_finishes_iff ih items (s := s.send _ r.hmget) hs

/-- The range of a type and what comes behind it. -/
theorem getItems_finishes_iff (key : Bytes) (hs : s.qres.length + 1 ≤ maxResLen) :
    Finishes ((getItems key t r s).bind (goOn words cachekey rest))
      ↔ RangeFits key t ∧
        match getstrings r.range with
        | none => RestFits words cachekey rest s
        | some ids =>
            if ids = [] then RestFits words cachekey rest s
            else
              HmgetFits t.type ids ∧
                match getstrings r.hmget with
                | none => s.qres.length + 2 ≤ maxResLen
                | some items =>
                    if items = [] then RestFits words cachekey rest s
                    else
                      s.qres.length + typeLength s.ntypes s.ntotal t.type items + 1 ≤ maxResLen ∧
                        TypesFit words cachekey
                          (s.qres.length + typeLength s.ntypes s.ntotal t.type items)
                          (s.ntypes + 1) (s.ntotal + ((shown s.ntotal items).map List.length).sum)
                          rest := by
  rw [getItems]
  refine (iff_of_eq (congrArg Finishes (Option.bind_assoc _ _ _))).trans
    ((finishes_send _ length_rangePieces).trans (and_congr_right fun _ => ?_))
  cases getstrings r.range with
  | none => exact ih (s.send _ r.range).fail hs
  | some ids =>
      dsimp only
      split_ifs with hnil
      · exact ih (s.send _ r.range) hs
      · exact getDocuments_finishes_iff ih ids (s := s.send _ r.range) hs

end Rest

/-- **Every type.**  From a state in which `*qres` is terminated, the loop ends with room for
the last bracket exactly if the rest of the query fits. -/
theorem typeLoop_finishes_iff {entries : List (Entry × Replies)}
    (hs : s.qres.length + 1 ≤ maxResLen) :
    Finishes (typeLoop words cachekey s entries) ↔ RestFits words cachekey entries s := by
  induction entries generalizing s with
  | nil => exact finishes_some
  | cons e rest ih =>
      obtain ⟨e, r⟩ := e
      cases e with
      | null => exact ih hs
      | incomplete => exact finishes_some
      | spec t =>
          rw [RestFits, TypesFit]
          show Finishes (((expand t.type false cachekey).bind fun key =>
            (checkCache words key t r s).bind fun cached =>
              if cached.2 then getItems key t r cached.1 else some cached).bind
                (goOn words cachekey rest)) ↔ _
          cases hkey : expand t.type false cachekey with
          | none =>
              refine iff_of_false finishes_none ?_
              rintro ⟨key, hsome, -⟩
              cases hsome
          | some key =>
              simp only [Option.bind_some, Option.some.injEq, exists_eq_left']
              obtain ⟨hdoes, hnone⟩ := checkCache_does words key t r s
              by_cases hfits : CacheFits words key t r
              · obtain ⟨s₁, hcache, hsame⟩ := hdoes hfits
                rw [and_iff_right hfits, hcache, Option.bind_some]
                have hs₁ : s₁.qres.length + 1 ≤ maxResLen := by rwa [hsame.1]
                cases hok : cacheOk r with
                | false =>
                    rw [if_neg Bool.false_ne_true, ← hsame.1]
                    exact finishes_some
                | true =>
                    rw [if_pos rfl]
                    have hitems := getItems_finishes_iff (t := t) (r := r) (fun s hs => ih hs)
                      key hs₁
                    simp only [hsame.restFits, hsame.1, hsame.2.1, hsame.2.2] at hitems
                    exact hitems
              · rw [hnone hfits]
                exact iff_of_false finishes_none fun h => hfits h.1

end Parts

/-! ## Main result -/

/-- The key of the cache fits when its words do. -/
theorem fill_cacheKey (words : List Bytes) :
    fill cacheKeySize [] (cacheFormat :: words.map fun w => 124 :: w)
      = if 9 + (words.map fun w => 1 + w.length).sum + 1 ≤ cacheKeySize then
          some (cacheFormat ++ words.flatMap fun w => 124 :: w)
        else none := by
  have hlen : (words.map fun w => (124 :: w : Bytes)).flatten.length
      = (words.map fun w => 1 + w.length).sum := by
    rw [length_flatten_map]
    simp only [List.length_cons, Nat.add_comm _ 1]
  rw [fill_eq (by decide), List.flatten_cons, List.length_append, hlen, List.length_nil,
    Nat.zero_add, List.nil_append, List.flatMap_def]
  rfl

/-- The last bracket. -/
theorem finish_isSome_iff (res : Option GetState) :
    (res.bind fun s => (fill maxResLen s.qres [[93]]).bind fun qres =>
        some { s with qres := qres }).isSome ↔ Finishes res := by
  cases res with
  | none => exact iff_of_false Bool.false_ne_true finishes_none
  | some s =>
      have hlast : fill maxResLen s.qres [[93]] = put maxResLen s.qres [93] := by
        rw [fill, List.foldlM_cons]
        simp
      rw [Option.bind_some, hlast, put, List.length_singleton, finishes_some]
      split_ifs with hfits
      · exact iff_of_true rfl hfits
      · exact iff_of_false Bool.false_ne_true hfits

/-- **Search buffers fit exactly when the lengths do.**  For every segmentation, every query
and all replies of redis: the strings that `cm_logic_get` writes into `cachekey`, `cmd` and
`*qres` fit with their NULs, if and only if the words, the types and the replies are short
enough and no word makes `cachekey` another format than one with a single `%s`. -/
theorem search_buffers_fit_iff (scws : Bytes → List Bytes) (q : Query) :
    (cmLogicGet scws q).isSome ↔ q.Fits scws := by
  rw [cmLogicGet, Query.Fits]
  rw [fill_cacheKey]
  split_ifs with hkey
  · rw [and_iff_right hkey]
    exact (finish_isSome_iff _).trans
      (typeLoop_finishes_iff (s := ⟨[91], 0, 0, 0, []⟩) (by decide))
  · exact iff_of_false Bool.false_ne_true fun h => hkey h.1

/-- As many words as are used, each as long as is allowed. -/
def longWords : List Bytes := List.replicate maxWordsNum (List.replicate maxWordLen 97)

/-- 256 words of 64 bytes: with a bar each, `cachekey` gets 16650 bytes. -/
theorem long_words_overflow :
    (∀ w ∈ longWords, w.length ≤ maxWordLen) ∧
      cmLogicGet (fun _ => longWords) ⟨longWords.flatten, []⟩ = none := by
  constructor
  · intro w hw
    rw [List.eq_of_mem_replicate hw, List.length_replicate]
  · have hwords : wordLoop 0 longWords = longWords := by decide +kernel
    have hlong : ¬ 9 + (longWords.map fun w => 1 + w.length).sum + 1 ≤ cacheKeySize := by
      rw [longWords, List.map_replicate, List.sum_replicate, List.length_replicate]
      decide
    rw [cmLogicGet]
    dsimp only
    rw [hwords, fill_cacheKey, if_neg hlong]
    rfl

end Zevent.Rtsearch

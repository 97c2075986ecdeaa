/-
# The inverted index of the search server

`rtsearch/src/cm_logic.c` indexes documents in redis.  A document of a type has an id and a
term; scws cuts the term into words.  `cm_logic_set` stores the document in the hash
`data:<type>`, and for each word adds the id to the sorted set `index:<type>:<word>` and the
word to the set `index:<type>`.  `cm_logic_del` takes the document, the ids and the words
away again.

* scws is a parameter, a function from a text to its words.
* A call that redis refuses anywhere is not a step: the runs are those of successful calls.
* `cm_logic_del` removes the word from `index:<type>` also when other documents still have it,
  and two pairs of a type and a word can have the same key.  `LastOfWord` is the guard on runs
  under which a word is in the set of its type exactly when its sorted set has an id, and
  `index_consistent` the result for each type and word; `word_lost` is a run outside of it.
-/
import Mathlib.Tactic
import Zevent.Lib.Interleaving
import Zevent.Lib.Numerals
import Zevent.Lib.Redis

namespace Zevent.Rtsearch

open Interleaving Numerals Redis

/-! ## Keys -/

/-- `MAX_WORD_LEN`. -/
def maxWordLen : ℕ := 64

/-- `data:<type>`. -/
def dataKey (type : Bytes) : Bytes := [100, 97, 116, 97, 58] ++ type

/-- `index:<type>`. -/
def indexKey (type : Bytes) : Bytes := [105, 110, 100, 101, 120, 58] ++ type

/-- `index:<type>:<word>`. -/
def postingKey (type word : Bytes) : Bytes := indexKey type ++ 58 :: word

/-! ## Calls -/

section Calls

variable (scws : Bytes → List Bytes)

/-- What a `set` request carries. -/
structure Doc where
  type : Bytes
  id : ℤ
  score : ℤ
  term : Bytes
  data : Bytes
deriving DecidableEq, Repr

/-- The loop body of `cm_logic_set` for one word. -/
def setWord (doc : Doc) (st : Store) (word : Bytes) : Option Store :=
  if word.length > maxWordLen then some st
  else (st.zadd (postingKey doc.type word) doc.score (decimal doc.id)).bind
    fun st => st.sadd (indexKey doc.type) word

/-- `cm_logic_set`. -/
def cmLogicSet (doc : Doc) (st : Store) : Option Store :=
  (st.hset (dataKey doc.type) (decimal doc.id) doc.data).bind
    fun st => (scws doc.term).foldlM (setWord doc) st

/-- The loop body of `cm_logic_del` for one word. -/
def delWord (type : Bytes) (id : ℤ) (st : Store) (word : Bytes) : Option Store :=
  if word.length > maxWordLen then some st
  else (st.zrem (postingKey type word) (decimal id)).bind
    fun st => st.srem (indexKey type) word

/-- `cm_logic_del`. -/
def cmLogicDel (type : Bytes) (id : ℤ) (term : Bytes) (st : Store) : Option Store :=
  (st.hdel (dataKey type) (decimal id)).bind
    fun st => (scws term).foldlM (delWord type id) st

/-- A request. -/
inductive IndexCall
  | set (doc : Doc)
  | del (type : Bytes) (id : ℤ) (term : Bytes)
deriving DecidableEq, Repr

/-- A successful call. -/
def indexStep (st : Store) : IndexCall → Option Store
  | .set doc => cmLogicSet scws doc st
  | .del type id term => cmLogicDel scws type id term st

/-- No other document of the type has the word. -/
def Alone (st : Store) (type : Bytes) (id : ℤ) (word : Bytes) : Prop :=
  ∀ m ∈ st.zmembers (postingKey type word), m = decimal id

instance (st : Store) (type : Bytes) (id : ℤ) (word : Bytes) :
    Decidable (Alone st type id word) :=
  inferInstanceAs (Decidable (∀ m ∈ _, _))

/-- The guard for a type and a word: the calls have no other pair with the same key, and a
document of the type that is deleted is the last one with the word. -/
def LastOfWord (type word : Bytes) (st : Store) : IndexCall → Prop
  | .set doc => ∀ w ∈ scws doc.term, w.length ≤ maxWordLen →
      postingKey doc.type w = postingKey type word → doc.type = type ∧ w = word
  | .del t id term => ∀ w ∈ scws term, w.length ≤ maxWordLen →
      postingKey t w = postingKey type word → (t = type ∧ w = word) ∧ Alone st t id w

/-- No type and no word has a colon, and documents that are deleted are the last ones with each of
their words. -/
def PlainCall (st : Store) : IndexCall → Prop
  | .set doc => ∀ w ∈ scws doc.term, w.length ≤ maxWordLen → 58 ∉ doc.type ∧ 58 ∉ w
  | .del t id term => ∀ w ∈ scws term, w.length ≤ maxWordLen →
      (58 ∉ t ∧ 58 ∉ w) ∧ Alone st t id w

instance (st : Store) (call : IndexCall) : Decidable (PlainCall scws st call) :=
  match call with
  | .set _ => inferInstanceAs (Decidable (∀ w ∈ _, _))
  | .del _ _ _ => inferInstanceAs (Decidable (∀ w ∈ _, _))

end Calls

/-- The word belongs to its type exactly when some document has it. -/
def WordConsistent (type word : Bytes) (st : Store) : Prop :=
  word ∈ st.smembers (indexKey type) ↔ st.zmembers (postingKey type word) ≠ []

/-! ## Keys -/

/-- Different types have different keys. -/
theorem indexKey_injective : Function.Injective indexKey :=
  fun _ _ h => List.append_cancel_left h

/-- A type and a word without colons have their key for themselves. -/
theorem postingKey_plain {t w type word : Bytes} (ht : 58 ∉ t) (hw : 58 ∉ w)
    (h : postingKey t w = postingKey type word) : t = type ∧ w = word := by
  unfold postingKey indexKey at h
  rw [List.append_assoc, List.append_assoc] at h
  have hrest : t ++ 58 :: w = type ++ 58 :: word := List.append_cancel_left h
  rcases List.append_eq_append_iff.mp hrest with ⟨mid, hmid, htail⟩ | ⟨mid, hmid, htail⟩
  · -- the other type goes on behind the colon, so the word has one
    cases mid with
    | nil =>
        rw [List.nil_append, List.cons.injEq] at htail
        exact ⟨by rw [hmid, List.append_nil], htail.2⟩
    | cons c mid =>
        rw [List.cons_append, List.cons.injEq] at htail
        exact absurd (by rw [htail.2]; simp) hw
  · cases mid with
    | nil =>
        rw [List.nil_append, List.cons.injEq] at htail
        exact ⟨by rw [hmid, List.append_nil], htail.2.symm⟩
    | cons c mid =>
        rw [List.cons_append, List.cons.injEq] at htail
        exact absurd (by rw [hmid, ← htail.1]; simp) ht

/-- Calls without colons are within the guard of every type and word. -/
theorem PlainCall.lastOfWord {scws : Bytes → List Bytes} {st : Store} {call : IndexCall}
    (h : PlainCall scws st call) (type word : Bytes) : LastOfWord scws type word st call := by
  cases call with
  | set doc =>
      intro w hw hlen hkey
      obtain ⟨htype, hword⟩ := h w hw hlen
      exact postingKey_plain htype hword hkey
  | del t id term =>
      intro w hw hlen hkey
      obtain ⟨⟨htype, hword⟩, halone⟩ := h w hw hlen
      exact ⟨postingKey_plain htype hword hkey, halone⟩

/-! ## One call -/

section Steps

variable {scws : Bytes → List Bytes} {type word : Bytes} {st st' : Store}

theorem ne_nil_iff_exists_mem {l : List Bytes} : l ≠ [] ↔ ∃ m, m ∈ l := by
  rw [ne_eq, List.eq_nil_iff_forall_not_mem, not_forall_not]

/-- Indexing a word keeps the pair consistent. -/
theorem WordConsistent.setWord (hst : WordConsistent type word st) {doc : Doc} {w : Bytes}
    (hkey : w.length ≤ maxWordLen → postingKey doc.type w = postingKey type word →
      doc.type = type ∧ w = word)
    (h : setWord doc st w = some st') : WordConsistent type word st' := by
  unfold Rtsearch.setWord at h
  split_ifs at h with hlen
  · rw [Option.some.injEq] at h
    exact h ▸ hst
  · obtain ⟨mid, hmid, hlast⟩ := Option.bind_eq_some_iff.mp h
    unfold WordConsistent at hst ⊢
    rw [Store.mem_smembers_sadd hlast, Store.smembers_zadd hmid, Store.zmembers_sadd hlast, hst,
      ne_nil_iff_exists_mem, ne_nil_iff_exists_mem]
    simp only [Store.mem_zmembers_zadd hmid]
    constructor
    · rintro (⟨m, hm⟩ | ⟨ht, hw⟩)
      · exact ⟨m, Or.inl hm⟩
      · rw [hw, indexKey_injective ht]
        exact ⟨_, Or.inr ⟨rfl, rfl⟩⟩
    · rintro ⟨m, hm | ⟨heq, -⟩⟩
      · exact Or.inl ⟨m, hm⟩
      · obtain ⟨ht, hw⟩ := hkey (by omega) heq.symm
        exact Or.inr ⟨by rw [ht], hw.symm⟩

/-- Removing a word whose only document goes keeps the pair consistent. -/
theorem WordConsistent.delWord (hst : WordConsistent type word st) {t : Bytes} {id : ℤ} {w : Bytes}
    (hkey : w.length ≤ maxWordLen → postingKey t w = postingKey type word →
      (t = type ∧ w = word) ∧ Alone st t id w)
    (h : delWord t id st w = some st') : WordConsistent type word st' := by
  unfold Rtsearch.delWord at h
  split_ifs at h with hlen
  · rw [Option.some.injEq] at h
    exact h ▸ hst
  · obtain ⟨mid, hmid, hlast⟩ := Option.bind_eq_some_iff.mp h
    unfold WordConsistent at hst ⊢
    rw [Store.mem_smembers_srem hlast, Store.smembers_zrem hmid, Store.zmembers_srem hlast, hst,
      ne_nil_iff_exists_mem, ne_nil_iff_exists_mem]
    simp only [Store.mem_zmembers_zrem hmid]
    constructor
    · rintro ⟨⟨m, hm⟩, hother⟩
      refine ⟨m, hm, ?_⟩
      rintro ⟨heq, -⟩
      obtain ⟨⟨ht, hw⟩, -⟩ := hkey (by omega) heq.symm
      exact hother ⟨by rw [ht], hw.symm⟩
    · rintro ⟨m, hm, hother⟩
      refine ⟨⟨m, hm⟩, ?_⟩
      rintro ⟨ht, hw⟩
      -- the list of the word held the deleted id only
      have heq : postingKey type word = postingKey t w := by
        rw [indexKey_injective ht, hw]
      obtain ⟨-, halone⟩ := hkey (by omega) heq.symm
      rw [heq] at hm
      exact hother ⟨heq, halone m hm⟩

/-- Removing a word leaves no new ids anywhere. -/
theorem alone_delWord {t t' : Bytes} {id id' : ℤ} {w other : Bytes}
    (hother : Alone st t' id' other) (h : delWord t id st w = some st') :
    Alone st' t' id' other := by
  unfold delWord at h
  split_ifs at h with hlen
  · rw [Option.some.injEq] at h
    exact h ▸ hother
  · obtain ⟨mid, hmid, hlast⟩ := Option.bind_eq_some_iff.mp h
    intro m hm
    rw [Store.zmembers_srem hlast, Store.mem_zmembers_zrem hmid] at hm
    exact hother m hm.1

/-- The loop of `cm_logic_set`. -/
theorem WordConsistent.setWords (hst : WordConsistent type word st) {doc : Doc}
    {words : List Bytes}
    (hkeys : ∀ w ∈ words, w.length ≤ maxWordLen → postingKey doc.type w = postingKey type word →
      doc.type = type ∧ w = word)
    (h : words.foldlM (Rtsearch.setWord doc) st = some st') : WordConsistent type word st' := by
  induction words generalizing st with
  | nil =>
      rw [List.foldlM_nil] at h
      exact Option.some.inj h ▸ hst
  | cons w words ih =>
      rw [List.foldlM_cons] at h
      obtain ⟨mid, hmid, hrest⟩ := Option.bind_eq_some_iff.mp h
      refine ih ?_ (fun w hw => hkeys w (List.mem_cons_of_mem _ hw)) hrest
      exact hst.setWord (hkeys w List.mem_cons_self) hmid

/-- The loop of `cm_logic_del`. -/
theorem WordConsistent.delWords (hst : WordConsistent type word st) {t : Bytes} {id : ℤ}
    {words : List Bytes}
    (hkeys : ∀ w ∈ words, w.length ≤ maxWordLen → postingKey t w = postingKey type word →
      (t = type ∧ w = word) ∧ Alone st t id w)
    (h : words.foldlM (Rtsearch.delWord t id) st = some st') : WordConsistent type word st' := by
  induction words generalizing st with
  | nil =>
      rw [List.foldlM_nil] at h
      exact Option.some.inj h ▸ hst
  | cons w words ih =>
      rw [List.foldlM_cons] at h
      obtain ⟨mid, hmid, hrest⟩ := Option.bind_eq_some_iff.mp h
      refine ih (hst.delWord (hkeys w List.mem_cons_self) hmid) ?_ hrest
      intro w' hw' hlen hkey
      obtain ⟨hpair, halone⟩ := hkeys w' (List.mem_cons_of_mem _ hw') hlen hkey
      exact ⟨hpair, alone_delWord halone hmid⟩

/-- **Step lemma.**  A successful call within the guard keeps the pair consistent. -/
theorem WordConsistent.step {call : IndexCall} (hst : WordConsistent type word st)
    (hok : LastOfWord scws type word st call) (h : indexStep scws st call = some st') :
    WordConsistent type word st' := by
  cases call with
  | set doc =>
      obtain ⟨mid, hmid, hloop⟩ := Option.bind_eq_some_iff.mp h
      refine WordConsistent.setWords ?_ hok hloop
      unfold WordConsistent
      rw [Store.smembers_hset hmid, Store.zmembers_hset hmid]
      exact hst
  | del t id term =>
      obtain ⟨mid, hmid, hloop⟩ := Option.bind_eq_some_iff.mp h
      refine WordConsistent.delWords ?_ ?_ hloop
      · unfold WordConsistent
        rw [Store.smembers_hdel hmid, Store.zmembers_hdel hmid]
        exact hst
      · intro w hw hlen hkey
        obtain ⟨hpair, halone⟩ := hok w hw hlen hkey
        refine ⟨hpair, ?_⟩
        intro m hm
        rw [Store.zmembers_hdel hmid] at hm
        exact halone m hm

end Steps

/-! ## Whole runs -/

/-- **The index is consistent.**  For every type and word, in every run of successful calls that
have no other pair with the same key and in which a document of the type that is deleted is the
last one with the word, the word is in `index:<type>` exactly when `index:<type>:<word>` has an
id. -/
theorem index_consistent (scws : Bytes → List Bytes) (type word : Bytes) {st : Store}
    (h : Reach (indexStep scws) (LastOfWord scws type word) (fun _ => none) st) :
    word ∈ st.smembers (indexKey type) ↔ st.zmembers (postingKey type word) ≠ [] := by
  refine h.invariant (WordConsistent type word) ?_ ?_
  · simp [WordConsistent, Store.smembers, Store.zmembers, Store.setMembers, Store.zsetMembers]
  · intro st call st' hst hok hstep
    exact hst.step hok hstep

/-- Words at blanks, as scws cuts a text of plain words. -/
def blankWords (text : Bytes) : List Bytes := text.splitOnP fun c => c == 32

/-- `"user"`, `"cat"` and `"dog"`. -/
def userType : Bytes := [117, 115, 101, 114]

def catWord : Bytes := [99, 97, 116]

def dogWord : Bytes := [100, 111, 103]

/-- A document about cats and dogs is stored, and stored again about dogs, another one comes
and goes: every type and word is consistent. -/
theorem index_consistent_two_docs :
    ∃ st, Reach (indexStep blankWords) (PlainCall blankWords) (fun _ => none) st
      ∧ st.zmembers (postingKey userType catWord) = [decimal 1]
      ∧ ∀ type word,
        word ∈ st.smembers (indexKey type) ↔ st.zmembers (postingKey type word) ≠ [] := by
  have hrun : (run (indexStep blankWords) (PlainCall blankWords) (fun _ => none)
      [.set ⟨userType, 1, 100, catWord ++ 32 :: dogWord, []⟩, .set ⟨userType, 1, 90, dogWord, []⟩,
        .set ⟨userType, 2, 80, [120], []⟩, .del userType 2 [120]]).map
        (fun st => st.zmembers (postingKey userType catWord)) = some [decimal 1] := by
    decide
  obtain ⟨st, hs, hlist⟩ := Option.map_eq_some_iff.mp hrun
  have hreach := Reach.refl.run _ hs
  refine ⟨st, hreach, hlist, fun type word => ?_⟩
  exact index_consistent blankWords type word
    (hreach.mono fun _ _ hplain => hplain.lastOfWord type word)

/-- **A word is lost.**  Two documents have the word; one of them is deleted, with the term it
was set with, and the word leaves the set although the other still has it. -/
theorem word_lost :
    ∃ st, Reach (indexStep blankWords) Always (fun _ => none) st
      ∧ st.zmembers (postingKey userType catWord) = [decimal 2]
      ∧ catWord ∉ st.smembers (indexKey userType) := by
  have hrun : (run (indexStep blankWords) Always (fun _ => none)
      [.set ⟨userType, 1, 100, catWord, []⟩, .set ⟨userType, 2, 100, catWord, []⟩,
        .del userType 1 catWord]).map
        (fun st => (st.zmembers (postingKey userType catWord), st.smembers (indexKey userType)))
      = some ([decimal 2], []) := by
    decide
  obtain ⟨st, hs, hstate⟩ := Option.map_eq_some_iff.mp hrun
  rw [Prod.mk.injEq] at hstate
  refine ⟨st, Reach.refl.run _ hs, hstate.1, ?_⟩
  rw [hstate.2]
  exact List.not_mem_nil

end Zevent.Rtsearch

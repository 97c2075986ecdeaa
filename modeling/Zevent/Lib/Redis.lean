/-
# Hashes, sorted sets and sets of a redis store

The part of redis that the development uses: a store maps a key to one value of one of
three kinds, a command on a key of another kind is an error, and a value that becomes
empty is removed together with its key.

Every command is `edit` of the entries of its kind.  `smembers` and `zmembers` are what
`SMEMBERS` and `ZRANGE` show of a key, and each command has its lemma for either: which
members there are after it.
-/
import Mathlib.Tactic

namespace Redis

/-- Keys, fields and members. -/
abbrev Bytes := List UInt8

/-- A value, one of three kinds. -/
inductive Value
  | hash (fields : List (Bytes × Bytes))
  | zset (scores : List (Bytes × ℤ))
  | set (members : List Bytes)
deriving DecidableEq, Repr

namespace Value

def asHash : Value → Option (List (Bytes × Bytes))
  | hash fields => some fields
  | _ => none

def asZset : Value → Option (List (Bytes × ℤ))
  | zset scores => some scores
  | _ => none

def asSet : Value → Option (List Bytes)
  | set members => some members
  | _ => none

end Value

/-- The keys of a database. -/
abbrev Store := Bytes → Option Value

/-- Remove the entry of a name. -/
def unassign {ν : Type} (entries : List (Bytes × ν)) (name : Bytes) : List (Bytes × ν) :=
  entries.filter fun e => e.1 != name

/-- Add an entry, in place of the one of the same name. -/
def assign {ν : Type} (entries : List (Bytes × ν)) (name : Bytes) (v : ν) : List (Bytes × ν) :=
  (name, v) :: unassign entries name

namespace Store

/-- The entries at a key, none when there is no such key; `none` is the error of a key of
another kind. -/
def entries {α : Type} (proj : Value → Option (List α)) : Option Value → Option (List α)
  | none => some []
  | some v => proj v

/-- Change the entries at a key, and remove a key without any. -/
def edit {α : Type} [DecidableEq α] (proj : Value → Option (List α)) (wrap : List α → Value)
    (f : List α → List α) (st : Store) (key : Bytes) : Option Store :=
  (entries proj (st key)).map fun l =>
    Function.update st key (if f l = [] then none else some (wrap (f l)))

/-- `HSET key field value`. -/
def hset (st : Store) (key field value : Bytes) : Option Store :=
  edit Value.asHash .hash (fun fields => assign fields field value) st key

/-- `HDEL key field`. -/
def hdel (st : Store) (key field : Bytes) : Option Store :=
  edit Value.asHash .hash (fun fields => unassign fields field) st key

/-- `ZADD key score member`. -/
def zadd (st : Store) (key : Bytes) (score : ℤ) (member : Bytes) : Option Store :=
  edit Value.asZset .zset (fun scores => assign scores member score) st key

/-- `ZREM key member`. -/
def zrem (st : Store) (key member : Bytes) : Option Store :=
  edit Value.asZset .zset (fun scores => unassign scores member) st key

/-- `SADD key member`. -/
def sadd (st : Store) (key member : Bytes) : Option Store :=
  edit Value.asSet .set (fun members => member :: members.filter fun x => x != member) st key

/-- `SREM key member`. -/
def srem (st : Store) (key member : Bytes) : Option Store :=
  edit Value.asSet .set (fun members => members.filter fun x => x != member) st key

/-- The members of a value that is a set. -/
def setMembers : Option Value → List Bytes
  | some (.set members) => members
  | _ => []

/-- The members of a value that is a sorted set. -/
def zsetMembers : Option Value → List Bytes
  | some (.zset scores) => scores.map Prod.fst
  | _ => []

/-- `SMEMBERS key`. -/
def smembers (st : Store) (key : Bytes) : List Bytes := setMembers (st key)

/-- `ZRANGE key 0 -1`. -/
def zmembers (st : Store) (key : Bytes) : List Bytes := zsetMembers (st key)

/-! ## Members after a command -/

section Edit

variable {α : Type} [DecidableEq α] {proj : Value → Option (List α)} {wrap : List α → Value}
  {f : List α → List α} {st st' : Store} {key other : Bytes} {view : Option Value → List Bytes}

/-- The other keys stay. -/
theorem edit_of_ne (h : edit proj wrap f st key = some st') (hne : other ≠ key) :
    st' other = st other := by
  obtain ⟨l, -, rfl⟩ := Option.map_eq_some_iff.mp h
  exact Function.update_of_ne hne _ _

/-- What is shown of values of another kind stays. -/
theorem edit_other_kind (h : edit proj wrap f st key = some st') (hnone : view none = [])
    (hwrap : ∀ l, view (some (wrap l)) = []) (hproj : ∀ v l, proj v = some l → view (some v) = []) :
    view (st' other) = view (st other) := by
  obtain ⟨l, hl, rfl⟩ := Option.map_eq_some_iff.mp h
  by_cases hne : other = key
  · subst hne
    have hbefore : view (st other) = [] := by
      cases hv : st other with
      | none => exact hnone
      | some v =>
          rw [hv] at hl
          exact hproj v l hl
    rw [Function.update_self, hbefore]
    split_ifs
    · exact hnone
    · exact hwrap _
  · rw [Function.update_of_ne hne]

/-- What is shown of values of the kind of the command is `shown` of the entries, and changes
with them at the key only. -/
theorem edit_same_kind (shown : List α → List Bytes) (h : edit proj wrap f st key = some st')
    (hnone : view none = shown []) (hwrap : ∀ l, view (some (wrap l)) = shown l)
    (hproj : ∀ v l, proj v = some l → view (some v) = shown l) :
    ∃ l, view (st key) = shown l
      ∧ ∀ o, view (st' o) = if o = key then shown (f l) else view (st o) := by
  obtain ⟨l, hl, rfl⟩ := Option.map_eq_some_iff.mp h
  refine ⟨l, ?_, ?_⟩
  · cases hv : st key with
    | none =>
        rw [hv] at hl
        obtain rfl : [] = l := Option.some.inj hl
        exact hnone
    | some v =>
        rw [hv] at hl
        exact hproj v l hl
  · intro o
    by_cases hne : o = key
    · subst hne
      rw [Function.update_self, if_pos rfl]
      split_ifs with hempty
      · rw [hempty]
        exact hnone
      · exact hwrap _
    · rw [Function.update_of_ne hne, if_neg hne]

end Edit

section Commands

variable {st st' : Store} {key other member field value x : Bytes} {score : ℤ}

/-- A hash has no members of a set or of a sorted set. -/
theorem asHash_other {v : Value} {l : List (Bytes × Bytes)} (h : v.asHash = some l) :
    setMembers (some v) = [] ∧ zsetMembers (some v) = [] := by
  cases v <;> simp_all [Value.asHash, setMembers, zsetMembers]

/-- A sorted set has its own members and none of a set. -/
theorem asZset_members {v : Value} {l : List (Bytes × ℤ)} (h : v.asZset = some l) :
    setMembers (some v) = [] ∧ zsetMembers (some v) = l.map Prod.fst := by
  cases v <;> simp_all [Value.asZset, setMembers, zsetMembers]

/-- A set has its own members and none of a sorted set. -/
theorem asSet_members {v : Value} {l : List Bytes} (h : v.asSet = some l) :
    setMembers (some v) = l ∧ zsetMembers (some v) = [] := by
  cases v <;> simp_all [Value.asSet, setMembers, zsetMembers]

/-- `HSET` changes no set. -/
theorem smembers_hset (h : hset st key field value = some st') :
    smembers st' other = smembers st other :=
  edit_other_kind h rfl (fun _ => rfl) fun _ _ hv => (asHash_other hv).1

theorem zmembers_hset (h : hset st key field value = some st') :
    zmembers st' other = zmembers st other :=
  edit_other_kind h rfl (fun _ => rfl) fun _ _ hv => (asHash_other hv).2

theorem smembers_hdel (h : hdel st key field = some st') :
    smembers st' other = smembers st other :=
  edit_other_kind h rfl (fun _ => rfl) fun _ _ hv => (asHash_other hv).1

theorem zmembers_hdel (h : hdel st key field = some st') :
    zmembers st' other = zmembers st other :=
  edit_other_kind h rfl (fun _ => rfl) fun _ _ hv => (asHash_other hv).2

theorem smembers_zadd (h : zadd st key score member = some st') :
    smembers st' other = smembers st other :=
  edit_other_kind h rfl (fun _ => rfl) fun _ _ hv => (asZset_members hv).1

theorem smembers_zrem (h : zrem st key member = some st') :
    smembers st' other = smembers st other :=
  edit_other_kind h rfl (fun _ => rfl) fun _ _ hv => (asZset_members hv).1

theorem zmembers_sadd (h : sadd st key member = some st') :
    zmembers st' other = zmembers st other :=
  edit_other_kind h rfl (fun _ => rfl) fun _ _ hv => (asSet_members hv).2

theorem zmembers_srem (h : srem st key member = some st') :
    zmembers st' other = zmembers st other :=
  edit_other_kind h rfl (fun _ => rfl) fun _ _ hv => (asSet_members hv).2

theorem mem_unassign {ν : Type} {entries : List (Bytes × ν)} :
    x ∈ (unassign entries member).map Prod.fst ↔ x ∈ entries.map Prod.fst ∧ x ≠ member := by
  simp only [unassign, List.mem_map, List.mem_filter, bne_iff_ne]
  constructor
  · rintro ⟨e, ⟨he, hne⟩, rfl⟩
    exact ⟨⟨e, he, rfl⟩, hne⟩
  · rintro ⟨⟨e, he, rfl⟩, hne⟩
    exact ⟨e, ⟨he, hne⟩, rfl⟩

/-- `ZADD` adds one member to one sorted set. -/
theorem mem_zmembers_zadd (h : zadd st key score member = some st') :
    x ∈ zmembers st' other ↔ x ∈ zmembers st other ∨ other = key ∧ x = member := by
  obtain ⟨l, hl, hafter⟩ := edit_same_kind (List.map Prod.fst) h rfl (fun _ => rfl)
    fun _ _ hv => (asZset_members hv).2
  unfold zmembers
  rw [hafter other]
  by_cases hkey : other = key
  · subst hkey
    rw [if_pos rfl, hl, assign, List.map_cons, List.mem_cons, mem_unassign]
    by_cases hx : x = member <;> simp [hx]
  · rw [if_neg hkey]
    simp [hkey]

/-- `ZREM` takes one member out of one sorted set. -/
theorem mem_zmembers_zrem (h : zrem st key member = some st') :
    x ∈ zmembers st' other ↔ x ∈ zmembers st other ∧ ¬ (other = key ∧ x = member) := by
  obtain ⟨l, hl, hafter⟩ := edit_same_kind (List.map Prod.fst) h rfl (fun _ => rfl)
    fun _ _ hv => (asZset_members hv).2
  unfold zmembers
  rw [hafter other]
  by_cases hkey : other = key
  · subst hkey
    rw [if_pos rfl, hl, mem_unassign]
    simp
  · rw [if_neg hkey]
    simp [hkey]

/-- `SADD` adds one member to one set. -/
theorem mem_smembers_sadd (h : sadd st key member = some st') :
    x ∈ smembers st' other ↔ x ∈ smembers st other ∨ other = key ∧ x = member := by
  obtain ⟨l, hl, hafter⟩ := edit_same_kind id h rfl (fun _ => rfl)
    fun _ _ hv => (asSet_members hv).1
  unfold smembers
  rw [hafter other]
  by_cases hkey : other = key
  · subst hkey
    rw [if_pos rfl, hl]
    by_cases hx : x = member <;> simp [hx]
  · rw [if_neg hkey]
    simp [hkey]

/-- `SREM` takes one member out of one set. -/
theorem mem_smembers_srem (h : srem st key member = some st') :
    x ∈ smembers st' other ↔ x ∈ smembers st other ∧ ¬ (other = key ∧ x = member) := by
  obtain ⟨l, hl, hafter⟩ := edit_same_kind id h rfl (fun _ => rfl)
    fun _ _ hv => (asSet_members hv).1
  unfold smembers
  rw [hafter other]
  by_cases hkey : other = key
  · subst hkey
    rw [if_pos rfl, hl]
    simp
  · rw [if_neg hkey]
    simp [hkey]

end Commands

end Store

end Redis

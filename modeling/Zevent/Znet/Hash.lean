/-
# The hash table (`common/misc/hash.c`)

An array of `max + 1` chains, `max + 1` a power of two, with entries that are kept on a free
list when their key is deleted.  When there are more entries than `max` the array is doubled:
the table's own iterator goes over all entries and relinks each of them into the new array.

An entry is named by the number of the `malloc` that made it, and the links, the heads of the
chains and the iterator are such numbers, as in the source.  A key is the memory behind a
pointer together with `klen`; the value is never `NULL`, since a `NULL` value deletes.

The counters are unsigned integers of 32 bits.  They never come near the bound, except for
the size in `alloc_array`: `max + 1` is 0 there when `max` is 2^32 - 1, and then the first
entry that is relinked is written outside the array.  A call that reads or writes outside an
array, or does not end, is `none`.
-/
import Mathlib.Data.Finmap
import Mathlib.Tactic
import Zevent.Lib.Buckets

namespace Zevent.Znet

/-! ## Keys -/

/-- A key argument, the memory behind `key` and `klen`.  With `HASH_KEY_STRING`, which is -1, a
string ends in the memory; else `klen` bytes are there.  The length fits in an `int`. -/
structure HashKey where
  mem : List UInt8
  klen : ℤ
  valid : klen = -1 ∧ 0 ∈ mem ∧ (mem.takeWhile (· != 0)).length < 2 ^ 31
    ∨ 0 ≤ klen ∧ klen ≤ mem.length ∧ klen < 2 ^ 31

namespace HashKey

/-- The bytes of a key. -/
def bytes (key : HashKey) : List UInt8 :=
  if key.klen = -1 then key.mem.takeWhile (· != 0) else key.mem.take key.klen.toNat

theorem length_bytes_lt (key : HashKey) : key.bytes.length < 2 ^ 31 := by
  unfold bytes
  obtain ⟨hstring, -, hlt⟩ | ⟨hpos, -, hlt⟩ := key.valid
  · rw [if_pos hstring]
    exact hlt
  · rw [if_neg (by omega), List.length_take]
    omega

theorem take_length_bytes (key : HashKey) : key.mem.take key.bytes.length = key.bytes := by
  unfold bytes
  obtain ⟨hstring, -⟩ | ⟨hpos, hle, -⟩ := key.valid
  · rw [if_pos hstring]
    exact List.prefix_iff_eq_take.mp (List.takeWhile_prefix _) |>.symm
  · rw [if_neg (by omega), List.length_take, min_eq_left (by omega)]

/-- The key with `klen` as the hash function leaves it. -/
def fixed (key : HashKey) : HashKey where
  mem := key.mem
  klen := key.bytes.length
  valid := by
    have hlt := key.length_bytes_lt
    have hle := congrArg List.length key.take_length_bytes
    rw [List.length_take] at hle
    right
    omega

@[simp] theorem bytes_fixed (key : HashKey) : key.fixed.bytes = key.bytes := by
  have hlen : key.fixed.klen = key.bytes.length := rfl
  rw [bytes, if_neg (by omega), hlen, Int.toNat_natCast]
  exact key.take_length_bytes

end HashKey

/-- A hash function of the key bytes. -/
abbrev HashFunc := List UInt8 → UInt32

/-- What a hash function returns, and what it leaves in `klen`. -/
def HashFunc.apply (hashFunc : HashFunc) (key : HashKey) : UInt32 × ℤ :=
  (hashFunc key.bytes, key.bytes.length)

/-- The hash that `hashfunc_default` computes of the bytes. -/
def times33 : HashFunc := List.foldl (fun hash p => hash * 33 + p.toUInt32) 0

/-! ## The table -/

/-- `hash_entry_t`; `key` and `klen` are one field. -/
structure HashEntry (V : Type) where
  next : Option ℕ
  hash : UInt32
  key : HashKey
  val : V

/-- `hash_index_t`. -/
structure HashIndex where
  this : Option ℕ
  next : Option ℕ
  index : ℕ

/-- `hash_t`, with the entries that were ever allocated. -/
structure HashTable (V : Type) where
  array : List (Option ℕ)
  iterator : HashIndex
  count : ℕ
  max : ℕ
  free : Option ℕ
  entry : ℕ → HashEntry V
  mallocs : ℕ

/-- `alloc_array`: `max + 1` is computed in 32 bits. -/
def allocArray (max : ℕ) : List (Option ℕ) := List.replicate ((max + 1) % 2 ^ 32) none

/-- `hash_make`; `entry` is what the memory holds. -/
def hashMake {V : Type} (entry : ℕ → HashEntry V) : HashTable V where
  array := allocArray 15
  iterator := ⟨none, none, 0⟩
  count := 0
  max := 15
  free := none
  entry := entry
  mallocs := 0

namespace HashTable

variable {V : Type}

/-- The link of an entry. -/
def link (t : HashTable V) (a : ℕ) : Option ℕ := (t.entry a).next

/-! ### Iteration -/

/-- The loop of `hash_next`: what it leaves in `this` and in `index`. -/
def scan (array : List (Option ℕ)) (max : ℕ) : ℕ → ℕ → Option (Option ℕ × ℕ)
  | 0, _ => none
  | fuel + 1, index =>
      if index > max then some (none, index)
      else
        match array[index]? with
        | none => none
        | some none => scan array max fuel (index + 1)
        | some (some a) => some (some a, index + 1)

/-- The end of `hash_next`, with an entry or without one. -/
def arrive (t : HashTable V) (this : Option ℕ) (index : ℕ) : Option ℕ × HashTable V :=
  match this with
  | none => (none, { t with iterator := ⟨none, none, index⟩ })
  | some a => (some a, { t with iterator := ⟨some a, t.link a, index⟩ })

/-- `hash_next` on the iterator of the table: the entry it comes to, `NULL` at the end. -/
def hashNext (t : HashTable V) : Option (Option ℕ × HashTable V) :=
  match t.iterator.next with
  | some a => some (t.arrive (some a) t.iterator.index)
  | none =>
      match scan t.array t.max (t.max + 2 - t.iterator.index) t.iterator.index with
      | none => none
      | some (this, index) => some (t.arrive this index)

/-- `hash_first`. -/
def hashFirst (t : HashTable V) : Option (Option ℕ × HashTable V) :=
  hashNext { t with iterator := ⟨none, none, 0⟩ }

/-- `for (hi = hash_first(ht); hi; hi = hash_next(hi))` around `body`, which is told the
entries visited so far; `fuel` bounds the rounds. -/
def forEach (body : List ℕ → HashTable V → Option (HashTable V)) :
    ℕ → Option ℕ × HashTable V → List ℕ → Option (List ℕ × HashTable V)
  | 0, _, _ => none
  | _ + 1, (none, t), visited => some (visited, t)
  | fuel + 1, (some a, t), visited =>
      match body (visited ++ [a]) t with
      | none => none
      | some t =>
          match t.hashNext with
          | none => none
          | some hi => forEach body fuel hi (visited ++ [a])

/-- The loop of `expand_array`: each entry goes in front of its chain in the new array. -/
def expandLoop (newMax : ℕ) :
    ℕ → Option ℕ × HashTable V → List (Option ℕ) → Option (List (Option ℕ) × HashTable V)
  | 0, _, _ => none
  | _ + 1, (none, t), newArray => some (newArray, t)
  | fuel + 1, (some a, t), newArray =>
      let i := (t.entry a).hash.toNat &&& newMax
      -- the iterator already holds the next entry when this link is written
      match newArray[i]? with
      | none => none
      | some head =>
          let t := { t with entry := Function.update t.entry a { t.entry a with next := head } }
          match t.hashNext with
          | none => none
          | some hi => expandLoop newMax fuel hi (newArray.set i (some a))

/-- `expand_array`. -/
def expandArray (t : HashTable V) : Option (HashTable V) :=
  let newMax := (t.max * 2 + 1) % 2 ^ 32
  match t.hashFirst with
  | none => none
  | some hi =>
      match expandLoop newMax (t.count + 1) hi (allocArray newMax) with
      | none => none
      | some (newArray, t) => some { t with array := newArray, max := newMax }

/-! ### Keys and values -/

/-- A hash entry from the free list, or a new one. -/
def newEntry (t : HashTable V) : ℕ × HashTable V :=
  match t.free with
  | some a => (a, { t with free := t.link a })
  | none => (t.mallocs, { t with mallocs := t.mallocs + 1 })

/-- `*hep = x`, where `hep` is the cell `i` or the link of the entry `ref`. -/
def setLink (t : HashTable V) (i : ℕ) (ref x : Option ℕ) : HashTable V :=
  match ref with
  | none => { t with array := t.array.set i x }
  | some b => { t with entry := Function.update t.entry b { t.entry b with next := x } }

/-- The test of the loop of `find_entry`: the hash, `klen` and `memcmp`. -/
def matchesKey (t : HashTable V) (hash : UInt32) (klen : ℤ) (key : HashKey) (a : ℕ) : Bool :=
  (t.entry a).hash == hash && (t.entry a).key.klen == klen
    && (t.entry a).key.mem.take klen.toNat == key.mem.take klen.toNat

/-- `find_entry`: the cell and the entry whose link `hep` is, and `*hep`. -/
def findEntry (hashFunc : HashFunc) (t : HashTable V) (key : HashKey) (val : Option V) :
    Option (ℕ × Option ℕ × Option ℕ × HashTable V) :=
  let (hash, klen) := hashFunc.apply key
  let i := hash.toNat &&& t.max
  match t.array[i]? with
  | none => none
  | some head =>
      match Chain.walk t.link (t.matchesKey hash klen key) (t.count + 1) none head with
      | none => none
      | some (ref, some he) => some (i, ref, some he, t)
      | some (ref, none) =>
          -- `NULL` only searches
          match val with
          | none => some (i, ref, none, t)
          | some val =>
              let (he, t) := t.newEntry
              let t := { t with entry := Function.update t.entry he ⟨none, hash, key.fixed, val⟩ }
              let t := t.setLink i ref (some he)
              some (i, ref, some he, { t with count := t.count + 1 })

/-- `hash_get`: the key of the entry and the value, or twice `NULL`. -/
def hashGet (hashFunc : HashFunc) (t : HashTable V) (key : HashKey) :
    Option (Option (HashKey × V)) :=
  match findEntry hashFunc t key none with
  | none => none
  | some (_, _, none, _) => some none
  | some (_, _, some he, t) => some (some ((t.entry he).key, (t.entry he).val))

/-- `hash_set`. -/
def hashSet (hashFunc : HashFunc) (t : HashTable V) (key : HashKey) (val : Option V) :
    Option (HashTable V) :=
  match findEntry hashFunc t key val with
  | none => none
  | some (_, _, none, t) => some t
  | some (i, ref, some old, t) =>
      match val with
      | none =>
          let t := t.setLink i ref (t.link old)
          let t :=
            { t with entry := Function.update t.entry old { t.entry old with next := t.free } }
          some { t with free := some old, count := t.count - 1 }
      | some val =>
          -- the value of a new entry is written once more
          let t := { t with entry := Function.update t.entry old { t.entry old with val := val } }
          if t.count > t.max then t.expandArray else some t

/-- `hash_count`. -/
def hashCount (t : HashTable V) : ℕ := t.count

/-- The body of the loop of `hash_clear`: the key of the iterator's entry is deleted. -/
def deleteThis (hashFunc : HashFunc) (t : HashTable V) : Option (HashTable V) :=
  match t.iterator.this with
  | none => none
  | some a => hashSet hashFunc t (t.entry a).key none

/-- `hash_clear`. -/
def hashClear (hashFunc : HashFunc) (t : HashTable V) : Option (HashTable V) :=
  match t.hashFirst with
  | none => none
  | some hi => (forEach (fun _ t => deleteThis hashFunc t) (t.count + 1) hi []).map Prod.snd

/-! ## What holds of a table -/

/-- The cell that an entry belongs to. -/
def slot (t : HashTable V) (a : ℕ) : ℕ := (t.entry a).hash.toNat &&& t.max

/-- The key of an entry. -/
def keyOf (t : HashTable V) (a : ℕ) : List UInt8 := (t.entry a).key.bytes

/-- The entries `P` are the chains `B` of the array, each in the cell of its hash, and `F` is
the free list. -/
structure Rep (hashFunc : HashFunc) (t : HashTable V) (P : Finset ℕ) (B : ℕ → List ℕ)
    (F : List ℕ) : Prop where
  length : t.array.length = t.max + 1
  pow : ∃ k, 4 ≤ k ∧ k ≤ 31 ∧ t.max + 1 = 2 ^ k
  buckets : Buckets t.array t.link B
  mem : ∀ i ≤ t.max, ∀ a, a ∈ B i ↔ a ∈ P ∧ t.slot a = i
  hash : ∀ a ∈ P, (t.entry a).hash = hashFunc (t.keyOf a)
  klen : ∀ a ∈ P, (t.entry a).key.klen = (t.keyOf a).length
  inj : ∀ a ∈ P, ∀ b ∈ P, t.keyOf a = t.keyOf b → a = b
  free : Chain t.link t.free F
  apart : ∀ a ∈ F, a ∉ P
  lt : ∀ a, a ∈ P ∨ a ∈ F → a < t.mallocs
  count : t.count = P.card

/-- The two tables have the same keys in the same entries. -/
def SameKeys (t t' : HashTable V) : Prop :=
  ∀ a, (t'.entry a).hash = (t.entry a).hash ∧ (t'.entry a).key = (t.entry a).key

/-- The entries `P` hold the map `m`. -/
def Holds (t : HashTable V) (P : Finset ℕ) (m : Finmap fun _ : List UInt8 => V) : Prop :=
  ∀ k v, m.lookup k = some v ↔ ∃ a ∈ P, t.keyOf a = k ∧ (t.entry a).val = v

variable {hashFunc : HashFunc} {t t' : HashTable V} {P P' : Finset ℕ} {B B' : ℕ → List ℕ}
  {F F' : List ℕ} {m : Finmap fun _ : List UInt8 => V}

/-- The keys of the entries are the same. -/
theorem SameKeys.keyOf (h : SameKeys t t') (a : ℕ) : t'.keyOf a = t.keyOf a :=
  congrArg HashKey.bytes (h a).2

/-- Fewer entries, in other chains, with the same keys. -/
theorem Rep.rearrange (h : Rep hashFunc t P B F) (hkeys : SameKeys t t')
    (hlength : t'.array.length = t'.max + 1)
    (hpow : ∃ k, 4 ≤ k ∧ k ≤ 31 ∧ t'.max + 1 = 2 ^ k) (hsub : P' ⊆ P)
    (hbuckets : Buckets t'.array t'.link B')
    (hmem : ∀ i ≤ t'.max, ∀ a, a ∈ B' i ↔ a ∈ P' ∧ t'.slot a = i)
    (hfree : Chain t'.link t'.free F') (hapart : ∀ a ∈ F', a ∉ P')
    (hlt : ∀ a, a ∈ P' ∨ a ∈ F' → a < t'.mallocs) (hcount : t'.count = P'.card) :
    Rep hashFunc t' P' B' F' where
  length := hlength
  pow := hpow
  buckets := hbuckets
  mem := hmem
  hash := fun a ha => by
    rw [(hkeys a).1, hkeys.keyOf]
    exact h.hash a (hsub ha)
  klen := fun a ha => by
    rw [(hkeys a).2, hkeys.keyOf]
    exact h.klen a (hsub ha)
  inj := fun a ha b hb heq => by
    rw [hkeys.keyOf, hkeys.keyOf] at heq
    exact h.inj a (hsub ha) b (hsub hb) heq
  free := hfree
  apart := hapart
  lt := hlt
  count := hcount

/-- The iterator is no part of the representation. -/
theorem Rep.moveIterator (h : Rep hashFunc t P B F) (iterator : HashIndex) :
    Rep hashFunc { t with iterator := iterator } P B F :=
  h.rearrange (fun _ => ⟨rfl, rfl⟩) h.length h.pow (Finset.Subset.refl P) h.buckets h.mem h.free
    h.apart h.lt h.count

theorem slot_le (t : HashTable V) (a : ℕ) : t.slot a ≤ t.max := Nat.and_le_right

theorem slot_lt (t : HashTable V) (a : ℕ) : t.slot a < t.max + 1 := Nat.lt_succ_of_le (t.slot_le a)

/-- The entries are in the buckets of their hashes. -/
theorem Rep.slotted (h : Rep hashFunc t P B F) : Slotted (t.max + 1) t.slot P B :=
  fun i hi => h.mem i (Nat.le_of_lt_succ hi)

theorem Rep.mem_bucket (h : Rep hashFunc t P B F) {a : ℕ} (ha : a ∈ P) : a ∈ B (t.slot a) :=
  (h.mem _ (t.slot_le a) a).mpr ⟨ha, rfl⟩

theorem Rep.bucket_nodup (h : Rep hashFunc t P B F) {i : ℕ} (hi : i ≤ t.max) : (B i).Nodup :=
  h.buckets.nodup (by rw [h.length]; omega)

/-- A bucket has no more entries than the table. -/
theorem Rep.bucket_length_le (h : Rep hashFunc t P B F) {i : ℕ} (hi : i ≤ t.max) :
    (B i).length ≤ t.count := by
  rw [h.count]
  exact h.slotted.length_le (Nat.lt_succ_of_le hi) (h.bucket_nodup hi)

/-- The number of keys is the number of entries. -/
theorem Holds.card_keys (hm : Holds t P m)
    (hinj : ∀ a ∈ P, ∀ b ∈ P, t.keyOf a = t.keyOf b → a = b) : m.keys.card = P.card := by
  have hkeys : m.keys = P.image t.keyOf := by
    ext k
    rw [Finmap.mem_keys, ← Finmap.lookup_isSome, Option.isSome_iff_exists, Finset.mem_image]
    constructor
    · rintro ⟨v, hv⟩
      obtain ⟨a, ha, hk, -⟩ := (hm k v).mp hv
      exact ⟨a, ha, hk⟩
    · rintro ⟨a, ha, hk⟩
      exact ⟨(t.entry a).val, (hm k _).mpr ⟨a, ha, hk, rfl⟩⟩
  rw [hkeys, Finset.card_image_of_injOn hinj]

/-! ### The search -/

/-- The test of `find_entry` compares the keys. -/
theorem Rep.matchesKey_iff (h : Rep hashFunc t P B F) (key : HashKey) {a : ℕ} (ha : a ∈ P) :
    t.matchesKey (hashFunc key.bytes) key.bytes.length key a = true
      ↔ t.keyOf a = key.bytes := by
  have hklen := h.klen a ha
  rw [matchesKey, Bool.and_eq_true, Bool.and_eq_true, beq_iff_eq, beq_iff_eq, beq_iff_eq,
    Int.toNat_natCast, key.take_length_bytes]
  constructor
  · rintro ⟨⟨-, hlen⟩, htake⟩
    have hlength : (t.keyOf a).length = key.bytes.length := by
      rw [hlen] at hklen
      exact_mod_cast hklen.symm
    rw [← htake, ← hlength]
    exact (t.entry a).key.take_length_bytes.symm
  · intro heq
    refine ⟨⟨?_, ?_⟩, ?_⟩
    · rw [h.hash a ha, heq]
    · rw [hklen, heq]
    · rw [← heq]
      exact (t.entry a).key.take_length_bytes

/-- The walk of `find_entry` ends at the entry of the key, or at the end of its chain. -/
theorem Rep.walk (h : Rep hashFunc t P B F) (key : HashKey) :
    ∃ head pre rest, t.array[(hashFunc key.bytes).toNat &&& t.max]? = some head
      ∧ B ((hashFunc key.bytes).toNat &&& t.max) = pre ++ rest
      ∧ Chain.walk t.link (t.matchesKey (hashFunc key.bytes) key.bytes.length key)
        (t.count + 1) none head = some (pre.getLast?, rest.head?)
      ∧ (∀ a ∈ rest.head?, a ∈ P ∧ t.keyOf a = key.bytes)
      ∧ (rest = [] → ∀ a ∈ P, t.keyOf a ≠ key.bytes) := by
  have hle : (hashFunc key.bytes).toNat &&& t.max ≤ t.max := Nat.and_le_right
  obtain ⟨head, hhead, hchain⟩ := h.buckets.chain (by rw [h.length]; exact Nat.lt_succ_of_le hle)
  obtain ⟨pre, rest, hB, hwalk, hpre, hstop⟩ :=
    Chain.walk_spec (t.matchesKey (hashFunc key.bytes) key.bytes.length key) none hchain
      (Nat.lt_succ_of_le (h.bucket_length_le hle))
  rw [Option.or_none] at hwalk
  refine ⟨head, pre, rest, hhead, hB, hwalk, fun a ha => ?_, fun hrest a ha heq => ?_⟩
  · have hmem : a ∈ B ((hashFunc key.bytes).toNat &&& t.max) := by
      rw [hB]
      exact List.mem_append_right _ (List.mem_of_mem_head? ha)
    have haP := ((h.mem _ hle a).mp hmem).1
    exact ⟨haP, (h.matchesKey_iff key haP).mp (hstop a ha)⟩
  · have hslot : t.slot a = (hashFunc key.bytes).toNat &&& t.max := by
      rw [slot, h.hash a ha, heq]
    have hmem := h.mem_bucket ha
    rw [hslot, hB, hrest, List.append_nil] at hmem
    have hfalse := hpre a hmem
    rw [(h.matchesKey_iff key ha).mpr heq] at hfalse
    cases hfalse

/-! ### Deletion -/

/-- A write to the link of an entry. -/
theorem link_update (t : HashTable V) (b : ℕ) (x : Option ℕ) :
    ({ t with entry := Function.update t.entry b { t.entry b with next := x } }
      : HashTable V).link = Function.update t.link b x := by
  funext c
  unfold link
  rcases eq_or_ne c b with rfl | hne
  · simp only [Function.update_self]
  · simp only [Function.update_of_ne hne]

/-- Writing a link relinks the chain. -/
theorem link_setLink (t : HashTable V) (i : ℕ) (ref x : Option ℕ) :
    (t.setLink i ref x).link = Chain.relink t.link ref x := by
  cases ref with
  | none => rfl
  | some b => exact link_update t b x

/-- A link without an entry in front of it is the head in the array. -/
theorem array_setLink (t : HashTable V) (i : ℕ) (ref x : Option ℕ) :
    (t.setLink i ref x).array = Buckets.setRef t.array i ref x := by
  cases ref with
  | none => rfl
  | some b => rfl

/-- A write to a link changes neither keys nor values. -/
theorem update_next (entry : ℕ → HashEntry V) (b : ℕ) (next : Option ℕ) (a : ℕ) :
    (Function.update entry b { entry b with next := next } a).hash = (entry a).hash
      ∧ (Function.update entry b { entry b with next := next } a).key = (entry a).key
      ∧ (Function.update entry b { entry b with next := next } a).val = (entry a).val := by
  rcases eq_or_ne a b with rfl | hne
  · simp only [Function.update_self, and_self]
  · simp only [Function.update_of_ne hne, and_self]

/-- The entries keep hash, key and value. -/
theorem setLink_entry (t : HashTable V) (i : ℕ) (ref x : Option ℕ) (a : ℕ) :
    ((t.setLink i ref x).entry a).hash = (t.entry a).hash
      ∧ ((t.setLink i ref x).entry a).key = (t.entry a).key
      ∧ ((t.setLink i ref x).entry a).val = (t.entry a).val := by
  cases ref with
  | none => exact ⟨rfl, rfl, rfl⟩
  | some b => exact update_next t.entry b x a

/-- The table keeps its counters. -/
theorem setLink_rest (t : HashTable V) (i : ℕ) (ref x : Option ℕ) :
    (t.setLink i ref x).max = t.max ∧ (t.setLink i ref x).count = t.count
      ∧ (t.setLink i ref x).free = t.free ∧ (t.setLink i ref x).mallocs = t.mallocs
      ∧ (t.setLink i ref x).iterator = t.iterator := by
  cases ref <;> exact ⟨rfl, rfl, rfl, rfl, rfl⟩

/-- The deletion of `hash_set` past the search: `old` is behind `ref` in the chain `i`. -/
def remove (t : HashTable V) (i : ℕ) (ref : Option ℕ) (old : ℕ) : HashTable V :=
  let t := t.setLink i ref (t.link old)
  let t := { t with entry := Function.update t.entry old { t.entry old with next := t.free } }
  { t with free := some old, count := t.count - 1 }

/-- A removed entry goes to the free ones. -/
theorem link_remove (t : HashTable V) (i : ℕ) (ref : Option ℕ) (old : ℕ) :
    (t.remove i ref old).link
      = Function.update (Chain.relink t.link ref (t.link old)) old t.free := by
  rw [← link_setLink t i ref (t.link old), ← (setLink_rest t i ref (t.link old)).2.2.1]
  exact link_update (t.setLink i ref (t.link old)) old _

/-- Keys and values stay where they are. -/
theorem remove_sameKeys (t : HashTable V) (i : ℕ) (ref : Option ℕ) (old : ℕ) :
    SameKeys t (t.remove i ref old)
      ∧ ∀ a, ((t.remove i ref old).entry a).val = (t.entry a).val := by
  have hset := setLink_entry t i ref (t.link old)
  have hnext := update_next (t.setLink i ref (t.link old)).entry old
    (t.setLink i ref (t.link old)).free
  exact ⟨fun a => ⟨(hnext a).1.trans (hset a).1, (hnext a).2.1.trans (hset a).2.1⟩,
    fun a => (hnext a).2.2.trans (hset a).2.2⟩

/-- The entry goes from its chain to the free list. -/
theorem Rep.remove (h : Rep hashFunc t P B F) {i old : ℕ} {pre rest : List ℕ} (hi : i ≤ t.max)
    (hB : B i = pre ++ old :: rest) :
    Rep hashFunc (t.remove i pre.getLast? old) (P.erase old)
      (fun j => (B j).filter fun a => a ≠ old) (old :: F) := by
  have hlt : i < t.array.length := by
    rw [h.length]
    omega
  have hmemB : old ∈ B i := by
    rw [hB]
    exact List.mem_append_right _ List.mem_cons_self
  have holdP : old ∈ P := ((h.mem i hi old).mp hmemB).1
  have hslotted := h.slotted
  rw [← h.length] at hslotted
  have hwritten := hslotted.unlink h.buckets hlt hB
  have hfilter : ∀ j < t.array.length,
      (B j).filter (fun a => a ≠ old) = Function.update B i (pre ++ rest) j := fun j hj =>
    hslotted.filter_eq_update hlt hB (h.bucket_nodup hi) hj
  obtain ⟨hmax, hcount, hfree, hmallocs, -⟩ := setLink_rest t i pre.getLast? (t.link old)
  have hslot : ∀ a, (t.remove i pre.getLast? old).slot a = t.slot a := by
    intro a
    have hkeys := (remove_sameKeys t i pre.getLast? old).1 a
    show ((t.remove i pre.getLast? old).entry a).hash.toNat &&& _ = _
    rw [hkeys.1]
    show _ &&& (t.setLink i pre.getLast? (t.link old)).max = _
    rw [hmax]
    rfl
  refine h.rearrange (remove_sameKeys t i pre.getLast? old).1 ?_ ?_ (Finset.erase_subset _ _)
    ?_ ?_ ?_ ?_ ?_ ?_
  · show (t.setLink i pre.getLast? (t.link old)).array.length
      = (t.setLink i pre.getLast? (t.link old)).max + 1
    rw [array_setLink, Buckets.length_setRef, hmax]
    exact h.length
  · show ∃ k, 4 ≤ k ∧ k ≤ 31 ∧ (t.setLink i pre.getLast? (t.link old)).max + 1 = 2 ^ k
    rw [hmax]
    exact h.pow
  · rw [link_remove]
    show Buckets (t.setLink i pre.getLast? (t.link old)).array _ _
    rw [array_setLink]
    refine (hwritten.congr fun j hj b hb => ?_).congr_lists fun j hj => ?_
    · rw [Buckets.length_setRef] at hj
      rw [Function.update_of_ne]
      rintro rfl
      rw [← hfilter j hj, List.mem_filter, decide_eq_true_iff] at hb
      exact hb.2 rfl
    · rw [Buckets.length_setRef] at hj
      exact hfilter j hj
  · intro j hj a
    rw [hslot]
    refine h.slotted.erase old j ?_ a
    rw [← hmax]
    exact Nat.lt_succ_of_le hj
  · rw [link_remove]
    show Chain _ (some old) (old :: F)
    refine ⟨rfl, ?_⟩
    rw [Function.update_self]
    refine h.free.congr fun a ha => ?_
    have hanot := h.apart a ha
    rw [Function.update_of_ne (fun heq : a = old => hanot (heq ▸ holdP))]
    cases href : pre.getLast? with
    | none => rfl
    | some b =>
        apply Function.update_of_ne
        rintro rfl
        refine hanot ((h.mem i hi a).mp ?_).1
        rw [hB]
        exact List.mem_append_left _ (List.mem_of_getLast? href)
  · intro a ha hmem
    rw [Finset.mem_erase] at hmem
    obtain rfl | ha := List.mem_cons.mp ha
    · exact hmem.1 rfl
    · exact h.apart a ha hmem.2
  · intro a ha
    show a < (t.setLink i pre.getLast? (t.link old)).mallocs
    rw [hmallocs]
    rw [Finset.mem_erase, List.mem_cons] at ha
    apply h.lt a
    obtain ⟨-, ha⟩ | rfl | ha := ha
    · exact Or.inl ha
    · exact Or.inl holdP
    · exact Or.inr ha
  · show (t.setLink i pre.getLast? (t.link old)).count - 1 = _
    rw [hcount, h.count, Finset.card_erase_of_mem holdP]

/-! ### Iteration -/

/-- What an iterator at `index` with the entries `rest` still in front of it can read. -/
structure Ahead (t : HashTable V) (B : ℕ → List ℕ) (rest : List ℕ) : Prop where
  length : t.array.length = t.max + 1
  index_le : t.iterator.index ≤ t.max + 1
  chain : Chain t.link t.iterator.next rest
  buckets : ∀ j, t.iterator.index ≤ j → ∀ head, t.array[j]? = some head →
    Chain t.link head (B j)

/-- The entries that an iterator has not come to. -/
def ahead (t : HashTable V) (B : ℕ → List ℕ) (rest : List ℕ) : List ℕ :=
  rest ++ nodesFrom B (t.max + 1) t.iterator.index

/-- The scan ends at the first cell with an entry, or behind the array. -/
theorem scan_spec {array : List (Option ℕ)} {max index : ℕ} {next : ℕ → Option ℕ} (fuel : ℕ)
    (hlength : array.length = max + 1) (hindex : index ≤ max + 1)
    (hfuel : max + 2 ≤ fuel + index)
    (hb : ∀ j, index ≤ j → ∀ head, array[j]? = some head → Chain next head (B j)) :
    (nodesFrom B (max + 1) index = [] ∧ scan array max fuel index = some (none, max + 1))
      ∨ ∃ a rest j, scan array max fuel index = some (some a, j + 1) ∧ index ≤ j ∧ j ≤ max
        ∧ B j = a :: rest ∧ Chain next (next a) rest
        ∧ nodesFrom B (max + 1) index = a :: (rest ++ nodesFrom B (max + 1) (j + 1)) := by
  induction fuel generalizing index with
  | zero => omega
  | succ fuel ih =>
      rw [scan]
      split
      · -- behind the last cell
        rename_i hend
        left
        rw [show index = max + 1 by omega]
        exact ⟨nodesFrom_of_le le_rfl, rfl⟩
      · rename_i hmore
        have hlt : index < array.length := by omega
        have hchain := hb index le_rfl _ (List.getElem?_eq_getElem hlt)
        rw [List.getElem?_eq_getElem hlt]
        have hsplit := nodesFrom_of_lt (B := B) (show index < max + 1 by omega)
        cases hcell : array[index] with
        | none =>
            rw [hcell] at hchain
            cases hB : B index with
            | cons a rest =>
                rw [hB] at hchain
                exact absurd hchain.1 (by simp)
            | nil =>
                rw [hB, List.nil_append] at hsplit
                rw [hsplit]
                obtain ⟨hnil, hscan⟩ | ⟨a, rest, j, hscan, hij, hj, hBj, hrest, hnodes⟩ :=
                  ih (show index + 1 ≤ max + 1 by omega) (by omega)
                    fun j hj => hb j (by omega)
                · exact Or.inl ⟨hnil, hscan⟩
                · exact Or.inr ⟨a, rest, j, hscan, by omega, hj, hBj, hrest, hnodes⟩
        | some a =>
            rw [hcell] at hchain
            cases hB : B index with
            | nil =>
                rw [hB] at hchain
                exact absurd hchain (by simp)
            | cons b rest =>
                rw [hB, Chain.cons_iff, Option.some.injEq] at hchain
                obtain ⟨rfl, hrest⟩ := hchain
                rw [hB] at hsplit
                exact Or.inr ⟨a, rest, index, rfl, le_rfl, by omega, hB, hrest, hsplit⟩

/-- **`hash_next` comes to the first entry ahead**, and leaves the others ahead. -/
theorem Ahead.hashNext {rest : List ℕ} (h : Ahead t B rest) :
    (t.ahead B rest = [] ∧ ∃ index, t.hashNext
        = some (none, { t with iterator := ⟨none, none, index⟩ }))
      ∨ ∃ a rest' index, t.hashNext
          = some (some a, { t with iterator := ⟨some a, t.link a, index⟩ })
        ∧ t.ahead B rest = a :: (rest' ++ nodesFrom B (t.max + 1) index)
        ∧ Chain t.link (t.link a) rest' ∧ t.iterator.index ≤ index ∧ index ≤ t.max + 1
        ∧ (index = t.iterator.index ∧ rest = a :: rest'
          ∨ 1 ≤ index ∧ B (index - 1) = a :: rest') := by
  unfold HashTable.hashNext ahead
  have hchain := h.chain
  cases rest with
  | cons a rest =>
      obtain ⟨hnext, hrest⟩ := hchain
      rw [hnext]
      exact Or.inr ⟨a, rest, _, rfl, rfl, hrest, le_rfl, h.index_le, Or.inl ⟨rfl, rfl⟩⟩
  | nil =>
      rw [Chain.nil_iff] at hchain
      rw [hchain, List.nil_append]
      obtain ⟨hnil, hscan⟩ | ⟨a, rest, j, hscan, hij, hj, hBj, hrest, hnodes⟩ :=
        scan_spec (t.max + 2 - t.iterator.index) h.length h.index_le (by omega) h.buckets
      · dsimp only
        rw [hscan]
        exact Or.inl ⟨hnil, _, rfl⟩
      · dsimp only
        rw [hscan]
        exact Or.inr ⟨a, rest, j + 1, rfl, hnodes, hrest, by omega, by omega,
          Or.inr ⟨by omega, hBj⟩⟩

/-! ### Expansion -/

/-- The links of the entries `R` may have changed, and the iterator; nothing else has. -/
structure Relinked (R : List ℕ) (t t' : HashTable V) : Prop where
  keys : SameKeys t t'
  val : ∀ a, (t'.entry a).val = (t.entry a).val
  link : ∀ a ∉ R, t'.link a = t.link a
  max : t'.max = t.max
  count : t'.count = t.count
  free : t'.free = t.free
  mallocs : t'.mallocs = t.mallocs

theorem Relinked.iterator (t : HashTable V) (iterator : HashIndex) :
    Relinked [] t { t with iterator := iterator } :=
  ⟨fun _ => ⟨rfl, rfl⟩, fun _ => rfl, fun _ _ => rfl, rfl, rfl, rfl, rfl⟩

/-- One entry after the other is relinked. -/
theorem Relinked.trans {R : List ℕ} {a : ℕ} {t₁ t₂ : HashTable V} (iterator : HashIndex)
    (head : Option ℕ)
    (h₁ : t₁ = { t with
      iterator := iterator
      entry := Function.update t.entry a { t.entry a with next := head } })
    (h₂ : Relinked R t₁ t₂) : Relinked (a :: R) t t₂ := by
  subst h₁
  have hentry := update_next t.entry a head
  refine ⟨fun b => ?_, fun b => ?_, fun b hb => ?_, h₂.max, h₂.count, h₂.free, h₂.mallocs⟩
  · exact ⟨(h₂.keys b).1.trans (hentry b).1, (h₂.keys b).2.trans (hentry b).2.1⟩
  · exact (h₂.val b).trans (hentry b).2.2
  · rw [List.mem_cons, not_or] at hb
    rw [h₂.link b hb.2]
    exact congrArg HashEntry.next (Function.update_of_ne hb.1 _ _)

/-- A write to the link of the iterator's entry leaves what is ahead, as the next entry was read
before. -/
theorem Ahead.relink {rest rest' : List ℕ} (h : Ahead t B rest) {b index : ℕ}
    (head : Option ℕ) (hrest : Chain t.link (t.link b) rest')
    (hindex : t.iterator.index ≤ index) (hmax : index ≤ t.max + 1)
    (hb : b ∉ rest' ++ nodesFrom B (t.max + 1) index) :
    Ahead { t with
      iterator := ⟨some b, t.link b, index⟩
      entry := Function.update t.entry b { t.entry b with next := head } } B rest' := by
  have hlink : ({ t with
      iterator := ⟨some b, t.link b, index⟩
      entry := Function.update t.entry b { t.entry b with next := head } } : HashTable V).link
      = Function.update t.link b head := link_update t b head
  rw [List.mem_append, not_or] at hb
  refine ⟨h.length, hmax, ?_, fun j hj head' hcell => ?_⟩
  · rw [hlink]
    exact hrest.congr fun c hc => Function.update_of_ne (fun heq : c = b => hb.1 (heq ▸ hc)) _ _
  · rw [hlink]
    refine (h.buckets j (hindex.trans hj) head' hcell).congr fun c hc =>
      Function.update_of_ne (fun heq : c = b => hb.2 ?_) _ _
    have hjlt := (List.getElem?_eq_some_iff.mp hcell).1
    rw [h.length] at hjlt
    exact mem_nodesFrom.mpr ⟨j, hj, hjlt, heq ▸ hc⟩

/-- The loop of `expand_array` moves every entry ahead to its chain in the new array. -/
theorem expandLoop_spec (newMax : ℕ) {R : List ℕ} (hR : R.Nodup) {rest : List ℕ}
    {newArray : List (Option ℕ)} {N : ℕ → List ℕ} (fuel : ℕ) (h : Ahead t B rest)
    (hahead : t.ahead B rest = R) (hfuel : R.length < fuel)
    (hnew : Buckets newArray t.link N)
    (hapart : ∀ j < newArray.length, ∀ a ∈ N j, a ∉ R)
    (hcell : ∀ a ∈ R, (t.entry a).hash.toNat &&& newMax < newArray.length) :
    ∃ hi newArray' t' N', t.hashNext = some hi
      ∧ expandLoop newMax fuel hi newArray = some (newArray', t')
      ∧ newArray'.length = newArray.length ∧ Buckets newArray' t'.link N'
      ∧ (∀ j < newArray.length, ∀ a, a ∈ N' j
        ↔ a ∈ N j ∨ a ∈ R ∧ (t.entry a).hash.toNat &&& newMax = j)
      ∧ Relinked R t t' := by
  induction R generalizing t rest newArray N fuel with
  | nil =>
      obtain ⟨-, index, hnext⟩ | ⟨a, rest', index, -, hlist, -⟩ := h.hashNext
      · cases fuel with
        | zero => exact absurd hfuel (Nat.not_lt_zero _)
        | succ fuel =>
            refine ⟨_, newArray, _, N, hnext, rfl, rfl, hnew, fun j _ a => ?_,
              Relinked.iterator t _⟩
            simp
      · rw [hahead] at hlist
        exact absurd hlist (by simp)
  | cons b R ih =>
      obtain ⟨hnil, -⟩ | ⟨a, rest', index, hnext, hlist, hrest, hindex, hmax, -⟩ := h.hashNext
      · rw [hahead] at hnil
        exact absurd hnil (by simp)
      · rw [hahead, List.cons.injEq] at hlist
        obtain ⟨rfl, hR'⟩ := hlist
        obtain ⟨hb, hnodup⟩ := List.nodup_cons.mp hR
        rw [List.length_cons] at hfuel
        cases fuel with
        | zero => exact absurd hfuel (Nat.not_lt_zero _)
        | succ fuel =>
            have hlt := hcell b List.mem_cons_self
            obtain ⟨head, hhead⟩ : ∃ head,
                newArray[(t.entry b).hash.toNat &&& newMax]? = some head :=
              ⟨_, List.getElem?_eq_getElem hlt⟩
            have hpush := hnew.push hhead
              (fun j hj hmem => hapart j hj b hmem List.mem_cons_self)
            -- the table with the entry relinked; its iterator is already past it
            obtain ⟨t₁, ht₁⟩ : ∃ t₁ : HashTable V, t₁ = { t with
                iterator := ⟨some b, t.link b, index⟩
                entry := Function.update t.entry b { t.entry b with next := head } } := ⟨_, rfl⟩
            have hlink : t₁.link = Function.update t.link b head := by
              rw [ht₁]
              exact link_update t b head
            have hsame : ∀ c, (t₁.entry c).hash = (t.entry c).hash := by
              intro c
              rw [ht₁]
              exact (update_next t.entry b head c).1
            have hahead₁ : t₁.ahead B rest' = R := by
              rw [ht₁, hR']
              rfl
            have h₁ : Ahead t₁ B rest' := by
              rw [ht₁]
              exact h.relink head hrest hindex hmax (hR' ▸ hb)
            obtain ⟨hi, newArray', t', N', hrun, hloop, hlen, hbuckets, hmem, hrel⟩ :=
              ih hnodup fuel h₁ hahead₁ (by omega) (hlink ▸ hpush)
                (by
                  intro j hj c hc hcR
                  rw [List.length_set] at hj
                  obtain hc | ⟨rfl, -⟩ := mem_update_cons.mp hc
                  · exact hapart j hj c hc (List.mem_cons_of_mem b hcR)
                  · exact hb hcR)
                (fun c hc => by
                  rw [hsame c, List.length_set]
                  exact hcell c (List.mem_cons_of_mem b hc))
            rw [List.length_set] at hlen hmem
            refine ⟨_, newArray', t', N', hnext, ?_, hlen, hbuckets, ?_,
              Relinked.trans _ head ht₁ hrel⟩
            · rw [expandLoop]
              dsimp only
              rw [hhead]
              dsimp only
              rw [← ht₁, hrun]
              exact hloop
            · intro j hj c
              rw [hmem j hj c, hsame c, List.mem_cons, mem_update_cons]
              constructor
              · rintro ((hc | ⟨rfl, rfl⟩) | ⟨hc, heq⟩)
                · exact Or.inl hc
                · exact Or.inr ⟨Or.inl rfl, rfl⟩
                · exact Or.inr ⟨Or.inr hc, heq⟩
              · rintro (hc | ⟨rfl | hc, heq⟩)
                · exact Or.inl (Or.inl hc)
                · exact Or.inl (Or.inr ⟨rfl, heq.symm⟩)
                · exact Or.inr ⟨hc, heq⟩

theorem buckets_allocArray (max : ℕ) (next : ℕ → Option ℕ) :
    Buckets (allocArray max) next fun _ => [] := Buckets.empty _

/-- At the start of a traversal every entry is ahead, once. -/
theorem Rep.first (h : Rep hashFunc t P B F) :
    Ahead { t with iterator := ⟨none, none, 0⟩ } B []
      ∧ (nodesFrom B (t.max + 1) 0).Nodup
      ∧ (∀ a, a ∈ nodesFrom B (t.max + 1) 0 ↔ a ∈ P)
      ∧ (nodesFrom B (t.max + 1) 0).length = t.count := by
  have hnodup : ∀ j < t.max + 1, (B j).Nodup := fun j hj => h.bucket_nodup (by omega)
  refine ⟨⟨h.length, Nat.zero_le _, rfl, fun j _ => h.buckets j⟩,
    h.slotted.nodesFrom_nodup hnodup,
    fun a => h.slotted.mem_nodesFrom_iff fun b _ => t.slot_lt b, ?_⟩
  rw [h.count]
  exact h.slotted.length_nodesFrom (fun b _ => t.slot_lt b) hnodup

/-- **An expansion keeps the entries**, as long as the new array has fewer than 2^32 cells. -/
theorem Rep.expandArray (h : Rep hashFunc t P B F) (hroom : t.max + 1 < 2 ^ 31) :
    ∃ t' N, t.expandArray = some t' ∧ Rep hashFunc t' P N F ∧ t'.max = t.max * 2 + 1
      ∧ t'.count = t.count ∧ SameKeys t t' ∧ ∀ a, (t'.entry a).val = (t.entry a).val := by
  obtain ⟨hfirst, hnodup, hmemP, hlen⟩ := h.first
  have hnewMax : (t.max * 2 + 1) % 2 ^ 32 = t.max * 2 + 1 := by omega
  have hcells : (allocArray (t.max * 2 + 1)).length = t.max * 2 + 1 + 1 := by
    rw [allocArray, List.length_replicate]
    omega
  have hslot : ∀ hash : ℕ, hash &&& (t.max * 2 + 1) < (allocArray (t.max * 2 + 1)).length := by
    intro hash
    have hle : hash &&& (t.max * 2 + 1) ≤ t.max * 2 + 1 := Nat.and_le_right
    omega
  obtain ⟨hi, newArray, t', N, hnext, hloop, hlength, hbuckets, hmem, hrel⟩ :=
    expandLoop_spec (t.max * 2 + 1) hnodup (t.count + 1) hfirst rfl (by omega)
      (buckets_allocArray _ _) (fun _ _ a ha => absurd ha List.not_mem_nil) fun a _ => hslot _
  rw [hcells] at hlength hmem
  have hnotMem : ∀ a ∉ P, t'.link a = t.link a := by
    intro a ha
    exact hrel.link a fun hmem => ha ((hmemP a).mp hmem)
  refine ⟨{ t' with array := newArray, max := t.max * 2 + 1 }, N, ?_, ?_, rfl, hrel.count,
    hrel.keys, hrel.val⟩
  · rw [HashTable.expandArray, hnewMax, hashFirst, hnext]
    dsimp only
    rw [hloop]
  · refine h.rearrange hrel.keys hlength ?_ (Finset.Subset.refl P) hbuckets ?_ ?_ h.apart ?_
      (hrel.count.trans h.count)
    · obtain ⟨k, hk, hk', hpow⟩ := h.pow
      refine ⟨k + 1, by omega, ?_, ?_⟩
      · by_contra hbig
        have hlarge : 2 ^ 31 ≤ 2 ^ k := Nat.pow_le_pow_right (by norm_num) (by omega)
        omega
      · show t.max * 2 + 1 + 1 = 2 ^ (k + 1)
        rw [pow_succ, ← hpow]
        ring
    · intro i hi a
      have hcell := hmem i (Nat.lt_succ_of_le hi) a
      rw [List.mem_nil_iff, false_or, hmemP a] at hcell
      rw [hcell]
      show _ ↔ a ∈ P ∧ (t'.entry a).hash.toNat &&& (t.max * 2 + 1) = i
      rw [(hrel.keys a).1]
    · show Chain _ t'.free F
      rw [hrel.free]
      exact h.free.congr fun a ha => hnotMem a (h.apart a ha)
    · intro a ha
      show a < t'.mallocs
      rw [hrel.mallocs]
      exact h.lt a ha

/-- An expansion to 2^32 cells asks for none, and writes outside the array. -/
theorem Rep.expandArray_overflow (h : Rep hashFunc t P B F) (hmax : t.max + 1 = 2 ^ 31)
    (hsome : P.Nonempty) : t.expandArray = none := by
  obtain ⟨hfirst, -, hmemP, -⟩ := h.first
  have hnewMax : (t.max * 2 + 1) % 2 ^ 32 = 2 ^ 32 - 1 := by omega
  have hcells : allocArray (2 ^ 32 - 1) = [] := by
    rw [allocArray]
    norm_num
  obtain ⟨a, ha⟩ := hsome
  obtain ⟨hnil, -⟩ | ⟨b, rest, index, hnext, -⟩ := hfirst.hashNext
  · have hmem := (hmemP a).mpr ha
    rw [show nodesFrom B (t.max + 1) 0 = [] from hnil] at hmem
    exact absurd hmem List.not_mem_nil
  · rw [HashTable.expandArray, hnewMax, hashFirst, hnext, hcells]
    rfl

/-! ### The search and the insertion -/

/-- `find_entry` stops at the entry with the key. -/
theorem Rep.findEntry_present (h : Rep hashFunc t P B F) (key : HashKey) {a : ℕ} (ha : a ∈ P)
    (hkey : t.keyOf a = key.bytes) (val : Option V) :
    ∃ i pre rest, findEntry hashFunc t key val = some (i, pre.getLast?, some a, t)
      ∧ i ≤ t.max ∧ B i = pre ++ a :: rest := by
  obtain ⟨head, pre, rest, hhead, hB, hwalk, hfound, hnone⟩ := h.walk key
  cases rest with
  | nil => exact absurd hkey (hnone rfl a ha)
  | cons b rest =>
      obtain ⟨hb, hkeyb⟩ := hfound b rfl
      obtain rfl := h.inj a ha b hb (hkey.trans hkeyb.symm)
      refine ⟨_, pre, rest, ?_, Nat.and_le_right, hB⟩
      simp only [findEntry, HashFunc.apply, hhead, hwalk, List.head?_cons]

theorem Rep.findEntry_absent (h : Rep hashFunc t P B F) (key : HashKey)
    (habsent : ∀ a ∈ P, t.keyOf a ≠ key.bytes) :
    ∃ i ref, findEntry hashFunc t key none = some (i, ref, none, t) := by
  obtain ⟨head, pre, rest, hhead, hB, hwalk, hfound, hnone⟩ := h.walk key
  cases rest with
  | cons b rest => exact absurd (hfound b rfl).2 (habsent b (hfound b rfl).1)
  | nil =>
      refine ⟨(hashFunc key.bytes).toNat &&& t.max, pre.getLast?, ?_⟩
      simp only [findEntry, HashFunc.apply, hhead, hwalk, List.head?_nil]

/-- The new entry is on no chain and on no free list. -/
theorem Rep.newEntry (h : Rep hashFunc t P B F) :
    ∃ F', Rep hashFunc t.newEntry.2 P B F' ∧ t.newEntry.1 ∉ P ∧ t.newEntry.1 ∉ F'
      ∧ t.newEntry.1 < t.newEntry.2.mallocs := by
  have hfree := h.free
  cases F with
  | nil =>
      rw [Chain.nil_iff] at hfree
      have heq : t.newEntry = (t.mallocs, { t with mallocs := t.mallocs + 1 }) := by
        unfold HashTable.newEntry
        split
        · rename_i a ha
          rw [hfree] at ha
          cases ha
        · rfl
      rw [heq]
      have hnew : t.mallocs ∉ P := fun hmem => absurd (h.lt _ (Or.inl hmem)) (lt_irrefl _)
      refine ⟨[], h.rearrange (fun _ => ⟨rfl, rfl⟩) h.length h.pow (Finset.Subset.refl P)
        h.buckets h.mem hfree (fun a ha => absurd ha List.not_mem_nil) (fun a ha => ?_) h.count,
        hnew, List.not_mem_nil, Nat.lt_succ_self _⟩
      exact (h.lt a ha).trans (Nat.lt_succ_self _)
  | cons a F =>
      have hnodup := List.nodup_cons.mp hfree.nodup
      obtain ⟨hhead, hrest⟩ := hfree
      have heq : t.newEntry = (a, { t with free := t.link a }) := by
        rw [HashTable.newEntry, hhead]
      rw [heq]
      refine ⟨F, h.rearrange (fun _ => ⟨rfl, rfl⟩) h.length h.pow (Finset.Subset.refl P)
        h.buckets h.mem hrest (fun b hb => h.apart b (List.mem_cons_of_mem a hb))
        (fun b hb => h.lt b (hb.imp id (List.mem_cons_of_mem a))) h.count,
        h.apart a List.mem_cons_self, hnodup.1, h.lt a (Or.inr List.mem_cons_self)⟩

/-- Taking a new entry leaves the rest of the table alone. -/
theorem newEntry_rest (t : HashTable V) :
    t.newEntry.2.array = t.array ∧ t.newEntry.2.max = t.max ∧ t.newEntry.2.count = t.count
      ∧ t.newEntry.2.entry = t.entry := by
  unfold HashTable.newEntry
  cases t.free <;> exact ⟨rfl, rfl, rfl, rfl⟩

/-- The end of `find_entry` with a new entry `he`, filled in and linked behind `ref`. -/
def append (t : HashTable V) (i : ℕ) (ref : Option ℕ) (he : ℕ) (e : HashEntry V) :
    HashTable V :=
  let t := { t with entry := Function.update t.entry he e }
  let t := t.setLink i ref (some he)
  { t with count := t.count + 1 }

/-- An appended entry has what is written into it. -/
theorem append_entry (t : HashTable V) (i : ℕ) (ref : Option ℕ) (he : ℕ) (e : HashEntry V)
    (a : ℕ) :
    ((t.append i ref he e).entry a).hash = (Function.update t.entry he e a).hash
      ∧ ((t.append i ref he e).entry a).key = (Function.update t.entry he e a).key
      ∧ ((t.append i ref he e).entry a).val = (Function.update t.entry he e a).val :=
  setLink_entry { t with entry := Function.update t.entry he e } i ref (some he) a

theorem link_append (t : HashTable V) (i : ℕ) (ref : Option ℕ) (he : ℕ) (e : HashEntry V) :
    (t.append i ref he e).link
      = Chain.relink (Function.update t.link he e.next) ref (some he) := by
  have hlink : ({ t with entry := Function.update t.entry he e } : HashTable V).link
      = Function.update t.link he e.next := by
    funext a
    unfold link
    rcases eq_or_ne a he with rfl | hne
    · simp only [Function.update_self]
    · simp only [Function.update_of_ne hne]
  rw [← hlink]
  exact link_setLink _ i ref (some he)

/-- The new entry is at the end of its chain. -/
theorem Rep.append_buckets (h : Rep hashFunc t P B F) {i he : ℕ} {e : HashEntry V}
    (hi : i ≤ t.max) (hP : he ∉ P) (hnext : e.next = none) :
    Buckets (t.append i (B i).getLast? he e).array (t.append i (B i).getLast? he e).link
      (Function.update B i (B i ++ [he])) := by
  have hlt : i < t.array.length := by
    rw [h.length]
    omega
  have hslotted := h.slotted
  rw [← h.length] at hslotted
  have hbuckets : Buckets t.array (Function.update t.link he e.next) B := by
    refine h.buckets.congr fun j hj a ha => Function.update_of_ne ?_ _ _
    rintro rfl
    exact hP ((hslotted j hj a).mp ha).1
  rw [link_append]
  show Buckets (setLink _ i (B i).getLast? (some he)).array _ _
  rw [array_setLink]
  refine hslotted.append hbuckets hlt hP ?_
  rw [Function.update_self]
  exact hnext

/-- A new entry at the end of the chain of its hash. -/
theorem Rep.append (h : Rep hashFunc t P B F) (key : HashKey) (val : V) {he : ℕ}
    (hP : he ∉ P) (hF : he ∉ F) (hlt : he < t.mallocs)
    (habsent : ∀ a ∈ P, t.keyOf a ≠ key.bytes) :
    Rep hashFunc
      (t.append ((hashFunc key.bytes).toNat &&& t.max)
        (B ((hashFunc key.bytes).toNat &&& t.max)).getLast? he
        ⟨none, hashFunc key.bytes, key.fixed, val⟩)
      (insert he P)
      (Function.update B ((hashFunc key.bytes).toNat &&& t.max)
        (B ((hashFunc key.bytes).toNat &&& t.max) ++ [he])) F := by
  obtain ⟨i, hi⟩ : ∃ i, i = (hashFunc key.bytes).toNat &&& t.max := ⟨_, rfl⟩
  obtain ⟨e, he'⟩ : ∃ e : HashEntry V, e = ⟨none, hashFunc key.bytes, key.fixed, val⟩ := ⟨_, rfl⟩
  rw [← hi, ← he']
  have hile : i ≤ t.max := hi ▸ Nat.and_le_right
  have hentry := t.append_entry i (B i).getLast? he e
  have hself : Function.update t.entry he e he = e := Function.update_self ..
  have hother : ∀ a ∈ P, Function.update t.entry he e a = t.entry a := fun a ha =>
    Function.update_of_ne (fun heq : a = he => hP (heq ▸ ha)) _ _
  have hkeyOf : ∀ a ∈ P, (t.append i (B i).getLast? he e).keyOf a = t.keyOf a := by
    intro a ha
    rw [keyOf, (hentry a).2.1, hother a ha, keyOf]
  have hkeyHe : (t.append i (B i).getLast? he e).keyOf he = key.bytes := by
    rw [keyOf, (hentry he).2.1, hself, he']
    exact key.bytes_fixed
  obtain ⟨hmax, hcount, hfree, hmallocs, -⟩ := setLink_rest
    { t with entry := Function.update t.entry he e } i (B i).getLast? (some he)
  constructor
  · show (setLink _ i (B i).getLast? (some he)).array.length = (setLink _ i _ _).max + 1
    rw [array_setLink, Buckets.length_setRef, hmax]
    exact h.length
  · show ∃ k, 4 ≤ k ∧ k ≤ 31 ∧ (setLink _ i (B i).getLast? (some he)).max + 1 = 2 ^ k
    rw [hmax]
    exact h.pow
  · exact h.append_buckets hile hP (by rw [he'])
  · intro j hj a
    have hj' : j ≤ t.max := by
      rw [← hmax]
      exact hj
    have hslot : ∀ b, (t.append i (B i).getLast? he e).slot b
        = (Function.update t.entry he e b).hash.toNat &&& t.max := by
      intro b
      rw [slot, (hentry b).1]
      exact congrArg (_ &&& ·) hmax
    refine h.slotted.insert hP (fun b hb => ?_) (fun k _ b => ?_) j (Nat.lt_succ_of_le hj') a
    · rw [hslot, hother b hb, slot]
    · rw [hslot, hself, he', ← hi]
      exact mem_update_append
  · intro a ha
    rcases Finset.mem_insert.mp ha with rfl | ha
    · rw [(hentry a).1, hkeyHe, hself, he']
    · rw [(hentry a).1, hkeyOf a ha, hother a ha]
      exact h.hash a ha
  · intro a ha
    rcases Finset.mem_insert.mp ha with rfl | ha
    · rw [(hentry a).2.1, hkeyHe, hself, he']
      rfl
    · rw [(hentry a).2.1, hkeyOf a ha, hother a ha]
      exact h.klen a ha
  · intro a ha b hb heq
    rcases Finset.mem_insert.mp ha with hahe | haP <;>
      rcases Finset.mem_insert.mp hb with hbhe | hbP
    · exact hahe.trans hbhe.symm
    · rw [hahe, hkeyHe, hkeyOf b hbP] at heq
      exact absurd heq.symm (habsent b hbP)
    · rw [hbhe, hkeyHe, hkeyOf a haP] at heq
      exact absurd heq (habsent a haP)
    · rw [hkeyOf a haP, hkeyOf b hbP] at heq
      exact h.inj a haP b hbP heq
  · -- the entry came from in front of the free list, and the link before it is in the chain
    rw [link_append]
    show Chain _ (setLink _ i (B i).getLast? (some he)).free F
    rw [hfree]
    refine h.free.congr fun a ha => ?_
    have hbase : Function.update t.link he e.next a = t.link a :=
      Function.update_of_ne (fun heq : a = he => hF (heq ▸ ha)) _ _
    cases hlast? : (B i).getLast? with
    | none => exact hbase
    | some b =>
        refine (Function.update_of_ne ?_ _ _).trans hbase
        rintro rfl
        exact h.apart a ha ((h.mem i hile a).mp (List.mem_of_getLast? hlast?)).1
  · intro a ha hmem
    rcases Finset.mem_insert.mp hmem with rfl | hmem
    · exact hF ha
    · exact h.apart a ha hmem
  · intro a ha
    show a < (setLink _ i (B i).getLast? (some he)).mallocs
    rw [hmallocs]
    rw [Finset.mem_insert] at ha
    obtain (rfl | ha) | ha := ha
    · exact hlt
    · exact h.lt a (Or.inl ha)
    · exact h.lt a (Or.inr ha)
  · show (setLink _ i (B i).getLast? (some he)).count + 1 = _
    rw [hcount, Finset.card_insert_of_notMem hP, h.count]

end HashTable

end Zevent.Znet

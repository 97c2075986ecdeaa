/-
# The hash table as a finite map

What a run of `hash_set`, `hash_get` and `hash_clear` leaves in the table is the finite map
that the same updates make, whatever the hash function does with the keys, and a traversal with
`hash_first` and `hash_next` meets each key once, also when the client deletes keys it has met.

The order of a traversal is the order of the array and of its chains.  Deleting an entry that
was met takes it out of a chain in front of the iterator's next entry, or out of another chain,
so it leaves the entries ahead as they are.

This holds as long as the table has fewer than 2^31 entries: `hash_refines_iff` says that it
holds of a run exactly then, and `hash_overflows` is the run that fills the table.
-/
import Zevent.Znet.Hash

namespace Zevent.Znet

namespace HashTable

variable {V : Type} {hashFunc : HashFunc} {t t' : HashTable V} {P P' : Finset ℕ}
  {B B' : ℕ → List ℕ} {F F' : List ℕ} {m : Finmap fun _ : List UInt8 => V}

/-! ## The finite map -/

/-- The table represents the map `m`, and has no more entries than `max`. -/
def Represents (hashFunc : HashFunc) (t : HashTable V) (m : Finmap fun _ : List UInt8 => V) :
    Prop :=
  ∃ P B F, Rep hashFunc t P B F ∧ t.count ≤ t.max ∧ Holds t P m

/-- The map after `hash_set`. -/
def setMap (m : Finmap fun _ : List UInt8 => V) (key : List UInt8) (val : Option V) :
    Finmap fun _ : List UInt8 => V :=
  match val with
  | none => m.erase key
  | some val => m.insert key val

theorem Holds.congr (hm : Holds t P m) (hkeys : SameKeys t t')
    (hval : ∀ a, (t'.entry a).val = (t.entry a).val) : Holds t' P m := by
  intro k v
  rw [hm k v]
  refine exists_congr fun a => and_congr_right fun _ => ?_
  rw [hkeys.keyOf, hval]

/-- A key without an entry is not in the map. -/
theorem Holds.lookup_eq_none (hm : Holds t P m) {k : List UInt8}
    (habsent : ∀ a ∈ P, t.keyOf a ≠ k) : m.lookup k = none := by
  refine Option.eq_none_iff_forall_ne_some.mpr fun v hv => ?_
  obtain ⟨a, ha, hk, -⟩ := (hm k v).mp hv
  exact habsent a ha hk

/-- A key is not in the map exactly when no entry has it. -/
theorem Holds.absent_iff (hm : Holds t P m) (k : List UInt8) :
    k ∉ m ↔ ∀ a ∈ P, t.keyOf a ≠ k := by
  rw [← Finmap.lookup_eq_none]
  refine ⟨fun hnone a ha heq => ?_, hm.lookup_eq_none⟩
  have hsome := (hm k _).mpr ⟨a, ha, heq, rfl⟩
  rw [hnone] at hsome
  cases hsome

/-- The count of the table is the size of the map. -/
theorem Represents.card_keys (h : Represents hashFunc t m) : m.keys.card = t.count := by
  obtain ⟨P, B, F, hrep, -, hm⟩ := h
  rw [hm.card_keys hrep.inj, hrep.count]

/-! ## `hash_get` -/

/-- **`hash_get` finds the value of the key**, and the key it was set with. -/
theorem Represents.hashGet (h : Represents hashFunc t m) (key : HashKey) :
    ∃ r, HashTable.hashGet hashFunc t key = some r ∧ r.map Prod.snd = m.lookup key.bytes
      ∧ ∀ e ∈ r, e.1.bytes = key.bytes := by
  obtain ⟨P, B, F, hrep, -, hm⟩ := h
  by_cases hpresent : ∃ a ∈ P, t.keyOf a = key.bytes
  · obtain ⟨a, ha, hkey⟩ := hpresent
    obtain ⟨i, pre, rest, hfind, -⟩ := hrep.findEntry_present key ha hkey none
    refine ⟨_, by rw [HashTable.hashGet, hfind], ?_, ?_⟩
    · rw [(hm key.bytes _).mpr ⟨a, ha, hkey, rfl⟩]
      rfl
    · intro e he
      rw [Option.mem_def, Option.some.injEq] at he
      rw [← he]
      exact hkey
  · push Not at hpresent
    obtain ⟨i, ref, hfind⟩ := hrep.findEntry_absent key hpresent
    refine ⟨none, by rw [HashTable.hashGet, hfind], ?_, by simp⟩
    rw [hm.lookup_eq_none hpresent]
    rfl

/-! ## `hash_set` -/

/-- A `NULL` value deletes the entry of the key, and the iterator stays where it is. -/
theorem Rep.hashSet_null (h : Rep hashFunc t P B F) (key : HashKey) :
    (∃ a ∈ P, t.keyOf a = key.bytes ∧ ∃ t', hashSet hashFunc t key none = some t'
        ∧ Rep hashFunc t' (P.erase a) (fun j => (B j).filter fun b => b ≠ a) (a :: F)
        ∧ SameKeys t t' ∧ (∀ b, (t'.entry b).val = (t.entry b).val)
        ∧ t'.iterator = t.iterator ∧ t'.max = t.max)
      ∨ (∀ a ∈ P, t.keyOf a ≠ key.bytes) ∧ hashSet hashFunc t key none = some t := by
  by_cases hpresent : ∃ a ∈ P, t.keyOf a = key.bytes
  · left
    obtain ⟨a, ha, hkey⟩ := hpresent
    obtain ⟨i, pre, rest, hfind, hi, hB⟩ := h.findEntry_present key ha hkey none
    obtain ⟨hkeys, hval⟩ := remove_sameKeys t i pre.getLast? a
    obtain ⟨hmax, -, -, -, hiterator⟩ := setLink_rest t i pre.getLast? (t.link a)
    refine ⟨a, ha, hkey, t.remove i pre.getLast? a, ?_, h.remove hi hB, hkeys, hval, hiterator,
      hmax⟩
    rw [hashSet, hfind]
    rfl
  · right
    push Not at hpresent
    obtain ⟨i, ref, hfind⟩ := h.findEntry_absent key hpresent
    refine ⟨hpresent, ?_⟩
    rw [hashSet, hfind]

/-- An entry is removed from table and map. -/
theorem Holds.erase (hm : Holds t P m) {a : ℕ} (ha : a ∈ P)
    (hinj : ∀ a ∈ P, ∀ b ∈ P, t.keyOf a = t.keyOf b → a = b) :
    Holds t (P.erase a) (m.erase (t.keyOf a)) := by
  intro k v
  rcases eq_or_ne k (t.keyOf a) with rfl | hne
  · rw [Finmap.lookup_erase]
    simp only [reduceCtorEq, false_iff]
    rintro ⟨b, hb, hk, -⟩
    rw [Finset.mem_erase] at hb
    exact hb.1 (hinj b hb.2 a ha hk)
  · rw [Finmap.lookup_erase_ne hne, hm k v]
    refine exists_congr fun b => ?_
    rw [Finset.mem_erase]
    constructor
    · rintro ⟨hb, hk, hv⟩
      exact ⟨⟨fun heq => hne (hk ▸ heq ▸ rfl), hb⟩, hk, hv⟩
    · rintro ⟨⟨-, hb⟩, hk, hv⟩
      exact ⟨hb, hk, hv⟩

/-- An absent key has nothing to erase. -/
theorem Holds.erase_absent (hm : Holds t P m) {k : List UInt8}
    (habsent : ∀ a ∈ P, t.keyOf a ≠ k) : Holds t P (m.erase k) := by
  intro k' v
  rcases eq_or_ne k' k with rfl | hne
  · rw [Finmap.lookup_erase]
    simp only [reduceCtorEq, false_iff]
    rintro ⟨a, ha, hk, -⟩
    exact habsent a ha hk
  · rw [Finmap.lookup_erase_ne hne]
    exact hm k' v

/-- The value of an entry is replaced. -/
def setVal (t : HashTable V) (a : ℕ) (val : V) : HashTable V :=
  { t with entry := Function.update t.entry a { t.entry a with val := val } }

/-- A new value moves no entry. -/
theorem setVal_sameKeys (t : HashTable V) (a : ℕ) (val : V) :
    SameKeys t (t.setVal a val) ∧ (t.setVal a val).link = t.link := by
  have hentry : ∀ b, ((t.setVal a val).entry b).hash = (t.entry b).hash
      ∧ ((t.setVal a val).entry b).key = (t.entry b).key
      ∧ ((t.setVal a val).entry b).next = (t.entry b).next := by
    intro b
    unfold setVal
    rcases eq_or_ne b a with rfl | hne
    · simp only [Function.update_self, and_self]
    · simp only [Function.update_of_ne hne, and_self]
  exact ⟨fun b => ⟨(hentry b).1, (hentry b).2.1⟩, funext fun b => (hentry b).2.2⟩

/-- A new value keeps the representation. -/
theorem Rep.setVal (h : Rep hashFunc t P B F) (a : ℕ) (val : V) :
    Rep hashFunc (t.setVal a val) P B F := by
  obtain ⟨hkeys, hlink⟩ := setVal_sameKeys t a val
  refine h.rearrange hkeys h.length h.pow (Finset.Subset.refl P) ?_ ?_ ?_ h.apart h.lt h.count
  · rw [hlink]
    exact h.buckets
  · intro i hi b
    rw [h.mem i hi b]
    show _ ↔ b ∈ P ∧ ((t.setVal a val).entry b).hash.toNat &&& t.max = i
    rw [(hkeys b).1]
    rfl
  · rw [hlink]
    exact h.free

/-- The map with a value for the key of the entry `a`, when the other entries hold the other
keys. -/
theorem Holds.setVal {a : ℕ} (ha : a ∈ P)
    (hinj : ∀ a ∈ P, ∀ b ∈ P, t.keyOf a = t.keyOf b → a = b)
    (hother : ∀ k v, k ≠ t.keyOf a →
      (m.lookup k = some v ↔ ∃ b ∈ P, t.keyOf b = k ∧ (t.entry b).val = v)) (val : V) :
    Holds (t.setVal a val) P (m.insert (t.keyOf a) val) := by
  obtain ⟨hkeys, -⟩ := setVal_sameKeys t a val
  have hself : ((t.setVal a val).entry a).val = val := by
    simp only [HashTable.setVal, Function.update_self]
  have hne : ∀ b, b ≠ a → ((t.setVal a val).entry b).val = (t.entry b).val := by
    intro b hb
    simp only [HashTable.setVal, Function.update_of_ne hb]
  intro k v
  rcases eq_or_ne k (t.keyOf a) with rfl | hk
  · rw [Finmap.lookup_insert]
    constructor
    · intro hv
      rw [Option.some.injEq] at hv
      exact ⟨a, ha, hkeys.keyOf a, hself.trans hv⟩
    · rintro ⟨b, hb, hkb, hv⟩
      rw [hkeys.keyOf] at hkb
      obtain rfl := hinj b hb a ha hkb
      rw [← hv, hself]
  · -- the value of another key is in another entry
    rw [Finmap.lookup_insert_of_ne m hk, hother k v hk]
    refine exists_congr fun b => and_congr_right fun _ => ?_
    rw [hkeys.keyOf]
    refine and_congr_right fun hkb => ?_
    rw [hne b fun heq => hk (hkb ▸ heq ▸ rfl)]

/-- `find_entry` with a value puts in a new entry for a key that has none. -/
theorem Rep.findEntry_new (h : Rep hashFunc t P B F) (key : HashKey) (val : V)
    (habsent : ∀ a ∈ P, t.keyOf a ≠ key.bytes) :
    ∃ i ref he t' B' F', findEntry hashFunc t key (some val) = some (i, ref, some he, t')
      ∧ Rep hashFunc t' (insert he P) B' F' ∧ he ∉ P ∧ t'.keyOf he = key.bytes
      ∧ (∀ a ∈ P, t'.keyOf a = t.keyOf a ∧ (t'.entry a).val = (t.entry a).val)
      ∧ t'.max = t.max ∧ t'.count = t.count + 1 := by
  obtain ⟨head, pre, rest, hhead, hB, hwalk, hfound, -⟩ := h.walk key
  obtain ⟨F', hnew, hP, hF, hlt⟩ := h.newEntry
  obtain ⟨harray, hmax, hcount, hentry⟩ := t.newEntry_rest
  have hkeyOf : ∀ a, t.newEntry.2.keyOf a = t.keyOf a := fun a => by rw [keyOf, hentry, keyOf]
  cases rest with
  | cons b rest => exact absurd (hfound b rfl).2 (habsent b (hfound b rfl).1)
  | nil =>
      rw [List.append_nil] at hB
      have happend := hnew.append key val hP hF hlt fun a ha => by
        rw [hkeyOf]
        exact habsent a ha
      rw [hmax, hB] at happend
      have hdata := append_entry t.newEntry.2 ((hashFunc key.bytes).toNat &&& t.max)
        pre.getLast? t.newEntry.1 ⟨none, hashFunc key.bytes, key.fixed, val⟩
      obtain ⟨hmax', hcount', -⟩ := setLink_rest { t.newEntry.2 with
        entry := Function.update t.newEntry.2.entry t.newEntry.1
          ⟨none, hashFunc key.bytes, key.fixed, val⟩ }
        ((hashFunc key.bytes).toNat &&& t.max) pre.getLast? (some t.newEntry.1)
      refine ⟨(hashFunc key.bytes).toNat &&& t.max, pre.getLast?, t.newEntry.1, _, _, F', ?_,
        happend, hP, ?_, ?_, ?_, ?_⟩
      · simp only [findEntry, HashFunc.apply, hhead, hwalk, List.head?_nil]
        rfl
      · rw [keyOf, (hdata _).2.1, Function.update_self]
        exact key.bytes_fixed
      · intro a ha
        have hne : a ≠ t.newEntry.1 := fun heq => hP (heq ▸ ha)
        rw [keyOf, (hdata a).2.1, (hdata a).2.2, Function.update_of_ne hne, hentry]
        exact ⟨rfl, rfl⟩
      · exact hmax'.trans hmax
      · show _ + 1 = t.count + 1
        rw [hcount', hcount]

/-- A `NULL` value takes the key out of the map. -/
theorem Represents.set_null (h : Represents hashFunc t m) (key : HashKey) :
    ∃ t', hashSet hashFunc t key none = some t' ∧ Represents hashFunc t' (m.erase key.bytes) := by
  obtain ⟨P, B, F, hrep, hle, hm⟩ := h
  obtain ⟨a, ha, hkey, t', hset, hrep', hkeys, hval, -, hmax⟩ | ⟨habsent, hset⟩ :=
    hrep.hashSet_null key
  · refine ⟨t', hset, _, _, _, hrep', ?_, ?_⟩
    · have hcount := hrep.count
      rw [hrep'.count, hmax, Finset.card_erase_of_mem ha]
      omega
    · rw [← hkey]
      exact (hm.erase ha hrep.inj).congr hkeys hval
  · exact ⟨t, hset, P, B, F, hrep, hle, hm.erase_absent habsent⟩

/-- A value replaces the value of a key. -/
theorem Represents.set_present (h : Represents hashFunc t m) (key : HashKey) (val : V)
    (hpresent : key.bytes ∈ m) :
    ∃ t', hashSet hashFunc t key (some val) = some t'
      ∧ Represents hashFunc t' (m.insert key.bytes val) := by
  obtain ⟨P, B, F, hrep, hle, hm⟩ := h
  obtain ⟨a, ha, hkey⟩ : ∃ a ∈ P, t.keyOf a = key.bytes := by
    by_contra hnone
    push Not at hnone
    exact (hm.absent_iff key.bytes).mpr hnone hpresent
  obtain ⟨i, pre, rest, hfind, -⟩ := hrep.findEntry_present key ha hkey (some val)
  refine ⟨t.setVal a val, ?_, P, B, F, hrep.setVal a val, hle, ?_⟩
  · rw [hashSet, hfind]
    exact if_neg (not_lt.mpr hle)
  · rw [← hkey]
    exact Holds.setVal ha hrep.inj (fun k v _ => hm k v) val

/-- The table with a new key, before `hash_set` looks at the number of entries. -/
theorem Represents.set_new (h : Represents hashFunc t m) (key : HashKey) (val : V)
    (habsent : key.bytes ∉ m) :
    ∃ t' P B F, hashSet hashFunc t key (some val)
        = (if t'.count > t'.max then t'.expandArray else some t')
      ∧ Rep hashFunc t' P B F ∧ Holds t' P (m.insert key.bytes val)
      ∧ t'.max = t.max ∧ t'.count = t.count + 1 ∧ t.count ≤ t.max := by
  obtain ⟨P, B, F, hrep, hle, hm⟩ := h
  obtain ⟨i, ref, he, t₁, B', F', hfind, hrep₁, hnew, hkey, hold, hmax, hcount⟩ :=
    hrep.findEntry_new key val ((hm.absent_iff key.bytes).mp habsent)
  refine ⟨t₁.setVal he val, _, B', F', ?_, hrep₁.setVal he val, ?_, hmax, hcount, hle⟩
  · rw [hashSet, hfind]
    rfl
  · rw [← hkey]
    refine Holds.setVal (Finset.mem_insert_self he P) hrep₁.inj (fun k v hne => ?_) val
    rw [hm k v]
    constructor
    · rintro ⟨b, hb, hk, hv⟩
      obtain ⟨hkeyb, hvalb⟩ := hold b hb
      exact ⟨b, Finset.mem_insert_of_mem hb, hkeyb.trans hk, hvalb.trans hv⟩
    · rintro ⟨b, hb, hk, hv⟩
      rcases Finset.mem_insert.mp hb with rfl | hb
      · exact absurd hk.symm hne
      · obtain ⟨hkeyb, hvalb⟩ := hold b hb
        exact ⟨b, hb, hkeyb.symm.trans hk, hvalb.symm.trans hv⟩

/-- **`hash_set` is the update of the map**, as long as the table has fewer than 2^31
entries. -/
theorem Represents.set (h : Represents hashFunc t m) (key : HashKey) (val : Option V)
    (hroom : val.isSome → key.bytes ∉ m → m.keys.card + 1 < 2 ^ 31) :
    ∃ t', hashSet hashFunc t key val = some t'
      ∧ Represents hashFunc t' (setMap m key.bytes val) := by
  cases val with
  | none => exact h.set_null key
  | some val =>
      by_cases hpresent : key.bytes ∈ m
      · exact h.set_present key val hpresent
      · have hcard := h.card_keys
        have hlt := hroom rfl hpresent
        obtain ⟨t', P, B, F, hset, hrep, hm, hmax, hcount, hle⟩ := h.set_new key val hpresent
        rw [hset]
        split
        · -- the array was full, and the keys stay the same when it grows
          rename_i hfull
          obtain ⟨t'', N, hexpand, hrep', hmax', hcount', hkeys, hval⟩ :=
            hrep.expandArray (by omega)
          exact ⟨t'', hexpand, P, N, F, hrep', by omega, hm.congr hkeys hval⟩
        · exact ⟨t', rfl, P, B, F, hrep, by omega, hm⟩

/-- The entry that would be number 2^31 makes the table ask for 2^32 cells. -/
theorem Represents.set_overflow (h : Represents hashFunc t m) (key : HashKey) (val : V)
    (habsent : key.bytes ∉ m) (hfull : m.keys.card + 1 = 2 ^ 31) :
    hashSet hashFunc t key (some val) = none := by
  have hcard := h.card_keys
  obtain ⟨t', P, B, F, hset, hrep, -, hmax, hcount, hle⟩ := h.set_new key val habsent
  obtain ⟨k, -, hk, hpow⟩ := hrep.pow
  have hk31 : 2 ^ k ≤ 2 ^ 31 := Nat.pow_le_pow_right (by norm_num) hk
  rw [hset, if_pos (by omega)]
  apply hrep.expandArray_overflow (by omega)
  rw [← Finset.card_pos, ← hrep.count]
  omega

/-- A new table is the empty map. -/
theorem hashMake_represents (hashFunc : HashFunc) (entry : ℕ → HashEntry V) :
    Represents hashFunc (hashMake entry) ∅ := by
  refine ⟨∅, fun _ => [], [], ?_, Nat.zero_le _, fun k v => ?_⟩
  · refine ⟨rfl, ⟨4, le_rfl, by norm_num, rfl⟩, buckets_allocArray _ _, ?_, ?_, ?_, ?_, rfl, ?_, ?_,
      rfl⟩
    · intro i _ a
      simp
    · exact fun a ha => absurd ha (Finset.notMem_empty a)
    · exact fun a ha => absurd ha (Finset.notMem_empty a)
    · exact fun a ha => absurd ha (Finset.notMem_empty a)
    · exact fun a ha => absurd ha List.not_mem_nil
    · intro a ha
      simp at ha
  · rw [Finmap.lookup_empty]
    simp

/-! ## Traversals -/

/-- A client deletes some keys. -/
def deleteKeys (hashFunc : HashFunc) (t : HashTable V) : List HashKey → Option (HashTable V)
  | [] => some t
  | key :: keys =>
      match hashSet hashFunc t key none with
      | none => none
      | some t => deleteKeys hashFunc t keys

/-- A traversal by a client that deletes the keys `del visited` when it has come to the last of
the entries `visited`. -/
def traverse (hashFunc : HashFunc) (t : HashTable V) (del : List ℕ → List HashKey) :
    Option (List ℕ × HashTable V) :=
  match t.hashFirst with
  | none => none
  | some hi =>
      forEach (fun visited t => deleteKeys hashFunc t (del visited)) (t.count + 1) hi []

/-- The map without some keys. -/
def eraseKeys (m : Finmap fun _ : List UInt8 => V) (keys : List HashKey) :
    Finmap fun _ : List UInt8 => V :=
  keys.foldl (fun m key => m.erase key.bytes) m

/-- All keys deleted by a traversal over `R` that has come past `visited`. -/
def deleted (del : List ℕ → List HashKey) : List ℕ → List ℕ → List HashKey
  | _, [] => []
  | visited, a :: R => del (visited ++ [a]) ++ deleted del (visited ++ [a]) R

/-- Removing keys removes these and no others. -/
theorem lookup_eraseKeys (m : Finmap fun _ : List UInt8 => V) (keys : List HashKey)
    (k : List UInt8) :
    (eraseKeys m keys).lookup k
      = if ∃ key ∈ keys, key.bytes = k then none else m.lookup k := by
  induction keys generalizing m with
  | nil => simp [eraseKeys]
  | cons key keys ih =>
      rw [eraseKeys, List.foldl_cons, ← eraseKeys, ih]
      by_cases hrest : ∃ key ∈ keys, key.bytes = k
      · obtain ⟨key', hmem, heq⟩ := hrest
        rw [if_pos ⟨key', hmem, heq⟩, if_pos ⟨key', List.mem_cons_of_mem key hmem, heq⟩]
      · rw [if_neg hrest]
        rcases eq_or_ne key.bytes k with rfl | hne
        · rw [if_pos ⟨key, List.mem_cons_self, rfl⟩, Finmap.lookup_erase]
        · rw [Finmap.lookup_erase_ne (Ne.symm hne), if_neg]
          rintro ⟨key', hmem, heq⟩
          obtain rfl | hmem := List.mem_cons.mp hmem
          · exact hne heq
          · exact hrest ⟨key', hmem, heq⟩

/-- The iterator is inside a chain in front of the entries `rest`, or between two cells. -/
structure Underway (t : HashTable V) (B : ℕ → List ℕ) (rest : List ℕ) : Prop where
  index_le : t.iterator.index ≤ t.max + 1
  next : t.iterator.next = rest.head?
  chain : rest = [] ∨ ∃ pre, 1 ≤ t.iterator.index ∧ B (t.iterator.index - 1) = pre ++ rest

theorem Underway.toAhead {rest : List ℕ} (hu : Underway t B rest) (h : Rep hashFunc t P B F) :
    Ahead t B rest := by
  refine ⟨h.length, hu.index_le, ?_, fun j _ => h.buckets j⟩
  rw [hu.next]
  obtain rfl | ⟨pre, hpos, hB⟩ := hu.chain
  · rfl
  · have hindex := hu.index_le
    obtain ⟨head, -, hchain⟩ :=
      h.buckets.chain (i := t.iterator.index - 1) (by rw [h.length]; omega)
    rw [hB] at hchain
    exact hchain.suffix

/-- An entry ahead is an entry of the table. -/
theorem Underway.mem {rest : List ℕ} (hu : Underway t B rest) (h : Rep hashFunc t P B F) {a : ℕ}
    (ha : a ∈ t.ahead B rest) : a ∈ P := by
  have hindex := hu.index_le
  rw [ahead, List.mem_append] at ha
  obtain ha | ha := ha
  · obtain rfl | ⟨pre, hpos, hB⟩ := hu.chain
    · exact absurd ha List.not_mem_nil
    · refine ((h.mem (t.iterator.index - 1) (by omega) a).mp ?_).1
      rw [hB]
      exact List.mem_append_right _ ha
  · obtain ⟨j, -, hj, ha⟩ := mem_nodesFrom.mp ha
    exact ((h.mem j (by omega) a).mp ha).1

/-- The deletion of an entry that is not ahead leaves the entries ahead as they are. -/
theorem Underway.filter {rest : List ℕ} (hu : Underway t B rest) {a : ℕ}
    (ha : a ∉ t.ahead B rest) (hiterator : t'.iterator = t.iterator) (hmax : t'.max = t.max) :
    Underway t' (fun j => (B j).filter fun b => b ≠ a) rest
      ∧ t'.ahead (fun j => (B j).filter fun b => b ≠ a) rest = t.ahead B rest := by
  have hkeep : ∀ l : List ℕ, a ∉ l → l.filter (fun b => b ≠ a) = l := by
    intro l hl
    refine List.filter_eq_self.mpr fun b hb => decide_eq_true ?_
    rintro rfl
    exact hl hb
  rw [ahead, List.mem_append, not_or] at ha
  constructor
  · refine ⟨by rw [hiterator, hmax]; exact hu.index_le, by rw [hiterator]; exact hu.next, ?_⟩
    rw [hiterator]
    obtain hnil | ⟨pre, hpos, hB⟩ := hu.chain
    · exact Or.inl hnil
    · refine Or.inr ⟨pre.filter fun b => b ≠ a, hpos, ?_⟩
      rw [hB, List.filter_append, hkeep rest ha.1]
  · rw [ahead, ahead, hiterator, hmax]
    congr 1
    refine nodesFrom_congr fun j hj hjmax => hkeep _ fun hmem => ha.2 ?_
    exact mem_nodesFrom.mpr ⟨j, hj, hjmax, hmem⟩

/-- The client deletes keys of entries that are not ahead. -/
theorem Rep.deleteKeys {rest : List ℕ} (keys : List HashKey) (h : Rep hashFunc t P B F)
    (hle : t.count ≤ t.max) (hm : Holds t P m) (hu : Underway t B rest)
    (hbehind : ∀ key ∈ keys, ∀ a ∈ t.ahead B rest, t.keyOf a ≠ key.bytes) :
    ∃ t' P' B' F', HashTable.deleteKeys hashFunc t keys = some t' ∧ Rep hashFunc t' P' B' F'
      ∧ t'.count ≤ t'.max ∧ Holds t' P' (eraseKeys m keys) ∧ Underway t' B' rest
      ∧ t'.ahead B' rest = t.ahead B rest ∧ SameKeys t t' := by
  induction keys generalizing t P B F m with
  | nil => exact ⟨t, P, B, F, rfl, h, hle, hm, hu, rfl, fun _ => ⟨rfl, rfl⟩⟩
  | cons key keys ih =>
      rw [HashTable.deleteKeys]
      obtain ⟨a, ha, hkey, t₁, hset, h₁, hkeys, hval, hiterator, hmax⟩ | ⟨habsent, hset⟩ :=
        h.hashSet_null key
      · have hnot : a ∉ t.ahead B rest := fun hmem =>
          hbehind key List.mem_cons_self a hmem hkey
        obtain ⟨hu₁, hahead⟩ := hu.filter hnot hiterator hmax
        have hm₁ : Holds t₁ (P.erase a) (m.erase key.bytes) := by
          rw [← hkey]
          exact (hm.erase ha h.inj).congr hkeys hval
        have hle₁ : t₁.count ≤ t₁.max := by
          have hcount := h.count
          rw [h₁.count, hmax, Finset.card_erase_of_mem ha]
          omega
        obtain ⟨t', P', B', F', hrun, h', hle', hm', hu', hahead', hkeys'⟩ :=
          ih h₁ hle₁ hm₁ hu₁ fun key' hkey' b hb => by
            rw [hahead] at hb
            rw [hkeys.keyOf]
            exact hbehind key' (List.mem_cons_of_mem key hkey') b hb
        rw [hset]
        exact ⟨t', P', B', F', hrun, h', hle', hm', hu', hahead'.trans hahead,
          fun b => ⟨(hkeys' b).1.trans (hkeys b).1, (hkeys' b).2.trans (hkeys b).2⟩⟩
      · rw [hset]
        exact ih h hle (hm.erase_absent habsent) hu fun key' hkey' =>
          hbehind key' (List.mem_cons_of_mem key hkey')

/-- **A loop over the table visits the entries ahead in order**, also when it deletes entries
it has visited.  `body` need only delete the keys `del` where the loop runs it. -/
theorem Rep.forEach {t₀ : HashTable V} (body : List ℕ → HashTable V → Option (HashTable V))
    (del : List ℕ → List HashKey) (visited : List ℕ) {rest R : List ℕ} (fuel : ℕ)
    (hbody : ∀ visited a t, t.iterator.this = some a → SameKeys t₀ t →
      body (visited ++ [a]) t = HashTable.deleteKeys hashFunc t (del (visited ++ [a])))
    (hdel : ∀ visited, ∀ key ∈ del visited, ∃ a ∈ visited, t₀.keyOf a = key.bytes)
    (hinj : ∀ a ∈ visited ++ R, ∀ b ∈ visited ++ R, t₀.keyOf a = t₀.keyOf b → a = b)
    (hnodup : (visited ++ R).Nodup) (hsame : SameKeys t₀ t)
    (h : Rep hashFunc t P B F) (hle : t.count ≤ t.max) (hm : Holds t P m)
    (hu : Underway t B rest) (hR : t.ahead B rest = R) (hfuel : R.length < fuel) :
    ∃ hi t', t.hashNext = some hi
      ∧ HashTable.forEach body fuel hi visited = some (visited ++ R, t')
      ∧ Represents hashFunc t' (eraseKeys m (deleted del visited R)) := by
  induction R generalizing t P B F m rest visited fuel with
  | nil =>
      obtain ⟨-, index, hnext⟩ | ⟨a, rest', index, -, hlist, -⟩ := (hu.toAhead h).hashNext
      · cases fuel with
        | zero => exact absurd hfuel (Nat.not_lt_zero _)
        | succ fuel =>
            refine ⟨_, { t with iterator := ⟨none, none, index⟩ }, hnext, ?_, P, B, F,
              h.moveIterator _, hle, hm.congr (fun _ => ⟨rfl, rfl⟩) fun _ => rfl⟩
            rw [HashTable.forEach, List.append_nil]
      · rw [hR] at hlist
        exact absurd hlist (by simp)
  | cons b R ih =>
      obtain ⟨hnil, -⟩ | ⟨a, rest', index, hnext, hlist, hrest, hindex, hmax, hplace⟩ :=
        (hu.toAhead h).hashNext
      · rw [hR] at hnil
        exact absurd hnil (by simp)
      · rw [hR, List.cons.injEq] at hlist
        obtain ⟨rfl, hR'⟩ := hlist
        rw [List.length_cons] at hfuel
        cases fuel with
        | zero => exact absurd hfuel (Nat.not_lt_zero _)
        | succ fuel =>
            -- the table when the iterator has come to `b`
            obtain ⟨t₁, ht₁⟩ : ∃ t₁ : HashTable V,
                t₁ = { t with iterator := ⟨some b, t.link b, index⟩ } := ⟨_, rfl⟩
            have hkeys₁ : SameKeys t t₁ := by
              rw [ht₁]
              exact fun _ => ⟨rfl, rfl⟩
            have hsame₁ : SameKeys t₀ t₁ := fun c =>
              ⟨(hkeys₁ c).1.trans (hsame c).1, (hkeys₁ c).2.trans (hsame c).2⟩
            have h₁ : Rep hashFunc t₁ P B F := by
              rw [ht₁]
              exact h.moveIterator _
            have hm₁ : Holds t₁ P m := by
              rw [ht₁]
              exact hm.congr (fun _ => ⟨rfl, rfl⟩) fun _ => rfl
            have hu₁ : Underway t₁ B rest' := by
              rw [ht₁]
              refine ⟨hmax, hrest.head?_eq, ?_⟩
              obtain ⟨hsameIndex, hrestEq⟩ | ⟨hpos, hB⟩ := hplace
              · obtain hnil | ⟨pre, hpos, hB⟩ := hu.chain
                · rw [hrestEq] at hnil
                  exact absurd hnil (by simp)
                · refine Or.inr ⟨pre ++ [b], by rw [hsameIndex]; exact hpos, ?_⟩
                  rw [hsameIndex, hB, hrestEq, List.append_assoc, List.singleton_append]
              · exact Or.inr ⟨[b], hpos, hB⟩
            have hahead₁ : t₁.ahead B rest' = R := by
              rw [ht₁, hR']
              rfl
            have hsplit : visited ++ b :: R = visited ++ [b] ++ R := by
              rw [List.append_assoc, List.singleton_append]
            rw [hsplit] at hinj hnodup
            -- what is deleted was visited, and is not ahead
            have hbehind : ∀ key ∈ del (visited ++ [b]), ∀ c ∈ t₁.ahead B rest',
                t₁.keyOf c ≠ key.bytes := by
              intro key hkey c hc heq
              rw [hahead₁] at hc
              rw [hsame₁.keyOf] at heq
              obtain ⟨d, hd, hkeyd⟩ := hdel _ key hkey
              have hcd := hinj c (List.mem_append_right _ hc) d (List.mem_append_left _ hd)
                (heq.trans hkeyd.symm)
              exact (List.nodup_append.mp hnodup).2.2 d hd c hc hcd.symm
            obtain ⟨t₂, P₂, B₂, F₂, hrun, h₂, hle₂, hm₂, hu₂, hahead₂, hkeys₂⟩ :=
              h₁.deleteKeys (del (visited ++ [b])) (by rw [ht₁]; exact hle) hm₁ hu₁ hbehind
            obtain ⟨hi, t', hnext', hloop, hrep⟩ := ih (visited ++ [b]) fuel hinj hnodup
              (fun c => ⟨(hkeys₂ c).1.trans (hsame₁ c).1, (hkeys₂ c).2.trans (hsame₁ c).2⟩)
              h₂ hle₂ hm₂ hu₂ (hahead₂.trans hahead₁) (by omega)
            refine ⟨_, t', hnext, ?_, ?_⟩
            · rw [HashTable.forEach, ← ht₁, hbody visited b t₁ (by rw [ht₁]) hsame₁, hrun]
              dsimp only
              rw [hnext']
              dsimp only
              rw [hloop, hsplit]
            · rw [deleted, eraseKeys, List.foldl_append]
              exact hrep

/-- A loop from the start visits every entry once. -/
theorem Rep.forEach_first (body : List ℕ → HashTable V → Option (HashTable V))
    (del : List ℕ → List HashKey)
    (hbody : ∀ visited a t', t'.iterator.this = some a → SameKeys t t' →
      body (visited ++ [a]) t' = HashTable.deleteKeys hashFunc t' (del (visited ++ [a])))
    (hdel : ∀ visited, ∀ key ∈ del visited, ∃ a ∈ visited, t.keyOf a = key.bytes)
    (h : Rep hashFunc t P B F) (hle : t.count ≤ t.max) (hm : Holds t P m) :
    ∃ hi visited t', t.hashFirst = some hi
      ∧ HashTable.forEach body (t.count + 1) hi [] = some (visited, t')
      ∧ visited.Nodup ∧ (∀ a, a ∈ visited ↔ a ∈ P)
      ∧ Represents hashFunc t' (eraseKeys m (deleted del [] visited)) := by
  obtain ⟨hfirst, hnodup, hmem, hlen⟩ := h.first
  obtain ⟨hi, t', hnext, hloop, hrep⟩ := Rep.forEach body del [] (t.count + 1) hbody hdel
    (fun a ha b hb => h.inj a ((hmem a).mp ha) b ((hmem b).mp hb)) hnodup
    (t := { t with iterator := ⟨none, none, 0⟩ }) (fun _ => ⟨rfl, rfl⟩) (h.moveIterator _) hle
    (hm.congr (fun _ => ⟨rfl, rfl⟩) fun _ => rfl)
    ⟨Nat.zero_le _, rfl, Or.inl rfl⟩ rfl (Nat.lt_succ_of_le hlen.le)
  exact ⟨hi, _, t', hnext, hloop, hnodup, hmem, hrep⟩

/-- **A traversal visits each present key once**, also when visited keys are deleted on the
way. -/
theorem Represents.traverse (h : Represents hashFunc t m) (del : List ℕ → List HashKey)
    (hdel : ∀ visited, ∀ key ∈ del visited, ∃ a ∈ visited, t.keyOf a = key.bytes) :
    ∃ visited t', HashTable.traverse hashFunc t del = some (visited, t')
      ∧ (visited.map t.keyOf).Nodup ∧ (∀ k, k ∈ visited.map t.keyOf ↔ k ∈ m)
      ∧ (∀ a ∈ visited, m.lookup (t.keyOf a) = some (t.entry a).val)
      ∧ Represents hashFunc t' (eraseKeys m (deleted del [] visited)) := by
  obtain ⟨P, B, F, hrep, hle, hm⟩ := h
  obtain ⟨hi, visited, t', hfirst, hloop, hnodup, hmem, hrep'⟩ :=
    hrep.forEach_first (fun visited t => HashTable.deleteKeys hashFunc t (del visited)) del
      (fun _ _ _ _ _ => rfl) hdel hle hm
  refine ⟨visited, t', ?_, ?_, fun k => ?_, fun a ha => ?_, hrep'⟩
  · rw [HashTable.traverse, hfirst]
    exact hloop
  · refine hnodup.map_on fun a ha b hb heq => ?_
    exact hrep.inj a ((hmem a).mp ha) b ((hmem b).mp hb) heq
  · rw [List.mem_map, ← not_iff_not, hm.absent_iff]
    constructor
    · intro hnone a ha heq
      exact hnone ⟨a, (hmem a).mpr ha, heq⟩
    · rintro habsent ⟨a, ha, heq⟩
      exact habsent a ((hmem a).mp ha) heq
  · exact (hm _ _).mpr ⟨a, (hmem a).mp ha, rfl, rfl⟩

/-- `hash_clear` empties the map. -/
theorem Represents.clear (h : Represents hashFunc t m) :
    ∃ t', hashClear hashFunc t = some t' ∧ Represents hashFunc t' ∅ := by
  obtain ⟨P, B, F, hrep, hle, hm⟩ := h
  -- the key deleted at each entry is the key of that entry
  obtain ⟨hi, visited, t', hfirst, hloop, -, hmem, hrep'⟩ :=
    hrep.forEach_first (fun _ t => deleteThis hashFunc t)
      (fun visited => (visited.getLast?.map fun a => (t.entry a).key).toList)
      (by
        intro visited a t' hthis hkeys
        rw [deleteThis, hthis, List.getLast?_concat]
        simp only [Option.map_some, Option.toList_some, HashTable.deleteKeys, (hkeys a).2]
        cases hashSet hashFunc t' (t.entry a).key none <;> rfl)
      (by
        intro visited key hkey
        rw [Option.mem_toList, Option.map_eq_some_iff] at hkey
        obtain ⟨a, hlast, rfl⟩ := hkey
        exact ⟨a, List.mem_of_getLast? hlast, rfl⟩) hle hm
  refine ⟨t', ?_, ?_⟩
  · rw [hashClear, hfirst]
    dsimp only
    rw [hloop]
    rfl
  · have hdeleted : ∀ visited R : List ℕ, ∀ a ∈ R, (t.entry a).key ∈ deleted
        (fun visited => (visited.getLast?.map fun a => (t.entry a).key).toList) visited R := by
      intro visited R
      induction R generalizing visited with
      | nil => exact fun a ha => absurd ha List.not_mem_nil
      | cons b R ih =>
          intro a ha
          rw [deleted, List.mem_append]
          obtain rfl | ha := List.mem_cons.mp ha
          · left
            rw [List.getLast?_concat]
            exact List.mem_singleton_self _
          · exact Or.inr (ih _ a ha)
    have hempty : eraseKeys m (deleted
        (fun visited => (visited.getLast?.map fun a => (t.entry a).key).toList) [] visited)
        = ∅ := by
      refine Finmap.ext_lookup fun k => ?_
      rw [lookup_eraseKeys, Finmap.lookup_empty]
      split
      · rfl
      · rename_i hkept
        refine hm.lookup_eq_none fun a ha heq => hkept ⟨_, ?_, heq⟩
        exact hdeleted [] visited a ((hmem a).mpr ha)
    rwa [hempty] at hrep'

/-! ## Runs -/

/-- A call of a client. -/
inductive Op (V : Type)
  | set (key : HashKey) (val : Option V)
  | get (key : HashKey)
  | clear

/-- The table after a call. -/
def applyOp (hashFunc : HashFunc) (t : HashTable V) : Op V → Option (HashTable V)
  | .set key val => hashSet hashFunc t key val
  | .get key => (hashGet hashFunc t key).map fun _ => t
  | .clear => hashClear hashFunc t

/-- The table after a sequence of calls. -/
def runOps (hashFunc : HashFunc) (t : HashTable V) : List (Op V) → Option (HashTable V)
  | [] => some t
  | op :: ops =>
      match applyOp hashFunc t op with
      | none => none
      | some t => runOps hashFunc t ops

/-- The map after a call. -/
def Op.spec (m : Finmap fun _ : List UInt8 => V) : Op V → Finmap fun _ : List UInt8 => V
  | .set key val => setMap m key.bytes val
  | .get _ => m
  | .clear => ∅

/-- The map after a sequence of calls. -/
def specOps (m : Finmap fun _ : List UInt8 => V) (ops : List (Op V)) :
    Finmap fun _ : List UInt8 => V :=
  ops.foldl Op.spec m

/-- A call that puts in a new key finds fewer than 2^31 - 1 keys. -/
def Op.HasRoom (m : Finmap fun _ : List UInt8 => V) : Op V → Prop
  | .set key (some _) => key.bytes ∉ m → m.keys.card + 1 < 2 ^ 31
  | _ => True

/-- Every call of a sequence has room. -/
def RoomFor (m : Finmap fun _ : List UInt8 => V) : List (Op V) → Prop
  | [] => True
  | op :: ops => op.HasRoom m ∧ RoomFor (op.spec m) ops

/-- The answers of `hash_get` and `hash_count` are those of the map. -/
structure Agrees (hashFunc : HashFunc) (t : HashTable V) (m : Finmap fun _ : List UInt8 => V) :
    Prop where
  get : ∀ key, ∃ r, hashGet hashFunc t key = some r ∧ r.map Prod.snd = m.lookup key.bytes
    ∧ ∀ e ∈ r, e.1.bytes = key.bytes
  count : t.hashCount = m.keys.card

/-- A traversal by a client that deletes any of the keys it has met visits each key of the map
once, with its value, and takes the deleted keys out of the map. -/
def Traverses (hashFunc : HashFunc) (t : HashTable V) (m : Finmap fun _ : List UInt8 => V) :
    Prop :=
  ∀ del : List ℕ → List HashKey,
    (∀ visited, ∀ key ∈ del visited, ∃ a ∈ visited, t.keyOf a = key.bytes) →
    ∃ visited t', traverse hashFunc t del = some (visited, t')
      ∧ (visited.map t.keyOf).Nodup ∧ (∀ k, k ∈ visited.map t.keyOf ↔ k ∈ m)
      ∧ (∀ a ∈ visited, m.lookup (t.keyOf a) = some (t.entry a).val)
      ∧ Agrees hashFunc t' (eraseKeys m (deleted del [] visited))

/-- Every look-up agrees with the map. -/
theorem Represents.agrees (h : Represents hashFunc t m) : Agrees hashFunc t m :=
  ⟨h.hashGet, h.card_keys.symm⟩

/-- A traversal visits what is in the map. -/
theorem Represents.traverses (h : Represents hashFunc t m) : Traverses hashFunc t m := by
  intro del hdel
  obtain ⟨visited, t', hrun, hnodup, hmem, hval, h'⟩ := h.traverse del hdel
  exact ⟨visited, t', hrun, hnodup, hmem, hval, h'.agrees⟩

/-- One call is the call on the map. -/
theorem Represents.applyOp (h : Represents hashFunc t m) {op : Op V} (hroom : op.HasRoom m) :
    ∃ t', HashTable.applyOp hashFunc t op = some t' ∧ Represents hashFunc t' (op.spec m) := by
  cases op with
  | set key val =>
      refine h.set key val fun hval => ?_
      cases val with
      | none => simp at hval
      | some val => exact hroom
  | get key =>
      obtain ⟨r, hget, -⟩ := h.hashGet key
      refine ⟨t, ?_, h⟩
      rw [HashTable.applyOp, hget]
      rfl
  | clear => exact h.clear

/-- A table never has more than 2^31 - 1 entries. -/
theorem Represents.card_lt (h : Represents hashFunc t m) : m.keys.card < 2 ^ 31 := by
  have hcard := h.card_keys
  obtain ⟨P, B, F, hrep, hle, -⟩ := h
  obtain ⟨k, -, hk, hpow⟩ := hrep.pow
  have hk31 : 2 ^ k ≤ 2 ^ 31 := Nat.pow_le_pow_right (by norm_num) hk
  omega

/-- One call without room writes outside the array. -/
theorem Represents.applyOp_overflow (h : Represents hashFunc t m) {op : Op V}
    (hroom : ¬ op.HasRoom m) : HashTable.applyOp hashFunc t op = none := by
  cases op with
  | set key val =>
      cases val with
      | none => exact absurd trivial hroom
      | some val =>
          rw [Op.HasRoom, Classical.not_imp] at hroom
          have hlt := h.card_lt
          exact h.set_overflow key val hroom.1 (by omega)
  | get key => exact absurd trivial hroom
  | clear => exact absurd trivial hroom

/-- A run with room for its keys is the run on the map. -/
theorem Represents.runOps (ops : List (Op V)) (h : Represents hashFunc t m)
    (hroom : RoomFor m ops) :
    ∃ t', HashTable.runOps hashFunc t ops = some t' ∧ Represents hashFunc t' (specOps m ops) := by
  induction ops generalizing t m with
  | nil => exact ⟨t, rfl, h⟩
  | cons op ops ih =>
      obtain ⟨t₁, happly, h₁⟩ := h.applyOp hroom.1
      rw [HashTable.runOps, happly]
      exact ih h₁ hroom.2

/-- A run without room does not come to an end. -/
theorem Represents.runOps_overflow (ops : List (Op V)) (h : Represents hashFunc t m)
    (hroom : ¬ RoomFor m ops) : HashTable.runOps hashFunc t ops = none := by
  induction ops generalizing t m with
  | nil => exact absurd trivial hroom
  | cons op ops ih =>
      rw [HashTable.runOps]
      by_cases hop : op.HasRoom m
      · obtain ⟨t₁, happly, h₁⟩ := h.applyOp hop
        rw [happly]
        exact ih h₁ fun hops => hroom ⟨hop, hops⟩
      · rw [h.applyOp_overflow hop]

/-- **The hash table is a finite map exactly as long as it has fewer than 2^31 entries**: a run
comes to an end, in a table whose answers and traversals are those of the map, if and only if
each call that puts in a new key finds fewer than 2^31 - 1 of them. -/
theorem hash_refines_iff (hashFunc : HashFunc) (entry : ℕ → HashEntry V) (ops : List (Op V)) :
    (∃ t, runOps hashFunc (hashMake entry) ops = some t ∧ Agrees hashFunc t (specOps ∅ ops)
        ∧ Traverses hashFunc t (specOps ∅ ops))
      ↔ RoomFor ∅ ops := by
  have h := hashMake_represents hashFunc entry
  constructor
  · rintro ⟨t, hrun, -⟩
    by_contra hroom
    rw [h.runOps_overflow ops hroom] at hrun
    cases hrun
  · intro hroom
    obtain ⟨t, hrun, ht⟩ := h.runOps ops hroom
    exact ⟨t, hrun, ht.agrees, ht.traverses⟩

/-! ### A run that fills the table -/

/-- There is room for calls in a row when there is for each part. -/
theorem roomFor_append (m : Finmap fun _ : List UInt8 => V) (ops ops' : List (Op V)) :
    RoomFor m (ops ++ ops') ↔ RoomFor m ops ∧ RoomFor (specOps m ops) ops' := by
  induction ops generalizing m with
  | nil => exact (iff_of_eq (true_and _)).symm
  | cons op ops ih =>
      rw [List.cons_append, RoomFor, RoomFor, ih, and_assoc]
      rfl

/-- The key of `i` bytes that are zero. -/
def zeros (i : ℕ) : HashKey where
  mem := List.replicate (i % 2 ^ 31) 0
  klen := (i % 2 ^ 31 : ℕ)
  valid := by
    rw [List.length_replicate]
    omega

theorem bytes_zeros {i : ℕ} (hi : i < 2 ^ 31) : (zeros i).bytes = List.replicate i 0 := by
  have hklen : (zeros i).klen = (i : ℤ) := congrArg Nat.cast (Nat.mod_eq_of_lt hi)
  have hmem : (zeros i).mem = List.replicate i 0 :=
    congrArg (List.replicate · 0) (Nat.mod_eq_of_lt hi)
  rw [HashKey.bytes, hklen, hmem, if_neg (by omega), Int.toNat_natCast, List.take_replicate,
    min_self]

/-- The keys of `0` up to `n - 1` zero bytes are put in. -/
def fillOps (n : ℕ) : List (Op Unit) :=
  (List.range n).map fun i => Op.set (zeros i) (some ())

/-- The keys of the filled table. -/
theorem mem_fillOps {n : ℕ} (hn : n ≤ 2 ^ 31) (k : List UInt8) :
    k ∈ specOps ∅ (fillOps n) ↔ ∃ i < n, List.replicate i 0 = k := by
  induction n with
  | zero => simp [fillOps, specOps, Finmap.notMem_empty]
  | succ n ih =>
      have hlast : specOps ∅ (fillOps (n + 1))
          = (specOps ∅ (fillOps n)).insert (zeros n).bytes () := by
        rw [fillOps, specOps, List.range_succ, List.map_append, List.foldl_append]
        rfl
      rw [hlast, Finmap.mem_insert, ih (by omega), bytes_zeros (by omega)]
      constructor
      · rintro (rfl | ⟨i, hi, rfl⟩)
        · exact ⟨n, Nat.lt_succ_self n, rfl⟩
        · exact ⟨i, Nat.lt_succ_of_lt hi, rfl⟩
      · rintro ⟨i, hi, rfl⟩
        obtain hi | rfl := Nat.lt_succ_iff_lt_or_eq.mp hi
        · exact Or.inr ⟨i, hi, rfl⟩
        · exact Or.inl rfl

theorem replicate_injective : Function.Injective fun i : ℕ => List.replicate i (0 : UInt8) := by
  intro i j heq
  have hlen := congrArg List.length heq
  simpa using hlen

/-- There are as many as calls. -/
theorem card_fillOps {n : ℕ} (hn : n ≤ 2 ^ 31) : (specOps ∅ (fillOps n)).keys.card = n := by
  have hkeys : (specOps ∅ (fillOps n)).keys
      = (Finset.range n).image fun i => List.replicate i 0 := by
    ext k
    rw [Finmap.mem_keys, mem_fillOps hn, Finset.mem_image]
    simp only [Finset.mem_range]
  rw [hkeys, Finset.card_image_of_injective _ replicate_injective, Finset.card_range]

/-- There is no room for 2^31 keys. -/
theorem not_roomFor_fillOps {n : ℕ} (hn : n = 2 ^ 31) : ¬ RoomFor ∅ (fillOps n) := by
  cases n with
  | zero => exact absurd hn (by norm_num)
  | succ n =>
      rw [fillOps, List.range_succ, List.map_append, roomFor_append]
      rintro ⟨-, hroom, -⟩
      have habsent : (zeros n).bytes ∉ specOps ∅ (fillOps n) := by
        rw [mem_fillOps (by omega), bytes_zeros (by omega)]
        rintro ⟨i, hi, heq⟩
        have hin := replicate_injective heq
        omega
      have hlt := hroom habsent
      have hcard := card_fillOps (n := n) (by omega)
      rw [fillOps] at hcard
      omega

/-- With `hashfunc_default`, 2^31 different keys that all have a value do not fit: the last one
makes the table ask for 2^32 cells, and the first entry is relinked into none. -/
theorem hash_overflows :
    runOps times33 (hashMake fun _ => ⟨none, 0, zeros 0, ()⟩) (fillOps (2 ^ 31)) = none
      ∧ ¬ ∃ t, runOps times33 (hashMake fun _ => ⟨none, 0, zeros 0, ()⟩) (fillOps (2 ^ 31))
            = some t
          ∧ Agrees times33 t (specOps ∅ (fillOps (2 ^ 31))) := by
  have hnone := (hashMake_represents times33 fun _ => ⟨none, 0, zeros 0, ()⟩).runOps_overflow _
    (not_roomFor_fillOps rfl)
  refine ⟨hnone, ?_⟩
  rintro ⟨t, hrun, -⟩
  rw [hnone] at hrun
  cases hrun

end HashTable

end Zevent.Znet

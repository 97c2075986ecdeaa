/-
# The dictionary of the configuration (`src/dictionary.c`)

A dictionary has three arrays of one size, for the values, the keys and the hashes of the
keys, and a count of the keys.  A slot without a key is free; a key is looked for from the
first slot on, by its hash and then by itself; a new key goes into the first free slot, and
when all slots are taken the arrays are doubled first.

`dictionary_refines`: whatever keys are set and unset, and however often the arrays grow,
the dictionary answers as the finite map does that the calls describe, its count is the
number of the keys, and no call writes behind the end of an array.
-/
import Mathlib.Tactic
import Zevent.Lib.CString
import Zevent.Lib.SlotTable

namespace Zevent.Ini

open CString SlotTable

/-! ## The code -/

/-- `DICTMINSZ`. -/
def dictMinSz : ℕ := 128

/-- `(unsigned)key[i]`: a `char` has a sign, which is extended. -/
def charToUnsigned (c : UInt8) : UInt32 := c.toInt8.toInt32.toUInt32

/-- The body of the loop of `dictionary_hash`. -/
def hashChar (hash : UInt32) (c : UInt8) : UInt32 :=
  let hash := hash + charToUnsigned c
  let hash := hash + (hash <<< 10)
  hash ^^^ (hash >>> 6)

/-- `dictionary_hash`. -/
def dictionaryHash (key : Str) : UInt32 :=
  let hash := key.val.foldl hashChar 0
  let hash := hash + (hash <<< 3)
  let hash := hash ^^^ (hash >>> 11)
  hash + (hash <<< 15)

/-- `d->key[i]`, `d->val[i]` and `d->hash[i]`. -/
structure Slot where
  key : Option Str
  val : Option Str
  hash : UInt32
  deriving DecidableEq

/-- A slot as `calloc` and `dictionary_unset` leave it. -/
def Slot.free : Slot := ⟨none, none, 0⟩

/-- The slot has the key: `d->key[i] != NULL`, the hash is the same and so is the string. -/
def Slot.Hit (key : Str) (s : Slot) : Bool :=
  s.key.isSome && (dictionaryHash key == s.hash && s.key == some key)

/-- `dictionary`; `size` is the length of the list of slots. -/
structure Dictionary where
  n : ℕ
  slots : List Slot
  deriving DecidableEq

namespace Dictionary

/-- `dictionary_new`. -/
def dictionaryNew (size : ℕ) : Dictionary where
  n := 0
  slots := List.replicate (if size < dictMinSz then dictMinSz else size) Slot.free

/-- `dictionary_get`; `none` stands for the default that the caller passes. -/
def dictionaryGet (d : Dictionary) (key : Str) : Option (Option Str) :=
  (d.slots.find? (Slot.Hit key)).map Slot.val

/-- The arrays in which `dictionary_set` puts a new key. -/
def grown (d : Dictionary) : List Slot :=
  if d.n = d.slots.length then d.slots ++ List.replicate d.slots.length Slot.free else d.slots

/-- `dictionary_set`; `none` is a write behind the arrays, which there is when no slot is
free. -/
def dictionarySet (d : Dictionary) (key : Str) (val : Option Str) : Option Dictionary :=
  match if 0 < d.n then d.slots.findIdx? (Slot.Hit key) else none with
  | some i => some { d with slots := d.slots.modify i fun s => { s with val := val } }
  | none =>
      match d.grown.findIdx? fun s => s.key.isNone with
      | some i =>
          some ⟨d.n + 1, d.grown.set i ⟨some key, val, dictionaryHash key⟩⟩
      | none => none

/-- `dictionary_unset`. -/
def dictionaryUnset (d : Dictionary) (key : Str) : Dictionary :=
  match d.slots.findIdx? (Slot.Hit key) with
  | some i => ⟨d.n - 1, d.slots.set i Slot.free⟩
  | none => d

/-! ## The map it stands for -/

end Dictionary

/-- A slot without its hash. -/
def Slot.entry (s : Slot) : Option (Str × Option Str) := s.key.map fun k => (k, s.val)

theorem Slot.entry_eq_some {s : Slot} {k : Str} {v : Option Str} :
    s.entry = some (k, v) ↔ s.key = some k ∧ s.val = v := by
  rw [Slot.entry, Option.map_eq_some_iff]
  constructor
  · rintro ⟨k, hk, ⟨⟩⟩
    exact ⟨hk, rfl⟩
  · rintro ⟨hk, rfl⟩
    exact ⟨k, hk, rfl⟩

/-- A slot with the right hash has the key it is asked for, or has not. -/
theorem Slot.hit_iff {s : Slot} {key : Str}
    (hash : ∀ k, s.key = some k → s.hash = dictionaryHash k) :
    s.Hit key ↔ s.key = some key := by
  rw [Slot.Hit, Bool.and_eq_true, Bool.and_eq_true, beq_iff_eq, beq_iff_eq]
  constructor
  · rintro ⟨-, -, hkey⟩
    exact hkey
  · intro hkey
    exact ⟨by rw [hkey]; rfl, (hash key hkey).symm, hkey⟩

namespace Dictionary

/-- The keys and values of the slots. -/
def table (d : Dictionary) : Table Str (Option Str) := d.slots.map Slot.entry

/-- The dictionary stands for a map: its slots do, with the right hashes, and `n` counts
them. -/
structure Stands (d : Dictionary) (m : Str → Option (Option Str)) : Prop where
  represents : Represents d.table m
  counted : d.n = used d.table
  hashed : ∀ s ∈ d.slots, ∀ k, s.key = some k → s.hash = dictionaryHash k
  nonempty : 0 < d.slots.length

theorem getElem?_table {d : Dictionary} {i : ℕ} {s : Slot} (h : d.slots[i]? = some s) :
    d.table[i]? = some s.entry := by
  rw [table, List.getElem?_map, h, Option.map_some]

variable {d : Dictionary} {m : Str → Option (Option Str)}

/-- Where the loops over the slots stop, the slot has the key. -/
theorem Stands.of_findIdx (h : d.Stands m) {key : Str} {i : ℕ}
    (hi : d.slots.findIdx? (Slot.Hit key) = some i) :
    ∃ s, d.slots[i]? = some s ∧ s.key = some key ∧ d.table[i]? = some (some (key, s.val)) := by
  obtain ⟨hlt, hhit, -⟩ := List.findIdx?_eq_some_iff_getElem.mp hi
  have hget : d.slots[i]? = some d.slots[i] := List.getElem?_eq_getElem hlt
  have hkey := (Slot.hit_iff (h.hashed _ (List.getElem_mem hlt))).mp hhit
  refine ⟨d.slots[i], hget, hkey, ?_⟩
  rw [getElem?_table hget, Slot.entry_eq_some.mpr ⟨hkey, rfl⟩]

/-- Where they do not stop, the map does not have it. -/
theorem Stands.of_no_hit (h : d.Stands m) {key : Str}
    (hno : ∀ s ∈ d.slots, Slot.Hit key s = false) : m key = none := by
  apply h.represents.eq_none
  intro j v hj
  rw [table, List.getElem?_map, Option.map_eq_some_iff] at hj
  obtain ⟨s, hs, hentry⟩ := hj
  have hmem := List.mem_of_getElem? hs
  have hhit := (Slot.hit_iff (h.hashed s hmem)).mpr (Slot.entry_eq_some.mp hentry).1
  rw [hno s hmem] at hhit
  cases hhit

/-- **`dictionary_get` answers as the map.** -/
theorem Stands.get (h : d.Stands m) (key : Str) : d.dictionaryGet key = m key := by
  rw [dictionaryGet]
  cases hfind : d.slots.find? (Slot.Hit key) with
  | none =>
      rw [List.find?_eq_none] at hfind
      rw [h.of_no_hit fun s hs => Bool.eq_false_iff.mpr (hfind s hs), Option.map_none]
  | some s =>
      have hmem := List.mem_of_find?_eq_some hfind
      have hkey := (Slot.hit_iff (h.hashed s hmem)).mp (List.find?_some hfind)
      obtain ⟨i, hi⟩ := List.mem_iff_getElem?.mp hmem
      rw [Option.map_some, eq_comm, h.represents.holds]
      exact ⟨i, by rw [getElem?_table hi, Slot.entry_eq_some.mpr ⟨hkey, rfl⟩]⟩

/-- A slot with the right hash is written. -/
theorem Stands.set_slot {slots : List Slot}
    (hashed : ∀ s ∈ slots, ∀ k, s.key = some k → s.hash = dictionaryHash k) {i : ℕ} {s : Slot}
    (hs : ∀ k, s.key = some k → s.hash = dictionaryHash k) :
    ∀ u ∈ slots.set i s, ∀ k, u.key = some k → u.hash = dictionaryHash k := by
  intro u hu
  rcases List.mem_or_eq_of_mem_set hu with hu | rfl
  · exact hashed u hu
  · exact hs

/-- `dictionary_set` of a key that is there. -/
theorem Stands.overwrite (h : d.Stands m) {key : Str} {val : Option Str} {i : ℕ}
    (hi : d.slots.findIdx? (Slot.Hit key) = some i) :
    ({ d with slots := d.slots.modify i fun s => { s with val := val } } : Dictionary).Stands
      (Function.update m key (some val)) := by
  obtain ⟨s, hs, hkey, htable⟩ := h.of_findIdx hi
  have hmodify : (d.slots.modify i fun s => { s with val := val })
      = d.slots.set i { s with val := val } := by
    apply List.ext_getElem?
    intro j
    rw [List.getElem?_modify, List.getElem?_set]
    by_cases hij : i = j
    · subst hij
      rw [hs, if_pos rfl, if_pos (List.getElem?_eq_some_iff.mp hs).1]
      simp
    · simp [hij]
  have hset : (d.slots.set i { s with val := val }).map Slot.entry
      = d.table.set i (some (key, val)) := by
    rw [List.map_set, table]
    congr 1
    exact Slot.entry_eq_some.mpr ⟨hkey, rfl⟩
  rw [hmodify]
  refine ⟨?_, ?_, ?_, ?_⟩
  · rw [table, hset]
    exact h.represents.replace htable val
  · have hused := used_set htable (some (key, val))
    rw [table, hset, h.counted]
    simp only [Option.isSome_some, if_true] at hused
    omega
  · exact Stands.set_slot h.hashed (h.hashed s (List.mem_of_getElem? hs))
  · rw [List.length_set]
    exact h.nonempty

/-- Growing changes nothing but the room. -/
theorem Stands.grow (h : d.Stands m) : ({ d with slots := d.grown } : Dictionary).Stands m := by
  rw [grown]
  split_ifs with hfull
  · have hmap : (d.slots ++ List.replicate d.slots.length Slot.free).map Slot.entry
        = d.table ++ List.replicate d.slots.length none := by
      rw [List.map_append, List.map_replicate, table]
      rfl
    refine ⟨?_, ?_, ?_, ?_⟩
    · rw [table, hmap]
      exact h.represents.grow _
    · rw [table, hmap, used_grow]
      exact h.counted
    · intro s hs k hk
      rcases List.mem_append.mp hs with hs | hs
      · exact h.hashed s hs k hk
      · rw [List.eq_of_mem_replicate hs] at hk
        cases hk
    · rw [List.length_append]
      exact Nat.add_pos_left h.nonempty _
  · exact h

/-- Behind it there is room. -/
theorem Stands.room (h : d.Stands m) : d.n < d.grown.length := by
  have hle : d.n ≤ d.slots.length := by
    have hlen : (d.slots.map Slot.entry).length = d.slots.length := List.length_map _
    rw [h.counted, ← hlen]
    exact used_le_length _
  have hpos := h.nonempty
  rw [grown]
  split_ifs with hfull
  · rw [List.length_append, List.length_replicate]
    omega
  · omega

/-- `dictionary_set` of a new key. -/
theorem Stands.insert (h : d.Stands m) {key : Str} (hnew : m key = none) (val : Option Str) :
    ∃ i, d.grown.findIdx? (fun s => s.key.isNone) = some i ∧
      (⟨d.n + 1, d.grown.set i ⟨some key, val, dictionaryHash key⟩⟩ : Dictionary).Stands
        (Function.update m key (some val)) := by
  have hg := h.grow
  have hfree : ∃ i, d.grown.findIdx? (fun s => s.key.isNone) = some i := by
    obtain ⟨i, hi⟩ := exists_empty (t := d.grown.map Slot.entry) (by
      rw [← show d.n = used (d.grown.map Slot.entry) from hg.counted, List.length_map]
      exact h.room)
    rw [List.getElem?_map, Option.map_eq_some_iff] at hi
    obtain ⟨s, hs, hentry⟩ := hi
    rw [← Option.isSome_iff_exists, List.findIdx?_isSome, List.any_eq_true]
    refine ⟨s, List.mem_of_getElem? hs, ?_⟩
    rw [Slot.entry, Option.map_eq_none_iff] at hentry
    rw [hentry]
    rfl
  obtain ⟨i, hi⟩ := hfree
  obtain ⟨hlt, hkey, -⟩ := List.findIdx?_eq_some_iff_getElem.mp hi
  have hempty : (d.grown.map Slot.entry)[i]? = some none := by
    rw [List.getElem?_map, List.getElem?_eq_getElem hlt, Option.map_some, Slot.entry,
      Option.isNone_iff_eq_none.mp hkey, Option.map_none]
  have hset : (d.grown.set i ⟨some key, val, dictionaryHash key⟩).map Slot.entry
      = (d.grown.map Slot.entry).set i (some (key, val)) := by
    rw [List.map_set]
    rfl
  refine ⟨i, hi, ?_, ?_, ?_, ?_⟩
  · rw [table, hset]
    exact hg.represents.fill hempty hnew val
  · have hused := used_set hempty (some (key, val))
    have hcounted : d.n = used (d.grown.map Slot.entry) := hg.counted
    rw [table, hset, hcounted]
    simp only [Option.isSome_some, Option.isSome_none, if_true] at hused
    simp at hused
    exact hused.symm
  · refine Stands.set_slot hg.hashed ?_
    rintro k ⟨⟩
    rfl
  · rw [List.length_set]
    exact hg.nonempty

/-- **`dictionary_set` sets the key**, and finds a free slot for a new one. -/
theorem Stands.set (h : d.Stands m) (key : Str) (val : Option Str) :
    ∃ d', d.dictionarySet key val = some d' ∧ d'.Stands (Function.update m key (some val)) := by
  rw [dictionarySet]
  cases hfind : d.slots.findIdx? (Slot.Hit key) with
  | some i =>
      have hpos : 0 < d.n := by
        obtain ⟨s, -, -, htable⟩ := h.of_findIdx hfind
        rw [h.counted, used, List.countP_pos_iff]
        exact ⟨_, List.mem_of_getElem? htable, rfl⟩
      rw [if_pos hpos]
      exact ⟨_, rfl, h.overwrite hfind⟩
  | none =>
      have hnew : m key = none := by
        apply h.of_no_hit
        exact List.findIdx?_eq_none_iff.mp hfind
      obtain ⟨i, hi, hstands⟩ := h.insert hnew val
      rw [ite_self]
      simp only [hi]
      exact ⟨_, rfl, hstands⟩

/-- **`dictionary_unset` removes the key.** -/
theorem Stands.unset (h : d.Stands m) (key : Str) :
    (d.dictionaryUnset key).Stands (Function.update m key none) := by
  rw [dictionaryUnset]
  cases hfind : d.slots.findIdx? (Slot.Hit key) with
  | none =>
      have hnone : m key = none := by
        apply h.of_no_hit
        exact List.findIdx?_eq_none_iff.mp hfind
      rw [show Function.update m key none = m by
        rw [← hnone]
        exact Function.update_eq_self key m]
      exact h
  | some i =>
      obtain ⟨s, hs, -, htable⟩ := h.of_findIdx hfind
      have hset : (d.slots.set i Slot.free).map Slot.entry = d.table.set i none := by
        rw [List.map_set, table]
        rfl
      refine ⟨?_, ?_, ?_, ?_⟩
      · rw [table, hset]
        exact h.represents.clear htable
      · have hused := used_set htable none
        show d.n - 1 = used ((d.slots.set i Slot.free).map Slot.entry)
        rw [hset, h.counted]
        simp at hused
        omega
      · exact Stands.set_slot h.hashed fun k hk => by cases hk
      · rw [List.length_set]
        exact h.nonempty

/-- A new dictionary is empty. -/
theorem dictionaryNew_stands (size : ℕ) : (dictionaryNew size).Stands fun _ => none := by
  have hmap : (dictionaryNew size).table
      = List.replicate (if size < dictMinSz then dictMinSz else size) none := by
    rw [table, dictionaryNew, List.map_replicate]
    rfl
  refine ⟨?_, ?_, ?_, ?_⟩
  · rw [hmap]
    exact represents_empty _
  · rw [hmap, used_empty]
    rfl
  · intro s hs k hk
    rw [List.eq_of_mem_replicate hs] at hk
    cases hk
  · rw [dictionaryNew, List.length_replicate, dictMinSz]
    split_ifs <;> omega

/-! ## Runs of calls -/

/-- A call that changes a dictionary. -/
inductive Call where
  | set (key : Str) (val : Option Str)
  | unset (key : Str)

/-- What the code does. -/
def call (d : Dictionary) : Call → Option Dictionary
  | .set key val => d.dictionarySet key val
  | .unset key => some (d.dictionaryUnset key)

/-- What the call means. -/
def Call.apply (m : Str → Option (Option Str)) : Call → Str → Option (Option Str)
  | .set key val => Function.update m key (some val)
  | .unset key => Function.update m key none

/-- One call. -/
theorem Stands.call (h : d.Stands m) (c : Call) :
    ∃ d', d.call c = some d' ∧ d'.Stands (c.apply m) := by
  cases c with
  | set key val => exact h.set key val
  | unset key => exact ⟨_, rfl, h.unset key⟩

/-- The calls one after another. -/
theorem Stands.calls (h : d.Stands m) (cs : List Call) :
    ∃ d', cs.foldlM Dictionary.call d = some d' ∧ d'.Stands (cs.foldl Call.apply m) := by
  induction cs generalizing d m with
  | nil => exact ⟨d, rfl, h⟩
  | cons c cs ih =>
      obtain ⟨d₁, hd₁, h₁⟩ := h.call c
      obtain ⟨d₂, hd₂, h₂⟩ := ih h₁
      refine ⟨d₂, ?_, h₂⟩
      rw [List.foldlM_cons, hd₁]
      exact hd₂

/-- **The dictionary is the map that its calls describe.**  Whatever is set and unset after
`dictionary_new`, no call writes behind the arrays, `dictionary_get` answers every key as
the map does, and `n` is the number of keys in the dictionary. -/
theorem dictionary_refines (size : ℕ) (cs : List Call) :
    ∃ d, cs.foldlM Dictionary.call (dictionaryNew size) = some d ∧
      (∀ key, d.dictionaryGet key = cs.foldl Call.apply (fun _ => none) key) ∧
      ∃ keys : List Str, keys.Nodup ∧ keys.length = d.n ∧
        ∀ key, key ∈ keys ↔ (cs.foldl Call.apply (fun _ => none) key).isSome := by
  obtain ⟨d, hd, h⟩ := (dictionaryNew_stands size).calls cs
  refine ⟨d, hd, h.get, keys d.table, keys_nodup h.represents, ?_, mem_keys h.represents⟩
  rw [length_keys, h.counted]

end Dictionary

end Zevent.Ini

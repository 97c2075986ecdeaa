/-
# Tables kept in an array of slots

An array whose slots are empty or hold a key with its value stands for a finite map, as
long as no two slots hold one key.

* `Represents t m`: the table `t` has every key once and stands for the map `m`.
* `Represents.replace`, `Represents.fill`, `Represents.clear`, `Represents.grow`: a value
  written over another one, a key put into an empty slot, a slot emptied, and empty slots
  added behind the others, each with the map that the new table stands for.
* `used t` counts the slots that hold a key, with `used_set` for a write; `exists_empty`
  finds an empty slot when not all are used.
* `keys t` are the keys in the order of their slots.
-/
import Mathlib.Tactic

namespace SlotTable

variable {κ ν : Type*}

/-- The slots, in their order. -/
abbrev Table (κ ν : Type*) := List (Option (κ × ν))

/-- No two slots hold one key, and the slots hold what the map says. -/
structure Represents (t : Table κ ν) (m : κ → Option ν) : Prop where
  distinct : ∀ (i j : ℕ) k v w, t[i]? = some (some (k, v)) → t[j]? = some (some (k, w)) → i = j
  holds : ∀ k v, m k = some v ↔ ∃ i : ℕ, t[i]? = some (some (k, v))

/-- The number of slots that hold a key. -/
def used (t : Table κ ν) : ℕ := t.countP Option.isSome

/-- An array of empty slots stands for the empty map. -/
theorem represents_empty (n : ℕ) :
    Represents (List.replicate n none : Table κ ν) fun _ => none where
  distinct i j k v w hi := by
    rw [List.getElem?_replicate] at hi
    split at hi <;> simp at hi
  holds k v := by
    simp [List.getElem?_replicate]

theorem used_empty (n : ℕ) : used (List.replicate n none : Table κ ν) = 0 := by
  simp [used, List.countP_replicate]

/-- A table has no more entries than slots. -/
theorem used_le_length (t : Table κ ν) : used t ≤ t.length := List.countP_le_length

/-- A table that is not full has an empty slot. -/
theorem exists_empty {t : Table κ ν} (h : used t < t.length) :
    ∃ i : ℕ, t[i]? = some none := by
  by_contra hno
  apply h.ne
  rw [used, List.countP_eq_length]
  intro s hs
  obtain ⟨i, hi⟩ := List.mem_iff_getElem?.mp hs
  cases s with
  | none => exact absurd ⟨i, hi⟩ hno
  | some e => rfl

/-- What a slot holds after one of the slots is written. -/
theorem getElem?_set_iff {t : Table κ ν} {i : ℕ} {u : Option (κ × ν)} (hi : t[i]? = some u)
    (s : Option (κ × ν)) (a : ℕ) (k : κ) (v : ν) :
    (t.set i s)[a]? = some (some (k, v))
      ↔ (a = i ∧ s = some (k, v)) ∨ (a ≠ i ∧ t[a]? = some (some (k, v))) := by
  have hlt := (List.getElem?_eq_some_iff.mp hi).1
  by_cases ha : a = i
  · rw [ha, List.getElem?_set_self hlt, Option.some.injEq]
    simp
  · rw [List.getElem?_set_ne (Ne.symm ha)]
    simp [ha]

/-- What a slot held counts no longer, what is written into it does. -/
theorem used_set {t : Table κ ν} {i : ℕ} {u : Option (κ × ν)} (hi : t[i]? = some u)
    (s : Option (κ × ν)) :
    used (t.set i s) + (if u.isSome then 1 else 0)
      = used t + (if s.isSome then 1 else 0) := by
  obtain ⟨hlt, rfl⟩ := List.getElem?_eq_some_iff.mp hi
  have hle : (if t[i].isSome then 1 else 0) ≤ used t := by
    split_ifs with hsome
    · exact List.countP_pos_iff.mpr ⟨t[i], List.getElem_mem hlt, hsome⟩
    · exact Nat.zero_le _
  rw [used, List.countP_set hlt]
  rw [used] at hle ⊢
  omega

section Update

variable {t : Table κ ν} {m : κ → Option ν} {i : ℕ}

/-- A map sends a key that no slot holds to nothing. -/
theorem Represents.eq_none {k : κ} (h : Represents t m)
    (hk : ∀ (j : ℕ) v, t[j]? ≠ some (some (k, v))) : m k = none := by
  rw [Option.eq_none_iff_forall_ne_some]
  intro v hv
  obtain ⟨j, hj⟩ := (h.holds k v).mp hv
  exact hk j v hj

/-- A slot is written with a key that is in no other slot, or with none; the key it held
before, if any, is gone unless it is the same. -/
theorem Represents.set (h : Represents t m) {u s : Option (κ × ν)} (hi : t[i]? = some u)
    {m' : κ → Option ν}
    (hnew : ∀ k v, s = some (k, v) →
      m' k = some v ∧ ∀ (a : ℕ) w, t[a]? = some (some (k, w)) → a = i)
    (hrest : ∀ k, (∀ v, s ≠ some (k, v)) →
      ∀ v, m' k = some v ↔ m k = some v ∧ ∀ w, u ≠ some (k, w)) :
    Represents (t.set i s) m' where
  distinct a b k v w ha hb := by
    rw [getElem?_set_iff hi] at ha hb
    rcases ha with ⟨rfl, ha⟩ | ⟨ha', ha⟩ <;> rcases hb with ⟨rfl, hb⟩ | ⟨hb', hb⟩
    · rfl
    · exact absurd ((hnew k v ha).2 b w hb) hb'
    · exact absurd ((hnew k w hb).2 a v ha) ha'
    · exact h.distinct a b k v w ha hb
  holds k v := by
    simp only [getElem?_set_iff hi]
    by_cases hs : ∃ w, s = some (k, w)
    · obtain ⟨w, rfl⟩ := hs
      obtain ⟨hm, honly⟩ := hnew k w rfl
      rw [hm]
      constructor
      · intro hv
        rw [Option.some.inj hv]
        exact ⟨i, .inl ⟨rfl, rfl⟩⟩
      · rintro ⟨a, ⟨-, ha⟩ | ⟨ha', ha⟩⟩
        · rw [(Prod.mk.inj (Option.some.inj ha)).2]
        · exact absurd (honly a v ha) ha'
    · rw [hrest k (fun w hw => hs ⟨w, hw⟩) v, h.holds]
      constructor
      · rintro ⟨⟨a, ha⟩, hu⟩
        refine ⟨a, .inr ⟨?_, ha⟩⟩
        rintro rfl
        rw [hi, Option.some.injEq] at ha
        exact hu v ha
      · rintro ⟨a, ⟨-, ha⟩ | ⟨ha', ha⟩⟩
        · exact absurd ⟨v, ha⟩ hs
        · refine ⟨⟨a, ha⟩, ?_⟩
          rintro w rfl
          exact ha' (h.distinct a i k v w ha hi)

variable [DecidableEq κ]

/-- Another value for a key that a slot holds. -/
theorem Represents.replace (h : Represents t m) {k : κ} {v : ν}
    (hi : t[i]? = some (some (k, v))) (w : ν) :
    Represents (t.set i (some (k, w))) (Function.update m k (some w)) := by
  refine h.set hi ?_ ?_
  · rintro x y ⟨⟩
    exact ⟨Function.update_self .., fun a z ha => h.distinct a i _ z v ha hi⟩
  · intro x hx y
    have hne : x ≠ k := by
      rintro rfl
      exact hx w rfl
    rw [Function.update_of_ne hne]
    simp [Ne.symm hne]

/-- A key that no slot holds goes into an empty one. -/
theorem Represents.fill (h : Represents t m) (hi : t[i]? = some none) {k : κ}
    (hk : m k = none) (w : ν) :
    Represents (t.set i (some (k, w))) (Function.update m k (some w)) := by
  refine h.set hi ?_ ?_
  · rintro x y ⟨⟩
    refine ⟨Function.update_self .., fun a z ha => ?_⟩
    rw [(h.holds _ z).mpr ⟨a, ha⟩] at hk
    cases hk
  · intro x hx y
    have hne : x ≠ k := by
      rintro rfl
      exact hx w rfl
    rw [Function.update_of_ne hne]
    simp

/-- A slot is emptied. -/
theorem Represents.clear (h : Represents t m) {k : κ} {v : ν}
    (hi : t[i]? = some (some (k, v))) :
    Represents (t.set i none) (Function.update m k none) := by
  refine h.set hi (fun x y hx => by cases hx) ?_
  intro x _ y
  by_cases hne : x = k
  · rw [hne, Function.update_self]
    simp
  · rw [Function.update_of_ne hne]
    simp [Ne.symm hne]

end Update

/-- Empty slots behind the others change nothing. -/
theorem Represents.grow {t : Table κ ν} {m : κ → Option ν} (h : Represents t m) (n : ℕ) :
    Represents (t ++ List.replicate n none) m := by
  have hget : ∀ (i : ℕ) k v, (t ++ List.replicate n none)[i]? = some (some (k, v))
      ↔ t[i]? = some (some (k, v)) := by
    intro i k v
    rw [List.getElem?_append]
    split_ifs with hlt
    · rfl
    · rw [List.getElem?_eq_none (not_lt.mp hlt), List.getElem?_replicate]
      split_ifs <;> simp
  constructor
  · intro i j k v w hi hj
    exact h.distinct i j k v w ((hget i k v).mp hi) ((hget j k w).mp hj)
  · intro k v
    simp only [h.holds, hget]

/-- The keys, in the order of their slots. -/
def keys (t : Table κ ν) : List κ := t.filterMap fun s => s.map Prod.fst

/-- The keys of a table are those of the map it stands for. -/
theorem mem_keys {t : Table κ ν} {m : κ → Option ν} (h : Represents t m) (k : κ) :
    k ∈ keys t ↔ (m k).isSome := by
  rw [keys, List.mem_filterMap, Option.isSome_iff_exists]
  constructor
  · rintro ⟨s, hs, hk⟩
    obtain ⟨⟨k, v⟩, rfl, rfl⟩ := Option.map_eq_some_iff.mp hk
    exact ⟨v, (h.holds k v).mpr (List.mem_iff_getElem?.mp hs)⟩
  · rintro ⟨v, hv⟩
    obtain ⟨i, hi⟩ := (h.holds k v).mp hv
    exact ⟨some (k, v), List.mem_of_getElem? hi, rfl⟩

/-- No key is in a table twice. -/
theorem keys_nodup {t : Table κ ν} {m : κ → Option ν} (h : Represents t m) :
    (keys t).Nodup := by
  rw [keys, List.Nodup, List.pairwise_filterMap, List.pairwise_iff_getElem]
  intro i j hi hj hij k hk l hl hkl
  obtain ⟨⟨k, v⟩, hi', rfl⟩ := Option.map_eq_some_iff.mp hk
  obtain ⟨⟨l, w⟩, hj', rfl⟩ := Option.map_eq_some_iff.mp hl
  have hkl : k = l := hkl
  subst hkl
  have hget := h.distinct i j k v w (by rw [List.getElem?_eq_getElem hi, hi'])
    (by rw [List.getElem?_eq_getElem hj, hj'])
  omega

/-- There are as many keys as used slots. -/
theorem length_keys (t : Table κ ν) : (keys t).length = used t := by
  rw [keys, List.length_filterMap_eq_countP, used]
  congr 1
  funext s
  rw [Option.isSome_map]

theorem used_grow (t : Table κ ν) (n : ℕ) : used (t ++ List.replicate n none) = used t := by
  rw [used, List.countP_append, List.countP_replicate]
  simp [used]

end SlotTable

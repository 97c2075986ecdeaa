/-
# Tables with encoded keys

A table is a function to `Option V`.  A program that wants to find things by `ι`, but whose tables
have keys of another kind `κ`, writes each key by an encoding `enc : ι → κ`.  `table enc t` is the
table that it keeps instead of `t`: the entry of `i` is at `enc i`, and there is nothing at a key
that encodes nothing.

With an injective encoding the table behaves as the one that it stands for: it is read
(`table_apply`), updated (`update_table`, `table_ite`), and gone through (`map_table`,
`exists_key_iff`) as that one.
-/
import Mathlib.Tactic
import Mathlib.Logic.Function.Basic

namespace Encoded

variable {ι κ V : Type*} {enc : ι → κ} {t : ι → Option V}

/-- An entry behind an update was there before, or is the new one. -/
theorem update_eq_some [DecidableEq ι] {i j : ι} {v : Option V} {w : V}
    (h : Function.update t i v j = some w) : t j = some w ∨ j = i ∧ v = some w := by
  rw [Function.update_apply] at h
  split_ifs at h with hj
  · exact Or.inr ⟨hj, h⟩
  · exact Or.inl h

/-- The table with the entry of `i` at the key `enc i`. -/
noncomputable def table (enc : ι → κ) (t : ι → Option V) : κ → Option V :=
  Function.extend enc t fun _ => none

/-- The table has what was put under the code of an index. -/
theorem table_apply (henc : Function.Injective enc) (t : ι → Option V) (i : ι) :
    table enc t (enc i) = t i :=
  henc.extend_apply _ _ _

/-- Under a key that is no code the table has nothing. -/
theorem table_of_ne (t : ι → Option V) {k : κ} (hk : ∀ i, enc i ≠ k) : table enc t k = none :=
  Function.extend_apply' _ _ _ fun ⟨i, hi⟩ => hk i hi

/-- What is true of the keys of the encoding and of the others is true of all. -/
theorem forall_key (enc : ι → κ) {p : κ → Prop} (hkey : ∀ i, p (enc i))
    (hother : ∀ k, (∀ i, enc i ≠ k) → p k) (k : κ) : p k := by
  by_cases hk : ∃ i, enc i = k
  · obtain ⟨i, rfl⟩ := hk
    exact hkey i
  · push Not at hk
    exact hother k hk

/-- The empty table. -/
theorem table_none : table enc (fun _ => none : ι → Option V) = fun _ => none := by
  funext k
  unfold table Function.extend
  split <;> rfl

/-- **An update at an encoded key** is one of the table behind. -/
theorem update_table [DecidableEq ι] [DecidableEq κ] (henc : Function.Injective enc)
    (t : ι → Option V) (i : ι) (v : Option V) :
    Function.update (table enc t) (enc i) v = table enc (Function.update t i v) := by
  funext k
  induction k using forall_key enc with
  | hkey j =>
      rw [table_apply henc, Function.update_apply, Function.update_apply, table_apply henc]
      simp only [henc.eq_iff]
  | hother k hk => rw [table_of_ne _ hk, Function.update_of_ne (hk i).symm, table_of_ne _ hk]

/-- One value for many keys. -/
theorem table_ite (henc : Function.Injective enc) (P : ι → Prop) [DecidablePred P] {Q : κ → Prop}
    [DecidablePred Q] (hQ : ∀ k, Q k ↔ ∃ i, P i ∧ enc i = k) (v : Option V) :
    table enc (fun i => if P i then v else t i) = fun k => if Q k then v else table enc t k := by
  funext k
  induction k using forall_key enc with
  | hkey i =>
      have hiff : Q (enc i) ↔ P i := by
        rw [hQ]
        exact ⟨fun ⟨j, hj, heq⟩ => henc heq ▸ hj, fun hi => ⟨i, hi, rfl⟩⟩
      rw [table_apply henc, table_apply henc]
      simp only [hiff]
  | hother k hk =>
      rw [table_of_ne _ hk, table_of_ne _ hk, if_neg]
      rw [hQ]
      rintro ⟨i, -, hi⟩
      exact hk i hi

/-- A pass over all entries that adds none. -/
theorem map_table {W : Type*} (henc : Function.Injective enc) (f : Option V → Option W)
    (hf : f none = none) :
    (fun k => f (table enc t k)) = table enc fun i => f (t i) := by
  funext k
  induction k using forall_key enc with
  | hkey i => rw [table_apply henc, table_apply henc]
  | hother k hk => rw [table_of_ne _ hk, table_of_ne _ hk, hf]

/-- The keys of the entries of a kind, decoded. -/
theorem exists_key_iff {dec : κ → ι} (hdec : Function.LeftInverse dec enc) {p : Option V → Prop}
    (hp : ¬ p none) (i : ι) : (∃ k, p (table enc t k) ∧ dec k = i) ↔ p (t i) := by
  constructor
  · rintro ⟨k, hk, rfl⟩
    induction k using forall_key enc with
    | hkey j => rwa [table_apply hdec.injective, ← hdec j] at hk
    | hother k hne =>
        rw [table_of_ne t hne] at hk
        exact absurd hk hp
  · intro hi
    exact ⟨enc i, by rwa [table_apply hdec.injective], hdec i⟩

end Encoded

/-
# A vector of the peers (`_htbl_fillv`, `_htbl_tov` of `hashtable.c`)

`_htbl_fillv` writes the objects of a table into a vector, in the order of the array.  It counts
the objects alone, and looks for the next bucket without looking where the array ends.
`_htbl_tov` allocates the vector, and room in it for one object.

* `Rep.fillvLoop`: the loop writes what is ahead of it, as far as there is room.
* `Run.htblVector_iff`: when the vector that `_htbl_tov` allocates holds the objects.
-/
import Mathlib.Tactic
import Zevent.Znet.Htbl

namespace Zevent.Znet

namespace Htbl

section

variable {A K : Type}

/-- The loop of `_htbl_fillv`, with the objects that are left to write, in a vector with `room`
for objects; the slots up to `v` are written. -/
def fillvLoop (t : Htbl A K) (room : ℕ) : ℕ → ℕ → Option A → List A → Option (List A)
  | 0, _, _, v => some v
  | left + 1, bi, some o, v =>
      if v.length < room then fillvLoop t room left bi (t.chain o) (v ++ [o]) else none
  | left + 1, bi, none, v =>
      match scan (t.buckets.drop (bi + 1)) (bi + 1) with
      | none => none
      | some (bi, o) =>
          if v.length < room then fillvLoop t room left bi (t.chain o) (v ++ [o]) else none

/-- `_htbl_fillv`; an access outside of the array or of the vector is `none`. -/
def htblFillv (room : ℕ) (t : Htbl A K) : Option (List A) :=
  match t.buckets[0]? with
  | none => none
  | some head => fillvLoop t room t.size 0 head []

/-- `_htbl_tov`: `malloc(sizeof(*v))`. -/
def htblTov (t : Htbl A K) : Option (List A) := htblFillv 1 t

end

variable {A K : Type} {hash : K → UInt64} {t : Htbl A K} {P : Finset A} {B : ℕ → List A}

/-- **The loop writes what is ahead of it**, if there is room. -/
theorem Rep.fillvLoop (h : Rep hash t P B) (room : ℕ) {left bi : ℕ} {o : Option A}
    {rest v : List A} (hchain : Chain t.chain o rest)
    (hleft : (rest ++ nodesFrom B t.buckcnt (bi + 1)).length = left) (hv : v.length ≤ room) :
    Htbl.fillvLoop t room left bi o v
      = if v.length + left ≤ room then some (v ++ (rest ++ nodesFrom B t.buckcnt (bi + 1)))
        else none := by
  induction left generalizing bi o rest v with
  | zero =>
      rw [List.length_eq_zero_iff.mp hleft, List.append_nil, Nat.add_zero, if_pos hv]
      rfl
  | succ left ih =>
      -- one object, with what is ahead of it
      have hobject : ∀ bi a tail, Chain t.chain (t.chain a) tail →
          (tail ++ nodesFrom B t.buckcnt (bi + 1)).length = left →
          (if v.length < room then Htbl.fillvLoop t room left bi (t.chain a) (v ++ [a]) else none)
            = if v.length + (left + 1) ≤ room then
                some (v ++ (a :: (tail ++ nodesFrom B t.buckcnt (bi + 1))))
              else none := by
        intro bi a tail htail hlen
        by_cases hroom : v.length < room
        · have hv' : (v ++ [a]).length = v.length + 1 := by
            rw [List.length_append, List.length_singleton]
          rw [if_pos hroom, ih htail hlen (by omega), hv', Nat.add_right_comm, Nat.add_assoc,
            List.append_assoc, List.singleton_append]
        · rw [if_neg hroom, if_neg (by omega)]
      cases rest with
      | cons a tail =>
          obtain ⟨rfl, htail⟩ := hchain
          rw [List.cons_append, List.length_cons, Nat.add_right_cancel_iff] at hleft
          rw [Htbl.fillvLoop, hobject bi a tail htail hleft, List.cons_append]
      | nil =>
          rw [Chain.nil_iff] at hchain
          subst hchain
          rw [List.nil_append] at hleft ⊢
          obtain ⟨a, R, hR⟩ := List.exists_cons_of_length_eq_add_one hleft
          obtain ⟨i, tail, hscan, hi, hB, rfl⟩ := h.scan rfl hR
          -- the chain of the next bucket begins with the object that the scan found
          obtain ⟨head, -, hhead⟩ := h.chain_at hi
          rw [hB] at hhead
          rw [hR, List.length_cons, Nat.add_right_cancel_iff] at hleft
          rw [Htbl.fillvLoop, hscan]
          dsimp only
          rw [hobject i a tail hhead.2 hleft, hR]

/-- `_htbl_fillv` writes the objects, in the order of the array. -/
theorem Rep.htblFillv (h : Rep hash t P B) (room : ℕ) :
    Htbl.htblFillv room t
      = if t.size ≤ room then some (nodesFrom B t.buckcnt 0) else none := by
  obtain ⟨-, -, hlen⟩ := h.traversal
  obtain ⟨head, hhead, hchain⟩ := h.chain_at h.pos
  have hnodes : B 0 ++ nodesFrom B t.buckcnt 1 = nodesFrom B t.buckcnt 0 :=
    (nodesFrom_of_lt h.pos).symm
  rw [Htbl.htblFillv, hhead]
  dsimp only
  rw [@Rep.fillvLoop A K hash t P B h room t.size 0 head (B 0) [] hchain
      (by rw [Nat.zero_add, hnodes, hlen]) (Nat.zero_le room),
    Nat.zero_add, hnodes, List.nil_append, List.length_nil, Nat.zero_add]

/-- `_htbl_fillv` writes each object once, into as many slots as there are objects, and the vector
of `_htbl_tov` has room for them. -/
def VectorHolds (t : Htbl A K) (P : Finset A) : Prop :=
  (∀ room, t.size ≤ room → ∃ v, Htbl.htblFillv room t = some v ∧ v.length = t.size ∧ v.Nodup ∧
    ∀ o, o ∈ v ↔ o ∈ P) ∧
  ∃ v, htblTov t = some v ∧ v.length = t.size ∧ v.Nodup ∧ ∀ o, o ∈ v ↔ o ∈ P

/-- **When the vector holds the objects**: the table has at most one. -/
theorem Run.htblVector_iff [DecidableEq A] [DecidableEq K] (h : Run hash t P) :
    VectorHolds t P ↔ t.size ≤ 1 := by
  obtain ⟨B, hrep⟩ := h.rep
  obtain ⟨hmem, hnodup, hlen⟩ := hrep.traversal
  constructor
  · rintro ⟨-, v, hv, -⟩
    rw [htblTov, hrep.htblFillv] at hv
    by_contra hlarge
    rw [if_neg hlarge] at hv
    cases hv
  · intro hsmall
    refine ⟨fun room hroom => ⟨nodesFrom B t.buckcnt 0, ?_, hlen, hnodup, hmem⟩,
      nodesFrom B t.buckcnt 0, ?_, hlen, hnodup, hmem⟩
    · rw [hrep.htblFillv, if_pos hroom]
    · rw [htblTov, hrep.htblFillv, if_pos hsmall]

/-- One object. -/
theorem htblVector_one :
    ∃ t : Htbl ℕ ℕ, htblInsert (fun _ => 0) (htblCreate id fun _ => none) 5 false true = some t ∧
      VectorHolds t (insert 5 ∅) := by
  have h₀ : Run (fun _ => 0) (htblCreate (id : ℕ → ℕ) fun _ => none) ∅ := .create _ _
  have hnew : ∀ o' ∈ (∅ : Finset ℕ), id o' ≠ 5 := by decide
  obtain ⟨t, hinsert, -, hagrees⟩ := (htbl_refines h₀).2.1 5 false true hnew
  refine ⟨t, hinsert, (Run.htblVector_iff (h₀.insert hnew hinsert)).mpr ?_⟩
  rw [hagrees.size]
  decide

/-- Two objects: the second one is written behind the vector of `_htbl_tov`. -/
theorem htblTov_two :
    ∃ (t : Htbl ℕ ℕ) (P : Finset ℕ), Run (fun _ => 0) t P ∧ htblTov t = none ∧
      ¬ VectorHolds t P := by
  have h₀ : Run (fun _ => 0) (htblCreate (id : ℕ → ℕ) fun _ => none) ∅ := .create _ _
  have h₁ := h₀.insert (by decide) (rfl : htblInsert (fun _ => 0) _ 5 false true = some _)
  have h₂ := h₁.insert (by decide) (rfl : htblInsert (fun _ => 0) _ 8 false true = some _)
  refine ⟨_, _, h₂, rfl, ?_⟩
  rintro ⟨-, v, hv, -⟩
  cases hv

end Htbl

end Zevent.Znet

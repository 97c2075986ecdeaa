/-
# Bucket brigades

A brigade is a doubly linked list of buckets, each with some data; a bucket is named by a
pointer.  `Brigades B K α` is an implementation of brigades `B` with bucket pointers `K` over
data of type `α`: its operations, the list of buckets that a brigade stands for, and what every
operation does to that list.

`split` and `delete` act on the list alone; the other buckets keep their pointers.  What `next`
says of a bucket that was destroyed is open: its memory is not the brigade's any more.

`Brigades.linked` is such an implementation, with what is left of the link of a destroyed bucket
as a parameter.
-/
import Mathlib.Data.List.Nodup
import Mathlib.Tactic

/-- An implementation of brigades, with the list that a brigade stands for. -/
structure Brigades (B K α : Type) where
  /-- The buckets of a brigade in their order, each with its data. -/
  buckets : B → List (K × List α)
  /-- A brigade without buckets. -/
  create : B
  /-- The first bucket; `none` is the sentinel. -/
  first : B → Option K
  /-- The bucket after this one, for a bucket of the brigade. -/
  next : B → K → Option K
  /-- The data of a bucket. -/
  read : B → K → List α
  /-- The bucket keeps that many elements, a new one after it gets the others. -/
  split : B → K → ℕ → B
  /-- The bucket is taken out of its brigade and destroyed. -/
  delete : B → K → B
  /-- A new bucket with this data at the end. -/
  insertTail : B → List α → B
  buckets_create : buckets create = []
  first_eq : ∀ b, first b = (buckets b).head?.map Prod.fst
  next_eq : ∀ {b pre k data post}, buckets b = pre ++ (k, data) :: post →
    next b k = post.head?.map Prod.fst
  read_eq : ∀ {b pre k data post}, buckets b = pre ++ (k, data) :: post → read b k = data
  buckets_split : ∀ {b pre k data post n}, buckets b = pre ++ (k, data) :: post →
    n ≤ data.length →
    ∃ k', buckets (split b k n) = pre ++ (k, data.take n) :: (k', data.drop n) :: post
  buckets_delete : ∀ {b pre k data post}, buckets b = pre ++ (k, data) :: post →
    buckets (delete b k) = pre ++ post
  buckets_insertTail : ∀ b data, ∃ k, buckets (insertTail b data) = buckets b ++ [(k, data)]

namespace Brigades

variable {B K α : Type} (A : Brigades B K α)

/-- The data of a brigade, bucket after bucket. -/
def contents (b : B) : List α := (A.buckets b).flatMap Prod.snd

@[simp] theorem contents_create : A.contents A.create = [] := by
  rw [contents, A.buckets_create, List.flatMap_nil]

@[simp] theorem contents_insertTail (b : B) (data : List α) :
    A.contents (A.insertTail b data) = A.contents b ++ data := by
  obtain ⟨k, hk⟩ := A.buckets_insertTail b data
  rw [contents, hk, List.flatMap_append, List.flatMap_singleton, contents]

/-- A brigade with a bucket in it is not empty. -/
theorem insertTail_ne_nil (b : B) (data : List α) : A.buckets (A.insertTail b data) ≠ [] := by
  obtain ⟨k, hk⟩ := A.buckets_insertTail b data
  rw [hk]
  exact List.append_ne_nil_of_right_ne_nil _ (List.cons_ne_nil _ _)

section First

variable {A} {b : B} {k : K} {data : List α} {post : List (K × List α)}

/-- The data of a brigade begins with that of its first bucket. -/
theorem contents_of_first (h : A.buckets b = (k, data) :: post) :
    A.contents b = data ++ post.flatMap Prod.snd := by
  rw [contents, h, List.flatMap_cons]

theorem nil_append (h : A.buckets b = (k, data) :: post) :
    A.buckets b = [] ++ (k, data) :: post := h

theorem read_first (h : A.buckets b = (k, data) :: post) : A.read b k = data :=
  A.read_eq (nil_append h)

/-- Deleting the first bucket leaves those behind it. -/
theorem delete_first (h : A.buckets b = (k, data) :: post) :
    A.buckets (A.delete b k) = post :=
  A.buckets_delete (nil_append h)

/-- The first bucket is cut and its front part taken out: the rest of it is the first now. -/
theorem split_first {n : ℕ} (h : A.buckets b = (k, data) :: post) (hn : n ≤ data.length) :
    ∃ k', A.buckets (A.delete (A.split b k n) k) = (k', data.drop n) :: post ∧
      A.next (A.split b k n) k = some k' := by
  obtain ⟨k', hk'⟩ := A.buckets_split (nil_append h) hn
  exact ⟨k', delete_first hk', A.next_eq (nil_append hk')⟩

end First

/-! ## Linked brigades -/

section Linked

variable {k n : ℕ} {data : List α} {pre post cells : List (ℕ × List α)}

/-- The bucket after `k`, if `k` is in the list at all. -/
def following (k : ℕ) : List (ℕ × List α) → Option (Option ℕ)
  | [] => none
  | c :: rest => if c.1 = k then some (rest.head?.map Prod.fst) else following k rest

/-- The data of `k`. -/
def dataOf (k : ℕ) : List (ℕ × List α) → List α
  | [] => []
  | c :: rest => if c.1 = k then c.2 else dataOf k rest

/-- A pointer that is not in use. -/
def unused (cells : List (ℕ × List α)) : ℕ := (cells.map Prod.fst).sum + 1

/-- The list with `k` cut at `n`, the rest under the pointer `k'`. -/
def cut (k n k' : ℕ) : List (ℕ × List α) → List (ℕ × List α)
  | [] => []
  | c :: rest =>
      if c.1 = k then (k, c.2.take n) :: (k', c.2.drop n) :: rest else c :: cut k n k' rest

/-- The number for a new bucket is not in use. -/
theorem unused_notMem (cells : List (ℕ × List α)) : unused cells ∉ cells.map Prod.fst := by
  intro h
  have := List.le_sum_of_mem h
  rw [unused] at this
  omega

/-- The first bucket with a number leads to the one behind it. -/
theorem following_append (h : k ∉ pre.map Prod.fst) :
    following k (pre ++ (k, data) :: post) = some (post.head?.map Prod.fst) := by
  induction pre with
  | nil => simp [following]
  | cons c pre ih =>
      rw [List.map_cons, List.mem_cons, not_or] at h
      rw [List.cons_append, following, if_neg (Ne.symm h.1), ih h.2]

theorem following_eq_none (h : k ∉ cells.map Prod.fst) : following k cells = none := by
  induction cells with
  | nil => rfl
  | cons c cells ih =>
      rw [List.map_cons, List.mem_cons, not_or] at h
      rw [following, if_neg (Ne.symm h.1), ih h.2]

theorem dataOf_append (h : k ∉ pre.map Prod.fst) :
    dataOf k (pre ++ (k, data) :: post) = data := by
  induction pre with
  | nil => simp [dataOf]
  | cons c pre ih =>
      rw [List.map_cons, List.mem_cons, not_or] at h
      rw [List.cons_append, dataOf, if_neg (Ne.symm h.1), ih h.2]

/-- A split puts the rest into a bucket behind the first one. -/
theorem cut_append (k' : ℕ) (h : k ∉ pre.map Prod.fst) :
    cut k n k' (pre ++ (k, data) :: post)
      = pre ++ (k, data.take n) :: (k', data.drop n) :: post := by
  induction pre with
  | nil => simp [cut]
  | cons c pre ih =>
      rw [List.map_cons, List.mem_cons, not_or] at h
      rw [List.cons_append, cut, if_neg (Ne.symm h.1), ih h.2, List.cons_append]

/-- Buckets with other numbers are not split. -/
theorem cut_eq_self {k' : ℕ} (h : k ∉ cells.map Prod.fst) : cut k n k' cells = cells := by
  induction cells with
  | nil => rfl
  | cons c cells ih =>
      rw [List.map_cons, List.mem_cons, not_or] at h
      rw [cut, if_neg (Ne.symm h.1), ih h.2]

/-- The buckets before `k` are other ones. -/
theorem notMem_before (h : ((pre ++ (k, data) :: post).map Prod.fst).Nodup) :
    k ∉ pre.map Prod.fst := by
  rw [List.map_append, List.map_cons] at h
  intro hk
  exact List.disjoint_of_nodup_append h hk List.mem_cons_self

/-- A new pointer for the second part keeps the pointers apart. -/
theorem nodup_cut {k' : ℕ} (hk' : k' ∉ cells.map Prod.fst) (h : (cells.map Prod.fst).Nodup) :
    ((cut k n k' cells).map Prod.fst).Nodup := by
  by_cases hk : k ∈ cells.map Prod.fst
  · obtain ⟨⟨k₁, data⟩, hmem, hk₁⟩ := List.mem_map.mp hk
    dsimp only at hk₁
    subst hk₁
    obtain ⟨pre, post, rfl⟩ := List.append_of_mem hmem
    rw [cut_append k' (notMem_before h)]
    have hperm : ((pre ++ (k₁, data.take n) :: (k', data.drop n) :: post).map Prod.fst).Perm
        (k' :: (pre ++ (k₁, data) :: post).map Prod.fst) := by
      simp only [List.map_append, List.map_cons]
      exact (List.Perm.append_left _ (List.Perm.swap k' k₁ _)).trans List.perm_middle
    exact hperm.nodup_iff.mpr (List.nodup_cons.mpr ⟨hk', h⟩)
  · rw [cut_eq_self hk]
    exact h

/-- A brigade as its buckets, with the links of the buckets that were taken out. -/
structure Linked (α : Type) where
  cells : List (ℕ × List α)
  stale : ℕ → Option ℕ
  nodup : (cells.map Prod.fst).Nodup

/-- The link of a bucket: where it is, or where it was. -/
def Linked.next (b : Linked α) (k : ℕ) : Option ℕ := (following k b.cells).getD (b.stale k)

/-- A bucket in a linked brigade leads to the one behind it. -/
theorem Linked.next_eq {b : Linked α} (h : b.cells = pre ++ (k, data) :: post) :
    b.next k = post.head?.map Prod.fst := by
  have hnodup := b.nodup
  rw [h] at hnodup
  rw [next, h, following_append (notMem_before hnodup), Option.getD_some]

/-- Taking a bucket out; `freed` is what its link becomes with its memory. -/
def Linked.delete (freed : Option ℕ → Option ℕ) (b : Linked α) (k : ℕ) : Linked α where
  cells := b.cells.eraseP (·.1 = k)
  stale := Function.update b.stale k (freed (b.next k))
  nodup := b.nodup.sublist (List.eraseP_sublist.map _)

variable {freed : Option ℕ → Option ℕ}

/-- A bucket is taken out of a linked brigade. -/
theorem Linked.cells_delete {b : Linked α} (h : b.cells = pre ++ (k, data) :: post) :
    (b.delete freed k).cells = pre ++ post := by
  have hnodup := b.nodup
  rw [h] at hnodup
  have hpre : ∀ c ∈ pre, ¬ decide (c.1 = k) = true := by
    intro c hc hck
    exact notMem_before hnodup (of_decide_eq_true hck ▸ List.mem_map_of_mem hc)
  show b.cells.eraseP _ = _
  rw [h, List.eraseP_append_right _ hpre, List.eraseP_cons_of_pos (by simp)]

/-- The link of a bucket that was taken out. -/
theorem Linked.next_delete {b : Linked α} (h : b.cells = pre ++ (k, data) :: post) :
    (b.delete freed k).next k = freed (post.head?.map Prod.fst) := by
  have hnodup := b.nodup
  rw [h, List.map_append, List.map_cons] at hnodup
  have hgone : k ∉ (b.delete freed k).cells.map Prod.fst := by
    rw [Linked.cells_delete h, List.map_append]
    exact (List.nodup_middle.mp hnodup).notMem
  rw [Linked.next, following_eq_none hgone, Option.getD_none]
  show Function.update b.stale k (freed (b.next k)) k = _
  rw [Function.update_self, Linked.next_eq h]

/-- Brigades as lists of buckets with their links. -/
def linked (freed : Option ℕ → Option ℕ) : Brigades (Linked α) ℕ α where
  buckets := Linked.cells
  create := ⟨[], fun _ => none, List.nodup_nil⟩
  first b := b.cells.head?.map Prod.fst
  next := Linked.next
  read b k := dataOf k b.cells
  split b k n := ⟨cut k n (unused b.cells) b.cells, b.stale,
    nodup_cut (unused_notMem b.cells) b.nodup⟩
  delete := Linked.delete freed
  insertTail b data := ⟨b.cells ++ [(unused b.cells, data)], b.stale, by
    rw [List.map_append, List.map_singleton, ← List.concat_eq_append]
    exact b.nodup.concat (unused_notMem b.cells)⟩
  buckets_create := rfl
  first_eq _ := rfl
  next_eq := Linked.next_eq
  read_eq {b} _ _ _ _ h := by
    have hnodup := b.nodup
    rw [h] at hnodup
    rw [h, dataOf_append (notMem_before hnodup)]
  buckets_split {b} _ _ _ _ _ h _ := by
    have hnodup := b.nodup
    rw [h] at hnodup
    refine ⟨unused b.cells, ?_⟩
    dsimp only
    rw [h, cut_append _ (notMem_before hnodup)]
  buckets_delete := Linked.cells_delete
  buckets_insertTail b data := ⟨unused b.cells, rfl⟩

end Linked

end Brigades

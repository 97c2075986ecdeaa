/-
# Arrays of chains

A chained hash table is an array of heads and one link for each node.  `Buckets array next B`
says that the chain at cell `i` visits the nodes of `B i`; the lists of different cells need
not be known to be disjoint for this, only for the writes.

* `Buckets.write` is a write through the link a walk came through: at the head or behind a
  node, it puts another chain in the place of the rest of one bucket.
* `Buckets.push` puts a node in front of a bucket.
* `nodesFrom B n i` are the nodes of the cells from `i` on, in the order in which a traversal
  of the array meets them.
* `Slotted n slot P B` says that the lists are made of the nodes `P`, each in the list of its
  slot; then a write that leaves out or puts in a node does the same to `P`.
-/
import Mathlib.Data.Finset.Card
import Mathlib.Data.List.Basic
import Mathlib.Tactic.Tauto
import Zevent.Lib.Chain

/-- The chain at each cell of the array visits the nodes of its list. -/
def Buckets {A : Type*} (array : List (Option A)) (next : A → Option A) (B : ℕ → List A) : Prop :=
  ∀ i head, array[i]? = some head → Chain next head (B i)

namespace Buckets

variable {A : Type*} {array : List (Option A)} {next next' : A → Option A} {B B' : ℕ → List A}

/-- The array after a write through a link: `ref` is the node whose link is written, and `none`
stands for the cell. -/
def setRef (array : List (Option A)) (i : ℕ) (ref x : Option A) : List (Option A) :=
  match ref with
  | none => array.set i x
  | some _ => array

@[simp] theorem length_setRef (array : List (Option A)) (i : ℕ) (ref x : Option A) :
    (setRef array i ref x).length = array.length := by
  cases ref with
  | none => exact List.length_set
  | some _ => rfl

theorem empty (n : ℕ) : Buckets (List.replicate n none) next fun _ => [] := by
  intro i head hi
  rw [List.getElem?_replicate] at hi
  split at hi
  · rw [Option.some.injEq] at hi
    exact hi.symm
  · exact absurd hi (by simp)

theorem chain (hb : Buckets array next B) {i : ℕ} (hi : i < array.length) :
    ∃ head, array[i]? = some head ∧ Chain next head (B i) :=
  ⟨array[i], List.getElem?_eq_getElem hi, hb i _ (List.getElem?_eq_getElem hi)⟩

theorem nodup (hb : Buckets array next B) {i : ℕ} (hi : i < array.length) : (B i).Nodup := by
  obtain ⟨head, -, hchain⟩ := hb.chain hi
  exact hchain.nodup

/-- Links outside the buckets do not matter. -/
theorem congr (hb : Buckets array next B) (heq : ∀ i < array.length, ∀ a ∈ B i, next' a = next a) :
    Buckets array next' B := by
  intro i head hi
  have hlt := (List.getElem?_eq_some_iff.mp hi).1
  exact (hb i head hi).congr (heq i hlt)

/-- Only the lists below the length of the array matter. -/
theorem congr_lists (hb : Buckets array next B) (heq : ∀ i < array.length, B' i = B i) :
    Buckets array next B' := by
  intro i head hi
  rw [heq i (List.getElem?_eq_some_iff.mp hi).1]
  exact hb i head hi

/-- **A write through a link** changes one bucket. -/
theorem write [DecidableEq A] (hb : Buckets array next B) {i : ℕ} (hi : i < array.length)
    {pre rest rest' : List A} {x : Option A} (hB : B i = pre ++ rest) (hx : Chain next x rest')
    (hnew : ∀ b ∈ pre.getLast?, b ∉ rest')
    (hother : ∀ j < array.length, j ≠ i → ∀ b ∈ pre.getLast?, b ∉ B j) :
    Buckets (setRef array i pre.getLast? x) (Chain.relink next pre.getLast? x)
      (Function.update B i (pre ++ rest')) := by
  obtain ⟨head, hhead, hchain⟩ := hb.chain hi
  rw [hB] at hchain
  have hspliced := hchain.splice hx hnew
  intro j head' hj
  have hjlt := (List.getElem?_eq_some_iff.mp hj).1
  rw [length_setRef] at hjlt
  rcases eq_or_ne j i with rfl | hne
  · rw [Function.update_self]
    have hhead' : head' = Chain.rehead head pre.getLast? x := by
      cases href : pre.getLast? with
      | none =>
          rw [href, setRef, List.getElem?_set_self hi, Option.some.injEq] at hj
          exact hj.symm
      | some b =>
          rw [href, setRef, hhead, Option.some.injEq] at hj
          exact hj.symm
    rw [hhead']
    exact hspliced
  · rw [Function.update_of_ne hne]
    cases href : pre.getLast? with
    | none =>
        rw [href, setRef, List.getElem?_set_ne (Ne.symm hne)] at hj
        exact hb j head' hj
    | some b =>
        rw [href, setRef] at hj
        refine (hb j head' hj).congr fun c hc => Function.update_of_ne ?_ _ _
        rintro rfl
        exact hother j hjlt hne c href hc

/-- A node goes in front of a bucket. -/
theorem push [DecidableEq A] (hb : Buckets array next B) {i : ℕ} {head : Option A} {a : A}
    (hi : array[i]? = some head) (ha : ∀ j < array.length, a ∉ B j) :
    Buckets (array.set i (some a)) (Function.update next a head)
      (Function.update B i (a :: B i)) := by
  have hlt := (List.getElem?_eq_some_iff.mp hi).1
  have hb' : Buckets array (Function.update next a head) B := by
    refine hb.congr fun j hj b hb => Function.update_of_ne ?_ _ _
    rintro rfl
    exact ha j hj hb
  intro j head' hj
  rcases eq_or_ne j i with rfl | hne
  · rw [List.getElem?_set_self hlt, Option.some.injEq] at hj
    rw [Function.update_self]
    refine ⟨hj.symm, ?_⟩
    rw [Function.update_self]
    exact hb' j head hi
  · rw [List.getElem?_set_ne (Ne.symm hne)] at hj
    rw [Function.update_of_ne hne]
    exact hb' j head' hj

/-- Links outside some chains do not matter for them. -/
theorem forall₂_congr {heads : List (Option A)} {lists : List (List A)}
    (h : List.Forall₂ (Chain next) heads lists)
    (heq : ∀ a ∈ lists.flatten, next' a = next a) : List.Forall₂ (Chain next') heads lists := by
  induction h with
  | nil => exact List.Forall₂.nil
  | cons hchain _ ih =>
      rw [List.flatten_cons] at heq
      refine List.Forall₂.cons (hchain.congr fun a ha => ?_) (ih fun a ha => ?_)
      · exact heq a (List.mem_append_left _ ha)
      · exact heq a (List.mem_append_right _ ha)

/-- The cells and their lists side by side. -/
theorem forall₂ (hb : Buckets array next B) :
    List.Forall₂ (Chain next) array ((List.range array.length).map B) := by
  rw [List.forall₂_iff_get]
  refine ⟨by rw [List.length_map, List.length_range], fun i hi hi' => ?_⟩
  rw [List.get_eq_getElem, List.get_eq_getElem, List.getElem_map, List.getElem_range]
  exact hb i _ (List.getElem?_eq_getElem hi)

end Buckets

theorem mem_update_append {A : Type*} {B : ℕ → List A} {i j : ℕ} {a b : A} :
    b ∈ Function.update B i (B i ++ [a]) j ↔ b ∈ B j ∨ b = a ∧ j = i := by
  rcases eq_or_ne j i with rfl | hne
  · rw [Function.update_self, List.mem_append, List.mem_singleton, and_iff_left rfl]
  · rw [Function.update_of_ne hne]
    exact ⟨Or.inl, fun hb => hb.resolve_right fun heq => hne heq.2⟩

theorem mem_update_cons {A : Type*} {B : ℕ → List A} {i j : ℕ} {a b : A} :
    b ∈ Function.update B i (a :: B i) j ↔ b ∈ B j ∨ b = a ∧ j = i := by
  rcases eq_or_ne j i with rfl | hne
  · rw [Function.update_self, List.mem_cons]
    tauto
  · rw [Function.update_of_ne hne]
    exact ⟨Or.inl, fun hb => hb.resolve_right fun heq => hne heq.2⟩

/-! ## The order of a traversal -/

section NodesFrom

variable {A : Type*} {B B' : ℕ → List A} {n i : ℕ}

/-- The nodes of the cells from `i` on, up to the cell `n`. -/
def nodesFrom (B : ℕ → List A) (n i : ℕ) : List A := (List.range' i (n - i)).flatMap B

/-- The nodes of a list come before those of the next ones. -/
theorem nodesFrom_of_lt (h : i < n) : nodesFrom B n i = B i ++ nodesFrom B n (i + 1) := by
  rw [nodesFrom, show n - i = n - (i + 1) + 1 by omega, List.range'_succ, List.flatMap_cons,
    nodesFrom]

theorem nodesFrom_of_le (h : n ≤ i) : nodesFrom B n i = [] := by
  rw [nodesFrom, Nat.sub_eq_zero_of_le h]
  rfl

/-- All lists in a row are the nodes from the first one on. -/
theorem flatten_map_range : ((List.range n).map B).flatten = nodesFrom B n 0 := by
  rw [nodesFrom, List.flatMap_def, Nat.sub_zero, List.range_eq_range']

theorem mem_nodesFrom {a : A} : a ∈ nodesFrom B n i ↔ ∃ j, i ≤ j ∧ j < n ∧ a ∈ B j := by
  rw [nodesFrom, List.mem_flatMap]
  constructor
  · rintro ⟨j, hj, ha⟩
    rw [List.mem_range'_1] at hj
    exact ⟨j, hj.1, by omega, ha⟩
  · rintro ⟨j, hij, hjn, ha⟩
    exact ⟨j, List.mem_range'_1.mpr ⟨hij, by omega⟩, ha⟩

/-- The nodes from some list on depend on these lists only. -/
theorem nodesFrom_congr (h : ∀ j, i ≤ j → j < n → B' j = B j) :
    nodesFrom B' n i = nodesFrom B n i := by
  rw [nodesFrom, nodesFrom]
  refine List.flatMap_congr fun j hj => ?_
  rw [List.mem_range'_1] at hj
  exact h j hj.1 (by omega)

/-- Lists without a common node, each without repetition, make a traversal without
repetition. -/
theorem nodup_nodesFrom (hnodup : ∀ j < n, (B j).Nodup)
    (hunique : ∀ j < n, ∀ k < n, ∀ a ∈ B j, a ∈ B k → j = k) : (nodesFrom B n i).Nodup := by
  rw [nodesFrom, List.nodup_flatMap]
  constructor
  · intro j hj
    rw [List.mem_range'_1] at hj
    exact hnodup j (by omega)
  · have hrange : (List.range' i (n - i)).Nodup := List.nodup_range'
    refine List.Pairwise.imp_of_mem ?_ hrange
    intro j k hj hk hne a haj hak
    rw [List.mem_range'_1] at hj hk
    exact hne (hunique j (by omega) k (by omega) a haj hak)

end NodesFrom

/-! ## Nodes in the lists of their slots -/

/-- The first `n` lists are made of the nodes `P`, each in the list of its slot. -/
def Slotted {A : Type*} (n : ℕ) (slot : A → ℕ) (P : Finset A) (B : ℕ → List A) : Prop :=
  ∀ i < n, ∀ a, a ∈ B i ↔ a ∈ P ∧ slot a = i

namespace Slotted

variable {A : Type*} {n i j : ℕ} {slot slot' : A → ℕ} {P : Finset A} {B B' : ℕ → List A} {a : A}

/-- A node is in the list of its slot and in no other. -/
theorem unique (h : Slotted n slot P B) (hi : i < n) (hj : j < n) (hai : a ∈ B i)
    (haj : a ∈ B j) : i = j :=
  ((h i hi a).mp hai).2.symm.trans ((h j hj a).mp haj).2

/-- A list has no more nodes than there are. -/
theorem length_le (h : Slotted n slot P B) (hi : i < n) (hnodup : (B i).Nodup) :
    (B i).length ≤ P.card := by
  classical
  rw [← List.toFinset_card_of_nodup hnodup]
  refine Finset.card_le_card fun a ha => ?_
  rw [List.mem_toFinset] at ha
  exact ((h i hi a).mp ha).1

/-- A traversal of the array meets all nodes. -/
theorem mem_nodesFrom_iff (h : Slotted n slot P B) (hslot : ∀ a ∈ P, slot a < n) :
    a ∈ nodesFrom B n 0 ↔ a ∈ P := by
  rw [mem_nodesFrom]
  constructor
  · rintro ⟨j, -, hj, ha⟩
    exact ((h j hj a).mp ha).1
  · intro ha
    exact ⟨slot a, Nat.zero_le _, hslot a ha, (h _ (hslot a ha) a).mpr ⟨ha, rfl⟩⟩

/-- A traversal of the array meets no node twice. -/
theorem nodesFrom_nodup (h : Slotted n slot P B) (hnodup : ∀ j < n, (B j).Nodup) :
    (nodesFrom B n i).Nodup :=
  nodup_nodesFrom hnodup fun _ hj _ hk _ haj hak => h.unique hj hk haj hak

/-- All lists together have every node once. -/
theorem length_nodesFrom (h : Slotted n slot P B) (hslot : ∀ a ∈ P, slot a < n)
    (hnodup : ∀ j < n, (B j).Nodup) : (nodesFrom B n 0).length = P.card := by
  classical
  rw [← List.toFinset_card_of_nodup (h.nodesFrom_nodup hnodup)]
  congr 1
  ext a
  rw [List.mem_toFinset, h.mem_nodesFrom_iff hslot]

/-- Another node comes to the list of its slot. -/
theorem insert [DecidableEq A] (h : Slotted n slot P B) (ha : a ∉ P)
    (hslot : ∀ b ∈ P, slot' b = slot b)
    (hmem : ∀ j < n, ∀ b, b ∈ B' j ↔ b ∈ B j ∨ b = a ∧ j = slot' a) :
    Slotted n slot' (insert a P) B' := by
  intro j hj b
  rw [hmem j hj b, h j hj b, Finset.mem_insert]
  rcases eq_or_ne b a with rfl | hne
  · simp only [ha, false_and, true_and, false_or, true_or]
    exact eq_comm
  · simp only [hne, false_and, or_false, false_or]
    exact and_congr_right fun hb => by rw [hslot b hb]

/-- The lists without a node are the lists with its own one cut. -/
theorem filter_eq_update [DecidableEq A] (h : Slotted n slot P B) {pre rest : List A} (hi : i < n)
    (hB : B i = pre ++ a :: rest) (hnodup : (B i).Nodup) (hj : j < n) :
    (B j).filter (fun b => b ≠ a) = Function.update B i (pre ++ rest) j := by
  have hkeep : ∀ l : List A, a ∉ l → l.filter (fun b => b ≠ a) = l := by
    intro l hl
    refine List.filter_eq_self.mpr fun b hb => decide_eq_true ?_
    rintro rfl
    exact hl hb
  have ha : a ∈ B i := by
    rw [hB]
    exact List.mem_append_right _ List.mem_cons_self
  rcases eq_or_ne j i with rfl | hne
  · rw [hB] at hnodup ⊢
    obtain ⟨-, hrest, hpre⟩ := List.nodup_append.mp hnodup
    rw [Function.update_self, List.filter_append, List.filter_cons_of_neg (by simp),
      hkeep rest (List.nodup_cons.mp hrest).1,
      hkeep pre fun hmem => hpre a hmem a List.mem_cons_self rfl]
  · rw [Function.update_of_ne hne]
    exact hkeep _ fun hmem => hne (h.unique hj hi hmem ha)

/-- A node is taken out of its list. -/
theorem erase [DecidableEq A] (h : Slotted n slot P B) (a : A) :
    Slotted n slot (P.erase a) fun j => (B j).filter fun b => b ≠ a := by
  intro j hj b
  rw [List.mem_filter, decide_eq_true_iff, Finset.mem_erase, h j hj b]
  tauto

section Writes

variable [DecidableEq A] {array : List (Option A)} {next : A → Option A}

/-- **A write through the link in front of a node** takes the node out of its list. -/
theorem unlink (h : Slotted array.length slot P B) (hb : Buckets array next B)
    {pre rest : List A} (hi : i < array.length) (hB : B i = pre ++ a :: rest) :
    Buckets (Buckets.setRef array i pre.getLast? (next a))
      (Chain.relink next pre.getLast? (next a)) (Function.update B i (pre ++ rest)) := by
  obtain ⟨head, -, hchain⟩ := hb.chain hi
  rw [hB] at hchain
  obtain ⟨-, -, hpre⟩ := List.nodup_append.mp hchain.nodup
  refine hb.write hi hB hchain.suffix.2 (fun b hb hmem => ?_) fun j hj hne b hb hmem => ?_
  · exact hpre b (List.mem_of_getLast? hb) b (List.mem_cons_of_mem a hmem) rfl
  · refine hne (h.unique hj hi hmem ?_)
    rw [hB]
    exact List.mem_append_left _ (List.mem_of_getLast? hb)

/-- A write at the end of a list puts a node there. -/
theorem append (h : Slotted array.length slot P B) (hb : Buckets array next B)
    (hi : i < array.length) (ha : a ∉ P) (hnext : next a = none) :
    Buckets (Buckets.setRef array i (B i).getLast? (some a))
      (Chain.relink next (B i).getLast? (some a)) (Function.update B i (B i ++ [a])) := by
  refine hb.write hi (List.append_nil (B i)).symm ⟨rfl, hnext⟩ (fun b hb hmem => ?_)
    fun j hj hne b hb hmem => ?_
  · rw [List.mem_singleton] at hmem
    exact ha (hmem ▸ ((h i hi b).mp (List.mem_of_getLast? hb)).1)
  · exact hne (h.unique hj hi hmem (List.mem_of_getLast? hb))

end Writes

end Slotted

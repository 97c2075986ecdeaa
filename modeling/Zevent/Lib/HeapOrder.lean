/-
# Binary heaps in an array

The order of an implicit binary heap, with the two ways of restoring it.  An array is a
function on the naturals of which the first `n` cells count; keys lie in a linear order
and the smallest is wanted at cell 0.

* `HeapOrdered n a`: no cell is smaller than its parent.
* `OrderedUp n a i`: only cell `i` may be smaller than its parent.  `OrderedUp.swap`
  moves the defect one level up and `OrderedUp.done` ends the ascent.
* `OrderedDown n a i`: only the children of cell `i` may be smaller than it.
  `OrderedDown.swap` moves the defect to the smallest child and `OrderedDown.done` ends
  the descent.
* `map_range_swap` and `map_range_update` are the bookkeeping of the contents, as a
  multiset, under the exchanges and the stores that such loops are made of.
-/
import Mathlib.Data.Multiset.Range
import Mathlib.Logic.Equiv.Basic
import Mathlib.Tactic

namespace HeapOrder

/-! ## Parents and children -/

/-- The cell above cell `i`. -/
def parent (i : ℕ) : ℕ := (i - 1) / 2

/-- A parent is in front of its children. -/
theorem parent_lt {i : ℕ} (h : 0 < i) : parent i < i := by
  unfold parent
  omega

/-- The cells below cell `p`. -/
theorem parent_eq_iff {i p : ℕ} (h : 0 < i) :
    parent i = p ↔ i = 2 * p + 1 ∨ i = 2 * p + 2 := by
  unfold parent
  omega

section Order

variable {κ : Type*} [LinearOrder κ] {n : ℕ} {a : ℕ → κ} {i : ℕ}

/-- No cell is smaller than its parent. -/
def HeapOrdered (n : ℕ) (a : ℕ → κ) : Prop :=
  ∀ j, 0 < j → j < n → a (parent j) ≤ a j

/-- The front of a heap is a heap. -/
theorem HeapOrdered.mono {m : ℕ} (h : HeapOrdered n a) (hm : m ≤ n) : HeapOrdered m a :=
  fun j hj hjm => h j hj (lt_of_lt_of_le hjm hm)

/-- The top of a heap is minimal. -/
theorem HeapOrdered.top_le (h : HeapOrdered n a) : ∀ j, j < n → a 0 ≤ a j := by
  intro j
  induction j using Nat.strong_induction_on with
  | _ j ih =>
      intro hj
      rcases Nat.eq_zero_or_pos j with rfl | hpos
      · exact le_rfl
      · have hp := parent_lt hpos
        exact le_trans (ih (parent j) hp (by omega)) (h j hpos hj)

/-! ## Ascent -/

/-- Only cell `i` may be smaller than its parent; what is below it is not. -/
structure OrderedUp (n : ℕ) (a : ℕ → κ) (i : ℕ) : Prop where
  others : ∀ j, 0 < j → j < n → j ≠ i → a (parent j) ≤ a j
  below : 0 < i → ∀ j, 0 < j → j < n → parent j = i → a (parent i) ≤ a j

/-- A cell that is not before its parent has risen far enough. -/
theorem OrderedUp.done (h : OrderedUp n a i) (hi : 0 < i → a (parent i) ≤ a i) :
    HeapOrdered n a := by
  intro j hj hjn
  by_cases hji : j = i
  · subst hji
    exact hi hj
  · exact h.others j hj hjn hji

/-- Exchanging the defect with its parent moves it up. -/
theorem OrderedUp.swap (h : OrderedUp n a i) (hi : 0 < i) (hin : i < n)
    (hlt : a i < a (parent i)) :
    OrderedUp n (a ∘ Equiv.swap i (parent i)) (parent i) := by
  have hp := parent_lt hi
  have hat_p : (a ∘ Equiv.swap i (parent i)) (parent i) = a i := by
    rw [Function.comp_apply, Equiv.swap_apply_right]
  have hat_i : (a ∘ Equiv.swap i (parent i)) i = a (parent i) := by
    rw [Function.comp_apply, Equiv.swap_apply_left]
  have hat : ∀ k, k ≠ i → k ≠ parent i → (a ∘ Equiv.swap i (parent i)) k = a k := by
    intro k hki hkp
    rw [Function.comp_apply, Equiv.swap_apply_of_ne_of_ne hki hkp]
  have habove : 0 < parent i → a (parent (parent i)) ≤ a (parent i) :=
    fun hpos => h.others (parent i) hpos (by omega) (by omega)
  constructor
  case others =>
    intro j hj hjn hjp
    by_cases hji : j = i
    · -- the old parent now lies below the smaller key
      subst hji
      rw [hat_p, hat_i]
      exact hlt.le
    · rw [hat j hji hjp]
      by_cases hpi : parent j = i
      · rw [hpi, hat_i]
        exact h.below hi j hj hjn hpi
      · by_cases hpp : parent j = parent i
        · -- a sibling of `i`: it was above the old parent already
          rw [hpp, hat_p]
          have hsib := h.others j hj hjn hji
          rw [hpp] at hsib
          exact hlt.le.trans hsib
        · rw [hat (parent j) hpi hpp]
          exact h.others j hj hjn hji
  case below =>
    intro hpos j hj hjn hpj
    have hgp := parent_lt hpos
    rw [hat (parent (parent i)) (by omega) (by omega)]
    by_cases hji : j = i
    · subst hji
      rw [hat_i]
      exact habove hpos
    · have hjp := parent_lt hj
      rw [hat j hji (by omega)]
      have hsib := h.others j hj hjn hji
      rw [hpj] at hsib
      exact (habove hpos).trans hsib

/-! ## Descent -/

/-- Only the children of cell `i` may be smaller than it; they are not smaller than its
parent. -/
structure OrderedDown (n : ℕ) (a : ℕ → κ) (i : ℕ) : Prop where
  others : ∀ j, 0 < j → j < n → parent j ≠ i → a (parent j) ≤ a j
  below : 0 < i → ∀ j, 0 < j → j < n → parent j = i → a (parent i) ≤ a j

/-- A cell that no child is before has sunk far enough. -/
theorem OrderedDown.done (h : OrderedDown n a i)
    (hi : ∀ j, 0 < j → j < n → parent j = i → a i ≤ a j) : HeapOrdered n a := by
  intro j hj hjn
  by_cases hji : parent j = i
  · rw [hji]
    exact hi j hj hjn hji
  · exact h.others j hj hjn hji

/-- Exchanging the defect with its smallest child moves it down. -/
theorem OrderedDown.swap {c : ℕ} (h : OrderedDown n a i) (hc : 0 < c) (hcn : c < n)
    (hpc : parent c = i) (hmin : ∀ j, 0 < j → j < n → parent j = i → a c ≤ a j)
    (hlt : a c < a i) : OrderedDown n (a ∘ Equiv.swap i c) c := by
  have hic : i < c := hpc ▸ parent_lt hc
  have hat_i : (a ∘ Equiv.swap i c) i = a c := by
    rw [Function.comp_apply, Equiv.swap_apply_left]
  have hat_c : (a ∘ Equiv.swap i c) c = a i := by
    rw [Function.comp_apply, Equiv.swap_apply_right]
  have hat : ∀ k, k ≠ i → k ≠ c → (a ∘ Equiv.swap i c) k = a k := by
    intro k hki hkc
    rw [Function.comp_apply, Equiv.swap_apply_of_ne_of_ne hki hkc]
  constructor
  case others =>
    intro j hj hjn hpj
    by_cases hjc : j = c
    · subst hjc
      rw [hpc, hat_i, hat_c]
      exact hlt.le
    · by_cases hji : j = i
      · -- the child that rose meets the parent of `i`
        subst hji
        have hpi := parent_lt hj
        rw [hat (parent j) (by omega) hpj, hat_i]
        exact h.below hj c hc hcn hpc
      · rw [hat j hji hjc]
        by_cases hpji : parent j = i
        · rw [hpji, hat_i]
          exact hmin j hj hjn hpji
        · rw [hat (parent j) hpji hpj]
          exact h.others j hj hjn hpji
  case below =>
    intro _ j hj hjn hpj
    have hcj := parent_lt hj
    rw [hpc, hat_i, hat j (by omega) (by omega)]
    have hj' := h.others j hj hjn (by omega)
    rwa [hpj] at hj'

/-! ## Stores -/

/-- A store at the end. -/
theorem HeapOrdered.push (h : HeapOrdered n a) (x : κ) :
    OrderedUp (n + 1) (Function.update a n x) n where
  others := by
    intro j hj hjn hne
    have hp := parent_lt hj
    rw [Function.update_of_ne hne, Function.update_of_ne (by omega)]
    exact h j hj (by omega)
  below := by
    intro hpos j hj hjn hpj
    rw [parent_eq_iff hj] at hpj
    omega

/-- What is below cell `i` is not smaller than what is above it, whatever is stored there. -/
theorem HeapOrdered.below_update (h : HeapOrdered n a) (x : κ) (hpos : 0 < i) :
    ∀ j, 0 < j → j < n → parent j = i →
      Function.update a i x (parent i) ≤ Function.update a i x j := by
  intro j hj hjn hpj
  have hpi := parent_lt hpos
  have hji := parent_lt hj
  have hj' := h j hj hjn
  rw [hpj] at hj'
  rw [Function.update_of_ne (by omega), Function.update_of_ne (by omega)]
  exact (h i hpos (by omega)).trans hj'

/-- A smaller key may have to rise. -/
theorem HeapOrdered.decrease (h : HeapOrdered n a) {x : κ} (hx : x ≤ a i) :
    OrderedUp n (Function.update a i x) i where
  others := by
    intro j hj hjn hne
    rw [Function.update_of_ne hne]
    by_cases hp : parent j = i
    · rw [hp, Function.update_self]
      have hji := h j hj hjn
      rw [hp] at hji
      exact hx.trans hji
    · rw [Function.update_of_ne hp]
      exact h j hj hjn
  below := h.below_update x

/-- A larger key may have to sink. -/
theorem HeapOrdered.increase (h : HeapOrdered n a) {x : κ} (hx : a i ≤ x) :
    OrderedDown n (Function.update a i x) i where
  others := by
    intro j hj hjn hp
    rw [Function.update_of_ne hp]
    by_cases hji : j = i
    · subst hji
      rw [Function.update_self]
      exact (h j hj hjn).trans hx
    · rw [Function.update_of_ne hji]
      exact h j hj hjn
  below := h.below_update x

end Order

/-! ## Contents -/

section Contents

variable {α : Type*} {n i j : ℕ}

/-- An exchange inside the first `n` cells keeps their contents. -/
theorem map_range_swap (f : ℕ → α) (hi : i < n) (hj : j < n) :
    (Multiset.range n).map (f ∘ Equiv.swap i j) = (Multiset.range n).map f := by
  have hperm : (Multiset.range n).map (Equiv.swap i j) = Multiset.range n := by
    have hinj := (Equiv.swap i j).injective
    apply (Multiset.Nodup.ext ((Multiset.nodup_range n).map hinj) (Multiset.nodup_range n)).mpr
    intro k
    rw [Multiset.mem_map]
    constructor
    · rintro ⟨m, hm, rfl⟩
      rw [Multiset.mem_range] at hm ⊢
      rw [Equiv.swap_apply_def]
      split_ifs <;> assumption
    · intro hk
      refine ⟨Equiv.swap i j k, ?_, Equiv.swap_apply_self i j k⟩
      rw [Multiset.mem_range] at hk ⊢
      rw [Equiv.swap_apply_def]
      split_ifs <;> assumption
  rw [← Multiset.map_map, hperm]

/-- A store inside the first `n` cells trades the old value for the new one. -/
theorem map_range_update (f : ℕ → α) (hi : i < n) (x : α) :
    f i ::ₘ (Multiset.range n).map (Function.update f i x)
      = x ::ₘ (Multiset.range n).map f := by
  have hsplit : ∀ g : ℕ → α, (Multiset.range n).map g
      = g i ::ₘ ((Multiset.range n).erase i).map g := by
    intro g
    rw [← Multiset.map_cons, Multiset.cons_erase (Multiset.mem_range.mpr hi)]
  have hrest : ((Multiset.range n).erase i).map (Function.update f i x)
      = ((Multiset.range n).erase i).map f := by
    refine Multiset.map_congr rfl fun k hk => ?_
    rw [Function.update_of_ne]
    rintro rfl
    exact (Multiset.nodup_range n).notMem_erase hk
  rw [hsplit (Function.update f i x), hrest, Function.update_self, hsplit f]
  exact Multiset.cons_swap _ _ _

/-- A store outside them is not seen. -/
theorem map_range_update_of_le (f : ℕ → α) (hi : n ≤ i) (x : α) :
    (Multiset.range n).map (Function.update f i x) = (Multiset.range n).map f := by
  refine Multiset.map_congr rfl fun k hk => ?_
  rw [Multiset.mem_range] at hk
  rw [Function.update_of_ne (by omega)]

end Contents

end HeapOrder

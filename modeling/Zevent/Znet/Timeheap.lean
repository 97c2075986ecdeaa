/-
# The timer heap (`znet/evloop/timeheap.c`)

Pending timers are kept in a binary heap of entries (expiry time, handle), and every
handle knows the cell of its entry, so that a timer can be removed or changed in the
middle.  Removing moves the last entry in and decides by one comparison whether it has
to rise or to sink; every exchange updates two back-pointers; `timeheap_remove_top`
passes a handle of its own that is not in the heap.

`H` is the type of the handles (addresses of `struct th_handle`), `index h` the field
`h->i` and `data h` the field `h->data`.  The array `heap` is a function of which the
first `heap_use` cells count, and a failed assertion is `none`.  Indices are naturals; those of the
source are `int`, and none of them overflows with fewer than `2 ^ 30` pending timers.

What the component is for is `Implied`: the multiset of entries that the calls so far
leave behind.  `timeheap_refines` connects the two.
-/
import Mathlib.Tactic
import Mathlib.Data.Prod.Lex
import Zevent.Lib.HeapOrder
import Zevent.Lib.Interleaving

namespace Zevent.Znet

open HeapOrder Interleaving

/-! ## Times -/

/-- `struct timespec`. -/
structure Timespec where
  tvSec : ℤ
  tvNsec : ℤ
  deriving DecidableEq

/-- `cmptime_lt`. -/
def cmptimeLt (a b : Timespec) : Bool :=
  if a.tvSec = b.tvSec then a.tvNsec < b.tvNsec else a.tvSec < b.tvSec

/-- A time as a point of the lexicographic order. -/
def Timespec.key (t : Timespec) : ℤ ×ₗ ℤ := toLex (t.tvSec, t.tvNsec)

/-- `cmptime` compares the times as numbers. -/
theorem cmptimeLt_iff (a b : Timespec) : cmptimeLt a b = true ↔ a.key < b.key := by
  rw [cmptimeLt, Timespec.key, Timespec.key, Prod.Lex.toLex_lt_toLex]
  split_ifs with h
  · simp [h]
  · simp [h]

/-! ## The heap -/

/-- `struct th_entry`. -/
structure ThEntry (H : Type) where
  t : Timespec
  h : H
  deriving DecidableEq

/-- The three statics of the file and the `i` fields of the handles. -/
structure Timeheap (H : Type) where
  heap : ℕ → ThEntry H
  heapCap : ℕ
  heapUse : ℕ
  index : H → ℤ

namespace Timeheap

variable {H : Type}

/-- `timeheap_init`; `memory` is what `malloc` returned. -/
def timeheapInit (memory : ℕ → ThEntry H) (index : H → ℤ) : Timeheap H where
  heap := memory
  heapCap := 10
  heapUse := 0
  index := index

/-- `cmpentry_lt`. -/
def cmpentryLt (s : Timeheap H) (a b : ℕ) : Bool := cmptimeLt (s.heap a).t (s.heap b).t

/-- The choice of `ci` in `bubble_down`: the smaller child, if there is one. -/
def child (s : Timeheap H) (i : ℕ) : Option ℕ :=
  if 2 * i + 2 < s.heapUse then
    some (if s.cmpentryLt (2 * i + 1) (2 * i + 2) then 2 * i + 1 else 2 * i + 2)
  else if 2 * i + 1 < s.heapUse then some (2 * i + 1)
  else none

/-- The smaller child is a child inside of the heap. -/
theorem child_some {s : Timeheap H} {i ci : ℕ} (h : s.child i = some ci) :
    0 < ci ∧ ci < s.heapUse ∧ HeapOrder.parent ci = i := by
  unfold child at h
  unfold HeapOrder.parent
  split_ifs at h <;> simp only [Option.some.injEq] at h <;> omega

section Operations

variable [DecidableEq H]

/-- `swap`. -/
def swap (s : Timeheap H) (i j : ℕ) : Timeheap H :=
  let tmp := s.heap i
  let heap := Function.update s.heap i (s.heap j)
  let index := Function.update s.index (heap i).h i
  let heap := Function.update heap j tmp
  let index := Function.update index (heap j).h j
  { s with heap, index }

/-- `bubble_up`. -/
def bubbleUp (s : Timeheap H) (i : ℕ) : Timeheap H :=
  if i = 0 then s
  else if s.cmpentryLt i ((i - 1) / 2) then (s.swap i ((i - 1) / 2)).bubbleUp ((i - 1) / 2)
  else s
termination_by i

/-- `bubble_down`. -/
def bubbleDown (s : Timeheap H) (i : ℕ) : Timeheap H :=
  match _h : s.child i with
  | none => s
  | some ci => if s.cmpentryLt ci i then (s.swap i ci).bubbleDown ci else s
termination_by s.heapUse - i
decreasing_by
  obtain ⟨hpos, hlt, hp⟩ := child_some _h
  have := parent_lt hpos
  show s.heapUse - ci < s.heapUse - i
  omega

/-- `timeheap_insert`, the allocation succeeding. -/
def timeheapInsert (s : Timeheap H) (h : H) (t : Timespec) : Timeheap H :=
  let s := if s.heapUse = s.heapCap then { s with heapCap := s.heapCap * 2 } else s
  let s := { s with
    heap := Function.update s.heap s.heapUse ⟨t, h⟩
    index := Function.update s.index h s.heapUse
    heapUse := s.heapUse + 1 }
  s.bubbleUp (s.index h).toNat

/-- `timeheap_remove` of a handle whose `i` field is `hi`. -/
def removeAt (s : Timeheap H) (hi : ℤ) : Option (Timeheap H) :=
  if 0 ≤ hi ∧ hi < s.heapUse then
    let s := { s with heapUse := s.heapUse - 1 }
    if s.heapUse > 0 then
      let i := hi.toNat
      let earlier := s.cmpentryLt s.heapUse i
      let s := { s with
        heap := Function.update s.heap i (s.heap s.heapUse)
        index := Function.update s.index (s.heap s.heapUse).h i }
      some (if earlier then s.bubbleUp i else s.bubbleDown i)
    else some s
  else none

/-- `timeheap_remove`. -/
def timeheapRemove (s : Timeheap H) (h : H) : Option (Timeheap H) := s.removeAt (s.index h)

/-- `timeheap_change`. -/
def timeheapChange (s : Timeheap H) (h : H) (t : Timespec) : Option (Timeheap H) :=
  if 0 ≤ s.index h ∧ s.index h < s.heapUse then
    let i := (s.index h).toNat
    let earlier := cmptimeLt t (s.heap i).t
    let s := { s with heap := Function.update s.heap i { s.heap i with t } }
    some (if earlier then s.bubbleUp i else s.bubbleDown i)
  else none

/-- `timeheap_remove_top`, with the `data` it returns; the handle `{ 0, NULL }` it makes
up is read for its `i` field only. -/
def timeheapRemoveTop {D : Type} (data : H → D) (s : Timeheap H) : Option (D × Timeheap H) :=
  (s.removeAt 0).map fun s' => (data (s.heap 0).h, s')

end Operations

/-! ## Invariants -/

/-- The keys the heap is ordered by. -/
def keys (s : Timeheap H) : ℕ → ℤ ×ₗ ℤ := fun k => (s.heap k).t.key

/-- The entries in the heap. -/
def entries (s : Timeheap H) : Multiset (ThEntry H) := (Multiset.range s.heapUse).map s.heap

/-- Every handle in the heap points at its own entry. -/
def Indexed (s : Timeheap H) : Prop := ∀ k, k < s.heapUse → s.index (s.heap k).h = k

/-- The heap order and the back-pointers hold, and the cells in use are allocated. -/
structure Sound (s : Timeheap H) : Prop where
  ordered : HeapOrdered s.heapUse s.keys
  indexed : s.Indexed
  room : s.heapUse ≤ s.heapCap
  cap : 0 < s.heapCap

/-- Entries are compared by their times. -/
theorem cmpentryLt_iff (s : Timeheap H) (a b : ℕ) :
    s.cmpentryLt a b = true ↔ s.keys a < s.keys b := cmptimeLt_iff _ _

/-- Different cells hold different handles. -/
theorem Indexed.handle_ne {s : Timeheap H} (h : s.Indexed) {j k : ℕ} (hj : j < s.heapUse)
    (hk : k < s.heapUse) (hjk : j ≠ k) : (s.heap j).h ≠ (s.heap k).h := by
  intro heq
  have hj' := h j hj
  rw [heq, h k hk] at hj'
  exact hjk (by exact_mod_cast hj'.symm)

/-- The chosen child is the smallest. -/
theorem child_min {s : Timeheap H} {i ci : ℕ} (h : s.child i = some ci) :
    ∀ j, 0 < j → j < s.heapUse → HeapOrder.parent j = i → s.keys ci ≤ s.keys j := by
  intro j hj hjn hpj
  rw [parent_eq_iff hj] at hpj
  unfold child at h
  split_ifs at h with h2 hlt h1 <;> rw [Option.some.injEq] at h <;> subst h
  · rw [cmpentryLt_iff] at hlt
    rcases hpj with rfl | rfl
    · exact le_rfl
    · exact hlt.le
  · rw [cmpentryLt_iff, not_lt] at hlt
    rcases hpj with rfl | rfl
    · exact hlt
    · exact le_rfl
  · rcases hpj with rfl | rfl
    · exact le_rfl
    · omega

theorem child_none {s : Timeheap H} {i : ℕ} (h : s.child i = none) :
    ∀ j, 0 < j → j < s.heapUse → HeapOrder.parent j ≠ i := by
  intro j hj hjn hpj
  rw [parent_eq_iff hj] at hpj
  unfold child at h
  split_ifs at h
  omega

/-- What a restoring loop does to a heap: order and back-pointers hold at its end, the
entries and the sizes are those of the start. -/
structure Restored (s s' : Timeheap H) : Prop where
  ordered : HeapOrdered s'.heapUse s'.keys
  indexed : s'.Indexed
  entries : s'.entries = s.entries
  heapUse : s'.heapUse = s.heapUse
  heapCap : s'.heapCap = s.heapCap

theorem Restored.refl {s : Timeheap H} (hord : HeapOrdered s.heapUse s.keys)
    (hidx : s.Indexed) : Restored s s :=
  ⟨hord, hidx, rfl, rfl, rfl⟩

/-! ## The back-pointers of an exchange -/

variable [DecidableEq H]

theorem swap_heap (s : Timeheap H) (i j : ℕ) :
    (s.swap i j).heap = s.heap ∘ Equiv.swap i j := by
  funext k
  show Function.update (Function.update s.heap i (s.heap j)) j (s.heap i) k = _
  rw [Function.comp_apply, Equiv.swap_apply_def]
  by_cases hkj : k = j
  · subst hkj
    rw [Function.update_self, if_pos rfl]
    split_ifs with hki
    · rw [hki]
    · rfl
  · rw [Function.update_of_ne hkj]
    by_cases hki : k = i
    · subst hki
      rw [Function.update_self, if_pos rfl]
    · rw [Function.update_of_ne hki, if_neg hki, if_neg hkj]

theorem swap_keys (s : Timeheap H) (i j : ℕ) : (s.swap i j).keys = s.keys ∘ Equiv.swap i j := by
  funext k
  rw [keys, swap_heap]
  rfl

/-- `swap` moves the back-pointers along with the entries. -/
theorem Indexed.swap {s : Timeheap H} (h : s.Indexed) {i j : ℕ} (hi : i < s.heapUse)
    (hj : j < s.heapUse) (hij : i ≠ j) : (s.swap i j).Indexed := by
  have hindex : (s.swap i j).index
      = Function.update (Function.update s.index (s.heap j).h i) (s.heap i).h j := by
    simp only [Timeheap.swap, Function.update_self]
  intro k hk
  have hk' : k < s.heapUse := hk
  rw [hindex, swap_heap, Function.comp_apply]
  by_cases hki : k = i
  · subst hki
    rw [Equiv.swap_apply_left, Function.update_of_ne (h.handle_ne hj hi (Ne.symm hij)),
      Function.update_self]
  · by_cases hkj : k = j
    · subst hkj
      rw [Equiv.swap_apply_right, Function.update_self]
    · rw [Equiv.swap_apply_of_ne_of_ne hki hkj, Function.update_of_ne (h.handle_ne hk' hi hki),
        Function.update_of_ne (h.handle_ne hk' hj hkj), h k hk']

/-! ## The two loops -/

/-- A swap changes no entry. -/
theorem swap_entries {s : Timeheap H} {i j : ℕ} (hi : i < s.heapUse) (hj : j < s.heapUse) :
    (s.swap i j).entries = s.entries := by
  show (Multiset.range s.heapUse).map (s.swap i j).heap = _
  rw [swap_heap, map_range_swap _ hi hj]
  rfl

theorem Restored.of_swap {s s' : Timeheap H} {i j : ℕ} (hi : i < s.heapUse)
    (hj : j < s.heapUse) (h : Restored (s.swap i j) s') : Restored s s' where
  ordered := h.ordered
  indexed := h.indexed
  entries := h.entries.trans (swap_entries hi hj)
  heapUse := h.heapUse
  heapCap := h.heapCap

/-- `bubble_up` restores the heap when its entry is too small for its place. -/
theorem bubbleUp_restored {s : Timeheap H} {i : ℕ} (hi : i < s.heapUse) (hidx : s.Indexed)
    (hup : OrderedUp s.heapUse s.keys i) : Restored s (s.bubbleUp i) := by
  induction i using Nat.strong_induction_on generalizing s with
  | _ i ih =>
      -- one exchange with the parent moves the only defect up
      rw [bubbleUp]
      by_cases hi0 : i = 0
      · rw [if_pos hi0]
        exact Restored.refl (hup.done fun hpos => by omega) hidx
      · rw [if_neg hi0]
        have hpos : 0 < i := Nat.pos_of_ne_zero hi0
        have hp : HeapOrder.parent i < i := parent_lt hpos
        by_cases hlt : s.cmpentryLt i ((i - 1) / 2) = true
        · rw [if_pos hlt]
          have hpn : HeapOrder.parent i < s.heapUse := by omega
          refine Restored.of_swap hi hpn (ih _ hp hpn (hidx.swap hi hpn (by omega)) ?_)
          have hmove := hup.swap hpos hi ((cmpentryLt_iff _ _ _).mp hlt)
          rw [← swap_keys] at hmove
          exact hmove
        · rw [if_neg hlt]
          refine Restored.refl (hup.done fun _ => ?_) hidx
          exact not_lt.mp fun h => hlt ((cmpentryLt_iff _ _ _).mpr h)

/-- `bubble_down` restores the heap when its entry is too big for its place. -/
theorem bubbleDown_restored {s : Timeheap H} {i : ℕ} (hidx : s.Indexed)
    (hdown : OrderedDown s.heapUse s.keys i) : Restored s (s.bubbleDown i) := by
  induction hm : s.heapUse - i using Nat.strong_induction_on generalizing s i with
  | _ m ih =>
      -- one exchange with the smaller child moves the only defect down
      rw [bubbleDown]
      split
      · rename_i hnone
        refine Restored.refl (hdown.done fun j hj hjn hpj => ?_) hidx
        exact absurd hpj (child_none hnone j hj hjn)
      · rename_i ci hci
        obtain ⟨hpos, hcn, hp⟩ := child_some hci
        have hic : i < ci := hp ▸ parent_lt hpos
        split_ifs with hlt
        · have hin : i < s.heapUse := by omega
          refine Restored.of_swap hin hcn (ih _ ?_ (hidx.swap hin hcn (by omega)) ?_ rfl)
          · show s.heapUse - ci < m
            omega
          · have hmove := hdown.swap hpos hcn hp (child_min hci) ((cmpentryLt_iff _ _ _).mp hlt)
            rw [← swap_keys] at hmove
            exact hmove
        · refine Restored.refl (hdown.done fun j hj hjn hpj => ?_) hidx
          have hle : s.keys i ≤ s.keys ci :=
            not_lt.mp fun h => hlt ((cmpentryLt_iff _ _ _).mpr h)
          exact hle.trans (child_min hci j hj hjn hpj)

/-- After a store at cell `i` into an ordered heap, one comparison with the old key picks
the loop that restores the order. -/
theorem store_restored {s : Timeheap H} {a : ℕ → ℤ ×ₗ ℤ} {x : ℤ ×ₗ ℤ} {i : ℕ}
    {earlier : Bool} (hidx : s.Indexed) (hord : HeapOrdered s.heapUse a)
    (hkeys : s.keys = Function.update a i x) (hearlier : earlier = true ↔ x < a i)
    (hi : earlier = true → i < s.heapUse) :
    Restored s (if earlier then s.bubbleUp i else s.bubbleDown i) := by
  cases earlier with
  | true =>
      rw [if_pos rfl]
      apply bubbleUp_restored (hi rfl) hidx
      rw [hkeys]
      exact hord.decrease (hearlier.mp rfl).le
  | false =>
      rw [if_neg (by decide)]
      apply bubbleDown_restored hidx
      rw [hkeys]
      exact hord.increase (not_lt.mp fun hlt => absurd (hearlier.mpr hlt) (by decide))

/-! ## The operations -/

omit [DecidableEq H] in
theorem keys_store (heap : ℕ → ThEntry H) (i : ℕ) (e : ThEntry H) :
    (fun k => (Function.update heap i e k).t.key)
      = Function.update (fun k => (heap k).t.key) i e.t.key :=
  Function.comp_update (fun e : ThEntry H => e.t.key) heap i e

/-- The handle has an entry in the heap. -/
def Live (s : Timeheap H) (h : H) : Prop := ∃ k, k < s.heapUse ∧ (s.heap k).h = h

/-- An insert adds its entry. -/
theorem timeheapInsert_spec {s : Timeheap H} (hs : s.Sound) {h : H} (hfresh : ¬ s.Live h)
    (t : Timespec) :
    (s.timeheapInsert h t).Sound ∧ (s.timeheapInsert h t).entries = ⟨t, h⟩ ::ₘ s.entries := by
  -- with or without `realloc` there is room for one more cell
  have hcap : ∃ cap, 0 < cap ∧ s.heapUse < cap ∧
      (if s.heapUse = s.heapCap then { s with heapCap := s.heapCap * 2 } else s)
        = { s with heapCap := cap } := by
    have hroom := hs.room
    have hpos := hs.cap
    split_ifs with hfull
    · exact ⟨s.heapCap * 2, by omega, by omega, rfl⟩
    · exact ⟨s.heapCap, hpos, by omega, rfl⟩
  obtain ⟨cap, hcap, huse, hgrown⟩ := hcap
  rw [timeheapInsert, hgrown]
  dsimp only
  rw [Function.update_self, Int.toNat_natCast]
  generalize hs₁ : (Timeheap.mk (Function.update s.heap s.heapUse ⟨t, h⟩) cap (s.heapUse + 1)
    (Function.update s.index h s.heapUse)) = s₁
  have hidx : s₁.Indexed := by
    subst hs₁
    intro k hk
    have hk' : k < s.heapUse + 1 := hk
    dsimp only
    by_cases hku : k = s.heapUse
    · subst hku
      rw [Function.update_self, Function.update_self]
    · rw [Function.update_of_ne hku]
      have hne : (s.heap k).h ≠ h := fun heq => hfresh ⟨k, by omega, heq⟩
      rw [Function.update_of_ne hne]
      exact hs.indexed k (by omega)
  have hup : OrderedUp s₁.heapUse s₁.keys s.heapUse := by
    subst hs₁
    show OrderedUp (s.heapUse + 1)
      (fun k => (Function.update s.heap s.heapUse ⟨t, h⟩ k).t.key) s.heapUse
    rw [keys_store]
    exact hs.ordered.push t.key
  have hentries : s₁.entries = ⟨t, h⟩ ::ₘ s.entries := by
    subst hs₁
    show (Multiset.range (s.heapUse + 1)).map (Function.update s.heap s.heapUse ⟨t, h⟩) = _
    rw [Multiset.range_succ, Multiset.map_cons, Function.update_self,
      map_range_update_of_le _ le_rfl]
    rfl
  have hsize : s₁.heapUse = s.heapUse + 1 ∧ s₁.heapCap = cap := by
    subst hs₁
    exact ⟨rfl, rfl⟩
  have hr := bubbleUp_restored (by omega) hidx hup
  refine ⟨⟨hr.ordered, hr.indexed, ?_, ?_⟩, hr.entries.trans hentries⟩
  · rw [hr.heapUse, hr.heapCap]
    omega
  · rw [hr.heapCap]
    omega

/-- Removing the entry in cell `i`, whichever handle names the cell. -/
theorem removeAt_spec {s : Timeheap H} (hs : s.Sound) {i : ℕ} (hi : i < s.heapUse) :
    ∃ s', s.removeAt i = some s' ∧ s'.Sound ∧ s.entries = s.heap i ::ₘ s'.entries := by
  obtain ⟨n, hn⟩ : ∃ n, s.heapUse = n + 1 := ⟨s.heapUse - 1, by omega⟩
  have hroom := hs.room
  have hlast : s.entries = s.heap n ::ₘ (Multiset.range n).map s.heap := by
    rw [entries, hn, Multiset.range_succ, Multiset.map_cons]
  rw [removeAt, if_pos ⟨Int.natCast_nonneg i, by exact_mod_cast hi⟩]
  dsimp only
  rw [hn, Nat.add_sub_cancel, Int.toNat_natCast]
  by_cases hpos : n > 0
  · -- the last entry moves into cell `i`, which may be its own
    rw [if_pos hpos]
    generalize hs₁ : (Timeheap.mk (Function.update s.heap i (s.heap n)) s.heapCap n
      (Function.update s.index (s.heap n).h i)) = s₁
    have hidx : s₁.Indexed := by
      subst hs₁
      intro k hk
      have hk' : k < n := hk
      dsimp only
      by_cases hki : k = i
      · subst hki
        rw [Function.update_self, Function.update_self]
      · rw [Function.update_of_ne hki, Function.update_of_ne
          (hs.indexed.handle_ne (by omega) (by omega) (by omega))]
        exact hs.indexed k (by omega)
    have hkeys : s₁.keys = Function.update s.keys i (s.keys n) := by
      subst hs₁
      exact keys_store s.heap i (s.heap n)
    have hentries : s.entries = s.heap i ::ₘ s₁.entries := by
      subst hs₁
      show s.entries = s.heap i ::ₘ (Multiset.range n).map (Function.update s.heap i (s.heap n))
      rcases Nat.lt_or_ge i n with hin | hin
      · rw [map_range_update _ hin, hlast]
      · have : i = n := by omega
        rw [map_range_update_of_le _ hin, hlast, this]
    have hsize : s₁.heapUse = n ∧ s₁.heapCap = s.heapCap := by
      subst hs₁
      exact ⟨rfl, rfl⟩
    have hearlier := cmpentryLt_iff { s with heapUse := n } n i
    have hr := store_restored hidx (hs.ordered.mono (by omega)) hkeys hearlier ?_
    · refine ⟨_, rfl, ⟨hr.ordered, hr.indexed, ?_, ?_⟩, by rw [hr.entries, hentries]⟩
      · rw [hr.heapUse, hr.heapCap]
        omega
      · rw [hr.heapCap, hsize.2]
        exact hs.cap
    · -- an entry is not earlier than itself, so the ascent starts inside the heap
      intro he
      rw [hearlier] at he
      have hne : i ≠ n := by
        rintro rfl
        exact lt_irrefl _ he
      omega
  · rw [if_neg hpos]
    have hn0 : n = 0 := by omega
    have hi0 : i = n := by omega
    refine ⟨_, rfl, ⟨?_, ?_, ?_, hs.cap⟩, ?_⟩
    · intro j hj hjn
      have : j < n := hjn
      omega
    · intro k hk
      have : k < n := hk
      omega
    · show n ≤ s.heapCap
      omega
    · rw [hlast, hi0]
      rfl

/-- A change replaces the entry of its handle. -/
theorem timeheapChange_spec {s : Timeheap H} (hs : s.Sound) {h : H} (hlive : s.Live h)
    (t : Timespec) :
    ∃ s' t₀ m, s.timeheapChange h t = some s' ∧ s'.Sound ∧ s.entries = ⟨t₀, h⟩ ::ₘ m ∧
      s'.entries = ⟨t, h⟩ ::ₘ m := by
  obtain ⟨i, hi, rfl⟩ := hlive
  have hindex := hs.indexed i hi
  rw [timeheapChange, hindex, if_pos ⟨Int.natCast_nonneg i, by exact_mod_cast hi⟩]
  dsimp only
  rw [Int.toNat_natCast]
  generalize hs₁ : (Timeheap.mk (Function.update s.heap i { s.heap i with t }) s.heapCap
    s.heapUse s.index) = s₁
  have hsame : ∀ k, (Function.update s.heap i { s.heap i with t } k).h = (s.heap k).h := by
    intro k
    by_cases hki : k = i
    · subst hki
      rw [Function.update_self]
    · rw [Function.update_of_ne hki]
  have hidx : s₁.Indexed := by
    subst hs₁
    intro k hk
    dsimp only
    rw [hsame]
    exact hs.indexed k hk
  have hkeys : s₁.keys = Function.update s.keys i t.key := by
    subst hs₁
    exact keys_store s.heap i _
  have hsize : s₁.heapUse = s.heapUse ∧ s₁.heapCap = s.heapCap := by
    subst hs₁
    exact ⟨rfl, rfl⟩
  have hr := store_restored hidx (hsize.1 ▸ hs.ordered) hkeys (cmptimeLt_iff _ _)
    (fun _ => hsize.1 ▸ hi)
  have hold : s.entries = s.heap i ::ₘ ((Multiset.range s.heapUse).erase i).map s.heap := by
    rw [← Multiset.map_cons, Multiset.cons_erase (Multiset.mem_range.mpr hi)]
    rfl
  have hnew : s.heap i ::ₘ s₁.entries = { s.heap i with t } ::ₘ s.entries := by
    subst hs₁
    exact map_range_update s.heap hi _
  refine ⟨_, (s.heap i).t, ((Multiset.range s.heapUse).erase i).map s.heap, rfl,
    ⟨hr.ordered, hr.indexed, ?_, ?_⟩, hold, ?_⟩
  · rw [hr.heapUse, hr.heapCap, hsize.1, hsize.2]
    exact hs.room
  · rw [hr.heapCap, hsize.2]
    exact hs.cap
  · rw [hold, Multiset.cons_swap, Multiset.cons_inj_right] at hnew
    rw [hr.entries, hnew]

/-! ## Sequences of calls -/

/-- The calls of the file. -/
inductive Op (H : Type) where
  | insert (h : H) (t : Timespec)
  | remove (h : H)
  | change (h : H) (t : Timespec)
  | removeTop

section Runs

variable {D : Type} (data : H → D)

/-- One call, with what it returns. -/
def call (s : Timeheap H) : Op H → Option (Option D × Timeheap H)
  | .insert h t => some (none, s.timeheapInsert h t)
  | .remove h => (s.timeheapRemove h).map fun s' => (none, s')
  | .change h t => (s.timeheapChange h t).map fun s' => (none, s')
  | .removeTop => (s.timeheapRemoveTop data).map fun (d, s') => (some d, s')

/-- What one call means for the multiset of entries. -/
inductive Effect : Multiset (ThEntry H) → Op H → Option D → Multiset (ThEntry H) → Prop
  | insert {m : Multiset (ThEntry H)} {h : H} {t : Timespec} :
      Effect m (.insert h t) none (⟨t, h⟩ ::ₘ m)
  | remove {m : Multiset (ThEntry H)} {h : H} {t : Timespec} :
      Effect (⟨t, h⟩ ::ₘ m) (.remove h) none m
  | change {m : Multiset (ThEntry H)} {h : H} {t₀ t : Timespec} :
      Effect (⟨t₀, h⟩ ::ₘ m) (.change h t) none (⟨t, h⟩ ::ₘ m)
  | removeTop {m : Multiset (ThEntry H)} {h : H} {t : Timespec}
      (hmin : ∀ e ∈ m, ¬ cmptimeLt e.t t = true) :
      Effect (⟨t, h⟩ ::ₘ m) .removeTop (some (data h)) m

/-- The entries a history of calls, newest first, leaves behind. -/
inductive Implied : List (Op H × Option D) → Multiset (ThEntry H) → Prop
  | nil : Implied [] 0
  | cons {calls : List (Op H × Option D)} {m m' : Multiset (ThEntry H)} {op : Op H}
      {ret : Option D} :
      Implied calls m → Effect data m op ret m' → Implied ((op, ret) :: calls) m'

/-- The contract of a call: `timeheap_insert` is for handles not in the heap, the other
calls for handles in it. -/
def Allowed (s : Timeheap H) : Op H → Prop
  | .insert h _ => ¬ s.Live h
  | .remove h => s.Live h
  | .change h _ => s.Live h
  | .removeTop => 0 < s.heapUse

/-- A call inside its contract does not fail, keeps the invariants and has its effect. -/
theorem call_spec {s : Timeheap H} (hs : s.Sound) {op : Op H} (hop : s.Allowed op) :
    ∃ ret s', s.call data op = some (ret, s') ∧ s'.Sound ∧
      Effect data s.entries op ret s'.entries := by
  cases op with
  | insert h t =>
      obtain ⟨hsound, hentries⟩ := timeheapInsert_spec hs hop t
      refine ⟨none, s.timeheapInsert h t, rfl, hsound, ?_⟩
      rw [hentries]
      exact .insert
  | remove h =>
      obtain ⟨i, hi, rfl⟩ := hop
      obtain ⟨s', hremove, hsound, hentries⟩ := removeAt_spec hs hi
      rw [← hs.indexed i hi] at hremove
      refine ⟨none, s', ?_, hsound, ?_⟩
      · rw [call, timeheapRemove, hremove]
        rfl
      · rw [hentries]
        exact .remove
  | change h t =>
      obtain ⟨s', t₀, m, hchange, hsound, hold, hnew⟩ := timeheapChange_spec hs hop t
      refine ⟨none, s', ?_, hsound, ?_⟩
      · rw [call, hchange]
        rfl
      · rw [hold, hnew]
        exact .change
  | removeTop =>
      obtain ⟨s', hremove, hsound, hentries⟩ := removeAt_spec hs hop
      rw [Nat.cast_zero] at hremove
      refine ⟨some (data (s.heap 0).h), s', ?_, hsound, ?_⟩
      · rw [call, timeheapRemoveTop, hremove]
        rfl
      · have hmin : ∀ e ∈ s'.entries, ¬ cmptimeLt e.t (s.heap 0).t = true := by
          intro e he
          have hmem : e ∈ s.entries := by
            rw [hentries]
            exact Multiset.mem_cons_of_mem he
          obtain ⟨k, hk, rfl⟩ := Multiset.mem_map.mp hmem
          rw [cmptimeLt_iff, not_lt]
          exact hs.ordered.top_le k (Multiset.mem_range.mp hk)
        rw [hentries]
        exact .removeTop hmin

/-- The heap together with the calls made so far and what they returned. -/
structure TimerRun (H D : Type) where
  heap : Timeheap H
  calls : List (Op H × Option D)

/-- After `timeheap_init`. -/
def TimerRun.start (memory : ℕ → ThEntry H) (index : H → ℤ) : TimerRun H D where
  heap := timeheapInit memory index
  calls := []

/-- One more call. -/
def TimerRun.step (r : TimerRun H D) (op : Op H) : Option (TimerRun H D) :=
  (r.heap.call data op).map fun (ret, heap) => { heap, calls := (op, ret) :: r.calls }

/-- The run invariant. -/
theorem timerRun_sound {memory : ℕ → ThEntry H} {index : H → ℤ} {r : TimerRun H D}
    (h : Reach (TimerRun.step data) (fun r op => r.heap.Allowed op)
      (TimerRun.start memory index) r) :
    r.heap.Sound ∧ Implied data r.calls r.heap.entries := by
  refine h.invariant (fun r => r.heap.Sound ∧ Implied data r.calls r.heap.entries) ?_ ?_
  · refine ⟨⟨?_, ?_, Nat.zero_le _, Nat.succ_pos 9⟩, .nil⟩
    · intro j _ hj
      exact absurd hj (Nat.not_lt_zero j)
    · intro k hk
      exact absurd hk (Nat.not_lt_zero k)
  · rintro r op r' ⟨hs, himp⟩ hop hstep
    obtain ⟨ret, s', hcall, hsound, heffect⟩ := call_spec data hs hop
    rw [TimerRun.step, hcall, Option.map_some, Option.some.injEq] at hstep
    subst hstep
    exact ⟨hsound, himp.cons heffect⟩

/-- **The timer heap refines a multiset of entries.**  After every sequence of calls
inside their contract: the heap order holds at every parent and child; the `i` field of
every live handle names the cell of its own entry, in bijection with the cells in use;
the entries are exactly those the calls imply, each `timeheap_remove_top` so far having
returned the data of an entry of minimal time; and every further call inside its contract
succeeds. -/
theorem timeheap_refines {memory : ℕ → ThEntry H} {index : H → ℤ} {r : TimerRun H D}
    (h : Reach (TimerRun.step data) (fun r op => r.heap.Allowed op)
      (TimerRun.start memory index) r) :
    (∀ j, 0 < j → j < r.heap.heapUse → r.heap.cmpentryLt j ((j - 1) / 2) = false) ∧
      (∀ h, r.heap.Live h → (r.heap.heap (r.heap.index h).toNat).h = h) ∧
      Set.BijOn r.heap.index { h | r.heap.Live h } (Set.Ico 0 (r.heap.heapUse : ℤ)) ∧
      Implied data r.calls r.heap.entries ∧
      ∀ op, r.heap.Allowed op → (r.step data op).isSome = true := by
  obtain ⟨hs, himp⟩ := timerRun_sound data h
  refine ⟨?_, ?_, ⟨?_, ?_, ?_⟩, himp, ?_⟩
  · intro j hj hjn
    rw [← Bool.not_eq_true, cmpentryLt_iff, not_lt]
    exact hs.ordered j hj hjn
  · rintro h ⟨k, hk, rfl⟩
    rw [hs.indexed k hk, Int.toNat_natCast]
  · rintro h ⟨k, hk, rfl⟩
    rw [hs.indexed k hk]
    exact ⟨Int.natCast_nonneg k, by exact_mod_cast hk⟩
  · rintro h ⟨k, hk, rfl⟩ h' ⟨k', hk', rfl⟩ heq
    rw [hs.indexed k hk, hs.indexed k' hk'] at heq
    have hkk : k = k' := by exact_mod_cast heq
    rw [hkk]
  · rintro i ⟨hi0, hin⟩
    have hk : i.toNat < r.heap.heapUse := by omega
    refine ⟨(r.heap.heap i.toNat).h, ⟨i.toNat, hk, rfl⟩, ?_⟩
    rw [hs.indexed _ hk]
    omega
  · intro op hop
    obtain ⟨ret, s', hcall, -⟩ := call_spec data hs hop
    rw [TimerRun.step, hcall]
    rfl

end Runs

instance (s : Timeheap H) (h : H) : Decidable (s.Live h) :=
  inferInstanceAs (Decidable (∃ k, k < s.heapUse ∧ (s.heap k).h = h))

instance (s : Timeheap H) : (op : Op H) → Decidable (s.Allowed op)
  | .insert h _ => inferInstanceAs (Decidable (¬ s.Live h))
  | .remove h => inferInstanceAs (Decidable (s.Live h))
  | .change h _ => inferInstanceAs (Decidable (s.Live h))
  | .removeTop => inferInstanceAs (Decidable (0 < s.heapUse))

/-- Four timers, one moved to the front, one deleted from the middle, two expired. -/
theorem timeheap_refines_four_timers :
    ∃ r : TimerRun (Fin 4) ℕ,
      Reach (TimerRun.step fun h => h.val) (fun r op => r.heap.Allowed op)
        (TimerRun.start (fun _ => ⟨⟨0, 0⟩, 0⟩) fun _ => -1) r ∧
      r.calls.filterMap Prod.snd = [1, 3] ∧ r.heap.heapUse = 1 ∧
      Implied (fun h => h.val) r.calls r.heap.entries := by
  have hrun : (run (TimerRun.step fun h : Fin 4 => h.val) (fun r op => r.heap.Allowed op)
      (TimerRun.start (fun _ => ⟨⟨0, 0⟩, 0⟩) fun _ => -1)
      [.insert 0 ⟨5, 0⟩, .insert 1 ⟨3, 7⟩, .insert 2 ⟨3, 9⟩, .insert 3 ⟨8, 0⟩, .change 3 ⟨1, 0⟩,
        .remove 2, .removeTop, .removeTop]).map
      (fun r => (r.calls.filterMap Prod.snd, r.heap.heapUse)) = some ([1, 3], 1) := by
    decide +kernel
  obtain ⟨r, hr, hres⟩ := Option.map_eq_some_iff.mp hrun
  rw [Prod.mk.injEq] at hres
  have hreach := Reach.refl.run _ hr
  exact ⟨r, hreach, hres.1, hres.2, (timeheap_refines _ hreach).2.2.2.1⟩

end Timeheap

end Zevent.Znet

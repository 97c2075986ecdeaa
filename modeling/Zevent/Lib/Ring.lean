/-
# Ring buffers

Reading and writing a linear block of cells at a position of a ring, and lists of regions
that lie one after the other round it.

A ring of `n` cells is a function `ℕ → α` of which only the cells below `n` are used; the
position `p` names the cell `p % n`, so positions may run past the end.

* `read n f off len` lists the `len` cells from position `off` on; `write n f off src`
  stores the block `src` there.  `write_apply` and `write_apply_of_ne` say what a write
  does to every cell, `read_write_self` what a later read of the block sees.
* `Tiled n pos l` says that the regions `l`, given by offset and length, follow each
  other from position `pos` on; `total l` is the number of cells they cover.
-/
import Mathlib.Tactic

namespace RingBuffer

variable {α : Type*} {n : ℕ}

/-! ## Blocks of cells -/

/-- The `len` cells from position `off` on. -/
def read (n : ℕ) (f : ℕ → α) (off len : ℕ) : List α :=
  (List.range len).map fun k => f ((off + k) % n)

/-- The ring after the block `src` is stored from position `off` on. -/
def write (n : ℕ) (f : ℕ → α) (off : ℕ) (src : List α) : ℕ → α := fun p =>
  if p < n then (src[(p + (n - off % n)) % n]?).getD (f p) else f p

@[simp] theorem length_read (n : ℕ) (f : ℕ → α) (off len : ℕ) :
    (read n f off len).length = len := by
  simp [read]

@[simp] theorem read_zero (n : ℕ) (f : ℕ → α) (off : ℕ) : read n f off 0 = [] := rfl

/-- Byte by byte, a read goes round the ring. -/
theorem getElem_read (n : ℕ) (f : ℕ → α) (off len k : ℕ) (hk : k < (read n f off len).length) :
    (read n f off len)[k] = f ((off + k) % n) := by
  simp [read]

/-- Only the cell a position names matters. -/
theorem read_mod (n : ℕ) (f : ℕ → α) (off len : ℕ) :
    read n f (off % n) len = read n f off len := by
  simp [read]

/-- A read splits at any point. -/
theorem read_add (n : ℕ) (f : ℕ → α) (off a b : ℕ) :
    read n f off (a + b) = read n f off a ++ read n f (off + a) b := by
  simp [read, List.range_add, Function.comp_def, Nat.add_assoc]

/-- A read starts with the cell at its position. -/
theorem read_succ (n : ℕ) (f : ℕ → α) (off len : ℕ) :
    read n f off (len + 1) = f (off % n) :: read n f (off + 1) len := by
  rw [Nat.add_comm len 1, read_add]
  simp [read]

/-- Leaving out the first cells of a read is a read from a later position. -/
theorem drop_read (n : ℕ) (f : ℕ → α) (off len k : ℕ) :
    (read n f off len).drop k = read n f (off + k) (len - k) := by
  rcases Nat.le_total k len with hk | hk
  · obtain ⟨m, rfl⟩ := Nat.exists_eq_add_of_le hk
    rw [read_add, List.drop_left' (length_read n f off k), Nat.add_sub_cancel_left]
  · rw [List.drop_eq_nil_of_le (by simpa using hk), Nat.sub_eq_zero_of_le hk, read_zero]

/-- Two rings that agree on the cells of a block read the same there. -/
theorem read_congr {f g : ℕ → α} {off len : ℕ}
    (h : ∀ k < len, f ((off + k) % n) = g ((off + k) % n)) :
    read n f off len = read n g off len := by
  refine List.map_congr_left fun k hk => ?_
  exact h k (List.mem_range.mp hk)

/-- Positions less than a full turn apart name different cells. -/
theorem add_mod_inj {off j k : ℕ} (hj : j < n) (hk : k < n)
    (h : (off + j) % n = (off + k) % n) : j = k := by
  have hmod : j ≡ k [MOD n] := Nat.ModEq.add_left_cancel' off h
  rwa [Nat.ModEq, Nat.mod_eq_of_lt hj, Nat.mod_eq_of_lt hk] at hmod

/-- Going back from a cell to its distance from the start of the block. -/
theorem add_mod_sub_mod (hn : 0 < n) (off k : ℕ) (hk : k < n) :
    ((off + k) % n + (n - off % n)) % n = k := by
  have hoff := Nat.mod_lt off hn
  have hmod : (off + k) % n + (n - off % n) ≡ k [MOD n] := by
    calc (off + k) % n + (n - off % n)
        ≡ (off % n + k) + (n - off % n) [MOD n] := by
          apply Nat.ModEq.add_right _
          simp [Nat.ModEq]
      _ = k + n := by omega
      _ ≡ k [MOD n] := by simp [Nat.ModEq]
  rwa [Nat.ModEq, Nat.mod_eq_of_lt hk] at hmod

/-- Every cell of the ring is at some distance from the start of the block. -/
theorem exists_add_mod {off p : ℕ} (hp : p < n) :
    (off + (p + (n - off % n)) % n) % n = p := by
  have hoff := Nat.mod_lt off (Nat.zero_lt_of_lt hp)
  have hdiv := Nat.mod_add_div off n
  have hmod : off + (p + (n - off % n)) % n ≡ p [MOD n] := by
    calc off + (p + (n - off % n)) % n
        ≡ off % n + (p + (n - off % n)) [MOD n] := by simp [Nat.ModEq]
      _ = p + n := by omega
      _ ≡ p [MOD n] := by simp [Nat.ModEq]
  rwa [Nat.ModEq, Nat.mod_eq_of_lt hp] at hmod

/-- A write puts the `k`-th cell of the block at the `k`-th position. -/
theorem write_apply (f : ℕ → α) (off : ℕ) {src : List α} (hsrc : src.length ≤ n) {k : ℕ}
    (hk : k < src.length) : write n f off src ((off + k) % n) = src[k] := by
  have hn : 0 < n := by omega
  rw [write, if_pos (Nat.mod_lt _ hn), add_mod_sub_mod hn off k (by omega),
    List.getElem?_eq_getElem hk, Option.getD_some]

/-- A write leaves every cell that is not one of the block's. -/
theorem write_apply_of_ne (f : ℕ → α) {off p : ℕ} {src : List α}
    (h : ∀ k < src.length, (off + k) % n ≠ p) : write n f off src p = f p := by
  rw [write]
  split
  · rename_i hp
    have hlen : src.length ≤ (p + (n - off % n)) % n := by
      by_contra hlt
      exact h _ (by omega) (exists_add_mod hp)
    rw [List.getElem?_eq_none hlen, Option.getD_none]
  · rfl

/-- **Reading back.**  A block no longer than the ring is read back as it was written,
whether or not it wraps. -/
theorem read_write_self (f : ℕ → α) (off : ℕ) {src : List α} (hsrc : src.length ≤ n) :
    read n (write n f off src) off src.length = src := by
  refine List.ext_getElem (length_read ..) fun k hk hk' => ?_
  rw [getElem_read, write_apply f off hsrc hk']

/-- A write past the end of a block, and less than a turn ahead of its start, misses every
cell of the block. -/
theorem write_apply_of_le (f : ℕ → α) {off j off' : ℕ} {src : List α} (hj : off + j < off')
    (hend : off' + src.length ≤ off + n) :
    write n f off' src ((off + j) % n) = f ((off + j) % n) := by
  refine write_apply_of_ne f fun k hk hcell => ?_
  obtain ⟨i, rfl⟩ := Nat.exists_eq_add_of_le (Nat.le_of_lt hj)
  rw [show off + j + i + k = off + (j + i + k) by omega] at hcell
  have := add_mod_inj (by omega) (by omega) hcell
  omega

/-- Overwriting one cell of a block overwrites one element of what is read there. -/
theorem read_update (f : ℕ → α) {off len j : ℕ} (hj : j < len) (hlen : len ≤ n) (x : α) :
    read n (Function.update f ((off + j) % n) x) off len = (read n f off len).set j x := by
  refine List.ext_getElem (by simp) fun k hk hk' => ?_
  rw [length_read] at hk
  rw [getElem_read, List.getElem_set]
  split
  · rename_i hjk
    rw [hjk, Function.update_self]
  · rename_i hjk
    rw [Function.update_of_ne, getElem_read]
    intro hcell
    exact hjk (add_mod_inj (by omega) (by omega) hcell).symm

/-- Overwriting the cell after a block that leaves one free extends the block. -/
theorem read_update_succ (f : ℕ → α) (off : ℕ) {len : ℕ} (hlen : len < n) (x : α) :
    read n (Function.update f ((off + len) % n) x) off (len + 1) = read n f off len ++ [x] := by
  rw [read_update f (by omega : len < len + 1) hlen, read_add,
    List.set_append_right _ _ (by rw [length_read]), length_read, Nat.sub_self]
  rfl

/-- An offset counts modulo the size of the ring. -/
theorem write_mod (n : ℕ) (f : ℕ → α) (off : ℕ) (src : List α) :
    write n f (off % n) src = write n f off src := by
  funext p
  rw [write, write, Nat.mod_mod]

/-! ## Regions that follow each other -/

/-- The number of cells the regions cover. -/
def total (l : List (ℕ × ℕ)) : ℕ := (l.map Prod.snd).sum

/-- The regions `l`, given by offset and length, follow each other from position `pos`
on. -/
def Tiled (n : ℕ) : ℕ → List (ℕ × ℕ) → Prop
  | _, [] => True
  | pos, r :: l => r.1 = pos % n ∧ Tiled n (pos + r.2) l

@[simp] theorem total_nil : total [] = 0 := rfl

@[simp] theorem total_cons (r : ℕ × ℕ) (l : List (ℕ × ℕ)) : total (r :: l) = r.2 + total l := by
  simp [total]

@[simp] theorem total_append (l l' : List (ℕ × ℕ)) : total (l ++ l') = total l + total l' := by
  simp [total]

/-- The regions in front and those behind make up the total. -/
theorem total_take_add_drop (l : List (ℕ × ℕ)) (k : ℕ) :
    total (l.take k) + total (l.drop k) = total l := by
  rw [← total_append, List.take_append_drop]

theorem total_take_succ {l : List (ℕ × ℕ)} {i : ℕ} (hi : i < l.length) :
    total (l.take (i + 1)) = total (l.take i) + l[i].2 := by
  rw [List.take_succ_eq_append_getElem hi, total_append, total_cons, total_nil, Nat.add_zero]

theorem total_take_mono (l : List (ℕ × ℕ)) {i j : ℕ} (h : i ≤ j) :
    total (l.take i) ≤ total (l.take j) := by
  have hsplit := total_take_add_drop (l.take j) i
  rw [List.take_take, Nat.min_eq_left h] at hsplit
  omega

/-- Tiling continues at the position a list of regions ends at. -/
theorem tiled_append {pos : ℕ} {l l' : List (ℕ × ℕ)} :
    Tiled n pos (l ++ l') ↔ Tiled n pos l ∧ Tiled n (pos + total l) l' := by
  induction l generalizing pos with
  | nil => simp [Tiled]
  | cons r l ih =>
      rw [List.cons_append, Tiled, Tiled, ih, total_cons, Nat.add_assoc, and_assoc]

/-- The position a tiling starts at matters only as a cell. -/
theorem tiled_mod {pos pos' : ℕ} {l : List (ℕ × ℕ)} (h : pos % n = pos' % n)
    (ht : Tiled n pos l) : Tiled n pos' l := by
  induction l generalizing pos pos' with
  | nil => trivial
  | cons r l ih =>
      refine ⟨ht.1.trans h, ih ?_ ht.2⟩
      rw [Nat.add_mod, h, ← Nat.add_mod]

/-- The regions after the first `k` are tiled from where those end. -/
theorem Tiled.drop {pos : ℕ} {l : List (ℕ × ℕ)} (h : Tiled n pos l) (k : ℕ) :
    Tiled n (pos + total (l.take k)) (l.drop k) := by
  rw [← List.take_append_drop k l, tiled_append] at h
  exact h.2

/-- The offset of the `k`-th region is where the regions before it end. -/
theorem Tiled.offset_eq {pos : ℕ} {l : List (ℕ × ℕ)} (h : Tiled n pos l) {k : ℕ}
    (hk : k < l.length) : l[k].1 = (pos + total (l.take k)) % n := by
  have hdrop := h.drop k
  rw [List.drop_eq_getElem_cons hk] at hdrop
  exact hdrop.1

/-- **A write behind the last region keeps them all**, as long as it ends before the
first one starts again. -/
theorem Tiled.write_apply {pos : ℕ} {l : List (ℕ × ℕ)} (h : Tiled n pos l) (f : ℕ → α)
    {c : ℕ} {src : List α} (hc : total l ≤ c) (hend : c + src.length ≤ n) :
    ∀ r ∈ l, ∀ j < r.2,
      write n f (pos + c) src ((r.1 + j) % n) = f ((r.1 + j) % n) := by
  induction l generalizing pos c with
  | nil => simp
  | cons r l ih =>
      rw [total_cons] at hc
      intro r' hr' j hj
      rcases List.mem_cons.mp hr' with rfl | hmem
      · rw [h.1, Nat.mod_add_mod]
        exact write_apply_of_le f (by omega) (by omega)
      · have := ih h.2 (c := c - r.2) (by omega) (by omega) r' hmem j hj
        rwa [show pos + r.2 + (c - r.2) = pos + c by omega] at this

/-- **A write into one region keeps the others**, as long as it ends where the region does and
the regions do not run into each other. -/
theorem Tiled.write_region {pos : ℕ} {l : List (ℕ × ℕ)} (h : Tiled n pos l) (f : ℕ → α)
    (hle : total l ≤ n) {i j : ℕ} (hi : i < l.length) (hj : j < l.length) (hne : i ≠ j)
    {src : List α} (hsrc : src.length ≤ l[i].2) :
    ∀ x < l[j].2, write n f l[i].1 src ((l[j].1 + x) % n) = f ((l[j].1 + x) % n) := by
  intro x hx
  have hend : ∀ k < l.length, total (l.take (k + 1)) ≤ total l := by
    intro k _
    have := total_take_add_drop l (k + 1)
    omega
  have hiend := hend i hi
  have hjend := hend j hj
  have hisucc := total_take_succ hi
  have hjsucc := total_take_succ hj
  refine write_apply_of_ne f fun k hk hcell => ?_
  rw [h.offset_eq hi, h.offset_eq hj, Nat.mod_add_mod, Nat.mod_add_mod, Nat.add_assoc,
    Nat.add_assoc] at hcell
  have hsame := add_mod_inj (by omega) (by omega) hcell
  -- the earlier region ends before the later one starts
  rcases Nat.lt_or_gt_of_ne hne with hlt | hgt
  · have := total_take_mono l (show i + 1 ≤ j from hlt)
    omega
  · have := total_take_mono l (show j + 1 ≤ i from hgt)
    omega

end RingBuffer

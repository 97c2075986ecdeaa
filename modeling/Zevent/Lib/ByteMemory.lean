/-
# Words in a byte memory

A memory is a function from addresses to bytes.  `load` reads a little-endian word of some
width and `store` writes one; a word read where it was written is the one that was written,
and a write is not seen by a read of addresses it does not touch.
-/
import Mathlib.Data.UInt
import Mathlib.Tactic

namespace ByteMemory

/-- The little-endian word of `width` bytes at an address. -/
def load (mem : ℕ → UInt8) : ℕ → ℕ → ℕ
  | 0, _ => 0
  | width + 1, addr => (mem addr).toNat + 256 * load mem width (addr + 1)

/-- Write a little-endian word of `width` bytes at an address. -/
def store (mem : ℕ → UInt8) (width addr value : ℕ) : ℕ → UInt8 := fun p =>
  if addr ≤ p ∧ p < addr + width then UInt8.ofNat (value / 256 ^ (p - addr)) else mem p

variable {mem mem' : ℕ → UInt8}

theorem store_of_lt {width addr value p : ℕ} (h : p < addr) :
    store mem width addr value p = mem p :=
  if_neg (by omega)

theorem store_of_le {width addr value p : ℕ} (h : addr + width ≤ p) :
    store mem width addr value p = mem p :=
  if_neg (by omega)

/-- A load depends on the bytes of the word only. -/
theorem load_congr {width addr : ℕ} (h : ∀ p, addr ≤ p → p < addr + width → mem p = mem' p) :
    load mem width addr = load mem' width addr := by
  induction width generalizing addr with
  | zero => rfl
  | succ width ih =>
      rw [load, load, h addr le_rfl (by omega)]
      rw [ih fun p hp hp' => h p (by omega) (by omega)]

/-- A store elsewhere is not seen. -/
theorem load_store_of_apart {width addr width' addr' value : ℕ}
    (h : addr + width ≤ addr' ∨ addr' + width' ≤ addr) :
    load (store mem width' addr' value) width addr = load mem width addr := by
  apply load_congr
  intro p hp hp'
  rcases h with h | h
  · exact store_of_lt (by omega)
  · exact store_of_le (by omega)

/-- **A word read where it was written is the word that was written.** -/
theorem load_store (mem : ℕ → UInt8) (width addr value : ℕ) :
    load (store mem width addr value) width addr = value % 256 ^ width := by
  -- read the last `k` bytes of the word: they hold the quotient by the bytes before them
  suffices hsuffix : ∀ k j, j + k = width →
      load (store mem width addr value) k (addr + j) = value / 256 ^ j % 256 ^ k by
    simpa using hsuffix width 0 (by omega)
  intro k
  induction k with
  | zero =>
      intro j _
      rw [load, pow_zero, Nat.mod_one]
  | succ k ih =>
      intro j hj
      have hbyte : (store mem width addr value (addr + j)).toNat = value / 256 ^ j % 256 := by
        rw [store, if_pos (by omega), Nat.add_sub_cancel_left, UInt8.toNat_ofNat']
      rw [load, hbyte, Nat.add_assoc, ih (j + 1) (by omega), pow_succ 256 j,
        ← Nat.div_div_eq_div_mul, pow_succ', Nat.mod_mul]

/-- A word of zero bytes is zero. -/
theorem load_eq_zero {width addr : ℕ} (h : ∀ p, addr ≤ p → p < addr + width → mem p = 0) :
    load mem width addr = 0 := by
  induction width generalizing addr with
  | zero => rfl
  | succ width ih =>
      rw [load, h addr le_rfl (by omega), ih fun p hp hp' => h p (by omega) (by omega)]
      rfl

end ByteMemory

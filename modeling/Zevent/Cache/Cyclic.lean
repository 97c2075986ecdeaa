/-
# Cyclic-buffer arithmetic and copies (`zcache_shmcb.c`)

`shmcb_cyclic_increment`, `shmcb_cyclic_space` and the two ring copies, as the source
computes them, and what each of them is in terms of `RingBuffer`.
-/
import Zevent.Lib.Ring
import Zevent.Cache.Segment

namespace Zevent.Cache

open RingBuffer

/-! ## Positions -/

/-- The `while` loop of `shmcb_cyclic_increment`. -/
def cyclicReduce (bufSize : ℕ) : ℕ → ℕ → ℕ
  | 0, pos => pos
  | fuel + 1, pos =>
      if pos ≥ bufSize then cyclicReduce bufSize fuel (pos - bufSize) else pos

/-- `shmcb_cyclic_increment`.  The loop is given as many rounds as the position it starts
from, which is enough for every buffer of at least one cell. -/
def shmcbCyclicIncrement (bufSize startPos toAdd : ℕ) : ℕ :=
  cyclicReduce bufSize (u32 (startPos + toAdd)) (u32 (startPos + toAdd))

/-- `shmcb_cyclic_space`. -/
def shmcbCyclicSpace (bufSize startOffset nextOffset : ℕ) : ℕ :=
  if startOffset ≤ nextOffset then nextOffset - startOffset
  else u32 (bufSize - startOffset + nextOffset)

theorem cyclicReduce_eq_mod {bufSize : ℕ} (hbuf : 0 < bufSize) {fuel pos : ℕ}
    (hfuel : pos ≤ fuel) : cyclicReduce bufSize fuel pos = pos % bufSize := by
  induction fuel generalizing pos with
  | zero =>
      obtain rfl : pos = 0 := by omega
      rw [cyclicReduce, Nat.zero_mod]
  | succ fuel ih =>
      rw [cyclicReduce]
      split
      · rename_i hge
        rw [ih (by omega), Nat.mod_eq_sub_mod hge]
      · rename_i hlt
        rw [Nat.mod_eq_of_lt (by omega)]

/-- An increment whose sum does not wrap is addition modulo the buffer size. -/
theorem shmcbCyclicIncrement_eq {bufSize startPos toAdd : ℕ} (hbuf : 0 < bufSize)
    (hsum : startPos + toAdd < 4294967296) :
    shmcbCyclicIncrement bufSize startPos toAdd = (startPos + toAdd) % bufSize := by
  have hu : u32 ((startPos : ℤ) + toAdd) = startPos + toAdd := u32_eq (by push_cast; rfl) hsum
  rw [shmcbCyclicIncrement, hu, cyclicReduce_eq_mod hbuf le_rfl]

/-- The space between a position and the one `s` cells on is `s`, short of a full turn; at
a full turn the two positions are the same and the space is zero. -/
theorem shmcbCyclicSpace_add {bufSize start s : ℕ} (hbuf : bufSize < 4294967296)
    (hstart : start < bufSize) (hs : s ≤ bufSize) :
    shmcbCyclicSpace bufSize start ((start + s) % bufSize) = s % bufSize := by
  rcases Nat.lt_or_ge (start + s) bufSize with hlt | hge
  · rw [Nat.mod_eq_of_lt hlt, shmcbCyclicSpace, if_pos (by omega), Nat.mod_eq_of_lt (by omega)]
    omega
  · rw [Nat.mod_eq_sub_mod hge, Nat.mod_eq_of_lt (by omega : start + s - bufSize < bufSize),
      shmcbCyclicSpace]
    rcases Nat.lt_or_ge s bufSize with hs' | hs'
    · rw [if_neg (by omega), Nat.mod_eq_of_lt hs']
      exact u32_eq (by omega) (by omega)
    · obtain rfl : s = bufSize := by omega
      rw [if_pos (by omega), Nat.mod_self]
      omega

/-! ## Copies -/

/-- `memcpy(data + dest, src, len)` into a block of memory. -/
def memcpyIn (data : ℕ → UInt8) (dest : ℕ) (src : List UInt8) (len : ℕ) : ℕ → UInt8 := fun p =>
  if dest ≤ p ∧ p < dest + len then src.getD (p - dest) 0 else data p

/-- The bytes `memcpy(dest, data + off, len)` copies. -/
def memcpyOut (data : ℕ → UInt8) (off len : ℕ) : List UInt8 :=
  (List.range len).map fun k => data (off + k)

/-- `shmcb_cyclic_ntoc_memcpy`. -/
def shmcbCyclicNtocMemcpy (bufSize : ℕ) (data : ℕ → UInt8) (destOffset : ℕ)
    (src : List UInt8) (srcLen : ℕ) : ℕ → UInt8 :=
  let srcLen := if srcLen > bufSize then bufSize else srcLen
  if u32 (destOffset + srcLen) < bufSize then memcpyIn data destOffset src srcLen
  else
    let data := memcpyIn data destOffset src (u32 (bufSize - destOffset))
    memcpyIn data 0 (src.drop (u32 (bufSize - destOffset))) (u32 (srcLen + destOffset - bufSize))

/-- `shmcb_cyclic_cton_memcpy`: the bytes it copies to `dest`. -/
def shmcbCyclicCtonMemcpy (bufSize : ℕ) (data : ℕ → UInt8) (srcOffset srcLen : ℕ) :
    List UInt8 :=
  let srcLen := if srcLen > bufSize then bufSize else srcLen
  if u32 (srcOffset + srcLen) < bufSize then memcpyOut data srcOffset srcLen
  else memcpyOut data srcOffset (u32 (bufSize - srcOffset))
    ++ memcpyOut data 0 (u32 (srcLen + srcOffset - bufSize))

/-- A copy of bytes that exist, cell by cell. -/
theorem memcpyIn_apply (data : ℕ → UInt8) {dest len : ℕ} {src : List UInt8}
    (hlen : len ≤ src.length) (p : ℕ) :
    memcpyIn data dest src len p
      = if dest ≤ p ∧ p < dest + len then (src[p - dest]?).getD (data p) else data p := by
  rw [memcpyIn]
  split
  · rw [List.getD_eq_getElem?_getD, List.getElem?_eq_getElem (by omega), Option.getD_some,
      Option.getD_some]
  · rfl

/-- **The copy into the ring is a ring write.** -/
theorem shmcbCyclicNtocMemcpy_eq {bufSize destOffset : ℕ} (data : ℕ → UInt8)
    {src : List UInt8} (hbuf : bufSize < 2147483648) (hdest : destOffset < bufSize)
    (hsrc : src.length ≤ bufSize) :
    shmcbCyclicNtocMemcpy bufSize data destOffset src src.length
      = write bufSize data destOffset src := by
  have hsum : u32 ((destOffset : ℤ) + src.length) = destOffset + src.length :=
    u32_eq (by push_cast; rfl) (by omega)
  have hfirst : u32 ((bufSize : ℤ) - destOffset) = bufSize - destOffset :=
    u32_eq (by omega) (by omega)
  simp only [shmcbCyclicNtocMemcpy, if_neg (Nat.not_lt.mpr hsrc), hsum, hfirst]
  funext p
  rw [write, Nat.mod_eq_of_lt hdest]
  rcases Nat.lt_or_ge (destOffset + src.length) bufSize with hone | htwo
  · rw [if_pos hone, memcpyIn_apply data le_rfl]
    split_ifs with hin hp
    · rw [show p + (bufSize - destOffset) = (p - destOffset) + bufSize by omega,
        Nat.add_mod_right, Nat.mod_eq_of_lt (by omega)]
    · omega
    · -- a cell before or after the block is at a distance of at least its length
      have hfar : src.length ≤ (p + (bufSize - destOffset)) % bufSize := by
        rcases Nat.lt_or_ge p destOffset with hbefore | hafter
        · rw [Nat.mod_eq_of_lt (by omega)]
          omega
        · rw [show p + (bufSize - destOffset) = (p - destOffset) + bufSize by omega,
            Nat.add_mod_right, Nat.mod_eq_of_lt (by omega)]
          omega
      rw [List.getElem?_eq_none hfar, Option.getD_none]
    · rfl
  · have hlast : u32 ((src.length : ℤ) + destOffset - bufSize)
        = src.length + destOffset - bufSize := u32_eq (by omega) (by omega)
    rw [if_neg (by omega), hlast, memcpyIn_apply _ (by rw [List.length_drop]; omega),
      memcpyIn_apply data (by omega)]
    rcases Nat.lt_or_ge p destOffset with hbefore | hafter
    · rw [if_pos (by omega : p < bufSize), if_neg (by omega : ¬ (destOffset ≤ p ∧ _)),
        Nat.mod_eq_of_lt (by omega : p + (bufSize - destOffset) < bufSize), List.getElem?_drop,
        show bufSize - destOffset + (p - 0) = p + (bufSize - destOffset) by omega]
      split_ifs with hin
      · rfl
      · rw [List.getElem?_eq_none (by omega), Option.getD_none]
    · rw [if_neg (by omega : ¬ (0 ≤ p ∧ _))]
      split_ifs with hin hp hp
      · rw [show p + (bufSize - destOffset) = (p - destOffset) + bufSize by omega,
          Nat.add_mod_right, Nat.mod_eq_of_lt (by omega)]
      · omega
      · omega
      · rfl

/-- **The copy out of the ring is a ring read.** -/
theorem shmcbCyclicCtonMemcpy_eq {bufSize srcOffset srcLen : ℕ} (data : ℕ → UInt8)
    (hbuf : bufSize < 2147483648) (hsrc : srcOffset < bufSize) (hlen : srcLen ≤ bufSize) :
    shmcbCyclicCtonMemcpy bufSize data srcOffset srcLen
      = read bufSize data srcOffset srcLen := by
  have hsum : u32 ((srcOffset : ℤ) + srcLen) = srcOffset + srcLen :=
    u32_eq (by push_cast; rfl) (by omega)
  simp only [shmcbCyclicCtonMemcpy, if_neg (Nat.not_lt.mpr hlen), hsum]
  split
  · refine List.map_congr_left fun k hk => ?_
    have := List.mem_range.mp hk
    rw [Nat.mod_eq_of_lt (by omega)]
  · have hfirst : u32 ((bufSize : ℤ) - srcOffset) = bufSize - srcOffset :=
      u32_eq (by omega) (by omega)
    have hlast : u32 ((srcLen : ℤ) + srcOffset - bufSize) = srcLen + srcOffset - bufSize :=
      u32_eq (by omega) (by omega)
    rw [hfirst, hlast]
    -- split the read where the ring wraps
    conv_rhs =>
      rw [show srcLen = (bufSize - srcOffset) + (srcLen + srcOffset - bufSize) by omega, read_add,
        show srcOffset + (bufSize - srcOffset) = bufSize by omega]
    congr 1
    · refine List.map_congr_left fun k hk => ?_
      have := List.mem_range.mp hk
      rw [Nat.mod_eq_of_lt (by omega)]
    · refine List.map_congr_left fun k hk => ?_
      have := List.mem_range.mp hk
      rw [Nat.zero_add, Nat.add_mod_left, Nat.mod_eq_of_lt (by omega)]

/-- **Data copied into the ring is copied out again**, and no other cell is changed. -/
theorem shmcbCyclicMemcpy_inverse {bufSize offset : ℕ} (data : ℕ → UInt8) {src : List UInt8}
    (hbuf : bufSize < 2147483648) (hoff : offset < bufSize) (hsrc : src.length ≤ bufSize) :
    shmcbCyclicCtonMemcpy bufSize (shmcbCyclicNtocMemcpy bufSize data offset src src.length)
        offset src.length = src ∧
      (∀ (k : ℕ) (hk : k < src.length),
        shmcbCyclicNtocMemcpy bufSize data offset src src.length ((offset + k) % bufSize)
          = src[k]) ∧
      ∀ p, (∀ k < src.length, (offset + k) % bufSize ≠ p) →
        shmcbCyclicNtocMemcpy bufSize data offset src src.length p = data p := by
  rw [shmcbCyclicCtonMemcpy_eq _ hbuf hoff hsrc, shmcbCyclicNtocMemcpy_eq data hbuf hoff hsrc]
  exact ⟨read_write_self data offset hsrc, fun k hk => write_apply data offset hsrc hk,
    fun p hp => write_apply_of_ne data hp⟩

/-- Two bytes in the last cell and the first one of a ring of four. -/
theorem shmcbCyclicMemcpy_wraps :
    shmcbCyclicCtonMemcpy 4 (shmcbCyclicNtocMemcpy 4 (fun _ => 0) 3 [7, 8] 2) 3 2 = [7, 8] ∧
      shmcbCyclicNtocMemcpy 4 (fun _ => 0) 3 [7, 8] 2 1 = 0 := by
  have hcopy := @shmcbCyclicMemcpy_inverse 4 3 (fun _ => 0) [7, 8] (by decide) (by decide)
    (by decide)
  exact ⟨hcopy.1, hcopy.2.2 1 (by decide)⟩

end Zevent.Cache

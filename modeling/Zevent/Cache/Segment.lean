/-
# The shared-memory cache segment (`zcache.h`, `zcache.c`, `zcache_shmcb.c`)

The records of the cyclic-buffer cache and the layout `shmcb_init_memory` computes.

The segment is a header followed by divisions.  A division is a queue, a ring of
`index_num` index entries of which `pos_count` are in use from `first_pos` on, and a
cache, a ring of `cache_data_size` bytes of the same form.  `Division` has the two rings
side by side: the memory image (where the queue's last entry ends and the cache's first
word begins) is not represented, and the pointers of `SHMCBQueue` and `SHMCBCache` are
the fields themselves.

`unsigned int` values are natural numbers; `u32` and `i32` are the conversions to
`unsigned int` and `int`, written out wherever the source's arithmetic can wrap.
-/
import Mathlib.Tactic

namespace Zevent.Cache

/-! ## Machine integers -/

/-- Conversion to `unsigned int`. -/
def u32 (x : ℤ) : ℕ := (x % 4294967296).toNat

/-- Conversion to `int`. -/
def i32 (x : ℤ) : ℤ := (x + 2147483648) % 4294967296 - 2147483648

theorem u32_eq {x : ℤ} {k : ℕ} (h : x = k) (hk : k < 4294967296) : u32 x = k := by
  rw [u32]
  omega

theorem u32_lt (x : ℤ) : u32 x < 4294967296 := by
  rw [u32]
  omega

/-! ## The hash of an id -/

/-- The three words `HASH_MIX` mixes. -/
structure HashState where
  a : UInt32
  b : UInt32
  c : UInt32

/-- One line `x -= y; x -= z; x ^= w` of `HASH_MIX`. -/
def hashMixLine (x y z w : UInt32) : UInt32 := (x - y - z) ^^^ w

/-- `HASH_MIX`. -/
def hashMix (s : HashState) : HashState :=
  let a := hashMixLine s.a s.b s.c (s.c >>> 13)
  let b := hashMixLine s.b s.c a (a <<< 8)
  let c := hashMixLine s.c a b (b >>> 13)
  let a := hashMixLine a b c (c >>> 12)
  let b := hashMixLine b c a (a <<< 16)
  let c := hashMixLine c a b (b >>> 5)
  let a := hashMixLine a b c (c >>> 3)
  let b := hashMixLine b c a (a <<< 10)
  let c := hashMixLine c a b (b >>> 15)
  ⟨a, b, c⟩

/-- A byte of the key moved to its place in a word. -/
def keyByte (x : UInt8) (shift : UInt32) : UInt32 := x.toUInt32 <<< shift

/-- The `for` loop of `hash`: twelve bytes at a time.  The result is the state and the
bytes that are left. -/
def hashBlocks (s : HashState) : List UInt8 → HashState × List UInt8
  | k₀ :: k₁ :: k₂ :: k₃ :: k₄ :: k₅ :: k₆ :: k₇ :: k₈ :: k₉ :: k₁₀ :: k₁₁ :: rest =>
      hashBlocks
        (hashMix
          { a := s.a + (keyByte k₀ 0 + keyByte k₁ 8 + keyByte k₂ 16 + keyByte k₃ 24)
            b := s.b + (keyByte k₄ 0 + keyByte k₅ 8 + keyByte k₆ 16 + keyByte k₇ 24)
            c := s.c + (keyByte k₈ 0 + keyByte k₉ 8 + keyByte k₁₀ 16 + keyByte k₁₁ 24) })
        rest
  | rest => (s, rest)

/-- The falling-through `switch` of `hash` on the bytes that are left: bytes 0 to 3 go to
`a`, 4 to 7 to `b`, and 8 to 10 to `c`, whose low byte is kept for the length. -/
def hashTail (s : HashState) (rest : List UInt8) : HashState :=
  let at' (i : ℕ) (shift : UInt32) : UInt32 := keyByte (rest.getD i 0) shift
  { a := s.a + at' 0 0 + at' 1 8 + at' 2 16 + at' 3 24
    b := s.b + at' 4 0 + at' 5 8 + at' 6 16 + at' 7 24
    c := s.c + at' 8 8 + at' 9 16 + at' 10 24 }

/-- `hash`. -/
def hash (key : List UInt8) (initVal : UInt32) : UInt32 :=
  let (s, rest) := hashBlocks ⟨0x9e3779b9, 0x9e3779b9, initVal⟩ key
  (hashMix (hashTail { s with c := s.c + UInt32.ofNat key.length } rest)).c

/-! ## Header, index entries and divisions -/

/-- `SHMCBHeader`.  The statistics counters are unbounded here. -/
structure SHMCBHeader where
  numStores : ℕ
  numExpiries : ℕ
  numScrolled : ℕ
  numRetrievesHit : ℕ
  numRetrievesMiss : ℕ
  numRemovesHit : ℕ
  numRemovesMiss : ℕ
  divisionOffset : ℕ
  divisionSize : ℕ
  queueSize : ℕ
  cacheDataOffset : ℕ
  cacheDataSize : ℕ
  divisionMask : ℕ
  indexNum : ℕ
  indexOffset : ℕ
  indexSize : ℕ
deriving DecidableEq, Repr

/-- `SHMCBIndex`. -/
structure SHMCBIndex where
  expires : ℤ
  offset : ℕ
  length : ℕ
  key : UInt32
  removed : Bool
deriving DecidableEq, Repr

/-- One division: `SHMCBQueue` and `SHMCBCache` with what they point at. -/
structure Division where
  queueFirst : ℕ
  queueCount : ℕ
  indexes : ℕ → SHMCBIndex
  cacheFirst : ℕ
  cacheCount : ℕ
  data : ℕ → UInt8

/-- A header with its divisions. -/
structure Segment where
  header : SHMCBHeader
  division : ℕ → Division

/-! ## The layout -/

/-- `sizeof(SHMCBHeader)`: seven `unsigned long` and nine `unsigned int`, padded to a
multiple of eight. -/
def sizeofHeader : ℕ := 96

/-- `sizeof(SHMCBIndex)`. -/
def sizeofIndex : ℕ := 24

/-- `sizeof(unsigned int)`. -/
def sizeofUInt : ℕ := 4

/-- The `while` loop of `shmcb_init_memory` that halves the granularity; `none` is the
division by zero it runs into when it halves 1.  The fuel counts the halvings of 256. -/
def granularityLoop (temp : ℕ) : ℕ → ℕ → Option ℕ
  | 0, _ => none
  | fuel + 1, granularity =>
      if granularity = 0 then none
      else if temp / granularity < 2 * granularity then
        granularityLoop temp fuel (granularity / 2)
      else some granularity

/-- The header `shmcb_init_memory` writes; the counters are whatever the memory held.
`none` is the division by zero, `some none` the return value `FALSE`. -/
def shmcbInitHeader (old : SHMCBHeader) (shmMemSize : ℕ) : Option (Option SHMCBHeader) :=
  if shmMemSize < 2 * sizeofHeader then some none
  else
    let indexes := (shmMemSize - sizeofHeader) / 120
    (granularityLoop indexes 10 256).map fun granularity =>
      let indexNum := indexes / granularity
      if indexNum < 5 then none
      else
        let queueSize := u32 (2 * sizeofUInt + indexNum * sizeofIndex)
        let divisionSize := u32 (shmMemSize - sizeofHeader) / granularity
        some { old with
          divisionMask := (granularity - 1) % 256
          divisionOffset := sizeofHeader
          indexNum := indexNum
          indexOffset := 2 * sizeofUInt
          indexSize := sizeofIndex
          queueSize := queueSize
          divisionSize := divisionSize
          cacheDataOffset := 2 * sizeofUInt
          cacheDataSize := u32 (divisionSize - queueSize - (2 * sizeofUInt : ℕ)) }

/-- The layout the operations rely on: both rings have room, the data ring is shorter than
`2^31` bytes, and the queue (its two positions and `index_num` entries) is an object of
less than `2^32` bytes. -/
structure SHMCBHeader.Geometry (h : SHMCBHeader) : Prop where
  indexNum_pos : 1 ≤ h.indexNum
  cacheDataSize_pos : 1 ≤ h.cacheDataSize
  cacheDataSize_lt : h.cacheDataSize < 2147483648
  queueSize_eq : h.queueSize = 2 * sizeofUInt + h.indexNum * sizeofIndex
  queueSize_lt : h.queueSize < 4294967296

/-- What every halving keeps holds of the divisor the loop stops at, and there are at least
twice as many entries in a division as there are divisions. -/
theorem granularityLoop_rule {temp fuel g₀ g : ℕ} {P : ℕ → Prop}
    (hP : ∀ g, temp / g < 2 * g → P g → P (g / 2)) (h₀ : P g₀)
    (h : granularityLoop temp fuel g₀ = some g) : P g ∧ 0 < g ∧ 2 * g ≤ temp / g := by
  induction fuel generalizing g₀ with
  | zero => exact absurd h (by simp [granularityLoop])
  | succ fuel ih =>
      rw [granularityLoop] at h
      split_ifs at h with hzero hmore
      · exact ih (hP g₀ hmore h₀) h
      · obtain rfl := Option.some.inj h
        exact ⟨h₀, by omega, by omega⟩

/-- It is no greater than the one the loop starts at. -/
theorem granularityLoop_spec {temp fuel g₀ g : ℕ} (h : granularityLoop temp fuel g₀ = some g) :
    0 < g ∧ g ≤ g₀ ∧ 2 * g ≤ temp / g := by
  obtain ⟨hle, hpos, hg⟩ := granularityLoop_rule (P := (· ≤ g₀))
    (fun g _ hle => (Nat.div_le_self g 2).trans hle) le_rfl h
  exact ⟨hpos, hle, hg⟩

/-- A loop that halves down to `2^k` has run past every larger power of two. -/
theorem granularityLoop_lower {temp fuel g₀ g : ℕ} (h : granularityLoop temp fuel g₀ = some g) :
    g = g₀ ∨ temp / (2 * g) < 2 * (2 * g) ∨ temp / (2 * g + 1) < 2 * (2 * g + 1) := by
  refine (granularityLoop_rule (P := fun g => g = g₀ ∨ temp / (2 * g) < 2 * (2 * g)
    ∨ temp / (2 * g + 1) < 2 * (2 * g + 1)) (fun g hmore _ => .inr ?_) (.inl rfl) h).1
  rcases Nat.even_or_odd' g with ⟨k, rfl | rfl⟩
  · left
    rwa [Nat.mul_div_cancel_left k (by omega)]
  · right
    rwa [show (2 * k + 1) / 2 = k by omega]

/-- A division of a segment of less than `2^32` bytes is shorter than `2^31` bytes: a
single division is chosen only for a small segment. -/
theorem division_lt {m g : ℕ} (h : granularityLoop (m / 120) 10 256 = some g)
    (hm : m < 4294967296) : m / g < 2147483648 := by
  obtain ⟨hpos, -, -⟩ := granularityLoop_spec h
  rcases Nat.lt_or_ge g 2 with hg | hg
  · obtain rfl : g = 1 := by omega
    rcases granularityLoop_lower h with h1 | h2 | h3 <;> omega
  · calc m / g ≤ m / 2 := Nat.div_le_div_left hg (by omega)
      _ < 2147483648 := by omega

/-- **What `shmcb_init_memory` chooses for a segment it accepts.**  The entries take a fifth
of a division, so none of its products and subtractions wraps. -/
theorem shmcbInitHeader_spec {old h : SHMCBHeader} {shmMemSize : ℕ}
    (hsize : shmMemSize < 4294967296) (hinit : shmcbInitHeader old shmMemSize = some (some h)) :
    ∃ g, granularityLoop ((shmMemSize - sizeofHeader) / 120) 10 256 = some g
      ∧ 2 * sizeofHeader ≤ shmMemSize
      ∧ h = { old with
          divisionMask := (g - 1) % 256
          divisionOffset := sizeofHeader
          indexNum := (shmMemSize - sizeofHeader) / g / 120
          indexOffset := 2 * sizeofUInt
          indexSize := sizeofIndex
          queueSize := 2 * sizeofUInt + (shmMemSize - sizeofHeader) / g / 120 * sizeofIndex
          divisionSize := (shmMemSize - sizeofHeader) / g
          cacheDataOffset := 2 * sizeofUInt
          cacheDataSize := (shmMemSize - sizeofHeader) / g
            - (2 * sizeofUInt + (shmMemSize - sizeofHeader) / g / 120 * sizeofIndex)
            - 2 * sizeofUInt }
      ∧ 5 ≤ (shmMemSize - sizeofHeader) / g / 120
      ∧ (shmMemSize - sizeofHeader) / g < 2147483648 := by
  rw [shmcbInitHeader] at hinit
  split_ifs at hinit with hsmall
  · simp at hinit
  rw [Option.map_eq_some_iff] at hinit
  obtain ⟨g, hg, hinit⟩ := hinit
  simp only at hinit
  split_ifs at hinit with hfew
  have hm : u32 ((shmMemSize : ℤ) - sizeofHeader) = shmMemSize - sizeofHeader :=
    u32_eq (by simp only [sizeofHeader] at *; omega) (by omega)
  have hdiv := division_lt hg (by omega)
  have hentries : (shmMemSize - sizeofHeader) / 120 / g
      = (shmMemSize - sizeofHeader) / g / 120 := by
    rw [Nat.div_div_eq_div_mul, Nat.div_div_eq_div_mul, Nat.mul_comm]
  rw [hentries] at hfew hinit
  rw [hm] at hinit
  refine ⟨g, hg, by omega, ?_, by omega, hdiv⟩
  generalize (shmMemSize - sizeofHeader) / g = size at *
  have hqueue : u32 (2 * (sizeofUInt : ℤ) + ((size / 120 : ℕ) : ℤ) * (sizeofIndex : ℤ))
      = 2 * sizeofUInt + size / 120 * sizeofIndex :=
    u32_eq (by push_cast; rfl) (by simp only [sizeofUInt, sizeofIndex]; omega)
  rw [hqueue] at hinit
  have hcache : u32 ((size : ℤ) - ((2 * sizeofUInt + size / 120 * sizeofIndex : ℕ) : ℤ)
        - ((2 * sizeofUInt : ℕ) : ℤ))
      = size - (2 * sizeofUInt + size / 120 * sizeofIndex) - 2 * sizeofUInt :=
    u32_eq (by simp only [sizeofUInt, sizeofIndex]; omega) (by omega)
  rw [hcache] at hinit
  exact (Option.some.inj hinit).symm

/-- **Every header `shmcb_init_memory` writes has the layout the operations rely on.** -/
theorem shmcbInitHeader_geometry {old h : SHMCBHeader} {shmMemSize : ℕ}
    (hsize : shmMemSize < 4294967296) (hinit : shmcbInitHeader old shmMemSize = some (some h)) :
    h.Geometry := by
  obtain ⟨g, -, -, rfl, hfew, hdiv⟩ := shmcbInitHeader_spec hsize hinit
  generalize (shmMemSize - sizeofHeader) / g = size at *
  constructor <;> simp only [sizeofUInt, sizeofIndex] <;> omega

end Zevent.Cache

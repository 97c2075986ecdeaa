/-
# The memory image of a segment and its initialisation (`zcache_shmcb.c`)

Here the segment is the bytes of the shared memory.  `shmcb_init_memory` chooses a layout,
writes it into the header and empties the divisions; the counters of the header and the
bytes it does not write keep what the memory held before.

* `Memory.segment` reads the header and the divisions back, as the other modules have them.
* `shmcbInitMemory_spec` says which bytes are written.
* The layout is sound for every size but those for which the halving loop divides by zero.
* The cache's `first_pos` is not among the words that are emptied: its assignment is the
  body of the `if` above it.
-/
import Zevent.Lib.ByteMemory
import Zevent.Cache.Integrity

namespace Zevent.Cache

open ByteMemory

/-! ## The memory image -/

/-- The bytes of the shared memory, from the start of the segment on. -/
abbrev Memory := ℕ → UInt8

/-- `sizeof(unsigned long)`. -/
def sizeofULong : ℕ := 8

/-- The header at the start of the segment: seven `unsigned long` counters, then nine
`unsigned int`. -/
def Memory.header (mem : Memory) : SHMCBHeader where
  numStores := load mem sizeofULong 0
  numExpiries := load mem sizeofULong 8
  numScrolled := load mem sizeofULong 16
  numRetrievesHit := load mem sizeofULong 24
  numRetrievesMiss := load mem sizeofULong 32
  numRemovesHit := load mem sizeofULong 40
  numRemovesMiss := load mem sizeofULong 48
  divisionOffset := load mem sizeofUInt 56
  divisionSize := load mem sizeofUInt 60
  queueSize := load mem sizeofUInt 64
  cacheDataOffset := load mem sizeofUInt 68
  cacheDataSize := load mem sizeofUInt 72
  divisionMask := load mem sizeofUInt 76
  indexNum := load mem sizeofUInt 80
  indexOffset := load mem sizeofUInt 84
  indexSize := load mem sizeofUInt 88

/-- The assignments of `shmcb_init_memory` to the header, in its order. -/
def Memory.setLayout (mem : Memory) (h : SHMCBHeader) : Memory :=
  let mem := store mem sizeofUInt 76 h.divisionMask
  let mem := store mem sizeofUInt 56 h.divisionOffset
  let mem := store mem sizeofUInt 80 h.indexNum
  let mem := store mem sizeofUInt 84 h.indexOffset
  let mem := store mem sizeofUInt 88 h.indexSize
  let mem := store mem sizeofUInt 64 h.queueSize
  let mem := store mem sizeofUInt 60 h.divisionSize
  let mem := store mem sizeofUInt 68 h.cacheDataOffset
  store mem sizeofUInt 72 h.cacheDataSize

/-- The pointers `shmcb_get_division` sets, as distances from the start of the segment. -/
structure DivisionPointers where
  queueFirst : ℕ
  queueCount : ℕ
  indexes : ℕ
  cacheFirst : ℕ
  cacheCount : ℕ
  data : ℕ

namespace SHMCBHeader

/-- Where the queue of a division starts; the product is an `unsigned int`. -/
def queueStart (h : SHMCBHeader) (idx : ℕ) : ℕ := h.divisionOffset + u32 (idx * h.divisionSize)

/-- Where the cache of a division starts. -/
def cacheStart (h : SHMCBHeader) (idx : ℕ) : ℕ := h.queueStart idx + h.queueSize

/-- The pointers into a division. -/
def pointers (h : SHMCBHeader) (idx : ℕ) : DivisionPointers where
  queueFirst := h.queueStart idx
  queueCount := h.queueStart idx + sizeofUInt
  indexes := h.queueStart idx + 2 * sizeofUInt
  cacheFirst := h.cacheStart idx
  cacheCount := h.cacheStart idx + sizeofUInt
  data := h.cacheStart idx + 2 * sizeofUInt

end SHMCBHeader

/-- `shmcb_get_division` on the memory image; `none` is the return value `FALSE`. -/
def divisionPointers (h : SHMCBHeader) (idx : ℕ) : Option DivisionPointers :=
  if idx > h.divisionMask then none else some (h.pointers idx)

/-- The index entry at an address. -/
def Memory.index (mem : Memory) (addr : ℕ) : SHMCBIndex where
  expires := (BitVec.ofNat 64 (load mem 8 addr)).toInt
  offset := load mem sizeofUInt (addr + 8)
  length := load mem sizeofUInt (addr + 12)
  key := UInt32.ofNat (load mem sizeofUInt (addr + 16))
  removed := mem (addr + 20) ≠ 0

/-- The division behind some pointers. -/
def Memory.division (mem : Memory) (p : DivisionPointers) : Division where
  queueFirst := load mem sizeofUInt p.queueFirst
  queueCount := load mem sizeofUInt p.queueCount
  indexes := fun k => mem.index (p.indexes + k * sizeofIndex)
  cacheFirst := load mem sizeofUInt p.cacheFirst
  cacheCount := load mem sizeofUInt p.cacheCount
  data := fun k => mem (p.data + k)

/-- The header and the divisions in the memory. -/
def Memory.segment (mem : Memory) : Segment where
  header := mem.header
  division := fun i => mem.division (mem.header.pointers i)

/-! ## The functions of the source -/

/-- The last three assignments of a round. -/
def Memory.emptyDivision (mem : Memory) (p : DivisionPointers) : Memory :=
  let mem := store mem sizeofUInt p.cacheCount 0
  let mem := store mem sizeofUInt p.queueFirst 0
  store mem sizeofUInt p.queueCount 0

/-- The loop of `shmcb_init_memory` over the divisions.  The assignment to the cache's
`first_pos` is the body of the `if`, so it is only made when `shmcb_get_division` fails, and
then through the pointers `queue` and `cache` hold from an earlier round; `none` is their
use while they hold nothing.  The first argument is the number of rounds that are left. -/
def initDivisions : ℕ → ℕ → Option DivisionPointers → Memory → Option Memory
  | 0, _, _, mem => some mem
  | rounds + 1, loop, cur, mem =>
      let found := divisionPointers mem.header loop
      (found <|> cur).bind fun p =>
        let mem : Memory := if found.isNone then store mem sizeofUInt p.cacheFirst 0 else mem
        initDivisions rounds (loop + 1) (some p) (mem.emptyDivision p)

/-- The granularity `shmcb_init_memory` chooses; `none` is the division by zero. -/
def initGranularity (shmMemSize : ℕ) : Option ℕ :=
  granularityLoop ((shmMemSize - sizeofHeader) / 120) 10 256

/-- `shmcb_init_memory`.  `none` is the division by zero or the use of an unset pointer,
`some none` the return value `FALSE`. -/
def shmcbInitMemory (mem : Memory) (shmMemSize : ℕ) : Option (Option Memory) :=
  (shmcbInitHeader mem.header shmMemSize).bind fun
    | none => some none
    | some h => (initGranularity shmMemSize).bind fun granularity =>
        (initDivisions granularity 0 none (mem.setLayout h)).map some

/-! ## The header in memory -/

section Header

variable {mem mem' : Memory} {h : SHMCBHeader}

/-- The header depends on its own bytes only. -/
theorem Memory.header_congr (hsame : ∀ p < sizeofHeader, mem p = mem' p) :
    mem.header = mem'.header := by
  have hload : ∀ width addr, addr + width ≤ sizeofHeader →
      load mem width addr = load mem' width addr :=
    fun width addr hle => load_congr fun p _ hp => hsame p (by omega)
  simp (disch := decide) only [header, hload]

/-- The header is read back as it was written, its counters as they were. -/
theorem Memory.header_setLayout :
    (mem.setLayout h).header = { mem.header with
      divisionOffset := h.divisionOffset % 4294967296
      divisionSize := h.divisionSize % 4294967296
      queueSize := h.queueSize % 4294967296
      cacheDataOffset := h.cacheDataOffset % 4294967296
      cacheDataSize := h.cacheDataSize % 4294967296
      divisionMask := h.divisionMask % 4294967296
      indexNum := h.indexNum % 4294967296
      indexOffset := h.indexOffset % 4294967296
      indexSize := h.indexSize % 4294967296 } := by
  simp (disch := decide) only [header, setLayout, load_store_of_apart]
  simp only [load_store]
  rfl

/-- Nothing is written behind the header. -/
theorem Memory.setLayout_of_le {p : ℕ} (hp : sizeofHeader ≤ p) : mem.setLayout h p = mem p := by
  rw [sizeofHeader] at hp
  simp (disch := (simp only [sizeofUInt]; omega)) only [setLayout, store_of_le]

end Header

/-! ## The loop over the divisions -/

/-- The bytes of a division a round sets to zero: the two words of the queue and the second
one of the cache. -/
def SHMCBHeader.Emptied (h : SHMCBHeader) (i p : ℕ) : Prop :=
  (h.queueStart i ≤ p ∧ p < h.queueStart i + 2 * sizeofUInt)
    ∨ (h.cacheStart i + sizeofUInt ≤ p ∧ p < h.cacheStart i + 2 * sizeofUInt)

/-- A round clears these bytes. -/
theorem Memory.emptyDivision_of_emptied {mem : Memory} {h : SHMCBHeader} {i p : ℕ}
    (hp : h.Emptied i p) : mem.emptyDivision (h.pointers i) p = 0 := by
  rw [SHMCBHeader.Emptied] at hp
  simp only [emptyDivision, SHMCBHeader.pointers, store, Nat.zero_div, sizeofUInt] at hp ⊢
  split_ifs <;> first | rfl | omega

/-- A round writes nothing else. -/
theorem Memory.emptyDivision_of_not_emptied {mem : Memory} {h : SHMCBHeader} {i p : ℕ}
    (hp : ¬ h.Emptied i p) : mem.emptyDivision (h.pointers i) p = mem p := by
  rw [SHMCBHeader.Emptied] at hp
  simp only [emptyDivision, SHMCBHeader.pointers, store, sizeofUInt] at hp ⊢
  rw [if_neg (by omega), if_neg (by omega), if_neg (by omega)]

/-- What is emptied lies behind the header. -/
theorem SHMCBHeader.Emptied.le {h : SHMCBHeader} {i p : ℕ} (hp : h.Emptied i p) :
    h.divisionOffset ≤ p := by
  rw [Emptied, cacheStart, queueStart] at hp
  omega

/-- **The loop empties the divisions it goes over and writes nothing else**, when the
divisions it goes over exist and lie behind the header. -/
theorem initDivisions_spec {h : SHMCBHeader} (hoffset : sizeofHeader ≤ h.divisionOffset)
    (rounds loop : ℕ) (cur : Option DivisionPointers) {mem : Memory} (hh : mem.header = h)
    (hmask : ∀ i, loop ≤ i → i < loop + rounds → i ≤ h.divisionMask) :
    ∃ mem', initDivisions rounds loop cur mem = some mem'
      ∧ (∀ i, loop ≤ i → i < loop + rounds → ∀ p, h.Emptied i p → mem' p = 0)
      ∧ ∀ p, (∀ i, loop ≤ i → i < loop + rounds → ¬ h.Emptied i p) → mem' p = mem p := by
  induction rounds generalizing loop cur mem with
  | zero => exact ⟨mem, rfl, fun i hi hi' => by omega, fun _ _ => rfl⟩
  | succ rounds ih =>
      have hfound : divisionPointers mem.header loop = some (h.pointers loop) := by
        rw [hh, divisionPointers, if_neg (Nat.not_lt.mpr (hmask loop le_rfl (by omega)))]
      have hround : initDivisions (rounds + 1) loop cur mem
          = initDivisions rounds (loop + 1) (some (h.pointers loop))
              (mem.emptyDivision (h.pointers loop)) := by
        rw [initDivisions, hfound]
        rfl
      have hh₁ : (mem.emptyDivision (h.pointers loop)).header = h := by
        rw [← hh]
        refine Memory.header_congr fun p hp => Memory.emptyDivision_of_not_emptied fun hemp => ?_
        have hle := hemp.le
        rw [hh] at hle
        omega
      obtain ⟨mem', heq, hempty, hframe⟩ := ih (loop + 1) (some (h.pointers loop)) hh₁
        fun i hi hi' => hmask i (by omega) (by omega)
      refine ⟨mem', hround.trans heq, fun i hi hi' p hp => ?_, fun p hp => ?_⟩
      · by_cases hlater : ∃ j, loop + 1 ≤ j ∧ j < loop + 1 + rounds ∧ h.Emptied j p
        · obtain ⟨j, hj, hj', hjp⟩ := hlater
          exact hempty j hj hj' p hjp
        · -- no later round writes the byte, so this one did
          rcases eq_or_ne i loop with rfl | hne
          · rw [hframe p fun j hj hj' hjp => hlater ⟨j, hj, hj', hjp⟩]
            exact Memory.emptyDivision_of_emptied hp
          · exact absurd ⟨i, by omega, by omega, hp⟩ hlater
      · rw [hframe p fun j hj hj' => hp j (by omega) (by omega)]
        exact Memory.emptyDivision_of_not_emptied (hp loop le_rfl (by omega))

/-! ## The layout that is chosen -/

/-- The header and the two parts of every division, in address order, each as its start and
its length. -/
def SHMCBHeader.blocks (h : SHMCBHeader) (divisions : ℕ) : List (ℕ × ℕ) :=
  (0, sizeofHeader) :: (List.range divisions).flatMap fun i =>
    [(h.queueStart i, h.queueSize), (h.cacheStart i, 2 * sizeofUInt + h.cacheDataSize)]

/-- A sound layout: there are a power of two divisions, as many as the mask says, a queue
holds at least five entries, the sizes are those of what a division consists of, none of
them wrapped, and the header, the queues and the caches lie in the segment one behind the
other. -/
structure SHMCBHeader.Sound (h : SHMCBHeader) (divisions shmMemSize : ℕ) : Prop where
  indexNum_ge : 5 ≤ h.indexNum
  cacheDataSize_pos : 0 < h.cacheDataSize
  queueSize_eq : h.queueSize = 2 * sizeofUInt + h.indexNum * sizeofIndex
  divisionSize_eq : h.queueSize + (2 * sizeofUInt + h.cacheDataSize) = h.divisionSize
  divisions_eq : divisions = h.divisionMask + 1
  power : ∃ k, divisions = 2 ^ k
  inside : ∀ b ∈ h.blocks divisions, b.1 + b.2 ≤ shmMemSize
  apart : (h.blocks divisions).Pairwise fun b b' => b.1 + b.2 ≤ b'.1

/-- The halving loop started at a power of two stops at a power of two. -/
theorem granularityLoop_power {temp fuel k g : ℕ}
    (h : granularityLoop temp fuel (2 ^ k) = some g) : ∃ j ≤ k, g = 2 ^ j := by
  have hhalf : ∀ g, (g = 0 ∨ ∃ j ≤ k, g = 2 ^ j) → g / 2 = 0 ∨ ∃ j ≤ k, g / 2 = 2 ^ j := by
    rintro _ (rfl | ⟨j, hj, rfl⟩)
    · exact .inl rfl
    · cases j with
      | zero => exact .inl rfl
      | succ j =>
          refine .inr ⟨j, by omega, ?_⟩
          rw [pow_succ, Nat.mul_div_cancel _ (by omega)]
  obtain ⟨hpower, hpos, -⟩ := granularityLoop_rule (P := fun g => g = 0 ∨ ∃ j ≤ k, g = 2 ^ j)
    (fun g _ => hhalf g) (.inr ⟨k, le_rfl, rfl⟩) h
  exact hpower.resolve_left (by omega)

/-- With fewer than two entries the loop halves the granularity down to zero. -/
theorem granularityLoop_eq_none {temp : ℕ} (htemp : temp < 2) (fuel g : ℕ) :
    granularityLoop temp fuel g = none := by
  induction fuel generalizing g with
  | zero => rfl
  | succ fuel ih =>
      rw [granularityLoop]
      split_ifs with hzero hmore
      · rfl
      · exact ih _
      · have hle := Nat.div_le_self temp g
        omega

/-- With two entries or more it stops at one division at the latest. -/
theorem granularityLoop_isSome {temp : ℕ} (htemp : 2 ≤ temp) (k : ℕ) {fuel : ℕ}
    (hfuel : k < fuel) : (granularityLoop temp fuel (2 ^ k)).isSome := by
  induction k generalizing fuel with
  | zero =>
      obtain ⟨fuel, rfl⟩ := Nat.exists_eq_add_of_lt hfuel
      rw [Nat.zero_add, granularityLoop, pow_zero, Nat.div_one, if_neg (by omega),
        if_neg (by omega)]
      rfl
  | succ k ih =>
      obtain ⟨fuel, rfl⟩ := Nat.exists_eq_add_of_le' (show 1 ≤ fuel by omega)
      rw [granularityLoop, if_neg (by positivity)]
      split_ifs with hmore
      · rw [pow_succ, Nat.mul_div_cancel _ (by omega)]
        exact ih (by omega)
      · rfl

/-- The granularity is found exactly when there are two entries to share out. -/
theorem initGranularity_isSome_iff {shmMemSize : ℕ} :
    (initGranularity shmMemSize).isSome ↔ 2 ≤ (shmMemSize - sizeofHeader) / 120 := by
  constructor
  · intro h
    by_contra hlt
    rw [initGranularity, granularityLoop_eq_none (by omega)] at h
    exact absurd h (by decide)
  · intro h
    exact granularityLoop_isSome h 8 (by decide)

/-- The sizes `shmcb_init_memory` chooses for `g` divisions. -/
structure SHMCBHeader.LaidOut (h : SHMCBHeader) (g shmMemSize : ℕ) : Prop where
  granularity : initGranularity shmMemSize = some g
  mask : h.divisionMask + 1 = g
  offset : h.divisionOffset = sizeofHeader
  indexNum_ge : 5 ≤ h.indexNum
  indexNum_le : 120 * h.indexNum ≤ h.divisionSize
  queueSize_eq : h.queueSize = 2 * sizeofUInt + h.indexNum * sizeofIndex
  divisionSize_eq : h.queueSize + (2 * sizeofUInt + h.cacheDataSize) = h.divisionSize
  cacheDataSize_pos : 0 < h.cacheDataSize
  share : g * h.divisionSize ≤ shmMemSize - sizeofHeader
  size_ge : 2 * sizeofHeader ≤ shmMemSize
  size_lt : shmMemSize < 4294967296

theorem shmcbInitHeader_laidOut {old h : SHMCBHeader} {shmMemSize : ℕ}
    (hsize : shmMemSize < 4294967296) (hinit : shmcbInitHeader old shmMemSize = some (some h)) :
    ∃ g, h.LaidOut g shmMemSize := by
  obtain ⟨g, hg, hmin, rfl, hfew, -⟩ := shmcbInitHeader_spec hsize hinit
  obtain ⟨hpos, hle, -⟩ := granularityLoop_spec hg
  have hshare : g * ((shmMemSize - sizeofHeader) / g) ≤ shmMemSize - sizeofHeader :=
    Nat.mul_div_le _ _
  refine ⟨g, hg, ?_, rfl, hfew, Nat.mul_div_le _ _, rfl, ?_, ?_, hshare, hmin, hsize⟩
  · simp only
    omega
  all_goals
    generalize (shmMemSize - sizeofHeader) / g = size at *
    simp only [sizeofUInt, sizeofIndex]
    omega

namespace SHMCBHeader.LaidOut

variable {h : SHMCBHeader} {g shmMemSize : ℕ}

/-- The divisions up to and including one lie in the segment. -/
theorem end_le (hl : h.LaidOut g shmMemSize) {i : ℕ} (hi : i < g) :
    sizeofHeader + (i + 1) * h.divisionSize ≤ shmMemSize := by
  have hmul : (i + 1) * h.divisionSize ≤ g * h.divisionSize := Nat.mul_le_mul_right _ hi
  have hshare := hl.share
  have hmin := hl.size_ge
  simp only [sizeofHeader] at *
  omega

/-- The product in `shmcb_get_division` does not wrap. -/
theorem queueStart_eq (hl : h.LaidOut g shmMemSize) {i : ℕ} (hi : i < g) :
    h.queueStart i = sizeofHeader + i * h.divisionSize := by
  have hend := hl.end_le hi
  have hlt := hl.size_lt
  rw [Nat.succ_mul] at hend
  rw [SHMCBHeader.queueStart, hl.offset, u32_eq (Nat.cast_mul _ _).symm (by omega)]

/-- A division ends where the next one starts, or before. -/
theorem cacheStart_add_le (hl : h.LaidOut g shmMemSize) {i j : ℕ} (hij : i < j) (hj : j < g) :
    h.cacheStart i + (2 * sizeofUInt + h.cacheDataSize) ≤ h.queueStart j := by
  have hmul : (i + 1) * h.divisionSize ≤ j * h.divisionSize := Nat.mul_le_mul_right _ hij
  have hdiv := hl.divisionSize_eq
  rw [Nat.succ_mul] at hmul
  rw [SHMCBHeader.cacheStart, hl.queueStart_eq (hij.trans hj), hl.queueStart_eq hj]
  omega

/-- **The sizes that are chosen make a sound layout.** -/
theorem sound (hl : h.LaidOut g shmMemSize) : h.Sound g shmMemSize where
  indexNum_ge := hl.indexNum_ge
  cacheDataSize_pos := hl.cacheDataSize_pos
  queueSize_eq := hl.queueSize_eq
  divisionSize_eq := hl.divisionSize_eq
  divisions_eq := hl.mask.symm
  power := by
    obtain ⟨j, -, hj⟩ := granularityLoop_power (k := 8) hl.granularity
    exact ⟨j, hj⟩
  inside := by
    intro b hb
    rw [SHMCBHeader.blocks, List.mem_cons] at hb
    rcases hb with rfl | hb
    · have hmin := hl.size_ge
      simp only
      omega
    · obtain ⟨i, hi, hb⟩ := List.mem_flatMap.mp hb
      rw [List.mem_range] at hi
      have hend := hl.end_le hi
      have hstart := hl.queueStart_eq hi
      have hdiv := hl.divisionSize_eq
      rw [Nat.succ_mul] at hend
      simp only [List.mem_cons, List.not_mem_nil, or_false] at hb
      rcases hb with rfl | rfl
      · simp only
        omega
      · simp only [SHMCBHeader.cacheStart]
        omega
  apart := by
    rw [SHMCBHeader.blocks, List.pairwise_cons]
    constructor
    · intro b hb
      obtain ⟨i, hi, hb⟩ := List.mem_flatMap.mp hb
      rw [List.mem_range] at hi
      have hstart := hl.queueStart_eq hi
      simp only [List.mem_cons, List.not_mem_nil, or_false] at hb
      rcases hb with rfl | rfl
      · simp only
        omega
      · simp only [SHMCBHeader.cacheStart]
        omega
    · rw [List.pairwise_flatMap]
      refine ⟨fun i _ => ?_, ?_⟩
      · -- within a division the cache follows the queue
        simp [SHMCBHeader.cacheStart]
      · refine List.pairwise_lt_range.imp_of_mem fun {i j} hi hj hij b hb b' hb' => ?_
        rw [List.mem_range] at hi hj
        have hnext := hl.cacheStart_add_le hij hj
        have hcache : h.cacheStart i = h.queueStart i + h.queueSize := rfl
        have hcache' : h.cacheStart j = h.queueStart j + h.queueSize := rfl
        simp only [List.mem_cons, List.not_mem_nil, or_false] at hb hb'
        rcases hb with rfl | rfl <;> rcases hb' with rfl | rfl <;> simp only <;> omega

end SHMCBHeader.LaidOut

/-! ## What the initialisation leaves in the memory -/

/-- **The initialisation of a segment that is accepted.**  The header has the layout and
the old counters, three words of every division are zero, and every other byte behind the
header is what it was. -/
theorem shmcbInitMemory_spec {mem : Memory} {shmMemSize : ℕ} {h : SHMCBHeader}
    (hsize : shmMemSize < 4294967296)
    (hinit : shmcbInitHeader mem.header shmMemSize = some (some h)) :
    ∃ g mem', h.LaidOut g shmMemSize ∧ shmcbInitMemory mem shmMemSize = some (some mem')
      ∧ mem'.header = h
      ∧ (∀ i < g, ∀ p, h.Emptied i p → mem' p = 0)
      ∧ ∀ p, sizeofHeader ≤ p → (∀ i < g, ¬ h.Emptied i p) → mem' p = mem p := by
  obtain ⟨g, hl⟩ := shmcbInitHeader_laidOut hsize hinit
  have hh : (mem.setLayout h).header = h := by
    obtain ⟨g', -, -, rfl, -, hlt⟩ := shmcbInitHeader_spec hsize hinit
    rw [Memory.header_setLayout]
    generalize (shmMemSize - sizeofHeader) / g' = size at *
    simp only [sizeofUInt, sizeofIndex, sizeofHeader]
    congr 1 <;> omega
  obtain ⟨mem', hrun, hempty, hframe⟩ := initDivisions_spec hl.offset.ge g 0 none hh
    fun i _ hi => by
      have hmask := hl.mask
      omega
  refine ⟨g, mem', hl, ?_, ?_, fun i hi => hempty i (Nat.zero_le _) (by omega),
    fun p hp hnot => ?_⟩
  · simp only [shmcbInitMemory, hinit, Option.bind_some, hl.granularity, hrun, Option.map_some]
  · rw [← hh]
    refine Memory.header_congr fun p hp => hframe p fun i _ _ hemp => ?_
    have hle := hemp.le
    have hoffset := hl.offset
    omega
  · rw [hframe p fun i _ hi => hnot i (by omega), Memory.setLayout_of_le hp]

/-! ## Soundness of the layout -/

/-- The initialisation of a segment of this size returns, and when it accepts the segment
the layout in the header is sound. -/
def InitSound (shmMemSize : ℕ) : Prop :=
  ∀ mem, ∃ r, shmcbInitMemory mem shmMemSize = some r
    ∧ ∀ mem', r = some mem' →
        ∃ g, initGranularity shmMemSize = some g ∧ mem'.header.Sound g shmMemSize

/-- The fewest bytes behind which two index entries are recommended. -/
def minimalSize : ℕ := sizeofHeader + 2 * 120

/-- Between the two bounds the granularity is halved to zero and divided by. -/
theorem shmcbInitMemory_eq_none {shmMemSize : ℕ} (mem : Memory)
    (hlow : 2 * sizeofHeader ≤ shmMemSize) (hhigh : shmMemSize < minimalSize) :
    shmcbInitMemory mem shmMemSize = none := by
  have hfew : (shmMemSize - sizeofHeader) / 120 < 2 := by
    simp only [minimalSize, sizeofHeader] at *
    omega
  rw [shmcbInitMemory, shmcbInitHeader, if_neg (Nat.not_lt.mpr hlow)]
  simp only
  rw [granularityLoop_eq_none hfew, Option.map_none, Option.bind_none]

/-- **Soundness of the layout.**  For a size of 32 bits the initialisation returns and makes
a sound layout exactly when the segment is smaller than two headers, and refused, or has
room for two entries behind the header: in between it divides by zero. -/
theorem layout_sound_iff {shmMemSize : ℕ} (hsize : shmMemSize < 4294967296) :
    InitSound shmMemSize ↔ shmMemSize < 2 * sizeofHeader ∨ minimalSize ≤ shmMemSize := by
  constructor
  · intro h
    by_contra hbetween
    rw [not_or, not_lt, not_le] at hbetween
    obtain ⟨r, hr, -⟩ := h fun _ => 0
    rw [shmcbInitMemory_eq_none _ hbetween.1 hbetween.2] at hr
    exact absurd hr (by simp)
  · intro h mem
    rcases hinit : shmcbInitHeader mem.header shmMemSize with _ | _ | hdr
    · -- the header computation only fails where the granularity does
      rw [shmcbInitHeader] at hinit
      split_ifs at hinit with hsmall
      rw [Option.map_eq_none_iff] at hinit
      have hsome : (initGranularity shmMemSize).isSome := by
        rw [initGranularity_isSome_iff]
        simp only [minimalSize, sizeofHeader] at *
        omega
      rw [initGranularity, hinit] at hsome
      exact absurd hsome (by decide)
    · exact ⟨none, by simp only [shmcbInitMemory, hinit, Option.bind_some], by simp⟩
    · obtain ⟨g, mem', hl, hrun, hh, -⟩ := shmcbInitMemory_spec hsize hinit
      refine ⟨some mem', hrun, fun mem'' heq => ⟨g, hl.granularity, ?_⟩⟩
      rw [← Option.some.inj heq, hh]
      exact hl.sound

/-- The layout of a segment of one megabyte. -/
theorem layout_sound_iff_megabyte : 1048576 < 4294967296 ∧ InitSound 1048576 :=
  ⟨by decide, (layout_sound_iff (by decide)).mpr (.inr (by decide))⟩

/-- A segment of 200 bytes passes the first test, and the initialisation divides by zero. -/
theorem layout_unsound_small : ¬ ∀ shmMemSize < 4294967296, InitSound shmMemSize := by
  intro h
  obtain ⟨r, hr, -⟩ := h 200 (by decide) fun _ => 0
  have hnone : shmcbInitMemory (fun _ => 0) 200 = none := by decide
  rw [hnone] at hr
  exact absurd hr (by simp)

/-! ## What is empty afterwards -/

/-- The statistics counters of a header. -/
def SHMCBHeader.counters (h : SHMCBHeader) : List ℕ :=
  [h.numStores, h.numExpiries, h.numScrolled, h.numRetrievesHit, h.numRetrievesMiss,
    h.numRemovesHit, h.numRemovesMiss]

/-- An empty cache: all positions of every division and all counters are zero. -/
structure Segment.Empty (s : Segment) : Prop where
  queueFirst : ∀ i ≤ s.header.divisionMask, (s.division i).queueFirst = 0
  queueCount : ∀ i ≤ s.header.divisionMask, (s.division i).queueCount = 0
  cacheFirst : ∀ i ≤ s.header.divisionMask, (s.division i).cacheFirst = 0
  cacheCount : ∀ i ≤ s.header.divisionMask, (s.division i).cacheCount = 0
  counters : ∀ c ∈ s.header.counters, c = 0

/-- Where the layout of a segment of some size, with `g` divisions, has the `first_pos` of a
division's cache. -/
def cacheFirstPos (shmMemSize g i : ℕ) : ℕ :=
  sizeofHeader + i * ((shmMemSize - sizeofHeader) / g)
    + (2 * sizeofUInt + (shmMemSize - sizeofHeader) / g / 120 * sizeofIndex)

/-- What the initialisation needs to find in the memory: the counters and the cache's
`first_pos` of every division are zero already. -/
structure Memory.Fresh (mem : Memory) (shmMemSize : ℕ) : Prop where
  counters : ∀ c ∈ mem.header.counters, c = 0
  cacheFirst : ∀ g, initGranularity shmMemSize = some g →
    ∀ i < g, load mem sizeofUInt (cacheFirstPos shmMemSize g i) = 0

/-- What `shmcb_init_memory` has done when it returns `TRUE`. -/
theorem shmcbInitMemory_accepts {mem mem' : Memory} {shmMemSize : ℕ}
    (hsize : shmMemSize < 4294967296) (h : shmcbInitMemory mem shmMemSize = some (some mem')) :
    shmcbInitHeader mem.header shmMemSize = some (some mem'.header)
      ∧ ∃ g, mem'.header.LaidOut g shmMemSize
      ∧ (∀ i < g, ∀ p, mem'.header.Emptied i p → mem' p = 0)
      ∧ ∀ p, sizeofHeader ≤ p → (∀ i < g, ¬ mem'.header.Emptied i p) → mem' p = mem p := by
  rcases hinit : shmcbInitHeader mem.header shmMemSize with _ | _ | hdr
  · simp [shmcbInitMemory, hinit] at h
  · simp [shmcbInitMemory, hinit] at h
  · obtain ⟨g, mem'', hl, hrun, rfl, hspec⟩ := shmcbInitMemory_spec hsize hinit
    rw [hrun, Option.some_inj, Option.some_inj] at h
    subst h
    exact ⟨rfl, g, hl, hspec⟩

section Emptied

variable {mem mem' : Memory} {shmMemSize g i : ℕ}

/-- The words of the queue and the second word of the cache are zero afterwards. -/
theorem load_emptied (hempty : ∀ i < g, ∀ p, mem'.header.Emptied i p → mem' p = 0) (hi : i < g) :
    load mem' sizeofUInt (mem'.header.pointers i).queueFirst = 0
      ∧ load mem' sizeofUInt (mem'.header.pointers i).queueCount = 0
      ∧ load mem' sizeofUInt (mem'.header.pointers i).cacheCount = 0 := by
  simp only [SHMCBHeader.pointers]
  refine ⟨load_eq_zero fun p hp hp' => hempty i hi p (.inl ?_),
    load_eq_zero fun p hp hp' => hempty i hi p (.inl ?_),
    load_eq_zero fun p hp hp' => hempty i hi p (.inr ?_)⟩ <;> omega

/-- The first word of the cache is what it was. -/
theorem load_cacheFirst (hl : mem'.header.LaidOut g shmMemSize)
    (hframe : ∀ p, sizeofHeader ≤ p → (∀ i < g, ¬ mem'.header.Emptied i p) → mem' p = mem p)
    (hi : i < g) :
    load mem' sizeofUInt (mem'.header.pointers i).cacheFirst
      = load mem sizeofUInt (mem'.header.cacheStart i) := by
  have hstart := hl.queueStart_eq hi
  have hqueue := hl.queueSize_eq
  refine load_congr fun p hp hp' => hframe p ?_ fun j hj hemp => ?_
  · simp only [SHMCBHeader.pointers, SHMCBHeader.cacheStart] at hp
    omega
  · -- the words of another division lie before or behind this one, those of this one around it
    simp only [SHMCBHeader.pointers] at hp hp'
    rw [SHMCBHeader.Emptied] at hemp
    have hci : mem'.header.cacheStart i = mem'.header.queueStart i + mem'.header.queueSize := rfl
    have hcj : mem'.header.cacheStart j = mem'.header.queueStart j + mem'.header.queueSize := rfl
    rcases lt_trichotomy i j with hij | rfl | hij
    · have hnext := hl.cacheStart_add_le hij hj
      omega
    · omega
    · have hnext := hl.cacheStart_add_le hij hi
      omega

/-- The place of the cache's `first_pos` is a matter of the size only. -/
theorem cacheStart_eq (hsize : shmMemSize < 4294967296)
    (hinit : shmcbInitHeader mem.header shmMemSize = some (some mem'.header))
    (hl : mem'.header.LaidOut g shmMemSize) (hi : i < g) :
    mem'.header.cacheStart i = cacheFirstPos shmMemSize g i := by
  obtain ⟨g', hg, -, hh, -⟩ := shmcbInitHeader_spec hsize hinit
  obtain rfl : g' = g := Option.some.inj (hg.symm.trans hl.granularity)
  rw [SHMCBHeader.cacheStart, hl.queueStart_eq hi, hh]
  rfl

end Emptied

/-- What the initialisation leaves in the positions of the divisions and in the counters. -/
theorem shmcbInitMemory_positions {mem mem' : Memory} {shmMemSize : ℕ}
    (hsize : shmMemSize < 4294967296) (h : shmcbInitMemory mem shmMemSize = some (some mem')) :
    mem'.segment.header.counters = mem.header.counters
      ∧ ∃ g, initGranularity shmMemSize = some g ∧ mem'.segment.header.divisionMask + 1 = g
      ∧ ∀ i < g, (mem'.segment.division i).queueFirst = 0
        ∧ (mem'.segment.division i).queueCount = 0
        ∧ (mem'.segment.division i).cacheCount = 0
        ∧ (mem'.segment.division i).cacheFirst
          = load mem sizeofUInt (cacheFirstPos shmMemSize g i) := by
  obtain ⟨hinit, g, hl, hempty, hframe⟩ := shmcbInitMemory_accepts hsize h
  refine ⟨?_, g, hl.granularity, hl.mask, fun i hi => ?_⟩
  · obtain ⟨g', hg', -, hh, -⟩ := shmcbInitHeader_spec hsize hinit
    change mem'.header.counters = mem.header.counters
    rw [hh]
    rfl
  · obtain ⟨hqueue, hcount, hbytes⟩ := load_emptied hempty hi
    refine ⟨hqueue, hcount, hbytes, ?_⟩
    rw [← cacheStart_eq hsize hinit hl hi]
    exact load_cacheFirst hl hframe hi

/-- The initialisation of a fresh memory makes an empty cache. -/
theorem Memory.Fresh.segment_empty {mem mem' : Memory} {shmMemSize : ℕ}
    (hsize : shmMemSize < 4294967296) (h : shmcbInitMemory mem shmMemSize = some (some mem'))
    (hfresh : mem.Fresh shmMemSize) : mem'.segment.Empty := by
  obtain ⟨hcounters, g, hg, hmask, hpos⟩ := shmcbInitMemory_positions hsize h
  refine ⟨fun i hi => (hpos i (by omega)).1, fun i hi => (hpos i (by omega)).2.1,
    fun i hi => ?_, fun i hi => (hpos i (by omega)).2.2.1,
    fun c hc => hfresh.counters c (hcounters ▸ hc)⟩
  rw [(hpos i (by omega)).2.2.2]
  exact hfresh.cacheFirst g hg i (by omega)

/-- **What the initialisation empties.**  After `shmcb_init_memory` has accepted a segment,
whatever the memory held, the cache is empty exactly when the counters and the `first_pos`
of every division's cache were zero before: it sets all the other positions, and not these. -/
theorem init_empties_iff {mem mem' : Memory} {shmMemSize : ℕ} (hsize : shmMemSize < 4294967296)
    (h : shmcbInitMemory mem shmMemSize = some (some mem')) :
    mem'.segment.Empty ↔ mem.Fresh shmMemSize := by
  refine ⟨fun hseg => ?_, fun hfresh => hfresh.segment_empty hsize h⟩
  obtain ⟨hcounters, g, hg, hmask, hpos⟩ := shmcbInitMemory_positions hsize h
  constructor
  · intro c hc
    rw [← hcounters] at hc
    exact hseg.counters c hc
  · intro g' hg' i hi
    obtain rfl : g = g' := Option.some.inj (hg.symm.trans hg')
    rw [← (hpos i hi).2.2.2]
    exact hseg.cacheFirst i (by omega)

/-- The smallest segment is accepted, whatever the memory holds. -/
theorem shmcbInitMemory_696 (mem : Memory) :
    ∃ mem', shmcbInitMemory mem 696 = some (some mem') := by
  have hinit : ∃ h, shmcbInitHeader mem.header 696 = some (some h) := by
    have hgran : granularityLoop ((696 - sizeofHeader) / 120) 10 256 = some 1 := by decide
    rw [shmcbInitHeader, if_neg (by decide)]
    simp only [hgran, Option.map_some]
    exact ⟨_, rfl⟩
  obtain ⟨h, hinit⟩ := hinit
  obtain ⟨g, mem', -, hrun, -⟩ := shmcbInitMemory_spec (by decide) hinit
  exact ⟨mem', hrun⟩

/-- A memory of bytes 255, but for the counters and the `first_pos` of the one cache. -/
theorem init_empties_iff_used :
    ∃ mem', shmcbInitMemory
        (fun p => if p < 56 ∨ 224 ≤ p ∧ p < 228 then 0 else 255) 696 = some (some mem')
      ∧ mem'.segment.Empty := by
  obtain ⟨mem', hrun⟩ :=
    shmcbInitMemory_696 fun p => if p < 56 ∨ 224 ≤ p ∧ p < 228 then 0 else 255
  have hgran : initGranularity 696 = some 1 := by decide
  refine ⟨mem', hrun, (init_empties_iff (by decide) hrun).mpr ⟨by decide, ?_⟩⟩
  intro g hg i hi
  obtain rfl : 1 = g := Option.some.inj (hgran.symm.trans hg)
  obtain rfl : i = 0 := by omega
  decide

/-- A byte where the cache's `first_pos` comes to lie stays as it was. -/
theorem init_keeps_first_pos :
    ¬ ∀ (mem mem' : Memory) (shmMemSize : ℕ), shmMemSize < 4294967296 →
      shmcbInitMemory mem shmMemSize = some (some mem') → mem'.segment.Empty := by
  intro h
  obtain ⟨mem', hrun⟩ := shmcbInitMemory_696 fun p => if p = 224 then 1 else 0
  obtain ⟨-, g, hg, hmask, hpos⟩ := shmcbInitMemory_positions (by decide) hrun
  have hgran : initGranularity 696 = some 1 := by decide
  obtain rfl : g = 1 := Option.some.inj (hg.symm.trans hgran)
  have hword : load (fun p => if p = 224 then 1 else 0) sizeofUInt (cacheFirstPos 696 1 0) = 1 := by
    decide
  have hzero := (h _ mem' 696 (by decide) hrun).cacheFirst 0 (Nat.zero_le _)
  rw [(hpos 0 (by decide)).2.2.2, hword] at hzero
  exact absurd hzero (by decide)

/-- **Where the runs start.**  The initialisation of a fresh memory leaves the segment in
which the sessions of the other modules start. -/
theorem shmcbInitMemory_initial {mem mem' : Memory} {shmMemSize : ℕ} (clock : ℤ)
    (hsize : shmMemSize < 4294967296) (h : shmcbInitMemory mem shmMemSize = some (some mem'))
    (hfresh : mem.Fresh shmMemSize) :
    Session.Initial { seg := mem'.segment, log := [], clock } := by
  have hempty : mem'.segment.Empty := hfresh.segment_empty hsize h
  obtain ⟨hinit, -⟩ := shmcbInitMemory_accepts hsize h
  exact ⟨shmcbInitHeader_geometry hsize hinit, hempty.queueFirst, hempty.queueCount,
    hempty.cacheFirst, hempty.cacheCount, rfl⟩

end Zevent.Cache

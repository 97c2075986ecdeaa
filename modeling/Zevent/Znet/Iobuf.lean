/-
# Growing buffers (`iobuf.c`)

An `iobuf` is a block of memory with `off` bytes of data from place `skip` on.  Data is
taken from its front by moving `skip`; room at its end is made by moving the data to the
front of the block, and by taking a bigger block when that is not enough.

`mmalloc` takes its size as a `uint32_t`, and `iobuf_accommodate` asks it for
`size + count` bytes, a `size_t`.  `Iobuf.write_ok` and `Iobuf.write_trap` are the two sides
of it: a write appends its bytes to the data exactly as long as the block it needs is
smaller than `2 ^ 32` bytes, and runs out of a block that is too small otherwise.
-/
import Mathlib.Tactic

namespace Zevent.Znet

/-! ## Memory -/

/-- How a call ends that does not return: an access outside of a block of memory, a failed
assertion, a loop without end, or a wait for a socket that does not answer. -/
inductive Trap
  | outOfBlock
  | assertion
  | diverges
  | noAnswer
deriving DecidableEq, Repr

/-- `mmalloc`: the bytes of the block that the caller asked for (it may be a little longer);
`alloc` says whether there is memory.  The size is a `uint32_t`.  What the block contains is
never read. -/
def mmalloc (alloc : Bool) (size : ℕ) : Option (List UInt8) :=
  if alloc then some (List.replicate (size % 2 ^ 32) 0) else none

/-- `bcopy` to a place of a block. -/
def bcopy (src block : List UInt8) (place : ℕ) : Except Trap (List UInt8) :=
  if place + src.length ≤ block.length then
    .ok (block.take place ++ src ++ block.drop (place + src.length))
  else .error .outOfBlock

/-! ## Buffers -/

/-- `struct iobuf`; `base` is the block, which starts at `buf - skip`. -/
structure Iobuf where
  base : List UInt8
  size : ℕ
  off : ℕ
  skip : ℕ
  error : Bool
deriving DecidableEq, Repr

namespace Iobuf

/-- The data: `off` bytes from `buf` on. -/
def data (iob : Iobuf) : List UInt8 := (iob.base.drop iob.skip).take iob.off

/-- `iobuf_init`. -/
def init (alloc : Bool) (size : ℕ) : Iobuf :=
  match mmalloc alloc size with
  | some block => ⟨block, size, 0, 0, false⟩
  | none => ⟨[], size, 0, 0, true⟩

/-- `iobuf_consumed`. -/
def consumed (iob : Iobuf) (count : ℕ) : Except Trap Iobuf :=
  if iob.error then .ok iob
  else if count ≤ iob.off then
    .ok { iob with skip := iob.skip + count, off := iob.off - count }
  else .error .assertion

/-- `iobuf_accommodate`, with its result. -/
def accommodate (alloc : Bool) (iob : Iobuf) (count : ℕ) : Except Trap (Iobuf × Bool) :=
  if iob.error then .ok (iob, false)
  else
    let esize := iob.size - (iob.skip + iob.off)
    if esize ≥ count then .ok (iob, true)
    else if esize + iob.skip ≥ count then
      (bcopy iob.data iob.base 0).map fun base => ({ iob with base := base, skip := 0 }, true)
    else
      match mmalloc alloc (iob.size + count) with
      | none => .ok ({ iob with error := true }, false)
      | some nbuf =>
          (bcopy (iob.base.take iob.size) nbuf 0).map fun base =>
            ({ iob with base := base, size := iob.size + count }, true)

/-- `iobuf_write`. -/
def write (alloc : Bool) (iob : Iobuf) (buf : List UInt8) : Except Trap Iobuf :=
  if iob.error then .ok iob
  else do
    let (iob, ok) ← iob.accommodate alloc buf.length
    if ok then
      let base ← bcopy buf iob.base (iob.skip + iob.off)
      return { iob with base := base, off := iob.off + buf.length }
    else return iob

/-! ## What they do -/

/-- The buffer has its block, and the data is in it. -/
structure Valid (iob : Iobuf) : Prop where
  block : iob.base.length = iob.size
  inside : iob.skip + iob.off ≤ iob.size
  small : iob.size < 2 ^ 32
  noError : iob.error = false

/-- The block a write of `count` bytes needs is smaller than `2 ^ 32` bytes: there is room
already, before and behind the data together, or the bigger block is smaller than that. -/
def Grows (size off count : ℕ) : Prop := count ≤ size - off ∨ size + count < 2 ^ 32

instance (size off count : ℕ) : Decidable (Grows size off count) :=
  inferInstanceAs (Decidable (_ ∨ _))

variable {iob : Iobuf} {buf : List UInt8} {count : ℕ}

/-- A valid buffer has `off` bytes of data. -/
theorem Valid.length_data (h : iob.Valid) : iob.data.length = iob.off := by
  have hblock := h.block
  have hinside := h.inside
  simp only [data, List.length_take, List.length_drop]
  omega

/-- A buffer that fits into its block. -/
theorem init_valid {size : ℕ} (h : size < 2 ^ 32) : (init true size).Valid where
  block := by
    simp only [init, mmalloc, if_true, List.length_replicate]
    exact Nat.mod_eq_of_lt h
  inside := by simp [init, mmalloc]
  small := h
  noError := rfl

@[simp] theorem init_data (size : ℕ) : (init true size).data = [] := by
  simp [init, mmalloc, data]

/-- `iobuf_consumed` takes bytes from the front of the data. -/
theorem consumed_ok (h : iob.Valid) (hcount : count ≤ iob.off) :
    ∃ iob', iob.consumed count = .ok iob' ∧ iob'.Valid ∧ iob'.data = iob.data.drop count
      ∧ iob'.off = iob.off - count ∧ iob'.size = iob.size := by
  have hinside := h.inside
  refine ⟨{ iob with skip := iob.skip + count, off := iob.off - count }, ?_, ?_, ?_, rfl, rfl⟩
  · simp [consumed, h.noError, hcount]
  · exact ⟨h.block, by simp only; omega, h.small, h.noError⟩
  · simp only [data]
    rw [List.drop_take, List.drop_drop]

/-- A copy inside the block. -/
theorem bcopy_ok {src block : List UInt8} {place : ℕ} (h : place + src.length ≤ block.length) :
    bcopy src block place
      = .ok (block.take place ++ src ++ block.drop (place + src.length)) := by
  rw [bcopy, if_pos h]

/-- The size of the block after room for `count` bytes was made. -/
def grown (size off count : ℕ) : ℕ := if count ≤ size - off then size else size + count

/-- `iobuf_accommodate` keeps the data and makes room behind it. -/
theorem accommodate_ok (h : iob.Valid) (hgrows : Grows iob.size iob.off count) :
    ∃ iob', iob.accommodate true count = .ok (iob', true) ∧ iob'.Valid ∧ iob'.data = iob.data
      ∧ iob'.off = iob.off ∧ iob'.size = grown iob.size iob.off count
      ∧ iob'.skip + iob'.off + count ≤ iob'.size := by
  have hblock := h.block
  have hinside := h.inside
  have hdata := h.length_data
  rw [accommodate, if_neg (by simp [h.noError]), grown]
  by_cases hroom : iob.size - (iob.skip + iob.off) ≥ count
  · -- enough room behind the data
    refine ⟨iob, if_pos hroom, h, rfl, rfl, ?_, by omega⟩
    rw [if_pos (by omega)]
  · by_cases hmove : iob.size - (iob.skip + iob.off) + iob.skip ≥ count
    · -- enough room when the data is moved to the front
      refine ⟨{ iob with base := iob.data ++ iob.base.drop iob.off, skip := 0 }, ?_, ?_, ?_, rfl,
        ?_, ?_⟩
      · simp only [hroom, hmove, if_true, if_false]
        rw [bcopy_ok (by omega)]
        simp [Except.map, hdata]
      · exact ⟨by simp only [List.length_append, List.length_drop]; omega, by simp only; omega,
          h.small, h.noError⟩
      · simp only [data, List.drop_zero]
        rw [← data, List.take_left' hdata]
      · rw [if_pos (by omega)]
      · simp only
        omega
    · -- a bigger block
      have hsmall : iob.size + count < 2 ^ 32 := hgrows.resolve_left (by omega)
      refine ⟨{ iob with base := iob.base ++ List.replicate count 0, size := iob.size + count },
        ?_, ?_, ?_, rfl, ?_, ?_⟩
      · simp only [hroom, hmove, if_false, mmalloc, if_true, Nat.mod_eq_of_lt hsmall]
        rw [bcopy_ok (by simp), List.take_of_length_le hblock.le]
        simp [Except.map, hblock]
      · refine ⟨?_, by simp only; omega, hsmall, h.noError⟩
        simp [hblock]
      · simp only [data]
        rw [List.drop_append_of_le_length (by omega), List.take_append_of_le_length]
        rw [List.length_drop]
        omega
      · rw [if_neg (by omega)]
      · simp only
        omega

/-- A request that does not fit into 32 bits gets a block that is too small. -/
theorem accommodate_trap (h : iob.Valid) (hcount : count < 2 ^ 32)
    (hgrows : ¬ Grows iob.size iob.off count) :
    iob.accommodate true count = .error .outOfBlock := by
  have hblock := h.block
  have hinside := h.inside
  have hsmall := h.small
  rw [Grows, not_or] at hgrows
  rw [accommodate, if_neg (by simp [h.noError]), if_neg (by omega), if_neg (by omega)]
  have hmod : (iob.size + count) % 2 ^ 32 < iob.size := by
    rw [Nat.mod_eq_sub_mod (by omega), Nat.mod_eq_of_lt (by omega)]
    omega
  simp only [mmalloc, if_true]
  rw [bcopy, if_neg]
  · rfl
  · rw [List.length_replicate, List.length_take, hblock]
    omega

/-- **A write appends.** -/
theorem write_ok (h : iob.Valid) (hgrows : Grows iob.size iob.off buf.length) :
    ∃ iob', iob.write true buf = .ok iob' ∧ iob'.Valid ∧ iob'.data = iob.data ++ buf
      ∧ iob'.off = iob.off + buf.length ∧ iob'.size = grown iob.size iob.off buf.length := by
  obtain ⟨iob₁, hacc, hvalid, hdata, hoff, hsize, hroom⟩ := accommodate_ok h hgrows
  have hblock := hvalid.block
  refine ⟨{ iob₁ with
      base := iob₁.base.take (iob₁.skip + iob₁.off) ++ buf
        ++ iob₁.base.drop (iob₁.skip + iob₁.off + buf.length)
      off := iob₁.off + buf.length }, ?_, ?_, ?_, ?_, hsize⟩
  · rw [write, if_neg (by simp [h.noError]), hacc]
    simp only [bind, Except.bind, if_true]
    rw [bcopy_ok (by omega)]
    rfl
  · refine ⟨?_, by simp only; omega, hvalid.small, hvalid.noError⟩
    simp only [List.length_append, List.length_take, List.length_drop]
    omega
  · have htake : (iob₁.base.take (iob₁.skip + iob₁.off)).drop iob₁.skip = iob₁.data := by
      rw [List.drop_take, Nat.add_sub_cancel_left, data]
    rw [← hdata, data]
    simp only
    rw [List.append_assoc, List.drop_append_of_le_length (by rw [List.length_take]; omega), htake,
      ← List.append_assoc]
    exact List.take_left' (by rw [List.length_append, hvalid.length_data])
  · simp only [hoff]

/-- **A write that needs a block of `2 ^ 32` bytes or more runs out of its block.** -/
theorem write_trap (h : iob.Valid) (hcount : buf.length < 2 ^ 32)
    (hgrows : ¬ Grows iob.size iob.off buf.length) :
    iob.write true buf = .error .outOfBlock := by
  rw [write, if_neg (by simp [h.noError]), accommodate_trap h hcount hgrows]
  rfl

end Iobuf

end Zevent.Znet

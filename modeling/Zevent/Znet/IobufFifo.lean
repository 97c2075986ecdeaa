/-
# The pointer of a growing buffer (`iobuf.c`)

`Zevent.Znet.Iobuf` takes for granted that the block of a buffer starts at `buf - skip`.  Here
`buf` is a pointer of its own, as in the source: a place in the allocation that it points
into.  `iobuf_accommodate` and `iobuf_free` compute the start of the allocation from it, and
`iobuf_reset` clears `skip` without moving `buf` back.

`iobuf_fifo_iff` says for which sequences of calls the buffer is a byte FIFO throughout:
exactly those that reset it only while `skip` is zero, and that need no block of `2 ^ 32`
bytes.  As long as `buf` is `skip` bytes into the allocation, the calls are those of
`Zevent.Znet.Iobuf` (`accommodate_ofIobuf`, `write_ofIobuf`).
-/
import Mathlib.Tactic
import Zevent.Lib.Executions
import Zevent.Znet.Iobuf

namespace Zevent.Znet

open Executions

/-! ## The model -/

/-- `struct iobuf`, with the allocation that `buf` points into and its place in it. -/
structure PtrIobuf where
  block : List UInt8
  buf : ℕ
  size : ℕ
  off : ℕ
  skip : ℕ
  error : Bool
deriving DecidableEq, Repr

/-- What a `bcopy` of `n` bytes reads. -/
def load (block : List UInt8) (place n : ℕ) : Except Trap (List UInt8) :=
  if place + n ≤ block.length then .ok ((block.drop place).take n) else .error .outOfBlock

namespace PtrIobuf

/-- `iobuf_init`. -/
def init (alloc : Bool) (size : ℕ) : PtrIobuf :=
  match mmalloc alloc size with
  | some block => ⟨block, 0, size, 0, 0, false⟩
  | none => ⟨[], 0, size, 0, 0, true⟩

/-- `iobuf_reset`. -/
def reset (iob : PtrIobuf) : PtrIobuf := { iob with off := 0, skip := 0 }

/-- `iobuf_consumed`. -/
def consumed (iob : PtrIobuf) (count : ℕ) : Except Trap PtrIobuf :=
  if iob.error then .ok iob
  else if count ≤ iob.off then
    .ok { iob with skip := iob.skip + count, buf := iob.buf + count, off := iob.off - count }
  else .error .assertion

/-- `iobuf_accommodate`, with its result. -/
def accommodate (alloc : Bool) (iob : PtrIobuf) (count : ℕ) : Except Trap (PtrIobuf × Bool) :=
  if iob.error then .ok (iob, false)
  else
    let esize := iob.size - (iob.skip + iob.off)
    if esize ≥ count then .ok (iob, true)
    else if esize + iob.skip ≥ count then do
      let data ← load iob.block iob.buf iob.off
      let block ← bcopy data iob.block (iob.buf - iob.skip)
      return ({ iob with block, buf := iob.buf - iob.skip, skip := 0 }, true)
    else
      match mmalloc alloc (iob.size + count) with
      | none => .ok ({ iob with error := true }, false)
      | some nbuf => do
          let bytes ← load iob.block (iob.buf - iob.skip) iob.size
          let block ← bcopy bytes nbuf 0
          return ({ iob with block, buf := iob.skip, size := iob.size + count }, true)

/-- `iobuf_write`. -/
def write (alloc : Bool) (iob : PtrIobuf) (data : List UInt8) : Except Trap PtrIobuf :=
  if iob.error then .ok iob
  else do
    let (iob, ok) ← iob.accommodate alloc data.length
    if ok then
      let block ← bcopy data iob.block (iob.buf + iob.off)
      return { iob with block, off := iob.off + data.length }
    else return iob

/-- A buffer whose pointer is where `Zevent.Znet.Iobuf` has it. -/
def ofIobuf (iob : Iobuf) : PtrIobuf where
  block := iob.base
  buf := iob.skip
  size := iob.size
  off := iob.off
  skip := iob.skip
  error := iob.error

end PtrIobuf

/-- The calls of the file that change a buffer. -/
inductive IobufCall
  | write (data : List UInt8)
  | consumed (count : ℕ)
  | accommodate (count : ℕ)
  | reset
deriving DecidableEq, Repr

/-- A buffer, next to what a byte FIFO would contain, and the room that the last call asked
for if it was `iobuf_accommodate`. -/
structure TrackedIobuf where
  iob : PtrIobuf
  content : List UInt8
  room : ℕ

namespace TrackedIobuf

/-- After `iobuf_init`. -/
def start (size : ℕ) : TrackedIobuf := ⟨PtrIobuf.init true size, [], 0⟩

/-- One call, the allocations succeeding; `none` when it runs out of its memory. -/
def call (s : TrackedIobuf) : IobufCall → Option TrackedIobuf
  | .write data =>
      (s.iob.write true data).toOption.map fun iob => ⟨iob, s.content ++ data, 0⟩
  | .consumed count =>
      (s.iob.consumed count).toOption.map fun iob => ⟨iob, s.content.drop count, 0⟩
  | .accommodate count =>
      (s.iob.accommodate true count).toOption.map fun r => ⟨r.1, s.content, count⟩
  | .reset => some ⟨s.iob.reset, [], 0⟩

/-- The contract: at most `off` bytes are consumed. -/
def Legal (s : TrackedIobuf) : IobufCall → Prop
  | .consumed count => count ≤ s.iob.off
  | _ => True

/-- The buffer is a byte FIFO: the `off` bytes at `buf` are its content, `skip + off ≤ size`,
`buf` points `skip` bytes into an allocation of `size` bytes, and there is the room asked
for. -/
structure IsFifo (s : TrackedIobuf) : Prop where
  data : (s.iob.block.drop s.iob.buf).take s.iob.off = s.content
  inside : s.iob.skip + s.iob.off ≤ s.iob.size
  place : s.iob.buf = s.iob.skip
  block : s.iob.block.length = s.iob.size
  room : s.iob.skip + s.iob.off + s.room ≤ s.iob.size
  noError : s.iob.error = false

instance (s : TrackedIobuf) : Decidable s.IsFifo :=
  decidable_of_iff
    ((s.iob.block.drop s.iob.buf).take s.iob.off = s.content
      ∧ s.iob.skip + s.iob.off ≤ s.iob.size ∧ s.iob.buf = s.iob.skip
      ∧ s.iob.block.length = s.iob.size ∧ s.iob.skip + s.iob.off + s.room ≤ s.iob.size
      ∧ s.iob.error = false)
    ⟨fun h => ⟨h.1, h.2.1, h.2.2.1, h.2.2.2.1, h.2.2.2.2.1, h.2.2.2.2.2⟩,
      fun h => ⟨h.data, h.inside, h.place, h.block, h.room, h.noError⟩⟩

/-- The condition: a reset finds nothing skipped, and a block that is needed is smaller than
`2 ^ 32` bytes. -/
def Safe (s : TrackedIobuf) : IobufCall → Prop
  | .write data => Iobuf.Grows s.iob.size s.iob.off data.length
  | .consumed _ => True
  | .accommodate count => Iobuf.Grows s.iob.size s.iob.off count
  | .reset => s.iob.skip = 0

instance (s : TrackedIobuf) : (c : IobufCall) → Decidable (s.Legal c)
  | .consumed _ => inferInstanceAs (Decidable (_ ≤ _))
  | .write _ | .accommodate _ | .reset => inferInstanceAs (Decidable True)

instance (s : TrackedIobuf) : (c : IobufCall) → Decidable (s.Safe c)
  | .write _ | .accommodate _ => inferInstanceAs (Decidable (Iobuf.Grows _ _ _))
  | .consumed _ => inferInstanceAs (Decidable True)
  | .reset => inferInstanceAs (Decidable (_ = _))

end TrackedIobuf

/-! ## With the pointer in place -/

namespace PtrIobuf

variable {iob : Iobuf}

/-- Consuming bytes from the blocks is consuming them from the buffer. -/
theorem consumed_ofIobuf (count : ℕ) :
    (ofIobuf iob).consumed count = (iob.consumed count).map ofIobuf := by
  rw [PtrIobuf.consumed, Iobuf.consumed, apply_ite (Except.map ofIobuf),
    apply_ite (Except.map ofIobuf)]
  rfl

/-- The place that `iobuf_accommodate` computes is the start of the block. -/
theorem accommodate_ofIobuf (h : iob.Valid) (count : ℕ) :
    (ofIobuf iob).accommodate true count
      = (iob.accommodate true count).map fun r => (ofIobuf r.1, r.2) := by
  have hblock := h.block
  have hinside := h.inside
  have hdata : load iob.base iob.skip iob.off = .ok iob.data := if_pos (by omega)
  have hall : load iob.base 0 iob.size = .ok (iob.base.take iob.size) := if_pos (by omega)
  have herror : ¬ iob.error = true := by simp [h.noError]
  have herror' : ¬ (ofIobuf iob).error = true := herror
  rw [PtrIobuf.accommodate, if_neg herror', Iobuf.accommodate, if_neg herror]
  simp only [ofIobuf, Nat.sub_self, hdata, hall, bind, Except.bind, mmalloc, if_true]
  split_ifs with hroom hmove
  · rfl
  · -- the data is moved to the front
    cases bcopy iob.data iob.base 0 <;> rfl
  · -- a bigger block
    cases bcopy (iob.base.take iob.size) (List.replicate ((iob.size + count) % 2 ^ 32) 0) 0 <;> rfl

theorem write_ofIobuf (h : iob.Valid) (data : List UInt8) :
    (ofIobuf iob).write true data = (iob.write true data).map ofIobuf := by
  have herror : ¬ iob.error = true := by simp [h.noError]
  have herror' : ¬ (ofIobuf iob).error = true := herror
  rw [PtrIobuf.write, if_neg herror', Iobuf.write, if_neg herror, accommodate_ofIobuf h]
  rcases iob.accommodate true data.length with t | ⟨iob', ok⟩
  · rfl
  · cases ok with
    | false => rfl
    | true =>
        simp only [Except.map, bind, Except.bind, if_true, ofIobuf]
        cases bcopy data iob'.base (iob'.skip + iob'.off) <;> rfl

end PtrIobuf

/-! ## Blocks that are too big -/

/-- A copy does not change the size of its block. -/
theorem length_bcopy {src block block' : List UInt8} {place : ℕ}
    (h : bcopy src block place = .ok block') : block'.length = block.length := by
  unfold bcopy at h
  split_ifs at h with hfit
  rw [← Except.ok.inj h]
  simp only [List.length_append, List.length_take, List.length_drop]
  omega

namespace Iobuf

variable {iob iob' : Iobuf} {ok : Bool} {count : ℕ}

/-- When more than `2 ^ 32` bytes would be needed, the block is smaller than `size` says. -/
theorem accommodate_big (h : iob.Valid) (hgrows : ¬ Grows iob.size iob.off count)
    (hacc : iob.accommodate true count = .ok (iob', ok)) :
    ok = true ∧ iob'.error = false ∧ iob'.base.length < iob'.size := by
  have hinside := h.inside
  rw [Grows, not_or] at hgrows
  rw [accommodate, if_neg (by simp [h.noError]), if_neg (by omega), if_neg (by omega)] at hacc
  simp only [mmalloc, if_true] at hacc
  rcases hcopy : bcopy (iob.base.take iob.size)
    (List.replicate ((iob.size + count) % 2 ^ 32) 0) 0 with t | base
  · rw [hcopy] at hacc
    cases hacc
  · rw [hcopy] at hacc
    have hlen := length_bcopy hcopy
    rw [List.length_replicate] at hlen
    obtain ⟨rfl, rfl⟩ := Prod.mk.inj (Except.ok.inj hacc)
    refine ⟨rfl, h.noError, ?_⟩
    simp only
    omega

/-- A write that makes the size wrap leaves a block that is too small. -/
theorem write_big {data : List UInt8} (h : iob.Valid)
    (hgrows : ¬ Grows iob.size iob.off data.length) (hwrite : iob.write true data = .ok iob') :
    iob'.base.length < iob'.size := by
  rw [write, if_neg (by simp [h.noError])] at hwrite
  rcases hacc : iob.accommodate true data.length with t | ⟨iob₁, ok⟩
  · rw [hacc] at hwrite
    cases hwrite
  · obtain ⟨rfl, -, hlt⟩ := accommodate_big h hgrows hacc
    rw [hacc] at hwrite
    simp only [bind, Except.bind, if_true] at hwrite
    rcases hcopy : bcopy data iob₁.base (iob₁.skip + iob₁.off) with t | base
    · rw [hcopy] at hwrite
      cases hwrite
    · rw [hcopy] at hwrite
      rw [← Except.ok.inj hwrite]
      exact (length_bcopy hcopy).trans_lt hlt

end Iobuf

/-! ## Calls -/

namespace TrackedIobuf

variable {s s' : TrackedIobuf}

/-- A buffer that is a FIFO is one of `Zevent.Znet.Iobuf`. -/
theorem IsFifo.exists_valid (h : s.IsFifo) (hsmall : s.iob.block.length < 2 ^ 32) :
    ∃ iob : Iobuf, s.iob = PtrIobuf.ofIobuf iob ∧ iob.Valid ∧ iob.data = s.content := by
  obtain ⟨⟨block, buf, size, off, skip, error⟩, content, room⟩ := s
  obtain ⟨hdata, hinside, hplace, hblock, -, hnoError⟩ := h
  simp only at hdata hinside hplace hblock hnoError hsmall
  subst hplace
  exact ⟨⟨block, size, off, buf, error⟩, rfl, ⟨hblock, hinside, hblock ▸ hsmall, hnoError⟩, hdata⟩

/-- And one of those with that content is a FIFO. -/
theorem isFifo_ofIobuf {iob : Iobuf} (h : iob.Valid) {room : ℕ}
    (hroom : iob.skip + iob.off + room ≤ iob.size) :
    IsFifo ⟨PtrIobuf.ofIobuf iob, iob.data, room⟩ where
  data := rfl
  inside := h.inside
  place := rfl
  block := h.block
  room := hroom
  noError := h.noError

end TrackedIobuf

/-! ## Allocations -/

/-- No allocation has `2 ^ 32` bytes. -/
def PtrIobuf.Small (iob : PtrIobuf) : Prop := iob.block.length < 2 ^ 32

namespace PtrIobuf

variable {iob iob' : PtrIobuf}

theorem init_small (alloc : Bool) (size : ℕ) : (init alloc size).Small := by
  have hmod : size % 2 ^ 32 < 2 ^ 32 := Nat.mod_lt _ (by decide)
  rw [Small]
  cases alloc <;> simp [init, mmalloc]
  exact hmod

/-- Consuming does not make the size wrap. -/
theorem Small.consumed (h : iob.Small) {count : ℕ} (hiob : iob.consumed count = .ok iob') :
    iob'.Small := by
  unfold PtrIobuf.consumed at hiob
  split_ifs at hiob <;> exact Except.ok.inj hiob ▸ h

theorem Small.accommodate (h : iob.Small) {count : ℕ} {ok : Bool}
    (hiob : iob.accommodate true count = .ok (iob', ok)) : iob'.Small := by
  unfold PtrIobuf.accommodate at hiob
  simp only [mmalloc, if_true] at hiob
  split_ifs at hiob
  · exact (Prod.mk.inj (Except.ok.inj hiob)).1 ▸ h
  · exact (Prod.mk.inj (Except.ok.inj hiob)).1 ▸ h
  · -- the data is moved to the front of the same block
    rcases hload : load iob.block iob.buf iob.off with t | data
    · rw [hload] at hiob
      cases hiob
    · rcases hcopy : bcopy data iob.block (iob.buf - iob.skip) with t | block
      · simp only [hload, hcopy, bind, Except.bind] at hiob
        cases hiob
      · simp only [hload, hcopy, bind, Except.bind] at hiob
        rw [← (Prod.mk.inj (Except.ok.inj hiob)).1]
        exact (length_bcopy hcopy).trans_lt h
  · -- a block from `mmalloc`
    rcases hload : load iob.block (iob.buf - iob.skip) iob.size with t | bytes
    · rw [hload] at hiob
      cases hiob
    · rcases hcopy : bcopy bytes (List.replicate ((iob.size + count) % 2 ^ 32) 0) 0 with t | block
      · simp only [hload, hcopy, bind, Except.bind] at hiob
        cases hiob
      · simp only [hload, hcopy, bind, Except.bind] at hiob
        rw [← (Prod.mk.inj (Except.ok.inj hiob)).1]
        refine (length_bcopy hcopy).trans_lt ?_
        rw [List.length_replicate]
        exact Nat.mod_lt _ (by decide)

theorem Small.write (h : iob.Small) {data : List UInt8} (hiob : iob.write true data = .ok iob') :
    iob'.Small := by
  unfold PtrIobuf.write at hiob
  split_ifs at hiob with herror
  · exact Except.ok.inj hiob ▸ h
  · rcases hacc : iob.accommodate true data.length with t | ⟨iob₁, ok⟩
    · rw [hacc] at hiob
      cases hiob
    · have h₁ := h.accommodate hacc
      rw [hacc] at hiob
      cases ok with
      | false => exact Except.ok.inj hiob ▸ h₁
      | true =>
          simp only [bind, Except.bind, if_true] at hiob
          rcases hcopy : bcopy data iob₁.block (iob₁.buf + iob₁.off) with t | block
          · rw [hcopy] at hiob
            cases hiob
          · rw [hcopy] at hiob
            rw [← Except.ok.inj hiob]
            exact (length_bcopy hcopy).trans_lt h₁

end PtrIobuf

/-! ## The byte FIFO -/

namespace TrackedIobuf

variable {s s' : TrackedIobuf}

theorem toOption_map_eq_some {α β : Type} {x : Except Trap α} {f : α → β} {y : β} :
    x.toOption.map f = some y ↔ ∃ a, x = .ok a ∧ f a = y := by
  cases x with
  | error t => simp [Except.toOption]
  | ok a => simp [Except.toOption]

/-- Every call keeps the blocks small. -/
theorem call_small {c : IobufCall} (h : s.iob.Small) (hcall : s.call c = some s') :
    s'.iob.Small := by
  cases c with
  | write data =>
      obtain ⟨iob, hiob, rfl⟩ := toOption_map_eq_some.mp hcall
      exact h.write hiob
  | consumed count =>
      obtain ⟨iob, hiob, rfl⟩ := toOption_map_eq_some.mp hcall
      exact h.consumed hiob
  | accommodate count =>
      obtain ⟨⟨iob, ok⟩, hiob, rfl⟩ := toOption_map_eq_some.mp hcall
      exact h.accommodate hiob
  | reset =>
      obtain rfl := Option.some.inj hcall
      exact h

/-- **Step lemma.**  A legal call on a FIFO leaves a FIFO with the right content exactly when
it is safe. -/
theorem call_iff (hsmall : s.iob.Small) (h : s.IsFifo) {c : IobufCall} (hlegal : s.Legal c) :
    (∃ s', s.call c = some s' ∧ s'.IsFifo) ↔ s.Safe c := by
  obtain ⟨iob, hiob, hvalid, hcontent⟩ := h.exists_valid hsmall
  have hinside := hvalid.inside
  cases c with
  | write data =>
      rw [Safe, hiob]
      rw [call, hiob, PtrIobuf.write_ofIobuf hvalid]
      constructor
      · rintro ⟨s', hs', hfifo⟩
        by_contra hgrows
        obtain ⟨ptr, hptr, rfl⟩ := toOption_map_eq_some.mp hs'
        rcases hwrite : iob.write true data with t | iob'
        · rw [hwrite] at hptr
          cases hptr
        · rw [hwrite] at hptr
          obtain rfl := Except.ok.inj hptr
          exact (Iobuf.write_big hvalid hgrows hwrite).ne hfifo.block
      · intro hgrows
        obtain ⟨iob', hwrite, hvalid', hdata, -⟩ := Iobuf.write_ok hvalid hgrows
        rw [hwrite, ← hcontent, ← hdata]
        exact ⟨_, rfl, isFifo_ofIobuf hvalid' hvalid'.inside⟩
  | consumed count =>
      refine ⟨fun _ => trivial, fun _ => ?_⟩
      rw [Legal, hiob] at hlegal
      obtain ⟨iob', hconsumed, hvalid', hdata, -⟩ := Iobuf.consumed_ok hvalid hlegal
      rw [call, hiob, PtrIobuf.consumed_ofIobuf, hconsumed, ← hcontent, ← hdata]
      exact ⟨_, rfl, isFifo_ofIobuf hvalid' hvalid'.inside⟩
  | accommodate count =>
      rw [Safe, hiob]
      rw [call, hiob, PtrIobuf.accommodate_ofIobuf hvalid]
      constructor
      · rintro ⟨s', hs', hfifo⟩
        by_contra hgrows
        obtain ⟨r, hr, rfl⟩ := toOption_map_eq_some.mp hs'
        rcases hacc : iob.accommodate true count with t | ⟨iob', ok⟩
        · rw [hacc] at hr
          cases hr
        · rw [hacc] at hr
          obtain rfl := Except.ok.inj hr
          exact (Iobuf.accommodate_big hvalid hgrows hacc).2.2.ne hfifo.block
      · intro hgrows
        obtain ⟨iob', hacc, hvalid', hdata, -, -, hroom⟩ := Iobuf.accommodate_ok hvalid hgrows
        rw [hacc, ← hcontent, ← hdata]
        exact ⟨_, rfl, isFifo_ofIobuf hvalid' hroom⟩
  | reset =>
      rw [Safe]
      constructor
      · rintro ⟨s', hs', hfifo⟩
        obtain rfl := Option.some.inj hs'
        -- the pointer has stayed where it was
        rw [← h.place]
        exact hfifo.place
      · intro hskip
        refine ⟨_, rfl, List.take_zero, Nat.zero_le _, ?_, h.block, Nat.zero_le _, h.noError⟩
        exact h.place.trans hskip

theorem start_isFifo_iff (size : ℕ) : (start size).IsFifo ↔ size < 2 ^ 32 := by
  constructor
  · intro h
    have hsmall : (start size).iob.Small := PtrIobuf.init_small true size
    rwa [PtrIobuf.Small, h.block] at hsmall
  · intro hsize
    have hdata := Iobuf.init_data size
    have hfifo : IsFifo ⟨PtrIobuf.ofIobuf (.init true size), (Iobuf.init true size).data, 0⟩ :=
      isFifo_ofIobuf (Iobuf.init_valid hsize) (Nat.zero_le _)
    rw [hdata] at hfifo
    exact hfifo

end TrackedIobuf

/-- **When `iobuf` is a byte FIFO.**  For every size given to `iobuf_init` and every sequence
of calls that consumes at most `off` bytes at a time, the allocations succeeding: no call runs
out of its memory and the buffer is a FIFO after each of them, with room for `count` bytes
behind `iobuf_accommodate`, if and only if `iobuf_reset` is called only while `skip` is zero
and no block of `2 ^ 32` bytes or more is needed. -/
theorem iobuf_fifo_iff (size : ℕ) (calls : List IobufCall)
    (hlegal : AllSteps TrackedIobuf.call TrackedIobuf.Legal (TrackedIobuf.start size) calls) :
    Throughout TrackedIobuf.call TrackedIobuf.IsFifo (TrackedIobuf.start size) calls
      ↔ size < 2 ^ 32
        ∧ AllSteps TrackedIobuf.call TrackedIobuf.Safe (TrackedIobuf.start size) calls := by
  have hiff : (TrackedIobuf.start size).IsFifo →
      (Throughout TrackedIobuf.call TrackedIobuf.IsFifo (TrackedIobuf.start size) calls
        ↔ AllSteps TrackedIobuf.call TrackedIobuf.Safe (TrackedIobuf.start size) calls) :=
    fun hstart => throughout_iff (fun s => s.iob.Small)
      (fun _ _ _ hsmall hcall => TrackedIobuf.call_small hsmall hcall)
      (fun _ _ hsmall hfifo hc => TrackedIobuf.call_iff hsmall hfifo hc)
      (PtrIobuf.init_small true size) hstart hlegal
  constructor
  · intro h
    exact ⟨(TrackedIobuf.start_isFifo_iff size).mp h.start, (hiff h.start).mp h⟩
  · rintro ⟨hsize, hsafe⟩
    exact (hiff ((TrackedIobuf.start_isFifo_iff size).mpr hsize)).mpr hsafe

/-- A buffer that grows, slides its data to the front, and is reset then. -/
theorem iobuf_fifo_iff_grow_slide :
    Throughout TrackedIobuf.call TrackedIobuf.IsFifo (TrackedIobuf.start 4)
      [.write [1, 2, 3], .consumed 2, .write [4, 5, 6, 7], .accommodate 3, .reset, .write [8]] :=
  (iobuf_fifo_iff 4 _ (by decide)).mpr ⟨by decide, by decide⟩

/-- **A reset leaves the pointer behind.**  After one byte was consumed, the buffer says that
it has four bytes of room, and a write of four bytes runs out of its block. -/
theorem reset_overruns :
    AllSteps TrackedIobuf.call TrackedIobuf.Legal (TrackedIobuf.start 4)
        [.write [1, 2], .consumed 1, .reset, .write [3, 4, 5, 6]]
      ∧ ¬ Throughout TrackedIobuf.call TrackedIobuf.IsFifo (TrackedIobuf.start 4)
        [.write [1, 2], .consumed 1, .reset]
      ∧ (do
          let s ← (TrackedIobuf.start 4).call (.write [1, 2])
          let s ← s.call (.consumed 1)
          let s ← s.call .reset
          s.call (.write [3, 4, 5, 6])).isNone = true := by
  decide

end Zevent.Znet

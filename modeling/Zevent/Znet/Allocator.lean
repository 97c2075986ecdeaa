/-
# The node allocator (`common/memory/allocator.c`)

A node is a block with a header in front: its size class `index`, the free bytes between
`first_avail` and `endp`, and a link.  Nodes that are given back wait on free lists, one for
each index below `MAX_INDEX` and one, in slot 0, for all that are larger; a limit on what may
wait makes `allocator_free` return nodes to the system.

A node is named by its address, and the links and the heads of the free lists are addresses,
as in the source.  `malloc` is an argument of the step: it may refuse, and it does not return a
block that it has given out and not got back.  The clients may chain the nodes they hold, and
move `first_avail`; they leave the rest of the header alone.

A walk of the source that leaves the array of slots, or does not end, is `none`.

`allocator_accounted` is the result: a node is in one place, large enough for whoever gets it,
and the bookkeeping of the slots and of the limit is right after every sequence of calls.
-/
import Mathlib.Tactic
import Zevent.Lib.Buckets
import Zevent.Lib.Interleaving

namespace Zevent.Znet

open Interleaving

/-! ## The data -/

/-- `MIN_ALLOC`. -/
def minAlloc : ℕ := 256

/-- `MAX_INDEX`. -/
def indexLimit : ℕ := 80

/-- `BOUNDARY_SIZE`, which is `1 << BOUNDARY_INDEX`. -/
def boundarySize : ℕ := 128

/-- `MEMNODE_T_SIZE`. -/
def memnodeSize : ℕ := 40

/-- `ALLOCATOR_MAX_FREE_UNLIMITED`. -/
def maxFreeUnlimited : ℕ := 0

/-- `ALIGN` to `BOUNDARY_SIZE` in unsigned arithmetic of `bits` bits. -/
def align (bits size : ℕ) : ℕ :=
  (size + (boundarySize - 1)) % 2 ^ bits / boundarySize * boundarySize

/-- `memnode_t`. -/
structure MemNode where
  next : Option ℕ
  index : ℕ
  firstAvail : ℕ
  endp : ℕ
  deriving DecidableEq, Repr

/-- `allocator_t`, without its mutex. -/
structure Allocator where
  maxIndex : ℕ
  maxFreeIndex : ℕ
  currentFreeIndex : ℕ
  free : ℕ → Option ℕ

/-- An allocator and the memory around it: the headers, the blocks that `malloc` has given out
and not got back, and the nodes that the clients hold. -/
structure NodeHeap where
  allocator : Allocator
  node : ℕ → MemNode
  blocks : List ℕ
  live : List ℕ

/-- `allocator_create`. -/
def allocatorCreate : Allocator := ⟨0, maxFreeUnlimited, 0, fun _ => none⟩

namespace NodeHeap

/-- A fresh allocator; nothing was allocated, and the headers are what the memory holds. -/
def start (node : ℕ → MemNode) : NodeHeap := ⟨allocatorCreate, node, [], []⟩

/-- `allocator_max_free_set`. -/
def allocatorMaxFreeSet (h : NodeHeap) (inSize : ℕ) : NodeHeap :=
  let size := inSize % 2 ^ 32
  let maxFreeIndex := align 32 size / boundarySize
  -- the two steps of the sum in 32 bits; a lower limit can make it wrap around
  let current := (h.allocator.currentFreeIndex + maxFreeIndex) % 2 ^ 32
  let current := (current + 2 ^ 32 - h.allocator.maxFreeIndex) % 2 ^ 32
  { h with allocator := { h.allocator with
      maxFreeIndex := maxFreeIndex
      currentFreeIndex := if current > maxFreeIndex then maxFreeIndex else current } }

/-! ## Allocation -/

/-- `while (*ref == NULL && i < max_index)`: the slot where the walk ends. -/
def walkUp (free : ℕ → Option ℕ) (maxIndex : ℕ) : ℕ → ℕ → Option ℕ
  | 0, _ => none
  | fuel + 1, i =>
      -- a read past the array of slots
      if i ≥ indexLimit then none
      else if free i = none ∧ i < maxIndex then walkUp free maxIndex fuel (i + 1)
      else some i

/-- `do { ref--; max_index--; } while (*ref == NULL && max_index > 0)`. -/
def walkDown (free : ℕ → Option ℕ) : ℕ → Option ℕ
  | 0 => none
  | maxIndex + 1 => if free maxIndex = none ∧ maxIndex > 0 then walkDown free maxIndex
      else some maxIndex

/-- `while ((node = *ref) != NULL && index > node->index)`: the node the walk along slot 0 passed
last, and the node it found. -/
def walkSink (node : ℕ → MemNode) (index fuel : ℕ) (head : Option ℕ) :
    Option (Option ℕ × Option ℕ) :=
  Chain.walk (fun a => (node a).next) (fun a => !decide (index > (node a).index)) fuel none head

/-- The end of an allocation from a free list: the limit counts the node back, and its link and
`first_avail` are reset. -/
def reuse (h : NodeHeap) (a : ℕ) : NodeHeap :=
  let current := (h.allocator.currentFreeIndex + (h.node a).index) % 2 ^ 32
  { h with
    allocator := { h.allocator with
      currentFreeIndex :=
        if current > h.allocator.maxFreeIndex then h.allocator.maxFreeIndex else current }
    node := Function.update h.node a
      { h.node a with next := none, firstAvail := a + memnodeSize }
    live := a :: h.live }

/-- The end of an allocation from the system. -/
def fromSystem (h : NodeHeap) (size index : ℕ) (malloc : Option ℕ) : Option ℕ × NodeHeap :=
  match malloc with
  | none => (none, h)
  | some a =>
      (some a, { h with
        node := Function.update h.node a ⟨none, index % 2 ^ 32, a + memnodeSize, a + size⟩
        blocks := a :: h.blocks
        live := a :: h.live })

/-- The size of the block for a request, `ALIGN(in_size + MEMNODE_T_SIZE, BOUNDARY_SIZE)`, or
nothing when it overflows. -/
def blockSize (inSize : ℕ) : Option ℕ :=
  let size := align 64 ((inSize + memnodeSize) % 2 ^ 64)
  if size < inSize then none else some (if size < minAlloc then minAlloc else size)

/-- The branch of `in_allocator_alloc` that looks through the slots from `index` up. -/
def allocSlot (h : NodeHeap) (size index : ℕ) (malloc : Option ℕ) :
    Option (Option ℕ × NodeHeap) :=
  match walkUp h.allocator.free h.allocator.maxIndex (h.allocator.maxIndex + 1 - index) index with
  | none => none
  | some i =>
      match h.allocator.free i with
      | none => some (h.fromSystem size index malloc)
      | some a =>
          let free := Function.update h.allocator.free i (h.node a).next
          let maxIndex :=
            if (h.node a).next = none ∧ i ≥ h.allocator.maxIndex then
              walkDown free h.allocator.maxIndex
            else some h.allocator.maxIndex
          match maxIndex with
          | none => none
          | some maxIndex =>
              some (some a,
                reuse { h with
                  allocator := { h.allocator with free := free, maxIndex := maxIndex } } a)

/-- The branch of `in_allocator_alloc` that looks through the sink. -/
def allocSink (h : NodeHeap) (size index : ℕ) (malloc : Option ℕ) :
    Option (Option ℕ × NodeHeap) :=
  match walkSink h.node index (h.blocks.length + 1) (h.allocator.free 0) with
  | none => none
  | some (_, none) => some (h.fromSystem size index malloc)
  | some (none, some a) =>
      some (some a,
        reuse { h with allocator := { h.allocator with
          free := Function.update h.allocator.free 0 (h.node a).next } } a)
  | some (some b, some a) =>
      some (some a,
        reuse { h with node :=
          Function.update h.node b { h.node b with next := (h.node a).next } } a)

/-- `in_allocator_alloc`: the node, or `NULL`. -/
def inAllocatorAlloc (h : NodeHeap) (inSize : ℕ) (malloc : Option ℕ) :
    Option (Option ℕ × NodeHeap) :=
  match blockSize inSize with
  | none => some (none, h)
  | some size =>
      let index := size / boundarySize - 1
      if index > 0xffffffff then some (none, h)
      -- a slot from `index` on is in use, or else only the sink can have a node
      else if index ≤ h.allocator.maxIndex then h.allocSlot size index malloc
      else if h.allocator.free 0 ≠ none then h.allocSink size index malloc
      else some (h.fromSystem size index malloc)

/-! ## Release -/

/-- The variables of the loop of `in_allocator_free`. -/
structure FreeLoop where
  free : ℕ → Option ℕ
  node : ℕ → MemNode
  maxIndex : ℕ
  currentFreeIndex : ℕ
  freelist : Option ℕ

/-- What is left of the limit. -/
def spend (current index : ℕ) : ℕ := if current ≥ index then current - index else 0

/-- One round of the loop of `in_allocator_free`, past the read of `node->next`. -/
def freeNode (maxFreeIndex : ℕ) (s : FreeLoop) (a : ℕ) : FreeLoop :=
  let index := (s.node a).index
  -- what the limit does not allow to keep goes to the system
  if maxFreeIndex ≠ maxFreeUnlimited ∧ index > s.currentFreeIndex then
    { s with
      node := Function.update s.node a { s.node a with next := s.freelist }
      freelist := some a }
  else if index < indexLimit then
    { s with
      node := Function.update s.node a { s.node a with next := s.free index }
      maxIndex := if s.free index = none ∧ index > s.maxIndex then index else s.maxIndex
      free := Function.update s.free index (some a)
      currentFreeIndex := spend s.currentFreeIndex index }
  else
    { s with
      node := Function.update s.node a { s.node a with next := s.free 0 }
      free := Function.update s.free 0 (some a)
      currentFreeIndex := spend s.currentFreeIndex index }

/-- The loop of `in_allocator_free`. -/
def freeLoop (maxFreeIndex : ℕ) : ℕ → FreeLoop → ℕ → Option FreeLoop
  | 0, _, _ => none
  | fuel + 1, s, a =>
      -- read first, as the round writes the link
      let next := (s.node a).next
      let s := freeNode maxFreeIndex s a
      match next with
      | none => some s
      | some b => freeLoop maxFreeIndex fuel s b

/-- The loop that returns the nodes of `freelist` to the system: the blocks that stay. -/
def releaseLoop (node : ℕ → MemNode) : ℕ → Option ℕ → List ℕ → Option (List ℕ)
  | 0, _, _ => none
  | _ + 1, none, blocks => some blocks
  | fuel + 1, some a, blocks => releaseLoop node fuel (node a).next (blocks.erase a)

/-- `in_allocator_free`; `chain` are the nodes that the links of `a` lead through, which the
clients no longer hold. -/
def inAllocatorFree (h : NodeHeap) (a : ℕ) (chain : List ℕ) : Option NodeHeap :=
  match freeLoop h.allocator.maxFreeIndex (h.blocks.length + 1)
      ⟨h.allocator.free, h.node, h.allocator.maxIndex, h.allocator.currentFreeIndex, none⟩ a with
  | none => none
  | some s =>
      match releaseLoop s.node (h.blocks.length + 1) s.freelist h.blocks with
      | none => none
      | some blocks =>
          some
            { allocator := { h.allocator with
                free := s.free
                maxIndex := s.maxIndex
                currentFreeIndex := s.currentFreeIndex }
              node := s.node
              blocks := blocks
              live := h.live.filter fun b => b ∉ chain }

/-! ## The calls -/

/-- `mmalloc`: the memory behind the header. -/
def mmalloc (h : NodeHeap) (size : ℕ) (malloc : Option ℕ) : Option (Option ℕ × NodeHeap) :=
  (h.inAllocatorAlloc size malloc).map fun (a, h) => (a.map fun a => (h.node a).firstAvail, h)

/-- `mfree`. -/
def mfree (h : NodeHeap) (memory : ℕ) (chain : List ℕ) : Option NodeHeap :=
  h.inAllocatorFree (memory - memnodeSize) chain

/-- A client writes the link of a node it holds. -/
def setNext (h : NodeHeap) (a : ℕ) (next : Option ℕ) : NodeHeap :=
  { h with node := Function.update h.node a { h.node a with next := next } }

/-- A client takes bytes from a node it holds. -/
def setFirstAvail (h : NodeHeap) (a firstAvail : ℕ) : NodeHeap :=
  { h with node := Function.update h.node a { h.node a with firstAvail := firstAvail } }

/-- The calls, with what `malloc` returns and with the nodes that are given back, and what a
client does with the nodes it holds. -/
inductive Act where
  | alloc (inSize : ℕ) (malloc : Option ℕ)
  | free (a : ℕ) (chain : List ℕ)
  | mmalloc (size : ℕ) (malloc : Option ℕ)
  | mfree (memory : ℕ) (chain : List ℕ)
  | maxFreeSet (inSize : ℕ)
  | setNext (a : ℕ) (next : Option ℕ)
  | setFirstAvail (a firstAvail : ℕ)
  deriving DecidableEq, Repr

/-- What `malloc` returns is not in use. -/
def Fresh (h : NodeHeap) (malloc : Option ℕ) : Prop := ∀ a ∈ malloc, a ∉ h.blocks

/-- The links of `a` lead through `chain`, and the clients hold all of it. -/
def Held (h : NodeHeap) (a : ℕ) (chain : List ℕ) : Prop :=
  Chain (fun b => (h.node b).next) (some a) chain ∧ ∀ b ∈ chain, b ∈ h.live

/-- A client gives back nodes that it holds, and touches no others. -/
def Enabled (h : NodeHeap) : Act → Prop
  | .alloc inSize malloc => inSize < 2 ^ 64 ∧ h.Fresh malloc
  | .free a chain => h.Held a chain
  | .mmalloc size malloc => size < 2 ^ 32 ∧ h.Fresh malloc
  | .mfree memory chain => h.Held (memory - memnodeSize) chain
  | .maxFreeSet inSize => inSize < 2 ^ 64
  | .setNext a _ => a ∈ h.live
  | .setFirstAvail a _ => a ∈ h.live

instance (h : NodeHeap) (a : Act) : Decidable (h.Enabled a) :=
  match a with
  | .alloc inSize malloc =>
      inferInstanceAs (Decidable (inSize < 2 ^ 64 ∧ ∀ a ∈ malloc, a ∉ h.blocks))
  | .free a chain => inferInstanceAs (Decidable (Chain _ (some a) chain ∧ ∀ b ∈ chain, b ∈ h.live))
  | .mmalloc size malloc =>
      inferInstanceAs (Decidable (size < 2 ^ 32 ∧ ∀ a ∈ malloc, a ∉ h.blocks))
  | .mfree memory chain =>
      inferInstanceAs (Decidable
        (Chain _ (some (memory - memnodeSize)) chain ∧ ∀ b ∈ chain, b ∈ h.live))
  | .maxFreeSet inSize => inferInstanceAs (Decidable (inSize < 2 ^ 64))
  | .setNext a _ => inferInstanceAs (Decidable (a ∈ h.live))
  | .setFirstAvail a _ => inferInstanceAs (Decidable (a ∈ h.live))

/-- The heap after an enabled call. -/
def perform (h : NodeHeap) : Act → Option NodeHeap
  | .alloc inSize malloc => (h.inAllocatorAlloc inSize malloc).map Prod.snd
  | .free a chain => h.inAllocatorFree a chain
  | .mmalloc size malloc => (h.mmalloc size malloc).map Prod.snd
  | .mfree memory chain => h.mfree memory chain
  | .maxFreeSet inSize => some (h.allocatorMaxFreeSet inSize)
  | .setNext a next => some (h.setNext a next)
  | .setFirstAvail a firstAvail => some (h.setFirstAvail a firstAvail)

/-- One call. -/
def step (h : NodeHeap) (a : Act) : Option NodeHeap := if h.Enabled a then perform h a else none

/-! ## What holds of the heap -/

/-- The slot for nodes of an index. -/
def slotOf (index : ℕ) : ℕ := if index < indexLimit then index else 0

/-- The link of a node. -/
def link (node : ℕ → MemNode) (a : ℕ) : Option ℕ := (node a).next

/-- Slot `i` is the head of the chain `L i`, whose nodes belong there. -/
structure Lists (node : ℕ → MemNode) (free : ℕ → Option ℕ) (L : ℕ → List ℕ) : Prop where
  chain : ∀ i < indexLimit, Chain (link node) (free i) (L i)
  slot : ∀ i < indexLimit, ∀ a ∈ L i, slotOf (node a).index = i

/-- `maxIndex` is the largest slot in use, the sink apart. -/
structure Top (free : ℕ → Option ℕ) (maxIndex : ℕ) : Prop where
  lt : maxIndex < indexLimit
  used : maxIndex = 0 ∨ free maxIndex ≠ none
  above : ∀ i, maxIndex < i → i < indexLimit → free i = none

/-- The accounts of a heap whose free lists are `L`. -/
structure Accounted (h : NodeHeap) (L : ℕ → List ℕ) : Prop where
  lists : Lists h.node h.allocator.free L
  top : Top h.allocator.free h.allocator.maxIndex
  limit : h.allocator.currentFreeIndex ≤ h.allocator.maxFreeIndex
  live_nodup : h.live.Nodup
  live_blocks : ∀ a ∈ h.live, a ∈ h.blocks
  free_blocks : ∀ i < indexLimit, ∀ a ∈ L i, a ∈ h.blocks
  apart : ∀ i < indexLimit, ∀ a ∈ L i, a ∉ h.live
  size : ∀ a ∈ h.blocks, 1 ≤ (h.node a).index
    ∧ (h.node a).endp = a + ((h.node a).index + 1) * boundarySize

variable {h : NodeHeap} {L : ℕ → List ℕ} {node node' : ℕ → MemNode} {free : ℕ → Option ℕ}

theorem slotOf_lt (index : ℕ) : slotOf index < indexLimit := by
  unfold slotOf indexLimit
  split <;> omega

/-! ### The free lists -/

/-- Headers outside the free lists do not matter. -/
theorem Lists.congr (hl : Lists node free L)
    (heq : ∀ i < indexLimit, ∀ a ∈ L i, node' a = node a) : Lists node' free L where
  chain := fun i hi => (hl.chain i hi).congr fun a ha => congrArg MemNode.next (heq i hi a ha)
  slot := fun i hi a ha => by
    rw [heq i hi a ha]
    exact hl.slot i hi a ha

/-- Writing a node that is in no list changes none. -/
theorem Lists.update_of_notMem (hl : Lists node free L) {a : ℕ} {x : MemNode}
    (ha : ∀ i < indexLimit, a ∉ L i) : Lists (Function.update node a x) free L := by
  refine hl.congr fun i hi b hb => Function.update_of_ne ?_ _ _
  rintro rfl
  exact ha i hi hb

/-- A node is on one list at most. -/
theorem Lists.unique (hl : Lists node free L) {i j a : ℕ} (hi : i < indexLimit)
    (hj : j < indexLimit) (hai : a ∈ L i) (haj : a ∈ L j) : i = j :=
  (hl.slot i hi a hai).symm.trans (hl.slot j hj a haj)

/-- A node goes in front of its list. -/
theorem Lists.push (hl : Lists node free L) {a i : ℕ} (ha : ∀ j < indexLimit, a ∉ L j)
    (hslot : slotOf (node a).index = i) :
    Lists (Function.update node a { node a with next := free i })
      (Function.update free i (some a)) (Function.update L i (a :: L i)) := by
  have hi : i < indexLimit := hslot ▸ slotOf_lt _
  have hl' := hl.update_of_notMem (x := { node a with next := free i }) ha
  constructor
  · intro j hj
    rcases eq_or_ne j i with rfl | hne
    · rw [Function.update_self, Function.update_self]
      refine ⟨rfl, ?_⟩
      rw [link, Function.update_self]
      exact hl'.chain j hj
    · rw [Function.update_of_ne hne, Function.update_of_ne hne]
      exact hl'.chain j hj
  · intro j hj b hb
    obtain hb | ⟨rfl, rfl⟩ := mem_update_cons.mp hb
    · exact hl'.slot j hj b hb
    · rw [Function.update_self]
      exact hslot

/-- The first node of a list is taken off. -/
theorem Lists.pop (hl : Lists node free L) {i a : ℕ} {rest : List ℕ} (hi : i < indexLimit)
    (hL : L i = a :: rest) :
    Lists node (Function.update free i (node a).next) (Function.update L i rest) := by
  have hchain := hl.chain i hi
  rw [hL, Chain.cons_iff] at hchain
  constructor
  · intro j hj
    rcases eq_or_ne j i with rfl | hne
    · rw [Function.update_self, Function.update_self]
      exact hchain.2
    · rw [Function.update_of_ne hne, Function.update_of_ne hne]
      exact hl.chain j hj
  · intro j hj b hb
    rcases eq_or_ne j i with rfl | hne
    · rw [Function.update_self] at hb
      exact hl.slot j hj b (hL ▸ List.mem_cons_of_mem a hb)
    · rw [Function.update_of_ne hne] at hb
      exact hl.slot j hj b hb

/-- A node behind another is taken off. -/
theorem Lists.unlink (hl : Lists node free L) {i a b : ℕ} {pre rest : List ℕ}
    (hi : i < indexLimit) (hL : L i = pre ++ b :: a :: rest) :
    Lists (Function.update node b { node b with next := (node a).next }) free
      (Function.update L i (pre ++ b :: rest)) := by
  have hlink : link (Function.update node b { node b with next := (node a).next })
      = Function.update (link node) b (link node a) := by
    funext c
    rcases eq_or_ne c b with rfl | hne
    · rw [link, Function.update_self, Function.update_self, link]
    · rw [link, Function.update_of_ne hne, Function.update_of_ne hne, link]
  have hb : b ∈ L i := by
    rw [hL]
    exact List.mem_append_right _ List.mem_cons_self
  have hindex : ∀ c, (Function.update node b { node b with next := (node a).next } c).index
      = (node c).index := by
    intro c
    rcases eq_or_ne c b with rfl | hne
    · rw [Function.update_self]
    · rw [Function.update_of_ne hne]
  constructor
  · intro j hj
    rw [hlink]
    rcases eq_or_ne j i with rfl | hne
    · have hchain := hl.chain j hj
      rw [hL] at hchain
      rw [Function.update_self]
      exact hchain.unlink
    · rw [Function.update_of_ne hne]
      refine (hl.chain j hj).congr fun c hc => Function.update_of_ne ?_ _ _
      rintro rfl
      exact hne (hl.unique hj hi hc hb)
  · intro j hj c hc
    rw [hindex]
    rcases eq_or_ne j i with rfl | hne
    · rw [Function.update_self] at hc
      refine hl.slot j hj c (hL ▸ ?_)
      simp only [List.mem_append, List.mem_cons] at hc ⊢
      tauto
    · rw [Function.update_of_ne hne] at hc
      exact hl.slot j hj c hc

/-! ### The walks -/

/-- The walk up the slots ends at `maxIndex` at the latest. -/
theorem walkUp_spec (free : ℕ → Option ℕ) {maxIndex i : ℕ} (fuel : ℕ)
    (hmax : maxIndex < indexLimit) (hi : i ≤ maxIndex) (hfuel : maxIndex + 1 ≤ fuel + i) :
    ∃ j, walkUp free maxIndex fuel i = some j ∧ i ≤ j ∧ j ≤ maxIndex := by
  induction fuel generalizing i with
  | zero => omega
  | succ fuel ih =>
      rw [walkUp, if_neg (by omega)]
      split
      · rename_i hnext
        obtain ⟨j, hj, hle, hmaxj⟩ := ih (i := i + 1) (by omega) (by omega)
        exact ⟨j, hj, by omega, hmaxj⟩
      · exact ⟨i, rfl, le_rfl, hi⟩

/-- The walk down the slots ends at the next slot in use, or at the sink. -/
theorem walkDown_spec (free : ℕ → Option ℕ) {maxIndex : ℕ} (hpos : 0 < maxIndex) :
    ∃ j, walkDown free maxIndex = some j ∧ j < maxIndex ∧ (j = 0 ∨ free j ≠ none)
      ∧ ∀ i, j < i → i < maxIndex → free i = none := by
  induction maxIndex with
  | zero => exact absurd hpos (lt_irrefl 0)
  | succ m ih =>
      rw [walkDown]
      split
      · rename_i hnext
        obtain ⟨j, hj, hlt, hused, habove⟩ := ih hnext.2
        refine ⟨j, hj, by omega, hused, fun i hi him => ?_⟩
        rcases eq_or_ne i m with rfl | hne
        · exact hnext.1
        · exact habove i hi (by omega)
      · rename_i hstop
        refine ⟨m, rfl, Nat.lt_succ_self m, ?_, fun i hi him => by omega⟩
        by_contra hnone
        rw [not_or, not_not] at hnone
        exact hstop ⟨hnone.2, by omega⟩

/-- A slot that keeps a node stays in use, and one that loses its last node ends the walk at
the next slot. -/
theorem Top.pop {maxIndex i : ℕ} (ht : Top free maxIndex) (hpos : 0 < i) (hi : i ≤ maxIndex)
    (next : Option ℕ) :
    ∃ m, (if next = none ∧ i ≥ maxIndex then walkDown (Function.update free i next) maxIndex
        else some maxIndex) = some m
      ∧ Top (Function.update free i next) m := by
  have habove : ∀ j, maxIndex < j → j < indexLimit → Function.update free i next j = none := by
    intro j hj hlimit
    rw [Function.update_of_ne (by omega)]
    exact ht.above j hj hlimit
  split
  · -- the last node of the largest slot: the slots between are empty
    rename_i hlast
    obtain ⟨m, hm, hlt, hused, hbetween⟩ :=
      walkDown_spec (Function.update free i next) (hpos.trans_le hi)
    refine ⟨m, hm, hlt.trans ht.lt, hused, fun j hj hlimit => ?_⟩
    rcases lt_trichotomy j maxIndex with hlt' | heq | hgt
    · exact hbetween j hj hlt'
    · rw [heq, show maxIndex = i by omega, Function.update_self]
      exact hlast.1
    · exact habove j hgt hlimit
  · rename_i hkept
    refine ⟨maxIndex, rfl, ht.lt, ?_, habove⟩
    rcases eq_or_ne maxIndex i with heq | hne
    · right
      rw [heq, Function.update_self]
      exact fun hnone => hkept ⟨hnone, heq.le⟩
    · rw [Function.update_of_ne hne]
      exact ht.used

/-- A node in the sink does not change the largest slot in use. -/
theorem Top.sink {maxIndex : ℕ} (ht : Top free maxIndex) (head : Option ℕ) :
    Top (Function.update free 0 head) maxIndex where
  lt := ht.lt
  used := by
    obtain hzero | hused := ht.used
    · exact Or.inl hzero
    · rcases Nat.eq_zero_or_pos maxIndex with hzero | hpos
      · exact Or.inl hzero
      · rw [Function.update_of_ne (by omega)]
        exact Or.inr hused
  above := fun i hi hlimit => by
    rw [Function.update_of_ne (by omega)]
    exact ht.above i hi hlimit

/-- A node pushed on slot `index` makes it the largest in use, unless a larger one is. -/
theorem Top.push {maxIndex index a : ℕ} (ht : Top free maxIndex) (hindex : index < indexLimit) :
    Top (Function.update free index (some a))
      (if free index = none ∧ index > maxIndex then index else maxIndex) := by
  split
  · rename_i hnew
    refine ⟨hindex, Or.inr ?_, fun i hi hlimit => ?_⟩
    · rw [Function.update_self]
      exact Option.some_ne_none a
    · rw [Function.update_of_ne (by omega)]
      exact ht.above i (by omega) hlimit
  · rename_i hold
    have hle : index ≤ maxIndex := by
      by_contra hgt
      exact hold ⟨ht.above index (by omega) hindex, by omega⟩
    refine ⟨ht.lt, ?_, fun i hi hlimit => ?_⟩
    · rcases eq_or_ne maxIndex index with rfl | hne
      · right
        rw [Function.update_self]
        exact Option.some_ne_none a
      · rw [Function.update_of_ne hne]
        exact ht.used
    · rw [Function.update_of_ne (by omega)]
      exact ht.above i hi hlimit

/-- The walk along the sink ends at the first node that is not too small, or at the end. -/
theorem walkSink_spec (index : ℕ) {fuel : ℕ} {head : Option ℕ} {l : List ℕ}
    (hc : Chain (link node) head l) (hfuel : l.length < fuel) :
    ∃ pre rest, l = pre ++ rest
      ∧ walkSink node index fuel head = some (pre.getLast?, rest.head?)
      ∧ ∀ a ∈ rest.head?, index ≤ (node a).index := by
  obtain ⟨pre, rest, hl, hwalk, -, hstop⟩ :=
    Chain.walk_spec (fun a => !decide (index > (node a).index)) none hc hfuel
  rw [Option.or_none] at hwalk
  refine ⟨pre, rest, hl, hwalk, fun a ha => ?_⟩
  have hlarge := hstop a ha
  rw [Bool.not_eq_true', decide_eq_false_iff_not] at hlarge
  omega

/-! ### Allocation -/

/-- The block is large enough, and its size determines the index. -/
theorem blockSize_spec {inSize size : ℕ} (hin : inSize < 2 ^ 64)
    (hs : blockSize inSize = some size) :
    inSize + memnodeSize ≤ size ∧ size < 2 ^ 64 ∧ 1 ≤ size / boundarySize - 1
      ∧ (size / boundarySize - 1 + 1) * boundarySize = size := by
  have hround : align 64 ((inSize + memnodeSize) % 2 ^ 64)
      = ((inSize + 40) % 2 ^ 64 + 127) % 2 ^ 64 / 128 * 128 := rfl
  unfold blockSize at hs
  generalize align 64 ((inSize + memnodeSize) % 2 ^ 64) = rounded at hs hround
  have hmin : minAlloc = 256 := rfl
  dsimp only at hs
  simp only [boundarySize, memnodeSize]
  split at hs
  · exact absurd hs (by simp)
  · rw [Option.some.injEq] at hs
    split at hs <;> omega

/-- A node that is on no list is handed out. -/
theorem Accounted.reuse (ha : Accounted h L) {a : ℕ} (hblock : a ∈ h.blocks)
    (hlive : a ∉ h.live) (hfree : ∀ i < indexLimit, a ∉ L i) : Accounted (h.reuse a) L where
  lists := ha.lists.update_of_notMem hfree
  top := ha.top
  limit := by
    simp only [NodeHeap.reuse]
    split <;> omega
  live_nodup := List.nodup_cons.mpr ⟨hlive, ha.live_nodup⟩
  live_blocks := fun b hb => by
    obtain rfl | hb := List.mem_cons.mp hb
    · exact hblock
    · exact ha.live_blocks b hb
  free_blocks := ha.free_blocks
  apart := fun i hi b hb hmem => by
    obtain rfl | hmem := List.mem_cons.mp hmem
    · exact hfree i hi hb
    · exact ha.apart i hi b hb hmem
  size := fun b hb => by
    have hsize := ha.size b hb
    show 1 ≤ (Function.update h.node a _ b).index ∧ (Function.update h.node a _ b).endp
      = b + ((Function.update h.node a _ b).index + 1) * boundarySize
    rcases eq_or_ne b a with rfl | hne
    · rw [Function.update_self]
      exact hsize
    · rw [Function.update_of_ne hne]
      exact hsize

/-- A fresh block is handed out. -/
theorem Accounted.fromSystem (ha : Accounted h L) {size index a : ℕ} (hfresh : a ∉ h.blocks)
    (hpos : 1 ≤ index) (hlt : index < 2 ^ 32) (hsize : (index + 1) * boundarySize = size) :
    Accounted (h.fromSystem size index (some a)).2 L where
  lists := ha.lists.update_of_notMem fun i hi hmem => hfresh (ha.free_blocks i hi a hmem)
  top := ha.top
  limit := ha.limit
  live_nodup := List.nodup_cons.mpr ⟨fun hmem => hfresh (ha.live_blocks a hmem), ha.live_nodup⟩
  live_blocks := fun b hb => by
    obtain rfl | hb := List.mem_cons.mp hb
    · exact List.mem_cons_self
    · exact List.mem_cons_of_mem a (ha.live_blocks b hb)
  free_blocks := fun i hi b hb => List.mem_cons_of_mem a (ha.free_blocks i hi b hb)
  apart := fun i hi b hb hmem => by
    obtain rfl | hmem := List.mem_cons.mp hmem
    · exact hfresh (ha.free_blocks i hi b hb)
    · exact ha.apart i hi b hb hmem
  size := fun b hb => by
    show 1 ≤ (Function.update h.node a _ b).index ∧ (Function.update h.node a _ b).endp
      = b + ((Function.update h.node a _ b).index + 1) * boundarySize
    obtain rfl | hb := List.mem_cons.mp hb
    · rw [Function.update_self]
      show 1 ≤ index % 2 ^ 32 ∧ b + size = b + (index % 2 ^ 32 + 1) * boundarySize
      rw [Nat.mod_eq_of_lt hlt, hsize]
      exact ⟨hpos, rfl⟩
    · have hne : b ≠ a := fun heq => hfresh (heq ▸ hb)
      rw [Function.update_of_ne hne]
      exact ha.size b hb

/-- What an allocation of `inSize` bytes does: it hands out a node that was not live, with room
for the bytes, or nothing, and then nothing changed. -/
structure HandsOut (h : NodeHeap) (inSize : ℕ) (r : Option ℕ) (h' : NodeHeap) : Prop where
  fresh : ∀ a ∈ r, a ∉ h.live ∧ h'.live = a :: h.live ∧ (h'.node a).next = none
    ∧ (h'.node a).firstAvail = a + memnodeSize
    ∧ (h'.node a).firstAvail + inSize ≤ (h'.node a).endp
  null : r = none → h' = h

theorem Accounted.handsOut_reuse (ha : Accounted h L) {a inSize : ℕ} (hblock : a ∈ h.blocks)
    (hlive : a ∉ h.live) (hsize : inSize + memnodeSize ≤ ((h.node a).index + 1) * boundarySize)
    {h₀ : NodeHeap} (hsame : h₀.live = h.live) :
    HandsOut h₀ inSize (some a) (h.reuse a) where
  fresh := by
    intro b hb
    obtain rfl : a = b := by simpa using hb
    simp only [NodeHeap.reuse, Function.update_self]
    refine ⟨hsame ▸ hlive, by rw [hsame], trivial, trivial, ?_⟩
    rw [(ha.size a hblock).2]
    omega
  null := fun hnone => absurd hnone (by simp)

/-- A block from the system is handed out, or nothing is. -/
theorem Accounted.fromSystem_spec (ha : Accounted h L) {inSize size : ℕ} {malloc : Option ℕ}
    (hfresh : h.Fresh malloc) (hlt : size / boundarySize - 1 < 2 ^ 32) (hin : inSize < 2 ^ 64)
    (hs : blockSize inSize = some size) :
    Accounted (h.fromSystem size (size / boundarySize - 1) malloc).2 L
      ∧ HandsOut h inSize (h.fromSystem size (size / boundarySize - 1) malloc).1
        (h.fromSystem size (size / boundarySize - 1) malloc).2 := by
  obtain ⟨hroom, -, hpos, hindex⟩ := blockSize_spec hin hs
  cases malloc with
  | none => exact ⟨ha, fun a hnone => absurd hnone (by simp [NodeHeap.fromSystem]), fun _ => rfl⟩
  | some a =>
      have hnew : a ∉ h.blocks := hfresh a rfl
      refine ⟨ha.fromSystem hnew hpos hlt hindex, fun b hb => ?_, fun hnone => ?_⟩
      · obtain rfl : a = b := by simpa [NodeHeap.fromSystem] using hb
        refine ⟨fun hmem => hnew (ha.live_blocks a hmem), rfl, ?_⟩
        simp only [NodeHeap.fromSystem, Function.update_self]
        refine ⟨trivial, trivial, ?_⟩
        omega
      · exact absurd hnone (by simp [NodeHeap.fromSystem])

theorem setNext_size (h : NodeHeap) (b : ℕ) (next : Option ℕ) (c : ℕ) :
    ((h.setNext b next).node c).index = (h.node c).index
      ∧ ((h.setNext b next).node c).endp = (h.node c).endp := by
  unfold setNext
  rcases eq_or_ne c b with rfl | hne
  · simp only [Function.update_self, and_self]
  · simp only [Function.update_of_ne hne, and_self]

/-- Nodes leave the free lists, and otherwise only links change. -/
theorem Accounted.shrink (ha : Accounted h L) {h' : NodeHeap} {L' : ℕ → List ℕ}
    (hlists : Lists h'.node h'.allocator.free L')
    (htop : Top h'.allocator.free h'.allocator.maxIndex)
    (hlimit : h'.allocator.currentFreeIndex ≤ h'.allocator.maxFreeIndex)
    (hlive : h'.live = h.live) (hblocks : h'.blocks = h.blocks)
    (hsub : ∀ i < indexLimit, ∀ a ∈ L' i, a ∈ L i)
    (hsize : ∀ a, (h'.node a).index = (h.node a).index ∧ (h'.node a).endp = (h.node a).endp) :
    Accounted h' L' where
  lists := hlists
  top := htop
  limit := hlimit
  live_nodup := hlive ▸ ha.live_nodup
  live_blocks := by
    rw [hlive, hblocks]
    exact ha.live_blocks
  free_blocks := fun i hi a hmem => by
    rw [hblocks]
    exact ha.free_blocks i hi a (hsub i hi a hmem)
  apart := fun i hi a hmem => by
    rw [hlive]
    exact ha.apart i hi a (hsub i hi a hmem)
  size := fun a hmem => by
    rw [hblocks] at hmem
    rw [(hsize a).1, (hsize a).2]
    exact ha.size a hmem

/-- A list has no more nodes than there are blocks. -/
theorem Accounted.length_le (ha : Accounted h L) {i : ℕ} (hi : i < indexLimit) :
    (L i).length ≤ h.blocks.length :=
  ((ha.lists.chain i hi).nodup.subperm (ha.free_blocks i hi)).length_le

/-- The rest of a list does not have the node that was taken off, and no other list has. -/
theorem Lists.notMem_rest (hl : Lists node free L) {i a : ℕ} (hi : i < indexLimit)
    {l : List ℕ} (hperm : (L i).Perm (a :: l)) {j : ℕ} (hj : j < indexLimit) :
    a ∉ Function.update L i l j := by
  have ha : a ∈ L i := hperm.mem_iff.mpr List.mem_cons_self
  intro hmem
  rcases eq_or_ne j i with rfl | hne
  · rw [Function.update_self] at hmem
    have hnodup := hperm.nodup_iff.mp (hl.chain j hj).nodup
    exact (List.nodup_cons.mp hnodup).1 hmem
  · rw [Function.update_of_ne hne] at hmem
    exact hne (hl.unique hj hi hmem ha)

theorem mem_of_mem_rest {i a : ℕ} {l : List ℕ} (hperm : (L i).Perm (a :: l)) {j b : ℕ}
    (hb : b ∈ Function.update L i l j) : b ∈ L j := by
  rcases eq_or_ne j i with rfl | hne
  · rw [Function.update_self] at hb
    exact hperm.mem_iff.mpr (List.mem_cons_of_mem a hb)
  · rwa [Function.update_of_ne hne] at hb

/-- The node of an allocation from a list that is `a :: l` in some order: `h₁` is the heap with
the node taken off. -/
theorem Accounted.takeOff (ha : Accounted h L) (inSize : ℕ) {i a : ℕ} {l : List ℕ}
    (hi : i < indexLimit) (hperm : (L i).Perm (a :: l)) {h₁ : NodeHeap}
    (h₁a : Accounted h₁ (Function.update L i l)) (hlive : h₁.live = h.live)
    (hblocks : h₁.blocks = h.blocks)
    (hroom : inSize + memnodeSize ≤ ((h₁.node a).index + 1) * boundarySize) :
    Accounted (h₁.reuse a) (Function.update L i l) ∧ HandsOut h inSize (some a) (h₁.reuse a) := by
  have hmem : a ∈ L i := hperm.mem_iff.mpr List.mem_cons_self
  have hblock : a ∈ h₁.blocks := hblocks ▸ ha.free_blocks i hi a hmem
  have hnot : a ∉ h₁.live := hlive ▸ ha.apart i hi a hmem
  exact ⟨h₁a.reuse hblock hnot fun j hj => ha.lists.notMem_rest hi hperm hj,
    h₁a.handsOut_reuse hblock hnot hroom hlive.symm⟩

theorem Accounted.allocSlot (ha : Accounted h L) {inSize size : ℕ} {malloc : Option ℕ}
    (hin : inSize < 2 ^ 64) (hfresh : h.Fresh malloc) (hs : blockSize inSize = some size)
    (hlt : size / boundarySize - 1 < 2 ^ 32)
    (hle : size / boundarySize - 1 ≤ h.allocator.maxIndex) :
    ∃ r h' L', h.allocSlot size (size / boundarySize - 1) malloc = some (r, h')
      ∧ Accounted h' L' ∧ HandsOut h inSize r h' := by
  obtain ⟨hroom, -, hpos, hindex⟩ := blockSize_spec hin hs
  obtain ⟨j, hwalk, hij, hjmax⟩ := walkUp_spec h.allocator.free
    (h.allocator.maxIndex + 1 - (size / boundarySize - 1)) ha.top.lt hle (by omega)
  have hj : j < indexLimit := hjmax.trans_lt ha.top.lt
  rw [NodeHeap.allocSlot, hwalk]
  dsimp only
  cases hfree : h.allocator.free j with
  | none =>
      obtain ⟨ha', hout⟩ := ha.fromSystem_spec hfresh hlt hin hs
      exact ⟨_, _, L, rfl, ha', hout⟩
  | some a =>
      have hchain := ha.lists.chain j hj
      rw [hfree] at hchain
      cases hL : L j with
      | nil =>
          rw [hL] at hchain
          exact absurd hchain (by simp)
      | cons b rest =>
          rw [hL, Chain.cons_iff, Option.some.injEq] at hchain
          obtain ⟨rfl, -⟩ := hchain
          have hperm : (L j).Perm (a :: rest) := by rw [hL]
          obtain ⟨m, hm, htop⟩ := ha.top.pop (by omega) hjmax (h.node a).next
          dsimp only
          rw [hm]
          have h₁a : Accounted { h with allocator := { h.allocator with
              free := Function.update h.allocator.free j (h.node a).next, maxIndex := m } }
              (Function.update L j rest) :=
            ha.shrink (ha.lists.pop hj hL) htop ha.limit rfl rfl
              (fun i _ b hb => mem_of_mem_rest hperm hb) fun b => ⟨rfl, rfl⟩
          -- a node of slot `j` has that index, which is not below the one asked for
          have hslot := ha.lists.slot j hj a (hperm.mem_iff.mpr List.mem_cons_self)
          have hlarge : size ≤ ((h.node a).index + 1) * boundarySize := by
            unfold slotOf at hslot
            split at hslot
            · rw [hslot, ← hindex]
              exact Nat.mul_le_mul_right _ (by omega)
            · omega
          obtain ⟨ha', hout⟩ := ha.takeOff inSize hj hperm h₁a rfl rfl (hroom.trans hlarge)
          exact ⟨_, _, _, rfl, ha', hout⟩

theorem Accounted.allocSink (ha : Accounted h L) {inSize size : ℕ} {malloc : Option ℕ}
    (hin : inSize < 2 ^ 64) (hfresh : h.Fresh malloc) (hs : blockSize inSize = some size)
    (hlt : size / boundarySize - 1 < 2 ^ 32) :
    ∃ r h' L', h.allocSink size (size / boundarySize - 1) malloc = some (r, h')
      ∧ Accounted h' L' ∧ HandsOut h inSize r h' := by
  obtain ⟨hroom, -, hpos, hindex⟩ := blockSize_spec hin hs
  have hzero : 0 < indexLimit := Nat.zero_lt_succ 79
  obtain ⟨pre, rest, hL, hwalk, hlarge⟩ :=
    walkSink_spec (size / boundarySize - 1) (ha.lists.chain 0 hzero)
      (Nat.lt_succ_of_le (ha.length_le hzero))
  rw [NodeHeap.allocSink, hwalk]
  cases rest with
  | nil =>
      obtain ⟨ha', hout⟩ := ha.fromSystem_spec hfresh hlt hin hs
      exact ⟨_, _, L, rfl, ha', hout⟩
  | cons a post =>
      have henough : size ≤ ((h.node a).index + 1) * boundarySize := by
        rw [← hindex]
        exact Nat.mul_le_mul_right _ (Nat.succ_le_succ (hlarge a rfl))
      have hperm : (L 0).Perm (a :: (pre ++ post)) := by
        rw [hL]
        exact List.perm_middle
      -- the link to write is the head of the sink, or that of the node in front
      rcases List.eq_nil_or_concat' pre with rfl | ⟨front, b, rfl⟩
      · have h₁a : Accounted { h with allocator := { h.allocator with
            free := Function.update h.allocator.free 0 (h.node a).next } }
            (Function.update L 0 post) :=
          ha.shrink (ha.lists.pop hzero hL) (ha.top.sink _) ha.limit rfl rfl
            (fun i _ b hb => mem_of_mem_rest hperm hb) fun b => ⟨rfl, rfl⟩
        obtain ⟨ha', hout⟩ := ha.takeOff inSize hzero hperm h₁a rfl rfl (hroom.trans henough)
        exact ⟨_, _, _, rfl, ha', hout⟩
      · rw [List.append_assoc, List.singleton_append] at hL
        have hrest : front ++ [b] ++ post = front ++ b :: post := by
          rw [List.append_assoc, List.singleton_append]
        rw [hrest] at hperm
        have h₁a : Accounted (h.setNext b (h.node a).next)
            (Function.update L 0 (front ++ b :: post)) :=
          ha.shrink (ha.lists.unlink hzero hL) ha.top ha.limit rfl rfl
            (fun i _ c hc => mem_of_mem_rest hperm hc) (h.setNext_size b _)
        obtain ⟨ha', hout⟩ := ha.takeOff inSize hzero hperm h₁a rfl rfl (by
          rw [(h.setNext_size b _ a).1]
          exact hroom.trans henough)
        refine ⟨_, _, _, ?_, ha', hout⟩
        rw [List.getLast?_append]
        rfl

/-- **An allocation keeps the accounts, and hands out a node that is large enough.** -/
theorem Accounted.alloc (ha : Accounted h L) {inSize : ℕ} {malloc : Option ℕ}
    (hin : inSize < 2 ^ 64) (hfresh : h.Fresh malloc) :
    ∃ r h' L', h.inAllocatorAlloc inSize malloc = some (r, h')
      ∧ Accounted h' L' ∧ HandsOut h inSize r h' := by
  have hnull : HandsOut h inSize none h := ⟨fun a hnone => absurd hnone (by simp), fun _ => rfl⟩
  unfold NodeHeap.inAllocatorAlloc
  cases hs : blockSize inSize with
  | none => exact ⟨none, h, L, rfl, ha, hnull⟩
  | some size =>
      dsimp only
      split_ifs with hbig hle hsink
      · exact ⟨none, h, L, rfl, ha, hnull⟩
      · exact ha.allocSlot hin hfresh hs (by omega) hle
      · exact ha.allocSink hin hfresh hs (by omega)
      · obtain ⟨ha', hout⟩ := ha.fromSystem_spec hfresh (by omega) hin hs
        exact ⟨_, _, L, rfl, ha', hout⟩

/-! ### Release -/

/-- The loop of `in_allocator_free` between two rounds: the free lists are `L`, and `F` is what
goes back to the system. -/
structure Freeing (s : FreeLoop) (L : ℕ → List ℕ) (F : List ℕ) : Prop where
  lists : Lists s.node s.free L
  top : Top s.free s.maxIndex
  freelist : Chain (link s.node) s.freelist F
  apart : ∀ i < indexLimit, ∀ a ∈ L i, a ∉ F

/-- A round changes one link. -/
theorem freeNode_node (maxFreeIndex : ℕ) (s : FreeLoop) (a : ℕ) :
    ∃ next, (freeNode maxFreeIndex s a).node
      = Function.update s.node a { s.node a with next := next } := by
  unfold freeNode
  dsimp only
  split
  · exact ⟨_, rfl⟩
  · split
    · exact ⟨_, rfl⟩
    · exact ⟨_, rfl⟩

/-- Freeing a node does not raise what may be kept. -/
theorem freeNode_current (maxFreeIndex : ℕ) (s : FreeLoop) (a : ℕ) :
    (freeNode maxFreeIndex s a).currentFreeIndex ≤ s.currentFreeIndex := by
  have hspend : ∀ index, spend s.currentFreeIndex index ≤ s.currentFreeIndex := by
    intro index
    unfold spend
    split <;> omega
  unfold freeNode
  dsimp only
  split
  · exact le_rfl
  · split
    · exact hspend _
    · exact hspend _

/-- A node goes to the front of its free list. -/
theorem Freeing.push {s : FreeLoop} {F : List ℕ} (hf : Freeing s L F) {a i : ℕ}
    (hL : ∀ j < indexLimit, a ∉ L j) (hF : a ∉ F) (hslot : slotOf (s.node a).index = i)
    {maxIndex : ℕ} (htop : Top (Function.update s.free i (some a)) maxIndex) (current : ℕ) :
    Freeing
      { s with
        node := Function.update s.node a { s.node a with next := s.free i }
        free := Function.update s.free i (some a)
        maxIndex := maxIndex
        currentFreeIndex := current }
      (Function.update L i (a :: L i)) F where
  lists := hf.lists.push hL hslot
  top := htop
  freelist := hf.freelist.congr fun b hb => congrArg MemNode.next <|
    Function.update_of_ne (fun heq : b = a => hF (heq ▸ hb)) _ _
  apart := fun j hj b hb hmem => by
    obtain hb | ⟨rfl, -⟩ := mem_update_cons.mp hb
    · exact hf.apart j hj b hb hmem
    · exact hF hmem

/-- A round puts its node on a free list or among those that go back to the system. -/
theorem Freeing.freeNode {s : FreeLoop} {F : List ℕ} (hf : Freeing s L F) (maxFreeIndex : ℕ)
    {a : ℕ} (hL : ∀ i < indexLimit, a ∉ L i) (hF : a ∉ F) :
    ∃ L' F', Freeing (NodeHeap.freeNode maxFreeIndex s a) L' F'
      ∧ (∀ i < indexLimit, ∀ b ∈ L' i, b ∈ L i ∨ b = a) ∧ ∀ b ∈ F', b ∈ F ∨ b = a := by
  have hpushed : ∀ i, ∀ j < indexLimit, ∀ b ∈ Function.update L i (a :: L i) j,
      b ∈ L j ∨ b = a := fun i j _ b hb => (mem_update_cons.mp hb).imp_right And.left
  unfold NodeHeap.freeNode
  dsimp only
  split
  · refine ⟨L, a :: F, ⟨hf.lists.update_of_notMem hL, hf.top, ⟨rfl, ?_⟩, ?_⟩,
      fun i _ b hb => Or.inl hb, fun b hb => (List.mem_cons.mp hb).symm⟩
    · show Chain _ (Function.update s.node a { s.node a with next := s.freelist } a).next F
      rw [Function.update_self]
      exact hf.freelist.congr fun b hb => congrArg MemNode.next <|
        Function.update_of_ne (fun heq : b = a => hF (heq ▸ hb)) _ _
    · intro i hi b hb hmem
      obtain rfl | hmem := List.mem_cons.mp hmem
      · exact hL i hi hb
      · exact hf.apart i hi b hb hmem
  · split
    · rename_i hslot
      exact ⟨_, F, hf.push hL hF (if_pos hslot) (hf.top.push hslot) _, hpushed _,
        fun b hb => Or.inl hb⟩
    · rename_i hslot
      exact ⟨_, F, hf.push hL hF (if_neg hslot) (hf.top.sink _) _, hpushed _,
        fun b hb => Or.inl hb⟩

/-- Every node of the chain ends on a free list or goes back to the system. -/
theorem Freeing.freeLoop (maxFreeIndex fuel : ℕ) {s : FreeLoop} {F chain : List ℕ}
    {a : ℕ} (hf : Freeing s L F) (hc : Chain (link s.node) (some a) chain)
    (hfuel : chain.length < fuel) (hL : ∀ b ∈ chain, ∀ i < indexLimit, b ∉ L i)
    (hF : ∀ b ∈ chain, b ∉ F) :
    ∃ s' L' F', NodeHeap.freeLoop maxFreeIndex fuel s a = some s' ∧ Freeing s' L' F'
      ∧ s'.currentFreeIndex ≤ s.currentFreeIndex
      ∧ (∀ b, (s'.node b).index = (s.node b).index ∧ (s'.node b).endp = (s.node b).endp)
      ∧ (∀ i < indexLimit, ∀ b ∈ L' i, b ∈ L i ∨ b ∈ chain)
      ∧ ∀ b ∈ F', b ∈ F ∨ b ∈ chain := by
  induction chain generalizing fuel s L F a with
  | nil => exact absurd hc (by simp)
  | cons c rest ih =>
      have hnodup := List.nodup_cons.mp hc.nodup
      rw [Chain.cons_iff, Option.some.injEq] at hc
      obtain ⟨rfl, hrest⟩ := hc
      cases fuel with
      | zero => exact absurd hfuel (Nat.not_lt_zero _)
      | succ fuel =>
          obtain ⟨L₁, F₁, hf₁, hL₁, hF₁⟩ := hf.freeNode maxFreeIndex
            (hL a List.mem_cons_self) (hF a List.mem_cons_self)
          obtain ⟨next, hnode⟩ := freeNode_node maxFreeIndex s a
          have hcurrent := freeNode_current maxFreeIndex s a
          have hsize : ∀ b, ((NodeHeap.freeNode maxFreeIndex s a).node b).index = (s.node b).index
              ∧ ((NodeHeap.freeNode maxFreeIndex s a).node b).endp = (s.node b).endp := by
            intro b
            rw [hnode]
            rcases eq_or_ne b a with rfl | hne
            · simp only [Function.update_self, and_self]
            · simp only [Function.update_of_ne hne, and_self]
          have hself : ∀ b, b = a → b ∈ a :: rest := by
            rintro b rfl
            exact List.mem_cons_self
          rw [NodeHeap.freeLoop]
          -- the rest of the chain keeps its links, as the round writes only that of `a`
          cases hnext : (s.node a).next with
          | none =>
              exact ⟨_, L₁, F₁, rfl, hf₁, hcurrent, hsize,
                fun i hi b hb => (hL₁ i hi b hb).imp id (hself b),
                fun b hb => (hF₁ b hb).imp id (hself b)⟩
          | some b =>
              rw [link, hnext] at hrest
              have hrest₁ : Chain (link (NodeHeap.freeNode maxFreeIndex s a).node) (some b)
                  rest := by
                refine hrest.congr fun c hc => ?_
                rw [link, hnode,
                  Function.update_of_ne (fun heq : c = a => hnodup.1 (heq ▸ hc)), link]
              obtain ⟨s', L', F', hrun, hf', hcurrent', hsize', hL', hF'⟩ := ih fuel
                hf₁ hrest₁ (by rw [List.length_cons] at hfuel; omega)
                (fun c hc i hi hmem => by
                  obtain hmem | rfl := hL₁ i hi c hmem
                  · exact hL c (List.mem_cons_of_mem a hc) i hi hmem
                  · exact hnodup.1 hc)
                (fun c hc hmem => by
                  obtain hmem | rfl := hF₁ c hmem
                  · exact hF c (List.mem_cons_of_mem a hc) hmem
                  · exact hnodup.1 hc)
              refine ⟨s', L', F', hrun, hf', hcurrent'.trans hcurrent, fun c => ?_, ?_, ?_⟩
              · exact ⟨(hsize' c).1.trans (hsize c).1, (hsize' c).2.trans (hsize c).2⟩
              · intro i hi c hc
                obtain hc | hc := hL' i hi c hc
                · exact (hL₁ i hi c hc).imp id (hself c)
                · exact Or.inr (List.mem_cons_of_mem a hc)
              · intro c hc
                obtain hc | hc := hF' c hc
                · exact (hF₁ c hc).imp id (hself c)
                · exact Or.inr (List.mem_cons_of_mem a hc)

/-- The nodes of `freelist` go back to the system, and no others. -/
theorem releaseLoop_spec (fuel : ℕ) {head : Option ℕ} {F : List ℕ} (blocks : List ℕ)
    (hc : Chain (link node) head F) (hfuel : F.length < fuel) :
    ∃ blocks', releaseLoop node fuel head blocks = some blocks'
      ∧ (∀ a ∈ blocks, a ∉ F → a ∈ blocks') ∧ ∀ a ∈ blocks', a ∈ blocks := by
  induction F generalizing fuel head blocks with
  | nil =>
      rw [Chain.nil_iff] at hc
      subst hc
      cases fuel with
      | zero => exact absurd hfuel (Nat.not_lt_zero _)
      | succ fuel => exact ⟨blocks, rfl, fun a ha _ => ha, fun a ha => ha⟩
  | cons b rest ih =>
      rw [Chain.cons_iff] at hc
      obtain ⟨rfl, hrest⟩ := hc
      cases fuel with
      | zero => exact absurd hfuel (Nat.not_lt_zero _)
      | succ fuel =>
          obtain ⟨blocks', hrun, hkeep, hsub⟩ := ih fuel (blocks.erase b) hrest
            (by rw [List.length_cons] at hfuel; omega)
          refine ⟨blocks', hrun, fun a ha hnot => ?_, fun a ha => List.mem_of_mem_erase (hsub a ha)⟩
          rw [List.mem_cons, not_or] at hnot
          exact hkeep a ((List.mem_erase_of_ne hnot.1).mpr ha) hnot.2

/-- **A release keeps the accounts.** -/
theorem Accounted.release (ha : Accounted h L) {a : ℕ} {chain : List ℕ}
    (hheld : h.Held a chain) :
    ∃ h' L', h.inAllocatorFree a chain = some h' ∧ Accounted h' L' := by
  obtain ⟨hc, hlive⟩ := hheld
  -- the nodes of the chain are different blocks, so the loops have rounds enough
  have hchain_le : chain.length ≤ h.blocks.length :=
    (hc.nodup.subperm fun b hb => ha.live_blocks b (hlive b hb)).length_le
  have hf : Freeing ⟨h.allocator.free, h.node, h.allocator.maxIndex,
      h.allocator.currentFreeIndex, none⟩ L [] :=
    ⟨ha.lists, ha.top, rfl, fun i _ b _ => List.not_mem_nil⟩
  obtain ⟨s', L', F', hloop, hf', hcurrent, hsize, hL', hF'⟩ :=
    hf.freeLoop h.allocator.maxFreeIndex (h.blocks.length + 1) hc (by omega)
      (fun b hb i hi hmem => ha.apart i hi b hmem (hlive b hb)) (fun b _ => List.not_mem_nil)
  have hF : ∀ b ∈ F', b ∈ chain := fun b hb => (hF' b hb).resolve_left List.not_mem_nil
  have hF_le : F'.length ≤ chain.length := (hf'.freelist.nodup.subperm hF).length_le
  obtain ⟨blocks', hrelease, hkeep, hsub⟩ := releaseLoop_spec (h.blocks.length + 1) h.blocks
    hf'.freelist (by omega)
  refine ⟨⟨{ h.allocator with
      free := s'.free, maxIndex := s'.maxIndex, currentFreeIndex := s'.currentFreeIndex },
    s'.node, blocks', h.live.filter fun b => b ∉ chain⟩, L', ?_, ?_⟩
  · rw [inAllocatorFree, hloop]
    dsimp only
    rw [hrelease]
  · refine ⟨hf'.lists, hf'.top, hcurrent.trans ha.limit, ha.live_nodup.filter _, ?_, ?_, ?_, ?_⟩
    · intro b hb
      obtain ⟨hb, hnot⟩ := List.mem_filter.mp hb
      rw [decide_eq_true_iff] at hnot
      exact hkeep b (ha.live_blocks b hb) fun hmem => hnot (hF b hmem)
    · intro i hi b hb
      refine hkeep b ?_ (hf'.apart i hi b hb)
      obtain hold | hnew := hL' i hi b hb
      · exact ha.free_blocks i hi b hold
      · exact ha.live_blocks b (hlive b hnew)
    · intro i hi b hb hmem
      obtain ⟨hmem, hnot⟩ := List.mem_filter.mp hmem
      rw [decide_eq_true_iff] at hnot
      obtain hold | hnew := hL' i hi b hb
      · exact ha.apart i hi b hold hmem
      · exact hnot hnew
    · intro b hb
      rw [(hsize b).1, (hsize b).2]
      exact ha.size b (hsub b hb)

/-! ## Runs -/

theorem start_accounted (node : ℕ → MemNode) : Accounted (start node) fun _ => [] where
  lists := ⟨fun _ _ => rfl, fun _ _ _ ha => absurd ha List.not_mem_nil⟩
  top := ⟨Nat.zero_lt_succ 79, Or.inl rfl, fun _ _ _ => rfl⟩
  limit := le_rfl
  live_nodup := List.nodup_nil
  live_blocks := fun _ ha => absurd ha List.not_mem_nil
  free_blocks := fun _ _ _ ha => absurd ha List.not_mem_nil
  apart := fun _ _ _ ha => absurd ha List.not_mem_nil
  size := fun _ ha => absurd ha List.not_mem_nil

/-- The sum wraps around when the limit is lowered, and is cut to the limit all the same. -/
theorem Accounted.maxFreeSet (ha : Accounted h L) (inSize : ℕ) :
    Accounted (h.allocatorMaxFreeSet inSize) L := by
  refine { ha with limit := ?_ }
  unfold allocatorMaxFreeSet
  dsimp only
  split <;> omega

/-- A client may write to the headers of the nodes it holds. -/
theorem Accounted.write (ha : Accounted h L) {a : ℕ} (hlive : a ∈ h.live) (next : Option ℕ)
    (firstAvail : ℕ) :
    Accounted ⟨h.allocator,
      Function.update h.node a { h.node a with next := next, firstAvail := firstAvail },
      h.blocks, h.live⟩ L := by
  refine ha.shrink (ha.lists.update_of_notMem fun i hi hmem => ha.apart i hi a hmem hlive) ha.top
    ha.limit rfl rfl (fun i _ b hb => hb) fun b => ?_
  rcases eq_or_ne b a with rfl | hne
  · simp only [Function.update_self, and_self]
  · simp only [Function.update_of_ne hne, and_self]

/-- Every enabled call returns and keeps the accounts. -/
theorem Accounted.perform (ha : Accounted h L) {a : Act} (hen : h.Enabled a) :
    ∃ h' L', NodeHeap.perform h a = some h' ∧ Accounted h' L' := by
  cases a with
  | alloc inSize malloc =>
      obtain ⟨r, h', L', hrun, ha', -⟩ := ha.alloc hen.1 hen.2
      exact ⟨h', L', by rw [NodeHeap.perform, hrun]; rfl, ha'⟩
  | free a chain => exact ha.release hen
  | mmalloc size malloc =>
      obtain ⟨r, h', L', hrun, ha', -⟩ := ha.alloc (hen.1.trans (by norm_num)) hen.2
      exact ⟨h', L', by rw [NodeHeap.perform, NodeHeap.mmalloc, hrun]; rfl, ha'⟩
  | mfree memory chain => exact ha.release hen
  | maxFreeSet inSize => exact ⟨_, L, rfl, ha.maxFreeSet inSize⟩
  | setNext a next => exact ⟨_, L, rfl, ha.write hen next _⟩
  | setFirstAvail a firstAvail => exact ⟨_, L, rfl, ha.write hen _ firstAvail⟩

/-- The lists account for all blocks in every state reached. -/
theorem Accounted.of_reach {node : ℕ → MemNode} (hr : Reach step Always (start node) h) :
    ∃ L, Accounted h L := by
  refine hr.invariant (fun h => ∃ L, Accounted h L) ⟨_, start_accounted node⟩ ?_
  rintro h a h' ⟨L, ha⟩ - hstep
  unfold step at hstep
  split at hstep
  · rename_i hen
    obtain ⟨h'', L', hrun, ha'⟩ := ha.perform hen
    rw [hrun, Option.some.injEq] at hstep
    exact ⟨L', hstep ▸ ha'⟩
  · exact absurd hstep (by simp)

/-- **The allocator hands out each node once, and large enough.**  In every state that calls
lead to: the free lists hold the nodes of their index, the sink those from `MAX_INDEX` on, and
none that a client holds; no node is held twice; `max_index` is the largest slot in use, or 0;
and what is left of the limit is within it.  An allocation returns, with `NULL` or with a node
that nobody holds and that has the bytes asked for, and every other call returns as well. -/
theorem allocator_accounted {node : ℕ → MemNode} (hr : Reach step Always (start node) h) :
    (∃ L : ℕ → List ℕ,
        (∀ i < indexLimit, Chain (fun a => (h.node a).next) (h.allocator.free i) (L i))
          ∧ (∀ i, 1 ≤ i → i < indexLimit → ∀ a ∈ L i, (h.node a).index = i)
          ∧ (∀ a ∈ L 0, indexLimit ≤ (h.node a).index)
          ∧ ∀ i < indexLimit, ∀ a ∈ L i, a ∉ h.live)
      ∧ h.live.Nodup
      ∧ (∀ i, h.allocator.maxIndex < i → i < indexLimit → h.allocator.free i = none)
      ∧ (h.allocator.maxIndex = 0 ∨ h.allocator.free h.allocator.maxIndex ≠ none)
      ∧ h.allocator.currentFreeIndex ≤ h.allocator.maxFreeIndex
      ∧ (∀ inSize malloc, inSize < 2 ^ 64 → h.Fresh malloc →
        ∃ r h', h.inAllocatorAlloc inSize malloc = some (r, h') ∧ HandsOut h inSize r h')
      ∧ ∀ a, h.Enabled a → (step h a).isSome := by
  obtain ⟨L, ha⟩ := Accounted.of_reach hr
  refine ⟨⟨L, ha.lists.chain, ?_, ?_, ha.apart⟩, ha.live_nodup, ha.top.above, ha.top.used,
    ha.limit, ?_, ?_⟩
  · intro i hpos hi a hmem
    have hslot := ha.lists.slot i hi a hmem
    unfold slotOf at hslot
    split at hslot
    · exact hslot
    · omega
  · intro a hmem
    have hzero : 0 < indexLimit := Nat.zero_lt_succ 79
    have hslot := ha.lists.slot 0 hzero a hmem
    have hpos := (ha.size a (ha.free_blocks 0 hzero a hmem)).1
    unfold slotOf at hslot
    split at hslot <;> omega
  · intro inSize malloc hin hfresh
    obtain ⟨r, h', -, hrun, -, hout⟩ := ha.alloc hin hfresh
    exact ⟨r, h', hrun, hout⟩
  · intro a hen
    obtain ⟨h', L', hrun, -⟩ := ha.perform hen
    rw [step, if_pos hen, hrun]
    rfl

/-- A node that was given back serves a smaller request. -/
theorem allocator_accounted_reused :
    ∃ h, Reach step Always (start fun _ => ⟨none, 0, 0, 0⟩) h ∧ h.live = [4096]
      ∧ h.allocator.maxIndex = 0 ∧ h.live.Nodup := by
  have hrun : (run step Always (start fun _ => ⟨none, 0, 0, 0⟩)
      [.alloc 1000 (some 4096), .maxFreeSet 4096, .free 4096 [4096], .alloc 500 none]).map
        (fun h => (h.live, h.allocator.maxIndex)) = some ([4096], 0) := by
    decide
  obtain ⟨h, hh, hobs⟩ := Option.map_eq_some_iff.mp hrun
  have hreach := Reach.refl.run _ hh
  rw [Prod.mk.injEq] at hobs
  exact ⟨h, hreach, hobs.1, hobs.2, (allocator_accounted hreach).2.1⟩

end NodeHeap

end Zevent.Znet

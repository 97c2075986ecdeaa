/-
# The recycled-pool stack (`zevent_push_pool`, `zevent_pop_pool` in `fdqueue.c`)

`queue_info->recycled_pools` heads a linked stack of nodes.  Any thread pushes with a
compare-and-swap loop; only the listener pops.  A step of the model is one read of the
head, one write or read of a `next` field, one compare-and-swap, or the final read of
`first_pool->pool`.

The node of a push is allocated inside the pool that is pushed (`apr_palloc` on
`pool_to_recycle`), so a node's address tells its pool: `home a` is the pool whose
memory holds the address `a`.  A pool that is popped and pushed again may reuse the
same address, and its owner may overwrite its memory in between (`scribble`); nothing
but the ownership discipline protects the stack from that.

Ownership is what the callers promise: a pool is pushed by the thread that owns it and
belongs to the listener once popped; `transfer` hands an owned pool to another thread
(through the fd queue or the pollset).
-/
import Mathlib.Tactic
import Zevent.Lib.Chain
import Zevent.Lib.Interleaving

namespace Zevent.Server

open Interleaving

set_option linter.unusedSectionVars false

/-! ## State -/

/-- `recycled_pool`: a node of the stack. -/
structure RecycledPool (Pool Addr : Type) where
  pool : Pool
  next : Option Addr

/-- Where a thread is in `zevent_push_pool`; `a` is its `new_recycle`. -/
inductive PushPc (Addr : Type) where
  | idle
  | readHead (a : Addr)
  | writeNext (a : Addr) (next : Option Addr)
  | cas (a : Addr) (next : Option Addr)

/-- Where the listener is in `zevent_pop_pool`; `first` is its `first_pool`. -/
inductive PopPc (Addr : Type) where
  | idle
  | readHead
  | readNext (first : Addr)
  | cas (first : Addr) (next : Option Addr)
  | readPool (first : Addr)

/-- The stack with the threads around it; `recycledPool` is the listener's variable that
`zevent_pop_pool` fills.  `owner`, `pushed` and `popped` are history:
who may push a pool, the pools pushed so far, and those popped and not pushed again. -/
structure PoolStack (Tid Pool Addr : Type) where
  recycledPools : Option Addr
  recycledPool : Option Pool
  node : Addr → RecycledPool Pool Addr
  pusher : Tid → PushPc Addr
  popper : PopPc Addr
  owner : Pool → Option Tid
  pushed : Finset Pool
  popped : Finset Pool

/-- The node a push works on. -/
def PushPc.addr {Addr : Type} : PushPc Addr → Option Addr
  | .idle => none
  | .readHead a | .writeNext a _ | .cas a _ => some a

namespace PoolStack

variable {Tid Pool Addr : Type} [DecidableEq Tid] [DecidableEq Pool] [DecidableEq Addr]

/-- `zevent_queue_info_create`: an empty stack.  Every pool has an owner. -/
def create (node : Addr → RecycledPool Pool Addr) (owner : Pool → Tid) :
    PoolStack Tid Pool Addr where
  recycledPools := none
  recycledPool := none
  node := node
  pusher := fun _ => .idle
  popper := .idle
  owner := fun p => some (owner p)
  pushed := ∅
  popped := ∅

/-! ## Steps -/

/-- The moves: a thread enters `zevent_push_pool` with a new node in its pool, or takes
its next step there; the listener enters `zevent_pop_pool`, or takes its next step; an
owner hands a pool on, or writes over its memory. -/
inductive Action (Tid Pool Addr : Type) where
  | startPush (t : Tid) (a : Addr)
  | push (t : Tid)
  | startPop
  | pop
  | transfer (p : Pool) (t : Tid)
  | scribble (a : Addr) (content : RecycledPool Pool Addr)

/-- One step of `zevent_push_pool` by thread `t`. -/
def pushStep (s : PoolStack Tid Pool Addr) (t : Tid) : Option (PoolStack Tid Pool Addr) :=
  match s.pusher t with
  | .idle => none
  | .readHead a =>
      some { s with pusher := Function.update s.pusher t (.writeNext a s.recycledPools) }
  | .writeNext a next =>
      some { s with
        node := Function.update s.node a { s.node a with next := next }
        pusher := Function.update s.pusher t (.cas a next) }
  | .cas a next =>
      if s.recycledPools = next then
        some { s with
          recycledPools := some a
          pusher := Function.update s.pusher t .idle }
      else some { s with pusher := Function.update s.pusher t (.readHead a) }

variable (listener : Tid)

/-- One step of `zevent_pop_pool` by the listener.  The pool is the listener's from the
compare-and-swap on; `first_pool->pool` is read one step later. -/
def popStep (s : PoolStack Tid Pool Addr) : Option (PoolStack Tid Pool Addr) :=
  match s.popper with
  | .idle => none
  | .readHead => match s.recycledPools with
      | none => some { s with popper := .idle }
      | some first => some { s with popper := .readNext first }
  | .readNext first => some { s with popper := .cas first (s.node first).next }
  | .cas first next =>
      if s.recycledPools = some first then
        some { s with
          recycledPools := next
          popper := .readPool first
          owner := Function.update s.owner (s.node first).pool (some listener)
          popped := insert (s.node first).pool s.popped }
      else some { s with popper := .readHead }
  | .readPool first =>
      some { s with popper := .idle, recycledPool := some (s.node first).pool }

/-- The listener runs one function at a time. -/
def popIdle (s : PoolStack Tid Pool Addr) : Bool :=
  match s.popper with
  | .idle => true
  | _ => false

/-- Thread `t` is not inside `zevent_push_pool`. -/
def pushIdle (s : PoolStack Tid Pool Addr) (t : Tid) : Bool := (s.pusher t).addr.isNone

/-- Thread `t` is free to do something else: it is in neither function. -/
def free (s : PoolStack Tid Pool Addr) (t : Tid) : Bool :=
  s.pushIdle t && (decide (t ≠ listener) || s.popIdle)

/-- The pool is in the hands of a thread that is free to use it. -/
def held (s : PoolStack Tid Pool Addr) (p : Pool) : Bool :=
  match s.owner p with
  | some t => s.free listener t
  | none => false

variable (home : Addr → Pool)

/-- The step function. -/
def step (s : PoolStack Tid Pool Addr) :
    Action Tid Pool Addr → Option (PoolStack Tid Pool Addr)
  | .startPush t a =>
      if s.owner (home a) = some t ∧ s.free listener t then
        some { s with
          node := Function.update s.node a { s.node a with pool := home a }
          pusher := Function.update s.pusher t (.readHead a)
          owner := Function.update s.owner (home a) none
          pushed := insert (home a) s.pushed
          popped := s.popped.erase (home a) }
      else none
  | .push t => s.pushStep t
  | .startPop =>
      if s.free listener listener then
        some { s with popper := .readHead, recycledPool := none }
      else none
  | .pop => s.popStep listener
  | .transfer p t =>
      if s.held listener p then some { s with owner := Function.update s.owner p (some t) }
      else none
  | .scribble a content =>
      if s.held listener (home a) then
        some { s with node := Function.update s.node a content }
      else none

/-! ## The invariant -/

section Invariant

variable [Fintype Tid]

/-- The thread has an unfinished push of pool `p`. -/
def pushes (p : Pool) (pc : PushPc Addr) : Prop := pc.addr.map home = some p

instance (p : Pool) : DecidablePred (pushes home p) := fun pc =>
  inferInstanceAs (Decidable (pc.addr.map home = some p))

/-- What the listener knows inside `zevent_pop_pool`: the node it looks at stays in the
stack, because nobody else pops, and its link stays as it was read. -/
def PopInv (s : PoolStack Tid Pool Addr) (chain : List Addr) : Prop :=
  match s.popper with
  | .idle | .readHead => True
  | .readNext first => first ∈ chain
  | .cas first next => first ∈ chain ∧ (s.node first).next = next
  | .readPool first =>
      (s.node first).pool = home first ∧ s.owner (home first) = some listener

/-- The invariant, about the chain of nodes from the head. -/
structure StackInv (s : PoolStack Tid Pool Addr) (chain : List Addr) : Prop where
  chain_head : Chain (fun a => (s.node a).next) s.recycledPools chain
  chain_pool : ∀ a ∈ chain, (s.node a).pool = home a
  chain_unowned : ∀ a ∈ chain, s.owner (home a) = none
  push_pool : ∀ t a, (s.pusher t).addr = some a → (s.node a).pool = home a
  push_unowned : ∀ t a, (s.pusher t).addr = some a → s.owner (home a) = none
  push_next : ∀ t a next, s.pusher t = .cas a next → (s.node a).next = next
  once : ∀ p, (chain.map home).count p + phaseCount (pushes home p) s.pusher
      + (if p ∈ s.popped then 1 else 0) = if p ∈ s.pushed then 1 else 0
  pop : s.PopInv listener home chain

variable {listener home} {s : PoolStack Tid Pool Addr} {chain : List Addr}

theorem stackInv_create (node : Addr → RecycledPool Pool Addr) (owner : Pool → Tid) :
    StackInv listener home (create node owner) [] where
  chain_head := rfl
  chain_pool := by simp
  chain_unowned := by simp
  push_pool := by simp [create, PushPc.addr]
  push_unowned := by simp [create, PushPc.addr]
  push_next := by simp [create]
  once := by
    intro p
    have hzero : phaseCount (pushes home p) (fun _ : Tid => PushPc.idle) = 0 := by
      refine Nat.eq_zero_of_not_pos fun hpos => ?_
      obtain ⟨t, ht⟩ := (phaseCount_pos_iff _ _).mp hpos
      simp [pushes, PushPc.addr] at ht
    simp [create, hzero]
  pop := trivial

namespace StackInv

/-- No pool is found twice. -/
theorem count_le_one (h : StackInv listener home s chain) (p : Pool) :
    (chain.map home).count p + phaseCount (pushes home p) s.pusher
      + (if p ∈ s.popped then 1 else 0) ≤ 1 := by
  rw [h.once p]
  split <;> omega

/-- The pool of a node in the stack is counted there. -/
theorem count_pos (home : Addr → Pool) {a : Addr} (ha : a ∈ chain) :
    0 < (chain.map home).count (home a) :=
  List.count_pos_iff.mpr (List.mem_map_of_mem ha)

/-- The pool of an unfinished push is counted there. -/
theorem phase_pos (home : Addr → Pool) {t : Tid} {a : Addr}
    (ht : (s.pusher t).addr = some a) : 0 < phaseCount (pushes home (home a)) s.pusher := by
  rw [phaseCount_pos_iff]
  exact ⟨t, by rw [pushes, ht]; rfl⟩

/-- A pool being pushed is not in the stack. -/
theorem push_not_mem (h : StackInv listener home s chain) {t : Tid} {a b : Addr}
    (ht : (s.pusher t).addr = some a) (hb : b ∈ chain) : home b ≠ home a := by
  intro hab
  have h1 := h.count_le_one (home a)
  have h2 := count_pos home hb
  have h3 := phase_pos home ht
  rw [hab] at h2
  omega

/-- Two unfinished pushes work on different pools. -/
theorem push_inj (h : StackInv listener home s chain) {t u : Tid} {a b : Addr}
    (ht : (s.pusher t).addr = some a) (hu : (s.pusher u).addr = some b)
    (hab : home a = home b) : t = u := by
  have h1 := h.count_le_one (home a)
  refine eq_of_phaseCount_le_one (pushes home (home a)) s.pusher (by omega) ?_ ?_
  · rw [pushes, ht]; rfl
  · rw [pushes, hu, hab]; rfl

/-- The thread moves on inside its push: the node it works on stays the same. -/
theorem once_same {pc : PushPc Addr} {t : Tid} (h : pc.addr = (s.pusher t).addr) (p : Pool) :
    phaseCount (pushes home p) (Function.update s.pusher t pc)
      = phaseCount (pushes home p) s.pusher := by
  refine phaseCount_congr _ fun u => ?_
  by_cases hu : u = t
  · subst hu
    rw [Function.update_self, pushes, pushes, h]
  · rw [Function.update_of_ne hu]

/-- The node every thread works on, after thread `t` moved on inside its push. -/
theorem addr_same {pc : PushPc Addr} {t : Tid} (h : pc.addr = (s.pusher t).addr) (u : Tid) :
    (Function.update s.pusher t pc u).addr = (s.pusher u).addr := by
  by_cases hu : u = t
  · subst hu
    rw [Function.update_self, h]
  · rw [Function.update_of_ne hu]

/-- A move of a pusher that touches no node and no link. -/
theorem move (h : StackInv listener home s chain) {t : Tid} {pc : PushPc Addr}
    (hpc : pc.addr = (s.pusher t).addr)
    (hcas : ∀ a next, pc = .cas a next → (s.node a).next = next) :
    StackInv listener home { s with pusher := Function.update s.pusher t pc } chain where
  chain_head := h.chain_head
  chain_pool := h.chain_pool
  chain_unowned := h.chain_unowned
  push_pool := fun u a hu => h.push_pool u a (by rw [← addr_same hpc u]; exact hu)
  push_unowned := fun u a hu => h.push_unowned u a (by rw [← addr_same hpc u]; exact hu)
  push_next := by
    intro u a next hu
    by_cases hut : u = t
    · subst hut
      simp only [Function.update_self] at hu
      exact hcas a next hu
    · simp only [Function.update_of_ne hut] at hu
      exact h.push_next u a next hu
  once := fun p => by rw [once_same hpc]; exact h.once p
  pop := h.pop

/-- A write to a node that is not in the stack, respects the push that works on it, and
is not in the listener's hands. -/
theorem write (h : StackInv listener home s chain) (a : Addr)
    (content : RecycledPool Pool Addr) (hchain : a ∉ chain)
    (hpool : ∀ t, (s.pusher t).addr = some a → content.pool = home a)
    (hnext : ∀ t next, s.pusher t = .cas a next → content.next = next)
    (hpop : ∀ first, s.popper = .readPool first → first ≠ a) :
    StackInv listener home { s with node := Function.update s.node a content } chain := by
  have hout : ∀ b, b ∈ chain → Function.update s.node a content b = s.node b := by
    intro b hb
    have hba : b ≠ a := fun hba => hchain (hba ▸ hb)
    exact Function.update_of_ne hba _ _
  refine ⟨?_, ?_, h.chain_unowned, ?_, h.push_unowned, ?_, h.once, ?_⟩
  · refine h.chain_head.congr fun b hb => ?_
    simp only [hout b hb]
  · intro b hb
    simp only [hout b hb]
    exact h.chain_pool b hb
  · intro t b hb
    by_cases hba : b = a
    · subst hba
      simp only [Function.update_self]
      exact hpool t hb
    · simp only [Function.update_of_ne hba]
      exact h.push_pool t b hb
  · intro t b next hb
    by_cases hba : b = a
    · subst hba
      simp only [Function.update_self]
      exact hnext t next hb
    · simp only [Function.update_of_ne hba]
      exact h.push_next t b next hb
  · have hp := h.pop
    unfold PopInv at hp ⊢
    cases hpc : s.popper with
    | idle | readHead => simp only
    | readNext first => simpa only [hpc] using hp
    | cas first next =>
        simp only [hpc] at hp ⊢
        rw [hout first hp.1]
        exact hp
    | readPool first =>
        simp only [hpc] at hp ⊢
        rw [Function.update_of_ne (hpop first hpc)]
        exact hp

/-- A pool in a thread's hands is neither in the stack nor being pushed. -/
theorem owned (h : StackInv listener home s chain) {a : Addr} {t : Tid}
    (ho : s.owner (home a) = some t) :
    (∀ b ∈ chain, home b ≠ home a) ∧ ∀ u b, (s.pusher u).addr = some b → home b ≠ home a := by
  constructor
  · intro b hb hba
    have hnone := h.chain_unowned b hb
    rw [hba, ho] at hnone
    exact absurd hnone (by simp)
  · intro u b hb hba
    have hnone := h.push_unowned u b hb
    rw [hba, ho] at hnone
    exact absurd hnone (by simp)

/-- While the listener reads `first_pool->pool` it is not free, so no pool of its own
is handed on or written. -/
theorem held_ne (h : StackInv listener home s chain) {p : Pool} {first : Addr}
    (hh : s.held listener p = true) (hpop : s.popper = .readPool first) : home first ≠ p := by
  rintro rfl
  have hp := h.pop
  simp only [PopInv, hpop] at hp
  simp [held, hp.2, free, popIdle, hpop] at hh

/-- Leaving a push takes its pool out of the unfinished ones. -/
theorem phase_leave (home : Addr → Pool) {t : Tid} {a : Addr}
    (ht : (s.pusher t).addr = some a) (p : Pool) :
    phaseCount (pushes home p) (Function.update s.pusher t .idle)
      + (if home a = p then 1 else 0) = phaseCount (pushes home p) s.pusher := by
  have h := phaseCount_update (pushes home p) s.pusher t .idle
  have h1 : pushes home p (s.pusher t) ↔ home a = p := by simp [pushes, ht]
  have h2 : ¬ pushes home p (.idle : PushPc Addr) := by simp [pushes, PushPc.addr]
  simp only [h1, h2, if_false, add_zero] at h
  exact h

/-- Entering a push adds its pool to the unfinished ones. -/
theorem phase_enter (home : Addr → Pool) {t : Tid} (a : Addr)
    (ht : (s.pusher t).addr = none) (p : Pool) :
    phaseCount (pushes home p) (Function.update s.pusher t (.readHead a))
      = phaseCount (pushes home p) s.pusher + (if home a = p then 1 else 0) := by
  have h := phaseCount_update (pushes home p) s.pusher t (.readHead a)
  have h1 : ¬ pushes home p (s.pusher t) := by simp [pushes, ht]
  have h2 : pushes home p (.readHead a : PushPc Addr) ↔ home a = p := by
    simp [pushes, PushPc.addr]
  simp only [h1, h2, if_false, add_zero] at h
  exact h

/-- The addresses the other threads work on, after thread `t` left or entered a push. -/
theorem addr_update {pc : PushPc Addr} {t u : Tid} {b : Addr}
    (hu : (Function.update s.pusher t pc u).addr = some b) :
    (u = t ∧ pc.addr = some b) ∨ (u ≠ t ∧ (s.pusher u).addr = some b) := by
  by_cases hut : u = t
  · subst hut
    rw [Function.update_self] at hu
    exact Or.inl ⟨rfl, hu⟩
  · rw [Function.update_of_ne hut] at hu
    exact Or.inr ⟨hut, hu⟩

/-- The compare-and-swap of a push links its node in front of the chain it has read. -/
theorem cas_push (h : StackInv listener home s chain) {t : Tid} {a : Addr} {next : Option Addr}
    (hpc : s.pusher t = .cas a next) (hhead : s.recycledPools = next) :
    StackInv listener home
      { s with recycledPools := some a, pusher := Function.update s.pusher t .idle }
      (a :: chain) := by
  have haddr : (s.pusher t).addr = some a := by rw [hpc]; rfl
  have hleft : ∀ u b, (Function.update s.pusher t .idle u).addr = some b →
      (s.pusher u).addr = some b := by
    intro u b hu
    obtain ⟨-, hb⟩ | ⟨-, hb⟩ := addr_update hu
    · exact absurd hb (by simp [PushPc.addr])
    · exact hb
  refine ⟨⟨rfl, ?_⟩, ?_, ?_, ?_, ?_, ?_, ?_, ?_⟩
  · simp only [h.push_next t a next hpc, ← hhead]
    exact h.chain_head
  · intro b hb
    obtain rfl | hb := List.mem_cons.mp hb
    · exact h.push_pool t b haddr
    · exact h.chain_pool b hb
  · intro b hb
    obtain rfl | hb := List.mem_cons.mp hb
    · exact h.push_unowned t b haddr
    · exact h.chain_unowned b hb
  · exact fun u b hu => h.push_pool u b (hleft u b hu)
  · exact fun u b hu => h.push_unowned u b (hleft u b hu)
  · intro u b nx hu
    by_cases hut : u = t
    · subst hut
      simp only [Function.update_self] at hu
      exact absurd hu (by simp)
    · simp only [Function.update_of_ne hut] at hu
      exact h.push_next u b nx hu
  · intro p
    have hcount := phase_leave home haddr p
    have honce := h.once p
    by_cases hp : home a = p
    · rw [if_pos hp] at hcount
      simp only [List.map_cons, hp, List.count_cons_self]
      omega
    · rw [if_neg hp] at hcount
      simp only [List.map_cons, List.count_cons_of_ne hp]
      omega
  · have hp := h.pop
    unfold PopInv at hp ⊢
    cases hpop : s.popper with
    | idle | readHead => simp only
    | readNext first =>
        simp only [hpop] at hp ⊢
        exact List.mem_cons_of_mem a hp
    | cas first nx =>
        simp only [hpop] at hp ⊢
        exact ⟨List.mem_cons_of_mem a hp.1, hp.2⟩
    | readPool first =>
        simp only [hpop] at hp ⊢
        exact hp

/-- One step of `zevent_push_pool` keeps the invariant. -/
theorem pushStep (h : StackInv listener home s chain) {s' : PoolStack Tid Pool Addr} {t : Tid}
    (hs : s.pushStep t = some s') : ∃ chain', StackInv listener home s' chain' := by
  unfold PoolStack.pushStep at hs
  cases hpc : s.pusher t with
  | idle =>
      simp only [hpc] at hs
      exact absurd hs (by simp)
  | readHead a =>
      simp only [hpc, Option.some.injEq] at hs
      subst hs
      exact ⟨chain, h.move (by rw [hpc]; rfl) (by simp)⟩
  | writeNext a next =>
      simp only [hpc, Option.some.injEq] at hs
      subst hs
      have haddr : (s.pusher t).addr = some a := by rw [hpc]; rfl
      have hw := h.write a { s.node a with next := next }
        (fun ha => h.push_not_mem haddr ha rfl)
        (fun u hu => h.push_pool u a hu)
        (fun u next' hu => by
          have hut : t = u := h.push_inj haddr (by rw [hu]; rfl) rfl
          rw [← hut, hpc] at hu
          exact absurd hu (by simp))
        (fun first hf hfa => by
          have hp := h.pop
          simp only [PopInv, hf] at hp
          rw [hfa, h.push_unowned t a haddr] at hp
          exact absurd hp.2 (by simp))
      exact ⟨chain, hw.move (by rw [hpc]; rfl) (fun a' next' heq => by
        simp only [PushPc.cas.injEq] at heq
        obtain ⟨rfl, rfl⟩ := heq
        simp)⟩
  | cas a next =>
      simp only [hpc] at hs
      split at hs <;> rw [Option.some.injEq] at hs <;> subst hs
      · rename_i hhead
        exact ⟨a :: chain, h.cas_push hpc hhead⟩
      · exact ⟨chain, h.move (by rw [hpc]; rfl) (by simp)⟩

/-- The compare-and-swap of a pop takes the first node off the chain: only the listener
pops, so the link it read is still the link of that node. -/
theorem cas_pop (h : StackInv listener home s chain) {first : Addr} {next : Option Addr}
    (hpc : s.popper = .cas first next) (hhead : s.recycledPools = some first) :
    ∃ rest, StackInv listener home
      { s with
        recycledPools := next
        popper := .readPool first
        owner := Function.update s.owner (s.node first).pool (some listener)
        popped := insert (s.node first).pool s.popped } rest := by
  have hp := h.pop
  simp only [PopInv, hpc] at hp
  obtain ⟨rest, rfl⟩ : ∃ rest, chain = first :: rest := by
    have hchain := h.chain_head
    cases chain with
    | nil => exact absurd hp.1 (by simp)
    | cons b rest =>
        rw [Chain.cons_iff, hhead, Option.some.injEq] at hchain
        exact ⟨rest, by rw [hchain.1]⟩
  have hpool : (s.node first).pool = home first := h.chain_pool first List.mem_cons_self
  have hone := h.count_le_one (home first)
  simp only [List.map_cons, List.count_cons_self] at hone
  have hrest : ∀ b ∈ rest, home b ≠ home first := by
    intro b hb hbf
    have hpos := count_pos home hb
    rw [hbf] at hpos
    omega
  have hpush : ∀ t b, (s.pusher t).addr = some b → home b ≠ home first := by
    intro t b hb hbf
    have hpos := phase_pos home hb
    rw [hbf] at hpos
    omega
  refine ⟨rest, ?_, fun b hb => h.chain_pool b (List.mem_cons_of_mem first hb), ?_,
    h.push_pool, ?_, h.push_next, ?_, ?_⟩
  · rw [← hp.2]
    exact h.chain_head.2
  · intro b hb
    simp only [hpool, Function.update_of_ne (hrest b hb)]
    exact h.chain_unowned b (List.mem_cons_of_mem first hb)
  · intro t b hb
    simp only [hpool, Function.update_of_ne (hpush t b hb)]
    exact h.push_unowned t b hb
  · intro p
    have honce := h.once p
    simp only [hpool, Finset.mem_insert]
    by_cases hpf : home first = p
    · subst hpf
      have hnot : home first ∉ s.popped := by
        intro hmem
        rw [if_pos hmem] at hone
        omega
      simp only [List.map_cons, List.count_cons_self, hnot, if_false, add_zero, or_false] at honce ⊢
      rw [if_true]
      omega
    · simp only [List.map_cons, List.count_cons_of_ne hpf, Ne.symm hpf, false_or] at honce ⊢
      exact honce
  · simp only [PopInv, hpool, Function.update_self, and_self]

/-- A move of the listener that touches nothing shared. -/
theorem pop_move (h : StackInv listener home s chain) (pc : PopPc Addr) (r : Option Pool)
    (hpc : PopInv listener home { s with popper := pc, recycledPool := r } chain) :
    StackInv listener home { s with popper := pc, recycledPool := r } chain :=
  ⟨h.chain_head, h.chain_pool, h.chain_unowned, h.push_pool, h.push_unowned, h.push_next,
    h.once, hpc⟩

/-- One step of `zevent_pop_pool` keeps the invariant. -/
theorem popStep (h : StackInv listener home s chain) {s' : PoolStack Tid Pool Addr}
    (hs : s.popStep listener = some s') : ∃ chain', StackInv listener home s' chain' := by
  unfold PoolStack.popStep at hs
  cases hpc : s.popper with
  | idle =>
      simp only [hpc] at hs
      exact absurd hs (by simp)
  | readHead =>
      simp only [hpc] at hs
      split at hs <;> rw [Option.some.injEq] at hs <;> subst hs
      · exact ⟨chain, h.pop_move .idle s.recycledPool trivial⟩
      · rename_i first hhead
        refine ⟨chain, h.pop_move (.readNext first) s.recycledPool ?_⟩
        have hchain := h.chain_head
        cases chain with
        | nil => exact absurd (hhead.symm.trans hchain) (by simp)
        | cons b rest =>
            rw [Chain.cons_iff, hhead, Option.some.injEq] at hchain
            simp only [PopInv, hchain.1, List.mem_cons_self]
  | readNext first =>
      simp only [hpc, Option.some.injEq] at hs
      subst hs
      have hp := h.pop
      simp only [PopInv, hpc] at hp
      exact ⟨chain, h.pop_move (.cas first _) s.recycledPool ⟨hp, rfl⟩⟩
  | cas first next =>
      simp only [hpc] at hs
      split at hs <;> rw [Option.some.injEq] at hs <;> subst hs
      · rename_i hhead
        exact h.cas_pop hpc hhead
      · exact ⟨chain, h.pop_move .readHead s.recycledPool trivial⟩
  | readPool first =>
      simp only [hpc, Option.some.injEq] at hs
      subst hs
      exact ⟨chain, h.pop_move .idle _ trivial⟩

/-- Entering `zevent_push_pool` takes the pool out of its owner's hands. -/
theorem startPush (h : StackInv listener home s chain) {t : Tid} {a : Addr}
    (ho : s.owner (home a) = some t) (hfree : s.free listener t = true) :
    StackInv listener home
      { s with
        node := Function.update s.node a { s.node a with pool := home a }
        pusher := Function.update s.pusher t (.readHead a)
        owner := Function.update s.owner (home a) none
        pushed := insert (home a) s.pushed
        popped := s.popped.erase (home a) } chain := by
  obtain ⟨hchain, hpush⟩ := h.owned ho
  have hheld : s.held listener (home a) = true := by simp only [held, ho, hfree]
  have hw := h.write a { s.node a with pool := home a } (fun ha => hchain a ha rfl)
    (fun u hu => absurd rfl (hpush u a hu))
    (fun u next hu => absurd rfl (hpush u a (by rw [hu]; rfl)))
    (fun first hf hfa => h.held_ne hheld hf (by rw [hfa]))
  have hidle : (s.pusher t).addr = none := by
    simp only [free, pushIdle, Bool.and_eq_true, Option.isNone_iff_eq_none] at hfree
    exact hfree.1
  refine ⟨hw.chain_head, hw.chain_pool, ?_, ?_, ?_, ?_, ?_, ?_⟩
  · intro b hb
    simp only [Function.update_of_ne (hchain b hb)]
    exact h.chain_unowned b hb
  · intro u b hu
    obtain ⟨-, hb⟩ | ⟨-, hb⟩ := addr_update hu
    · simp only [PushPc.addr, Option.some.injEq] at hb
      subst hb
      simp only [Function.update_self]
    · exact hw.push_pool u b hb
  · intro u b hu
    obtain ⟨-, hb⟩ | ⟨-, hb⟩ := addr_update hu
    · simp only [PushPc.addr, Option.some.injEq] at hb
      subst hb
      simp only [Function.update_self]
    · simp only [Function.update_of_ne (hpush u b hb)]
      exact h.push_unowned u b hb
  · intro u b next hu
    by_cases hut : u = t
    · subst hut
      simp only [Function.update_self] at hu
      exact absurd hu (by simp)
    · simp only [Function.update_of_ne hut] at hu
      exact hw.push_next u b next hu
  · intro p
    have hcount := phase_enter home a hidle p
    have honce := h.once p
    by_cases hp : home a = p
    · subst hp
      have hzero : (chain.map home).count (home a) = 0 := by
        rw [List.count_eq_zero, List.mem_map]
        rintro ⟨b, hb, hba⟩
        exact hchain b hb hba
      have hnone : phaseCount (pushes home (home a)) s.pusher = 0 := by
        refine Nat.eq_zero_of_not_pos fun hpos => ?_
        obtain ⟨u, hu⟩ := (phaseCount_pos_iff _ _).mp hpos
        obtain ⟨b, hb, hba⟩ := Option.map_eq_some_iff.mp hu
        exact hpush u b hb hba
      rw [if_pos rfl, hnone] at hcount
      simp only [Finset.mem_insert_self, Finset.notMem_erase, if_true, if_false, hcount, hzero]
    · rw [if_neg hp, add_zero] at hcount
      simp only [Finset.mem_insert, Finset.mem_erase, Ne.symm hp, ne_eq, not_false_eq_true,
        true_and, false_or]
      rw [hcount]
      exact honce
  · have hp := hw.pop
    unfold PopInv at hp ⊢
    cases hpop : s.popper with
    | idle | readHead => simp only
    | readNext first => simpa only [hpop] using hp
    | cas first next => simpa only [hpop] using hp
    | readPool first =>
        simp only [hpop] at hp ⊢
        rw [Function.update_of_ne (h.held_ne hheld hpop)]
        exact hp

/-- A held pool has an owner. -/
theorem owner_of_held {p : Pool} (hh : s.held listener p = true) : ∃ t, s.owner p = some t := by
  unfold held at hh
  split at hh
  · rename_i t ht
    exact ⟨t, ht⟩
  · exact absurd hh (by simp)

/-- Handing an owned pool to another thread. -/
theorem transfer (h : StackInv listener home s chain) {p : Pool} {t : Tid}
    (hheld : s.held listener p = true) :
    StackInv listener home { s with owner := Function.update s.owner p (some t) } chain := by
  obtain ⟨u, ho⟩ := owner_of_held hheld
  have hne : ∀ q, s.owner q = none → q ≠ p := by
    rintro q hq rfl
    exact absurd (hq.symm.trans ho) (by simp)
  refine ⟨h.chain_head, h.chain_pool, ?_, h.push_pool, ?_, h.push_next, h.once, ?_⟩
  · intro b hb
    simp only [Function.update_of_ne (hne _ (h.chain_unowned b hb))]
    exact h.chain_unowned b hb
  · intro v b hb
    simp only [Function.update_of_ne (hne _ (h.push_unowned v b hb))]
    exact h.push_unowned v b hb
  · have hp := h.pop
    unfold PopInv at hp ⊢
    cases hpop : s.popper with
    | idle | readHead => simp only
    | readNext first => simpa only [hpop] using hp
    | cas first next => simpa only [hpop] using hp
    | readPool first =>
        simp only [hpop] at hp ⊢
        rw [Function.update_of_ne (h.held_ne hheld hpop)]
        exact hp

/-- **Every step keeps the invariant**, of the chain it leaves. -/
theorem step (h : StackInv listener home s chain) {s' : PoolStack Tid Pool Addr}
    {act : Action Tid Pool Addr} (hs : s.step listener home act = some s') :
    ∃ chain', StackInv listener home s' chain' := by
  cases act with
  | startPush t a =>
      simp only [PoolStack.step] at hs
      split at hs
      · rename_i hok
        rw [Option.some.injEq] at hs
        subst hs
        exact ⟨chain, h.startPush hok.1 hok.2⟩
      · exact absurd hs (by simp)
  | push t => exact h.pushStep hs
  | pop => exact h.popStep hs
  | startPop =>
      simp only [PoolStack.step] at hs
      split at hs
      · rw [Option.some.injEq] at hs
        subst hs
        exact ⟨chain, h.pop_move .readHead none trivial⟩
      · exact absurd hs (by simp)
  | transfer p t =>
      simp only [PoolStack.step] at hs
      split at hs
      · rename_i hheld
        rw [Option.some.injEq] at hs
        subst hs
        exact ⟨chain, h.transfer hheld⟩
      · exact absurd hs (by simp)
  | scribble a content =>
      simp only [PoolStack.step] at hs
      split at hs
      · rename_i hheld
        rw [Option.some.injEq] at hs
        subst hs
        obtain ⟨t, ho⟩ := owner_of_held hheld
        obtain ⟨hchain, hpush⟩ := h.owned ho
        exact ⟨chain, h.write a content (fun ha => hchain a ha rfl)
          (fun u hu => absurd rfl (hpush u a hu))
          (fun u next hu => absurd rfl (hpush u a (by rw [hu]; rfl)))
          fun first hf hfa => h.held_ne hheld hf (by rw [hfa])⟩
      · exact absurd hs (by simp)

end StackInv

/-- The invariant holds along every run. -/
theorem exists_chain_of_reach {node : Addr → RecycledPool Pool Addr} {owner : Pool → Tid}
    {s : PoolStack Tid Pool Addr}
    (h : Reach (step listener home) Always (create node owner) s) :
    ∃ chain, StackInv listener home s chain :=
  h.invariant (fun s => ∃ chain, StackInv listener home s chain)
    ⟨[], stackInv_create node owner⟩ fun _ _ _ ⟨_, hinv⟩ _ hs => hinv.step hs

end Invariant

end PoolStack

open PoolStack

end Zevent.Server

/-
# The peer table (`hashtable.c`)

An array of buckets whose chains run through a field of the objects themselves.  An insertion
may double the array: each old chain is reversed in place, and its objects go one by one to the
front of their new buckets.  An iterator keeps the link it came through, and counts the objects
it has passed; it ends when the count is the size of the table, and looks for the next bucket
without looking where the array ends.

The keys and the chain fields belong to the objects, so a table has them for every object that
there could be, and the client may write those of the objects that are not in the table.
Whether the array is too full for its ratio, and whether `calloc` has the memory to grow, is
not known here: both are arguments of an insertion.  A call that reads outside an array, or does
not end, is `none`.

`htbl_refines` says that the table is the set of the objects that were inserted and neither
removed nor deleted by a traversal.
-/
import Mathlib.Tactic
import Zevent.Lib.Buckets

namespace Zevent.Znet

/-- A pointer to a link: a bucket, or the chain field of an object. -/
inductive Link (A : Type)
  | bucket (i : ℕ)
  | chain (o : A)

/-- `struct _htbl`, with the keys and the chain fields of the objects. -/
structure Htbl (A K : Type) where
  buckets : List (Option A)
  buckcnt : ℕ
  size : ℕ
  key : A → K
  chain : A → Option A

/-- `struct htbl_iter`. -/
structure HtblIter (A : Type) where
  bi : ℕ
  cnt : ℕ
  ptr : Link A
  obj : A

namespace Htbl

section

variable {A K : Type}

/-- `_htbl_create`. -/
def htblCreate (key : A → K) (chain : A → Option A) : Htbl A K where
  buckets := List.replicate 1 none
  buckcnt := 1
  size := 0
  key := key
  chain := chain

/-- The bucket of a key. -/
def bucketOf (hash : K → UInt64) (t : Htbl A K) (k : K) : ℕ := (hash k).toNat % t.buckcnt

variable [DecidableEq A]

/-- `*p = x`. -/
def store (t : Htbl A K) (p : Link A) (x : Option A) : Htbl A K :=
  match p with
  | .bucket i => { t with buckets := t.buckets.set i x }
  | .chain o => { t with chain := Function.update t.chain o x }

/-! ### Growth -/

/-- `bucket_rev`: the objects of the chain `n` go one by one in front of the chain `p`. -/
def bucketRev : ℕ → (A → Option A) → Option A → Option A → Option (Option A × (A → Option A))
  | 0, _, _, _ => none
  | _ + 1, chain, p, none => some (p, chain)
  | fuel + 1, chain, p, some n => bucketRev fuel (Function.update chain n p) (some n) (chain n)

/-- `bucket_insert`. -/
def bucketInsert (hash : K → UInt64) (t : Htbl A K) (o : A) : Option (Htbl A K) :=
  let bi := t.bucketOf hash (t.key o)
  match t.buckets[bi]? with
  | none => none
  | some head =>
      some { t with
        chain := Function.update t.chain o head
        buckets := t.buckets.set bi (some o) }

/-- The inner loop of `_htbl_grow`. -/
def insertChain (hash : K → UInt64) : ℕ → Htbl A K → Option A → Option (Htbl A K)
  | 0, _, _ => none
  | _ + 1, t, none => some t
  | fuel + 1, t, some o =>
      -- read first, as `bucket_insert` writes the chain field
      let s := t.chain o
      match bucketInsert hash t o with
      | none => none
      | some t => insertChain hash fuel t s

/-- The loop of `_htbl_grow` over the old buckets. -/
def growLoop (hash : K → UInt64) (t : Htbl A K) : List (Option A) → Option (Htbl A K)
  | [] => some t
  | head :: obuckets =>
      -- reversed, so that the objects of a bucket keep their order
      match bucketRev (t.size + 1) t.chain none head with
      | none => none
      | some (o, chain) =>
          match insertChain hash (t.size + 1) { t with chain := chain } o with
          | none => none
          | some t => growLoop hash t obuckets

/-- `_htbl_grow`.  `calloc` has no memory if `alloc` is false, nor for a number of bytes that
does not fit in a `size_t`. -/
def htblGrow (hash : K → UInt64) (alloc : Bool) (t : Htbl A K) : Option (Htbl A K) :=
  let ncnt := (2 * t.buckcnt + 1) % 2 ^ 64
  if alloc = false ∨ 2 ^ 64 ≤ ncnt * 8 then some t
  else growLoop hash { t with buckets := List.replicate ncnt none, buckcnt := ncnt } t.buckets

/-- `_htbl_insert`; `full` is the comparison with `ratio`. -/
def htblInsert (hash : K → UInt64) (t : Htbl A K) (o : A) (full alloc : Bool) :
    Option (Htbl A K) :=
  match bucketInsert hash t o with
  | none => none
  | some t =>
      let t := { t with size := t.size + 1 }
      if full then htblGrow hash alloc t else some t

/-! ### Search and removal -/

/-- The link that a walk came through: a bucket, or the object it passed last. -/
def linkFrom (bi : ℕ) (ref : Option A) : Link A :=
  match ref with
  | none => .bucket bi
  | some o => .chain o

/-- `_htbl_find`. -/
def htblFind [DecidableEq K] (hash : K → UInt64) (t : Htbl A K) (k : K) : Option (Option A) :=
  match t.buckets[t.bucketOf hash k]? with
  | none => none
  | some head =>
      (Chain.walk t.chain (fun o => t.key o == k) (t.size + 1) none head).map Prod.snd

/-- `_htbl_remove`. -/
def htblRemove [DecidableEq K] (hash : K → UInt64) (t : Htbl A K) (k : K) :
    Option (Option A × Htbl A K) :=
  let bi := t.bucketOf hash k
  match t.buckets[bi]? with
  | none => none
  | some head =>
      match Chain.walk t.chain (fun o => t.key o == k) (t.size + 1) none head with
      | none => none
      | some (_, none) => some (none, t)
      | some (ref, some o) =>
          let t := t.store (linkFrom bi ref) (t.chain o)
          some (some o, { t with size := t.size - 1 })

/-! ### Iteration -/

/-- The loop of `iter_next_bucket` over the buckets from `bi` on; it does not end before it
finds an object. -/
def scan : List (Option A) → ℕ → Option (ℕ × A)
  | [], _ => none
  | none :: buckets, bi => scan buckets (bi + 1)
  | some o :: _, bi => some (bi, o)

/-- `iter_next_bucket`. -/
def iterNextBucket (t : Htbl A K) (bi cnt : ℕ) : Option (HtblIter A) :=
  match scan (t.buckets.drop bi) bi with
  | none => none
  | some (bi, o) => some ⟨bi, cnt, .bucket bi, o⟩

/-- `_htbl_iter_first`; a result without an iterator is `NULL`. -/
def htblIterFirst (t : Htbl A K) : Option (Option (HtblIter A)) :=
  if t.size = 0 then some none
  else (t.iterNextBucket 0 1).map some

/-- `_htbl_iter_next`. -/
def htblIterNext (t : Htbl A K) (it : HtblIter A) : Option (Option (HtblIter A)) :=
  if it.cnt = t.size then some none
  else
    let it := { it with cnt := it.cnt + 1 }
    match t.chain it.obj with
    | some tmp => some (some { it with ptr := .chain it.obj, obj := tmp })
    | none => (t.iterNextBucket (it.bi + 1) it.cnt).map some

/-- `_htbl_iter_del`. -/
def htblIterDel (t : Htbl A K) (it : HtblIter A) : Option (Option (HtblIter A) × Htbl A K) :=
  let t := { t with size := t.size - 1 }
  -- it was the last object
  if it.cnt > t.size then some (none, t.store it.ptr none)
  else
    match t.chain it.obj with
    | some tmp => some (some { it with obj := tmp }, t.store it.ptr (some tmp))
    | none =>
        let t := t.store it.ptr none
        (t.iterNextBucket (it.bi + 1) it.cnt).map fun it => (some it, t)

/-- What a client does at an object of a traversal. -/
inductive Visit
  | next
  | del
  | stop
  deriving DecidableEq

/-- A traversal by a client that looks at the object and at what it did before. -/
def traverseFrom (client : List (A × Visit) → A → Visit) :
    ℕ → Htbl A K → Option (HtblIter A) → List (A × Visit) →
      Option (List (A × Visit) × Htbl A K)
  | 0, _, _, _ => none
  | _ + 1, t, none, trace => some (trace, t)
  | fuel + 1, t, some it, trace =>
      let visit := client trace it.obj
      let trace := trace ++ [(it.obj, visit)]
      match visit with
      | .next =>
          match t.htblIterNext it with
          | none => none
          | some next => traverseFrom client fuel t next trace
      | .del =>
          match t.htblIterDel it with
          | none => none
          | some (next, t) => traverseFrom client fuel t next trace
      | .stop => some (trace, t)

/-- A traversal from the start: the objects it came to, and what the client did there. -/
def traverse (t : Htbl A K) (client : List (A × Visit) → A → Visit) :
    Option (List (A × Visit) × Htbl A K) :=
  match t.htblIterFirst with
  | none => none
  | some it => traverseFrom client (t.size + 1) t it []

end

/-! ## What holds of a table -/

variable {A K : Type} {hash : K → UInt64} {t t' : Htbl A K} {P P' : Finset A} {B : ℕ → List A}

/-- The chains of the array are the lists `B`, and these are the objects `P`, each in the
bucket of its key; no two of them have the same key. -/
structure Rep (hash : K → UInt64) (t : Htbl A K) (P : Finset A) (B : ℕ → List A) : Prop where
  length : t.buckets.length = t.buckcnt
  pos : 0 < t.buckcnt
  lt : t.buckcnt * 8 < 2 ^ 64
  buckets : Buckets t.buckets t.chain B
  mem : ∀ i < t.buckcnt, ∀ o, o ∈ B i ↔ o ∈ P ∧ t.bucketOf hash (t.key o) = i
  inj : ∀ o ∈ P, ∀ o' ∈ P, t.key o = t.key o' → o = o'
  size : t.size = P.card

/-- The bucket of a key is inside of the array. -/
theorem bucketOf_lt (hash : K → UInt64) (hpos : 0 < t.buckcnt) (k : K) :
    t.bucketOf hash k < t.buckcnt := Nat.mod_lt _ hpos

theorem bucketOf_congr (hbuckcnt : t'.buckcnt = t.buckcnt) (k : K) :
    t'.bucketOf hash k = t.bucketOf hash k := by
  rw [bucketOf, hbuckcnt, bucketOf]

/-- Each bucket has its chain. -/
theorem Rep.chain_at (h : Rep hash t P B) {i : ℕ} (hi : i < t.buckcnt) :
    ∃ head, t.buckets[i]? = some head ∧ Chain t.chain head (B i) :=
  h.buckets.chain (by rw [h.length]; exact hi)

theorem Rep.slotted (h : Rep hash t P B) :
    Slotted t.buckcnt (fun o => t.bucketOf hash (t.key o)) P B := h.mem

theorem Rep.bucket_nodup (h : Rep hash t P B) {i : ℕ} (hi : i < t.buckcnt) : (B i).Nodup :=
  h.buckets.nodup (by rw [h.length]; exact hi)

/-- A bucket has no more objects than the table. -/
theorem Rep.bucket_length_le (h : Rep hash t P B) {i : ℕ} (hi : i < t.buckcnt) :
    (B i).length ≤ t.size := by
  rw [h.size]
  exact h.slotted.length_le hi (h.bucket_nodup hi)

/-- A traversal in the order of the array meets the objects, each once. -/
theorem Rep.traversal (h : Rep hash t P B) :
    (∀ o, o ∈ nodesFrom B t.buckcnt 0 ↔ o ∈ P) ∧ (nodesFrom B t.buckcnt 0).Nodup
      ∧ (nodesFrom B t.buckcnt 0).length = t.size := by
  have hslot : ∀ o ∈ P, t.bucketOf hash (t.key o) < t.buckcnt := fun _ _ =>
    bucketOf_lt hash h.pos _
  have hnodup : ∀ i < t.buckcnt, (B i).Nodup := fun _ => h.bucket_nodup
  refine ⟨fun o => h.slotted.mem_nodesFrom_iff hslot, h.slotted.nodesFrom_nodup hnodup, ?_⟩
  rw [h.size]
  exact h.slotted.length_nodesFrom hslot hnodup

/-- A new table is empty. -/
theorem htblCreate_rep (hash : K → UInt64) (key : A → K) (chain : A → Option A) :
    Rep hash (htblCreate key chain) ∅ fun _ => [] := by
  refine ⟨rfl, Nat.one_pos, by norm_num [htblCreate], Buckets.empty 1, ?_, ?_, rfl⟩
  · intro i _ o
    simp
  · exact fun o ho => absurd ho (Finset.notMem_empty o)

/-! ### Search -/

/-- The walk of `_htbl_find` and `_htbl_remove` ends at the object of the key, or at the end of
its bucket. -/
theorem Rep.walk [DecidableEq K] (h : Rep hash t P B) (k : K) :
    ∃ head pre rest, t.buckets[t.bucketOf hash k]? = some head
      ∧ B (t.bucketOf hash k) = pre ++ rest
      ∧ Chain.walk t.chain (fun o => t.key o == k) (t.size + 1) none head
        = some (pre.getLast?, rest.head?)
      ∧ ∀ o, rest.head? = some o ↔ o ∈ P ∧ t.key o = k := by
  have hlt := bucketOf_lt hash h.pos k
  obtain ⟨head, hhead, hchain⟩ := h.chain_at hlt
  obtain ⟨pre, rest, hB, hwalk, hpre, hstop⟩ :=
    Chain.walk_spec (fun o => t.key o == k) none hchain
      (Nat.lt_succ_of_le (h.bucket_length_le hlt))
  rw [Option.or_none] at hwalk
  have hfound : ∀ o ∈ rest.head?, o ∈ P ∧ t.key o = k := by
    intro o ho
    have hmem : o ∈ B (t.bucketOf hash k) := by
      rw [hB]
      exact List.mem_append_right _ (List.mem_of_mem_head? ho)
    exact ⟨((h.mem _ hlt o).mp hmem).1, beq_iff_eq.mp (hstop o ho)⟩
  refine ⟨head, pre, rest, hhead, hB, hwalk, fun o => ⟨hfound o, ?_⟩⟩
  rintro ⟨ho, rfl⟩
  have hmem := (h.mem _ hlt o).mpr ⟨ho, rfl⟩
  rw [hB, List.mem_append] at hmem
  obtain hmem | hmem := hmem
  · have hfalse := hpre o hmem
    rw [beq_self_eq_true] at hfalse
    cases hfalse
  · -- the walk stopped at an object with this key, and there is only one
    cases rest with
    | nil => exact absurd hmem List.not_mem_nil
    | cons b rest =>
        obtain ⟨hb, hkey⟩ := hfound b rfl
        rw [List.head?_cons, h.inj b hb o ho hkey]

/-- `_htbl_find` finds the object with the key. -/
theorem Rep.htblFind [DecidableEq K] (h : Rep hash t P B) (k : K) :
    ∃ r, Htbl.htblFind hash t k = some r ∧ ∀ o, r = some o ↔ o ∈ P ∧ t.key o = k := by
  obtain ⟨head, pre, rest, hhead, -, hwalk, hfound⟩ := h.walk k
  refine ⟨rest.head?, ?_, hfound⟩
  rw [Htbl.htblFind, hhead]
  dsimp only
  rw [hwalk]
  rfl

variable [DecidableEq A]

/-! ### Removal -/

/-- Storing through a link without an object writes the array. -/
theorem buckets_store (t : Htbl A K) (i : ℕ) (ref x : Option A) :
    (t.store (linkFrom i ref) x).buckets = Buckets.setRef t.buckets i ref x := by
  cases ref <;> rfl

/-- Storing through the link of an object writes its chain. -/
theorem chain_store (t : Htbl A K) (i : ℕ) (ref x : Option A) :
    (t.store (linkFrom i ref) x).chain = Chain.relink t.chain ref x := by
  cases ref <;> rfl

theorem store_rest (t : Htbl A K) (p : Link A) (x : Option A) :
    (t.store p x).buckcnt = t.buckcnt ∧ (t.store p x).key = t.key
      ∧ (t.store p x).size = t.size := by
  cases p <;> exact ⟨rfl, rfl, rfl⟩

/-- The table after the link to the object `o` has been made to point past it. -/
def unlink (t : Htbl A K) (p : Link A) (o : A) : Htbl A K :=
  { t with size := t.size - 1 }.store p (t.chain o)

/-- **A write through the link in front of an object takes the object out.** -/
theorem Rep.unlink (h : Rep hash t P B) {i : ℕ} {o : A} {pre rest : List A}
    (hi : i < t.buckcnt) (hB : B i = pre ++ o :: rest) :
    Rep hash (t.unlink (linkFrom i pre.getLast?) o) (P.erase o)
      (Function.update B i (pre ++ rest)) := by
  have hlt : i < t.buckets.length := by
    rw [h.length]
    exact hi
  have hoP : o ∈ P := by
    refine ((h.mem i hi o).mp ?_).1
    rw [hB]
    exact List.mem_append_right _ List.mem_cons_self
  have hslotted := h.slotted
  rw [← h.length] at hslotted
  have hwritten := hslotted.unlink h.buckets hlt hB
  obtain ⟨hbuckcnt, hkey, hsize⟩ :=
    store_rest { t with size := t.size - 1 } (linkFrom i pre.getLast?) (t.chain o)
  refine ⟨?_, ?_, ?_, ?_, fun j hj b => ?_, ?_, ?_⟩
  · rw [Htbl.unlink, buckets_store, hbuckcnt, Buckets.length_setRef]
    exact h.length
  · rw [Htbl.unlink, hbuckcnt]
    exact h.pos
  · rw [Htbl.unlink, hbuckcnt]
    exact h.lt
  · rw [Htbl.unlink, buckets_store, chain_store]
    exact hwritten
  · rw [Htbl.unlink, hbuckcnt] at hj
    rw [Htbl.unlink, hkey, bucketOf_congr hbuckcnt,
      ← h.slotted.filter_eq_update hi hB (h.bucket_nodup hi) hj]
    exact h.slotted.erase o j hj b
  · intro b hb b' hb' heq
    rw [Htbl.unlink, hkey] at heq
    exact h.inj b (Finset.mem_of_mem_erase hb) b' (Finset.mem_of_mem_erase hb') heq
  · rw [Htbl.unlink, hsize, Finset.card_erase_of_mem hoP]
    show t.size - 1 = _
    rw [h.size]

/-- `_htbl_remove` takes the object with the key out. -/
theorem Rep.htblRemove [DecidableEq K] (h : Rep hash t P B) (k : K) :
    ∃ r t' B', Htbl.htblRemove hash t k = some (r, t')
      ∧ (∀ o, r = some o ↔ o ∈ P ∧ t.key o = k)
      ∧ Rep hash t' (P.filter fun o => r ≠ some o) B' ∧ t'.key = t.key := by
  obtain ⟨head, pre, rest, hhead, hB, hwalk, hfound⟩ := h.walk k
  cases rest with
  | nil =>
      refine ⟨none, t, B, ?_, hfound, ?_, rfl⟩
      · rw [Htbl.htblRemove]
        dsimp only
        rw [hhead]
        dsimp only
        rw [hwalk]
        rfl
      · rw [Finset.filter_true_of_mem (by simp)]
        exact h
  | cons o rest =>
      refine ⟨some o, t.unlink (linkFrom (t.bucketOf hash k) pre.getLast?) o,
        Function.update B (t.bucketOf hash k) (pre ++ rest), ?_, hfound, ?_,
        (store_rest _ _ _).2.1⟩
      · rw [Htbl.htblRemove]
        dsimp only
        rw [hhead]
        dsimp only
        rw [hwalk]
        cases pre.getLast? <;> rfl
      · have herase : P.filter (fun b => some o ≠ some b) = P.erase o := by
          ext b
          rw [Finset.mem_filter, Finset.mem_erase, Ne, Option.some.injEq]
          tauto
        rw [herase]
        exact h.unlink (bucketOf_lt hash h.pos k) hB

/-! ### Insertion and growth -/

/-- The reversed chain goes in front of the chain `p`, and other objects keep their links. -/
theorem bucketRev_spec {fuel : ℕ} {chain : A → Option A} {p n : Option A} {l l' : List A}
    (hn : Chain chain n l) (hp : Chain chain p l') (hapart : ∀ o ∈ l, o ∉ l')
    (hfuel : l.length < fuel) :
    ∃ head chain', bucketRev fuel chain p n = some (head, chain')
      ∧ Chain chain' head (l.reverse ++ l') ∧ ∀ o ∉ l, chain' o = chain o := by
  induction fuel generalizing chain p n l l' with
  | zero => exact absurd hfuel (Nat.not_lt_zero _)
  | succ fuel ih =>
      cases l with
      | nil =>
          rw [Chain.nil_iff] at hn
          subst hn
          exact ⟨p, chain, rfl, hp, fun _ _ => rfl⟩
      | cons o l =>
          have hnodup := List.nodup_cons.mp hn.nodup
          obtain ⟨rfl, hrest⟩ := hn
          rw [List.length_cons] at hfuel
          have hol' : o ∉ l' := hapart o List.mem_cons_self
          have hkeep : ∀ {b : A} {x : List A}, o ∉ x → b ∈ x →
              Function.update chain o p b = chain b := by
            intro b x ho hb
            apply Function.update_of_ne
            rintro rfl
            exact ho hb
          -- `o` is the first object of the reversed chain now
          have hfront : Chain (Function.update chain o p) (some o) (o :: l') := by
            refine ⟨rfl, ?_⟩
            rw [Function.update_self]
            exact hp.congr fun b hb => hkeep hol' hb
          obtain ⟨head, chain', hrun, hchain, hother⟩ :=
            ih (hrest.congr fun b hb => hkeep hnodup.1 hb) hfront
              (fun b hb => by
                rw [List.mem_cons, not_or]
                refine ⟨?_, hapart b (List.mem_cons_of_mem o hb)⟩
                rintro rfl
                exact hnodup.1 hb) (by omega)
          refine ⟨head, chain', hrun, ?_, fun b hb => ?_⟩
          · rw [List.reverse_cons, List.append_assoc, List.singleton_append]
            exact hchain
          · rw [List.mem_cons, not_or] at hb
            rw [hother b hb.2, Function.update_of_ne hb.1]

/-- The objects `L` have come to the buckets `N`, which are the buckets `N'` now. -/
structure Inserted (hash : K → UInt64) (L : List A) (t : Htbl A K) (N : ℕ → List A)
    (t' : Htbl A K) (N' : ℕ → List A) : Prop where
  buckets : Buckets t'.buckets t'.chain N'
  mem : ∀ j < t.buckcnt, ∀ o, o ∈ N' j ↔ o ∈ N j ∨ o ∈ L ∧ t.bucketOf hash (t.key o) = j
  chain : ∀ o ∉ L, t'.chain o = t.chain o
  length : t'.buckets.length = t.buckets.length
  buckcnt : t'.buckcnt = t.buckcnt
  size : t'.size = t.size
  key : t'.key = t.key

variable {N N₁ N₂ : ℕ → List A} {t₁ t₂ : Htbl A K} {L L₁ L₂ : List A}

omit [DecidableEq A] in
/-- Objects are inserted list after list. -/
theorem Inserted.trans (h₁ : Inserted hash L₁ t N t₁ N₁) (h₂ : Inserted hash L₂ t₁ N₁ t₂ N₂) :
    Inserted hash (L₁ ++ L₂) t N t₂ N₂ where
  buckets := h₂.buckets
  mem := fun j hj o => by
    rw [h₂.mem j (by rw [h₁.buckcnt]; exact hj), h₁.mem j hj, List.mem_append,
      bucketOf_congr h₁.buckcnt, h₁.key, or_assoc, or_and_right]
  chain := fun o ho => by
    rw [List.mem_append, not_or] at ho
    rw [h₂.chain o ho.2, h₁.chain o ho.1]
  length := h₂.length.trans h₁.length
  buckcnt := h₂.buckcnt.trans h₁.buckcnt
  size := h₂.size.trans h₁.size
  key := h₂.key.trans h₁.key

/-- `bucket_insert` puts one object into its bucket. -/
theorem bucketInsert_spec (hash : K → UInt64) (hb : Buckets t.buckets t.chain N)
    (hlength : t.buckets.length = t.buckcnt) (hpos : 0 < t.buckcnt) {o : A}
    (hnew : ∀ j < t.buckcnt, o ∉ N j) :
    ∃ t' N', bucketInsert hash t o = some t' ∧ Inserted hash [o] t N t' N' := by
  have hlt : t.bucketOf hash (t.key o) < t.buckets.length := by
    rw [hlength]
    exact bucketOf_lt hash hpos _
  have hhead := List.getElem?_eq_getElem hlt
  refine ⟨_, Function.update N (t.bucketOf hash (t.key o)) (o :: N (t.bucketOf hash (t.key o))),
    by rw [bucketInsert, hhead], ?_⟩
  refine ⟨hb.push hhead fun j hj => hnew j (by rwa [hlength] at hj), fun j _ b => ?_,
    fun b hb => ?_, List.length_set, rfl, rfl, rfl⟩
  · rw [mem_update_cons, List.mem_singleton]
    refine or_congr_right (and_congr_right fun hbo => ?_)
    rw [hbo]
    exact eq_comm
  · rw [List.mem_singleton] at hb
    exact Function.update_of_ne hb _ _

/-- The inner loop of `_htbl_grow` puts the objects of a chain into their buckets; the next
object was read before the link of this one is written. -/
theorem insertChain_spec (hash : K → UInt64) {fuel : ℕ} {head : Option A}
    (hchain : Chain t.chain head L) (hfuel : L.length < fuel) (hb : Buckets t.buckets t.chain N)
    (hlength : t.buckets.length = t.buckcnt) (hpos : 0 < t.buckcnt)
    (hnew : ∀ j < t.buckcnt, ∀ o ∈ L, o ∉ N j) :
    ∃ t' N', insertChain hash fuel t head = some t' ∧ Inserted hash L t N t' N' := by
  induction fuel generalizing t head L N with
  | zero => exact absurd hfuel (Nat.not_lt_zero _)
  | succ fuel ih =>
      cases L with
      | nil =>
          rw [Chain.nil_iff] at hchain
          subst hchain
          exact ⟨t, N, rfl, hb, by simp, fun _ _ => rfl, rfl, rfl, rfl, rfl⟩
      | cons o L =>
          have hnodup := List.nodup_cons.mp hchain.nodup
          obtain ⟨rfl, hrest⟩ := hchain
          rw [List.length_cons] at hfuel
          obtain ⟨t₁, N₁, hinsert, h₁⟩ := bucketInsert_spec hash hb hlength hpos
            fun j hj => hnew j hj o List.mem_cons_self
          obtain ⟨t₂, N₂, hrun, h₂⟩ := ih (t := t₁) (N := N₁)
            (hrest.congr fun b hb => h₁.chain b (by
              rw [List.mem_singleton]
              rintro rfl
              exact hnodup.1 hb))
            (by omega) h₁.buckets (by rw [h₁.length, h₁.buckcnt, hlength])
            (by rw [h₁.buckcnt]; exact hpos)
            (fun j hj b hb => by
              rw [h₁.buckcnt] at hj
              rw [h₁.mem j hj, List.mem_singleton]
              rintro (hmem | ⟨rfl, -⟩)
              · exact hnew j hj b (List.mem_cons_of_mem o hb) hmem
              · exact hnodup.1 hb)
          refine ⟨t₂, N₂, ?_, h₁.trans h₂⟩
          rw [insertChain, hinsert]
          exact hrun

/-- The loop of `_htbl_grow` puts the objects of all old buckets into the new ones. -/
theorem growLoop_spec (hash : K → UInt64) {obuckets : List (Option A)} {lists : List (List A)}
    (hold : List.Forall₂ (Chain t.chain) obuckets lists) (hnodup : lists.flatten.Nodup)
    (hsize : ∀ l ∈ lists, l.length ≤ t.size) (hb : Buckets t.buckets t.chain N)
    (hlength : t.buckets.length = t.buckcnt) (hpos : 0 < t.buckcnt)
    (hnew : ∀ j < t.buckcnt, ∀ o ∈ lists.flatten, o ∉ N j) :
    ∃ t' N', growLoop hash t obuckets = some t' ∧ Inserted hash lists.flatten t N t' N' := by
  induction obuckets generalizing t lists N with
  | nil =>
      rw [List.forall₂_nil_left_iff] at hold
      subst hold
      exact ⟨t, N, rfl, hb, by simp, fun _ _ => rfl, rfl, rfl, rfl, rfl⟩
  | cons head obuckets ih =>
      obtain ⟨l, lists, hchain, hrest, rfl⟩ := List.forall₂_cons_left_iff.mp hold
      rw [List.flatten_cons] at hnodup hnew ⊢
      obtain ⟨-, hnodup', hapart⟩ := List.nodup_append.mp hnodup
      -- both loops over a bucket write only the links of its own objects
      have hl := hsize l List.mem_cons_self
      obtain ⟨o, chain, hrev, hreversed, hother⟩ := bucketRev_spec hchain
        (show Chain t.chain none [] from rfl) (fun _ _ => List.not_mem_nil) (Nat.lt_succ_of_le hl)
      rw [List.append_nil] at hreversed
      have hother' : ∀ b ∈ lists.flatten, b ∉ l := fun b hb hbl => hapart b hbl b hb rfl
      obtain ⟨t₁, N₁, hinsert, h₁⟩ := insertChain_spec hash
        (t := { t with chain := chain }) hreversed
        (show l.reverse.length < t.size + 1 by rw [List.length_reverse]; omega)
        (hb.congr fun j hj b hbj => hother b fun hbl =>
          hnew j (by rwa [hlength] at hj) b (List.mem_append_left _ hbl) hbj)
        hlength hpos
        (fun j hj b hbl => hnew j hj b (List.mem_append_left _ (List.mem_reverse.mp hbl)))
      have hlinks : ∀ b ∉ l, t₁.chain b = t.chain b := fun b hbl => by
        rw [h₁.chain b (by rwa [List.mem_reverse])]
        exact hother b hbl
      obtain ⟨t₂, N₂, hrun, h₂⟩ := ih (t := t₁) (N := N₁)
        (Buckets.forall₂_congr hrest fun b hb => hlinks b (hother' b hb))
        hnodup' (fun y hy => by
          rw [h₁.size]
          exact hsize y (List.mem_cons_of_mem l hy))
        h₁.buckets (by rw [h₁.length, h₁.buckcnt]; exact hlength)
        (by rw [h₁.buckcnt]; exact hpos)
        (fun j hj b hb => by
          rw [h₁.buckcnt] at hj
          rw [h₁.mem j hj, List.mem_reverse]
          rintro (hmem | ⟨hbl, -⟩)
          · exact hnew j hj b (List.mem_append_right _ hb) hmem
          · exact hother' b hb hbl)
      have h₁₂ := h₁.trans h₂
      refine ⟨t₂, N₂, ?_, h₁₂.buckets, fun j hj b => ?_, fun b hb => ?_, h₁₂.length,
        h₁₂.buckcnt, h₁₂.size, h₁₂.key⟩
      · rw [growLoop, hrev]
        dsimp only
        rw [hinsert]
        exact hrun
      · rw [h₁₂.mem j hj, List.mem_append, List.mem_append, List.mem_reverse]
        rfl
      · rw [List.mem_append, not_or] at hb
        rw [h₂.chain b hb.2, hlinks b hb.1]

/-- **Growth changes only the buckets**, also when there is no memory for it. -/
theorem Rep.htblGrow (h : Rep hash t P B) (alloc : Bool) :
    ∃ t' B', Htbl.htblGrow hash alloc t = some t' ∧ Rep hash t' P B' ∧ t'.key = t.key := by
  have hcnt : (2 * t.buckcnt + 1) % 2 ^ 64 = 2 * t.buckcnt + 1 :=
    Nat.mod_eq_of_lt (by have hlt := h.lt; omega)
  rw [Htbl.htblGrow, hcnt]
  split
  · exact ⟨t, B, rfl, h, rfl⟩
  · rename_i hgrow
    rw [not_or, not_le] at hgrow
    obtain ⟨hmem, hnodup, -⟩ := h.traversal
    have hold := h.buckets.forall₂
    rw [h.length] at hold
    obtain ⟨t', B', hrun, hinserted⟩ := growLoop_spec hash
      (t := { t with
        buckets := List.replicate (2 * t.buckcnt + 1) none
        buckcnt := 2 * t.buckcnt + 1 })
      (N := fun _ => []) hold
      (by rw [flatten_map_range]; exact hnodup)
      (fun l hl => by
        obtain ⟨i, hi, rfl⟩ := List.mem_map.mp hl
        exact h.bucket_length_le (List.mem_range.mp hi))
      (Buckets.empty _) List.length_replicate (Nat.succ_pos _) (fun _ _ _ _ => List.not_mem_nil)
    refine ⟨t', B', hrun, ⟨?_, ?_, ?_, hinserted.buckets, fun j hj o => ?_, ?_, ?_⟩,
      hinserted.key⟩
    · rw [hinserted.length, hinserted.buckcnt]
      exact List.length_replicate
    · rw [hinserted.buckcnt]
      exact Nat.succ_pos _
    · rw [hinserted.buckcnt]
      exact hgrow.2
    · rw [hinserted.buckcnt] at hj
      rw [hinserted.mem j hj, flatten_map_range, hmem, hinserted.key,
        bucketOf_congr hinserted.buckcnt]
      simp
    · rw [hinserted.key]
      exact h.inj
    · rw [hinserted.size]
      exact h.size

/-- `_htbl_insert` puts an object with a new key into the table. -/
theorem Rep.htblInsert (h : Rep hash t P B) {o : A} (hnew : ∀ o' ∈ P, t.key o' ≠ t.key o)
    (full alloc : Bool) :
    ∃ t' B', Htbl.htblInsert hash t o full alloc = some t' ∧ Rep hash t' (insert o P) B'
      ∧ t'.key = t.key := by
  have hoP : o ∉ P := fun ho => hnew o ho rfl
  obtain ⟨t₁, B₁, hinsert, h₁⟩ := bucketInsert_spec hash (o := o) h.buckets h.length
    h.pos fun j hj ho => hoP ((h.mem j hj o).mp ho).1
  have hrep : Rep hash { t₁ with size := t₁.size + 1 } (insert o P) B₁ := by
    refine ⟨?_, ?_, ?_, h₁.buckets, fun j hj b => ?_, ?_, ?_⟩
    · show t₁.buckets.length = t₁.buckcnt
      rw [h₁.length, h₁.buckcnt, h.length]
    · show 0 < t₁.buckcnt
      rw [h₁.buckcnt]
      exact h.pos
    · show t₁.buckcnt * 8 < 2 ^ 64
      rw [h₁.buckcnt]
      exact h.lt
    · have hj' : j < t.buckcnt := by
        rw [← h₁.buckcnt]
        exact hj
      show _ ↔ b ∈ insert o P ∧ t₁.bucketOf hash (t₁.key b) = j
      rw [h₁.key, bucketOf_congr h₁.buckcnt]
      refine h.slotted.insert hoP (fun _ _ => rfl) (fun k hk c => ?_) j hj' b
      rw [h₁.mem k hk, List.mem_singleton]
      refine or_congr_right (and_congr_right fun hco => ?_)
      rw [hco]
      exact eq_comm
    · show ∀ b ∈ insert o P, ∀ b' ∈ insert o P, t₁.key b = t₁.key b' → b = b'
      rw [h₁.key]
      intro b hb b' hb' heq
      rw [Finset.mem_insert] at hb hb'
      obtain rfl | hb := hb
      · obtain rfl | hb' := hb'
        · rfl
        · exact absurd heq.symm (hnew b' hb')
      · obtain rfl | hb' := hb'
        · exact absurd heq (hnew b hb)
        · exact h.inj b hb b' hb' heq
    · show t₁.size + 1 = _
      rw [h₁.size, h.size, Finset.card_insert_of_notMem hoP]
  rw [Htbl.htblInsert, hinsert]
  show ∃ t' B', (if full = true then _ else _) = some t' ∧ _
  split
  · obtain ⟨t', B', hgrow, hrep', hkey⟩ := hrep.htblGrow alloc
    exact ⟨t', B', hgrow, hrep', hkey.trans h₁.key⟩
  · exact ⟨_, B₁, rfl, hrep, h₁.key⟩

/-! ### Iteration -/

/-- The iterator is at an object, with the objects `R` still in front of it. -/
structure Positioned (t : Htbl A K) (B : ℕ → List A) (it : HtblIter A) (R : List A) : Prop where
  bi_lt : it.bi < t.buckcnt
  cnt : it.cnt + R.length = t.size
  place : ∃ pre rest, B it.bi = pre ++ it.obj :: rest ∧ it.ptr = linkFrom it.bi pre.getLast?
    ∧ R = rest ++ nodesFrom B t.buckcnt (it.bi + 1)

/-- An iterator or `NULL`, with the objects `Q` from there on. -/
def From (t : Htbl A K) (B : ℕ → List A) (it : Option (HtblIter A)) (Q : List A) : Prop :=
  match it with
  | none => Q = []
  | some it => ∃ R, Q = it.obj :: R ∧ Positioned t B it R

omit [DecidableEq A] in
/-- The scan comes to the first object from a bucket on. -/
theorem Rep.scan (h : Rep hash t P B) {n bi : ℕ} {o : A} {R : List A} (hn : t.buckcnt - bi = n)
    (hnodes : nodesFrom B t.buckcnt bi = o :: R) :
    ∃ i rest, Htbl.scan (t.buckets.drop bi) bi = some (i, o) ∧ i < t.buckcnt ∧ B i = o :: rest
      ∧ R = rest ++ nodesFrom B t.buckcnt (i + 1) := by
  induction n generalizing bi with
  | zero =>
      rw [nodesFrom_of_le (by omega)] at hnodes
      cases hnodes
  | succ n ih =>
      have hlt : bi < t.buckcnt := by omega
      have hcell : bi < t.buckets.length := by
        rw [h.length]
        exact hlt
      have hchain := h.buckets bi _ (List.getElem?_eq_getElem hcell)
      rw [nodesFrom_of_lt hlt] at hnodes
      rw [List.drop_eq_getElem_cons hcell]
      cases hB : B bi with
      | nil =>
          rw [hB, Chain.nil_iff] at hchain
          rw [hB, List.nil_append] at hnodes
          rw [hchain, Htbl.scan]
          exact ih (by omega) hnodes
      | cons b rest =>
          rw [hB, List.cons_append, List.cons.injEq] at hnodes
          obtain ⟨rfl, rfl⟩ := hnodes
          rw [hB, Chain.cons_iff] at hchain
          rw [hchain.1, Htbl.scan]
          exact ⟨bi, rest, rfl, hlt, hB, rfl⟩

omit [DecidableEq A] in
/-- `iter_next_bucket` stays in the array as long as there is an object ahead. -/
theorem Rep.iterNextBucket (h : Rep hash t P B) (cnt : ℕ) {bi : ℕ} {o : A} {R : List A}
    (hnodes : nodesFrom B t.buckcnt bi = o :: R) (hcnt : cnt + R.length = t.size) :
    ∃ it, t.iterNextBucket bi cnt = some it ∧ it.obj = o ∧ Positioned t B it R := by
  obtain ⟨i, rest, hscan, hi, hB, hR⟩ := h.scan rfl hnodes
  refine ⟨⟨i, cnt, .bucket i, o⟩, ?_, rfl, hi, hcnt, [], rest, hB, rfl, hR⟩
  rw [Htbl.iterNextBucket, hscan]

omit [DecidableEq A] in
/-- `_htbl_iter_first` comes to the first object of the table. -/
theorem Rep.htblIterFirst (h : Rep hash t P B) :
    ∃ it, t.htblIterFirst = some it ∧ From t B it (nodesFrom B t.buckcnt 0) := by
  obtain ⟨-, -, hlen⟩ := h.traversal
  rw [Htbl.htblIterFirst]
  cases hnodes : nodesFrom B t.buckcnt 0 with
  | nil =>
      rw [hnodes, List.length_nil] at hlen
      rw [if_pos hlen.symm]
      exact ⟨none, rfl, rfl⟩
  | cons o R =>
      rw [hnodes, List.length_cons] at hlen
      rw [if_neg (by omega)]
      obtain ⟨it, hnext, hobj, hpos⟩ := h.iterNextBucket 1 hnodes (by omega)
      rw [hnext]
      exact ⟨some it, rfl, R, by rw [hobj], hpos⟩

omit [DecidableEq A] in
/-- The link of the iterator's object leads to the rest of its bucket. -/
theorem Rep.chain_obj (h : Rep hash t P B) {i : ℕ} {o : A} {pre rest : List A}
    (hi : i < t.buckcnt) (hB : B i = pre ++ o :: rest) : t.chain o = rest.head? := by
  obtain ⟨head, -, hchain⟩ := h.chain_at hi
  rw [hB] at hchain
  exact hchain.suffix.2.head?_eq

omit [DecidableEq A] in
/-- **`_htbl_iter_next` comes to the next object**, and to `NULL` when none is ahead. -/
theorem Positioned.next {it : HtblIter A} {R : List A} (hp : Positioned t B it R)
    (h : Rep hash t P B) : ∃ it', t.htblIterNext it = some it' ∧ From t B it' R := by
  have hcnt := hp.cnt
  obtain ⟨pre, rest, hB, hptr, hR⟩ := hp.place
  have hlink := h.chain_obj hp.bi_lt hB
  rw [Htbl.htblIterNext]
  cases R with
  | nil =>
      rw [List.length_nil, Nat.add_zero] at hcnt
      rw [if_pos hcnt]
      exact ⟨none, rfl, rfl⟩
  | cons o R =>
      rw [List.length_cons] at hcnt
      rw [if_neg (by omega)]
      -- the next object is in the same bucket, or the first of a later one
      cases rest with
      | nil =>
          rw [List.nil_append] at hR
          obtain ⟨it', hnext, hobj, hpos⟩ :=
            h.iterNextBucket (it.cnt + 1) hR.symm (by omega)
          refine ⟨some it', ?_, R, by rw [hobj], hpos⟩
          dsimp only
          rw [hlink, List.head?_nil, hnext]
          rfl
      | cons b rest =>
          rw [List.cons_append, List.cons.injEq] at hR
          obtain ⟨rfl, rfl⟩ := hR
          refine ⟨some { it with cnt := it.cnt + 1, ptr := .chain it.obj, obj := o }, ?_,
            rest ++ nodesFrom B t.buckcnt (it.bi + 1), rfl, hp.bi_lt, by dsimp only; omega,
            pre ++ [it.obj], rest, ?_, ?_, rfl⟩
          · dsimp only
            rw [hlink, List.head?_cons]
          · rw [List.append_assoc, List.singleton_append]
            exact hB
          · rw [List.getLast?_concat]
            rfl

/-- **`_htbl_iter_del` takes the object out and comes to the next one**, and to `NULL` when none
is ahead. -/
theorem Positioned.del {it : HtblIter A} {R : List A} (hp : Positioned t B it R)
    (h : Rep hash t P B) :
    ∃ it' t' B', t.htblIterDel it = some (it', t') ∧ Rep hash t' (P.erase it.obj) B'
      ∧ t'.key = t.key ∧ From t' B' it' R := by
  have hcnt := hp.cnt
  have hlt := hp.bi_lt
  obtain ⟨pre, rest, hB, hptr, hR⟩ := hp.place
  have hlink := h.chain_obj hlt hB
  have hrep := h.unlink hlt hB
  rw [← hptr] at hrep
  obtain ⟨hbuckcnt, hkey, hsize⟩ :=
    store_rest { t with size := t.size - 1 } it.ptr (t.chain it.obj)
  have hsizePos : 0 < t.size := by
    rw [h.size, Finset.card_pos]
    refine ⟨it.obj, ((h.mem it.bi hlt it.obj).mp ?_).1⟩
    rw [hB]
    exact List.mem_append_right _ List.mem_cons_self
  -- the buckets ahead are as they were
  have hahead : nodesFrom (Function.update B it.bi (pre ++ rest))
      (t.unlink it.ptr it.obj).buckcnt (it.bi + 1) = nodesFrom B t.buckcnt (it.bi + 1) := by
    rw [Htbl.unlink, hbuckcnt]
    exact nodesFrom_congr fun j hj _ => Function.update_of_ne (by omega) _ _
  have hbi : it.bi < (t.unlink it.ptr it.obj).buckcnt := by
    rw [Htbl.unlink, hbuckcnt]
    exact hlt
  have hsize' : (t.unlink it.ptr it.obj).size = t.size - 1 := hsize
  rw [Htbl.htblIterDel]
  dsimp only
  -- what is written through `ptr` is the object's own link in each of the three branches
  cases R with
  | nil =>
      rw [List.length_nil] at hcnt
      rw [if_pos (by omega)]
      refine ⟨none, t.unlink it.ptr it.obj, _, ?_, hrep, hkey, rfl⟩
      rw [Htbl.unlink, hlink, (List.append_eq_nil_iff.mp hR.symm).1]
      rfl
  | cons o R =>
      rw [List.length_cons] at hcnt
      rw [if_neg (by omega)]
      cases rest with
      | nil =>
          rw [List.nil_append, ← hahead] at hR
          obtain ⟨it', hnext, hobj, hpos⟩ :=
            hrep.iterNextBucket it.cnt hR.symm (by omega)
          refine ⟨some it', t.unlink it.ptr it.obj, _, ?_, hrep, hkey, R, by rw [hobj], hpos⟩
          rw [Htbl.unlink, hlink, List.head?_nil] at hnext ⊢
          dsimp only
          rw [hnext]
          rfl
      | cons b rest =>
          rw [List.cons_append, List.cons.injEq] at hR
          obtain ⟨rfl, rfl⟩ := hR
          refine ⟨some { it with obj := o }, t.unlink it.ptr it.obj, _, ?_, hrep, hkey,
            rest ++ nodesFrom B t.buckcnt (it.bi + 1), rfl, hbi, by dsimp only; omega, pre, rest,
            ?_, hptr, by rw [hahead]⟩
          · rw [Htbl.unlink, hlink, List.head?_cons]
          · exact Function.update_self _ _ _

/-! ### Traversals -/

/-- A traversal comes to the objects from its iterator on, in their order, up to the first
where the client stops, and takes out those that the client deletes. -/
theorem Rep.traverseFrom (client : List (A × Visit) → A → Visit) {fuel : ℕ}
    {it : Option (HtblIter A)} {Q : List A} (trace : List (A × Visit)) (h : Rep hash t P B)
    (hit : From t B it Q) (hfuel : Q.length < fuel) :
    ∃ steps t' B', Htbl.traverseFrom client fuel t it trace = some (trace ++ steps, t')
      ∧ Rep hash t' (P.filter fun o => (o, Visit.del) ∉ steps) B' ∧ t'.key = t.key
      ∧ steps.map Prod.fst <+: Q
      ∧ ((∀ step ∈ steps, step.2 ≠ .stop) → steps.map Prod.fst = Q) := by
  induction fuel generalizing t P B it Q trace with
  | zero => exact absurd hfuel (Nat.not_lt_zero _)
  | succ fuel ih =>
      cases it with
      | none =>
          rw [From] at hit
          subst hit
          refine ⟨[], t, B, by rw [Htbl.traverseFrom, List.append_nil], ?_, rfl, by simp,
            fun _ => rfl⟩
          rw [Finset.filter_true_of_mem fun _ _ => List.not_mem_nil]
          exact h
      | some it =>
          obtain ⟨R, rfl, hp⟩ := hit
          rw [List.length_cons] at hfuel
          rw [Htbl.traverseFrom]
          cases client trace it.obj with
          | stop =>
              refine ⟨[(it.obj, .stop)], t, B, rfl, ?_, rfl, ?_, fun hgo => ?_⟩
              · rw [Finset.filter_true_of_mem (by simp)]
                exact h
              · exact List.cons_prefix_cons.mpr ⟨rfl, List.nil_prefix⟩
              · exact absurd rfl (hgo _ (List.mem_singleton_self _))
          | next =>
              obtain ⟨it', hnext, hit'⟩ := hp.next h
              obtain ⟨steps, t', B', hrun, hrep, hkey, hpre, hall⟩ :=
                ih (trace ++ [(it.obj, .next)]) h hit' (by omega)
              refine ⟨(it.obj, .next) :: steps, t', B', ?_, ?_, hkey, ?_, fun hgo => ?_⟩
              · dsimp only
                rw [hnext]
                dsimp only
                rw [hrun, List.append_assoc, List.singleton_append]
              · have hfilter : P.filter (fun o => (o, Visit.del) ∉ (it.obj, .next) :: steps)
                    = P.filter fun o => (o, Visit.del) ∉ steps := by
                  refine Finset.filter_congr fun o _ => ?_
                  simp
                rw [hfilter]
                exact hrep
              · exact List.cons_prefix_cons.mpr ⟨rfl, hpre⟩
              · rw [List.map_cons, hall fun step hstep => hgo step (List.mem_cons_of_mem _ hstep)]
          | del =>
              obtain ⟨it', t₁, B₁, hdel, hrep₁, hkey₁, hit'⟩ := hp.del h
              obtain ⟨steps, t', B', hrun, hrep, hkey, hpre, hall⟩ :=
                ih (trace ++ [(it.obj, .del)]) hrep₁ hit' (by omega)
              refine ⟨(it.obj, .del) :: steps, t', B', ?_, ?_, hkey.trans hkey₁, ?_,
                fun hgo => ?_⟩
              · dsimp only
                rw [hdel]
                dsimp only
                rw [hrun, List.append_assoc, List.singleton_append]
              · have hfilter : P.filter (fun o => (o, Visit.del) ∉ (it.obj, .del) :: steps)
                    = (P.erase it.obj).filter fun o => (o, Visit.del) ∉ steps := by
                  ext o
                  simp only [Finset.mem_filter, Finset.mem_erase, List.mem_cons, Prod.mk.injEq,
                    and_true, not_or]
                  tauto
                rw [hfilter]
                exact hrep
              · exact List.cons_prefix_cons.mpr ⟨rfl, hpre⟩
              · rw [List.map_cons, hall fun step hstep => hgo step (List.mem_cons_of_mem _ hstep)]

/-- **A traversal visits each object once**, unless the client stops it, and removes exactly the
objects that the client deletes. -/
theorem Rep.traverse (h : Rep hash t P B) (client : List (A × Visit) → A → Visit) :
    ∃ trace t' B', Htbl.traverse t client = some (trace, t')
      ∧ Rep hash t' (P.filter fun o => (o, Visit.del) ∉ trace) B' ∧ t'.key = t.key
      ∧ (trace.map Prod.fst).Nodup ∧ (∀ o ∈ trace.map Prod.fst, o ∈ P)
      ∧ ((∀ step ∈ trace, step.2 ≠ .stop) → ∀ o ∈ P, o ∈ trace.map Prod.fst) := by
  obtain ⟨hmem, hnodup, hlen⟩ := h.traversal
  obtain ⟨it, hfirst, hit⟩ := h.htblIterFirst
  obtain ⟨trace, t', B', hrun, hrep, hkey, hpre, hall⟩ :=
    h.traverseFrom client [] hit (Nat.lt_succ_of_le hlen.le)
  refine ⟨trace, t', B', ?_, hrep, hkey, hpre.sublist.nodup hnodup,
    fun o ho => (hmem o).mp (hpre.subset ho), fun hgo o ho => ?_⟩
  · rw [Htbl.traverse, hfirst]
    exact hrun
  · rw [hall hgo]
    exact (hmem o).mpr ho

/-! ## Runs -/

/-- A run from an empty table to `t`: `P` are the objects that were inserted and have since been
neither removed nor deleted by a traversal.  The client may write to the keys and the chain
fields of other objects, and it inserts an object only under a new key. -/
inductive Run [DecidableEq K] (hash : K → UInt64) : Htbl A K → Finset A → Prop
  | create (key : A → K) (chain : A → Option A) : Run hash (htblCreate key chain) ∅
  | insert {t t' : Htbl A K} {P : Finset A} {o : A} {full alloc : Bool} :
      Run hash t P → (∀ o' ∈ P, t.key o' ≠ t.key o) →
      htblInsert hash t o full alloc = some t' → Run hash t' (insert o P)
  | remove {t t' : Htbl A K} {P : Finset A} {k : K} {r : Option A} :
      Run hash t P → htblRemove hash t k = some (r, t') →
      Run hash t' (P.filter fun o => r ≠ some o)
  | traverse {t t' : Htbl A K} {P : Finset A} {client : List (A × Visit) → A → Visit}
      {trace : List (A × Visit)} :
      Run hash t P → t.traverse client = some (trace, t') →
      Run hash t' (P.filter fun o => (o, Visit.del) ∉ trace)
  | elsewhere {t : Htbl A K} {P : Finset A} {key : A → K} {chain : A → Option A} :
      Run hash t P → (∀ o ∈ P, key o = t.key o ∧ chain o = t.chain o) →
      Run hash { t with key := key, chain := chain } P

/-- Every object is in the bucket of its hash, modulo the number of buckets. -/
def Placed (hash : K → UInt64) (t : Htbl A K) (P : Finset A) : Prop :=
  t.buckets.length = t.buckcnt ∧ ∃ B : ℕ → List A, Buckets t.buckets t.chain B
    ∧ ∀ i < t.buckcnt, ∀ o, o ∈ B i ↔ o ∈ P ∧ (hash (t.key o)).toNat % t.buckcnt = i

omit [DecidableEq A] in
/-- What is written outside the table does not matter. -/
theorem Rep.elsewhere (h : Rep hash t P B) {key : A → K} {chain : A → Option A}
    (hP : ∀ o ∈ P, key o = t.key o ∧ chain o = t.chain o) :
    Rep hash { t with key := key, chain := chain } P B := by
  refine ⟨h.length, h.pos, h.lt, ?_, fun i hi o => ?_, fun o ho o' ho' heq => ?_, h.size⟩
  · refine h.buckets.congr fun i hi o ho => (hP o ?_).2
    exact ((h.mem i (by rwa [← h.length]) o).mp ho).1
  · rw [h.mem i hi o]
    refine and_congr_right fun ho => ?_
    show _ ↔ t.bucketOf hash (key o) = i
    rw [(hP o ho).1]
  · apply h.inj o ho o' ho'
    rw [← (hP o ho).1, ← (hP o' ho').1]
    exact heq

/-- The invariant holds along every run. -/
theorem Run.rep [DecidableEq K] (h : Run hash t P) : ∃ B, Rep hash t P B := by
  induction h with
  | create key chain => exact ⟨_, htblCreate_rep hash key chain⟩
  | insert _ hnew hinsert ih =>
      obtain ⟨B, hrep⟩ := ih
      obtain ⟨t', B', hinsert', hrep', -⟩ := hrep.htblInsert hnew _ _
      rw [hinsert, Option.some.injEq] at hinsert'
      subst hinsert'
      exact ⟨B', hrep'⟩
  | remove _ hremove ih =>
      obtain ⟨B, hrep⟩ := ih
      obtain ⟨r, t', B', hremove', -, hrep', -⟩ := hrep.htblRemove _
      rw [hremove, Option.some.injEq, Prod.mk.injEq] at hremove'
      obtain ⟨rfl, rfl⟩ := hremove'
      exact ⟨B', hrep'⟩
  | traverse _ htraverse ih =>
      obtain ⟨B, hrep⟩ := ih
      obtain ⟨trace, t', B', htraverse', hrep', -⟩ := hrep.traverse _
      rw [htraverse, Option.some.injEq, Prod.mk.injEq] at htraverse'
      obtain ⟨rfl, rfl⟩ := htraverse'
      exact ⟨B', hrep'⟩
  | elsewhere _ hP ih =>
      obtain ⟨B, hrep⟩ := ih
      exact ⟨B, hrep.elsewhere hP⟩

/-- What a client sees of the table are the objects `P`: `_htbl_find` finds the object of a key
if it is one of them, and the size is their number. -/
structure Agrees [DecidableEq K] (hash : K → UInt64) (t : Htbl A K) (P : Finset A) : Prop where
  find : ∀ k, ∃ r, htblFind hash t k = some r ∧ ∀ o, r = some o ↔ o ∈ P ∧ t.key o = k
  size : t.size = P.card
  placed : Placed hash t P

omit [DecidableEq A] in
theorem Rep.agrees [DecidableEq K] (h : Rep hash t P B) : Agrees hash t P :=
  ⟨h.htblFind, h.size, h.length, B, h.buckets, h.mem⟩

/-- **The table is the set of its objects**: after every run an insertion puts an object in,
`_htbl_remove` takes out the object of the key, and a traversal visits each object once, unless
the client stops it, and takes out those that the client deletes; all of them come to an end. -/
theorem htbl_refines [DecidableEq K] (h : Run hash t P) :
    Agrees hash t P
      ∧ (∀ o full alloc, (∀ o' ∈ P, t.key o' ≠ t.key o) →
        ∃ t', htblInsert hash t o full alloc = some t' ∧ t'.key = t.key
          ∧ Agrees hash t' (insert o P))
      ∧ (∀ k, ∃ r t', htblRemove hash t k = some (r, t') ∧ t'.key = t.key
        ∧ (∀ o, r = some o ↔ o ∈ P ∧ t.key o = k)
        ∧ Agrees hash t' (P.filter fun o => t.key o ≠ k))
      ∧ ∀ client, ∃ trace t', t.traverse client = some (trace, t') ∧ t'.key = t.key
        ∧ (trace.map Prod.fst).Nodup ∧ (∀ o ∈ trace.map Prod.fst, o ∈ P)
        ∧ ((∀ step ∈ trace, step.2 ≠ .stop) → ∀ o ∈ P, o ∈ trace.map Prod.fst)
        ∧ Agrees hash t' (P.filter fun o => (o, Visit.del) ∉ trace) := by
  obtain ⟨B, hrep⟩ := h.rep
  refine ⟨hrep.agrees, fun o full alloc hnew => ?_, fun k => ?_, fun client => ?_⟩
  · obtain ⟨t', B', hinsert, hrep', hkey⟩ := hrep.htblInsert hnew full alloc
    exact ⟨t', hinsert, hkey, hrep'.agrees⟩
  · obtain ⟨r, t', B', hremove, hfound, hrep', hkey⟩ := hrep.htblRemove k
    have hfilter : P.filter (fun o => t.key o ≠ k) = P.filter fun o => r ≠ some o := by
      refine Finset.filter_congr fun o ho => not_congr ?_
      rw [hfound o, and_iff_right ho]
    rw [← hfilter] at hrep'
    exact ⟨r, t', hremove, hkey, hfound, hrep'.agrees⟩
  · obtain ⟨trace, t', B', htraverse, hrep', hkey, hnodup, hmem, hall⟩ := hrep.traverse client
    exact ⟨trace, t', htraverse, hkey, hnodup, hmem, hall, hrep'.agrees⟩

/-- Two objects in one bucket, the first of which made the table grow. -/
theorem htbl_refines_grown :
    ∃ t₁ t₂ : Htbl ℕ ℕ,
      htblInsert (fun _ => 0) (htblCreate id fun _ => none) 5 true true = some t₁
      ∧ htblInsert (fun _ => 0) t₁ 8 false true = some t₂
      ∧ Agrees (fun _ => 0) t₂ (insert 8 (insert 5 ∅)) := by
  have h₀ : Run (fun _ => 0) (htblCreate (id : ℕ → ℕ) fun _ => none) ∅ := .create _ _
  have hnew : ∀ o' ∈ (∅ : Finset ℕ), id o' ≠ 5 := by decide
  obtain ⟨t₁, hinsert₁, hkey₁, -⟩ := (htbl_refines h₀).2.1 5 true true hnew
  have h₁ := h₀.insert hnew hinsert₁
  obtain ⟨t₂, hinsert₂, -, hagrees⟩ := (htbl_refines h₁).2.1 8 false true (by
    rw [hkey₁]
    decide)
  exact ⟨t₁, t₂, hinsert₁, hinsert₂, hagrees⟩

end Htbl

end Zevent.Znet

/-
# The choice of a game server (`gm_getgs` of `webgame/gateserver/src/gs_manager.c`)

A client that has no game server yet is given one at random: `gm_getgs` takes
`idx = random() % count` and goes over the table `peer2gs` with

    for (hi = hash_first(gm->peer2gs); hi && i != idx ; hi = hash_next(hi));

The counter `i` is 0 and is never increased.  So the loop stops at the first entry when `idx` is
0, and otherwise runs to the end of the table and the client is refused.

* `PeerTable` is the table as registrations leave it, `exists_peerTable` says that every set of
  peers has one.
* `getgs_chosen_iff` is the result: the server at position `random % count` is chosen exactly
  when that position is 0.  `getgs_second` is a table of two servers with a client refused.
-/
import Mathlib.Tactic
import Zevent.Webgame.GsManager
import Zevent.Znet.HashMap

namespace Zevent.Webgame

open Znet Numerals

/-! ## The table of the peers -/

/-- What stands before the end of the string. -/
theorem takeWhile_string {l : List UInt8} (h : 0 ∉ l) : (l ++ [0]).takeWhile (· != 0) = l := by
  rw [List.takeWhile_append_of_pos]
  · rw [List.takeWhile_cons_of_neg (by decide), List.append_nil]
  · intro c hc
    rw [bne_iff_ne]
    rintro rfl
    exact h hc

/-- The key of a peer, with `HASH_KEY_STRING`. -/
def peerKey (p : UInt64) : HashKey where
  mem := uuid2hex p ++ [0]
  klen := -1
  valid := by
    left
    rw [takeWhile_string (zero_notMem_uuid2hex p)]
    refine ⟨rfl, List.mem_append_right _ List.mem_cons_self, ?_⟩
    show 16 < 2 ^ 31
    norm_num

/-- The key of a peer is its id in hexadecimal. -/
@[simp] theorem bytes_peerKey (p : UInt64) : (peerKey p).bytes = uuid2hex p := by
  rw [HashKey.bytes]
  exact takeWhile_string (zero_notMem_uuid2hex p)

/-- `peer2gs`: a hash table with the registered peers for its keys. -/
structure PeerTable where
  table : HashTable Gs
  peers : Finmap fun _ : List UInt8 => Gs
  represents : HashTable.Represents times33 table peers
  keyed : ∀ k ∈ peers, ∃ p, k = uuid2hex p

namespace PeerTable

/-- `hash_make`. -/
theorem exists_make : ∃ T : PeerTable, T.peers = ∅ :=
  ⟨⟨_, ∅, HashTable.hashMake_represents times33 fun _ => ⟨none, 0, peerKey 0, ⟨0, []⟩⟩,
    fun _ hk => absurd hk Finmap.notMem_empty⟩, rfl⟩

/-- The `hash_set` of `gm_reggs`. -/
theorem exists_reggs (T : PeerTable) (p : UInt64) (gs : Gs)
    (hroom : uuid2hex p ∉ T.peers → T.peers.keys.card + 1 < 2 ^ 31) :
    ∃ T' : PeerTable, T.table.hashSet times33 (peerKey p) (some gs) = some T'.table ∧
      T'.peers = T.peers.insert (uuid2hex p) gs := by
  obtain ⟨t', hset, hrep⟩ := T.represents.set (peerKey p) (some gs) fun _ hnew => by
    rw [bytes_peerKey] at hnew
    exact hroom hnew
  rw [bytes_peerKey] at hrep
  refine ⟨⟨t', _, hrep, fun k hk => ?_⟩, hset, rfl⟩
  rcases Finmap.mem_insert.mp hk with rfl | hk
  · exact ⟨p, rfl⟩
  · exact T.keyed k hk

/-- **Every set of peers is registered in some table**, up to the capacity of a table. -/
theorem exists_peerTable (ps : Finset UInt64) (hcard : ps.card < 2 ^ 31) :
    ∃ T : PeerTable, T.peers.keys = ps.image uuid2hex := by
  induction ps using Finset.induction_on with
  | empty =>
      obtain ⟨T, hT⟩ := exists_make
      exact ⟨T, by rw [hT, Finmap.keys_empty, Finset.image_empty]⟩
  | insert p ps hp ih =>
      rw [Finset.card_insert_of_notMem hp] at hcard
      obtain ⟨T, hT⟩ := ih (by omega)
      obtain ⟨T', -, hpeers⟩ := T.exists_reggs p ⟨0, []⟩ fun _ => by
        rw [hT, Finset.card_image_of_injective _ uuid2hex_injective]
        exact hcard
      refine ⟨T', ?_⟩
      rw [hpeers, Finset.image_insert, ← hT]
      ext k
      rw [Finmap.mem_keys, Finmap.mem_insert, Finset.mem_insert, Finmap.mem_keys]

end PeerTable

/-! ## `gm_getgs` -/

/-- The loop of `gm_getgs` from the entry of the iterator on; `fuel` bounds the rounds. -/
def getgsLoop (i idx : ℕ) : ℕ → Option ℕ × HashTable Gs → Option (Option ℕ × HashTable Gs)
  | 0, _ => none
  | _ + 1, (none, t) => some (none, t)
  | fuel + 1, (some a, t) =>
      if i ≠ idx then
        match t.hashNext with
        | none => none
        | some hi => getgsLoop i idx fuel hi
      else some (some a, t)

/-- `gm_getgs`: what it returns, the peer id it writes, and the table with its iterator. -/
def gmGetgs (t : HashTable Gs) (random : ℕ) : Option (ℤ × Option UInt64 × HashTable Gs) :=
  let count := t.hashCount
  if count = 0 then some (-1, none, t)
  else
    let idx := random % count
    match t.hashFirst with
    | none => none
    | some hi =>
        match getgsLoop 0 idx (count + 1) hi with
        | none => none
        | some (some a, t) => some (0, some (hex2uuid (t.keyOf a)), t)
        | some (none, t) => some (-1, none, t)

/-- The order in which an iteration meets the entries. -/
def iterationOrder (t : HashTable Gs) : Option (List ℕ) :=
  (t.traverse times33 fun _ => []).map Prod.fst

/-- `gm_getgs` returns 0 with the peer at position `random % count` of the iteration. -/
def Chosen (T : PeerTable) (random : ℕ) : Prop :=
  ∃ order p t', iterationOrder T.table = some order ∧
    (order[random % T.table.hashCount]?).map T.table.keyOf = some (uuid2hex p) ∧
    uuid2hex p ∈ T.peers ∧ gmGetgs T.table random = some (0, some p, t')

/-! ## Where the loop ends -/

/-- What a loop has visited stays in front. -/
theorem forEach_prefix {body : List ℕ → HashTable Gs → Option (HashTable Gs)} {fuel : ℕ}
    {hi : Option ℕ × HashTable Gs} {visited order : List ℕ} {t' : HashTable Gs}
    (h : HashTable.forEach body fuel hi visited = some (order, t')) : visited <+: order := by
  induction fuel generalizing hi visited with
  | zero => cases h
  | succ fuel ih =>
      obtain ⟨_ | a, t⟩ := hi
      · rw [HashTable.forEach, Option.some.injEq, Prod.mk.injEq] at h
        rw [h.1]
      · rw [HashTable.forEach] at h
        split at h
        · cases h
        · split at h
          · cases h
          · exact (List.prefix_append visited [a]).trans (ih h)

/-- When `i` is not `idx`, the loop runs to the end of the table. -/
theorem getgsLoop_of_ne {i idx : ℕ} (hne : i ≠ idx) (fuel : ℕ) (hi : Option ℕ × HashTable Gs)
    (visited : List ℕ) :
    getgsLoop i idx fuel hi
      = (HashTable.forEach (fun _ t => some t) fuel hi visited).map fun r => (none, r.2) := by
  induction fuel generalizing hi visited with
  | zero => rfl
  | succ fuel ih =>
      obtain ⟨_ | a, t⟩ := hi
      · rfl
      · rw [getgsLoop, if_pos hne, HashTable.forEach]
        dsimp only
        cases t.hashNext with
        | none => rfl
        | some hi => exact ih hi (visited ++ [a])

/-- An iterator that moves leaves the entries as they are. -/
theorem hashFirst_entry {t t' : HashTable Gs} {this : Option ℕ}
    (h : t.hashFirst = some (this, t')) : t'.entry = t.entry := by
  have harrive : ∀ (t : HashTable Gs) this index, (t.arrive this index).2.entry = t.entry := by
    intro t this index
    cases this <;> rfl
  rw [HashTable.hashFirst, HashTable.hashNext] at h
  dsimp only at h
  split at h
  · cases h
  · rw [Option.some.injEq] at h
    exact (congrArg (fun r => r.2.entry) h).symm.trans (harrive _ _ _)

/-- An iteration over the table: where it starts, and what it meets. -/
theorem PeerTable.iteration (T : PeerTable) :
    ∃ hi order t', T.table.hashFirst = some hi ∧
      HashTable.forEach (fun _ t => some t) (T.table.hashCount + 1) hi [] = some (order, t') ∧
      iterationOrder T.table = some order ∧ order.length = T.table.hashCount ∧
      ∀ a ∈ order, T.table.keyOf a ∈ T.peers := by
  obtain ⟨order, t', htraverse, hnodup, hmem, -⟩ := T.represents.traverse (fun _ => []) (by simp)
  have horder : iterationOrder T.table = some order := by rw [iterationOrder, htraverse, Option.map]
  have hlength : order.length = T.table.hashCount := by
    rw [← List.length_map T.table.keyOf, ← List.toFinset_card_of_nodup hnodup,
      HashTable.hashCount, ← T.represents.card_keys]
    congr 1
    ext k
    rw [List.mem_toFinset, hmem, Finmap.mem_keys]
  rw [HashTable.traverse] at htraverse
  split at htraverse
  · cases htraverse
  · rename_i hi hfirst
    exact ⟨hi, order, t', hfirst, htraverse, horder, hlength,
      fun a ha => (hmem _).mp (List.mem_map_of_mem ha)⟩

/-- A position behind the first is never reached, and the client is refused. -/
theorem PeerTable.getgs_refused (T : PeerTable) {random : ℕ}
    (hpos : random % T.table.hashCount ≠ 0) :
    ∃ t', gmGetgs T.table random = some (-1, none, t') := by
  obtain ⟨hi, order, t', hfirst, hloop, -⟩ := T.iteration
  unfold gmGetgs
  dsimp only
  split
  · exact ⟨_, rfl⟩
  · rw [hfirst]
    dsimp only
    rw [getgsLoop_of_ne (Ne.symm hpos) _ hi [], hloop]
    exact ⟨t', rfl⟩

/-- Off the first slot the draw chooses nothing. -/
theorem PeerTable.not_chosen (T : PeerTable) {random : ℕ}
    (hpos : random % T.table.hashCount ≠ 0) : ¬ Chosen T random := by
  obtain ⟨t', hrefused⟩ := T.getgs_refused hpos
  rintro ⟨order, p, t'', -, -, -, hgetgs⟩
  rw [hrefused, Option.some.injEq, Prod.mk.injEq] at hgetgs
  exact absurd hgetgs.1 (by decide)

/-- The first position is the entry that the iteration starts with. -/
theorem PeerTable.getgs_first (T : PeerTable) (hne : T.peers ≠ ∅) {random : ℕ}
    (hzero : random % T.table.hashCount = 0) : Chosen T random := by
  obtain ⟨hi, order, t', hfirst, hloop, horder, hlength, hkeys⟩ := T.iteration
  have hcount : T.table.hashCount ≠ 0 := by
    rw [HashTable.hashCount, ← T.represents.card_keys]
    intro hcard
    exact hne (Finmap.ext_lookup fun k => by
      rw [Finmap.lookup_empty, Finmap.lookup_eq_none, ← Finmap.mem_keys,
        Finset.card_eq_zero.mp hcard]
      exact Finset.notMem_empty k)
  obtain ⟨_ | a, t⟩ := hi
  · -- a table with entries does not end before the first
    rw [HashTable.forEach, Option.some.injEq, Prod.mk.injEq] at hloop
    rw [← hloop.1] at hlength
    exact absurd hlength.symm hcount
  · have hgetgs : gmGetgs T.table random = some (0, some (hex2uuid (t.keyOf a)), t) := by
      simp only [gmGetgs, if_neg hcount, hfirst, hzero, getgsLoop, ne_eq, not_true_eq_false,
        if_false]
    have hkey : t.keyOf a = T.table.keyOf a := by
      rw [HashTable.keyOf, hashFirst_entry hfirst, HashTable.keyOf]
    have hprefix : [a] <+: order := by
      rw [HashTable.forEach] at hloop
      dsimp only at hloop
      split at hloop
      · cases hloop
      · exact forEach_prefix hloop
    obtain ⟨rest, rfl⟩ := hprefix
    have hmem := hkeys a List.mem_cons_self
    obtain ⟨p, hp⟩ := T.keyed _ hmem
    rw [hkey, hp, hex2uuid_uuid2hex] at hgetgs
    rw [hp] at hmem
    refine ⟨_, p, t, horder, ?_, hmem, hgetgs⟩
    rw [hzero]
    exact congrArg some hp

/-- **The choice succeeds at position 0 only.**  For every non-empty set of registered game
servers and every random value, `gm_getgs` returns 0 with the peer of the server at position
`random % count` of the iteration exactly when that position is 0. -/
theorem getgs_chosen_iff (T : PeerTable) (hne : T.peers ≠ ∅) (random : ℕ) :
    Chosen T random ↔ random % T.table.hashCount = 0 := by
  refine ⟨fun hchosen => ?_, T.getgs_first hne⟩
  by_contra hpos
  exact T.not_chosen hpos hchosen

/-- With one server every random value chooses it. -/
theorem getgs_only_server :
    ∃ T : PeerTable, T.peers.keys = {uuid2hex 7} ∧ Chosen T 12345 := by
  obtain ⟨T, hT⟩ := PeerTable.exists_peerTable {7} (by decide)
  rw [Finset.image_singleton] at hT
  have hne : T.peers ≠ ∅ := by
    intro h
    rw [h, Finmap.keys_empty] at hT
    exact Finset.singleton_ne_empty _ hT.symm
  have hcount : T.table.hashCount = 1 := by
    rw [HashTable.hashCount, ← T.represents.card_keys, hT, Finset.card_singleton]
  exact ⟨T, hT, (getgs_chosen_iff T hne 12345).mpr (by rw [hcount])⟩

/-- Two servers are registered, and the client with the random value 1 is refused. -/
theorem getgs_second :
    ∃ T : PeerTable, T.peers.keys = {uuid2hex 1, uuid2hex 2} ∧
      (∃ t', gmGetgs T.table 1 = some (-1, none, t')) ∧ ¬ Chosen T 1 := by
  obtain ⟨T, hT⟩ := PeerTable.exists_peerTable {1, 2} (by decide)
  rw [Finset.image_insert, Finset.image_singleton] at hT
  have hcount : T.table.hashCount = 2 := by
    rw [HashTable.hashCount, ← T.represents.card_keys, hT, Finset.card_pair]
    exact fun heq => absurd (uuid2hex_injective heq) (by decide)
  have hpos : 1 % T.table.hashCount ≠ 0 := by
    rw [hcount]
    decide
  exact ⟨T, hT, T.getgs_refused hpos, T.not_chosen hpos⟩

end Zevent.Webgame

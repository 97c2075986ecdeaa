/-
# The page pool (`common/mdb/mpool.c`)

Pages of a file are kept in buckets.  A bucket in use is in a hash chain, found there by its
page number, and in the list from the least to the most recently used one; `mpool_get` and
`mpool_new` pin it until `mpool_put`.  Once there are `maxcache` buckets, the first one that is
not pinned is written back if it is dirty, and used again.

The user of the pool changes a page only while it is pinned, and says so in `mpool_put`.  The
filter that a page goes through on its way out is run on the page in the pool: with a filter,
no page may stay in the pool after it was written (`Careful`).

`Queues` is what the two queues are at any moment; here is what every operation on a bucket
does to them.
-/
import Mathlib.Tactic
import Zevent.Lib.Interleaving
import Zevent.Lib.PagedFile

namespace Zevent.Mdb

open Interleaving PagedFile

/-! ## The code -/

/-- `HASHSIZE`. -/
def hashsize : ℕ := 128

/-- `HASHKEY`; `pgno_t` has 32 bits. -/
def hashkey (pgno : ℕ) : ℕ := (pgno + 2 ^ 32 - 1) % 2 ^ 32 % hashsize

/-- `MAX_PAGE_NUMBER`. -/
def maxPageNumber : ℕ := 0xffffffff

/-- `BKT`, without the links of its two queues. -/
structure Bkt where
  page : List UInt8
  pgno : ℕ
  dirty : Bool
  pinned : Bool
  deriving DecidableEq

/-- `MPOOL`: the queues have the addresses of buckets.  `bkts` is the memory, `fresh` the
address that `malloc` returns next, and `file` what the file has. -/
structure Mpool where
  lqh : List ℕ
  hqh : ℕ → List ℕ
  bkts : ℕ → Bkt
  fresh : ℕ
  curcache : ℕ
  maxcache : ℕ
  npages : ℕ
  pagesize : ℕ
  file : List UInt8

/-- `mpool_filter`: two conversions of pages, each of which may be missing; a page that went
out is the same when it comes in. -/
structure Filters where
  pgin : Option (ℕ → List UInt8 → List UInt8)
  pgout : Option (ℕ → List UInt8 → List UInt8)
  length_pgin : ∀ f ∈ pgin, ∀ n page, (f n page).length = page.length
  length_pgout : ∀ f ∈ pgout, ∀ n page, (f n page).length = page.length
  pgin_pgout : ∀ n page,
    (pgin.getD fun _ page => page) n ((pgout.getD fun _ page => page) n page) = page

namespace Filters

/-- What a page is when it has come in. -/
def inward (fs : Filters) : ℕ → List UInt8 → List UInt8 := fs.pgin.getD fun _ page => page

/-- What a page is when it goes out. -/
def outward (fs : Filters) : ℕ → List UInt8 → List UInt8 := fs.pgout.getD fun _ page => page

end Filters

/-- What `lseek` and `write` do: the number of bytes written. -/
inductive WriteResult
  | seekFails
  | wrote (nw : ℕ)
  deriving DecidableEq

/-- What `lseek` and `read` do: the number of bytes that `read` gives, if the file has them. -/
inductive ReadResult
  | seekFails
  | readFails
  | got (nr : ℕ)
  deriving DecidableEq

namespace Mpool

variable (fs : Filters)

/-- `mpool_open`; `mem` is what memory has in it. -/
def mpoolOpen (file : List UInt8) (pagesize maxcache : ℕ) (mem : ℕ → Bkt) : Mpool where
  lqh := []
  hqh := fun _ => []
  bkts := mem
  fresh := 0
  curcache := 0
  maxcache := maxcache
  npages := file.length / pagesize % 2 ^ 32
  pagesize := pagesize
  file := file

/-- Change a bucket. -/
def setBkt (mp : Mpool) (a : ℕ) (bp : Bkt) : Mpool :=
  { mp with bkts := Function.update mp.bkts a bp }

/-- `CIRCLEQ_REMOVE` from both queues. -/
def remove (mp : Mpool) (a : ℕ) : Mpool :=
  { mp with
    lqh := mp.lqh.erase a
    hqh := Function.update mp.hqh (hashkey (mp.bkts a).pgno)
      ((mp.hqh (hashkey (mp.bkts a).pgno)).erase a) }

/-- Insert at the head of the hash chain and at the tail of the lru chain. -/
def insert (mp : Mpool) (a : ℕ) : Mpool :=
  { mp with
    lqh := mp.lqh ++ [a]
    hqh := Function.update mp.hqh (hashkey (mp.bkts a).pgno)
      (a :: mp.hqh (hashkey (mp.bkts a).pgno)) }

/-- `mpool_write`; the flag is set for `RET_SUCCESS`. -/
def mpoolWrite (mp : Mpool) (a : ℕ) (w : WriteResult) : Mpool × Bool :=
  let bp := mp.bkts a
  let bp := { bp with page := fs.outward bp.pgno bp.page }
  match w with
  | .seekFails => (mp.setBkt a bp, false)
  | .wrote nw =>
      let mp := { mp with file := writeAt mp.file (mp.pagesize * bp.pgno) (bp.page.take nw) }
      if nw = mp.pagesize then (mp.setBkt a { bp with dirty := false }, true)
      else (mp.setBkt a bp, false)

/-- `malloc` in `mpool_bkt`. -/
def newBkt (mp : Mpool) (malloc : Bool) : Mpool × Option ℕ :=
  if malloc then
    ({ mp with fresh := mp.fresh + 1, curcache := (mp.curcache + 1) % 2 ^ 32 }, some mp.fresh)
  else (mp, none)

/-- `mpool_bkt`. -/
def mpoolBkt (mp : Mpool) (malloc : Bool) (w : WriteResult) : Mpool × Option ℕ :=
  if mp.curcache < mp.maxcache then mp.newBkt malloc
  else
    match mp.lqh.find? fun a => !(mp.bkts a).pinned with
    | none => mp.newBkt malloc
    | some a =>
        if (mp.bkts a).dirty then
          match mp.mpoolWrite fs a w with
          | (mp, true) => (mp.remove a, some a)
          | (mp, false) => (mp, none)
        else (mp.remove a, some a)

/-- `mpool_look`. -/
def mpoolLook (mp : Mpool) (pgno : ℕ) : Option ℕ :=
  (mp.hqh (hashkey pgno)).find? fun a => (mp.bkts a).pgno == pgno

/-- `mpool_new`, with the address of the bucket of the page; `none` is the call of `abort`. -/
def mpoolNew (mp : Mpool) (malloc : Bool) (w : WriteResult) : Option (Mpool × Option ℕ) :=
  if mp.npages = maxPageNumber then none
  else
    match mp.mpoolBkt fs malloc w with
    | (mp, none) => some (mp, none)
    | (mp, some a) =>
        let bp := { mp.bkts a with pgno := mp.npages, dirty := false, pinned := true }
        some (({ mp with npages := mp.npages + 1 }.setBkt a bp).insert a, some a)

/-- What is in the page after `read`, and whether it gave a whole page. -/
def readPage (mp : Mpool) (page : List UInt8) (pgno : ℕ) : ReadResult → List UInt8 × Bool
  | .seekFails => (page, false)
  | .readFails => (page, false)
  | .got nr =>
      let bytes := (mp.file.drop (mp.pagesize * pgno)).take (min nr mp.pagesize)
      (bytes ++ page.drop bytes.length, bytes.length == mp.pagesize)

/-- `mpool_get`. -/
def mpoolGet (mp : Mpool) (pgno : ℕ) (malloc : Bool) (w : WriteResult) (r : ReadResult) :
    Mpool × Option ℕ :=
  if mp.npages ≤ pgno then (mp, none)
  else
    match mp.mpoolLook pgno with
    | some a => (((mp.remove a).insert a).setBkt a { mp.bkts a with pinned := true }, some a)
    | none =>
        match mp.mpoolBkt fs malloc w with
        | (mp, none) => (mp, none)
        | (mp, some a) =>
            match mp.readPage (mp.bkts a).page pgno r with
            -- the bucket is in no queue any more
            | (page, false) => (mp.setBkt a { mp.bkts a with page := page }, none)
            | (page, true) =>
                ((mp.setBkt a ⟨fs.inward pgno page, pgno, false, true⟩).insert a, some a)

/-- `mpool_put`. -/
def mpoolPut (mp : Mpool) (a : ℕ) (dirty : Bool) : Mpool :=
  mp.setBkt a { mp.bkts a with pinned := false, dirty := (mp.bkts a).dirty || dirty }

/-- The loop of `mpool_sync` over the lru chain. -/
def syncLoop (mp : Mpool) (w : ℕ → WriteResult) : List ℕ → Mpool × Bool
  | [] => (mp, true)
  | a :: rest =>
      if (mp.bkts a).dirty then
        match mp.mpoolWrite fs a (w a) with
        | (mp, true) => syncLoop mp w rest
        | (mp, false) => (mp, false)
      else syncLoop mp w rest

/-- `mpool_sync`. -/
def mpoolSync (mp : Mpool) (w : ℕ → WriteResult) (fsync : Bool) : Mpool × Bool :=
  match mp.syncLoop fs w mp.lqh with
  | (mp, true) => (mp, fsync)
  | (mp, false) => (mp, false)

end Mpool

/-! ## The pool and its user -/

/-- A pool in use: the buckets whose pages the user has changed since they were pinned, and
what is known of the pages. -/
structure Session where
  pool : Mpool
  touched : ℕ → Bool
  known : ℕ → Option (List UInt8)

/-- A call of the pool, with what the system answers; `store` is the user who writes into a
page. -/
inductive Call
  | new (malloc : Bool) (w : WriteResult)
  | get (pgno : ℕ) (malloc : Bool) (w : WriteResult) (r : ReadResult)
  | store (a : ℕ) (page : List UInt8)
  | put (a : ℕ) (dirty : Bool)
  | sync (w : ℕ → WriteResult) (fsync : Bool)

namespace Session

variable (fs : Filters)

/-- A pool that was opened; the pages of the file are known. -/
def start (file : List UInt8) (pagesize maxcache : ℕ) (mem : ℕ → Bkt) : Session where
  pool := .mpoolOpen file pagesize maxcache mem
  touched := fun _ => false
  known := fun n =>
    if n < file.length / pagesize % 2 ^ 32 then (pageAt pagesize file n).map (fs.inward n)
    else none

/-- One call; `none` when the process aborts. -/
def step (s : Session) : Call → Option Session
  | .new malloc w => (s.pool.mpoolNew fs malloc w).map fun p => { s with pool := p.1 }
  | .get pgno malloc w r => some { s with pool := (s.pool.mpoolGet fs pgno malloc w r).1 }
  | .store a page =>
      some { pool := s.pool.setBkt a { s.pool.bkts a with page := page }
             touched := Function.update s.touched a true
             known := Function.update s.known (s.pool.bkts a).pgno (some page) }
  | .put a dirty =>
      some { pool := s.pool.mpoolPut a dirty
             touched := Function.update s.touched a false
             known := if dirty then
                 Function.update s.known (s.pool.bkts a).pgno (some (s.pool.bkts a).page)
               else s.known }
  | .sync w fsync => some { s with pool := (s.pool.mpoolSync fs w fsync).1 }

/-- The user has the page of the bucket: it is pinned. -/
def Held (s : Session) (a : ℕ) : Prop := a ∈ s.pool.lqh ∧ (s.pool.bkts a).pinned = true

instance (s : Session) (a : ℕ) : Decidable (s.Held a) := inferInstanceAs (Decidable (_ ∧ _))

/-- The user writes into a page, and puts it back, only while it is pinned, and says that it is
dirty when it was changed.  With a filter for pages that go out, no page is written that stays
in the pool: the writes that evict a page succeed, and `mpool_sync` is called only when nothing
is dirty. -/
def Careful (s : Session) : Call → Prop
  | .new _ w => fs.pgout.isNone = true ∨ w = .wrote s.pool.pagesize
  | .get _ _ w _ => fs.pgout.isNone = true ∨ w = .wrote s.pool.pagesize
  | .store a page => s.Held a ∧ page.length = s.pool.pagesize
  | .put a dirty => s.Held a ∧ (s.touched a = true → dirty = true)
  | .sync _ _ => fs.pgout.isNone = true ∨ ∀ a ∈ s.pool.lqh, (s.pool.bkts a).dirty = false

instance (s : Session) : (c : Call) → Decidable (s.Careful fs c)
  | .new _ _ | .get _ _ _ _ => inferInstanceAs (Decidable (_ = true ∨ _ = _))
  | .store a _ => inferInstanceAs (Decidable (s.Held a ∧ _ = _))
  | .put a dirty => inferInstanceAs (Decidable (s.Held a ∧ (s.touched a = true → dirty = true)))
  | .sync _ _ => inferInstanceAs (Decidable (_ = true ∨ ∀ a ∈ s.pool.lqh, _ = false))

end Session

/-! ## The queues -/

namespace Mpool

/-- The two queues have the same buckets, each once, and each page has one bucket only. -/
structure Queues (mp : Mpool) : Prop where
  nodup : mp.lqh.Nodup
  allocated : ∀ a ∈ mp.lqh, a < mp.fresh
  chained : ∀ i a, a ∈ mp.hqh i ↔ a ∈ mp.lqh ∧ hashkey (mp.bkts a).pgno = i
  chain_nodup : ∀ i, (mp.hqh i).Nodup
  distinct : ∀ a ∈ mp.lqh, ∀ b ∈ mp.lqh, (mp.bkts a).pgno = (mp.bkts b).pgno → a = b
  numbered : ∀ a ∈ mp.lqh, (mp.bkts a).pgno < mp.npages

@[simp] theorem bkts_setBkt_self (mp : Mpool) (a : ℕ) (bp : Bkt) : (mp.setBkt a bp).bkts a = bp :=
  Function.update_self ..

theorem bkts_setBkt_of_ne {a b : ℕ} (h : b ≠ a) (mp : Mpool) (bp : Bkt) :
    (mp.setBkt a bp).bkts b = mp.bkts b :=
  Function.update_of_ne h ..

variable {mp mp' : Mpool} {a : ℕ}

/-- The queues are not changed, nor are the numbers of the pages in them. -/
theorem Queues.congr (h : mp.Queues) (hlqh : mp'.lqh = mp.lqh) (hhqh : mp'.hqh = mp.hqh)
    (hpgno : ∀ a ∈ mp.lqh, (mp'.bkts a).pgno = (mp.bkts a).pgno) (hfresh : mp.fresh ≤ mp'.fresh)
    (hnpages : mp.npages ≤ mp'.npages) : mp'.Queues where
  nodup := by
    rw [hlqh]
    exact h.nodup
  allocated a ha := by
    rw [hlqh] at ha
    exact (h.allocated a ha).trans_le hfresh
  chained i a := by
    rw [hlqh, hhqh, h.chained]
    apply and_congr_right
    intro ha
    rw [hpgno a ha]
  chain_nodup i := by
    rw [hhqh]
    exact h.chain_nodup i
  distinct a ha b hb hab := by
    rw [hlqh] at ha hb
    rw [hpgno a ha, hpgno b hb] at hab
    exact h.distinct a ha b hb hab
  numbered a ha := by
    rw [hlqh] at ha
    rw [hpgno a ha]
    exact (h.numbered a ha).trans_le hnpages

/-- A bucket in no queue is changed. -/
theorem Queues.setBkt_absent (h : mp.Queues) (ha : a ∉ mp.lqh) (bp : Bkt) :
    (mp.setBkt a bp).Queues := by
  refine h.congr rfl rfl ?_ le_rfl le_rfl
  intro b hb
  rw [bkts_setBkt_of_ne]
  rintro rfl
  exact ha hb

/-- A bucket is changed, but not its number. -/
theorem Queues.setBkt (h : mp.Queues) {bp : Bkt} (hpgno : bp.pgno = (mp.bkts a).pgno) :
    (mp.setBkt a bp).Queues := by
  refine h.congr rfl rfl ?_ le_rfl le_rfl
  intro b _
  by_cases hba : b = a
  · rw [hba, bkts_setBkt_self, hpgno]
  · rw [bkts_setBkt_of_ne hba]

theorem hqh_remove (mp : Mpool) (a i : ℕ) :
    (mp.remove a).hqh i
      = if i = hashkey (mp.bkts a).pgno then (mp.hqh i).erase a else mp.hqh i := by
  simp only [remove, Function.update_apply]
  split_ifs with hi
  · rw [hi]
  · rfl

theorem hqh_insert (mp : Mpool) (a i : ℕ) :
    (mp.insert a).hqh i
      = if i = hashkey (mp.bkts a).pgno then a :: mp.hqh i else mp.hqh i := by
  simp only [insert, Function.update_apply]
  split_ifs with hi
  · rw [hi]
  · rfl

theorem Queues.mem_remove (h : mp.Queues) (a b : ℕ) :
    b ∈ (mp.remove a).lqh ↔ b ∈ mp.lqh ∧ b ≠ a := by
  rw [remove, h.nodup.mem_erase_iff, and_comm]

theorem Queues.remove (h : mp.Queues) (a : ℕ) : (mp.remove a).Queues where
  nodup := h.nodup.erase a
  allocated b hb := h.allocated b ((h.mem_remove a b).mp hb).1
  chained i b := by
    rw [h.mem_remove, hqh_remove]
    show _ ↔ (b ∈ mp.lqh ∧ b ≠ a) ∧ hashkey (mp.bkts b).pgno = i
    split_ifs with hi
    · rw [(h.chain_nodup _).mem_erase_iff, h.chained, and_comm, and_right_comm]
    · rw [h.chained]
      constructor
      · rintro ⟨hb, rfl⟩
        refine ⟨⟨hb, ?_⟩, rfl⟩
        rintro rfl
        exact hi rfl
      · rintro ⟨⟨hb, -⟩, hkey⟩
        exact ⟨hb, hkey⟩
  chain_nodup i := by
    rw [hqh_remove]
    split_ifs
    · exact (h.chain_nodup i).erase a
    · exact h.chain_nodup i
  distinct b hb c hc :=
    h.distinct b ((h.mem_remove a b).mp hb).1 c ((h.mem_remove a c).mp hc).1
  numbered b hb := h.numbered b ((h.mem_remove a b).mp hb).1

theorem mem_insert (mp : Mpool) (a b : ℕ) : b ∈ (mp.insert a).lqh ↔ b ∈ mp.lqh ∨ b = a := by
  rw [insert, List.mem_append, List.mem_singleton]

theorem Queues.insert (h : mp.Queues) (ha : a ∉ mp.lqh) (hfresh : a < mp.fresh)
    (hnew : ∀ b ∈ mp.lqh, (mp.bkts b).pgno ≠ (mp.bkts a).pgno)
    (hpgno : (mp.bkts a).pgno < mp.npages) : (mp.insert a).Queues where
  nodup := by
    rw [Mpool.insert, List.nodup_append_comm]
    exact List.nodup_cons.mpr ⟨ha, h.nodup⟩
  allocated b hb := by
    rcases (mp.mem_insert a b).mp hb with hb | rfl
    · exact h.allocated b hb
    · exact hfresh
  chained i b := by
    rw [mem_insert, hqh_insert]
    show _ ↔ (b ∈ mp.lqh ∨ b = a) ∧ hashkey (mp.bkts b).pgno = i
    split_ifs with hi
    · rw [List.mem_cons, h.chained]
      constructor
      · rintro (rfl | ⟨hb, hkey⟩)
        · exact ⟨.inr rfl, hi.symm⟩
        · exact ⟨.inl hb, hkey⟩
      · rintro ⟨hb | rfl, hkey⟩
        · exact .inr ⟨hb, hkey⟩
        · exact .inl rfl
    · rw [h.chained]
      constructor
      · rintro ⟨hb, hkey⟩
        exact ⟨.inl hb, hkey⟩
      · rintro ⟨hb | rfl, hkey⟩
        · exact ⟨hb, hkey⟩
        · exact absurd hkey.symm hi
  chain_nodup i := by
    rw [hqh_insert]
    split_ifs
    · rw [List.nodup_cons, h.chained]
      exact ⟨fun hmem => ha hmem.1, h.chain_nodup i⟩
    · exact h.chain_nodup i
  distinct b hb c hc hbc := by
    rcases (mp.mem_insert a b).mp hb with hb | hb <;>
      rcases (mp.mem_insert a c).mp hc with hc | hc
    · exact h.distinct b hb c hc hbc
    · rw [hc] at hbc
      exact absurd hbc (hnew b hb)
    · rw [hb] at hbc
      exact absurd hbc.symm (hnew c hc)
    · rw [hb, hc]
  numbered b hb := by
    rcases (mp.mem_insert a b).mp hb with hb | rfl
    · exact h.numbered b hb
    · exact hpgno

/-- **`mpool_look` finds the bucket of a page.** -/
theorem Queues.look_some (h : mp.Queues) {pgno : ℕ} (hlook : mp.mpoolLook pgno = some a) :
    a ∈ mp.lqh ∧ (mp.bkts a).pgno = pgno := by
  have hfound := List.find?_some hlook
  exact ⟨((h.chained _ _).mp (List.mem_of_find?_eq_some hlook)).1, eq_of_beq hfound⟩

theorem Queues.look_none (h : mp.Queues) {pgno : ℕ} (hlook : mp.mpoolLook pgno = none) :
    ∀ a ∈ mp.lqh, (mp.bkts a).pgno ≠ pgno := by
  rintro a ha rfl
  have hno := List.find?_eq_none.mp hlook a ((h.chained _ _).mpr ⟨ha, rfl⟩)
  exact hno (beq_self_eq_true _)

/-- What `mpool_write` does to the queues: nothing. -/
theorem Queues.write (h : mp.Queues) (fs : Filters) (a : ℕ) (w : WriteResult) :
    (mp.mpoolWrite fs a w).1.Queues := by
  have hset : ∀ bp : Bkt, bp.pgno = (mp.bkts a).pgno → ∀ file,
      (({ mp with file := file } : Mpool).setBkt a bp).Queues := by
    intro bp hpgno file
    have hfile : ({ mp with file := file } : Mpool).Queues :=
      h.congr rfl rfl (fun _ _ => rfl) le_rfl le_rfl
    exact hfile.setBkt hpgno
  cases w with
  | seekFails => exact h.setBkt rfl
  | wrote nw =>
      simp only [mpoolWrite]
      split_ifs
      · apply hset
        rfl
      · apply hset
        rfl

end Mpool

end Zevent.Mdb

/-
# The bandwidth limit of the mini downloader (`minidownloader/dlmanager.cpp`)

The download threads share one counter of bytes.  `rate` sets the limit and fills the counter,
`net_tick` fills it once a second, and in front of each receive a thread takes its share: all
that it still needs when the counter has that much, and otherwise the counter divided by the
number of threads.  While no limit is set a thread takes what it needs without the counter.

A thread looks at the limit before it enters the critical section, so a limit can be set, or
changed, between the two; the critical section, `rate` and `net_tick` are single steps.

* `takeShare` is the critical section, and `takeShare_spec` says that it takes from the counter
  exactly what it gives, in spite of the mixed `int` and `DWORD`.
* `RateInv` is the invariant; its field `current` says that what has been given since the last
  refill and what is left in the counter fit into the limit of that refill.
* `rate_limit_holds` is the result for every number of threads and every interleaving.
-/
import Mathlib.Tactic
import Zevent.Lib.Interleaving

namespace Zevent.Minidownloader

open Interleaving

/-! ## The shares -/

/-- `MAX_BYTES_PERRECV`. -/
def maxBytesPerRecv : ℤ := 100 * 1024

/-- The critical section of `http_request_get`: `want_read`, and what is left of
`m_bw_bytes_in`. -/
def takeShare (bwBytesIn : UInt32) (threadCount : ℕ) (remain : ℤ) : ℤ × UInt32 :=
  if bwBytesIn ≥ UInt32.ofInt remain then (remain, bwBytesIn - UInt32.ofInt remain)
  else
    let wantRead := (bwBytesIn / UInt32.ofNat threadCount).toInt32.toInt
    (wantRead, bwBytesIn - UInt32.ofInt wantRead)

/-- A positive `int` as a `DWORD`. -/
theorem toNat_ofInt_uint32 {i : ℤ} (h₀ : 0 ≤ i) (h₁ : i < 2 ^ 32) :
    ((UInt32.ofInt i).toNat : ℤ) = i := by
  rw [UInt32.ofInt, Int.emod_eq_of_lt h₀ h₁, UInt32.toNat_ofNat', Nat.mod_eq_of_lt (by omega)]
  exact Int.toNat_of_nonneg h₀

/-- A small `DWORD` as an `int`. -/
theorem toInt_of_small {x : UInt32} (h : x.toNat < 2 ^ 31) : x.toInt32.toInt = (x.toNat : ℤ) :=
  BitVec.toInt_eq_toNat_of_lt (by
    show 2 * x.toNat < 2 ^ 32
    omega)

/-- **What one thread takes.**  The share is not negative and not more than the thread needs, and
the counter loses exactly the share. -/
theorem takeShare_spec {remain : ℤ} (h₀ : 0 ≤ remain) (h₁ : remain < 2 ^ 31) (bwBytesIn : UInt32)
    (threadCount : ℕ) :
    0 ≤ (takeShare bwBytesIn threadCount remain).1 ∧
      (takeShare bwBytesIn threadCount remain).1 ≤ remain ∧
      ((takeShare bwBytesIn threadCount remain).2.toNat : ℤ)
        + (takeShare bwBytesIn threadCount remain).1 = bwBytesIn.toNat := by
  have hremain := toNat_ofInt_uint32 h₀ (by omega)
  unfold takeShare
  split
  · rename_i hge
    refine ⟨h₀, le_rfl, ?_⟩
    have hle := UInt32.le_iff_toNat_le.mp hge
    rw [UInt32.toNat_sub_of_le _ _ hge]
    omega
  · rename_i hlt
    have hlt' := UInt32.lt_iff_toNat_lt.mp (UInt32.not_le.mp hlt)
    have hquot : (bwBytesIn / UInt32.ofNat threadCount).toNat ≤ bwBytesIn.toNat := by
      rw [UInt32.toNat_div]
      exact Nat.div_le_self _ _
    -- the quotient is below what the thread needs, so it fits into an `int`
    dsimp only
    rw [toInt_of_small (show (bwBytesIn / UInt32.ofNat threadCount).toNat < 2 ^ 31 by omega)]
    have hback := toNat_ofInt_uint32 (i := ((bwBytesIn / UInt32.ofNat threadCount).toNat : ℤ))
      (by omega) (by omega)
    have hle : UInt32.ofInt ((bwBytesIn / UInt32.ofNat threadCount).toNat : ℤ) ≤ bwBytesIn :=
      UInt32.le_iff_toNat_le.mpr (by omega)
    refine ⟨by omega, by omega, ?_⟩
    rw [UInt32.toNat_sub_of_le _ _ hle]
    omega

/-! ## The threads -/

/-- Where a download thread is: between downloads, at the test of the loop, in front of the
critical section, or in a receive of at most `amt` bytes. -/
inductive DlPc
  | idle
  | loop
  | share
  | recv (amt : ℤ)
deriving DecidableEq

/-- A download thread. -/
structure DlThread where
  pc : DlPc
  remain : ℤ

/-- What happens to the counter: it is filled up to a limit, or a thread that needs `remain` bytes
is given `wantRead`, in the limited branch or the other one. -/
inductive BwEvent
  | refill (limit : UInt32)
  | granted (limited : Bool) (wantRead remain : ℤ)
deriving DecidableEq

/-- `dlmanager` with its download threads; `log` is what has happened so far, the latest in
front. -/
structure DlManager (threadCount : ℕ) where
  netBwLimitIn : UInt32
  bwBytesIn : UInt32
  bytesIn : UInt32
  rateDwn : UInt32
  thread : Fin threadCount → DlThread
  log : List BwEvent

namespace DlManager

variable {threadCount : ℕ}

/-- The constructor and `init`. -/
def make (threadCount : ℕ) : DlManager threadCount where
  netBwLimitIn := 0
  bwBytesIn := 0
  bytesIn := 0
  rateDwn := 0
  thread := fun _ => ⟨.idle, 0⟩
  log := []

/-- `rate`. -/
def rate (m : DlManager threadCount) (down : UInt32) : DlManager threadCount :=
  if down > 0 then
    { m with netBwLimitIn := down, bwBytesIn := down, log := .refill down :: m.log }
  else m

/-- `net_tick`. -/
def netTick (m : DlManager threadCount) : DlManager threadCount :=
  { m with
    rateDwn := m.bytesIn
    bytesIn := 0
    bwBytesIn := m.netBwLimitIn
    log := .refill m.netBwLimitIn :: m.log }

def setThread (m : DlManager threadCount) (t : Fin threadCount) (pc : DlPc) (remain : ℤ) :
    DlManager threadCount :=
  { m with thread := Function.update m.thread t ⟨pc, remain⟩ }

@[simp] theorem thread_setThread_self (m : DlManager threadCount) (t : Fin threadCount)
    (pc : DlPc) (remain : ℤ) : (m.setThread t pc remain).thread t = ⟨pc, remain⟩ :=
  Function.update_self _ _ _

@[simp] theorem thread_setThread_of_ne {t t' : Fin threadCount} (h : t' ≠ t)
    (m : DlManager threadCount) (pc : DlPc) (remain : ℤ) :
    (m.setThread t pc remain).thread t' = m.thread t' :=
  Function.update_of_ne h _ _

/-- A thread knows its share: it sleeps and comes back, or it receives. -/
def grant (m : DlManager threadCount) (t : Fin threadCount) (limited : Bool)
    (wantRead remain : ℤ) : DlManager threadCount :=
  let pc :=
    if wantRead ≤ 0 then .loop
    else if wantRead > maxBytesPerRecv then .recv maxBytesPerRecv
    else .recv wantRead
  { m.setThread t pc remain with log := .granted limited wantRead remain :: m.log }

/-- A step of a download thread, or a call by another thread. -/
inductive Action (threadCount : ℕ)
  | start (t : Fin threadCount) (contentLength : ℤ)
  | test (t : Fin threadCount)
  | share (t : Fin threadCount)
  | received (t : Fin threadCount) (recv : ℤ)
  | leave (t : Fin threadCount)
  | rate (down : UInt32)
  | netTick

/-- One step.  A content length is an `int`; a receive returns at most what was asked for; a
thread may leave the loop at its test, and after a receive that failed. -/
def step (m : DlManager threadCount) : Action threadCount → Option (DlManager threadCount)
  | .start t contentLength =>
      if (m.thread t).pc = .idle ∧ 0 ≤ contentLength ∧ contentLength < 2 ^ 31 then
        some (m.setThread t .loop contentLength)
      else none
  | .test t =>
      let remain := (m.thread t).remain
      if (m.thread t).pc = .loop ∧ remain > 0 then
        if m.netBwLimitIn = 0 then some (m.grant t false remain remain)
        else some (m.setThread t .share remain)
      else none
  | .share t =>
      let remain := (m.thread t).remain
      if (m.thread t).pc = .share then
        let (wantRead, bwBytesIn) := takeShare m.bwBytesIn threadCount remain
        some ({ m with bwBytesIn := bwBytesIn }.grant t true wantRead remain)
      else none
  | .received t recv =>
      match (m.thread t).pc with
      | .recv amt =>
          if 0 ≤ recv ∧ recv ≤ amt then
            some ({ m with bytesIn := m.bytesIn + UInt32.ofInt recv }.setThread t .loop
              ((m.thread t).remain - recv))
          else none
      | _ => none
  | .leave t =>
      match (m.thread t).pc with
      | .loop => some (m.setThread t .idle 0)
      | .recv _ => some (m.setThread t .idle 0)
      | _ => none
  | .rate down => some (m.rate down)
  | .netTick => some m.netTick

end DlManager

/-! ## What is given between two refills -/

namespace BwEvent

def isRefill : BwEvent → Bool
  | refill _ => true
  | granted _ _ _ => false

/-- What an event takes out of the counter. -/
def cost : BwEvent → ℤ
  | refill _ => 0
  | granted limited wantRead _ => if limited then wantRead else 0

end BwEvent

/-- The shares of the limited branch in a piece of the log. -/
def spent (log : List BwEvent) : ℤ := (log.map BwEvent.cost).sum

theorem spent_cons (e : BwEvent) (log : List BwEvent) : spent (e :: log) = e.cost + spent log := by
  rw [spent, List.map_cons, List.sum_cons, ← spent]

/-- The log, with `left` in the counter: the shares since the last refill leave `left` of its
limit, and the shares between a refill and the next fit into the limit of the first. -/
structure Metered (log : List BwEvent) (left : ℕ) : Prop where
  current : ∀ mid limit earlier, log = mid ++ .refill limit :: earlier →
    (∀ e ∈ mid, e.isRefill = false) → spent mid + left ≤ limit.toNat
  past : ∀ later mid limit earlier, log = later ++ (mid ++ .refill limit :: earlier) →
    (∀ e ∈ mid, e.isRefill = false) → spent mid ≤ limit.toNat

namespace Metered

variable {log : List BwEvent} {left left' : ℕ}

theorem nil (left : ℕ) : Metered [] left := by
  constructor
  · intro mid limit earlier heq
    simp at heq
  · intro later mid limit earlier heq
    simp at heq

/-- The pieces of a longer log are those of the shorter one and the one at its front. -/
theorem cons {e : BwEvent} (h : Metered log left)
    (hcurrent : ∀ mid limit earlier, e :: log = mid ++ .refill limit :: earlier →
      (∀ e ∈ mid, e.isRefill = false) → spent mid + left' ≤ limit.toNat) :
    Metered (e :: log) left' := by
  refine ⟨hcurrent, fun later mid limit earlier heq hmid => ?_⟩
  cases later with
  | nil =>
      have := hcurrent mid limit earlier heq hmid
      omega
  | cons e' later =>
      rw [List.cons_append, List.cons.injEq] at heq
      exact h.past later mid limit earlier heq.2 hmid

theorem refill (h : Metered log left) (limit : UInt32) :
    Metered (.refill limit :: log) limit.toNat := by
  refine h.cons fun mid limit' earlier heq hmid => ?_
  cases mid with
  | nil =>
      rw [List.nil_append, List.cons.injEq, BwEvent.refill.injEq] at heq
      rw [← heq.1]
      exact (zero_add _).le
  | cons e mid =>
      rw [List.cons_append, List.cons.injEq] at heq
      have hfirst := hmid e List.mem_cons_self
      rw [← heq.1] at hfirst
      cases hfirst

/-- What a grant costs is gone from the counter. -/
theorem grant (h : Metered log left) {e : BwEvent} (he : e.isRefill = false)
    (hcost : (left' : ℤ) + e.cost = left) : Metered (e :: log) left' := by
  refine h.cons fun mid limit earlier heq hmid => ?_
  cases mid with
  | nil =>
      rw [List.nil_append, List.cons.injEq] at heq
      rw [heq.1] at he
      cases he
  | cons e' mid =>
      rw [List.cons_append, List.cons.injEq] at heq
      obtain ⟨rfl, hlog⟩ := heq
      have := h.current mid limit earlier hlog fun e' he' => hmid e' (List.mem_cons_of_mem _ he')
      rw [spent_cons]
      omega

end Metered

/-! ## The invariant -/

namespace DlManager

variable {threadCount : ℕ} {m m' : DlManager threadCount}

/-- What holds of every state. -/
structure RateInv (m : DlManager threadCount) : Prop where
  bw_le : m.bwBytesIn ≤ m.netBwLimitIn
  remain : ∀ t, 0 ≤ (m.thread t).remain ∧ (m.thread t).remain < 2 ^ 31
  amt : ∀ t amt, (m.thread t).pc = .recv amt → amt ≤ (m.thread t).remain
  fair : ∀ limited wantRead remain, .granted limited wantRead remain ∈ m.log →
    0 ≤ wantRead ∧ wantRead ≤ remain
  metered : Metered m.log m.bwBytesIn.toNat

theorem rateInv_make (threadCount : ℕ) : (make threadCount).RateInv where
  bw_le := UInt32.le_refl _
  remain := fun _ => ⟨le_rfl, by norm_num [make]⟩
  amt := fun _ _ h => by cases h
  fair := fun _ _ _ h => absurd h List.not_mem_nil
  metered := Metered.nil _

/-- A thread moves, and the counter stays as it is. -/
theorem RateInv.setThread (h : m.RateInv) (t : Fin threadCount) {pc : DlPc} {remain : ℤ}
    (h₀ : 0 ≤ remain) (h₁ : remain < 2 ^ 31) (hamt : ∀ amt, pc = .recv amt → amt ≤ remain) :
    (m.setThread t pc remain).RateInv where
  bw_le := h.bw_le
  remain := by
    intro t'
    rcases eq_or_ne t' t with rfl | hne
    · rw [thread_setThread_self]
      exact ⟨h₀, h₁⟩
    · rw [thread_setThread_of_ne hne]
      exact h.remain t'
  amt := by
    intro t' amt hpc
    rcases eq_or_ne t' t with rfl | hne
    · rw [thread_setThread_self] at hpc ⊢
      exact hamt amt hpc
    · rw [thread_setThread_of_ne hne] at hpc ⊢
      exact h.amt t' amt hpc
  fair := h.fair
  metered := h.metered

/-- A thread that needs `remain` bytes is given `wantRead`, and the counter loses the cost. -/
theorem RateInv.grant (h : m.RateInv) (t : Fin threadCount) {limited : Bool}
    {wantRead remain : ℤ} {bwBytesIn : UInt32} (h₁ : remain < 2 ^ 31) (hpos : 0 ≤ wantRead)
    (hle : wantRead ≤ remain) (hbw : bwBytesIn ≤ m.netBwLimitIn)
    (hcost : (bwBytesIn.toNat : ℤ) + (BwEvent.granted limited wantRead remain).cost
      = m.bwBytesIn.toNat) :
    ({ m with bwBytesIn := bwBytesIn }.grant t limited wantRead remain).RateInv := by
  have hamt : ∀ amt, (if wantRead ≤ 0 then DlPc.loop
      else if wantRead > maxBytesPerRecv then .recv maxBytesPerRecv else .recv wantRead)
        = .recv amt → amt ≤ remain := by
    intro amt hpc
    split_ifs at hpc with hzero hmax
    · cases hpc
      omega
    · cases hpc
      exact hle
  have hthread := h.setThread t (hpos.trans hle) h₁ hamt
  constructor
  · exact hbw
  · exact hthread.remain
  · exact hthread.amt
  · intro limited' wantRead' remain' hmem
    rcases List.mem_cons.mp hmem with heq | hmem
    · cases heq
      exact ⟨hpos, hle⟩
    · exact h.fair limited' wantRead' remain' hmem
  · exact h.metered.grant rfl hcost

/-- A refill logs the limit that is in force from then on. -/
theorem RateInv.refill (h : m.RateInv) {m' : DlManager threadCount}
    (hthread : m'.thread = m.thread) (hbw : m'.bwBytesIn = m'.netBwLimitIn)
    (hlog : m'.log = .refill m'.netBwLimitIn :: m.log) : m'.RateInv where
  bw_le := by
    rw [hbw]
    exact UInt32.le_refl _
  remain := by
    rw [hthread]
    exact h.remain
  amt := by
    rw [hthread]
    exact h.amt
  fair := by
    intro limited wantRead remain hmem
    rw [hlog, List.mem_cons] at hmem
    exact h.fair limited wantRead remain (hmem.resolve_left (by simp))
  metered := by
    rw [hlog, hbw]
    exact h.metered.refill _

/-- **One step keeps the invariant.** -/
theorem RateInv.step (h : m.RateInv) {action : Action threadCount}
    (hstep : m.step action = some m') : m'.RateInv := by
  cases action with
  | start t contentLength =>
      simp only [DlManager.step] at hstep
      split at hstep
      · rename_i hguard
        cases hstep
        exact h.setThread t hguard.2.1 hguard.2.2 (by simp)
      · cases hstep
  | test t =>
      simp only [DlManager.step] at hstep
      split at hstep
      · rename_i hguard
        split at hstep
        · cases hstep
          exact h.grant t (h.remain t).2 hguard.2.le le_rfl h.bw_le (add_zero _)
        · cases hstep
          exact h.setThread t (h.remain t).1 (h.remain t).2 (by simp)
      · cases hstep
  | share t =>
      simp only [DlManager.step] at hstep
      split at hstep
      · cases hstep
        obtain ⟨hpos, hle, hcost⟩ :=
          takeShare_spec (h.remain t).1 (h.remain t).2 m.bwBytesIn threadCount
        refine h.grant t (h.remain t).2 hpos hle ?_ hcost
        refine UInt32.le_trans (UInt32.le_iff_toNat_le.mpr ?_) h.bw_le
        omega
      · cases hstep
  | received t recv =>
      simp only [DlManager.step] at hstep
      split at hstep
      · rename_i amt hpc
        split at hstep
        · rename_i hguard
          cases hstep
          have hamt := h.amt t amt hpc
          have hremain := h.remain t
          have hbytes : { m with bytesIn := m.bytesIn + UInt32.ofInt recv }.RateInv :=
            ⟨h.bw_le, h.remain, h.amt, h.fair, h.metered⟩
          exact hbytes.setThread t (by omega) (by omega) (by simp)
        · cases hstep
      · cases hstep
  | leave t =>
      simp only [DlManager.step] at hstep
      split at hstep
      · cases hstep
        exact h.setThread t le_rfl (by norm_num) (by simp)
      · cases hstep
        exact h.setThread t le_rfl (by norm_num) (by simp)
      · cases hstep
  | rate down =>
      simp only [DlManager.step, Option.some.injEq] at hstep
      subst hstep
      unfold rate
      split
      · exact h.refill rfl rfl rfl
      · exact h
  | netTick =>
      simp only [DlManager.step, Option.some.injEq] at hstep
      subst hstep
      exact h.refill rfl rfl rfl

/-- **The rate limit holds.**  For every number of threads and every interleaving of their steps
with `rate` and `net_tick`: while a limit is set the counter does not exceed it; every share is
between 0 and what its thread still needs; and the shares of the limited branch between a refill
and the next sum to at most the limit in force at the first of them. -/
theorem rate_limit_holds {threadCount : ℕ} {m : DlManager threadCount}
    (hreach : Reach DlManager.step Always (make threadCount) m) :
    (m.netBwLimitIn ≠ 0 → m.bwBytesIn ≤ m.netBwLimitIn) ∧
      (∀ limited wantRead remain, .granted limited wantRead remain ∈ m.log →
        0 ≤ wantRead ∧ wantRead ≤ remain) ∧
      ∀ later mid limit earlier, m.log = later ++ (mid ++ .refill limit :: earlier) →
        (∀ e ∈ mid, e.isRefill = false) → spent mid ≤ limit.toNat := by
  have hinv : m.RateInv :=
    hreach.invariant RateInv (rateInv_make threadCount) fun _ _ _ h _ hstep => h.step hstep
  exact ⟨fun _ => hinv.bw_le, hinv.fair, hinv.metered.past⟩

/-- Two threads under a limit of 10: one takes half of the counter, the other one the rest. -/
theorem rate_limit_holds_two :
    ∃ m, Reach DlManager.step Always (make 2) m ∧
      m.log = [.granted true 5 5, .granted true 5 20, .refill 10] ∧
      spent [.granted true 5 5, .granted true 5 20] ≤ 10 := by
  have hrun : (run DlManager.step Always (make 2) [.rate 10, .start 0 20, .test 0, .start 1 5,
      .test 1, .share 0, .share 1]).map log
      = some [.granted true 5 5, .granted true 5 20, .refill 10] := by
    decide
  obtain ⟨m, hm, hlog⟩ := Option.map_eq_some_iff.mp hrun
  have hreach : Reach DlManager.step Always (make 2) m := Reach.refl.run _ hm
  refine ⟨m, hreach, hlog, ?_⟩
  exact (rate_limit_holds hreach).2.2 [] _ 10 [] hlog (by decide)

end DlManager

end Zevent.Minidownloader

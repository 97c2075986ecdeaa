/-
# The scoreboard and the idle-server scan (`scoreboard.h`, `zevent.c`)

The parent's record of its children, and the loop of `perform_idle_server_maintenance`
that goes over it.

The scan looks at every slot below the daemons limit, but stops early once it is past the
high-water mark and has collected as many empty slots as it may fork in this round.  From
the statuses of a slot's threads it decides three things: whether the slot may be used for
a new child (`free_slots`, the slots with no living thread first), how many threads are
idle and active, and what the last slot with no dying thread is.

`Scan.Sound` collects what the loop guarantees about its result; `scanSlots_sound` is the
induction.
-/
import Mathlib.Tactic

namespace Zevent.Server

/-- The status of a worker thread, `SERVER_DEAD` to `SERVER_IDLE_KILL`. -/
inductive ServerStatus
  | dead | starting | ready | busyRead | busyWrite | busyKeepalive | busyLog | busyDns
  | closing | graceful | idleKill
deriving DecidableEq, Repr

/-- The number the source gives a status. -/
def ServerStatus.code : ServerStatus → ℕ
  | .dead => 0
  | .starting => 1
  | .ready => 2
  | .busyRead => 3
  | .busyWrite => 4
  | .busyKeepalive => 5
  | .busyLog => 6
  | .busyDns => 7
  | .closing => 8
  | .graceful => 9
  | .idleKill => 10

/-- `process_score`; a pid of zero says that the slot has no process. -/
structure ProcessScore where
  pid : ℕ
  generation : ℤ
  quiescing : Bool
deriving DecidableEq, Repr

/-- The shared scoreboard: the processes, and the statuses of their threads. -/
structure Scoreboard where
  parent : ℕ → ProcessScore
  servers : ℕ → ℕ → ServerStatus

/-- The configuration the parent reads. -/
structure Config where
  daemonsLimit : ℕ
  threadsPerChild : ℕ
  minSpareThreads : ℤ
  maxSpareThreads : ℤ
  myGeneration : ℤ

/-- `MAX_SPAWN_RATE`. -/
def maxSpawnRate : ℕ := 32

/-! ## The threads of a slot -/

/-- What the inner loop of the scan finds out about one slot. -/
structure ThreadScan where
  anyDyingThreads : Bool
  anyDeadThreads : Bool
  allDeadThreads : Bool
  idleThreadCount : ℕ
  activeThreadCount : ℕ

/-- One round of the inner loop, on a thread of the given status. -/
def scanThread (c : Config) (ps : ProcessScore) (acc : ThreadScan) (status : ServerStatus) :
    ThreadScan where
  anyDyingThreads := acc.anyDyingThreads || status == .graceful
  anyDeadThreads := acc.anyDeadThreads || status == .dead
  allDeadThreads := acc.allDeadThreads && (status == .dead || status == .graceful)
  idleThreadCount :=
    if ps.pid ≠ 0 ∧ status.code ≤ ServerStatus.ready.code ∧ ps.quiescing = false
        ∧ ps.generation = c.myGeneration then acc.idleThreadCount + 1
    else acc.idleThreadCount
  activeThreadCount :=
    if ps.pid ≠ 0 ∧ ServerStatus.ready.code ≤ status.code
        ∧ status.code < ServerStatus.graceful.code then acc.activeThreadCount + 1
    else acc.activeThreadCount

/-- The inner loop over the threads of slot `i`, from the counts so far. -/
def scanThreads (c : Config) (sb : Scoreboard) (i : ℕ) (idle active : ℕ) : ThreadScan :=
  ((List.range c.threadsPerChild).map (sb.servers i)).foldl (scanThread c (sb.parent i))
    { anyDyingThreads := false, anyDeadThreads := false, allDeadThreads := true
      idleThreadCount := idle, activeThreadCount := active }

/-- Some thread of slot `i` is finishing gracefully. -/
def Scoreboard.AnyDying (c : Config) (sb : Scoreboard) (i : ℕ) : Prop :=
  ∃ j < c.threadsPerChild, sb.servers i j = .graceful

/-- Some thread of slot `i` is dead. -/
def Scoreboard.AnyDead (c : Config) (sb : Scoreboard) (i : ℕ) : Prop :=
  ∃ j < c.threadsPerChild, sb.servers i j = .dead

/-- No thread of slot `i` lives. -/
def Scoreboard.AllDead (c : Config) (sb : Scoreboard) (i : ℕ) : Prop :=
  ∀ j < c.threadsPerChild, sb.servers i j = .dead ∨ sb.servers i j = .graceful

instance (c : Config) (sb : Scoreboard) (i : ℕ) : Decidable (sb.AnyDying c i) :=
  inferInstanceAs (Decidable (∃ j < _, _))

instance (c : Config) (sb : Scoreboard) (i : ℕ) : Decidable (sb.AnyDead c i) :=
  inferInstanceAs (Decidable (∃ j < _, _))

instance (c : Config) (sb : Scoreboard) (i : ℕ) : Decidable (sb.AllDead c i) :=
  inferInstanceAs (Decidable (∀ j < _, _))

/-- A flag that each round sets on the threads `P` is set at the end if some thread is one
of them. -/
theorem foldl_scanThread_flag {c : Config} {ps : ProcessScore} {F : ThreadScan → Bool}
    {P : ServerStatus → Bool}
    (h : ∀ acc status, F (scanThread c ps acc status) = (F acc || P status))
    (l : List ServerStatus) (acc : ThreadScan) :
    F (l.foldl (scanThread c ps) acc) = (F acc || l.any P) := by
  induction l generalizing acc with
  | nil => simp
  | cons status l ih =>
      rw [List.foldl_cons, ih, List.any_cons, h, Bool.or_assoc]

/-- The flag `any_dying_threads` says what its name says. -/
theorem scanThreads_dying (c : Config) (sb : Scoreboard) (i idle active : ℕ) :
    (scanThreads c sb i idle active).anyDyingThreads = true ↔ sb.AnyDying c i := by
  rw [scanThreads, foldl_scanThread_flag (F := ThreadScan.anyDyingThreads) fun _ _ => rfl,
    Scoreboard.AnyDying]
  simp

/-- The flag `any_dead_threads` says what its name says. -/
theorem scanThreads_dead (c : Config) (sb : Scoreboard) (i idle active : ℕ) :
    (scanThreads c sb i idle active).anyDeadThreads = true ↔ sb.AnyDead c i := by
  rw [scanThreads, foldl_scanThread_flag (F := ThreadScan.anyDeadThreads) fun _ _ => rfl,
    Scoreboard.AnyDead]
  simp

/-- The flag `all_dead_threads` says what its name says. -/
theorem scanThreads_allDead (c : Config) (sb : Scoreboard) (i idle active : ℕ) :
    (scanThreads c sb i idle active).allDeadThreads = true ↔ sb.AllDead c i := by
  -- the flag is cleared, so its negation is set
  have hflag : (!(scanThreads c sb i idle active).allDeadThreads)
      = (false || ((List.range c.threadsPerChild).map (sb.servers i)).any
          fun status => !(status == .dead || status == .graceful)) :=
    foldl_scanThread_flag (F := fun acc => !acc.allDeadThreads)
      (fun acc status => by simp only [scanThread, Bool.not_and]) _ _
  rw [← Bool.not_eq_false', hflag, Scoreboard.AllDead]
  simp [or_iff_not_imp_left]

/-! ## The slots -/

/-- The variables of the outer loop.  `looked` is the loop variable `i`, the number of
slots looked at; of `freeSlots` only the cells below `freeLength` are set. -/
structure Scan where
  looked : ℕ
  idleThreadCount : ℕ
  activeThreadCount : ℕ
  freeLength : ℕ
  totallyFreeLength : ℕ
  freeSlots : ℕ → ℕ
  lastNonDead : ℤ
  totalNonDead : ℕ

/-- The variables before the loop. -/
def Scan.start : Scan where
  looked := 0
  idleThreadCount := 0
  activeThreadCount := 0
  freeLength := 0
  totallyFreeLength := 0
  freeSlots := fun _ => 0
  lastNonDead := -1
  totalNonDead := 0

/-- Put slot `i` on the free list, in front if none of its threads lives. -/
def Scan.addFree (acc : Scan) (i : ℕ) (allDeadThreads : Bool) : Scan :=
  if allDeadThreads then
    { acc with
      freeSlots := Function.update
        (Function.update acc.freeSlots acc.freeLength (acc.freeSlots acc.totallyFreeLength))
        acc.totallyFreeLength i
      totallyFreeLength := acc.totallyFreeLength + 1
      freeLength := acc.freeLength + 1 }
  else
    { acc with
      freeSlots := Function.update acc.freeSlots acc.freeLength i
      freeLength := acc.freeLength + 1 }

/-- The test of the scan for putting a slot on the free list. -/
def Scan.Takes (acc : Scan) (ps : ProcessScore) (t : ThreadScan) (idleSpawnRate : ℕ) : Prop :=
  t.anyDeadThreads = true ∧ acc.totallyFreeLength < idleSpawnRate
    ∧ acc.freeLength < maxSpawnRate ∧ (ps.pid = 0 ∨ ps.quiescing = true)

instance (acc : Scan) (ps : ProcessScore) (t : ThreadScan) (idleSpawnRate : ℕ) :
    Decidable (acc.Takes ps t idleSpawnRate) := inferInstanceAs (Decidable (_ ∧ _ ∧ _ ∧ _))

/-- One round of the outer loop, on the slot `acc.looked`. -/
def scanSlot (c : Config) (sb : Scoreboard) (idleSpawnRate : ℕ) (acc : Scan) : Scan :=
  let i := acc.looked
  let t := scanThreads c sb i acc.idleThreadCount acc.activeThreadCount
  let acc' := if acc.Takes (sb.parent i) t idleSpawnRate
    then acc.addFree i t.allDeadThreads else acc
  { acc' with
    looked := i + 1
    idleThreadCount := t.idleThreadCount
    activeThreadCount := t.activeThreadCount
    lastNonDead := if t.anyDyingThreads then acc.lastNonDead else i
    totalNonDead := if t.anyDyingThreads then acc.totalNonDead else acc.totalNonDead + 1 }

/-- The outer loop; the first argument is the number of slots below the limit that are
left. -/
def scanSlots (c : Config) (sb : Scoreboard) (maxDaemonsLimit : ℤ) (idleSpawnRate : ℕ) :
    ℕ → Scan → Scan
  | 0, acc => acc
  | rest + 1, acc =>
      if maxDaemonsLimit ≤ acc.looked ∧ acc.totallyFreeLength = idleSpawnRate then acc
      else scanSlots c sb maxDaemonsLimit idleSpawnRate rest (scanSlot c sb idleSpawnRate acc)

/-- The whole scan of a round. -/
def scanScoreboard (c : Config) (sb : Scoreboard) (maxDaemonsLimit : ℤ) (idleSpawnRate : ℕ) :
    Scan :=
  scanSlots c sb maxDaemonsLimit idleSpawnRate c.daemonsLimit .start

/-! ## What the scan guarantees -/

/-- A slot that may be put on the free list: some thread of it is dead, and it has no
process or one that is going away. -/
def Scoreboard.Eligible (c : Config) (sb : Scoreboard) (i : ℕ) : Prop :=
  sb.AnyDead c i ∧ ((sb.parent i).pid = 0 ∨ (sb.parent i).quiescing = true)

instance (c : Config) (sb : Scoreboard) (i : ℕ) : Decidable (sb.Eligible c i) :=
  inferInstanceAs (Decidable (_ ∧ _))

/-- A slot that may go to the front of the free list: no thread of it lives, and the slots
before it do not fill the list. -/
def Scoreboard.TotallyFree (c : Config) (sb : Scoreboard) (i : ℕ) : Prop :=
  sb.Eligible c i ∧ sb.AllDead c i ∧ Nat.count (sb.Eligible c) i < maxSpawnRate

instance (c : Config) (sb : Scoreboard) (i : ℕ) : Decidable (sb.TotallyFree c i) :=
  inferInstanceAs (Decidable (_ ∧ _ ∧ _))

/-- What holds of the free list when the slots below `n` have been looked at: it has
distinct eligible slots among them. -/
structure Scan.FreeSound (c : Config) (sb : Scoreboard) (n : ℕ) (acc : Scan) : Prop where
  totallyFree_le : acc.totallyFreeLength ≤ acc.freeLength
  free_le : acc.freeLength ≤ maxSpawnRate
  distinct : ∀ a < acc.freeLength, ∀ b < acc.freeLength,
    acc.freeSlots a = acc.freeSlots b → a = b
  free_lt : ∀ a < acc.freeLength, acc.freeSlots a < n
  eligible : ∀ a < acc.freeLength, sb.Eligible c (acc.freeSlots a)

/-- What holds of the loop's variables: the free list is sound, and every slot looked at
that has no dying thread is at or below `last_non_dead`. -/
structure Scan.Sound (c : Config) (sb : Scoreboard) (acc : Scan) : Prop where
  free : acc.FreeSound c sb acc.looked
  last : ∀ k < acc.looked, ¬ sb.AnyDying c k → k ≤ acc.lastNonDead

variable {c : Config} {sb : Scoreboard} {maxDaemonsLimit : ℤ} {idleSpawnRate : ℕ}

theorem Scan.start_sound : Scan.start.Sound c sb where
  free := ⟨le_rfl, Nat.zero_le _, by simp [Scan.start], by simp [Scan.start], by simp [Scan.start]⟩
  last := by simp [Scan.start]

/-- The cells of the free list after a slot is added: each is a cell from before or the
new slot, and which one it is determines the cell. -/
theorem Scan.addFree_cells (acc : Scan) (i : ℕ) (allDead : Bool)
    (hle : acc.totallyFreeLength ≤ acc.freeLength) :
    (acc.addFree i allDead).freeLength = acc.freeLength + 1
      ∧ ∃ σ : ℕ → Option ℕ,
        (∀ a < acc.freeLength + 1, ∀ b < acc.freeLength + 1, σ a = σ b → a = b)
        ∧ ∀ a < acc.freeLength + 1,
            (σ a = none ∧ (acc.addFree i allDead).freeSlots a = i)
            ∨ ∃ b < acc.freeLength, σ a = some b
              ∧ (acc.addFree i allDead).freeSlots a = acc.freeSlots b := by
  cases allDead with
  | false =>
      refine ⟨rfl, fun a => if a = acc.freeLength then none else some a, ?_, ?_⟩
      · intro a _ b _ hab
        simp only at hab
        split_ifs at hab with ha hb hb
        · rw [ha, hb]
        · exact Option.some.inj hab
      · intro a ha
        rcases eq_or_ne a acc.freeLength with rfl | hne
        · exact .inl ⟨if_pos rfl, by simp [addFree]⟩
        · exact .inr ⟨a, by omega, if_neg hne, by simp [addFree, hne]⟩
  | true =>
      -- the cell at `totally_free_length` has moved to the end
      refine ⟨rfl, fun a => if a = acc.totallyFreeLength then none
        else if a = acc.freeLength then some acc.totallyFreeLength else some a, ?_, ?_⟩
      · intro a _ b _ hab
        simp only at hab
        split_ifs at hab with ha hb hb ha' hb' hb' hb'
        all_goals try rw [Option.some.injEq] at hab
        all_goals omega
      · intro a ha
        rcases eq_or_ne a acc.totallyFreeLength with rfl | hne
        · exact .inl ⟨if_pos rfl, by simp [addFree]⟩
        · rcases eq_or_ne a acc.freeLength with rfl | hne'
          · exact .inr ⟨acc.totallyFreeLength, by omega, by simp [hne], by simp [addFree, hne]⟩
          · exact .inr ⟨a, by omega, by simp [hne, hne'], by simp [addFree, hne, hne']⟩

/-- A free list stays sound when further slots have been looked at. -/
theorem Scan.FreeSound.mono {n n' : ℕ} {acc : Scan} (h : acc.FreeSound c sb n) (hn : n ≤ n') :
    acc.FreeSound c sb n' :=
  { h with free_lt := fun a ha => (h.free_lt a ha).trans_le hn }

/-- Adding the slot that is looked at keeps the free list sound. -/
theorem Scan.FreeSound.addFree {n : ℕ} {acc : Scan} (h : acc.FreeSound c sb n)
    (helig : sb.Eligible c n) (hroom : acc.freeLength < maxSpawnRate) (allDead : Bool) :
    (acc.addFree n allDead).FreeSound c sb (n + 1) := by
  obtain ⟨hlen, σ, hσ, hcells⟩ := acc.addFree_cells n allDead h.totallyFree_le
  have hle := h.totallyFree_le
  constructor
  · cases allDead <;> simp only [Scan.addFree] <;> simp <;> omega
  · omega
  · intro a ha b hb hab
    rw [hlen] at ha hb
    apply hσ a ha b hb
    -- an old cell is below `n`, so it is not the new one
    rcases hcells a ha with ⟨hσa, hva⟩ | ⟨i, hi, hσa, hva⟩ <;>
      rcases hcells b hb with ⟨hσb, hvb⟩ | ⟨j, hj, hσb, hvb⟩
    · rw [hσa, hσb]
    · have := h.free_lt j hj
      omega
    · have := h.free_lt i hi
      omega
    · rw [hσa, hσb, h.distinct i hi j hj (by omega)]
  · intro a ha
    rw [hlen] at ha
    rcases hcells a ha with ⟨-, hva⟩ | ⟨i, hi, -, hva⟩
    · omega
    · have := h.free_lt i hi
      omega
  · intro a ha
    rw [hlen] at ha
    rcases hcells a ha with ⟨-, hva⟩ | ⟨i, hi, -, hva⟩
    · rwa [hva]
    · rw [hva]
      exact h.eligible i hi

/-- **Step lemma.**  Looking at one more slot keeps the variables sound. -/
theorem scanSlot_sound {acc : Scan} (h : acc.Sound c sb) :
    (scanSlot c sb idleSpawnRate acc).Sound c sb := by
  constructor
  · have hfree : (if acc.Takes (sb.parent acc.looked)
        (scanThreads c sb acc.looked acc.idleThreadCount acc.activeThreadCount) idleSpawnRate
        then acc.addFree acc.looked (scanThreads c sb acc.looked acc.idleThreadCount
          acc.activeThreadCount).allDeadThreads
        else acc).FreeSound c sb (acc.looked + 1) := by
      split
      · rename_i htakes
        obtain ⟨hdead, -, hroom, hslot⟩ := htakes
        exact h.free.addFree ⟨(scanThreads_dead ..).mp hdead, hslot⟩ hroom _
      · exact h.free.mono (Nat.le_succ _)
    exact ⟨hfree.totallyFree_le, hfree.free_le, hfree.distinct, hfree.free_lt, hfree.eligible⟩
  · intro k hk hdying
    simp only [scanSlot] at hk ⊢
    split
    · rename_i hflag
      rw [scanThreads_dying] at hflag
      rcases Nat.lt_succ_iff_lt_or_eq.mp hk with hlt | rfl
      · exact h.last k hlt hdying
      · exact absurd hflag hdying
    · exact_mod_cast Nat.lt_succ_iff.mp hk

/-- **The loop keeps the variables sound.** -/
theorem scanSlots_sound {acc : Scan} (h : acc.Sound c sb) (rest : ℕ) :
    (scanSlots c sb maxDaemonsLimit idleSpawnRate rest acc).Sound c sb := by
  induction rest generalizing acc with
  | zero => exact h
  | succ rest ih =>
      rw [scanSlots]
      split
      · exact h
      · exact ih (scanSlot_sound h)

/-- The loop looks at no slot beyond those it is given. -/
theorem scanSlots_looked_le (rest : ℕ) (acc : Scan) :
    (scanSlots c sb maxDaemonsLimit idleSpawnRate rest acc).looked ≤ acc.looked + rest := by
  induction rest generalizing acc with
  | zero => exact le_rfl
  | succ rest ih =>
      rw [scanSlots]
      split
      · omega
      · apply (ih _).trans
        simp only [scanSlot]
        omega

theorem scanScoreboard_sound :
    (scanScoreboard c sb maxDaemonsLimit idleSpawnRate).Sound c sb :=
  scanSlots_sound Scan.start_sound _

/-- The scan looks at no slot at or beyond the daemons limit. -/
theorem scanScoreboard_looked_le :
    (scanScoreboard c sb maxDaemonsLimit idleSpawnRate).looked ≤ c.daemonsLimit := by
  have hle : (scanScoreboard c sb maxDaemonsLimit idleSpawnRate).looked
      ≤ Scan.start.looked + c.daemonsLimit := scanSlots_looked_le c.daemonsLimit .start
  have hstart : Scan.start.looked = 0 := rfl
  omega

/-! ## Where the scan stops -/

/-- The counters of the scan in terms of the slots looked at: up to the rate, the totally free
ones are counted, and until then the free list takes every slot that may go on it. -/
structure Scan.Counted (c : Config) (sb : Scoreboard) (idleSpawnRate : ℕ) (acc : Scan) : Prop where
  totallyFree : acc.totallyFreeLength
    = min idleSpawnRate (Nat.count (sb.TotallyFree c) acc.looked)
  free : acc.totallyFreeLength < idleSpawnRate →
    acc.freeLength = min maxSpawnRate (Nat.count (sb.Eligible c) acc.looked)

/-- Before the loop nothing is counted. -/
theorem Scan.start_counted : Scan.start.Counted c sb idleSpawnRate where
  totallyFree := by simp [Scan.start]
  free := by simp [Scan.start]

/-- The test of the scan, while it has not enough totally free slots. -/
theorem Scan.Counted.takes_iff {acc : Scan} (h : acc.Counted c sb idleSpawnRate)
    (hrate : acc.totallyFreeLength < idleSpawnRate) (idle active : ℕ) :
    acc.Takes (sb.parent acc.looked) (scanThreads c sb acc.looked idle active) idleSpawnRate
      ↔ sb.Eligible c acc.looked ∧ Nat.count (sb.Eligible c) acc.looked < maxSpawnRate := by
  rw [Scan.Takes, scanThreads_dead, h.free hrate, Scoreboard.Eligible]
  constructor
  · rintro ⟨hdead, -, hroom, hslot⟩
    exact ⟨⟨hdead, hslot⟩, by omega⟩
  · rintro ⟨⟨hdead, hslot⟩, hroom⟩
    exact ⟨hdead, hrate, by omega, hslot⟩

/-- **Step lemma.**  One more slot is counted as what it is. -/
theorem scanSlot_counted {acc : Scan} (h : acc.Counted c sb idleSpawnRate) :
    (scanSlot c sb idleSpawnRate acc).Counted c sb idleSpawnRate := by
  have htotal := h.totallyFree
  have hcount := Nat.count_succ (sb.TotallyFree c) acc.looked
  have hcount' := Nat.count_succ (sb.Eligible c) acc.looked
  by_cases hrate : acc.totallyFreeLength < idleSpawnRate
  · have hfree := h.free hrate
    have htakes := h.takes_iff hrate acc.idleThreadCount acc.activeThreadCount
    have hdead := scanThreads_allDead c sb acc.looked acc.idleThreadCount acc.activeThreadCount
    by_cases htake : sb.Eligible c acc.looked
        ∧ Nat.count (sb.Eligible c) acc.looked < maxSpawnRate
    · rw [if_pos htake.1] at hcount'
      by_cases hall : sb.AllDead c acc.looked
      · rw [if_pos ⟨htake.1, hall, htake.2⟩] at hcount
        constructor <;> simp only [scanSlot, if_pos (htakes.mpr htake), hdead.mpr hall,
          Scan.addFree, if_true] <;> omega
      · rw [if_neg fun hfull => hall hfull.2.1] at hcount
        constructor <;> simp only [scanSlot, if_pos (htakes.mpr htake),
          Bool.eq_false_iff.mpr (mt hdead.mp hall), Scan.addFree, Bool.false_eq_true, if_false]
          <;> omega
    · -- the slot is passed over: it may not be used, or the free list is full
      rw [if_neg fun hfull => htake ⟨hfull.1, hfull.2.2⟩] at hcount
      have hsame : min maxSpawnRate (Nat.count (sb.Eligible c) (acc.looked + 1))
          = min maxSpawnRate (Nat.count (sb.Eligible c) acc.looked) := by
        by_cases helig : sb.Eligible c acc.looked
        · have hfull := not_and.mp htake helig
          omega
        · rw [hcount', if_neg helig, add_zero]
      constructor <;> simp only [scanSlot, if_neg (mt htakes.mp htake)] <;> omega
  · -- enough totally free slots: nothing is taken any more
    have hnot : ¬ acc.Takes (sb.parent acc.looked) (scanThreads c sb acc.looked
        acc.idleThreadCount acc.activeThreadCount) idleSpawnRate := fun htakes => hrate htakes.2.1
    constructor <;> simp only [scanSlot, if_neg hnot]
    · split_ifs at hcount <;> omega
    · exact fun hlt => absurd hlt hrate

/-- **Which slots the loop looks at.**  Besides those before it, the slots below the mark and
those with fewer totally free slots before them than it may fork into. -/
theorem scanSlots_looked_iff {acc : Scan} (h : acc.Counted c sb idleSpawnRate) (rest k : ℕ) :
    k < (scanSlots c sb maxDaemonsLimit idleSpawnRate rest acc).looked
      ↔ k < acc.looked ∨ k < acc.looked + rest
        ∧ ((k : ℤ) < maxDaemonsLimit ∨ Nat.count (sb.TotallyFree c) k < idleSpawnRate) := by
  induction rest generalizing acc with
  | zero =>
      rw [scanSlots, add_zero]
      exact ⟨.inl, fun hk => hk.elim id And.left⟩
  | succ rest ih =>
      have htotal := h.totallyFree
      rw [scanSlots]
      split
      · rename_i hstop
        refine ⟨.inl, fun hk => hk.elim id ?_⟩
        rintro ⟨-, hmark | hfew⟩
        · exact Int.ofNat_lt.mp (hmark.trans_le hstop.1)
        · -- from here on there are as many as the rate
          by_contra hge
          have hmono := Nat.count_monotone (sb.TotallyFree c) (not_lt.mp hge)
          omega
      · rename_i hgo
        rw [ih (scanSlot_counted h)]
        have hlooked : (scanSlot c sb idleSpawnRate acc).looked = acc.looked + 1 := rfl
        have hhere : ((acc.looked : ℤ) < maxDaemonsLimit
            ∨ Nat.count (sb.TotallyFree c) acc.looked < idleSpawnRate) := by
          by_contra hnot
          rw [not_or] at hnot
          exact hgo ⟨not_lt.mp hnot.1, by omega⟩
        rw [hlooked]
        constructor
        · rintro (hk | ⟨hk, hfew⟩)
          · rcases Nat.lt_succ_iff_lt_or_eq.mp hk with hlt | rfl
            · exact .inl hlt
            · exact .inr ⟨by omega, hhere⟩
          · exact .inr ⟨by omega, hfew⟩
        · rintro (hk | ⟨hk, hfew⟩)
          · exact .inl (by omega)
          · exact .inr ⟨by omega, hfew⟩

/-- Which slots a round looks at. -/
theorem scanScoreboard_looked_iff (k : ℕ) :
    k < (scanScoreboard c sb maxDaemonsLimit idleSpawnRate).looked
      ↔ k < c.daemonsLimit
        ∧ ((k : ℤ) < maxDaemonsLimit ∨ Nat.count (sb.TotallyFree c) k < idleSpawnRate) := by
  have hzero : Scan.start.looked = 0 := rfl
  rw [scanScoreboard, scanSlots_looked_iff Scan.start_counted, hzero, zero_add]
  exact ⟨fun hk => hk.resolve_left (Nat.not_lt_zero k), .inr⟩

end Zevent.Server

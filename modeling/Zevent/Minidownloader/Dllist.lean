/-
# The download lists of the mini downloader

`dllist.cpp` keeps two lists of `dlitem` pointers under `list_mutex`: `filelist`, the
files that wait, and `running_list`, the files a download thread works on.  Download
threads (`dlmanager::dlthread_entry`) take an item with `get_next_dlitem`, and give it
back with `return_to_dllist` when the download fails or drop it with
`remove_from_runlist` when it is done; the thread of `ipcserver.cpp` adds requested
files with `put_to_dllist`.

* An item is an address, and the state holds the `md5` string stored at each address:
  `put_to_dllist` compares pointers and strings, the two erasing loops only pointers.
* `step` is one call under the mutex, by a download thread or by the IPC thread; any
  number of threads take part.
* `put_to_dllist` looks for the requested file in `running_list` only.
  `PutFresh` is the guard under which that is enough, `distinct_running` the result for
  guarded runs, and `running_twice` a run outside of it.
-/
import Mathlib.Tactic
import Zevent.Lib.Interleaving

namespace Zevent.Minidownloader

open Interleaving

/-! ## The two lists -/

/-- The lists of `dllist`, with the `md5` strings of the items they point to. -/
structure Dllist where
  md5 : ℕ → List UInt8
  filelist : List ℕ
  runningList : List ℕ

namespace Dllist

/-- `get_next_dlitem`: the front of `filelist` moves to the end of `running_list`;
no item is the return value `-1`. -/
def getNextDlitem (l : Dllist) : Option ℕ × Dllist :=
  match l.filelist with
  | [] => (none, l)
  | item :: rest => (some item, { l with filelist := rest, runningList := l.runningList ++ [item] })

/-- The loop of `put_to_dllist`: is the item, or another item with its `md5`, running? -/
def isRunning (l : Dllist) (item : ℕ) : Bool :=
  l.runningList.any fun tmp => item == tmp || l.md5 item == l.md5 tmp

/-- `put_to_dllist`: refused with `1` when the file is running, else in front of
`filelist`. -/
def putToDllist (l : Dllist) (item : ℕ) : ℕ × Dllist :=
  if l.isRunning item then (1, l) else (0, { l with filelist := item :: l.filelist })

/-- `remove_from_runlist`: the loop erases every occurrence of the pointer. -/
def removeFromRunlist (l : Dllist) (item : ℕ) : Dllist :=
  { l with runningList := l.runningList.filter fun tmp => tmp != item }

/-- `return_to_dllist`: the same loop, and the item goes to the end of `filelist`. -/
def returnToDllist (l : Dllist) (item : ℕ) : Dllist :=
  { l with
    filelist := l.filelist ++ [item]
    runningList := l.runningList.filter fun tmp => tmp != item }

/-- The lists after the string `m` is at the address `item`. -/
def write (l : Dllist) (item : ℕ) (m : List UInt8) : Dllist :=
  { l with md5 := Function.update l.md5 item m }

/-- The `md5` strings of the items of both lists. -/
def digests (l : Dllist) : List (List UInt8) :=
  (l.filelist ++ l.runningList).map l.md5

/-! ### What the calls do to the digests -/

variable {l : Dllist} {item : ℕ} {m : List UInt8}

/-- Taking the next item only moves it between the lists. -/
theorem digests_getNextDlitem {l' : Dllist} (h : l.getNextDlitem = (some item, l')) :
    l'.digests.Perm l.digests ∧ l'.runningList = l.runningList ++ [item] ∧
      item ∈ l.filelist := by
  unfold getNextDlitem at h
  split at h
  · simp at h
  · rename_i first rest hl
    simp only [Prod.mk.injEq, Option.some.injEq] at h
    obtain ⟨rfl, rfl⟩ := h
    refine ⟨List.Perm.map _ ?_, rfl, by rw [hl]; exact List.mem_cons_self⟩
    rw [hl, List.cons_append, ← List.append_assoc]
    exact List.perm_append_singleton first (rest ++ l.runningList)

/-- With distinct digests, an item of `running_list` given back is moved too. -/
theorem digests_returnToDllist (hd : l.digests.Nodup) (hr : item ∈ l.runningList) :
    (l.returnToDllist item).digests.Perm l.digests := by
  have hnodup : l.runningList.Nodup :=
    (List.Nodup.of_map _ hd).sublist (List.sublist_append_right _ _)
  have hfilter : (l.runningList.filter fun tmp => tmp != item) = l.runningList.erase item :=
    (hnodup.erase_eq_filter item).symm
  apply List.Perm.map _
  show (l.filelist ++ [item] ++ l.runningList.filter fun tmp => tmp != item).Perm _
  rw [hfilter, List.append_assoc]
  exact List.Perm.append_left _ (List.perm_cons_erase hr).symm

/-- Dropping an item drops digests. -/
theorem digests_removeFromRunlist : (l.removeFromRunlist item).digests.Sublist l.digests :=
  List.Sublist.map _ (List.Sublist.append_left List.filter_sublist _)

/-- Writing a string nobody's item disagrees with changes no digest. -/
theorem digests_write (h : item ∈ l.filelist ++ l.runningList → l.md5 item = m) :
    (l.write item m).digests = l.digests := by
  unfold digests
  apply List.map_congr_left
  intro tmp htmp
  show Function.update l.md5 item m tmp = l.md5 tmp
  by_cases heq : tmp = item
  · subst heq
    rw [Function.update_self, h htmp]
  · rw [Function.update_of_ne heq]

/-- A file that neither runs nor waits can be put without a repetition. -/
theorem digests_putToDllist_nodup (hd : l.digests.Nodup)
    (hfree : l.isRunning item = true ∨ ∀ tmp ∈ l.filelist, l.md5 tmp ≠ l.md5 item) :
    (l.putToDllist item).2.digests.Nodup := by
  unfold putToDllist
  split
  · exact hd
  · rename_i hrun
    have hwait := hfree.resolve_left hrun
    -- the loop has found no running item with the string
    have hidle : ∀ tmp ∈ l.runningList, l.md5 tmp ≠ l.md5 item := by
      intro tmp htmp heq
      apply hrun
      exact List.any_eq_true.mpr ⟨tmp, htmp, by simp [heq]⟩
    show (l.md5 item :: l.digests).Nodup
    refine List.nodup_cons.mpr ⟨?_, hd⟩
    intro hmem
    obtain ⟨tmp, htmp, heq⟩ := List.mem_map.mp hmem
    rcases List.mem_append.mp htmp with hf | hr
    · exact hwait tmp hf heq
    · exact hidle tmp hr heq

theorem runningList_putToDllist : (l.putToDllist item).2.runningList = l.runningList := by
  unfold putToDllist
  split <;> rfl

theorem mem_runningList_filter {tmp : ℕ} (h : tmp ∈ l.runningList) (hne : tmp ≠ item) :
    tmp ∈ l.runningList.filter fun tmp => tmp != item :=
  List.mem_filter.mpr ⟨h, by simpa using hne⟩

end Dllist

/-! ## Threads -/

/-- Where a download thread is in `dlthread_entry`: without an item, between
`get_next_dlitem` and the call that gives the item up, or after
`remove_from_runlist` and before `delete item`. -/
inductive Phase
  | idle
  | working (item : ℕ)
  | finished (item : ℕ)
deriving DecidableEq

/-- The lists and the download threads. -/
structure Manager (τ : Type*) where
  lists : Dllist
  phase : τ → Phase

/-- One call of a thread. -/
inductive Action (τ : Type*)
  | getNext (t : τ)
  | giveBack (t : τ)
  | remove (t : τ)
  | delete (t : τ)
  | put (item : ℕ) (md5 : List UInt8)

section Threads

variable {τ : Type*} [DecidableEq τ]

/-- The address belongs to an item that a list or a thread still holds. -/
def Manager.Held (s : Manager τ) (item : ℕ) : Prop :=
  item ∈ s.lists.filelist ∨ item ∈ s.lists.runningList ∨
    ∃ t, s.phase t = .working item ∨ s.phase t = .finished item

instance [Fintype τ] (s : Manager τ) (item : ℕ) : Decidable (s.Held item) :=
  inferInstanceAs (Decidable (_ ∨ _ ∨ _))

/-- One step.  A download that fails is `giveBack`; `check_file` or `dlonefile` that
succeed are `remove`.  `put` is the IPC thread with an arbitrary item: one it has made
at an address nobody holds, or one that is there already with the string it has. -/
def step [Fintype τ] (s : Manager τ) : Action τ → Option (Manager τ)
  | .getNext t =>
      match s.phase t with
      | .idle =>
          match s.lists.getNextDlitem with
          | (none, _) => some s
          | (some item, lists) =>
              some { lists := lists, phase := Function.update s.phase t (.working item) }
      | _ => none
  | .giveBack t =>
      match s.phase t with
      | .working item =>
          some { lists := s.lists.returnToDllist item, phase := Function.update s.phase t .idle }
      | _ => none
  | .remove t =>
      match s.phase t with
      | .working item =>
          some { lists := s.lists.removeFromRunlist item,
                 phase := Function.update s.phase t (.finished item) }
      | _ => none
  | .delete t =>
      match s.phase t with
      | .finished _ => some { s with phase := Function.update s.phase t .idle }
      | _ => none
  | .put item m =>
      if s.Held item → s.lists.md5 item = m then
        some { s with lists := ((s.lists.write item m).putToDllist item).2 }
      else none

/-- The manager when the threads start: the files of the list file wait, none runs. -/
def start (md5 : ℕ → List UInt8) (files : List ℕ) : Manager τ where
  lists := { md5 := md5, filelist := files, runningList := [] }
  phase := fun _ => .idle

/-- The guard: a requested file is already running, or does not wait in `filelist`. -/
def PutFresh (s : Manager τ) : Action τ → Prop
  | .put item m => (s.lists.write item m).isRunning item = true ∨
      ∀ tmp ∈ s.lists.filelist, s.lists.md5 tmp ≠ m
  | _ => True

instance (s : Manager τ) (a : Action τ) : Decidable (PutFresh s a) :=
  match a with
  | .put _ _ => inferInstanceAs (Decidable (_ ∨ _))
  | .getNext _ | .giveBack _ | .remove _ | .delete _ => inferInstanceAs (Decidable True)

/-! ## One step -/

/-- The invariant of guarded runs: no string twice in the two lists together, a thread's
item is in `running_list`, and no two threads have one item. -/
structure Inv (s : Manager τ) : Prop where
  distinct : s.lists.digests.Nodup
  working : ∀ t item, s.phase t = .working item → item ∈ s.lists.runningList
  apart : ∀ t u item, s.phase t = .working item → s.phase u = .working item → t = u

/-- A thread that takes an item from `filelist` keeps the invariant. -/
theorem Inv.take {s : Manager τ} (hs : Inv s) {t : τ} {item : ℕ} {l : Dllist}
    (hd : l.digests.Nodup) (hl : l.runningList = s.lists.runningList ++ [item])
    (hmem : item ∈ s.lists.filelist) :
    Inv { lists := l, phase := Function.update s.phase t (.working item) } := by
  -- the item waited, so no thread worked on it
  have hnew : ∀ u, s.phase u ≠ .working item := by
    intro u hu
    have hdisj := (List.nodup_append.mp (List.Nodup.of_map _ hs.distinct)).2.2
    exact hdisj item hmem item (hs.working u item hu) rfl
  have hcases : ∀ u i, Function.update s.phase t (.working item) u = .working i →
      (u = t ∧ i = item) ∨ s.phase u = .working i := by
    intro u i hu
    by_cases hut : u = t
    · rw [hut, Function.update_self, Phase.working.injEq] at hu
      exact Or.inl ⟨hut, hu.symm⟩
    · rw [Function.update_of_ne hut] at hu
      exact Or.inr hu
  refine ⟨hd, ?_, ?_⟩
  · intro u i hu
    show i ∈ l.runningList
    rw [hl]
    rcases hcases u i hu with ⟨-, rfl⟩ | hu
    · exact List.mem_append_right _ List.mem_cons_self
    · exact List.mem_append_left _ (hs.working u i hu)
  · intro u v i hu hv
    rcases hcases u i hu with ⟨rfl, rfl⟩ | hu' <;> rcases hcases v i hv with ⟨rfl, hi⟩ | hv'
    · rfl
    · exact absurd hv' (hnew v)
    · subst hi
      exact absurd hu' (hnew u)
    · exact hs.apart u v i hu' hv'

/-- A thread that leaves `working` keeps the invariant when the lists keep distinct
digests and lose at most its item from `running_list`. -/
theorem Inv.leave {s : Manager τ} (hs : Inv s) {t : τ} {item : ℕ} {x : Phase} {l : Dllist}
    (hphase : s.phase t = .working item) (hx : ∀ i, x ≠ .working i) (hd : l.digests.Nodup)
    (hl : l.runningList = s.lists.runningList.filter fun tmp => tmp != item) :
    Inv { lists := l, phase := Function.update s.phase t x } := by
  have hstays : ∀ u i, Function.update s.phase t x u = .working i →
      u ≠ t ∧ s.phase u = .working i := by
    intro u i hu
    by_cases hut : u = t
    · rw [hut, Function.update_self] at hu
      exact absurd hu (hx i)
    · rw [Function.update_of_ne hut] at hu
      exact ⟨hut, hu⟩
  refine ⟨hd, ?_, ?_⟩
  · intro u i hu
    obtain ⟨hut, hu⟩ := hstays u i hu
    show i ∈ l.runningList
    rw [hl]
    apply Dllist.mem_runningList_filter (hs.working u i hu)
    rintro rfl
    exact hut (hs.apart u t i hu hphase)
  · intro u v i hu hv
    exact hs.apart u v i (hstays u i hu).2 (hstays v i hv).2

/-- Every step the guard allows keeps the invariant. -/
theorem inv_step [Fintype τ] {s s' : Manager τ} {a : Action τ} (hs : Inv s) (hok : PutFresh s a)
    (h : step s a = some s') : Inv s' := by
  cases a with
  | getNext t =>
      simp only [step] at h
      split at h
      · split at h
        · rw [Option.some.injEq] at h
          exact h ▸ hs
        · rename_i item l' hnext
          obtain ⟨hperm, hrun, hmem⟩ := Dllist.digests_getNextDlitem hnext
          rw [Option.some.injEq] at h
          subst h
          exact hs.take (hperm.nodup_iff.mpr hs.distinct) hrun hmem
      · simp at h
  | giveBack t =>
      simp only [step] at h
      split at h
      · rename_i item hphase
        rw [Option.some.injEq] at h
        subst h
        have hrun := hs.working t item hphase
        have hperm := Dllist.digests_returnToDllist hs.distinct hrun
        exact hs.leave hphase (by simp) (hperm.nodup_iff.mpr hs.distinct) rfl
      · simp at h
  | remove t =>
      simp only [step] at h
      split at h
      · rename_i item hphase
        rw [Option.some.injEq] at h
        subst h
        have hsub := @Dllist.digests_removeFromRunlist s.lists item
        exact hs.leave hphase (by simp) (hs.distinct.sublist hsub) rfl
      · simp at h
  | delete t =>
      simp only [step] at h
      split at h
      · rw [Option.some.injEq] at h
        subst h
        have hstays : ∀ u i, Function.update s.phase t .idle u = .working i →
            s.phase u = .working i := by
          intro u i hu
          by_cases hut : u = t
          · simp [hut] at hu
          · rwa [Function.update_of_ne hut] at hu
        refine ⟨hs.distinct, fun u i hu => hs.working u i (hstays u i hu), ?_⟩
        exact fun u v i hu hv => hs.apart u v i (hstays u i hu) (hstays v i hv)
      · simp at h
  | put item m =>
      simp only [step] at h
      split at h
      · rename_i hheld
        rw [Option.some.injEq] at h
        subst h
        have hsame : item ∈ s.lists.filelist ++ s.lists.runningList → s.lists.md5 item = m := by
          intro hmem
          apply hheld
          rcases List.mem_append.mp hmem with hf | hr
          · exact Or.inl hf
          · exact Or.inr (Or.inl hr)
        refine ⟨?_, ?_, hs.apart⟩
        · apply Dllist.digests_putToDllist_nodup
          · rw [Dllist.digests_write hsame]
            exact hs.distinct
          · apply hok.imp_right
            intro hwait tmp htmp
            show Function.update s.lists.md5 item m tmp ≠ Function.update s.lists.md5 item m item
            rw [Function.update_self]
            by_cases heq : tmp = item
            · subst heq
              exact absurd (hsame (List.mem_append_left _ htmp)) (hwait tmp htmp)
            · rw [Function.update_of_ne heq]
              exact hwait tmp htmp
        · intro u i hu
          show i ∈ ((s.lists.write item m).putToDllist item).2.runningList
          rw [Dllist.runningList_putToDllist]
          exact hs.working u i hu
      · simp at h

omit [DecidableEq τ] in
/-- The invariant holds when the threads start. -/
theorem inv_start {md5 : ℕ → List UInt8} {files : List ℕ} (h : (files.map md5).Nodup) :
    Inv (start md5 files : Manager τ) where
  distinct := by
    show ((files ++ []).map md5).Nodup
    rwa [List.append_nil]
  working := by
    intro t item ht
    simp [start] at ht
  apart := by
    intro t u item ht
    simp [start] at ht

/-! ## Whole runs -/

/-- **No file runs twice.**  From a list of files with pairwise distinct `md5` strings, in
every run of any number of threads in which each requested file is already running or does
not wait in `filelist`, the items of `running_list` have pairwise distinct strings, and no
two threads work on items with one string. -/
theorem distinct_running [Fintype τ] (md5 : ℕ → List UInt8) (files : List ℕ)
    (hfiles : (files.map md5).Nodup) (s : Manager τ)
    (h : Reach step PutFresh (start md5 files) s) :
    s.lists.runningList.Pairwise (fun p q => s.lists.md5 p ≠ s.lists.md5 q)
      ∧ ∀ t u p q, s.phase t = .working p → s.phase u = .working q →
          s.lists.md5 p = s.lists.md5 q → t = u := by
  have hinv : Inv s := h.invariant Inv (inv_start hfiles) fun _ _ _ hs hok => inv_step hs hok
  have hrun : (s.lists.runningList.map s.lists.md5).Nodup := by
    refine hinv.distinct.sublist ?_
    exact (List.sublist_append_right _ _).map _
  refine ⟨List.pairwise_map.mp hrun, ?_⟩
  intro t u p q ht hu heq
  have hpq : p = q := List.inj_on_of_nodup_map hrun (hinv.working t p ht) (hinv.working u q hu) heq
  subst hpq
  exact hinv.apart t u p ht hu

end Threads

/-- The digest strings of three items, at the addresses `1`, `2` and `3`. -/
def sampleMd5 (item : ℕ) : List UInt8 := [97 + UInt8.ofNat item]

/-- Two threads at work on the two files of a list, after a request for one of them was
refused and another file was put. -/
theorem distinct_running_two_threads :
    ([1, 2].map sampleMd5).Nodup ∧ ∃ s : Manager (Fin 2),
      Reach step PutFresh (start sampleMd5 [1, 2]) s
      ∧ s.lists.runningList = [1, 2] ∧ s.lists.filelist = [3]
      ∧ s.lists.runningList.Pairwise (fun p q => s.lists.md5 p ≠ s.lists.md5 q) := by
  have hrun : (run step PutFresh (start sampleMd5 [1, 2] : Manager (Fin 2))
      [.getNext 0, .put 4 (sampleMd5 1), .getNext 1, .put 3 (sampleMd5 3)]).map
        (fun s => (s.lists.runningList, s.lists.filelist)) = some ([1, 2], [3]) := by
    decide
  obtain ⟨s, hs, hlists⟩ := Option.map_eq_some_iff.mp hrun
  have hreach := Reach.refl.run _ hs
  rw [Prod.mk.injEq] at hlists
  exact ⟨by decide, s, hreach, hlists.1, hlists.2,
    (distinct_running sampleMd5 [1, 2] (by decide) s hreach).1⟩

/-- **A file runs twice.**  A request for the file that waits in `filelist` puts a second
item in front of it, and the two threads take one each. -/
theorem running_twice :
    ([1].map sampleMd5).Nodup ∧ ∃ s : Manager (Fin 2),
      Reach step Always (start sampleMd5 [1]) s
      ∧ s.lists.runningList = [2, 1] ∧ s.lists.md5 2 = s.lists.md5 1
      ∧ s.phase 0 = .working 2 ∧ s.phase 1 = .working 1
      ∧ ¬ s.lists.runningList.Pairwise (fun p q => s.lists.md5 p ≠ s.lists.md5 q) := by
  have hrun : (run step Always (start sampleMd5 [1] : Manager (Fin 2))
      [.put 2 (sampleMd5 1), .getNext 0, .getNext 1]).map
        (fun s => (s.lists.runningList, s.lists.md5 2, s.lists.md5 1, s.phase 0, s.phase 1))
      = some ([2, 1], [98], [98], .working 2, .working 1) := by
    decide
  obtain ⟨s, hs, hstate⟩ := Option.map_eq_some_iff.mp hrun
  simp only [Prod.mk.injEq] at hstate
  obtain ⟨hrunning, htwo, hone, hzero, hother⟩ := hstate
  have hsame : s.lists.md5 2 = s.lists.md5 1 := htwo.trans hone.symm
  refine ⟨by decide, s, Reach.refl.run _ hs, hrunning, hsame, hzero, hother, ?_⟩
  rw [hrunning]
  intro hpair
  exact (List.pairwise_cons.mp hpair).1 1 List.mem_cons_self hsame

end Zevent.Minidownloader

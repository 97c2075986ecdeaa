/-
# Searching memory (`memfind` of `util.c`, `iobuf_find`)

`memfind` compares a pattern with the memory at one place after the other.  The number of places is
`memlen - sublen + 1`, a `size_t`, so it is not small but very large for a pattern that is longer
than the memory by two bytes or more.

* `memfind_inside`: a number of places that does not wrap.
* `memfind_outside`: a pattern that is too long is compared with bytes behind the memory.
* `memfind_first_iff`: when the first occurrence is found.
-/
import Mathlib.Tactic
import Zevent.Znet.Iobuf

namespace Zevent.Znet

/-- The inner loop of `memfind`, with the memory from place `p` on. -/
def compareAt (mem : List UInt8) : ℕ → List UInt8 → Except Trap Bool
  | _, [] => .ok true
  | p, s :: sub =>
      match mem[p]? with
      | none => .error .outOfBlock
      | some m => if m ≠ s then .ok false else compareAt mem (p + 1) sub

/-- The outer loop, with the places that are left. -/
def memfindLoop (sub mem : List UInt8) : ℕ → ℕ → Except Trap (Option ℕ)
  | 0, _ => .ok none
  | places + 1, i =>
      match compareAt mem i sub with
      | .error t => .error t
      | .ok true => .ok (some i)
      | .ok false => memfindLoop sub mem places (i + 1)

/-- `memlen - sublen + 1`, a `size_t` of 64 bits. -/
def placesOf (sublen memlen : ℕ) : ℕ := (((memlen : ℤ) - sublen + 1) % 2 ^ 64).toNat

/-- `memfind`: where the pattern is found. -/
def memfind (sub mem : List UInt8) : Except Trap (Option ℕ) :=
  memfindLoop sub mem (placesOf sub.length mem.length) 0

/-- `iobuf_find`. -/
def Iobuf.find (iob : Iobuf) (p : List UInt8) : Except Trap (Option ℕ) :=
  if iob.error then .ok none else memfind p iob.data

/-- The pattern stands at place `i` of the memory. -/
def OccursAt (sub mem : List UInt8) (i : ℕ) : Prop := i ≤ mem.length ∧ sub <+: mem.drop i

/-- The result is the first place of the pattern, or `NULL` if there is none, and nothing else is
read. -/
def FindsFirst (sub mem : List UInt8) : Except Trap (Option ℕ) → Prop
  | .error _ => False
  | .ok none => ∀ i, ¬ OccursAt sub mem i
  | .ok (some i) => OccursAt sub mem i ∧ ∀ j < i, ¬ OccursAt sub mem j

variable {sub mem : List UInt8}

/-- An occurrence is inside of the memory. -/
theorem OccursAt.le {i : ℕ} (h : OccursAt sub mem i) : i + sub.length ≤ mem.length := by
  have hlen := h.2.length_le
  have hi := h.1
  rw [List.length_drop] at hlen
  omega

/-- The comparison inside of the memory. -/
theorem compareAt_inside {p : ℕ} (h : p + sub.length ≤ mem.length) :
    (compareAt mem p sub = .ok true ∧ sub <+: mem.drop p) ∨
      compareAt mem p sub = .ok false ∧ ¬ sub <+: mem.drop p := by
  induction sub generalizing p with
  | nil => exact Or.inl ⟨rfl, List.nil_prefix⟩
  | cons s sub ih =>
      rw [List.length_cons] at h
      have hp : p < mem.length := by omega
      rw [compareAt, List.getElem?_eq_getElem hp, List.drop_eq_getElem_cons hp]
      dsimp only
      by_cases hs : mem[p] = s
      · rw [if_neg (not_not.mpr hs), hs]
        rcases ih (by omega : p + 1 + sub.length ≤ mem.length) with ⟨heq, hpre⟩ | ⟨heq, hpre⟩
        · exact Or.inl ⟨heq, List.cons_prefix_cons.mpr ⟨rfl, hpre⟩⟩
        · exact Or.inr ⟨heq, fun hcons => hpre (List.cons_prefix_cons.mp hcons).2⟩
      · rw [if_pos hs]
        exact Or.inr ⟨rfl, fun hcons => hs (List.cons_prefix_cons.mp hcons).1.symm⟩

/-- A pattern that goes beyond the end is not found. -/
theorem compareAt_beyond {p : ℕ} (h : mem.length < p + sub.length) (hne : sub ≠ []) :
    compareAt mem p sub ≠ .ok true := by
  induction sub generalizing p with
  | nil => exact absurd rfl hne
  | cons s sub ih =>
      rw [List.length_cons] at h
      rw [compareAt]
      cases hm : mem[p]? with
      | none => exact fun heq => by cases heq
      | some m =>
          dsimp only
          split_ifs with hs
          · exact fun heq => by cases heq
          · have hp := (List.getElem?_eq_some_iff.mp hm).1
            refine ih (by omega) ?_
            rintro rfl
            rw [List.length_nil] at h
            omega

/-- **Places inside of the memory.** -/
theorem memfindLoop_inside {places i : ℕ} (h : i + places + sub.length ≤ mem.length + 1) :
    ∃ r, memfindLoop sub mem places i = .ok r ∧
      match r with
      | none => ∀ j, i ≤ j → j < i + places → ¬ OccursAt sub mem j
      | some k => OccursAt sub mem k ∧ ∀ j, i ≤ j → j < k → ¬ OccursAt sub mem j := by
  induction places generalizing i with
  | zero => exact ⟨none, rfl, fun j hj hlt => absurd hlt (by omega)⟩
  | succ places ih =>
      rw [memfindLoop]
      rcases compareAt_inside (by omega : i + sub.length ≤ mem.length) with
        ⟨heq, hpre⟩ | ⟨heq, hpre⟩
      · rw [heq]
        exact ⟨some i, rfl, ⟨by omega, hpre⟩, fun j hj hlt => absurd hlt (by omega)⟩
      · rw [heq]
        have hnot : ¬ OccursAt sub mem i := fun hocc => hpre hocc.2
        have hstep : ∀ j, i ≤ j → j = i ∨ i + 1 ≤ j := fun j hj => by omega
        obtain ⟨r, hr, hspec⟩ := ih (by omega : i + 1 + places + sub.length ≤ mem.length + 1)
        refine ⟨r, hr, ?_⟩
        cases r with
        | none =>
            intro j hj hlt
            rcases hstep j hj with rfl | hj
            · exact hnot
            · exact hspec j hj (by omega)
        | some k =>
            refine ⟨hspec.1, fun j hj hlt => ?_⟩
            rcases hstep j hj with rfl | hj
            · exact hnot
            · exact hspec.2 j hj hlt

/-- **Places behind the end of the memory** are read, if the loop gets there. -/
theorem memfindLoop_outside (hlong : mem.length < sub.length) {places i : ℕ}
    (hi : i ≤ mem.length) (hplaces : mem.length < i + places) :
    ∃ t, memfindLoop sub mem places i = .error t := by
  have hne : sub ≠ [] := by
    rintro rfl
    exact absurd hlong (Nat.not_lt_zero _)
  induction places generalizing i with
  | zero => omega
  | succ places ih =>
      rw [memfindLoop]
      cases hcompare : compareAt mem i sub with
      | error t => exact ⟨t, rfl⟩
      | ok found =>
          cases found with
          | true => exact absurd hcompare (compareAt_beyond (by omega) hne)
          | false =>
              rcases Nat.lt_or_ge i mem.length with hlt | hge
              · exact ih hlt (by omega)
              · -- at the end there is no byte to compare
                obtain ⟨s, rest, rfl⟩ := List.exists_cons_of_ne_nil hne
                rw [compareAt, List.getElem?_eq_none hge] at hcompare
                cases hcompare

/-- A search that stays inside of the memory finds the first occurrence. -/
theorem memfind_inside (hsub : sub.length ≤ mem.length + 1)
    (hmem : mem.length + 1 < sub.length + 2 ^ 64) : FindsFirst sub mem (memfind sub mem) := by
  have hplaces : placesOf sub.length mem.length = mem.length + 1 - sub.length := by
    rw [placesOf, Int.emod_eq_of_lt (by omega) (by omega)]
    omega
  obtain ⟨r, hr, hspec⟩ := @memfindLoop_inside sub mem (mem.length + 1 - sub.length) 0 (by omega)
  rw [memfind, hplaces, hr]
  cases r with
  | none => exact fun i hocc => hspec i (Nat.zero_le i) (by have := hocc.le; omega) hocc
  | some k => exact ⟨hspec.1, fun j hj => hspec.2 j (Nat.zero_le j) hj⟩

/-- For a longer one the search reads outside of the memory. -/
theorem memfind_outside (hsub : mem.length + 1 < sub.length) (hsize : sub.length < 2 ^ 64) :
    ∃ t, memfind sub mem = .error t := by
  have hplaces : placesOf sub.length mem.length = 2 ^ 64 + mem.length + 1 - sub.length := by
    rw [placesOf]
    omega
  rw [memfind, hplaces]
  exact memfindLoop_outside (by omega) (Nat.zero_le _) (by omega)

/-- `memfind` finds the first place of the pattern in the memory, and `iobuf_find` the first one in
the bytes that are buffered. -/
def SearchRight (sub mem : List UInt8) : Prop :=
  FindsFirst sub mem (memfind sub mem) ∧
    ∀ iob : Iobuf, iob.error = false → iob.data = mem → FindsFirst sub mem (iob.find sub)

/-- **When a search is right**: the number of places is not below 0, and it is a `size_t`. -/
theorem memfind_first_iff (hsub : sub.length < 2 ^ 64) (hmem : mem.length < 2 ^ 64) :
    SearchRight sub mem ↔
      sub.length ≤ mem.length + 1 ∧ mem.length + 1 < sub.length + 2 ^ 64 := by
  constructor
  · rintro ⟨hfirst, -⟩
    constructor
    · by_contra hlong
      obtain ⟨t, ht⟩ := memfind_outside (not_le.mp hlong) hsub
      rw [ht] at hfirst
      exact hfirst
    · by_contra hall
      -- no place is looked at, and the empty pattern is everywhere
      have hzero : placesOf sub.length mem.length = 0 := by
        rw [placesOf]
        omega
      have hnil : sub = [] := List.length_eq_zero_iff.mp (by omega)
      rw [memfind, hzero] at hfirst
      exact hfirst 0 ⟨Nat.zero_le _, by rw [hnil]; exact List.nil_prefix⟩
  · rintro ⟨hle, hlt⟩
    refine ⟨memfind_inside hle hlt, fun iob herror hdata => ?_⟩
    rw [Iobuf.find, herror, hdata]
    exact memfind_inside hle hlt

/-- The second of two places. -/
theorem memfind_first_abab : SearchRight [98] [97, 98, 97, 98] :=
  (memfind_first_iff (by decide) (by decide)).mpr (by decide)

/-- Three bytes in a memory of one byte: the byte behind it is read. -/
theorem memfind_long :
    memfind [97, 98, 99] [97] = .error .outOfBlock ∧ ¬ SearchRight [97, 98, 99] [97] := by
  have hrun : memfind [97, 98, 99] [97] = .error .outOfBlock := by
    decide
  refine ⟨hrun, fun h => ?_⟩
  have hfirst := h.1
  rw [hrun] at hfirst
  exact hfirst

end Zevent.Znet

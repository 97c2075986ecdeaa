/-
# Times in seconds and microseconds

A point in time or a span, held as seconds and microseconds, with the comparison of the two
fields in turn and the loops that bring the microseconds into range.

* `Timeval.micros` is the time in microseconds, and `Timeval.Normalised` says that the
  microseconds are those of less than a second; on normalised times the comparison `Before`
  is that of the microseconds (`before_iff_micros`).
* `carry` moves whole seconds out of the microseconds, `borrow` moves them in while the
  microseconds are negative; neither changes the time (`carry_spec`, `borrow_spec`).
-/
import Mathlib.Tactic

/-- Seconds and microseconds. -/
structure Timeval where
  sec : ℤ
  usec : ℤ
deriving DecidableEq, Repr

namespace Timeval

/-- The time in microseconds. -/
def micros (t : Timeval) : ℤ := t.sec * 1000000 + t.usec

/-- The microseconds are those of less than a second. -/
def Normalised (t : Timeval) : Prop := 0 ≤ t.usec ∧ t.usec < 1000000

/-- The comparison of the seconds and, when they are equal, of the microseconds. -/
def Before (s t : Timeval) : Prop := s.sec < t.sec ∨ s.sec = t.sec ∧ s.usec < t.usec

instance (t : Timeval) : Decidable t.Normalised := inferInstanceAs (Decidable (_ ∧ _))

instance (s t : Timeval) : Decidable (s.Before t) := inferInstanceAs (Decidable (_ ∨ _ ∧ _))

/-! ## Comparison -/

variable {s t u : Timeval}

/-- An earlier time is earlier, as long as the microseconds do not run over. -/
theorem Before.micros_lt (h : s.Before t) (hs : s.usec < 1000000) (ht : 0 ≤ t.usec) :
    s.micros < t.micros := by
  rw [micros, micros]
  rcases h with hsec | ⟨hsec, husec⟩ <;> omega

/-- Of two normal times, the one with fewer microseconds is before the other. -/
theorem before_of_micros (h : s.micros < t.micros) (hs : 0 ≤ s.usec) (ht : t.usec < 1000000) :
    s.Before t := by
  rw [micros, micros] at h
  rw [Before]
  omega

/-- On normalised times the comparison is that of the microseconds. -/
theorem before_iff_micros (hs : s.Normalised) (ht : t.Normalised) :
    s.Before t ↔ s.micros < t.micros :=
  ⟨fun h => h.micros_lt hs.2 ht.1, fun h => before_of_micros h hs.1 ht.2⟩

/-- The order is transitive. -/
theorem Before.trans (hst : s.Before t) (htu : t.Before u) : s.Before u := by
  rw [Before] at *
  omega

theorem Before.irrefl (t : Timeval) : ¬ t.Before t := by
  rw [Before]
  omega

/-- A time that is not behind another is before all that are behind that one. -/
theorem Before.of_not_before (hst : ¬ t.Before s) (htu : t.Before u) : s.Before u := by
  rw [Before] at *
  omega

/-! ## Bringing the microseconds into range -/

/-- `while (usec >= 1000000)`: a second more, and a million microseconds less. -/
def carryLoop : ℕ → Timeval → Timeval
  | 0, t => t
  | rest + 1, t =>
      if 1000000 ≤ t.usec then carryLoop rest ⟨t.sec + 1, t.usec - 1000000⟩ else t

/-- The loop, which makes at most as many rounds as there are seconds to move. -/
def carry (t : Timeval) : Timeval := carryLoop (t.usec.toNat / 1000000) t

/-- `while (usec < 0)`: a second less, and a million microseconds more. -/
def borrowLoop : ℕ → Timeval → Timeval
  | 0, t => t
  | rest + 1, t => if t.usec < 0 then borrowLoop rest ⟨t.sec - 1, t.usec + 1000000⟩ else t

/-- The loop, which makes at most as many rounds as there are seconds to move. -/
def borrow (t : Timeval) : Timeval := borrowLoop ((-t.usec).toNat / 1000000 + 1) t

/-- The loop that carries keeps the time and makes its microseconds less than a second. -/
theorem carryLoop_spec {rest : ℕ} (hrest : t.usec < (rest + 1) * 1000000) :
    (carryLoop rest t).micros = t.micros ∧ (carryLoop rest t).usec < 1000000
      ∧ (0 ≤ t.usec → 0 ≤ (carryLoop rest t).usec) := by
  induction rest generalizing t with
  | zero => exact ⟨rfl, by simpa [carryLoop] using hrest, id⟩
  | succ rest ih =>
      rw [carryLoop]
      split
      · obtain ⟨hmicros, hlt, hnonneg⟩ := ih (t := ⟨t.sec + 1, t.usec - 1000000⟩)
          (by push_cast at hrest ⊢; omega)
        refine ⟨hmicros.trans ?_, hlt, fun _ => hnonneg (by simp only; omega)⟩
        simp only [micros]
        omega
      · exact ⟨rfl, by omega, id⟩

/-- **The loop that carries** ends, and keeps the time. -/
theorem carry_spec (t : Timeval) :
    (carry t).micros = t.micros ∧ (carry t).usec < 1000000 ∧ (0 ≤ t.usec → 0 ≤ (carry t).usec) :=
  carryLoop_spec (by omega)

/-- The loop that borrows keeps the time and makes its microseconds no less than 0. -/
theorem borrowLoop_spec {rest : ℕ} (hrest : 0 ≤ t.usec + rest * 1000000) :
    (borrowLoop rest t).micros = t.micros ∧ 0 ≤ (borrowLoop rest t).usec
      ∧ (t.usec < 1000000 → (borrowLoop rest t).usec < 1000000) := by
  induction rest generalizing t with
  | zero => exact ⟨rfl, by simpa [borrowLoop] using hrest, id⟩
  | succ rest ih =>
      rw [borrowLoop]
      split
      · obtain ⟨hmicros, hnonneg, hlt⟩ := ih (t := ⟨t.sec - 1, t.usec + 1000000⟩)
          (by push_cast at hrest ⊢; omega)
        refine ⟨hmicros.trans ?_, hnonneg, fun _ => hlt (by simp only; omega)⟩
        simp only [micros]
        omega
      · exact ⟨rfl, by omega, id⟩

/-- **The loop that borrows** ends, and keeps the time. -/
theorem borrow_spec (t : Timeval) :
    (borrow t).micros = t.micros ∧ 0 ≤ (borrow t).usec
      ∧ (t.usec < 1000000 → (borrow t).usec < 1000000) :=
  borrowLoop_spec (by push_cast; omega)

end Timeval

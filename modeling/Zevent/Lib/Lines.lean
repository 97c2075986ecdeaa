/-
# Lines of text

Text as bytes, cut into lines, and the blanks at the ends of a line.

* `readLine n s` is what `fgets` takes from the front of `s` into a buffer with room for `n`
  bytes: up to and with the first newline.  `readLine_line` reads a whole line that fits.
* `strip s` has no blanks at its ends; `Trimmed s` says that there are none, and
  `strip_padded` and `rstrip_padded` give a trimmed text back from under its blanks.
-/
import Mathlib.Tactic
import Mathlib.Data.List.DropRight
import Zevent.Lib.Numerals

namespace Lines

open Numerals

/-! ## Reading a line -/

/-- Up to `n` bytes, the last of them the first newline; and what is behind them. -/
def readLine : ℕ → List UInt8 → List UInt8 × List UInt8
  | 0, s => ([], s)
  | _ + 1, [] => ([], [])
  | n + 1, c :: s =>
      if c = 10 then ([c], s) else (c :: (readLine n s).1, (readLine n s).2)

/-- Nothing is lost. -/
theorem readLine_append (n : ℕ) (s : List UInt8) : (readLine n s).1 ++ (readLine n s).2 = s := by
  induction n generalizing s with
  | zero => rfl
  | succ n ih =>
      cases s with
      | nil => rfl
      | cons c s =>
          rw [readLine]
          split_ifs
          · rfl
          · exact congrArg (c :: ·) (ih s)

/-- A line that fits is read whole. -/
theorem readLine_line {n : ℕ} {l : List UInt8} (hl : 10 ∉ l) (hn : l.length + 1 ≤ n)
    (rest : List UInt8) : readLine n (l ++ 10 :: rest) = (l ++ [10], rest) := by
  induction l generalizing n with
  | nil =>
      obtain ⟨n, rfl⟩ := Nat.exists_eq_add_of_le' hn
      rfl
  | cons c l ih =>
      rw [List.mem_cons, not_or] at hl
      rw [List.length_cons] at hn
      obtain ⟨n, rfl⟩ := Nat.exists_eq_add_of_le' hn
      rw [List.cons_append, show n + (l.length + 1 + 1) = n + l.length + 1 + 1 by omega, readLine,
        if_neg (Ne.symm hl.1), ih hl.2 (by omega), List.cons_append]

/-! ## Blanks at the ends -/

/-- Without the blanks at its ends. -/
def strip (s : List UInt8) : List UInt8 := (s.dropWhile isSpace).rdropWhile isSpace

/-- There is something, and no blank at either end of it. -/
structure Trimmed (s : List UInt8) : Prop where
  ne_nil : s ≠ []
  front : isSpace (s.head ne_nil) = false
  back : isSpace (s.getLast ne_nil) = false

instance (s : List UInt8) : Decidable (Trimmed s) :=
  decidable_of_iff (∃ h : s ≠ [], isSpace (s.head h) = false ∧ isSpace (s.getLast h) = false)
    ⟨fun ⟨h, hf, hb⟩ => ⟨h, hf, hb⟩, fun ⟨h, hf, hb⟩ => ⟨h, hf, hb⟩⟩

variable {s w : List UInt8}

/-- Blanks in front of a trimmed text are dropped, and no more. -/
theorem Trimmed.dropWhile_append (h : Trimmed s) (hw : ∀ c ∈ w, isSpace c = true)
    (r : List UInt8) : (w ++ (s ++ r)).dropWhile isSpace = s ++ r := by
  obtain ⟨c, s, rfl⟩ := List.exists_cons_of_ne_nil h.ne_nil
  have hc : ¬ isSpace c = true := by
    rw [show isSpace c = false from h.front]
    exact Bool.false_ne_true
  rw [List.dropWhile_append_of_pos hw, List.cons_append, List.dropWhile_cons_of_neg hc]

/-- Blanks behind a trimmed text are dropped, and no more. -/
theorem Trimmed.rdropWhile_append (h : Trimmed s) (hw : ∀ c ∈ w, isSpace c = true) :
    (s ++ w).rdropWhile isSpace = s := by
  induction w using List.reverseRecOn with
  | nil =>
      rw [List.append_nil, List.rdropWhile_eq_self_iff]
      intro hne
      rw [h.back]
      exact Bool.false_ne_true
  | append_singleton w c ih =>
      rw [← List.append_assoc, List.rdropWhile_concat_pos _ _ _ (hw c (by simp))]
      exact ih fun d hd => hw d (by simp [hd])

/-- **A trimmed text is what is left of it between blanks.** -/
theorem strip_padded (h : Trimmed s) {w' : List UInt8} (hw : ∀ c ∈ w, isSpace c = true)
    (hw' : ∀ c ∈ w', isSpace c = true) : strip (w ++ (s ++ w')) = s := by
  rw [strip, h.dropWhile_append hw, h.rdropWhile_append hw']

/-- A trimmed text has nothing to strip. -/
theorem Trimmed.strip_eq (h : Trimmed s) : strip s = s := by
  have hpad : strip ([] ++ (s ++ [])) = s := strip_padded h (by simp) (by simp)
  rwa [List.nil_append, List.append_nil] at hpad

/-- Two texts with something in between, whatever it is. -/
theorem Trimmed.between (h : Trimmed s) (mid : List UInt8) {t : List UInt8} (ht : Trimmed t) :
    Trimmed (s ++ mid ++ t) where
  ne_nil := by
    intro hnil
    exact ht.ne_nil (List.append_eq_nil_iff.mp hnil).2
  front := by
    have hfront := h.front
    rw [List.head_append_of_ne_nil (by simp [h.ne_nil]), List.head_append_of_ne_nil h.ne_nil]
    exact hfront
  back := by
    rw [List.getLast_append_of_ne_nil _ ht.ne_nil]
    exact ht.back

theorem isSpace_of_mem_replicate {n : ℕ} {c : UInt8} (h : c ∈ List.replicate n (32 : UInt8)) :
    isSpace c = true := by
  rw [List.eq_of_mem_replicate h]
  rfl

end Lines

/-
# What `sscanf` reads

The directives `%d`, `%Ns`, `%[...]`, a blank and a plain text, over strings of bytes.  Each gives
what it reads, or `none` where the text does not match.

* `int_decimal`: `%d` reads back what `%d` of `printf` has written.
* `word_eq`: `%Ns` reads the first `N` bytes of a text without blanks, whatever follows them.
* `set_append`: `%[...]` reads the bytes of its set, up to the first one outside of it.
-/
import Mathlib.Tactic
import Zevent.Lib.Numerals

namespace Scanf

open Numerals

/-- A directive that is a plain text; the result is the text behind it. -/
def literal (lit s : List UInt8) : Option (List UInt8) :=
  if lit.isPrefixOf s then some (s.drop lit.length) else none

/-- `%Ns`: blanks are skipped, and at most `width` bytes up to the next blank are read. -/
def word (width : ℕ) (s : List UInt8) : Option (List UInt8) :=
  match ((s.dropWhile isSpace).takeWhile fun c => !isSpace c).take width with
  | [] => none
  | c :: w => some (c :: w)

/-- `%[...]`, for the bytes that `p` admits: what is read, which is not empty, and the text behind
it. -/
def set (p : UInt8 → Bool) (s : List UInt8) : Option (List UInt8 × List UInt8) :=
  match s.takeWhile p with
  | [] => none
  | c :: w => some (c :: w, s.dropWhile p)

/-- A blank in the format. -/
def blanks (s : List UInt8) : List UInt8 := s.dropWhile isSpace

/-- `%d`: blanks are skipped; the number that a sign and digits stand for, before it is stored. -/
def int (s : List UInt8) : Option ℤ :=
  match (takeSign (s.dropWhile isSpace)).2.takeWhile isDigit with
  | [] => none
  | d :: digits =>
      some (if (takeSign (s.dropWhile isSpace)).1 then -(decimalValue (d :: digits) : ℤ)
        else decimalValue (d :: digits))

/-- A plain text matches itself. -/
theorem literal_append (lit s : List UInt8) : literal lit (lit ++ s) = some s := by
  rw [literal, if_pos (List.isPrefixOf_iff_prefix.mpr (List.prefix_append lit s)),
    List.drop_left' rfl]

/-- `%Ns` reads a text without blanks up to its width. -/
theorem word_eq {width : ℕ} {s : List UInt8} (hs : ∀ c ∈ s, isSpace c = false) (hne : s ≠ [])
    (hwidth : 0 < width) : word width s = some (s.take width) := by
  obtain ⟨c, r, rfl⟩ := List.exists_cons_of_ne_nil hne
  obtain ⟨width, rfl⟩ := Nat.exists_eq_succ_of_ne_zero hwidth.ne'
  have hfront : (c :: r).dropWhile isSpace = c :: r :=
    List.dropWhile_cons_of_neg (by rw [hs c List.mem_cons_self]; exact Bool.false_ne_true)
  have hall : (c :: r).takeWhile (fun c => !isSpace c) = c :: r :=
    List.takeWhile_eq_self_iff.mpr fun d hd => by rw [hs d hd]; rfl
  rw [word, hfront, hall, List.take_succ_cons]

/-- Bytes of a set, then the end or a byte outside of it. -/
theorem set_append {p : UInt8 → Bool} {w rest : List UInt8} (hw : ∀ c ∈ w, p c = true)
    (hne : w ≠ []) (hrest : ∀ c ∈ rest.head?, p c = false) :
    set p (w ++ rest) = some (w, rest) := by
  have htake : rest.takeWhile p = [] := by
    cases rest with
    | nil => rfl
    | cons c r => rw [List.takeWhile_cons_of_neg (by rw [hrest c rfl]; exact Bool.false_ne_true)]
  have hdrop : rest.dropWhile p = rest := by
    cases rest with
    | nil => rfl
    | cons c r => rw [List.dropWhile_cons_of_neg (by rw [hrest c rfl]; exact Bool.false_ne_true)]
  obtain ⟨c, r, rfl⟩ := List.exists_cons_of_ne_nil hne
  rw [set, List.takeWhile_append_of_pos hw, htake, List.append_nil,
    List.dropWhile_append_of_pos hw, hdrop]

theorem word_length_le {width : ℕ} {s w : List UInt8} (h : word width s = some w) :
    w.length ≤ width := by
  unfold word at h
  split at h
  · cases h
  · rename_i heq
    cases h
    rw [← heq]
    exact List.length_take_le _ _

/-- Digits in front of a byte that is none. -/
theorem takeWhile_natDecimal (n : ℕ) {c : UInt8} (hc : isDigit c = false) (r : List UInt8) :
    (natDecimal n ++ c :: r).takeWhile isDigit = natDecimal n := by
  rw [List.takeWhile_append_of_pos (isDigit_natDecimal n),
    List.takeWhile_cons_of_neg (by rw [hc]; exact Bool.false_ne_true), List.append_nil]

/-- Digits are no blanks and no signs. -/
theorem digit_plain {c : UInt8} (h : isDigit c = true) : isSpace c = false ∧ c ≠ 45 ∧ c ≠ 43 := by
  have hall : ∀ n < 256, isDigit (UInt8.ofNat n) = true →
      isSpace (UInt8.ofNat n) = false ∧ UInt8.ofNat n ≠ 45 ∧ UInt8.ofNat n ≠ 43 := by
    decide +kernel
  have hc := hall c.toNat c.toNat_lt
  rw [UInt8.ofNat_toNat] at hc
  exact hc h

/-- `%d` reads the digits behind a sign. -/
theorem int_of_sign {s rest : List UInt8} {neg : Bool} {n : ℕ} {c : UInt8}
    (hc : isDigit c = false)
    (hsign : takeSign (s.dropWhile isSpace) = (neg, natDecimal n ++ c :: rest)) :
    int s = some (if neg then -(n : ℤ) else n) := by
  obtain ⟨d, digits, hd⟩ := List.exists_cons_of_ne_nil (natDecimal_ne_nil n)
  have hvalue : decimalValue (d :: digits) = n := by rw [← hd, decimalValue_natDecimal]
  unfold int
  rw [hsign]
  dsimp only
  rw [takeWhile_natDecimal n hc, hd]
  dsimp only
  rw [hvalue]

/-- **A number is read back** in front of a byte that is no digit. -/
theorem int_decimal (z : ℤ) {c : UInt8} (hc : isDigit c = false) (rest : List UInt8) :
    int (decimal z ++ c :: rest) = some z := by
  unfold decimal
  split_ifs with hneg
  · rw [int_of_sign hc (show takeSign ((45 :: natDecimal z.natAbs ++ c :: rest).dropWhile isSpace)
      = (true, natDecimal z.natAbs ++ c :: rest) from rfl), if_pos rfl]
    congr 1
    omega
  · obtain ⟨d, digits, hd⟩ := List.exists_cons_of_ne_nil (natDecimal_ne_nil z.natAbs)
    obtain ⟨hspace, hminus, hplus⟩ :=
      digit_plain (isDigit_natDecimal z.natAbs d (by rw [hd]; exact List.mem_cons_self))
    have hsign : takeSign ((natDecimal z.natAbs ++ c :: rest).dropWhile isSpace)
        = (false, natDecimal z.natAbs ++ c :: rest) := by
      rw [hd, List.cons_append,
        List.dropWhile_cons_of_neg (by rw [hspace]; exact Bool.false_ne_true), takeSign,
        if_neg hminus, if_neg hplus]
    rw [int_of_sign hc hsign, if_neg Bool.false_ne_true]
    congr 1
    omega

end Scanf

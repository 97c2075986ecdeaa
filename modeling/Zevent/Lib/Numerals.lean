/-
# Numbers as text

What `printf` writes for `%d` and `%.2x`, and what `strtoull` reads in base 16, over
strings of bytes.

* `decimal z` is `%d`.  `decimal_append_inj` reads a decimal number back from the front
  of a text whose next byte is no digit; two numbers with a separator between them are
  determined by the text, also when the separator is the minus sign.
* `hexByte b` is `%.2x` of a byte and `hexDigits k n` the number `n` in `k` digits.
* `strtoull16` is `strtoull` in base 16; `strtoull16_hexDigits` reads `k ≤ 16` digits back.
* `paddedHex` and `intBase16` are `'%0Nx' % z` and `int(s, 16)` of Python; `paddedHex_eq` and
  `intBase16_hexDigits` compare them with the digits above.
-/
import Mathlib.Tactic
import Mathlib.Data.List.DropRight
import Mathlib.Data.List.TakeWhile
import Mathlib.Data.Nat.Digits.Lemmas

namespace Numerals

/-! ## Decimal numbers -/

/-- The byte of a decimal digit. -/
def digit (d : ℕ) : UInt8 := UInt8.ofNat (48 + d)

/-- A natural number in decimal. -/
def natDecimal (n : ℕ) : List UInt8 :=
  if n = 0 then [48] else (Nat.digits 10 n).reverse.map digit

/-- `%d`. -/
def decimal (z : ℤ) : List UInt8 :=
  if z < 0 then 45 :: natDecimal z.natAbs else natDecimal z.natAbs

/-- The bytes `'0'` to `'9'`. -/
def isDigit (c : UInt8) : Bool := 48 ≤ c && c ≤ 57

theorem toNat_digit {d : ℕ} (h : d < 10) : (digit d).toNat = 48 + d := by
  rw [digit, UInt8.toNat_ofNat']
  omega

theorem isDigit_digit {d : ℕ} (h : d < 10) : isDigit (digit d) = true := by
  rw [isDigit, Bool.and_eq_true, decide_eq_true_iff, decide_eq_true_iff,
    UInt8.le_iff_toNat_le, UInt8.le_iff_toNat_le, toNat_digit h]
  constructor
  · exact Nat.le_add_right _ _
  · show 48 + d ≤ 57
    omega

/-- A decimal has digits only. -/
theorem isDigit_natDecimal (n : ℕ) : ∀ c ∈ natDecimal n, isDigit c = true := by
  intro c hc
  unfold natDecimal at hc
  split_ifs at hc
  · rw [List.mem_singleton.mp hc]
    rfl
  · obtain ⟨d, hd, rfl⟩ := List.mem_map.mp hc
    exact isDigit_digit (Nat.digits_lt_base (by norm_num) (List.mem_reverse.mp hd))

theorem natDecimal_ne_nil (n : ℕ) : natDecimal n ≠ [] := by
  unfold natDecimal
  split_ifs with h
  · simp
  · simpa using Nat.digits_ne_nil_iff_ne_zero.mpr h

/-- No zero is in front of a number but 0. -/
theorem natDecimal_head {n : ℕ} (hn : n ≠ 0) : ∃ c r, natDecimal n = c :: r ∧ c ≠ 48 := by
  have hne := Nat.digits_ne_nil_iff_ne_zero (b := 10).mpr hn
  obtain ⟨c, r, hcr⟩ := List.exists_cons_of_ne_nil (natDecimal_ne_nil n)
  refine ⟨c, r, hcr, ?_⟩
  have hhead : (natDecimal n).head? = some (digit ((Nat.digits 10 n).getLast hne)) := by
    rw [natDecimal, if_neg hn, List.head?_map, List.head?_reverse,
      List.getLast?_eq_some_getLast hne]
    rfl
  rw [hcr, List.head?_cons, Option.some.injEq] at hhead
  have hlt : (Nat.digits 10 n).getLast hne < 10 :=
    Nat.digits_lt_base (by norm_num) (List.getLast_mem hne)
  have hpos : (Nat.digits 10 n).getLast hne ≠ 0 := Nat.getLast_digit_ne_zero 10 hn
  rintro rfl
  have htoNat := congrArg UInt8.toNat hhead
  rw [toNat_digit hlt] at htoNat
  have h48 : (48 : UInt8).toNat = 48 := rfl
  omega

/-- A number below a power of ten has that many digits at most. -/
theorem length_natDecimal_le {n k : ℕ} (h : n < 10 ^ k) (hk : 0 < k) :
    (natDecimal n).length ≤ k := by
  unfold natDecimal
  split_ifs
  · exact hk
  · rw [List.length_map, List.length_reverse, Nat.digits_length_le_iff (by norm_num)]
    exact h

theorem decimal_natCast (n : ℕ) : decimal (n : ℤ) = natDecimal n := by
  rw [decimal, if_neg (by omega), Int.natAbs_natCast]

/-- The value of a string of digits, most significant first. -/
def decimalValue (s : List UInt8) : ℕ := s.foldl (fun acc c => acc * 10 + (c.toNat - 48)) 0

/-- The value of digits is the number that has them in base ten. -/
theorem decimalValue_digits {ds : List ℕ} (h : ∀ d ∈ ds, d < 10) :
    decimalValue (ds.reverse.map digit) = Nat.ofDigits 10 ds := by
  induction ds with
  | nil => rfl
  | cons d ds ih =>
      rw [List.reverse_cons, List.map_append, decimalValue, List.foldl_append, ← decimalValue,
        ih fun e he => h e (List.mem_cons_of_mem _ he), Nat.ofDigits_cons, List.map_singleton,
        List.foldl_cons, List.foldl_nil, toNat_digit (h d List.mem_cons_self),
        Nat.add_sub_cancel_left]
      ring

/-- **A decimal is read back.** -/
theorem decimalValue_natDecimal (n : ℕ) : decimalValue (natDecimal n) = n := by
  unfold natDecimal
  split_ifs with h
  · rw [h]
    rfl
  · rw [decimalValue_digits fun d hd => Nat.digits_lt_base (by norm_num) hd, Nat.ofDigits_digits]

/-- Two numbers have two decimals. -/
theorem natDecimal_injective : Function.Injective natDecimal := by
  intro a b h
  rw [← decimalValue_natDecimal a, h, decimalValue_natDecimal]

/-- Digits before a byte that is none are found again. -/
theorem natDecimal_append_inj {a b : ℕ} {c d : UInt8} {r t : List UInt8}
    (hc : isDigit c = false) (hd : isDigit d = false)
    (h : natDecimal a ++ c :: r = natDecimal b ++ d :: t) : a = b ∧ c :: r = d :: t := by
  have hfront : ∀ (n : ℕ) (e : UInt8) (u : List UInt8), isDigit e = false →
      (natDecimal n ++ e :: u).takeWhile isDigit = natDecimal n := by
    intro n e u he
    rw [List.takeWhile_append_of_pos (isDigit_natDecimal n),
      List.takeWhile_cons_of_neg (by simp [he]), List.append_nil]
  have hnum : natDecimal a = natDecimal b := by
    rw [← hfront a c r hc, h, hfront b d t hd]
  refine ⟨natDecimal_injective hnum, ?_⟩
  rw [hnum] at h
  exact List.append_cancel_left h

/-- A number before a byte that is no digit is found again. -/
theorem decimal_append_inj {y z : ℤ} {c d : UInt8} {r t : List UInt8}
    (hc : isDigit c = false) (hd : isDigit d = false)
    (h : decimal y ++ c :: r = decimal z ++ d :: t) : y = z ∧ c :: r = d :: t := by
  -- no digit is a minus sign, so the two signs agree
  have hsign : ∀ (n : ℕ) (u v : List UInt8), natDecimal n ++ u ≠ 45 :: v := by
    intro n u v heq
    obtain ⟨e, w, hw⟩ := List.exists_cons_of_ne_nil (natDecimal_ne_nil n)
    have he := isDigit_natDecimal n e (by rw [hw]; exact List.mem_cons_self)
    rw [hw, List.cons_append, List.cons.injEq] at heq
    rw [heq.1] at he
    exact absurd he (by decide)
  unfold decimal at h
  split_ifs at h with hy hz hz
  · rw [List.cons_append, List.cons_append, List.cons.injEq] at h
    obtain ⟨habs, hrest⟩ := natDecimal_append_inj hc hd h.2
    exact ⟨by omega, hrest⟩
  · exact absurd h.symm (hsign _ _ _)
  · exact absurd h (hsign _ _ _)
  · obtain ⟨habs, hrest⟩ := natDecimal_append_inj hc hd h
    exact ⟨by omega, hrest⟩

/-- Two integers have two decimals, with their signs. -/
theorem decimal_injective : Function.Injective decimal := by
  intro y z h
  -- put a byte behind both
  have happ : decimal y ++ 0 :: [] = decimal z ++ 0 :: [] := by rw [h]
  exact (decimal_append_inj (by decide) (by decide) happ).1

/-! ## Hexadecimal numbers -/

/-- The byte of a digit in base 16, in lower case. -/
def hexDigit (d : ℕ) : UInt8 := UInt8.ofNat (if d < 10 then 48 + d else 87 + d)

/-- `%.2x` of a byte. -/
def hexByte (b : ℕ) : List UInt8 := [hexDigit (b / 16), hexDigit (b % 16)]

/-- The lowest `k` digits of a number in base 16. -/
def hexDigits : ℕ → ℕ → List UInt8
  | 0, _ => []
  | k + 1, n => hexDigits k (n / 16) ++ [hexDigit (n % 16)]

/-- The bytes `'0'` to `'9'` and `'a'` to `'f'`. -/
def isLowerHex (c : UInt8) : Bool := isDigit c || (97 ≤ c && c ≤ 102)

/-- The value of a byte as a digit in base 16, in either case. -/
def hexValue (c : UInt8) : Option ℕ :=
  if isDigit c then some (c.toNat - 48)
  else if 97 ≤ c && c ≤ 102 then some (c.toNat - 87)
  else if 65 ≤ c && c ≤ 70 then some (c.toNat - 55)
  else none

/-- `isspace`. -/
def isSpace (c : UInt8) : Bool := c == 32 || (9 ≤ c && c ≤ 13)

/-- A sign in front of a number, and the text behind it. -/
def takeSign : List UInt8 → Bool × List UInt8
  | c :: r => if c = 45 then (true, r) else if c = 43 then (false, r) else (false, c :: r)
  | [] => (false, [])

/-- `0x` in front of a digit is skipped. -/
def skipMark : List UInt8 → List UInt8
  | c :: x :: d :: r =>
      if c = 48 ∧ (x = 120 ∨ x = 88) ∧ (hexValue d).isSome then d :: r else c :: x :: d :: r
  | r => r

/-- The value of the digits in front of a text. -/
def leadingHex (s : List UInt8) : ℕ :=
  (s.takeWhile fun c => (hexValue c).isSome).foldl
    (fun acc c => acc * 16 + (hexValue c).getD 0) 0

/-- `strtoull` in base 16: blanks, a sign, `0x`, and as many digits as there are; a value
that does not fit is `ULLONG_MAX`. -/
def strtoull16 (s : List UInt8) : UInt64 :=
  let signed := takeSign (s.dropWhile isSpace)
  let n := leadingHex (skipMark signed.2)
  if 2 ^ 64 ≤ n then UInt64.ofNat (2 ^ 64 - 1)
  else if signed.1 then -UInt64.ofNat n else UInt64.ofNat n

/-- There are as many digits as were asked for. -/
theorem length_hexDigits (k n : ℕ) : (hexDigits k n).length = k := by
  induction k generalizing n with
  | zero => rfl
  | succ k ih => rw [hexDigits, List.length_append, ih, List.length_singleton]

theorem hexValue_hexDigit {d : ℕ} (h : d < 16) : hexValue (hexDigit d) = some d := by
  interval_cases d <;> rfl

theorem isLowerHex_hexDigit {d : ℕ} (h : d < 16) : isLowerHex (hexDigit d) = true := by
  interval_cases d <;> rfl

/-- Every byte that is written is a hexadecimal digit. -/
theorem hexDigits_all (k n : ℕ) : ∀ c ∈ hexDigits k n, ∃ d < 16, c = hexDigit d := by
  induction k generalizing n with
  | zero => simp [hexDigits]
  | succ k ih =>
      intro c hc
      rcases List.mem_append.mp hc with hc | hc
      · exact ih (n / 16) c hc
      · exact ⟨n % 16, Nat.mod_lt _ (by norm_num), List.mem_singleton.mp hc⟩

theorem isSome_hexValue {digits : List UInt8} (h : ∀ c ∈ digits, ∃ d < 16, c = hexDigit d) :
    ∀ c ∈ digits, (hexValue c).isSome = true := by
  intro c hc
  obtain ⟨d, hd, rfl⟩ := h c hc
  rw [hexValue_hexDigit hd]
  rfl

/-- The digits are those of the number in base sixteen. -/
theorem leadingHex_hexDigits (k n : ℕ) : leadingHex (hexDigits k n) = n % 16 ^ k := by
  have hall : ∀ j m, ∀ c ∈ hexDigits j m, (hexValue c).isSome = true :=
    fun j m => isSome_hexValue (hexDigits_all j m)
  unfold leadingHex
  induction k generalizing n with
  | zero => rw [pow_zero, Nat.mod_one]; rfl
  | succ k ih =>
      have hih := ih (n / 16)
      rw [List.takeWhile_eq_self_iff.mpr (hall k (n / 16))] at hih
      rw [List.takeWhile_eq_self_iff.mpr (hall (k + 1) n), hexDigits, List.foldl_append, hih,
        List.foldl_cons, List.foldl_nil, hexValue_hexDigit (Nat.mod_lt _ (by norm_num)),
        Option.getD_some, pow_succ', Nat.mod_mul]
      ring

/-- Digits are no blanks, signs or marks. -/
theorem hexDigit_plain {d : ℕ} (h : d < 16) :
    isSpace (hexDigit d) = false ∧ hexDigit d ≠ 45 ∧ hexDigit d ≠ 43
      ∧ hexDigit d ≠ 120 ∧ hexDigit d ≠ 88 := by
  interval_cases d <;> decide

section Digits

/-! Digits at the front of a text that ends behind them or has a NUL there. -/

variable {digits rest : List UInt8}

/-- Digits begin with no blank, no sign and no `x`. -/
theorem plain_of_head (hdigits : ∀ c ∈ digits, ∃ d < 16, c = hexDigit d)
    (hrest : ∀ c ∈ rest.head?, c = 0) :
    ∀ c ∈ (digits ++ rest).head?,
      isSpace c = false ∧ c ≠ 45 ∧ c ≠ 43 ∧ c ≠ 120 ∧ c ≠ 88 := by
  intro c hc
  cases digits with
  | nil =>
      rw [hrest c hc]
      decide
  | cons e r =>
      rw [List.cons_append, List.head?_cons, Option.mem_def, Option.some.injEq] at hc
      obtain ⟨d, hd, rfl⟩ := hdigits e List.mem_cons_self
      rw [← hc]
      exact hexDigit_plain hd

theorem dropWhile_isSpace_digits (hdigits : ∀ c ∈ digits, ∃ d < 16, c = hexDigit d)
    (hrest : ∀ c ∈ rest.head?, c = 0) :
    (digits ++ rest).dropWhile isSpace = digits ++ rest := by
  have hplain := plain_of_head hdigits hrest
  cases hs : digits ++ rest with
  | nil => rfl
  | cons c r =>
      rw [hs] at hplain
      exact List.dropWhile_cons_of_neg (by rw [(hplain c rfl).1]; decide)

/-- There is no sign in front of digits. -/
theorem takeSign_digits (hdigits : ∀ c ∈ digits, ∃ d < 16, c = hexDigit d)
    (hrest : ∀ c ∈ rest.head?, c = 0) :
    takeSign (digits ++ rest) = (false, digits ++ rest) := by
  have hplain := plain_of_head hdigits hrest
  cases hs : digits ++ rest with
  | nil => rfl
  | cons c r =>
      rw [hs] at hplain
      rw [takeSign, if_neg (hplain c rfl).2.1, if_neg (hplain c rfl).2.2.1]

/-- There is no `0x` in front of digits. -/
theorem skipMark_digits (hdigits : ∀ c ∈ digits, ∃ d < 16, c = hexDigit d)
    (hrest : ∀ c ∈ rest.head?, c = 0) : skipMark (digits ++ rest) = digits ++ rest := by
  match hs : digits ++ rest with
  | [] => rfl
  | [_] => rfl
  | [_, _] => rfl
  | c :: x :: d :: r =>
      rw [skipMark, if_neg]
      rintro ⟨hc, hx, -⟩
      cases digits with
      | nil =>
          -- a NUL is no zero digit
          rw [List.nil_append] at hs
          have hnul := hrest c (by rw [hs]; rfl)
          rw [hnul] at hc
          exact absurd hc (by decide)
      | cons e digits =>
          rw [List.cons_append, List.cons.injEq] at hs
          have hplain := plain_of_head (fun c hc => hdigits c (List.mem_cons_of_mem _ hc)) hrest x
            (by rw [hs.2]; rfl)
          rcases hx with hx | hx
          · exact hplain.2.2.2.1 hx
          · exact hplain.2.2.2.2 hx

/-- Reading stops at the NUL behind the digits. -/
theorem leadingHex_append (hdigits : ∀ c ∈ digits, ∃ d < 16, c = hexDigit d)
    (hrest : ∀ c ∈ rest.head?, c = 0) : leadingHex (digits ++ rest) = leadingHex digits := by
  have hall := isSome_hexValue hdigits
  have hstop : rest.takeWhile (fun c => (hexValue c).isSome) = [] := by
    cases rest with
    | nil => rfl
    | cons c r =>
        rw [hrest c rfl]
        rfl
  unfold leadingHex
  rw [List.takeWhile_append_of_pos hall, hstop, List.append_nil,
    List.takeWhile_eq_self_iff.mpr hall]

end Digits

/-- **Up to 16 digits are read back**, at the end of a text and in front of a NUL. -/
theorem strtoull16_hexDigits_append {k n : ℕ} {rest : List UInt8} (hk : k ≤ 16) (hn : n < 16 ^ k)
    (hrest : ∀ c ∈ rest.head?, c = 0) : strtoull16 (hexDigits k n ++ rest) = UInt64.ofNat n := by
  have hall := hexDigits_all k n
  have hvalue : leadingHex (hexDigits k n ++ rest) = n := by
    rw [leadingHex_append hall hrest, leadingHex_hexDigits, Nat.mod_eq_of_lt hn]
  have hfits : ¬ 2 ^ 64 ≤ n := by
    have hpow : 16 ^ k ≤ 16 ^ 16 := Nat.pow_le_pow_right (by norm_num) hk
    have h64 : (16 : ℕ) ^ 16 = 2 ^ 64 := by norm_num
    omega
  unfold strtoull16
  simp only [dropWhile_isSpace_digits hall hrest, takeSign_digits hall hrest,
    skipMark_digits hall hrest, hvalue]
  rw [if_neg hfits]
  rfl

/-- **`strtoull` reads back what was written with a fixed number of digits.** -/
theorem strtoull16_hexDigits {k n : ℕ} (hk : k ≤ 16) (hn : n < 16 ^ k) :
    strtoull16 (hexDigits k n) = UInt64.ofNat n := by
  have hread := @strtoull16_hexDigits_append k n [] hk hn (by simp)
  rwa [List.append_nil] at hread

/-! ## Hexadecimal numbers of Python -/

/-- A natural number in base 16, in lower case. -/
def natHex (n : ℕ) : List UInt8 :=
  if n = 0 then [48] else (Nat.digits 16 n).reverse.map hexDigit

/-- `'%0Nx' % z`: the sign counts for the width. -/
def paddedHex (width : ℕ) (z : ℤ) : List UInt8 :=
  if z < 0 then 45 :: (natHex z.natAbs).leftpad (width - 1) 48
  else (natHex z.natAbs).leftpad width 48

/-- `int(s, 16)`: blanks on both sides, a sign, `0x`, and nothing but digits behind them;
`none` is a `ValueError`. -/
def intBase16 (s : List UInt8) : Option ℤ :=
  let signed := takeSign ((s.dropWhile isSpace).rdropWhile isSpace)
  let digits := skipMark signed.2
  if !digits.isEmpty && digits.all fun c => (hexValue c).isSome then
    some (if signed.1 then -(leadingHex digits : ℤ) else leadingHex digits)
  else none

theorem natHex_of_lt {d : ℕ} (h : d < 16) : natHex d = [hexDigit d] := by
  unfold natHex
  split_ifs with hzero
  · rw [hzero]
    rfl
  · rw [Nat.digits_of_lt 16 d hzero h]
    rfl

/-- The last digit of a number stands behind the others. -/
theorem natHex_of_le {n : ℕ} (h : 16 ≤ n) :
    natHex n = natHex (n / 16) ++ [hexDigit (n % 16)] := by
  rw [natHex, natHex, if_neg (by omega), if_neg (by omega),
    Nat.digits_def' (by norm_num) (by omega), List.reverse_cons, List.map_append,
    List.map_singleton]

/-- A number that fits is padded with zeros. -/
theorem hexDigits_eq_leftpad {k n : ℕ} (h : n < 16 ^ (k + 1)) :
    hexDigits (k + 1) n = (natHex n).leftpad (k + 1) 48 := by
  induction k generalizing n with
  | zero =>
      rw [zero_add, pow_one] at h
      rw [hexDigits, hexDigits, natHex_of_lt h, Nat.mod_eq_of_lt h]
      rfl
  | succ k ih =>
      have hdiv : n / 16 < 16 ^ (k + 1) := by
        rw [pow_succ] at h
        omega
      rw [hexDigits, ih hdiv]
      by_cases hsmall : n < 16
      · -- the digits in front are zeros, the one of `n / 16` too
        rw [Nat.div_eq_of_lt hsmall, Nat.mod_eq_of_lt hsmall, natHex_of_lt hsmall,
          natHex_of_lt (by norm_num)]
        rw [List.leftpad, List.leftpad, List.length_singleton, List.length_singleton,
          Nat.add_sub_cancel, Nat.add_sub_cancel, List.replicate_succ']
        rfl
      · rw [natHex_of_le (not_lt.mp hsmall), List.leftpad, List.leftpad, List.length_append,
          List.length_singleton, Nat.add_sub_add_right, List.append_assoc]

/-- **The digits are what Python writes.** -/
theorem paddedHex_eq {k n : ℕ} (h : n < 16 ^ (k + 1)) :
    paddedHex (k + 1) n = hexDigits (k + 1) n := by
  rw [paddedHex, if_neg (by omega), Int.natAbs_natCast, hexDigits_eq_leftpad h]

/-- **Python reads the digits back.** -/
theorem intBase16_hexDigits {k n : ℕ} (hk : 0 < k) (hn : n < 16 ^ k) :
    intBase16 (hexDigits k n) = some (n : ℤ) := by
  have hall := hexDigits_all k n
  have hnone : ∀ c ∈ ([] : List UInt8).head?, c = 0 := by simp
  have hfront := dropWhile_isSpace_digits hall hnone
  have hsign := takeSign_digits hall hnone
  have hmark := skipMark_digits hall hnone
  rw [List.append_nil] at hfront hsign hmark
  have hback : (hexDigits k n).rdropWhile isSpace = hexDigits k n := by
    rw [List.rdropWhile_eq_self_iff]
    intro hne
    obtain ⟨d, hd, hlast⟩ := hall _ (List.getLast_mem hne)
    rw [hlast, (hexDigit_plain hd).1]
    decide
  have hdigits : (!(hexDigits k n).isEmpty &&
      (hexDigits k n).all fun c => (hexValue c).isSome) = true := by
    rw [Bool.and_eq_true, Bool.not_eq_true', List.isEmpty_eq_false_iff, ← List.length_pos_iff,
      length_hexDigits, List.all_eq_true]
    exact ⟨hk, isSome_hexValue hall⟩
  unfold intBase16
  simp only [hfront, hback, hsign, hmark]
  rw [if_pos hdigits, leadingHex_hexDigits, Nat.mod_eq_of_lt hn]
  rfl

end Numerals

/-
# UTF-8 and UTF-16

A `Char` is a Unicode scalar value, and `String.utf8EncodeChar` is its UTF-8 encoding.  Here are
the UTF-16 encoding of a scalar value, texts in both encodings, and for each length which bytes or
words are the encoding of some scalar value.

* `utf8EncodeChar_two` and its siblings say which bytes encode a value, `exists_two` and its
  siblings that bytes within bounds do.
* `utf16EncodeChar_pair` and `exists_pair` are the same for surrogate pairs.
-/
import Mathlib.Tactic

namespace Utf

/-! ## Encodings -/

/-- A text in UTF-8. -/
def utf8 (cs : List Char) : List UInt8 := cs.flatMap String.utf8EncodeChar

/-- The UTF-16 encoding of a scalar value: one word, or a surrogate pair. -/
def utf16EncodeChar (c : Char) : List UInt16 :=
  if c.toNat < 0x10000 then [UInt16.ofNat c.toNat]
  else [UInt16.ofNat (0xD800 + (c.toNat - 0x10000) / 0x400),
    UInt16.ofNat (0xDC00 + (c.toNat - 0x10000) % 0x400)]

/-- A text in UTF-16. -/
def utf16 (cs : List Char) : List UInt16 := cs.flatMap utf16EncodeChar

theorem utf16EncodeChar_ne_nil (c : Char) : utf16EncodeChar c ≠ [] := by
  unfold utf16EncodeChar
  split_ifs
  · exact List.cons_ne_nil _ _
  · exact List.cons_ne_nil _ _

/-- The scalar values: no surrogates, and nothing above `0x10FFFF`. -/
theorem toNat_valid (c : Char) : c.toNat < 0xD800 ∨ 0xDFFF < c.toNat ∧ c.toNat < 0x110000 :=
  c.valid

/-- Every number that is no surrogate and not too big is a character. -/
theorem exists_char {v : ℕ} (h : v < 0xD800 ∨ 0xDFFF < v ∧ v < 0x110000) :
    ∃ c : Char, c.toNat = v := ⟨Char.ofNatAux v h, rfl⟩

/-! ## UTF-8 by length -/

section Utf8

variable {c : Char}

theorem utf8EncodeChar_one (h : c.toNat < 0x80) :
    String.utf8EncodeChar c = [UInt8.ofNat c.toNat] := if_pos (show c.toNat ≤ 0x7F by omega)

theorem utf8EncodeChar_two (h : 0x80 ≤ c.toNat) (h' : c.toNat < 0x800) :
    String.utf8EncodeChar c
      = [UInt8.ofNat (0xC0 + c.toNat / 64), UInt8.ofNat (0x80 + c.toNat % 64)] := by
  have hdef : String.utf8EncodeChar c = [UInt8.ofNat (c.toNat / 64 % 0x20 + 0xC0),
      UInt8.ofNat (c.toNat % 0x40 + 0x80)] :=
    (if_neg (show ¬ c.toNat ≤ 0x7F by omega)).trans (if_pos (show c.toNat ≤ 0x7FF by omega))
  rw [hdef, Nat.mod_eq_of_lt (show c.toNat / 64 < 0x20 by omega), Nat.add_comm 0xC0,
    Nat.add_comm 0x80]

theorem utf8EncodeChar_three (h : 0x800 ≤ c.toNat) (h' : c.toNat < 0x10000) :
    String.utf8EncodeChar c
      = [UInt8.ofNat (0xE0 + c.toNat / 4096), UInt8.ofNat (0x80 + c.toNat / 64 % 64),
        UInt8.ofNat (0x80 + c.toNat % 64)] := by
  have hdef : String.utf8EncodeChar c = [UInt8.ofNat (c.toNat / 4096 % 0x10 + 0xE0),
      UInt8.ofNat (c.toNat / 64 % 0x40 + 0x80), UInt8.ofNat (c.toNat % 0x40 + 0x80)] :=
    (if_neg (show ¬ c.toNat ≤ 0x7F by omega)).trans
      ((if_neg (show ¬ c.toNat ≤ 0x7FF by omega)).trans
        (if_pos (show c.toNat ≤ 0xFFFF by omega)))
  rw [hdef, Nat.mod_eq_of_lt (show c.toNat / 4096 < 0x10 by omega), Nat.add_comm 0xE0,
    Nat.add_comm 0x80, Nat.add_comm 0x80]

theorem utf8EncodeChar_four (h : 0x10000 ≤ c.toNat) :
    String.utf8EncodeChar c
      = [UInt8.ofNat (0xF0 + c.toNat / 262144), UInt8.ofNat (0x80 + c.toNat / 4096 % 64),
        UInt8.ofNat (0x80 + c.toNat / 64 % 64), UInt8.ofNat (0x80 + c.toNat % 64)] := by
  have hvalid := toNat_valid c
  have hdef : String.utf8EncodeChar c = [UInt8.ofNat (c.toNat / 262144 % 0x08 + 0xF0),
      UInt8.ofNat (c.toNat / 4096 % 0x40 + 0x80), UInt8.ofNat (c.toNat / 64 % 0x40 + 0x80),
      UInt8.ofNat (c.toNat % 0x40 + 0x80)] :=
    (if_neg (show ¬ c.toNat ≤ 0x7F by omega)).trans
      ((if_neg (show ¬ c.toNat ≤ 0x7FF by omega)).trans
        (if_neg (show ¬ c.toNat ≤ 0xFFFF by omega)))
  rw [hdef, Nat.mod_eq_of_lt (show c.toNat / 262144 < 0x08 by omega), Nat.add_comm 0xF0,
    Nat.add_comm 0x80, Nat.add_comm 0x80, Nat.add_comm 0x80]

/-! A byte is that of a number if the number is its value. -/

theorem ofNat_eq {b : UInt8} {n : ℕ} (h : n = b.toNat) : UInt8.ofNat n = b := by
  rw [h, UInt8.ofNat_toNat]

theorem toNat_ofNat {n : ℕ} (h : n < 256) : (UInt8.ofNat n).toNat = n := by
  rw [UInt8.toNat_ofNat']
  exact Nat.mod_eq_of_lt h

/-- A byte behind the first one of a sequence. -/
def Tail (b : UInt8) : Prop := 0x80 ≤ b.toNat ∧ b.toNat < 0xC0

/-- Six bits behind `10` are a byte that goes on with a character. -/
theorem tail_ofNat {n : ℕ} (h : n < 64) : Tail (UInt8.ofNat (0x80 + n)) := by
  rw [Tail, toNat_ofNat (by omega)]
  omega

variable {a b d e : UInt8}

/-- A byte below 128 is a character. -/
theorem exists_one (h : a.toNat < 0x80) : ∃ c, String.utf8EncodeChar c = [a] := by
  obtain ⟨c, hc⟩ := exists_char (v := a.toNat) (by omega)
  refine ⟨c, ?_⟩
  rw [utf8EncodeChar_one (by omega), ofNat_eq hc]

/-- A pair of bytes that fits together is a character. -/
theorem exists_two (ha : 0xC2 ≤ a.toNat) (ha' : a.toNat < 0xE0) (hb : Tail b) :
    ∃ c, String.utf8EncodeChar c = [a, b] := by
  obtain ⟨hb, hb'⟩ := hb
  obtain ⟨c, hc⟩ := exists_char (v := (a.toNat - 0xC0) * 64 + (b.toNat - 0x80)) (by omega)
  refine ⟨c, ?_⟩
  rw [utf8EncodeChar_two (by omega) (by omega), ofNat_eq (b := a) (by omega),
    ofNat_eq (b := b) (by omega)]

/-- Three bytes, neither an overlong form nor a surrogate. -/
theorem exists_three (ha : 0xE0 ≤ a.toNat) (ha' : a.toNat < 0xF0) (hb : Tail b) (hd : Tail d)
    (hlong : a.toNat = 0xE0 → 0xA0 ≤ b.toNat) (hsurrogate : a.toNat = 0xED → b.toNat < 0xA0) :
    ∃ c, String.utf8EncodeChar c = [a, b, d] := by
  obtain ⟨hb, hb'⟩ := hb
  obtain ⟨hd, hd'⟩ := hd
  obtain ⟨c, hc⟩ := exists_char
    (v := (a.toNat - 0xE0) * 4096 + (b.toNat - 0x80) * 64 + (d.toNat - 0x80)) (by omega)
  refine ⟨c, ?_⟩
  rw [utf8EncodeChar_three (by omega) (by omega), ofNat_eq (b := a) (by omega),
    ofNat_eq (b := b) (by omega), ofNat_eq (b := d) (by omega)]

/-- Four bytes, neither an overlong form nor above `0x10FFFF`. -/
theorem exists_four (ha : 0xF0 ≤ a.toNat) (ha' : a.toNat < 0xF5) (hb : Tail b) (hd : Tail d)
    (he : Tail e) (hlong : a.toNat = 0xF0 → 0x90 ≤ b.toNat)
    (habove : a.toNat = 0xF4 → b.toNat < 0x90) : ∃ c, String.utf8EncodeChar c = [a, b, d, e] := by
  obtain ⟨hb, hb'⟩ := hb
  obtain ⟨hd, hd'⟩ := hd
  obtain ⟨he, he'⟩ := he
  obtain ⟨c, hc⟩ := exists_char (v := (a.toNat - 0xF0) * 262144 + (b.toNat - 0x80) * 4096
    + (d.toNat - 0x80) * 64 + (e.toNat - 0x80)) (by omega)
  refine ⟨c, ?_⟩
  rw [utf8EncodeChar_four (by omega), ofNat_eq (b := a) (by omega), ofNat_eq (b := b) (by omega),
    ofNat_eq (b := d) (by omega), ofNat_eq (b := e) (by omega)]

end Utf8

/-! ## UTF-16 by length -/

section Utf16

variable {c : Char} {a b : UInt16}

theorem utf16EncodeChar_word (h : c.toNat < 0x10000) :
    utf16EncodeChar c = [UInt16.ofNat c.toNat] := if_pos h

/-- The two words of a character beyond the first plane. -/
theorem utf16EncodeChar_pair (h : 0x10000 ≤ c.toNat) :
    utf16EncodeChar c = [UInt16.ofNat (0xD800 + (c.toNat - 0x10000) / 0x400),
      UInt16.ofNat (0xDC00 + (c.toNat - 0x10000) % 0x400)] := if_neg (Nat.not_lt.mpr h)

/-- Two words for the values that take four bytes, one for all others. -/
theorem length_utf16EncodeChar (c : Char) :
    (utf16EncodeChar c).length = (if (String.utf8EncodeChar c).length > 3 then 1 else 0) + 1 := by
  rcases Nat.lt_or_ge c.toNat 0x80 with h₁ | h₁
  · rw [utf16EncodeChar_word (by omega), utf8EncodeChar_one h₁]
    rfl
  · rcases Nat.lt_or_ge c.toNat 0x800 with h₂ | h₂
    · rw [utf16EncodeChar_word (by omega), utf8EncodeChar_two h₁ h₂]
      rfl
    · rcases Nat.lt_or_ge c.toNat 0x10000 with h₃ | h₃
      · rw [utf16EncodeChar_word h₃, utf8EncodeChar_three h₂ h₃]
        rfl
      · rw [utf16EncodeChar_pair h₃, utf8EncodeChar_four h₃]
        rfl

/-- Three bytes for each word are enough. -/
theorem length_utf8_le (cs : List Char) : (utf8 cs).length ≤ 3 * (utf16 cs).length := by
  induction cs with
  | nil => exact le_rfl
  | cons c cs ih =>
      have hc := length_utf16EncodeChar c
      have hfour : (String.utf8EncodeChar c).length ≤ 4 := by
        rw [String.length_utf8EncodeChar]
        exact c.utf8Size_le_four
      rw [utf16, utf8, List.flatMap_cons, List.flatMap_cons, List.length_append,
        List.length_append, ← utf16, ← utf8]
      split_ifs at hc <;> omega

/-- A word that is no surrogate is a character. -/
theorem exists_word (h : a.toNat < 0xD800 ∨ 0xDFFF < a.toNat) :
    ∃ c : Char, c.toNat = a.toNat ∧ utf16EncodeChar c = [a] := by
  have hlt := a.toNat_lt
  obtain ⟨c, hc⟩ := exists_char (v := a.toNat) (by omega)
  refine ⟨c, hc, ?_⟩
  rw [utf16EncodeChar_word (by omega), hc, UInt16.ofNat_toNat]

/-- A high and a low surrogate are a character. -/
theorem exists_pair (ha : 0xD800 ≤ a.toNat) (ha' : a.toNat < 0xDC00) (hb : 0xDC00 ≤ b.toNat)
    (hb' : b.toNat < 0xE000) :
    ∃ c : Char, c.toNat = 0x10000 + (a.toNat - 0xD800) * 0x400 + (b.toNat - 0xDC00) ∧
      utf16EncodeChar c = [a, b] := by
  obtain ⟨c, hc⟩ := exists_char
    (v := 0x10000 + (a.toNat - 0xD800) * 0x400 + (b.toNat - 0xDC00)) (by omega)
  refine ⟨c, hc, ?_⟩
  rw [utf16EncodeChar_pair (by omega),
    show 0xD800 + (c.toNat - 0x10000) / 0x400 = a.toNat by omega,
    show 0xDC00 + (c.toNat - 0x10000) % 0x400 = b.toNat by omega, UInt16.ofNat_toNat,
    UInt16.ofNat_toNat]

end Utf16

end Utf

/-
# Conversion between UTF-8 and UTF-16 (`encode.c`)

`convUtf8ToUcs2` and `convUcs2ToUtf8` are `conv_utf8_to_ucs2` and `conv_ucs2_to_utf8`, as loops of
the library of conversions.  A character is converted in one turn, and what is not a character
stops the loop (`utf8Turn_encoded`, `utf8Turn_cases`, `ucs2Turn_behind`, `ucs2Turn_cases`).

The first of them tests the room in front of each character.  The second one does not do so in
front of an ASCII character: `FullBeforeAscii` says when it writes past its room.

* `conversions_exact_iff`: when both keep to their room, with exact counts.
* `conversions_inverse`: what is accepted, what is written, and that each is the inverse of the
  other.
-/
import Mathlib.Tactic
import Zevent.Lib.Transcode
import Zevent.Lib.Utf

namespace Zevent.Minidownloader

open Transcode Utf

/-- The difference of two `size_t`, which have 32 bits. -/
def sizeSub (a b : ℕ) : ℕ := if b ≤ a then a - b else a + 2 ^ 32 - b

/-! ## `conv_utf8_to_ucs2` -/

/-- `while ((ch & mask) == mask)`: the mask of a first byte, and the number of bytes behind it;
`none` is the `return -1`. -/
def leadMask (ch : ℕ) : ℕ → ℕ → ℕ → Option (ℕ × ℕ)
  | 0, _, _ => none
  | fuel + 1, mask, expect =>
      if ch &&& mask = mask then
        if expect + 1 > 3 then none
        else leadMask ch fuel (mask ||| mask >>> 1) (expect + 1)
      else some (mask, expect)

/-- `ch & ~mask`, where `mask` is a `long` of 32 bits. -/
def clearMask (ch mask : ℕ) : ℕ := ch &&& (2 ^ 32 - 1 - mask)

/-- The tests for overlong forms, surrogates and values above `0x10FFFF`, with a look at the next
byte. -/
def rejects (mask expect newch next : ℕ) : Bool :=
  if expect = 1 then newch &&& 0x1E = 0
  else if newch = 0 ∧ next &&& 0x3F &&& mask <<< 1 = 0 then true
  else if expect = 2 then newch = 0x0D ∧ next &&& 0x20 ≠ 0
  else if expect = 3 then newch > 4 ∨ newch = 4 ∧ next &&& 0x30 ≠ 0
  else false

/-- `while (expect--)`: the bits of the bytes behind the first one; a byte of another kind is a
`return -1`. -/
def trail : ℕ → List UInt8 → ℕ → Option (Option (ℕ × List UInt8))
  | 0, input, newch => some (some (newch, input))
  | _ + 1, [], _ => none
  | expect + 1, b :: input, newch =>
      if b.toNat &&& 0xC0 ≠ 0x80 then some none
      else trail expect input (newch <<< 6 ||| b.toNat &&& 0x3F)

/-- One word, or a surrogate pair. -/
def writeWords (s : Conv UInt8 UInt16) (eating newch : ℕ) (input : List UInt8) :
    Conv UInt8 UInt16 :=
  if newch < 0x10000 then
    ⟨input, sizeSub s.incount eating, s.out ++ [UInt16.ofNat newch], sizeSub s.outcount 1⟩
  else
    ⟨input, sizeSub s.incount eating,
      s.out ++ [UInt16.ofNat (0xD800 ||| (newch - 0x10000) >>> 10),
        UInt16.ofNat (0xDC00 ||| (newch - 0x10000) &&& 0x3FF)],
      sizeSub s.outcount 2⟩

/-- What is done with a first byte that announces `expect` more. -/
def sequence (s : Conv UInt8 UInt16) (mask expect newch : ℕ) (input : List UInt8) :
    Turn UInt8 UInt16 :=
  if s.incount ≤ expect then .stop (-1)
  else
    match input with
    | [] => .outside
    | next :: _ =>
        if rejects mask expect newch next.toNat then .stop (-1)
        else if s.outcount < (if expect > 2 then 1 else 0) + 1 then .stop 0
        else
          match trail expect input newch with
          | none => .outside
          | some none => .stop (-1)
          | some (some (newch, input)) => .next (writeWords s (expect + 1) newch input)

/-- The body of the loop of `conv_utf8_to_ucs2`. -/
def utf8Turn (s : Conv UInt8 UInt16) : Turn UInt8 UInt16 :=
  match s.input with
  | [] => .outside
  | b :: input =>
      let ch := b.toNat
      if ch &&& 0x80 = 0 then
        .next ⟨input, sizeSub s.incount 1, s.out ++ [UInt16.ofNat ch], sizeSub s.outcount 1⟩
      else if ch &&& 0xC0 ≠ 0xC0 then .stop (-1)
      else
        match leadMask ch 3 0xE0 1 with
        | none => .stop (-1)
        | some (mask, expect) => sequence s mask expect (clearMask ch mask) input

/-- What a conversion returns, the two counts it leaves, and what it has written. -/
structure Converted (β : Type) where
  ret : ℤ
  incount : ℕ
  out : List β
  outcount : ℕ
deriving DecidableEq

/-- A loop over the whole input; each turn reads something. -/
def convert {α β : Type} (more : Conv α β → Bool) (turn : Conv α β → Turn α β) (input : List α)
    (room : ℕ) : Option (Converted β) :=
  (loop more turn (input.length + 1) ⟨input, input.length, [], room⟩).map fun r =>
    ⟨r.1, r.2.incount, r.2.out, r.2.outcount⟩

/-- `conv_utf8_to_ucs2`; `none` is a read outside of the input. -/
def convUtf8ToUcs2 (bytes : List UInt8) (outwords : ℕ) : Option (Converted UInt16) :=
  convert (fun s => s.incount ≠ 0 ∧ s.outcount ≠ 0) utf8Turn bytes outwords

/-! ## `conv_ucs2_to_utf8` -/

/-- `while (require)`: the number of bytes behind the first one. -/
def needed : ℕ → ℕ → ℕ → ℕ
  | 0, _, need => need
  | fuel + 1, require, need =>
      if require ≠ 0 then needed fuel (require >>> 5) (need + 1) else need

/-- `while (need--)`: the bytes, written from the last one to the first. -/
def writeBack : ℕ → ℕ → ℕ → List UInt8 → List UInt8
  | 0, ch, newch, written => UInt8.ofNat (ch ||| newch) :: written
  | need + 1, ch, newch, written =>
      writeBack need (ch ||| ch >>> 1) (newch >>> 6)
        (UInt8.ofNat (0x80 ||| newch &&& 0x3F) :: written)

/-- A value of more than seven bits. -/
def writeBytes (s : Conv UInt16 UInt8) (newch : ℕ) (input : List UInt16) : Turn UInt16 UInt8 :=
  let need := needed (newch >>> 11) (newch >>> 11) 1
  if need ≥ s.outcount then .stop 0
  else
    .next ⟨input, sizeSub s.incount ((if need > 2 then 1 else 0) + 1),
      s.out ++ writeBack need 0x80 newch [], sizeSub s.outcount (need + 1)⟩

/-- The body of the loop of `conv_ucs2_to_utf8`. -/
def ucs2Turn (s : Conv UInt16 UInt8) : Turn UInt16 UInt8 :=
  match s.input with
  | [] => .outside
  | w :: input =>
      let ch := w.toNat
      if ch < 0x80 then
        .next ⟨input, sizeSub s.incount 1, s.out ++ [UInt8.ofNat ch], sizeSub s.outcount 1⟩
      else if ch &&& 0xFC00 = 0xDC00 then .stop (-1)
      else if ch &&& 0xFC00 = 0xD800 then
        if s.incount < 2 then .stop (-1)
        else
          match input with
          | [] => .outside
          | w' :: input =>
              if w'.toNat &&& 0xFC00 ≠ 0xDC00 then .stop (-1)
              else
                writeBytes s (((ch &&& 0x3FF) <<< 10 ||| w'.toNat &&& 0x3FF) + 0x10000) input
      else writeBytes s ch input

/-- `conv_ucs2_to_utf8`; `none` is a read outside of the input. -/
def convUcs2ToUtf8 (words : List UInt16) (outbytes : ℕ) : Option (Converted UInt8) :=
  convert (fun s => s.incount ≠ 0) ucs2Turn words outbytes

/-! ## Bits of a byte -/

theorem sizeSub_of_le {a b : ℕ} (h : b ≤ a) : sizeSub a b = a - b := if_pos h

/-- The tests of the two high bits. -/
theorem high_bits : ∀ ch < 256, (ch &&& 0x80 = 0 ↔ ch < 0x80) ∧
    (0x80 ≤ ch → (ch &&& 0xC0 = 0xC0 ↔ 0xC0 ≤ ch)) ∧
    (ch &&& 0xC0 = 0x80 ↔ 0x80 ≤ ch ∧ ch < 0xC0) := by
  decide +kernel

theorem and_high_bit (ch : ℕ) (h : ch < 256) : ch &&& 0x80 = 0 ↔ ch < 0x80 := (high_bits ch h).1

theorem and_high_bits (ch : ℕ) (h : ch < 256) (hhigh : 0x80 ≤ ch) :
    ch &&& 0xC0 = 0xC0 ↔ 0xC0 ≤ ch :=
  (high_bits ch h).2.1 hhigh

/-- The mask of a first byte, and what is left of the byte without it. -/
theorem leadMask_eq : ∀ ch < 256, 0xC0 ≤ ch → leadMask ch 3 0xE0 1
    = if ch < 0xE0 then some (0xE0, 1)
      else if ch < 0xF0 then some (0xF0, 2)
      else if ch < 0xF8 then some (0xF8, 3)
      else none := by
  decide +kernel

theorem clearMask_lead : ∀ ch < 256, (ch < 0xE0 → 0xC0 ≤ ch → clearMask ch 0xE0 = ch - 0xC0) ∧
    (ch < 0xF0 → 0xE0 ≤ ch → clearMask ch 0xF0 = ch - 0xE0) ∧
    (ch < 0xF8 → 0xF0 ≤ ch → clearMask ch 0xF8 = ch - 0xF0) := by
  decide +kernel

theorem clearMask_two (ch : ℕ) (h : ch < 0xE0) : 0xC0 ≤ ch → clearMask ch 0xE0 = ch - 0xC0 :=
  (clearMask_lead ch (by omega)).1 h

theorem clearMask_three (ch : ℕ) (h : ch < 0xF0) : 0xE0 ≤ ch → clearMask ch 0xF0 = ch - 0xE0 :=
  (clearMask_lead ch (by omega)).2.1 h

theorem clearMask_four (ch : ℕ) (h : ch < 0xF8) : 0xF0 ≤ ch → clearMask ch 0xF8 = ch - 0xF0 :=
  (clearMask_lead ch (by omega)).2.2 h

/-- The tests of a byte behind the first one, when it is one of `0x80` to `0xBF`. -/
theorem next_bits : ∀ next < 0xC0, 0x80 ≤ next →
    (next &&& 0x3F &&& 0xF0 <<< 1 = 0 ↔ next < 0xA0) ∧ (next &&& 0x20 ≠ 0 ↔ 0xA0 ≤ next) ∧
    (next &&& 0x3F &&& 0xF8 <<< 1 = 0 ↔ next < 0x90) ∧ (next &&& 0x30 ≠ 0 ↔ 0x90 ≤ next) := by
  decide +kernel

/-! What the tests with the next byte reject, when that is one of `0x80` to `0xBF`. -/

theorem rejects_two : ∀ newch < 32, ∀ next, rejects 0xE0 1 newch next = true ↔ newch < 2 := by
  intro newch hnewch next
  have hbits : ∀ newch < 32, newch &&& 0x1E = 0 ↔ newch < 2 := by decide
  rw [rejects, if_pos rfl, decide_eq_true_iff, hbits newch hnewch]

theorem rejects_three : ∀ newch < 16, ∀ next < 0xC0, 0x80 ≤ next →
    (rejects 0xF0 2 newch next = true
      ↔ newch = 0 ∧ next < 0xA0 ∨ newch = 13 ∧ 0xA0 ≤ next) := by
  intro newch _ next hnext htail
  obtain ⟨hlow, hbit, -, -⟩ := next_bits next hnext htail
  rw [rejects, if_neg (by decide)]
  simp only [hlow, hbit, if_pos]
  split_ifs with h
  · exact iff_of_true rfl (Or.inl h)
  · rw [decide_eq_true_iff, or_iff_right h]

theorem rejects_four : ∀ newch < 8, ∀ next < 0xC0, 0x80 ≤ next →
    (rejects 0xF8 3 newch next
      = (newch = 0 && next < 0x90 || newch = 4 && 0x90 ≤ next || 4 < newch)) := by
  intro newch _ next hnext htail
  obtain ⟨-, -, hlow, hbit⟩ := next_bits next hnext htail
  rw [rejects, if_neg (by decide), if_neg (by decide : ¬ 3 = 2), if_pos rfl]
  simp only [hlow, hbit]
  split_ifs with h
  · simp [h]
  · rw [Bool.eq_iff_iff]
    simp only [decide_eq_true_iff, Bool.or_eq_true, Bool.and_eq_true]
    omega

/-! ## The bytes behind the first one -/

theorem tail_iff (b : UInt8) : b.toNat &&& 0xC0 = 0x80 ↔ Tail b :=
  (high_bits b.toNat b.toNat_lt).2.2

/-- Six bits more. -/
theorem shift_or {b : UInt8} (hb : Tail b) (newch : ℕ) :
    (newch <<< 6 ||| b.toNat &&& 0x3F) = newch * 64 + (b.toNat - 0x80) := by
  obtain ⟨hlow, hhigh⟩ := hb
  have hmod : b.toNat &&& 0x3F = b.toNat - 0x80 := by
    rw [show (0x3F : ℕ) = 2 ^ 6 - 1 by norm_num, Nat.and_two_pow_sub_one_eq_mod]
    omega
  rw [hmod, ← Nat.shiftLeft_add_eq_or_of_lt (by omega), Nat.shiftLeft_eq]

/-- **The loop over the bytes behind the first one.** -/
theorem trail_eq {expect : ℕ} {input : List UInt8} (hlen : expect ≤ input.length) (newch : ℕ) :
    ((∀ b ∈ input.take expect, Tail b) ∧
      trail expect input newch = some (some ((input.take expect).foldl
        (fun v b => v * 64 + (b.toNat - 0x80)) newch, input.drop expect))) ∨
    ((∃ b ∈ input.take expect, ¬ Tail b) ∧ trail expect input newch = some none) := by
  induction expect generalizing input newch with
  | zero => exact Or.inl ⟨fun b hb => absurd hb List.not_mem_nil, rfl⟩
  | succ expect ih =>
      cases input with
      | nil => exact absurd hlen (Nat.not_succ_le_zero _)
      | cons b input =>
          rw [trail, List.take_succ_cons, List.drop_succ_cons, List.foldl_cons]
          by_cases hb : Tail b
          · rw [if_neg (not_not.mpr ((tail_iff b).mpr hb)), shift_or hb]
            rcases ih (Nat.le_of_succ_le_succ hlen) (newch * 64 + (b.toNat - 0x80)) with
              ⟨hall, heq⟩ | ⟨⟨d, hd, hnot⟩, heq⟩
            · exact Or.inl ⟨List.forall_mem_cons.mpr ⟨hb, hall⟩, heq⟩
            · exact Or.inr ⟨⟨d, List.mem_cons_of_mem _ hd, hnot⟩, heq⟩
          · rw [if_pos (mt (tail_iff b).mp hb)]
            exact Or.inr ⟨⟨b, List.mem_cons_self, hb⟩, rfl⟩

/-! ## A turn of `conv_utf8_to_ucs2` -/

section Utf8Turn

variable {s : Conv UInt8 UInt16} {a : UInt8} {input rest : List UInt8}
  {mask expect newch : ℕ}

/-- The words of a scalar value. -/
theorem writeWords_eq (s : Conv UInt8 UInt16) (eating : ℕ) (c : Char) (input : List UInt8) :
    writeWords s eating c.toNat input
      = ⟨input, sizeSub s.incount eating, s.out ++ utf16EncodeChar c,
        sizeSub s.outcount (utf16EncodeChar c).length⟩ := by
  have hvalid := toNat_valid c
  unfold writeWords
  split_ifs with hword
  · rw [utf16EncodeChar_word hword, List.length_singleton]
  · have hhigh : 0xD800 ||| (c.toNat - 0x10000) >>> 10
        = 0xD800 + (c.toNat - 0x10000) / 0x400 := by
      rw [Nat.shiftRight_eq_div_pow, show (0xD800 : ℕ) = 2 ^ 10 * 54 by norm_num,
        ← Nat.two_pow_add_eq_or_of_lt (by omega)]
    have hlow : 0xDC00 ||| (c.toNat - 0x10000) &&& 0x3FF
        = 0xDC00 + (c.toNat - 0x10000) % 0x400 := by
      rw [show (0x3FF : ℕ) = 2 ^ 10 - 1 by norm_num, Nat.and_two_pow_sub_one_eq_mod,
        show (0xDC00 : ℕ) = 2 ^ 10 * 55 by norm_num,
        ← Nat.two_pow_add_eq_or_of_lt (Nat.mod_lt _ (by norm_num))]
    rw [hhigh, hlow, utf16EncodeChar_pair (by omega)]
    rfl

/-- The bytes that a first byte announces are there, of the right kind, and not rejected. -/
theorem sequence_next (hcount : s.incount = input.length + 1) (hexpect : 0 < expect)
    (hlen : expect ≤ input.length) (htail : ∀ b ∈ input.take expect, Tail b)
    (haccept : ∀ next ∈ input.head?, rejects mask expect newch next.toNat = false) :
    sequence s mask expect newch input
      = if (if expect > 2 then 1 else 0) + 1 ≤ s.outcount then
          .next (writeWords s (expect + 1)
            ((input.take expect).foldl (fun v b => v * 64 + (b.toNat - 0x80)) newch)
            (input.drop expect))
        else .stop 0 := by
  unfold sequence
  rw [if_neg (by omega)]
  cases input with
  | nil => exact absurd hlen (by rw [List.length_nil]; omega)
  | cons next rest =>
      dsimp only
      rw [if_neg (by rw [haccept next rfl]; exact Bool.false_ne_true)]
      rcases trail_eq hlen newch with ⟨-, heq⟩ | ⟨⟨b, hb, hnot⟩, -⟩
      · rw [heq]
        dsimp only
        split_ifs <;> first | rfl | omega
      · exact absurd (htail b hb) hnot

/-- Otherwise the conversion stops. -/
theorem sequence_cases (hcount : s.incount = input.length + 1) (hexpect : 0 < expect) :
    (∃ ret, sequence s mask expect newch input = .stop ret) ∨
      expect ≤ input.length ∧ (∀ b ∈ input.take expect, Tail b) ∧
        (∀ next ∈ input.head?, rejects mask expect newch next.toNat = false) ∧
        (if expect > 2 then 1 else 0) + 1 ≤ s.outcount := by
  unfold sequence
  by_cases hshort : s.incount ≤ expect
  · exact Or.inl ⟨-1, if_pos hshort⟩
  · rw [if_neg hshort]
    cases input with
    | nil => exact absurd hcount (by rw [List.length_nil]; omega)
    | cons next rest =>
        dsimp only
        by_cases hreject : rejects mask expect newch next.toNat = true
        · exact Or.inl ⟨-1, if_pos hreject⟩
        · rw [if_neg hreject]
          by_cases hroom : s.outcount < (if expect > 2 then 1 else 0) + 1
          · exact Or.inl ⟨0, if_pos hroom⟩
          · rw [if_neg hroom]
            have hlen : expect ≤ (next :: rest).length := by omega
            rcases trail_eq hlen newch with ⟨htail, -⟩ | ⟨-, heq⟩
            · refine Or.inr ⟨hlen, htail, fun next' hnext => ?_, not_lt.mp hroom⟩
              cases hnext
              exact Bool.eq_false_iff.mpr hreject
            · rw [heq]
              exact Or.inl ⟨-1, rfl⟩

theorem utf8Turn_one (hinput : s.input = a :: rest) (ha : a.toNat < 0x80) :
    utf8Turn s = .next ⟨rest, sizeSub s.incount 1, s.out ++ [UInt16.ofNat a.toNat],
      sizeSub s.outcount 1⟩ := by
  rw [utf8Turn, hinput]
  dsimp only
  rw [if_pos ((and_high_bit a.toNat a.toNat_lt).mpr ha)]

theorem utf8Turn_many (hinput : s.input = a :: rest) (ha : 0xC0 ≤ a.toNat)
    (hlead : leadMask a.toNat 3 0xE0 1 = some (mask, expect)) :
    utf8Turn s = sequence s mask expect (clearMask a.toNat mask) rest := by
  rw [utf8Turn, hinput]
  dsimp only
  rw [if_neg (mt (and_high_bit a.toNat a.toNat_lt).mp (by omega)),
    if_neg (not_not.mpr ((and_high_bits a.toNat a.toNat_lt (by omega)).mpr ha)), hlead]

theorem utf8Turn_bad (hinput : s.input = a :: rest) (ha : 0x80 ≤ a.toNat)
    (hbad : a.toNat < 0xC0 ∨ 0xF8 ≤ a.toNat) : utf8Turn s = .stop (-1) := by
  rw [utf8Turn, hinput]
  dsimp only
  rw [if_neg (mt (and_high_bit a.toNat a.toNat_lt).mp (by omega))]
  by_cases hc0 : 0xC0 ≤ a.toNat
  · rw [if_neg (not_not.mpr ((and_high_bits a.toNat a.toNat_lt ha).mpr hc0)),
      leadMask_eq a.toNat a.toNat_lt hc0, if_neg (by omega), if_neg (by omega),
      if_neg (by omega)]
  · rw [if_pos (mt (and_high_bits a.toNat a.toNat_lt ha).mp hc0)]

/-- The state behind a scalar value. -/
def utf8After (s : Conv UInt8 UInt16) (c : Char) (rest : List UInt8) : Conv UInt8 UInt16 :=
  ⟨rest, s.incount - (String.utf8EncodeChar c).length, s.out ++ utf16EncodeChar c,
    s.outcount - (utf16EncodeChar c).length⟩

/-- A sequence of several bytes that encodes a scalar value. -/
theorem utf8Turn_sequence {c : Char} {tails : List UInt8}
    (hbytes : String.utf8EncodeChar c = a :: tails)
    (hinput : s.input = String.utf8EncodeChar c ++ rest) (hcount : s.incount = s.input.length)
    (hroom : (utf16EncodeChar c).length ≤ s.outcount) (ha : 0xC0 ≤ a.toNat)
    (hlead : leadMask a.toNat 3 0xE0 1 = some (mask, tails.length)) (hpos : 0 < tails.length)
    (htail : ∀ b ∈ tails, Tail b)
    (haccept : ∀ next ∈ tails.head?,
      rejects mask tails.length (clearMask a.toNat mask) next.toNat = false)
    (hvalue : tails.foldl (fun v b => v * 64 + (b.toNat - 0x80)) (clearMask a.toNat mask)
      = c.toNat) :
    utf8Turn s = .next (utf8After s c rest) := by
  rw [hbytes, List.cons_append] at hinput
  have hlen : s.incount = (tails ++ rest).length + 1 := by rw [hcount, hinput, List.length_cons]
  have hle : tails.length ≤ (tails ++ rest).length := by
    rw [List.length_append]
    exact Nat.le_add_right _ _
  have hhead : ∀ next ∈ (tails ++ rest).head?, next ∈ tails.head? := by
    cases tails with
    | nil => exact absurd hpos (Nat.lt_irrefl 0)
    | cons b tails => exact fun next hnext => hnext
  have hwords : (if tails.length > 2 then 1 else 0) + 1 ≤ s.outcount := by
    rw [length_utf16EncodeChar, hbytes, List.length_cons] at hroom
    split_ifs at hroom ⊢ <;> omega
  rw [utf8Turn_many hinput ha hlead,
    sequence_next hlen hpos hle (by rw [List.take_left' rfl]; exact htail)
      fun next hnext => haccept next (hhead next hnext),
    if_pos hwords, List.take_left' rfl, List.drop_left' rfl, hvalue, writeWords_eq,
    sizeSub_of_le (by omega), sizeSub_of_le hroom, utf8After, hbytes, List.length_cons]

section Encoded

variable {c : Char} (hinput : s.input = String.utf8EncodeChar c ++ rest)
  (hcount : s.incount = s.input.length) (hroom : (utf16EncodeChar c).length ≤ s.outcount)

include hinput hcount hroom

theorem utf8Turn_one_byte (h : c.toNat < 0x80) : utf8Turn s = .next (utf8After s c rest) := by
  have hv := toNat_ofNat (show c.toNat < 256 by omega)
  have hincount : 1 ≤ s.incount := by
    rw [hcount, hinput, utf8EncodeChar_one h]
    exact Nat.succ_pos _
  rw [utf8After]
  rw [utf16EncodeChar_word (by omega)] at hroom ⊢
  rw [utf8EncodeChar_one h] at hinput ⊢
  rw [utf8Turn_one hinput (by rw [hv]; exact h), hv, sizeSub_of_le hincount,
    sizeSub_of_le (show 1 ≤ s.outcount from hroom)]
  rfl

theorem utf8Turn_two_bytes (h : 0x80 ≤ c.toNat) (h' : c.toNat < 0x800) :
    utf8Turn s = .next (utf8After s c rest) := by
  have ha := toNat_ofNat (show 0xC0 + c.toNat / 64 < 256 by omega)
  have hd := toNat_ofNat (show 0x80 + c.toNat % 64 < 256 by omega)
  have htd := tail_ofNat (show c.toNat % 64 < 64 by omega)
  have hlead : leadMask (UInt8.ofNat (0xC0 + c.toNat / 64)).toNat 3 0xE0 1 = some (0xE0, 1) := by
    rw [ha, leadMask_eq _ (by omega) (by omega), if_pos (by omega)]
  refine utf8Turn_sequence (utf8EncodeChar_two h h') hinput hcount hroom (by omega) hlead
    Nat.one_pos (List.forall_mem_singleton.mpr htd) ?_ ?_
  · intro next hnext
    rw [Bool.eq_false_iff, ha, clearMask_two _ (by omega) (by omega)]
    exact mt (rejects_two _ (by omega) _).mp (by omega)
  · rw [ha, clearMask_two _ (by omega) (by omega), List.foldl_cons, List.foldl_nil, hd]
    omega

theorem utf8Turn_three_bytes (h : 0x800 ≤ c.toNat) (h' : c.toNat < 0x10000) :
    utf8Turn s = .next (utf8After s c rest) := by
  have hvalid := toNat_valid c
  have ha := toNat_ofNat (show 0xE0 + c.toNat / 4096 < 256 by omega)
  have hb := toNat_ofNat (show 0x80 + c.toNat / 64 % 64 < 256 by omega)
  have hd := toNat_ofNat (show 0x80 + c.toNat % 64 < 256 by omega)
  have htb := tail_ofNat (show c.toNat / 64 % 64 < 64 by omega)
  have htd := tail_ofNat (show c.toNat % 64 < 64 by omega)
  have hlead : leadMask (UInt8.ofNat (0xE0 + c.toNat / 4096)).toNat 3 0xE0 1
      = some (0xF0, 2) := by
    rw [ha, leadMask_eq _ (by omega) (by omega), if_neg (by omega), if_pos (by omega)]
  refine utf8Turn_sequence (utf8EncodeChar_three h h') hinput hcount hroom (by omega) hlead
    Nat.two_pos (List.forall_mem_cons.mpr ⟨htb, List.forall_mem_singleton.mpr htd⟩) ?_ ?_
  · intro next hnext
    rw [List.head?_cons, Option.mem_some_iff] at hnext
    rw [← hnext, Bool.eq_false_iff, ha, clearMask_three _ (by omega) (by omega), hb]
    exact mt (rejects_three _ (by omega) _ (by omega) (by omega)).mp (by omega)
  · rw [ha, clearMask_three _ (by omega) (by omega), List.foldl_cons, List.foldl_cons,
      List.foldl_nil, hb, hd]
    omega

theorem utf8Turn_four_bytes (h : 0x10000 ≤ c.toNat) :
    utf8Turn s = .next (utf8After s c rest) := by
  have hvalid := toNat_valid c
  have ha := toNat_ofNat (show 0xF0 + c.toNat / 262144 < 256 by omega)
  have he := toNat_ofNat (show 0x80 + c.toNat / 4096 % 64 < 256 by omega)
  have hb := toNat_ofNat (show 0x80 + c.toNat / 64 % 64 < 256 by omega)
  have hd := toNat_ofNat (show 0x80 + c.toNat % 64 < 256 by omega)
  have hte := tail_ofNat (show c.toNat / 4096 % 64 < 64 by omega)
  have htb := tail_ofNat (show c.toNat / 64 % 64 < 64 by omega)
  have htd := tail_ofNat (show c.toNat % 64 < 64 by omega)
  have hlead : leadMask (UInt8.ofNat (0xF0 + c.toNat / 262144)).toNat 3 0xE0 1
      = some (0xF8, 3) := by
    rw [ha, leadMask_eq _ (by omega) (by omega), if_neg (by omega), if_neg (by omega),
      if_pos (by omega)]
  refine utf8Turn_sequence (utf8EncodeChar_four h) hinput hcount hroom (by omega) hlead
    (Nat.succ_pos 2) (List.forall_mem_cons.mpr
      ⟨hte, List.forall_mem_cons.mpr ⟨htb, List.forall_mem_singleton.mpr htd⟩⟩) ?_ ?_
  · intro next hnext
    rw [List.head?_cons, Option.mem_some_iff] at hnext
    rw [← hnext, ha, clearMask_four _ (by omega) (by omega), he]
    refine (rejects_four _ (by omega) _ (by omega) (by omega)).trans ?_
    simp only [Bool.or_eq_false_iff, Bool.and_eq_false_iff, decide_eq_false_iff_not]
    omega
  · rw [ha, clearMask_four _ (by omega) (by omega), List.foldl_cons, List.foldl_cons,
      List.foldl_cons, List.foldl_nil, hb, hd, he]
    omega

/-- **A turn on the encoding of a scalar value** converts it, if there is room. -/
theorem utf8Turn_encoded : utf8Turn s = .next (utf8After s c rest) := by
  rcases Nat.lt_or_ge c.toNat 0x80 with h₁ | h₁
  · exact utf8Turn_one_byte hinput hcount hroom h₁
  rcases Nat.lt_or_ge c.toNat 0x800 with h₂ | h₂
  · exact utf8Turn_two_bytes hinput hcount hroom h₁ h₂
  rcases Nat.lt_or_ge c.toNat 0x10000 with h₃ | h₃
  · exact utf8Turn_three_bytes hinput hcount hroom h₂ h₃
  · exact utf8Turn_four_bytes hinput hcount hroom h₃

end Encoded

/-- The input begins with a scalar value for which there is room. -/
def Utf8Front (s : Conv UInt8 UInt16) : Prop :=
  ∃ c rest, s.input = String.utf8EncodeChar c ++ rest ∧ (utf16EncodeChar c).length ≤ s.outcount

/-- The number of bytes says how many words are needed. -/
theorem utf8Front_of_bytes {c : Char} {bytes : List UInt8} (hc : String.utf8EncodeChar c = bytes)
    (hinput : s.input = bytes ++ rest)
    (hroom : (if bytes.length > 3 then 1 else 0) + 1 ≤ s.outcount) : Utf8Front s := by
  refine ⟨c, rest, by rw [hinput, hc], ?_⟩
  rw [length_utf16EncodeChar, hc]
  exact hroom

section Cases

variable (hinput : s.input = a :: rest) (hlen : s.incount = rest.length + 1)

include hinput hlen

theorem utf8Turn_two_cases (h : 0xC0 ≤ a.toNat) (h' : a.toNat < 0xE0) :
    Utf8Front s ∨ ∃ ret, utf8Turn s = .stop ret := by
  have hlead := leadMask_eq a.toNat a.toNat_lt h
  rw [if_pos h'] at hlead
  rw [utf8Turn_many hinput h hlead, clearMask_two _ h' h]
  rcases sequence_cases hlen Nat.one_pos with hstop | ⟨hle, htail, haccept, hroom⟩
  · exact Or.inr hstop
  · obtain ⟨b, rest, rfl⟩ := List.exists_cons_of_length_pos hle
    rw [List.take_succ_cons, List.take_zero, List.forall_mem_singleton] at htail
    have hnext := mt (rejects_two _ (by omega) _).mpr (Bool.eq_false_iff.mp (haccept b rfl))
    obtain ⟨c, hc⟩ := exists_two (by omega) h' htail
    exact Or.inl (utf8Front_of_bytes hc hinput hroom)

theorem utf8Turn_three_cases (h : 0xE0 ≤ a.toNat) (h' : a.toNat < 0xF0) :
    Utf8Front s ∨ ∃ ret, utf8Turn s = .stop ret := by
  have hlead := leadMask_eq a.toNat a.toNat_lt (by omega)
  rw [if_neg (by omega), if_pos h'] at hlead
  rw [utf8Turn_many hinput (by omega) hlead, clearMask_three _ h' h]
  rcases sequence_cases hlen Nat.two_pos with hstop | ⟨hle, htail, haccept, hroom⟩
  · exact Or.inr hstop
  · obtain ⟨b, rest, rfl⟩ := List.exists_cons_of_length_pos (by omega : 0 < rest.length)
    rw [List.length_cons] at hle
    obtain ⟨d, rest, rfl⟩ := List.exists_cons_of_length_pos (by omega : 0 < rest.length)
    rw [List.take_succ_cons, List.take_succ_cons, List.take_zero, List.forall_mem_cons,
      List.forall_mem_singleton] at htail
    obtain ⟨hb, hd⟩ := htail
    have hnext := mt (rejects_three (a.toNat - 0xE0) (by omega) _ hb.2 hb.1).mpr
      (Bool.eq_false_iff.mp (haccept b rfl))
    obtain ⟨c, hc⟩ := exists_three h h' hb hd (by omega) (by omega)
    exact Or.inl (utf8Front_of_bytes hc hinput hroom)

theorem utf8Turn_four_cases (h : 0xF0 ≤ a.toNat) (h' : a.toNat < 0xF8) :
    Utf8Front s ∨ ∃ ret, utf8Turn s = .stop ret := by
  have hlead := leadMask_eq a.toNat a.toNat_lt (by omega)
  rw [if_neg (by omega), if_neg (by omega), if_pos h'] at hlead
  rw [utf8Turn_many hinput (by omega) hlead, clearMask_four _ h' h]
  rcases sequence_cases hlen (Nat.succ_pos 2) with hstop | ⟨hle, htail, haccept, hroom⟩
  · exact Or.inr hstop
  · obtain ⟨b, rest, rfl⟩ := List.exists_cons_of_length_pos (by omega : 0 < rest.length)
    rw [List.length_cons] at hle
    obtain ⟨d, rest, rfl⟩ := List.exists_cons_of_length_pos (by omega : 0 < rest.length)
    rw [List.length_cons] at hle
    obtain ⟨e, rest, rfl⟩ := List.exists_cons_of_length_pos (by omega : 0 < rest.length)
    rw [List.take_succ_cons, List.take_succ_cons, List.take_succ_cons, List.take_zero,
      List.forall_mem_cons, List.forall_mem_cons, List.forall_mem_singleton] at htail
    obtain ⟨hb, hd, he⟩ := htail
    have hnext := (rejects_four (a.toNat - 0xF0) (by omega) _ hb.2 hb.1).symm.trans
      (haccept b rfl)
    simp only [Bool.or_eq_false_iff, Bool.and_eq_false_iff, decide_eq_false_iff_not] at hnext
    obtain ⟨c, hc⟩ := exists_four h (by omega) hb hd he (by omega) (by omega)
    exact Or.inl (utf8Front_of_bytes hc hinput hroom)

end Cases

/-- **A turn on anything else** stops. -/
theorem utf8Turn_cases (hcount : s.incount = s.input.length) (hin : s.incount ≠ 0)
    (hout : s.outcount ≠ 0) : Utf8Front s ∨ ∃ ret, utf8Turn s = .stop ret := by
  cases hinput : s.input with
  | nil => exact absurd (by rw [hcount, hinput]; rfl) hin
  | cons a rest =>
      have hlen : s.incount = rest.length + 1 := by rw [hcount, hinput, List.length_cons]
      rcases Nat.lt_or_ge a.toNat 0x80 with h₁ | h₁
      · obtain ⟨c, hc⟩ := exists_one h₁
        exact Or.inl (utf8Front_of_bytes hc hinput (Nat.one_le_iff_ne_zero.mpr hout))
      by_cases hbad : a.toNat < 0xC0 ∨ 0xF8 ≤ a.toNat
      · exact Or.inr ⟨-1, utf8Turn_bad hinput h₁ hbad⟩
      push Not at hbad
      rcases Nat.lt_or_ge a.toNat 0xE0 with h₂ | h₂
      · exact utf8Turn_two_cases hinput hlen hbad.1 h₂
      rcases Nat.lt_or_ge a.toNat 0xF0 with h₃ | h₃
      · exact utf8Turn_three_cases hinput hlen h₂ h₃
      · exact utf8Turn_four_cases hinput hlen h₃ hbad.2

end Utf8Turn

/-! ## A turn of `conv_ucs2_to_utf8` -/

section Ucs2Turn

/-- The six bits that tell surrogates from other words. -/
theorem and_surrogate {ch : ℕ} (h : ch < 2 ^ 16) : ch &&& 0xFC00 = ch / 1024 * 1024 := by
  have hshift : ch &&& 0xFC00 = (ch >>> 10 &&& 0x3F) <<< 10 := by
    apply Nat.eq_of_testBit_eq
    intro i
    rw [show (0xFC00 : ℕ) = 0x3F <<< 10 from rfl, Nat.testBit_and, Nat.testBit_shiftLeft,
      Nat.testBit_shiftLeft, Nat.testBit_and, Nat.testBit_shiftRight]
    by_cases hi : 10 ≤ i
    · rw [decide_eq_true hi, Bool.true_and, Bool.true_and, Nat.add_sub_of_le hi]
    · rw [decide_eq_false hi, Bool.false_and, Bool.false_and, Bool.and_false]
  rw [hshift, show (0x3F : ℕ) = 2 ^ 6 - 1 by norm_num, Nat.and_two_pow_sub_one_eq_mod,
    Nat.shiftRight_eq_div_pow, Nat.shiftLeft_eq, Nat.mod_eq_of_lt (by omega)]

theorem needed_zero (fuel need : ℕ) : needed fuel 0 need = need := by
  cases fuel with
  | zero => rfl
  | succ fuel => exact if_neg (not_not.mpr rfl)

theorem needed_succ {fuel require : ℕ} (h : require ≠ 0) (hfuel : 0 < fuel) (need : ℕ) :
    needed fuel require need = needed (fuel - 1) (require / 32) (need + 1) := by
  obtain ⟨fuel, rfl⟩ := Nat.exists_eq_succ_of_ne_zero hfuel.ne'
  rw [needed, if_pos h, Nat.shiftRight_eq_div_pow]
  rfl

/-- The number of bytes behind the first one. -/
theorem needed_eq (c : Char) (h : 0x80 ≤ c.toNat) :
    needed (c.toNat >>> 11) (c.toNat >>> 11) 1 + 1 = (String.utf8EncodeChar c).length := by
  have hvalid := toNat_valid c
  rw [Nat.shiftRight_eq_div_pow, show 2 ^ 11 = 2048 by norm_num]
  rcases Nat.lt_or_ge c.toNat 0x800 with h₂ | h₂
  · rw [Nat.div_eq_of_lt h₂, needed_zero, utf8EncodeChar_two h h₂]
    rfl
  rw [needed_succ (by omega) (by omega)]
  rcases Nat.lt_or_ge c.toNat 0x10000 with h₃ | h₃
  · rw [show c.toNat / 2048 / 32 = 0 by omega, needed_zero, utf8EncodeChar_three h₂ h₃]
    rfl
  · rw [needed_succ (by omega) (by omega), show c.toNat / 2048 / 32 / 32 = 0 by omega,
      needed_zero, utf8EncodeChar_four h₃]
    rfl

theorem or_low (v : ℕ) : 0x80 ||| v &&& 0x3F = 0x80 + v % 64 := by
  rw [show (0x3F : ℕ) = 2 ^ 6 - 1 by norm_num, Nat.and_two_pow_sub_one_eq_mod,
    show (0x80 : ℕ) = 2 ^ 6 * 2 by norm_num,
    ← Nat.two_pow_add_eq_or_of_lt (Nat.mod_lt _ (by norm_num))]

/-- **The bytes of a scalar value**, written from the last one to the first. -/
theorem writeBack_eq {c : Char} (h : 0x80 ≤ c.toNat) :
    writeBack (needed (c.toNat >>> 11) (c.toNat >>> 11) 1) 0x80 c.toNat []
      = String.utf8EncodeChar c := by
  have hvalid := toNat_valid c
  have hneed := needed_eq c h
  have hsix : ∀ v : ℕ, v >>> 6 = v / 64 := fun v => Nat.shiftRight_eq_div_pow v 6
  rcases Nat.lt_or_ge c.toNat 0x800 with h₂ | h₂
  · have hlead : 0xC0 ||| c.toNat / 64 = 0xC0 + c.toNat / 64 := by
      rw [show (0xC0 : ℕ) = 2 ^ 6 * 3 by norm_num, ← Nat.two_pow_add_eq_or_of_lt (by omega)]
    rw [utf8EncodeChar_two h h₂] at hneed ⊢
    rw [show needed (c.toNat >>> 11) (c.toNat >>> 11) 1 = 1 from Nat.succ.inj hneed]
    simp only [writeBack, or_low, hsix]
    rw [← hlead]
    rfl
  rcases Nat.lt_or_ge c.toNat 0x10000 with h₃ | h₃
  · have hlead : 0xE0 ||| c.toNat / 64 / 64 = 0xE0 + c.toNat / 4096 := by
      rw [show (0xE0 : ℕ) = 2 ^ 5 * 7 by norm_num, ← Nat.two_pow_add_eq_or_of_lt (by omega)]
      omega
    rw [utf8EncodeChar_three h₂ h₃] at hneed ⊢
    rw [show needed (c.toNat >>> 11) (c.toNat >>> 11) 1 = 2 from Nat.succ.inj hneed]
    simp only [writeBack, or_low, hsix]
    rw [← hlead]
    rfl
  · have hlead : 0xF0 ||| c.toNat / 64 / 64 / 64 = 0xF0 + c.toNat / 262144 := by
      rw [show (0xF0 : ℕ) = 2 ^ 4 * 15 by norm_num, ← Nat.two_pow_add_eq_or_of_lt (by omega)]
      omega
    rw [utf8EncodeChar_four h₃] at hneed ⊢
    rw [show needed (c.toNat >>> 11) (c.toNat >>> 11) 1 = 3 from Nat.succ.inj hneed]
    simp only [writeBack, or_low, hsix]
    rw [← hlead, show c.toNat / 4096 = c.toNat / 64 / 64 by omega]
    rfl

variable {s : Conv UInt16 UInt8} {rest : List UInt16} {c : Char}

/-- A scalar value of more than seven bits is written if there is room. -/
theorem writeBytes_eq (h : 0x80 ≤ c.toNat) (s : Conv UInt16 UInt8) (input : List UInt16) :
    writeBytes s c.toNat input
      = if (String.utf8EncodeChar c).length ≤ s.outcount then
          .next ⟨input, sizeSub s.incount (utf16EncodeChar c).length,
            s.out ++ String.utf8EncodeChar c,
            sizeSub s.outcount (String.utf8EncodeChar c).length⟩
        else .stop 0 := by
  have hneed := needed_eq c h
  have hwords : (if needed (c.toNat >>> 11) (c.toNat >>> 11) 1 > 2 then 1 else 0) + 1
      = (utf16EncodeChar c).length := by
    rw [length_utf16EncodeChar, ← hneed]
    split_ifs <;> omega
  rw [writeBytes, hwords, hneed, writeBack_eq h]
  split_ifs <;> first | rfl | omega

theorem ucs2Turn_ascii (hinput : s.input = utf16EncodeChar c ++ rest) (h : c.toNat < 0x80) :
    ucs2Turn s = .next ⟨rest, sizeSub s.incount 1, s.out ++ String.utf8EncodeChar c,
      sizeSub s.outcount 1⟩ := by
  rw [utf16EncodeChar_word (by omega)] at hinput
  have hword : (UInt16.ofNat c.toNat).toNat = c.toNat := by
    rw [UInt16.toNat_ofNat']
    omega
  rw [ucs2Turn, hinput, utf8EncodeChar_one h]
  dsimp only [List.cons_append]
  rw [hword, if_pos h]
  rfl

/-- One word or a surrogate pair is put together again. -/
theorem ucs2Turn_encoded (hinput : s.input = utf16EncodeChar c ++ rest)
    (hcount : s.incount = s.input.length) (h : 0x80 ≤ c.toNat) :
    ucs2Turn s = writeBytes s c.toNat rest := by
  have hvalid := toNat_valid c
  rcases Nat.lt_or_ge c.toNat 0x10000 with hword | hpair
  · rw [utf16EncodeChar_word hword] at hinput
    have hw : (UInt16.ofNat c.toNat).toNat = c.toNat := by
      rw [UInt16.toNat_ofNat']
      omega
    rw [ucs2Turn, hinput]
    dsimp only [List.cons_append]
    rw [hw, and_surrogate (by omega), if_neg (by omega), if_neg (by omega), if_neg (by omega)]
    rfl
  · rw [utf16EncodeChar_pair hpair] at hinput
    have hhigh : (UInt16.ofNat (0xD800 + (c.toNat - 0x10000) / 0x400)).toNat
        = 0xD800 + (c.toNat - 0x10000) / 0x400 := by
      rw [UInt16.toNat_ofNat']
      omega
    have hlow : (UInt16.ofNat (0xDC00 + (c.toNat - 0x10000) % 0x400)).toNat
        = 0xDC00 + (c.toNat - 0x10000) % 0x400 := by
      rw [UInt16.toNat_ofNat']
      omega
    have hvalue : ((0xD800 + (c.toNat - 0x10000) / 0x400 &&& 0x3FF) <<< 10
        ||| 0xDC00 + (c.toNat - 0x10000) % 0x400 &&& 0x3FF) + 0x10000 = c.toNat := by
      rw [show (0x3FF : ℕ) = 2 ^ 10 - 1 by norm_num, Nat.and_two_pow_sub_one_eq_mod,
        Nat.and_two_pow_sub_one_eq_mod,
        ← Nat.shiftLeft_add_eq_or_of_lt (Nat.mod_lt _ (by norm_num)), Nat.shiftLeft_eq]
      omega
    have hincount : ¬ s.incount < 2 := by
      rw [hcount, hinput, List.length_append, List.length_cons, List.length_singleton]
      omega
    rw [ucs2Turn, hinput]
    dsimp only [List.cons_append, List.nil_append]
    rw [hhigh, hlow, and_surrogate (by omega), and_surrogate (by omega), if_neg (by omega),
      if_neg (by omega), if_pos (by omega), if_neg hincount, if_neg (not_not.mpr (by omega)),
      hvalue]

/-- **A turn on anything else** stops. -/
theorem ucs2Turn_cases (hcount : s.incount = s.input.length) (hin : s.incount ≠ 0) :
    (∃ c rest, s.input = utf16EncodeChar c ++ rest) ∨ ∃ ret, ucs2Turn s = .stop ret := by
  cases hinput : s.input with
  | nil => exact absurd (by rw [hcount, hinput]; rfl) hin
  | cons w rest =>
      have hlt := w.toNat_lt
      by_cases hword : w.toNat < 0xD800 ∨ 0xDFFF < w.toNat
      · obtain ⟨c, -, hc⟩ := exists_word hword
        exact Or.inl ⟨c, rest, by rw [hc]; rfl⟩
      push Not at hword
      rw [ucs2Turn, hinput]
      dsimp only
      rw [and_surrogate hlt, if_neg (by omega)]
      rcases Nat.lt_or_ge w.toNat 0xDC00 with hhigh | hlow
      · rw [if_neg (by omega), if_pos (by omega)]
        by_cases hshort : s.incount < 2
        · exact Or.inr ⟨-1, if_pos hshort⟩
        · have hlen : s.incount = rest.length + 1 := by rw [hcount, hinput, List.length_cons]
          obtain ⟨w', rest, rfl⟩ :=
            List.exists_cons_of_length_pos (by omega : 0 < rest.length)
          rw [if_neg hshort]
          dsimp only
          have hlt' := w'.toNat_lt
          rw [and_surrogate hlt']
          by_cases hpair : w'.toNat / 1024 * 1024 = 0xDC00
          · obtain ⟨c, -, hc⟩ := exists_pair hword.1 hhigh (b := w') (by omega) (by omega)
            exact Or.inl ⟨c, rest, by rw [hc]; rfl⟩
          · exact Or.inr ⟨-1, if_pos hpair⟩
      · exact Or.inr ⟨-1, if_pos (by omega)⟩

end Ucs2Turn

/-! ## Whole conversions -/

/-- The conversion has read characters at the front of the input and written their encoding, with
counts that are lower by exactly what was read and written. -/
def Converted.Exact {α β : Type} (encA : Char → List α) (encB : Char → List β) (input : List α)
    (room : ℕ) (r : Converted β) : Prop :=
  ∃ (cs : List Char) (rest : List α), input = cs.flatMap encA ++ rest ∧ r.out = cs.flatMap encB ∧
    r.incount = rest.length ∧ r.outcount + r.out.length = room

/-- The room is used up by whole characters, and the next one is an ASCII character. -/
def FullBeforeAscii (words : List UInt16) (outbytes : ℕ) : Prop :=
  ∃ cs w rest, words = utf16 cs ++ w :: rest ∧ w.toNat < 0x80 ∧ (utf8 cs).length = outbytes

section Converts

variable {α β : Type} {encA : Char → List α} {encB : Char → List β} {input : List α} {room : ℕ}
  {more : Conv α β → Bool} {turn : Conv α β → Turn α β}

/-- A loop that ends behind some characters is a conversion with exact counts. -/
theorem convert_exact {ret : ℤ} {cs : List Char} {s' : Conv α β}
    (hloop : loop more turn (input.length + 1) ⟨input, input.length, [], room⟩ = some (ret, s'))
    (hs' : Behind encA encB cs ⟨input, input.length, [], room⟩ s') :
    ∃ r, convert more turn input room = some r ∧ r.Exact encA encB input room := by
  refine ⟨⟨ret, s'.incount, s'.out, s'.outcount⟩, ?_, cs, s'.input, hs'.input, ?_, ?_, ?_⟩
  · rw [convert, hloop, Option.map_some]
  · exact hs'.out
  · exact hs'.counted rfl
  · have hroom : room = (cs.flatMap encB).length + s'.outcount := hs'.outcount
    rw [hs'.out, List.nil_append, hroom]
    exact Nat.add_comm _ _

/-- The encoding of characters, with room for what is written, is converted as a whole. -/
theorem convert_encoded
    (hturn : ∀ s c rest, s.input = encA c ++ rest → s.incount = s.input.length →
      (encB c).length ≤ s.outcount →
      more s = true ∧ ∃ s', turn s = .next s' ∧ Behind encA encB [c] s s')
    (hend : ∀ s, s.incount = 0 → more s = false) (hne : ∀ c, encA c ≠ []) {cs : List Char}
    (hroom : (cs.flatMap encB).length ≤ room) :
    convert more turn (cs.flatMap encA) room
      = some ⟨0, 0, cs.flatMap encB, room - (cs.flatMap encB).length⟩ := by
  obtain ⟨s', hloop, hs', -, hzero⟩ :=
    @loop_encoded Char α β encA encB cs ⟨cs.flatMap encA, (cs.flatMap encA).length, [], room⟩
      more turn _ hturn hend rfl rfl hroom (Nat.lt_succ_of_le (length_le_flatMap hne cs))
  have hout := hs'.out
  have hroom' : room = (cs.flatMap encB).length + s'.outcount := hs'.outcount
  rw [List.nil_append] at hout
  rw [convert, hloop, Option.map_some, hzero, hout, hroom', Nat.add_sub_cancel_left]

end Converts

/-! ### From UTF-8 -/

theorem utf8Turn_behind {s : Conv UInt8 UInt16} {c : Char} {rest : List UInt8}
    (hinput : s.input = String.utf8EncodeChar c ++ rest) (hcount : s.incount = s.input.length)
    (hroom : (utf16EncodeChar c).length ≤ s.outcount) :
    ∃ s', utf8Turn s = .next s' ∧ Behind String.utf8EncodeChar utf16EncodeChar [c] s s' := by
  refine ⟨_, utf8Turn_encoded hinput hcount hroom, Behind.one hinput ?_ hroom⟩
  rw [hcount, hinput, List.length_append]
  exact Nat.le_add_right _ _

theorem convUtf8ToUcs2_exact (bytes : List UInt8) (outwords : ℕ) :
    ∃ r, convUtf8ToUcs2 bytes outwords = some r ∧
      r.Exact String.utf8EncodeChar utf16EncodeChar bytes outwords := by
  have hturn : ∀ cs s, Behind String.utf8EncodeChar utf16EncodeChar cs
      ⟨bytes, bytes.length, [], outwords⟩ s → decide (s.incount ≠ 0 ∧ s.outcount ≠ 0) = true →
      (∃ c s', utf8Turn s = .next s' ∧ Behind String.utf8EncodeChar utf16EncodeChar [c] s s') ∨
        ∃ ret, utf8Turn s = .stop ret := by
    intro cs s hs hmore
    have hcount := hs.counted rfl
    obtain ⟨hin, hout⟩ := of_decide_eq_true hmore
    rcases utf8Turn_cases hcount hin hout with ⟨c, rest, hinput, hroom⟩ | hstop
    · exact Or.inl ⟨c, utf8Turn_behind hinput hcount hroom⟩
    · exact Or.inr hstop
  obtain ⟨ret, cs, s', hloop, hs'⟩ :=
    loop_behind (fun _ => String.utf8EncodeChar_ne_nil) hturn (Nat.lt_succ_self _)
  exact convert_exact hloop hs'

theorem convUtf8ToUcs2_encoded {cs : List Char} {outwords : ℕ}
    (hroom : (utf16 cs).length ≤ outwords) :
    convUtf8ToUcs2 (utf8 cs) outwords
      = some ⟨0, 0, utf16 cs, outwords - (utf16 cs).length⟩ := by
  refine convert_encoded (fun s c rest hinput hcount hroom => ⟨?_, ?_⟩) (fun s hzero => ?_)
    (fun _ => String.utf8EncodeChar_ne_nil) hroom
  · have hin := List.length_pos_iff.mpr (@String.utf8EncodeChar_ne_nil c)
    have hout := List.length_pos_iff.mpr (utf16EncodeChar_ne_nil c)
    refine decide_eq_true ⟨?_, by omega⟩
    rw [hcount, hinput, List.length_append]
    omega
  · exact utf8Turn_behind hinput hcount hroom
  · exact decide_eq_false fun h => h.1 hzero

/-! ### From UTF-16 -/

theorem ucs2Turn_behind {s : Conv UInt16 UInt8} {c : Char} {rest : List UInt16}
    (hinput : s.input = utf16EncodeChar c ++ rest) (hcount : s.incount = s.input.length)
    (hroom : (String.utf8EncodeChar c).length ≤ s.outcount) :
    ∃ s', ucs2Turn s = .next s' ∧ Behind utf16EncodeChar String.utf8EncodeChar [c] s s' := by
  have hin : (utf16EncodeChar c).length ≤ s.incount := by
    rw [hcount, hinput, List.length_append]
    exact Nat.le_add_right _ _
  refine ⟨_, ?_, Behind.one hinput hin hroom⟩
  rcases Nat.lt_or_ge c.toNat 0x80 with hascii | hmore
  · rw [utf16EncodeChar_word (by omega), List.length_singleton] at hin ⊢
    rw [ucs2Turn_ascii hinput hascii]
    rw [utf8EncodeChar_one hascii, List.length_singleton] at hroom ⊢
    rw [sizeSub_of_le hin, sizeSub_of_le hroom]
  · rw [ucs2Turn_encoded hinput hcount hmore, writeBytes_eq hmore, if_pos hroom,
      sizeSub_of_le hin, sizeSub_of_le hroom]

theorem more_of_input {s : Conv UInt16 UInt8} {c : Char} {rest : List UInt16}
    (hinput : s.input = utf16EncodeChar c ++ rest) (hcount : s.incount = s.input.length) :
    decide (s.incount ≠ 0) = true := by
  have hin := List.length_pos_iff.mpr (utf16EncodeChar_ne_nil c)
  refine decide_eq_true ?_
  rw [hcount, hinput, List.length_append]
  omega

theorem convUcs2ToUtf8_encoded {cs : List Char} {outbytes : ℕ}
    (hroom : (utf8 cs).length ≤ outbytes) :
    convUcs2ToUtf8 (utf16 cs) outbytes = some ⟨0, 0, utf8 cs, outbytes - (utf8 cs).length⟩ := by
  refine convert_encoded (fun s c rest hinput hcount hroom => ⟨?_, ?_⟩) (fun s hzero => ?_)
    utf16EncodeChar_ne_nil hroom
  · exact more_of_input hinput hcount
  · exact ucs2Turn_behind hinput hcount hroom
  · exact decide_eq_false fun h => h hzero

theorem writeBytes_grows {s s' : Conv UInt16 UInt8} {newch : ℕ} {input : List UInt16}
    (h : writeBytes s newch input = .next s') : s.out.length ≤ s'.out.length := by
  unfold writeBytes at h
  dsimp only at h
  split at h
  · cases h
  · cases h
    exact List.length_append ▸ Nat.le_add_right _ _

/-- No turn takes back what was written. -/
theorem ucs2Turn_grows (s s' : Conv UInt16 UInt8) (h : ucs2Turn s = .next s') :
    s.out.length ≤ s'.out.length := by
  unfold ucs2Turn at h
  split at h
  · cases h
  · dsimp only at h
    split_ifs at h
    · cases h
      exact List.length_append ▸ Nat.le_add_right _ _
    · split at h
      · cases h
      · split_ifs at h
        exact writeBytes_grows h
    · exact writeBytes_grows h

/-- A turn of the loop on characters at the front of the input, for which there is room. -/
theorem ucs2Turn_front (s : Conv UInt16 UInt8) (c : Char) (rest : List UInt16)
    (hinput : s.input = utf16EncodeChar c ++ rest) (hcount : s.incount = s.input.length)
    (hroom : (String.utf8EncodeChar c).length ≤ s.outcount) :
    decide (s.incount ≠ 0) = true ∧
      ∃ s', ucs2Turn s = .next s' ∧ Behind utf16EncodeChar String.utf8EncodeChar [c] s s' :=
  ⟨more_of_input hinput hcount, ucs2Turn_behind hinput hcount hroom⟩

/-- **The missing test.**  An ASCII character is written behind a full output. -/
theorem FullBeforeAscii.out_past_room {words : List UInt16} {outbytes : ℕ}
    (h : FullBeforeAscii words outbytes) {r : Converted UInt8}
    (hrun : convUcs2ToUtf8 words outbytes = some r) : outbytes < r.out.length := by
  obtain ⟨cs, w, rest, hwords, hascii, hfull⟩ := h
  obtain ⟨c, hc, hword⟩ := exists_word (Or.inl (hascii.trans (by norm_num)))
  have hcascii : c.toNat < 0x80 := by rw [hc]; exact hascii
  -- the loop goes through the characters, and then writes one byte more
  obtain ⟨s', hs', hinput, hloop⟩ := @loop_front Char UInt16 UInt8 utf16EncodeChar
    String.utf8EncodeChar cs ⟨words, words.length, [], outbytes⟩ (fun s => s.incount ≠ 0)
    ucs2Turn ucs2Turn_front (w :: rest) hwords rfl hfull.le
  have hfront : s'.input = utf16EncodeChar c ++ rest := by rw [hinput, hword]; rfl
  have hturn := ucs2Turn_ascii hfront hcascii
  have hmore := more_of_input hfront (hs'.counted rfl)
  have hfuel : ∃ k, words.length + 1 = cs.length + (k + 1) := by
    have hle : cs.length ≤ (utf16 cs).length := length_le_flatMap utf16EncodeChar_ne_nil cs
    refine ⟨words.length - cs.length, ?_⟩
    rw [hwords, List.length_append]
    omega
  obtain ⟨k, hk⟩ := hfuel
  rw [convUcs2ToUtf8, convert, hk, hloop, loop_next hmore hturn, Option.map_eq_some_iff] at hrun
  obtain ⟨⟨ret, last⟩, hlast, rfl⟩ := hrun
  have hgrow := length_out_le ucs2Turn_grows hlast
  have hout : s'.out = utf8 cs := hs'.out
  rw [utf8EncodeChar_one hcascii, List.length_append, hout, hfull, List.length_singleton] at hgrow
  exact hgrow

theorem convUcs2ToUtf8_exact {words : List UInt16} {outbytes : ℕ}
    (hfit : ¬ FullBeforeAscii words outbytes) :
    ∃ r, convUcs2ToUtf8 words outbytes = some r ∧
      r.Exact utf16EncodeChar String.utf8EncodeChar words outbytes := by
  have hturn : ∀ cs s, Behind utf16EncodeChar String.utf8EncodeChar cs
      ⟨words, words.length, [], outbytes⟩ s → decide (s.incount ≠ 0) = true →
      (∃ c s', ucs2Turn s = .next s' ∧
        Behind utf16EncodeChar String.utf8EncodeChar [c] s s') ∨
        ∃ ret, ucs2Turn s = .stop ret := by
    intro cs s hs hmore
    have hcount := hs.counted rfl
    rcases ucs2Turn_cases hcount (of_decide_eq_true hmore) with ⟨c, rest, hinput⟩ | hstop
    · by_cases hroom : (String.utf8EncodeChar c).length ≤ s.outcount
      · exact Or.inl ⟨c, ucs2Turn_behind hinput hcount hroom⟩
      · rcases Nat.lt_or_ge c.toNat 0x80 with hascii | hbig
        · -- no room for an ASCII character
          have hroom' : outbytes = (utf8 cs).length + s.outcount := hs.outcount
          have hwords : words = utf16 cs ++ s.input := hs.input
          rw [utf8EncodeChar_one hascii, List.length_singleton] at hroom
          rw [hinput, utf16EncodeChar_word (by omega)] at hwords
          have hword : (UInt16.ofNat c.toNat).toNat < 0x80 := by
            rw [UInt16.toNat_ofNat']
            omega
          exact absurd ⟨cs, _, rest, hwords, hword, by omega⟩ hfit
        · right
          rw [ucs2Turn_encoded hinput hcount hbig, writeBytes_eq hbig, if_neg hroom]
          exact ⟨0, rfl⟩
    · exact Or.inr hstop
  obtain ⟨ret, cs, s', hloop, hs'⟩ :=
    loop_behind utf16EncodeChar_ne_nil hturn (Nat.lt_succ_self _)
  exact convert_exact hloop hs'

/-- **The room of both conversions.** -/
theorem conversions_exact_iff (bytes : List UInt8) (outwords : ℕ) (words : List UInt16)
    (outbytes : ℕ) :
    ((∃ r, convUtf8ToUcs2 bytes outwords = some r ∧
        r.Exact String.utf8EncodeChar utf16EncodeChar bytes outwords) ∧
      ∃ r, convUcs2ToUtf8 words outbytes = some r ∧
        r.Exact utf16EncodeChar String.utf8EncodeChar words outbytes)
      ↔ ¬ FullBeforeAscii words outbytes := by
  constructor
  · rintro ⟨-, r, hrun, cs, rest, -, -, -, htotal⟩ hfull
    have hpast := hfull.out_past_room hrun
    omega
  · intro hfit
    exact ⟨convUtf8ToUcs2_exact bytes outwords, convUcs2ToUtf8_exact hfit⟩

/-- Two ASCII words and room for one byte: two bytes are written, and the count wraps. -/
theorem ascii_past_room :
    convUcs2ToUtf8 [97, 98] 1 = some ⟨0, 0, [97, 98], 2 ^ 32 - 1⟩ ∧
      ¬ ∃ r, convUcs2ToUtf8 [97, 98] 1 = some r ∧
        r.Exact utf16EncodeChar String.utf8EncodeChar [97, 98] 1 := by
  have hrun : convUcs2ToUtf8 [97, 98] 1 = some ⟨0, 0, [97, 98], 2 ^ 32 - 1⟩ := by
    decide
  refine ⟨hrun, ?_⟩
  rintro ⟨r, hr, cs, rest, -, -, -, htotal⟩
  rw [hrun] at hr
  cases hr
  exact absurd htotal (by decide)

/-! ## Well-formed text -/

/-- **What `conv_utf8_to_ucs2` accepts as a whole.** -/
theorem convUtf8ToUcs2_all_iff {bytes : List UInt8} {outwords : ℕ} {r : Converted UInt16}
    (hrun : convUtf8ToUcs2 bytes outwords = some r) :
    r.ret = 0 ∧ r.incount = 0 ↔ ∃ cs, utf8 cs = bytes ∧ (utf16 cs).length ≤ outwords := by
  constructor
  · rintro ⟨-, hzero⟩
    obtain ⟨r', hr', cs, rest, hbytes, hout, hincount, htotal⟩ :=
      convUtf8ToUcs2_exact bytes outwords
    rw [hrun] at hr'
    cases hr'
    rw [hzero] at hincount
    rw [List.length_eq_zero_iff.mp hincount.symm, List.append_nil] at hbytes
    refine ⟨cs, hbytes.symm, ?_⟩
    rw [show utf16 cs = r.out from hout.symm]
    omega
  · rintro ⟨cs, rfl, hroom⟩
    rw [convUtf8ToUcs2_encoded hroom] at hrun
    cases hrun
    exact ⟨rfl, rfl⟩

/-- **Well-formed text, and the conversions as inverses.**  A string of bytes is converted as a
whole exactly if it is the UTF-8 of scalar values whose UTF-16 fits.  Both conversions are right,
and each takes back what the other one does. -/
theorem conversions_inverse :
    (∀ bytes outwords, ∃ r, convUtf8ToUcs2 bytes outwords = some r ∧
      (r.ret = 0 ∧ r.incount = 0 ↔ ∃ cs, utf8 cs = bytes ∧ (utf16 cs).length ≤ outwords)) ∧
    (∀ cs outwords, (utf16 cs).length ≤ outwords →
      convUtf8ToUcs2 (utf8 cs) outwords
        = some ⟨0, 0, utf16 cs, outwords - (utf16 cs).length⟩) ∧
    (∀ cs outbytes, (utf8 cs).length ≤ outbytes →
      convUcs2ToUtf8 (utf16 cs) outbytes
        = some ⟨0, 0, utf8 cs, outbytes - (utf8 cs).length⟩) ∧
    (∀ bytes outwords outbytes r, bytes.length ≤ outbytes →
      convUtf8ToUcs2 bytes outwords = some r → r.ret = 0 → r.incount = 0 →
      convUcs2ToUtf8 r.out outbytes = some ⟨0, 0, bytes, outbytes - bytes.length⟩) ∧
    ∀ words outbytes outwords, (∃ cs, utf16 cs = words) → 3 * words.length ≤ outbytes →
      words.length ≤ outwords →
      ∃ r, convUcs2ToUtf8 words outbytes = some r ∧
        convUtf8ToUcs2 r.out outwords = some ⟨0, 0, words, outwords - words.length⟩ := by
  refine ⟨fun bytes outwords => ?_, fun cs outwords => convUtf8ToUcs2_encoded,
    fun cs outbytes => convUcs2ToUtf8_encoded, ?_, ?_⟩
  · obtain ⟨r, hrun, -⟩ := convUtf8ToUcs2_exact bytes outwords
    exact ⟨r, hrun, convUtf8ToUcs2_all_iff hrun⟩
  · intro bytes outwords outbytes r hroom hrun hret hzero
    obtain ⟨cs, rfl, hwords⟩ := (convUtf8ToUcs2_all_iff hrun).mp ⟨hret, hzero⟩
    rw [convUtf8ToUcs2_encoded hwords] at hrun
    cases hrun
    exact convUcs2ToUtf8_encoded hroom
  · rintro _ outbytes outwords ⟨cs, rfl⟩ hbytes hwords
    exact ⟨_, convUcs2ToUtf8_encoded ((length_utf8_le cs).trans hbytes),
      convUtf8ToUcs2_encoded hwords⟩

/-- The euro sign, there and back. -/
theorem conversions_inverse_euro :
    convUcs2ToUtf8 [0x20AC] 3 = some ⟨0, 0, [0xE2, 0x82, 0xAC], 0⟩ ∧
      convUtf8ToUcs2 [0xE2, 0x82, 0xAC] 1 = some ⟨0, 0, [0x20AC], 0⟩ := by
  have height : utf8 ['€'] = [0xE2, 0x82, 0xAC] := by decide
  have hsixteen : utf16 ['€'] = [0x20AC] := by decide
  have hto := conversions_inverse.2.2.1 ['€'] 3 (by decide)
  have hback := conversions_inverse.2.1 ['€'] 1 (by decide)
  rw [height, hsixteen] at hto hback
  exact ⟨hto, hback⟩

end Zevent.Minidownloader

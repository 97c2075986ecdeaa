/-
# Bencoding in Python (`libbt/completedir/bencode.py`)

The tools that make torrents write them with `bencode`; `bdecode` reads them.  A value is a
tree, and a dictionary has its entries in the order of `items()`, with no key twice.  An index
of Python may be negative and counts from the end then, and a slice that leaves the text stops
at its ends.

* `bdecode_bencode`: what is written is read back, with the keys of dictionaries in order.
* `btpd_reads_bencode`: `benc.c` accepts what is written, and finds its entries.
-/
import Mathlib.Tactic
import Mathlib.Data.List.DropRight
import Zevent.Lib.Bencode
import Zevent.Libbt.Benc
import Zevent.Libbt.BencLookup

namespace Zevent.Libbt.BitTornado

open Bencode CString Numerals

/-! ## Python -/

/-- What is raised: `IndexError`, `KeyError` and `ValueError`, between which `bdecode` makes no
difference, or the `RuntimeError` of a recursion that is too deep. -/
inductive Raised
  | valueError
  | tooDeep
deriving DecidableEq

/-- `x[f]`. -/
def index (x : List UInt8) (f : ℤ) : Except Raised UInt8 :=
  let place := if f < 0 then f + x.length else f
  if place < 0 then .error .valueError
  else
    match x[place.toNat]? with
    | some c => .ok c
    | none => .error .valueError

/-- Where a slice has its end, for the index `f`. -/
def sliceEnd (x : List UInt8) (f : ℤ) : ℕ :=
  min (if f < 0 then f + x.length else f).toNat x.length

/-- `x[f:g]`. -/
def slice (x : List UInt8) (f g : ℤ) : List UInt8 := (x.take (sliceEnd x g)).drop (sliceEnd x f)

/-- `x.index(c, f)`. -/
def find (x : List UInt8) (c : UInt8) (f : ℤ) : Except Raised ℤ :=
  match (x.drop (sliceEnd x f)).idxOf? c with
  | some i => .ok (sliceEnd x f + i)
  | none => .error .valueError

/-- A sign and digits. -/
def signed (s : List UInt8) : Option ℤ :=
  let (neg, digits) := takeSign s
  if digits ≠ [] ∧ digits.all isDigit then
    some (if neg then -(decimalValue digits : ℤ) else decimalValue digits)
  else none

/-- The text without blanks on both sides. -/
def strip (s : List UInt8) : List UInt8 := (s.dropWhile isSpace).rdropWhile isSpace

/-- The text without an `L` at its end. -/
def withoutL (s : List UInt8) : List UInt8 :=
  if s.getLast? = some 76 ∨ s.getLast? = some 108 then s.dropLast else s

/-- `int(s)`, and `long(s)` where that fails. -/
def toInt (s : List UInt8) : Except Raised ℤ :=
  match signed (strip s) with
  | some n => .ok n
  | none =>
      match signed (withoutL (strip s)) with
      | some n => .ok n
      | none => .error .valueError

/-! ## The decoder -/

/-- What `decode_int` raises a `ValueError` for, once it has the number `x[f:newf]`. -/
def zeroInFront (x : List UInt8) (f newf : ℤ) : Except Raised Bool := do
  let c ← index x f
  if c = 45 then (index x (f + 1)).map (· == 48) else pure (c == 48 && newf != f + 1)

/-- `decode_int`. -/
def decodeInt (x : List UInt8) (f : ℤ) : Except Raised (Tree .value × ℤ) := do
  let f := f + 1
  let newf ← find x 101 f
  let n ← toInt (slice x f newf)
  let bad ← zeroInFront x f newf
  if bad then .error .valueError else pure (.int n, newf + 1)

/-- `decode_string`. -/
def decodeString (x : List UInt8) (f : ℤ) : Except Raised (List UInt8 × ℤ) := do
  let colon ← find x 58 f
  let n ← toInt (slice x f colon)
  let c ← index x f
  if c = 48 ∧ colon ≠ f + 1 then .error .valueError
  else pure (slice x (colon + 1) (colon + 1 + n), colon + 1 + n)

/-- `lastkey >= k`; `None` is smaller than every string. -/
def notBefore (lastkey : Option (List UInt8)) (k : List UInt8) : Bool :=
  match lastkey with
  | some l => rank k ≤ rank l
  | none => false

mutual

/-- `decode_func[x[f]](x, f)`. -/
def decodeFunc : ℕ → List UInt8 → ℤ → Except Raised (Tree .value × ℤ)
  | 0, _, _ => .error .tooDeep
  | fuel + 1, x, f => do
      let c ← index x f
      if c = 108 then
        let (r, f) ← decodeList fuel x (f + 1)
        pure (.list r, f)
      else if c = 100 then
        let (r, f) ← decodeDict fuel x (f + 1) none
        pure (.dict r, f)
      else if c = 105 then decodeInt x f
      else if isDigit c then
        let (s, f) ← decodeString x f
        pure (.str s, f)
      else .error .valueError

/-- The loop of `decode_list`. -/
def decodeList : ℕ → List UInt8 → ℤ → Except Raised (Tree .values × ℤ)
  | 0, _, _ => .error .tooDeep
  | fuel + 1, x, f => do
      let c ← index x f
      if c = 101 then pure (.nil, f + 1)
      else
        let (v, f) ← decodeFunc fuel x f
        let (r, f) ← decodeList fuel x f
        pure (.cons v r, f)

/-- The loop of `decode_dict`. -/
def decodeDict : ℕ → List UInt8 → ℤ → Option (List UInt8) →
    Except Raised (Tree .entries × ℤ)
  | 0, _, _, _ => .error .tooDeep
  | fuel + 1, x, f, lastkey => do
      let c ← index x f
      if c = 101 then pure (.empty, f + 1)
      else
        let (k, f) ← decodeString x f
        if notBefore lastkey k then .error .valueError
        else
          let (v, f) ← decodeFunc fuel x f
          let (r, f) ← decodeDict fuel x f (some k)
          pure (.entry k v r, f)

end

/-- `bdecode`. -/
def bdecode (fuel : ℕ) (x : List UInt8) (sloppy : Bool) : Except Raised (Tree .value) := do
  let (r, l) ← decodeFunc fuel x 0
  if !sloppy && l != x.length then .error .valueError else pure r

/-! ## The encoder -/

/-- `encode_int`. -/
def encodeInt (n : ℤ) : List UInt8 := 105 :: (decimal n ++ [101])

/-- `encode_string`. -/
def encodeString (s : List UInt8) : List UInt8 := natDecimal s.length ++ 58 :: s

/-- What is written for a tree; for entries, the keys with what is written for their values. -/
abbrev Output : Category → Type
  | .entries => List (List UInt8 × List UInt8)
  | _ => List UInt8

/-- `encode_func[type(x)](x, r)`, with `encode_list` and `encode_dict`.  The items are sorted by
their keys: no key is there twice. -/
def encodeFunc : {c : Category} → Tree c → Output c
  | _, .int n => encodeInt n
  | _, .str s => encodeString s
  | _, .list vs => 108 :: (encodeFunc vs ++ [101])
  | _, .dict es =>
      let ilist := (encodeFunc es).insertionSort fun a b => rank a.1 ≤ rank b.1
      100 :: (ilist.flatMap (fun item => encodeString item.1 ++ item.2) ++ [101])
  | _, .nil => ([] : List UInt8)
  | _, .cons v vs => (encodeFunc v ++ encodeFunc vs : List UInt8)
  | _, .empty => []
  | _, .entry k v es => (k, encodeFunc v) :: encodeFunc es

/-- `bencode`. -/
def bencode (v : Tree .value) : List UInt8 := encodeFunc v

/-! ## What is written -/

/-- The keys of the entries with the texts of their values. -/
def pairs : {c : Category} → Tree c → List (List UInt8 × List UInt8)
  | _, .entry k v es => (k, encode v) :: pairs es
  | _, _ => []

theorem encode_entries : ∀ es : Tree .entries,
    encode es = (pairs es).flatMap fun item => encodeString item.1 ++ item.2
  | .empty => rfl
  | .entry k v es => by
      rw [encode, encode_entries es, pairs, List.flatMap_cons]
      exact (List.append_assoc _ _ _).symm

/-- An entry is inserted in the order of the keys. -/
theorem pairs_insertEntry (k : List UInt8) (v : Tree .value) : ∀ es : Tree .entries,
    pairs (insertEntry k v es)
      = (pairs es).orderedInsert (fun a b => rank a.1 ≤ rank b.1) (k, encode v)
  | .empty => rfl
  | .entry l w es => by
      rw [insertEntry, pairs, List.orderedInsert_cons]
      split_ifs
      · rfl
      · rw [pairs, pairs_insertEntry k v es]

/-- What is written for the tree. -/
def Encoded : {c : Category} → Tree c → Prop
  | .value, v => encodeFunc v = encode v.normal
  | .values, vs => encodeFunc vs = encode vs.normal
  | .entries, es => (encodeFunc es).insertionSort (fun a b => rank a.1 ≤ rank b.1)
      = pairs es.normal

/-- `bencode` is the encoding, by induction on the value. -/
theorem encoded {c : Category} (t : Tree c) : Encoded t := by
  induction t with
  | int n => rfl
  | str s => rfl
  | list vs ih =>
      show 108 :: (encodeFunc vs ++ [101]) = 108 :: (encode vs.normal ++ [101])
      rw [show encodeFunc vs = encode vs.normal from ih]
  | dict es ih =>
      have ih' : (encodeFunc es).insertionSort (fun a b => rank a.1 ≤ rank b.1)
        = pairs es.normal := ih
      show 100 :: (((encodeFunc es).insertionSort fun a b => rank a.1 ≤ rank b.1).flatMap
        (fun item => encodeString item.1 ++ item.2) ++ [101]) = 100 :: (encode es.normal ++ [101])
      rw [ih', encode_entries]
  | nil => rfl
  | cons v vs ihv ihvs =>
      show encodeFunc v ++ encodeFunc vs = encode v.normal ++ encode vs.normal
      rw [show encodeFunc v = encode v.normal from ihv,
        show encodeFunc vs = encode vs.normal from ihvs]
  | empty => rfl
  | entry k v es ihv ihes =>
      have ihes' : (encodeFunc es).insertionSort (fun a b => rank a.1 ≤ rank b.1)
        = pairs es.normal := ihes
      have ihv' : encodeFunc v = encode v.normal := ihv
      show ((k, encodeFunc v) :: encodeFunc es).insertionSort (fun a b => rank a.1 ≤ rank b.1)
        = pairs (insertEntry k v.normal es.normal)
      rw [List.insertionSort_cons, ihes', ihv', pairs_insertEntry]

/-- **The text of the tree with its dictionaries in order.** -/
theorem bencode_eq (v : Tree .value) : bencode v = encode v.normal := encoded v

/-! ## Reading texts -/

theorem ok_bind {α β : Type} (a : α) (g : α → Except Raised β) : (Except.ok a >>= g) = g a := rfl

theorem index_append {x p q : List UInt8} {c : UInt8} {f : ℤ} (hx : x = p ++ c :: q)
    (hf : f = p.length) : index x f = .ok c := by
  subst hx hf
  have hplace : (if (p.length : ℤ) < 0 then (p.length : ℤ) + (p ++ c :: q).length
    else p.length) = p.length := if_neg (by omega)
  rw [index, hplace, if_neg (by omega), Int.toNat_natCast, List.getElem?_append_right le_rfl,
    Nat.sub_self]
  rfl

theorem sliceEnd_of_le {x : List UInt8} {f : ℤ} {n : ℕ} (hf : f = n) (hn : n ≤ x.length) :
    sliceEnd x f = n := by
  subst hf
  rw [sliceEnd, if_neg (by omega), Int.toNat_natCast, min_eq_left hn]

/-- The bytes between two places. -/
theorem slice_append {x p s q : List UInt8} {f g : ℤ} (hx : x = p ++ (s ++ q))
    (hf : f = p.length) (hg : g = f + s.length) : slice x f g = s := by
  have hlen : x.length = p.length + (s.length + q.length) := by simp [hx]
  rw [slice, sliceEnd_of_le hf (by omega),
    sliceEnd_of_le (n := p.length + s.length) (by omega) (by omega), List.drop_take,
    Nat.add_sub_cancel_left, hx, List.drop_left, List.take_left]

theorem find_append {x p s q : List UInt8} {c : UInt8} {f : ℤ}
    (hx : x = p ++ (s ++ c :: q)) (hf : f = p.length) (hc : c ∉ s) :
    find x c f = .ok (f + s.length) := by
  have hidx : (s ++ c :: q).idxOf? c = some s.length := by
    rw [List.idxOf?_eq_some_iff]
    refine ⟨by simp, by simp, fun j hj => ?_⟩
    rw [List.getElem_append_left hj]
    exact fun h => hc (h ▸ List.getElem_mem hj)
  have hlen : x.length = p.length + (s.length + (q.length + 1)) := by simp [hx]
  rw [find, sliceEnd_of_le hf (by omega), hx, List.drop_left, hidx, hf]

/-! ## Reading numbers and strings -/

theorem signed_decimal (n : ℤ) : signed (decimal n) = some n := by
  have hdigits : ∀ m : ℕ, natDecimal m ≠ [] ∧ (natDecimal m).all isDigit := fun m =>
    ⟨natDecimal_ne_nil m, List.all_eq_true.mpr (isDigit_natDecimal m)⟩
  rw [decimal]
  split_ifs with hneg
  · rw [signed, takeSign, if_pos rfl]
    dsimp only
    rw [if_pos (hdigits _), if_pos rfl, decimalValue_natDecimal]
    congr 1
    omega
  · obtain ⟨c, r, hcr⟩ := List.exists_cons_of_ne_nil (natDecimal_ne_nil n.natAbs)
    have hc := isDigit_natDecimal n.natAbs c (by rw [hcr]; exact List.mem_cons_self)
    have hsign : takeSign (natDecimal n.natAbs) = (false, natDecimal n.natAbs) := by
      have h45 : c ≠ 45 := by
        rintro rfl
        exact absurd hc (by decide)
      have h43 : c ≠ 43 := by
        rintro rfl
        exact absurd hc (by decide)
      rw [hcr, takeSign, if_neg h45, if_neg h43]
    rw [signed, hsign]
    dsimp only
    rw [if_pos (hdigits _), if_neg Bool.false_ne_true, decimalValue_natDecimal]
    congr 1
    omega

/-- A number is a sign and digits. -/
theorem sign_or_digit {n : ℤ} {c : UInt8} (hc : c ∈ decimal n) : c = 45 ∨ isDigit c = true := by
  rw [decimal] at hc
  split_ifs at hc
  · exact (List.mem_cons.mp hc).imp_right (isDigit_natDecimal _ c)
  · exact .inr (isDigit_natDecimal _ c hc)

theorem not_isSpace_decimal {n : ℤ} {c : UInt8} (hc : c ∈ decimal n) : ¬ isSpace c = true := by
  rcases sign_or_digit hc with rfl | hdigit
  · decide
  · rw [isSpace, Bool.or_eq_true, beq_iff_eq, Bool.and_eq_true, decide_eq_true_iff,
      decide_eq_true_iff, UInt8.le_iff_toNat_le, UInt8.le_iff_toNat_le]
    rw [isDigit, Bool.and_eq_true, decide_eq_true_iff, decide_eq_true_iff, UInt8.le_iff_toNat_le,
      UInt8.le_iff_toNat_le] at hdigit
    have hlow : 48 ≤ c.toNat := hdigit.1
    rintro (rfl | ⟨-, hhigh⟩)
    · exact absurd hlow (by decide)
    · have hhigh' : c.toNat ≤ 13 := hhigh
      omega

/-- The only number that begins with a zero is 0, and none begins with `-0`. -/
theorem decimal_front (n : ℤ) :
    (∃ c r, decimal n = 45 :: c :: r ∧ c ≠ 48) ∨ decimal n = [48] ∨
      ∃ c r, decimal n = c :: r ∧ c ≠ 45 ∧ c ≠ 48 := by
  rw [decimal]
  split_ifs with hneg
  · obtain ⟨c, r, hcr, hc⟩ := natDecimal_head (n := n.natAbs) (by omega)
    exact .inl ⟨c, r, by rw [hcr], hc⟩
  · by_cases hzero : n.natAbs = 0
    · exact .inr (.inl (by rw [hzero]; rfl))
    · obtain ⟨c, r, hcr, hc⟩ := natDecimal_head hzero
      have hdigit := isDigit_natDecimal n.natAbs c (by rw [hcr]; exact List.mem_cons_self)
      refine .inr (.inr ⟨c, r, hcr, ?_, hc⟩)
      rintro rfl
      exact absurd hdigit (by decide)

/-- `int` reads a decimal. -/
theorem toInt_decimal (n : ℤ) : toInt (decimal n) = .ok n := by
  have hstrip : strip (decimal n) = decimal n := by
    have hfront : (decimal n).dropWhile isSpace = decimal n :=
      List.dropWhile_eq_self_iff.mpr fun hne => not_isSpace_decimal (List.getElem_mem hne)
    rw [strip, hfront, List.rdropWhile_eq_self_iff]
    exact fun hne => not_isSpace_decimal (List.getLast_mem hne)
  rw [toInt, hstrip, signed_decimal]

/-- A number is read back wherever it stands. -/
theorem decodeInt_reads {x pre post : List UInt8} {n f : ℤ}
    (hx : x = pre ++ (encode (.int n) ++ post)) (hf : f = pre.length) :
    decodeInt x f = .ok (.int n, f + (encode (.int n)).length) := by
  have hx₁ : x = pre ++ [105] ++ (decimal n ++ 101 :: post) := by rw [hx, encode]; simp
  have hf₁ : f + 1 = ((pre ++ [105]).length : ℕ) := by simp [hf]
  have he : (101 : UInt8) ∉ decimal n := by
    intro hmem
    rcases sign_or_digit hmem with h | h
    · exact absurd h (by decide)
    · exact absurd h (by decide)
  have hfind := find_append hx₁ hf₁ he
  have hslice := slice_append hx₁ hf₁ rfl
  have hlen : (f + 1 + (decimal n).length + 1 : ℤ) = f + (encode (.int n)).length := by
    rw [encode, List.length_cons, List.length_append, List.length_singleton]
    push_cast
    ring
  -- the first byte of the number, and the second one behind a sign
  have hindex : ∀ {c : UInt8} {r : List UInt8}, decimal n = c :: r → index x (f + 1) = .ok c := by
    intro c r hcr
    refine index_append (p := pre ++ [105]) (q := r ++ 101 :: post) ?_ hf₁
    rw [hx₁, hcr, List.cons_append]
  have hfront : zeroInFront x (f + 1) (f + 1 + (decimal n).length) = .ok false := by
    rw [zeroInFront]
    rcases decimal_front n with ⟨c, r, hcr, hc⟩ | hcr | ⟨c, r, hcr, h45, h48⟩
    · have hindex₂ : index x (f + 1 + 1) = .ok c := by
        refine index_append (p := pre ++ [105, 45]) (q := r ++ 101 :: post) ?_ ?_
        · rw [hx₁, hcr]
          simp
        · rw [hf, List.length_append, List.length_cons, List.length_singleton]
          push_cast
          ring
      rw [hindex hcr, ok_bind, if_pos rfl, hindex₂, Except.map, beq_eq_false_iff_ne.mpr hc]
    · rw [hindex hcr, ok_bind, if_neg (by decide), hcr, List.length_singleton, Nat.cast_one,
        bne_self_eq_false, Bool.and_false]
      rfl
    · rw [hindex hcr, ok_bind, if_neg h45, beq_eq_false_iff_ne.mpr h48, Bool.false_and]
      rfl
  rw [decodeInt, hfind, ok_bind, hslice, toInt_decimal, ok_bind, hfront, ok_bind,
    if_neg Bool.false_ne_true, hlen]
  rfl

theorem decodeString_reads {x s pre post : List UInt8} {f : ℤ}
    (hx : x = pre ++ (encodeString s ++ post)) (hf : f = pre.length) :
    decodeString x f = .ok (s, f + (encodeString s).length) := by
  have hx₁ : x = pre ++ (natDecimal s.length ++ 58 :: (s ++ post)) := by
    rw [hx, encodeString]
    simp
  have hcolon : (58 : UInt8) ∉ natDecimal s.length := fun hmem =>
    absurd (isDigit_natDecimal _ 58 hmem) (by decide)
  have hfind := find_append hx₁ hf hcolon
  have hslice := slice_append hx₁ hf rfl
  have hnum : toInt (natDecimal s.length) = .ok (s.length : ℤ) := by
    rw [← decimal_natCast, toInt_decimal]
  have hx₂ : x = pre ++ natDecimal s.length ++ [58] ++ (s ++ post) := by rw [hx₁]; simp
  have hf₂ : f + (natDecimal s.length).length + 1
      = ((pre ++ natDecimal s.length ++ [58]).length : ℕ) := by
    rw [hf, List.length_append, List.length_append, List.length_singleton]
    push_cast
    ring
  have hbytes := slice_append hx₂ hf₂ rfl
  have hlen : f + (natDecimal s.length).length + 1 + s.length = f + (encodeString s).length := by
    rw [encodeString, List.length_append, List.length_cons]
    push_cast
    ring
  have hfront : ∃ c, index x f = .ok c ∧
      ¬ (c = 48 ∧ f + (natDecimal s.length).length ≠ f + 1) := by
    obtain ⟨c, r, hcr⟩ := List.exists_cons_of_ne_nil (natDecimal_ne_nil s.length)
    refine ⟨c, index_append (by rw [hx₁, hcr, List.cons_append]) hf, ?_⟩
    rintro ⟨rfl, hne⟩
    by_cases hzero : s.length = 0
    · rw [hzero] at hne
      exact hne rfl
    · obtain ⟨d, t, hdt, hd⟩ := natDecimal_head hzero
      rw [hdt, List.cons.injEq] at hcr
      exact hd hcr.1
  obtain ⟨c, hc, hgood⟩ := hfront
  rw [decodeString, hfind, ok_bind, hslice, hnum, ok_bind, hc, ok_bind, if_neg hgood, hbytes, hlen]
  rfl

/-! ## Reading trees -/

/-- The tree is read where its text is. -/
def Decoded : {c : Category} → Tree c → Prop
  | .value, v => ∀ (x pre post : List UInt8) (f : ℤ) (fuel : ℕ),
      x = pre ++ (encode v ++ post) → f = pre.length → 2 * (encode v).length ≤ fuel →
      decodeFunc fuel x f = .ok (v, f + (encode v).length)
  | .values, vs => ∀ (x pre post : List UInt8) (f : ℤ) (fuel : ℕ),
      x = pre ++ (encode vs ++ 101 :: post) → f = pre.length → 2 * (encode vs).length + 1 ≤ fuel →
      decodeList fuel x f = .ok (vs, f + (encode vs).length + 1)
  | .entries, es => ∀ (x pre post : List UInt8) (f : ℤ) (fuel : ℕ) (lastkey : Option (List UInt8)),
      x = pre ++ (encode es ++ 101 :: post) → f = pre.length → 2 * (encode es).length + 1 ≤ fuel →
      (∀ l, lastkey = some l → ∀ k ∈ es.keys, rank l < rank k) →
      decodeDict fuel x f lastkey = .ok (es, f + (encode es).length + 1)

/-- The first byte of a value is where the value is. -/
theorem index_value {v : Tree .value} {x pre post : List UInt8} {f : ℤ}
    (hx : x = pre ++ (encode v ++ post)) (hf : f = pre.length) :
    ∃ c, index x f = .ok c ∧ c ≠ 101 := by
  obtain ⟨c, y, hcy, hc⟩ := (spells_encode v).head_ne
  exact ⟨c, index_append (by rw [hx, hcy, List.cons_append]) hf, hc⟩

/-- `bdecode` reads every tree with its keys in order back, by induction on it. -/
theorem decoded {c : Category} (t : Tree c) (h : t.Increasing) : Decoded t := by
  induction t with
  | int n =>
      intro x pre post f fuel hx hf hfuel
      obtain ⟨fuel, rfl⟩ : ∃ k, fuel = k + 1 := ⟨fuel - 1, by
        rw [encode, List.length_cons] at hfuel
        omega⟩
      have hindex : index x f = .ok 105 := index_append (by rw [hx, encode, List.cons_append]) hf
      rw [decodeFunc, hindex, ok_bind, if_neg (by decide), if_neg (by decide), if_pos rfl]
      exact decodeInt_reads hx hf
  | str s =>
      intro x pre post f fuel hx hf hfuel
      obtain ⟨c, y, hcy, hc⟩ := SpellsStr.head (spellsStr_encode s)
      obtain ⟨fuel, rfl⟩ : ∃ k, fuel = k + 1 := ⟨fuel - 1, by
        have hpos := (spellsStr_encode s).length_pos
        rw [encode] at hfuel
        omega⟩
      have hindex : index x f = .ok c := index_append (by rw [hx, encode, hcy, List.cons_append]) hf
      have hne : ∀ m : UInt8, isDigit m = false → c ≠ m := by
        rintro m hm rfl
        rw [hm] at hc
        cases hc
      rw [decodeFunc, hindex, ok_bind, if_neg (hne 108 (by decide)), if_neg (hne 100 (by decide)),
        if_neg (hne 105 (by decide)), if_pos hc, decodeString_reads hx hf]
      rfl
  | list vs ih =>
      intro x pre post f fuel hx hf hfuel
      rw [encode, List.length_cons, List.length_append, List.length_singleton] at hfuel
      obtain ⟨fuel, rfl⟩ : ∃ k, fuel = k + 1 := ⟨fuel - 1, by omega⟩
      have hindex : index x f = .ok 108 := index_append (by rw [hx, encode, List.cons_append]) hf
      have hread := ih h x (pre ++ [108]) post (f + 1) fuel (by rw [hx, encode]; simp)
        (by rw [hf]; simp) (by omega)
      rw [decodeFunc, hindex, ok_bind, if_pos rfl, hread, ok_bind]
      show Except.ok _ = Except.ok _
      congr 2
      rw [encode, List.length_cons, List.length_append, List.length_singleton]
      push_cast
      ring
  | dict es ih =>
      intro x pre post f fuel hx hf hfuel
      rw [encode, List.length_cons, List.length_append, List.length_singleton] at hfuel
      obtain ⟨fuel, rfl⟩ : ∃ k, fuel = k + 1 := ⟨fuel - 1, by omega⟩
      have hindex : index x f = .ok 100 := index_append (by rw [hx, encode, List.cons_append]) hf
      have hread := ih h x (pre ++ [100]) post (f + 1) fuel none (by rw [hx, encode]; simp)
        (by rw [hf]; simp) (by omega) (fun l hl => by cases hl)
      rw [decodeFunc, hindex, ok_bind, if_neg (by decide), if_pos rfl, hread, ok_bind]
      show Except.ok _ = Except.ok _
      congr 2
      rw [encode, List.length_cons, List.length_append, List.length_singleton]
      push_cast
      ring
  | nil =>
      intro x pre post f fuel hx hf hfuel
      obtain ⟨fuel, rfl⟩ : ∃ k, fuel = k + 1 := ⟨fuel - 1, by omega⟩
      rw [decodeList, index_append hx hf, ok_bind, if_pos rfl]
      exact congrArg _ (congrArg _ (by rw [encode]; simp))
  | cons v vs ihv ihvs =>
      intro x pre post f fuel hx hf hfuel
      have hpos := (spells_encode v).length_pos
      rw [encode, List.length_append] at hfuel
      obtain ⟨fuel, rfl⟩ : ∃ k, fuel = k + 1 := ⟨fuel - 1, by omega⟩
      have hx₁ : x = pre ++ (encode v ++ (encode vs ++ 101 :: post)) := by rw [hx, encode]; simp
      obtain ⟨c, hindex, hc⟩ := index_value hx₁ hf
      have hvalue := ihv h.1 x pre _ f fuel hx₁ hf (by omega)
      have hrest := ihvs h.2 x (pre ++ encode v) post (f + (encode v).length) fuel
        (by rw [hx₁, List.append_assoc]) (by rw [hf, List.length_append, Nat.cast_add]) (by omega)
      rw [decodeList, hindex, ok_bind, if_neg hc, hvalue, ok_bind]
      dsimp only
      rw [hrest, ok_bind]
      show Except.ok _ = Except.ok _
      congr 2
      rw [encode, List.length_append]
      push_cast
      ring
  | empty =>
      intro x pre post f fuel lastkey hx hf hfuel _
      obtain ⟨fuel, rfl⟩ : ∃ k, fuel = k + 1 := ⟨fuel - 1, by omega⟩
      rw [decodeDict, index_append hx hf, ok_bind, if_pos rfl]
      exact congrArg _ (congrArg _ (by rw [encode]; simp))
  | entry k v es ihv ihes =>
      intro x pre post f fuel lastkey hx hf hfuel hlast
      have hentry : encode (.entry k v es) = encodeString k ++ (encode v ++ encode es) := rfl
      have hpos := (spells_encode v).length_pos
      rw [hentry, List.length_append, List.length_append] at hfuel
      obtain ⟨fuel, rfl⟩ : ∃ k, fuel = k + 1 := ⟨fuel - 1, by omega⟩
      have hx₁ : x = pre ++ (encode (.str k) ++ (encode v ++ (encode es ++ 101 :: post))) := by
        rw [hx, hentry, List.append_assoc, List.append_assoc]
        rfl
      obtain ⟨c, hindex, hc⟩ := index_value hx₁ hf
      have hkey : decodeString x f = .ok (k, f + (encodeString k).length) :=
        decodeString_reads hx₁ hf
      have hbefore : notBefore lastkey k = false := by
        cases hlk : lastkey with
        | none => rfl
        | some l =>
            rw [notBefore, decide_eq_false_iff_not, not_le]
            exact hlast l hlk k List.mem_cons_self
      have hvalue := ihv h.2.1 x (pre ++ encodeString k) _ (f + (encodeString k).length) fuel
        (by rw [hx₁, List.append_assoc]; rfl) (by rw [hf, List.length_append, Nat.cast_add])
        (by omega)
      have hrest := ihes h.2.2 x (pre ++ encodeString k ++ encode v) post
        (f + (encodeString k).length + (encode v).length) fuel (some k)
        (by rw [hx₁, List.append_assoc, List.append_assoc]; rfl)
        (by rw [hf, List.length_append, List.length_append, Nat.cast_add, Nat.cast_add])
        (by omega) (by rintro l ⟨⟩; exact h.1)
      rw [decodeDict, hindex, ok_bind, if_neg hc, hkey, ok_bind]
      dsimp only
      rw [hbefore, if_neg Bool.false_ne_true, hvalue, ok_bind]
      dsimp only
      rw [hrest, ok_bind]
      show Except.ok _ = Except.ok _
      congr 2
      rw [hentry, List.length_append, List.length_append]
      push_cast
      ring

/-- **What is written is read back.**  Whatever the value, `bdecode` gives it back from the text
that `bencode` makes of it, with the entries of its dictionaries in the order of their keys. -/
theorem bdecode_bencode {v : Tree .value} (h : v.Distinct) {fuel : ℕ}
    (hfuel : 2 * (bencode v).length ≤ fuel) (sloppy : Bool) :
    bdecode fuel (bencode v) sloppy = .ok v.normal := by
  rw [bencode_eq] at hfuel ⊢
  have hread := decoded v.normal (increasing_normal h) (encode v.normal) [] [] 0 fuel (by simp) rfl
    hfuel
  rw [bdecode, hread, ok_bind]
  dsimp only
  rw [Int.zero_add, bne_self_eq_false, Bool.and_false, if_neg Bool.false_ne_true]
  rfl

/-- Items whose keys are not in order. -/
def sampleItems : Tree .entries :=
  .entry (ascii "b") (.int (-12)) (.entry (ascii "a") (.list (.cons (.str []) .nil)) .empty)

theorem distinct_sampleItems : sampleItems.Distinct :=
  ⟨by decide, trivial, by decide, ⟨trivial, trivial⟩, trivial⟩

/-- They are read back in order. -/
theorem bdecode_bencode_sample :
    bdecode 80 (bencode (.dict sampleItems)) false
      = .ok (.dict (.entry (ascii "a") (.list (.cons (.str []) .nil))
        (.entry (ascii "b") (.int (-12)) .empty))) :=
  bdecode_bencode (v := .dict sampleItems) distinct_sampleItems (by decide) false

/-- **A length may be negative**, and the value of the key is then looked for in front of it:
whatever comes behind `d-4:`, the dictionary is the value of its own first key, and `bdecode`
ends in the `RuntimeError` that it does not catch. -/
theorem bdecode_too_deep (r : List UInt8) (fuel : ℕ) (sloppy : Bool) :
    bdecode fuel (ascii "d-4:" ++ r) sloppy = .error .tooDeep := by
  generalize hx : ascii "d-4:" ++ r = x
  have hx' : x = 100 :: 45 :: 52 :: 58 :: r := hx.symm
  have hdict : index x 0 = .ok 100 := index_append (p := []) hx' rfl
  have hsign : index x 1 = .ok 45 := index_append (p := [100]) hx' rfl
  have hfind : find x 58 1 = .ok 3 :=
    find_append (p := [100]) (s := [45, 52]) (q := r) hx' rfl (by decide)
  have hnum : toInt (slice x 1 3) = .ok (-4) := by
    have hdigits : slice x 1 3 = [45, 52] :=
      slice_append (p := [100]) (s := [45, 52]) (q := 58 :: r) hx' rfl rfl
    rw [hdigits]
    decide
  have hkey : decodeString x 1 = .ok ([], 0) := by
    have hempty : slice x (3 + 1) (3 + 1 + -4) = [] := by
      have hend : sliceEnd x (3 + 1 + -4) = 0 := sliceEnd_of_le (by norm_num) (Nat.zero_le _)
      rw [slice, hend, List.take_zero, List.drop_nil]
    rw [decodeString, hfind, ok_bind, hnum, ok_bind, hsign, ok_bind, if_neg (by decide), hempty]
    rfl
  have hloop : decodeFunc fuel x 0 = .error .tooDeep ∧
      decodeDict fuel x 1 none = .error .tooDeep := by
    induction fuel with
    | zero => exact ⟨rfl, rfl⟩
    | succ fuel ih =>
        constructor
        · rw [decodeFunc, hdict, ok_bind, if_neg (by decide), if_pos rfl, Int.zero_add, ih.2]
          rfl
        · rw [decodeDict, hsign, ok_bind, if_neg (by decide), hkey, ok_bind]
          dsimp only
          rw [notBefore, if_neg Bool.false_ne_true, ih.1]
          rfl
  rw [bdecode, hloop.1]
  rfl

/-- **`btpd` reads what is written**: `benc_validate` accepts it, and `benc_dget_any` finds the
value of every key, and of no other. -/
theorem btpd_reads_bencode {es : Tree .entries} (h : es.Distinct)
    (hlen : (bencode (.dict es)).length < 2 ^ 63) (r : List UInt8) (key : Str) :
    bencValidate (bencode (.dict es)) = some 0 ∧
      Finds ((es.find key.val).map Tree.normal) (bencode (.dict es)) r
        (bencDgetAny (bencode (.dict es) ++ r) key) := by
  have hspells : Spells (.dict es.normal) (bencode (.dict es)) := by
    rw [bencode_eq]
    exact spells_encode _
  refine ⟨bencValidate_spells hspells hlen, ?_⟩
  rw [← find_normal h]
  exact benc_dget_finds hspells hlen r key

/-- A number is found where the writer has put it. -/
theorem btpd_reads_bencode_sample :
    bencValidate (bencode (.dict sampleItems)) = some 0 ∧
      Finds (some (.int (-12))) (bencode (.dict sampleItems)) [0]
        (bencDgetAny (bencode (.dict sampleItems) ++ [0]) ⟨ascii "b", by decide⟩) :=
  btpd_reads_bencode distinct_sampleItems (by decide) [0] ⟨ascii "b", by decide⟩

end Zevent.Libbt.BitTornado

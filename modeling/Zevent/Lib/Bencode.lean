/-
# Bencoded texts

A bencoded text is a number `i…e`, a string with its length and a colon in front, a list
`l…e` of such texts, or a dictionary `d…e` of strings and texts in turn.

* `Tree` is what a text stands for: a value, the values of a list, or the entries of a
  dictionary, in one family of types, so that one induction goes through all three.
* `Spells t x`: the text `x` stands for `t`.  A number may have zeros in front, and the keys
  of a dictionary are in any order.
* `encode t` is the text without zeros in front; `spells_encode` says that it stands for `t`.
* `Spells.head`: the first byte tells the kind of a value, and is never the `e` that ends lists.
* `Tree.normal` puts the entries of dictionaries in the order of their keys: when no key is
  there twice, `increasing_normal` and `find_normal`.
-/
import Mathlib.Tactic
import Mathlib.Data.List.Lex
import Zevent.Lib.Numerals

namespace Bencode

open Numerals

/-! ## Trees -/

/-- A value, the values of a list, or the entries of a dictionary. -/
inductive Category
  | value
  | values
  | entries

/-- What a text stands for. -/
inductive Tree : Category → Type
  | int (n : ℤ) : Tree .value
  | str (s : List UInt8) : Tree .value
  | list (vs : Tree .values) : Tree .value
  | dict (es : Tree .entries) : Tree .value
  | nil : Tree .values
  | cons (v : Tree .value) (vs : Tree .values) : Tree .values
  | empty : Tree .entries
  | entry (k : List UInt8) (v : Tree .value) (es : Tree .entries) : Tree .entries

/-- The elements of a list; of a dictionary, the keys and the values in turn. -/
def Tree.elems : {c : Category} → Tree c → List (Tree .value)
  | _, .list vs => vs.elems
  | _, .dict es => es.elems
  | _, .cons v vs => v :: vs.elems
  | _, .entry k v es => .str k :: v :: es.elems
  | _, _ => []

/-- The value of the first entry with the key. -/
def Tree.find (key : List UInt8) : {c : Category} → Tree c → Option (Tree .value)
  | _, .dict es => es.find key
  | _, .entry k v es => if k = key then some v else es.find key
  | _, _ => none

/-! ## Texts -/

/-- A number in decimal, perhaps with zeros in front. -/
structure Numeral (ds : List UInt8) : Prop where
  ne_nil : ds ≠ []
  digits : ∀ c ∈ ds, isDigit c = true

/-- A string with its length in front. -/
def SpellsStr (s x : List UInt8) : Prop :=
  ∃ ds, Numeral ds ∧ decimalValue ds = s.length ∧ x = ds ++ 58 :: s

/-- A number with its sign. -/
def SpellsInt (n : ℤ) (x : List UInt8) : Prop :=
  ∃ ds, Numeral ds ∧ (x = ds ∧ n = decimalValue ds ∨ x = 45 :: ds ∧ n = -decimalValue ds)

/-- The text stands for the tree. -/
def Spells : {c : Category} → Tree c → List UInt8 → Prop
  | _, .int n, x => ∃ y, SpellsInt n y ∧ x = 105 :: (y ++ [101])
  | _, .str s, x => SpellsStr s x
  | _, .list vs, x => ∃ y, Spells vs y ∧ x = 108 :: (y ++ [101])
  | _, .dict es, x => ∃ y, Spells es y ∧ x = 100 :: (y ++ [101])
  | _, .nil, x => x = []
  | _, .cons v vs, x => ∃ y z, Spells v y ∧ Spells vs z ∧ x = y ++ z
  | _, .empty, x => x = []
  | _, .entry k v es, x => ∃ y z w, SpellsStr k y ∧ Spells v z ∧ Spells es w ∧ x = y ++ (z ++ w)

/-- The text without zeros in front of numbers. -/
def encode : {c : Category} → Tree c → List UInt8
  | _, .int n => 105 :: (decimal n ++ [101])
  | _, .str s => natDecimal s.length ++ 58 :: s
  | _, .list vs => 108 :: (encode vs ++ [101])
  | _, .dict es => 100 :: (encode es ++ [101])
  | _, .nil => []
  | _, .cons v vs => encode v ++ encode vs
  | _, .empty => []
  | _, .entry k v es => natDecimal k.length ++ 58 :: k ++ (encode v ++ encode es)

/-- The decimal of a number is a numeral. -/
theorem numeral_natDecimal (n : ℕ) : Numeral (natDecimal n) :=
  ⟨natDecimal_ne_nil n, isDigit_natDecimal n⟩

/-- A string with its length in decimal stands for itself. -/
theorem spellsStr_encode (s : List UInt8) : SpellsStr s (natDecimal s.length ++ 58 :: s) :=
  ⟨natDecimal s.length, numeral_natDecimal _, decimalValue_natDecimal _, rfl⟩

theorem spellsInt_decimal (n : ℤ) : SpellsInt n (decimal n) := by
  refine ⟨natDecimal n.natAbs, numeral_natDecimal _, ?_⟩
  rw [decimal, decimalValue_natDecimal]
  split_ifs with hneg
  · exact .inr ⟨rfl, by omega⟩
  · exact .inl ⟨rfl, by omega⟩

/-- **What is encoded stands for the tree.** -/
theorem spells_encode {c : Category} (t : Tree c) : Spells t (encode t) := by
  induction t with
  | int n => exact ⟨_, spellsInt_decimal n, rfl⟩
  | str s => exact spellsStr_encode s
  | list vs ih => exact ⟨_, ih, rfl⟩
  | dict es ih => exact ⟨_, ih, rfl⟩
  | nil => rfl
  | cons v vs ihv ihvs => exact ⟨_, _, ihv, ihvs, rfl⟩
  | empty => rfl
  | entry k v es ihv ihes => exact ⟨_, _, _, spellsStr_encode k, ihv, ihes, rfl⟩

/-! ## The first byte -/

/-- A digit is the first byte of a string, and of nothing else. -/
theorem SpellsStr.head {s x : List UInt8} (h : SpellsStr s x) :
    ∃ c y, x = c :: y ∧ isDigit c = true := by
  obtain ⟨ds, hds, -, rfl⟩ := h
  obtain ⟨c, y, rfl⟩ := List.exists_cons_of_ne_nil hds.ne_nil
  exact ⟨c, y ++ 58 :: s, rfl, hds.digits c List.mem_cons_self⟩

/-- No string is spelled by an empty text. -/
theorem SpellsStr.length_pos {s x : List UInt8} (h : SpellsStr s x) : 0 < x.length := by
  obtain ⟨c, y, rfl, -⟩ := h.head
  exact Nat.succ_pos _

/-- **The kinds of values and their first bytes.** -/
theorem Spells.head {v : Tree .value} {x : List UInt8} (h : Spells v x) :
    ∃ c y, x = c :: y ∧ (c = 105 ∨ c = 108 ∨ c = 100 ∨ isDigit c = true) := by
  cases v with
  | int n =>
      obtain ⟨y, -, rfl⟩ := h
      exact ⟨_, _, rfl, .inl rfl⟩
  | str s =>
      obtain ⟨c, y, hx, hc⟩ := SpellsStr.head h
      exact ⟨c, y, hx, .inr (.inr (.inr hc))⟩
  | list vs =>
      obtain ⟨y, -, rfl⟩ := h
      exact ⟨_, _, rfl, .inr (.inl rfl)⟩
  | dict es =>
      obtain ⟨y, -, rfl⟩ := h
      exact ⟨_, _, rfl, .inr (.inr (.inl rfl))⟩

/-- No value begins with an `e`. -/
theorem Spells.head_ne {v : Tree .value} {x : List UInt8} (h : Spells v x) :
    ∃ c y, x = c :: y ∧ c ≠ 101 := by
  obtain ⟨c, y, rfl, hc⟩ := h.head
  refine ⟨c, y, rfl, ?_⟩
  rintro rfl
  rcases hc with hc | hc | hc | hc
  · exact absurd hc (by decide)
  · exact absurd hc (by decide)
  · exact absurd hc (by decide)
  · exact absurd hc (by decide)

theorem Spells.length_pos {v : Tree .value} {x : List UInt8} (h : Spells v x) : 0 < x.length := by
  obtain ⟨c, y, rfl, -⟩ := h.head
  exact Nat.succ_pos _

/-- A value that begins with a digit is a string. -/
theorem Spells.str_of_digit {v : Tree .value} {c : UInt8} {y : List UInt8}
    (h : Spells v (c :: y)) (hc : isDigit c = true) : ∃ s, v = .str s := by
  have hmark : ∀ m : UInt8, ∀ z, c :: y = m :: z → isDigit m = true := by
    intro m z heq
    rwa [(List.cons.inj heq).1] at hc
  cases v with
  | int n =>
      obtain ⟨z, -, heq⟩ := h
      exact absurd (hmark _ _ heq) (by decide)
  | str s => exact ⟨s, rfl⟩
  | list vs =>
      obtain ⟨z, -, heq⟩ := h
      exact absurd (hmark _ _ heq) (by decide)
  | dict es =>
      obtain ⟨z, -, heq⟩ := h
      exact absurd (hmark _ _ heq) (by decide)

/-! ## Dictionaries in order -/

/-- Where a key is in the order of strings, which is byte for byte. -/
def rank (k : List UInt8) : List ℕ := k.map UInt8.toNat

theorem rank_injective : Function.Injective rank :=
  List.map_injective_iff.mpr fun _ _ => UInt8.toNat_inj.mp

/-- The keys of the entries. -/
def Tree.keys : {c : Category} → Tree c → List (List UInt8)
  | _, .entry k _ es => k :: es.keys
  | _, _ => []

/-- No dictionary has a key twice. -/
def Tree.Distinct : {c : Category} → Tree c → Prop
  | _, .list vs => vs.Distinct
  | _, .dict es => es.Distinct
  | _, .cons v vs => v.Distinct ∧ vs.Distinct
  | _, .entry k v es => k ∉ es.keys ∧ v.Distinct ∧ es.Distinct
  | _, _ => True

/-- The keys of every dictionary are in order. -/
def Tree.Increasing : {c : Category} → Tree c → Prop
  | _, .list vs => vs.Increasing
  | _, .dict es => es.Increasing
  | _, .cons v vs => v.Increasing ∧ vs.Increasing
  | _, .entry k v es => (∀ l ∈ es.keys, rank k < rank l) ∧ v.Increasing ∧ es.Increasing
  | _, _ => True

/-- An entry is put in its place. -/
def insertEntry (k : List UInt8) (v : Tree .value) : {c : Category} → Tree c → Tree c
  | _, .empty => .entry k v .empty
  | _, .entry l w es =>
      if rank k ≤ rank l then .entry k v (.entry l w es) else .entry l w (insertEntry k v es)
  | _, t => t

/-- The same values, with the entries of dictionaries in order. -/
def Tree.normal : {c : Category} → Tree c → Tree c
  | _, .int n => .int n
  | _, .str s => .str s
  | _, .list vs => .list vs.normal
  | _, .dict es => .dict es.normal
  | _, .nil => .nil
  | _, .cons v vs => .cons v.normal vs.normal
  | _, .empty => .empty
  | _, .entry k v es => insertEntry k v.normal es.normal

theorem mem_keys_insert {k l : List UInt8} {v : Tree .value} : ∀ {es : Tree .entries},
    l ∈ (insertEntry k v es).keys ↔ l = k ∨ l ∈ es.keys
  | .empty => List.mem_cons
  | .entry m w es => by
      rw [insertEntry]
      split_ifs
      · exact List.mem_cons
      · rw [Tree.keys, Tree.keys, List.mem_cons, List.mem_cons, mem_keys_insert, or_left_comm]

/-- The order of the entries does not change the keys. -/
theorem mem_keys_normal {l : List UInt8} : ∀ {es : Tree .entries}, l ∈ es.normal.keys ↔ l ∈ es.keys
  | .empty => Iff.rfl
  | .entry k v es => by
      rw [Tree.normal, mem_keys_insert, mem_keys_normal, Tree.keys, List.mem_cons]

/-- An entry with a new key is inserted at its place. -/
theorem increasing_insert {k : List UInt8} {v : Tree .value} (hv : v.Increasing) :
    ∀ {es : Tree .entries}, k ∉ es.keys → es.Increasing → (insertEntry k v es).Increasing
  | .empty, _, _ => ⟨fun l hl => absurd hl List.not_mem_nil, hv, trivial⟩
  | .entry m w es, hk, hes => by
      obtain ⟨hm, hw, hes⟩ := hes
      rw [Tree.keys, List.mem_cons, not_or] at hk
      have hne : rank k ≠ rank m := fun h => hk.1 (rank_injective h)
      rw [insertEntry]
      split_ifs with hle
      · have hlt := lt_of_le_of_ne hle hne
        refine ⟨fun l hl => ?_, hv, hm, hw, hes⟩
        rcases List.mem_cons.mp hl with rfl | hl
        · exact hlt
        · exact hlt.trans (hm l hl)
      · refine ⟨fun l hl => ?_, hw, increasing_insert hv hk.2 hes⟩
        rcases mem_keys_insert.mp hl with rfl | hl
        · exact not_le.mp hle
        · exact hm l hl

/-- **The keys come in order.** -/
theorem increasing_normal {c : Category} {t : Tree c} (h : t.Distinct) : t.normal.Increasing := by
  induction t with
  | int n => exact trivial
  | str s => exact trivial
  | list vs ih => exact ih h
  | dict es ih => exact ih h
  | nil => exact trivial
  | cons v vs ihv ihvs => exact ⟨ihv h.1, ihvs h.2⟩
  | empty => exact trivial
  | entry k v es ihv ihes =>
      exact increasing_insert (ihv h.2.1) (fun hk => h.1 (mem_keys_normal.mp hk)) (ihes h.2.2)

/-- A look-up finds what was inserted, and everything else as before. -/
theorem find_insert {k key : List UInt8} {v : Tree .value} :
    ∀ {es : Tree .entries}, k ∉ es.keys →
      (insertEntry k v es).find key = if k = key then some v else es.find key
  | .empty, _ => rfl
  | .entry m w es, hk => by
      rw [Tree.keys, List.mem_cons, not_or] at hk
      rw [insertEntry]
      split_ifs with hle heq heq
      · exact if_pos heq
      · exact if_neg heq
      · rw [Tree.find, find_insert hk.2, if_neg (fun h => hk.1 (heq.trans h.symm)), if_pos heq]
      · rw [Tree.find, Tree.find, find_insert hk.2, if_neg heq]

/-- **The entries are the same.** -/
theorem find_normal {key : List UInt8} :
    ∀ {es : Tree .entries}, es.Distinct → es.normal.find key = (es.find key).map Tree.normal
  | .empty, _ => rfl
  | .entry k v es, h => by
      obtain ⟨hk, -, hes⟩ := h
      rw [Tree.normal, find_insert fun hmem => hk (mem_keys_normal.mp hmem), Tree.find,
        find_normal hes]
      split_ifs
      · rfl
      · rfl

/-! ## Numerals in front of a mark -/

/-- The digits in front of a byte that is none. -/
theorem Numeral.takeWhile {ds : List UInt8} (h : Numeral ds) {c : UInt8} (hc : isDigit c = false)
    (r : List UInt8) : (ds ++ c :: r).takeWhile isDigit = ds := by
  rw [List.takeWhile_append_of_pos h.digits,
    List.takeWhile_cons_of_neg (by rw [hc]; exact Bool.false_ne_true), List.append_nil]

/-- Behind the digits of a numeral comes the first byte that is none. -/
theorem Numeral.dropWhile {ds : List UInt8} (h : Numeral ds) {c : UInt8} (hc : isDigit c = false)
    (r : List UInt8) : (ds ++ c :: r).dropWhile isDigit = c :: r := by
  rw [List.dropWhile_append_of_pos h.digits,
    List.dropWhile_cons_of_neg (by rw [hc]; exact Bool.false_ne_true)]

/-- No numeral in front of a colon is as big as `bound`. -/
def LengthsBelow (bound : ℕ) (x : List UInt8) : Prop :=
  ∀ pre ds post, x = pre ++ ds ++ 58 :: post → (∀ c ∈ ds, isDigit c = true) →
    decimalValue ds < bound

/-- The numerals of a text are those of its end, too. -/
theorem LengthsBelow.suffix {bound : ℕ} {x y : List UInt8} (h : LengthsBelow bound (x ++ y)) :
    LengthsBelow bound y := by
  rintro pre ds post rfl
  exact h (x ++ pre) ds post (by simp)

theorem decimalValue_lt {ds : List UInt8} (h : ∀ c ∈ ds, isDigit c = true) :
    decimalValue ds < 10 ^ ds.length := by
  induction ds using List.reverseRecOn with
  | nil => exact Nat.one_pos
  | append_singleton ds c ih =>
      have hc := h c (List.mem_append_right _ List.mem_cons_self)
      have hds := ih fun d hd => h d (List.mem_append_left _ hd)
      have hdigit : c.toNat - 48 < 10 := by
        rw [isDigit, Bool.and_eq_true, decide_eq_true_iff, decide_eq_true_iff,
          UInt8.le_iff_toNat_le, UInt8.le_iff_toNat_le] at hc
        have hle : c.toNat ≤ 57 := hc.2
        omega
      rw [decimalValue, List.foldl_append, ← decimalValue, List.length_append, pow_add]
      simp only [List.foldl_cons, List.foldl_nil, List.length_singleton, pow_one]
      omega

/-- A short text has no big numerals. -/
theorem lengthsBelow_of_length_le {k bound : ℕ} {x : List UInt8} (hlen : x.length ≤ k)
    (hbound : 10 ^ k ≤ bound) : LengthsBelow bound x := by
  rintro pre ds post rfl hds
  rw [List.length_append, List.length_append] at hlen
  calc decimalValue ds < 10 ^ ds.length := decimalValue_lt hds
    _ ≤ 10 ^ k := Nat.pow_le_pow_right (by norm_num) (by omega)
    _ ≤ bound := hbound

end Bencode

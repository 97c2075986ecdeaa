/-
# Reading bencoded texts (`libbt/misc/benc.c`)

The functions that walk over a text after `benc_validate` has accepted it, and read numbers,
strings and the entries of dictionaries.  None of them knows where the text ends; a pointer is
the memory from there on.

* `benc_walk_visits`: `benc_first` and `benc_next` go from element to element of a list.
* `benc_dget_finds`: a look-up in a dictionary gives the value of the first entry with the key,
  whatever the order of the entries; `benc_dget_reads` is about numbers and strings.
* `benc_dct_chk_satisfied`: the check of a dictionary, keys behind keys.
-/
import Mathlib.Tactic
import Zevent.Lib.Bencode
import Zevent.Lib.CString
import Zevent.Libbt.Benc

namespace Zevent.Libbt

open Bencode CString Numerals

/-! ## The code -/

/-- `*p == 'e' ? NULL : p`; `none` is a read outside of the memory. -/
def elemOrNull : List UInt8 → Option (Option (List UInt8))
  | [] => none
  | c :: p => some (if c = 101 then none else some (c :: p))

/-- `strtoul(p, &endptr, 10)`, where a digit stands at `p`: the largest number stands for those
that do not fit.  The `unsigned long` is one of 64 bits; the Windows compilers that `libbt.vcproj`
is for have one of 32, where the largest number is `2 ^ 32 - 1`. -/
def strtoul (p : List UInt8) : ℕ × List UInt8 :=
  (min (decimalValue (p.takeWhile isDigit)) (2 ^ 64 - 1), p.dropWhile isDigit)

/-- `benc_isstr`. -/
def bencIsstr (p : List UInt8) : Bool := isDigit (p.headD 0)

/-- `benc_islst`. -/
def bencIslst (p : List UInt8) : Bool := p.head? == some 108 || p.head? == some 100

/-- `benc_isdct`. -/
def bencIsdct (p : List UInt8) : Bool := p.head? == some 100

/-- `benc_isint`. -/
def bencIsint (p : List UInt8) : Bool := p.head? == some 105

/-- `benc_mem`: the length and the bytes; `none` is an assertion that fails, `some none` is
`NULL`.  The pointer `*next` is `elemOrNull` of what is behind the bytes. -/
def bencMem (p : List UInt8) : Option (Option (ℕ × List UInt8)) :=
  if bencIsstr p then
    match strtoul p with
    | (blen, 58 :: bytes) => some (some (blen, bytes))
    | (_, _) => none
  else some none

mutual

/-- `benc_length`. -/
def bencLength : ℕ → List UInt8 → Option ℕ
  | 0, _ => none
  | _ + 1, [] => none
  | fuel + 1, c :: p =>
      if c = 100 ∨ c = 108 then (elemsLength fuel p).map (2 + ·)
      else if c = 105 then
        if 101 ∈ p then some ((p.takeWhile (· != 101)).length + 1 + 1) else none
      else
        match bencMem (c :: p) with
        | some (some (blen, next)) => some ((c :: p).length - next.length + blen)
        | _ => none

/-- The loop of `benc_length` over the elements. -/
def elemsLength : ℕ → List UInt8 → Option ℕ
  | 0, _ => none
  | _ + 1, [] => none
  | fuel + 1, c :: next =>
      if c = 101 then some 0
      else do
        let len ← bencLength fuel (c :: next)
        let rest ← elemsLength fuel ((c :: next).drop len)
        some (len + rest)

end

/-- `benc_first`, behind its assertion. -/
def bencFirst (p : List UInt8) : Option (Option (List UInt8)) :=
  if bencIslst p then elemOrNull p.tail else none

/-- `benc_next`. -/
def bencNext (p : List UInt8) : Option (Option (List UInt8)) :=
  (bencLength (2 * p.length) p).bind fun blen => elemOrNull (p.drop blen)

/-- The loop of `benc_nelems`. -/
def nelemsLoop : ℕ → Option (List UInt8) → Option ℕ
  | 0, _ => none
  | _ + 1, none => some 0
  | fuel + 1, some p => (bencNext p).bind fun p => (nelemsLoop fuel p).map (· + 1)

/-- `benc_nelems`. -/
def bencNelems (p : List UInt8) : Option ℕ :=
  (bencFirst p).bind fun q => nelemsLoop (p.length + 1) q

/-- `strncmp(a, b, n) == 0`. -/
def strncmpEq : ℕ → List UInt8 → List UInt8 → Bool
  | 0, _, _ => true
  | n + 1, c :: a, d :: b => c == d && (c == 0 || strncmpEq n a b)
  | _ + 1, _, _ => false

/-- The loop of `benc_dget_any`. -/
def dgetLoop (key : Str) : ℕ → Option (List UInt8) → Option (Option (List UInt8))
  | 0, _ => none
  | _ + 1, none => some none
  | fuel + 1, some p =>
      if bencIsstr p = false then some none
      else
        match bencMem p with
        | some (some (blen, bstr)) =>
            match elemOrNull (bstr.drop blen) with
            | none => none
            | some p =>
                if strncmpEq blen bstr (key.val ++ [0]) ∧ key.val.length = blen then some p
                else
                  match p with
                  -- `benc_next` of `NULL`
                  | none => none
                  | some p => (bencNext p).bind fun p => dgetLoop key fuel p
        | _ => none

/-- `benc_dget_any`. -/
def bencDgetAny (p : List UInt8) (key : Str) : Option (Option (List UInt8)) :=
  if bencIsdct p then (bencFirst p).bind fun q => dgetLoop key (p.length + 1) q
  else some none

/-- `_strtoi64(p, &endptr, 10)`, where a number stands at `p`, and `endptr`. -/
def strtoi64 (p : List UInt8) : ℤ × List UInt8 :=
  if p.head? = some 45 then
    (max (-(decimalValue (p.tail.takeWhile isDigit) : ℤ)) (-2 ^ 63), p.tail.dropWhile isDigit)
  else (min (decimalValue (p.takeWhile isDigit) : ℤ) (2 ^ 63 - 1), p.dropWhile isDigit)

/-- `benc_int`, without `next`. -/
def bencInt (p : List UInt8) : Option ℤ :=
  if bencIsint p then
    match strtoi64 p.tail with
    | (res, 101 :: _) => some res
    | (_, _) => none
  else some 0

/-- `benc_dget_int`. -/
def bencDgetInt (p : List UInt8) (key : Str) : Option ℤ :=
  (bencDgetAny p key).bind fun q =>
    match q with
    | some q => if bencIsint q then bencInt q else some 0
    | none => some 0

/-- `benc_dget_mem`: the bytes of the string, with its length. -/
def bencDgetMem (p : List UInt8) (key : Str) : Option (Option (ℕ × List UInt8)) :=
  (bencDgetAny p key).bind fun q =>
    match q with
    | some q => if bencIsstr q then bencMem q else some none
    | none => some none

/-- `benc_dget_dct`. -/
def bencDgetDct (p : List UInt8) (key : Str) : Option (Option (List UInt8)) :=
  (bencDgetAny p key).map fun q => q.filter bencIsdct

/-- `enum be_type`. -/
inductive BeType
  | any
  | dct
  | int
  | lst
  | str
deriving DecidableEq

/-- `benc_istype`. -/
def bencIstype (p : List UInt8) : BeType → Bool
  | .any => bencIsdct p || bencIsint p || bencIslst p || bencIsstr p
  | .dct => bencIsdct p
  | .int => bencIsint p
  | .lst => bencIslst p
  | .str => bencIsstr p

/-- The loop over `level` in `benc_dct_chk`: the dictionary behind all keys but the last. -/
def dctPath : List Str → List UInt8 → Option (Option (List UInt8))
  | [], dct => some (some dct)
  | key :: keys, dct =>
      (bencDgetDct dct key).bind fun q =>
        match q with
        | some dct => dctPath keys dct
        | none => some none

/-- One round of `benc_dct_chk`: the type, the keys in front of the last one, and the last. -/
def dctChkOne (p : List UInt8) (want : BeType × List Str × Str) : Option Bool :=
  (dctPath want.2.1 p).bind fun q =>
    match q with
    | none => some false
    | some dct =>
        (bencDgetAny dct want.2.2).map fun val =>
          match val with
          | some val => bencIstype val want.1
          | none => false

/-- The loop over `i` in `benc_dct_chk`. -/
def dctChkLoop (p : List UInt8) : List (BeType × List Str × Str) → Option Bool
  | [] => some true
  | want :: wants =>
      (dctChkOne p want).bind fun ok => if ok then dctChkLoop p wants else some false

/-- `benc_dct_chk`. -/
def bencDctChk (p : List UInt8) (wants : List (BeType × List Str × Str)) : Option Bool :=
  if bencIsdct p then dctChkLoop p wants else some false

/-! ## Strings and lengths -/

/-- **A string is read.** -/
theorem bencMem_spells {s x : List UInt8} (h : SpellsStr s x) (hlen : x.length < 2 ^ 63)
    (r : List UInt8) : bencMem (x ++ r) = some (some (s.length, s ++ r)) := by
  obtain ⟨ds, hds, hvalue, rfl⟩ := h
  have hhead : bencIsstr (ds ++ 58 :: s ++ r) = true := by
    obtain ⟨c, t, rfl⟩ := List.exists_cons_of_ne_nil hds.ne_nil
    exact hds.digits c List.mem_cons_self
  have hsplit : ds ++ 58 :: s ++ r = ds ++ 58 :: (s ++ r) := by simp
  rw [List.length_append, List.length_cons] at hlen
  rw [bencMem, if_pos hhead, strtoul, hsplit, hds.takeWhile (by decide), hds.dropWhile (by decide),
    hvalue, min_eq_left (by omega)]
  rfl

/-- The length of the text of the tree, whatever is behind it. -/
def Measured : {c : Category} → Tree c → Prop
  | .value, v => ∀ (x r : List UInt8) (fuel : ℕ), Spells v x → x.length < 2 ^ 63 →
      2 * x.length ≤ fuel → bencLength fuel (x ++ r) = some x.length
  | .values, vs => ∀ (y r : List UInt8) (fuel : ℕ), Spells vs y → y.length < 2 ^ 63 →
      2 * y.length + 1 ≤ fuel → elemsLength fuel (y ++ 101 :: r) = some y.length
  | .entries, es => ∀ (y r : List UInt8) (fuel : ℕ), Spells es y → y.length < 2 ^ 63 →
      2 * y.length + 1 ≤ fuel → elemsLength fuel (y ++ 101 :: r) = some y.length

/-- One element is measured, then the rest. -/
theorem elemsLength_cons {v : Tree .value} {x : List UInt8} (hv : Spells v x) {fuel n : ℕ}
    {r : List UInt8} (hlen : bencLength fuel (x ++ r) = some x.length)
    (hrest : elemsLength fuel r = some n) :
    elemsLength (fuel + 1) (x ++ r) = some (x.length + n) := by
  obtain ⟨c, y, rfl, hc⟩ := hv.head_ne
  have hdrop : (c :: (y ++ r)).drop (c :: y).length = r := by
    rw [← List.cons_append, List.drop_left]
  rw [List.cons_append] at hlen ⊢
  rw [elemsLength, if_neg hc, hlen, Option.bind_eq_bind, Option.bind_some, hdrop, hrest]
  rfl

theorem bencLength_str {s x : List UInt8} (h : SpellsStr s x) (hlen : x.length < 2 ^ 63)
    (r : List UInt8) (fuel : ℕ) : bencLength (fuel + 1) (x ++ r) = some x.length := by
  have hmem := bencMem_spells h hlen r
  have hx : x.length = x.length - s.length + s.length := by
    obtain ⟨ds, -, -, rfl⟩ := h
    rw [List.length_append, List.length_cons]
    omega
  obtain ⟨c, y, rfl, hc⟩ := h.head
  have hne : ∀ m : UInt8, isDigit m = false → c ≠ m := by
    rintro m hm rfl
    rw [hm] at hc
    cases hc
  rw [List.cons_append] at hmem ⊢
  rw [bencLength, if_neg, if_neg (hne 105 (by decide)), hmem]
  · dsimp only
    congr 1
    rw [List.length_cons, List.length_append, List.length_append, List.length_cons] at *
    omega
  · rintro (heq | heq)
    · exact hne 100 (by decide) heq
    · exact hne 108 (by decide) heq

/-- **`benc_length` measures values.** -/
theorem measured {c : Category} (t : Tree c) : Measured t := by
  induction t with
  | int n =>
      rintro x r fuel ⟨y, ⟨ds, hds, hy⟩, rfl⟩ - hfuel
      obtain ⟨fuel, rfl⟩ : ∃ k, fuel = k + 1 := ⟨fuel - 1, by simp at hfuel; omega⟩
      have hno : ∀ c ∈ y, (c != 101) = true := by
        intro c hc
        rw [bne_iff_ne]
        rintro rfl
        have hdigit : (101 : UInt8) ∈ ds := by
          rcases hy with ⟨rfl, -⟩ | ⟨rfl, -⟩
          · exact hc
          · rcases List.mem_cons.mp hc with hc | hc
            · exact absurd hc (by decide)
            · exact hc
        exact absurd (hds.digits 101 hdigit) (by decide)
      have hsplit : 105 :: (y ++ [101]) ++ r = 105 :: (y ++ 101 :: r) := by simp
      rw [hsplit, bencLength, if_neg (by decide), if_pos rfl, if_pos (by simp),
        List.takeWhile_append_of_pos hno, List.takeWhile_cons_of_neg (by decide), List.append_nil]
      simp
  | str s =>
      intro x r fuel hx hlen hfuel
      have hpos := hx.length_pos
      obtain ⟨fuel, rfl⟩ : ∃ k, fuel = k + 1 := ⟨fuel - 1, by omega⟩
      exact bencLength_str hx hlen r fuel
  | list vs ih =>
      rintro x r fuel ⟨y, hy, rfl⟩ hlen hfuel
      rw [List.length_cons, List.length_append, List.length_singleton] at hlen hfuel
      obtain ⟨fuel, rfl⟩ : ∃ k, fuel = k + 1 := ⟨fuel - 1, by omega⟩
      have hsplit : 108 :: (y ++ [101]) ++ r = 108 :: (y ++ 101 :: r) := by simp
      rw [hsplit, bencLength, if_pos (.inr rfl), ih y r fuel hy (by omega) (by omega)]
      simp
      omega
  | dict es ih =>
      rintro x r fuel ⟨y, hy, rfl⟩ hlen hfuel
      rw [List.length_cons, List.length_append, List.length_singleton] at hlen hfuel
      obtain ⟨fuel, rfl⟩ : ∃ k, fuel = k + 1 := ⟨fuel - 1, by omega⟩
      have hsplit : 100 :: (y ++ [101]) ++ r = 100 :: (y ++ 101 :: r) := by simp
      rw [hsplit, bencLength, if_pos (.inl rfl), ih y r fuel hy (by omega) (by omega)]
      simp
      omega
  | nil =>
      rintro y r fuel rfl - hfuel
      obtain ⟨fuel, rfl⟩ : ∃ k, fuel = k + 1 := ⟨fuel - 1, by simp at hfuel; omega⟩
      rfl
  | cons v vs ihv ihvs =>
      rintro y r fuel ⟨x, z, hx, hz, rfl⟩ hlen hfuel
      have hpos := hx.length_pos
      rw [List.length_append] at hlen hfuel
      obtain ⟨fuel, rfl⟩ : ∃ k, fuel = k + 1 := ⟨fuel - 1, by omega⟩
      rw [List.append_assoc, List.length_append]
      exact elemsLength_cons hx (ihv x _ fuel hx (by omega) (by omega))
        (ihvs z r fuel hz (by omega) (by omega))
  | empty =>
      rintro y r fuel rfl - hfuel
      obtain ⟨fuel, rfl⟩ : ∃ k, fuel = k + 1 := ⟨fuel - 1, by simp at hfuel; omega⟩
      rfl
  | entry k v es ihv ihes =>
      rintro y r fuel ⟨x, z, w, hx, hz, hw, rfl⟩ hlen hfuel
      have hxpos := SpellsStr.length_pos hx
      have hzpos := hz.length_pos
      rw [List.length_append, List.length_append] at hlen hfuel
      obtain ⟨fuel, rfl⟩ : ∃ k, fuel = k + 2 := ⟨fuel - 2, by omega⟩
      have hkey : Spells (.str k) x := hx
      rw [List.append_assoc, List.append_assoc, List.length_append, List.length_append]
      refine elemsLength_cons hkey (bencLength_str hx (by omega) _ fuel) ?_
      exact elemsLength_cons hz (ihv z _ fuel hz (by omega) (by omega))
        (ihes w r fuel hw (by omega) (by omega))

/-- **`benc_next` goes to what is behind the value.** -/
theorem bencNext_spells {v : Tree .value} {x : List UInt8} (h : Spells v x)
    (hlen : x.length < 2 ^ 63) (r : List UInt8) : bencNext (x ++ r) = elemOrNull r := by
  rw [bencNext, measured v x r _ h hlen (by rw [List.length_append]; omega), Option.bind_some,
    List.drop_left]

/-! ## Elements -/

/-- The pointers that `for (p = benc_first(…); p != NULL; p = benc_next(p))` goes through. -/
def walkLoop : ℕ → Option (List UInt8) → Option (List (List UInt8))
  | 0, _ => none
  | _ + 1, none => some []
  | fuel + 1, some p => (bencNext p).bind fun q => (walkLoop fuel q).map (p :: ·)

/-- The walk over the elements of a list or a dictionary. -/
def bencWalk (p : List UInt8) : Option (List (List UInt8)) :=
  (bencFirst p).bind fun q => walkLoop (p.length + 1) q

theorem nelemsLoop_eq (fuel : ℕ) (q : Option (List UInt8)) :
    nelemsLoop fuel q = (walkLoop fuel q).map List.length := by
  induction fuel generalizing q with
  | zero => rfl
  | succ fuel ih =>
      cases q with
      | none => rfl
      | some p =>
          rw [nelemsLoop, walkLoop]
          cases bencNext p with
          | none => rfl
          | some q =>
              rw [Option.bind_some, Option.bind_some, ih, Option.map_map, Option.map_map]
              rfl

/-- So `benc_nelems` is the length of the walk. -/
theorem bencNelems_eq (p : List UInt8) : bencNelems p = (bencWalk p).map List.length := by
  rw [bencNelems, bencWalk]
  cases bencFirst p with
  | none => rfl
  | some q => exact nelemsLoop_eq _ q

/-- The pointer is at the text of the value. -/
def At (v : Tree .value) (p : List UInt8) : Prop := ∃ z w, Spells v z ∧ p = z ++ w

/-- The walk from a pointer that may be `NULL`. -/
def Walks (vs : List (Tree .value)) (y : List UInt8) : Prop :=
  ∀ (r : List UInt8) (fuel : ℕ), y.length + 1 ≤ fuel →
    ∃ ps, (elemOrNull (y ++ 101 :: r)).bind (walkLoop fuel) = some ps ∧ List.Forall₂ At vs ps

theorem walks_nil : Walks [] [] := by
  intro r fuel hfuel
  obtain ⟨fuel, rfl⟩ : ∃ k, fuel = k + 1 := ⟨fuel - 1, by simp at hfuel; omega⟩
  exact ⟨[], rfl, .nil⟩

/-- An element begins with a byte that ends no list. -/
theorem elemOrNull_spells {v : Tree .value} {x : List UInt8} (h : Spells v x) (r : List UInt8) :
    elemOrNull (x ++ r) = some (some (x ++ r)) := by
  obtain ⟨c, y, rfl, hc⟩ := h.head_ne
  rw [List.cons_append, elemOrNull, if_neg hc]

/-- The walk finds one element, then the rest. -/
theorem walks_cons {v : Tree .value} {vs : List (Tree .value)} {x y : List UInt8}
    (hv : Spells v x) (hlen : x.length < 2 ^ 63) (hvs : Walks vs y) :
    Walks (v :: vs) (x ++ y) := by
  intro r fuel hfuel
  have hpos := hv.length_pos
  rw [List.length_append] at hfuel
  obtain ⟨fuel, rfl⟩ : ∃ k, fuel = k + 1 := ⟨fuel - 1, by omega⟩
  obtain ⟨ps, hps, hall⟩ := hvs r fuel (by omega)
  refine ⟨(x ++ (y ++ 101 :: r)) :: ps, ?_, .cons ⟨x, _, hv, rfl⟩ hall⟩
  rw [List.append_assoc, elemOrNull_spells hv, Option.bind_some, walkLoop,
    bencNext_spells hv hlen]
  cases hq : elemOrNull (y ++ 101 :: r) with
  | none =>
      rw [hq] at hps
      cases hps
  | some q =>
      rw [hq, Option.bind_some] at hps
      rw [Option.bind_some, hps, Option.map_some]

/-- The elements of a list, or of the entries of a dictionary. -/
def Walked : {c : Category} → Tree c → Prop
  | .value, _ => True
  | .values, vs => ∀ y, Spells vs y → y.length < 2 ^ 63 → Walks vs.elems y
  | .entries, es => ∀ y, Spells es y → y.length < 2 ^ 63 → Walks es.elems y

/-- Every tree is walked, by induction on it. -/
theorem walked {c : Category} (t : Tree c) : Walked t := by
  induction t with
  | int n => exact trivial
  | str s => exact trivial
  | list vs _ => exact trivial
  | dict es _ => exact trivial
  | nil =>
      rintro y rfl -
      exact walks_nil
  | cons v vs _ ih =>
      rintro y ⟨x, z, hx, hz, rfl⟩ hlen
      rw [List.length_append] at hlen
      exact walks_cons hx (by omega) (ih z hz (by omega))
  | empty =>
      rintro y rfl -
      exact walks_nil
  | entry k v es _ ih =>
      rintro y ⟨x, z, w, hx, hz, hw, rfl⟩ hlen
      have hkey : Spells (.str k) x := hx
      rw [List.length_append, List.length_append] at hlen
      exact walks_cons hkey (by omega) (walks_cons hz (by omega) (ih w hw (by omega)))

/-- **`benc_first` and `benc_next` go from element to element**, over a list and over a
dictionary, to the last one and no further, whatever is in memory behind the text; and
`benc_nelems` counts the elements. -/
theorem benc_walk_visits {v : Tree .value} {x : List UInt8} (h : Spells v x)
    (hlen : x.length < 2 ^ 63) (hlst : bencIslst x = true) (r : List UInt8) :
    ∃ ps, bencWalk (x ++ r) = some ps ∧ List.Forall₂ At v.elems ps ∧
      bencNelems (x ++ r) = some v.elems.length := by
  have hwalk : ∃ ps, bencWalk (x ++ r) = some ps ∧ List.Forall₂ At v.elems ps := by
    have hlst' : bencIslst (x ++ r) = true := by
      obtain ⟨c, y, rfl, -⟩ := h.head
      exact hlst
    rw [bencWalk, bencFirst, if_pos hlst']
    cases v with
    | int n =>
        obtain ⟨y, -, rfl⟩ := h
        exact absurd (show false = true from hlst) Bool.false_ne_true
    | str s =>
        obtain ⟨c, y, rfl, hc⟩ := SpellsStr.head h
        rw [bencIslst, Bool.or_eq_true, beq_iff_eq, beq_iff_eq, List.head?_cons, Option.some.injEq,
          Option.some.injEq] at hlst
        rcases hlst with rfl | rfl
        · exact absurd hc (by decide)
        · exact absurd hc (by decide)
    | list vs =>
        obtain ⟨y, hy, rfl⟩ := h
        rw [List.length_cons, List.length_append] at hlen
        have htail : (108 :: (y ++ [101]) ++ r).tail = y ++ 101 :: r := by simp
        rw [htail]
        apply walked vs y hy (by omega)
        simp only [List.length_cons, List.length_append]
        omega
    | dict es =>
        obtain ⟨y, hy, rfl⟩ := h
        rw [List.length_cons, List.length_append] at hlen
        have htail : (100 :: (y ++ [101]) ++ r).tail = y ++ 101 :: r := by simp
        rw [htail]
        apply walked es y hy (by omega)
        simp only [List.length_cons, List.length_append]
        omega
  obtain ⟨ps, hps, hall⟩ := hwalk
  exact ⟨ps, hps, hall, by rw [bencNelems_eq, hps, Option.map_some, hall.length_eq]⟩

/-- Entries that are not in order, one of them a dictionary. -/
def sampleEntries : Tree .entries :=
  .entry (ascii "size") (.int 7) (.entry (ascii "info") (.dict (.entry (ascii "name")
    (.str (ascii "x")) .empty)) .empty)

/-- The keys and the values of two entries. -/
theorem benc_walk_visits_sample :
    ∃ ps, bencWalk (encode (.dict sampleEntries) ++ [0]) = some ps ∧
      List.Forall₂ At (Tree.dict sampleEntries).elems ps ∧
      bencNelems (encode (.dict sampleEntries) ++ [0]) = some 4 :=
  benc_walk_visits (spells_encode (.dict sampleEntries)) (by decide) (by decide) [0]

/-! ## Looking up -/

/-- `strncmp` on the length of the key in the dictionary, and the comparison of the lengths. -/
theorem strncmpEq_iff (k r key : List UInt8) (hkey : 0 ∉ key) :
    (strncmpEq k.length (k ++ r) (key ++ [0]) = true ∧ key.length = k.length) ↔ k = key := by
  induction k generalizing key with
  | nil =>
      rw [List.length_nil, List.length_eq_zero_iff]
      exact ⟨fun h => h.2.symm, fun h => ⟨rfl, h.symm⟩⟩
  | cons c k ih =>
      cases key with
      | nil => exact ⟨fun h => absurd h.2.symm (Nat.succ_ne_zero _), fun h => absurd h (by simp)⟩
      | cons d key =>
          have hd : d ≠ 0 := fun h => hkey (h ▸ List.mem_cons_self)
          have ih' := ih key fun h => hkey (List.mem_cons_of_mem _ h)
          rw [List.length_cons, List.length_cons, List.cons_append, List.cons_append, strncmpEq,
            Bool.and_eq_true, beq_iff_eq, Bool.or_eq_true, beq_iff_eq, List.cons.injEq, ← ih',
            Nat.add_right_cancel_iff]
          constructor
          · rintro ⟨⟨rfl, h0 | h⟩, hlen⟩
            · exact absurd h0 hd
            · exact ⟨rfl, h, hlen⟩
          · rintro ⟨rfl, h, hlen⟩
            exact ⟨⟨rfl, .inr h⟩, hlen⟩

/-- What a look-up in `x`, with `r` behind it, gives: a pointer into `x`, at the value. -/
def Finds (v? : Option (Tree .value)) (x r : List UInt8)
    (res : Option (Option (List UInt8))) : Prop :=
  match v? with
  | none => res = some none
  | some v => ∃ pre z w, x = pre ++ (z ++ w) ∧ Spells v z ∧ res = some (some (z ++ (w ++ r)))

theorem Finds.behind {v? : Option (Tree .value)} {x r : List UInt8}
    {res : Option (Option (List UInt8))} (h : Finds v? x r res) (pre post : List UInt8)
    {r' : List UInt8} (hr : r = post ++ r') : Finds v? (pre ++ (x ++ post)) r' res := by
  subst hr
  cases v? with
  | none => exact h
  | some v =>
      obtain ⟨front, z, w, rfl, hz, hres⟩ := h
      exact ⟨pre ++ front, z, w ++ post, by simp, hz, by rw [hres, List.append_assoc]⟩

/-- The loop of `benc_dget_any` finds the first entry with the key. -/
theorem dgetLoop_spells (key : Str) : ∀ (es : Tree .entries) (y r : List UInt8) (fuel : ℕ),
    Spells es y → y.length < 2 ^ 63 → y.length + 1 ≤ fuel →
    Finds (es.find key.val) y (101 :: r) ((elemOrNull (y ++ 101 :: r)).bind (dgetLoop key fuel))
  | .empty, y, r, fuel, hy, _, hfuel => by
      obtain ⟨fuel, rfl⟩ : ∃ k, fuel = k + 1 := ⟨fuel - 1, by omega⟩
      have hnil : y = [] := hy
      subst hnil
      rfl
  | .entry k v es, y, r, fuel, hy, hlen, hfuel => by
      obtain ⟨x, z, w, hx, hz, hw, rfl⟩ := hy
      have hkey : Spells (.str k) x := hx
      have hxpos := SpellsStr.length_pos hx
      rw [List.length_append, List.length_append] at hlen hfuel
      obtain ⟨fuel, rfl⟩ : ∃ k, fuel = k + 1 := ⟨fuel - 1, by omega⟩
      have ih := dgetLoop_spells key es w r fuel hw (by omega) (by omega)
      have hstr : bencIsstr (x ++ (z ++ (w ++ 101 :: r))) ≠ false := by
        obtain ⟨c, t, rfl, hc⟩ := hx.head
        rw [ne_eq, Bool.not_eq_false]
        exact hc
      rw [List.append_assoc, List.append_assoc, elemOrNull_spells hkey, Option.bind_some, dgetLoop,
        if_neg hstr, bencMem_spells hx (by omega)]
      dsimp only
      rw [List.drop_left, elemOrNull_spells hz]
      dsimp only
      simp only [strncmpEq_iff k _ key.val key.property, Tree.find]
      split_ifs with heq
      · exact ⟨x, z, w, by simp, hz, rfl⟩
      · rw [bencNext_spells hz (by omega)]
        have hbehind := ih.behind (x ++ z) [] rfl
        rwa [List.append_nil, List.append_assoc] at hbehind

/-- **A look-up finds the first entry with the key**, wherever in the dictionary it is and
whatever the order of the entries, and `NULL` when there is none. -/
theorem benc_dget_finds {es : Tree .entries} {x : List UInt8} (h : Spells (.dict es) x)
    (hlen : x.length < 2 ^ 63) (r : List UInt8) (key : Str) :
    Finds (es.find key.val) x r (bencDgetAny (x ++ r) key) := by
  obtain ⟨y, hy, rfl⟩ := h
  rw [List.length_cons, List.length_append] at hlen
  have hloop := dgetLoop_spells key es y r ((100 :: (y ++ [101]) ++ r).length + 1) hy (by omega)
    (by simp only [List.length_cons, List.length_append]; omega)
  have hbehind := hloop.behind [100] [101] rfl
  have htail : (100 :: (y ++ [101]) ++ r).tail = y ++ 101 :: r := by simp
  have hdct : bencIsdct (100 :: (y ++ [101]) ++ r) = true := rfl
  have hlst : bencIslst (100 :: (y ++ [101]) ++ r) = true := rfl
  rw [bencDgetAny, if_pos hdct, bencFirst, if_pos hlst, htail]
  exact hbehind

/-- The second entry is found, though its key is the smaller one. -/
theorem benc_dget_finds_info :
    Finds (some (.dict (.entry (ascii "name") (.str (ascii "x")) .empty)))
      (encode (.dict sampleEntries)) [0]
      (bencDgetAny (encode (.dict sampleEntries) ++ [0]) ⟨ascii "info", by decide⟩) :=
  benc_dget_finds (spells_encode (.dict sampleEntries)) (by decide) [0]
    ⟨ascii "info", by decide⟩

/-! ## Readings -/

/-- The values that have the type; a dictionary passes for a list. -/
def hasType : BeType → Tree .value → Bool
  | .any, _ => true
  | .dct, .dict _ => true
  | .int, .int _ => true
  | .lst, .list _ => true
  | .lst, .dict _ => true
  | .str, .str _ => true
  | _, _ => false

/-- **The first byte tells the type.** -/
theorem bencIstype_spells {v : Tree .value} {x : List UInt8} (h : Spells v x) (r : List UInt8)
    (ty : BeType) : bencIstype (x ++ r) ty = hasType ty v := by
  cases v with
  | int n =>
      obtain ⟨y, -, rfl⟩ := h
      cases ty <;> rfl
  | str s =>
      obtain ⟨c, y, rfl, hc⟩ := SpellsStr.head h
      have hne : ∀ m : UInt8, isDigit m = false → (some c == some m) = false := by
        intro m hm
        rw [beq_eq_false_iff_ne]
        rintro heq
        rw [Option.some.inj heq, hm] at hc
        cases hc
      have hdct : bencIsdct (c :: y ++ r) = false := hne 100 (by decide)
      have hint : bencIsint (c :: y ++ r) = false := hne 105 (by decide)
      have hlst : bencIslst (c :: y ++ r) = false := by
        rw [bencIslst, Bool.or_eq_false_iff]
        exact ⟨hne 108 (by decide), hne 100 (by decide)⟩
      have hstr : bencIsstr (c :: y ++ r) = true := hc
      cases ty
      · rw [bencIstype, hdct, hint, hlst, hstr]
        rfl
      · exact hdct
      · exact hint
      · exact hlst
      · exact hstr
  | list vs =>
      obtain ⟨y, -, rfl⟩ := h
      cases ty <;> rfl
  | dict es =>
      obtain ⟨y, -, rfl⟩ := h
      cases ty <;> rfl

/-- The `long long` next to the number. -/
def clamp (n : ℤ) : ℤ := max (-2 ^ 63) (min n (2 ^ 63 - 1))

/-- A number is read up to saturation. -/
theorem bencInt_spells {n : ℤ} {x : List UInt8} (h : Spells (.int n) x) (r : List UInt8) :
    bencInt (x ++ r) = some (clamp n) := by
  obtain ⟨y, ⟨ds, hds, hy⟩, rfl⟩ := h
  have htail : (105 :: (y ++ [101]) ++ r).tail = y ++ 101 :: r := by simp
  have hint : bencIsint (105 :: (y ++ [101]) ++ r) = true := rfl
  have hread : strtoi64 (y ++ 101 :: r) = (clamp n, 101 :: r) := by
    rcases hy with ⟨rfl, rfl⟩ | ⟨rfl, rfl⟩
    · have hsign : (y ++ 101 :: r).head? ≠ some 45 := by
        obtain ⟨c, t, rfl⟩ := List.exists_cons_of_ne_nil hds.ne_nil
        have hc := hds.digits c List.mem_cons_self
        rintro heq
        rw [Option.some.inj heq] at hc
        exact absurd hc (by decide)
      rw [strtoi64, if_neg hsign, hds.takeWhile (by decide), hds.dropWhile (by decide), clamp,
        max_eq_right]
      exact le_min (by omega) (by norm_num)
    · have hsign : (45 :: ds ++ 101 :: r).head? = some 45 := rfl
      rw [strtoi64, if_pos hsign, List.cons_append, List.tail_cons, hds.takeWhile (by decide),
        hds.dropWhile (by decide), clamp, min_eq_left (by omega), max_comm]
  rw [bencInt, if_pos hint, htail, hread]
  rfl

/-- The length of what a look-up finds. -/
theorem length_lt_of_split {x pre z w : List UInt8} (h : x = pre ++ (z ++ w))
    (hlen : x.length < 2 ^ 63) : z.length < 2 ^ 63 := by
  rw [h, List.length_append, List.length_append] at hlen
  omega

/-- **`benc_dget_int` and `benc_dget_mem`** read the value of the first entry with the key: a
number as near to it as a `long long` comes, the bytes of a string with their length.  A value
of another type, or none, is 0 and `NULL`. -/
theorem benc_dget_reads {es : Tree .entries} {x : List UInt8} (h : Spells (.dict es) x)
    (hlen : x.length < 2 ^ 63) (r : List UInt8) (key : Str) :
    bencDgetInt (x ++ r) key
      = some (match es.find key.val with
        | some (.int n) => clamp n
        | _ => 0) ∧
    match es.find key.val with
    | some (.str s) => ∃ w, bencDgetMem (x ++ r) key = some (some (s.length, s ++ w))
    | _ => bencDgetMem (x ++ r) key = some none := by
  have hfind := benc_dget_finds h hlen r key
  cases hv : es.find key.val with
  | none =>
      rw [hv] at hfind
      have hres : bencDgetAny (x ++ r) key = some none := hfind
      exact ⟨by rw [bencDgetInt, hres]; rfl, by rw [bencDgetMem, hres]; rfl⟩
  | some v =>
      rw [hv] at hfind
      obtain ⟨pre, z, w, hx, hz, hres⟩ := hfind
      have hint : bencIsint (z ++ (w ++ r)) = hasType .int v := bencIstype_spells hz _ .int
      have hstr : bencIsstr (z ++ (w ++ r)) = hasType .str v := bencIstype_spells hz _ .str
      rw [bencDgetInt, bencDgetMem, hres, Option.bind_some, Option.bind_some]
      dsimp only
      rw [hint, hstr]
      cases v with
      | int n => exact ⟨bencInt_spells hz _, rfl⟩
      | str s => exact ⟨rfl, w ++ r, bencMem_spells hz (length_lt_of_split hx hlen) _⟩
      | list vs => exact ⟨rfl, rfl⟩
      | dict es' => exact ⟨rfl, rfl⟩

/-- A number, and nothing where bytes are asked for. -/
theorem benc_dget_reads_size :
    bencDgetInt (encode (.dict sampleEntries) ++ [0]) ⟨ascii "size", by decide⟩ = some 7 ∧
      bencDgetMem (encode (.dict sampleEntries) ++ [0]) ⟨ascii "size", by decide⟩ = some none :=
  benc_dget_reads (spells_encode (.dict sampleEntries)) (by decide) [0]
    ⟨ascii "size", by decide⟩

/-! ## Checking a dictionary -/

/-- The dictionary behind the keys, one dictionary in the other. -/
def along : List Str → Tree .value → Option (Tree .value)
  | [], v => some v
  | key :: keys, v =>
      match v.find key.val with
      | some (.dict es) => along keys (.dict es)
      | _ => none

/-- What is wanted is there. -/
def Satisfied (v : Tree .value) (want : BeType × List Str × Str) : Bool :=
  match (along want.2.1 v).bind (Tree.find want.2.2.val) with
  | some u => hasType want.1 u
  | none => false

/-- A path of keys leads through the dictionaries along it, or nowhere. -/
theorem dctPath_spells (keys : List Str) {es : Tree .entries} {x : List UInt8}
    (h : Spells (.dict es) x) (hlen : x.length < 2 ^ 63) (r : List UInt8) :
    (along keys (.dict es) = none ∧ dctPath keys (x ++ r) = some none) ∨
      ∃ es' z w, along keys (.dict es) = some (.dict es') ∧ Spells (.dict es') z ∧
        z.length < 2 ^ 63 ∧ dctPath keys (x ++ r) = some (some (z ++ w)) := by
  induction keys generalizing es x r with
  | nil => exact .inr ⟨es, x, r, rfl, h, hlen, rfl⟩
  | cons key keys ih =>
      have hfind := benc_dget_finds h hlen r key
      have hdict : Tree.find key.val (.dict es) = es.find key.val := rfl
      rw [dctPath, along, hdict, bencDgetDct]
      cases hv : es.find key.val with
      | none =>
          rw [hv] at hfind
          have hres : bencDgetAny (x ++ r) key = some none := hfind
          exact .inl ⟨rfl, by rw [hres]; rfl⟩
      | some v =>
          rw [hv] at hfind
          obtain ⟨pre, z, w, hx, hz, hres⟩ := hfind
          have hdct : bencIsdct (z ++ (w ++ r)) = hasType .dct v := bencIstype_spells hz _ .dct
          rw [hres, Option.map_some, Option.filter_some, hdct]
          cases v with
          | int n => exact .inl ⟨rfl, rfl⟩
          | str s => exact .inl ⟨rfl, rfl⟩
          | list vs => exact .inl ⟨rfl, rfl⟩
          | dict es' => exact ih hz (length_lt_of_split hx hlen) (w ++ r)

/-- One wish of `benc_dct_chk` is checked. -/
theorem dctChkOne_spells (want : BeType × List Str × Str) {es : Tree .entries} {x : List UInt8}
    (h : Spells (.dict es) x) (hlen : x.length < 2 ^ 63) (r : List UInt8) :
    dctChkOne (x ++ r) want = some (Satisfied (.dict es) want) := by
  rw [dctChkOne, Satisfied]
  obtain ⟨halong, hpath⟩ | ⟨es', z, w, halong, hz, hzlen, hpath⟩ :=
    dctPath_spells want.2.1 h hlen r
  · rw [halong, hpath]
    rfl
  · have hfind := benc_dget_finds hz hzlen w want.2.2
    have hdict : Tree.find want.2.2.val (.dict es') = es'.find want.2.2.val := rfl
    rw [halong, hpath, Option.bind_some, Option.bind_some, hdict]
    dsimp only
    cases hv : es'.find want.2.2.val with
    | none =>
        rw [hv] at hfind
        have hres : bencDgetAny (z ++ w) want.2.2 = some none := hfind
        rw [hres]
        rfl
    | some v =>
        rw [hv] at hfind
        obtain ⟨pre, u, w', -, hu, hres⟩ := hfind
        rw [hres, Option.map_some]
        dsimp only
        rw [bencIstype_spells hu]

/-- **`benc_dct_chk`** says whether each of the values that are wanted is there, behind its
keys, and has its type. -/
theorem benc_dct_chk_satisfied (wants : List (BeType × List Str × Str)) {es : Tree .entries}
    {x : List UInt8} (h : Spells (.dict es) x) (hlen : x.length < 2 ^ 63) (r : List UInt8) :
    bencDctChk (x ++ r) wants = some (wants.all (Satisfied (.dict es))) := by
  have hdct : bencIsdct (x ++ r) = true := bencIstype_spells h r .dct
  rw [bencDctChk, if_pos hdct]
  induction wants with
  | nil => rfl
  | cons want wants ih =>
      rw [dctChkLoop, dctChkOne_spells want h hlen, Option.bind_some, List.all_cons]
      cases Satisfied (.dict es) want with
      | false => rfl
      | true => exact ih

/-- A name in the dictionary `info`, and no name outside of it. -/
theorem benc_dct_chk_satisfied_name :
    bencDctChk (encode (.dict sampleEntries) ++ [0])
      [(.str, [⟨ascii "info", by decide⟩], ⟨ascii "name", by decide⟩)] = some true :=
  benc_dct_chk_satisfied [(.str, [⟨ascii "info", by decide⟩], ⟨ascii "name", by decide⟩)]
    (spells_encode (.dict sampleEntries)) (by decide) [0]

end Zevent.Libbt

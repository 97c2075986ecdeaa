/-
# The validator of bencoded texts (`libbt/misc/benc.c`)

`benc_validate` goes once over a text, before any other function of `benc.c` looks at it.  A
pointer into the text is what it points at, the bytes from there to the end; the comparison
with `end` is whether there are any.

`benc_validate_iff`: it accepts exactly the texts that stand for a value.  The lengths of
strings are read into a `size_t`, and added to a pointer, without a look at their size: this
holds for the texts in which no length is `2 ^ 63` or more, and `benc_validate_wraps` is a
text that is accepted for the length it has modulo `2 ^ 64`.
-/
import Mathlib.Tactic
import Zevent.Lib.Bencode
import Zevent.Lib.CString

namespace Zevent.Libbt

open Bencode Numerals

/-! ## The code -/

/-- `EINVAL`. -/
def einval : ℕ := 22

/-- The loop that reads `len`, a `size_t` of 64 bits; a build for Win32 has one of 32. -/
def scanLen (digits : List UInt8) : ℕ :=
  digits.foldl (fun len c => (len * 10 + (c.toNat - 48)) % 2 ^ 64) 0

/-- The `default` of `benc_validate_aux`.  `none` is a pointer that leaves the address space,
`some none` is `NULL`. -/
def validateStr (p : List UInt8) : Option (Option (List UInt8)) :=
  if isDigit (p.headD 0) then
    match p.dropWhile isDigit with
    | 58 :: rest =>
        let len := scanLen (p.takeWhile isDigit)
        if 2 ^ 63 ≤ len then none
        else if len < (58 :: rest).length then some (some ((58 :: rest).drop len))
        else some none
    | _ => some none
  else some none

/-- The `case 'i'`, behind the `i`. -/
def validateInt (p : List UInt8) : Option (List UInt8) :=
  match if p.head? = some 45 then p.tail else p with
  | [] => none
  | c :: p =>
      if isDigit c = false then none
      else
        match p.dropWhile isDigit with
        | 101 :: rest => some (101 :: rest)
        | _ => none

/-- `d++` in a dictionary. -/
def nextD (d : ℕ) : ℕ := if d ≠ 0 then d + 1 else d

mutual

/-- `benc_validate_aux`: the last byte of the value that begins at `p`. -/
def bencValidateAux : ℕ → List UInt8 → Option (Option (List UInt8))
  | 0, _ => none
  | _ + 1, [] => none
  | fuel + 1, c :: p =>
      if c = 100 then validateElems fuel 1 p
      else if c = 108 then validateElems fuel 0 p
      else if c = 105 then some (validateInt p)
      else validateStr (c :: p)

/-- The loop of the `case 'd'` and `case 'l'`, with `d`. -/
def validateElems : ℕ → ℕ → List UInt8 → Option (Option (List UInt8))
  | 0, _, _ => none
  | _ + 1, _, [] => some none
  | fuel + 1, d, c :: p =>
      if c = 101 then some (if d ≠ 0 ∧ d % 2 ≠ 1 then none else some (c :: p))
      else if d ≠ 0 ∧ d % 2 = 1 ∧ isDigit c = false then some none
      else
        match bencValidateAux fuel (c :: p) with
        | none => none
        | some none => some none
        | some (some q) => validateElems fuel (nextD d) q.tail

end

/-- `benc_validate`.  Every call takes a byte, so twice as many rounds are enough. -/
def bencValidate (p : List UInt8) : Option ℕ :=
  if p = [] then some einval
  else
    (bencValidateAux (2 * p.length) p).map fun r =>
      match r with
      | some q => if q.length = 1 then 0 else einval
      | none => einval

/-! ## Strings and numbers -/

theorem scanLen_eq (digits : List UInt8) : scanLen digits = decimalValue digits % 2 ^ 64 := by
  have hfold : ∀ (ds : List UInt8) (n : ℕ),
      ds.foldl (fun len c => (len * 10 + (c.toNat - 48)) % 2 ^ 64) (n % 2 ^ 64)
        = ds.foldl (fun acc c => acc * 10 + (c.toNat - 48)) n % 2 ^ 64 := by
    intro ds
    induction ds with
    | nil => exact fun n => rfl
    | cons c ds ih =>
        intro n
        rw [List.foldl_cons, List.foldl_cons, ← ih]
        congr 1
        omega
  exact hfold digits 0

/-- A string is passed over. -/
theorem validateStr_spells {s x : List UInt8} (h : SpellsStr s x) (hlen : x.length < 2 ^ 63)
    (r : List UInt8) : validateStr (x ++ r) = some (some ((x ++ r).drop (x.length - 1))) := by
  obtain ⟨ds, hds, hvalue, rfl⟩ := h
  have hpos : 0 < ds.length := List.length_pos_of_ne_nil hds.ne_nil
  have hhead : isDigit ((ds ++ 58 :: s ++ r).headD 0) = true := by
    obtain ⟨c, t, rfl⟩ := List.exists_cons_of_ne_nil hds.ne_nil
    exact hds.digits c List.mem_cons_self
  have hsplit : ds ++ 58 :: s ++ r = ds ++ 58 :: (s ++ r) := by simp
  rw [List.length_append, List.length_cons] at hlen
  have hscan : scanLen ds = s.length := by
    rw [scanLen_eq, hvalue, Nat.mod_eq_of_lt (by omega)]
  rw [validateStr, if_pos hhead, hsplit, hds.dropWhile (by decide), hds.takeWhile (by decide)]
  simp only [hscan]
  rw [if_neg (by omega), if_pos (by simp)]
  congr 2
  rw [List.length_append, List.length_cons, show ds.length + (s.length + 1) - 1
    = ds.length + s.length by omega, ← List.drop_drop, List.drop_left]

/-- **A string that is accepted is one.** -/
theorem spells_of_validateStr {p q : List UInt8} (hbelow : LengthsBelow (2 ^ 63) p)
    (h : validateStr p = some (some q)) :
    ∃ s y c r, p = y ++ c :: r ∧ q = c :: r ∧ SpellsStr s (y ++ [c]) := by
  rw [validateStr] at h
  by_cases hhead : isDigit (p.headD 0) = true
  swap
  · rw [if_neg hhead] at h
    cases h
  rw [if_pos hhead] at h
  split at h
  · rename_i rest hdrop
    have hp : p = p.takeWhile isDigit ++ 58 :: rest := by
      rw [← hdrop, List.takeWhile_append_dropWhile]
    have hds : Numeral (p.takeWhile isDigit) := by
      refine ⟨?_, fun c hc => List.mem_takeWhile_imp hc⟩
      cases p with
      | nil => cases hdrop
      | cons c p =>
          rw [List.takeWhile_cons_of_pos (show isDigit c = true from hhead)]
          exact List.cons_ne_nil _ _
    generalize p.takeWhile isDigit = ds at hp hds h
    have hvalue : decimalValue ds < 2 ^ 63 := hbelow [] ds rest hp hds.digits
    have hscan : scanLen ds = decimalValue ds := by
      rw [scanLen_eq, Nat.mod_eq_of_lt (by omega)]
    simp only [hscan] at h
    rw [if_neg (by omega)] at h
    by_cases hin : decimalValue ds < (58 :: rest).length
    swap
    · rw [if_neg hin] at h
      cases h
    rw [if_pos hin, Option.some.injEq, Option.some.injEq] at h
    rw [List.length_cons] at hin
    obtain ⟨c, r, hcr⟩ := List.exists_cons_of_ne_nil
      (l := (58 :: rest).drop (decimalValue ds)) (by
        rw [ne_eq, List.drop_eq_nil_iff, List.length_cons]
        omega)
    have hsplit : 58 :: rest = (58 :: rest).take (decimalValue ds) ++ c :: r := by
      rw [← hcr, List.take_append_drop]
    refine ⟨(58 :: rest).tail.take (decimalValue ds), ds ++ (58 :: rest).take (decimalValue ds),
      c, r, ?_, by rw [← h, hcr], ds, hds, ?_, ?_⟩
    · rw [List.append_assoc, ← hsplit]
      exact hp
    · rw [List.tail_cons, List.length_take]
      omega
    · rw [List.append_assoc]
      congr 1
      -- the colon and the string are the bytes before `c`, and `c`
      have htake : (58 :: rest).take (decimalValue ds + 1)
          = (58 :: rest).take (decimalValue ds) ++ [c] := by
        rw [List.take_add_one]
        congr 1
        have hget : (58 :: rest)[decimalValue ds]? = ((58 :: rest).drop (decimalValue ds))[0]? := by
          rw [List.getElem?_drop, Nat.add_zero]
        rw [hget, hcr]
        rfl
      rw [← htake, List.take_succ_cons, List.tail_cons]
  · cases h

/-- A number is passed over up to its end. -/
theorem validateInt_spells {n : ℤ} {y : List UInt8} (h : SpellsInt n y) (r : List UInt8) :
    validateInt (y ++ 101 :: r) = some (101 :: r) := by
  obtain ⟨ds, hds, hy⟩ := h
  obtain ⟨c, t, rfl⟩ := List.exists_cons_of_ne_nil hds.ne_nil
  have hc := hds.digits c List.mem_cons_self
  have hne : c ≠ 45 := by
    rintro rfl
    exact absurd hc (by decide)
  have hrest : (t ++ 101 :: r).dropWhile isDigit = 101 :: r := by
    rw [List.dropWhile_append_of_pos fun d hd => hds.digits d (List.mem_cons_of_mem _ hd),
      List.dropWhile_cons_of_neg (by decide)]
  rw [validateInt]
  rcases hy with ⟨rfl, -⟩ | ⟨rfl, -⟩
  · rw [if_neg (by simpa using hne)]
    simp only [List.cons_append, hc, Bool.true_eq_false, if_false, hrest]
  · rw [List.cons_append, List.head?_cons, if_pos rfl]
    simp only [List.tail_cons, List.cons_append, hc, Bool.true_eq_false, if_false, hrest]

/-- **A number that is accepted is one.** -/
theorem spells_of_validateInt {p q : List UInt8} (h : validateInt p = some q) :
    ∃ n y r, p = y ++ 101 :: r ∧ q = 101 :: r ∧ SpellsInt n y := by
  have hdigits : ∀ t : List UInt8, (match t with
      | [] => none
      | c :: p =>
          if isDigit c = false then none
          else
            match p.dropWhile isDigit with
            | 101 :: rest => some (101 :: rest)
            | _ => none) = some q →
      ∃ ds r, t = ds ++ 101 :: r ∧ q = 101 :: r ∧ Numeral ds := by
    intro t ht
    cases t with
    | nil => cases ht
    | cons c t =>
        dsimp only at ht
        split_ifs at ht with hc
        rw [Bool.not_eq_false] at hc
        split at ht
        · rename_i r hdrop
          cases ht
          refine ⟨c :: t.takeWhile isDigit, r, ?_, rfl, List.cons_ne_nil _ _, ?_⟩
          · rw [List.cons_append, ← hdrop, List.takeWhile_append_dropWhile]
          · intro d hd
            rcases List.mem_cons.mp hd with rfl | hd
            · exact hc
            · exact List.mem_takeWhile_imp hd
        · cases ht
  rw [validateInt] at h
  obtain ⟨ds, r, ht, hq, hds⟩ := hdigits _ h
  split_ifs at ht with hneg
  · obtain ⟨t, rfl⟩ : ∃ t, p = 45 :: t := by
      cases p with
      | nil => cases hneg
      | cons c t =>
          cases hneg
          exact ⟨t, rfl⟩
    rw [List.tail_cons] at ht
    exact ⟨_, 45 :: ds, r, by rw [ht, List.cons_append], hq, ds, hds, .inr ⟨rfl, rfl⟩⟩
  · exact ⟨_, ds, r, ht, hq, ds, hds, .inl ⟨rfl, rfl⟩⟩

/-! ## The recursion -/

/-- The elements of a list or a dictionary, before its `e`; `d` is 0 in a list, odd in front of
a key and even in front of a value. -/
def SpellsElems (d : ℕ) (y : List UInt8) : Prop :=
  (d = 0 → ∃ vs : Tree .values, Spells vs y) ∧
  (d % 2 = 1 → ∃ es : Tree .entries, Spells es y) ∧
  (d ≠ 0 → d % 2 = 0 → ∃ (v : Tree .value) (es : Tree .entries) (z w : List UInt8),
    y = z ++ w ∧ Spells v z ∧ Spells es w)

/-- A list may end anywhere, a dictionary behind a value. -/
theorem spellsElems_nil {d : ℕ} (h : ¬ (d ≠ 0 ∧ d % 2 ≠ 1)) : SpellsElems d [] := by
  refine ⟨fun _ => ⟨.nil, rfl⟩, fun _ => ⟨.empty, rfl⟩, fun hd heven => ?_⟩
  exact absurd ⟨hd, by omega⟩ h

/-- One element more. -/
theorem SpellsElems.cons {d : ℕ} {v : Tree .value} {z w : List UInt8} (hv : Spells v z)
    (hkey : d % 2 = 1 → ∃ k, v = .str k) (hw : SpellsElems (nextD d) w) :
    SpellsElems d (z ++ w) := by
  refine ⟨fun hd => ?_, fun hd => ?_, fun hd heven => ?_⟩
  · rw [nextD, if_neg (not_not.mpr hd)] at hw
    obtain ⟨vs, hvs⟩ := hw.1 hd
    exact ⟨.cons v vs, z, w, hv, hvs, rfl⟩
  · rw [nextD, if_pos (by omega)] at hw
    obtain ⟨k, rfl⟩ := hkey hd
    obtain ⟨u, es, x, y, rfl, hu, hes⟩ := hw.2.2 (by omega) (by omega)
    exact ⟨.entry k u es, z, x, y, hv, hu, hes, rfl⟩
  · rw [nextD, if_pos hd] at hw
    obtain ⟨es, hes⟩ := hw.2.1 (by omega)
    exact ⟨v, es, z, w, rfl, hv, hes⟩

/-- **What is accepted stands for a value.**  The pointer returned is at its last byte. -/
theorem accepted_spells (fuel : ℕ) :
    (∀ p q, LengthsBelow (2 ^ 63) p → bencValidateAux fuel p = some (some q) →
      ∃ (v : Tree .value) (y : List UInt8) (c : UInt8) (r : List UInt8),
        p = y ++ c :: r ∧ q = c :: r ∧ Spells v (y ++ [c])) ∧
    (∀ d p q, LengthsBelow (2 ^ 63) p → validateElems fuel d p = some (some q) →
      ∃ y r, p = y ++ 101 :: r ∧ q = 101 :: r ∧ SpellsElems d y) := by
  induction fuel with
  | zero =>
      constructor
      · intro p q _ h
        cases h
      · intro d p q _ h
        cases h
  | succ fuel ih =>
      obtain ⟨ihv, ihe⟩ := ih
      have hbracket : ∀ (c : UInt8) (d : ℕ) (p q : List UInt8), LengthsBelow (2 ^ 63) (c :: p) →
          validateElems fuel d p = some (some q) →
          ∃ y r, c :: p = (c :: y) ++ 101 :: r ∧ q = 101 :: r ∧ SpellsElems d y := by
        intro c d p q hbelow h
        obtain ⟨y, r, rfl, hq, hy⟩ := ihe d p q (hbelow.suffix (x := [c])) h
        exact ⟨y, r, rfl, hq, hy⟩
      constructor
      · intro p q hbelow h
        cases p with
        | nil => cases h
        | cons c p =>
            rw [bencValidateAux] at h
            split_ifs at h with hd hl hi
            · subst hd
              obtain ⟨y, r, hp, hq, hy⟩ := hbracket 100 1 p q hbelow h
              obtain ⟨es, hes⟩ := hy.2.1 rfl
              exact ⟨.dict es, 100 :: y, 101, r, hp, hq, y, hes, rfl⟩
            · subst hl
              obtain ⟨y, r, hp, hq, hy⟩ := hbracket 108 0 p q hbelow h
              obtain ⟨vs, hvs⟩ := hy.1 rfl
              exact ⟨.list vs, 108 :: y, 101, r, hp, hq, y, hvs, rfl⟩
            · subst hi
              obtain ⟨n, y, r, rfl, hq, hy⟩ := spells_of_validateInt (Option.some.inj h)
              exact ⟨.int n, 105 :: y, 101, r, rfl, hq, y, hy, rfl⟩
            · obtain ⟨s, y, e, r, hp, hq, hs⟩ := spells_of_validateStr hbelow h
              exact ⟨.str s, y, e, r, hp, hq, hs⟩
      · intro d p q hbelow h
        cases p with
        | nil => cases h
        | cons c p =>
            rw [validateElems] at h
            split_ifs at h with he hodd hkey
            · cases h
            · subst he
              cases h
              exact ⟨[], p, rfl, rfl, spellsElems_nil hodd⟩
            · cases h
            · split at h
              · cases h
              · cases h
              · rename_i q' haux
                obtain ⟨v, y, e, r, hp, rfl, hv⟩ := ihv (c :: p) q' hbelow haux
                have hbelow' : LengthsBelow (2 ^ 63) r := by
                  rw [hp, show y ++ e :: r = (y ++ [e]) ++ r by simp] at hbelow
                  exact hbelow.suffix
                obtain ⟨w, t, hr, hq, hw⟩ := ihe _ r q hbelow' h
                refine ⟨(y ++ [e]) ++ w, t, by rw [hp, hr]; simp, hq, SpellsElems.cons hv ?_ hw⟩
                intro hd
                have hc : isDigit c = true := by
                  rw [← Bool.not_eq_false]
                  exact fun hc => hkey ⟨by omega, hd, hc⟩
                obtain ⟨a, b, hab⟩ : ∃ a b, y ++ [e] = a :: b :=
                  List.exists_cons_of_ne_nil (by simp)
                have hca : c = a := by
                  have hall : c :: p = (y ++ [e]) ++ r := by rw [hp]; simp
                  rw [hab, List.cons_append, List.cons.injEq] at hall
                  exact hall.1
                rw [hab, ← hca] at hv
                exact hv.str_of_digit hc

/-- The text of the tree is accepted, whatever is behind it. -/
def Accepted : {c : Category} → Tree c → Prop
  | .value, v => ∀ (x r : List UInt8) (fuel : ℕ), Spells v x → x.length < 2 ^ 63 →
      2 * x.length ≤ fuel →
      bencValidateAux fuel (x ++ r) = some (some ((x ++ r).drop (x.length - 1)))
  | .values, vs => ∀ (y r : List UInt8) (fuel : ℕ), Spells vs y → y.length < 2 ^ 63 →
      2 * y.length + 1 ≤ fuel →
      validateElems fuel 0 (y ++ 101 :: r) = some (some (101 :: r))
  | .entries, es => ∀ (y r : List UInt8) (fuel d : ℕ), Spells es y → y.length < 2 ^ 63 →
      2 * y.length + 1 ≤ fuel → d % 2 = 1 →
      validateElems fuel d (y ++ 101 :: r) = some (some (101 :: r))

/-- One element is passed over, then the rest. -/
theorem validateElems_cons {fuel d : ℕ} {v : Tree .value} {x : List UInt8} (hv : Spells v x)
    (hkey : d % 2 = 1 → ∃ c y, x = c :: y ∧ isDigit c = true) {r : List UInt8}
    (haux : bencValidateAux fuel (x ++ r) = some (some ((x ++ r).drop (x.length - 1)))) :
    validateElems (fuel + 1) d (x ++ r) = validateElems fuel (nextD d) r := by
  obtain ⟨c, y, rfl, hc⟩ := hv.head_ne
  have htail : ((c :: y ++ r).drop ((c :: y).length - 1)).tail = r := by
    rw [List.tail_drop, List.length_cons, Nat.add_sub_cancel, ← List.length_cons (a := c),
      List.drop_left]
  rw [List.cons_append, validateElems, if_neg hc, if_neg, ← List.cons_append, haux]
  · dsimp only
    rw [htail]
  · rintro ⟨-, hodd, hdigit⟩
    obtain ⟨e, z, hez, he⟩ := hkey hodd
    rw [← (List.cons.inj hez).1, hdigit] at he
    cases he

/-- The last byte of a text in brackets. -/
theorem drop_close (m : UInt8) (y r : List UInt8) :
    (m :: (y ++ [101]) ++ r).drop ((m :: (y ++ [101])).length - 1) = 101 :: r := by
  rw [show m :: (y ++ [101]) ++ r = (m :: y) ++ 101 :: r by simp,
    show (m :: (y ++ [101])).length - 1 = (m :: y).length by simp, List.drop_left]

/-- **What stands for a value is accepted.** -/
theorem accepted {c : Category} (t : Tree c) : Accepted t := by
  induction t with
  | int n =>
      rintro x r fuel ⟨y, hy, rfl⟩ - hfuel
      obtain ⟨fuel, rfl⟩ : ∃ k, fuel = k + 1 := ⟨fuel - 1, by simp at hfuel; omega⟩
      have hsplit : 105 :: (y ++ [101]) ++ r = 105 :: (y ++ 101 :: r) := by simp
      rw [hsplit, bencValidateAux, if_neg (by decide), if_neg (by decide), if_pos rfl,
        validateInt_spells hy, ← hsplit, drop_close]
  | str s =>
      intro x r fuel hx hlen hfuel
      have hpos := hx.length_pos
      obtain ⟨fuel, rfl⟩ : ∃ k, fuel = k + 1 := ⟨fuel - 1, by omega⟩
      have hstr := validateStr_spells hx hlen r
      obtain ⟨c, y, rfl, hc⟩ := SpellsStr.head hx
      have hne : ∀ m : UInt8, isDigit m = false → c ≠ m := by
        rintro m hm rfl
        rw [hm] at hc
        cases hc
      rw [List.cons_append] at hstr ⊢
      rw [bencValidateAux, if_neg (hne 100 (by decide)), if_neg (hne 108 (by decide)),
        if_neg (hne 105 (by decide)), hstr]
  | list vs ih =>
      rintro x r fuel ⟨y, hy, rfl⟩ hlen hfuel
      rw [List.length_cons, List.length_append, List.length_singleton] at hlen hfuel
      obtain ⟨fuel, rfl⟩ : ∃ k, fuel = k + 1 := ⟨fuel - 1, by omega⟩
      have hsplit : 108 :: (y ++ [101]) ++ r = 108 :: (y ++ 101 :: r) := by simp
      rw [hsplit, bencValidateAux, if_neg (by decide), if_pos rfl,
        ih y r fuel hy (by omega) (by omega), ← hsplit, drop_close]
  | dict es ih =>
      rintro x r fuel ⟨y, hy, rfl⟩ hlen hfuel
      rw [List.length_cons, List.length_append, List.length_singleton] at hlen hfuel
      obtain ⟨fuel, rfl⟩ : ∃ k, fuel = k + 1 := ⟨fuel - 1, by omega⟩
      have hsplit : 100 :: (y ++ [101]) ++ r = 100 :: (y ++ 101 :: r) := by simp
      rw [hsplit, bencValidateAux, if_pos rfl,
        ih y r fuel 1 hy (by omega) (by omega) rfl, ← hsplit, drop_close]
  | nil =>
      rintro y r fuel rfl - hfuel
      obtain ⟨fuel, rfl⟩ : ∃ k, fuel = k + 1 := ⟨fuel - 1, by simp at hfuel; omega⟩
      rfl
  | cons v vs ihv ihvs =>
      rintro y r fuel ⟨x, z, hx, hz, rfl⟩ hlen hfuel
      have hpos := hx.length_pos
      rw [List.length_append] at hlen hfuel
      obtain ⟨fuel, rfl⟩ : ∃ k, fuel = k + 1 := ⟨fuel - 1, by omega⟩
      rw [List.append_assoc, validateElems_cons hx (by omega)
        (ihv x _ fuel hx (by omega) (by omega))]
      exact ihvs z r fuel hz (by omega) (by omega)
  | empty =>
      rintro y r fuel d rfl - hfuel hd
      obtain ⟨fuel, rfl⟩ : ∃ k, fuel = k + 1 := ⟨fuel - 1, by simp at hfuel; omega⟩
      rw [List.nil_append, validateElems, if_pos rfl, if_neg (by omega)]
  | entry k v es ihv ihes =>
      rintro y r fuel d ⟨x, z, w, hx, hz, hw, rfl⟩ hlen hfuel hd
      have hxpos := SpellsStr.length_pos hx
      have hzpos := hz.length_pos
      rw [List.length_append, List.length_append] at hlen hfuel
      obtain ⟨fuel, rfl⟩ : ∃ k, fuel = k + 2 := ⟨fuel - 2, by omega⟩
      have hkey : bencValidateAux (fuel + 1) (x ++ (z ++ (w ++ 101 :: r)))
          = some (some ((x ++ (z ++ (w ++ 101 :: r))).drop (x.length - 1))) := by
        have hstr := validateStr_spells hx (by omega) (z ++ (w ++ 101 :: r))
        obtain ⟨c, t, rfl, hc⟩ := hx.head
        have hne : ∀ m : UInt8, isDigit m = false → c ≠ m := by
          rintro m hm rfl
          rw [hm] at hc
          cases hc
        rw [List.cons_append] at hstr ⊢
        rw [bencValidateAux, if_neg (hne 100 (by decide)), if_neg (hne 108 (by decide)),
          if_neg (hne 105 (by decide)), hstr]
      have hkeystr : Spells (.str k) x := hx
      have hd₁ : nextD d = d + 1 := if_pos (by omega)
      have hnext : nextD (nextD d) = d + 2 := by
        rw [hd₁, nextD, if_pos (Nat.succ_ne_zero d)]
      have heven : ¬ nextD d % 2 = 1 := by
        rw [hd₁]
        omega
      rw [List.append_assoc, List.append_assoc, validateElems_cons hkeystr (fun _ => hx.head) hkey,
        validateElems_cons hz (fun hodd => absurd hodd heven)
          (ihv z _ fuel hz (by omega) (by omega)), hnext]
      exact ihes w r fuel _ hw (by omega) (by omega) (by omega)

/-- **There are rounds enough.** -/
theorem enough_rounds (fuel : ℕ) :
    (∀ p, LengthsBelow (2 ^ 63) p → p ≠ [] → 2 * p.length ≤ fuel →
      bencValidateAux fuel p ≠ none) ∧
    (∀ d p, LengthsBelow (2 ^ 63) p → 2 * p.length + 1 ≤ fuel →
      validateElems fuel d p ≠ none) := by
  induction fuel with
  | zero =>
      constructor
      · intro p _ hne hfuel
        have hpos := List.length_pos_of_ne_nil hne
        omega
      · intro d p _ hfuel
        omega
  | succ fuel ih =>
      obtain ⟨ihv, ihe⟩ := ih
      constructor
      · intro p hbelow hne hfuel
        cases p with
        | nil => exact absurd rfl hne
        | cons c p =>
            rw [List.length_cons] at hfuel
            have hbelow' : LengthsBelow (2 ^ 63) p := hbelow.suffix (x := [c])
            rw [bencValidateAux]
            split_ifs
            · exact ihe 1 p hbelow' (by omega)
            · exact ihe 0 p hbelow' (by omega)
            · exact Option.some_ne_none _
            · rw [validateStr]
              split_ifs
              · split
                · rename_i rest hdrop
                  have hvalue : decimalValue ((c :: p).takeWhile isDigit) < 2 ^ 63 := by
                    apply hbelow [] _ rest
                    · rw [List.nil_append, ← hdrop, List.takeWhile_append_dropWhile]
                    · exact fun d hd => List.mem_takeWhile_imp hd
                  have hscan := scanLen_eq ((c :: p).takeWhile isDigit)
                  rw [Nat.mod_eq_of_lt (by omega)] at hscan
                  simp only [hscan]
                  rw [if_neg (by omega)]
                  split_ifs
                  · exact Option.some_ne_none _
                  · exact Option.some_ne_none _
                · exact Option.some_ne_none _
              · exact Option.some_ne_none _
      · intro d p hbelow hfuel
        cases p with
        | nil => exact Option.some_ne_none _
        | cons c p =>
            rw [List.length_cons] at hfuel
            rw [validateElems]
            split_ifs
            · exact Option.some_ne_none _
            · exact Option.some_ne_none _
            · exact Option.some_ne_none _
            · split
              · rename_i haux
                exact absurd haux (ihv (c :: p) hbelow (List.cons_ne_nil _ _) (by
                  rw [List.length_cons]
                  omega))
              · exact Option.some_ne_none _
              · rename_i q haux
                obtain ⟨v, y, e, r, hp, rfl, -⟩ := (accepted_spells fuel).1 (c :: p) q hbelow haux
                have hbelow' : LengthsBelow (2 ^ 63) r := by
                  rw [hp, show y ++ e :: r = (y ++ [e]) ++ r by simp] at hbelow
                  exact hbelow.suffix
                have hlen := congrArg List.length hp
                rw [List.length_append, List.length_cons, List.length_cons] at hlen
                exact ihe _ r hbelow' (by omega)

/-! ## Whole texts -/

/-- A text that stands for a value is accepted. -/
theorem bencValidate_spells {v : Tree .value} {x : List UInt8} (h : Spells v x)
    (hlen : x.length < 2 ^ 63) : bencValidate x = some 0 := by
  have hpos := h.length_pos
  have haux := accepted v x [] (2 * x.length) h hlen le_rfl
  rw [List.append_nil] at haux
  rw [bencValidate, if_neg (List.ne_nil_of_length_pos hpos), haux, Option.map_some]
  dsimp only
  rw [if_pos]
  rw [List.length_drop]
  omega

/-- **The validator accepts the texts that stand for a value, and no others.**  For every text
in which no numeral in front of a colon is `2 ^ 63` or more, `benc_validate` returns, stays
inside the text, and returns 0 if and only if the text stands for a value. -/
theorem benc_validate_iff {p : List UInt8} (hlen : p.length < 2 ^ 63)
    (hbelow : LengthsBelow (2 ^ 63) p) :
    ∃ rc, bencValidate p = some rc ∧ (rc = 0 ↔ ∃ v : Tree .value, Spells v p) := by
  by_cases hv : ∃ v : Tree .value, Spells v p
  · obtain ⟨v, hv⟩ := hv
    exact ⟨0, bencValidate_spells hv hlen, fun _ => ⟨v, hv⟩, fun _ => rfl⟩
  · by_cases hne : p = []
    · exact ⟨einval, by rw [bencValidate, if_pos hne], fun h => absurd h (by decide),
        fun h => absurd h hv⟩
    · have htotal := (enough_rounds (2 * p.length)).1 p hbelow hne le_rfl
      obtain ⟨r, hr⟩ := Option.ne_none_iff_exists'.mp htotal
      refine ⟨einval, ?_, fun h => absurd h (by decide), fun h => absurd h hv⟩
      rw [bencValidate, if_neg hne, hr, Option.map_some]
      cases r with
      | none => rfl
      | some q =>
          dsimp only
          rw [if_neg]
          intro hone
          obtain ⟨v, y, c, r, hp, rfl, hspells⟩ :=
            (accepted_spells _).1 p q hbelow hr
          rw [List.length_cons, Nat.add_eq_right, List.length_eq_zero_iff] at hone
          rw [hone] at hp
          rw [← hp] at hspells
          exact hv ⟨v, hspells⟩

/-- A dictionary with a list in it. -/
theorem benc_validate_iff_dict :
    ∃ rc, bencValidate (CString.ascii "d1:ali1e1:xee") = some rc ∧
      (rc = 0 ↔ ∃ v : Tree .value, Spells v (CString.ascii "d1:ali1e1:xee")) :=
  benc_validate_iff (by decide) (lengthsBelow_of_length_le (k := 18) (by decide) (by norm_num))

/-- **A length of more than 64 bits** is taken for what is left of it. -/
theorem benc_validate_wraps :
    bencValidate (CString.ascii "18446744073709551617:a") = some 0 ∧
      ¬ ∃ v : Tree .value, Spells v (CString.ascii "18446744073709551617:a") := by
  refine ⟨by decide, ?_⟩
  rintro ⟨v, hv⟩
  obtain ⟨s, rfl⟩ := hv.str_of_digit (by decide)
  obtain ⟨ds, hds, hvalue, htext⟩ := hv
  have hfront := hds.takeWhile (c := 58) (by decide) s
  rw [← htext] at hfront
  have hlen := congrArg List.length htext
  rw [List.length_append, List.length_cons, ← hfront] at hlen
  rw [← hfront] at hvalue
  have htextlen : (CString.ascii "18446744073709551617:a").length = 22 := by decide
  have hvalue' : decimalValue ((CString.ascii "18446744073709551617:a").takeWhile isDigit)
      = 18446744073709551617 := by
    decide
  omega

end Zevent.Libbt

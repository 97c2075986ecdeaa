/-
# Strings in C arrays

A `char` array of a fixed size, the string in it (the bytes before the first NUL), and
`strlen` and `memcpy` on memory that is a list of bytes.  A call that would read or write
outside of what it is given is `none`.

* `memcpy_string` copies a string with its NUL into an array that has room for it.
* `text_overlay_iff` is about a copy of the wrong length: which string the array holds after
  the first `k + 1` bytes of a string have replaced the first `k + 1` of its own.
* `snprintf` writes as much of a string as there is room for: `text_snprintf`.
* `fill` writes a string piece by piece, as repeated `sprintf`s behind it do; `fill_eq` says
  that only the length of the whole matters.
-/
import Mathlib.Tactic
import Mathlib.Data.List.TakeWhile

namespace CString

/-- `char a[n]`. -/
@[ext]
structure CharArray (n : ℕ) where
  bytes : List UInt8
  size : bytes.length = n
deriving DecidableEq

/-- The bytes of a text of ASCII characters. -/
def ascii (s : String) : List UInt8 := s.toList.map fun c => UInt8.ofNat c.toNat

/-- A string: it has no NUL. -/
abbrev Str : Type := {s : List UInt8 // 0 ∉ s}

/-- The string at the front of memory. -/
def text (m : List UInt8) : List UInt8 := m.takeWhile fun c => c != 0

/-- `strlen`; `none` when there is no NUL. -/
def strlen (m : List UInt8) : Option ℕ := if 0 ∈ m then some (text m).length else none

/-- `strstr`: where a string occurs for the first time. -/
def strstr (s pat : List UInt8) : Option ℕ :=
  (List.range (s.length + 1)).find? fun i => pat.isPrefixOf (s.drop i)

/-- `memcpy` of `k` bytes into an array. -/
def memcpy {n : ℕ} (a : CharArray n) (src : List UInt8) (k : ℕ) : Option (CharArray n) :=
  if h : k ≤ n ∧ k ≤ src.length then
    some ⟨src.take k ++ a.bytes.drop k, by
      rw [List.length_append, List.length_take, List.length_drop, a.size]
      omega⟩
  else none

theorem nul_notMem_text (m : List UInt8) : 0 ∉ text m := by
  intro h
  have hne := List.mem_takeWhile_imp h
  simp at hne

/-- A string goes on behind bytes that are no NUL. -/
theorem text_append {s t : List UInt8} (hs : 0 ∉ s) : text (s ++ t) = s ++ text t := by
  apply List.takeWhile_append_of_pos
  intro c hc
  rw [bne_iff_ne]
  rintro rfl
  exact hs hc

/-- A string ends in front of its NUL. -/
theorem text_append_nul {s r : List UInt8} (hs : 0 ∉ s) : text (s ++ 0 :: r) = s := by
  rw [text_append hs]
  simp [text]

theorem strlen_append_nul {s r : List UInt8} (hs : 0 ∉ s) :
    strlen (s ++ 0 :: r) = some s.length := by
  rw [strlen, if_pos (by simp), text_append_nul hs]

/-- Memory with a NUL is its string, the NUL and the rest. -/
theorem eq_text_append {m : List UInt8} (h : 0 ∈ m) : ∃ r, m = text m ++ 0 :: r := by
  induction m with
  | nil => cases h
  | cons c m ih =>
      by_cases hc : c = 0
      · subst hc
        exact ⟨m, by simp [text]⟩
      · obtain ⟨r, hr⟩ := ih ((List.mem_cons.mp h).resolve_left (Ne.symm hc))
        refine ⟨r, ?_⟩
        have htext : text (c :: m) = c :: text m := by simp [text, hc]
        rw [htext, List.cons_append, ← hr]

/-- `strlen` returns when there is a NUL, and then with the length of the string. -/
theorem strlen_eq_some_iff {m : List UInt8} {k : ℕ} :
    strlen m = some k ↔ 0 ∈ m ∧ (text m).length = k := by
  unfold strlen
  split_ifs with h <;> simp [h]

/-- The string of an array with a NUL and this NUL fit into the array. -/
theorem length_text_lt {n : ℕ} {a : CharArray n} (h : 0 ∈ a.bytes) : (text a.bytes).length < n := by
  obtain ⟨r, hr⟩ := eq_text_append h
  have hlen : a.bytes.length = (text a.bytes).length + (r.length + 1) := by
    conv_lhs => rw [hr]
    rw [List.length_append, List.length_cons]
  have := a.size
  omega

/-- The first bytes of an array up to the NUL. -/
theorem take_text_succ {m : List UInt8} (h : 0 ∈ m) :
    m.take ((text m).length + 1) = text m ++ [0] := by
  obtain ⟨r, hr⟩ := eq_text_append h
  generalize text m = s at hr ⊢
  rw [hr, List.append_cons]
  apply List.take_left'
  rw [List.length_append, List.length_singleton]

/-- A string copied with its NUL is the string of the array. -/
theorem memcpy_string {n : ℕ} (a : CharArray n) {s r : List UInt8} (hs : 0 ∉ s)
    (hroom : s.length < n) :
    ∃ a', memcpy a (s ++ 0 :: r) (s.length + 1) = some a' ∧ text a'.bytes = s ∧ 0 ∈ a'.bytes := by
  have hfits : s.length + 1 ≤ n ∧ s.length + 1 ≤ (s ++ 0 :: r).length := by
    rw [List.length_append, List.length_cons]
    omega
  have htake : (s ++ 0 :: r).take (s.length + 1) = s ++ [0] := by
    have h := take_text_succ (show 0 ∈ s ++ 0 :: r by simp)
    rwa [text_append_nul hs] at h
  refine ⟨_, dif_pos hfits, ?_, ?_⟩
  · show text ((s ++ 0 :: r).take (s.length + 1) ++ a.bytes.drop (s.length + 1)) = s
    rw [htake, List.append_assoc, List.singleton_append]
    exact text_append_nul hs
  · show 0 ∈ (s ++ 0 :: r).take (s.length + 1) ++ a.bytes.drop (s.length + 1)
    rw [htake]
    simp

/-- After the first `k + 1` bytes of a string and its NUL have replaced those of `a`, the string
of the memory is that string when all of it was copied, or when the bytes of `a` behind the
copy go on with the rest of it. -/
theorem text_overlay_iff {a s r : List UInt8} {k : ℕ} (hs : 0 ∉ s) :
    text ((s ++ 0 :: r).take (k + 1) ++ a.drop (k + 1)) = s
      ↔ s.length ≤ k ∨ text (a.drop (k + 1)) = s.drop (k + 1) := by
  by_cases hk : s.length ≤ k
  · have htake : (s ++ 0 :: r).take (k + 1) = s ++ 0 :: r.take (k - s.length) := by
      rw [List.take_append, List.take_of_length_le (by omega),
        show k + 1 - s.length = (k - s.length) + 1 by omega, List.take_succ_cons]
    rw [htake, List.append_assoc, List.cons_append, text_append_nul hs]
    simp [hk]
  · have htake : (s ++ 0 :: r).take (k + 1) = s.take (k + 1) :=
      List.take_append_of_le_length (by omega)
    have hfront : 0 ∉ s.take (k + 1) := fun h => hs (List.mem_of_mem_take h)
    rw [htake, text_append hfront]
    constructor
    · intro h
      right
      apply (List.append_right_inj (s.take (k + 1))).mp
      rw [h, List.take_append_drop]
    · rintro (h | h)
      · exact absurd h hk
      · rw [h, List.take_append_drop]

/-- An array that holds a string and is cleared behind it. -/
def CharArray.ofText (s : List UInt8) (n : ℕ) (h : s.length < n) : CharArray n where
  bytes := s ++ 0 :: List.replicate (n - s.length - 1) 0
  size := by
    rw [List.length_append, List.length_cons, List.length_replicate]
    omega

/-! ## `memset` and `snprintf` -/

/-- `memset` of a whole array. -/
def memset {n : ℕ} (_ : CharArray n) (c : UInt8) : CharArray n := ⟨List.replicate n c, by simp⟩

/-- What `snprintf` writes into an array when the text of its format is `s`: what there is room
for, and a NUL.  Into an array of no bytes it writes nothing. -/
def snprintf {n : ℕ} (a : CharArray n) (s : List UInt8) : CharArray n where
  bytes :=
    if n = 0 then a.bytes else s.take (n - 1) ++ 0 :: a.bytes.drop ((s.take (n - 1)).length + 1)
  size := by
    split_ifs
    · exact a.size
    · rw [List.length_append, List.length_cons, List.length_drop, List.length_take, a.size]
      omega

theorem snprintf_bytes {n : ℕ} (a : CharArray n) (s : List UInt8) (hn : 0 < n) :
    (snprintf a s).bytes
      = s.take (n - 1) ++ 0 :: a.bytes.drop ((s.take (n - 1)).length + 1) :=
  if_neg hn.ne'

/-- The string of the array is the text, cut to the room. -/
theorem text_snprintf {n : ℕ} (a : CharArray n) {s : List UInt8} (hs : 0 ∉ s) :
    text (snprintf a s).bytes = s.take (n - 1) := by
  rcases Nat.eq_zero_or_pos n with rfl | hn
  · rw [List.eq_nil_of_length_eq_zero (snprintf a s).size, Nat.zero_sub, List.take_zero]
    rfl
  · have hfront : 0 ∉ s.take (n - 1) := fun h => hs (List.mem_of_mem_take h)
    rw [snprintf_bytes a s hn]
    exact text_append_nul hfront

/-! ## Strings written piece by piece -/

/-- A piece and its NUL behind the string in an array of `cap` bytes. -/
def put (cap : ℕ) (s piece : List UInt8) : Option (List UInt8) :=
  if s.length + piece.length + 1 ≤ cap then some (s ++ piece) else none

/-- Piece after piece behind the string in an array of `cap` bytes. -/
def fill (cap : ℕ) (s : List UInt8) (pieces : List (List UInt8)) : Option (List UInt8) :=
  pieces.foldlM (put cap) s

/-- **Only the length of the whole matters.** -/
theorem fill_eq {cap : ℕ} {s : List UInt8} (hs : s.length + 1 ≤ cap)
    (pieces : List (List UInt8)) :
    fill cap s pieces
      = if s.length + pieces.flatten.length + 1 ≤ cap then some (s ++ pieces.flatten)
        else none := by
  induction pieces generalizing s with
  | nil =>
      rw [fill, List.foldlM_nil, List.flatten_nil, List.length_nil, List.append_nil, if_pos hs]
      rfl
  | cons piece pieces ih =>
      rw [fill, List.foldlM_cons, List.flatten_cons, List.length_append, put]
      by_cases hfits : s.length + piece.length + 1 ≤ cap
      · have hrest := ih (s := s ++ piece) (by rwa [List.length_append])
        rw [List.length_append, List.append_assoc] at hrest
        rw [if_pos hfits, ← Nat.add_assoc, ← hrest]
        rfl
      · rw [if_neg hfits, if_neg (by omega)]
        rfl

end CString

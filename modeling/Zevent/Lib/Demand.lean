/-
# Readers that ask for what they need

A reader of a stream says how many elements it wants next, and then takes them or refuses them.
`drain` gives it what is there as long as that is enough; what is left waits for more.

However a stream is cut into chunks, feeding the chunks one after the other comes out where
draining the whole stream does (`feed_chunks`).
-/
import Mathlib.Data.List.Basic
import Mathlib.Tactic

namespace Demand

/-- A reader: how much it wants in a state, and the state after it took that; `none` when it
refuses.  A reader that wants nothing twice in a row would never come to an end. -/
structure Reader (σ α : Type*) where
  need : σ → ℕ
  take : σ → List α → Option σ
  progress : ∀ s s', need s = 0 → take s [] = some s' → 0 < need s'

namespace Reader

variable {σ α : Type*} (m : Reader σ α) {s s' : σ} {l l' rest : List α}

/-- Give the reader what it wants as long as there is enough: its state and what is left. -/
def drain (s : σ) (l : List α) : Option (σ × List α) :=
  if _ : m.need s ≤ l.length then
    match _htake : m.take s (l.take (m.need s)) with
    | none => none
    | some s' => drain s' (l.drop (m.need s))
  else some (s, l)
termination_by (l.length, if m.need s = 0 then 1 else 0)
decreasing_by
  rw [List.length_drop]
  rcases Nat.eq_zero_or_pos (m.need s) with hzero | hpos
  · rw [hzero, List.take_zero] at _htake
    have := m.progress s s' hzero _htake
    rw [hzero, Nat.sub_zero, if_pos rfl, if_neg (by omega)]
    exact Prod.Lex.right _ Nat.one_pos
  · exact Prod.Lex.left _ _ (by omega)

/-- The next chunk comes behind what is left. -/
def feed (r : σ × List α) (chunk : List α) : Option (σ × List α) := m.drain r.1 (r.2 ++ chunk)

theorem drain_of_lt (h : l.length < m.need s) : m.drain s l = some (s, l) := by
  rw [drain, dif_neg (by omega)]

theorem drain_of_le (h : m.need s ≤ l.length) :
    m.drain s l = (m.take s (l.take (m.need s))).bind fun s' => m.drain s' (l.drop (m.need s)) := by
  rw [drain, dif_pos h]
  split
  · rename_i hnone
    rw [hnone, Option.bind_none]
  · rename_i s' hsome
    rw [hsome, Option.bind_some]

/-- What the reader wants stands at the front. -/
theorem drain_take (h : l.length = m.need s) :
    m.drain s (l ++ l') = (m.take s l).bind fun s' => m.drain s' l' := by
  rw [m.drain_of_le (by rw [List.length_append]; omega), ← h, List.take_left, List.drop_left]

/-- **Induction along a run**, which stops short or takes what is wanted. -/
theorem drain_induction {P : σ → List α → Prop}
    (short : ∀ s l, l.length < m.need s → P s l)
    (refuse : ∀ s l, m.need s ≤ l.length → m.take s (l.take (m.need s)) = none → P s l)
    (next : ∀ s l s', m.need s ≤ l.length → m.take s (l.take (m.need s)) = some s' →
      P s' (l.drop (m.need s)) → P s l) (s : σ) (l : List α) : P s l := by
  induction s, l using drain.induct m with
  | case1 s l h hnone => exact refuse s l h hnone
  | case2 s l h s' hsome ih => exact next s l s' h hsome ih
  | case3 s l h => exact short s l (by omega)

/-- What is left is less than what the reader wants. -/
theorem drain_rest (h : m.drain s l = some (s', rest)) : rest.length < m.need s' := by
  induction s, l using m.drain_induction with
  | short s l hlt =>
      rw [m.drain_of_lt hlt, Option.some.injEq, Prod.mk.injEq] at h
      rw [← h.1, ← h.2]
      exact hlt
  | refuse s l hle hnone =>
      rw [m.drain_of_le hle, hnone] at h
      exact absurd h (by simp)
  | next s l s₁ hle hsome ih =>
      rw [m.drain_of_le hle, hsome] at h
      exact ih h

/-- **The invariant rule.** -/
theorem drain_invariant (Inv : σ → Prop)
    (hstep : ∀ s l s', Inv s → l.length = m.need s → m.take s l = some s' → Inv s')
    (hs : Inv s) (h : m.drain s l = some (s', rest)) : Inv s' := by
  induction s, l using m.drain_induction with
  | short s l hlt =>
      rw [m.drain_of_lt hlt, Option.some.injEq, Prod.mk.injEq] at h
      exact h.1 ▸ hs
  | refuse s l hle hnone =>
      rw [m.drain_of_le hle, hnone] at h
      exact absurd h (by simp)
  | next s l s₁ hle hsome ih =>
      rw [m.drain_of_le hle, hsome] at h
      refine ih (hstep s _ s₁ hs ?_ hsome) h
      rw [List.length_take, min_eq_left hle]

/-- **Draining goes on where it stopped.** -/
theorem drain_append (s : σ) (l l' : List α) :
    m.drain s (l ++ l') = (m.drain s l).bind fun r => m.feed r l' := by
  induction s, l using m.drain_induction with
  | short s l hlt => rw [m.drain_of_lt hlt, Option.bind_some, feed]
  | refuse s l hle hnone =>
      rw [m.drain_of_le hle, m.drain_of_le (by rw [List.length_append]; omega),
        List.take_append_of_le_length hle, hnone]
      rfl
  | next s l s₁ hle hsome ih =>
      rw [m.drain_of_le hle, m.drain_of_le (by rw [List.length_append]; omega),
        List.take_append_of_le_length hle, List.drop_append_of_le_length hle, hsome,
        Option.bind_some, Option.bind_some, ih]

/-- **Chunks do not matter.**  A reader that waits with `rest` and is fed chunk after chunk
comes out where it does when it is given everything at once. -/
theorem feed_chunks (chunks : List (List α)) (h : rest.length < m.need s) :
    chunks.foldlM m.feed (s, rest) = m.drain s (rest ++ chunks.flatten) := by
  induction chunks generalizing s rest with
  | nil =>
      rw [List.flatten_nil, List.append_nil, m.drain_of_lt h]
      rfl
  | cons chunk chunks ih =>
      rw [List.foldlM_cons, List.flatten_cons, ← List.append_assoc, drain_append, feed]
      rcases hd : m.drain s (rest ++ chunk) with _ | ⟨s', rest'⟩
      · rfl
      · show chunks.foldlM m.feed (s', rest') = m.drain s' (rest' ++ chunks.flatten)
        exact ih (m.drain_rest hd)

end Reader

end Demand

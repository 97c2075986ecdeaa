/-
# Conversion of text, one character at a time

A loop that reads the encoding of one character from the front of its input and writes another
encoding of it behind its output, with a count of what is left of the input and one of the room
that is left for the output.  A turn of the loop goes on with a new state, stops, or reads outside
of the input.

* `Behind encA encB cs s s'` says that `s'` is the state `s` after the characters `cs`.
* `loop_behind` is about all inputs: if every turn converts one character or stops, the loop ends,
  behind some characters.  `loop_front` and `loop_encoded` are about inputs that are the encoding
  of characters, for which there is room.
-/
import Mathlib.Tactic

namespace Transcode

variable {C α β : Type}

/-- The state of a conversion. -/
structure Conv (α β : Type) where
  /-- The memory from the input pointer on. -/
  input : List α
  incount : ℕ
  /-- What was written. -/
  out : List β
  outcount : ℕ
deriving DecidableEq

/-- How a turn of the loop ends. -/
inductive Turn (α β : Type)
  | next (s : Conv α β)
  | stop (ret : ℤ)
  | outside
deriving DecidableEq

/-- The loop, with its result; `fuel` bounds the turns. -/
def loop (more : Conv α β → Bool) (turn : Conv α β → Turn α β) :
    ℕ → Conv α β → Option (ℤ × Conv α β)
  | 0, _ => none
  | fuel + 1, s =>
      if more s then
        match turn s with
        | .next s' => loop more turn fuel s'
        | .stop ret => some (ret, s)
        | .outside => none
      else some (0, s)

section Turns

variable {more : Conv α β → Bool} {turn : Conv α β → Turn α β} {s s' : Conv α β} {fuel : ℕ}

/-- A turn that goes on. -/
theorem loop_next (hmore : more s = true) (hturn : turn s = .next s') :
    loop more turn (fuel + 1) s = loop more turn fuel s' := by
  rw [loop, if_pos hmore, hturn]

/-- A turn that ends the loop with an error. -/
theorem loop_stop {ret : ℤ} (hmore : more s = true) (hturn : turn s = .stop ret) :
    loop more turn (fuel + 1) s = some (ret, s) := by
  rw [loop, if_pos hmore, hturn]

theorem loop_done (hmore : more s = false) : loop more turn (fuel + 1) s = some (0, s) := by
  rw [loop, if_neg (by rw [hmore]; exact Bool.false_ne_true)]

/-- A loop whose turns write behind the output never shortens it. -/
theorem length_out_le (hturn : ∀ s s', turn s = .next s' → s.out.length ≤ s'.out.length)
    {ret : ℤ} (h : loop more turn fuel s = some (ret, s')) : s.out.length ≤ s'.out.length := by
  induction fuel generalizing s with
  | zero => cases h
  | succ fuel ih =>
      rw [loop] at h
      split at h
      · split at h
        · rename_i s₁ hs₁
          exact (hturn s s₁ hs₁).trans (ih h)
        · cases h
          exact le_rfl
        · cases h
      · cases h
        exact le_rfl

end Turns

/-! ## Behind some characters -/

/-- The state `s'` is `s` after the characters `cs`: their encodings were read and written, and
the counts are lower by the lengths of these. -/
structure Behind (encA : C → List α) (encB : C → List β) (cs : List C) (s s' : Conv α β) :
    Prop where
  input : s.input = cs.flatMap encA ++ s'.input
  out : s'.out = s.out ++ cs.flatMap encB
  incount : s.incount = (cs.flatMap encA).length + s'.incount
  outcount : s.outcount = (cs.flatMap encB).length + s'.outcount

section

variable {encA : C → List α} {encB : C → List β} {cs ds : List C} {s s₁ s' : Conv α β}
  {more : Conv α β → Bool} {turn : Conv α β → Turn α β} {fuel : ℕ}

theorem Behind.refl (encA : C → List α) (encB : C → List β) (s : Conv α β) :
    Behind encA encB [] s s where
  input := rfl
  out := by rw [List.flatMap_nil, List.append_nil]
  incount := by rw [List.flatMap_nil, List.length_nil, Nat.zero_add]
  outcount := by rw [List.flatMap_nil, List.length_nil, Nat.zero_add]

/-- One piece after the other was converted. -/
theorem Behind.append (h : Behind encA encB cs s s₁) (h₁ : Behind encA encB ds s₁ s') :
    Behind encA encB (cs ++ ds) s s' where
  input := by rw [h.input, h₁.input, List.flatMap_append, List.append_assoc]
  out := by rw [h₁.out, h.out, List.flatMap_append, List.append_assoc]
  incount := by
    rw [h.incount, h₁.incount, List.flatMap_append, List.length_append, Nat.add_assoc]
  outcount := by
    rw [h.outcount, h₁.outcount, List.flatMap_append, List.length_append, Nat.add_assoc]

/-- The count of the input stays right. -/
theorem Behind.counted (h : Behind encA encB cs s s') (hcount : s.incount = s.input.length) :
    s'.incount = s'.input.length := by
  have hincount := h.incount
  rw [hcount, h.input, List.length_append] at hincount
  omega

/-- The state behind one character whose encoding is at the front of the input. -/
theorem Behind.one {c : C} {rest : List α} (hinput : s.input = encA c ++ rest)
    (hin : (encA c).length ≤ s.incount) (hroom : (encB c).length ≤ s.outcount) :
    Behind encA encB [c] s ⟨rest, s.incount - (encA c).length, s.out ++ encB c,
      s.outcount - (encB c).length⟩ where
  input := by rw [List.flatMap_singleton, hinput]
  out := by rw [List.flatMap_singleton]
  incount := by
    rw [List.flatMap_singleton]
    exact (Nat.add_sub_of_le hin).symm
  outcount := by
    rw [List.flatMap_singleton]
    exact (Nat.add_sub_of_le hroom).symm

/-- There are no more characters than units, when each one has a unit. -/
theorem length_le_flatMap (hne : ∀ c, encA c ≠ []) (cs : List C) :
    cs.length ≤ (cs.flatMap encA).length := by
  induction cs with
  | nil => exact le_rfl
  | cons c cs ih =>
      have hpos := List.length_pos_iff.mpr (hne c)
      rw [List.length_cons, List.flatMap_cons, List.length_append]
      omega

/-- **Every input.**  A loop whose turns each convert one character or stop ends behind some
characters of its input. -/
theorem loop_behind {s₀ : Conv α β} (hne : ∀ c, encA c ≠ [])
    (hturn : ∀ cs s, Behind encA encB cs s₀ s → more s = true →
      (∃ c s', turn s = .next s' ∧ Behind encA encB [c] s s') ∨ ∃ ret, turn s = .stop ret)
    (hfuel : s₀.input.length < fuel) :
    ∃ ret cs s', loop more turn fuel s₀ = some (ret, s') ∧ Behind encA encB cs s₀ s' := by
  -- the fuel goes down with the input, from any state on the way
  have hrun : ∀ fuel cs s, Behind encA encB cs s₀ s → s.input.length < fuel →
      ∃ ret cs s', loop more turn fuel s = some (ret, s') ∧ Behind encA encB cs s₀ s' := by
    intro fuel
    induction fuel with
    | zero => exact fun _ _ _ hlt => absurd hlt (Nat.not_lt_zero _)
    | succ fuel ih =>
        intro cs s hs hlt
        by_cases hmore : more s = true
        · rcases hturn cs s hs hmore with ⟨c, s', hnext, hc⟩ | ⟨ret, hstop⟩
          · rw [loop_next hmore hnext]
            refine ih (cs ++ [c]) s' (hs.append hc) ?_
            have hpos := List.length_pos_iff.mpr (hne c)
            rw [hc.input, List.flatMap_singleton, List.length_append] at hlt
            omega
          · exact ⟨ret, cs, s, loop_stop hmore hstop, hs⟩
        · exact ⟨0, cs, s, loop_done (Bool.eq_false_iff.mpr hmore), hs⟩
  exact hrun fuel [] s₀ (Behind.refl encA encB s₀) hfuel

/-- **Inputs that begin with characters.**  The loop goes through them while there is room for what
it writes. -/
theorem loop_front
    (hturn : ∀ s c rest, s.input = encA c ++ rest → s.incount = s.input.length →
      (encB c).length ≤ s.outcount →
      more s = true ∧ ∃ s', turn s = .next s' ∧ Behind encA encB [c] s s')
    {rest : List α} (hinput : s.input = cs.flatMap encA ++ rest)
    (hcount : s.incount = s.input.length) (hroom : (cs.flatMap encB).length ≤ s.outcount) :
    ∃ s', Behind encA encB cs s s' ∧ s'.input = rest ∧
      ∀ fuel, loop more turn (cs.length + fuel) s = loop more turn fuel s' := by
  induction cs generalizing s with
  | nil =>
      refine ⟨s, Behind.refl encA encB s, hinput, fun fuel => ?_⟩
      rw [List.length_nil, Nat.zero_add]
  | cons c cs ih =>
      rw [List.flatMap_cons, List.append_assoc] at hinput
      rw [List.flatMap_cons, List.length_append] at hroom
      obtain ⟨hmore, s₁, hnext, hc⟩ := hturn s c _ hinput hcount (by omega)
      have hfront := hc.input
      rw [List.flatMap_singleton, hinput, List.append_cancel_left_eq] at hfront
      have houtcount := hc.outcount
      rw [List.flatMap_singleton] at houtcount
      obtain ⟨s', hs', hrest, hloop⟩ := ih hfront.symm (hc.counted hcount) (by omega)
      refine ⟨s', hc.append hs', hrest, fun fuel => ?_⟩
      rw [List.length_cons, Nat.add_right_comm, loop_next hmore hnext, hloop]

/-- **Inputs that are the encoding of characters** are converted as a whole. -/
theorem loop_encoded
    (hturn : ∀ s c rest, s.input = encA c ++ rest → s.incount = s.input.length →
      (encB c).length ≤ s.outcount →
      more s = true ∧ ∃ s', turn s = .next s' ∧ Behind encA encB [c] s s')
    (hend : ∀ s, s.incount = 0 → more s = false) (hinput : s.input = cs.flatMap encA)
    (hcount : s.incount = s.input.length) (hroom : (cs.flatMap encB).length ≤ s.outcount)
    (hfuel : cs.length < fuel) :
    ∃ s', loop more turn fuel s = some (0, s') ∧ Behind encA encB cs s s' ∧ s'.input = [] ∧
      s'.incount = 0 := by
  obtain ⟨s', hs', hnil, hloop⟩ := loop_front hturn
    (show s.input = cs.flatMap encA ++ [] by rw [hinput, List.append_nil]) hcount hroom
  have hzero : s'.incount = 0 := by
    rw [hs'.counted hcount, hnil, List.length_nil]
  refine ⟨s', ?_, hs', hnil, hzero⟩
  rw [show fuel = cs.length + (fuel - cs.length - 1 + 1) by omega, hloop,
    loop_done (hend s' hzero)]

end

end Transcode

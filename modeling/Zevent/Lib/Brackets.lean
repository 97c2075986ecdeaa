/-
# Bracketed notifications

A subscriber is told that something enters its view, then any number of times that it is still
there, and then that it leaves.  `Bracketed` says that a history is a prefix of such rounds.
`track` follows a history with one bit, whether the thing is in view now; a sender keeps a
history bracketed by keeping that bit.
-/
import Mathlib.Tactic

namespace Brackets

/-- What a notification says. -/
inductive Mark
  | enter
  | stay
  | leave
deriving DecidableEq, Repr

/-- One round with `k` notifications between the brackets. -/
def oneRound (k : ℕ) : List Mark := .enter :: (List.replicate k .stay ++ [.leave])

/-- A prefix of `(enter stay* leave)*`. -/
def Bracketed (l : List Mark) : Prop := ∃ ks : List ℕ, l <+: ks.flatMap oneRound

/-- Whether the thing is in view after a history, when the history is bracketed. -/
def track : Bool → List Mark → Option Bool
  | inView, [] => some inView
  | false, .enter :: l => track true l
  | true, .stay :: l => track true l
  | true, .leave :: l => track false l
  | true, .enter :: _ => none
  | false, .stay :: _ => none
  | false, .leave :: _ => none

/-- One walk after the other. -/
theorem track_append (o : Bool) (l m : List Mark) :
    track o (l ++ m) = (track o l).bind fun o' => track o' m := by
  induction l generalizing o with
  | nil => rfl
  | cons x l ih => cases o <;> cases x <;> simp [track, ih]

/-- A history that can be followed is the front of some rounds; one that is in view is the front
of the rest of a round and of more rounds. -/
theorem prefix_of_track {l : List Mark} :
    (∀ o, track false l = some o → ∃ ks : List ℕ, l <+: ks.flatMap oneRound)
      ∧ (∀ o, track true l = some o →
        ∃ (k : ℕ) (ks : List ℕ),
          l <+: List.replicate k .stay ++ .leave :: ks.flatMap oneRound) := by
  induction l with
  | nil => exact ⟨fun _ _ => ⟨[], List.nil_prefix⟩, fun _ _ => ⟨0, [], List.nil_prefix⟩⟩
  | cons x l ih =>
      obtain ⟨ihOut, ihIn⟩ := ih
      constructor
      · intro o h
        cases x with
        | enter =>
            obtain ⟨k, ks, hpre⟩ := ihIn o h
            refine ⟨k :: ks, ?_⟩
            rw [List.flatMap_cons, oneRound, List.cons_append, List.append_assoc]
            exact (List.prefix_cons_inj _).mpr hpre
        | stay => cases h
        | leave => cases h
      · intro o h
        cases x with
        | enter => cases h
        | stay =>
            obtain ⟨k, ks, hpre⟩ := ihIn o h
            refine ⟨k + 1, ks, ?_⟩
            rw [List.replicate_succ, List.cons_append]
            exact (List.prefix_cons_inj _).mpr hpre
        | leave =>
            obtain ⟨ks, hpre⟩ := ihOut o h
            refine ⟨0, ks, ?_⟩
            exact (List.prefix_cons_inj _).mpr hpre

/-- Marks that stay where they are change nothing inside of a bracket. -/
theorem track_replicate (k : ℕ) (l : List Mark) :
    track true (List.replicate k .stay ++ l) = track true l := by
  induction k with
  | zero => rfl
  | succ k ih => rw [List.replicate_succ, List.cons_append, track, ih]

/-- Rounds that open and close end outside. -/
theorem track_rounds (ks : List ℕ) : track false (ks.flatMap oneRound) = some false := by
  induction ks with
  | nil => rfl
  | cons k ks ih =>
      rw [List.flatMap_cons, oneRound, List.cons_append, track, List.append_assoc, track_replicate]
      exact ih

/-- **The bit is enough.** -/
theorem bracketed_iff (l : List Mark) : Bracketed l ↔ ∃ o, track false l = some o := by
  constructor
  · rintro ⟨ks, rest, hrest⟩
    have htrack := track_rounds ks
    rw [← hrest, track_append, Option.bind_eq_some_iff] at htrack
    obtain ⟨o, ho, -⟩ := htrack
    exact ⟨o, ho⟩
  · rintro ⟨o, ho⟩
    exact prefix_of_track.1 o ho

/-- The bit says whether there was one more `enter` than `leave`. -/
theorem count_of_track {l : List Mark} {o o' : Bool} (h : track o l = some o') :
    l.count .enter + o.toNat = l.count .leave + o'.toNat := by
  induction l generalizing o with
  | nil =>
      rw [track, Option.some.injEq] at h
      rw [h, List.count_nil, List.count_nil]
  | cons x l ih =>
      cases o <;> cases x <;> simp only [track, reduceCtorEq] at h
      · have := ih h
        simp at this ⊢
        omega
      · have := ih h
        simp at this ⊢
        omega
      · have := ih h
        simp at this ⊢
        omega

end Brackets

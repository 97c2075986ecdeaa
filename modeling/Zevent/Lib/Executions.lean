/-
# Executions of calls

A component is a partial function `step : σ → α → Option σ` of its state and a call, where
`none` says that the call fails.  Two properties of the execution of a list of calls:

* `Throughout step P s l`: no call fails, and `P` holds at the start and after every call.
* `AllSteps step ok s l`: every call satisfies `ok`, a condition on the state before it, up to
  the first one that fails.

`throughout_iff` turns an equivalence about one call into one about every list of calls.

A call that does not fail and gives an answer is a function `σ → α → β × σ`; `respond` is a list
of such calls, and `respond_map` says that two components answer alike when one is the image of
the other.  `respond_history` is the rule for what the state says about the calls so far.
-/
import Mathlib.Tactic

namespace Executions

variable {σ τ α β : Type*} {step : σ → α → Option σ} {P : σ → Prop} {ok legal : σ → α → Prop}

/-- No call fails, and the property holds at the start and after every call. -/
def Throughout (step : σ → α → Option σ) (P : σ → Prop) : σ → List α → Prop
  | s, [] => P s
  | s, a :: rest => P s ∧ ∃ s', step s a = some s' ∧ Throughout step P s' rest

/-- Every call up to the first one that fails satisfies the condition. -/
def AllSteps (step : σ → α → Option σ) (ok : σ → α → Prop) : σ → List α → Prop
  | _, [] => True
  | s, a :: rest => ok s a ∧ ∀ s', step s a = some s' → AllSteps step ok s' rest

instance AllSteps.decidable [∀ s a, Decidable (ok s a)] :
    (s : σ) → (l : List α) → Decidable (AllSteps step ok s l)
  | _, [] => inferInstanceAs (Decidable True)
  | s, a :: rest =>
      match h : step s a with
      | none => decidable_of_iff (ok s a) (by simp [AllSteps, h])
      | some s' =>
          have := AllSteps.decidable s' rest
          decidable_of_iff (ok s a ∧ AllSteps step ok s' rest) (by simp [AllSteps, h])

instance Throughout.decidable [DecidablePred P] :
    (s : σ) → (l : List α) → Decidable (Throughout step P s l)
  | s, [] => inferInstanceAs (Decidable (P s))
  | s, a :: rest =>
      match h : step s a with
      | none => .isFalse (by simp [Throughout, h])
      | some s' =>
          have := Throughout.decidable s' rest
          decidable_of_iff (P s ∧ Throughout step P s' rest) (by simp [Throughout, h])

theorem Throughout.start {s : σ} {l : List α} (h : Throughout step P s l) : P s := by
  cases l with
  | nil => exact h
  | cons a rest => exact h.1

/-- **From one call to all.**  If a legal call in a state with the property ends in one exactly
when it satisfies the condition, then the property holds throughout the legal calls of a list
exactly when all of them satisfy the condition.  `Inv` is what every call keeps anyway. -/
theorem throughout_iff (Inv : σ → Prop)
    (hinv : ∀ s a s', Inv s → step s a = some s' → Inv s')
    (hstep : ∀ s a, Inv s → P s → legal s a → ((∃ s', step s a = some s' ∧ P s') ↔ ok s a))
    {s : σ} {l : List α} (hs : Inv s) (hP : P s) (hlegal : AllSteps step legal s l) :
    Throughout step P s l ↔ AllSteps step ok s l := by
  induction l generalizing s with
  | nil => exact ⟨fun _ => trivial, fun _ => hP⟩
  | cons a rest ih =>
      obtain ⟨ha, hrest⟩ := hlegal
      have hiff := hstep s a hs hP ha
      constructor
      · rintro ⟨-, s', hs', hthrough⟩
        refine ⟨hiff.mp ⟨s', hs', hthrough.start⟩, fun s'' hs'' => ?_⟩
        rw [hs', Option.some.injEq] at hs''
        subst hs''
        exact (ih (hinv s a s' hs hs') hthrough.start (hrest _ hs')).mp hthrough
      · rintro ⟨hok, hall⟩
        obtain ⟨s', hs', hP'⟩ := hiff.mpr hok
        exact ⟨hP, s', hs', (ih (hinv s a s' hs hs') hP' (hrest _ hs')).mpr (hall _ hs')⟩

/-- Every list of calls keeps the contract that there is none. -/
theorem allSteps_true (step : σ → α → Option σ) (s : σ) (l : List α) :
    AllSteps step (fun _ _ => True) s l := by
  induction l generalizing s with
  | nil => exact trivial
  | cons a rest ih => exact ⟨trivial, fun s' _ => ih s'⟩

/-! ## Calls with answers -/

/-- The answers to a list of calls, and the state behind them. -/
def respond (call : σ → α → β × σ) : σ → List α → List β × σ
  | s, [] => ([], s)
  | s, a :: rest =>
      ((call s a).1 :: (respond call (call s a).2 rest).1, (respond call (call s a).2 rest).2)

/-- **The same answers.**  When each call in the image of a state answers as in the state, and
leads to the image of the state behind it, so does every list of calls. -/
theorem respond_map {call : σ → α → β × σ} {call' : τ → α → β × τ} {f : σ → τ}
    (h : ∀ s a, call' (f s) a = ((call s a).1, f (call s a).2)) (s : σ) (l : List α) :
    respond call' (f s) l = ((respond call s l).1, f (respond call s l).2) := by
  induction l generalizing s with
  | nil => rfl
  | cons a rest ih =>
      rw [respond, h]
      dsimp only
      rw [ih, respond]

/-- **The history rule.**  What holds before all calls, and is kept by one call more, holds of
every list of calls and the state behind it. -/
theorem respond_history {call : σ → α → β × σ} (Inv : List α → σ → Prop)
    (hstep : ∀ done s a, Inv done s → Inv (done ++ [a]) (call s a).2) {done : List α} {s : σ}
    (hs : Inv done s) (l : List α) : Inv (done ++ l) (respond call s l).2 := by
  induction l generalizing done s with
  | nil =>
      rw [List.append_nil]
      exact hs
  | cons a rest ih =>
      have hrest := ih (hstep done s a hs)
      rwa [List.append_assoc, List.singleton_append] at hrest

end Executions

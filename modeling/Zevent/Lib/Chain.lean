/-
# Linked chains

`Chain next head l` says that following the links `next` from `head` visits exactly
the nodes of `l`, in that order, and then ends.  A chain that ends is determined by its
head (`Chain.unique`), so it cannot visit a node twice (`Chain.nodup`): finiteness of
the walk already rules out a cycle.
-/
import Mathlib.Data.List.Nodup

/-- Following `next` from `head` visits exactly the nodes of the list and ends. -/
def Chain {A : Type*} (next : A → Option A) : Option A → List A → Prop
  | head, [] => head = none
  | head, a :: rest => head = some a ∧ Chain next (next a) rest

namespace Chain

variable {A : Type*} {next next' : A → Option A} {head : Option A} {l l' : List A}

@[simp] theorem nil_iff : Chain next head [] ↔ head = none := Iff.rfl

@[simp] theorem cons_iff {a : A} :
    Chain next head (a :: l) ↔ head = some a ∧ Chain next (next a) l := Iff.rfl

instance decidable [DecidableEq A] (next : A → Option A) :
    (head : Option A) → (l : List A) → Decidable (Chain next head l)
  | head, [] => inferInstanceAs (Decidable (head = none))
  | head, a :: rest =>
      have := decidable next (next a) rest
      inferInstanceAs (Decidable (head = some a ∧ Chain next (next a) rest))

/-- The head and the links determine the walk. -/
theorem unique (h : Chain next head l) (h' : Chain next head l') : l = l' := by
  induction l generalizing head l' with
  | nil =>
      cases l' with
      | nil => rfl
      | cons b rest =>
          rw [nil_iff] at h
          rw [cons_iff, h] at h'
          exact absurd h'.1 (by simp)
  | cons a rest ih =>
      obtain ⟨rfl, hrest⟩ := h
      cases l' with
      | nil => exact absurd h' (by simp)
      | cons b rest' =>
          obtain ⟨hab, hrest'⟩ := h'
          rw [Option.some.injEq] at hab
          subst hab
          rw [ih hrest hrest']

/-- Every node of the walk starts a chain of its own, a suffix of the walk. -/
theorem exists_suffix {a : A} (h : Chain next head l) (ha : a ∈ l) :
    ∃ pre rest, l = pre ++ a :: rest ∧ Chain next (next a) rest := by
  induction l generalizing head with
  | nil => exact absurd ha (by simp)
  | cons b rest ih =>
      obtain ⟨-, hrest⟩ := h
      rw [List.mem_cons] at ha
      obtain rfl | ha := ha
      · exact ⟨[], rest, rfl, hrest⟩
      · obtain ⟨pre, post, hl, hpost⟩ := ih hrest ha
        exact ⟨b :: pre, post, by rw [hl]; rfl, hpost⟩

/-- **A walk that ends is acyclic.** -/
theorem nodup (h : Chain next head l) : l.Nodup := by
  induction l generalizing head with
  | nil => exact List.nodup_nil
  | cons a rest ih =>
      obtain ⟨-, hrest⟩ := h
      refine List.nodup_cons.mpr ⟨fun ha => ?_, ih hrest⟩
      -- a second visit of `a` would be followed by the whole of `rest` again
      obtain ⟨pre, post, hl, hpost⟩ := hrest.exists_suffix ha
      have hlen := congrArg List.length hl
      rw [hrest.unique hpost] at hlen
      simp only [List.length_append, List.length_cons] at hlen
      omega

/-- Links outside the walk do not matter. -/
theorem congr (h : Chain next head l) (heq : ∀ a ∈ l, next' a = next a) :
    Chain next' head l := by
  induction l generalizing head with
  | nil => exact h
  | cons a rest ih =>
      obtain ⟨hhead, hrest⟩ := h
      refine ⟨hhead, ?_⟩
      rw [heq a List.mem_cons_self]
      exact ih hrest fun b hb => heq b (List.mem_cons_of_mem a hb)

/-- The first node of a chain is the first one of its list. -/
theorem head?_eq (h : Chain next head l) : head = l.head? := by
  cases l with
  | nil => exact h
  | cons a rest => exact h.1

/-- What is left of a walk is a walk. -/
theorem suffix {pre rest : List A} (h : Chain next head (pre ++ rest)) :
    Chain next rest.head? rest := by
  induction pre generalizing head with
  | nil => exact h.head?_eq ▸ h
  | cons a pre ih => exact ih h.2

/-- Making a node point past its successor takes the successor out of the walk. -/
theorem unlink [DecidableEq A] {a b : A} {pre rest : List A}
    (h : Chain next head (pre ++ b :: a :: rest)) :
    Chain (Function.update next b (next a)) head (pre ++ b :: rest) := by
  have hnodup := h.nodup
  induction pre generalizing head with
  | nil =>
      obtain ⟨hhead, -, hrest⟩ := h
      refine ⟨hhead, ?_⟩
      rw [Function.update_self]
      apply hrest.congr
      intro c hc
      rw [Function.update_of_ne]
      rintro rfl
      exact (List.nodup_cons.mp hnodup).1 (List.mem_cons_of_mem _ hc)
  | cons c pre ih =>
      obtain ⟨hhead, hrest⟩ := h
      have hne : c ≠ b := by
        rintro rfl
        exact (List.nodup_cons.mp hnodup).1 (by simp)
      refine ⟨hhead, ?_⟩
      rw [Function.update_of_ne hne]
      exact ih hrest (List.nodup_cons.mp hnodup).2

/-! ## Walks with a pointer to the link

A loop over a chain often keeps the address of the link it came through: the head, or the link
of the node it passed last.  `ref` is that node, and `none` stands for the head. -/

/-- Walk on to the first node that satisfies `stop`: the node passed last, and the node where
the walk ends.  `fuel` bounds the nodes looked at. -/
def walk (next : A → Option A) (stop : A → Bool) :
    ℕ → Option A → Option A → Option (Option A × Option A)
  | 0, _, _ => none
  | _ + 1, ref, none => some (ref, none)
  | fuel + 1, ref, some a =>
      if stop a then some (ref, some a) else walk next stop fuel (some a) (next a)

/-- The walk splits the chain in front of the first node that satisfies `stop`. -/
theorem walk_spec (stop : A → Bool) {fuel : ℕ} (ref : Option A) (h : Chain next head l)
    (hfuel : l.length < fuel) :
    ∃ pre rest, l = pre ++ rest
      ∧ walk next stop fuel ref head = some (pre.getLast?.or ref, rest.head?)
      ∧ (∀ a ∈ pre, stop a = false) ∧ ∀ a ∈ rest.head?, stop a = true := by
  induction fuel generalizing ref head l with
  | zero => exact absurd hfuel (Nat.not_lt_zero _)
  | succ fuel ih =>
      cases l with
      | nil =>
          rw [nil_iff] at h
          subst h
          exact ⟨[], [], rfl, rfl, by simp, by simp⟩
      | cons a l =>
          rw [cons_iff] at h
          obtain ⟨rfl, hnext⟩ := h
          rw [walk]
          split
          · rename_i hstop
            refine ⟨[], a :: l, rfl, rfl, by simp, fun b hb => ?_⟩
            rw [List.head?_cons, Option.mem_def, Option.some.injEq] at hb
            exact hb ▸ hstop
          · rename_i hgo
            rw [List.length_cons] at hfuel
            obtain ⟨pre, rest, rfl, hwalk, hpre, hrest⟩ := ih (some a) hnext (by omega)
            refine ⟨a :: pre, rest, rfl, ?_, fun b hb => ?_, hrest⟩
            · rw [hwalk]
              cases pre with
              | nil => rfl
              | cons b pre =>
                  rw [List.getLast?_cons_cons, List.getLast?_cons]
                  rfl
            · obtain rfl | hb := List.mem_cons.mp hb
              · exact Bool.eq_false_iff.mpr hgo
              · exact hpre b hb

/-- The links after a write through `ref`. -/
def relink [DecidableEq A] (next : A → Option A) (ref x : Option A) : A → Option A :=
  match ref with
  | none => next
  | some b => Function.update next b x

/-- The head after a write through `ref`. -/
def rehead (head ref x : Option A) : Option A :=
  match ref with
  | none => x
  | some _ => head

/-- **A write through the link** puts another chain in the place of the rest. -/
theorem splice [DecidableEq A] {pre rest rest' : List A} {x : Option A}
    (h : Chain next head (pre ++ rest)) (hx : Chain next x rest')
    (hnew : ∀ b ∈ pre.getLast?, b ∉ rest') :
    Chain (relink next pre.getLast? x) (rehead head pre.getLast? x) (pre ++ rest') := by
  rcases List.eq_nil_or_concat' pre with rfl | ⟨front, b, rfl⟩
  · exact hx
  · rw [List.getLast?_concat] at hnew ⊢
    rw [List.append_assoc, List.singleton_append] at h ⊢
    have hnodup := h.nodup
    show Chain (Function.update next b x) head (front ++ b :: rest')
    have hafter : Chain (Function.update next b x) x rest' := by
      refine hx.congr fun c hc => Function.update_of_ne ?_ _ _
      rintro rfl
      exact hnew c rfl hc
    clear hx hnew
    induction front generalizing head with
    | nil =>
        refine ⟨h.1, ?_⟩
        rw [Function.update_self]
        exact hafter
    | cons c front ih =>
        have hne : c ≠ b := by
          rintro rfl
          exact (List.nodup_cons.mp hnodup).1 (by simp)
        refine ⟨h.1, ?_⟩
        rw [Function.update_of_ne hne]
        exact ih h.2 (List.nodup_cons.mp hnodup).2

end Chain

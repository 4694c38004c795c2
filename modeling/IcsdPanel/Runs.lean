-- Runs of a system that takes one input after the other, and what holds at
-- each of their steps.
import Mathlib.Tactic.Common

namespace runs

variable {σ ι : Type}

/-- The state after a list of inputs. -/
def final (step : σ → ι → σ) : σ → List ι → σ
  | s, [] => s
  | s, i :: is => final step (step s i) is

/-- At every step of the run the state before it and its input have `P`. -/
def Throughout (step : σ → ι → σ) (P : σ → ι → Prop) : σ → List ι → Prop
  | _, [] => True
  | s, i :: is => P s i ∧ Throughout step P (step s i) is

instance decidableThroughout (step : σ → ι → σ) (P : σ → ι → Prop) [∀ s i, Decidable (P s i)] :
    (s : σ) → (is : List ι) → Decidable (Throughout step P s is)
  | _, [] => .isTrue trivial
  | s, i :: is =>
    have := decidableThroughout step P (step s i) is
    inferInstanceAs (Decidable (P s i ∧ Throughout step P (step s i) is))

variable {step : σ → ι → σ} {I : σ → Prop} {P Q : σ → ι → Prop} {s : σ} {is : List ι}

theorem throughout_true (step : σ → ι → σ) (s : σ) (is : List ι) : Throughout step (fun _ _ => True) s is := by
  induction is generalizing s with
  | nil => trivial
  | cons i is ih => exact ⟨trivial, ih (step s i)⟩

theorem final_append (is js : List ι) : final step s (is ++ js) = final step (final step s is) js := by
  induction is generalizing s with
  | nil => rfl
  | cons i is ih => exact ih

theorem throughout_append {js : List ι} : Throughout step P s (is ++ js) ↔
    Throughout step P s is ∧ Throughout step P (final step s is) js := by
  induction is generalizing s with
  | nil => simp [Throughout, final]
  | cons i is ih => simp only [List.cons_append, Throughout, final, ih, and_assoc]

/-- What holds at every step holds wherever the run is cut. -/
theorem throughout_iff : Throughout step P s is ↔
    ∀ before i after, is = before ++ i :: after → P (final step s before) i := by
  induction is generalizing s with
  | nil => simp [Throughout]
  | cons i is ih =>
    rw [Throughout, ih]
    constructor
    · rintro ⟨h, hrest⟩ before j after heq
      cases before with
      | nil =>
        obtain ⟨rfl, -⟩ := List.cons.inj heq
        exact h
      | cons k before =>
        obtain ⟨rfl, htail⟩ := List.cons.inj heq
        exact hrest before j after htail
    · intro h
      refine ⟨h [] i is rfl, fun before j after heq => h (i :: before) j after ?_⟩
      rw [heq, List.cons_append]

/-- An invariant of the steps with `P`, and what follows from it at each. -/
theorem throughout_of_invariant (hstep : ∀ s i, I s → P s i → I (step s i) ∧ Q s i) (h0 : I s)
    (h : Throughout step P s is) : Throughout step Q s is ∧ I (final step s is) := by
  induction is generalizing s with
  | nil => exact ⟨trivial, h0⟩
  | cons i is ih =>
    obtain ⟨hP, hrest⟩ := h
    obtain ⟨hI, hQ⟩ := hstep s i h0 hP
    obtain ⟨h1, h2⟩ := ih hI hrest
    exact ⟨⟨hQ, h1⟩, h2⟩

/-- An invariant of the steps with an input of `P`. -/
theorem final_invariant {P : ι → Prop} (hstep : ∀ s i, I s → P i → I (step s i)) (h0 : I s)
    (h : ∀ i ∈ is, P i) : I (final step s is) := by
  induction is generalizing s with
  | nil => exact h0
  | cons i is ih =>
    exact ih (hstep s i h0 (h i List.mem_cons_self)) fun j hj => h j (List.mem_cons_of_mem i hj)

/-- An invariant whose step needs that `count`, of the inputs so far, is below a bound. -/
theorem final_counted {P : ι → Prop} {count : σ → Nat} {bound : Nat}
    (hcount : ∀ s i, count (step s i) = count s + 1) (hstep : ∀ s i, I s → P i → count s < bound → I (step s i))
    (h0 : I s) (h : ∀ i ∈ is, P i) (hbound : count s + is.length ≤ bound) : I (final step s is) := by
  induction is generalizing s with
  | nil => exact h0
  | cons i is ih =>
    rw [List.length_cons] at hbound
    refine ih (hstep s i h0 (h i List.mem_cons_self) (by omega)) (fun j hj => h j (List.mem_cons_of_mem i hj)) ?_
    rw [hcount]
    omega

end runs

-- Python's `str.replace`: what is found from left to right is replaced, and what is
-- left of the text is as it was.
import Mathlib.Data.List.Infix
import Mathlib.Tactic.Common

namespace replacing

variable {α : Type} {old new t s : List α} {n : Nat}

/-- No letter of the one is in the other. -/
def Apart (t new : List α) : Prop := ∀ c ∈ t, c ∉ new

/-- What is in two texts next to each other, and has no letter of the first. -/
theorem infix_apart (hapart : Apart t new) (ht : t ≠ []) (h : t <:+: new ++ s) : t <:+: s := by
  induction new with
  | nil => exact h
  | cons y new ih =>
    rw [List.cons_append, List.infix_cons_iff] at h
    rcases h with h | h
    · cases t with
      | nil => exact absurd rfl ht
      | cons x t =>
        rw [List.cons_prefix_cons] at h
        exact absurd (h.1 ▸ List.mem_cons_self) (hapart x List.mem_cons_self)
    · exact ih (fun a ha hmem => hapart a ha (List.mem_cons_of_mem y hmem)) h

variable [DecidableEq α]

/-- The text after the first `n` letters. -/
def replaceFrom (old new : List α) : Nat → List α → List α
  | _, [] => []
  | n + 1, _ :: s => replaceFrom old new n s
  | 0, c :: s =>
    if old.isPrefixOf (c :: s) then new ++ replaceFrom old new (old.length - 1) s
    else c :: replaceFrom old new 0 s

/-- `s.replace(old, new)`, for an `old` that is not empty. -/
def replace (old new s : List α) : List α := replaceFrom old new 0 s

/-- What starts the new text starts the old one, unless it has letters of `new`. -/
theorem prefix_replaceFrom (hapart : Apart t new) (hnew : new ≠ []) (h : t <+: replaceFrom old new 0 s) : t <+: s := by
  induction s generalizing t with
  | nil => exact h
  | cons c s ih =>
    cases t with
    | nil => exact List.nil_prefix
    | cons x t =>
      rw [replaceFrom] at h
      split at h
      · cases new with
        | nil => exact absurd rfl hnew
        | cons y new =>
          rw [List.cons_append, List.cons_prefix_cons] at h
          exact absurd (h.1 ▸ List.mem_cons_self) (hapart x List.mem_cons_self)
      · rw [List.cons_prefix_cons] at h ⊢
        exact ⟨h.1, ih (fun a ha => hapart a (List.mem_cons_of_mem x ha)) h.2⟩

/-- Nothing without letters of `new` comes up that was not there. -/
theorem infix_replaceFrom (hapart : Apart t new) (hnew : new ≠ []) (ht : t ≠ [])
    (h : t <:+: replaceFrom old new n s) : t <:+: s := by
  induction s generalizing n with
  | nil =>
    rw [replaceFrom] at h
    exact h
  | cons c s ih =>
    cases n with
    | succ n => exact (ih h).trans (List.suffix_cons c s).isInfix
    | zero =>
      rw [replaceFrom] at h
      split at h
      · exact (ih (infix_apart hapart ht h)).trans (List.suffix_cons c s).isInfix
      · rw [List.infix_cons_iff] at h
        rcases h with h | h
        · have hpre : t <+: c :: s := by
            cases t with
            | nil => exact List.nil_prefix
            | cons x t =>
              rw [List.cons_prefix_cons] at h ⊢
              exact ⟨h.1, prefix_replaceFrom (fun a ha => hapart a (List.mem_cons_of_mem x ha)) hnew h.2⟩
          exact hpre.isInfix
        · exact (ih h).trans (List.suffix_cons c s).isInfix

/-- What is replaced is gone, when it has no letter of `new`. -/
theorem not_infix_replaceFrom (hapart : Apart old new) (hnew : new ≠ []) (hold : old ≠ []) :
    ¬ old <:+: replaceFrom old new n s := by
  induction s generalizing n with
  | nil =>
    rw [replaceFrom, List.infix_nil]
    exact hold
  | cons c s ih =>
    cases n with
    | succ n => exact ih
    | zero =>
      rw [replaceFrom]
      split
      · exact fun h => ih (infix_apart hapart hold h)
      next hno =>
        rw [List.infix_cons_iff]
        rintro (h | h)
        · cases old with
          | nil => exact hold rfl
          | cons x old =>
            rw [List.cons_prefix_cons] at h
            have hrest := prefix_replaceFrom (fun a ha => hapart a (List.mem_cons_of_mem x ha)) hnew h.2
            refine hno (List.isPrefixOf_iff_prefix.mpr ?_)
            rw [List.cons_prefix_cons]
            exact ⟨h.1, hrest⟩
        · exact ih h

theorem replace_eq_nil (hnew : new ≠ []) : replace old new s = [] ↔ s = [] := by
  unfold replace
  cases s with
  | nil => simp [replaceFrom]
  | cons c s =>
    rw [replaceFrom]
    split <;> simp [hnew]

end replacing

-- The order of strings: the first letters that differ decide, by a number that each
-- letter has, and a string comes before all that it starts.
import Mathlib.Data.List.Basic
import Mathlib.Tactic.Common

namespace orders

variable {α : Type} {key : α → Nat} {s t u : List α}

/-- `<=` of strings whose letters are compared by `key`. -/
def lexLe (key : α → Nat) : List α → List α → Bool
  | [], _ => true
  | _ :: _, [] => false
  | a :: s, b :: t => key a < key b || (key a = key b && lexLe key s t)

theorem lexLe_cons {a b : α} : lexLe key (a :: s) (b :: t) = true ↔
    key a < key b ∨ key a = key b ∧ lexLe key s t = true := by
  rw [lexLe, Bool.or_eq_true, Bool.and_eq_true, decide_eq_true_eq, decide_eq_true_eq]

theorem lexLe_total (s t : List α) : lexLe key s t = true ∨ lexLe key t s = true := by
  induction s generalizing t with
  | nil => exact .inl rfl
  | cons a s ih =>
    cases t with
    | nil => exact .inr rfl
    | cons b t =>
      rw [lexLe_cons, lexLe_cons]
      rcases Nat.lt_trichotomy (key a) (key b) with h | h | h
      · exact .inl (.inl h)
      · rcases ih t with h' | h'
        · exact .inl (.inr ⟨h, h'⟩)
        · exact .inr (.inr ⟨h.symm, h'⟩)
      · exact .inr (.inl h)

theorem lexLe_self (s : List α) : lexLe key s s = true := or_self_iff.mp (lexLe_total s s)

theorem lexLe_trans (h : lexLe key s t = true) (h' : lexLe key t u = true) : lexLe key s u = true := by
  induction s generalizing t u with
  | nil => rfl
  | cons a s ih =>
    cases t with
    | nil => cases h
    | cons b t =>
      cases u with
      | nil => cases h'
      | cons c u =>
        rw [lexLe_cons] at h h' ⊢
        rcases h with h | ⟨hab, h⟩
        · rcases h' with h' | ⟨hbc, -⟩
          · exact .inl (Nat.lt_trans h h')
          · exact .inl (hbc ▸ h)
        · rcases h' with h' | ⟨hbc, h'⟩
          · exact .inl (hab ▸ h')
          · exact .inr ⟨hab.trans hbc, ih h h'⟩

theorem lexLe_antisymm (hkey : ∀ a b, key a = key b → a = b) (h : lexLe key s t = true)
    (h' : lexLe key t s = true) : s = t := by
  induction s generalizing t with
  | nil =>
    cases t with
    | nil => rfl
    | cons b t => cases h'
  | cons a s ih =>
    cases t with
    | nil => cases h
    | cons b t =>
      rw [lexLe_cons] at h h'
      rcases h with h | ⟨hab, h⟩
      · rcases h' with h' | ⟨hba, -⟩ <;> omega
      · rcases h' with h' | ⟨-, h'⟩
        · omega
        · rw [hkey a b hab, ih h h']

/-- A list sorted by such strings: no string is before one that it follows. -/
theorem sorted_lexLe {β : Type} (key : α → Nat) (f : β → List α) (l : List β) :
    (l.mergeSort fun a b => lexLe key (f a) (f b)).Pairwise fun a b => lexLe key (f a) (f b) = true :=
  @List.pairwise_mergeSort _ (fun a b => lexLe key (f a) (f b)) (fun _ _ _ hab hbc => lexLe_trans hab hbc)
    (fun a b => by
      rw [Bool.or_eq_true]
      exact lexLe_total (f a) (f b))
    l

end orders

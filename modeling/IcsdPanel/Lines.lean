-- The lines of a text, over any letters: what Go's `strings` makes of newlines.
import Mathlib.Tactic.Common

namespace lines

variable {α : Type} [DecidableEq α] {newline : α} {n : Nat} {s : List α}

/-- `strings.TrimRight(s, "\n")` -/
def trimRight (newline : α) (s : List α) : List α := (s.reverse.dropWhile fun c => c = newline).reverse

/-- The last lines of a text, `n` at most. -/
def lastOf (newline : α) (n : Nat) (s : List α) : List α :=
  let ls := s.splitOn newline
  [newline].intercalate (ls.drop (ls.length - n))

theorem splitOn_self (s : List α) : (newline :: s).splitOn newline = [] :: s.splitOn newline := by
  rw [List.splitOn_cons_eq_if_modifyHead, if_pos (beq_self_eq_true newline)]

theorem splitOn_other {c : α} (hc : c ≠ newline) {l : List α} (hs : s.splitOn newline = l :: ls) :
    (c :: s).splitOn newline = (c :: l) :: ls := by
  rw [List.splitOn_cons_eq_if_modifyHead, if_neg (by simpa using hc), hs]
  rfl

/-- Two lines are not empty, together with the newline between them. -/
theorem intercalate_ne_nil {α : Type} {newline : α} {ls : List (List α)} (h : 2 ≤ ls.length) :
    [newline].intercalate ls ≠ [] := by
  match ls with
  | l :: m :: ls =>
    rw [List.intercalate_cons_cons]
    simp

/-- The last lines are empty only when there is no text. -/
theorem lastOf_eq_nil (hn : 2 ≤ n) : lastOf newline n s = [] ↔ s = [] := by
  have hjoin : [newline].intercalate (s.splitOn newline) = s := List.intercalate_splitOn newline
  unfold lastOf
  simp only
  by_cases hlen : (s.splitOn newline).length ≤ n
  · rw [Nat.sub_eq_zero_of_le hlen, List.drop_zero, hjoin]
  · refine iff_of_false (intercalate_ne_nil ?_) ?_
    · rw [List.length_drop]
      omega
    · rintro rfl
      rw [List.splitOn_nil, List.length_singleton] at hlen
      omega

end lines

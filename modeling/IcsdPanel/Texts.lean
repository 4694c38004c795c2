-- Python's `str` as a list of characters, as far as the hub uses it.
import Mathlib.Data.List.DropRight
import Mathlib.Tactic.Common

namespace texts

abbrev Str := List Char

/-- `str.isspace` of a character. -/
def isspace (c : Char) : Bool :=
  let n := c.toNat
  (9 ≤ n && n ≤ 13) || (28 ≤ n && n ≤ 32) || n = 0x85 || n = 0xa0 || n = 0x1680 ||
    (0x2000 ≤ n && n ≤ 0x200a) || n = 0x2028 || n = 0x2029 || n = 0x202f || n = 0x205f || n = 0x3000

/-- `s.strip()` -/
def strip (s : Str) : Str := s.dropWhile isspace |>.rdropWhile isspace

/-- `s.partition(c)` without the separator. -/
def partition (c : Char) (s : Str) : Str × Str :=
  (s.takeWhile (· ≠ c), (s.dropWhile (· ≠ c)).drop 1)

/-- No character at the ends is white space. -/
theorem strip_of_none {s : Str} (h : ∀ c ∈ s, isspace c = false) : strip s = s := by
  have hfirst : s.dropWhile isspace = s := by
    cases s with
    | nil => rfl
    | cons c s => rw [List.dropWhile_cons, h c List.mem_cons_self, if_neg Bool.false_ne_true]
  unfold strip
  rw [hfirst, List.rdropWhile_eq_self_iff]
  intro hne
  simp [h _ (List.getLast_mem hne)]

theorem partition_append {c : Char} {a b : Str} (h : c ∉ a) : partition c (a ++ c :: b) = (a, b) := by
  have hall : ∀ x ∈ a, (decide (x ≠ c)) = true := by
    intro x hx
    simp only [ne_eq, decide_not, Bool.not_eq_true', decide_eq_false_iff_not]
    rintro rfl
    exact h hx
  unfold partition
  rw [List.takeWhile_append_of_pos hall, List.dropWhile_append_of_pos hall]
  simp

end texts

-- Averages that are kept by merging parts: what rounding to a grid after each
-- merge can do to them.
import Mathlib.Algebra.Order.Field.Rat
import Mathlib.Algebra.Order.Field.Basic
import Mathlib.Algebra.Order.Ring.Abs
import Mathlib.Tactic.FieldSimp
import Mathlib.Tactic.Linarith
import Mathlib.Tactic.Ring

namespace means

/-- Rounding to the nearest point of a grid of width `2 * u`. -/
structure Nearest (u : ℚ) (round : ℚ → ℚ) : Prop where
  near : ∀ q, |round q - q| ≤ u

variable {u a b e d x y n m : ℚ} {round : ℚ → ℚ}

/-- The weighted average of two values is as near to that of their aims as the
worse of the two. -/
theorem weighted_near (hn : 0 < n) (hm : 0 < m) (ha : |a - x| ≤ e) (hb : |b - y| ≤ d) (hde : d ≤ e) :
    |(a * n + b * m) / (n + m) - (x * n + y * m) / (n + m)| ≤ e := by
  have hpos : 0 < n + m := by linarith
  rw [← sub_div, abs_div, abs_of_pos hpos, div_le_iff₀ hpos]
  have hsplit : a * n + b * m - (x * n + y * m) = (a - x) * n + (b - y) * m := by ring
  calc |a * n + b * m - (x * n + y * m)|
      = |(a - x) * n + (b - y) * m| := by rw [hsplit]
    _ ≤ |(a - x) * n| + |(b - y) * m| := abs_add_le _ _
    _ = |a - x| * n + |b - y| * m := by rw [abs_mul, abs_mul, abs_of_pos hn, abs_of_pos hm]
    _ ≤ e * n + e * m :=
        add_le_add (mul_le_mul_of_nonneg_right ha hn.le)
          (mul_le_mul_of_nonneg_right (hb.trans hde) hm.le)
    _ = e * (n + m) := by ring

/-- One merge adds one rounding error to that of the worse part. -/
theorem merge_near (hr : Nearest u round) (hn : 0 < n) (hm : 0 < m) (ha : |a - x / n| ≤ e)
    (hb : |b - y / m| ≤ d) (hde : d ≤ e) :
    |round ((a * n + b * m) / (n + m)) - (x + y) / (n + m)| ≤ e + u := by
  have hw := weighted_near hn hm ha hb hde
  rw [div_mul_cancel₀ x hn.ne', div_mul_cancel₀ y hm.ne'] at hw
  have := hr.near ((a * n + b * m) / (n + m))
  calc |round ((a * n + b * m) / (n + m)) - (x + y) / (n + m)|
      ≤ |round ((a * n + b * m) / (n + m)) - (a * n + b * m) / (n + m)|
        + |(a * n + b * m) / (n + m) - (x + y) / (n + m)| := abs_sub_le _ _ _
    _ ≤ e + u := by linarith

end means

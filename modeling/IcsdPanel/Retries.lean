-- The agent dials the hub again after each session: how long it waits, and that it
-- never hammers the hub.
import Mathlib.Algebra.Order.Ring.Nat
import Mathlib.Data.List.Induction
import IcsdPanel.Runs

namespace icsd_panel.retries

/-! ## The loop of `Run` -/

def second : Nat := 1000000000

def minute : Nat := 60 * second

/-- A turn of the loop: how long the session lasted, in nanoseconds, whether it ended with
`CloseUnauthorized`, and what `rand.Int64N(n + 1)` draws. -/
structure Session where
  lasted : Nat
  rejected : Bool
  draw : (n : Nat) → Fin (n + 1)

/-- The clock at a dial, and the backoff. -/
structure Dial where
  clock : Nat
  backoff : Nat

def start : Dial := ⟨0, second⟩

def waitOf (backoff : Nat) (s : Session) : Nat := if s.rejected then 5 * minute else backoff

/-- The wait with its jitter. -/
def pause (backoff : Nat) (s : Session) : Nat := waitOf backoff s + (s.draw (waitOf backoff s / 4)).val

def nextBackoff (backoff : Nat) (s : Session) : Nat :=
  -- it was a healthy session; start over
  if minute < s.lasted then second else if backoff < minute then 2 * backoff else backoff

def step (d : Dial) (s : Session) : Dial := ⟨d.clock + s.lasted + pause d.backoff s, nextBackoff d.backoff s⟩

variable {d : Dial} {s : Session} {ss before : List Session} {b k : Nat}

/-- How many sessions at the end were short. -/
def shortOnes (ss : List Session) : Nat := (ss.reverse.takeWhile fun s => s.lasted ≤ minute).length

/-! ## The waits -/

theorem shortOnes_snoc : shortOnes (ss ++ [s]) = if s.lasted ≤ minute then shortOnes ss + 1 else 0 := by
  unfold shortOnes
  rw [List.reverse_append, List.reverse_singleton, List.singleton_append, List.takeWhile_cons]
  by_cases h : s.lasted ≤ minute <;> simp [h]

/-- The backoff doubles with each short session, up to about a minute. -/
theorem backoff_told (ss : List Session) : (runs.final step start ss).backoff = 2 ^ min 6 (shortOnes ss) * second := by
  induction ss using List.reverseRecOn with
  | nil => rfl
  | append_singleton ss s ih =>
    rw [runs.final_append, shortOnes_snoc]
    simp only [runs.final, step, nextBackoff, ih]
    by_cases hlong : minute < s.lasted
    · rw [if_pos hlong, if_neg (Nat.not_le.mpr hlong)]
      simp
    · rw [if_neg hlong, if_pos (Nat.le_of_not_lt hlong)]
      rcases Nat.lt_or_ge (shortOnes ss) 6 with hfew | hmany
      · have hpow : 2 ^ shortOnes ss ≤ 2 ^ 5 := Nat.pow_le_pow_right (by decide) (by omega)
        have hless : 2 ^ shortOnes ss * second < minute := by
          unfold minute second
          omega
        rw [min_eq_right hfew.le, min_eq_right (by omega), if_pos hless, Nat.pow_succ', Nat.mul_assoc]
      · rw [min_eq_left hmany, min_eq_left (by omega), if_neg (by unfold minute; omega)]

/-- After each session of a run the agent waits five minutes when it was rejected, else
as many seconds as the sessions before that were short doubled it, at most 64, and at
most a quarter more. -/
theorem waits_told (before : List Session) (s : Session) :
    let w := if s.rejected then 5 * minute else 2 ^ min 6 (shortOnes before) * second
    w ≤ pause (runs.final step start before).backoff s ∧ pause (runs.final step start before).backoff s ≤ w + w / 4 ∧
      w ≤ if s.rejected then 5 * minute else 64 * second := by
  intro w
  have hw : waitOf (runs.final step start before).backoff s = w := by rw [waitOf, backoff_told]
  have hdraw := (s.draw (waitOf (runs.final step start before).backoff s / 4)).isLt
  refine ⟨by unfold pause; omega, by unfold pause; omega, ?_⟩
  unfold w
  split
  · exact Nat.le_refl _
  · have hpow : 2 ^ min 6 (shortOnes before) ≤ 2 ^ 6 := Nat.pow_le_pow_right (by decide) (Nat.min_le_left _ _)
    exact Nat.mul_le_mul_right second hpow

/-! ## The dials -/

theorem wait_le_pause : waitOf b s ≤ pause b s := Nat.le_add_right _ _

theorem clock_le (d : Dial) (ss : List Session) : d.clock ≤ (runs.final step d ss).clock := by
  induction ss generalizing d with
  | nil => exact Nat.le_refl _
  | cons s ss ih => exact Nat.le_trans (by simp only [step]; omega) (ih (step d s))

/-- From a backoff on, some sessions take a minute, or all the waits that double. -/
theorem spaced (ss : List Session) (hb : 2 ^ k * second ≤ d.backoff) (hk : k + ss.length ≤ 6) :
    d.clock + minute ≤ (runs.final step d ss).clock ∨
      d.clock + 2 ^ (k + ss.length) * second ≤ (runs.final step d ss).clock + 2 ^ k * second := by
  induction ss generalizing d k with
  | nil => exact .inr (Nat.le_refl _)
  | cons s ss ih =>
    rw [List.length_cons] at hk
    have hlater : (step d s).clock ≤ (runs.final step d (s :: ss)).clock := clock_le (step d s) ss
    have hpause : waitOf d.backoff s ≤ pause d.backoff s := wait_le_pause
    have hclock : (step d s).clock = d.clock + s.lasted + pause d.backoff s := rfl
    by_cases hlong : minute < s.lasted
    · exact .inl (by omega)
    by_cases hrej : s.rejected = true
    · rw [waitOf, if_pos hrej] at hpause
      exact .inl (by omega)
    rw [waitOf, if_neg hrej] at hpause
    by_cases hbig : d.backoff < minute
    · have hnext : (step d s).backoff = 2 * d.backoff := by
        simp only [step, nextBackoff]
        rw [if_neg hlong, if_pos hbig]
      have hpow : 2 ^ (k + 1) * second = 2 * (2 ^ k * second) := by rw [Nat.pow_succ', Nat.mul_assoc]
      have hdouble : 2 ^ (k + 1) * second ≤ (step d s).backoff := by omega
      rcases ih hdouble (by omega) with h | h
      · exact .inl (Nat.le_trans (by omega) h)
      · refine .inr ?_
        rw [List.length_cons, show k + (ss.length + 1) = k + 1 + ss.length by omega]
        change d.clock + _ ≤ (runs.final step (step d s) ss).clock + _
        omega
    · exact .inl (by omega)

/-- Whatever happened before, and however the sessions end, from a dial to the sixth
one after it there is at least a minute. -/
theorem dials_spaced (before ss : List Session) (h : ss.length = 6) :
    (runs.final step start before).clock + minute ≤ (runs.final step start (before ++ ss)).clock := by
  rw [runs.final_append]
  have hb : 2 ^ 0 * second ≤ (runs.final step start before).backoff := by
    rw [backoff_told]
    exact Nat.mul_le_mul_right second (Nat.pow_le_pow_right (by decide) (Nat.zero_le _))
  rcases spaced ss hb (by omega) with hminute | hdouble
  · exact hminute
  · rw [h] at hdouble
    unfold minute
    omega

/-- Six dials that the hub refuses at once. -/
def refusals : List Session := List.replicate 6 ⟨0, false, fun _ => 0⟩

theorem refusals_spaced : (runs.final step start []).clock + minute ≤ (runs.final step start ([] ++ refusals)).clock :=
  dials_spaced [] refusals rfl

end icsd_panel.retries

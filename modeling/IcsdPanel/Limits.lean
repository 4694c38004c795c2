-- Limits: a check that is made only while less than `m` rows of the last `w`
-- seconds are there, and leaves a row, is made at most `m` times in any `w`
-- seconds.
import Mathlib.Data.List.Basic
import Mathlib.Tactic.Common

namespace limits

variable {w m clock clock' now s stamp t : Nat} {hits rows rows' : List Nat}

/-- How many of the times are younger than `w` at a time. -/
def recent (w t : Nat) (times : List Nat) : Nat := times.countP fun s => t < s + w

/-- How many of the times are in the `w` seconds up to a time. -/
def within (w t : Nat) (times : List Nat) : Nat := times.countP fun s => s ≤ t ∧ t < s + w

/-- At a clock, all checks so far are past, the rows stand for those that can
still count, and there were never more than `m` of them in a window. -/
structure Kept (w m clock : Nat) (hits rows : List Nat) : Prop where
  past : ∀ s ∈ hits, s ≤ clock
  covered : ∀ t, clock ≤ t → recent w t hits ≤ recent w t rows
  bounded : ∀ t, within w t hits ≤ m

theorem within_le_recent : within w t hits ≤ recent w t hits := by
  refine List.countP_mono_left fun s _ h => ?_
  simp only [decide_eq_true_eq] at h ⊢
  exact h.2

theorem recent_append (xs ys : List Nat) : recent w t (xs ++ ys) = recent w t xs + recent w t ys :=
  List.countP_append

theorem recent_singleton : recent w t [s] = if t < s + w then 1 else 0 := by
  simp [recent, List.countP_cons]

theorem within_snoc : within w t (hits ++ [s]) = within w t hits + if s ≤ t ∧ t < s + w then 1 else 0 := by
  simp [within, List.countP_append, List.countP_cons]

theorem kept_nil : Kept w m clock [] rows where
  past s hs := by simp at hs
  covered t _ := by simp [recent]
  bounded t := by simp [within]

/-- Time goes on, and the rows that can still count stay. -/
theorem Kept.later (hk : Kept w m clock hits rows) (hclock : clock ≤ clock')
    (hrows : ∀ t, clock' ≤ t → recent w t rows ≤ recent w t rows') : Kept w m clock' hits rows' where
  past s hs := Nat.le_trans (hk.past s hs) hclock
  covered t ht := Nat.le_trans (hk.covered t (Nat.le_trans hclock ht)) (hrows t ht)
  bounded := hk.bounded

theorem Kept.more (hk : Kept w m clock hits rows) (xs : List Nat) : Kept w m clock hits (rows ++ xs) :=
  hk.later (Nat.le_refl clock) fun t _ => by rw [recent_append]; omega

/-- Old rows can go. -/
theorem Kept.prune (hk : Kept w m clock hits rows) (hclock : clock ≤ now) :
    Kept w m now hits (rows.filter fun s => now ≤ s + w) := by
  refine hk.later hclock fun t ht => ?_
  unfold recent
  rw [List.countP_filter]
  refine List.countP_mono_left fun s _ hs => ?_
  simp only [Bool.and_eq_true, decide_eq_true_eq] at hs ⊢
  omega

/-- A check that the rows allow, and that leaves one. -/
theorem Kept.hit (hk : Kept w m clock hits rows) (hclock : clock ≤ now) (hfew : recent w now rows < m)
    (hs : now ≤ s) (hstamp : s ≤ stamp) (hlater : s ≤ clock') :
    Kept w m clock' (hits ++ [s]) (rows ++ [stamp]) where
  past := by
    intro a ha
    rcases List.mem_append.mp ha with ha | ha
    · exact Nat.le_trans (hk.past a ha) (by omega)
    · rw [List.mem_singleton.mp ha]
      exact hlater
  covered := by
    intro t ht
    rw [recent_append, recent_append, recent_singleton, recent_singleton]
    have := hk.covered t (by omega)
    split <;> split <;> omega
  bounded := by
    intro t
    rw [within_snoc]
    by_cases hin : s ≤ t ∧ t < s + w
    · rw [if_pos hin]
      -- what is in the window with `s` was counted before `s`
      have hcounted : within w t hits ≤ recent w now hits := by
        refine List.countP_mono_left fun a _ ha => ?_
        simp only [decide_eq_true_eq] at ha ⊢
        omega
      have := hk.covered now hclock
      omega
    · rw [if_neg hin]
      exact hk.bounded t

/-- A full window shows in the rows. -/
theorem Kept.full (hk : Kept w m clock hits rows) (hclock : clock ≤ now) (hfull : m ≤ within w now hits) :
    m ≤ recent w now rows :=
  calc m ≤ within w now hits := hfull
    _ ≤ recent w now hits := within_le_recent
    _ ≤ recent w now rows := hk.covered now hclock

end limits

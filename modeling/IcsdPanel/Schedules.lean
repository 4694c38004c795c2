-- When the backup plans run: each next run is counted from the start hour of the
-- day, in Tehran.
import IcsdPanel.Minutes
import Mathlib.Data.Nat.Prime.Defs

open means runs

namespace icsd_panel.schedules

open live minutes

/-! ## The next run -/

/-- `notify.TEHRAN`, in seconds ahead of UTC. -/
def tehran : Int := 3 * 3600 + 30 * 60

/-- `datetime.fromtimestamp(after, tz)`: the wall clock there, in microseconds. -/
def fromTimestamp (after : ℚ) : Int := roundEven (after * 1000000) + tehran * 1000000

/-- `now.replace(hour=start_hour % 24, minute=0, …)`, and the day before where that is
ahead; in seconds of the wall clock. -/
def anchor (startHour : Nat) (now : Int) : Int :=
  let t := now / 86400000000 * 86400 + (startHour % 24 : Nat) * 3600
  if now < t * 1000000 then t - 86400 else t

/-- `timedelta(hours=max(1, every_hours))` -/
def stepOf (everyHours : Nat) : Int := 3600 * max 1 everyHours

theorem stepOf_pos (everyHours : Nat) : 0 < stepOf everyHours := by
  unfold stepOf
  omega

/-- The loop of `next_run`. -/
def later (everyHours : Nat) (after : ℚ) (t : Int) : Int :=
  if (t : ℚ) ≤ after then later everyHours after (t + stepOf everyHours) else t
termination_by (⌊after⌋ + 1 - t).toNat
decreasing_by
  rename_i h
  have hle : t ≤ ⌊after⌋ := Int.le_floor.mpr h
  have hpos := stepOf_pos everyHours
  omega

/-- `next_run`. No time, and the time 0 alike, is the time of the clock. -/
def nextRun (everyHours startHour : Nat) (after : Option ℚ) (time : ℚ) : Int :=
  let after := (after.filter (· ≠ 0)).getD time
  later everyHours after (anchor startHour (fromTimestamp after) - tehran)

/-! ## Where it lies -/

variable {e h : Nat} {a time : ℚ} {t : Int}

theorem stepOf_eq (he : 1 ≤ e) : stepOf e = 3600 * e := by
  unfold stepOf
  omega

theorem stepOf_ge (he : 1 ≤ e) : 3600 ≤ stepOf e := by
  rw [stepOf_eq he]
  omega

theorem later_of_lt (hlt : ⌊a⌋ < t) : later e a t = t := by
  unfold later
  rw [if_neg]
  exact fun hle => absurd (Int.le_floor.mpr hle) (by omega)

/-- The first of the steps from `t` on that lies after the time. -/
theorem later_of_le (hle : t ≤ ⌊a⌋) : later e a t = t + stepOf e * ((⌊a⌋ - t) / stepOf e + 1) := by
  induction t using later.induct e a with
  | case1 t htime ih =>
    have hpos := stepOf_pos e
    unfold later
    rw [if_pos htime]
    by_cases hnext : t + stepOf e ≤ ⌊a⌋
    · have hdiv : (⌊a⌋ - t) / stepOf e = (⌊a⌋ - (t + stepOf e)) / stepOf e + 1 := by
        have hsplit : ⌊a⌋ - t = ⌊a⌋ - (t + stepOf e) + stepOf e := by ring
        rw [hsplit, Int.add_ediv_of_dvd_right (Int.dvd_refl _), Int.ediv_self (by omega)]
      rw [ih hnext, hdiv]
      ring
    · have hdiv : (⌊a⌋ - t) / stepOf e = 0 := Int.ediv_eq_zero_of_lt (by omega) (by omega)
      rw [later_of_lt (by omega), hdiv]
      ring
  | case2 t htime => exact absurd (Int.le_floor.mp hle) htime

/-- The second of the wall clock that the time is taken for. -/
def second (a : ℚ) : Int := roundEven (a * 1000000) / 1000000

/-- The last start hour up to a second. -/
def startOf (h : Nat) (g : Int) : Int :=
  (h % 24 : Nat) * 3600 - tehran + 86400 * ((g - ((h % 24 : Nat) * 3600 - tehran)) / 86400)

theorem anchor_eq : anchor h (fromTimestamp a) - tehran = startOf h (second a) := by
  unfold anchor fromTimestamp second startOf tehran
  have hh : h % 24 < 24 := Nat.mod_lt h (by decide)
  generalize roundEven (a * 1000000) = us
  generalize h % 24 = k at hh
  simp only
  split <;> omega

/-! ## Seconds and start hours -/

theorem second_bounds (a : ℚ) : ⌊a⌋ ≤ second a ∧ second a ≤ ⌊a⌋ + 1 := by
  have hlow : (⌊a⌋ : ℚ) ≤ a := Int.floor_le a
  have hhigh : a < ⌊a⌋ + 1 := Int.lt_floor_add_one a
  have hnear := abs_le.mp (roundEven_near (a * 1000000))
  have h1 : ((⌊a⌋ * 1000000 - 1 : Int) : ℚ) < roundEven (a * 1000000) := by
    push_cast
    linarith
  have h2 : (roundEven (a * 1000000) : ℚ) < (((⌊a⌋ + 1) * 1000000 + 1 : Int) : ℚ) := by
    push_cast
    linarith
  have h1' := Int.cast_lt.mp h1
  have h2' := Int.cast_lt.mp h2
  unfold second
  omega

theorem second_int (t : Int) : second t = t := by
  have hnear := abs_le.mp (roundEven_near ((t : ℚ) * 1000000))
  have h1 : ((t * 1000000 - 1 : Int) : ℚ) < roundEven ((t : ℚ) * 1000000) := by
    push_cast
    linarith
  have h2 : (roundEven ((t : ℚ) * 1000000) : ℚ) < ((t * 1000000 + 1 : Int) : ℚ) := by
    push_cast
    linarith
  have h1' := Int.cast_lt.mp h1
  have h2' := Int.cast_lt.mp h2
  unfold second
  omega

theorem startOf_le (h : Nat) (g : Int) : startOf h g ≤ g := by
  unfold startOf
  omega

theorem lt_startOf (h : Nat) (g : Int) : g < startOf h g + 86400 := by
  unfold startOf
  omega

/-- Any second of the day after a start hour has that start hour. -/
theorem startOf_day {g x : Int} (n : Int) (hlow : startOf h g + 86400 * n ≤ x)
    (hhigh : x < startOf h g + 86400 * n + 86400) : startOf h x = startOf h g + 86400 * n := by
  unfold startOf at *
  omega

theorem nextRun_eq (ha : a ≠ 0) :
    nextRun e h (some a) time =
      if startOf h (second a) ≤ ⌊a⌋ then
        startOf h (second a) + stepOf e * ((⌊a⌋ - startOf h (second a)) / stepOf e + 1)
      else startOf h (second a) := by
  have hgiven : ((some a).filter (· ≠ 0)).getD time = a := by simp [Option.filter, ha]
  unfold nextRun
  simp only [hgiven, anchor_eq]
  split
  · rename_i hle
    rw [later_of_le hle]
  · rename_i hlt
    rw [later_of_lt (by omega)]

/-- With a start hour that is not ahead. -/
theorem nextRun_of_le (ha : a ≠ 0) (hle : startOf h (second a) ≤ ⌊a⌋) :
    nextRun e h (some a) time =
      startOf h (second a) + stepOf e * ((⌊a⌋ - startOf h (second a)) / stepOf e + 1) := by
  rw [nextRun_eq ha, if_pos hle]

/-- A time that is rounded up to a start hour. -/
theorem nextRun_of_lt (ha : a ≠ 0) (hlt : ⌊a⌋ < startOf h (second a)) :
    nextRun e h (some a) time = startOf h (second a) := by
  rw [nextRun_eq ha, if_neg (by omega)]

/-- The first half: the next run is ahead, by no more than the interval. -/
theorem nextRun_bounds (ha : a ≠ 0) :
    a < nextRun e h (some a) time ∧ (nextRun e h (some a) time : ℚ) ≤ a + stepOf e := by
  have hpos := stepOf_pos e
  have hsecond := (second_bounds a).2
  have hle := startOf_le h (second a)
  have hfloor : ⌊a⌋ < nextRun e h (some a) time ∧ nextRun e h (some a) time ≤ ⌊a⌋ + stepOf e := by
    by_cases hstart : startOf h (second a) ≤ ⌊a⌋
    · rw [nextRun_of_le ha hstart]
      have hmod := Int.emod_add_mul_ediv (⌊a⌋ - startOf h (second a)) (stepOf e)
      have h0 := Int.emod_nonneg (⌊a⌋ - startOf h (second a)) hpos.ne'
      have h1 := Int.emod_lt_of_pos (⌊a⌋ - startOf h (second a)) hpos
      rw [Int.mul_add, Int.mul_one]
      omega
    · rw [nextRun_of_lt ha (by omega)]
      omega
  constructor
  · exact Int.floor_lt.mp hfloor.1
  · have h1 : (nextRun e h (some a) time : ℚ) ≤ ((⌊a⌋ + stepOf e : Int) : ℚ) := Int.cast_le.mpr hfloor.2
    push_cast at h1
    have h2 := Int.floor_le a
    linarith

/-! ## The distance of two runs -/

/-- The run after the next one comes at its distance, whenever in its hour the next one
starts. -/
def Spaced (e h : Nat) (time a : ℚ) : Prop :=
  ∀ t : ℚ, nextRun e h (some a) time ≤ t → t < nextRun e h (some a) time + 3600 →
    nextRun e h (some t) time = nextRun e h (some a) time + stepOf e

/-- The start hour that the next run is counted from. -/
def lastStart (h : Nat) (a : ℚ) : Int := anchor h (fromTimestamp a) - tehran

/-- The interval is of whole days, or the next run is still of the day of the last
start hour. The hour of a run must not end with that day, unless runs come every hour;
and a start hour that the time is rounded up to is itself the next run. -/
def Near (e h : Nat) (a : ℚ) : Prop :=
  e % 24 = 0 ∨ a < lastStart h a ∨ (e ≠ 23 ∧ a < lastStart h a + 3600 * (24 / e * e : Nat))

/-- The next run at a time of a day that is `n` days later, after `k` steps of it. -/
theorem nextRun_step {g n k : Int} {t : ℚ} (ht : t ≠ 0) (hk : 0 ≤ k)
    (hlow : startOf h g + 86400 * n + stepOf e * k ≤ ⌊t⌋)
    (hhigh : ⌊t⌋ < startOf h g + 86400 * n + stepOf e * (k + 1))
    (hday : second t < startOf h g + 86400 * n + 86400) :
    nextRun e h (some t) time = startOf h g + 86400 * n + stepOf e * (k + 1) := by
  have hpos := stepOf_pos e
  have hmul : 0 ≤ stepOf e * k := Int.mul_nonneg hpos.le hk
  have hsecond := (second_bounds t).1
  have hstart : startOf h (second t) = startOf h g + 86400 * n := startOf_day n (by omega) hday
  have hdiv : (⌊t⌋ - (startOf h g + 86400 * n)) / stepOf e = k := by
    rw [Int.ediv_eq_iff_of_pos hpos]
    constructor <;> linarith
  rw [nextRun_of_le ht (by omega), hstart, hdiv]

theorem floor_hour {r : Int} {t : ℚ} (hlow : r ≤ t) (hhigh : t < r + 3600) : r ≤ ⌊t⌋ ∧ ⌊t⌋ < r + 3600 := by
  refine ⟨Int.le_floor.mpr hlow, Int.floor_lt.mpr ?_⟩
  push_cast
  exact hhigh

theorem after_next {t : ℚ} (ha : 0 < a) (hlow : nextRun e h (some a) time ≤ t) : t ≠ 0 :=
  (ha.trans ((nextRun_bounds ha.ne').1.trans_le hlow)).ne'

/-- A time that is rounded up to a start hour. -/
theorem spaced_rounded (he : 1 ≤ e) (ha : 0 < a) (hlt : ⌊a⌋ < startOf h (second a)) : Spaced e h time a := by
  intro t hlow hhigh
  have hne := after_next ha hlow
  rw [nextRun_of_lt ha.ne' hlt] at hlow hhigh ⊢
  obtain ⟨h1, h2⟩ := floor_hour hlow hhigh
  have hstep := stepOf_ge he
  have h3 := (second_bounds t).2
  have hnext := @nextRun_step e h time (second a) 0 0 t hne (by omega) (by omega) (by omega) (by omega)
  rw [hnext]
  ring

/-- An interval of whole days. -/
theorem spaced_days (he : 1 ≤ e) (ha : 0 < a) (hdays : e % 24 = 0) (hle : startOf h (second a) ≤ ⌊a⌋) :
    Spaced e h time a := by
  intro t hlow hhigh
  have hne := after_next ha hlow
  have hstep := stepOf_eq he
  have hday := lt_startOf h (second a)
  have hsecond := (second_bounds a).1
  have hdiv : (⌊a⌋ - startOf h (second a)) / stepOf e = 0 := Int.ediv_eq_zero_of_lt (by omega) (by omega)
  rw [nextRun_of_le ha.ne' hle, hdiv] at hlow hhigh ⊢
  obtain ⟨h1, h2⟩ := floor_hour hlow hhigh
  have h3 := (second_bounds t).2
  have hnext := @nextRun_step e h time (second a) (e / 24 : Nat) 0 t hne (by omega) (by omega) (by omega) (by omega)
  rw [hnext]
  omega

/-- The steps of the day up to the next run. -/
theorem steps_within (he : 1 ≤ e) {S : Int} (hle : S ≤ ⌊a⌋) (hwithin : a < S + 3600 * (24 / e * e : Nat)) :
    ∃ k : Int, (⌊a⌋ - S) / stepOf e + 1 = k ∧ 0 < k ∧ e * k ≤ 24 := by
  have hpos := stepOf_pos e
  have hfloor : ⌊a⌋ < S + 3600 * (24 / e * e : Nat) := by
    apply Int.floor_lt.mpr
    push_cast
    push_cast at hwithin
    exact hwithin
  have hlt : ⌊a⌋ - S < stepOf e * (24 / e : Nat) := by
    rw [stepOf_eq he]
    push_cast at hfloor ⊢
    linarith
  have hq : (⌊a⌋ - S) / stepOf e < (24 / e : Nat) := Int.ediv_lt_of_lt_mul hpos (by linarith)
  have h0 : 0 ≤ (⌊a⌋ - S) / stepOf e := Int.ediv_nonneg (by omega) hpos.le
  refine ⟨_, rfl, by omega, ?_⟩
  have hday : ((e : Int) * (24 / e : Nat)) ≤ 24 := by exact_mod_cast Nat.mul_div_le 24 e
  have hmul : (e : Int) * ((⌊a⌋ - S) / stepOf e + 1) ≤ e * (24 / e : Nat) :=
    Int.mul_le_mul_of_nonneg_left (by omega) (by omega)
  omega

/-- The next run is of the day of the last start hour, or ends it. -/
theorem spaced_within (he : 1 ≤ e) (ha : 0 < a) (h23 : e ≠ 23) (hle : startOf h (second a) ≤ ⌊a⌋)
    (hwithin : a < startOf h (second a) + 3600 * (24 / e * e : Nat)) : Spaced e h time a := by
  intro t hlow hhigh
  have hne := after_next ha hlow
  have hstep := stepOf_ge he
  obtain ⟨k, hk, hk0, hk24⟩ := steps_within he hle hwithin
  rw [nextRun_of_le ha.ne' hle, hk] at hlow hhigh ⊢
  obtain ⟨h1, h2⟩ := floor_hour hlow hhigh
  have h3 := second_bounds t
  have hmul : stepOf e * k = 3600 * (e * k) := by
    rw [stepOf_eq he]
    ring
  have hsucc : stepOf e * (k + 1) = 3600 * (e * k) + stepOf e := by rw [Int.mul_add, hmul, Int.mul_one]
  rw [hmul] at h1 h2 ⊢
  have hcases : (e * k : Int) = 24 ∨ ((e * k : Int) = 23 ∧ e = 1) ∨ (e * k : Int) < 23 := by
    by_cases h24 : (e * k : Int) = 24
    · exact .inl h24
    · by_cases heq : (e * k : Int) = 23
      · refine .inr (.inl ⟨heq, ?_⟩)
        have hdvd : e ∣ 23 := by exact_mod_cast Dvd.intro k heq
        exact ((Nat.dvd_prime (by decide)).mp hdvd).resolve_right h23
      · exact .inr (.inr (by omega))
  rcases hcases with h24 | ⟨heq, rfl⟩ | hlt
  · -- the run is at the start hour of the next day
    have hnext := @nextRun_step e h time (second a) 1 0 t hne (by omega) (by omega) (by omega) (by omega)
    rw [hnext, h24]
    ring
  · by_cases hday : second t < startOf h (second a) + 86400
    · have hnext := @nextRun_step 1 h time (second a) 0 k t hne (by omega) (by omega) (by omega) (by omega)
      rw [hnext, hsucc]
      ring
    · -- the last microsecond of the day is rounded up to the next
      have hstart : startOf h (second t) = startOf h (second a) + 86400 * 1 := startOf_day 1 (by omega) (by omega)
      have hone : stepOf 1 = 3600 := rfl
      rw [nextRun_of_lt hne (by omega), hstart, heq, hone]
      ring
  · have hnext := @nextRun_step e h time (second a) 0 k t hne (by omega) (by omega) (by omega) (by omega)
    rw [hnext, hsucc]
    ring

theorem lastStart_eq : lastStart h a = startOf h (second a) := anchor_eq

theorem spaced_of_near (he : 1 ≤ e) (ha : 0 < a) (hnear : Near e h a) : Spaced e h time a := by
  unfold Near at hnear
  rw [lastStart_eq] at hnear
  by_cases hle : startOf h (second a) ≤ ⌊a⌋
  · rcases hnear with hdays | hlt | ⟨h23, hwithin⟩
    · exact spaced_days he ha hdays hle
    · exact absurd (Int.le_floor.mp hle) (by linarith)
    · exact spaced_within he ha h23 hle hwithin
  · exact spaced_rounded he ha (by omega)

/-- The time just before a second that is rounded up to it. -/
theorem second_before (x : Int) : ⌊(x : ℚ) - 1 / 4194304⌋ = x - 1 ∧ second ((x : ℚ) - 1 / 4194304) = x := by
  constructor
  · rw [Int.floor_eq_iff]
    push_cast
    constructor <;> linarith
  · have hnear := abs_le.mp (roundEven_near (((x : ℚ) - 1 / 4194304) * 1000000))
    have h1 : ((x * 1000000 - 1 : Int) : ℚ) < roundEven (((x : ℚ) - 1 / 4194304) * 1000000) := by
      push_cast
      linarith
    have h2 : (roundEven (((x : ℚ) - 1 / 4194304) * 1000000) : ℚ) < ((x * 1000000 + 1 : Int) : ℚ) := by
      push_cast
      linarith
    have h1' := Int.cast_lt.mp h1
    have h2' := Int.cast_lt.mp h2
    unfold second
    omega

/-- The next run after a whole second. -/
theorem nextRun_int {x : Int} (hx : x ≠ 0) :
    nextRun e h (some (x : ℚ)) time = startOf h x + stepOf e * ((x - startOf h x) / stepOf e + 1) := by
  have hfloor : ⌊(x : ℚ)⌋ = x := Int.floor_intCast x
  have hle := startOf_le h x
  rw [nextRun_of_le (Int.cast_ne_zero.mpr hx) (by rw [second_int, hfloor]; exact hle), second_int, hfloor]

/-- A run that starts at once comes a whole number of steps after the start hour of
its day, where the one after it is to come at its distance. -/
theorem aligned {r : Int} (hr : r ≠ 0) (hnext : nextRun e h (some (r : ℚ)) time = r + stepOf e) :
    stepOf e ∣ r - startOf h r := by
  rw [nextRun_int hr, Int.mul_add, Int.mul_one] at hnext
  refine ⟨(r - startOf h r) / stepOf e, ?_⟩
  omega

/-- Steps that lead past the end of a day do not come to a step of the next one. -/
theorem passed_day {s y : Int} (hs : 0 < s) (hdays : ¬ 86400 ∣ s) (hdvd : s ∣ y) (hpast : 86400 < y)
    (hlast : y < 86400 + s) : ¬ s ∣ y % 86400 := by
  intro hmod
  by_cases hshort : s < 86400
  · have heq : y % 86400 = y - 86400 := by omega
    rw [heq] at hmod
    have hle := Int.le_of_dvd (by omega) hmod
    omega
  · have hne : s ≠ 86400 := by
      rintro rfl
      exact hdays (Int.dvd_refl 86400)
    obtain ⟨c, rfl⟩ := hdvd
    have hc : c = 1 := by
      have hlow : 0 < c := by
        by_contra hc
        have := Int.mul_nonneg hs.le (by omega : 0 ≤ -c)
        rw [Int.mul_neg] at this
        omega
      have hhigh : c < 2 := by
        by_contra hc
        have := Int.mul_le_mul_of_nonneg_left (by omega : 2 ≤ c) hs.le
        omega
      omega
    rw [hc, Int.mul_one] at hmod
    have hzero : s % 86400 = 0 := Int.eq_zero_of_dvd_of_nonneg_of_lt (Int.emod_nonneg s (by decide)) (by omega) hmod
    exact hdays (Int.dvd_of_emod_eq_zero hzero)

/-- Where the rest of the day has no room for a step, the next run lies past its end. -/
theorem passes (he : 1 ≤ e) {S f : Int} (hpast : S + 3600 * (24 / e * e : Nat) ≤ f) :
    86400 < stepOf e * ((f - S) / stepOf e + 1) := by
  have hpos := stepOf_pos e
  have hq : ((24 / e : Nat) : Int) ≤ (f - S) / stepOf e := by
    apply Int.le_ediv_of_mul_le hpos
    rw [stepOf_eq he]
    push_cast at hpast ⊢
    linarith
  have hday : 24 < e * (24 / e + 1) := by
    have hmod := Nat.div_add_mod 24 e
    have hlt := Nat.mod_lt 24 he
    rw [Nat.mul_add, Nat.mul_one]
    omega
  have hday' : (24 : Int) < e * ((24 / e : Nat) + 1) := by exact_mod_cast hday
  have hmul : stepOf e * ((24 / e : Nat) + 1) ≤ stepOf e * ((f - S) / stepOf e + 1) :=
    Int.mul_le_mul_of_nonneg_left (by omega) hpos.le
  calc
    (86400 : Int) < 3600 * (e * ((24 / e : Nat) + 1)) := by omega
    _ = stepOf e * ((24 / e : Nat) + 1) := by
      rw [stepOf_eq he]
      ring
    _ ≤ stepOf e * ((f - S) / stepOf e + 1) := hmul

/-- A run that starts at once starts in its hour. -/
theorem Spaced.at_once (hspaced : Spaced e h time a) :
    nextRun e h (some (nextRun e h (some a) time : ℚ)) time = nextRun e h (some a) time + stepOf e :=
  hspaced _ (le_refl _) (by linarith)

theorem within_of_spaced (he : 1 ≤ e) (ha : 0 < a) (hdays : e % 24 ≠ 0) (hle : startOf h (second a) ≤ ⌊a⌋)
    (hspaced : Spaced e h time a) : ⌊a⌋ < startOf h (second a) + 3600 * (24 / e * e : Nat) := by
  by_contra hpast
  have hpos := stepOf_pos e
  have hstep := stepOf_eq he
  have hday := lt_startOf h (second a)
  have hsecond := (second_bounds a).1
  have hpasses := passes he (not_lt.mp hpast)
  have hmod := Int.emod_add_mul_ediv (⌊a⌋ - startOf h (second a)) (stepOf e)
  have hrest := Int.emod_nonneg (⌊a⌋ - startOf h (second a)) hpos.ne'
  have hnext : nextRun e h (some a) time = _ := nextRun_of_le ha.ne' hle
  have hbounds : a < nextRun e h (some a) time := (nextRun_bounds ha.ne').1
  have hne : nextRun e h (some a) time ≠ 0 := by
    intro hzero
    rw [hzero] at hbounds
    exact absurd (ha.trans hbounds) (by simp)
  have haligned := aligned hne hspaced.at_once
  have hlast : stepOf e * ((⌊a⌋ - startOf h (second a)) / stepOf e + 1) < 86400 + stepOf e := by
    rw [Int.mul_add, Int.mul_one]
    omega
  have hdvd : stepOf e ∣ stepOf e * ((⌊a⌋ - startOf h (second a)) / stepOf e + 1) := Int.dvd_mul_right _ _
  generalize stepOf e * ((⌊a⌋ - startOf h (second a)) / stepOf e + 1) = y at *
  have hstart : startOf h (nextRun e h (some a) time) = startOf h (second a) + 86400 * (y / 86400) :=
    startOf_day _ (by omega) (by omega)
  have heq : nextRun e h (some a) time - startOf h (nextRun e h (some a) time) = y % 86400 := by omega
  rw [heq] at haligned
  exact passed_day hpos (by omega) hdvd hpasses hlast haligned

/-- A run of the last hour of a day, started at its end, is not at its distance from
the next: that is the start hour. -/
theorem not_spaced_23 (ha : 0 < a) (hle : startOf h (second a) ≤ ⌊a⌋)
    (hwithin : ⌊a⌋ < startOf h (second a) + 82800) : ¬ Spaced 23 h time a := by
  intro hspaced
  have hstep : stepOf 23 = 82800 := rfl
  have hdiv : (⌊a⌋ - startOf h (second a)) / stepOf 23 = 0 := Int.ediv_eq_zero_of_lt (by omega) (by omega)
  have hnext : nextRun 23 h (some a) time = startOf h (second a) + 82800 := by
    rw [nextRun_of_le ha.ne' hle, hdiv]
    omega
  obtain ⟨hfloor, hsecond⟩ := second_before (startOf h (second a) + 86400)
  have hlow : (nextRun 23 h (some a) time : ℚ) ≤ ((startOf h (second a) + 86400 : Int) : ℚ) - 1 / 4194304 := by
    rw [hnext]
    push_cast
    linarith
  have hhigh : ((startOf h (second a) + 86400 : Int) : ℚ) - 1 / 4194304 < nextRun 23 h (some a) time + 3600 := by
    rw [hnext]
    push_cast
    linarith
  have hday : startOf h (startOf h (second a) + 86400) = startOf h (second a) + 86400 * 1 :=
    startOf_day 1 (by omega) (by omega)
  have htwice := hspaced _ hlow hhigh
  rw [nextRun_of_lt (after_next ha hlow) (by rw [hfloor, hsecond, hday]; omega), hsecond, hday, hnext] at htwice
  omega

theorem near_of_spaced (he : 1 ≤ e) (ha : 0 < a) (hspaced : Spaced e h time a) : Near e h a := by
  unfold Near
  rw [lastStart_eq]
  by_cases hle : startOf h (second a) ≤ ⌊a⌋
  · by_cases hdays : e % 24 = 0
    · exact .inl hdays
    · have hwithin := within_of_spaced he ha hdays hle hspaced
      refine .inr (.inr ⟨?_, ?_⟩)
      · rintro rfl
        exact not_spaced_23 ha hle hwithin hspaced
      · have hlt := Int.floor_lt.mp hwithin
        push_cast at hlt ⊢
        exact hlt
  · exact .inr (.inl (Int.floor_lt.mp (by omega)))

theorem spaced_iff (he : 1 ≤ e) (ha : 0 < a) : Spaced e h time a ↔ Near e h a :=
  ⟨near_of_spaced he ha, spaced_of_near he ha⟩

/-! ## The ticker -/

/-- A row of `backup_plans`, as far as `tick` reads it. -/
structure Plan where
  everyHours : Nat
  startHour : Nat
  enabled : Bool
  nextRun : Option Int
deriving DecidableEq

/-- A call of `tick`. The plan is ready when it is not running, fewer than
`MAX_PARALLEL` are, and its server is connected. -/
structure Tick where
  now : ℚ
  ready : Bool

/-- The run that a tick starts, by the time that it was due at. -/
def Plan.starts (p : Plan) (t : Tick) : Option Int :=
  if p.enabled && t.ready then p.nextRun.filter fun due => (due : ℚ) ≤ t.now else none

/-- `tick`, for one plan. -/
def tick (p : Plan) (t : Tick) : Plan :=
  match p.starts t with
  | none => p
  | some _ => { p with nextRun := some (schedules.nextRun p.everyHours p.startHour (some t.now) t.now) }

/-- The due times of the runs that ticks start. -/
def started (p : Plan) : List Tick → List Int
  | [] => []
  | t :: ts => (p.starts t).toList ++ started (tick p t) ts

/-- A run starts within the hour that it is due in. -/
def Prompt (p : Plan) (t : Tick) : Prop := ∀ due, p.starts t = some due → t.now < due + 3600

/-- The runs of the plan come at their distance, forever. -/
def Steady (e h : Nat) (r : Int) : Prop :=
  ∀ ts, Throughout tick Prompt ⟨e, h, true, some r⟩ ts →
    ∀ (i : Nat) (s : Int), (started ⟨e, h, true, some r⟩ ts)[i]? = some s → s = r + stepOf e * i

/-- A tick of an enabled plan. -/
theorem tick_cases (r : Int) (t : Tick) :
    (Plan.starts ⟨e, h, true, some r⟩ t = none ∧ tick ⟨e, h, true, some r⟩ t = ⟨e, h, true, some r⟩) ∨
    (Plan.starts ⟨e, h, true, some r⟩ t = some r ∧ (r : ℚ) ≤ t.now ∧
      tick ⟨e, h, true, some r⟩ t = ⟨e, h, true, some (nextRun e h (some t.now) t.now)⟩) := by
  by_cases hdue : t.ready = true ∧ (r : ℚ) ≤ t.now
  · have hstarts : Plan.starts ⟨e, h, true, some r⟩ t = some r := by
      simp [Plan.starts, Option.filter, hdue]
    exact .inr ⟨hstarts, hdue.2, by rw [tick, hstarts]⟩
  · have hstarts : Plan.starts ⟨e, h, true, some r⟩ t = none := by
      simp only [Plan.starts, Option.filter]
      grind
    exact .inl ⟨hstarts, by rw [tick, hstarts]⟩

/-- An interval that divides the days, or whole days. -/
theorem near_of_even (he : 1 ≤ e) (heven : 24 % e = 0 ∨ e % 24 = 0) : Near e h a := by
  rcases heven with hdvd | hdays
  · by_cases hle : startOf h (second a) ≤ ⌊a⌋
    · refine .inr (.inr ⟨?_, ?_⟩)
      · rintro rfl
        cases hdvd
      · have hday := lt_startOf h (second a)
        have hsecond := (second_bounds a).1
        have hmul : 24 / e * e = 24 := Nat.div_mul_cancel (Nat.dvd_of_mod_eq_zero hdvd)
        rw [lastStart_eq, hmul]
        have hfloor : ⌊a⌋ < startOf h (second a) + 3600 * 24 := by omega
        have hlt := Int.floor_lt.mp hfloor
        push_cast at hlt ⊢
        linarith
    · refine .inr (.inl ?_)
      rw [lastStart_eq]
      exact Int.floor_lt.mp (by omega)
  · exact .inl hdays

theorem nextRun_time {time' : ℚ} (ha : a ≠ 0) : nextRun e h (some a) time = nextRun e h (some a) time' := by
  rw [nextRun_eq ha, nextRun_eq ha]

/-- Where every next run has its distance, the started ones have it. -/
theorem started_spaced (he : 1 ≤ e) (hnear : ∀ a, Near e h a) {r : Int} (ha : 0 < a)
    (hr : nextRun e h (some a) time = r) (ts : List Tick) (hprompt : Throughout tick Prompt ⟨e, h, true, some r⟩ ts)
    (i : Nat) (s : Int) (hs : (started ⟨e, h, true, some r⟩ ts)[i]? = some s) : s = r + stepOf e * i := by
  induction ts generalizing a time r i with
  | nil => simp [started] at hs
  | cons t ts ih =>
    obtain ⟨hfirst, hrest⟩ := hprompt
    simp only [started] at hs
    rcases tick_cases (e := e) (h := h) r t with ⟨hstarts, htick⟩ | ⟨hstarts, hdue, htick⟩
    · rw [hstarts] at hs
      rw [htick] at hs hrest
      exact ih ha hr hrest i hs
    · have hlate : t.now < r + 3600 := hfirst r hstarts
      have hpos : 0 < t.now := by
        have hbound := (@nextRun_bounds e h a time ha.ne').1
        rw [hr] at hbound
        linarith
      have hnext : nextRun e h (some t.now) time = r + stepOf e := by
        rw [← hr] at hdue hlate ⊢
        exact spaced_of_near he ha (hnear a) t.now hdue hlate
      rw [htick, nextRun_time hpos.ne', hnext] at hrest
      rw [hstarts, htick, nextRun_time hpos.ne', hnext] at hs
      cases i with
      | zero =>
        simp only [Option.toList_some, List.singleton_append, List.getElem?_cons_zero, Option.some.injEq] at hs
        rw [← hs]
        simp
      | succ i =>
        simp only [Option.toList_some, List.singleton_append, List.getElem?_cons_succ] at hs
        rw [ih hpos hnext hrest i hs]
        push_cast
        ring

variable {r : Int}

/-- The tick at the second that a run is due in. -/
theorem starts_at : Plan.starts ⟨e, h, true, some r⟩ ⟨r, true⟩ = some r := by simp [Plan.starts, Option.filter]

theorem tick_at : tick ⟨e, h, true, some r⟩ ⟨r, true⟩ = ⟨e, h, true, some (nextRun e h (some (r : ℚ)) r)⟩ := by
  rw [tick, starts_at]

theorem prompt_at : Prompt ⟨e, h, true, some r⟩ ⟨r, true⟩ := by
  intro due hdue
  rw [starts_at] at hdue
  cases hdue
  linarith

theorem Steady.nextRun (hsteady : Steady e h r) : nextRun e h (some (r : ℚ)) r = r + stepOf e := by
  let t : Tick := ⟨schedules.nextRun e h (some (r : ℚ)) r, true⟩
  have hprompt : Throughout tick Prompt ⟨e, h, true, some r⟩ [⟨r, true⟩, t] := by
    refine ⟨prompt_at, ?_, trivial⟩
    rw [tick_at]
    exact prompt_at
  have hsecond := hsteady _ hprompt 1 (schedules.nextRun e h (some (r : ℚ)) r)
  simp only [started, starts_at, tick_at, t] at hsecond
  simpa using hsecond

theorem Steady.next (hsteady : Steady e h r) : Steady e h (r + stepOf e) := by
  intro ts hprompt i s hs
  have hnext := hsteady.nextRun
  have hall := hsteady (⟨r, true⟩ :: ts) ⟨prompt_at, by rw [tick_at, hnext]; exact hprompt⟩ (i + 1) s
  simp only [started, starts_at, tick_at, hnext] at hall
  rw [hall (by simpa using hs)]
  push_cast
  ring

theorem Steady.later (hsteady : Steady e h r) (n : Nat) : Steady e h (r + stepOf e * n) := by
  induction n with
  | zero => simpa using hsteady
  | succ n ih =>
    have hnext := ih.next
    rw [Int.add_assoc] at hnext
    rw [Nat.cast_succ, Int.mul_add, Int.mul_one]
    exact hnext

/-- Steps that never leave the multiples of each day divide it, or are of whole days. -/
theorem dvd_day {s z : Int} (hs : 0 < s) (hz : 0 ≤ z) (hday : z < 86400)
    (hall : ∀ n : Nat, s ∣ (z + s * n) % 86400) : s ∣ 86400 ∨ 86400 ∣ s := by
  have hfirst : s ∣ z := by
    have h0 := hall 0
    rw [Nat.cast_zero, Int.mul_zero, Int.add_zero, Int.emod_eq_of_lt hz hday] at h0
    exact h0
  by_cases hlong : 86400 ≤ s
  · have hzero : z = 0 := Int.eq_zero_of_dvd_of_nonneg_of_lt hz (by omega) hfirst
    have h1 := hall 1
    rw [hzero, Nat.cast_one, Int.mul_one, Int.zero_add] at h1
    have hmod : s % 86400 = 0 :=
      Int.eq_zero_of_dvd_of_nonneg_of_lt (Int.emod_nonneg s (by decide)) (by omega) h1
    exact .inr (Int.dvd_of_emod_eq_zero hmod)
  · -- the first step that comes to the end of the day
    obtain ⟨n, hn⟩ : ∃ n : Nat, ((86400 - z + s - 1) / s : Int) = n :=
      Int.eq_ofNat_of_zero_le (Int.ediv_nonneg (by omega) hs.le)
    have hsum := Int.emod_add_mul_ediv (86400 - z + s - 1) s
    have hlow := Int.emod_nonneg (86400 - z + s - 1) hs.ne'
    have hhigh := Int.emod_lt_of_pos (86400 - z + s - 1) hs
    rw [hn] at hsum
    have hstep := hall n
    have hmod : (z + s * n) % 86400 = z + s * n - 86400 := by omega
    rw [hmod] at hstep
    have hzero : z + s * n - 86400 = 0 := Int.eq_zero_of_dvd_of_nonneg_of_lt (by omega) (by omega) hstep
    have heq : (86400 : Int) = z + s * n := by omega
    rw [heq]
    exact .inl (Int.dvd_add hfirst (Int.dvd_mul_right s n))

theorem even_of_steady (he : 1 ≤ e) (hr : 0 < r) (hsteady : Steady e h r) : 24 % e = 0 ∨ e % 24 = 0 := by
  have hpos := stepOf_pos e
  have hall (n : Nat) : stepOf e ∣ (r - startOf h r + stepOf e * n) % 86400 := by
    have hmul : 0 ≤ stepOf e * n := Int.mul_nonneg hpos.le (by omega)
    have haligned := aligned (by omega) (hsteady.later n).nextRun
    have heq : r + stepOf e * n - startOf h (r + stepOf e * n) = (r - startOf h r + stepOf e * n) % 86400 := by
      unfold startOf
      omega
    rwa [heq] at haligned
  have hle := startOf_le h r
  have hlt := lt_startOf h r
  rw [stepOf_eq he] at hpos hall
  rcases dvd_day hpos (by omega) (by omega) hall with ⟨c, hc⟩ | hdays
  · left
    have h24 : (24 : Int) = e * c := by
      rw [Int.mul_assoc] at hc
      omega
    have hdvd : e ∣ 24 := by exact_mod_cast Dvd.intro c h24.symm
    exact Nat.mod_eq_zero_of_dvd hdvd
  · right
    omega

/-- The next run is ahead by no more than the interval. The run after it comes at its
distance exactly where the next run is still of the day of the last start hour, or the
interval is of whole days; and the runs keep their distance forever exactly where the
interval divides the day or is of whole days. -/
theorem runs_spaced (he : 1 ≤ e) (ha : 0 < a) :
    (a < nextRun e h (some a) time ∧ (nextRun e h (some a) time : ℚ) ≤ a + 3600 * e) ∧
    (Spaced e h time a ↔ Near e h a) ∧
    (Steady e h (nextRun e h (some a) time) ↔ 24 % e = 0 ∨ e % 24 = 0) := by
  obtain ⟨hahead, hlate⟩ := @nextRun_bounds e h a time ha.ne'
  have hstep : (stepOf e : ℚ) = 3600 * e := by
    rw [stepOf_eq he]
    push_cast
    rfl
  rw [hstep] at hlate
  refine ⟨⟨hahead, hlate⟩, spaced_iff he ha, ?_, ?_⟩
  · have hr : (0 : ℚ) < nextRun e h (some a) time := ha.trans hahead
    exact even_of_steady he (by exact_mod_cast hr)
  · intro heven ts hprompt i s hs
    exact started_spaced he (fun _ => near_of_even he heven) ha rfl ts hprompt i s hs

/-- Every six hours from three, asked at ten. -/
theorem six_hours_spaced :
    nextRun 6 3 (some 1791613800) 0 = 1791631800 ∧ Near 6 3 1791613800 ∧
    ((1791613800 : ℚ) < nextRun 6 3 (some 1791613800) 0 ∧
      (nextRun 6 3 (some 1791613800) 0 : ℚ) ≤ 1791613800 + 3600 * (6 : Nat)) ∧
    Spaced 6 3 0 1791613800 ∧ Steady 6 3 (nextRun 6 3 (some 1791613800) 0) := by
  obtain ⟨hbounds, hspaced, hsteady⟩ := @runs_spaced 6 3 1791613800 0 (by decide) (by norm_num)
  have hcast : (1791613800 : ℚ) = ((1791613800 : Int) : ℚ) := by norm_num
  have hnear : Near 6 3 1791613800 := near_of_even (by decide) (.inl rfl)
  refine ⟨?_, hnear, hbounds, hspaced.mpr hnear, hsteady.mpr (.inl rfl)⟩
  rw [hcast, nextRun_int (by decide)]
  decide

/-- Every five hours from three, asked at midnight: the next run is at four, and the
one after it at eight. -/
theorem five_hours_not_spaced :
    nextRun 5 3 (some 1791664200) 0 = 1791678600 ∧ nextRun 5 3 (some 1791678600) 0 = 1791678600 + 4 * 3600 ∧
    ¬ Spaced 5 3 0 1791664200 ∧ ¬ Steady 5 3 (nextRun 5 3 (some 1791664200) 0) := by
  have hcast (x : Int) (hx : x ≠ 0) := @nextRun_int 5 3 0 x hx
  have hfirst : nextRun 5 3 (some 1791664200) 0 = 1791678600 := by
    have h := hcast 1791664200 (by decide)
    norm_num at h
    rw [h]
    decide
  have hsecond : nextRun 5 3 (some 1791678600) 0 = 1791678600 + 4 * 3600 := by
    have h := hcast 1791678600 (by decide)
    norm_num at h
    rw [h]
    decide
  refine ⟨hfirst, hsecond, ?_, ?_⟩
  · intro hspaced
    have h := hspaced.at_once
    rw [hfirst] at h
    norm_num at h
    rw [hsecond] at h
    cases h
  · intro hsteady
    rw [hfirst] at hsteady
    rcases even_of_steady (by decide) (by decide) hsteady with h | h <;> cases h

end icsd_panel.schedules

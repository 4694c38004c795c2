-- The Persian date of a message: `jalali` of `notify.py`, the calendar with a
-- cycle of 33 years, and that the one follows the other from day to day.
import Mathlib.Data.List.Basic
import Mathlib.Tactic.Common

namespace icsd_panel.calendars

/-! ## The Gregorian calendar -/

def gregorianLeap (y : Nat) : Bool := y % 4 = 0 && (y % 100 ≠ 0 || y % 400 = 0)

def gregorianDays (y m : Nat) : Nat :=
  match m with
  | 2 => if gregorianLeap y then 29 else 28
  | 4 | 6 | 9 | 11 => 30
  | _ => 31

/-- A Gregorian date from the year 1 on. -/
@[ext]
structure Gregorian where
  year : Nat
  month : Nat
  day : Nat
  year_pos : 1 ≤ year
  month_pos : 1 ≤ month
  month_le : month ≤ 12
  day_pos : 1 ≤ day
  day_le : day ≤ gregorianDays year month

theorem gregorianDays_pos (y m : Nat) : 1 ≤ gregorianDays y m := by
  unfold gregorianDays
  split
  · split <;> omega
  all_goals omega

/-- The day after. -/
def Gregorian.next (g : Gregorian) : Gregorian :=
  if hd : g.day < gregorianDays g.year g.month then
    ⟨g.year, g.month, g.day + 1, g.year_pos, g.month_pos, g.month_le, by omega, hd⟩
  else if hm : g.month < 12 then
    ⟨g.year, g.month + 1, 1, g.year_pos, by omega, hm, Nat.le_refl 1, gregorianDays_pos _ _⟩
  else ⟨g.year + 1, 1, 1, by omega, Nat.le_refl 1, by omega, Nat.le_refl 1, gregorianDays_pos _ _⟩

/-! ## The Persian calendar -/

/-- The leap years of the cycle of 33 years. -/
def leap (y : Int) : Bool := y % 33 ∈ [1, 5, 9, 13, 17, 22, 26, 30]

def monthDays (y : Int) (m : Int) : Int :=
  if m ≤ 6 then 31 else if m ≤ 11 then 30 else if leap y then 30 else 29

structure Persian where
  year : Int
  month : Int
  day : Int
deriving DecidableEq, Repr

/-- A date that the calendar has. -/
def Persian.Valid (p : Persian) : Prop :=
  1 ≤ p.month ∧ p.month ≤ 12 ∧ 1 ≤ p.day ∧ p.day ≤ monthDays p.year p.month

/-- The day after. -/
def Persian.succ (p : Persian) : Persian :=
  if p.day < monthDays p.year p.month then ⟨p.year, p.month, p.day + 1⟩
  else if p.month < 12 then ⟨p.year, p.month + 1, 1⟩
  else ⟨p.year + 1, 1, 1⟩

/-! ## `jalali` -/

/-- `g_d_m`: the days of a year before each month. -/
def gDM : List Int := [0, 31, 59, 90, 120, 151, 181, 212, 243, 273, 304, 334]

/-- `days` of `jalali`, before the cycles are taken from it. -/
def jalaliDays (gy gm gd : Nat) : Int :=
  let gy2 : Int := if gm > 2 then gy + 1 else gy
  355666 + 365 * gy + (gy2 + 3) / 4 - (gy2 + 99) / 100 + (gy2 + 399) / 400 + gd + gDM.getD (gm - 1) 0

/-- The year, and the day in it from 0 on. -/
def yearOf (days : Int) : Int × Int :=
  let jy := -1595 + 33 * (days / 12053)
  let days := days % 12053
  let jy := jy + 4 * (days / 1461)
  let days := days % 1461
  if days > 365 then (jy + (days - 1) / 365, (days - 1) % 365) else (jy, days)

/-- The date that `jalali` makes of its number of days. -/
def ofDays (n : Int) : Persian :=
  let (jy, days) := yearOf n
  ⟨jy, if days < 186 then 1 + days / 31 else 7 + (days - 186) / 30,
    1 + if days < 186 then days % 31 else (days - 186) % 30⟩

/-- The date of `jalali`. -/
def jalaliDate (g : Gregorian) : Persian := ofDays (jalaliDays g.year g.month g.day)

/-- A number with at least two digits. -/
def pad2 (n : Int) : String := if n < 10 then "0" ++ toString n else toString n

def persianDigit (c : Char) : Char := if c.isDigit then Char.ofNat (0x6F0 + (c.toNat - '0'.toNat)) else c

/-- `jalali`, of a date and a time of day in Tehran. -/
def jalali (g : Gregorian) (hour minute : Nat) : String :=
  let p := jalaliDate g
  let s := toString p.year ++ "/" ++ pad2 p.month ++ "/" ++ pad2 p.day ++ " " ++ pad2 hour ++ ":" ++ pad2 minute
  String.ofList (s.toList.map persianDigit)

/-! ## Both from day to day -/

theorem gregorianLeap_iff {y : Nat} : gregorianLeap y = true ↔ y % 4 = 0 ∧ (y % 100 ≠ 0 ∨ y % 400 = 0) := by
  simp [gregorianLeap]

/-- The number of days grows by one from day to day. -/
theorem jalaliDays_next (g : Gregorian) :
    jalaliDays g.next.year g.next.month g.next.day = jalaliDays g.year g.month g.day + 1 := by
  obtain ⟨y, m, d, hy, hm1, hm2, hd1, hd2⟩ := g
  have hm : m = 1 ∨ m = 2 ∨ m = 3 ∨ m = 4 ∨ m = 5 ∨ m = 6 ∨ m = 7 ∨ m = 8 ∨ m = 9 ∨ m = 10 ∨ m = 11 ∨
      m = 12 := by omega
  unfold Gregorian.next
  dsimp only
  split
  · simp only [jalaliDays]
    omega
  · rename_i hd
    have hlast : d = gregorianDays y m := by omega
    by_cases hleap : gregorianLeap y = true
    all_goals
      have hy4 := hleap
      rw [gregorianLeap_iff] at hy4
      rcases hm with rfl | rfl | rfl | rfl | rfl | rfl | rfl | rfl | rfl | rfl | rfl | rfl <;>
        simp [gregorianDays, hleap] at hlast <;> simp [jalaliDays, gDM, hlast] <;> omega

/-- The leap years are the first ones of the eight spans of four years. -/
theorem leap_span (k : Int) {p : Int} (h0 : 0 ≤ p) (h1 : p < 33) :
    leap (-1595 + 33 * k + p) = true ↔ p % 4 = 0 ∧ p ≠ 32 := by
  have hmod : (-1595 + 33 * k + p) % 33 = if p < 11 then p + 22 else p - 11 := by
    split <;> omega
  simp only [leap, hmod, List.mem_cons, List.not_mem_nil, or_false, decide_eq_true_eq]
  split <;> omega

/-- The last day of a year, from 0 on. -/
def lastDay (y : Int) : Int := if leap y then 365 else 364

/-- The number of the first day of the year `p` of the cycle `k`. -/
def startOf (k p : Int) : Int := 12053 * k + 1461 * (p / 4) + 365 * (p % 4) + if p % 4 = 0 then 0 else 1

/-- Each number is a day of a year. -/
theorem exists_year (n : Int) : ∃ k p d, 0 ≤ p ∧ p < 33 ∧ 0 ≤ d ∧ d ≤ lastDay (-1595 + 33 * k + p) ∧
    n = startOf k p + d := by
  have hsplit : ∃ k m s : Int, n = 12053 * k + 1461 * m + s ∧ 0 ≤ m ∧ 0 ≤ s ∧ s < 1461 ∧
      (m < 8 ∨ m = 8 ∧ s < 365) :=
    ⟨n / 12053, n % 12053 / 1461, n % 12053 % 1461, by omega, by omega, by omega, by omega, by omega⟩
  obtain ⟨k, m, s, rfl, hm0, hs0, hs1, hm⟩ := hsplit
  by_cases hfirst : s ≤ 365
  · refine ⟨k, 4 * m, s, by omega, by omega, hs0, ?_, ?_⟩
    · unfold lastDay
      split
      · exact hfirst
      · rename_i hno
        rw [leap_span k (by omega) (by omega)] at hno
        omega
    · unfold startOf
      rw [if_pos (by omega)]
      omega
  · have hyears : ∃ q d : Int, s = 365 * q + 1 + d ∧ 1 ≤ q ∧ q < 4 ∧ 0 ≤ d ∧ d ≤ 364 :=
      ⟨(s - 1) / 365, (s - 1) % 365, by omega, by omega, by omega, by omega, by omega⟩
    obtain ⟨q, d, rfl, hq0, hq1, hd0, hd1⟩ := hyears
    refine ⟨k, 4 * m + q, d, by omega, by omega, hd0, ?_, ?_⟩
    · unfold lastDay
      split <;> omega
    · unfold startOf
      rw [if_neg (by omega)]
      omega

theorem yearOf_start {k p d : Int} (h0 : 0 ≤ p) (h1 : p < 33) (hd0 : 0 ≤ d)
    (hd1 : d ≤ lastDay (-1595 + 33 * k + p)) : yearOf (startOf k p + d) = (-1595 + 33 * k + p, d) := by
  have hd : d ≤ if p % 4 = 0 ∧ p ≠ 32 then 365 else 364 := by
    unfold lastDay at hd1
    by_cases hleap : leap (-1595 + 33 * k + p) = true
    · rw [if_pos hleap] at hd1
      rw [if_pos ((leap_span k h0 h1).mp hleap)]
      exact hd1
    · rw [if_neg hleap] at hd1
      rw [leap_span k h0 h1] at hleap
      rw [if_neg hleap]
      exact hd1
  have hcycle : (startOf k p + d) / 12053 = k := by
    unfold startOf
    split at hd <;> split <;> omega
  have hrest : (startOf k p + d) % 12053 = startOf k p - 12053 * k + d := by omega
  have hspan : (startOf k p - 12053 * k + d) / 1461 = p / 4 := by
    unfold startOf
    split at hd <;> split <;> omega
  have hday : (startOf k p - 12053 * k + d) % 1461 = 365 * (p % 4) + (if p % 4 = 0 then 0 else 1) + d := by
    unfold startOf at hspan ⊢
    omega
  unfold yearOf
  simp only [hcycle, hrest, hspan, hday]
  by_cases hp : p % 4 = 0
  · rw [if_pos hp, if_neg (by split at hd <;> omega)]
    exact Prod.ext (by simp only; omega) (by simp only; omega)
  · rw [if_neg hp, if_pos (by omega)]
    rw [if_neg (by omega)] at hd
    exact Prod.ext (by simp only; omega) (by simp only; omega)

/-- The date of the day `d` of a year. -/
def dayOf (y d : Int) : Persian :=
  ⟨y, if d < 186 then 1 + d / 31 else 7 + (d - 186) / 30, 1 + if d < 186 then d % 31 else (d - 186) % 30⟩

theorem ofDays_start {k p d : Int} (h0 : 0 ≤ p) (h1 : p < 33) (hd0 : 0 ≤ d)
    (hd1 : d ≤ lastDay (-1595 + 33 * k + p)) : ofDays (startOf k p + d) = dayOf (-1595 + 33 * k + p) d := by
  unfold ofDays
  rw [yearOf_start h0 h1 hd0 hd1]
  rfl

theorem dayOf_valid {y d : Int} (h0 : 0 ≤ d) (h1 : d ≤ lastDay y) : (dayOf y d).Valid := by
  unfold lastDay at h1
  unfold Persian.Valid dayOf monthDays
  dsimp only
  by_cases hleap : leap y = true
  · rw [if_pos hleap] at h1 ⊢
    split <;> split <;> (try split) <;> omega
  · rw [if_neg hleap] at h1 ⊢
    split <;> split <;> (try split) <;> omega

theorem dayOf_low {y d : Int} (h : d < 186) : dayOf y d = ⟨y, 1 + d / 31, 1 + d % 31⟩ := by
  simp only [dayOf, if_pos h]

theorem dayOf_high {y d : Int} (h : ¬ d < 186) : dayOf y d = ⟨y, 7 + (d - 186) / 30, 1 + (d - 186) % 30⟩ := by
  simp only [dayOf, if_neg h]

theorem dayOf_succ {y d : Int} (h0 : 0 ≤ d) (h1 : d < lastDay y) : dayOf y (d + 1) = (dayOf y d).succ := by
  have hlast : d < if leap y = true then 365 else 364 := h1
  unfold Persian.succ
  by_cases hlow : d < 186
  · have hdays : monthDays y (1 + d / 31) = 31 := if_pos (by omega)
    rw [dayOf_low hlow]
    simp only [hdays]
    by_cases hend : d % 31 = 30
    · rw [if_neg (by omega), if_pos (by omega)]
      by_cases hnext : d + 1 < 186
      · rw [dayOf_low hnext, Persian.mk.injEq]
        exact ⟨rfl, by omega, by omega⟩
      · rw [dayOf_high hnext, Persian.mk.injEq]
        exact ⟨rfl, by omega, by omega⟩
    · rw [if_pos (by omega), dayOf_low (by omega), Persian.mk.injEq]
      exact ⟨rfl, by omega, by omega⟩
  · rw [dayOf_high hlow, dayOf_high (by omega)]
    by_cases hmonth : 7 + (d - 186) / 30 ≤ 11
    · have hdays : monthDays y (7 + (d - 186) / 30) = 30 := by
        unfold monthDays
        rw [if_neg (by omega), if_pos hmonth]
      simp only [hdays]
      by_cases hend : (d - 186) % 30 = 29
      · rw [if_neg (by omega), if_pos (by omega), Persian.mk.injEq]
        exact ⟨rfl, by omega, by omega⟩
      · rw [if_pos (by omega), Persian.mk.injEq]
        exact ⟨rfl, by omega, by omega⟩
    -- In the last month a leap year has one day more.
    · have hdays : monthDays y (7 + (d - 186) / 30) = if leap y then 30 else 29 := by
        unfold monthDays
        rw [if_neg (by omega), if_neg hmonth]
      have hroom : 1 + (d - 186) % 30 < if leap y = true then (30 : Int) else 29 := by
        by_cases hleap : leap y = true
        · rw [if_pos hleap] at hlast ⊢
          omega
        · rw [if_neg hleap] at hlast ⊢
          omega
      simp only [hdays]
      rw [if_pos hroom, Persian.mk.injEq]
      exact ⟨rfl, by omega, by omega⟩

theorem dayOf_year {y : Int} : dayOf (y + 1) 0 = (dayOf y (lastDay y)).succ := by
  unfold lastDay Persian.succ dayOf monthDays
  by_cases hleap : leap y = true <;> simp [hleap]

theorem startOf_next {k p : Int} (h0 : 0 ≤ p) (h1 : p < 32) :
    startOf k (p + 1) = startOf k p + lastDay (-1595 + 33 * k + p) + 1 := by
  have hlast : lastDay (-1595 + 33 * k + p) = if p % 4 = 0 then 365 else 364 := by
    unfold lastDay
    by_cases hp : p % 4 = 0
    · rw [if_pos hp, if_pos ((leap_span k h0 (by omega)).mpr ⟨hp, by omega⟩)]
    · rw [if_neg hp, if_neg (by rw [leap_span k h0 (by omega)]; omega)]
  rw [hlast]
  unfold startOf
  split <;> split <;> omega

theorem startOf_cycle (k : Int) : startOf (k + 1) 0 = startOf k 32 + lastDay (-1595 + 33 * k + 32) + 1 := by
  have hleap : ¬ leap (-1595 + 33 * k + 32) = true := by
    rw [leap_span k (by omega) (by omega)]
    omega
  unfold lastDay startOf
  rw [if_neg hleap]
  omega

theorem lastDay_nonneg (y : Int) : 0 ≤ lastDay y := by
  unfold lastDay
  split <;> omega

/-- The date of the next number is the day after. -/
theorem ofDays_succ (n : Int) : ofDays (n + 1) = (ofDays n).succ := by
  obtain ⟨k, p, d, h0, h1, hd0, hd1, rfl⟩ := exists_year n
  rw [ofDays_start h0 h1 hd0 hd1]
  by_cases hd : d < lastDay (-1595 + 33 * k + p)
  · rw [← dayOf_succ hd0 hd, Int.add_assoc, ofDays_start h0 h1 (by omega) (by omega)]
  have hlast : d = lastDay (-1595 + 33 * k + p) := by omega
  rw [hlast, ← dayOf_year]
  by_cases hp : p < 32
  · have hzero := ofDays_start (k := k) (p := p + 1) (d := 0) (by omega) (by omega) (by omega) (lastDay_nonneg _)
    rw [startOf_next h0 hp, Int.add_zero] at hzero
    rw [hzero]
    congr 1
    omega
  · have hp32 : p = 32 := by omega
    have hzero := ofDays_start (k := k + 1) (p := 0) (d := 0) (by omega) (by omega) (by omega) (lastDay_nonneg _)
    rw [startOf_cycle, Int.add_zero] at hzero
    rw [hp32, hzero]
    congr 1
    omega

theorem ofDays_valid (n : Int) : (ofDays n).Valid := by
  obtain ⟨k, p, d, h0, h1, hd0, hd1, rfl⟩ := exists_year n
  rw [ofDays_start h0 h1 hd0 hd1]
  exact dayOf_valid hd0 hd1

theorem jalaliDate_next (g : Gregorian) : jalaliDate g.next = (jalaliDate g).succ := by
  unfold jalaliDate
  rw [jalaliDays_next, ofDays_succ]

/-- Eight years of each cycle are leap years. -/
theorem leap_eight (y : Int) : ((List.range 33).filter fun i : Nat => leap (y + i)).length = 8 := by
  have hmod : ∀ i : Nat, leap (y + i) = leap (y % 33 + i) := by
    intro i
    unfold leap
    rw [Int.emod_add_emod]
  have hcases : ∀ r : Fin 33, ((List.range 33).filter fun i : Nat => leap ((r : Nat) + i)).length = 8 := by
    decide
  have hr := hcases ⟨(y % 33).toNat, by omega⟩
  rw [List.filter_congr fun i _ => hmod i]
  rw [show (((⟨(y % 33).toNat, by omega⟩ : Fin 33) : Nat) : Int) = y % 33 by simp; omega] at hr
  exact hr

/-! ## One date decides the others -/

theorem succ_cases (p : Persian) :
    p.day < monthDays p.year p.month ∧ p.succ = ⟨p.year, p.month, p.day + 1⟩ ∨
      ¬ p.day < monthDays p.year p.month ∧ p.month < 12 ∧ p.succ = ⟨p.year, p.month + 1, 1⟩ ∨
      ¬ p.day < monthDays p.year p.month ∧ ¬ p.month < 12 ∧ p.succ = ⟨p.year + 1, 1, 1⟩ := by
  unfold Persian.succ
  by_cases hd : p.day < monthDays p.year p.month
  · exact .inl ⟨hd, if_pos hd⟩
  · rw [if_neg hd]
    by_cases hm : p.month < 12
    · exact .inr (.inl ⟨hd, hm, if_pos hm⟩)
    · exact .inr (.inr ⟨hd, hm, if_neg hm⟩)

/-- Two last days of one month are the same. -/
theorem eq_of_last {p q : Persian} (hp : p.Valid) (hq : q.Valid) (hpd : ¬ p.day < monthDays p.year p.month)
    (hqd : ¬ q.day < monthDays q.year q.month) (hy : p.year = q.year) (hm : p.month = q.month) : p = q := by
  obtain ⟨py, pm, pd⟩ := p
  obtain ⟨qy, qm, qd⟩ := q
  obtain ⟨-, -, -, hp⟩ := hp
  obtain ⟨-, -, -, hq⟩ := hq
  dsimp only at *
  rw [hy, hm] at hp hpd
  rw [hy, hm, Persian.mk.injEq]
  exact ⟨rfl, rfl, by omega⟩

/-- No two dates have the same day after. -/
theorem succ_inj {p q : Persian} (hp : p.Valid) (hq : q.Valid) (h : p.succ = q.succ) : p = q := by
  have hpm := hp
  have hqm := hq
  unfold Persian.Valid at hpm hqm
  rcases succ_cases p with ⟨hpd, hps⟩ | ⟨hpd, hpl, hps⟩ | ⟨hpd, hpl, hps⟩ <;>
    rcases succ_cases q with ⟨hqd, hqs⟩ | ⟨hqd, hql, hqs⟩ | ⟨hqd, hql, hqs⟩ <;>
    rw [hps, hqs, Persian.mk.injEq] at h <;> obtain ⟨hy, hm, hd⟩ := h
  · obtain ⟨py, pm, pd⟩ := p
    obtain ⟨qy, qm, qd⟩ := q
    rw [Persian.mk.injEq]
    exact ⟨hy, hm, by dsimp only at hd; omega⟩
  · omega
  · omega
  · omega
  · exact eq_of_last hp hq hpd hqd hy (by omega)
  · omega
  · omega
  · omega
  · exact eq_of_last hp hq hpd hqd (by omega) (by omega)

def firstDate : Gregorian := ⟨1, 1, 1, by omega, by omega, by omega, by omega, by decide⟩

/-- Each date but the first is the day after another. -/
theorem exists_prev (g : Gregorian) (h : g ≠ firstDate) : ∃ g' : Gregorian, g'.next = g := by
  obtain ⟨y, m, d, hy, hm1, hm2, hd1, hd2⟩ := g
  by_cases hd : 1 < d
  · refine ⟨⟨y, m, d - 1, hy, hm1, hm2, by omega, by omega⟩, ?_⟩
    unfold Gregorian.next
    rw [dif_pos (by dsimp only; omega)]
    ext
    · rfl
    · rfl
    · dsimp only
      omega
  by_cases hm : 1 < m
  · refine ⟨⟨y, m - 1, gregorianDays y (m - 1), hy, by omega, by omega, gregorianDays_pos _ _, Nat.le_refl _⟩, ?_⟩
    unfold Gregorian.next
    rw [dif_neg (by dsimp only; omega), dif_pos (by dsimp only; omega)]
    ext <;> dsimp only <;> omega
  · have hy1 : 1 < y := by
      by_contra hno
      obtain rfl : y = 1 := by omega
      obtain rfl : m = 1 := by omega
      obtain rfl : d = 1 := by omega
      exact h rfl
    refine ⟨⟨y - 1, 12, 31, by omega, by omega, by omega, by omega, Nat.le_refl 31⟩, ?_⟩
    unfold Gregorian.next
    rw [dif_neg (by simp [gregorianDays]), dif_neg (by dsimp only; omega)]
    ext <;> dsimp only <;> omega

/-- The date so many days after the first. -/
def nth : Nat → Gregorian
  | 0 => firstDate
  | n + 1 => (nth n).next

theorem gregorianDays_le (y m : Nat) : gregorianDays y m ≤ 31 := by
  unfold gregorianDays
  split
  · split <;> omega
  all_goals omega

/-- Grows from day to day. -/
def Gregorian.size (g : Gregorian) : Nat := g.year * 372 + g.month * 31 + g.day

theorem size_next (g : Gregorian) : g.size < g.next.size := by
  have hday := g.day_le
  have hmonth := gregorianDays_le g.year g.month
  have hle := g.month_le
  unfold Gregorian.next Gregorian.size
  split
  · dsimp only
    omega
  · split <;> dsimp only <;> omega

/-- Each date is some days after the first. -/
theorem exists_nth (g : Gregorian) : ∃ n, nth n = g := by
  induction hsize : g.size using Nat.strongRecOn generalizing g with
  | ind size ih =>
    by_cases hfirst : g = firstDate
    · exact ⟨0, hfirst.symm⟩
    · obtain ⟨g', rfl⟩ := exists_prev g hfirst
      obtain ⟨n, rfl⟩ := ih g'.size (by rw [← hsize]; exact size_next g') g' rfl
      exact ⟨n + 1, rfl⟩

/-- Follows the calendar from day to day. -/
def Follows (f : Gregorian → Persian) : Prop := ∀ g, (f g).Valid ∧ f g.next = (f g).succ

theorem jalaliDate_follows : Follows jalaliDate := fun g => ⟨ofDays_valid _, jalaliDate_next g⟩

/-- What follows the calendar is decided by one date. -/
theorem follows_eq {f f' : Gregorian → Persian} (hf : Follows f) (hf' : Follows f') {a : Gregorian}
    (ha : f a = f' a) (g : Gregorian) : f g = f' g := by
  have hstep : ∀ n, f (nth n) = f' (nth n) ↔ f (nth (n + 1)) = f' (nth (n + 1)) := by
    intro n
    rw [nth, (hf _).2, (hf' _).2]
    exact ⟨fun h => by rw [h], succ_inj (hf _).1 (hf' _).1⟩
  have hzero : ∀ n, f (nth n) = f' (nth n) ↔ f (nth 0) = f' (nth 0) := by
    intro n
    induction n with
    | zero => exact Iff.rfl
    | succ n ih => rw [← hstep, ih]
  obtain ⟨n, rfl⟩ := exists_nth a
  obtain ⟨m, rfl⟩ := exists_nth g
  rw [hzero, ← hzero n]
  exact ha

/-- The first day of 1405. -/
def anchor : Gregorian := ⟨2026, 3, 21, by omega, by omega, by omega, by omega, by decide⟩

example : jalali anchor 14 5 = "۱۴۰۵/۰۱/۰۱ ۱۴:۰۵" := by decide

/-- `jalali` gives valid dates of the calendar with a cycle of 33 years, each
the one after that of the day before; and nothing else does that has 1405/01/01
where it belongs. -/
theorem jalali_follows : (∀ g, (jalaliDate g).Valid ∧ jalaliDate g.next = (jalaliDate g).succ) ∧
    (∀ y : Int, ((List.range 33).filter fun i : Nat => leap (y + i)).length = 8) ∧
    jalaliDate anchor = ⟨1405, 1, 1⟩ ∧
    ∀ f, Follows f → f anchor = ⟨1405, 1, 1⟩ → f = jalaliDate := by
  refine ⟨jalaliDate_follows, leap_eight, by decide, fun f hf ha => ?_⟩
  exact funext fun g => follows_eq hf jalaliDate_follows (ha.trans (by decide)) g

end icsd_panel.calendars

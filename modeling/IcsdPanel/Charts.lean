-- The history of a server as the charts get it: the last hour from the ring of points,
-- and before the first of them from the minutes.
import IcsdPanel.Buffers
import IcsdPanel.Minutes
import IcsdPanel.Outages
import IcsdPanel.Rollups
import Mathlib.Data.List.Sort

open dicts runs

namespace icsd_panel.charts

open alerts live buffers minutes rollups

/-! ## Series -/

/-- The keys of `RANGES`. -/
inductive Range
  | h1 | h6 | h24 | d7 | d30 | d90 | y1
deriving DecidableEq

def Range.span : Range → Int
  | .h1 => 3600
  | .h6 => 6 * 3600
  | .h24 => 86400
  | .d7 => 7 * 86400
  | .d30 => 30 * 86400
  | .d90 => 90 * 86400
  | .y1 => 365 * 86400

/-- A row of a table, as a query gives it. -/
structure Row where
  ts : Int
  cpuMax : ℚ
  avg : Point

/-- The columns of a chart. -/
structure Series where
  step : Int
  t : List Int
  column : Field → List ℚ
  cpuMax : List ℚ

/-- `ORDER BY ts` -/
def ordered (rows : List Row) : List Row := rows.insertionSort fun r s => r.ts ≤ s.ts

/-- The rows of a server in `samples_1m`. -/
def minuteRows (table : Minutes) (sid : Sid) (p : Int → Bool) : List Row :=
  ordered ((table.entries.filter fun e => e.1.1 = sid && p e.1.2).map fun e => ⟨e.1.2, e.2.cpuMax, e.2.avg⟩)

/-- The rows of a server in `samples_1h`. -/
def hourRows (table : Dict (Sid × Int) HourRow) (sid : Sid) (p : Int → Bool) : List Row :=
  ordered ((table.entries.filter fun e => e.1.1 = sid && p e.1.2).map fun e => ⟨e.1.2, e.2.cpuMax, e.2.avg⟩)

/-- `_hourly_from_minutes`, with a row for each hour of the minutes. -/
def hourlyFromMinutes (table : Minutes) (sid : Sid) (since : Int) : List Row :=
  let rows := minuteRows table sid fun ts => since ≤ ts
  (rows.map fun r => hourOf r.ts).dedup.map fun hour =>
    let row := hourRow ((rows.filter fun r => hourOf r.ts = hour).map fun r => ⟨1, r.cpuMax, r.avg⟩)
    ⟨hour, row.cpuMax, row.avg⟩

/-- The minutes before the first point of the ring. -/
def older (table : Minutes) (sid : Sid) (ring : List (Int × Point)) (since : Int) : List Row :=
  match ring with
  | [] => []
  | p :: _ => if since < p.1 then minuteRows table sid fun ts => since ≤ ts && ts < minuteOf p.1 else []

/-- The points of the ring that are in the range. -/
def recent (ring : List (Int × Point)) (since : Int) : List (Int × Point) := ring.filter fun p => since ≤ p.1

def ofRows (step : Int) (rows : List Row) : Series :=
  ⟨step, rows.map Row.ts, fun f => rows.map fun r => r.avg f, rows.map Row.cpuMax⟩

/-- `series`, where a server that is not live has an empty ring. An unknown range is
the shortest. -/
def series (interval : Int) (ring : List (Int × Point)) (minutes : Minutes) (hours : Dict (Sid × Int) HourRow)
    (sid : Sid) (rng : Option Range) (now : Int) : Series :=
  let span := (rng.map Range.span).getD 3600
  let since := now - span
  if span ≤ 3600 ∧ ring ≠ [] then
    let pts := (older minutes sid ring since).map (fun r => (r.ts, r.avg)) ++ recent ring since
    ⟨interval, pts.map Prod.fst, fun f => pts.map fun p => p.2 f, pts.map fun p => p.2 .cpu⟩
  else if span ≤ 2 * 86400 then ofRows 60 (minuteRows minutes sid fun ts => since ≤ ts)
  else
    let rows := hourRows hours sid fun ts => since ≤ ts
    if span ≤ 30 * 86400 then
      let last := (rows.getLast?.map Row.ts).getD since
      ofRows 3600 (rows ++ hourlyFromMinutes minutes sid (last + 3600))
    else ofRows 3600 rows

/-! ## The hub -/

structure Hub where
  lives : Sid → Live
  tables : Tables

def start : Hub := ⟨fun _ => .new, noRows⟩

/-- Samples and flushes, the ticker's work on the tables, a restart, and a server that
is forgotten. -/
inductive Move
  | call (c : minutes.Call)
  | tables (c : rollups.Call)
  | restart
  | forget (sid : Sid)

def step (h : Hub) : Move → Hub
  | .call c =>
    let s := Store.call ⟨h.lives, h.tables.minutes⟩ c
    ⟨s.lives, { h.tables with minutes := s.table }⟩
  | .tables c => { h with tables := h.tables.call c }
  | .restart => { h with lives := fun _ => .new }
  | .forget sid => { h with lives := Function.update h.lives sid .new }

/-- The chart of the last hour. -/
def Hub.lastHour (h : Hub) (interval : Int) (sid : Sid) (now : Int) : Series :=
  series interval (h.lives sid).ring h.tables.minutes h.tables.hours sid (some .h1) now

/-- The rows and the points of the chart: a minute whose row is shown has no point of the
ring that is shown. -/
def Once (h : Hub) (sid : Sid) (now : Int) : Prop :=
  ∀ row ∈ older h.tables.minutes sid (h.lives sid).ring (now - 3600),
    ∀ p ∈ recent (h.lives sid).ring (now - 3600), minuteOf p.1 ≠ row.ts

/-- The seconds of the samples of a server that the process took, in their order. -/
def noted (sid : Sid) (ts : List Int) : Move → List Int
  | .call (.ingest sid' raw now) => if sid' = sid then ts ++ [assigned raw now] else ts
  | .restart => []
  | .forget sid' => if sid' = sid then [] else ts
  | _ => ts

def taken (sid : Sid) (ms : List Move) : List Int := ms.foldl (noted sid) []

/-- The samples of the hour that the ring still has came in the order of their times. -/
def InOrder (ts : List Int) (now : Int) : Prop :=
  ((newest ringSize ts).filter fun t => now - 3600 ≤ t).Pairwise (· ≤ ·)

instance (ts : List Int) (now : Int) : Decidable (InOrder ts now) :=
  inferInstanceAs (Decidable (List.Pairwise _ _))

/-! ## The ring holds the newest samples -/

variable {sid : Sid} {ts : List Int} {h : Hub} {n : Nat}

theorem newest_snoc {α : Type} (xs : List α) (x : α) : newest n (newest n xs ++ [x]) = newest n (xs ++ [x]) := by
  unfold newest
  rw [← List.drop_append_of_le_length (by omega), List.drop_drop]
  congr 1
  simp only [List.length_append, List.length_drop, List.length_singleton]
  omega

theorem pushRing_newest (ring : List (Int × Point)) (x : Int × Point) :
    pushRing ring x = newest ringSize (ring ++ [x]) := by
  simp [pushRing, newest]

theorem accumulate_ring (sid : Sid) (t : Int) (p : Point) (lv : Live) (table : Minutes) :
    (accumulate sid t p lv table).1.ring = lv.ring := (outages.accumulate_minute sid t p lv table).2.2

theorem ingest_ring (sid : Sid) (raw : Raw) (now : ℚ) (lv : Live) (t : Minutes) :
    ∃ p, (ingest sid raw now lv t).2.1.ring = pushRing lv.ring (assigned raw now, p) := by
  refine ⟨pointIn lv raw now, ?_⟩
  unfold ingest
  simp only
  split <;> simp only [accumulate_ring, assigned, pointIn]

theorem flush_ring (sid : Sid) (lv : Live) (t : Minutes) : (flush sid lv t).1.ring = lv.ring := by
  unfold flush
  split <;> rfl

/-- The seconds in the ring of a server. -/
def Rings (h : Hub) (sid : Sid) (ts : List Int) : Prop := (h.lives sid).ring.map Prod.fst = newest ringSize ts

theorem rings_step (hr : Rings h sid ts) (m : Move) : Rings (step h m) sid (noted sid ts m) := by
  unfold Rings at hr ⊢
  cases m with
  | call c =>
    cases c with
    | ingest sid' raw now =>
      by_cases hsid : sid' = sid
      · subst hsid
        obtain ⟨p, hring⟩ := ingest_ring sid' raw now (h.lives sid') h.tables.minutes
        simp only [step, Store.call, noted, Function.update_self, if_pos]
        rw [hring, pushRing_newest]
        unfold newest at hr ⊢
        rw [List.map_drop, List.map_append, hr]
        have hlength : (h.lives sid').ring.length = (ts.drop (ts.length - ringSize)).length := by
          rw [← hr, List.length_map]
        have hsnoc := @newest_snoc ringSize Int ts (assigned raw now)
        unfold newest at hsnoc
        rw [← hsnoc]
        simp [hlength]
      · simp only [step, Store.call, noted, if_neg hsid, Function.update_of_ne (Ne.symm hsid)]
        exact hr
    | flush sid' =>
      by_cases hsid : sid' = sid
      · subst hsid
        simp only [step, Store.call, noted, Function.update_self]
        rw [flush_ring]
        exact hr
      · simp only [step, Store.call, noted, Function.update_of_ne (Ne.symm hsid)]
        exact hr
  | tables c => exact hr
  | restart => simp [step, noted, newest, Live.new]
  | forget sid' =>
    by_cases hsid : sid' = sid
    · subst hsid
      simp [step, noted, newest, Live.new]
    · simp only [step, noted, if_neg hsid, Function.update_of_ne (Ne.symm hsid)]
      exact hr

theorem rings_run (ms : List Move) (hr : Rings h sid ts) : Rings (final step h ms) sid (ms.foldl (noted sid) ts) := by
  induction ms generalizing h ts with
  | nil => exact hr
  | cons m ms ih => exact ih (rings_step hr m)

/-! ## The chart of the hour -/

variable {table : Minutes} {p : Int → Bool} {ring : List (Int × Point)} {since : Int}

theorem ordered_pairwise (rows : List Row) : ((ordered rows).map Row.ts).Pairwise (· ≤ ·) := by
  rw [List.pairwise_map]
  have htotal : Std.Total fun r s : Row => r.ts ≤ s.ts := ⟨fun r s => Int.le_total r.ts s.ts⟩
  have htrans : IsTrans Row fun r s => r.ts ≤ s.ts := ⟨fun _ _ _ => Int.le_trans⟩
  exact List.pairwise_insertionSort _ rows

theorem mem_minuteRows {row : Row} (h : row ∈ minuteRows table sid p) : p row.ts = true := by
  unfold minuteRows ordered at h
  rw [List.mem_insertionSort, List.mem_map] at h
  obtain ⟨e, he, rfl⟩ := h
  have hfilter := List.of_mem_filter he
  simp only [Bool.and_eq_true] at hfilter
  exact hfilter.2

/-- The rows come before the minute of the first point of the ring. -/
theorem mem_older {row : Row} (h : row ∈ older table sid ring since) :
    ∃ first rest, ring = first :: rest ∧ since < first.1 ∧ row.ts < minuteOf first.1 := by
  cases ring with
  | nil => cases h
  | cons first rest =>
    simp only [older] at h
    split at h
    · rename_i hsince
      have hp := mem_minuteRows h
      simp only [Bool.and_eq_true, decide_eq_true_eq] at hp
      exact ⟨first, rest, rfl, hsince, hp.2⟩
    · cases h

theorem older_pairwise : ((older table sid ring since).map Row.ts).Pairwise (· ≤ ·) := by
  cases ring with
  | nil => exact List.Pairwise.nil
  | cons first rest =>
    simp only [older]
    split
    · exact ordered_pairwise _
    · exact List.Pairwise.nil

/-- Points in the order of their times do not lie before a first one that is shown. -/
theorem first_le {first : Int × Point} {rest : List (Int × Point)} (hsince : since < first.1)
    (horder : ((recent (first :: rest) since).map Prod.fst).Pairwise (· ≤ ·)) {q : Int × Point}
    (hq : q ∈ recent (first :: rest) since) : first.1 ≤ q.1 := by
  have hshown : recent (first :: rest) since = first :: recent rest since := by
    simp [recent, hsince.le]
  rw [hshown] at horder hq
  rw [List.map_cons, List.pairwise_cons] at horder
  rcases List.mem_cons.mp hq with rfl | hq
  · exact le_refl _
  · exact horder.1 q.1 (List.mem_map_of_mem hq)

theorem minuteOf_le (t : Int) : minuteOf t ≤ t := by
  unfold minuteOf
  omega

theorem minuteOf_mono {s t : Int} (h : s ≤ t) : minuteOf s ≤ minuteOf t := by
  unfold minuteOf
  omega

/-- Rows and points together are in order where the points are. -/
theorem chart_pairwise : ((older table sid ring since).map Row.ts ++ (recent ring since).map Prod.fst).Pairwise (· ≤ ·) ↔
    ((recent ring since).map Prod.fst).Pairwise (· ≤ ·) := by
  rw [List.pairwise_append]
  constructor
  · exact fun h => h.2.1
  · intro horder
    refine ⟨older_pairwise, horder, ?_⟩
    intro t ht u hu
    obtain ⟨row, hrow, rfl⟩ := List.mem_map.mp ht
    obtain ⟨q, hq, rfl⟩ := List.mem_map.mp hu
    obtain ⟨first, rest, rfl, hsince, hlt⟩ := mem_older hrow
    have hfirst := first_le hsince horder hq
    have hminute := minuteOf_le first.1
    omega

/-- The times of the chart of the last hour. -/
theorem lastHour_t (h : Hub) (interval : Int) (sid : Sid) (now : Int) :
    (h.lastHour interval sid now).t =
      if (h.lives sid).ring = [] then (minuteRows h.tables.minutes sid fun ts => now - 3600 ≤ ts).map Row.ts
      else (older h.tables.minutes sid (h.lives sid).ring (now - 3600)).map Row.ts ++
        (recent (h.lives sid).ring (now - 3600)).map Prod.fst := by
  unfold Hub.lastHour series
  by_cases hring : (h.lives sid).ring = []
  · simp [hring, Range.span, ofRows]
  · simp [hring, Range.span, Function.comp_def]

theorem recent_times {now : Int} (hr : Rings h sid ts) :
    (recent (h.lives sid).ring (now - 3600)).map Prod.fst =
      (newest ringSize ts).filter fun t => now - 3600 ≤ t := by
  rw [← hr, recent, List.filter_map]
  rfl

/-- The chart of the last hour has its times in order, and shows no sample twice, exactly
where the samples of the hour that the ring still has came in the order of their times. -/
theorem last_hour_ordered (ms : List Move) (hrun : final step start ms = h) (interval : Int) (sid : Sid) (now : Int) :
    ((h.lastHour interval sid now).t.Pairwise (· ≤ ·) ∧ Once h sid now) ↔ InOrder (taken sid ms) now := by
  have hrings : Rings h sid (taken sid ms) := by
    rw [← hrun]
    exact rings_run ms (by simp [Rings, start, newest, Live.new])
  unfold InOrder
  rw [← recent_times hrings, lastHour_t]
  constructor
  · rintro ⟨horder, -⟩
    split at horder
    · rename_i hring
      rw [hring]
      exact List.Pairwise.nil
    · exact chart_pairwise.mp horder
  · intro horder
    constructor
    · split
      · exact ordered_pairwise _
      · exact chart_pairwise.mpr horder
    · intro row hrow p hp heq
      obtain ⟨first, rest, hring, hsince, hlt⟩ := mem_older hrow
      rw [hring] at horder hp
      have hminute := minuteOf_mono (first_le hsince horder hp)
      omega

/-- A sample every five seconds. -/
def steady : List Move := [960, 965, 970].map fun i : Int => .call (.ingest "s1" (cpuSample i 1) i)

theorem steady_ordered :
    ∃ h, final step start steady = h ∧ (h.lastHour 5 "s1" 975).t = [960, 965, 970] ∧
      (h.lastHour 5 "s1" 975).t.Pairwise (· ≤ ·) ∧ Once h "s1" 975 := by
  have hordered := (last_hour_ordered steady rfl 5 "s1" 975).mpr (by decide +kernel)
  exact ⟨_, rfl, by decide +kernel, hordered⟩

/-- The clock of the agent is ahead by nearly a minute, and is then set right. -/
def corrected : List Move :=
  [.call (.ingest "s1" (cpuSample 1061 1) 1003), .call (.ingest "s1" (cpuSample 1008 1) 1008),
    .call (.ingest "s1" (cpuSample 1063 1) 1063)]

theorem corrected_twice :
    ∃ h, final step start corrected = h ∧ (h.lastHour 5 "s1" 1064).t = [960, 1061, 1008, 1063] ∧
      ¬ (h.lastHour 5 "s1" 1064).t.Pairwise (· ≤ ·) ∧ ¬ Once h "s1" 1064 := by
  have htimes : ((final step start corrected).lastHour 5 "s1" 1064).t = [960, 1061, 1008, 1063] := by decide +kernel
  have hrow : (960 : Int) ∈ (older (final step start corrected).tables.minutes "s1"
      ((final step start corrected).lives "s1").ring (1064 - 3600)).map Row.ts := by decide +kernel
  have hpoint : (1008 : Int) ∈ (recent ((final step start corrected).lives "s1").ring (1064 - 3600)).map Prod.fst := by
    decide +kernel
  generalize final step start corrected = h at *
  refine ⟨h, rfl, htimes, ?_, ?_⟩
  · rw [htimes]
    decide
  · intro honce
    obtain ⟨row, hmem, hts⟩ := List.mem_map.mp hrow
    obtain ⟨p, hp, hpts⟩ := List.mem_map.mp hpoint
    refine honce row hmem p hp ?_
    rw [hts, hpts]
    decide

end icsd_panel.charts

-- History: minutes are rolled up to hours by a ticker that runs while the hub
-- is up, and both tables have their retention.
import IcsdPanel.Live
import IcsdPanel.Runs

open dicts

namespace icsd_panel.rollups

open alerts live

/-! ## The two tables -/

/-- A row of `samples_1h`. -/
structure HourRow where
  cpuMax : ℚ
  avg : Point

def keepMinutesDays : Int := 15

def keepHoursDays : Int := 400

/-- `(ts/3600)*3600`, as SQLite divides. -/
def hourOf (ts : Int) : Int := ts.tdiv 3600 * 3600

def thisHour (now : Int) : Int := now - now % 3600

/-- The rows that `rollup` reads are those of the last six complete hours. -/
def covers (now ts : Int) : Bool := thisHour now - 6 * 3600 ≤ ts && ts < thisHour now

/-- The server and the hour of a minute. -/
def hourKey (k : Sid × Int) : Sid × Int := (k.1, hourOf k.2)

/-- `MAX(cpu_max)` and `ROUND(AVG(…), 2)` of a group. -/
def hourRow (rows : List MinuteRow) : HourRow :=
  ⟨match rows.map MinuteRow.cpuMax with
    | [] => 0
    | x :: xs => xs.foldl max x,
   fun f => sqlRound2 ((rows.map fun r => r.avg f).sum / rows.length)⟩

/-- The tables, and the hours that were in `samples_1h` until they got too old. -/
structure Tables where
  minutes : Minutes
  hours : Dict (Sid × Int) HourRow
  expired : List (Sid × Int)

/-- `rollup`: `INSERT OR REPLACE … SELECT … GROUP BY server_id, ts/3600` -/
def rollup (now : Int) (t : Tables) : Tables :=
  let rows := t.minutes.entries.filter fun e => covers now e.1.2
  { t with hours := rows.foldl (fun hours e => hours.set (hourKey e.1)
      (hourRow ((rows.filter fun r => hourKey r.1 = hourKey e.1).map Prod.snd))) t.hours }

/-- A row of `samples_1m` that `prune` deletes. -/
def falls (now ts : Int) : Bool := ts < now - keepMinutesDays * 86400

def fallsHour (now ts : Int) : Bool := ts < now - keepHoursDays * 86400

/-- `prune`, of the two tables. -/
def prune (now : Int) (t : Tables) : Tables where
  minutes := t.minutes.filter fun k _ => !falls now k.2
  hours := t.hours.filter fun k _ => !fallsHour now k.2
  expired := t.expired ++ t.hours.keys.filter fun k => fallsHour now k.2

/-- What happens to the tables. -/
inductive Call
  | write (sid : Sid) (minute : Int) (row : MinuteRow)
  | rollup (now : Int)
  | prune (now : Int)

def Tables.call (t : Tables) : Call → Tables
  | .write sid minute row => { t with minutes := putRow t.minutes (sid, minute) row }
  | .rollup now => rollup now t
  | .prune now => prune now t

/-! ## The ticker -/

/-- A hub comes up, a pass of its ticker, a flush of a minute, and the hub goes
down. A pass may end early: what comes before the rollup raises. -/
inductive Event
  | start
  | tick (now : Int) (raises : Bool)
  | write (sid : Sid) (minute : Int) (row : MinuteRow)
  | stop

structure Ticker where
  up : Bool
  tick : Nat

/-- `_ticker`: what an event calls. -/
def Ticker.event (k : Ticker) : Event → Ticker × List Call
  | .start => (⟨true, 0⟩, [])
  | .tick now raises =>
    if k.up then
      (⟨true, k.tick + 1⟩,
        if raises then []
        else (if k.tick % 40 = 0 then [.rollup now] else []) ++
          if k.tick % 240 = 1 then [.prune now] else [])
    else (k, [])
  | .write sid minute row => (k, if k.up then [.write sid minute row] else [])
  | .stop => (⟨false, k.tick⟩, [])

/-- The calls of a history. -/
def calls (k : Ticker) : List Event → List Call
  | [] => []
  | e :: es => (k.event e).2 ++ calls (k.event e).1 es

def off : Ticker := ⟨false, 0⟩

def noRows : Tables := ⟨.empty, .empty, []⟩

/-! ## Lost hours -/

/-- `samples_1h` has the hour, or had it until its own retention. -/
def Tables.Recorded (t : Tables) (k : Sid × Int) : Prop := (t.hours.get k).isSome ∨ k ∈ t.expired

/-- A prune deletes no minute of a complete hour that was not rolled up. -/
def Lossless (t : Tables) : Call → Prop
  | .prune now => ∀ k ∈ t.minutes.keys, falls now k.2 → hourOf k.2 + 3600 ≤ now → t.Recorded (hourKey k)
  | _ => True

/-- What the schedule alone says: the minutes that were written, and the hours
that a rollup came in time for. -/
structure Schedule where
  written : List (Sid × Int)
  covered : List (Sid × Int)

def Schedule.call (p : Schedule) : Call → Schedule
  | .write sid minute _ => { p with written := p.written ++ [(sid, minute)] }
  | .rollup now =>
    { p with covered := p.covered ++ (p.written.filter fun k => covers now k.2).map hourKey }
  | .prune _ => p

/-- When the retention of a minute ends, a rollup came while its hour was one
of the last six. -/
def InTime (p : Schedule) : Call → Prop
  | .prune now => ∀ k ∈ p.written, falls now k.2 → hourKey k ∈ p.covered
  | _ => True

/-! ## Tables and schedule -/

variable {t : Tables} {p : Schedule} {k : Sid × Int} {now : Int}

theorem foldl_set_isSome {α κ ν : Type} [DecidableEq κ] {es : List α} {f : α → κ} {g : α → ν}
    {d : Dict κ ν} {k : κ} :
    ((es.foldl (fun d e => d.set (f e) (g e)) d).get k).isSome ↔ (d.get k).isSome ∨ ∃ e ∈ es, f e = k := by
  induction es generalizing d with
  | nil => simp
  | cons e es ih =>
    rw [List.foldl_cons, ih, Dict.get_set]
    by_cases h : k = f e
    · simp [h]
    · simp [h, Ne.symm h]

theorem recorded_rollup : (rollup now t).Recorded k ↔
    t.Recorded k ∨ ∃ m ∈ t.minutes.keys, covers now m.2 ∧ hourKey m = k := by
  have hrows : (∃ e ∈ t.minutes.entries.filter fun e => covers now e.1.2, hourKey e.1 = k) ↔
      ∃ m ∈ t.minutes.keys, covers now m.2 ∧ hourKey m = k := by
    unfold Dict.keys
    constructor
    · rintro ⟨e, he, hk⟩
      obtain ⟨hmem, hcov⟩ := List.mem_filter.mp he
      exact ⟨e.1, List.mem_map_of_mem hmem, hcov, hk⟩
    · rintro ⟨m, hm, hcov, hk⟩
      obtain ⟨e, he, rfl⟩ := List.mem_map.mp hm
      exact ⟨e, List.mem_filter.mpr ⟨he, hcov⟩, hk⟩
  unfold Tables.Recorded rollup
  simp only
  rw [foldl_set_isSome, hrows]
  exact or_right_comm

/-- What leaves `samples_1h` is noted as expired. -/
theorem recorded_prune : (prune now t).Recorded k ↔ t.Recorded k := by
  unfold Tables.Recorded prune
  simp only [Dict.get_filter, List.mem_append, List.mem_filter, Dict.mem_keys]
  cases hget : t.hours.get k with
  | none => simp
  | some r => cases fallsHour now k.2 <;> simp

theorem mem_keys_putRow {minutes : Minutes} {q : Sid × Int} {row : MinuteRow} :
    q ∈ (putRow minutes k row).keys ↔ q ∈ minutes.keys ∨ q = k := by
  unfold putRow
  rw [Dict.mem_keys, Dict.mem_keys]
  split <;> rw [Dict.get_set] <;> by_cases h : q = k <;> simp_all

theorem mem_keys_prune {q : Sid × Int} :
    q ∈ (prune now t).minutes.keys ↔ q ∈ t.minutes.keys ∧ falls now q.2 = false := by
  unfold prune
  simp only [Dict.mem_keys, Dict.get_filter]
  cases hget : t.minutes.get q with
  | none => simp
  | some r => cases falls now q.2 <;> simp

/-- The hour of a minute is over long before its retention ends. -/
theorem hour_over {ts : Int} (h : falls now ts) : hourOf ts + 3600 ≤ now := by
  have hsum := Int.mul_tdiv_add_tmod ts 3600
  have hlow := Int.lt_tmod_of_pos ts (by decide : (0 : Int) < 3600)
  have hold : ts < now - 15 * 86400 := of_decide_eq_true h
  unfold hourOf
  omega

/-- While no hour was lost, the tables and the schedule agree: a minute that is
gone was rolled up. -/
structure Agrees (t : Tables) (p : Schedule) : Prop where
  covered : ∀ k, t.Recorded k ↔ k ∈ p.covered
  written : ∀ k ∈ t.minutes.keys, k ∈ p.written
  gone : ∀ k ∈ p.written, k ∈ t.minutes.keys ∨ hourKey k ∈ p.covered

theorem agrees_start : Agrees noRows ⟨[], []⟩ where
  covered k := by simp [noRows, Tables.Recorded]
  written k hk := by simp [noRows, Dict.mem_keys] at hk
  gone k hk := by simp at hk

theorem agrees_write (h : Agrees t p) (sid : Sid) (minute : Int) (row : MinuteRow) :
    Agrees (t.call (.write sid minute row)) (p.call (.write sid minute row)) where
  covered k := h.covered k
  written k hk := by
    rcases mem_keys_putRow.mp hk with hk | rfl
    · exact List.mem_append_left _ (h.written k hk)
    · simp [Schedule.call]
  gone k hk := by
    rcases List.mem_append.mp hk with hk | hk
    · rcases h.gone k hk with hk | hk
      · exact .inl (mem_keys_putRow.mpr (.inl hk))
      · exact .inr hk
    · exact .inl (mem_keys_putRow.mpr (.inr (List.mem_singleton.mp hk)))

theorem agrees_rollup (h : Agrees t p) (now : Int) :
    Agrees (t.call (.rollup now)) (p.call (.rollup now)) where
  covered k := by
    simp only [Tables.call, Schedule.call]
    rw [recorded_rollup, h.covered k, List.mem_append, List.mem_map]
    constructor
    · rintro (hk | ⟨m, hm, hcov, rfl⟩)
      · exact .inl hk
      · exact .inr ⟨m, List.mem_filter.mpr ⟨h.written m hm, hcov⟩, rfl⟩
    · rintro (hk | ⟨m, hm, rfl⟩)
      · exact .inl hk
      · obtain ⟨hm, hcov⟩ := List.mem_filter.mp hm
        rcases h.gone m hm with hkeys | hcovered
        · exact .inr ⟨m, hkeys, hcov, rfl⟩
        · exact .inl hcovered
  written := h.written
  gone k hk := by
    rcases h.gone k hk with hk | hk
    · exact .inl hk
    · exact .inr (List.mem_append_left _ hk)

/-- Where a prune loses nothing, and only there, the schedule was in time. -/
theorem lossless_iff_inTime (h : Agrees t p) (c : Call) : Lossless t c ↔ InTime p c := by
  cases c with
  | write sid minute row => exact Iff.rfl
  | rollup now => exact Iff.rfl
  | prune now =>
    constructor
    · intro hl k hk hf
      rcases h.gone k hk with hkeys | hcovered
      · exact (h.covered _).mp (hl k hkeys hf (hour_over hf))
      · exact hcovered
    · intro hi k hk hf _
      exact (h.covered _).mpr (hi k (h.written k hk) hf)

theorem agrees_prune (h : Agrees t p) (hi : InTime p (.prune now)) :
    Agrees (t.call (.prune now)) (p.call (.prune now)) where
  covered k := recorded_prune.trans (h.covered k)
  written k hk := h.written k (mem_keys_prune.mp hk).1
  gone k hk := by
    rcases h.gone k hk with hkeys | hcovered
    · cases hf : falls now k.2 with
      | false => exact .inl (mem_keys_prune.mpr ⟨hkeys, hf⟩)
      | true => exact .inr (hi k hk hf)
    · exact .inr hcovered

theorem agrees_call (h : Agrees t p) {c : Call} (hi : InTime p c) : Agrees (t.call c) (p.call c) := by
  cases c with
  | write sid minute row => exact agrees_write h sid minute row
  | rollup now => exact agrees_rollup h now
  | prune now => exact agrees_prune h hi

theorem lossless_run_iff (h : Agrees t p) (cs : List Call) :
    runs.Throughout Tables.call Lossless t cs ↔ runs.Throughout Schedule.call InTime p cs := by
  induction cs generalizing t p with
  | nil => exact Iff.rfl
  | cons c cs ih =>
    have hc := lossless_iff_inTime h c
    constructor
    · rintro ⟨hl, hrest⟩
      exact ⟨hc.mp hl, (ih (agrees_call h (hc.mp hl))).mp hrest⟩
    · rintro ⟨hi, hrest⟩
      exact ⟨hc.mpr hi, (ih (agrees_call h hi)).mpr hrest⟩

/-- A history loses no hour exactly when every minute has a rollup in one of
the six hours after its own. -/
theorem no_hour_lost_iff (es : List Event) :
    runs.Throughout Tables.call Lossless noRows (calls off es) ↔
      runs.Throughout Schedule.call InTime ⟨[], []⟩ (calls off es) :=
  lossless_run_iff agrees_start (calls off es)

instance decidableLossless (t : Tables) : (c : Call) → Decidable (Lossless t c)
  | .write .. => .isTrue trivial
  | .rollup _ => .isTrue trivial
  | .prune now => inferInstanceAs (Decidable (∀ k ∈ t.minutes.keys, falls now k.2 →
      hourOf k.2 + 3600 ≤ now → (t.hours.get (hourKey k)).isSome ∨ hourKey k ∈ t.expired))

def idle : MinuteRow := ⟨12, 3, fun _ => 1⟩

/-- A hub that is up for some minutes of the hour 1749999600, and again from
sixteen days later on. -/
def paused : List Event :=
  [.start, .tick 1749999900 false, .tick 1749999915 false, .write "s1" 1749999900 idle, .stop,
    .start, .tick 1751382300 false, .tick 1751382315 false]

theorem pause_loses_hour :
    ¬ runs.Throughout Tables.call Lossless noRows (calls off paused) := by
  decide +kernel

end icsd_panel.rollups

-- The live state of a server in the hub: the last sample, the ring of points,
-- and the minute that is being summed up for `samples_1m`.
import IcsdPanel.Alerts

open dicts

namespace icsd_panel.live

open alerts

/-! ## Samples -/

structure DiskStat where
  mount : String
  free : ℚ
  pct : ℚ
  inodesPct : ℚ
deriving DecidableEq, Repr

structure Container where
  name : String
  state : String
  health : String
  status : String
deriving DecidableEq, Repr

/-- The numbers of `FIELDS`, in their order. -/
inductive Field
  | cpu | iowait | steal | mem | swap | load1 | disk | rx | tx | rd | wr | tcp
deriving DecidableEq, Repr

abbrev Point := Field → ℚ

/-- The slow parts of a sample. What the agent left out is `none`. -/
structure Slow where
  disks : Option (List DiskStat)
  containers : Option (List Container)
  dockerErr : Option String
deriving DecidableEq, Repr

/-- A sample as `clean_sample` leaves it: the time in milliseconds, the numbers
of a point but for the disks, and the slow parts. -/
structure Sample where
  ts : Int
  fast : Point
  slow : Slow

/-- A sample as it comes: cleaned, with the keys of slow parts that it had. A
part that was no list is cleaned away. -/
structure Raw where
  sample : Sample
  hasDisks : Bool
  hasTop : Bool

/-- The fullest disk. -/
def diskPct (ds : List DiskStat) : ℚ :=
  match ds.map DiskStat.pct with
  | [] => 0
  | p :: ps => ps.foldl max p

/-- `point_of` -/
def pointOf (s : Sample) : Point := fun f =>
  if f = .disk then diskPct (s.slow.disks.getD []) else s.fast f

/-! ## State -/

def ringSize : Nat := 720

/-- What `Live` keeps of the samples of a server. -/
structure Live where
  lastTs : ℚ
  last : Option Sample
  ring : List (Int × Point)
  accMinute : Int
  acc : Point
  accCpuMax : ℚ
  accN : Nat
  seenWritten : ℚ

def Live.new : Live := ⟨0, none, [], 0, fun _ => 0, 0, 0, 0⟩

/-- A row of `samples_1m`. -/
structure MinuteRow where
  n : Nat
  cpuMax : ℚ
  avg : Point

abbrev Minutes := Dict (Sid × Int) MinuteRow

/-- Python's `round`, to an integer. -/
def roundEven (q : ℚ) : Int :=
  let f := q.floor
  if q - f < 1 / 2 then f
  else if 1 / 2 < q - f then f + 1
  else if f % 2 = 0 then f
  else f + 1

/-- Python's `round(q, 2)` -/
def round2 (q : ℚ) : ℚ := roundEven (q * 100) / 100

/-- SQLite's `ROUND(q, 2)` -/
def sqlRound2 (q : ℚ) : ℚ := if 0 ≤ q then (q * 100 + 1 / 2).floor / 100 else (q * 100 - 1 / 2).ceil / 100

/-- The row of a minute that is summed up. -/
def minuteRow (lv : Live) : MinuteRow :=
  ⟨lv.accN, round2 lv.accCpuMax, fun f => round2 (lv.acc f / lv.accN)⟩

/-- `ON CONFLICT … DO UPDATE`: the weighted average of two rows. -/
def mergeRow (old new : MinuteRow) : MinuteRow :=
  ⟨old.n + new.n, max old.cpuMax new.cpuMax, fun f =>
    sqlRound2 ((old.avg f * old.n + new.avg f * new.n) / (old.n + new.n))⟩

def putRow (t : Minutes) (k : Sid × Int) (r : MinuteRow) : Minutes :=
  match t.get k with
  | none => t.set k r
  | some old => t.set k (mergeRow old r)

/-- `flush` -/
def flush (sid : Sid) (lv : Live) (t : Minutes) : Live × Minutes :=
  if lv.accN = 0 then (lv, t)
  else ({ lv with acc := fun _ => 0, accCpuMax := 0, accN := 0 },
    putRow t (sid, lv.accMinute) (minuteRow lv))

def minuteOf (ts : Int) : Int := ts - ts % 60

/-- `_accumulate` after its flush. -/
def addPoint (minute : Int) (p : Point) (lv : Live) : Live :=
  { lv with
    accMinute := if lv.accN = 0 then minute else lv.accMinute
    acc := fun f => lv.acc f + p f
    accCpuMax := max lv.accCpuMax (p .cpu)
    accN := lv.accN + 1 }

/-- `_accumulate` -/
def accumulate (sid : Sid) (ts : Int) (p : Point) (lv : Live) (t : Minutes) : Live × Minutes :=
  if lv.accN ≠ 0 ∧ minuteOf ts ≠ lv.accMinute then
    let (lv, t) := flush sid lv t
    (addPoint (minuteOf ts) p lv, t)
  else (addPoint (minuteOf ts) p lv, t)

/-- The time of a sample, in seconds: the agent's, unless its clock is off. -/
def sampleTime (ts : Int) (now : ℚ) : ℚ :=
  let t : ℚ := if ts = 0 then now else ts / 1000
  if now + 60 < t ∨ t < now - 900 then now else t

/-- The slow parts of a sample: between refreshes the previous ones. -/
def mergeSlow (last : Option Sample) (raw : Raw) : Slow :=
  if raw.hasDisks || raw.hasTop then raw.sample.slow
  else match last with
    | none => raw.sample.slow
    | some l =>
      { disks := l.slow.disks.or raw.sample.slow.disks
        containers := l.slow.containers.or raw.sample.slow.containers
        dockerErr := l.slow.dockerErr.or raw.sample.slow.dockerErr }

/-- A `deque` with `maxlen`. -/
def pushRing (ring : List (Int × Point)) (x : Int × Point) : List (Int × Point) :=
  (ring ++ [x]).drop (ring.length + 1 - ringSize)

/-- `ingest`, and whether `last_seen` of the server is written. -/
def ingest (sid : Sid) (raw : Raw) (now : ℚ) (lv : Live) (t : Minutes) :
    Sample × Live × Minutes × Bool :=
  let ts := sampleTime raw.sample.ts now
  let s : Sample := ⟨truncate (ts * 1000), raw.sample.fast, mergeSlow lv.last raw⟩
  let p := pointOf s
  let lv := { lv with last := some s, lastTs := now, ring := pushRing lv.ring (truncate ts, p) }
  let (lv, t) := accumulate sid (truncate ts) p lv t
  if 60 < now - lv.seenWritten then (s, { lv with seenWritten := now }, t, true)
  else (s, lv, t, false)

end icsd_panel.live

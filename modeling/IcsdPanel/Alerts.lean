-- The alert rules of the hub: for each rule, server and subject a small state
-- in memory, and a row for each event in the database.
import IcsdPanel.Dicts
import IcsdPanel.Tables
import Mathlib.Data.Rat.Floor

open dicts

namespace icsd_panel.alerts

/-! ## Rules -/

inductive Severity
  | warning
  | critical
deriving DecidableEq, Repr

inductive Kind
  | offline | cpu | mem | disk | disk_full | inodes | load | steal | container | check | cert | backup
deriving DecidableEq, Repr

instance lawfulBEqSeen : LawfulBEq (Kind × String) := inferInstance

/-- The columns of `DEFAULT_RULES`. -/
structure Default where
  threshold : ℚ
  forS : Int
  severity : Severity
  label : String
  unit : String

def Kind.default : Kind → Default
  | .offline => ⟨120, 0, .critical, "سرور در دسترس نیست", "ثانیه بی‌خبری"⟩
  | .cpu => ⟨90, 600, .warning, "مصرف پردازنده بالا", "٪"⟩
  | .mem => ⟨90, 300, .warning, "حافظه رو به اتمام", "٪"⟩
  | .disk => ⟨85, 0, .warning, "دیسک رو به پر شدن", "٪"⟩
  | .disk_full => ⟨95, 0, .critical, "دیسک تقریباً پر", "٪"⟩
  | .inodes => ⟨90, 0, .warning, "inode رو به اتمام", "٪"⟩
  | .load => ⟨2, 600, .warning, "بار سیستم بالا", "به ازای هر هسته"⟩
  | .steal => ⟨20, 600, .warning, "CPU steal بالا (همسایه‌های VPS)", "٪"⟩
  | .container => ⟨0, 60, .critical, "کانتینر از کار افتاده", ""⟩
  | .check => ⟨2, 0, .critical, "آدرس پاسخ نمی‌دهد", "شکستِ پیاپی"⟩
  | .cert => ⟨14, 0, .warning, "گواهی SSL نزدیک انقضا", "روز"⟩
  | .backup => ⟨1, 0, .critical, "بک‌آپ ناموفق", ""⟩

structure Rule where
  threshold : ℚ
  forS : Int
  severity : Severity
  enabled : Bool
deriving DecidableEq, Repr

/-- The rule that `seed` puts in the table where none is. -/
def Kind.seeded (k : Kind) : Rule := ⟨k.default.threshold, k.default.forS, k.default.severity, true⟩

/-! ## State -/

abbrev Sid := String

structure Key where
  rule : Kind
  serverId : Sid
  subject : String
deriving DecidableEq, Repr

/-- A row of `events`. -/
structure Event where
  id : Nat
  key : Key
  severity : Severity
  value : ℚ
  message : String
  started : Int
  ended : Option Int
deriving DecidableEq, Repr

/-- A value of `_state`. -/
structure Entry where
  since : ℚ
  event : Option Nat
  value : ℚ
  message : Option String
deriving DecidableEq, Repr

/-- What a message to the operator is made of. Of how long an alert `lasted` it says the
`duration`. -/
inductive Note
  | alert (key : Key) (severity : Severity) (label server message : String) (time : ℚ)
  | resolved (key : Key) (label server message : String) (lasted : ℚ)
deriving DecidableEq, Repr

def Note.key : Note → Key
  | .alert k _ _ _ _ _ => k
  | .resolved k _ _ _ _ => k

/-- The state of the module, the tables `rules` and `events`, and the messages
sent so far. -/
structure Alerts where
  rules : Kind → Option Rule
  state : Dict Key Entry
  table : Kind → Option Rule
  events : List Event
  sent : List Note

/-- An empty database, and a hub that did not start yet. -/
def Alerts.empty : Alerts := ⟨fun _ => none, .empty, fun _ => none, [], []⟩

/-- What a call finds around it: the time, and the names of the servers. -/
structure Ctx where
  time : ℚ
  name : Sid → Option String

/-- Python's `int` of a number. -/
def truncate (q : ℚ) : Int := if 0 ≤ q then q.floor else q.ceil

/-- `int(seconds // 60)` -/
def minutesOf (seconds : ℚ) : Int := (seconds / 60).floor

/-- The text of a number of minutes. -/
def inMinutes (m : Int) : String :=
  if m < 1 then "کمتر از یک دقیقه"
  else if m < 60 then toString m ++ " دقیقه"
  else if m % 60 = 0 then toString (m / 60) ++ " ساعت"
  else toString (m / 60) ++ " ساعت و " ++ toString (m % 60) ++ " دقیقه"

/-- `_duration` -/
def duration (seconds : ℚ) : String := inMinutes (minutesOf seconds)

/-- `now or time.time()` -/
def orTime (now : Option ℚ) (time : ℚ) : ℚ :=
  match now with
  | some t => if t = 0 then time else t
  | none => time

/-- The id that SQLite gives a new row. -/
def nextId (es : List Event) : Nat := tables.newId Event.id es

/-- `_server_name` -/
def serverName (c : Ctx) (sid : Sid) : String :=
  if sid = "" then "پایش آدرس‌ها" else (c.name sid).getD sid

/-- `UPDATE events SET ended=? WHERE id=?` -/
def endEvent (es : List Event) (id : Nat) (at_ : Int) : List Event :=
  es.map fun e => if e.id = id then { e with ended := some at_ } else e

/-- `SELECT message FROM events WHERE id=?` -/
def messageOf (es : List Event) (id : Nat) : String :=
  ((es.find? fun e => e.id = id).map Event.message).getD ""

/-! ## The state machine -/

/-- A call of `step`. -/
structure Call where
  key : Key
  bad : Bool
  value : ℚ
  message : String
  now : Option ℚ
  quiet : Bool

/-- `step` for a key that is bad, under its enabled rule. -/
def worsen (r : Rule) (c : Ctx) (i : Call) (a : Alerts) : Alerts :=
  let t := orTime i.now c.time
  let st : Entry := { (a.state.get i.key).getD ⟨t, none, i.value, none⟩ with value := i.value }
  if st.event = none ∧ (r.forS : ℚ) ≤ t - st.since then
    let id := nextId a.events
    { a with
      events := a.events ++ [⟨id, i.key, r.severity, i.value, i.message, truncate st.since, none⟩]
      state := a.state.set i.key { st with event := some id, message := some i.message }
      sent := a.sent ++ [.alert i.key r.severity i.key.rule.default.label
        (serverName c i.key.serverId) i.message t] }
  else { a with state := a.state.set i.key st }

/-- `st.get("message") or …` -/
def textOf (es : List Event) (id : Nat) (st : Entry) : String :=
  match st.message with
  | some m => if m = "" then messageOf es id else m
  | none => messageOf es id

/-- `step` for a key that is good. -/
def improve (c : Ctx) (i : Call) (a : Alerts) : Alerts :=
  let t := orTime i.now c.time
  match a.state.get i.key with
  | none => a
  | some st =>
    match st.event with
    | none => { a with state := a.state.erase i.key }
    | some id =>
      { a with
        events := endEvent a.events id (truncate t)
        state := a.state.erase i.key
        sent := if i.quiet then a.sent else a.sent ++ [.resolved i.key i.key.rule.default.label
          (serverName c i.key.serverId) (textOf a.events id st) (t - st.since)] }

/-- `step` -/
def step (c : Ctx) (i : Call) (a : Alerts) : Alerts :=
  match a.rules i.key.rule with
  | some r => if r.enabled && i.bad then worsen r c i a else improve c i a
  | none => improve c i a

/-- The call that closes what is no longer there. -/
def gone (k : Key) (now : Option ℚ) (quiet : Bool) : Call := ⟨k, false, 0, "", now, quiet⟩

/-- A call of `step` with `bad=False` for each of some keys. -/
def stepAll (c : Ctx) (now : Option ℚ) (quiet : Bool) (ks : List Key) (a : Alerts) : Alerts :=
  ks.foldl (fun a k => step c (gone k now quiet) a) a

/-- `settle` -/
def settle (c : Ctx) (kinds : List Kind) (sid : Sid) (seen : List (Kind × String)) (now : ℚ)
    (a : Alerts) : Alerts :=
  stepAll c (some now) false (a.state.keys.filter fun k =>
    k.rule ∈ kinds ∧ k.serverId = sid ∧ (k.rule, k.subject) ∉ seen) a

/-- `forget_subject` -/
def forgetSubject (c : Ctx) (kind : Kind) (subject : String) (a : Alerts) : Alerts :=
  stepAll c none true (a.state.keys.filter fun k => k.rule = kind ∧ k.subject = subject) a

/-- `forget_server` -/
def forgetServer (c : Ctx) (sid : Sid) (a : Alerts) : Alerts :=
  { a with
    events := a.events.map fun e =>
      if e.key.serverId = sid ∧ e.ended = none then { e with ended := some (truncate c.time) } else e
    state := (a.state.keys.filter fun k => k.serverId = sid).foldl Dict.erase a.state }

/-! ## Start and settings -/

/-- `reload` -/
def reload (a : Alerts) : Alerts := { a with rules := a.table }

/-- The state that `seed` makes of the open rows. -/
def reopened (es : List Event) : Dict Key Entry :=
  (es.filter fun e => e.ended = none).foldl
    (fun s e => s.set e.key ⟨e.started, some e.id, e.value, none⟩) .empty

/-- `seed` -/
def seed (a : Alerts) : Alerts :=
  let a := reload { a with table := fun k => some ((a.table k).getD k.seeded) }
  { a with state := reopened a.events }

/-- `update_rule` of a known kind and severity. -/
def updateRule (kind : Kind) (threshold : ℚ) (forS : Int) (severity : Severity) (enabled : Bool)
    (a : Alerts) : Alerts :=
  let new : Rule := ⟨threshold, max 0 (min forS 86400), severity, enabled⟩
  reload { a with table := fun k => if k = kind then (a.table k).map fun _ => new else a.table k }

/-- `metrics.prune`, as far as it is about events. -/
def prune (now : Int) (keepDays : Int) (a : Alerts) : Alerts :=
  let kept (e : Event) : Bool :=
    match e.ended with
    | some t => ¬ t < now - keepDays * 86400
    | none => true
  { a with events := a.events.filter kept }

/-- `is_open` -/
def isOpen (a : Alerts) (k : Key) : Bool :=
  match a.state.get k with
  | some st => st.event.isSome
  | none => false

/-- `threshold` -/
def threshold (a : Alerts) (k : Kind) : ℚ :=
  match a.rules k with
  | some r => r.threshold
  | none => k.default.threshold

end icsd_panel.alerts

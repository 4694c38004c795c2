-- What the samples, the silence of an agent and the URL checks make of the
-- alerts: each evaluator as the calls of `step` and `settle` that it makes.
import IcsdPanel.Live

open dicts

namespace icsd_panel.evaluators

open alerts live

/-! ## Numbers in messages -/

/-- Python's `f"{v:.0f}"`, and with one digit after the point. -/
def fixed (v : ℚ) (tenth : Bool) : String :=
  let n := (roundEven ((if v < 0 then -v else v) * if tenth then 10 else 1)).toNat
  let sign := if v < 0 then "-" else ""
  if tenth then sign ++ toString (n / 10) ++ "." ++ toString (n % 10) else sign ++ toString n

/-- Python's `f"{v:.2f}"` -/
def fixed2 (v : ℚ) : String :=
  let n := (roundEven ((if v < 0 then -v else v) * 100)).toNat
  (if v < 0 then "-" else "") ++ toString (n / 100) ++ "." ++ toString (n % 100 / 10) ++
    toString (n % 10)

/-- `_fa` -/
def fa (v : ℚ) : String := fixed v false

/-- `_iso` -/
def iso (text : String) : String := "\u2066" ++ text ++ "\u2069"

/-- `_size` -/
def sizeText (n : ℚ) : String :=
  let shown (n : ℚ) (unit : String) := fixed n (!(unit = "B" || unit = "KB" || 10 ≤ n)) ++ " " ++ unit
  let small (n : ℚ) : Bool := (if n < 0 then -n else n) < 1024
  if small n then shown n "B"
  else if small (n / 1024) then shown (n / 1024) "KB"
  else if small (n / 1024 / 1024) then shown (n / 1024 / 1024) "MB"
  else if small (n / 1024 / 1024 / 1024) then shown (n / 1024 / 1024 / 1024) "GB"
  else shown (n / 1024 / 1024 / 1024 / 1024) "TB"

/-! ## Evaluators -/

/-- What an evaluator does to the alerts. -/
inductive Act
  | step (i : Call)
  | settle (kinds : List Kind) (sid : Sid) (seen : List (Kind × String)) (now : ℚ)

def Act.run (c : Ctx) : Act → Alerts → Alerts
  | .step i => alerts.step c i
  | .settle kinds sid seen now => alerts.settle c kinds sid seen now

def runActs (c : Ctx) (acts : List Act) (a : Alerts) : Alerts := acts.foldl (fun a x => x.run c a) a

/-- The calls before the first that raises. -/
def untilRaise {α : Type} : List (Option α) → List α
  | some x :: xs => x :: untilRaise xs
  | _ => []

/-- `chk`: a value against the threshold of its rule. -/
def chk (rules : Kind → Option Rule) (sid : Sid) (now : ℚ) (kind : Kind) (subject : String)
    (value : ℚ) (message : String) : Act :=
  let bad := match rules kind with
    | some r => decide (r.threshold ≤ value)
    | none => false
  .step ⟨⟨kind, sid, subject⟩, bad, value, message, some now, false⟩

/-- Whether a container is broken. -/
def broken (c : Container) : Bool :=
  c.state = "restarting" || c.state = "dead" || c.health = "unhealthy" ||
    (c.state = "exited" && !("Exited (0)".toList.isPrefixOf c.status.toList))

def diskActs (rules : Kind → Option Rule) (sid : Sid) (now : ℚ) (d : DiskStat) : List Act :=
  let text := "دیسک " ++ iso d.mount ++ ": " ++ fa d.pct ++ "٪ پر — " ++ iso (sizeText d.free) ++ " آزاد"
  [chk rules sid now .disk d.mount d.pct text, chk rules sid now .disk_full d.mount d.pct text,
    chk rules sid now .inodes d.mount d.inodesPct
      ("دیسک " ++ iso d.mount ++ ": inode " ++ fa d.inodesPct ++ "٪")]

def containerAct (sid : Sid) (now : ℚ) (c : Container) : Act :=
  .step ⟨⟨.container, sid, c.name⟩, broken c, 0,
    "کانتینر " ++ iso c.name ++ ": " ++ iso (if c.status = "" then c.state else c.status), some now, false⟩

/-- The rules and subjects that a sample shows. -/
def seenIn (s : Sample) : List (Kind × String) :=
  [(.cpu, ""), (.mem, ""), (.load, ""), (.steal, "")] ++
    (s.slow.disks.getD []).flatMap fun d =>
      [(Kind.disk, d.mount), (Kind.disk_full, d.mount), (Kind.inodes, d.mount)]

/-- `evaluate_sample`. Without a rule for `cpu` or `mem` it raises where it
reads the threshold. -/
def evaluateSample (rules : Kind → Option Rule) (sid : Sid) (s : Sample) (cpus : Int) (now : ℚ) :
    List Act :=
  let cpu := s.fast .cpu
  let mem := s.fast .mem
  let perCore := s.fast .load1 / max cpus 1
  let seen := seenIn s
  let numbers : List (Option Act) :=
    [(rules .cpu).map fun r => chk rules sid now .cpu "" cpu
        ("پردازنده " ++ fa cpu ++ "٪ — آستانه " ++ fa r.threshold ++ "٪"),
      (rules .mem).map fun r => chk rules sid now .mem "" mem
        ("حافظه " ++ fa mem ++ "٪ — آستانه " ++ fa r.threshold ++ "٪"),
      some (chk rules sid now .load "" perCore ("بار " ++ fixed2 (s.fast .load1) ++ " روی " ++
        toString cpus ++ " هسته (" ++ fixed2 perCore ++ " برای هر هسته)")),
      some (chk rules sid now .steal "" (s.fast .steal)
        ("steal " ++ fa (s.fast .steal) ++ "٪ — ارائه‌دهندهٔ VPS به سرور CPU کافی نمی‌دهد"))]
  let disks := ((s.slow.disks.getD []).flatMap (diskActs rules sid now)).map some
  -- A list of containers that Docker could not give resolves nothing.
  let (containers, seen) := match s.slow.containers, s.slow.dockerErr with
    | some cs, none =>
      let seen := seen ++ cs.map fun (c : Container) => (Kind.container, c.name)
      (cs.map (containerAct sid now) ++ [Act.settle [.container] sid seen now], seen)
    | _, _ => ([], seen)
  let rest := [Act.settle [.cpu, .mem, .load, .steal] sid seen now] ++
    if s.slow.disks.isSome then [Act.settle [.disk, .disk_full, .inodes] sid seen now] else []
  untilRaise (numbers ++ disks ++ (containers ++ rest).map some)

/-- What `evaluate_offline` reads of an enrolled server that was seen once. -/
structure Silent where
  id : Sid
  lastSeen : ℚ
  live : Option (ℚ × Bool)

def startupGrace : ℚ := 90

/-- `evaluate_offline`, in a process that started at `started`. -/
def evaluateOffline (rules : Kind → Option Rule) (started now : ℚ) (servers : List Silent) : List Act :=
  if now - started < startupGrace then []
  else servers.map fun s =>
    let silent := now - max s.lastSeen ((s.live.map Prod.fst).getD 0)
    let bad := match rules .offline with
      | some r => decide (r.threshold ≤ silent) && !(s.live.any Prod.snd)
      | none => false
    .step ⟨⟨.offline, s.id, ""⟩, bad, silent,
      "هیچ گزارشی از agent نرسیده؛ سرور خاموش است، شبکه‌اش قطع است یا agent متوقف شده.", some now, false⟩

def thresholdOr (rules : Kind → Option Rule) (kind : Kind) (other : ℚ) : ℚ :=
  match rules kind with
  | some r => r.threshold
  | none => other

/-- `evaluate_check` -/
def evaluateCheck (rules : Kind → Option Rule) (subject name url : String) (fails : Int) (error : String)
    (certDays : Option ℚ) (now : Option ℚ) : List Act :=
  .step ⟨⟨.check, "", subject⟩, decide (thresholdOr rules .check 2 ≤ fails), fails,
      name ++ " (" ++ iso url ++ ")\n" ++ error, now, false⟩ ::
    match certDays with
    | none => []
    | some days =>
      [.step ⟨⟨.cert, "", subject⟩, decide (days ≤ thresholdOr rules .cert 14), days,
        name ++ ": گواهی " ++ toString (truncate days) ++ " روز دیگر منقضی می‌شود", now, false⟩]

/-- What `_alert_certs` reads of a certificate: its subject, its end, and what it names. -/
structure Expiry where
  subject : String
  notAfter : ℚ
  domains : List String
  source : String

/-- One turn of the loop of `_alert_certs` -/
def certAct (rules : Kind → Option Rule) (sid : Sid) (now : ℚ) (x : Expiry) : Act :=
  let days := (x.notAfter - now) / 86400
  let text := "گواهی " ++ ", ".intercalate (x.domains.take 3) ++ " — " ++ toString (truncate days) ++
    " روز مانده (" ++ x.source ++ ")"
  .step ⟨⟨.cert, sid, x.subject⟩, decide (days ≤ thresholdOr rules .cert Kind.cert.default.threshold),
    roundEven (days * 10) / 10, text, some now, false⟩

/-- `_alert_certs` -/
def alertCerts (rules : Kind → Option Rule) (sid : Sid) (now : ℚ) (certs : List Expiry) : List Act :=
  certs.map (certAct rules sid now) ++
    [.settle [.cert] sid (certs.map fun x => (Kind.cert, x.subject)) now]

end icsd_panel.evaluators

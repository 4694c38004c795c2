-- The commands that the agent runs for a request, and the services that its
-- policy lets the panel touch.
import IcsdPanel.Jsons
import IcsdPanel.Lines
import IcsdPanel.Policy

open jsons

namespace icsd_panel.handlers

open policy

/-! ## Commands -/

/-- How a command went: what `limited` kept of its output, whether its time was
over, and why it failed. -/
structure Exec where
  output : String
  timedOut : Bool
  failed : Option String

/-- `lastLines` -/
def lastLines (s : String) (n : Nat) : String := String.ofList (lines.lastOf '\n' n (trimSpace s).toList)

/-- `strings.TrimRight(s, "\n")` -/
def trimNewlines (s : String) : String := String.ofList (lines.trimRight '\n' s.toList)

/-- What `run` gives, the output and the error: the strings of Go are texts here, and
bytes where they are sent. -/
def outcome {τ : Type} [DecidableEq τ] (lastLines : τ → Nat → τ) (empty slow out : τ) (timedOut : Bool)
    (failed : Option τ) : τ × Option τ :=
  if timedOut then (out, some slow)
  else (out, failed.map fun err => if out = empty then err else lastLines out 6)

/-- `run` -/
def run (timeout : String) (x : Exec) : String × Option String :=
  outcome lastLines "" ("زمان اجرا تمام شد (" ++ timeout ++ ")") (trimNewlines x.output) x.timedOut x.failed

/-- The last lines of a text that is not blank are not empty. -/
theorem lastLines_eq_empty {s : String} {n : Nat} (hn : 2 ≤ n) : lastLines s n = "" ↔ trimSpace s = "" := by
  unfold lastLines
  rw [String.ofList_eq_empty_iff, lines.lastOf_eq_nil hn, String.toList_eq_nil_iff]

/-- A command fails without a text exactly when it printed blanks, but not only
newlines. -/
theorem run_no_text {timeout : String} {x : Exec} {err : String} (ht : x.timedOut = false)
    (hf : x.failed = some err) (herr : err ≠ "") :
    (run timeout x).2 = some "" ↔ trimNewlines x.output ≠ "" ∧ trimSpace (trimNewlines x.output) = "" := by
  unfold run outcome
  simp only [ht, hf, Bool.false_eq_true, if_false, Option.map_some]
  by_cases hout : trimNewlines x.output = ""
  · simp [hout, herr]
  · simp [hout, lastLines_eq_empty]

/-! ## Patterns of names -/

/-- A term of a pattern of `path.Match`. -/
inductive Term
  | star
  | any
  | char (c : Char)
  | set (negated : Bool) (ranges : List (Char × Char))

/-- `getEsc`: a character of a range, and the pattern after it, which may not
be empty. -/
def getEsc : List Char → Option (Char × List Char)
  | '\\' :: c :: d :: cs => some (c, d :: cs)
  | c :: d :: cs => if c = '-' ∨ c = ']' ∨ c = '\\' then none else some (c, d :: cs)
  | _ => none

/-- The ranges of a set up to its bracket. The fuel is the length of the pattern. -/
def parseSet : Nat → List (Char × Char) → List Char → Option (List (Char × Char) × List Char)
  | 0, _, _ => none
  | fuel + 1, acc, cs =>
    if cs.head? = some ']' ∧ acc ≠ [] then some (acc.reverse, cs.tail)
    else match getEsc cs with
      | none => none
      | some (lo, '-' :: rest) =>
        match getEsc rest with
        | none => none
        | some (hi, rest) => parseSet fuel ((lo, hi) :: acc) rest
      | some (lo, rest) => parseSet fuel ((lo, lo) :: acc) rest

def parsePattern : Nat → List Char → Option (List Term)
  | _, [] => some []
  | 0, _ :: _ => none
  | fuel + 1, '*' :: cs => (parsePattern fuel cs).map (.star :: ·)
  | fuel + 1, '?' :: cs => (parsePattern fuel cs).map (.any :: ·)
  | _ + 1, ['\\'] => none
  | fuel + 1, '\\' :: c :: cs => (parsePattern fuel cs).map (.char c :: ·)
  | fuel + 1, '[' :: cs =>
    let negated := cs.head? = some '^'
    match parseSet cs.length [] (if negated then cs.tail else cs) with
    | none => none
    | some (ranges, rest) => (parsePattern fuel rest).map (.set negated ranges :: ·)
  | fuel + 1, c :: cs => (parsePattern fuel cs).map (.char c :: ·)

/-- What is left of a name behind a star, which matches no slash. -/
def starTails : List Char → List (List Char)
  | [] => [[]]
  | c :: cs => (c :: cs) :: if c = '/' then [] else starTails cs

def matchTerms : List Term → List Char → Bool
  | [], s => s.isEmpty
  | .star :: ts, s => (starTails s).any (matchTerms ts)
  | .any :: ts, c :: cs => c ≠ '/' && matchTerms ts cs
  | .char x :: ts, c :: cs => x = c && matchTerms ts cs
  | .set negated ranges :: ts, c :: cs =>
    (ranges.any (fun r => r.1 ≤ c && c ≤ r.2) != negated) && matchTerms ts cs
  | _ :: _, [] => false

/-- `path.Match`: false for a bad pattern. -/
def pathMatch (pattern name : String) : Bool :=
  match parsePattern pattern.toList.length pattern.toList with
  | some ts => matchTerms ts name.toList
  | none => false

/-! ## Services -/

/-- The lists of the policy file that are about services. -/
structure Services where
  services : List String
  denySvc : List String

def trimSuffix (s suffix : String) : String :=
  if suffix.toList.isSuffixOf s.toList then String.ofList (s.toList.take (s.length - suffix.length)) else s

/-- `ServiceAllowed` -/
def serviceAllowed (p : Services) (unit : String) : Bool :=
  let name := trimSuffix unit ".service"
  if name = "" || name.toList.any (fun c => c = '/' || c = ' ') then false
  else if p.denySvc.any fun d => pathMatch d name then false
  else p.services.any fun a => pathMatch a name

/-- `unitName` -/
def unitName (s : String) : Bool :=
  0 < s.length && s.length ≤ 128 && s.toList.all fun c =>
    ('A' ≤ c && c ≤ 'Z') || ('a' ≤ c && c ≤ 'z') || ('0' ≤ c && c ≤ '9') || c ∈ ['@', '.', '_', '-']

/-! ## Handlers -/

/-- A value for the panel, when it can be written as JSON. -/
abbrev Value := Option Json

/-- What becomes of a call of a handler: the value and the error, or a panic. -/
inductive Outcome
  | returned (d : Option Value) (err : Option String)
  | panicked (p : String)

abbrev Handler := String → Outcome

structure SvcArgs where
  name : String
  action : String

/-- `svcAction`, with the fields that `decode` finds in its arguments and the
way that each command goes. -/
def svcAction (p : Services) (decode : String → Except String SvcArgs) (exec : List String → Exec) :
    Handler := fun args =>
  match decode args with
  | .error e => .returned none (some ("ورودی نامعتبر: " ++ e))
  | .ok i =>
    if i.action ∉ ["start", "stop", "restart", "reload", "enable", "disable"] then
      .returned none (some "کار نامعتبر")
    else if !unitName i.name || !serviceAllowed p i.name then
      .returned none (some "این سرویس در فهرست مجاز این سرور نیست")
    else match (run "1m30s" (exec ["systemctl", i.action, i.name ++ ".service"])).2 with
      | some err => .returned none (some err)
      | none =>
        let st := (run "10s" (exec ["systemctl", "is-active", i.name ++ ".service"])).1
        .returned (some (some (.obj [("active", .str (trimSpace st)), ("name", .str i.name)]))) none

/-- The table of `handlers`; nil for an agent that only monitors. -/
abbrev Runner := Option (String → Option Handler)

/-- `Handle` -/
def handle (r : Runner) (op args : String) : Outcome :=
  match r with
  | none => .returned none (some ("این سرور در حالت «فقط مانیتورینگ» است؛ برای مدیریت، agent را " ++
      "با --upgrade دوباره نصب کنید"))
  | some handlers =>
    match handlers op with
    | none => .returned none (some ("عملیات ناشناخته: " ++ op))
    | some h => h (if args = "" then "\x7b\x7d" else args)

end icsd_panel.handlers

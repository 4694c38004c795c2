-- What the agent answers to the requests that may bring much: files, lists,
-- logs and what commands print. A handler returns a value or the text of its
-- error, and both go to the panel as JSON.
import IcsdPanel.Archives
import IcsdPanel.Replies
import IcsdPanel.Values

open jsons unicode effects

namespace icsd_panel.answers

open paths disk machine policy files archives

/-! ## Strings of bytes -/

/-- `strings.TrimRight(s, "\n")` -/
def trimNewlines (s : Bytes) : Bytes := lines.trimRight newline s

/-- `strings.Split(s, "\n")` -/
def splitLines (s : Bytes) : List Bytes := s.splitOn newline

/-- The string without the spaces that it starts with. The fuel is its length. -/
def dropSpaces : Nat → Bytes → Bytes
  | 0, s => s
  | k + 1, s =>
    match decodeRune s with
    | some c => if isSpace c then dropSpaces k (s.drop c.utf8Size) else s
    | none => s

/-- `utf8.DecodeLastRune` -/
def decodeLastRune (s : Bytes) : Option Char :=
  [1, 2, 3, 4].findSome? fun k =>
    if s.length < k then none
    else (decodeRune (s.drop (s.length - k))).filter fun c => c.utf8Size = k

def dropLastSpaces : Nat → Bytes → Bytes
  | 0, s => s
  | k + 1, s =>
    match decodeLastRune s with
    | some c => if isSpace c then dropLastSpaces k (s.take (s.length - c.utf8Size)) else s
    | none => s

/-- `strings.TrimSpace` -/
def trimSpace (s : Bytes) : Bytes :=
  let t := dropSpaces s.length s
  dropLastSpaces t.length t

/-- `lastLines` -/
def lastLines (s : Bytes) (n : Nat) : Bytes := lines.lastOf newline n (trimSpace s)

/-! ## Commands -/

inductive Ended
  | well
  | exited (code : Int) (err : Bytes)
  | failed (err : Bytes)

/-- How a command went: what it wrote, call by call, whether its time was over,
and how it ended. -/
structure Ran where
  writes : List Bytes
  timedOut : Bool
  ended : Ended

/-- What a `limited` writer with `n` bytes left keeps of the writes. -/
def limited : Nat → List Bytes → Bytes
  | _, [] => []
  | n, p :: ps => p.take n ++ limited (n - p.length) ps

/-- The text of the error of a command. -/
def Ended.error : Ended → Option Bytes
  | .well => none
  | .exited _ err | .failed err => some err

/-- `run` -/
def run (timeout : String) (x : Ran) : Bytes × Option Bytes :=
  handlers.outcome lastLines [] (utf8 ("زمان اجرا تمام شد (" ++ timeout ++ ")"))
    (trimNewlines (limited (2 ^ 20) x.writes)) x.timedOut x.ended.error

/-! ## The server -/

/-- What the disk leaves out: the bytes of a name, which need not be UTF-8, and
their lower case; the size and the time of what is no file; whose a link is,
and where it points; the names of the owners; and how an error of the system
reads. -/
structure Details where
  name : Name → Bytes
  toLower : Bytes → Bytes
  size : Loc → Int
  mtime : Loc → Int
  linkUid : Loc → Nat
  owner : Nat → Bytes
  readlink : Loc → Bytes
  osError : Errno → Bytes

structure ExecArgs where
  cmd : String
  cwd : String
  timeout : Int

/-- The server as the agent finds it at a request. A command takes its
arguments, and bash tells how long it ran; the socket of Docker gives a status
and a body for a URL, or an error. -/
structure Server where
  pol : Policy
  services : handlers.Services
  console : Bool
  env : Env
  world : World
  details : Details
  exec : List String → Ran
  bash : ExecArgs → Ran × Int
  docker : Option (String → Except Bytes (Int × Bytes))

/-- A value, or the text of an error. -/
abbrev Answer := Except Bytes Datum

def GoError.text (s : Details) : GoError → Bytes
  | .os e => s.osError e
  | .text t => utf8 t

/-- What a procedure gives on the server. -/
def Server.sys {α : Type} (s : Server) (x : Sys α) : Except Bytes α :=
  (x s.env s.world).1.mapError (GoError.text s.details)

/-- `decode`, of arguments that `json.Unmarshal` could read or not. -/
def decode {α : Type} (args : Except Bytes α) : Except Bytes α :=
  args.mapError (utf8 "ورودی نامعتبر: " ++ ·)

/-- An `int64` as JSON. -/
def int64 (n : Int) : Datum := .num (toString (wrap64 n))

/-! ## Files -/

/-- A character of `base64.StdEncoding`, for the last six bits. -/
def base64Char (n : Nat) : Char :=
  let k := n % 64
  if k < 26 then Char.ofNat ('A'.toNat + k)
  else if k < 52 then Char.ofNat ('a'.toNat + (k - 26))
  else if k < 62 then Char.ofNat ('0'.toNat + (k - 52))
  else if k = 62 then '+'
  else '/'

/-- `base64.StdEncoding.EncodeToString` -/
def base64 : Bytes → List Char
  | [] => []
  | [a] => [base64Char (a.toNat / 4), base64Char (a.toNat * 16), '=', '=']
  | [a, b] =>
    [base64Char (a.toNat / 4), base64Char (a.toNat * 16 + b.toNat / 16), base64Char (b.toNat * 4), '=']
  | a :: b :: c :: rest =>
    base64Char (a.toNat / 4) :: base64Char (a.toNat * 16 + b.toNat / 16) ::
      base64Char (b.toNat * 4 + c.toNat / 64) :: base64Char c.toNat :: base64 rest

def readDatum (r : ReadReply) : Datum :=
  .obj [("data", .text (String.ofList (base64 r.data))), ("eof", .bool r.eof), ("mtime", int64 r.mtime),
    ("size", int64 r.size)]

def Server.chunk (s : Server) (args : Except Bytes ReadArgs) : Except Bytes ReadReply := do
  let i ← decode args
  s.sys (files.fsRead s.pol i)

def Server.fsRead (s : Server) (args : Except Bytes ReadArgs) : Answer := (s.chunk args).map readDatum

/-- The size of what is tailed. -/
def Server.tailSize (s : Server) (i : TailArgs) : Int :=
  match check s.pol s.world.disk i.path false with
  | .error _ => 0
  | .ok real =>
    match stat s.world.disk real with
    | .ok (_, .file f) => f.content.length
    | .ok (l, _) => s.details.size l
    | .error _ => 0

def linesDatum (lines : List Bytes) : Datum := .arr (lines.map .str)

/-- The lines that `tailFile` keeps, and the size of the file. -/
def Server.tail (s : Server) (args : Except Bytes TailArgs) : Except Bytes (List Bytes × Int) := do
  let i ← decode args
  let (lines, _) ← s.sys (files.fsTail s.pol i)
  pure (lines, s.tailSize i)

def tailDatum (r : List Bytes × Int) : Datum := .obj [("lines", linesDatum r.1), ("size", int64 r.2)]

def Server.fsTail (s : Server) (args : Except Bytes TailArgs) : Answer := (s.tail args).map tailDatum

/-! ## Lists -/

/-- The text of a clean path. -/
def pathText (s : Details) (p : CleanPath) : Bytes :=
  if p.abs then if p.parts = [] then utf8 "/" else p.parts.flatMap fun n => utf8 "/" ++ s.name n
  else if p.parts = [] then utf8 "." else (utf8 "/").intercalate (p.parts.map s.name)

def readOnly (pol : Policy) (d : Disk) (p : CleanPath) : Bool :=
  if p.abs then !(checkPath pol d p.parts true).isOk else true

inductive EntryType
  | file | dir | link | dirlink | other
deriving DecidableEq, Repr

def EntryType.text : EntryType → String
  | .file => "file"
  | .dir => "dir"
  | .link => "link"
  | .dirlink => "dirlink"
  | .other => "other"

structure Entry where
  name : Bytes
  type : EntryType
  size : Int
  mtime : Int
  mode : Nat
  owner : Bytes
  link : Bytes

/-- `entryOf` -/
def entryOf (s : Details) (d : Disk) (dir : Loc) (x : Name × Node) : Entry :=
  let p := dir ++ [x.1]
  let e : Entry :=
    { name := s.name x.1
      type := .other
      size := s.size p
      mtime := unix (s.mtime p)
      mode := (attrOf x.2).mode
      owner := s.owner (attrOf x.2).uid
      link := [] }
  match x.2 with
  | .link _ =>
    { e with
      type := match stat d p with
        | .ok (_, .dir _) => .dirlink
        | _ => .link
      owner := s.owner (s.linkUid p)
      link := s.readlink p }
  | .dir _ => { e with type := .dir }
  | .file f => { e with type := .file, size := f.content.length, mtime := unix f.mtime }
  | .other _ _ => e

/-- `%04o` of the permission bits. -/
def octal (m : Nat) : String :=
  String.ofList ['0', Nat.digitChar (m / 64 % 8), Nat.digitChar (m / 8 % 8), Nat.digitChar (m % 8)]

def Entry.datum (e : Entry) : Datum :=
  .obj ([("name", .str e.name), ("type", .text e.type.text), ("size", int64 e.size),
      ("mtime", int64 e.mtime), ("mode", .text (octal e.mode)), ("owner", .str e.owner)] ++
    if e.link = [] then [] else [("link", .str e.link)])

/-- Directories come first, then the names in their order. -/
def Entry.less (s : Details) (a b : Entry) : Bool :=
  if decide (a.type = .dir) ≠ decide (b.type = .dir) then a.type = .dir
  else s.toLower a.name < s.toLower b.name

/-- A root on the virtual top level. -/
structure TopEntry where
  mtime : Int
  name : Bytes
  readonly : Bool

def TopEntry.datum (e : TopEntry) : Datum :=
  .obj [("mtime", int64 e.mtime), ("name", .str e.name), ("readonly", .bool e.readonly),
    ("type", .text "dir")]

inductive Listing
  | top (roots : List TopEntry)
  | dir (path : Bytes) (entries : List Entry) (readonly truncated : Bool)

def Listing.datum (s : Details) : Listing → Datum
  | .top roots => .obj [("entries", .slice (roots.map TopEntry.datum)), ("path", .text "/"),
      ("virtual", .bool true)]
  | .dir path entries readonly truncated =>
    .obj [("entries", .arr ((entries.mergeSort fun a b => !Entry.less s b a).map Entry.datum)),
      ("path", .str path), ("readonly", .bool readonly), ("truncated", .bool truncated)]

/-- A root of the policy, when it is there. -/
def Server.root (s : Server) (p : CleanPath) : Option TopEntry :=
  let entry (mtime : Int) : TopEntry :=
    ⟨unix mtime, pathText s.details p, readOnly s.pol s.world.disk p⟩
  match stat s.world.disk (place s.env.cwd p) with
  | .ok (_, .file f) => some (entry f.mtime)
  | .ok (l, _) => some (entry (s.details.mtime l))
  | .error _ => none

def Server.roots (s : Server) : List TopEntry :=
  (s.pol.roots.map (CleanPath.mk true) ++ [s.pol.backupDir] ++
    s.pol.readOnly.map (CleanPath.mk true)).filterMap s.root

def Server.listing (s : Server) (args : Except Bytes String) : Except Bytes Listing := do
  let path ← decode args
  if path = "" ∨ path = "/" then return .top s.roots
  let r ← s.sys (listDir s.pol path)
  return .dir (pathText s.details ⟨true, r.path⟩) (r.entries.map (entryOf s.details s.world.disk r.path))
    (readOnly s.pol s.world.disk ⟨true, r.path⟩) r.truncated

def Server.fsList (s : Server) (args : Except Bytes String) : Answer :=
  (s.listing args).map (Listing.datum s.details)

/-! ## Logs and commands -/

structure LogArgs where
  name : String
  lines : Int

/-- How many lines a request for a log gets. -/
def logLines (n : Int) : Int := if n ≤ 0 ∨ 3000 < n then 300 else n

def errService : Bytes := utf8 "این سرویس در فهرست مجاز این سرور نیست"

/-- The lines that `journalctl` prints. -/
def Server.journal (s : Server) (args : Except Bytes LogArgs) : Except Bytes (List Bytes) := do
  let i ← decode args
  if !handlers.unitName i.name || !handlers.serviceAllowed s.services i.name then throw errService
  let (out, err) := run "20s" (s.exec ["journalctl", "-u", i.name ++ ".service", "-n",
    toString (logLines i.lines), "--no-pager", "-o", "short-iso"])
  match err with
  | some e => if out = [] then throw e else return splitLines out
  | none => return splitLines out

def logDatum (lines : List Bytes) : Datum := .obj [("lines", linesDatum lines)]

def Server.svcLogs (s : Server) (args : Except Bytes LogArgs) : Answer := (s.journal args).map logDatum

/-- `containerRef` -/
def containerRef (id : String) : Bool :=
  let plain (c : Char) := ('A' ≤ c && c ≤ 'Z') || ('a' ≤ c && c ≤ 'z') || ('0' ≤ c && c ≤ '9')
  match id.toList with
  | [] => false
  | c :: cs => plain c && cs.length ≤ 127 && cs.all fun c => plain c || c ∈ ['_', '.', '-']

def be32 (b : Bytes) : Nat := b.foldl (fun n x => n * 256 + x.toNat) 0

/-- The loop of `demux`. Each turn takes at least the eight bytes of a header. -/
def demuxFrames : Nat → Bytes → Bytes
  | 0, _ => []
  | k + 1, b =>
    if b.length < 8 then []
    else
      let n := be32 ((b.drop 4).take 4)
      (b.drop 8).take n ++ demuxFrames k ((b.drop 8).drop n)

/-- `demux` -/
def demux (b : Bytes) : Bytes :=
  match b with
  | kind :: 0 :: 0 :: 0 :: _ =>
    if b.length < 8 ∨ (kind ≠ 1 ∧ kind ≠ 2) then b else demuxFrames b.length b
  | _ => b

def errContainer : Bytes := utf8 "شناسهٔ کانتینر نامعتبر"

def errDocker : Bytes := utf8 "Docker روی این سرور در دسترس نیست یا در policy خاموش است"

/-- The lines of a container's log, as the socket of Docker gives them. -/
def Server.containerLog (s : Server) (args : Except Bytes LogArgs) : Except Bytes (List Bytes) := do
  let i ← decode args
  if !containerRef i.name then throw errContainer
  match s.docker with
  | none => throw errDocker
  | some get =>
    let (status, body) ← get ("http://docker/containers/" ++ i.name ++
      "/logs?stdout=1&stderr=1&timestamps=1&tail=" ++ toString (logLines i.lines))
    let raw := body.take (4 * 2 ^ 20)
    if status ≠ 200 then throw (utf8 "docker: " ++ trimSpace raw)
    return splitLines (trimNewlines (demux raw))

def Server.dockerLogs (s : Server) (args : Except Bytes LogArgs) : Answer :=
  (s.containerLog args).map logDatum

structure Printed where
  code : Int
  ms : Int
  output : Bytes

def errConsole : Bytes := utf8 "کنسول روی این سرور خاموش است (\"console\": true در policy.json)"

def errNoCommand : Bytes := utf8 "دستور خالی است"

/-- What a command of the console printed. -/
def Server.printed (s : Server) (args : Except Bytes ExecArgs) : Except Bytes Printed := do
  if !s.console then throw errConsole
  let i ← decode args
  if policy.trimSpace i.cmd = "" then throw errNoCommand
  let (x, ms) := s.bash { i with timeout := if i.timeout ≤ 0 ∨ 300 < i.timeout then 60 else i.timeout }
  let code := match x.ended with
    | .well => 0
    | .exited code _ => code
    | .failed _ => -1
  return ⟨if x.timedOut then 124 else code, ms, limited (512 * 1024) x.writes⟩

def Printed.datum (p : Printed) : Datum :=
  .obj [("code", int64 p.code), ("ms", int64 p.ms), ("output", .str p.output)]

def Server.execRun (s : Server) (args : Except Bytes ExecArgs) : Answer := (s.printed args).map Printed.datum

/-! ## Backups -/

structure BackupFile where
  path : Bytes
  name : Bytes
  size : Int
  mtime : Int
  source : Bytes

def BackupFile.datum (f : BackupFile) : Datum :=
  .obj ([("path", .str f.path), ("name", .str f.name), ("size", int64 f.size), ("mtime", int64 f.mtime)] ++
    if f.source = [] then [] else [("from", .str f.source)])

/-- The server that a copy came from, or that a restore kept it. -/
def sourceOf (s : Details) : Loc → Bytes
  | [top, name, _] => if top = "remote" then s.name name else []
  | [top, _] => if top = "pre-restore" then utf8 "pre-restore" else []
  | _ => []

/-- What a walk shows of a backup, if it is one. -/
def backupFile (s : Details) (dir : CleanPath) (root : Loc) (x : Loc × Node) : Option BackupFile :=
  match x.2 with
  | .file f =>
    let rel := x.1.drop root.length
    let name := x.1.getLast?.getD ""
    if hasPrefix name uploadPrefix then none
    else some ⟨pathText s ⟨dir.abs, dir.parts ++ rel⟩, s.name name, f.content.length, unix f.mtime,
      sourceOf s rel⟩
  | _ => none

/-- An interrupted copy of yesterday. -/
def stale (now : Int) (x : Loc × Node) : Bool :=
  match x.2 with
  | .file f => hasPrefix (x.1.getLast?.getD "") uploadPrefix && f.mtime < now - 86400 * 10 ^ 9
  | _ => false

structure Backups where
  dir : Bytes
  files : List BackupFile
  free : Int

/-- `backupList`: the files below the directory of the backups, while old
uploads go. -/
def listBackups (s : Details) (pol : Policy) : Sys Backups := do
  ensureBackupDir pol
  let root ← askEnv fun e _ => place e.cwd pol.backupDir
  let seen ← askEnv fun e d => walkTree e.blocked (fun _ => false) d root
  let now ← (fun e w => (.ok (e.luck w.calls).now, w) : Sys Int)
  let _ ← removeEach ((seen.filter (stale now)).map Prod.fst)
  let free ← askEnv fun e _ => e.free
  pure ⟨pathText s pol.backupDir, seen.filterMap (backupFile s pol.backupDir root), free⟩

def Backups.datum (b : Backups) : Datum :=
  .obj [("dir", .str b.dir),
    ("files", .slice ((b.files.mergeSort fun a b => decide (b.mtime ≤ a.mtime)).map BackupFile.datum)),
    ("free", int64 b.free)]

def Server.backups (s : Server) : Except Bytes Backups := s.sys (listBackups s.details s.pol)

def Server.backupList (s : Server) : Answer := s.backups.map Backups.datum

/-! ## Requests -/

/-- A request, with its arguments as `json.Unmarshal` reads them. -/
inductive Query
  | fsRead (args : Except Bytes ReadArgs)
  | fsList (args : Except Bytes String)
  | fsTail (args : Except Bytes TailArgs)
  | svcLogs (args : Except Bytes LogArgs)
  | dockerLogs (args : Except Bytes LogArgs)
  | execRun (args : Except Bytes ExecArgs)
  | backupList

/-- `Handle` -/
def Server.handle (s : Server) : Query → Answer
  | .fsRead args => s.fsRead args
  | .fsList args => s.fsList args
  | .fsTail args => s.fsTail args
  | .svcLogs args => s.svcLogs args
  | .dockerLogs args => s.dockerLogs args
  | .execRun args => s.execRun args
  | .backupList => s.backupList

def errMonitor : Bytes := utf8 ("این سرور در حالت «فقط مانیتورینگ» است؛ برای مدیریت، agent را " ++
  "با --upgrade دوباره نصب کنید")

/-- The agent: only one that manages has a server to touch, and it answers
eight requests at a time. -/
structure Agent where
  runner : Option Server
  free : Bool

def Agent.answer (a : Agent) (q : Query) : Answer :=
  if a.free then
    match a.runner with
    | none => .error errMonitor
    | some s => s.handle q
  else .error (utf8 replies.busy)

/-- `secrets.token_hex(8)` -/
structure Rid where
  text : String
  length : text.toList.length = 16
  hex : (text.toList.all fun c => ('0' ≤ c && c ≤ '9') || ('a' ≤ c && c ≤ 'f')) = true

/-- The `res` frame of an answer. -/
def frame (rid : Rid) : Answer → Datum
  | .ok d => .obj [("t", .text "res"), ("id", .text rid.text), ("d", d), ("ok", .bool true)]
  | .error e => .obj ([("t", .text "res"), ("id", .text rid.text)] ++
      if e = [] then [] else [("error", .str e)])

/-- The text that `send` gives the connection for a request. -/
def Agent.sent (a : Agent) (rid : Rid) (q : Query) : List Char := marshal (frame rid (a.answer q))

end icsd_panel.answers

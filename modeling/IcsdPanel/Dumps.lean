-- The dumps of databases: the commands of the engines, `dumpTo`, and the job
-- that restores a database from a file after a dump of it as it is.
import IcsdPanel.Sinks
import IcsdPanel.Handlers
import IcsdPanel.Archives

open effects sinks

namespace icsd_panel.dumps

open paths disk machine policy files archives
open handlers (lastLines)

/-! ## The databases -/

/-- A database as the hub names it: `whereAt` is `native`, or `docker:` and a
container. -/
structure DB where
  engine : String
  whereAt : String
  name : String
  size : Int

structure DockerDB where
  name : String
  engine : String
  user : String
deriving DecidableEq

/-- A command: on the host, or in a container with `docker exec` (with `-i` for
an input). -/
inductive Cmd
  | host (argv : List String)
  | inside (stdin : Bool) (container : String) (argv : List String)
deriving DecidableEq

def mysqlPw : String := "$\x7bMYSQL_ROOT_PASSWORD:-$\x7bMARIADB_ROOT_PASSWORD:-\x7d\x7d"

def dumpScript : String :=
  "exec mysqldump -uroot -p\"" ++ mysqlPw ++ "\" --single-transaction --quick --routines --triggers --events \"$0\""

def restoreScript : String := "exec mysql -uroot -p\"" ++ mysqlPw ++ "\" --binary-mode \"$0\""

/-- `dumpCmd`: the command whose output is the dump. -/
def dumpCmd (d : DB) (c : DockerDB) : Cmd :=
  if d.whereAt = "native" ∧ d.engine = "mysql" then
    .host ["mysqldump", "--single-transaction", "--quick", "--routines", "--triggers", "--events", d.name]
  else if d.whereAt = "native" then .host ["runuser", "-u", "postgres", "--", "pg_dump", "-Fc", d.name]
  else if d.engine = "postgres" then .inside false c.name ["pg_dump", "-U", c.user, "-Fc", d.name]
  else .inside false c.name ["sh", "-c", dumpScript, d.name]

/-! ## What a command does to which database -/

inductive Work
  | dump
  | change
deriving DecidableEq

/-- A database with its engine, in a container or on the host. -/
structure Place where
  engine : String
  container : Option String
  name : String
deriving DecidableEq

/-- The database that `pg_restore` connects to. -/
def restoreDb : List String → Option String
  | [] => none
  | "-U" :: _ :: args => restoreDb args
  | "-d" :: name :: _ => some name
  | _ :: args => restoreDb args

/-- What the client of an engine does to which database, by its arguments. -/
def work : List String → Option (Work × String × String)
  | "mysqldump" :: args => args.getLast?.map fun name => (.dump, "mysql", name)
  | "mysql" :: "--help" :: _ => none
  | "mysql" :: args => args.getLast?.map fun name => (.change, "mysql", name)
  | "pg_dump" :: args => args.getLast?.map fun name => (.dump, "postgres", name)
  | "pg_restore" :: args => (restoreDb args).map fun name => (.change, "postgres", name)
  | "runuser" :: "-u" :: "postgres" :: "--" :: argv => work argv
  | ["sh", "-c", script, name] =>
    if script = dumpScript then some (.dump, "mysql", name)
    else if script = restoreScript then some (.change, "mysql", name)
    else none
  | _ => none

def Cmd.work : Cmd → Option (Work × Place)
  | .host argv => (dumps.work argv).map fun w => (w.1, ⟨w.2.1, none, w.2.2⟩)
  | .inside _ c argv => (dumps.work argv).map fun w => (w.1, ⟨w.2.1, some c, w.2.2⟩)

/-! ## Commands and files -/

/-- How a command goes: its output as it is read, the text that the agent keeps
of it (of a dump, of its errors), and why it failed or did not start. -/
structure Answer where
  out : List Bytes
  text : String
  failed : Option String

/-- What the agent did besides its changes of the disk. A command is there with
how it went and the disk that it found. -/
inductive Event
  | ran (cmd : Cmd) (a : Answer) (disk : Disk)
  | closed (l : Loc)

/-- The agent in a job: its world, and its events, the last one first. -/
structure Desk where
  world : World
  events : List Event

/-- The surroundings of a job: those of its calls, how the commands go, and the
databases that `dockerDBs` finds. -/
structure Shop where
  env : Env
  answer : Nat → Answer
  containers : List DockerDB

abbrev Job (α : Type) := Proc Shop Desk GoError α

/-- What is there to read of `compress/gzip`, and the matches of `reUseDB`: the
coder, whether `gzip.NewReader` takes a file, the first 256 KiB of what it
unpacks, and the names that `USE` and `CREATE DATABASE` have in a text. -/
structure Formats where
  gzip : Coder UInt8
  opens : Bytes → Bool
  peek : Bytes → Bytes
  useNames : Bytes → List String

variable {α : Type}

/-- A procedure of the disk. -/
def onDisk (x : Sys α) : Job α := fun e s =>
  ((x e.env s.world).1, { s with world := (x e.env s.world).2 })

def fail (s : String) : Job α := Proc.fail (.text s)

def note (v : Event) : Job Unit := fun _ s => (.ok (), { s with events := v :: s.events })

/-- `cmd.Run`, without what becomes of its output. -/
def start (cmd : Cmd) : Job Answer := fun e s =>
  (.ok (e.answer s.events.length),
    { s with events := .ran cmd (e.answer s.events.length) s.world.disk :: s.events })

/-- `f.Close()` -/
def closeFile (l : Loc) : Job Unit := do
  onDisk pause
  note (.closed l)

/-! ## `dumpTo` -/

/-- The size of the buffer before the file. -/
def bufSize : Nat := 1024 * 1024

/-- The writer between the buffer and the file. -/
def coder (g : Formats) (engine : String) : Coder UInt8 := if engine = "mysql" then g.gzip else .plain

/-- `f.Write` at the end of the file. -/
def put (l : Loc) (off : Nat) (data : Bytes) : Job Unit := onDisk (writeAt l off data)

/-- The output of the dump, as `cmd.Run` copies it. An `*os.File` reads for
itself, so its bytes go past the buffer; the gzip writer gets full buffers. -/
def copyOut (g : Formats) (d : DB) (l : Loc) (out : List Bytes) : Job (Chain UInt8) :=
  if d.engine = "mysql" then acceptAll (coder g d.engine) (put l) bufSize .empty out
  else passAll (coder g d.engine) (put l) .empty out

/-- The error of a dump: the last lines of what the command said, or else why
it failed. -/
def dumpError (text : String) : GoError → GoError
  | .text err => .text ("dump: " ++ lastLines (if trimSpace text = "" then err else text) 4)
  | .os err => if trimSpace text = "" then .os err else .text ("dump: " ++ lastLines text 4)

def runDump (g : Formats) (d : DB) (c : DockerDB) (l : Loc) : Job (Chain UInt8) := do
  let a ← start (dumpCmd d c)
  let r ← (copyOut g d l a.out).attempt
  match a.failed, r with
  | some err, _ => Proc.fail (dumpError a.text (.text err))
  | none, .error err => Proc.fail (dumpError a.text err)
  | none, .ok s => pure s

/-- The bytes of the dump. The first error closes the file, and an error of
that close is dropped. -/
def writeDump (g : Formats) (d : DB) (c : DockerDB) (l : Loc) : Job Unit :=
  Proc.orElseFirst (do
    let s ← runDump g d c l
    let s ← flush (coder g d.engine) (put l) s
    if d.engine = "mysql" then finish (coder g d.engine) (put l) s else pure ()) (closeFile l)

def nodeSize : Node → Nat
  | .file f => f.content.length
  | _ => 0

/-- `dumpTo` with its file open. The error of `os.Stat` is dropped, and its
missing result is read. -/
def dumpInto (g : Formats) (d : DB) (c : DockerDB) (file l : Loc) : Job Nat := do
  writeDump g d c l
  closeFile l
  match ← (onDisk (act fun _ d => (stat d file).map fun n => ⟨none, n⟩)).attempt with
  | .error _ => fail "panic: runtime error: invalid memory address or nil pointer dereference"
  | .ok (_, n) => if nodeSize n < 20 then fail "dump خالی است" else pure (nodeSize n)

/-- `dumpTo`. The deferred `os.Remove` goes for each way out but the last. -/
def dumpTo (g : Formats) (d : DB) (c : DockerDB) (file : Loc) : Job Nat := do
  let l ← onDisk (createDest file)
  (dumpInto g d c file l).orElseFirst (onDisk (remove file))

/-! ## `dbRestore` -/

/-- `^[A-Za-z0-9_][A-Za-z0-9_$.-]{0,63}$` -/
def isDbName (s : String) : Bool :=
  let plain (c : Char) := c.isAlphanum || c = '_'
  match s.toList with
  | [] => false
  | c :: cs => plain c && cs.length ≤ 63 && cs.all fun c => plain c || c = '$' || c = '.' || c = '-'

/-- `^[A-Za-z0-9][A-Za-z0-9_.-]{0,127}$` -/
def isContainerRef (s : String) : Bool :=
  match s.toList with
  | [] => false
  | c :: cs => c.isAlphanum && cs.length ≤ 127 &&
      cs.all fun c => c.isAlphanum || c = '_' || c = '.' || c = '-'

/-- `^[A-Za-z0-9_][A-Za-z0-9_.-]{0,62}$` -/
def isPgUser (s : String) : Bool :=
  let plain (c : Char) := c.isAlphanum || c = '_'
  match s.toList with
  | [] => false
  | c :: cs => plain c && cs.length ≤ 62 && cs.all fun c => plain c || c = '.' || c = '-'

/-- `target`: the container of a database that the hub names. -/
def target (databases : Bool) (containers : List DockerDB) (d : DB) : Except GoError DockerDB :=
  if databases = false then .error (.text "مدیریت دیتابیس در policy این سرور خاموش است")
  else if isDbName d.name = true ∧ (d.engine = "mysql" ∨ d.engine = "postgres") then
    if d.whereAt = "native" then .ok ⟨"", d.engine, ""⟩
    else
      let name := String.ofList (d.whereAt.toList.drop 7)
      if hasPrefix d.whereAt "docker:" && isContainerRef name then
        match containers.find? fun c => c.name = name && c.engine = d.engine with
        | some c => .ok c
        | none => .error (.text "کانتینر دیتابیس پیدا نشد")
      else .error (.text "محل دیتابیس نامعتبر")
  else .error (.text "نام دیتابیس نامعتبر")

theorem target_engine {databases : Bool} {containers : List DockerDB} {d : DB} {c : DockerDB}
    (h : target databases containers d = .ok c) : d.engine = "mysql" ∨ d.engine = "postgres" := by
  unfold target at h
  split at h
  · cases h
  · split at h
    · rename_i hd
      exact hd.2
    · cases h

structure RestoreArgs where
  db : DB
  file : String

/-- What the job of a restore needs. -/
structure RestorePlan where
  d : DB
  c : DockerDB
  file : Loc
  known : d.engine = "mysql" ∨ d.engine = "postgres"

/-- The text of a path. -/
def CleanPath.text (p : CleanPath) : String :=
  (if p.abs then "/" else "") ++ String.intercalate "/" p.parts

/-- `dbRestore` up to the start of its job. -/
def dbRestore (pol : Policy) (databases : Bool) (i : RestoreArgs) : Job RestorePlan := do
  let containers ← (fun e s => (.ok e.containers, s) : Job (List DockerDB))
  match hc : target databases containers i.db with
  | .error err => Proc.fail err
  | .ok c => do
    let file ← onDisk (checked pol i.file false)
    if ← onDisk (ask fun d => .ok (inBackupDir pol d file)) then
      if hasSuffix (file.getLast?.getD "") (dumpExt i.db.engine) then pure ⟨i.db, c, file, target_engine hc⟩
      else fail ("برای " ++ i.db.engine ++ " فایل " ++ dumpExt i.db.engine ++ " لازم است")
    else fail ("بازگردانی فقط از فایل‌های پوشهٔ بک‌آپ (" ++ CleanPath.text pol.backupDir ++ ") ممکن است")

/-- `otherDatabase`: the first other database that the start of a dump names. -/
def otherDatabase (g : Formats) (head : Bytes) (name : String) : Option String :=
  (g.useNames head).find? fun n => n ≠ name

/-- `strings.Contains` -/
def contains (s sub : String) : Bool := s.toList.tails.any fun t => sub.toList.isPrefixOf t

def mysqlHasSandbox : Job Bool := do
  let a ← start (.host ["mysql", "--help"])
  pure (contains a.text "--sandbox")

/-- `pgOwner`: the owner of the database, if it is no superuser. -/
def pgOwner (d : DB) (c : DockerDB) : Job String := do
  let args := ["-XAt", "-F", "|", "-v", "db=" ++ d.name, "-d", "postgres"]
  let a ← start (if d.whereAt = "native" then .host (["runuser", "-u", "postgres", "--", "psql"] ++ args)
    else .inside true c.name (["psql", "-U", c.user] ++ args))
  match a.failed, (trimSpace a.text).toList.splitOn '|' with
  | none, [owner, ['f']] => pure (if isPgUser (String.ofList owner) then String.ofList owner else "")
  | _, _ => pure ""

/-- The client that gets the file. -/
def restoreCmd (g : Formats) (d : DB) (c : DockerDB) (content : Bytes) : Job Cmd :=
  if d.engine = "mysql" then
    if g.opens content = false then fail "gzip: invalid header"
    else match otherDatabase g (g.peek content) d.name with
      | some other => fail ("این فایل مال دیتابیس «" ++ other ++ "» است، نه «" ++ d.name ++ "»")
      | none =>
        if d.whereAt = "native" then do
          let sandbox ← mysqlHasSandbox
          pure (.host (["mysql", "--binary-mode"] ++ (if sandbox then ["--sandbox"] else []) ++ [d.name]))
        else pure (.inside true c.name ["sh", "-c", restoreScript, d.name])
  else do
    let role ← pgOwner d c
    let args := ["--clean", "--if-exists", "--no-owner", "-d", d.name] ++
      if role = "" then [] else ["--role=" ++ role]
    pure (if d.whereAt = "native" then .host (["runuser", "-u", "postgres", "--", "pg_restore"] ++ args)
      else .inside true c.name (["pg_restore", "-U", c.user] ++ args))

/-- The run of the client. `pg_restore` also fails for what it only skipped. -/
def runRestore (d : DB) (safety : CleanPath) (cmd : Cmd) : Job (String × CleanPath) := do
  let a ← start cmd
  if a.failed.isSome ∧ ¬ (d.engine = "postgres" ∧ contains a.text "errors ignored on restore" = true) then
    fail ("بازگردانی ناموفق؛ نسخهٔ احتیاطی: " ++ CleanPath.text safety)
  else pure (d.name, safety)

/-- `ensureBackupDir("pre-restore")` -/
def safetyDir (pol : Policy) : CleanPath := CleanPath.child pol.backupDir "pre-restore"

def safetyName (d : DB) (stamp : String) : Name := "db-" ++ d.name ++ "-" ++ stamp ++ dumpExt d.engine

/-- The job of `dbRestore`. -/
def restoreJob (g : Formats) (pol : Policy) (p : RestorePlan) : Job (String × CleanPath) := do
  let cwd ← onDisk (askEnv fun e _ => e.cwd)
  onDisk (mkdirAll (place cwd (safetyDir pol)) 0o700)
  let stamp ← (fun e s => (.ok (e.env.luck s.world.calls).stamp, s) : Job String)
  let safety := CleanPath.child (safetyDir pol) (safetyName p.d stamp)
  match ← (dumpTo g p.d p.c (place cwd safety)).attempt with
  | .error err => Proc.fail (GoError.of "نسخهٔ احتیاطی گرفته نشد، بازگردانی انجام نشد" err)
  | .ok _ =>
    let f ← onDisk (readFile p.file)
    let cmd ← restoreCmd g p.d p.c f.content
    runRestore p.d safety cmd

end icsd_panel.dumps

-- Archives and backups: the jobs that pack a folder, unpack an archive, and
-- back a folder up, and the request that prunes old backups.
import IcsdPanel.Files
import Mathlib.Logic.Equiv.List

open effects

namespace icsd_panel.archives

open paths disk machine policy files

/-! ## The formats -/

inductive Kind
  | dir
  | reg
  | link
  | other
deriving DecidableEq, Repr

/-- One entry of an archive. -/
structure Member where
  name : String
  kind : Kind
  mode : Nat
  content : Bytes
deriving DecidableEq, Repr

/-- How the reading of an archive ends: at its end, at a header that cannot be
read, at a member that cannot be opened, or within the bytes of a member. -/
inductive Ending
  | eof
  | bad
  | unopened (m : Member)
  | cut (m : Member)
deriving DecidableEq, Repr

structure Stream where
  members : List Member
  ending : Ending
deriving DecidableEq, Repr

/-- The formats of Go's `archive/tar`, `compress/gzip` and `archive/zip`: what
was packed is unpacked. -/
structure Codec where
  tarGz : List Member → Bytes
  untarGz : Bytes → Option Stream
  unzip : Bytes → Option Stream
  untarGz_tarGz : ∀ ms, untarGz (tarGz ms) = some ⟨ms, .eof⟩

instance encodableUInt8 : Encodable UInt8 := .ofLeftInverse UInt8.toNat UInt8.ofNat fun _ => UInt8.ofNat_toNat

instance encodableChar : Encodable Char := .ofLeftInverse Char.toNat Char.ofNat Char.ofNat_toNat

instance encodableString : Encodable String :=
  .ofLeftInverse String.toList String.ofList fun _ => String.ofList_toList

instance encodableKind : Encodable Kind :=
  .ofLeftInverse (fun | .dir => 0 | .reg => 1 | .link => 2 | .other => 3 : Kind → Fin 4)
    (fun i => if i = 0 then .dir else if i = 1 then .reg else if i = 2 then .link else .other)
    fun k => by cases k <;> rfl

instance encodableMember : Encodable Member :=
  .ofLeftInverse (fun m => (m.name, m.kind, m.mode, m.content)) (fun t => ⟨t.1, t.2.1, t.2.2.1, t.2.2.2⟩)
    fun _ => rfl

/-- A format: an archive is as long as the number of its list of members. -/
def countedCodec : Codec where
  tarGz ms := List.replicate (Encodable.encode ms) 0
  untarGz b := (Encodable.decode (α := List Member) b.length).map fun ms => ⟨ms, .eof⟩
  unzip b := (Encodable.decode (α := List Member) b.length).map fun ms => ⟨ms, .eof⟩
  untarGz_tarGz ms := by rw [List.length_replicate, Encodable.encodek]; rfl

/-! ## `filepath.Walk` -/

/-- More than the names of any path on the disk. -/
def depth (d : Disk) : Nat := d.tree.known.foldr (fun l n => max (l.length + 1) n) 1

/-- What `filepath.Walk` shows of the node of the path `p` and what is below
it, as far as `prune` lets it go down. What cannot be looked at or listed is
left out. -/
def walkFrom (blocked : Access → Loc → Bool) (prune : Loc → Bool) (d : Disk) :
    Nat → Loc → Node → List (Loc × Node)
  | 0, _, _ => []
  | k + 1, p, n =>
    if prune p then []
    else if n.isDir then
      match dirAt d p with
      | .error _ => []
      | .ok l =>
        if blocked .list l then []
        else (p, n) :: (sortedNames d l).flatMap fun x =>
          match lstat d (p ++ [x]) with
          | .error _ => []
          | .ok (q, m) => if blocked .stat q then [] else walkFrom blocked prune d k (p ++ [x]) m
    else [(p, n)]

/-- `filepath.Walk` from a path. -/
def walkTree (blocked : Access → Loc → Bool) (prune : Loc → Bool) (d : Disk) (src : Loc) :
    List (Loc × Node) :=
  match lstat d src with
  | .error _ => []
  | .ok (l, n) => if blocked .stat l then [] else walkFrom blocked prune d (depth d) src n

/-! ## Packing -/

/-- A clean path, as a path from the root. -/
def place (cwd : Loc) (p : CleanPath) : Loc := if p.abs then p.parts else cwd ++ p.parts

/-- The headers written so far, and whether bytes of the last one are owed. -/
structure Tar where
  members : List Member
  owed : Bool

/-- The name of a header: the path below `base`. -/
def memberName (base p : Loc) (n : Node) : String :=
  let rel := if p.length ≤ base.length then "." else String.intercalate "/" (p.drop base.length)
  if n.isDir then rel ++ "/" else rel

/-- `tar.FileInfoHeader`, with the bytes that go after it. A socket has none. -/
def memberOf (base p : Loc) (n : Node) : Option Member :=
  match n with
  | .file f => some ⟨memberName base p n, .reg, f.attr.mode, f.content⟩
  | .dir a => some ⟨memberName base p n, .dir, a.mode, []⟩
  | .link _ => some ⟨memberName base p n, .link, 0o777, []⟩
  | .other true _ => none
  | .other false a => some ⟨memberName base p n, .other, a.mode, []⟩

def errMissed : GoError := .text "archive/tar: missed writing"

/-- The part of the walk of `writeTarGz` for one node. A file that cannot be
opened leaves its bytes owed, and the next header fails. -/
def packOne (base : Loc) (t : Tar) (p : Loc) (n : Node) : Sys Tar := do
  pause
  match memberOf base p n with
  | none => pure t
  | some m =>
    if t.owed then Proc.fail errMissed
    else match n with
      | .file f =>
        match ← (readFile p).attempt with
        | .error _ => pure ⟨t.members ++ [m], f.content ≠ []⟩
        | .ok _ =>
          pause
          pure ⟨t.members ++ [m], false⟩
      | _ => pure ⟨t.members ++ [m], false⟩

def packAll (base : Loc) : Tar → List (Loc × Node) → Sys Tar
  | t, [] => pure t
  | t, (p, n) :: rest => do
    let t ← packOne base t p n
    packAll base t rest

/-- What the walk of `writeTarGz` goes past: what is never read, and what is
excluded. -/
def skipped (exclude : List Loc) (p : Loc) : Bool := deniedLexical p || exclude.any (within p)

/-- The nodes that `writeTarGz` packs of one source. The archive itself is
known by the text of its path. -/
def visits (blocked : Access → Loc → Bool) (dest : CleanPath) (exclude : List Loc) (d : Disk)
    (src : Loc) : List (Loc × Node) :=
  (walkTree blocked (skipped exclude) d src).filter fun v => ⟨true, v.1⟩ ≠ dest

def packSources (dest : CleanPath) (exclude : List Loc) : Tar → List Loc → Sys Tar
  | t, [] => pure t
  | t, src :: rest => do
    let vs ← askEnv fun e d => visits e.blocked dest exclude d src
    let t ← packAll src.dropLast t vs
    packSources dest exclude t rest

/-- `os.OpenFile(dest, O_CREATE|O_EXCL|O_WRONLY, 0600)`. -/
def createDest (p : Loc) : Sys Loc := act fun luck d =>
  createExcl d p ⟨[], luck.now, ⟨0o600, 0, 0⟩, true⟩

/-- `writeTarGz`, with its destination as a path from the root too. The bytes
go to the file at its end: what a failed run left in it is not said here. -/
def writeTarGz (c : Codec) (p : Loc) (dest : CleanPath) (srcs exclude : List Loc) : Sys Nat := do
  let l ← createDest p
  let t ← packSources dest exclude ⟨[], false⟩ srcs
  if t.owed then Proc.fail errMissed
  else
    writeAt l 0 (c.tarGz t.members)
    pause
    match ← askOs fun d => stat d p with
    | (_, .file f) => pure f.content.length
    | _ => pure 0

structure ArchiveArgs where
  paths : List String
  dest : String

def tarGzSuffix : String := ".tar.gz"

def dumpExt (engine : String) : String := if engine = "postgres" then ".dump" else ".sql.gz"

/-- The destination of `fsArchive`, after its check. -/
def archiveDest (real : Loc) : Loc :=
  if hasSuffix (real.getLast?.getD "") tarGzSuffix then real else appendText real tarGzSuffix

/-- `fsArchive` up to the start of its job: the sources and the destination. -/
def fsArchive (pol : Policy) (i : ArchiveArgs) : Sys (List Loc × Loc) :=
  if i.paths = [] then fail "چیزی انتخاب نشده"
  else do
    let srcs ← Proc.each (fun p => checked pol p false) i.paths
    let real ← checked pol i.dest true
    pure (srcs, archiveDest real)

/-- The job of `fsArchive`. -/
def archiveJob (c : Codec) (srcs : List Loc) (dest : Loc) : Sys (Loc × Nat) := do
  let size ← (writeTarGz c dest ⟨true, dest⟩ srcs []).orElseFirst (remove dest)
  chownLikeParent dest
  pure (dest, size)

/-! ## Unpacking -/

structure ExtractArgs where
  path : String
  dest : String

/-- `fsExtract` up to the start of its job. -/
def fsExtract (pol : Policy) (i : ExtractArgs) : Sys (Loc × Loc) := do
  let src ← checked pol i.path false
  let dest ← checked pol i.dest true
  pure (src, dest)

/-- An error with the name of the member before it. -/
def GoError.of (name : String) : GoError → GoError
  | .text s => .text (name ++ ": " ++ s)
  | .os e => .os e

/-- The names of a member's path. -/
def memberParts (name : String) : Loc := (clean ("/" ++ name)).parts

/-- `safeJoin`: the target of a member, if the policy lets it be written. -/
def safeJoin (pol : Policy) (d : Disk) (dest : Loc) (name : String) : Except GoError Loc :=
  let target := dest ++ memberParts name
  if within target dest = false then .error (.text ("مسیر ناامن در آرشیو: " ++ name))
  else match checkPath pol d target true with
    | .error e => .error (GoError.of name e)
    | .ok _ => .ok target

/-- `os.OpenFile(p, O_CREATE|O_TRUNC|O_WRONLY, mode)`. -/
def truncate (p : Loc) (mode : Nat) : Sys Loc := act fun luck d =>
  createTrunc d p ⟨[], luck.now, ⟨mode, 0, 0⟩, true⟩

def isLinkAt (d : Disk) (p : Loc) : Bool :=
  match lstat d p with
  | .ok (_, n) => n.isLink
  | .error _ => false

def maxMember : Nat := 10 * 2 ^ 30

/-- `writeFileFrom`. A reader that breaks off fails after its bytes. -/
def writeFileFrom (target : Loc) (m : Member) (cut : Bool) : Sys Unit := do
  if ← ask fun d => .ok (isLinkAt d target) then fail "یک پیوند است؛ بازنویسی نمی‌شود"
  else
    let l ← truncate target (if m.mode = 0 then 0o644 else m.mode)
    writeAt l 0 (m.content.take maxMember)
    if cut then fail "unexpected EOF"
    else
      pause
      chownLikeParent target

/-- What becomes of the bytes of a member. -/
inductive Reading
  | whole
  | unopened
  | cut
deriving DecidableEq, Repr

/-- One turn of the loops of `extractZip` and `extractTarGz`, and the files
that it counts. Only a zip has members of other kinds written as files. -/
def extractOne (pol : Policy) (zip : Bool) (dest : Loc) (r : Reading) (m : Member) : Sys Nat := do
  pause
  let target ← ask fun d => safeJoin pol d dest m.name
  match m.kind with
  | .dir =>
    let _ ← (mkdirAll target 0o755).attempt
    pure 0
  | .link => pure 0
  | kind =>
    if kind = .other ∧ zip = false then pure 0
    else
      mkdirAll target.dropLast 0o755
      if r = .unopened then fail "zip: unsupported"
      else
        writeFileFrom target m (r = .cut)
        pure 1

/-- The members in the order that the loop takes them, each with what becomes
of its bytes. -/
def Stream.turns (s : Stream) : List (Reading × Member) :=
  s.members.map (fun m => (.whole, m)) ++
    match s.ending with
    | .eof | .bad => []
    | .unopened m => [(.unopened, m)]
    | .cut m => [(.cut, m)]

/-- The loop over the members, and the number of files that it wrote. -/
def extractAll (pol : Policy) (zip : Bool) (dest : Loc) (s : Stream) : Sys Nat := do
  let ns ← Proc.each (fun t => extractOne pol zip dest t.1 t.2) s.turns
  if s.ending = .bad then fail "bad archive" else pure ns.sum

/-- The archive that is read, and whether it is a zip. -/
def readArchive (c : Codec) (src : Loc) : Sys (Bool × Stream) := do
  let name := src.getLast?.getD ""
  let zip := hasSuffix name ".zip"
  if zip || hasSuffix name ".tar.gz" || hasSuffix name ".tgz" then
    let f ← readFile src
    match if zip then c.unzip f.content else c.untarGz f.content with
    | some s => pure (zip, s)
    | none => fail "bad archive"
  else fail "فقط zip و tar.gz"

/-- The job of `fsExtract` up to its loop: the destination is made, and the
archive opened. -/
def openArchive (c : Codec) (src dest : Loc) : Sys (Bool × Stream) := do
  mkdirAll dest 0o755
  readArchive c src

/-- The job of `fsExtract`: the number of files that it wrote. -/
def extractJob (c : Codec) (pol : Policy) (src dest : Loc) : Sys Nat := do
  let (zip, s) ← openArchive c src dest
  extractAll pol zip dest s

/-! ## Backups of a folder -/

structure BackupArgs where
  prefixName : String
  path : String
  exclude : List String

/-- `^[a-z0-9][a-z0-9_-]{0,40}$` -/
def isPrefixName (s : String) : Bool :=
  let plain (c : Char) := ('a' ≤ c && c ≤ 'z') || c.isDigit
  match s.toList with
  | [] => false
  | c :: cs => plain c && cs.length ≤ 40 && cs.all fun c => plain c || c = '_' || c = '-'

/-- `filepath.Join` of a clean absolute path and a text. -/
def joinText (p : Loc) (raw : String) : Loc :=
  ((splitSlash raw).foldl (pushPart true) p.reverse).reverse

/-- One exclude of a plan, below the folder when it is not absolute. -/
def excludePath (src : Loc) (raw : String) : Option Loc :=
  let e := trimSpace raw
  if e = "" then none
  else if isAbs e then some (clean e).parts
  else some (joinText src e)

/-- The excludes of a backup: those of the plan, and the backups. -/
def excludes (pol : Policy) (d : Disk) (src : Loc) (raw : List String) : List Loc :=
  raw.filterMap (excludePath src) ++
    match resolveBackup pol d with
    | .ok bd => [bd]
    | .error _ => []

/-- A path with a name after it. -/
def CleanPath.child (p : CleanPath) (n : Name) : CleanPath := ⟨p.abs, p.parts ++ [n]⟩

/-- `ensureBackupDir("")`. -/
def ensureBackupDir (pol : Policy) : Sys Unit := do
  let cwd ← askEnv fun e _ => e.cwd
  mkdirAll (place cwd pol.backupDir) 0o700

def backupName (prefixName stamp : String) : Name := prefixName ++ "-" ++ stamp ++ tarGzSuffix

/-- What the job of a backup needs. -/
structure BackupPlan where
  src : Loc
  exclude : List Loc
  file : CleanPath

/-- `backupRun` of kind `files`, up to the start of its job. -/
def backupRun (pol : Policy) (i : BackupArgs) : Sys BackupPlan :=
  if isPrefixName i.prefixName then do
    ensureBackupDir pol
    let src ← checked pol i.path false
    let exclude ← ask fun d => .ok (excludes pol d src i.exclude)
    let stamp ← (fun e w => (.ok (e.luck w.calls).stamp, w) : Sys String)
    pure ⟨src, exclude, CleanPath.child pol.backupDir (backupName i.prefixName stamp)⟩
  else fail "پیشوند نامعتبر"

/-- `dirSize`. -/
def dirSize (blocked : Access → Loc → Bool) (exclude : List Loc) (d : Disk) (src : Loc) : Nat :=
  ((walkTree blocked (fun p => exclude.any (within p)) d src).map fun v =>
    match v.2 with
    | .file f => f.content.length
    | _ => 0).sum

/-- `guard`: a backup that would fill the disk is refused. The two sizes in
the text of the error are not said here. -/
def guard (free : Int) (need : Int) : Except GoError Unit :=
  if free < 0 then .ok ()
  else if free < need + 2 ^ 30 then .error (.text "فضای کافی نیست")
  else .ok ()

/-- The job of `backupRun` of kind `files`. -/
def backupJob (c : Codec) (b : BackupPlan) : Sys (CleanPath × Nat) := do
  let p ← askEnv fun e _ => place e.cwd b.file
  let enough ← askEnv fun e d => guard e.free (dirSize e.blocked b.exclude d b.src / 2)
  ask fun _ => enough
  let size ← (writeTarGz c p b.file [b.src] b.exclude).orElseFirst (remove p)
  pure (b.file, size)

structure PruneArgs where
  dir : String
  prefixName : String
  keep : Int

/-- The directory of a prune. Without a backup directory that can be resolved,
an absolute path is let through. -/
def pruneDir (pol : Policy) (d : Disk) (dir : String) : Except GoError Loc :=
  match resolveBackup pol d with
  | .ok root => if within (joinText root dir) root then .ok (joinText root dir) else .error errDenied
  | .error _ => if isAbs dir then .ok (clean dir).parts else .error errDenied

/-- The backups of one prefix in a directory, oldest name first. -/
def backupsOf (d : Disk) (l : Loc) (prefixName : String) : List Name :=
  (sortedNames d l).filter fun n =>
    hasPrefix n (prefixName ++ "-") && (d.get (l ++ [n])).any Node.isFile

/-- `os.Remove` of each, without a failure. -/
def removeEach : List Loc → Sys (List Loc)
  | [] => pure []
  | p :: ps => do
    let r ← (remove p).attempt
    let rest ← removeEach ps
    pure (match r with
      | .ok () => p :: rest
      | .error _ => rest)

/-- `backupPrune`: keeps the newest `keep` backups of one prefix. -/
def backupPrune (pol : Policy) (i : PruneArgs) : Sys (List Loc) :=
  if isPrefixName i.prefixName = true ∧ 1 ≤ i.keep then do
    let dir ← ask fun d => pruneDir pol d i.dir
    match ← (askOs fun d => dirAt d dir).attempt with
    | .error (.os .noent) => pure []
    | .error e => Proc.fail e
    | .ok l =>
      let names ← ask fun d => .ok (backupsOf d l i.prefixName)
      removeEach ((names.take (names.length - i.keep.toNat)).map fun n => dir ++ [n])
  else fail "ورودی نامعتبر"

end icsd_panel.archives

-- The file requests of the agent: read, tail, list, write, abort, mkdir,
-- rename, delete and chmod. Each follows its handler step by step.
import IcsdPanel.Policy
import Mathlib.Algebra.GroupWithZero.Nat
import Mathlib.Algebra.Ring.Int.Defs
import Mathlib.Data.List.Sort

open effects

namespace icsd_panel.files

open paths disk machine policy

def maxChunk : Nat := 512 * 1024

/-- An `int64` result. -/
def wrap64 (x : Int) : Int := Int.bmod x (2 ^ 64)

/-- `ModTime().Unix()`: the time of a file in whole seconds. -/
def unix (mtime : Int) : Int := mtime / 1000000000

def checked (pol : Policy) (raw : String) (write : Bool) : Sys Loc :=
  ask fun d => check pol d raw write

def checkedEntry (pol : Policy) (raw : String) : Sys Loc := ask fun d => checkEntry pol d raw

/-! ## Reading -/

structure ReadArgs where
  path : String
  offset : Int
  length : Int

structure ReadReply where
  data : Bytes
  size : Nat
  eof : Bool
  mtime : Int
deriving DecidableEq, Repr

/-- The bytes that `f.ReadAt` gives for one chunk, and the reply. -/
def readChunk (f : FileData) (offset length : Int) : ReadReply :=
  let len := if length ≤ 0 ∨ length > maxChunk then maxChunk else length.toNat
  let data := (f.content.drop offset.toNat).take len
  { data
    size := f.content.length
    eof := f.content.length ≤ wrap64 (offset + data.length)
    mtime := unix f.mtime }

def fsRead (pol : Policy) (i : ReadArgs) : Sys ReadReply := do
  let real ← checked pol i.path false
  match ← askOs fun d => stat d real with
  | (_, .file _) =>
    let f ← readFile real
    if i.offset < 0 then fail "negative offset"
    else pure (readChunk f i.offset i.length)
  | _ => fail "فقط فایل معمولی خوانده می‌شود"

structure TailArgs where
  path : String
  lines : Int
  grep : Bytes

def newline : UInt8 := 10

/-- A line with its `\r` at the end taken off. -/
def dropCr (line : Bytes) : Bytes := if line.getLast? = some 13 then line.dropLast else line

/-- The lines that a `bufio.Scanner` with a buffer of `limit` bytes gives. It
stops at the first line that does not fit. -/
def scanLines (limit : Nat) : Bytes → Bytes → List Bytes
  | line, [] => if line = [] ∨ limit ≤ line.length then [] else [dropCr line.reverse]
  | line, b :: rest =>
    if limit ≤ line.length then []
    else if b = newline then dropCr line.reverse :: scanLines limit [] rest
    else scanLines limit (b :: line) rest

def window : Nat := 4 * 1024 * 1024

/-- `strings.Contains`. -/
def contains (t sub : Bytes) : Bool := t.tails.any fun u => sub.isPrefixOf u

/-- `tailFile`: the last `lines` lines that contain `grep`. -/
def tailLines (content : Bytes) (lines : Nat) (grep : Bytes) : List Bytes :=
  let start := content.length - window
  let all := scanLines (1024 * 1024) [] (content.drop start)
  let found := (if 0 < start then all.tail else all).filter fun t => grep = [] || contains t grep
  found.drop (found.length - lines)

def fsTail (pol : Policy) (i : TailArgs) : Sys (List Bytes × Nat) := do
  let real ← checked pol i.path false
  let lines := if i.lines ≤ 0 ∨ i.lines > 5000 then 300 else i.lines.toNat
  match ← askOs fun d => stat d real with
  | (_, .file _) =>
    let f ← readFile real
    pure (tailLines f.content lines i.grep, f.content.length)
  | _ => pure ([], 0)

/-- The entries of a directory, as `os.ReadDir` and `Info` give them. -/
structure ListReply where
  path : Loc
  entries : List (Name × Node)
  virtual : Bool
  truncated : Bool

/-- The virtual top level: the roots that are there. -/
def topLevel (pol : Policy) (cwd : Loc) (d : Disk) : List (Name × Node) :=
  let backup := if pol.backupDir.abs then pol.backupDir.parts else cwd ++ pol.backupDir.parts
  (pol.roots ++ [backup] ++ pol.readOnly).filterMap fun r =>
    match stat d r with
    | .ok (_, n) => some ("/" ++ String.intercalate "/" r, n)
    | .error _ => none

/-- The names in a directory, sorted. -/
def sortedNames (d : Disk) (l : Loc) : List Name := (d.names l).insertionSort fun a b => ¬ b < a

/-- The entries of the directory at `l`. -/
def entriesAt (d : Disk) (l : Loc) : List (Name × Node) :=
  (sortedNames d l).filterMap fun n => (d.get (l ++ [n])).map fun x => (n, x)

def listDir (pol : Policy) (path : String) : Sys ListReply := do
  let real ← checked pol path false
  let items ← askOs fun d => (dirAt d real).map (entriesAt d)
  pure ⟨real, items.take 5000, false, 5000 < items.length⟩

def fsList (pol : Policy) (path : String) : Sys ListReply :=
  if path = "" ∨ path = "/" then askEnv fun e d => ⟨[], topLevel pol e.cwd d, true, false⟩
  else listDir pol path

def fsStat (pol : Policy) (path : String) : Sys (Loc × Node) := do
  let real ← checked pol path false
  let (_, n) ← askOs fun d => lstat d real
  pure (real, n)

/-! ## Uploads -/

structure WriteArgs where
  path : String
  /-- The bytes, or nothing when the text is no base64. -/
  data : Option Bytes
  offset : Int
  final : Bool
  upload : String
  ifMtime : Int

inductive WriteReply
  | more (written : Int) (upload : Name)
  | done (path : Loc) (size : Nat) (mtime : Int)
deriving DecidableEq, Repr

/-- An upload under way: where it will go, its temporary file, and what was at
its target when the chunk arrived. -/
structure Upload where
  real : Loc
  tmp : Loc
  old : Option Node
  backup : Bool
  data : Bytes

def uploadPrefix : Name := ".icsd-upload-"

/-- `^\.icsd-upload-[0-9]+$` -/
def isUploadName (n : Name) : Bool :=
  hasPrefix n uploadPrefix &&
    (n.toList.drop 13 ≠ [] && (n.toList.drop 13).all Char.isDigit)

/-- A random name of `os.CreateTemp`. -/
def tempName (draw : Nat) : Name := uploadPrefix ++ toString draw

/-- `os.CreateTemp(dir, ".icsd-upload-*")`. -/
def createTemp (dir : Loc) : Sys Loc := act fun luck d =>
  createExcl d (dir ++ [tempName luck.draw]) ⟨[], luck.now, ⟨0o600, 0, 0⟩, true⟩

/-- `openUpload`: a temporary file of the agent, never through a link, and
only if it is still a regular file of root. -/
def findUpload (d : Disk) (dir : Loc) (name : Name) : Except GoError Loc :=
  if isUploadName name then
    match openNoFollow d (dir ++ [name]) with
    | .error _ => .error (.text "آپلود ناتمام پیدا نشد؛ از اول بفرستید")
    | .ok (l, f) =>
      if f.attr.uid = 0 then .ok l else .error (.text "فایل موقت آپلود دست‌کاری شده است")
  else .error (.text "شناسهٔ آپلود نامعتبر؛ از اول بفرستید")

def openUpload (dir : Loc) (name : Name) : Sys Loc := ask fun d => findUpload d dir name

def errNotData : GoError := .text "دادهٔ نامعتبر"

def errChunk : GoError := .text "تکهٔ بزرگ‌تر از حد"

def errSize (maxMB : Int) : GoError := .text ("بزرگ‌تر از سقف " ++ toString maxMB ++ " مگابایت")

def errIsDir : GoError := .text "این مسیر یک پوشه است"

def errChanged : GoError := .text "فایل در این فاصله روی سرور تغییر کرده است؛ دوباره باز کنید"

/-- `os.Stat` of the target: what is there, if anything. -/
def statNode (d : Disk) (p : Loc) : Option Node :=
  match stat d p with
  | .ok (_, n) => some n
  | .error _ => none

def mtimeOf : Node → Int
  | .file f => unix f.mtime
  | _ => 0

/-- The checks of `fsWrite`, up to its first change. -/
def admitWrite (pol : Policy) (d : Disk) (i : WriteArgs) : Except GoError (Loc × Bytes) :=
  match check pol d i.path true with
  | .error e => .error e
  | .ok real =>
    match i.data with
    | none => .error errNotData
    | some data =>
      if data.length > maxChunk * 2 then .error errChunk
      else if inBackupDir pol d real = false ∧
          wrap64 (i.offset + data.length) > wrap64 (pol.maxMB * 2 ^ 20) then
        .error (errSize pol.maxMB)
      else match statNode d real with
        | some (.dir _) => .error errIsDir
        | some n =>
          if i.offset = 0 ∧ i.ifMtime ≠ 0 ∧ mtimeOf n ≠ i.ifMtime then .error errChanged
          else .ok (real, data)
        | none => .ok (real, data)

/-- The temporary file of a chunk: the first chunk makes it. -/
def openTemp (dir : Loc) (i : WriteArgs) : Sys Loc :=
  if i.offset = 0 then createTemp dir else openUpload dir i.upload

/-- The first part of `fsWrite`: its checks, and the temporary file opened. -/
def openWrite (pol : Policy) (i : WriteArgs) : Sys Upload := do
  let (real, data) ← ask fun d => admitWrite pol d i
  let (old, backup) ← ask fun d => .ok (statNode d real, inBackupDir pol d real)
  let tmp ← openTemp real.dropLast i
  pure { real, tmp, old, backup, data }

/-- `os.Remove`. -/
def remove (p : Loc) : Sys Unit := act fun _ d => removeEntry d p

/-- The second part of `fsWrite`: the bytes. When the write fails the
temporary file goes. -/
def putChunk (u : Upload) (offset : Int) : Sys Unit :=
  (writeAt u.tmp offset u.data).orElseFirst (remove u.tmp)

/-- Mode and owner of a node. -/
def attrOf : Node → Attr
  | .file f => f.attr
  | .dir a => a
  | .other _ a => a
  | .link _ => ⟨0o777, 0, 0⟩

/-- Mode and owner that a finished upload gets: those of the old file, else
the owner of the directory. Dumps are for root only. -/
def finalAttr (d : Disk) (u : Upload) : Attr :=
  if u.backup then ⟨0o600, 0, 0⟩
  else match u.old with
    | some n => attrOf n
    | none =>
      match statNode d u.real.dropLast with
      | some n => { attrOf n with mode := 0o644 }
      | none => ⟨0o644, 0, 0⟩

/-- The last part of `fsWrite`: owner and mode, and the rename over the
target. -/
def finishWrite (u : Upload) : Sys WriteReply := do
  let a ← ask fun d => .ok (finalAttr d u)
  let _ ← (act fun _ d => changeAttr d u.tmp fun old => { old with mode := a.mode }).attempt
  let _ ← (act fun _ d => changeAttr d u.tmp fun old => { old with uid := a.uid, gid := a.gid }).attempt
  pause.orElseFirst (remove u.tmp)
  (act fun _ d => rename d u.tmp u.real).orElseFirst (remove u.tmp)
  match ← askOs fun d => stat d u.real with
  | (_, .file f) => pure (.done u.real f.content.length (unix f.mtime))
  | _ => pure (.done u.real 0 0)

/-- `fsWrite`, its checks done and its temporary file open. -/
def writeChunk (i : WriteArgs) (u : Upload) : Sys WriteReply := do
  putChunk u i.offset
  if i.final then finishWrite u
  else
    pause
    pure (.more (wrap64 (i.offset + u.data.length)) (u.tmp.getLast?.getD ""))

/-- A chunk of an upload. -/
def fsWrite (pol : Policy) (i : WriteArgs) : Sys WriteReply := do
  let u ← openWrite pol i
  writeChunk i u

structure AbortArgs where
  path : String
  upload : String

def fsAbort (pol : Policy) (i : AbortArgs) : Sys Bool := do
  let real ← checked pol i.path true
  match ← (openUpload real.dropLast i.upload).attempt with
  | .error _ => pure false
  | .ok _ =>
    match ← (remove (real.dropLast ++ [i.upload])).attempt with
    | .ok () => pure true
    | .error _ => pure false

/-! ## Directories and entries -/

/-- `chownLikeParent`: its own failure is dropped. -/
def chownLikeParent (p : Loc) : Sys Unit := do
  match ← ask fun d => .ok (statNode d p.dropLast) with
  | none => pure ()
  | some n =>
    let _ ← (act fun _ d => lchown d p (attrOf n).uid (attrOf n).gid).attempt
    pure ()

structure MkdirArgs where
  path : String
  parents : Bool

def fsMkdir (pol : Policy) (i : MkdirArgs) : Sys Loc := do
  let real ← checked pol i.path true
  if i.parents then
    let backup ← ask fun d => .ok (inBackupDir pol d real)
    mkdirAll real (if backup then 0o700 else 0o755)
    pure real
  else
    act fun _ d => mkdir d real ⟨0o755, 0, 0⟩
    chownLikeParent real
    pure real

structure RenameArgs where
  src : String
  dst : String

/-- The checks of `fsRename`. -/
def admitRename (pol : Policy) (d : Disk) (i : RenameArgs) : Except GoError (Loc × Loc) :=
  match checkEntry pol d i.src with
  | .error e => .error e
  | .ok src =>
    match checkEntry pol d i.dst with
    | .error e => .error e
    | .ok dst =>
      if isRoot pol d src then .error (.text "پوشه‌های اصلی را نمی‌شود جابه‌جا کرد")
      else match lstat d dst with
        | .ok _ => .error (.text "مقصد از قبل وجود دارد")
        | .error _ => .ok (src, dst)

def fsRename (pol : Policy) (i : RenameArgs) : Sys Loc := do
  let (src, dst) ← ask fun d => admitRename pol d i
  act fun _ d => rename d src dst
  pure dst

/-- One path of `fsDelete`. -/
def deleteOne (pol : Policy) (p : String) : Sys Loc := do
  let real ← checkedEntry pol p
  if ← ask fun d => .ok (isRoot pol d real) then fail "پوشه‌های اصلی را نمی‌شود حذف کرد"
  else
    removeAll real
    pure real

def fsDelete (pol : Policy) (paths : List String) : Sys (List Loc) := Proc.each (deleteOne pol) paths

structure ChmodArgs where
  path : String
  mode : String

/-- `strconv.ParseUint(mode, 8, 32)` with at most `0o777`. -/
def parseMode (s : String) : Option Nat :=
  if s = "" ∨ s.toList.any fun c => c < '0' || '7' < c then none
  else
    let m := s.toList.foldl (fun n c => n * 8 + (c.toNat - '0'.toNat)) 0
    if m ≤ 0o777 then some m else none

def fsChmod (pol : Policy) (i : ChmodArgs) : Sys (Loc × Nat) := do
  let real ← checked pol i.path true
  match parseMode i.mode with
  | none => fail "دسترسی نامعتبر (مثل 644 یا 755)"
  | some m =>
    act fun _ d => chmod d real m
    pure (real, m)

end icsd_panel.files

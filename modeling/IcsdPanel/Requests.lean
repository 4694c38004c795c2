-- The `fs.*` requests of the agent, and the agent that serves them. A job
-- that a request starts runs to its end before the next request.
import IcsdPanel.Archives
import IcsdPanel.Growth

open effects

namespace icsd_panel.requests

open paths disk machine policy files archives

/-- A request from the hub. `malformed` has arguments that do not decode. -/
inductive Request
  | list (path : String)
  | stat (path : String)
  | read (i : ReadArgs)
  | tail (i : TailArgs)
  | write (i : WriteArgs)
  | abort (i : AbortArgs)
  | mkdir (i : MkdirArgs)
  | rename (i : RenameArgs)
  | delete (paths : List String)
  | chmod (i : ChmodArgs)
  | archive (i : ArchiveArgs)
  | extract (i : ExtractArgs)
  | malformed

inductive Reply
  | listing (r : ListReply)
  | entry (path : Loc) (n : Node)
  | chunk (r : ReadReply)
  | lines (ls : List Bytes) (size : Nat)
  | write (r : WriteReply)
  | removed (b : Bool)
  | path (p : Loc)
  | deleted (ps : List Loc)
  | mode (p : Loc) (m : Nat)
  | job

/-- `Runner.Handle` of a file request, with the job that it starts. -/
def handle (c : Codec) (pol : Policy) : Request → Sys Reply
  | .list path => do return .listing (← fsList pol path)
  | .stat path => do
    let (p, n) ← fsStat pol path
    pure (.entry p n)
  | .read i => do return .chunk (← fsRead pol i)
  | .tail i => do
    let (ls, size) ← fsTail pol i
    pure (.lines ls size)
  | .write i => do return .write (← fsWrite pol i)
  | .abort i => do return .removed (← fsAbort pol i)
  | .mkdir i => do return .path (← fsMkdir pol i)
  | .rename i => do return .path (← fsRename pol i)
  | .delete paths => do return .deleted (← fsDelete pol paths)
  | .chmod i => do
    let (p, m) ← fsChmod pol i
    pure (.mode p m)
  | .archive i => do
    let (srcs, dest) ← fsArchive pol i
    let _ ← (archiveJob c srcs dest).attempt
    pure .job
  | .extract i => do
    let (src, dest) ← fsExtract pol i
    let _ ← (extractJob c pol src dest).attempt
    pure .job
  | .malformed => fail "ورودی نامعتبر"

/-- What the agent did for one request on the disk `d`. -/
def served (c : Codec) (pol : Policy) (d : Disk) (er : Env × Request) : World :=
  (handle c pol er.2 er.1 (World.start d)).2

/-- The disk that the next request finds. -/
def next (c : Codec) (pol : Policy) (d : Disk) (er : Env × Request) : Disk := (served c pol d er).disk

end icsd_panel.requests

-- Samples of an agent: what `clean_sample` makes of a JSON object, and which
-- objects it, `point_of` and `ingest` can read.
import IcsdPanel.Live
import IcsdPanel.Objects
import Mathlib.Algebra.Order.Ring.Rat

open objects

namespace icsd_panel.samples

/-! ## Floats -/

def maxDouble : ℚ := 2 ^ 1024 - 2 ^ 971

/-- What is nearer to the next power of two than to the largest double. -/
def overflowAt : ℚ := 2 ^ 1024 - 2 ^ 970

structure Double where
  value : ℚ
  lower : -maxDouble ≤ value
  upper : value ≤ maxDouble

abbrev Number := PyFloat Double

abbrev Val := Value Double

/-- What Python does with numbers and texts: the nearest double, `float` of a
string (`none` is a `ValueError`), and `str` of what is no string. -/
structure Runtime where
  near : ℚ → Double
  ofStr : Text → Option Number
  strOf : Val → List Nat

variable (rt : Runtime)

def inRange (q : ℚ) : Prop := -overflowAt < q ∧ q < overflowAt

instance (q : ℚ) : Decidable (inRange q) := inferInstanceAs (Decidable (_ ∧ _))

/-- `float(n)` -/
def Runtime.ofInt (n : Int) : Except Raised Number :=
  if inRange n then .ok (.fin (rt.near n)) else .error .overflowError

/-- `n / 1000` of an integer. -/
def Runtime.thousandth (n : Int) : Except Raised ℚ :=
  if inRange (n / 1000 : ℚ) then .ok (rt.near (n / 1000)).value else .error .overflowError

/-- `q * 1000` -/
def Runtime.times1000 (q : ℚ) : Number :=
  if inRange (q * 1000) then .fin (rt.near (q * 1000)) else .inf (q < 0)

/-- `int(x)` -/
def toInt : Number → Except Raised Int
  | .fin d => .ok (alerts.truncate d.value)
  | .nan => .error .valueError
  | .inf _ => .error .overflowError

theorem pow971_lt : (2 : ℚ) ^ 971 < 2 ^ 1024 := pow_lt_pow_right₀ (by norm_num) (by norm_num)

theorem maxDouble_pos : 0 < maxDouble := sub_pos.mpr pow971_lt

def zero : Double := ⟨0, neg_nonpos.mpr maxDouble_pos.le, maxDouble_pos.le⟩

/-- `a > b` -/
def greater : Number → Number → Bool
  | .fin a, .fin b => b.value < a.value
  | .inf false, .fin _ => true
  | .inf false, .inf true => true
  | .fin _, .inf true => true
  | _, _ => false

/-! ## `clean_sample` -/

def truthy : Val → Bool
  | .none => false
  | .bool b => b
  | .int n => n ≠ 0
  | .float (.fin d) => d.value ≠ 0
  | .float _ => true
  | .str s => s.points ≠ []
  | .list xs => !xs.isEmpty
  | .dict fields => !fields.isEmpty

abbrev Fields := List (Text × Val)

/-- `float(v)` -/
def Runtime.float : Val → Except Raised Number
  | .bool b => rt.ofInt (if b then 1 else 0)
  | .int n => rt.ofInt n
  | .float x => .ok x
  | .str s => match rt.ofStr s with
    | some x => .ok x
    | none => .error .valueError
  | .none | .list _ | .dict _ => .error .typeError

/-- `_f` -/
def f (v : Val) : Except Raised Number :=
  match rt.float v with
  | .error .typeError | .error .valueError => .ok (.fin zero)
  | .error e => .error e
  | .ok x => .ok (if x.isFinite then x else .fin zero)

/-- `_s` -/
def s (v : Val) (n : Nat) : List Nat :=
  match v with
  | .none => []
  | .str t => t.points.take n
  | v => (rt.strOf v).take n

/-- `v or {}` -/
def orDict (v : Val) : Val := if truthy v then v else .dict []

/-- `v.get(k)` -/
def getOf (v : Val) (k : String) : Except Raised Val :=
  match v with
  | .dict fields => .ok (lookup fields k)
  | _ => .error .attributeError

/-- `{k: _f(v.get(k)) for k in keys}` -/
def numbersOf (v : Val) (keys : List String) : Except Raised (List (String × Number)) :=
  keys.mapM fun k => do return (k, ← f rt (← getOf v k))

theorem joined_single (n : Nat) : joined [n] = true := rfl

/-- `list(v)`: a string gives its characters, a dict its keys. -/
def listOf : Val → Except Raised (List Val)
  | .list xs => .ok xs
  | .str t => .ok (t.points.attach.map fun n => .str ⟨[n.1], by simpa using t.below n.1 n.2, joined_single n.1⟩)
  | .dict fields => .ok (fields.map fun e => .str e.1)
  | _ => .error .typeError

structure Disk where
  mount : List Nat
  device : List Nat
  fs : List Nat
  total : Number
  used : Number
  free : Number
  pct : Number
  inodesPct : Number

structure Process where
  pid : Int
  name : List Nat
  user : List Nat
  cpu : Number
  rss : Number

structure Container where
  id : List Nat
  name : List Nat
  image : List Nat
  state : List Nat
  health : List Nat
  status : List Nat
  cpu : Number
  mem : Number

structure Sample where
  ts : Int
  cpu : List (String × Number)
  load : List Number
  mem : List (String × Number)
  io : List (String × Number)
  net : List (String × Number)
  tcp : Int
  procs : Int
  uptime : Int
  disks : Option (List Disk)
  top : Option (List Process)
  containers : Option (List Container)
  dockerErr : Option (List Nat)

def cpuKeys : List String := ["pct", "user", "system", "iowait", "steal"]

def memKeys : List String :=
  ["total", "used", "available", "cached", "pct", "swap_total", "swap_used", "swap_pct"]

def ioKeys : List String := ["read_bps", "write_bps"]

def netKeys : List String := ["rx_bps", "tx_bps"]

def maxDisks : Nat := 64

def maxTop : Nat := 32

def maxContainers : Nat := 500

/-- The dicts among the first items of a list. -/
def dictsOf (n : Nat) (xs : List Val) : List Fields :=
  (xs.take n).filterMap fun
    | .dict fields => some fields
    | _ => none

def diskOf (d : Fields) : Except Raised Disk := do
  return {
    mount := s rt (lookup d "mount") 200, device := s rt (lookup d "device") 200, fs := s rt (lookup d "fs") 20
    total := ← f rt (lookup d "total"), used := ← f rt (lookup d "used"), free := ← f rt (lookup d "free")
    pct := ← f rt (lookup d "pct"), inodesPct := ← f rt (lookup d "inodes_pct") }

def processOf (p : Fields) : Except Raised Process := do
  return {
    pid := ← toInt (← f rt (lookup p "pid")), name := s rt (lookup p "name") 64, user := s rt (lookup p "user") 32
    cpu := ← f rt (lookup p "cpu"), rss := ← f rt (lookup p "rss") }

def containerOf (c : Fields) : Except Raised Container := do
  return {
    id := s rt (lookup c "id") 64, name := s rt (lookup c "name") 128, image := s rt (lookup c "image") 200
    state := s rt (lookup c "state") 20, health := s rt (lookup c "health") 20
    status := s rt (lookup c "status") 100, cpu := ← f rt (lookup c "cpu"), mem := ← f rt (lookup c "mem") }

/-- The part of a sample that is a list of dicts, where the key has a list. -/
def listPart {α : Type} (raw : Fields) (k : String) (n : Nat) (g : Fields → Except Raised α) :
    Except Raised (Option (List α)) :=
  match lookup raw k with
  | .list xs => some <$> (dictsOf n xs).mapM g
  | _ => .ok none

/-- `int(_f(raw.get(k)))` -/
def intAt (raw : Fields) (k : String) : Except Raised Int := do toInt (← f rt (lookup raw k))

/-- `raw.get("load") or [0, 0, 0]` -/
def orZeros (v : Val) : Val := if truthy v then v else .list [.int 0, .int 0, .int 0]

/-- `[_f(v) for v in list(load)[:3]]` -/
def loadOf (v : Val) : Except Raised (List Number) := do ((← listOf v).take 3).mapM (f rt)

def cleanSample (raw : Fields) : Except Raised Sample := do
  let ts ← intAt rt raw "ts"
  let cpu ← numbersOf rt (orDict (lookup raw "cpu")) cpuKeys
  let load ← loadOf rt (orZeros (lookup raw "load"))
  let mem ← numbersOf rt (orDict (lookup raw "mem")) memKeys
  let io ← numbersOf rt (orDict (lookup raw "io")) ioKeys
  let net ← numbersOf rt (orDict (lookup raw "net")) netKeys
  let tcp ← intAt rt raw "tcp"
  let procs ← intAt rt raw "procs"
  let uptime ← intAt rt raw "uptime"
  let disks ← listPart raw "disks" maxDisks (diskOf rt)
  let top ← listPart raw "top" maxTop (processOf rt)
  let containers ← listPart raw "containers" maxContainers (containerOf rt)
  let dockerErr := lookup raw "docker_err"
  return {
    ts, cpu, load := load ++ List.replicate (3 - load.length) (.fin zero), mem, io, net, tcp, procs, uptime
    disks, top, containers
    dockerErr := if truthy dockerErr then some (s rt dockerErr 200) else none }

/-! ## `point_of` and `ingest` -/

/-- `d[k]` -/
def item (d : List (String × Number)) (k : String) : Except Raised Number :=
  match d.find? fun e => e.1 = k with
  | some e => .ok e.2
  | none => .error .keyError

/-- `xs[0]` -/
def firstOf : List Number → Except Raised Number
  | x :: _ => .ok x
  | [] => .error .indexError

/-- `max(…, default=0.0)` -/
def maxOf : List Number → Number
  | [] => .fin zero
  | x :: xs => xs.foldl (fun m y => if greater y m then y else m) x

def pointOf (s : Sample) : Except Raised (List Number) := do
  return [← item s.cpu "pct", ← item s.cpu "iowait", ← item s.cpu "steal", ← item s.mem "pct",
    ← item s.mem "swap_pct", ← firstOf s.load, maxOf ((s.disks.getD []).map Disk.pct), ← item s.net "rx_bps",
    ← item s.net "tx_bps", ← item s.io "read_bps", ← item s.io "write_bps", ← rt.ofInt s.tcp]

/-- The clock of the hub. -/
structure Clock where
  now : ℚ
  nonneg : 0 ≤ now
  bound : now ≤ 2 ^ 60

def has (raw : Fields) (k : String) : Bool := raw.any fun e => e.1.points = points k

/-- The slow parts of the last sample, where it had them. -/
def keep (last : Option Sample) (s : Sample) : Sample :=
  match last with
  | none => s
  | some l => { s with
      disks := l.disks.or s.disks, top := l.top.or s.top, containers := l.containers.or s.containers
      dockerErr := l.dockerErr.or s.dockerErr }

/-- `s["ts"] / 1000 if s["ts"] else now` -/
def Runtime.seconds (now : Clock) (ts : Int) : Except Raised ℚ :=
  if ts ≠ 0 then rt.thousandth ts else .ok now.now

/-- `ingest`: the snapshot, and the time and the point that are summed up. -/
def ingest (now : Clock) (last : Option Sample) (raw : Fields) : Except Raised (Sample × Int × List Number) := do
  let s ← cleanSample rt raw
  let ts ← rt.seconds now s.ts
  let ts := if now.now + 60 < ts ∨ ts < now.now - 900 then now.now else ts
  let s := { s with ts := ← toInt (rt.times1000 ts) }
  let s := if has raw "disks" || has raw "top" then s else keep last s
  let p ← pointOf rt s
  return (s, alerts.truncate ts, p)

/-! ## What can be read -/

/-- An integer that is no float. -/
def Huge (v : Val) : Prop := ∃ n : Int, v = .int n ∧ ¬ inRange n

/-- A dict, or what counts as none. -/
def Dictlike (v : Val) : Prop := truthy v = false ∨ ∃ fields, v = .dict fields

/-- A list, a string or a dict, or what counts as none. -/
def Listlike (v : Val) : Prop :=
  truthy v = false ∨ (∃ xs, v = .list xs) ∨ (∃ t, v = .str t) ∨ ∃ fields, v = .dict fields

def fieldsOf (v : Val) : Fields :=
  match orDict v with
  | .dict fields => fields
  | _ => []

def itemsOf (v : Val) : List Val :=
  match listOf (orZeros v) with
  | .ok xs => xs
  | .error _ => []

def partOf (raw : Fields) (k : String) (n : Nat) : List Fields :=
  match lookup raw k with
  | .list xs => dictsOf n xs
  | _ => []

def diskKeys : List String := ["total", "used", "free", "pct", "inodes_pct"]

def processKeys : List String := ["pid", "cpu", "rss"]

def containerKeys : List String := ["cpu", "mem"]

/-- The values that `_f` gets. -/
def reads (raw : Fields) : List Val :=
  ["ts", "tcp", "procs", "uptime"].map (lookup raw) ++
  cpuKeys.map (lookup (fieldsOf (lookup raw "cpu"))) ++
  (itemsOf (lookup raw "load")).take 3 ++
  memKeys.map (lookup (fieldsOf (lookup raw "mem"))) ++
  ioKeys.map (lookup (fieldsOf (lookup raw "io"))) ++
  netKeys.map (lookup (fieldsOf (lookup raw "net"))) ++
  (partOf raw "disks" maxDisks).flatMap (fun d => diskKeys.map (lookup d)) ++
  (partOf raw "top" maxTop).flatMap (fun p => processKeys.map (lookup p)) ++
  (partOf raw "containers" maxContainers).flatMap (fun c => containerKeys.map (lookup c))

/-- The parts are of the types that `clean_sample` reads, and no integer in them
is too large for a float. -/
structure Readable (raw : Fields) : Prop where
  cpu : Dictlike (lookup raw "cpu")
  mem : Dictlike (lookup raw "mem")
  io : Dictlike (lookup raw "io")
  net : Dictlike (lookup raw "net")
  load : Listlike (lookup raw "load")
  numbers : ∀ v ∈ reads raw, ¬ Huge v

/-! ## What returns -/

theorem overflowAt_gt : 2 ^ 970 < overflowAt := by
  have h : (2 : ℚ) ^ 970 + 2 ^ 970 < 2 ^ 1024 := by
    rw [← two_mul, ← pow_succ']
    exact pow_lt_pow_right₀ (by norm_num) (by norm_num)
  exact lt_sub_iff_add_lt.mpr h

theorem inRange_of_le {q : ℚ} (h : -2 ^ 970 ≤ q) (h' : q ≤ 2 ^ 970) : inRange q :=
  ⟨(neg_lt_neg overflowAt_gt).trans_le h, h'.trans_lt overflowAt_gt⟩

theorem inRange_small {q : ℚ} (h : -2 ^ 100 ≤ q) (h' : q ≤ 2 ^ 100) : inRange q := by
  have hpow : (2 : ℚ) ^ 100 ≤ 2 ^ 970 := pow_le_pow_right₀ (by norm_num) (by norm_num)
  exact inRange_of_le ((neg_le_neg hpow).trans h) (h'.trans hpow)

theorem ofInt_ok {n : Int} (h : inRange n) : rt.ofInt n = .ok (.fin (rt.near n)) := if_pos h

theorem f_of_ok {v : Val} {x : Number} (h : rt.float v = .ok x) : Returns (f rt v) := by
  unfold f
  rw [h]
  exact ⟨_, rfl⟩

theorem f_of_error {v : Val} {e : Raised} (h : rt.float v = .error e) :
    Returns (f rt v) ↔ e = .typeError ∨ e = .valueError := by
  unfold f
  rw [h]
  cases e <;> simp

theorem f_returns (v : Val) : Returns (f rt v) ↔ ¬ Huge v := by
  have hno : ∀ w : Val, (∀ n, w ≠ .int n) → ¬ Huge w := by
    rintro w hw ⟨n, rfl, -⟩
    exact hw n rfl
  cases v with
  | int n =>
    by_cases hn : inRange n
    · refine iff_of_true (f_of_ok rt (ofInt_ok rt hn)) ?_
      rintro ⟨m, hm, hhuge⟩
      cases hm
      exact hhuge hn
    · have herror : rt.float (.int n) = .error .overflowError := if_neg hn
      rw [f_of_error rt herror]
      exact iff_of_false (by simp) (not_not_intro ⟨n, rfl, hn⟩)
  | bool b =>
    have hsmall : inRange ((if b then 1 else 0 : Int) : ℚ) := by
      cases b <;> exact inRange_small (by norm_num) (by norm_num)
    exact iff_of_true (f_of_ok rt (ofInt_ok rt hsmall)) (hno _ fun n => by simp)
  | float x => exact iff_of_true (f_of_ok rt rfl) (hno _ fun n => by simp)
  | none | list xs | dict fields =>
    refine iff_of_true ((f_of_error rt (e := .typeError) rfl).mpr (.inl rfl)) (hno _ fun n => by simp)
  | str t =>
    refine iff_of_true ?_ (hno _ fun n => by simp)
    cases ht : rt.ofStr t with
    | some x => exact f_of_ok rt (x := x) (by simp [Runtime.float, ht])
    | none => exact (f_of_error rt (e := .valueError) (by simp [Runtime.float, ht])).mpr (.inr rfl)

theorem f_finite {v : Val} {x : Number} (h : f rt v = .ok x) : ∃ d, x = .fin d := by
  unfold f at h
  split at h
  · exact ⟨zero, (Except.ok.inj h).symm⟩
  · exact ⟨zero, (Except.ok.inj h).symm⟩
  · cases h
  · next y _ =>
    cases y with
    | fin d => exact ⟨d, (Except.ok.inj h).symm⟩
    | nan => exact ⟨zero, (Except.ok.inj h).symm⟩
    | inf b => exact ⟨zero, (Except.ok.inj h).symm⟩

theorem intAt_returns (raw : Fields) (k : String) : Returns (intAt rt raw k) ↔ ¬ Huge (lookup raw k) := by
  unfold intAt
  rw [returns_bind_iff (p := True), f_returns, and_true]
  intro x hx
  obtain ⟨d, rfl⟩ := f_finite rt hx
  simp [toInt]

theorem getOf_orDict {v : Val} {k : String} : Returns (getOf (orDict v) k) ↔ Dictlike v := by
  unfold orDict Dictlike
  by_cases hv : truthy v = true
  · rw [if_pos hv]
    cases v <;> simp [getOf, hv]
  · rw [if_neg hv]
    simp [getOf, hv]

theorem numbersOf_returns {v : Val} {k : String} {ks : List String} :
    Returns (numbersOf rt (orDict v) (k :: ks)) ↔
      Dictlike v ∧ ∀ x ∈ (k :: ks).map (lookup (fieldsOf v)), ¬ Huge x := by
  have hget : ∀ j x, getOf (orDict v) j = .ok x → x = lookup (fieldsOf v) j := by
    intro j x hx
    unfold fieldsOf
    cases ho : orDict v <;> rw [ho] at hx <;> cases hx
    rfl
  have hone : ∀ j, Returns (do return (j, ← f rt (← getOf (orDict v) j)) : Except Raised (String × Number)) ↔
      Dictlike v ∧ ¬ Huge (lookup (fieldsOf v) j) := by
    intro j
    rw [returns_bind_iff (p := ¬ Huge (lookup (fieldsOf v) j)), getOf_orDict]
    intro x hx
    rw [returns_bind_iff (p := True) fun y _ => by simp, f_returns, and_true, hget j x hx]
  unfold numbersOf
  rw [returns_mapM, List.forall_mem_map]
  constructor
  · intro h
    exact ⟨((hone k).mp (h k List.mem_cons_self)).1, fun j hj => ((hone j).mp (h j hj)).2⟩
  · rintro ⟨hd, h⟩ j hj
    exact (hone j).mpr ⟨hd, h j hj⟩

theorem listOf_returns (v : Val) : Returns (listOf (orZeros v)) ↔ Listlike v := by
  unfold orZeros Listlike
  by_cases hv : truthy v = true
  · rw [if_pos hv]
    cases v <;> simp [listOf, hv]
  · rw [if_neg hv]
    simp [listOf, hv]

theorem loadOf_returns (v : Val) :
    Returns (loadOf rt (orZeros v)) ↔ Listlike v ∧ ∀ x ∈ (itemsOf v).take 3, ¬ Huge x := by
  unfold loadOf
  rw [returns_bind_iff (p := ∀ x ∈ (itemsOf v).take 3, ¬ Huge x), listOf_returns]
  intro xs hxs
  have hitems : itemsOf v = xs := by
    unfold itemsOf
    rw [hxs]
  rw [hitems, returns_mapM]
  exact forall₂_congr fun x _ => f_returns rt x

theorem diskOf_returns (d : Fields) : Returns (diskOf rt d) ↔ ∀ x ∈ diskKeys.map (lookup d), ¬ Huge x := by
  have hcall : ∀ k, Returns (f rt (lookup d k)) ↔ ¬ Huge (lookup d k) := fun k => f_returns rt _
  unfold diskOf
  rw [returns_bind_iff fun _ _ => returns_bind_iff fun _ _ => returns_bind_iff fun _ _ => returns_bind_iff fun _ _ =>
    returns_bind_iff (p := True) fun _ _ => by simp]
  simp [hcall, diskKeys]

theorem processOf_returns (d : Fields) : Returns (processOf rt d) ↔ ∀ x ∈ processKeys.map (lookup d), ¬ Huge x := by
  have hcall : ∀ k, Returns (f rt (lookup d k)) ↔ ¬ Huge (lookup d k) := fun k => f_returns rt _
  unfold processOf
  rw [returns_bind_iff (p := ¬ Huge (lookup d "cpu") ∧ ¬ Huge (lookup d "rss"))]
  · simp [hcall, processKeys]
  · intro x hx
    obtain ⟨y, rfl⟩ := f_finite rt hx
    rw [returns_bind_iff fun _ _ => returns_bind_iff fun _ _ => returns_bind_iff (p := True) fun _ _ => by simp]
    simp [hcall, toInt]

theorem containerOf_returns (d : Fields) :
    Returns (containerOf rt d) ↔ ∀ x ∈ containerKeys.map (lookup d), ¬ Huge x := by
  have hcall : ∀ k, Returns (f rt (lookup d k)) ↔ ¬ Huge (lookup d k) := fun k => f_returns rt _
  unfold containerOf
  rw [returns_bind_iff fun _ _ => returns_bind_iff (p := True) fun _ _ => by simp]
  simp [hcall, containerKeys]

theorem listPart_returns {α : Type} {raw : Fields} {k : String} {n : Nat} {g : Fields → Except Raised α}
    {keys : List String} (hg : ∀ d, Returns (g d) ↔ ∀ x ∈ keys.map (lookup d), ¬ Huge x) :
    Returns (listPart raw k n g) ↔ ∀ x ∈ (partOf raw k n).flatMap (fun d => keys.map (lookup d)), ¬ Huge x := by
  have hall : ∀ ds : List Fields, Returns (ds.mapM g) ↔
      ∀ x ∈ ds.flatMap (fun d => keys.map (lookup d)), ¬ Huge x := by
    intro ds
    rw [returns_mapM]
    constructor
    · intro h x hx
      obtain ⟨d, hd, hx⟩ := List.mem_flatMap.mp hx
      exact (hg d).mp (h d hd) x hx
    · intro h d hd
      exact (hg d).mpr fun x hx => h x (List.mem_flatMap.mpr ⟨d, hd, hx⟩)
  unfold listPart partOf
  cases lookup raw k with
  | list xs =>
    rw [returns_map]
    exact hall _
  | none | bool _ | int _ | float _ | str _ | dict _ => simp

/-- `clean_sample` returns for what can be read, and only for that. -/
theorem cleanSample_returns (raw : Fields) : Returns (cleanSample rt raw) ↔ Readable raw := by
  unfold cleanSample
  rw [returns_bind_iff fun _ _ => returns_bind_iff fun _ _ => returns_bind_iff fun _ _ => returns_bind_iff fun _ _ =>
    returns_bind_iff fun _ _ => returns_bind_iff fun _ _ => returns_bind_iff fun _ _ => returns_bind_iff fun _ _ =>
    returns_bind_iff fun _ _ => returns_bind_iff fun _ _ => returns_bind_iff fun _ _ =>
    returns_bind_iff (p := True) fun _ _ => by simp]
  rw [intAt_returns, intAt_returns, intAt_returns, intAt_returns, cpuKeys, memKeys, ioKeys, netKeys,
    numbersOf_returns, numbersOf_returns, numbersOf_returns, numbersOf_returns, loadOf_returns,
    listPart_returns (diskOf_returns rt), listPart_returns (processOf_returns rt),
    listPart_returns (containerOf_returns rt)]
  constructor
  · rintro ⟨hts, ⟨hcpu, hcpus⟩, ⟨hload, hloads⟩, ⟨hmem, hmems⟩, ⟨hio, hios⟩, ⟨hnet, hnets⟩, htcp, hprocs, huptime,
      hdisks, htop, hcontainers, -⟩
    refine ⟨hcpu, hmem, hio, hnet, hload, ?_⟩
    simp only [reads, cpuKeys, memKeys, ioKeys, netKeys, List.forall_mem_append]
    refine ⟨⟨⟨⟨⟨⟨⟨⟨?_, hcpus⟩, hloads⟩, hmems⟩, hios⟩, hnets⟩, hdisks⟩, htop⟩, hcontainers⟩
    simp [hts, htcp, hprocs, huptime]
  · rintro ⟨hcpu, hmem, hio, hnet, hload, hall⟩
    simp only [reads, cpuKeys, memKeys, ioKeys, netKeys, List.forall_mem_append] at hall
    obtain ⟨⟨⟨⟨⟨⟨⟨⟨hints, hcpus⟩, hloads⟩, hmems⟩, hios⟩, hnets⟩, hdisks⟩, htop⟩, hcontainers⟩ := hall
    have hint : ∀ k ∈ ["ts", "tcp", "procs", "uptime"], ¬ Huge (lookup raw k) :=
      fun k hk => hints _ (List.mem_map_of_mem hk)
    exact ⟨hint _ (by simp), ⟨hcpu, hcpus⟩, ⟨hload, hloads⟩, ⟨hmem, hmems⟩, ⟨hio, hios⟩, ⟨hnet, hnets⟩,
      hint _ (by simp), hint _ (by simp), hint _ (by simp), hdisks, htop, hcontainers, trivial⟩

/-! ## What a cleaned sample is -/

def Disk.numbers (d : Disk) : List Number := [d.total, d.used, d.free, d.pct, d.inodesPct]

def Process.numbers (p : Process) : List Number := [p.cpu, p.rss]

def Container.numbers (c : Container) : List Number := [c.cpu, c.mem]

/-- The strings of a disk with their caps. -/
def Disk.strings (d : Disk) : List (List Nat × Nat) := [(d.mount, 200), (d.device, 200), (d.fs, 20)]

def Process.strings (p : Process) : List (List Nat × Nat) := [(p.name, 64), (p.user, 32)]

def Container.strings (c : Container) : List (List Nat × Nat) :=
  [(c.id, 64), (c.name, 128), (c.image, 200), (c.state, 20), (c.health, 20), (c.status, 100)]

def Sample.numbers (s : Sample) : List Number :=
  s.cpu.map Prod.snd ++ s.load ++ s.mem.map Prod.snd ++ s.io.map Prod.snd ++ s.net.map Prod.snd ++
  (s.disks.getD []).flatMap Disk.numbers ++ (s.top.getD []).flatMap Process.numbers ++
  (s.containers.getD []).flatMap Container.numbers

def Sample.strings (s : Sample) : List (List Nat × Nat) :=
  (s.disks.getD []).flatMap Disk.strings ++ (s.top.getD []).flatMap Process.strings ++
  (s.containers.getD []).flatMap Container.strings ++ s.dockerErr.toList.map fun e => (e, 200)

/-- The numbers are finite, the strings and the lists within their caps. -/
structure Tame (s : Sample) : Prop where
  numbers : ∀ x ∈ s.numbers, x.isFinite = true
  strings : ∀ p ∈ s.strings, p.1.length ≤ p.2
  load : s.load.length = 3
  disks : (s.disks.getD []).length ≤ maxDisks
  top : (s.top.getD []).length ≤ maxTop
  containers : (s.containers.getD []).length ≤ maxContainers

theorem finite_of_ok {v : Val} {x : Number} (h : f rt v = .ok x) : x.isFinite = true := by
  obtain ⟨d, rfl⟩ := f_finite rt h
  rfl

theorem s_length (v : Val) (n : Nat) : (samples.s rt v n).length ≤ n := by
  unfold samples.s
  split
  · exact Nat.zero_le n
  · exact List.length_take_le _ _
  · exact List.length_take_le _ _

/-- The numbers of a part are under its keys. -/
theorem numbersOf_ok {v : Val} {keys : List String} {ps : List (String × Number)}
    (h : numbersOf rt v keys = .ok ps) : ps.map Prod.fst = keys ∧ ∀ x ∈ ps.map Prod.snd, x.isFinite = true := by
  unfold numbersOf at h
  induction keys generalizing ps with
  | nil =>
    cases h
    exact ⟨rfl, fun x hx => absurd hx List.not_mem_nil⟩
  | cons k keys ih =>
    rw [mapM_cons] at h
    obtain ⟨p, hp, h⟩ := bind_ok h
    obtain ⟨qs, hqs, h⟩ := bind_ok h
    cases h
    obtain ⟨y, -, hp⟩ := bind_ok hp
    obtain ⟨x, hx, hp⟩ := bind_ok hp
    cases hp
    obtain ⟨hkeys, hfinite⟩ := ih hqs
    refine ⟨by rw [List.map_cons, hkeys], ?_⟩
    rw [List.map_cons, List.forall_mem_cons]
    exact ⟨finite_of_ok rt hx, hfinite⟩

theorem loadOf_ok {v : Val} {l : List Number} (h : loadOf rt v = .ok l) :
    l.length ≤ 3 ∧ ∀ x ∈ l, x.isFinite = true := by
  obtain ⟨xs, -, h⟩ := bind_ok h
  obtain ⟨hlen, hall⟩ := of_mapM_ok h
  refine ⟨hlen ▸ List.length_take_le 3 xs, ?_⟩
  intro x hx
  obtain ⟨v, -, hv⟩ := hall x hx
  exact finite_of_ok rt hv

theorem diskOf_ok {fields : Fields} {d : Disk} (h : diskOf rt fields = .ok d) :
    (∀ x ∈ d.numbers, x.isFinite = true) ∧ ∀ p ∈ d.strings, p.1.length ≤ p.2 := by
  obtain ⟨x1, h1, h⟩ := bind_ok h
  obtain ⟨x2, h2, h⟩ := bind_ok h
  obtain ⟨x3, h3, h⟩ := bind_ok h
  obtain ⟨x4, h4, h⟩ := bind_ok h
  obtain ⟨x5, h5, h⟩ := bind_ok h
  cases h
  simp [Disk.numbers, Disk.strings, s_length, finite_of_ok rt h1, finite_of_ok rt h2, finite_of_ok rt h3,
    finite_of_ok rt h4, finite_of_ok rt h5]

theorem processOf_ok {fields : Fields} {p : Process} (h : processOf rt fields = .ok p) :
    (∀ x ∈ p.numbers, x.isFinite = true) ∧ ∀ q ∈ p.strings, q.1.length ≤ q.2 := by
  obtain ⟨x1, -, h⟩ := bind_ok h
  obtain ⟨pid, -, h⟩ := bind_ok h
  obtain ⟨x2, h2, h⟩ := bind_ok h
  obtain ⟨x3, h3, h⟩ := bind_ok h
  cases h
  simp [Process.numbers, Process.strings, s_length, finite_of_ok rt h2, finite_of_ok rt h3]

theorem containerOf_ok {fields : Fields} {c : Container} (h : containerOf rt fields = .ok c) :
    (∀ x ∈ c.numbers, x.isFinite = true) ∧ ∀ p ∈ c.strings, p.1.length ≤ p.2 := by
  obtain ⟨x1, h1, h⟩ := bind_ok h
  obtain ⟨x2, h2, h⟩ := bind_ok h
  cases h
  simp [Container.numbers, Container.strings, s_length, finite_of_ok rt h1, finite_of_ok rt h2]

/-- A list of parts has at most as many as it may, each from its call. -/
theorem listPart_ok {α : Type} {raw : Fields} {k : String} {n : Nat} {g : Fields → Except Raised α}
    {part : Option (List α)} (h : listPart raw k n g = .ok part) :
    (part.getD []).length ≤ n ∧ ∀ a ∈ part.getD [], ∃ fields, g fields = .ok a := by
  unfold listPart at h
  split at h
  · next xs _ =>
    obtain ⟨ys, hys, rfl⟩ := map_ok h
    obtain ⟨hlen, hall⟩ := of_mapM_ok hys
    refine ⟨?_, fun a ha => ?_⟩
    · have hfilter : (dictsOf n xs).length ≤ n :=
        (List.length_filterMap_le _ _).trans (List.length_take_le n xs)
      exact hlen ▸ hfilter
    · obtain ⟨fields, -, hg⟩ := hall a ha
      exact ⟨fields, hg⟩
  · cases h
    exact ⟨Nat.zero_le n, fun a ha => absurd ha List.not_mem_nil⟩

theorem truncate_inRange (d : Double) : inRange (alerts.truncate d.value) := by
  have hlimit : maxDouble < overflowAt :=
    sub_lt_sub_left (pow_lt_pow_right₀ (by norm_num) (by norm_num)) _
  unfold alerts.truncate
  split
  next h =>
    have hfloor : (0 : ℚ) ≤ d.value.floor := by exact_mod_cast Rat.le_floor_iff.mpr (by exact_mod_cast h)
    have hle : (d.value.floor : ℚ) ≤ d.value := Rat.floor_le d.value
    exact ⟨by linarith [maxDouble_pos], by linarith [d.upper]⟩
  next h =>
    have hceil : (d.value.ceil : ℚ) ≤ 0 := by
      exact_mod_cast Rat.ceil_le_iff.mpr (by exact_mod_cast (not_le.mp h).le)
    have hle : d.value ≤ d.value.ceil := Rat.le_ceil
    exact ⟨by linarith [d.lower], by linarith [maxDouble_pos]⟩

theorem intAt_ok {raw : Fields} {k : String} {n : Int} (h : intAt rt raw k = .ok n) : inRange n := by
  obtain ⟨x, hx, h⟩ := bind_ok h
  obtain ⟨d, rfl⟩ := f_finite rt hx
  rw [← Except.ok.inj h]
  exact truncate_inRange d

/-- What `point_of` reads is there. -/
structure HasPoint (t : Sample) : Prop where
  tcp : inRange t.tcp
  cpu : t.cpu.map Prod.fst = cpuKeys
  mem : t.mem.map Prod.fst = memKeys
  io : t.io.map Prod.fst = ioKeys
  net : t.net.map Prod.fst = netKeys
  load : t.load ≠ []

/-- What a sample is, when the object could be read. -/
structure Cleaned (t : Sample) : Prop where
  ts : inRange t.ts
  point : HasPoint t
  tame : Tame t

theorem cleanSample_ok {raw : Fields} {t : Sample} (h : cleanSample rt raw = .ok t) : Cleaned t := by
  obtain ⟨ts, hts, h⟩ := bind_ok h
  obtain ⟨cpu, hcpu, h⟩ := bind_ok h
  obtain ⟨load, hload, h⟩ := bind_ok h
  obtain ⟨mem, hmem, h⟩ := bind_ok h
  obtain ⟨io, hio, h⟩ := bind_ok h
  obtain ⟨net, hnet, h⟩ := bind_ok h
  obtain ⟨tcp, htcp, h⟩ := bind_ok h
  obtain ⟨procs, -, h⟩ := bind_ok h
  obtain ⟨uptime, -, h⟩ := bind_ok h
  obtain ⟨disks, hdisks, h⟩ := bind_ok h
  obtain ⟨top, htop, h⟩ := bind_ok h
  obtain ⟨containers, hcontainers, h⟩ := bind_ok h
  cases h
  have hdisk : ∀ d ∈ disks.getD [], (∀ x ∈ d.numbers, x.isFinite = true) ∧ ∀ p ∈ d.strings, p.1.length ≤ p.2 := by
    intro d hd
    obtain ⟨fields, hfields⟩ := (listPart_ok hdisks).2 d hd
    exact diskOf_ok rt hfields
  have hprocess : ∀ d ∈ top.getD [], (∀ x ∈ d.numbers, x.isFinite = true) ∧ ∀ p ∈ d.strings, p.1.length ≤ p.2 := by
    intro d hd
    obtain ⟨fields, hfields⟩ := (listPart_ok htop).2 d hd
    exact processOf_ok rt hfields
  have hcontainer : ∀ d ∈ containers.getD [],
      (∀ x ∈ d.numbers, x.isFinite = true) ∧ ∀ p ∈ d.strings, p.1.length ≤ p.2 := by
    intro d hd
    obtain ⟨fields, hfields⟩ := (listPart_ok hcontainers).2 d hd
    exact containerOf_ok rt hfields
  obtain ⟨hlength, hfinite⟩ := loadOf_ok rt hload
  have hthree : (load ++ List.replicate (3 - load.length) (PyFloat.fin zero)).length = 3 := by
    rw [List.length_append, List.length_replicate]
    omega
  refine ⟨intAt_ok rt hts, ⟨intAt_ok rt htcp, (numbersOf_ok rt hcpu).1, (numbersOf_ok rt hmem).1,
    (numbersOf_ok rt hio).1, (numbersOf_ok rt hnet).1, List.ne_nil_of_length_eq_add_one hthree⟩, ?_⟩
  refine
    { numbers := ?_
      strings := ?_
      load := hthree
      disks := (listPart_ok hdisks).1
      top := (listPart_ok htop).1
      containers := (listPart_ok hcontainers).1 }
  · simp only [Sample.numbers, List.forall_mem_append]
    refine ⟨⟨⟨⟨⟨⟨⟨(numbersOf_ok rt hcpu).2, hfinite, ?_⟩, (numbersOf_ok rt hmem).2⟩, (numbersOf_ok rt hio).2⟩,
      (numbersOf_ok rt hnet).2⟩, ?_⟩, ?_⟩, ?_⟩
    · intro x hx
      rw [List.eq_of_mem_replicate hx]
      rfl
    · intro x hx
      obtain ⟨d, hd, hx⟩ := List.mem_flatMap.mp hx
      exact (hdisk d hd).1 x hx
    · intro x hx
      obtain ⟨d, hd, hx⟩ := List.mem_flatMap.mp hx
      exact (hprocess d hd).1 x hx
    · intro x hx
      obtain ⟨d, hd, hx⟩ := List.mem_flatMap.mp hx
      exact (hcontainer d hd).1 x hx
  · simp only [Sample.strings, List.forall_mem_append]
    refine ⟨⟨⟨?_, ?_⟩, ?_⟩, ?_⟩
    · intro p hp
      obtain ⟨d, hd, hp⟩ := List.mem_flatMap.mp hp
      exact (hdisk d hd).2 p hp
    · intro p hp
      obtain ⟨d, hd, hp⟩ := List.mem_flatMap.mp hp
      exact (hprocess d hd).2 p hp
    · intro p hp
      obtain ⟨d, hd, hp⟩ := List.mem_flatMap.mp hp
      exact (hcontainer d hd).2 p hp
    · intro p hp
      obtain ⟨e, he, rfl⟩ := List.mem_map.mp hp
      split at he
      · rw [Option.toList_some, List.mem_singleton] at he
        rw [he]
        exact s_length rt _ 200
      · exact absurd he List.not_mem_nil

/-! ## The readers of a cleaned sample -/

theorem item_returns {ps : List (String × Number)} {k : String} (h : k ∈ ps.map Prod.fst) : Returns (item ps k) := by
  obtain ⟨p, hp, hk⟩ := List.mem_map.mp h
  unfold item
  cases hfind : ps.find? fun e => e.1 = k with
  | some e => exact ⟨e.2, rfl⟩
  | none =>
    rw [List.find?_eq_none] at hfind
    exact absurd (by simpa using hk) (hfind p hp)

theorem pointOf_returns {t : Sample} (h : HasPoint t) : Returns (pointOf rt t) := by
  have hcpu : ∀ k ∈ cpuKeys, Returns (item t.cpu k) := fun k hk => item_returns (h.cpu ▸ hk)
  have hmem : ∀ k ∈ memKeys, Returns (item t.mem k) := fun k hk => item_returns (h.mem ▸ hk)
  have hio : ∀ k ∈ ioKeys, Returns (item t.io k) := fun k hk => item_returns (h.io ▸ hk)
  have hnet : ∀ k ∈ netKeys, Returns (item t.net k) := fun k hk => item_returns (h.net ▸ hk)
  have htcp : Returns (rt.ofInt t.tcp) := ⟨_, ofInt_ok rt h.tcp⟩
  have hload : Returns (firstOf t.load) := by
    obtain ⟨x, l, hl⟩ := List.exists_cons_of_ne_nil h.load
    rw [hl]
    exact ⟨x, rfl⟩
  unfold pointOf
  rw [returns_bind_iff fun _ _ => returns_bind_iff fun _ _ => returns_bind_iff fun _ _ => returns_bind_iff fun _ _ =>
    returns_bind_iff fun _ _ => returns_bind_iff fun _ _ => returns_bind_iff fun _ _ => returns_bind_iff fun _ _ =>
    returns_bind_iff fun _ _ => returns_bind_iff fun _ _ => returns_bind_iff (p := True) fun _ _ => by simp]
  exact ⟨hcpu _ (by simp [cpuKeys]), hcpu _ (by simp [cpuKeys]), hcpu _ (by simp [cpuKeys]),
    hmem _ (by simp [memKeys]), hmem _ (by simp [memKeys]), hload, hnet _ (by simp [netKeys]),
    hnet _ (by simp [netKeys]), hio _ (by simp [ioKeys]), hio _ (by simp [ioKeys]), htcp, trivial⟩

/-- The slow parts of another sample change nothing of that. -/
theorem hasPoint_keep {t : Sample} (h : HasPoint t) (last : Option Sample) : HasPoint (keep last t) := by
  cases last with
  | none => exact h
  | some l => exact ⟨h.tcp, h.cpu, h.mem, h.io, h.net, h.load⟩

theorem thousandth_returns {n : Int} (h : inRange n) : Returns (rt.thousandth n) := by
  have hpos : 0 < overflowAt := (pow_pos two_pos 970).trans overflowAt_gt
  obtain ⟨hlower, hupper⟩ := h
  have hrange : inRange (n / 1000 : ℚ) := by
    constructor
    · rw [lt_div_iff₀ (by norm_num)]
      linarith
    · rw [div_lt_iff₀ (by norm_num)]
      linarith
  unfold Runtime.thousandth
  rw [if_pos hrange]
  exact ⟨_, rfl⟩

theorem toInt_times1000 (now : Clock) {q : ℚ} (hlower : now.now - 900 ≤ q) (hupper : q ≤ now.now + 60) :
    Returns (toInt (rt.times1000 q)) := by
  have hrange : inRange (q * 1000) := by
    have hnonneg := now.nonneg
    have hbound := now.bound
    norm_num at hbound
    exact inRange_small (by norm_num; linarith) (by norm_num; linarith)
  unfold Runtime.times1000
  rw [if_pos hrange]
  exact ⟨_, rfl⟩

theorem ingest_returns {raw : Fields} (h : Returns (cleanSample rt raw)) (now : Clock) (last : Option Sample) :
    Returns (ingest rt now last raw) := by
  obtain ⟨t, ht⟩ := h
  have hcleaned := cleanSample_ok rt ht
  have htime : Returns (rt.seconds now t.ts) := by
    unfold Runtime.seconds
    split
    · exact thousandth_returns rt hcleaned.ts
    · exact ⟨_, rfl⟩
  obtain ⟨q, hq⟩ := htime
  unfold ingest
  rw [returns_bind]
  refine ⟨t, ht, ?_⟩
  rw [returns_bind]
  refine ⟨q, hq, ?_⟩
  dsimp only
  generalize hts : (if now.now + 60 < q ∨ q < now.now - 900 then now.now else q) = ts
  have hlower : now.now - 900 ≤ ts := by
    rw [← hts]
    split
    · linarith
    next h => exact not_lt.mp fun hlt => h (.inr hlt)
  have hupper : ts ≤ now.now + 60 := by
    rw [← hts]
    split
    · linarith
    next h => exact not_lt.mp fun hlt => h (.inl hlt)
  obtain ⟨ms, hms⟩ := toInt_times1000 rt now hlower hupper
  rw [returns_bind]
  refine ⟨ms, hms, ?_⟩
  have hpoint : HasPoint { t with ts := ms } :=
    ⟨hcleaned.point.tcp, hcleaned.point.cpu, hcleaned.point.mem, hcleaned.point.io, hcleaned.point.net,
      hcleaned.point.load⟩
  rw [returns_bind_iff (p := True) fun _ _ => by simp, and_true]
  split
  · exact pointOf_returns rt hpoint
  · exact pointOf_returns rt (hasPoint_keep hpoint last)

/-- A sample comes out tame, and the readers of it return, just when its object
has parts of the types that are read, and no integer that is too large. -/
theorem sample_tamed (raw : Fields) :
    (∃ t, cleanSample rt raw = .ok t ∧ Tame t ∧ Returns (pointOf rt t) ∧
      ∀ now last, Returns (ingest rt now last raw)) ↔ Readable raw := by
  rw [← cleanSample_returns rt]
  constructor
  · rintro ⟨t, ht, -⟩
    exact ⟨t, ht⟩
  · intro h
    obtain ⟨t, ht⟩ := h
    have hcleaned := cleanSample_ok rt ht
    exact ⟨t, ht, hcleaned.tame, pointOf_returns rt hcleaned.point, ingest_returns rt ⟨t, ht⟩⟩

def clamp (q : ℚ) : Double where
  value := max (-maxDouble) (min q maxDouble)
  lower := le_max_left _ _
  upper := max_le (neg_le_self maxDouble_pos.le) (min_le_right _ _)

def plainRuntime : Runtime := ⟨clamp, fun _ => none, fun _ => []⟩

/-- The object `{"cpu": 5}`. -/
def cpuNumber : Fields := [(⟨points "cpu", by decide, by decide⟩, .int 5)]

/-- A number in the place of a dict raises. -/
theorem number_raises : ¬ ∀ (rt : Runtime) (raw : Fields), ∃ t, cleanSample rt raw = .ok t ∧ Tame t ∧
    Returns (pointOf rt t) ∧ ∀ now last, Returns (ingest rt now last raw) := by
  intro h
  obtain ⟨t, ht, -⟩ := h plainRuntime cpuNumber
  have hread := (cleanSample_returns plainRuntime cpuNumber).mp ⟨t, ht⟩
  have hcpu : lookup cpuNumber "cpu" = .int 5 := rfl
  rcases hcpu ▸ hread.cpu with hfalse | ⟨fields, hdict⟩
  · exact absurd hfalse (by decide)
  · cases hdict

/-! ## The sample that the live state keeps -/

/-- A finite number as a rational. -/
def valueOf : Number → ℚ
  | .fin d => d.value
  | _ => 0

def numberOf : Except Raised Number → ℚ
  | .ok x => valueOf x
  | .error _ => 0

def textOf (points : List Nat) : String := String.ofList (points.map Char.ofNat)

def Disk.plain (d : Disk) : live.DiskStat := ⟨textOf d.mount, valueOf d.free, valueOf d.pct, valueOf d.inodesPct⟩

def Container.plain (c : Container) : live.Container :=
  ⟨textOf c.name, textOf c.state, textOf c.health, textOf c.status⟩

/-- A sample in rational numbers, with what the live state reads of it. -/
def Sample.plain (t : Sample) : live.Sample where
  ts := t.ts
  fast
    | .cpu => numberOf (item t.cpu "pct")
    | .iowait => numberOf (item t.cpu "iowait")
    | .steal => numberOf (item t.cpu "steal")
    | .mem => numberOf (item t.mem "pct")
    | .swap => numberOf (item t.mem "swap_pct")
    | .load1 => numberOf (firstOf t.load)
    | .disk => 0
    | .rx => numberOf (item t.net "rx_bps")
    | .tx => numberOf (item t.net "tx_bps")
    | .rd => numberOf (item t.io "read_bps")
    | .wr => numberOf (item t.io "write_bps")
    | .tcp => numberOf (rt.ofInt t.tcp)
  slow := ⟨t.disks.map (List.map Disk.plain), t.containers.map (List.map Container.plain), t.dockerErr.map textOf⟩

/-- `FIELDS` -/
def pointFields : List live.Field := [.cpu, .iowait, .steal, .mem, .swap, .load1, .disk, .rx, .tx, .rd, .wr, .tcp]

/-- The larger of two finite numbers. -/
theorem larger_value {x y : Number} (hx : x.isFinite = true) (hy : y.isFinite = true) :
    (if greater y x then y else x).isFinite = true ∧
      valueOf (if greater y x then y else x) = max (valueOf x) (valueOf y) := by
  cases x with
  | fin a =>
    cases y with
    | fin b =>
      by_cases hlt : a.value < b.value
      · have hgt : greater (.fin b : Number) (.fin a) = true := decide_eq_true hlt
        rw [if_pos hgt]
        exact ⟨hy, (max_eq_right hlt.le).symm⟩
      · have hgt : ¬ greater (.fin b : Number) (.fin a) = true := fun h => hlt (of_decide_eq_true h)
        rw [if_neg hgt]
        exact ⟨hx, (max_eq_left (not_lt.mp hlt)).symm⟩
    | nan => cases hy
    | inf negative => cases hy
  | nan => cases hx
  | inf negative => cases hx

theorem maxOf_value (ds : List Disk) (h : ∀ d ∈ ds, d.pct.isFinite = true) :
    valueOf (maxOf (ds.map Disk.pct)) = live.diskPct (ds.map Disk.plain) := by
  have hfold (ds : List Disk) (m : Number) (hm : m.isFinite = true) (h : ∀ d ∈ ds, d.pct.isFinite = true) :
      valueOf ((ds.map Disk.pct).foldl (fun m y => if greater y m then y else m) m) =
        ((ds.map Disk.plain).map live.DiskStat.pct).foldl max (valueOf m) := by
    induction ds generalizing m with
    | nil => rfl
    | cons d ds ih =>
      obtain ⟨hfinite, hvalue⟩ := larger_value hm (h d List.mem_cons_self)
      simp only [List.map_cons, List.foldl_cons]
      rw [ih _ hfinite fun x hx => h x (List.mem_cons_of_mem _ hx), hvalue]
      rfl
  cases ds with
  | nil => rfl
  | cons d ds => exact hfold ds d.pct (h d List.mem_cons_self) fun x hx => h x (List.mem_cons_of_mem _ hx)

/-- The point of a sample is the one that the live state makes of its numbers. -/
theorem pointOf_plain {t : Sample} {p : List Number} (h : pointOf rt t = .ok p)
    (hfinite : ∀ d ∈ t.disks.getD [], d.pct.isFinite = true) :
    p.map valueOf = pointFields.map (live.pointOf (t.plain rt)) := by
  obtain ⟨cpu, hcpu, h⟩ := bind_ok h
  obtain ⟨iowait, hiowait, h⟩ := bind_ok h
  obtain ⟨steal, hsteal, h⟩ := bind_ok h
  obtain ⟨mem, hmem, h⟩ := bind_ok h
  obtain ⟨swap, hswap, h⟩ := bind_ok h
  obtain ⟨load, hload, h⟩ := bind_ok h
  obtain ⟨rx, hrx, h⟩ := bind_ok h
  obtain ⟨tx, htx, h⟩ := bind_ok h
  obtain ⟨rd, hrd, h⟩ := bind_ok h
  obtain ⟨wr, hwr, h⟩ := bind_ok h
  obtain ⟨tcp, htcp, h⟩ := bind_ok h
  cases h
  have hdisk : valueOf (maxOf ((t.disks.getD []).map Disk.pct)) =
      live.diskPct ((t.disks.map (List.map Disk.plain)).getD []) := by
    rw [maxOf_value _ hfinite]
    cases t.disks <;> rfl
  simp only [pointFields, List.map_cons, List.map_nil, live.pointOf, Sample.plain, hcpu, hiowait, hsteal, hmem, hswap,
    hload, hrx, htx, hrd, hwr, htcp, hdisk, numberOf, reduceCtorEq, if_true, if_false]

theorem keep_plain (last : Option Sample) (t : Sample) :
    ((keep last t).plain rt).fast = (t.plain rt).fast ∧
      ((keep last t).plain rt).slow =
        live.mergeSlow (last.map (Sample.plain rt)) ⟨t.plain rt, false, false⟩ := by
  cases last with
  | none => exact ⟨rfl, rfl⟩
  | some l =>
    refine ⟨rfl, ?_⟩
    simp only [keep, Sample.plain, live.mergeSlow, Option.map_some, Option.map_or, Bool.or_self, Bool.false_eq_true, if_false]

/-- What `ingest` gives the live state: the point of the sample, and its slow parts as
they are merged there. -/
theorem ingest_plain {raw : Fields} {now : Clock} {last : Option Sample} {t : Sample} {ts : Int} {p : List Number}
    (h : ingest rt now last raw = .ok (t, ts, p)) (hlast : ∀ l ∈ last, Tame l) :
    ∃ c, cleanSample rt raw = .ok c ∧ (t.plain rt).fast = (c.plain rt).fast ∧
      (t.plain rt).slow =
        live.mergeSlow (last.map (Sample.plain rt)) ⟨c.plain rt, has raw "disks", has raw "top"⟩ ∧
      p.map valueOf = pointFields.map (live.pointOf (t.plain rt)) := by
  obtain ⟨c, hc, h⟩ := bind_ok h
  obtain ⟨q, -, h⟩ := bind_ok h
  obtain ⟨ms, -, h⟩ := bind_ok h
  obtain ⟨p', hp, h⟩ := bind_ok h
  cases h
  have htame (t : Sample) (ht : Tame t) : ∀ d ∈ t.disks.getD [], d.pct.isFinite = true := fun d hd =>
    ht.numbers _ (by
      simp only [Sample.numbers, List.mem_append, List.mem_flatMap]
      exact .inl (.inl (.inr ⟨d, hd, by simp [Disk.numbers]⟩)))
  have hclean := htame c (cleanSample_ok rt hc).tame
  refine ⟨c, hc, ?_⟩
  by_cases hkeys : (has raw "disks" || has raw "top") = true
  · rw [if_pos hkeys] at hp ⊢
    exact ⟨rfl, (if_pos hkeys).symm, pointOf_plain rt hp hclean⟩
  · rw [if_neg hkeys] at hp ⊢
    obtain ⟨hfast, hslow⟩ := keep_plain rt last { c with ts := ms }
    obtain ⟨hdisks, htop⟩ := Bool.or_eq_false_iff.mp (Bool.eq_false_iff.mpr hkeys)
    rw [hdisks, htop]
    refine ⟨hfast, hslow, pointOf_plain rt hp fun d hd => ?_⟩
    cases last with
    | none => exact hclean d hd
    | some l =>
      cases hl : l.disks with
      | none =>
        simp only [keep, hl, Option.none_or] at hd
        exact hclean d hd
      | some ds =>
        simp only [keep, hl, Option.some_or, Option.getD_some] at hd
        exact htame l (hlast l rfl) d (by rw [hl]; exact hd)

end icsd_panel.samples

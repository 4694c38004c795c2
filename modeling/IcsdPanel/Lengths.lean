-- How long the answers of the agent are. Each handler bounds the bytes or the
-- items that it reads, but the hub bounds the characters of the whole frame:
-- exactly which answers fit.
import IcsdPanel.Answers
import IcsdPanel.Calm
import Mathlib.Data.Nat.Digits.Defs

open jsons unicode effects

namespace icsd_panel.answers

open paths disk machine policy files archives

/-! ## Frames -/

/-- What a frame leaves for its value, and for the text of an error. -/
def room : Nat := replies.maxMessage - 50

def errorRoom : Nat := replies.maxMessage - 46

/-- Whether an answer fits in a frame: its error, or its value, of which `P` says
whether it does. -/
def Fits {α : Type} (P : α → Prop) : Except Bytes α → Prop
  | .error e => weight e ≤ errorRoom
  | .ok a => P a

theorem plain_hex {c : Char} (h : (('0' ≤ c && c ≤ '9') || ('a' ≤ c && c ≤ 'f')) = true) :
    plain c = true := by
  have hout : ∀ x ∈ ['"', '\\', '<', '>', '&'],
      ¬ (('0' ≤ x && x ≤ '9') || ('a' ≤ x && x ≤ 'f')) = true := by
    simp only [List.forall_mem_cons, List.not_mem_nil, false_imp_iff, implies_true, and_true]
    decide
  have hnot : c ∉ ['"', '\\', '<', '>', '&'] := fun hc => hout c hc h
  simp only [Bool.or_eq_true, Bool.and_eq_true, decide_eq_true_eq, Char.le_def, UInt32.le_iff_toNat_le] at h
  change (48 ≤ c.toNat ∧ c.toNat ≤ 57) ∨ (97 ≤ c.toNat ∧ c.toNat ≤ 102) at h
  unfold plain
  simp only [Bool.and_eq_true, decide_eq_true_eq]
  refine ⟨?_, hnot⟩
  omega

theorem length_rid (rid : Rid) : (quote rid.text).length = 18 := by
  have hplain : rid.text.toList.all plain = true :=
    List.all_eq_true.mpr fun c hc => plain_hex (List.all_eq_true.mp rid.hex c hc)
  rw [length_quote hplain, rid.length]

theorem length_value (rid : Rid) (d : Datum) : (marshal (frame rid (.ok d))).length = (marshal d).length + 50 := by
  simp (disch := decide) [frame, length_rid, length_quote]
  omega

theorem length_error (rid : Rid) (e : Bytes) :
    (marshal (frame rid (.error e))).length = if e = [] then 35 else weight e + 46 := by
  by_cases he : e = []
  · simp (disch := decide) [frame, he, length_rid, length_quote]
  · simp (disch := decide) [frame, he, length_rid, length_quote]
    omega

/-- How long an `int64` is. -/
def digits (n : Int) : Nat := (toString (wrap64 n)).length

theorem length_toString_nat {n : Nat} (h : n < 10 ^ 19) : (toString n).length ≤ 19 := by
  have := Nat.toDigits_length 10 n 19 (by decide) h
  change (Nat.repr n).length ≤ 19
  unfold Nat.repr
  rwa [String.length_ofList]

theorem digits_le (n : Int) : digits n ≤ 20 := by
  have hle : -(2 ^ 63) ≤ wrap64 n := Int.le_bmod (by decide)
  have hlt : wrap64 n < 2 ^ 63 := Int.bmod_lt (by decide)
  unfold digits
  generalize wrap64 n = k at hle hlt
  cases k with
  | ofNat m =>
    have := @length_toString_nat m (by simp only [Int.ofNat_eq_natCast] at hlt; omega)
    exact Nat.le_succ_of_le this
  | negSucc m =>
    have := @length_toString_nat (m + 1) (by omega)
    change ("-" ++ toString (m + 1)).length ≤ 20
    rw [String.length_append]
    change 1 + _ ≤ 20
    omega

@[simp] theorem length_int64 (n : Int) : (marshal (int64 n)).length = digits n := length_marshal_num _

/-! ## What each value costs -/

/-- What a list costs between its brackets: its items, and a comma after each
but the last. -/
def listCost {α : Type} (cost : α → Nat) (xs : List α) : Nat := (xs.map fun x => cost x + 1).sum - 1

/-- A string costs its quotes. -/
def linesCost (lines : List Bytes) : Nat := listCost (fun l => weight l + 2) lines

def flagCost (b : Bool) : Nat := if b then 4 else 5

/-- A field that is left out when it is empty. -/
def optionalCost (s : Bytes) : Nat := if s = [] then 0 else weight s + 10

def Entry.cost (e : Entry) : Nat :=
  weight e.name + e.type.text.toList.length + digits e.size + digits e.mtime + weight e.owner +
    optionalCost e.link + 63

def TopEntry.cost (e : TopEntry) : Nat := digits e.mtime + weight e.name + flagCost e.readonly + 45

/-- A nil list is `null`. -/
def sliceCost {α : Type} (cost : α → Nat) (xs : List α) : Nat := if xs = [] then 4 else listCost cost xs + 2

def Listing.cost : Listing → Nat
  | .top roots => sliceCost TopEntry.cost roots + 38
  | .dir path entries readonly truncated =>
    listCost Entry.cost entries + weight path + flagCost readonly + flagCost truncated + 49

def BackupFile.cost (f : BackupFile) : Nat :=
  weight f.path + weight f.name + digits f.size + digits f.mtime + optionalCost f.source + 38

def Backups.cost (b : Backups) : Nat := weight b.dir + sliceCost BackupFile.cost b.files + digits b.free + 27

theorem length_list {α : Type} {f : α → Datum} {cost : α → Nat} (h : ∀ a, (marshal (f a)).length = cost a)
    (xs : List α) : (marshal (.arr (xs.map f))).length = listCost cost xs + 2 := by
  rw [length_marshal_arr, List.map_map]
  simp only [listCost, Function.comp_def, h]

theorem listCost_perm {α : Type} {cost : α → Nat} {xs ys : List α} (h : xs.Perm ys) :
    listCost cost xs = listCost cost ys := by
  unfold listCost
  rw [(h.map fun x => cost x + 1).sum_nat]

theorem length_slice {α : Type} {f : α → Datum} {cost : α → Nat} (h : ∀ a, (marshal (f a)).length = cost a)
    (xs : List α) : (marshal (.slice (xs.map f))).length = sliceCost cost xs := by
  unfold Datum.slice sliceCost
  by_cases hx : xs = []
  · subst hx
    rfl
  · rw [if_neg (by simpa using hx), if_neg hx, length_list h]

theorem length_lines (lines : List Bytes) : (marshal (linesDatum lines)).length = linesCost lines + 2 :=
  length_list length_marshal_str lines

theorem length_type (t : EntryType) : (quote t.text).length = t.text.toList.length + 2 := by
  cases t <;> decide

theorem length_octal (m : Nat) : (quote (octal m)).length = 6 := by
  have hdigit : ∀ k < 8, plain (Nat.digitChar k) = true := by decide
  have h8 : ∀ k, plain (Nat.digitChar (k % 8)) = true := fun k => hdigit _ (Nat.mod_lt _ (by decide))
  unfold octal
  rw [length_quote, String.toList_ofList]
  · rfl
  · simp only [String.toList_ofList, List.all_cons, h8, List.all_nil]
    rfl

theorem length_entry (e : Entry) : (marshal e.datum).length = e.cost := by
  unfold Entry.datum Entry.cost optionalCost
  by_cases hl : e.link = []
  · simp (disch := decide) [hl, length_quote, length_type, length_octal]
    omega
  · simp (disch := decide) [hl, length_quote, length_type, length_octal]
    omega

theorem length_topEntry (e : TopEntry) : (marshal e.datum).length = e.cost := by
  unfold TopEntry.datum TopEntry.cost flagCost
  simp (disch := decide) [length_quote]
  omega

theorem length_listing (s : Details) (l : Listing) : (marshal (l.datum s)).length = l.cost := by
  cases l with
  | top roots =>
    have := length_slice length_topEntry roots
    simp (disch := decide) [Listing.datum, Listing.cost, length_quote, this]
    omega
  | dir path entries readonly truncated =>
    have hsort := length_list length_entry (entries.mergeSort fun a b => !Entry.less s b a)
    rw [listCost_perm (List.mergeSort_perm entries _)] at hsort
    simp (disch := decide) [Listing.datum, Listing.cost, flagCost, length_quote, hsort]
    omega

theorem length_backupFile (f : BackupFile) : (marshal f.datum).length = f.cost := by
  unfold BackupFile.datum BackupFile.cost optionalCost
  by_cases hs : f.source = []
  · simp (disch := decide) [hs, length_quote]
    omega
  · simp (disch := decide) [hs, length_quote]
    omega

theorem length_backups (b : Backups) : (marshal b.datum).length = b.cost := by
  have hsort := length_slice length_backupFile (b.files.mergeSort fun f g => decide (g.mtime ≤ f.mtime))
  have hperm := List.mergeSort_perm b.files fun f g => decide (g.mtime ≤ f.mtime)
  have hcost : sliceCost BackupFile.cost (b.files.mergeSort fun f g => decide (g.mtime ≤ f.mtime)) =
      sliceCost BackupFile.cost b.files := by
    unfold sliceCost
    rw [listCost_perm hperm]
    simp only [← List.length_eq_zero_iff, hperm.length_eq]
  rw [hcost] at hsort
  simp (disch := decide) [Backups.datum, Backups.cost, length_quote, hsort]
  omega

/-! ## Chunks and consoles -/

theorem length_base64 (b : Bytes) : (base64 b).length = 4 * ((b.length + 2) / 3) := by
  induction b using base64.induct with
  | case1 => simp [base64]
  | case2 => simp [base64]
  | case3 => simp [base64]
  | case4 a b c rest ih =>
    simp only [base64, List.length_cons, ih]
    omega

theorem plain_base64Char (n : Nat) : plain (base64Char n) = true := by
  have hall : ((List.range 64).all fun k => plain (base64Char k)) = true := by decide +kernel
  have := List.all_eq_true.mp hall (n % 64) (List.mem_range.mpr (Nat.mod_lt n (by decide)))
  unfold base64Char at this ⊢
  rwa [Nat.mod_mod] at this

theorem plain_base64 (b : Bytes) : (base64 b).all plain = true := by
  induction b using base64.induct with
  | case1 => rfl
  | case2 | case3 => simp only [base64, List.all_cons, plain_base64Char, List.all_nil]; rfl
  | case4 a b c rest ih => simp only [base64, List.all_cons, plain_base64Char, ih, Bool.and_true]

theorem length_chunk (data : String) (eof : Bool) (mtime size : Int) :
    (marshal (.obj [("data", .text data), ("eof", .bool eof), ("mtime", int64 mtime),
      ("size", int64 size)])).length =
    (quote data).length + flagCost eof + digits mtime + digits size + 33 := by
  unfold flagCost
  simp (disch := decide) [length_quote]
  omega

/-- A chunk of a file always fits. -/
theorem length_read {r : ReadReply} (h : r.data.length ≤ maxChunk) : (marshal (readDatum r)).length ≤ room := by
  have hplain : (String.ofList (base64 r.data)).toList.all plain = true := by
    rw [String.toList_ofList]
    exact plain_base64 r.data
  have hflag : flagCost r.eof ≤ 5 := by
    unfold flagCost
    split <;> decide
  have h1 := digits_le r.mtime
  have h2 := digits_le r.size
  rw [readDatum, length_chunk, length_quote hplain, String.toList_ofList, length_base64]
  unfold maxChunk at h
  unfold room replies.maxMessage
  omega

/-- The output of a command of the console always fits. -/
theorem length_printed {p : Printed} (h : p.output.length ≤ 512 * 1024) : (marshal p.datum).length ≤ room := by
  have hout := weight_le p.output
  have h1 := digits_le p.code
  have h2 := digits_le p.ms
  simp (disch := decide) [Printed.datum, length_quote, room, replies.maxMessage]
  omega

theorem length_limited (n : Nat) (ps : List Bytes) : (limited n ps).length ≤ n := by
  induction ps generalizing n with
  | nil => exact Nat.zero_le n
  | cons p ps ih =>
    have := ih (n - p.length)
    simp only [limited, List.length_append, List.length_take]
    omega

theorem length_readChunk (f : FileData) (offset length : Int) :
    (readChunk f offset length).data.length ≤ maxChunk := by
  unfold readChunk
  simp only [List.length_take]
  split <;> omega

/-! ## What fits -/

/-- Whether the answer of the server to a request fits: what it reads for the
request weighs no more than a frame has room for. -/
def Server.Fits (s : Server) : Query → Prop
  | .fsRead args => answers.Fits (fun _ => True) (s.chunk args)
  | .fsList args => answers.Fits (fun l => l.cost ≤ room) (s.listing args)
  | .fsTail args => answers.Fits (fun r => linesCost r.1 + digits r.2 + 20 ≤ room) (s.tail args)
  | .svcLogs args => answers.Fits (fun lines => linesCost lines + 12 ≤ room) (s.journal args)
  | .dockerLogs args => answers.Fits (fun lines => linesCost lines + 12 ≤ room) (s.containerLog args)
  | .execRun args => answers.Fits (fun _ => True) (s.printed args)
  | .backupList => answers.Fits (fun b => b.cost ≤ room) s.backups

/-- A busy agent, and one that only monitors, say so in a few words. -/
def Agent.Fits (a : Agent) (q : Query) : Prop := a.free = true → ∀ s, a.runner = some s → s.Fits q

theorem frame_fits {α : Type} (rid : Rid) (f : α → Datum) (x : Except Bytes α) :
    (marshal (frame rid (x.map f))).length ≤ replies.maxMessage ↔
      Fits (fun a => (marshal (f a)).length ≤ room) x := by
  cases x with
  | error e =>
    change (marshal (frame rid (.error e))).length ≤ _ ↔ weight e ≤ errorRoom
    rw [length_error]
    unfold errorRoom replies.maxMessage
    by_cases he : e = []
    · rw [if_pos he, he]
      exact iff_of_true (by decide) (Nat.zero_le _)
    · rw [if_neg he]
      omega
  | ok a =>
    change (marshal (frame rid (.ok (f a)))).length ≤ _ ↔ (marshal (f a)).length ≤ room
    rw [length_value]
    unfold room replies.maxMessage
    omega

theorem fits_congr {α : Type} {P Q : α → Prop} {x : Except Bytes α} (h : ∀ a, x = .ok a → (P a ↔ Q a)) :
    Fits P x ↔ Fits Q x := by
  cases x with
  | error e => exact Iff.rfl
  | ok a => exact h a rfl

theorem triple_fsRead (e : Env) (pol : Policy) (i : ReadArgs) :
    Proc.Triple e (fun _ => True) (files.fsRead pol i) (fun r _ => r.data.length ≤ maxChunk) fun _ => True := by
  unfold files.fsRead
  refine Proc.triple_bind (triple_ask (fun _ _ _ _ => trivial) fun _ _ => trivial) fun real => ?_
  refine Proc.triple_bind (triple_askOs (fun _ _ _ _ => trivial) fun _ _ => trivial) fun r => ?_
  split
  · refine Proc.triple_bind (M := fun _ _ => True)
      (triple_readFile (fun _ _ _ _ _ => trivial) fun _ _ => trivial) fun f => ?_
    split
    · exact triple_fail _ fun _ _ => trivial
    · exact Proc.triple_pure fun _ _ => length_readChunk f i.offset i.length
  · exact triple_fail _ fun _ _ => trivial

theorem chunk_length {s : Server} {args : Except Bytes ReadArgs} {r : ReadReply} (h : s.chunk args = .ok r) :
    r.data.length ≤ maxChunk := by
  cases args with
  | error t => cases h
  | ok i =>
    have hrun := triple_fsRead s.env s.pol i s.world trivial
    change ((files.fsRead s.pol i) s.env s.world).1.mapError (GoError.text s.details) = .ok r at h
    rcases hr : files.fsRead s.pol i s.env s.world with ⟨er | a, w'⟩
    · rw [hr] at h
      cases h
    · rw [hr] at h hrun
      cases h
      exact hrun

theorem printed_length {s : Server} {args : Except Bytes ExecArgs} {p : Printed} (h : s.printed args = .ok p) :
    p.output.length ≤ 512 * 1024 := by
  unfold Server.printed at h
  split at h
  · cases h
  · cases args with
    | error t => cases h
    | ok i =>
      simp only [decode, Except.mapError, bind, Except.bind] at h
      split at h
      · cases h
      · cases h
        exact length_limited _ _

theorem length_log (lines : List Bytes) : (marshal (logDatum lines)).length = linesCost lines + 12 := by
  have := length_lines lines
  simp (disch := decide) [logDatum, length_quote, this]
  omega

theorem length_tail (r : List Bytes × Int) :
    (marshal (tailDatum r)).length = linesCost r.1 + digits r.2 + 20 := by
  have := length_lines r.1
  simp (disch := decide) [tailDatum, length_quote, this]
  omega

/-- Exactly which answers of a server fit. -/
theorem handle_fits (s : Server) (rid : Rid) (q : Query) :
    (marshal (frame rid (s.handle q))).length ≤ replies.maxMessage ↔ s.Fits q := by
  cases q with
  | fsRead args =>
    refine (frame_fits rid readDatum _).trans (fits_congr fun r hr => ?_)
    exact iff_of_true (length_read (chunk_length hr)) trivial
  | fsList args =>
    refine (frame_fits rid (Listing.datum s.details) _).trans (fits_congr fun l _ => ?_)
    rw [length_listing]
  | fsTail args =>
    refine (frame_fits rid tailDatum _).trans (fits_congr fun r _ => ?_)
    rw [length_tail]
  | svcLogs args =>
    refine (frame_fits rid logDatum _).trans (fits_congr fun lines _ => ?_)
    rw [length_log]
  | dockerLogs args =>
    refine (frame_fits rid logDatum _).trans (fits_congr fun lines _ => ?_)
    rw [length_log]
  | execRun args =>
    refine (frame_fits rid Printed.datum _).trans (fits_congr fun p hp => ?_)
    exact iff_of_true (length_printed (printed_length hp)) trivial
  | backupList =>
    refine (frame_fits rid Backups.datum _).trans (fits_congr fun b _ => ?_)
    rw [length_backups]

theorem weight_busy : weight (utf8 replies.busy) ≤ errorRoom := by
  rw [weight_utf8]
  decide +kernel

theorem weight_errMonitor : weight errMonitor ≤ errorRoom := by
  unfold errMonitor
  rw [weight_utf8]
  decide +kernel

theorem length_refused (rid : Rid) {e : Bytes} (h : weight e ≤ errorRoom) :
    (marshal (frame rid (.error e))).length ≤ replies.maxMessage :=
  (frame_fits rid (fun _ : Unit => Datum.null) (.error e)).mpr h

/-- The frame of an answer is not too long for the hub exactly when what it
brings fits. -/
theorem frames_fit (a : Agent) (rid : Rid) (q : Query) :
    (a.sent rid q).length ≤ replies.maxMessage ↔ a.Fits q := by
  unfold Agent.sent Agent.answer Agent.Fits
  cases a.free with
  | false =>
    refine iff_of_true (length_refused rid weight_busy) fun h => ?_
    cases h
  | true =>
    cases a.runner with
    | none =>
      refine iff_of_true (length_refused rid weight_errMonitor) fun _ s hs => ?_
      cases hs
    | some s =>
      refine (handle_fits s rid q).trans ⟨fun h _ t ht => ?_, fun h => h rfl s rfl⟩
      cases ht
      exact h

/-! ## A log that does not fit -/

/-- The content of a log with one line of `<`. -/
def longLine (n : Nat) : Bytes := List.replicate n 60

theorem weight_longLine (n : Nat) : weight (longLine n) = n * 6 := by
  have hruns : runes (longLine n) = List.replicate n (some '<') := runes_replicate rfl n
  have hone : (writeRune (some '<')).length = 6 := rfl
  unfold weight
  rw [hruns, List.map_replicate, hone, List.sum_replicate, smul_eq_mul]

/-- A scanner gives bytes that hold no newline as one line. -/
theorem scanLines_replicate {limit m n : Nat} {b : UInt8} (hb : b ≠ newline) (hcr : b ≠ 13)
    (hpos : 0 < m + n) (h : m + n < limit) :
    scanLines limit (List.replicate m b) (List.replicate n b) = [List.replicate (m + n) b] := by
  induction n generalizing m with
  | zero =>
    have hm : List.replicate m b ≠ [] := by
      rw [Ne, List.replicate_eq_nil_iff]
      omega
    have hlast : (List.replicate m b).getLast? = some b := by
      rw [List.getLast?_replicate, if_neg (by omega)]
    have hfit : ¬ (List.replicate m b = [] ∨ limit ≤ (List.replicate m b).length) := by
      rw [List.length_replicate]
      rintro (h1 | h1)
      · exact hm h1
      · omega
    rw [List.replicate_zero, scanLines, if_neg hfit, List.reverse_replicate, dropCr, hlast,
      if_neg (by simpa using hcr)]
    rfl
  | succ n ih =>
    rw [List.replicate_succ, scanLines, List.length_replicate, if_neg (by omega), if_neg hb,
      ← List.replicate_succ, ih (by omega) (by omega), Nat.add_right_comm]
    rfl

theorem tailLines_longLine {n : Nat} (hpos : 0 < n) (h : n < 1024 * 1024) :
    tailLines (longLine n) 300 [] = [longLine n] := by
  have hlen : (longLine n).length - window = 0 := by
    unfold longLine window
    rw [List.length_replicate]
    omega
  have hscan := @scanLines_replicate (1024 * 1024) 0 n 60 (by decide) (by decide) (by omega) (by omega)
  rw [Nat.zero_add, List.replicate_zero] at hscan
  unfold tailLines
  simp only [hlen, List.drop_zero, Nat.lt_irrefl, if_false, decide_true, Bool.true_or, List.filter_true]
  unfold longLine
  rw [hscan, List.length_singleton]
  exact List.drop_zero

/-- The tail of a file that can be opened. -/
theorem tail_file {s : Server} {i : TailArgs} {real : Loc} {f : FileData}
    (hcheck : check s.pol s.world.disk i.path false = .ok real)
    (hstat : stat s.world.disk real = .ok (real, .file f)) (hopen : s.env.blocked .open real = false) :
    s.tail (.ok i) = .ok (tailLines f.content (if i.lines ≤ 0 ∨ i.lines > 5000 then 300 else i.lines.toNat)
      i.grep, f.content.length) := by
  have hread : readFile real s.env s.world = (.ok f, { s.world with reads := real :: s.world.reads }) := by
    unfold readFile openFile
    rw [hstat]
    simp only [hopen, Bool.false_eq_true, if_false]
  have hlook : askOs (fun d => stat d real) s.env s.world = (.ok (real, .file f), s.world) := by
    refine ask_ok ?_
    change (stat s.world.disk real).mapError _ = _
    rw [hstat]
    rfl
  have hsize : s.tailSize i = f.content.length := by
    unfold Server.tailSize
    rw [hcheck]
    simp only [hstat]
  have hsys : s.sys (files.fsTail s.pol i) = .ok (tailLines f.content
      (if i.lines ≤ 0 ∨ i.lines > 5000 then 300 else i.lines.toNat) i.grep, f.content.length) := by
    have hchecked : checked s.pol i.path false s.env s.world = (.ok real, s.world) := ask_ok hcheck
    unfold Server.sys files.fsTail
    rw [Proc.bind_run_ok hchecked, Proc.bind_run_ok hlook]
    simp only []
    rw [Proc.bind_run_ok hread]
    rfl
  unfold Server.tail
  change (s.sys (files.fsTail s.pol i) >>= fun r => pure (r.1, s.tailSize i)) = _
  rw [hsys, hsize]
  rfl

/-- A disk with one log. -/
def logDirs : Disk :=
  (Disk.bare.put ["var"] (.dir ⟨0o755, 0, 0⟩)).put ["var", "log"] (.dir ⟨0o755, 0, 0⟩)

def logFile : FileData := ⟨longLine 700000, 0, ⟨0o644, 0, 0⟩, false⟩

def logDisk : Disk := logDirs.put ["var", "log", "app.log"] (.file logFile)

def plainDetails : Details where
  name := utf8
  toLower := id
  size _ := 4096
  mtime _ := 0
  linkUid _ := 0
  owner _ := utf8 "root"
  readlink _ := []
  osError _ := utf8 "input/output error"

/-- The server of the log, whose commands print nothing. -/
def logServer : Server where
  pol := normalize ⟨["/var/log"], [], 0, ""⟩
  services := ⟨[], []⟩
  console := false
  env := calm 0 []
  world := .start logDisk
  details := plainDetails
  exec _ := ⟨[], false, .well⟩
  bash _ := (⟨[], false, .well⟩, 0)
  docker := none

def logRid : Rid := ⟨"0123456789abcdef", by decide, by decide⟩

theorem get_logDisk : logDisk.get ["var", "log", "app.log"] = some (.file logFile) :=
  Disk.get_put_self ⟨by decide, by decide, by decide +kernel, Or.inr (by decide +kernel)⟩

theorem tail_logServer :
    logServer.tail (.ok ⟨"/var/log/app.log", 0, []⟩) = .ok ([longLine 700000], (700000 : Nat)) := by
  have hcheck : check logServer.pol logServer.world.disk "/var/log/app.log" false =
      .ok ["var", "log", "app.log"] := by decide +kernel
  have hstat : stat logServer.world.disk ["var", "log", "app.log"] =
      .ok (["var", "log", "app.log"], .file logFile) := stat_installed (by decide) get_logDisk
  have hlines := @tailLines_longLine 700000 (by decide) (by decide)
  have hlen : (longLine 700000).length = 700000 := List.length_replicate
  rw [@tail_file logServer ⟨"/var/log/app.log", 0, []⟩ _ logFile hcheck hstat rfl]
  change Except.ok (tailLines (longLine 700000) 300 [], ((longLine 700000).length : Int)) = _
  rw [hlines, hlen]

/-- Lines that are too long for a frame. -/
theorem not_fits_tail {s : Server} {args : Except Bytes TailArgs} {lines : List Bytes} {size : Int}
    (h : s.tail args = .ok (lines, size)) (hlong : room < linesCost lines) : ¬ s.Fits (.fsTail args) := by
  intro hfit
  change Fits _ (s.tail args) at hfit
  rw [h] at hfit
  change linesCost lines + digits size + 20 ≤ room at hfit
  omega

theorem linesCost_longLine (n : Nat) : linesCost [longLine n] = n * 6 + 2 := by
  unfold linesCost listCost
  simp only [List.map_cons, List.map_nil, List.sum_cons, List.sum_nil, weight_longLine]
  omega

/-- A line of 700000 `<`, of six characters each, does not fit. -/
theorem exists_unfit : ∃ (s : Server) (q : Query), ¬ s.Fits q := by
  have hlong : room < linesCost [longLine 700000] := by
    rw [linesCost_longLine]
    unfold room replies.maxMessage
    omega
  exact ⟨logServer, .fsTail (.ok ⟨"/var/log/app.log", 0, []⟩), not_fits_tail tail_logServer hlong⟩

end icsd_panel.answers

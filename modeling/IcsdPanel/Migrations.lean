-- The schema of the hub's database: the hub and its command line may both open the
-- file, of any version, and bring it up to date.
import IcsdPanel.Scripts

open scripts

namespace icsd_panel.schemas

/-! ## Schemas -/

structure Table where
  name : String
  columns : List String
deriving DecidableEq

/-- What `sqlite_master` holds. -/
structure Schema where
  tables : List Table
  indexes : List String
deriving DecidableEq

def Schema.column? (s : Schema) (table column : String) : Bool :=
  s.tables.any fun t => t.name = table && t.columns.contains column

/-- The statements of the scripts, as far as the schema knows them. -/
inductive Stmt
  | createTable (name : String) (columns : List String)
  | createIndex (name table column : String)
  | addColumn (table column : String)
  | update (table column : String)

/-- A statement fails where SQLite would: what it makes is there, or what it needs is not. -/
def Stmt.exec : Stmt → Script Schema
  | .createTable name columns, s =>
    if s.tables.any (fun t => t.name = name) || s.indexes.contains name then none
    else some { s with tables := s.tables ++ [⟨name, columns⟩] }
  | .createIndex name table column, s =>
    if s.indexes.contains name || s.tables.any (fun t => t.name = name) || !s.column? table column then none
    else some { s with indexes := s.indexes ++ [name] }
  | .addColumn table column, s =>
    if !(s.tables.any fun t => t.name = table) || s.column? table column then none
    else some { s with tables := s.tables.map fun t =>
      if t.name = table then { t with columns := t.columns ++ [column] } else t }
  | .update table column, s => if s.column? table column then some s else none

/-- A script, between its BEGIN and its COMMIT. -/
def script (stmts : List Stmt) : Script Schema := fun s => stmts.foldlM (fun s stmt => stmt.exec s) s

def sampleColumns : List String :=
  ["server_id", "ts", "cpu", "cpu_max", "iowait", "steal", "mem", "swap", "load1", "disk", "rx", "tx", "rd", "wr", "tcp"]

/-- `MIGRATIONS` -/
def migrations : List (List Stmt) := [
  -- 1 — initial schema
  [ .createTable "users" ["id", "username", "pw_hash", "role", "totp_secret", "totp_on", "totp_last", "created",
      "last_login"],
    .createTable "sessions" ["id_hash", "user_id", "created", "seen", "ip", "ua"],
    .createTable "login_fail" ["ip", "username", "ts"],
    .createIndex "login_fail_ts" "login_fail" "ts",
    .createTable "servers" ["id", "name", "created", "enroll_hash", "enroll_expires", "secret_hash", "host_json",
      "agent_version", "last_seen", "last_ip", "notes"],
    .createTable "samples_1m" sampleColumns,
    .createTable "samples_1h" sampleColumns,
    .createTable "rules" ["id", "kind", "threshold", "for_s", "severity", "enabled"],
    .createTable "events" ["id", "rule", "server_id", "subject", "severity", "value", "message", "started", "ended"],
    .createIndex "events_open" "events" "ended",
    .createIndex "events_started" "events" "started",
    .createTable "checks" ["id", "name", "url", "interval", "timeout", "expect", "keyword", "enabled", "created"],
    .createTable "check_log" ["check_id", "ts", "ok", "ms", "code", "error"],
    .createTable "settings" ["key", "value"],
    .createTable "audit" ["id", "ts", "username", "ip", "action", "detail"],
    .createIndex "audit_ts" "audit" "ts",
    .createTable "notify_log" ["id", "ts", "channel", "ok", "error"]],
  -- 2 — review fixes
  [ .addColumn "users" "totp_pending",
    .addColumn "samples_1m" "n"],
  -- 3 — phases 2–4
  [ .addColumn "sessions" "elevated_until",
    .createTable "backup_plans" ["id", "server_id", "name", "kind", "target", "every_hours", "start_hour", "keep",
      "dest_server", "dest_keep", "delete_local", "enabled", "next_run", "created"],
    .createTable "backup_runs" ["id", "plan_id", "server_id", "started", "ended", "state", "size", "path",
      "dest_server", "dest_path", "error", "trigger"],
    .createIndex "backup_runs_started" "backup_runs" "started"],
  -- 4 — every plan gets its own random file prefix
  [ .addColumn "backup_plans" "prefix",
    .update "backup_plans" "prefix"]]

/-- The loop of `_migrate`, one script after the other. -/
def allScripts : List (Script Schema) := migrations.map script

def noSchema : Schema := ⟨[], []⟩

/-! ## A schema that grows -/

variable {s s' : Schema} {stmt : Stmt} {stmts : List Stmt}

/-- What the first statement of a script makes. -/
def Stmt.There : Stmt → Schema → Bool
  | .createTable name _, s => s.tables.any fun t => t.name = name
  | .createIndex name _ _, s => s.indexes.contains name
  | .addColumn table column, s => s.column? table column
  | .update _ _, _ => false

def Stmt.Makes : Stmt → Bool
  | .update _ _ => false
  | _ => true

/-- Nothing is made twice. -/
theorem exec_there (h : stmt.There s = true) : stmt.exec s = none := by
  cases stmt with
  | createTable name columns =>
    simp only [Stmt.There] at h
    simp only [Stmt.exec]
    rw [h, Bool.true_or, if_pos rfl]
  | createIndex name table column =>
    simp only [Stmt.There] at h
    simp only [Stmt.exec]
    rw [h, Bool.true_or, Bool.true_or, if_pos rfl]
  | addColumn table column =>
    simp only [Stmt.There] at h
    simp only [Stmt.exec]
    rw [h, Bool.or_true, if_pos rfl]
  | update table column => cases h

theorem column_cons {t : Table} {table column : String} : (Schema.mk (s.tables ++ [t]) s.indexes).column? table column =
    (s.column? table column || (t.name = table && t.columns.contains column)) := by
  simp [Schema.column?]

/-- A column that is added is there, and the others stay. -/
theorem column_added {table column table' column' : String} (h : s.column? table column = true ∨
      (table = table' ∧ column = column' ∧ s.tables.any (fun t => t.name = table') = true)) :
    (Schema.mk (s.tables.map fun t => if t.name = table' then { t with columns := t.columns ++ [column'] } else t)
      s.indexes).column? table column = true := by
  have hcolumn (t : Table) (ht : t ∈ s.tables) (hname : t.name = table)
      (hcols : column ∈ t.columns ∨ (table = table' ∧ column = column')) :
      (Schema.mk (s.tables.map fun t => if t.name = table' then { t with columns := t.columns ++ [column'] } else t)
        s.indexes).column? table column = true := by
    unfold Schema.column?
    rw [List.any_eq_true]
    refine ⟨_, List.mem_map.mpr ⟨t, ht, rfl⟩, ?_⟩
    by_cases hsame : t.name = table'
    · rw [if_pos hsame]
      rcases hcols with hcols | ⟨-, hcols⟩ <;> simp [hname, hcols]
    · rw [if_neg hsame]
      rcases hcols with hcols | ⟨htable, -⟩
      · simp [hname, hcols]
      · exact absurd (hname.trans htable) hsame
  rcases h with h | ⟨htable, hcol, h⟩
  · unfold Schema.column? at h
    obtain ⟨t, ht, hboth⟩ := List.any_eq_true.mp h
    rw [Bool.and_eq_true, decide_eq_true_eq, List.contains_iff_mem] at hboth
    exact hcolumn t ht hboth.1 (.inl hboth.2)
  · obtain ⟨t, ht, hname⟩ := List.any_eq_true.mp h
    rw [decide_eq_true_eq] at hname
    exact hcolumn t ht (hname.trans htable.symm) (.inr ⟨htable, hcol⟩)

/-- The tables, the indexes and the columns that are there stay. -/
structure Grows (s s' : Schema) : Prop where
  tables : ∀ name, (s.tables.any fun t => t.name = name) = true → (s'.tables.any fun t => t.name = name) = true
  indexes : ∀ name, s.indexes.contains name = true → s'.indexes.contains name = true
  columns : ∀ table column, s.column? table column = true → s'.column? table column = true

theorem grows_self (s : Schema) : Grows s s := ⟨fun _ h => h, fun _ h => h, fun _ _ h => h⟩

theorem grows_exec (h : stmt.exec s = some s') : Grows s s' := by
  cases stmt with
  | createTable name columns =>
    simp only [Stmt.exec] at h
    split at h
    · cases h
    · cases h
      refine ⟨fun _ ht => ?_, fun _ hi => hi, fun _ _ hc => ?_⟩
      · rw [List.any_append, ht, Bool.true_or]
      · rw [column_cons, hc, Bool.true_or]
  | createIndex name table column =>
    simp only [Stmt.exec] at h
    split at h
    · cases h
    · cases h
      refine ⟨fun _ ht => ht, fun _ hi => ?_, fun _ _ hc => hc⟩
      simp only [List.contains_iff_mem] at hi ⊢
      exact List.mem_append_left _ hi
  | addColumn table column =>
    simp only [Stmt.exec] at h
    split at h
    · cases h
    · cases h
      refine ⟨fun name ht => ?_, fun _ hi => hi, fun _ _ hc => column_added (.inl hc)⟩
      obtain ⟨t, hmem, hname⟩ := List.any_eq_true.mp ht
      refine List.any_eq_true.mpr ⟨_, List.mem_map.mpr ⟨t, hmem, rfl⟩, ?_⟩
      split <;> exact hname
  | update table column =>
    simp only [Stmt.exec] at h
    split at h
    · cases h
      exact grows_self s
    · cases h

theorem Grows.there (hg : Grows s s') (h : stmt.There s = true) : stmt.There s' = true := by
  cases stmt with
  | createTable name columns => exact hg.tables name h
  | createIndex name table column => exact hg.indexes name h
  | addColumn table column => exact hg.columns table column h
  | update table column => cases h

theorem grows_script (h : script stmts s = some s') : Grows s s' := by
  induction stmts generalizing s with
  | nil =>
    cases h
    exact grows_self _
  | cons stmt stmts ih =>
    obtain ⟨s1, h1, hrest⟩ := Option.bind_eq_some_iff.mp h
    have hfirst := grows_exec h1
    have hlater := ih hrest
    exact ⟨fun n ht => hlater.tables n (hfirst.tables n ht), fun n hi => hlater.indexes n (hfirst.indexes n hi),
      fun t c hc => hlater.columns t c (hfirst.columns t c hc)⟩

theorem there_exec (hmakes : stmt.Makes = true) (h : stmt.exec s = some s') : stmt.There s' = true := by
  cases stmt with
  | createTable name columns =>
    simp only [Stmt.exec] at h
    split at h
    · cases h
    · cases h
      simp [Stmt.There]
  | createIndex name table column =>
    simp only [Stmt.exec] at h
    split at h
    · cases h
    · cases h
      simp [Stmt.There]
  | addColumn table column =>
    simp only [Stmt.exec] at h
    split at h
    · cases h
    next hno =>
      cases h
      rw [Bool.or_eq_true, not_or] at hno
      refine column_added (.inr ⟨rfl, rfl, ?_⟩)
      cases hany : s.tables.any fun t => t.name = table with
      | true => rfl
      | false => exact absurd (by rw [hany]; rfl) hno.1
  | update table column => cases hmakes

/-- A script that was run leaves what its first statement makes. -/
theorem there_script (hmakes : stmt.Makes = true) (h : script (stmt :: stmts) s = some s') : stmt.There s' = true := by
  obtain ⟨s1, h1, hrest⟩ := Option.bind_eq_some_iff.mp h
  have hlater : script stmts s1 = some s' := hrest
  exact (grows_script hlater).there (there_exec hmakes h1)

/-! ## The laws -/

theorem heads_make : (migrations.all fun stmts => stmts.head?.any Stmt.Makes) = true := rfl

/-- What a script makes at first is there ever after. -/
theorem there_upTo {i v : Nat} {rest : List Stmt} (hmakes : stmt.Makes = true) (hi : migrations[i]? = some (stmt :: rest))
    (hlt : i < v) (hs : upTo allScripts noSchema v = some s) : stmt.There s = true := by
  induction v generalizing s with
  | zero => exact absurd hlt (Nat.not_lt_zero i)
  | succ v ih =>
    obtain ⟨s1, h1, hrest⟩ := Option.bind_eq_some_iff.mp hs
    obtain ⟨f, hf, hrun⟩ := Option.bind_eq_some_iff.mp hrest
    rw [allScripts, List.getElem?_map] at hf
    obtain ⟨stmts, hstmts, rfl⟩ := Option.map_eq_some_iff.mp hf
    rcases Nat.lt_succ_iff_lt_or_eq.mp hlt with hlt | rfl
    · exact (grows_script hrun).there (ih hlt h1)
    · rw [hi] at hstmts
      cases hstmts
      exact there_script hmakes hrun

theorem scripts_once : Once allScripts noSchema := by
  intro v i f s hlt hs hf
  rw [allScripts, List.getElem?_map] at hf
  obtain ⟨stmts, hstmts, rfl⟩ := Option.map_eq_some_iff.mp hf
  have hhead := List.all_eq_true.mp heads_make stmts (List.mem_of_getElem? hstmts)
  cases stmts with
  | nil => cases hhead
  | cons stmt rest =>
    have hthere := there_upTo hhead hstmts hlt hs
    simp only [script, List.foldlM_cons, exec_there hthere]
    rfl

theorem scripts_runnable : Runnable allScripts noSchema := by
  intro v hv
  have hlength : allScripts.length = 4 := rfl
  rw [hlength] at hv
  match v, hv with
  | 0, _ => rfl
  | 1, _ => rfl
  | 2, _ => rfl
  | 3, _ => rfl
  | 4, _ => rfl

/-- Whatever processes open the file at once, of which versions, and wherever they are
cut off: the schema is always the one that the first scripts make, as many as the version
says, each script was committed once and in order, and who got through finds all that it
knows. From there a process that is left alone gets through. -/
theorem upgraded_once (ms : List Move) (limit : Nat) (hlimit : limit ≤ migrations.length) :
    let w := runs.final (step allScripts) (begin noSchema) ms
    upTo allScripts noSchema w.store.version = some w.store.data ∧ w.log = List.range w.store.version ∧
      (∀ n ∈ w.ready, n ≤ w.store.version) ∧
      let w' := runs.final (step allScripts) w
        (.start limit :: List.replicate (limit - w.store.version + 1) (.advance w.procs.length))
      limit ∈ w'.ready ∧ w'.store.version = max limit w.store.version := by
  intro w
  have hg : Good allScripts noSchema w := good_run scripts_once ms
  refine ⟨hg.data, hg.log, hg.ready, ?_⟩
  exact completes hg scripts_once scripts_runnable (by simpa [allScripts] using hlimit)

/-- The command line is started while the hub goes through its scripts, and is cut off. -/
def twoProcesses : List Move := [.start 4, .advance 0, .start 4, .advance 0, .advance 1, .stop 0]

theorem twoProcesses_upgraded :
    let w := runs.final (step allScripts) (begin noSchema) twoProcesses
    upTo allScripts noSchema w.store.version = some w.store.data ∧ w.log = List.range w.store.version ∧
      (∀ n ∈ w.ready, n ≤ w.store.version) ∧
      let w' := runs.final (step allScripts) w
        (.start 4 :: List.replicate (4 - w.store.version + 1) (.advance w.procs.length))
      4 ∈ w'.ready ∧ w'.store.version = max 4 w.store.version :=
  upgraded_once twoProcesses 4 (by simp [migrations])

end icsd_panel.schemas

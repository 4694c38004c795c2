-- The runs of the backup plans: the rows that the panel shows, the tasks behind
-- them, and the ticker that starts the plans that are due.
import IcsdPanel.Alerts
import IcsdPanel.Dicts
import IcsdPanel.Runs
import IcsdPanel.Schedules
import IcsdPanel.Tasks
import Mathlib.Data.List.Perm.Subperm

open dicts

namespace icsd_panel.backup_runs

open alerts schedules tasks

/-! ## State -/

/-- A row of `backup_plans`, as far as the ticker and a start read it. -/
structure Plan extends schedules.Plan where
  id : Nat
  serverId : Sid
  destServer : Option Sid
deriving DecidableEq

inductive State
  | running | done | error
deriving DecidableEq

inductive Trigger
  | schedule | manual
deriving DecidableEq

/-- A row of `backup_runs` -/
structure Row where
  id : Nat
  planId : Option Nat
  serverId : Sid
  started : Int
  ended : Option Int
  state : State
  size : Option Nat
  path : Option String
  destServer : Option Sid
  destPath : Option String
  error : String
  trigger : Trigger
deriving DecidableEq

/-- The two tables, which outlive a restart, and `_running`: a task is about the row
that it writes. -/
structure Hub where
  plans : List Plan
  runs : List Row
  running : Dict Nat (BackupTask Nat)

def start : Hub := ⟨[], [], .empty⟩

/-- `MAX_PARALLEL` -/
def maxParallel : Nat := 2

/-! ## What the hub does -/

/-- The `INSERT` of `start` -/
def Plan.row (p : Plan) (run : Nat) (trigger : Trigger) (now : Int) : Row :=
  ⟨run, some p.id, p.serverId, now, none, .running, none, none, p.destServer, none, "", trigger⟩

/-- `start`, with the id of the row, or the status and the text of its refusal. -/
def startRun (id : Nat) (trigger : Trigger) (now : Int) (h : Hub) : Except (Nat × String) (Nat × Hub) :=
  (askedPlan h.running h.plans Plan.id id).map fun p =>
    let run := tables.newId Row.id h.runs
    (run, { h with
      runs := tables.insert Row.id (p.row · trigger now) h.runs
      running := h.running.set id ⟨run, false⟩ })

/-- The query of `tick` -/
def Hub.due (h : Hub) (now : ℚ) : List Plan :=
  h.plans.filter fun p => p.enabled && p.nextRun.any fun t => (t : ℚ) ≤ now

def Plan.postpone (now : ℚ) (p : Plan) : Plan :=
  { p with nextRun := some (nextRun p.everyHours p.startHour (some now) now) }

/-- The `UPDATE` of `tick`, with what the query gave for the plan. -/
def setNext (now : ℚ) (p : Plan) (plans : List Plan) : List Plan :=
  tables.update Plan.id p.id (fun q => { q with nextRun := some (nextRun p.everyHours p.startHour (some now) now) }) plans

/-- The loop of `tick`. The clock is read again for each row, and an exception of
`start` ends the loop. -/
def tickLoop (now : ℚ) (clock : Nat → Int) (online : Sid → Bool) : List Plan → Hub → Hub
  | [], h => h
  | p :: ps, h =>
    if (h.running.get p.id).isSome || maxParallel ≤ h.running.entries.length then tickLoop now clock online ps h
    else if !online p.serverId then tickLoop now clock online ps h
    else match startRun p.id .schedule (clock p.id) { h with plans := setNext now p h.plans } with
      | .ok (_, h) => tickLoop now clock online ps h
      | .error _ => { h with plans := setNext now p h.plans }

def tick (now : ℚ) (clock : Nat → Int) (online : Sid → Bool) (h : Hub) : Hub :=
  tickLoop now clock online (h.due now) h

/-- An `UPDATE` of one row. -/
def Hub.write (h : Hub) (run : Nat) (f : Row → Row) : Hub :=
  { h with runs := tables.update Row.id run f h.runs }

/-- The two ways in which `_run` ends. -/
def Row.close (now : Int) (error : Option String) (r : Row) : Row :=
  match error with
  | none => { r with state := .done, ended := some now }
  | some msg => { r with state := .error, ended := some now, error := String.ofList (msg.toList.take 1000) }

/-- What `_run` writes of its archive, and of the copy. -/
def Row.progress (size : Nat) (path : String) (destPath : Option String) (r : Row) : Row :=
  { r with size := some size, path := some path, destPath := destPath }

def progress (id size : Nat) (path : String) (destPath : Option String) (h : Hub) : Hub :=
  match h.running.get id with
  | some ⟨run, false⟩ => h.write run (Row.progress size path destPath)
  | _ => h

/-- The end of `_run` -/
def finish (id : Nat) (now : Int) (error : Option String) (h : Hub) : Hub :=
  match h.running.get id with
  | some ⟨run, false⟩ => { h.write run (Row.close now error) with running := h.running.set id ⟨run, true⟩ }
  | _ => h

/-- A row that a restart found running. -/
def Row.interrupt (now : Int) (r : Row) : Row :=
  if r.state = .running then
    { r with state := .error, ended := some now, error := "پنل در میانهٔ کار دوباره راه‌اندازی شد" }
  else r

/-- `recover`, at the start of a process without tasks. -/
def recover (now : Int) (h : Hub) : Hub := { h with runs := h.runs.map (Row.interrupt now), running := .empty }

/-- What `create` and `update` take from a valid body. -/
structure Body where
  serverId : Sid
  destServer : Option Sid
  everyHours : Nat
  startHour : Nat
  enabled : Bool

def Body.plan (b : Body) (id : Nat) (time : ℚ) : Plan :=
  ⟨⟨b.everyHours, b.startHour, b.enabled, some (nextRun b.everyHours b.startHour none time)⟩, id, b.serverId, b.destServer⟩

/-- `create` -/
def create (b : Body) (time : ℚ) (h : Hub) : Hub :=
  { h with plans := tables.insert Plan.id (b.plan · time) h.plans }

/-- `update` -/
def update (id : Nat) (b : Body) (time : ℚ) (h : Hub) : Hub :=
  { h with plans := tables.update Plan.id id (fun _ => b.plan id time) h.plans }

/-- `ON DELETE SET NULL` -/
def Row.orphan (gone : Nat → Bool) (r : Row) : Row := { r with planId := r.planId.filter fun id => !gone id }

/-- Plans that go, with `delete` or with their server. -/
def Hub.drop (h : Hub) (p : Plan → Bool) : Hub :=
  { h with
    plans := h.plans.filter fun q => !p q
    runs := h.runs.map (Row.orphan fun id => h.plans.any fun q => q.id = id && p q) }

inductive Move
  | create (b : Body) (time : ℚ)
  | update (id : Nat) (b : Body) (time : ℚ)
  | delete (id : Nat)
  | deleteServer (sid : Sid)
  | start (id : Nat) (now : Int)
  | tick (now : ℚ) (clock : Nat → Int) (online : Sid → Bool)
  | progress (id size : Nat) (path : String) (destPath : Option String)
  | finish (id : Nat) (now : Int) (error : Option String)
  | reap (id : Nat)
  | restart (now : Int)

def Hub.move (h : Hub) : Move → Hub
  | .create b time => backup_runs.create b time h
  | .update id b time => backup_runs.update id b time h
  | .delete id => h.drop fun p => p.id = id
  | .deleteServer sid => h.drop fun p => p.serverId = sid
  | .start id now =>
    match startRun id .manual now h with
    | .ok (_, h') => h'
    | .error _ => h
  | .tick now clock online => backup_runs.tick now clock online h
  | .progress id size path destPath => backup_runs.progress id size path destPath h
  | .finish id now error => backup_runs.finish id now error h
  | .reap id => { h with running := reap id h.running }
  | .restart now => recover now h

/-! ## The invariant -/

/-- The row of a run that the ticker started, and that goes on. -/
def Row.Scheduled (r : Row) : Prop := r.state = .running ∧ r.trigger = .schedule

instance (r : Row) : Decidable r.Scheduled := inferInstanceAs (Decidable (_ ∧ _))

/-- Each task has its row, and a row that runs has its task. The plan of a row is the
one that the task is kept under, or is gone. -/
structure Good (h : Hub) : Prop where
  ids : (h.runs.map Row.id).Nodup
  planIds : (h.plans.map Plan.id).Nodup
  task : ∀ id t, h.running.get id = some t →
    ∃ r ∈ h.runs, r.id = t.about ∧ (∀ p ∈ r.planId, p = id) ∧ (r.state = .running ↔ t.done = false)
  row : ∀ r ∈ h.runs, r.state = .running → ∃ id, h.running.get id = some ⟨r.id, false⟩
  one : ∀ id id' t t', h.running.get id = some t → h.running.get id' = some t' → t.about = t'.about → id = id'
  few : h.runs.countP Row.Scheduled ≤ maxParallel

variable {h h' : Hub} {id run : Nat} {now : Int} {r : Row} {ids : List Nat}

theorem close_id (error : Option String) : (r.close now error).id = r.id := by cases error <;> rfl

theorem close_planId (error : Option String) : (r.close now error).planId = r.planId := by cases error <;> rfl

theorem close_ended (error : Option String) : (r.close now error).state ≠ .running := by
  cases error <;> simp [Row.close]

theorem interrupt_id : (r.interrupt now).id = r.id := by
  unfold Row.interrupt
  split <;> rfl

theorem interrupt_ended : (r.interrupt now).state ≠ .running := by
  unfold Row.interrupt
  split
  · simp
  · assumption

theorem ids_map {f : Row → Row} (hf : ∀ r, (f r).id = r.id) (runs : List Row) :
    (runs.map f).map Row.id = runs.map Row.id := by
  rw [List.map_map]
  exact List.map_congr_left fun r _ => hf r

/-- Rows that change, but begin no scheduled run. -/
theorem few_map {f : Row → Row} (hf : ∀ r, (f r).Scheduled → r.Scheduled) (runs : List Row) :
    (runs.map f).countP Row.Scheduled ≤ runs.countP Row.Scheduled := by
  rw [List.countP_map]
  refine List.countP_mono_left fun r _ hr => ?_
  simp only [Function.comp_apply, decide_eq_true_eq] at hr ⊢
  exact hf r hr

/-- What leaves the tasks, the ids and the states. -/
theorem good_map (hg : Good h) {f : Row → Row} (hid : ∀ r, (f r).id = r.id)
    (hplan : ∀ r, ∀ p ∈ (f r).planId, p ∈ r.planId) (hstate : ∀ r, (f r).state = r.state)
    (htrigger : ∀ r, (f r).trigger = r.trigger) {plans : List Plan} (hplans : (plans.map Plan.id).Nodup) :
    Good { h with plans := plans, runs := h.runs.map f } where
  ids := by
    rw [ids_map hid]
    exact hg.ids
  planIds := hplans
  task id t ht := by
    obtain ⟨r, hr, hrun, hp, hs⟩ := hg.task id t ht
    refine ⟨f r, List.mem_map_of_mem hr, (hid r).trans hrun, fun p hmem => hp p (hplan r p hmem), ?_⟩
    rw [hstate]
    exact hs
  row r' hr' hs := by
    obtain ⟨r, hr, rfl⟩ := List.mem_map.mp hr'
    rw [hstate] at hs
    rw [hid]
    exact hg.row r hr hs
  one := hg.one
  few := by
    refine (few_map (fun r hr => ?_) h.runs).trans hg.few
    rwa [Row.Scheduled, hstate, htrigger] at hr

/-- The running rows are at most as many as the tasks. -/
theorem running_le (hg : Good h) : h.runs.countP (fun r => r.state = .running) ≤ h.running.entries.length := by
  have hnodup : ((h.runs.filter fun r => r.state = .running).map Row.id).Nodup :=
    hg.ids.sublist (List.filter_sublist.map _)
  have hsub : (h.runs.filter fun r => r.state = .running).map Row.id ⊆ h.running.entries.map fun e => e.2.about := by
    intro x hx
    obtain ⟨r, hr, rfl⟩ := List.mem_map.mp hx
    obtain ⟨hr, hs⟩ := List.mem_filter.mp hr
    obtain ⟨id, hget⟩ := hg.row r hr (of_decide_eq_true hs)
    exact List.mem_map.mpr ⟨_, Dict.mem_entries.mpr hget, rfl⟩
  have hle := (List.subperm_of_subset hnodup hsub).length_le
  rw [List.length_map, List.length_map] at hle
  rwa [List.countP_eq_length_filter]

theorem scheduled_le (hg : Good h) : h.runs.countP Row.Scheduled ≤ h.running.entries.length := by
  refine le_trans (List.countP_mono_left fun r _ hr => ?_) (running_le hg)
  simp only [decide_eq_true_eq] at hr ⊢
  exact hr.1

/-! ## Each move keeps it -/

theorem startRun_ok {trigger : Trigger} (hs : startRun id trigger now h = .ok (run, h')) :
    h.running.get id = none ∧ ∃ p ∈ h.plans, p.id = id ∧ run = tables.newId Row.id h.runs ∧
      h' = { h with runs := h.runs ++ [p.row run trigger now], running := h.running.set id ⟨run, false⟩ } := by
  unfold startRun at hs
  cases hasked : askedPlan h.running h.plans Plan.id id with
  | error er =>
    rw [hasked] at hs
    cases hs
  | ok p =>
    obtain ⟨hidle, hp, hid⟩ := askedPlan_ok hasked
    rw [hasked] at hs
    cases hs
    exact ⟨hidle, p, hp, hid, rfl, rfl⟩

theorem good_start (hg : Good h) {trigger : Trigger} (hs : startRun id trigger now h = .ok (run, h'))
    (hfew : trigger = .schedule → h.running.entries.length < maxParallel) : Good h' := by
  obtain ⟨hidle, p, hp, rfl, rfl, rfl⟩ := startRun_ok hs
  have hbusy : ∀ id t, h.running.get id = some t → t.about ≠ tables.newId Row.id h.runs := by
    intro id t ht
    obtain ⟨r, hr, hrun, -⟩ := hg.task id t ht
    rw [← hrun]
    exact (tables.newId_fresh hr).ne
  refine ⟨tables.append_ids hg.ids rfl, hg.planIds, ?_, ?_, ?_, ?_⟩
  · intro id t ht
    rw [Dict.get_set] at ht
    split at ht
    next hid =>
      cases ht
      exact ⟨_, List.mem_append_right _ (List.mem_singleton_self _), rfl, by simp [Plan.row, hid], by simp [Plan.row]⟩
    next =>
      obtain ⟨r, hr, hrow⟩ := hg.task id t ht
      exact ⟨r, List.mem_append_left _ hr, hrow⟩
  · intro r hr hrunning
    rcases List.mem_append.mp hr with hr | hr
    · obtain ⟨id, hget⟩ := hg.row r hr hrunning
      refine ⟨id, ?_⟩
      rw [Dict.get_set_ne, hget]
      rintro rfl
      rw [hidle] at hget
      cases hget
    · rw [List.mem_singleton.mp hr]
      exact ⟨p.id, Dict.get_set_self⟩
  · intro id id' t t' ht ht' hrun
    rw [Dict.get_set] at ht ht'
    split at ht <;> split at ht'
    next hid hid' => rw [hid, hid']
    next =>
      cases ht
      exact absurd hrun.symm (hbusy id' t' ht')
    next =>
      cases ht'
      exact absurd hrun (hbusy id t ht)
    next => exact hg.one id id' t t' ht ht' hrun
  · rw [List.countP_append, List.countP_singleton]
    split
    next hs =>
      have hsched : trigger = .schedule := (of_decide_eq_true hs).2
      have := scheduled_le hg
      have := hfew hsched
      omega
    next => exact hg.few

theorem setNext_ids (now : ℚ) (p : Plan) (plans : List Plan) :
    (setNext now p plans).map Plan.id = plans.map Plan.id := tables.update_ids fun _ hid => hid

theorem good_plans (hg : Good h) {plans : List Plan} (hplans : (plans.map Plan.id).Nodup) :
    Good { h with plans := plans } :=
  ⟨hg.ids, hplans, hg.task, hg.row, hg.one, hg.few⟩

theorem good_tickLoop {now : ℚ} {clock : Nat → Int} {online : Sid → Bool} (ps : List Plan) (hg : Good h) :
    Good (tickLoop now clock online ps h) := by
  induction ps generalizing h with
  | nil => exact hg
  | cons p ps ih =>
    have hplans : ((setNext now p h.plans).map Plan.id).Nodup := by
      rw [setNext_ids]
      exact hg.planIds
    rw [tickLoop]
    split
    · exact ih hg
    · rename_i hfree
      split
      · exact ih hg
      · split
        · rename_i h' hs
          have hlt : h.running.get p.id = none ∧ h.running.entries.length < maxParallel := by simpa using hfree
          exact ih (good_start (good_plans hg hplans) hs fun _ => hlt.2)
        · exact good_plans hg hplans

/-- A task that goes on writes to the row of its own. -/
theorem good_progress (hg : Good h) (size : Nat) (path : String) (destPath : Option String) :
    Good (progress id size path destPath h) := by
  unfold progress
  split
  · refine good_map hg ?_ ?_ ?_ ?_ hg.planIds <;> intro r
    · split <;> rfl
    · intro p hp
      split at hp <;> exact hp
    · split <;> rfl
    · split <;> rfl
  · exact hg

theorem good_finish (hg : Good h) (error : Option String) : Good (finish id now error h) := by
  unfold finish
  split
  next run hget =>
    refine ⟨?_, hg.planIds, ?_, ?_, ?_, ?_⟩
    · simp only [Hub.write]
      rw [tables.update_ids fun r hr => (close_id error).trans hr]
      exact hg.ids
    · intro id' t ht
      rw [Dict.get_set] at ht
      split at ht
      next heq =>
        cases ht
        obtain ⟨r, hr, hrun, hp, -⟩ := hg.task id _ hget
        refine ⟨r.close now error, ?_, (close_id error).trans hrun, ?_, ?_⟩
        · exact List.mem_map.mpr ⟨r, hr, by rw [if_pos hrun]⟩
        · rw [close_planId, heq]
          exact hp
        · simpa using close_ended error
      next hne =>
        obtain ⟨r, hr, hrun, hrest⟩ := hg.task id' t ht
        refine ⟨r, List.mem_map.mpr ⟨r, hr, if_neg ?_⟩, hrun, hrest⟩
        intro heq
        exact hne (hg.one id' id t _ ht hget (hrun.symm.trans heq))
    · intro r' hr' hrunning
      obtain ⟨r, hr, rfl⟩ := List.mem_map.mp hr'
      split at hrunning
      · exact absurd hrunning (close_ended error)
      next hne =>
        obtain ⟨id', hget'⟩ := hg.row r hr hrunning
        refine ⟨id', ?_⟩
        rw [if_neg hne, Dict.get_set_ne, hget']
        rintro rfl
        rw [hget] at hget'
        cases hget'
        exact hne rfl
    · intro id1 id2 t1 t2 h1 h2 hrun
      -- the task keeps its row
      have hold : ∀ id' t, (h.running.set id ⟨run, true⟩).get id' = some t →
          ∃ d, h.running.get id' = some ⟨t.about, d⟩ := by
        intro id' t ht
        rw [Dict.get_set] at ht
        split at ht
        next heq =>
          cases ht
          exact ⟨false, by rw [heq, hget]⟩
        next => exact ⟨t.done, ht⟩
      obtain ⟨d1, h1⟩ := hold id1 t1 h1
      obtain ⟨d2, h2⟩ := hold id2 t2 h2
      exact hg.one id1 id2 _ _ h1 h2 hrun
    · refine (few_map (fun r hr => ?_) h.runs).trans hg.few
      split at hr
      · exact absurd hr.1 (close_ended error)
      · exact hr
  · exact hg

theorem good_reap (hg : Good h) : Good { h with running := reap id h.running } where
  ids := hg.ids
  planIds := hg.planIds
  task id' t ht := hg.task id' t (reap_get ht)
  row r hr hrunning := by
    obtain ⟨id', hget⟩ := hg.row r hr hrunning
    exact ⟨id', reap_kept hget⟩
  one id1 id2 t1 t2 h1 h2 := hg.one id1 id2 t1 t2 (reap_get h1) (reap_get h2)
  few := hg.few

theorem good_recover (hg : Good h) : Good (recover now h) where
  ids := by
    simp only [recover]
    rw [ids_map fun r => interrupt_id]
    exact hg.ids
  planIds := hg.planIds
  task id t ht := by cases ht
  row r' hr' hs := by
    obtain ⟨r, hr, rfl⟩ := List.mem_map.mp hr'
    exact absurd hs interrupt_ended
  one id id' t t' ht := by cases ht
  few := (few_map (fun r hr => absurd hr.1 interrupt_ended) h.runs).trans hg.few

theorem good_drop (hg : Good h) (p : Plan → Bool) : Good (h.drop p) := by
  refine good_map hg ?_ ?_ ?_ ?_ (hg.planIds.sublist (List.filter_sublist.map _))
  · exact fun _ => rfl
  · intro r x hx
    exact (Option.filter_eq_some_iff.mp hx).1
  · exact fun _ => rfl
  · exact fun _ => rfl

theorem good_move (hg : Good h) (m : Move) : Good (h.move m) := by
  cases m with
  | create b time => exact good_plans hg (tables.insert_ids hg.planIds fun _ => rfl)
  | update id b time =>
    have hids : (tables.update Plan.id id (fun _ => b.plan id time) h.plans).map Plan.id = h.plans.map Plan.id :=
      tables.update_ids fun _ _ => rfl
    refine good_plans hg ?_
    rw [hids]
    exact hg.planIds
  | delete id => exact good_drop hg _
  | deleteServer sid => exact good_drop hg _
  | start id now =>
    simp only [Hub.move]
    split
    next hs => exact good_start hg hs nofun
    next => exact hg
  | tick now clock online => exact good_tickLoop _ hg
  | progress id size path destPath => exact good_progress hg size path destPath
  | finish id now error => exact good_finish hg error
  | reap id => exact good_reap hg
  | restart now => exact good_recover hg

/-- The hub after some moves. -/
def after (ms : List Move) : Hub := runs.final Hub.move start ms

theorem good_after (ms : List Move) : Good (after ms) := by
  refine runs.final_invariant (P := fun _ => True) (fun _ m hg _ => good_move hg m) ?_ fun _ _ => trivial
  refine ⟨List.nodup_nil, List.nodup_nil, ?_, ?_, ?_, Nat.zero_le _⟩
  · intro id t ht
    cases ht
  · intro r hr
    cases hr
  · intro id id' t t' ht
    cases ht

/-! ## What the panel shows -/

/-- The ids of the rows that the panel shows as running. -/
def Hub.shown (h : Hub) : List Nat := (h.runs.filter fun r => r.state = .running).map Row.id

/-- The ids of the rows that a task still writes to. -/
def Hub.written (h : Hub) : List Nat := (h.running.entries.filter fun e => !e.2.done).map fun e => e.2.about

theorem mem_shown : run ∈ h.shown ↔ ∃ r ∈ h.runs, r.id = run ∧ r.state = .running := by
  unfold Hub.shown
  rw [List.mem_map]
  constructor
  · rintro ⟨r, hr, rfl⟩
    obtain ⟨hr, hs⟩ := List.mem_filter.mp hr
    exact ⟨r, hr, rfl, of_decide_eq_true hs⟩
  · rintro ⟨r, hr, rfl, hs⟩
    exact ⟨r, List.mem_filter.mpr ⟨hr, decide_eq_true hs⟩, rfl⟩

theorem mem_written : run ∈ h.written ↔ ∃ id, h.running.get id = some ⟨run, false⟩ := by
  unfold Hub.written
  rw [List.mem_map]
  constructor
  · rintro ⟨⟨id, run, done⟩, he, rfl⟩
    obtain ⟨he, hdone⟩ := List.mem_filter.mp he
    have hdone : done = false := by simpa using hdone
    subst hdone
    exact ⟨id, Dict.mem_entries.mp he⟩
  · rintro ⟨id, hget⟩
    exact ⟨_, List.mem_filter.mpr ⟨Dict.mem_entries.mpr hget, rfl⟩, rfl⟩

theorem shown_nodup (hg : Good h) : h.shown.Nodup := hg.ids.sublist (List.filter_sublist.map _)

theorem written_nodup (hg : Good h) : h.written.Nodup := by
  refine List.Nodup.map_on ?_ (List.Nodup.filter _ (List.Nodup.of_map _ h.running.distinct))
  rintro ⟨id, t⟩ he ⟨id', t'⟩ he' hrun
  have hget := Dict.mem_entries.mp (List.mem_filter.mp he).1
  have hget' := Dict.mem_entries.mp (List.mem_filter.mp he').1
  have hid := hg.one id id' t t' hget hget' hrun
  subst hid
  rw [hget] at hget'
  cases hget'
  rfl

/-- The rows that the panel shows as running are the rows of the tasks that go on, one
for each, and no two of them are of one plan. -/
theorem rows_tell_tasks (ms : List Move) :
    (after ms).shown.Perm (after ms).written ∧
      ∀ r ∈ (after ms).runs, ∀ r' ∈ (after ms).runs, r.state = .running → r'.state = .running →
        r.planId.isSome → r.planId = r'.planId → r = r' := by
  have hg := good_after ms
  constructor
  · refine (List.perm_ext_iff_of_nodup (shown_nodup hg) (written_nodup hg)).mpr fun run => ?_
    rw [mem_shown, mem_written]
    constructor
    · rintro ⟨r, hr, rfl, hs⟩
      exact hg.row r hr hs
    · rintro ⟨id, hget⟩
      obtain ⟨r, hr, hrun, -, hs⟩ := hg.task id _ hget
      exact ⟨r, hr, hrun, hs.mpr rfl⟩
  · intro r hr r' hr' hs hs' hplan heq
    obtain ⟨p, hp⟩ := Option.isSome_iff_exists.mp hplan
    -- both rows are written by the task of their plan
    have hkept : ∀ r ∈ (after ms).runs, r.state = .running → r.planId = some p →
        (after ms).running.get p = some ⟨r.id, false⟩ := by
      intro r hr hs hp
      obtain ⟨id, hget⟩ := hg.row r hr hs
      obtain ⟨r1, hr1, hrun, hplan, -⟩ := hg.task id _ hget
      have hsame : r1 = r := List.inj_on_of_nodup_map hg.ids hr1 hr hrun
      rw [hsame] at hplan
      rw [hplan p hp, hget]
    have hget := hkept r hr hs hp
    rw [hkept r' hr' hs' (heq.symm.trans hp)] at hget
    have hid : r'.id = r.id := by simpa using hget
    exact List.inj_on_of_nodup_map hg.ids hr hr' hid.symm

/-- At no moment of any run more than `MAX_PARALLEL` runs of the ticker go on. -/
theorem scheduled_few (ms : List Move) : (after ms).runs.countP Row.Scheduled ≤ maxParallel :=
  (good_after ms).few

/-! ## A row that ended -/

/-- The row is the old one, but for a plan that is gone. -/
def Row.Kept (r r' : Row) : Prop := r' = r ∨ r' = { r with planId := none }

theorem kept_trans {r r' r'' : Row} (h1 : r.Kept r') (h2 : r'.Kept r'') : r.Kept r'' := by
  rcases h1 with rfl | rfl
  · exact h2
  · rcases h2 with rfl | rfl <;> exact .inr rfl

theorem kept_state {r r' : Row} (h : r.Kept r') : r'.state = r.state := by
  rcases h with rfl | rfl <;> rfl

theorem kept_orphan (gone : Nat → Bool) : r.Kept (r.orphan gone) := by
  unfold Row.orphan
  cases hp : r.planId with
  | none => exact .inl (by rw [Option.filter_none, ← hp])
  | some p =>
    rw [Option.filter_some]
    split
    · exact .inl (by rw [← hp])
    · exact .inr rfl

/-- A start adds a row. -/
theorem startRun_runs {trigger : Trigger} (hs : startRun id trigger now h = .ok (run, h')) : h.runs ⊆ h'.runs := by
  obtain ⟨-, p, -, -, -, rfl⟩ := startRun_ok hs
  exact List.subset_append_left _ _

theorem tickLoop_runs {now : ℚ} {clock : Nat → Int} {online : Sid → Bool} (ps : List Plan) (h : Hub) :
    h.runs ⊆ (tickLoop now clock online ps h).runs := by
  induction ps generalizing h with
  | nil => exact List.Subset.refl _
  | cons p ps ih =>
    rw [tickLoop]
    split
    · exact ih h
    · split
      · exact ih h
      · split
        next h' hs =>
          have hsub : h.runs ⊆ h'.runs := startRun_runs (h := { h with plans := setNext now p h.plans }) hs
          exact List.Subset.trans hsub (ih h')
        next => exact List.Subset.refl _

/-- Only the row of a task that goes on is written. -/
theorem write_ended (hg : Good h) (hget : h.running.get id = some ⟨run, false⟩) (hr : r ∈ h.runs)
    (hs : r.state ≠ .running) (f : Row → Row) : r ∈ (h.write run f).runs := by
  refine tables.mem_update_of_ne hr ?_
  intro heq
  obtain ⟨r', hr', hrun, -, hs'⟩ := hg.task id _ hget
  have hsame : r' = r := List.inj_on_of_nodup_map hg.ids hr' hr (hrun.trans heq.symm)
  rw [hsame] at hs'
  exact hs (hs'.mpr rfl)

theorem kept_move (hg : Good h) (hr : r ∈ h.runs) (hs : r.state ≠ .running) (m : Move) :
    ∃ r' ∈ (h.move m).runs, r.Kept r' := by
  have hsame {h' : Hub} (hmem : r ∈ h'.runs) : ∃ r' ∈ h'.runs, r.Kept r' := ⟨r, hmem, .inl rfl⟩
  cases m with
  | create b time => exact hsame hr
  | update id b time => exact hsame hr
  | delete id => exact ⟨_, List.mem_map_of_mem hr, kept_orphan _⟩
  | deleteServer sid => exact ⟨_, List.mem_map_of_mem hr, kept_orphan _⟩
  | start id now =>
    simp only [Hub.move]
    split
    next hstart => exact hsame (startRun_runs hstart hr)
    next => exact hsame hr
  | tick now clock online => exact hsame (tickLoop_runs _ h hr)
  | progress id size path destPath =>
    simp only [Hub.move, progress]
    split
    next hget => exact hsame (write_ended hg hget hr hs _)
    next => exact hsame hr
  | finish id now error =>
    simp only [Hub.move, finish]
    split
    next hget => exact hsame (write_ended hg hget hr hs _)
    next => exact hsame hr
  | reap id => exact hsame hr
  | restart now => exact hsame (List.mem_map.mpr ⟨r, hr, if_neg hs⟩)

/-- Whatever happens later, the row of a run that ended stays as it is: nothing ends it
again, also not a hub that is started again. -/
theorem ended_row_stays (ms ms' : List Move) (r : Row) (hr : r ∈ (after ms).runs) (hs : r.state ≠ .running) :
    ∃ r' ∈ (after (ms ++ ms')).runs, r' = r ∨ r' = { r with planId := none } := by
  have hrun : ∀ (ms' : List Move) (h : Hub), Good h → (∃ r' ∈ h.runs, r.Kept r') →
      ∃ r' ∈ (runs.final Hub.move h ms').runs, r.Kept r' := by
    intro ms' h hg hkept
    refine (runs.final_invariant (I := fun h => Good h ∧ ∃ r' ∈ h.runs, r.Kept r') (P := fun _ => True)
      (fun h m hI _ => ?_) ⟨hg, hkept⟩ fun _ _ => trivial).2
    obtain ⟨hg, r1, hr1, h1⟩ := hI
    obtain ⟨r2, hr2, h2⟩ := kept_move hg hr1 (by rwa [kept_state h1]) m
    exact ⟨good_move hg m, r2, hr2, kept_trans h1 h2⟩
  rw [after, runs.final_append]
  exact hrun ms' _ (good_after ms) ⟨r, hr, .inl rfl⟩

/-- A plan, and a run of it that ends well. -/
def ranOnce : List Move :=
  [.create ⟨"s1", none, 24, 3, true⟩ 100000, .start 1 100000, .progress 1 7 "/var/backups/icsd/a.gz" none, .finish 1 100060 none]

def ranRow : Row :=
  ⟨1, some 1, "s1", 100000, some 100060, .done, some 7, some "/var/backups/icsd/a.gz", none, none, "", .manual⟩

theorem ended_row_of_deleted_plan :
    ∃ r' ∈ (after (ranOnce ++ [.reap 1, .delete 1, .restart 100090])).runs, r' = ranRow ∨ r' = { ranRow with planId := none } :=
  ended_row_stays ranOnce [.reap 1, .delete 1, .restart 100090] ranRow (List.mem_singleton.mpr rfl) nofun

/-! ## What a tick starts -/

/-- The plans of a list that a tick may start: their servers are connected, and they do
not run. -/
def Hub.ready (h : Hub) (online : Sid → Bool) (ps : List Plan) : List Plan :=
  ps.filter fun p => online p.serverId && (h.running.get p.id).isNone

/-- The places that are left below `MAX_PARALLEL`. -/
def Hub.free (h : Hub) : Nat := maxParallel - h.running.entries.length

/-- What became of the hub when these plans were started, each with a row, and with a
time of its next run. -/
structure Started (now : ℚ) (clock : Nat → Int) (h h' : Hub) (ps : List Plan) : Prop where
  keys : h'.running.keys = h.running.keys ++ ps.map Plan.id
  plans : h'.plans = h.plans.map fun q => if q.id ∈ ps.map Plan.id then q.postpone now else q
  rows : ∃ rows, h'.runs = h.runs ++ rows ∧
    List.Forall₂ (fun p r => r = p.row r.id .schedule (clock p.id)) ps rows

variable {now : ℚ} {clock : Nat → Int} {online : Sid → Bool} {p : Plan} {ps : List Plan}

theorem started_nil : Started now clock h h [] :=
  ⟨by simp, by simp, [], by simp, .nil⟩

theorem setNext_eq (hp : p ∈ h.plans) (hids : (h.plans.map Plan.id).Nodup) :
    setNext now p h.plans = h.plans.map fun q => if q.id = p.id then q.postpone now else q := by
  refine List.map_congr_left fun q hq => ?_
  split
  next heq =>
    rw [List.inj_on_of_nodup_map hids hq hp heq]
    rfl
  next => rfl

/-- A plan that does not run, found by the query, is started. -/
theorem startRun_fresh (now : ℚ) (clock : Nat → Int) (hidle : h.running.get p.id = none) (hp : p ∈ h.plans) (hids : (h.plans.map Plan.id).Nodup) :
    ∃ h1, startRun p.id .schedule (clock p.id) { h with plans := setNext now p h.plans } =
        .ok (tables.newId Row.id h.runs, h1) ∧
      h1.plans = setNext now p h.plans ∧
      h1.running = h.running.set p.id ⟨tables.newId Row.id h.runs, false⟩ ∧
      h1.runs = h.runs ++ [p.row (tables.newId Row.id h.runs) .schedule (clock p.id)] := by
  have hmem : p.postpone now ∈ setNext now p h.plans := List.mem_map.mpr ⟨p, hp, if_pos rfl⟩
  have hnodup : ((setNext now p h.plans).map Plan.id).Nodup := by
    rw [setNext_ids]
    exact hids
  have hfind : (setNext now p h.plans).find? (fun q => q.id = p.id) = some (p.postpone now) := by
    have hsome : ((setNext now p h.plans).find? fun q => q.id = p.id).isSome := by
      rw [List.find?_isSome]
      exact ⟨_, hmem, by simp [Plan.postpone]⟩
    obtain ⟨q, hq⟩ := Option.isSome_iff_exists.mp hsome
    have hid : q.id = p.id := by simpa using List.find?_some hq
    rw [hq, List.inj_on_of_nodup_map hnodup (List.mem_of_find?_eq_some hq) hmem hid]
  unfold startRun
  simp only
  rw [askedPlan_idle hidle hfind]
  exact ⟨_, rfl, rfl, rfl, rfl⟩

theorem keys_set {d : Dict Nat (BackupTask Nat)} {t : BackupTask Nat} (hidle : d.get id = none) : (d.set id t).keys = d.keys ++ [id] := by
  have hnew : id ∉ d.keys := by
    rw [Dict.mem_keys, hidle]
    simp
  rw [Dict.set, dif_neg hnew]
  simp [Dict.keys]

theorem Started.cons {h1 h2 : Hub} {run : Nat} (hnew : p.id ∉ ps.map Plan.id) (hp : p ∈ h.plans)
    (hids : (h.plans.map Plan.id).Nodup) (hidle : h.running.get p.id = none)
    (hplans : h1.plans = setNext now p h.plans) (hrunning : h1.running = h.running.set p.id ⟨run, false⟩)
    (hruns : h1.runs = h.runs ++ [p.row run .schedule (clock p.id)]) (hrest : Started now clock h1 h2 ps) :
    Started now clock h h2 (p :: ps) where
  keys := by
    rw [hrest.keys, hrunning, keys_set hidle, List.append_assoc]
    rfl
  plans := by
    rw [hrest.plans, hplans, setNext_eq hp hids, List.map_map]
    refine List.map_congr_left fun q _ => ?_
    by_cases hq : q.id = p.id
    · simp [hq, Plan.postpone, hnew]
    · simp [hq]
  rows := by
    obtain ⟨rows, heq, hall⟩ := hrest.rows
    refine ⟨p.row run .schedule (clock p.id) :: rows, ?_, .cons rfl hall⟩
    rw [heq, hruns, List.append_assoc]
    rfl

theorem tickLoop_exact (hids : (h.plans.map Plan.id).Nodup) (hps : (ps.map Plan.id).Nodup)
    (hmem : ∀ p ∈ ps, p ∈ h.plans) :
    Started now clock h (tickLoop now clock online ps h) ((h.ready online ps).take h.free) := by
  induction ps generalizing h with
  | nil =>
    simp only [Hub.ready, List.filter_nil, List.take_nil, tickLoop]
    exact started_nil
  | cons p ps ih =>
    obtain ⟨hnew, hps⟩ := List.nodup_cons.mp hps
    have hp := hmem p List.mem_cons_self
    have hrest : ∀ q ∈ ps, q ∈ h.plans := fun q hq => hmem q (List.mem_cons_of_mem p hq)
    rw [tickLoop]
    split
    next hbusy =>
      have hskip : (h.ready online (p :: ps)).take h.free = (h.ready online ps).take h.free := by
        rcases Bool.or_eq_true_iff.mp hbusy with hruns | hfull
        · simp [Hub.ready, Option.isSome_iff_ne_none.mp hruns]
        · have hfree : h.free = 0 := Nat.sub_eq_zero_of_le (of_decide_eq_true hfull)
          simp [hfree]
      rw [hskip]
      exact ih hids hps hrest
    next hfree =>
      have hfree : h.running.get p.id = none ∧ h.running.entries.length < maxParallel := by simpa using hfree
      obtain ⟨hidle, hlt⟩ := hfree
      split
      next hoff =>
        have hskip : h.ready online (p :: ps) = h.ready online ps := by
          simpa [Hub.ready, List.filter_cons] using fun hon => absurd hon (by simpa using hoff)
        rw [hskip]
        exact ih hids hps hrest
      next hon =>
        obtain ⟨h1, hs, hplans, hrunning, hruns⟩ := startRun_fresh now clock hidle hp hids
        simp only [hs]
        have hids1 : (h1.plans.map Plan.id).Nodup := by
          rw [hplans, setNext_ids]
          exact hids
        have hne : ∀ q ∈ ps, q.id ≠ p.id := fun q hq heq => hnew (heq ▸ List.mem_map_of_mem hq)
        have hmem1 : ∀ q ∈ ps, q ∈ h1.plans := by
          intro q hq
          rw [hplans]
          exact List.mem_map.mpr ⟨q, hrest q hq, if_neg (hne q hq)⟩
        have hready : h1.ready online ps = h.ready online ps := by
          refine List.filter_congr fun q hq => ?_
          rw [hrunning, Dict.get_set_ne (hne q hq)]
        have hlen : h1.running.entries.length = h.running.entries.length + 1 := by
          have hkeys := congrArg List.length (keys_set (t := ⟨tables.newId Row.id h.runs, false⟩) hidle)
          rw [← hrunning] at hkeys
          simpa [Dict.keys] using hkeys
        have htake : (h.ready online (p :: ps)).take h.free = p :: (h1.ready online ps).take h1.free := by
          have hfree : h.free = h1.free + 1 := by
            unfold Hub.free
            omega
          rw [hready, hfree, ← List.take_succ_cons]
          congr 1
          simpa [Hub.ready, List.filter_cons, hidle] using hon
        rw [htake]
        refine Started.cons ?_ hp hids hidle hplans hrunning hruns (ih hids1 hps hmem1)
        intro hin
        obtain ⟨q, hq, heq⟩ := List.mem_map.mp hin
        exact hne q (List.mem_filter.mp (List.mem_of_mem_take hq)).1 heq

/-- In every state that the hub can be in, a tick starts exactly the first of the due
plans that do not run and whose servers are connected, as many as there are places
left, and leaves the others due. -/
theorem tick_starts (ms : List Move) (now : ℚ) (clock : Nat → Int) (online : Sid → Bool) :
    Started now clock (after ms) (tick now clock online (after ms))
      (((after ms).ready online ((after ms).due now)).take (after ms).free) := by
  have hids := (good_after ms).planIds
  refine tickLoop_exact hids (hids.sublist (List.filter_sublist.map _)) fun p hp => ?_
  exact (List.mem_filter.mp hp).1

end icsd_panel.backup_runs

-- Background jobs of the agent: a registry that forgets a job some time after its
-- end, and a log that keeps its tail.
import IcsdPanel.Dicts
import IcsdPanel.Runs
import IcsdPanel.Texts

open dicts texts

namespace icsd_panel.registry

variable {ρ : Type}

/-! ## State -/

abbrev Bytes := List UInt8

inductive State
  | running | done | error
deriving DecidableEq

/-- A `Job` with a result in `ρ`. What the hub sees of it, its `JobView`, has the
same fields. -/
structure Job (ρ : Type) where
  id : Str
  kind : Str
  title : Str
  state : State
  started : Int
  ended : Int
  log : Bytes
  error : Str
  result : Option ρ

/-- The jobs that the agent ever started, in their order, and its map of them. A
place in the list stands for a `*Job`. The jobs from `first` on belong to the process
that runs now. -/
structure Runner (ρ : Type) where
  all : List (Job ρ)
  jobs : Dict Str Nat
  first : Nat

def start : Runner ρ := ⟨[], .empty, 0⟩

/-- Six hours. -/
def keepFor : Int := 6 * 3600

def logMax : Nat := 64 * 1024

def logTail : Nat := 48 * 1024

/-! ## What the agent does -/

/-- `Logf`, with the line that it formats. -/
def Job.logf (line : Bytes) (j : Job ρ) : Job ρ :=
  let log := j.log ++ line ++ [10]
  { j with log := if logMax < log.length then log.drop (log.length - logTail) else log }

/-- The end of the function of `Start`. A panic is an error. -/
def Job.finish (now : Int) (r : Except Str ρ) (j : Job ρ) : Job ρ :=
  match r with
  | .error err => { j with ended := now, state := .error, error := err }
  | .ok res => { j with ended := now, state := .done, result := some res }

/-- `old` of `gc` -/
def Job.old (now : Int) (j : Job ρ) : Bool := j.ended ≠ 0 && j.ended < now - keepFor

def Runner.oldAt (r : Runner ρ) (now : Int) (p : Nat) : Bool := (r.all[p]?).any (Job.old now)

/-- `gc` -/
def Runner.gc (now : Int) (r : Runner ρ) : Runner ρ :=
  { r with jobs := r.jobs.filter fun _ p => !r.oldAt now p }

/-- `Start`, with the id that it draws and the two readings of the clock. -/
def Runner.startJob (id kind title : Str) (started now : Int) (r : Runner ρ) : Runner ρ :=
  let r := r.gc now
  { r with
    all := r.all ++ [⟨id, kind, title, .running, started, 0, [], [], none⟩]
    jobs := r.jobs.set id r.all.length }

/-- `jobStatus` -/
def Runner.jobStatus (r : Runner ρ) (id : Str) : Except String (Job ρ) :=
  match (r.jobs.get id).bind fun p => r.all[p]? with
  | none => .error "کار پیدا نشد (شاید agent دوباره راه‌اندازی شده)"
  | some j => .ok j

/-- `jobList`: the jobs without their logs, the newest first. The order of the map is
`order`, and `sort` is `sort.Slice`. -/
def Runner.jobList (sort : List (Job ρ) → List (Job ρ)) (order : List Str) (r : Runner ρ) : List (Job ρ) :=
  sort ((order.filterMap fun id => (r.jobs.get id).bind fun p => r.all[p]?).map fun j => { j with log := [] })

/-- The function of a job is at work until its end. -/
def Runner.atWork (r : Runner ρ) (p : Nat) (f : Job ρ → Job ρ) : Runner ρ :=
  { r with all := r.all.modify p fun j => if j.state = .running ∧ r.first ≤ p then f j else j }

/-- A job starts, writes to its log, or ends, and the agent is started again. -/
inductive Move (ρ : Type)
  | start (id kind title : Str) (started now : Int)
  | logf (p : Nat) (line : Bytes)
  | finish (p : Nat) (now : Int) (r : Except Str ρ)
  | restart

def step (r : Runner ρ) : Move ρ → Runner ρ
  | .start id kind title started now => r.startJob id kind title started now
  | .logf p line => r.atWork p (Job.logf line)
  | .finish p now res => r.atWork p (Job.finish now res)
  | .restart => { r with jobs := .empty, first := r.all.length }

/-! ## Ids and places -/

/-- The ids that the starts draw. -/
def drawn : List (Move ρ) → List Str
  | [] => []
  | .start id .. :: ms => id :: drawn ms
  | _ :: ms => drawn ms

/-- The job at a place is no longer in the map after the move. -/
def Forgets (r : Runner ρ) (p : Nat) : Move ρ → Prop
  | .start _ _ _ _ now => r.oldAt now p = true
  | .restart => True
  | _ => False

/-- The move forgets nothing at the place, when a job is there. -/
def Spares (p : Nat) (r : Runner ρ) (m : Move ρ) : Prop := p < r.all.length → ¬ Forgets r p m

/-- The map leads to jobs with the ids that it has for them. -/
def Placed (r : Runner ρ) : Prop :=
  ∀ id p, r.jobs.get id = some p → ∃ j, r.all[p]? = some j ∧ j.id = id

variable {r : Runner ρ} {m : Move ρ} {ms ms' : List (Move ρ)} {p : Nat} {id : Str} {j : Job ρ} {now : Int}

theorem logf_id (line : Bytes) : (j.logf line).id = j.id := rfl

theorem finish_id (res : Except Str ρ) : (j.finish now res).id = j.id := by cases res <;> rfl

theorem atWork_get (f : Job ρ → Job ρ) : (r.atWork p f).all[p]? =
    (r.all[p]?).map fun j => if j.state = .running ∧ r.first ≤ p then f j else j := by
  simp [Runner.atWork]

theorem atWork_get_ne {q : Nat} (f : Job ρ → Job ρ) (h : q ≠ p) : (r.atWork p f).all[q]? = r.all[q]? := by
  simp [Runner.atWork, Ne.symm h]

/-- What a move makes of a job that was started before it. -/
def Job.after (r : Runner ρ) (p : Nat) (m : Move ρ) (j : Job ρ) : Job ρ :=
  match m with
  | .logf q line => if q = p ∧ j.state = .running ∧ r.first ≤ p then j.logf line else j
  | .finish q now res => if q = p ∧ j.state = .running ∧ r.first ≤ p then j.finish now res else j
  | _ => j

theorem step_get (h : r.all[p]? = some j) : (step r m).all[p]? = some (j.after r p m) := by
  have hlt : p < r.all.length := (List.getElem?_eq_some_iff.mp h).1
  cases m with
  | start id kind title started now =>
    simp only [step, Runner.startJob, Runner.gc, Job.after]
    rw [List.getElem?_append_left hlt, h]
  | logf q line =>
    by_cases hq : q = p
    · subst hq
      simp [step, atWork_get, h, Job.after]
    · simp only [step, Job.after, hq, false_and, if_false]
      rw [atWork_get_ne _ (Ne.symm hq), h]
  | finish q now res =>
    by_cases hq : q = p
    · subst hq
      simp [step, atWork_get, h, Job.after]
    · simp only [step, Job.after, hq, false_and, if_false]
      rw [atWork_get_ne _ (Ne.symm hq), h]
  | restart => exact h

theorem after_id : (j.after r p m).id = j.id := by
  unfold Job.after
  split
  · split
    · exact logf_id _
    · rfl
  · split
    · exact finish_id _
    · rfl
  · rfl

/-- A job that ended does not change. -/
theorem after_ended (h : j.state ≠ .running) : j.after r p m = j := by
  unfold Job.after
  split <;> simp [h]

theorem atWork_ids {f : Job ρ → Job ρ} (hf : ∀ j, (f j).id = j.id) :
    (r.atWork p f).all.map Job.id = r.all.map Job.id := by
  refine List.ext_getElem? fun q => ?_
  rw [List.getElem?_map, List.getElem?_map]
  by_cases hq : q = p
  · subst hq
    rw [atWork_get, Option.map_map]
    refine congrArg (Option.map · _) (funext fun j => ?_)
    rw [Function.comp_apply]
    split
    · exact hf j
    · rfl
  · rw [atWork_get_ne f hq]

/-- The list of the jobs only grows, by the one that starts. -/
theorem step_ids : (step r m).all.map Job.id = r.all.map Job.id ++ drawn [m] := by
  cases m with
  | start id kind title started now => simp [step, Runner.startJob, Runner.gc, drawn]
  | logf q line => simp [step, drawn, atWork_ids fun j => @logf_id ρ j line]
  | finish q now res => simp [step, drawn, atWork_ids fun j => @finish_id ρ j now res]
  | restart => simp [step, drawn]

theorem step_length : (step r m).all.length = r.all.length + (drawn [m]).length := by
  simpa using congrArg List.length (step_ids (r := r) (m := m))

theorem ended_run (h : r.all[p]? = some j) (hend : j.state ≠ .running) (ms : List (Move ρ)) :
    (runs.final step r ms).all[p]? = some j := by
  induction ms generalizing r with
  | nil => exact h
  | cons m ms ih =>
    apply ih
    rw [step_get h, after_ended hend]

theorem id_run (h : r.all[p]? = some j) (ms : List (Move ρ)) :
    ∃ j', (runs.final step r ms).all[p]? = some j' ∧ j'.id = j.id := by
  induction ms generalizing r j with
  | nil => exact ⟨j, h, rfl⟩
  | cons m ms ih =>
    obtain ⟨j', hj', hid⟩ := ih (step_get h)
    exact ⟨j', hj', hid.trans after_id⟩

/-! ## What the map holds -/

theorem placed_start : Placed (start : Runner ρ) := by
  intro id p h
  simp [start] at h

theorem jobs_atWork (f : Job ρ → Job ρ) : (r.atWork p f).jobs = r.jobs := rfl

theorem gc_get : (r.gc now).jobs.get id = some p ↔ r.jobs.get id = some p ∧ r.oldAt now p = false := by
  simp [Runner.gc, Dict.get_filter, Option.filter_eq_some_iff]

theorem placed_step (h : Placed r) : Placed (step r m) := by
  have hkeep : ∀ id p, r.jobs.get id = some p → ∃ j, (step r m).all[p]? = some j ∧ j.id = id := by
    intro id p hget
    obtain ⟨j, hj, hid⟩ := h id p hget
    exact ⟨_, step_get hj, after_id.trans hid⟩
  intro id' p hget
  cases m with
  | start id kind title started now =>
    simp only [step, Runner.startJob, Dict.get_set] at hget
    by_cases hid : id' = id
    · rw [if_pos hid] at hget
      cases hget
      refine ⟨_, List.getElem?_concat_length, hid.symm⟩
    · rw [if_neg hid] at hget
      exact hkeep id' p (gc_get.mp hget).1
  | logf q line => exact hkeep id' p hget
  | finish q now res => exact hkeep id' p hget
  | restart => simp [step] at hget

/-- A job stays in the map unless the move forgets it. -/
theorem get_step (hnew : j.id ∉ drawn [m]) :
    (step r m).jobs.get j.id = some p ↔ r.jobs.get j.id = some p ∧ ¬ Forgets r p m := by
  cases m with
  | start id kind title started now =>
    have hne : j.id ≠ id := by simpa [drawn] using hnew
    have hget : (step r (.start id kind title started now)).jobs.get j.id = (r.gc now).jobs.get j.id := by
      simp [step, Runner.startJob, Dict.get_set_ne hne]
    rw [hget, gc_get]
    simp [Forgets]
  | logf q line => simp [step, jobs_atWork, Forgets]
  | finish q now res => simp [step, jobs_atWork, Forgets]
  | restart => simp [step, Forgets]

theorem get_started {kind title : Str} {started : Int} :
    (step r (.start id kind title started now)).jobs.get id = some r.all.length := by
  simp [step, Runner.startJob, Runner.gc]

theorem drawn_cons (m : Move ρ) (ms : List (Move ρ)) : drawn (m :: ms) = drawn [m] ++ drawn ms := by
  cases m <;> rfl

/-- Which ids lead to which places after a run. -/
theorem get_run (hplaced : Placed r) (hids : (r.all.map Job.id ++ drawn ms).Nodup) :
    (runs.final step r ms).jobs.get id = some p ↔
      (∃ j, (runs.final step r ms).all[p]? = some j ∧ j.id = id) ∧
      (p < r.all.length → r.jobs.get id = some p) ∧ runs.Throughout step (Spares p) r ms := by
  induction ms generalizing r with
  | nil =>
    simp only [runs.final, runs.Throughout, and_true]
    constructor
    · intro hget
      exact ⟨hplaced id p hget, fun _ => hget⟩
    · rintro ⟨⟨j, hj, -⟩, hget⟩
      exact hget (List.getElem?_eq_some_iff.mp hj).1
  | cons m ms ih =>
    have hids' : ((step r m).all.map Job.id ++ drawn ms).Nodup := by
      rw [step_ids, List.append_assoc, ← drawn_cons]
      exact hids
    rw [runs.final, ih (placed_step hplaced) hids']
    refine and_congr_right ?_
    rintro ⟨j', hj', rfl⟩
    simp only [runs.Throughout, ← and_assoc]
    refine and_congr_left fun _ => ?_
    by_cases hp : p < r.all.length
    · -- the job was there before the move
      have hj := List.getElem?_eq_getElem hp
      obtain ⟨j, hj1, hid⟩ := id_run (step_get (m := m) hj) ms
      rw [hj'] at hj1
      cases hj1
      rw [after_id] at hid
      have hlt : p < (step r m).all.length := by
        rw [step_length]
        omega
      have hnew : (r.all[p]).id ∉ drawn [m] := by
        intro hmem
        rw [drawn_cons, ← List.append_assoc] at hids
        have hdis := (List.nodup_append.mp (List.nodup_append.mp hids).1).2.2
        exact hdis _ (List.mem_map.mpr ⟨_, List.getElem_mem hp, rfl⟩) _ hmem rfl
      simp only [hlt, hp, forall_const, Spares, hid]
      exact get_step hnew
    · simp only [hp, false_imp_iff, true_and, Spares, iff_true]
      intro hlt
      -- the move starts it
      cases m with
      | start id kind title started now =>
        have hpe : p = r.all.length := by
          rw [step_length] at hlt
          simp only [drawn, List.length_singleton] at hlt
          omega
        subst hpe
        have hj : (step r (.start id kind title started now)).all[r.all.length]? =
            some ⟨id, kind, title, .running, started, 0, [], [], none⟩ := List.getElem?_concat_length
        obtain ⟨j, hj1, hid⟩ := id_run hj ms
        rw [hj'] at hj1
        cases hj1
        rw [hid]
        exact get_started
      | logf q line => simp [step_length, drawn, hp] at hlt
      | finish q now res => simp [step_length, drawn, hp] at hlt
      | restart => simp [step_length, drawn, hp] at hlt

theorem jobStatus_ok : r.jobStatus id = .ok j ↔ ∃ p, r.jobs.get id = some p ∧ r.all[p]? = some j := by
  unfold Runner.jobStatus
  rw [← Option.bind_eq_some_iff]
  split
  next h => simp [h]
  next j' h => simp [h]

/-- The place that the map of jobs has for an id. -/
theorem get_final (hids : (drawn ms).Nodup) : (runs.final step start ms).jobs.get id = some p ↔
    (∃ j, (runs.final step start ms).all[p]? = some j ∧ j.id = id) ∧ runs.Throughout step (Spares p) start ms := by
  rw [get_run placed_start (by simpa [start] using hids)]
  simp only [start, List.length_nil, Nat.not_lt_zero, false_imp_iff, true_and]

/-- The agent answers for a job exactly when no start found it old, and the agent was
not started again since. -/
theorem status_iff (hids : (drawn ms).Nodup) : (runs.final step start ms).jobStatus id = .ok j ↔
    ∃ p, (runs.final step start ms).all[p]? = some j ∧ j.id = id ∧
      runs.Throughout step (Spares p) start ms := by
  rw [jobStatus_ok]
  refine exists_congr fun p => ?_
  rw [get_final hids]
  constructor
  · rintro ⟨⟨⟨j', hj', hid⟩, hspared⟩, hj⟩
    rw [hj] at hj'
    cases hj'
    exact ⟨hj, hid, hspared⟩
  · rintro ⟨hj, hid, hspared⟩
    exact ⟨⟨⟨j, hj, hid⟩, hspared⟩, hj⟩

/-- Two places of the list hold different ids. -/
theorem place_unique {q : Nat} {j' : Job ρ} (hids : (r.all.map Job.id).Nodup) (hj : r.all[p]? = some j)
    (hj' : r.all[q]? = some j') (hid : j.id = j'.id) : p = q := by
  obtain ⟨hp, rfl⟩ := List.getElem?_eq_some_iff.mp hj
  obtain ⟨hq, rfl⟩ := List.getElem?_eq_some_iff.mp hj'
  have hp' : p < (r.all.map Job.id).length := by simpa using hp
  have hq' : q < (r.all.map Job.id).length := by simpa using hq
  refine (@List.Nodup.getElem_inj_iff _ _ hids p hp' q hq').mp ?_
  simpa using hid

theorem drawn_append (ms ms' : List (Move ρ)) : drawn (ms ++ ms') = drawn ms ++ drawn ms' := by
  induction ms with
  | nil => rfl
  | cons m ms ih =>
    rw [List.cons_append, drawn_cons, ih, drawn_cons m ms, List.append_assoc]

theorem ids_run (ms : List (Move ρ)) : (runs.final step r ms).all.map Job.id = r.all.map Job.id ++ drawn ms := by
  induction ms generalizing r with
  | nil => simp [runs.final, drawn]
  | cons m ms ih => rw [runs.final, ih, step_ids, List.append_assoc, ← drawn_cons]

/-- Once the agent answered that a job ended, it answers the same or nothing. -/
theorem ended_status (hids : (drawn (ms ++ ms')).Nodup) (h : (runs.final step start ms).jobStatus id = .ok j)
    (hend : j.state ≠ .running) {j' : Job ρ} (h' : (runs.final step start (ms ++ ms')).jobStatus id = .ok j') :
    j' = j := by
  obtain ⟨p, hget, hp⟩ := jobStatus_ok.mp h
  obtain ⟨q, hget', hq⟩ := jobStatus_ok.mp h'
  have hfirst : (drawn ms).Nodup := by
    rw [drawn_append] at hids
    exact (List.nodup_append.mp hids).1
  obtain ⟨⟨x, hx, hid⟩, -⟩ := (get_final hfirst).mp hget
  obtain ⟨⟨y, hy, hid'⟩, -⟩ := (get_final hids).mp hget'
  cases hp.symm.trans hx
  cases hq.symm.trans hy
  have hsame : (runs.final step start (ms ++ ms')).all[p]? = some j := by
    rw [runs.final_append]
    exact ended_run hp hend ms'
  have hpq := place_unique (by simpa [ids_run, start] using hids) hsame hq (hid.trans hid'.symm)
  rw [hpq, hq] at hsame
  exact Option.some.inj hsame

/-- A job writes a line and ends, and another one starts. -/
def twoJobs : List (Move Unit) :=
  [.start ['a'] ['k'] [] 100 100, .logf 0 [65], .finish 0 160 (.ok ()), .start ['b'] ['k'] [] 170 170]

def endedJob : Job Unit := ⟨['a'], ['k'], [], .done, 100, 160, [65, 10], [], some ()⟩

theorem status_of_ended : ∃ p, (runs.final step start twoJobs).all[p]? = some endedJob ∧ endedJob.id = ['a'] ∧
    runs.Throughout step (Spares p) start twoJobs :=
  (status_iff (by decide)).mp rfl

/-- `job.list` names the jobs that `job.status` still answers for, without their logs,
the newest first. -/
theorem list_iff {sort : List (Job ρ) → List (Job ρ)} {order : List Str} (hsort : ∀ l, (sort l).Perm l)
    (hnewest : ∀ l, (sort l).Pairwise fun a b => b.started ≤ a.started) (horder : order.Perm r.jobs.keys) :
    (r.jobList sort order).Pairwise (fun a b => b.started ≤ a.started) ∧
      ∀ j, j ∈ r.jobList sort order ↔ ∃ id j', r.jobStatus id = .ok j' ∧ j = { j' with log := [] } := by
  refine ⟨hnewest _, fun j => ?_⟩
  unfold Runner.jobList
  rw [(hsort _).mem_iff, List.mem_map]
  constructor
  · rintro ⟨j', hj', rfl⟩
    obtain ⟨id, -, hget⟩ := List.mem_filterMap.mp hj'
    exact ⟨id, j', by rw [Runner.jobStatus, hget], rfl⟩
  · rintro ⟨id, j', hstatus, rfl⟩
    obtain ⟨p, hp, hj'⟩ := jobStatus_ok.mp hstatus
    have hget : ((r.jobs.get id).bind fun p => r.all[p]?) = some j' := by rw [hp, Option.bind_some, hj']
    have hkey : id ∈ order := horder.mem_iff.mpr (Dict.mem_keys.mpr (by rw [hp]; rfl))
    exact ⟨j', List.mem_filterMap.mpr ⟨id, hkey, hget⟩, rfl⟩

theorem sorted_newest (l : List (Job ρ)) :
    (l.mergeSort fun a b => b.started ≤ a.started).Pairwise fun a b => b.started ≤ a.started := by
  have hsorted := @List.pairwise_mergeSort _ (fun (a b : Job ρ) => decide (b.started ≤ a.started))
    (fun a b c hab hbc => by
      simp only [decide_eq_true_eq] at *
      omega)
    (fun a b => by
      simp only [Bool.or_eq_true, decide_eq_true_eq]
      omega)
  exact (hsorted l).imp of_decide_eq_true

/-- In every run `job.list` names exactly the jobs that no start found old and no restart
lost, the newest first. -/
theorem jobs_listed {sort : List (Job ρ) → List (Job ρ)} {order : List Str} (hids : (drawn ms).Nodup)
    (hsort : ∀ l, (sort l).Perm l) (hnewest : ∀ l, (sort l).Pairwise fun a b => b.started ≤ a.started)
    (horder : order.Perm (runs.final step start ms).jobs.keys) :
    ((runs.final step start ms).jobList sort order).Pairwise (fun a b => b.started ≤ a.started) ∧
      ∀ j, j ∈ (runs.final step start ms).jobList sort order ↔
        ∃ p j', (runs.final step start ms).all[p]? = some j' ∧ runs.Throughout step (Spares p) start ms ∧
          j = { j' with log := [] } := by
  obtain ⟨hsorted, hmem⟩ := list_iff hsort hnewest horder
  refine ⟨hsorted, fun j => (hmem j).trans ?_⟩
  constructor
  · rintro ⟨id, j', hstatus, rfl⟩
    obtain ⟨p, hget, hp⟩ := jobStatus_ok.mp hstatus
    exact ⟨p, j', hp, ((get_final hids).mp hget).2, rfl⟩
  · rintro ⟨p, j', hp, hspared, rfl⟩
    exact ⟨j'.id, j', jobStatus_ok.mpr ⟨p, (get_final hids).mpr ⟨⟨j', hp, rfl⟩, hspared⟩, hp⟩, rfl⟩

theorem twoJobs_listed :
    ((runs.final step start twoJobs).jobList (fun l => l.mergeSort fun a b => b.started ≤ a.started) [['b'], ['a']]).Pairwise
        (fun a b => b.started ≤ a.started) ∧
      ∀ j, j ∈ (runs.final step start twoJobs).jobList (fun l => l.mergeSort fun a b => b.started ≤ a.started) [['b'], ['a']] ↔
        ∃ p j', (runs.final step start twoJobs).all[p]? = some j' ∧ runs.Throughout step (Spares p) start twoJobs ∧
          j = { j' with log := [] } :=
  jobs_listed (by decide) (fun l => l.mergeSort_perm _) sorted_newest (List.Perm.swap ['a'] ['b'] [])

/-! ## The log -/

/-- What the job at a place wrote to its log. -/
def written (p : Nat) (r : Runner ρ) : List (Move ρ) → Bytes
  | [] => []
  | .logf q line :: ms =>
    let j := r.all[p]?
    (if q = p ∧ j.any (·.state = .running) ∧ r.first ≤ p then line ++ [10] else []) ++
      written p (step r (.logf q line)) ms
  | m :: ms => written p (step r m) ms

/-- The log is an end of the text: all of it, or a good part. -/
structure Tail (log text : Bytes) : Prop where
  suffix : log <:+ text
  short : log.length ≤ logMax
  whole : text.length ≤ logMax → log = text
  enough : logMax < text.length → logTail ≤ log.length

theorem tail_nil : Tail [] [] := ⟨List.suffix_refl _, by simp, fun _ => rfl, by simp⟩

theorem Tail.logf {text : Bytes} (line : Bytes) (h : Tail j.log text) :
    Tail (j.logf line).log (text ++ (line ++ [10])) := by
  obtain ⟨t, ht⟩ := h.suffix
  have hlen : t.length + j.log.length = text.length := by
    rw [← ht, List.length_append]
  have hsuffix : j.log ++ line ++ [10] <:+ text ++ (line ++ [10]) := ⟨t, by rw [← ht]; simp⟩
  have hwhole := h.whole
  have henough := h.enough
  by_cases hlong : logMax < (j.log ++ line ++ [10]).length
  · have hlog : (j.logf line).log =
        (j.log ++ line ++ [10]).drop ((j.log ++ line ++ [10]).length - logTail) := if_pos hlong
    have hcut : (j.logf line).log.length = logTail := by
      rw [hlog, List.length_drop]
      simp only [logMax, logTail] at hlong ⊢
      omega
    refine ⟨hlog ▸ (List.drop_suffix _ _).trans hsuffix, ?_, fun hshort => ?_, fun _ => hcut.ge⟩
    · rw [hcut]
      decide
    · simp only [List.length_append] at hlong hshort
      omega
  · have hlog : (j.logf line).log = j.log ++ line ++ [10] := if_neg hlong
    rw [hlog]
    refine ⟨hsuffix, by omega, fun hshort => ?_, fun hpast => ?_⟩
    · rw [hwhole (by rw [List.length_append] at hshort; omega), List.append_assoc]
    · simp only [List.length_append, logMax, logTail] at *
      by_cases htext : 64 * 1024 < text.length
      · have := henough htext
        omega
      · have hsame := hwhole (by omega)
        rw [hsame] at hlong
        omega

/-- The log of a job while it runs and ever after. -/
theorem tail_run {text : Bytes} (hj : r.all[p]? = some j) (h : Tail j.log text) (ms : List (Move ρ)) :
    ∃ j', (runs.final step r ms).all[p]? = some j' ∧ Tail j'.log (text ++ written p r ms) := by
  induction ms generalizing r j text with
  | nil => exact ⟨j, hj, by simpa [written] using h⟩
  | cons m ms ih =>
    have hnext := step_get (m := m) hj
    cases m with
    | logf q line =>
      simp only [Job.after] at hnext
      by_cases hwork : q = p ∧ j.state = .running ∧ r.first ≤ p
      · rw [if_pos hwork] at hnext
        have := ih hnext (h.logf line)
        simpa [runs.final, written, hj, hwork] using this
      · rw [if_neg hwork] at hnext
        have := ih hnext h
        simpa [runs.final, written, hj, hwork] using this
    | start id kind title started now => exact ih hnext h
    | finish q now res =>
      refine ih hnext ?_
      simp only [Job.after]
      split
      · cases res <;> exact h
      · exact h
    | restart => exact ih hnext h

theorem tail_later (hnone : r.all[p]? = none) (hj : (runs.final step r ms).all[p]? = some j) :
    Tail j.log (written p r ms) := by
  induction ms generalizing r with
  | nil =>
    rw [runs.final, hnone] at hj
    cases hj
  | cons m ms ih =>
    have hwritten : written p r (m :: ms) = written p (step r m) ms := by
      cases m <;> simp [written, hnone]
    rw [hwritten]
    cases hget : (step r m).all[p]? with
    | none => exact ih hget hj
    | some j0 =>
      -- the move starts the job
      have hlog : j0.log = [] := by
        have hle : r.all.length ≤ p := List.getElem?_eq_none_iff.mp hnone
        cases m with
        | start id kind title started now =>
          simp only [step, Runner.startJob, Runner.gc] at hget
          rw [List.getElem?_append_right hle, List.getElem?_singleton] at hget
          split at hget
          · cases hget
            rfl
          · cases hget
        | logf q line =>
          have := (List.getElem?_eq_some_iff.mp hget).1
          simp only [step_length, drawn, List.length_nil] at this
          omega
        | finish q now res =>
          have := (List.getElem?_eq_some_iff.mp hget).1
          simp only [step_length, drawn, List.length_nil] at this
          omega
        | restart =>
          simp only [step] at hget
          rw [hnone] at hget
          cases hget
      have hempty : Tail j0.log [] := by
        rw [hlog]
        exact tail_nil
      obtain ⟨j', hj', htail⟩ := tail_run hget hempty ms
      rw [runs.final, hj'] at hj
      cases hj
      exact htail

/-- In every run the log of a job is an end of what it wrote, at most 64 KiB of it, all
of it as long as that fits, and never less than the last 48 KiB. -/
theorem log_ends_text (hj : (runs.final step start ms).all[p]? = some j) : Tail j.log (written p start ms) :=
  tail_later rfl hj

theorem log_of_ended : Tail endedJob.log (written 0 start twoJobs) :=
  log_ends_text rfl

end icsd_panel.registry

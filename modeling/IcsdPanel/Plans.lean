-- The backup plans. A run keeps the plan that it was started with for hours, and
-- then reports under a key made of the server and the id of that plan.
import IcsdPanel.Operations
import IcsdPanel.Runs
import IcsdPanel.Tasks

open dicts

namespace icsd_panel.plans

open alerts lives operations tasks

/-! ## State -/

/-- A row of `backup_plans`, as far as a report is about it. The table gives the
ids of deleted plans again; `nth` counts the plans ever created and tells two
plans of one id apart. -/
structure Plan where
  id : Nat
  nth : Nat
  serverId : Sid
  name : String
deriving DecidableEq

/-- A task in `_running` is about the plan that `start` read for it. -/
structure Hub where
  table : List Plan
  created : Nat
  running : Dict Nat (BackupTask Plan)
  alerts : Alerts

def start : Hub := ⟨[], 0, .empty, seed .empty⟩

def subjectOf (id : Nat) : String := "plan:" ++ toString id

/-- The key under which a run of the plan reports. -/
def keyOf (p : Plan) : Key := ⟨.backup, p.serverId, subjectOf p.id⟩

/-! ## The panel -/

/-- `create`, once the body is valid. -/
def create (serverId : Sid) (name : String) (h : Hub) : Hub :=
  { h with
    table := tables.insert Plan.id (fun id => ⟨id, h.created, serverId, name⟩) h.table
    created := h.created + 1 }

/-- `update` of a plan with a valid body. -/
def update (id : Nat) (serverId : Sid) (name : String) (h : Hub) : Hub :=
  { h with table := tables.update Plan.id id (fun p => { p with serverId := serverId, name := name }) h.table }

/-- `delete` -/
def delete (c : Ctx) (id : Nat) (h : Hub) : Hub :=
  { h with
    table := h.table.filter fun p => p.id ≠ id
    alerts := forgetSubject c .backup (subjectOf id) h.alerts }

/-- `delete_server`, which takes the plans of the server along. -/
def deleteServer (c : Ctx) (sid : Sid) (h : Hub) : Hub :=
  { h with
    table := h.table.filter fun p => p.serverId ≠ sid
    alerts := forgetServer c sid h.alerts }

/-- `start`, for the ticker and for the panel. -/
def startRun (id : Nat) (h : Hub) : Except (Nat × String) Hub :=
  (askedPlan h.running h.table Plan.id id).map fun p => { h with running := h.running.set id ⟨p, false⟩ }

/-! ## The end of a run -/

/-- What `_run` reports when it is through, or when something in it raised. -/
def report (p : Plan) : Option String → Call
  | none => ⟨keyOf p, false, 0, "", none, false⟩
  | some msg => ⟨keyOf p, true, 1,
      "بک‌آپ «" ++ p.name ++ "» ناموفق: " ++ String.ofList (msg.toList.take 300), none, false⟩

/-- The end of `_run`. -/
def finish (c : Ctx) (id : Nat) (error : Option String) (h : Hub) : Hub :=
  match h.running.get id with
  | some ⟨p, false⟩ =>
    { h with
      running := h.running.set id ⟨p, true⟩
      alerts := step c (report p error) h.alerts }
  | _ => h

/-! ## Moves -/

inductive Move
  | create (serverId : Sid) (name : String)
  | update (id : Nat) (serverId : Sid) (name : String)
  | delete (c : Ctx) (id : Nat)
  | deleteServer (c : Ctx) (sid : Sid)
  | start (id : Nat)
  | finish (c : Ctx) (id : Nat) (error : Option String)
  | reap (id : Nat)
  | restart
  | rule (kind : Kind) (threshold : ℚ) (forS : Int) (severity : Severity) (enabled : Bool)

def Hub.move (h : Hub) : Move → Hub
  | .create serverId name => plans.create serverId name h
  | .update id serverId name => plans.update id serverId name h
  | .delete c id => plans.delete c id h
  | .deleteServer c sid => plans.deleteServer c sid h
  | .start id =>
    match startRun id h with
    | .ok h' => h'
    | .error _ => h
  | .finish c id error => plans.finish c id error h
  | .reap id => { h with running := reap id h.running }
  | .restart => { h with running := .empty, alerts := seed h.alerts }
  | .rule kind thr forS sev on => { h with alerts := updateRule kind thr forS sev on h.alerts }

/-! ## The law -/

/-- No run is in progress. -/
def Quiet (h : Hub) : Prop := ∀ e ∈ h.running.entries, e.2.done = true

instance (h : Hub) : Decidable (Quiet h) :=
  inferInstanceAs (Decidable (∀ e ∈ h.running.entries, e.2.done = true))

/-- An open event of a backup is about a plan that is there, and carries the
server that the plan has now. -/
def Law (h : Hub) : Prop :=
  ∀ k, k.rule = .backup → HasOpen k h.alerts → ∃ p ∈ h.table, keyOf p = k

/-- The end of a run opens and closes no event of another plan that has the id
of its own. -/
def Leaves (h : Hub) : Move → Prop
  | .finish c id error => ∀ t, h.running.get id = some t →
      ∀ p ∈ h.table, p.id = t.about.id → p.nth ≠ t.about.nth →
        (HasOpen (keyOf p) (finish c id error h).alerts ↔ HasOpen (keyOf p) h.alerts)
  | _ => True

/-- A run that reports a failure has its plan where it was, a run that reports
success no other plan with an open event in its place, and a plan that moves to
another server no open event. -/
def current (h : Hub) : Move → Bool
  | .update id serverId _ =>
    h.table.all fun p => p.id ≠ id ∨ p.serverId = serverId ∨ ¬ HasOpen (keyOf p) h.alerts
  | .finish _ id error =>
    match h.running.get id with
    | some ⟨p, false⟩ =>
      if (badRule h.alerts.rules (report p error)).isSome then
        h.table.any fun q => keyOf q = keyOf p ∧ q.id = p.id ∧ q.nth = p.nth
      else h.table.all fun q => keyOf q ≠ keyOf p ∨ q.nth = p.nth ∨ ¬ HasOpen (keyOf p) h.alerts
    | _ => true
  | _ => true

variable {h : Hub} {c : Ctx} {k : Key}

structure Good (h : Hub) : Prop where
  matched : Matched h.alerts
  ids : (h.table.map Plan.id).Nodup
  law : Law h

@[simp] theorem report_key (p : Plan) (error : Option String) : (report p error).key = keyOf p := by
  cases error <;> rfl

/-! ## Each move keeps it -/

theorem good_create (hg : Good h) (serverId : Sid) (name : String) : Good (create serverId name h) where
  matched := hg.matched
  ids :=
    have hids : ∀ id, (⟨id, h.created, serverId, name⟩ : Plan).id = id := fun _ => rfl
    tables.insert_ids hg.ids hids
  law k hk ho := by
    obtain ⟨p, hp, hkey⟩ := hg.law k hk ho
    exact ⟨p, List.mem_append_left _ hp, hkey⟩

/-- An edit that leaves a plan on its server leaves its key. -/
theorem good_update (hg : Good h) {id : Nat} {serverId : Sid} {name : String}
    (hc : current h (.update id serverId name)) : Good (update id serverId name h) where
  matched := hg.matched
  ids := by
    have hids : (update id serverId name h).table.map Plan.id = h.table.map Plan.id :=
      tables.update_ids fun _ hid => hid
    rw [hids]
    exact hg.ids
  law k hk ho := by
    obtain ⟨p, hp, rfl⟩ := hg.law k hk ho
    have hstay := List.all_eq_true.mp hc p hp
    rw [decide_eq_true_eq, ← or_assoc] at hstay
    refine ⟨_, List.mem_map_of_mem hp, ?_⟩
    split
    next hid =>
      rw [← (hstay.resolve_right (not_not_intro ho)).resolve_left (not_not_intro hid)]
      rfl
    next => rfl

theorem good_delete (hg : Good h) (id : Nat) : Good (delete c id h) where
  matched := matched_stepAll _ _ _ _ hg.matched
  ids := hg.ids.sublist (List.filter_sublist.map _)
  law k hk ho := by
    obtain ⟨ho, hne⟩ := (isOpen_forgetSubject hg.matched _ _).mp ho
    obtain ⟨p, hp, rfl⟩ := hg.law k hk ho
    refine ⟨p, List.mem_filter.mpr ⟨hp, decide_eq_true ?_⟩, rfl⟩
    rintro rfl
    exact hne ⟨rfl, rfl⟩

theorem good_deleteServer (hg : Good h) (sid : Sid) : Good (deleteServer c sid h) where
  matched := (forgetServer_shuts sid _).matched hg.matched
  ids := hg.ids.sublist (List.filter_sublist.map _)
  law k hk ho := by
    obtain ⟨ho, hne⟩ := (isOpen_forgetServer sid).mp ho
    obtain ⟨p, hp, rfl⟩ := hg.law k hk ho
    exact ⟨p, List.mem_filter.mpr ⟨hp, decide_eq_true hne⟩, rfl⟩

/-- What touches neither the plans nor the open events. -/
theorem good_of_same (hg : Good h) {h' : Hub} (htable : h'.table = h.table) (hm : Matched h'.alerts)
    (hopen : ∀ k, HasOpen k h'.alerts → HasOpen k h.alerts) : Good h' where
  matched := hm
  ids := by
    rw [htable]
    exact hg.ids
  law k hk ho := by
    rw [htable]
    exact hg.law k hk (hopen k ho)

theorem startRun_same {id : Nat} {h' : Hub} (hs : startRun id h = .ok h') :
    h'.table = h.table ∧ h'.alerts = h.alerts := by
  unfold startRun at hs
  cases hasked : askedPlan h.running h.table Plan.id id with
  | error er =>
    rw [hasked] at hs
    cases hs
  | ok p =>
    rw [hasked] at hs
    cases hs
    exact ⟨rfl, rfl⟩

/-- The two ways in which a run ends: a failure opens at most the event of its
own plan, and anything else closes it. -/
theorem good_finish (hg : Good h) {id : Nat} {error : Option String}
    (hc : current h (.finish c id error)) :
    Good (finish c id error h) ∧ Leaves h (.finish c id error) := by
  simp only [current] at hc
  simp only [Leaves, finish]
  split
  · rename_i p hrun
    rw [hrun] at hc
    simp only at hc
    have hm := matched_step hg.matched c (report p error)
    split at hc
    · obtain ⟨q, hq, hown⟩ := List.any_eq_true.mp hc
      rw [decide_eq_true_eq] at hown
      obtain ⟨hkey, hid, hnth⟩ := hown
      refine ⟨⟨hm, hg.ids, fun k hk ho => ?_⟩, ?_⟩
      · rcases isOpen_step hg.matched ho with rfl | ho
        · exact ⟨q, hq, by rw [report_key, hkey]⟩
        · exact hg.law k hk ho
      · rintro t ht x hx hxid hxnth
        cases hrun.symm.trans ht
        have : x = q := List.inj_on_of_nodup_map hg.ids hx hq (hxid.trans hid.symm)
        rw [this] at hxnth
        exact absurd hnth hxnth
    · rename_i hbad
      have hbad : badRule h.alerts.rules (report p error) = none := by simpa using hbad
      have hgone := not_open_improve (c := c) hg.matched hbad
      rw [report_key] at hgone
      refine ⟨⟨hm, hg.ids, fun k hk ho => ?_⟩, ?_⟩
      · rcases isOpen_step hg.matched ho with rfl | ho
        · rw [report_key] at ho
          exact absurd ho hgone
        · exact hg.law k hk ho
      · rintro t ht x hx hxid hxnth
        cases hrun.symm.trans ht
        by_cases hkey : keyOf x = keyOf p
        · have hx := List.all_eq_true.mp hc x hx
          rw [decide_eq_true_eq] at hx
          have hclosed := (hx.resolve_left (not_not_intro hkey)).resolve_left hxnth
          rw [hkey]
          exact iff_of_false hgone hclosed
        · refine isOpen_step_ne hg.matched ?_
          rw [report_key]
          exact hkey
  · exact ⟨hg, fun _ _ _ _ _ _ => Iff.rfl⟩

theorem good_move (hg : Good h) (m : Move) (hc : current h m) :
    Good (h.move m) ∧ Law h ∧ Leaves h m := by
  suffices hall : Good (h.move m) ∧ Leaves h m from ⟨hall.1, hg.law, hall.2⟩
  cases m with
  | create serverId name => exact ⟨good_create hg serverId name, trivial⟩
  | update id serverId name => exact ⟨good_update hg hc, trivial⟩
  | delete c id => exact ⟨good_delete hg id, trivial⟩
  | deleteServer c sid => exact ⟨good_deleteServer hg sid, trivial⟩
  | start id =>
    refine ⟨?_, trivial⟩
    simp only [Hub.move]
    split
    · rename_i h' hs
      obtain ⟨htable, halerts⟩ := startRun_same hs
      exact good_of_same hg htable (by rw [halerts]; exact hg.matched) (by rw [halerts]; exact fun _ ho => ho)
    · exact hg
  | finish c id error => exact good_finish hg hc
  | reap id => exact ⟨good_of_same hg rfl hg.matched fun _ ho => ho, trivial⟩
  | restart => exact ⟨good_of_same hg rfl (matched_seed hg.matched) fun _ ho => ho, trivial⟩
  | rule kind thr forS sev on =>
    exact ⟨good_of_same hg rfl ⟨hg.matched.ids, hg.matched.rows, hg.matched.fits⟩ fun _ ho => ho, trivial⟩

/-- In every run in which reports and edits find the plans as they should, an
open event of a backup is at every moment about a plan that is there and carries
its server, and no run opens or closes the event of another plan. -/
theorem reports_keep_law (ms : List Move)
    (hc : runs.Throughout Hub.move (fun h m => current h m) start ms) :
    runs.Throughout Hub.move (fun h m => Law h ∧ Leaves h m) start ms ∧
      Law (runs.final Hub.move start ms) := by
  have hstart : Good start := by
    refine ⟨matched_seed matched_empty, List.nodup_nil, ?_⟩
    rintro k - ⟨e, he, -⟩
    cases he
  have hall := runs.throughout_of_invariant (I := Good) (Q := fun h m => Law h ∧ Leaves h m)
    (fun h m hI hP => good_move hI m hP) hstart hc
  exact ⟨hall.1, hall.2.law⟩

/-! ## A plan that moves, and one that is deleted during its run -/

def someone : Ctx := ⟨100000, fun _ => none⟩

/-- A backup fails, the plan is renamed and runs again. -/
def failedOnce : List Move :=
  [.create "a" "nightly", .start 1, .finish someone 1 (some "disk full"), .reap 1]

theorem failedOnce_law :
    let ms := failedOnce ++ [.update 1 "a" "daily", .start 1, .finish someone 1 none, .reap 1]
    runs.Throughout Hub.move (fun h m => Law h ∧ Leaves h m) start ms ∧
      Law (runs.final Hub.move start ms) :=
  reports_keep_law _ (by decide +kernel)

def moved : List Move :=
  failedOnce ++ [.update 1 "b" "nightly", .start 1, .finish someone 1 none, .reap 1]

def reused : List Move :=
  [.create "a" "nightly", .start 1, .delete someone 1, .create "a" "weekly"]

/-- The plan moves to another server with its event open, and no later run closes
that event. In the other run a plan is deleted while its backup runs, a new one
receives its id, and the old run opens the event of the new plan. -/
theorem stray_events :
    (Quiet (runs.final Hub.move start moved) ∧ ¬ Law (runs.final Hub.move start moved)) ∧
    ¬ Leaves (runs.final Hub.move start reused) (.finish someone 1 (some "disk full")) := by
  refine ⟨⟨by decide +kernel, fun hl => ?_⟩, fun hl => ?_⟩
  · have hkey : ∃ p ∈ (runs.final Hub.move start moved).table, keyOf p = ⟨.backup, "a", "plan:1"⟩ :=
      hl _ rfl (by decide +kernel)
    exact absurd hkey (by decide +kernel)
  · have hother := hl ⟨⟨1, 0, "a", "nightly"⟩, false⟩ (by decide +kernel) ⟨1, 1, "a", "weekly"⟩
      (by decide +kernel) rfl (by decide)
    exact absurd (hother.mp (by decide +kernel)) (by decide +kernel)

end icsd_panel.plans

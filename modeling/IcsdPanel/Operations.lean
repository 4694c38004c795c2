-- Everything that touches the alerts, as operations one after another, and
-- what each of them does to one key.
import IcsdPanel.Lives
import Mathlib.Data.List.Induction

open dicts

namespace icsd_panel.operations

open alerts live evaluators lives

/-! ## Operations -/

inductive Op
  | seed
  | reload
  | updateRule (kind : Kind) (threshold : ℚ) (forS : Int) (severity : Severity) (enabled : Bool)
  | step (i : Call)
  | settle (kinds : List Kind) (sid : Sid) (seen : List (Kind × String)) (now : ℚ)
  | forgetSubject (kind : Kind) (subject : String)
  | forgetServer (sid : Sid)
  | sample (sid : Sid) (s : Sample) (cpus : Int) (now : Option ℚ)
  | offline (started : ℚ) (servers : List Silent) (now : Option ℚ)
  | check (subject name url : String) (fails : Int) (error : String) (certDays : Option ℚ)
      (now : Option ℚ)
  | prune (now keepDays : Int)

/-- The calls of an evaluator, under the rules that it meets. -/
def Op.acts (c : Ctx) (rules : Kind → Option Rule) : Op → List Act
  | .step i => [.step i]
  | .settle kinds sid seen now => [.settle kinds sid seen now]
  | .sample sid s cpus now => evaluateSample rules sid s cpus (orTime now c.time)
  | .offline started servers now => evaluateOffline rules started (orTime now c.time) servers
  | .check subject name url fails error certDays now =>
    evaluateCheck rules subject name url fails error certDays now
  | _ => []

def Op.run (c : Ctx) (o : Op) (a : Alerts) : Alerts :=
  match o with
  | .seed => alerts.seed a
  | .reload => alerts.reload a
  | .updateRule kind thr forS sev on => alerts.updateRule kind thr forS sev on a
  | .forgetSubject kind subject => alerts.forgetSubject c kind subject a
  | .forgetServer sid => alerts.forgetServer c sid a
  | .prune now keepDays => alerts.prune now keepDays a
  | o => runActs c (o.acts c a.rules) a

/-- A history: each operation with what it finds around it. -/
abbrev History := List (Ctx × Op)

def run (h : History) (a : Alerts) : Alerts := h.foldl (fun a x => x.2.run x.1 a) a

theorem run_append (h h' : History) (a : Alerts) : run (h ++ h') a = run h' (run h a) :=
  List.foldl_append

def Reachable (a : Alerts) : Prop := ∃ h, a = run h .empty

/-! ## One key under each operation -/

def Life.act (k : Key) (rules : Kind → Option Rule) (c : Ctx) (l : Life) : Act → Life
  | .step i => if k = i.key then l.call rules c i else l
  | .settle kinds sid seen now =>
    if k.rule ∈ kinds ∧ k.serverId = sid ∧ (k.rule, k.subject) ∉ seen then
      l.call rules c (gone k (some now) false)
    else l

/-- A restart: what was pending is lost, and the time that an event started is
read from its row. -/
def Life.restart (l : Life) : Life :=
  match l.phase with
  | .firing since text => { l with phase := .firing (truncate since) text }
  | _ => { l with phase := .idle }

def kept (now keepDays : Int) (e : Event) : Bool :=
  match e.ended with
  | some t => ¬ t < now - keepDays * 86400
  | none => true

def Life.op (k : Key) (rules : Kind → Option Rule) (c : Ctx) (l : Life) (o : Op) : Life :=
  match o with
  | .seed => restart l
  | .reload => l
  | .updateRule _ _ _ _ _ => l
  | .forgetSubject kind subject =>
    if k.rule = kind ∧ k.subject = subject then l.call rules c (gone k none true) else l
  | .forgetServer sid =>
    if k.serverId = sid then ⟨.idle, l.rows.map (closed (truncate c.time)), l.notes⟩ else l
  | .prune now keepDays => { l with rows := l.rows.filter (kept now keepDays) }
  | o => (o.acts c rules).foldl (act k rules c) l

/-! ## Rules stay apart -/

variable {a : Alerts} {k q : Key} {c : Ctx}

theorem step_rules (c : Ctx) (i : Call) (a : Alerts) :
    (step c i a).rules = a.rules ∧ (step c i a).table = a.table := by
  rw [step_eq]
  split
  · unfold alerts.worsen
    simp only
    split <;> exact ⟨rfl, rfl⟩
  · unfold alerts.improve
    simp only
    split
    · exact ⟨rfl, rfl⟩
    · split <;> exact ⟨rfl, rfl⟩

theorem stepAll_cons (now : Option ℚ) (quiet : Bool) (ks : List Key) :
    stepAll c now quiet (k :: ks) a = stepAll c now quiet ks (step c (gone k now quiet) a) := rfl

theorem stepAll_rules (now : Option ℚ) (quiet : Bool) (ks : List Key) (a : Alerts) :
    (stepAll c now quiet ks a).rules = a.rules ∧ (stepAll c now quiet ks a).table = a.table := by
  induction ks generalizing a with
  | nil => exact ⟨rfl, rfl⟩
  | cons k ks ih =>
    obtain ⟨h1, h2⟩ := ih (step c (gone k now quiet) a)
    obtain ⟨h3, h4⟩ := step_rules c (gone k now quiet) a
    exact ⟨h1.trans h3, h2.trans h4⟩

theorem act_rules (x : Act) (a : Alerts) : (x.run c a).rules = a.rules ∧ (x.run c a).table = a.table := by
  cases x with
  | step i => exact step_rules c i a
  | settle kinds sid seen now => exact stepAll_rules _ _ _ a

theorem runActs_rules (xs : List Act) (a : Alerts) :
    (runActs c xs a).rules = a.rules ∧ (runActs c xs a).table = a.table := by
  unfold runActs
  induction xs generalizing a with
  | nil => exact ⟨rfl, rfl⟩
  | cons x xs ih =>
    obtain ⟨h1, h2⟩ := ih (x.run c a)
    obtain ⟨h3, h4⟩ := act_rules (c := c) x a
    exact ⟨h1.trans h3, h2.trans h4⟩

/-! ## Each operation keeps memory and table in step, and acts on each key alone -/

theorem matched_stepAll (now : Option ℚ) (quiet : Bool) (ks : List Key) (a : Alerts)
    (h : Matched a) : Matched (stepAll c now quiet ks a) := by
  induction ks generalizing a with
  | nil => exact h
  | cons k ks ih => exact ih _ (matched_step h c _)

theorem call_gone_idle {l : Life} {rules : Kind → Option Rule} {now : Option ℚ} {quiet : Bool}
    (hl : l.phase = .idle) : l.call rules c (gone k now quiet) = l := by
  have : badRule rules (gone k now quiet) = none := by simp [badRule, gone]
  unfold Life.call Life.improve
  rw [this, hl]

theorem view_stepAll (now : Option ℚ) (quiet : Bool) (ks : List Key) (hks : ks.Nodup) (a : Alerts)
    (h : Matched a) : view k (stepAll c now quiet ks a) =
      if k ∈ ks then (view k a).call a.rules c (gone k now quiet) else view k a := by
  induction ks generalizing a with
  | nil => simp [stepAll]
  | cons x ks ih =>
    obtain ⟨hx, hks⟩ := List.nodup_cons.mp hks
    have hv : view k (step c (gone x now quiet) a) = _ := view_step h c (gone x now quiet)
    rw [stepAll_cons, ih hks _ (matched_step h c _), (step_rules c _ a).1, hv]
    by_cases hk : k = x
    · subst hk
      simp [hx, gone]
    · simp [hk, gone]

/-- The keys in memory that are told to go, and no others, are closed. -/
theorem view_stepKeys (now : Option ℚ) (quiet : Bool) (p : Key → Bool) (h : Matched a) :
    view k (stepAll c now quiet (a.state.keys.filter p) a) =
      if p k then (view k a).call a.rules c (gone k now quiet) else view k a := by
  have hn : (a.state.keys.filter p).Nodup := a.state.distinct.filter _
  rw [view_stepAll now quiet _ hn a h]
  by_cases hp : p k
  · by_cases hk : k ∈ a.state.keys
    · simp [hp, hk]
    · have hnone : a.state.get k = none := by simpa [Dict.mem_keys] using hk
      simp [hp, hk, call_gone_idle (view_idle hnone)]
  · simp [hp]

theorem matched_act (x : Act) (h : Matched a) : Matched (x.run c a) := by
  cases x with
  | step i => exact matched_step h c i
  | settle kinds sid seen now => exact matched_stepAll _ _ _ a h

theorem view_act (x : Act) (h : Matched a) :
    view k (x.run c a) = Life.act k a.rules c (view k a) x := by
  cases x with
  | step i =>
    refine (view_step h c i).trans ?_
    simp only [Life.act]
    by_cases hk : k = i.key
    · rw [if_pos hk, if_pos hk, hk]
    · rw [if_neg hk, if_neg hk]
  | settle kinds sid seen now =>
    refine (view_stepKeys (some now) false _ h).trans ?_
    simp only [Life.act, decide_eq_true_eq]

theorem matched_runActs (xs : List Act) (a : Alerts) (h : Matched a) : Matched (runActs c xs a) := by
  unfold runActs
  induction xs generalizing a with
  | nil => exact h
  | cons x xs ih => exact ih _ (matched_act x h)

theorem view_runActs (xs : List Act) (a : Alerts) (h : Matched a) :
    view k (runActs c xs a) = xs.foldl (Life.act k a.rules c) (view k a) := by
  unfold runActs
  induction xs generalizing a with
  | nil => rfl
  | cons x xs ih =>
    simp only [List.foldl_cons]
    rw [ih _ (matched_act x h), (act_rules x a).1, view_act x h]

/-! ## The operations that work on the tables -/

theorem get_foldl_erase {κ ν : Type} [DecidableEq κ] (ks : List κ) (d : Dict κ ν) (x : κ) :
    (ks.foldl Dict.erase d).get x = if x ∈ ks then none else d.get x := by
  induction ks generalizing d with
  | nil => simp
  | cons y ys ih =>
    rw [List.foldl_cons, ih, Dict.get_erase]
    by_cases hx : x = y <;> simp [hx]

theorem forgetServer_shuts (sid : Sid) (a : Alerts) :
    Shuts (fun k => k.serverId = sid) (truncate c.time) a (forgetServer c sid a) where
  events := by
    refine List.map_congr_left fun e _ => ?_
    unfold closeIf closed
    by_cases hs : e.key.serverId = sid <;> by_cases hend : e.ended = none <;> simp [hs, hend]
  state k := by
    have : (forgetServer c sid a).state.get k =
      ((a.state.keys.filter fun k => k.serverId = sid).foldl Dict.erase a.state).get k := rfl
    rw [this, get_foldl_erase]
    by_cases hs : k.serverId = sid
    · by_cases hk : k ∈ a.state.keys
      · simp [hs, hk]
      · have hnone : a.state.get k = none := by simpa [Dict.mem_keys] using hk
        simp [hs, hnone]
    · simp [hs]

theorem prune_events (now keepDays : Int) (a : Alerts) :
    (prune now keepDays a).events = a.events.filter (kept now keepDays) := rfl

theorem kept_open {now keepDays : Int} {e : Event} (h : e.ended = none) : kept now keepDays e := by
  simp [kept, h]

theorem matched_prune (now keepDays : Int) (h : Matched a) : Matched (prune now keepDays a) where
  ids := by
    rw [prune_events]
    exact h.ids.sublist (List.filter_sublist.map _)
  rows k id := by
    refine (h.rows k id).trans ?_
    rw [prune_events]
    constructor
    · rintro ⟨e, he, hid, hk, hend⟩
      exact ⟨e, List.mem_filter.mpr ⟨he, kept_open hend⟩, hid, hk, hend⟩
    · rintro ⟨e, he, hid, hk, hend⟩
      exact ⟨e, (List.mem_filter.mp he).1, hid, hk, hend⟩
  fits k st hst e he hev := by
    rw [prune_events] at he
    exact h.fits k st hst e (List.mem_filter.mp he).1 hev

theorem rowsOf_kept (now keepDays : Int) (es : List Event) :
    rowsOf k (es.filter (kept now keepDays)) = (rowsOf k es).filter (kept now keepDays) := by
  unfold rowsOf
  rw [List.filter_map, List.filter_filter, List.filter_filter]
  congr 1
  refine List.filter_congr fun e _ => ?_
  rw [Bool.and_comm]
  rfl

theorem view_prune (now keepDays : Int) (h : Matched a) :
    view k (prune now keepDays a) =
      { view k a with rows := (view k a).rows.filter (kept now keepDays) } := by
  unfold view
  rw [prune_events, rowsOf_kept]
  congr 1
  change ((a.state.get k).map _).getD _ = _
  cases hst : a.state.get k with
  | none => rfl
  | some st =>
    exact h.phaseOf_eq (h.ids.sublist (List.filter_sublist.map _)) hst fun e he _ hend =>
      ⟨e, List.mem_filter.mpr ⟨he, kept_open hend⟩, rfl, rfl⟩

/-! ## Restarts -/

/-- The entry that `seed` makes of an open row. -/
def entryOf (e : Event) : Entry := ⟨e.started, some e.id, e.value, none⟩

theorem get_foldl_reopened (es : List Event) (s : Dict Key Entry) :
    (es.foldl (fun s e => s.set e.key (entryOf e)) s).get k =
      match (es.filter fun e => e.key = k).getLast? with
      | some e => some (entryOf e)
      | none => s.get k := by
  induction es using List.reverseRecOn with
  | nil => rfl
  | append_singleton es e ih =>
    rw [List.foldl_append, List.foldl_cons, List.foldl_nil, Dict.get_set, List.filter_append]
    by_cases hk : e.key = k
    · simp [hk]
    · simp [hk, Ne.symm hk, ih]

theorem reopened_get (es : List Event) :
    (reopened es).get k =
      (((es.filter fun e => e.ended = none).filter fun e => e.key = k).getLast?).map entryOf := by
  refine (get_foldl_reopened _ _).trans ?_
  split
  · rename_i h
    rw [h]
    rfl
  · rename_i h
    rw [h]
    rfl

theorem reopened_some (h : Matched a) {e : Event} (he : e ∈ a.events) (hend : e.ended = none) :
    (reopened a.events).get e.key = some (entryOf e) := by
  rw [reopened_get]
  have hmem : e ∈ (a.events.filter fun e => e.ended = none).filter fun x => x.key = e.key := by
    simp [he, hend]
  cases hl : ((a.events.filter fun e => e.ended = none).filter fun x => x.key = e.key).getLast? with
  | none =>
    rw [List.getLast?_eq_none_iff.mp hl] at hmem
    cases hmem
  | some x =>
    have hx := List.mem_of_getLast? hl
    simp only [List.mem_filter, decide_eq_true_eq] at hx
    have hown := (h.rows e.key e.id).mpr ⟨e, he, rfl, rfl, hend⟩
    have hid := (h.id_iff hown hx.1.1).mpr ⟨hx.2, hx.1.2⟩
    rw [h.row_eq hx.1.1 he hid]
    rfl

theorem reopened_none (es : List Event) (hno : ∀ e ∈ es, e.key = k → e.ended ≠ none) :
    (reopened es).get k = none := by
  rw [reopened_get]
  have : ((es.filter fun e => e.ended = none).filter fun e => e.key = k) = [] := by
    rw [List.filter_eq_nil_iff]
    intro e he hk
    rw [List.mem_filter] at he
    exact hno e he.1 (by simpa using hk) (by simpa using he.2)
  rw [this]
  rfl

theorem reopened_owns (h : Matched a) {st : Entry} (hst : (reopened a.events).get k = some st) :
    ∃ e ∈ a.events, e.key = k ∧ e.ended = none ∧ st = entryOf e := by
  by_cases hno : ∀ e ∈ a.events, e.key = k → e.ended ≠ none
  · rw [reopened_none _ hno] at hst
    cases hst
  · push Not at hno
    obtain ⟨e, he, rfl, hend⟩ := hno
    rw [reopened_some h he hend] at hst
    exact ⟨e, he, rfl, hend, (Option.some.inj hst).symm⟩

@[simp] theorem truncate_int (n : Int) : truncate (n : ℚ) = n := by
  unfold truncate
  split <;> simp

theorem matched_seed (h : Matched a) : Matched (seed a) where
  ids := h.ids
  rows k id := by
    constructor
    · rintro ⟨st, hst, hev⟩
      obtain ⟨e, he, hk, hend, rfl⟩ := reopened_owns h hst
      exact ⟨e, he, Option.some.inj hev, hk, hend⟩
    · rintro ⟨e, he, rfl, rfl, hend⟩
      exact ⟨entryOf e, reopened_some h he hend, rfl⟩
  fits k st hst e he hev := by
    obtain ⟨e', he', hk, hend, rfl⟩ := reopened_owns h hst
    rw [← h.row_eq he' he (Option.some.inj hev)]
    refine ⟨(truncate_int _).symm, fun m hm => ?_⟩
    cases hm

/-- A restart forgets what is pending, and nothing else of a key. -/
theorem view_seed (h : Matched a) : view k (seed a) = Life.restart (view k a) := by
  have hrows : view k (seed a) = { view k a with
      phase := (((reopened a.events).get k).map (phaseOf a.events)).getD .idle } := rfl
  rw [hrows]
  by_cases hown : ∃ id, Owns a k id
  · obtain ⟨id, st, hst, hev⟩ := hown
    obtain ⟨e, he, rfl, rfl, hend⟩ := (h.rows k id).mp ⟨st, hst, hev⟩
    rw [reopened_some h he hend]
    unfold Life.restart
    rw [view_phase hst]
    have hfit := (h.fits _ st hst e he hev).1
    simp [phaseOf, hev, entryOf, hfit]
  · have hno : ∀ e ∈ a.events, e.key = k → e.ended ≠ none := fun e he hk hend =>
      hown ⟨e.id, (h.rows k e.id).mpr ⟨e, he, rfl, hk, hend⟩⟩
    rw [reopened_none _ hno]
    unfold Life.restart
    cases hst : a.state.get k with
    | none => rw [view_idle hst]; rfl
    | some st =>
      rw [view_phase hst]
      unfold phaseOf
      cases hev : st.event with
      | none => rfl
      | some id => exact absurd ⟨id, st, hst, hev⟩ hown

/-! ## All operations -/

theorem matched_run (c : Ctx) (o : Op) (h : Matched a) : Matched (o.run c a) := by
  cases o with
  | seed => exact matched_seed h
  | reload => exact ⟨h.ids, h.rows, h.fits⟩
  | updateRule kind thr forS sev on => exact ⟨h.ids, h.rows, h.fits⟩
  | forgetSubject kind subject => exact matched_stepAll _ _ _ a h
  | forgetServer sid => exact (forgetServer_shuts sid a).matched h
  | prune now keepDays => exact matched_prune now keepDays h
  | step i => exact matched_runActs _ a h
  | settle kinds sid seen now => exact matched_runActs _ a h
  | sample sid s cpus now => exact matched_runActs _ a h
  | offline started servers now => exact matched_runActs _ a h
  | check subject name url fails error certDays now => exact matched_runActs _ a h

/-- What an operation does to a key depends on this key and the rules only. -/
theorem view_run (c : Ctx) (o : Op) (h : Matched a) :
    view k (o.run c a) = Life.op k a.rules c (view k a) o := by
  cases o with
  | seed => exact view_seed h
  | reload => rfl
  | updateRule kind thr forS sev on => rfl
  | forgetSubject kind subject =>
    refine (view_stepKeys none true _ h).trans ?_
    simp only [Life.op, decide_eq_true_eq]
  | forgetServer sid => exact (forgetServer_shuts sid a).view h rfl
  | prune now keepDays => exact view_prune now keepDays h
  | step i => exact view_runActs _ a h
  | settle kinds sid seen now => exact view_runActs _ a h
  | sample sid s cpus now => exact view_runActs _ a h
  | offline started servers now => exact view_runActs _ a h
  | check subject name url fails error certDays now => exact view_runActs _ a h

theorem call_gone_phase {l : Life} {rules : Kind → Option Rule} {now : Option ℚ} {quiet : Bool} :
    (l.call rules c (gone k now quiet)).phase = .idle := by
  have hbad : badRule rules (gone k now quiet) = none := by simp [badRule, gone]
  unfold Life.call Life.improve
  rw [hbad]
  cases hl : l.phase with
  | idle => exact hl
  | pending since => rfl
  | firing since text => rfl

theorem call_gone_not_firing {l : Life} {rules : Kind → Option Rule} {now : Option ℚ} {quiet : Bool} :
    ¬ Firing (l.call rules c (gone k now quiet)) := by
  rintro ⟨since, text, hp⟩
  rw [call_gone_phase] at hp
  cases hp

/-- `forget_subject` closes what it is about and nothing else. -/
theorem isOpen_forgetSubject (h : Matched a) (kind : Kind) (subject : String) :
    HasOpen k (forgetSubject c kind subject a) ↔
      HasOpen k a ∧ ¬ (k.rule = kind ∧ k.subject = subject) := by
  have hm : Matched (forgetSubject c kind subject a) := matched_stepAll _ _ _ a h
  have hv := view_run (k := k) c (.forgetSubject kind subject) h
  rw [isOpen_iff hm, isOpen_iff h]
  change Firing (view k ((Op.forgetSubject kind subject).run c a)) ↔ _
  rw [hv]
  simp only [Life.op]
  split
  · rename_i hk
    exact iff_of_false call_gone_not_firing (fun hno => hno.2 hk)
  · rename_i hk
    exact ⟨fun ho => ⟨ho, hk⟩, fun ho => ho.1⟩

/-- `forget_server` closes what is about the server and nothing else. -/
theorem isOpen_forgetServer (sid : Sid) :
    HasOpen k (forgetServer c sid a) ↔ HasOpen k a ∧ k.serverId ≠ sid := by
  unfold HasOpen
  rw [(forgetServer_shuts sid a).events]
  constructor
  · rintro ⟨_, hmem, rfl, hend⟩
    obtain ⟨e, he, rfl⟩ := List.mem_map.mp hmem
    rw [closeIf_ended] at hend
    rw [closeIf_key]
    exact ⟨⟨e, he, rfl, hend.2⟩, hend.1⟩
  · rintro ⟨⟨e, he, rfl, hend⟩, hne⟩
    exact ⟨_, List.mem_map_of_mem he, closeIf_key, closeIf_ended.mpr ⟨hne, hend⟩⟩

theorem matched_empty : Matched .empty where
  ids := List.nodup_nil
  rows k id := by
    refine iff_of_false ?_ ?_
    · rintro ⟨st, hst, -⟩
      cases hst
    · rintro ⟨e, he, -⟩
      cases he
  fits k st hst := by cases hst

theorem matched_history (h : History) (ha : Matched a) : Matched (run h a) := by
  unfold run
  induction h generalizing a with
  | nil => exact ha
  | cons x h ih => exact ih (matched_run x.1 x.2 ha)

theorem Reachable.matched (h : Reachable a) : Matched a := by
  obtain ⟨hist, rfl⟩ := h
  exact matched_history hist matched_empty

end icsd_panel.operations

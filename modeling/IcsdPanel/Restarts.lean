-- Open events and the memory of the hub belong together one to one, and a
-- restart of the hub does not change what becomes of an open event.
import IcsdPanel.Operations

open dicts

namespace icsd_panel.restarts

open alerts live evaluators lives operations

/-! ## The rules in memory are those of the table -/

/-- Before the first `seed` there is nothing at all. -/
def Blank (a : Alerts) : Prop :=
  a.rules = (fun _ => none) ∧ a.table = (fun _ => none) ∧ a.state.entries = [] ∧ a.events = []

def Seeded (a : Alerts) : Prop := a.rules = a.table ∧ ∀ k, (a.table k).isSome

variable {a b : Alerts} {k : Key} {c : Ctx}

theorem Blank.step (h : Blank a) (c : Ctx) (i : Call) : step c i a = a := by
  obtain ⟨hr, -, hs, -⟩ := h
  have hbad : badRule a.rules i = none := by simp [badRule, hr]
  have hget : a.state.get i.key = none := by simp [Dict.get, hs]
  rw [step_eq, hbad]
  simp [alerts.improve, hget]

theorem Blank.keys (h : Blank a) : a.state.keys = [] := by
  obtain ⟨-, -, hs, -⟩ := h
  simp [Dict.keys, hs]

theorem Blank.act (h : Blank a) (x : Act) : x.run c a = a := by
  cases x with
  | step i => exact h.step c i
  | settle kinds sid seen now => simp [Act.run, settle, stepAll, h.keys]

theorem Blank.runActs (h : Blank a) (xs : List Act) : runActs c xs a = a := by
  unfold evaluators.runActs
  induction xs with
  | nil => rfl
  | cons x xs ih => rw [List.foldl_cons, h.act x, ih]

theorem blank_or_seeded_run (h : Blank a ∨ Seeded a) (c : Ctx) (o : Op) :
    Blank (o.run c a) ∨ Seeded (o.run c a) := by
  have hacts (xs : List Act) : Blank (runActs c xs a) ∨ Seeded (runActs c xs a) := by
    rcases h with h | h
    · rw [h.runActs]
      exact .inl h
    · obtain ⟨h1, h2⟩ := runActs_rules (c := c) xs a
      exact .inr ⟨by rw [h1, h2]; exact h.1, by rw [h2]; exact h.2⟩
  cases o with
  | seed => exact .inr ⟨rfl, fun k => rfl⟩
  | reload =>
    rcases h with ⟨-, ht, hs, he⟩ | h
    · exact .inl ⟨ht, ht, hs, he⟩
    · exact .inr ⟨rfl, h.2⟩
  | updateRule kind thr forS sev on =>
    rcases h with ⟨-, ht, hs, he⟩ | h
    · have : (fun k => if k = kind then (a.table k).map fun _ => (⟨thr, max 0 (min forS 86400), sev, on⟩ : Rule)
          else a.table k) = fun _ => none := funext fun k => by simp [ht]
      exact .inl ⟨this, this, hs, he⟩
    · refine .inr ⟨rfl, fun k => ?_⟩
      simp only [Op.run, updateRule, reload]
      split
      · simpa using h.2 k
      · exact h.2 k
  | forgetSubject kind subject =>
    rcases h with h | h
    · refine .inl ?_
      simpa [Op.run, forgetSubject, stepAll, h.keys] using h
    · obtain ⟨h1, h2⟩ := stepAll_rules (c := c) none true
        (a.state.keys.filter fun k => k.rule = kind ∧ k.subject = subject) a
      exact .inr ⟨h1.trans (h.1.trans h2.symm), fun k => by
        change ((stepAll c none true _ a).table k).isSome
        rw [h2]
        exact h.2 k⟩
  | forgetServer sid =>
    rcases h with h | h
    · refine .inl ⟨h.1, h.2.1, ?_, ?_⟩
      · simpa [Op.run, forgetServer, h.keys] using h.2.2.1
      · simpa [Op.run, forgetServer] using h.2.2.2
    · exact .inr h
  | prune now keepDays =>
    rcases h with h | h
    · refine .inl ⟨h.1, h.2.1, h.2.2.1, ?_⟩
      simp [Op.run, prune, h.2.2.2]
    · exact .inr h
  | step i => exact hacts _
  | settle kinds sid seen now => exact hacts _
  | sample sid s cpus now => exact hacts _
  | offline started servers now => exact hacts _
  | check subject name url fails error certDays now => exact hacts _

theorem Reachable.blank_or_seeded (h : Reachable a) : Blank a ∨ Seeded a := by
  obtain ⟨hist, rfl⟩ := h
  have hrun (hist : History) (a : Alerts) (ha : Blank a ∨ Seeded a) :
      Blank (run hist a) ∨ Seeded (run hist a) := by
    unfold run
    induction hist generalizing a with
    | nil => exact ha
    | cons x hist ih => exact ih _ (blank_or_seeded_run ha x.1 x.2)
  exact hrun hist .empty (.inl ⟨rfl, rfl, rfl, rfl⟩)

/-- The rules after an operation depend on the rules before it only. -/
theorem rules_run (hr : a.rules = b.rules) (ht : a.table = b.table) (c : Ctx) (o : Op) :
    (o.run c a).rules = (o.run c b).rules ∧ (o.run c a).table = (o.run c b).table := by
  have hacts (xs : List Act) : (runActs c xs a).rules = (runActs c xs b).rules ∧
      (runActs c xs a).table = (runActs c xs b).table := by
    obtain ⟨h1, h2⟩ := runActs_rules (c := c) xs a
    obtain ⟨h3, h4⟩ := runActs_rules (c := c) xs b
    exact ⟨h1.trans (hr.trans h3.symm), h2.trans (ht.trans h4.symm)⟩
  have hall (ks ks' : List Key) : (stepAll c none true ks a).rules = (stepAll c none true ks' b).rules ∧
      (stepAll c none true ks a).table = (stepAll c none true ks' b).table := by
    obtain ⟨h1, h2⟩ := stepAll_rules (c := c) none true ks a
    obtain ⟨h3, h4⟩ := stepAll_rules (c := c) none true ks' b
    exact ⟨h1.trans (hr.trans h3.symm), h2.trans (ht.trans h4.symm)⟩
  cases o with
  | seed => simp only [Op.run, seed, reload, ht, and_self]
  | reload => exact ⟨ht, ht⟩
  | updateRule kind thr forS sev on => simp only [Op.run, updateRule, reload, ht, and_self]
  | forgetSubject kind subject => exact hall _ _
  | forgetServer sid => exact ⟨hr, ht⟩
  | prune now keepDays => exact ⟨hr, ht⟩
  | step i => exact hacts _
  | settle kinds sid seen now => exact hacts _
  | sample sid s cpus now =>
    simp only [Op.run, Op.acts, hr]
    exact hacts _
  | offline started servers now =>
    simp only [Op.run, Op.acts, hr]
    exact hacts _
  | check subject name url fails error certDays now =>
    simp only [Op.run, Op.acts, hr]
    exact hacts _

/-! ## Two lives that differ by a restart -/

/-- The same message, but for the duration, which may be counted from the whole
second of its start. -/
inductive Alike : Note → Note → Prop
  | alert (k : Key) (s : Severity) (label server text : String) (t : ℚ) :
      Alike (.alert k s label server text t) (.alert k s label server text t)
  | resolved (k : Key) (label server text : String) (t since since' : ℚ)
      (h : since' = since ∨ since' = truncate since) :
      Alike (.resolved k label server text (t - since)) (.resolved k label server text (t - since'))

theorem Alike.refl : (n : Note) → Alike n n
  | .alert k s label server text t => .alert k s label server text t
  | .resolved k label server text d => by
    have hsame := Alike.resolved k label server text d 0 0 (.inl rfl)
    rwa [sub_zero] at hsame

/-- The phase after a restart, or the same phase. -/
def Aligned (p p' : Phase) : Prop :=
  p' = p ∨ ∃ since text, p = .firing since text ∧ p' = .firing (truncate since) text

structure Like (l l' : Life) : Prop where
  phase : Aligned l.phase l'.phase
  rows : l'.rows = l.rows
  notes : List.Forall₂ Alike l.notes l'.notes

variable {l l' : Life}

/-- From the whole second of the start, no minute less is counted and at most one more. -/
theorem minutes_truncate {since : ℚ} (t : ℚ) (h : 0 ≤ since) : minutesOf (t - truncate since) = minutesOf (t - since) ∨
    minutesOf (t - truncate since) = minutesOf (t - since) + 1 := by
  have hlow : (truncate since : ℚ) ≤ since := by
    rw [truncate, if_pos h]
    exact Rat.floor_le since
  have hhigh : since < truncate since + 1 := by
    have hlt := Rat.lt_floor_add_one since
    rw [truncate, if_pos h]
    exact_mod_cast hlt
  have hle : minutesOf (t - since) ≤ minutesOf (t - truncate since) :=
    Rat.floor_monotone (by linarith)
  have hge : minutesOf (t - truncate since) ≤ minutesOf (t - since) + 1 := by
    have hsecond : (t - truncate since) / 60 ≤ (t - since) / 60 + 1 := by linarith
    calc minutesOf (t - truncate since) ≤ ((t - since) / 60 + 1).floor := Rat.floor_monotone hsecond
      _ = minutesOf (t - since) + 1 := Rat.floor_add_one
  omega

theorem like_fire (h : Like l l') (r : Rule) (i : Call) (since : ℚ) :
    Like (l.fire r c i since) (l'.fire r c i since) where
  phase := .inl rfl
  rows := by simp [Life.fire, h.rows]
  notes := List.rel_append h.notes (.cons (.alert _ _ _ _ _ _) .nil)

theorem like_wait (h : Like l l') (r : Rule) (i : Call) (since : ℚ) :
    Like (l.wait r c i since) (l'.wait r c i since) := by
  unfold Life.wait
  split
  · exact like_fire h r i since
  · exact ⟨.inl rfl, h.rows, h.notes⟩

theorem like_worsen (h : Like l l') (r : Rule) (i : Call) :
    Like (l.worsen r c i) (l'.worsen r c i) := by
  unfold Life.worsen
  rcases h.phase with heq | ⟨since, text, hp, hp'⟩
  · rw [heq]
    split
    · exact like_wait h r i _
    · exact like_wait h r i _
    · exact h
  · rw [hp, hp']
    exact h

theorem like_improve (h : Like l l') (i : Call) : Like (l.improve c i) (l'.improve c i) := by
  have hclose (since since' : ℚ) (text : String) (hs : since' = since ∨ since' = truncate since) :
      Like ⟨.idle, l.rows.map (closed (truncate (orTime i.now c.time))),
          l.notes ++ if i.quiet then [] else
            [.resolved i.key i.key.rule.default.label (serverName c i.key.serverId) text
              (orTime i.now c.time - since)]⟩
        ⟨.idle, l'.rows.map (closed (truncate (orTime i.now c.time))),
          l'.notes ++ if i.quiet then [] else
            [.resolved i.key i.key.rule.default.label (serverName c i.key.serverId) text
              (orTime i.now c.time - since')]⟩ := by
    refine ⟨.inl rfl, by rw [h.rows], ?_⟩
    refine List.rel_append h.notes ?_
    split
    · exact .nil
    · exact .cons (.resolved _ _ _ _ _ _ _ hs) .nil
  unfold Life.improve
  rcases h.phase with heq | ⟨since, text, hp, hp'⟩
  · rw [heq]
    split
    · exact h
    · exact ⟨.inl rfl, h.rows, h.notes⟩
    · rename_i since text _
      exact hclose since since text (.inl rfl)
  · rw [hp, hp']
    exact hclose since (truncate since) text (.inr rfl)

theorem like_call (h : Like l l') (rules : Kind → Option Rule) (i : Call) :
    Like (l.call rules c i) (l'.call rules c i) := by
  unfold Life.call
  split
  · exact like_worsen h _ i
  · exact like_improve h i

theorem like_act (h : Like l l') (rules : Kind → Option Rule) (x : Act) :
    Like (Life.act k rules c l x) (Life.act k rules c l' x) := by
  cases x with
  | step i =>
    simp only [Life.act]
    split
    · exact like_call h rules i
    · exact h
  | settle kinds sid seen now =>
    simp only [Life.act]
    split
    · exact like_call h rules _
    · exact h

theorem like_acts (h : Like l l') (rules : Kind → Option Rule) (xs : List Act) :
    Like (xs.foldl (Life.act k rules c) l) (xs.foldl (Life.act k rules c) l') := by
  induction xs generalizing l l' with
  | nil => exact h
  | cons x xs ih => exact ih (like_act h rules x)

theorem like_restart (h : Like l l') : Like (Life.restart l) (Life.restart l') := by
  unfold Life.restart
  rcases h.phase with heq | ⟨since, text, hp, hp'⟩
  · rw [heq]
    split
    · exact ⟨.inl rfl, h.rows, h.notes⟩
    · exact ⟨.inl rfl, h.rows, h.notes⟩
  · rw [hp, hp']
    exact ⟨.inl (by simp), h.rows, h.notes⟩

theorem like_op (h : Like l l') (rules : Kind → Option Rule) (o : Op) :
    Like (Life.op k rules c l o) (Life.op k rules c l' o) := by
  cases o with
  | seed => exact like_restart h
  | reload => exact h
  | updateRule kind thr forS sev on => exact h
  | forgetSubject kind subject =>
    simp only [Life.op]
    split
    · exact like_call h rules _
    · exact h
  | forgetServer sid =>
    simp only [Life.op]
    split
    · exact ⟨.inl rfl, by rw [h.rows], h.notes⟩
    · exact h
  | prune now keepDays => exact ⟨h.phase, by simp only [Life.op, h.rows], h.notes⟩
  | step i => exact like_acts h rules _
  | settle kinds sid seen now => exact like_acts h rules _
  | sample sid s cpus now => exact like_acts h rules _
  | offline started servers now => exact like_acts h rules _
  | check subject name url fails error certDays now => exact like_acts h rules _

/-- Two hubs with the same rules, in one of which a key was restarted, stay
alike for this key through every history. -/
theorem like_history (h : History) (ha : Matched a) (hb : Matched b) (hr : a.rules = b.rules)
    (ht : a.table = b.table) (hl : Like (view k a) (view k b)) :
    Like (view k (run h a)) (view k (run h b)) := by
  unfold run
  induction h generalizing a b with
  | nil => exact hl
  | cons x h ih =>
    obtain ⟨hr', ht'⟩ := rules_run hr ht x.1 x.2
    refine ih (matched_run x.1 x.2 ha) (matched_run x.1 x.2 hb) hr' ht' ?_
    rw [view_run x.1 x.2 ha, view_run x.1 x.2 hb, hr]
    exact like_op hl b.rules x.2

/-! ## The laws -/

/-- The open rows of `events` and the entries of `_state` whose event is set,
one to one. -/
structure OneToOne (a : Alerts) : Prop where
  distinct : (a.events.map Event.id).Nodup
  entry : ∀ e ∈ a.events, e.ended = none →
    ∃ st, a.state.get e.key = some st ∧ st.event = some e.id
  row : ∀ k st id, a.state.get k = some st → st.event = some id →
    ∃ e ∈ a.events, e.id = id ∧ e.key = k ∧ e.ended = none
  one : ∀ e ∈ a.events, ∀ e' ∈ a.events, e.ended = none → e'.ended = none → e.key = e'.key → e = e'

theorem Matched.oneToOne (h : Matched a) : OneToOne a where
  distinct := h.ids
  entry e he hend := (h.rows e.key e.id).mpr ⟨e, he, rfl, rfl, hend⟩
  row k st id hst hev := (h.rows k id).mp ⟨st, hst, hev⟩
  one e he e' he' hend hend' hk := by
    have hown := (h.rows e'.key e'.id).mpr ⟨e', he', rfl, rfl, hend'⟩
    exact h.row_eq he he' ((h.id_iff hown he).mpr ⟨hk, hend⟩)

theorem like_seed (h : Reachable a) (hopen : ∃ id, HasRow a.events k id) :
    (seed a).rules = a.rules ∧ (seed a).table = a.table ∧ Like (view k a) (view k (seed a)) := by
  obtain ⟨id, hrow⟩ := hopen
  have hseeded : Seeded a := by
    rcases Reachable.blank_or_seeded h with ⟨-, -, -, he⟩ | h
    · obtain ⟨e, hmem, -⟩ := hrow
      rw [he] at hmem
      cases hmem
    · exact h
  have htable : (seed a).table = a.table := funext fun k => by
    obtain ⟨r, hr⟩ := Option.isSome_iff_exists.mp (hseeded.2 k)
    simp [seed, reload, hr]
  refine ⟨?_, htable, ?_⟩
  · rw [hseeded.1, ← htable]
    rfl
  · obtain ⟨st, hst, hev⟩ := (h.matched.rows k id).mpr hrow
    rw [view_seed h.matched]
    unfold Life.restart
    have hp := view_phase hst
    unfold phaseOf at hp
    rw [hev] at hp
    rw [hp]
    refine ⟨.inr ⟨_, _, hp, rfl⟩, rfl, ?_⟩
    exact List.forall₂_same.mpr fun n _ => Alike.refl n

/-- In every reachable state open rows and entries with an event belong
together one to one; and a restart while an event of `k` is open changes, from
then on, no row of `k` but for its id, and no message of `k` but for the
duration that it gives, which may be counted from the whole second of the start: then the
minutes that it names are the same or one more. -/
theorem restart_keeps (h : History) :
    OneToOne (run h .empty) ∧
    (∀ k, (∃ e ∈ (run h .empty).events, e.key = k ∧ e.ended = none) → ∀ h' : History,
      rowsOf k (run h' (seed (run h .empty))).events = rowsOf k (run h' (run h .empty)).events ∧
      List.Forall₂ Alike ((run h' (run h .empty)).sent.filter fun n => n.key = k)
        ((run h' (seed (run h .empty))).sent.filter fun n => n.key = k)) ∧
    ∀ t since : ℚ, 0 ≤ since → duration (t - truncate since) = duration (t - since) ∨
      duration (t - truncate since) = inMinutes (minutesOf (t - since) + 1) := by
  have hreach : Reachable (run h .empty) := ⟨h, rfl⟩
  refine ⟨Matched.oneToOne hreach.matched, ?_, fun t since hpos => ?_⟩
  rotate_left
  · exact (minutes_truncate t hpos).imp (congrArg inMinutes) (congrArg inMinutes)
  rintro k ⟨e, he, hk, hend⟩ h'
  obtain ⟨hr, ht, hl⟩ := like_seed hreach ⟨e.id, e, he, rfl, hk, hend⟩
  have := like_history h' hreach.matched (matched_seed hreach.matched) hr.symm ht.symm hl
  exact ⟨this.rows, this.notes⟩

/-! ## A pending alert of another key -/

def disk : Key := ⟨.disk, "s1", "/"⟩

def cpu : Key := ⟨.cpu, "s1", ""⟩

def call (k : Key) (bad : Bool) (now : ℚ) : Ctx × Op :=
  (⟨now, fun _ => some "web"⟩, .step ⟨k, bad, 95, "high", some now, false⟩)

/-- The disk alert is open, and the processor has been busy since 100. -/
def busy : History := [(⟨1, fun _ => none⟩, .seed), call disk true 100, call cpu true 100]

/-- The processor stays busy for ten minutes; the disk clears and fills again. -/
def later : History := [call cpu true 700, call disk false 800, call disk true 900]

theorem restart_keeps_disk :
    rowsOf disk (run later (seed (run busy .empty))).events =
        rowsOf disk (run later (run busy .empty)).events ∧
      List.Forall₂ Alike ((run later (run busy .empty)).sent.filter fun n => n.key = disk)
        ((run later (seed (run busy .empty))).sent.filter fun n => n.key = disk) :=
  (restart_keeps busy).2.1 disk (by decide +kernel) later

/-- Taken with its id the row changes: the event of the processor, which the
restart delays, takes the number 2 only when there was no restart. -/
theorem restart_renumbers :
    (∃ e ∈ (run busy .empty).events, e.key = disk ∧ e.ended = none) ∧
    (run later (run busy .empty)).events.filter (fun e => e.key = disk) ≠
      (run later (seed (run busy .empty))).events.filter (fun e => e.key = disk) := by
  decide +kernel

example : (rowsOf disk (run later (seed (run busy .empty))).events).length = 2 := by
  decide +kernel

end icsd_panel.restarts

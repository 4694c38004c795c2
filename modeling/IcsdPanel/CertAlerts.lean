-- The alerts of the certificates on the servers: what a report of an agent opens and
-- closes, over any run of reports, restarts and everything else that touches alerts.
import IcsdPanel.Containers
import IcsdPanel.Onsets
import IcsdPanel.Overview

open dicts texts

namespace icsd_panel.cert_alerts

open alerts live evaluators lives operations onsets overview

/-! ## Reports -/

/-- What an alert is about: the file of the certificate, or its name. -/
def subjectOf (x : Cert) : String := "ssl:" ++ String.ofList (if x.path = [] then x.name else x.path)

def daysLeft (now : ℚ) (x : Cert) : ℚ := (x.notAfter - now) / 86400

/-- What `_alert_certs` reads of it. -/
def expiry (x : Cert) : Expiry := ⟨subjectOf x, x.notAfter, x.domains.map String.ofList, String.ofList x.source⟩

/-- The cache of the reports, and the alerts. -/
structure Hub where
  cache : Sid → Option (ℚ × Report)
  alerts : Alerts

def start : Hub := ⟨fun _ => none, .empty⟩

/-- No other call is about the certificate of a server: a check of a URL has no server. -/
def Apart : Op → Prop
  | .step i => i.key.rule = .cert → i.key.serverId = ""
  | .settle kinds _ _ _ => .cert ∉ kinds
  | _ => True

/-- The answer of an agent arrives in `fetch`, a server is deleted, the hub is started
again, and all else that touches the alerts. -/
inductive Move
  | arrive (c : Ctx) (sid : Sid) (report : Report)
  | forget (c : Ctx) (sid : Sid)
  | restart
  | other (c : Ctx) (o : {o : Op // Apart o})

def step (h : Hub) : Move → Hub
  | .arrive c sid report =>
    { cache := Function.update h.cache sid (some (c.time, report))
      alerts := runActs c (alertCerts h.alerts.rules sid c.time (report.certs.map expiry)) h.alerts }
  | .forget c sid => { cache := Function.update h.cache sid none, alerts := forgetServer c sid h.alerts }
  | .restart => { cache := fun _ => none, alerts := seed h.alerts }
  | .other c o => { h with alerts := o.1.run c h.alerts }

/-! ## What a report does to one key -/

variable {a : Alerts} {c : Ctx} {rules : Kind → Option Rule} {l : Life} {sid : Sid} {subject : String}
  {now : ℚ} {x : Cert} {certs : List Cert} {h : Hub} {r : Rule}

/-- The certificate that is judged last for a subject. -/
def judged (certs : List Cert) (subject : String) : Option Cert := (certs.filter fun x => subjectOf x = subject).getLast?

def Expiring (rules : Kind → Option Rule) (now : ℚ) (x : Cert) : Prop :=
  daysLeft now x ≤ thresholdOr rules .cert Kind.cert.default.threshold

@[simp] theorem expiry_subject : (expiry x).subject = subjectOf x := rfl

theorem certAct_other (hne : subjectOf x ≠ subject) :
    Life.act ⟨.cert, sid, subject⟩ rules c l (certAct rules sid now (expiry x)) = l := by
  simp [certAct, Life.act, Ne.symm hne]

/-- The loop, for one subject. -/
theorem certs_fold : ((certs.map expiry).map (certAct rules sid now)).foldl (Life.act ⟨.cert, sid, subject⟩ rules c) l =
    (((certs.filter fun x => subjectOf x = subject).map expiry).map (certAct rules sid now)).foldl
      (Life.act ⟨.cert, sid, subject⟩ rules c) l := by
  induction certs generalizing l with
  | nil => rfl
  | cons x certs ih =>
    rw [List.map_cons, List.map_cons, List.foldl_cons, ih]
    by_cases hx : subjectOf x = subject
    · rw [List.filter_cons_of_pos (by simpa using hx), List.map_cons, List.map_cons, List.foldl_cons]
    · rw [List.filter_cons_of_neg (by simpa using hx), certAct_other hx]

theorem settle_cert {seen : List (Kind × String)} :
    Life.act ⟨.cert, sid, subject⟩ rules c l (.settle [.cert] sid seen now) =
      if (Kind.cert, subject) ∈ seen then l
      else l.call rules c (gone ⟨.cert, sid, subject⟩ (some now) false) := by
  by_cases hseen : (Kind.cert, subject) ∈ seen <;> simp [Life.act, hseen]

theorem mem_seen : (Kind.cert, subject) ∈ (certs.map fun x => (Kind.cert, subjectOf x)) ↔
    certs.filter (fun x => subjectOf x = subject) ≠ [] := by
  rw [List.mem_map, ne_eq, List.filter_eq_nil_iff]
  simp

/-- The key after the report is decided by the certificates of its subject. -/
theorem alertCerts_fold :
    (alertCerts rules sid now (certs.map expiry)).foldl (Life.act ⟨.cert, sid, subject⟩ rules c) l =
      match judged certs subject with
      | none => l.call rules c (gone ⟨.cert, sid, subject⟩ (some now) false)
      | some x => Life.act ⟨.cert, sid, subject⟩ rules c
          ((((certs.filter fun x => subjectOf x = subject).dropLast.map expiry).map (certAct rules sid now)).foldl
            (Life.act ⟨.cert, sid, subject⟩ rules c) l) (certAct rules sid now (expiry x)) := by
  unfold alertCerts judged
  rw [List.foldl_append, certs_fold, List.foldl_cons, List.foldl_nil, settle_cert, List.map_map]
  change (if (Kind.cert, subject) ∈ certs.map fun x => (Kind.cert, subjectOf x) then _ else _) = _
  rcases List.eq_nil_or_concat (certs.filter fun x => subjectOf x = subject) with hnil | ⟨xs, x, hxs⟩
  · have hseen : (Kind.cert, subject) ∉ certs.map fun x => (Kind.cert, subjectOf x) := fun hmem => mem_seen.mp hmem hnil
    rw [if_neg hseen, hnil]
    rfl
  · have hseen : (Kind.cert, subject) ∈ certs.map fun x => (Kind.cert, subjectOf x) := by
      rw [mem_seen, hxs]
      simp
    rw [if_pos hseen, hxs]
    simp [List.foldl_append]

theorem judged_some (hx : judged certs subject = some x) : x ∈ certs ∧ subjectOf x = subject := by
  obtain ⟨hmem, heq⟩ := List.mem_filter.mp (List.mem_of_getLast? hx)
  exact ⟨hmem, of_decide_eq_true heq⟩

/-- The last certificate of a subject, when it is no cause for an alert. -/
theorem certAct_fine (hx : subjectOf x = subject) (hfine : ¬ Expiring rules now x) :
    ¬ Firing (Life.act ⟨.cert, sid, subject⟩ rules c l (certAct rules sid now (expiry x))) := by
  subst hx
  simp only [certAct, Life.act, expiry_subject, if_true]
  refine containers.improve_not_firing ?_
  have hbad : ¬ ((expiry x).notAfter - now) / 86400 ≤ thresholdOr rules .cert Kind.cert.default.threshold := hfine
  simp [badRule, hbad]

/-- What is not listed, or judged fine at last, has no open event after a report. -/
theorem firing_listed (hf : Firing ((alertCerts rules sid now (certs.map expiry)).foldl (Life.act ⟨.cert, sid, subject⟩ rules c) l)) :
    ∃ x, judged certs subject = some x ∧ Expiring rules now x := by
  rw [alertCerts_fold] at hf
  split at hf
  · exact absurd hf call_gone_not_firing
  next x hx =>
    refine ⟨x, hx, ?_⟩
    by_contra hfine
    exact certAct_fine (judged_some hx).2 hfine hf

/-! ## What other calls do to it -/

theorem untilRaise_mem {xs : List (Option Act)} {x : Act} (hx : x ∈ untilRaise xs) : some x ∈ xs := by
  induction xs with
  | nil => cases hx
  | cons o xs ih =>
    cases o with
    | none => cases hx
    | some y =>
      rcases List.mem_cons.mp hx with rfl | hx
      · exact List.mem_cons_self
      · exact List.mem_cons_of_mem _ (ih hx)

/-- A sample is about other rules. -/
theorem sample_spares {s : Sample} {cpus : Int} {x : Act} (hx : x ∈ evaluateSample rules sid s cpus now)
    (sid' : Sid) (subject : String) : Act.Spares ⟨.cert, sid', subject⟩ x := by
  have hx := untilRaise_mem hx
  simp only [List.mem_append, List.mem_cons, List.not_mem_nil, or_false, List.mem_map, List.mem_flatMap] at hx
  rcases hx with (hx | ⟨y, ⟨d, -, hy⟩, hx⟩) | ⟨y, hy, hx⟩
  · rcases hx with hx | hx | hx | hx
    · obtain ⟨r, -, rfl⟩ := Option.map_eq_some_iff.mp hx.symm
      simp [Act.Spares, chk]
    · obtain ⟨r, -, rfl⟩ := Option.map_eq_some_iff.mp hx.symm
      simp [Act.Spares, chk]
    · cases hx
      simp [Act.Spares, chk]
    · cases hx
      simp [Act.Spares, chk]
  · cases hx
    simp only [diskActs, List.mem_cons, List.not_mem_nil, or_false] at hy
    rcases hy with rfl | rfl | rfl <;> simp [Act.Spares, chk]
  · cases hx
    have hrest (seen : List (Kind × String)) (hy : x = .settle [.cpu, .mem, .load, .steal] sid seen now ∨
        x ∈ if s.slow.disks.isSome then [Act.settle [.disk, .disk_full, .inodes] sid seen now] else []) :
        Act.Spares ⟨.cert, sid', subject⟩ x := by
      rcases hy with rfl | hy
      · simp [Act.Spares]
      · split at hy
        · rw [List.mem_singleton.mp hy]
          simp [Act.Spares]
        · cases hy
    split at hy
    next cs hcs herr =>
      rcases hy with hy | hy
      · rcases List.mem_append.mp hy with hy | hy
        · obtain ⟨y, -, rfl⟩ := List.mem_map.mp hy
          simp [Act.Spares, containerAct]
        · rw [List.mem_singleton.mp hy]
          simp [Act.Spares]
      · exact hrest _ hy
    next =>
      rcases hy with hy | hy
      · cases hy
      · exact hrest _ hy

/-- What opens no event and does not start to wait. -/
structure Calms (l l' : Life) : Prop where
  firing : Firing l' → Firing l
  pending : ∀ since, l'.phase = .pending since → l.phase = .pending since

theorem calms_same {l' : Life} (h : l'.phase = l.phase) : Calms l l' where
  firing := fun ⟨since, text, hp⟩ => ⟨since, text, h ▸ hp⟩
  pending _ hp := h ▸ hp

theorem calms_idle {l' : Life} (h : l'.phase = .idle) : Calms l l' where
  firing := fun ⟨_, _, hp⟩ => by
    rw [h] at hp
    cases hp
  pending _ hp := by
    rw [h] at hp
    cases hp

/-- No other call starts anything about a certificate of a server. -/
theorem op_calms {o : Op} (hapart : Apart o) (hsid : sid ≠ "") :
    Calms l (Life.op ⟨.cert, sid, subject⟩ rules c l o) := by
  have hspared (xs : List Act) (hx : ∀ x ∈ xs, Act.Spares ⟨.cert, sid, subject⟩ x) :
      Calms l (xs.foldl (Life.act ⟨.cert, sid, subject⟩ rules c) l) := calms_same (by rw [acts_spared hx])
  cases o with
  | seed =>
    simp only [Life.op, Life.restart]
    split
    next since text hl => exact ⟨fun _ => ⟨since, text, hl⟩, fun _ hp => by cases hp⟩
    next => exact calms_idle rfl
  | reload => exact calms_same rfl
  | updateRule kind thr forS sev on => exact calms_same rfl
  | forgetSubject kind subject' =>
    simp only [Life.op]
    split
    · exact calms_idle call_gone_phase
    · exact calms_same rfl
  | forgetServer sid' =>
    simp only [Life.op]
    split
    · exact calms_idle rfl
    · exact calms_same rfl
  | prune now keepDays => exact calms_same rfl
  | step i =>
    refine hspared [.step i] fun x hx => ?_
    rw [List.mem_singleton.mp hx]
    intro heq
    have hserver : i.key.serverId = "" := hapart (by rw [heq])
    rw [heq] at hserver
    exact hsid hserver
  | settle kinds sid' seen now =>
    refine hspared [.settle kinds sid' seen now] fun x hx => ?_
    rw [List.mem_singleton.mp hx]
    exact fun hk => hapart hk.1
  | sample sid' s cpus now => exact hspared _ fun x hx => sample_spares hx sid subject
  | offline started servers now =>
    refine hspared _ fun x hx => ?_
    simp only [Op.acts, evaluateOffline] at hx
    split at hx
    · cases hx
    · obtain ⟨y, -, rfl⟩ := List.mem_map.mp hx
      simp [Act.Spares]
  | check subject' name url fails error certDays now =>
    refine hspared _ fun x hx => ?_
    simp only [Op.acts, evaluateCheck] at hx
    rcases List.mem_cons.mp hx with rfl | hx
    · simp [Act.Spares]
    · split at hx
      · cases hx
      · rw [List.mem_singleton.mp hx]
        simp [Act.Spares, Ne.symm hsid]

/-! ## Every run -/

/-- The report that the cache has for a server tells of each certificate that has an
open event. -/
structure Law (h : Hub) : Prop where
  matched : Matched h.alerts
  listed : ∀ sid t report, sid ≠ "" → h.cache sid = some (t, report) →
    ∀ subject, HasOpen ⟨.cert, sid, subject⟩ h.alerts → ∃ x ∈ report.certs, subjectOf x = subject

theorem open_other {o : Op} (hm : Matched a) (hapart : Apart o) (hsid : sid ≠ "")
    (ho : HasOpen ⟨.cert, sid, subject⟩ (o.run c a)) : HasOpen ⟨.cert, sid, subject⟩ a := by
  rw [isOpen_iff (matched_run c o hm), view_run c o hm] at ho
  rw [isOpen_iff hm]
  exact (op_calms hapart hsid).firing ho

/-- A report leaves the certificates of other servers. -/
theorem view_elsewhere {sid' : Sid} (hm : Matched a) (hne : sid' ≠ sid) :
    view ⟨.cert, sid', subject⟩ (runActs c (alertCerts rules sid now (certs.map expiry)) a) =
      view ⟨.cert, sid', subject⟩ a := by
  rw [view_runActs _ a hm, acts_spared]
  intro x hx
  rcases List.mem_append.mp hx with hx | hx
  · obtain ⟨y, -, rfl⟩ := List.mem_map.mp hx
    simp [Act.Spares, certAct, Ne.symm hne]
  · rw [List.mem_singleton.mp hx]
    simp [Act.Spares, hne]

theorem open_elsewhere {sid' : Sid} (hm : Matched a) (hne : sid' ≠ sid) :
    HasOpen ⟨.cert, sid', subject⟩ (runActs c (alertCerts rules sid now (certs.map expiry)) a) ↔
      HasOpen ⟨.cert, sid', subject⟩ a := by
  rw [isOpen_iff (matched_runActs _ a hm), view_elsewhere hm hne, ← isOpen_iff hm]

theorem open_arrived (hm : Matched a)
    (ho : HasOpen ⟨.cert, sid, subject⟩ (runActs c (alertCerts a.rules sid now (certs.map expiry)) a)) :
    ∃ x, judged certs subject = some x ∧ Expiring a.rules now x := by
  rw [isOpen_iff (matched_runActs _ a hm), view_runActs _ a hm] at ho
  exact firing_listed ho

theorem law_step (hl : Law h) (m : Move) : Law (step h m) := by
  cases m with
  | arrive c sid report =>
    refine ⟨matched_runActs _ _ hl.matched, fun sid' t report' hsid hcache subject ho => ?_⟩
    simp only [step] at hcache ho
    by_cases hsame : sid' = sid
    · subst hsame
      rw [Function.update_self] at hcache
      cases hcache
      obtain ⟨x, hx, -⟩ := open_arrived hl.matched ho
      exact ⟨x, judged_some hx⟩
    · rw [Function.update_of_ne hsame] at hcache
      exact hl.listed sid' t report' hsid hcache subject ((open_elsewhere hl.matched hsame).mp ho)
  | forget c sid =>
    refine ⟨matched_run c (.forgetServer sid) hl.matched, fun sid' t report' hsid hcache subject ho => ?_⟩
    simp only [step] at hcache ho
    have ho := ((isOpen_forgetServer sid).mp ho).1
    by_cases hsame : sid' = sid
    · subst hsame
      rw [Function.update_self] at hcache
      cases hcache
    · rw [Function.update_of_ne hsame] at hcache
      exact hl.listed sid' t report' hsid hcache subject ho
  | restart => exact ⟨matched_seed hl.matched, fun _ _ _ _ hcache => by cases hcache⟩
  | other c o =>
    refine ⟨matched_run c o.1 hl.matched, fun sid t report hsid hcache subject ho => ?_⟩
    exact hl.listed sid t report hsid hcache subject (open_other hl.matched o.2 hsid ho)

theorem law_run (ms : List Move) : Law (runs.final step start ms) :=
  runs.final_invariant (P := fun _ => True) (fun _ m hl _ => law_step hl m)
    ⟨matched_empty, fun _ _ _ _ hcache => by cases hcache⟩ fun _ _ => trivial

/-- In every run, while the hub has a report of a server, each open event about a
certificate of the server is about one that the report lists; and right after the report
arrived, about one that it lists as expiring. -/
theorem certs_told (ms : List Move) (sid : Sid) (hsid : sid ≠ "") :
    (∀ t report, (runs.final step start ms).cache sid = some (t, report) → ∀ subject,
        HasOpen ⟨.cert, sid, subject⟩ (runs.final step start ms).alerts → ∃ x ∈ report.certs, subjectOf x = subject) ∧
      ∀ c report subject, HasOpen ⟨.cert, sid, subject⟩ (step (runs.final step start ms) (.arrive c sid report)).alerts →
        ∃ x, judged report.certs subject = some x ∧ Expiring (runs.final step start ms).alerts.rules c.time x :=
  ⟨fun t report => (law_run ms).listed sid t report hsid, fun _ _ _ ho => open_arrived (law_run ms).matched ho⟩

/-- A certificate with four days left. -/
def soonOver : Report := ⟨[⟨"a".toList, "certbot".toList, ["a.ir".toList], [], 445600, "/etc/a.pem".toList⟩], [], true⟩

/-- The hub starts, and the report arrives. -/
def reported : List Move :=
  [.other ⟨100000, fun _ => none⟩ ⟨.seed, trivial⟩, .arrive ⟨100000, fun _ => none⟩ "s1" soonOver]

theorem reported_told :
    (∀ t report, (runs.final step start reported).cache "s1" = some (t, report) → ∀ subject,
        HasOpen ⟨.cert, "s1", subject⟩ (runs.final step start reported).alerts → ∃ x ∈ report.certs, subjectOf x = subject) ∧
      ∀ c report subject, HasOpen ⟨.cert, "s1", subject⟩ (step (runs.final step start reported) (.arrive c "s1" report)).alerts →
        ∃ x, judged report.certs subject = some x ∧ Expiring (runs.final step start reported).alerts.rules c.time x :=
  certs_told reported "s1" (by decide)

/-! ## Expiring certificates -/

/-- A key waits at most since now. -/
def Ripe (now : ℚ) (l : Life) : Prop := ∀ since, l.phase = .pending since → since ≤ now

theorem wait_firing {i : Call} {since : ℚ} (hfor : r.forS ≤ 0) (hsince : since ≤ orTime i.now c.time) :
    Firing (l.wait r c i since) := by
  have hlong : (r.forS : ℚ) ≤ orTime i.now c.time - since := by
    have : (r.forS : ℚ) ≤ 0 := by exact_mod_cast hfor
    linarith
  rw [Life.wait, if_pos hlong]
  exact ⟨since, i.message, rfl⟩

/-- Under a rule that does not wait, a bad call finds or opens an event. -/
theorem call_firing {i : Call} (hbad : badRule rules i = some r) (hfor : r.forS ≤ 0) (hripe : Ripe (orTime i.now c.time) l) :
    Firing (l.call rules c i) := by
  unfold Life.call
  rw [hbad]
  simp only [Life.worsen]
  split
  · exact wait_firing hfor le_rfl
  next since hp => exact wait_firing hfor (hripe since hp)
  next since text hp => exact ⟨since, text, hp⟩

theorem ripe_wait {i : Call} {since : ℚ} (hsince : since ≤ now) : Ripe now (l.wait r c i since) := by
  intro since' hp
  unfold Life.wait at hp
  split at hp
  · cases hp
  · cases hp
    exact hsince

theorem ripe_call {i : Call} (hnow : orTime i.now c.time ≤ now) (hripe : Ripe now l) : Ripe now (l.call rules c i) := by
  unfold Life.call
  cases badRule rules i with
  | some r =>
    simp only [Life.worsen]
    split
    · exact ripe_wait hnow
    next since hp => exact ripe_wait (hripe since hp)
    · exact hripe
  | none =>
    simp only [Life.improve]
    split
    · exact hripe
    · exact fun _ hp => by cases hp
    · exact fun _ hp => by cases hp

theorem orTime_self (t : ℚ) : orTime (some t) t = t := by simp [orTime]

theorem ripe_fold (xs : List Cert) (hnow : c.time ≤ now) (hripe : Ripe now l) :
    Ripe now (((xs.map expiry).map (certAct rules sid c.time)).foldl (Life.act ⟨.cert, sid, subject⟩ rules c) l) := by
  induction xs generalizing l with
  | nil => exact hripe
  | cons x xs ih =>
    rw [List.map_cons, List.map_cons, List.foldl_cons]
    refine ih ?_
    by_cases hx : subjectOf x = subject
    · simp only [certAct, Life.act, expiry_subject, hx, if_true]
      exact ripe_call ((orTime_self c.time).trans_le hnow) hripe
    · rwa [certAct_other hx]

/-- A report lets no key wait since later than its time. -/
theorem ripe_arrive (hm : Matched h.alerts) (hnow : c.time ≤ now) (report : Report)
    (hripe : Ripe now (view ⟨.cert, sid, subject⟩ h.alerts)) (sid' : Sid) :
    Ripe now (view ⟨.cert, sid, subject⟩ (step h (.arrive c sid' report)).alerts) := by
  simp only [step]
  by_cases hsame : sid = sid'
  · subst hsame
    rw [view_runActs _ _ hm, alertCerts, List.foldl_append, List.foldl_cons, List.foldl_nil, settle_cert]
    split
    · exact ripe_fold report.certs hnow hripe
    · exact fun _ hp => by
        rw [call_gone_phase] at hp
        cases hp
  · rwa [view_elsewhere hm hsame]

theorem ripe_other {o : Op} (hm : Matched a) (hapart : Apart o) (hsid : sid ≠ "")
    (hripe : Ripe now (view ⟨.cert, sid, subject⟩ a)) : Ripe now (view ⟨.cert, sid, subject⟩ (o.run c a)) := by
  rw [view_run c o hm]
  exact fun since hp => hripe since ((op_calms hapart hsid).pending since hp)

/-- While the reports come at times that do not pass `now`, as on a clock that is not
set back, no certificate of a server waits since later than `now`. -/
theorem ripe_run {ms : List Move} (hsid : sid ≠ "") (hclock : ∀ c sid' report, Move.arrive c sid' report ∈ ms → c.time ≤ now) :
    Ripe now (view ⟨.cert, sid, subject⟩ (runs.final step start ms).alerts) := by
  have hrun : Law (runs.final step start ms) ∧ Ripe now (view ⟨.cert, sid, subject⟩ (runs.final step start ms).alerts) := by
    refine runs.final_invariant (I := fun h => Law h ∧ Ripe now (view ⟨.cert, sid, subject⟩ h.alerts))
      (P := fun m => ∀ c sid' report, m = .arrive c sid' report → c.time ≤ now) (fun h m hI hP => ⟨law_step hI.1 m, ?_⟩)
      ⟨law_run [], fun _ hp => by cases hp⟩ fun m hm c sid' report heq => hclock c sid' report (heq ▸ hm)
    have hm := hI.1.matched
    cases m with
    | arrive c sid' report => exact ripe_arrive hm (hP c sid' report rfl) report hI.2 sid'
    | forget c sid' => exact ripe_other (o := .forgetServer sid') hm trivial hsid hI.2
    | restart => exact ripe_other (o := .seed) (c := ⟨now, fun _ => none⟩) hm trivial hsid hI.2
    | other c o => exact ripe_other hm o.2 hsid hI.2
  exact hrun.2

/-- Under an enabled rule that does not wait, when no key waits since a later time (the
clock was not set back, `ripe_run`), the open events about the certificates of a server
after a report are exactly those of the subjects that it lists as expiring. -/
theorem certs_alerted (ms : List Move) (c : Ctx) (sid : Sid) (report : Report) (r : Rule)
    (hrule : (runs.final step start ms).alerts.rules .cert = some r) (hon : r.enabled = true) (hfor : r.forS ≤ 0)
    (hclock : ∀ subject, Ripe c.time (view ⟨.cert, sid, subject⟩ (runs.final step start ms).alerts)) (subject : String) :
    HasOpen ⟨.cert, sid, subject⟩ (step (runs.final step start ms) (.arrive c sid report)).alerts ↔
      ∃ x, judged report.certs subject = some x ∧ daysLeft c.time x ≤ r.threshold := by
  have hm := (law_run ms).matched
  have hthr : thresholdOr (runs.final step start ms).alerts.rules .cert Kind.cert.default.threshold = r.threshold := by
    rw [thresholdOr, hrule]
  constructor
  · intro ho
    obtain ⟨x, hx, hexp⟩ := open_arrived hm ho
    rw [Expiring, hthr] at hexp
    exact ⟨x, hx, hexp⟩
  · rintro ⟨x, hx, hexp⟩
    simp only [step]
    rw [isOpen_iff (matched_runActs _ _ hm), view_runActs _ _ hm, alertCerts_fold, hx]
    have hsub := (judged_some hx).2
    simp only [certAct, Life.act, expiry_subject, hsub, if_true]
    refine call_firing (r := r) ?_ hfor ?_
    · have hbad : ((expiry x).notAfter - c.time) / 86400 ≤ r.threshold := hexp
      simp [badRule, hrule, hon, hthr, hbad]
    · rw [orTime_self]
      exact ripe_fold _ le_rfl (hclock subject)

theorem soonOver_alerted :
    HasOpen ⟨.cert, "s1", "ssl:/etc/a.pem"⟩
        (step (runs.final step start (reported.take 1)) (.arrive ⟨100000, fun _ => none⟩ "s1" soonOver)).alerts ↔
      ∃ x, judged soonOver.certs "ssl:/etc/a.pem" = some x ∧ daysLeft 100000 x ≤ Kind.cert.seeded.threshold :=
  certs_alerted (reported.take 1) ⟨100000, fun _ => none⟩ "s1" soonOver Kind.cert.seeded rfl rfl (by decide)
    (fun _ => ripe_run (by decide) fun _ _ _ hmem => by simp [reported] at hmem) "ssl:/etc/a.pem"

end icsd_panel.cert_alerts

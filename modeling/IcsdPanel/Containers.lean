-- The alerts of containers over any run of samples: a sample that refreshes the
-- slow parts settles them where it carries a list of containers.
import IcsdPanel.Restarts
import IcsdPanel.Outages
import IcsdPanel.Runs

open dicts

namespace icsd_panel.containers

open alerts live evaluators lives operations restarts outages

/-! ## Samples and alerts -/

structure Hub where
  kept : Sid → Kept
  alerts : Alerts

def start : Hub := ⟨fun _ => (.new, .empty), seed .empty⟩

/-- A message of an agent, a restart of the hub, and everything else that touches
the alerts. -/
inductive Move
  | sample (c : Ctx) (sid : Sid) (raw : Raw) (cpus : Int)
  | forget (sid : Sid)
  | restart
  | other (c : Ctx) (o : Op)

/-- The sample that `ingest` returns. -/
def Hub.merged (h : Hub) (c : Ctx) (sid : Sid) (raw : Raw) : Sample :=
  (ingest sid raw c.time (h.kept sid).1 (h.kept sid).2).1

def step (h : Hub) : Move → Hub
  | .sample c sid raw cpus =>
    { kept := Function.update h.kept sid (receive sid (raw, c.time) (h.kept sid))
      alerts := (Op.sample sid (h.merged c sid raw) cpus none).run c h.alerts }
  | .forget sid => { h with kept := Function.update h.kept sid (.new, (h.kept sid).2) }
  | .restart =>
    { kept := fun sid => (.new, (h.kept sid).2)
      alerts := seed h.alerts }
  | .other c o => { h with alerts := o.run c h.alerts }

/-- Every open container event of the server is about a container that the sample
lists as broken. -/
def Told (sid : Sid) (s : Sample) (a : Alerts) : Prop :=
  ∀ subject, HasOpen ⟨.container, sid, subject⟩ a →
    ∃ cs, s.slow.containers = some cs ∧ ∃ x ∈ cs, x.name = subject ∧ broken x = true

/-- A sample that refreshes the slow parts, without an error of Docker. -/
structure Refresh (raw : Raw) : Prop where
  slow : raw.hasDisks = true ∨ raw.hasTop = true
  docker : raw.sample.slow.dockerErr = none

/-! ## What a sample does to the key of a container -/

variable {a : Alerts} {c : Ctx} {rules : Kind → Option Rule} {l : Life} {sid : Sid} {subject : String}
  {now : ℚ} {x : Container} {cs : List Container} {s : Sample} {xs : List Act}

/-- The act is about a rule of another kind. -/
def Elsewhere : Act → Prop
  | .step i => i.key.rule ≠ .container
  | .settle kinds _ _ _ => .container ∉ kinds

theorem elsewhere_fold (h : ∀ x ∈ xs, Elsewhere x) :
    xs.foldl (Life.act ⟨.container, sid, subject⟩ rules c) l = l := by
  induction xs with
  | nil => rfl
  | cons x xs ih =>
    have hx := h x List.mem_cons_self
    have hact : Life.act ⟨.container, sid, subject⟩ rules c l x = l := by
      cases x with
      | step i =>
        have hne : (⟨.container, sid, subject⟩ : Key) ≠ i.key := by
          intro heq
          exact hx (by rw [← heq])
        simp only [Life.act, if_neg hne]
      | settle kinds sid' seen now =>
        have hnot : ¬ (Kind.container ∈ kinds ∧ sid = sid' ∧ (Kind.container, subject) ∉ seen) := fun hk => hx hk.1
        simp only [Life.act, if_neg hnot]
    rw [List.foldl_cons, hact]
    exact ih fun y hy => h y (List.mem_cons_of_mem x hy)

theorem improve_not_firing {i : Call} (hbad : badRule rules i = none) : ¬ Firing (l.call rules c i) := by
  unfold Life.call Life.improve
  rw [hbad]
  rintro ⟨since, text, hp⟩
  cases hl : l.phase with
  | idle => simp [hl] at hp
  | pending since => simp [hl] at hp
  | firing since text => simp [hl] at hp

/-- After the steps for the containers an open event is about a broken one, or about
none of them. -/
theorem containers_fold
    (h : Firing ((cs.map (containerAct sid now)).foldl (Life.act ⟨.container, sid, subject⟩ rules c) l)) :
    (∃ x ∈ cs, x.name = subject ∧ broken x = true) ∨ ((∀ x ∈ cs, x.name ≠ subject) ∧ Firing l) := by
  induction cs generalizing l with
  | nil => exact .inr ⟨by simp, h⟩
  | cons x cs ih =>
    rcases ih h with ⟨y, hy, hname, hbroken⟩ | ⟨hnone, hfiring⟩
    · exact .inl ⟨y, List.mem_cons_of_mem x hy, hname, hbroken⟩
    · by_cases hname : x.name = subject
      · left
        refine ⟨x, List.mem_cons_self, hname, ?_⟩
        by_contra hgood
        -- the last step for the name is for a container that is well
        have hact : Firing (l.call rules c ⟨⟨.container, sid, x.name⟩, broken x, 0,
            "کانتینر " ++ iso x.name ++ ": " ++ iso (if x.status = "" then x.state else x.status), some now, false⟩) := by
          simpa [containerAct, Life.act, hname] using hfiring
        refine improve_not_firing ?_ hact
        simp only [Bool.not_eq_true] at hgood
        simp [badRule, hgood]
      · right
        have hkeep : Life.act ⟨.container, sid, subject⟩ rules c l (containerAct sid now x) = l := by
          simp [containerAct, Life.act, Ne.symm hname]
        rw [hkeep] at hfiring
        refine ⟨?_, hfiring⟩
        intro y hy
        rcases List.mem_cons.mp hy with rfl | hy
        · exact hname
        · exact hnone y hy

theorem untilRaise_map (ys : List Act) : untilRaise (ys.map some) = ys := by
  induction ys with
  | nil => rfl
  | cons y ys ih => rw [List.map_cons, untilRaise, ih]

/-- What a sample does about its containers. -/
def containerActs (sid : Sid) (now : ℚ) (s : Sample) : List Act :=
  match s.slow.containers, s.slow.dockerErr with
  | some cs, none =>
    cs.map (containerAct sid now) ++
      [.settle [.container] sid (seenIn s ++ cs.map fun x => (Kind.container, x.name)) now]
  | _, _ => []

/-- The containers of a sample come between acts about other things. -/
theorem evaluateSample_eq {cpus : Int} (hrules : ∀ k, (rules k).isSome) :
    ∃ before after, (∀ x ∈ before, Elsewhere x) ∧ (∀ x ∈ after, Elsewhere x) ∧
      evaluateSample rules sid s cpus now = before ++ containerActs sid now s ++ after := by
  obtain ⟨cpu, hcpu⟩ := Option.isSome_iff_exists.mp (hrules .cpu)
  obtain ⟨mem, hmem⟩ := Option.isSome_iff_exists.mp (hrules .mem)
  have hdisks (x : Act) (hx : x ∈ (s.slow.disks.getD []).flatMap (diskActs rules sid now)) : Elsewhere x := by
    obtain ⟨d, -, hd⟩ := List.mem_flatMap.mp hx
    simp only [diskActs, List.mem_cons, List.not_mem_nil, or_false] at hd
    rcases hd with rfl | rfl | rfl <;> simp [Elsewhere, chk]
  have hrest (seen : List (Kind × String)) (x : Act) (hx : x ∈ [Act.settle [.cpu, .mem, .load, .steal] sid seen now] ++
      if s.slow.disks.isSome then [Act.settle [.disk, .disk_full, .inodes] sid seen now] else []) : Elsewhere x := by
    rcases List.mem_append.mp hx with hx | hx
    · rw [List.mem_singleton.mp hx]
      simp [Elsewhere]
    · split at hx
      · rw [List.mem_singleton.mp hx]
        simp [Elsewhere]
      · simp at hx
  have hall (ns ds cs rest : List Act) :
      untilRaise (ns.map some ++ ds.map some ++ (cs ++ rest).map some) = (ns ++ ds) ++ cs ++ rest := by
    rw [← List.map_append, ← List.map_append, untilRaise_map, List.append_assoc (ns ++ ds)]
  have hnumbers (ns : List Act) (hns : ∀ x ∈ ns, Elsewhere x) (x : Act)
      (hx : x ∈ ns ++ (s.slow.disks.getD []).flatMap (diskActs rules sid now)) : Elsewhere x :=
    (List.mem_append.mp hx).elim (hns x) (hdisks x)
  unfold evaluateSample containerActs
  simp only [hcpu, hmem, Option.map_some]
  cases hcs : s.slow.containers with
  | none =>
    refine ⟨_, _, hnumbers _ ?_, hrest _, hall [_, _, _, _] _ [] _⟩
    simp [Elsewhere, chk]
  | some cs =>
    cases herr : s.slow.dockerErr with
    | none =>
      refine ⟨_, _, hnumbers _ ?_, hrest _, hall [_, _, _, _] _ _ _⟩
      simp [Elsewhere, chk]
    | some err =>
      refine ⟨_, _, hnumbers _ ?_, hrest _, hall [_, _, _, _] _ [] _⟩
      simp [Elsewhere, chk]

/-- The key of a container under an evaluation, by its containers alone. -/
theorem view_sample (hm : Matched a) (hrules : ∀ k, (a.rules k).isSome) (cpus : Int) (t : Option ℚ) :
    view ⟨.container, sid, subject⟩ ((Op.sample sid s cpus t).run c a) =
      (containerActs sid (orTime t c.time) s).foldl (Life.act ⟨.container, sid, subject⟩ a.rules c)
        (view ⟨.container, sid, subject⟩ a) := by
  obtain ⟨before, after, hbefore, hafter, heq⟩ :=
    @evaluateSample_eq a.rules sid (orTime t c.time) s cpus hrules
  have hrun : (Op.sample sid s cpus t).run c a =
      runActs c (evaluateSample a.rules sid s cpus (orTime t c.time)) a := rfl
  rw [hrun, view_runActs _ a hm, heq, List.foldl_append, List.foldl_append, elsewhere_fold hbefore,
    elsewhere_fold hafter]

theorem settle_act {seen : List (Kind × String)} :
    Life.act ⟨.container, sid, subject⟩ rules c l (.settle [.container] sid seen now) =
      if (Kind.container, subject) ∈ seen then l
      else l.call rules c (gone ⟨.container, sid, subject⟩ (some now) false) := by
  by_cases hseen : (Kind.container, subject) ∈ seen <;> simp [Life.act, hseen]

/-- With a list of containers. -/
theorem told_list (hm : Matched a) (hrules : ∀ k, (a.rules k).isSome) (hcs : s.slow.containers = some cs)
    (herr : s.slow.dockerErr = none) (cpus : Int) (t : Option ℚ) :
    Told sid s ((Op.sample sid s cpus t).run c a) := by
  intro subject hopen
  refine ⟨cs, hcs, ?_⟩
  rw [isOpen_iff (matched_run c _ hm), view_sample hm hrules] at hopen
  simp only [containerActs, hcs, herr, List.foldl_append, List.foldl_cons, List.foldl_nil, settle_act] at hopen
  by_cases hlisted : ∃ x ∈ cs, x.name = subject
  · -- the settling spares what is listed
    obtain ⟨x, hx, hname⟩ := hlisted
    have hseen : (Kind.container, subject) ∈ seenIn s ++ cs.map fun x => (Kind.container, x.name) :=
      List.mem_append_right _ (List.mem_map.mpr ⟨x, hx, by rw [hname]⟩)
    rw [if_pos hseen] at hopen
    rcases containers_fold hopen with hbroken | ⟨hnone, -⟩
    · exact hbroken
    · exact absurd hname (hnone x hx)
  · -- and ends what is not
    have hunseen : (Kind.container, subject) ∉ seenIn s ++ cs.map fun x => (Kind.container, x.name) := by
      intro hmem
      rcases List.mem_append.mp hmem with hmem | hmem
      · simp [seenIn] at hmem
      · obtain ⟨x, hx, heq⟩ := List.mem_map.mp hmem
        exact hlisted ⟨x, hx, (Prod.mk.inj heq).2⟩
    rw [if_neg hunseen] at hopen
    exact absurd hopen call_gone_not_firing

/-- Without a list nothing happens to the events of containers. -/
theorem open_absent (hm : Matched a) (hrules : ∀ k, (a.rules k).isSome) (hcs : s.slow.containers = none)
    (cpus : Int) (t : Option ℚ) :
    HasOpen ⟨.container, sid, subject⟩ ((Op.sample sid s cpus t).run c a) ↔ HasOpen ⟨.container, sid, subject⟩ a := by
  rw [isOpen_iff (matched_run c _ hm), isOpen_iff hm, view_sample hm hrules]
  simp only [containerActs, hcs, List.foldl_nil]

/-! ## Every run -/

/-- The law of the alerts in every run. -/
structure Good (h : Hub) : Prop where
  matched : Matched h.alerts
  rules : ∀ k, (h.alerts.rules k).isSome
  table : ∀ k, (h.alerts.table k).isSome

theorem good_start : Good start := ⟨matched_seed matched_empty, fun _ => rfl, fun _ => rfl⟩

variable {h : Hub}

theorem good_op (hg : Good h) (c : Ctx) (o : Op) {kept : Sid → Kept} : Good ⟨kept, o.run c h.alerts⟩ := by
  have hsame (b : Alerts) (hb : b.rules = h.alerts.rules ∧ b.table = h.alerts.table) :
      (∀ k, (b.rules k).isSome) ∧ ∀ k, (b.table k).isSome := by
    rw [hb.1, hb.2]
    exact ⟨hg.rules, hg.table⟩
  have hrules : (∀ k, ((o.run c h.alerts).rules k).isSome) ∧ ∀ k, ((o.run c h.alerts).table k).isSome := by
    cases o with
    | seed => exact ⟨fun _ => rfl, fun _ => rfl⟩
    | reload => exact ⟨hg.table, hg.table⟩
    | updateRule kind thr forS sev on =>
      have hnew (k : Kind) : ((updateRule kind thr forS sev on h.alerts).table k).isSome := by
        simp only [updateRule, reload]
        split
        · simpa using hg.table k
        · exact hg.table k
      exact ⟨hnew, hnew⟩
    | forgetSubject kind subject => exact hsame _ (stepAll_rules _ _ _ _)
    | forgetServer sid => exact hsame _ ⟨rfl, rfl⟩
    | prune now keepDays => exact hsame _ ⟨rfl, rfl⟩
    | step i => exact hsame _ (runActs_rules _ _)
    | settle kinds sid seen now => exact hsame _ (runActs_rules _ _)
    | sample sid s cpus now => exact hsame _ (runActs_rules _ _)
    | offline started servers now => exact hsame _ (runActs_rules _ _)
    | check subject name url fails error certDays now => exact hsame _ (runActs_rules _ _)
  exact ⟨matched_run c o hg.matched, hrules.1, hrules.2⟩

theorem good_step (hg : Good h) (m : Move) : Good (step h m) := by
  cases m with
  | sample c sid raw cpus => exact good_op hg c _
  | forget sid => exact ⟨hg.matched, hg.rules, hg.table⟩
  | restart => exact good_op hg ⟨0, fun _ => none⟩ .seed
  | other c o => exact good_op hg c o

variable {raw : Raw}

/-- A refresh takes only what came. -/
theorem merged_slow (hrefresh : Refresh raw) : (h.merged c sid raw).slow = raw.sample.slow := by
  have hmerge : mergeSlow (h.kept sid).1.last raw = raw.sample.slow := by
    unfold mergeSlow
    rw [if_pos]
    simpa using hrefresh.slow
  unfold Hub.merged ingest
  simp only
  split <;> exact hmerge

/-- After a sample that refreshes the slow parts every open container event is about a
container that it lists as broken, exactly where the sample carries a list, or no
container event is open. -/
theorem containers_told (ms : List Move) (hrun : runs.final step start ms = h) (c : Ctx) (sid : Sid)
    (raw : Raw) (cpus : Int) (hrefresh : Refresh raw) :
    Told sid (h.merged c sid raw) (step h (.sample c sid raw cpus)).alerts ↔
      raw.sample.slow.containers.isSome ∨ ∀ subject, ¬ HasOpen ⟨.container, sid, subject⟩ h.alerts := by
  have hg : Good h := by
    rw [← hrun]
    exact runs.final_invariant (P := fun _ => True) (fun _ m hg _ => good_step hg m) good_start
      fun _ _ => trivial
  have hslow : (h.merged c sid raw).slow = raw.sample.slow := merged_slow hrefresh
  constructor
  · intro htold
    cases hcs : raw.sample.slow.containers with
    | some cs => exact .inl rfl
    | none =>
      right
      intro subject hopen
      rw [← hslow] at hcs
      obtain ⟨cs, hsome, -⟩ := htold subject ((open_absent hg.matched hg.rules hcs cpus none).mpr hopen)
      rw [hcs] at hsome
      cases hsome
  · intro hlist
    cases hcs : raw.sample.slow.containers with
    | some cs =>
      rw [← hslow] at hcs
      exact told_list hg.matched hg.rules hcs (by rw [hslow]; exact hrefresh.docker) cpus none
    | none =>
      rw [hcs] at hlist
      intro subject hopen
      rw [← hslow] at hcs
      have hbefore := (open_absent hg.matched hg.rules hcs cpus none).mp hopen
      exact absurd hbefore (hlist.resolve_left (by simp) subject)

/-- A sample with disks at a time, as an agent with Docker or without it sends it. -/
def refreshed (cs : Option (List Container)) : Raw := ⟨⟨0, fun _ => 0, ⟨some [], cs, none⟩⟩, true, true⟩

def at_ (time : ℚ) : Ctx := ⟨time, fun _ => none⟩

def restarting : Container := ⟨"api", "restarting", "", "Restarting"⟩

/-- A container restarts for more than a minute. -/
def broke : List Move :=
  [.sample (at_ 1000) "s1" (refreshed (some [restarting])) 2,
    .sample (at_ 1061) "s1" (refreshed (some [restarting])) 2]

/-- The container is removed. -/
theorem removed_told :
    ∃ h, runs.final step start broke = h ∧ HasOpen ⟨.container, "s1", "api"⟩ h.alerts ∧
      Told "s1" (h.merged (at_ 1120) "s1" (refreshed (some [])))
        (step h (.sample (at_ 1120) "s1" (refreshed (some [])) 2)).alerts := by
  refine ⟨_, rfl, by decide +kernel, ?_⟩
  exact (containers_told broke rfl (at_ 1120) "s1" (refreshed (some [])) 2 ⟨.inl rfl, rfl⟩).mpr (.inl rfl)

/-- Docker is removed with its containers. -/
theorem vanished_untold :
    Refresh (refreshed none) ∧
    HasOpen ⟨.container, "s1", "api"⟩
      (step (runs.final step start broke) (.sample (at_ 1120) "s1" (refreshed none) 2)).alerts ∧
    ¬ Told "s1" ((runs.final step start broke).merged (at_ 1120) "s1" (refreshed none))
      (step (runs.final step start broke) (.sample (at_ 1120) "s1" (refreshed none) 2)).alerts := by
  have hopen : HasOpen ⟨.container, "s1", "api"⟩
      (step (runs.final step start broke) (.sample (at_ 1120) "s1" (refreshed none) 2)).alerts := by decide +kernel
  refine ⟨⟨.inl rfl, rfl⟩, hopen, ?_⟩
  intro htold
  obtain ⟨cs, hcs, -⟩ := htold "api" hopen
  rw [merged_slow ⟨.inl rfl, rfl⟩] at hcs
  cases hcs

end icsd_panel.containers

-- When the alerts speak: once when a key has been bad for long enough, once
-- when it is good again, and not in between.
import IcsdPanel.Restarts
import Mathlib.Data.List.DropRight

open dicts

namespace icsd_panel.onsets

open alerts live evaluators lives operations restarts

/-! ## The calls of a key -/

/-- What leaves a key alone: calls for other keys, and clean-ups and settings
that are not about it. -/
def Act.Spares (k : Key) : Act → Prop
  | .step i => i.key ≠ k
  | .settle kinds sid seen _ => ¬ (k.rule ∈ kinds ∧ k.serverId = sid ∧ (k.rule, k.subject) ∉ seen)

def Op.Spares (k : Key) : Op → Prop
  | .seed => False
  | .reload => True
  | .updateRule kind _ _ _ _ => kind ≠ k.rule
  | .forgetSubject kind subject => ¬ (k.rule = kind ∧ k.subject = subject)
  | .forgetServer sid => k.serverId ≠ sid
  | .prune _ _ => True
  | o => ∀ c rules, ∀ x ∈ o.acts c rules, Act.Spares k x

/-- A call of `step` for the key that may speak. -/
def IsCall (k : Key) (o : Op) : Prop := ∃ i, o = .step i ∧ i.key = k ∧ i.quiet = false

abbrev TimedCall := Ctx × Call

def callOf (k : Key) (x : Ctx × Op) : Option TimedCall :=
  match x.2 with
  | .step i => if i.key = k then some (x.1, i) else none
  | _ => none

def callsOf (k : Key) (h : History) : List TimedCall := h.filterMap (callOf k)

/-- The time of a call: its `now`, or the time it is. -/
def time (x : TimedCall) : ℚ := orTime x.2.now x.1.time

/-- The unbroken run of bad calls at the end. -/
def badRun (xs : List TimedCall) : List TimedCall := xs.rtakeWhile fun x => x.2.bad

/-- The last call is bad, and the unbroken run that ends with it began at least
`forS` seconds before it. -/
def Lasts (forS : Int) (xs : List TimedCall) (x : TimedCall) : Prop :=
  ∃ y, (badRun (xs ++ [x])).head? = some y ∧ (forS : ℚ) ≤ time x - time y

def isAlert : Note → Bool
  | .alert _ _ _ _ _ _ => true
  | .resolved _ _ _ _ _ => false

/-- The call sends one message more, an alert. -/
def SendsAlert (x : TimedCall) (a : Alerts) : Prop :=
  ∃ n, isAlert n ∧ (step x.1 x.2 a).sent = a.sent ++ [n]

def SendsResolved (x : TimedCall) (a : Alerts) : Prop :=
  ∃ n, isAlert n = false ∧ (step x.1 x.2 a).sent = a.sent ++ [n]

/-- First an alert, then in turn. -/
def Alternate (ns : List Note) : Prop := ∀ j n, ns[j]? = some n → (isAlert n ↔ j % 2 = 0)

variable {a : Alerts} {k : Key} {c : Ctx} {l : Life} {i : Call} {r : Rule}

theorem badRun_bad {xs : List TimedCall} {x : TimedCall} (h : x.2.bad = true) :
    badRun (xs ++ [x]) = badRun xs ++ [x] := by
  simp [badRun, h]

theorem badRun_good {xs : List TimedCall} {x : TimedCall} (h : x.2.bad = false) :
    badRun (xs ++ [x]) = [] := by
  simp [badRun, h]

theorem callsOf_append (h h' : History) : callsOf k (h ++ h') = callsOf k h ++ callsOf k h' :=
  List.filterMap_append

theorem callsOf_step (hk : i.key = k) : callsOf k [(c, Op.step i)] = [(c, i)] := by
  simp [callsOf, callOf, hk]

theorem callsOf_spared {o : Op} (h : Op.Spares k o) : callsOf k [(c, o)] = [] := by
  cases o with
  | step i =>
    have : i.key ≠ k := h c (fun _ => none) (.step i) (List.mem_singleton_self _)
    simp [callsOf, callOf, this]
  | _ => rfl

/-! ## What is spared stays -/

theorem act_spared {x : Act} {rules : Kind → Option Rule} (h : Act.Spares k x) :
    Life.act k rules c l x = l := by
  cases x with
  | step i => simp only [Life.act, if_neg (Ne.symm h)]
  | settle kinds sid seen now => simp only [Life.act, if_neg h]

theorem acts_spared {xs : List Act} {rules : Kind → Option Rule} (h : ∀ x ∈ xs, Act.Spares k x) :
    xs.foldl (Life.act k rules c) l = l := by
  induction xs with
  | nil => rfl
  | cons x xs ih =>
    rw [List.foldl_cons, act_spared (h x List.mem_cons_self)]
    exact ih fun y hy => h y (List.mem_cons_of_mem x hy)

theorem op_spared {o : Op} (rules : Kind → Option Rule) (h : Op.Spares k o) :
    (Life.op k rules c l o).phase = l.phase ∧ (Life.op k rules c l o).notes = l.notes := by
  have hacts (xs : List Act) (hx : ∀ x ∈ xs, Act.Spares k x) :
      (xs.foldl (Life.act k rules c) l).phase = l.phase ∧
        (xs.foldl (Life.act k rules c) l).notes = l.notes := by
    rw [acts_spared hx]
    exact ⟨rfl, rfl⟩
  cases o with
  | seed => exact h.elim
  | reload => exact ⟨rfl, rfl⟩
  | updateRule kind thr forS sev on => exact ⟨rfl, rfl⟩
  | forgetSubject kind subject =>
    have : ¬ (k.rule = kind ∧ k.subject = subject) := h
    simp [Life.op, this]
  | forgetServer sid =>
    have : k.serverId ≠ sid := h
    simp [Life.op, this]
  | prune now keepDays => exact ⟨rfl, rfl⟩
  | step i => exact hacts _ (h c rules)
  | settle kinds sid seen now => exact hacts _ (h c rules)
  | sample sid s cpus now => exact hacts _ (h c rules)
  | offline started servers now => exact hacts _ (h c rules)
  | check subject name url fails error certDays now => exact hacts _ (h c rules)

/-- The rule of the key is the same in memory and in the table. -/
def Under (r : Rule) (k : Key) (a : Alerts) : Prop :=
  a.rules k.rule = some r ∧ a.table k.rule = some r

theorem under_run {o : Op} (h : Op.Spares k o ∨ IsCall k o) (hu : Under r k a) :
    Under r k (o.run c a) := by
  have hacts (xs : List Act) : Under r k (runActs c xs a) := by
    obtain ⟨h1, h2⟩ := runActs_rules (c := c) xs a
    exact ⟨by rw [h1]; exact hu.1, by rw [h2]; exact hu.2⟩
  cases o with
  | seed =>
    rcases h with h | ⟨i, h, -⟩
    · exact h.elim
    · cases h
  | reload => exact ⟨hu.2, hu.2⟩
  | updateRule kind thr forS sev on =>
    rcases h with h | ⟨i, h, -⟩
    · have hk : k.rule ≠ kind := Ne.symm h
      refine ⟨?_, ?_⟩ <;> simp [Op.run, updateRule, reload, hk, hu.2]
    · cases h
  | forgetSubject kind subject =>
    obtain ⟨h1, h2⟩ := stepAll_rules (c := c) none true
      (a.state.keys.filter fun k => k.rule = kind ∧ k.subject = subject) a
    exact ⟨(congrFun h1 _).trans hu.1, (congrFun h2 _).trans hu.2⟩
  | forgetServer sid => exact hu
  | prune now keepDays => exact hu
  | step i => exact hacts _
  | settle kinds sid seen now => exact hacts _
  | sample sid s cpus now => exact hacts _
  | offline started servers now => exact hacts _
  | check subject name url fails error certDays now => exact hacts _

/-! ## What one call says -/

/-- The messages of a call for its key. -/
def news (r : Rule) (x : TimedCall) (l : Life) : List Note :=
  if x.2.bad then
    match l.phase with
    | .idle => if (r.forS : ℚ) ≤ time x - time x then [.alert x.2.key r.severity
        x.2.key.rule.default.label (serverName x.1 x.2.key.serverId) x.2.message (time x)] else []
    | .pending since => if (r.forS : ℚ) ≤ time x - since then [.alert x.2.key r.severity
        x.2.key.rule.default.label (serverName x.1 x.2.key.serverId) x.2.message (time x)] else []
    | .firing _ _ => []
  else
    match l.phase with
    | .firing since text => [.resolved x.2.key x.2.key.rule.default.label
        (serverName x.1 x.2.key.serverId) text (time x - since)]
    | _ => []

theorem badRule_bad {rules : Kind → Option Rule} (hr : rules i.key.rule = some r)
    (hon : r.enabled = true) (hb : i.bad = true) : badRule rules i = some r := by
  simp [badRule, hr, hon, hb]

theorem badRule_good {rules : Kind → Option Rule} (hb : i.bad = false) : badRule rules i = none := by
  simp [badRule, hb]

theorem wait_notes {since : ℚ} : (l.wait r c i since).notes = l.notes ++
    if (r.forS : ℚ) ≤ time (c, i) - since then [.alert i.key r.severity i.key.rule.default.label
      (serverName c i.key.serverId) i.message (time (c, i))] else [] := by
  unfold Life.wait time
  simp only
  split
  · rfl
  · rw [List.append_nil]

theorem call_notes {rules : Kind → Option Rule} (hr : rules i.key.rule = some r)
    (hon : r.enabled = true) (hq : i.quiet = false) :
    (l.call rules c i).notes = l.notes ++ news r (c, i) l := by
  unfold Life.call news
  cases hb : i.bad with
  | true =>
    rw [badRule_bad hr hon hb]
    simp only [Life.worsen, if_true]
    cases hp : l.phase with
    | idle => exact wait_notes
    | pending since => exact wait_notes
    | firing since text => exact (List.append_nil _).symm
  | false =>
    rw [badRule_good hb]
    simp only [Life.improve, Bool.false_eq_true, if_false]
    cases hp : l.phase with
    | idle => exact (List.append_nil _).symm
    | pending since => exact (List.append_nil _).symm
    | firing since text => simp only [hq, Bool.false_eq_true, if_false, time]

/-- The messages of a call are about its key. -/
theorem step_sent (c : Ctx) (i : Call) (a : Alerts) :
    ∃ ns, (step c i a).sent = a.sent ++ ns ∧ ∀ n ∈ ns, n.key = i.key := by
  rw [step_eq]
  split
  · unfold alerts.worsen
    simp only
    split
    · refine ⟨_, rfl, fun n hn => ?_⟩
      rw [List.mem_singleton.mp hn]
      rfl
    · exact ⟨[], by simp, by simp⟩
  · unfold alerts.improve
    simp only
    split
    · exact ⟨[], by simp, by simp⟩
    · split
      · exact ⟨[], by simp, by simp⟩
      · by_cases hq : i.quiet
        · exact ⟨[], by simp [hq], by simp⟩
        · refine ⟨[_], by simp [hq]; rfl, fun n hn => ?_⟩
          rw [List.mem_singleton.mp hn]
          rfl

theorem step_news (hm : Matched a) (hu : Under r i.key a) (hon : r.enabled = true)
    (hq : i.quiet = false) : (step c i a).sent = a.sent ++ news r (c, i) (view i.key a) := by
  obtain ⟨ns, hns, hkey⟩ := step_sent c i a
  have hv : (view i.key (step c i a)).notes = (view i.key a).notes ++ news r (c, i) (view i.key a) := by
    rw [view_step hm, if_pos rfl]
    exact call_notes hu.1 hon hq
  have hf : ns.filter (fun n => n.key = i.key) = ns :=
    List.filter_eq_self.mpr fun n hn => decide_eq_true (hkey n hn)
  have hv' : (view i.key (step c i a)).notes = (view i.key a).notes ++ ns := by
    change (step c i a).sent.filter _ = _
    rw [hns, List.filter_append, hf]
    rfl
  rw [hns, List.append_cancel_left (hv'.symm.trans hv)]

/-! ## What the state of a key knows of its calls -/

/-- An idle key had a good call last; a pending one knows when the unbroken
run of bad calls began. -/
def Knows (xs : List TimedCall) (l : Life) : Prop :=
  (l.phase = .idle → badRun xs = []) ∧
  ∀ since, l.phase = .pending since → ∃ y, (badRun xs).head? = some y ∧ time y = since

/-- An odd number of messages was sent exactly while an event is open. -/
def Tells (ns : List Note) (l : Life) : Prop := Alternate ns ∧ (ns.length % 2 = 1 ↔ Firing l)

/-- A bad call that finds no event lasts as long as the key has been waiting. -/
theorem lasts_iff {xs : List TimedCall} {x : TimedCall} (hk : Knows xs l) (hb : x.2.bad = true)
    (forS : Int) :
    (l.phase = .idle → (Lasts forS xs x ↔ (forS : ℚ) ≤ time x - time x)) ∧
    ∀ since, l.phase = .pending since → (Lasts forS xs x ↔ (forS : ℚ) ≤ time x - since) := by
  unfold Lasts
  rw [badRun_bad hb]
  constructor
  · intro hp
    simp [hk.1 hp]
  · intro since hp
    obtain ⟨y, hy, rfl⟩ := hk.2 since hp
    simp [List.head?_append, hy]

theorem news_alert {xs : List TimedCall} {x : TimedCall} (hk : Knows xs l) :
    (∃ n, isAlert n ∧ news r x l = [n]) ↔ x.2.bad = true ∧ ¬ Firing l ∧ Lasts r.forS xs x := by
  cases hb : x.2.bad with
  | false =>
    refine iff_of_false ?_ (by simp)
    rintro ⟨n, hn, heq⟩
    unfold news at heq
    rw [hb] at heq
    cases hp : l.phase with
    | idle => simp [hp] at heq
    | pending since => simp [hp] at heq
    | firing since text =>
      simp only [hp, Bool.false_eq_true, if_false, List.cons.injEq, and_true] at heq
      rw [← heq] at hn
      cases hn
  | true =>
    obtain ⟨hidle, hpending⟩ := lasts_iff hk hb r.forS
    unfold news
    cases hp : l.phase with
    | idle =>
      have hf : ¬ Firing l := by rintro ⟨s, m, h⟩; rw [hp] at h; cases h
      simp only [hb, hf, hidle hp, if_true, not_false_eq_true, true_and]
      split
      · rename_i hle
        exact iff_of_true ⟨_, rfl, rfl⟩ hle
      · rename_i hle
        exact iff_of_false (by simp) hle
    | pending since =>
      have hf : ¬ Firing l := by rintro ⟨s, m, h⟩; rw [hp] at h; cases h
      simp only [hb, hf, hpending since hp, if_true, not_false_eq_true, true_and]
      split
      · rename_i hle
        exact iff_of_true ⟨_, rfl, rfl⟩ hle
      · rename_i hle
        exact iff_of_false (by simp) hle
    | firing since text =>
      have hf : Firing l := ⟨since, text, hp⟩
      simp [hb, hf]

theorem news_resolved {x : TimedCall} :
    (∃ n, isAlert n = false ∧ news r x l = [n]) ↔ x.2.bad = false ∧ Firing l := by
  unfold news
  cases hb : x.2.bad with
  | true =>
    refine iff_of_false ?_ (by simp)
    rintro ⟨n, hn, heq⟩
    cases hp : l.phase with
    | idle =>
      simp only [hp, if_true] at heq
      split at heq
      · simp only [List.cons.injEq, and_true] at heq
        rw [← heq] at hn
        cases hn
      · cases heq
    | pending since =>
      simp only [hp, if_true] at heq
      split at heq
      · simp only [List.cons.injEq, and_true] at heq
        rw [← heq] at hn
        cases hn
      · cases heq
    | firing since text => simp [hp] at heq
  | false =>
    cases hp : l.phase with
    | idle =>
      have hf : ¬ Firing l := by rintro ⟨s, m, h⟩; rw [hp] at h; cases h
      simp [hf]
    | pending since =>
      have hf : ¬ Firing l := by rintro ⟨s, m, h⟩; rw [hp] at h; cases h
      simp [hf]
    | firing since text =>
      have hf : Firing l := ⟨since, text, hp⟩
      simp [hf, isAlert]

/-- A call sends nothing, or the message that is due. -/
theorem news_cases {x : TimedCall} {rules : Kind → Option Rule} (hr : rules x.2.key.rule = some r)
    (hon : r.enabled = true) :
    (news r x l = [] ∧ (Firing (l.call rules x.1 x.2) ↔ Firing l)) ∨
    (∃ n, news r x l = [n] ∧ (isAlert n ↔ ¬ Firing l) ∧
      (Firing (l.call rules x.1 x.2) ↔ ¬ Firing l)) := by
  have hnot {l : Life} (hp : ∀ s m, l.phase ≠ .firing s m) : ¬ Firing l := fun ⟨s, m, h⟩ => hp s m h
  have hwait (since : ℚ) (hp : ∀ s m, l.phase ≠ .firing s m) :
      ((if (r.forS : ℚ) ≤ time x - since then [Note.alert x.2.key r.severity x.2.key.rule.default.label
          (serverName x.1 x.2.key.serverId) x.2.message (time x)] else []) = [] ∧
        (Firing (l.wait r x.1 x.2 since) ↔ Firing l)) ∨
      ∃ n, (if (r.forS : ℚ) ≤ time x - since then [Note.alert x.2.key r.severity
          x.2.key.rule.default.label (serverName x.1 x.2.key.serverId) x.2.message (time x)] else []) = [n] ∧
        (isAlert n ↔ ¬ Firing l) ∧ (Firing (l.wait r x.1 x.2 since) ↔ ¬ Firing l) := by
    by_cases hle : (r.forS : ℚ) ≤ time x - since
    · rw [if_pos hle, Life.wait_fire hle]
      exact .inr ⟨_, rfl, by simp [isAlert, hnot hp],
        by simp only [hnot hp, not_false_eq_true, iff_true]; exact ⟨_, _, rfl⟩⟩
    · rw [if_neg hle, Life.wait_pending hle]
      refine .inl ⟨rfl, ?_⟩
      simp only [hnot hp, iff_false]
      rintro ⟨s, m, h⟩
      cases h
  unfold news Life.call
  cases hb : x.2.bad with
  | true =>
    rw [badRule_bad hr hon hb]
    simp only [Life.worsen, if_true]
    cases hp : l.phase with
    | idle => exact hwait _ (by simp [hp])
    | pending since => exact hwait _ (by simp [hp])
    | firing since text => exact .inl ⟨rfl, Iff.rfl⟩
  | false =>
    rw [badRule_good hb]
    simp only [Life.improve, Bool.false_eq_true, if_false]
    cases hp : l.phase with
    | idle => exact .inl ⟨rfl, Iff.rfl⟩
    | pending since =>
      refine .inl ⟨rfl, iff_of_false ?_ (hnot (by simp [hp]))⟩
      rintro ⟨s, m, h⟩
      cases h
    | firing since text =>
      have hf : Firing l := ⟨since, text, hp⟩
      refine .inr ⟨_, rfl, by simp [isAlert, hf], iff_of_false ?_ (not_not_intro hf)⟩
      rintro ⟨s, m, h⟩
      cases h

theorem knows_call {xs : List TimedCall} {x : TimedCall} {rules : Kind → Option Rule}
    (hr : rules x.2.key.rule = some r) (hon : r.enabled = true) (hk : Knows xs l) :
    Knows (xs ++ [x]) (l.call rules x.1 x.2) := by
  unfold Knows Life.call
  cases hb : x.2.bad with
  | true =>
    rw [badRule_bad hr hon hb, badRun_bad hb]
    have hwait (since : ℚ) (h : ∃ y, (badRun xs ++ [x]).head? = some y ∧ time y = since) :
        ((l.wait r x.1 x.2 since).phase = .idle → badRun xs ++ [x] = []) ∧
        ∀ s, (l.wait r x.1 x.2 since).phase = .pending s →
          ∃ y, (badRun xs ++ [x]).head? = some y ∧ time y = s := by
      unfold Life.wait
      split
      · exact ⟨nofun, nofun⟩
      · refine ⟨nofun, fun s hs => ?_⟩
        cases hs
        exact h
    simp only [Life.worsen]
    cases hp : l.phase with
    | idle => exact hwait _ ⟨x, by simp [hk.1 hp], rfl⟩
    | pending since =>
      obtain ⟨y, hy, ht⟩ := hk.2 since hp
      exact hwait since ⟨y, by simp [List.head?_append, hy], ht⟩
    | firing since text =>
      rw [hp]
      exact ⟨nofun, nofun⟩
  | false =>
    rw [badRule_good hb, badRun_good hb]
    refine ⟨fun _ => rfl, fun s hs => ?_⟩
    simp only [Life.improve] at hs
    cases hp : l.phase with
    | idle => simp [hp] at hs
    | pending since => simp [hp] at hs
    | firing since text => simp [hp] at hs

theorem tells_call {ns : List Note} {x : TimedCall} {rules : Kind → Option Rule}
    (hr : rules x.2.key.rule = some r) (hon : r.enabled = true) (ht : Tells ns l) :
    Tells (ns ++ news r x l) (l.call rules x.1 x.2) := by
  obtain ⟨halt, hodd⟩ := ht
  rcases news_cases (l := l) hr hon with ⟨heq, hf⟩ | ⟨n, heq, hn, hf⟩
  · rw [heq, List.append_nil]
    exact ⟨halt, hodd.trans hf.symm⟩
  · rw [heq]
    refine ⟨fun j m hm => ?_, ?_⟩
    · rcases Nat.lt_or_ge j ns.length with hj | hj
      · rw [List.getElem?_append_left hj] at hm
        exact halt j m hm
      · rw [List.getElem?_append_right hj] at hm
        have hj' : j - ns.length = 0 := by
          have := (List.getElem?_eq_some_iff.mp hm).1
          simp only [List.length_singleton] at this
          omega
        rw [hj', List.getElem?_cons_zero, Option.some.injEq] at hm
        rw [← hm, hn, ← hodd]
        omega
    · rw [List.length_append, List.length_singleton, hf, ← hodd]
      omega

/-! ## The law -/

/-- What holds of a key after a history of calls for it, between operations
that spare it. -/
structure Followed (k : Key) (r : Rule) (a₀ : Alerts) (h : History) : Prop where
  matched : Matched (run h a₀)
  under : Under r k (run h a₀)
  knows : Knows (callsOf k h) (view k (run h a₀))
  tells : ∃ ns, (view k (run h a₀)).notes = (view k a₀).notes ++ ns ∧ Tells ns (view k (run h a₀))

theorem followed_nil (hm : Matched a) (hu : Under r k a) (hnone : a.state.get k = none) :
    Followed k r a [] := by
  have hp := view_idle hnone
  refine ⟨hm, hu, ⟨fun _ => rfl, fun s hs => ?_⟩, [], (List.append_nil _).symm, ?_, ?_⟩
  · change (view k a).phase = _ at hs
    rw [hp] at hs
    cases hs
  · intro j n hj
    simp at hj
  · refine iff_of_false (by simp) ?_
    rintro ⟨s, m, h⟩
    change (view k a).phase = _ at h
    rw [hp] at h
    cases h

theorem run_snoc (h : History) (x : Ctx × Op) (a : Alerts) : run (h ++ [x]) a = x.2.run x.1 (run h a) :=
  run_append h [x] a

theorem followed_snoc (hon : r.enabled = true) {h : History} {x : Ctx × Op}
    (hx : Op.Spares k x.2 ∨ IsCall k x.2) (hf : Followed k r a h) : Followed k r a (h ++ [x]) := by
  obtain ⟨hm, hu, hk, ns, hns, ht⟩ := hf
  have hv := view_run (k := k) x.1 x.2 hm
  refine ⟨?_, ?_, ?_, ?_⟩
  · rw [run_snoc]
    exact matched_run x.1 x.2 hm
  · rw [run_snoc]
    exact under_run hx hu
  · rw [run_snoc, callsOf_append, hv]
    rcases hx with hx | ⟨i, hi, hik, hq⟩
    · obtain ⟨hp, -⟩ := op_spared (c := x.1) (l := view k (run h a)) (run h a).rules hx
      have hnil : callsOf k [x] = [] := callsOf_spared hx
      unfold Knows
      rw [hp, hnil, List.append_nil]
      exact hk
    · obtain ⟨c, o⟩ := x
      subst hi hik
      rw [callsOf_step rfl]
      simp only [Life.op, Op.acts, List.foldl_cons, List.foldl_nil, Life.act, if_true]
      exact knows_call (x := (c, i)) hu.1 hon hk
  · rw [run_snoc, hv]
    rcases hx with hx | ⟨i, hi, hik, hq⟩
    · obtain ⟨hp, hn⟩ := op_spared (c := x.1) (l := view k (run h a)) (run h a).rules hx
      refine ⟨ns, hn.trans hns, ?_⟩
      unfold Tells Firing
      rw [hp]
      exact ht
    · obtain ⟨c, o⟩ := x
      subst hi hik
      simp only [Life.op, Op.acts, List.foldl_cons, List.foldl_nil, Life.act, if_true]
      refine ⟨ns ++ news r (c, i) (view i.key (run h a)), ?_, tells_call (x := (c, i)) hu.1 hon ht⟩
      rw [call_notes hu.1 hon hq, hns, List.append_assoc]

theorem followed (hon : r.enabled = true) (hm : Matched a) (hu : Under r k a)
    (hnone : a.state.get k = none) (h : History) (hh : ∀ x ∈ h, Op.Spares k x.2 ∨ IsCall k x.2) :
    Followed k r a h := by
  induction h using List.reverseRecOn with
  | nil => exact followed_nil hm hu hnone
  | append_singleton h x ih =>
    exact followed_snoc hon (hh x (by simp)) (ih fun y hy => hh y (by simp [hy]))

/-- Under a fixed enabled rule and from no state, whatever other keys do in
between: a call sends an alert exactly when it is bad, no event of its key is
open and the unbroken run of bad calls that ends with it has lasted for the
seconds of the rule; it sends «resolved» exactly when it is good and an event
is open. So the messages of the key take turns, an alert first. -/
theorem speaks_in_turn (k : Key) (r : Rule) (a₀ : Alerts) (h : History) (hreach : Reachable a₀)
    (hnone : a₀.state.get k = none) (hrule : a₀.rules k.rule = some r) (hon : r.enabled = true)
    (hh : ∀ x ∈ h, Op.Spares k x.2 ∨ IsCall k x.2) :
    (∀ pre c i post, h = pre ++ (c, .step i) :: post → i.key = k →
      (SendsAlert (c, i) (run pre a₀) ↔
        i.bad = true ∧ ¬ HasOpen k (run pre a₀) ∧ Lasts r.forS (callsOf k pre) (c, i)) ∧
      (SendsResolved (c, i) (run pre a₀) ↔ i.bad = false ∧ HasOpen k (run pre a₀))) ∧
    ∃ ns, ((run h a₀).sent.filter fun n => n.key = k) =
      (a₀.sent.filter fun n => n.key = k) ++ ns ∧ Alternate ns := by
  have hu : Under r k a₀ := by
    rcases Reachable.blank_or_seeded hreach with hb | hs
    · rw [hb.1] at hrule
      cases hrule
    · exact ⟨hrule, by rw [← hs.1]; exact hrule⟩
  constructor
  · rintro pre c i post rfl rfl
    have hf := followed hon hreach.matched hu hnone pre fun y hy => hh y (by simp [hy])
    have hq : i.quiet = false := by
      rcases hh (c, .step i) (by simp) with hs | ⟨j, hj, -, hq⟩
      · exact absurd rfl (hs c (fun _ => none) (.step i) (List.mem_singleton_self _))
      · cases hj
        exact hq
    have hsent := step_news (c := c) hf.matched hf.under hon hq
    unfold SendsAlert SendsResolved
    simp only [hsent, List.append_cancel_left_eq]
    rw [isOpen_iff hf.matched]
    exact ⟨news_alert hf.knows, news_resolved⟩
  · obtain ⟨ns, hns, ht, -⟩ := (followed hon hreach.matched hu hnone h hh).tells
    exact ⟨ns, hns, ht⟩

/-- The processor is busy at 100 and 700, while the disk fills, and calm at 800. -/
theorem cpu_in_turn :
    let start := run [(⟨1, fun _ => none⟩, .seed)] .empty
    let busy := [call cpu true 100, call disk true 200]
    (SendsAlert (⟨700, fun _ => some "web"⟩, ⟨cpu, true, 95, "high", some 700, false⟩) (run busy start) ↔
      true = true ∧ ¬ HasOpen cpu (run busy start) ∧ Lasts 600 (callsOf cpu busy)
        (⟨700, fun _ => some "web"⟩, ⟨cpu, true, 95, "high", some 700, false⟩)) ∧
    ∃ ns, ((run (busy ++ [call cpu true 700, call cpu false 800]) start).sent.filter fun n =>
        n.key = cpu) = (start.sent.filter fun n => n.key = cpu) ++ ns ∧ Alternate ns := by
  intro start busy
  have hspared : Op.Spares cpu (call disk true 200).2 := by
    intro c rules x hx
    rw [List.mem_singleton.mp hx]
    exact fun h => by cases h
  have hlaw := speaks_in_turn cpu ⟨90, 600, .warning, true⟩ start
    (busy ++ [call cpu true 700, call cpu false 800]) ⟨_, rfl⟩ rfl (by decide +kernel) rfl (by
      intro x hx
      simp only [busy, List.cons_append, List.nil_append, List.mem_cons, List.not_mem_nil, or_false] at hx
      rcases hx with rfl | rfl | rfl | rfl
      · exact .inr ⟨_, rfl, rfl, rfl⟩
      · exact .inl hspared
      · exact .inr ⟨_, rfl, rfl, rfl⟩
      · exact .inr ⟨_, rfl, rfl, rfl⟩)
  exact ⟨(hlaw.1 busy _ _ [call cpu false 800] rfl rfl).1, hlaw.2⟩

end icsd_panel.onsets

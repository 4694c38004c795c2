-- The URL checks of the hub. A run over the due checks suspends while it probes
-- and while it fetches a certificate, and the panel may change the checks meanwhile.
import IcsdPanel.Operations
import IcsdPanel.Runs

open dicts

namespace icsd_panel.checks

open alerts evaluators lives operations

/-! ## State -/

/-- A row of `checks`, as far as its run reads it. -/
structure Check where
  id : Nat
  name : String
  url : String
  interval : Int
  enabled : Bool
deriving DecidableEq

/-- The result of a probe. -/
structure Res where
  ok : Bool
  error : String
deriving DecidableEq

/-- A value of `_state`. The runs hold on to it as an object. -/
structure St where
  next : ℚ
  fails : Int
  certAt : ℚ
  certDays : Option ℚ

/-- Where `run_due` is: at work on the checks that are left to do, or suspended. -/
inductive Phase
  | idle
  | probing (now : ℚ) (due : List Check)
  | handling (now : ℚ) (todo : List (Check × Res))
  | fetching (now : ℚ) (chk : Check) (res : Res) (st : Nat) (todo : List (Check × Res))
  | closing (now : ℚ) (chk : Check) (res : Res) (st : Nat) (todo : List (Check × Res))
deriving DecidableEq

/-- The hub as far as it is about checks. `state` says which object is the state
of which check. -/
structure Hub where
  table : List Check
  state : Dict Nat Nat
  objects : Nat → St
  fresh : Nat
  alerts : Alerts
  phase : Phase

def start : Hub := ⟨[], .empty, fun _ => ⟨0, 0, 0, none⟩, 0, seed .empty, .idle⟩

/-! ## The run -/

def certEvery : ℚ := 6 * 3600

/-- `_state.get(id, {}).get("next", 0) <= now` -/
def isDue (h : Hub) (now : ℚ) (chk : Check) : Bool :=
  match h.state.get chk.id with
  | some st => (h.objects st).next ≤ now
  | none => decide (0 ≤ now)

/-- `run_due` up to its probes. -/
def begin (now : ℚ) (h : Hub) : Hub :=
  let due := h.table.filter fun chk => chk.enabled && isDue h now chk
  if due = [] then h else { h with phase := .probing now due }

/-- The state of a check, a new one where there is none. After a restart an
open alert means that the check was failing already. -/
def stateOf (chk : Check) (h : Hub) : Nat × Hub :=
  match h.state.get chk.id with
  | some st => (st, h)
  | none =>
    let down := isOpen h.alerts ⟨.check, "", toString chk.id⟩
    let st : St := ⟨0, if down then truncate (threshold h.alerts .check) else 0, 0, none⟩
    (h.fresh, { h with
      state := h.state.set chk.id h.fresh
      objects := Function.update h.objects h.fresh st
      fresh := h.fresh + 1 })

def isHttps (url : String) : Bool := "https://".toList.isPrefixOf url.toList

/-- The loop body up to the certificate. -/
def handle (now : ℚ) (chk : Check) (res : Res) (todo : List (Check × Res)) (h : Hub) : Hub :=
  let (ref, h) := stateOf chk h
  let st := h.objects ref
  let st := { st with next := now + chk.interval, fails := if res.ok then 0 else st.fails + 1 }
  if isHttps chk.url ∧ certEvery < now - st.certAt then
    { h with
      objects := Function.update h.objects ref { st with certAt := now }
      phase := .fetching now chk res ref todo }
  else
    { h with objects := Function.update h.objects ref st, phase := .closing now chk res ref todo }

/-- The end of the loop body. -/
def close (c : Ctx) (now : ℚ) (chk : Check) (res : Res) (ref : Nat) (todo : List (Check × Res))
    (h : Hub) : Hub :=
  let st := h.objects ref
  { h with
    alerts := runActs c (evaluateCheck h.alerts.rules (toString chk.id) chk.name chk.url st.fails
      res.error st.certDays (some now)) h.alerts
    phase := .handling now todo }

/-! ## The panel -/

/-- `forget` -/
def forget (c : Ctx) (id : Nat) (h : Hub) : Hub :=
  let a := step c (gone ⟨.check, "", toString id⟩ none true) h.alerts
  let a := step c (gone ⟨.cert, "", toString id⟩ none true) a
  { h with state := h.state.erase id, alerts := a }

/-- `edited` -/
def edited (c : Ctx) (id : Nat) (enabled : Bool) (h : Hub) : Hub :=
  if !enabled then forget c id h
  else match h.state.get id with
    | none => h
    | some ref =>
      let st := h.objects ref
      { h with objects := Function.update h.objects ref { st with next := 0, certAt := 0 } }

/-- `edit_check` -/
def edit (c : Ctx) (new : Check) (h : Hub) : Hub :=
  if h.table.any fun chk => chk.id = new.id then
    edited c new.id new.enabled
      { h with table := h.table.map fun chk => if chk.id = new.id then new else chk }
  else h

/-- `remove_check` -/
def remove (c : Ctx) (id : Nat) (h : Hub) : Hub :=
  forget c id { h with table := h.table.filter fun chk => chk.id ≠ id }

/-! ## Moves -/

inductive Move
  | begin (now : ℚ)
  | probed (results : List Res)
  | go (c : Ctx)
  | fetched (days : Option (Option ℚ))
  | raised
  | add (name url : String) (interval : Int) (enabled : Bool)
  | edit (c : Ctx) (new : Check)
  | remove (c : Ctx) (id : Nat)
  | rule (kind : Kind) (threshold : ℚ) (forS : Int) (severity : Severity) (enabled : Bool)

/-- Another task can move only while the run is suspended or none is there. -/
def Phase.waits : Phase → Bool
  | .idle => true
  | .probing _ _ => true
  | .fetching _ _ _ _ _ => true
  | _ => false

/-- What a certificate fetch that came back or failed leaves in the state. -/
def fetchedIn (days : Option (Option ℚ)) (st : St) : St :=
  match days with
  | some d => { st with certDays := d }
  | none => st

/-- A move out of turn does nothing. -/
def Hub.move (h : Hub) : Move → Hub
  | .begin now => if h.phase = .idle then checks.begin now h else h
  | .probed results =>
    match h.phase with
    | .probing now due =>
      if results.length = due.length then { h with phase := .handling now (due.zip results) } else h
    | _ => h
  | .go c =>
    match h.phase with
    | .handling _ [] => { h with phase := .idle }
    | .handling now ((chk, res) :: todo) => handle now chk res todo h
    | .closing now chk res ref todo => close c now chk res ref todo h
    | _ => h
  | .fetched days =>
    match h.phase with
    | .fetching now chk res ref todo =>
      { h with
        objects := Function.update h.objects ref (fetchedIn days (h.objects ref))
        phase := .closing now chk res ref todo }
    | _ => h
  | .raised =>
    match h.phase with
    | .probing _ _ => { h with phase := .idle }
    | _ => h
  | .add name url interval enabled =>
    if h.phase.waits then
      { h with table := h.table ++ [⟨tables.newId Check.id h.table, name, url, interval, enabled⟩] }
    else h
  | .edit c new => if h.phase.waits then checks.edit c new h else h
  | .remove c id => if h.phase.waits then checks.remove c id h else h
  | .rule kind thr forS sev on =>
    if h.phase.waits then { h with alerts := updateRule kind thr forS sev on h.alerts } else h

/-! ## The law -/

/-- A rule whose events are about checks. -/
def OfChecks (k : Key) : Prop := k.serverId = "" ∧ (k.rule = .check ∨ k.rule = .cert)

/-- An open event of a check is about one that is there and enabled, and there
is no state for a check that is not there. -/
structure Law (h : Hub) : Prop where
  events : ∀ k, OfChecks k → HasOpen k h.alerts →
    ∃ chk ∈ h.table, chk.enabled = true ∧ toString chk.id = k.subject
  state : ∀ id, (h.state.get id).isSome → ∃ chk ∈ h.table, chk.id = id

/-- Where the run goes on with a check, the check is still there; where it
evaluates it, the check is enabled too. -/
def current (h : Hub) (m : Move) : Bool :=
  match m, h.phase with
  | .go _, .handling _ ((chk, _) :: _) => h.table.any fun x => x.id = chk.id
  | .go _, .closing _ chk _ _ _ => h.table.any fun x => x.id = chk.id && x.enabled
  | _, _ => true

variable {h : Hub} {c : Ctx} {a : Alerts} {k : Key}

theorem isOpen_acts {xs : List Act} (hm : Matched a)
    (hx : ∀ x ∈ xs, ∃ i, x = .step i) (ho : HasOpen k (runActs c xs a)) :
    HasOpen k a ∨ ∃ i, Act.step i ∈ xs ∧ i.key = k := by
  unfold runActs at ho
  induction xs generalizing a with
  | nil => exact .inl ho
  | cons x xs ih =>
    obtain ⟨i, rfl⟩ := hx x List.mem_cons_self
    rw [List.foldl_cons] at ho
    rcases ih (matched_act (.step i) hm) (fun y hy => hx y (List.mem_cons_of_mem _ hy)) ho with h | h
    · rcases isOpen_step hm h with hk | h
      · exact .inr ⟨i, List.mem_cons_self, hk.symm⟩
      · exact .inl h
    · obtain ⟨j, hj, hk⟩ := h
      exact .inr ⟨j, List.mem_cons_of_mem _ hj, hk⟩

/-- An evaluation opens events of its check only. -/
theorem isOpen_evaluate (hm : Matched a) {rules : Kind → Option Rule} {subject name url error : String}
    {fails : Int} {days : Option ℚ} {now : Option ℚ}
    (ho : HasOpen k (runActs c (evaluateCheck rules subject name url fails error days now) a)) :
    HasOpen k a ∨ k.subject = subject := by
  have hsteps : ∀ x ∈ evaluateCheck rules subject name url fails error days now,
      ∃ i, x = .step i ∧ i.key.subject = subject := by
    intro x hx
    unfold evaluateCheck at hx
    rcases List.mem_cons.mp hx with rfl | hx
    · exact ⟨_, rfl, rfl⟩
    · cases days with
      | none => cases hx
      | some d => exact ⟨_, List.mem_singleton.mp hx, rfl⟩
  rcases isOpen_acts hm (fun x hx => (hsteps x hx).imp fun i h => h.1) ho with h | ⟨i, hi, rfl⟩
  · exact .inl h
  · obtain ⟨j, hj, hsub⟩ := hsteps _ hi
    cases hj
    exact .inr hsub

/-- `forget` closes the events of its check, and opens none. -/
theorem isOpen_forget (hm : Matched h.alerts) {id : Nat} (hk : OfChecks k)
    (ho : HasOpen k (forget c id h).alerts) : HasOpen k h.alerts ∧ k.subject ≠ toString id := by
  have hm1 := matched_step hm c (gone ⟨.check, "", toString id⟩ none true)
  have hcert : k ≠ ⟨.cert, "", toString id⟩ := by
    rintro rfl
    exact not_open_good hm1 rfl ho
  have ho1 := (isOpen_step hm1 ho).resolve_left hcert
  have hcheck : k ≠ ⟨.check, "", toString id⟩ := by
    rintro rfl
    exact not_open_good hm rfl ho1
  refine ⟨(isOpen_step hm ho1).resolve_left hcheck, fun hsub => ?_⟩
  obtain ⟨rule, sid, subject⟩ := k
  obtain ⟨hsid, hrule⟩ := hk
  simp only at hsid hrule hsub
  subst hsid hsub
  rcases hrule with rfl | rfl
  · exact hcheck rfl
  · exact hcert rfl

theorem forget_spec (hm : Matched h.alerts) (id : Nat) :
    Matched (forget c id h).alerts ∧ (forget c id h).table = h.table ∧
    ∀ i, (forget c id h).state.get i = if i = id then none else h.state.get i :=
  ⟨matched_step (matched_step hm c _) c _, rfl, fun _ => Dict.get_erase⟩

/-- Of a check that is forgotten while the others stay nothing is left. -/
theorem law_forget (hm : Matched h.alerts) (id : Nat) {h' : Hub} (halerts : h'.alerts = h.alerts)
    (hstate : h'.state = h.state) (hl : Law h)
    (hstay : ∀ chk ∈ h.table, chk.id ≠ id → chk ∈ h'.table) : Law (forget c id h') where
  events k hk ho := by
    have hm' : Matched h'.alerts := by rw [halerts]; exact hm
    obtain ⟨ho, hne⟩ := isOpen_forget hm' hk ho
    rw [halerts] at ho
    obtain ⟨chk, hchk, hon, hsub⟩ := hl.events k hk ho
    refine ⟨chk, hstay chk hchk fun heq => hne ?_, hon, hsub⟩
    rw [← hsub, heq]
  state i hi := by
    have hm' : Matched h'.alerts := by rw [halerts]; exact hm
    rw [(forget_spec hm' id).2.2 i] at hi
    split at hi
    · cases hi
    · rename_i hne
      rw [hstate] at hi
      obtain ⟨chk, hchk, rfl⟩ := hl.state i hi
      exact ⟨chk, hstay chk hchk hne, rfl⟩

theorem law_remove (hm : Matched h.alerts) (hl : Law h) (id : Nat) :
    Matched (remove c id h).alerts ∧ Law (remove c id h) := by
  refine ⟨(forget_spec (h := { h with table := h.table.filter fun chk => chk.id ≠ id }) hm id).1, ?_⟩
  refine law_forget hm id rfl rfl hl fun chk hchk hne => ?_
  exact List.mem_filter.mpr ⟨hchk, decide_eq_true hne⟩

theorem law_edit (hm : Matched h.alerts) (hl : Law h) (new : Check) :
    Matched (edit c new h).alerts ∧ Law (edit c new h) := by
  unfold edit
  split
  · rename_i hany
    obtain ⟨old, hold, hid⟩ : ∃ chk ∈ h.table, chk.id = new.id := by
      simpa using hany
    have hnew : new ∈ h.table.map fun chk => if chk.id = new.id then new else chk :=
      List.mem_map.mpr ⟨old, hold, if_pos hid⟩
    have hstay : ∀ chk ∈ h.table, chk.id ≠ new.id →
        chk ∈ h.table.map fun chk => if chk.id = new.id then new else chk := fun chk hchk hne =>
      List.mem_map.mpr ⟨chk, hchk, if_neg hne⟩
    unfold edited
    cases hon : new.enabled with
    | false =>
      simp only [Bool.not_false, if_true]
      exact ⟨(forget_spec (h := { h with table := _ }) hm new.id).1,
        law_forget hm new.id rfl rfl hl hstay⟩
    | true =>
      -- The row is a new one, and what was open for it still may be.
      have hlaw {h' : Hub} (ha : h'.alerts = h.alerts) (hs : h'.state = h.state)
          (ht : h'.table = h.table.map fun chk => if chk.id = new.id then new else chk) : Law h' := by
        constructor
        · intro k hk ho
          rw [ha] at ho
          obtain ⟨chk, hchk, hen, hsub⟩ := hl.events k hk ho
          rw [ht]
          by_cases heq : chk.id = new.id
          · exact ⟨new, hnew, hon, by rw [← hsub, heq]⟩
          · exact ⟨chk, hstay chk hchk heq, hen, hsub⟩
        · intro i hi
          rw [hs] at hi
          obtain ⟨chk, hchk, rfl⟩ := hl.state i hi
          rw [ht]
          by_cases heq : chk.id = new.id
          · exact ⟨new, hnew, heq.symm⟩
          · exact ⟨chk, hstay chk hchk heq, rfl⟩
      simp only [Bool.not_true, Bool.false_eq_true, if_false]
      split
      · exact ⟨hm, hlaw rfl rfl rfl⟩
      · exact ⟨hm, hlaw rfl rfl rfl⟩
  · exact ⟨hm, hl⟩

/-- What changes neither the alerts nor the states, and takes no check away. -/
theorem law_of_same (hl : Law h) {h' : Hub} (halerts : ∀ k, HasOpen k h'.alerts → HasOpen k h.alerts)
    (hstate : h'.state = h.state) (htable : ∀ chk ∈ h.table, chk ∈ h'.table) : Law h' where
  events k hk ho := by
    obtain ⟨chk, hchk, hon, hsub⟩ := hl.events k hk (halerts k ho)
    exact ⟨chk, htable chk hchk, hon, hsub⟩
  state i hi := by
    rw [hstate] at hi
    obtain ⟨chk, hchk, hid⟩ := hl.state i hi
    exact ⟨chk, htable chk hchk, hid⟩

theorem law_handle (now : ℚ) {chk : Check} (res : Res) (todo : List (Check × Res)) (hl : Law h)
    (hthere : ∃ c ∈ h.table, c.id = chk.id) :
    (handle now chk res todo h).alerts = h.alerts ∧ Law (handle now chk res todo h) := by
  have hstateOf : (stateOf chk h).2.alerts = h.alerts ∧ (stateOf chk h).2.table = h.table ∧
      ∀ i, ((stateOf chk h).2.state.get i).isSome → i = chk.id ∨ (h.state.get i).isSome := by
    unfold stateOf
    split
    · exact ⟨rfl, rfl, fun i hi => .inr hi⟩
    · refine ⟨rfl, rfl, fun i hi => ?_⟩
      rw [Dict.get_set] at hi
      split at hi
      · exact .inl (by assumption)
      · exact .inr hi
  obtain ⟨ha, ht, hs⟩ := hstateOf
  have hlaw {h' : Hub} (ha' : h'.alerts = (stateOf chk h).2.alerts)
      (ht' : h'.table = (stateOf chk h).2.table) (hs' : h'.state = (stateOf chk h).2.state) :
      h'.alerts = h.alerts ∧ Law h' := by
    refine ⟨ha'.trans ha, ?_, ?_⟩
    · intro k hk ho
      rw [ha', ha] at ho
      rw [ht', ht]
      exact hl.events k hk ho
    · intro i hi
      rw [hs'] at hi
      rw [ht', ht]
      rcases hs i hi with rfl | hi
      · exact hthere
      · exact hl.state i hi
  unfold handle
  simp only
  split
  · exact hlaw rfl rfl rfl
  · exact hlaw rfl rfl rfl

theorem law_close (hm : Matched h.alerts) (hl : Law h) {now : ℚ} {chk : Check} {res : Res} {ref : Nat}
    {todo : List (Check × Res)} (hthere : ∃ c ∈ h.table, c.id = chk.id ∧ c.enabled = true) :
    Matched (close c now chk res ref todo h).alerts ∧ Law (close c now chk res ref todo h) := by
  refine ⟨matched_runActs _ _ hm, ?_, hl.state⟩
  intro k hk ho
  rcases isOpen_evaluate hm ho with ho | hsub
  · exact hl.events k hk ho
  · obtain ⟨x, hx, hid, hon⟩ := hthere
    exact ⟨x, hx, hon, by rw [hid]; exact hsub.symm⟩

/-- One move keeps the law, if the run goes on with current checks only. -/
theorem law_move (hm : Matched h.alerts) (hl : Law h) (m : Move) (hc : current h m) :
    Matched (h.move m).alerts ∧ Law (h.move m) := by
  have hrest : Matched h.alerts ∧ Law h := ⟨hm, hl⟩
  have hphase (p : Phase) : Matched h.alerts ∧ Law { h with phase := p } :=
    ⟨hm, law_of_same hl (fun _ ho => ho) rfl fun _ hchk => hchk⟩
  cases m with
  | begin now =>
    simp only [Hub.move, checks.begin]
    split
    · split
      · exact hrest
      · exact hphase _
    · exact hrest
  | probed results =>
    simp only [Hub.move]
    split
    · split
      · exact hphase _
      · exact hrest
    · exact hrest
  | go c =>
    unfold current at hc
    simp only [Hub.move]
    split
    · exact hphase _
    · rename_i now chk res todo hp
      rw [hp] at hc
      obtain ⟨ha, hl'⟩ := law_handle now res todo hl (by simpa using hc)
      exact ⟨by rw [ha]; exact hm, hl'⟩
    · rename_i now chk res ref todo hp
      rw [hp] at hc
      exact law_close hm hl (by simpa using hc)
    · exact hrest
  | fetched days =>
    simp only [Hub.move]
    split
    · exact ⟨hm, law_of_same hl (fun _ ho => ho) rfl fun _ hchk => hchk⟩
    · exact hrest
  | raised =>
    simp only [Hub.move]
    split
    · exact hphase _
    · exact hrest
  | add name url interval enabled =>
    simp only [Hub.move]
    split
    · exact ⟨hm, law_of_same hl (fun _ ho => ho) rfl fun _ hchk => List.mem_append_left _ hchk⟩
    · exact hrest
  | edit c new =>
    simp only [Hub.move]
    split
    · exact law_edit hm hl new
    · exact hrest
  | remove c id =>
    simp only [Hub.move]
    split
    · exact law_remove hm hl id
    · exact hrest
  | rule kind thr forS sev on =>
    simp only [Hub.move]
    split
    · exact ⟨⟨hm.ids, hm.rows, hm.fits⟩, law_of_same hl (fun _ ho => ho) rfl fun _ hchk => hchk⟩
    · exact hrest

/-- In every run in which `run_due` goes on with current checks only, an open
event of a check is always about one that is there and enabled, and there is
never a state for a check that is not there. -/
theorem current_keeps_law (ms : List Move)
    (hc : runs.Throughout Hub.move (fun h m => current h m) start ms) :
    Law (runs.final Hub.move start ms) := by
  have hstart : Matched start.alerts ∧ Law start := by
    refine ⟨matched_seed matched_empty, ?_, ?_⟩
    · rintro k - ⟨e, he, -⟩
      cases he
    · intro i hi
      cases hi
  exact (runs.throughout_of_invariant (I := fun h => Matched h.alerts ∧ Law h) (Q := fun _ _ => True)
    (fun h m hI hP => ⟨law_move hI.1 hI.2 m hP, trivial⟩) hstart hc).2.2

/-! ## A check that is deleted while its certificate is fetched -/

def someone : Ctx := ⟨100000, fun _ => none⟩

/-- A check is added and probed, and its certificate is about to run out. -/
def probedOnce : List Move :=
  [.add "site" "https://fp.test/" 60 true, .begin 100000, .probed [⟨true, ""⟩], .go someone]

theorem probedOnce_law :
    Law (runs.final Hub.move start (probedOnce ++ [.fetched (some (some 5)), .go someone, .go someone])) :=
  current_keeps_law _ (by decide +kernel)

/-- The check is deleted before the certificate comes: when the run is over, its
alert is open, and will be for ever. -/
theorem deleted_check_alerts :
    let h := runs.final Hub.move start
      (probedOnce ++ [.remove someone 1, .fetched (some (some 5)), .go someone, .go someone])
    h.phase = .idle ∧ ¬ Law h := by
  intro h
  refine ⟨by decide +kernel, fun hl => ?_⟩
  have htable : h.table = [] := by decide +kernel
  have hopen : ∃ e ∈ h.alerts.events, e.key = ⟨.cert, "", "1"⟩ ∧ e.ended = none := by decide +kernel
  obtain ⟨chk, hchk, -⟩ := hl.events ⟨.cert, "", "1"⟩ ⟨rfl, .inr rfl⟩ hopen
  rw [htable] at hchk
  cases hchk

end icsd_panel.checks

-- The alerts keep their two copies of the state, the memory and the table, in
-- step, and what becomes of one key depends on nothing that other keys do.
import IcsdPanel.Evaluators
import Mathlib.Data.List.MinMax

open dicts

namespace icsd_panel.lives

open alerts live evaluators

/-! ## Memory and table -/

/-- An open row and the entry in memory that it belongs to. -/
def Owns (a : Alerts) (k : Key) (id : Nat) : Prop :=
  ∃ st, a.state.get k = some st ∧ st.event = some id

def HasRow (es : List Event) (k : Key) (id : Nat) : Prop :=
  ∃ e ∈ es, e.id = id ∧ e.key = k ∧ e.ended = none

/-- What a row says of its entry in memory. -/
def Fits (e : Event) (st : Entry) : Prop :=
  e.started = truncate st.since ∧ ∀ m, st.message = some m → m = e.message

structure Matched (a : Alerts) : Prop where
  ids : (a.events.map Event.id).Nodup
  rows : ∀ k id, Owns a k id ↔ HasRow a.events k id
  fits : ∀ k st, a.state.get k = some st → ∀ e ∈ a.events, st.event = some e.id → Fits e st

variable {a : Alerts} {k q : Key} {id : Nat} {e e' : Event} {st : Entry}

theorem Matched.row_eq (h : Matched a) (he : e ∈ a.events) (he' : e' ∈ a.events)
    (heq : e.id = e'.id) : e = e' := List.inj_on_of_nodup_map h.ids he he' heq

/-- The rows with the id of an open event of `k` are the open rows of `k`. -/
theorem Matched.id_iff (h : Matched a) (hown : Owns a k id) (he : e ∈ a.events) :
    e.id = id ↔ e.key = k ∧ e.ended = none := by
  obtain ⟨e', he', hid, hk, hend⟩ := (h.rows k id).mp hown
  constructor
  · intro heq
    rw [h.row_eq he he' (heq.trans hid.symm)]
    exact ⟨hk, hend⟩
  · rintro ⟨hk', hend'⟩
    obtain ⟨st, hst, hev⟩ := (h.rows k e.id).mpr ⟨e, he, rfl, hk', hend'⟩
    obtain ⟨st', hst', hev'⟩ := hown
    rw [hst] at hst'
    cases hst'
    rw [hev] at hev'
    exact Option.some.inj hev'

theorem Owns.unique (h : Owns a k id) (h' : Owns a k e.id) : id = e.id := by
  obtain ⟨st, hst, hev⟩ := h
  obtain ⟨st', hst', hev'⟩ := h'
  rw [hst] at hst'
  cases hst'
  rw [hev] at hev'
  exact Option.some.inj hev'

/-! ## Closing rows -/

def closed (at_ : Int) (e : Event) : Event :=
  if e.ended = none then { e with ended := some at_ } else e

def closeIf (p : Key → Prop) [DecidablePred p] (at_ : Int) (e : Event) : Event :=
  if p e.key then closed at_ e else e

variable {p : Key → Prop} [DecidablePred p] {t : Int} {es : List Event}

@[simp] theorem closed_id : (closed t e).id = e.id := by
  unfold closed
  split <;> rfl

@[simp] theorem closed_key : (closed t e).key = e.key := by
  unfold closed
  split <;> rfl

@[simp] theorem closed_message : (closed t e).message = e.message := by
  unfold closed
  split <;> rfl

@[simp] theorem closed_started : (closed t e).started = e.started := by
  unfold closed
  split <;> rfl

theorem closed_ended : (closed t e).ended ≠ none := by
  unfold closed
  split
  · simp
  · assumption

@[simp] theorem closeIf_id : (closeIf p t e).id = e.id := by
  unfold closeIf
  split <;> simp

@[simp] theorem closeIf_key : (closeIf p t e).key = e.key := by
  unfold closeIf
  split <;> simp

@[simp] theorem closeIf_message : (closeIf p t e).message = e.message := by
  unfold closeIf
  split <;> simp

@[simp] theorem closeIf_started : (closeIf p t e).started = e.started := by
  unfold closeIf
  split <;> simp

theorem closeIf_ended : (closeIf p t e).ended = none ↔ ¬ p e.key ∧ e.ended = none := by
  unfold closeIf
  split
  · rename_i h
    simp [h, closed_ended]
  · rename_i h
    simp [h]

theorem hasRow_closeIf :
    HasRow (es.map (closeIf p t)) k id ↔ ¬ p k ∧ HasRow es k id := by
  unfold HasRow
  constructor
  · rintro ⟨_, hmem, rfl, rfl, hend⟩
    obtain ⟨e, he, rfl⟩ := List.mem_map.mp hmem
    rw [closeIf_ended] at hend
    rw [closeIf_id, closeIf_key]
    exact ⟨hend.1, e, he, rfl, rfl, hend.2⟩
  · rintro ⟨hp, e, he, rfl, rfl, hend⟩
    exact ⟨_, List.mem_map_of_mem he, closeIf_id, closeIf_key, closeIf_ended.mpr ⟨hp, hend⟩⟩

/-- Rows of some keys are closed and their entries dropped, as `step` does for
one key and `forget_server` for those of a server. -/
structure Shuts (p : Key → Prop) [DecidablePred p] (t : Int) (a b : Alerts) : Prop where
  events : b.events = a.events.map (closeIf p t)
  state : ∀ k, b.state.get k = if p k then none else a.state.get k

theorem Shuts.matched {b : Alerts} (hs : Shuts p t a b) (h : Matched a) : Matched b where
  ids := by
    rw [hs.events, List.map_map]
    have : Event.id ∘ closeIf p t = Event.id := funext fun e => closeIf_id
    rw [this]
    exact h.ids
  rows k id := by
    rw [hs.events, hasRow_closeIf, ← h.rows k id]
    unfold Owns
    rw [hs.state k]
    by_cases hp : p k <;> simp [hp]
  fits k st hst _ hmem hev := by
    rw [hs.state k] at hst
    split at hst
    · cases hst
    · rw [hs.events] at hmem
      obtain ⟨e, he, rfl⟩ := List.mem_map.mp hmem
      rw [closeIf_id] at hev
      have := h.fits k st hst e he hev
      unfold Fits at this ⊢
      rw [closeIf_started, closeIf_message]
      exact this

/-- `UPDATE events SET ended=? WHERE id=?` for the open event of a key. -/
theorem Matched.endEvent_eq (h : Matched a) (hown : Owns a k id) :
    endEvent a.events id t = a.events.map (closeIf (fun q => q = k) t) := by
  refine List.map_congr_left fun e he => ?_
  have := h.id_iff hown he
  unfold closeIf closed
  by_cases hk : e.key = k
  · by_cases hend : e.ended = none
    · simp [this, hk, hend]
    · simp [this, hk, hend]
  · simp [this, hk]

/-! ## One key on its own -/

inductive Phase
  | idle
  | pending (since : ℚ)
  | firing (since : ℚ) (text : String)
deriving DecidableEq

/-- What there is of one key: its entry, its rows without their ids, and its
messages. -/
structure Life where
  phase : Phase
  rows : List Event
  notes : List Note
deriving DecidableEq

def anon (e : Event) : Event := { e with id := 0 }

def rowsOf (k : Key) (es : List Event) : List Event := (es.filter fun e => e.key = k).map anon

def phaseOf (es : List Event) (st : Entry) : Phase :=
  match st.event with
  | none => .pending st.since
  | some id => .firing st.since (messageOf es id)

def view (k : Key) (a : Alerts) : Life where
  phase := ((a.state.get k).map (phaseOf a.events)).getD .idle
  rows := rowsOf k a.events
  notes := a.sent.filter fun n => n.key = k

/-- The rule under which a call finds its key bad. -/
def badRule (rules : Kind → Option Rule) (i : Call) : Option Rule :=
  (rules i.key.rule).filter fun r => r.enabled && i.bad

/-- An event opens. -/
def Life.fire (l : Life) (r : Rule) (c : Ctx) (i : Call) (since : ℚ) : Life where
  phase := .firing since i.message
  rows := l.rows ++ [⟨0, i.key, r.severity, i.value, i.message, truncate since, none⟩]
  notes := l.notes ++ [.alert i.key r.severity i.key.rule.default.label
    (serverName c i.key.serverId) i.message (orTime i.now c.time)]

def Life.wait (l : Life) (r : Rule) (c : Ctx) (i : Call) (since : ℚ) : Life :=
  if (r.forS : ℚ) ≤ orTime i.now c.time - since then l.fire r c i since
  else { l with phase := .pending since }

def Life.worsen (l : Life) (r : Rule) (c : Ctx) (i : Call) : Life :=
  match l.phase with
  | .idle => l.wait r c i (orTime i.now c.time)
  | .pending since => l.wait r c i since
  | .firing _ _ => l

def Life.improve (l : Life) (c : Ctx) (i : Call) : Life :=
  match l.phase with
  | .idle => l
  | .pending _ => { l with phase := .idle }
  | .firing since text =>
    { phase := .idle
      rows := l.rows.map (closed (truncate (orTime i.now c.time)))
      notes := l.notes ++ if i.quiet then [] else
        [.resolved i.key i.key.rule.default.label (serverName c i.key.serverId) text
          (orTime i.now c.time - since)] }

/-- `step` for the key of the call. -/
def Life.call (l : Life) (rules : Kind → Option Rule) (c : Ctx) (i : Call) : Life :=
  match badRule rules i with
  | some r => l.worsen r c i
  | none => l.improve c i

theorem step_eq (c : Ctx) (i : Call) (a : Alerts) :
    step c i a = match badRule a.rules i with
      | some r => alerts.worsen r c i a
      | none => alerts.improve c i a := by
  unfold step badRule
  cases hr : a.rules i.key.rule with
  | none => rfl
  | some r =>
    simp only [Option.filter_some]
    split <;> rfl

theorem messageOf_mem (hn : (es.map Event.id).Nodup) (he : e ∈ es) :
    messageOf es e.id = e.message := by
  unfold messageOf
  cases hf : es.find? fun x => x.id = e.id with
  | none =>
    have := List.find?_eq_none.mp hf e he
    simp at this
  | some x =>
    have hx : x.id = e.id := by simpa using List.find?_some hf
    have : x = e := List.inj_on_of_nodup_map hn (List.mem_of_find?_eq_some hf) he hx
    rw [this]
    rfl

/-- The text of an open event stays where its row does. -/
theorem Matched.phaseOf_eq (h : Matched a) (hn : (es.map Event.id).Nodup)
    (hst : a.state.get k = some st)
    (hkeep : ∀ e ∈ a.events, e.key = k → e.ended = none →
      ∃ e' ∈ es, e'.id = e.id ∧ e'.message = e.message) :
    phaseOf es st = phaseOf a.events st := by
  unfold phaseOf
  cases hev : st.event with
  | none => rfl
  | some id =>
    obtain ⟨e, he, rfl, hk, hend⟩ := (h.rows k id).mp ⟨st, hst, hev⟩
    obtain ⟨e', he', hid, hm⟩ := hkeep e he hk hend
    simp only
    rw [messageOf_mem h.ids he, ← hm, ← messageOf_mem hn he', hid]

theorem nextId_fresh (he : e ∈ es) : e.id < nextId es := tables.newId_fresh he

/-! ## What a bad call does -/

/-- Since when a key is bad that has no event, at a bad call at `t`. -/
def sinceOf (o : Option Entry) (t : ℚ) : ℚ := (o.map Entry.since).getD t

/-- The new row of a call that fires. -/
def rowOf (r : Rule) (i : Call) (es : List Event) (since : ℚ) : Event :=
  ⟨nextId es, i.key, r.severity, i.value, i.message, truncate since, none⟩

/-- The three things a bad call does: an open event goes on, the key waits,
or an event opens. -/
theorem worsen_cases (r : Rule) (c : Ctx) (i : Call) (a : Alerts) :
    (∃ st, a.state.get i.key = some st ∧ st.event ≠ none ∧
      alerts.worsen r c i a = { a with state := a.state.set i.key { st with value := i.value } }) ∨
    ((∀ st, a.state.get i.key = some st → st.event = none) ∧
      ∃ m, let since := sinceOf (a.state.get i.key) (orTime i.now c.time)
      (¬ (r.forS : ℚ) ≤ orTime i.now c.time - since ∧ alerts.worsen r c i a =
        { a with state := a.state.set i.key ⟨since, none, i.value, m⟩ }) ∨
      ((r.forS : ℚ) ≤ orTime i.now c.time - since ∧ alerts.worsen r c i a =
        { a with
          events := a.events ++ [rowOf r i a.events since]
          state := a.state.set i.key ⟨since, some (nextId a.events), i.value, some i.message⟩
          sent := a.sent ++ [.alert i.key r.severity i.key.rule.default.label
            (serverName c i.key.serverId) i.message (orTime i.now c.time)] })) := by
  cases hst : a.state.get i.key with
  | none =>
    refine .inr ⟨fun st h => (by cases h), none, ?_⟩
    by_cases hle : (r.forS : ℚ) ≤ orTime i.now c.time - orTime i.now c.time
    · exact .inr ⟨hle, by simp only [alerts.worsen, hst, Option.getD_none, hle, sinceOf]; rfl⟩
    · exact .inl ⟨hle, by simp only [alerts.worsen, hst, Option.getD_none, hle, sinceOf]; rfl⟩
  | some st =>
    cases hev : st.event with
    | some id =>
      refine .inl ⟨st, rfl, by simp [hev], ?_⟩
      simp [alerts.worsen, hst, hev]
    | none =>
      refine .inr ⟨fun st' h => (by cases h; exact hev), st.message, ?_⟩
      by_cases hle : (r.forS : ℚ) ≤ orTime i.now c.time - st.since
      · exact .inr ⟨hle, by simp only [alerts.worsen, hst, Option.getD_some, hev, hle, sinceOf]; rfl⟩
      · refine .inl ⟨hle, ?_⟩
        simp only [alerts.worsen, hst, Option.getD_some, hev, hle, sinceOf]
        rfl

/-! ## Each call keeps the two in step -/

theorem matched_set_same (h : Matched a) (hst : a.state.get k = some st) (v : ℚ) :
    Matched { a with state := a.state.set k { st with value := v } } where
  ids := h.ids
  rows q id := by
    rw [← h.rows q id]
    unfold Owns
    rw [Dict.get_set]
    by_cases hq : q = k
    · subst hq
      simp [hst]
    · simp [hq]
  fits q st' hst' e he hev := by
    rw [Dict.get_set] at hst'
    split at hst'
    · rename_i hq
      subst hq
      cases hst'
      exact h.fits q st hst e he hev
    · exact h.fits q st' hst' e he hev

theorem not_owns (hnone : ∀ st, a.state.get k = some st → st.event = none) : ¬ Owns a k id := by
  rintro ⟨st, hst, hev⟩
  rw [hnone st hst] at hev
  cases hev

theorem matched_set_pending (h : Matched a)
    (hnone : ∀ st, a.state.get k = some st → st.event = none) (hev : st.event = none) :
    Matched { a with state := a.state.set k st } where
  ids := h.ids
  rows q id := by
    rw [← h.rows q id]
    by_cases hq : q = k
    · subst hq
      refine iff_of_false ?_ (not_owns hnone)
      rintro ⟨st', hst', hev'⟩
      simp only [Dict.get_set_self, Option.some.injEq] at hst'
      rw [← hst', hev] at hev'
      cases hev'
    · unfold Owns
      simp only [Dict.get_set_ne hq]
  fits q st' hst' e he hev' := by
    rw [Dict.get_set] at hst'
    split at hst'
    · cases hst'
      rw [hev] at hev'
      cases hev'
    · exact h.fits q st' hst' e he hev'

theorem nextId_nodup (hn : (es.map Event.id).Nodup) {r : Rule} {i : Call} {since : ℚ} :
    ((es ++ [rowOf r i es since]).map Event.id).Nodup := tables.append_ids hn rfl

theorem matched_open (h : Matched a) {r : Rule} {i : Call} {since v : ℚ} {n : List Note}
    (hnone : ∀ st, a.state.get i.key = some st → st.event = none) :
    Matched { a with
      events := a.events ++ [rowOf r i a.events since]
      state := a.state.set i.key ⟨since, some (nextId a.events), v, some i.message⟩
      sent := n } where
  ids := nextId_nodup h.ids
  rows q id := by
    have hrow : HasRow (a.events ++ [rowOf r i a.events since]) q id ↔
        HasRow a.events q id ∨ q = i.key ∧ id = nextId a.events := by
      unfold HasRow
      simp only [List.mem_append, List.mem_singleton, or_and_right, exists_or, exists_eq_left]
      refine or_congr_right ?_
      simp only [rowOf]
      exact ⟨fun ⟨h1, h2, _⟩ => ⟨h2.symm, h1.symm⟩, fun ⟨h1, h2⟩ => ⟨h2.symm, h1.symm, trivial⟩⟩
    rw [hrow]
    by_cases hq : q = i.key
    · subst hq
      have := (h.rows i.key id).not.mp (not_owns hnone)
      simp only [Owns, Dict.get_set_self, this, false_or, true_and]
      simp [eq_comm]
    · rw [← h.rows q id]
      unfold Owns
      simp only [Dict.get_set_ne hq, hq, false_and, or_false]
  fits q st hst e he hev := by
    rw [Dict.get_set] at hst
    rw [List.mem_append, List.mem_singleton] at he
    split at hst
    · cases hst
      simp only [Option.some.injEq] at hev
      rcases he with he | rfl
      · exact absurd hev.symm (nextId_fresh he).ne
      · exact ⟨rfl, fun m hm => (Option.some.inj hm).symm⟩
    · rcases he with he | rfl
      · exact h.fits q st hst e he hev
      · obtain ⟨e, he, hid, -⟩ := (h.rows q _).mp ⟨st, hst, hev⟩
        exact absurd hid (nextId_fresh he).ne

theorem matched_worsen (h : Matched a) (r : Rule) (c : Ctx) (i : Call) :
    Matched (alerts.worsen r c i a) := by
  rcases worsen_cases r c i a with ⟨st, hst, -, heq⟩ | ⟨hnone, m, ⟨-, heq⟩ | ⟨-, heq⟩⟩
  · rw [heq]
    exact matched_set_same h hst i.value
  · rw [heq]
    exact matched_set_pending h hnone rfl
  · rw [heq]
    exact matched_open h hnone

theorem matched_erase (h : Matched a) (hnone : ∀ st, a.state.get k = some st → st.event = none) :
    Matched { a with state := a.state.erase k } where
  ids := h.ids
  rows q id := by
    rw [← h.rows q id]
    by_cases hq : q = k
    · subst hq
      refine iff_of_false ?_ (not_owns hnone)
      rintro ⟨st, hst, -⟩
      simp at hst
    · unfold Owns
      simp only [Dict.get_erase_ne hq]
  fits q st hst e he hev := by
    rw [Dict.get_erase] at hst
    split at hst
    · cases hst
    · exact h.fits q st hst e he hev

/-- The three things a good call does. -/
theorem improve_cases (h : Matched a) (c : Ctx) (i : Call) :
    (a.state.get i.key = none ∧ alerts.improve c i a = a) ∨
    (∃ st, a.state.get i.key = some st ∧ st.event = none ∧
      alerts.improve c i a = { a with state := a.state.erase i.key }) ∨
    (∃ st e, a.state.get i.key = some st ∧ st.event = some e.id ∧ e ∈ a.events ∧
      e.key = i.key ∧ e.ended = none ∧
      Shuts (fun q => q = i.key) (truncate (orTime i.now c.time)) a (alerts.improve c i a) ∧
      (alerts.improve c i a).sent = a.sent ++ if i.quiet then [] else
        [.resolved i.key i.key.rule.default.label (serverName c i.key.serverId) e.message
          (orTime i.now c.time - st.since)]) := by
  cases hst : a.state.get i.key with
  | none => exact .inl ⟨rfl, by simp [alerts.improve, hst]⟩
  | some st =>
    cases hev : st.event with
    | none => exact .inr (.inl ⟨st, rfl, hev, by simp [alerts.improve, hst, hev]⟩)
    | some id =>
      obtain ⟨e, he, rfl, hk, hend⟩ := (h.rows i.key id).mp ⟨st, hst, hev⟩
      refine .inr (.inr ⟨st, e, rfl, hev, he, hk, hend, ⟨?_, ?_⟩, ?_⟩)
      · simp only [alerts.improve, hst, hev]
        exact h.endEvent_eq ⟨st, hst, hev⟩
      · intro q
        simp only [alerts.improve, hst, hev]
        exact Dict.get_erase
      · have htext : textOf a.events e.id st = e.message := by
          have hmsg := messageOf_mem h.ids he
          unfold textOf
          cases hm : st.message with
          | none => exact hmsg
          | some m =>
            have := (h.fits i.key st hst e he hev).2 m hm
            simp only
            split
            · exact hmsg
            · exact this
        simp only [alerts.improve, hst, hev, htext]
        split
        · rw [List.append_nil]
        · rfl

theorem matched_improve (h : Matched a) (c : Ctx) (i : Call) : Matched (alerts.improve c i a) := by
  rcases improve_cases h c i with ⟨-, heq⟩ | ⟨st, hst, hev, heq⟩ | ⟨st, e, -, -, -, -, -, hs, -⟩
  · rw [heq]
    exact h
  · rw [heq]
    refine matched_erase h fun st' hst' => ?_
    rw [hst] at hst'
    cases hst'
    exact hev
  · exact hs.matched h

theorem matched_step (h : Matched a) (c : Ctx) (i : Call) : Matched (step c i a) := by
  rw [step_eq]
  split
  · exact matched_worsen h _ c i
  · exact matched_improve h c i

/-! ## What each call does to each key -/

theorem rowsOf_append_ne (hne : e.key ≠ q) : rowsOf q (es ++ [e]) = rowsOf q es := by
  simp [rowsOf, hne]

theorem rowsOf_append_self (hk : e.key = q) : rowsOf q (es ++ [e]) = rowsOf q es ++ [anon e] := by
  simp [rowsOf, hk]

theorem anon_closed : anon (closed t e) = closed t (anon e) := by
  unfold closed anon
  split <;> rfl

theorem rowsOf_closeIf :
    rowsOf q (es.map (closeIf p t)) = if p q then (rowsOf q es).map (closed t) else rowsOf q es := by
  unfold rowsOf
  rw [List.filter_map]
  have hkey : (fun e : Event => decide (e.key = q)) ∘ closeIf p t = fun e => decide (e.key = q) :=
    funext fun e => by simp
  rw [hkey, List.map_map]
  split
  · rename_i hp
    rw [List.map_map]
    refine List.map_congr_left fun e he => ?_
    have hk : e.key = q := by simpa using (List.mem_filter.mp he).2
    have hpe : p e.key := hk ▸ hp
    simp only [Function.comp_apply, closeIf, if_pos hpe, anon_closed]
  · rename_i hp
    refine List.map_congr_left fun e he => ?_
    have hk : e.key = q := by simpa using (List.mem_filter.mp he).2
    simp only [Function.comp_apply, closeIf, hk, hp, if_false]

/-- The view of a key in terms of its entry. -/
theorem view_phase (hst : a.state.get k = some st) : (view k a).phase = phaseOf a.events st := by
  simp [view, hst]

theorem view_idle (hst : a.state.get k = none) : (view k a).phase = .idle := by simp [view, hst]

/-- Keys of `p` are shut: the others keep what they have. -/
theorem Shuts.view {b : Alerts} (hs : Shuts p t a b) (h : Matched a) (hsent : b.sent = a.sent) :
    view q b = if p q then ⟨.idle, (view q a).rows.map (closed t), (view q a).notes⟩
      else view q a := by
  by_cases hp : p q
  · simp [lives.view, hs.state q, hs.events, rowsOf_closeIf, hp, hsent]
  · rw [if_neg hp]
    unfold lives.view
    rw [hs.state q, if_neg hp, hs.events, rowsOf_closeIf, if_neg hp, hsent]
    congr 1
    cases hst : a.state.get q with
    | none => rfl
    | some st =>
      have hn : ((a.events.map (closeIf p t)).map Event.id).Nodup := by
        rw [← hs.events]
        exact (hs.matched h).ids
      simp only [Option.map_some, Option.getD_some]
      exact h.phaseOf_eq hn hst fun e he _ _ =>
        ⟨_, List.mem_map_of_mem he, closeIf_id, closeIf_message⟩

theorem view_set_ne (hq : q ≠ k) : view q { a with state := a.state.set k st } = view q a := by
  simp [view, Dict.get_set_ne hq]

theorem view_set_self : view k { a with state := a.state.set k st } =
    { view k a with phase := phaseOf a.events st } := by
  simp [view]

theorem Life.wait_fire {l : Life} {r : Rule} {c : Ctx} {i : Call} {since : ℚ}
    (hle : (r.forS : ℚ) ≤ orTime i.now c.time - since) : l.wait r c i since = l.fire r c i since := by
  unfold Life.wait
  rw [if_pos hle]

theorem Life.wait_pending {l : Life} {r : Rule} {c : Ctx} {i : Call} {since : ℚ}
    (hle : ¬ (r.forS : ℚ) ≤ orTime i.now c.time - since) :
    l.wait r c i since = { l with phase := .pending since } := by
  unfold Life.wait
  rw [if_neg hle]

/-- A bad call for a key without an event: it waits since `sinceOf`. -/
theorem view_worsen_none (r : Rule) (c : Ctx) (i : Call)
    (hnone : ∀ st, a.state.get i.key = some st → st.event = none) :
    (view i.key a).worsen r c i =
      (view i.key a).wait r c i (sinceOf (a.state.get i.key) (orTime i.now c.time)) := by
  unfold Life.worsen
  cases hst : a.state.get i.key with
  | none => rw [view_idle hst]; rfl
  | some st =>
    rw [view_phase hst]
    unfold phaseOf
    rw [hnone st hst]
    rfl

theorem view_worsen (h : Matched a) (r : Rule) (c : Ctx) (i : Call) :
    view q (alerts.worsen r c i a) =
      if q = i.key then (view i.key a).worsen r c i else view q a := by
  rcases worsen_cases r c i a with ⟨st, hst, hev, heq⟩ | ⟨hnone, m, ⟨hle, heq⟩ | ⟨hle, heq⟩⟩
  · rw [heq]
    split
    · rename_i hq
      subst hq
      obtain ⟨id, hev⟩ := Option.ne_none_iff_exists'.mp hev
      have hph := view_phase hst
      rw [view_set_self]
      unfold Life.worsen
      rw [hph]
      simp only [phaseOf, hev] at hph ⊢
      rw [← hph]
    · rename_i hq
      exact view_set_ne hq
  · rw [heq]
    split
    · rename_i hq
      subst hq
      rw [view_set_self, view_worsen_none r c i hnone, Life.wait_pending hle]
      rfl
    · rename_i hq
      exact view_set_ne hq
  · rw [heq]
    split
    · rename_i hq
      subst hq
      rw [view_worsen_none r c i hnone, Life.wait_fire hle]
      have hmsg := messageOf_mem (nextId_nodup h.ids)
        (List.mem_append_right a.events (List.mem_singleton_self
          (rowOf r i a.events (sinceOf (a.state.get i.key) (orTime i.now c.time)))))
      have hrow : rowsOf i.key (a.events ++
          [rowOf r i a.events (sinceOf (a.state.get i.key) (orTime i.now c.time))]) = _ :=
        rowsOf_append_self rfl
      unfold view Life.fire
      simp only [Dict.get_set_self, Option.map_some, Option.getD_some, phaseOf, List.filter_append]
      rw [hrow]
      congr 1
      · exact congrArg _ hmsg
      · simp [Note.key]
    · rename_i hq
      unfold view
      simp only [Dict.get_set_ne hq, List.filter_append]
      congr 1
      · cases hst : a.state.get q with
        | none => rfl
        | some st =>
          exact h.phaseOf_eq (nextId_nodup h.ids) hst fun e he _ _ =>
            ⟨e, List.mem_append_left _ he, rfl, rfl⟩
      · exact rowsOf_append_ne (Ne.symm hq)
      · simp [Note.key, Ne.symm hq]

theorem view_improve (h : Matched a) (c : Ctx) (i : Call) :
    view q (alerts.improve c i a) =
      if q = i.key then (view i.key a).improve c i else view q a := by
  rcases improve_cases h c i with ⟨hst, heq⟩ | ⟨st, hst, hev, heq⟩ |
    ⟨st, e, hst, hev, he, hk, hend, hs, hsent⟩
  · rw [heq]
    split
    · rename_i hq
      subst hq
      unfold Life.improve
      rw [view_idle hst]
    · rfl
  · rw [heq]
    split
    · rename_i hq
      subst hq
      unfold Life.improve
      rw [view_phase hst]
      simp only [phaseOf, hev]
      simp [view]
    · rename_i hq
      simp [view, Dict.get_erase_ne hq]
  · -- Seen without its messages the call shuts the key.
    have hshut : Shuts (fun q => q = i.key) (truncate (orTime i.now c.time)) a
        { alerts.improve c i a with sent := a.sent } := ⟨hs.events, hs.state⟩
    have hv := hshut.view (q := q) h rfl
    have hb : view q (alerts.improve c i a) =
        { view q { alerts.improve c i a with sent := a.sent } with
          notes := (alerts.improve c i a).sent.filter fun n => n.key = q } := rfl
    rw [hb, hv, hsent]
    split
    · rename_i hq
      subst hq
      unfold Life.improve
      rw [view_phase hst]
      simp only [phaseOf, hev, messageOf_mem h.ids he, List.filter_append]
      congr 1
      split <;> simp [Note.key, view]
    · rename_i hq
      unfold view
      split
      · simp
      · simp [Note.key, Ne.symm hq]

/-- A call is about its key only, and depends on this key only. -/
theorem view_step (h : Matched a) (c : Ctx) (i : Call) :
    view q (step c i a) = if q = i.key then (view i.key a).call a.rules c i else view q a := by
  rw [step_eq]
  unfold Life.call
  split
  · exact view_worsen h _ c i
  · exact view_improve h c i

/-! ## Open events -/

def HasOpen (k : Key) (a : Alerts) : Prop := ∃ e ∈ a.events, e.key = k ∧ e.ended = none

instance : Decidable (HasOpen k a) :=
  inferInstanceAs (Decidable (∃ e ∈ a.events, e.key = k ∧ e.ended = none))

def Firing (l : Life) : Prop := ∃ since text, l.phase = .firing since text

theorem isOpen_iff (hm : Matched a) : HasOpen k a ↔ Firing (view k a) := by
  constructor
  · rintro ⟨e, he, hk, hend⟩
    obtain ⟨st, hst, hev⟩ := (hm.rows k e.id).mpr ⟨e, he, rfl, hk, hend⟩
    refine ⟨st.since, messageOf a.events e.id, ?_⟩
    rw [view_phase hst]
    simp only [phaseOf, hev]
  · rintro ⟨since, text, hp⟩
    cases hst : a.state.get k with
    | none =>
      rw [view_idle hst] at hp
      cases hp
    | some st =>
      rw [view_phase hst] at hp
      cases hev : st.event with
      | none => simp [phaseOf, hev] at hp
      | some id =>
        obtain ⟨e, he, -, hk, hend⟩ := (hm.rows k id).mp ⟨st, hst, hev⟩
        exact ⟨e, he, hk, hend⟩

/-- A call opens no event of another key. -/
theorem isOpen_step_ne (h : Matched a) {c : Ctx} {i : Call} (hq : q ≠ i.key) :
    HasOpen q (step c i a) ↔ HasOpen q a := by
  rw [isOpen_iff (matched_step h c i), view_step h, if_neg hq, ← isOpen_iff h]

theorem isOpen_step (h : Matched a) {c : Ctx} {i : Call} (ho : HasOpen q (step c i a)) :
    q = i.key ∨ HasOpen q a := by
  by_cases hq : q = i.key
  · exact .inl hq
  · exact .inr ((isOpen_step_ne h hq).mp ho)

/-- After a call that is not bad under its rule no event of its key is open. -/
theorem not_open_improve (h : Matched a) {c : Ctx} {i : Call} (hbad : badRule a.rules i = none) :
    ¬ HasOpen i.key (step c i a) := by
  rw [isOpen_iff (matched_step h c i), view_step h, if_pos rfl]
  unfold Life.call Life.improve
  rw [hbad]
  rintro ⟨since, text, hp⟩
  cases hl : (view i.key a).phase with
  | idle => simp [hl] at hp
  | pending since => simp [hl] at hp
  | firing since text => simp [hl] at hp

/-- After a good call no event of its key is open. -/
theorem not_open_good (h : Matched a) {c : Ctx} {i : Call} (hb : i.bad = false) :
    ¬ HasOpen i.key (step c i a) := not_open_improve h (by simp [badRule, hb])

end icsd_panel.lives

-- Which URL the certificate is of that a check is judged by. The days are kept over
-- probes and edits, and are renewed only for https and only where a fetch succeeds.
import IcsdPanel.Checks

open dicts

namespace icsd_panel.certs

open alerts evaluators operations checks
open lives hiding Phase

/-! ## Where the days come from -/

/-- The hub, with the URL that the days in a state were fetched for, and the URL of the
certificate that the `cert` event of a check was last judged by. -/
structure World where
  hub : Hub
  got : Nat → Option String
  judged : Nat → Option String

def start : World := ⟨checks.start, fun _ => none, fun _ => none⟩

def certKey (id : Nat) : Key := ⟨.cert, "", toString id⟩

def move (w : World) (m : Move) : World where
  hub := w.hub.move m
  got :=
    match m, w.hub.phase with
    | .fetched (some (some _)), .fetching _ chk _ ref _ => Function.update w.got ref (some chk.url)
    | _, _ => w.got
  judged :=
    match m, w.hub.phase with
    | .go _, .closing _ chk _ ref _ =>
      if (w.hub.objects ref).certDays.isSome then Function.update w.judged chk.id (w.got ref) else w.judged
    | _, _ => w.judged

/-- Where the `cert` event of a check is open after its probe, it was judged by a
certificate of the URL that was probed. -/
def Judged (w : World) (m : Move) : Prop :=
  match m, w.hub.phase with
  | .go _, .closing _ chk _ _ _ =>
    HasOpen (certKey chk.id) (move w m).hub.alerts → (move w m).judged chk.id = some chk.url
  | _, _ => True

/-! ## What keeps it so -/

/-- The checks that a run has yet to finish. -/
def inHand : Phase → List Check
  | .idle => []
  | .probing _ due => due
  | .handling _ todo => todo.map Prod.fst
  | .fetching _ chk _ _ todo => chk :: todo.map Prod.fst
  | .closing _ chk _ _ todo => chk :: todo.map Prod.fst

/-- There are no days for the check, and no event of its certificate is open. -/
structure Bare (w : World) (id : Nat) : Prop where
  days : ∀ ref, w.hub.state.get id = some ref → (w.hub.objects ref).certDays = none
  event : ¬ HasOpen (certKey id) w.hub.alerts

/-- The days of a check and its open event are of one URL. -/
structure Sound (w : World) (id : Nat) (url : String) : Prop where
  days : ∀ ref, w.hub.state.get id = some ref → (w.hub.objects ref).certDays ≠ none → w.got ref = some url
  event : HasOpen (certKey id) w.hub.alerts → w.judged id = some url

/-- A check is given another URL, is disabled or deleted only while no run has it in
hand. The other URL is of https, unless there is nothing of the old one; and a fetch
fails only where what there is, is of its URL. -/
def Careful (w : World) : Move → Prop
  | .begin now => certEvery < now
  | .edit _ new => ∀ old ∈ w.hub.table, old.id = new.id →
      (old.url ≠ new.url ∨ new.enabled = false → ∀ chk ∈ inHand w.hub.phase, chk.id ≠ new.id) ∧
      (old.url ≠ new.url → isHttps new.url = true ∨ Bare w new.id)
  | .remove _ id => ∀ chk ∈ inHand w.hub.phase, chk.id ≠ id
  | .fetched days =>
    match w.hub.phase with
    | .fetching _ chk _ _ _ => (∃ d, days = some (some d)) ∨ Sound w chk.id chk.url
    | _ => True
  | _ => True

/-! ## The invariant -/

/-- The next probe of the check fetches its certificate. -/
def Refetches (w : World) (row : Check) : Prop :=
  isHttps row.url = true ∧ ∀ ref, w.hub.state.get row.id = some ref → (w.hub.objects ref).certAt = 0

def Kept (w : World) (row : Check) : Prop := Sound w row.id row.url ∨ Refetches w row

/-- The check that the run is at. -/
def at_ : Phase → Option Nat
  | .fetching _ chk _ _ _ => some chk.id
  | .closing _ chk _ _ _ => some chk.id
  | _ => none

/-- The time of the run. -/
def timeOf : Phase → Option ℚ
  | .idle => none
  | .probing now _ => some now
  | .handling now _ => some now
  | .fetching now _ _ _ _ => some now
  | .closing now _ _ _ _ => some now

/-- What is known of the check that the run is at. -/
def Held (w : World) : Phase → Prop
  | .fetching _ chk _ ref _ => w.hub.state.get chk.id = some ref
  | .closing _ chk _ ref _ => w.hub.state.get chk.id = some ref ∧
      ((w.hub.objects ref).certDays ≠ none → w.got ref = some chk.url) ∧
      ((w.hub.objects ref).certDays = none → HasOpen (certKey chk.id) w.hub.alerts →
        w.judged chk.id = some chk.url)
  | _ => True

structure Inv (w : World) : Prop where
  matched : Matched w.hub.alerts
  law : Law w.hub
  ids : (w.hub.table.map Check.id).Nodup
  hand : ∀ chk ∈ inHand w.hub.phase, ∃ row ∈ w.hub.table, row.id = chk.id ∧ row.url = chk.url ∧ row.enabled = true
  time : ∀ now, timeOf w.hub.phase = some now → certEvery < now
  refs : ∀ i j ref, w.hub.state.get i = some ref → w.hub.state.get j = some ref → i = j
  fresh : ∀ i ref, w.hub.state.get i = some ref → ref < w.hub.fresh
  kept : ∀ row ∈ w.hub.table, at_ w.hub.phase ≠ some row.id → Kept w row
  held : Held w w.hub.phase

variable {w w' : World} {row : Check} {id : Nat} {url : String}

theorem Bare.sound (h : Bare w id) (url : String) : Sound w id url where
  days ref href hdays := absurd (h.days ref href) hdays
  event hopen := absurd hopen h.event

/-- What becomes of a check where nothing about it changes. -/
theorem Kept.same (h : Kept w row)
    (hstate : ∀ ref, w'.hub.state.get row.id = some ref → w.hub.state.get row.id = some ref ∧
      w'.hub.objects ref = w.hub.objects ref ∧ w'.got ref = w.got ref)
    (hevent : HasOpen (certKey row.id) w'.hub.alerts → HasOpen (certKey row.id) w.hub.alerts)
    (hjudged : w'.judged row.id = w.judged row.id) : Kept w' row := by
  rcases h with hsound | hfetch
  · left
    constructor
    · intro ref href hdays
      obtain ⟨hold, hobject, hgot⟩ := hstate ref href
      rw [hobject] at hdays
      rw [hgot]
      exact hsound.days ref hold hdays
    · intro hopen
      rw [hjudged]
      exact hsound.event (hevent hopen)
  · right
    refine ⟨hfetch.1, ?_⟩
    intro ref href
    obtain ⟨hold, hobject, -⟩ := hstate ref href
    rw [hobject]
    exact hfetch.2 ref hold

theorem certKey_inj {i j : Nat} (h : certKey i = certKey j) : i = j := by
  have htext : toString i = toString j := congrArg Key.subject h
  have hdigits : Nat.toDigits 10 i = Nat.toDigits 10 j := by
    rw [← Nat.toList_repr, ← Nat.toList_repr]
    exact congrArg String.toList htext
  rw [← Nat.ofDigitChars_ten_toDigits (n := i), hdigits, Nat.ofDigitChars_ten_toDigits]

theorem certKey_ofChecks (id : Nat) : OfChecks (certKey id) := ⟨rfl, .inr rfl⟩

theorem Inv.row_eq (h : Inv w) {row row' : Check} (hrow : row ∈ w.hub.table) (hrow' : row' ∈ w.hub.table)
    (heq : row.id = row'.id) : row = row' := List.inj_on_of_nodup_map h.ids hrow hrow' heq

/-- The run goes on with current checks only. -/
theorem Inv.current (h : Inv w) (m : Move) : current w.hub m = true := by
  unfold checks.current
  split
  · rename_i now chk res todo hphase
    obtain ⟨row, hrow, hid, -⟩ := h.hand chk (by rw [hphase]; simp [inHand])
    rw [List.any_eq_true]
    exact ⟨row, hrow, decide_eq_true hid⟩
  · rename_i now chk res ref todo hphase
    obtain ⟨row, hrow, hid, -, hon⟩ := h.hand chk (by rw [hphase]; simp [inHand])
    rw [List.any_eq_true]
    exact ⟨row, hrow, by simp [hid, hon]⟩
  · rfl

/-- Only the phase changes. -/
theorem Inv.phase (h : Inv w) (p : Phase) (hgot : w'.got = w.got) (hjudged : w'.judged = w.judged)
    (hhub : w'.hub = { w.hub with phase := p })
    (hhand : ∀ chk ∈ inHand p, ∃ row ∈ w.hub.table, row.id = chk.id ∧ row.url = chk.url ∧ row.enabled = true)
    (htime : ∀ now, timeOf p = some now → certEvery < now) (hat : at_ w.hub.phase = none) (hat' : at_ p = none) :
    Inv w' := by
  obtain ⟨hub, got, judged⟩ := w'
  subst hgot hjudged hhub
  refine ⟨h.matched, ⟨h.law.events, h.law.state⟩, h.ids, hhand, htime, h.refs, h.fresh, ?_, ?_⟩
  · intro row hrow _
    have hkept := h.kept row hrow (by simp [hat])
    exact hkept.same (fun ref href => ⟨href, rfl, rfl⟩) id rfl
  · cases p with
    | fetching => simp [at_] at hat'
    | closing => simp [at_] at hat'
    | _ => trivial

/-! ## The run -/

/-- What the first half of the loop body does to the states: that of the check is there,
with the days that it had, and the run fetches or goes on. -/
structure Handled (h h' : Hub) (now : ℚ) (chk : Check) (res : Res) (todo : List (Check × Res)) (ref : Nat) :
    Prop where
  table : h'.table = h.table
  alerts : h'.alerts = h.alerts
  state : ∀ i, h'.state.get i = if i = chk.id then some ref else h.state.get i
  objects : ∀ r, r ≠ ref → r < h.fresh → h'.objects r = h.objects r
  fresh : h.fresh ≤ h'.fresh ∧ ref < h'.fresh
  own : h.state.get chk.id = some ref ∨ h.state.get chk.id = none ∧ ref = h.fresh
  days : (h'.objects ref).certDays = none ∨
    h.state.get chk.id = some ref ∧ (h'.objects ref).certDays = (h.objects ref).certDays
  phase : isHttps chk.url = true ∧ h'.phase = .fetching now chk res ref todo ∨
    h'.phase = .closing now chk res ref todo ∧ ¬ (isHttps chk.url = true ∧ certEvery < now ∧
      ∀ r, h.state.get chk.id = some r → (h.objects r).certAt = 0)

theorem handled (h : Hub) (hfresh : ∀ i ref, h.state.get i = some ref → ref < h.fresh) (now : ℚ) (chk : Check)
    (res : Res) (todo : List (Check × Res)) :
    ∃ ref, Handled h (handle now chk res todo h) now chk res todo ref := by
  unfold handle
  cases hstate : h.state.get chk.id with
  | some ref =>
    have hof : stateOf chk h = (ref, h) := by simp [stateOf, hstate]
    have hget (i : Nat) : h.state.get i = if i = chk.id then some ref else h.state.get i := by
      split
      · rename_i heq
        rw [heq, hstate]
      · rfl
    refine ⟨ref, ?_⟩
    simp only [hof]
    split
    · rename_i hfetch
      exact ⟨rfl, rfl, hget, fun r hr _ => Function.update_of_ne hr _ _, ⟨le_refl _, hfresh _ _ hstate⟩,
        .inl hstate, .inr ⟨hstate, by simp⟩, .inl ⟨hfetch.1, rfl⟩⟩
    · rename_i hfetch
      refine ⟨rfl, rfl, hget, fun r hr _ => Function.update_of_ne hr _ _, ⟨le_refl _, hfresh _ _ hstate⟩,
        .inl hstate, .inr ⟨hstate, by simp⟩, .inr ⟨rfl, ?_⟩⟩
      rintro ⟨hhttps, htime, hzero⟩
      refine hfetch ⟨hhttps, ?_⟩
      rw [hzero ref hstate]
      linarith
  | none =>
    obtain ⟨st, hzero, hdays, hof⟩ : ∃ st : St, st.certAt = 0 ∧ st.certDays = none ∧ stateOf chk h =
        (h.fresh, { h with
          state := h.state.set chk.id h.fresh
          objects := Function.update h.objects h.fresh st
          fresh := h.fresh + 1 }) := by
      simp only [stateOf, hstate]
      exact ⟨_, rfl, rfl, rfl⟩
    refine ⟨h.fresh, ?_⟩
    simp only [hof, Function.update_self]
    split
    · rename_i hfetch
      exact ⟨rfl, rfl, fun i => Dict.get_set, fun r hr _ => by simp [hr], ⟨by simp, by simp⟩,
        .inr ⟨hstate, rfl⟩, .inl (by simp [hdays]), .inl ⟨hfetch.1, rfl⟩⟩
    · rename_i hfetch
      refine ⟨rfl, rfl, fun i => Dict.get_set, fun r hr _ => by simp [hr], ⟨by simp, by simp⟩,
        .inr ⟨hstate, rfl⟩, .inl (by simp [hdays]), .inr ⟨rfl, ?_⟩⟩
      rintro ⟨hhttps, htime, -⟩
      refine hfetch ⟨hhttps, ?_⟩
      rw [hzero]
      linarith

theorem inv_handle (hI : Inv w) {now : ℚ} {chk : Check} {res : Res} {todo : List (Check × Res)}
    (hphase : w.hub.phase = .handling now ((chk, res) :: todo)) :
    Inv { w with hub := handle now chk res todo w.hub } := by
  obtain ⟨ref, hh⟩ := handled w.hub hI.fresh now chk res todo
  have hcurrent : ∃ c ∈ w.hub.table, c.id = chk.id := by
    obtain ⟨row, hrow, hid, -⟩ := hI.hand chk (by rw [hphase]; simp [inHand])
    exact ⟨row, hrow, hid⟩
  have hlaw := law_handle now res todo hI.law hcurrent
  have htime : certEvery < now := hI.time now (by rw [hphase]; rfl)
  generalize handle now chk res todo w.hub = h' at hh hlaw ⊢
  have hother {i r : Nat} (hi : i ≠ chk.id) (hr : h'.state.get i = some r) :
      w.hub.state.get i = some r ∧ h'.objects r = w.hub.objects r := by
    rw [hh.state, if_neg hi] at hr
    have hlt := hI.fresh i r hr
    refine ⟨hr, hh.objects r ?_ hlt⟩
    rintro rfl
    rcases hh.own with hown | ⟨-, hown⟩
    · exact hi (hI.refs i chk.id r hr hown)
    · omega
  have hinHand : inHand h'.phase = inHand w.hub.phase ∧ timeOf h'.phase = some now ∧ at_ h'.phase = some chk.id := by
    rcases hh.phase with ⟨-, hp⟩ | ⟨hp, -⟩ <;> rw [hp, hphase] <;> exact ⟨rfl, rfl, rfl⟩
  have hget : h'.state.get chk.id = some ref := by rw [hh.state, if_pos rfl]
  constructor
  · rw [hlaw.1]
    exact hI.matched
  · exact hlaw.2
  · rw [hh.table]
    exact hI.ids
  · rw [hinHand.1, hh.table]
    exact hI.hand
  · intro now' hnow
    rw [hinHand.2.1] at hnow
    cases hnow
    exact htime
  · intro i j r hi hj
    by_cases hic : i = chk.id
    · by_cases hjc : j = chk.id
      · rw [hic, hjc]
      · rw [hic, hget] at hi
        cases hi
        obtain ⟨hj', -⟩ := hother hjc hj
        rcases hh.own with hown | ⟨-, hown⟩
        · exact absurd (hI.refs j chk.id ref hj' hown) hjc
        · have := hI.fresh j ref hj'
          omega
    · obtain ⟨hi', -⟩ := hother hic hi
      by_cases hjc : j = chk.id
      · rw [hjc, hget] at hj
        cases hj
        rcases hh.own with hown | ⟨-, hown⟩
        · exact absurd (hI.refs i chk.id ref hi' hown) hic
        · have := hI.fresh i ref hi'
          omega
      · exact hI.refs i j r hi' (hother hjc hj).1
  · intro i r hr
    by_cases hi : i = chk.id
    · rw [hi, hget] at hr
      cases hr
      exact hh.fresh.2
    · exact (hI.fresh i r (hother hi hr).1).trans_le hh.fresh.1
  · intro row hrow hat
    rw [hh.table] at hrow
    have hne : row.id ≠ chk.id := by
      rintro heq
      exact hat (by rw [hinHand.2.2, heq])
    have hkept := hI.kept row hrow (by rw [hphase]; simp [at_])
    refine hkept.same (fun r hr => ?_) (fun hopen => ?_) rfl
    · obtain ⟨hold, hobject⟩ := hother hne hr
      exact ⟨hold, hobject, rfl⟩
    · rw [← hh.alerts]
      exact hopen
  · obtain ⟨row, hrow, hid, hurl, -⟩ := hI.hand chk (by rw [hphase]; simp [inHand])
    have hkept := hI.kept row hrow (by rw [hphase]; simp [at_])
    rcases hh.phase with ⟨-, hp⟩ | ⟨hp, hnofetch⟩
    · rw [hp]
      exact hget
    · rw [hp]
      -- without a fetch the days are of the URL already
      have hsound : Sound w chk.id chk.url := by
        rcases hkept with hsound | ⟨hhttps, hzero⟩
        · rw [← hid, ← hurl]
          exact hsound
        · rw [hid] at hzero
          rw [hurl] at hhttps
          exact absurd ⟨hhttps, htime, hzero⟩ hnofetch
      refine ⟨hget, fun hdays => ?_, fun _ hopen => ?_⟩
      · rcases hh.days with hnone | ⟨hown, hsame⟩
        · exact absurd hnone hdays
        · simp only [hsame] at hdays
          exact hsound.days ref hown hdays
      · rw [hh.alerts] at hopen
        exact hsound.event hopen

/-- A fetch that came back or failed. -/
theorem inv_fetched (hI : Inv w) {now : ℚ} {chk : Check} {res : Res} {ref : Nat} {todo : List (Check × Res)}
    {days : Option (Option ℚ)} (hphase : w.hub.phase = .fetching now chk res ref todo)
    (hcareful : (∃ d, days = some (some d)) ∨ Sound w chk.id chk.url) :
    Inv (move w (.fetched days)) := by
  have hheld : w.hub.state.get chk.id = some ref := by
    have hheld := hI.held
    rw [hphase] at hheld
    exact hheld
  have hhub : (move w (.fetched days)).hub = { w.hub with
      objects := Function.update w.hub.objects ref (fetchedIn days (w.hub.objects ref))
      phase := .closing now chk res ref todo } := by simp only [move, Hub.move, hphase]
  have hjudged : (move w (.fetched days)).judged = w.judged := by simp only [move]
  have hgot (r : Nat) (hr : r ≠ ref) : (move w (.fetched days)).got r = w.got r := by
    rcases days with _ | _ | d
    · simp [move]
    · simp [move]
    · simp [move, hphase, hr]
  have hdays : ((fetchedIn days (w.hub.objects ref)).certDays ≠ none → (move w (.fetched days)).got ref = some chk.url) ∧
      ((fetchedIn days (w.hub.objects ref)).certDays = none → HasOpen (certKey chk.id) w.hub.alerts →
        w.judged chk.id = some chk.url) := by
    rcases hcareful with ⟨d, rfl⟩ | hsound
    · refine ⟨fun _ => ?_, fun hnone => ?_⟩
      · simp only [move, hphase]
        exact Function.update_self _ _ _
      · cases hnone
    · refine ⟨fun hsome => ?_, fun _ => hsound.event⟩
      cases days with
      | none => simpa [move] using hsound.days ref hheld hsome
      | some d =>
        cases d with
        | none => exact absurd rfl hsome
        | some d =>
          simp only [move, hphase]
          exact Function.update_self _ _ _
  generalize move w (.fetched days) = w' at *
  obtain ⟨hub, got, judged⟩ := w'
  simp only at hhub hjudged hgot hdays
  subst hhub hjudged
  refine ⟨hI.matched, ⟨hI.law.events, hI.law.state⟩, hI.ids, ?_, ?_, hI.refs, hI.fresh, ?_, ?_⟩
  · intro c hc
    exact hI.hand c (by rw [hphase]; exact hc)
  · intro t ht
    exact hI.time t (by rw [hphase]; exact ht)
  · intro row hrow hat
    have hkept := hI.kept row hrow (by rw [hphase]; exact hat)
    refine hkept.same (fun r hr => ?_) id rfl
    have hne : r ≠ ref := by
      rintro rfl
      have hid := hI.refs row.id chk.id r hr hheld
      exact hat (by rw [hid]; rfl)
    exact ⟨hr, Function.update_of_ne hne _ _, hgot r hne⟩
  · refine ⟨hheld, ?_, ?_⟩
    · simp only [Function.update_self]
      exact hdays.1
    · simp only [Function.update_self]
      exact hdays.2

/-- The evaluation: the event of the certificate is judged by the days, where there are
any. -/
theorem judged_close (hI : Inv w) {now : ℚ} {chk : Check} {res : Res} {ref : Nat} {todo : List (Check × Res)}
    (hphase : w.hub.phase = .closing now chk res ref todo) (c : Ctx) :
    HasOpen (certKey chk.id) (move w (.go c)).hub.alerts → (move w (.go c)).judged chk.id = some chk.url := by
  intro hopen
  have hheld := hI.held
  rw [hphase] at hheld
  obtain ⟨hget, hsome, hnone⟩ := hheld
  simp only [move, Hub.move, hphase] at hopen ⊢
  cases hdays : (w.hub.objects ref).certDays with
  | some d =>
    simp only [Option.isSome_some, if_true, Function.update_self]
    exact hsome (by simp [hdays])
  | none =>
    simp only [Option.isSome_none, Bool.false_eq_true, if_false]
    apply hnone hdays
    -- only the event of the check itself takes a step
    simp only [close, hdays, evaluateCheck, runActs, List.foldl_cons, List.foldl_nil, Act.run] at hopen
    refine (isOpen_step hI.matched hopen).resolve_left ?_
    intro heq
    cases heq

theorem inv_close (hI : Inv w) {now : ℚ} {chk : Check} {res : Res} {ref : Nat} {todo : List (Check × Res)}
    (hphase : w.hub.phase = .closing now chk res ref todo) (c : Ctx) : Inv (move w (.go c)) := by
  have hjudged := judged_close hI hphase c
  have hheld := hI.held
  rw [hphase] at hheld
  obtain ⟨hget, hsome, hnone⟩ := hheld
  obtain ⟨found, hfound, hid, hurl, hon⟩ := hI.hand chk (by rw [hphase]; simp [inHand])
  have hlaw := @law_close w.hub c hI.matched hI.law now chk res ref todo ⟨found, hfound, hid, hon⟩
  have hhub : (move w (.go c)).hub = close c now chk res ref todo w.hub := by simp only [move, Hub.move, hphase]
  have hgot : (move w (.go c)).got = w.got := by simp only [move]
  have hother (i : Nat) (hi : i ≠ chk.id) : (move w (.go c)).judged i = w.judged i := by
    simp only [move, hphase]
    split
    · exact Function.update_of_ne hi _ _
    · rfl
  have hopen (i : Nat) (hi : i ≠ chk.id) (ho : HasOpen (certKey i) (close c now chk res ref todo w.hub).alerts) :
      HasOpen (certKey i) w.hub.alerts := by
    refine (isOpen_evaluate hI.matched ho).resolve_right ?_
    intro hsub
    refine hi (certKey_inj ?_)
    unfold certKey at hsub ⊢
    simp only at hsub
    rw [hsub]
  generalize move w (.go c) = w' at *
  obtain ⟨hub, got, judged⟩ := w'
  simp only at hhub hjudged hgot hother
  subst hhub hgot
  refine ⟨hlaw.1, hlaw.2, hI.ids, ?_, ?_, hI.refs, hI.fresh, ?_, trivial⟩
  · intro x hx
    exact hI.hand x (by rw [hphase]; exact List.mem_cons_of_mem chk hx)
  · intro t ht
    exact hI.time t (by rw [hphase]; exact ht)
  · intro row hrow _
    by_cases hrowid : row.id = chk.id
    · left
      have hrow' : row = found := hI.row_eq hrow hfound (hrowid.trans hid.symm)
      rw [hrow', hid, hurl]
      refine ⟨fun r hr hdays => ?_, hjudged⟩
      have href : r = ref := by
        have hr' : w.hub.state.get chk.id = some r := hr
        rw [hget] at hr'
        exact (Option.some.inj hr').symm
      rw [href] at hdays ⊢
      exact hsome hdays
    · have hkept := hI.kept row hrow (by rw [hphase]; exact fun heq => hrowid (Option.some.inj heq).symm)
      exact hkept.same (fun r hr => ⟨hr, rfl, rfl⟩) (hopen row.id hrowid) (hother row.id hrowid)

/-! ## The panel -/

theorem held_of_same {p : Phase} (h : Held w p)
    (hstate : ∀ chk ∈ inHand p, w'.hub.state.get chk.id = w.hub.state.get chk.id)
    (hobjects : ∀ ref, (w'.hub.objects ref).certDays = (w.hub.objects ref).certDays) (hgot : w'.got = w.got)
    (hjudged : w'.judged = w.judged)
    (hevent : ∀ id, HasOpen (certKey id) w'.hub.alerts → HasOpen (certKey id) w.hub.alerts) : Held w' p := by
  cases p with
  | fetching now chk res ref todo =>
    have hsame := hstate chk (by simp [inHand])
    exact hsame.trans h
  | closing now chk res ref todo =>
    obtain ⟨hget, hsome, hnone⟩ := h
    refine ⟨(hstate chk (by simp [inHand])).trans hget, ?_, ?_⟩
    · rw [hobjects, hgot]
      exact hsome
    · rw [hobjects, hjudged]
      exact fun hdays hopen => hnone hdays (hevent _ hopen)
  | _ => trivial

theorem inv_add (hI : Inv w) (name url : String) (interval : Int) (enabled : Bool) :
    Inv { w with hub := { w.hub with table := w.hub.table ++ [⟨tables.newId Check.id w.hub.table, name, url, interval, enabled⟩] } } := by
  have hfresh (row : Check) (hrow : row ∈ w.hub.table) : row.id ≠ tables.newId Check.id w.hub.table := (tables.newId_fresh hrow).ne
  have hbare : Bare w (tables.newId Check.id w.hub.table) := by
    constructor
    · intro ref href
      obtain ⟨row, hrow, hid⟩ := hI.law.state (tables.newId Check.id w.hub.table) (by rw [href]; rfl)
      exact absurd hid (hfresh row hrow)
    · intro hopen
      obtain ⟨row, hrow, -, hsub⟩ := hI.law.events _ (certKey_ofChecks _) hopen
      refine absurd (certKey_inj ?_) (hfresh row hrow)
      unfold certKey at hsub ⊢
      rw [hsub]
  refine ⟨hI.matched, ?_, ?_, ?_, hI.time, hI.refs, hI.fresh, ?_, ?_⟩
  · exact law_of_same hI.law (fun _ ho => ho) rfl fun _ hchk => List.mem_append_left _ hchk
  · rw [List.map_append, List.nodup_append]
    refine ⟨hI.ids, by simp, ?_⟩
    intro i hi j hj
    obtain ⟨row, hrow, rfl⟩ := List.mem_map.mp hi
    simp only [List.map_cons, List.map_nil, List.mem_singleton] at hj
    rw [hj]
    exact hfresh row hrow
  · intro chk hchk
    obtain ⟨row, hrow, h⟩ := hI.hand chk hchk
    exact ⟨row, List.mem_append_left _ hrow, h⟩
  · intro row hrow hat
    rcases List.mem_append.mp hrow with hrow | hrow
    · exact (hI.kept row hrow hat).same (fun ref href => ⟨href, rfl, rfl⟩) id rfl
    · rw [List.mem_singleton.mp hrow]
      exact .inl ⟨(hbare.sound url).days, (hbare.sound url).event⟩
  · exact held_of_same hI.held (fun _ _ => rfl) (fun _ => rfl) rfl rfl fun _ ho => ho

/-- A check is forgotten that no run has in hand: deleted, or disabled by an edit. -/
theorem inv_forget (hI : Inv w) (c : Ctx) {id : Nat} (hfree : ∀ chk ∈ inHand w.hub.phase, chk.id ≠ id)
    {table : List Check} (hids : (table.map Check.id).Nodup)
    (hstay : ∀ row ∈ w.hub.table, row.id ≠ id → row ∈ table)
    (hold : ∀ row ∈ table, row.id ≠ id → row ∈ w.hub.table) :
    Inv { w with hub := forget c id { w.hub with table := table } } := by
  have hm : Matched ({ w.hub with table := table } : Hub).alerts := hI.matched
  obtain ⟨hmatched, -, hstate⟩ := @forget_spec { w.hub with table := table } c hm id
  have hopen (i : Nat) (ho : HasOpen (certKey i) (forget c id { w.hub with table := table }).alerts) :
      HasOpen (certKey i) w.hub.alerts ∧ i ≠ id := by
    obtain ⟨hbefore, hne⟩ := @isOpen_forget { w.hub with table := table } c (certKey i) hm id (certKey_ofChecks i) ho
    refine ⟨hbefore, ?_⟩
    rintro rfl
    exact hne rfl
  refine ⟨hmatched, law_forget hI.matched id rfl rfl hI.law hstay, hids, ?_, hI.time, ?_, ?_, ?_, ?_⟩
  · intro chk hchk
    obtain ⟨row, hrow, hid, h⟩ := hI.hand chk hchk
    exact ⟨row, hstay row hrow (by rw [hid]; exact hfree chk hchk), hid, h⟩
  · intro i j ref hi hj
    rw [hstate] at hi hj
    split at hi
    · cases hi
    · split at hj
      · cases hj
      · exact hI.refs i j ref hi hj
  · intro i ref hi
    rw [hstate] at hi
    split at hi
    · cases hi
    · exact hI.fresh i ref hi
  · intro row hrow hat
    by_cases hid : row.id = id
    · left
      constructor
      · intro ref href
        rw [hstate, if_pos hid] at href
        cases href
      · intro ho
        exact absurd hid (hopen row.id ho).2
    · refine (hI.kept row (hold row hrow hid) hat).same (fun ref href => ?_) (fun ho => (hopen row.id ho).1) rfl
      rw [hstate, if_neg hid] at href
      exact ⟨href, rfl, rfl⟩
  · refine held_of_same hI.held ?_ (fun _ => rfl) rfl rfl fun i ho => (hopen i ho).1
    intro chk hchk
    rw [hstate, if_neg (hfree chk hchk)]

/-- The row of an edit. -/
def replaced (new chk : Check) : Check := if chk.id = new.id then new else chk

theorem replaced_ids (new : Check) (table : List Check) :
    (table.map (replaced new)).map Check.id = table.map Check.id := by
  rw [List.map_map]
  apply List.map_congr_left
  intro chk _
  unfold replaced
  simp only [Function.comp]
  split
  · rename_i hid
    exact hid.symm
  · rfl

theorem mem_replaced {new row : Check} {table : List Check} (h : row ∈ table.map (replaced new)) :
    row = new ∨ row ∈ table ∧ row.id ≠ new.id := by
  obtain ⟨chk, hchk, rfl⟩ := List.mem_map.mp h
  unfold replaced
  split
  · exact .inl rfl
  · rename_i hid
    exact .inr ⟨hchk, hid⟩

theorem stays_replaced {new row : Check} {table : List Check} (hrow : row ∈ table) (hid : row.id ≠ new.id) :
    row ∈ table.map (replaced new) := List.mem_map.mpr ⟨row, hrow, if_neg hid⟩

/-- An edit of a check that stays enabled: its state fetches again. -/
theorem inv_renew (hI : Inv w) {c : Ctx} {new old : Check} (hold : old ∈ w.hub.table) (hid : old.id = new.id)
    (hon : new.enabled = true) (hcareful : Careful w (.edit c new)) {objects : Nat → St}
    (hlaw : Law { w.hub with table := w.hub.table.map (replaced new), objects := objects })
    (hdays : ∀ ref, (objects ref).certDays = (w.hub.objects ref).certDays)
    (hzero : ∀ ref, w.hub.state.get new.id = some ref → (objects ref).certAt = 0)
    (hrest : ∀ ref, w.hub.state.get new.id ≠ some ref → objects ref = w.hub.objects ref) :
    Inv { w with hub := { w.hub with table := w.hub.table.map (replaced new), objects := objects } } := by
  obtain ⟨hfree, hchange⟩ := hcareful old hold hid
  have hnew : new ∈ w.hub.table.map (replaced new) := List.mem_map.mpr ⟨old, hold, if_pos hid⟩
  refine ⟨hI.matched, hlaw, ?_, ?_, hI.time, hI.refs, hI.fresh, ?_, ?_⟩
  · rw [replaced_ids]
    exact hI.ids
  · intro chk hchk
    obtain ⟨row, hrow, hrowid, hurl, hrowon⟩ := hI.hand chk hchk
    by_cases heq : row.id = new.id
    · refine ⟨new, hnew, heq.symm.trans hrowid, ?_, hon⟩
      have hsame : row = old := hI.row_eq hrow hold (heq.trans hid.symm)
      by_contra hne
      -- a check in hand keeps its URL
      refine hfree (.inl fun hu => hne ?_) chk hchk (hrowid.symm.trans heq)
      rw [← hu, ← hsame]
      exact hurl
    · exact ⟨row, stays_replaced hrow heq, hrowid, hurl, hrowon⟩
  · intro row hrow hat
    rcases mem_replaced hrow with rfl | ⟨hrow, hne⟩
    · have hkept := hI.kept old hold (by rw [hid]; exact hat)
      have hsound (hs : Sound w row.id row.url) :
          Sound { w with hub := { w.hub with table := w.hub.table.map (replaced row), objects := objects } }
            row.id row.url := by
        refine ⟨fun ref href hsome => ?_, hs.event⟩
        simp only [hdays] at hsome
        exact hs.days ref href hsome
      by_cases hurl : old.url = row.url
      · rcases hkept with hs | ⟨hhttps, -⟩
        · left
          rw [hid, hurl] at hs
          exact hsound hs
        · right
          rw [hurl] at hhttps
          exact ⟨hhttps, hzero⟩
      · rcases hchange hurl with hhttps | hbare
        · exact .inr ⟨hhttps, hzero⟩
        · exact .inl (hsound (hbare.sound row.url))
    · refine (hI.kept row hrow hat).same (fun ref href => ⟨href, hrest ref ?_, rfl⟩) id rfl
      intro hsame
      exact hne (hI.refs row.id new.id ref href hsame)
  · exact held_of_same hI.held (fun _ _ => rfl) hdays rfl rfl fun _ ho => ho

theorem inv_edit (hI : Inv w) (c : Ctx) (new : Check) (hcareful : Careful w (.edit c new)) :
    Inv { w with hub := edit c new w.hub } := by
  have hlaw := (law_edit (c := c) hI.matched hI.law new).2
  unfold edit at hlaw ⊢
  by_cases hany : (w.hub.table.any fun chk => chk.id = new.id) = true
  · obtain ⟨old, hold, hid⟩ : ∃ chk ∈ w.hub.table, chk.id = new.id := by simpa using hany
    rw [if_pos hany] at hlaw ⊢
    unfold edited at hlaw ⊢
    cases hon : new.enabled with
    | false =>
      have hfree := (hcareful old hold hid).1 (.inr hon)
      refine @inv_forget w hI c new.id hfree (w.hub.table.map (replaced new)) ?_ ?_ ?_
      · rw [replaced_ids]
        exact hI.ids
      · exact fun row hrow hne => stays_replaced hrow hne
      · intro row hrow hne
        rcases mem_replaced hrow with rfl | ⟨hrow, -⟩
        · exact absurd rfl hne
        · exact hrow
    | true =>
      simp only [hon, Bool.not_true, Bool.false_eq_true, if_false] at hlaw ⊢
      cases hstate : w.hub.state.get new.id with
      | none =>
        simp only [hstate] at hlaw ⊢
        exact inv_renew hI hold hid hon hcareful hlaw (fun _ => rfl) (by simp [hstate]) fun _ _ => rfl
      | some ref =>
        simp only [hstate] at hlaw ⊢
        refine inv_renew hI hold hid hon hcareful hlaw ?_ ?_ ?_
        · intro r
          by_cases hr : r = ref
          · simp [hr]
          · simp [hr]
        · intro r hr
          rw [hstate] at hr
          cases hr
          simp
        · intro r hr
          apply Function.update_of_ne
          rintro rfl
          exact hr hstate
  · rw [if_neg hany]
    exact hI

theorem inv_remove (hI : Inv w) (c : Ctx) {id : Nat} (hfree : ∀ chk ∈ inHand w.hub.phase, chk.id ≠ id) :
    Inv { w with hub := remove c id w.hub } := by
  refine inv_forget hI c hfree ?_ ?_ ?_
  · exact (List.filter_sublist.map Check.id).nodup hI.ids
  · exact fun row hrow hne => List.mem_filter.mpr ⟨hrow, decide_eq_true hne⟩
  · exact fun row hrow _ => List.mem_of_mem_filter hrow

/-! ## Every run -/

theorem Inv.same (h : Inv w) (hhub : w'.hub = w.hub) (hgot : w'.got = w.got) (hjudged : w'.judged = w.judged) :
    Inv w' := by
  obtain ⟨hub, got, judged⟩ := w'
  subst hhub hgot hjudged
  exact h

/-- The moves that leave what is known of the certificates. -/
theorem move_eq {m : Move} (hgo : ∀ c, m ≠ .go c) (hfetched : ∀ days, m ≠ .fetched days) :
    move w m = { w with hub := w.hub.move m } := by
  cases m with
  | go c => exact absurd rfl (hgo c)
  | fetched days => exact absurd rfl (hfetched days)
  | _ => rfl

theorem inv_go (hI : Inv w) (c : Ctx) : Inv (move w (.go c)) ∧ Judged w (.go c) := by
  cases hphase : w.hub.phase with
  | handling now todo =>
    have hjudged : Judged w (.go c) := by
      unfold Judged
      rw [hphase]
      trivial
    refine ⟨?_, hjudged⟩
    cases todo with
    | nil =>
      refine hI.phase .idle (by simp only [move]) (by simp only [move, hphase]) ?_ (by simp [inHand]) ?_ ?_ rfl
      · simp only [move, Hub.move, hphase]
      · intro now' hnow
        cases hnow
      · rw [hphase]
        rfl
    | cons x todo =>
      obtain ⟨chk, res⟩ := x
      refine (inv_handle hI hphase).same ?_ (by simp only [move]) (by simp only [move, hphase])
      simp only [move, Hub.move, hphase]
  | closing now chk res ref todo =>
    refine ⟨inv_close hI hphase c, ?_⟩
    unfold Judged
    rw [hphase]
    exact judged_close hI hphase c
  | _ =>
    refine ⟨hI.same ?_ (by simp only [move]) (by simp only [move, hphase]), ?_⟩
    · simp only [move, Hub.move, hphase]
    · unfold Judged
      rw [hphase]
      trivial

theorem inv_move (hI : Inv w) (m : Move) (hcareful : Careful w m) : Inv (move w m) ∧ Judged w m := by
  cases m with
  | go c => exact inv_go hI c
  | fetched days =>
    refine ⟨?_, trivial⟩
    cases hphase : w.hub.phase with
    | fetching now chk res ref todo =>
      unfold Careful at hcareful
      rw [hphase] at hcareful
      exact inv_fetched hI hphase hcareful
    | _ =>
      refine hI.same ?_ ?_ (by simp only [move])
      · simp only [move, Hub.move, hphase]
      · simp only [move]
        split <;> simp_all
  | begin now =>
    refine ⟨?_, trivial⟩
    rw [move_eq (by simp) (by simp)]
    simp only [Hub.move]
    split
    · rename_i hidle
      unfold checks.begin
      simp only
      split
      · exact hI
      · refine hI.phase _ rfl rfl rfl ?_ ?_ (by rw [hidle]; rfl) rfl
        · intro chk hchk
          obtain ⟨hmem, hdue⟩ := List.mem_filter.mp hchk
          exact ⟨chk, hmem, rfl, rfl, (Bool.and_eq_true_iff.mp hdue).1⟩
        · intro now' hnow
          cases hnow
          exact hcareful
    · exact hI
  | probed results =>
    refine ⟨?_, trivial⟩
    rw [move_eq (by simp) (by simp)]
    simp only [Hub.move]
    split
    · rename_i now due hphase
      split
      · rename_i hlength
        have hzip : (due.zip results).map Prod.fst = due := List.map_fst_zip hlength.ge
        refine hI.phase _ rfl rfl rfl ?_ ?_ (by rw [hphase]; rfl) rfl
        · intro chk hchk
          refine hI.hand chk ?_
          simp only [inHand, hzip] at hchk
          rw [hphase]
          exact hchk
        · intro now' hnow
          cases hnow
          exact hI.time now (by rw [hphase]; rfl)
      · exact hI
    · exact hI
  | raised =>
    refine ⟨?_, trivial⟩
    rw [move_eq (by simp) (by simp)]
    simp only [Hub.move]
    split
    · rename_i now due hphase
      refine hI.phase .idle rfl rfl rfl (by simp [inHand]) ?_ (by rw [hphase]; rfl) rfl
      intro now' hnow
      cases hnow
    · exact hI
  | add name url interval enabled =>
    refine ⟨?_, trivial⟩
    rw [move_eq (by simp) (by simp)]
    simp only [Hub.move]
    split
    · exact inv_add hI name url interval enabled
    · exact hI
  | edit c new =>
    refine ⟨?_, trivial⟩
    rw [move_eq (by simp) (by simp)]
    simp only [Hub.move]
    split
    · exact inv_edit hI c new hcareful
    · exact hI
  | remove c id =>
    refine ⟨?_, trivial⟩
    rw [move_eq (by simp) (by simp)]
    simp only [Hub.move]
    split
    · exact inv_remove hI c hcareful
    · exact hI
  | rule kind thr forS sev on =>
    refine ⟨?_, trivial⟩
    rw [move_eq (by simp) (by simp)]
    simp only [Hub.move]
    split
    · refine ⟨⟨hI.matched.ids, hI.matched.rows, hI.matched.fits⟩, ?_, hI.ids, hI.hand, hI.time, hI.refs, hI.fresh, ?_, ?_⟩
      · exact law_of_same hI.law (fun _ ho => ho) rfl fun _ hchk => hchk
      · intro row hrow hat
        exact (hI.kept row hrow hat).same (fun ref href => ⟨href, rfl, rfl⟩) id rfl
      · exact held_of_same hI.held (fun _ _ => rfl) (fun _ => rfl) rfl rfl fun _ ho => ho
    · exact hI

theorem inv_start : Inv start := by
  refine ⟨matched_seed matched_empty, ⟨?_, ?_⟩, List.nodup_nil, ?_, ?_, ?_, ?_, ?_, trivial⟩
  · rintro k - ⟨e, he, -⟩
    cases he
  · intro i hi
    cases hi
  · intro chk hchk
    cases hchk
  · intro now hnow
    cases hnow
  · intro i j ref hi
    cases hi
  · intro i ref hi
    cases hi
  · intro row hrow
    cases hrow

/-- In every careful run, whenever the `cert` event of a check is open right after its
probe, the days that it was judged by are of a certificate of the URL that was probed. -/
theorem careful_judged (ms : List Move) (hcareful : runs.Throughout move Careful start ms) :
    runs.Throughout move Judged start ms :=
  (runs.throughout_of_invariant (I := Inv) (Q := Judged) (fun _ m hI hP => inv_move hI m hP) inv_start hcareful).1

/-! ## An edit from https to another host, and to http -/

theorem careful_fetched (d : ℚ) : Careful w (.fetched (some (some d))) := by
  simp only [Careful]
  split
  · exact .inl ⟨d, rfl⟩
  · trivial

theorem careful_edit {new : Check} (c : Ctx) (hphase : w.hub.phase = .idle) (hhttps : isHttps new.url = true) :
    Careful w (.edit c new) := by
  intro old _ _
  refine ⟨?_, fun _ => .inl hhttps⟩
  rintro - chk hchk
  rw [hphase] at hchk
  cases hchk

/-- A check whose certificate has five days left. -/
def expiring : List Move := probedOnce ++ [.fetched (some (some 5)), .go someone, .go someone]

/-- The check gets a URL, and is probed again. -/
def given (url : String) : List Move := [.edit someone ⟨1, "site", url, 60, true⟩, .begin 100060, .probed [⟨true, ""⟩], .go someone]

theorem moved_judged :
    ∃ ms, ms = expiring ++ given "https://new.test/" ++ [.fetched (some (some 3)), .go someone] ∧
      runs.Throughout move Judged start ms ∧
      HasOpen (certKey 1) (runs.final move start ms).hub.alerts ∧
      (runs.final move start ms).judged 1 = some "https://new.test/" := by
  refine ⟨_, rfl, careful_judged _ ?_, by decide +kernel, by decide +kernel⟩
  refine ⟨trivial, ?_, trivial, trivial, careful_fetched 5, trivial, trivial, ?_, ?_, trivial, trivial,
    careful_fetched 3, trivial, trivial⟩
  · change certEvery < 100000
    decide +kernel
  · exact careful_edit someone (by decide +kernel) (by decide +kernel)
  · change certEvery < 100060
    decide +kernel

/-- The check is moved to http: its event stays open, judged by the certificate of the
URL that it had. -/
theorem stale_judged :
    ∃ w, runs.final move start (expiring ++ given "http://new.test/") = w ∧
      w.hub.phase = .closing 100060 ⟨1, "site", "http://new.test/", 60, true⟩ ⟨true, ""⟩ 0 [] ∧
      HasOpen (certKey 1) (move w (.go someone)).hub.alerts ∧
      (move w (.go someone)).judged 1 = some "https://fp.test/" ∧ ¬ Judged w (.go someone) := by
  refine ⟨_, rfl, by decide +kernel, by decide +kernel, by decide +kernel, ?_⟩
  generalize hw : runs.final move start (expiring ++ given "http://new.test/") = w
  have hphase : w.hub.phase = .closing 100060 ⟨1, "site", "http://new.test/", 60, true⟩ ⟨true, ""⟩ 0 [] := by
    rw [← hw]
    decide +kernel
  have hopen : HasOpen (certKey 1) (move w (.go someone)).hub.alerts := by
    rw [← hw]
    decide +kernel
  have hold : (move w (.go someone)).judged 1 = some "https://fp.test/" := by
    rw [← hw]
    decide +kernel
  unfold Judged
  rw [hphase]
  intro hjudged
  have hnew := hjudged hopen
  rw [hold] at hnew
  exact absurd hnew (by decide +kernel)

end icsd_panel.certs

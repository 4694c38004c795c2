-- The channels of the alerts: what `notify.save` keeps of their settings over
-- many saves, and where a token of a bot is sent.
import IcsdPanel.Runs
import IcsdPanel.Texts

open texts runs

namespace icsd_panel.channels

/-! ## Settings -/

inductive Channel
  | telegram
  | bale
deriving DecidableEq, Repr

structure Setting where
  on : Bool
  token : Str
  chat : Str
  api : Str

abbrev Config := Channel → Setting

def defaultApi : Channel → Str
  | .telegram => "https://api.telegram.org".toList
  | .bale => "https://tapi.bale.ai".toList

/-- `DEFAULTS` -/
def defaults : Config := fun ch => ⟨false, [], [], defaultApi ch⟩

/-- The texts that `str` gives of the JSON values that are not true. -/
def falsyTexts : List Str :=
  ["", "None", "False", "0", "0.0", "-0.0", "[]", "\x7b\x7d"].map String.toList

/-- A value of an update, as far as `save` looks at it: its truth and its text. -/
structure Value where
  text : Str
  truthy : Bool
  falsy : truthy = false → text ∈ falsyTexts

/-- What an update has for a channel. -/
structure Fields where
  on : Option Value
  token : Option Value
  chat : Option Value
  api : Option Value

abbrev Update := Channel → Fields

/-! ## `save` -/

/-- `s.rstrip("/")` -/
def rstripSlash (s : Str) : Str := s.rdropWhile (· = '/')

/-- `update.get(k)` as a truth. -/
def given (v : Option Value) : Bool := v.any Value.truthy

/-- `new_api` of the guard. -/
def newApi (old : Setting) (u : Fields) : Str :=
  rstripSlash (strip (match u.api with
    | some v => if v.truthy then v.text else old.api
    | none => old.api))

/-- Whether the guard lets a change of the address through. -/
def allowed (old : Setting) (u : Fields) : Bool :=
  !(newApi old u ≠ old.api && old.token ≠ [] && !given u.token)

/-- `str(v).strip()[:300]` of what the update has, or what is there. -/
def field (old : Str) (v : Option Value) : Str :=
  match v with
  | some v => (strip v.text).take 300
  | none => old

/-- The address that is stored: https only, and without slashes at its end. -/
def storedApi (ch : Channel) (s : Str) : Str :=
  rstripSlash (if "https://".toList.isPrefixOf s then s else defaultApi ch)

def saveChannel (ch : Channel) (old : Setting) (u : Fields) : Setting where
  on := (u.on.map Value.truthy).getD old.on
  -- An empty field of the form keeps the token.
  token := if given u.token then field old.token u.token else old.token
  chat := field old.chat u.chat
  api := storedApi ch (field old.api u.api)

/-- `save` -/
def save (cfg : Config) (u : Update) : Except String Config :=
  if allowed (cfg .telegram) (u .telegram) && allowed (cfg .bale) (u .bale) then
    .ok fun ch => saveChannel ch (cfg ch) (u ch)
  else .error "برای تغییر آدرس API، توکن ربات را هم دوباره وارد کنید"

structure Job where
  ch : Channel
  api : Str
  token : Str
  chat : Str

/-- The messages of `send`: one for each channel that is on and complete. -/
def jobs (cfg : Config) : List Job :=
  [.telegram, .bale].filterMap fun ch =>
    if (cfg ch).on && (cfg ch).token ≠ [] && (cfg ch).chat ≠ [] then
      some ⟨ch, (cfg ch).api, (cfg ch).token, (cfg ch).chat⟩
    else none

/-! ## Addresses -/

theorem rstripSlash_append {s t : Str} (h : ∀ c ∈ t, c = '/') : rstripSlash (s ++ t) = rstripSlash s := by
  unfold rstripSlash List.rdropWhile
  rw [List.reverse_append, List.dropWhile_append_of_pos]
  intro c hc
  simpa using h c (List.mem_reverse.mp hc)

/-- An address that is cut at `n` keeps what it has before its slashes, if that
is not longer. -/
theorem rstripSlash_take {s : Str} {n : Nat} (h : (rstripSlash s).length ≤ n) :
    rstripSlash (s.take n) = rstripSlash s := by
  have hsplit : rstripSlash s ++ s.rtakeWhile (· = '/') = s := List.rdropWhile_append_rtakeWhile
  have hslash : ∀ c ∈ (s.rtakeWhile (· = '/')).take (n - (rstripSlash s).length), c = '/' := by
    intro c hc
    simpa using List.mem_rtakeWhile_imp (List.mem_of_mem_take hc)
  have htake : s.take n = rstripSlash s ++ (s.rtakeWhile (· = '/')).take (n - (rstripSlash s).length) := by
    conv_lhs => rw [← hsplit]
    rw [List.take_append, List.take_of_length_le h]
  rw [htake, rstripSlash_append hslash]
  exact List.rdropWhile_idempotent _ _

theorem rstripSlash_default (ch : Channel) : rstripSlash (defaultApi ch) = defaultApi ch := by
  cases ch <;> decide

/-- An address as `save` leaves it. -/
def Stored (api : Str) : Prop := rstripSlash api = api ∧ api.length ≤ 300

theorem stored_default (ch : Channel) : Stored (defaultApi ch) := by
  refine ⟨rstripSlash_default ch, ?_⟩
  cases ch <;> decide

theorem stored_storedApi (ch : Channel) {s : Str} (h : s.length ≤ 300) : Stored (storedApi ch s) := by
  unfold storedApi
  split
  · exact ⟨List.rdropWhile_idempotent _ _, (List.rdropWhile_prefix _ _).length_le.trans h⟩
  · rw [rstripSlash_default]
    exact stored_default ch

/-- What the address becomes when nothing else than the old one was given. -/
theorem storedApi_cases (ch : Channel) (s : Str) :
    storedApi ch s = rstripSlash s ∨ storedApi ch s = defaultApi ch := by
  unfold storedApi
  split
  · exact .inl rfl
  · exact .inr (rstripSlash_default ch)

theorem falsy_not_https {s : Str} (h : s ∈ falsyTexts) :
    "https://".toList.isPrefixOf ((strip s).take 300) = false := by
  have hall : (falsyTexts.all fun s => !"https://".toList.isPrefixOf ((strip s).take 300)) = true := by
    decide +kernel
  simpa using List.all_eq_true.mp hall s h

/-- A save that the guard lets through without a token keeps the address, or
goes back to the default. -/
theorem api_kept {ch : Channel} {old : Setting} {u : Fields} (hold : Stored old.api)
    (hallowed : allowed old u = true) (htoken : old.token ≠ []) (hgiven : given u.token = false) :
    (saveChannel ch old u).api = old.api ∨ (saveChannel ch old u).api = defaultApi ch := by
  have hnew : newApi old u = old.api := by
    simpa [allowed, htoken, hgiven] using hallowed
  show storedApi ch (field old.api u.api) = _ ∨ storedApi ch (field old.api u.api) = _
  unfold newApi at hnew
  unfold field
  cases hapi : u.api with
  | none =>
    refine (storedApi_cases ch old.api).imp_left fun h => ?_
    rw [h, hold.1]
  | some v =>
    rw [hapi] at hnew
    dsimp only at hnew ⊢
    cases hv : v.truthy with
    | false =>
      right
      unfold storedApi
      rw [falsy_not_https (v.falsy hv), if_neg (by simp), rstripSlash_default]
    | true =>
      rw [if_pos hv] at hnew
      refine (storedApi_cases ch _).imp_left fun h => ?_
      rw [h, rstripSlash_take (by rw [hnew]; exact hold.2), hnew]

theorem saveChannel_stored {ch : Channel} {old : Setting} {u : Fields} (hold : Stored old.api) :
    Stored (saveChannel ch old u).api := by
  refine stored_storedApi ch ?_
  unfold field
  split
  · rw [List.length_take]
    omega
  · exact hold.2

/-! ## Many saves -/

/-- The settings, and for each channel the address that was stored with its
token. -/
structure State where
  cfg : Config
  entered : Channel → Str

def start : State := ⟨defaults, defaultApi⟩

/-- A call of `save`. -/
def step (s : State) (u : Update) : State :=
  match save s.cfg u with
  | .error _ => s
  | .ok cfg => ⟨cfg, fun ch => if given (u ch).token then (cfg ch).api else s.entered ch⟩

/-- The address of a channel with a token changes only with a new token, or to
the default. -/
def Kept (s : State) (u : Update) : Prop :=
  ∀ ch, (s.cfg ch).token ≠ [] → ((step s u).cfg ch).token ≠ [] → ((step s u).cfg ch).api ≠ (s.cfg ch).api →
    given (u ch).token = true ∨ ((step s u).cfg ch).api = defaultApi ch

/-- A token stands beside the address that it was entered with, or the
default. -/
def Safe (s : State) : Prop :=
  ∀ ch, Stored (s.cfg ch).api ∧
    ((s.cfg ch).token = [] ∨ (s.cfg ch).api = defaultApi ch ∨ (s.cfg ch).api = s.entered ch)

theorem save_cases (cfg : Config) (u : Update) :
    (∃ err, save cfg u = .error err) ∨
      (save cfg u = .ok (fun ch => saveChannel ch (cfg ch) (u ch)) ∧ ∀ ch, allowed (cfg ch) (u ch) = true) := by
  unfold save
  split
  · rename_i h
    rw [Bool.and_eq_true] at h
    refine .inr ⟨rfl, fun ch => ?_⟩
    cases ch
    · exact h.1
    · exact h.2
  · exact .inl ⟨_, rfl⟩

theorem step_cases (s : State) (u : Update) :
    step s u = s ∨ (step s u = ⟨fun ch => saveChannel ch (s.cfg ch) (u ch), fun ch =>
        if given (u ch).token then (saveChannel ch (s.cfg ch) (u ch)).api else s.entered ch⟩ ∧
      ∀ ch, allowed (s.cfg ch) (u ch) = true) := by
  unfold step
  rcases save_cases s.cfg u with ⟨err, herr⟩ | ⟨hok, hallowed⟩
  · rw [herr]
    exact .inl rfl
  · rw [hok]
    exact .inr ⟨rfl, hallowed⟩

theorem step_safe {s : State} {u : Update} (h : Safe s) : Safe (step s u) ∧ Kept s u := by
  unfold Kept
  rcases step_cases s u with hsame | ⟨hsaved, hallowed⟩
  · rw [hsame]
    exact ⟨h, fun ch _ _ hne => absurd rfl hne⟩
  · rw [hsaved]
    refine ⟨fun ch => ⟨saveChannel_stored (h ch).1, ?_⟩, fun ch htoken _ hne => ?_⟩
    · dsimp only
      cases hgiven : given (u ch).token with
      | true => exact .inr (.inr (by rw [if_pos rfl]))
      | false =>
        have hsame : (saveChannel ch (s.cfg ch) (u ch)).token = (s.cfg ch).token := by
          simp [saveChannel, hgiven]
        rw [hsame, if_neg (by simp)]
        by_cases htoken : (s.cfg ch).token = []
        · exact .inl htoken
        · right
          rcases api_kept (h ch).1 (hallowed ch) htoken hgiven with hkept | hdefault
          · rw [hkept]
            exact (h ch).2.resolve_left htoken
          · exact .inl hdefault
    · cases hgiven : given (u ch).token with
      | true => exact .inl rfl
      | false =>
        exact .inr ((api_kept (h ch).1 (hallowed ch) htoken hgiven).resolve_left hne)

theorem start_safe : Safe start := fun ch => ⟨stored_default ch, .inr (.inl rfl)⟩

theorem mem_jobs {cfg : Config} {j : Job} (h : j ∈ jobs cfg) :
    j.api = (cfg j.ch).api ∧ j.token = (cfg j.ch).token ∧ j.token ≠ [] := by
  unfold jobs at h
  obtain ⟨ch, -, hj⟩ := List.mem_filterMap.mp h
  split at hj
  · rename_i hon
    cases hj
    simp only [Bool.and_eq_true, decide_eq_true_eq] at hon
    exact ⟨rfl, rfl, hon.1.2⟩
  · cases hj

/-- Over all sequences of saves the address of a channel with a token changes
only with a new token or to the default, and a token is sent only to the
address that it was entered with or to the default. -/
theorem tokens_kept (us : List Update) :
    Throughout step Kept start us ∧
      ∀ j ∈ jobs (final step start us).cfg,
        j.api = defaultApi j.ch ∨ j.api = (final step start us).entered j.ch := by
  obtain ⟨hkept, hsafe⟩ := throughout_of_invariant (fun s u hs _ => step_safe hs) start_safe
    (throughout_true step start us)
  refine ⟨hkept, fun j hj => ?_⟩
  obtain ⟨hapi, htoken, hne⟩ := mem_jobs hj
  rw [hapi]
  exact (hsafe j.ch).2.resolve_left (htoken ▸ hne)

end icsd_panel.channels

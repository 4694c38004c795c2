-- Elevated sessions: what stands behind a request that the guard `elevated` lets
-- pass.
import IcsdPanel.SecondFactors

open dicts logs texts

namespace icsd_panel.elevations

open security accounts second_factors

/-- A session was elevated until a time, not after `bound`. -/
def Elevates (id : Str) (uid until_ bound : Nat) (x : Event) : Prop :=
  ∃ secret step code at_ t', x = .accepted (.elevate id t') uid secret step code at_ ∧
    until_ = t' + elevateSeconds ∧ at_ ≤ t' ∧ t' ≤ bound

/-- What ends a session of a user: a new password, a reset, a confirmation in
another session, and that the user is deleted. -/
def Ends (id : Str) (uid : Nat) : Event → Prop
  | .passwordSet uid' => uid' = uid
  | .reset uid' => uid' = uid
  | .deleted uid' => uid' = uid
  | .accepted (.confirm2fa id') uid' .. => uid' = uid ∧ id' ≠ id
  | _ => False

/-- The id that a session gets at a draw. That ids differ says that the draws do not
repeat and that their hashes differ. -/
def idOf (e : Env) (draw : Nat) : Str := e.sha256 (token e 32 draw)

/-- A session that is elevated was elevated itself, and nothing ended it since. -/
structure Lasting (e : Env) (n bound : Nat) (h : Hub) : Prop where
  drawn : ∀ id s, h.sessions.get id = some s → ∃ i < n, id = idOf e i
  held : ∀ user ∈ h.held, (∃ i < n, user.session = idOf e i) ∧
    ∀ s, h.sessions.get user.session = some s → s.userId = user.id
  elevated : ∀ id s, h.sessions.get id = some s →
    s.elevatedUntil = 0 ∨ Since (Elevates id s.userId s.elevatedUntil bound) (Ends id s.userId) h.log

/-- The sessions that are left were there, and nothing that came to the log ends
one of them. -/
structure Narrows (h h' : Hub) : Prop where
  held : h'.held = h.held
  left : ∃ xs, h'.log = h.log ++ xs ∧ ∀ id s', h'.sessions.get id = some s' →
    ∃ s, h.sessions.get id = some s ∧ s'.userId = s.userId ∧ s'.elevatedUntil = s.elevatedUntil ∧
      ∀ x ∈ xs, ¬ Ends id s.userId x

variable {e : Env} {h h' h'' : Hub} {n m bound bound' uid : Nat} {id : Str} {x : Event}

theorem lasting_start : Lasting e 0 bound start where
  drawn id s hs := by simp [start] at hs
  held user hu := by simp [start] at hu
  elevated id s hs := by simp [start] at hs

theorem Lasting.mono (hl : Lasting e n bound h) (hnm : n ≤ m) (hb : bound ≤ bound') :
    Lasting e m bound' h where
  drawn id s hs := by
    obtain ⟨i, hi, heq⟩ := hl.drawn id s hs
    exact ⟨i, Nat.lt_of_lt_of_le hi hnm, heq⟩
  held user hu := by
    obtain ⟨⟨i, hi, heq⟩, howner⟩ := hl.held user hu
    exact ⟨⟨i, Nat.lt_of_lt_of_le hi hnm, heq⟩, howner⟩
  elevated id s hs := by
    refine (hl.elevated id s hs).imp_right fun hsince => hsince.mono ?_ fun _ hb => hb
    rintro _ ⟨secret, step, code, at_, t', rfl, huntil, hat, hle⟩
    exact ⟨secret, step, code, at_, t', rfl, huntil, hat, Nat.le_trans hle hb⟩

theorem Narrows.of_eq (hheld : h'.held = h.held) (hs : h'.sessions = h.sessions) (hlog : h'.log = h.log) :
    Narrows h h' := by
  refine ⟨hheld, [], by simp [hlog], fun id s' hget => ⟨s', ?_, rfl, rfl, by simp⟩⟩
  rw [← hs]
  exact hget

theorem Narrows.refl : Narrows h h := .of_eq rfl rfl rfl

theorem Narrows.trans (h1 : Narrows h h') (h2 : Narrows h' h'') : Narrows h h'' := by
  obtain ⟨xs, hlog, hleft⟩ := h1.left
  obtain ⟨ys, hlog', hleft'⟩ := h2.left
  refine ⟨h2.held.trans h1.held, xs ++ ys, by rw [hlog', hlog, List.append_assoc], ?_⟩
  intro id s'' hget
  obtain ⟨s', hs', huser', huntil', hends'⟩ := hleft' id s'' hget
  obtain ⟨s, hs, huser, huntil, hends⟩ := hleft id s' hs'
  refine ⟨s, hs, huser'.trans huser, huntil'.trans huntil, fun x hx => ?_⟩
  rcases List.mem_append.mp hx with hx | hx
  · exact hends x hx
  · rw [← huser]
    exact hends' x hx

/-- Sessions go, and an event comes that ends none of the others. -/
theorem narrows_drop {p : Str → Session → Bool}
    (hends : ∀ id s, p id s = false → ¬ Ends id s.userId x) :
    Narrows h ((h.dropSessions p).note x) := by
  refine ⟨rfl, [x], rfl, fun id s hget => ?_⟩
  rw [note_sessions, dropSessions_get] at hget
  refine ⟨s, hget.1, rfl, rfl, fun y hy => ?_⟩
  rw [List.mem_singleton.mp hy]
  exact hends id s hget.2

theorem Narrows.note (hn : Narrows h h') (hends : ∀ id uid, ¬ Ends id uid x) : Narrows h (h'.note x) := by
  refine hn.trans ⟨rfl, [x], rfl, fun id s hget => ⟨s, hget, rfl, rfl, fun y hy => ?_⟩⟩
  rw [List.mem_singleton.mp hy]
  exact hends id s.userId

theorem narrows_filter {p : Str → Session → Bool} : Narrows h (h.dropSessions p) := by
  refine ⟨rfl, [], by simp, fun id s hget => ?_⟩
  exact ⟨s, (dropSessions_get.mp hget).1, rfl, rfl, by simp⟩

theorem Lasting.narrow (hl : Lasting e n bound h) (hn : Narrows h h') : Lasting e n bound h' := by
  obtain ⟨xs, hlog, hleft⟩ := hn.left
  constructor
  case drawn =>
    intro id s' hget
    obtain ⟨s, hs, -⟩ := hleft id s' hget
    exact hl.drawn id s hs
  case held =>
    intro user hu
    rw [hn.held] at hu
    obtain ⟨hdrawn, howner⟩ := hl.held user hu
    refine ⟨hdrawn, fun s' hget => ?_⟩
    obtain ⟨s, hs, huser, -⟩ := hleft user.session s' hget
    rw [huser]
    exact howner s hs
  case elevated =>
    intro id s' hget
    obtain ⟨s, hs, huser, huntil, hends⟩ := hleft id s' hget
    rw [huser, huntil, hlog]
    exact (hl.elevated id s hs).imp_right fun hsince => hsince.append hends

/-! ## Requests -/

theorem narrows_failLogin (ip u : Str) : Narrows h (failLogin e ip u h) := by
  have hrow : Narrows h { h with loginFail := h.loginFail ++ [⟨ip, u, h.now e 2⟩] } := .of_eq rfl rfl rfl
  exact hrow.note fun _ _ hends => hends

theorem narrows_refuse (username code : Str) (last at_ : Nat) :
    Narrows h (refuse e username code last at_ h) := by
  rcases refuse_cases (e := e) (h := h) username code last at_ with heq | ⟨-, heq⟩
  · rw [heq]
    exact .refl
  · rw [heq]
    exact Narrows.refl.note fun _ _ hends => hends

theorem narrows_setUser {f : UserRow → UserRow} : Narrows h (h.setUser uid f) :=
  .of_eq setUser_held setUser_sessions setUser_log

theorem narrows_accept {entry : Entry} {secret : Option Str} {step at_ : Nat} {code : Str}
    (hentry : ∀ session, entry ≠ .confirm2fa session) :
    Narrows h (accept entry uid secret step code at_ h) := by
  refine narrows_setUser.note fun id uid' hends => ?_
  cases entry with
  | confirm2fa session => exact hentry session rfl
  | login => exact hends
  | begin2fa pending => exact hends
  | elevate session at_ => exact hends

/-- A login opens a session under an id of its own. -/
theorem Lasting.openSession (hl : Lasting e h.requests bound h) (hids : Distinct (idOf e) (h.requests + 1))
    (row : UserRow) : Lasting e (h.requests + 1) bound (openSession e uid row h).2 := by
  have hm := hl.mono (Nat.le_succ h.requests) (Nat.le_refl bound)
  rcases openSession_cases (e := e) (h := h) row with ⟨err, heq⟩ | ⟨-, heq⟩
  · rw [heq]
    exact hm
  · rw [heq]
    constructor
    case drawn =>
      intro id s hget
      simp only [Dict.get_set] at hget
      split at hget
      · rename_i hid
        exact ⟨h.requests, Nat.lt_succ_self _, hid⟩
      · exact hm.drawn id s hget
    case held =>
      intro user hu
      refine ⟨(hm.held user hu).1, fun s hget => ?_⟩
      obtain ⟨⟨i, hi, hid⟩, howner⟩ := hl.held user hu
      have hne : user.session ≠ e.sha256 (token e 32 h.requests) := by
        intro heq
        rw [hid] at heq
        exact hids h.requests (Nat.lt_succ_self _) i hi heq
      simp only [Dict.get_set, if_neg hne] at hget
      exact howner s hget
    case elevated =>
      intro id s hget
      simp only [Dict.get_set] at hget
      split at hget
      · cases hget
        exact .inl rfl
      · exact hm.elevated id s hget

theorem lasting_login (hl : Lasting e h.requests bound h) (hids : Distinct (idOf e) (h.requests + 1))
    (username password : Str) (otp : Option Str) (ip : Str) :
    Lasting e (h.requests + 1) bound (login e username password otp ip h).2 := by
  have hm := hl.mono (Nat.le_succ h.requests) (Nat.le_refl bound)
  rcases login_cases (e := e) (h := h) username password otp ip with
    ⟨err, heq⟩ | ⟨-, ⟨err, heq⟩ | ⟨uid, row, -, ⟨-, heq⟩ | ⟨-, -, hcode⟩⟩⟩
  · rw [heq]
    exact hm
  · rw [heq]
    exact hm.narrow (narrows_failLogin _ _)
  · rw [heq]
    exact hl.openSession hids row
  · rcases hcode with ⟨c, -, heq⟩ | ⟨err, heq⟩ | ⟨key, step, -, -, -, heq⟩
    · rw [heq]
      exact hm.narrow (Narrows.refl.note fun _ _ hends => hends)
    · rw [heq]
      exact hm.narrow ((narrows_refuse _ _ _ _).trans (narrows_failLogin _ _))
    · rw [heq]
      have hacc : Lasting e h.requests bound
          (accept .login uid row.totpSecret step (otp.getD []) (h.now e 1) h) :=
        hl.narrow (narrows_accept (by simp))
      have hreq : (accept .login uid row.totpSecret step (otp.getD []) (h.now e 1) h).requests = h.requests :=
        accept_requests
      rw [← hreq] at hacc hids ⊢
      exact hacc.openSession hids row

theorem narrows_userFromCookie (raw : Option Str) : Narrows h (userFromCookie e raw h).2 := by
  rcases userFromCookie_cases (e := e) (h := h) raw with
    ⟨-, heq | ⟨p, heq⟩⟩ | ⟨raw', s, row, -, hs, -, -, -, -, heq | heq⟩
  · rw [heq]
    exact .refl
  · rw [heq]
    exact narrows_filter
  · rw [heq]
    exact .refl
  · rw [heq]
    refine ⟨by simp, [], by simp, fun id s' hget => ?_⟩
    rw [setSession_get] at hget
    split at hget
    · rename_i hid
      rw [hs] at hget
      cases hget
      exact ⟨s, by rw [hid, hs], rfl, rfl, by simp⟩
    · exact ⟨s', hget, rfl, rfl, by simp⟩

theorem lasting_guarded (hl : Lasting e n bound h) (cfg : Settings) (g : Guard) (r : Request) :
    Lasting e n bound (h.call e cfg (.guarded g r)) := by
  have hcookie := hl.narrow (narrows_userFromCookie (e := e) r.cookie)
  rcases guarded_cases (e := e) (h := h) cfg g r with heq | ⟨user, -, huser, -, heq⟩
  · rw [heq]
    exact hcookie
  · rw [heq]
    refine ⟨hcookie.drawn, fun u hu => ?_, hcookie.elevated⟩
    rcases List.mem_append.mp hu with hu | hu
    · refine hcookie.held u ?_
      rw [(narrows_userFromCookie (e := e) (h := h) r.cookie).held]
      exact hu
    · rw [List.mem_singleton.mp hu]
      rcases userFromCookie_cases (e := e) (h := h) r.cookie with
        ⟨hnone, -⟩ | ⟨raw, s, row, -, hs, -, -, -, hsome, -⟩
      · rw [huser] at hnone
        cases hnone
      · rw [huser] at hsome
        cases hsome
        refine ⟨hl.drawn _ s hs, fun s' hget => ?_⟩
        obtain ⟨xs, -, hleft⟩ := (narrows_userFromCookie (e := e) (h := h) r.cookie).left
        obtain ⟨s₀, hs₀, hown, -⟩ := hleft _ s' hget
        rw [hs] at hs₀
        cases hs₀
        exact hown

theorem narrows_begin2fa (user : User) (code : Option Str) : Narrows h (begin2fa e user code h).2 := by
  rcases begin2fa_cases (e := e) (h := h) user code with
    ⟨err, heq⟩ | ⟨err, row, -, -, -, heq⟩ | ⟨-, heq⟩ | ⟨row, key, step, -, -, -, -, heq⟩
  · rw [heq]
    exact .refl
  · rw [heq]
    exact narrows_refuse _ _ _ _
  · rw [heq]
    exact narrows_setUser
  · rw [heq]
    exact (narrows_accept (by simp)).trans narrows_setUser

/-- A confirmation ends the other sessions of the user. -/
theorem narrows_confirm2fa (user : User) (code : Str) : Narrows h (confirm2fa e user code h).2 := by
  rcases confirm2fa_cases (e := e) (h := h) user code with
    ⟨err, heq⟩ | ⟨row, pending, step, -, -, -, heq⟩
  · rw [heq]
    exact .refl
  · rw [heq]
    refine narrows_setUser.trans (narrows_drop fun id s hkept => ?_)
    rintro ⟨huser, hne⟩
    simp [huser, Ne.symm hne] at hkept

theorem lasting_elevate {user : User} (hl : Lasting e n bound h) (hheld : user ∈ h.held) (code : Str)
    (h01 : h.now e 0 ≤ h.now e 1) (h1b : h.now e 1 ≤ bound) : Lasting e n bound (elevate e user code h).2 := by
  rcases elevate_cases (e := e) (h := h) user code with
    ⟨err, heq⟩ | ⟨err, row, -, -, -, heq⟩ | ⟨row, key, step, -, -, -, -, heq⟩
  · rw [heq]
    exact hl
  · rw [heq]
    exact hl.narrow (narrows_refuse _ _ _ _)
  · rw [heq]
    have hacc : Lasting e n bound (accept (.elevate user.session (h.now e 1)) user.id row.totpSecret
        step code (h.now e 0) h) := hl.narrow (narrows_accept (by simp))
    have hsessions : (accept (.elevate user.session (h.now e 1)) user.id row.totpSecret step code
        (h.now e 0) h).sessions = h.sessions := accept_sessions
    have hlog : (accept (.elevate user.session (h.now e 1)) user.id row.totpSecret step code
        (h.now e 0) h).log = h.log ++
          [.accepted (.elevate user.session (h.now e 1)) user.id (row.totpSecret.getD []) step code
            (h.now e 0)] := accept_log
    have hown := (hl.held user hheld).2
    generalize accept (.elevate user.session (h.now e 1)) user.id row.totpSecret step code
      (h.now e 0) h = h' at hacc hsessions hlog ⊢
    have hget' : ∀ id s', (h'.setSession user.session fun s =>
        { s with elevatedUntil := h.now e 1 + elevateSeconds }).sessions.get id = some s' →
        (id = user.session ∧ ∃ s, h'.sessions.get id = some s ∧
          s' = { s with elevatedUntil := h.now e 1 + elevateSeconds }) ∨
        h'.sessions.get id = some s' := by
      intro id s' hget
      rw [setSession_get] at hget
      split at hget
      · rename_i hid
        obtain ⟨s, hs, rfl⟩ := Option.map_eq_some_iff.mp hget
        exact .inl ⟨hid, s, by rw [hid, hs], rfl⟩
      · exact .inr hget
    constructor
    case drawn =>
      intro id s' hget
      rcases hget' id s' hget with ⟨-, s, hs, -⟩ | hs
      · exact hacc.drawn id s hs
      · exact hacc.drawn id s' hs
    case held =>
      intro u hu
      rw [setSession_held] at hu
      refine ⟨(hacc.held u hu).1, fun s' hget => ?_⟩
      rcases hget' u.session s' hget with ⟨-, s, hs, rfl⟩ | hs
      · exact (hacc.held u hu).2 s hs
      · exact (hacc.held u hu).2 s' hs
    case elevated =>
      intro id s' hget
      rw [setSession_log]
      rcases hget' id s' hget with ⟨rfl, s, hs, rfl⟩ | hs
      · rw [hsessions] at hs
        rw [hlog]
        refine .inr (.now ⟨row.totpSecret.getD [], step, code, h.now e 0, h.now e 1, ?_, rfl, h01, h1b⟩)
        rw [← hown s hs]
      · exact hacc.elevated id s' hs

theorem narrows_setPassword (uid : Nat) (password : Str) : Narrows h (setPassword e uid password h).2 := by
  rcases setPassword_cases (e := e) (h := h) uid password with ⟨err, heq⟩ | heq
  · rw [heq]
    exact .refl
  · rw [heq]
    refine narrows_setUser.trans (narrows_drop fun id s hkept hends => ?_)
    simp [Ends] at hkept hends
    exact hkept hends.symm

theorem narrows_reset2fa (uid : Nat) : Narrows h (reset2fa uid h) := by
  refine narrows_setUser.trans (narrows_drop fun id s hkept hends => ?_)
  simp [Ends] at hkept hends
  exact hkept hends.symm

theorem narrows_deleteUser (uid : Nat) : Narrows h (deleteUser uid h).2 := by
  rcases deleteUser_cases (h := h) uid with ⟨err, heq⟩ | heq
  · rw [heq]
    exact .refl
  · rw [heq]
    have hrow : Narrows h { h with users := h.users.erase uid } := .of_eq rfl rfl rfl
    refine hrow.trans (narrows_drop fun id s hkept hends => ?_)
    simp [Ends] at hkept hends
    exact hkept hends.symm

theorem narrows_createUser (username password role : Str) :
    Narrows h (createUser e username password role h).2 := by
  rcases createUser_cases (e := e) (h := h) username password role with
    ⟨err, heq⟩ | ⟨uid, row, -, -, -, -, heq⟩
  · rw [heq]
    exact .refl
  · rw [heq]
    exact .of_eq rfl rfl rfl

theorem lasting_heldUser {i : Nat} {f : User → Hub} (hl : Lasting e n bound h)
    (hf : ∀ user ∈ h.held, Lasting e n bound (f user)) : Lasting e n bound (h.heldUser i f) := by
  rcases heldUser_cases (h := h) i f with heq | ⟨user, hi, heq⟩
  · rw [heq]
    exact hl
  · rw [heq]
    exact hf user (List.mem_of_getElem? hi)

variable {cfg : Settings}

/-- The first reading of the clock by the next request bounds those so far. -/
theorem lasting_step (h : Hub) (hids : Distinct (idOf e) (h.requests + 1)) (hclock : e.Ordered) (c : Call)
    (hl : Lasting e h.requests (h.now e 0) h) :
    Lasting e (step e cfg h c).requests ((step e cfg h c).now e 0) (step e cfg h c) := by
  have hbound : ∀ k, k ≤ 4 → h.now e k ≤ e.time (4 * (h.requests + 1)) := by
    intro k hk
    refine hclock ?_
    omega
  have hl' := hl.mono (Nat.le_refl h.requests) (hbound 0 (by omega))
  have hm := hl'.mono (Nat.le_succ h.requests) (Nat.le_refl _)
  have hcall : Lasting e (h.requests + 1) (e.time (4 * (h.requests + 1))) (h.call e cfg c) := by
    cases c with
    | login username password otp ip => exact lasting_login hl' hids username password otp ip
    | logout raw => exact hm.narrow narrows_filter
    | guarded g r => exact lasting_guarded hm cfg g r
    | begin2fa i code => exact lasting_heldUser hm fun user _ => hm.narrow (narrows_begin2fa user code)
    | confirm2fa i code => exact lasting_heldUser hm fun user _ => hm.narrow (narrows_confirm2fa user code)
    | elevate i code =>
      refine lasting_heldUser hm fun user hheld => lasting_elevate hm hheld code ?_ (hbound 1 (by omega))
      exact hclock (by omega)
    | setPassword uid password => exact hm.narrow (narrows_setPassword uid password)
    | reset2fa uid => exact hm.narrow (narrows_reset2fa uid)
    | createUser username password role => exact hm.narrow (narrows_createUser username password role)
    | deleteUser uid => exact hm.narrow (narrows_deleteUser uid)
    | prune =>
      have hrows : Narrows h { h with loginFail := h.loginFail.filter fun f => h.now e 0 ≤ f.ts + failWindow } :=
        .of_eq rfl rfl rfl
      exact hm.narrow (hrows.trans narrows_filter)
    | enrollFail ip => exact hm.narrow (.of_eq rfl rfl rfl)
  exact ⟨hcall.drawn, hcall.held, hcall.elevated⟩

theorem lasting_run {cs : List Call} (hids : Distinct (idOf e) cs.length) (hclock : e.Ordered) :
    let h := runs.final (step e cfg) start cs
    Lasting e h.requests (h.now e 0) h :=
  runs.final_counted (I := fun h => Lasting e h.requests (h.now e 0) h) (P := fun _ => True) (fun _ _ => rfl)
    (fun h c hl _ hlt => lasting_step h (hids.mono hlt) hclock c hl) lasting_start (fun _ _ => trivial)
    (Nat.zero_add _).le

/-! ## The guard -/

/-- Who passes `elevated` has a session that is not too old, is an admin, and
elevated the same session at most fifteen minutes ago with a code of the active
secret that was not used before. Nothing ended the session since. -/
theorem elevated_needs_code (cs : List Call) (hids : Distinct (idOf e) cs.length)
    (hdraws : Distinct e.newTotpSecret cs.length) (hclock : e.Ordered) (hepoch : ∀ k, 0 < e.time k) (r : Request)
    (user : User) :
    let h := runs.final (step e cfg) start cs
    (guard e cfg .elevated r h).1 = .ok user →
    (∃ raw s row, r.cookie = some raw ∧ user.session = e.sha256 raw ∧
      h.sessions.get user.session = some s ∧ s.userId = user.id ∧
      h.now e 0 ≤ s.seen + sessionIdle ∧ h.now e 0 ≤ s.created + sessionMax ∧
      h.users.get user.id = some row ∧ row.role = adminRole) ∧
    ∃ before secret step code at_ t' after,
      h.log = before ++ .accepted (.elevate user.session t') user.id secret step code at_ :: after ∧
      Valid e secret step code at_ ∧ activeSecret user.id before = some secret ∧
      (∀ x ∈ before, ¬ Accepts user.id secret step x) ∧
      at_ ≤ t' ∧ t' ≤ h.now e 0 ∧ h.now e 1 ≤ t' + elevateSeconds ∧
      ∀ x ∈ after, ¬ Ends user.session user.id x := by
  intro h hok
  have hl : Lasting e h.requests (h.now e 0) h := lasting_run hids hclock
  have hg : Good e h.requests h := good_run hdraws
  obtain ⟨hcookie, herr⟩ := guard_ok hok
  obtain ⟨hrole, huntil⟩ := Guard.elevated_err herr
  rcases userFromCookie_cases (e := e) (h := h) r.cookie with
    ⟨hnone, -⟩ | ⟨raw, s, row, hraw, hs, hrow, hseen, hcreated, hsome, -⟩
  · rw [hcookie] at hnone
    cases hnone
  · rw [hcookie] at hsome
    cases hsome
    refine ⟨⟨raw, s, row, hraw, rfl, hs, rfl, hseen, hcreated, hrow, hrole⟩, ?_⟩
    rcases hl.elevated _ s hs with hzero | hsince
    · -- a session that was never elevated is past its time
      have := hepoch (4 * h.requests + 1)
      have hnow : h.now e 1 = e.time (4 * h.requests + 1) := rfl
      simp only [hzero] at huntil
      omega
    · obtain ⟨before, x, after, hcut, ⟨secret, step, code, at_, t', rfl, heq, hat, hle⟩, hends⟩ := hsince
      obtain ⟨hv, hnewer, hactive⟩ := hg.sound before _ after hcut _ _ _ _ _ _ rfl
      refine ⟨before, secret, step, code, at_, t', after, hcut, hv, hactive (by simp), ?_, hat, hle, ?_, hends⟩
      · intro x hx hacc
        exact Nat.lt_irrefl step (hnewer x hx step hacc)
      · simp only [heq] at huntil
        exact huntil

/-- The admin whose session is elevated. -/
def elevatedAdmin : User :=
  ⟨1, "admin".toList, adminRole, true, secretDigest, 1750001068⟩

theorem elevated_passes :
    let h := runs.final (step (sampleEnv slowly) panel) start renewing
    (guard (sampleEnv slowly) panel .elevated withCookie h).1 = .ok elevatedAdmin ∧
    ∃ before secret step code at_ t' after,
      h.log = before ++ .accepted (.elevate elevatedAdmin.session t') 1 secret step code at_ :: after ∧
      Valid (sampleEnv slowly) secret step code at_ ∧ activeSecret 1 before = some secret ∧
      (∀ x ∈ before, ¬ Accepts 1 secret step x) ∧ at_ ≤ t' ∧ t' ≤ h.now (sampleEnv slowly) 0 ∧
      h.now (sampleEnv slowly) 1 ≤ t' + elevateSeconds ∧
      ∀ x ∈ after, ¬ Ends elevatedAdmin.session 1 x := by
  have hok : (guard (sampleEnv slowly) panel .elevated withCookie
      (runs.final (step (sampleEnv slowly) panel) start renewing)).1 = .ok elevatedAdmin := by decide +kernel
  refine ⟨hok, (elevated_needs_code renewing ?_ ?_ ?_ ?_ withCookie elevatedAdmin hok).2⟩
  · decide +kernel
  · decide +kernel
  · intro i j hij
    simp only [sampleEnv, slowly]
    omega
  · intro k
    simp only [sampleEnv, slowly]
    omega

end icsd_panel.elevations

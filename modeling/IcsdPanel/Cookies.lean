-- The cookies of the panel: what stands behind a cookie that the hub accepts, and
-- that the last admin stays.
import IcsdPanel.Elevations

open dicts texts

namespace icsd_panel.cookies

open security accounts

open elevations (idOf)

open second_factors (renewing panel slowly)

/-! ## Where sessions come from -/

/-- The request opens the session `id` of the user `uid`: a login with the password, and
with a new code where a second factor is on. -/
def Opens (e : Env) (h : Hub) (c : Call) (id : Str) (uid created : Nat) : Prop :=
  ∃ username password otp ip row, c = .login username password otp ip ∧
    tooMany h (h.now e 0) ip (loginName e username) = false ∧
    h.named (loginName e username) = some (uid, row) ∧ verifyPassword e password row.pwHash = true ∧
    (row.totpOn = true → ∃ key step, row.totpSecret = some key ∧ row.totpLast < step ∧
      Valid e key step (otp.getD []) (h.now e 1)) ∧
    id = idOf e h.requests ∧ created = h.now e 2

/-- The request ends the session: it logs out, or the user gets a new password, loses the
second factor, is deleted, or confirms a second factor in another session. -/
def Ends (e : Env) (id : Str) (uid : Nat) (h : Hub) : Call → Prop
  | .logout raw => e.sha256 raw = id
  | .setPassword uid' password => uid' = uid ∧ checkPassword password = none
  | .reset2fa uid' => uid' = uid
  | .deleteUser uid' => uid' = uid ∧ (deleteUser uid' h).1 = .ok ()
  | .confirm2fa i code => ∃ user, h.held[i]? = some user ∧ user.id = uid ∧ user.session ≠ id ∧
      (confirm2fa e user code h).1 = .ok ()
  | _ => False

/-- The sessions of `h'` were there in `h`, of the same user and as old, and had `P`. -/
def Keeps (P : Str → Nat → Prop) (h h' : Hub) : Prop :=
  ∀ id s', h'.sessions.get id = some s' → ∃ s, h.sessions.get id = some s ∧ s'.userId = s.userId ∧
    s'.created = s.created ∧ P id s.userId

variable {e : Env} {cfg : Settings} {h h' h'' : Hub} {P : Str → Nat → Prop} {uid : Nat} {id : Str}

theorem Keeps.of_eq (hs : h'.sessions = h.sessions) (hP : ∀ id uid, P id uid) : Keeps P h h' := by
  intro id s' hget
  rw [hs] at hget
  exact ⟨s', hget, rfl, rfl, hP id s'.userId⟩

theorem keeps_drop {g : Hub} {p : Str → Session → Bool} (hg : g.sessions = h.sessions)
    (hP : ∀ id s, p id s = false → P id s.userId) : Keeps P h (g.dropSessions p) := by
  intro id s' hget
  rw [dropSessions_get, hg] at hget
  exact ⟨s', hget.1, rfl, rfl, hP id s' hget.2⟩

theorem keeps_setSession {g : Hub} {f : Session → Session} (hg : g.sessions = h.sessions)
    (hf : ∀ s, (f s).userId = s.userId ∧ (f s).created = s.created) (hP : ∀ id uid, P id uid) :
    Keeps P h (g.setSession id f) := by
  intro id' s' hget
  rw [setSession_get, hg] at hget
  split at hget
  · rename_i hid
    obtain ⟨s, hs, rfl⟩ := Option.map_eq_some_iff.mp hget
    exact ⟨s, by rw [hid, hs], (hf s).1, (hf s).2, hP _ _⟩
  · exact ⟨s', hget, rfl, rfl, hP _ _⟩

/-- Sessions go after a change of rows, and the log grows. -/
theorem keeps_dropped {g : Hub} {p : Str → Session → Bool} {x : Event} (hg : g.sessions = h.sessions)
    (hP : ∀ id s, p id s = false → P id s.userId) : Keeps P h ((g.dropSessions p).note x) :=
  keeps_drop hg hP

theorem keeps_userFromCookie (raw : Option Str) (hP : ∀ id uid, P id uid) :
    Keeps P h (userFromCookie e raw h).2 := by
  rcases userFromCookie_cases (e := e) (h := h) raw with
    ⟨-, heq | ⟨p, heq⟩⟩ | ⟨raw', s, row, -, -, -, -, -, -, heq | heq⟩
  · rw [heq]
    exact .of_eq rfl hP
  · rw [heq]
    exact keeps_drop rfl fun id s _ => hP id s.userId
  · rw [heq]
    exact .of_eq rfl hP
  · rw [heq]
    exact keeps_setSession rfl (fun s => ⟨rfl, rfl⟩) hP

theorem refuse_sessions (username code : Str) (last at_ : Nat) :
    (refuse e username code last at_ h).sessions = h.sessions := by
  rcases refuse_cases (e := e) (h := h) username code last at_ with heq | ⟨-, heq⟩
  · rw [heq]
  · rw [heq, note_sessions]

theorem begin2fa_sessions (user : User) (code : Option Str) : (begin2fa e user code h).2.sessions = h.sessions := by
  rcases begin2fa_cases (e := e) (h := h) user code with
    ⟨err, heq⟩ | ⟨err, row, -, -, -, heq⟩ | ⟨-, heq⟩ | ⟨row, key, step, -, -, -, -, heq⟩
  · rw [heq]
  · rw [heq]
    exact refuse_sessions _ _ _ _
  · rw [heq]
    simp [install]
  · rw [heq]
    simp [install]

theorem keeps_elevate (user : User) (code : Str) (hP : ∀ id uid, P id uid) :
    Keeps P h (elevate e user code h).2 := by
  rcases elevate_cases (e := e) (h := h) user code with
    ⟨err, heq⟩ | ⟨err, row, -, -, -, heq⟩ | ⟨row, key, step, -, -, -, -, heq⟩
  · rw [heq]
    exact .of_eq rfl hP
  · rw [heq]
    exact .of_eq (refuse_sessions _ _ _ _) hP
  · rw [heq]
    exact keeps_setSession accept_sessions (fun s => ⟨rfl, rfl⟩) hP

/-- A confirmation leaves the sessions that it does not end. -/
theorem keeps_confirm2fa (user : User) (code : Str) : Keeps (fun id uid => ¬ (user.id = uid ∧ user.session ≠ id ∧
    (confirm2fa e user code h).1 = .ok ())) h (confirm2fa e user code h).2 := by
  rcases confirm2fa_cases (e := e) (h := h) user code with ⟨err, heq⟩ | ⟨row, pending, step, -, -, -, heq⟩
  · rw [heq]
    exact .of_eq rfl fun id uid => by simp
  · rw [heq]
    refine keeps_dropped setUser_sessions fun id s hkept => ?_
    rintro ⟨huser, hne, -⟩
    simp [huser, Ne.symm hne] at hkept

theorem keeps_setPassword (uid : Nat) (password : Str) :
    Keeps (fun _ uid' => ¬ (uid = uid' ∧ checkPassword password = none)) h (setPassword e uid password h).2 := by
  unfold setPassword
  split
  next err herr => exact .of_eq rfl fun id uid' => by simp [herr]
  next =>
    refine keeps_dropped setUser_sessions fun id s hkept => ?_
    rintro ⟨huser, -⟩
    simp [huser] at hkept

theorem keeps_reset2fa (uid : Nat) : Keeps (fun _ uid' => uid ≠ uid') h (reset2fa uid h) := by
  refine keeps_dropped setUser_sessions fun id s hkept huser => ?_
  simp [huser] at hkept

theorem keeps_deleteUser (uid : Nat) :
    Keeps (fun _ uid' => ¬ (uid = uid' ∧ (deleteUser uid h).1 = .ok ())) h (deleteUser uid h).2 := by
  rcases deleteUser_cases (h := h) uid with ⟨err, heq⟩ | heq
  · rw [heq]
    exact .of_eq rfl fun id uid' => by simp
  · rw [heq]
    refine keeps_dropped (g := { h with users := h.users.erase uid }) rfl fun id s hkept => ?_
    rintro ⟨huser, -⟩
    simp [huser] at hkept

theorem createUser_sessions (username password role : Str) :
    (createUser e username password role h).2.sessions = h.sessions := by
  rcases createUser_cases (e := e) (h := h) username password role with ⟨err, heq⟩ | ⟨uid, row, -, -, -, -, heq⟩
  · rw [heq]
  · rw [heq]

theorem guarded_sessions (g : Guard) (r : Request) :
    (h.call e cfg (.guarded g r)).sessions = (userFromCookie e r.cookie h).2.sessions := by
  rcases guarded_cases (e := e) (h := h) cfg g r with heq | ⟨user, -, -, -, heq⟩
  · rw [heq]
  · rw [heq]

/-! ## A login -/

variable {username password : Str} {otp : Option Str} {ip : Str} {s' : Session} {row : UserRow}

/-- A session after `openSession` was there, or is the new one. -/
theorem openSession_session (hget : (openSession e uid row h).2.sessions.get id = some s') :
    h.sessions.get id = some s' ∨
      (id = idOf e h.requests ∧ s'.userId = uid ∧ s'.created = h.now e 2) := by
  rcases openSession_cases (e := e) (h := h) row with ⟨err, heq⟩ | ⟨-, heq⟩
  · rw [heq] at hget
    exact .inl hget
  · rw [heq, Dict.get_set] at hget
    split at hget
    next hid =>
      cases hget
      exact .inr ⟨hid, rfl, rfl⟩
    next => exact .inl hget

theorem failLogin_sessions (u : Str) : (failLogin e ip u h).sessions = h.sessions := rfl

/-- A wrong password opens nothing. -/
theorem login_refused (hn : h.named (loginName e username) = some (uid, row))
    (hpw : verifyPassword e password row.pwHash = false) :
    (login e username password otp ip h).2.sessions = h.sessions := by
  unfold login
  simp only [hn, hpw, Bool.not_false, if_true]
  split <;> rfl

/-- A session after a login was there before, or the login opened it. -/
theorem login_session (hget : (login e username password otp ip h).2.sessions.get id = some s') :
    h.sessions.get id = some s' ∨ Opens e h (.login username password otp ip) id s'.userId s'.created := by
  rcases login_cases (e := e) (h := h) username password otp ip with
    ⟨err, heq⟩ | ⟨hfew, ⟨err, heq⟩ | ⟨uid, row, hn, ⟨hoff, heq⟩ | ⟨hon, hpw, hcode⟩⟩⟩
  · rw [heq] at hget
    exact .inl hget
  · rw [heq] at hget
    exact .inl hget
  · cases hpw : verifyPassword e password row.pwHash with
    | false =>
      rw [login_refused hn hpw] at hget
      exact .inl hget
    | true =>
      rw [heq] at hget
      refine (openSession_session hget).imp_right ?_
      rintro ⟨hid, rfl, hcreated⟩
      exact ⟨username, password, otp, ip, row, rfl, hfew, hn, hpw, by simp [hoff], hid, hcreated⟩
  · rcases hcode with ⟨c, -, heq⟩ | ⟨err, heq⟩ | ⟨key, step, hkey, hlt, hvalid, heq⟩
    · rw [heq] at hget
      exact .inl hget
    · rw [heq, failLogin_sessions, refuse_sessions] at hget
      exact .inl hget
    · rw [heq] at hget
      rcases openSession_session hget with hold | ⟨hid, rfl, hcreated⟩
      · rw [accept_sessions] at hold
        exact .inl hold
      · refine .inr ⟨username, password, otp, ip, row, rfl, hfew, hn, hpw, fun _ => ?_, ?_, ?_⟩
        · exact ⟨key, step, hkey, hlt, hvalid⟩
        · rw [accept_requests] at hid
          exact hid
        · rw [hcreated]
          simp [Hub.now]

/-! ## Runs -/

theorem Keeps.heldUser {i : Nat} {f : User → Hub} (hnone : h.held[i]? = none → ∀ id uid, P id uid)
    (hf : ∀ user, h.held[i]? = some user → Keeps P h (f user)) : Keeps P h (h.heldUser i f) := by
  cases hi : h.held[i]? with
  | none =>
    unfold Hub.heldUser
    rw [hi]
    exact .of_eq rfl (hnone hi)
  | some user =>
    have hk := hf user hi
    unfold Hub.heldUser
    rw [hi]
    exact hk

theorem Keeps.step (cfg : Settings) {c : Call} (hk : Keeps (fun id uid => ¬ Ends e id uid h c) h (h.call e cfg c))
    (hget : (step e cfg h c).sessions.get id = some s') : ∃ s, h.sessions.get id = some s ∧
      s'.userId = s.userId ∧ s'.created = s.created ∧ ¬ Ends e id s.userId h c := hk id s' hget

/-- A session after a request was there, of the same user and as old, and the request
did not end it, or the request opened it. -/
theorem session_step (c : Call) (hget : (step e cfg h c).sessions.get id = some s') :
    (∃ s, h.sessions.get id = some s ∧ s'.userId = s.userId ∧ s'.created = s.created ∧
      ¬ Ends e id s.userId h c) ∨ Opens e h c id s'.userId s'.created := by
  cases c with
  | login username password otp ip =>
    refine (login_session hget).imp_left fun hold => ⟨s', hold, rfl, rfl, ?_⟩
    simp [Ends]
  | logout raw =>
    refine .inl (Keeps.step cfg (keeps_drop rfl fun id s hkept => ?_) hget)
    simpa [Ends, eq_comm] using hkept
  | guarded g r =>
    refine .inl (Keeps.step cfg ?_ hget)
    intro id s' hget
    rw [guarded_sessions] at hget
    exact keeps_userFromCookie r.cookie (fun _ _ => not_false) id s' hget
  | begin2fa i code =>
    refine .inl (Keeps.step cfg (Keeps.heldUser (fun _ _ _ => not_false) fun user _ => ?_) hget)
    exact .of_eq (begin2fa_sessions user code) fun _ _ => not_false
  | confirm2fa i code =>
    refine .inl (Keeps.step cfg (Keeps.heldUser (fun hi id uid => ?_) fun user hi => ?_) hget)
    · simp [Ends, hi]
    · intro id s' hget
      obtain ⟨s, hs, huser, hcreated, hends⟩ := keeps_confirm2fa user code id s' hget
      refine ⟨s, hs, huser, hcreated, ?_⟩
      simpa [Ends, hi] using hends
  | elevate i code =>
    refine .inl (Keeps.step cfg (Keeps.heldUser (fun _ _ _ => not_false) fun user _ => ?_) hget)
    exact keeps_elevate user code fun _ _ => not_false
  | setPassword uid password => exact .inl (Keeps.step cfg (keeps_setPassword uid password) hget)
  | reset2fa uid => exact .inl (Keeps.step cfg (keeps_reset2fa uid) hget)
  | createUser username password role =>
    refine .inl (Keeps.step cfg (.of_eq ?_ fun _ _ => not_false) hget)
    exact createUser_sessions username password role
  | deleteUser uid => exact .inl (Keeps.step cfg (keeps_deleteUser uid) hget)
  | prune => exact .inl (Keeps.step cfg (keeps_drop rfl fun _ _ _ => not_false) hget)
  | enrollFail ip => exact .inl (Keeps.step cfg (.of_eq rfl fun _ _ => not_false) hget)

/-- An earlier login opened the session, and no request ended it since. -/
def Opened (e : Env) (cfg : Settings) (cs : List Call) (id : Str) (uid created : Nat) : Prop :=
  ∃ before c after, cs = before ++ c :: after ∧
    Opens e (runs.final (accounts.step e cfg) start before) c id uid created ∧
    runs.Throughout (accounts.step e cfg) (fun h c => ¬ Ends e id uid h c)
      (runs.final (accounts.step e cfg) start (before ++ [c])) after

theorem opened_run (cs : List Call) {s : Session}
    (hget : (runs.final (accounts.step e cfg) start cs).sessions.get id = some s) :
    Opened e cfg cs id s.userId s.created := by
  induction cs using List.reverseRecOn generalizing s with
  | nil => simp [runs.final, start] at hget
  | append_singleton cs c ih =>
    rw [runs.final_append] at hget
    rcases session_step c hget with ⟨s0, hs0, huser, hcreated, hends⟩ | hopens
    · obtain ⟨before, c0, after, rfl, hopens, hsince⟩ := ih hs0
      refine ⟨before, c0, after ++ [c], by simp, ?_, ?_⟩
      · rw [huser, hcreated]
        exact hopens
      · rw [huser, runs.throughout_append]
        refine ⟨hsince, ?_, trivial⟩
        rw [← runs.final_append, List.append_assoc, List.singleton_append]
        exact hends
    · exact ⟨cs, c, [], rfl, hopens, trivial⟩

/-- In every run a cookie is accepted only as the user who logged in for it, with the
password and with a new code where a second factor was on, at most seven days ago, and
only while no request ended its session and the user was not deleted. -/
theorem cookie_from_login (cs : List Call) {raw : Option Str} {user : User}
    (hfound : (userFromCookie e raw (runs.final (accounts.step e cfg) start cs)).1 = some user) :
    ∃ cookie row created, raw = some cookie ∧ user.session = e.sha256 cookie ∧
      Opened e cfg cs user.session user.id created ∧
      (runs.final (accounts.step e cfg) start cs).now e 0 ≤ created + sessionMax ∧
      (runs.final (accounts.step e cfg) start cs).users.get user.id = some row ∧
      user.role = row.role ∧ user.username = row.username := by
  rcases userFromCookie_cases (e := e) raw with ⟨hnone, -⟩ | ⟨cookie, s, row, hraw, hs, hrow, -, hage, hsome, -⟩
  · rw [hfound] at hnone
    cases hnone
  · rw [hfound] at hsome
    cases hsome
    exact ⟨cookie, row, s.created, hraw, rfl, opened_run cs hs, hage, hrow, rfl, rfl⟩

/-- The first login of the sample run, and its cookie. -/
theorem first_cookie : ∃ cookie row created, some someSecret = some cookie ∧
    secretDigest = (sampleEnv slowly).sha256 cookie ∧
    Opened (sampleEnv slowly) panel (renewing.take 2) secretDigest 1 created ∧
    (runs.final (accounts.step (sampleEnv slowly) panel) start (renewing.take 2)).now (sampleEnv slowly) 0 ≤
      created + sessionMax ∧
    (runs.final (accounts.step (sampleEnv slowly) panel) start (renewing.take 2)).users.get 1 = some row ∧
    adminRole = row.role ∧ "admin".toList = row.username :=
  @cookie_from_login (sampleEnv slowly) panel (renewing.take 2) (some someSecret)
    ⟨1, "admin".toList, adminRole, false, secretDigest, 0⟩ (by decide +kernel)

/-! ## The last admin -/

def HasAdmin (h : Hub) : Prop := ∃ uid row, h.users.get uid = some row ∧ row.role = adminRole

theorem HasAdmin.congr (ha : HasAdmin h) (hu : h'.users = h.users) : HasAdmin h' := by
  obtain ⟨uid, row, hrow, hrole⟩ := ha
  exact ⟨uid, row, by rw [hu, hrow], hrole⟩

/-- An update that keeps the role of every user keeps the admins. -/
theorem HasAdmin.setUser {f : UserRow → UserRow} (ha : HasAdmin h) (hf : ∀ row, (f row).role = row.role) :
    HasAdmin (h.setUser uid f) := by
  obtain ⟨uid', row, hrow, hrole⟩ := ha
  by_cases huid : uid' = uid
  · subst huid
    exact ⟨uid', f row, by rw [setUser_get_self, hrow]; rfl, (hf row).trans hrole⟩
  · exact ⟨uid', row, by rw [setUser_get_ne huid, hrow], hrole⟩

/-- A user that may be deleted is no admin, or another one is. -/
theorem other_admin {users : Dict Nat UserRow} {target : UserRow} (hrow : users.get uid = some target)
    (hmany : ¬ (target.role = adminRole ∧ (users.entries.filter fun r => r.2.role = adminRole).length ≤ 1))
    (ha : ∃ uid' row, users.get uid' = some row ∧ row.role = adminRole) :
    ∃ uid' row, uid' ≠ uid ∧ users.get uid' = some row ∧ row.role = adminRole := by
  by_contra hnone
  push Not at hnone
  obtain ⟨uid', row, hget, hrole⟩ := ha
  obtain rfl : uid' = uid := by
    by_contra hne
    exact hnone uid' row hne hget hrole
  rw [hget] at hrow
  cases hrow
  -- all admins of the table have the one id
  have hall : ∀ r ∈ users.entries.filter fun r => r.2.role = adminRole, r = (uid', target) := by
    intro r hr
    obtain ⟨hr, hadmin⟩ := List.mem_filter.mp hr
    have hr' : users.get r.1 = some r.2 := Dict.mem_entries.mp hr
    by_cases hid : r.1 = uid'
    · rw [hid, hget] at hr'
      cases hr'
      exact Prod.ext hid rfl
    · exact absurd (by simpa using hadmin) (hnone r.1 r.2 hid hr')
  have hnodup : (users.entries.filter fun r => r.2.role = adminRole).Nodup :=
    (List.Nodup.of_map _ users.distinct).filter _
  refine hmany ⟨hrole, ?_⟩
  rcases hlist : users.entries.filter fun r => r.2.role = adminRole with - | ⟨a, - | ⟨b, l⟩⟩
  · rw [hlist]
    exact Nat.zero_le 1
  · rw [hlist]
    exact Nat.le_refl 1
  · rw [hlist] at hall hnodup
    have hab : a = b := (hall a (by simp)).trans (hall b (by simp)).symm
    simp [hab] at hnodup

theorem HasAdmin.deleteUser (ha : HasAdmin h) (uid : Nat) : HasAdmin (deleteUser uid h).2 := by
  unfold accounts.deleteUser
  split
  · exact ha
  next target hrow =>
    split
    · exact ha
    next hmany =>
      obtain ⟨uid', row, hne, hget, hrole⟩ := other_admin hrow hmany ha
      exact ⟨uid', row, by simp [Dict.get_erase_ne hne, hget], hrole⟩

theorem HasAdmin.createUser (ha : HasAdmin h) (username password role : Str) :
    HasAdmin (createUser e username password role h).2 := by
  rcases createUser_cases (e := e) (h := h) username password role with
    ⟨err, heq⟩ | ⟨uid, row, hfree, -, -, -, heq⟩
  · rw [heq]
    exact ha
  · rw [heq]
    obtain ⟨uid', row', hget, hrole⟩ := ha
    have hne : uid' ≠ uid := by
      rintro rfl
      rw [hfree] at hget
      cases hget
    exact ⟨uid', row', by simp [Dict.get_set_ne hne, hget], hrole⟩

theorem HasAdmin.accept {entry : Entry} {secret : Option Str} {step at_ : Nat} {code : Str} (ha : HasAdmin h) :
    HasAdmin (accept entry uid secret step code at_ h) := ha.setUser fun _ => rfl

theorem HasAdmin.refuse (ha : HasAdmin h) (username code : Str) (last at_ : Nat) :
    HasAdmin (refuse e username code last at_ h) := by
  rcases refuse_cases (e := e) (h := h) username code last at_ with heq | ⟨-, heq⟩
  · rw [heq]
    exact ha
  · rw [heq]
    exact ha

theorem HasAdmin.openSession (ha : HasAdmin h) (row : UserRow) : HasAdmin (openSession e uid row h).2 :=
  ha.congr (by rw [openSession_eq])

theorem HasAdmin.login (ha : HasAdmin h) (username password : Str) (otp : Option Str) (ip : Str) :
    HasAdmin (login e username password otp ip h).2 := by
  rcases login_cases (e := e) (h := h) username password otp ip with
    ⟨err, heq⟩ | ⟨-, ⟨err, heq⟩ | ⟨uid, row, -, ⟨-, heq⟩ | ⟨-, -, hcode⟩⟩⟩
  · rw [heq]
    exact ha
  · rw [heq]
    exact ha.congr rfl
  · rw [heq]
    exact ha.openSession row
  · rcases hcode with ⟨c, -, heq⟩ | ⟨err, heq⟩ | ⟨key, step, -, -, -, heq⟩
    · rw [heq]
      exact ha
    · rw [heq]
      exact (ha.refuse _ _ _ _).congr rfl
    · rw [heq]
      exact ha.accept.openSession row

theorem HasAdmin.begin2fa (ha : HasAdmin h) (user : User) (code : Option Str) :
    HasAdmin (begin2fa e user code h).2 := by
  rcases begin2fa_cases (e := e) (h := h) user code with
    ⟨err, heq⟩ | ⟨err, row, -, -, -, heq⟩ | ⟨-, heq⟩ | ⟨row, key, step, -, -, -, -, heq⟩
  · rw [heq]
    exact ha
  · rw [heq]
    exact ha.refuse _ _ _ _
  · rw [heq]
    exact ha.setUser fun _ => rfl
  · rw [heq]
    exact ha.accept.setUser fun _ => rfl

theorem HasAdmin.confirm2fa (ha : HasAdmin h) (user : User) (code : Str) : HasAdmin (confirm2fa e user code h).2 := by
  rcases confirm2fa_cases (e := e) (h := h) user code with ⟨err, heq⟩ | ⟨row, pending, step, -, -, -, heq⟩
  · rw [heq]
    exact ha
  · rw [heq]
    exact ha.setUser fun _ => rfl

theorem HasAdmin.elevate (ha : HasAdmin h) (user : User) (code : Str) : HasAdmin (elevate e user code h).2 := by
  rcases elevate_cases (e := e) (h := h) user code with
    ⟨err, heq⟩ | ⟨err, row, -, -, -, heq⟩ | ⟨row, key, step, -, -, -, -, heq⟩
  · rw [heq]
    exact ha
  · rw [heq]
    exact ha.refuse _ _ _ _
  · rw [heq]
    exact ha.accept.congr setSession_users

theorem HasAdmin.heldUser {i : Nat} {f : User → Hub} (ha : HasAdmin h) (hf : ∀ user, HasAdmin (f user)) :
    HasAdmin (h.heldUser i f) := by
  rcases heldUser_cases (h := h) i f with heq | ⟨user, -, heq⟩
  · rw [heq]
    exact ha
  · rw [heq]
    exact hf user

theorem hasAdmin_step (c : Call) (ha : HasAdmin h) : HasAdmin (step e cfg h c) := by
  have hcall : HasAdmin (h.call e cfg c) := by
    cases c with
    | login username password otp ip => exact ha.login username password otp ip
    | logout raw => exact ha
    | guarded g r =>
      have hcookie : HasAdmin (userFromCookie e r.cookie h).2 := ha.congr (by rw [userFromCookie_eq])
      rcases guarded_cases (e := e) (h := h) cfg g r with heq | ⟨user, -, -, -, heq⟩
      · rw [heq]
        exact hcookie
      · rw [heq]
        exact hcookie
    | begin2fa i code => exact ha.heldUser fun user => ha.begin2fa user code
    | confirm2fa i code => exact ha.heldUser fun user => ha.confirm2fa user code
    | elevate i code => exact ha.heldUser fun user => ha.elevate user code
    | setPassword uid password =>
      rcases setPassword_cases (e := e) (h := h) uid password with ⟨err, heq⟩ | heq
      · simpa only [Hub.call, heq] using ha
      · simp only [Hub.call, heq]
        exact ha.setUser fun _ => rfl
    | reset2fa uid => exact ha.setUser fun _ => rfl
    | createUser username password role => exact ha.createUser username password role
    | deleteUser uid => exact ha.deleteUser uid
    | prune => exact ha
    | enrollFail ip => exact ha
  exact hcall

/-- Once the panel has an admin it always has one, whatever is asked of it. -/
theorem admin_stays (cs cs' : List Call) (ha : HasAdmin (runs.final (accounts.step e cfg) start cs)) :
    HasAdmin (runs.final (accounts.step e cfg) start (cs ++ cs')) := by
  rw [runs.final_append]
  exact runs.final_invariant (P := fun _ => True) (fun _ c ha _ => hasAdmin_step c ha) ha fun _ _ => trivial

/-- A second admin comes, and then each of the two is to be deleted. -/
def dismissals : List Call :=
  [.createUser "second".toList "correct-horse-2".toList adminRole, .deleteUser 1, .deleteUser 2]

theorem dismissals_admin :
    HasAdmin (runs.final (accounts.step (sampleEnv slowly) panel) start (renewing.take 1 ++ dismissals)) :=
  admin_stays (renewing.take 1) dismissals
    ⟨1, ⟨"admin".toList, "$2b$12$correct-horse-1".toList, adminRole, none, false, 0, none⟩, by decide +kernel, rfl⟩

end icsd_panel.cookies

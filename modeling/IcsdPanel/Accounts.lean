-- Accounts, sessions and the guards of the hub. First the guard of a request lets
-- a user through, later its handler goes on with that user, and other requests may
-- come between. An async guard is one turn of the event loop; a sync one runs in a
-- worker thread and counts as one step at its `SELECT`.
import IcsdPanel.Dicts
import IcsdPanel.Logs
import IcsdPanel.Runs
import IcsdPanel.Security

open dicts logs texts

namespace icsd_panel.accounts

open security

/-! ## State -/

def failWindow : Nat := 15 * 60

def maxFailIp : Nat := 10

def maxFailUser : Nat := 8

def elevateSeconds : Nat := 15 * 60

def sessionIdle : Nat := 12 * 3600

def sessionMax : Nat := 7 * 86400

structure Settings where
  require2fa : Bool
  publicUrl : Str

/-- A row of `users`. -/
structure UserRow where
  username : Str
  pwHash : Str
  role : Str
  totpSecret : Option Str
  totpOn : Bool
  totpLast : Nat
  totpPending : Option Str
deriving DecidableEq

/-- A row of `sessions`, without its key. -/
structure Session where
  userId : Nat
  created : Nat
  seen : Nat
  elevatedUntil : Nat
deriving DecidableEq

/-- A row of `login_fail`. -/
structure Fail where
  ip : Str
  username : Str
  ts : Nat
deriving DecidableEq

/-- What a guard knows of a user. -/
structure User where
  id : Nat
  username : Str
  role : Str
  totpOn : Bool
  session : Str
  elevatedUntil : Nat
deriving DecidableEq

def adminRole : Str := "admin".toList

def roles : List Str := [adminRole, "viewer".toList]

def User.isAdmin (u : User) : Bool := u.role = adminRole

/-- Where a one-time code is accepted: a pending secret is installed by
`begin2fa`, a session confirms it, and a session is elevated at a time. -/
inductive Entry
  | login
  | begin2fa (pending : Str)
  | confirm2fa (session : Str)
  | elevate (session : Str) (at_ : Nat)
deriving DecidableEq

/-- What happened. A wrong code is one that was compared with the active secret
of a user. -/
inductive Event
  | accepted (entry : Entry) (uid : Nat) (secret : Str) (step : Nat) (code : Str) (at_ : Nat)
  | wrongCode (username : Str) (at_ : Nat)
  | loginFailed (username ip : Str) (at_ : Nat)
  | passwordSet (uid : Nat)
  | reset (uid : Nat)
  | deleted (uid : Nat)
deriving DecidableEq

/-- The tables, the users that guards let through, the number of the requests so
far, and a log that no request reads. -/
structure Hub where
  users : Dict Nat UserRow
  sessions : Dict Str Session
  loginFail : List Fail
  held : List User
  requests : Nat
  log : List Event

def start : Hub := ⟨.empty, .empty, [], [], 0, []⟩

/-- The clock as the next request reads it. -/
def Hub.now (e : Env) (h : Hub) (k : Nat) : Nat := e.now h.requests k

def Hub.note (h : Hub) (x : Event) : Hub := { h with log := h.log ++ [x] }

/-- `UPDATE users SET … WHERE id=?` -/
def Hub.setUser (h : Hub) (uid : Nat) (f : UserRow → UserRow) : Hub :=
  match h.users.get uid with
  | none => h
  | some row => { h with users := h.users.set uid (f row) }

/-- `UPDATE sessions SET … WHERE id_hash=?` -/
def Hub.setSession (h : Hub) (id : Str) (f : Session → Session) : Hub :=
  match h.sessions.get id with
  | none => h
  | some row => { h with sessions := h.sessions.set id (f row) }

/-- `DELETE FROM sessions WHERE …` -/
def Hub.dropSessions (h : Hub) (p : Str → Session → Bool) : Hub :=
  { h with sessions := h.sessions.filter fun id row => !p id row }

/-- `AuthError` with the key that its `extra` sets, `HTTPException`, and what no
handler expects. -/
inductive Err
  | auth (message : String) (status : Nat) (extra : Option String)
  | http (status : Nat) (detail : String)
  | crash (c : Crash)
deriving DecidableEq

/-! ## Accounts -/

/-- `_clean_username` -/
def cleanUsername (e : Env) (username : Str) : Except Err Str :=
  let u := e.lower (strip username)
  if 3 ≤ u.length ∧ u.length ≤ 32 ∧ u.all (fun c => e.isalnum c || c ∈ "._-".toList) then .ok u
  else .error (.auth "نام کاربری ۳ تا ۳۲ نویسه، فقط حروف لاتین، عدد و . _ -" 400 none)

/-- `_check_password` -/
def checkPassword (password : Str) : Option Err :=
  if password.length < minPassword then
    some (.auth s!"رمز باید دست‌کم {minPassword} نویسه باشد" 400 none)
  else none

/-- The row id that SQLite gives to a new row. -/
def nextId (users : Dict Nat UserRow) : Nat := users.keys.foldl max 0 + 1

/-- `SELECT … FROM users WHERE username=?` -/
def Hub.named (h : Hub) (u : Str) : Option (Nat × UserRow) := h.users.entries.find? fun r => r.2.username = u

/-- `create_user` -/
def createUser (e : Env) (username password role : Str) (h : Hub) : Except Err Nat × Hub :=
  match cleanUsername e username with
  | .error err => (.error err, h)
  | .ok u =>
    match checkPassword password with
    | some err => (.error err, h)
    | none =>
      if role ∉ roles then (.error (.auth "نقش نامعتبر" 400 none), h)
      else if (h.named u).isSome then (.error (.auth "این نام کاربری وجود دارد" 400 none), h)
      else
        let uid := nextId h.users
        let row : UserRow := ⟨u, e.hashPassword password h.requests, role, none, false, 0, none⟩
        (.ok uid, { h with users := h.users.set uid row })

/-- `delete_user`; the sessions of the user go with its row. -/
def deleteUser (uid : Nat) (h : Hub) : Except Err Unit × Hub :=
  match h.users.get uid with
  | none => (.error (.auth "کاربر پیدا نشد" 404 none), h)
  | some target =>
    if target.role = adminRole ∧ (h.users.entries.filter fun r => r.2.role = adminRole).length ≤ 1 then
      (.error (.auth "آخرین مدیر را نمی‌شود حذف کرد" 400 none), h)
    else
      (.ok (), (Hub.dropSessions { h with users := h.users.erase uid } fun _ s => s.userId = uid).note (.deleted uid))

/-- `set_password`: it logs out everywhere. -/
def setPassword (e : Env) (uid : Nat) (password : Str) (h : Hub) : Except Err Unit × Hub :=
  match checkPassword password with
  | some err => (.error err, h)
  | none =>
    (.ok (), ((h.setUser uid fun row => { row with pwHash := e.hashPassword password h.requests }).dropSessions
      fun _ s => s.userId = uid).note (.passwordSet uid))

/-- `reset_2fa` -/
def reset2fa (uid : Nat) (h : Hub) : Hub :=
  ((h.setUser uid fun row =>
    { row with totpOn := false, totpSecret := none, totpPending := none, totpLast := 0 }).dropSessions
      fun _ s => s.userId = uid).note (.reset uid)

/-! ## Brute force -/

/-- `_too_many`: `ts > now - FAIL_WINDOW` -/
def tooMany (h : Hub) (now : Nat) (ip username : Str) : Bool :=
  maxFailIp ≤ (h.loginFail.filter fun f => f.ip = ip ∧ now < f.ts + failWindow).length ||
    maxFailUser ≤ (h.loginFail.filter fun f => f.username = username ∧ now < f.ts + failWindow).length

/-- `_fail`, after a check at the second reading of the clock. -/
def failLogin (e : Env) (ip username : Str) (h : Hub) : Hub :=
  Hub.note { h with loginFail := h.loginFail ++ [⟨ip, username, h.now e 2⟩] } (.loginFailed username ip (h.now e 1))

/-- `prune` -/
def prune (e : Env) (h : Hub) : Hub :=
  let now := h.now e 0
  Hub.dropSessions { h with loginFail := h.loginFail.filter fun f => now ≤ f.ts + failWindow }
    fun _ s => s.seen + sessionIdle < now || s.created + sessionMax < now

/-! ## Login and sessions -/

/-- A code is accepted: its step is the last of the user. -/
def accept (entry : Entry) (uid : Nat) (secret : Option Str) (step : Nat) (code : Str) (at_ : Nat) (h : Hub) : Hub :=
  (h.setUser uid fun row => { row with totpLast := step }).note
    (.accepted entry uid (secret.getD []) step code at_)

/-- A refused code is a wrong one where it was compared. -/
def refuse (e : Env) (username code : Str) (last : Nat) (at_ : Nat) (h : Hub) : Hub :=
  if compares e code last at_ then h.note (.wrongCode username at_) else h

/-- The end of `login`: a session with a new cookie. -/
def openSession (e : Env) (uid : Nat) (row : UserRow) (h : Hub) : Except Err (Str × User) × Hub :=
  let raw := token e 32 h.requests
  let id := e.sha256 raw
  let now := h.now e 2
  -- `id_hash` is the primary key
  if id ∈ h.sessions.keys then (.error (.crash .integrityError), h)
  else
    (.ok (raw, ⟨uid, row.username, row.role, row.totpOn, [], 0⟩),
      { h with sessions := h.sessions.set id ⟨uid, now, now, 0⟩ })

/-- The name that a login counts under. -/
def loginName (e : Env) (username : Str) : Str := (e.lower (strip username)).take 64

/-- `login` -/
def login (e : Env) (username password : Str) (otp : Option Str) (ip : Str) (h : Hub) :
    Except Err (Str × User) × Hub :=
  let u := loginName e username
  if tooMany h (h.now e 0) ip u then
    (.error (.auth "تلاشِ ناموفقِ زیاد؛ ۱۵ دقیقهٔ دیگر دوباره امتحان کنید" 429 none), h)
  else
    match h.named u with
    | none => (.error (.auth "نام کاربری یا رمز نادرست است" 401 none), failLogin e ip u h)
    | some (uid, row) =>
      if !verifyPassword e password row.pwHash then
        (.error (.auth "نام کاربری یا رمز نادرست است" 401 none), failLogin e ip u h)
      else if !row.totpOn then openSession e uid row h
      else
        let code := otp.getD []
        if code = [] then (.error (.auth "کد رمز دوم را وارد کنید" 401 (some "need_otp")), h)
        else
          match verifyTotp e row.totpSecret code row.totpLast (h.now e 1) with
          -- the check fails, and nothing counts it
          | .error c => (.error (.crash c), h.note (.loginFailed u ip (h.now e 1)))
          | .ok step =>
            if step = 0 then
              (.error (.auth "کد رمز دوم نادرست است" 401 (some "need_otp")),
                failLogin e ip u (refuse e row.username code row.totpLast (h.now e 1) h))
            else openSession e uid row (accept .login uid row.totpSecret step code (h.now e 1) h)

/-- `logout` -/
def logout (e : Env) (raw : Str) (h : Hub) : Hub := h.dropSessions fun id _ => id = e.sha256 raw

/-- `user_from_cookie` -/
def userFromCookie (e : Env) (raw : Option Str) (h : Hub) : Option User × Hub :=
  let raw := raw.getD []
  if raw = [] ∨ 200 < raw.length then (none, h)
  else
    let id := e.sha256 raw
    match h.sessions.get id with
    | none => (none, h)
    | some s =>
      match h.users.get s.userId with
      | none => (none, h)
      | some row =>
        let now := h.now e 0
        if s.seen + sessionIdle < now ∨ s.created + sessionMax < now then
          (none, h.dropSessions fun id' _ => id' = id)
        else
          (some ⟨s.userId, row.username, row.role, row.totpOn, id, s.elevatedUntil⟩,
            if s.seen + 60 < now then h.setSession id fun s => { s with seen := now } else h)

/-! ## Second factor -/

/-- The secret that was drawn waits for its confirmation. -/
def install (uid : Nat) (secret : Str) (h : Hub) : Hub :=
  h.setUser uid fun row => { row with totpPending := some secret }

/-- `begin_2fa` -/
def begin2fa (e : Env) (user : User) (currentCode : Option Str) (h : Hub) : Except Err Str × Hub :=
  let secret := e.newTotpSecret h.requests
  match h.users.get user.id with
  | none => (.ok secret, install user.id secret h)
  | some row =>
    if !row.totpOn then (.ok secret, install user.id secret h)
    else
      let code := currentCode.getD []
      match verifyTotp e row.totpSecret code row.totpLast (h.now e 0) with
      | .error c => (.error (.crash c), h)
      | .ok step =>
        if step = 0 then
          (.error (.auth "برای تنظیم دوباره، کد فعلی رمز دوم را وارد کنید" 400 (some "need_current")),
            refuse e row.username code row.totpLast (h.now e 0) h)
        else
          (.ok secret, install user.id secret
            (accept (.begin2fa secret) user.id row.totpSecret step code (h.now e 0) h))

/-- The pending secret becomes the active one, and the other sessions end. -/
def confirmed (user : User) (pending : Str) (step : Nat) (code : Str) (at_ : Nat) (h : Hub) : Hub :=
  ((h.setUser user.id fun row => { row with
    totpSecret := row.totpPending, totpPending := none, totpOn := true, totpLast := step }).dropSessions
      fun id s => s.userId = user.id && id ≠ user.session).note
        (.accepted (.confirm2fa user.session) user.id pending step code at_)

/-- `confirm_2fa` -/
def confirm2fa (e : Env) (user : User) (code : Str) (h : Hub) : Except Err Unit × Hub :=
  match ((h.users.get user.id).bind UserRow.totpPending).filter (· ≠ []) with
  | none => (.error (.auth "اول راه‌اندازی رمز دوم را شروع کنید" 400 none), h)
  | some pending =>
    match verifyTotp e (some pending) code 0 (h.now e 0) with
    | .error c => (.error (.crash c), h)
    | .ok step =>
      if step = 0 then (.error (.auth "کد نادرست است؛ ساعت گوشی را بررسی کنید" 400 none), h)
      else (.ok (), confirmed user pending step code (h.now e 0) h)

/-- `elevate` -/
def elevate (e : Env) (user : User) (code : Str) (h : Hub) : Except Err Nat × Hub :=
  match h.users.get user.id with
  | none => (.error (.auth "اول رمز دوم را فعال کنید" 400 none), h)
  | some row =>
    if !row.totpOn then (.error (.auth "اول رمز دوم را فعال کنید" 400 none), h)
    else
      match verifyTotp e row.totpSecret code row.totpLast (h.now e 0) with
      | .error c => (.error (.crash c), h)
      | .ok step =>
        if step = 0 then
          (.error (.auth "کد رمز دوم نادرست است" 400 none),
            refuse e row.username code row.totpLast (h.now e 0) h)
        else
          let until_ := h.now e 1 + elevateSeconds
          (.ok until_, (accept (.elevate user.session (h.now e 1)) user.id row.totpSecret step code
            (h.now e 0) h).setSession user.session fun s => { s with elevatedUntil := until_ })

/-! ## Guards -/

/-- What the guards read of a request. -/
structure Request where
  cookie : Option Str
  method : Str
  xIcsd : Option Str
  origin : Option Str
  base : Str

/-- `_session_user` after the cookie: a change needs the header and an origin of
the panel's own. -/
def forged (cfg : Settings) (r : Request) : Option Err :=
  if r.method ∈ ["GET".toList, "HEAD".toList, "OPTIONS".toList] then none
  else if r.xIcsd ≠ some ['1'] then some (.http 403 "درخواست نامعتبر (CSRF)")
  else
    let origin := (r.origin.getD []).rdropWhile (· = '/')
    if r.origin.getD [] ≠ [] ∧ origin ≠ r.base ∧ origin ≠ cfg.publicUrl then
      some (.http 403 "درخواست از مبدأ دیگر پذیرفته نیست")
    else none

/-- What guards ask of a user, in their order. -/
inductive Guard
  | currentUserAny | currentUser | admin | elevated
deriving DecidableEq

/-- The check of `current_user`. -/
def currentUserErr (cfg : Settings) (u : User) : Option Err :=
  if cfg.require2fa && !u.totpOn then some (.http 403 "2fa_setup_required") else none

/-- The check of `admin`. -/
def adminErr (u : User) : Option Err :=
  if u.isAdmin then none else some (.http 403 "این کار فقط برای مدیر است")

/-- The check of `elevated`. -/
def elevatedErr (u : User) (now : Nat) : Option Err :=
  if u.elevatedUntil < now then some (.http 403 "elevation_required") else none

/-- A guard checks after those it depends on. -/
def Guard.err (cfg : Settings) (u : User) (now : Nat) : Guard → Option Err
  | .currentUserAny => none
  | .currentUser => currentUserErr cfg u
  | .admin => (currentUserErr cfg u).or (adminErr u)
  | .elevated => ((currentUserErr cfg u).or (adminErr u)).or (elevatedErr u now)

/-- A guard with the ones it depends on. -/
def guard (e : Env) (cfg : Settings) (g : Guard) (r : Request) (h : Hub) : Except Err User × Hub :=
  match userFromCookie e r.cookie h with
  | (none, h') => (.error (.http 401 "ابتدا وارد شوید"), h')
  | (some u, h') =>
    match (forged cfg r).or (g.err cfg u (h.now e 1)) with
    | some err => (.error err, h')
    | none => (.ok u, h')

/-! ## Requests -/

/-- A request. A handler goes on with the user that a guard let through as the
`i`-th; `enrollFail` is a refused enrolment, which counts in the same table. -/
inductive Call
  | login (username password : Str) (otp : Option Str) (ip : Str)
  | logout (raw : Str)
  | guarded (g : Guard) (r : Request)
  | begin2fa (i : Nat) (code : Option Str)
  | confirm2fa (i : Nat) (code : Str)
  | elevate (i : Nat) (code : Str)
  | setPassword (uid : Nat) (password : Str)
  | reset2fa (uid : Nat)
  | createUser (username password role : Str)
  | deleteUser (uid : Nat)
  | prune
  | enrollFail (ip : Str)

/-- What a handler does with the `i`-th user that was let through. -/
def Hub.heldUser (h : Hub) (i : Nat) (f : User → Hub) : Hub :=
  match h.held[i]? with
  | none => h
  | some user => f user

def Hub.call (e : Env) (cfg : Settings) (h : Hub) : Call → Hub
  | .login username password otp ip => (login e username password otp ip h).2
  | .logout raw => logout e raw h
  | .guarded g r =>
    match guard e cfg g r h with
    | (.error _, h') => h'
    | (.ok user, h') => { h' with held := h'.held ++ [user] }
  | .begin2fa i code => h.heldUser i fun user => (begin2fa e user code h).2
  | .confirm2fa i code => h.heldUser i fun user => (confirm2fa e user code h).2
  | .elevate i code => h.heldUser i fun user => (elevate e user code h).2
  | .setPassword uid password => (setPassword e uid password h).2
  | .reset2fa uid => reset2fa uid h
  | .createUser username password role => (createUser e username password role h).2
  | .deleteUser uid => (deleteUser uid h).2
  | .prune => prune e h
  | .enrollFail ip => { h with loginFail := h.loginFail ++ [⟨ip, "~enroll".toList, h.now e 0⟩] }

def step (e : Env) (cfg : Settings) (h : Hub) (c : Call) : Hub :=
  { h.call e cfg c with requests := h.requests + 1 }

/-! ## What each statement changes -/

variable {e : Env} {h : Hub} {uid q : Nat} {id : Str} {x : Event}

@[simp] theorem note_users : (h.note x).users = h.users := rfl
@[simp] theorem note_sessions : (h.note x).sessions = h.sessions := rfl
@[simp] theorem note_loginFail : (h.note x).loginFail = h.loginFail := rfl
@[simp] theorem note_held : (h.note x).held = h.held := rfl
@[simp] theorem note_log : (h.note x).log = h.log ++ [x] := rfl
@[simp] theorem note_requests : (h.note x).requests = h.requests := rfl
@[simp] theorem note_now {k : Nat} : (h.note x).now e k = h.now e k := rfl

section Users

variable {f : UserRow → UserRow}

theorem setUser_eq : h.setUser uid f = { h with users := (h.setUser uid f).users } := by
  unfold Hub.setUser
  split <;> rfl

@[simp] theorem setUser_sessions : (h.setUser uid f).sessions = h.sessions := by rw [setUser_eq]
@[simp] theorem setUser_loginFail : (h.setUser uid f).loginFail = h.loginFail := by rw [setUser_eq]
@[simp] theorem setUser_held : (h.setUser uid f).held = h.held := by rw [setUser_eq]
@[simp] theorem setUser_log : (h.setUser uid f).log = h.log := by rw [setUser_eq]
@[simp] theorem setUser_requests : (h.setUser uid f).requests = h.requests := by rw [setUser_eq]
@[simp] theorem setUser_now {k : Nat} : (h.setUser uid f).now e k = h.now e k := by
  rw [setUser_eq]
  rfl

theorem setUser_get : (h.setUser uid f).users.get q = if q = uid then (h.users.get uid).map f else h.users.get q := by
  unfold Hub.setUser
  cases hrow : h.users.get uid with
  | none =>
    by_cases hq : q = uid
    · simp [hq, hrow]
    · simp [hq]
  | some row => simp [Dict.get_set]

@[simp] theorem setUser_get_self : (h.setUser uid f).users.get uid = (h.users.get uid).map f := by
  simp [setUser_get]

theorem setUser_get_ne (hq : q ≠ uid) : (h.setUser uid f).users.get q = h.users.get q := by
  simp [setUser_get, hq]

end Users

section Accept

variable {entry : Entry} {secret : Option Str} {step at_ : Nat} {code : Str}

@[simp] theorem accept_log : (accept entry uid secret step code at_ h).log =
    h.log ++ [.accepted entry uid (secret.getD []) step code at_] := by simp [accept]
@[simp] theorem accept_loginFail : (accept entry uid secret step code at_ h).loginFail = h.loginFail := by
  simp [accept]
@[simp] theorem accept_sessions : (accept entry uid secret step code at_ h).sessions = h.sessions := by
  simp [accept]
@[simp] theorem accept_requests : (accept entry uid secret step code at_ h).requests = h.requests := by
  simp [accept]

end Accept

section Sessions

variable {f : Session → Session} {p : Str → Session → Bool}

theorem setSession_eq : h.setSession id f = { h with sessions := (h.setSession id f).sessions } := by
  unfold Hub.setSession
  split <;> rfl

@[simp] theorem setSession_users : (h.setSession id f).users = h.users := by rw [setSession_eq]
@[simp] theorem setSession_loginFail : (h.setSession id f).loginFail = h.loginFail := by rw [setSession_eq]
@[simp] theorem setSession_held : (h.setSession id f).held = h.held := by rw [setSession_eq]
@[simp] theorem setSession_log : (h.setSession id f).log = h.log := by rw [setSession_eq]

theorem setSession_get {id' : Str} : (h.setSession id f).sessions.get id' =
    if id' = id then (h.sessions.get id).map f else h.sessions.get id' := by
  unfold Hub.setSession
  cases hrow : h.sessions.get id with
  | none =>
    by_cases hq : id' = id
    · simp [hq, hrow]
    · simp [hq]
  | some row => simp [Dict.get_set]

@[simp] theorem dropSessions_users : (h.dropSessions p).users = h.users := rfl
@[simp] theorem dropSessions_loginFail : (h.dropSessions p).loginFail = h.loginFail := rfl
@[simp] theorem dropSessions_held : (h.dropSessions p).held = h.held := rfl
@[simp] theorem dropSessions_log : (h.dropSessions p).log = h.log := rfl

theorem dropSessions_get {s : Session} :
    (h.dropSessions p).sessions.get id = some s ↔ h.sessions.get id = some s ∧ p id s = false := by
  unfold Hub.dropSessions
  simp [Dict.get_filter, Option.filter_eq_some_iff]

end Sessions

/-- Who is found under a name has it. -/
theorem named_eq {u : Str} {row : UserRow} (hn : h.named u = some (uid, row)) :
    h.users.get uid = some row ∧ row.username = u := by
  refine ⟨Dict.mem_entries.mp (List.mem_of_find?_eq_some hn), ?_⟩
  simpa using List.find?_some hn

theorem openSession_eq (row : UserRow) :
    (openSession e uid row h).2 = { h with sessions := (openSession e uid row h).2.sessions } := by
  unfold openSession
  simp only
  split <;> rfl

@[simp] theorem openSession_loginFail (row : UserRow) :
    (openSession e uid row h).2.loginFail = h.loginFail := by rw [openSession_eq]
@[simp] theorem openSession_log (row : UserRow) : (openSession e uid row h).2.log = h.log := by
  rw [openSession_eq]

/-- The new session is under an id that no session has. -/
theorem openSession_cases (row : UserRow) :
    (∃ err, openSession e uid row h = (.error err, h)) ∨
    h.sessions.get (e.sha256 (token e 32 h.requests)) = none ∧ (openSession e uid row h).2 =
      { h with sessions := h.sessions.set (e.sha256 (token e 32 h.requests)) ⟨uid, h.now e 2, h.now e 2, 0⟩ } := by
  unfold openSession
  simp only
  by_cases hid : e.sha256 (token e 32 h.requests) ∈ h.sessions.keys
  · exact .inl ⟨_, if_pos hid⟩
  · rw [if_neg hid]
    rw [Dict.mem_keys, Option.not_isSome_iff_eq_none] at hid
    exact .inr ⟨hid, rfl⟩

theorem refuse_cases (username code : Str) (last at_ : Nat) :
    refuse e username code last at_ h = h ∨
      compares e code last at_ ∧ refuse e username code last at_ h = h.note (.wrongCode username at_) := by
  unfold refuse
  split
  · rename_i hc
    exact .inr ⟨hc, rfl⟩
  · exact .inl rfl

theorem userFromCookie_eq (raw : Option Str) :
    (userFromCookie e raw h).2 = { h with sessions := (userFromCookie e raw h).2.sessions } := by
  unfold userFromCookie
  simp only
  split
  · rfl
  · split
    · rfl
    · split
      · rfl
      · split
        · rfl
        · split
          · exact setSession_eq
          · rfl

/-- A user who is found has a session that is not too old. -/
theorem userFromCookie_cases (raw : Option Str) :
    ((userFromCookie e raw h).1 = none ∧
      ((userFromCookie e raw h).2 = h ∨ ∃ p, (userFromCookie e raw h).2 = h.dropSessions p)) ∨
    ∃ raw' s row, raw = some raw' ∧ h.sessions.get (e.sha256 raw') = some s ∧
      h.users.get s.userId = some row ∧ h.now e 0 ≤ s.seen + sessionIdle ∧
      h.now e 0 ≤ s.created + sessionMax ∧
      (userFromCookie e raw h).1 =
        some ⟨s.userId, row.username, row.role, row.totpOn, e.sha256 raw', s.elevatedUntil⟩ ∧
      ((userFromCookie e raw h).2 = h ∨
        (userFromCookie e raw h).2 = h.setSession (e.sha256 raw') fun s => { s with seen := h.now e 0 }) := by
  unfold userFromCookie
  simp only
  by_cases hraw : raw.getD [] = [] ∨ 200 < (raw.getD []).length
  · rw [if_pos hraw]
    exact .inl ⟨rfl, .inl rfl⟩
  · rw [if_neg hraw]
    cases raw with
    | none => simp at hraw
    | some raw' =>
      rw [Option.getD_some]
      cases hs : h.sessions.get (e.sha256 raw') with
      | none => exact .inl ⟨rfl, .inl rfl⟩
      | some s =>
        simp only
        cases hrow : h.users.get s.userId with
        | none => exact .inl ⟨rfl, .inl rfl⟩
        | some row =>
          simp only
          by_cases hold : s.seen + sessionIdle < h.now e 0 ∨ s.created + sessionMax < h.now e 0
          · rw [if_pos hold]
            exact .inl ⟨rfl, .inr ⟨_, rfl⟩⟩
          · rw [if_neg hold]
            refine .inr ⟨raw', s, row, rfl, hs, hrow, by omega, by omega, rfl, ?_⟩
            simp only
            split
            · exact .inr rfl
            · exact .inl rfl

/-- A request with a guard changes sessions, and may let a user through. -/
theorem guarded_cases (cfg : Settings) (g : Guard) (r : Request) :
    h.call e cfg (.guarded g r) = (userFromCookie e r.cookie h).2 ∨
      ∃ user, guard e cfg g r h = (.ok user, (userFromCookie e r.cookie h).2) ∧
        (userFromCookie e r.cookie h).1 = some user ∧ g.err cfg user (h.now e 1) = none ∧
        h.call e cfg (.guarded g r) =
          { (userFromCookie e r.cookie h).2 with held := h.held ++ [user] } := by
  have heq := userFromCookie_eq (e := e) (h := h) r.cookie
  simp only [Hub.call, guard]
  generalize hu : userFromCookie e r.cookie h = result at *
  obtain ⟨user, h'⟩ := result
  cases user with
  | none => exact .inl rfl
  | some user =>
    simp only at heq ⊢
    cases herr : (forged cfg r).or (g.err cfg user (h.now e 1)) with
    | some err => exact .inl rfl
    | none =>
      refine .inr ⟨user, rfl, rfl, (Option.or_eq_none_iff.mp herr).2, ?_⟩
      simp only
      rw [heq]

theorem guard_ok {cfg : Settings} {g : Guard} {r : Request} {user : User}
    (hok : (guard e cfg g r h).1 = .ok user) :
    (userFromCookie e r.cookie h).1 = some user ∧ g.err cfg user (h.now e 1) = none := by
  unfold guard at hok
  generalize userFromCookie e r.cookie h = result at hok ⊢
  obtain ⟨found, h'⟩ := result
  cases found with
  | none => cases hok
  | some found =>
    simp only at hok
    cases herr : (forged cfg r).or (g.err cfg found (h.now e 1)) with
    | some err =>
      rw [herr] at hok
      cases hok
    | none =>
      rw [herr] at hok
      cases hok
      exact ⟨rfl, (Option.or_eq_none_iff.mp herr).2⟩

theorem Guard.elevated_err {cfg : Settings} {user : User} {now : Nat}
    (herr : Guard.err cfg user now .elevated = none) : user.role = adminRole ∧ now ≤ user.elevatedUntil := by
  obtain ⟨hadmin, helevated⟩ := Option.or_eq_none_iff.mp herr
  have hrole := (Option.or_eq_none_iff.mp hadmin).2
  unfold adminErr at hrole
  unfold elevatedErr at helevated
  constructor
  · simpa [User.isAdmin] using hrole
  · simpa using helevated

/-- What a login does: it is refused, a check fails, or a session is opened. -/
theorem login_cases (username password : Str) (otp : Option Str) (ip : Str) :
    let u := loginName e username
    (∃ err, login e username password otp ip h = (.error err, h)) ∨
    tooMany h (h.now e 0) ip u = false ∧
      ((∃ err, login e username password otp ip h = (.error err, failLogin e ip u h)) ∨
      ∃ uid row, h.named u = some (uid, row) ∧
        ((row.totpOn = false ∧ login e username password otp ip h = openSession e uid row h) ∨
        row.totpOn = true ∧ verifyPassword e password row.pwHash = true ∧
          ((∃ c, verifyTotp e row.totpSecret (otp.getD []) row.totpLast (h.now e 1) = .error c ∧
              login e username password otp ip h =
                (.error (.crash c), h.note (.loginFailed u ip (h.now e 1)))) ∨
          (∃ err, login e username password otp ip h = (.error err, failLogin e ip u
              (refuse e row.username (otp.getD []) row.totpLast (h.now e 1) h))) ∨
          ∃ key step, row.totpSecret = some key ∧ row.totpLast < step ∧
            Valid e key step (otp.getD []) (h.now e 1) ∧
            login e username password otp ip h = openSession e uid row
              (accept .login uid row.totpSecret step (otp.getD []) (h.now e 1) h)))) := by
  intro u
  unfold login
  simp only
  by_cases hmany : tooMany h (h.now e 0) ip u = true
  · exact .inl ⟨_, if_pos hmany⟩
  · rw [if_neg hmany]
    cases hn : h.named u with
    | none => exact .inr ⟨by simpa using hmany, .inl ⟨_, rfl⟩⟩
    | some found =>
      obtain ⟨uid, row⟩ := found
      simp only
      by_cases hpw : verifyPassword e password row.pwHash = true
      · rw [if_neg (by simp [hpw])]
        by_cases hon : row.totpOn = true
        · rw [if_neg (by simp [hon])]
          by_cases hcode : otp.getD [] = []
          · exact .inl ⟨_, if_pos hcode⟩
          · rw [if_neg hcode]
            refine .inr ⟨by simpa using hmany, .inr ⟨uid, row, rfl, .inr ⟨hon, hpw, ?_⟩⟩⟩
            cases hv : verifyTotp e row.totpSecret (otp.getD []) row.totpLast (h.now e 1) with
            | error c => exact .inl ⟨c, rfl, rfl⟩
            | ok step =>
              simp only
              by_cases hstep : step = 0
              · exact .inr (.inl ⟨_, if_pos hstep⟩)
              · rw [if_neg hstep]
                obtain ⟨key, hkey, hlt, hvalid⟩ := verifyTotp_ok hv hstep
                exact .inr (.inr ⟨key, step, hkey, hlt, hvalid, rfl⟩)
        · rw [if_pos (by simp [hon])]
          exact .inr ⟨by simpa using hmany, .inr ⟨uid, row, rfl, .inl ⟨by simpa using hon, rfl⟩⟩⟩
      · rw [if_pos (by simp [hpw])]
        exact .inr ⟨by simpa using hmany, .inl ⟨_, rfl⟩⟩

theorem begin2fa_cases (user : User) (code : Option Str) :
    let secret := e.newTotpSecret h.requests
    (∃ err, begin2fa e user code h = (.error err, h)) ∨
    (∃ err row, h.users.get user.id = some row ∧ row.totpOn = true ∧
      verifyTotp e row.totpSecret (code.getD []) row.totpLast (h.now e 0) = .ok 0 ∧
      begin2fa e user code h =
        (.error err, refuse e row.username (code.getD []) row.totpLast (h.now e 0) h)) ∨
    ((∀ row, h.users.get user.id = some row → row.totpOn = false) ∧
      begin2fa e user code h = (.ok secret, install user.id secret h)) ∨
    ∃ row key step, h.users.get user.id = some row ∧ row.totpSecret = some key ∧ row.totpLast < step ∧
      Valid e key step (code.getD []) (h.now e 0) ∧
      begin2fa e user code h = (.ok secret, install user.id secret
        (accept (.begin2fa secret) user.id row.totpSecret step (code.getD []) (h.now e 0) h)) := by
  intro secret
  unfold begin2fa
  simp only
  cases hrow : h.users.get user.id with
  | none => exact .inr (.inr (.inl ⟨by simp, rfl⟩))
  | some row =>
    simp only
    by_cases hon : row.totpOn = true
    · rw [if_neg (by simp [hon])]
      cases hv : verifyTotp e row.totpSecret (code.getD []) row.totpLast (h.now e 0) with
      | error c => exact .inl ⟨_, rfl⟩
      | ok step =>
        simp only
        by_cases hstep : step = 0
        · subst hstep
          exact .inr (.inl ⟨_, row, rfl, hon, hv, if_pos rfl⟩)
        · rw [if_neg hstep]
          obtain ⟨key, hkey, hlt, hvalid⟩ := verifyTotp_ok hv hstep
          exact .inr (.inr (.inr ⟨row, key, step, rfl, hkey, hlt, hvalid, rfl⟩))
    · rw [if_pos (by simp [hon])]
      refine .inr (.inr (.inl ⟨?_, rfl⟩))
      intro row' hrow'
      cases hrow'
      simpa using hon

theorem confirm2fa_cases (user : User) (code : Str) :
    (∃ err, confirm2fa e user code h = (.error err, h)) ∨
    ∃ row pending step, h.users.get user.id = some row ∧ row.totpPending = some pending ∧
      Valid e pending step code (h.now e 0) ∧
      confirm2fa e user code h = (.ok (), confirmed user pending step code (h.now e 0) h) := by
  unfold confirm2fa
  cases hp : ((h.users.get user.id).bind UserRow.totpPending).filter (· ≠ []) with
  | none => exact .inl ⟨_, rfl⟩
  | some pending =>
    obtain ⟨hbind, -⟩ := Option.filter_eq_some_iff.mp hp
    obtain ⟨row, hrow, hpending⟩ := Option.bind_eq_some_iff.mp hbind
    simp only
    cases hv : verifyTotp e (some pending) code 0 (h.now e 0) with
    | error c => exact .inl ⟨_, rfl⟩
    | ok step =>
      simp only
      by_cases hstep : step = 0
      · exact .inl ⟨_, if_pos hstep⟩
      · rw [if_neg hstep]
        obtain ⟨key, hkey, -, hvalid⟩ := verifyTotp_ok hv hstep
        cases hkey
        exact .inr ⟨row, pending, step, hrow, hpending, hvalid, rfl⟩

theorem elevate_cases (user : User) (code : Str) :
    (∃ err, elevate e user code h = (.error err, h)) ∨
    (∃ err row, h.users.get user.id = some row ∧ row.totpOn = true ∧
      verifyTotp e row.totpSecret code row.totpLast (h.now e 0) = .ok 0 ∧
      elevate e user code h = (.error err, refuse e row.username code row.totpLast (h.now e 0) h)) ∨
    ∃ row key step, h.users.get user.id = some row ∧ row.totpSecret = some key ∧ row.totpLast < step ∧
      Valid e key step code (h.now e 0) ∧
      elevate e user code h = (.ok (h.now e 1 + elevateSeconds),
        (accept (.elevate user.session (h.now e 1)) user.id row.totpSecret step code (h.now e 0)
          h).setSession user.session fun s => { s with elevatedUntil := h.now e 1 + elevateSeconds }) := by
  unfold elevate
  cases hrow : h.users.get user.id with
  | none => exact .inl ⟨_, rfl⟩
  | some row =>
    simp only
    by_cases hon : row.totpOn = true
    · rw [if_neg (by simp [hon])]
      cases hv : verifyTotp e row.totpSecret code row.totpLast (h.now e 0) with
      | error c => exact .inl ⟨_, rfl⟩
      | ok step =>
        simp only
        by_cases hstep : step = 0
        · subst hstep
          exact .inr (.inl ⟨_, row, rfl, hon, hv, if_pos rfl⟩)
        · rw [if_neg hstep]
          obtain ⟨key, hkey, hlt, hvalid⟩ := verifyTotp_ok hv hstep
          exact .inr (.inr ⟨row, key, step, rfl, hkey, hlt, hvalid, rfl⟩)
    · rw [if_pos (by simp [hon])]
      exact .inl ⟨_, rfl⟩

theorem setPassword_cases (uid : Nat) (password : Str) :
    (∃ err, setPassword e uid password h = (.error err, h)) ∨
    setPassword e uid password h = (.ok (), ((h.setUser uid fun row =>
      { row with pwHash := e.hashPassword password h.requests }).dropSessions
        fun _ s => s.userId = uid).note (.passwordSet uid)) := by
  unfold setPassword
  split
  · exact .inl ⟨_, rfl⟩
  · exact .inr rfl

theorem deleteUser_cases (uid : Nat) :
    (∃ err, deleteUser uid h = (.error err, h)) ∨
    deleteUser uid h = (.ok (), (Hub.dropSessions { h with users := h.users.erase uid }
      fun _ s => s.userId = uid).note (.deleted uid)) := by
  unfold deleteUser
  split
  · exact .inl ⟨_, rfl⟩
  · split
    · exact .inl ⟨_, rfl⟩
    · exact .inr rfl

theorem heldUser_cases (i : Nat) (f : User → Hub) :
    h.heldUser i f = h ∨ ∃ user, h.held[i]? = some user ∧ h.heldUser i f = f user := by
  unfold Hub.heldUser
  cases hi : h.held[i]? with
  | none => exact .inl rfl
  | some user => exact .inr ⟨user, rfl, rfl⟩

theorem le_foldl_max (l : List Nat) (a : Nat) : a ≤ l.foldl max a ∧ ∀ k ∈ l, k ≤ l.foldl max a := by
  induction l generalizing a with
  | nil => simp
  | cons b l ih =>
    obtain ⟨hle, hmem⟩ := ih (max a b)
    refine ⟨Nat.le_trans (Nat.le_max_left a b) hle, fun k hk => ?_⟩
    rcases List.mem_cons.mp hk with rfl | hk
    · exact Nat.le_trans (Nat.le_max_right a k) hle
    · exact hmem k hk

/-- A new row has an id of its own. -/
theorem nextId_fresh (users : Dict Nat UserRow) : users.get (nextId users) = none := by
  rw [← Option.not_isSome_iff_eq_none, ← Dict.mem_keys]
  intro hmem
  have := (le_foldl_max users.keys 0).2 _ hmem
  unfold nextId at this
  omega

theorem createUser_cases (username password role : Str) :
    (∃ err, createUser e username password role h = (.error err, h)) ∨
    ∃ uid row, h.users.get uid = none ∧ row.totpSecret = none ∧ row.totpOn = false ∧
      row.totpPending = none ∧
      createUser e username password role h = (.ok uid, { h with users := h.users.set uid row }) := by
  unfold createUser
  split
  · exact .inl ⟨_, rfl⟩
  · split
    · exact .inl ⟨_, rfl⟩
    · split
      · exact .inl ⟨_, rfl⟩
      · split
        · exact .inl ⟨_, rfl⟩
        · exact .inr ⟨_, _, nextId_fresh h.users, rfl, rfl, rfl, rfl⟩

end icsd_panel.accounts

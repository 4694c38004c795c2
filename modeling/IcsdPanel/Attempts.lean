-- The limits on failing logins and on wrong one-time codes, in any fifteen minutes
-- of a run.
import IcsdPanel.Limits
import IcsdPanel.SecondFactors

open dicts limits texts

namespace icsd_panel.attempts

open security accounts second_factors

/-! ## What a request does to the table and to the log -/

/-- The login comes to compare six foreign digits with a secret. -/
def foreign (e : Env) (h : Hub) : Call → Bool
  | .login username password otp ip =>
    match h.named (loginName e username) with
    | none => false
    | some (_, row) =>
      !tooMany h (h.now e 0) ip (loginName e username) && verifyPassword e password row.pwHash &&
        row.totpOn && compares e (otp.getD []) row.totpLast (h.now e 1) && !isAscii (cleanCode (otp.getD []))
  | _ => false

/-- A code is compared with the active secret of the `i`-th user, and is wrong. -/
def wrongFor (e : Env) (h : Hub) (i : Nat) (code : Str) : Bool :=
  match h.held[i]? with
  | none => false
  | some user =>
    match h.users.get user.id with
    | none => false
    | some row =>
      row.totpOn && compares e code row.totpLast (h.now e 0) &&
        (verifyTotp e row.totpSecret code row.totpLast (h.now e 0)).toOption = some 0

/-- A wrong code is compared, and no row comes to the table. -/
def uncounted (e : Env) (h : Hub) : Call → Bool
  | .elevate i code => wrongFor e h i code
  | .begin2fa i code => wrongFor e h i (code.getD [])
  | _ => false

/-- An event that tells of no failing check. -/
def Quiet : Event → Prop
  | .wrongCode .. => False
  | .loginFailed .. => False
  | _ => True

inductive Outcome (e : Env) (h : Hub) (c : Call) (h' : Hub) : Prop
  | quiet (xs : List Event) (hrows : h'.loginFail = h.loginFail) (hlog : h'.log = h.log ++ xs)
      (hxs : ∀ x ∈ xs, Quiet x)
  | failed (ip u : Str) (xs : List Event) (hfew : tooMany h (h.now e 0) ip u = false)
      (hxs : xs = [] ∨ xs = [.wrongCode u (h.now e 1)])
      (hrows : h'.loginFail = h.loginFail ++ [⟨ip, u, h.now e 2⟩])
      (hlog : h'.log = h.log ++ (xs ++ [.loginFailed u ip (h.now e 1)]))
  | crashed (ip u : Str) (hforeign : foreign e h c = true) (hrows : h'.loginFail = h.loginFail)
      (hlog : h'.log = h.log ++ [.loginFailed u ip (h.now e 1)])
  | missed (u : Str) (hmissed : uncounted e h c = true) (hrows : h'.loginFail = h.loginFail)
      (hlog : h'.log = h.log ++ [.wrongCode u (h.now e 0)])
  | pruned (hrows : h'.loginFail = h.loginFail.filter fun f => h.now e 0 ≤ f.ts + failWindow)
      (hlog : h'.log = h.log)
  | more (f : Fail) (hrows : h'.loginFail = h.loginFail ++ [f]) (hlog : h'.log = h.log)

variable {e : Env} {cfg : Settings} {h h' : Hub} {c : Call} {uid : Nat}

theorem Outcome.same (hrows : h'.loginFail = h.loginFail) (hlog : h'.log = h.log) : Outcome e h c h' :=
  .quiet [] hrows (by simp [hlog]) (by simp)

theorem Outcome.event {x : Event} (hrows : h'.loginFail = h.loginFail) (hlog : h'.log = h.log ++ [x])
    (hx : Quiet x) : Outcome e h c h' :=
  .quiet [x] hrows hlog (by simpa using hx)

theorem outcome_login (hon : FactorOn h) (username password : Str) (otp : Option Str) (ip : Str) :
    Outcome e h (.login username password otp ip) (login e username password otp ip h).2 := by
  rcases login_cases (e := e) (h := h) username password otp ip with
    ⟨err, heq⟩ | ⟨hfew, ⟨err, heq⟩ | ⟨uid, row, hn, ⟨-, heq⟩ | ⟨hrow, hpw, hcode⟩⟩⟩
  · rw [heq]
    exact .same rfl rfl
  · rw [heq]
    exact .failed ip (loginName e username) [] hfew (.inl rfl) rfl rfl
  · rw [heq]
    exact .same (openSession_loginFail row) (openSession_log row)
  · obtain ⟨hget, hname⟩ := named_eq hn
    rcases hcode with ⟨c, hv, heq⟩ | ⟨err, heq⟩ | ⟨key, step, -, -, -, heq⟩
    · rw [heq]
      have hsecret : row.totpSecret.isSome := by rw [← hon uid row hget, hrow]
      obtain ⟨key, hkey⟩ := Option.isSome_iff_exists.mp hsecret
      rw [hkey] at hv
      obtain ⟨hcompares, hascii⟩ := verifyTotp_error hv
      refine .crashed ip (loginName e username) ?_ rfl rfl
      simp [foreign, hn, hfew, hpw, hrow, hcompares, hascii]
    · rw [heq]
      rcases refuse_cases (e := e) (h := h) row.username (otp.getD []) row.totpLast (h.now e 1) with
        hr | ⟨-, hr⟩
      · rw [hr]
        exact .failed ip (loginName e username) [] hfew (.inl rfl) rfl rfl
      · rw [hr, hname]
        refine .failed ip (loginName e username) [.wrongCode (loginName e username) (h.now e 1)] hfew
          (.inr rfl) rfl ?_
        exact List.append_assoc _ _ _
    · rw [heq]
      exact .event (x := .accepted .login uid (row.totpSecret.getD []) step (otp.getD []) (h.now e 1))
        (by simp) (by simp) trivial

theorem outcome_guarded (g : Guard) (r : Request) :
    Outcome e h (.guarded g r) (h.call e cfg (.guarded g r)) := by
  rcases guarded_cases (e := e) (h := h) cfg g r with heq | ⟨user, -, -, -, heq⟩
  · rw [heq, userFromCookie_eq]
    exact .same rfl rfl
  · rw [heq, userFromCookie_eq]
    exact .same rfl rfl

/-- A refused code of a held user. -/
theorem outcome_refuse {i : Nat} {user : User} {row : UserRow} {code : Str} (hi : h.held[i]? = some user)
    (hrow : h.users.get user.id = some row) (hon : row.totpOn = true)
    (hv : verifyTotp e row.totpSecret code row.totpLast (h.now e 0) = .ok 0)
    (hc : wrongFor e h i code = true → uncounted e h c = true) :
    Outcome e h c (refuse e row.username code row.totpLast (h.now e 0) h) := by
  rcases refuse_cases (e := e) (h := h) row.username code row.totpLast (h.now e 0) with
    heq | ⟨hcompares, heq⟩
  · rw [heq]
    exact .same rfl rfl
  · rw [heq]
    refine .missed row.username (hc ?_) rfl rfl
    simp [wrongFor, hi, hrow, hon, hcompares, hv, Except.toOption]

theorem outcome_begin2fa {i : Nat} {user : User} (hi : h.held[i]? = some user) (code : Option Str) :
    Outcome e h (.begin2fa i code) (begin2fa e user code h).2 := by
  rcases begin2fa_cases (e := e) (h := h) user code with
    ⟨err, heq⟩ | ⟨err, row, hrow, hon, hv, heq⟩ | ⟨-, heq⟩ | ⟨row, key, step, -, -, -, -, heq⟩
  · rw [heq]
    exact .same rfl rfl
  · rw [heq]
    exact outcome_refuse hi hrow hon hv id
  · rw [heq]
    exact .same setUser_loginFail setUser_log
  · rw [heq]
    exact .event (x := .accepted (.begin2fa (e.newTotpSecret h.requests)) user.id (row.totpSecret.getD []) step
      (code.getD []) (h.now e 0)) (by simp [install]) (by simp [install]) trivial

theorem outcome_confirm2fa (user : User) (code : Str) : Outcome e h c (confirm2fa e user code h).2 := by
  rcases confirm2fa_cases (e := e) (h := h) user code with
    ⟨err, heq⟩ | ⟨row, pending, step, -, -, -, heq⟩
  · rw [heq]
    exact .same rfl rfl
  · rw [heq]
    exact .event (x := .accepted (.confirm2fa user.session) user.id pending step code (h.now e 0))
      (by simp [confirmed]) (by simp [confirmed]) trivial

theorem outcome_elevate {i : Nat} {user : User} (hi : h.held[i]? = some user) (code : Str) :
    Outcome e h (.elevate i code) (elevate e user code h).2 := by
  rcases elevate_cases (e := e) (h := h) user code with
    ⟨err, heq⟩ | ⟨err, row, hrow, hon, hv, heq⟩ | ⟨row, key, step, -, -, -, -, heq⟩
  · rw [heq]
    exact .same rfl rfl
  · rw [heq]
    exact outcome_refuse hi hrow hon hv id
  · rw [heq]
    exact .event (x := .accepted (.elevate user.session (h.now e 1)) user.id (row.totpSecret.getD []) step code
      (h.now e 0)) (by simp) (by simp) trivial

theorem outcome_heldUser {i : Nat} {f : User → Hub} (hf : ∀ user, h.held[i]? = some user → Outcome e h c (f user)) :
    Outcome e h c (h.heldUser i f) := by
  rcases heldUser_cases (h := h) i f with heq | ⟨user, hi, heq⟩
  · rw [heq]
    exact .same rfl rfl
  · rw [heq]
    exact hf user hi

theorem outcome_call (hon : FactorOn h) (c : Call) : Outcome e h c (h.call e cfg c) := by
  cases c with
  | login username password otp ip => exact outcome_login hon username password otp ip
  | logout raw => exact .same rfl rfl
  | guarded g r => exact outcome_guarded g r
  | begin2fa i code => exact outcome_heldUser fun user hi => outcome_begin2fa hi code
  | confirm2fa i code => exact outcome_heldUser fun user _ => outcome_confirm2fa user code
  | elevate i code => exact outcome_heldUser fun user hi => outcome_elevate hi code
  | setPassword uid password =>
    rcases setPassword_cases (e := e) (h := h) uid password with ⟨err, heq⟩ | heq
    · exact .same (by simp [Hub.call, heq]) (by simp [Hub.call, heq])
    · exact .event (x := .passwordSet uid) (by simp [Hub.call, heq]) (by simp [Hub.call, heq]) trivial
  | reset2fa uid => exact .event (x := .reset uid) (by simp [Hub.call, reset2fa]) (by simp [Hub.call, reset2fa]) trivial
  | createUser username password role =>
    rcases createUser_cases (e := e) (h := h) username password role with
      ⟨err, heq⟩ | ⟨uid, row, -, -, -, -, heq⟩
    · exact .same (by simp [Hub.call, heq]) (by simp [Hub.call, heq])
    · exact .same (by simp [Hub.call, heq]) (by simp [Hub.call, heq])
  | deleteUser uid =>
    rcases deleteUser_cases (h := h) uid with ⟨err, heq⟩ | heq
    · exact .same (by simp [Hub.call, heq]) (by simp [Hub.call, heq])
    · exact .event (x := .deleted uid) (by simp [Hub.call, heq]) (by simp [Hub.call, heq]) trivial
  | prune => exact .pruned rfl rfl
  | enrollFail ip => exact .more _ rfl rfl

/-! ## Counts -/

/-- A count of failing checks, the rows of the table that stand for them, and how
many there may be. -/
structure Meter where
  time : Event → Option Nat
  row : Fail → Bool
  limit : Nat

def Meter.hits (M : Meter) (log : List Event) : List Nat := log.filterMap M.time

def Meter.rows (M : Meter) (rows : List Fail) : List Nat := (rows.filter M.row).map Fail.ts

/-- Failing logins under a name. -/
def byName (u : Str) : Meter where
  time
    | .loginFailed u' _ t => if u' = u then some t else none
    | _ => none
  row f := f.username = u
  limit := maxFailUser

/-- Failing logins from an address. -/
def byIp (ip : Str) : Meter where
  time
    | .loginFailed _ ip' t => if ip' = ip then some t else none
    | _ => none
  row f := f.ip = ip
  limit := maxFailIp

/-- Wrong codes that were compared with the active secret of a user. -/
def byCode (u : Str) : Meter where
  time
    | .wrongCode u' t => if u' = u then some t else none
    | _ => none
  row f := f.username = u
  limit := maxFailUser

/-- A failing login is counted at most once, and where it is counted its row
stands for it and the table had fewer rows than the limit. -/
structure Meter.Fits (M : Meter) : Prop where
  quiet : ∀ x, Quiet x → M.time x = none
  failed : ∀ (h : Hub) now ip u xs t ts, tooMany h now ip u = false → (xs = [] ∨ xs = [.wrongCode u t]) →
    M.hits (xs ++ [.loginFailed u ip t]) = [] ∨
      (M.hits (xs ++ [.loginFailed u ip t]) = [t] ∧ M.row ⟨ip, u, ts⟩ = true ∧
        recent failWindow now (M.rows h.loginFail) < M.limit)

def Meter.Kept (M : Meter) (clock : Nat) (h : Hub) : Prop :=
  limits.Kept failWindow M.limit clock (M.hits h.log) (M.rows h.loginFail)

variable {M : Meter} {ip u : Str}

theorem Meter.hits_append (log xs : List Event) : M.hits (log ++ xs) = M.hits log ++ M.hits xs :=
  List.filterMap_append

theorem Meter.rows_append (rows : List Fail) (f : Fail) :
    M.rows (rows ++ [f]) = M.rows rows ++ if M.row f then [f.ts] else [] := by
  unfold Meter.rows
  rw [List.filter_append, List.map_append]
  cases hf : M.row f <;> simp [hf]

theorem Meter.hits_quiet (hM : M.Fits) {xs : List Event} (hxs : ∀ x ∈ xs, Quiet x) : M.hits xs = [] := by
  unfold Meter.hits
  rw [List.filterMap_eq_nil_iff]
  exact fun x hx => hM.quiet x (hxs x hx)

/-- What the table shows to `_too_many`. -/
theorem recent_rows (p : Fail → Bool) (rows : List Fail) (now : Nat) :
    (rows.filter fun f => p f ∧ now < f.ts + failWindow).length =
      recent failWindow now ((rows.filter p).map Fail.ts) := by
  unfold recent
  rw [List.countP_map, List.countP_filter, List.countP_eq_length_filter]
  congr 2
  funext f
  simp [Bool.and_comm]

theorem tooMany_false {now : Nat} : tooMany h now ip u = false ↔
    recent failWindow now ((byIp ip).rows h.loginFail) < maxFailIp ∧
      recent failWindow now ((byName u).rows h.loginFail) < maxFailUser := by
  have hip := recent_rows (fun f => f.ip = ip) h.loginFail now
  have hname := recent_rows (fun f => f.username = u) h.loginFail now
  simp only [decide_eq_true_eq] at hip hname
  unfold tooMany
  rw [hip, hname]
  simp only [Bool.or_eq_false_iff, decide_eq_false_iff_not, Nat.not_le]
  rfl

theorem byName_fits (u : Str) : (byName u).Fits where
  quiet x hx := by cases x <;> simp_all [Quiet, byName]
  failed := by
    intro h now ip u' xs t ts hfew hxs
    have hhits : (byName u).hits (xs ++ [.loginFailed u' ip t]) = if u' = u then [t] else [] := by
      rcases hxs with rfl | rfl <;> by_cases hu : u' = u <;> simp [Meter.hits, byName, hu]
    rw [hhits]
    by_cases hu : u' = u
    · subst hu
      exact .inr ⟨if_pos rfl, by simp [byName], (tooMany_false.mp hfew).2⟩
    · exact .inl (if_neg hu)

theorem byIp_fits (ip : Str) : (byIp ip).Fits where
  quiet x hx := by cases x <;> simp_all [Quiet, byIp]
  failed := by
    intro h now ip' u xs t ts hfew hxs
    have hhits : (byIp ip).hits (xs ++ [.loginFailed u ip' t]) = if ip' = ip then [t] else [] := by
      rcases hxs with rfl | rfl <;> by_cases hi : ip' = ip <;> simp [Meter.hits, byIp, hi]
    rw [hhits]
    by_cases hi : ip' = ip
    · subst hi
      exact .inr ⟨if_pos rfl, by simp [byIp], (tooMany_false.mp hfew).1⟩
    · exact .inl (if_neg hi)

theorem byCode_fits (u : Str) : (byCode u).Fits where
  quiet x hx := by cases x <;> simp_all [Quiet, byCode]
  failed := by
    intro h now ip u' xs t ts hfew hxs
    by_cases hu : u' = u
    · subst hu
      rcases hxs with rfl | rfl
      · exact .inl (by simp [Meter.hits, byCode])
      · exact .inr ⟨by simp [Meter.hits, byCode], by simp [byCode], (tooMany_false.mp hfew).2⟩
    · refine .inl ?_
      rcases hxs with rfl | rfl <;> simp [Meter.hits, byCode, hu]

/-- A request in which the count does not come by its rows does not count. -/
theorem Meter.kept_call (hM : M.Fits) (hclock : e.Ordered) (hk : M.Kept (h.now e 0) h)
    (hout : Outcome e h c h')
    (hforeign : foreign e h c = true → ∀ u ip t, M.time (.loginFailed u ip t) = none)
    (hmissed : uncounted e h c = true → ∀ u t, M.time (.wrongCode u t) = none) :
    M.Kept (e.time (4 * (h.requests + 1))) h' := by
  have hle : ∀ i j, i ≤ j → j ≤ 4 → h.now e i ≤ e.time (4 * h.requests + j) := by
    intro i j hij _
    exact hclock (by omega)
  have hnext : h.now e 0 ≤ e.time (4 * (h.requests + 1)) := hle 0 4 (by omega) (by omega)
  have hk' : M.Kept (e.time (4 * (h.requests + 1))) h := hk.later hnext fun t _ => Nat.le_refl _
  unfold Meter.Kept at *
  cases hout with
  | quiet xs hrows hlog hxs =>
    rw [hrows, hlog, hits_append, hits_quiet hM hxs, List.append_nil]
    exact hk'
  | failed ip u xs hfew hxs hrows hlog =>
    rw [hrows, hlog, hits_append, rows_append]
    rcases hM.failed h (h.now e 0) ip u xs (h.now e 1) (h.now e 2) hfew hxs with hnil | ⟨hone, hrow, hlt⟩
    · rw [hnil, List.append_nil]
      exact hk'.more _
    · rw [hone, if_pos hrow]
      refine hk.hit (Nat.le_refl _) hlt (hle 0 1 ?_ ?_) (hle 1 2 ?_ ?_) (hle 1 4 ?_ ?_) <;> omega
  | crashed ip u hf hrows hlog =>
    have hnil : M.hits [.loginFailed u ip (h.now e 1)] = [] := by simp [Meter.hits, hforeign hf]
    rw [hrows, hlog, hits_append, hnil, List.append_nil]
    exact hk'
  | missed u hm hrows hlog =>
    have hnil : M.hits [.wrongCode u (h.now e 0)] = [] := by simp [Meter.hits, hmissed hm]
    rw [hrows, hlog, hits_append, hnil, List.append_nil]
    exact hk'
  | pruned hrows hlog =>
    have hfilter : M.rows h'.loginFail =
        (M.rows h.loginFail).filter fun s => h.now e 0 ≤ s + failWindow := by
      unfold Meter.rows
      rw [hrows, List.filter_map, List.filter_filter, List.filter_filter]
      congr 2
      funext f
      simp [Bool.and_comm]
    rw [hlog, hfilter]
    exact (hk.prune (Nat.le_refl _)).later hnext fun t _ => Nat.le_refl _
  | more f hrows hlog =>
    rw [hrows, hlog, rows_append]
    exact hk'.more _

/-- In every run that keeps clear of what does not leave a row. -/
theorem Meter.kept_run {P : Hub → Call → Prop} (hM : M.Fits) (hclock : e.Ordered) (cs : List Call)
    (hforeign : ∀ h c, P h c → foreign e h c = true → ∀ u ip t, M.time (.loginFailed u ip t) = none)
    (hmissed : ∀ h c, P h c → uncounted e h c = true → ∀ u t, M.time (.wrongCode u t) = none)
    (hP : runs.Throughout (accounts.step e cfg) P start cs) :
    let h := runs.final (accounts.step e cfg) start cs
    M.Kept (h.now e 0) h := by
  refine (runs.throughout_of_invariant (I := fun h => FactorOn h ∧ M.Kept (h.now e 0) h)
    (Q := fun _ _ => True) ?_ ⟨factorOn_start, kept_nil⟩ hP).2.2
  rintro h c ⟨hon, hk⟩ hPc
  have hcall : M.Kept (e.time (4 * (h.requests + 1))) (h.call e cfg c) :=
    kept_call hM hclock hk (outcome_call hon c) (hforeign h c hPc) (hmissed h c hPc)
  exact ⟨⟨factorOn_step hon c, hcall⟩, trivial⟩

/-! ## Failing logins -/

/-- In any fifteen minutes at most eight failing checks are made for a name and
at most ten for an address, in every run in which no login compares foreign
digits. Where there were as many, a login is refused before it checks anything. -/
theorem logins_limited (hclock : e.Ordered) (cs : List Call)
    (hascii : runs.Throughout (accounts.step e cfg) (fun h c => foreign e h c = false) start cs) :
    let h := runs.final (accounts.step e cfg) start cs
    (∀ u t, within failWindow t ((byName u).hits h.log) ≤ maxFailUser) ∧
    (∀ ip t, within failWindow t ((byIp ip).hits h.log) ≤ maxFailIp) ∧
    ∀ username password otp ip,
      (maxFailUser ≤ within failWindow (h.now e 0) ((byName (loginName e username)).hits h.log) ∨
        maxFailIp ≤ within failWindow (h.now e 0) ((byIp ip).hits h.log)) →
      login e username password otp ip h =
        (.error (.auth "تلاشِ ناموفقِ زیاد؛ ۱۵ دقیقهٔ دیگر دوباره امتحان کنید" 429 none), h) := by
  intro h
  have hname (u : Str) : (byName u).Kept (h.now e 0) h := by
    refine Meter.kept_run (byName_fits u) hclock cs ?_ (fun _ _ _ _ _ _ => rfl) hascii
    intro h c hno hforeign
    rw [hno] at hforeign
    cases hforeign
  have hip (ip : Str) : (byIp ip).Kept (h.now e 0) h := by
    refine Meter.kept_run (byIp_fits ip) hclock cs ?_ (fun _ _ _ _ _ _ => rfl) hascii
    intro h c hno hforeign
    rw [hno] at hforeign
    cases hforeign
  refine ⟨fun u => (hname u).bounded, fun ip => (hip ip).bounded, ?_⟩
  intro username password otp ip hfull
  have hmany : tooMany h (h.now e 0) ip (loginName e username) = true := by
    rw [← Bool.not_eq_false, tooMany_false]
    rintro ⟨hfewIp, hfewName⟩
    rcases hfull with hfull | hfull
    · exact Nat.not_lt.mpr ((hname _).full (Nat.le_refl _) hfull) hfewName
    · exact Nat.not_lt.mpr ((hip ip).full (Nat.le_refl _) hfull) hfewIp
  exact if_pos hmany

/-- A login of the admin with a code. -/
def loginWith (otp : Str) : Call :=
  .login "admin".toList "correct-horse-1".toList (some otp) "192.0.2.7".toList

/-- An account, and logins with a wrong password. -/
def guessing : List Call :=
  .createUser "admin".toList "correct-horse-1".toList adminRole ::
    List.replicate 9 (.login " Admin ".toList "nope-nope-nope".toList none "192.0.2.7".toList)

theorem slowly_ordered : (sampleEnv slowly).Ordered := by
  intro i j hij
  simp only [sampleEnv, slowly]
  omega

theorem guessing_limited :
    let h := runs.final (accounts.step (sampleEnv slowly) panel) start guessing
    within failWindow 1750000320 ((byName "admin".toList).hits h.log) = maxFailUser ∧
    (∀ u t, within failWindow t ((byName u).hits h.log) ≤ maxFailUser) ∧
    ∀ password otp ip, login (sampleEnv slowly) "admin".toList password otp ip h =
      (.error (.auth "تلاشِ ناموفقِ زیاد؛ ۱۵ دقیقهٔ دیگر دوباره امتحان کنید" 429 none), h) := by
  intro h
  have hlimited := @logins_limited (sampleEnv slowly) panel slowly_ordered guessing (by decide +kernel)
  refine ⟨by decide +kernel, hlimited.1, fun password otp ip => hlimited.2.2 _ password otp ip (.inl ?_)⟩
  decide +kernel

/-- Nine logins with the right password and Arabic digits as a code. -/
def foreignDigits : List Call :=
  renewing.take 5 ++ List.replicate 9 (loginWith "٠٠٠٠٠١".toList)

theorem foreign_unlimited :
    ¬ ∀ u t, within failWindow t
      ((byName u).hits (runs.final (accounts.step (sampleEnv slowly) panel) start foreignDigits).log) ≤
        maxFailUser := by
  intro h
  exact absurd (h "admin".toList 1750000448) (by decide +kernel)

/-! ## Wrong codes -/

/-- In any fifteen minutes at most eight wrong codes are compared with the active
secret of a user, in every run in which `elevate` and `begin_2fa` compare none. -/
theorem codes_limited (hclock : e.Ordered) (cs : List Call)
    (hcounted : runs.Throughout (accounts.step e cfg) (fun h c => uncounted e h c = false) start cs)
    (u : Str) (t : Nat) :
    within failWindow t ((byCode u).hits (runs.final (accounts.step e cfg) start cs).log) ≤ maxFailUser := by
  refine (Meter.kept_run (byCode_fits u) hclock cs (fun _ _ _ _ _ _ _ => rfl) ?_ hcounted).bounded t
  intro h c hno hmissed
  rw [hno] at hmissed
  cases hmissed

/-- The account with its second factor on, and two logins with a wrong code. -/
def mistyping : List Call := renewing.take 5 ++ List.replicate 2 (loginWith "000001".toList)

theorem mistyping_limited :
    let log := (runs.final (accounts.step (sampleEnv slowly) panel) start mistyping).log
    within failWindow 1750000224 ((byCode "admin".toList).hits log) = 2 ∧
    ∀ t, within failWindow t ((byCode "admin".toList).hits log) ≤ maxFailUser :=
  ⟨by decide +kernel, codes_limited slowly_ordered mistyping (by decide +kernel) "admin".toList⟩

/-- Nine wrong codes at `elevate`, with the cookie alone. -/
def elevating : List Call := renewing.take 5 ++ List.replicate 9 (.elevate 0 "000001".toList)

theorem elevate_unlimited :
    ¬ ∀ u t, within failWindow t
      ((byCode u).hits (runs.final (accounts.step (sampleEnv slowly) panel) start elevating).log) ≤
        maxFailUser := by
  intro h
  exact absurd (h "admin".toList 1750000448) (by decide +kernel)

end icsd_panel.attempts

-- What `verify_totp` returns for each string, and what a request with a wrong
-- one-time code is answered.
import IcsdPanel.SecondFactors

open dicts texts

namespace icsd_panel.codes

open security accounts second_factors

/-! ## The six digits -/

variable {e : Env} {cfg : Settings} {h : Hub} {key code : Str} {last now s : Nat} {steps : List Nat}

theorem hotp_length : (hotp e key s).length = 6 := by
  have hpad (word : Nat) : ((Nat.toDigits 10 (word % 1000000)).leftpad 6 '0').length = 6 := by
    have hlt : word % 1000000 < 10 ^ 6 := by omega
    have hle := (Nat.length_toDigits_le_iff (by decide) (by decide)).mpr hlt
    simp only [List.leftpad, List.length_append, List.length_replicate]
    omega
  apply hpad

theorem hotp_isDigit {c : Char} (hc : c ∈ hotp e key s) : c.isDigit = true := by
  unfold hotp at hc
  simp only [List.leftpad, List.mem_append, List.mem_replicate] at hc
  rcases hc with ⟨-, rfl⟩ | hc
  · decide
  · exact Nat.isDigit_of_mem_toDigits (by decide) (by decide) hc

theorem isDigit_ascii {c : Char} (hc : c.isDigit = true) : c.toNat < 128 := by
  simp only [Char.isDigit, Bool.and_eq_true, decide_eq_true_eq] at hc
  have hle : c.toNat ≤ 57 := hc.2
  omega

theorem hotp_ascii : isAscii (hotp e key s) = true := by
  unfold isAscii
  rw [List.all_eq_true]
  intro c hc
  simpa using isDigit_ascii (hotp_isDigit hc)

theorem hotp_sixDigits (hdigit : ∀ c : Char, c.isDigit = true → e.isdigit c = true) :
    sixDigits e (hotp e key s) = true := by
  unfold sixDigits
  rw [Bool.and_eq_true, List.all_eq_true]
  refine ⟨?_, fun c hc => hdigit c (hotp_isDigit hc)⟩
  simp [hotp_length]

/-! ## The check of a code -/

/-- The step is above the last one, and the code is the one of the step. -/
def Matches (e : Env) (key code : Str) (last now s : Nat) : Prop := last < s ∧ Valid e key s code now

/-- `verify_totp` returns a step that the code matches exactly when there is one. -/
def Checks (e : Env) (key code : Str) (last now : Nat) : Prop :=
  ∃ s, verifyTotp e (some key) code last now = .ok s ∧
    (s ≠ 0 → Matches e key code last now s) ∧ (s = 0 → ∀ t, ¬ Matches e key code last now t)

/-- Six digits that are not all ASCII come to be compared. -/
def Foreign (e : Env) (code : Str) (last now : Nat) : Prop :=
  compares e code last now = true ∧ isAscii (cleanCode code) = false

theorem matchStep_foreign (hsome : (steps.any fun s => last < s) = true) (hascii : isAscii code = false) :
    matchStep e (some key) code last steps = .error .typeError := by
  induction steps with
  | nil => simp at hsome
  | cons a steps ih =>
    unfold matchStep
    by_cases ha : last < a
    · simp [ha, hascii]
    · rw [if_neg ha]
      apply ih
      simpa [ha] using hsome

/-- No step is passed by whose code is the given one. -/
theorem matchStep_zero (h : matchStep e (some key) code last steps = .ok 0) {t : Nat} (ht : t ∈ steps)
    (hlast : last < t) : hotp e key t ≠ code := by
  induction steps with
  | nil => simp at ht
  | cons a steps ih =>
    unfold matchStep at h
    by_cases ha : last < a
    · simp only [if_pos ha] at h
      split at h
      · cases h
      · split at h
        · -- the step that matches is not the zeroth
          simp only [Except.ok.injEq] at h
          omega
        · rename_i hne
          rcases List.mem_cons.mp ht with rfl | ht
          · exact hne
          · exact ih h ht
    · rw [if_neg ha] at h
      rcases List.mem_cons.mp ht with rfl | ht
      · omega
      · exact ih h ht

theorem not_matches_foreign (hascii : isAscii (cleanCode code) = false) : ¬ Matches e key code last now s := by
  rintro ⟨-, hvalid⟩
  rw [← hvalid.code, hotp_ascii] at hascii
  cases hascii

theorem verifyTotp_foreign (hforeign : Foreign e code last now) :
    verifyTotp e (some key) code last now = .error .typeError := by
  obtain ⟨hcompares, hascii⟩ := hforeign
  simp only [compares, Bool.and_eq_true] at hcompares
  unfold verifyTotp
  simp only [hcompares.1, Bool.not_true]
  exact matchStep_foreign hcompares.2 hascii

theorem verifyTotp_zero (hdigit : ∀ c : Char, c.isDigit = true → e.isdigit c = true)
    (h : verifyTotp e (some key) code last now = .ok 0) (t : Nat) : ¬ Matches e key code last now t := by
  rintro ⟨hlast, hnear, hcode⟩
  unfold verifyTotp at h
  rw [← hcode] at h
  simp only [hotp_sixDigits hdigit, Bool.not_true] at h
  exact matchStep_zero h hnear hlast rfl

theorem checks_iff (hdigit : ∀ c : Char, c.isDigit = true → e.isdigit c = true) :
    Checks e key code last now ↔ ¬ Foreign e code last now := by
  constructor
  · rintro ⟨s, hs, -⟩ hforeign
    rw [verifyTotp_foreign hforeign] at hs
    cases hs
  · intro hforeign
    cases hs : verifyTotp e (some key) code last now with
    | error c => exact absurd (verifyTotp_error hs) hforeign
    | ok s =>
      refine ⟨s, hs, ?_, ?_⟩
      · intro hne
        obtain ⟨key', hkey, hlast, hvalid⟩ := verifyTotp_ok hs hne
        cases hkey
        exact ⟨hlast, hvalid⟩
      · rintro rfl
        exact verifyTotp_zero hdigit hs

/-! ## Requests with a code -/

/-- A request that checks a code; the user is the one that a guard let through. -/
inductive Turn
  | login (username password : Str) (otp : Option Str) (ip : Str)
  | begin2fa (user : User) (code : Option Str)
  | confirm2fa (user : User) (code : Str)
  | elevate (user : User) (code : Str)

/-- The arguments of `verify_totp`. -/
structure Check where
  secret : Option Str
  code : Str
  last : Nat
  now : Nat
deriving DecidableEq

/-- A code of a user whose second factor is on. -/
def rowCheck (e : Env) (h : Hub) (user : User) (code : Str) : Option Check :=
  match h.users.get user.id with
  | none => none
  | some row => if row.totpOn then some ⟨row.totpSecret, code, row.totpLast, h.now e 0⟩ else none

/-- What a request comes to check, if it does. -/
def Turn.check (e : Env) (h : Hub) : Turn → Option Check
  | .login username password otp ip =>
    match h.named (loginName e username) with
    | none => none
    | some (_, row) =>
      if tooMany h (h.now e 0) ip (loginName e username) || !verifyPassword e password row.pwHash ||
          !row.totpOn || otp.getD [] = [] then none
      else some ⟨row.totpSecret, otp.getD [], row.totpLast, h.now e 1⟩
  | .begin2fa user code => rowCheck e h user (code.getD [])
  | .confirm2fa user code =>
    (((h.users.get user.id).bind UserRow.totpPending).filter (· ≠ [])).map
      fun pending => ⟨some pending, code, 0, h.now e 0⟩
  | .elevate user code => rowCheck e h user code

/-- The code is not one of the secret. -/
def Check.Wrong (e : Env) (c : Check) : Prop :=
  ∀ key, c.secret = some key → ∀ s, ¬ Matches e key c.code c.last c.now s

def Check.Foreign (e : Env) (c : Check) : Prop := codes.Foreign e c.code c.last c.now

def raised {α : Type} : Except Err α → Option Err
  | .error err => some err
  | .ok _ => none

/-- The request: what it raises, and the hub after it. -/
def Turn.take (e : Env) (h : Hub) : Turn → Option Err × Hub
  | .login username password otp ip => (accounts.login e username password otp ip h).map raised id
  | .begin2fa user code => (accounts.begin2fa e user code h).map raised id
  | .confirm2fa user code => (accounts.confirm2fa e user code h).map raised id
  | .elevate user code => (accounts.elevate e user code h).map raised id

/-- The rows that a wrong code adds to `login_fail`. -/
def Turn.failures (e : Env) (h : Hub) : Turn → List Fail
  | .login username _ _ ip => [⟨ip, loginName e username, h.now e 2⟩]
  | _ => []

/-- A wrong code is answered with an `AuthError`, and a login counts it. -/
def Answered (e : Env) (h : Hub) (t : Turn) : Prop :=
  ∀ c, t.check e h = some c → c.Wrong e →
    (∃ message status extra, (t.take e h).1 = some (.auth message status extra)) ∧
    (t.take e h).2.loginFail = h.loginFail ++ t.failures e h

variable {c : Check} {t : Turn}

/-- What a request does with the result of its check. -/
structure Obeys (e : Env) (h : Hub) (t : Turn) (c : Check) : Prop where
  raises (x : Crash) (hx : verifyTotp e c.secret c.code c.last c.now = .error x) :
    (t.take e h).1 = some (.crash x)
  refuses (hzero : verifyTotp e c.secret c.code c.last c.now = .ok 0) :
    (∃ message status extra, (t.take e h).1 = some (.auth message status extra)) ∧
    (t.take e h).2.loginFail = h.loginFail ++ t.failures e h

theorem refuse_loginFail {username : Str} {at_ : Nat} :
    (refuse e username code last at_ h).loginFail = h.loginFail := by
  unfold refuse
  split
  · simp
  · rfl

theorem refuse_now {username : Str} {at_ k : Nat} : (refuse e username code last at_ h).now e k = h.now e k := by
  unfold refuse
  split
  · apply note_now
  · rfl

theorem rowCheck_eq {user : User} (hc : rowCheck e h user code = some c) :
    ∃ row, h.users.get user.id = some row ∧ row.totpOn = true ∧
      c = ⟨row.totpSecret, code, row.totpLast, h.now e 0⟩ := by
  unfold rowCheck at hc
  split at hc
  · cases hc
  · rename_i row hrow
    simp only [Option.ite_none_right_eq_some, Option.some.injEq] at hc
    exact ⟨row, hrow, hc.1, hc.2.symm⟩

theorem obeys_login {username password ip : Str} {otp : Option Str}
    (hc : (Turn.login username password otp ip).check e h = some c) :
    Obeys e h (.login username password otp ip) c := by
  simp only [Turn.check] at hc
  cases hn : h.named (loginName e username) with
  | none => simp [hn] at hc
  | some found =>
    obtain ⟨uid, row⟩ := found
    simp only [hn, Bool.or_eq_true, Bool.not_eq_true', decide_eq_true_eq, Option.ite_none_left_eq_some,
      Option.some.injEq, not_or, Bool.not_eq_true, Bool.not_eq_false] at hc
    obtain ⟨⟨⟨⟨hfew, hpw⟩, hon⟩, hcode⟩, rfl⟩ := hc
    constructor
    · intro x hx
      simp [Turn.take, login, hfew, hn, hpw, hon, hcode, hx, raised]
    · intro hzero
      simp only at hzero
      constructor
      · simp [Turn.take, login, hfew, hn, hpw, hon, hcode, hzero, raised]
      · simp [Turn.take, login, hfew, hn, hpw, hon, hcode, hzero, failLogin, refuse_loginFail, refuse_now,
          Turn.failures]

theorem obeys_begin2fa {user : User} {current : Option Str}
    (hc : (Turn.begin2fa user current).check e h = some c) :
    Obeys e h (.begin2fa user current) c := by
  obtain ⟨row, hrow, hon, rfl⟩ := rowCheck_eq hc
  constructor
  · intro x hx
    simp [Turn.take, begin2fa, hrow, hon, hx, raised]
  · intro hzero
    simp only at hzero
    constructor
    · simp [Turn.take, begin2fa, hrow, hon, hzero, raised]
    · simp [Turn.take, begin2fa, hrow, hon, hzero, refuse_loginFail, Turn.failures]

theorem obeys_confirm2fa {user : User} (hc : (Turn.confirm2fa user code).check e h = some c) :
    Obeys e h (.confirm2fa user code) c := by
  simp only [Turn.check, Option.map_eq_some_iff] at hc
  obtain ⟨pending, hpending, rfl⟩ := hc
  constructor
  · intro x hx
    simp only [Turn.take, confirm2fa, hpending, hx]
    rfl
  · intro hzero
    simp only [Turn.take, confirm2fa, hpending, hzero]
    refine ⟨⟨_, _, _, rfl⟩, ?_⟩
    simp [Turn.failures]

theorem obeys_elevate {user : User} (hc : (Turn.elevate user code).check e h = some c) :
    Obeys e h (.elevate user code) c := by
  obtain ⟨row, hrow, hon, rfl⟩ := rowCheck_eq hc
  constructor
  · intro x hx
    simp [Turn.take, elevate, hrow, hon, hx, raised]
  · intro hzero
    simp only at hzero
    constructor
    · simp [Turn.take, elevate, hrow, hon, hzero, raised]
    · simp [Turn.take, elevate, hrow, hon, hzero, refuse_loginFail, Turn.failures]

theorem obeys_check (hc : t.check e h = some c) : Obeys e h t c := by
  cases t with
  | login username password otp ip => exact obeys_login hc
  | begin2fa user current => exact obeys_begin2fa hc
  | confirm2fa user code => exact obeys_confirm2fa hc
  | elevate user code => exact obeys_elevate hc

theorem rowCheck_secret {user : User} (hon : FactorOn h) (hc : rowCheck e h user code = some c) :
    ∃ key, c.secret = some key := by
  obtain ⟨row, hrow, htotp, rfl⟩ := rowCheck_eq hc
  have hkey := hon user.id row hrow
  rw [htotp] at hkey
  exact Option.isSome_iff_exists.mp hkey.symm

/-- What a request checks against is a secret. -/
theorem check_secret (hon : FactorOn h) (hc : t.check e h = some c) : ∃ key, c.secret = some key := by
  cases t with
  | login username password otp ip =>
    simp only [Turn.check] at hc
    cases hn : h.named (loginName e username) with
    | none => simp [hn] at hc
    | some found =>
      obtain ⟨uid, row⟩ := found
      simp only [hn, Option.ite_none_left_eq_some, Option.some.injEq] at hc
      obtain ⟨hrow, rfl⟩ := hc
      have hkey := hon uid row (named_eq hn).1
      simp only [Bool.or_eq_true, Bool.not_eq_true', not_or, Bool.not_eq_false] at hrow
      rw [hrow.1.2] at hkey
      exact Option.isSome_iff_exists.mp hkey.symm
  | begin2fa user current =>
    exact rowCheck_secret hon hc
  | confirm2fa user code =>
    simp only [Turn.check, Option.map_eq_some_iff] at hc
    obtain ⟨pending, -, rfl⟩ := hc
    exact ⟨pending, rfl⟩
  | elevate user code =>
    exact rowCheck_secret hon hc

theorem answered_iff_foreign (hon : FactorOn h) : Answered e h t ↔ ∀ c, t.check e h = some c → ¬ c.Foreign e := by
  constructor
  · intro hanswered c hc hforeign
    obtain ⟨key, hkey⟩ := check_secret hon hc
    -- foreign digits are no code, and their comparison raises
    have hwrong : c.Wrong e := fun _ _ _ => not_matches_foreign hforeign.2
    obtain ⟨⟨message, status, extra, hauth⟩, -⟩ := hanswered c hc hwrong
    have hraised : verifyTotp e (some key) c.code c.last c.now = .error .typeError :=
      verifyTotp_foreign hforeign
    rw [← hkey] at hraised
    rw [(obeys_check hc).raises .typeError hraised] at hauth
    cases hauth
  · intro hplain c hc hwrong
    obtain ⟨key, hkey⟩ := check_secret hon hc
    apply (obeys_check hc).refuses
    cases hs : verifyTotp e c.secret c.code c.last c.now with
    | error x =>
      rw [hkey] at hs
      exact absurd (verifyTotp_error hs) (hplain c hc)
    | ok s =>
      by_cases hzero : s = 0
      · rw [hzero]
      · obtain ⟨key', hkey', hlast, hvalid⟩ := verifyTotp_ok hs hzero
        exact absurd ⟨hlast, hvalid⟩ (hwrong key' hkey' s)

theorem factorOn_run (cs : List Call) : FactorOn (runs.final (accounts.step e cfg) start cs) :=
  runs.final_invariant (P := fun _ => True) (fun _ c hon _ => factorOn_step hon c) factorOn_start
    fun _ _ => trivial

/-- A code is checked without an exception, and a wrong one answered, exactly where
it is not one of foreign digits that come to be compared. -/
theorem codes_checked (hdigit : ∀ c : Char, c.isDigit = true → e.isdigit c = true) (cs : List Call)
    (hrun : runs.final (accounts.step e cfg) start cs = h) :
    (∀ key code last now, Checks e key code last now ↔ ¬ Foreign e code last now) ∧
    ∀ t, Answered e h t ↔ ∀ c, t.check e h = some c → ¬ c.Foreign e := by
  refine ⟨fun _ _ _ _ => checks_iff hdigit, fun t => answered_iff_foreign ?_⟩
  rw [← hrun]
  apply factorOn_run

/-- A login of the admin, whose second factor is on. -/
def loginWith (otp : String) : Turn :=
  .login "admin".toList "correct-horse-1".toList (some otp.toList) "192.0.2.7".toList

theorem renewing_checked :
    ∃ h, runs.final (accounts.step (sampleEnv slowly) panel) start (renewing.take 5) = h ∧
      Checks (sampleEnv slowly) totpSecretA "000001".toList 58333337 1750000168 ∧
      (loginWith "000001").check (sampleEnv slowly) h =
        some ⟨some totpSecretA, "000001".toList, 58333337, 1750000168⟩ ∧
      Answered (sampleEnv slowly) h (loginWith "000001") := by
  have hdigit (c : Char) (hc : c.isDigit = true) : (sampleEnv slowly).isdigit c = true := by
    simp [sampleEnv, hc]
  obtain ⟨hchecks, hanswered⟩ := @codes_checked (sampleEnv slowly) panel _ hdigit (renewing.take 5) rfl
  refine ⟨_, rfl, ?_, by decide +kernel, ?_⟩
  · rw [hchecks]
    rintro ⟨-, hascii⟩
    exact absurd hascii (by decide +kernel)
  · rw [hanswered]
    rintro c hc ⟨-, hascii⟩
    have hcode : ((loginWith "000001").check (sampleEnv slowly)
        (runs.final (accounts.step (sampleEnv slowly) panel) start (renewing.take 5))).map
          (fun c => isAscii (cleanCode c.code)) = some true := by decide +kernel
    rw [hc, Option.map_some, hascii] at hcode
    cases hcode

/-- Arabic digits are digits, and cannot be compared. -/
theorem arabic_raises :
    ¬ Checks (sampleEnv slowly) totpSecretA "١٢٣٤٥٦".toList 58333337 1750000168 ∧
    ¬ Answered (sampleEnv slowly)
      (runs.final (accounts.step (sampleEnv slowly) panel) start (renewing.take 5)) (loginWith "١٢٣٤٥٦") := by
  have hforeign : Foreign (sampleEnv slowly) "١٢٣٤٥٦".toList 58333337 1750000168 :=
    ⟨by decide +kernel, by decide +kernel⟩
  constructor
  · rintro ⟨s, hs, -⟩
    rw [verifyTotp_foreign hforeign] at hs
    cases hs
  · intro hanswered
    have hcheck : (loginWith "١٢٣٤٥٦").check (sampleEnv slowly)
        (runs.final (accounts.step (sampleEnv slowly) panel) start (renewing.take 5)) =
          some ⟨some totpSecretA, "١٢٣٤٥٦".toList, 58333337, 1750000168⟩ := by decide +kernel
    exact (answered_iff_foreign (factorOn_run _)).mp hanswered _ hcheck hforeign

end icsd_panel.codes

-- The second factor of an account: which one-time codes are accepted, and how the
-- secret behind them changes.
import IcsdPanel.Accounts

open dicts logs texts

namespace icsd_panel.second_factors

open security accounts

/-! ## What a log says of codes -/

/-- An event that is about the codes of a user. -/
def Touches (uid : Nat) : Event → Prop
  | .accepted _ uid' .. => uid' = uid
  | .reset uid' => uid' = uid
  | .deleted uid' => uid' = uid
  | _ => False

/-- A code of a user is accepted. -/
def Accepts (uid : Nat) (secret : Str) (step : Nat) (x : Event) : Prop :=
  ∃ entry code t, x = .accepted entry uid secret step code t

/-- The active secret of a user changes: a pending one is confirmed, the second
factor is reset, or the user is deleted. -/
def Changes (uid : Nat) : Event → Prop
  | .accepted (.confirm2fa _) uid' .. => uid' = uid
  | .reset uid' => uid' = uid
  | .deleted uid' => uid' = uid
  | _ => False

/-- The secret that is active after an event. -/
def activate (uid : Nat) (s : Option Str) : Event → Option Str
  | .accepted (.confirm2fa _) uid' secret .. => if uid' = uid then some secret else s
  | .reset uid' => if uid' = uid then none else s
  | .deleted uid' => if uid' = uid then none else s
  | _ => s

def activeSecret (uid : Nat) (log : List Event) : Option Str := log.foldl (activate uid) none

/-- The pairs of secret and time step that were accepted of a user. -/
def pairs (uid : Nat) (log : List Event) : List (Str × Nat) :=
  log.filterMap fun
    | .accepted _ uid' secret step _ _ => if uid' = uid then some (secret, step) else none
    | _ => none

/-- Each accepted code is one of its secret, is newer than all accepted of that
secret before, and other than at a confirmation the secret is the active one. -/
def Sound (e : Env) (before : List Event) (x : Event) : Prop :=
  ∀ entry uid secret step code t, x = .accepted entry uid secret step code t →
    Valid e secret step code t ∧
    (∀ y ∈ before, ∀ step', Accepts uid secret step' y → step' < step) ∧
    ((∀ session, entry ≠ .confirm2fa session) → activeSecret uid before = some secret)

/-- A pending secret was installed with a code of the secret `active`. -/
def Installed (uid : Nat) (active pending : Str) (log : List Event) : Prop :=
  ∃ before step code t after,
    log = before ++ .accepted (.begin2fa pending) uid active step code t :: after

variable {e : Env} {h h' : Hub} {uid n m : Nat} {log : List Event} {x : Event} {row : Option UserRow}
variable {r : UserRow} {secret pending : Str}

@[simp] theorem activeSecret_snoc : activeSecret uid (log ++ [x]) = activate uid (activeSecret uid log) x := by
  simp [activeSecret]

theorem activate_of_not_changes (hx : ¬ Changes uid x) (s : Option Str) : activate uid s x = s := by
  unfold activate
  split
  · exact if_neg hx
  · exact if_neg hx
  · exact if_neg hx
  · rfl

theorem touches_of_changes (hx : Changes uid x) : Touches uid x := by
  unfold Changes at hx
  split at hx
  · exact hx
  · exact hx
  · exact hx
  · exact hx.elim

theorem Installed.snoc (hi : Installed uid secret pending log) : Installed uid secret pending (log ++ [x]) := by
  obtain ⟨before, step, code, t, after, rfl⟩ := hi
  exact ⟨before, step, code, t, after ++ [x], by simp⟩

/-! ## The invariant of a user -/

/-- What the row of a user has to do with the log, after `n` draws of secrets. -/
structure UserGood (e : Env) (n uid : Nat) (row : Option UserRow) (log : List Event) : Prop where
  active : row.bind UserRow.totpSecret = activeSecret uid log
  on : ∀ r, row = some r → r.totpOn = r.totpSecret.isSome
  last : ∀ r secret, row = some r → r.totpSecret = some secret →
    ∀ x ∈ log, ∀ step, Accepts uid secret step x → step ≤ r.totpLast
  pending : ∀ r p, row = some r → r.totpPending = some p →
    (∃ i < n, p = e.newTotpSecret i) ∧ ∀ x ∈ log, ∀ step, ¬ Accepts uid p step x
  renewed : ∀ r secret p, row = some r → r.totpSecret = some secret → r.totpPending = some p →
    Installed uid secret p log

theorem UserGood.mono (hg : UserGood e n uid row log) (hnm : n ≤ m) : UserGood e m uid row log where
  active := hg.active
  on := hg.on
  last := hg.last
  pending r p hr hp := by
    obtain ⟨⟨i, hi, hpi⟩, hnew⟩ := hg.pending r p hr hp
    exact ⟨⟨i, Nat.lt_of_lt_of_le hi hnm, hpi⟩, hnew⟩
  renewed := hg.renewed

/-- What does not touch the codes of a user leaves its invariant. -/
theorem UserGood.frame (hg : UserGood e n uid row log) (hx : ¬ Touches uid x) :
    UserGood e n uid row (log ++ [x]) := by
  have hold : ∀ y ∈ log ++ [x], ∀ secret step, Accepts uid secret step y → y ∈ log := by
    intro y hy secret step hacc
    rcases List.mem_append.mp hy with hy | hy
    · exact hy
    · obtain ⟨entry, code, t, rfl⟩ := hacc
      rw [← List.mem_singleton.mp hy] at hx
      exact absurd rfl hx
  constructor
  case active =>
    rw [activeSecret_snoc, activate_of_not_changes (fun hc => hx (touches_of_changes hc)), hg.active]
  case on => exact hg.on
  case last =>
    intro r secret hr hs y hy step hacc
    exact hg.last r secret hr hs y (hold y hy secret step hacc) step hacc
  case pending =>
    intro r p hr hp
    refine ⟨(hg.pending r p hr hp).1, fun y hy step hacc => ?_⟩
    exact (hg.pending r p hr hp).2 y (hold y hy p step hacc) step hacc
  case renewed =>
    intro r secret p hr hs hp
    exact (hg.renewed r secret p hr hs hp).snoc

/-- The invariant looks at the columns of the second factor only. -/
theorem UserGood.same {r' : UserRow} (hg : UserGood e n uid (some r) log)
    (h1 : r'.totpSecret = r.totpSecret) (h2 : r'.totpOn = r.totpOn) (h3 : r'.totpLast = r.totpLast)
    (h4 : r'.totpPending = r.totpPending) : UserGood e n uid (some r') log where
  active := by
    rw [← hg.active]
    exact h1
  on := by
    intro _ hr
    cases hr
    rw [h1, h2]
    exact hg.on r rfl
  last := by
    intro _ secret hr hs
    cases hr
    rw [h3]
    exact hg.last r secret rfl (h1 ▸ hs)
  pending := by
    intro _ p hr hp
    cases hr
    exact hg.pending r p rfl (h4 ▸ hp)
  renewed := by
    intro _ secret p hr hs hp
    cases hr
    exact hg.renewed r secret p rfl (h1 ▸ hs) (h4 ▸ hp)

/-- A user without a second factor and without a pending secret. -/
theorem userGood_blank (hactive : activeSecret uid log = none)
    (hrow : ∀ r, row = some r → r.totpSecret = none ∧ r.totpOn = false ∧ r.totpPending = none) :
    UserGood e n uid row log where
  active := by
    rw [hactive, Option.bind_eq_none_iff]
    intro r hr
    exact (hrow r hr).1
  on r hr := by rw [(hrow r hr).1, (hrow r hr).2.1]; rfl
  last r secret hr hs := by
    rw [(hrow r hr).1] at hs
    cases hs
  pending r p hr hp := by
    rw [(hrow r hr).2.2] at hp
    cases hp
  renewed r secret p hr hs := by
    rw [(hrow r hr).1] at hs
    cases hs

/-- A secret becomes active with a code of it. -/
theorem accepts_of_active (h : activeSecret uid log = some secret) :
    ∃ x ∈ log, ∃ step, Accepts uid secret step x := by
  induction log using List.reverseRecOn with
  | nil => simp [activeSecret] at h
  | append_singleton log x ih =>
    rw [activeSecret_snoc] at h
    by_cases hx : Changes uid x
    · cases x with
      | accepted entry uid' secret' step code t =>
        cases entry with
        | confirm2fa session =>
          obtain rfl : uid' = uid := hx
          simp only [activate, if_true, Option.some.injEq] at h
          subst h
          exact ⟨.accepted (.confirm2fa session) uid' secret' step code t, by simp, step, _, _, _, rfl⟩
        | login => exact hx.elim
        | begin2fa pending => exact hx.elim
        | elevate session at_ => exact hx.elim
      | reset uid' =>
        obtain rfl : uid' = uid := hx
        simp [activate] at h
      | deleted uid' =>
        obtain rfl : uid' = uid := hx
        simp [activate] at h
      | wrongCode username at_ => exact hx.elim
      | loginFailed username ip at_ => exact hx.elim
      | passwordSet uid' => exact hx.elim
    · rw [activate_of_not_changes hx] at h
      obtain ⟨y, hy, step, hacc⟩ := ih h
      exact ⟨y, List.mem_append_left _ hy, step, hacc⟩

/-- A pending secret is never the active one. -/
theorem UserGood.pending_ne (hg : UserGood e n uid (some r) log) (hs : r.totpSecret = some secret)
    (hp : r.totpPending = some pending) : pending ≠ secret := by
  rintro rfl
  have hactive := hg.active
  rw [Option.bind_some, hs] at hactive
  obtain ⟨x, hx, step, hacc⟩ := accepts_of_active hactive.symm
  exact (hg.pending r pending rfl hp).2 x hx step hacc

variable {entry : Entry} {step : Nat} {code : Str} {t : Nat}

/-- A code of the active secret is accepted. -/
theorem userGood_accept (hg : UserGood e n uid (some r) log) (hs : r.totpSecret = some secret)
    (hlt : r.totpLast < step) (hentry : ∀ session, entry ≠ .confirm2fa session) :
    UserGood e n uid (some { r with totpLast := step })
      (log ++ [.accepted entry uid secret step code t]) := by
  have hchange : ¬ Changes uid (.accepted entry uid secret step code t) := by
    intro hc
    cases entry with
    | confirm2fa session => exact hentry session rfl
    | login => exact hc
    | begin2fa pending => exact hc
    | elevate session at_ => exact hc
  constructor
  case active =>
    rw [activeSecret_snoc, activate_of_not_changes hchange, ← hg.active]
    rfl
  case on =>
    intro _ hr
    cases hr
    exact hg.on r rfl
  case last =>
    intro _ secret' hr hs' y hy step' hacc
    cases hr
    rcases List.mem_append.mp hy with hy | hy
    · exact Nat.le_of_lt (Nat.lt_of_le_of_lt (hg.last r secret' rfl hs' y hy step' hacc) hlt)
    · rw [List.mem_singleton.mp hy] at hacc
      obtain ⟨_, _, _, heq⟩ := hacc
      cases heq
      exact Nat.le_refl step
  case pending =>
    intro _ p hr hp
    cases hr
    refine ⟨(hg.pending r p rfl hp).1, fun y hy step' hacc => ?_⟩
    rcases List.mem_append.mp hy with hy | hy
    · exact (hg.pending r p rfl hp).2 y hy step' hacc
    · rw [List.mem_singleton.mp hy] at hacc
      obtain ⟨_, _, _, heq⟩ := hacc
      cases heq
      exact hg.pending_ne hs hp rfl
  case renewed =>
    intro _ secret' p hr hs' hp
    cases hr
    exact (hg.renewed r secret' p rfl hs' hp).snoc

/-- A secret that is drawn now becomes pending. -/
theorem userGood_install (hg : UserGood e n uid (some r) log)
    (hnew : ∀ x ∈ log, ∀ step, ¬ Accepts uid (e.newTotpSecret n) step x)
    (hrenew : ∀ secret, r.totpSecret = some secret → Installed uid secret (e.newTotpSecret n) log) :
    UserGood e (n + 1) uid (some { r with totpPending := some (e.newTotpSecret n) }) log where
  active := hg.active
  on _ hr := by
    cases hr
    exact hg.on r rfl
  last _ secret' hr hs' := by
    cases hr
    exact hg.last r secret' rfl hs'
  pending _ p hr hp := by
    cases hr
    cases hp
    exact ⟨⟨n, Nat.lt_succ_self n, rfl⟩, hnew⟩
  renewed _ secret' p hr hs' hp := by
    cases hr
    cases hp
    exact hrenew secret' hs'

/-- The pending secret becomes active. -/
theorem userGood_confirm {session : Str} (hg : UserGood e n uid (some r) log)
    (hp : r.totpPending = some pending) :
    UserGood e n uid (some { r with
        totpSecret := r.totpPending, totpPending := none, totpOn := true, totpLast := step })
      (log ++ [.accepted (.confirm2fa session) uid pending step code t]) where
  active := by simp [activate, hp]
  on := by
    intro _ hr
    cases hr
    simp [hp]
  last := by
    intro _ secret' hr hs' y hy step' hacc
    cases hr
    simp only [hp, Option.some.injEq] at hs'
    subst hs'
    rcases List.mem_append.mp hy with hy | hy
    · exact absurd hacc ((hg.pending r pending rfl hp).2 y hy step')
    · rw [List.mem_singleton.mp hy] at hacc
      obtain ⟨_, _, _, heq⟩ := hacc
      cases heq
      exact Nat.le_refl step
  pending := by
    intro _ p hr hp'
    cases hr
    cases hp'
  renewed := by
    intro _ secret' p hr hs' hp'
    cases hr
    cases hp'

/-! ## The invariant of all users -/

structure Good (e : Env) (n : Nat) (h : Hub) : Prop where
  user : ∀ uid, UserGood e n uid (h.users.get uid) h.log
  known : ∀ uid secret step, ∀ x ∈ h.log, Accepts uid secret step x → ∃ i < n, secret = e.newTotpSecret i
  sound : Each (Sound e) h.log

theorem good_start : Good e 0 start where
  user uid := userGood_blank rfl (by simp [start])
  known uid secret step x hx := by simp [start] at hx
  sound := each_nil

theorem Good.mono (hg : Good e n h) (hnm : n ≤ m) : Good e m h where
  user uid := (hg.user uid).mono hnm
  known uid secret step x hx hacc := by
    obtain ⟨i, hi, heq⟩ := hg.known uid secret step x hx hacc
    exact ⟨i, Nat.lt_of_lt_of_le hi hnm, heq⟩
  sound := hg.sound

theorem Good.same (hg : Good e n h) (hu : h'.users = h.users) (hl : h'.log = h.log) : Good e n h' where
  user uid := by
    rw [hu, hl]
    exact hg.user uid
  known := by
    rw [hl]
    exact hg.known
  sound := by
    rw [hl]
    exact hg.sound

/-- What comes to the log is no accepted code. -/
theorem Good.known_snoc (hg : Good e n h) (hx : ∀ uid secret step, ¬ Accepts uid secret step x) :
    ∀ uid secret step, ∀ y ∈ h.log ++ [x], Accepts uid secret step y → ∃ i < n, secret = e.newTotpSecret i := by
  intro uid secret step y hy hacc
  rcases List.mem_append.mp hy with hy | hy
  · exact hg.known uid secret step y hy hacc
  · rw [List.mem_singleton.mp hy] at hacc
    exact absurd hacc (hx uid secret step)

theorem sound_of_not_accepts (hx : ∀ uid secret step, ¬ Accepts uid secret step x) : Sound e log x := by
  intro entry uid secret step code t heq
  exact absurd ⟨entry, code, t, heq⟩ (hx uid secret step)

/-- What touches nobody's codes. -/
theorem Good.note (hg : Good e n h) (hx : ∀ uid, ¬ Touches uid x) : Good e n (h.note x) := by
  have hacc : ∀ uid secret step, ¬ Accepts uid secret step x := by
    rintro uid secret step ⟨entry, code, t, rfl⟩
    exact hx uid rfl
  exact ⟨fun uid => (hg.user uid).frame (hx uid), hg.known_snoc hacc, hg.sound.snoc (sound_of_not_accepts hacc)⟩

/-- `accept` at an entry point that keeps the secret. -/
theorem Good.accept (hg : Good e n h) (hr : h.users.get uid = some r) (hs : r.totpSecret = some secret)
    (hlt : r.totpLast < step) (hv : Valid e secret step code t)
    (hentry : ∀ session, entry ≠ .confirm2fa session) :
    Good e n (accept entry uid r.totpSecret step code t h) := by
  have hu := hg.user uid
  rw [hr] at hu
  have hactive : activeSecret uid h.log = some secret := by
    rw [← hu.active]
    exact hs
  unfold accounts.accept
  rw [hs, Option.getD_some]
  constructor
  case user =>
    intro q
    rw [note_users, note_log, setUser_get, setUser_log]
    by_cases hq : q = uid
    · subst hq
      rw [if_pos rfl, hr]
      exact userGood_accept hu hs hlt hentry
    · rw [if_neg hq]
      exact (hg.user q).frame fun heq => hq heq.symm
  case known =>
    intro q secret' step' y hy hacc
    rw [note_log, setUser_log] at hy
    rcases List.mem_append.mp hy with hy | hy
    · exact hg.known q secret' step' y hy hacc
    · rw [List.mem_singleton.mp hy] at hacc
      obtain ⟨_, _, _, heq⟩ := hacc
      cases heq
      -- the active secret was accepted before
      obtain ⟨x, hx, step₀, hacc₀⟩ := accepts_of_active hactive
      exact hg.known uid secret step₀ x hx hacc₀
  case sound =>
    rw [note_log, setUser_log]
    refine hg.sound.snoc ?_
    intro entry' uid' secret' step' code' t' heq
    cases heq
    refine ⟨hv, fun y hy step' hacc => ?_, fun _ => hactive⟩
    exact Nat.lt_of_le_of_lt (hu.last r secret rfl hs y hy step' hacc) hlt

/-- No code of a secret was accepted before it was drawn. -/
theorem Good.unseen (hg : Good e n h) (hdraws : Distinct e.newTotpSecret (n + 1)) (uid : Nat) :
    ∀ x ∈ h.log, ∀ step, ¬ Accepts uid (e.newTotpSecret n) step x := by
  intro x hx step hacc
  obtain ⟨i, hi, heq⟩ := hg.known uid _ step x hx hacc
  exact hdraws n (Nat.lt_succ_self n) i hi heq.symm

/-- A new pending secret. -/
theorem Good.install (hg : Good e n h) (hunseen : ∀ x ∈ h.log, ∀ step, ¬ Accepts uid (e.newTotpSecret n) step x)
    (hrenew : ∀ r secret, h.users.get uid = some r → r.totpSecret = some secret →
      Installed uid secret (e.newTotpSecret n) h.log) :
    Good e (n + 1) (install uid (e.newTotpSecret n) h) := by
  have hm := hg.mono (Nat.le_succ n)
  unfold accounts.install
  constructor
  case user =>
    intro q
    rw [setUser_get, setUser_log]
    by_cases hq : q = uid
    · subst hq
      rw [if_pos rfl]
      have hu := hg.user q
      cases hr : h.users.get q with
      | none =>
        rw [hr] at hu
        exact hu.mono (Nat.le_succ n)
      | some r =>
        rw [hr] at hu
        exact userGood_install hu hunseen fun secret hs => hrenew r secret hr hs
    · rw [if_neg hq]
      exact hm.user q
  case known =>
    rw [setUser_log]
    exact hm.known
  case sound =>
    rw [setUser_log]
    exact hg.sound

/-- A confirmation. -/
theorem Good.confirmed {user : User} (hg : Good e n h) (hr : h.users.get user.id = some r)
    (hp : r.totpPending = some pending) (hv : Valid e pending step code t) :
    Good e n (confirmed user pending step code t h) := by
  have hu := hg.user user.id
  rw [hr] at hu
  unfold accounts.confirmed
  constructor
  case user =>
    intro q
    rw [note_users, note_log, dropSessions_users, dropSessions_log, setUser_get, setUser_log]
    by_cases hq : q = user.id
    · rw [hq, if_pos rfl, hr]
      exact userGood_confirm hu hp
    · rw [if_neg hq]
      exact (hg.user q).frame fun heq => hq heq.symm
  case known =>
    intro q secret' step' y hy hacc
    rw [note_log, dropSessions_log, setUser_log] at hy
    rcases List.mem_append.mp hy with hy | hy
    · exact hg.known q secret' step' y hy hacc
    · rw [List.mem_singleton.mp hy] at hacc
      obtain ⟨_, _, _, heq⟩ := hacc
      cases heq
      exact (hu.pending r pending rfl hp).1
  case sound =>
    rw [note_log, dropSessions_log, setUser_log]
    refine hg.sound.snoc ?_
    intro entry' uid' secret' step' code' t' heq
    cases heq
    refine ⟨hv, fun y hy step' hacc => ?_, fun hentry => absurd rfl (hentry user.session)⟩
    exact absurd hacc ((hu.pending r pending rfl hp).2 y hy step')

/-- The second factor of a user goes, with its row or without. -/
theorem Good.blank (hg : Good e n h) (hx : x = .reset uid ∨ x = .deleted uid)
    (hl : h'.log = h.log ++ [x]) (hne : ∀ q, q ≠ uid → h'.users.get q = h.users.get q)
    (hrow : ∀ r, h'.users.get uid = some r →
      r.totpSecret = none ∧ r.totpOn = false ∧ r.totpPending = none) : Good e n h' := by
  have hacc : ∀ q secret step, ¬ Accepts q secret step x := by
    rintro q secret step ⟨_, _, _, rfl⟩
    simp at hx
  constructor
  case user =>
    intro q
    rw [hl]
    by_cases hq : q = uid
    · subst hq
      refine userGood_blank ?_ hrow
      rw [activeSecret_snoc]
      rcases hx with rfl | rfl <;> simp [activate]
    · rw [hne q hq]
      refine (hg.user q).frame ?_
      rcases hx with rfl | rfl <;> exact fun heq => hq heq.symm
  case known =>
    rw [hl]
    exact hg.known_snoc hacc
  case sound =>
    rw [hl]
    exact hg.sound.snoc (sound_of_not_accepts hacc)

/-- The columns of the second factor stay as they are. -/
theorem Good.columns (hg : Good e n h) (hl : h'.log = h.log)
    (hrows : ∀ q r', h'.users.get q = some r' →
      (∃ r, h.users.get q = some r ∧ r'.totpSecret = r.totpSecret ∧ r'.totpOn = r.totpOn ∧
        r'.totpLast = r.totpLast ∧ r'.totpPending = r.totpPending) ∨
      (h.users.get q = none ∧ r'.totpSecret = none ∧ r'.totpOn = false ∧ r'.totpPending = none))
    (hnone : ∀ q, h'.users.get q = none → h.users.get q = none) : Good e n h' := by
  constructor
  case user =>
    intro q
    rw [hl]
    have hu := hg.user q
    cases hr' : h'.users.get q with
    | none =>
      rw [hnone q hr'] at hu
      exact hu
    | some r' =>
      rcases hrows q r' hr' with ⟨r, hr, h1, h2, h3, h4⟩ | ⟨hr, h1, h2, h3⟩
      · rw [hr] at hu
        exact hu.same h1 h2 h3 h4
      · rw [hr] at hu
        refine userGood_blank hu.active.symm ?_
        intro _ heq
        cases heq
        exact ⟨h1, h2, h3⟩
  case known =>
    rw [hl]
    exact hg.known
  case sound =>
    rw [hl]
    exact hg.sound

/-! ## Requests -/

theorem Good.failLogin (hg : Good e n h) (ip u : Str) : Good e n (failLogin e ip u h) := by
  have hrow : Good e n { h with loginFail := h.loginFail ++ [⟨ip, u, h.now e 2⟩] } := hg.same rfl rfl
  exact hrow.note fun _ => id

theorem Good.refuse (hg : Good e n h) (username code : Str) (last at_ : Nat) :
    Good e n (refuse e username code last at_ h) := by
  rcases refuse_cases (e := e) (h := h) username code last at_ with heq | ⟨-, heq⟩
  · rw [heq]
    exact hg
  · rw [heq]
    exact hg.note fun _ => id

theorem Good.openSession (hg : Good e n h) (row : UserRow) : Good e n (openSession e uid row h).2 := by
  rw [openSession_eq]
  exact hg.same rfl rfl

theorem good_login (hg : Good e n h) (username password : Str) (otp : Option Str) (ip : Str) :
    Good e n (login e username password otp ip h).2 := by
  rcases login_cases (e := e) (h := h) username password otp ip with
    ⟨err, heq⟩ | ⟨-, ⟨err, heq⟩ | ⟨uid, row, hn, ⟨-, heq⟩ | ⟨-, -, hcode⟩⟩⟩
  · rw [heq]
    exact hg
  · rw [heq]
    exact hg.failLogin _ _
  · rw [heq]
    exact hg.openSession row
  · rcases hcode with ⟨c, -, heq⟩ | ⟨err, heq⟩ | ⟨key, step, hkey, hlt, hv, heq⟩
    · rw [heq]
      exact hg.note fun _ => id
    · rw [heq]
      exact (hg.refuse _ _ _ _).failLogin _ _
    · rw [heq]
      exact (hg.accept (named_eq hn).1 hkey hlt hv (by simp)).openSession row

/-- `begin_2fa` draws a secret. -/
theorem good_begin2fa (hg : Good e h.requests h) (hdraws : Distinct e.newTotpSecret (h.requests + 1)) (user : User)
    (code : Option Str) : Good e (h.requests + 1) (begin2fa e user code h).2 := by
  have hm := hg.mono (Nat.le_succ h.requests)
  rcases begin2fa_cases (e := e) (h := h) user code with
    ⟨err, heq⟩ | ⟨err, row, -, -, -, heq⟩ | ⟨hoff, heq⟩ | ⟨row, key, step, hrow, hkey, hlt, hv, heq⟩
  · rw [heq]
    exact hm
  · rw [heq]
    exact hm.refuse _ _ _ _
  · rw [heq]
    refine hg.install (hg.unseen hdraws user.id) fun r secret hr hs => ?_
    have hon := (hg.user user.id).on r hr
    rw [hoff r hr, hs] at hon
    cases hon
  · rw [heq]
    have hacc : Good e h.requests (accept (.begin2fa (e.newTotpSecret h.requests)) user.id
        row.totpSecret step (code.getD []) (h.now e 0) h) := hg.accept hrow hkey hlt hv (by simp)
    refine hacc.install (hacc.unseen hdraws user.id) fun r secret hr hs => ?_
    unfold accounts.accept at hr ⊢
    rw [note_users, setUser_get_self, hrow] at hr
    cases hr
    rw [hkey] at hs ⊢
    cases hs
    exact ⟨h.log, step, code.getD [], h.now e 0, [], by simp⟩

theorem good_confirm2fa (hg : Good e n h) (user : User) (code : Str) :
    Good e n (confirm2fa e user code h).2 := by
  rcases confirm2fa_cases (e := e) (h := h) user code with
    ⟨err, heq⟩ | ⟨row, pending, step, hrow, hp, hv, heq⟩
  · rw [heq]
    exact hg
  · rw [heq]
    exact hg.confirmed hrow hp hv

theorem good_elevate (hg : Good e n h) (user : User) (code : Str) : Good e n (elevate e user code h).2 := by
  rcases elevate_cases (e := e) (h := h) user code with
    ⟨err, heq⟩ | ⟨err, row, -, -, -, heq⟩ | ⟨row, key, step, hrow, hkey, hlt, hv, heq⟩
  · rw [heq]
    exact hg
  · rw [heq]
    exact hg.refuse _ _ _ _
  · rw [heq]
    have hacc : Good e n (accept (.elevate user.session (h.now e 1)) user.id row.totpSecret step
        code (h.now e 0) h) := hg.accept hrow hkey hlt hv (by simp)
    exact hacc.same (by simp) (by simp)

theorem good_setPassword (hg : Good e n h) (uid : Nat) (password : Str) :
    Good e n (setPassword e uid password h).2 := by
  rcases setPassword_cases (e := e) (h := h) uid password with ⟨err, heq⟩ | heq
  · rw [heq]
    exact hg
  · rw [heq]
    refine Good.note (hg.columns (by simp) ?_ ?_) fun _ => id
    · intro q r' hr'
      rw [dropSessions_users, setUser_get] at hr'
      split at hr'
      · rename_i hq
        obtain ⟨r, hr, rfl⟩ := Option.map_eq_some_iff.mp hr'
        exact .inl ⟨r, by rw [hq, hr], rfl, rfl, rfl, rfl⟩
      · exact .inl ⟨r', hr', rfl, rfl, rfl, rfl⟩
    · intro q hnone
      rw [dropSessions_users, setUser_get] at hnone
      split at hnone
      · rename_i hq
        rw [hq]
        simpa using hnone
      · exact hnone

theorem good_reset2fa (hg : Good e n h) (uid : Nat) : Good e n (reset2fa uid h) := by
  refine hg.blank (x := .reset uid) (.inl rfl) (by simp [reset2fa]) ?_ ?_
  · intro q hq
    simp [reset2fa, setUser_get_ne hq]
  · intro r hr
    simp only [reset2fa, note_users, dropSessions_users, setUser_get_self, Option.map_eq_some_iff] at hr
    obtain ⟨r₀, -, rfl⟩ := hr
    exact ⟨rfl, rfl, rfl⟩

theorem good_createUser (hg : Good e n h) (username password role : Str) :
    Good e n (createUser e username password role h).2 := by
  rcases createUser_cases (e := e) (h := h) username password role with
    ⟨err, heq⟩ | ⟨uid, row, hnew, h1, h2, h3, heq⟩
  · rw [heq]
    exact hg
  · rw [heq]
    refine hg.columns rfl ?_ ?_
    · intro q r' hr'
      simp only [Dict.get_set] at hr'
      split at hr'
      · rename_i hq
        cases hr'
        exact .inr ⟨by rw [hq, hnew], h1, h2, h3⟩
      · exact .inl ⟨r', hr', rfl, rfl, rfl, rfl⟩
    · intro q hnone
      simp only [Dict.get_set] at hnone
      split at hnone
      · cases hnone
      · exact hnone

theorem good_deleteUser (hg : Good e n h) (uid : Nat) : Good e n (deleteUser uid h).2 := by
  rcases deleteUser_cases (h := h) uid with ⟨err, heq⟩ | heq
  · rw [heq]
    exact hg
  · rw [heq]
    refine hg.blank (x := .deleted uid) (.inr rfl) rfl ?_ ?_
    · intro q hq
      simp [Dict.get_erase_ne hq]
    · intro r hr
      simp at hr

theorem good_heldUser {i : Nat} {f : User → Hub} (hg : Good e n h) (hf : ∀ user, Good e n (f user)) :
    Good e n (h.heldUser i f) := by
  rcases heldUser_cases (h := h) i f with heq | ⟨user, -, heq⟩
  · rw [heq]
    exact hg
  · rw [heq]
    exact hf user

theorem good_guarded (hg : Good e n h) (cfg : Settings) (g : Guard) (r : Request) :
    Good e n (h.call e cfg (.guarded g r)) := by
  have hcookie : Good e n (userFromCookie e r.cookie h).2 := by
    rw [userFromCookie_eq]
    exact hg.same rfl rfl
  rcases guarded_cases (e := e) (h := h) cfg g r with heq | ⟨user, -, -, -, heq⟩
  · rw [heq]
    exact hcookie
  · rw [heq]
    exact hcookie.same rfl rfl

variable {cfg : Settings}

theorem good_step (h : Hub) (hdraws : Distinct e.newTotpSecret (h.requests + 1)) (c : Call)
    (hg : Good e h.requests h) : Good e (accounts.step e cfg h c).requests (accounts.step e cfg h c) := by
  have hm := hg.mono (Nat.le_succ h.requests)
  have hreq : (accounts.step e cfg h c).requests = h.requests + 1 := rfl
  rw [hreq]
  have hcall : Good e (h.requests + 1) (h.call e cfg c) := by
    cases c with
    | login username password otp ip => exact good_login hm username password otp ip
    | logout raw => exact hm.same rfl rfl
    | guarded g r => exact good_guarded hm cfg g r
    | begin2fa i code => exact good_heldUser hm fun user => good_begin2fa hg hdraws user code
    | confirm2fa i code => exact good_heldUser hm fun user => good_confirm2fa hm user code
    | elevate i code => exact good_heldUser hm fun user => good_elevate hm user code
    | setPassword uid password => exact good_setPassword hm uid password
    | reset2fa uid => exact good_reset2fa hm uid
    | createUser username password role => exact good_createUser hm username password role
    | deleteUser uid => exact good_deleteUser hm uid
    | prune => exact hm.same rfl rfl
    | enrollFail ip => exact hm.same rfl rfl
  exact hcall.same rfl rfl

/-- A request draws at most one secret, so the secrets of a run are the first ones. -/
theorem good_run {cs : List Call} (hdraws : Distinct e.newTotpSecret cs.length) :
    Good e (runs.final (accounts.step e cfg) start cs).requests (runs.final (accounts.step e cfg) start cs) :=
  runs.final_counted (I := fun h => Good e h.requests h) (P := fun _ => True) (fun _ _ => rfl)
    (fun h c hg _ hlt => good_step h (hdraws.mono hlt) c hg) good_start (fun _ _ => trivial) (Nat.zero_add _).le

/-! ## Codes are used once -/

theorem mem_pairs : (secret, step) ∈ pairs uid log ↔ ∃ x ∈ log, Accepts uid secret step x := by
  unfold pairs
  rw [List.mem_filterMap]
  constructor
  · rintro ⟨x, hx, heq⟩
    split at heq
    · split at heq
      · rename_i huid
        cases heq
        exact ⟨_, hx, _, _, _, by rw [huid]⟩
      · cases heq
    · cases heq
  · rintro ⟨_, hx, _, _, _, rfl⟩
    exact ⟨_, hx, by simp⟩

theorem pairs_nodup (h : Each (Sound e) log) : (pairs uid log).Nodup := by
  induction log using List.reverseRecOn with
  | nil => exact List.nodup_nil
  | append_singleton log x ih =>
    obtain ⟨hlog, hx⟩ := each_snoc.mp h
    have hsplit : pairs uid (log ++ [x]) = pairs uid log ++ pairs uid [x] := List.filterMap_append
    rw [hsplit]
    refine List.Nodup.append (ih hlog) ?_ ?_
    · cases x <;> simp only [pairs, List.filterMap_cons, List.filterMap_nil]
      case accepted =>
        split
        · exact List.nodup_nil
        · exact List.nodup_singleton _
      all_goals exact List.nodup_nil
    · rintro ⟨secret, step⟩ hold hnew
      obtain ⟨y, hy, hacc⟩ := mem_pairs.mp hold
      obtain ⟨z, hz, entry, code, t, rfl⟩ := mem_pairs.mp hnew
      obtain rfl := List.mem_singleton.mp hz
      exact Nat.lt_irrefl step ((hx entry uid secret step code t rfl).2.1 y hy step hacc)

theorem activeSecret_append {mid : List Event} (h : ∀ x ∈ mid, ¬ Changes uid x) :
    activeSecret uid (log ++ mid) = activeSecret uid log := by
  induction mid using List.reverseRecOn with
  | nil => rw [List.append_nil]
  | append_singleton mid x ih =>
    rw [← List.append_assoc, activeSecret_snoc, activate_of_not_changes (h x (by simp))]
    exact ih fun y hy => h y (by simp [hy])

/-- After a code was accepted its secret is the active one. -/
theorem active_after (h : Each (Sound e) (log ++ [.accepted entry uid secret step code t])) :
    activeSecret uid (log ++ [.accepted entry uid secret step code t]) = some secret := by
  obtain ⟨-, hx⟩ := each_snoc.mp h
  have hactive := (hx entry uid secret step code t rfl).2.2
  rw [activeSecret_snoc]
  cases entry with
  | confirm2fa session => simp [activate]
  | login => exact hactive (by simp)
  | begin2fa pending => exact hactive (by simp)
  | elevate session at_ => exact hactive (by simp)

/-- In every run whose secrets differ a pair of secret and time step is accepted once,
wherever codes are taken, and between two changes of the secret the steps increase. -/
theorem codes_once (cs : List Call) (hdraws : Distinct e.newTotpSecret cs.length) (uid : Nat) :
    let log := (runs.final (accounts.step e cfg) start cs).log
    (pairs uid log).Nodup ∧
    ∀ before entry secret step code t mid entry' secret' step' code' t' after,
      log = before ++ .accepted entry uid secret step code t ::
        (mid ++ .accepted entry' uid secret' step' code' t' :: after) →
      (∀ x ∈ mid, ¬ Changes uid x) → (∀ session, entry' ≠ .confirm2fa session) → step < step' := by
  intro log
  have hsound : Each (Sound e) log := (good_run hdraws).sound
  refine ⟨pairs_nodup hsound, ?_⟩
  intro before entry secret step code t mid entry' secret' step' code' t' after hlog hmid hentry
  have hcut : log = (before ++ .accepted entry uid secret step code t :: mid) ++
      .accepted entry' uid secret' step' code' t' :: after := by simp [hlog]
  obtain ⟨-, hnewer, hactive⟩ := hsound _ _ _ hcut entry' uid secret' step' code' t' rfl
  have hfirst : Each (Sound e) (before ++ [.accepted entry uid secret step code t]) := by
    intro before' x after' hcut'
    refine hsound before' x (after' ++ (mid ++ .accepted entry' uid secret' step' code' t' :: after)) ?_
    rw [hlog, ← List.singleton_append, ← List.append_assoc, hcut']
    simp
  have hsame : secret' = secret := by
    have h1 := hactive hentry
    rw [← List.singleton_append, ← List.append_assoc, activeSecret_append hmid, active_after hfirst] at h1
    exact (Option.some.inj h1).symm
  subst hsame
  exact hnewer (.accepted entry uid secret' step code t) (by simp) step ⟨entry, code, t, rfl⟩

/-- A clock that ticks every eight seconds. -/
def slowly (k : Nat) : Nat := 1750000000 + 8 * k

def panel : Settings := ⟨true, "https://panel.example.com".toList⟩

/-- A request with the cookie of the first login. -/
def withCookie : Request := ⟨some someSecret, "POST".toList, some ['1'], none, "https://panel.example.com".toList⟩

/-- An account is made, turns its second factor on, elevates its session and asks
for another secret. -/
def renewing : List Call :=
  [.createUser "admin".toList "correct-horse-1".toList adminRole,
    .login "admin".toList "correct-horse-1".toList none "192.0.2.1".toList,
    .guarded .currentUserAny withCookie, .begin2fa 0 none, .confirm2fa 0 "120438".toList,
    .elevate 0 "984285".toList, .begin2fa 0 (some "840307".toList)]

theorem renewing_codes :
    let log := (runs.final (accounts.step (sampleEnv slowly) panel) start renewing).log
    ((pairs 1 log).Nodup ∧
      ∀ before entry secret step code t mid entry' secret' step' code' t' after,
        log = before ++ .accepted entry 1 secret step code t ::
          (mid ++ .accepted entry' 1 secret' step' code' t' :: after) →
        (∀ x ∈ mid, ¬ Changes 1 x) → (∀ session, entry' ≠ .confirm2fa session) → step < step') ∧
    pairs 1 log = [(totpSecretA, 58333337), (totpSecretA, 58333338), (totpSecretA, 58333339)] :=
  ⟨codes_once renewing (by decide +kernel) 1, by decide +kernel⟩

/-! ## How the active secret changes -/

/-- A pending secret that a code of the active one stands behind: the code was
valid, and of a step that was not accepted before. -/
def Renewal (e : Env) (uid : Nat) (active pending : Str) (log : List Event) : Prop :=
  ∃ before step code t after,
    log = before ++ .accepted (.begin2fa pending) uid active step code t :: after ∧
      Valid e active step code t ∧ activeSecret uid before = some active ∧
      ∀ x ∈ before, ¬ Accepts uid active step x

theorem Installed.renewal (hs : Each (Sound e) log) (hi : Installed uid secret pending log) :
    Renewal e uid secret pending log := by
  obtain ⟨before, step, code, t, after, rfl⟩ := hi
  obtain ⟨hv, hnewer, hactive⟩ := hs before _ after rfl _ _ _ _ _ _ rfl
  refine ⟨before, step, code, t, after, rfl, hv, hactive (by simp), fun x hx hacc => ?_⟩
  exact Nat.lt_irrefl step (hnewer x hx step hacc)

/-- The second factor of a row: the active secret, and whether it is asked for. -/
def factor (r : UserRow) : Option Str × Bool := (r.totpSecret, r.totpOn)

/-- Rows stay, and with them their second factors. -/
def SameFactors (h h' : Hub) : Prop := ∀ uid, (h'.users.get uid).map factor = (h.users.get uid).map factor

theorem SameFactors.of_users (hu : h'.users = h.users) : SameFactors h h' := by
  intro uid
  rw [hu]

theorem SameFactors.trans {h'' : Hub} (h1 : SameFactors h h') (h2 : SameFactors h' h'') :
    SameFactors h h'' := fun uid => (h2 uid).trans (h1 uid)

theorem sameFactors_setUser {f : UserRow → UserRow} (hf : ∀ r, factor (f r) = factor r) :
    SameFactors h (h.setUser uid f) := by
  intro q
  rw [setUser_get]
  by_cases hq : q = uid
  · rw [if_pos hq, hq, Option.map_map]
    cases h.users.get uid with
    | none => rfl
    | some r => simp [hf r]
  · rw [if_neg hq]

theorem sameFactors_accept {s : Option Str} : SameFactors h (accept entry uid s step code t h) :=
  sameFactors_setUser fun _ => rfl

theorem sameFactors_refuse (username code : Str) (last at_ : Nat) :
    SameFactors h (refuse e username code last at_ h) := by
  refine .of_users ?_
  rcases refuse_cases (e := e) (h := h) username code last at_ with heq | ⟨-, heq⟩
  · rw [heq]
  · rw [heq]
    rfl

theorem sameFactors_openSession (row : UserRow) : SameFactors h (openSession e uid row h).2 := by
  refine .of_users ?_
  rw [openSession_eq]

theorem sameFactors_login (username password : Str) (otp : Option Str) (ip : Str) :
    SameFactors h (login e username password otp ip h).2 := by
  rcases login_cases (e := e) (h := h) username password otp ip with
    ⟨err, heq⟩ | ⟨-, ⟨err, heq⟩ | ⟨uid, row, -, ⟨-, heq⟩ | ⟨-, -, hcode⟩⟩⟩
  · rw [heq]
    exact .of_users rfl
  · rw [heq]
    exact .of_users rfl
  · rw [heq]
    exact sameFactors_openSession row
  · rcases hcode with ⟨c, -, heq⟩ | ⟨err, heq⟩ | ⟨key, step, -, -, -, heq⟩
    · rw [heq]
      exact .of_users rfl
    · rw [heq]
      exact (sameFactors_refuse _ _ _ _).trans (.of_users rfl)
    · rw [heq]
      exact sameFactors_accept.trans (sameFactors_openSession row)

theorem sameFactors_begin2fa (user : User) (currentCode : Option Str) :
    SameFactors h (begin2fa e user currentCode h).2 := by
  have hinstall (h : Hub) (secret : Str) : SameFactors h (install user.id secret h) :=
    sameFactors_setUser fun _ => rfl
  rcases begin2fa_cases (e := e) (h := h) user currentCode with
    ⟨err, heq⟩ | ⟨err, row, -, -, -, heq⟩ | ⟨-, heq⟩ | ⟨row, key, step, -, -, -, -, heq⟩
  · rw [heq]
    exact .of_users rfl
  · rw [heq]
    exact sameFactors_refuse _ _ _ _
  · rw [heq]
    exact hinstall h _
  · rw [heq]
    exact sameFactors_accept.trans (hinstall _ _)

theorem sameFactors_elevate (user : User) (code : Str) : SameFactors h (elevate e user code h).2 := by
  rcases elevate_cases (e := e) (h := h) user code with
    ⟨err, heq⟩ | ⟨err, row, -, -, -, heq⟩ | ⟨row, key, step, -, -, -, -, heq⟩
  · rw [heq]
    exact .of_users rfl
  · rw [heq]
    exact sameFactors_refuse _ _ _ _
  · rw [heq]
    exact sameFactors_accept.trans (.of_users setSession_users)

theorem sameFactors_setPassword (uid : Nat) (password : Str) :
    SameFactors h (setPassword e uid password h).2 := by
  rcases setPassword_cases (e := e) (h := h) uid password with ⟨err, heq⟩ | heq
  · rw [heq]
    exact .of_users rfl
  · rw [heq]
    exact sameFactors_setUser fun _ => rfl

theorem sameFactors_guarded (g : Guard) (r : Request) : SameFactors h (h.call e cfg (.guarded g r)) := by
  refine .of_users ?_
  rcases guarded_cases (e := e) (h := h) cfg g r with heq | ⟨user, -, -, -, heq⟩
  · rw [heq, userFromCookie_eq]
  · rw [heq, userFromCookie_eq]

/-- Where the second factor of a row comes from after a request: it stays, it is
blank, or a pending secret was confirmed. -/
theorem factor_cases {c : Call} {r' : UserRow} (hr' : (accounts.step e cfg h c).users.get uid = some r') :
    (∃ r, h.users.get uid = some r ∧ factor r' = factor r) ∨
    (factor r' = (none, false) ∧ (c = .reset2fa uid ∨ h.users.get uid = none)) ∨
    ∃ i code user r pending, c = .confirm2fa i code ∧ h.held[i]? = some user ∧ user.id = uid ∧
      h.users.get uid = some r ∧ r.totpPending = some pending ∧ factor r' = (some pending, true) := by
  have hcall : (h.call e cfg c).users.get uid = some r' := hr'
  have hsame (hs : SameFactors h (h.call e cfg c)) : ∃ r, h.users.get uid = some r ∧ factor r' = factor r := by
    have hmap := hs uid
    rw [hcall] at hmap
    obtain ⟨r, hr, heq⟩ := Option.map_eq_some_iff.mp hmap.symm
    exact ⟨r, hr, heq.symm⟩
  have hheld (i : Nat) (f : User → Hub) (hc : h.call e cfg c = h.heldUser i f)
      (hf : ∀ user, SameFactors h (f user)) : ∃ r, h.users.get uid = some r ∧ factor r' = factor r := by
    refine hsame ?_
    rw [hc]
    rcases heldUser_cases (h := h) i f with heq | ⟨user, -, heq⟩
    · rw [heq]
      exact .of_users rfl
    · rw [heq]
      exact hf user
  have hkept (hget : (h.call e cfg c).users.get uid = h.users.get uid) :
      ∃ r, h.users.get uid = some r ∧ factor r' = factor r := ⟨r', hget ▸ hcall, rfl⟩
  cases c with
  | login username password otp ip => exact .inl (hsame (sameFactors_login username password otp ip))
  | logout raw => exact .inl (hkept rfl)
  | guarded g r => exact .inl (hsame (sameFactors_guarded g r))
  | begin2fa i code => exact .inl (hheld i _ rfl fun user => sameFactors_begin2fa user code)
  | confirm2fa i code =>
    rcases heldUser_cases (h := h) i fun user => (confirm2fa e user code h).2 with heq | ⟨user, hi, heq⟩
    · exact .inl (hkept (congrArg (fun h : Hub => h.users.get uid) heq))
    · rcases confirm2fa_cases (e := e) (h := h) user code with
        ⟨err, heq'⟩ | ⟨r, pending, step, hr, hp, -, heq'⟩
      · rw [heq'] at heq
        exact .inl (hkept (congrArg (fun h : Hub => h.users.get uid) heq))
      · rw [heq'] at heq
        by_cases hid : uid = user.id
        · refine .inr (.inr ⟨i, code, user, r, pending, rfl, hi, hid.symm, hid ▸ hr, hp, ?_⟩)
          simp only [Hub.call] at hcall
          rw [heq, hid] at hcall
          simp only [confirmed, note_users, dropSessions_users, setUser_get_self, hr, Option.map_some,
            Option.some.injEq] at hcall
          rw [← hcall, ← hp]
          rfl
        · refine .inl (hkept ?_)
          simp only [Hub.call]
          rw [heq]
          simp [confirmed, setUser_get_ne hid]
  | elevate i code => exact .inl (hheld i _ rfl fun user => sameFactors_elevate user code)
  | setPassword q password => exact .inl (hsame (sameFactors_setPassword q password))
  | reset2fa q =>
    by_cases hq : uid = q
    · subst hq
      simp only [Hub.call, reset2fa, note_users, dropSessions_users, setUser_get_self,
        Option.map_eq_some_iff] at hcall
      obtain ⟨r, -, rfl⟩ := hcall
      exact .inr (.inl ⟨rfl, .inl rfl⟩)
    · exact .inl (hkept (by simp [Hub.call, reset2fa, setUser_get_ne hq]))
  | createUser username password role =>
    rcases createUser_cases (e := e) (h := h) username password role with
      ⟨err, heq⟩ | ⟨q, row, hnew, hs, hon, -, heq⟩
    · exact .inl (hkept (by simp [Hub.call, heq]))
    · simp only [Hub.call, heq, Dict.get_set] at hcall
      split at hcall
      · rename_i hq
        cases hcall
        refine .inr (.inl ⟨?_, .inr (hq ▸ hnew)⟩)
        rw [factor, hs, hon]
      · exact .inl ⟨r', hcall, rfl⟩
  | deleteUser q =>
    rcases deleteUser_cases (h := h) q with ⟨err, heq⟩ | heq
    · exact .inl (hkept (by simp [Hub.call, heq]))
    · simp only [Hub.call, heq, note_users, dropSessions_users, Dict.get_erase] at hcall
      split at hcall
      · cases hcall
      · exact .inl ⟨r', hcall, rfl⟩
  | prune => exact .inl (hkept rfl)
  | enrollFail ip => exact .inl (hkept rfl)

/-- A second factor is on exactly where there is a secret. -/
def FactorOn (h : Hub) : Prop := ∀ uid r, h.users.get uid = some r → r.totpOn = r.totpSecret.isSome

theorem factorOn_start : FactorOn start := by simp [FactorOn, start]

theorem factorOn_step (hon : FactorOn h) (c : Call) : FactorOn (accounts.step e cfg h c) := by
  intro uid r' hr'
  rcases factor_cases hr' with ⟨r, hr, heq⟩ | ⟨heq, -⟩ | ⟨i, code, user, r, pending, -, -, -, -, -, heq⟩
  · obtain ⟨h1, h2⟩ := Prod.mk.inj heq
    rw [h1, h2]
    exact hon uid r hr
  · obtain ⟨h1, h2⟩ := Prod.mk.inj heq
    rw [h1, h2]
    rfl
  · obtain ⟨h1, h2⟩ := Prod.mk.inj heq
    rw [h1, h2]
    rfl

/-- A user whose second factor is on gets another active secret only by confirming
one that a fresh code of the active secret stands behind, or by a reset. And a
confirmation leaves the user no other session. -/
theorem renewal_needs_code (cs : List Call) (hdraws : Distinct e.newTotpSecret cs.length) (c : Call) :
    let h := runs.final (accounts.step e cfg) start cs
    let h' := accounts.step e cfg h c
    (∀ uid r r' secret, h.users.get uid = some r → r.totpOn = true → r.totpSecret = some secret →
      h'.users.get uid = some r' → r'.totpSecret ≠ some secret →
      c = .reset2fa uid ∨ ∃ i code user pending, c = .confirm2fa i code ∧ h.held[i]? = some user ∧
        user.id = uid ∧ r.totpPending = some pending ∧ r'.totpSecret = some pending ∧
        Renewal e uid secret pending h.log) ∧
    (∀ i code user, c = .confirm2fa i code → h.held[i]? = some user →
      (confirm2fa e user code h).1 = .ok () →
      (∀ id s, h'.sessions.get id = some s → s.userId = user.id → id = user.session) ∧
      h'.sessions.get user.session = h.sessions.get user.session) := by
  intro h h'
  have hg : Good e h.requests h := good_run hdraws
  constructor
  · intro uid r r' secret hr _ hs hr' hne
    rcases factor_cases hr' with
      ⟨r₀, hr₀, heq⟩ | ⟨-, hreset | hnone⟩ | ⟨i, code, user, r₀, pending, hc, hi, hid, hr₀, hp, heq⟩
    · rw [hr] at hr₀
      cases hr₀
      exact absurd ((Prod.mk.inj heq).1.trans hs) hne
    · exact .inl hreset
    · rw [hr] at hnone
      cases hnone
    · rw [hr] at hr₀
      cases hr₀
      refine .inr ⟨i, code, user, pending, hc, hi, hid, hp, (Prod.mk.inj heq).1, ?_⟩
      exact ((hg.user uid).renewed r secret pending hr hs hp).renewal hg.sound
  · rintro i code user rfl hi hok
    have hcall : h'.sessions = (confirm2fa e user code h).2.sessions := by
      simp [h', accounts.step, Hub.call, Hub.heldUser, hi]
    rcases confirm2fa_cases (e := e) (h := h) user code with
      ⟨err, heq⟩ | ⟨row, pending, step, -, -, -, heq⟩
    · rw [heq] at hok
      cases hok
    · rw [hcall, heq]
      simp only [confirmed, note_sessions]
      constructor
      · intro id s hget huser
        obtain ⟨-, hkept⟩ := dropSessions_get.mp hget
        by_contra hne
        simp [huser, hne] at hkept
      · refine Option.ext fun s => ?_
        rw [dropSessions_get]
        simp

/-- The row of the account before it confirms the other secret. -/
def renewingRow : UserRow :=
  ⟨"admin".toList, "$2b$12$correct-horse-1".toList, adminRole, some totpSecretA, true, 58333339,
    some totpSecretB⟩

theorem renewing_confirmed :
    let h := runs.final (accounts.step (sampleEnv slowly) panel) start renewing
    (∃ i code user pending, Call.confirm2fa 0 "087990".toList = .confirm2fa i code ∧
      h.held[i]? = some user ∧ user.id = 1 ∧ renewingRow.totpPending = some pending ∧
      some totpSecretB = some pending ∧ Renewal (sampleEnv slowly) 1 totpSecretA pending h.log) ∧
    ∀ user, h.held[0]? = some user →
      (confirm2fa (sampleEnv slowly) user "087990".toList h).1 = .ok () →
      (∀ id s, (accounts.step (sampleEnv slowly) panel h (.confirm2fa 0 "087990".toList)).sessions.get id =
          some s → s.userId = user.id → id = user.session) ∧
        (accounts.step (sampleEnv slowly) panel h (.confirm2fa 0 "087990".toList)).sessions.get user.session =
          h.sessions.get user.session := by
  obtain ⟨hsecret, hsessions⟩ := @renewal_needs_code (sampleEnv slowly) panel
    renewing (by decide +kernel) (.confirm2fa 0 "087990".toList)
  refine ⟨?_, fun user => hsessions 0 _ user rfl⟩
  have hrenewed := hsecret 1 renewingRow { renewingRow with
      totpSecret := some totpSecretB, totpPending := none, totpLast := 58333340 } totpSecretA
    (by decide +kernel) rfl rfl (by decide +kernel) (by decide +kernel)
  refine hrenewed.resolve_left ?_
  intro hc
  cases hc

end icsd_panel.second_factors

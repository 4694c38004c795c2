-- Servers and their agents' credentials: a one-time token is issued, an agent
-- trades it for a permanent secret, and the hub keeps the hashes of both.
import IcsdPanel.Accounts
import IcsdPanel.Sockets

open dicts logs texts

namespace icsd_panel.enrolments

open security

open accounts (Fail)

/-! ## State -/

def enrollTtl : Nat := 24 * 3600

/-- What the credentials of a server are, in its row of `servers`. -/
structure Server where
  name : Str
  enrollHash : Option Str
  enrollExpires : Option Nat
  secretHash : Option Str
deriving DecidableEq

/-- What happened to the credentials, with the time of it. -/
inductive Event
  | issued (sid token : Str) (at_ : Nat)
  | enrolled (sid token secret : Str) (at_ : Nat)
  | deleted (sid : Str)
deriving DecidableEq

/-- The tables, the number of the requests so far, and a log that no request
reads. -/
structure Hub where
  servers : Dict Str Server
  loginFail : List Fail
  requests : Nat
  log : List Event

def start : Hub := ⟨.empty, [], 0, []⟩

/-- The clock as the next request reads it. -/
def Hub.now (e : Env) (h : Hub) (k : Nat) : Nat := e.now h.requests k

/-- `HTTPException`, or an error of the database. -/
inductive Err
  | http (status : Nat) (detail : String)
  | crash (c : Crash)
deriving DecidableEq

def alphabet : Str := "abcdefghjkmnpqrstuvwxyz23456789".toList

/-- `new_server_id`, by the seven choices of letters. -/
def newServerId (choice : Fin 7 → Fin alphabet.length) : Str := 's' :: List.ofFn fun i => alphabet.get (choice i)

/-! ## Requests -/

/-- `create_server` -/
def createServer (e : Env) (name : Str) (choice : Fin 7 → Fin alphabet.length) (h : Hub) :
    Except Err (Str × Str) × Hub :=
  let name := (strip name).take 60
  if name = [] then (.error (.http 400 "نام سرور لازم است"), h)
  else
    let sid := newServerId choice
    let tok := token e 24 h.requests
    -- the id is the primary key
    if (h.servers.get sid).isSome then (.error (.crash .integrityError), h)
    else
      (.ok (sid, tok), { h with
        servers := h.servers.set sid ⟨name, some (e.sha256 tok), some (h.now e 1 + enrollTtl), none⟩
        log := h.log ++ [.issued sid tok (h.now e 1)] })

/-- `new_enroll_token` -/
def newEnrollToken (e : Env) (sid : Str) (h : Hub) : Except Err Str × Hub :=
  match h.servers.get sid with
  | none => (.error (.http 404 "سرور پیدا نشد"), h)
  | some row =>
    let tok := token e 24 h.requests
    (.ok tok, { h with
      servers := h.servers.set sid { row with
        enrollHash := some (e.sha256 tok)
        enrollExpires := some (h.now e 0 + enrollTtl) }
      log := h.log ++ [.issued sid tok (h.now e 0)] })

def enrollName : Str := "~enroll".toList

/-- An attempt that is refused is counted. -/
def refuse (e : Env) (ip : Str) (h : Hub) : Except Err (Str × Str) × Hub :=
  (.error (.http 403 "توکن نامعتبر یا منقضی است؛ از پنل یک دستور نصب تازه بگیرید"),
    { h with loginFail := h.loginFail ++ [⟨ip, enrollName, h.now e 2⟩] })

/-- `enroll`, up to its commit: what comes after awaits the old socket and
changes no credential. -/
def enroll (e : Env) (tok ip : Str) (h : Hub) : Except Err (Str × Str) × Hub :=
  -- `ts > now - 900`
  if 10 ≤ (h.loginFail.filter fun f => f.ip = ip ∧ f.username = enrollName ∧ h.now e 0 < f.ts + 900).length then
    (.error (.http 429 "too many attempts"), h)
  else
    match h.servers.entries.find? fun r => r.2.enrollHash = some (e.sha256 (strip tok)) with
    | none => refuse e ip h
    | some (sid, row) =>
      if row.enrollExpires.getD 0 < h.now e 1 then refuse e ip h
      else
        let secret := token e 32 h.requests
        (.ok (sid, secret), { h with
          servers := h.servers.set sid { row with
            secretHash := some (e.sha256 secret)
            enrollHash := none
            enrollExpires := none }
          log := h.log ++ [.enrolled sid (strip tok) secret (h.now e 1)] })

/-- `delete_server`, from its last await on. -/
def deleteServer (sid : Str) (h : Hub) : Hub :=
  { h with servers := h.servers.erase sid, log := h.log ++ [.deleted sid] }

def bearer : Str := "Bearer ".toList

/-- The server and the secret that a header names. -/
def credentials (header : Str) : Option (Str × Str) :=
  if bearer <+: header ∧ ':' ∈ header then some (partition ':' (strip (header.drop 7))) else none

/-- `_authenticate` -/
def authenticate (e : Env) (header : Str) (h : Hub) : Option Str :=
  match credentials header with
  | none => none
  | some (sid, secret) =>
    match h.servers.get (sid.take 16) with
    | none => none
    | some row =>
      match row.secretHash with
      | none => none
      | some hash => if hash = [] then none else if e.sha256 secret = hash then some sid else none

/-- A request, or what other requests make of `login_fail`. -/
inductive Call
  | createServer (name : Str) (choice : Fin 7 → Fin alphabet.length)
  | newEnrollToken (sid : Str)
  | enroll (token ip : Str)
  | deleteServer (sid : Str)
  | loginFail (rows : List Fail)

def Hub.call (e : Env) (h : Hub) : Call → Hub
  | .createServer name choice => (createServer e name choice h).2
  | .newEnrollToken sid => (newEnrollToken e sid h).2
  | .enroll tok ip => (enroll e tok ip h).2
  | .deleteServer sid => deleteServer sid h
  | .loginFail rows => { h with loginFail := rows }

def step (e : Env) (h : Hub) (c : Call) : Hub := { h.call e c with requests := h.requests + 1 }

/-! ## What a log says -/

/-- The tokens that let an agent enroll. -/
def used : List Event → List Str
  | [] => []
  | .enrolled _ tok _ _ :: log => tok :: used log
  | _ :: log => used log

/-- The token was issued for the server, no newer one was since, and the server
was not deleted. -/
def Issued (sid tok : Str) (at_ : Nat) (log : List Event) : Prop :=
  Since (· = .issued sid tok at_) (fun x => (∃ tok' at', x = .issued sid tok' at') ∨ x = .deleted sid) log

/-- A token is traded within its time, while it is the newest of its server. -/
def Timely (before : List Event) (x : Event) : Prop :=
  ∀ sid tok secret t, x = .enrolled sid tok secret t →
    ∃ issue, Issued sid tok issue before ∧ t ≤ issue + enrollTtl

/-- The secret of the last enrolment of a server that was not deleted since. -/
def secretOf (sid : Str) (log : List Event) : Option Str :=
  log.foldl (fun s x => match x with
    | .issued .. => s
    | .enrolled sid' _ secret _ => if sid' = sid then some secret else s
    | .deleted sid' => if sid' = sid then none else s) none

/-- What is known of random tokens and of SHA-256: of `n` draws, and for a set of
strings that has them. -/
structure Assumed (e : Env) (strings : Set Str) (n : Nat) : Prop where
  distinct : Distinct (token e 24) n
  urlsafe : ∀ draw < n, ∀ c ∈ token e 32 draw, isspace c = false
  drawn : ∀ draw < n, token e 24 draw ∈ strings ∧ token e 32 draw ∈ strings
  collisionFree : Set.InjOn e.sha256 strings
  digits : ∀ s, e.sha256 s ≠ []

/-- The token that an agent enrolls with is one of the strings. -/
def Call.Among (strings : Set Str) : Call → Prop
  | .enroll tok _ => strip tok ∈ strings
  | _ => True

variable {e : Env} {h h' : Hub} {sid tok secret : Str} {row : Server} {n m t : Nat} {log : List Event}
variable {x : Event} {strings : Set Str}

theorem used_append (log log' : List Event) : used (log ++ log') = used log ++ used log' := by
  induction log with
  | nil => rfl
  | cons x log ih => cases x <;> simp [used, ih]

@[simp] theorem used_issued {sid : Str} : used (log ++ [.issued sid tok t]) = used log := by
  simp [used_append, used]

@[simp] theorem used_enrolled {sid : Str} : used (log ++ [.enrolled sid tok secret t]) = used log ++ [tok] := by
  simp [used_append, used]

@[simp] theorem used_deleted {sid : Str} : used (log ++ [.deleted sid]) = used log := by
  simp [used_append, used]

@[simp] theorem secretOf_issued {sid' : Str} :
    secretOf sid (log ++ [.issued sid' tok t]) = secretOf sid log := by
  simp [secretOf]

@[simp] theorem secretOf_enrolled {sid' : Str} :
    secretOf sid (log ++ [.enrolled sid' tok secret t]) =
      if sid' = sid then some secret else secretOf sid log := by
  simp [secretOf]

@[simp] theorem secretOf_deleted {sid' : Str} :
    secretOf sid (log ++ [.deleted sid']) = if sid' = sid then none else secretOf sid log := by
  simp [secretOf]

/-! ## The invariant -/

/-- The rows hold what the log says: hashes of tokens that were issued and not
traded, and of the secrets in force. `n` draws were made. -/
structure Good (e : Env) (n : Nat) (h : Hub) : Prop where
  ids : ∀ sid ∈ h.servers.keys, ∃ choice, sid = newServerId choice
  issued : ∀ sid row hash, h.servers.get sid = some row → row.enrollHash = some hash →
    ∃ i < n, ∃ issue, hash = e.sha256 (token e 24 i) ∧ row.enrollExpires = some (issue + enrollTtl) ∧
      Issued sid (token e 24 i) issue h.log
  apart : ∀ sid sid' row row' hash, h.servers.get sid = some row → h.servers.get sid' = some row' →
    row.enrollHash = some hash → row'.enrollHash = some hash → sid = sid'
  spent : ∀ tok ∈ used h.log, (∃ i < n, tok = token e 24 i) ∧
    ∀ sid row, h.servers.get sid = some row → row.enrollHash ≠ some (e.sha256 tok)
  once : (used h.log).Nodup
  timely : Each Timely h.log
  secret : ∀ sid, (h.servers.get sid).bind Server.secretHash = (secretOf sid h.log).map e.sha256
  drawn : ∀ sid x, secretOf sid h.log = some x → ∃ i < n, x = token e 32 i

theorem good_start : Good e 0 start where
  ids sid hs := by simp [start, Dict.mem_keys] at hs
  issued sid row hash hrow := by simp [start] at hrow
  apart sid sid' row row' hash hrow := by simp [start] at hrow
  spent tok htok := by simp [start, used] at htok
  once := List.nodup_nil
  timely := each_nil
  secret sid := rfl
  drawn sid x hx := by simp [start, secretOf] at hx

theorem Good.mono (hg : Good e n h) (hnm : n ≤ m) : Good e m h where
  ids := hg.ids
  issued sid row hash hrow hhash := by
    obtain ⟨i, hi, rest⟩ := hg.issued sid row hash hrow hhash
    exact ⟨i, Nat.lt_of_lt_of_le hi hnm, rest⟩
  apart := hg.apart
  spent tok htok := by
    obtain ⟨⟨i, hi, htok⟩, hrows⟩ := hg.spent tok htok
    exact ⟨⟨i, Nat.lt_of_lt_of_le hi hnm, htok⟩, hrows⟩
  once := hg.once
  timely := hg.timely
  secret := hg.secret
  drawn sid x hx := by
    obtain ⟨i, hi, heq⟩ := hg.drawn sid x hx
    exact ⟨i, Nat.lt_of_lt_of_le hi hnm, heq⟩

/-- The invariant is about the rows and the log. -/
theorem Good.same (hg : Good e n h) (hs : h'.servers = h.servers) (hl : h'.log = h.log) : Good e n h' := by
  obtain ⟨ids, issued, apart, spent, once, timely, secret, drawn⟩ := hg
  rw [← hs] at ids issued apart spent secret
  rw [← hl] at issued spent once timely secret drawn
  exact ⟨ids, issued, apart, spent, once, timely, secret, drawn⟩

theorem timely_of_not_enrolled (hx : ∀ sid tok secret t, x ≠ .enrolled sid tok secret t) :
    Timely log x := by
  intro sid tok secret t heq
  exact absurd heq (hx sid tok secret t)

/-- A token that is drawn now is in no row and was never traded. -/
theorem Good.fresh (hg : Good e n h) (ha : Assumed e strings (n + 1)) :
    (∀ sid row, h.servers.get sid = some row → row.enrollHash ≠ some (e.sha256 (token e 24 n))) ∧
    token e 24 n ∉ used h.log := by
  have hlt := Nat.lt_succ_self n
  constructor
  · intro sid row hrow hhash
    obtain ⟨i, hi, -, heq, -⟩ := hg.issued sid row _ hrow hhash
    have hsame := ha.collisionFree (ha.drawn n hlt).1 (ha.drawn i (hi.trans hlt)).1 heq
    exact ha.distinct n hlt i hi hsame.symm
  · intro hmem
    obtain ⟨⟨i, hi, heq⟩, -⟩ := hg.spent _ hmem
    exact ha.distinct n hlt i hi heq.symm

/-- A new token takes the place of the one before it. -/
theorem good_issue (hg : Good e n h) (ha : Assumed e strings (n + 1)) (hid : ∃ choice, sid = newServerId choice)
    (hhash : row.enrollHash = some (e.sha256 (token e 24 n)))
    (hexp : row.enrollExpires = some (t + enrollTtl))
    (hsecret : row.secretHash = (h.servers.get sid).bind Server.secretHash) :
    Good e (n + 1) { h with
      servers := h.servers.set sid row
      log := h.log ++ [.issued sid (token e 24 n) t] } := by
  obtain ⟨hrows, hused⟩ := hg.fresh ha
  constructor
  case ids =>
    intro sid' hs
    simp only [Dict.mem_keys, Dict.get_set] at hs
    by_cases heq : sid' = sid
    · rw [heq]
      exact hid
    · rw [if_neg heq] at hs
      exact hg.ids sid' (Dict.mem_keys.mpr hs)
  case issued =>
    intro sid' row' hash hrow' hhash'
    simp only [Dict.get_set] at hrow'
    by_cases heq : sid' = sid
    · rw [if_pos heq] at hrow'
      cases hrow'
      rw [hhash] at hhash'
      cases hhash'
      refine ⟨n, Nat.lt_succ_self n, t, rfl, hexp, Since.now ?_⟩
      rw [heq]
    · rw [if_neg heq] at hrow'
      obtain ⟨i, hi, issue, hhash', hexp', hissued⟩ := hg.issued sid' row' hash hrow' hhash'
      refine ⟨i, Nat.lt_succ_of_lt hi, issue, hhash', hexp', hissued.keep ?_⟩
      rintro (⟨tok', at', hx⟩ | hx)
      · cases hx
        exact heq rfl
      · cases hx
  case apart =>
    intro sid₁ sid₂ row₁ row₂ hash h₁ h₂ hh₁ hh₂
    simp only [Dict.get_set] at h₁ h₂
    split at h₁ <;> split at h₂
    · rename_i e₁ e₂
      rw [e₁, e₂]
    · cases h₁
      rw [hhash] at hh₁
      cases hh₁
      exact absurd hh₂ (hrows sid₂ row₂ h₂)
    · cases h₂
      rw [hhash] at hh₂
      cases hh₂
      exact absurd hh₁ (hrows sid₁ row₁ h₁)
    · exact hg.apart sid₁ sid₂ row₁ row₂ hash h₁ h₂ hh₁ hh₂
  case spent =>
    intro tok htok
    rw [used_issued] at htok
    obtain ⟨⟨i, hi, hti⟩, hrest⟩ := hg.spent tok htok
    refine ⟨⟨i, Nat.lt_succ_of_lt hi, hti⟩, fun sid' row' hrow' => ?_⟩
    simp only [Dict.get_set] at hrow'
    split at hrow'
    · cases hrow'
      rw [hhash]
      intro heq
      have hmem : tok ∈ strings := hti ▸ (ha.drawn i (Nat.lt_succ_of_lt hi)).1
      have hsame := ha.collisionFree (ha.drawn n (Nat.lt_succ_self n)).1 hmem (Option.some.inj heq)
      rw [← hsame] at htok
      exact hused htok
    · exact hrest sid' row' hrow'
  case once =>
    rw [used_issued]
    exact hg.once
  case timely => exact hg.timely.snoc (timely_of_not_enrolled (by simp))
  case secret =>
    intro sid'
    rw [secretOf_issued, ← hg.secret sid', Dict.get_set]
    split
    · rename_i heq
      rw [heq, Option.bind_some, hsecret]
    · rfl
  case drawn =>
    intro sid' x hx
    rw [secretOf_issued] at hx
    exact (hg.mono (Nat.le_succ n)).drawn sid' x hx

/-- A trade takes the token from its row and puts the new secret there. -/
theorem good_enroll (hg : Good e n h) (ha : Assumed e strings n) {i : Nat} (hi : i < n) (htok : tok ∈ strings)
    (hrow : h.servers.get sid = some row) (hhash : row.enrollHash = some (e.sha256 tok))
    (ht : t ≤ row.enrollExpires.getD 0) :
    Good e n { h with
      servers := h.servers.set sid { row with
        secretHash := some (e.sha256 (token e 32 i)), enrollHash := none, enrollExpires := none }
      log := h.log ++ [.enrolled sid tok (token e 32 i) t] } := by
  obtain ⟨j, hj, issue, heq, hexp, hissued⟩ := hg.issued sid row _ hrow hhash
  obtain rfl := ha.collisionFree htok (ha.drawn j hj).1 heq
  constructor
  case ids =>
    intro sid' hs
    simp only [Dict.mem_keys, Dict.get_set] at hs
    by_cases heq : sid' = sid
    · rw [heq]
      exact hg.ids sid (Dict.mem_keys.mpr (by simp [hrow]))
    · rw [if_neg heq] at hs
      exact hg.ids sid' (Dict.mem_keys.mpr hs)
  case issued =>
    intro sid' row' hash hrow' hhash'
    simp only [Dict.get_set] at hrow'
    split at hrow'
    · cases hrow'
      cases hhash'
    · obtain ⟨k, hk, issue', hhash', hexp', hissued'⟩ := hg.issued sid' row' hash hrow' hhash'
      refine ⟨k, hk, issue', hhash', hexp', hissued'.keep ?_⟩
      rintro (⟨tok', at', hx⟩ | hx) <;> cases hx
  case apart =>
    intro sid₁ sid₂ row₁ row₂ hash h₁ h₂ hh₁ hh₂
    simp only [Dict.get_set] at h₁ h₂
    split at h₁
    · cases h₁
      cases hh₁
    · split at h₂
      · cases h₂
        cases hh₂
      · exact hg.apart sid₁ sid₂ row₁ row₂ hash h₁ h₂ hh₁ hh₂
  case spent =>
    intro tok' htok'
    rw [used_enrolled] at htok'
    rcases List.mem_append.mp htok' with htok' | htok'
    · obtain ⟨hdrawn, hrest⟩ := hg.spent tok' htok'
      refine ⟨hdrawn, fun sid' row' hrow' => ?_⟩
      simp only [Dict.get_set] at hrow'
      split at hrow'
      · cases hrow'
        simp
      · exact hrest sid' row' hrow'
    · obtain rfl := List.mem_singleton.mp htok'
      refine ⟨⟨j, hj, rfl⟩, fun sid' row' hrow' hhash' => ?_⟩
      simp only [Dict.get_set] at hrow'
      split at hrow'
      · cases hrow'
        cases hhash'
      · rename_i hne
        exact hne (hg.apart sid' sid row' row _ hrow' hrow hhash' hhash)
  case once =>
    rw [used_enrolled]
    refine List.Nodup.append hg.once (List.nodup_singleton _) ?_
    intro tok' hmem hmem'
    rw [List.mem_singleton.mp hmem'] at hmem
    exact (hg.spent _ hmem).2 sid row hrow hhash
  case timely =>
    refine hg.timely.snoc ?_
    intro sid' tok' secret' t' hx
    cases hx
    refine ⟨issue, hissued, ?_⟩
    rw [hexp, Option.getD_some] at ht
    exact ht
  case secret =>
    intro sid'
    rw [secretOf_enrolled, Dict.get_set]
    by_cases heq : sid' = sid
    · simp [heq]
    · simp [heq, Ne.symm heq, hg.secret sid']
  case drawn =>
    intro sid' x hx
    rw [secretOf_enrolled] at hx
    split at hx
    · cases hx
      exact ⟨i, hi, rfl⟩
    · exact hg.drawn sid' x hx

theorem good_delete (hg : Good e n h) (sid : Str) : Good e n (deleteServer sid h) := by
  have hsub : ∀ sid' row', (h.servers.erase sid).get sid' = some row' →
      sid' ≠ sid ∧ h.servers.get sid' = some row' := by
    intro sid' row' hrow'
    rw [Dict.get_erase] at hrow'
    split at hrow'
    · cases hrow'
    · rename_i hne
      exact ⟨hne, hrow'⟩
  constructor
  case ids =>
    intro sid' hs
    obtain ⟨row', hrow'⟩ := Option.isSome_iff_exists.mp (Dict.mem_keys.mp hs)
    exact hg.ids sid' (Dict.mem_keys.mpr (by simp [(hsub sid' row' hrow').2]))
  case issued =>
    intro sid' row' hash hrow' hhash
    obtain ⟨hne, hrow'⟩ := hsub sid' row' hrow'
    obtain ⟨i, hi, issue, hhash, hexp, hissued⟩ := hg.issued sid' row' hash hrow' hhash
    refine ⟨i, hi, issue, hhash, hexp, hissued.keep ?_⟩
    rintro (⟨tok', at', hx⟩ | hx)
    · cases hx
    · cases hx
      exact hne rfl
  case apart =>
    intro sid₁ sid₂ row₁ row₂ hash h₁ h₂
    exact hg.apart sid₁ sid₂ row₁ row₂ hash (hsub _ _ h₁).2 (hsub _ _ h₂).2
  case spent =>
    intro tok htok
    rw [deleteServer, used_deleted] at htok
    obtain ⟨hdrawn, hrest⟩ := hg.spent tok htok
    exact ⟨hdrawn, fun sid' row' hrow' => hrest sid' row' (hsub sid' row' hrow').2⟩
  case once =>
    rw [deleteServer, used_deleted]
    exact hg.once
  case timely => exact hg.timely.snoc (timely_of_not_enrolled (by simp))
  case secret =>
    intro sid'
    simp only [deleteServer]
    rw [secretOf_deleted, Dict.get_erase]
    by_cases heq : sid' = sid
    · simp [heq]
    · simp [heq, Ne.symm heq, hg.secret sid']
  case drawn =>
    intro sid' x hx
    rw [deleteServer, secretOf_deleted] at hx
    split at hx
    · cases hx
    · exact hg.drawn sid' x hx

/-! ## Runs -/

theorem good_createServer (hg : Good e h.requests h) (ha : Assumed e strings (h.requests + 1)) (name : Str)
    (choice : Fin 7 → Fin alphabet.length) : Good e (h.requests + 1) (createServer e name choice h).2 := by
  unfold createServer
  simp only
  split
  · exact hg.mono (Nat.le_succ _)
  · split
    · exact hg.mono (Nat.le_succ _)
    · rename_i hnew
      refine good_issue hg ha ⟨choice, rfl⟩ rfl rfl ?_
      rw [Option.not_isSome_iff_eq_none] at hnew
      rw [hnew]
      rfl

theorem good_newEnrollToken (hg : Good e h.requests h) (ha : Assumed e strings (h.requests + 1)) (sid : Str) :
    Good e (h.requests + 1) (newEnrollToken e sid h).2 := by
  unfold newEnrollToken
  split
  · exact hg.mono (Nat.le_succ _)
  · rename_i row hrow
    refine good_issue hg ha (hg.ids sid (Dict.mem_keys.mpr (by simp [hrow]))) rfl rfl ?_
    rw [hrow]
    rfl

theorem good_enrollCall (hg : Good e h.requests h) (ha : Assumed e strings (h.requests + 1))
    (htok : strip tok ∈ strings) (ip : Str) :
    Good e (h.requests + 1) (enroll e tok ip h).2 := by
  have hg' := hg.mono (Nat.le_succ h.requests)
  unfold enroll
  split
  · exact hg'
  · split
    · exact hg'.same rfl rfl
    · rename_i sid row hfind
      have hrow : h.servers.get sid = some row := Dict.mem_entries.mp (List.mem_of_find?_eq_some hfind)
      have hhash : row.enrollHash = some (e.sha256 (strip tok)) := by
        simpa using List.find?_some hfind
      split
      · exact hg'.same rfl rfl
      · rename_i ht
        exact good_enroll hg' ha (Nat.lt_succ_self _) htok hrow hhash (Nat.le_of_not_lt ht)

theorem good_step (h : Hub) (ha : Assumed e strings (h.requests + 1)) (c : Call) (hc : c.Among strings)
    (hg : Good e h.requests h) :
    Good e (step e h c).requests (step e h c) := by
  have hreq : (step e h c).requests = h.requests + 1 := rfl
  rw [hreq]
  cases c with
  | createServer name choice => exact (good_createServer hg ha name choice).same rfl rfl
  | newEnrollToken sid => exact (good_newEnrollToken hg ha sid).same rfl rfl
  | enroll tok ip => exact (good_enrollCall hg ha hc ip).same rfl rfl
  | deleteServer sid => exact ((good_delete hg sid).mono (Nat.le_succ _)).same rfl rfl
  | loginFail rows => exact (hg.mono (Nat.le_succ _)).same rfl rfl

theorem Assumed.mono (ha : Assumed e strings m) (hnm : n ≤ m) : Assumed e strings n where
  distinct := ha.distinct.mono hnm
  urlsafe draw hlt := ha.urlsafe draw (Nat.lt_of_lt_of_le hlt hnm)
  drawn draw hlt := ha.drawn draw (Nat.lt_of_lt_of_le hlt hnm)
  collisionFree := ha.collisionFree
  digits := ha.digits

theorem requests_run (cs : List Call) : (runs.final (step e) start cs).requests ≤ cs.length :=
  runs.final_counted (I := fun h : Hub => h.requests ≤ cs.length) (P := fun _ => True) (fun _ _ => rfl)
    (fun _ _ _ _ hlt => hlt) (Nat.zero_le _) (fun _ _ => trivial) (Nat.zero_add _).le

theorem good_run {cs : List Call} (ha : Assumed e strings cs.length) (hcs : ∀ c ∈ cs, c.Among strings) :
    Good e cs.length (runs.final (step e) start cs) :=
  have hg : Good e (runs.final (step e) start cs).requests (runs.final (step e) start cs) :=
    runs.final_counted (I := fun h => Good e h.requests h) (P := Call.Among strings) (fun _ _ => rfl)
      (fun h c hg hc hlt => good_step h (ha.mono hlt) c hc hg) good_start hcs (Nat.zero_add _).le
  hg.mono (requests_run cs)

/-! ## Headers -/

theorem newServerId_length (choice : Fin 7 → Fin alphabet.length) : (newServerId choice).length = 8 := by
  simp [newServerId]

theorem Good.length_id (hg : Good e n h) (hs : sid ∈ h.servers.keys) : sid.length = 8 := by
  obtain ⟨choice, rfl⟩ := hg.ids sid hs
  exact newServerId_length choice

/-- A server is found only under its own id. -/
theorem Good.take_id (hg : Good e n h) (hs : sid.take 16 ∈ h.servers.keys) : sid.take 16 = sid := by
  have hlen := hg.length_id hs
  rw [List.length_take] at hlen
  exact List.take_of_length_le (by omega)

/-- The hub lets in whom the log says it should. -/
theorem authenticate_iff (hg : Good e n h) (ha : Assumed e strings n) {header : Str}
    (hsent : ∀ x ∈ credentials header, x.2 ∈ strings) :
    authenticate e header h = some sid ↔
      ∃ secret, credentials header = some (sid, secret) ∧ secretOf sid h.log = some secret := by
  unfold authenticate
  constructor
  · intro hauth
    split at hauth
    · cases hauth
    · rename_i sid' secret hcred
      split at hauth
      · cases hauth
      · rename_i row hrow
        split at hauth
        · cases hauth
        · rename_i hash hhash
          split at hauth
          · cases hauth
          · split at hauth
            · rename_i hsame
              cases hauth
              have hmem : sid.take 16 ∈ h.servers.keys := Dict.mem_keys.mpr (by simp [hrow])
              have hid := hg.take_id hmem
              have hsecret := hg.secret sid
              rw [← hid, hrow, Option.bind_some, hhash, hid, ← hsame] at hsecret
              obtain ⟨x, hx, heq⟩ := Option.map_eq_some_iff.mp hsecret.symm
              obtain ⟨i, hi, rfl⟩ := hg.drawn _ x hx
              rw [ha.collisionFree (ha.drawn i hi).2 (hsent _ hcred) heq] at hx
              exact ⟨secret, hcred, hx⟩
            · cases hauth
  · rintro ⟨secret, hcred, hx⟩
    have hsecret := hg.secret sid
    rw [hx, Option.map_some, Option.bind_eq_some_iff] at hsecret
    obtain ⟨row, hrow, hhash⟩ := hsecret
    have hmem : sid ∈ h.servers.keys := Dict.mem_keys.mpr (by simp [hrow])
    have hlen := hg.length_id hmem
    have hid : sid.take 16 = sid := List.take_of_length_le (by omega)
    simp [hcred, hid, hrow, hhash, ha.digits secret]

theorem mem_newServerId {c : Char} {choice : Fin 7 → Fin alphabet.length} (hc : c ∈ newServerId choice) :
    c = 's' ∨ c ∈ alphabet := by
  rcases List.mem_cons.mp hc with rfl | hc
  · exact .inl rfl
  · obtain ⟨i, rfl⟩ := List.mem_ofFn.mp hc
    exact .inr (List.get_mem alphabet (choice i))

/-- The header that an agent sends names its server and its secret. -/
theorem credentials_header (choice : Fin 7 → Fin alphabet.length)
    (hurlsafe : ∀ c ∈ secret, isspace c = false) :
    credentials (bearer ++ newServerId choice ++ ':' :: secret) = some (newServerId choice, secret) := by
  have hall : (('s' :: alphabet).all fun c => !isspace c && c ≠ ':') = true := by decide +kernel
  have hplain : ∀ c ∈ 's' :: alphabet, isspace c = false ∧ c ≠ ':' := fun c hc => by
    simpa using List.all_eq_true.mp hall c hc
  have hid : ∀ c ∈ newServerId choice, isspace c = false ∧ c ≠ ':' := by
    intro c hc
    exact hplain c (List.mem_cons.mpr (mem_newServerId hc))
  have hspace : ∀ c ∈ newServerId choice ++ ':' :: secret, isspace c = false := by
    intro c hc
    rcases List.mem_append.mp hc with hc | hc
    · exact (hid c hc).1
    · rcases List.mem_cons.mp hc with rfl | hc
      · decide
      · exact hurlsafe c hc
  have hcolon : ':' ∉ newServerId choice := fun hc => (hid _ hc).2 rfl
  have hdrop : (bearer ++ newServerId choice ++ ':' :: secret).drop 7 =
      newServerId choice ++ ':' :: secret := by
    rw [List.append_assoc]
    exact List.drop_left' rfl
  unfold credentials
  rw [if_pos ⟨⟨_, (List.append_assoc _ _ _).symm⟩, by simp⟩, hdrop, strip_of_none hspace,
    partition_append hcolon]

/-- In every run a token lets one agent enroll at most, in its time and while it
is the newest of its server, and a server is who has the secret of its last
enrolment. The hashes of the strings that are drawn or sent do not collide. -/
theorem credentials_hold (cs : List Call) (ha : Assumed e strings cs.length) (hcs : ∀ c ∈ cs, c.Among strings) :
    let h := runs.final (step e) start cs
    (used h.log).Nodup ∧ Each Timely h.log ∧
    (∀ header sid, (∀ x ∈ credentials header, x.2 ∈ strings) →
      (authenticate e header h = some sid ↔
        ∃ secret, credentials header = some (sid, secret) ∧ secretOf sid h.log = some secret)) ∧
    (∀ sid secret, secretOf sid h.log = some secret →
      authenticate e (bearer ++ sid ++ ':' :: secret) h = some sid) := by
  intro h
  have hg : Good e cs.length h := good_run ha hcs
  refine ⟨hg.once, hg.timely, fun header sid => authenticate_iff hg ha, ?_⟩
  intro sid secret hx
  have hsecret := hg.secret sid
  rw [hx, Option.map_some, Option.bind_eq_some_iff] at hsecret
  obtain ⟨row, hrow, -⟩ := hsecret
  obtain ⟨choice, rfl⟩ := hg.ids sid (Dict.mem_keys.mpr (by simp [hrow]))
  obtain ⟨i, hi, rfl⟩ := hg.drawn _ secret hx
  have hcred := credentials_header choice (ha.urlsafe i hi)
  refine (authenticate_iff hg ha fun x hmem => ?_).mpr ⟨_, hcred, hx⟩
  rw [hcred] at hmem
  cases hmem
  exact (ha.drawn i hi).2

/-- The clock in steps of one second. -/
def sampleTime (k : Nat) : Nat := 1750000000 + k

theorem sample_urlsafe :
    ((List.range 2).all fun draw => (token (sampleEnv sampleTime) 32 draw).all fun c => isspace c = false) = true := rfl

theorem sample_assumed : Assumed (sampleEnv sampleTime) Set.univ 2 where
  distinct := by decide +kernel
  urlsafe draw hdraw c hc := by
    have hword := List.all_eq_true.mp sample_urlsafe draw (List.mem_range.mpr hdraw)
    simpa using List.all_eq_true.mp hword c hc
  drawn _ _ := ⟨trivial, trivial⟩
  collisionFree := fun _ _ _ _ heq => sampleSha256_injective heq
  digits := sampleSha256_ne_nil

/-- A server is added and its agent enrolls. -/
def enrolment : List Call :=
  [.createServer "web-1".toList fun _ => ⟨0, by decide⟩, .enroll someToken "192.0.2.7".toList]

theorem enrolment_holds :
    let h := runs.final (step (sampleEnv sampleTime)) start enrolment
    ((used h.log).Nodup ∧ Each Timely h.log ∧
      (∀ header sid, (∀ x ∈ credentials header, x.2 ∈ Set.univ) →
        (authenticate (sampleEnv sampleTime) header h = some sid ↔
          ∃ secret, credentials header = some (sid, secret) ∧ secretOf sid h.log = some secret)) ∧
      ∀ sid secret, secretOf sid h.log = some secret →
        authenticate (sampleEnv sampleTime) (bearer ++ sid ++ ':' :: secret) h = some sid) ∧
    secretOf "saaaaaaa".toList h.log = some someSecret :=
  ⟨credentials_hold enrolment sample_assumed fun c _ => by cases c <;> trivial, by decide +kernel⟩

/-! ## The row that the sockets of a server look at -/

/-- The row of a server in the hub of its sockets, where the secret stands for its hash. -/
def Tells (e : Env) (sid : Str) (h : Hub) (g : sockets.Hub) : Prop :=
  (h.servers.get sid).map Server.secretHash = g.row.map fun r => r.secret.map fun s => e.sha256 s.toList

variable {g : sockets.Hub}

/-- A socket is let in by the one model just when it is by the other. -/
theorem authenticate_tells (ht : Tells e sid h g) (ha : Assumed e strings n) (hid : sid.take 16 = sid) {header : Str}
    (hcred : credentials header = some (sid, secret)) (hsent : secret ∈ strings)
    (hkept : ∀ r ∈ g.row, ∀ s ∈ r.secret, s.toList ∈ strings) :
    authenticate e header h = some sid ↔ sockets.authenticate g (some (String.ofList secret)) = true := by
  unfold authenticate sockets.authenticate
  unfold Tells at ht
  simp only [hcred, hid]
  cases hrow : h.servers.get sid with
  | none =>
    rw [hrow, Option.map_none] at ht
    rw [Option.map_eq_none_iff.mp ht.symm]
    simp
  | some row =>
    rw [hrow, Option.map_some] at ht
    obtain ⟨r, hr, heq⟩ := Option.map_eq_some_iff.mp ht.symm
    simp only [hr]
    cases hs : r.secret with
    | none =>
      rw [hs, Option.map_none] at heq
      simp [← heq]
    | some s =>
      rw [hs, Option.map_some] at heq
      have hiff : e.sha256 secret = e.sha256 s.toList ↔ s = String.ofList secret := by
        constructor
        · intro hsame
          rw [ha.collisionFree hsent (hkept r hr s hs) hsame, String.ofList_toList]
        · rintro rfl
          rw [String.toList_ofList]
      simp [← heq, ha.digits s.toList, hiff]

/-- An enrolment that succeeds gives both rows the new secret. -/
theorem enroll_tells (ht : Tells e sid h g) {ip : Str} (k : Nat) (host : String)
    (hok : (enroll e tok ip h).1 = .ok (sid, secret)) :
    Tells e sid (enroll e tok ip h).2 (sockets.enroll k (String.ofList secret) host g) := by
  unfold enroll at hok ⊢
  split at hok
  · cases hok
  next hfew =>
    rw [if_neg hfew]
    cases hfind : h.servers.entries.find? fun r => r.2.enrollHash = some (e.sha256 (strip tok)) with
    | none =>
      rw [hfind] at hok
      cases hok
    | some found =>
      obtain ⟨sid', row⟩ := found
      simp only [hfind] at hok ⊢
      split at hok
      · cases hok
      next hintime =>
        rw [if_neg hintime]
        cases hok
        have hrow : h.servers.get sid = some row := Dict.mem_entries.mp (List.mem_of_find?_eq_some hfind)
        unfold Tells at ht ⊢
        rw [hrow, Option.map_some] at ht
        obtain ⟨r, hr, -⟩ := Option.map_eq_some_iff.mp ht.symm
        unfold sockets.enroll
        rw [hr]
        simp only [Dict.get_set_self, Option.map_some]
        split
        · rw [sockets.shut_same.1]
          simp
        · simp

/-- A server that is deleted is gone from both. -/
theorem deleteServer_tells (k : Nat) : Tells e sid (deleteServer sid h) (sockets.forget k g) := by
  unfold Tells deleteServer sockets.forget
  simp only [Dict.get_erase_self, Option.map_none]

end icsd_panel.enrolments

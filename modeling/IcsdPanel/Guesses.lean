-- Guessing at enrolment tokens: how many tokens an address may try in fifteen minutes,
-- over all requests and all that happens to the table of the failures.
import IcsdPanel.Enrolments
import IcsdPanel.Limits

open limits texts

namespace icsd_panel.guesses

open security enrolments

open accounts (Fail failWindow)

/-! ## Runs -/

/-- A request about servers and tokens, a row for a login or an enrolment that failed
elsewhere, and `prune`. -/
inductive Move
  | request (c : {c : Call // ∀ rows, c ≠ .loginFail rows})
  | fail (f : Fail)
  | prune

/-- What the request is to the hub. -/
def Move.call (e : Env) (h : enrolments.Hub) : Move → Call
  | .request c => c.1
  | .fail f => .loginFail (h.loginFail ++ [f])
  | .prune => .loginFail (h.loginFail.filter fun f => h.now e 0 ≤ f.ts + failWindow)

/-- The hub, and the addresses and the times of the guesses: a guess is a token that was
looked up and refused. -/
structure Hub where
  hub : enrolments.Hub
  tried : List (Str × Nat)

def start : Hub := ⟨enrolments.start, []⟩

def refusal : Err := .http 403 "توکن نامعتبر یا منقضی است؛ از پنل یک دستور نصب تازه بگیرید"

/-- The guess of a request. -/
def guessOf (e : Env) (h : enrolments.Hub) : Call → List (Str × Nat)
  | .enroll tok ip => if (enroll e tok ip h).1 = .error refusal then [(ip, h.now e 1)] else []
  | _ => []

def step (e : Env) (h : Hub) (m : Move) : Hub :=
  ⟨enrolments.step e h.hub (m.call e h.hub), h.tried ++ guessOf e h.hub (m.call e h.hub)⟩

/-! ## The rows of an address -/

def maxGuesses : Nat := 10

def hits (ip : Str) (guesses : List (Str × Nat)) : List Nat := (guesses.filter fun g => g.1 = ip).map Prod.snd

def mine (ip : Str) (f : Fail) : Bool := f.ip = ip ∧ f.username = enrollName

def rows (ip : Str) (fails : List Fail) : List Nat := (fails.filter (mine ip)).map Fail.ts

variable {e : Env} {h : enrolments.Hub} {m : Move} {tok ip ip' : Str} {now : Nat} {fails : List Fail}

/-- What `enroll` counts. -/
theorem recent_rows : (fails.filter fun f => f.ip = ip ∧ f.username = enrollName ∧ now < f.ts + 900).length =
    recent failWindow now (rows ip fails) := by
  rw [show (900 : Nat) = failWindow from rfl]
  unfold rows recent
  rw [List.countP_map, List.countP_filter, List.countP_eq_length_filter]
  refine congrArg (fun p => (fails.filter p).length) (funext fun f => ?_)
  simp [mine, Bool.and_comm, Bool.and_assoc]

theorem rows_append (xs : List Fail) : rows ip (fails ++ xs) = rows ip fails ++ rows ip xs := by
  simp [rows]

theorem rows_prune : rows ip (fails.filter fun f => now ≤ f.ts + failWindow) =
    (rows ip fails).filter fun s => now ≤ s + failWindow := by
  unfold rows
  rw [List.filter_map, List.filter_filter, List.filter_filter]
  refine congrArg (fun p => (fails.filter p).map Fail.ts) (funext fun f => ?_)
  simp [Bool.and_comm]

theorem hits_append (xs ys : List (Str × Nat)) : hits ip (xs ++ ys) = hits ip xs ++ hits ip ys := by
  simp [hits]

/-- A request about a token is turned away, is a guess, or is none. -/
theorem enroll_cases (tok ip : Str) : enroll e tok ip h = (.error (.http 429 "too many attempts"), h) ∧
      maxGuesses ≤ recent failWindow (h.now e 0) (rows ip h.loginFail) ∨
    recent failWindow (h.now e 0) (rows ip h.loginFail) < maxGuesses ∧
      ((enroll e tok ip h).1 = .error refusal ∧
          (enroll e tok ip h).2.loginFail = h.loginFail ++ [⟨ip, enrollName, h.now e 2⟩] ∨
        (enroll e tok ip h).1 ≠ .error refusal ∧ (enroll e tok ip h).2.loginFail = h.loginFail) := by
  unfold enroll
  rw [recent_rows]
  by_cases hmany : 10 ≤ recent failWindow (h.now e 0) (rows ip h.loginFail)
  · rw [if_pos hmany]
    exact .inl ⟨rfl, hmany⟩
  · rw [if_neg hmany]
    refine .inr ⟨Nat.lt_of_not_le hmany, ?_⟩
    split
    · exact .inl ⟨rfl, rfl⟩
    · split
      · exact .inl ⟨rfl, rfl⟩
      · exact .inr ⟨by simp, rfl⟩

theorem request_rows (c : Call) (hreal : ∀ rows, c ≠ .loginFail rows) (hquiet : ∀ tok ip, c ≠ .enroll tok ip) :
    (h.call e c).loginFail = h.loginFail ∧ guessOf e h c = [] := by
  cases c with
  | createServer name choice =>
    refine ⟨?_, rfl⟩
    simp only [Hub.call, createServer]
    split
    · rfl
    · split <;> rfl
  | newEnrollToken sid =>
    refine ⟨?_, rfl⟩
    simp only [Hub.call, newEnrollToken]
    split <;> rfl
  | enroll tok ip => exact absurd rfl (hquiet tok ip)
  | deleteServer sid => exact ⟨rfl, rfl⟩
  | loginFail rows => exact absurd rfl (hreal rows)

/-! ## The limit -/

/-- The guesses of an address stay under the limit, and the table tells of them. -/
def Kept (e : Env) (ip : Str) (h : Hub) : Prop :=
  limits.Kept failWindow maxGuesses (h.hub.now e 0) (hits ip h.tried) (rows ip h.hub.loginFail)

/-- A request that makes no guess, and what it leaves of the rows. -/
theorem Kept.quiet {h : Hub} (hk : Kept e ip h) (hclock : e.Ordered) (hguess : guessOf e h.hub (m.call e h.hub) = [])
    (hrows : ∀ t, h.hub.now e 0 ≤ t → recent failWindow t (rows ip h.hub.loginFail) ≤
      recent failWindow t (rows ip (h.hub.call e (m.call e h.hub)).loginFail)) : Kept e ip (step e h m) := by
  have hnext : h.hub.now e 0 ≤ e.time (4 * (h.hub.requests + 1)) := hclock (by omega)
  unfold Kept step
  rw [hguess, List.append_nil]
  exact hk.later hnext fun t ht => hrows t (Nat.le_trans hnext ht)

theorem kept_enroll {h : Hub} (hk : Kept e ip h) (hclock : e.Ordered) (tok ip' : Str)
    (hreal : ∀ rows, Call.enroll tok ip' ≠ .loginFail rows) :
    Kept e ip (step e h (.request ⟨.enroll tok ip', hreal⟩)) := by
  have hle : ∀ i j, i ≤ j → h.hub.now e i ≤ e.time (4 * h.hub.requests + j) := fun i j hij => hclock (by omega)
  rcases enroll_cases (e := e) (h := h.hub) tok ip' with ⟨heq, -⟩ | ⟨hfew, ⟨heq, hrows⟩ | ⟨hne, hrows⟩⟩
  · refine hk.quiet hclock ?_ fun t _ => ?_
    · simp [Move.call, guessOf, heq, refusal]
    · simp [Move.call, Hub.call, heq]
  · by_cases hip : ip' = ip
    · subst hip
      have hhits : hits ip' (guessOf e h.hub (.enroll tok ip')) = [h.hub.now e 1] := by simp [guessOf, heq, hits]
      have hone : rows ip' [⟨ip', enrollName, h.hub.now e 2⟩] = [h.hub.now e 2] := by simp [rows, mine]
      unfold Kept step
      simp only [Move.call, enrolments.step, Hub.call, hits_append, hhits, hrows, rows_append, hone]
      exact hk.hit (Nat.le_refl _) hfew (hle 0 1 (by omega)) (hle 1 2 (by omega)) (hle 1 4 (by omega))
    · have hnone : hits ip (guessOf e h.hub (.enroll tok ip')) = [] := by simp [guessOf, heq, hits, hip]
      have hnext : h.hub.now e 0 ≤ e.time (4 * (h.hub.requests + 1)) := hle 0 4 (by omega)
      unfold Kept step
      simp only [Move.call, enrolments.step, Hub.call, hits_append, hnone, hrows, rows_append, List.append_nil]
      exact (hk.later hnext fun _ _ => Nat.le_refl _).more _
  · refine hk.quiet hclock ?_ fun t _ => ?_
    · simp [Move.call, guessOf, hne]
    · simp [Move.call, Hub.call, hrows]

theorem kept_step {h : Hub} (hclock : e.Ordered) (hk : Kept e ip h) (m : Move) : Kept e ip (step e h m) := by
  cases m with
  | request c =>
    obtain ⟨c, hreal⟩ := c
    by_cases hquiet : ∀ tok ip, c ≠ .enroll tok ip
    · obtain ⟨hrows, hguess⟩ := request_rows (e := e) (h := h.hub) c hreal hquiet
      refine hk.quiet hclock hguess fun t _ => ?_
      simp only [Move.call]
      rw [hrows]
    · push Not at hquiet
      obtain ⟨tok, ip', rfl⟩ := hquiet
      exact kept_enroll hk hclock tok ip' hreal
  | fail f =>
    refine hk.quiet hclock rfl fun t _ => ?_
    simp only [Move.call, Hub.call]
    rw [rows_append, recent_append]
    exact Nat.le_add_right _ _
  | prune =>
    have hnext : h.hub.now e 0 ≤ e.time (4 * (h.hub.requests + 1)) := hclock (by omega)
    unfold Kept step
    simp only [Move.call, guessOf, List.append_nil, enrolments.step, Hub.call]
    rw [rows_prune]
    exact (hk.prune (Nat.le_refl _)).later hnext fun _ _ => Nat.le_refl _

theorem kept_run (hclock : e.Ordered) (ip : Str) (ms : List Move) : Kept e ip (runs.final (step e) start ms) :=
  runs.final_invariant (P := fun _ => True) (fun _ m hk _ => kept_step hclock hk m) kept_nil fun _ _ => trivial

/-- In any fifteen minutes at most ten guesses are made from an address. Where there
were as many, the next request is turned away, also with a token that is right. -/
theorem guesses_limited (hclock : e.Ordered) (ms : List Move) (ip : Str) :
    let h := runs.final (step e) start ms
    (∀ t, within failWindow t (hits ip h.tried) ≤ maxGuesses) ∧
      (maxGuesses ≤ within failWindow (h.hub.now e 0) (hits ip h.tried) →
        ∀ tok, enroll e tok ip h.hub = (.error (.http 429 "too many attempts"), h.hub)) := by
  intro h
  have hk : Kept e ip h := kept_run hclock ip ms
  refine ⟨hk.bounded, fun hfull tok => ?_⟩
  have hmany := hk.full (Nat.le_refl _) hfull
  rcases enroll_cases (e := e) (h := h.hub) tok ip with ⟨heq, -⟩ | ⟨hfew, -⟩
  · exact heq
  · omega

/-- Ten requests with a token that nobody was given. -/
def guessing : List Move :=
  List.replicate 10 (.request ⟨.enroll "guess".toList "192.0.2.7".toList, fun _ h => by cases h⟩)

/-- They fill the window, and the next is turned away. -/
theorem guessing_refused :
    let e := sampleEnv sampleTime
    let h := runs.final (step e) start guessing
    (∀ t, within failWindow t (hits "192.0.2.7".toList h.tried) ≤ maxGuesses) ∧
      maxGuesses ≤ within failWindow (h.hub.now e 0) (hits "192.0.2.7".toList h.tried) ∧
        ∀ tok, enroll e tok "192.0.2.7".toList h.hub = (.error (.http 429 "too many attempts"), h.hub) := by
  intro e h
  have hfull : maxGuesses ≤ within failWindow (h.hub.now e 0) (hits "192.0.2.7".toList h.tried) := by
    decide +kernel
  obtain ⟨hbounded, hrefused⟩ :=
    guesses_limited (e := e) (fun _ _ hij => Nat.add_le_add_left hij 1750000000) guessing "192.0.2.7".toList
  exact ⟨hbounded, hfull, hrefused hfull⟩

end icsd_panel.guesses

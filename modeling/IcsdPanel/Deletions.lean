-- The deletion of a server while its socket handlers, a fetch of its certificates
-- and its backup runs are under way.
import IcsdPanel.Plans
import IcsdPanel.Sockets

open dicts

namespace icsd_panel.deletions

open alerts live evaluators lives operations

/-! ## State -/

/-- A certificate in the answer to `ssl.list`. -/
structure Cert where
  path : Option String
  name : Option String
  notAfter : ℚ
  domains : List String
  source : Option String
deriving DecidableEq

/-- The hub around the sockets of the server: what its samples came to, its entry
in the `_cache` of the domains, and the tasks that are about it. -/
structure Hub where
  net : sockets.Hub
  lives : Nat → live.Live
  minutes : Minutes
  cache : Option (ℚ × List Cert)
  alerts : Alerts
  fetches : Dict Nat Unit
  running : Dict Nat plans.Plan

def start : Hub := ⟨sockets.start, fun _ => .new, .empty, none, seed .empty, .empty, .empty⟩

/-! ## Samples -/

/-- The object of a handler that ends with its clean-up. -/
def release (net : sockets.Hub) (j : Nat) (p : sockets.Conn → Bool) : Option Nat :=
  match net.conns.get j with
  | some c => if p c && (net.objects c.lv).ws = some j then some c.lv else none
  | none => none

/-- The object that a move cleans up. -/
def cleaned (net : sockets.Hub) : sockets.Move → Option Nat
  | .greeted j => release net j fun c =>
      c.stage = .greeting && sockets.parses (net.row.bind sockets.Row.host) && !c.isOpen
  | .received j .skipped => release net j fun c => c.stage = .reading && !c.isOpen
  | .woke j => release net j fun c => c.stage = .yielding && !c.isOpen
  | .lost j => release net j fun c => c.stage = .reading || c.stage = .yielding
  | _ => none

/-- The clean-up writes the minute, if the object is still the one of the server
and the server is still there. -/
def flushed (sid : Sid) (net : sockets.Hub) (l : Nat) (h : Hub) : Hub :=
  if net.live = some l ∧ net.row.isSome then
    let (lv, t) := flush sid (h.lives l) h.minutes
    { h with lives := Function.update h.lives l lv, minutes := t }
  else h

/-- The handler takes a sample. -/
def sampled (sid : Sid) (c : Ctx) (l : Nat) (raw : Raw) (cpus : Int) (h : Hub) : Hub :=
  let (s, lv, t, _) := ingest sid raw c.time (h.lives l) h.minutes
  { h with
    lives := Function.update h.lives l lv
    minutes := t
    alerts := runActs c (evaluateSample h.alerts.rules sid s cpus c.time) h.alerts }

/-- The handler that takes a sample, if there is one. -/
def taking (net : sockets.Hub) (j : Nat) : Option Nat :=
  match net.conns.get j with
  | some c => if c.stage = .reading then some c.lv else none
  | none => none

/-! ## The deletion -/

/-- What `delete_server` clears besides the row. -/
def cleared (sid : Sid) (c : Ctx) (h : Hub) : Hub :=
  { h with
    alerts := forgetServer c sid h.alerts
    cache := none
    minutes := (h.minutes.keys.filter fun k => k.1 = sid).foldl Dict.erase h.minutes }

/-! ## Certificates -/

def cacheTtl : ℚ := 15 * 60

/-- The cached answer is taken. -/
def cached (c : Ctx) (force : Bool) (h : Hub) : Bool :=
  match h.cache with
  | some (t, _) => !force && decide (c.time - t < cacheTtl)
  | none => false

/-- `fetch` up to its call, if it comes to that. -/
def fetch (f : Nat) (c : Ctx) (force : Bool) (h : Hub) : Hub :=
  if !cached c force h && (h.net.live.bind fun l => (h.net.objects l).ws).isSome then
    { h with fetches := h.fetches.set f () }
  else h

/-- Python's text of an attribute that may be missing. -/
def orNone (s : Option String) : String := s.getD "None"

def subjectOf (x : Cert) : String :=
  "ssl:" ++ orNone (match x.path with
    | some p => if p = "" then x.name else some p
    | none => x.name)

/-- What `_alert_certs` reads of it. -/
def expiry (x : Cert) : Expiry := ⟨subjectOf x, x.notAfter, x.domains, orNone x.source⟩

/-- The rest of `fetch`, after the call. -/
def fetched (sid : Sid) (f : Nat) (c : Ctx) (data : Option (List Cert)) (h : Hub) : Hub :=
  if h.fetches.get f = none then h
  else
    let h := { h with fetches := h.fetches.erase f }
    match data with
    | none => h
    | some certs =>
      { h with
        cache := some (c.time, certs)
        alerts := runActs c (alertCerts h.alerts.rules sid c.time (certs.map expiry)) h.alerts }

/-! ## Moves -/

inductive Move
  | net (c : Ctx) (m : sockets.Move)
  | fetch (f : Nat) (c : Ctx) (force : Bool)
  | fetched (f : Nat) (c : Ctx) (data : Option (List Cert))
  | run (b : Nat) (p : plans.Plan)
  | ended (b : Nat) (c : Ctx) (error : Option String)
  | rule (kind : Kind) (threshold : ℚ) (forS : Int) (severity : Severity) (enabled : Bool)

/-- What a move of the sockets does to the rest. -/
def around (sid : Sid) (c : Ctx) (m : sockets.Move) (h : Hub) : Hub :=
  match m with
  | .received j (.sample raw cpus) =>
    match taking h.net j with
    | some l => sampled sid c l raw cpus h
    | none => h
  | m =>
    if sockets.deletesRow h.net m then cleared sid c h
    else match cleaned h.net m with
      | some l => flushed sid h.net l h
      | none => h

def Hub.move (sid : Sid) (h : Hub) : Move → Hub
  | .net c m => { around sid c m h with net := h.net.move m }
  | .fetch f c force => if h.fetches.get f = none then deletions.fetch f c force h else h
  | .fetched f c data => deletions.fetched sid f c data h
  | .run b p =>
    if h.running.get b = none ∧ p.serverId = sid ∧ h.net.row.isSome then
      { h with running := h.running.set b p }
    else h
  | .ended b c error =>
    match h.running.get b with
    | some p =>
      { h with running := h.running.erase b, alerts := step c (plans.report p error) h.alerts }
    | none => h
  | .rule kind thr forS sev on => { h with alerts := updateRule kind thr forS sev on h.alerts }

/-! ## The law -/

/-- There is no open event and no minute of the server. -/
structure Clean (sid : Sid) (h : Hub) : Prop where
  events : ∀ k, k.serverId = sid → ¬ HasOpen k h.alerts
  minutes : ∀ t, h.minutes.get (sid, t) = none

/-- Once the server is deleted, nothing of it is left or comes again. -/
def Law (sid : Sid) (h : Hub) : Prop := h.net.row = none → Clean sid h

/-- Whether the tasks that would write find the row of the server. -/
def present (h : Hub) : Move → Bool
  | .net _ (.received j (.sample _ _)) => (taking h.net j).isNone || h.net.row.isSome
  | .fetched f _ (some _) => (h.fetches.get f).isNone || h.net.row.isSome
  | .ended b _ error => (h.running.get b).all fun p =>
      (badRule h.alerts.rules (plans.report p error)).isNone || h.net.row.isSome
  | _ => true

variable {sid : Sid} {h : Hub} {c : Ctx}

/-- What changes neither the events nor the minutes of a server. -/
theorem clean_of_same {h' : Hub} (hc : Clean sid h)
    (ho : ∀ k, k.serverId = sid → HasOpen k h'.alerts → HasOpen k h.alerts)
    (hm : h'.minutes = h.minutes) : Clean sid h' where
  events k hk hopen := hc.events k hk (ho k hk hopen)
  minutes t := by
    rw [hm]
    exact hc.minutes t

theorem clean_cleared (h : Hub) : Clean sid (cleared sid c h) where
  events k hk ho := ((isOpen_forgetServer sid).mp ho).2 hk
  minutes t := by
    have hget : (cleared sid c h).minutes.get (sid, t) =
      ((h.minutes.keys.filter fun k => k.1 = sid).foldl Dict.erase h.minutes).get (sid, t) := rfl
    rw [hget, get_foldl_erase]
    split
    · rfl
    · rename_i hno
      have hkey : (sid, t) ∉ h.minutes.keys := by simpa using hno
      simpa [Dict.mem_keys] using hkey

/-! ## Each move -/

theorem matched_around (hm : Matched h.alerts) (m : sockets.Move) :
    Matched (around sid c m h).alerts := by
  have hflush (l : Nat) : Matched (flushed sid h.net l h).alerts := by
    unfold flushed
    split <;> exact hm
  have hrest (m : sockets.Move) : Matched (if sockets.deletesRow h.net m then cleared sid c h
      else match cleaned h.net m with
        | some l => flushed sid h.net l h
        | none => h).alerts := by
    split
    · exact (forgetServer_shuts sid _).matched hm
    · split
      · exact hflush _
      · exact hm
  unfold around
  split
  · split
    · exact matched_runActs _ _ hm
    · exact hm
  · exact hrest _

/-- A sample is no deletion, and is taken only by a handler that reads. -/
theorem around_kept {m : sockets.Move} (hrow : h.net.row = none) (hp : present h (.net c m))
    (hc : Clean sid h) : Clean sid (around sid c m h) := by
  unfold around
  split
  · rename_i j raw cpus
    simp only [present, hrow, Option.isSome_none, Bool.or_false, Option.isNone_iff_eq_none] at hp
    rw [hp]
    exact hc
  · split
    · exact clean_cleared h
    · split
      · unfold flushed
        rw [if_neg]
        · exact hc
        · rintro ⟨-, hsome⟩
          rw [hrow] at hsome
          cases hsome
      · exact hc

/-- The move that takes the row away clears the rest. -/
theorem around_deleted {m : sockets.Move} (hd : sockets.deletesRow h.net m = true) :
    Clean sid (around sid c m h) := by
  unfold around
  split
  · cases hd
  · rw [if_pos hd]
    exact clean_cleared h

theorem law_net (hl : Law sid h) (m : sockets.Move) (hp : present h (.net c m)) :
    Law sid (h.move sid (.net c m)) := by
  intro hrow
  have hclean : Clean sid (around sid c m h) := by
    by_cases hd : sockets.deletesRow h.net m = true
    · exact around_deleted hd
    · have hnone : h.net.row = none := by
        by_contra hsome
        exact sockets.row_move hsome (Bool.eq_false_iff.mpr hd) hrow
      exact around_kept hnone hp (hl hnone)
  exact ⟨hclean.events, hclean.minutes⟩

theorem law_fetched (hm : Matched h.alerts) (hl : Law sid h) {f : Nat} {data : Option (List Cert)}
    (hp : present h (.fetched f c data)) :
    Matched (fetched sid f c data h).alerts ∧ Law sid (fetched sid f c data h) := by
  unfold fetched
  split
  · exact ⟨hm, hl⟩
  · rename_i hf
    cases data with
    | none => exact ⟨hm, fun hrow => clean_of_same (hl hrow) (fun _ _ => id) rfl⟩
    | some certs =>
      refine ⟨matched_runActs _ _ hm, fun hrow => ?_⟩
      have hrow : h.net.row = none := hrow
      simp only [present, hrow, Option.isSome_none, Bool.or_false, Option.isNone_iff_eq_none] at hp
      exact absurd hp hf

theorem law_ended (hm : Matched h.alerts) (hl : Law sid h) {b : Nat} {error : Option String}
    (hp : present h (.ended b c error)) :
    Matched (h.move sid (.ended b c error)).alerts ∧ Law sid (h.move sid (.ended b c error)) := by
  simp only [Hub.move]
  split
  · rename_i p hb
    refine ⟨matched_step hm _ _, fun hrow => clean_of_same (hl hrow) (fun k hk ho => ?_) rfl⟩
    have hrow : h.net.row = none := hrow
    simp only [present, hb, hrow, Option.all_some, Option.isSome_none, Bool.or_false,
      Option.isNone_iff_eq_none] at hp
    rcases isOpen_step hm ho with rfl | ho
    · exact absurd ho (not_open_improve hm hp)
    · exact ho
  · exact ⟨hm, hl⟩

theorem law_move (hm : Matched h.alerts) (hl : Law sid h) (m : Move) (hp : present h m) :
    Matched (h.move sid m).alerts ∧ Law sid (h.move sid m) := by
  cases m with
  | net c m => exact ⟨matched_around hm m, law_net hl m hp⟩
  | fetch f c force =>
    simp only [Hub.move]
    split
    · unfold fetch
      split
      · exact ⟨hm, fun hrow => clean_of_same (hl hrow) (fun _ _ => id) rfl⟩
      · exact ⟨hm, hl⟩
    · exact ⟨hm, hl⟩
  | fetched f c data => exact law_fetched hm hl hp
  | run b p =>
    simp only [Hub.move]
    split
    · exact ⟨hm, fun hrow => clean_of_same (hl hrow) (fun _ _ => id) rfl⟩
    · exact ⟨hm, hl⟩
  | ended b c error => exact law_ended hm hl hp
  | rule kind thr forS sev on =>
    exact ⟨⟨hm.ids, hm.rows, hm.fits⟩, fun hrow => clean_of_same (hl hrow) (fun _ _ => id) rfl⟩

/-- In every run in which a sample, an answer with certificates and the failure of
a backup find the row of the server, there is from its deletion on no open event
and no minute of it, whatever is still under way. -/
theorem present_keeps_law (sid : Sid) (ms : List Move)
    (hp : runs.Throughout (Hub.move sid) (fun h m => present h m) start ms) :
    Law sid (runs.final (Hub.move sid) start ms) := by
  have hstart : Matched start.alerts ∧ Law sid start := ⟨matched_seed matched_empty, nofun⟩
  exact (runs.throughout_of_invariant (I := fun h => Matched h.alerts ∧ Law sid h) (Q := fun _ _ => True)
    (fun h m hI hP => ⟨law_move hI.1 hI.2 m hP, trivial⟩) hstart hp).2.2

/-! ## Tasks that outlive the server -/

def someone : Ctx := ⟨100000, fun _ => none⟩

def later : Ctx := ⟨100120, fun _ => none⟩

/-- A sample of a server with one disk, which is full. -/
def full : Raw := ⟨⟨0, fun _ => 1, some [⟨"/", 0, 99, 1⟩], none, none⟩, true, false⟩

/-- The agent connects and sends a sample, and a backup starts. -/
def busy : List Move :=
  [.net someone (.enroll 1 "secret" "\x7b\x7d"), .net someone (.connect 1 (some "secret")),
    .net someone (.accepted 1 false), .net someone (.greeted 1),
    .net someone (.received 1 (.sample full 2)), .net someone (.woke 1),
    .run 1 ⟨1, 0, "s1", "nightly"⟩, .fetch 1 someone false]

theorem busy_law :
    Law "s1" (runs.final (Hub.move "s1") start (busy ++ [.ended 1 someone (some "disk full"),
      .net later (.delete 1), .net later (.lost 1), .net later (.deleted 1), .fetched 1 later none])) :=
  present_keeps_law "s1" _ (by decide +kernel)

/-- The server goes while a second connection waits until the first is closed. It
takes two samples and ends, and the backup fails. -/
def outlived : List Move :=
  busy ++ [.net someone (.connect 2 (some "secret")), .net someone (.accepted 2 false),
    .net someone (.delete 1), .net someone (.replaced 2 false), .net someone (.greeted 2),
    .net someone (.lost 1), .net someone (.received 2 (.sample full 2)), .net someone (.woke 2),
    .net later (.received 2 (.sample full 2)), .net later (.lost 2),
    .fetched 1 later none, .ended 1 later (some "agent")]

/-- All tasks are over, and there are open events and a minute of the server. -/
theorem outlived_server :
    let h := runs.final (Hub.move "s1") start outlived
    (sockets.Settled h.net ∧ h.fetches.entries = [] ∧ h.running.entries = []) ∧ h.net.row = none ∧
      (∃ k, k.serverId = "s1" ∧ k.rule = .backup ∧ HasOpen k h.alerts) ∧
      ∃ t, h.minutes.get ("s1", t) ≠ none := by
  intro h
  have htasks : sockets.Settled h.net ∧ h.fetches.entries.length = 0 ∧ h.running.entries.length = 0 := by
    decide +kernel
  refine ⟨⟨htasks.1, List.length_eq_zero_iff.mp htasks.2.1, List.length_eq_zero_iff.mp htasks.2.2⟩,
    by decide +kernel, ⟨⟨.backup, "s1", "plan:1"⟩, rfl, rfl, by decide +kernel⟩, 99960, ?_⟩
  have hsome : (h.minutes.get ("s1", 99960)).isSome = true := by decide +kernel
  intro hnone
  rw [hnone] at hsome
  cases hsome

end icsd_panel.deletions

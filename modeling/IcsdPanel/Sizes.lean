-- How much a server may hold for its answers to fit in a frame, by what the
-- files, the names, the commands and the bodies weigh themselves.
import IcsdPanel.Frames
import IcsdPanel.Lengths
import IcsdPanel.Lossy
import IcsdPanel.Tails

open jsons unicode effects

namespace icsd_panel.answers

open paths disk machine policy files archives

/-! ## Texts -/

/-- How many letters a character of a string takes in JSON, or a byte that is
in none. -/
def letters : Option Char → Nat
  | none => 6
  | some c =>
    if c ∈ ['"', '\\', '\n', '\r', '\t'] ∨ c.toNat = 8 ∨ c.toNat = 12 then 2
    else if c.toNat < 32 ∨ c ∈ ['<', '>', '&'] ∨ c.toNat = 0x2028 ∨ c.toNat = 0x2029 then 6
    else 1

def bulk (b : Bytes) : Nat := ((runes b).map letters).sum

/-- What a text of lines takes: between two lines stand two quotes and a comma. -/
def textBulk (b : Bytes) : Nat := bulk b + b.count newline

theorem length_writeRune (r : Option Char) : (writeRune r).length = letters r := by
  cases r with
  | none => rfl
  | some c =>
    change (escape c).length = letters (some c)
    by_cases h1 : c = '"' ∨ c = '\\'
    · rcases h1 with rfl | rfl <;> rfl
    by_cases h2 : c.toNat = 8
    · simp [escape, letters, h1, h2]
    by_cases h3 : c.toNat = 12
    · simp [escape, letters, h1, h3]
    by_cases h4 : c = '\n' ∨ c = '\r' ∨ c = '\t'
    · rcases h4 with rfl | rfl | rfl <;> rfl
    rw [not_or] at h1
    simp only [not_or] at h4
    have hplain : ¬ (c ∈ ['"', '\\', '\n', '\r', '\t'] ∨ c.toNat = 8 ∨ c.toNat = 12) := by
      simp [h1, h2, h3, h4]
    unfold escape letters
    simp only
    rw [if_neg (not_or.mpr h1), if_neg h2, if_neg h3, if_neg h4.1, if_neg h4.2.1, if_neg h4.2.2, if_neg hplain]
    simp only [List.mem_cons, List.not_mem_nil, or_false, or_assoc]
    split <;> rfl

theorem weight_eq (b : Bytes) : weight b = bulk b := by
  unfold weight bulk
  simp only [length_writeRune]

theorem bulk_ascii (a rest : Bytes) {x : UInt8} (hx : x.toNat < 128) :
    bulk (a ++ x :: rest) = bulk a + bulk (x :: rest) := by
  unfold bulk
  rw [runes_ascii a rest hx, List.map_append, List.sum_append]

theorem bulk_newline (rest : Bytes) : bulk (newline :: rest) = bulk rest + 2 := by
  have hone : runes (newline :: rest) = some '\n' :: runes rest := runes_encode '\n' rest
  unfold bulk
  rw [hone, List.map_cons, List.sum_cons, Nat.add_comm]
  rfl

theorem bulk_append_newline (a rest : Bytes) : bulk (a ++ newline :: rest) = bulk a + bulk rest + 2 := by
  rw [bulk_ascii a rest (by decide), bulk_newline, Nat.add_assoc]

theorem bulk_utf8_append (s : String) (b : Bytes) : bulk (utf8 s ++ b) = bulk (utf8 s) + bulk b := by
  have hsplit : ∀ cs : List Char, runes (cs.flatMap String.utf8EncodeChar ++ b) = cs.map some ++ runes b := by
    intro cs
    induction cs with
    | nil => rfl
    | cons c cs ih => rw [List.flatMap_cons, List.append_assoc, runes_encode, ih, List.map_cons, List.cons_append]
  unfold bulk
  rw [runes_utf8, utf8, hsplit, List.map_append, List.sum_append]

/-- Lines cost what the text that holds them does. -/
theorem linesCost_intercalate {ls : List Bytes} (hne : ls ≠ []) (hno : ∀ l ∈ ls, newline ∉ l) :
    linesCost ls = textBulk ([newline].intercalate ls) + 2 := by
  induction ls with
  | nil => exact absurd rfl hne
  | cons l ls ih =>
    obtain ⟨hl, hls⟩ := List.forall_mem_cons.mp hno
    have hcount : l.count newline = 0 := List.count_eq_zero.mpr hl
    cases ls with
    | nil =>
      simp only [linesCost, listCost, textBulk, List.map_cons, List.map_nil, List.sum_cons, List.sum_nil,
        List.intercalate_singleton, weight_eq, hcount]
      omega
    | cons m ms =>
      have hrest := ih (List.cons_ne_nil m ms) hls
      rw [List.intercalate_cons_cons]
      simp only [linesCost, listCost, textBulk, List.map_cons, List.sum_cons, List.append_assoc,
        List.singleton_append, bulk_append_newline, List.count_append, List.count_cons_self, weight_eq, hcount] at hrest ⊢
      omega

theorem linesCost_splitLines (b : Bytes) : linesCost (splitLines b) = textBulk b + 2 := by
  have hne : splitLines b ≠ [] := List.splitOn_ne_nil newline b
  have hno : ∀ l ∈ splitLines b, newline ∉ l := not_mem_splitOn newline b
  have := linesCost_intercalate hne hno
  rwa [splitLines, List.intercalate_splitOn] at this

/-- Without the newlines at its end a text takes no more. -/
theorem textBulk_trimNewlines (b : Bytes) : textBulk (trimNewlines b) ≤ textBulk b := by
  have hends : ∀ r : Bytes, textBulk (r.dropWhile fun x => decide (x = newline)).reverse ≤ textBulk r.reverse := by
    intro r
    induction r with
    | nil => exact Nat.le_refl _
    | cons x r ih =>
      by_cases hx : x = newline
      · rw [List.dropWhile_cons_of_pos (by simpa using hx), List.reverse_cons, hx]
        refine ih.trans ?_
        unfold textBulk
        rw [bulk_append_newline, List.count_append]
        omega
      · rw [List.dropWhile_cons_of_neg (by simpa using hx)]
  have := hends b.reverse
  rwa [List.reverse_reverse] at this

/-! ## Errors -/

/-- A text of the handlers that fits; how an error of the system reads, the
server says. -/
def Brief : GoError → Prop
  | .os _ => True
  | .text t => weight (utf8 t) ≤ errorRoom

def Server.Terse (s : Server) : Prop := ∀ e, bulk (s.details.osError e) ≤ errorRoom

variable {α : Type}

theorem fails_ask {f : Disk → Except GoError α} (h : ∀ d er, f d = .error er → Brief er) :
    Proc.Fails Brief (ask f) :=
  fun _ w er her => h w.disk er her

theorem fails_askOs (f : Disk → Except Errno α) : Proc.Fails Brief (askOs f) := by
  refine fails_ask fun d er h => ?_
  cases hf : f d with
  | ok a => rw [hf] at h; cases h
  | error e => rw [hf] at h; cases h; trivial

theorem fails_askEnv (f : Env → Disk → α) : Proc.Fails Brief (askEnv f) := fun _ _ _ h => by cases h

theorem fails_readFile (p : Loc) : Proc.Fails Brief (readFile p) := by
  intro e w er h
  unfold readFile at h
  split at h
  · cases h
    trivial
  · split at h <;> cases h
    trivial

theorem fails_act (f : Luck → Disk → Except Errno (Change α)) : Proc.Fails Brief (act f) := by
  intro e w er h
  unfold act call at h
  simp only at h
  split at h
  · cases h
    trivial
  · cases hf : f (e.luck w.calls) w.disk with
    | ok c => rw [hf] at h; cases h
    | error x => rw [hf] at h; cases h; trivial

theorem brief_text {t : String} (h : 6 * (utf8 t).length ≤ errorRoom) : Brief (.text t) :=
  (weight_le (utf8 t)).trans h

theorem brief_notAbsolute : Brief notAbsolute := brief_text (by decide +kernel)

theorem brief_errDenied : Brief errDenied := brief_text (by decide +kernel)

theorem brief_check {pol : Policy} {d : Disk} {raw : String} {er : GoError} (h : check pol d raw false = .error er) :
    Brief er := by
  unfold check checkPath at h
  split at h
  · split at h
    · rename_i e hres
      unfold resolve at hres
      cases hrev : resolveRev d (clean raw).parts.reverse [] with
      | ok q => rw [hrev] at hres; cases hres
      | error x =>
        rw [hrev] at hres
        cases hres
        cases h
        trivial
    · unfold verdict at h
      simp only [Bool.false_and, Bool.false_eq_true, if_false] at h
      split at h
      · cases h
        exact brief_errDenied
      · split at h
        · cases h
        · split at h <;> cases h
          exact brief_errDenied
  · cases h
    exact brief_notAbsolute

theorem fails_checked (pol : Policy) (raw : String) : Proc.Fails Brief (checked pol raw false) :=
  fails_ask fun _ _ => brief_check

theorem fails_fsRead (pol : Policy) (i : ReadArgs) : Proc.Fails Brief (files.fsRead pol i) := by
  unfold files.fsRead
  refine Proc.fails_bind (fails_checked pol i.path) fun real => Proc.fails_bind (fails_askOs _) fun r => ?_
  split
  · refine Proc.fails_bind (fails_readFile real) fun f => ?_
    split
    · exact Proc.fails_fail (brief_text (by decide +kernel))
    · exact Proc.fails_pure _
  · exact Proc.fails_fail (brief_text (by decide +kernel))

theorem fails_fsTail (pol : Policy) (i : TailArgs) : Proc.Fails Brief (files.fsTail pol i) := by
  unfold files.fsTail
  refine Proc.fails_bind (fails_checked pol i.path) fun real => Proc.fails_bind (fails_askOs _) fun r => ?_
  split
  · exact Proc.fails_bind (fails_readFile real) fun f => Proc.fails_pure _
  · exact Proc.fails_pure _

theorem fails_listDir (pol : Policy) (path : String) : Proc.Fails Brief (listDir pol path) :=
  Proc.fails_bind (fails_checked pol path) fun _ => Proc.fails_bind (fails_askOs _) fun _ => Proc.fails_pure _

theorem fails_mkdirAllRev (mode : Nat) (rev : List Name) : Proc.Fails Brief (mkdirAllRev mode rev) := by
  induction rev with
  | nil => exact Proc.fails_pure ()
  | cons n up ih =>
    unfold mkdirAllRev
    refine Proc.fails_bind (Proc.fails_attempt _) fun r => ?_
    split
    · exact Proc.fails_pure ()
    · exact Proc.fails_fail trivial
    · refine Proc.fails_bind ih fun _ => ?_
      intro e w er h
      rw [Proc.bind_run] at h
      rcases hact : act (fun _ d => mkdir d (up.reverse ++ [n]) ⟨mode, 0, 0⟩) e w with ⟨r, w1⟩
      have hbrief := fails_act (fun _ d => mkdir d (up.reverse ++ [n]) ⟨mode, 0, 0⟩) e w
      rw [hact] at hbrief
      rw [Proc.attempt_run hact] at h
      cases r with
      | ok u => cases h
      | error x =>
        refine Proc.fails_bind (Proc.fails_attempt _) (fun r => ?_) e w1 er h
        split
        · exact Proc.fails_pure ()
        · exact Proc.fails_fail (hbrief x rfl)

theorem fails_removeEach (ps : List Loc) : Proc.Fails Brief (removeEach ps) := by
  induction ps with
  | nil => exact Proc.fails_pure []
  | cons p ps ih =>
    exact Proc.fails_bind (Proc.fails_attempt _) fun r => Proc.fails_bind ih fun rest => Proc.fails_pure _

theorem fails_listBackups (s : Details) (pol : Policy) : Proc.Fails Brief (listBackups s pol) := by
  unfold listBackups ensureBackupDir
  refine Proc.fails_bind (Proc.fails_bind (fails_askEnv _) fun cwd => fails_mkdirAllRev _ _) fun _ => ?_
  refine Proc.fails_bind (fails_askEnv _) fun root => Proc.fails_bind (fails_askEnv _) fun seen => ?_
  refine Proc.fails_bind (fun _ _ _ h => by cases h) fun now => Proc.fails_bind (fails_removeEach _) fun _ => ?_
  exact Proc.fails_bind (fails_askEnv _) fun free => Proc.fails_pure _

theorem Server.Terse.sys {s : Server} (hs : s.Terse) {x : Sys α} (hx : Proc.Fails Brief x) {t : Bytes}
    (h : s.sys x = .error t) : weight t ≤ errorRoom := by
  unfold Server.sys at h
  cases hr : (x s.env s.world).1 with
  | ok a => rw [hr] at h; cases h
  | error er =>
    have hbrief := hx s.env s.world er hr
    rw [hr] at h
    cases h
    cases er with
    | os e => exact (weight_eq _).trans_le (hs e)
    | text t => exact hbrief

/-- What `decode` puts before the error of `json.Unmarshal`. -/
theorem weight_decode (t : Bytes) : weight (utf8 "ورودی نامعتبر: " ++ t) = bulk t + 15 := by
  have hlead : bulk (utf8 "ورودی نامعتبر: ") = 15 := by decide +kernel
  rw [weight_eq, bulk_utf8_append, hlead, Nat.add_comm]

theorem fits_of {P : α → Prop} {x : Except Bytes α} (herr : ∀ t, x = .error t → weight t ≤ errorRoom)
    (hok : ∀ a, x = .ok a → P a) : Fits P x := by
  cases x with
  | error t => exact herr t rfl
  | ok a => exact hok a rfl

/-! ## A directory that is made -/

/-- A directory without entries is at the path. -/
def Bare (d : Disk) (p : Loc) : Prop :=
  ∃ l a, lstat d p = .ok (l, .dir a) ∧ dirAt d p = .ok l ∧ ∀ x, d.get (l ++ [x]) = none

theorem follow_entry {d : Disk} {p m : Loc} {x : Name} {n : Node} (hm : dirAt d p = .ok m) (hx : Ordinary x)
    (hn : d.get (m ++ [x]) = some n) (hlink : n.isLink = false) : follow d (p ++ [x]) = .ok (m ++ [x]) := by
  have hdir := (dirAt_ok hm).1
  have hfollow : follow d p = .ok m := by
    unfold dirAt at hm
    split at hm
    · split at hm <;> cases hm
      assumption
    · cases hm
  obtain ⟨j, hj⟩ := walk_append hdir hfollow
  have hproper : Proper ([] ++ [x]) := by
    intro y hy
    rw [List.nil_append, List.mem_singleton] at hy
    exact hy ▸ hx
  have hlast := @walk_there d m j [] x hproper (by simpa using hdir) (Or.inr ⟨n, by simpa using hn, hlink⟩)
  change walk d false 40 [] (p ++ [x]) = _
  rw [hj [x]]
  simpa using hlast

/-- What `os.Lstat` finds, and is no link, `os.Stat` finds too. -/
theorem stat_of_lstat {d : Disk} {p l : Loc} {n : Node} (h : lstat d p = .ok (l, n)) (hlink : n.isLink = false) :
    stat d p = .ok (l, n) := by
  unfold lstat at h
  by_cases hp : p = []
  · subst hp
    exact h
  · rw [if_neg hp] at h
    cases he : entryAt d p with
    | error er => rw [he] at h; cases h
    | ok q =>
      rw [he] at h
      simp only at h
      split at h <;> cases h
      rename_i hlook
      obtain ⟨hne, hproper, -, -, hdir⟩ := entryAt_ok he
      obtain ⟨p, x, rfl⟩ := dropLast_append_getLast hp
      obtain ⟨m, rfl, hm⟩ := entryAt_concat he
      rw [Disk.look, if_neg hne] at hlook
      have hx : Ordinary x := hproper x (by simp)
      exact stat_run (follow_entry hm hx hlook hlink) (by rw [Disk.look, if_neg hne, hlook])

theorem bare_mkdir {d : Disk} {p : Loc} {a : Attr} {c : Change Unit} (h : mkdir d p a = .ok c) :
    ∃ δ, c.deed = some δ ∧ Bare (δ.apply d) p := by
  obtain ⟨l, he, hnone, hdeed⟩ := mkdir_ok h
  obtain ⟨hne, hproper, -, hpne, -⟩ := entryAt_ok he
  obtain ⟨p, x, rfl⟩ := dropLast_append_getLast hpne
  obtain ⟨m, rfl, hm⟩ := entryAt_concat he
  have hgrow : Grows d (d.put (m ++ [x]) (.dir a)) := grows_put fun n hn => by rw [hnone] at hn; cases hn
  have hself : (d.put (m ++ [x]) (.dir a)).get (m ++ [x]) = some (.dir a) := Disk.get_put_self (fits_new he hnone)
  have hfollow := follow_entry (dirAt_grow hgrow hm) (hproper x (by simp)) hself rfl
  have hentry := entryAt_grow hgrow he
  refine ⟨_, hdeed, m ++ [x], a, ?_, ?_, fun y => ?_⟩
  · change lstat (d.put (m ++ [x]) (.dir a)) (p ++ [x]) = _
    unfold lstat
    rw [if_neg hpne, hentry]
    simp [Disk.look, hself]
  · change dirAt (d.put (m ++ [x]) (.dir a)) (p ++ [x]) = _
    unfold dirAt
    rw [hfollow]
    exact if_pos (Or.inr ⟨a, hself⟩)
  · change (d.put (m ++ [x]) (.dir a)).get (m ++ [x] ++ [y]) = none
    rw [Disk.get_put_ne (by simp)]
    by_contra hthere
    exact Disk.free_above hne hnone (Option.isSome_iff_ne_none.mpr hthere) (List.prefix_append _ _)

variable {e : Env} {w w' : World}

/-- A call that ends well makes its change, and one that fails makes none. -/
theorem triple_act_run (f : Luck → Disk → Except Errno (Change α)) :
    Proc.Triple e (· = w) (act f) (fun a v => ∃ c, f (e.luck w.calls) w.disk = .ok c ∧ a = c.value ∧ v = w.did c.deed)
      fun v => v.disk = w.disk := by
  refine triple_actAt ?_ ?_
  · rintro _ c rfl hc
    exact ⟨c, hc, rfl, rfl⟩
  · rintro _ rfl
    rfl

/-- `os.MkdirAll` leaves the disk as it was, or a new directory at the path. -/
theorem mkdirAllRev_made {mode : Nat} {rev : List Name} (h : mkdirAllRev mode rev e w = (.ok (), w')) :
    w'.disk = w.disk ∨ Bare w'.disk rev.reverse := by
  induction rev generalizing w' with
  | nil =>
    cases h
    exact .inl rfl
  | cons n up ih =>
    rw [List.reverse_cons]
    unfold mkdirAllRev at h
    rw [Proc.bind_run_ok askOs_attempt] at h
    cases hstat : stat w.disk (up.reverse ++ [n]) with
    | ok ln =>
      obtain ⟨l, m⟩ := ln
      rw [hstat] at h
      cases m <;> cases h
      exact .inl rfl
    | error er =>
      rw [hstat] at h
      obtain ⟨_, w1, hup, h⟩ := Proc.bind_run_inv h
      rcases hact : act (fun _ d => mkdir d (up.reverse ++ [n]) ⟨mode, 0, 0⟩) e w1 with ⟨r, w2⟩
      rw [Proc.bind_run_ok (Proc.attempt_run hact)] at h
      cases r with
      | ok u =>
        cases h
        obtain ⟨c, hc, -, rfl⟩ := (triple_act_run _).ok rfl hact
        obtain ⟨δ, hdeed, hbare⟩ := bare_mkdir hc
        rw [hdeed]
        exact .inr hbare
      | error x =>
        -- A directory that is there all the same: it was there before.
        exfalso
        dsimp only at h
        rw [Proc.bind_run_ok askOs_attempt] at h
        have hkept : w2.disk = w1.disk := by
          have := triple_act_run (e := e) (fun _ d => mkdir d (up.reverse ++ [n]) ⟨mode, 0, 0⟩) w1 rfl
          rwa [hact] at this
        rw [hkept] at h
        cases hl : lstat w1.disk (up.reverse ++ [n]) with
        | error y => rw [hl] at h; cases h
        | ok ln =>
          obtain ⟨l, m⟩ := ln
          rw [hl] at h
          cases m with
          | dir a =>
            rcases ih hup with hsame | ⟨q, b, -, hq, hempty⟩
            · rw [hsame] at hl
              rw [stat_of_lstat hl rfl] at hstat
              cases hstat
            · unfold lstat at hl
              rw [if_neg (by simp)] at hl
              cases he : entryAt w1.disk (up.reverse ++ [n]) with
              | error y => rw [he] at hl; cases hl
              | ok v =>
                obtain ⟨k, rfl, hk⟩ := entryAt_concat he
                rw [hq] at hk
                cases hk
                rw [he] at hl
                simp [Disk.look, hempty] at hl
          | _ => cases h

/-- A walk of an empty directory shows itself. -/
theorem walkTree_bare {d : Disk} {p : Loc} {blocked : Access → Loc → Bool} {prune : Loc → Bool} (h : Bare d p) :
    ∀ x ∈ walkTree blocked prune d p, x.2.isDir = true := by
  obtain ⟨l, a, hl, hdir, hempty⟩ := h
  have hnone : d.names l = [] := by
    refine List.eq_nil_iff_forall_not_mem.mpr fun x hx => ?_
    rw [Disk.mem_names, hempty] at hx
    cases hx
  have hnames : sortedNames d l = [] := by
    rw [sortedNames, hnone]
    rfl
  intro x hx
  unfold walkTree at hx
  rw [hl] at hx
  simp only at hx
  split at hx
  · cases hx
  · generalize depth d = k at hx
    cases k with
    | zero => cases hx
    | succ k =>
      unfold walkFrom at hx
      split at hx
      · cases hx
      · simp only [Node.isDir, if_true, hdir, hnames, List.flatMap_nil] at hx
        split at hx
        · cases hx
        · rw [List.mem_singleton.mp hx]
          rfl

/-! ## What a server holds -/

/-- The arguments can be read, or the text that says why not is short. -/
def Given (P : α → Prop) : Except Bytes α → Prop
  | .error t => bulk t + 15 ≤ errorRoom
  | .ok i => P i

/-- A field that is left out when it is empty. -/
def optionalBulk (b : Bytes) : Nat := if b = [] then 0 else bulk b + 10

/-- What an entry of a directory takes at most: its name, its owner, where it
points to, and the rest. -/
def entryBulk (s : Details) (dir : Loc) (x : Name × Node) : Nat :=
  let p := dir ++ [x.1]
  let whose := match x.2 with
    | .link _ => bulk (s.owner (s.linkUid p)) + optionalBulk (s.readlink p)
    | m => bulk (s.owner (attrOf m).uid)
  bulk (s.name x.1) + whose + 111

/-- The directory of a list: its first 5000 entries and its path. For the top
level, the paths of the policy. -/
def Server.LightDir (s : Server) (path : String) : Prop :=
  if path = "" ∨ path = "/" then
    ((s.pol.roots.map (CleanPath.mk true) ++ [s.pol.backupDir] ++ s.pol.readOnly.map (CleanPath.mk true)).map
      fun p => bulk (pathText s.details p) + 71).sum + 42 ≤ room
  else
    s.Terse ∧ ∀ real l, check s.pol s.world.disk path false = .ok real → dirAt s.world.disk real = .ok l →
      (((entriesAt s.world.disk l).take 5000).map (entryBulk s.details real)).sum +
        bulk (pathText s.details ⟨true, real⟩) + 59 ≤ room

/-- How many lines a request asks for. -/
def tailCount (i : TailArgs) : Nat := if i.lines ≤ 0 ∨ i.lines > 5000 then 300 else i.lines.toNat

/-- The file of a tail: as many of its lines as are asked for, one after the
other, among those that hold the text. -/
def Server.LightLog (s : Server) (i : TailArgs) : Prop :=
  s.Terse ∧ ∀ real l f, check s.pol s.world.disk i.path false = .ok real → stat s.world.disk real = .ok (l, .file f) →
    ∀ xs, xs <:+: tails.matching f.content i.grep → xs.length ≤ tailCount i →
      (xs.map fun x => bulk x.text + 3).sum + 40 ≤ room

def Ended.Brief : Ended → Prop
  | .well => True
  | .exited _ err | .failed err => bulk err ≤ errorRoom

/-- The journal of a service: the first mebibyte of what the command writes. -/
def Server.LightJournal (s : Server) (i : LogArgs) : Prop :=
  handlers.unitName i.name = true → handlers.serviceAllowed s.services i.name = true →
    let x := s.exec ["journalctl", "-u", i.name ++ ".service", "-n", toString (logLines i.lines),
      "--no-pager", "-o", "short-iso"]
    textBulk (x.writes.flatten.take (2 ^ 20)) + 14 ≤ room ∧ x.ended.Brief

/-- The bytes start with the header of a frame. -/
def Headed (b : Bytes) : Prop := 8 ≤ b.length ∧ ∃ kind rest, b = kind :: 0 :: 0 :: 0 :: rest ∧ (kind = 1 ∨ kind = 2)

/-- What the log of a container holds: what its frames do, if it is made of frames. -/
inductive Holds (b : Bytes) : Bytes → Prop
  | plain (h : ¬ Headed b) : Holds b b
  | framed {text : Bytes} (h : Headed b) (run : frames.Demuxed b text) : Holds b text

/-- The log of a container: the first four mebibytes of what Docker answers. -/
def Server.LightContainer (s : Server) (i : LogArgs) : Prop :=
  containerRef i.name = true → ∀ get, s.docker = some get →
    match get ("http://docker/containers/" ++ i.name ++ "/logs?stdout=1&stderr=1&timestamps=1&tail=" ++
      toString (logLines i.lines)) with
    | .error t => bulk t ≤ errorRoom
    | .ok (status, body) =>
      if status ≠ 200 then bulk (trimSpace (body.take (4 * 2 ^ 20))) + 8 ≤ errorRoom
      else ∀ text, Holds (body.take (4 * 2 ^ 20)) text → textBulk text + 14 ≤ room

/-- What a file below the directory of the backups takes at most. -/
def backupBulk (s : Details) (dir : CleanPath) (root : Loc) (x : Loc × Node) : Nat :=
  match x.2 with
  | .file _ =>
    let rel := x.1.drop root.length
    let name := x.1.getLast?.getD ""
    if hasPrefix name uploadPrefix then 0
    else bulk (pathText s ⟨dir.abs, dir.parts ++ rel⟩) + bulk (s.name name) + optionalBulk (sourceOf s rel) + 79
  | _ => 0

/-- The files below the directory of the backups. -/
def Server.LightBackups (s : Server) : Prop :=
  let root := place s.env.cwd s.pol.backupDir
  s.Terse ∧ ((walkTree s.env.blocked (fun _ => false) s.world.disk root).map
    (backupBulk s.details s.pol.backupDir root)).sum + bulk (pathText s.details s.pol.backupDir) + 51 ≤ room

/-- What the server holds for a request is light enough. A chunk of a file and
the output of the console always are. -/
def Server.Light (s : Server) : Query → Prop
  | .fsRead args => Given (fun _ => s.Terse) args
  | .fsList args => Given s.LightDir args
  | .fsTail args => Given s.LightLog args
  | .svcLogs args => Given s.LightJournal args
  | .dockerLogs args => Given s.LightContainer args
  | .execRun args => s.console = true → Given (fun _ => True) args
  | .backupList => s.LightBackups

/-- An agent that is busy, or only monitors, touches no server. -/
def Agent.Light (a : Agent) (q : Query) : Prop := a.free = true → ∀ s, a.runner = some s → s.Light q

/-! ## What is light fits -/

variable {β : Type} {s : Server} {cost : α → Nat} {xs : List α}

theorem Given.fits {P : α → Prop} {Q : β → Prop} {args : Except Bytes α} {k : α → Except Bytes β}
    (h : Given P args) (hk : ∀ i, P i → Fits Q (k i)) : Fits Q (decode args >>= k) := by
  cases args with
  | error t =>
    change weight (utf8 "ورودی نامعتبر: " ++ t) ≤ errorRoom
    rw [weight_decode]
    exact h
  | ok i => exact hk i h

theorem fits_sys (hs : s.Terse) {x : Sys α} {P : α → Prop} (hx : Proc.Fails Brief x)
    (hok : ∀ a w', x s.env s.world = (.ok a, w') → P a) : Fits P (s.sys x) := by
  refine fits_of (fun t ht => hs.sys hx ht) fun a ha => ?_
  unfold Server.sys at ha
  rcases hr : x s.env s.world with ⟨er | b, w'⟩
  · rw [hr] at ha
    cases ha
  · rw [hr] at ha
    cases ha
    exact hok a w' hr

theorem sliceCost_le (xs : List α) : sliceCost cost xs ≤ (xs.map fun x => cost x + 1).sum + 4 := by
  unfold sliceCost listCost
  split <;> omega

theorem flagCost_le (b : Bool) : flagCost b ≤ 5 := by
  unfold flagCost
  split <;> decide

theorem optionalCost_eq (b : Bytes) : optionalCost b = optionalBulk b := by
  unfold optionalCost optionalBulk
  rw [weight_eq]

theorem fsTail_ok {pol : Policy} {i : TailArgs} {lines : List Bytes} {n : Nat}
    (h : files.fsTail pol i e w = (.ok (lines, n), w')) :
    lines = [] ∨ ∃ real l f, check pol w.disk i.path false = .ok real ∧ stat w.disk real = .ok (l, .file f) ∧
      lines = tailLines f.content (tailCount i) i.grep := by
  unfold files.fsTail at h
  obtain ⟨real, w1, hcheck, h⟩ := Proc.bind_run_inv h
  obtain ⟨hreal, rfl⟩ : check pol w.disk i.path false = .ok real ∧ w = w1 := by
    simpa [checked, ask] using hcheck
  obtain ⟨⟨l, m⟩, w2, hstat, h⟩ := Proc.bind_run_inv h
  obtain rfl : w = w2 := congrArg Prod.snd hstat
  cases m with
  | file f =>
    obtain ⟨g, w3, hread, h⟩ := Proc.bind_run_inv h
    cases h
    right
    unfold readFile at hread
    split at hread
    · cases hread
    · rename_i q g' hopen
      split at hread <;> cases hread
      obtain ⟨hfollow, hget⟩ := openFile_ok hopen
      refine ⟨real, q, g, hreal, stat_run hfollow ?_, rfl⟩
      rw [Disk.look, if_neg (Disk.get_ne_nil hget), hget]
  | _ =>
    cases h
    exact .inl rfl

theorem tail_light {i : TailArgs} (h : s.LightLog i) {r : List Bytes × Nat}
    (hr : files.fsTail s.pol i s.env s.world = (.ok r, w')) : linesCost r.1 + 40 ≤ room := by
  obtain ⟨lines, n⟩ := r
  rcases fsTail_ok hr with rfl | ⟨real, l, f, hcheck, hstat, rfl⟩
  · change linesCost [] + 40 ≤ room
    decide
  · obtain ⟨ys, hsplit⟩ := tails.matching_split f.content i.grep
    have hstretch : buffers.newest (tailCount i) ((tails.matching f.content i.grep).filter
        fun x => decide (tails.Reached f.content x)) <:+: tails.matching f.content i.grep := by
      refine (List.drop_suffix _ _).isInfix.trans ⟨ys, _, hsplit.symm⟩
    have hlen : (buffers.newest (tailCount i) ((tails.matching f.content i.grep).filter
        fun x => decide (tails.Reached f.content x))).length ≤ tailCount i := by
      unfold buffers.newest
      rw [List.length_drop]
      omega
    have hlight := h.2 real l f hcheck hstat _ hstretch hlen
    rw [tails.tailLines_eq]
    unfold linesCost listCost
    rw [List.map_map]
    simp only [weight_eq, Function.comp_def, Nat.add_assoc, Nat.reduceAdd]
    omega

theorem entry_cost (s : Details) (d : Disk) (dir : Loc) (x : Name × Node) :
    (entryOf s d dir x).cost + 1 ≤ entryBulk s dir x := by
  obtain ⟨n, m⟩ := x
  have h1 := digits_le (entryOf s d dir (n, m)).size
  have h2 := digits_le (entryOf s d dir (n, m)).mtime
  have htype : ∀ t : EntryType, t.text.toList.length ≤ 7 := by
    intro t
    cases t <;> decide
  have h3 := htype (entryOf s d dir (n, m)).type
  unfold Entry.cost entryBulk
  rw [optionalCost_eq, weight_eq, weight_eq]
  cases m with
  | link t =>
    simp only [entryOf] at h1 h2 h3 ⊢
    omega
  | _ =>
    simp only [entryOf, optionalBulk, if_true] at h1 h2 h3 ⊢
    omega

theorem listDir_ok {pol : Policy} {path : String} {r : ListReply} (h : listDir pol path e w = (.ok r, w')) :
    ∃ l, check pol w.disk path false = .ok r.path ∧ dirAt w.disk r.path = .ok l ∧
      r.entries = (entriesAt w.disk l).take 5000 := by
  obtain ⟨real, w1, hcheck, h⟩ := Proc.bind_run_inv h
  obtain ⟨hreal, rfl⟩ : check pol w.disk path false = .ok real ∧ w = w1 := by
    simpa [checked, ask] using hcheck
  obtain ⟨items, w2, hitems, h⟩ := Proc.bind_run_inv h
  cases h
  have hlist : ((dirAt w.disk real).map (entriesAt w.disk)).mapError GoError.os = .ok items := congrArg Prod.fst hitems
  cases hl : dirAt w.disk real with
  | error x => rw [hl] at hlist; cases hlist
  | ok l =>
    rw [hl] at hlist
    cases hlist
    exact ⟨l, hreal, rfl, rfl⟩

theorem sum_filterMap_le {g : α → Option β} {f : β → Nat} {bound : α → Nat}
    (h : ∀ a b, g a = some b → f b ≤ bound a) (xs : List α) : ((xs.filterMap g).map f).sum ≤ (xs.map bound).sum := by
  induction xs with
  | nil => exact Nat.le_refl 0
  | cons x xs ih =>
    rw [List.map_cons, List.sum_cons]
    cases hx : g x with
    | none =>
      rw [List.filterMap_cons_none hx]
      exact Nat.le_add_left_of_le ih
    | some b =>
      rw [List.filterMap_cons_some hx, List.map_cons, List.sum_cons]
      exact Nat.add_le_add (h x b hx) ih

theorem root_cost {p : CleanPath} {r : TopEntry} (h : s.root p = some r) :
    r.cost + 1 ≤ bulk (pathText s.details p) + 71 := by
  have hname : r.name = pathText s.details p := by
    unfold Server.root at h
    simp only at h
    split at h <;> cases h <;> rfl
  have h1 := digits_le r.mtime
  have h2 := flagCost_le r.readonly
  unfold TopEntry.cost
  rw [weight_eq, hname]
  omega

theorem listing_light {path : String} (h : s.LightDir path) :
    Fits (fun l => l.cost ≤ room) (s.listing (.ok path)) := by
  unfold Server.LightDir at h
  by_cases hp : path = "" ∨ path = "/"
  · have hlist : s.listing (.ok path) = .ok (.top s.roots) := if_pos hp
    rw [if_pos hp] at h
    rw [hlist]
    have hroots := sum_filterMap_le (fun p r => @root_cost s p r) (s.pol.roots.map (CleanPath.mk true) ++
      [s.pol.backupDir] ++ s.pol.readOnly.map (CleanPath.mk true))
    have hslice : sliceCost TopEntry.cost s.roots ≤ _ := sliceCost_le s.roots
    change sliceCost TopEntry.cost s.roots + 38 ≤ room
    unfold Server.roots at hslice ⊢
    omega
  · rw [if_neg hp] at h
    have hlist : s.listing (.ok path) = (s.sys (listDir s.pol path)).map fun r =>
        .dir (pathText s.details ⟨true, r.path⟩) (r.entries.map (entryOf s.details s.world.disk r.path))
          (readOnly s.pol s.world.disk ⟨true, r.path⟩) r.truncated := if_neg hp
    have hsys := fits_sys (P := fun r => (Listing.dir (pathText s.details ⟨true, r.path⟩)
        (r.entries.map (entryOf s.details s.world.disk r.path))
          (readOnly s.pol s.world.disk ⟨true, r.path⟩) r.truncated).cost ≤ room) h.1 (fails_listDir s.pol path) ?_
    · rw [hlist]
      cases hr : s.sys (listDir s.pol path) <;> rw [hr] at hsys <;> exact hsys
    · intro r w' hrun
      obtain ⟨l, hcheck, hdir, hentries⟩ := listDir_ok hrun
      have hlight := h.2 r.path l hcheck hdir
      have hsum : ((r.entries.map (entryOf s.details s.world.disk r.path)).map fun x => x.cost + 1).sum ≤
          (r.entries.map (entryBulk s.details r.path)).sum := by
        rw [List.map_map]
        exact List.sum_le_sum fun x _ => entry_cost s.details s.world.disk r.path x
      have h1 := flagCost_le (readOnly s.pol s.world.disk ⟨true, r.path⟩)
      have h2 := flagCost_le r.truncated
      rw [hentries] at hsum
      rw [hentries]
      change listCost Entry.cost _ + weight _ + flagCost _ + flagCost _ + 49 ≤ room
      unfold listCost
      rw [weight_eq]
      omega

/-- A `limited` writer keeps the first bytes. -/
theorem limited_eq (n : Nat) (ps : List Bytes) : limited n ps = ps.flatten.take n := by
  induction ps generalizing n with
  | nil => simp [limited]
  | cons p ps ih => rw [limited, ih, List.flatten_cons, List.take_append]

theorem fits_text {β : Type} {P : β → Prop} {t : String} (h : Brief (.text t)) :
    Fits P (.error (utf8 t) : Except Bytes β) := h

theorem fits_lines {b : Bytes} (h : textBulk b + 14 ≤ room) :
    linesCost (splitLines (trimNewlines b)) + 12 ≤ room := by
  have := textBulk_trimNewlines b
  rw [linesCost_splitLines]
  omega

theorem run_output (timeout : String) (x : Ran) :
    (run timeout x).1 = trimNewlines (x.writes.flatten.take (2 ^ 20)) := by
  unfold run handlers.outcome
  rw [limited_eq]
  split <;> rfl

/-- The error of a command that printed nothing. -/
theorem run_error {timeout : String} {x : Ran} {t : Bytes} (h : (run timeout x).2 = some t) (hout : (run timeout x).1 = []) :
    t = utf8 ("زمان اجرا تمام شد (" ++ timeout ++ ")") ∨ x.ended = .failed t ∨ ∃ code, x.ended = .exited code t := by
  rw [run_output, ← limited_eq] at hout
  unfold run handlers.outcome at h
  simp only [hout, if_true] at h
  split at h
  · cases h
    exact .inl rfl
  · cases hend : x.ended <;> rw [hend] at h <;> cases h
    · exact .inr (.inr ⟨_, rfl⟩)
    · exact .inr (.inl rfl)

theorem Ended.Brief.weight {x : Ended} {t : Bytes} (h : x.Brief) (ht : x = .failed t ∨ ∃ code, x = .exited code t) :
    weight t ≤ errorRoom := by
  rw [weight_eq]
  rcases ht with rfl | ⟨code, rfl⟩ <;> exact h

theorem journal_light {args : Except Bytes LogArgs} (h : Given s.LightJournal args) :
    Fits (fun lines => linesCost lines + 12 ≤ room) (s.journal args) := by
  refine h.fits fun i hi => ?_
  unfold Server.LightJournal at hi
  cases hname : handlers.unitName i.name with
  | false => exact fits_text (brief_text (by decide +kernel))
  | true =>
    cases hallowed : handlers.serviceAllowed s.services i.name with
    | false => exact fits_text (brief_text (by decide +kernel))
    | true =>
      obtain ⟨hout, hended⟩ := hi hname hallowed
      generalize s.exec ["journalctl", "-u", i.name ++ ".service", "-n", toString (logLines i.lines),
        "--no-pager", "-o", "short-iso"] = x at hout hended ⊢
      have hlines := fits_lines hout
      have htext := run_output "20s" x
      have herror := @run_error "20s" x
      generalize run "20s" x = r at htext herror ⊢
      obtain ⟨out, err⟩ := r
      change out = _ at htext
      rw [← htext] at hlines
      cases err with
      | none => exact hlines
      | some t =>
        change Fits _ (if out = [] then throw t else return splitLines out)
        split
        · rcases herror rfl ‹_› with rfl | hended'
          · exact fits_text (brief_text (by decide +kernel))
          · exact hended.weight hended'
        · exact hlines

theorem holds_demux (b : Bytes) : Holds b (demux b) := by
  by_cases hb : Headed b
  · obtain ⟨hlen, kind, rest, rfl, hkind⟩ := hb
    have hloop : demux (kind :: 0 :: 0 :: 0 :: rest) =
        demuxFrames (kind :: 0 :: 0 :: 0 :: rest).length (kind :: 0 :: 0 :: 0 :: rest) := by
      refine if_neg ?_
      rintro (h | ⟨h1, h2⟩)
      · omega
      · exact hkind.elim h1 h2
    rw [hloop]
    exact .framed ⟨hlen, kind, rest, rfl, hkind⟩ (frames.demuxed _ _ (Nat.le_refl _))
  · have hplain : demux b = b := by
      unfold demux
      split
      · rename_i kind rest
        refine if_pos ?_
        by_contra hnot
        rw [not_or, Nat.not_lt, not_and_or, not_not, not_not] at hnot
        exact hb ⟨hnot.1, kind, rest, rfl, hnot.2⟩
      · rfl
    rw [hplain]
    exact .plain hb

theorem container_light {args : Except Bytes LogArgs} (h : Given s.LightContainer args) :
    Fits (fun lines => linesCost lines + 12 ≤ room) (s.containerLog args) := by
  refine h.fits fun i hi => ?_
  unfold Server.LightContainer at hi
  cases hname : containerRef i.name with
  | false => exact fits_text (brief_text (by decide +kernel))
  | true =>
    cases hdocker : s.docker with
    | none => exact fits_text (brief_text (by decide +kernel))
    | some get =>
      have hget := hi hname get hdocker
      simp only
      generalize get _ = answer at hget ⊢
      cases answer with
      | error t => exact (weight_eq t).trans_le hget
      | ok answer =>
        obtain ⟨status, body⟩ := answer
        change Fits _ (if status ≠ 200 then throw (utf8 "docker: " ++ trimSpace (body.take (4 * 2 ^ 20)))
          else return splitLines (trimNewlines (demux (body.take (4 * 2 ^ 20)))))
        simp only at hget
        split at hget
        · rw [if_pos ‹_›]
          have hlead : bulk (utf8 "docker: ") = 8 := by decide +kernel
          change weight (utf8 "docker: " ++ trimSpace _) ≤ errorRoom
          rw [weight_eq, bulk_utf8_append, hlead, Nat.add_comm]
          exact hget
        · rw [if_neg ‹_›]
          exact fits_lines (hget _ (holds_demux _))

theorem backup_cost {s : Details} {dir : CleanPath} {root : Loc} {x : Loc × Node} {f : BackupFile}
    (h : backupFile s dir root x = some f) : f.cost + 1 ≤ backupBulk s dir root x := by
  have h1 := digits_le f.size
  have h2 := digits_le f.mtime
  obtain ⟨q, n⟩ := x
  cases n with
  | file g =>
    unfold backupFile at h
    simp only at h
    split at h
    · cases h
    · cases h
      unfold BackupFile.cost backupBulk
      rw [optionalCost_eq, weight_eq, weight_eq]
      simp only at h1 h2 ⊢
      rw [if_neg ‹_›]
      omega
  | _ => cases h

theorem listBackups_ok {s : Details} {pol : Policy} {b : Backups} (h : listBackups s pol e w = (.ok b, w')) :
    ∃ w1 : World, (w1.disk = w.disk ∨ Bare w1.disk (place e.cwd pol.backupDir)) ∧ b.dir = pathText s pol.backupDir ∧
      b.files = (walkTree e.blocked (fun _ => false) w1.disk (place e.cwd pol.backupDir)).filterMap
        (backupFile s pol.backupDir (place e.cwd pol.backupDir)) := by
  obtain ⟨_, w1, hmade, h⟩ := Proc.bind_run_inv h
  obtain ⟨root, _, hroot, h⟩ := Proc.bind_run_inv h
  cases hroot
  obtain ⟨seen, _, hseen, h⟩ := Proc.bind_run_inv h
  cases hseen
  obtain ⟨now, _, hnow, h⟩ := Proc.bind_run_inv h
  cases hnow
  obtain ⟨_, w2, hremoved, h⟩ := Proc.bind_run_inv h
  obtain ⟨free, _, hfree, h⟩ := Proc.bind_run_inv h
  cases hfree
  cases h
  obtain ⟨cwd, _, hcwd, hmade⟩ := Proc.bind_run_inv hmade
  cases hcwd
  have := mkdirAllRev_made hmade
  rw [List.reverse_reverse] at this
  exact ⟨w1, this, rfl, rfl⟩

theorem backups_light (h : s.LightBackups) : Fits (fun b => b.cost ≤ room) s.backups := by
  refine fits_sys h.1 (fails_listBackups s.details s.pol) fun b w' hrun => ?_
  obtain ⟨w1, hdisk, hdir, hfiles⟩ := listBackups_ok hrun
  have hlight := h.2
  generalize place s.env.cwd s.pol.backupDir = root at hdisk hfiles hlight
  have hsum : (b.files.map fun f => f.cost + 1).sum ≤
      ((walkTree s.env.blocked (fun _ => false) s.world.disk root).map (backupBulk s.details s.pol.backupDir root)).sum := by
    rw [hfiles]
    rcases hdisk with hsame | hbare
    · rw [← hsame]
      exact sum_filterMap_le (fun x f => @backup_cost s.details s.pol.backupDir root x f) _
    · have hnone : (walkTree s.env.blocked (fun _ => false) w1.disk root).filterMap
          (backupFile s.details s.pol.backupDir root) = [] := by
        refine List.filterMap_eq_nil_iff.mpr fun x hx => ?_
        have hisdir := walkTree_bare hbare x hx
        unfold backupFile
        cases hx2 : x.2 with
        | file f => rw [hx2] at hisdir; cases hisdir
        | _ => rfl
      rw [hnone]
      exact Nat.zero_le _
  have h1 := digits_le b.free
  have h2 : sliceCost BackupFile.cost b.files ≤ _ := sliceCost_le b.files
  unfold Backups.cost
  rw [weight_eq, hdir]
  omega

/-- What the server holds for a request is light: its answer fits. -/
theorem light_fits_server {q : Query} (h : s.Light q) : s.Fits q := by
  cases q with
  | fsRead args => exact Given.fits h fun i hs => fits_sys hs (fails_fsRead s.pol i) fun _ _ _ => trivial
  | fsList args => exact Given.fits (k := fun path => s.listing (.ok path)) h fun path hp => listing_light hp
  | fsTail args =>
    refine Given.fits h fun i hi => ?_
    have hsys := fits_sys (P := fun r => linesCost r.1 + 40 ≤ room) hi.1 (fails_fsTail s.pol i) fun r w' hr =>
      tail_light hi hr
    have hdigits := digits_le (s.tailSize i)
    cases hr : s.sys (files.fsTail s.pol i) with
    | error t => rw [hr] at hsys; exact hsys
    | ok r =>
      rw [hr] at hsys
      change linesCost r.1 + 40 ≤ room at hsys
      change linesCost r.1 + digits (s.tailSize i) + 20 ≤ room
      omega
  | svcLogs args => exact journal_light h
  | dockerLogs args => exact container_light h
  | execRun args =>
    change Fits (fun _ => True) (s.printed args)
    unfold Server.printed
    cases hconsole : s.console with
    | false => exact fits_text (brief_text (by decide +kernel))
    | true =>
      refine Given.fits (h hconsole) fun i _ => ?_
      by_cases hcmd : policy.trimSpace i.cmd = ""
      · simp only [hcmd, if_true]
        exact fits_text (brief_text (by decide +kernel))
      · simp only [hcmd, if_false]
        trivial
  | backupList => exact backups_light h

/-- A file whose lines are light together has light stretches only. -/
theorem lightLog_whole {i : TailArgs} (hs : s.Terse)
    (h : ∀ real l f, check s.pol s.world.disk i.path false = .ok real → stat s.world.disk real = .ok (l, .file f) →
      ((tails.matching f.content i.grep).map fun x => bulk x.text + 3).sum + 40 ≤ room) : s.LightLog i := by
  refine ⟨hs, fun real l f hcheck hstat xs hxs _ => ?_⟩
  have hle := (hxs.sublist.map fun x => bulk x.text + 3).sum_le_sum fun _ _ => Nat.zero_le _
  have := h real l f hcheck hstat
  omega

/-- The log with the lines `ok` and `<b>`. -/
def shortFile : FileData := ⟨[111, 107, 10, 60, 98, 62, 10], 0, ⟨0o644, 0, 0⟩, false⟩

def shortServer : Server :=
  { logServer with world := .start (logDirs.put ["var", "log", "app.log"] (.file shortFile)) }

end icsd_panel.answers

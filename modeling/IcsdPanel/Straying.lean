-- The requests that go past the place that was checked: when its condition
-- does not hold, a request changes something outside the writable roots. One
-- bad change is enough, as no later step takes it back.
import IcsdPanel.Calm
import IcsdPanel.Confinement
import Mathlib.Data.Finset.Preimage
import Mathlib.Data.Fintype.EquivFin

open effects

namespace icsd_panel.confinement

open paths disk machine policy files archives requests deeds

variable {c : Codec} {pol : Policy} {d : Disk} {e : Env} {w w1 : World} {P : World → Prop} {n : Nat}
  {α β : Type}

/-! ## What lasts -/

/-- A property of the past: no further change and no further read ends it. -/
structure Lasting (P : World → Prop) : Prop where
  did : ∀ w δ, P w → P (w.did δ)
  reads : ∀ w ls, P w → P { w with reads := ls }

theorem Lasting.ask (f : Disk → Except GoError α) : Proc.Keeps e P (machine.ask f) :=
  triple_ask (fun _ _ hw _ => hw) fun _ hw => hw

theorem Lasting.askOs (f : Disk → Except Errno α) : Proc.Keeps e P (machine.askOs f) :=
  triple_askOs (fun _ _ hw _ => hw) fun _ hw => hw

theorem Lasting.act (h : Lasting P) (f : Luck → Disk → Except Errno (Change α)) :
    Proc.Keeps e P (machine.act f) :=
  triple_act (fun _ w c hw _ => h.did w c.deed hw) fun w hw => h.did w none hw

theorem Lasting.attempt {x : Sys α} (h : Proc.Keeps e P x) : Proc.Keeps e P x.attempt :=
  triple_attempt_fine h

theorem Lasting.orElseFirst {x : Sys α} {y : Sys β} (hx : Proc.Keeps e P x) (hy : Proc.Keeps e P y) :
    Proc.Keeps e P (x.orElseFirst y) :=
  Proc.triple_orElseFirst hx hy

theorem Lasting.readFile (h : Lasting P) (p : Loc) : Proc.Keeps e P (machine.readFile p) :=
  triple_readFile (fun w l _ hw _ => h.reads w (l :: w.reads) hw) fun _ hw => hw

theorem Lasting.writeAt (h : Lasting P) (l : Loc) (off : Int) (data : Bytes) :
    Proc.Keeps e P (machine.writeAt l off data) :=
  keeps_writeAt (fun w hw => h.did w none hw) fun w _ _ hw _ _ _ => h.did w _ hw

theorem Lasting.chownLikeParent (h : Lasting P) (p : Loc) :
    Proc.Keeps e P (files.chownLikeParent p) :=
  keeps_chownLikeParent (fun w hw => h.did w none hw) fun w _ _ _ hw _ _ => h.did w _ hw

theorem Lasting.mkdirAllRev (h : Lasting P) (mode : Nat) (rev : List Name) :
    Proc.Keeps e P (machine.mkdirAllRev mode rev) :=
  keeps_mkdirAllRev (fun w hw => h.did w none hw) fun w _ c hw _ _ _ => h.did w c.deed hw

theorem Lasting.finishWrite (h : Lasting P) (u : Upload) : Proc.Keeps e P (files.finishWrite u) := by
  unfold files.finishWrite
  refine Proc.triple_bind (Lasting.ask _) fun _ => ?_
  refine Proc.triple_bind (Lasting.attempt (h.act _)) fun _ => ?_
  refine Proc.triple_bind (Lasting.attempt (h.act _)) fun _ => ?_
  refine Proc.triple_bind (Lasting.orElseFirst (h.act _) (h.act _)) fun _ => ?_
  refine Proc.triple_bind (Lasting.orElseFirst (h.act _) (h.act _)) fun _ => ?_
  refine Proc.triple_bind (Lasting.askOs _) fun r => ?_
  split <;> exact Proc.triple_pure fun _ hw => hw

theorem Lasting.writeRest (h : Lasting P) (i : WriteArgs) (u : Upload) :
    Proc.Keeps e P (if i.final then files.finishWrite u else do
      pause
      pure (.more (wrap64 (i.offset + u.data.length)) (u.tmp.getLast?.getD ""))) := by
  split
  · exact h.finishWrite u
  · exact Proc.triple_bind (h.act _) fun _ => Proc.triple_pure fun _ hw => hw

theorem Lasting.writeChunk (h : Lasting P) (i : WriteArgs) (u : Upload) :
    Proc.Keeps e P (files.writeChunk i u) :=
  Proc.triple_bind (Lasting.orElseFirst (h.writeAt _ _ _) (h.act _)) fun _ => h.writeRest i u

theorem Lasting.packSources (h : Lasting P) (dest : CleanPath) (exclude : List Loc) (t : Tar)
    (srcs : List Loc) : Proc.Keeps e P (archives.packSources dest exclude t srcs) := by
  induction srcs generalizing t with
  | nil => exact Proc.triple_pure fun _ hw => hw
  | cons src srcs ih =>
    refine Proc.triple_bind (M := fun _ => P) (triple_askEnv fun _ hw => hw) fun vs => ?_
    exact Proc.triple_bind (keeps_packAll (fun w hw => h.did w none hw)
      fun v _ _ _ => h.readFile v.1) fun t => ih t

/-- Once a step brought it about, what lasts holds at the end. -/
theorem of_step {x : Sys α} {k : α → Sys β} {a : α} (hx : x e w = (.ok a, w1)) (h1 : P w1)
    (hk : Proc.Keeps e P (k a)) : P ((x >>= k) e w).2 := by
  rw [Proc.bind_run_ok hx]
  exact hk.state h1

theorem of_first {x : Sys α} {k : α → Sys β} (h : P (x e w).2) (hk : ∀ a, Proc.Keeps e P (k a)) :
    P ((x >>= k) e w).2 := by
  rw [Proc.bind_run]
  rcases hx : x e w with ⟨r, w1⟩
  rw [hx] at h
  cases r with
  | error er => exact h
  | ok a => exact (hk a).state h

theorem of_tried {x : Sys α} {y : Sys β} (h : P (x e w).2) (hy : Proc.Keeps e P y) :
    P ((x.orElseFirst y) e w).2 := by
  rcases hx : x e w with ⟨r, w1⟩
  rw [hx] at h
  cases r with
  | error er =>
    rw [Proc.orElseFirst_run_error hx]
    exact hy.state h
  | ok a =>
    rw [Proc.orElseFirst_run_ok hx]
    exact h

/-- The agent changed something outside the writable roots. -/
def Strayed (pol : Policy) (w : World) : Prop := ¬ Lawful (Inside pol) w

theorem strayed_lasting : Lasting (Strayed pol) where
  did w δ h hw := h (by
    cases δ with
    | none => exact hw
    | some δ => exact hw.1)
  reads _ _ h := h

theorem strayed_did {δ : Deed} (h : ¬ Inside pol w.disk δ) : Strayed pol (w.did (some δ)) :=
  fun hw => h hw.2

theorem strayed_put {l : Loc} {n : Node} (h : inWritable pol w.disk l = false) :
    Strayed pol (w.did (some (.put l n))) :=
  strayed_did fun hin => by
    have := hin l (List.mem_singleton.mpr rfl)
    rw [h] at this
    cases this

theorem strayed_remove {l : Loc} (h : inWritable pol w.disk l = false) :
    Strayed pol (w.did (some (.remove l))) :=
  strayed_did fun hin => by
    have := hin l (List.mem_singleton.mpr rfl)
    rw [h] at this
    cases this

/-! ## Uploads -/

theorem tempName_injective : Function.Injective tempName := by
  intro m n h
  have h' := congrArg String.toList h
  simp only [tempName, String.toList_append, List.append_cancel_left_eq] at h'
  have hdigits : Nat.toDigits 10 m = Nat.toDigits 10 n := by
    rw [← Nat.toList_repr, ← Nat.toList_repr]
    exact h'
  rw [← Nat.ofDigitChars_ten_toDigits (n := m), hdigits, Nat.ofDigitChars_ten_toDigits]

theorem tempName_ordinary (n : Nat) : Ordinary (tempName n) := by
  refine ⟨not_or.mpr ⟨?_, ?_⟩, ?_, fun h => ?_⟩
  rotate_left 3
  · rw [tempName, String.toList_append, List.mem_append] at h
    rcases h with h | h
    · revert h; decide
    · have hdigit : '/' ∈ Nat.toDigits 10 n := by
        rw [← Nat.toList_repr]
        exact h
      have := Nat.isDigit_of_mem_toDigits (by decide) (by decide) hdigit
      revert this
      decide
  all_goals
    intro h
    have h' := congrArg (fun s => s.toList.length) h
    simp [tempName, uploadPrefix, String.toList_append] at h'

/-- Beyond finitely many names there is a new one for a temporary file. -/
theorem exists_tempName (bad : List Name) : ∃ n, tempName n ∉ bad := by
  obtain ⟨n, hn⟩ := Infinite.exists_notMem_finset
    (bad.toFinset.preimage tempName tempName_injective.injOn)
  exact ⟨n, fun h => hn (by simpa using h)⟩

/-- Directly below a place outside the writable roots, only the names of
roots are inside. -/
theorem exists_outside (dir : Loc) (h : inWritable pol d dir = false) :
    ∃ bad : List Name, ∀ x, x ∉ bad → inWritable pol d (dir ++ [x]) = false := by
  -- The places that the roots lead to.
  have hroot : ∀ r, inRoot d dir r = false → ∃ bad : List Name, ∀ x, x ∉ bad →
      inRoot d (dir ++ [x]) r = false := by
    intro r hr
    unfold inRoot at hr ⊢
    split at hr
    · rename_i rr hrr
      refine ⟨rr.getLast?.toList, fun x hx => ?_⟩
      by_contra hin
      rw [Bool.not_eq_false, within_iff] at hin
      rcases prefix_concat_iff.mp hin with heq | hpre
      · exact hx (by simp [heq])
      · rw [(within_iff dir rr).mpr hpre] at hr
        cases hr
    · exact ⟨[], fun _ _ => rfl⟩
  have hroots : ∀ roots : List Loc, roots.any (inRoot d dir) = false → ∃ bad : List Name, ∀ x,
      x ∉ bad → roots.any (inRoot d (dir ++ [x])) = false := by
    intro roots
    induction roots with
    | nil => exact fun _ => ⟨[], fun _ _ => rfl⟩
    | cons r roots ih =>
      intro hany
      rw [List.any_cons, Bool.or_eq_false_iff] at hany
      obtain ⟨bad1, h1⟩ := hroot r hany.1
      obtain ⟨bad2, h2⟩ := ih hany.2
      refine ⟨bad1 ++ bad2, fun x hx => ?_⟩
      rw [List.mem_append, not_or] at hx
      rw [List.any_cons, h1 x hx.1, h2 x hx.2]
      rfl
  unfold inWritable at h ⊢
  rw [Bool.or_eq_false_iff] at h
  obtain ⟨bad1, h1⟩ := hroots pol.roots h.1
  by_cases habs : pol.backupDir.abs = true
  · rw [inBackupDir_eq _ habs] at h
    obtain ⟨bad2, h2⟩ := hroot _ h.2
    refine ⟨bad1 ++ bad2, fun x hx => ?_⟩
    rw [List.mem_append, not_or] at hx
    rw [h1 x hx.1, inBackupDir_eq _ habs, h2 x hx.2]
    rfl
  · refine ⟨bad1, fun x hx => ?_⟩
    rw [h1 x hx]
    simp [inBackupDir, resolveBackup, habs]

theorem reply_state {x : Sys α} {f : α → β} : ((x >>= fun a => (pure (f a) : Sys β)) e w).2 = (x e w).2 := by
  rw [Proc.bind_run]
  rcases x e w with ⟨r, w1⟩
  cases r <;> rfl

/-- `openWrite`, its checks passed. -/
theorem openWrite_run {i : WriteArgs} {real tmp : Loc} {data : Bytes}
    (hadm : admitWrite pol w.disk i = .ok (real, data))
    (htmp : openTemp real.dropLast i e w = (.ok tmp, w1)) :
    openWrite pol i e w =
      (.ok ⟨real, tmp, statNode w.disk real, inBackupDir pol w.disk real, data⟩, w1) := by
  unfold openWrite
  rw [Proc.bind_run_ok (ask_ok hadm)]
  dsimp only
  rw [look_bind]
  dsimp only
  rw [Proc.bind_run_ok htmp]
  rfl

/-- A new upload puts its temporary file beside the target. -/
theorem strayed_newUpload {i : WriteArgs} {real : Loc} {data : Bytes}
    (hadm : admitWrite pol d i = .ok (real, data)) (hoff : i.offset = 0)
    (hdir : d.IsDirAt real.dropLast) (hout : inWritable pol d real.dropLast = false) :
    ∃ n, ¬ Confined c pol (calm n []) d (.write i) := by
  obtain ⟨bad, hbad⟩ := exists_outside real.dropLast hout
  obtain ⟨n, hn⟩ := exists_tempName (bad ++ d.names real.dropLast)
  rw [List.mem_append, not_or] at hn
  have hres := (check_cleared (admitWrite_check hadm)).resolved
  have hp : Proper (real.dropLast ++ [tempName n]) := by
    refine proper_append.mpr ⟨proper_above (List.dropLast_prefix real) hres.1, fun x hx => ?_⟩
    rw [List.mem_singleton.mp hx]
    exact tempName_ordinary n
  have hnone : d.get (real.dropLast ++ [tempName n]) = none := by
    have := hn.2
    rw [Disk.mem_names] at this
    simpa using this
  have htmp : openTemp real.dropLast i (calm n []) (World.start d) =
      (.ok (real.dropLast ++ [tempName n]), (World.start d).did
        (some (.put (real.dropLast ++ [tempName n]) (.file ⟨[], 0, ⟨0o600, 0, 0⟩, true⟩)))) := by
    unfold openTemp createTemp
    rw [if_pos hoff]
    exact act_calm (f := fun luck d => createExcl d (real.dropLast ++ [tempName luck.draw])
      ⟨[], luck.now, ⟨0o600, 0, 0⟩, true⟩) (w := World.start d)
      (createExcl_there hp (by simp) (by simpa using hdir) hnone)
  refine ⟨n, ?_⟩
  show Strayed pol _
  unfold handle
  rw [reply_state]
  exact of_step (openWrite_run (w := World.start d) hadm htmp)
    (strayed_put (by simpa using hbad _ hn.1)) (strayed_lasting.writeChunk i _)

theorem strayed_finish {u : Upload} {f : FileData} (hf : d.get u.tmp = some (.file f))
    (hout : inWritable pol d u.tmp = false) :
    Strayed pol (finishWrite u (calm 0 []) (World.start d)).2 := by
  have hlook : d.look u.tmp = some (.file f) := by simp [Disk.look, Disk.get_ne_nil hf, hf]
  have hmode : ∀ mode, changeAttr d u.tmp (fun old => { old with mode }) =
      .ok ⟨some (.put u.tmp (.file { f with attr := { f.attr with mode } })), ()⟩ := by
    intro mode
    unfold changeAttr
    rw [hlook]
  unfold finishWrite
  rw [look_bind]
  refine of_step (Proc.attempt_run (act_calm (hmode _))) (strayed_put hout) ?_
  refine Proc.triple_bind (Lasting.attempt (strayed_lasting.act _)) fun _ => ?_
  refine Proc.triple_bind (Lasting.orElseFirst (strayed_lasting.act _) (strayed_lasting.act _))
    fun _ => ?_
  refine Proc.triple_bind (Lasting.orElseFirst (strayed_lasting.act _) (strayed_lasting.act _))
    fun _ => ?_
  refine Proc.triple_bind (Lasting.askOs _) fun r => ?_
  split <;> exact Proc.triple_pure fun _ hw => hw

/-- A later chunk changes the temporary file that it quotes. -/
theorem strayed_oldUpload {i : WriteArgs} {real : Loc} {data : Bytes}
    (hadm : admitWrite pol d i = .ok (real, data)) (hoff : i.offset ≠ 0)
    (hfound : (findUpload d real.dropLast i.upload).isOk)
    (htouch : data ≠ [] ∨ i.offset < 0 ∨ i.final = true)
    (hout : inWritable pol d (real.dropLast ++ [i.upload]) = false) :
    ¬ Confined c pol (calm 0 []) d (.write i) := by
  have hclear := check_cleared (admitWrite_check hadm)
  obtain ⟨l, hl⟩ : ∃ l, findUpload d real.dropLast i.upload = .ok l := by
    cases hf : findUpload d real.dropLast i.upload with
    | error er => rw [hf] at hfound; cases hfound
    | ok l => exact ⟨l, rfl⟩
  obtain ⟨rfl, hdir, f, hf⟩ := findUpload_place hclear hl
  have htmp : openTemp real.dropLast i (calm 0 []) (World.start d) =
      (.ok (real.dropLast ++ [i.upload]), World.start d) := by
    unfold openTemp openUpload
    rw [if_neg hoff]
    exact ask_ok hl
  have hnames : d.names (real.dropLast ++ [i.upload]) = [] := by
    refine Disk.names_nil ?_
    rintro (h0 | ⟨a, ha⟩)
    · simp at h0
    · rw [hf] at ha; cases ha
  show Strayed pol _
  unfold handle
  rw [reply_state]
  unfold fsWrite
  rw [Proc.bind_run_ok (openWrite_run (w := World.start d) hadm htmp)]
  unfold writeChunk putChunk
  by_cases hneg : i.offset < 0
  · -- The write fails, and the temporary file goes.
    have hfail : writeAt (real.dropLast ++ [i.upload]) i.offset data (calm 0 []) (World.start d) =
        (.error (.text "negative offset"), World.start d) := by
      unfold writeAt
      rw [if_pos hneg]
      rfl
    rw [Proc.bind_run_error (Proc.orElseFirst_run_error hfail)]
    unfold remove
    rw [act_calm (removeEntry_there hf hnames)]
    exact strayed_remove hout
  · by_cases hdata : data = []
    · -- The last chunk changes the mode first.
      subst hdata
      have hfinal : i.final = true := by
        rcases htouch with h | h | h
        · exact absurd rfl h
        · exact absurd h hneg
        · exact h
      have hput : writeAt (real.dropLast ++ [i.upload]) i.offset [] (calm 0 []) (World.start d) =
          (.ok (), World.start d) := by
        unfold writeAt
        rw [if_neg hneg, if_pos rfl]
        rfl
      rw [Proc.bind_run_ok (Proc.orElseFirst_run_ok hput), if_pos hfinal]
      exact strayed_finish hf hout
    · exact of_step (Proc.orElseFirst_run_ok (writeAt_calm hneg hdata hf)) (strayed_put hout)
        (strayed_lasting.writeRest i _)

/-- `fs.abort` removes the temporary file that it quotes. -/
theorem strayed_abort {i : AbortArgs} {real : Loc} (hcheck : check pol d i.path true = .ok real)
    (hfound : (findUpload d real.dropLast i.upload).isOk)
    (hout : inWritable pol d (real.dropLast ++ [i.upload]) = false) :
    ¬ Confined c pol (calm 0 []) d (.abort i) := by
  obtain ⟨l, hl⟩ : ∃ l, findUpload d real.dropLast i.upload = .ok l := by
    cases hf : findUpload d real.dropLast i.upload with
    | error er => rw [hf] at hfound; cases hfound
    | ok l => exact ⟨l, rfl⟩
  obtain ⟨rfl, hdir, f, hf⟩ := findUpload_place (check_cleared hcheck) hl
  have hnames : d.names (real.dropLast ++ [i.upload]) = [] := by
    refine Disk.names_nil ?_
    rintro (h0 | ⟨a, ha⟩)
    · simp at h0
    · rw [hf] at ha; cases ha
  show Strayed pol _
  unfold handle
  rw [reply_state]
  unfold fsAbort checked openUpload remove
  rw [Proc.bind_run_ok (ask_ok hcheck)]
  rw [Proc.bind_run_ok (Proc.attempt_run (ask_ok hl))]
  exact of_step (Proc.attempt_run (act_calm (removeEntry_there hf hnames))) (strayed_remove hout)
    (Proc.triple_pure fun _ hw => hw)

/-! ## Directories -/

theorem strayed_lookAgain (p : Loc) (er : GoError) : Proc.Keeps (calm 0 []) (Strayed pol) (do
    match ← (askOs fun d => lstat d p).attempt with
    | .ok (_, .dir _) => (pure () : Sys Unit)
    | _ => Proc.fail er) := by
  refine Proc.triple_bind (Lasting.attempt (Lasting.askOs _)) fun r => ?_
  split
  · exact Proc.triple_pure fun _ hw => hw
  · exact Proc.triple_fail fun _ hw => hw

/-- The first directory that is made on the way is outside. -/
theorem strayed_mkdirAllRev {mode : Nat} {rev : List Name} {q : Loc} (hp : Proper rev.reverse)
    (hq : q <+: rev.reverse) (hne : q ≠ []) (hnone : w.disk.get q = none)
    (hdir : w.disk.IsDirAt q.dropLast) (hout : inWritable pol w.disk q = false) :
    Strayed pol (mkdirAllRev mode rev (calm 0 []) w).2 := by
  induction rev with
  | nil => exact absurd (List.prefix_nil.mp hq) hne
  | cons x up ih =>
    rw [List.reverse_cons] at hp hq
    obtain ⟨er, her⟩ := stat_past_missing hp hq hne hnone hdir
    unfold mkdirAllRev
    rw [Proc.bind_run_ok askOs_attempt, her]
    simp only [Except.mapError]
    rcases prefix_concat_iff.mp hq with rfl | hq
    · rw [List.dropLast_concat] at hdir
      rw [Proc.bind_run_ok (mkdirAllRev_there (proper_append.mp hp).1 hdir)]
      have hmake : mkdir w.disk (up.reverse ++ [x]) ⟨mode, 0, 0⟩ =
          .ok ⟨some (.put (up.reverse ++ [x]) (.dir ⟨mode, 0, 0⟩)), ()⟩ :=
        mkdir_there hp hne (by simpa using hdir) hnone
      refine of_step (Proc.attempt_run (act_calm hmake)) (strayed_put hout) ?_
      exact Proc.triple_pure fun _ hw => hw
    · refine of_first (ih (proper_append.mp hp).1 hq) fun _ => ?_
      refine Proc.triple_bind (Lasting.attempt (strayed_lasting.act _)) fun r => ?_
      split
      · exact Proc.triple_pure fun _ hw => hw
      · exact strayed_lookAgain _ _

theorem strayed_mkdir {i : MkdirArgs} {real q : Loc} (hcheck : check pol d i.path true = .ok real)
    (hall : i.parents = true) (hq : q <+: real) (hne : q ≠ []) (hnone : d.get q = none)
    (hdir : d.IsDirAt q.dropLast) (hout : inWritable pol d q = false) :
    ¬ Confined c pol (calm 0 []) d (.mkdir i) := by
  show Strayed pol _
  unfold handle
  rw [reply_state]
  unfold fsMkdir checked
  rw [Proc.bind_run_ok (ask_ok hcheck), if_pos hall, look_bind]
  refine of_first ?_ fun _ => Proc.triple_pure fun _ hw => hw
  exact strayed_mkdirAllRev (by simpa using (check_cleared hcheck).resolved.1) (by simpa using hq)
    hne hnone hdir hout

/-! ## Archives -/

theorem fsArchive_run {i : ArchiveArgs} {real : Loc} (hne : i.paths ≠ [])
    (hsrcs : ∀ p ∈ i.paths, (check pol w.disk p false).isOk)
    (hcheck : check pol w.disk i.dest true = .ok real) :
    ∃ srcs, fsArchive pol i e w = (.ok (srcs, archiveDest real), w) := by
  have hall : ∀ p ∈ i.paths, ∃ b, checked pol p false e w = (.ok b, w) := by
    intro p hp
    have hok := hsrcs p hp
    cases hc : check pol w.disk p false with
    | error er => rw [hc] at hok; cases hok
    | ok b => exact ⟨b, ask_ok hc⟩
  obtain ⟨srcs, hrun⟩ := Proc.each_ok hall
  refine ⟨srcs, ?_⟩
  unfold fsArchive
  rw [if_neg hne, Proc.bind_run_ok hrun]
  unfold checked
  rw [Proc.bind_run_ok (ask_ok hcheck)]
  rfl

theorem ordinary_suffix {n : Name} (h : Ordinary n) : Ordinary (n ++ tarGzSuffix) := by
  refine ⟨not_or.mpr ⟨?_, ?_⟩, ?_, fun hn => ?_⟩
  rotate_left 3
  · rw [String.toList_append, List.mem_append] at hn
    rcases hn with hn | hn
    · exact h.2.2 hn
    · revert hn; decide
  all_goals
    intro hn
    have h' := congrArg (fun s => s.toList.length) hn
    simp [tarGzSuffix, String.toList_append] at h'

theorem archiveDest_proper {p : Loc} (hp : Proper p) : Proper (archiveDest p) := by
  unfold archiveDest
  split
  · exact hp
  · unfold appendText
    split
    · intro n hn
      rw [List.mem_singleton.mp hn]
      decide
    · rename_i last hlast
      refine proper_append.mpr ⟨proper_above (List.dropLast_prefix p) hp, fun n hn => ?_⟩
      rw [List.mem_singleton.mp hn]
      exact ordinary_suffix (hp last (List.mem_of_getLast? hlast))

/-- The suffix that `fs.archive` puts to a root leads out of it. -/
theorem strayed_archive {i : ArchiveArgs} {real : Loc} (hcheck : check pol d i.dest true = .ok real)
    (hne : i.paths ≠ []) (hsrcs : ∀ p ∈ i.paths, (check pol d p false).isOk)
    (hdir : d.IsDirAt real.dropLast) (hnames : d.names (archiveDest real) = [])
    (hout : inWritable pol d (archiveDest real) = false) :
    ¬ Confined c pol (calm 0 []) d (.archive i) := by
  show Strayed pol _
  obtain ⟨srcs, hrun⟩ := fsArchive_run (e := calm 0 []) (w := World.start d) hne hsrcs hcheck
  have hp := archiveDest_proper (check_cleared hcheck).resolved.1
  have hdir' : d.IsDirAt (archiveDest real).dropLast := by rwa [archiveDest_dropLast]
  rw [handle_archive, Proc.bind_run_ok hrun, reply_state]
  show Strayed pol (archiveJob c srcs (archiveDest real) (calm 0 []) (World.start d)).2
  unfold archiveJob
  refine of_first ?_ fun size => Proc.triple_bind (strayed_lasting.chownLikeParent _) fun _ =>
    Proc.triple_pure fun _ hw => hw
  cases hn : d.get (archiveDest real) with
  | none =>
    have hcreate : createDest (archiveDest real) (calm 0 []) (World.start d) = (.ok (archiveDest real),
        (World.start d).did (some (.put (archiveDest real) (.file ⟨[], 0, ⟨0o600, 0, 0⟩, true⟩)))) :=
      act_calm (f := fun luck d => createExcl d (archiveDest real) ⟨[], luck.now, ⟨0o600, 0, 0⟩, true⟩)
        (w := World.start d) (createExcl_there hp archiveDest_ne_nil hdir' hn)
    refine of_tried (of_step hcreate (strayed_put hout) ?_) (strayed_lasting.act _)
    refine Proc.triple_bind (strayed_lasting.packSources _ _ _ _) fun t => ?_
    refine Proc.triple_ite (fun _ => Proc.triple_fail fun _ hw => hw) fun _ => ?_
    refine Proc.triple_bind (strayed_lasting.writeAt _ _ _) fun _ => ?_
    refine Proc.triple_bind (strayed_lasting.act _) fun _ => ?_
    refine Proc.triple_bind (Lasting.askOs _) fun r => ?_
    split <;> exact Proc.triple_pure fun _ hw => hw
  | some x =>
    -- The file is taken: the job fails, and removes it.
    have hexist : createExcl d (archiveDest real) ⟨[], 0, ⟨0o600, 0, 0⟩, true⟩ = .error .exist := by
      unfold createExcl
      rw [entryAt_plain hp archiveDest_ne_nil hdir']
      simp [hn]
    have hcreate : createDest (archiveDest real) (calm 0 []) (World.start d) =
        (.error (.os .exist), (World.start d).did none) :=
      act_calm_error (f := fun luck d => createExcl d (archiveDest real)
        ⟨[], luck.now, ⟨0o600, 0, 0⟩, true⟩) (w := World.start d) hexist
    unfold writeTarGz
    rw [Proc.orElseFirst_run_error (Proc.bind_run_error hcreate)]
    unfold remove
    rw [act_calm (w := (World.start d).did none) (removeEntry_there hn hnames)]
    exact strayed_remove hout

/-! ## The condition is exact -/

/-- Every change of a request is in a writable root when its condition holds,
and, but for the turns of an extraction, only then. -/
theorem confined_iff (c : Codec) (pol : Policy) (d : Disk) (r : Request) :
    (∀ e, StaysInside c pol e d r → Confined c pol e d r) ∧
      ((∀ i, r ≠ .extract i) → (∀ e, Confined c pol e d r) → ∀ e, StaysInside c pol e d r) := by
  refine ⟨fun e => confined_of_stays, fun hno hconf e => ?_⟩
  cases r with
  | write i =>
    intro real data hadm
    split
    · rename_i hoff
      intro hdir
      by_contra hout
      obtain ⟨n, hn⟩ := strayed_newUpload (c := c) hadm hoff hdir (by simpa using hout)
      exact hn (hconf _)
    · rename_i hoff
      intro hfound htouch
      by_contra hout
      exact strayed_oldUpload hadm hoff hfound htouch (by simpa using hout) (hconf _)
  | abort i =>
    intro real hcheck hfound
    by_contra hout
    exact strayed_abort hcheck hfound (by simpa using hout) (hconf _)
  | mkdir i =>
    intro real hcheck hall q hq hne hnone hdir
    by_contra hout
    exact strayed_mkdir hcheck hall hq hne hnone hdir (by simpa using hout) (hconf _)
  | archive i =>
    intro real hcheck hne hsrcs hdir hnames
    by_contra hout
    exact strayed_archive hcheck hne hsrcs hdir hnames (by simpa using hout) (hconf _)
  | extract i => exact absurd rfl (hno i)
  | _ => trivial

/-- The policy of a server with one site. -/
def webPolicy : Policy := normalize ⟨["/var/www"], [], 0, ""⟩

def webDisk : Disk :=
  (Disk.bare.put ["var"] (.dir ⟨0o755, 0, 0⟩)).put ["var", "www"] (.dir ⟨0o755, 0, 0⟩)

example : check webPolicy webDisk "/etc/../var/www/" true = .ok ["var", "www"] := by decide +kernel

/-- An archive of the site that is to be named as the site itself becomes
`/var/www.tar.gz`, beside the root. -/
theorem archive_beside_root :
    ¬ Confined countedCodec webPolicy (calm 0 []) webDisk (.archive ⟨["/var/www"], "/var/www"⟩) := by
  have hcheck : check webPolicy webDisk "/var/www" true = .ok ["var", "www"] := by decide +kernel
  have hsrcs : ∀ p ∈ ["/var/www"], (check webPolicy webDisk p false).isOk := by decide +kernel
  have hdir : webDisk.IsDirAt (["var", "www"] : Loc).dropLast := by decide +kernel
  have hfree : webDisk.names (archiveDest ["var", "www"]) = [] := by decide +kernel
  have hout : inWritable webPolicy webDisk (archiveDest ["var", "www"]) = false := by decide +kernel
  exact @strayed_archive countedCodec webPolicy webDisk ⟨["/var/www"], "/var/www"⟩ ["var", "www"]
    hcheck (by simp) hsrcs hdir hfree hout

/-- Not every request changes only what is in a writable root. -/
theorem not_confined : ¬ ∀ c pol e d r, Confined c pol e d r := by
  intro h
  exact absurd (h _ _ _ _ _) archive_beside_root

end icsd_panel.confinement

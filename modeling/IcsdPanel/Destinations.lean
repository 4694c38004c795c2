-- What a failed job leaves. The job that packs an archive makes its file only
-- where none is; its clean-up takes whatever is there.
import IcsdPanel.Straying

open effects

namespace icsd_panel.destinations

open paths disk machine policy files archives deeds

/-- The jobs that pack an archive: of `fs.archive`, and of `backup.run` for a
folder. -/
inductive Job
  | archive (srcs : List Loc) (dest : Loc)
  | backup (b : BackupPlan)

def Job.run (c : Codec) : Job → Sys Unit
  | .archive srcs dest => do
    let _ ← archiveJob c srcs dest
    pure ()
  | .backup b => do
    let _ ← backupJob c b
    pure ()

/-- The path of the archive. -/
def Job.dest (cwd : Loc) : Job → Loc
  | .archive _ dest => dest
  | .backup b => place cwd b.file

/-- Every entry of `d0` is still there as it was. -/
def Kept (d0 d : Disk) : Prop := ∀ q n, d0.get q = some n → d.get q = some n

/-- There is nothing at the path that a removal could take. -/
def Spared (d0 : Disk) (p : Loc) : Prop :=
  ∀ l n, entryAt d0 p = .ok l → d0.get l = some n → d0.names l ≠ []

variable {c : Codec} {d0 d : Disk} {e : Env} {p l : Loc}

theorem OneMore.kept (h : OneMore d0 l d) : Kept d0 d := by
  intro q n hq
  rw [h.2.2 q]
  · exact hq
  · rintro rfl
    rw [h.1] at hq
    cases hq

/-- The clean-up takes the file of the job, when nothing else was there. -/
theorem OneMore.kept_remove (h : OneMore d0 l d) : Kept d0 (d.remove l) := by
  intro q n hq
  have hne : q ≠ l := by
    rintro rfl
    rw [h.1] at hq
    cases hq
  rw [Disk.get_remove_ne hne, h.2.2 q hne]
  exact hq

/-- The rules that allow everything. -/
def anyRules (d : Disk) : Rules := ⟨fun _ _ => True, fun _ => True, d⟩

theorem removeDest_keeps (h : Spared d0 p) :
    Proc.Triple e (fun w => Before (anyRules d0) d0 w ∨ HasDest (anyRules d0) d0 p w) (remove p)
      (fun _ w => Kept d0 w.disk) (fun w => Kept d0 w.disk) := by
  have hstay : ∀ w, Before (anyRules d0) d0 w ∨ HasDest (anyRules d0) d0 p w → Kept d0 w.disk := by
    rintro w (⟨hd, _⟩ | ⟨_, l, _, hone⟩)
    · rw [hd]
      exact fun _ _ hq => hq
    · exact OneMore.kept hone
  refine triple_act (fun luck w ch hw hc => ?_) fun w hw => hstay w hw
  obtain ⟨l, n, he, hn, hnames, hdeed⟩ := removeEntry_ok hc
  rw [hdeed, did_disk]
  rcases hw with ⟨hd, _⟩ | ⟨_, l', hl', hone⟩
  · rw [hd] at he hn hnames
    exact absurd hnames (h l n he hn)
  · rw [entryAt_grow hone.grows hl'] at he
    cases he
    exact OneMore.kept_remove hone

/-- Packing, with the clean-up of its callers. -/
theorem packed_keeps {dest : CleanPath} {exclude srcs : List Loc} (h : Spared d0 p) :
    Proc.Triple e (Before (anyRules d0) d0) ((writeTarGz c p dest srcs exclude).orElseFirst (remove p))
      (fun _ => HasDest (anyRules d0) d0 p) (fun w => Kept d0 w.disk) :=
  Proc.triple_orElseFirst
    (writeTarGz_deeds (fun _ _ _ => trivial) fun _ _ _ _ _ _ _ _ _ _ _ => trivial)
    (removeDest_keeps h)

theorem failedJob_keeps {j : Job} (h : Spared d0 (j.dest e.cwd)) :
    Proc.Triple e (Before (anyRules d0) d0) (j.run c) (fun _ _ => True) (fun w => Kept d0 w.disk) := by
  have hsame : ∀ w, Before (anyRules d0) d0 w → Kept d0 w.disk := by
    rintro w ⟨hd, _⟩
    rw [hd]
    exact fun _ _ hq => hq
  cases j with
  | archive srcs dest =>
    refine Proc.triple_bind (M := fun _ _ => True) ?_ fun _ => Proc.triple_pure fun _ _ => trivial
    refine Proc.triple_bind (packed_keeps h) fun size => ?_
    refine Proc.triple_bind (Proc.triple_weaken (chownDest_deeds fun _ _ _ => trivial)
      (fun _ h => h) (fun _ _ h => h) fun w hw => ?_) fun _ => Proc.triple_pure fun _ _ => trivial
    obtain ⟨_, _, _, hone⟩ := hw
    exact OneMore.kept hone
  | backup b =>
    refine Proc.triple_bind (M := fun _ _ => True) ?_ fun _ => Proc.triple_pure fun _ _ => trivial
    unfold backupJob
    refine Proc.triple_bind (M := fun q w => Before (anyRules d0) d0 w ∧ q = place e.cwd b.file)
      (triple_askEnv fun w hw => ⟨hw, rfl⟩) fun q => ?_
    refine Proc.triple_bind (M := fun _ w => Before (anyRules d0) d0 w ∧ q = place e.cwd b.file)
      (triple_askEnv fun w hw => hw) fun enough => ?_
    refine Proc.triple_bind (M := fun _ w => Before (anyRules d0) d0 w ∧ q = place e.cwd b.file)
      (triple_ask (fun w _ hw _ => hw) fun w hw => hsame w hw.1) fun _ => ?_
    intro w hw
    obtain ⟨hw, rfl⟩ := hw
    exact Proc.triple_bind (packed_keeps h) (fun size => Proc.triple_pure fun _ _ => trivial) w hw

/-- A job whose file is taken fails, and removes what was there. -/
theorem failedJob_takes {j : Job} {cwd : Loc} {n : Node} (he : entryAt d0 (j.dest cwd) = .ok l)
    (hn : d0.get l = some n) (hnames : d0.names l = []) :
    ∃ er w, j.run c (calm 0 cwd) (World.start d0) = (.error er, w) ∧ w.disk.get l = none := by
  have hpacked : ∀ (dest : CleanPath) (srcs exclude : List Loc),
      ((writeTarGz c (j.dest cwd) dest srcs exclude).orElseFirst (remove (j.dest cwd))) (calm 0 cwd)
        (World.start d0) = (.error (.os .exist), ((World.start d0).did none).did
          (some (.remove l))) := by
    intro dest srcs exclude
    have hexist : createExcl d0 (j.dest cwd) ⟨[], 0, ⟨0o600, 0, 0⟩, true⟩ = .error .exist := by
      unfold createExcl
      rw [he]
      simp [hn]
    have hgone : removeEntry d0 (j.dest cwd) = .ok ⟨some (.remove l), ()⟩ := by
      unfold removeEntry
      rw [he]
      simp [hn, hnames]
    have hcreate : createDest (j.dest cwd) (calm 0 cwd) (World.start d0) =
        (.error (.os .exist), (World.start d0).did none) :=
      act_calm_error (f := fun luck d => createExcl d (j.dest cwd)
        ⟨[], luck.now, ⟨0o600, 0, 0⟩, true⟩) (w := World.start d0) hexist
    unfold writeTarGz
    rw [Proc.orElseFirst_run_error (Proc.bind_run_error hcreate)]
    unfold remove
    rw [act_calm (w := (World.start d0).did none) hgone]
  refine ⟨.os .exist, ((World.start d0).did none).did (some (.remove l)), ?_, ?_⟩
  · cases j with
    | archive srcs dest =>
      exact Proc.bind_run_error (Proc.bind_run_error (hpacked _ _ _))
    | backup b =>
      refine Proc.bind_run_error ?_
      have hroom : ∀ need, ask (fun _ => guard (calm 0 cwd).free need) (calm 0 cwd)
          (World.start d0) = (.ok (), World.start d0) := fun _ => rfl
      unfold backupJob
      rw [askEnv_bind, askEnv_bind, Proc.bind_run_ok (hroom _)]
      exact Proc.bind_run_error (hpacked b.file [b.src] b.exclude)
  · show (d0.remove l).get l = none
    rw [Disk.get_remove hnames, if_pos rfl]

/-- Whatever fails in a job, all that was there stays: so it is exactly when
nothing that can be removed is at the destination. -/
theorem failedJob_keeps_iff (c : Codec) (j : Job) (d0 : Disk) (cwd : Loc) :
    (∀ e er w, e.cwd = cwd → j.run c e (World.start d0) = (.error er, w) → Kept d0 w.disk) ↔
      Spared d0 (j.dest cwd) := by
  constructor
  · intro h l n he hn hnames
    obtain ⟨er, w, hrun, hgone⟩ := failedJob_takes (c := c) he hn hnames
    have := h (calm 0 cwd) er w rfl hrun l n hn
    rw [hgone] at this
    cases this
  · rintro h e er w rfl hrun
    have := failedJob_keeps (c := c) h (World.start d0) (before_start _ rfl)
    rw [hrun] at this
    exact this

/-- The folder of a site, with an archive of it from before. -/
def packedDisk : Disk :=
  confinement.webDisk.put ["var", "www", "site.tar.gz"] (.file ⟨[1, 2, 3], 0, ⟨0o600, 0, 0⟩, true⟩)

/-- The second `fs.archive` to one destination fails, and removes the archive
of the first. -/
theorem archive_over_archive : ¬ ∀ c j d0 e er w,
    Job.run c j e (World.start d0) = (.error er, w) → Kept d0 w.disk := by
  intro h
  have he : entryAt packedDisk (Job.dest [] (.archive [["var", "www"]] ["var", "www", "site.tar.gz"])) =
      .ok ["var", "www", "site.tar.gz"] := by decide +kernel
  have hn : packedDisk.get ["var", "www", "site.tar.gz"] =
      some (.file ⟨[1, 2, 3], 0, ⟨0o600, 0, 0⟩, true⟩) := by decide +kernel
  have hnames : packedDisk.names ["var", "www", "site.tar.gz"] = [] := by decide +kernel
  obtain ⟨er, w, hrun, hgone⟩ := failedJob_takes (c := countedCodec) he hn hnames
  have := h _ _ _ _ _ _ hrun _ _ hn
  rw [hgone] at this
  cases this

end icsd_panel.destinations

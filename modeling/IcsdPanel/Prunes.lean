-- The prune of backups: which files it removes, and from which directory. The
-- directory of the request is looked for below the backup directory, if that can
-- be resolved.
import IcsdPanel.Archives
import IcsdPanel.Calm

open effects

namespace icsd_panel.prunes

open paths disk machine policy files archives

/-! ## What is pruned -/

/-- The prefix and the number of a prune are accepted. -/
def Accepted (i : PruneArgs) : Prop := isPrefixName i.prefixName = true ∧ 1 ≤ i.keep

instance (i : PruneArgs) : Decidable (Accepted i) := inferInstanceAs (Decidable (_ ∧ _))

/-- The directory that a text leads to: below the backup directory, and as an
absolute path when that cannot be resolved. -/
def leads (pol : Policy) (d : Disk) (dir : String) : Option Loc :=
  match pruneDir pol d dir with
  | .ok p => (dirAt d p).toOption
  | .error _ => none

/-- The names that a prune of the directory takes: all but the last `keep`. -/
def victims (d : Disk) (l : Loc) (i : PruneArgs) : List Name :=
  (backupsOf d l i.prefixName).take ((backupsOf d l i.prefixName).length - i.keep.toNat)

/-- The disk after a prune. -/
def pruned (pol : Policy) (i : PruneArgs) (e : Env) (d : Disk) : Disk :=
  (backupPrune pol i e (World.start d)).2.disk

/-- The disk without some of the entries of a directory. -/
def Without (d : Disk) (l : Loc) (gone : List Name) (d' : Disk) : Prop :=
  ∀ q, d'.get q = if q ∈ gone.map (fun n => l ++ [n]) then none else d.get q

variable {pol : Policy} {d d' : Disk} {e : Env} {w : World} {i : PruneArgs} {dir l q r : Loc}
  {cwd : Loc} {n : Name} {gone names : List Name}

/-! ## The way to the directory -/

theorem walkParts_unfiled {on on' : Loc → List Name → Except Errno Loc} {cs : List Name}
    (hon : ∀ l cs, on l cs = .ok r → on' l cs = .ok r) (hr : ∀ f, d.get r ≠ some (.file f))
    (hsame : ∀ q, (∀ f, d.get q ≠ some (.file f)) → d'.get q = d.get q)
    (h : walkParts d false on l cs = .ok r) : walkParts d' false on' l cs = .ok r := by
  induction cs generalizing l with
  | nil => exact h
  | cons c cs ih =>
    unfold walkParts at h ⊢
    split at h
    · rw [if_pos ‹_›]
      exact ih h
    · rw [if_neg ‹_›]
      split at h
      · rw [if_pos ‹_›]
        exact ih h
      · rw [if_neg ‹_›]
        rcases hn : d.get (l ++ [c]) with _ | (f | a | t | ⟨sk, a⟩)
        · simp [hn] at h
        · -- The walk would end at this file.
          simp only [hn] at h
          split at h <;> cases h
          exact absurd hn (hr f)
        · rw [hsame _ (by simp [hn]), hn]
          rw [hn] at h
          exact ih h
        · rw [hsame _ (by simp [hn]), hn]
          rw [hn] at h
          exact hon _ _ h
        · rw [hsame _ (by simp [hn]), hn]
          rw [hn] at h
          exact h

/-- A path leads to its directory however the files of the disk change. -/
theorem dirAt_unfiled (hsame : ∀ q, (∀ f, d.get q ≠ some (.file f)) → d'.get q = d.get q)
    (h : dirAt d r = .ok l) : dirAt d' r = .ok l := by
  have hdir := (dirAt_ok h).1
  have hl : ∀ f, d.get l ≠ some (.file f) := by
    rintro f hf
    rcases hdir with rfl | ⟨a, ha⟩
    · exact Disk.get_ne_nil hf rfl
    · rw [ha] at hf
      cases hf
  have hwalk (k : Nat) : ∀ {m : Loc} {cs : List Name}, walk d false k m cs = .ok l →
      walk d' false k m cs = .ok l := by
    induction k with
    | zero => exact fun h => walkParts_unfiled (fun _ _ h => by cases h) hl hsame h
    | succ k ih => exact fun h => walkParts_unfiled (fun _ _ h => ih h) hl hsame h
  unfold dirAt at h ⊢
  split at h
  · rename_i m hm
    split at h
    · cases h
      rw [show follow d' r = .ok l from hwalk 40 hm]
      refine if_pos ?_
      rcases hdir with rfl | ⟨a, ha⟩
      · exact .inl rfl
      · exact .inr ⟨a, by rw [hsame l hl, ha]⟩
    · cases h
  · cases h

/-! ## The removals -/

theorem Without.get_else (h : Without d l gone d') (hn : n ∉ gone) :
    d'.get (l ++ [n]) = d.get (l ++ [n]) := by
  rw [h, if_neg]
  simp [hn]

theorem Without.unfiled (h : Without d l gone d') (hgone : ∀ n ∈ gone, ∃ f, d.get (l ++ [n]) = some (.file f)) :
    ∀ q, (∀ f, d.get q ≠ some (.file f)) → d'.get q = d.get q := by
  intro q hq
  rw [h, if_neg]
  intro hmem
  obtain ⟨n, hn, rfl⟩ := List.mem_map.mp hmem
  obtain ⟨f, hf⟩ := hgone n hn
  exact hq f hf

theorem entryAt_of_dirAt (hn : Ordinary n) (h : dirAt d dir = .ok l) : entryAt d (dir ++ [n]) = .ok (l ++ [n]) := by
  unfold entryAt
  rw [List.getLast?_concat, List.dropLast_concat]
  simp only [if_pos hn, h]

/-- One removal of a file of the directory. -/
theorem remove_run (hdir : dirAt d dir = .ok l) (hgone : ∀ n ∈ gone, ∃ f, d.get (l ++ [n]) = some (.file f))
    {f : FileData} (hf : d.get (l ++ [n]) = some (.file f)) (hn : n ∉ gone) (hw : Without d l gone w.disk) :
    ∃ r w', remove (dir ++ [n]) e w = (r, w') ∧
      ((r = .ok () ∧ Without d l (gone ++ [n]) w'.disk) ∨
        (¬ Faultless e ∧ Without d l gone w'.disk)) := by
  refine ⟨_, _, rfl, ?_⟩
  cases hfault : (e.luck w.calls).fault with
  | some k =>
    refine .inr ⟨fun h => ?_, ?_⟩
    · rw [h w.calls] at hfault
      cases hfault
    · simp only [hfault, Option.isSome_some, if_true]
      exact hw
  | none =>
    have hget : w.disk.get (l ++ [n]) = some (.file f) := by rw [hw.get_else hn, hf]
    have hord : Ordinary n := Disk.get_proper hf n (by simp)
    have hentry := entryAt_of_dirAt hord (dirAt_unfiled (hw.unfiled hgone) hdir)
    have hnames : w.disk.names (l ++ [n]) = [] := by
      refine Disk.names_nil ?_
      rintro (h0 | ⟨a, ha⟩)
      · simp at h0
      · rw [hget] at ha
        cases ha
    have hremove : removeEntry w.disk (dir ++ [n]) = .ok ⟨some (.remove (l ++ [n])), ()⟩ := by
      unfold removeEntry
      rw [hentry]
      simp only [hget, hnames, if_true]
    refine .inl ?_
    simp only [hfault, Option.isSome_none, Bool.false_eq_true, if_false, hremove, outcome]
    refine ⟨trivial, fun q => ?_⟩
    rw [did_disk, Deed.apply, Disk.get_remove hnames, hw]
    simp only [List.map_append, List.map_singleton, List.mem_append, List.mem_singleton]
    split
    · simp [*]
    · simp [*]

/-- The removals, one after the other: each takes its file, or fails. -/
theorem removeEach_run (hdir : dirAt d dir = .ok l) :
    ∀ (names gone : List Name) (w : World), (gone ++ names).Nodup →
      (∀ n ∈ gone ++ names, ∃ f, d.get (l ++ [n]) = some (.file f)) → Without d l gone w.disk →
      ∃ more, more.Sublist names ∧ (Faultless e → more = names) ∧
        Without d l (gone ++ more) (removeEach (names.map fun n => dir ++ [n]) e w).2.disk := by
  intro names
  induction names with
  | nil =>
    intro gone w _ _ hw
    exact ⟨[], List.Sublist.refl _, fun _ => rfl, by rw [List.append_nil]; exact hw⟩
  | cons n names ih =>
    intro gone w hnodup hfiles hw
    obtain ⟨f, hf⟩ := hfiles n (by simp)
    have hn : n ∉ gone := by
      intro h
      exact (List.nodup_append.mp hnodup).2.2 n h n (by simp) rfl
    obtain ⟨r, w1, hrun, hstep⟩ := remove_run (e := e) hdir (fun m hm => hfiles m (by simp [hm])) hf hn hw
    have hrest : (removeEach ((n :: names).map fun n => dir ++ [n]) e w).2 =
        (removeEach (names.map fun n => dir ++ [n]) e w1).2 := by
      rw [List.map_cons, removeEach, Proc.bind_run_ok (Proc.attempt_run hrun), Proc.bind_run]
      rcases removeEach (names.map fun n => dir ++ [n]) e w1 with ⟨x | x, w2⟩ <;> rfl
    rw [hrest]
    rcases hstep with ⟨-, hw1⟩ | ⟨hfault, hw1⟩
    · obtain ⟨more, hsub, hall, hend⟩ := ih (gone ++ [n]) w1 (by simpa using hnodup) (by simpa using hfiles) hw1
      refine ⟨n :: more, hsub.cons_cons n, fun h => by rw [hall h], ?_⟩
      simpa using hend
    · have hsub : (gone ++ names).Sublist (gone ++ n :: names) :=
        (List.sublist_cons_self n names).append_left gone
      obtain ⟨more, hsub', -, hend⟩ := ih gone w1 (hnodup.sublist hsub)
        (fun m hm => hfiles m (hsub.subset hm)) hw1
      exact ⟨more, hsub'.cons n, fun h => absurd h hfault, hend⟩

theorem any_isFile_iff {x : Option Node} : x.any Node.isFile = true ↔ ∃ f, x = some (.file f) := by
  rcases x with _ | (f | a | t | ⟨sk, a⟩) <;> simp [Node.isFile]

theorem mem_backupsOf {pre : String} : n ∈ backupsOf d l pre ↔
    hasPrefix n (pre ++ "-") = true ∧ ∃ f, d.get (l ++ [n]) = some (.file f) := by
  unfold backupsOf
  rw [List.mem_filter, Bool.and_eq_true, any_isFile_iff, and_iff_right_iff_imp]
  rintro ⟨-, f, hf⟩
  unfold sortedNames
  rw [List.mem_insertionSort, Disk.mem_names, hf]
  rfl

theorem nodup_backupsOf (d : Disk) (l : Loc) (pre : String) : (backupsOf d l pre).Nodup := by
  unfold backupsOf sortedNames
  refine List.Nodup.filter _ ((List.perm_insertionSort _ _).nodup_iff.mpr ?_)
  exact List.nodup_dedup _

/-- A prune that is refused, or finds no directory, leaves the disk. -/
theorem pruned_nothing (h : ¬ Accepted i ∨ leads pol d i.dir = none) : pruned pol i e d = d := by
  unfold pruned backupPrune
  by_cases hi : isPrefixName i.prefixName = true ∧ 1 ≤ i.keep
  · rw [if_pos hi]
    have hl := h.resolve_left (not_not_intro hi)
    unfold leads at hl
    cases hdir : pruneDir pol d i.dir with
    | error er =>
      rw [Proc.bind_run_error (show ask _ e (World.start d) = _ by rw [ask_run, start_disk, hdir])]
      rfl
    | ok dir =>
      rw [hdir] at hl
      change (dirAt d dir).toOption = none at hl
      rw [Proc.bind_run_ok (ask_ok (w := World.start d) hdir), Proc.bind_run_ok askOs_attempt, start_disk]
      cases hd : dirAt d dir with
      | ok l => rw [hd] at hl; cases hl
      | error er => cases er <;> rfl
  · rw [if_neg hi]
    rfl

/-- A prune takes its victims, those whose removal succeeds. -/
theorem pruned_run (hi : Accepted i) (hl : leads pol d i.dir = some l) :
    ∃ gone, gone.Sublist (victims d l i) ∧ (Faultless e → gone = victims d l i) ∧
      Without d l gone (pruned pol i e d) := by
  unfold pruned backupPrune
  rw [if_pos (show isPrefixName i.prefixName = true ∧ 1 ≤ i.keep from hi)]
  unfold leads at hl
  cases hdir : pruneDir pol d i.dir with
  | error er => rw [hdir] at hl; cases hl
  | ok dir =>
    rw [hdir] at hl
    change (dirAt d dir).toOption = some l at hl
    rw [Proc.bind_run_ok (ask_ok (w := World.start d) hdir), Proc.bind_run_ok askOs_attempt, start_disk]
    cases hd : dirAt d dir with
    | error er => rw [hd] at hl; cases hl
    | ok l' =>
      rw [hd] at hl
      cases hl
      have hsub : (victims d l i).Sublist (backupsOf d l i.prefixName) := List.take_sublist _ _
      obtain ⟨more, hmore, hall, hend⟩ := removeEach_run (e := e) hd (victims d l i) [] (World.start d)
        ((nodup_backupsOf d l i.prefixName).sublist hsub)
        (fun n hn => (mem_backupsOf.mp (hsub.subset hn)).2) fun q => by simp
      exact ⟨more, hmore, hall, hend⟩

/-! ## Inside the backup directory -/

/-- The place is in the directory that `backup_dir` names. -/
def Inside (pol : Policy) (cwd : Loc) (d : Disk) (q : Loc) : Prop :=
  ∃ root, dirAt d (place cwd pol.backupDir) = .ok root ∧ root <+: q

/-- Every file that the prune removes, whatever fails, is in the backup
directory. -/
def Confined (pol : Policy) (cwd : Loc) (d : Disk) (i : PruneArgs) : Prop :=
  ∀ e q, e.cwd = cwd → (d.get q).isSome → (pruned pol i e d).get q = none → Inside pol cwd d q

theorem Inside.below (h : Inside pol cwd d l) (hq : l <+: q) : Inside pol cwd d q := by
  obtain ⟨root, hroot, hl⟩ := h
  exact ⟨root, hroot, hl.trans hq⟩

theorem confined_of_leads (h : ∀ l, Accepted i → leads pol d i.dir = some l →
    Inside pol cwd d l ∨ (backupsOf d l i.prefixName).length ≤ i.keep) : Confined pol cwd d i := by
  intro e q _ hq hnone
  by_cases hi : Accepted i
  · cases hl : leads pol d i.dir with
    | none =>
      rw [pruned_nothing (.inr hl)] at hnone
      rw [hnone] at hq
      cases hq
    | some l =>
      obtain ⟨gone, hsub, -, hend⟩ := pruned_run (e := e) hi hl
      rw [hend] at hnone
      split at hnone
      · rename_i hmem
        obtain ⟨n, hn, rfl⟩ := List.mem_map.mp hmem
        rcases h l hi hl with hin | hfew
        · exact hin.below (List.prefix_append _ _)
        · have hv := hsub.subset hn
          unfold victims at hv
          rw [Nat.sub_eq_zero_of_le (by omega), List.take_zero] at hv
          cases hv
      · rw [hnone] at hq
        cases hq
  · rw [pruned_nothing (.inl hi)] at hnone
    rw [hnone] at hq
    cases hq

/-- A prune stays in the backup directory if and only if the directory that its
text leads to is in it, or has no more files of the prefix than are kept. -/
theorem prune_confined (pol : Policy) (cwd : Loc) (d : Disk) (i : PruneArgs) :
    Confined pol cwd d i ↔ ∀ l, Accepted i → leads pol d i.dir = some l →
      Inside pol cwd d l ∨ (backupsOf d l i.prefixName).length ≤ i.keep := by
  constructor
  · intro h l hi hl
    by_contra hnot
    obtain ⟨hout, hmany⟩ := not_or.mp hnot
    have hkeep := hi.2
    have hpos : 0 < (victims d l i).length := by
      unfold victims
      rw [List.length_take]
      omega
    obtain ⟨n, hn⟩ := List.exists_mem_of_length_pos hpos
    obtain ⟨f, hf⟩ := (mem_backupsOf.mp (List.mem_of_mem_take hn)).2
    obtain ⟨gone, -, hall, hend⟩ := pruned_run (e := calm 0 cwd) hi hl
    have hgone : (pruned pol i (calm 0 cwd) d).get (l ++ [n]) = none := by
      rw [hend, hall fun _ => rfl, if_pos (List.mem_map_of_mem hn)]
    obtain ⟨root, hroot, hpre⟩ := h (calm 0 cwd) (l ++ [n]) rfl (by rw [hf]; rfl) hgone
    rcases prefix_concat_iff.mp hpre with rfl | hpre
    · rcases (dirAt_ok hroot).1 with h0 | ⟨a, ha⟩
      · simp at h0
      · rw [hf] at ha
        cases ha
    · exact hout ⟨root, hroot, hpre⟩
  · exact confined_of_leads

theorem joinText_proper (hl : Proper l) (raw : String) : Proper (joinText l raw) := by
  unfold joinText
  intro n hn
  have hstack : ∀ x ∈ l.reverse, Ordinary x := fun x hx => hl x (List.mem_reverse.mp hx)
  exact foldl_pushPart_ordinary (splitSlash raw) (splitSlash_no_slash raw) hstack n (List.mem_reverse.mp hn)

/-- An absolute backup directory with no links below it keeps every prune. -/
theorem confined_of_straight (habs : pol.backupDir.abs = true) (hb : dirAt d pol.backupDir.parts = .ok l)
    (hlinks : ∀ q n, l <+: q → d.get q = some n → n.isLink = false) : Confined pol cwd d i := by
  obtain ⟨heval, hdir⟩ := dirAt_eval hb
  have hproper := (dirAt_ok hb).2
  refine confined_of_leads fun m _ hm => ?_
  refine .inl ⟨l, by rw [place, if_pos habs, hb], ?_⟩
  unfold leads pruneDir resolveBackup at hm
  rw [if_pos habs, resolve_eval heval] at hm
  simp only at hm
  split at hm
  · rename_i p hp
    split at hp <;> cases hp
    obtain ⟨cs, hcs⟩ := (within_iff _ _).mp ‹_›
    have hpcs := (proper_append.mp (hcs.symm ▸ joinText_proper hproper i.dir)).2
    rw [← hcs] at hm
    cases hd : dirAt d (l ++ cs) with
    | error er => rw [hd] at hm; cases hm
    | ok r =>
      rw [hd] at hm
      cases hm
      have hwalk := (dirAt_eval hd).1
      unfold evalSymlinks at hwalk
      rw [walk_dirs 255 hproper (by simpa using hdir), List.nil_append] at hwalk
      have hr := walk_straight 255 hpcs (fun ys n _ hn _ => hlinks _ n (List.prefix_append l ys) hn) hwalk
      rw [hr]
      exact List.prefix_append l cs
  · cases hm

/-- A policy whose backup directory is a relative path. -/
def relativePolicy : Policy := normalize ⟨["/srv"], [], 0, "backups"⟩

def folder : Node := .dir ⟨0o755, 0, 0⟩

def backupFile : Node := .file ⟨[1], 0, ⟨0o600, 0, 0⟩, true⟩

/-- Two files of one prefix, far from any backups. -/
def twoDisk : Disk :=
  ((Disk.bare.put ["srv"] folder).put ["srv", "a-1"] backupFile).put ["srv", "a-2"] backupFile

/-- Without a backup directory that can be resolved, a prune goes anywhere. -/
theorem prune_strays : ¬ ∀ pol cwd d i, Confined pol cwd d i := by
  intro h
  obtain ⟨root, hroot, -⟩ := h relativePolicy ["root"] twoDisk ⟨"/srv", "a", 1⟩ (calm 0 ["root"]) ["srv", "a-1"]
    rfl (by decide +kernel) (by decide +kernel)
  have hnone : dirAt twoDisk (place ["root"] relativePolicy.backupDir) = .error .noent := by decide +kernel
  rw [hnone] at hroot
  cases hroot

end icsd_panel.prunes

-- An archive of the agent that is extracted again: what is left of the files that
-- were selected for it. An archive keeps of a path what is below the folder of its
-- selection, and an extraction cuts long files off.
import IcsdPanel.Packing
import IcsdPanel.Unpacking

open effects

namespace icsd_panel.round_trips

open paths disk machine policy files archives deeds contents

variable {c : Codec} {pol : Policy} {d d' D : Disk} {e : Env} {w w' : World} {base dest into l p q src src' : Loc}
  {f : FileData} {m : Member} {ms done : List Member} {xs : List Name}

/-! ## The trip -/

/-- A regular file of a selection. -/
def Selected (d : Disk) (srcs : List Loc) (src q : Loc) (f : FileData) : Prop :=
  src ∈ srcs ∧ src <+: q ∧ d.get q = some (.file f)

/-- What the archive keeps of a path: what is below the folder of the selection. -/
def relative (src q : Loc) : Loc := q.drop src.dropLast.length

/-- Paths that were accepted, archived, and extracted into an empty folder, with both
jobs done. What is below the paths are files and folders that are not denied. -/
structure Trip (c : Codec) (pol : Policy) where
  env : Env
  before : Disk
  args : ArchiveArgs
  srcs : List Loc
  dest : Loc
  asked : World
  accepted : fsArchive pol args env (World.start before) = (.ok (srcs, dest), asked)
  ordinary : ∀ src ∈ srcs, ∀ q n, src <+: q → before.get q = some n →
    (n.isFile = true ∨ n.isDir = true) ∧ deniedLexical q = false
  size : Nat
  packed : World
  archived : archiveJob c srcs dest env asked = (.ok (dest, size), packed)
  later : World
  -- Until the extraction other things may change, but not the archive.
  kept : ∀ l f, openFile packed.disk dest = .ok (l, f) →
    ∃ m g, openFile later.disk dest = .ok (m, g) ∧ g.content = f.content
  env' : Env
  request : ExtractArgs
  into : Loc
  admitted : World
  checked : fsExtract pol request env' later = (.ok (dest, into), admitted)
  folder : later.disk.IsDirAt into
  empty : later.disk.names into = []
  count : Nat
  after : World
  extracted : extractJob c pol dest into env' admitted = (.ok count, after)

/-- The selected file `q` ended up as the file at `l`. -/
def Trip.EndsUp (t : Trip c pol) (q l : Loc) : Prop :=
  ∃ src f g, Selected t.before t.srcs src q f ∧ l = t.into ++ relative src q ∧
    t.after.disk.get l = some (.file g)

/-- Every selected file is found with its bytes, and no two of them ended up in one. -/
def Trip.Kept (t : Trip c pol) : Prop :=
  (∀ src q f, Selected t.before t.srcs src q f →
    ∃ g, t.after.disk.get (t.into ++ relative src q) = some (.file g) ∧ g.content = f.content) ∧
  ∀ q q' l, t.EndsUp q l → t.EndsUp q' l → q = q'

/-- The walk gets to every selected file, no two of them have the same path below the
folders of their selections, and none is longer than what an extraction writes. -/
structure Trip.Clear (t : Trip c pol) : Prop where
  reached : ∀ src q f, Selected t.before t.srcs src q f →
    ∃ src' ∈ t.srcs, src'.dropLast = src.dropLast ∧ Reached t.env.blocked t.before src' q
  apart : ∀ src src' q q' f f', Selected t.before t.srcs src q f → Selected t.before t.srcs src' q' f' →
    relative src q = relative src' q' → q = q'
  short : ∀ src q f, Selected t.before t.srcs src q f → f.content.length ≤ maxMember

/-! ## The names in the archive -/

theorem append_relative (h : src <+: q) : src.dropLast ++ relative src q = q :=
  List.prefix_iff_eq_append.mp ((List.dropLast_prefix src).trans h)

theorem lt_of_selected (h : src <+: q) (hq : q ≠ []) : src.dropLast.length < q.length := by
  have hlen := h.length_le
  have hpos := List.length_pos_of_ne_nil hq
  rw [List.length_dropLast]
  omega

/-- The name of a file in the archive is read back as its path below the folder. -/
theorem memberParts_name (hq : Proper q) (hlen : base.length < q.length) :
    memberParts (memberName base q (.file f)) = q.drop base.length := by
  have hname : memberName base q (.file f) = String.intercalate "/" (q.drop base.length) := by
    simp [memberName, Node.isDir, Nat.not_le.mpr hlen]
  have hproper : Proper (q.drop base.length) := fun n hn => hq n (List.mem_of_mem_drop hn)
  have hclean := clean_spell hproper
  unfold spell at hclean
  unfold memberParts
  rw [hname, hclean]

/-- A selected file as a member of the archive. -/
def fileMember (src q : Loc) (f : FileData) : Member :=
  ⟨memberName src.dropLast q (.file f), .reg, f.attr.mode, f.content⟩

theorem memberParts_file (hsrc : src <+: q) (hq : d.get q = some (.file f)) :
    memberParts (fileMember src q f).name = relative src q :=
  memberParts_name (f := f) (Disk.get_proper hq) (lt_of_selected hsrc (Disk.get_ne_nil hq))

/-- Once the archive is made, the walk of a source shows the files that it reaches. -/
theorem mem_visits_selected {blocked : Access → Loc → Bool} (hone : OneMore d dest D) (hsrc : Resolved d src)
    (hallow : ∀ q n, src <+: q → d.get q = some n → deniedLexical q = false) :
    (q, .file f) ∈ visits blocked ⟨true, dest⟩ [] D src ↔
      src <+: q ∧ d.get q = some (.file f) ∧ Reached blocked d src q := by
  constructor
  · intro h
    obtain ⟨hwalk, hdest⟩ := List.mem_filter.mp h
    have hne : q ≠ dest := by
      rintro rfl
      simp at hdest
    unfold walkTree at hwalk
    split at hwalk
    · cases hwalk
    · rename_i r n hn
      obtain ⟨-, hlook⟩ := hone.lstat hsrc hn
      obtain ⟨hq, hreach⟩ := mem_visits_reached hlook h
      have hget : D.get q = some (.file f) := by
        unfold Disk.look at hq
        split at hq
        · cases hq
        · exact hq
      refine ⟨hreach.1, (hone.2.2 q hne) ▸ hget, hreach.1, fun r hsr hrq => ?_⟩
      exact ⟨(hreach.2 r hsr hrq).1, fun hdir => (hreach.2 r hsr hrq).2 (hone.grows.isDirAt hdir)⟩
  · rintro ⟨hpre, hq, hreach⟩
    have hlook : d.look q = some (.file f) := by rw [Disk.look, if_neg (Disk.get_ne_nil hq), hq]
    refine mem_visits_of (contents.OneMore.look hone hlook) (contents.OneMore.reached hone hreach) ?_ ?_
    · simp [skipped, hallow q _ hpre hq]
    · intro h
      obtain rfl : q = dest := (CleanPath.mk.inj h).2
      rw [hone.1] at hq
      cases hq

/-! ## The archive -/

/-- All but the file at `l` is as on the disk `d`, and that file has the bytes `b`. -/
def Wrote (d : Disk) (l : Loc) (b : Bytes) (w : World) : Prop :=
  (∀ q, q ≠ l → w.disk.get q = d.get q) ∧ ∃ g, w.disk.get l = some (.file g) ∧ g.content = b

theorem chown_wrote {b : Bytes} : Proc.Keeps e (Wrote d l b) (chownLikeParent l) := by
  refine keeps_chownLikeParent (fun _ hw => hw) fun w q n m hw hq hsame => ?_
  obtain ⟨hrest, g, hg, hb⟩ := hw
  have hlook : w.disk.look l = some (.file g) := by rw [Disk.look, if_neg (Disk.get_ne_nil hg), hg]
  rw [lstat_plain hlook] at hq
  cases hq
  cases hsame
  refine ⟨fun q hq => ?_, _, Disk.get_put_self (fits_over hg (by simp [Node.isDir])), hb⟩
  rw [did_disk]
  exact (Disk.get_put_ne hq).trans (hrest q hq)

/-- The archive of a job that ended well. -/
theorem archiveJob_ok {srcs : List Loc} {r : Loc × Nat} (hdest : Resolved w.disk dest.dropLast)
    (h : archiveJob c srcs dest e w = (.ok r, w')) : ∃ D, OneMore w.disk dest D ∧
      Wrote w.disk dest (c.tarGz (srcs.flatMap (packedMembers e.blocked ⟨true, dest⟩ [] D))) w' := by
  obtain ⟨size, w1, hpack, h⟩ := Proc.bind_run_inv h
  obtain ⟨_, w2, hchown, h⟩ := Proc.bind_run_inv h
  cases h
  unfold Proc.orElseFirst at hpack
  split at hpack
  · rename_i hrun
    cases hpack
    obtain ⟨l, w3, g, -, he, hone, hmore, hg, hcontent⟩ := writeTarGz_ok hrun
    obtain ⟨rfl, -, -⟩ := hdest.entryAt he
    exact ⟨w3.disk, hone, chown_wrote.ok ⟨hmore.2.2, g, hg, hcontent⟩ hchown⟩
  · cases hpack

theorem fsArchive_ok {i : ArchiveArgs} {srcs : List Loc}
    (h : fsArchive pol i e (World.start d) = (.ok (srcs, dest), w)) :
    w.disk = d ∧ (∀ src ∈ srcs, Resolved d src) ∧ Resolved d dest.dropLast ∧ ∃ real, dest = archiveDest real := by
  obtain ⟨hw, hsrcs, real, hreal, hdest⟩ := (fsArchive_deeds (A := ⟨fun _ _ => True, fun _ => True, d⟩)).ok
    (before_start _ rfl) h
  obtain rfl : dest = archiveDest real := hdest
  refine ⟨hw.1, fun src hs => ?_, ?_, real, rfl⟩
  · obtain ⟨raw, -, hcheck⟩ := hsrcs src hs
    exact (check_ok hcheck).1
  rw [archiveDest_dropLast]
  exact (check_ok hreal).1.above (List.dropLast_prefix real)

/-- What the archive of a trip holds: its files are the selected ones that the walk
gets to. -/
theorem Trip.members (t : Trip c pol) : ∃ ms g, openFile t.packed.disk t.dest = .ok (t.dest, g) ∧
    g.content = c.tarGz ms ∧ ∀ m, m ∈ ms ∧ m.kind = .reg ↔ ∃ src q f, Selected t.before t.srcs src q f ∧
      Reached t.env.blocked t.before src q ∧ m = fileMember src q f := by
  obtain ⟨hdisk, hsrcs, hdest, -⟩ := fsArchive_ok t.accepted
  obtain ⟨D, hone, -, g, hg, hcontent⟩ := archiveJob_ok (hdisk ▸ hdest) t.archived
  rw [hdisk] at hone
  have hallow : ∀ src ∈ t.srcs, ∀ q n, src <+: q → t.before.get q = some n → deniedLexical q = false :=
    fun src hsrc q n hpre hq => (t.ordinary src hsrc q n hpre hq).2
  refine ⟨_, g, ?_, hcontent, fun m => ?_⟩
  · unfold openFile
    rw [stat_installed (Disk.get_proper hg) hg]
  · constructor
    · rintro ⟨hm, hreg⟩
      obtain ⟨src, hsrc, hm⟩ := List.mem_flatMap.mp hm
      obtain ⟨⟨q, n⟩, hvisit, hm⟩ := List.mem_filterMap.mp hm
      have hfile := isFile_of_memberOf hm hreg
      cases n with
      | file f =>
        cases hm
        obtain ⟨hpre, hq, hreach⟩ := (mem_visits_selected hone (hsrcs src hsrc) (hallow src hsrc)).mp hvisit
        exact ⟨src, q, f, ⟨hsrc, hpre, hq⟩, hreach, rfl⟩
      | _ => cases hfile
    · rintro ⟨src, q, f, ⟨hsrc, hpre, hq⟩, hreach, rfl⟩
      refine ⟨List.mem_flatMap.mpr ⟨src, hsrc, List.mem_filterMap.mpr ⟨(q, .file f), ?_, rfl⟩⟩, rfl⟩
      exact (mem_visits_selected hone (hsrcs src hsrc) (hallow src hsrc)).mpr ⟨hpre, hq, hreach⟩

/-! ## The extraction -/

/-- The files below `into` are those of the members so far, and these are all there. -/
structure Holds (into : Loc) (ms : List Member) (d : Disk) : Prop where
  folder : d.IsDirAt into
  no_link : ∀ xs n, xs ≠ [] → d.get (into ++ xs) = some n → n.isLink = false
  file : ∀ xs g, d.get (into ++ xs) = some (.file g) →
    ∃ m ∈ ms, m.kind = .reg ∧ memberParts m.name = xs ∧ g.content = m.content.take maxMember
  there : ∀ m ∈ ms, m.kind = .reg → ∃ g, d.get (into ++ memberParts m.name) = some (.file g)

theorem holds_empty (hdir : d.IsDirAt into) (hempty : d.names into = []) : Holds into [] d := by
  have hnone : ∀ xs n, xs ≠ [] → d.get (into ++ xs) ≠ some n := by
    rintro (_ | ⟨x, xs⟩) n hne h
    · exact hne rfl
    · have hx : (d.get (into ++ [x])).isSome := by
        by_cases hxs : xs = []
        · rw [hxs] at h
          rw [h]
          rfl
        · rw [List.append_cons] at h
          rcases Disk.isDirAt_of_below hxs (by rw [h]; rfl) with h0 | ⟨a, ha⟩
          · simp at h0
          · rw [ha]
            rfl
      rw [← Disk.mem_names, hempty] at hx
      cases hx
  refine ⟨hdir, fun xs n hxs h => absurd h (hnone xs n hxs), fun xs g h => ?_, fun m hm => by cases hm⟩
  by_cases hxs : xs = []
  · rw [hxs, List.append_nil] at h
    rcases hdir with h0 | ⟨a, ha⟩
    · exact absurd h0 (Disk.get_ne_nil h)
    · rw [ha] at h
      cases h
  · exact absurd h (hnone xs _ hxs)

/-- A path below `into` leads to its own place. -/
theorem Holds.entry (h : Holds into ms d) (hp : Proper (into ++ xs)) (he : entryAt d (into ++ xs) = .ok l) :
    l = into ++ xs := by
  obtain ⟨-, -, -, hne, -⟩ := entryAt_ok he
  obtain ⟨p, n, hpn⟩ := dropLast_append_getLast hne
  have hpre : p <+: into ++ xs := hpn ▸ List.prefix_append p [n]
  rw [hpn] at he
  obtain ⟨m, rfl, hm⟩ := entryAt_concat he
  have hfollow : follow d p = .ok m := by
    unfold dirAt at hm
    split at hm
    · split at hm
      · cases hm
        assumption
      · cases hm
    · cases hm
  have hlinks : ∀ ys n, ys <+: p → d.get ([] ++ ys) = some n → ys ≠ [] → n.isLink = false := by
    intro ys n hys hn hne
    rw [List.nil_append] at hn
    have habove (hys : ys <+: into) : n.isLink = false := by
      rcases h.folder.above hys with h0 | ⟨a, ha⟩
      · exact absurd h0 hne
      · rw [ha] at hn
        cases hn
        rfl
    rcases List.prefix_or_prefix_of_prefix (hys.trans hpre) (List.prefix_append into xs) with hys | ⟨r, rfl⟩
    · exact habove hys
    · by_cases hr : r = []
      · exact habove (by rw [hr, List.append_nil])
      · exact h.no_link r n hr hn
  have hstraight := walk_straight 40 (proper_above hpre hp) hlinks hfollow
  rw [hpn, hstraight]
  rfl

theorem Holds.more (h : Holds into ms d) (hm : m.kind ≠ .reg) : Holds into (ms ++ [m]) d := by
  refine ⟨h.folder, h.no_link, fun xs g hg => ?_, fun m' hm' hreg => ?_⟩
  · obtain ⟨m', hm', hfile⟩ := h.file xs g hg
    exact ⟨m', List.mem_append_left [m] hm', hfile⟩
  · rcases List.mem_append.mp hm' with hm' | hm'
    · exact h.there m' hm' hreg
    · exact absurd (List.mem_singleton.mp hm' ▸ hreg) hm

/-- A new folder changes no file. -/
theorem Holds.put_dir {a : Attr} (h : Holds into ms d) (hfits : d.Fits (into ++ xs) (.dir a))
    (hnone : d.get (into ++ xs) = none) : Holds into ms (d.put (into ++ xs) (.dir a)) := by
  refine ⟨(grows_put fun m hm => ?_).isDirAt h.folder, fun ys n hys hn => ?_, fun ys g hg => ?_, fun m hm hreg => ?_⟩
  · rw [hnone] at hm
    cases hm
  · rw [Disk.get_put hfits] at hn
    split at hn
    · cases hn
      rfl
    · exact h.no_link ys n hys hn
  · rw [Disk.get_put hfits] at hg
    split at hg
    · cases hg
    · exact h.file ys g hg
  · obtain ⟨g, hg⟩ := h.there m hm hreg
    refine ⟨g, ?_⟩
    rw [Disk.get_put_ne, hg]
    intro heq
    rw [heq, hnone] at hg
    cases hg

theorem keeps_holds_mkdirAll {mode : Nat} (hp : Proper (into ++ xs)) (hpre : p <+: into ++ xs) :
    Proc.Keeps e (fun w => Holds into ms w.disk) (mkdirAll p mode) := by
  refine keeps_mkdirAll (fun _ hw => hw) fun w q ch hw hq _ hc => ?_
  obtain ⟨l, he, hnone, hdeed⟩ := mkdir_ok hc
  obtain ⟨ys, hys, rfl⟩ := unpacking.missing_below (proper_append.mp hp).1 hw.folder (hq.trans hpre) he hnone
  have hfits := fits_new (n := .dir ⟨mode, 0, 0⟩) he hnone
  obtain rfl := hw.entry (proper_above (hq.trans hpre) hp) he
  rw [hdeed, did_disk]
  exact hw.put_dir hfits hnone

/-- A file that was written below `into`, from its place alone. -/
theorem writeFileFrom_ok (h : Holds into ms w.disk) (hp : Proper (into ++ xs))
    (hrun : writeFileFrom (into ++ xs) m false e w = (.ok (), w')) :
    xs ≠ [] ∧ Wrote w.disk (into ++ xs) (m.content.take maxMember) w' := by
  unfold writeFileFrom at hrun
  obtain ⟨b, w1, hask, hrun⟩ := Proc.bind_run_inv hrun
  cases hask
  split at hrun
  · cases hrun
  rename_i hlink
  obtain ⟨l, w1, htrunc, hrun⟩ := Proc.bind_run_inv hrun
  have hopen (mode : Nat) : Proc.Triple e (· = w) (truncate (into ++ xs) mode) (fun l w1 => xs ≠ [] ∧
      l = into ++ xs ∧ Wrote w.disk l [] w1) fun _ => True := by
    refine triple_act (fun luck v ch hv hc => ?_) fun _ _ => trivial
    subst hv
    obtain ⟨hplace, hcase⟩ := createTrunc_ok hc
    have he := createPlace_entry (by simpa using hlink) hplace
    have hl := h.entry hp he
    rcases hcase with ⟨hnone, hdeed⟩ | ⟨old, hold, hdeed⟩
    · refine ⟨unpacking.not_dest (proper_append.mp hp).1 h.folder he (.inl hnone), hl, ?_⟩
      rw [hdeed]
      exact ⟨fun q hq => Disk.get_put_ne hq, _, Disk.get_put_self (fits_new he hnone), rfl⟩
    · refine ⟨unpacking.not_dest (proper_append.mp hp).1 h.folder he (.inr ⟨old, hold⟩), hl, ?_⟩
      rw [hdeed]
      exact ⟨fun q hq => Disk.get_put_ne hq, _, Disk.get_put_self (fits_over hold (by simp [Node.isDir])), rfl⟩
  obtain ⟨hxs, rfl, hsame, f, hf, hempty⟩ := (hopen _).ok rfl htrunc
  obtain ⟨_, w2, hwrite, hrun⟩ := Proc.bind_run_inv hrun
  obtain ⟨g, hg, hget, hrest⟩ := writeAt_ok hf hempty hwrite
  obtain ⟨_, w3, hpause, hrun⟩ := Proc.bind_run_inv hrun
  have hdisk := pause_ok hpause
  refine ⟨hxs, chown_wrote.ok ⟨fun q hq => ?_, g, hdisk ▸ hget, hg⟩ hrun⟩
  rw [hdisk, hrest q hq, hsame q hq]

theorem Holds.wrote (h : Holds into ms d) (hxs : xs ≠ []) (hreg : m.kind = .reg) (hparts : memberParts m.name = xs)
    (hw : Wrote d (into ++ xs) (m.content.take maxMember) w) : Holds into (ms ++ [m]) w.disk := by
  obtain ⟨hsame, g0, hg0, hcontent⟩ := hw
  have helse {ys : List Name} (hys : ys ≠ xs) : w.disk.get (into ++ ys) = d.get (into ++ ys) :=
    hsame _ fun heq => hys (List.append_cancel_left heq)
  refine ⟨?_, fun ys n hys hn => ?_, fun ys g hg => ?_, fun m' hm' hreg' => ?_⟩
  · rcases h.folder with h0 | ⟨a, ha⟩
    · exact .inl h0
    · have hinto := helse (Ne.symm hxs)
      rw [List.append_nil] at hinto
      exact .inr ⟨a, hinto.trans ha⟩
  · by_cases heq : ys = xs
    · rw [heq, hg0] at hn
      cases hn
      rfl
    · exact h.no_link ys n hys (helse heq ▸ hn)
  · by_cases heq : ys = xs
    · rw [heq, hg0] at hg
      cases hg
      exact ⟨m, by simp, hreg, heq ▸ hparts, hcontent⟩
    · obtain ⟨m', hm', hfile⟩ := h.file ys g (helse heq ▸ hg)
      exact ⟨m', List.mem_append_left [m] hm', hfile⟩
  · by_cases heq : memberParts m'.name = xs
    · exact ⟨g0, by rw [heq, hg0]⟩
    · rw [helse heq]
      rcases List.mem_append.mp hm' with hm' | hm'
      · exact h.there m' hm' hreg'
      · exact absurd (List.mem_singleton.mp hm' ▸ hparts) heq

/-- One turn of the extraction of a `.tar.gz`. -/
theorem extractOne_ok {k : Nat} (hinto : Proper into) (h : Holds into ms w.disk)
    (hrun : extractOne pol false into .whole m e w = (.ok k, w')) : Holds into (ms ++ [m]) w'.disk := by
  have hp : Proper (into ++ memberParts m.name) := proper_append.mpr ⟨hinto, memberParts_proper m.name⟩
  unfold extractOne at hrun
  obtain ⟨_, w1, hpause, hrun⟩ := Proc.bind_run_inv hrun
  rw [← pause_ok hpause] at h
  obtain ⟨target, w2, hjoin, hrun⟩ := Proc.bind_run_inv hrun
  rw [ask_run] at hjoin
  obtain ⟨hsafe, rfl⟩ := Prod.mk.inj hjoin
  obtain ⟨rfl, -⟩ := safeJoin_ok hsafe
  cases hkind : m.kind with
  | dir =>
    rw [hkind] at hrun
    obtain ⟨_, w3, hmk, hrun⟩ := Proc.bind_run_inv hrun
    cases hrun
    have hkeep := (@keeps_holds_mkdirAll e _ _ _ _ 0o755 hp (List.prefix_refl _)).state h
    obtain rfl : w' = _ := (Prod.mk.inj hmk).2.symm
    exact hkeep.more (by rw [hkind]; simp)
  | link =>
    rw [hkind] at hrun
    cases hrun
    exact h.more (by rw [hkind]; simp)
  | other =>
    rw [hkind] at hrun
    cases hrun
    exact h.more (by rw [hkind]; simp)
  | reg =>
    rw [hkind] at hrun
    obtain ⟨_, w3, hmk, hrun⟩ := Proc.bind_run_inv hrun
    have hmade := (keeps_holds_mkdirAll hp (List.dropLast_prefix _)).ok h hmk
    obtain ⟨_, w4, hwrite, hrun⟩ := Proc.bind_run_inv hrun
    cases hrun
    obtain ⟨hxs, hwrote⟩ := writeFileFrom_ok hmade hp hwrite
    exact hmade.wrote hxs hkind rfl hwrote

theorem extractEach_ok {ns : List Nat} (hinto : Proper into) (h : Holds into done w.disk)
    (hrun : Proc.each (fun t : Reading × Member => extractOne pol false into t.1 t.2)
      (ms.map fun m => (.whole, m)) e w = (.ok ns, w')) : Holds into (done ++ ms) w'.disk := by
  induction ms generalizing done w ns with
  | nil =>
    cases hrun
    rwa [List.append_nil]
  | cons m ms ih =>
    rw [List.map_cons, Proc.each] at hrun
    obtain ⟨k, w1, hone, hrun⟩ := Proc.bind_run_inv hrun
    obtain ⟨ks, w2, hrest, hrun⟩ := Proc.bind_run_inv hrun
    cases hrun
    have hnext := ih (extractOne_ok hinto h hone) hrest
    rwa [List.append_assoc] at hnext

theorem archiveDest_suffix {real : Loc} : hasSuffix ((archiveDest real).getLast?.getD "") tarGzSuffix = true := by
  unfold archiveDest
  split
  · assumption
  · have hsuffix (n : Name) : hasSuffix (n ++ tarGzSuffix) tarGzSuffix = true := by
      simp [hasSuffix, String.toList_append]
    unfold appendText
    split
    · rfl
    · rw [List.getLast?_concat]
      exact hsuffix _

theorem not_zip {n : Name} (h : hasSuffix n tarGzSuffix = true) : hasSuffix n ".zip" = false := by
  have hlast {x : Name} (hx : hasSuffix n x = true) (hne : x.toList ≠ []) :
      n.toList.getLast? = x.toList.getLast? := by
    obtain ⟨t, ht⟩ := List.isSuffixOf_iff_suffix.mp hx
    rw [← ht, List.getLast?_append_of_ne_nil _ hne]
  by_contra hzip
  have hz := hlast h (by decide)
  rw [hlast (by simpa using hzip) (by decide)] at hz
  exact absurd hz (by decide)

/-- The archive is read as what was packed. -/
theorem readArchive_ok {real : Loc} {zs : Bool × Stream} (hopen : openFile w.disk (archiveDest real) = .ok (l, f))
    (hf : f.content = c.tarGz ms) (hrun : readArchive c (archiveDest real) e w = (.ok zs, w')) :
    zs = (false, ⟨ms, .eof⟩) ∧ w'.disk = w.disk := by
  unfold readArchive at hrun
  simp only [not_zip archiveDest_suffix, Bool.false_or, Bool.false_eq_true, if_false] at hrun
  split at hrun
  · obtain ⟨f', w1, hread, hrun⟩ := Proc.bind_run_inv hrun
    have hdisk := readFile_disk hread
    unfold readFile at hread
    rw [hopen] at hread
    dsimp only at hread
    split at hread
    · cases hread
    · cases hread
      rw [hf, c.untarGz_tarGz] at hrun
      cases hrun
      exact ⟨rfl, hdisk⟩
  · cases hrun

theorem fsExtract_ok {i : ExtractArgs} {src : Loc} (h : fsExtract pol i e w = (.ok (src, into), w')) :
    w' = w ∧ check pol w.disk i.dest true = .ok into := by
  unfold fsExtract checked at h
  obtain ⟨src', w1, hsrc, h⟩ := Proc.bind_run_inv h
  rw [ask_run] at hsrc
  obtain ⟨-, rfl⟩ := Prod.mk.inj hsrc
  obtain ⟨into', w2, hinto, h⟩ := Proc.bind_run_inv h
  rw [ask_run] at hinto
  obtain ⟨hcheck, rfl⟩ := Prod.mk.inj hinto
  cases h
  exact ⟨rfl, hcheck⟩

/-- What a job of `fs.extract` that ended well left in a folder that was empty. -/
theorem extractJob_ok {real : Loc} {k : Nat} (hinto : Proper into) (hdir : w.disk.IsDirAt into)
    (hempty : w.disk.names into = []) (hopen : openFile w.disk (archiveDest real) = .ok (l, f))
    (hf : f.content = c.tarGz ms) (hrun : extractJob c pol (archiveDest real) into e w = (.ok k, w')) :
    Holds into ms w'.disk := by
  have hmk : mkdirAll into 0o755 e w = (.ok (), w) := mkdirAllRev_there (by simpa using hinto) (by simpa using hdir)
  unfold extractJob openArchive at hrun
  obtain ⟨zs, w1, hread, hrun⟩ := Proc.bind_run_inv hrun
  rw [Proc.bind_run_ok hmk] at hread
  obtain ⟨rfl, hdisk⟩ := readArchive_ok hopen hf hread
  have hstart : Holds into [] w1.disk := by
    rw [hdisk]
    exact holds_empty hdir hempty
  unfold extractAll at hrun
  obtain ⟨ns, w2, heach, hrun⟩ := Proc.bind_run_inv hrun
  rw [if_neg (by simp)] at hrun
  cases hrun
  unfold Stream.turns at heach
  rw [List.append_nil] at heach
  exact extractEach_ok hinto hstart heach

/-! ## What is kept -/

/-- What is below the folder of the extraction at the end: the files of the archive. -/
theorem Trip.holds (t : Trip c pol) : ∃ ms, Holds t.into ms t.after.disk ∧
    ∀ m, m ∈ ms ∧ m.kind = .reg ↔ ∃ src q f, Selected t.before t.srcs src q f ∧
      Reached t.env.blocked t.before src q ∧ m = fileMember src q f := by
  obtain ⟨ms, g, hg, hcontent, hms⟩ := t.members
  obtain ⟨l, f, hopen, hf⟩ := t.kept _ _ hg
  obtain ⟨-, -, -, real, hreal⟩ := fsArchive_ok t.accepted
  obtain ⟨hlater, hcheck⟩ := fsExtract_ok t.checked
  have hinto : Proper t.into := (check_ok hcheck).1.1
  have hrun := t.extracted
  rw [hreal] at hopen hrun
  rw [hlater] at hrun
  exact ⟨ms, extractJob_ok hinto t.folder t.empty hopen (hf.trans hcontent) hrun, hms⟩

/-- After a trip the selected files are all there, each with its bytes and in a place
of its own, exactly when the selection was clear. -/
theorem kept_iff (t : Trip c pol) : t.Kept ↔ t.Clear := by
  obtain ⟨ms, hheld, hms⟩ := t.holds
  -- A file below the folder is that of a selected file with its path.
  have hback : ∀ xs g, t.after.disk.get (t.into ++ xs) = some (.file g) → ∃ src q f,
      Selected t.before t.srcs src q f ∧ Reached t.env.blocked t.before src q ∧ relative src q = xs ∧
        g.content = f.content.take maxMember := by
    intro xs g hg
    obtain ⟨m, hm, hreg, hparts, hcontent⟩ := hheld.file xs g hg
    obtain ⟨src, q, f, hsel, hreach, rfl⟩ := (hms m).mp ⟨hm, hreg⟩
    rw [memberParts_file hsel.2.1 hsel.2.2] at hparts
    exact ⟨src, q, f, hsel, hreach, hparts, hcontent⟩
  constructor
  · rintro ⟨hfound, honly⟩
    have hapart : ∀ src src' q q' f f', Selected t.before t.srcs src q f → Selected t.before t.srcs src' q' f' →
        relative src q = relative src' q' → q = q' := by
      intro src src' q q' f f' hsel hsel' hrel
      obtain ⟨g, hg, -⟩ := hfound src q f hsel
      exact honly q q' _ ⟨src, f, g, hsel, rfl, hg⟩ ⟨src', f', g, hsel', by rw [hrel], hg⟩
    refine ⟨fun src q f hsel => ?_, hapart, fun src q f hsel => ?_⟩
    · obtain ⟨g, hg, -⟩ := hfound src q f hsel
      obtain ⟨src', q', f', hsel', hreach, hrel, -⟩ := hback _ g hg
      obtain rfl := hapart _ _ _ _ _ _ hsel' hsel hrel
      refine ⟨src', hsel'.1, ?_, hreach⟩
      have hpath := (append_relative hsel'.2.1).trans (append_relative hsel.2.1).symm
      rw [hrel] at hpath
      exact List.append_cancel_right hpath
    · obtain ⟨g, hg, hbytes⟩ := hfound src q f hsel
      obtain ⟨src', q', f', hsel', -, hrel, hcontent⟩ := hback _ g hg
      obtain rfl := hapart _ _ _ _ _ _ hsel' hsel hrel
      obtain rfl : f' = f := by
        have hsame := hsel'.2.2.symm.trans hsel.2.2
        cases hsame
        rfl
      rw [← hbytes, hcontent]
      exact List.length_take_le maxMember f'.content
  · intro hclear
    refine ⟨fun src q f hsel => ?_, ?_⟩
    · obtain ⟨src', hsrc', hdrop, hreach⟩ := hclear.reached src q f hsel
      have hsel' : Selected t.before t.srcs src' q f := ⟨hsrc', hreach.1, hsel.2.2⟩
      have hrel : relative src' q = relative src q := by
        unfold relative
        rw [hdrop]
      obtain ⟨hm, hreg⟩ := (hms (fileMember src' q f)).mpr ⟨src', q, f, hsel', hreach, rfl⟩
      obtain ⟨g, hg⟩ := hheld.there _ hm hreg
      rw [memberParts_file hsel'.2.1 hsel'.2.2, hrel] at hg
      refine ⟨g, hg, ?_⟩
      obtain ⟨src'', q', f', hsel'', -, hrel', hcontent⟩ := hback _ g hg
      obtain rfl := hclear.apart _ _ _ _ _ _ hsel'' hsel hrel'
      obtain rfl : f' = f := by
        have hsame := hsel''.2.2.symm.trans hsel.2.2
        cases hsame
        rfl
      rw [hcontent, List.take_of_length_le (hclear.short _ _ _ hsel)]
    · rintro q q' l ⟨src, f, g, hsel, hl, -⟩ ⟨src', f', g', hsel', hl', -⟩
      exact hclear.apart _ _ _ _ _ _ hsel hsel' (List.append_cancel_left (hl.symm.trans hl'))

/-! ## Two files of one name -/

def leaf (b : UInt8) : Node := .file ⟨[b], 0, ⟨0o644, 0, 0⟩, false⟩

def folder : Node := .dir ⟨0o755, 0, 0⟩

/-- A site with two folders, and a file of the same name in each. -/
def twinDisk : Disk :=
  [(["var", "www", "a"], folder), (["var", "www", "b"], folder), (["var", "www", "out"], folder),
    (["var", "www", "a", "x"], leaf 1), (["var", "www", "b", "x"], leaf 2)].foldl
    (fun d x => d.put x.1 x.2) confinement.webDisk

example : twinDisk.names ["var", "www", "out"] = [] := by decide +kernel

def twins : List Member := [⟨"x", .reg, 0o644, [1]⟩, ⟨"x", .reg, 0o644, [2]⟩]

/-- A format with a short archive for the two files. -/
def twinCodec : Codec where
  tarGz ms := if ms = twins then [1] else countedCodec.tarGz ms
  untarGz b := if b = [1] then some ⟨twins, .eof⟩ else countedCodec.untarGz b
  unzip := countedCodec.unzip
  untarGz_tarGz ms := by
    by_cases h : ms = twins
    · rw [if_pos h, if_pos rfl, h]
    · have hzeros : countedCodec.tarGz ms ≠ [1] := by
        intro hone
        have hmem : (1 : UInt8) ∈ countedCodec.tarGz ms := by
          rw [hone]
          exact List.mem_singleton_self 1
        exact absurd (List.eq_of_mem_replicate hmem) (by decide)
      rw [if_neg h, if_neg hzeros, countedCodec.untarGz_tarGz]

def twinArgs : ArchiveArgs := ⟨["/var/www/a/x", "/var/www/b/x"], "/var/www/all"⟩

def twinPaths : List Loc := [["var", "www", "a", "x"], ["var", "www", "b", "x"]]

def twinArchive : Loc := ["var", "www", "all.tar.gz"]

def twinRequest : ExtractArgs := ⟨"/var/www/all.tar.gz", "/var/www/out"⟩

/-- The agent when the two files are selected, archived, asked for, and extracted. -/
def twinAsked : World := (fsArchive confinement.webPolicy twinArgs (calm 0 []) (World.start twinDisk)).2

def twinPacked : World := (archiveJob twinCodec twinPaths twinArchive (calm 0 []) twinAsked).2

def twinAdmitted : World := (fsExtract confinement.webPolicy twinRequest (calm 0 []) twinPacked).2

def twinAfter : World :=
  (extractJob twinCodec confinement.webPolicy twinArchive ["var", "www", "out"] (calm 0 []) twinAdmitted).2

theorem run_eq {α : Type} {r : Except GoError α × World} {a : α} (h : r.1 = .ok a) : r = (.ok a, r.2) :=
  Prod.ext h rfl

/-- What the two requests and their jobs answer, and what the site holds. -/
theorem twin_runs :
    (fsArchive confinement.webPolicy twinArgs (calm 0 []) (World.start twinDisk)).1 =
      .ok (twinPaths, twinArchive) ∧
    (archiveJob twinCodec twinPaths twinArchive (calm 0 []) twinAsked).1 = .ok (twinArchive, 1) ∧
    (fsExtract confinement.webPolicy twinRequest (calm 0 []) twinPacked).1 =
      .ok (twinArchive, ["var", "www", "out"]) ∧
    (extractJob twinCodec confinement.webPolicy twinArchive ["var", "www", "out"] (calm 0 []) twinAdmitted).1 =
      .ok 2 ∧
    (twinPacked.disk.IsDirAt ["var", "www", "out"] ∧ twinPacked.disk.names ["var", "www", "out"] = []) ∧
    (∀ src ∈ twinPaths, twinDisk.below src = [src]) ∧
    (∀ src ∈ twinPaths, ∀ n ∈ twinDisk.get src, n.isFile = true ∧ deniedLexical src = false) ∧
    twinDisk.get ["var", "www", "a", "x"] = some (leaf 1) ∧
    twinDisk.get ["var", "www", "b", "x"] = some (leaf 2) := by decide +kernel

theorem twin_accepted : fsArchive confinement.webPolicy twinArgs (calm 0 []) (World.start twinDisk) =
    (.ok (twinPaths, twinArchive), twinAsked) := by
  unfold twinAsked
  exact run_eq twin_runs.1

theorem twin_archived : archiveJob twinCodec twinPaths twinArchive (calm 0 []) twinAsked =
    (.ok (twinArchive, 1), twinPacked) := by
  unfold twinPacked
  exact run_eq twin_runs.2.1

theorem twin_checked : fsExtract confinement.webPolicy twinRequest (calm 0 []) twinPacked =
    (.ok (twinArchive, ["var", "www", "out"]), twinAdmitted) := by
  unfold twinAdmitted
  exact run_eq twin_runs.2.2.1

theorem twin_extracted :
    extractJob twinCodec confinement.webPolicy twinArchive ["var", "www", "out"] (calm 0 []) twinAdmitted =
      (.ok 2, twinAfter) := by
  unfold twinAfter
  exact run_eq twin_runs.2.2.2.1

theorem twin_folder : twinPacked.disk.IsDirAt ["var", "www", "out"] ∧
    twinPacked.disk.names ["var", "www", "out"] = [] := twin_runs.2.2.2.2.1

theorem twin_ordinary : ∀ src ∈ twinPaths, ∀ q n, src <+: q → twinDisk.get q = some n →
    (n.isFile = true ∨ n.isDir = true) ∧ deniedLexical q = false := by
  obtain ⟨-, -, -, -, -, hbelow, hfiles, -⟩ := twin_runs
  intro src hsrc q n hpre hq
  have hmem : q ∈ twinDisk.below src := Disk.mem_below.mpr ⟨hpre, by rw [hq]; rfl⟩
  rw [hbelow src hsrc] at hmem
  obtain rfl := List.mem_singleton.mp hmem
  obtain ⟨hfile, hden⟩ := hfiles q hsrc n hq
  exact ⟨.inl hfile, hden⟩

def twinTrip : Trip twinCodec confinement.webPolicy where
  env := calm 0 []
  before := twinDisk
  args := twinArgs
  srcs := twinPaths
  dest := twinArchive
  asked := twinAsked
  accepted := twin_accepted
  ordinary := twin_ordinary
  size := 1
  packed := twinPacked
  archived := twin_archived
  later := twinPacked
  kept l f h := ⟨l, f, h, rfl⟩
  env' := calm 0 []
  request := twinRequest
  into := ["var", "www", "out"]
  admitted := twinAdmitted
  checked := twin_checked
  folder := twin_folder.1
  empty := twin_folder.2
  count := 2
  after := twinAfter
  extracted := twin_extracted

/-- Two files of one name, from two folders: both jobs are done, and one file is left. -/
theorem twins_clash : ¬ ∀ c pol (t : Trip c pol), t.Kept := by
  intro h
  obtain ⟨hfound, honly⟩ := h _ _ twinTrip
  obtain ⟨-, -, -, -, -, -, -, hleaf, hleaf'⟩ := twin_runs
  have hfirst : Selected twinDisk twinPaths ["var", "www", "a", "x"] ["var", "www", "a", "x"]
      ⟨[1], 0, ⟨0o644, 0, 0⟩, false⟩ := ⟨by simp [twinPaths], List.prefix_refl _, hleaf⟩
  have hsecond : Selected twinDisk twinPaths ["var", "www", "b", "x"] ["var", "www", "b", "x"]
      ⟨[2], 0, ⟨0o644, 0, 0⟩, false⟩ := ⟨by simp [twinPaths], List.prefix_refl _, hleaf'⟩
  obtain ⟨g, hg, -⟩ := hfound _ _ _ hfirst
  have hsame := honly _ _ _ ⟨_, _, g, hfirst, rfl, hg⟩ ⟨_, _, g, hsecond, rfl, hg⟩
  exact absurd hsame (by decide)

end icsd_panel.round_trips

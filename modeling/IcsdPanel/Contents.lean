-- What is in the archive of a backup that ended well: the folder, and every
-- file below it that the walk of `writeTarGz` reaches. What cannot be looked
-- at or listed is left out without a word, the folder itself too.
import IcsdPanel.Denied

open effects

namespace icsd_panel.contents

open paths disk machine policy files archives deeds

variable {c : Codec} {d d' : Disk} {e : Env} {w w' : World} {base l p q r src : Loc} {n : Node}
  {blocked : Access → Loc → Bool} {prune : Loc → Bool} {dest : CleanPath} {exclude : List Loc}

/-! ## What the walk reaches -/

/-- The walk from `src` gets to `q`: all on the way can be looked at, and its
directories can be listed. -/
def Reached (blocked : Access → Loc → Bool) (d : Disk) (src q : Loc) : Prop :=
  src <+: q ∧ ∀ r, src <+: r → r <+: q →
    blocked .stat r = false ∧ (d.IsDirAt r → blocked .list r = false)

/-- The same of the way below `p` alone. -/
def Open (blocked : Access → Loc → Bool) (prune : Loc → Bool) (d : Disk) (p r : Loc) : Prop :=
  ∀ s, s <+: r → prune (p ++ s) = false ∧ (s ≠ [] → blocked .stat (p ++ s) = false) ∧
    (d.IsDirAt (p ++ s) → blocked .list (p ++ s) = false)

theorem Open.below {x : Name} (h : Open blocked prune d p (x :: r)) :
    Open blocked prune d (p ++ [x]) r := by
  intro s hs
  have := h (x :: s) (List.cons_prefix_cons.mpr ⟨rfl, hs⟩)
  rw [List.append_assoc, List.singleton_append]
  exact ⟨this.1, fun _ => this.2.1 (by simp), this.2.2⟩

theorem mem_sortedNames {x : Name} : x ∈ sortedNames d l ↔ x ∈ d.names l := by
  simp [sortedNames, List.mem_insertionSort]

/-- A walk with fuel for all the names of a place shows it, when its way is
open. -/
theorem walkFrom_shows {k : Nat} (hp : d.look p = some n) (hq : d.look (p ++ r) = some m)
    (hk : r.length < k) (h : Open blocked prune d p r) :
    (p ++ r, m) ∈ walkFrom blocked prune d k p n := by
  induction r generalizing p n k with
  | nil =>
    rw [List.append_nil] at hq ⊢
    rw [hp] at hq
    cases hq
    obtain ⟨k, rfl⟩ : ∃ j, k = j + 1 := ⟨k - 1, by simp at hk; omega⟩
    obtain ⟨hprune, _, hlist⟩ := h [] (List.prefix_refl [])
    rw [List.append_nil] at hprune hlist
    unfold walkFrom
    rw [hprune]
    by_cases hdir : m.isDir = true
    · have hat := Disk.look_isDirAt hp hdir
      simp [hdir, dirAt_plain (Disk.look_proper hp) hat, hlist hat]
    · simp [hdir]
  | cons x r ih =>
    obtain ⟨k, rfl⟩ : ∃ j, k = j + 1 := ⟨k - 1, by simp at hk; omega⟩
    obtain ⟨hprune, _, hlist⟩ := h [] List.nil_prefix
    rw [List.append_nil] at hprune hlist
    have hget : d.get (p ++ x :: r) = some m := by
      simpa [Disk.look] using hq
    have hat : d.IsDirAt p := Disk.isDirAt_of_below (r := x :: r) (by simp) (by rw [hget]; rfl)
    have hdir : n.isDir = true := by
      rcases hat with rfl | ⟨a, ha⟩
      · simp only [Disk.look, if_true, Option.some.injEq] at hp
        rw [← hp]
        rfl
      · rw [Disk.look, if_neg (Disk.get_ne_nil ha), ha, Option.some.injEq] at hp
        rw [← hp]
        rfl
    rw [List.append_cons] at hget hq ⊢
    -- The next name on the way is there: it is the place itself, or above it.
    obtain ⟨n', hn'⟩ : ∃ n', d.get (p ++ [x]) = some n' := by
      by_cases hr : r = []
      · rw [hr, List.append_nil] at hget
        exact ⟨m, hget⟩
      · rcases Disk.isDirAt_of_below hr (by rw [hget]; rfl) with h0 | ⟨a, ha⟩
        · simp at h0
        · exact ⟨_, ha⟩
    have hlook : d.look (p ++ [x]) = some n' := by simp [Disk.look, hn']
    have hname : x ∈ sortedNames d p := by
      rw [mem_sortedNames, Disk.mem_names, hn']
      rfl
    have hstat : blocked .stat (p ++ [x]) = false :=
      (h [x] (List.cons_prefix_cons.mpr ⟨rfl, List.nil_prefix⟩)).2.1 (by simp)
    have hrest := ih hlook hq (by simpa using hk) h.below
    unfold walkFrom
    rw [hprune, hdir, dirAt_plain (Disk.look_proper hp) hat]
    simp only [Bool.false_eq_true, if_false, if_true, hlist hat]
    refine List.mem_cons_of_mem _ (List.mem_flatMap.mpr ⟨x, hname, ?_⟩)
    simp only [lstat_plain hlook, hstat, Bool.false_eq_true, if_false]
    exact hrest

theorem reached_self (hp : d.look p = some n) (hstat : blocked .stat p = false)
    (hlist : n.isDir = true → blocked .list p = false) : Reached blocked d p p := by
  refine ⟨List.prefix_refl p, fun r hpr hrp => ?_⟩
  obtain rfl := hpr.eq_of_length_le hrp.length_le
  refine ⟨hstat, fun hdir => hlist ?_⟩
  rcases hdir with rfl | ⟨a, ha⟩
  · cases hp
    rfl
  · rw [Disk.look, if_neg (Disk.get_ne_nil ha), ha] at hp
    cases hp
    rfl

theorem Reached.above {x : Name} (hq : Reached blocked d (p ++ [x]) q)
    (hp : Reached blocked d p p) : Reached blocked d p q := by
  refine ⟨(List.prefix_append p [x]).trans hq.1, fun r hpr hrq => ?_⟩
  rcases List.prefix_or_prefix_of_prefix hrq hq.1 with h | h
  · rcases prefix_concat_iff.mp h with rfl | h
    · exact hq.2 _ (List.prefix_refl _) hrq
    · exact hp.2 r hpr h
  · exact hq.2 r h hrq

/-- A walk shows only what it reaches. -/
theorem walkFrom_reached {k : Nat} (hp : d.look p = some n) (hstat : blocked .stat p = false)
    (h : (q, m) ∈ walkFrom blocked prune d k p n) : Reached blocked d p q := by
  induction k generalizing p n with
  | zero => simp [walkFrom] at h
  | succ k ih =>
    unfold walkFrom at h
    split at h
    · simp at h
    · split at h
      · rename_i hdir
        have hat := Disk.look_isDirAt hp hdir
        rw [dirAt_plain (Disk.look_proper hp) hat] at h
        simp only at h
        split at h
        · simp at h
        · rename_i hlist
          have hself : Reached blocked d p p :=
            reached_self hp hstat fun _ => by simpa using hlist
          rcases List.mem_cons.mp h with h | h
          · cases h
            exact hself
          · obtain ⟨x, hx, hmem⟩ := List.mem_flatMap.mp h
            rw [mem_sortedNames, Disk.mem_names] at hx
            obtain ⟨n', hn'⟩ := Option.isSome_iff_exists.mp hx
            have hlook : d.look (p ++ [x]) = some n' := by simp [Disk.look, hn']
            rw [lstat_plain hlook] at hmem
            simp only at hmem
            split at hmem
            · simp at hmem
            · rename_i hx
              exact (ih hlook (by simpa using hx) hmem).above hself
      · rename_i hdir
        simp only [List.mem_singleton] at h
        cases h
        exact reached_self hp hstat fun h => absurd h hdir

theorem lt_depth (h : d.get q = some n) : q.length < depth d := by
  have hmem : q ∈ d.tree.known := d.tree.covers q (by rw [← Disk.get, h]; rfl)
  unfold depth
  generalize d.tree.known = known at hmem
  induction known with
  | nil => cases hmem
  | cons l ls ih =>
    rw [List.foldr_cons]
    rcases List.mem_cons.mp hmem with rfl | hmem
    · omega
    · have := ih hmem
      omega

theorem pos_depth : 0 < depth d := by
  unfold depth
  induction d.tree.known with
  | nil => simp
  | cons l ls ih =>
    rw [List.foldr_cons]
    omega

/-- What a path is past, all above it is past. -/
theorem skipped_above (h : skipped exclude q = false) (hr : r <+: q) :
    skipped exclude r = false := by
  simp only [skipped, Bool.or_eq_false_iff, List.any_eq_false, within_iff] at h ⊢
  exact ⟨denied.allowed_above hr h.1, fun x hx hxr => h.2 x hx (hxr.trans hr)⟩

/-- What is reached and not skipped is packed. -/
theorem mem_visits_of (hq : d.look q = some m) (hreach : Reached blocked d src q)
    (hskip : skipped exclude q = false) (hdest : ⟨true, q⟩ ≠ dest) :
    (q, m) ∈ visits blocked dest exclude d src := by
  obtain ⟨⟨r, rfl⟩, hway⟩ := hreach
  unfold visits
  refine List.mem_filter.mpr ⟨?_, by simpa using hdest⟩
  obtain ⟨n, hn⟩ : ∃ n, d.look src = some n := by
    by_cases hr : r = []
    · rw [hr, List.append_nil] at hq
      exact ⟨m, hq⟩
    · rw [Disk.look, if_neg (by simp [hr])] at hq
      rcases Disk.isDirAt_of_below hr (by rw [hq]; rfl) with rfl | ⟨a, ha⟩
      · exact ⟨_, rfl⟩
      · exact ⟨.dir a, by rw [Disk.look, if_neg (Disk.get_ne_nil ha), ha]⟩
  have hfuel : r.length < depth d := by
    by_cases hr : r = []
    · rw [hr]
      exact pos_depth
    · rw [Disk.look, if_neg (by simp [hr])] at hq
      have := lt_depth hq
      simp only [List.length_append] at this
      omega
  unfold walkTree
  rw [lstat_plain hn]
  simp only [(hway src (List.prefix_refl _) (List.prefix_append _ _)).1, Bool.false_eq_true, if_false]
  refine walkFrom_shows hn hq hfuel fun s hs => ?_
  have hpre : src ++ s <+: src ++ r := (List.prefix_append_right_inj src).mpr hs
  obtain ⟨hstat, hlist⟩ := hway (src ++ s) (List.prefix_append _ _) hpre
  exact ⟨skipped_above hskip hpre, fun _ => hstat, hlist⟩

/-- What is packed of a folder that is there was reached. -/
theorem mem_visits_reached (hsrc : d.look src = some n)
    (h : (q, m) ∈ visits blocked dest exclude d src) :
    d.look q = some m ∧ Reached blocked d src q := by
  obtain ⟨h, _⟩ := List.mem_filter.mp h
  unfold walkTree at h
  rw [lstat_plain hsrc] at h
  simp only at h
  split at h
  · simp at h
  · rename_i hstat
    exact ⟨(mem_walkFrom hsrc h).1, walkFrom_reached hsrc (by simpa using hstat) h⟩

/-! ## What is packed -/

theorem pause_ok (h : pause e w = (.ok (), w')) : w'.disk = w.disk := by
  have hkeep : Proc.Keeps e (fun v => v.disk = w.disk) pause := triple_pause fun v hv => hv
  exact hkeep.ok rfl h

theorem readFile_disk {r : Except GoError FileData} (h : readFile p e w = (r, w')) : w'.disk = w.disk := by
  unfold readFile at h
  split at h
  · cases h
    rfl
  · split at h <;> cases h <;> rfl

theorem isFile_of_memberOf {m : Member} (h : memberOf base q n = some m) (hreg : m.kind = .reg) :
    n.isFile = true := by
  cases n with
  | file f => rfl
  | dir a =>
    cases h
    cases hreg
  | link t =>
    cases h
    cases hreg
  | other socket a =>
    cases socket <;> cases h
    cases hreg

/-- A node that is packed adds its member, if it has one. -/
theorem packOne_ok {t t' : Tar} (h : packOne base t p n e w = (.ok t', w')) :
    t'.members = t.members ++ (memberOf base p n).toList ∧ w'.disk = w.disk := by
  unfold packOne at h
  obtain ⟨_, w1, hpause, h⟩ := Proc.bind_run_inv h
  rw [← pause_ok hpause]
  cases hm : memberOf base p n with
  | none =>
    rw [hm] at h
    cases h
    simp
  | some m =>
    rw [hm] at h
    simp only at h
    split at h
    · cases h
    · cases n with
      | file f =>
        obtain ⟨r, w2, hread, h⟩ := Proc.bind_run_inv h
        have hdisk : w2.disk = w1.disk := readFile_disk (p := p) (r := (readFile p e w1).1) (by
          cases hread
          rfl)
        cases r with
        | error er =>
          cases h
          exact ⟨rfl, hdisk⟩
        | ok f' =>
          obtain ⟨_, w3, hclose, h⟩ := Proc.bind_run_inv h
          cases h
          exact ⟨rfl, (pause_ok hclose).trans hdisk⟩
      | dir a =>
        cases h
        exact ⟨rfl, rfl⟩
      | link t =>
        cases h
        exact ⟨rfl, rfl⟩
      | other socket a =>
        cases h
        exact ⟨rfl, rfl⟩

theorem packAll_ok {t t' : Tar} {vs : List (Loc × Node)}
    (h : packAll base t vs e w = (.ok t', w')) :
    t'.members = t.members ++ vs.filterMap (fun v => memberOf base v.1 v.2) ∧
      w'.disk = w.disk := by
  induction vs generalizing t w with
  | nil =>
    cases h
    simp
  | cons v vs ih =>
    obtain ⟨t1, w1, hone, hall⟩ := Proc.bind_run_inv h
    obtain ⟨hmem, hdisk⟩ := packOne_ok hone
    obtain ⟨hmems, hdisks⟩ := ih hall
    refine ⟨?_, hdisks.trans hdisk⟩
    rw [hmems, hmem, List.append_assoc]
    congr 1
    cases hv : memberOf base v.1 v.2 <;> simp [hv]

/-- What a job that ended well packed of its one source. -/
def packedMembers (blocked : Access → Loc → Bool) (dest : CleanPath) (exclude : List Loc) (d : Disk)
    (src : Loc) : List Member :=
  (visits blocked dest exclude d src).filterMap fun v => memberOf src.dropLast v.1 v.2

theorem packSources_ok {t t' : Tar} {srcs : List Loc}
    (h : packSources dest exclude t srcs e w = (.ok t', w')) :
    t'.members = t.members ++ srcs.flatMap (packedMembers e.blocked dest exclude w.disk) ∧
      w'.disk = w.disk := by
  induction srcs generalizing t w with
  | nil =>
    cases h
    simp
  | cons src srcs ih =>
    unfold packSources at h
    rw [askEnv_bind] at h
    obtain ⟨t1, w1, hall, h⟩ := Proc.bind_run_inv h
    obtain ⟨hmem, hdisk⟩ := packAll_ok hall
    obtain ⟨hmems, hdisks⟩ := ih h
    refine ⟨?_, hdisks.trans hdisk⟩
    rw [hmems, hmem, hdisk, List.flatMap_cons, List.append_assoc]
    rfl

theorem createDest_ok (h : createDest p e w = (.ok l, w')) :
    entryAt w.disk p = .ok l ∧ w.disk.get l = none ∧
      ∃ f, f.content = [] ∧ w'.disk = w.disk.put l (.file f) := by
  have hrule : Proc.Triple e (· = w) (createDest p) (fun l w' => entryAt w.disk p = .ok l ∧
      w.disk.get l = none ∧ ∃ f : FileData, f.content = [] ∧ w'.disk = w.disk.put l (.file f))
      (fun _ => True) := by
    refine triple_act (fun luck v ch hv hc => ?_) fun _ _ => trivial
    subst hv
    obtain ⟨he, hn, hdeed⟩ := createExcl_ok hc
    rw [hdeed, did_disk]
    exact ⟨he, hn, _, rfl, rfl⟩
  exact hrule.ok rfl h

/-- A write that ended well, into an empty file. -/
theorem writeAt_ok {data : Bytes} {f : FileData} (hf : w.disk.get l = some (.file f))
    (hempty : f.content = []) (h : writeAt l 0 data e w = (.ok (), w')) :
    ∃ g, g.content = data ∧ w'.disk.get l = some (.file g) ∧ ∀ q, q ≠ l → w'.disk.get q = w.disk.get q := by
  unfold writeAt at h
  rw [if_neg (by omega)] at h
  split at h
  · rename_i hdata
    cases h
    exact ⟨f, hempty.trans hdata.symm, hf, fun _ _ => rfl⟩
  · rename_i hdata
    unfold call at h
    cases hfault : (e.luck w.calls).fault with
    | some k =>
      simp only [hfault, Prod.mk.injEq, reduceCtorEq, false_and] at h
    | none =>
      simp only [hfault, putBytes, hdata, if_false, updateFile, hf, outcome, Prod.mk.injEq] at h
      obtain ⟨_, rfl⟩ := h
      refine ⟨⟨overlay f.content 0 data, (e.luck w.calls).now, f.attr, true⟩, ?_, ?_, fun q hq => ?_⟩
      · simp [overlay, hdata, hempty]
      · rw [did_disk]
        exact Disk.get_put_self (fits_over hf (by simp [Node.isDir]))
      · rw [did_disk]
        exact Disk.get_put_ne hq

/-- What a run of `writeTarGz` that ended well left: its archive, and all else
as it was. -/
theorem writeTarGz_ok {size : Nat} {srcs : List Loc}
    (h : writeTarGz c p dest srcs exclude e w = (.ok size, w')) :
    ∃ l w1 g, createDest p e w = (.ok l, w1) ∧ entryAt w.disk p = .ok l ∧ OneMore w.disk l w1.disk ∧
      OneMore w.disk l w'.disk ∧ w'.disk.get l = some (.file g) ∧
      g.content = c.tarGz (srcs.flatMap (packedMembers e.blocked dest exclude w1.disk)) := by
  unfold writeTarGz at h
  obtain ⟨l, w1, hcreate, h⟩ := Proc.bind_run_inv h
  obtain ⟨he, hn, f, hempty, hdisk1⟩ := createDest_ok hcreate
  have hone : OneMore w.disk l w1.disk := hdisk1 ▸ oneMore_new he hn
  obtain ⟨t, w2, hpack, h⟩ := Proc.bind_run_inv h
  obtain ⟨hmem, hdisk2⟩ := packSources_ok hpack
  split at h
  · cases h
  obtain ⟨_, w3, hwrite, h⟩ := Proc.bind_run_inv h
  have hf : w2.disk.get l = some (.file f) := by
    rw [hdisk2, hdisk1]
    exact Disk.get_put_self (fits_new he hn)
  obtain ⟨g, hg, hget, hrest⟩ := writeAt_ok hf hempty hwrite
  obtain ⟨_, w4, hclose, h⟩ := Proc.bind_run_inv h
  have hdisk4 : w'.disk = w3.disk := by
    obtain ⟨r, w5, hstat, h⟩ := Proc.bind_run_inv h
    have hdisk5 : w5 = w4 := (Prod.mk.inj hstat).2.symm
    rw [← pause_ok hclose, ← hdisk5]
    split at h <;> cases h <;> rfl
  refine ⟨l, w1, g, hcreate, he, hone, ?_, hdisk4 ▸ hget, by rw [hg, hmem, List.nil_append]⟩
  rw [hdisk4]
  refine ⟨hn, ⟨g, hget⟩, fun q hq => ?_⟩
  rw [hrest q hq, hdisk2, hone.2.2 q hq]

/-! ## What the archive holds -/

/-- The archive at `p` has the entry `n` of the place `q`, under its name below
`base`. -/
def Archived (c : Codec) (d : Disk) (p base q : Loc) (n : Node) : Prop :=
  ∃ l f s m, entryAt d p = .ok l ∧ d.get l = some (.file f) ∧ c.untarGz f.content = some s ∧
    s.ending = .eof ∧ memberOf base q n = some m ∧ m ∈ s.members

/-- The archive of a job of `backup.run` that ended well. -/
theorem backupJob_ok {b : BackupPlan} {v : CleanPath × Nat}
    (h : backupJob c b e (World.start d) = (.ok v, w)) :
    v.1 = b.file ∧ ∃ l d1 g, entryAt d (place e.cwd b.file) = .ok l ∧ OneMore d l d1 ∧
      OneMore d l w.disk ∧ w.disk.get l = some (.file g) ∧
      g.content = c.tarGz (packedMembers e.blocked b.file b.exclude d1 b.src) := by
  unfold backupJob at h
  rw [askEnv_bind, askEnv_bind] at h
  obtain ⟨_, w1, hguard, h⟩ := Proc.bind_run_inv h
  have hw1 : w1 = World.start d := (Prod.mk.inj hguard).2.symm
  subst hw1
  obtain ⟨size, w2, hpack, h⟩ := Proc.bind_run_inv h
  cases h
  refine ⟨rfl, ?_⟩
  unfold Proc.orElseFirst at hpack
  split at hpack
  · rename_i hrun
    cases hpack
    obtain ⟨l, w1, g, -, he, hone1, hone, hg, hcontent⟩ := writeTarGz_ok hrun
    exact ⟨l, w1.disk, g, he, hone1, hone, hg, by simpa using hcontent⟩
  · cases hpack

/-- A new file changes nothing on the way to what is not new. -/
theorem OneMore.reached (h : OneMore d l d')
    (hreach : Reached blocked d src q) : Reached blocked d' src q := by
  refine ⟨hreach.1, fun r hsr hrq => ⟨(hreach.2 r hsr hrq).1, fun hdir => ?_⟩⟩
  refine (hreach.2 r hsr hrq).2 ?_
  rcases hdir with h0 | ⟨a, ha⟩
  · exact Or.inl h0
  · refine Or.inr ⟨a, ?_⟩
    rw [← h.2.2 r ?_]
    · exact ha
    · rintro rfl
      obtain ⟨_, ⟨f, hf⟩, _⟩ := h
      rw [hf] at ha
      cases ha

theorem OneMore.look (h : OneMore d l d') (hq : d.look q = some n) : d'.look q = some n := by
  unfold Disk.look at hq ⊢
  split
  · rw [if_pos ‹_›] at hq
    exact hq
  · rw [if_neg ‹_›] at hq
    rw [h.2.2 q]
    · exact hq
    · rintro rfl
      rw [h.1] at hq
      cases hq

/-- What the walk reaches, and no rule leaves out, is in the archive of a job
that ended well. -/
theorem backupJob_archives {b : BackupPlan} {v : CleanPath × Nat}
    (h : backupJob c b e (World.start d) = (.ok v, w)) (hq : d.look q = some n)
    (hm : memberOf b.src.dropLast q n = some m) (hskip : skipped b.exclude q = false)
    (hreach : Reached e.blocked d b.src q) :
    Archived c w.disk (place e.cwd b.file) b.src.dropLast q n := by
  obtain ⟨_, l, d1, g, he, hone1, hone, hg, hcontent⟩ := backupJob_ok h
  refine ⟨l, g, ⟨packedMembers e.blocked b.file b.exclude d1 b.src, .eof⟩, m,
    entryAt_grow hone.grows he, hg, by rw [hcontent, c.untarGz_tarGz], rfl, hm, ?_⟩
  refine List.mem_filterMap.mpr ⟨(q, n), ?_, hm⟩
  refine mem_visits_of (OneMore.look hone1 hq) (OneMore.reached hone1 hreach) hskip ?_
  -- The archive is new, so it is not what is packed.
  intro hdest
  rw [← hdest] at he
  simp only [place, if_true] at he
  obtain ⟨hne, hp, hdir, hqne, _⟩ := entryAt_ok he
  have hget : d.get q = some n := by
    rwa [Disk.look, if_neg hqne] at hq
  rw [entryAt_plain (Disk.get_proper hget) hqne (Disk.isDirAt_dropLast (by rw [hget]; rfl))] at he
  cases he
  rw [hone.1] at hget
  cases hget

/-- A regular file that the backup of a plan is for. -/
structure Wanted (e : Env) (d : Disk) (b : BackupPlan) (q : Loc) (f : FileData) : Prop where
  below : b.src <+: q
  there : d.get q = some (.file f)
  openable : e.blocked .open q = false
  allowed : deniedLexical q = false
  included : ∀ x ∈ b.exclude, ¬ x <+: q

theorem Wanted.not_skipped {b : BackupPlan} {f : FileData} (h : Wanted e d b q f) :
    skipped b.exclude q = false := by
  simp only [skipped, Bool.or_eq_false_iff, List.any_eq_false, within_iff]
  exact ⟨h.allowed, h.included⟩

/-- The archive of a job that ended in `done` has the folder, if it is there
and can be read, and every file that is wanted and can be reached. -/
theorem done_archives {b : BackupPlan} {v : CleanPath × Nat}
    (h : backupJob c b e (World.start d) = (.ok v, w)) :
    v.1 = b.file ∧
    (∀ a, d.look b.src = some (.dir a) → skipped b.exclude b.src = false →
      Reached e.blocked d b.src b.src →
      Archived c w.disk (place e.cwd v.1) b.src.dropLast b.src (.dir a)) ∧
    ∀ q f, Wanted e d b q f → Reached e.blocked d b.src q →
      Archived c w.disk (place e.cwd v.1) b.src.dropLast q (.file f) := by
  have hfile := (backupJob_ok h).1
  rw [hfile]
  refine ⟨rfl, fun a ha hskip hreach => ?_, fun q f hwant hreach => ?_⟩
  · exact backupJob_archives h ha rfl hskip hreach
  · refine backupJob_archives h ?_ rfl hwant.not_skipped hreach
    rw [Disk.look, if_neg (Disk.get_ne_nil hwant.there)]
    exact hwant.there

/-- A checked folder that is missing, or that cannot be looked at or listed. -/
def Unread (e : Env) (d : Disk) (src : Loc) : Prop :=
  Resolved d src ∧
    (d.look src = none ∨ e.blocked .stat src = true ∨
      d.IsDirAt src ∧ e.blocked .list src = true)

/-- Such a folder gives an archive with nothing in it. -/
theorem unread_archives_nothing {b : BackupPlan} {v : CleanPath × Nat} (hsrc : Unread e d b.src)
    (hne : entryAt d (place e.cwd b.file) ≠ .ok b.src)
    (h : backupJob c b e (World.start d) = (.ok v, w)) :
    ∃ l f, entryAt w.disk (place e.cwd v.1) = .ok l ∧ w.disk.get l = some (.file f) ∧
      c.untarGz f.content = some ⟨[], .eof⟩ := by
  obtain ⟨hfile, l, d1, g, he, hone1, hone, hg, hcontent⟩ := backupJob_ok h
  refine ⟨l, g, hfile ▸ entryAt_grow hone.grows he, hg, ?_⟩
  obtain ⟨hres, hsrc⟩ := hsrc
  have hnone : walkTree e.blocked (skipped b.exclude) d1 b.src = [] := by
    unfold walkTree
    split
    · rfl
    · rename_i q n hlstat
      obtain ⟨rfl, hlook1⟩ := hone1.lstat hres hlstat
      have hlook : d.look b.src = some n := by
        unfold Disk.look at hlook1 ⊢
        split
        · rwa [if_pos ‹_›] at hlook1
        · rw [if_neg ‹_›] at hlook1
          rw [← hone1.2.2 b.src ?_]
          · exact hlook1
          · rintro rfl
            exact hne he
      rcases hsrc with hmiss | hstat | ⟨hdir, hlist⟩
      · rw [hlook] at hmiss
        cases hmiss
      · rw [if_pos hstat]
      · split
        · rfl
        · have hdir1 := hone1.grows.isDirAt hdir
          obtain ⟨k, hk⟩ : ∃ k, depth d1 = k + 1 := ⟨depth d1 - 1, by have := pos_depth (d := d1); omega⟩
          have hn : n.isDir = true := by
            rcases hdir1 with h0 | ⟨a, ha⟩
            · rw [Disk.look, if_pos h0] at hlook1
              cases hlook1
              rfl
            · rw [Disk.look, if_neg (Disk.get_ne_nil ha), ha] at hlook1
              cases hlook1
              rfl
          rw [hk]
          unfold walkFrom
          rw [hn, dirAt_plain (Disk.look_proper hlook) hdir1]
          simp [hlist]
  have hpacked : packedMembers e.blocked b.file b.exclude d1 b.src = [] := by
    simp [packedMembers, visits, hnone]
  rw [hcontent, hpacked, c.untarGz_tarGz]

/-! ## A site with a cache -/

/-- What `backupRun` gives its job, when the backup directory is there. -/
theorem backupRun_there {pol : Policy} {i : BackupArgs} (hname : isPrefixName i.prefixName = true)
    (hp : Proper (place e.cwd pol.backupDir)) (hdir : w.disk.IsDirAt (place e.cwd pol.backupDir))
    (hcheck : check pol w.disk i.path false = .ok src) :
    backupRun pol i e w = (.ok ⟨src, excludes pol w.disk src i.exclude, CleanPath.child pol.backupDir
      (backupName i.prefixName (e.luck w.calls).stamp)⟩, w) := by
  have hmade : ensureBackupDir pol e w = (.ok (), w) := by
    unfold ensureBackupDir
    rw [askEnv_bind]
    exact mkdirAllRev_there (by rwa [List.reverse_reverse]) (by rwa [List.reverse_reverse])
  have hsrc : checked pol i.path false e w = (.ok src, w) := ask_ok hcheck
  unfold backupRun
  rw [if_pos hname, Proc.bind_run_ok hmade, Proc.bind_run_ok hsrc]
  rfl

def siteDisk : Disk :=
  (((confinement.webDisk.put ["var", "backups"] (.dir ⟨0o755, 0, 0⟩)).put
    ["var", "backups", "icsd"] (.dir ⟨0o700, 0, 0⟩)).put
    ["var", "www", "cache"] (.dir ⟨0o755, 0, 0⟩)).put
    ["var", "www", "cache", "a"] (.file ⟨[1], 0, ⟨0o644, 0, 0⟩, false⟩)

example : siteDisk.names ["var", "www", "cache"] = ["a"] := by decide +kernel

def sitePlan : BackupPlan :=
  ⟨["var", "www"], [["var", "backups", "icsd"]], ⟨true, ["var", "backups", "icsd", "p1-.tar.gz"]⟩⟩

theorem site_backupRun : backupRun confinement.webPolicy ⟨"p1", "/var/www", []⟩ (calm 0 [])
    (World.start siteDisk) = (.ok sitePlan, World.start siteDisk) := by
  have hcheck : check confinement.webPolicy siteDisk "/var/www" false = .ok ["var", "www"] := by
    decide +kernel
  have hdir : siteDisk.IsDirAt (place [] confinement.webPolicy.backupDir) := by decide +kernel
  have hexclude : excludes confinement.webPolicy siteDisk ["var", "www"] [] =
      [["var", "backups", "icsd"]] := by decide +kernel
  have hfile : CleanPath.child confinement.webPolicy.backupDir (backupName "p1" "") =
      ⟨true, ["var", "backups", "icsd", "p1-.tar.gz"]⟩ := by decide +kernel
  have hrun := @backupRun_there (calm 0 []) (World.start siteDisk) ["var", "www"]
    confinement.webPolicy ⟨"p1", "/var/www", []⟩ (by decide +kernel) (by decide +kernel) hdir hcheck
  rw [hrun, sitePlan, ← hexclude, ← hfile]
  rfl

/-- Surroundings where the directory of the cache cannot be listed. -/
def cacheUnlisted : Env :=
  { calm 0 [] with blocked := fun a l => a = .list ∧ l = ["var", "www", "cache"] }

theorem isOk_run {α : Type} {x : Sys α} (h : (x e w).1.isOk = true) :
    ∃ v w', x e w = (.ok v, w') := by
  rcases hx : x e w with ⟨_ | v, w'⟩
  · rw [hx] at h
    cases h
  · exact ⟨v, w', rfl⟩

/-- The backup of the site has its folder and its file. -/
theorem site_archived : ∃ v w, backupJob countedCodec sitePlan (calm 0 []) (World.start siteDisk) =
      (.ok v, w) ∧
    Archived countedCodec w.disk (place [] v.1) ["var"] ["var", "www"] (.dir ⟨0o755, 0, 0⟩) ∧
    Archived countedCodec w.disk (place [] v.1) ["var"] ["var", "www", "cache", "a"]
      (.file ⟨[1], 0, ⟨0o644, 0, 0⟩, false⟩) := by
  obtain ⟨v, w, hrun⟩ : ∃ v w, backupJob countedCodec sitePlan (calm 0 []) (World.start siteDisk) =
    (.ok v, w) := isOk_run (by decide +kernel)
  obtain ⟨_, hfolder, hfiles⟩ := done_archives hrun
  refine ⟨v, w, hrun, hfolder _ (by decide +kernel) (by decide +kernel) ?_, hfiles _ _ ?_ ?_⟩
  · exact ⟨List.prefix_refl _, fun _ _ _ => ⟨rfl, fun _ => rfl⟩⟩
  · exact ⟨by decide, by decide +kernel, rfl, by decide +kernel, by simp [sitePlan]⟩
  · exact ⟨by decide, fun _ _ _ => ⟨rfl, fun _ => rfl⟩⟩

/-- A file in a directory that cannot be listed is left out, and the job still
ends in `done`. -/
theorem cache_left_out : ¬ ∀ c pol i e0 w0 b w1 e v w, backupRun pol i e0 w0 = (.ok b, w1) →
    backupJob c b e (World.start w1.disk) = (.ok v, w) →
    (∃ n, w1.disk.look b.src = some n ∧
      Archived c w.disk (place e.cwd v.1) b.src.dropLast b.src n) ∧
    ∀ q f, Wanted e w1.disk b q f →
      Archived c w.disk (place e.cwd v.1) b.src.dropLast q (.file f) := by
  intro h
  obtain ⟨v, w, hrun⟩ : ∃ v w, backupJob countedCodec sitePlan cacheUnlisted (World.start siteDisk) =
    (.ok v, w) := isOk_run (by decide +kernel)
  have hwant : Wanted cacheUnlisted siteDisk sitePlan ["var", "www", "cache", "a"]
      ⟨[1], 0, ⟨0o644, 0, 0⟩, false⟩ :=
    ⟨by decide, by decide +kernel, by decide, by decide +kernel, by simp [sitePlan]⟩
  obtain ⟨l, f, s, m, hl, hf, hs, _, hm, hmem⟩ := (h _ _ _ _ _ _ _ _ _ _ site_backupRun hrun).2 _ _ hwant
  obtain ⟨hfile, l', d1, g, he, hone1, hone, hg, hcontent⟩ := backupJob_ok hrun
  rw [hfile, entryAt_grow hone.grows he] at hl
  cases hl
  rw [hg] at hf
  cases hf
  rw [hcontent, countedCodec.untarGz_tarGz] at hs
  cases hs
  cases hm
  -- The only file below the folder is behind the list that fails.
  obtain ⟨⟨q, n⟩, hq, hqm⟩ := List.mem_filterMap.mp hmem
  have hsrc : siteDisk.look sitePlan.src = some (.dir ⟨0o755, 0, 0⟩) := by decide +kernel
  obtain ⟨hlook, hreach⟩ := mem_visits_reached (OneMore.look hone1 hsrc) hq
  have hn := isFile_of_memberOf hqm rfl
  obtain ⟨r, rfl⟩ := hreach.1
  have hl : sitePlan.src ++ r ≠ l := by
    rintro rfl
    have hplace : entryAt siteDisk (place [] sitePlan.file) = 
        .ok ["var", "backups", "icsd", "p1-.tar.gz"] := by decide +kernel
    rw [show cacheUnlisted.cwd = [] from rfl, hplace] at he
    simp [sitePlan] at he
  have hget : siteDisk.get (sitePlan.src ++ r) = some n := by
    rw [← hone1.2.2 _ hl]
    simpa [Disk.look, sitePlan] using hlook
  have hknown : sitePlan.src ++ r ∈ siteDisk.tree.known :=
    siteDisk.tree.covers _ (by rw [← Disk.get, hget]; rfl)
  have hall : ∀ q ∈ siteDisk.tree.known, (siteDisk.get q).any Node.isFile = true →
      q = ["var", "www", "cache", "a"] := by decide +kernel
  have hqa := hall _ hknown (by rw [hget]; exact hn)
  rw [hqa] at hreach
  have hdir : siteDisk.IsDirAt ["var", "www", "cache"] := by decide +kernel
  have := (hreach.2 ["var", "www", "cache"] (by decide) (by decide)).2 (hone1.grows.isDirAt hdir)
  exact absurd this (by decide)

end icsd_panel.contents

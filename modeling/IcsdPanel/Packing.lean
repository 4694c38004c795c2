-- The packing of an archive when some files cannot be opened. Their headers are
-- written by then.
import IcsdPanel.Contents

open effects

namespace icsd_panel.packing

open paths disk machine policy files archives deeds contents

variable {c : Codec} {d D : Disk} {e : Env} {w w' w1 : World} {base l p q src : Loc} {n : Node}
  {dest : CleanPath} {exclude srcs : List Loc} {t : Tar}

/-! ## What is to be packed -/

/-- No call fails, and everything can be looked at and listed. Some files may not be
opened. -/
def Quiet (e : Env) : Prop :=
  Faultless e ∧ ∀ l, e.blocked .stat l = false ∧ e.blocked .list l = false

/-- A file of a source that is packed, unless it cannot be opened. -/
def Due (dest : CleanPath) (exclude : List Loc) (D : Disk) (src q : Loc) (f : FileData) : Prop :=
  src <+: q ∧ D.get q = some (.file f) ∧ skipped exclude q = false ∧ ⟨true, q⟩ ≠ dest

/-- The files of a source that can be opened, as members of an archive. -/
def remaining (e : Env) (dest : CleanPath) (exclude : List Loc) (D : Disk) (src : Loc) : List Member :=
  ((visits e.blocked dest exclude D src).filter fun v => v.2.isFile && !e.blocked .open v.1).filterMap
    fun v => memberOf src.dropLast v.1 v.2

/-- The files of an archive. -/
def regular (ms : List Member) : List Member := ms.filter fun m => m.kind = .reg

/-- The run ends well, and the files of its archive are those that can be opened. -/
def Skips (c : Codec) (e : Env) (d : Disk) (dest : CleanPath) (exclude srcs : List Loc) (l : Loc) (D : Disk) :
    Prop :=
  ∃ size w f ms, writeTarGz c (place e.cwd dest) dest srcs exclude e (World.start d) = (.ok size, w) ∧
    w.disk.get l = some (.file f) ∧ c.untarGz f.content = some ⟨ms, .eof⟩ ∧
    regular ms = srcs.flatMap (remaining e dest exclude D)

/-- Of a source that a check gave, the files that are due are packed, and no others. -/
theorem mem_visits_file {f : FileData} (he : Quiet e) (hone : OneMore d l D) (hsrc : Resolved d src) :
    (q, .file f) ∈ visits e.blocked dest exclude D src ↔ Due dest exclude D src q f := by
  constructor
  · intro h
    have hvisit := h
    unfold visits walkTree at h
    obtain ⟨h, hdest⟩ := List.mem_filter.mp h
    split at h
    · cases h
    · rename_i r m hm
      obtain ⟨rfl, hlook⟩ := hone.lstat hsrc hm
      split at h
      · cases h
      · obtain ⟨hq, hskip, hpre⟩ := mem_walkFrom hlook h
        refine ⟨hpre, ?_, hskip, by simpa using hdest⟩
        unfold Disk.look at hq
        split at hq
        · cases hq
        · exact hq
  · rintro ⟨hpre, hq, hskip, hdest⟩
    refine mem_visits_of ?_ ⟨hpre, fun r _ _ => ⟨(he.2 r).1, fun _ => (he.2 r).2⟩⟩ hskip hdest
    rw [Disk.look, if_neg (Disk.get_ne_nil hq), hq]

/-! ## The run when all can be opened -/

theorem readFile_there {f : FileData} (hp : w.disk.get p = some (.file f)) (hb : e.blocked .open p = false) :
    readFile p e w = (.ok f, { w with reads := p :: w.reads }) := by
  unfold readFile openFile
  rw [stat_installed (Disk.get_proper hp) hp]
  simp only [hb, Bool.false_eq_true, if_false]

/-- Nothing is owed after a node that can be packed. -/
theorem packOne_there (he : Quiet e) (ht : t.owed = false)
    (hopen : ∀ f, n = .file f → w.disk.get p = some (.file f) ∧ e.blocked .open p = false) :
    ∃ t' w', packOne base t p n e w = (.ok t', w') ∧ t'.owed = false := by
  unfold packOne
  rw [Proc.bind_run_ok (pause_faultless he.1)]
  cases hm : memberOf base p n with
  | none => exact ⟨t, _, rfl, ht⟩
  | some m =>
    simp only [ht, Bool.false_eq_true, if_false]
    cases n with
    | file f =>
      obtain ⟨hp, hb⟩ := hopen f rfl
      have hread := Proc.attempt_run (readFile_there (w := w.did none) hp hb)
      exact ⟨⟨t.members ++ [m], false⟩, _, (Proc.bind_run_ok hread).trans
        (Proc.bind_run_ok (pause_faultless he.1)), rfl⟩
    | dir a => exact ⟨_, _, rfl, rfl⟩
    | link t => exact ⟨_, _, rfl, rfl⟩
    | other socket a => exact ⟨_, _, rfl, rfl⟩

theorem packAll_there (he : Quiet e) {vs : List (Loc × Node)} (ht : t.owed = false)
    (hopen : ∀ v ∈ vs, ∀ f, v.2 = .file f → w.disk.get v.1 = some (.file f) ∧ e.blocked .open v.1 = false) :
    ∃ t' w', packAll base t vs e w = (.ok t', w') ∧ t'.owed = false := by
  induction vs generalizing t w with
  | nil => exact ⟨t, w, rfl, ht⟩
  | cons v vs ih =>
    obtain ⟨t1, w1, hone, ht1⟩ : ∃ t1 w1, packOne base t v.1 v.2 e w = (.ok t1, w1) ∧ t1.owed = false :=
      packOne_there he ht (hopen v List.mem_cons_self)
    have hdisk := (packOne_ok hone).2
    obtain ⟨t2, w2, hrest, ht2⟩ := ih (w := w1) ht1 fun v hv f hf => by
      rw [hdisk]
      exact hopen v (List.mem_cons_of_mem _ hv) f hf
    refine ⟨t2, w2, ?_, ht2⟩
    unfold packAll
    rw [Proc.bind_run_ok hone, hrest]

theorem packSources_there (he : Quiet e) (ht : t.owed = false)
    (hopen : ∀ src ∈ srcs, ∀ v ∈ visits e.blocked dest exclude w.disk src, ∀ f, v.2 = .file f →
      w.disk.get v.1 = some (.file f) ∧ e.blocked .open v.1 = false) :
    ∃ t' w', packSources dest exclude t srcs e w = (.ok t', w') ∧ t'.owed = false := by
  induction srcs generalizing t w with
  | nil => exact ⟨t, w, rfl, ht⟩
  | cons src srcs ih =>
    obtain ⟨t1, w1, hall, ht1⟩ : ∃ t1 w1, packAll src.dropLast t (visits e.blocked dest exclude w.disk src) e w =
        (.ok t1, w1) ∧ t1.owed = false := packAll_there he ht (hopen src List.mem_cons_self)
    have hdisk := (packAll_ok hall).2
    obtain ⟨t2, w2, hrest, ht2⟩ := ih (w := w1) ht1 fun src hsrc => by
      rw [hdisk]
      exact hopen src (List.mem_cons_of_mem _ hsrc)
    refine ⟨t2, w2, ?_, ht2⟩
    unfold packSources
    rw [askEnv_bind, Proc.bind_run_ok hall, hrest]

/-- A path leads to the file that is its entry. -/
theorem stat_entry {f : FileData} (he : entryAt D p = .ok l) (hf : D.get l = some (.file f)) :
    stat D p = .ok (l, .file f) := by
  obtain ⟨_, _, _, hne, _⟩ := entryAt_ok he
  obtain ⟨r, x, rfl⟩ := dropLast_append_getLast hne
  obtain ⟨m, rfl, hm⟩ := entryAt_concat he
  obtain ⟨hx1, hx2, -⟩ := Disk.get_proper hf x (by simp)
  have hwalk : follow D r = .ok m ∧ D.IsDirAt m := by
    unfold dirAt at hm
    split at hm
    · split at hm <;> cases hm
      exact ⟨‹_›, ‹_›⟩
    · cases hm
  obtain ⟨j, hj⟩ := walk_append hwalk.2 hwalk.1
  refine stat_run ?_ (by rw [Disk.look, if_neg (Disk.get_ne_nil hf), hf])
  unfold follow
  rw [hj]
  cases j <;> simp [walk, walkParts, hx1, hx2, hf]

theorem writeAt_there {data : Bytes} {f : FileData} (he : Faultless e) (hf : w.disk.get l = some (.file f)) :
    ∃ w', writeAt l 0 data e w = (.ok (), w') := by
  unfold writeAt
  rw [if_neg (by omega)]
  split
  · exact ⟨w, rfl⟩
  · rename_i hdata
    unfold call
    simp only [he w.calls, putBytes, hdata, if_false, updateFile, hf, outcome]
    exact ⟨_, rfl⟩

/-- When all that is due can be opened, the run ends well. -/
theorem writeTarGz_there (he : Quiet e) (hcreate : createDest p e w = (.ok l, w1))
    (hopen : ∀ src ∈ srcs, ∀ v ∈ visits e.blocked dest exclude w1.disk src, ∀ f, v.2 = .file f →
      w1.disk.get v.1 = some (.file f) ∧ e.blocked .open v.1 = false) :
    ∃ size w', writeTarGz c p dest srcs exclude e w = (.ok size, w') := by
  obtain ⟨hentry, hn, f, hempty, hdisk1⟩ := createDest_ok hcreate
  have hone : OneMore w.disk l w1.disk := hdisk1 ▸ oneMore_new hentry hn
  obtain ⟨t, w2, hpack, ht⟩ := packSources_there (t := ⟨[], false⟩) he rfl hopen
  have hf : w2.disk.get l = some (.file f) := by
    rw [(packSources_ok hpack).2, hdisk1]
    exact Disk.get_put_self (fits_new hentry hn)
  obtain ⟨w3, hwrite⟩ : ∃ w3, writeAt l 0 (c.tarGz t.members) e w2 = (.ok (), w3) := writeAt_there he.1 hf
  obtain ⟨g, -, hg, hrest⟩ := writeAt_ok hf hempty hwrite
  have hgrow : Grows w.disk w3.disk := by
    refine OneMore.grows (l := l) ⟨hn, ⟨g, hg⟩, fun q hq => ?_⟩
    rw [hrest q hq, (packSources_ok hpack).2, hone.2.2 q hq]
  have hstat := stat_entry (entryAt_grow hgrow hentry) hg
  refine ⟨g.content.length, w3.did none, ?_⟩
  unfold writeTarGz
  rw [Proc.bind_run_ok hcreate, Proc.bind_run_ok hpack, if_neg (by simp [ht]), Proc.bind_run_ok hwrite,
    Proc.bind_run_ok (pause_faultless he.1)]
  refine (Proc.bind_run_ok (ask_ok (a := (l, .file g)) ?_)).trans rfl
  simp only [did_none_disk, hstat]
  rfl

/-! ## The files of the archive -/

theorem regular_filterMap (base : Loc) (vs : List (Loc × Node)) :
    regular (vs.filterMap fun v => memberOf base v.1 v.2) =
      (vs.filter fun v => v.2.isFile).filterMap fun v => memberOf base v.1 v.2 := by
  induction vs with
  | nil => rfl
  | cons v vs ih =>
    obtain ⟨p, n⟩ := v
    rcases n with f | a | t | ⟨sk, a⟩
    · simpa [memberOf, Node.isFile, regular] using ih
    · simpa [memberOf, Node.isFile, regular] using ih
    · simpa [memberOf, Node.isFile, regular] using ih
    · cases sk <;> simpa [memberOf, Node.isFile, regular] using ih

theorem length_members {vs : List (Loc × Node)} (h : ∀ v ∈ vs, v.2.isFile = true) :
    (vs.filterMap fun v => memberOf base v.1 v.2).length = vs.length := by
  induction vs with
  | nil => rfl
  | cons v vs ih =>
    have hv := h v List.mem_cons_self
    obtain ⟨p, n⟩ := v
    cases n with
    | file f =>
      have := ih fun v hv => h v (List.mem_cons_of_mem _ hv)
      simpa [memberOf] using this
    | dir a => cases hv
    | link t => cases hv
    | other socket a => cases hv

theorem eq_of_flatMap {α β : Type} {f g : α → List β} {as : List α} (h : ∀ a ∈ as, (f a).Sublist (g a))
    (heq : as.flatMap g = as.flatMap f) : ∀ a ∈ as, g a = f a := by
  induction as with
  | nil => simp
  | cons a as ih =>
    have hrest : (as.flatMap f).Sublist (as.flatMap g) := by
      clear ih heq
      induction as with
      | nil => exact List.Sublist.refl _
      | cons b bs ih =>
        rw [List.flatMap_cons, List.flatMap_cons]
        exact (h b (by simp)).append (ih fun x hx => h x (by simp at hx ⊢; tauto))
    have hfirst := h a List.mem_cons_self
    rw [List.flatMap_cons, List.flatMap_cons] at heq
    have hlen := congrArg List.length heq
    rw [List.length_append, List.length_append] at hlen
    have h1 := hfirst.length_le
    have h2 := hrest.length_le
    have ha := hfirst.eq_of_length (by omega)
    rw [ha] at heq
    intro x hx
    rcases List.mem_cons.mp hx with rfl | hx
    · exact ha.symm
    · exact ih (fun b hb => h b (List.mem_cons_of_mem _ hb)) (List.append_cancel_left heq) x hx

theorem regular_packed (blocked : Access → Loc → Bool) :
    regular (srcs.flatMap (packedMembers blocked dest exclude D)) = srcs.flatMap fun src =>
      ((visits blocked dest exclude D src).filter fun v => v.2.isFile).filterMap
        fun v => memberOf src.dropLast v.1 v.2 := by
  unfold regular
  rw [List.filter_flatMap]
  congr 1
  funext src
  exact regular_filterMap src.dropLast _

/-- All files of the archive can be opened if and only if they are those that can. -/
theorem regular_remaining : regular (srcs.flatMap (packedMembers e.blocked dest exclude D)) =
      srcs.flatMap (remaining e dest exclude D) ↔
    ∀ src ∈ srcs, ∀ v ∈ visits e.blocked dest exclude D src, v.2.isFile = true → e.blocked .open v.1 = false := by
  rw [regular_packed]
  constructor
  · intro h src hsrc v hv hfile
    have hsub (vs : List (Loc × Node)) : (vs.filter fun v => v.2.isFile && !e.blocked .open v.1).Sublist
        (vs.filter fun v => v.2.isFile) := by
      refine List.monotone_filter_right vs fun v hv => ?_
      simp only [Bool.and_eq_true] at hv
      exact hv.1
    have heq := congrArg List.length (eq_of_flatMap (f := remaining e dest exclude D)
      (fun src _ => (hsub _).filterMap _) h src hsrc)
    unfold remaining at heq
    rw [length_members fun v hv => (List.mem_filter.mp hv).2,
      length_members fun v hv => by simpa using And.left (by simpa using (List.mem_filter.mp hv).2)] at heq
    have hmem : v ∈ (visits e.blocked dest exclude D src).filter fun v => v.2.isFile && !e.blocked .open v.1 := by
      rw [(hsub _).eq_of_length heq.symm]
      exact List.mem_filter.mpr ⟨hv, hfile⟩
    have := (List.mem_filter.mp hmem).2
    simpa [hfile] using this
  · intro h
    refine List.flatMap_congr fun src hsrc => ?_
    unfold remaining
    congr 1
    refine List.filter_congr fun v hv => ?_
    cases hf : v.2.isFile with
    | false => rfl
    | true => simp [h src hsrc v hv hf]

/-- The run ends well, with the files that can be opened, if and only if every file
that is due can be opened. -/
theorem skips_iff (c : Codec) (e : Env) (d : Disk) (dest : CleanPath) (exclude srcs : List Loc) (l : Loc) (w1 : World)
    (he : Quiet e) (hsrcs : ∀ src ∈ srcs, Resolved d src)
    (hcreate : createDest (place e.cwd dest) e (World.start d) = (.ok l, w1)) :
    Skips c e d dest exclude srcs l w1.disk ↔
      ∀ src ∈ srcs, ∀ q f, Due dest exclude w1.disk src q f → e.blocked .open q = false := by
  obtain ⟨hentry, hn, f0, -, hdisk1⟩ := createDest_ok hcreate
  have hone : OneMore d l w1.disk := hdisk1 ▸ oneMore_new hentry hn
  -- What a run that ended well has in its archive.
  have hmembers {size : Nat} {w : World}
      (hrun : writeTarGz c (place e.cwd dest) dest srcs exclude e (World.start d) = (.ok size, w)) :
      ∃ g, w.disk.get l = some (.file g) ∧
        g.content = c.tarGz (srcs.flatMap (packedMembers e.blocked dest exclude w1.disk)) := by
    obtain ⟨l', w1', g, hcreate', -, -, -, hg, hcontent⟩ := writeTarGz_ok hrun
    obtain ⟨hl, rfl⟩ := Prod.mk.inj (hcreate.symm.trans hcreate')
    cases hl
    exact ⟨g, hg, hcontent⟩
  constructor
  · rintro ⟨size, w, f, ms, hrun, hf, hms, hreg⟩ src hsrc q f hdue
    obtain ⟨g, hg, hcontent⟩ := hmembers hrun
    cases hg.symm.trans hf
    rw [hcontent, c.untarGz_tarGz] at hms
    cases hms
    exact regular_remaining.mp hreg src hsrc (q, .file f) ((mem_visits_file he hone (hsrcs src hsrc)).mpr hdue) rfl
  · intro h
    have hopen : ∀ src ∈ srcs, ∀ v ∈ visits e.blocked dest exclude w1.disk src, ∀ f, v.2 = .file f →
        w1.disk.get v.1 = some (.file f) ∧ e.blocked .open v.1 = false := by
      rintro src hsrc ⟨q, n⟩ hv f rfl
      have hdue := (mem_visits_file he hone (hsrcs src hsrc)).mp hv
      exact ⟨hdue.2.1, h src hsrc q f hdue⟩
    obtain ⟨size, w, hrun⟩ := writeTarGz_there (c := c) he hcreate hopen
    obtain ⟨g, hg, hcontent⟩ := hmembers hrun
    refine ⟨size, w, g, _, hrun, hg, by rw [hcontent, c.untarGz_tarGz], regular_remaining.mpr ?_⟩
    intro src hsrc v hv hfile
    obtain ⟨q, n⟩ := v
    cases n with
    | file f => exact (hopen src hsrc _ hv f rfl).2
    | dir a => cases hfile
    | link t => cases hfile
    | other socket a => cases hfile

/-! ## A site with a file that is gone -/

def sitePath : Loc := ["var", "backups", "icsd", "site.tar.gz"]

/-- The site, once its archive was made. -/
def siteMade : World := (World.start siteDisk).did (some (.put sitePath (.file ⟨[], 0, ⟨0o600, 0, 0⟩, true⟩)))

example : siteMade.disk.names ["var", "backups", "icsd"] = ["site.tar.gz"] := by decide +kernel

theorem site_resolved : ∀ src ∈ [["var", "www"]], Resolved siteDisk src := by
  intro src hsrc
  rw [List.mem_singleton.mp hsrc]
  have hcheck : check confinement.webPolicy siteDisk "/var/www" false = .ok ["var", "www"] := by decide +kernel
  exact (check_ok hcheck).1

theorem site_create {e : Env} (hl : e.luck 0 = calmLuck 0) :
    createDest sitePath e (World.start siteDisk) = (.ok sitePath, siteMade) := by
  have hex : createExcl siteDisk sitePath ⟨[], 0, ⟨0o600, 0, 0⟩, true⟩ =
      .ok ⟨some (.put sitePath (.file ⟨[], 0, ⟨0o600, 0, 0⟩, true⟩)), sitePath⟩ :=
    createExcl_there (by decide) (by decide) (by decide +kernel) (by decide +kernel)
  unfold createDest act call
  simp [World.start, hl, calmLuck, World.disk, replay, hex, outcome, siteMade]

theorem site_packed : Skips countedCodec (calm 0 []) siteDisk ⟨true, sitePath⟩ [] [["var", "www"]] sitePath
    siteMade.disk :=
  (skips_iff countedCodec (calm 0 []) siteDisk ⟨true, sitePath⟩ [] [["var", "www"]] sitePath siteMade
    ⟨fun _ => rfl, fun _ => ⟨rfl, rfl⟩⟩ site_resolved (site_create rfl)).mpr fun _ _ _ _ _ => rfl

/-- Surroundings where the file of the cache is removed before it is opened. -/
def cacheGone : Env := { calm 0 [] with blocked := fun a l => a = .open ∧ l = ["var", "www", "cache", "a"] }

/-- A file that cannot be opened spoils the archive. -/
theorem gone_spoils : ¬ ∀ c e d dest exclude srcs l w1, Quiet e → (∀ src ∈ srcs, Resolved d src) →
    createDest (place e.cwd dest) e (World.start d) = (.ok l, w1) →
    Skips c e d dest exclude srcs l w1.disk := by
  intro h
  obtain ⟨size, w, f, ms, hrun, -⟩ := h countedCodec cacheGone siteDisk ⟨true, sitePath⟩ [] [["var", "www"]]
    sitePath siteMade ⟨fun _ => rfl, fun _ => ⟨by simp [cacheGone], by simp [cacheGone]⟩⟩ site_resolved
    (site_create rfl)
  have hfail : (writeTarGz countedCodec (place [] ⟨true, sitePath⟩) ⟨true, sitePath⟩ [["var", "www"]] []
      cacheGone (World.start siteDisk)).1.isOk = false := by decide +kernel
  rw [show cacheGone.cwd = [] from rfl] at hrun
  rw [hrun] at hfail
  cases hfail

end icsd_panel.packing

-- What the reading requests and the background jobs may do: the readers
-- change nothing, packing makes one file, unpacking goes on from checked
-- place to checked place.
import IcsdPanel.Deeds

open effects

namespace icsd_panel.deeds

open paths disk machine policy files archives requests

variable {pol : Policy} {d d0 d1 D : Disk} {e : Env} {real : Loc} {A : Rules} {w : World}

/-! ## Reading -/

/-- Opening a file reads nothing that is never read, when the path leads to
nothing of the kind. -/
theorem keeps_readFile {p : Loc} {D : Disk → Prop}
    (h : ∀ d l, D d → follow d p = .ok l → A.read l) :
    Proc.Keeps e (fun w => Fine A w ∧ D w.disk) (readFile p) := by
  refine triple_readFile (fun w l f hw ho => ⟨⟨hw.1.lawful, fun q hq => ?_, hw.1.first⟩, hw.2⟩)
    fun _ hw => hw
  rcases List.mem_cons.mp hq with rfl | hq
  · exact h w.disk q hw.2 (openFile_ok ho).1
  · exact hw.1.reads q hq

theorem keeps_readChecked {p : Loc} (hR : A.read p) (hres : Resolved d0 p) :
    Proc.Triple e (Before A d0) (readFile p) (fun _ => Before A d0) (Fine A) := by
  refine Proc.triple_weaken (keeps_readFile (D := (· = d0)) ?_) (fun w hw => ⟨hw.2, hw.1⟩)
    (fun _ w hw => ⟨hw.2, hw.1⟩) fun _ hw => hw.1
  rintro d l rfl hl
  rw [(hres.follow hl).1]
  exact hR

/-- The checked path of a request. -/
theorem triple_checked {raw : String} {write : Bool} :
    Proc.Triple e (Before A d0) (checked pol raw write)
      (fun real w => Before A d0 w ∧ check pol d0 raw write = .ok real) (Fine A) :=
  triple_ask_before

theorem triple_askOs_before {α : Type} {f : Disk → Except Errno α} :
    Proc.Triple e (Before A d0) (askOs f) (fun _ => Before A d0) (Fine A) :=
  triple_askOs (fun _ _ hw _ => hw) fun _ hw => hw.2

theorem fsRead_fine {i : ReadArgs} (hR : ∀ l, check pol d0 i.path false = .ok l → A.read l) :
    Proc.Triple e (Before A d0) (fsRead pol i) (fun _ => Fine A) (Fine A) := by
  unfold fsRead
  refine Proc.triple_bind triple_checked fun real => ?_
  by_cases hcheck : check pol d0 i.path false = .ok real
  rotate_left
  · intro w hw; exact absurd hw.2 hcheck
  refine Proc.triple_bind (Proc.triple_weaken triple_askOs_before (fun _ hw => hw.1)
    (fun _ _ h => h) fun _ h => h) fun r => ?_
  split
  · refine Proc.triple_bind (keeps_readChecked (hR real hcheck) (check_ok hcheck).1) fun f => ?_
    split
    · exact triple_fail _ fun w hw => hw.2
    · exact Proc.triple_pure fun w hw => hw.2
  · exact triple_fail _ fun w hw => hw.2

theorem fsTail_fine {i : TailArgs} (hR : ∀ l, check pol d0 i.path false = .ok l → A.read l) :
    Proc.Triple e (Before A d0) (fsTail pol i) (fun _ => Fine A) (Fine A) := by
  unfold fsTail
  refine Proc.triple_bind triple_checked fun real => ?_
  by_cases hcheck : check pol d0 i.path false = .ok real
  rotate_left
  · intro w hw; exact absurd hw.2 hcheck
  refine Proc.triple_bind (Proc.triple_weaken triple_askOs_before (fun _ hw => hw.1)
    (fun _ _ h => h) fun _ h => h) fun r => ?_
  split
  · refine Proc.triple_bind (keeps_readChecked (hR real hcheck) (check_ok hcheck).1) fun f => ?_
    exact Proc.triple_pure fun w hw => hw.2
  · exact Proc.triple_pure fun w hw => hw.2

theorem fsList_fine {path : String} :
    Proc.Triple e (Before A d0) (fsList pol path) (fun _ => Fine A) (Fine A) := by
  unfold fsList
  split
  · exact triple_askEnv fun w hw => hw.2
  · unfold listDir
    refine Proc.triple_bind triple_checked fun real => ?_
    refine Proc.triple_bind (Proc.triple_weaken triple_askOs_before (fun _ hw => hw.1)
      (fun _ _ h => h) fun _ h => h) fun r => ?_
    exact Proc.triple_pure fun w hw => hw.2

theorem fsStat_fine {path : String} :
    Proc.Triple e (Before A d0) (fsStat pol path) (fun _ => Fine A) (Fine A) := by
  unfold fsStat
  refine Proc.triple_bind triple_checked fun real => ?_
  refine Proc.triple_bind (Proc.triple_weaken triple_askOs_before (fun _ hw => hw.1)
    (fun _ _ h => h) fun _ h => h) fun r => ?_
  exact Proc.triple_pure fun w hw => hw.2

/-! ## One new file -/

/-- `d` is `d0` with one file more, at `l`. -/
def OneMore (d0 : Disk) (l : Loc) (d : Disk) : Prop :=
  d0.get l = none ∧ (∃ f, d.get l = some (.file f)) ∧ ∀ q, q ≠ l → d.get q = d0.get q

theorem OneMore.grows {l : Loc} (h : OneMore d0 l d) : Grows d0 d := by
  intro q n hq
  have hne : q ≠ l := by
    rintro rfl
    rw [h.1] at hq
    cases hq
  exact ⟨n, (h.2.2 q hne).trans hq, rfl⟩

theorem OneMore.paved {l : Loc} (h : OneMore d0 l d) : Paved d0 d l := by
  refine ⟨h.grows, fun q n hq hn => ?_⟩
  by_cases hql : q = l
  · obtain ⟨f, hf⟩ := h.2.1
    rw [hql, hf] at hn
    cases hn
    exact ⟨hql ▸ List.prefix_refl q, rfl⟩
  · rw [h.2.2 q hql, hq] at hn
    cases hn

theorem OneMore.put {l : Loc} (h : OneMore d0 l d) (f : FileData) :
    OneMore d0 l (d.put l (.file f)) := by
  obtain ⟨h1, ⟨f0, h2⟩, h3⟩ := h
  refine ⟨h1, ⟨f, Disk.get_put_self (fits_over h2 (by simp [Node.isDir]))⟩, fun q hq => ?_⟩
  rw [Disk.get_put_ne hq]
  exact h3 q hq

theorem oneMore_new {p l : Loc} {f : FileData} (he : entryAt d0 p = .ok l) (hn : d0.get l = none) :
    OneMore d0 l (d0.put l (.file f)) :=
  ⟨hn, ⟨f, Disk.get_put_self (fits_new he hn)⟩, fun _ hq => Disk.get_put_ne hq⟩

/-- A walk to a directory does not pass a new file. -/
theorem OneMore.walkParts_old {l m r : Loc} {on on' : Loc → List Name → Except Errno Loc}
    {cs : List Name} (h : OneMore d0 l d) (hr : d.IsDirAt r)
    (hon : ∀ m cs, on m cs = .ok r → on' m cs = .ok r) (hw : walkParts d false on m cs = .ok r) :
    walkParts d0 false on' m cs = .ok r := by
  induction cs generalizing m with
  | nil => exact hw
  | cons c cs ih =>
    unfold walkParts at hw ⊢
    split at hw
    · rw [if_pos ‹_›]; exact ih hw
    · rw [if_neg ‹_›]
      split at hw
      · rw [if_pos ‹_›]; exact ih hw
      · rw [if_neg ‹_›]
        by_cases hl : m ++ [c] = l
        · obtain ⟨_, ⟨f, hf⟩, _⟩ := h
          rw [hl, hf] at hw
          simp only at hw
          split at hw
          · cases hw
            rcases hr with h0 | ⟨a, ha⟩
            · simp [← hl] at h0
            · rw [hf] at ha; cases ha
          · cases hw
        · rw [← h.2.2 _ hl]
          split at hw
          · exact hw
          · exact hon _ _ hw
          · exact ih hw
          · exact hw

theorem OneMore.walk_old {l m r : Loc} {k : Nat} {cs : List Name} (h : OneMore d0 l d)
    (hr : d.IsDirAt r) (hw : walk d false k m cs = .ok r) : walk d0 false k m cs = .ok r := by
  induction k generalizing m cs with
  | zero => exact h.walkParts_old hr (fun _ _ h => by cases h) hw
  | succ k ih => exact h.walkParts_old hr (fun _ _ hw => ih hw) hw

/-- A new file does not change where a checked path leads. -/
theorem OneMore.lstat {l src q : Loc} {n : Node} (h : OneMore d0 l d) (hres : Resolved d0 src)
    (hs : lstat d src = .ok (q, n)) : q = src ∧ d.look src = some n := by
  unfold disk.lstat at hs
  split at hs
  · cases hs
  · rename_i m hm
    have hms : m = src := by
      split at hm
      · cases hm; exact ‹src = []›.symm
      · obtain ⟨src, c, rfl⟩ := dropLast_append_getLast ‹src ≠ []›
        obtain ⟨m', rfl, hdir⟩ := entryAt_concat hm
        have hdir' := (dirAt_ok hdir).1
        unfold dirAt at hdir
        split at hdir
        · rename_i r hr
          split at hdir
          · cases hdir
            have hold : follow d0 src = .ok m' := h.walk_old hdir' hr
            rw [((hres.above (List.prefix_append src [c])).follow hold).1]
          · cases hdir
        · cases hdir
    subst hms
    split at hs <;> cases hs
    exact ⟨rfl, ‹_›⟩

/-- The changes of a job that makes one file at the path `p`. -/
inductive DestDeed (d0 : Disk) (p : Loc) (d : Disk) : Deed → Prop
  | create {l : Loc} {f : FileData} (hd : d = d0) (he : entryAt d0 p = .ok l)
      (hn : d0.get l = none) : DestDeed d0 p d (.put l (.file f))
  | update {l : Loc} {f : FileData} (he : entryAt d0 p = .ok l) (h : OneMore d0 l d) :
      DestDeed d0 p d (.put l (.file f))
  | remove {l : Loc} {n : Node} (he : entryAt d0 p = .ok l) (h : d = d0 ∨ OneMore d0 l d)
      (hn : d.get l = some n) (hnames : d.names l = []) : DestDeed d0 p d (.remove l)

/-- The world of a job with its file made. -/
def HasDest (A : Rules) (d0 : Disk) (p : Loc) (w : World) : Prop :=
  Fine A w ∧ ∃ l, entryAt d0 p = .ok l ∧ OneMore d0 l w.disk

/-! ## Packing -/

variable {blocked : Access → Loc → Bool} {prune : Loc → Bool}

theorem lstat_plain {p : Loc} {n : Node} (h : d.look p = some n) : lstat d p = .ok (p, n) := by
  unfold lstat
  by_cases hp : p = []
  · simp [hp] at h ⊢
    simp [h]
  · have hget : d.get p = some n := by simpa [Disk.look, hp] using h
    rw [if_neg hp, entryAt_plain (Disk.get_proper hget) hp
      (Disk.isDirAt_dropLast (by rw [hget]; rfl))]
    simp [h]

/-- What a walk shows is there, under its own path, and was not pruned. -/
theorem mem_walkFrom {k : Nat} {p q : Loc} {n m : Node} (hp : d.look p = some n)
    (h : (q, m) ∈ walkFrom blocked prune d k p n) :
    d.look q = some m ∧ prune q = false ∧ p <+: q := by
  induction k generalizing p n with
  | zero => simp [walkFrom] at h
  | succ k ih =>
    unfold walkFrom at h
    split at h
    · simp at h
    · rename_i hprune
      have hself : prune p = false := by simpa using hprune
      split at h
      · rename_i hdir
        split at h
        · simp at h
        · rename_i l hl
          split at h
          · simp at h
          · rcases List.mem_cons.mp h with h | h
            · cases h
              exact ⟨hp, hself, List.prefix_refl _⟩
            · obtain ⟨x, hx, hmem⟩ := List.mem_flatMap.mp h
              split at hmem
              · simp at hmem
              · rename_i c mc hc
                split at hmem
                · simp at hmem
                · have hchild : d.look (p ++ [x]) = some mc := by
                    rw [dirAt_plain (Disk.look_proper hp) (Disk.look_isDirAt hp hdir)] at hl
                    cases hl
                    obtain ⟨n', hn'⟩ := Option.isSome_iff_exists.mp
                      ((Disk.mem_names x).mp (by
                        simpa [sortedNames, List.mem_insertionSort] using hx))
                    have hlook : d.look (p ++ [x]) = some n' := by simp [Disk.look, hn']
                    rw [lstat_plain hlook] at hc
                    cases hc
                    exact hlook
                  obtain ⟨h1, h2, h3⟩ := ih hchild hmem
                  exact ⟨h1, h2, (List.prefix_append p [x]).trans h3⟩
      · simp only [List.mem_singleton] at h
        cases h
        exact ⟨hp, hself, List.prefix_refl _⟩

/-- What `writeTarGz` packs of a checked source is there, under its own path,
and none of the paths that are never read. -/
theorem mem_visits {l src q : Loc} {m : Node} {dest : CleanPath} {exclude : List Loc}
    (hone : OneMore d0 l d) (hres : Resolved d0 src)
    (h : (q, m) ∈ visits blocked dest exclude d src) :
    d.look q = some m ∧ deniedLexical q = false ∧ src <+: q := by
  unfold visits walkTree at h
  obtain ⟨h, _⟩ := List.mem_filter.mp h
  split at h
  · simp at h
  · rename_i r n hr
    split at h
    · simp at h
    · obtain ⟨rfl, hlook⟩ := hone.lstat hres hr
      obtain ⟨h1, h2, h3⟩ := mem_walkFrom hlook h
      simp only [skipped, Bool.or_eq_false_iff] at h2
      exact ⟨h1, h2.1, h3⟩

theorem keeps_packOne {P : World → Prop} {base p : Loc} {t : Tar} {n : Node}
    (hidle : ∀ w, P w → P (w.did none)) (hread : ∀ f, n = .file f → Proc.Keeps e P (readFile p)) :
    Proc.Keeps e P (packOne base t p n) := by
  unfold packOne
  refine Proc.triple_bind (triple_pause hidle) fun _ => ?_
  split
  · exact Proc.triple_pure fun _ hw => hw
  · split
    · exact Proc.triple_fail fun _ hw => hw
    · split
      · refine Proc.triple_bind (triple_attempt_fine (hread _ rfl)) fun r => ?_
        split
        · exact Proc.triple_pure fun _ hw => hw
        · exact Proc.triple_bind (triple_pause hidle) fun _ => Proc.triple_pure fun _ hw => hw
      · exact Proc.triple_pure fun _ hw => hw

theorem keeps_packAll {P : World → Prop} {base : Loc} {t : Tar} {vs : List (Loc × Node)}
    (hidle : ∀ w, P w → P (w.did none))
    (hread : ∀ v ∈ vs, ∀ f, v.2 = .file f → Proc.Keeps e P (readFile v.1)) :
    Proc.Keeps e P (packAll base t vs) := by
  induction vs generalizing t with
  | nil => exact Proc.triple_pure fun _ hw => hw
  | cons v vs ih =>
    refine Proc.triple_bind (keeps_packOne hidle (hread v List.mem_cons_self)) fun t' => ?_
    exact ih fun v' hv' => hread v' (List.mem_cons_of_mem v hv')

/-- The rules let every file be read that `writeTarGz` comes to. -/
def MayPack (A : Rules) (e : Env) (d0 : Disk) (dest : CleanPath) (exclude srcs : List Loc) : Prop :=
  ∀ d l, OneMore d0 l d → ∀ src ∈ srcs, ∀ v ∈ visits e.blocked dest exclude d src,
    ∀ f, v.2 = .file f → ∀ q, follow d v.1 = .ok q → A.read q

theorem mayPack_of_resolved {dest : CleanPath} {exclude srcs : List Loc}
    (hR : ∀ src ∈ srcs, ∀ l, src <+: l → deniedLexical l = false → A.read l)
    (hsrcs : ∀ src ∈ srcs, Resolved d0 src) : MayPack A e d0 dest exclude srcs := by
  intro d l hone src hsrc v hv f hf q hq
  obtain ⟨hn, hden, hpre⟩ := mem_visits hone (hsrcs src hsrc) hv
  rw [follow, walk_plain 40 (Disk.look_proper hn) (plain_of_look hn (by rw [hf]; rfl))] at hq
  cases hq
  exact hR src hsrc _ hpre hden

theorem keeps_packSources {p : Loc} {dest : CleanPath} {exclude srcs : List Loc} {t : Tar}
    (hpack : MayPack A e d0 dest exclude srcs) :
    Proc.Keeps e (HasDest A d0 p) (packSources dest exclude t srcs) := by
  induction srcs generalizing t with
  | nil => exact Proc.triple_pure fun _ hw => hw
  | cons src srcs ih =>
    unfold packSources
    intro w hw
    obtain ⟨hfine, l, hl, hone⟩ := hw
    have hread : ∀ v ∈ visits e.blocked dest exclude w.disk src, ∀ f, v.2 = .file f →
        Proc.Keeps e (fun w' => Fine A w' ∧ w'.disk = w.disk) (readFile v.1) := by
      intro v hv f hf
      refine keeps_readFile (D := (· = w.disk)) ?_
      rintro d q rfl hq
      exact hpack _ l hone src List.mem_cons_self v hv f hf q hq
    have hback : ∀ w', Fine A w' ∧ w'.disk = w.disk → HasDest A d0 p w' :=
      fun w' hw' => ⟨hw'.1, l, hl, by rw [hw'.2]; exact hone⟩
    have hall : Proc.Triple e (fun w' => Fine A w' ∧ w'.disk = w.disk)
        (packAll src.dropLast t (visits e.blocked dest exclude w.disk src) >>= fun t =>
          packSources dest exclude t srcs) (fun _ => HasDest A d0 p) (HasDest A d0 p) :=
      Proc.triple_bind (Proc.triple_weaken (keeps_packAll (fun _ hw => hw) hread) (fun _ h => h)
        (fun _ w' h => hback w' h) hback) fun t' =>
          ih fun d l hone s hs => hpack d l hone s (List.mem_cons_of_mem src hs)
    exact hall w ⟨hfine, rfl⟩

theorem HasDest.deed {p l : Loc} {f : FileData} (h : HasDest A d0 p w)
    (hA : ∀ d δ, DestDeed d0 p d δ → A.deed d δ) (he : entryAt d0 p = .ok l) :
    HasDest A d0 p (w.did (some (.put l (.file f)))) := by
  obtain ⟨hfine, l', hl', hone⟩ := h
  rw [he] at hl'
  cases hl'
  exact ⟨hfine.did (hA _ _ (.update he hone)), l, he, hone.put f⟩

/-- `writeTarGz` makes one file at its destination, or nothing. -/
theorem writeTarGz_deeds {c : Codec} {p : Loc} {dest : CleanPath} {exclude srcs : List Loc}
    (hA : ∀ d δ, DestDeed d0 p d δ → A.deed d δ) (hpack : MayPack A e d0 dest exclude srcs) :
    Proc.Triple e (Before A d0) (writeTarGz c p dest srcs exclude) (fun _ => HasDest A d0 p)
      (fun w => Before A d0 w ∨ HasDest A d0 p w) := by
  unfold writeTarGz
  refine Proc.triple_bind (M := fun l w => HasDest A d0 p w ∧ entryAt d0 p = .ok l) ?_ fun l => ?_
  · refine triple_act (fun luck w c hw hc => ?_) fun w hw => Or.inl hw
    rw [hw.1] at hc
    obtain ⟨he, hnone, hdeed⟩ := createExcl_ok hc
    rw [hdeed]
    refine ⟨⟨hw.did (hA _ _ (.create rfl he hnone)), c.value, he, ?_⟩, he⟩
    simp only [did_disk, Deed.apply, hw.1]
    exact oneMore_new he hnone
  · by_cases he : entryAt d0 p = .ok l
    rotate_left
    · intro w hw; exact absurd hw.2 he
    refine Proc.triple_weaken (P := HasDest A d0 p) (T := HasDest A d0 p) ?_ (fun w hw => hw.1)
      (fun _ _ h => h) fun w hw => Or.inr hw
    refine Proc.triple_bind (keeps_packSources hpack) fun t => ?_
    split
    · exact Proc.triple_fail fun _ hw => hw
    · refine Proc.triple_bind (keeps_writeAt (fun _ hw => hw) fun w f g hw _ _ _ =>
        hw.deed hA he) fun _ => ?_
      refine Proc.triple_bind (triple_pause fun _ hw => hw) fun _ => ?_
      refine Proc.triple_bind (M := fun _ => HasDest A d0 p)
        (triple_askOs (fun _ _ hw _ => hw) fun _ hw => hw) fun r => ?_
      split <;> exact Proc.triple_pure fun _ hw => hw

/-- The removal of the destination after a failed job. -/
theorem removeDest_deeds {p : Loc} (hA : ∀ d δ, DestDeed d0 p d δ → A.deed d δ) :
    Proc.Triple e (fun w => Before A d0 w ∨ HasDest A d0 p w) (remove p) (fun _ => Fine A)
      (Fine A) := by
  refine triple_act (fun luck w c hw hc => ?_) fun w hw => ?_
  · obtain ⟨l, n, he, hn, hnames, hdeed⟩ := removeEntry_ok hc
    rw [hdeed]
    rcases hw with ⟨hd, hfine⟩ | ⟨hfine, l', hl', hone⟩
    · refine hfine.did (hA _ _ (.remove ?_ (Or.inl hd) hn hnames))
      rw [← hd]
      exact he
    · rw [entryAt_grow hone.grows hl'] at he
      cases he
      exact hfine.did (hA _ _ (.remove hl' (Or.inr hone) hn hnames))
  · rcases hw with h | h
    · exact h.2
    · exact h.1

theorem chownDest_deeds {p : Loc} (hA : ∀ d δ, DestDeed d0 p d δ → A.deed d δ) :
    Proc.Keeps e (HasDest A d0 p) (chownLikeParent p) := by
  refine keeps_chownLikeParent (fun _ hw => hw) fun w q n m hw hq hsame => ?_
  have hw' := hw
  obtain ⟨_, l, hl, hone⟩ := hw'
  obtain ⟨rfl, hn⟩ := lstat_entry (entryAt_ok hl).2.2.2.1 (entryAt_grow hone.grows hl) hq
  obtain ⟨_, ⟨f, hf⟩, _⟩ := hone
  rw [hf] at hn
  cases hn
  cases hsame
  exact hw.deed hA hl

/-- The changes of `fs.archive` and its job. -/
inductive ArchiveDeed (pol : Policy) (d0 : Disk) (i : ArchiveArgs) (d : Disk) : Deed → Prop
  | make {real : Loc} {δ : Deed} (hcheck : check pol d0 i.dest true = .ok real)
      (h : DestDeed d0 (archiveDest real) d δ) : ArchiveDeed pol d0 i d δ

theorem archiveDest_ne_nil {p : Loc} : archiveDest p ≠ [] := by
  unfold archiveDest
  split
  · rename_i h
    rintro rfl
    revert h
    decide
  · exact appendText_ne_nil _ _

theorem archiveDest_dropLast (p : Loc) : (archiveDest p).dropLast = p.dropLast := by
  unfold archiveDest
  split
  · rfl
  · exact appendText_dropLast p tarGzSuffix

theorem archiveJob_deeds {c : Codec} {srcs : List Loc} {dest : Loc}
    (hA : ∀ d δ, DestDeed d0 dest d δ → A.deed d δ)
    (hpack : MayPack A e d0 ⟨true, dest⟩ [] srcs) :
    Proc.Triple e (Before A d0) (archiveJob c srcs dest) (fun _ => HasDest A d0 dest) (Fine A) := by
  unfold archiveJob
  refine Proc.triple_bind (Proc.triple_orElseFirst (writeTarGz_deeds hA hpack)
    (removeDest_deeds hA)) fun size => ?_
  refine Proc.triple_bind (Proc.triple_weaken (chownDest_deeds hA) (fun _ h => h)
    (fun _ _ h => h) fun _ h => h.1) fun _ => ?_
  exact Proc.triple_pure fun _ hw => hw

theorem fsArchive_deeds {i : ArchiveArgs} :
    Proc.Triple e (Before A d0) (fsArchive pol i)
      (fun sd w => Before A d0 w ∧ (∀ src ∈ sd.1, ∃ raw ∈ i.paths, check pol d0 raw false = .ok src) ∧
        ∃ real, check pol d0 i.dest true = .ok real ∧ sd.2 = archiveDest real) (Fine A) := by
  unfold fsArchive
  split
  · exact triple_fail _ fun w hw => hw.2
  · refine Proc.triple_bind (Proc.triple_each fun p _ => triple_checked) fun srcs => ?_
    intro w hw
    obtain ⟨hw, hsrcs⟩ := hw
    exact Proc.triple_bind triple_checked (fun real =>
      Proc.triple_pure fun w hw => ⟨hw.1, hsrcs, real, hw.2, rfl⟩) w hw

/-! ## Unpacking -/

/-- The world of an extraction with its file open at `real`. -/
def Written (A : Rules) (d1 : Disk) (p real : Loc) (w : World) : Prop :=
  OnWay A d1 real w ∧ entryAt w.disk p = .ok real ∧ ∃ f, w.disk.get real = some (.file f)

theorem OnWay.file {f f0 : FileData} (h : OnWay A d1 real w)
    (hA : ∀ d δ, GrowDeed d1 real d δ → A.deed d δ) (hold : w.disk.get real = some (.file f0)) :
    OnWay A d1 real (w.did (some (.put real (.file f)))) := by
  refine ⟨h.1.did (hA _ _ (.oldFile h.2 hold)), h.2.put (List.prefix_refl real) rfl fun m hm => ?_⟩
  rw [hold] at hm
  cases hm
  rfl

theorem Written.file {p : Loc} (h : Written A d1 p real w) (f : FileData)
    (hA : ∀ d δ, GrowDeed d1 real d δ → A.deed d δ) :
    Written A d1 p real (w.did (some (.put real (.file f)))) := by
  obtain ⟨hway, he, f0, hf0⟩ := h
  refine ⟨hway.file hA hf0, entryAt_grow (d := w.disk) (grows_put fun m hm => ?_) he, f,
    Disk.get_put_self (fits_over hf0 (by simp [Node.isDir]))⟩
  rw [hf0] at hm
  cases hm
  rfl

theorem createPlace_entry {p l : Loc} (hlink : isLinkAt d p = false)
    (h : createPlace d p = .ok l) : entryAt d p = .ok l := by
  unfold createPlace at h
  split at h
  · cases h
  · rename_i q hq
    split at h
    · rename_i t ht
      exfalso
      obtain ⟨hq0, _, _, hne, _⟩ := entryAt_ok hq
      have hl : disk.lstat d p = .ok (q, .link t) := by
        unfold disk.lstat
        rw [if_neg hne, hq]
        simp [Disk.look, hq0, ht]
      simp [isLinkAt, hl, Node.isLink] at hlink
    · cases h
      exact hq

theorem writeFileFrom_deeds {p : Loc} {m : Member} {cut : Bool} (hp : Proper p)
    (hlead : LeadsTo d1 p real) (hA : ∀ d δ, GrowDeed d1 real d δ → A.deed d δ) :
    Proc.Triple e (OnWay A d1 real) (writeFileFrom p m cut) (fun _ => Fine A) (Fine A) := by
  unfold writeFileFrom
  refine Proc.triple_bind (statNode_keeps fun _ hw => hw.1) fun b => ?_
  split
  · exact triple_fail _ fun w hw => hw.1.1
  · rename_i hb
    refine Proc.triple_bind (M := fun l w => Written A d1 p real w ∧ l = real) ?_ fun l => ?_
    · refine triple_act (fun luck w c hw hc => ?_) fun w hw => hw.1.1
      obtain ⟨hway, hbl⟩ := hw
      have hlink : isLinkAt w.disk p = false := by rw [← hbl]; simpa using hb
      obtain ⟨hplace, hcase⟩ := createTrunc_ok hc
      have he := createPlace_entry hlink hplace
      rcases hcase with ⟨hnone, hdeed⟩ | ⟨old, hold, hdeed⟩
      · have hreal := (leadsTo_missing hp hlead hway.2 (List.prefix_refl p) he hnone).2 rfl
        have hfit := fun f => fits_new (n := .file f) he hnone
        rw [hreal] at hnone he hdeed hfit
        obtain ⟨hne, _, hdir, _⟩ := entryAt_ok he
        rw [hdeed, hreal]
        refine ⟨⟨⟨hway.1.did (hA _ _ (.newFile hway.2 hne hnone hdir)), ?_⟩, ?_, _,
          Disk.get_put_self (hfit _)⟩, rfl⟩
        · exact hway.2.put (List.prefix_refl real) rfl fun m hm => by rw [hnone] at hm; cases hm
        · exact entryAt_grow (d := w.disk)
            (grows_put fun m hm => by rw [hnone] at hm; cases hm) he
      · have hreal := leadsTo_there hp hlead hway.2 he hold rfl
        rw [hreal] at hold he hdeed
        rw [hdeed, hreal]
        have hw1 : Written A d1 p real w := ⟨hway, he, old, hold⟩
        exact ⟨hw1.file _ hA, rfl⟩
    · refine Proc.triple_bind (M := fun _ => Written A d1 p real) ?_ fun _ => ?_
      · by_cases hl : l = real
        · subst hl
          exact Proc.triple_weaken (keeps_writeAt (P := Written A d1 p l) (fun _ hw => hw)
            fun w f g hw _ _ _ => hw.file g hA) (fun w hw => hw.1) (fun _ _ h => h) fun _ h => h.1.1
        · intro w hw; exact absurd hw.2 hl
      · split
        · exact triple_fail _ fun w hw => hw.1.1
        · refine Proc.triple_bind (Proc.triple_weaken (triple_pause (P := Written A d1 p real)
            fun _ hw => hw) (fun _ h => h) (fun _ _ h => h) fun _ h => h.1.1) fun _ => ?_
          refine Proc.triple_weaken (keeps_chownLikeParent (P := Written A d1 p real)
            (fun _ hw => hw) ?_) (fun _ h => h) (fun _ _ h => h.1.1) fun _ h => h.1.1
          intro w q n m hw hq hsame
          have hw' := hw
          obtain ⟨_, he, f, hf⟩ := hw'
          obtain ⟨rfl, hn⟩ := lstat_entry (entryAt_ok he).2.2.2.1 he hq
          rw [hf] at hn
          cases hn
          cases hsame
          exact hw.file _ hA

theorem memberParts_proper (name : String) : Proper (memberParts name) := by
  unfold memberParts
  refine clean_proper ?_
  unfold clean isAbs
  simp

theorem safeJoin_ok {dest target : Loc} {name : String}
    (h : safeJoin pol d dest name = .ok target) :
    target = dest ++ memberParts name ∧ ∃ real, checkPath pol d target true = .ok real := by
  unfold safeJoin at h
  simp only at h
  split at h
  · cases h
  · split at h
    · cases h
    · cases h
      exact ⟨rfl, _, ‹_›⟩

theorem checkPath_leadsTo {p : Loc} {write : Bool} (hp : Proper p)
    (h : checkPath pol d p write = .ok real) : LeadsTo d p real := by
  unfold checkPath at h
  split at h
  · cases h
  · rename_i l hl
    obtain ⟨rfl, _⟩ := verdict_ok h
    exact resolve_leadsTo hp hl

/-- The changes of an extraction: each on the way to a place that the job
turned to, on the disk of that turn. -/
inductive ExtractDeed (Turn : Disk → Loc → Prop) (d : Disk) : Deed → Prop
  | make {d1 : Disk} {real : Loc} {δ : Deed} (hturn : Turn d1 real) (h : GrowDeed d1 real d δ) :
      ExtractDeed Turn d δ

variable {Turn : Disk → Loc → Prop}

/-- The kinds of members that are written: all but links, and the others only
from a zip. -/
def Unpacked (zip : Bool) : Kind → Prop
  | .dir | .reg => True
  | .link => False
  | .other => zip = true

/-- One member: the job turns to the place that its target leads to. -/
theorem extractOne_deeds {zip : Bool} {dest : Loc} {r : Reading} {m : Member}
    (hdest : Proper dest) (hA : ∀ d δ, ExtractDeed Turn d δ → A.deed d δ) :
    Proc.Triple e (fun w => Fine A w ∧ (Unpacked zip m.kind → ∀ real,
        checkPath pol w.disk (dest ++ memberParts m.name) true = .ok real → Turn w.disk real))
      (extractOne pol zip dest r m) (fun _ => Fine A) (Fine A) := by
  have hp : Proper (dest ++ memberParts m.name) :=
    proper_append.mpr ⟨hdest, memberParts_proper m.name⟩
  unfold extractOne
  refine Proc.triple_bind (Proc.triple_weaken (triple_pause (P := fun w => Fine A w ∧
    (Unpacked zip m.kind → ∀ real,
      checkPath pol w.disk (dest ++ memberParts m.name) true = .ok real → Turn w.disk real))
    fun _ hw => hw) (fun _ h => h) (fun _ _ h => h) fun _ h => h.1) fun _ => ?_
  refine Proc.triple_bind (M := fun target w => target = dest ++ memberParts m.name ∧
    ∃ d1 real, LeadsTo d1 target real ∧ (Unpacked zip m.kind → Turn d1 real) ∧ OnWay A d1 real w)
    (triple_ask (fun w target hw ht => ?_) fun w hw => hw.1) fun target => ?_
  · obtain ⟨rfl, real, hreal⟩ := safeJoin_ok ht
    exact ⟨rfl, w.disk, real, checkPath_leadsTo hp hreal, fun hk => hw.2 hk real hreal, hw.1,
      .refl _ _⟩
  · intro w hw
    obtain ⟨rfl, d1, real, hlead, hturn, hway⟩ := hw
    have hA' : Unpacked zip m.kind → ∀ d δ, GrowDeed d1 real d δ → A.deed d δ :=
      fun hk d δ h => hA d δ (.make (hturn hk) h)
    have hstop : ∀ n : Nat, Proc.Triple e (OnWay A d1 real) (pure n : Sys Nat) (fun _ => Fine A)
        (Fine A) := fun n => Proc.triple_pure fun w hw => hw.1
    revert w
    suffices h : Proc.Triple e (OnWay A d1 real) _ (fun _ => Fine A) (Fine A) from
      fun w hway => h w hway
    split
    · rename_i hk
      refine Proc.triple_bind (triple_attempt_fine (keeps_mkdirAll_way hp hlead
        (List.prefix_refl _) (hA' (by rw [hk]; trivial)))) fun _ => hstop _
    · exact hstop _
    · rename_i hdir hlink
      split
      · exact hstop _
      · rename_i hskip
        have hk : Unpacked zip m.kind := by
          cases hkind : m.kind with
          | dir => trivial
          | reg => trivial
          | link => exact absurd hkind hlink
          | other =>
            rw [hkind] at hskip
            simpa [Unpacked] using hskip
        refine Proc.triple_bind (Proc.triple_weaken (keeps_mkdirAll_way hp hlead
          (List.dropLast_prefix _) (hA' hk)) (fun _ h => h) (fun _ _ h => h) fun _ h => h.1) fun _ => ?_
        split
        · exact triple_fail _ fun w hw => hw.1
        · refine Proc.triple_bind (writeFileFrom_deeds hp hlead (hA' hk)) fun _ => ?_
          exact Proc.triple_pure fun w hw => hw

/-- The loop of an extraction, when each of its turns is one of `Turn`. -/
theorem extractAll_deeds {zip : Bool} {dest : Loc} {s : Stream} {w0 : World}
    (hdest : Proper dest) (hA : ∀ d δ, ExtractDeed Turn d δ → A.deed d δ)
    (hturns : ∀ ts t rest ns w, s.turns = ts ++ t :: rest → Unpacked zip t.2.kind →
      Proc.each (fun t => extractOne pol zip dest t.1 t.2) ts e w0 = (.ok ns, w) →
      ∀ real, checkPath pol w.disk (dest ++ memberParts t.2.name) true = .ok real →
        Turn w.disk real)
    (h0 : Fine A w0) : Fine A (extractAll pol zip dest s e w0).2 := by
  have hrun := Proc.each_run (I := Fine A) (T := Fine A) (fun ts t rest ns hts =>
    Proc.triple_weaken (extractOne_deeds hdest hA)
      (fun w hw => ⟨hw.2, fun hk => hturns ts t rest ns w hts hk hw.1⟩)
      (fun _ _ h => h) fun _ h => h) h0
  unfold extractAll
  rcases hr : Proc.each (fun t => extractOne pol zip dest t.1 t.2) s.turns e w0 with ⟨r, w⟩
  rw [hr] at hrun
  cases r with
  | error er =>
    rw [Proc.bind_run_error hr]
    exact hrun
  | ok ns =>
    rw [Proc.bind_run_ok hr]
    split <;> exact hrun

/-- The start of an extraction: directories on the way to the destination. -/
theorem openArchive_deeds {c : Codec} {src dest : Loc} (hres : Resolved d0 dest)
    (hA : ∀ d δ, GrowDeed d0 dest d δ → A.deed d δ)
    (hread : ∀ d q, Paved d0 d dest → follow d src = .ok q → A.read q) :
    Proc.Triple e (Before A d0) (openArchive c src dest) (fun _ => Fine A) (Fine A) := by
  unfold openArchive
  refine Proc.triple_weaken (P := OnWay A d0 dest) (T := OnWay A d0 dest)
    (Q := fun _ => OnWay A d0 dest) ?_ (fun w hw => ⟨hw.2, by rw [hw.1]; exact .refl _ _⟩)
    (fun _ _ h => h.1) fun _ h => h.1
  refine Proc.triple_bind (keeps_mkdirAll_way hres.1 hres.leadsTo (List.prefix_refl _) hA)
    fun _ => ?_
  unfold readArchive
  dsimp only
  split
  · refine Proc.triple_bind (keeps_readFile (D := fun d => Paved d0 d dest)
      fun d l hd hl => hread d l hd hl) fun f => ?_
    split
    · exact Proc.triple_pure fun _ hw => hw
    · exact triple_fail _ fun _ hw => hw
  · exact triple_fail _ fun _ hw => hw

theorem fsExtract_deeds {i : ExtractArgs} :
    Proc.Triple e (Before A d0) (fsExtract pol i)
      (fun sd w => Before A d0 w ∧ check pol d0 i.path false = .ok sd.1 ∧
        check pol d0 i.dest true = .ok sd.2) (Fine A) := by
  unfold fsExtract
  refine Proc.triple_bind triple_checked fun src => ?_
  by_cases hsrc : check pol d0 i.path false = .ok src
  rotate_left
  · intro w hw; exact absurd hw.2 hsrc
  refine Proc.triple_bind (Proc.triple_weaken triple_checked (fun _ hw => hw.1)
    (fun _ _ h => h) fun _ h => h) fun dest => ?_
  exact Proc.triple_pure fun w hw => ⟨hw.1, hsrc, hw.2⟩

/-! ## Requests -/

/-- The changes of a request other than `fs.delete` and `fs.extract`. -/
inductive RequestDeed (pol : Policy) (d0 d : Disk) : Request → Deed → Prop
  | write {i δ} (h : WriteDeed pol d0 i d δ) : RequestDeed pol d0 d (.write i) δ
  | abort {i δ} (h : AbortDeed pol d0 i d δ) : RequestDeed pol d0 d (.abort i) δ
  | mkdir {i δ} (h : MkdirDeed pol d0 i d δ) : RequestDeed pol d0 d (.mkdir i) δ
  | rename {i δ} (h : RenameDeed pol d0 i d δ) : RequestDeed pol d0 d (.rename i) δ
  | chmod {i δ} (h : ChmodDeed pol d0 i d δ) : RequestDeed pol d0 d (.chmod i) δ
  | archive {i δ} (h : ArchiveDeed pol d0 i d δ) : RequestDeed pol d0 d (.archive i) δ

/-- The files that a request other than `fs.extract` may read. -/
inductive ReadPlace (pol : Policy) (d0 : Disk) : Request → Loc → Prop
  | read {i l} (h : check pol d0 i.path false = .ok l) : ReadPlace pol d0 (.read i) l
  | tail {i l} (h : check pol d0 i.path false = .ok l) : ReadPlace pol d0 (.tail i) l
  | archive {i raw src l} (hraw : raw ∈ i.paths) (h : check pol d0 raw false = .ok src) (hsrc : src <+: l)
      (hl : deniedLexical l = false) : ReadPlace pol d0 (.archive i) l

/-- The job of `fs.extract` comes to the member `m`, with the disk `d`. -/
structure ComesTo (c : Codec) (pol : Policy) (e : Env) (d0 : Disk) (i : ExtractArgs) (dest : Loc)
    (m : Member) (d : Disk) : Prop where
  checked : check pol d0 i.dest true = .ok dest
  turn : ∃ src zip s w0 ts r rest ns w, check pol d0 i.path false = .ok src ∧
    openArchive c src dest e (World.start d0) = (.ok (zip, s), w0) ∧
    s.turns = ts ++ (r, m) :: rest ∧ Unpacked zip m.kind ∧
    Proc.each (fun t => extractOne pol zip dest t.1 t.2) ts e w0 = (.ok ns, w) ∧ w.disk = d

/-- The rules let `fs.extract` do its work. -/
structure ExtractAllowed (c : Codec) (pol : Policy) (e : Env) (d0 : Disk) (i : ExtractArgs)
    (A : Rules) : Prop where
  deed : ∀ dest d δ, check pol d0 i.dest true = .ok dest → GrowDeed d0 dest d δ → A.deed d δ
  turn : ∀ dest m d1 real d δ, ComesTo c pol e d0 i dest m d1 →
    checkPath pol d1 (dest ++ memberParts m.name) true = .ok real → GrowDeed d1 real d δ →
    A.deed d δ
  read : ∀ src dest d q, check pol d0 i.path false = .ok src → check pol d0 i.dest true = .ok dest →
    Paved d0 d dest → follow d src = .ok q → A.read q

theorem before_start (A : Rules) (h : A.first = d) : Before A d (World.start d) :=
  ⟨rfl, lawful_start d, by simp [World.start], h.symm⟩

theorem handle_archive {c : Codec} {i : ArchiveArgs} : handle c pol (.archive i) =
    (fsArchive pol i >>= fun sd => (archiveJob c sd.1 sd.2).attempt >>= fun _ => pure .job) := rfl

theorem handle_extract {c : Codec} {i : ExtractArgs} : handle c pol (.extract i) =
    (fsExtract pol i >>= fun sd => (extractJob c pol sd.1 sd.2).attempt >>= fun _ => pure .job) := rfl

theorem fsExtract_run {i : ExtractArgs} {r : Except GoError (Loc × Loc)} {w' : World}
    (h : fsExtract pol i e w = (r, w')) : w' = w := by
  have hkeep : Proc.Keeps e (· = w) (fsExtract pol i) := by
    unfold fsExtract
    refine Proc.triple_bind (M := fun _ => (· = w)) (triple_ask (fun _ _ hw _ => hw) fun _ hw => hw)
      fun _ => ?_
    exact Proc.triple_bind (M := fun _ => (· = w)) (triple_ask (fun _ _ hw _ => hw) fun _ hw => hw)
      fun _ => Proc.triple_pure fun _ hw => hw
  have := hkeep.state rfl
  rwa [h] at this

theorem extract_fine {c : Codec} {i : ExtractArgs} (h : ExtractAllowed c pol e d0 i A)
    (h0 : A.first = d0) :
    Fine A (handle c pol (.extract i) e (World.start d0)).2 := by
  have hstart := (fsExtract_deeds : Proc.Triple e _ (fsExtract pol i) _ _) (World.start d0)
    (before_start A h0)
  rw [handle_extract]
  rcases hx : fsExtract pol i e (World.start d0) with ⟨r, w⟩
  rw [hx] at hstart
  cases r with
  | error er =>
    rw [Proc.bind_run_error hx]
    exact hstart
  | ok sd =>
    obtain ⟨src, dest⟩ := sd
    obtain ⟨_, hsrc, hdest⟩ := hstart
    obtain rfl := fsExtract_run hx
    rw [Proc.bind_run_ok hx]
    have hcl := check_cleared hdest
    have hopen := openArchive_deeds (e := e) (c := c) hcl.resolved (h.deed dest · · hdest ·)
      (h.read src dest · · hsrc hdest · ·) (World.start d0) (before_start A h0)
    show Fine A (extractJob c pol src dest e (World.start d0)).2
    unfold extractJob
    rcases ho : openArchive c src dest e (World.start d0) with ⟨r, w0⟩
    rw [ho] at hopen
    cases r with
    | error er =>
      rw [Proc.bind_run_error ho]
      exact hopen
    | ok zs =>
      obtain ⟨zip, s⟩ := zs
      rw [Proc.bind_run_ok ho]
      have hdeed : ∀ d δ, ExtractDeed (fun d1 real => ∀ d δ, GrowDeed d1 real d δ → A.deed d δ) d δ →
          A.deed d δ := by
        rintro d δ ⟨hturn, hgrow⟩
        exact hturn d δ hgrow
      refine extractAll_deeds hcl.resolved.1 hdeed ?_ hopen
      · rintro ts ⟨r, m⟩ rest ns w hts hk hrun real hreal d δ hgrow
        exact h.turn dest m w.disk real d δ
          ⟨hdest, src, zip, s, w0, ts, r, rest, ns, w, hsrc, ho, hts, hk, hrun, rfl⟩ hreal hgrow

theorem reply_fine {α β : Type} {x : Sys α} {f : α → β} {P : World → Prop}
    (h : Proc.Triple e P x (fun _ => Fine A) (Fine A)) :
    Proc.Triple e P (x >>= fun a => (pure (f a) : Sys β)) (fun _ => Fine A) (Fine A) :=
  Proc.triple_bind h fun _ => Proc.triple_pure fun _ hw => hw

/-- A request keeps to every rules that allow its changes and let what it may
read be read. -/
theorem handle_fine {c : Codec} {r : Request} (h0 : A.first = d0) (hR : ∀ l, ReadPlace pol d0 r l → A.read l)
    (hA : ∀ d δ, RequestDeed pol d0 d r δ → A.deed d δ)
    (hd : ∀ paths, r = .delete paths → DeleteAllowed pol e d0 paths A)
    (hx : ∀ i, r = .extract i → ExtractAllowed c pol e d0 i A) :
    Fine A (handle c pol r e (World.start d0)).2 := by
  have hend : ∀ {α : Type} {x : Sys α} {B : Rules}, B.first = d0 → (∀ d δ, B.deed d δ → A.deed d δ) →
      (∀ l, B.read l → A.read l) →
      Proc.Triple e (Before B d0) x (fun _ => Fine B) (Fine B) → Fine A (x e (World.start d0)).2 := by
    intro α x B hB h1 h2 h
    have hfine := h.state (before_start B hB)
    exact ⟨hfine.lawful.mono h1, fun l hl => h2 l (hfine.reads l hl), by rw [hfine.first, hB, h0]⟩
  cases r with
  | list path => exact hend h0 (fun _ _ h => h) (fun _ h => h) (reply_fine fsList_fine)
  | stat path => exact hend h0 (fun _ _ h => h) (fun _ h => h) (reply_fine fsStat_fine)
  | read i => exact hend h0 (fun _ _ h => h) (fun _ h => h) (reply_fine (fsRead_fine fun l hl => hR l (.read hl)))
  | tail i => exact hend h0 (fun _ _ h => h) (fun _ h => h) (reply_fine (fsTail_fine fun l hl => hR l (.tail hl)))
  | write i =>
    exact hend (B := ⟨WriteDeed pol d0 i, A.read, d0⟩) rfl (fun d δ h => hA d δ (.write h)) (fun _ h => h)
      (reply_fine fsWrite_deeds)
  | abort i =>
    exact hend (B := ⟨AbortDeed pol d0 i, A.read, d0⟩) rfl (fun d δ h => hA d δ (.abort h)) (fun _ h => h)
      (reply_fine fsAbort_deeds)
  | mkdir i =>
    exact hend (B := ⟨MkdirDeed pol d0 i, A.read, d0⟩) rfl (fun d δ h => hA d δ (.mkdir h)) (fun _ h => h)
      (reply_fine fsMkdir_deeds)
  | rename i =>
    exact hend (B := ⟨RenameDeed pol d0 i, A.read, d0⟩) rfl (fun d δ h => hA d δ (.rename h)) (fun _ h => h)
      (reply_fine fsRename_deeds)
  | delete paths =>
    have hfine := fsDelete_deeds (hd paths rfl) (before_start A h0).2
    have hall : Proc.Triple e (· = World.start d0) (fsDelete pol paths) (fun _ => Fine A) (Fine A) :=
      Proc.triple_of_state fun w hw => hw ▸ hfine
    exact (reply_fine (f := Reply.deleted) hall).state rfl
  | chmod i =>
    exact hend (B := ⟨ChmodDeed pol d0 i, A.read, d0⟩) rfl (fun d δ h => hA d δ (.chmod h)) (fun _ h => h)
      (reply_fine fsChmod_deeds)
  | archive i =>
    refine hend (B := ⟨ArchiveDeed pol d0 i, A.read, d0⟩) rfl (fun d δ h => hA d δ (.archive h))
      (fun _ h => h) ?_
    refine Proc.triple_bind fsArchive_deeds fun sd => ?_
    obtain ⟨srcs, dest⟩ := sd
    intro w hw
    obtain ⟨hw, hsrcs, real, hreal, hdest⟩ := hw
    simp only at hdest hsrcs
    subst hdest
    have hreads : ∀ src ∈ srcs, ∀ l, src <+: l → deniedLexical l = false → A.read l := by
      intro src hs l hpre hl
      obtain ⟨raw, hraw, hcheck⟩ := hsrcs src hs
      exact hR l (.archive hraw hcheck hpre hl)
    have hresolved : ∀ src ∈ srcs, Resolved d0 src := by
      intro src hs
      obtain ⟨raw, -, hcheck⟩ := hsrcs src hs
      exact (check_ok hcheck).1
    have hjob := archiveJob_deeds (e := e) (c := c) (A := ⟨ArchiveDeed pol d0 i, A.read, d0⟩)
      (fun d δ h => .make hreal h) (mayPack_of_resolved hreads hresolved)
    have hall : Proc.Triple e (Before ⟨ArchiveDeed pol d0 i, A.read, d0⟩ d0)
        (archiveJob c srcs (archiveDest real)).attempt
        (fun _ => Fine ⟨ArchiveDeed pol d0 i, A.read, d0⟩) (Fine ⟨ArchiveDeed pol d0 i, A.read, d0⟩) := by
      refine Proc.triple_weaken (Proc.triple_attempt hjob) (fun _ h => h) ?_ fun _ h => h
      rintro (er | a) s hs
      · exact hs
      · exact hs.1
    exact reply_fine (f := fun _ => Reply.job) hall w hw
  | extract i => exact extract_fine (hx i rfl) h0
  | malformed => exact (before_start A h0).2

end icsd_panel.deeds

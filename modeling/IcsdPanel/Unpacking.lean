-- Where an extraction writes: below its destination, never through a link and
-- never a link, whatever the archive holds. That all it makes is in a writable
-- root too takes that the directories that are missing on the way are.
import IcsdPanel.Straying
import IcsdPanel.Planted

open effects

namespace icsd_panel.unpacking

open paths disk machine policy files archives requests deeds confinement

variable {c : Codec} {pol : Policy} {d d0 : Disk} {e : Env} {w : World} {dest l p q real : Loc}
  {xs : List Name} {n : Node} {δ : Deed}

/-! ## Below the destination -/

/-- A change of the entry itself of a path below `dest`: no link is made, and
none is written through. -/
inductive Below (dest : Loc) (d : Disk) : Deed → Prop
  | put {xs : List Name} {l : Loc} {n : Node} (hxs : xs ≠ []) (he : entryAt d (dest ++ xs) = .ok l)
      (hnew : n.isLink = false) (hold : ∀ t, d.get l ≠ some (.link t)) : Below dest d (.put l n)

/-- All changes so far were below `dest`, which is a directory. -/
def Kept (dest : Loc) (w : World) : Prop := Lawful (Below dest) w ∧ w.disk.IsDirAt dest

theorem Kept.put (h : Kept dest w) (hxs : xs ≠ []) (he : entryAt w.disk (dest ++ xs) = .ok l)
    (hnew : n.isLink = false) (hold : ∀ m, w.disk.get l = some m → n.shape = m.shape) :
    Kept dest (w.did (some (.put l n))) := by
  refine ⟨h.1.did (.put hxs he hnew fun t ht => ?_), (grows_put hold).isDirAt h.2⟩
  have := shape_isLink (hold _ ht)
  rw [hnew] at this
  cases this

/-- The path of an entry that is missing is below `dest`, when it is on the way
to a path at or below it. -/
theorem missing_below (hdest : Proper dest) (hdir : d.IsDirAt dest) (hq : q <+: dest ++ xs)
    (he : entryAt d q = .ok l) (hnone : d.get l = none) : ∃ ys, ys ≠ [] ∧ q = dest ++ ys := by
  have hnot : ¬ q <+: dest := by
    intro hpre
    have hqdir := hdir.above hpre
    obtain ⟨-, -, -, hne, -⟩ := entryAt_ok he
    rw [entryAt_plain (proper_above hpre hdest) hne (hqdir.above (List.dropLast_prefix q))] at he
    cases he
    rcases hqdir with h0 | ⟨a, ha⟩
    · exact hne h0
    · rw [hnone] at ha
      cases ha
  rcases List.prefix_or_prefix_of_prefix hq (List.prefix_append dest xs) with h | ⟨ys, rfl⟩
  · exact absurd h hnot
  · refine ⟨ys, ?_, rfl⟩
    rintro rfl
    exact hnot (by simp)

theorem keeps_mkdirAll_below {t : Loc} {mode : Nat} (hdest : Proper dest) (ht : t <+: dest ++ xs) :
    Proc.Keeps e (Kept dest) (mkdirAll t mode) := by
  refine keeps_mkdirAll (fun _ hw => hw) fun w q ch hw hq _ hc => ?_
  obtain ⟨l, he, hnone, hdeed⟩ := mkdir_ok hc
  obtain ⟨ys, hys, rfl⟩ := missing_below hdest hw.2 (hq.trans ht) he hnone
  rw [hdeed]
  exact hw.put hys he rfl fun m hm => by rw [hnone] at hm; cases hm

/-- The file of a member is open at `l`. -/
def Writing (dest : Loc) (xs : List Name) (l : Loc) (w : World) : Prop :=
  Kept dest w ∧ entryAt w.disk (dest ++ xs) = .ok l ∧ ∃ f, w.disk.get l = some (.file f)

theorem Writing.file {f : FileData} (h : Writing dest xs l w) (hxs : xs ≠ []) :
    Writing dest xs l (w.did (some (.put l (.file f)))) := by
  obtain ⟨hkept, he, f0, hf0⟩ := h
  have hold : ∀ m, w.disk.get l = some m → (Node.file f).shape = m.shape := by
    intro m hm
    rw [hf0] at hm
    cases hm
    rfl
  exact ⟨hkept.put hxs he rfl hold, entryAt_grow (d := w.disk) (grows_put hold) he, f,
    Disk.get_put_self (fits_over hf0 (by simp [Node.isDir]))⟩

/-- The destination itself is no file that could be written. -/
theorem not_dest (hdest : Proper dest) (hdir : d.IsDirAt dest) (he : entryAt d (dest ++ xs) = .ok l)
    (hl : d.get l = none ∨ ∃ f, d.get l = some (.file f)) : xs ≠ [] := by
  rintro rfl
  rw [List.append_nil] at he
  obtain ⟨-, -, -, hne, -⟩ := entryAt_ok he
  rw [entryAt_plain hdest hne (hdir.above (List.dropLast_prefix dest))] at he
  cases he
  rcases hdir with h0 | ⟨a, ha⟩
  · exact hne h0
  · rcases hl with hl | ⟨f, hl⟩ <;> rw [hl] at ha <;> cases ha

theorem writeFileFrom_below {m : Member} {cut : Bool} (hdest : Proper dest) :
    Proc.Keeps e (Kept dest) (writeFileFrom (dest ++ xs) m cut) := by
  unfold writeFileFrom
  refine Proc.triple_bind (statNode_keeps fun _ hw => hw) fun b => ?_
  split
  · exact triple_fail _ fun w hw => hw.1
  · rename_i hb
    refine Proc.triple_bind (M := fun l w => Writing dest xs l w ∧ xs ≠ []) ?_ fun l => ?_
    · refine triple_act (fun luck w ch hw hc => ?_) fun w hw => hw.1
      obtain ⟨hkept, hbl⟩ := hw
      have hlink : isLinkAt w.disk (dest ++ xs) = false := by rw [← hbl]; simpa using hb
      obtain ⟨hplace, hcase⟩ := createTrunc_ok hc
      have he := createPlace_entry hlink hplace
      rcases hcase with ⟨hnone, hdeed⟩ | ⟨old, hold, hdeed⟩
      · have hxs := not_dest hdest hkept.2 he (Or.inl hnone)
        have hnew : ∀ f m, w.disk.get ch.value = some m → (Node.file f).shape = m.shape := by
          intro f m hm
          rw [hnone] at hm
          cases hm
        rw [hdeed]
        exact ⟨⟨hkept.put hxs he rfl (hnew _), entryAt_grow (d := w.disk) (grows_put (hnew _)) he, _,
          Disk.get_put_self (fits_new he hnone)⟩, hxs⟩
      · have hxs := not_dest hdest hkept.2 he (Or.inr ⟨old, hold⟩)
        have hw1 : Writing dest xs ch.value w := ⟨hkept, he, old, hold⟩
        rw [hdeed]
        exact ⟨hw1.file hxs, hxs⟩
    · by_cases hxs : xs = []
      · intro w hw
        exact absurd hxs hw.2
      refine Proc.triple_weaken (P := Writing dest xs l) (Q := fun _ => Kept dest) (T := Kept dest)
        ?_ (fun w hw => hw.1) (fun _ _ h => h) fun _ h => h
      refine Proc.triple_bind (M := fun _ => Writing dest xs l) ?_ fun _ => ?_
      · exact Proc.triple_weaken (keeps_writeAt (P := Writing dest xs l) (fun _ hw => hw)
          fun w f g hw _ _ _ => hw.file hxs) (fun _ h => h) (fun _ _ h => h) fun _ h => h.1
      · split
        · exact triple_fail _ fun w hw => hw.1
        · refine Proc.triple_bind (Proc.triple_weaken (triple_pause (P := Writing dest xs l)
            fun _ hw => hw) (fun _ h => h) (fun _ _ h => h) fun _ h => h.1) fun _ => ?_
          refine Proc.triple_weaken (keeps_chownLikeParent (P := Writing dest xs l)
            (fun _ hw => hw) ?_) (fun _ h => h) (fun _ _ h => h.1) fun _ h => h.1
          intro w q n m hw hq hsame
          have hw' := hw
          obtain ⟨_, he, f, hf⟩ := hw'
          obtain ⟨rfl, hn⟩ := lstat_entry (entryAt_ok he).2.2.2.1 he hq
          rw [hf] at hn
          cases hn
          cases hsame
          exact hw.file hxs

theorem extractOne_below {zip : Bool} {r : Reading} {m : Member} (hdest : Proper dest) :
    Proc.Keeps e (Kept dest) (extractOne pol zip dest r m) := by
  unfold extractOne
  refine Proc.triple_bind (triple_pause fun _ hw => hw) fun _ => ?_
  refine Proc.triple_bind (M := fun target w => Kept dest w ∧ target = dest ++ memberParts m.name)
    (triple_ask (fun w target hw ht => ⟨hw, (safeJoin_ok ht).1⟩) fun w hw => hw) fun target => ?_
  by_cases htarget : target = dest ++ memberParts m.name
  rotate_left
  · intro w hw
    exact absurd hw.2 htarget
  subst htarget
  refine Proc.triple_weaken (P := Kept dest) (Q := fun _ => Kept dest) (T := Kept dest) ?_
    (fun w hw => hw.1) (fun _ _ h => h) fun _ h => h
  have hstop : ∀ n : Nat, Proc.Keeps e (Kept dest) (pure n : Sys Nat) := fun n =>
    Proc.triple_pure fun w hw => hw
  split
  · exact Proc.triple_bind (triple_attempt_fine (keeps_mkdirAll_below hdest (List.prefix_refl _)))
      fun _ => hstop _
  · exact hstop _
  · split
    · exact hstop _
    · refine Proc.triple_bind (keeps_mkdirAll_below hdest (List.dropLast_prefix _)) fun _ => ?_
      split
      · exact triple_fail _ fun w hw => hw
      · exact Proc.triple_bind (writeFileFrom_below hdest) fun _ => hstop _

/-- The loop of an extraction, over any archive. -/
theorem extractAll_below {zip : Bool} {s : Stream} (hdest : Proper dest) :
    Proc.Keeps e (Kept dest) (extractAll pol zip dest s) := by
  unfold extractAll
  refine Proc.triple_bind (M := fun _ => Kept dest) ?_ fun ns => ?_
  · refine Proc.triple_weaken (Proc.triple_each (I := Kept dest) (R := fun _ _ => True)
      (T := Kept dest) fun t _ => ?_) (fun _ h => h) (fun _ _ h => h.1) fun _ h => h
    exact Proc.triple_weaken (extractOne_below hdest) (fun _ h => h) (fun _ _ h => ⟨h, trivial⟩)
      fun _ h => h
  · split
    · exact triple_fail _ fun w hw => hw
    · exact Proc.triple_pure fun w hw => hw

theorem extractJob_below {src : Loc} (hdest : Proper dest) :
    Proc.Keeps e (Kept dest) (extractJob c pol src dest) := by
  unfold extractJob openArchive readArchive
  refine Proc.triple_bind (M := fun _ => Kept dest) ?_ fun zs => ?_
  · refine Proc.triple_bind (keeps_mkdirAll_below hdest (List.prefix_append dest []))
      fun _ => ?_
    dsimp only
    split
    · refine Proc.triple_bind (M := fun _ => Kept dest)
        (triple_readFile (fun w l f hw _ => hw) fun w hw => hw) fun f => ?_
      split
      · exact Proc.triple_pure fun w hw => hw
      · exact triple_fail _ fun w hw => hw
    · exact triple_fail _ fun w hw => hw
  · exact extractAll_below hdest

theorem lawful_and {A B : Disk → Deed → Prop} (hA : Lawful A w) (hB : Lawful B w) :
    Lawful (fun d δ => A d δ ∧ B d δ) w := by
  obtain ⟨d, deeds, _, _⟩ := w
  unfold Lawful at hA hB ⊢
  simp only at hA hB ⊢
  induction deeds with
  | nil => trivial
  | cons δ deeds ih => exact ⟨ih hA.1 hB.1, hA.2, hB.2⟩

/-- An extraction into a directory changes only entries below it, and neither
makes a link nor writes through one. -/
theorem extract_below {i : ExtractArgs} (hcheck : check pol d i.dest true = .ok dest)
    (hdir : d.IsDirAt dest) : Lawful (Below dest) (handle c pol (.extract i) e (World.start d)).2 := by
  have hstart := (fsExtract_deeds : Proc.Triple e _ (fsExtract pol i) _ _) (World.start d)
    (before_start ⟨fun _ _ => True, fun _ => True, d⟩ rfl)
  rw [handle_extract]
  rcases hx : fsExtract pol i e (World.start d) with ⟨r, w⟩
  obtain rfl := fsExtract_run hx
  rw [hx] at hstart
  cases r with
  | error er =>
    rw [Proc.bind_run_error hx]
    exact lawful_start d
  | ok sd =>
    obtain ⟨src, dest'⟩ := sd
    have hdest : check pol d i.dest true = .ok dest' := hstart.2.2
    rw [hcheck, Except.ok.injEq] at hdest
    subst hdest
    rw [Proc.bind_run_ok hx]
    have hkept : Kept dest (World.start d) := ⟨lawful_start d, hdir⟩
    exact ((extractJob_below (check_cleared hcheck).resolved.1).state hkept).1

/-! ## Inside the roots -/

/-- What a change of an extraction may be: of an entry below the destination, in
a writable root and not denied, with no link made or written through. -/
structure Tame (pol : Policy) (dest : Loc) (d : Disk) (δ : Deed) : Prop where
  below : Below dest d δ
  inside : Inside pol d δ
  allowed : ∀ l ∈ δ.places d, deniedLexical l = false ∧ homeDotfile l = false

theorem grow_allowed {d1 : Disk} (hden : deniedLexical real = false) (hhome : homeDotfile real = false)
    (h : GrowDeed d1 real d δ) : ∀ l ∈ δ.places d, deniedLexical l = false ∧ homeDotfile l = false := by
  intro l hl
  cases h with
  | dir hp hq hne hproper hnone hpar =>
    rw [List.mem_singleton.mp hl]
    exact ⟨denied.allowed_above hq hden, planted.shown_above hq hhome⟩
  | newFile => rw [List.mem_singleton.mp hl]; exact ⟨hden, hhome⟩
  | oldFile => rw [List.mem_singleton.mp hl]; exact ⟨hden, hhome⟩
  | oldDir => rw [List.mem_singleton.mp hl]; exact ⟨hden, hhome⟩

/-- The way to a directory has nothing missing. -/
theorem way_to_dir (h : d.IsDirAt l) : WayInside pol d l := by
  intro q hq hne hnone _
  rcases h.above hq with h0 | ⟨a, ha⟩
  · exact absurd h0 hne
  · rw [hnone] at ha
    cases ha

/-- An extraction into a directory is tame when at each turn the directories
that are missing on the way to the place of its member are in a writable root. -/
theorem extract_tame {i : ExtractArgs} (hcheck : check pol d i.dest true = .ok dest)
    (hdir : d.IsDirAt dest)
    (hway : ∀ m d1 real, ComesTo c pol e d i dest m d1 →
      checkPath pol d1 (dest ++ memberParts m.name) true = .ok real → WayInside pol d1 real)
    (hrun : (handle c pol (.extract i) e (World.start d)).2 = w) : Lawful (Tame pol dest) w := by
  subst hrun
  have hdest := (check_cleared hcheck).resolved.1
  have hallowed : ExtractAllowed c pol e d i ⟨fun d δ => Inside pol d δ ∧
      ∀ l ∈ δ.places d, deniedLexical l = false ∧ homeDotfile l = false, fun _ => True, d⟩ := by
    refine ⟨fun dest' d' δ hcheck' hgrow => ?_, fun dest' m d1 real d' δ hcomes hreal hgrow => ?_,
      fun _ _ _ _ _ _ _ _ => trivial⟩
    · rw [hcheck, Except.ok.injEq] at hcheck'
      subst hcheck'
      obtain ⟨-, hden, hwrite⟩ := check_ok hcheck
      exact ⟨grow_inside (way_to_dir hdir) (hwrite rfl).2 hgrow, grow_allowed hden (hwrite rfl).1 hgrow⟩
    · have hcheck' := hcomes.checked
      rw [hcheck, Except.ok.injEq] at hcheck'
      subst hcheck'
      obtain ⟨-, hden, hwrite⟩ := checkPath_ok (proper_append.mpr ⟨hdest, memberParts_proper m.name⟩) hreal
      exact ⟨grow_inside (hway m d1 real hcomes hreal) (hwrite rfl).2 hgrow,
        grow_allowed hden (hwrite rfl).1 hgrow⟩
  have hboth := lawful_and (extract_below (c := c) (e := e) hcheck hdir) (extract_fine hallowed rfl).lawful
  exact hboth.mono fun d δ h => ⟨h.1, h.2.1, h.2.2⟩

/-- On the way to a place in a root that is there, nothing is missing outside. -/
theorem way_in_root {r rr : Loc} (hr : r ∈ pol.roots) (hres : resolve d r = .ok rr)
    (hthere : (d.look rr).isSome) (hin : rr <+: real) : WayInside pol d real := by
  intro q hq hne hnone _
  have hroot : ∀ q, rr <+: q → inWritable pol d q = true := by
    intro q hpre
    unfold inWritable
    rw [Bool.or_eq_true]
    refine Or.inl (List.any_eq_true.mpr ⟨r, hr, ?_⟩)
    unfold inRoot
    rw [hres]
    exact (within_iff q rr).mpr hpre
  rcases List.prefix_or_prefix_of_prefix hq hin with h | h
  · by_cases hqr : q = rr
    · exact hroot q (hqr ▸ List.prefix_refl _)
    · exfalso
      have hrr : rr ≠ [] := fun h0 => hqr ((List.prefix_nil.mp (h0 ▸ h)).trans h0.symm)
      rw [Disk.look, if_neg hrr] at hthere
      rcases Disk.isDirAt_above h hqr hthere with h0 | ⟨a, ha⟩
      · exact hne h0
      · rw [hnone] at ha
        cases ha
  · exact hroot q h

/-! ## Two archives -/

/-- A zip format that has one archive. -/
def zipOf (m : Member) : Codec := { countedCodec with unzip := fun _ => some ⟨[m], .eof⟩ }

def page : Member := ⟨"news/a.html", .reg, 0o644, [1]⟩

def siteDisk : Disk := webDisk.put ["var", "www", "x.zip"] (.file ⟨[0], 0, ⟨0o644, 0, 0⟩, false⟩)

example : check webPolicy siteDisk "/var/www/x.zip" false = .ok ["var", "www", "x.zip"] := by decide +kernel

theorem openArchive_zip {m : Member} {dest : Loc} {r : Except GoError (Bool × Stream)} {w0 : World}
    (hdest : Proper dest) (hdir : d.IsDirAt dest)
    (h : openArchive (zipOf m) ["var", "www", "x.zip"] dest e (World.start d) = (r, w0)) :
    w0.disk = d ∧ ∀ zs, r = .ok zs → zs.2 = ⟨[m], .eof⟩ := by
  have hmk : mkdirAll dest 0o755 e (World.start d) = (.ok (), World.start d) :=
    mkdirAllRev_there (by simpa using hdest) (by simpa using hdir)
  have hread : Proc.Triple e (· = World.start d) (readArchive (zipOf m) ["var", "www", "x.zip"])
      (fun zs w => w.disk = d ∧ zs.2 = ⟨[m], .eof⟩) (fun w => w.disk = d) := by
    have hzip : hasSuffix (((["var", "www", "x.zip"] : Loc).getLast?).getD "") ".zip" = true := by decide
    unfold readArchive
    simp only [hzip, Bool.true_or, if_true, zipOf]
    refine Proc.triple_bind (M := fun _ w => w.disk = d)
      (triple_readFile (fun w l f hw _ => by rw [hw]; rfl) fun w hw => by rw [hw]; rfl) fun f => ?_
    exact Proc.triple_pure fun w hw => ⟨hw, rfl⟩
  have hrun := hread (World.start d) rfl
  unfold openArchive at h
  rw [Proc.bind_run_ok hmk] at h
  rw [h] at hrun
  cases r with
  | error er => exact ⟨hrun, fun zs hzs => by cases hzs⟩
  | ok zs => exact ⟨hrun.1, fun zs' hzs => by cases hzs; exact hrun.2⟩

/-- A page of a site, with a new directory of the site. -/
theorem page_tame : ∃ w, (handle (zipOf page) webPolicy (.extract ⟨"/var/www/x.zip", "/var/www"⟩)
    (calm 0 []) (World.start siteDisk)).2 = w ∧ Lawful (Tame webPolicy ["var", "www"]) w := by
  have hcheck : check webPolicy siteDisk (ExtractArgs.dest ⟨"/var/www/x.zip", "/var/www"⟩) true =
      .ok ["var", "www"] := by decide +kernel
  have hsrc : check webPolicy siteDisk "/var/www/x.zip" false = .ok ["var", "www", "x.zip"] := by
    decide +kernel
  have hdir : siteDisk.IsDirAt ["var", "www"] := by decide +kernel
  have hway : ∀ m d1 real,
      ComesTo (zipOf page) webPolicy (calm 0 []) siteDisk ⟨"/var/www/x.zip", "/var/www"⟩ ["var", "www"] m d1 →
      checkPath webPolicy d1 (["var", "www"] ++ memberParts m.name) true = .ok real →
      WayInside webPolicy d1 real := by
    rintro m d1 real ⟨-, src, zip, s, w0, ts, r, rest, ns, w, hsrc', hopen, hturns, -, hrun, rfl⟩ hreal
    rw [hsrc, Except.ok.injEq] at hsrc'
    subst hsrc'
    obtain ⟨hdisk, hs⟩ := openArchive_zip (by decide) hdir hopen
    have hs := hs _ rfl
    simp only at hs
    subst hs
    have hnil : ts = [] ∧ m = page := by
      cases ts with
      | nil =>
        simp only [Stream.turns, List.map_cons, List.map_nil, List.append_nil, List.nil_append,
          List.cons.injEq, Prod.mk.injEq] at hturns
        exact ⟨rfl, hturns.1.2.symm⟩
      | cons t ts =>
        simp [Stream.turns] at hturns
    obtain ⟨rfl, rfl⟩ := hnil
    cases hrun
    rw [hdisk] at hreal ⊢
    have hplace : checkPath webPolicy siteDisk (["var", "www"] ++ memberParts page.name) true =
        .ok ["var", "www", "news", "a.html"] := by decide +kernel
    rw [hplace, Except.ok.injEq] at hreal
    subst hreal
    have hres : resolve siteDisk ["var", "www"] = .ok ["var", "www"] := by decide +kernel
    exact way_in_root (by decide +kernel) hres (by decide +kernel) (by decide)
  obtain ⟨w, hw⟩ : ∃ w, (handle (zipOf page) webPolicy (.extract ⟨"/var/www/x.zip", "/var/www"⟩) (calm 0 [])
    (World.start siteDisk)).2 = w := ⟨_, rfl⟩
  exact ⟨w, hw, extract_tame hcheck hdir hway hw⟩

instance decidableLawfulFrom {A : Disk → Deed → Prop} [∀ d δ, Decidable (A d δ)] (d : Disk) :
    (deeds : List Deed) → Decidable (LawfulFrom A d deeds)
  | [] => isTrue trivial
  | δ :: deeds =>
    have := decidableLawfulFrom (A := A) d deeds
    inferInstanceAs (Decidable (LawfulFrom A d deeds ∧ A (replay d deeds) δ))

instance (pol : Policy) (d : Disk) (δ : Deed) : Decidable (Inside pol d δ) :=
  inferInstanceAs (Decidable (∀ l ∈ δ.places d, inWritable pol d l = true))

instance (pol : Policy) (w : World) : Decidable (Lawful (Inside pol) w) :=
  decidableLawfulFrom w.first w.deeds

/-- Two roots, the second of which is not there yet. -/
def halfPolicy : Policy := normalize ⟨["/data", "/srv/app/files"], [], 0, ""⟩

/-- A disk with a link from the first root to the directory above the second. -/
def halfDisk : Disk :=
  [(["data"], .dir ⟨0o755, 0, 0⟩), (["srv"], .dir ⟨0o755, 0, 0⟩),
    (["data", "l"], .link ⟨true, ["srv"]⟩),
    (["data", "x.zip"], .file ⟨[0], 0, ⟨0o644, 0, 0⟩, false⟩)].foldl (fun d x => d.put x.1 x.2) Disk.bare

/-- Through the link an extraction makes the directory `/srv/app`, which is in
no root. -/
theorem link_strays : ¬ ∀ c pol e d i dest w, check pol d (ExtractArgs.dest i) true = .ok dest →
    d.IsDirAt dest → (handle c pol (.extract i) e (World.start d)).2 = w → Lawful (Tame pol dest) w := by
  intro h
  have hcheck : check halfPolicy halfDisk "/data" true = .ok ["data"] := by decide +kernel
  have hdir : halfDisk.IsDirAt ["data"] := by decide +kernel
  have hstray : ¬ Lawful (Inside halfPolicy) (handle (zipOf ⟨"l/app/files/a", .dir, 0o755, []⟩) halfPolicy
      (.extract ⟨"/data/x.zip", "/data"⟩) (calm 0 []) (World.start halfDisk)).2 := by decide +kernel
  obtain ⟨w, hw⟩ : ∃ w, (handle (zipOf ⟨"l/app/files/a", .dir, 0o755, []⟩) halfPolicy
    (.extract ⟨"/data/x.zip", "/data"⟩) (calm 0 []) (World.start halfDisk)).2 = w := ⟨_, rfl⟩
  rw [hw] at hstray
  exact hstray ((h _ _ _ _ ⟨"/data/x.zip", "/data"⟩ _ w hcheck hdir hw).mono fun _ _ ht => ht.inside)

end icsd_panel.unpacking

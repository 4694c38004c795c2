-- Where the file requests of the agent change the disk. Every change of a
-- request is in a writable root, but for a few requests whose work goes past
-- the place that was checked: the condition of each is exact.
import IcsdPanel.JobDeeds

open effects

namespace icsd_panel.confinement

open paths disk machine policy files archives requests deeds

/-- All that a change creates, changes or removes is in a writable root, as
the links of the disk lead then. -/
def Inside (pol : Policy) (d : Disk) (δ : Deed) : Prop :=
  ∀ l ∈ δ.places d, inWritable pol d l = true

/-- Every change that a request, or the job that it starts, makes is in a
writable root. -/
def Confined (c : Codec) (pol : Policy) (e : Env) (d : Disk) (r : Request) : Prop :=
  Lawful (Inside pol) (handle c pol r e (World.start d)).2

/-- The first directory that would have to be made on the way to `real` is in
a writable root. -/
def WayInside (pol : Policy) (d : Disk) (real : Loc) : Prop :=
  ∀ q, q <+: real → q ≠ [] → d.get q = none → d.IsDirAt q.dropLast → inWritable pol d q = true

/-- `fs.write`: the directory of a new upload is in a writable root, and so is
the temporary file that a later chunk changes. -/
def WriteInside (pol : Policy) (d : Disk) (i : WriteArgs) : Prop :=
  ∀ real data, admitWrite pol d i = .ok (real, data) →
    if i.offset = 0 then d.IsDirAt real.dropLast → inWritable pol d real.dropLast = true
    else (findUpload d real.dropLast i.upload).isOk → (data ≠ [] ∨ i.offset < 0 ∨ i.final = true) →
      inWritable pol d (real.dropLast ++ [i.upload]) = true

/-- `fs.abort`: the temporary file that goes is in a writable root. -/
def AbortInside (pol : Policy) (d : Disk) (i : AbortArgs) : Prop :=
  ∀ real, check pol d i.path true = .ok real → (findUpload d real.dropLast i.upload).isOk →
    inWritable pol d (real.dropLast ++ [i.upload]) = true

/-- `fs.mkdir`: with `parents`, the first directory that it makes is in a
writable root. -/
def MkdirInside (pol : Policy) (d : Disk) (i : MkdirArgs) : Prop :=
  ∀ real, check pol d i.path true = .ok real → i.parents = true → WayInside pol d real

/-- `fs.archive`: the destination, with its suffix, is in a writable root, or
nothing can be made or removed there. -/
def ArchiveInside (pol : Policy) (d : Disk) (i : ArchiveArgs) : Prop :=
  ∀ real, check pol d i.dest true = .ok real → i.paths ≠ [] →
    (∀ p ∈ i.paths, (check pol d p false).isOk) → d.IsDirAt real.dropLast →
    d.names (archiveDest real) = [] → inWritable pol d (archiveDest real) = true

/-- `fs.extract`: so it is on the way to the destination, and at each turn of
the job on the way to the place of the member, on the disk before that turn. -/
def ExtractInside (c : Codec) (pol : Policy) (e : Env) (d : Disk) (i : ExtractArgs) : Prop :=
  (∀ dest, check pol d i.dest true = .ok dest → WayInside pol d dest) ∧
    ∀ dest m d1 real, ComesTo c pol e d i dest m d1 →
      checkPath pol d1 (dest ++ memberParts m.name) true = .ok real → WayInside pol d1 real

/-- The condition of each request. -/
def StaysInside (c : Codec) (pol : Policy) (e : Env) (d : Disk) : Request → Prop
  | .write i => WriteInside pol d i
  | .abort i => AbortInside pol d i
  | .mkdir i => MkdirInside pol d i
  | .archive i => ArchiveInside pol d i
  | .extract i => ExtractInside c pol e d i
  | _ => True

variable {c : Codec} {pol : Policy} {d d0 d1 : Disk} {e : Env} {real l : Loc} {δ : Deed}

/-! ## Inside -/

theorem inside_put {n : Node} (h : inWritable pol d l = true) : Inside pol d (.put l n) := by
  intro q hq
  rw [List.mem_singleton.mp hq]
  exact h

theorem inside_remove (h : inWritable pol d l = true) : Inside pol d (.remove l) := by
  intro q hq
  rw [List.mem_singleton.mp hq]
  exact h

theorem standing_of_get {n : Node} (h : d.get l = some n) (hlink : n.isLink = false) : Standing d l :=
  Or.inl (Or.inr ⟨n, h, hlink⟩)

theorem standing_of_dir (h : d.IsDirAt l) : Standing d l := Or.inl (plain_of_isDirAt h)

/-- A directory that is missing on a paved way is in a writable root, when the
first one was. -/
theorem way_inside (hway : WayInside pol d1 real) {q : Loc} (hp : Paved d1 d real) (hq : q <+: real)
    (hne : q ≠ []) (hnone : d.get q = none) (hpar : d.IsDirAt q.dropLast) :
    inWritable pol d q = true := by
  -- The first part of `q` that was missing before the way was paved.
  have hfirst : ∀ q, q <+: real → q ≠ [] → d.get q = none ∨ d.IsDirAt q → d1.get q = none →
      d.IsDirAt q.dropLast → inWritable pol d q = true := by
    intro q
    induction q using List.reverseRecOn with
    | nil => intro _ h; exact absurd rfl h
    | append_singleton q x ih =>
      intro hq hne hthere hmiss hpar
      rw [List.dropLast_concat] at hpar
      by_cases hdir : d1.IsDirAt q
      · have h1 := hway _ hq hne hmiss (by simpa using hdir)
        refine inWritable_grow hp.1 h1 ?_
        rcases hthere with h | h
        · exact Or.inr ⟨hne, h, by simpa using hpar⟩
        · exact standing_of_dir h
      · have hq0 : q ≠ [] := fun h => hdir (Or.inl h)
        have hmiss' : d1.get q = none := by
          by_contra hsome
          obtain ⟨n, hn⟩ := Option.ne_none_iff_exists'.mp hsome
          obtain ⟨n', hn', hs⟩ := hp.1 q n hn
          rcases hpar with h0 | ⟨a, ha⟩
          · exact hq0 h0
          · rw [ha] at hn'
            cases hn'
            obtain ⟨b, rfl⟩ := shape_eq_dir hs.symm
            exact hdir (Or.inr ⟨b, hn⟩)
        have hpre : q <+: q ++ [x] := List.prefix_append q [x]
        exact inWritable_below (ih (hpre.trans hq) hq0 (Or.inr hpar) hmiss'
          (hpar.above (List.dropLast_prefix q))) hpre
  refine hfirst q hq hne (Or.inl hnone) ?_ hpar
  by_contra hsome
  obtain ⟨n, hn⟩ := Option.ne_none_iff_exists'.mp hsome
  obtain ⟨n', hn', _⟩ := hp.1 q n hn
  rw [hnone] at hn'
  cases hn'

/-- The changes on a way to a checked place. -/
theorem grow_inside (hway : WayInside pol d1 real) (hreal : inWritable pol d1 real = true)
    (h : GrowDeed d1 real d δ) : Inside pol d δ := by
  cases h with
  | dir hp hq hne _ hnone hpar => exact inside_put (way_inside hway hp hq hne hnone hpar)
  | newFile hp hne hnone hpar =>
    exact inside_put (inWritable_grow hp.1 hreal (Or.inr ⟨hne, hnone, hpar⟩))
  | oldFile hp hold => exact inside_put (inWritable_grow hp.1 hreal (standing_of_get hold rfl))
  | oldDir hp hold => exact inside_put (inWritable_grow hp.1 hreal (standing_of_get hold rfl))

/-! ## Each request -/

theorem write_inside {i : WriteArgs} (h : WriteInside pol d0 i)
    (htouch : ∀ real data, admitWrite pol d0 i = .ok (real, data) → i.offset ≠ 0 →
      data ≠ [] ∨ i.offset < 0 ∨ i.final = true)
    (hδ : WriteDeed pol d0 i d δ) : Inside pol d δ := by
  have hkey : ∀ {real n}, Writing pol d0 i real n d →
      (i.offset = 0 ∧ inWritable pol d real.dropLast = true) ∨
        (Alike d0 d ∧ inWritable pol d (real.dropLast ++ [n]) = true) := by
    intro real n hw
    obtain ⟨data, hadm⟩ := hw.admitted
    have hcond := h real data hadm
    by_cases hoff : i.offset = 0
    · rw [if_pos hoff] at hcond
      exact Or.inl ⟨hoff, inWritable_grow hw.grows (hcond hw.dir)
        (standing_of_dir (hw.grows.isDirAt hw.dir))⟩
    · rw [if_neg hoff] at hcond
      have htemp := hw.temp
      unfold TempName at htemp
      rw [if_neg hoff] at htemp
      obtain ⟨rfl, hfound⟩ := htemp
      have halike := alike_of_grows hw.grows (hw.same hoff)
      refine Or.inr ⟨halike, ?_⟩
      rw [← inWritable_alike halike]
      exact hcond (by rw [hfound]; rfl) (htouch real data hadm hoff)
  have htemp : ∀ {real n}, Writing pol d0 i real n d →
      inWritable pol d (real.dropLast ++ [n]) = true := by
    intro real n hw
    rcases hkey hw with ⟨_, hin⟩ | ⟨_, hin⟩
    · exact inWritable_below hin (List.prefix_append _ _)
    · exact hin
  cases hδ with
  | create hw _ _ _ => exact inside_put (htemp hw)
  | update hw _ => exact inside_put (htemp hw)
  | remove hw _ => exact inside_remove (htemp hw)
  | @move real n hw _ _ =>
    have hreal : inWritable pol d real = true := by
      rcases hkey hw with ⟨_, hin⟩ | ⟨halike, _⟩
      · exact inWritable_below hin (List.dropLast_prefix real)
      · obtain ⟨data, hadm⟩ := hw.admitted
        rw [← inWritable_alike halike]
        exact (check_cleared (admitWrite_check hadm)).writable
    intro q hq
    rcases List.mem_append.mp hq with hq | hq
    · exact inWritable_below (htemp hw) (Disk.mem_below.mp hq).1
    · exact inWritable_below hreal (Disk.mem_below.mp hq).1

/-- A later chunk with no bytes that is not the last one changes nothing. -/
theorem write_idle {i : WriteArgs} (h0 : 0 < i.offset) (hdata : i.data = some [])
    (hfinal : i.final = false) :
    Proc.Keeps e (Lawful (Inside pol)) (fsWrite pol i) := by
  unfold fsWrite openWrite
  have hask : ∀ {α : Type} (f : Disk → Except GoError α),
      Proc.Keeps e (Lawful (Inside pol)) (ask f) :=
    fun f => triple_ask (fun _ _ hw _ => hw) fun _ hw => hw
  refine Proc.triple_bind (M := fun u w => Lawful (Inside pol) w ∧ u.data = []) ?_ fun u => ?_
  · refine Proc.triple_bind (M := fun rd w => Lawful (Inside pol) w ∧ rd.2 = [])
      (triple_ask (fun w rd hw hrd => ⟨hw, ?_⟩) fun _ hw => hw) fun rd => ?_
    · unfold admitWrite at hrd
      rw [hdata] at hrd
      simp only at hrd
      split at hrd
      · cases hrd
      · split at hrd
        · cases hrd
        · split at hrd
          · cases hrd
          · split at hrd
            · cases hrd
            · split at hrd <;> cases hrd
              rfl
            · cases hrd
              rfl
    · obtain ⟨real, data⟩ := rd
      by_cases hnil : data = []
      rotate_left
      · intro w hw; exact absurd hw.2 hnil
      subst hnil
      refine Proc.triple_weaken (P := Lawful (Inside pol)) ?_ (fun _ hw => hw.1) (fun _ _ h => h)
        fun _ h => h
      refine Proc.triple_bind (hask _) fun ob => ?_
      refine Proc.triple_bind (M := fun _ => Lawful (Inside pol)) ?_ fun tmp =>
        Proc.triple_pure fun w hw => ⟨hw, rfl⟩
      unfold openTemp
      rw [if_neg (by omega)]
      exact hask _
  · by_cases hnil : u.data = []
    rotate_left
    · intro w hw; exact absurd hw.2 hnil
    refine Proc.triple_weaken (P := Lawful (Inside pol)) ?_ (fun _ hw => hw.1) (fun _ _ h => h)
      fun _ h => h
    unfold writeChunk
    rw [hfinal]
    refine Proc.triple_bind (M := fun _ => Lawful (Inside pol)) ?_ fun _ => ?_
    · unfold putChunk writeAt
      rw [hnil, if_neg (by omega), if_pos rfl]
      exact Proc.triple_orElseFirst (M := fun _ => False) (Proc.triple_pure fun _ hw => hw)
        fun _ h => h.elim
    · exact Proc.triple_bind (triple_pause fun _ hw => hw) fun _ => Proc.triple_pure fun _ hw => hw

theorem rename_inside {i : RenameArgs} (h : RenameDeed pol d0 i d δ) : Inside pol d δ := by
  obtain ⟨rfl, hadm, _, _, _, _⟩ := h
  obtain ⟨hs, ht, _⟩ := admitRename_ok hadm
  have hin : ∀ {raw q l}, checkEntry pol d raw = .ok q → q <+: l → inWritable pol d l = true := by
    intro raw q l hq hl
    obtain ⟨parent, base, rfl, _, _, hpar, _⟩ := checkEntry_ok hq
    exact inWritable_below hpar ((List.prefix_append parent [base]).trans hl)
  intro q hq
  rcases List.mem_append.mp hq with hq | hq
  · exact hin hs (Disk.mem_below.mp hq).1
  · exact hin ht (Disk.mem_below.mp hq).1

theorem delete_inside {p : String} {stuck : Option Loc} (h : Removable pol d p l) :
    Inside pol d (.clear l stuck) := by
  obtain ⟨parent, base, rfl, _, _, hpar, _⟩ := checkEntry_ok h.checked
  intro q hq
  exact inWritable_below hpar ((List.prefix_append parent [base]).trans (Disk.mem_taken.mp hq).1)

theorem dest_inside {p : Loc} (hres : Resolved d0 p.dropLast)
    (hp : d0.IsDirAt p.dropLast → d0.names p = [] → inWritable pol d0 p = true)
    (h : DestDeed d0 p d δ) : Inside pol d δ := by
  have hentry : ∀ {l}, entryAt d0 p = .ok l → l = p ∧ d0.IsDirAt p.dropLast := by
    intro l he
    obtain ⟨h1, _, h2⟩ := Resolved.entryAt hres he
    exact ⟨h1, h2⟩
  have hmore : ∀ {l}, entryAt d0 p = .ok l → OneMore d0 l d → inWritable pol d l = true := by
    intro l he hone
    obtain ⟨rfl, hdir⟩ := hentry he
    obtain ⟨f, hf⟩ := hone.2.1
    refine inWritable_grow hone.grows (hp hdir (Disk.names_nil ?_)) (standing_of_get hf rfl)
    rintro (h0 | ⟨a, ha⟩)
    · exact (entryAt_ok he).1 h0
    · rw [hone.1] at ha; cases ha
  cases h with
  | create hd he hn =>
    subst hd
    obtain ⟨rfl, hdir⟩ := hentry he
    refine inside_put (hp hdir (Disk.names_nil ?_))
    rintro (h0 | ⟨a, ha⟩)
    · exact (entryAt_ok he).1 h0
    · rw [hn] at ha; cases ha
  | update he hone => exact inside_put (hmore he hone)
  | remove he hcase hn hnames =>
    rcases hcase with rfl | hone
    · obtain ⟨rfl, hdir⟩ := hentry he
      exact inside_remove (hp hdir hnames)
    · exact inside_remove (hmore he hone)

/-- A refused source ends `fs.archive` before any change. -/
theorem archive_refused {i : ArchiveArgs} {T : World → Prop} {w : World} (hT : T w)
    (h : i.paths = [] ∨ ∃ p ∈ i.paths, (check pol w.disk p false).isOk = false) :
    Proc.Triple e (· = w) (fsArchive pol i) (fun _ _ => False) T := by
  have hask : ∀ raw write, Proc.Keeps e (· = w) (checked pol raw write) :=
    fun raw write => triple_ask (fun _ _ hw _ => hw) fun _ hw => hw
  refine Proc.triple_weaken (T := (· = w)) (P := (· = w)) (Q := fun _ _ => False) ?_
    (fun _ h => h) (fun _ _ h => h) fun w' hw' => hw' ▸ hT
  unfold fsArchive
  refine Proc.triple_ite (fun _ => triple_fail _ fun _ hw => hw) fun hne => ?_
  obtain ⟨p, hp, hbad⟩ := h.resolve_left hne
  refine Proc.triple_bind (Proc.triple_each_fails hp (fun q _ => hask q false) ?_)
    fun _ _ hs => hs.elim
  refine triple_ask (fun w' l hw' hl => ?_) fun _ hw' => hw'
  subst hw'
  rw [hl] at hbad
  cases hbad

theorem isOk_of_ok {α : Type} {x : Except GoError α} {a : α} (h : x = .ok a) : x.isOk := by
  rw [h]; rfl

/-- Under its condition a request changes nothing outside the writable roots. -/
theorem confined_of_stays {r : Request} (h : StaysInside c pol e d r) : Confined c pol e d r := by
  have hfine : (∀ d' δ, RequestDeed pol d d' r δ → Inside pol d' δ) →
      (∀ i, r = .extract i → ExtractAllowed c pol e d i ⟨Inside pol, fun _ => True, d⟩) →
      Confined c pol e d r :=
    fun h1 h2 => (handle_fine (A := ⟨Inside pol, fun _ => True, d⟩) rfl (fun _ _ => trivial) h1
      (fun _ _ _ _ _ _ _ hl => delete_inside hl) h2).lawful
  cases r with
  | write i =>
    by_cases hidle : 0 < i.offset ∧ i.data = some [] ∧ i.final = false
    · obtain ⟨h0, hdata, hfinal⟩ := hidle
      have hall : Proc.Keeps e (Lawful (Inside pol)) (handle c pol (.write i)) :=
        Proc.triple_bind (write_idle h0 hdata hfinal) fun _ => Proc.triple_pure fun _ hw => hw
      exact hall.state (lawful_start d)
    · refine hfine (fun d' δ hδ => ?_) fun _ hr => nomatch hr
      cases hδ with
      | write hδ =>
        refine write_inside h (fun real data hadm hoff => ?_) hδ
        have hdata := admitWrite_data hadm
        by_contra hno
        simp only [not_or, ne_eq, not_not, Bool.not_eq_true] at hno
        exact hidle ⟨by omega, by rw [hdata, hno.1], hno.2.2⟩
  | abort i =>
    refine hfine (fun d' δ hδ => ?_) fun _ hr => nomatch hr
    cases hδ with
    | abort hδ =>
      obtain ⟨rfl, hcheck, hfound⟩ := hδ
      exact inside_remove (h _ hcheck (isOk_of_ok hfound))
  | mkdir i =>
    refine hfine (fun d' δ hδ => ?_) fun _ hr => nomatch hr
    cases hδ with
    | mkdir hδ =>
      obtain ⟨hcheck, hgrow, hone⟩ := hδ
      have hreal := (check_cleared hcheck).writable
      by_cases hp : i.parents = true
      · exact grow_inside (h _ hcheck hp) hreal hgrow
      · obtain ⟨n, rfl⟩ := hone (by simpa using hp)
        cases hgrow with
        | dir hp hq hne _ hnone hpar =>
          exact inside_put (inWritable_grow hp.1 hreal (Or.inr ⟨hne, hnone, hpar⟩))
        | newFile hp hne hnone hpar =>
          exact inside_put (inWritable_grow hp.1 hreal (Or.inr ⟨hne, hnone, hpar⟩))
        | oldFile hp hold =>
          exact inside_put (inWritable_grow hp.1 hreal (standing_of_get hold rfl))
        | oldDir hp hold =>
          exact inside_put (inWritable_grow hp.1 hreal (standing_of_get hold rfl))
  | rename i =>
    refine hfine (fun d' δ hδ => ?_) fun _ hr => nomatch hr
    cases hδ with
    | rename hδ => exact rename_inside hδ
  | delete paths => exact hfine (fun _ _ hδ => nomatch hδ) fun _ hr => nomatch hr
  | chmod i =>
    refine hfine (fun d' δ hδ => ?_) fun _ hr => nomatch hr
    cases hδ with
    | chmod hδ =>
      obtain ⟨rfl, hcheck, _, _⟩ := hδ
      exact inside_put (check_cleared hcheck).writable
  | archive i =>
    by_cases hrefused : i.paths = [] ∨ ∃ p ∈ i.paths, (check pol d p false).isOk = false
    · have hall : Proc.Triple e (· = World.start d) (handle c pol (.archive i))
          (fun _ => Lawful (Inside pol)) (Lawful (Inside pol)) :=
        Proc.triple_bind (archive_refused (lawful_start d) hrefused) fun _ _ hs => hs.elim
      exact hall.state rfl
    · simp only [not_or, not_exists, not_and, Bool.not_eq_false] at hrefused
      refine hfine (fun d' δ hδ => ?_) fun _ hr => nomatch hr
      cases hδ with
      | archive hδ =>
        obtain ⟨hcheck, hdest⟩ := hδ
        have hres := (check_cleared hcheck).resolved
        refine dest_inside ?_ (fun hdir => ?_) hdest
        · rw [archiveDest_dropLast]
          exact hres.above (List.dropLast_prefix _)
        · rw [archiveDest_dropLast] at hdir
          exact h _ hcheck hrefused.1 hrefused.2 hdir
  | extract i =>
    refine hfine (fun d' δ hδ => nomatch hδ) fun j hj => ?_
    cases hj
    refine ⟨fun dest d' δ hdest hgrow => ?_, fun dest m d1 real d' δ hm hreal hgrow => ?_,
      fun _ _ _ _ _ _ _ _ => trivial⟩
    · exact grow_inside (h.1 dest hdest) (check_cleared hdest).writable hgrow
    · have hp : Proper (dest ++ memberParts m.name) :=
        proper_append.mpr ⟨(check_cleared hm.checked).resolved.1, memberParts_proper m.name⟩
      exact grow_inside (h.2 dest m d1 real hm hreal) (checkPath_cleared hp hreal).writable hgrow
  | list _ => exact hfine (fun _ _ hδ => nomatch hδ) fun _ hr => nomatch hr
  | stat _ => exact hfine (fun _ _ hδ => nomatch hδ) fun _ hr => nomatch hr
  | read _ => exact hfine (fun _ _ hδ => nomatch hδ) fun _ hr => nomatch hr
  | tail _ => exact hfine (fun _ _ hδ => nomatch hδ) fun _ hr => nomatch hr
  | malformed => exact hfine (fun _ _ hδ => nomatch hδ) fun _ hr => nomatch hr

end icsd_panel.confinement

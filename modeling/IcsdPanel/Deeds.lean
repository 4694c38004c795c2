-- What each request may do to the disk: every change that a handler, or the
-- job it starts, makes is one of a few, at a place that passed its check.
import IcsdPanel.Requests

open effects

namespace icsd_panel.deeds

open paths disk machine policy files archives requests

/-- A place that passed the check for writing. -/
structure Cleared (pol : Policy) (d : Disk) (real : Loc) : Prop where
  resolved : Resolved d real
  notDenied : deniedLexical real = false
  notHome : homeDotfile real = false
  writable : inWritable pol d real = true

/-- What a request may change, and which files it may read, from the disk
`first` on. -/
structure Rules where
  deed : Disk → Deed → Prop
  read : Loc → Prop
  first : Disk

/-- Every change and every read so far kept to the rules. -/
def Fine (A : Rules) (w : World) : Prop :=
  Lawful A.deed w ∧ (∀ l ∈ w.reads, A.read l) ∧ w.first = A.first

/-- A world with the disk `d0`, before the first change of a request. -/
def Before (A : Rules) (d0 : Disk) (w : World) : Prop := w.disk = d0 ∧ Fine A w

variable {pol : Policy} {d d0 d1 : Disk} {e : Env} {real : Loc} {A : Rules} {w : World}
variable {R : Loc → Prop} {D : Disk}

theorem check_cleared {raw : String} (h : check pol d raw true = .ok real) : Cleared pol d real := by
  obtain ⟨h1, h2, h3⟩ := check_ok h
  exact ⟨h1, h2, (h3 rfl).1, (h3 rfl).2⟩

theorem checkPath_cleared {p : Loc} (hp : Proper p) (h : checkPath pol d p true = .ok real) :
    Cleared pol d real := by
  obtain ⟨h1, h2, h3⟩ := checkPath_ok hp h
  exact ⟨h1, h2, (h3 rfl).1, (h3 rfl).2⟩

theorem Fine.lawful (h : Fine A w) : Lawful A.deed w := h.1

theorem Fine.reads (h : Fine A w) : ∀ l ∈ w.reads, A.read l := h.2.1

theorem Fine.first (h : Fine A w) : w.first = A.first := h.2.2

theorem Fine.did (h : Fine A w) {δ : Deed} (hδ : A.deed w.disk δ) : Fine A (w.did (some δ)) :=
  ⟨h.lawful.did hδ, h.reads, h.first⟩

theorem Before.did (h : Before A d0 w) {δ : Deed} (hδ : A.deed d0 δ) : Fine A (w.did (some δ)) :=
  h.2.did (h.1.symm ▸ hδ)

/-- A handler that only asks keeps the world. -/
theorem triple_ask_before {α : Type} {f : Disk → Except GoError α} :
    Proc.Triple e (Before A d0) (ask f) (fun a w => Before A d0 w ∧ f d0 = .ok a) (Fine A) :=
  triple_ask (fun _ _ hw hf => ⟨hw, hw.1 ▸ hf⟩) fun _ hw => hw.2

theorem triple_attempt_fine {α : Type} {x : Sys α} {P : World → Prop}
    (h : Proc.Triple e P x (fun _ => P) P) {T : World → Prop} :
    Proc.Triple e P x.attempt (fun _ => P) T :=
  Proc.triple_attempt_state h

/-! ## Uploads -/

/-- The name of the temporary file of a chunk: a new one, or the one that the
request quotes. -/
def TempName (d0 : Disk) (i : WriteArgs) (dir : Loc) (n : Name) : Prop :=
  if i.offset = 0 then (∃ k, n = tempName k) ∧ d0.get (dir ++ [n]) = none
  else n = i.upload ∧ findUpload d0 dir n = .ok (dir ++ [n])

/-- `fs.write` is at work: its target passed its checks, and the disk only has
its temporary file more. -/
structure Writing (pol : Policy) (d0 : Disk) (i : WriteArgs) (real : Loc) (n : Name) (d : Disk) :
    Prop where
  admitted : ∃ data, admitWrite pol d0 i = .ok (real, data)
  temp : TempName d0 i real.dropLast n
  dir : d0.IsDirAt real.dropLast
  paved : Paved d0 d (real.dropLast ++ [n])
  same : i.offset ≠ 0 → Grows d d0

theorem Writing.grows {i : WriteArgs} {n : Name} (h : Writing pol d0 i real n d) : Grows d0 d := h.paved.1

inductive WriteDeed (pol : Policy) (d0 : Disk) (i : WriteArgs) (d : Disk) : Deed → Prop
  | create {real n f} (h : Writing pol d0 i real n d) (hd : d = d0) (hoff : i.offset = 0)
      (hn : d.get (real.dropLast ++ [n]) = none) :
      WriteDeed pol d0 i d (.put (real.dropLast ++ [n]) (.file f))
  | update {real n f} (h : Writing pol d0 i real n d)
      (hold : ∃ f0, d.get (real.dropLast ++ [n]) = some (.file f0)) :
      WriteDeed pol d0 i d (.put (real.dropLast ++ [n]) (.file f))
  | remove {real n} (h : Writing pol d0 i real n d)
      (hold : ∃ f0, d.get (real.dropLast ++ [n]) = some (.file f0)) :
      WriteDeed pol d0 i d (.remove (real.dropLast ++ [n]))
  | move {real n} (h : Writing pol d0 i real n d)
      (hold : ∃ f0, d.get (real.dropLast ++ [n]) = some (.file f0)) (hto : ¬ d.IsDirAt real) :
      WriteDeed pol d0 i d (.move (real.dropLast ++ [n]) real)

theorem admitWrite_check {i : WriteArgs} {data : Bytes} (h : admitWrite pol d i = .ok (real, data)) :
    check pol d i.path true = .ok real := by
  unfold admitWrite at h
  split at h
  · cases h
  · rename_i l hl
    rw [hl]
    split at h
    · cases h
    · split at h
      · cases h
      · split at h
        · cases h
        · split at h
          · cases h
          · split at h <;> cases h
            rfl
          · cases h
            rfl

theorem admitWrite_data {i : WriteArgs} {data : Bytes}
    (h : admitWrite pol d i = .ok (real, data)) : i.data = some data := by
  unfold admitWrite at h
  split at h
  · cases h
  · split at h
    · cases h
    · rename_i b hb
      split at h
      · cases h
      · split at h
        · cases h
        · split at h
          · cases h
          · split at h <;> cases h
            exact hb
          · cases h
            exact hb

/-- The state of `fs.write` with its temporary file open. -/
def AtWork (R : Loc → Prop) (D : Disk) (pol : Policy) (d0 : Disk) (i : WriteArgs) (u : Upload) (w : World) : Prop :=
  Fine ⟨WriteDeed pol d0 i, R, D⟩ w ∧ ∃ n, u.tmp = u.real.dropLast ++ [n] ∧
    Writing pol d0 i u.real n w.disk ∧ ∃ f, w.disk.get u.tmp = some (.file f)

theorem findUpload_ok {dir l : Loc} {n : Name} (h : findUpload d dir n = .ok l) :
    isUploadName n = true ∧ ∃ f, openNoFollow d (dir ++ [n]) = .ok (l, f) ∧ f.attr.uid = 0 := by
  unfold findUpload at h
  split at h
  · split at h
    · cases h
    · split at h <;> cases h
      exact ⟨‹_›, _, ‹_›, ‹_›⟩
  · cases h

variable {i : WriteArgs}

theorem openWrite_deeds : Proc.Triple e (Before ⟨WriteDeed pol d0 i, R, D⟩ d0) (openWrite pol i)
    (AtWork R D pol d0 i) (Fine ⟨WriteDeed pol d0 i, R, D⟩) := by
  unfold openWrite
  refine Proc.triple_bind triple_ask_before fun rd => ?_
  obtain ⟨real, data⟩ := rd
  refine Proc.triple_bind (M := fun _ w => Before ⟨WriteDeed pol d0 i, R, D⟩ d0 w ∧
    admitWrite pol d0 i = .ok (real, data)) (triple_ask (fun w a hw _ => hw) fun w hw => hw.1.2)
    fun ob => ?_
  obtain ⟨old, backup⟩ := ob
  refine Proc.triple_bind (M := fun tmp w => Fine ⟨WriteDeed pol d0 i, R, D⟩ w ∧
    ∃ n, tmp = real.dropLast ++ [n] ∧ Writing pol d0 i real n w.disk ∧
      ∃ f, w.disk.get tmp = some (.file f)) ?_ fun tmp => ?_
  rotate_left
  · exact Proc.triple_pure fun w hw => hw
  unfold openTemp
  split
  · rename_i hoff
    unfold createTemp
    refine triple_act (fun luck w c hw hc => ?_) fun w hw => hw.1.2
    obtain ⟨⟨hd, hfine⟩, hadm⟩ := hw
    rw [hd] at hc
    obtain ⟨he, hnone, hdeed⟩ := createExcl_ok hc
    have hres := (check_cleared (admitWrite_check hadm)).resolved
    have hpar := hres.above (List.dropLast_prefix real)
    obtain ⟨hval, _, hdir⟩ := Resolved.entryAt (by simpa using hpar) he
    rw [List.dropLast_concat] at hdir
    have hfit : d0.Fits c.value (.file ⟨[], luck.now, ⟨0o600, 0, 0⟩, true⟩) := fits_new he hnone
    rw [hval] at hnone hfit hdeed
    have hw0 : Writing pol d0 i real (tempName luck.draw) d0 :=
      ⟨⟨data, hadm⟩, by unfold TempName; rw [if_pos hoff]; exact ⟨⟨_, rfl⟩, hnone⟩, hdir,
        .refl _ _, fun h => absurd hoff h⟩
    rw [hdeed, hval]
    refine ⟨hfine.did ?_, _, rfl, ?_, ⟨[], luck.now, ⟨0o600, 0, 0⟩, true⟩, ?_⟩
    · rw [hd]
      exact .create hw0 rfl hoff hnone
    · refine { hw0 with paved := ?_, same := fun h => absurd hoff h }
      simp only [did_disk, Deed.apply, hd]
      exact (Paved.refl d0 _).put (List.prefix_refl _) rfl fun m hm => by rw [hnone] at hm; cases hm
    · simp only [did_disk, Deed.apply, hd]
      exact Disk.get_put_self hfit
  · rename_i hoff
    unfold openUpload
    refine triple_ask (fun w l hw hl => ?_) fun w hw => hw.1.2
    obtain ⟨⟨hd, hfine⟩, hadm⟩ := hw
    rw [hd] at hl
    obtain ⟨_, f, hopen, _⟩ := findUpload_ok hl
    obtain ⟨he, hf⟩ := openNoFollow_ok hopen
    have hres := (check_cleared (admitWrite_check hadm)).resolved
    have hpar := hres.above (List.dropLast_prefix real)
    obtain ⟨rfl, _, hdir⟩ := Resolved.entryAt (by simpa using hpar) he
    rw [List.dropLast_concat] at hdir
    refine ⟨hfine, i.upload, rfl, ⟨⟨data, hadm⟩, ?_, hdir, ?_, ?_⟩, f, by rw [hd]; exact hf⟩
    · unfold TempName
      rw [if_neg hoff]
      exact ⟨rfl, hl⟩
    · rw [hd]; exact .refl _ _
    · intro _; rw [hd]; exact .refl _

/-- A change of the temporary file leaves `fs.write` at work. -/
theorem AtWork.update {u : Upload} (h : AtWork R D pol d0 i u w) (f : FileData) :
    AtWork R D pol d0 i u (w.did (some (.put u.tmp (.file f)))) := by
  obtain ⟨hfine, n, htmp, hw, f0, hf0⟩ := h
  have hup : Paved d0 (w.disk.put u.tmp (.file f)) (u.real.dropLast ++ [n]) := by
    rw [htmp] at hf0 ⊢
    exact hw.paved.put (List.prefix_refl _) rfl fun m hm => by rw [hf0] at hm; cases hm; rfl
  have hfit : w.disk.Fits u.tmp (.file f) := fits_over hf0 (by simp [Node.isDir])
  refine ⟨hfine.did ?_, n, htmp, ?_, f, Disk.get_put_self hfit⟩
  · rw [htmp] at hf0 ⊢
    exact .update hw ⟨f0, hf0⟩
  · refine { hw with paved := hup, same := fun hoff => ?_ }
    intro q m hq
    simp only [did_disk, Deed.apply] at hq
    by_cases hql : q = u.tmp
    · subst hql
      rw [Disk.get_put_self hfit] at hq
      cases hq
      obtain ⟨n0, h1, h2⟩ := hw.same hoff u.tmp _ hf0
      exact ⟨n0, h1, h2⟩
    · rw [Disk.get_put_ne hql] at hq
      exact hw.same hoff q m hq

theorem changeTemp_deeds {u : Upload} (g : Attr → Attr) :
    Proc.Keeps e (AtWork R D pol d0 i u) (act fun _ d => changeAttr d u.tmp g) := by
  refine triple_act (fun luck w c hw hc => ?_) fun w hw => hw
  obtain ⟨n, m, hn, hdeed, hsame⟩ := changeAttr_ok hc
  have hw' := hw
  obtain ⟨_, _, _, _, f0, hf0⟩ := hw'
  unfold Disk.look at hn
  rw [if_neg (Disk.get_ne_nil hf0), hf0] at hn
  cases hn
  rw [hdeed]
  cases hsame
  exact hw.update _

theorem removeTemp_deeds {u : Upload} {T : World → Prop}
    (hT : ∀ w, Fine ⟨WriteDeed pol d0 i, R, D⟩ w → T w) :
    Proc.Triple e (AtWork R D pol d0 i u) (remove u.tmp) (fun _ => T) T := by
  refine triple_act (fun luck w c hw hc => hT _ ?_) fun w hw => hT _ hw.1
  obtain ⟨hfine, n, htmp, hwr, f0, hf0⟩ := hw
  obtain ⟨l, m, he, _, _, hdeed⟩ := removeEntry_ok hc
  have hplain : entryAt w.disk u.tmp = .ok u.tmp :=
    entryAt_plain (Disk.get_proper hf0) (Disk.get_ne_nil hf0)
      (Disk.isDirAt_dropLast (by rw [hf0]; rfl))
  rw [hplain] at he
  cases he
  rw [hdeed]
  refine hfine.did ?_
  rw [htmp] at hf0 ⊢
  exact .remove hwr ⟨f0, hf0⟩

theorem putChunk_deeds {u : Upload} (off : Int) :
    Proc.Triple e (AtWork R D pol d0 i u) (putChunk u off) (fun _ => AtWork R D pol d0 i u)
      (Fine ⟨WriteDeed pol d0 i, R, D⟩) :=
  Proc.triple_orElseFirst (keeps_writeAt (fun _ hw => hw) fun _ _ g hw _ _ _ => hw.update g)
    (removeTemp_deeds fun _ h => h)

theorem finishWrite_deeds {u : Upload} :
    Proc.Triple e (AtWork R D pol d0 i u) (finishWrite u) (fun _ => Fine ⟨WriteDeed pol d0 i, R, D⟩)
      (Fine ⟨WriteDeed pol d0 i, R, D⟩) := by
  unfold finishWrite
  refine Proc.triple_bind (M := fun _ => AtWork R D pol d0 i u)
    (triple_ask (fun _ _ hw _ => hw) fun _ hw => hw.1) fun a => ?_
  refine Proc.triple_bind (triple_attempt_fine (changeTemp_deeds _)) fun _ => ?_
  refine Proc.triple_bind (triple_attempt_fine (changeTemp_deeds _)) fun _ => ?_
  refine Proc.triple_bind (M := fun _ => AtWork R D pol d0 i u)
    (Proc.triple_orElseFirst (triple_pause fun _ hw => hw) (removeTemp_deeds fun _ h => h))
    fun _ => ?_
  refine Proc.triple_bind (M := fun _ => Fine ⟨WriteDeed pol d0 i, R, D⟩)
    (Proc.triple_orElseFirst ?_ (removeTemp_deeds fun _ h => h)) fun _ => ?_
  · refine triple_act (fun luck w c hw hc => ?_) fun w hw => hw
    obtain ⟨hfine, n, htmp, hwr, f0, hf0⟩ := hw
    obtain ⟨s, t, m, hs, ht, hm, hto, hcase⟩ := rename_ok hc
    have hplain : entryAt w.disk u.tmp = .ok u.tmp :=
      entryAt_plain (Disk.get_proper hf0) (Disk.get_ne_nil hf0)
        (Disk.isDirAt_dropLast (by rw [hf0]; rfl))
    rw [hplain] at hs
    cases hs
    have hreal : t = u.real := by
      obtain ⟨_, _, _, hne, _⟩ := entryAt_ok ht
      obtain ⟨data, hadm⟩ := hwr.admitted
      have hres := (check_cleared (admitWrite_check hadm)).resolved
      have := entryAt_plain hres.1 hne (hwr.grows.isDirAt hwr.dir)
      rw [this] at ht
      cases ht
      rfl
    subst hreal
    rcases hcase with ⟨_, hdeed⟩ | ⟨_, _, hdeed⟩
    · rw [hdeed]; exact hfine
    · rw [hdeed]
      refine hfine.did ?_
      rw [htmp] at hf0 ⊢
      exact .move hwr ⟨f0, hf0⟩ hto
  · refine Proc.triple_bind (M := fun _ => Fine ⟨WriteDeed pol d0 i, R, D⟩)
      (triple_askOs (fun _ _ hw _ => hw) fun _ hw => hw) fun r => ?_
    split <;> exact Proc.triple_pure fun _ hw => hw

theorem fsWrite_deeds :
    Proc.Triple e (Before ⟨WriteDeed pol d0 i, R, D⟩ d0) (fsWrite pol i)
      (fun _ => Fine ⟨WriteDeed pol d0 i, R, D⟩) (Fine ⟨WriteDeed pol d0 i, R, D⟩) := by
  unfold fsWrite
  refine Proc.triple_bind openWrite_deeds fun u => ?_
  unfold writeChunk
  refine Proc.triple_bind (putChunk_deeds _) fun _ => ?_
  split
  · exact finishWrite_deeds
  · refine Proc.triple_bind (Proc.triple_weaken (triple_pause (P := AtWork R D pol d0 i u) fun _ hw => hw)
      (fun _ h => h) (fun _ _ h => h) fun _ h => h.1) fun _ => ?_
    exact Proc.triple_pure fun _ hw => hw.1

/-! ## Aborts -/

/-- `fs.abort` removes the temporary file that the request quotes. -/
inductive AbortDeed (pol : Policy) (d0 : Disk) (i : AbortArgs) (d : Disk) : Deed → Prop
  | remove {real : Loc} (hd : d = d0) (hcheck : check pol d0 i.path true = .ok real)
      (hfound : findUpload d0 real.dropLast i.upload = .ok (real.dropLast ++ [i.upload])) :
      AbortDeed pol d0 i d (.remove (real.dropLast ++ [i.upload]))

/-- The file that a request quotes is in the directory of its target. -/
theorem findUpload_place {l : Loc} {n : Name} (h : Cleared pol d real)
    (hl : findUpload d real.dropLast n = .ok l) :
    l = real.dropLast ++ [n] ∧ d.IsDirAt real.dropLast ∧ ∃ f, d.get l = some (.file f) := by
  obtain ⟨_, f, hopen, _⟩ := findUpload_ok hl
  obtain ⟨he, hf⟩ := openNoFollow_ok hopen
  have hpar := h.resolved.above (List.dropLast_prefix real)
  obtain ⟨rfl, _, hdir⟩ := Resolved.entryAt (by simpa using hpar) he
  exact ⟨rfl, by simpa using hdir, f, hf⟩

theorem fsAbort_deeds {i : AbortArgs} :
    Proc.Triple e (Before ⟨AbortDeed pol d0 i, R, D⟩ d0) (fsAbort pol i)
      (fun _ => Fine ⟨AbortDeed pol d0 i, R, D⟩) (Fine ⟨AbortDeed pol d0 i, R, D⟩) := by
  unfold fsAbort checked
  refine Proc.triple_bind triple_ask_before fun real => ?_
  refine Proc.triple_bind (M := fun r w => Before ⟨AbortDeed pol d0 i, R, D⟩ d0 w ∧
      check pol d0 i.path true = .ok real ∧
      ∀ l, r = .ok l → findUpload d0 real.dropLast i.upload = .ok l) ?_ fun r => ?_
  · intro w hw
    obtain ⟨hw, hcheck⟩ := hw
    simp only [Proc.attempt, openUpload, ask_run, hw.1]
    exact ⟨hw, hcheck, fun l hl => hw.1 ▸ hl⟩
  · split
    · exact Proc.triple_pure fun w hw => hw.1.2
    · rename_i l
      refine Proc.triple_bind (M := fun _ => Fine ⟨AbortDeed pol d0 i, R, D⟩)
        (Proc.triple_weaken (Proc.triple_attempt (I := Fine ⟨AbortDeed pol d0 i, R, D⟩)
          (Q := fun _ => Fine ⟨AbortDeed pol d0 i, R, D⟩) (T := Fine ⟨AbortDeed pol d0 i, R, D⟩)
          ?_) (fun _ h => h) (fun r s hs => by cases r <;> exact hs) fun _ h => h) fun r => ?_
      · refine triple_act (fun luck w c hw hc => ?_) fun w hw => hw.1.2
        obtain ⟨hw, hcheck, hl⟩ := hw
        have hl := hl l rfl
        have hclear := check_cleared hcheck
        obtain ⟨rfl, hdir, f, hf⟩ := findUpload_place hclear hl
        obtain ⟨m, n, he, _, _, hdeed⟩ := removeEntry_ok hc
        rw [hw.1, entryAt_plain (Disk.get_proper hf) (Disk.get_ne_nil hf) (by simpa using hdir)] at he
        cases he
        rw [hdeed]
        exact hw.did (.remove rfl hcheck hl)
      · split <;> exact Proc.triple_pure fun w hw => hw

/-! ## Directories -/

/-- The changes on the way to a place: directories, and at the place itself a
file or a directory. -/
inductive GrowDeed (d1 : Disk) (real : Loc) (d : Disk) : Deed → Prop
  | dir {q a} (hp : Paved d1 d real) (hq : q <+: real) (hne : q ≠ []) (hproper : Proper q)
      (hnone : d.get q = none) (hpar : d.IsDirAt q.dropLast) : GrowDeed d1 real d (.put q (.dir a))
  | newFile {f} (hp : Paved d1 d real) (hne : real ≠ []) (hnone : d.get real = none)
      (hpar : d.IsDirAt real.dropLast) : GrowDeed d1 real d (.put real (.file f))
  | oldFile {f f0} (hp : Paved d1 d real) (hold : d.get real = some (.file f0)) :
      GrowDeed d1 real d (.put real (.file f))
  | oldDir {a b} (hp : Paved d1 d real) (hold : d.get real = some (.dir b)) :
      GrowDeed d1 real d (.put real (.dir a))

/-- The world while a request makes its way to `real`. -/
def OnWay (A : Rules) (d1 : Disk) (real : Loc) (w : World) : Prop :=
  Fine A w ∧ Paved d1 w.disk real

theorem keeps_mkdirAll_way {p t : Loc} {mode : Nat} (hp : Proper p) (hlead : LeadsTo d1 p real)
    (ht : t <+: p) (hA : ∀ d δ, GrowDeed d1 real d δ → A.deed d δ) :
    Proc.Keeps e (OnWay A d1 real) (mkdirAll t mode) := by
  refine keeps_mkdirAll (fun _ hw => hw) fun w q c hw hq hne hc => ?_
  obtain ⟨hfine, hpaved⟩ := hw
  obtain ⟨l, he, hnone, hdeed⟩ := mkdir_ok hc
  obtain ⟨hl0, hlp, hldir, _⟩ := entryAt_ok he
  have hlr := (leadsTo_missing hp hlead hpaved (hq.trans ht) he hnone).1
  rw [hdeed]
  refine ⟨hfine.did (hA _ _ (.dir hpaved hlr hl0 hlp hnone hldir)), ?_⟩
  exact hpaved.put hlr rfl fun m hm => by rw [hnone] at hm; cases hm

inductive MkdirDeed (pol : Policy) (d0 : Disk) (i : MkdirArgs) (d : Disk) : Deed → Prop
  | make {real : Loc} {δ : Deed} (hcheck : check pol d0 i.path true = .ok real) (h : GrowDeed d0 real d δ)
      (hone : i.parents = false → ∃ n, δ = .put real n) : MkdirDeed pol d0 i d δ

theorem statNode_keeps {P T : World → Prop} {β : Type} {f : Disk → β} (hT : ∀ w, P w → T w) :
    Proc.Triple e P (ask fun d => .ok (f d)) (fun b w => P w ∧ b = f w.disk) T :=
  triple_ask (fun w b hw hb => ⟨hw, by cases hb; rfl⟩) hT

/-- A change of owner of a directory or file that is there. -/
theorem keeps_chownLikeParent {P : World → Prop} {p : Loc}
    (hidle : ∀ w, P w → P (w.did none))
    (h : ∀ w q n m, P w → lstat w.disk p = .ok (q, n) → SameButAttr n m →
      P (w.did (some (.put q m)))) :
    Proc.Keeps e P (chownLikeParent p) := by
  unfold chownLikeParent
  refine Proc.triple_bind (statNode_keeps fun _ hw => hw) fun o => ?_
  split
  · exact Proc.triple_pure fun w hw => hw.1
  · refine Proc.triple_bind (M := fun _ => P) (Proc.triple_weaken
      (triple_attempt_fine (P := P) (T := P) ?_) (fun w hw => hw.1) (fun _ _ h => h)
      fun _ h => h) fun _ => Proc.triple_pure fun w hw => hw
    refine triple_act (fun luck w c hw hc => ?_) hidle
    unfold lchown at hc
    split at hc
    · cases hc
    · rename_i q n hq
      obtain ⟨n', m, hn', hdeed, hsame⟩ := changeAttr_ok hc
      have hn : n = n' := by
        unfold lstat at hq
        split at hq
        · cases hq
        · split at hq
          · cases hq
            rename_i hlook
            rw [hn'] at hlook
            exact (Option.some.inj hlook).symm
          · cases hq
      subst hn
      rw [hdeed]
      exact h w q n m hw hq hsame

theorem lstat_entry {p q l : Loc} {n : Node} (hne : p ≠ []) (he : entryAt d p = .ok q)
    (h : lstat d p = .ok (l, n)) : l = q ∧ d.get q = some n := by
  unfold lstat at h
  rw [if_neg hne, he] at h
  have hq := (entryAt_ok he).1
  simp only [Disk.look, hq, if_false] at h
  split at h
  · cases h; exact ⟨rfl, ‹_›⟩
  · cases h

theorem fsMkdir_deeds {i : MkdirArgs} :
    Proc.Triple e (Before ⟨MkdirDeed pol d0 i, R, D⟩ d0) (fsMkdir pol i)
      (fun _ => Fine ⟨MkdirDeed pol d0 i, R, D⟩) (Fine ⟨MkdirDeed pol d0 i, R, D⟩) := by
  unfold fsMkdir checked
  refine Proc.triple_bind triple_ask_before fun real => ?_
  by_cases hcheck : check pol d0 i.path true = .ok real
  rotate_left
  · intro w hw; exact absurd hw.2 hcheck
  have hres := (check_cleared hcheck).resolved
  have hlead := hres.leadsTo
  split
  · rename_i hall
    refine Proc.triple_bind (M := fun _ => OnWay ⟨MkdirDeed pol d0 i, R, D⟩ d0 real)
      (triple_ask (fun w _ hw _ => ⟨hw.1.2, by rw [hw.1.1]; exact .refl _ _⟩)
        fun w hw => hw.1.2) fun b => ?_
    refine Proc.triple_bind (Proc.triple_weaken (keeps_mkdirAll_way hres.1 hlead (List.prefix_refl _)
      fun d δ h => MkdirDeed.make hcheck h fun hone => by rw [hall] at hone; cases hone)
      (fun _ h => h) (fun _ _ h => h) fun _ h => h.1) fun _ => ?_
    exact Proc.triple_pure fun w hw => hw.1
  · refine Proc.triple_bind (M := fun _ w => Fine ⟨MkdirDeed pol d0 i, R, D⟩ w ∧
      Paved d0 w.disk real ∧ entryAt w.disk real = .ok real ∧ ∃ a, w.disk.get real = some (.dir a))
      ?_ fun _ => ?_
    · refine triple_act (fun luck w c hw hc => ?_) fun w hw => hw.1.2
      obtain ⟨⟨hd, hfine⟩, _⟩ := hw
      rw [hd] at hc
      obtain ⟨l, he, hnone, hdeed⟩ := mkdir_ok hc
      obtain ⟨rfl, hne, hdir⟩ := Resolved.entryAt (hres.above (List.dropLast_prefix real)) he
      have hmake : GrowDeed d0 l d0 (.put l (.dir ⟨0o755, 0, 0⟩)) :=
        .dir (.refl _ _) (List.prefix_refl l) hne hres.1 hnone hdir
      have hpaved : Paved d0 (d0.put l (.dir ⟨0o755, 0, 0⟩)) l :=
        (Paved.refl d0 l).put (List.prefix_refl l) rfl
          fun m hm => by rw [hnone] at hm; cases hm
      rw [hdeed]
      simp only [did_disk, Deed.apply, hd]
      refine ⟨hfine.did (by rw [hd]; exact .make hcheck hmake fun _ => ⟨_, rfl⟩), hpaved, ?_,
        ⟨0o755, 0, 0⟩, Disk.get_put_self (fits_new he hnone)⟩
      exact entryAt_grow hpaved.1 he
    · refine Proc.triple_bind (Proc.triple_weaken (keeps_chownLikeParent (fun _ hw => hw) ?_)
        (fun _ h => h) (fun _ _ h => h) fun _ h => h.1) fun _ => Proc.triple_pure fun w hw => hw.1
      rintro w q n m ⟨hfine, hpaved, he, a, ha⟩ hq hsame
      obtain ⟨rfl, hn⟩ := lstat_entry (Disk.get_ne_nil ha) he hq
      rw [ha] at hn
      cases hn
      cases hsame
      rename_i b
      have hpaved' : Paved d0 (w.disk.put q (.dir b)) q :=
        hpaved.put (List.prefix_refl q) rfl fun m hm => by rw [ha] at hm; cases hm; rfl
      refine ⟨hfine.did (.make hcheck (.oldDir hpaved ha) fun _ => ⟨_, rfl⟩), hpaved', ?_, b,
        Disk.get_put_self (fits_over ha (by simp [Node.isDir]))⟩
      refine entryAt_grow (d := w.disk) (grows_put fun m hm => ?_) he
      rw [ha] at hm
      cases hm
      rfl

/-! ## Entries -/

/-- `fs.rename` moves one entry to a free place. -/
inductive RenameDeed (pol : Policy) (d0 : Disk) (i : RenameArgs) (d : Disk) : Deed → Prop
  | move {s t : Loc} {n : Node} (hd : d = d0) (hadm : admitRename pol d0 i = .ok (s, t))
      (hn : d0.get s = some n) (hfree : d0.get t = none) (hdir : d0.IsDirAt t.dropLast)
      (hout : ¬ s <+: t) : RenameDeed pol d0 i d (.move s t)

theorem admitRename_ok {i : RenameArgs} {s t : Loc} (h : admitRename pol d i = .ok (s, t)) :
    checkEntry pol d i.src = .ok s ∧ checkEntry pol d i.dst = .ok t ∧ ∀ r, lstat d t ≠ .ok r := by
  unfold admitRename at h
  split at h
  · cases h
  · split at h
    · cases h
    · split at h
      · cases h
      · split at h <;> cases h
        rename_i hl
        refine ⟨‹_›, ‹_›, fun r hr => ?_⟩
        rw [hl] at hr
        cases hr

/-- The entry of a path that passed the check of an entry is its own place. -/
theorem checkEntry_entryAt {raw : String} {p q : Loc} (h : checkEntry pol d raw = .ok p)
    (he : entryAt d p = .ok q) : q = p ∧ d.IsDirAt p.dropLast := by
  obtain ⟨parent, base, rfl, _, hres, _⟩ := checkEntry_ok h
  obtain ⟨h1, _, h2⟩ := Resolved.entryAt (by simpa using hres) he
  exact ⟨h1, h2⟩

theorem fsRename_deeds {i : RenameArgs} :
    Proc.Triple e (Before ⟨RenameDeed pol d0 i, R, D⟩ d0) (fsRename pol i)
      (fun _ => Fine ⟨RenameDeed pol d0 i, R, D⟩) (Fine ⟨RenameDeed pol d0 i, R, D⟩) := by
  unfold fsRename
  refine Proc.triple_bind triple_ask_before fun st => ?_
  obtain ⟨src, dst⟩ := st
  refine Proc.triple_bind (M := fun _ => Fine ⟨RenameDeed pol d0 i, R, D⟩) ?_
    fun _ => Proc.triple_pure fun w hw => hw
  refine triple_act (fun luck w c hw hc => ?_) fun w hw => hw.1.2
  obtain ⟨hw, hadm⟩ := hw
  obtain ⟨h1, h2, h3⟩ := admitRename_ok hadm
  rw [hw.1] at hc
  obtain ⟨s, t, n, hs, ht, hn, hto, hcase⟩ := rename_ok hc
  obtain ⟨rfl, _⟩ := checkEntry_entryAt h1 hs
  obtain ⟨rfl, hdir⟩ := checkEntry_entryAt h2 ht
  have hne := (entryAt_ok ht).1
  have hfree : d0.get t = none := by
    by_contra hsome
    obtain ⟨m, hm⟩ := Option.ne_none_iff_exists'.mp hsome
    refine h3 (t, m) ?_
    unfold lstat
    rw [if_neg hne, ht]
    simp [Disk.look, hne, hm]
  rcases hcase with ⟨_, hdeed⟩ | ⟨hout, _, hdeed⟩
  · rw [hdeed]; exact hw.2
  · rw [hdeed]
    exact hw.did (.move rfl hadm hn hfree hdir hout)

/-- An entry that `fs.delete` may remove. -/
structure Removable (pol : Policy) (d : Disk) (p : String) (l : Loc) : Prop where
  checked : checkEntry pol d p = .ok l
  notRoot : isRoot pol d l = false
  dir : d.IsDirAt l.dropLast

/-- `fs.delete` removes one entry with all below it. -/
theorem deleteOne_deeds {p : String} :
    Proc.Triple e (fun w => Fine A w ∧ ∀ l stuck, Removable pol w.disk p l →
        A.deed w.disk (.clear l stuck))
      (deleteOne pol p) (fun _ => Fine A) (Fine A) := by
  unfold deleteOne checkedEntry
  refine Proc.triple_bind (M := fun real w => (Fine A w ∧ ∀ l stuck, Removable pol w.disk p l →
    A.deed w.disk (.clear l stuck)) ∧ checkEntry pol w.disk p = .ok real)
    (triple_ask (fun w l hw hl => ⟨hw, hl⟩) fun _ hw => hw.1) fun real => ?_
  refine Proc.triple_bind (statNode_keeps fun _ hw => hw.1.1) fun b => ?_
  split
  · exact triple_fail _ fun w hw => hw.1.1.1
  · rename_i hb
    refine Proc.triple_bind (M := fun _ => Fine A) ?_ fun _ => Proc.triple_pure fun w hw => hw
    refine triple_removeAll (fun w hw => hw.1.1.1) fun w l stuck hw hl => ?_
    obtain ⟨⟨⟨hfine, hallow⟩, hcheck⟩, hroot⟩ := hw
    obtain ⟨rfl, hdir⟩ := checkEntry_entryAt hcheck hl
    exact hfine.did (hallow l stuck ⟨hcheck, by simpa [hroot] using hb, hdir⟩)

/-- `fs.delete` comes to the path `p`, with the disk `d`. -/
def DeleteTurn (pol : Policy) (e : Env) (d0 : Disk) (paths : List String) (p : String) (d : Disk) :
    Prop :=
  ∃ before after ls w, paths = before ++ p :: after ∧
    Proc.each (deleteOne pol) before e (World.start d0) = (.ok ls, w) ∧ w.disk = d

theorem deleteTurn_single {e : Env} {raw raw' : String} (h : DeleteTurn pol e d [raw] raw' d1) :
    raw' = raw ∧ d1 = d := by
  obtain ⟨before, after, ls, w, heq, hrun, hd⟩ := h
  cases before with
  | nil =>
    cases hrun
    obtain ⟨rfl, -⟩ := List.cons.inj heq
    exact ⟨rfl, hd.symm⟩
  | cons x before => simp at heq

/-- The rules let `fs.delete` remove the entry of each of its paths, at its
turn. -/
def DeleteAllowed (pol : Policy) (e : Env) (d0 : Disk) (paths : List String) (A : Rules) : Prop :=
  ∀ p d l stuck, DeleteTurn pol e d0 paths p d → Removable pol d p l → A.deed d (.clear l stuck)

theorem fsDelete_deeds {paths : List String} (h : DeleteAllowed pol e d0 paths A)
    (h0 : Fine A (World.start d0)) : Fine A (fsDelete pol paths e (World.start d0)).2 := by
  have hrun := Proc.each_run (I := Fine A) (T := Fine A)
    (fun before p after ls hps => Proc.triple_weaken (deleteOne_deeds (e := e) (p := p))
      (fun w hw => ⟨hw.2, fun l stuck hl => h p w.disk l stuck
        ⟨before, after, ls, w, hps, hw.1, rfl⟩ hl⟩) (fun _ _ h => h) fun _ h => h) h0
  unfold fsDelete
  rcases hr : Proc.each (deleteOne pol) paths e (World.start d0) with ⟨r, w⟩
  rw [hr] at hrun
  cases r <;> exact hrun

/-- `fs.chmod` changes the mode of what is at a place. -/
inductive ChmodDeed (pol : Policy) (d0 : Disk) (i : ChmodArgs) (d : Disk) : Deed → Prop
  | put {real : Loc} {n m : Node} (hd : d = d0) (hcheck : check pol d0 i.path true = .ok real)
      (hn : d0.look real = some n) (hsame : SameButAttr n m) : ChmodDeed pol d0 i d (.put real m)

theorem fsChmod_deeds {i : ChmodArgs} :
    Proc.Triple e (Before ⟨ChmodDeed pol d0 i, R, D⟩ d0) (fsChmod pol i)
      (fun _ => Fine ⟨ChmodDeed pol d0 i, R, D⟩) (Fine ⟨ChmodDeed pol d0 i, R, D⟩) := by
  unfold fsChmod checked
  refine Proc.triple_bind triple_ask_before fun real => ?_
  split
  · exact triple_fail _ fun w hw => hw.1.2
  · refine Proc.triple_bind (M := fun _ => Fine ⟨ChmodDeed pol d0 i, R, D⟩) ?_
      fun _ => Proc.triple_pure fun w hw => hw
    refine triple_act (fun luck w c hw hc => ?_) fun w hw => hw.1.2
    obtain ⟨hw, hcheck⟩ := hw
    rw [hw.1] at hc
    unfold chmod at hc
    split at hc
    · cases hc
    · rename_i l n hl
      obtain ⟨rfl, _⟩ := (check_cleared hcheck).resolved.follow (stat_ok hl).1
      obtain ⟨n', m, hn', hdeed, hsame⟩ := changeAttr_ok hc
      rw [hdeed]
      exact hw.did (.put rfl hcheck hn' hsame)

end icsd_panel.deeds

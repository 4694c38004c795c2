-- One chunk of an upload, and the abort of one: what each leaves on the disk,
-- however it ends. Until the rename only the temporary file changes.
import IcsdPanel.Denied

open effects

namespace icsd_panel.uploads

open paths disk machine policy files requests deeds

variable {pol : Policy} {d d' d0 : Disk} {e : Env} {w : World} {i : WriteArgs} {u : Upload}
  {l q real : Loc} {n : Name} {c : Bytes} {T : Int → Prop}

/-- The places of temporary files. -/
def IsTemp (q : Loc) : Prop := ∃ dir n, q = dir ++ [n] ∧ isUploadName n = true

/-- The same but for temporary files. -/
def Agree (d0 d : Disk) : Prop := ∀ q, ¬ IsTemp q → d.get q = d0.get q

/-- The same but at one place. -/
def OnlyAt (l : Loc) (d0 d : Disk) : Prop := ∀ q, q ≠ l → d.get q = d0.get q

theorem Agree.trans {d1 d2 : Disk} (h1 : Agree d0 d1) (h2 : Agree d1 d2) : Agree d0 d2 :=
  fun q hq => (h2 q hq).trans (h1 q hq)

theorem OnlyAt.agree (h : OnlyAt l d0 d) (hl : IsTemp l) : Agree d0 d := by
  intro q hq
  refine h q ?_
  rintro rfl
  exact hq hl

/-- The name of the temporary file of a chunk. A new name is drawn in the first
call. -/
def Named (e : Env) (d0 : Disk) (i : WriteArgs) (dir : Loc) (n : Name) : Prop :=
  TempName d0 i dir n ∧ (i.offset = 0 → n = tempName (e.luck 0).draw)

theorem Named.uploadName {dir : Loc} (h : Named e d i dir n) : isUploadName n = true := by
  have h := h.1
  unfold TempName at h
  split at h
  · obtain ⟨⟨k, rfl⟩, _⟩ := h
    exact denied.tempName_isUploadName k
  · exact (findUpload_ok h.2).1

theorem Named.isTemp {dir : Loc} (h : Named e d i dir n) : IsTemp (dir ++ [n]) :=
  ⟨dir, n, rfl, h.uploadName⟩

/-- The bytes in the temporary file of a chunk before it. -/
def bytesBefore (d : Disk) (i : WriteArgs) (l : Loc) : Bytes :=
  if i.offset = 0 then []
  else match d.get l with
    | some (.file f) => f.content
    | _ => []

/-- The time of a temporary file after a chunk is that of a call, unless the
chunk had no bytes for a file that was there. -/
def Dated (e : Env) (i : WriteArgs) (data : Bytes) (t : Int) : Prop :=
  (∃ k, t = (e.luck k).now) ∨ (data = [] ∧ i.offset ≠ 0)

/-- How a chunk can end, and what it leaves. -/
inductive Wrote (e : Env) (pol : Policy) (d : Disk) (i : WriteArgs) : Option WriteReply → Disk → Prop
  | refused : Wrote e pol d i none d
  | broken {real data n d'} (hadm : admitWrite pol d i = .ok (real, data))
      (htemp : Named e d i real.dropLast n) (hsame : OnlyAt (real.dropLast ++ [n]) d d') :
      Wrote e pol d i none d'
  | more {real data n f d'} (hadm : admitWrite pol d i = .ok (real, data)) (hoff : 0 ≤ i.offset)
      (hfinal : i.final = false) (htemp : Named e d i real.dropLast n)
      (hsame : OnlyAt (real.dropLast ++ [n]) d d')
      (hget : d'.get (real.dropLast ++ [n]) = some (.file f))
      (hbytes : f.content =
        overlay (bytesBefore d i (real.dropLast ++ [n])) i.offset.toNat data) :
      Wrote e pol d i (some (.more (wrap64 (i.offset + data.length)) n)) d'
  | done {real data n f d'} (hadm : admitWrite pol d i = .ok (real, data)) (hoff : 0 ≤ i.offset)
      (hfinal : i.final = true) (htemp : Named e d i real.dropLast n)
      (hsame : ∀ q, q ≠ real.dropLast ++ [n] → q ≠ real → d'.get q = d.get q)
      (hget : d'.get real = some (.file f))
      (hgone : real.dropLast ++ [n] ≠ real → d'.get (real.dropLast ++ [n]) = none)
      (hbytes : f.content =
        overlay (bytesBefore d i (real.dropLast ++ [n])) i.offset.toNat data)
      (hdate : Dated e i data f.mtime) :
      Wrote e pol d i (some (.done real f.content.length (unix f.mtime))) d'

/-! ## A chunk at work -/

/-- The temporary file is open, with the bytes `c` and a time of `T`; nothing
else changed. -/
structure Held (e : Env) (pol : Policy) (d0 : Disk) (i : WriteArgs) (u : Upload) (c : Bytes)
    (T : Int → Prop) (w : World) : Prop where
  admitted : admitWrite pol d0 i = .ok (u.real, u.data)
  temp : ∃ n, u.tmp = u.real.dropLast ++ [n] ∧ Named e d0 i u.real.dropLast n
  file : ∃ f, w.disk.get u.tmp = some (.file f) ∧ f.content = c ∧ T f.mtime
  same : OnlyAt u.tmp d0 w.disk
  quiet : Always (Agree d0) w

theorem Held.isTemp (h : Held e pol d0 i u c T w) : IsTemp u.tmp := by
  obtain ⟨n, htmp, hname⟩ := h.temp
  rw [htmp]
  exact hname.isTemp

theorem Held.real_dir (h : Held e pol d0 i u c T w) : Resolved d0 u.real ∧ w.disk.IsDirAt u.real.dropLast := by
  obtain ⟨n, htmp, _⟩ := h.temp
  obtain ⟨f, hf, _⟩ := h.file
  refine ⟨(check_cleared (admitWrite_check h.admitted)).resolved, ?_⟩
  have := Disk.isDirAt_dropLast (d := w.disk) (l := u.tmp) (by rw [hf]; rfl)
  rwa [htmp, List.dropLast_concat] at this

theorem Always.did {F : Disk → Prop} {δ : Deed} (h : Always F w) (hδ : F (δ.apply w.disk)) :
    Always F (w.did (some δ)) :=
  ⟨h.1, h.2.did hδ⟩

theorem Held.idle (h : Held e pol d0 i u c T w) : Held e pol d0 i u c T (w.did none) :=
  ⟨h.admitted, h.temp, h.file, h.same, h.quiet⟩

theorem Held.put {c' : Bytes} {T' : Int → Prop} (h : Held e pol d0 i u c T w) {f : FileData}
    (hf : f.content = c') (ht : T' f.mtime) :
    Held e pol d0 i u c' T' (w.did (some (.put u.tmp (.file f)))) := by
  obtain ⟨f0, hf0, -⟩ := h.file
  have hfit : w.disk.Fits u.tmp (.file f) := fits_over hf0 (by simp [Node.isDir])
  have hsame : OnlyAt u.tmp d0 (w.disk.put u.tmp (.file f)) := fun q hq => by
    rw [Disk.get_put_ne hq]
    exact h.same q hq
  exact ⟨h.admitted, h.temp, ⟨f, Disk.get_put_self hfit, hf, ht⟩, hsame,
    Always.did h.quiet (hsame.agree h.isTemp)⟩

/-- A chunk that ended badly, with the moments that it went through. -/
def Ended (e : Env) (pol : Policy) (d0 : Disk) (i : WriteArgs) (w : World) : Prop :=
  Wrote e pol d0 i none w.disk ∧ Always (Agree d0) w

theorem Held.ended (h : Held e pol d0 i u c T w) : Ended e pol d0 i w := by
  obtain ⟨n, htmp, hname⟩ := h.temp
  exact ⟨.broken h.admitted hname (htmp ▸ h.same), h.quiet⟩

theorem removeTemp_ended :
    Proc.Triple e (fun w => ∃ c T, Held e pol d0 i u c T w) (remove u.tmp) (fun _ => Ended e pol d0 i)
      (Ended e pol d0 i) := by
  refine triple_act (fun luck w ch hw hc => ?_) fun w hw => ?_
  · obtain ⟨c, T, h⟩ := hw
    obtain ⟨f, hf, _⟩ := h.file
    obtain ⟨l, m, he, _, hnames, hdeed⟩ := removeEntry_ok hc
    rw [entryAt_plain (Disk.get_proper hf) (Disk.get_ne_nil hf)
      (Disk.isDirAt_dropLast (by rw [hf]; rfl))] at he
    cases he
    have hsame : OnlyAt u.tmp d0 (w.disk.remove u.tmp) := fun q hq => by
      rw [Disk.get_remove_ne hq]
      exact h.same q hq
    obtain ⟨n, htmp, hname⟩ := h.temp
    rw [hdeed]
    exact ⟨.broken h.admitted hname (htmp ▸ hsame), Always.did h.quiet (hsame.agree h.isTemp)⟩
  · obtain ⟨c, T, h⟩ := hw
    exact h.ended

/-- Before the first call of a chunk. -/
def Idle (d0 : Disk) (w : World) : Prop := w.disk = d0 ∧ w.calls = 0 ∧ Always (Agree d0) w

theorem idle_start (d0 : Disk) : Idle d0 (World.start d0) :=
  ⟨rfl, rfl, fun _ _ => rfl, lawful_start d0⟩

theorem Idle.ended (h : Idle d0 w) : Ended e pol d0 i w := ⟨by rw [h.1]; exact .refused, h.2.2⟩

/-- The time of a temporary file before the bytes of a chunk: a new one has the
time of a call. -/
def Opened (e : Env) (i : WriteArgs) (t : Int) : Prop := i.offset = 0 → ∃ k, t = (e.luck k).now

theorem openWrite_held :
    Proc.Triple e (Idle d0) (openWrite pol i)
      (fun u => Held e pol d0 i u (bytesBefore d0 i u.tmp) (Opened e i)) (Ended e pol d0 i) := by
  unfold openWrite
  refine Proc.triple_bind (M := fun rd w => Idle d0 w ∧ admitWrite pol d0 i = .ok rd)
    (triple_ask (fun w rd hw hrd => ⟨hw, hw.1 ▸ hrd⟩) fun w hw => hw.ended) fun rd => ?_
  obtain ⟨real, data⟩ := rd
  refine Proc.triple_bind (M := fun _ w => Idle d0 w ∧ admitWrite pol d0 i = .ok (real, data))
    (triple_ask (fun w a hw _ => hw) fun w hw => hw.1.ended) fun ob => ?_
  obtain ⟨old, backup⟩ := ob
  refine Proc.triple_bind (M := fun tmp => Held e pol d0 i ⟨real, tmp, old, backup, data⟩
    (bytesBefore d0 i tmp) (Opened e i)) ?_ fun tmp => Proc.triple_pure fun w hw => hw
  unfold openTemp
  split
  · rename_i hoff
    refine triple_actAt (fun w ch hw hc => ?_) fun w hw => hw.1.ended
    obtain ⟨⟨hd, hcalls, hquiet⟩, hadm⟩ := hw
    rw [hd, hcalls] at hc
    obtain ⟨he, hnone, hdeed⟩ := createExcl_ok hc
    have hpar := (check_cleared (admitWrite_check hadm)).resolved.above (List.dropLast_prefix real)
    obtain ⟨hval, _, hdir⟩ := Resolved.entryAt (by simpa using hpar) he
    have hfit := fits_new (n := .file ⟨[], (e.luck 0).now, ⟨0o600, 0, 0⟩, true⟩) he hnone
    rw [hval] at hnone hfit hdeed ⊢
    have hname : Named e d0 i real.dropLast (tempName (e.luck 0).draw) := by
      refine ⟨?_, fun _ => rfl⟩
      unfold TempName
      rw [if_pos hoff]
      exact ⟨⟨_, rfl⟩, hnone⟩
    have hsame : OnlyAt (real.dropLast ++ [tempName (e.luck 0).draw]) d0
        (d0.put (real.dropLast ++ [tempName (e.luck 0).draw])
          (.file ⟨[], (e.luck 0).now, ⟨0o600, 0, 0⟩, true⟩)) :=
      fun q hq => Disk.get_put_ne hq
    rw [hdeed]
    refine ⟨hadm, ⟨_, rfl, hname⟩, ?_, ?_, Always.did hquiet ?_⟩
    · rw [did_disk, hd]
      exact ⟨_, Disk.get_put_self hfit, by simp [bytesBefore, hoff], fun _ => ⟨0, rfl⟩⟩
    · rw [did_disk, hd]
      exact hsame
    · rw [hd]
      exact hsame.agree hname.isTemp
  · rename_i hoff
    refine triple_ask (fun w l hw hl => ?_) fun w hw => hw.1.ended
    obtain ⟨⟨hd, -, hquiet⟩, hadm⟩ := hw
    rw [hd] at hl
    have hclear := check_cleared (admitWrite_check hadm)
    obtain ⟨rfl, hdir, f, hf⟩ := findUpload_place hclear hl
    refine ⟨hadm, ⟨i.upload, rfl, ?_, fun h => absurd h hoff⟩,
      ⟨f, hd ▸ hf, ?_, fun h => absurd h hoff⟩, fun q _ => by rw [hd], hquiet⟩
    · unfold TempName
      rw [if_neg hoff]
      exact ⟨rfl, hl⟩
    · simp [bytesBefore, hoff, hf]

theorem writeAt_held {off : Int} {data : Bytes} :
    Proc.Triple e (Held e pol d0 i u c (Opened e i)) (writeAt u.tmp off data)
      (fun _ w => 0 ≤ off ∧ Held e pol d0 i u (overlay c off.toNat data) (Dated e i data) w)
      (fun w => ∃ c T, Held e pol d0 i u c T w) := by
  have hput : ∀ w bytes now, Held e pol d0 i u c (Opened e i) w → bytes ≠ [] →
      ∃ f, w.disk.get u.tmp = some (.file f) ∧
        putBytes w.disk u.tmp off.toNat bytes now =
          .ok ⟨some (.put u.tmp (.file ⟨overlay c off.toNat bytes, now, f.attr, true⟩)), ()⟩ := by
    intro w bytes now h hne
    obtain ⟨f, hf, rfl, -⟩ := h.file
    refine ⟨f, hf, ?_⟩
    simp [putBytes, hne, updateFile, hf]
  unfold writeAt
  refine Proc.triple_ite (fun _ => triple_fail _ fun w hw => ⟨c, _, hw⟩) fun hoff => ?_
  refine Proc.triple_ite (fun hdata => Proc.triple_pure fun w hw => ?_) fun hdata => ?_
  · refine ⟨by omega, ?_⟩
    rw [hdata, overlay, if_pos rfl]
    obtain ⟨f, hf, hc, ht⟩ := hw.file
    refine ⟨hw.admitted, hw.temp, ⟨f, hf, hc, ?_⟩, hw.same, hw.quiet⟩
    by_cases h0 : i.offset = 0
    · exact .inl (ht h0)
    · exact .inr ⟨rfl, h0⟩
  intro w hw
  unfold call
  cases hfault : (e.luck w.calls).fault with
  | none =>
    obtain ⟨f, _, hc⟩ := hput w data (e.luck w.calls).now hw hdata
    simp only [hfault, hc, outcome]
    exact ⟨by omega, hw.put rfl (.inl ⟨_, rfl⟩)⟩
  | some k =>
    simp only [hfault]
    by_cases hk : data.take k = []
    · simp only [putBytes, hk, if_true, outcome]
      exact ⟨c, _, hw.idle⟩
    · obtain ⟨f, _, hc⟩ := hput w (data.take k) (e.luck w.calls).now hw hk
      simp only [hc, outcome]
      exact ⟨_, fun _ => True, hw.put rfl trivial⟩

theorem putChunk_held {off : Int} :
    Proc.Triple e (Held e pol d0 i u c (Opened e i)) (putChunk u off)
      (fun _ w => 0 ≤ off ∧ Held e pol d0 i u (overlay c off.toNat u.data) (Dated e i u.data) w)
      (Ended e pol d0 i) :=
  Proc.triple_orElseFirst writeAt_held removeTemp_ended

theorem changeTemp_held (g : Attr → Attr) :
    Proc.Keeps e (Held e pol d0 i u c T) (act fun _ d => changeAttr d u.tmp g) := by
  refine triple_act (fun luck w ch hw hc => ?_) fun w hw => hw.idle
  obtain ⟨n, m, hn, hdeed, hsame⟩ := changeAttr_ok hc
  obtain ⟨f, hf, hbytes, ht⟩ := hw.file
  rw [Disk.look, if_neg (Disk.get_ne_nil hf), hf] at hn
  cases hn
  rw [hdeed]
  cases hsame
  exact hw.put hbytes ht

/-! ## The rename -/

/-- The temporary file, with the bytes `c` and a time of `T`, took the place of
the target. -/
structure Installed (d0 : Disk) (u : Upload) (c : Bytes) (T : Int → Prop) (d : Disk) : Prop where
  file : ∃ f, d.get u.real = some (.file f) ∧ f.content = c ∧ T f.mtime
  gone : u.tmp ≠ u.real → d.get u.tmp = none
  same : ∀ q, q ≠ u.tmp → q ≠ u.real → d.get q = d0.get q

/-- At every moment nothing but temporary files changed, but for the end. -/
def Sudden (d0 : Disk) (w : World) : Prop :=
  Always (fun d => Agree d0 d ∨ Agree w.disk d) w

theorem sudden_of_always (h : Always (Agree d0) w) : Sudden d0 w :=
  ⟨Or.inl h.1, h.2.mono fun _ _ => Or.inl⟩

/-- The last change may do anything. -/
theorem sudden_did (h : Always (Agree d0) w) (δ : Deed) : Sudden d0 (w.did (some δ)) :=
  ⟨Or.inl h.1, h.2.mono fun _ _ => Or.inl, Or.inr fun _ _ => rfl⟩

theorem get_below_file {f : FileData} (h : d.get l = some (.file f)) {r : Loc} (hr : r ≠ []) :
    d.get (l ++ r) = none := by
  refine Disk.get_below_none ?_ hr
  rintro (h0 | ⟨a, ha⟩)
  · exact Disk.get_ne_nil h h0
  · rw [h] at ha
    cases ha

/-- The state of a chunk after its rename. -/
structure Renamed (e : Env) (pol : Policy) (d0 : Disk) (i : WriteArgs) (u : Upload) (c : Bytes)
    (T : Int → Prop) (w : World) : Prop where
  admitted : admitWrite pol d0 i = .ok (u.real, u.data)
  temp : ∃ n, u.tmp = u.real.dropLast ++ [n] ∧ Named e d0 i u.real.dropLast n
  installed : Installed d0 u c T w.disk
  sudden : Sudden d0 w

theorem Renamed.stat {f : FileData} (h : Renamed e pol d0 i u c T w)
    (hf : w.disk.get u.real = some (.file f)) :
    askOs (fun d => stat d u.real) e w = (.ok (u.real, .file f), w) := by
  have hres := (check_cleared (admitWrite_check h.admitted)).resolved
  rw [askOs, ask_run, stat_installed hres.1 hf]
  rfl

theorem rename_held :
    Proc.Triple e (Held e pol d0 i u c T) (act fun _ d => rename d u.tmp u.real)
      (fun _ => Renamed e pol d0 i u c T) (Held e pol d0 i u c T) := by
  refine triple_act (fun luck w ch hw hc => ?_) fun w hw => hw.idle
  obtain ⟨f, hf, hcontent⟩ := hw.file
  obtain ⟨hres, hdir⟩ := hw.real_dir
  obtain ⟨s, t, m, hs, ht, hm, hto, hcase⟩ := rename_ok hc
  rw [entryAt_plain (Disk.get_proper hf) (Disk.get_ne_nil hf)
    (Disk.isDirAt_dropLast (by rw [hf]; rfl))] at hs
  cases hs
  obtain ⟨_, _, _, hne, _⟩ := entryAt_ok ht
  rw [entryAt_plain hres.1 hne hdir] at ht
  cases ht
  rcases hcase with ⟨hst, hdeed⟩ | ⟨hst, _, hdeed⟩
  · rw [hdeed]
    refine ⟨hw.admitted, hw.temp, ⟨⟨f, ?_, hcontent⟩, fun h => absurd hst h, fun q hq _ => hw.same q hq⟩,
      sudden_of_always hw.quiet⟩
    exact hst ▸ hf
  · rw [hdeed]
    refine ⟨hw.admitted, hw.temp, ?_, sudden_did hw.quiet _⟩
    have hget := fun q => Disk.get_move (q := q) (Disk.get_ne_nil hf) hne hres.1 hdir hst
    refine ⟨⟨f, ?_, hcontent⟩, fun h => ?_, fun q hqs hqt => ?_⟩
    · rw [did_disk, Deed.apply, hget, if_pos (List.prefix_refl _), List.drop_length, List.append_nil]
      exact hf
    · rw [did_disk, Deed.apply, hget, if_neg, if_pos (List.prefix_refl _)]
      rintro ⟨r, hr⟩
      have : r ≠ [] := by
        rintro rfl
        rw [List.append_nil] at hr
        exact h hr.symm
      rw [← hr, Disk.get_below_none hto this] at hf
      cases hf
    · rw [did_disk, Deed.apply, hget]
      split
      · rename_i hpre
        obtain ⟨r, rfl⟩ := hpre
        have hr : r ≠ [] := by
          rintro rfl
          exact hqt (List.append_nil _)
        rw [List.drop_left, get_below_file hf hr, ← hw.same _ hqs, Disk.get_below_none hto hr]
      · split
        · rename_i hpre
          obtain ⟨r, rfl⟩ := hpre
          have hr : r ≠ [] := by
            rintro rfl
            exact hqs (List.append_nil _)
          rw [← hw.same _ hqs, get_below_file hf hr]
        · exact hw.same q hqs

/-- What a chunk leaves, and the moments that it goes through. -/
def Settled (e : Env) (pol : Policy) (d0 : Disk) (i : WriteArgs) (r : Option WriteReply) (w : World) :
    Prop :=
  Wrote e pol d0 i r w.disk ∧ Sudden d0 w

theorem Ended.settled (h : Ended e pol d0 i w) : Settled e pol d0 i none w :=
  ⟨h.1, sudden_of_always h.2⟩

theorem finishWrite_settled (hoff : 0 ≤ i.offset) (hfinal : i.final = true)
    (hc : c = overlay (bytesBefore d0 i u.tmp) i.offset.toNat u.data) :
    Proc.Triple e (Held e pol d0 i u c (Dated e i u.data)) (finishWrite u)
      (fun r => Settled e pol d0 i (some r)) (Ended e pol d0 i) := by
  unfold finishWrite
  refine Proc.triple_bind (M := fun _ => Held e pol d0 i u c (Dated e i u.data))
    (triple_ask (fun _ _ hw _ => hw) fun _ hw => hw.ended) fun a => ?_
  refine Proc.triple_bind (triple_attempt_fine (changeTemp_held _)) fun _ => ?_
  refine Proc.triple_bind (triple_attempt_fine (changeTemp_held _)) fun _ => ?_
  have hremove : Proc.Triple e (Held e pol d0 i u c (Dated e i u.data)) (remove u.tmp)
      (fun _ => Ended e pol d0 i) (Ended e pol d0 i) :=
    Proc.triple_weaken removeTemp_ended (fun w hw => ⟨c, _, hw⟩) (fun _ _ h => h) fun _ h => h
  refine Proc.triple_bind (M := fun _ => Held e pol d0 i u c (Dated e i u.data))
    (Proc.triple_orElseFirst (triple_pause fun _ hw => hw.idle) hremove) fun _ => ?_
  refine Proc.triple_bind (Proc.triple_orElseFirst rename_held hremove) fun _ => ?_
  intro w hw
  obtain ⟨f, hf, hbytes, hdate⟩ := hw.installed.file
  obtain ⟨n, htmp, hname⟩ := hw.temp
  rw [Proc.bind_run_ok (hw.stat hf)]
  refine ⟨.done hw.admitted hoff hfinal hname ?_ hf ?_ ?_ hdate, hw.sudden⟩
  · rw [← htmp]
    exact hw.installed.same
  · rw [← htmp]
    exact hw.installed.gone
  · rw [hbytes, hc, htmp]

theorem writeChunk_settled (hc : c = bytesBefore d0 i u.tmp) :
    Proc.Triple e (Held e pol d0 i u c (Opened e i)) (writeChunk i u)
      (fun r => Settled e pol d0 i (some r)) (Ended e pol d0 i) := by
  unfold writeChunk
  refine Proc.triple_bind putChunk_held fun _ => ?_
  by_cases hoff : 0 ≤ i.offset
  rotate_left
  · intro w hw
    exact absurd hw.1 hoff
  split
  · rename_i hfinal
    refine Proc.triple_weaken (finishWrite_settled (u := u) hoff hfinal rfl)
      (fun w hw => hc ▸ hw.2) (fun _ _ h => h) fun _ h => h
  · rename_i hfinal
    refine Proc.triple_bind (M := fun _ =>
        Held e pol d0 i u (overlay c i.offset.toNat u.data) (Dated e i u.data))
      (Proc.triple_weaken (triple_pause fun _ hw => hw.idle) (fun w hw => hw.2) (fun _ _ h => h)
        fun _ h => h.ended) fun _ => ?_
    refine Proc.triple_pure fun w hw => ?_
    obtain ⟨n, htmp, hname⟩ := hw.temp
    obtain ⟨f, hf, hbytes, -⟩ := hw.file
    refine ⟨?_, sudden_of_always hw.quiet⟩
    rw [htmp, List.getLast?_concat, Option.getD_some]
    rw [htmp] at hf
    refine .more hw.admitted hoff (by simpa using hfinal) hname (htmp ▸ hw.same) hf ?_
    rw [hbytes, hc, htmp]

/-- The chunk of an upload, from any disk and with any faults. -/
theorem fsWrite_settled : Proc.Triple e (Idle d0) (fsWrite pol i)
    (fun r => Settled e pol d0 i (some r)) (Ended e pol d0 i) := by
  unfold fsWrite
  exact Proc.triple_bind openWrite_held fun u => writeChunk_settled rfl

/-- What a chunk answers, if anything, and what it leaves. -/
theorem fsWrite_run (e : Env) (pol : Policy) (i : WriteArgs) (d : Disk) :
    Settled e pol d i (fsWrite pol i e (World.start d)).1.toOption
      (fsWrite pol i e (World.start d)).2 := by
  have hsettled : Proc.Triple e (Idle d) (fsWrite pol i) (fun r => Settled e pol d i (some r))
      (Ended e pol d i) := fsWrite_settled
  have h := hsettled _ (idle_start d)
  rcases hrun : fsWrite pol i e (World.start d) with ⟨r, w⟩
  rw [hrun] at h
  cases r with
  | ok r => exact h
  | error er => exact h.settled

/-! ## Aborts -/

/-- What an abort leaves: at most one temporary file less. -/
inductive Aborted (pol : Policy) (d : Disk) (i : AbortArgs) : Disk → Prop
  | kept : Aborted pol d i d
  | removed {real : Loc} {d' : Disk} (hcheck : check pol d i.path true = .ok real)
      (hfound : findUpload d real.dropLast i.upload = .ok (real.dropLast ++ [i.upload]))
      (hsame : OnlyAt (real.dropLast ++ [i.upload]) d d')
      (hgone : d'.get (real.dropLast ++ [i.upload]) = none) : Aborted pol d i d'

theorem fsAbort_run (e : Env) (pol : Policy) (i : AbortArgs) (d : Disk) :
    Aborted pol d i (fsAbort pol i e (World.start d)).2.disk ∧
      Always (Agree d) (fsAbort pol i e (World.start d)).2 := by
  have hstart : (World.start d).disk = d ∧ Always (Agree d) (World.start d) :=
    ⟨rfl, fun _ _ => rfl, lawful_start d⟩
  have hkept : ∀ w : World, w.disk = d ∧ Always (Agree d) w →
      Aborted pol d i w.disk ∧ Always (Agree d) w := fun w hw => ⟨by rw [hw.1]; exact .kept, hw.2⟩
  refine Proc.Triple.state (P := fun w => w.disk = d ∧ Always (Agree d) w)
    (T := fun w => Aborted pol d i w.disk ∧ Always (Agree d) w) ?_ hstart
  unfold fsAbort checked
  refine Proc.triple_bind (M := fun real w => (w.disk = d ∧ Always (Agree d) w) ∧
    check pol d i.path true = .ok real) (triple_ask (fun w real hw h => ⟨hw, hw.1 ▸ h⟩)
    fun w hw => hkept w hw) fun real => ?_
  intro w hw
  obtain ⟨⟨hd, hquiet⟩, hcheck⟩ := hw
  have hask : (openUpload real.dropLast i.upload).attempt e w =
      (.ok (findUpload d real.dropLast i.upload), w) := by
    rw [← hd]
    rfl
  rw [Proc.bind_run_ok hask]
  cases hfound : findUpload d real.dropLast i.upload with
  | error er => exact hkept w ⟨hd, hquiet⟩
  | ok l =>
    obtain ⟨rfl, hdir, f, hf⟩ := findUpload_place (check_cleared hcheck) hfound
    have hremove : Proc.Triple e (fun w => w.disk = d ∧ Always (Agree d) w)
        (remove (real.dropLast ++ [i.upload]))
        (fun _ w => Aborted pol d i w.disk ∧ Always (Agree d) w)
        (fun w => Aborted pol d i w.disk ∧ Always (Agree d) w) := by
      refine triple_act (fun luck w ch hw hc => ?_) hkept
      obtain ⟨l, m, he, -, hnames, hdeed⟩ := removeEntry_ok hc
      rw [hw.1, entryAt_plain (Disk.get_proper hf) (Disk.get_ne_nil hf)
        (Disk.isDirAt_dropLast (by rw [hf]; rfl))] at he
      cases he
      rw [hw.1] at hnames
      have hsame : OnlyAt (real.dropLast ++ [i.upload]) d (d.remove (real.dropLast ++ [i.upload])) :=
        fun q hq => Disk.get_remove_ne hq
      have hgone : (d.remove (real.dropLast ++ [i.upload])).get (real.dropLast ++ [i.upload]) = none := by
        rw [Disk.get_remove hnames, if_pos rfl]
      rw [hdeed, did_disk, Deed.apply, hw.1]
      refine ⟨.removed hcheck hfound hsame hgone, Always.did hw.2 ?_⟩
      rw [Deed.apply, hw.1]
      exact hsame.agree ⟨_, _, rfl, (findUpload_ok hfound).1⟩
    refine Proc.triple_bind (Proc.triple_attempt_state hremove) (fun r => ?_) w ⟨hd, hquiet⟩
    cases r <;> exact Proc.triple_pure fun _ h => h

end icsd_panel.uploads

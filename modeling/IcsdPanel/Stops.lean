-- Uploads that stop: the editor and the form send a file in chunks, and end at
-- the first chunk that the agent does not take. They never abort, so what stays
-- of the temporary file is up to the chunk that failed.
import IcsdPanel.Calm
import IcsdPanel.Senders
import IcsdPanel.Straying
import IcsdPanel.Uploads

open effects

namespace icsd_panel.stops

open paths disk machine policy files uploads senders deeds

/-! ## Exchanges -/

/-- A turn of an exchange: what others do to the disk before the agent carries
the chunk out, and its surroundings then. -/
structure Turn where
  others : Disk → Disk
  env : Env

/-- The chunk that an exchange stopped at: the disk before it, the surroundings,
what was asked, and the temporary file that the chunks before it made. -/
structure Failure where
  disk : Disk
  env : Env
  asked : WriteArgs
  temp : Option Loc

/-- The temporary file of a chunk, once it is open. -/
def opened (pol : Policy) (e : Env) (d : Disk) (i : WriteArgs) : Option Loc :=
  (openWrite pol i e (World.start d)).1.toOption.map Upload.tmp

/-- The temporary file of the exchange: the first chunk makes it. -/
def Failure.made (pol : Policy) (f : Failure) : Option Loc :=
  if f.asked.offset = 0 then opened pol f.env f.disk f.asked else f.temp

/-- The disk after the chunk. -/
def Failure.after (pol : Policy) (f : Failure) : Disk :=
  (fsWrite pol f.asked f.env (World.start f.disk)).2.disk

/-- The loop of an exchange, turn by turn, up to a chunk that fails. -/
def chunks (pol : Policy) (path : String) (ifMtime : Int) :
    Loop → Vars → Option Loc → Disk → List Turn → Option Failure
  | _, _, _, _, [] => none
  | l, v, temp, d, t :: ts =>
    let chunk := l.chunk v ⟨[], 0, true, 0⟩
    let f : Failure := ⟨t.others d, t.env, request path ifMtime v chunk, temp⟩
    match (fsWrite pol f.asked t.env (World.start f.disk)).1 with
    | .error _ => some f
    | .ok r =>
      if chunk.final then none
      else chunks pol path ifMtime l.next (v.after chunk r) (f.made pol) (f.after pol) ts

/-- `_write_bytes` of the editor, or one file of `fs_upload`. -/
inductive Exchange
  | writeBytes (path : String) (data : Bytes) (ifMtime : Int)
  | upload (path : String) (data : Bytes)

/-- The chunk that an exchange stops at, if it does. -/
def Exchange.stop (pol : Policy) (d : Disk) (ts : List Turn) : Exchange → Option Failure
  | .writeBytes path data ifMtime => chunks pol path ifMtime (.bytes data) ⟨0, ""⟩ none d ts
  | .upload path data =>
    chunks pol path 0 (.form (data.take chunkSize) (data.drop chunkSize)) ⟨0, ""⟩ none d ts

variable {pol : Policy} {d d0 : Disk} {e : Env} {w : World} {i : WriteArgs} {u : Upload} {q real : Loc}
  {b : Bytes} {T : Int → Prop} {n : Nat} {f : Failure} {α : Type}

theorem chunks_cons {path : String} {ifMtime : Int} {l : Loop} {v : Vars} {temp : Option Loc} {t : Turn}
    {ts : List Turn} :
    chunks pol path ifMtime l v temp d (t :: ts) =
      let chunk := l.chunk v ⟨[], 0, true, 0⟩
      let f : Failure := ⟨t.others d, t.env, request path ifMtime v chunk, temp⟩
      match (fsWrite pol f.asked t.env (World.start f.disk)).1 with
      | .error _ => some f
      | .ok r =>
        if chunk.final then none
        else chunks pol path ifMtime l.next (v.after chunk r) (f.made pol) (f.after pol) ts := rfl

theorem opened_of_run {w1 : World} (h : openWrite pol i e (World.start d) = (.ok u, w1)) :
    opened pol e d i = some u.tmp := by
  unfold opened
  rw [h]
  rfl

theorem opened_of_ok (h : ((fsWrite pol i e (World.start d)).1).toOption.isSome) :
    (opened pol e d i).isSome := by
  rcases hrun : openWrite pol i e (World.start d) with ⟨r, w1⟩
  cases r with
  | error er =>
    unfold fsWrite at h
    rw [Proc.bind_run_error hrun] at h
    cases h
  | ok u => rw [opened_of_run hrun]; rfl

/-- What is known of the chunk that an exchange stopped at. -/
theorem chunks_failed {path : String} {ifMtime : Int} {l : Loop} {v : Vars} {temp : Option Loc}
    {ts : List Turn} (hv : v.offset ≠ 0 → temp.isSome)
    (h : chunks pol path ifMtime l v temp d ts = some f) :
    0 ≤ f.asked.offset ∧ (f.asked.offset ≠ 0 → f.temp.isSome) ∧
      ∃ er, (fsWrite pol f.asked f.env (World.start f.disk)).1 = .error er := by
  induction ts generalizing l v temp d with
  | nil => cases h
  | cons t ts ih =>
    simp only [chunks_cons] at h
    split at h
    · rename_i er hrun
      cases h
      refine ⟨Int.natCast_nonneg _, fun hne => hv fun h0 => hne ?_, er, hrun⟩
      rw [request, h0]
      rfl
    · rename_i r hrun
      split at h
      · cases h
      · refine ih (fun _ => ?_) h
        unfold Failure.made
        split
        · exact opened_of_ok (by rw [hrun]; rfl)
        · rename_i hne
          exact hv fun h0 => hne (by rw [request, h0]; rfl)

theorem stop_failed {x : Exchange} {ts : List Turn} (h : x.stop pol d ts = some f) :
    0 ≤ f.asked.offset ∧ (f.asked.offset ≠ 0 → f.temp.isSome) ∧
      ∃ er, (fsWrite pol f.asked f.env (World.start f.disk)).1 = .error er := by
  cases x <;> exact chunks_failed (fun h0 => absurd rfl h0) h

/-! ## The calls of a chunk -/

theorem act_calls (g : Luck → Disk → Except Errno (Change α)) :
    Proc.Triple e (fun w => w.calls = n) (act g)
      (fun _ w => w.calls = n + 1 ∧ (e.luck n).fault = none) (fun w => w.calls = n + 1) := by
  intro w hw
  subst hw
  unfold act call
  cases hf : (e.luck w.calls).fault with
  | some k => simp [hf, World.did]
  | none => cases hg : g (e.luck w.calls) w.disk <;> simp [hf, hg, outcome, World.did]

theorem pause_calls :
    Proc.Triple e (fun w => w.calls = n) pause
      (fun _ w => w.calls = n + 1 ∧ (e.luck n).fault = none)
      (fun w => w.calls = n + 1 ∧ (e.luck n).fault ≠ none) := by
  intro w hw
  subst hw
  cases hf : (e.luck w.calls).fault with
  | some k => simp [pause, act_unlucky (e := e) (w := w) (by simp [hf]), World.did]
  | none =>
    have hrun : pause e w = (.ok (), w.did none) :=
      act_lucky (f := fun _ _ => .ok ⟨none, ()⟩) hf rfl
    simp [hrun, World.did]

theorem writeAt_calls {l : Loc} {off : Int} {data : Bytes} (h0 : 0 ≤ off) :
    Proc.Triple e (fun w => w.calls = n ∧ ∃ f, w.disk.get l = some (.file f)) (writeAt l off data)
      (fun _ w => w.calls = (if data = [] then n else n + 1) ∧ (data = [] ∨ (e.luck n).fault = none))
      (fun w => w.calls = n + 1 ∧ data ≠ [] ∧ (e.luck n).fault ≠ none) := by
  rintro w ⟨rfl, f, hf⟩
  unfold writeAt
  rw [if_neg (by omega)]
  split
  · rename_i r w1 hrun
    split at hrun
    · rename_i hdata
      cases hrun
      simp [hdata]
    · rename_i hdata
      unfold call at hrun
      cases hfault : (e.luck w.calls).fault with
      | none =>
        simp only [hfault, Prod.mk.injEq] at hrun
        rw [← hrun.2]
        simp [hdata, World.did]
      | some k =>
        simp only [hfault, Prod.mk.injEq] at hrun
        cases hrun.1
  · rename_i er w1 hrun
    split at hrun
    · cases hrun
    · rename_i hdata
      unfold call at hrun
      cases hfault : (e.luck w.calls).fault with
      | none =>
        simp [hfault, putBytes, hdata, updateFile, hf, outcome] at hrun
      | some k =>
        simp only [hfault, Prod.mk.injEq] at hrun
        rw [← hrun.2]
        simp [hdata, World.did]

/-! ## What a failed chunk leaves -/

/-- The temporary file is gone if and only if `good`, and nothing else changed. -/
structure Leaves (d0 : Disk) (u : Upload) (good : Prop) (w : World) : Prop where
  gone : w.disk.get u.tmp = none ↔ good
  same : OnlyAt u.tmp d0 w.disk

theorem Leaves.congr {p p' : Prop} (h : Leaves d0 u p w) (hp : p ↔ p') : Leaves d0 u p' w :=
  ⟨h.gone.trans hp, h.same⟩

theorem held_stays (h : Held e pol d0 i u b T w) {good : Prop} (hnot : ¬ good) : Leaves d0 u good w := by
  obtain ⟨f, hf, -⟩ := h.file
  exact ⟨by simp [hf, hnot], h.same⟩

/-- The removal of the temporary file, as the call `n`. -/
theorem remove_leaves :
    Proc.Triple e (fun w => (∃ b T, Held e pol d0 i u b T w) ∧ w.calls = n) (remove u.tmp)
      (fun _ => Leaves d0 u ((e.luck n).fault = none))
      (Leaves d0 u ((e.luck n).fault = none)) := by
  refine Proc.triple_of_state ?_
  rintro w ⟨⟨b, T, h⟩, rfl⟩
  unfold remove
  by_cases hfault : (e.luck w.calls).fault = none
  · obtain ⟨f, hf, -⟩ := h.file
    have hnames : w.disk.names u.tmp = [] := by
      refine Disk.names_nil ?_
      rintro (h0 | ⟨a, ha⟩)
      · exact Disk.get_ne_nil hf h0
      · rw [hf] at ha
        cases ha
    rw [act_lucky hfault (removeEntry_there hf hnames)]
    refine ⟨?_, fun q hq => ?_⟩
    · rw [did_disk, Deed.apply, Disk.get_remove hnames, if_pos rfl]
      simp [hfault]
    · rw [did_disk, Deed.apply, Disk.get_remove_ne hq]
      exact h.same q hq
  · rw [act_unlucky hfault]
    exact held_stays h.idle hfault

theorem putChunk_leaves (h0 : 0 ≤ i.offset) :
    Proc.Triple e (fun w => Held e pol d0 i u b (Opened e i) w ∧ w.calls = n) (putChunk u i.offset)
      (fun _ w => Held e pol d0 i u (overlay b i.offset.toNat u.data) (Dated e i u.data) w ∧
        w.calls = (if u.data = [] then n else n + 1) ∧ (u.data = [] ∨ (e.luck n).fault = none))
      (fun w => (u.data ≠ [] ∧ (e.luck n).fault ≠ none) ∧
        Leaves d0 u ((e.luck (n + 1)).fault = none) w) := by
  have hheld : Proc.Triple e (Held e pol d0 i u b (Opened e i)) (writeAt u.tmp i.offset u.data) _ _ :=
    writeAt_held
  have hcalls : Proc.Triple e _ (writeAt u.tmp i.offset u.data) _ _ := writeAt_calls (n := n) h0
  have hwrite := Proc.triple_and hheld hcalls
  refine Proc.triple_orElseFirst (M := fun w => (u.data ≠ [] ∧ (e.luck n).fault ≠ none) ∧
    (∃ b T, Held e pol d0 i u b T w) ∧ w.calls = n + 1) ?_ ?_
  · refine Proc.triple_weaken hwrite (fun w hw => ?_) (fun _ w hw => ?_) fun w hw => ?_
    · obtain ⟨f, hf, -⟩ := hw.1.file
      exact ⟨hw.1, hw.2, f, hf⟩
    · exact ⟨hw.1.2, hw.2⟩
    · exact ⟨hw.2.2, hw.1, hw.2.1⟩
  · intro w hw
    have h : Proc.Triple e (fun w => (∃ b T, Held e pol d0 i u b T w) ∧ w.calls = n + 1) _ _ _ := remove_leaves
    specialize h w hw.2
    rcases hrun : remove u.tmp e w with ⟨r, w1⟩
    rw [hrun] at h
    cases r <;> exact ⟨hw.1, h⟩

/-- The last chunk, its bytes written, at the call `n`: mode and owner, then the
file is closed and renamed, and a removal follows what fails of the two. -/
theorem finishWrite_leaves :
    Proc.Triple e (fun w => Held e pol d0 i u b T w ∧ w.calls = n) (finishWrite u) (fun _ _ => True)
      (Leaves d0 u ((e.luck (if (e.luck (n + 2)).fault = none then n + 4 else n + 3)).fault = none)) := by
  have hattr : ∀ (g : Attr → Attr) (m : Nat),
      Proc.Triple e (fun w => Held e pol d0 i u b T w ∧ w.calls = m)
        (act fun _ d => changeAttr d u.tmp g).attempt
        (fun _ w => Held e pol d0 i u b T w ∧ w.calls = m + 1)
        (Leaves d0 u ((e.luck (if (e.luck (n + 2)).fault = none then n + 4 else n + 3)).fault = none)) := by
    intro g m
    refine Proc.triple_attempt_state (Proc.triple_weaken
      (Proc.triple_and (changeTemp_held g) (act_calls _)) (fun _ h => h) (fun _ w hw => ?_) fun _ h => h)
    exact ⟨hw.1, hw.2.1⟩
  unfold finishWrite
  refine Proc.triple_bind (M := fun _ w => Held e pol d0 i u b T w ∧ w.calls = n)
    (fun w hw => hw) fun a => ?_
  refine Proc.triple_bind (hattr _ n) fun _ => Proc.triple_bind (hattr _ (n + 1)) fun _ => ?_
  have hidle : ∀ w, Held e pol d0 i u b T w → Held e pol d0 i u b T (w.did none) := fun w h => h.idle
  have hremove : ∀ k, Proc.Triple e (fun w => (∃ b T, Held e pol d0 i u b T w) ∧ w.calls = k) (remove u.tmp)
      (fun _ => Leaves d0 u ((e.luck k).fault = none)) (Leaves d0 u ((e.luck k).fault = none)) :=
    fun k => remove_leaves
  refine Proc.triple_bind (M := fun _ w => Held e pol d0 i u b T w ∧ w.calls = n + 3 ∧
    (e.luck (n + 2)).fault = none) ?_ fun _ => ?_
  · refine Proc.triple_orElseFirst (Proc.triple_and (triple_pause hidle) pause_calls) ?_
    rintro w ⟨hw, hcalls, hfault⟩
    rw [if_neg hfault]
    exact hremove _ w ⟨⟨b, T, hw⟩, hcalls⟩
  refine Proc.triple_bind (M := fun _ => Renamed e pol d0 i u b T) ?_ fun _ => ?_
  · refine Proc.triple_orElseFirst (M := fun w => Held e pol d0 i u b T w ∧ w.calls = n + 4 ∧
      (e.luck (n + 2)).fault = none) ?_ ?_
    · rintro w ⟨hw, hcalls, hfault⟩
      have h := Proc.triple_and rename_held (act_calls _) w ⟨hw, hcalls⟩
      rcases hrun : act (fun _ d => rename d u.tmp u.real) e w with ⟨r, w1⟩
      rw [hrun] at h
      cases r with
      | ok a => exact h.1
      | error er => exact ⟨h.1, h.2, hfault⟩
    · rintro w ⟨hw, hcalls, hfault⟩
      rw [if_pos hfault]
      exact hremove _ w ⟨⟨b, T, hw⟩, hcalls⟩
  · intro w hw
    obtain ⟨f, hf, -⟩ := hw.installed.file
    rw [Proc.bind_run_ok (hw.stat hf)]
    trivial

/-- The agent takes back what a failed chunk did, the first call after the file
was opened being the call `n`: after a failed write, and in the last chunk after
a failed close or rename, the temporary file is removed, and that succeeds. -/
def MendsAt (e : Env) (n : Nat) (final : Bool) (data : Bytes) : Prop :=
  if data ≠ [] ∧ (e.luck n).fault ≠ none then (e.luck (n + 1)).fault = none
  else
    let n := if data = [] then n else n + 1
    -- The close of a chunk that is not the last has no removal after it.
    final = true ∧ (e.luck (if (e.luck (n + 2)).fault = none then n + 4 else n + 3)).fault = none

/-- The first chunk has one call more: it makes the file. -/
def Mends (e : Env) (i : WriteArgs) : Prop :=
  MendsAt e (if i.offset = 0 then 1 else 0) i.final (i.data.getD [])

theorem writeChunk_leaves (h0 : 0 ≤ i.offset) :
    Proc.Triple e (fun w => Held e pol d0 i u b (Opened e i) w ∧ w.calls = n) (writeChunk i u)
      (fun _ _ => True) (Leaves d0 u (MendsAt e n i.final u.data)) := by
  unfold writeChunk
  refine Proc.triple_bind (M := fun _ w =>
      Held e pol d0 i u (overlay b i.offset.toNat u.data) (Dated e i u.data) w ∧
        w.calls = (if u.data = [] then n else n + 1) ∧ (u.data = [] ∨ (e.luck n).fault = none))
    (Proc.triple_weaken (putChunk_leaves h0) (fun _ h => h) (fun _ _ h => h) fun w hw => ?_) fun _ => ?_
  · refine hw.2.congr ?_
    rw [MendsAt, if_pos hw.1]
  · have hnot (hok : u.data = [] ∨ (e.luck n).fault = none) :
        ¬ (u.data ≠ [] ∧ (e.luck n).fault ≠ none) := by tauto
    by_cases hfinal : i.final = true
    · rw [if_pos hfinal]
      rintro w ⟨hw, hcalls, hok⟩
      rw [MendsAt, if_neg (hnot hok), hfinal]
      simp only [true_and]
      exact finishWrite_leaves w ⟨hw, hcalls⟩
    · rw [if_neg hfinal]
      rintro w ⟨hw, hcalls, hok⟩
      have hnone : ¬ MendsAt e n i.final u.data := by
        rw [MendsAt, if_neg (hnot hok)]
        simp [hfinal]
      refine Proc.triple_bind (M := fun _ _ => True)
        (Proc.triple_weaken (triple_pause fun w hw => Held.idle hw) (fun _ h => h) (fun _ _ _ => trivial)
          fun w hw => held_stays hw hnone) (fun _ => Proc.triple_pure fun _ _ => trivial) w hw

theorem openWrite_calls :
    Proc.Triple e (Idle d0) (openWrite pol i) (fun _ w => w.calls = if i.offset = 0 then 1 else 0)
      (fun w => w.disk = d0) := by
  unfold openWrite
  refine Proc.triple_bind (M := fun _ => Idle d0) (triple_ask (fun w a hw _ => hw) fun w hw => hw.1)
    fun rd => ?_
  obtain ⟨real, data⟩ := rd
  refine Proc.triple_bind (M := fun _ => Idle d0) (triple_ask (fun w a hw _ => hw) fun w hw => hw.1)
    fun ob => ?_
  refine Proc.triple_bind (M := fun _ w => w.calls = if i.offset = 0 then 1 else 0) ?_
    fun tmp => Proc.triple_pure fun w hw => hw
  unfold openTemp
  split
  · rename_i hoff
    refine triple_act (fun luck w ch hw _ => ?_) fun w hw => hw.1
    simp [World.did, hw.2.1]
  · exact triple_ask (fun w l hw _ => hw.2.1) fun w hw => hw.1

/-- What a failed chunk leaves: nothing new when its temporary file was not
opened, and else the file, unless it mends. -/
theorem failed_leaves {er : GoError} (h0 : 0 ≤ i.offset)
    (h : (fsWrite pol i e (World.start d)).1 = .error er) :
    (opened pol e d i = none ∧ (fsWrite pol i e (World.start d)).2.disk = d) ∨
      ∃ u b, opened pol e d i = some u.tmp ∧ (∃ w, Held e pol d i u b (Opened e i) w) ∧
        Leaves d u (Mends e i) (fsWrite pol i e (World.start d)).2 := by
  have hheld : Proc.Triple e (Idle d) (openWrite pol i) _ _ := openWrite_held
  have hopen := Proc.triple_and hheld openWrite_calls (World.start d) ⟨idle_start d, idle_start d⟩
  rcases hrun : openWrite pol i e (World.start d) with ⟨r, w1⟩
  rw [hrun] at hopen
  cases r with
  | error er' =>
    left
    have hall : fsWrite pol i e (World.start d) = (.error er', w1) := Proc.bind_run_error hrun
    rw [hall]
    refine ⟨?_, hopen.2⟩
    unfold opened
    rw [hrun]
    rfl
  | ok u =>
    right
    obtain ⟨hheld, hcalls⟩ := hopen
    have hall : fsWrite pol i e (World.start d) = writeChunk i u e w1 := Proc.bind_run_ok hrun
    rw [hall] at h ⊢
    refine ⟨u, _, opened_of_run hrun, ⟨w1, hheld⟩, ?_⟩
    have hleft := writeChunk_leaves h0 w1 ⟨hheld, hcalls⟩
    rcases hw : writeChunk i u e w1 with ⟨r, w2⟩
    rw [hw] at hleft h
    cases h
    refine hleft.congr ?_
    rw [Mends, admitWrite_data hheld.admitted]
    rfl

/-- The chunk passes the checks, and finds the temporary file that it quotes. -/
def Opens (pol : Policy) (d : Disk) (i : WriteArgs) (q : Loc) : Prop :=
  ∃ real data, admitWrite pol d i = .ok (real, data) ∧ findUpload d real.dropLast i.upload = .ok q

theorem refused_run {er : GoError} (h : admitWrite pol d i = .error er) :
    fsWrite pol i e (World.start d) = (.error er, World.start d) := by
  have hask : ask (fun d => admitWrite pol d i) e (World.start d) = (.error er, World.start d) := by
    rw [ask_run, start_disk, h]
  exact Proc.bind_run_error (Proc.bind_run_error hask)

theorem openTemp_later {dir : Loc} (hoff : i.offset ≠ 0) :
    openTemp dir i e w = (findUpload w.disk dir i.upload, w) := by
  unfold openTemp
  rw [if_neg hoff]
  rfl

theorem opened_later (hoff : i.offset ≠ 0) : opened pol e d i = some q ↔ Opens pol d i q := by
  have hstuck : ∀ {er w1}, openWrite pol i e (World.start d) = (.error er, w1) →
      opened pol e d i = none := by
    intro er w1 hrun
    unfold opened
    rw [hrun]
    rfl
  cases hadm : admitWrite pol d i with
  | error er =>
    have hask : ask (fun d => admitWrite pol d i) e (World.start d) = (.error er, World.start d) := by
      rw [ask_run, start_disk, hadm]
    rw [hstuck (Proc.bind_run_error hask)]
    simp [Opens, hadm]
  | ok rd =>
    obtain ⟨real, data⟩ := rd
    have htemp : openTemp real.dropLast i e (World.start d) = _ := openTemp_later hoff
    rw [start_disk] at htemp
    have hopens : Opens pol d i q ↔ findUpload d real.dropLast i.upload = .ok q := by
      constructor
      · rintro ⟨real', data', hadm', hq⟩
        rw [hadm] at hadm'
        cases hadm'
        exact hq
      · exact fun hq => ⟨real, data, hadm, hq⟩
    rw [hopens]
    cases hfind : findUpload d real.dropLast i.upload with
    | error er =>
      rw [hfind] at htemp
      have hrun : openWrite pol i e (World.start d) = (.error er, World.start d) := by
        unfold openWrite
        rw [Proc.bind_run_ok (ask_ok hadm)]
        dsimp only
        rw [look_bind]
        exact Proc.bind_run_error htemp
      rw [hstuck hrun]
      simp
    | ok l =>
      rw [hfind] at htemp
      have hrun := confinement.openWrite_run (w := World.start d) hadm htemp
      have hopened := opened_of_run hrun
      rw [hopened]
      simp

/-! ## Turns that nothing disturbs -/

theorem upload_stop {path : String} {data : Bytes} {ts : List Turn} :
    (Exchange.upload path data).stop pol d ts = chunks pol path 0
      (.form (data.take chunkSize) (data.drop chunkSize)) ⟨0, ""⟩ none d ts := rfl

/-- A turn in which nobody else changes the disk. -/
def undisturbed : Turn := ⟨id, calm 0 []⟩

theorem chunks_more {path : String} {ifMtime : Int} {l : Loop} {v : Vars} {temp : Option Loc}
    {ts : List Turn} {c : Chunk} {r : WriteReply} (hc : l.chunk v ⟨[], 0, true, 0⟩ = c)
    (hfinal : c.final = false) (hi : request path ifMtime v c = i)
    (hrun : (fsWrite pol i (calm 0 []) (World.start d)).1 = .ok r) :
    chunks pol path ifMtime l v temp d (undisturbed :: ts) =
      chunks pol path ifMtime l.next (v.after c r)
        (if i.offset = 0 then opened pol (calm 0 []) d i else temp)
        (fsWrite pol i (calm 0 []) (World.start d)).2.disk ts := by
  subst hi
  simp only [chunks_cons, hc, undisturbed, id_eq, hrun, hfinal, Bool.false_eq_true, if_false]
  rfl

theorem chunks_stop {path : String} {ifMtime : Int} {l : Loop} {v : Vars} {temp : Option Loc}
    {ts : List Turn} {c : Chunk} {er : GoError} (hc : l.chunk v ⟨[], 0, true, 0⟩ = c)
    (hi : request path ifMtime v c = i)
    (hrun : (fsWrite pol i (calm 0 []) (World.start d)).1 = .error er) :
    chunks pol path ifMtime l v temp d (undisturbed :: ts) = some ⟨d, calm 0 [], i, temp⟩ := by
  subst hi
  simp only [chunks_cons, hc, undisturbed, id_eq, hrun]

/-! ## What a stopped exchange leaves -/

/-- Nothing that the exchange made is left. -/
def Failure.Clean (pol : Policy) (f : Failure) : Prop :=
  ∀ q, f.made pol = some q → (f.after pol).get q = none

/-- The first chunk made no file, or mends. A later one opens the file and mends,
unless others have removed it. -/
def Failure.Mended (pol : Policy) (f : Failure) : Prop :=
  if f.asked.offset = 0 then f.made pol = none ∨ Mends f.env f.asked
  else ∀ q, f.temp = some q →
    f.disk.get q = none ∨ Opens pol f.disk f.asked q ∧ Mends f.env f.asked

theorem opens_there (h : Opens pol d i q) : d.get q ≠ none := by
  obtain ⟨real, data, hadm, hfind⟩ := h
  obtain ⟨rfl, -, f, hf⟩ := findUpload_place (check_cleared (admitWrite_check hadm)) hfind
  rw [hf]
  simp

/-! ## An upload beyond the size limit -/

/-- A chunk that nothing disturbs, and that is not the last. -/
theorem more_calm {data : Bytes} {tmp : Loc} {f : FileData} {w1 : World}
    (hadm : admitWrite pol d i = .ok (real, data))
    (hopen : openTemp real.dropLast i (calm n []) (World.start d) = (.ok tmp, w1))
    (hf : w1.disk.get tmp = some (.file f)) (h0 : ¬ i.offset < 0) (hdata : data ≠ [])
    (hfinal : i.final = false) :
    ∃ w2 g, fsWrite pol i (calm n []) (World.start d) =
        (.ok (.more (wrap64 (i.offset + data.length)) (tmp.getLast?.getD "")), w2) ∧
      opened pol (calm n []) d i = some tmp ∧ w2.disk = w1.disk.put tmp (.file g) ∧ g.attr = f.attr := by
  have hrun := confinement.openWrite_run (w := World.start d) hadm hopen
  let g : FileData :=
    { f with content := overlay f.content i.offset.toNat data, mtime := 0, byPanel := true }
  have hdisk : ((w1.did (some (.put tmp (.file g)))).did none).disk = w1.disk.put tmp (.file g) := by
    rw [did_none_disk, did_disk, Deed.apply]
  have hopened := opened_of_run hrun
  refine ⟨_, g, ?_, hopened, hdisk, rfl⟩
  unfold fsWrite
  rw [Proc.bind_run_ok hrun]
  unfold writeChunk putChunk
  rw [Proc.bind_run_ok (Proc.orElseFirst_run_ok (writeAt_calm h0 hdata hf)), hfinal]
  exact Proc.bind_run_ok (pause_faultless fun _ => rfl)

/-- A site whose uploads may have a mebibyte. -/
def cappedPolicy : Policy := normalize ⟨["/var/www"], [], 1, ""⟩

def cappedTemp : Loc := ["var", "www", tempName 0]

/-- The disk with a new temporary file. -/
def begun : Disk := confinement.webDisk.put cappedTemp (.file ⟨[], 0, ⟨0o600, 0, 0⟩, true⟩)

example : (check cappedPolicy begun "/var/www/a" true).isOk := by decide +kernel

/-- The upload is under way: its temporary file is there, and is of root. -/
structure Underway (d : Disk) : Prop where
  alike : Alike d begun
  file : ∃ f, d.get cappedTemp = some (.file f) ∧ f.attr.uid = 0

def target : String := "/var/www/a"

/-- The checks of a chunk of the upload, but for the size. -/
theorem underway_admits {data : Bytes} {offset : Int} {final : Bool} {upload : Name} (hd : Underway d)
    (hlen : data.length ≤ chunkSize) :
    admitWrite cappedPolicy d ⟨target, some data, offset, final, upload, 0⟩ =
      if wrap64 (offset + data.length) > wrap64 (1 * 2 ^ 20) then .error (errSize 1)
      else .ok (["var", "www", "a"], data) := by
  have hcheck : check cappedPolicy d target true = .ok ["var", "www", "a"] := by
    rw [check_alike hd.alike]
    decide +kernel
  have hbackup : inBackupDir cappedPolicy d ["var", "www", "a"] = false := by
    rw [inBackupDir_alike hd.alike]
    decide +kernel
  have hdir : d.IsDirAt ["var", "www"] := by
    have hshape : (begun.get ["var", "www"]).map Node.shape = some .dir := by decide +kernel
    rw [← hd.alike] at hshape
    obtain ⟨n, hn, hs⟩ := Option.map_eq_some_iff.mp hshape
    obtain ⟨a, rfl⟩ := shape_eq_dir hs
    exact Or.inr ⟨a, hn⟩
  have hnone : d.get ["var", "www", "a"] = none := by
    have hshape : (begun.get ["var", "www", "a"]).map Node.shape = none := by decide +kernel
    rw [← hd.alike] at hshape
    exact Option.map_eq_none_iff.mp hshape
  have hstat : statNode d ["var", "www", "a"] = none := by
    obtain ⟨er, her⟩ := stat_past_missing (by decide : Proper ["var", "www", "a"]) (List.prefix_refl _)
      (by simp) hnone hdir
    rw [statNode, her]
  have hchunk : ¬ data.length > maxChunk * 2 := by
    unfold maxChunk
    unfold chunkSize at hlen
    omega
  unfold admitWrite
  simp only [hcheck, if_neg hchunk, hbackup, hstat, true_and]
  rfl

theorem begun_underway : Underway begun where
  alike _ := rfl
  file := ⟨_, Disk.get_put_self (by decide +kernel), rfl⟩

theorem Underway.put {f g : FileData} (hd : Underway d) (hf : d.get cappedTemp = some (.file f))
    (hattr : g.attr = f.attr) : Underway (d.put cappedTemp (.file g)) where
  alike := (alike_put hf).trans hd.alike
  file := by
    obtain ⟨f', hf', huid⟩ := hd.file
    rw [hf] at hf'
    cases hf'
    exact ⟨g, Disk.get_put_self (fits_over hf (by simp [Node.isDir])), hattr ▸ huid⟩

/-- A chunk of the upload that is within the size. -/
theorem underway_more {data : Bytes} {offset : Nat} (hd : Underway d) (hoff : offset ≠ 0)
    (hlen : data.length ≤ chunkSize) (hdata : data ≠ []) (hsize : offset + data.length ≤ 2 ^ 20) :
    let i : WriteArgs := ⟨target, some data, offset, false, tempName 0, 0⟩
    (∃ r, (fsWrite cappedPolicy i (calm 0 []) (World.start d)).1 = .ok r ∧
      uploadOf (tempName 0) r = tempName 0) ∧
      Underway (fsWrite cappedPolicy i (calm 0 []) (World.start d)).2.disk := by
  intro i
  obtain ⟨f, hf, huid⟩ := hd.file
  have hwrap : ¬ wrap64 ((offset : Int) + data.length) > wrap64 (1 * 2 ^ 20) := by
    unfold wrap64
    rw [Int.bmod_eq_of_le (by omega) (by omega), Int.bmod_eq_of_le (by omega) (by omega)]
    omega
  have hadm : admitWrite cappedPolicy d i = .ok (["var", "www", "a"], data) := by
    rw [underway_admits hd hlen, if_neg hwrap]
  have hdir : d.IsDirAt cappedTemp.dropLast := Disk.isDirAt_dropLast (by rw [hf]; rfl)
  have hopen : openTemp (["var", "www", "a"] : Loc).dropLast i (calm 0 []) (World.start d) =
      (.ok cappedTemp, World.start d) := by
    rw [openTemp_later (by simpa [i] using hoff), start_disk]
    have hname : isUploadName (tempName 0) = true := by decide
    have hplace : (["var", "www", "a"] : Loc).dropLast ++ [tempName 0] = cappedTemp := rfl
    have hfile : openNoFollow d cappedTemp = .ok (cappedTemp, f) := by
      unfold openNoFollow
      rw [entryAt_plain (by decide : Proper cappedTemp) (by decide) hdir]
      simp [hf]
    unfold findUpload
    simp only [i, hname, if_true, hplace, hfile, huid]
  obtain ⟨w2, g, hrun, -, hdisk, hattr⟩ := more_calm hadm hopen (by simpa using hf) (by simp [i]) hdata rfl
  rw [hrun]
  refine ⟨⟨_, rfl, rfl⟩, ?_⟩
  rw [hdisk]
  exact hd.put hf hattr

/-- The first chunk of the upload. -/
theorem first_more {data : Bytes} (hlen : data.length ≤ chunkSize) (hdata : data ≠ []) :
    let i : WriteArgs := ⟨target, some data, 0, false, "", 0⟩
    (∃ r, (fsWrite cappedPolicy i (calm 0 []) (World.start confinement.webDisk)).1 = .ok r ∧
      uploadOf "" r = tempName 0) ∧
      opened cappedPolicy (calm 0 []) confinement.webDisk i = some cappedTemp ∧
      Underway (fsWrite cappedPolicy i (calm 0 []) (World.start confinement.webDisk)).2.disk := by
  intro i
  have hcheck : check cappedPolicy confinement.webDisk target true = .ok ["var", "www", "a"] := by
    decide +kernel
  have hbackup : inBackupDir cappedPolicy confinement.webDisk ["var", "www", "a"] = false := by
    decide +kernel
  have hstat : statNode confinement.webDisk ["var", "www", "a"] = none := by decide +kernel
  have hchunk : ¬ data.length > maxChunk * 2 := by
    unfold maxChunk
    unfold chunkSize at hlen
    omega
  have hwrap : ¬ wrap64 ((0 : Int) + data.length) > wrap64 (1 * 2 ^ 20) := by
    unfold chunkSize at hlen
    unfold wrap64
    rw [Int.bmod_eq_of_le (by omega) (by omega), Int.bmod_eq_of_le (by omega) (by omega)]
    omega
  have hadm : admitWrite cappedPolicy confinement.webDisk i = .ok (["var", "www", "a"], data) := by
    unfold admitWrite
    simp only [i, hcheck, if_neg hchunk, hbackup, hstat, true_and]
    exact if_neg hwrap
  have hopen : openTemp (["var", "www", "a"] : Loc).dropLast i (calm 0 []) (World.start confinement.webDisk) =
      (.ok cappedTemp, (World.start confinement.webDisk).did
        (some (.put cappedTemp (.file ⟨[], 0, ⟨0o600, 0, 0⟩, true⟩)))) := by
    have hcreate : createExcl confinement.webDisk cappedTemp ⟨[], 0, ⟨0o600, 0, 0⟩, true⟩ =
        .ok ⟨some (.put cappedTemp (.file ⟨[], 0, ⟨0o600, 0, 0⟩, true⟩)), cappedTemp⟩ :=
      createExcl_there (by decide) (by decide) (by decide +kernel) (by decide +kernel)
    have hrun : act (fun luck d => createExcl d (["var", "www"] ++ [tempName luck.draw])
        ⟨[], luck.now, ⟨0o600, 0, 0⟩, true⟩) (calm 0 []) (World.start confinement.webDisk) = _ :=
      act_calm hcreate
    unfold openTemp createTemp
    rw [if_pos (by rfl)]
    exact hrun
  obtain ⟨f, hf, huid⟩ := begun_underway.file
  obtain ⟨w2, g, hrun, hopened, hdisk, hattr⟩ := more_calm hadm hopen hf (by simp [i]) hdata rfl
  rw [hrun]
  refine ⟨⟨_, rfl, rfl⟩, hopened, ?_⟩
  rw [hdisk]
  exact begun_underway.put hf hattr

theorem request_target {offset : Nat} {upload : Name} {c : Chunk} :
    request target 0 ⟨offset, upload⟩ c = ⟨target, some c.data, offset, c.final, upload, 0⟩ := by
  simp [request]

/-- An upload of two full chunks and some bytes: the third chunk is refused, and
the file with the two others stays. -/
theorem oversized_stays {b1 b2 b3 : Bytes} (h1 : b1.length = chunkSize) (h2 : b2.length = chunkSize)
    (h3 : b3 ≠ []) (hlen : b3.length ≤ chunkSize) :
    ∃ f, (Exchange.upload target (b1 ++ (b2 ++ b3))).stop cappedPolicy confinement.webDisk
      [undisturbed, undisturbed, undisturbed] = some f ∧ ¬ f.Clean cappedPolicy := by
  have hfull : ∀ {b : Bytes}, b.length = chunkSize → b ≠ [] := by
    rintro b hb rfl
    cases hb
  have htake1 : (b1 ++ (b2 ++ b3)).take chunkSize = b1 := by rw [← h1, List.take_left]
  have hdrop1 : (b1 ++ (b2 ++ b3)).drop chunkSize = b2 ++ b3 := by rw [← h1, List.drop_left]
  have htake2 : (b2 ++ b3).take chunkSize = b2 := by rw [← h2, List.take_left]
  have hdrop2 : (b2 ++ b3).drop chunkSize = b3 := by rw [← h2, List.drop_left]
  have htake3 : b3.take chunkSize = b3 := List.take_of_length_le hlen
  -- The first chunk makes the file.
  obtain ⟨⟨r1, hrun1, hup1⟩, hopen, hd1⟩ := first_more (by omega : b1.length ≤ chunkSize) (hfull h1)
  rw [upload_stop, htake1, hdrop1, chunks_more (c := ⟨b1, false⟩)
    (by simp [Loop.chunk, htake2, hfull h2]) rfl request_target hrun1]
  have hvars1 : Vars.after ⟨0, ""⟩ ⟨b1, false⟩ r1 = ⟨chunkSize, tempName 0⟩ := by
    simp [Vars.after, hup1, h1]
  simp only [Nat.cast_zero, if_true]
  rw [hvars1, hopen, Loop.next, htake2, hdrop2]
  generalize (fsWrite cappedPolicy _ (calm 0 []) (World.start confinement.webDisk)).2.disk = d1 at hd1 ⊢
  -- The second one has the size that is allowed.
  have hne : chunkSize ≠ 0 := by decide
  obtain ⟨⟨r2, hrun2, hup2⟩, hd2⟩ := underway_more hd1 hne (by omega : b2.length ≤ chunkSize) (hfull h2)
    (by rw [h2]; decide)
  rw [chunks_more (c := ⟨b2, false⟩) (by simp [Loop.chunk, htake3, h3]) rfl request_target hrun2]
  have hvars2 : Vars.after ⟨chunkSize, tempName 0⟩ ⟨b2, false⟩ r2 = ⟨chunkSize + chunkSize, tempName 0⟩ := by
    simp [Vars.after, hup2, h2]
  have hoff : ¬ ((chunkSize : Nat) : Int) = 0 := by decide
  simp only [hoff, if_false]
  rw [hvars2, Loop.next, htake3]
  generalize (fsWrite cappedPolicy _ (calm 0 []) (World.start d1)).2.disk = d2 at hd2 ⊢
  -- The third one has not.
  have hpos : 0 < b3.length := List.length_pos_iff.mpr h3
  have hrefused : admitWrite cappedPolicy d2
      ⟨target, some b3, ((chunkSize + chunkSize : Nat) : Int), true, tempName 0, 0⟩ =
        .error (errSize 1) := by
    rw [underway_admits hd2 hlen, if_pos]
    unfold chunkSize at hlen ⊢
    unfold wrap64
    rw [Int.bmod_eq_of_le (by omega) (by omega), Int.bmod_eq_of_le (by omega) (by omega)]
    omega
  have hlast : b3.drop chunkSize = [] := List.drop_eq_nil_of_le hlen
  have hrun3 := refused_run (e := calm 0 []) hrefused
  have hoff' : ¬ ((chunkSize + chunkSize : Nat) : Int) = 0 := by decide
  refine ⟨_, chunks_stop (c := ⟨b3, true⟩) (by simp [Loop.chunk, hlast]) request_target
    (congrArg Prod.fst hrun3), fun hclean => ?_⟩
  obtain ⟨f, hf, -⟩ := hd2.file
  have hgone := hclean cappedTemp (by rw [Failure.made, if_neg hoff'])
  rw [Failure.after, hrun3, start_disk, hf] at hgone
  cases hgone

/-! ## Every exchange -/

/-- An exchange that stops leaves no temporary file exactly when the chunk that
failed took it back. -/
theorem stop_clean {x : Exchange} {ts : List Turn} (h : x.stop pol d ts = some f) :
    f.Clean pol ↔ f.Mended pol := by
  obtain ⟨h0, -, er, her⟩ := stop_failed h
  unfold Failure.Clean Failure.Mended
  by_cases hoff : f.asked.offset = 0
  · rw [if_pos hoff]
    unfold Failure.made
    rw [if_pos hoff]
    rcases failed_leaves h0 her with ⟨hnone, -⟩ | ⟨u, b, hopen, -, hleft⟩
    · simp [hnone]
    · rw [hopen]
      simpa [Failure.after] using hleft.gone
  · rw [if_neg hoff]
    unfold Failure.made
    rw [if_neg hoff]
    refine forall_congr' fun q => imp_congr_right fun _ => ?_
    rcases failed_leaves h0 her with ⟨hnone, hsame⟩ | ⟨u, b, hopen, -, hleft⟩
    · have hnot : ¬ Opens pol f.disk f.asked q := by
        rw [← opened_later (e := f.env) hoff, hnone]
        simp
      rw [Failure.after, hsame]
      simp [hnot]
    · by_cases hq : q = u.tmp
      · subst hq
        have hopens := (opened_later hoff).mp hopen
        simp only [opens_there hopens, false_or, hopens, true_and]
        exact hleft.gone
      · have hnot : ¬ Opens pol f.disk f.asked q := by
          rw [← opened_later (e := f.env) hoff, hopen, Option.some.injEq]
          exact fun h => hq h.symm
        rw [Failure.after, hleft.same q hq]
        simp [hnot]

/-- A file with one byte more than the limit. -/
def oversized : Bytes := List.replicate chunkSize 0 ++ (List.replicate chunkSize 0 ++ [0])

theorem oversized_stop : ∃ f, (Exchange.upload target oversized).stop cappedPolicy confinement.webDisk
    [undisturbed, undisturbed, undisturbed] = some f ∧ ¬ f.Clean cappedPolicy :=
  have hlen : (List.replicate chunkSize (0 : UInt8)).length = chunkSize := List.length_replicate
  oversized_stays hlen hlen (List.cons_ne_nil 0 []) (by decide)

/-- Its third chunk does not mend what the two before it made. -/
theorem oversized_unmended : ∃ f, (Exchange.upload target oversized).stop cappedPolicy confinement.webDisk
    [undisturbed, undisturbed, undisturbed] = some f ∧
      (f.Clean cappedPolicy ↔ f.Mended cappedPolicy) ∧ ¬ f.Mended cappedPolicy := by
  obtain ⟨f, hf, hnot⟩ := oversized_stop
  have hiff := stop_clean hf
  exact ⟨f, hf, hiff, fun hm => hnot (hiff.mpr hm)⟩

/-- Not every exchange that stops leaves nothing. -/
theorem upload_stays :
    ¬ ∀ pol d x ts f, Exchange.stop pol d ts x = some f → f.Clean pol := by
  intro h
  obtain ⟨f, hf, hnot⟩ := oversized_stop
  exact hnot (h _ _ _ _ f hf)

end icsd_panel.stops

-- Runs that nothing disturbs: what a call does when it finds what it needs.
import IcsdPanel.Growth

open effects

namespace icsd_panel.machine

open paths disk

variable {d : Disk} {e : Env} {w : World} {n : Nat} {cwd : Loc} {α β : Type}

def calmLuck (n : Nat) : Luck := ⟨none, n, 0, "", none⟩

/-- Surroundings where no call fails, and where the free space is not known. -/
def calm (n : Nat) (cwd : Loc) : Env := ⟨fun _ => calmLuck n, fun _ _ => false, cwd, -1⟩

/-- No call fails. -/
def Faultless (e : Env) : Prop := ∀ k, (e.luck k).fault = none

/-- A call that does not fail does what it can. -/
theorem act_lucky {f : Luck → Disk → Except Errno (Change α)} {ch : Change α}
    (he : (e.luck w.calls).fault = none) (h : f (e.luck w.calls) w.disk = .ok ch) :
    act f e w = (.ok ch.value, w.did ch.deed) := by
  unfold act call
  simp [he, h, outcome]

theorem act_unlucky {f : Luck → Disk → Except Errno (Change α)} (he : (e.luck w.calls).fault ≠ none) :
    act f e w = (.error (.os .io), w.did none) := by
  unfold act call
  simp [Option.isSome_iff_ne_none.mpr he]

theorem act_faultless {f : Luck → Disk → Except Errno (Change α)} {ch : Change α} (he : Faultless e)
    (h : f (e.luck w.calls) w.disk = .ok ch) : act f e w = (.ok ch.value, w.did ch.deed) :=
  act_lucky (he w.calls) h

theorem pause_faultless (he : Faultless e) : pause e w = (.ok (), w.did none) :=
  act_faultless (f := fun _ _ => .ok ⟨none, ()⟩) he rfl

theorem act_calm {f : Luck → Disk → Except Errno (Change α)} {ch : Change α}
    (h : f (calmLuck n) w.disk = .ok ch) : act f (calm n cwd) w = (.ok ch.value, w.did ch.deed) := by
  unfold act call
  simp [calm, calmLuck] at h ⊢
  simp [h, outcome]

theorem act_calm_error {f : Luck → Disk → Except Errno (Change α)} {er : Errno}
    (h : f (calmLuck n) w.disk = .error er) : act f (calm n cwd) w = (.error (.os er), w.did none) := by
  unfold act call
  simp [calm, calmLuck] at h ⊢
  simp [h, outcome]

theorem look_bind {f : Disk → β} {k : β → Sys α} :
    ((ask fun d => .ok (f d)) >>= k) e w = k (f w.disk) e w := rfl

theorem askEnv_bind {f : Env → Disk → β} {k : β → Sys α} :
    (askEnv f >>= k) e w = k (f e w.disk) e w := rfl

theorem ask_ok {f : Disk → Except GoError α} {a : α} (h : f w.disk = .ok a) :
    ask f e w = (.ok a, w) := by
  rw [ask_run, h]

theorem writeAt_calm {l : Loc} {off : Int} {data : Bytes} {f : FileData} (h0 : ¬ off < 0)
    (hdata : data ≠ []) (hf : w.disk.get l = some (.file f)) :
    writeAt l off data (calm n cwd) w = (.ok (), w.did (some (.put l (.file { f with
      content := overlay f.content off.toNat data, mtime := 0, byPanel := true })))) := by
  unfold writeAt
  rw [if_neg h0, if_neg hdata]
  unfold call
  simp [calm, calmLuck, putBytes, hdata, updateFile, hf, outcome]

/-- A file, a link or an empty directory goes when its path leads to it. -/
theorem removeEntry_there {l : Loc} {x : Node} (h : d.get l = some x) (hn : d.names l = []) :
    removeEntry d l = .ok ⟨some (.remove l), ()⟩ := by
  unfold removeEntry
  rw [entryAt_plain (Disk.get_proper h) (Disk.get_ne_nil h) (Disk.isDirAt_dropLast (by rw [h]; rfl))]
  simp [h, hn]

theorem createExcl_there {l : Loc} {f : FileData} (hp : Proper l) (hne : l ≠ [])
    (hdir : d.IsDirAt l.dropLast) (hn : d.get l = none) :
    createExcl d l f = .ok ⟨some (.put l (.file f)), l⟩ := by
  unfold createExcl
  rw [entryAt_plain hp hne hdir]
  simp [hn]

theorem mkdir_there {l : Loc} {a : Attr} (hp : Proper l) (hne : l ≠ [])
    (hdir : d.IsDirAt l.dropLast) (hn : d.get l = none) :
    mkdir d l a = .ok ⟨some (.put l (.dir a)), ()⟩ := by
  unfold mkdir
  rw [entryAt_plain hp hne hdir]
  simp [hn]

/-- No path leads past a missing entry. -/
theorem stat_past_missing {p q : Loc} (hp : Proper p) (hq : q <+: p) (hne : q ≠ [])
    (hnone : d.get q = none) (hdir : d.IsDirAt q.dropLast) : ∃ er, stat d p = .error er := by
  obtain ⟨m, x, rfl⟩ := dropLast_append_getLast hne
  obtain ⟨zs, rfl⟩ := hq
  rw [List.dropLast_concat] at hdir
  obtain ⟨hpm, _⟩ := proper_append.mp hp
  obtain ⟨hpm, hpx⟩ := proper_append.mp hpm
  have hm : dirAt d m = .ok m := dirAt_plain hpm hdir
  cases hs : stat d (m ++ [x] ++ zs) with
  | error er => exact ⟨er, rfl⟩
  | ok r =>
    exfalso
    have hf := follow_eval (stat_ok (n := r.2) (l := r.1) hs).1
    rw [List.append_assoc] at hf
    exact walk_past_missing (hpx x (by simp)) hm hnone hf

theorem stat_there {p : Loc} (hp : Proper p) (h : d.IsDirAt p) : ∃ a, stat d p = .ok (p, .dir a) := by
  unfold stat
  rw [show follow d p = .ok p from walk_plain 40 hp (plain_of_isDirAt h)]
  rcases h with rfl | ⟨a, ha⟩
  · exact ⟨⟨0o755, 0, 0⟩, rfl⟩
  · exact ⟨a, by simp [Disk.look, Disk.get_ne_nil ha, ha]⟩

theorem askOs_attempt {f : Disk → Except Errno α} :
    (askOs f).attempt e w = (.ok ((f w.disk).mapError .os), w) := rfl

theorem mkdirAllRev_there {mode : Nat} {up : List Name} (hp : Proper up.reverse)
    (h : w.disk.IsDirAt up.reverse) : mkdirAllRev mode up e w = (.ok (), w) := by
  cases up with
  | nil => rfl
  | cons x up =>
    rw [List.reverse_cons] at hp h
    obtain ⟨a, ha⟩ := stat_there hp h
    unfold mkdirAllRev
    rw [Proc.bind_run_ok askOs_attempt, ha]
    rfl

end icsd_panel.machine

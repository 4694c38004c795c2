-- The steps of the agent: procedures over the disk of the server. The
-- surroundings decide which call fails and which random name is drawn.
import IcsdPanel.Calls
import IcsdPanel.Effects

open effects

namespace icsd_panel.machine

open paths disk

inductive GoError
  | os (e : Errno)
  | text (s : String)
deriving DecidableEq, Repr

/-- What the surroundings make of one call. With a fault the call fails, a
write after so many bytes. `stuck` is what `os.RemoveAll` cannot remove, and
`stamp` the local time as the name of a backup has it. -/
structure Luck where
  fault : Option Nat
  draw : Nat
  now : Int
  stamp : String
  stuck : Option Loc

inductive Access
  | stat
  | list
  | open
deriving DecidableEq, Repr

/-- The surroundings of the agent: the luck of each call, the places that
cannot be looked at, listed or opened, the working directory, and the bytes
that are free on the disk. -/
structure Env where
  luck : Nat → Luck
  blocked : Access → Loc → Bool
  cwd : Loc
  free : Int

/-- What the agent did so far: its changes of the disk, the last one first,
the files that it read, and the number of its calls. -/
structure World where
  first : Disk
  deeds : List Deed
  reads : List Loc
  calls : Nat

/-- The disk after a list of changes, the last one first. -/
def replay (d : Disk) (deeds : List Deed) : Disk := deeds.foldr (fun δ d => δ.apply d) d

def World.disk (w : World) : Disk := replay w.first w.deeds

/-- The world of an agent that did nothing yet. -/
def World.start (d : Disk) : World := ⟨d, [], [], 0⟩

/-- The world after one more call. -/
def World.did (w : World) (δ : Option Deed) : World :=
  { w with deeds := δ.toList ++ w.deeds, calls := w.calls + 1 }

abbrev Sys (α : Type) := Proc Env World GoError α

/-- The outcome of a call. Also a call that fails may have changed the disk. -/
structure Outcome (α : Type) where
  deed : Option Deed
  value : Except GoError α

variable {α : Type}

def call (f : Luck → Disk → Outcome α) : Sys α := fun e w =>
  let r := f (e.luck w.calls) w.disk
  (r.value, w.did r.deed)

def outcome : Except Errno (Change α) → Outcome α
  | .ok c => ⟨c.deed, .ok c.value⟩
  | .error e => ⟨none, .error (.os e)⟩

/-- A call that does nothing when it fails. -/
def act (f : Luck → Disk → Except Errno (Change α)) : Sys α := call fun l d =>
  if l.fault.isSome then ⟨none, .error (.os .io)⟩ else outcome (f l d)

/-- A question that changes nothing. -/
def ask (f : Disk → Except GoError α) : Sys α := fun _ w => (f w.disk, w)

/-- A question that also the surroundings answer. -/
def askEnv (f : Env → Disk → α) : Sys α := fun e w => (.ok (f e w.disk), w)

def askOs (f : Disk → Except Errno α) : Sys α := ask fun d => (f d).mapError .os

/-- Opens a file and reads it. -/
def readFile (p : Loc) : Sys FileData := fun e w =>
  match openFile w.disk p with
  | .error er => (.error (.os er), w)
  | .ok (l, f) =>
    if e.blocked .open l then (.error (.os .io), w)
    else (.ok f, { w with reads := l :: w.reads })

def fail (s : String) : Sys α := Proc.fail (.text s)

/-- A call that changes nothing, but may fail: a close, or the look at the
context of a job. -/
def pause : Sys Unit := act fun _ _ => .ok ⟨none, ()⟩

/-- The bytes of a write put into the open file at `l`. No bytes, no change. -/
def putBytes (d : Disk) (l : Loc) (off : Nat) (data : Bytes) (now : Int) :
    Except Errno (Change Unit) :=
  if data = [] then .ok ⟨none, ()⟩
  else updateFile d l fun f =>
    { f with content := overlay f.content off data, mtime := now, byPanel := true }

/-- `f.WriteAt(data, off)` on the open file at `l`. Without bytes it is no
call. -/
def writeAt (l : Loc) (off : Int) (data : Bytes) : Sys Unit :=
  if off < 0 then fail "negative offset"
  else if data = [] then pure ()
  else call fun luck d =>
    match luck.fault with
    | none => outcome (putBytes d l off.toNat data luck.now)
    | some k =>
      { outcome (putBytes d l off.toNat (data.take k) luck.now) with value := .error (.os .io) }

/-- `os.RemoveAll`. -/
def removeAll (p : Loc) : Sys Unit := call fun luck d =>
  if luck.fault.isSome then ⟨none, .error (.os .io)⟩
  else
    let r := outcome (removeTree d p luck.stuck)
    match r.deed with
    | some (.clear l stuck) =>
      if d.taken l stuck = d.below l then r else { r with value := .error (.os .io) }
    | _ => r

/-- `os.MkdirAll`, with the names of the path from its last to its first. -/
def mkdirAllRev (mode : Nat) : List Name → Sys Unit
  | [] => pure ()
  | n :: up => do
    match ← (askOs fun d => stat d (up.reverse ++ [n])).attempt with
    | .ok (_, .dir _) => pure ()
    | .ok _ => Proc.fail (.os .notdir)
    | .error _ => do
      mkdirAllRev mode up
      match ← (act fun _ d => mkdir d (up.reverse ++ [n]) ⟨mode, 0, 0⟩).attempt with
      | .ok () => pure ()
      | .error er => do
        match ← (askOs fun d => lstat d (up.reverse ++ [n])).attempt with
        | .ok (_, .dir _) => pure ()
        | _ => Proc.fail er

/-- `os.MkdirAll`. -/
def mkdirAll (p : Loc) (mode : Nat) : Sys Unit := mkdirAllRev mode p.reverse

/-! ## The rules of the calls -/

variable {e : Env} {w : World} {P T : World → Prop} {Q : α → World → Prop}

@[simp] theorem did_disk (δ : Deed) : (w.did (some δ)).disk = δ.apply w.disk := rfl

@[simp] theorem did_none_disk : (w.did none).disk = w.disk := rfl

@[simp] theorem did_first (δ : Option Deed) : (w.did δ).first = w.first := rfl

@[simp] theorem did_reads (δ : Option Deed) : (w.did δ).reads = w.reads := rfl

@[simp] theorem start_disk (d : Disk) : (World.start d).disk = d := rfl

theorem ask_run (f : Disk → Except GoError α) : ask f e w = (f w.disk, w) := rfl

theorem triple_ask {f : Disk → Except GoError α} (h : ∀ w a, P w → f w.disk = .ok a → Q a w)
    (hT : ∀ w, P w → T w) : Proc.Triple e P (ask f) Q T := by
  intro w hw
  rw [ask_run]
  cases hf : f w.disk with
  | ok a => exact h w a hw hf
  | error er => exact hT w hw

theorem triple_askOs {f : Disk → Except Errno α} (h : ∀ w a, P w → f w.disk = .ok a → Q a w)
    (hT : ∀ w, P w → T w) : Proc.Triple e P (askOs f) Q T := by
  refine triple_ask (fun w a hw hf => h w a hw ?_) hT
  cases hd : f w.disk with
  | ok b => rw [hd] at hf; cases hf; rfl
  | error er => rw [hd] at hf; cases hf

theorem triple_askEnv {f : Env → Disk → α} (h : ∀ w, P w → Q (f e w.disk) w) :
    Proc.Triple e P (askEnv f) Q T := h

/-- A call, with the luck of its turn. -/
theorem triple_actAt {f : Luck → Disk → Except Errno (Change α)}
    (h : ∀ w c, P w → f (e.luck w.calls) w.disk = .ok c → Q c.value (w.did c.deed))
    (hT : ∀ w, P w → T (w.did none)) : Proc.Triple e P (act f) Q T := by
  intro w hw
  unfold act call
  split
  · rename_i hrun
    simp only [Prod.mk.injEq] at hrun
    obtain ⟨hval, rfl⟩ := hrun
    split at hval
    · cases hval
    · rename_i hfault
      rw [if_neg hfault]
      cases hc : f (e.luck w.calls) w.disk with
      | error er => rw [hc] at hval; cases hval
      | ok c =>
        rw [hc] at hval
        cases hval
        exact h w c hw hc
  · rename_i hrun
    simp only [Prod.mk.injEq] at hrun
    obtain ⟨hval, rfl⟩ := hrun
    split at hval
    · rename_i hfault
      rw [if_pos hfault]
      exact hT w hw
    · rename_i hfault
      rw [if_neg hfault]
      cases hc : f (e.luck w.calls) w.disk with
      | error er => exact hT w hw
      | ok c => rw [hc] at hval; cases hval

theorem triple_act {f : Luck → Disk → Except Errno (Change α)}
    (h : ∀ l w c, P w → f l w.disk = .ok c → Q c.value (w.did c.deed))
    (hT : ∀ w, P w → T (w.did none)) : Proc.Triple e P (act f) Q T :=
  triple_actAt (fun w c => h _ w c) hT

theorem triple_pause (hidle : ∀ w, P w → P (w.did none)) :
    Proc.Triple e P pause (fun _ => P) P := by
  refine triple_act (fun l w c hw hc => ?_) hidle
  cases hc
  exact hidle w hw

theorem triple_fail (s : String) (h : ∀ w, P w → T w) : Proc.Triple e P (fail s : Sys α) Q T :=
  Proc.triple_fail h

theorem triple_readFile {p : Loc} {Q : FileData → World → Prop}
    (h : ∀ w l f, P w → openFile w.disk p = .ok (l, f) → Q f { w with reads := l :: w.reads })
    (hT : ∀ w, P w → T w) : Proc.Triple e P (readFile p) Q T := by
  intro w hw
  unfold readFile
  cases ho : openFile w.disk p with
  | error er => exact hT w hw
  | ok lf =>
    obtain ⟨l, f⟩ := lf
    by_cases hb : e.blocked .open l = true
    · simp only [hb, if_true]
      exact hT w hw
    · simp only [hb]
      exact h w l f hw ho

theorem putBytes_ok {d : Disk} {l : Loc} {off : Nat} {data : Bytes} {now : Int} {c : Change Unit}
    (h : putBytes d l off data now = .ok c) :
    (data = [] ∧ c.deed = none) ∨ (data ≠ [] ∧ ∃ f, d.get l = some (.file f) ∧
      c.deed = some (.put l (.file { f with
        content := overlay f.content off data, mtime := now, byPanel := true }))) := by
  unfold putBytes at h
  split at h
  · cases h
    exact Or.inl ⟨‹_›, rfl⟩
  · exact Or.inr ⟨‹_›, updateFile_ok h⟩

/-- A write, when it changes anything, changes one file: it stays a file, and
becomes the panel's. -/
theorem keeps_writeAt {l : Loc} {off : Int} {data : Bytes} (hidle : ∀ w, P w → P (w.did none))
    (h : ∀ w f g, P w → w.disk.get l = some (.file f) → g.byPanel = true → g.attr = f.attr →
      P (w.did (some (.put l (.file g))))) : Proc.Keeps e P (writeAt l off data) := by
  have hput : ∀ w bytes now, P w →
      P (w.did (outcome (putBytes w.disk l off.toNat bytes now)).deed) := by
    intro w bytes now hw
    cases hc : putBytes w.disk l off.toNat bytes now with
    | error er => exact hidle w hw
    | ok c =>
      rcases putBytes_ok hc with ⟨_, hdeed⟩ | ⟨_, f, hf, hdeed⟩
      · simp only [outcome, hdeed]
        exact hidle w hw
      · simp only [outcome, hdeed]
        exact h w f _ hw hf rfl rfl
  unfold writeAt
  refine Proc.triple_ite (fun _ => triple_fail _ fun _ hw => hw) fun _ => ?_
  refine Proc.triple_ite (fun _ => Proc.triple_pure fun _ hw => hw) fun _ => ?_
  refine Proc.triple_of_state fun w hw => ?_
  unfold call
  cases hl : (e.luck w.calls).fault with
  | none =>
    simp only [hl]
    exact hput w data (e.luck w.calls).now hw
  | some k =>
    simp only [hl]
    exact hput w (data.take k) (e.luck w.calls).now hw

theorem triple_removeAll {p : Loc} (hidle : ∀ w, P w → T (w.did none))
    (h : ∀ w l stuck, P w → entryAt w.disk p = .ok l → T (w.did (some (.clear l stuck)))) :
    Proc.Triple e P (removeAll p) (fun _ => T) T := by
  refine Proc.triple_of_state fun w hw => ?_
  unfold removeAll call
  by_cases hf : (e.luck w.calls).fault.isSome
  · simp only [hf, if_true]
    exact hidle w hw
  · simp only [hf]
    cases hc : removeTree w.disk p (e.luck w.calls).stuck with
    | error er => exact hidle w hw
    | ok c =>
      rcases removeTree_ok hc with hnone | ⟨l, hl, hclear⟩
      · simp only [outcome, hnone]
        exact hidle w hw
      · have := h w l (e.luck w.calls).stuck hw hl
        simp only [outcome, hclear, Bool.false_eq_true, if_false]
        split <;> exact this

theorem keeps_mkdirAllRev {mode : Nat} {rev : List Name} (hidle : ∀ w, P w → P (w.did none))
    (h : ∀ w q c, P w → q <+: rev.reverse → q ≠ [] → mkdir w.disk q ⟨mode, 0, 0⟩ = .ok c →
      P (w.did c.deed)) : Proc.Keeps e P (mkdirAllRev mode rev) := by
  induction rev with
  | nil => exact Proc.triple_pure fun _ hw => hw
  | cons n up ih =>
    have hup : up.reverse <+: (n :: up).reverse := by simp
    have hmake : Proc.Keeps e P (act fun _ d => mkdir d (up.reverse ++ [n]) ⟨mode, 0, 0⟩) :=
      triple_act (fun l w c hw hc => h w _ c hw (by simp) (by simp) hc) hidle
    have hlook : ∀ f : Disk → Except Errno (Loc × Node),
        Proc.Triple e P (askOs f).attempt (fun _ => P) P := by
      intro f
      refine Proc.triple_weaken (Proc.triple_attempt (triple_askOs (fun w a hw _ => hw)
        fun w hw => hw)) (fun _ h => h) ?_ (fun _ h => h)
      rintro (er | a) s hs <;> exact hs
    have hmade : Proc.Triple e P (act fun _ d => mkdir d (up.reverse ++ [n]) ⟨mode, 0, 0⟩).attempt
        (fun _ => P) P := by
      refine Proc.triple_weaken (Proc.triple_attempt hmake) (fun _ h => h) ?_ (fun _ h => h)
      rintro (er | a) s hs <;> exact hs
    unfold mkdirAllRev
    refine Proc.triple_bind (hlook _) fun r => ?_
    split
    · exact Proc.triple_pure fun _ hw => hw
    · exact Proc.triple_fail fun _ hw => hw
    · refine Proc.triple_bind (ih fun w q c hw hq => h w q c hw (hq.trans hup)) fun _ => ?_
      refine Proc.triple_bind hmade fun r => ?_
      · split
        · exact Proc.triple_pure fun _ hw => hw
        · refine Proc.triple_bind (hlook _) fun r => ?_
          split
          · exact Proc.triple_pure fun _ hw => hw
          · exact Proc.triple_fail fun _ hw => hw

theorem keeps_mkdirAll {p : Loc} {mode : Nat} (hidle : ∀ w, P w → P (w.did none))
    (h : ∀ w q c, P w → q <+: p → q ≠ [] → mkdir w.disk q ⟨mode, 0, 0⟩ = .ok c →
      P (w.did c.deed)) : Proc.Keeps e P (mkdirAll p mode) :=
  keeps_mkdirAllRev hidle fun w q c hw hq => h w q c hw (by rwa [List.reverse_reverse] at hq)

/-! ## Lawful changes -/

/-- Every change of a list had `A`, on the disk of its moment. -/
def LawfulFrom (A : Disk → Deed → Prop) (d : Disk) : List Deed → Prop
  | [] => True
  | δ :: deeds => LawfulFrom A d deeds ∧ A (replay d deeds) δ

/-- Every change that the agent made so far had `A`. -/
def Lawful (A : Disk → Deed → Prop) (w : World) : Prop := LawfulFrom A w.first w.deeds

/-- A property of the disk at every moment so far. -/
def Always (F : Disk → Prop) (w : World) : Prop := F w.first ∧ Lawful (fun d δ => F (δ.apply d)) w

variable {A B : Disk → Deed → Prop}

theorem lawful_start (d : Disk) : Lawful A (World.start d) := trivial

theorem Lawful.did (h : Lawful A w) {δ : Deed} (hδ : A w.disk δ) : Lawful A (w.did (some δ)) :=
  ⟨h, hδ⟩

theorem Lawful.mono (hAB : ∀ d δ, A d δ → B d δ) (h : Lawful A w) : Lawful B w := by
  obtain ⟨d, deeds, _, _⟩ := w
  unfold Lawful at h ⊢
  simp only at h ⊢
  induction deeds with
  | nil => trivial
  | cons δ deeds ih => exact ⟨ih h.1, hAB _ _ h.2⟩

theorem Always.mono {F G : Disk → Prop} (hFG : ∀ d, F d → G d) (h : Always F w) : Always G w :=
  ⟨hFG _ h.1, h.2.mono fun _ _ => hFG _⟩

/-- Changes that are lawful as long as `F` holds, when they keep it. -/
theorem Lawful.given {F : Disk → Prop} (h : Lawful A w) (hA : ∀ d δ, A d δ → F d → B d δ)
    (hB : ∀ d δ, B d δ → F d → F (δ.apply d)) (hF : F w.first) : Lawful B w ∧ F w.disk := by
  obtain ⟨d, deeds, _, _⟩ := w
  unfold Lawful at h ⊢
  unfold World.disk
  simp only at h hF ⊢
  induction deeds with
  | nil => exact ⟨trivial, hF⟩
  | cons δ deeds ih =>
    obtain ⟨hl, hd⟩ := ih h.1
    have hδ := hA _ _ h.2 hd
    exact ⟨⟨hl, hδ⟩, hB _ _ hδ hd⟩

end icsd_panel.machine

-- The calls of Go's `os` that the agent makes, each as a function of the
-- disk, and what a call that ended well did.
import IcsdPanel.Walks

namespace icsd_panel.disk

open paths

/-- A change of the disk. -/
inductive Deed
  | put (l : Loc) (n : Node)
  | remove (l : Loc)
  | clear (l : Loc) (stuck : Option Loc)
  | move (s t : Loc)

/-- The disk after a change. -/
def Deed.apply (d : Disk) : Deed → Disk
  | .put l n => d.put l n
  | .remove l => d.remove l
  | .clear l stuck => d.removeBelow l stuck
  | .move s t => d.move s t

/-- The places that a change creates, changes or removes. -/
def Deed.places (d : Disk) : Deed → List Loc
  | .put l _ => [l]
  | .remove l => [l]
  | .clear l stuck => d.taken l stuck
  | .move s t => d.below s ++ (d.move s t).below t

/-- What a call that ended well did: its change, if any, and its value. -/
structure Change (α : Type) where
  deed : Option Deed
  value : α

/-- `os.Stat`. -/
def stat (d : Disk) (p : Loc) : Except Errno (Loc × Node) :=
  match follow d p with
  | .error e => .error e
  | .ok l =>
    match d.look l with
    | some n => .ok (l, n)
    | none => .error .noent

/-- `os.Lstat`. -/
def lstat (d : Disk) (p : Loc) : Except Errno (Loc × Node) :=
  match if p = [] then .ok [] else entryAt d p with
  | .error e => .error e
  | .ok l =>
    match d.look l with
    | some n => .ok (l, n)
    | none => .error .noent

/-- `os.Open` of a regular file. -/
def openFile (d : Disk) (p : Loc) : Except Errno (Loc × FileData) :=
  match stat d p with
  | .error e => .error e
  | .ok (l, .file f) => .ok (l, f)
  | .ok (_, .dir _) => .error .isdir
  | .ok _ => .error .inval

/-- `os.OpenFile(p, O_WRONLY|O_NOFOLLOW, 0)` of a regular file. -/
def openNoFollow (d : Disk) (p : Loc) : Except Errno (Loc × FileData) :=
  match entryAt d p with
  | .error e => .error e
  | .ok l =>
    match d.get l with
    | none => .error .noent
    | some (.file f) => .ok (l, f)
    | some (.dir _) => .error .isdir
    | some (.link _) => .error .loop
    | some (.other _ _) => .error .inval

/-- `os.OpenFile(p, O_CREATE|O_EXCL|O_WRONLY, mode)`. -/
def createExcl (d : Disk) (p : Loc) (f : FileData) : Except Errno (Change Loc) :=
  match entryAt d p with
  | .error e => .error e
  | .ok l =>
    match d.get l with
    | some _ => .error .exist
    | none => .ok ⟨some (.put l (.file f)), l⟩

/-- The place that `os.OpenFile(p, O_CREATE|O_TRUNC|O_WRONLY, mode)` opens:
the last name may be a link, also to a place that is not there yet. -/
def createPlace (d : Disk) (p : Loc) : Except Errno Loc :=
  match entryAt d p with
  | .error e => .error e
  | .ok l =>
    match d.get l with
    | some (.link _) => walk d true 40 [] p
    | _ => .ok l

/-- `os.OpenFile(p, O_CREATE|O_TRUNC|O_WRONLY, mode)`: an old file keeps its
owner and mode. -/
def createTrunc (d : Disk) (p : Loc) (f : FileData) : Except Errno (Change Loc) :=
  match createPlace d p with
  | .error e => .error e
  | .ok l =>
    match d.get l with
    | none => .ok ⟨some (.put l (.file f)), l⟩
    | some (.file old) => .ok ⟨some (.put l (.file { f with attr := old.attr })), l⟩
    | some (.dir _) => .error .isdir
    | some _ => .error .inval

/-- Bytes with `data` written over them from `off` on; a gap is zeros. -/
def overlay (old : Bytes) (off : Nat) (data : Bytes) : Bytes :=
  if data = [] then old
  else old.take off ++ List.replicate (off - old.length) 0 ++ data ++ old.drop (off + data.length)

theorem overlay_end (b data : Bytes) : overlay b b.length data = b ++ data := by
  unfold overlay
  split
  · rename_i h
    rw [h, List.append_nil]
  · simp

/-- The open file at `l`, changed by `g`. -/
def updateFile (d : Disk) (l : Loc) (g : FileData → FileData) : Except Errno (Change Unit) :=
  match d.get l with
  | some (.file f) => .ok ⟨some (.put l (.file (g f))), ()⟩
  | _ => .error .inval

/-- `os.Mkdir`. -/
def mkdir (d : Disk) (p : Loc) (a : Attr) : Except Errno (Change Unit) :=
  match entryAt d p with
  | .error e => .error e
  | .ok l =>
    match d.get l with
    | some _ => .error .exist
    | none => .ok ⟨some (.put l (.dir a)), ()⟩

/-- `os.Remove`: a file, a link, or a directory with no entry. -/
def removeEntry (d : Disk) (p : Loc) : Except Errno (Change Unit) :=
  match entryAt d p with
  | .error e => .error e
  | .ok l =>
    match d.get l with
    | none => .error .noent
    | some _ => if d.names l = [] then .ok ⟨some (.remove l), ()⟩ else .error .notempty

/-- `os.Rename`. It never takes the place of a directory, and never moves a
directory into itself or over a file. -/
def rename (d : Disk) (src dst : Loc) : Except Errno (Change Unit) :=
  match entryAt d src, entryAt d dst with
  | .error e, _ => .error e
  | _, .error e => .error e
  | .ok s, .ok t =>
    match d.get s with
    | none => .error .noent
    | some n =>
      if d.IsDirAt t then .error .exist
      else if s = t then .ok ⟨none, ()⟩
      else if n.isDir ∧ (d.get t).isSome then .error .notdir
      else if s <+: t then .error .inval
      else .ok ⟨some (.move s t), ()⟩

/-- `os.Chmod`, or a change of owner, of what is at `l`. -/
def changeAttr (d : Disk) (l : Loc) (g : Attr → Attr) : Except Errno (Change Unit) :=
  match d.look l with
  | none => .error .noent
  | some (.file f) => .ok ⟨some (.put l (.file { f with attr := g f.attr })), ()⟩
  | some (.dir a) => .ok ⟨some (.put l (.dir (g a))), ()⟩
  | some (.other socket a) => .ok ⟨some (.put l (.other socket (g a))), ()⟩
  | some (.link t) => .ok ⟨some (.put l (.link t)), ()⟩

/-- `os.Chmod`: of what the path leads to. -/
def chmod (d : Disk) (p : Loc) (mode : Nat) : Except Errno (Change Unit) :=
  match stat d p with
  | .error e => .error e
  | .ok (l, _) => changeAttr d l fun a => { a with mode }

/-- `os.Lchown`: of the entry itself. -/
def lchown (d : Disk) (p : Loc) (uid gid : Nat) : Except Errno (Change Unit) :=
  match lstat d p with
  | .error e => .error e
  | .ok (l, _) => changeAttr d l fun a => { a with uid, gid }

/-- `os.RemoveAll`: the entry and all below it. No link is followed, and a
missing entry is no failure. When the place `stuck` cannot be removed, the
rest goes. -/
def removeTree (d : Disk) (p : Loc) (stuck : Option Loc) : Except Errno (Change Unit) :=
  match entryAt d p with
  | .error .noent => .ok ⟨none, ()⟩
  | .error e => .error e
  | .ok l => .ok ⟨some (.clear l stuck), ()⟩

/-! ## What a call that ended well did -/

variable {d : Disk} {p l : Loc}

theorem stat_ok {n : Node} (h : stat d p = .ok (l, n)) : follow d p = .ok l ∧ d.look l = some n := by
  unfold stat at h
  split at h
  · cases h
  · split at h
    · cases h; exact ⟨‹_›, ‹_›⟩
    · cases h

theorem stat_run {n : Node} (hl : follow d p = .ok l) (hn : d.look l = some n) : stat d p = .ok (l, n) := by
  unfold stat
  rw [hl]
  simp only [hn]

/-- A file under its own name. -/
theorem stat_installed {f : FileData} (hp : Proper l) (h : d.get l = some (.file f)) :
    stat d l = .ok (l, .file f) := by
  refine stat_run (walk_plain 40 hp (Or.inr ⟨_, h, rfl⟩)) ?_
  rw [Disk.look, if_neg (Disk.get_ne_nil h), h]

theorem openFile_ok {f : FileData} (h : openFile d p = .ok (l, f)) :
    follow d p = .ok l ∧ d.get l = some (.file f) := by
  unfold openFile at h
  split at h <;> cases h
  rename_i hs
  obtain ⟨h1, h2⟩ := stat_ok hs
  refine ⟨h1, ?_⟩
  unfold Disk.look at h2
  split at h2
  · cases h2
  · exact h2

theorem openNoFollow_ok {f : FileData} (h : openNoFollow d p = .ok (l, f)) :
    entryAt d p = .ok l ∧ d.get l = some (.file f) := by
  unfold openNoFollow at h
  split at h
  · cases h
  · split at h <;> cases h
    exact ⟨‹_›, ‹_›⟩

theorem fits_new {n : Node} (he : entryAt d p = .ok l) (hn : d.get l = none) : d.Fits l n := by
  obtain ⟨hne, hp, hdir, _⟩ := entryAt_ok he
  refine ⟨hne, hp, hdir, Or.inr (Disk.names_nil ?_)⟩
  rintro (h0 | ⟨a, ha⟩)
  · exact hne h0
  · rw [hn] at ha; cases ha

theorem fits_over {m n : Node} (hm : d.get l = some m) (h : m.isDir = true → n.isDir = true) :
    d.Fits l n := by
  have hne := Disk.get_ne_nil hm
  refine ⟨hne, Disk.get_proper hm, Disk.isDirAt_dropLast (by rw [hm]; rfl), ?_⟩
  cases hd : m.isDir with
  | true => exact Or.inl (h hd)
  | false =>
    refine Or.inr (Disk.names_nil ?_)
    rintro (h0 | ⟨a, ha⟩)
    · exact hne h0
    · rw [hm] at ha; cases ha; simp [Node.isDir] at hd

theorem createExcl_ok {f : FileData} {c : Change Loc} (h : createExcl d p f = .ok c) :
    entryAt d p = .ok c.value ∧ d.get c.value = none ∧
      c.deed = some (.put c.value (.file f)) := by
  unfold createExcl at h
  split at h
  · cases h
  · split at h <;> cases h
    exact ⟨‹_›, ‹_›, rfl⟩

theorem mkdir_ok {a : Attr} {c : Change Unit} (h : mkdir d p a = .ok c) :
    ∃ l, entryAt d p = .ok l ∧ d.get l = none ∧ c.deed = some (.put l (.dir a)) := by
  unfold mkdir at h
  split at h
  · cases h
  · split at h <;> cases h
    exact ⟨_, ‹_›, ‹_›, rfl⟩

theorem createTrunc_ok {f : FileData} {c : Change Loc} (h : createTrunc d p f = .ok c) :
    createPlace d p = .ok c.value ∧
      ((d.get c.value = none ∧ c.deed = some (.put c.value (.file f))) ∨
        ∃ old, d.get c.value = some (.file old) ∧
          c.deed = some (.put c.value (.file { f with attr := old.attr }))) := by
  unfold createTrunc at h
  split at h
  · cases h
  · split at h <;> cases h
    · exact ⟨‹_›, Or.inl ⟨‹_›, rfl⟩⟩
    · exact ⟨‹_›, Or.inr ⟨_, ‹_›, rfl⟩⟩

theorem updateFile_ok {g : FileData → FileData} {c : Change Unit} (h : updateFile d l g = .ok c) :
    ∃ f, d.get l = some (.file f) ∧ c.deed = some (.put l (.file (g f))) := by
  unfold updateFile at h
  split at h <;> cases h
  exact ⟨_, ‹_›, rfl⟩

theorem removeEntry_ok {c : Change Unit} (h : removeEntry d p = .ok c) :
    ∃ l n, entryAt d p = .ok l ∧ d.get l = some n ∧ d.names l = [] ∧
      c.deed = some (.remove l) := by
  unfold removeEntry at h
  split at h
  · cases h
  · split at h
    · cases h
    · split at h <;> cases h
      exact ⟨_, _, ‹_›, ‹_›, ‹_›, rfl⟩

theorem rename_ok {src dst : Loc} {c : Change Unit} (h : rename d src dst = .ok c) :
    ∃ s t n, entryAt d src = .ok s ∧ entryAt d dst = .ok t ∧ d.get s = some n ∧ ¬ d.IsDirAt t ∧
      ((s = t ∧ c.deed = none) ∨
       (¬ s <+: t ∧ (n.isDir = true → d.get t = none) ∧ c.deed = some (.move s t))) := by
  unfold rename at h
  split at h
  · cases h
  · cases h
  · split at h
    · cases h
    · rename_i s t hs ht _ n hn
      refine ⟨s, t, n, hs, ht, hn, ?_⟩
      split at h
      · cases h
      · rename_i hdir
        refine ⟨hdir, ?_⟩
        split at h
        · cases h; exact Or.inl ⟨‹_›, rfl⟩
        · split at h
          · cases h
          · rename_i hover
            split at h <;> cases h
            refine Or.inr ⟨‹_›, fun hd => ?_, rfl⟩
            by_contra hne
            exact hover ⟨hd, Option.isSome_iff_ne_none.mpr hne⟩

theorem removeTree_ok {stuck : Option Loc} {c : Change Unit} (h : removeTree d p stuck = .ok c) :
    c.deed = none ∨ ∃ l, entryAt d p = .ok l ∧ c.deed = some (.clear l stuck) := by
  unfold removeTree at h
  split at h <;> cases h
  · exact Or.inl rfl
  · exact Or.inr ⟨_, ‹_›, rfl⟩

/-- A node with another mode and owner: its content, or its target, stays. -/
inductive SameButAttr : Node → Node → Prop
  | file (f : FileData) (a : Attr) : SameButAttr (.file f) (.file { f with attr := a })
  | dir (a b : Attr) : SameButAttr (.dir a) (.dir b)
  | link (t : Target) : SameButAttr (.link t) (.link t)
  | other (socket : Bool) (a b : Attr) : SameButAttr (.other socket a) (.other socket b)

theorem changeAttr_ok {g : Attr → Attr} {c : Change Unit} (h : changeAttr d l g = .ok c) :
    ∃ n m, d.look l = some n ∧ c.deed = some (.put l m) ∧ SameButAttr n m := by
  unfold changeAttr at h
  split at h <;> cases h
  · exact ⟨_, _, ‹_›, rfl, .file _ _⟩
  · exact ⟨_, _, ‹_›, rfl, .dir _ _⟩
  · exact ⟨_, _, ‹_›, rfl, .other _ _ _⟩
  · exact ⟨_, _, ‹_›, rfl, .link _⟩

end icsd_panel.disk

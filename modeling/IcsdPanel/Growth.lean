-- A disk that only grows: what was a directory or a link stays one. A path
-- that led somewhere leads there still, and so do the roots of a policy.
import IcsdPanel.Policy

namespace icsd_panel.disk

open paths machine policy

/-- What a walk sees of a node. -/
inductive Shape
  | dir
  | link (t : Target)
  | leaf
deriving DecidableEq, Repr

def Node.shape : Node → Shape
  | .dir _ => .dir
  | .link t => .link t
  | .file _ => .leaf
  | .other _ _ => .leaf

/-- `d'` has all that `d` has: nothing went, and no directory or link became
something else. -/
def Grows (d d' : Disk) : Prop :=
  ∀ q n, d.get q = some n → ∃ n', d'.get q = some n' ∧ n'.shape = n.shape

variable {d d' : Disk} {l q r : Loc} {n : Node}

theorem Grows.refl (d : Disk) : Grows d d := fun _ n h => ⟨n, h, rfl⟩

theorem Grows.trans {d'' : Disk} (h1 : Grows d d') (h2 : Grows d' d'') : Grows d d'' := by
  intro q n hq
  obtain ⟨n1, hn1, hs1⟩ := h1 q n hq
  obtain ⟨n2, hn2, hs2⟩ := h2 q n1 hn1
  exact ⟨n2, hn2, hs2.trans hs1⟩

theorem grows_put (h : ∀ m, d.get l = some m → n.shape = m.shape) : Grows d (d.put l n) := by
  intro q m hq
  by_cases hql : q = l
  · subst hql
    by_cases hf : d.Fits q n
    · exact ⟨n, Disk.get_put_self hf, h m hq⟩
    · exact ⟨m, by unfold Disk.put; rw [dif_neg hf]; exact hq, rfl⟩
  · exact ⟨m, by rw [Disk.get_put_ne hql]; exact hq, rfl⟩

theorem shape_eq_dir {n : Node} (h : n.shape = .dir) : ∃ a, n = .dir a := by
  cases n <;> simp [Node.shape] at h
  exact ⟨_, rfl⟩

theorem shape_eq_link {n : Node} {t : Target} (h : n.shape = .link t) : n = .link t := by
  cases n <;> simp [Node.shape] at h
  rw [h]

theorem shape_isLink {n m : Node} (h : n.shape = m.shape) : n.isLink = m.isLink := by
  cases n <;> cases m <;> simp_all [Node.shape, Node.isLink]

theorem Grows.isDirAt (hg : Grows d d') (h : d.IsDirAt l) : d'.IsDirAt l := by
  rcases h with h | ⟨a, ha⟩
  · exact Or.inl h
  · obtain ⟨n, hn, hs⟩ := hg l _ ha
    obtain ⟨b, rfl⟩ := shape_eq_dir hs
    exact Or.inr ⟨b, hn⟩

theorem Grows.plain (hg : Grows d d') (h : Plain d l) : Plain d' l := by
  rcases h with h | ⟨n, hn, hlink⟩
  · exact Or.inl h
  · obtain ⟨n', hn', hs⟩ := hg l n hn
    exact Or.inr ⟨n', hn', (shape_isLink hs).trans hlink⟩

/-! ## A walk on a grown disk -/

theorem walkParts_grow {on on' : Loc → List Name → Except Errno Loc} {cs : List Name}
    (hg : Grows d d') (hon : ∀ l cs, on l cs = .ok r → on' l cs = .ok r)
    (h : walkParts d false on l cs = .ok r) : walkParts d' false on' l cs = .ok r := by
  induction cs generalizing l with
  | nil => exact h
  | cons c cs ih =>
    unfold walkParts at h ⊢
    split at h
    · rw [if_pos ‹_›]; exact ih h
    · rw [if_neg ‹_›]
      split at h
      · rw [if_pos ‹_›]; exact ih h
      · rw [if_neg ‹_›]
        cases hn : d.get (l ++ [c]) with
        | none => simp [hn] at h
        | some n =>
          obtain ⟨n', hn', hs⟩ := hg _ n hn
          rw [hn] at h
          rw [hn']
          cases n with
          | dir a =>
            obtain ⟨b, rfl⟩ := shape_eq_dir hs
            exact ih h
          | link t =>
            rw [shape_eq_link hs]
            exact hon _ _ h
          | file f =>
            cases n' <;> simp [Node.shape] at hs
            · exact h
            · exact h
          | other sk a =>
            cases n' <;> simp [Node.shape] at hs
            · exact h
            · exact h

/-- A walk that ended well ends at the same place on a grown disk. -/
theorem walk_grow {k : Nat} {cs : List Name} (hg : Grows d d') (h : walk d false k l cs = .ok r) :
    walk d' false k l cs = .ok r := by
  induction k generalizing l cs with
  | zero => exact walkParts_grow hg (fun _ _ h => by cases h) h
  | succ k ih => exact walkParts_grow hg (fun _ _ h => ih h) h

theorem walkParts_append {on : Loc → List Name → Except Errno Loc} {k : Nat} {cs : List Name}
    (hk : ∀ l cs, walk d false k l cs = walkParts d false on l cs)
    (hon : ∀ l cs, d.IsDirAt r → on l cs = .ok r →
      ∃ j, ∀ ds, on l (cs ++ ds) = walk d false j r ds)
    (hr : d.IsDirAt r) (h : walkParts d false on l cs = .ok r) :
    ∃ j, ∀ ds, walkParts d false on l (cs ++ ds) = walk d false j r ds := by
  induction cs generalizing l with
  | nil =>
    simp only [walkParts, Except.ok.injEq] at h
    subst h
    exact ⟨k, fun ds => (hk _ _).symm⟩
  | cons c cs ih =>
    simp only [List.cons_append]
    unfold walkParts at h ⊢
    split at h
    · simp only [if_pos ‹c = "" ∨ c = "."›]; exact ih h
    · simp only [if_neg ‹¬ (c = "" ∨ c = ".")›]
      split at h
      · simp only [if_pos ‹c = ".."›]; exact ih h
      · simp only [if_neg ‹¬ c = ".."›]
        rcases hn : d.get (l ++ [c]) with _ | (f | a | t | ⟨sk, a⟩) <;> rw [hn] at h
        · simp at h
        · simp only at h
          split at h
          · -- The walk ended at a file: it is no directory.
            cases h
            rcases hr with h0 | ⟨b, hb⟩
            · simp at h0
            · rw [hn] at hb; cases hb
          · cases h
        · exact ih h
        · obtain ⟨j, hj⟩ := hon _ _ hr h
          exact ⟨j, fun ds => by simp only [← List.append_assoc]; exact hj ds⟩
        · simp only at h
          split at h
          · cases h
            rcases hr with h0 | ⟨b, hb⟩
            · simp at h0
            · rw [hn] at hb; cases hb
          · cases h

/-- A walk that ended in a directory goes on from there. -/
theorem walk_append {k : Nat} {cs : List Name} (hr : d.IsDirAt r)
    (h : walk d false k l cs = .ok r) :
    ∃ j, ∀ ds, walk d false k l (cs ++ ds) = walk d false j r ds := by
  induction k generalizing l cs with
  | zero =>
    exact walkParts_append (k := 0) (fun _ _ => rfl) (fun _ _ _ h => by cases h) hr h
  | succ k ih =>
    exact walkParts_append (k := k + 1) (fun _ _ => rfl) (fun _ _ _ h => ih h) hr h

/-- A walk along directories to a missing name. -/
theorem walk_missing (j : Nat) {ds : List Name} {x : Name} (hp : Proper (ds ++ [x]))
    (hdir : d.IsDirAt (l ++ ds)) (hx : d.get (l ++ ds ++ [x]) = none) :
    walk d false j l (ds ++ [x]) = .error .noent := by
  obtain ⟨hds, hx1⟩ := proper_append.mp hp
  obtain ⟨h1, h2, _⟩ := hx1 x (by simp)
  rw [walk_dirs j hds hdir]
  rw [List.append_assoc] at hx
  cases j <;> simp [walk, walkParts, h1, h2, hx]

/-- A walk along directories to a name that is there, and no link. -/
theorem walk_there (j : Nat) {ds : List Name} {x : Name} (hp : Proper (ds ++ [x]))
    (hdir : d.IsDirAt (l ++ ds)) (hx : Plain d (l ++ ds ++ [x])) :
    walk d false j l (ds ++ [x]) = .ok (l ++ ds ++ [x]) := by
  obtain ⟨hds, hx1⟩ := proper_append.mp hp
  obtain ⟨h1, h2, _⟩ := hx1 x (by simp)
  rw [walk_dirs j hds hdir]
  rcases hx with h0 | ⟨n, hn, hlink⟩
  · simp at h0
  · rw [List.append_assoc] at hn
    cases n with
    | link t => simp [Node.isLink] at hlink
    | _ => cases j <;> simp [walk, walkParts, h1, h2, hn]

theorem walkParts_more {b : Bool} {on on' : Loc → List Name → Except Errno Loc} {cs : List Name}
    (hon : ∀ l cs, on l cs = .ok r → on' l cs = .ok r) (h : walkParts d b on l cs = .ok r) :
    walkParts d b on' l cs = .ok r := by
  induction cs generalizing l with
  | nil => exact h
  | cons c cs ih =>
    unfold walkParts at h ⊢
    split at h
    · rw [if_pos ‹_›]; exact ih h
    · rw [if_neg ‹_›]
      split at h
      · rw [if_pos ‹_›]; exact ih h
      · rw [if_neg ‹_›]
        split at h
        · exact h
        · exact hon _ _ h
        · exact ih h
        · exact h

/-- A walk that ended well ends so with more links allowed too. -/
theorem walk_more {b : Bool} {k j : Nat} {cs : List Name} (hkj : k ≤ j)
    (h : walk d b k l cs = .ok r) : walk d b j l cs = .ok r := by
  induction k generalizing j l cs with
  | zero => cases j <;> exact walkParts_more (fun _ _ h => by cases h) h
  | succ k ih =>
    cases j with
    | zero => omega
    | succ j => exact walkParts_more (fun _ _ h => ih (by omega) h) h

theorem follow_eval (h : follow d q = .ok r) : evalSymlinks d q = .ok r :=
  walk_more (by decide) h

theorem dirAt_eval (h : dirAt d q = .ok r) : evalSymlinks d q = .ok r ∧ d.IsDirAt r := by
  unfold dirAt at h
  split at h
  · split at h
    · cases h
      exact ⟨follow_eval ‹_›, ‹_›⟩
    · cases h
  · cases h

/-! ## What a path resolves to, on a grown disk -/

/-- A place that is there and no link, or that can be created. -/
def Standing (d : Disk) (l : Loc) : Prop :=
  Plain d l ∨ (l ≠ [] ∧ d.get l = none ∧ d.IsDirAt l.dropLast)

theorem standing_dropLast (h : Standing d l) : d.IsDirAt l.dropLast := by
  rcases h with (rfl | ⟨n, hn, _⟩) | ⟨_, _, h⟩
  · exact Or.inl rfl
  · exact Disk.isDirAt_dropLast (by rw [hn]; rfl)
  · exact h

/-- What `resolve` found: the longest part of the path that leads anywhere,
and the rest. -/
theorem resolveRev_parts {rev rest : List Name} (h : resolveRev d rev rest = .ok q) :
    (∃ cur xs l, rev.reverse = cur ++ xs ∧ evalSymlinks d cur = .ok l ∧ q = l ++ xs ++ rest ∧
      ∀ x ys, xs = x :: ys → evalSymlinks d (cur ++ [x]) = .error .noent) := by
  induction rev generalizing rest with
  | nil =>
    simp only [resolveRev, Except.ok.injEq] at h
    exact ⟨[], [], [], rfl, rfl, by simp [h], by simp⟩
  | cons n up ih =>
    unfold resolveRev at h
    split at h
    · rename_i l hl
      cases h
      exact ⟨up.reverse ++ [n], [], l, by simp, hl, by simp, by simp⟩
    · rename_i hmiss
      obtain ⟨cur, xs, l, hcur, hl, hq, hnext⟩ := ih h
      refine ⟨cur, xs ++ [n], l, by simp [hcur], hl, by simp [hq], ?_⟩
      intro x ys hxs
      cases xs with
      | nil =>
        simp only [List.nil_append, List.cons.injEq] at hxs
        rw [List.append_nil] at hcur
        rw [← hxs.1, ← hcur]
        exact hmiss
      | cons x' xs =>
        simp only [List.cons_append, List.cons.injEq] at hxs
        exact hnext x xs (by rw [hxs.1])
    · cases h

theorem resolve_parts {p : Loc} (h : resolve d p = .ok q) :
    ∃ cur xs l, p = cur ++ xs ∧ evalSymlinks d cur = .ok l ∧ q = l ++ xs ∧
      ∀ x ys, xs = x :: ys → evalSymlinks d (cur ++ [x]) = .error .noent := by
  unfold resolve at h
  cases hr : resolveRev d p.reverse [] with
  | error e => rw [hr] at h; cases h
  | ok l =>
    rw [hr] at h
    cases h
    obtain ⟨cur, xs, l, h1, h2, h3, h4⟩ := resolveRev_parts hr
    exact ⟨cur, xs, l, by simpa using h1, h2, by simpa using h3, h4⟩

theorem resolve_eval {p : Loc} (h : evalSymlinks d p = .ok q) : resolve d p = .ok q := by
  unfold resolve
  rcases List.eq_nil_or_concat p with rfl | ⟨cs, x, rfl⟩
  · cases h; rfl
  · rw [List.concat_eq_append] at h ⊢
    simp only [List.reverse_append, List.reverse_cons, List.reverse_nil, List.nil_append,
      List.cons_append, resolveRev, List.reverse_reverse, h, List.append_nil]
    rfl

theorem resolve_missing {cs : Loc} {x : Name} (h : evalSymlinks d (cs ++ [x]) = .error .noent)
    (hl : evalSymlinks d cs = .ok l) : resolve d (cs ++ [x]) = .ok (l ++ [x]) := by
  unfold resolve
  simp only [List.reverse_append, List.reverse_cons, List.reverse_nil, List.nil_append,
    List.cons_append, resolveRev, List.reverse_reverse, h]
  rcases List.eq_nil_or_concat cs with rfl | ⟨ds, y, rfl⟩
  · cases hl; rfl
  · rw [List.concat_eq_append] at hl ⊢
    simp only [List.reverse_append, List.reverse_cons, List.reverse_nil, List.nil_append,
      List.cons_append, resolveRev, List.reverse_reverse, hl]
    rfl

/-- What a path resolves to stays, as the disk grows, as long as it is there
or could be created. -/
theorem resolve_grow {p : Loc} (hp : Proper p) (hg : Grows d d') (h : resolve d p = .ok q)
    (hs : Standing d' q) : resolve d' p = .ok q := by
  obtain ⟨cur, xs, l, rfl, hl, rfl, hnext⟩ := resolve_parts h
  obtain ⟨hpc, hpx⟩ := proper_append.mp hp
  have hl' : evalSymlinks d' cur = .ok l := walk_grow hg hl
  rcases List.eq_nil_or_concat xs with rfl | ⟨ys, y, rfl⟩
  · simpa using resolve_eval hl'
  · rw [List.concat_eq_append] at hpx hnext hs ⊢
    obtain ⟨hpys, _⟩ := proper_append.mp hpx
    have hdir : d'.IsDirAt (l ++ ys) := by
      have := standing_dropLast hs
      rwa [← List.append_assoc, List.dropLast_concat] at this
    obtain ⟨j, hj⟩ := walk_append (hdir.above (List.prefix_append l ys)) hl'
    have hys : evalSymlinks d' (cur ++ ys) = .ok (l ++ ys) := by
      unfold evalSymlinks
      have : walk d' false j l (ys ++ []) = walk d' false j (l ++ ys) [] := walk_dirs j hpys hdir
      rw [hj, ← List.append_nil ys, this, List.append_nil]
      cases j <;> rfl
    rw [← List.append_assoc, ← List.append_assoc]
    rw [← List.append_assoc] at hs
    rcases hs with hplain | ⟨_, hnone, _⟩
    · refine resolve_eval ?_
      unfold evalSymlinks
      rw [List.append_assoc, hj]
      exact walk_there j hpx hdir hplain
    · refine resolve_missing ?_ hys
      unfold evalSymlinks
      rw [List.append_assoc, hj]
      exact walk_missing j hpx hdir hnone

theorem inRoot_grow {real root : Loc} (hp : Proper root) (hg : Grows d d')
    (h : inRoot d real root = true) (hs : Standing d' real) : inRoot d' real root = true := by
  unfold inRoot at h ⊢
  cases hr : resolve d root with
  | error e => rw [hr] at h; cases h
  | ok rr =>
    rw [hr] at h
    have hpre := (within_iff _ _).mp h
    have hrr : Standing d' rr := by
      by_cases heq : rr = real
      · rw [heq]; exact hs
      · refine Or.inl (plain_of_isDirAt ((standing_dropLast hs).above ?_))
        rcases List.eq_nil_or_concat real with rfl | ⟨cs, x, rfl⟩
        · exact absurd (List.prefix_nil.mp hpre) heq
        · rw [List.concat_eq_append] at hpre heq ⊢
          rw [List.dropLast_concat]
          exact (prefix_concat_iff.mp hpre).resolve_left heq
    rw [resolve_grow hp hg hr hrr]
    exact h

theorem inBackupDir_eq {pol : Policy} (real : Loc) (h : pol.backupDir.abs = true) :
    inBackupDir pol d real = inRoot d real pol.backupDir.parts := by
  unfold inBackupDir inRoot resolveBackup
  simp [h]

/-- What is in a writable root stays in one, as the disk grows. -/
theorem inWritable_grow {pol : Policy} {real : Loc} (hg : Grows d d')
    (h : inWritable pol d real = true) (hs : Standing d' real) :
    inWritable pol d' real = true := by
  unfold inWritable at h ⊢
  rw [Bool.or_eq_true] at h ⊢
  rcases h with h | h
  · left
    obtain ⟨root, hroot, hin⟩ := List.any_eq_true.mp h
    have hp : Proper root := pol.proper root (List.mem_append_left _ hroot)
    exact List.any_eq_true.mpr ⟨root, hroot, inRoot_grow hp hg hin hs⟩
  · right
    by_cases habs : pol.backupDir.abs = true
    · rw [inBackupDir_eq real habs] at h ⊢
      exact inRoot_grow (pol.backup_proper habs) hg h hs
    · simp [inBackupDir, resolveBackup, habs] at h

theorem inWritable_below {pol : Policy} {real : Loc} (h : inWritable pol d real = true)
    (hpre : real <+: q) : inWritable pol d q = true := by
  have hin : ∀ root, inRoot d real root = true → inRoot d q root = true := by
    intro root hr
    unfold inRoot at hr ⊢
    split at hr
    · exact (within_iff _ _).mpr (((within_iff _ _).mp hr).trans hpre)
    · cases hr
  unfold inWritable at h ⊢
  rw [Bool.or_eq_true] at h ⊢
  rcases h with h | h
  · left
    obtain ⟨root, hroot, hr⟩ := List.any_eq_true.mp h
    exact List.any_eq_true.mpr ⟨root, hroot, hin root hr⟩
  · right
    by_cases habs : pol.backupDir.abs = true
    · rw [inBackupDir_eq _ habs] at h ⊢
      exact hin _ h
    · simp [inBackupDir, resolveBackup, habs] at h

/-! ## Disks with the same places -/

/-- Two disks on which every walk is the same. -/
def Alike (d d' : Disk) : Prop := ∀ q, (d.get q).map Node.shape = (d'.get q).map Node.shape

theorem alike_of_grows (h1 : Grows d d') (h2 : Grows d' d) : Alike d d' := by
  intro q
  cases hq : d.get q with
  | some n =>
    obtain ⟨n', hn', hs⟩ := h1 q n hq
    rw [hn']
    simp [hs]
  | none =>
    cases hq' : d'.get q with
    | none => rfl
    | some n' =>
      obtain ⟨n, hn, _⟩ := h2 q n' hq'
      rw [hq] at hn
      cases hn

theorem walkParts_alike {b : Bool} {on on' : Loc → List Name → Except Errno Loc} {cs : List Name}
    (h : Alike d d') (hon : ∀ l cs, on l cs = on' l cs) :
    walkParts d b on l cs = walkParts d' b on' l cs := by
  induction cs generalizing l with
  | nil => rfl
  | cons c cs ih =>
    have hc := h (l ++ [c])
    unfold walkParts
    rw [ih, ih, ih]
    cases hn : d.get (l ++ [c]) with
    | none => cases hn' : d'.get (l ++ [c]) <;> simp [hn, hn'] at hc ⊢
    | some n =>
      cases hn' : d'.get (l ++ [c]) with
      | none => simp [hn, hn'] at hc
      | some n' =>
        rw [hn, hn'] at hc
        cases n <;> cases n' <;> simp [Node.shape] at hc ⊢
        rw [hc, hon]

theorem walk_alike {b : Bool} {k : Nat} {cs : List Name} (h : Alike d d') :
    walk d b k l cs = walk d' b k l cs := by
  induction k generalizing l cs with
  | zero => exact walkParts_alike h fun _ _ => rfl
  | succ k ih => exact walkParts_alike h fun _ _ => ih

theorem resolve_alike {p : Loc} (h : Alike d d') : resolve d p = resolve d' p := by
  have hrev : ∀ rev rest, resolveRev d rev rest = resolveRev d' rev rest := by
    intro rev
    induction rev with
    | nil => intro rest; rfl
    | cons n up ih =>
      intro rest
      unfold resolveRev evalSymlinks
      rw [walk_alike h, ih]
  unfold resolve
  rw [hrev]

theorem inRoot_alike {real root : Loc} (h : Alike d d') : inRoot d real root = inRoot d' real root := by
  unfold inRoot
  rw [resolve_alike h]

theorem inBackupDir_alike {pol : Policy} {real : Loc} (h : Alike d d') :
    inBackupDir pol d real = inBackupDir pol d' real := by
  unfold inBackupDir resolveBackup
  rw [resolve_alike h]

theorem inWritable_alike {pol : Policy} {real : Loc} (h : Alike d d') :
    inWritable pol d real = inWritable pol d' real := by
  unfold inWritable
  rw [inBackupDir_alike h]
  congr 2
  exact funext fun _ => inRoot_alike h

/-- A check sees of the disk what a walk sees. -/
theorem check_alike {pol : Policy} {raw : String} {write : Bool} (h : Alike d d') :
    check pol d raw write = check pol d' raw write := by
  have hread : ∀ real, inRoot d real = inRoot d' real := fun real => funext fun _ => inRoot_alike h
  unfold check checkPath verdict
  rw [resolve_alike h]
  simp only [inWritable_alike h, hread]

theorem alike_put {f g : FileData} (h : d.get l = some (.file f)) : Alike (d.put l (.file g)) d := by
  intro q
  by_cases hql : q = l
  · subst hql
    rw [Disk.get_put_self (fits_over h (by simp [Node.isDir])), h]
    rfl
  · rw [Disk.get_put_ne hql]

theorem Alike.trans {d'' : Disk} (h1 : Alike d d') (h2 : Alike d' d'') : Alike d d'' :=
  fun q => (h1 q).trans (h2 q)

/-! ## New directories on the way to a place -/

/-- `d'` is `d` with something new on the way to `real`, and no new link. -/
def Paved (d d' : Disk) (real : Loc) : Prop :=
  Grows d d' ∧ ∀ q n, d.get q = none → d'.get q = some n → q <+: real ∧ n.isLink = false

theorem Paved.refl (d : Disk) (real : Loc) : Paved d d real :=
  ⟨.refl d, fun _ _ h1 h2 => by rw [h1] at h2; cases h2⟩

theorem Paved.put {real : Loc} (h : Paved d d' real) (hq : q <+: real) (hlink : n.isLink = false)
    (hold : ∀ m, d'.get q = some m → n.shape = m.shape) : Paved d (d'.put q n) real := by
  obtain ⟨hg, hnew⟩ := h
  refine ⟨hg.trans (grows_put hold), fun p m hp hm => ?_⟩
  by_cases hpq : p = q
  · subst hpq
    refine ⟨hq, ?_⟩
    by_cases hf : d'.Fits p n
    · rw [Disk.get_put_self hf] at hm
      cases hm
      exact hlink
    · unfold Disk.put at hm
      rw [dif_neg hf] at hm
      exact (hnew p m hp hm).2
  · rw [Disk.get_put_ne hpq] at hm
    exact hnew p m hp hm

/-- `p` leads to `real`: a part of it leads to a directory, and the names that
are left lead nowhere. -/
def LeadsTo (d : Disk) (p real : Loc) : Prop :=
  ∃ cur xs l, p = cur ++ xs ∧ evalSymlinks d cur = .ok l ∧ real = l ++ xs ∧
    ∀ x ys, xs = x :: ys → d.IsDirAt l ∧ DeadEnd d l x

theorem resolve_leadsTo {p real : Loc} (hp : Proper p) (h : resolve d p = .ok real) :
    LeadsTo d p real := by
  obtain ⟨cur, xs, l, rfl, hl, rfl, hnext⟩ := resolve_parts h
  refine ⟨cur, xs, l, rfl, hl, rfl, ?_⟩
  rintro x ys rfl
  have hx : Ordinary x := (proper_append.mp hp).2 x List.mem_cons_self
  exact walk_snoc 255 hx (Or.inl rfl) hl (hnext x ys rfl)

theorem Resolved.leadsTo {real : Loc} (h : Resolved d real) : LeadsTo d real real := by
  obtain ⟨hp, hplain | ⟨l, x, xs, rfl, hl, hdead⟩⟩ := h
  · exact ⟨real, [], real, by simp, walk_plain 255 hp hplain, by simp, by simp⟩
  · refine ⟨l, x :: xs, l, rfl, ?_, rfl, ?_⟩
    · exact walk_plain 255 (proper_append.mp hp).1 (plain_of_isDirAt hl)
    · rintro y ys hy
      cases hy
      exact ⟨hl, hdead⟩

/-- A walk that meets no link goes along its own names. -/
theorem walk_straight (j : Nat) {ds : List Name} (hp : Proper ds)
    (hlinks : ∀ ys n, ys <+: ds → d.get (l ++ ys) = some n → ys ≠ [] → n.isLink = false)
    (h : walk d false j l ds = .ok r) : r = l ++ ds := by
  have hstep : ∀ (cs : List Name) (m : Loc), Proper cs →
      (∀ ys n, ys <+: cs → d.get (m ++ ys) = some n → ys ≠ [] → n.isLink = false) →
      ∀ on, walkParts d false on m cs = .ok r → r = m ++ cs := by
    intro cs
    induction cs with
    | nil =>
      intro m _ _ on h
      simp only [walkParts, Except.ok.injEq] at h
      simp [h]
    | cons c cs ih =>
      intro m hpc hm on h
      obtain ⟨h1, h2, _⟩ := hpc c List.mem_cons_self
      have hnext : ∀ on, walkParts d false on (m ++ [c]) cs = .ok r → r = m ++ c :: cs := by
        intro on h
        have := ih (m ++ [c]) (fun n hn => hpc n (List.mem_cons_of_mem _ hn)) ?_ on h
        · simpa using this
        · intro ys n hpre hn hys
          rw [List.append_assoc] at hn
          exact hm ([c] ++ ys) n (by simpa using hpre) hn (by simp)
      unfold walkParts at h
      rw [if_neg h1, if_neg h2] at h
      cases hn : d.get (m ++ [c]) with
      | none => simp [hn] at h
      | some n =>
        rw [hn] at h
        cases n with
        | dir a => exact hnext on h
        | link t =>
          have := hm [c] _ (by simp) hn (by simp)
          simp [Node.isLink] at this
        | file f =>
          simp only at h
          split at h
          · cases h
            simp [‹cs = []›]
          · cases h
        | other sk a =>
          simp only at h
          split at h
          · cases h
            simp [‹cs = []›]
          · cases h
  cases j <;> exact hstep ds l hp hlinks _ h

/-- On the way to a dead link nothing new can be. -/
theorem Paved.grows_back {xs : List Name} {x : Name} {t : Target}
    (h : Paved d d' (l ++ x :: xs)) (hl : d.IsDirAt l) (ht : d.get (l ++ [x]) = some (.link t)) :
    Grows d' d := by
  intro q n hq
  have hold : d.get q ≠ none := by
    intro hnone
    have hpre := (h.2 q n hnone hq).1
    rcases List.prefix_or_prefix_of_prefix hpre (List.prefix_append l (x :: xs)) with h1 | ⟨r, rfl⟩
    · rcases hl.above h1 with h0 | ⟨a, ha⟩
      · exact Disk.get_ne_nil hq h0
      · rw [hnone] at ha; cases ha
    · rw [List.prefix_append_right_inj, List.prefix_cons_iff] at hpre
      rcases hpre with rfl | ⟨r', rfl, _⟩
      · rw [List.append_nil] at hnone hq
        rcases hl with h0 | ⟨a, ha⟩
        · exact Disk.get_ne_nil hq h0
        · rw [hnone] at ha; cases ha
      · have hsplit : l ++ x :: r' = (l ++ [x]) ++ r' := by simp
        by_cases hr : r' = []
        · rw [hr, ht] at hnone
          cases hnone
        · obtain ⟨n', hn', hs⟩ := h.1 _ _ ht
          rw [hsplit] at hq
          rcases Disk.isDirAt_of_below hr (by rw [hq]; rfl) with h0 | ⟨a, ha⟩
          · simp at h0
          · rw [hn', shape_eq_link hs] at ha; cases ha
  obtain ⟨m, hm⟩ := Option.ne_none_iff_exists'.mp hold
  obtain ⟨n', hn', hs⟩ := h.1 q m hm
  rw [hq, Option.some.injEq] at hn'
  subst hn'
  exact ⟨m, hm, hs.symm⟩

/-- Below a missing name there is no link, also on a paved disk. -/
theorem Paved.no_link {real : Loc} {x : Name} {ys us : List Name} (h : Paved d d' real)
    (hnone : d.get (l ++ [x]) = none) (hpre : us <+: x :: ys) (hus : us ≠ [])
    (hn : d'.get (l ++ us) = some n) : n.isLink = false := by
  refine (h.2 _ n ?_ hn).2
  cases us with
  | nil => exact absurd rfl hus
  | cons u us =>
    obtain ⟨rfl, _⟩ := List.cons_prefix_cons.mp hpre
    by_cases hus0 : us = []
    · rw [hus0]; exact hnone
    · have hsplit : l ++ u :: us = (l ++ [u]) ++ us := by simp
      rw [hsplit]
      refine Disk.get_below_none ?_ hus0
      rintro (h0 | ⟨a, ha⟩)
      · simp at h0
      · rw [hnone] at ha; cases ha

/-- Where a path beyond its last link leads on a paved disk: to its own names. -/
theorem walk_beyond {cur xs ys zs : List Name} {x : Name} {m : Loc} (hp : Proper (cur ++ x :: ys))
    (hl : evalSymlinks d cur = .ok l) (hdir : d.IsDirAt l) (hdead : DeadEnd d l x)
    (hxs : xs = x :: ys ++ zs) (hnew : Paved d d' (l ++ xs))
    (hm : evalSymlinks d' (cur ++ x :: ys) = .ok m) : m = l ++ x :: ys := by
  obtain ⟨hpc, hpx⟩ := proper_append.mp hp
  obtain ⟨j, hj⟩ := walk_append (hnew.1.isDirAt hdir) (walk_grow hnew.1 hl)
  rcases hdead with hnone | hlink
  · unfold evalSymlinks at hm
    rw [hj] at hm
    exact walk_straight j hpx (fun us n hpre hn hus => hnew.no_link hnone hpre hus hn) hm
  · exfalso
    obtain ⟨t, k, ht, hk⟩ := hlink
    rw [hxs, List.cons_append] at hnew
    have hback := walk_grow (hnew.grows_back hdir ht) hm
    obtain ⟨i, hi⟩ := walk_append hdir hl
    rw [hi] at hback
    exact DeadEnd.walk (Or.inr ⟨t, k, ht, hk⟩) i (hpx x List.mem_cons_self) hback

/-- A walk does not pass a missing entry. -/
theorem walk_past_missing {t zs : List Name} {c : Name} {m : Loc} (hc : Ordinary c)
    (hm : dirAt d t = .ok m) (hnone : d.get (m ++ [c]) = none) :
    evalSymlinks d (t ++ c :: zs) ≠ .ok r := by
  obtain ⟨hmw, hmdir⟩ := dirAt_eval hm
  obtain ⟨j, hj⟩ := walk_append hmdir hmw
  unfold evalSymlinks
  rw [hj]
  cases j <;> simp [walk, walkParts, hc.1, hc.2.1, hnone]

/-- The entry of a part of a path, once directories were made for the path:
when it is missing it is on the way to where the path leads. -/
theorem leadsTo_missing {p real t : Loc} (hp : Proper p) (hlead : LeadsTo d p real)
    (hnew : Paved d d' real) (ht : t <+: p) (he : entryAt d' t = .ok q)
    (hnone : d'.get q = none) : q <+: real ∧ (t = p → q = real) := by
  obtain ⟨cur, xs, l, rfl, hl, rfl, hdead⟩ := hlead
  obtain ⟨_, _, _, ht0, _⟩ := entryAt_ok he
  obtain ⟨t', c, rfl⟩ := dropLast_append_getLast ht0
  obtain ⟨m, rfl, hm⟩ := entryAt_concat he
  have hpc : Ordinary c := hp c (ht.subset (by simp))
  have hl' : evalSymlinks d' cur = .ok l := walk_grow hnew.1 hl
  rcases List.prefix_or_prefix_of_prefix ht (List.prefix_append cur xs) with ⟨zs, rfl⟩ | h1
  · rw [List.append_assoc] at hl'
    exact absurd hl' (walk_past_missing hpc hm hnone)
  · rcases prefix_concat_iff.mp h1 with rfl | ⟨ys, rfl⟩
    · exact absurd hl' (walk_past_missing hpc hm hnone)
    · rw [List.append_assoc, List.prefix_append_right_inj] at ht
      obtain ⟨zs, rfl⟩ := ht
      have hmw := (dirAt_eval hm).1
      have hmeq : m = l ++ ys := by
        cases ys with
        | nil =>
          rw [List.append_nil, hl'] at hmw
          cases hmw
          simp
        | cons x ys =>
          obtain ⟨hdir, hdd⟩ := hdead x (ys ++ [c] ++ zs) (by simp)
          exact walk_beyond (proper_above ⟨[c] ++ zs, by simp⟩ hp) hl hdir hdd
            (List.append_assoc (x :: ys) [c] zs) hnew hmw
      subst hmeq
      refine ⟨⟨zs, by simp⟩, fun hfull => ?_⟩
      have hzs : zs = [] := by simpa using congrArg List.length hfull
      simp [hzs]

/-- The entry of a path, when it is there and no link, is where it leads. -/
theorem leadsTo_there {p real : Loc} {n : Node} (hp : Proper p) (hlead : LeadsTo d p real)
    (hnew : Paved d d' real) (he : entryAt d' p = .ok q) (hn : d'.get q = some n)
    (hlink : n.isLink = false) : q = real := by
  obtain ⟨cur, xs, l, hpeq, hl, rfl, hdead⟩ := hlead
  obtain ⟨_, _, _, hp0, _⟩ := entryAt_ok he
  obtain ⟨t', c, rfl⟩ := dropLast_append_getLast hp0
  obtain ⟨m, rfl, hm⟩ := entryAt_concat he
  obtain ⟨hmw, hmdir⟩ := dirAt_eval hm
  have hl' : evalSymlinks d' cur = .ok l := walk_grow hnew.1 hl
  rcases List.eq_nil_or_concat xs with rfl | ⟨ys, y, rfl⟩
  · rw [List.append_nil] at hpeq ⊢
    subst hpeq
    obtain ⟨j, hj⟩ := walk_append hmdir hmw
    have hplain : Plain d' (m ++ [] ++ [c]) := Or.inr ⟨n, by simpa using hn, hlink⟩
    unfold evalSymlinks at hl'
    rw [hj] at hl'
    have : walk d' false j m ([] ++ [c]) = .ok (m ++ [] ++ [c]) :=
      walk_there j (proper_append.mp hp).2 (by simpa using hmdir) hplain
    rw [List.nil_append, hl'] at this
    simpa using this.symm
  · rw [List.concat_eq_append, ← List.append_assoc] at hpeq
    obtain ⟨rfl, hy⟩ := List.append_inj' hpeq rfl
    cases hy
    rw [List.concat_eq_append] at hnew hdead ⊢
    cases ys with
    | nil =>
      rw [List.append_nil, hl'] at hmw
      cases hmw
      rfl
    | cons x ys =>
      obtain ⟨hdir, hdd⟩ := hdead x (ys ++ [c]) (by simp)
      have := walk_beyond (proper_append.mp hp).1 hl hdir hdd rfl hnew hmw
      simp [this]

theorem dirAt_grow {p : Loc} (hg : Grows d d') (h : dirAt d p = .ok q) : dirAt d' p = .ok q := by
  have hdir := (dirAt_ok h).1
  unfold dirAt at h ⊢
  split at h
  · rename_i m hm
    split at h
    · cases h
      have hm' : follow d' p = .ok q := walk_grow hg hm
      rw [hm']
      simp [hg.isDirAt hdir]
    · cases h
  · cases h

theorem entryAt_grow {p : Loc} (hg : Grows d d') (h : entryAt d p = .ok q) :
    entryAt d' p = .ok q := by
  obtain ⟨_, _, _, hne, _⟩ := entryAt_ok h
  obtain ⟨p, n, rfl⟩ := dropLast_append_getLast hne
  obtain ⟨m, rfl, hm⟩ := entryAt_concat h
  simp only [entryAt, List.getLast?_append, List.getLast?_singleton, Option.some_or,
    List.dropLast_concat, dirAt_grow hg hm] at h ⊢
  split at h
  · rw [if_pos ‹_›]
  · cases h

end icsd_panel.disk

-- What the kernel, and `filepath.EvalSymlinks`, make of a path on a disk: the
-- walk along its names, links and `..`. A path that a walk gave leads to
-- itself, and a dead end stays one.
import IcsdPanel.Disk

namespace icsd_panel.disk

open paths

/-! ## The walk along a path -/

/-- The walk along names from the directory `l`. A link is handed to `onLink`
with the names that are left. `newOk` lets the last name be missing. -/
def walkParts (d : Disk) (newOk : Bool) (onLink : Loc → List Name → Except Errno Loc) :
    Loc → List Name → Except Errno Loc
  | l, [] => .ok l
  | l, c :: rest =>
    if c = "" ∨ c = "." then walkParts d newOk onLink l rest
    else if c = ".." then walkParts d newOk onLink l.dropLast rest
    else match d.get (l ++ [c]) with
      | none => if newOk ∧ rest = [] then .ok (l ++ [c]) else .error .noent
      | some (.link t) => onLink (if t.abs then [] else l) (t.parts ++ rest)
      | some (.dir _) => walkParts d newOk onLink (l ++ [c]) rest
      | some _ => if rest = [] then .ok (l ++ [c]) else .error .notdir

/-- The walk that follows at most `links` links. -/
def walk (d : Disk) (newOk : Bool) : Nat → Loc → List Name → Except Errno Loc
  | 0 => walkParts d newOk fun _ _ => .error .loop
  | links + 1 => walkParts d newOk (walk d newOk links)

/-- `filepath.EvalSymlinks` of a clean absolute path: 255 links at most. -/
def evalSymlinks (d : Disk) (p : Loc) : Except Errno Loc := walk d false 255 [] p

/-- The kernel's own walk: 40 links at most. -/
def follow (d : Disk) (p : Loc) : Except Errno Loc := walk d false 40 [] p

/-- The directory that a path leads to. -/
def dirAt (d : Disk) (p : Loc) : Except Errno Loc :=
  match follow d p with
  | .ok l => if d.IsDirAt l then .ok l else .error .notdir
  | .error e => .error e

/-- Where the entry of a path is, with no link at its last name followed. -/
def entryAt (d : Disk) (p : Loc) : Except Errno Loc :=
  match p.getLast? with
  | none => .error .busy
  | some n =>
    if Ordinary n then
      match dirAt d p.dropLast with
      | .ok l => .ok (l ++ [n])
      | .error e => .error e
    else .error .busy

variable {d : Disk} {b : Bool} {l q r : Loc}

/-! ## A walk along directories -/

theorem walkParts_dirs {on : Loc → List Name → Except Errno Loc} {cs ds : List Name}
    (hcs : Proper cs) (h : d.IsDirAt (l ++ cs)) :
    walkParts d b on l (cs ++ ds) = walkParts d b on (l ++ cs) ds := by
  induction cs generalizing l with
  | nil => simp
  | cons c cs ih =>
    obtain ⟨h1, h2, _⟩ := hcs c List.mem_cons_self
    have hsplit : l ++ c :: cs = (l ++ [c]) ++ cs := by simp
    have hc : d.IsDirAt (l ++ [c]) := h.above (by rw [hsplit]; exact List.prefix_append _ _)
    rcases hc with h0 | ⟨a, ha⟩
    · simp at h0
    · rw [List.cons_append, walkParts, if_neg h1, if_neg h2, ha, hsplit]
      exact ih (fun n hn => hcs n (List.mem_cons_of_mem _ hn)) (by rw [← hsplit]; exact h)

theorem walk_dirs (k : Nat) {cs ds : List Name} (hcs : Proper cs) (h : d.IsDirAt (l ++ cs)) :
    walk d b k l (cs ++ ds) = walk d b k (l ++ cs) ds := by
  cases k <;> exact walkParts_dirs hcs h

/-- A place that is there, and is not a link. -/
def Plain (d : Disk) (l : Loc) : Prop := l = [] ∨ ∃ n, d.get l = some n ∧ n.isLink = false

theorem plain_of_isDirAt (h : d.IsDirAt l) : Plain d l := by
  rcases h with h | ⟨a, ha⟩
  · exact Or.inl h
  · exact Or.inr ⟨_, ha, rfl⟩

theorem plain_of_look {n : Node} (h : d.look l = some n) (hn : n.isLink = false) : Plain d l := by
  unfold Disk.look at h
  split at h
  · exact Or.inl ‹_›
  · exact Or.inr ⟨n, h, hn⟩

/-- A path that leads to its own place: the walk ends there. -/
theorem walk_plain (k : Nat) (hp : Proper l) (h : Plain d l) : walk d b k [] l = .ok l := by
  rcases List.eq_nil_or_concat l with rfl | ⟨q, x, rfl⟩
  · cases k <;> rfl
  · rw [List.concat_eq_append] at hp h ⊢
    rcases h with h | ⟨n, hn, hlink⟩
    · simp at h
    · obtain ⟨hq, hx⟩ := proper_append.mp hp
      obtain ⟨h1, h2, _⟩ := hx x (by simp)
      have hdir : d.IsDirAt ([] ++ q) := by
        have := Disk.isDirAt_dropLast (d := d) (l := q ++ [x]) (by rw [hn]; rfl)
        simpa using this
      rw [walk_dirs k hq hdir, List.nil_append]
      cases n with
      | link t => simp [Node.isLink] at hlink
      | _ => cases k <;> simp [walk, walkParts, h1, h2, hn]

/-! ## Where a walk ends -/

theorem walkParts_ok {on : Loc → List Name → Except Errno Loc} {cs : List Name}
    (hon : ∀ l cs, d.IsDirAt l → Proper l → on l cs = .ok r → Plain d r ∧ Proper r)
    (hl : d.IsDirAt l) (hp : Proper l) (h : walkParts d false on l cs = .ok r) :
    Plain d r ∧ Proper r := by
  induction cs generalizing l with
  | nil =>
    simp only [walkParts, Except.ok.injEq] at h
    subst h
    exact ⟨plain_of_isDirAt hl, hp⟩
  | cons c cs ih =>
    unfold walkParts at h
    split at h
    · exact ih hl hp h
    · split at h
      · exact ih (hl.above (List.dropLast_prefix l)) (proper_above (List.dropLast_prefix l) hp) h
      · split at h
        · simp at h
        · rename_i t ht
          split at h
          · exact hon [] _ (Or.inl rfl) (by simp [Proper]) h
          · exact hon l _ hl hp h
        · rename_i a ha
          exact ih (Or.inr ⟨a, ha⟩) (Disk.get_proper ha) h
        · rename_i n hlink hdir hn
          split at h
          · simp only [Except.ok.injEq] at h
            subst h
            refine ⟨Or.inr ⟨n, hn, ?_⟩, Disk.get_proper hn⟩
            cases n with
            | link t => exact absurd rfl (hlink t)
            | _ => rfl
          · cases h

/-- A walk ends at a place that is there and is no link. -/
theorem walk_ok (k : Nat) {cs : List Name} (hl : d.IsDirAt l) (hp : Proper l)
    (h : walk d false k l cs = .ok r) : Plain d r ∧ Proper r := by
  induction k generalizing l cs with
  | zero => exact walkParts_ok (fun _ _ _ _ h => by cases h) hl hp h
  | succ k ih => exact walkParts_ok (fun _ _ hl hp h => ih hl hp h) hl hp h

theorem follow_ok (h : follow d q = .ok r) : Plain d r ∧ Proper r :=
  walk_ok 40 (Or.inl rfl) (by simp [Proper]) h

/-! ## Dead ends -/

theorem walkParts_dead {on1 on2 : Loc → List Name → Except Errno Loc} {cs xs : List Name}
    (hon : ∀ l cs q, on1 l cs = .error .noent → on2 l (cs ++ xs) ≠ .ok q)
    (h : walkParts d false on1 l cs = .error .noent) :
    walkParts d false on2 l (cs ++ xs) ≠ .ok q := by
  induction cs generalizing l with
  | nil => simp [walkParts] at h
  | cons c cs ih =>
    rw [List.cons_append]
    unfold walkParts at h ⊢
    split at h
    · rw [if_pos ‹_›]; exact ih h
    · rename_i h1
      rw [if_neg h1]
      split at h
      · rw [if_pos ‹_›]; exact ih h
      · rename_i h2
        rw [if_neg h2]
        rcases hget : d.get (l ++ [c]) with _ | (_ | a | t | _) <;> rw [hget] at h
        · simp
        · simp only at h
          split at h <;> cases h
        · exact ih h
        · simp only [← List.append_assoc]
          exact hon _ _ q h
        · simp only at h
          split at h <;> cases h

/-- A walk that ends at a missing name ends badly with more names after it
too, however many links it may follow. -/
theorem walk_dead (k j : Nat) {cs xs : List Name} (h : walk d false k l cs = .error .noent) :
    walk d false j l (cs ++ xs) ≠ .ok q := by
  induction k generalizing j l cs q with
  | zero => cases j <;> exact walkParts_dead (fun _ _ _ h => by cases h) h
  | succ k ih =>
    cases j with
    | zero => exact walkParts_dead (fun _ _ _ _ h => by cases h) h
    | succ j => exact walkParts_dead (fun _ _ _ h => ih j h) h

/-- The name `x` in the directory `l` leads nowhere: there is no such entry,
or it is a link to a missing place. -/
def DeadEnd (d : Disk) (l : Loc) (x : Name) : Prop :=
  d.get (l ++ [x]) = none ∨
    ∃ t k, d.get (l ++ [x]) = some (.link t) ∧
      walk d false k (if t.abs then [] else l) t.parts = .error .noent

theorem DeadEnd.walk {x : Name} {xs : List Name} (h : DeadEnd d l x) (j : Nat)
    (hx : Ordinary x) : walk d false j l (x :: xs) ≠ .ok q := by
  rcases h with hnone | ⟨t, k, ht, hk⟩
  · cases j <;> simp [disk.walk, walkParts, hx.1, hx.2.1, hnone]
  · cases j with
    | zero => simp [disk.walk, walkParts, hx.1, hx.2.1, ht]
    | succ j =>
      simp only [disk.walk, walkParts, hx.1, hx.2.1, if_false, ht]
      exact walk_dead k j hk

theorem walkParts_snoc {on : Loc → List Name → Except Errno Loc} {cs : List Name} {x : Name}
    (hon : ∀ l cs, d.IsDirAt l → on l cs = .ok r → on l (cs ++ [x]) = .error .noent →
      d.IsDirAt r ∧ DeadEnd d r x)
    (hdead : ∀ l cs, on l cs = .error .noent → ∃ k, walk d false k l cs = .error .noent)
    (hx : Ordinary x) (hl : d.IsDirAt l) (h : walkParts d false on l cs = .ok r)
    (hmiss : walkParts d false on l (cs ++ [x]) = .error .noent) :
    d.IsDirAt r ∧ DeadEnd d r x := by
  induction cs generalizing l with
  | nil =>
    simp only [walkParts, Except.ok.injEq] at h
    subst h
    refine ⟨hl, ?_⟩
    simp only [List.nil_append, walkParts, hx.1, hx.2.1, if_false] at hmiss
    split at hmiss
    · exact Or.inl ‹_›
    · rename_i t ht
      rw [List.append_nil] at hmiss
      obtain ⟨k, hk⟩ := hdead _ _ hmiss
      exact Or.inr ⟨t, k, ht, hk⟩
    · cases hmiss
    · simp at hmiss
  | cons c cs ih =>
    rw [List.cons_append] at hmiss
    unfold walkParts at h hmiss
    split at h
    · rw [if_pos ‹_›] at hmiss; exact ih hl h hmiss
    · rename_i h1
      rw [if_neg h1] at hmiss
      split at h
      · rw [if_pos ‹_›] at hmiss
        exact ih (hl.above (List.dropLast_prefix l)) h hmiss
      · rename_i h2
        rw [if_neg h2] at hmiss
        split at h
        · simp at h
        · rename_i t ht
          simp only [ht] at hmiss
          rw [← List.append_assoc] at hmiss
          refine hon _ _ ?_ h hmiss
          split
          · exact Or.inl rfl
          · exact hl
        · rename_i a ha
          simp only [ha] at hmiss
          exact ih (Or.inr ⟨a, ha⟩) h hmiss
        · rename_i n hlink hdir hn
          -- A file with a name after it: the walk fails, but not with a missing name.
          cases n with
          | link t => exact absurd rfl (hlink t)
          | dir a => exact absurd rfl (hdir a)
          | _ => simp [hn] at hmiss

/-- A walk that ends well, and with one more name at a missing one, ends in
the directory where that name leads nowhere. -/
theorem walk_snoc (k : Nat) {cs : List Name} {x : Name} (hx : Ordinary x)
    (hl : d.IsDirAt l) (h : walk d false k l cs = .ok r)
    (hmiss : walk d false k l (cs ++ [x]) = .error .noent) : d.IsDirAt r ∧ DeadEnd d r x := by
  induction k generalizing l cs with
  | zero =>
    exact walkParts_snoc (fun _ _ _ h => by cases h) (fun _ _ h => by cases h) hx hl h hmiss
  | succ k ih =>
    exact walkParts_snoc (fun _ _ hl h hm => ih hl h hm) (fun _ _ h => ⟨k, h⟩) hx hl h hmiss

/-! ## Resolved paths -/

/-- A path that leads to its own place, as far as it leads anywhere: it is
there and not a link, or the way to it ends at a name that leads nowhere. -/
def Resolved (d : Disk) (p : Loc) : Prop :=
  Proper p ∧ (Plain d p ∨ ∃ l x xs, p = l ++ x :: xs ∧ d.IsDirAt l ∧ DeadEnd d l x)

theorem Resolved.above {p : Loc} (h : Resolved d p) (hq : q <+: p) : Resolved d q := by
  obtain ⟨hp, h⟩ := h
  refine ⟨proper_above hq hp, ?_⟩
  by_cases hqp : q = p
  · rw [hqp]; exact h
  rcases h with (h | ⟨n, hn, _⟩) | ⟨l, x, xs, rfl, hl, hdead⟩
  · exact Or.inl (Or.inl (List.prefix_nil.mp (h ▸ hq)))
  · exact Or.inl (plain_of_isDirAt (Disk.isDirAt_above hq hqp (by rw [hn]; rfl)))
  · rcases List.prefix_or_prefix_of_prefix hq (List.prefix_append l (x :: xs)) with h1 | ⟨r, rfl⟩
    · exact Or.inl (plain_of_isDirAt (hl.above h1))
    · rw [List.prefix_append_right_inj] at hq
      rcases List.prefix_cons_iff.mp hq with rfl | ⟨r', rfl, _⟩
      · exact Or.inl (plain_of_isDirAt (by rwa [List.append_nil]))
      · exact Or.inr ⟨l, x, r', rfl, hl, hdead⟩

/-- Where the kernel's walk along a resolved path ends, if it does. -/
theorem Resolved.follow {p : Loc} (h : Resolved d p) (hf : follow d p = .ok q) : q = p ∧ Plain d p := by
  obtain ⟨hp, h | ⟨l, x, xs, rfl, hl, hdead⟩⟩ := h
  · rw [disk.follow, walk_plain 40 hp h, Except.ok.injEq] at hf
    exact ⟨hf.symm, h⟩
  · exfalso
    obtain ⟨hpl, hpx⟩ := proper_append.mp hp
    have hx := hpx x List.mem_cons_self
    rw [disk.follow, walk_dirs 40 hpl (by simpa using hl), List.nil_append] at hf
    exact hdead.walk 40 hx hf

theorem Resolved.dirAt {p : Loc} (h : Resolved d p) (hd : dirAt d p = .ok q) :
    q = p ∧ d.IsDirAt p := by
  unfold disk.dirAt at hd
  split at hd
  · rename_i l hl
    split at hd
    · rename_i hdir
      simp only [Except.ok.injEq] at hd
      subst hd
      obtain ⟨rfl, _⟩ := h.follow hl
      exact ⟨rfl, hdir⟩
    · cases hd
  · cases hd

theorem dirAt_ok {p : Loc} (h : dirAt d p = .ok l) : d.IsDirAt l ∧ Proper l := by
  unfold disk.dirAt at h
  split at h
  · rename_i m hm
    split at h
    · cases h
      exact ⟨‹_›, (follow_ok hm).2⟩
    · cases h
  · cases h

theorem entryAt_concat {p : Loc} {n : Name} (he : entryAt d (p ++ [n]) = .ok q) :
    ∃ m, q = m ++ [n] ∧ dirAt d p = .ok m := by
  simp only [entryAt, List.getLast?_append, List.getLast?_singleton, Option.some_or,
    List.dropLast_concat] at he
  split at he
  · split at he
    · rename_i m hm
      cases he
      exact ⟨m, rfl, hm⟩
    · cases he
  · cases he

/-- The entry of a path is in a directory. -/
theorem entryAt_ok {p : Loc} (he : entryAt d p = .ok q) :
    q ≠ [] ∧ Proper q ∧ d.IsDirAt q.dropLast ∧ p ≠ [] ∧ dirAt d p.dropLast = .ok q.dropLast := by
  unfold disk.entryAt at he
  split at he
  · cases he
  · rename_i n hn
    have hne : p ≠ [] := by rintro rfl; simp at hn
    split at he
    · rename_i hord
      split at he
      · rename_i l hl
        simp only [Except.ok.injEq] at he
        subst he
        obtain ⟨hdir, hp⟩ := dirAt_ok hl
        refine ⟨by simp, ?_, by simpa using hdir, hne, by simpa using hl⟩
        refine proper_append.mpr ⟨hp, fun x hx => ?_⟩
        rw [List.mem_singleton.mp hx]
        exact hord
      · cases he
    · cases he

theorem Resolved.entryAt {p : Loc} (h : Resolved d p.dropLast) (he : entryAt d p = .ok q) :
    q = p ∧ p ≠ [] ∧ d.IsDirAt p.dropLast := by
  obtain ⟨_, _, _, hne, _⟩ := entryAt_ok he
  obtain ⟨p, n, rfl⟩ := dropLast_append_getLast hne
  obtain ⟨m, rfl, hm⟩ := entryAt_concat he
  rw [List.dropLast_concat] at h ⊢
  obtain ⟨rfl, hdir⟩ := h.dirAt hm
  exact ⟨rfl, hne, hdir⟩

theorem dirAt_plain {p : Loc} (hp : Proper p) (h : d.IsDirAt p) : dirAt d p = .ok p := by
  unfold disk.dirAt disk.follow
  rw [walk_plain 40 hp (plain_of_isDirAt h)]
  simp [h]

theorem entryAt_plain {p : Loc} (hp : Proper p) (hne : p ≠ []) (h : d.IsDirAt p.dropLast) :
    entryAt d p = .ok p := by
  have hlast := hp _ (List.getLast_mem hne)
  unfold disk.entryAt
  rw [List.getLast?_eq_some_getLast hne,
    dirAt_plain (proper_above (List.dropLast_prefix p) hp) h]
  simp [List.dropLast_concat_getLast, hlast]

end icsd_panel.disk

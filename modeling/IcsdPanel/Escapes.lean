-- Where a path leads when every link on its way is followed, also a link to a
-- place that is not there yet. `resolve` takes such a link for a missing file:
-- the place that a check admits is then the link, and not where it points.
import IcsdPanel.Straying

namespace icsd_panel.escapes

open paths disk machine policy confinement

/-! ## All links followed -/

/-- The walk along names, missing ones too. A link is handed to `onLink`. -/
def farParts (d : Disk) (onLink : Loc → List Name → Option Loc) : Loc → List Name → Option Loc
  | l, [] => some l
  | l, c :: rest =>
    if c = "" ∨ c = "." then farParts d onLink l rest
    else if c = ".." then farParts d onLink l.dropLast rest
    else match d.get (l ++ [c]) with
      | some (.link t) => onLink (if t.abs then [] else l) (t.parts ++ rest)
      | _ => farParts d onLink (l ++ [c]) rest

/-- The walk that follows at most `links` links. -/
def far (d : Disk) : Nat → Loc → List Name → Option Loc
  | 0 => farParts d fun _ _ => none
  | links + 1 => farParts d (far d links)

/-- The location that a path denotes: all its links are followed, also those
to places that do not exist yet. -/
def Denotes (d : Disk) (p l : Loc) : Prop := ∃ links, far d links [] p = some l

/-- The path comes to a link whose target is missing. `place` is that link,
with the names after it. -/
def DeadLinkAt (d : Disk) (p place : Loc) : Prop :=
  ∃ cur x xs l t, p = cur ++ x :: xs ∧ evalSymlinks d cur = .ok l ∧
    evalSymlinks d (cur ++ [x]) = .error .noent ∧ d.get (l ++ [x]) = some (.link t) ∧
    place = l ++ x :: xs

/-- A place that is reached without a link: what is on the way to it is a
directory, or missing. -/
structure Clear (d : Disk) (m : Loc) : Prop where
  proper : Proper m
  way : ∀ q, q <+: m → q ≠ m → d.IsDirAt q ∨ d.get q = none
  last : ∀ t, d.get m ≠ some (.link t)

variable {pol : Policy} {d : Disk} {p q r l m real place : Loc} {raw : String} {write : Bool}

theorem farParts_straight {on : Loc → List Name → Option Loc} {cs ds : List Name} (hp : Proper cs)
    (h : ∀ q t, q <+: cs → q ≠ [] → d.get (l ++ q) ≠ some (.link t)) :
    farParts d on l (cs ++ ds) = farParts d on (l ++ cs) ds := by
  induction cs generalizing l with
  | nil => simp
  | cons c cs ih =>
    obtain ⟨h1, h2, _⟩ := hp c List.mem_cons_self
    have hrest : farParts d on (l ++ [c]) (cs ++ ds) = farParts d on (l ++ c :: cs) ds := by
      rw [ih (fun n hn => hp n (List.mem_cons_of_mem _ hn))]
      · simp
      · intro q t hq _
        rw [List.append_assoc]
        exact h ([c] ++ q) t (by simpa using hq) (by simp)
    rw [List.cons_append, farParts, if_neg h1, if_neg h2]
    split
    · exact absurd ‹_› (h [c] _ (by simp) (by simp))
    · exact hrest

/-- With no link below `l`, the names lead along themselves. -/
theorem far_straight (k : Nat) {cs ds : List Name} (hp : Proper cs)
    (h : ∀ q t, q <+: cs → q ≠ [] → d.get (l ++ q) ≠ some (.link t)) :
    far d k l (cs ++ ds) = far d k (l ++ cs) ds := by
  cases k <;> exact farParts_straight hp h

theorem Clear.bare (h : Clear d m) (hq : q <+: m) (t : Target) : d.get q ≠ some (.link t) := by
  intro hget
  by_cases hqm : q = m
  · exact h.last t (hqm ▸ hget)
  · rcases h.way q hq hqm with (h0 | ⟨a, ha⟩) | hnone
    · exact Disk.get_ne_nil hget h0
    · rw [hget] at ha; cases ha
    · rw [hget] at hnone; cases hnone

theorem Clear.denotes (h : Clear d m) : Denotes d m m := by
  refine ⟨0, ?_⟩
  have hfar : far d 0 [] (m ++ []) = far d 0 ([] ++ m) [] :=
    far_straight 0 h.proper fun q t hq _ => h.bare hq t
  rw [List.append_nil] at hfar
  exact hfar

/-! ## What `resolve` makes of a path -/

theorem clear_of_plain (hp : Proper m) (h : Plain d m) : Clear d m where
  proper := hp
  way q hq hqm := by
    rcases h with rfl | ⟨n, hn, _⟩
    · exact absurd (List.prefix_nil.mp hq) hqm
    · exact Or.inl (Disk.isDirAt_above hq hqm (by rw [hn]; rfl))
  last t ht := by
    rcases h with rfl | ⟨n, hn, hlink⟩
    · exact Disk.get_ne_nil ht rfl
    · rw [ht, Option.some.injEq] at hn
      subst hn
      cases hlink

/-- Below a missing name all is missing. -/
theorem clear_of_missing {x : Name} {xs : List Name} (hp : Proper (l ++ x :: xs))
    (hl : d.IsDirAt l) (hx : d.get (l ++ [x]) = none) : Clear d (l ++ x :: xs) := by
  have hnot : ¬ d.IsDirAt (l ++ [x]) := by
    rintro (h0 | ⟨a, ha⟩)
    · simp at h0
    · rw [hx] at ha; cases ha
  have hbelow : ∀ ys, d.get (l ++ x :: ys) = none := by
    intro ys
    by_cases hys : ys = []
    · rw [hys]; exact hx
    · rw [List.append_cons]
      exact Disk.get_below_none hnot hys
  refine ⟨hp, fun q hq _ => ?_, fun t ht => ?_⟩
  · rcases List.prefix_or_prefix_of_prefix hq (List.prefix_append l (x :: xs)) with h1 | ⟨r, rfl⟩
    · exact Or.inl (hl.above h1)
    · rw [List.prefix_append_right_inj, List.prefix_cons_iff] at hq
      rcases hq with rfl | ⟨ys, rfl, _⟩
      · exact Or.inl (by rwa [List.append_nil])
      · exact Or.inr (hbelow ys)
  · rw [hbelow] at ht
    cases ht

/-- What `resolve` gives is reached without a link, or the path came to a
dead link. -/
theorem resolve_clear (hp : Proper p) (h : resolve d p = .ok real) :
    Clear d real ∨ DeadLinkAt d p real := by
  obtain ⟨cur, xs, l, rfl, hl, rfl, hnext⟩ := resolve_parts h
  obtain ⟨hpc, hpx⟩ := proper_append.mp hp
  obtain ⟨hplain, hpl⟩ := walk_ok 255 (Or.inl rfl) (by simp [Proper]) hl
  cases xs with
  | nil =>
    rw [List.append_nil]
    exact Or.inl (clear_of_plain hpl hplain)
  | cons x xs =>
    have hmiss := hnext x xs rfl
    obtain ⟨hdir, hdead⟩ := walk_snoc 255 (hpx x List.mem_cons_self) (Or.inl rfl) hl hmiss
    rcases hdead with hnone | ⟨t, _, ht, _⟩
    · exact Or.inl (clear_of_missing (proper_append.mpr ⟨hpl, hpx⟩) hdir hnone)
    · exact Or.inr ⟨cur, x, xs, l, t, rfl, hl, hmiss, ht, rfl⟩

/-- Two cuts of a path, each where the walk stops: they are the same cut. -/
theorem cut_eq {cur cur' xs xs' : List Name} {x : Name} (hcut : cur ++ x :: xs = cur' ++ xs')
    (hl : evalSymlinks d cur = .ok l) (hx : evalSymlinks d (cur ++ [x]) = .error .noent)
    (hl' : evalSymlinks d cur' = .ok m)
    (hx' : ∀ y ys, xs' = y :: ys → evalSymlinks d (cur' ++ [y]) = .error .noent) : cur = cur' := by
  have hpre : cur' <+: cur ++ x :: xs := ⟨xs', hcut.symm⟩
  rcases List.prefix_or_prefix_of_prefix hpre (List.prefix_append cur (x :: xs)) with
    ⟨ys, rfl⟩ | ⟨ys, rfl⟩
  · cases ys with
    | nil => simp
    | cons y ys =>
      have hy : xs' = y :: (ys ++ x :: xs) := by simpa using hcut.symm
      have hdead : walk d false 255 [] (cur' ++ [y] ++ ys) ≠ .ok l := walk_dead 255 255 (hx' y _ hy)
      rw [List.append_assoc, List.singleton_append] at hdead
      exact absurd hl hdead
  · cases ys with
    | nil => simp
    | cons y ys =>
      have hy : x = y ∧ xs = ys ++ xs' := by simpa using hcut
      rw [hy.1] at hx
      have hdead : walk d false 255 [] (cur ++ [y] ++ ys) ≠ .ok m := walk_dead 255 255 hx
      rw [List.append_assoc, List.singleton_append] at hdead
      exact absurd hl' hdead

/-- At a dead link `resolve` stops: the link is in what it gives. -/
theorem resolve_dead (h : resolve d p = .ok real) (hdead : DeadLinkAt d p place) :
    place = real ∧ ∃ q t, q <+: real ∧ d.get q = some (.link t) := by
  obtain ⟨cur', xs', l', hcut, hl', rfl, hnext⟩ := resolve_parts h
  obtain ⟨cur, x, xs, l, t, rfl, hl, hx, ht, rfl⟩ := hdead
  obtain rfl := cut_eq hcut hl hx hl' hnext
  rw [hl, Except.ok.injEq] at hl'
  subst hl'
  obtain rfl := List.append_cancel_left hcut
  exact ⟨rfl, l ++ [x], t, by simp, ht⟩

theorem check_resolve (h : check pol d raw write = .ok real) :
    Proper (clean raw).parts ∧ resolve d (clean raw).parts = .ok real ∧
      verdict pol d real write = .ok real := by
  unfold check at h
  split at h
  · rename_i habs
    refine ⟨clean_proper habs, ?_⟩
    unfold checkPath at h
    split at h
    · cases h
    · rename_i l hl
      obtain ⟨rfl, _⟩ := verdict_ok h
      exact ⟨hl, h⟩
  · cases h

/-! ## The place that was checked -/

/-- In one of the writable roots or, for reading, also in one of the others. -/
def Inside (pol : Policy) (d : Disk) (write : Bool) (l : Loc) : Prop :=
  inWritable pol d l = true ∨ write = false ∧ pol.readOnly.any (inRoot d l) = true

theorem verdict_inside (h : verdict pol d real write = .ok q) : Inside pol d write real := by
  unfold verdict at h
  split at h
  · cases h
  · split at h
    · cases h
    · split at h
      · exact Or.inl ‹_›
      · split at h
        · rename_i hro
          simp only [Bool.and_eq_true, Bool.not_eq_true'] at hro
          exact Or.inr hro
        · cases h

/-- The path has no link in it and, all links followed, ends inside. -/
structure Safe (pol : Policy) (d : Disk) (write : Bool) (real : Loc) : Prop where
  ends : ∃ l, Denotes d real l ∧ Inside pol d write l
  bare : ∀ q t, q <+: real → d.get q ≠ some (.link t)

/-- What a check gives is safe exactly when the path did not come to a dead
link. -/
theorem check_safe (h : check pol d raw write = .ok real) :
    Safe pol d write real ↔ ∀ place, ¬ DeadLinkAt d (clean raw).parts place := by
  obtain ⟨hp, hres, hverdict⟩ := check_resolve h
  constructor
  · intro hsafe place hdead
    obtain ⟨_, q, t, hq, ht⟩ := resolve_dead hres hdead
    exact hsafe.bare q t hq ht
  · intro hno
    have hclear := (resolve_clear hp hres).resolve_right (hno real)
    exact ⟨⟨real, hclear.denotes, verdict_inside hverdict⟩, fun q t hq => hclear.bare hq t⟩

/-- The site with a link to a file of another service, which is not there yet. -/
def leakyDisk : Disk :=
  webDisk.put ["var", "www", "out"] (.link ⟨true, ["etc", "cron.d"]⟩)

/-- The link itself is dead. -/
theorem out_safe : Safe webPolicy leakyDisk true ["var", "www", "out"] ↔
    ∀ place, ¬ DeadLinkAt leakyDisk (clean "/var/www/out").parts place :=
  check_safe (by decide +kernel : check webPolicy leakyDisk "/var/www/out" true = .ok ["var", "www", "out"])

/-- A dead link of the site passes the check for writing, as itself. -/
theorem dead_link_passes :
    ¬ ∀ pol d raw write real, check pol d raw write = .ok real → Safe pol d write real := by
  intro h
  have hcheck : check webPolicy leakyDisk "/var/www/out" true = .ok ["var", "www", "out"] := by
    decide +kernel
  have hlink : leakyDisk.get ["var", "www", "out"] = some (.link ⟨true, ["etc", "cron.d"]⟩) := by
    decide +kernel
  exact (h _ _ _ _ _ hcheck).bare _ _ (List.prefix_refl _) hlink

end icsd_panel.escapes

-- Hidden files in homes, over whole runs of requests: the check of a path for
-- writing keeps new content out of them, but a rename looks at its own two
-- paths only, not at what it takes along, and no check looks at the links that
-- lead from a home to another place.
import IcsdPanel.Denied

open effects

namespace icsd_panel.planted

open paths disk ways machine policy files archives requests deeds runs denied

/-- The path of a hidden entry of a home, or of what is below one. -/
def Hidden (p : Loc) : Prop := Proper p ∧ homeDotfile p = true

/-- No hidden path of a home leads to a file of the panel. -/
def NonePlanted (d : Disk) : Prop := ∀ p l f, Hidden p → Leads p l f d → f.byPanel = false

/-- No hidden path comes to the place by way of a link. -/
def Aside (d : Disk) (q : Loc) : Prop := ∀ p, Hidden p → q ∈ way d p → q <+: p

/-- No hidden path comes by way of a link to what would be made on the way to
`real`. -/
def Fresh (d : Disk) (real : Loc) : Prop := ∀ q, q <+: real → ¬ d.IsDirAt q → Aside d q

/-- What a rename must not do: hide a file of the panel, move a link to where
hidden paths pass, or move anything to where one comes by way of a link. -/
structure MovesNothing (d : Disk) (s t : Loc) : Prop where
  aside : Aside d t
  shown : ∀ r f, d.get (s ++ r) = some (.file f) → f.byPanel = true → homeDotfile (t ++ r) = false
  bare : ∀ r target, d.get (s ++ r) = some (.link target) → ∀ p, Hidden p → ¬ t ++ r <+: p

/-- What a request must not do: put its temporary file directly in a home, make
a file or a directory where a hidden path comes by way of a link, or rename
what would be hidden then. -/
def PlantsNothing (c : Codec) (pol : Policy) (d : Disk) (er : Env × Request) : Prop :=
  match er.2 with
  | .write i => ∀ real data, admitWrite pol d i = .ok (real, data) → d.IsDirAt real.dropLast →
      (i.offset = 0 ∨ (findUpload d real.dropLast i.upload).isOk) → (∀ u, real.dropLast ≠ ["home", u]) ∧
        Aside d real ∧ ∀ n, TempName d i real.dropLast n → Aside d (real.dropLast ++ [n])
  | .mkdir i => ∀ real, check pol d i.path true = .ok real → Fresh d real
  | .rename i => ∀ s t, admitRename pol d i = .ok (s, t) → MovesNothing d s t
  | .archive i => ∀ real, check pol d i.dest true = .ok real → Aside d (archiveDest real)
  | .extract i => (∀ dest, check pol d i.dest true = .ok dest → Fresh d dest) ∧
      ∀ dest m d1 real, ComesTo c pol er.1 d i dest m d1 →
        checkPath pol d1 (dest ++ memberParts m.name) true = .ok real → Fresh d1 real
  | _ => True

variable {c : Codec} {pol : Policy} {d d' d0 d1 : Disk} {e : Env} {real l p q s t : Loc} {δ : Deed} {n : Name}
  {f : FileData} {m : Node}

/-! ## The way of a hidden path -/

/-- Where no link is on a hidden path, none comes to any place by way of one. -/
theorem aside_of_bare (h : ∀ p, Hidden p → ∀ u, u <+: p → ∀ target, d.get u ≠ some (.link target)) : Aside d q :=
  fun p hp => way_straight hp.1 (h p hp) q

/-- New directories, and a new file, on the way to `real` lead no other path to
a place, when no hidden path comes to them by way of a link. -/
theorem Aside.paved (h : Aside d1 q) (hp : Paved d1 d real)
    (hfresh : ∀ v, v <+: real → d1.get v = none → Aside d1 v) : Aside d q := by
  intro p hhid hq
  by_cases hsame : ∀ v ∈ way d1 p, SameShape d1 d v
  · have hway : way d p = way d1 p := way_same hsame
    rw [hway] at hq
    exact h p hhid hq
  · simp only [not_forall] at hsame
    obtain ⟨v, hv, hdiff⟩ := hsame
    have hnone : d1.get v = none := by
      by_contra hsome
      obtain ⟨n, hn⟩ := Option.ne_none_iff_exists'.mp hsome
      obtain ⟨n', hn', hshape⟩ := hp.1 v n hn
      refine hdiff ?_
      unfold SameShape
      rw [hn, hn']
      exact congrArg some hshape
    obtain ⟨n, hn⟩ : ∃ n, d.get v = some n := by
      cases hn : d.get v with
      | some n => exact ⟨n, rfl⟩
      | none =>
        refine absurd ?_ hdiff
        unfold SameShape
        rw [hn, hnone]
    obtain ⟨r, rfl⟩ := hfresh v (hp.2 v n hnone hn).1 hnone p hhid hv
    -- above `v` are directories, and from `v` on all is new
    refine way_straight hhid.1 (fun u hu target hlink => ?_) q hq
    rcases List.prefix_or_prefix_of_prefix hu (List.prefix_append v r) with huv | hvu
    · by_cases heq : u = v
      · subst heq
        have hbare := (hp.2 u n hnone hn).2
        rw [hn] at hlink
        cases hlink
        cases hbare
      · rcases Disk.isDirAt_above huv heq (by rw [hn]; rfl) with h0 | ⟨a, ha⟩
        · rw [h0] at hlink
          exact Disk.get_ne_nil hlink rfl
        · rw [ha] at hlink
          cases hlink
    · have hnew : d1.get u = none := by
        obtain ⟨r', rfl⟩ := hvu
        by_cases hr' : r' = []
        · rw [hr', List.append_nil]
          exact hnone
        · exact Disk.get_below_none (notDir_of_none (Disk.get_ne_nil hn) hnone) hr'
      cases (hp.2 u _ hnew hlink).2

/-- In a directory no more than the last name of a place is missing. -/
theorem Aside.missing {v : Loc} (h : Aside d q) (hdir : d.IsDirAt q.dropLast) (hv : v <+: q) (hnone : d.get v = none) :
    Aside d v := by
  rcases List.eq_nil_or_concat q with rfl | ⟨a, x, rfl⟩
  · rw [List.prefix_nil.mp hv]
    exact h
  · rw [List.concat_eq_append] at h hdir hv
    rw [List.dropLast_concat] at hdir
    rcases prefix_concat_iff.mp hv with rfl | hpre
    · exact h
    · rcases hdir.above hpre with rfl | ⟨b, hb⟩
      · exact fun p _ _ => List.nil_prefix
      · rw [hnone] at hb
        cases hb

/-- A hidden path that meets no link leads to its own place. -/
theorem leads_self (hp : Hidden p) (hno : ∀ u, u <+: p → ∀ target, d.get u ≠ some (.link target))
    (h : Leads p l f d) : l = p := by
  refine walk_straight 40 hp.1 (fun ys n hys hn _ => ?_) h.follow.1
  rw [List.nil_append] at hn
  cases n with
  | link target => exact absurd hn (hno ys hys target)
  | _ => rfl

/-! ## Changes that plant nothing -/

/-- What is on the new disk was on the old one, and was no file of the panel
that it is not now. -/
theorem none_less (h : NonePlanted d) (hless : ∀ q n', d'.get q = some n' → ∃ n, d.get q = some n ∧ n.shape = n'.shape ∧
    ∀ f', n' = .file f' → ∃ f, n = .file f ∧ f.byPanel = f'.byPanel) : NonePlanted d' := by
  intro p l f' hp hl
  obtain ⟨hfollow, hget⟩ := hl.follow
  obtain ⟨n, hn, -, hfile⟩ := hless l _ hget
  obtain ⟨f, rfl, hmark⟩ := hfile f' rfl
  have hgrow : Grows d' d := fun q n' hq => by
    obtain ⟨n, hn, hshape, -⟩ := hless q n' hq
    exact ⟨n, hn, hshape⟩
  rw [← hmark]
  exact h p l f hp (leads_of (walk_grow hgrow hfollow) hn)

theorem none_fewer (h : NonePlanted d) (hfewer : ∀ q n, d'.get q = some n → d.get q = some n) : NonePlanted d' :=
  none_less h fun q n hn => ⟨n, hfewer q n hn, rfl, fun f hf => ⟨f, hf, rfl⟩⟩

theorem none_remove (h : NonePlanted d) : NonePlanted (d.remove q) := by
  refine none_fewer h fun u n hn => ?_
  by_cases hnames : d.names q = []
  · rw [Disk.get_remove hnames] at hn
    split at hn
    · cases hn
    · exact hn
  · unfold Disk.remove at hn
    rwa [dif_neg hnames] at hn

theorem none_clear {stuck : Option Loc} (h : NonePlanted d) : NonePlanted (d.removeBelow q stuck) := by
  refine none_fewer h fun u n hn => ?_
  rw [Disk.get_removeBelow] at hn
  split at hn
  · cases hn
  · exact hn

/-- A change at or below `t` only: a path that does not come there leads where
it led. -/
theorem leads_elsewhere (hold : ∀ u n, d'.get u = some n → ¬ t <+: u → d.get u = some n)
    (hno : ∀ v ∈ way d' p, ¬ t <+: v) (h : Leads p l f d') : Leads p l f d := by
  obtain ⟨hfollow, hget⟩ := h.follow
  have hsame : ∀ v ∈ way d' p, d.get v = d'.get v := by
    intro v hv
    obtain ⟨n, hn⟩ := Option.isSome_iff_exists.mp (way_onward hfollow v hv).there
    rw [hn]
    exact hold v n hn (hno v hv)
  refine leads_of ((walk_same fun v hv => congrArg _ (hsame v hv)).trans hfollow) ?_
  rw [hsame l (way_last hget (Or.inl rfl) hfollow)]
  exact hget

theorem none_put (h : NonePlanted d) (haside : Aside d q) (hshown : homeDotfile q = false) (hnew : ¬ d.IsDirAt q)
    (hbare : m.isLink = false) : NonePlanted (d.put q m) := by
  intro p l f hp hl
  by_cases hfit : d.Fits q m
  rotate_left
  · unfold Disk.put at hl
    rw [dif_neg hfit] at hl
    exact h p l f hp hl
  have hself : (d.put q m).get q = some m := Disk.get_put_self hfit
  have hold : ∀ u n, (d.put q m).get u = some n → ¬ q <+: u → d.get u = some n := by
    intro u n hn hu
    rwa [Disk.get_put_ne] at hn
    rintro rfl
    exact hu (List.prefix_refl _)
  by_cases hin : ∃ v ∈ way (d.put q m) p, q <+: v
  · obtain ⟨v, hv, hpre⟩ := hin
    have hqp := haside p hp (way_entry hold hfit.1 hpre hv)
    -- nothing is below `q`, so the path ends there
    have hbelow : ∀ r, r ≠ [] → (d.put q m).get (q ++ r) = none := by
      intro r hr
      rw [Disk.get_put_ne fun heq => hr (List.append_right_eq_self.mp heq)]
      exact Disk.get_below_none hnew hr
    have hlp : l = p := by
      refine leads_self hp (fun u hu target hlink => ?_) hl
      rcases List.prefix_or_prefix_of_prefix hu hqp with huq | hqu
      · by_cases heq : u = q
        · rw [heq, hself] at hlink
          cases hlink
          cases hbare
        · rcases Disk.isDirAt_above huq heq (by rw [hself]; rfl) with h0 | ⟨a, ha⟩
          · rw [h0] at hlink
            exact Disk.get_ne_nil hlink rfl
          · rw [ha] at hlink
            cases hlink
      · obtain ⟨r, rfl⟩ := hqu
        by_cases hr : r = []
        · rw [hr, List.append_nil, hself] at hlink
          cases hlink
          cases hbare
        · rw [hbelow r hr] at hlink
          cases hlink
    have hget := hl.follow.2
    obtain ⟨r, rfl⟩ := hqp
    rw [hlp] at hget
    by_cases hr : r = []
    · have hhid := hp.2
      rw [hr, List.append_nil, hshown] at hhid
      cases hhid
    · rw [hbelow r hr] at hget
      cases hget
  · exact h p l f hp (leads_elsewhere hold (fun v hv hpre => hin ⟨v, hv, hpre⟩) hl)

theorem none_move (h : NonePlanted d) (hm : MovesNothing d s t) : NonePlanted (d.move s t) := by
  intro p l f hhid hl
  by_cases hmove : s ≠ [] ∧ t ≠ [] ∧ Proper t ∧ d.IsDirAt t.dropLast ∧ ¬ s <+: t
  rotate_left
  · unfold Disk.move at hl
    rw [dif_neg hmove] at hl
    exact h p l f hhid hl
  obtain ⟨hs, ht, hp, hdir, hst⟩ := hmove
  have hold : ∀ u n, (d.move s t).get u = some n → ¬ t <+: u → d.get u = some n := by
    intro u n hn hu
    rw [Disk.get_move hs ht hp hdir hst, if_neg hu] at hn
    split at hn
    · cases hn
    · exact hn
  have hmoved : ∀ r n, (d.move s t).get (t ++ r) = some n → d.get (s ++ r) = some n := by
    intro r n hn
    rwa [Disk.get_move hs ht hp hdir hst, if_pos (List.prefix_append t r), List.drop_left] at hn
  by_cases hin : ∃ v ∈ way (d.move s t) p, t <+: v
  · obtain ⟨v, hv, hpre⟩ := hin
    have hthere := (way_onward hl.follow.1 v hv).there
    obtain ⟨r, rfl⟩ := hm.aside p hhid (way_entry hold ht hpre hv)
    have hlp : l = t ++ r := by
      refine leads_self hhid (fun u hu target hlink => ?_) hl
      rcases List.prefix_or_prefix_of_prefix hu (List.prefix_append t r) with hut | htu
      · by_cases heq : u = t
        · subst heq
          have := hmoved [] (.link target) (by rwa [List.append_nil])
          refine hm.bare [] target this (u ++ r) hhid ?_
          rw [List.append_nil]
          exact List.prefix_append u r
        · have hne : u ≠ v := fun huv => heq (hut.eq_of_length_le (huv ▸ hpre.length_le))
          rcases Disk.isDirAt_above (hut.trans hpre) hne hthere with h0 | ⟨a, ha⟩
          · rw [h0] at hlink
            exact Disk.get_ne_nil hlink rfl
          · rw [ha] at hlink
            cases hlink
      · obtain ⟨r', rfl⟩ := htu
        exact hm.bare r' target (hmoved r' _ hlink) (t ++ r) hhid hu
    have hget := hl.follow.2
    rw [hlp] at hget
    by_contra hmark
    have hshown := hm.shown r f (hmoved r _ hget) (by simpa using hmark)
    have hdot := hhid.2
    rw [hshown] at hdot
    cases hdot
  · exact h p l f hhid (leads_elsewhere hold (fun v hv hpre => hin ⟨v, hv, hpre⟩) hl)

/-! ## Hidden entries -/

theorem shown_above (h : q <+: l) (hl : homeDotfile l = false) : homeDotfile q = false := by
  by_contra hq
  rw [homeDotfile_below h (by simpa using hq)] at hl
  cases hl

/-- A new name hides nothing, outside of the homes themselves. -/
theorem shown_concat (hl : homeDotfile l = false) (hhome : ∀ u, l ≠ ["home", u]) :
    homeDotfile (l ++ [n]) = false := by
  match l with
  | [] => rfl
  | [_] => rfl
  | [h, u] =>
    simp only [List.cons_append, List.nil_append, homeDotfile, Bool.and_eq_false_iff,
      decide_eq_false_iff_not]
    left
    rintro rfl
    exact hhome u rfl
  | h :: u :: x :: rest => exact hl

theorem suffix_shown (n suf : Name) (hn : n ≠ "") : hasPrefix (n ++ suf) "." = hasPrefix n "." := by
  unfold hasPrefix
  rw [String.toList_append]
  cases hl : n.toList with
  | nil => exact absurd (String.toList_injective (by rw [hl]; rfl)) hn
  | cons ch chs => simp [List.isPrefixOf]

theorem archiveDest_shown (hp : Proper real) (h : homeDotfile real = false) :
    homeDotfile (archiveDest real) = false := by
  unfold archiveDest
  split
  · exact h
  · unfold appendText
    split
    · rfl
    · rename_i last hlast
      obtain ⟨ys, rfl⟩ := List.getLast?_eq_some_iff.mp hlast
      have hne : last ≠ "" := fun h0 => (hp last (by simp)).1 (Or.inl h0)
      rw [List.dropLast_concat]
      match ys with
      | [] => rfl
      | [_] => rfl
      | [home, u] =>
        simp only [List.cons_append, List.nil_append, homeDotfile] at h ⊢
        rw [suffix_shown last tarGzSuffix hne]
        exact h
      | home :: u :: x :: rest => exact h

/-! ## One request -/

/-- A node of the same kind, and a file with the same mark, in the place of
another. -/
theorem none_over {m0 : Node} (h : NonePlanted d) (hold : d.get q = some m0) (hshape : m0.shape = m.shape)
    (hmark : ∀ f', m = .file f' → ∃ f, m0 = .file f ∧ f.byPanel = f'.byPanel) : NonePlanted (d.put q m) := by
  refine none_less h fun u n' hn' => ?_
  by_cases hu : u = q
  · subst hu
    by_cases hfit : d.Fits u m
    · rw [Disk.get_put_self hfit] at hn'
      cases hn'
      exact ⟨m0, hold, hshape, hmark⟩
    · unfold Disk.put at hn'
      rw [dif_neg hfit] at hn'
      exact ⟨n', hn', rfl, fun f hf => ⟨f, hf, rfl⟩⟩
  · rw [Disk.get_put_ne hu] at hn'
    exact ⟨n', hn', rfl, fun f hf => ⟨f, hf, rfl⟩⟩

theorem write_plants {i : WriteArgs} (h : PlantsNothing c pol d0 (e, .write i))
    (hd : NonePlanted d) (hδ : WriteDeed pol d0 i d δ) : NonePlanted (δ.apply d) := by
  have hclear : ∀ {real n}, Writing pol d0 i real n d → Cleared pol d0 real := by
    intro real n hw
    obtain ⟨data, hadm⟩ := hw.admitted
    exact check_cleared (admitWrite_check hadm)
  have hcond : ∀ {real n}, Writing pol d0 i real n d → (∀ u, real.dropLast ≠ ["home", u]) ∧ Aside d0 real ∧
      Aside d0 (real.dropLast ++ [n]) := by
    intro real n hw
    obtain ⟨data, hadm⟩ := hw.admitted
    have hfound : i.offset = 0 ∨ (findUpload d0 real.dropLast i.upload).isOk := by
      have ht := hw.temp
      unfold TempName at ht
      split at ht
      · exact Or.inl ‹_›
      · obtain ⟨rfl, hok⟩ := ht
        exact Or.inr (by rw [hok]; rfl)
    obtain ⟨h1, h2, h3⟩ := h real data hadm hw.dir hfound
    exact ⟨h1, h2, h3 n hw.temp⟩
  -- what is new on the disk is the temporary file
  have haside : ∀ {real n q}, Writing pol d0 i real n d → Aside d0 q → Aside d q := by
    intro real n q hw hq
    exact hq.paved hw.paved (fun _ => (hcond hw).2.2.missing (by rw [List.dropLast_concat]; exact hw.dir))
  have htemp : ∀ {real n}, Writing pol d0 i real n d → homeDotfile (real.dropLast ++ [n]) = false := fun {real n} hw =>
    shown_concat (shown_above (List.dropLast_prefix real) (hclear hw).notHome) (hcond hw).1
  cases hδ with
  | create hw _ _ hn =>
    exact none_put hd (haside hw (hcond hw).2.2) (htemp hw) (notDir_of_none (by simp) hn) rfl
  | update hw hold =>
    obtain ⟨f0, hf0⟩ := hold
    exact none_put hd (haside hw (hcond hw).2.2) (htemp hw) (notDir_of_leaf hf0 rfl) rfl
  | remove hw _ => exact none_remove hd
  | @move real n hw hold hto =>
    obtain ⟨f0, hf0⟩ := hold
    -- nothing is below the temporary file
    have hone : ∀ r m, d.get (real.dropLast ++ [n] ++ r) = some m → r = [] ∧ m = .file f0 := by
      intro r m hm
      by_cases hr : r = []
      · rw [hr, List.append_nil, hf0] at hm
        exact ⟨hr, (Option.some.inj hm).symm⟩
      · rw [Disk.get_below_none (notDir_of_leaf hf0 rfl) hr] at hm
        cases hm
    have hmoves : MovesNothing d (real.dropLast ++ [n]) real := by
      refine ⟨haside hw (hcond hw).2.1, fun r f hf _ => ?_, fun r target hlink => ?_⟩
      · rw [(hone r _ hf).1, List.append_nil]
        exact (hclear hw).notHome
      · cases (hone r _ hlink).2
    exact none_move hd hmoves

theorem grow_plants (hfresh : Fresh d1 real) (hreal : homeDotfile real = false) (hd : NonePlanted d)
    (h : GrowDeed d1 real d δ) : NonePlanted (δ.apply d) := by
  have hnew : ∀ {v}, v <+: real → d1.get v = none → Aside d1 v := by
    intro v hv hnone
    by_cases hdir : d1.IsDirAt v
    · rcases hdir with rfl | ⟨a, ha⟩
      · exact fun p _ _ => List.nil_prefix
      · rw [hnone] at ha
        cases ha
    · exact hfresh v hv hdir
  have haside : ∀ {q}, Paved d1 d real → q <+: real → ¬ d.IsDirAt q → Aside d q := fun hp hq hdir =>
    (hfresh _ hq fun hd1 => hdir (hp.1.isDirAt hd1)).paved hp fun v hv hnone => hnew hv hnone
  cases h with
  | dir hp hq hne _ hnone _ =>
    have hdir := notDir_of_none hne hnone
    exact none_put hd (haside hp hq hdir) (shown_above hq hreal) hdir rfl
  | newFile hp hne hnone _ =>
    have hdir := notDir_of_none hne hnone
    exact none_put hd (haside hp (List.prefix_refl _) hdir) hreal hdir rfl
  | oldFile hp hold =>
    have hdir : ¬ d.IsDirAt real := notDir_of_leaf hold rfl
    exact none_put hd (haside hp (List.prefix_refl _) hdir) hreal hdir rfl
  | oldDir _ hold => exact none_over hd hold rfl fun _ hm => nomatch hm

theorem dest_plants {dest : Loc} (haside : Aside d0 dest) (hshown : homeDotfile dest = false)
    (hres : Resolved d0 dest.dropLast) (hd : NonePlanted d) (h : DestDeed d0 dest d δ) : NonePlanted (δ.apply d) := by
  cases h with
  | create hd0 he hn =>
    subst hd0
    obtain ⟨rfl, hne, -⟩ := Resolved.entryAt hres he
    exact none_put hd haside hshown (notDir_of_none hne hn) rfl
  | update he hone =>
    obtain ⟨rfl, -, hdir⟩ := Resolved.entryAt hres he
    obtain ⟨f0, hf0⟩ := hone.2.1
    exact none_put hd (haside.paved hone.paved (fun _ => haside.missing hdir)) hshown (notDir_of_leaf hf0 rfl) rfl
  | remove _ _ _ _ => exact none_remove hd

theorem request_plants {r : Request} (h : PlantsNothing c pol d0 (e, r)) (hd : NonePlanted d)
    (hδ : RequestDeed pol d0 d r δ) : NonePlanted (δ.apply d) := by
  cases hδ with
  | write hδ => exact write_plants h hd hδ
  | abort hδ =>
    cases hδ
    exact none_remove hd
  | mkdir hδ =>
    obtain ⟨hcheck, hgrow, _⟩ := hδ
    exact grow_plants (h _ hcheck) (check_cleared hcheck).notHome hd hgrow
  | rename hδ =>
    obtain ⟨rfl, hadm, _, _, _, _⟩ := hδ
    exact none_move hd (h _ _ hadm)
  | @chmod i δ hδ =>
    obtain ⟨rfl, hcheck, hn, hsame⟩ := hδ
    rename_i real m0 m
    by_cases hreal : real = []
    · subst hreal
      have hself : d.put [] m = d := by
        unfold Disk.put
        rw [dif_neg fun hfit => hfit.1 rfl]
      exact hself ▸ hd
    · rw [Disk.look, if_neg hreal] at hn
      refine none_over hd hn (by cases hsame <;> rfl) fun f' hf' => ?_
      subst hf'
      cases hsame
      exact ⟨_, rfl, rfl⟩
  | archive hδ =>
    obtain ⟨hcheck, hdest⟩ := hδ
    have hclear := check_cleared hcheck
    refine dest_plants (h _ hcheck) (archiveDest_shown hclear.resolved.1 hclear.notHome) ?_ hd hdest
    rw [archiveDest_dropLast]
    exact hclear.resolved.above (List.dropLast_prefix _)

theorem none_of_plantsNothing {er : Env × Request} (h : PlantsNothing c pol d er)
    (hd : NonePlanted d) :
    Always NonePlanted (served c pol d er) ∧ NonePlanted (next c pol d er) := by
  obtain ⟨e, r⟩ := er
  have hfine : Fine ⟨fun d δ => NonePlanted d → NonePlanted (δ.apply d), fun _ => True, d⟩
      (served c pol d (e, r)) := by
    refine handle_fine rfl (fun _ _ => trivial) (fun d' δ hδ hd' => request_plants h hd' hδ) ?_ ?_
    · rintro paths rfl p d1 q stuck _ _ hd'
      exact none_clear hd'
    · rintro i rfl
      refine ⟨fun dest d' δ hdest hgrow hd' => ?_, fun dest m d1 real d' δ hm hreal hgrow hd' => ?_,
        fun _ _ _ _ _ _ _ _ => trivial⟩
      · exact grow_plants (h.1 dest hdest) (check_cleared hdest).notHome hd' hgrow
      · have hp : Proper (dest ++ memberParts m.name) :=
          proper_append.mpr ⟨(check_cleared hm.checked).resolved.1, memberParts_proper m.name⟩
        exact grow_plants (h.2 dest m d1 real hm hreal) (checkPath_cleared hp hreal).notHome hd' hgrow
  have hfirst : NonePlanted (served c pol d (e, r)).first := by
    rw [hfine.first]
    exact hd
  obtain ⟨hlaw, hend⟩ := hfine.lawful.given (F := NonePlanted)
    (B := fun d δ => NonePlanted (δ.apply d)) (fun _ _ hA hF => hA hF) (fun _ _ hB _ => hB) hfirst
  exact ⟨⟨hfirst, hlaw⟩, hend⟩

/-! ## Runs -/

theorem bare_of_known (h : ∀ u ∈ d.tree.known, ((d.get u).any Node.isLink) = false) (u : Loc) (target : Target) :
    d.get u ≠ some (.link target) := by
  intro hlink
  have hknown := h u (d.tree.covers u (by rw [← Disk.get, hlink]; rfl))
  rw [hlink] at hknown
  cases hknown

theorem aside_of_known (h : ∀ u ∈ d.tree.known, ((d.get u).any Node.isLink) = false) : Aside d q :=
  aside_of_bare fun _ _ u _ => bare_of_known h u

def emptyHomes : Disk := Disk.bare.put ["home"] (.dir ⟨0o755, 0, 0⟩)

theorem emptyHomes_none : NonePlanted emptyHomes := by
  intro p l f _ hl
  have hget := hl.follow.2
  unfold emptyHomes at hget
  rw [Disk.get_put (by decide)] at hget
  split at hget
  · cases hget
  · cases hget

/-- The folder of a site in a home, made by the panel, with a page in it, and
its new name. -/
def buildSite : List (Env × Request) :=
  [(calm 0 [], .mkdir ⟨"/home/ann/site", true⟩),
    (calm 0 [], .write ⟨"/home/ann/site/page", some [1], 0, true, "", 0⟩),
    (calm 0 [], .rename ⟨"/home/ann/site", "/home/ann/web"⟩)]

/-- A home that is built elsewhere, with a profile in it, and then renamed. -/
def buildHome : List (Env × Request) :=
  [(calm 0 [], .mkdir ⟨"/home/work/new", true⟩),
    (calm 0 [], .write ⟨"/home/work/new/.profile", some [1], 0, true, "", 0⟩),
    (calm 0 [], .rename ⟨"/home/work/new", "/home/bob"⟩)]

end icsd_panel.planted

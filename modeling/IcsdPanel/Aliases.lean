-- The places that no request may touch, under their other names. The rules
-- judge the real path by its names: where a link leads from `/home` or `/etc`
-- to a root, the protected place has another name there, and passes.
import IcsdPanel.Escapes

namespace icsd_panel.aliases

open paths disk machine policy escapes

variable {pol : Policy} {d : Disk} {p q r l m real place : Loc} {raw : String} {write : Bool}

/-! ## The location of a path -/

theorem farParts_more {on on' : Loc → List Name → Option Loc} {cs : List Name}
    (hon : ∀ l cs, on l cs = some r → on' l cs = some r) (h : farParts d on l cs = some r) :
    farParts d on' l cs = some r := by
  induction cs generalizing l with
  | nil => exact h
  | cons c cs ih =>
    unfold farParts at h ⊢
    split at h
    · rw [if_pos ‹_›]
      exact ih h
    · rw [if_neg ‹_›]
      split at h
      · rw [if_pos ‹_›]
        exact ih h
      · rw [if_neg ‹_›]
        split at h
        · exact hon _ _ h
        · exact ih h

/-- With more links allowed the walk ends at the same location. -/
theorem far_more {k j : Nat} {cs : List Name} (hkj : k ≤ j) (h : far d k l cs = some r) :
    far d j l cs = some r := by
  induction k generalizing j l cs with
  | zero => cases j <;> exact farParts_more (fun _ _ h => by cases h) h
  | succ k ih =>
    cases j with
    | zero => omega
    | succ j => exact farParts_more (fun _ _ h => ih (by omega) h) h

/-- A path denotes one location. -/
theorem denotes_unique (hl : Denotes d p l) (hm : Denotes d p m) : l = m := by
  obtain ⟨k, hk⟩ := hl
  obtain ⟨j, hj⟩ := hm
  have hk' := far_more (Nat.le_max_left k j) hk
  rw [far_more (Nat.le_max_right k j) hj, Option.some.injEq] at hk'
  exact hk'.symm

theorem farParts_append {on : Loc → List Name → Option Loc} {k : Nat} {cs : List Name}
    (hk : ∀ l cs, far d k l cs = farParts d on l cs)
    (hon : ∀ l cs, on l cs = some r → ∃ j, ∀ ds, on l (cs ++ ds) = far d j r ds)
    (h : farParts d on l cs = some r) : ∃ j, ∀ ds, farParts d on l (cs ++ ds) = far d j r ds := by
  induction cs generalizing l with
  | nil =>
    simp only [farParts, Option.some.injEq] at h
    subst h
    exact ⟨k, fun ds => (hk _ _).symm⟩
  | cons c cs ih =>
    simp only [List.cons_append]
    unfold farParts at h ⊢
    split at h
    · simp only [if_pos ‹c = "" ∨ c = "."›]
      exact ih h
    · simp only [if_neg ‹¬ (c = "" ∨ c = ".")›]
      split at h
      · simp only [if_pos ‹c = ".."›]
        exact ih h
      · simp only [if_neg ‹¬ c = ".."›]
        split at h
        · obtain ⟨j, hj⟩ := hon _ _ h
          refine ⟨j, fun ds => ?_⟩
          simp only [← List.append_assoc]
          exact hj ds
        · exact ih h

/-- A walk goes on from where its first part ended. -/
theorem far_append {k : Nat} {cs : List Name} (h : far d k l cs = some r) :
    ∃ j, ∀ ds, far d k l (cs ++ ds) = far d j r ds := by
  induction k generalizing l cs with
  | zero => exact farParts_append (k := 0) (fun _ _ => rfl) (fun _ _ h => by cases h) h
  | succ k ih => exact farParts_append (k := k + 1) (fun _ _ => rfl) (fun _ _ h => ih h) h

theorem farParts_of_walk {on : Loc → List Name → Except Errno Loc}
    {on' : Loc → List Name → Option Loc} {cs : List Name}
    (hon : ∀ l cs, on l cs = .ok r → on' l cs = some r) (h : walkParts d false on l cs = .ok r) :
    farParts d on' l cs = some r := by
  induction cs generalizing l with
  | nil =>
    simp only [walkParts, Except.ok.injEq] at h
    rw [farParts, h]
  | cons c cs ih =>
    unfold walkParts at h
    unfold farParts
    split at h
    · rw [if_pos ‹_›]
      exact ih h
    · rw [if_neg ‹_›]
      split at h
      · rw [if_pos ‹_›]
        exact ih h
      · rw [if_neg ‹_›]
        rcases hn : d.get (l ++ [c]) with _ | (f | a | t | ⟨sk, a⟩) <;> rw [hn] at h
        · simp at h
        · simp only at h
          split at h
          · cases h
            simp [‹cs = []›, farParts]
          · cases h
        · exact ih h
        · exact hon _ _ h
        · simp only at h
          split at h
          · cases h
            simp [‹cs = []›, farParts]
          · cases h

/-- Where the system's own walk ends well, this one ends too. -/
theorem far_of_walk {k : Nat} {cs : List Name} (h : walk d false k l cs = .ok r) :
    far d k l cs = some r := by
  induction k generalizing l cs with
  | zero => exact farParts_of_walk (fun _ _ h => by cases h) h
  | succ k ih => exact farParts_of_walk (fun _ _ h => ih h) h

/-- What `resolve` gives denotes the location of the path. -/
theorem denotes_resolve (h : resolve d p = .ok real) (hm : Denotes d p m) : Denotes d real m := by
  obtain ⟨cur, xs, l, rfl, hl, rfl, _⟩ := resolve_parts h
  obtain ⟨k, hk⟩ := hm
  obtain ⟨hplain, hpl⟩ := walk_ok 255 (Or.inl rfl) (by simp [Proper]) hl
  have hcur : far d (max k 255) [] cur = some l :=
    far_more (Nat.le_max_right k 255) (far_of_walk hl)
  have hall := far_more (Nat.le_max_left k 255) hk
  obtain ⟨j, hj⟩ := far_append hcur
  rw [hj] at hall
  refine ⟨j, ?_⟩
  have hclear := clear_of_plain hpl hplain
  rw [far_straight (l := []) j hpl fun q t hq _ => hclear.bare hq t]
  exact hall

/-! ## The paths that `resolve` leaves as they are -/

theorem walkParts_noent {on : Loc → List Name → Except Errno Loc} {cs xs : List Name}
    (hon : ∀ l cs, on l cs = .error .noent → on l (cs ++ xs) = .error .noent)
    (h : walkParts d false on l cs = .error .noent) :
    walkParts d false on l (cs ++ xs) = .error .noent := by
  induction cs generalizing l with
  | nil => simp [walkParts] at h
  | cons c cs ih =>
    rw [List.cons_append]
    unfold walkParts at h ⊢
    split at h
    · rw [if_pos ‹_›]
      exact ih h
    · rw [if_neg ‹_›]
      split at h
      · rw [if_pos ‹_›]
        exact ih h
      · rw [if_neg ‹_›]
        rcases hget : d.get (l ++ [c]) with _ | (_ | a | t | _) <;> rw [hget] at h
        · simp
        · simp only at h
          split at h <;> cases h
        · exact ih h
        · simp only [← List.append_assoc]
          exact hon _ _ h
        · simp only at h
          split at h <;> cases h

/-- A walk that ends at a missing name does not see the names after it. -/
theorem walk_noent {k : Nat} {cs : List Name} (xs : List Name)
    (h : walk d false k l cs = .error .noent) : walk d false k l (cs ++ xs) = .error .noent := by
  induction k generalizing l cs with
  | zero => exact walkParts_noent (fun _ _ h => by cases h) h
  | succ k ih => exact walkParts_noent (fun _ _ h => ih h) h

theorem resolveRev_here {rest : List Name} (h : evalSymlinks d q = .ok l) :
    resolveRev d q.reverse rest = .ok (l ++ rest) := by
  rcases List.eq_nil_or_concat q with rfl | ⟨cs, x, rfl⟩
  · cases h
    rfl
  · rw [List.concat_eq_append] at h ⊢
    rw [List.reverse_append, List.reverse_singleton, List.singleton_append, resolveRev,
      List.reverse_reverse, h]

theorem resolveRev_up {rest : List Name} {n : Name} (h : evalSymlinks d (q ++ [n]) = .error .noent) :
    resolveRev d (q ++ [n]).reverse rest = resolveRev d q.reverse (n :: rest) := by
  rw [List.reverse_append, List.reverse_singleton, List.singleton_append, resolveRev,
    List.reverse_reverse, h]

theorem clear_above (h : Clear d m) (hq : q <+: m) : Clear d q where
  proper := proper_above hq h.proper
  way r hr hrq := h.way r (hr.trans hq) fun heq =>
    hrq (hr.eq_of_length_le (heq ▸ hq.length_le))
  last t := h.bare hq t

theorem clear_noent (h : Clear d m) (hne : m ≠ []) (hnone : d.get m = none) :
    evalSymlinks d m = .error .noent := by
  induction m using List.reverseRecOn with
  | nil => exact absurd rfl hne
  | append_singleton q n ih =>
    rcases h.way q (List.prefix_append q [n]) (by simp) with hdir | hq
    · exact walk_missing 255 (l := []) h.proper (by simpa using hdir) (by simpa using hnone)
    · by_cases hq0 : q = []
      · subst hq0
        have hwalk : walk d false 255 [] ([] ++ [n]) = .error .noent :=
          walk_missing 255 h.proper (Or.inl rfl) (by simpa using hnone)
        exact hwalk
      · exact walk_noent [n] (ih (clear_above h (List.prefix_append q [n])) hq0 hq)

theorem resolve_clear_self (h : Clear d m) : resolve d m = .ok m := by
  have hrev : ∀ rest, resolveRev d m.reverse rest = .ok (m ++ rest) := by
    induction m using List.reverseRecOn with
    | nil => exact fun rest => rfl
    | append_singleton q n ih =>
      intro rest
      cases hn : d.get (q ++ [n]) with
      | none =>
        rw [resolveRev_up (clear_noent h (by simp) hn),
          ih (clear_above h (List.prefix_append q [n]))]
        simp
      | some node =>
        refine resolveRev_here (walk_plain 255 h.proper (Or.inr ⟨node, hn, ?_⟩))
        cases node with
        | link t => exact absurd hn (h.last t)
        | _ => rfl
  unfold resolve
  rw [hrev, List.append_nil]
  rfl

/-- At a dead link `resolve` leaves the link as it is. -/
theorem resolve_dead_link (h : DeadLinkAt d p place) : resolve d p = .ok place := by
  obtain ⟨cur, x, xs, l, t, rfl, hl, hx, _, rfl⟩ := h
  have hrev : ∀ ys rest, (∀ y zs, ys = y :: zs → y = x) →
      resolveRev d (cur ++ ys).reverse rest = .ok (l ++ ys ++ rest) := by
    intro ys
    induction ys using List.reverseRecOn with
    | nil =>
      intro rest _
      rw [List.append_nil, List.append_nil]
      exact resolveRev_here hl
    | append_singleton ys n ih =>
      intro rest hys
      have hmiss : evalSymlinks d (cur ++ ys ++ [n]) = .error .noent := by
        cases ys with
        | nil =>
          rw [hys n [] rfl]
          simpa using hx
        | cons y zs =>
          rw [hys y (zs ++ [n]) rfl]
          have hlong : evalSymlinks d (cur ++ [x] ++ (zs ++ [n])) = .error .noent :=
            walk_noent (zs ++ [n]) hx
          simpa using hlong
      rw [← List.append_assoc, resolveRev_up hmiss, ih _ fun y zs hy => hys y (zs ++ [n]) (by simp [hy])]
      simp
  unfold resolve
  rw [hrev (x :: xs) [] (by rintro y zs hy; cases hy; rfl), List.append_nil]
  rfl

/-! ## Protected places -/

/-- What no request may touch: the paths of `alwaysDenied` and, for writing,
`/home/<user>/.<name>`. -/
def Protected (write : Bool) (s : Loc) : Prop :=
  s ∈ alwaysDenied ∨ write = true ∧ ∃ user name, s = ["home", user, name] ∧ Ordinary user ∧
    Ordinary name ∧ hasPrefix name "." = true

/-- What the rules of `Policy.Check` refuse by its names. -/
def barred (write : Bool) (m : Loc) : Bool := deniedLexical m || (write && homeDotfile m)

/-- Every path that denotes the location of a protected path, or one below it,
is refused. -/
def Refuses (pol : Policy) (d : Disk) : Prop :=
  ∀ raw write s l m, Protected write s → Denotes d s l → Denotes d (clean raw).parts m → l <+: m →
    ∃ e, check pol d raw write = .error e

/-- The protected locations are known by their own names to the rules, as far
as they are in a root, and so are the dead links that lead there. -/
structure Apart (pol : Policy) (d : Disk) : Prop where
  places : ∀ write s l m, Protected write s → Denotes d s l → l <+: m → Clear d m →
    Inside pol d write m → barred write m = true
  links : ∀ write s l p m place, Protected write s → Denotes d s l → Proper p → Denotes d p m →
    l <+: m → DeadLinkAt d p place → Inside pol d write place → barred write place = true

theorem barred_of_protected {s : Loc} (hs : Protected write s) (hpre : s <+: m) :
    barred write m = true := by
  unfold barred
  rw [Bool.or_eq_true, Bool.and_eq_true]
  rcases hs with hs | ⟨hw, user, name, rfl, _, _, hdot⟩
  · left
    unfold deniedLexical
    rw [Bool.or_eq_true]
    exact Or.inl (List.any_eq_true.mpr ⟨s, hs, (within_iff m s).mpr hpre⟩)
  · exact Or.inr ⟨hw, homeDotfile_below hpre (by simp [homeDotfile, hdot])⟩

theorem protected_proper {s : Loc} (hs : Protected write s) : Proper s := by
  rcases hs with hs | ⟨_, user, name, rfl, huser, hname, _⟩
  · revert s
    decide
  · intro n hn
    simp only [List.mem_cons, List.not_mem_nil, or_false] at hn
    rcases hn with rfl | rfl | rfl
    · decide
    · exact huser
    · exact hname

/-- Where no link is on the way to a protected path, the rules know all that
is below it. -/
theorem places_of_bare {s : Loc} (hs : Protected write s) (hl : Denotes d s l) (hpre : l <+: m)
    (hbare : ∀ q t, q <+: s → d.get q ≠ some (.link t)) : barred write m = true := by
  have hself : Denotes d s s := by
    refine ⟨0, ?_⟩
    have hfar : far d 0 [] (s ++ []) = far d 0 ([] ++ s) [] :=
      far_straight 0 (protected_proper hs) fun q t hq _ => hbare q t hq
    rw [List.append_nil] at hfar
    exact hfar
  obtain rfl := denotes_unique hl hself
  exact barred_of_protected hs hpre

theorem verdict_eq_ok (hbar : barred write m = false) (hin : Inside pol d write m) :
    verdict pol d m write = .ok m := by
  unfold barred at hbar
  rw [Bool.or_eq_false_iff] at hbar
  unfold verdict
  rw [hbar.1, hbar.2]
  rcases hin with hin | ⟨rfl, hin⟩
  · simp [hin]
  · simp [hin]

theorem check_spell (hp : Proper p) (hres : resolve d p = .ok m)
    (hv : verdict pol d m write = .ok m) : check pol d (spell p) write = .ok m := by
  unfold check checkPath
  rw [isAbs_spell, if_pos rfl, clean_spell hp, hres]
  exact hv

/-- Every protected location is refused exactly when the rules know all its
names in the roots. -/
theorem refuses_iff (pol : Policy) (d : Disk) : Refuses pol d ↔ Apart pol d := by
  constructor
  · intro hall
    refine ⟨fun write s l m hs hl hpre hclear hin => ?_,
      fun write s l p m place hs hl hp hm hpre hdead hin => ?_⟩
    · by_contra hbar
      have hok := check_spell hclear.proper (resolve_clear_self hclear)
        (verdict_eq_ok (by simpa using hbar) hin)
      obtain ⟨e, he⟩ := hall (spell m) write s l m hs hl
        (by rw [clean_spell hclear.proper]; exact hclear.denotes) hpre
      rw [hok] at he
      cases he
    · by_contra hbar
      have hok := check_spell hp (resolve_dead_link hdead)
        (verdict_eq_ok (by simpa using hbar) hin)
      obtain ⟨e, he⟩ := hall (spell p) write s l m hs hl (by rw [clean_spell hp]; exact hm) hpre
      rw [hok] at he
      cases he
  · intro hapart raw write s l m hs hl hm hpre
    cases hc : check pol d raw write with
    | error e => exact ⟨e, rfl⟩
    | ok real =>
      exfalso
      obtain ⟨hp, hres, hv⟩ := check_resolve hc
      have hin := verdict_inside hv
      obtain ⟨_, hden, hhome⟩ := verdict_ok hv
      have hbar : barred write real = false := by
        unfold barred
        cases write with
        | false => simp [hden]
        | true => simp [hden, (hhome rfl).1]
      have hnot : ¬ barred write real = true := by simp [hbar]
      rcases resolve_clear hp hres with hclear | hdead
      · obtain rfl := denotes_unique (denotes_resolve hres hm) hclear.denotes
        exact hnot (hapart.places write s l m hs hl hpre hclear hin)
      · exact hnot (hapart.links write s l _ m real hs hl hp hm hpre hdead hin)

/-- A server with its home directories on the data disk. -/
def dataDisk : Disk :=
  [(["data"], .dir ⟨0o755, 0, 0⟩), (["data", "home"], .dir ⟨0o755, 0, 0⟩),
    (["data", "home", "web"], .dir ⟨0o755, 0, 0⟩),
    (["home"], .link ⟨true, ["data", "home"]⟩)].foldl (fun d x => d.put x.1 x.2) Disk.bare

def dataPolicy : Policy := normalize ⟨["/data"], [], 0, ""⟩

example : (check dataPolicy dataDisk "/data" false).isOk := by decide +kernel

/-- Behind a link from `/home`, the start-up file of a user can be written. -/
theorem bashrc_passes : ¬ ∀ pol d, Refuses pol d := by
  intro h
  have hcheck : check dataPolicy dataDisk "/home/web/.bashrc" true =
      .ok ["data", "home", "web", ".bashrc"] := by decide +kernel
  have hplace : far dataDisk 1 [] ["home", "web", ".bashrc"] =
      some ["data", "home", "web", ".bashrc"] := by decide +kernel
  have hparts : (clean "/home/web/.bashrc").parts = ["home", "web", ".bashrc"] := by decide +kernel
  have hguard : Protected true ["home", "web", ".bashrc"] :=
    Or.inr ⟨rfl, "web", ".bashrc", rfl, by decide, by decide, by decide⟩
  obtain ⟨e, he⟩ := h dataPolicy dataDisk "/home/web/.bashrc" true _ _ _ hguard ⟨1, hplace⟩
    (by rw [hparts]; exact ⟨1, hplace⟩) (List.prefix_refl _)
  rw [hcheck] at he
  cases he

end icsd_panel.aliases

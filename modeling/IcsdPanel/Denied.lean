-- The files that are never touched, over whole runs of requests. The checks
-- look at one path; a removal or a move takes all that is below it, and a link
-- leads to a place that the rules do not know by its own name.
import IcsdPanel.Runs
import IcsdPanel.Straying
import IcsdPanel.Ways

open effects

namespace icsd_panel.denied

open paths disk ways machine policy files archives requests deeds runs

/-- The path leads to the file `f` at `l`. -/
def Leads (p l : Loc) (f : FileData) (d : Disk) : Prop := stat d p = .ok (l, .file f)

/-- A request neither read the file at the end of a path nor changed it, moved
it or removed it, not for a moment. -/
structure Untouched (p l : Loc) (f : FileData) (w : World) : Prop where
  unread : l ∉ w.reads
  still : Always (Leads p l f) w

/-- A request takes away what is at `v`: it moves or removes an entry at or
above it, a delete on the disk of its turn. An archive that is not made has its
destination removed. -/
def Takes (pol : Policy) (d : Disk) (er : Env × Request) (v : Loc) : Prop :=
  match er.2 with
  | .rename i => ∃ s t, admitRename pol d i = .ok (s, t) ∧ s <+: v
  | .delete paths => ∃ raw d1 s, DeleteTurn pol er.1 d paths raw d1 ∧ Removable pol d1 raw s ∧ s <+: v
  | .archive i => ∃ real, check pol d i.dest true = .ok real ∧ archiveDest real = v
  | _ => False

/-- A request is let through to the place `l`, to read what is there or to
change it. -/
def Reaches (c : Codec) (pol : Policy) (d : Disk) (er : Env × Request) (l : Loc) : Prop :=
  match er.2 with
  | .read i => check pol d i.path false = .ok l
  | .tail i => check pol d i.path false = .ok l
  | .write i => ∃ real, check pol d i.path true = .ok real ∧
      (real = l ∨ findUpload d real.dropLast i.upload = .ok l)
  | .abort i => ∃ real, check pol d i.path true = .ok real ∧ findUpload d real.dropLast i.upload = .ok l
  | .mkdir i => check pol d i.path true = .ok l
  | .chmod i => check pol d i.path true = .ok l
  | .archive i => ∃ raw ∈ i.paths, ∃ src, check pol d raw false = .ok src ∧ src <+: l ∧ deniedLexical l = false
  | .extract i => ∃ dest, check pol d i.dest true = .ok dest ∧ (dest = l ∨
      ∃ m d1, ComesTo c pol er.1 d i dest m d1 ∧ checkPath pol d1 (dest ++ memberParts m.name) true = .ok l)
  | _ => False

/-- The source of an extraction comes to lead to `l` when the destination is
made. -/
def Unpacks (pol : Policy) (d : Disk) (r : Request) (l : Loc) : Prop :=
  ∃ i src dest d1, r = .extract i ∧ check pol d i.path false = .ok src ∧ check pol d i.dest true = .ok dest ∧
    Paved d d1 dest ∧ follow d1 src = .ok l

/-- What a request must not do to the file at the end of a path: take what is
on the way, unpack it, or be let through to its place, when the rules do not
know that by its own name. -/
structure Spares (c : Codec) (pol : Policy) (d : Disk) (er : Env × Request) (p l : Loc) : Prop where
  taken : ∀ v ∈ way d p, ¬ Takes pol d er v
  packed : ¬ Unpacks pol d er.2 l
  hidden : deniedLexical l = false → ¬ Reaches c pol d er l

/-- A request spares every file that is never to be touched. -/
def Harmless (c : Codec) (pol : Policy) (d : Disk) (er : Env × Request) : Prop :=
  ∀ p l f, Proper p → deniedLexical p = true → Leads p l f d → Spares c pol d er p l

variable {c : Codec} {pol : Policy} {d d0 d1 : Disk} {e : Env} {er : Env × Request} {real p l q s t : Loc} {δ : Deed}
  {n : Name} {f : FileData} {m : Node}

/-! ## Names -/

/-- The last names of the paths that are never touched. -/
def deniedNames : List Name :=
  [".ssh", ".gnupg", "icsd-agent", "shadow", "gshadow", "sudoers", "sudoers.d"]

theorem allowed_above (h : q <+: l) (hl : deniedLexical l = false) : deniedLexical q = false := by
  by_contra hq
  rw [deniedLexical_below h (by simpa using hq)] at hl
  cases hl

/-- A new name keeps a path allowed, if it is not one of the denied names. -/
theorem allowed_concat (hl : deniedLexical l = false) (hn : n ∉ deniedNames) :
    deniedLexical (l ++ [n]) = false := by
  unfold deniedLexical at hl ⊢
  rw [Bool.or_eq_false_iff] at hl ⊢
  refine ⟨?_, ?_⟩
  · rw [List.any_eq_false] at hl ⊢
    intro r hr hin
    rw [within_iff] at hin
    rcases prefix_concat_iff.mp hin with rfl | hpre
    · simp only [alwaysDenied, List.mem_cons, List.not_mem_nil, or_false] at hr
      have hlast : ∀ x y : Name, l ++ [n] = [x, y] → n = y := by
        intro x y h
        have := congrArg List.getLast? h
        simpa using this
      rcases hr with h | h | h | h | h <;> exact hn (by simp [deniedNames, hlast _ _ h])
    · exact hl.1 r hr ((within_iff _ _).mpr hpre)
  · rw [List.any_append, hl.2]
    simp only [deniedNames, List.mem_cons, List.not_mem_nil, or_false, not_or] at hn
    simp [hn.1, hn.2.1]

theorem uploadName_allowed (h : isUploadName n = true) : n ∉ deniedNames := by
  intro hn
  simp only [deniedNames, List.mem_cons, List.not_mem_nil, or_false] at hn
  rcases hn with rfl | rfl | rfl | rfl | rfl | rfl | rfl <;> revert h <;> decide

theorem tempName_isUploadName (k : Nat) : isUploadName (tempName k) = true := by
  have hlist : (tempName k).toList = uploadPrefix.toList ++ Nat.toDigits 10 k := by
    rw [tempName, String.toList_append]
    exact congrArg _ Nat.toList_repr
  have hdrop : (tempName k).toList.drop 13 = Nat.toDigits 10 k := by
    rw [hlist]
    exact List.drop_left' (by decide)
  unfold isUploadName hasPrefix
  rw [hdrop, hlist, Bool.and_eq_true, Bool.and_eq_true]
  refine ⟨by simp, ?_, ?_⟩
  · simp
  · rw [List.all_eq_true]
    exact fun ch hch => Nat.isDigit_of_mem_toDigits (by decide) (by decide) hch

/-! ## What the rules know by name -/

/-- No request is let through to a place that the rules know by its name. -/
theorem Reaches.allowed (h : Reaches c pol d er l) : deniedLexical l = false := by
  obtain ⟨e, r⟩ := er
  cases r with
  | list | stat | rename | delete | malformed => exact h.elim
  | read i | tail i => exact (check_ok h).2.1
  | mkdir i | chmod i => exact (check_cleared h).notDenied
  | write i =>
    obtain ⟨real, hcheck, rfl | hfound⟩ := h
    · exact (check_cleared hcheck).notDenied
    · have hclear := check_cleared hcheck
      rw [(findUpload_place hclear hfound).1]
      exact allowed_concat (allowed_above (List.dropLast_prefix real) hclear.notDenied)
        (uploadName_allowed (findUpload_ok hfound).1)
  | abort i =>
    obtain ⟨real, hcheck, hfound⟩ := h
    have hclear := check_cleared hcheck
    rw [(findUpload_place hclear hfound).1]
    exact allowed_concat (allowed_above (List.dropLast_prefix real) hclear.notDenied)
      (uploadName_allowed (findUpload_ok hfound).1)
  | archive i =>
    obtain ⟨_, _, _, _, _, hl⟩ := h
    exact hl
  | extract i =>
    obtain ⟨dest, hcheck, rfl | ⟨m, d1, hm, hreal⟩⟩ := h
    · exact (check_cleared hcheck).notDenied
    · have hp : Proper (dest ++ memberParts m.name) :=
        proper_append.mpr ⟨(check_cleared hm.checked).resolved.1, memberParts_proper m.name⟩
      exact (checkPath_cleared hp hreal).notDenied

theorem Spares.unreached (h : Spares c pol d er p l) : ¬ Reaches c pol d er l :=
  fun hreach => h.hidden hreach.allowed hreach

/-! ## The file at the end of a path -/

/-- The file is where it was, and on the way to it no node changed its kind. -/
structure Kept (d0 : Disk) (p l : Loc) (f : FileData) (d : Disk) : Prop where
  start : Leads p l f d0
  file : d.get l = some (.file f)
  onWay : ∀ v ∈ way d0 p, SameShape d0 d v

theorem Leads.follow (h : Leads p l f d) : follow d p = .ok l ∧ d.get l = some (.file f) := by
  obtain ⟨hl, hlook⟩ := stat_ok h
  refine ⟨hl, ?_⟩
  unfold Disk.look at hlook
  split at hlook
  · cases hlook
  · exact hlook

theorem leads_of (hl : disk.follow d p = .ok l) (hf : d.get l = some (.file f)) : Leads p l f d := by
  refine stat_run hl ?_
  rw [Disk.look, if_neg (Disk.get_ne_nil hf)]
  exact hf

theorem Leads.kept (h : Leads p l f d) : Kept d p l f d := ⟨h, h.follow.2, fun _ _ => rfl⟩

theorem Kept.leads (h : Kept d0 p l f d) : Leads p l f d :=
  leads_of ((walk_same h.onWay).trans h.start.follow.1) h.file

/-- The file itself is on its way. -/
theorem Kept.last (h : Kept d0 p l f d) : l ∈ way d0 p :=
  way_last h.start.follow.2 (Or.inl rfl) h.start.follow.1

theorem Kept.onward (h : Kept d0 p l f d) (hq : q ∈ way d0 p) : Onward d0 l q := way_onward h.start.follow.1 q hq

theorem Kept.there (h : Kept d0 p l f d) (hq : q ∈ way d0 p) : (d.get q).isSome := by
  have hthere := (h.onward hq).there
  have hsame := congrArg Option.isSome (h.onWay q hq)
  rwa [Option.isSome_map, Option.isSome_map, hthere] at hsame

/-- A node on the way that is neither a directory nor a link is the file. -/
theorem Kept.leaf (h : Kept d0 p l f d) (hq : q ∈ way d0 p) (hm : d.get q = some m) (hleaf : m.shape = .leaf) :
    q = l := by
  refine (h.onward hq).leaf ?_
  rw [← h.onWay q hq, hm]
  exact congrArg some hleaf

theorem Kept.same {d' : Disk} (h : Kept d0 p l f d) (hsame : ∀ v ∈ way d0 p, d'.get v = d.get v) :
    Kept d0 p l f d' where
  start := h.start
  file := (hsame l h.last).trans h.file
  onWay v hv := (congrArg _ (hsame v hv)).trans (h.onWay v hv)

theorem Kept.put (h : Kept d0 p l f d) (hq : q ≠ l) (hold : ∀ n, d.get q = some n → m.shape = n.shape) :
    Kept d0 p l f (d.put q m) where
  start := h.start
  file := (Disk.get_put_ne hq.symm).trans h.file
  onWay v hv := by
    refine Eq.trans ?_ (h.onWay v hv)
    by_cases hvq : v = q
    · subst hvq
      obtain ⟨n, hn⟩ := Option.isSome_iff_exists.mp (h.there hv)
      by_cases hfit : d.Fits v m
      · rw [Disk.get_put_self hfit, hn]
        exact congrArg some (hold n hn)
      · unfold Disk.put
        rw [dif_neg hfit]
    · rw [Disk.get_put_ne hvq]

theorem Kept.putNew (h : Kept d0 p l f d) (hnone : d.get q = none) : Kept d0 p l f (d.put q m) := by
  refine h.put ?_ fun n hn => by rw [hnone] at hn; cases hn
  rintro rfl
  rw [h.file] at hnone
  cases hnone

theorem Kept.remove (h : Kept d0 p l f d) (hq : q ∉ way d0 p) : Kept d0 p l f (d.remove q) :=
  h.same fun _ hv => Disk.get_remove_ne fun heq => hq (heq ▸ hv)

theorem Kept.clear (h : Kept d0 p l f d) (stuck : Option Loc) (hq : ∀ v ∈ way d0 p, ¬ q <+: v) :
    Kept d0 p l f (d.removeBelow q stuck) :=
  h.same fun v hv => Disk.get_removeBelow_else stuck (hq v hv)

theorem Kept.move (h : Kept d0 p l f d) (hs : ∀ v ∈ way d0 p, ¬ s <+: v)
    (ht : ∀ v ∈ way d0 p, ¬ t <+: v) : Kept d0 p l f (d.move s t) :=
  h.same fun v hv => Disk.get_move_else (hs v hv) (ht v hv)

/-! ## One request -/

/-- What is not a directory, and not on the way, is not above it either. -/
theorem Kept.clearOf (h : Kept d0 p l f d) (hdir : ¬ d.IsDirAt q) (hq : q ∉ way d0 p) :
    ∀ v ∈ way d0 p, ¬ q <+: v :=
  fun _ hv => Disk.not_below hdir (fun heq => hq (heq ▸ hv)) (h.there hv)

theorem notDir_of_leaf (h : d.get q = some m) (hleaf : m.shape = .leaf) : ¬ d.IsDirAt q := by
  rintro (h0 | ⟨a, ha⟩)
  · exact Disk.get_ne_nil h h0
  · rw [h] at ha
    cases ha
    cases hleaf

theorem notDir_of_none (hq : q ≠ []) (h : d.get q = none) : ¬ d.IsDirAt q := by
  rintro (h0 | ⟨a, ha⟩)
  · exact hq h0
  · rw [h] at ha
    cases ha

theorem write_keeps {i : WriteArgs} (h : ¬ Reaches c pol d0 (e, .write i) l) (hk : Kept d0 p l f d)
    (hδ : WriteDeed pol d0 i d δ) : Kept d0 p l f (δ.apply d) := by
  have hcheck : ∀ {real n}, Writing pol d0 i real n d → check pol d0 i.path true = .ok real := by
    intro real n hw
    obtain ⟨data, hadm⟩ := hw.admitted
    exact admitWrite_check hadm
  have htemp : ∀ {real n}, Writing pol d0 i real n d → real.dropLast ++ [n] ≠ l := by
    intro real n hw heq
    have ht := hw.temp
    unfold TempName at ht
    split at ht
    · have hfile := hk.start.follow.2
      rw [← heq, ht.2] at hfile
      cases hfile
    · obtain ⟨rfl, hfound⟩ := ht
      exact h ⟨real, hcheck hw, .inr (heq ▸ hfound)⟩
  have hoff : ∀ {real n}, Writing pol d0 i real n d → (∃ f0, d.get (real.dropLast ++ [n]) = some (.file f0)) →
      real.dropLast ++ [n] ∉ way d0 p := by
    rintro real n hw ⟨f0, hf0⟩ hmem
    exact htemp hw (hk.leaf hmem hf0 rfl)
  cases hδ with
  | create hw _ _ hn => exact hk.putNew hn
  | update hw hold =>
    obtain ⟨f0, hf0⟩ := hold
    exact hk.put (htemp hw) fun n hn => by rw [hf0] at hn; cases hn; rfl
  | remove hw hold => exact hk.remove (hoff hw hold)
  | @move real n hw hold hto =>
    have hreal : real ∉ way d0 p := by
      intro hmem
      obtain ⟨m, hm⟩ := Option.isSome_iff_exists.mp (hk.there hmem)
      cases m with
      | dir a => exact hto (.inr ⟨a, hm⟩)
      | file _ | other _ _ => exact h ⟨real, hcheck hw, .inl (hk.leaf hmem hm rfl)⟩
      | link t =>
        -- a link that the check resolved to is dead, and no way leads on from it
        have hsim := hk.onWay real hmem
        unfold SameShape at hsim
        rw [hm] at hsim
        obtain ⟨m0, hm0⟩ := Option.isSome_iff_exists.mp (hk.onward hmem).there
        rw [hm0] at hsim
        have hshape : m0.shape = .link t := (Option.some.inj hsim).symm
        cases m0 with
        | link t0 => exact (hk.onward hmem).bare (check_cleared (hcheck hw)).resolved t0 hm0
        | _ => cases hshape
    obtain ⟨f0, hf0⟩ := hold
    exact hk.move (hk.clearOf (notDir_of_leaf hf0 rfl) (hoff hw ⟨f0, hf0⟩)) (hk.clearOf hto hreal)

theorem grow_keeps (hreal : real ≠ l) (hk : Kept d0 p l f d) (h : GrowDeed d1 real d δ) :
    Kept d0 p l f (δ.apply d) := by
  cases h with
  | dir _ _ _ _ hnone _ => exact hk.putNew hnone
  | newFile _ _ hnone _ => exact hk.putNew hnone
  | oldFile _ hold => exact hk.put hreal fun n hn => by rw [hold] at hn; cases hn; rfl
  | oldDir _ hold => exact hk.put hreal fun n hn => by rw [hold] at hn; cases hn; rfl

theorem dest_keeps {dest : Loc} (hdest : dest ∉ way d0 p) (hres : Resolved d0 dest.dropLast) (hk : Kept d0 p l f d)
    (h : DestDeed d0 dest d δ) : Kept d0 p l f (δ.apply d) := by
  have hne : dest ≠ l := fun heq => hdest (heq ▸ hk.last)
  cases h with
  | create hd he hn =>
    subst hd
    exact hk.putNew hn
  | update he hone =>
    obtain ⟨rfl, -⟩ := Resolved.entryAt hres he
    obtain ⟨f0, hf0⟩ := hone.2.1
    exact hk.put hne fun n hn => by rw [hf0] at hn; cases hn; rfl
  | remove he _ _ _ =>
    obtain ⟨rfl, -⟩ := Resolved.entryAt hres he
    exact hk.remove hdest

/-- The changes of a request that spares a file keep it. -/
theorem request_keeps {r : Request} (h : Spares c pol d0 (e, r) p l) (hk : Kept d0 p l f d)
    (hδ : RequestDeed pol d0 d r δ) : Kept d0 p l f (δ.apply d) := by
  have hreach := h.unreached
  cases hδ with
  | write hδ => exact write_keeps hreach hk hδ
  | abort hδ =>
    obtain ⟨rfl, hcheck, hfound⟩ := hδ
    obtain ⟨-, -, f0, hf0⟩ := findUpload_place (check_cleared hcheck) hfound
    refine hk.remove fun hmem => hreach ⟨_, hcheck, ?_⟩
    rw [← hk.leaf hmem hf0 rfl]
    exact hfound
  | mkdir hδ =>
    obtain ⟨hcheck, hgrow, _⟩ := hδ
    exact grow_keeps (fun heq => hreach (heq ▸ hcheck)) hk hgrow
  | rename hδ =>
    obtain ⟨rfl, hadm, hn, hfree, hdir, hout⟩ := hδ
    rename_i s t _
    have ht : t ≠ [] := by
      obtain ⟨_, hcheck, _⟩ := admitRename_ok hadm
      obtain ⟨parent, base, rfl, _⟩ := checkEntry_ok hcheck
      simp
    exact hk.move (fun v hv hpre => h.taken v hv ⟨s, t, hadm, hpre⟩)
      fun v hv => Disk.free_above ht hfree (hk.there hv)
  | chmod hδ =>
    obtain ⟨rfl, hcheck, hn, hsame⟩ := hδ
    refine hk.put (fun heq => hreach (heq ▸ hcheck)) fun n' hn' => ?_
    rw [Disk.look, if_neg (Disk.get_ne_nil hn'), hn'] at hn
    cases hn
    cases hsame <;> rfl
  | archive hδ =>
    obtain ⟨hcheck, hdest⟩ := hδ
    refine dest_keeps (fun hmem => h.taken _ hmem ⟨_, hcheck, rfl⟩) ?_ hk hdest
    rw [archiveDest_dropLast]
    exact (check_cleared hcheck).resolved.above (List.dropLast_prefix _)

theorem unread_of_spares {r : Request} (h : Spares c pol d (e, r) p l) (hq : ReadPlace pol d r q) : q ≠ l := by
  rintro rfl
  refine h.unreached ?_
  cases hq with
  | read hcheck => exact hcheck
  | tail hcheck => exact hcheck
  | archive hraw hcheck hsrc hl => exact ⟨_, hraw, _, hcheck, hsrc, hl⟩

/-- A request touches no file that it spares. -/
theorem untouched_of_spares (h : Spares c pol d er p l) (hl : Leads p l f d) :
    Untouched p l f (served c pol d er) ∧ Leads p l f (next c pol d er) := by
  obtain ⟨e, r⟩ := er
  have hreach := h.unreached
  have hfine : Fine ⟨fun d' δ => Kept d p l f d' → Kept d p l f (δ.apply d'), fun q => q ≠ l, d⟩
      (served c pol d (e, r)) := by
    refine handle_fine rfl (fun q hq => unread_of_spares h hq) (fun d' δ hδ hk => request_keeps h hk hδ) ?_ ?_
    · rintro paths rfl raw d1 q stuck hturn hrem hk
      exact hk.clear stuck fun v hv hpre => h.taken v hv ⟨raw, d1, q, hturn, hrem, hpre⟩
    · rintro i rfl
      refine ⟨fun dest d' δ hdest hgrow hk => ?_, fun dest m d1 real d' δ hm hreal hgrow hk => ?_,
        fun src dest d1 q hsrc hdest hp hq => ?_⟩
      · exact grow_keeps (fun heq => hreach ⟨dest, hdest, .inl heq⟩) hk hgrow
      · exact grow_keeps (fun heq => hreach ⟨dest, hm.checked, .inr ⟨m, d1, hm, heq ▸ hreal⟩⟩) hk hgrow
      · rintro rfl
        exact h.packed ⟨i, src, dest, d1, rfl, hsrc, hdest, hp, hq⟩
  have hfirst : Kept d p l f (served c pol d (e, r)).first := by
    rw [hfine.first]
    exact hl.kept
  obtain ⟨hstill, hend⟩ := hfine.lawful.given (F := Kept d p l f)
    (B := fun d' δ => Kept d p l f (δ.apply d')) (fun _ _ hA hF => hA hF) (fun _ _ hB _ => hB) hfirst
  exact ⟨⟨fun hread => hfine.reads l hread rfl, hfirst.leads, hstill.mono fun _ _ hk => hk.leads⟩, hend.leads⟩

/-! ## Runs -/

/-- A server with the homes of its users as a root. -/
def homePolicy : Policy := normalize ⟨["/home"], [], 0, ""⟩

def keyFile : Loc := ["home", "ann", ".ssh", "authorized_keys"]

def keys : FileData := ⟨[1, 2, 3], 0, ⟨0o600, 1000, 1000⟩, false⟩

def homeDisk : Disk :=
  (((Disk.bare.put ["home"] (.dir ⟨0o755, 0, 0⟩)).put ["home", "ann"] (.dir ⟨0o755, 1000, 1000⟩)).put
    ["home", "ann", ".ssh"] (.dir ⟨0o700, 1000, 1000⟩)).put keyFile (.file keys)

example : (check homePolicy homeDisk "/home/ann/.ssh/authorized_keys" true).isOk = false := by decide +kernel

/-- A server that keeps the rules of the agent in the folder that the panel
writes to. -/
def dataPolicy : Policy := normalize ⟨["/data"], [], 0, ""⟩

def ruleFile : Loc := ["data", "agent", "policy.json"]

def agentDisk : Disk :=
  ((((Disk.bare.put ["etc"] (.dir ⟨0o755, 0, 0⟩)).put ["etc", "icsd-agent"] (.link ⟨true, ["data", "agent"]⟩)).put
    ["data"] (.dir ⟨0o755, 0, 0⟩)).put ["data", "agent"] (.dir ⟨0o755, 0, 0⟩)).put ruleFile (.file keys)

example : check dataPolicy agentDisk "/data/agent/policy.json" true = .ok ruleFile := by decide +kernel

/-- A folder and a page in it. -/
def publishing : List (Env × Request) :=
  [(calm 0 [], .mkdir ⟨"/data/site", true⟩), (calm 0 [], .write ⟨"/data/site/page", some [1], 0, true, "", 0⟩)]

end icsd_panel.denied

-- The names of a directory on their way to the hub and back: `fs.list` sends
-- them as JSON, and a request joins one to the listed path. The names are bytes
-- on the disk, and texts on the way.
import IcsdPanel.Lossy
import IcsdPanel.Straying

open effects unicode

namespace icsd_panel.listings

open paths disk machine policy files requests deeds

variable {d : Disk} {pol : Policy} {e : Env} {w w' : World} {r : ListReply} {n m : Name} {p : Loc}
  {path : String}

/-! ## There and back -/

/-- What the hub reads for a string of the agent. -/
def shown (n : String) : String := replaced (bytes n)

/-- What the agent reads for a text of the hub. -/
def asked (s : String) : String := latin1 (utf8 s)

/-- `join` of the file manager. -/
def join (dir name : String) : String :=
  if dir.toList.getLast? = some '/' then dir ++ name else dir ++ "/" ++ name

/-- The path of a request for the entry `n` of a listing. -/
def request (r : ListReply) (n : Name) : String := asked (join (shown (spell r.path)) (shown n))

/-- A name as the agent gets it back. -/
def again (n : Name) : Name := asked (shown n)

theorem shown_text (h : IsText (bytes n)) : utf8 (shown n) = bytes n := replaced_of_text h

theorem again_of_text (hn : Coded n) (h : IsText (bytes n)) : again n = n := by
  unfold again asked
  rw [shown_text h, latin1_bytes hn]

/-- A name comes back when it is a text. -/
theorem again_eq_iff (hn : Coded n) : again n = n ↔ IsText (bytes n) := by
  refine ⟨fun h => ?_, again_of_text hn⟩
  have hback := congrArg bytes h
  unfold again asked at hback
  rw [bytes_latin1] at hback
  exact utf8_replaced_iff.mp hback

theorem byte_slash {c : Char} (h : (47 : UInt8) ∈ String.utf8EncodeChar c) : c = '/' := by
  have hone := encode_ascii h (by decide)
  have hdec := decodeRune_encode c []
  rw [hone] at hdec
  have hslash : decodeRune ([47] ++ []) = some '/' := decodeRune_encode '/' []
  rw [hslash] at hdec
  exact (Option.some.inj hdec).symm

theorem slash_of_byte (hn : Coded n) (h : (47 : UInt8) ∈ bytes n) : '/' ∈ n.toList := by
  unfold bytes at h
  obtain ⟨c, hc, hbyte⟩ := List.mem_map.mp h
  have hback := ofByte_toNat (hn c hc)
  rw [hbyte] at hback
  have hslash : Char.ofNat (47 : UInt8).toNat = '/' := rfl
  rw [← hslash, hback]
  exact hc

theorem mem_asked {s : String} {c : Char} (h : c ∈ (asked s).toList) :
    ∃ y ∈ utf8 s, Char.ofNat y.toNat = c := by
  unfold asked at h
  rw [toList_latin1] at h
  obtain ⟨y, hy, hc⟩ := List.mem_map.mp h
  exact ⟨y, hy, hc⟩

theorem again_no_slash (hn : Coded n) (h : '/' ∉ n.toList) : '/' ∉ (again n).toList := by
  intro hmem
  obtain ⟨y, hy, hchar⟩ := mem_asked hmem
  have hbyte : y = 47 := by
    have := congrArg Char.toNat hchar
    rw [toNat_ofByte] at this
    exact UInt8.toNat_inj.mp this
  subst hbyte
  unfold utf8 at hy
  obtain ⟨c, hc, hin⟩ := List.mem_flatMap.mp hy
  obtain rfl := byte_slash hin
  rcases mem_replaced hc with hrep | hall
  · exact absurd hrep (by decide)
  · exact h (slash_of_byte hn (hall 47 hin))

/-- A name that is marked is none of those that mean something else. -/
theorem again_marked (h : ¬ IsText (bytes n)) : 'ï' ∈ (again n).toList := by
  have hmark := replacement_mem h
  have hbyte : (0xEF : UInt8) ∈ utf8 (shown n) := by
    unfold utf8
    exact List.mem_flatMap.mpr ⟨replacement, hmark, by decide⟩
  unfold again asked
  rw [toList_latin1]
  exact List.mem_map.mpr ⟨0xEF, hbyte, by decide⟩

theorem again_ordinary (hn : Coded n) (h : Ordinary n) : Ordinary (again n) := by
  by_cases htext : IsText (bytes n)
  · rw [again_of_text hn htext]
    exact h
  · have hmark := again_marked htext
    refine ⟨?_, ?_, again_no_slash hn h.2.2⟩
    · rintro (hempty | hdot)
      · rw [hempty] at hmark; cases hmark
      · rw [hdot] at hmark; exact absurd hmark (by decide)
    · intro hdots
      rw [hdots] at hmark
      exact absurd hmark (by decide)

/-! ## Paths as texts -/

/-- The characters of a path: a slash in front of each name. -/
def slashed (p : Loc) : List Char := p.flatMap fun n => '/' :: n.toList

theorem toList_spell (h : p ≠ []) : (spell p).toList = slashed p := by
  have htext : ∀ q : Loc, q ≠ [] → '/' :: (String.intercalate "/" q).toList = slashed q := by
    intro q hq
    rw [String.toList_intercalate]
    induction q with
    | nil => exact absurd rfl hq
    | cons n q ih =>
      cases q with
      | nil => simp [slashed]
      | cons m q =>
        have hrest := ih (List.cons_ne_nil m q)
        rw [List.map_cons] at hrest ⊢
        rw [List.map_cons, List.intercalate_cons_cons]
        unfold slashed at hrest ⊢
        rw [List.flatMap_cons, ← hrest]
        simp
  unfold spell
  rw [String.toList_append, ← htext p h]
  rfl

theorem replaced_slash (b : List UInt8) : (replaced (47 :: b)).toList = '/' :: (replaced b).toList := by
  have hrunes : runes (47 :: b) = some '/' :: runes b := runes_encode '/' b
  unfold replaced
  rw [hrunes, String.toList_ofList, String.toList_ofList]
  rfl

theorem bytes_slashed (p : Loc) : (slashed p).map (fun c => UInt8.ofNat c.toNat) = p.flatMap fun n => 47 :: bytes n := by
  unfold slashed
  rw [List.map_flatMap]
  rfl

theorem replaced_slashed (p : Loc) :
    (replaced (p.flatMap fun n => 47 :: bytes n)).toList = slashed (p.map shown) := by
  induction p with
  | nil => rfl
  | cons n p ih =>
    have hcut : replaced (bytes n ++ p.flatMap fun m => 47 :: bytes m) =
        shown n ++ replaced (p.flatMap fun m => 47 :: bytes m) := by
      cases p with
      | nil =>
        have hempty : replaced ([].flatMap fun m : Name => 47 :: bytes m) = "" := rfl
        rw [hempty, List.flatMap_nil, List.append_nil, String.append_empty]
        rfl
      | cons m p =>
        rw [List.flatMap_cons, List.cons_append]
        exact replaced_ascii (bytes n) _ (by decide)
    rw [List.flatMap_cons, List.cons_append, replaced_slash, hcut, String.toList_append, ih]
    simp [slashed]

theorem toList_asked (s : String) :
    (asked s).toList = s.toList.flatMap fun c => (String.utf8EncodeChar c).map fun y => Char.ofNat y.toNat := by
  unfold asked utf8
  rw [toList_latin1, List.map_flatMap]

theorem asked_slashed (p : Loc) :
    (slashed p).flatMap (fun c => (String.utf8EncodeChar c).map fun y => Char.ofNat y.toNat) =
      slashed (p.map asked) := by
  induction p with
  | nil => rfl
  | cons n p ih =>
    unfold slashed at ih ⊢
    have hslash : (String.utf8EncodeChar '/').map (fun y => Char.ofNat y.toNat) = ['/'] := by decide
    rw [List.flatMap_cons, List.cons_append, List.flatMap_cons, hslash, List.flatMap_append, ih,
      ← toList_asked, List.map_cons, List.flatMap_cons, List.singleton_append, List.cons_append]

/-- A shown name is not empty and holds no slash. -/
theorem shown_last (hn : Coded n) (h : Ordinary n) : ∀ c, ('/' :: (shown n).toList).getLast? = some c → c ≠ '/' := by
  obtain ⟨hempty, -, hslash⟩ := again_ordinary hn h
  intro c hc
  cases hlist : (shown n).toList with
  | nil =>
    refine absurd (Or.inl ?_) hempty
    unfold again
    rw [← String.toList_inj, toList_asked, hlist]
    rfl
  | cons c' cs =>
    rw [hlist, List.getLast?_cons_cons] at hc
    rintro rfl
    refine hslash ?_
    unfold again
    rw [toList_asked, hlist]
    exact List.mem_flatMap.mpr ⟨'/', List.mem_of_getLast? hc, by decide⟩

theorem toList_join (hp : ∀ m ∈ p, Coded m) (hord : Proper p) (n : Name) :
    (join (shown (spell p)) (shown n)).toList = slashed ((p ++ [n]).map shown) := by
  by_cases hnil : p = []
  · subst hnil
    have hroot : shown (spell []) = "/" := by decide
    unfold join
    rw [hroot, if_pos (by decide), String.toList_append]
    simp [slashed]
  · have hpath : (shown (spell p)).toList = slashed (p.map shown) := by
      unfold shown bytes
      rw [toList_spell hnil, bytes_slashed]
      exact replaced_slashed p
    have hlast : (slashed (p.map shown)).getLast? ≠ some '/' := by
      obtain ⟨q, m, rfl⟩ := dropLast_append_getLast hnil
      have hm : m ∈ q ++ [m] := List.mem_append_right q List.mem_cons_self
      have hcut : slashed ((q ++ [m]).map shown) = slashed (q.map shown) ++ '/' :: (shown m).toList := by
        simp [slashed]
      intro hslash
      rw [hcut, List.getLast?_append_of_ne_nil _ (List.cons_ne_nil _ _)] at hslash
      exact shown_last (hp m hm) (hord m hm) '/' hslash rfl
    unfold join
    rw [hpath, if_neg hlast, String.toList_append, String.toList_append, hpath]
    simp [slashed]

/-- The agent gets the path with each of its names as it comes back. -/
theorem request_eq (hp : ∀ m ∈ r.path, Coded m) (hord : Proper r.path) (n : Name) :
    request r n = spell ((r.path ++ [n]).map again) := by
  have hne : (r.path ++ [n]).map again ≠ [] := by simp
  unfold request
  rw [← String.toList_inj, toList_asked, toList_join hp hord, asked_slashed, List.map_map, toList_spell hne]
  rfl

theorem clean_request (hp : ∀ m ∈ r.path ++ [n], Coded m) (hord : Proper (r.path ++ [n])) :
    clean (request r n) = ⟨true, (r.path ++ [n]).map again⟩ := by
  obtain ⟨hpath, -⟩ := proper_append.mp hord
  rw [request_eq (fun m hm => hp m (List.mem_append_left _ hm)) hpath]
  refine clean_spell fun q hq => ?_
  obtain ⟨m, hm, rfl⟩ := List.mem_map.mp hq
  exact again_ordinary (hp m hm) (hord m hm)

/-! ## Listings -/

/-- The names on the disk stand for bytes. -/
def Bytewise (d : Disk) : Prop := ∀ l, (d.get l).isSome → ∀ n ∈ l, Coded n

/-- The entry that `CheckEntry` judges for the text of a path. -/
def entryText (d : Disk) (raw : String) : Except GoError Loc :=
  if isAbs raw then
    match (clean raw).parts.getLast? with
    | none => .error errDenied
    | some base => (resolve d (clean raw).parts.dropLast).map (· ++ [base])
  else .error notAbsolute

/-- The requests of the file manager for the text `raw` are about the entry at
`l`: both checks judge it, and whatever the policy and the surroundings,
nothing else is answered, read, moved or removed. -/
structure Addresses (d : Disk) (raw : String) (l : Loc) : Prop where
  place : resolveText d raw = .ok l
  entry : entryText d raw = .ok l
  stat : ∀ pol e a, (fsStat pol raw e (World.start d)).1 = .ok a → a.1 = l ∧ d.get l = some a.2
  read : ∀ pol e i, i.path = raw → ∀ q ∈ (fsRead pol i e (World.start d)).2.reads, q = l
  rename : ∀ pol e i, i.src = raw → ∀ δ ∈ (fsRename pol i e (World.start d)).2.deeds, ∃ t, δ = .move l t
  delete : ∀ pol e, ∀ δ ∈ (fsDelete pol [raw] e (World.start d)).2.deeds, ∃ stuck, δ = .clear l stuck

/-- Each entry of a listing is what the requests for it are about. -/
def Addressed (d : Disk) (r : ListReply) : Prop :=
  ∀ x ∈ r.entries, Addresses d (request r x.1) (r.path ++ [x.1])

/-- No two entries are shown under one name. -/
def Distinct (r : ListReply) : Prop :=
  ∀ x ∈ r.entries, ∀ y ∈ r.entries, shown x.1 = shown y.1 → x = y

theorem listing_run (h : fsList pol path e w = (.ok r, w')) (hdir : r.virtual = false) :
    Proper r.path ∧ w.disk.IsDirAt r.path ∧ ∀ x ∈ r.entries, w.disk.get (r.path ++ [x.1]) = some x.2 := by
  unfold fsList at h
  split at h
  · cases h
    cases hdir
  · unfold listDir at h
    obtain ⟨real, w1, hchecked, h⟩ := Proc.bind_run_inv h
    obtain ⟨items, w2, hitems, h⟩ := Proc.bind_run_inv h
    unfold checked at hchecked
    rw [ask_run, Prod.mk.injEq] at hchecked
    obtain ⟨hcheck, rfl⟩ := hchecked
    unfold askOs at hitems
    rw [ask_run, Prod.mk.injEq] at hitems
    obtain ⟨hitems, rfl⟩ := hitems
    change ((dirAt w.disk real).map (entriesAt w.disk)).mapError _ = _ at hitems
    cases h
    have hres := (check_ok hcheck).1
    cases hd : dirAt w.disk real with
    | error er => rw [hd] at hitems; cases hitems
    | ok l =>
      rw [hd] at hitems
      cases hitems
      obtain ⟨rfl, hisdir⟩ := hres.dirAt hd
      refine ⟨hres.1, hisdir, fun x hx => ?_⟩
      obtain ⟨n, -, hn⟩ := List.mem_filterMap.mp (List.mem_of_mem_take hx)
      cases hget : w.disk.get (l ++ [n]) with
      | none => rw [hget] at hn; cases hn
      | some node =>
        rw [hget] at hn
        cases hn
        exact hget

/-! ## What the requests are about -/

theorem isAbs_of_clean {raw : String} {ps : List Name} (h : clean raw = ⟨true, ps⟩) : isAbs raw = true := by
  have habs : (clean raw).abs = true := by rw [h]
  exact habs

theorem check_place {write : Bool} {raw : String} {l : Loc} (h : check pol d raw write = .ok l) :
    resolveText d raw = .ok l := by
  unfold check at h
  unfold resolveText
  split at h
  · rename_i habs
    rw [if_pos habs]
    unfold checkPath at h
    split at h
    · cases h
    · rename_i q hq
      obtain ⟨rfl, -⟩ := verdict_ok h
      exact hq
  · cases h

theorem entryText_eq {raw : String} {base : Name} (habs : isAbs raw = true)
    (hbase : (clean raw).parts.getLast? = some base) :
    entryText d raw = (resolve d (clean raw).parts.dropLast).map (· ++ [base]) := by
  unfold entryText
  rw [if_pos habs, hbase]

theorem checkEntry_place {raw : String} {l : Loc} (h : checkEntry pol d raw = .ok l) : entryText d raw = .ok l := by
  unfold checkEntry at h
  split at h
  · rename_i habs
    split at h
    · cases h
    · rename_i base hbase
      split at h
      · cases h
      · rename_i parent hparent
        unfold checkPath at hparent
        split at hparent
        · cases hparent
        · rename_i q hq
          obtain ⟨rfl, -⟩ := verdict_ok hparent
          unfold admitEntry at h
          split at h
          · cases h
          · split at h
            · cases h
            · cases h
              rw [entryText_eq habs hbase, hq]
              rfl
  · cases h

theorem mem_lawful {A : Disk → Deed → Prop} {deeds : List Deed} {δ : Deed} (h : LawfulFrom A d deeds) (hδ : δ ∈ deeds) :
    ∃ d1, A d1 δ := by
  induction deeds with
  | nil => cases hδ
  | cons δ' deeds ih =>
    rcases List.mem_cons.mp hδ with rfl | hmem
    · exact ⟨_, h.2⟩
    · exact ih h.1 hmem

variable {raw : String} {l : Loc}

theorem stat_place (hplace : resolveText d raw = .ok l) (hl : l ≠ []) (a : Loc × Node)
    (h : (fsStat pol raw e (World.start d)).1 = .ok a) : a.1 = l ∧ d.get l = some a.2 := by
  rcases hrun : fsStat pol raw e (World.start d) with ⟨v, w'⟩
  rw [hrun] at h
  cases h
  unfold fsStat at hrun
  obtain ⟨real, w1, hchecked, hrun⟩ := Proc.bind_run_inv hrun
  obtain ⟨⟨q, m⟩, w2, hnode, hrun⟩ := Proc.bind_run_inv hrun
  unfold checked at hchecked
  rw [ask_run, Prod.mk.injEq] at hchecked
  obtain ⟨hcheck, rfl⟩ := hchecked
  rw [start_disk] at hcheck
  cases (check_place hcheck).symm.trans hplace
  unfold askOs at hnode
  rw [ask_run, Prod.mk.injEq] at hnode
  change (lstat d l).mapError _ = _ ∧ _ at hnode
  obtain ⟨hnode, rfl⟩ := hnode
  cases hrun
  cases hstat : lstat d l with
  | error er => rw [hstat] at hnode; cases hnode
  | ok y =>
    rw [hstat] at hnode
    cases hnode
    unfold lstat at hstat
    rw [if_neg hl] at hstat
    split at hstat
    · cases hstat
    · rename_i place hentry
      obtain ⟨rfl, -⟩ := ((check_ok hcheck).1.above (List.dropLast_prefix l)).entryAt hentry
      rw [Disk.look, if_neg hl] at hstat
      split at hstat
      · cases hstat
        exact ⟨rfl, ‹_›⟩
      · cases hstat

theorem read_place (hplace : resolveText d raw = .ok l) (i : ReadArgs) (hi : i.path = raw) :
    ∀ q ∈ (fsRead pol i e (World.start d)).2.reads, q = l := by
  have hfine : Proc.Triple e (Before ⟨fun _ _ => True, (· = l), d⟩ d) (fsRead pol i)
      (fun _ => Fine ⟨fun _ _ => True, (· = l), d⟩) (Fine ⟨fun _ _ => True, (· = l), d⟩) := by
    unfold fsRead
    refine Proc.triple_bind triple_checked fun real => ?_
    by_cases hcheck : check pol d i.path false = .ok real
    rotate_left
    · intro w hw
      exact absurd hw.2 hcheck
    have hreal := (check_place hcheck).symm
    rw [hi, hplace] at hreal
    cases hreal
    refine Proc.triple_bind (Proc.triple_weaken triple_askOs_before (fun _ hw => hw.1)
      (fun _ _ h => h) fun _ h => h) fun x => ?_
    split
    · refine Proc.triple_bind (Proc.triple_weaken (keeps_readFile (D := (· = d)) ?_)
        (fun w hw => ⟨hw.2, hw.1⟩) (fun _ w hw => hw.1) fun _ hw => hw.1) fun f => ?_
      · rintro d q rfl hq
        exact ((check_ok hcheck).1.follow hq).1
      · split
        · exact triple_fail _ fun w hw => hw
        · exact Proc.triple_pure fun w hw => hw
    · exact triple_fail _ fun w hw => hw.2
  have hrun := hfine (World.start d) (before_start _ rfl)
  rcases hr : fsRead pol i e (World.start d) with ⟨a, w'⟩
  rw [hr] at hrun
  cases a <;> exact hrun.reads

theorem rename_place (hentry : entryText d raw = .ok l) (i : RenameArgs) (hi : i.src = raw) :
    ∀ δ ∈ (fsRename pol i e (World.start d)).2.deeds, ∃ t, δ = .move l t := by
  have hfine : Fine ⟨RenameDeed pol d i, fun _ => True, d⟩ (fsRename pol i e (World.start d)).2 := by
    have hrun : Proc.Triple e (Before ⟨RenameDeed pol d i, fun _ => True, d⟩ d) (fsRename pol i)
        (fun _ => Fine ⟨RenameDeed pol d i, fun _ => True, d⟩) (Fine ⟨RenameDeed pol d i, fun _ => True, d⟩) :=
      fsRename_deeds
    have hrun := hrun (World.start d) (before_start _ rfl)
    rcases hr : fsRename pol i e (World.start d) with ⟨a, w'⟩
    rw [hr] at hrun
    cases a <;> exact hrun
  intro δ hδ
  obtain ⟨d1, hdeed⟩ := mem_lawful hfine.lawful hδ
  cases hdeed with
  | @move s t _ hd hadm _ _ _ _ =>
    subst hd
    have hsame := (checkEntry_place (admitRename_ok hadm).1).symm
    rw [hi, hentry] at hsame
    cases hsame
    exact ⟨t, rfl⟩

theorem delete_place (hentry : entryText d raw = .ok l) :
    ∀ δ ∈ (fsDelete pol [raw] e (World.start d)).2.deeds, ∃ stuck, δ = .clear l stuck := by
  have hfine : Fine ⟨fun _ δ => ∃ stuck, δ = .clear l stuck, fun _ => True, d⟩
      (fsDelete pol [raw] e (World.start d)).2 := by
    refine fsDelete_deeds (fun raw' d1 q stuck hturn hrem => ?_) (before_start _ rfl).2
    obtain ⟨rfl, rfl⟩ := deleteTurn_single hturn
    have hsame := (checkEntry_place hrem.checked).symm.trans hentry
    cases hsame
    exact ⟨stuck, rfl⟩
  intro δ hδ
  exact (mem_lawful hfine.lawful hδ).choose_spec

/-- The requests are about what the checks judge. -/
theorem addresses_of (hl : l ≠ []) (hplace : resolveText d raw = .ok l) (hentry : entryText d raw = .ok l) :
    Addresses d raw l where
  place := hplace
  entry := hentry
  stat _ _ := stat_place hplace hl
  read _ _ := read_place hplace
  rename _ _ := rename_place hentry
  delete _ _ := delete_place hentry

/-! ## Which listings can be acted on -/

/-- What resolves to a directory leads to it. -/
theorem eval_of_resolve (hp : Proper p) (h : resolve d p = .ok l) (hdir : d.IsDirAt l) : evalSymlinks d p = .ok l := by
  obtain ⟨cur, xs, m, rfl, hm, rfl, hnext⟩ := resolve_parts h
  cases xs with
  | nil => rwa [List.append_nil, List.append_nil]
  | cons x xs =>
    have hx : Ordinary x := (proper_append.mp hp).2 x List.mem_cons_self
    obtain ⟨-, hdead⟩ := walk_snoc 255 hx (Or.inl rfl) hm (hnext x xs rfl)
    have hdirx : d.IsDirAt (m ++ [x]) := hdir.above ⟨xs, by simp⟩
    rcases hdirx with h0 | ⟨a, ha⟩
    · simp at h0
    · rcases hdead with hnone | ⟨t, _, hlink, -⟩
      · rw [hnone] at ha
        cases ha
      · rw [hlink] at ha
        cases ha

/-- An entry of a directory is where its path resolves to, but for a link that
leads somewhere. -/
theorem resolve_entry {node : Node} (hn : Ordinary n) (h : evalSymlinks d p = .ok l) (hdir : d.IsDirAt l)
    (hget : d.get (l ++ [n]) = some node) :
    resolve d (p ++ [n]) = .ok (l ++ [n]) ↔ (node.isLink = true → evalSymlinks d (p ++ [n]) = .error .noent) := by
  constructor
  · intro hres hlink
    cases heval : evalSymlinks d (p ++ [n]) with
    | ok m =>
      -- a walk does not end at a link
      rw [resolve_eval heval] at hres
      cases hres
      obtain ⟨hplain, -⟩ := walk_ok 255 (Or.inl rfl) (by simp [Proper]) heval
      rcases hplain with h0 | ⟨node', hget', hlink'⟩
      · simp at h0
      · rw [hget] at hget'
        cases hget'
        rw [hlink] at hlink'
        cases hlink'
    | error er =>
      unfold resolve at hres
      rw [List.reverse_append, List.reverse_singleton, List.singleton_append, resolveRev, List.reverse_reverse,
        heval] at hres
      cases er <;> first | rfl | cases hres
  · intro hdead
    cases hlink : node.isLink with
    | true => exact resolve_missing (hdead hlink) h
    | false =>
      obtain ⟨j, hj⟩ := walk_append hdir h
      have hwalk : walk d false j l ([] ++ [n]) = .ok (l ++ [] ++ [n]) :=
        walk_there j (by simpa [Proper] using hn) (by simpa using hdir) (Or.inr ⟨node, by simpa using hget, hlink⟩)
      refine resolve_eval ?_
      unfold evalSymlinks
      rw [hj]
      simpa using hwalk

/-- The requests are about the entry when its name is a text, the path, as it
comes back, leads to the directory, and the entry is no link that leads
somewhere. -/
theorem addresses_iff {node : Node} (hcoded : ∀ m ∈ r.path ++ [n], Coded m) (hdir : d.IsDirAt r.path)
    (hget : d.get (r.path ++ [n]) = some node) :
    Addresses d (request r n) (r.path ++ [n]) ↔ IsText (bytes n) ∧ resolve d (r.path.map again) = .ok r.path ∧
      (node.isLink = true → evalSymlinks d (r.path.map again ++ [n]) = .error .noent) := by
  have hproper := Disk.get_proper hget
  have hmem : n ∈ r.path ++ [n] := List.mem_append_right _ List.mem_cons_self
  have hback := again_eq_iff (hcoded n hmem)
  have hclean := clean_request hcoded hproper
  rw [List.map_append, List.map_singleton] at hclean
  have habs : isAbs (request r n) = true := isAbs_of_clean hclean
  have hplace : resolveText d (request r n) = resolve d (r.path.map again ++ [again n]) := by
    unfold resolveText
    rw [if_pos habs, hclean]
  have hentry : entryText d (request r n) = (resolve d (r.path.map again)).map (· ++ [again n]) := by
    rw [entryText_eq habs (by rw [hclean]; exact List.getLast?_concat), hclean, List.dropLast_concat]
  have hagain : Proper (r.path.map again) := by
    have hall : Proper (clean (request r n)).parts := clean_proper (by rw [hclean])
    rw [hclean] at hall
    exact (proper_append.mp hall).1
  constructor
  · intro h
    have he := h.entry
    rw [hentry] at he
    cases hres : resolve d (r.path.map again) with
    | error er => rw [hres] at he; cases he
    | ok l =>
      rw [hres] at he
      obtain ⟨rfl, hn⟩ := List.append_inj' (Except.ok.inj he) (by simp)
      rw [List.singleton_inj] at hn
      have hp := h.place
      rw [hplace, hn] at hp
      exact ⟨hback.mp hn, rfl, (resolve_entry (hproper n hmem) (eval_of_resolve hagain hres hdir) hdir hget).mp hp⟩
  · rintro ⟨htext, hres, hdead⟩
    have hn := hback.mpr htext
    refine addresses_of (by simp) ?_ ?_
    · rw [hplace, hn]
      exact (resolve_entry (hproper n hmem) (eval_of_resolve hagain hres hdir) hdir hget).mpr hdead
    · rw [hentry, hres, hn]
      rfl

/-- A listing can be acted on when its names are texts, its path, as it comes
back, still leads to the directory, and its links are dead. -/
theorem listed_iff (hbytes : Bytewise w.disk) (h : fsList pol path e w = (.ok r, w')) (hdir : r.virtual = false) :
    Addressed w.disk r ∧ Distinct r ↔
      (∀ x ∈ r.entries, IsText (bytes x.1)) ∧
        (r.entries = [] ∨ resolve w.disk (r.path.map again) = .ok r.path) ∧
        ∀ x ∈ r.entries, x.2.isLink = true → evalSymlinks w.disk (r.path.map again ++ [x.1]) = .error .noent := by
  obtain ⟨-, hisdir, hentries⟩ := listing_run h hdir
  have hcoded : ∀ x ∈ r.entries, ∀ m ∈ r.path ++ [x.1], Coded m := by
    intro x hx
    refine hbytes _ ?_
    rw [hentries x hx]
    rfl
  have haddress := fun x hx => addresses_iff (hcoded x hx) hisdir (hentries x hx)
  constructor
  · rintro ⟨haddr, -⟩
    have hall := fun x hx => (haddress x hx).mp (haddr x hx)
    refine ⟨fun x hx => (hall x hx).1, ?_, fun x hx => (hall x hx).2.2⟩
    cases hr : r.entries with
    | nil => exact .inl rfl
    | cons x xs => exact .inr (hall x (hr ▸ List.mem_cons_self)).2.1
  · rintro ⟨htext, hpath, hdead⟩
    constructor
    · intro x hx
      have hne : r.entries ≠ [] := List.ne_nil_of_mem hx
      exact (haddress x hx).mpr ⟨htext x hx, hpath.resolve_left hne, hdead x hx⟩
    · intro x hx y hy hsame
      have hback : ∀ z ∈ r.entries, again z.1 = z.1 := fun z hz =>
        again_of_text (hcoded z hz z.1 (List.mem_append_right _ List.mem_cons_self)) (htext z hz)
      have hname : x.1 = y.1 := by
        rw [← hback x hx, ← hback y hy]
        exact congrArg asked hsame
      have hnode := hentries x hx
      rw [hname, hentries y hy] at hnode
      exact Prod.ext hname (Option.some.inj hnode).symm

/-- What the agent is asked then is the path itself, byte for byte. -/
theorem request_exact (hp : ∀ m ∈ r.path ++ [n], Coded m) (hord : Proper r.path)
    (htext : ∀ m ∈ r.path ++ [n], IsText (bytes m)) : request r n = spell (r.path ++ [n]) := by
  have hsame : (r.path ++ [n]).map again = r.path ++ [n] := by
    conv => rhs; rw [← List.map_id (r.path ++ [n])]
    exact List.map_congr_left fun m hm => again_of_text (hp m hm) (htext m hm)
  rw [request_eq (fun m hm => hp m (List.mem_append_left _ hm)) hord, hsame]

/-! ## Two directories -/

def noteFile : Node := .file ⟨[], 0, ⟨0o644, 0, 0⟩, false⟩

/-- A site with one page, whose name is not ASCII. -/
def pageDisk : Disk := confinement.webDisk.put ["var", "www", latin1 (utf8 "é")] noteFile

example : shown (latin1 (utf8 "é")) = "é" := by decide +kernel

/-- A site with two files, of which the name of one is no text, and the name of
the other the mark for that. -/
def markedDisk : Disk :=
  (confinement.webDisk.put ["var", "www", latin1 [0xFF]] noteFile).put ["var", "www", latin1 (utf8 "\uFFFD")] noteFile

instance (d : Disk) : Decidable (Bytewise d) :=
  decidable_of_iff (∀ l ∈ d.tree.known, (d.get l).isSome → ∀ n ∈ l, Coded n)
    ⟨fun h l hl => h l (d.tree.covers l hl) hl, fun h l _ hl => h l hl⟩

theorem list_there {real : Loc} (hp : ¬ (path = "" ∨ path = "/")) (hcheck : check pol w.disk path false = .ok real)
    (hd : dirAt w.disk real = .ok real) :
    fsList pol path e w = (.ok ⟨real, (entriesAt w.disk real).take 5000, false,
      decide (5000 < (entriesAt w.disk real).length)⟩, w) := by
  have hitems : askOs (fun d => (dirAt d real).map (entriesAt d)) e w = (.ok (entriesAt w.disk real), w) := by
    refine ask_ok ?_
    change ((dirAt w.disk real).map (entriesAt w.disk)).mapError _ = _
    rw [hd]
    rfl
  have hchecked : checked pol path false e w = (.ok real, w) := ask_ok hcheck
  unfold fsList
  rw [if_neg hp]
  unfold listDir
  rw [Proc.bind_run_ok hchecked, Proc.bind_run_ok hitems]
  rfl

def pageListing : ListReply := ⟨["var", "www"], [(latin1 (utf8 "é"), noteFile)], false, false⟩

theorem page_run : fsList confinement.webPolicy "/var/www" (calm 0 []) (World.start pageDisk) =
    (.ok pageListing, World.start pageDisk) := by
  have hentries : entriesAt (World.start pageDisk).disk ["var", "www"] = [(latin1 (utf8 "é"), noteFile)] := by
    decide +kernel
  have hcheck : check confinement.webPolicy (World.start pageDisk).disk "/var/www" false = .ok ["var", "www"] := by
    decide +kernel
  rw [list_there (by decide) hcheck (by decide +kernel), hentries]
  rfl

/-- A page whose name is not ASCII can be acted on. -/
theorem page_listed : Addressed (World.start pageDisk).disk pageListing ∧ Distinct pageListing := by
  have hbytes : Bytewise (World.start pageDisk).disk := by decide +kernel
  exact (listed_iff hbytes page_run rfl).mpr ⟨by decide +kernel, .inr (by decide +kernel), by decide +kernel⟩

def markedListing : ListReply :=
  ⟨["var", "www"], [(latin1 (utf8 "\uFFFD"), noteFile), (latin1 [0xFF], noteFile)], false, false⟩

theorem marked_run : fsList confinement.webPolicy "/var/www" (calm 0 []) (World.start markedDisk) =
    (.ok markedListing, World.start markedDisk) := by
  have hentries : entriesAt (World.start markedDisk).disk ["var", "www"] =
      [(latin1 (utf8 "\uFFFD"), noteFile), (latin1 [0xFF], noteFile)] := by decide +kernel
  have hcheck : check confinement.webPolicy (World.start markedDisk).disk "/var/www" false =
      .ok ["var", "www"] := by decide +kernel
  rw [list_there (by decide) hcheck (by decide +kernel), hentries]
  rfl

/-- Two files of one name for the hub: a request for the one is about the other. -/
theorem marked_confused : ¬ ∀ pol path e w r w', Bytewise w.disk → fsList pol path e w = (.ok r, w') →
    r.virtual = false → Addressed w.disk r ∧ Distinct r := by
  intro h
  have hbytes : Bytewise (World.start markedDisk).disk := by decide +kernel
  have hdistinct := (h _ _ _ _ _ _ hbytes marked_run rfl).2
  have hsame : shown (latin1 (utf8 "\uFFFD")) = shown (latin1 [0xFF]) := by decide +kernel
  have heq := hdistinct (latin1 (utf8 "\uFFFD"), noteFile) List.mem_cons_self (latin1 [0xFF], noteFile)
    (List.mem_cons_of_mem _ List.mem_cons_self) hsame
  exact absurd (congrArg Prod.fst heq) (by decide +kernel)

end icsd_panel.listings

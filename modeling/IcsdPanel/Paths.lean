-- The paths of the agent: what Go's `filepath` makes of the text of a
-- request. A clean path is the list of its names.
import Mathlib.Data.List.Basic
import Mathlib.Data.List.Infix
import Mathlib.Tactic.Common

namespace icsd_panel.paths

abbrev Name := String

/-- A place on the disk: the names that lead to it from `/`. -/
abbrev Loc := List Name

/-- A path that `filepath.Clean` gives. -/
structure CleanPath where
  abs : Bool
  parts : List Name
deriving DecidableEq, Repr

/-- A name that an entry can have, and that `Clean` keeps as it is. -/
def Ordinary (n : Name) : Prop := ¬ (n = "" ∨ n = ".") ∧ n ≠ ".." ∧ '/' ∉ n.toList

instance (n : Name) : Decidable (Ordinary n) := inferInstanceAs (Decidable (_ ∧ _))

/-- A list of names that a walk takes one by one. -/
def Proper (p : Loc) : Prop := ∀ n ∈ p, Ordinary n

instance (p : Loc) : Decidable (Proper p) := inferInstanceAs (Decidable (∀ n ∈ p, Ordinary n))

/-- `filepath.IsAbs`. -/
def isAbs (raw : String) : Bool := raw.toList.head? = some '/'

/-- `strings.Split(raw, "/")`. -/
def splitSlash (raw : String) : List Name := (raw.toList.splitOn '/').map String.ofList

/-- One name of a path on the stack of `filepath.Clean`, its top first. -/
def pushPart (abs : Bool) (stack : List Name) (c : Name) : List Name :=
  if c = "" ∨ c = "." then stack
  else if c = ".." then
    match stack with
    | [] => if abs then [] else [".."]
    | top :: rest => if top = ".." then ".." :: top :: rest else rest
  else c :: stack

/-- `filepath.Clean`. -/
def clean (raw : String) : CleanPath where
  abs := isAbs raw
  parts := ((splitSlash raw).foldl (pushPart (isAbs raw)) []).reverse

/-- `within(p, root)` for clean absolute paths: `p` is `root` or below it. -/
def within (p root : Loc) : Bool := root.isPrefixOf p

theorem within_iff (p root : Loc) : within p root = true ↔ root <+: p := by
  simp [within]

theorem pushPart_ordinary {stack : List Name} {c : Name} (hc : '/' ∉ c.toList)
    (h : ∀ x ∈ stack, Ordinary x) : ∀ x ∈ pushPart true stack c, Ordinary x := by
  intro x hx
  unfold pushPart at hx
  split at hx
  · exact h x hx
  · rename_i hdot
    split at hx
    · cases stack with
      | nil => simp at hx
      | cons top rest =>
        simp only [(h top List.mem_cons_self).2.1, if_false] at hx
        exact h x (List.mem_cons_of_mem _ hx)
    · rename_i hdd
      rcases List.mem_cons.mp hx with rfl | hx
      · exact ⟨hdot, hdd, hc⟩
      · exact h x hx

theorem foldl_pushPart_ordinary (cs : List Name) {stack : List Name} (hcs : ∀ c ∈ cs, '/' ∉ c.toList)
    (h : ∀ x ∈ stack, Ordinary x) : ∀ x ∈ cs.foldl (pushPart true) stack, Ordinary x := by
  induction cs generalizing stack with
  | nil => exact h
  | cons c cs ih =>
    exact ih (fun x hx => hcs x (List.mem_cons_of_mem c hx))
      (pushPart_ordinary (hcs c List.mem_cons_self) h)

theorem not_mem_splitOn {α : Type} [DecidableEq α] (a : α) (xs : List α) :
    ∀ l ∈ xs.splitOn a, a ∉ l := by
  induction xs with
  | nil => simp
  | cons x xs ih =>
    rw [List.splitOn_cons_eq_if_modifyHead]
    split
    · rintro l (_ | ⟨_, hl⟩)
      · simp
      · exact ih l hl
    · rename_i hx
      cases hs : xs.splitOn a with
      | nil => simp
      | cons y ys =>
        rw [hs] at ih
        rintro l (_ | ⟨_, hl⟩)
        · have hy := ih y List.mem_cons_self
          have hax : a ≠ x := fun h => hx (by simp [h])
          simp [hax, hy]
        · exact ih l (List.mem_cons_of_mem y hl)

theorem splitSlash_no_slash (raw : String) : ∀ c ∈ splitSlash raw, '/' ∉ c.toList := by
  intro c hc
  obtain ⟨l, hl, rfl⟩ := List.mem_map.mp hc
  rw [String.toList_ofList]
  exact not_mem_splitOn '/' _ l hl

/-- A clean absolute path has no empty name, no `.` and no `..`. -/
theorem clean_proper {raw : String} (h : (clean raw).abs = true) : Proper (clean raw).parts := by
  intro x hx
  have habs : isAbs raw = true := h
  simp only [clean, habs, List.mem_reverse] at hx
  exact foldl_pushPart_ordinary _ (splitSlash_no_slash raw) (by simp) x hx

theorem proper_append {p q : Loc} : Proper (p ++ q) ↔ Proper p ∧ Proper q := by
  unfold Proper
  constructor
  · intro h
    exact ⟨fun n hn => h n (List.mem_append_left _ hn), fun n hn => h n (List.mem_append_right _ hn)⟩
  · rintro ⟨hp, hq⟩ n hn
    rcases List.mem_append.mp hn with hn | hn
    · exact hp n hn
    · exact hq n hn

theorem proper_above {p q : Loc} (h : p <+: q) (hq : Proper q) : Proper p :=
  fun n hn => hq n (h.subset hn)

example : clean "/var/./www//a/../b/" = ⟨true, ["var", "www", "b"]⟩ := by decide

/-! ## Names -/

/-- `strings.HasPrefix` of a name. -/
def hasPrefix (n pre : Name) : Bool := pre.toList.isPrefixOf n.toList

/-- `strings.HasSuffix` of a name. -/
def hasSuffix (n suf : Name) : Bool := suf.toList.isSuffixOf n.toList

/-- A path with text put at its end, as `dest += suf` does. -/
def appendText (p : Loc) (suf : String) : Loc :=
  match p.getLast? with
  | none => [suf]
  | some last => p.dropLast ++ [last ++ suf]

theorem appendText_dropLast (p : Loc) (suf : String) : (appendText p suf).dropLast = p.dropLast := by
  unfold appendText
  split
  · rename_i h
    simp [List.getLast?_eq_none_iff.mp h]
  · simp

theorem appendText_ne_nil (p : Loc) (suf : String) : appendText p suf ≠ [] := by
  unfold appendText
  split <;> simp

/-- A path split at its last name. -/
theorem dropLast_append_getLast {p : Loc} (h : p ≠ []) : ∃ q n, p = q ++ [n] :=
  ⟨p.dropLast, p.getLast h, (List.dropLast_concat_getLast h).symm⟩

theorem prefix_concat_iff {l q : Loc} {n : Name} :
    l <+: q ++ [n] ↔ l = q ++ [n] ∨ l <+: q := by
  rw [List.prefix_concat_iff]

/-! ## The text of a path -/

/-- The text of a clean absolute path. -/
def spell (p : Loc) : String := "/" ++ String.intercalate "/" p

theorem foldl_pushPart_proper {abs : Bool} {p : Loc} (hp : Proper p) (stack : List Name) :
    p.foldl (pushPart abs) stack = p.reverse ++ stack := by
  induction p generalizing stack with
  | nil => rfl
  | cons n p ih =>
    obtain ⟨h1, h2, _⟩ := hp n List.mem_cons_self
    have hpush : pushPart abs stack n = n :: stack := by
      unfold pushPart
      rw [if_neg h1, if_neg h2]
    rw [List.foldl_cons, hpush, ih fun m hm => hp m (List.mem_cons_of_mem _ hm)]
    simp

/-- The names of a text are split as they were joined. -/
theorem splitSlash_intercalate {p : Loc} (hp : Proper p) (hne : p ≠ []) :
    splitSlash (String.intercalate "/" p) = p := by
  have hsplit : (['/'].intercalate (p.map String.toList)).splitOn '/' = p.map String.toList := by
    refine List.splitOn_intercalate '/' (fun l hl => ?_) (by simpa using hne)
    obtain ⟨n, hn, rfl⟩ := List.mem_map.mp hl
    exact (hp n hn).2.2
  have htext : (String.intercalate "/" p).toList = ['/'].intercalate (p.map String.toList) := by
    rw [String.toList_intercalate]
    rfl
  unfold splitSlash
  rw [htext, hsplit, List.map_map]
  simp

theorem isAbs_spell (p : Loc) : isAbs (spell p) = true := by
  unfold isAbs spell
  rw [String.toList_append]
  rfl

theorem splitSlash_slash (s : String) : splitSlash ("/" ++ s) = "" :: splitSlash s := by
  unfold splitSlash
  rw [String.toList_append]
  show List.map String.ofList (List.splitOn '/' ('/' :: s.toList)) = _
  rw [List.splitOn_cons_eq_if_modifyHead]
  simp

/-- A clean path is read back from its text. -/
theorem clean_spell {p : Loc} (hp : Proper p) : clean (spell p) = ⟨true, p⟩ := by
  have hfold : (splitSlash (spell p)).foldl (pushPart true) [] = p.reverse := by
    unfold spell
    rw [splitSlash_slash]
    by_cases hne : p = []
    · subst hne
      decide
    · rw [splitSlash_intercalate hp hne, List.foldl_cons]
      have hempty : pushPart true [] "" = [] := by decide
      rw [hempty, foldl_pushPart_proper hp]
      simp
  unfold clean
  rw [isAbs_spell, hfold]
  simp

end icsd_panel.paths

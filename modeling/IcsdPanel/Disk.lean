-- The disk of a managed server: a tree of files, directories and links, and
-- the updates that keep it a tree.
import IcsdPanel.Paths
import IcsdPanel.Trees

open trees

namespace icsd_panel.disk

open paths

abbrev Bytes := List UInt8

inductive Errno
  | noent | notdir | exist | isdir | notempty | loop | inval | busy | io
deriving DecidableEq, Repr

/-- Mode and owner. -/
structure Attr where
  mode : Nat
  uid : Nat
  gid : Nat
deriving DecidableEq, Repr

/-- A regular file. `byPanel` is not on a real disk: it says that the panel
wrote the content, or had it archived or extracted. -/
structure FileData where
  content : Bytes
  mtime : Int
  attr : Attr
  byPanel : Bool
deriving DecidableEq, Repr

/-- Where a symbolic link points, split at the slashes. A slash at the end
counts as a last name `.`. -/
structure Target where
  abs : Bool
  parts : List Name
deriving DecidableEq, Repr

inductive Node
  | file (f : FileData)
  | dir (a : Attr)
  | link (t : Target)
  | other (socket : Bool) (a : Attr)
deriving DecidableEq, Repr

namespace Node

def isDir : Node → Bool
  | .dir _ => true
  | _ => false

def isLink : Node → Bool
  | .link _ => true
  | _ => false

def isFile : Node → Bool
  | .file _ => true
  | _ => false

end Node

/-- What has an entry below it is a directory. -/
def Rooted (t : Tree Name Node) : Prop :=
  ∀ l x, (t.get (l ++ [x])).isSome → l = [] ∨ ∃ a, t.get l = some (.dir a)

/-- No entry has the name `.` or `..`. The root is not in the tree. -/
def Named (t : Tree Name Node) : Prop := ∀ l, (t.get l).isSome → l ≠ [] ∧ Proper l

/-- A disk: a tree of nodes where only directories have entries. The root is
always there, as a directory, and is not in the tree. -/
structure Disk where
  tree : Tree Name Node
  rooted : Rooted tree
  named : Named tree

namespace Disk

def get (d : Disk) (l : Loc) : Option Node := d.tree.get l

/-- What is at a place, the root too. -/
def look (d : Disk) (l : Loc) : Option Node :=
  if l = [] then some (.dir ⟨0o755, 0, 0⟩) else d.get l

def IsDirAt (d : Disk) (l : Loc) : Prop := l = [] ∨ ∃ a, d.get l = some (.dir a)

instance (d : Disk) (l : Loc) : Decidable (d.IsDirAt l) :=
  decidable_of_iff (l = [] ∨ (d.get l).any Node.isDir = true) <| by
    unfold IsDirAt
    rcases d.get l with _ | (_ | _ | _ | _) <;> simp [Node.isDir]

/-- The names in a directory. -/
def names (d : Disk) (l : Loc) : List Name := d.tree.names l

def below (d : Disk) (l : Loc) : List Loc := d.tree.below l

/-- Whether a node can be put at `l`: in a directory, and not a file in the
place of a directory with entries. -/
def Fits (d : Disk) (l : Loc) (n : Node) : Prop :=
  l ≠ [] ∧ Proper l ∧ d.IsDirAt l.dropLast ∧ (n.isDir = true ∨ d.names l = [])

instance (d : Disk) (l : Loc) (n : Node) : Decidable (d.Fits l n) :=
  inferInstanceAs (Decidable (_ ∧ _ ∧ _ ∧ _))

theorem rooted_put {d : Disk} {l : Loc} {n : Node} (h : d.Fits l n) : Rooted (d.tree.put l n) := by
  obtain ⟨_, _, hdir, hn⟩ := h
  intro q x hq
  by_cases hql : q = l
  · subst hql
    rcases hn with hn | hn
    · refine Or.inr ?_
      cases n with
      | dir a => exact ⟨a, by simp⟩
      | _ => simp [Node.isDir] at hn
    · rw [Tree.get_put_ne _ _ (by simp), ← Tree.mem_names] at hq
      have hx : x ∈ d.names q := hq
      simp [hn] at hx
  · by_cases hqx : q ++ [x] = l
    · have hl : l.dropLast = q := by simp [← hqx]
      rw [hl] at hdir
      rcases hdir with h0 | ⟨a, ha⟩
      · exact Or.inl h0
      · exact Or.inr ⟨a, by rw [Tree.get_put_ne _ _ hql]; exact ha⟩
    · rw [Tree.get_put_ne _ _ hqx] at hq
      rcases d.rooted q x hq with h0 | ⟨a, ha⟩
      · exact Or.inl h0
      · exact Or.inr ⟨a, by rw [Tree.get_put_ne _ _ hql]; exact ha⟩

theorem named_put {d : Disk} {l : Loc} {n : Node} (h : d.Fits l n) : Named (d.tree.put l n) := by
  intro q hq
  by_cases hql : q = l
  · rw [hql]; exact ⟨h.1, h.2.1⟩
  · rw [Tree.get_put_ne _ _ hql] at hq
    exact d.named q hq

/-- Puts a node where it fits. -/
def put (d : Disk) (l : Loc) (n : Node) : Disk :=
  if h : d.Fits l n then ⟨d.tree.put l n, rooted_put h, named_put h⟩ else d

theorem rooted_remove {d : Disk} {l : Loc} (h : d.names l = []) : Rooted (d.tree.remove l) := by
  intro q x hq
  have hne : q ++ [x] ≠ l := by
    rintro rfl
    simp at hq
  rw [Tree.get_remove_ne _ hne] at hq
  have hql : q ≠ l := by
    rintro rfl
    have hx : x ∈ d.names q := (Tree.mem_names _ _ _).mpr hq
    simp [h] at hx
  rcases d.rooted q x hq with h0 | ⟨a, ha⟩
  · exact Or.inl h0
  · exact Or.inr ⟨a, by rw [Tree.get_remove_ne _ hql]; exact ha⟩

theorem named_remove (d : Disk) (l : Loc) : Named (d.tree.remove l) := by
  intro q hq
  rw [Tree.get_remove] at hq
  split at hq
  · cases hq
  · exact d.named q hq

/-- Removes a node with nothing below it. -/
def remove (d : Disk) (l : Loc) : Disk :=
  if h : d.names l = [] then ⟨d.tree.remove l, rooted_remove h, named_remove d l⟩ else d

/-- What a removal of all at or below `l` takes when the place `stuck` cannot
be removed: neither `stuck`, nor what is below it, nor the way to it. -/
def taken (d : Disk) (l : Loc) (stuck : Option Loc) : List Loc :=
  match stuck with
  | none => d.below l
  | some s => (d.below l).filter fun q => !q.isPrefixOf s && !s.isPrefixOf q

theorem mem_taken {d : Disk} {l q : Loc} {stuck : Option Loc} : q ∈ d.taken l stuck ↔
    l <+: q ∧ (d.get q).isSome ∧ ∀ s, stuck = some s → ¬ q <+: s ∧ ¬ s <+: q := by
  unfold taken
  cases stuck with
  | none => simp [below, Tree.mem_below, get]
  | some s =>
    simp only [List.mem_filter, below, Tree.mem_below, Bool.and_eq_true, Bool.not_eq_true',
      Option.some.injEq, forall_eq']
    rw [← Bool.not_eq_true, ← Bool.not_eq_true, List.isPrefixOf_iff_prefix,
      List.isPrefixOf_iff_prefix, and_assoc]
    rfl

theorem rooted_taken (d : Disk) (l : Loc) (stuck : Option Loc) :
    Rooted (d.tree.removeAll (d.taken l stuck)) := by
  intro q x hq
  rw [Tree.get_removeAll] at hq
  split at hq
  · cases hq
  · rename_i hnot
    rcases d.rooted q x hq with h0 | ⟨a, ha⟩
    · exact Or.inl h0
    · refine Or.inr ⟨a, ?_⟩
      rw [Tree.get_removeAll, if_neg ?_]
      · exact ha
      -- A place that stays keeps the directory above it.
      intro hin
      obtain ⟨hlq, _, hs⟩ := mem_taken.mp hin
      apply hnot
      refine mem_taken.mpr ⟨hlq.trans (List.prefix_append q [x]), hq, ?_⟩
      intro s hst
      obtain ⟨h1, h2⟩ := hs s hst
      refine ⟨fun h => h1 ((List.prefix_append q [x]).trans h), fun h => ?_⟩
      rcases prefix_concat_iff.mp h with h | h
      · subst h
        exact h1 (List.prefix_append q [x])
      · exact h2 h

theorem named_taken (d : Disk) (l : Loc) (stuck : Option Loc) :
    Named (d.tree.removeAll (d.taken l stuck)) := by
  intro q hq
  rw [Tree.get_removeAll] at hq
  split at hq
  · cases hq
  · exact d.named q hq

/-- Removes all at or below `l`, as far as `stuck` lets it. -/
def removeBelow (d : Disk) (l : Loc) (stuck : Option Loc) : Disk :=
  ⟨d.tree.removeAll (d.taken l stuck), rooted_taken d l stuck, named_taken d l stuck⟩

theorem rooted_move {d : Disk} {s t : Loc} (hs : s ≠ []) (ht : t ≠ [])
    (hdir : d.IsDirAt t.dropLast) (hst : ¬ s <+: t) : Rooted (d.tree.move s t) := by
  intro q x hq
  by_cases htq : t <+: q ++ [x]
  · rcases prefix_concat_iff.mp htq with h | ⟨r, rfl⟩
    · -- The moved node itself: its directory was not moved.
      subst h
      rw [List.dropLast_concat] at hdir
      rcases hdir with h0 | ⟨a, ha⟩
      · exact Or.inl h0
      · refine Or.inr ⟨a, ?_⟩
        rw [Tree.get_move_else]
        · exact ha
        · exact fun h => hst (h.trans (List.prefix_append q [x]))
        · intro h
          have := h.length_le
          simp only [List.length_append, List.length_singleton] at this
          omega
    · rw [List.append_assoc, Tree.get_move_dst, ← List.append_assoc] at hq
      refine Or.inr ?_
      rw [Tree.get_move_dst]
      rcases d.rooted _ x hq with h0 | h1
      · simp [hs] at h0
      · exact h1
  · by_cases hsq : s <+: q ++ [x]
    · rw [Tree.get_move, if_neg htq, if_pos hsq] at hq
      cases hq
    · rw [Tree.get_move_else _ hsq htq] at hq
      have h1 : ¬ s <+: q := fun h => hsq (h.trans (List.prefix_append q [x]))
      have h2 : ¬ t <+: q := fun h => htq (h.trans (List.prefix_append q [x]))
      rcases d.rooted q x hq with h0 | ⟨a, ha⟩
      · exact Or.inl h0
      · exact Or.inr ⟨a, by rw [Tree.get_move_else _ h1 h2]; exact ha⟩

theorem named_move {d : Disk} {s t : Loc} (ht : t ≠ []) (hp : Proper t) :
    Named (d.tree.move s t) := by
  intro q hq
  rw [Tree.get_move] at hq
  split at hq
  · rename_i htq
    obtain ⟨r, rfl⟩ := htq
    rw [List.drop_left] at hq
    exact ⟨by simp [ht], proper_append.mpr ⟨hp, (proper_append.mp (d.named _ hq).2).2⟩⟩
  · split at hq
    · cases hq
    · exact d.named q hq

/-- Moves the node at `s`, and all below it, to `t`. -/
def move (d : Disk) (s t : Loc) : Disk :=
  if h : s ≠ [] ∧ t ≠ [] ∧ Proper t ∧ d.IsDirAt t.dropLast ∧ ¬ s <+: t then
    ⟨d.tree.move s t, rooted_move h.1 h.2.1 h.2.2.2.1 h.2.2.2.2, named_move h.2.1 h.2.2.1⟩
  else d

end Disk

/-- The disk with nothing but its root. -/
def Disk.bare : Disk where
  tree := .empty
  rooted _ _ h := by cases h
  named _ h := by cases h

namespace Disk

/-! ## What each update leaves where -/

variable {d : Disk} {l q s t : Loc} {n : Node}

theorem get_put (h : d.Fits l n) : (d.put l n).get q = if q = l then some n else d.get q := by
  unfold put
  rw [dif_pos h]
  rfl

theorem get_put_self (h : d.Fits l n) : (d.put l n).get l = some n := by simp [get_put h]

theorem get_put_ne (h : q ≠ l) : (d.put l n).get q = d.get q := by
  unfold put
  split
  · exact Tree.get_put_ne _ _ h
  · rfl

theorem get_remove (h : d.names l = []) :
    (d.remove l).get q = if q = l then none else d.get q := by
  unfold remove
  rw [dif_pos h]
  rfl

theorem get_remove_ne (h : q ≠ l) : (d.remove l).get q = d.get q := by
  unfold remove
  split
  · exact Tree.get_remove_ne _ h
  · rfl

theorem get_removeBelow (stuck : Option Loc) :
    (d.removeBelow l stuck).get q = if q ∈ d.taken l stuck then none else d.get q := rfl

theorem get_removeBelow_else (stuck : Option Loc) (h : ¬ l <+: q) :
    (d.removeBelow l stuck).get q = d.get q := by
  rw [get_removeBelow, if_neg]
  exact fun hq => h (mem_taken.mp hq).1

theorem get_move_else (hs : ¬ s <+: q) (ht : ¬ t <+: q) : (d.move s t).get q = d.get q := by
  unfold move
  split
  · exact Tree.get_move_else _ hs ht
  · rfl

theorem get_move (hs : s ≠ []) (ht : t ≠ []) (hp : Proper t) (hdir : d.IsDirAt t.dropLast)
    (hst : ¬ s <+: t) : (d.move s t).get q =
      if t <+: q then d.get (s ++ q.drop t.length)
      else if s <+: q then none
      else d.get q := by
  unfold move
  rw [dif_pos ⟨hs, ht, hp, hdir, hst⟩]
  rfl

theorem mem_below : q ∈ d.below l ↔ l <+: q ∧ (d.get q).isSome := Tree.mem_below _ _ _

theorem mem_names (x : Name) : x ∈ d.names l ↔ (d.get (l ++ [x])).isSome := Tree.mem_names _ _ _

theorem get_ne_nil (h : d.get l = some n) : l ≠ [] := (d.named l (by rw [← get, h]; rfl)).1

theorem get_proper (h : d.get l = some n) : Proper l := (d.named l (by rw [← get, h]; rfl)).2

theorem look_proper (h : d.look l = some n) : Proper l := by
  unfold look at h
  split at h
  · rename_i h0
    rw [h0]
    simp [Proper]
  · exact get_proper h

theorem look_isDirAt (h : d.look l = some n) (hn : n.isDir = true) : d.IsDirAt l := by
  unfold look at h
  split at h
  · exact Or.inl ‹_›
  · cases n with
    | dir a => exact Or.inr ⟨a, h⟩
    | _ => simp [Node.isDir] at hn

/-! ## The way to a place -/

/-- Every place on the way to something is a directory. -/
theorem isDirAt_of_below {r : Loc} (hr : r ≠ []) (h : (d.get (l ++ r)).isSome) : d.IsDirAt l := by
  induction r using List.reverseRecOn with
  | nil => exact absurd rfl hr
  | append_singleton r x ih =>
    rw [← List.append_assoc] at h
    by_cases hr0 : r = []
    · subst hr0
      rw [List.append_nil] at h
      exact d.rooted l x h
    · rcases d.rooted (l ++ r) x h with h0 | ⟨a, ha⟩
      · exact Or.inl (List.append_eq_nil_iff.mp h0).1
      · exact ih hr0 (by rw [get, ha]; rfl)

theorem isDirAt_above (h : l <+: q) (hne : l ≠ q) (hq : (d.get q).isSome) : d.IsDirAt l := by
  obtain ⟨r, rfl⟩ := h
  exact isDirAt_of_below (by rintro rfl; simp at hne) hq

theorem isDirAt_dropLast (h : (d.get l).isSome) : d.IsDirAt l.dropLast := by
  rcases List.eq_nil_or_concat l with rfl | ⟨q, x, rfl⟩
  · exact Or.inl rfl
  · rw [List.concat_eq_append, List.dropLast_concat]
    rw [List.concat_eq_append] at h
    exact d.rooted q x h

theorem IsDirAt.above (hq : d.IsDirAt q) (h : l <+: q) : d.IsDirAt l := by
  by_cases hne : l = q
  · rwa [hne]
  · rcases hq with rfl | ⟨a, ha⟩
    · exact Or.inl (List.prefix_nil.mp h)
    · exact isDirAt_above h hne (by rw [ha]; rfl)

/-- Nothing is below a missing place, a file or a link. -/
theorem get_below_none (h : ¬ d.IsDirAt l) {r : Loc} (hr : r ≠ []) : d.get (l ++ r) = none := by
  by_contra hne
  exact h (isDirAt_of_below hr (Option.isSome_iff_ne_none.mpr hne))

/-- What is not a directory has nothing below it. -/
theorem not_below (hq : ¬ d.IsDirAt q) (hne : l ≠ q) (hthere : (d.get l).isSome) : ¬ q <+: l := by
  rintro ⟨r, rfl⟩
  rw [get_below_none hq (by rintro rfl; simp at hne)] at hthere
  cases hthere

/-- Nothing is below a free place. -/
theorem free_above (ht : t ≠ []) (hfree : d.get t = none) (hq : (d.get q).isSome) : ¬ t <+: q := by
  refine not_below ?_ (fun heq => ?_) hq
  · rintro (h0 | ⟨a, ha⟩)
    · exact ht h0
    · rw [hfree] at ha
      cases ha
  · rw [heq, hfree] at hq
    cases hq

theorem names_nil (h : ¬ d.IsDirAt l) : d.names l = [] := by
  rw [List.eq_nil_iff_forall_not_mem]
  intro x hx
  rw [mem_names, get_below_none h (by simp)] at hx
  cases hx

end Disk

end icsd_panel.disk

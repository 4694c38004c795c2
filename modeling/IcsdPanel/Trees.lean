-- Trees of named nodes, each at the list of the names that lead to it. The
-- updates of a file system: put one node, remove one, remove or move one with
-- all that is below it.
import Mathlib.Data.List.Infix
import Mathlib.Data.List.Dedup
import Mathlib.Tactic.Common

namespace trees

variable {κ ν : Type} [DecidableEq κ]

/-- A tree with finitely many nodes: `known` lists every place that holds
one, so the names below a place can be listed. -/
structure Tree (κ ν : Type) where
  get : List κ → Option ν
  known : List (List κ)
  covers : ∀ l, (get l).isSome → l ∈ known

namespace Tree

def put (t : Tree κ ν) (l : List κ) (n : ν) : Tree κ ν where
  get q := if q = l then some n else t.get q
  known := l :: t.known
  covers q h := by
    by_cases hq : q = l
    · simp [hq]
    · exact List.mem_cons_of_mem _ (t.covers q (by simpa [hq] using h))

def remove (t : Tree κ ν) (l : List κ) : Tree κ ν where
  get q := if q = l then none else t.get q
  known := t.known
  covers q h := by
    by_cases hq : q = l
    · simp [hq] at h
    · exact t.covers q (by simpa [hq] using h)

/-- Removes the places of a list, as far as they hold a node. -/
def removeAll (t : Tree κ ν) (ls : List (List κ)) : Tree κ ν where
  get q := if q ∈ ls then none else t.get q
  known := t.known
  covers q h := by
    by_cases hq : q ∈ ls
    · simp [hq] at h
    · exact t.covers q (by simpa [hq] using h)

/-- Moves the node at `src`, and all below it, to `dst`. What was at or below
`dst` goes. -/
def move (t : Tree κ ν) (src dst : List κ) : Tree κ ν where
  get q :=
    if dst <+: q then t.get (src ++ q.drop dst.length)
    else if src <+: q then none
    else t.get q
  known := t.known ++ t.known.map fun q => dst ++ q.drop src.length
  covers q h := by
    rw [List.mem_append, List.mem_map]
    by_cases hd : dst <+: q
    · rw [if_pos hd] at h
      obtain ⟨r, rfl⟩ := hd
      exact Or.inr ⟨_, t.covers _ h, by simp⟩
    · rw [if_neg hd] at h
      split at h
      · cases h
      · exact Or.inl (t.covers q h)

/-- The places at or below `l` that hold a node. -/
def below (t : Tree κ ν) (l : List κ) : List (List κ) :=
  t.known.filter fun q => l.isPrefixOf q && (t.get q).isSome

/-- The names directly below `l`, each once. -/
def names (t : Tree κ ν) (l : List κ) : List κ :=
  ((t.known.filter fun q => (t.get q).isSome).filterMap fun q =>
    if q.dropLast = l then q.getLast? else none).dedup

/-- The tree that holds nothing. -/
def empty : Tree κ ν where
  get _ := none
  known := []
  covers _ h := by cases h

/-! ## What each update leaves where -/

variable (t : Tree κ ν) (l q src dst : List κ) (n : ν)

theorem get_put : (t.put l n).get q = if q = l then some n else t.get q := rfl

@[simp] theorem get_put_self : (t.put l n).get l = some n := by simp [get_put]

theorem get_put_ne {l q : List κ} (h : q ≠ l) : (t.put l n).get q = t.get q := by
  simp [get_put, h]

theorem get_remove : (t.remove l).get q = if q = l then none else t.get q := rfl

@[simp] theorem get_remove_self : (t.remove l).get l = none := by simp [get_remove]

theorem get_remove_ne {l q : List κ} (h : q ≠ l) : (t.remove l).get q = t.get q := by
  simp [get_remove, h]

theorem get_removeAll (ls : List (List κ)) :
    (t.removeAll ls).get q = if q ∈ ls then none else t.get q := rfl

theorem get_move : (t.move src dst).get q =
    if dst <+: q then t.get (src ++ q.drop dst.length)
    else if src <+: q then none
    else t.get q := rfl

@[simp] theorem get_move_dst (r : List κ) : (t.move src dst).get (dst ++ r) = t.get (src ++ r) := by
  simp [get_move]

theorem get_move_else {src dst q : List κ} (hs : ¬ src <+: q) (hd : ¬ dst <+: q) :
    (t.move src dst).get q = t.get q := by
  simp [get_move, hs, hd]

theorem mem_below : q ∈ t.below l ↔ l <+: q ∧ (t.get q).isSome := by
  unfold below
  rw [List.mem_filter, Bool.and_eq_true, List.isPrefixOf_iff_prefix]
  constructor
  · rintro ⟨_, h⟩; exact h
  · intro h; exact ⟨t.covers q h.2, h⟩

theorem mem_names (x : κ) : x ∈ t.names l ↔ (t.get (l ++ [x])).isSome := by
  unfold names
  simp only [List.mem_dedup, List.mem_filterMap, List.mem_filter]
  constructor
  · rintro ⟨p, ⟨_, hp⟩, hx⟩
    split at hx
    · rename_i hl
      obtain ⟨ys, rfl⟩ := List.getLast?_eq_some_iff.mp hx
      rw [List.dropLast_concat] at hl
      rwa [← hl]
    · cases hx
  · intro h
    exact ⟨l ++ [x], ⟨t.covers _ h, h⟩, by simp⟩

end Tree

end trees

-- The way of a path: the places that a walk along it looks at. A walk goes on
-- as before as long as the nodes on its way stay of their kind.
import IcsdPanel.Growth

namespace icsd_panel.ways

open paths disk

variable {d d' : Disk} {p l q r s t : Loc} {n : Node}

/-! ## The way to a place -/

/-- The places that a walk looks at. -/
def wayParts (d : Disk) (onLink : Loc → List Name → List Loc) : Loc → List Name → List Loc
  | _, [] => []
  | l, c :: rest =>
    if c = "" ∨ c = "." then wayParts d onLink l rest
    else if c = ".." then wayParts d onLink l.dropLast rest
    else (l ++ [c]) :: match d.get (l ++ [c]) with
      | some (.link t) => onLink (if t.abs then [] else l) (t.parts ++ rest)
      | some (.dir _) => wayParts d onLink (l ++ [c]) rest
      | _ => []

def wayFrom (d : Disk) : Nat → Loc → List Name → List Loc
  | 0 => wayParts d fun _ _ => []
  | links + 1 => wayParts d (wayFrom d links)

/-- The places that the kernel looks at on its way along a path. -/
def way (d : Disk) (p : Loc) : List Loc := wayFrom d 40 [] p

/-- The same kind of node, or nothing, at a place of two disks. -/
def SameShape (d d' : Disk) (v : Loc) : Prop := (d'.get v).map Node.shape = (d.get v).map Node.shape

theorem walkParts_same {on on' : Loc → List Name → Except Errno Loc} {onLink : Loc → List Name → List Loc}
    {cs : List Name} (hon : ∀ l cs, (∀ v ∈ onLink l cs, SameShape d d' v) → on' l cs = on l cs)
    (h : ∀ v ∈ wayParts d onLink l cs, SameShape d d' v) :
    walkParts d' false on' l cs = walkParts d false on l cs := by
  induction cs generalizing l with
  | nil => rfl
  | cons c cs ih =>
    unfold wayParts at h
    unfold walkParts
    split at h
    · rename_i h1
      rw [if_pos h1, if_pos h1]
      exact ih h
    · rename_i h1
      rw [if_neg h1, if_neg h1]
      split at h
      · rename_i h2
        rw [if_pos h2, if_pos h2]
        exact ih h
      · rename_i h2
        rw [if_neg h2, if_neg h2]
        have hhere := h _ List.mem_cons_self
        have hrest := fun v hv => h v (List.mem_cons_of_mem _ hv)
        unfold SameShape at hhere
        rcases hn : d.get (l ++ [c]) with _ | (f | a | t | ⟨sk, a⟩) <;> rw [hn] at hhere hrest <;>
          rcases hn' : d'.get (l ++ [c]) with _ | (f' | a' | t' | ⟨sk', a'⟩) <;> rw [hn'] at hhere <;>
          simp only [Option.map_some, Option.map_none, Node.shape, Option.some.injEq, reduceCtorEq,
            Shape.link.injEq] at hhere
        -- what is neither a directory nor a link ends both walks
        · exact ih hrest
        · rw [hhere]
          exact hon _ _ hrest

/-- A walk sees no more of the disk than the kinds of the nodes on its way. -/
theorem walk_same {k : Nat} {cs : List Name} (h : ∀ v ∈ wayFrom d k l cs, SameShape d d' v) :
    walk d' false k l cs = walk d false k l cs := by
  induction k generalizing l cs with
  | zero => exact walkParts_same (fun _ _ _ => rfl) h
  | succ k ih => exact walkParts_same (fun _ _ h => ih h) h

/-- From each place on the way to `r` the walk goes on to `r`. -/
def Onward (d : Disk) (r v : Loc) : Prop :=
  ∃ l x xs j, v = l ++ [x] ∧ ¬ (x = "" ∨ x = ".") ∧ x ≠ ".." ∧ walk d false j l (x :: xs) = .ok r

theorem wayParts_onward {on : Loc → List Name → Except Errno Loc} {onLink : Loc → List Name → List Loc}
    {cs : List Name} (hself : ∀ l cs, walkParts d false on l cs = .ok r → ∃ j, walk d false j l cs = .ok r)
    (hon : ∀ l cs, on l cs = .ok r → ∀ v ∈ onLink l cs, Onward d r v)
    (h : walkParts d false on l cs = .ok r) : ∀ v ∈ wayParts d onLink l cs, Onward d r v := by
  induction cs generalizing l with
  | nil => simp [wayParts]
  | cons c cs ih =>
    have hwhole := h
    unfold walkParts at h
    unfold wayParts
    split at h
    · rw [if_pos ‹_›]
      exact ih h
    · rename_i h1
      rw [if_neg h1]
      split at h
      · rw [if_pos ‹_›]
        exact ih h
      · rename_i h2
        rw [if_neg h2]
        have hhere : Onward d r (l ++ [c]) := by
          obtain ⟨j, hj⟩ := hself _ _ hwhole
          exact ⟨l, c, cs, j, rfl, h1, h2, hj⟩
        rcases hn : d.get (l ++ [c]) with _ | (f | a | t | ⟨sk, a⟩) <;> rw [hn] at h
        · simpa using hhere
        · simpa using hhere
        · exact List.forall_mem_cons.mpr ⟨hhere, ih h⟩
        · exact List.forall_mem_cons.mpr ⟨hhere, hon _ _ h⟩
        · simpa using hhere

theorem way_onward {k : Nat} {cs : List Name} (h : walk d false k l cs = .ok r) :
    ∀ v ∈ wayFrom d k l cs, Onward d r v := by
  induction k generalizing l cs with
  | zero => exact wayParts_onward (fun _ _ h => ⟨0, h⟩) (fun _ _ h => by cases h) h
  | succ k ih => exact wayParts_onward (fun _ _ h => ⟨k + 1, h⟩) (fun _ _ h => ih h) h

/-- On the way to a place nothing is missing. -/
theorem Onward.there {v : Loc} (h : Onward d r v) : (d.get v).isSome := by
  obtain ⟨l, x, xs, j, rfl, h1, h2, hwalk⟩ := h
  rcases hget : d.get (l ++ [x]) with _ | n
  · cases j <;> simp [walk, walkParts, h1, h2, hget] at hwalk
  · rfl

/-- A walk that comes to a file ends there. -/
theorem Onward.leaf {v : Loc} (h : Onward d r v) (hn : (d.get v).map Node.shape = some .leaf) : v = r := by
  obtain ⟨l, x, xs, j, rfl, h1, h2, hwalk⟩ := h
  rcases hget : d.get (l ++ [x]) with _ | (f | a | t | ⟨sk, a⟩) <;> rw [hget] at hn <;> try cases hn
  all_goals
    cases j <;> simp only [walk, walkParts, h1, h2, if_false, hget] at hwalk <;> split at hwalk <;> cases hwalk <;> rfl

/-- No walk that ends somewhere comes to a place that a check resolved to and
that is a link: it leads nowhere. -/
theorem Onward.bare {v : Loc} (h : Onward d r v) (hres : Resolved d v) (t : Target) : d.get v ≠ some (.link t) := by
  intro hlink
  obtain ⟨l, x, xs, j, rfl, -, -, hwalk⟩ := h
  obtain ⟨hproper, (h0 | ⟨n, hn, hbare⟩) | ⟨m, y, ys, heq, -, hdead⟩⟩ := hres
  · simp at h0
  · rw [hlink] at hn
    cases hn
    cases hbare
  · by_cases hys : ys = []
    · subst hys
      obtain ⟨rfl, hxy⟩ := List.append_inj' heq (by simp)
      rw [List.singleton_inj] at hxy
      subst hxy
      exact hdead.walk j (hproper x (by simp)) hwalk
    · have hdir : d.IsDirAt (m ++ [y]) := by
        refine Disk.isDirAt_of_below hys ?_
        rw [List.append_assoc, List.singleton_append, ← heq, hlink]
        rfl
      rcases hdir with h0 | ⟨a, ha⟩
      · simp at h0
      · rcases hdead with hnone | ⟨t', _, hlink', -⟩
        · rw [hnone] at ha
          cases ha
        · rw [hlink'] at ha
          cases ha

theorem wayParts_last {on : Loc → List Name → Except Errno Loc} {onLink : Loc → List Name → List Loc} {f : FileData}
    {cs : List Name} (hf : d.get r = some (.file f)) (hl : d.IsDirAt l)
    (hon : ∀ l cs, d.IsDirAt l → on l cs = .ok r → r ∈ onLink l cs)
    (h : walkParts d false on l cs = .ok r) : r ∈ wayParts d onLink l cs := by
  induction cs generalizing l with
  | nil =>
    cases h
    rcases hl with h0 | ⟨a, ha⟩
    · exact absurd h0 (Disk.get_ne_nil hf)
    · rw [hf] at ha
      cases ha
  | cons c cs ih =>
    unfold walkParts at h
    unfold wayParts
    split at h
    · rw [if_pos ‹_›]
      exact ih hl h
    · rw [if_neg ‹_›]
      split at h
      · rw [if_pos ‹_›]
        exact ih (hl.above (List.dropLast_prefix l)) h
      · rw [if_neg ‹_›]
        rcases hn : d.get (l ++ [c]) with _ | (f' | a | t | ⟨sk, a⟩) <;> rw [hn] at h
        · simp at h
        · simp only at h
          split at h <;> cases h
          exact List.mem_cons_self
        · exact List.mem_cons_of_mem _ (ih (Or.inr ⟨a, hn⟩) h)
        · refine List.mem_cons_of_mem _ (hon _ _ ?_ h)
          split
          · exact Or.inl rfl
          · exact hl
        · simp only at h
          split at h <;> cases h
          exact List.mem_cons_self

/-- A file that a walk ends at is on its way. -/
theorem way_last {k : Nat} {cs : List Name} {f : FileData} (hf : d.get r = some (.file f)) (hl : d.IsDirAt l)
    (h : walk d false k l cs = .ok r) : r ∈ wayFrom d k l cs := by
  induction k generalizing l cs with
  | zero => exact wayParts_last hf hl (fun _ _ _ h => by cases h) h
  | succ k ih => exact wayParts_last hf hl (fun _ _ hl h => ih hl h) h

/-! ## The ways of two disks -/

theorem wayParts_same {onLink onLink' : Loc → List Name → List Loc} {cs : List Name}
    (hon : ∀ l cs, (∀ v ∈ onLink l cs, SameShape d d' v) → onLink' l cs = onLink l cs)
    (h : ∀ v ∈ wayParts d onLink l cs, SameShape d d' v) : wayParts d' onLink' l cs = wayParts d onLink l cs := by
  induction cs generalizing l with
  | nil => rfl
  | cons c cs ih =>
    unfold wayParts at h ⊢
    split at h
    · rename_i h1
      rw [if_pos h1, if_pos h1]
      exact ih h
    · rename_i h1
      rw [if_neg h1, if_neg h1]
      split at h
      · rename_i h2
        rw [if_pos h2, if_pos h2]
        exact ih h
      · rename_i h2
        rw [if_neg h2, if_neg h2]
        have hhere := h _ List.mem_cons_self
        have hrest := fun v hv => h v (List.mem_cons_of_mem _ hv)
        unfold SameShape at hhere
        rcases hn : d.get (l ++ [c]) with _ | (f | a | t | ⟨sk, a⟩) <;> rw [hn] at hhere hrest <;>
          rcases hn' : d'.get (l ++ [c]) with _ | (f' | a' | t' | ⟨sk', a'⟩) <;> rw [hn'] at hhere <;>
          simp only [Option.map_some, Option.map_none, Node.shape, Option.some.injEq, reduceCtorEq,
            Shape.link.injEq] at hhere
        · exact congrArg _ (ih hrest)
        · rw [hhere]
          exact congrArg _ (hon _ _ hrest)

/-- A way is the same on a disk that keeps the kinds of the nodes on it. -/
theorem way_same {k : Nat} {cs : List Name} (h : ∀ v ∈ wayFrom d k l cs, SameShape d d' v) :
    wayFrom d' k l cs = wayFrom d k l cs := by
  induction k generalizing l cs with
  | zero => exact wayParts_same (fun _ _ _ => rfl) h
  | succ k ih => exact wayParts_same (fun _ _ h => ih h) h

theorem wayParts_straight {onLink : Loc → List Name → List Loc} {cs : List Name} (hp : Proper cs)
    (hno : ∀ u, u <+: cs → ∀ t, d.get (l ++ u) ≠ some (.link t)) :
    ∀ v ∈ wayParts d onLink l cs, v <+: l ++ cs := by
  induction cs generalizing l with
  | nil => simp [wayParts]
  | cons c cs ih =>
    obtain ⟨hc, hcs⟩ := List.forall_mem_cons.mp hp
    unfold wayParts
    rw [if_neg hc.1, if_neg hc.2.1]
    have hsplit : l ++ c :: cs = l ++ [c] ++ cs := by simp
    refine List.forall_mem_cons.mpr ⟨⟨cs, hsplit.symm⟩, ?_⟩
    rcases hn : d.get (l ++ [c]) with _ | (f | a | t | ⟨sk, a⟩)
    · simp
    · simp
    · rw [hsplit]
      refine ih hcs fun u hu t => ?_
      rw [List.append_assoc, List.singleton_append]
      exact hno (c :: u) (List.cons_prefix_cons.mpr ⟨rfl, hu⟩) t
    · exact absurd hn (hno [c] ⟨cs, rfl⟩ t)
    · simp

/-- Without a link the way goes down the path. -/
theorem way_straight (hp : Proper p) (hno : ∀ u, u <+: p → ∀ t, d.get u ≠ some (.link t)) :
    ∀ v ∈ way d p, v <+: p :=
  wayParts_straight hp hno

theorem wayParts_entry {onLink onLink' : Loc → List Name → List Loc} {v : Loc} {cs : List Name}
    (hold : ∀ u m, d'.get u = some m → ¬ t <+: u → d.get u = some m)
    (hon : ∀ l cs, ¬ t <+: l → v ∈ onLink' l cs → t ∈ onLink l cs)
    (hl : ¬ t <+: l) (hv : t <+: v) (ht : t ≠ []) (h : v ∈ wayParts d' onLink' l cs) : t ∈ wayParts d onLink l cs := by
  induction cs generalizing l with
  | nil => simp [wayParts] at h
  | cons c cs ih =>
    unfold wayParts at h ⊢
    split at h
    · rw [if_pos ‹_›]
      exact ih hl h
    · rw [if_neg ‹_›]
      split at h
      · rw [if_pos ‹_›]
        exact ih (fun hpre => hl (hpre.trans (List.dropLast_prefix l))) h
      · rw [if_neg ‹_›]
        by_cases hin : t <+: l ++ [c]
        · rcases prefix_concat_iff.mp hin with rfl | hpre
          · exact List.mem_cons_self
          · exact absurd hpre hl
        · rcases List.mem_cons.mp h with rfl | h
          · exact absurd hv hin
          · refine List.mem_cons_of_mem _ ?_
            rcases hn : d'.get (l ++ [c]) with _ | (f | a | t' | ⟨sk, a⟩) <;> rw [hn] at h
            · cases h
            · cases h
            · rw [hold _ _ hn hin]
              exact ih hin h
            · rw [hold _ _ hn hin]
              refine hon _ _ ?_ h
              split
              · exact fun hpre => ht (List.prefix_nil.mp hpre)
              · exact hl
            · cases h

/-- A way that comes to a place at or below `t` comes to `t` first, and so it
does on a disk with the same nodes elsewhere. -/
theorem way_entry {v : Loc} (hold : ∀ u m, d'.get u = some m → ¬ t <+: u → d.get u = some m) (ht : t ≠ [])
    (hv : t <+: v) (h : v ∈ way d' p) : t ∈ way d p := by
  have hall : ∀ k l cs, ¬ t <+: l → v ∈ wayFrom d' k l cs → t ∈ wayFrom d k l cs := by
    intro k
    induction k with
    | zero => exact fun _ _ hl h => wayParts_entry hold (fun _ _ _ h => by cases h) hl hv ht h
    | succ k ih => exact fun _ _ hl h => wayParts_entry hold ih hl hv ht h
  exact hall 40 [] p (fun hpre => ht (List.prefix_nil.mp hpre)) h

end icsd_panel.ways

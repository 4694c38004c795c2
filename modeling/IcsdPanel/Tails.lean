-- The end of a log as `fs.tail` shows it: a window of bytes, a scanner with a
-- buffer, and the last lines that match. Which lines it misses.
import IcsdPanel.Buffers
import IcsdPanel.Calm
import IcsdPanel.Straying
import Mathlib.Data.List.Sort

open effects

namespace icsd_panel.tails

open paths disk machine policy files
open buffers (newest oldest newest_of_le newest_sublist)

/-! ## The ends of lists -/

section Ends

variable {α β : Type} {n : Nat} {xs : List α} {p : α → Bool}

/-- Where what comes later has the property, what comes earlier has it: the list
is those that have it, and then the others. -/
theorem filter_split {R : α → α → Prop} (hR : xs.Pairwise R) (hp : ∀ a b, R a b → p b = true → p a = true) :
    xs = xs.filter p ++ xs.filter fun x => !p x := by
  induction hR with
  | nil => rfl
  | @cons x xs hx _ ih =>
    cases h : p x with
    | true => simpa [h] using ih
    | false =>
      have hnone : xs.filter p = [] := by
        rw [List.filter_eq_nil_iff]
        intro y hy htrue
        rw [hp x y (hx y hy) htrue] at h
        cases h
      rw [hnone, List.nil_append] at ih
      simp [h, hnone, ← ih]

/-- What `takeWhile` takes of a list in order. -/
theorem takeWhile_eq {R : α → α → Prop} [DecidableRel R] (hR : xs.Pairwise R) (hasym : ∀ a b, R a b → ¬ R b a) :
    xs.takeWhile p = xs.filter fun x => decide (∀ y ∈ xs, ¬ R x y → p y = true) := by
  induction hR with
  | nil => rfl
  | @cons x xs hx hxs ih =>
    have hself : ¬ R x x := fun h => hasym x x h h
    cases h : p x with
    | false =>
      rw [List.takeWhile_cons_of_neg (by simp [h]), eq_comm, List.filter_eq_nil_iff]
      intro y hy hall
      have hle : ¬ R y x := by
        rcases List.mem_cons.mp hy with rfl | hy
        · exact hself
        · exact hasym x y (hx y hy)
      rw [of_decide_eq_true hall x List.mem_cons_self hle] at h
      cases h
    | true =>
      rw [List.takeWhile_cons_of_pos h, ih, List.filter_cons_of_pos]
      · congr 1
        refine List.filter_congr fun y hy => ?_
        simp [h]
      · refine decide_eq_true fun y hy hle => ?_
        rcases List.mem_cons.mp hy with rfl | hy
        · exact h
        · exact absurd (hx y hy) hle

theorem newest_filter (h : ∀ x ∈ newest n xs, p x = true) : newest n (xs.filter p) = newest n xs := by
  have hcut : oldest n xs ++ newest n xs = xs := List.take_append_drop _ _
  have hall : (newest n xs).filter p = newest n xs := List.filter_eq_self.mpr h
  rcases Nat.le_total xs.length n with hle | hle
  · rw [newest_of_le hle] at hall ⊢
    rw [hall, newest_of_le hle]
  · have hlen : (newest n xs).length = n := by
      simp only [newest, List.length_drop]
      omega
    have hfilter : xs.filter p = (oldest n xs).filter p ++ newest n xs := by
      conv => lhs; rw [← hcut, List.filter_append, hall]
    have hskip : ((oldest n xs).filter p ++ newest n xs).length - n = ((oldest n xs).filter p).length := by
      rw [List.length_append, hlen, Nat.add_sub_cancel]
    rw [hfilter]
    change List.drop (((oldest n xs).filter p ++ newest n xs).length - n) _ = newest n xs
    rw [hskip, List.drop_left]

theorem newest_reverse : newest n xs = (xs.reverse.take n).reverse := by
  rw [List.take_reverse, List.reverse_reverse]
  rfl

/-- The same, seen through `t`, of the last `n` of a list and the last `n` of
a stretch of it. -/
theorem newest_stretch {as ps qs : List α} {t : α → β} (h : n ≤ ps.length) :
    (newest n ps).map t = (newest n (as ++ ps ++ qs)).map t ↔
      ∀ k < n, ((as ++ ps ++ qs).reverse[k]?).map t = ((as ++ ps ++ qs).reverse[k + qs.length]?).map t := by
  have hfar : ∀ k < n, (as ++ ps ++ qs).reverse[k + qs.length]? = ps.reverse[k]? := by
    intro k hk
    rw [List.reverse_append, List.reverse_append,
      List.getElem?_append_right (by rw [List.length_reverse]; omega), List.length_reverse,
      Nat.add_sub_cancel, List.getElem?_append_left (by rw [List.length_reverse]; omega)]
  rw [newest_reverse, newest_reverse, List.map_reverse, List.map_reverse, List.reverse_inj]
  constructor
  · intro heq k hk
    have hget := congrArg (fun l => l[k]?) heq
    simp only [List.getElem?_map, List.getElem?_take_of_lt hk] at hget
    rw [hfar k hk, hget]
  · intro hall
    refine List.ext_getElem? fun k => ?_
    rw [List.getElem?_map, List.getElem?_map]
    rcases Nat.lt_or_ge k n with hk | hk
    · rw [List.getElem?_take_of_lt hk, List.getElem?_take_of_lt hk, hall k hk, hfar k hk]
    · rw [List.getElem?_take_eq_none hk, List.getElem?_take_eq_none hk]

end Ends

/-! ## The lines of a file -/

/-- A line: where it starts, and its bytes up to the newline. -/
structure Line where
  offset : Nat
  bytes : Bytes
deriving DecidableEq, Repr

/-- What a scanner gives of it. -/
def Line.text (x : Line) : Bytes := dropCr x.bytes

def Line.stop (x : Line) : Nat := x.offset + x.bytes.length

/-- The lines from the one at `o` on, of which `line` was read (backwards). -/
def linesFrom : Nat → Bytes → Bytes → List Line
  | o, line, [] => if line = [] then [] else [⟨o, line.reverse⟩]
  | o, line, b :: rest =>
    if b = newline then ⟨o, line.reverse⟩ :: linesFrom (o + line.length + 1) [] rest
    else linesFrom o (b :: line) rest

def lines (content : Bytes) : List Line := linesFrom 0 [] content

/-- The lines that `fs.tail` is asked for, in the whole file. -/
def matching (content grep : Bytes) : List Line :=
  (lines content).filter fun x => grep = [] || contains x.text grep

example : (matching [97, 10, 98, 97, 13, 10] [97]).map Line.text = [[97], [98, 97]] := by decide +kernel

variable {o : Nat} {line rest content grep a b : Bytes} {x y : Line}

/-- The first line is what was read of it, and the bytes up to a newline. -/
theorem linesFrom_cons (rest : Bytes) :
    ∃ bs, ∀ o line, line ≠ [] ∨ rest ≠ [] → ∃ xs, linesFrom o line rest = ⟨o, line.reverse ++ bs⟩ :: xs := by
  induction rest with
  | nil =>
    refine ⟨[], fun o line h => ⟨[], ?_⟩⟩
    rw [linesFrom, if_neg (h.resolve_right fun hne => hne rfl), List.append_nil]
  | cons c rest ih =>
    obtain ⟨bs, hbs⟩ := ih
    by_cases hc : c = newline
    · refine ⟨[], fun o line _ => ⟨linesFrom (o + line.length + 1) [] rest, ?_⟩⟩
      rw [linesFrom, if_pos hc, List.append_nil]
    · refine ⟨c :: bs, fun o line _ => ?_⟩
      obtain ⟨xs, hxs⟩ := hbs o (c :: line) (.inl (List.cons_ne_nil c line))
      refine ⟨xs, ?_⟩
      rw [linesFrom, if_neg hc, hxs, List.reverse_cons, List.append_assoc]
      rfl

/-- A scanner gives the texts of the lines up to the first that does not fit. -/
theorem scanLines_eq {limit : Nat} (o : Nat) (line rest : Bytes) :
    scanLines limit line rest =
      ((linesFrom o line rest).takeWhile fun x => decide (x.bytes.length < limit)).map Line.text := by
  induction rest generalizing o line with
  | nil =>
    rw [scanLines, linesFrom]
    by_cases hline : line = []
    · simp [hline]
    · by_cases hfit : limit ≤ line.length
      · simp [hline, hfit]
      · simp [hline, hfit, Line.text, Nat.lt_of_not_le hfit]
  | cons c rest ih =>
    rw [scanLines]
    split
    · rename_i hfull
      obtain ⟨bs, hbs⟩ := linesFrom_cons (c :: rest)
      obtain ⟨xs, hxs⟩ := hbs o line (.inr (List.cons_ne_nil c rest))
      rw [hxs, List.takeWhile_cons_of_neg, List.map_nil]
      simp
      omega
    · rename_i hfit
      rw [linesFrom]
      split
      · rw [List.takeWhile_cons_of_pos (by simpa using hfit), ih (o + line.length + 1) []]
        rfl
      · exact ih o (c :: line)

theorem le_offset (h : x ∈ linesFrom o line rest) : o ≤ x.offset := by
  induction rest generalizing o line with
  | nil =>
    rw [linesFrom] at h
    split at h
    · cases h
    · rw [List.mem_singleton.mp h]
  | cons c rest ih =>
    rw [linesFrom] at h
    split at h
    · rcases List.mem_cons.mp h with rfl | h
      · exact Nat.le_refl o
      · have := ih h
        omega
    · exact ih h

theorem lines_ordered (o : Nat) (line rest : Bytes) :
    (linesFrom o line rest).Pairwise fun x y => x.offset < y.offset := by
  induction rest generalizing o line with
  | nil =>
    rw [linesFrom]
    split
    · exact .nil
    · exact List.pairwise_singleton _ _
  | cons c rest ih =>
    rw [linesFrom]
    split
    · refine List.Pairwise.cons (fun y hy => ?_) (ih _ _)
      have := le_offset hy
      change o < y.offset
      omega
    · exact ih _ _

/-! ## The window -/

theorem offset_tail (h : x ∈ (linesFrom o line rest).tail) : o + line.length < x.offset := by
  induction rest generalizing line with
  | nil =>
    rw [linesFrom] at h
    split at h <;> cases h
  | cons c rest ih =>
    rw [linesFrom] at h
    split at h
    · exact le_offset h
    · have := ih h
      simp only [List.length_cons] at this
      omega

/-- Where the line that is cut began plays no part in the lines after it. -/
theorem tail_joined {s : Nat} (hs : s = o + line.length) (read : Bytes) :
    (linesFrom s read rest).tail = (linesFrom o (read ++ line) rest).tail := by
  induction rest generalizing read with
  | nil =>
    rw [linesFrom, linesFrom]
    split <;> split <;> rfl
  | cons c rest ih =>
    rw [linesFrom, linesFrom]
    split
    · have hnext : s + read.length + 1 = o + (read ++ line).length + 1 := by
        rw [List.length_append]
        omega
      rw [List.tail_cons, List.tail_cons, hnext]
    · exact ih (c :: read)

/-- Read from the start `s` of a window on, the lines but the first are those
that start behind `s`. -/
theorem linesFrom_window {s : Nat} (hs : s = o + line.length + a.length) :
    (linesFrom s [] b).tail = (linesFrom o line (a ++ b)).filter fun x => decide (s < x.offset) := by
  induction a generalizing o line with
  | nil =>
    have hbehind : ∀ x ∈ (linesFrom o line b).tail, decide (s < x.offset) = true := by
      intro x hx
      have := offset_tail hx
      simp at hs ⊢
      omega
    have hcut : s = o + line.length := hs
    rw [tail_joined hcut, List.nil_append, List.nil_append]
    by_cases hnil : line = [] ∧ b = []
    · simp [hnil.1, hnil.2, linesFrom]
    · obtain ⟨bs, hbs⟩ := linesFrom_cons b
      obtain ⟨xs, hxs⟩ := hbs o line (by tauto)
      rw [hxs] at hbehind ⊢
      rw [List.filter_cons_of_neg (by simp; omega), List.tail_cons]
      exact (List.filter_eq_self.mpr hbehind).symm
  | cons c a ih =>
    rw [List.cons_append, linesFrom]
    split
    · rw [List.filter_cons_of_neg (by simp; omega)]
      exact ih (by simp at hs ⊢; omega)
    · exact ih (by simp at hs ⊢; omega)

/-- The part in the window of the line that its start cuts, and what is in front
of it. -/
theorem cut_fits {s limit : Nat} (hpos : 0 < limit) (hs : s = o + line.length + a.length) :
    (∀ y ∈ linesFrom o line (a ++ b), y.offset ≤ s → y.stop - s < limit) ↔
      ∀ x ∈ (linesFrom s [] b).head?, x.bytes.length < limit := by
  induction a generalizing o line with
  | nil =>
    rw [List.nil_append]
    by_cases hb : b = []
    · subst hb
      rw [linesFrom, linesFrom]
      by_cases hline : line = []
      · simp [hline]
      · simp [hline, Line.stop]
        simp at hs
        omega
    · obtain ⟨bs, hbs⟩ := linesFrom_cons b
      obtain ⟨xs, hxs⟩ := hbs o line (.inr hb)
      obtain ⟨xs', hxs'⟩ := hbs s [] (.inr hb)
      have hbehind : ∀ y ∈ xs, s < y.offset := by
        intro y hy
        have hmem : y ∈ (linesFrom o line b).tail := by rw [hxs]; exact hy
        have := offset_tail hmem
        simp at hs
        omega
      have hlen : (⟨o, line.reverse ++ bs⟩ : Line).stop - s = bs.length := by
        simp [Line.stop] at hs ⊢
        omega
      rw [hxs, hxs', List.forall_mem_cons, hlen]
      constructor
      · rintro ⟨hfirst, -⟩ x hx
        cases hx
        exact hfirst (by simp at hs ⊢; omega)
      · intro h
        refine ⟨fun _ => h _ rfl, fun y hy hle => ?_⟩
        have := hbehind y hy
        omega
  | cons c a ih =>
    rw [List.cons_append, linesFrom]
    split
    · have hshort : (⟨o, line.reverse⟩ : Line).stop - s < limit := by
        simp [Line.stop] at hs ⊢
        omega
      rw [List.forall_mem_cons]
      rw [← @ih (o + line.length + 1) [] (by simp at hs ⊢; omega)]
      exact ⟨fun h => h.2, fun h => ⟨fun _ => hshort, h⟩⟩
    · exact ih (by simp at hs ⊢; omega)

/-! ## What is shown -/

/-- The buffer of the scanner. -/
@[irreducible] def maxLine : Nat := 1024 * 1024

/-- Where the window starts. -/
def start (content : Bytes) : Nat := content.length - window

/-- A line behind the one that the window starts with; that one is taken for
half a line when there is something in front of the window. -/
def Entered (content : Bytes) (x : Line) : Prop := start content = 0 ∨ start content < x.offset

instance (content : Bytes) (x : Line) : Decidable (Entered content x) :=
  inferInstanceAs (Decidable (_ ∨ _))

/-- No line up to `x`, as far as it is in the window, overflows the buffer. -/
def Fits (content : Bytes) (x : Line) : Prop :=
  ∀ y ∈ lines content, y.offset ≤ x.offset → y.stop - max y.offset (start content) < maxLine

instance (content : Bytes) (x : Line) : Decidable (Fits content x) :=
  inferInstanceAs (Decidable (∀ y ∈ lines content, _))

/-- A line that the scanner comes to. -/
def Reached (content : Bytes) (x : Line) : Prop := Entered content x ∧ Fits content x

instance (content : Bytes) (x : Line) : Decidable (Reached content x) :=
  inferInstanceAs (Decidable (_ ∧ _))

theorem fits_whole (hstart : start content = 0) :
    Fits content x ↔ ∀ y ∈ lines content, ¬ x.offset < y.offset → y.bytes.length < maxLine := by
  unfold Fits
  refine forall₂_congr fun y _ => ?_
  rw [hstart, Nat.max_zero, Nat.not_lt, Line.stop, Nat.add_sub_cancel_left]

/-- The window split into its first line and the lines of the file in it. -/
theorem fits_window (hx : start content < x.offset) :
    Fits content x ↔
      (∀ y ∈ (linesFrom (start content) [] (content.drop (start content))).head?, y.bytes.length < maxLine) ∧
      ∀ y ∈ (linesFrom (start content) [] (content.drop (start content))).tail,
        ¬ x.offset < y.offset → y.bytes.length < maxLine := by
  have hs : start content = 0 + ([] : Bytes).length + (content.take (start content)).length := by
    rw [List.length_take, List.length_nil]
    unfold start
    omega
  have hcut : content.take (start content) ++ content.drop (start content) = content :=
    List.take_append_drop _ _
  have hpos : 0 < maxLine := by
    unfold maxLine
    omega
  have hhead := cut_fits (b := content.drop (start content)) hpos hs
  have htail := linesFrom_window (b := content.drop (start content)) hs
  rw [hcut] at hhead htail
  rw [← hhead, htail]
  unfold Fits lines
  constructor
  · intro h
    refine ⟨fun y hy hle => ?_, fun y hy hle => ?_⟩
    · have := h y hy (by omega)
      rwa [Nat.max_eq_right hle] at this
    · rw [List.mem_filter, decide_eq_true_eq] at hy
      have := h y hy.1 (by omega)
      rwa [Nat.max_eq_left (Nat.le_of_lt hy.2), Line.stop, Nat.add_sub_cancel_left] at this
  · rintro ⟨hfirst, hrest⟩ y hy hle
    rcases Nat.lt_or_ge (start content) y.offset with hlt | hge
    · rw [Nat.max_eq_left (Nat.le_of_lt hlt), Line.stop, Nat.add_sub_cancel_left]
      exact hrest y (List.mem_filter.mpr ⟨hy, decide_eq_true hlt⟩) (by omega)
    · rw [Nat.max_eq_right hge]
      exact hfirst y hy hge

/-- The lines that the loop of `tailFile` takes. -/
theorem scanned_eq (content : Bytes) :
    (if 0 < start content then (scanLines maxLine [] (content.drop (start content))).tail
      else scanLines maxLine [] (content.drop (start content))) =
    ((lines content).filter fun x => decide (Reached content x)).map Line.text := by
  have hasym : ∀ x y : Line, x.offset < y.offset → ¬ y.offset < x.offset := fun _ _ h => by omega
  rw [scanLines_eq (start content)]
  split
  · rename_i hpos
    rw [← List.map_tail]
    refine congrArg (List.map Line.text) ?_
    have hs : start content = 0 + ([] : Bytes).length + (content.take (start content)).length := by
      rw [List.length_take, List.length_nil]
      unfold start
      omega
    have hbehind := linesFrom_window (b := content.drop (start content)) hs
    rw [List.take_append_drop] at hbehind
    have hreached : ∀ x : Line, Reached content x ↔ start content < x.offset ∧ Fits content x :=
      fun x => and_congr_left' (or_iff_right (by omega))
    have hordered := lines_ordered (start content) [] (content.drop (start content))
    have hfits := fun x => @fits_window content x
    cases hw : linesFrom (start content) [] (content.drop (start content)) with
    | nil =>
      rw [hw] at hbehind
      refine (List.filter_eq_nil_iff.mpr fun x hx hshown => ?_).symm
      have hlt := ((hreached x).mp (of_decide_eq_true hshown)).1
      exact List.filter_eq_nil_iff.mp hbehind.symm x hx (decide_eq_true hlt)
    | cons w ws =>
      rw [hw] at hbehind hordered
      simp only [hw, List.head?_cons, List.tail_cons] at hbehind hfits
      by_cases hshort : w.bytes.length < maxLine
      · rw [List.takeWhile_cons_of_pos (by simpa using hshort), List.tail_cons]
        calc
          ws.takeWhile (fun x => decide (x.bytes.length < maxLine))
              = ws.filter fun x => decide (Fits content x) := by
            rw [takeWhile_eq (List.pairwise_cons.mp hordered).2 hasym]
            refine List.filter_congr fun x hx => ?_
            rw [hbehind, List.mem_filter, decide_eq_true_eq] at hx
            rw [decide_eq_decide, hfits x hx.2]
            simp [hshort]
          _ = ((lines content).filter fun x => decide (start content < x.offset)).filter
                fun x => decide (Fits content x) := congrArg _ hbehind
          _ = (lines content).filter fun x => decide (Reached content x) := by
            rw [List.filter_filter]
            refine List.filter_congr fun x _ => ?_
            rw [← Bool.decide_and, decide_eq_decide, hreached, and_comm]
      · rw [List.takeWhile_cons_of_neg (by simpa using hshort), List.tail_nil]
        refine (List.filter_eq_nil_iff.mpr fun x hx hshown => hshort ?_).symm
        obtain ⟨hlt, hx⟩ := (hreached x).mp (of_decide_eq_true hshown)
        exact ((hfits x hlt).mp hx).1 w rfl
  · have hzero : start content = 0 := by omega
    rw [hzero, List.drop_zero, takeWhile_eq (lines_ordered 0 [] content) hasym]
    refine congrArg (List.map Line.text) (List.filter_congr fun x _ => ?_)
    rw [decide_eq_decide, Reached, fits_whole hzero]
    simp only [Entered, hzero, true_or, true_and, decide_eq_true_eq]
    exact Iff.rfl

/-- The last lines that match, of those that the scanner comes to. -/
theorem tailLines_eq (content : Bytes) (n : Nat) (grep : Bytes) :
    tailLines content n grep =
      (newest n ((matching content grep).filter fun x => decide (Reached content x))).map Line.text := by
  have hswap : (((lines content).filter fun x => decide (Reached content x)).map Line.text).filter
      (fun t => decide (grep = []) || contains t grep) =
        ((matching content grep).filter fun x => decide (Reached content x)).map Line.text := by
    rw [List.filter_map, matching, List.filter_filter, List.filter_filter]
    refine congrArg (List.map Line.text) (List.filter_congr fun x _ => ?_)
    exact Bool.and_comm _ _
  have hscanned := scanned_eq content
  unfold maxLine start at hscanned
  unfold tailLines
  simp only
  rw [hscanned, hswap, List.length_map, ← List.map_drop]
  rfl

/-! ## The last lines -/

/-- The scanner gives up before it comes to this line. -/
def Missed (content : Bytes) (x : Line) : Prop := Entered content x ∧ ¬ Fits content x

instance (content : Bytes) (x : Line) : Decidable (Missed content x) :=
  inferInstanceAs (Decidable (_ ∧ _))

/-- The lines that the scanner comes to are one stretch of those that match. -/
theorem matching_split (content grep : Bytes) :
    ∃ xs, matching content grep = xs ++ (matching content grep).filter (fun x => decide (Reached content x)) ++
      (matching content grep).filter fun x => decide (Missed content x) := by
  have hordered : (matching content grep).Pairwise fun x y => x.offset < y.offset :=
    (lines_ordered 0 [] content).sublist List.filter_sublist
  have hfront := filter_split (p := fun x => !decide (Entered content x)) hordered fun x y hlt hy => by
    rw [Bool.not_eq_true', decide_eq_false_iff_not] at hy ⊢
    unfold Entered at hy ⊢
    omega
  have hback := filter_split (p := fun x => decide (Fits content x))
    (hordered.sublist (List.filter_sublist (p := fun x => decide (Entered content x)))) fun x y hlt hy => by
      rw [decide_eq_true_eq] at hy ⊢
      intro z hz hle
      exact hy z hz (by omega)
  have hreached : (matching content grep).filter (fun x => decide (Reached content x)) =
      ((matching content grep).filter fun x => decide (Entered content x)).filter fun x => decide (Fits content x) := by
    rw [List.filter_filter]
    refine List.filter_congr fun x _ => ?_
    rw [← Bool.decide_and, decide_eq_decide, and_comm]
    exact Iff.rfl
  have hmissed : (matching content grep).filter (fun x => decide (Missed content x)) =
      ((matching content grep).filter fun x => decide (Entered content x)).filter
        fun x => !decide (Fits content x) := by
    rw [List.filter_filter]
    refine List.filter_congr fun x _ => ?_
    rw [← decide_not, ← Bool.decide_and, decide_eq_decide, and_comm]
    exact Iff.rfl
  refine ⟨(matching content grep).filter fun x => !decide (Entered content x), ?_⟩
  simp only [Bool.not_not] at hfront
  rw [hreached, hmissed, List.append_assoc, ← hback]
  exact hfront

/-- What a request for the last `n` lines asks of the file: the lines are in the
window, shorter than the buffer, and as many, or all that a small file has. -/
structure Near (content : Bytes) (n : Nat) (grep : Bytes) : Prop where
  within : ∀ x ∈ newest n (matching content grep), start content ≤ x.offset
  short : ∀ x ∈ newest n (matching content grep), x.text.length < maxLine
  enough : n ≤ (matching content grep).length ∨ content.length ≤ window

/-- The scanner comes to `n` of the lines that match, and the last `n` repeat
the texts of the `n` that it comes to last. -/
def Repeats (content : Bytes) (n : Nat) (grep : Bytes) : Prop :=
  let ms := matching content grep
  let missed := (ms.filter fun x => decide (Missed content x)).length
  n ≤ (ms.filter fun x => decide (Reached content x)).length ∧
    ∀ k < n, (ms.reverse[k]?).map Line.text = (ms.reverse[k + missed]?).map Line.text

theorem tailLines_iff (content : Bytes) (n : Nat) (grep : Bytes) :
    tailLines content n grep = (newest n (matching content grep)).map Line.text ↔
      (∀ x ∈ newest n (matching content grep), Reached content x) ∨ Repeats content n grep := by
  obtain ⟨xs, hsplit⟩ := matching_split content grep
  rw [tailLines_eq]
  unfold Repeats
  simp only
  generalize hps : (matching content grep).filter (fun x => decide (Reached content x)) = ps at hsplit ⊢
  generalize (matching content grep).filter (fun x => decide (Missed content x)) = qs at hsplit ⊢
  have hstretch := @newest_stretch Line Bytes n xs ps qs Line.text
  rw [← hsplit] at hstretch
  constructor
  · intro heq
    rcases Nat.lt_or_ge ps.length n with hlt | hge
    · left
      -- As many lines are shown as there are: the scanner came to them all.
      have hlen := congrArg List.length heq
      rw [List.length_map, List.length_map] at hlen
      simp only [newest, List.length_drop] at hlen
      have hsub : ps.Sublist (matching content grep) := hps ▸ List.filter_sublist
      have hall : ps = matching content grep := hsub.eq_of_length_le (by omega)
      intro x hx
      have hmem : x ∈ ps := hall ▸ newest_sublist.subset hx
      rw [← hps] at hmem
      exact of_decide_eq_true (List.mem_filter.mp hmem).2
    · exact .inr ⟨hge, (hstretch hge).mp heq⟩
  · rintro (hreached | ⟨hge, hrep⟩)
    · rw [← hps, newest_filter fun x hx => decide_eq_true (hreached x hx)]
    · exact (hstretch hge).mpr hrep

/-- The line does not begin where the window of a longer file does, and no line
up to it overflows the scanner. -/
def Shown (content : Bytes) (x : Line) : Prop :=
  (start content = 0 ∨ x.offset ≠ start content) ∧ Fits content x

instance (content : Bytes) (x : Line) : Decidable (Shown content x) :=
  inferInstanceAs (Decidable (_ ∧ _))

theorem reached_iff_shown (h : start content ≤ x.offset) : Reached content x ↔ Shown content x := by
  refine and_congr_left' (or_congr_right ?_)
  omega

variable {pol : Policy} {e : Env} {w : World} {i : TailArgs} {real l : Loc} {f : FileData}

theorem fsTail_run (hcheck : check pol w.disk i.path false = .ok real)
    (hstat : stat w.disk real = .ok (l, .file f)) (hopen : e.blocked .open l = false) :
    (fsTail pol i e w).1 = .ok (tailLines f.content (if i.lines ≤ 0 ∨ i.lines > 5000 then 300 else i.lines.toNat)
      i.grep, f.content.length) := by
  have hread : readFile real e w = (.ok f, { w with reads := l :: w.reads }) := by
    unfold readFile openFile
    rw [hstat]
    simp only [hopen, Bool.false_eq_true, if_false]
  have hlook : askOs (fun d => stat d real) e w = (.ok (l, .file f), w) := by
    refine ask_ok ?_
    change (stat w.disk real).mapError _ = _
    rw [hstat]
    rfl
  have hchecked : checked pol i.path false e w = (.ok real, w) := ask_ok hcheck
  unfold fsTail
  rw [Proc.bind_run_ok hchecked, Proc.bind_run_ok hlook]
  simp only []
  rw [Proc.bind_run_ok hread]
  rfl

/-- `fs.tail` gives the last lines that match when it shows each of them, or
when what it shows reads the same. -/
theorem tail_exact (hcheck : check pol w.disk i.path false = .ok real)
    (hstat : stat w.disk real = .ok (l, .file f)) (hopen : e.blocked .open l = false)
    (hlines : 1 ≤ i.lines ∧ i.lines ≤ 5000) (hnear : Near f.content i.lines.toNat i.grep) :
    (fsTail pol i e w).1 =
        .ok ((newest i.lines.toNat (matching f.content i.grep)).map Line.text, f.content.length) ↔
      (∀ x ∈ newest i.lines.toNat (matching f.content i.grep), Shown f.content x) ∨
        Repeats f.content i.lines.toNat i.grep := by
  have hcount : ¬ (i.lines ≤ 0 ∨ i.lines > 5000) := by omega
  have hshown := forall₂_congr fun x hx => reached_iff_shown (hnear.within x hx)
  rw [fsTail_run hcheck hstat hopen, if_neg hcount, ← hshown, ← tailLines_iff, Except.ok.injEq, Prod.mk.injEq]
  exact and_iff_left rfl

/-! ## Two logs -/

def logOf (content : Bytes) : FileData := ⟨content, 0, ⟨0o644, 0, 0⟩, false⟩

/-- A disk with an empty log. -/
def quietDisk : Disk := confinement.webDisk.put ["var", "www", "log"] (.file (logOf []))

theorem get_quietDisk : quietDisk.get ["var", "www", "log"] = some (.file (logOf [])) := by decide +kernel

def logDisk (content : Bytes) : Disk := quietDisk.put ["var", "www", "log"] (.file (logOf content))

theorem stat_logDisk (content : Bytes) :
    stat (logDisk content) ["var", "www", "log"] = .ok (["var", "www", "log"], .file (logOf content)) :=
  stat_installed (by decide) (Disk.get_put_self (fits_over get_quietDisk (by simp [Node.isDir])))

theorem check_logDisk (content : Bytes) :
    check confinement.webPolicy (logDisk content) "/var/www/log" false = .ok ["var", "www", "log"] := by
  have hquiet : check confinement.webPolicy quietDisk "/var/www/log" false = .ok ["var", "www", "log"] := by
    decide +kernel
  have halike : Alike (logDisk content) quietDisk := alike_put get_quietDisk
  rw [check_alike halike, hquiet]

/-- The last line of a log with two. -/
theorem log_tail :
    (fsTail confinement.webPolicy ⟨"/var/www/log", 1, []⟩ (calm 0 []) (World.start (logDisk [97, 10, 98, 10]))).1 =
      .ok ((newest 1 (matching [97, 10, 98, 10] [])).map Line.text, 4) := by
  have hnear : Near [97, 10, 98, 10] 1 [] := ⟨by decide +kernel, by decide +kernel, by decide +kernel⟩
  have hshown : ∀ x ∈ newest 1 (matching [97, 10, 98, 10] []), Shown [97, 10, 98, 10] x := by decide +kernel
  have hrun := tail_exact (w := World.start (logDisk [97, 10, 98, 10])) (i := ⟨"/var/www/log", 1, []⟩) (e := calm 0 [])
    (check_logDisk _) (stat_logDisk _) rfl (by decide) hnear
  exact hrun.mpr (.inl hshown)

theorem linesFrom_replicate {c : UInt8} (hc : c ≠ newline) (m : Nat) :
    linesFrom o line (List.replicate m c ++ rest) = linesFrom o (List.replicate m c ++ line) rest := by
  induction m generalizing line with
  | zero => rfl
  | succ m ih =>
    rw [List.replicate_succ, List.cons_append, linesFrom, if_neg hc, ih, ← List.replicate_succ,
      List.replicate_succ', List.append_assoc, List.singleton_append]

/-- A log with a line of one mebibyte, and the line `a` after it. -/
def longLog : Bytes := List.replicate maxLine 120 ++ [10, 97, 10]

theorem lines_longLog : lines longLog = [⟨0, List.replicate maxLine 120⟩, ⟨maxLine + 1, [97]⟩] := by
  unfold lines longLog
  rw [linesFrom_replicate (by decide), List.append_nil, linesFrom, if_pos (by decide), linesFrom,
    if_neg (by decide), linesFrom, if_pos (by decide), linesFrom, if_pos rfl, List.reverse_replicate,
    List.length_replicate, Nat.zero_add]
  rfl

theorem matching_longLog :
    matching longLog [] = [⟨0, List.replicate maxLine 120⟩, ⟨maxLine + 1, [97]⟩] := by
  rw [matching, lines_longLog]
  exact List.filter_eq_self.mpr fun x _ => rfl

theorem start_longLog : start longLog = 0 := by
  have hlen : longLog.length = maxLine + 3 := by
    rw [longLog, List.length_append, List.length_replicate]
    rfl
  rw [start, hlen]
  unfold maxLine window
  omega

theorem not_fits (hzero : start content = 0) (hy : y ∈ lines content) (hle : y.offset ≤ x.offset)
    (hlong : maxLine ≤ y.bytes.length) : ¬ Fits content x := by
  rw [fits_whole hzero]
  intro hfits
  have hshort := hfits y hy (by omega)
  exact absurd hshort (Nat.not_lt.mpr hlong)

theorem not_fits_longLog (x : Line) : ¬ Fits longLog x := by
  have hmem : (⟨0, List.replicate maxLine 120⟩ : Line) ∈ lines longLog := by
    rw [lines_longLog]
    exact List.mem_cons_self
  have hlong : maxLine ≤ (List.replicate maxLine (120 : UInt8)).length := List.length_replicate.ge
  exact not_fits start_longLog hmem x.offset.zero_le hlong

/-- A line that is too long hides the last line. -/
theorem long_line_hides :
    ¬ ∀ pol e w (i : TailArgs) real l f, check pol w.disk i.path false = .ok real →
      stat w.disk real = .ok (l, .file f) → e.blocked .open l = false → 1 ≤ i.lines ∧ i.lines ≤ 5000 →
      Near f.content i.lines.toNat i.grep →
      (fsTail pol i e w).1 =
        .ok ((newest i.lines.toNat (matching f.content i.grep)).map Line.text, f.content.length) := by
  intro h
  have hall : ∀ content, Near content 1 [] →
      tailLines content 1 [] = (newest 1 (matching content [])).map Line.text := by
    intro content hnear
    have hrun := fsTail_run (w := World.start (logDisk content)) (i := ⟨"/var/www/log", 1, []⟩) (e := calm 0 [])
      (check_logDisk content) (stat_logDisk content) rfl
    have hexact := h confinement.webPolicy (calm 0 []) (World.start (logDisk content)) ⟨"/var/www/log", 1, []⟩ _ _ _
      (check_logDisk content) (stat_logDisk content) rfl (by decide) hnear
    rw [if_neg (by decide)] at hrun
    rw [hrun, Except.ok.injEq, Prod.mk.injEq] at hexact
    simpa only [logOf, Int.toNat_one] using hexact.1
  have hlast : newest 1 (matching longLog []) = [⟨maxLine + 1, [97]⟩] := by
    rw [matching_longLog]
    rfl
  have hnear : Near longLog 1 [] := by
    refine ⟨fun x hx => ?_, fun x hx => ?_, .inl ?_⟩
    · rw [start_longLog]
      exact Nat.zero_le _
    · rw [hlast, List.mem_singleton] at hx
      rw [hx]
      change 1 < maxLine
      unfold maxLine
      omega
    · rw [matching_longLog, List.length_cons]
      omega
  have hfilter : (matching longLog []).filter (fun x => decide (Reached longLog x)) = [] :=
    List.filter_eq_nil_iff.mpr fun x _ hx => not_fits_longLog x (of_decide_eq_true hx).2
  have hshown := hall longLog hnear
  rw [tailLines_eq, hfilter, hlast] at hshown
  cases hshown

end icsd_panel.tails

-- Patterns over any letters: what a search that prefers the first way finds,
-- the words that a pattern takes, and the matches at the starts of the lines of
-- a text.
import Mathlib.Data.List.Basic

namespace patterns

variable {α : Type}

/-- `many` takes as many letters as it can first. `alt` tries its first pattern
first. `cap` is the group. -/
inductive Pattern (α : Type)
  | eps
  | sat (p : α → Bool)
  | many (p : α → Bool)
  | seq (a b : Pattern α)
  | alt (a b : Pattern α)
  | cap (a : Pattern α)

/-- Where a match is: what the group took, and the text that is left. -/
structure Match (α : Type) where
  group : List α
  rest : List α

def manyRests (p : α → Bool) : List α → List (List α)
  | [] => [[]]
  | c :: s => if p c then manyRests p s ++ [c :: s] else [c :: s]

/-- The ways to go on from a match, the preferred one first. -/
def Pattern.runs : Pattern α → Match α → List (Match α)
  | .eps, m => [m]
  | .sat p, m =>
    match m.rest with
    | [] => []
    | c :: s => if p c then [{ m with rest := s }] else []
  | .many p, m => (manyRests p m.rest).map fun s => { m with rest := s }
  | .seq a b, m => (a.runs m).flatMap b.runs
  | .alt a b, m => a.runs m ++ b.runs m
  | .cap a, m => (a.runs m).map fun r => { r with group := m.rest.take (m.rest.length - r.rest.length) }

def Pattern.many1 (p : α → Bool) : Pattern α := .seq (.sat p) (.many p)

def Pattern.opt (a : Pattern α) : Pattern α := .alt a .eps

/-- The match at the start of a text. -/
def Pattern.first (a : Pattern α) (s : List α) : Option (Match α) := (a.runs ⟨[], s⟩).head?

/-- The groups of the matches that start where a line does, one after the
other, for a pattern that takes at least one letter. The number is how many
letters the match before them has still to pass, `start` says that a line starts
here. -/
def Pattern.findAll (a : Pattern α) (newline : α → Bool) : Nat → Bool → List α → List (List α)
  | _, _, [] => []
  | skip + 1, _, c :: s => a.findAll newline skip (newline c) s
  | 0, start, c :: s =>
    match (if start then a.first (c :: s) else none) with
    | some m => m.group :: a.findAll newline ((c :: s).length - m.rest.length - 1) (newline c) s
    | none => a.findAll newline 0 (newline c) s

/-! ## The words of a pattern -/

def Pattern.Takes : Pattern α → List α → Prop
  | .eps, x => x = []
  | .sat p, x => ∃ c, x = [c] ∧ p c = true
  | .many p, x => ∀ c ∈ x, p c = true
  | .seq a b, x => ∃ y z, x = y ++ z ∧ a.Takes y ∧ b.Takes z
  | .alt a b, x => a.Takes x ∨ b.Takes x
  | .cap a, x => a.Takes x

theorem mem_manyRests {p : α → Bool} {s r : List α} :
    r ∈ manyRests p s ↔ ∃ x, s = x ++ r ∧ ∀ c ∈ x, p c = true := by
  induction s with
  | nil => simp [manyRests]
  | cons c s ih =>
    have hself : ∃ x, c :: s = x ++ (c :: s) ∧ ∀ d ∈ x, p d = true := ⟨[], rfl, by simp⟩
    unfold manyRests
    by_cases hc : p c = true
    · rw [if_pos hc, List.mem_append, List.mem_singleton, ih]
      constructor
      · rintro (⟨x, hs, hx⟩ | rfl)
        · refine ⟨c :: x, by rw [hs, List.cons_append], ?_⟩
          intro d hd
          rcases List.mem_cons.mp hd with rfl | hd
          · exact hc
          · exact hx d hd
        · exact hself
      · rintro ⟨x, hs, hx⟩
        cases x with
        | nil => exact .inr hs.symm
        | cons d x =>
          rw [List.cons_append, List.cons.injEq] at hs
          exact .inl ⟨x, hs.2, fun e he => hx e (List.mem_cons_of_mem d he)⟩
    · rw [if_neg hc, List.mem_singleton]
      constructor
      · rintro rfl
        exact hself
      · rintro ⟨x, hs, hx⟩
        cases x with
        | nil => exact hs.symm
        | cons d x =>
          rw [List.cons_append, List.cons.injEq] at hs
          exact absurd (hx c (hs.1 ▸ List.mem_cons_self)) hc

/-- A way to go on takes a word of the pattern. -/
theorem takes_of_mem {a : Pattern α} {m r : Match α} (h : r ∈ a.runs m) : ∃ x, m.rest = x ++ r.rest ∧ a.Takes x := by
  induction a generalizing m r with
  | eps =>
    rw [Pattern.runs, List.mem_singleton] at h
    exact ⟨[], by rw [h, List.nil_append], rfl⟩
  | sat p =>
    unfold Pattern.runs at h
    split at h
    · cases h
    next c s hs =>
      split at h
      next hc =>
        rw [List.mem_singleton] at h
        exact ⟨[c], by rw [hs, h, List.singleton_append], c, rfl, hc⟩
      · cases h
  | many p =>
    rw [Pattern.runs, List.mem_map] at h
    obtain ⟨s, hs, rfl⟩ := h
    exact mem_manyRests.mp hs
  | seq a b iha ihb =>
    rw [Pattern.runs, List.mem_flatMap] at h
    obtain ⟨n, hn, hr⟩ := h
    obtain ⟨y, hy, hay⟩ := iha hn
    obtain ⟨z, hz, hbz⟩ := ihb hr
    exact ⟨y ++ z, by rw [hy, hz, List.append_assoc], y, z, rfl, hay, hbz⟩
  | alt a b iha ihb =>
    rw [Pattern.runs, List.mem_append] at h
    rcases h with h | h
    · obtain ⟨x, hx, ha⟩ := iha h
      exact ⟨x, hx, .inl ha⟩
    · obtain ⟨x, hx, hb⟩ := ihb h
      exact ⟨x, hx, .inr hb⟩
  | cap a ih =>
    rw [Pattern.runs, List.mem_map] at h
    obtain ⟨n, hn, rfl⟩ := h
    obtain ⟨x, hx, ha⟩ := ih hn
    exact ⟨x, hx, ha⟩

/-! ## The first way -/

theorem head_flatMap {β : Type} {f : α → List β} {l : List α} {r : β} (h : (l.flatMap f).head? = some r) :
    ∃ x ∈ l, (f x).head? = some r := by
  induction l with
  | nil => cases h
  | cons x l ih =>
    rw [List.flatMap_cons] at h
    cases hx : f x with
    | nil =>
      rw [hx, List.nil_append] at h
      obtain ⟨y, hy, hr⟩ := ih h
      exact ⟨y, List.mem_cons_of_mem x hy, hr⟩
    | cons s t =>
      rw [hx, List.cons_append] at h
      exact ⟨x, List.mem_cons_self, by rw [hx]; exact h⟩

theorem head_runs_seq {a b : Pattern α} {m r : Match α} (h : ((Pattern.seq a b).runs m).head? = some r) :
    ∃ n ∈ a.runs m, (b.runs n).head? = some r := head_flatMap h

/-- The first way takes all there are. -/
theorem manyRests_eq (p : α → Bool) (s : List α) : ∃ l, manyRests p s = s.dropWhile p :: l := by
  induction s with
  | nil => exact ⟨[], rfl⟩
  | cons c s ih =>
    unfold manyRests
    by_cases hc : p c = true
    · obtain ⟨l, hl⟩ := ih
      rw [if_pos hc, hl, List.dropWhile_cons_of_pos hc]
      exact ⟨_, rfl⟩
    · rw [if_neg hc, List.dropWhile_cons_of_neg hc]
      exact ⟨[], rfl⟩

/-- What `many` leaves is what is left of its letters, when nothing can go on
from one of them. -/
theorem runs_many_seq {p : α → Bool} {b : Pattern α} (hb : ∀ x, b.Takes x → ∃ c y, x = c :: y ∧ p c = false)
    (m : Match α) : (Pattern.seq (.many p) b).runs m = b.runs { m with rest := m.rest.dropWhile p } := by
  have hstuck : ∀ g c s, p c = true → b.runs ⟨g, c :: s⟩ = [] := by
    intro g c s hc
    rw [List.eq_nil_iff_forall_not_mem]
    intro r hr
    obtain ⟨x, hx, htakes⟩ := takes_of_mem hr
    obtain ⟨d, y, rfl, hd⟩ := hb x htakes
    have hcd : c = d := (List.cons.inj hx).1
    rw [← hcd, hc] at hd
    cases hd
  obtain ⟨g, s⟩ := m
  show ((manyRests p s).map fun r => (⟨g, r⟩ : Match α)).flatMap b.runs = b.runs ⟨g, s.dropWhile p⟩
  induction s with
  | nil => simp [manyRests]
  | cons c s ih =>
    unfold manyRests
    by_cases hc : p c = true
    · rw [if_pos hc, List.map_append, List.flatMap_append, ih, List.dropWhile_cons_of_pos hc, List.map_singleton,
        List.flatMap_singleton, hstuck g c s hc, List.append_nil]
    · rw [if_neg hc, List.dropWhile_cons_of_neg hc, List.map_singleton, List.flatMap_singleton]

/-! ## Patterns with one way -/

/-- Before what `C` allows, the pattern has one way at most: to the text that
`f` leaves. -/
def Pattern.Leads (a : Pattern α) (f : List α → Option (List α)) (C : Pattern α → Prop) : Prop :=
  ∀ k, C k → ∀ m : Match α, (Pattern.seq a k).runs m = ((f m.rest).map fun s => k.runs { m with rest := s }).getD []

/-- All words of the pattern start with a letter that is not in `p`. -/
def Pattern.StartsOff (p : α → Bool) (a : Pattern α) : Prop := ∀ x, a.Takes x → ∃ c y, x = c :: y ∧ p c = false

/-- The text behind a letter with `p`. -/
def behindLetter (p : α → Bool) : List α → Option (List α)
  | [] => none
  | c :: s => if p c then some s else none

variable {a b : Pattern α} {f g : List α → Option (List α)} {C D : Pattern α → Prop} {p : α → Bool}

theorem startsOff_seq (h : a.StartsOff p) : (Pattern.seq a b).StartsOff p := by
  rintro x ⟨y, z, rfl, hy, -⟩
  obtain ⟨c, v, rfl, hc⟩ := h y hy
  exact ⟨c, v ++ z, rfl, hc⟩

theorem startsOff_alt (ha : a.StartsOff p) (hb : b.StartsOff p) :
    (Pattern.alt a b).StartsOff p := fun x hx => hx.elim (ha x) (hb x)

theorem startsOff_opt (ha : a.StartsOff p) (hb : b.StartsOff p) :
    (Pattern.seq (.opt a) b).StartsOff p := by
  rintro x ⟨y, z, rfl, hy | hy, hz⟩
  · exact startsOff_seq ha _ ⟨y, z, rfl, hy, hz⟩
  · obtain rfl : y = [] := hy
    exact hb z hz

theorem startsOff_assoc {k : Pattern α} (h : (Pattern.seq a (.seq b k)).StartsOff p) :
    (Pattern.seq (.seq a b) k).StartsOff p := by
  rintro x ⟨_, z, rfl, ⟨u, v, rfl, hu, hv⟩, hz⟩
  exact h _ ⟨u, v ++ z, by rw [List.append_assoc], hu, v, z, rfl, hv, hz⟩

theorem Pattern.Leads.congr (h : a.Leads f C) (hfg : ∀ s, f s = g s) : a.Leads g C :=
  (funext hfg : f = g) ▸ h

theorem leads_eps : (Pattern.eps : Pattern α).Leads some C := fun k _ m => by simp [Pattern.runs]

theorem leads_sat (p : α → Bool) : (Pattern.sat p).Leads (behindLetter p) C := by
  rintro k - ⟨g, s⟩
  cases s with
  | nil => rfl
  | cons c s =>
    by_cases hc : p c = true
    · simp [Pattern.runs, behindLetter, hc]
    · simp [Pattern.runs, behindLetter, hc]

theorem leads_many (p : α → Bool) : (Pattern.many p).Leads (fun s => some (s.dropWhile p)) (Pattern.StartsOff p) :=
  fun _ hk m => runs_many_seq hk m

theorem leads_seq (ha : a.Leads f C) (hb : b.Leads g D) (hC : ∀ k, D k → C (.seq b k)) :
    (Pattern.seq a b).Leads (fun s => (f s).bind g) D := by
  intro k hk m
  have hassoc : (Pattern.seq (.seq a b) k).runs m = (Pattern.seq a (.seq b k)).runs m := by
    simp only [Pattern.runs, List.flatMap_assoc]
  rw [hassoc, ha _ (hC k hk) m]
  simp only
  cases f m.rest with
  | none => rfl
  | some s => exact hb k hk { m with rest := s }

theorem leads_alt (ha : a.Leads f C) (hb : b.Leads g C) (hone : ∀ s, f s = none ∨ g s = none) :
    (Pattern.alt a b).Leads (fun s => (f s).or (g s)) C := by
  intro k hk m
  have hsplit : (Pattern.seq (.alt a b) k).runs m = (Pattern.seq a k).runs m ++ (Pattern.seq b k).runs m := by
    simp only [Pattern.runs, List.flatMap_append]
  rw [hsplit, ha k hk m, hb k hk m]
  rcases hone m.rest with h | h
  · simp [h]
  · simp [h]

/-- A group of as many letters as there are, with what may follow it. -/
theorem head_group {p : α → Bool} {b : Pattern α} {m r : Match α}
    (h : ((Pattern.seq (.cap (.many1 p)) (.opt b)).runs m).head? = some r)
    (hb : ∀ n s, s ∈ b.runs n → s.group = n.group) :
    r.group = m.rest.takeWhile p ∧ r.group ≠ [] := by
  cases hs : m.rest with
  | nil => simp [Pattern.runs, Pattern.many1, hs] at h
  | cons c s =>
    by_cases hc : p c = true
    · have hopt : ∀ n s, s ∈ (Pattern.opt b).runs n → s.group = n.group := by
        intro n s hmem
        rcases List.mem_append.mp hmem with hmem | hmem
        · exact hb n s hmem
        · rw [List.mem_singleton.mp hmem]
      obtain ⟨l, hl⟩ := manyRests_eq p s
      have htake : (c :: s).take ((c :: s).length - (s.dropWhile p).length) = (c :: s).takeWhile p := by
        have hlen : (c :: s).length - (s.dropWhile p).length = ((c :: s).takeWhile p).length := by
          have hsplit := congrArg List.length (List.takeWhile_append_dropWhile (p := p) (l := s))
          rw [List.length_append] at hsplit
          rw [List.takeWhile_cons_of_pos hc, List.length_cons, List.length_cons]
          omega
        rw [hlen]
        exact (List.prefix_iff_eq_take.mp (List.takeWhile_prefix p)).symm
      have hmem : r ∈ (Pattern.opt b).runs ⟨(c :: s).takeWhile p, s.dropWhile p⟩ := by
        have hruns : (Pattern.cap (.many1 p)).runs m = ⟨(c :: s).takeWhile p, s.dropWhile p⟩ ::
            l.map fun r => ⟨(c :: s).take ((c :: s).length - r.length), r⟩ := by
          rw [← htake]
          simp [Pattern.runs, Pattern.many1, hs, hc, hl]
        rw [Pattern.runs, hruns, List.flatMap_cons, List.head?_append] at h
        cases hfirst : ((Pattern.opt b).runs ⟨(c :: s).takeWhile p, s.dropWhile p⟩).head? with
        | none =>
          rw [Pattern.opt, Pattern.runs, List.head?_append] at hfirst
          cases hb : (b.runs ⟨(c :: s).takeWhile p, s.dropWhile p⟩).head? <;> simp [hb, Pattern.runs] at hfirst
        | some x =>
          rw [hfirst, Option.some_or, Option.some.injEq] at h
          exact h ▸ List.mem_of_mem_head? hfirst
      have hgroup : r.group = (c :: s).takeWhile p := hopt _ r hmem
      refine ⟨hgroup, ?_⟩
      rw [hgroup, List.takeWhile_cons_of_pos hc]
      exact List.cons_ne_nil _ _
    · simp [Pattern.runs, Pattern.many1, hs, hc] at h

/-- The group that a search finds so. -/
theorem head_group_eq (p : α → Bool) (hb : ∀ n s, s ∈ b.runs n → s.group = n.group) (m : Match α) :
    (((Pattern.seq (.cap (.many1 p)) (.opt b)).runs m).head?).map Match.group =
      if m.rest.takeWhile p = [] then none else some (m.rest.takeWhile p) := by
  cases hhead : ((Pattern.seq (.cap (.many1 p)) (.opt b)).runs m).head? with
  | some r =>
    obtain ⟨hgroup, hne⟩ := head_group hhead hb
    rw [← hgroup, if_neg hne]
    rfl
  | none =>
    refine (if_pos ?_).symm
    by_contra hne
    obtain ⟨c, s, hs, hc⟩ : ∃ c s, m.rest = c :: s ∧ p c = true := by
      cases hs : m.rest with
      | nil => exact absurd (by rw [hs]; rfl) hne
      | cons c s =>
        refine ⟨c, s, rfl, ?_⟩
        by_contra hc
        exact hne (by rw [hs, List.takeWhile_cons_of_neg hc])
    obtain ⟨l, hl⟩ := manyRests_eq p s
    simp [Pattern.runs, Pattern.many1, Pattern.opt, hs, hc, hl] at hhead

/-! ## The matches at the starts of the lines -/

variable {a : Pattern α} {newline : α → Bool}

/-- Whether a line starts after the letters. -/
def lineStart (newline : α → Bool) (start : Bool) (before : List α) : Bool := (before.getLast?.map newline).getD start

theorem lineStart_cons (start : Bool) (c : α) (before : List α) :
    lineStart newline start (c :: before) = lineStart newline (newline c) before := by
  unfold lineStart
  rw [List.getLast?_cons]
  cases before.getLast? <;> rfl

/-- A group that a line of the text starts with. -/
def Pattern.AtLine (a : Pattern α) (newline : α → Bool) (start : Bool) (s g : List α) : Prop :=
  ∃ before u m, s = before ++ u ∧ lineStart newline start before = true ∧ a.first u = some m ∧ m.group = g

theorem atLine_cons {start : Bool} {c : α} {s g : List α} (h : a.AtLine newline (newline c) s g) :
    a.AtLine newline start (c :: s) g := by
  obtain ⟨before, u, m, hs, hstart, hm⟩ := h
  exact ⟨c :: before, u, m, by rw [hs, List.cons_append], by rwa [lineStart_cons], hm⟩

theorem findAll_atLine {skip : Nat} {start : Bool} {s g : List α} (h : g ∈ a.findAll newline skip start s) :
    a.AtLine newline start s g := by
  induction s generalizing skip start with
  | nil => cases skip <;> cases h
  | cons c s ih =>
    cases skip with
    | succ skip => exact atLine_cons (ih h)
    | zero =>
      unfold Pattern.findAll at h
      split at h
      next m hm =>
        rcases List.mem_cons.mp h with rfl | h
        · cases start with
          | false => cases hm
          | true => exact ⟨[], c :: s, m, rfl, rfl, hm, rfl⟩
        · exact atLine_cons (ih h)
      · exact atLine_cons (ih h)

/-- When the search finds only good groups, all lines start with good groups, if
what a good match passes over does not start with a bad one. -/
theorem atLine_of_findAll {good : List α → Prop} (hnil : a.first [] = none)
    (happart : ∀ t m, a.first t = some m → good m.group → ∀ before u n, t = before ++ u →
      lineStart newline false before = true → m.rest.length < u.length → a.first u = some n → good n.group)
    {skip : Nat} {start : Bool} {s : List α} (hgood : ∀ g ∈ a.findAll newline skip start s, good g)
    (hskip : ∀ before u m, s = before ++ u → before.length < skip → lineStart newline start before = true →
      a.first u = some m → good m.group) {g : List α} (h : a.AtLine newline start s g) : good g := by
  induction s generalizing skip start with
  | nil =>
    obtain ⟨before, u, m, hs, -, hm, -⟩ := h
    rw [(List.append_eq_nil_iff.mp hs.symm).2, hnil] at hm
    cases hm
  | cons c s ih =>
    obtain ⟨before, u, m, hs, hstart, hm, rfl⟩ := h
    cases before with
    | nil =>
      have hu : c :: s = u := hs
      have hhere : start = true := hstart
      cases skip with
      | succ skip => exact hskip [] u m hs (Nat.succ_pos skip) hstart hm
      | zero =>
        refine hgood m.group ?_
        unfold Pattern.findAll
        rw [if_pos hhere, hu, hm]
        exact List.mem_cons_self
    | cons d before =>
      rw [List.cons_append, List.cons.injEq] at hs
      obtain ⟨rfl, hs⟩ := hs
      rw [lineStart_cons] at hstart
      have hlater : a.AtLine newline (newline c) s m.group := ⟨before, u, m, hs, hstart, hm, rfl⟩
      cases skip with
      | succ skip =>
        refine ih hgood (fun before u m hs hlen hstart hm => ?_) hlater
        refine hskip (c :: before) u m (by rw [hs, List.cons_append]) ?_ (by rwa [lineStart_cons]) hm
        rw [List.length_cons]
        omega
      | zero =>
        unfold Pattern.findAll at hgood
        split at hgood
        next n hn =>
          have hfirst : a.first (c :: s) = some n := by
            cases start with
            | false => cases hn
            | true => exact hn
          refine ih (fun g hg => hgood g (List.mem_cons_of_mem _ hg)) ?_ hlater
          intro before v k hv hlen hline hk
          refine happart (c :: s) n hfirst (hgood n.group List.mem_cons_self) (c :: before) v k
            (by rw [hv, List.cons_append]) (by rwa [lineStart_cons]) ?_ hk
          have hlength := congrArg List.length hv
          rw [List.length_append] at hlength
          rw [List.length_cons] at hlen
          omega
        · exact ih hgood (fun _ _ _ _ hlen => absurd hlen (Nat.not_lt_zero _)) hlater

example : (Pattern.cap (.many1 (· == 'a'))).findAll (· == '\n') 0 true "aab\nba\na".toList = [['a', 'a'], ['a']] := by
  decide +kernel

end patterns

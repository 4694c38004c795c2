-- Writers over a sink: a buffer that passes full blocks on, and a coder that
-- turns what it is given into what the sink gets. When every write ended
-- well, the sink reads as all that went in.
import IcsdPanel.Effects

open effects

namespace sinks

variable {α : Type}

/-! ## Buffers and coders -/

/-- What a buffer for `n` passes on, and what it holds, when `held` is in it
and more comes. -/
def fill (n : Nat) : List α → List α → List (List α) × List α
  | held, [] => ([], held)
  | held, a :: as =>
    if held.length + 1 < n then fill n (held ++ [a]) as
    else ((held ++ [a]) :: (fill n [] as).1, (fill n [] as).2)

/-- What is passed on for a list of writes, after those before them. -/
def coded (step : List (List α) → List α → List α) : List (List α) → List (List α) → List α
  | _, [] => []
  | past, p :: ps => step past p ++ coded step (past ++ [p]) ps

/-- A coder: what a write passes on, after the writes before it, what the end
adds, and how the whole is read. -/
structure Coder (α : Type) where
  step : List (List α) → List α → List α
  last : List (List α) → List α
  read : List α → Option (List α)
  read_coded : ∀ ps, read (coded step [] ps ++ last ps) = some ps.flatten

theorem fill_flatten (n : Nat) (held as : List α) :
    (fill n held as).1.flatten ++ (fill n held as).2 = held ++ as := by
  induction as generalizing held with
  | nil => simp [fill]
  | cons a as ih =>
    unfold fill
    split
    · rw [ih]
      simp
    · have h := ih []
      rw [List.nil_append] at h
      simp [h]

theorem coded_append (step : List (List α) → List α → List α) (past ps qs : List (List α)) :
    coded step past (ps ++ qs) = coded step past ps ++ coded step (past ++ ps) qs := by
  induction ps generalizing past with
  | nil => simp [coded]
  | cons p ps ih =>
    rw [List.cons_append, coded, coded, ih]
    simp

theorem coded_snoc (step : List (List α) → List α → List α) (ps : List (List α)) (p : List α) :
    coded step [] (ps ++ [p]) = coded step [] ps ++ step ps p := by
  rw [coded_append]
  simp [coded]

theorem coded_id (past ps : List (List α)) : coded (fun _ p => p) past ps = ps.flatten := by
  induction ps generalizing past with
  | nil => simp [coded]
  | cons p ps ih => simp [coded, ih]

/-- No coding at all. -/
def Coder.plain : Coder α where
  step _ p := p
  last _ := []
  read := some
  read_coded ps := by rw [coded_id, List.append_nil]

/-! ## The writers -/

/-- The writers over a sink: how much the sink got, the writes that the coder
got, and what the buffer holds. -/
structure Chain (α : Type) where
  size : Nat
  given : List (List α)
  held : List α

def Chain.empty : Chain α := ⟨0, [], []⟩

section writers

variable {ε σ φ : Type} (c : Coder α) (put : Nat → List α → Proc ε σ φ Unit)

/-- A write to the coder. -/
def pass (s : Chain α) (p : List α) : Proc ε σ φ (Chain α) := do
  put s.size (c.step s.given p)
  pure ⟨s.size + (c.step s.given p).length, s.given ++ [p], s.held⟩

def passAll : Chain α → List (List α) → Proc ε σ φ (Chain α)
  | s, [] => pure s
  | s, p :: ps => do
    let s ← pass c put s p
    passAll s ps

/-- A write to the buffer. -/
def accept (n : Nat) (s : Chain α) (p : List α) : Proc ε σ φ (Chain α) :=
  passAll c put { s with held := (fill n s.held p).2 } (fill n s.held p).1

def acceptAll (n : Nat) : Chain α → List (List α) → Proc ε σ φ (Chain α)
  | s, [] => pure s
  | s, p :: ps => do
    let s ← accept c put n s p
    acceptAll n s ps

/-- What the buffer holds goes to the coder. -/
def flush (s : Chain α) : Proc ε σ φ (Chain α) :=
  if s.held = [] then pure s else pass c put { s with held := [] } s.held

/-- The end of the coder. -/
def finish (s : Chain α) : Proc ε σ φ Unit := put s.size (c.last s.given)

/-! ## What the sink has -/

variable {c put} {e : ε} {Has : List α → σ → Prop} {T : σ → Prop} {s : Chain α} {input : List α}

/-- The sink has what the coder passed on, and the writers know how much. -/
def Sunk (c : Coder α) (Has : List α → σ → Prop) (s : Chain α) (x : σ) : Prop :=
  Has (coded c.step [] s.given) x ∧ s.size = (coded c.step [] s.given).length

/-- The writers got `input` so far. -/
def Fed (c : Coder α) (Has : List α → σ → Prop) (s : Chain α) (input : List α) (x : σ) : Prop :=
  Sunk c Has s x ∧ s.given.flatten ++ s.held = input

theorem fed_empty {x : σ} (h : Has [] x) : Fed c Has Chain.empty [] x :=
  ⟨⟨h, rfl⟩, rfl⟩

/-- Without a coder and with nothing held, the sink has what went in. -/
theorem fed_plain {x : σ} (h : Fed .plain Has s input x) (hheld : s.held = []) : Has input x := by
  obtain ⟨⟨hhas, -⟩, rfl⟩ := h
  rw [hheld, List.append_nil, ← coded_id []]
  exact hhas

variable (hput : ∀ xs ys, Proc.Triple e (Has xs) (put xs.length ys) (fun _ => Has (xs ++ ys)) T)

include hput

theorem triple_pass {p : List α} :
    Proc.Triple e (Sunk c Has s) (pass c put s p)
      (fun s' x => Sunk c Has s' x ∧ s'.given = s.given ++ [p] ∧ s'.held = s.held) T := by
  unfold pass
  by_cases hsize : s.size = (coded c.step [] s.given).length
  · refine Proc.triple_weaken (Proc.triple_bind (M := fun _ => Has (coded c.step [] s.given ++ c.step s.given p))
      (Q := fun s' x => Sunk c Has s' x ∧ s'.given = s.given ++ [p] ∧ s'.held = s.held) ?_ fun _ => ?_)
      (fun x hx => hx.1) (fun _ _ h => h) fun _ h => h
    · rw [hsize]
      exact hput _ _
    · refine Proc.triple_pure fun x hx => ⟨⟨?_, ?_⟩, rfl, rfl⟩
      · rw [coded_snoc]
        exact hx
      · rw [coded_snoc, List.length_append, hsize]
  · intro x hx
    exact absurd hx.2 hsize

theorem triple_passAll {ps : List (List α)} :
    Proc.Triple e (Sunk c Has s) (passAll c put s ps)
      (fun s' x => Sunk c Has s' x ∧ s'.given = s.given ++ ps ∧ s'.held = s.held) T := by
  induction ps generalizing s with
  | nil => exact Proc.triple_pure fun x hx => ⟨hx, by simp, rfl⟩
  | cons p ps ih =>
    unfold passAll
    refine Proc.triple_bind (triple_pass hput) fun s1 => ?_
    rintro x ⟨hx, hgiven, hheld⟩
    have hrest := ih (s := s1)
    rw [hgiven, hheld] at hrest
    refine Proc.triple_weaken hrest (fun _ h => h) ?_ (fun _ h => h) x hx
    rintro s2 y ⟨hy, hg, hh⟩
    exact ⟨hy, by rw [hg]; simp, hh⟩

/-- Writes that go past the buffer while it holds nothing. -/
theorem triple_direct {ps : List (List α)} (hheld : s.held = []) :
    Proc.Triple e (Fed c Has s input) (passAll c put s ps)
      (fun s' x => Fed c Has s' (input ++ ps.flatten) x ∧ s'.held = []) T := by
  rintro x ⟨hx, rfl⟩
  refine Proc.triple_weaken (triple_passAll hput) (fun _ h => h) ?_ (fun _ h => h) x hx
  rintro s1 y ⟨hy, hg, hh⟩
  exact ⟨⟨hy, by rw [hg, hh, hheld]; simp⟩, hh.trans hheld⟩

theorem triple_accept {n : Nat} {p : List α} :
    Proc.Triple e (Fed c Has s input) (accept c put n s p)
      (fun s' => Fed c Has s' (input ++ p)) T := by
  unfold accept
  rintro x ⟨hx, rfl⟩
  refine Proc.triple_weaken (triple_passAll hput) (fun _ h => h) ?_ (fun _ h => h) x hx
  rintro s1 y ⟨hy, hg, hh⟩
  refine ⟨hy, ?_⟩
  rw [hg, hh, List.flatten_append, List.append_assoc, fill_flatten, List.append_assoc]

theorem triple_acceptAll {n : Nat} {ps : List (List α)} :
    Proc.Triple e (Fed c Has s input) (acceptAll c put n s ps)
      (fun s' => Fed c Has s' (input ++ ps.flatten)) T := by
  induction ps generalizing s input with
  | nil => exact Proc.triple_pure fun x hx => by simpa using hx
  | cons p ps ih =>
    unfold acceptAll
    refine Proc.triple_bind (triple_accept hput) fun s1 => ?_
    rw [List.flatten_cons, ← List.append_assoc]
    exact ih

theorem triple_flush :
    Proc.Triple e (Fed c Has s input) (flush c put s)
      (fun s' x => Fed c Has s' input x ∧ s'.held = []) T := by
  unfold flush
  refine Proc.triple_ite (fun hheld => Proc.triple_pure fun x hx => ⟨hx, hheld⟩) fun _ => ?_
  rintro x ⟨hx, rfl⟩
  refine Proc.triple_weaken (triple_pass hput) (fun _ h => h) ?_ (fun _ h => h) x hx
  rintro s1 y ⟨hy, hg, hh⟩
  exact ⟨⟨hy, by rw [hg, hh]; simp⟩, hh⟩

/-- After the end of the coder the sink reads as all that went in. -/
theorem triple_finish (hheld : s.held = []) :
    Proc.Triple e (Fed c Has s input) (finish c put s)
      (fun _ x => ∃ xs, Has xs x ∧ c.read xs = some input) T := by
  unfold finish
  rintro x ⟨⟨hx, hsize⟩, rfl⟩
  rw [hsize]
  refine Proc.triple_weaken (hput _ _) (fun _ h => h) ?_ (fun _ h => h) x hx
  intro _ y hy
  refine ⟨_, hy, ?_⟩
  rw [c.read_coded, hheld, List.append_nil]

end writers

end sinks

-- Procedures that read their surroundings, change a state and may fail, and
-- the rules for what they keep. The state survives a failure, so a caller
-- can clean up after one.
import Mathlib.Logic.Basic
import Mathlib.Tactic.Common

namespace effects

/-- A procedure reads its surroundings, changes the state, and ends with a
value or a failure. -/
def Proc (ε σ φ α : Type) : Type := ε → σ → Except φ α × σ

namespace Proc

variable {ε σ φ α β : Type}

def ret (a : α) : Proc ε σ φ α := fun _ s => (.ok a, s)

def fail (f : φ) : Proc ε σ φ α := fun _ s => (.error f, s)

def andThen (x : Proc ε σ φ α) (k : α → Proc ε σ φ β) : Proc ε σ φ β := fun e s =>
  match x e s with
  | (.ok a, s') => k a e s'
  | (.error f, s') => (.error f, s')

/-- `x` with its failure as data, as the `err` of a call that returns one. -/
def attempt (x : Proc ε σ φ α) : Proc ε σ φ (Except φ α) := fun e s =>
  (.ok (x e s).1, (x e s).2)

/-- `x`, and when it fails, `after` before the failure goes on. A failure of
`after` itself is dropped. -/
def orElseFirst (x : Proc ε σ φ α) (after : Proc ε σ φ β) : Proc ε σ φ α := fun e s =>
  match x e s with
  | (.ok a, s') => (.ok a, s')
  | (.error f, s') => (.error f, (after e s').2)

instance : Monad (Proc ε σ φ) where
  pure := ret
  bind := andThen

theorem bind_run (x : Proc ε σ φ α) (k : α → Proc ε σ φ β) (e : ε) (s : σ) :
    (x >>= k) e s = match x e s with
      | (.ok a, s') => k a e s'
      | (.error f, s') => (.error f, s') := rfl

theorem bind_run_ok {x : Proc ε σ φ α} {k : α → Proc ε σ φ β} {e : ε} {s s' : σ} {a : α}
    (h : x e s = (.ok a, s')) : (x >>= k) e s = k a e s' := by
  rw [bind_run, h]

theorem bind_run_error {x : Proc ε σ φ α} {k : α → Proc ε σ φ β} {e : ε} {s s' : σ} {f : φ}
    (h : x e s = (.error f, s')) : (x >>= k) e s = (.error f, s') := by
  rw [bind_run, h]

/-- A run of two procedures in a row that ended well ran both of them well. -/
theorem bind_run_inv {x : Proc ε σ φ α} {k : α → Proc ε σ φ β} {e : ε} {s s' : σ} {b : β}
    (h : (x >>= k) e s = (.ok b, s')) :
    ∃ a s1, x e s = (.ok a, s1) ∧ k a e s1 = (.ok b, s') := by
  rw [bind_run] at h
  rcases hx : x e s with ⟨r, s1⟩
  rw [hx] at h
  cases r with
  | ok a => exact ⟨a, s1, rfl, h⟩
  | error f => cases h

theorem orElseFirst_run_ok {x : Proc ε σ φ α} {after : Proc ε σ φ β} {e : ε} {s s' : σ} {a : α}
    (h : x e s = (.ok a, s')) : x.orElseFirst after e s = (.ok a, s') := by
  unfold orElseFirst
  rw [h]

theorem orElseFirst_run_error {x : Proc ε σ φ α} {after : Proc ε σ φ β} {e : ε} {s s' : σ} {f : φ}
    (h : x e s = (.error f, s')) : x.orElseFirst after e s = (.error f, (after e s').2) := by
  unfold orElseFirst
  rw [h]

theorem attempt_run {x : Proc ε σ φ α} {e : ε} {s s' : σ} {r : Except φ α}
    (h : x e s = (r, s')) : x.attempt e s = (.ok r, s') := by
  unfold attempt
  rw [h]

/-! ## What a procedure does -/

/-- From a state with `P`, the procedure ends with a value and `Q`, or fails
with `T`. -/
def Triple (e : ε) (P : σ → Prop) (x : Proc ε σ φ α) (Q : α → σ → Prop) (T : σ → Prop) : Prop :=
  ∀ s, P s → match x e s with
    | (.ok a, s') => Q a s'
    | (.error _, s') => T s'

/-- The procedure keeps `I`, however it ends. -/
def Keeps (e : ε) (I : σ → Prop) (x : Proc ε σ φ α) : Prop := Triple e I x (fun _ => I) I

variable {e : ε} {P I T : σ → Prop} {Q : α → σ → Prop}

theorem triple_pure {a : α} (h : ∀ s, P s → Q a s) :
    Triple e P (pure a : Proc ε σ φ α) Q T := h

theorem triple_fail {f : φ} (h : ∀ s, P s → T s) : Triple e P (fail f : Proc ε σ φ α) Q T := h

theorem triple_bind {x : Proc ε σ φ α} {k : α → Proc ε σ φ β} {M : α → σ → Prop}
    {Q : β → σ → Prop} (hx : Triple e P x M T) (hk : ∀ a, Triple e (M a) (k a) Q T) :
    Triple e P (x >>= k) Q T := by
  intro s hs
  have h := hx s hs
  rw [bind_run]
  rcases hrun : x e s with ⟨r, s1⟩
  rw [hrun] at h
  cases r with
  | ok a => exact hk a s1 h
  | error f => exact h

theorem triple_attempt {x : Proc ε σ φ α} (h : Triple e P x Q T) :
    Triple e P (attempt x) (fun r s => match r with
      | .ok a => Q a s
      | .error _ => T s) I := by
  intro s hs
  have h := h s hs
  unfold attempt
  rcases hrun : x e s with ⟨r, s1⟩
  rw [hrun] at h
  cases r <;> exact h

theorem triple_attempt_state {x : Proc ε σ φ α} (h : Triple e P x (fun _ => T) T) :
    Triple e P (attempt x) (fun _ => T) I :=
  fun s hs => by
    have h := h s hs
    unfold attempt
    rcases hrun : x e s with ⟨r, s1⟩
    rw [hrun] at h
    cases r <;> exact h

theorem triple_orElseFirst {x : Proc ε σ φ α} {after : Proc ε σ φ β} {M : σ → Prop}
    (hx : Triple e P x Q M) (ha : Triple e M after (fun _ => T) T) :
    Triple e P (x.orElseFirst after) Q T := by
  intro s hs
  have h := hx s hs
  unfold orElseFirst
  rcases hrun : x e s with ⟨r, s1⟩
  rw [hrun] at h
  cases r with
  | ok a => exact h
  | error f =>
    have h2 := ha s1 h
    show T (after e s1).2
    rcases hafter : after e s1 with ⟨r2, s2⟩
    rw [hafter] at h2
    cases r2 <;> exact h2

theorem triple_ite {c : Prop} [Decidable c] {x y : Proc ε σ φ α}
    (hx : c → Triple e P x Q T) (hy : ¬ c → Triple e P y Q T) :
    Triple e P (if c then x else y) Q T := by
  split
  · exact hx ‹_›
  · exact hy ‹_›

theorem triple_weaken {x : Proc ε σ φ α} {P' T' : σ → Prop} {Q' : α → σ → Prop}
    (h : Triple e P x Q T) (hP : ∀ s, P' s → P s) (hQ : ∀ a s, Q a s → Q' a s)
    (hT : ∀ s, T s → T' s) : Triple e P' x Q' T' := by
  intro s hs
  have h := h s (hP s hs)
  rcases hrun : x e s with ⟨r, s1⟩
  rw [hrun] at h
  cases r with
  | ok a => exact hQ a s1 h
  | error f => exact hT s1 h

theorem triple_and {x : Proc ε σ φ α} {P' T' : σ → Prop} {Q' : α → σ → Prop} (h : Triple e P x Q T)
    (h' : Triple e P' x Q' T') :
    Triple e (fun s => P s ∧ P' s) x (fun a s => Q a s ∧ Q' a s) (fun s => T s ∧ T' s) := by
  intro s hs
  have h := h s hs.1
  have h' := h' s hs.2
  rcases hrun : x e s with ⟨r, s1⟩
  rw [hrun] at h h'
  cases r with
  | ok a => exact ⟨h, h'⟩
  | error f => exact ⟨h, h'⟩

/-- What a run that ended well left. -/
theorem Triple.ok {x : Proc ε σ φ α} (h : Triple e P x Q T) {s s' : σ} {a : α} (hs : P s)
    (hrun : x e s = (.ok a, s')) : Q a s' := by
  have := h s hs
  rwa [hrun] at this

/-- What any run left, when both ends have it. -/
theorem Triple.state {x : Proc ε σ φ α} (h : Triple e P x (fun _ => T) T) {s : σ} (hs : P s) :
    T (x e s).2 := by
  have := h s hs
  rcases hrun : x e s with ⟨r, s1⟩
  rw [hrun] at this
  cases r <;> exact this

theorem triple_of_state {x : Proc ε σ φ α} (h : ∀ s, P s → T (x e s).2) :
    Triple e P x (fun _ => T) T := by
  intro s hs
  have := h s hs
  rcases hrun : x e s with ⟨r, s1⟩
  rw [hrun] at this
  cases r <;> exact this

/-! ## How a procedure fails -/

section Fails

variable {F : φ → Prop}

/-- All failures of the procedure have `F`. -/
def Fails (F : φ → Prop) (x : Proc ε σ φ α) : Prop := ∀ e s f, (x e s).1 = .error f → F f

theorem fails_pure (a : α) : Fails F (pure a : Proc ε σ φ α) := fun _ _ _ h => by cases h

theorem fails_fail {f : φ} (h : F f) : Fails F (fail f : Proc ε σ φ α) := fun _ _ _ hf => by
  cases hf
  exact h

theorem fails_bind {x : Proc ε σ φ α} {k : α → Proc ε σ φ β} (hx : Fails F x) (hk : ∀ a, Fails F (k a)) :
    Fails F (x >>= k) := by
  intro e s f h
  rw [bind_run] at h
  rcases hrun : x e s with ⟨r, s1⟩
  rw [hrun] at h
  cases r with
  | ok a => exact hk a e s1 f h
  | error g =>
    cases h
    refine hx e s f ?_
    rw [hrun]

theorem fails_attempt (x : Proc ε σ φ α) : Fails F (attempt x) := fun _ _ _ h => by cases h

end Fails

/-! ## A procedure for each of a list -/

/-- Runs `f` for each of the list, until one fails. -/
def each (f : α → Proc ε σ φ β) : List α → Proc ε σ φ (List β)
  | [] => pure []
  | a :: as => do
    let b ← f a
    let bs ← each f as
    pure (b :: bs)

theorem triple_each {f : α → Proc ε σ φ β} {as : List α} {R : α → β → Prop}
    (h : ∀ a ∈ as, Triple e I (f a) (fun b s => I s ∧ R a b) T) :
    Triple e I (each f as) (fun bs s => I s ∧ ∀ b ∈ bs, ∃ a ∈ as, R a b) T := by
  induction as with
  | nil => exact triple_pure fun _ hs => ⟨hs, by simp⟩
  | cons a as ih =>
    have hrest := ih fun b hb => h b (List.mem_cons_of_mem a hb)
    refine triple_bind (h a List.mem_cons_self) fun b => ?_
    intro s hs
    obtain ⟨hI, hR⟩ := hs
    have hall : Triple e I (each f as) (fun bs s => I s ∧ ∀ b' ∈ b :: bs, ∃ a' ∈ a :: as, R a' b')
        T := by
      refine triple_weaken hrest (fun _ h => h) ?_ fun _ h => h
      rintro bs s' ⟨hI', hbs⟩
      refine ⟨hI', fun b' hb' => ?_⟩
      rcases List.mem_cons.mp hb' with rfl | hb'
      · exact ⟨a, List.mem_cons_self, hR⟩
      · obtain ⟨a', ha', hR'⟩ := hbs b' hb'
        exact ⟨a', List.mem_cons_of_mem a ha', hR'⟩
    exact triple_bind hall (fun bs => triple_pure fun s hs => hs) s hI

theorem each_snoc {f : α → Proc ε σ φ β} {as : List α} {bs : List β} {a : α} {b : β}
    {s s1 s2 : σ} (has : each f as e s = (.ok bs, s1)) (ha : f a e s1 = (.ok b, s2)) :
    each f (as ++ [a]) e s = (.ok (bs ++ [b]), s2) := by
  induction as generalizing s bs with
  | nil =>
    cases has
    rw [List.nil_append, each, bind_run_ok ha]
    rfl
  | cons x xs ih =>
    unfold each at has
    obtain ⟨y, s', hx, hrest⟩ := bind_run_inv has
    obtain ⟨ys, s'', hxs, hpure⟩ := bind_run_inv hrest
    cases hpure
    rw [List.cons_append, each, bind_run_ok hx, bind_run_ok (ih hxs)]
    rfl

/-- What each turn of a run keeps, the whole run keeps. A turn knows the run
that came before it. -/
theorem each_run {f : α → Proc ε σ φ β} {as : List α} {s0 : σ}
    (h : ∀ as1 a as2 bs, as = as1 ++ a :: as2 →
      Triple e (fun s => each f as1 e s0 = (.ok bs, s) ∧ I s) (f a) (fun _ => I) T)
    (h0 : I s0) : match each f as e s0 with
      | (.ok _, s) => I s
      | (.error _, s) => T s := by
  have hrun : ∀ (as2 as1 : List α) (bs : List β) (s : σ), as = as1 ++ as2 →
      each f as1 e s0 = (.ok bs, s) → I s → match each f as2 e s with
        | (.ok _, s') => I s'
        | (.error _, s') => T s' := by
    intro as2
    induction as2 with
    | nil => intro as1 bs s _ _ hI; exact hI
    | cons a as2 ih =>
      intro as1 bs s has hbs hI
      have hturn := h as1 a as2 bs has s ⟨hbs, hI⟩
      unfold each
      rw [bind_run]
      rcases ha : f a e s with ⟨r, s1⟩
      rw [ha] at hturn
      cases r with
      | error x => exact hturn
      | ok b =>
        have hrest := ih (as1 ++ [a]) (bs ++ [b]) s1 (by simp [has]) (each_snoc hbs ha) hturn
        simp only [bind_run]
        rcases hr : each f as2 e s1 with ⟨r, s2⟩
        rw [hr] at hrest
        cases r <;> exact hrest
  exact hrun as [] [] s0 rfl rfl h0

theorem each_ok {f : α → Proc ε σ φ β} {as : List α} {s : σ}
    (h : ∀ a ∈ as, ∃ b, f a e s = (.ok b, s)) : ∃ bs, each f as e s = (.ok bs, s) := by
  induction as with
  | nil => exact ⟨[], rfl⟩
  | cons a as ih =>
    obtain ⟨b, hb⟩ := h a List.mem_cons_self
    obtain ⟨bs, hbs⟩ := ih fun a' ha' => h a' (List.mem_cons_of_mem a ha')
    refine ⟨b :: bs, ?_⟩
    rw [each, bind_run_ok hb, bind_run_ok hbs]
    rfl

/-- When one of the list fails for sure, the whole run does. -/
theorem triple_each_fails {f : α → Proc ε σ φ β} {as : List α} {a : α} (ha : a ∈ as)
    (h : ∀ b ∈ as, Keeps e I (f b)) (hbad : Triple e I (f a) (fun _ _ => False) I) :
    Triple e I (each f as) (fun _ _ => False) I := by
  induction as with
  | nil => cases ha
  | cons b as ih =>
    rcases List.mem_cons.mp ha with rfl | ha
    · exact triple_bind hbad fun _ _ hs => hs.elim
    · refine triple_bind (h b List.mem_cons_self) fun _ => ?_
      exact triple_bind (ih ha fun c hc => h c (List.mem_cons_of_mem b hc)) fun _ _ hs => hs.elim

end Proc

end effects

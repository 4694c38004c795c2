-- Logs: lists of events to which a system only ever adds, and what they say of
-- the order in which things happened.
import Mathlib.Data.List.Basic
import Mathlib.Tactic.Common

namespace logs

variable {ε : Type} {P : List ε → ε → Prop} {A B A' B' : ε → Prop} {log : List ε} {x : ε}

/-- Every event has `P` of what came before it. -/
def Each (P : List ε → ε → Prop) (log : List ε) : Prop :=
  ∀ before x after, log = before ++ x :: after → P before x

/-- An event with `A` came, and none with `B` since. -/
def Since (A B : ε → Prop) (log : List ε) : Prop :=
  ∃ before x after, log = before ++ x :: after ∧ A x ∧ ∀ y ∈ after, ¬ B y

theorem each_nil : Each P [] := by
  intro before x after h
  simp at h

/-- Where a log with one event more can be cut. -/
theorem snoc_cut {before after : List ε} {y : ε} (h : log ++ [x] = before ++ y :: after) :
    (log = before ∧ x = y ∧ after = []) ∨ ∃ after', log = before ++ y :: after' ∧ after = after' ++ [x] := by
  rcases List.eq_nil_or_concat after with rfl | ⟨after', z, rfl⟩
  · obtain ⟨h1, h2⟩ := List.append_inj' h rfl
    exact .inl ⟨h1, List.singleton_inj.mp h2, rfl⟩
  · have h' : log ++ [x] = (before ++ y :: after') ++ [z] := by simpa using h
    obtain ⟨h1, h2⟩ := List.append_inj' h' rfl
    obtain rfl := List.singleton_inj.mp h2
    exact .inr ⟨after', h1, by simp⟩

theorem Each.snoc (h : Each P log) (hx : P log x) : Each P (log ++ [x]) := by
  intro before y after hcut
  rcases snoc_cut hcut with ⟨rfl, rfl, -⟩ | ⟨after', hlog, -⟩
  · exact hx
  · exact h before y after' hlog

theorem each_snoc : Each P (log ++ [x]) ↔ Each P log ∧ P log x := by
  constructor
  · intro h
    exact ⟨fun before y after hcut => h before y (after ++ [x]) (by simp [hcut]), h log x [] rfl⟩
  · rintro ⟨h, hx⟩
    exact h.snoc hx

theorem Each.mono {Q : List ε → ε → Prop} (h : Each P log) (hpq : ∀ before x, P before x → Q before x) :
    Each Q log := fun before x after hcut => hpq before x (h before x after hcut)

theorem since_snoc : Since A B (log ++ [x]) ↔ A x ∨ Since A B log ∧ ¬ B x := by
  constructor
  · rintro ⟨before, y, after, hcut, ha, hb⟩
    rcases snoc_cut hcut with ⟨-, rfl, -⟩ | ⟨after', hlog, rfl⟩
    · exact .inl ha
    · refine .inr ⟨⟨before, y, after', hlog, ha, fun z hz => hb z ?_⟩, hb x ?_⟩
      · exact List.mem_append_left _ hz
      · simp
  · rintro (ha | ⟨⟨before, y, after, rfl, ha, hb⟩, hx⟩)
    · exact ⟨log, x, [], rfl, ha, by simp⟩
    · refine ⟨before, y, after ++ [x], by simp, ha, fun z hz => ?_⟩
      rcases List.mem_append.mp hz with hz | hz
      · exact hb z hz
      · rw [List.mem_singleton.mp hz]
        exact hx

theorem Since.now (ha : A x) : Since A B (log ++ [x]) := since_snoc.mpr (.inl ha)

theorem Since.keep (h : Since A B log) (hx : ¬ B x) : Since A B (log ++ [x]) :=
  since_snoc.mpr (.inr ⟨h, hx⟩)

theorem Since.mono (h : Since A B log) (ha : ∀ x, A x → A' x) (hb : ∀ x, B' x → B x) : Since A' B' log := by
  obtain ⟨before, x, after, hlog, hax, hbx⟩ := h
  exact ⟨before, x, after, hlog, ha x hax, fun y hy hby => hbx y hy (hb y hby)⟩

theorem Since.append {xs : List ε} (h : Since A B log) (hx : ∀ x ∈ xs, ¬ B x) : Since A B (log ++ xs) := by
  obtain ⟨before, x, after, rfl, ha, hb⟩ := h
  refine ⟨before, x, after ++ xs, by simp, ha, fun y hy => ?_⟩
  rcases List.mem_append.mp hy with hy | hy
  · exact hb y hy
  · exact hx y hy

theorem Since.exists (h : Since A B log) : ∃ x ∈ log, A x := by
  obtain ⟨before, x, after, rfl, ha, -⟩ := h
  exact ⟨x, by simp, ha⟩

end logs

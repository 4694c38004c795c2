-- The values that Python's `json.loads` gives: strings of code points, integers
-- of any size, floats that may be no number, lists and dicts.
import Mathlib.Tactic.Common

namespace objects

/-! ## Strings and floats -/

def high (n : Nat) : Bool := 0xD800 ≤ n && n ≤ 0xDBFF

def low (n : Nat) : Bool := 0xDC00 ≤ n && n ≤ 0xDFFF

/-- No high surrogate stands right before a low one. -/
def joined : List Nat → Bool
  | h :: l :: s => !(high h && low l) && joined (l :: s)
  | _ => true

/-- A string from JSON: code points, where two surrogates that belong together
are one. A surrogate may stand alone. -/
structure Text where
  points : List Nat
  below : ∀ n ∈ points, n < 0x110000
  joined : joined points = true
deriving DecidableEq

/-- The text of a literal. -/
def points (s : String) : List Nat := s.toList.map Char.toNat

/-- A float over a type of the finite ones. -/
inductive PyFloat (F : Type)
  | nan
  | inf (negative : Bool)
  | fin (x : F)

def PyFloat.isFinite {F : Type} : PyFloat F → Bool
  | .fin _ => true
  | _ => false

inductive Value (F : Type)
  | none
  | bool (b : Bool)
  | int (n : Int)
  | float (x : PyFloat F)
  | str (s : Text)
  | list (xs : List (Value F))
  | dict (fields : List (Text × Value F))

variable {F : Type}

/-- `d.get(k)` of the fields of a dict. -/
def lookup (fields : List (Text × Value F)) (k : String) : Value F :=
  match fields.find? fun f => f.1.points = points k with
  | some f => f.2
  | none => .none

/-! ## Calls that may raise -/

inductive Raised
  | attributeError
  | typeError
  | valueError
  | overflowError
  | indexError
  | keyError
deriving DecidableEq

/-- A call that returns. -/
def Returns {α : Type} (x : Except Raised α) : Prop := ∃ a, x = .ok a

variable {α β : Type}

@[simp] theorem returns_ok (a : α) : Returns (.ok a) := ⟨a, rfl⟩

@[simp] theorem returns_pure (a : α) : Returns (pure a) := ⟨a, rfl⟩

@[simp] theorem not_returns_error (e : Raised) : ¬ Returns (Except.error e : Except Raised α) := by
  rintro ⟨a, h⟩
  cases h

theorem bind_ok {x : Except Raised α} {g : α → Except Raised β} {b : β} (h : x >>= g = .ok b) :
    ∃ a, x = .ok a ∧ g a = .ok b := by
  cases x with
  | error e => cases h
  | ok a => exact ⟨a, rfl, h⟩

theorem returns_bind {x : Except Raised α} {g : α → Except Raised β} :
    Returns (x >>= g) ↔ ∃ a, x = .ok a ∧ Returns (g a) := by
  constructor
  · rintro ⟨b, h⟩
    obtain ⟨a, ha, hb⟩ := bind_ok h
    exact ⟨a, ha, b, hb⟩
  · rintro ⟨a, ha, b, hb⟩
    exact ⟨b, by rw [ha]; exact hb⟩

/-- Two calls of which the second returns whatever the first gave it. -/
theorem returns_bind_iff {x : Except Raised α} {g : α → Except Raised β} {p : Prop}
    (h : ∀ a, x = .ok a → (Returns (g a) ↔ p)) : Returns (x >>= g) ↔ Returns x ∧ p := by
  rw [returns_bind]
  constructor
  · rintro ⟨a, ha, hg⟩
    exact ⟨⟨a, ha⟩, (h a ha).mp hg⟩
  · rintro ⟨⟨a, ha⟩, hp⟩
    exact ⟨a, ha, (h a ha).mpr hp⟩

theorem returns_map {x : Except Raised α} {g : α → β} : Returns (g <$> x) ↔ Returns x := by
  cases x with
  | error e =>
    show Returns (Except.error e) ↔ Returns (Except.error e)
    simp
  | ok a =>
    show Returns (Except.ok (g a)) ↔ Returns (Except.ok a)
    simp

theorem map_ok {x : Except Raised α} {g : α → β} {b : β} (h : g <$> x = .ok b) : ∃ a, x = .ok a ∧ g a = b := by
  cases x with
  | error e => cases h
  | ok a => exact ⟨a, rfl, Except.ok.inj h⟩

theorem mapM_cons {g : α → Except Raised β} {x : α} {xs : List α} :
    (x :: xs).mapM g = g x >>= fun y => xs.mapM g >>= fun ys => pure (y :: ys) := List.mapM_cons

theorem returns_mapM {g : α → Except Raised β} {xs : List α} :
    Returns (xs.mapM g) ↔ ∀ x ∈ xs, Returns (g x) := by
  induction xs with
  | nil => simp
  | cons x xs ih =>
    rw [mapM_cons, List.forall_mem_cons, ← ih]
    refine returns_bind_iff fun y _ => ?_
    rw [returns_bind_iff (p := True) fun ys _ => by simp, and_true]

/-- Each value of a list comes from a call that returned. -/
theorem of_mapM_ok {g : α → Except Raised β} {xs : List α} {ys : List β} (h : xs.mapM g = .ok ys) :
    ys.length = xs.length ∧ ∀ y ∈ ys, ∃ x ∈ xs, g x = .ok y := by
  induction xs generalizing ys with
  | nil =>
    cases h
    exact ⟨rfl, fun y hy => absurd hy List.not_mem_nil⟩
  | cons x xs ih =>
    rw [mapM_cons] at h
    obtain ⟨y, hy, h⟩ := bind_ok h
    obtain ⟨zs, hzs, h⟩ := bind_ok h
    cases h
    obtain ⟨hlen, hall⟩ := ih hzs
    refine ⟨by rw [List.length_cons, List.length_cons, hlen], ?_⟩
    intro z hz
    rcases List.mem_cons.mp hz with rfl | hz
    · exact ⟨x, List.mem_cons_self, hy⟩
    · obtain ⟨w, hw, hgw⟩ := hall z hz
      exact ⟨w, List.mem_cons_of_mem x hw, hgw⟩

end objects

-- Go slices: windows on arrays that several slices may share, with an `append`
-- that writes in place where the capacity allows it.
import Mathlib.Data.List.Basic
import Mathlib.Logic.Function.Basic
import Mathlib.Tactic.Common

namespace slices

structure Slice where
  arr : Nat
  off : Nat
  len : Nat
  cap : Nat
deriving DecidableEq, Repr

/-- The arrays allocated so far, each of a fixed length. -/
structure Heap (α : Type) where
  arrays : Nat → List α
  next : Nat

variable {α : Type}

/-- `nil`: without capacity there is no array behind a slice. -/
def Slice.nil : Slice := ⟨0, 0, 0, 0⟩

/-- `s[k:]` -/
def Slice.since (s : Slice) (k : Nat) : Slice := ⟨s.arr, s.off + k, s.len - k, s.cap - k⟩

/-- `s[:k]` -/
def Slice.upTo (s : Slice) (k : Nat) : Slice := { s with len := k }

def values (h : Heap α) (s : Slice) : List α := ((h.arrays s.arr).drop s.off).take s.len

/-- An array after `xs` was copied into it from `i` on. -/
def writeAt (l : List α) (i : Nat) (xs : List α) : List α := l.take i ++ xs ++ l.drop (i + xs.length)

/-- `append(s, xs...)`. Where the capacity does not do, a new array is made,
with room for `extra` values more. -/
def append [Inhabited α] (h : Heap α) (s : Slice) (xs : List α) (extra : Nat) : Heap α × Slice :=
  if s.len + xs.length ≤ s.cap then
    (⟨Function.update h.arrays s.arr (writeAt (h.arrays s.arr) (s.off + s.len) xs), h.next⟩,
      ⟨s.arr, s.off, s.len + xs.length, s.cap⟩)
  else
    (⟨Function.update h.arrays h.next (values h s ++ xs ++ List.replicate extra default), h.next + 1⟩,
      ⟨h.next, 0, s.len + xs.length, s.len + xs.length + extra⟩)

/-- The window of a slice lies in an array that is there. -/
def Valid (h : Heap α) (s : Slice) : Prop :=
  s.len ≤ s.cap ∧ (s.cap = 0 ∨ s.arr < h.next ∧ s.off + s.cap ≤ (h.arrays s.arr).length)

/-- No array is behind both slices. -/
def Apart (s t : Slice) : Prop := s.cap = 0 ∨ t.cap = 0 ∨ s.arr ≠ t.arr

variable {h : Heap α} {s t : Slice} {v : List α} {k e : Nat}

theorem valid_nil : Valid h .nil := ⟨Nat.le_refl 0, .inl rfl⟩

theorem values_of_len (hs : s.len = 0) : values h s = [] := by simp [values, hs]

theorem length_values (hv : Valid h s) : (values h s).length = s.len := by
  obtain ⟨hle, h0 | ⟨-, hin⟩⟩ := hv
  · rw [values_of_len (by omega)]
    simp only [List.length_nil]
    omega
  · simp only [values, List.length_take, List.length_drop]
    omega

theorem values_since : values h (s.since k) = (values h s).drop k := by
  simp only [values, Slice.since, List.drop_take, List.drop_drop]

theorem valid_since (hv : Valid h s) (hk : k ≤ s.len) : Valid h (s.since k) := by
  obtain ⟨hle, h0 | ⟨ha, hin⟩⟩ := hv
  · exact ⟨by simp only [Slice.since]; omega, .inl (by simp only [Slice.since]; omega)⟩
  · exact ⟨by simp only [Slice.since]; omega, .inr ⟨ha, by simp only [Slice.since]; omega⟩⟩

theorem values_upTo (hk : k ≤ s.len) : values h (s.upTo k) = (values h s).take k := by
  simp only [values, Slice.upTo, List.take_take, Nat.min_eq_left hk]

theorem valid_upTo (hv : Valid h s) (hk : k ≤ s.len) : Valid h (s.upTo k) :=
  ⟨Nat.le_trans hk hv.1, hv.2⟩

theorem Apart.since (ha : Apart s t) : Apart (s.since k) t := by
  rcases ha with h0 | h0 | hne
  · exact .inl (by simp only [Slice.since]; omega)
  · exact .inr (.inl h0)
  · exact .inr (.inr hne)

theorem Apart.symm (ha : Apart s t) : Apart t s := by
  rcases ha with h0 | h0 | hne
  · exact .inr (.inl h0)
  · exact .inl h0
  · exact .inr (.inr hne.symm)

theorem apart_nil : Apart .nil t := .inl rfl

@[simp] theorem length_writeAt {l : List α} {i : Nat} (hi : i + v.length ≤ l.length) :
    (writeAt l i v).length = l.length := by
  simp only [writeAt, List.length_append, List.length_take, List.length_drop]
  omega

/-- A window that ends where the copy goes, seen with the copy. -/
theorem writeAt_window {l : List α} {off len : Nat} (hi : off + len + v.length ≤ l.length) :
    ((writeAt l (off + len) v).drop off).take (len + v.length) = (l.drop off).take len ++ v := by
  have hlen : (l.take (off + len)).length = off + len := by
    rw [List.length_take]
    omega
  have hdrop : (l.take (off + len)).drop off = (l.drop off).take len := by
    rw [List.drop_take]
    congr 1
    omega
  unfold writeAt
  rw [List.append_assoc, List.drop_append_of_le_length (by omega), hdrop, ← List.append_assoc]
  refine List.take_left' ?_
  simp only [List.length_append, List.length_take, List.length_drop]
  omega

section Append

variable [Inhabited α]

theorem values_append (hv : Valid h s) :
    values (append h s v e).1 (append h s v e).2 = values h s ++ v := by
  unfold append
  split
  · rename_i hcap
    obtain ⟨hle, h0 | ⟨-, hin⟩⟩ := hv
    · have hnil : v = [] := List.eq_nil_of_length_eq_zero (by omega)
      rw [values_of_len (by simp [hnil]; omega), values_of_len (by omega), hnil]
      rfl
    · simp only [values, Function.update_self]
      exact writeAt_window (by omega)
  · have hlen := length_values hv
    simp only [values, Function.update_self, List.drop_zero] at hlen ⊢
    refine List.take_left' ?_
    rw [List.length_append, hlen]

theorem valid_append (hv : Valid h s) :
    Valid (append h s v e).1 (append h s v e).2 := by
  have hlen := length_values hv
  unfold append
  split
  · rename_i hcap
    obtain ⟨hle, h0 | ⟨ha, hin⟩⟩ := hv
    · exact ⟨hcap, .inl h0⟩
    · refine ⟨hcap, .inr ⟨ha, ?_⟩⟩
      simp only [Function.update_self]
      rw [length_writeAt (by omega)]
      exact hin
  · refine ⟨by simp only; omega, .inr ⟨Nat.lt_succ_self _, ?_⟩⟩
    simp only [Function.update_self, List.length_append, List.length_replicate, hlen]
    omega

/-- Appending to one slice does not change another that it is apart from. -/
theorem values_append_apart (ht : Valid h t) (ha : Apart s t) :
    values (append h s v e).1 t = values h t := by
  obtain ⟨hle, h0 | ⟨hlt, -⟩⟩ := ht
  · rw [values_of_len (by omega), values_of_len (by omega)]
  · unfold append
    split
    · rename_i hcap
      rcases ha with h0 | h0 | hne
      · have hnil : v = [] := List.eq_nil_of_length_eq_zero (by omega)
        simp only [hnil, writeAt, List.append_nil, List.length_nil, Nat.add_zero, List.take_append_drop,
          Function.update_eq_self]
      · rw [values_of_len (by omega), values_of_len (by omega)]
      · simp only [values, Function.update_of_ne hne.symm]
    · simp only [values, Function.update_of_ne (Nat.ne_of_lt hlt)]

theorem valid_append_apart (hs : Valid h s) (ht : Valid h t) : Valid (append h s v e).1 t := by
  obtain ⟨hle, h0 | ⟨hlt, hin⟩⟩ := ht
  · exact ⟨hle, .inl h0⟩
  · refine ⟨hle, .inr ?_⟩
    unfold append
    split
    · rename_i hcap
      refine ⟨hlt, ?_⟩
      by_cases heq : t.arr = s.arr
      · rw [heq] at hin ⊢
        simp only [Function.update_self]
        obtain ⟨hsle, hs0 | ⟨-, hsin⟩⟩ := hs
        · have hnil : v = [] := List.eq_nil_of_length_eq_zero (by omega)
          simpa only [hnil, writeAt, List.append_nil, List.length_nil, Nat.add_zero,
            List.take_append_drop] using hin
        · rw [length_writeAt (by omega)]
          exact hin
      · simp only [Function.update_of_ne heq]
        exact hin
    · simp only [Function.update_of_ne (Nat.ne_of_lt hlt)]
      exact ⟨Nat.lt_succ_of_lt hlt, hin⟩

theorem apart_append (ht : Valid h t) (ha : Apart s t) : Apart (append h s v e).2 t := by
  obtain ⟨-, h0 | ⟨hlt, -⟩⟩ := ht
  · exact .inr (.inl h0)
  · unfold append
    split
    · exact ha
    · exact .inr (.inr (Nat.ne_of_gt hlt))

/-- What `append` makes of a heap and a slice. -/
structure Appends (h : Heap α) (s : Slice) (v : List α) (r : Heap α × Slice) : Prop where
  valid : Valid r.1 r.2
  shows : values r.1 r.2 = values h s ++ v
  beside : ∀ t, Valid h t → Apart s t → Valid r.1 t ∧ Apart r.2 t ∧ values r.1 t = values h t

theorem append_spec (hv : Valid h s) (v : List α) (e : Nat) : Appends h s v (append h s v e) where
  valid := valid_append hv
  shows := values_append hv
  beside _ ht ha := ⟨valid_append_apart hv ht, apart_append ht ha, values_append_apart ht ha⟩

end Append

end slices

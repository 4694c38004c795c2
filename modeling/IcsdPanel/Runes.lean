-- The characters of a Go string: its bytes need not be UTF-8, and each byte
-- that starts no character stands for itself.
import Mathlib.Data.List.Basic
import Mathlib.Tactic.Common

namespace unicode

/-- The bytes of a text. -/
def utf8 (s : String) : List UInt8 := s.toList.flatMap String.utf8EncodeChar

/-- `utf8.DecodeRune`: the character that the bytes start with, if they start
with one. -/
def decodeRune (b : List UInt8) : Option Char := (b.take 4).toByteArray.utf8DecodeChar? 0

/-- The characters of the bytes after the first `n`. -/
def runesFrom : Nat → List UInt8 → List (Option Char)
  | _, [] => []
  | n + 1, _ :: bs => runesFrom n bs
  | 0, b :: bs =>
    match decodeRune (b :: bs) with
    | some c => some c :: runesFrom (c.utf8Size - 1) bs
    | none => none :: runesFrom 0 bs

/-- What `range` goes over in a string. -/
def runes (b : List UInt8) : List (Option Char) := runesFrom 0 b

theorem decodeRune_encode (c : Char) (rest : List UInt8) :
    decodeRune (String.utf8EncodeChar c ++ rest) = some c := by
  unfold decodeRune
  rw [List.take_append, List.take_of_length_le]
  · rw [List.toByteArray_append]
    exact ByteArray.utf8DecodeChar?_utf8EncodeChar_append
  · rw [String.length_utf8EncodeChar]
    exact c.utf8Size_le_four

theorem runesFrom_append (l rest : List UInt8) : runesFrom l.length (l ++ rest) = runesFrom 0 rest := by
  induction l with
  | nil => rfl
  | cons b l ih => exact ih

theorem runes_encode (c : Char) (rest : List UInt8) :
    runes (String.utf8EncodeChar c ++ rest) = some c :: runes rest := by
  have hdec := decodeRune_encode c rest
  have hlen : (String.utf8EncodeChar c).length = c.utf8Size := String.length_utf8EncodeChar c
  unfold runes
  cases henc : String.utf8EncodeChar c with
  | nil =>
    have := c.utf8Size_pos
    rw [henc, List.length_nil] at hlen
    omega
  | cons b l =>
    rw [henc] at hdec hlen
    rw [List.cons_append] at hdec ⊢
    have hl : c.utf8Size - 1 = l.length := by rw [← hlen, List.length_cons]; omega
    rw [runesFrom, hdec]
    simp only [hl, runesFrom_append]

theorem runes_flatMap (cs : List Char) : runes (cs.flatMap String.utf8EncodeChar) = cs.map some := by
  induction cs with
  | nil => rfl
  | cons c cs ih => rw [List.flatMap_cons, runes_encode, ih, List.map_cons]

/-- A text is read back from its bytes. -/
theorem runes_utf8 (s : String) : runes (utf8 s) = s.toList.map some := runes_flatMap s.toList

theorem length_runesFrom_le (n : Nat) (b : List UInt8) : (runesFrom n b).length ≤ b.length := by
  induction b generalizing n with
  | nil => cases n <;> exact Nat.le_refl 0
  | cons x bs ih =>
    cases n with
    | succ n => exact Nat.le_trans (ih n) (Nat.le_succ _)
    | zero =>
      unfold runesFrom
      cases decodeRune (x :: bs) with
      | none => exact Nat.succ_le_succ (ih 0)
      | some c => exact Nat.succ_le_succ (ih (c.utf8Size - 1))

theorem length_runes_le (b : List UInt8) : (runes b).length ≤ b.length := length_runesFrom_le 0 b

/-- Bytes of ASCII are one character each. -/
theorem runes_replicate {c : Char} {x : UInt8} (h : String.utf8EncodeChar c = [x]) (n : Nat) :
    runes (List.replicate n x) = List.replicate n (some c) := by
  induction n with
  | zero => rfl
  | succ n ih =>
    have := runes_encode c (List.replicate n x)
    rw [h] at this
    rw [List.replicate_succ, List.replicate_succ, ← ih]
    exact this

/-! ## Texts -/

/-- The bytes are those of a text. -/
def IsText (b : List UInt8) : Prop := b.toByteArray.IsValidUTF8

instance (b : List UInt8) : Decidable (IsText b) := inferInstanceAs (Decidable b.toByteArray.IsValidUTF8)

/-- `decode("utf-8")` -/
def decode (b : List UInt8) : Option String :=
  if h : IsText b then some (String.fromUTF8 b.toByteArray h) else none

/-- `decode("latin-1")`: each byte is a character. -/
def latin1 (b : List UInt8) : String := String.ofList (b.map fun x => Char.ofNat x.toNat)

theorem toByteArray_utf8 (s : String) : (utf8 s).toByteArray = s.toByteArray := String.utf8Encode_toList

theorem isText_utf8 (s : String) : IsText (utf8 s) := by
  unfold IsText
  rw [toByteArray_utf8]
  exact s.isValidUTF8

theorem utf8_of_decode {b : List UInt8} {s : String} (h : decode b = some s) : utf8 s = b := by
  unfold decode at h
  split at h
  · cases h
    rw [← List.toByteArray_inj, toByteArray_utf8]
    rfl
  · cases h

theorem decode_none {b : List UInt8} : decode b = none ↔ ¬ IsText b := by
  unfold decode
  split <;> simp [*]

end unicode

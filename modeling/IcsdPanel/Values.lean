-- The values of the agent's answers, and how long their JSON text is. A string
-- of Go is bytes, and `json.Marshal` replaces what is not UTF-8.
import IcsdPanel.Jsons
import IcsdPanel.Runes
import Mathlib.Algebra.Group.Action.Defs
import Mathlib.Algebra.Order.BigOperators.Group.List
import Mathlib.Algebra.Order.Ring.Nat

open unicode

namespace jsons

/-- A value that `json.Marshal` writes. A number is kept as its text. -/
inductive Datum
  | null
  | bool (b : Bool)
  | num (text : String)
  | str (s : List UInt8)
  | arr (xs : List Datum)
  | obj (fields : List (String × Datum))

def Datum.text (s : String) : Datum := .str (utf8 s)

/-- A slice that is nil until something is appended. -/
def Datum.slice (xs : List Datum) : Datum := if xs = [] then .null else .arr xs

/-! ## Text -/

/-- What Go writes for a character of a string, or for a byte that is in none. -/
def writeRune : Option Char → List Char
  | some c => escape c
  | none => '\\' :: 'u' :: hex4 0xfffd

mutual

/-- `json.Marshal` -/
def marshal : Datum → List Char
  | .null => "null".toList
  | .bool b => if b then "true".toList else "false".toList
  | .num t => t.toList
  | .str s => '"' :: ((runes s).flatMap writeRune ++ ['"'])
  | .arr xs => '[' :: (marshalItems xs ++ [']'])
  | .obj fs => '\x7b' :: (marshalFields fs ++ ['\x7d'])

def marshalItems : List Datum → List Char
  | [] => []
  | [x] => marshal x
  | x :: y :: xs => marshal x ++ ',' :: marshalItems (y :: xs)

def marshalField : String × Datum → List Char
  | (k, v) => (quote k).toList ++ ':' :: marshal v

def marshalFields : List (String × Datum) → List Char
  | [] => []
  | [x] => marshalField x
  | x :: y :: xs => marshalField x ++ ',' :: marshalFields (y :: xs)

end

/-! ## Values of text -/

mutual

/-- A value whose strings are text. -/
def Json.datum : Json → Datum
  | .null => .null
  | .bool b => .bool b
  | .num t => .num t
  | .str s => .text s
  | .arr xs => .arr (datumItems xs)
  | .obj fs => .obj (datumFields fs)

def datumItems : List Json → List Datum
  | [] => []
  | x :: xs => x.datum :: datumItems xs

def datumField : String × Json → String × Datum
  | (k, v) => (k, v.datum)

def datumFields : List (String × Json) → List (String × Datum)
  | [] => []
  | x :: xs => datumField x :: datumFields xs

end

theorem marshal_text (s : String) : marshal (.text s) = (quote s).toList := by
  unfold Datum.text marshal quote
  rw [runes_utf8, List.flatMap_map]
  simp [writeRune]

mutual

/-- On values of text both encoders agree. -/
theorem marshal_datum : ∀ j : Json, marshal j.datum = (encode j).toList
  | .null => rfl
  | .bool b => by cases b <;> rfl
  | .num t => rfl
  | .str s => marshal_text s
  | .arr xs => by
    simp only [Json.datum, marshal, encode, marshal_datumItems xs, String.toList_append]
    rfl
  | .obj fs => by
    simp only [Json.datum, marshal, encode, marshal_datumFields fs, String.toList_append]
    rfl

theorem marshal_datumItems : ∀ xs : List Json, marshalItems (datumItems xs) = (encodeItems xs).toList
  | [] => rfl
  | [x] => marshal_datum x
  | x :: y :: xs => by
    have hrest := marshal_datumItems (y :: xs)
    simp only [datumItems] at hrest ⊢
    simp only [marshalItems, encodeItems, hrest, marshal_datum x, String.toList_append,
      List.append_assoc]
    rfl

theorem marshal_datumField : ∀ f : String × Json, marshalField (datumField f) = (encodeField f).toList
  | (k, v) => by
    simp only [datumField, marshalField, encodeField, marshal_datum v, String.toList_append,
      List.append_assoc]
    rfl

theorem marshal_datumFields :
    ∀ fs : List (String × Json), marshalFields (datumFields fs) = (encodeFields fs).toList
  | [] => rfl
  | [x] => marshal_datumField x
  | x :: y :: xs => by
    have hrest := marshal_datumFields (y :: xs)
    simp only [datumFields] at hrest ⊢
    simp only [marshalFields, encodeFields, hrest, marshal_datumField x, String.toList_append,
      List.append_assoc]
    rfl

end

/-! ## Lengths -/

/-- How long the text of a string is between its quotes. -/
def weight (s : List UInt8) : Nat := ((runes s).map fun r => (writeRune r).length).sum

@[simp] theorem length_marshal_str (s : List UInt8) : (marshal (.str s)).length = weight s + 2 := by
  simp [marshal, weight, List.length_flatMap, Nat.add_assoc]

theorem length_escape_le (c : Char) : (escape c).length ≤ 6 := by
  unfold escape
  repeat' split
  all_goals simp [hex4]

theorem length_writeRune_le (r : Option Char) : (writeRune r).length ≤ 6 := by
  cases r with
  | none => exact Nat.le_refl 6
  | some c => exact length_escape_le c

/-- A byte costs at most six characters. -/
theorem weight_le (s : List UInt8) : weight s ≤ 6 * s.length := by
  have hmem : ∀ x ∈ (runes s).map fun r => (writeRune r).length, x ≤ 6 := by
    intro x hx
    obtain ⟨r, _, rfl⟩ := List.mem_map.mp hx
    exact length_writeRune_le r
  have hsum := List.sum_le_card_nsmul _ _ hmem
  rw [List.length_map, smul_eq_mul] at hsum
  have := length_runes_le s
  unfold weight
  omega

theorem weight_utf8 (s : String) : weight (utf8 s) = (s.toList.flatMap escape).length := by
  unfold weight
  rw [runes_utf8, List.map_map, List.length_flatMap]
  rfl

@[simp] theorem length_marshal_text (s : String) : (marshal (.text s)).length = (quote s).length := by
  rw [marshal_text, String.length_toList]

@[simp] theorem length_marshal_num (t : String) : (marshal (.num t)).length = t.length := by
  rw [marshal, String.length_toList]

@[simp] theorem length_marshal_bool (b : Bool) : (marshal (.bool b)).length = if b then 4 else 5 := by
  cases b <;> rfl

/-- The items of a list cost a comma each, but for one. -/
theorem length_marshalItems (xs : List Datum) :
    (marshalItems xs).length = (xs.map fun x => (marshal x).length + 1).sum - 1 := by
  induction xs with
  | nil => rfl
  | cons x xs ih =>
    cases xs with
    | nil => simp [marshalItems]
    | cons y ys =>
      rw [marshalItems, List.length_append, List.length_cons, ih]
      simp only [List.map_cons, List.sum_cons]
      omega

@[simp] theorem length_marshal_arr (xs : List Datum) :
    (marshal (.arr xs)).length = (xs.map fun x => (marshal x).length + 1).sum - 1 + 2 := by
  simp [marshal, length_marshalItems]

theorem length_marshalField (k : String) (v : Datum) :
    (marshalField (k, v)).length = (quote k).length + 1 + (marshal v).length := by
  rw [marshalField, List.length_append, List.length_cons, String.length_toList]
  omega

theorem length_marshalFields (fs : List (String × Datum)) :
    (marshalFields fs).length =
      (fs.map fun f => (quote f.1).length + (marshal f.2).length + 2).sum - 1 := by
  induction fs with
  | nil => rfl
  | cons f fs ih =>
    obtain ⟨k, v⟩ := f
    cases fs with
    | nil =>
      simp only [marshalFields, length_marshalField, List.map_cons, List.map_nil, List.sum_cons, List.sum_nil]
      omega
    | cons g gs =>
      rw [marshalFields, List.length_append, List.length_cons, ih, length_marshalField]
      simp only [List.map_cons, List.sum_cons]
      omega

@[simp] theorem length_marshal_obj (fs : List (String × Datum)) :
    (marshal (.obj fs)).length =
      (fs.map fun f => (quote f.1).length + (marshal f.2).length + 2).sum - 1 + 2 := by
  simp [marshal, length_marshalFields]

/-- A character that Go leaves as it is. -/
def plain (c : Char) : Bool :=
  32 ≤ c.toNat && c.toNat < 127 && c ∉ ['"', '\\', '<', '>', '&']

theorem escape_plain {c : Char} (h : plain c = true) : escape c = [c] := by
  unfold plain at h
  simp only [Bool.and_eq_true, decide_eq_true_eq, List.mem_cons, List.not_mem_nil, or_false, not_or] at h
  obtain ⟨⟨hlow, hhigh⟩, hquote, hback, hlt, hgt, hand⟩ := h
  have hn : c ≠ '\n' := by rintro rfl; revert hlow; decide
  have hr : c ≠ '\r' := by rintro rfl; revert hlow; decide
  have ht : c ≠ '\t' := by rintro rfl; revert hlow; decide
  unfold escape
  rw [if_neg (by simp [hquote, hback]), if_neg (by omega), if_neg (by omega), if_neg hn, if_neg hr,
    if_neg ht, if_neg (by simp only [hlt, hgt, hand, false_or]; omega)]

/-- A text of plain characters is as long as it is, and its quotes. -/
theorem length_quote {s : String} (h : s.toList.all plain = true) : (quote s).length = s.toList.length + 2 := by
  have h1 : ∀ c ∈ s.toList, escape c = [c] := fun c hc => escape_plain (List.all_eq_true.mp h c hc)
  unfold quote
  rw [List.flatMap_congr h1, List.flatMap_singleton', String.ofList_toList]
  simp only [String.length_append, String.length_toList]
  rw [Nat.add_right_comm, Nat.add_comm]
  rfl

end jsons

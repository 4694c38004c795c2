-- Python's `json.dumps` and `json.loads` on the values of `Objects`, what
-- `loads` makes of the text of a dict without nested values, and of a text that
-- is cut.
import IcsdPanel.Dicts
import IcsdPanel.Jsons
import IcsdPanel.Objects

open objects dicts

namespace pyjson

/-! ## Numbers -/

def digit (c : Char) : Bool := '0' ≤ c && c ≤ '9'

/-- A text that goes on as a number might. -/
def numeric (c : Char) : Bool := digit c || c = '-' || c = '+' || c = '.' || c = 'e' || c = 'E'

/-- A number in front without its sign, and what follows it. -/
def unsigned : List Char → Option (List Char × List Char)
  | [] => none
  | c :: s =>
    if c = '0' then some (['0'], s)
    else if digit c then some (c :: s.takeWhile digit, s.dropWhile digit)
    else none

/-- `-?(?:0|[1-9][0-9]*)` -/
def intPart (s : List Char) : Option (List Char × List Char) :=
  match s with
  | '-' :: s => (unsigned s).map fun r => ('-' :: r.1, r.2)
  | s => unsigned s

/-- `(\.[0-9]+)?` -/
def fracPart (s : List Char) : List Char × List Char :=
  match s with
  | '.' :: r => if r.takeWhile digit = [] then ([], s) else ('.' :: r.takeWhile digit, r.dropWhile digit)
  | s => ([], s)

def sign (s : List Char) : List Char × List Char :=
  match s with
  | c :: r => if c = '+' ∨ c = '-' then ([c], r) else ([], s)
  | [] => ([], [])

/-- `([eE][-+]?[0-9]+)?` -/
def expPart (s : List Char) : List Char × List Char :=
  match s with
  | c :: r =>
    if c = 'e' ∨ c = 'E' then
      if (sign r).2.takeWhile digit = [] then ([], s)
      else (c :: (sign r).1 ++ (sign r).2.takeWhile digit, (sign r).2.dropWhile digit)
    else ([], s)
  | [] => ([], [])

/-- A number, its fraction and its exponent. -/
structure NumberText where
  int : List Char
  frac : List Char
  exp : List Char

def NumberText.text (n : NumberText) : List Char := n.int ++ n.frac ++ n.exp

def scanNumber (s : List Char) : Option (NumberText × List Char) :=
  (intPart s).map fun i =>
    let fr := fracPart i.2
    let ex := expPart fr.2
    (⟨i.1, fr.1, ex.1⟩, ex.2)

/-- A number that `scanNumber` takes as a whole. -/
def NumberText.Whole (n : NumberText) : Prop := scanNumber n.text = some (n, [])

def intValue (s : List Char) : Int :=
  match s with
  | '-' :: s => -(Nat.ofDigitChars 10 s 0 : Int)
  | s => (Nat.ofDigitChars 10 s 0 : Int)

/-- The digits that `int` takes at most. -/
def maxDigits : Nat := 4300

/-- The finite floats: `repr`, which has a point or an exponent, and `float` of a
text, which may be too large. -/
structure Floats where
  F : Type
  repr : F → NumberText
  ofText : List Char → PyFloat F
  whole : ∀ x, (repr x).Whole
  pointed : ∀ x, (repr x).frac ≠ [] ∨ (repr x).exp ≠ []
  ofText_repr : ∀ x, ofText (repr x).text = .fin x

/-! ## `json.dumps` -/

/-- What `dumps` writes for a code point. -/
def escape (n : Nat) : List Char :=
  if n = 0x22 then ['\\', '"']
  else if n = 0x5C then ['\\', '\\']
  else if n = 0x0A then ['\\', 'n']
  else if n = 0x0D then ['\\', 'r']
  else if n = 0x09 then ['\\', 't']
  else if n = 0x0C then ['\\', 'f']
  else if n = 0x08 then ['\\', 'b']
  else if 0x20 ≤ n ∧ n ≤ 0x7E then [Char.ofNat n]
  else if n < 0x10000 then '\\' :: 'u' :: jsons.hex4 n
  else '\\' :: 'u' :: jsons.hex4 (0xD800 + (n - 0x10000) / 0x400) ++
    '\\' :: 'u' :: jsons.hex4 (0xDC00 + (n - 0x10000) % 0x400)

def quote (t : Text) : List Char := '"' :: t.points.flatMap escape ++ ['"']

def intText (n : Int) : List Char :=
  match n with
  | .ofNat m => Nat.toDigits 10 m
  | .negSucc m => '-' :: Nat.toDigits 10 (m + 1)

variable (fl : Floats)

def floatText : PyFloat fl.F → List Char
  | .nan => "NaN".toList
  | .inf negative => if negative then "-Infinity".toList else "Infinity".toList
  | .fin x => (fl.repr x).text

mutual

/-- `json.dumps` -/
def dumps : Value fl.F → List Char
  | .none => "null".toList
  | .bool b => if b then "true".toList else "false".toList
  | .int n => intText n
  | .float x => floatText fl x
  | .str t => quote t
  | .list [] => ['[', ']']
  | .list (x :: xs) => '[' :: dumps x ++ dumpItems xs
  | .dict [] => ['\x7b', '\x7d']
  | .dict (f :: fs) => '\x7b' :: dumpField f ++ dumpFields fs

/-- The items after the first. -/
def dumpItems : List (Value fl.F) → List Char
  | [] => [']']
  | x :: xs => ',' :: ' ' :: dumps x ++ dumpItems xs

def dumpField : Text × Value fl.F → List Char
  | (k, v) => quote k ++ ':' :: ' ' :: dumps v

/-- The fields after the first. -/
def dumpFields : List (Text × Value fl.F) → List Char
  | [] => ['\x7d']
  | f :: fs => ',' :: ' ' :: dumpField f ++ dumpFields fs

end

/-! ## `json.loads` -/

def white (c : Char) : Bool := c = ' ' || c = '\t' || c = '\n' || c = '\r'

def skip (s : List Char) : List Char := s.dropWhile white

def hexDigit (c : Char) : Option Nat :=
  if digit c then some (c.toNat - '0'.toNat)
  else if 'a' ≤ c ∧ c ≤ 'f' then some (c.toNat - 'a'.toNat + 10)
  else if 'A' ≤ c ∧ c ≤ 'F' then some (c.toNat - 'A'.toNat + 10)
  else none

/-- `_decode_uXXXX` -/
def hex (s : List Char) : Option Nat :=
  match s with
  | a :: b :: c :: d :: _ => do
    return (← hexDigit a) * 4096 + (← hexDigit b) * 256 + (← hexDigit c) * 16 + (← hexDigit d)
  | _ => none

/-- The character after a backslash. -/
def unescape (c : Char) : Option Nat :=
  if c = '"' then some 0x22
  else if c = '\\' then some 0x5C
  else if c = '/' then some 0x2F
  else if c = 'b' then some 0x08
  else if c = 'f' then some 0x0C
  else if c = 'n' then some 0x0A
  else if c = 'r' then some 0x0D
  else if c = 't' then some 0x09
  else none

/-- The next code unit of a string, which is no quote. -/
def unit (s : List Char) : Option (Nat × List Char) :=
  match s with
  | [] => none
  | c :: s =>
    if c = '\\' then
      match s with
      | [] => none
      | 'u' :: s => (hex s).map fun n => (n, s.drop 4)
      | e :: s => (unescape e).map fun n => (n, s)
    else if c.toNat < 0x20 then none
    else some (c.toNat, s)

/-- The code units up to the quote that ends the string. -/
def scanUnits : Nat → List Char → Option (List Nat × List Char)
  | 0, _ => none
  | _, [] => none
  | k + 1, c :: s =>
    if c = '"' then some ([], s)
    else match unit (c :: s) with
      | none => none
      | some (n, r) => (scanUnits k r).map fun u => (n :: u.1, u.2)

/-- A high surrogate and a low one right after it are one character. No raw
character is a surrogate, so both were escaped. -/
def join : List Nat → List Nat
  | [] => []
  | [n] => [n]
  | h :: l :: s =>
    if high h && low l then (0x10000 + (h - 0xD800) * 0x400 + (l - 0xDC00)) :: join s
    else h :: join (l :: s)

/-- A string of code points. -/
def textOf (units : List Nat) : Option Text :=
  if h : (∀ n ∈ join units, n < 0x110000) ∧ joined (join units) = true then some ⟨join units, h.1, h.2⟩ else none

/-- `scanstring`, behind the quote. -/
def scanText (s : List Char) : Option (Text × List Char) := do
  let (units, r) ← scanUnits (s.length + 1) s
  return (← textOf units, r)

/-- `dict(pairs)` -/
def dictOf (pairs : List (Text × Value fl.F)) : List (Text × Value fl.F) :=
  (pairs.foldl (fun (d : Dict Text (Value fl.F)) f => d.set f.1 f.2) Dict.empty).entries

/-- A number as `loads` takes it. -/
def number (s : List Char) : Option (Value fl.F × List Char) :=
  (scanNumber s).bind fun n =>
    if n.1.frac = [] ∧ n.1.exp = [] then
      if maxDigits < (n.1.int.filter digit).length then none else some (.int (intValue n.1.int), n.2)
    else some (.float (fl.ofText n.1.text), n.2)

/-- A word that stands for a value. -/
def literals : List (List Char × Value fl.F) :=
  [("null".toList, .none), ("true".toList, .bool true), ("false".toList, .bool false),
    ("NaN".toList, .float .nan), ("Infinity".toList, .float (.inf false)), ("-Infinity".toList, .float (.inf true))]

def literal (s : List Char) : Option (Value fl.F × List Char) :=
  ((literals fl).find? fun l => l.1.isPrefixOf s).map fun l => (l.2, s.drop l.1.length)

mutual

/-- `scan_once`. The fuel is more than the length of the text. -/
def value : Nat → List Char → Option (Value fl.F × List Char)
  | 0, _ => none
  | _, [] => none
  | k + 1, c :: s =>
    if c = '"' then (scanText s).map fun t => (.str t.1, t.2)
    else if c = '{' then
      match skip s with
      | '}' :: r => some (.dict [], r)
      | '"' :: r => (members k r).map fun m => (.dict (dictOf fl m.1), m.2)
      | _ => none
    else if c = '[' then
      match skip s with
      | ']' :: r => some (.list [], r)
      | r => (items k r).map fun m => (.list m.1, m.2)
    else (number fl (c :: s)).or (literal fl (c :: s))

/-- The members of an object, behind the quote of the first key. -/
def members : Nat → List Char → Option (List (Text × Value fl.F) × List Char)
  | 0, _ => none
  | k + 1, s => do
    let (key, r) ← scanText s
    match skip r with
    | ':' :: r =>
      let (v, r) ← value k (skip r)
      match skip r with
      | '}' :: r => some ([(key, v)], r)
      | ',' :: r =>
        match skip r with
        | '"' :: r => (members k r).map fun m => ((key, v) :: m.1, m.2)
        | _ => none
      | _ => none
    | _ => none

/-- The items of an array. -/
def items : Nat → List Char → Option (List (Value fl.F) × List Char)
  | 0, _ => none
  | k + 1, s => do
    let (v, r) ← value k s
    match skip r with
    | ']' :: r => some ([v], r)
    | ',' :: r => (items k (skip r)).map fun m => (v :: m.1, m.2)
    | _ => none

end

/-- `json.loads`. `none` is an error. -/
def loads (s : List Char) : Option (Value fl.F) :=
  if s.head? = some '\uFEFF' then none
  else match value fl (s.length + 1) (skip s) with
    | some (v, r) => if skip r = [] then some v else none
    | none => none

/-! ## Numbers and what follows them -/

variable {s r : List Char}

/-- What follows does not go on as a number. -/
def Ends (r : List Char) : Prop := ∀ c ∈ r.head?, numeric c = false

theorem digit_numeric {c : Char} (h : digit c = true) : numeric c = true := by
  simp [numeric, h]

theorem not_digit {c : Char} (h : numeric c = false) : digit c = false := by
  by_contra hc
  rw [digit_numeric ((Bool.not_eq_false _).mp hc)] at h
  cases h

theorem takeWhile_ends (h : Ends r) : (s ++ r).takeWhile digit = s.takeWhile digit ∧
    (s ++ r).dropWhile digit = s.dropWhile digit ++ r := by
  induction s with
  | nil =>
    cases r with
    | nil => exact ⟨rfl, rfl⟩
    | cons c r =>
      have hc : ¬ digit c = true := by simp [not_digit (h c rfl)]
      rw [List.nil_append, List.takeWhile_cons_of_neg hc, List.dropWhile_cons_of_neg hc]
      exact ⟨rfl, rfl⟩
  | cons c s ih =>
    by_cases hc : digit c = true
    · rw [List.cons_append, List.takeWhile_cons_of_pos hc, List.takeWhile_cons_of_pos hc,
        List.dropWhile_cons_of_pos hc, List.dropWhile_cons_of_pos hc, ih.1, ih.2]
      exact ⟨rfl, rfl⟩
    · rw [List.cons_append, List.takeWhile_cons_of_neg hc, List.takeWhile_cons_of_neg hc,
        List.dropWhile_cons_of_neg hc, List.dropWhile_cons_of_neg hc]
      exact ⟨rfl, rfl⟩

theorem unsigned_ends {i t : List Char} (h : unsigned s = some (i, t)) (hr : Ends r) :
    unsigned (s ++ r) = some (i, t ++ r) := by
  cases s with
  | nil => cases h
  | cons c s =>
    unfold unsigned at h ⊢
    rw [List.cons_append]
    dsimp only at h ⊢
    by_cases h0 : c = '0'
    · rw [if_pos h0] at h ⊢
      cases h
      rfl
    · rw [if_neg h0] at h ⊢
      by_cases hd : digit c = true
      · rw [if_pos hd] at h ⊢
        cases h
        rw [(takeWhile_ends hr).1, (takeWhile_ends hr).2]
      · rw [if_neg hd] at h
        cases h

theorem intPart_ends {i t : List Char} (h : intPart s = some (i, t)) (hr : Ends r) :
    intPart (s ++ r) = some (i, t ++ r) := by
  cases s with
  | nil => cases h
  | cons c s =>
    by_cases hc : c = '-'
    · subst hc
      obtain ⟨u, hu, heq⟩ := Option.map_eq_some_iff.mp h
      cases heq
      show (unsigned (s ++ r)).map _ = _
      rw [unsigned_ends hu hr]
      rfl
    · have hsame : ∀ s, intPart (c :: s) = unsigned (c :: s) := by
        intro s
        unfold intPart
        split
        next heq => exact absurd (List.cons.inj heq).1 hc
        · rfl
      rw [hsame] at h
      rw [List.cons_append, hsame]
      exact unsigned_ends h hr

theorem fracPart_ends (hr : Ends r) : fracPart (s ++ r) = ((fracPart s).1, (fracPart s).2 ++ r) := by
  have hnone : ∀ t : List Char, (∀ u, t ≠ '.' :: u) → fracPart t = ([], t) := by
    intro t ht
    unfold fracPart
    split
    next u => exact absurd rfl (ht u)
    · rfl
  by_cases hs : ∃ u, s = '.' :: u
  · obtain ⟨u, rfl⟩ := hs
    have hpoint : ∀ v : List Char, fracPart ('.' :: v) =
        if v.takeWhile digit = [] then ([], '.' :: v) else ('.' :: v.takeWhile digit, v.dropWhile digit) :=
      fun _ => rfl
    rw [List.cons_append, hpoint, hpoint, (takeWhile_ends hr).1, (takeWhile_ends hr).2]
    split <;> rfl
  · have hother : ∀ u, s ++ r ≠ '.' :: u := by
      intro u hu
      cases s with
      | nil =>
        rw [List.nil_append] at hu
        exact absurd (hr '.' (by rw [hu]; rfl)) (by decide)
      | cons c s => exact hs ⟨s, by rw [(List.cons.inj hu).1]⟩
    rw [hnone _ hother, hnone _ fun u hu => hs ⟨u, hu⟩]

theorem sign_ends (hr : Ends r) : sign (s ++ r) = ((sign s).1, (sign s).2 ++ r) := by
  cases s with
  | nil =>
    cases r with
    | nil => rfl
    | cons c r =>
      have hc := hr c rfl
      have hno : ¬ (c = '+' ∨ c = '-') := by
        rintro (rfl | rfl) <;> exact absurd hc (by decide)
      show (if c = '+' ∨ c = '-' then ([c], r) else ([], c :: r)) = _
      rw [if_neg hno]
      rfl
  | cons c s =>
    show (if c = '+' ∨ c = '-' then ([c], s ++ r) else ([], c :: s ++ r)) = _
    unfold sign
    dsimp only
    split <;> rfl

theorem expPart_ends (hr : Ends r) : expPart (s ++ r) = ((expPart s).1, (expPart s).2 ++ r) := by
  cases s with
  | nil =>
    cases r with
    | nil => rfl
    | cons c r =>
      have hc := hr c rfl
      have hno : ¬ (c = 'e' ∨ c = 'E') := by
        rintro (rfl | rfl) <;> exact absurd hc (by decide)
      show (if c = 'e' ∨ c = 'E' then _ else ([], c :: r)) = _
      rw [if_neg hno]
      rfl
  | cons c s =>
    unfold expPart
    rw [List.cons_append]
    dsimp only
    rw [sign_ends hr]
    dsimp only
    rw [(takeWhile_ends hr).1, (takeWhile_ends hr).2]
    split
    · split <;> rfl
    · rfl

/-- A number is the same whatever follows it. -/
theorem scanNumber_ends {n : NumberText} {t : List Char} (h : scanNumber s = some (n, t)) (hr : Ends r) :
    scanNumber (s ++ r) = some (n, t ++ r) := by
  obtain ⟨i, hi, heq⟩ := Option.map_eq_some_iff.mp h
  cases heq
  unfold scanNumber
  rw [intPart_ends hi hr, Option.map_some]
  dsimp only
  rw [fracPart_ends hr]
  dsimp only
  rw [expPart_ends hr]

theorem takeWhile_numeric (s : List Char) : ∀ c ∈ s.takeWhile digit, numeric c = true :=
  fun c hc => digit_numeric (List.all_eq_true.mp List.all_takeWhile c hc)

theorem unsigned_text {i t : List Char} (h : unsigned s = some (i, t)) :
    s = i ++ t ∧ ∀ c ∈ i, numeric c = true := by
  cases s with
  | nil => cases h
  | cons c s =>
    unfold unsigned at h
    dsimp only at h
    by_cases h0 : c = '0'
    · rw [if_pos h0] at h
      cases h
      exact ⟨by rw [h0]; rfl, by rw [List.forall_mem_singleton]; decide⟩
    · rw [if_neg h0] at h
      by_cases hd : digit c = true
      · rw [if_pos hd] at h
        cases h
        exact ⟨by rw [List.cons_append, List.takeWhile_append_dropWhile],
          List.forall_mem_cons.mpr ⟨digit_numeric hd, takeWhile_numeric s⟩⟩
      · rw [if_neg hd] at h
        cases h

theorem intPart_text {i t : List Char} (h : intPart s = some (i, t)) : s = i ++ t ∧ ∀ c ∈ i, numeric c = true := by
  unfold intPart at h
  split at h
  · obtain ⟨u, hu, heq⟩ := Option.map_eq_some_iff.mp h
    cases heq
    obtain ⟨hs, hall⟩ := unsigned_text hu
    exact ⟨by rw [hs, List.cons_append], List.forall_mem_cons.mpr ⟨by decide, hall⟩⟩
  · exact unsigned_text h

theorem fracPart_text (s : List Char) :
    s = (fracPart s).1 ++ (fracPart s).2 ∧ ∀ c ∈ (fracPart s).1, numeric c = true := by
  unfold fracPart
  split
  · split
    · exact ⟨rfl, by simp⟩
    · exact ⟨by rw [List.cons_append, List.takeWhile_append_dropWhile],
        List.forall_mem_cons.mpr ⟨by decide, takeWhile_numeric _⟩⟩
  · exact ⟨rfl, by simp⟩

theorem sign_text (s : List Char) : s = (sign s).1 ++ (sign s).2 ∧ ∀ c ∈ (sign s).1, numeric c = true := by
  unfold sign
  split
  next c r =>
    split
    next hc =>
      refine ⟨rfl, fun d hd => ?_⟩
      rw [List.mem_singleton.mp hd]
      rcases hc with rfl | rfl <;> decide
    · exact ⟨rfl, by simp⟩
  · exact ⟨rfl, by simp⟩

theorem expPart_text (s : List Char) :
    s = (expPart s).1 ++ (expPart s).2 ∧ ∀ c ∈ (expPart s).1, numeric c = true := by
  unfold expPart
  split
  next c r =>
    split
    next hc =>
      split
      · exact ⟨rfl, by simp⟩
      · obtain ⟨hr, hsign⟩ := sign_text r
        refine ⟨?_, ?_⟩
        · rw [List.append_assoc, List.takeWhile_append_dropWhile, List.cons_append, ← hr]
        · refine List.forall_mem_append.mpr ⟨List.forall_mem_cons.mpr ⟨?_, hsign⟩, takeWhile_numeric _⟩
          rcases hc with rfl | rfl <;> decide
    · exact ⟨rfl, by simp⟩
  · exact ⟨rfl, by simp⟩

/-- What `scanNumber` took. -/
theorem scanNumber_text {n : NumberText} {t : List Char} (h : scanNumber s = some (n, t)) :
    s = n.text ++ t ∧ ∀ c ∈ n.text, numeric c = true := by
  obtain ⟨i, hi, heq⟩ := Option.map_eq_some_iff.mp h
  cases heq
  obtain ⟨hs, hint⟩ := intPart_text hi
  obtain ⟨hfrac, hfracs⟩ := fracPart_text i.2
  obtain ⟨hexp, hexps⟩ := expPart_text (fracPart i.2).2
  unfold NumberText.text
  dsimp only
  refine ⟨?_, List.forall_mem_append.mpr ⟨List.forall_mem_append.mpr ⟨hint, hfracs⟩, hexps⟩⟩
  rw [List.append_assoc, List.append_assoc, ← hexp, ← hfrac, ← hs]

/-- What a number leaves of the start of a number does not end it. -/
theorem number_stuck {v : Value fl.F} {t : List Char} (h : number fl s = some (v, t))
    (hs : ∀ c ∈ s, numeric c = true) : ∀ c ∈ t, numeric c = true := by
  obtain ⟨⟨n, u⟩, hn, h⟩ := Option.bind_eq_some_iff.mp h
  have hsuffix : t = u := by
    dsimp only at h
    split at h
    · split at h
      · cases h
      · cases h
        rfl
    · cases h
      rfl
  intro c hc
  refine hs c ?_
  rw [(scanNumber_text hn).1, ← hsuffix]
  exact List.mem_append_right _ hc

theorem toDigits_digit (m : Nat) : ∀ c ∈ Nat.toDigits 10 m, digit c = true := by
  intro c hc
  have hdigit := Nat.isDigit_of_mem_toDigits (by decide) (by decide) hc
  simp only [Char.isDigit, Bool.and_eq_true, decide_eq_true_eq] at hdigit
  simp only [digit, Bool.and_eq_true, decide_eq_true_eq]
  exact hdigit

/-- A positive number does not start with a zero. -/
theorem toDigits_head (m : Nat) : 0 < m → ∃ c ds, Nat.toDigits 10 m = c :: ds ∧ c ≠ '0' := by
  induction m using Nat.strongRecOn with
  | _ m ih =>
    intro hm
    by_cases hlt : m < 10
    · refine ⟨m.digitChar, [], Nat.toDigits_of_lt_base hlt, ?_⟩
      have hall : ∀ m < 10, 0 < m → Nat.digitChar m ≠ '0' := by decide
      exact hall m hlt hm
    · obtain ⟨c, ds, hds, hc⟩ := ih (m / 10) (by omega) (by omega)
      refine ⟨c, ds ++ [(m % 10).digitChar], ?_, hc⟩
      rw [Nat.toDigits_of_base_le (by decide) (by omega), hds, List.cons_append]

theorem unsigned_toDigits (m : Nat) : unsigned (Nat.toDigits 10 m) = some (Nat.toDigits 10 m, []) := by
  by_cases hm : m = 0
  · rw [hm]
    rfl
  · obtain ⟨c, ds, hds, hc⟩ := toDigits_head m (Nat.pos_of_ne_zero hm)
    have hall := toDigits_digit m
    rw [hds] at hall ⊢
    rw [List.forall_mem_cons] at hall
    unfold unsigned
    dsimp only
    have hdrop : (ds ++ []).dropWhile digit = [] := List.dropWhile_append_of_pos hall.2
    have htake : (ds ++ []).takeWhile digit = ds ++ [] := List.takeWhile_append_of_pos hall.2
    rw [List.append_nil] at hdrop htake
    rw [if_neg hc, if_pos hall.1, htake, hdrop]

theorem intPart_digits {c : Char} {ds : List Char} (hc : digit c = true) :
    intPart (c :: ds) = unsigned (c :: ds) ∧ intValue (c :: ds) = Nat.ofDigitChars 10 (c :: ds) 0 := by
  have hminus : c ≠ '-' := by
    rintro rfl
    exact absurd hc (by decide)
  constructor
  · unfold intPart
    split
    next heq => exact absurd (List.cons.inj heq).1 hminus
    · rfl
  · unfold intValue
    split
    next heq => exact absurd (List.cons.inj heq).1 hminus
    · rfl

/-- The text of an integer is one number, and stands for it. -/
theorem intText_whole (n : Int) : NumberText.Whole ⟨intText n, [], []⟩ ∧ intValue (intText n) = n := by
  have hwhole : ∀ i, intPart i = some (i, []) → NumberText.Whole ⟨i, [], []⟩ := by
    intro i hi
    unfold NumberText.Whole NumberText.text scanNumber
    rw [List.append_nil, List.append_nil, hi]
    rfl
  cases n with
  | ofNat m =>
    obtain ⟨c, ds, hds⟩ := List.exists_cons_of_ne_nil (Nat.toDigits_ne_nil (n := m) (b := 10))
    have hc : digit c = true := toDigits_digit m c (hds ▸ List.mem_cons_self)
    obtain ⟨hpart, hvalue⟩ := @intPart_digits c ds hc
    rw [← hds] at hpart hvalue
    refine ⟨hwhole _ (hpart.trans (unsigned_toDigits m)), ?_⟩
    exact hvalue.trans (by rw [Nat.ofDigitChars_ten_toDigits]; rfl)
  | negSucc m =>
    refine ⟨hwhole _ ?_, ?_⟩
    · show (unsigned (Nat.toDigits 10 (m + 1))).map _ = _
      rw [unsigned_toDigits]
      rfl
    · show -((Nat.ofDigitChars 10 (Nat.toDigits 10 (m + 1)) 0 : Nat) : Int) = Int.negSucc m
      rw [Nat.ofDigitChars_ten_toDigits]
      rfl

/-! ## Strings -/

/-- The code units of a code point. -/
def units (n : Nat) : List Nat :=
  if n < 0x10000 then [n] else [0xD800 + (n - 0x10000) / 0x400, 0xDC00 + (n - 0x10000) % 0x400]

theorem hexDigit_digitChar : ∀ d < 16, hexDigit (Nat.digitChar d) = some d := by decide

theorem hex_hex4 {n : Nat} (h : n < 0x10000) (r : List Char) : hex (jsons.hex4 n ++ r) = some n := by
  show (do return (← hexDigit _) * 4096 + (← hexDigit _) * 256 + (← hexDigit _) * 16 + (← hexDigit _)) = some n
  rw [hexDigit_digitChar _ (Nat.mod_lt _ (by decide)), hexDigit_digitChar _ (Nat.mod_lt _ (by decide)),
    hexDigit_digitChar _ (Nat.mod_lt _ (by decide)), hexDigit_digitChar _ (Nat.mod_lt _ (by decide))]
  refine congrArg some ?_
  omega

/-- The forms of an escaped code unit: two characters, six, or the character
itself. -/
theorem escape_cases {n : Nat} (h : n < 0x10000) :
    (∃ e, escape n = ['\\', e] ∧ e ≠ 'u' ∧ unescape e = some n) ∨
    escape n = '\\' :: 'u' :: jsons.hex4 n ∨
    ∃ c, escape n = [c] ∧ c ≠ '"' ∧ c ≠ '\\' ∧ c.toNat = n ∧ 0x20 ≤ n := by
  unfold escape
  by_cases h1 : n = 0x22
  · exact .inl ⟨'"', if_pos h1, by decide, by rw [h1]; rfl⟩
  rw [if_neg h1]
  by_cases h2 : n = 0x5C
  · exact .inl ⟨'\\', if_pos h2, by decide, by rw [h2]; rfl⟩
  rw [if_neg h2]
  by_cases h3 : n = 0x0A
  · exact .inl ⟨'n', if_pos h3, by decide, by rw [h3]; rfl⟩
  rw [if_neg h3]
  by_cases h4 : n = 0x0D
  · exact .inl ⟨'r', if_pos h4, by decide, by rw [h4]; rfl⟩
  rw [if_neg h4]
  by_cases h5 : n = 0x09
  · exact .inl ⟨'t', if_pos h5, by decide, by rw [h5]; rfl⟩
  rw [if_neg h5]
  by_cases h6 : n = 0x0C
  · exact .inl ⟨'f', if_pos h6, by decide, by rw [h6]; rfl⟩
  rw [if_neg h6]
  by_cases h7 : n = 0x08
  · exact .inl ⟨'b', if_pos h7, by decide, by rw [h7]; rfl⟩
  rw [if_neg h7]
  by_cases h8 : 0x20 ≤ n ∧ n ≤ 0x7E
  · have hchar : (Char.ofNat n).toNat = n := by
      rw [Char.ofNat, dif_pos (.inl (by omega))]
      rfl
    refine .inr (.inr ⟨Char.ofNat n, if_pos h8, ?_, ?_, hchar, h8.1⟩)
    · intro hc
      rw [hc] at hchar
      exact h1 hchar.symm
    · intro hc
      rw [hc] at hchar
      exact h2 hchar.symm
  · rw [if_neg h8, if_pos h]
    exact .inr (.inl rfl)

/-- The code units of the text of a code point. -/
theorem escape_units (n : Nat) (h : n < 0x110000) : escape n = (units n).flatMap escape := by
  unfold units
  by_cases hn : n < 0x10000
  · rw [if_pos hn, List.flatMap_singleton]
  · have hlong : ∀ m, 0xD800 ≤ m → m < 0x10000 → escape m = '\\' :: 'u' :: jsons.hex4 m := by
      intro m hm hlt
      unfold escape
      repeat rw [if_neg (by omega)]
      rw [if_pos hlt]
    have hsplit : escape n = '\\' :: 'u' :: jsons.hex4 (0xD800 + (n - 0x10000) / 0x400) ++
        '\\' :: 'u' :: jsons.hex4 (0xDC00 + (n - 0x10000) % 0x400) := by
      unfold escape
      repeat rw [if_neg (by omega)]
    rw [hsplit, if_neg hn, List.flatMap_cons, List.flatMap_singleton, hlong _ (by omega) (by omega),
      hlong _ (by omega) (by omega)]

theorem escape_head {n : Nat} (h : n < 0x10000) : ∃ c s, escape n = c :: s ∧ c ≠ '"' := by
  rcases escape_cases h with ⟨e, he, -⟩ | hu | ⟨c, hc, hquote, -⟩
  · exact ⟨'\\', [e], he, by decide⟩
  · exact ⟨'\\', _, hu, by decide⟩
  · exact ⟨c, [], hc, hquote⟩

theorem unit_u (s : List Char) : unit ('\\' :: 'u' :: s) = (hex s).map fun n => (n, s.drop 4) := rfl

theorem unit_other {e : Char} (he : e ≠ 'u') (s : List Char) :
    unit ('\\' :: e :: s) = (unescape e).map fun n => (n, s) := by
  unfold unit
  dsimp only
  rw [if_pos rfl]
  split
  next heq => cases heq
  next heq => exact absurd (List.cons.inj heq).1 he
  next heq =>
    cases heq
    rfl

theorem unit_escape {n : Nat} (h : n < 0x10000) (r : List Char) : unit (escape n ++ r) = some (n, r) := by
  rcases escape_cases h with ⟨e, he, hne, hn⟩ | hu | ⟨c, hc, -, hslash, hn, hle⟩
  · rw [he]
    show unit ('\\' :: e :: r) = _
    rw [unit_other hne, hn]
    rfl
  · rw [hu]
    show unit ('\\' :: 'u' :: (jsons.hex4 n ++ r)) = _
    rw [unit_u, hex_hex4 h]
    rfl
  · rw [hc]
    show unit (c :: r) = _
    unfold unit
    dsimp only
    rw [if_neg hslash, if_neg (by omega), hn]

theorem hex_short {s : List Char} (h : s.length < 4) : hex s = none := by
  unfold hex
  split
  · simp only [List.length_cons] at h
    omega
  · rfl

/-- The start of an escaped code unit is none. -/
theorem unit_cut {n : Nat} (h : n < 0x10000) {p q : List Char} (hpq : p ++ q = escape n) (hq : q ≠ []) :
    unit p = none := by
  cases p with
  | nil => rfl
  | cons c p =>
    rcases escape_cases h with ⟨e, he, -, -⟩ | hu | ⟨d, hd, -⟩
    · rw [he, List.cons_append, List.cons.injEq] at hpq
      have hp : p = [] := by
        have hlen := congrArg List.length hpq.2
        rw [List.length_append, List.length_singleton] at hlen
        have := List.length_pos_of_ne_nil hq
        exact List.eq_nil_of_length_eq_zero (by omega)
      rw [hpq.1, hp]
      rfl
    · rw [hu, List.cons_append, List.cons.injEq] at hpq
      obtain ⟨rfl, hpq⟩ := hpq
      cases p with
      | nil => rfl
      | cons e p =>
        rw [List.cons_append, List.cons.injEq] at hpq
        obtain ⟨rfl, hpq⟩ := hpq
        have hlen := congrArg List.length hpq
        rw [List.length_append] at hlen
        have hfour : (jsons.hex4 n).length = 4 := rfl
        have := List.length_pos_of_ne_nil hq
        rw [unit_u, hex_short (by omega)]
        rfl
    · rw [hd, List.cons_append, List.cons.injEq] at hpq
      exact absurd (List.append_eq_nil_iff.mp hpq.2).2 hq

theorem scanUnits_step {k n : Nat} {c : Char} {s r : List Char} (hc : c ≠ '"') (h : unit (c :: s) = some (n, r)) :
    scanUnits (k + 1) (c :: s) = (scanUnits k r).map fun u => (n :: u.1, u.2) := by
  rw [scanUnits, if_neg hc, h]

theorem scanUnits_none {k : Nat} {c : Char} {s : List Char} (hc : c ≠ '"') (h : unit (c :: s) = none) :
    scanUnits k (c :: s) = none := by
  cases k with
  | zero => rfl
  | succ k => rw [scanUnits, if_neg hc, h]

/-- Escaped code units and a quote are read as these units. -/
theorem scanUnits_escape {us : List Nat} (h : ∀ n ∈ us, n < 0x10000) (r : List Char) {k : Nat}
    (hk : us.length < k) : scanUnits k (us.flatMap escape ++ '"' :: r) = some (us, r) := by
  induction us generalizing k with
  | nil =>
    obtain ⟨k, rfl⟩ := Nat.exists_eq_succ_of_ne_zero (Nat.ne_of_gt hk)
    rfl
  | cons n us ih =>
    have hn := h n List.mem_cons_self
    rw [List.length_cons] at hk
    obtain ⟨k, rfl⟩ := Nat.exists_eq_succ_of_ne_zero (n := k) (by omega)
    obtain ⟨c, s, hcs, hc⟩ := escape_head hn
    have hunit := unit_escape hn (us.flatMap escape ++ '"' :: r)
    rw [hcs, List.cons_append] at hunit
    rw [List.flatMap_cons, List.append_assoc, hcs, List.cons_append, scanUnits_step hc hunit,
      ih (fun m hm => h m (List.mem_cons_of_mem n hm)) (by omega)]
    rfl

/-- Without the quote nothing is read, wherever the units are cut. -/
theorem scanUnits_cut {us : List Nat} (h : ∀ n ∈ us, n < 0x10000) {p q : List Char}
    (hpq : p ++ q = us.flatMap escape) (k : Nat) : scanUnits k p = none := by
  induction us generalizing p k with
  | nil =>
    rw [(List.append_eq_nil_iff.mp hpq).1]
    cases k <;> rfl
  | cons n us ih =>
    have hn := h n List.mem_cons_self
    obtain ⟨c, s, hcs, hc⟩ := escape_head hn
    rw [List.flatMap_cons] at hpq
    rcases List.append_eq_append_iff.mp hpq with ⟨q', hescape, -⟩ | ⟨p', hp, hrest⟩
    · cases p with
      | nil => cases k <;> rfl
      | cons d p =>
        have hd : d ≠ '"' := by
          rw [hcs, List.cons_append] at hescape
          rwa [← (List.cons.inj hescape).1]
        by_cases hq' : q' = []
        · rw [hq', List.append_nil] at hescape
          have hunit := unit_escape hn []
          rw [List.append_nil, hescape] at hunit
          cases k with
          | zero => rfl
          | succ k =>
            rw [scanUnits_step hd hunit]
            cases k <;> rfl
        · exact scanUnits_none hd (unit_cut hn hescape.symm hq')
    · have hunit := unit_escape hn p'
      rw [← hp, hp, hcs, List.cons_append] at hunit
      cases k with
      | zero => rfl
      | succ k =>
        rw [hp, hcs, List.cons_append, scanUnits_step hc hunit,
          ih (fun m hm => h m (List.mem_cons_of_mem n hm)) hrest.symm]
        rfl

theorem units_small {n : Nat} (h : n < 0x110000) : ∀ u ∈ units n, u < 0x10000 := by
  unfold units
  split
  next hn => simpa using hn
  · simp only [List.mem_cons, List.not_mem_nil, or_false, forall_eq_or_imp, forall_eq]
    omega

theorem join_cons {n : Nat} {us : List Nat} (h : ∀ u ∈ us.head?, ¬ (high n = true ∧ low u = true)) :
    join (n :: us) = n :: join us := by
  cases us with
  | nil => rfl
  | cons u us =>
    have hno : ¬ ((high n && low u) = true) := by
      rw [Bool.and_eq_true]
      exact h u rfl
    rw [join, if_neg hno]

/-- The code units of a string are joined to its code points. -/
theorem join_units {ps : List Nat} (hbelow : ∀ n ∈ ps, n < 0x110000) (hjoined : joined ps = true) :
    join (ps.flatMap units) = ps := by
  induction ps with
  | nil => rfl
  | cons n ps ih =>
    have hrest : joined ps = true := by
      cases ps with
      | nil => rfl
      | cons m ps => exact (Bool.and_eq_true_iff.mp hjoined).2
    have hjoin := ih (fun m hm => hbelow m (List.mem_cons_of_mem n hm)) hrest
    rw [List.flatMap_cons]
    by_cases hn : n < 0x10000
    · have hunits : units n = [n] := if_pos hn
      rw [hunits, List.singleton_append, join_cons, hjoin]
      intro u hu hpair
      cases ps with
      | nil => cases hu
      | cons m ps =>
        rw [joined, Bool.and_eq_true, Bool.not_eq_true', Bool.and_eq_false_iff] at hjoined
        rw [List.flatMap_cons] at hu
        unfold units at hu
        by_cases hm : m < 0x10000
        · rw [if_pos hm] at hu
          cases hu
          rcases hjoined.1 with hfalse | hfalse
          · rw [hpair.1] at hfalse
            cases hfalse
          · rw [hpair.2] at hfalse
            cases hfalse
        · rw [if_neg hm] at hu
          cases hu
          have hlow := hpair.2
          have hlt := hbelow m (List.mem_cons_of_mem n List.mem_cons_self)
          simp only [low, Bool.and_eq_true, decide_eq_true_eq] at hlow
          omega
    · have hunits : units n = [0xD800 + (n - 0x10000) / 0x400, 0xDC00 + (n - 0x10000) % 0x400] := if_neg hn
      have hlt := hbelow n List.mem_cons_self
      have hpair : (high (0xD800 + (n - 0x10000) / 0x400) && low (0xDC00 + (n - 0x10000) % 0x400)) = true := by
        simp only [high, low, Bool.and_eq_true, decide_eq_true_eq]
        omega
      rw [hunits, List.cons_append, List.singleton_append, join, if_pos hpair, hjoin]
      refine congrArg (· :: ps) ?_
      omega

theorem points_escape (t : Text) : t.points.flatMap escape = (t.points.flatMap units).flatMap escape := by
  rw [List.flatMap_assoc]
  exact List.flatMap_congr fun n hn => escape_units n (t.below n hn)

theorem points_small (t : Text) : ∀ u ∈ t.points.flatMap units, u < 0x10000 := by
  intro u hu
  obtain ⟨n, hn, hu⟩ := List.mem_flatMap.mp hu
  exact units_small (t.below n hn) u hu

theorem length_flatMap_escape {us : List Nat} (h : ∀ n ∈ us, n < 0x10000) :
    us.length ≤ (us.flatMap escape).length := by
  induction us with
  | nil => exact Nat.le_refl 0
  | cons n us ih =>
    obtain ⟨c, s, hcs, -⟩ := escape_head (h n List.mem_cons_self)
    have := ih fun m hm => h m (List.mem_cons_of_mem n hm)
    rw [List.flatMap_cons, List.length_append, List.length_cons, hcs, List.length_cons]
    omega

/-- A quoted string is read back. -/
theorem scanText_quote (t : Text) (r : List Char) :
    scanText (t.points.flatMap escape ++ '"' :: r) = some (t, r) := by
  have hlen := length_flatMap_escape (points_small t)
  have htext : textOf (t.points.flatMap units) = some t := by
    unfold textOf
    have hjoin := join_units t.below t.joined
    rw [dif_pos (by rw [hjoin]; exact ⟨t.below, t.joined⟩)]
    simp only [hjoin]
  have hunits : scanUnits ((t.points.flatMap escape ++ '"' :: r).length + 1) (t.points.flatMap escape ++ '"' :: r) =
      some (t.points.flatMap units, r) := by
    rw [points_escape]
    refine scanUnits_escape (points_small t) r ?_
    rw [List.length_append]
    omega
  unfold scanText
  rw [hunits]
  show (textOf _).bind _ = _
  rw [htext]
  rfl

example : (scanText "a\\ud83d\\ude00\"b".toList).map (fun t => (t.1.points, t.2)) = some ([0x61, 0x1F600], ['b']) := by
  decide

theorem scanText_cut {t : Text} {p q : List Char} (h : p ++ q = t.points.flatMap escape) : scanText p = none := by
  rw [points_escape] at h
  unfold scanText
  rw [scanUnits_cut (points_small t) h]
  rfl

/-! ## Values without parts -/

/-- A value that is no list, no dict and not `None`, with finite numbers, and no
integer that `int` does not take. -/
def Plain : Value fl.F → Prop
  | .bool _ | .str _ => True
  | .int n => ((intText n).filter digit).length ≤ maxDigits
  | .float x => x.isFinite = true
  | .none | .list _ | .dict _ => False

/-- What stands behind a value that is cut: nothing that goes on with the
object. -/
def Stuck (t : List Char) : Prop := ∀ c ∈ t.head?, white c = false ∧ c ≠ ',' ∧ c ≠ '\x7d'

theorem numeric_stuck {t : List Char} (h : ∀ c ∈ t, numeric c = true) : Stuck t := by
  intro c hc
  have hnum := h c (List.mem_of_mem_head? hc)
  refine ⟨Bool.eq_false_iff.mpr fun hw => ?_, ?_, ?_⟩
  · simp only [white, Bool.or_eq_true, decide_eq_true_eq] at hw
    rcases hw with ((rfl | rfl) | rfl) | rfl <;> exact absurd hnum (by decide)
  · rintro rfl
    exact absurd hnum (by decide)
  · rintro rfl
    exact absurd hnum (by decide)

variable {fl}

theorem value_other {k : Nat} {c : Char} {s : List Char} (h : numeric c = true) :
    value fl (k + 1) (c :: s) = (number fl (c :: s)).or (literal fl (c :: s)) := by
  have hquote : c ≠ '"' := by
    rintro rfl
    exact absurd h (by decide)
  have hbrace : c ≠ '\x7b' := by
    rintro rfl
    exact absurd h (by decide)
  have hbracket : c ≠ '[' := by
    rintro rfl
    exact absurd h (by decide)
  rw [value, if_neg hquote, if_neg hbrace, if_neg hbracket]

theorem unsigned_head {c : Char} {x : List Char × List Char} (h : unsigned (c :: s) = some x) : digit c = true := by
  unfold unsigned at h
  dsimp only at h
  by_cases h0 : c = '0'
  · rw [h0]
    decide
  · rw [if_neg h0] at h
    by_cases hd : digit c = true
    · exact hd
    · rw [if_neg hd] at h
      cases h

theorem number_cons {v : Value fl.F} {t : List Char} (h : number fl s = some (v, t)) :
    ∃ c s', s = c :: s' ∧ numeric c = true := by
  obtain ⟨⟨n, u⟩, hn, -⟩ := Option.bind_eq_some_iff.mp h
  obtain ⟨i, hi, -⟩ := Option.map_eq_some_iff.mp hn
  cases s with
  | nil => cases hi
  | cons c s =>
    refine ⟨c, s, rfl, ?_⟩
    unfold intPart at hi
    split at hi
    next heq =>
      rw [(List.cons.inj heq).1]
      decide
    · exact digit_numeric (unsigned_head hi)

theorem value_number {k : Nat} {v : Value fl.F} {t : List Char} (h : number fl s = some (v, t)) :
    value fl (k + 1) s = some (v, t) := by
  obtain ⟨c, s', rfl, hc⟩ := number_cons h
  rw [value_other hc, h]
  rfl

/-- The text of a number, which is all that `number` takes of it. -/
theorem number_whole {n : NumberText} (hn : n.Whole) (hr : Ends r) :
    scanNumber (n.text ++ r) = some (n, r) := scanNumber_ends hn hr

theorem value_plain {v : Value fl.F} (hv : Plain fl v) (hr : Ends r) (k : Nat) :
    value fl (k + 1) (dumps fl v ++ r) = some (v, r) := by
  cases v with
  | none => cases hv
  | list xs => cases hv
  | dict fs => cases hv
  | bool b => cases b <;> rfl
  | str t =>
    rw [dumps, quote, List.cons_append, List.cons_append, List.append_assoc, value, if_pos rfl]
    show (scanText (t.points.flatMap escape ++ '"' :: r)).map _ = _
    rw [scanText_quote]
    rfl
  | int n =>
    obtain ⟨hwhole, hvalue⟩ := intText_whole n
    have hscan := number_whole hwhole hr
    rw [NumberText.text, List.append_nil, List.append_nil] at hscan
    have hdigits : ¬ maxDigits < ((intText n).filter digit).length := Nat.not_lt.mpr hv
    refine value_number ?_
    rw [dumps, number, hscan, Option.bind_some, if_pos ⟨rfl, rfl⟩, if_neg hdigits, hvalue]
  | float x =>
    cases x with
    | nan => cases hv
    | inf b => cases hv
    | fin x =>
      refine value_number ?_
      have hpointed : ¬ ((fl.repr x).frac = [] ∧ (fl.repr x).exp = []) := by
        rintro ⟨hfrac, hexp⟩
        rcases fl.pointed x with h | h
        · exact h hfrac
        · exact h hexp
      rw [dumps, floatText, number, number_whole (fl.whole x) hr, Option.bind_some, if_neg hpointed,
        fl.ofText_repr]

theorem literal_none (h : ∀ c ∈ s, numeric c = true) : literal fl s = none := by
  unfold literal
  rw [Option.map_eq_none_iff, List.find?_eq_none]
  intro l hl hprefix
  have hmem : ∀ c ∈ l.1, numeric c = true := fun c hc =>
    h c ((List.isPrefixOf_iff_prefix.mp hprefix).subset hc)
  simp only [literals, List.mem_cons, List.not_mem_nil, or_false] at hl
  rcases hl with rfl | rfl | rfl | rfl | rfl | rfl
  · exact absurd (hmem 'n' (show 'n' ∈ "null".toList by decide)) (by decide)
  · exact absurd (hmem 't' (show 't' ∈ "true".toList by decide)) (by decide)
  · exact absurd (hmem 'f' (show 'f' ∈ "false".toList by decide)) (by decide)
  · exact absurd (hmem 'N' (show 'N' ∈ "NaN".toList by decide)) (by decide)
  · exact absurd (hmem 'I' (show 'I' ∈ "Infinity".toList by decide)) (by decide)
  · exact absurd (hmem 'I' (show 'I' ∈ "-Infinity".toList by decide)) (by decide)

/-- The start of a number leaves nothing that goes on with the object. -/
theorem value_numeric {k : Nat} {v : Value fl.F} {t : List Char} (h : value fl k s = some (v, t))
    (hs : ∀ c ∈ s, numeric c = true) : Stuck t := by
  cases k with
  | zero => cases h
  | succ k =>
    cases s with
    | nil => cases h
    | cons c s =>
      rw [value_other (hs c List.mem_cons_self), literal_none hs, Option.or_none] at h
      exact numeric_stuck (number_stuck fl h hs)

/-- A word that is cut is none, and nothing stands behind the whole word. -/
theorem word_cut {w p q t : List Char} {k : Nat} {v : Value fl.F} (hpq : p ++ q = w)
    (hcut : ∀ n < w.length, ∀ k, value fl k (w.take n) = none)
    (hwhole : ∀ k v t, value fl k w = some (v, t) → t = []) (h : value fl k p = some (v, t)) : Stuck t := by
  have hp : p = w.take p.length := List.prefix_iff_eq_take.mp ⟨q, hpq⟩
  by_cases hlt : p.length < w.length
  · rw [hp, hcut _ hlt k] at h
    cases h
  · rw [List.take_of_length_le (Nat.not_lt.mp hlt)] at hp
    rw [hp] at h
    rw [hwhole k v t h]
    exact fun c hc => absurd hc (by simp)

theorem value_cut {v : Value fl.F} (hv : Plain fl v) {p q : List Char} (hpq : p ++ q = dumps fl v) {k : Nat}
    {w : Value fl.F} {t : List Char} (h : value fl k p = some (w, t)) : Stuck t := by
  have hnumeric : (∀ c ∈ dumps fl v, numeric c = true) → Stuck t := fun hall =>
    value_numeric h fun c hc => hall c (hpq ▸ List.mem_append_left q hc)
  cases v with
  | none => cases hv
  | list xs => cases hv
  | dict fs => cases hv
  | bool b =>
    cases b with
    | false =>
      refine word_cut hpq (fun n hn k => ?_) (fun k v t h => ?_) h
      · have hn : n < 5 := hn
        rcases n with _ | _ | _ | _ | _ | n
        iterate 5 cases k <;> rfl
        omega
      · cases k <;> cases h
        rfl
    | true =>
      refine word_cut hpq (fun n hn k => ?_) (fun k v t h => ?_) h
      · have hn : n < 4 := hn
        rcases n with _ | _ | _ | _ | n
        iterate 4 cases k <;> rfl
        omega
      · cases k <;> cases h
        rfl
  | str u =>
    cases p with
    | nil => cases k <;> cases h
    | cons c p =>
      rw [dumps, quote, List.cons_append, List.cons_append, List.cons.injEq] at hpq
      obtain ⟨rfl, hpq⟩ := hpq
      cases k with
      | zero => cases h
      | succ k =>
        rw [value, if_pos rfl] at h
        rcases List.append_eq_append_iff.mp hpq with ⟨p', hescape, -⟩ | ⟨p', hp, hrest⟩
        · rw [scanText_cut hescape.symm] at h
          cases h
        · cases p' with
          | nil =>
            rw [List.append_nil] at hp
            rw [scanText_cut (t := u) (q := []) (by rw [hp, List.append_nil])] at h
            cases h
          | cons d p' =>
            rw [List.cons_append, List.cons.injEq] at hrest
            have hnil : p' = [] := (List.append_eq_nil_iff.mp hrest.2.symm).1
            rw [hp, hnil, ← hrest.1, scanText_quote] at h
            cases h
            exact fun c hc => absurd hc (by simp)
  | int n =>
    have hwhole := (scanNumber_text (intText_whole n).1).2
    rw [NumberText.text, List.append_nil, List.append_nil] at hwhole
    exact hnumeric hwhole
  | float x =>
    cases x with
    | nan => cases hv
    | inf b => cases hv
    | fin x => exact hnumeric (scanNumber_text (fl.whole x)).2

/-! ## The text of a dict -/

/-- The text of an object behind the quote of its first key. -/
def inner (fl : Floats) (key : Text) (v : Value fl.F) (fs : List (Text × Value fl.F)) : List Char :=
  key.points.flatMap escape ++ '"' :: ':' :: ' ' :: (dumps fl v ++ dumpFields fl fs)

theorem dumps_dict (key : Text) (v : Value fl.F) (fs : List (Text × Value fl.F)) :
    dumps fl (.dict ((key, v) :: fs)) = '\x7b' :: '"' :: inner fl key v fs := by
  simp [dumps, dumpField, quote, inner]

theorem dumpFields_cons (key : Text) (v : Value fl.F) (fs : List (Text × Value fl.F)) :
    dumpFields fl ((key, v) :: fs) = ',' :: ' ' :: '"' :: inner fl key v fs := by
  simp [dumpFields, dumpField, quote, inner]

theorem dumpFields_ends (fs : List (Text × Value fl.F)) (r : List Char) : Ends (dumpFields fl fs ++ r) := by
  cases fs with
  | nil =>
    intro c hc
    cases hc
    decide
  | cons f fs =>
    obtain ⟨key, v⟩ := f
    rw [dumpFields_cons]
    intro c hc
    cases hc
    decide

theorem skip_other {c : Char} (h : white c = false) (s : List Char) : skip (c :: s) = c :: s :=
  List.dropWhile_cons_of_neg (by simp [h])

theorem numeric_not_white {c : Char} (h : numeric c = true) : white c = false :=
  ((numeric_stuck (t := [c]) (by simpa using h)) c rfl).1

/-- Something that is not white starts a value. -/
theorem dumps_head {v : Value fl.F} (hv : Plain fl v) : ∃ c s, dumps fl v = c :: s ∧ white c = false := by
  have hnumber : ∀ n : NumberText, n.Whole → ∃ c s, n.text = c :: s ∧ white c = false := by
    intro n hn
    cases ht : n.text with
    | nil =>
      unfold NumberText.Whole at hn
      rw [ht] at hn
      cases hn
    | cons c s =>
      have hall := (scanNumber_text hn).2
      rw [ht] at hall
      exact ⟨c, s, rfl, numeric_not_white (hall c List.mem_cons_self)⟩
  cases v with
  | none => cases hv
  | list xs => cases hv
  | dict fs => cases hv
  | bool b =>
    cases b
    · exact ⟨'f', _, rfl, by decide⟩
    · exact ⟨'t', _, rfl, by decide⟩
  | str t => exact ⟨'"', _, by rw [dumps, quote, List.cons_append], by decide⟩
  | int n =>
    obtain ⟨c, s, hcs, hc⟩ := hnumber _ (intText_whole n).1
    rw [NumberText.text, List.append_nil, List.append_nil] at hcs
    exact ⟨c, s, by rw [dumps]; exact hcs, hc⟩
  | float x =>
    cases x with
    | nan => cases hv
    | inf b => cases hv
    | fin x =>
      obtain ⟨c, s, hcs, hc⟩ := hnumber _ (fl.whole x)
      exact ⟨c, s, by rw [dumps, floatText, hcs], hc⟩

theorem skip_dumps {v : Value fl.F} (hv : Plain fl v) (r : List Char) :
    skip (dumps fl v ++ r) = dumps fl v ++ r := by
  obtain ⟨c, s, hcs, hc⟩ := dumps_head hv
  rw [hcs, List.cons_append, skip_other hc]

/-- What `members` does behind a value. -/
def afterValue (fl : Floats) (k : Nat) (key : Text) (v : Value fl.F) (s : List Char) :
    Option (List (Text × Value fl.F) × List Char) :=
  match skip s with
  | '\x7d' :: r => some ([(key, v)], r)
  | ',' :: r =>
    match skip r with
    | '"' :: r => (members fl k r).map fun m => ((key, v) :: m.1, m.2)
    | _ => none
  | _ => none

/-- What `members` does behind a key and its colon. -/
def afterKey (fl : Floats) (k : Nat) (key : Text) (s : List Char) :
    Option (List (Text × Value fl.F) × List Char) :=
  (value fl k (skip s)).bind fun v => afterValue fl k key v.1 v.2

theorem members_key (k : Nat) (key : Text) (s : List Char) :
    members fl (k + 1) (key.points.flatMap escape ++ '"' :: ':' :: s) = afterKey fl k key s := by
  rw [members, scanText_quote]
  rfl

theorem afterKey_value {k : Nat} {key : Text} {v : Value fl.F} {r : List Char} (hv : Plain fl v) (hr : Ends r) :
    afterKey fl (k + 1) key (' ' :: (dumps fl v ++ r)) = afterValue fl (k + 1) key v r := by
  unfold afterKey
  have hskip : skip (' ' :: (dumps fl v ++ r)) = dumps fl v ++ r := skip_dumps hv r
  rw [hskip, value_plain hv hr, Option.bind_some]

/-- The members of a dict without parts are read back. -/
theorem members_inner {fs : List (Text × Value fl.F)} (hfs : ∀ f ∈ fs, Plain fl f.2) {key : Text}
    {v : Value fl.F} (hv : Plain fl v) (r : List Char) {k : Nat} (hk : fs.length + 1 < k) :
    members fl k (inner fl key v fs ++ r) = some ((key, v) :: fs, r) := by
  induction fs generalizing key v k with
  | nil =>
    obtain ⟨k, rfl⟩ : ∃ j, k = j + 2 := ⟨k - 2, by rw [List.length_nil] at hk; omega⟩
    have hinner : inner fl key v [] ++ r =
        key.points.flatMap escape ++ '"' :: ':' :: ' ' :: (dumps fl v ++ (dumpFields fl [] ++ r)) := by
      simp [inner]
    rw [hinner, members_key, afterKey_value hv (dumpFields_ends [] r)]
    rfl
  | cons f fs ih =>
    obtain ⟨key', v'⟩ := f
    rw [List.length_cons] at hk
    obtain ⟨k, rfl⟩ : ∃ j, k = j + 2 := ⟨k - 2, by omega⟩
    have hinner : inner fl key v ((key', v') :: fs) ++ r =
        key.points.flatMap escape ++ '"' :: ':' :: ' ' :: (dumps fl v ++ (dumpFields fl ((key', v') :: fs) ++ r)) := by
      simp [inner]
    rw [hinner, members_key, afterKey_value hv (dumpFields_ends _ r), dumpFields_cons]
    show (members fl (k + 1) (inner fl key' v' fs ++ r)).map _ = _
    rw [ih (fun f hf => hfs f (List.mem_cons_of_mem _ hf)) (hfs _ List.mem_cons_self) (by omega)]
    rfl

theorem skip_stuck {t : List Char} (h : Stuck t) : skip t = t := by
  cases t with
  | nil => rfl
  | cons c t => exact skip_other (h c rfl).1 t

/-- Behind a value that is cut the members end in an error. -/
theorem afterKey_cut {k : Nat} {key : Text} {v : Value fl.F} (hv : Plain fl v) {p q : List Char}
    (hpq : p ++ q = dumps fl v) : afterKey fl k key (' ' :: p) = none := by
  have hskip : skip (' ' :: p) = p := by
    show skip p = p
    obtain ⟨c, s, hcs, hc⟩ := dumps_head hv
    cases p with
    | nil => rfl
    | cons d p =>
      rw [hcs, List.cons_append, List.cons.injEq] at hpq
      exact skip_other (hpq.1 ▸ hc) p
  unfold afterKey
  rw [hskip]
  cases hval : value fl k p with
  | none => rfl
  | some x =>
    obtain ⟨w, t⟩ := x
    have hstuck := value_cut hv hpq hval
    rw [Option.bind_some]
    unfold afterValue
    rw [skip_stuck hstuck]
    split
    · exact absurd rfl (hstuck _ rfl).2.2
    · exact absurd rfl (hstuck _ rfl).2.1
    · rfl

theorem ends_of_append {p q R : List Char} (hR : Ends R) (hpq : p ++ q = R) : Ends p := by
  intro c hc
  cases p with
  | nil => cases hc
  | cons d p =>
    cases hc
    exact hR c (by rw [← hpq]; rfl)

/-- A cut in a key or its value, or behind them where that ends in an error. -/
theorem members_cut_of {key : Text} {v : Value fl.F} (hv : Plain fl v) {R : List Char} (hends : Ends R)
    {p q : List Char} (hrest : ∀ p' k, p' ++ q = R → afterValue fl k key v p' = none)
    (hpq : p ++ q = key.points.flatMap escape ++ '"' :: ':' :: ' ' :: (dumps fl v ++ R)) (k : Nat) :
    members fl k p = none := by
  cases k with
  | zero => rfl
  | succ k =>
    rcases List.append_eq_append_iff.mp hpq with ⟨a, hkey, -⟩ | ⟨p1, rfl, h1⟩
    · rw [members, scanText_cut hkey.symm]
      rfl
    cases p1 with
    | nil =>
      rw [members, scanText_cut (t := key) (q := []) (by rw [List.append_nil, List.append_nil])]
      rfl
    | cons c p2 =>
      rw [List.cons_append, List.cons.injEq] at h1
      obtain ⟨rfl, h2⟩ := h1
      cases p2 with
      | nil =>
        rw [members, scanText_quote]
        rfl
      | cons c p3 =>
        rw [List.cons_append, List.cons.injEq] at h2
        obtain ⟨rfl, h3⟩ := h2
        rw [members_key]
        cases p3 with
        | nil => cases k <;> rfl
        | cons c p4 =>
          rw [List.cons_append, List.cons.injEq] at h3
          obtain ⟨rfl, h4⟩ := h3
          rcases List.append_eq_append_iff.mp h4 with ⟨p5, rfl, h5⟩ | ⟨a, hvalue, -⟩
          · cases k with
            | zero => rfl
            | succ k =>
              rw [afterKey_value hv (ends_of_append hends h5.symm)]
              exact hrest p5 _ h5.symm
          · exact afterKey_cut hv hvalue.symm

/-- Where the text of an object is cut, its members end in an error. -/
theorem members_cut {fs : List (Text × Value fl.F)} (hfs : ∀ f ∈ fs, Plain fl f.2) {key : Text}
    {v : Value fl.F} (hv : Plain fl v) {p q : List Char} (hpq : p ++ q = inner fl key v fs) (hq : q ≠ [])
    (k : Nat) : members fl k p = none := by
  induction fs generalizing key v k p with
  | nil =>
    refine members_cut_of hv (R := dumpFields fl []) ?_ (fun p' k h => ?_) hpq k
    · simpa using @dumpFields_ends fl [] []
    · have hp' : p' = [] := by
        have hlen := congrArg List.length h
        have hpos := List.length_pos_of_ne_nil hq
        rw [List.length_append, dumpFields, List.length_singleton] at hlen
        exact List.eq_nil_of_length_eq_zero (by omega)
      rw [hp']
      rfl
  | cons f fs ih =>
    obtain ⟨key', v'⟩ := f
    refine members_cut_of hv (R := dumpFields fl ((key', v') :: fs)) ?_ (fun p' k h => ?_) hpq k
    · simpa using @dumpFields_ends fl ((key', v') :: fs) []
    · rw [dumpFields_cons] at h
      rcases p' with _ | ⟨c1, _ | ⟨c2, _ | ⟨c3, p'⟩⟩⟩
      · rfl
      · rw [(List.cons.inj h).1]
        rfl
      · simp only [List.cons_append, List.cons.injEq] at h
        rw [h.1, h.2.1]
        rfl
      · simp only [List.cons_append, List.cons.injEq] at h
        obtain ⟨rfl, rfl, rfl, h⟩ := h
        have hnone := ih (fun f hf => hfs f (List.mem_cons_of_mem _ hf)) (hfs _ List.mem_cons_self) h k
        show (members fl k p').map _ = none
        rw [hnone]
        rfl

/-! ## The round trip, and the text that is cut -/

theorem foldl_set {fs : List (Text × Value fl.F)} {d : Dict Text (Value fl.F)}
    (h : ((d.entries ++ fs).map Prod.fst).Nodup) :
    (fs.foldl (fun (d : Dict Text (Value fl.F)) f => d.set f.1 f.2) d).entries = d.entries ++ fs := by
  induction fs generalizing d with
  | nil => rw [List.append_nil, List.foldl_nil]
  | cons f fs ih =>
    obtain ⟨k, v⟩ := f
    have hk : k ∉ d.keys := by
      intro hmem
      rw [List.map_append, List.map_cons, List.nodup_append] at h
      exact h.2.2 k hmem k List.mem_cons_self rfl
    have hset : (d.set k v).entries = d.entries ++ [(k, v)] := by
      unfold Dict.set
      rw [dif_neg hk]
    rw [List.foldl_cons, ih (by rwa [hset, List.append_assoc, List.singleton_append]), hset, List.append_assoc,
      List.singleton_append]

/-- Distinct keys stay as they are. -/
theorem dictOf_eq {fs : List (Text × Value fl.F)} (h : (fs.map Prod.fst).Nodup) : dictOf fl fs = fs :=
  foldl_set (d := Dict.empty) h

theorem length_dumpFields (fs : List (Text × Value fl.F)) : fs.length < (dumpFields fl fs).length := by
  induction fs with
  | nil => exact Nat.one_pos
  | cons f fs ih =>
    rw [dumpFields, List.length_cons, List.length_append, List.length_cons]
    omega

theorem value_members {k : Nat} {s : List Char} :
    value fl (k + 1) ('\x7b' :: '"' :: s) = (members fl k s).map fun m => (.dict (dictOf fl m.1), m.2) := rfl

/-- A dict without parts is read back from its text. -/
theorem loads_dumps {fs : List (Text × Value fl.F)} (hkeys : (fs.map Prod.fst).Nodup)
    (hfs : ∀ f ∈ fs, Plain fl f.2) : loads fl (dumps fl (.dict fs)) = some (.dict fs) := by
  cases fs with
  | nil => rfl
  | cons f fs =>
    obtain ⟨key, v⟩ := f
    have hlong : fs.length + 1 < (dumps fl (.dict ((key, v) :: fs))).length := by
      have hlen := length_dumpFields fs
      rw [dumps_dict, inner]
      simp only [List.length_cons, List.length_append]
      omega
    have hmembers := @members_inner fl fs (fun f hf => hfs f (List.mem_cons_of_mem _ hf)) key v
      (hfs _ List.mem_cons_self) [] _ hlong
    rw [List.append_nil] at hmembers
    unfold loads
    rw [dumps_dict] at hmembers ⊢
    rw [if_neg (by simp), skip_other (by decide), value_members, hmembers]
    show (if skip [] = [] then some (Value.dict (dictOf fl ((key, v) :: fs))) else none) = _
    rw [dictOf_eq hkeys]
    rfl

/-- A text of a dict without parts that is cut is an error. -/
theorem loads_cut {fs : List (Text × Value fl.F)} (hfs : ∀ f ∈ fs, Plain fl f.2) {p q : List Char}
    (hpq : p ++ q = dumps fl (.dict fs)) (hq : q ≠ []) : loads fl p = none := by
  cases fs with
  | nil =>
    rcases p with _ | ⟨c1, _ | ⟨c2, p⟩⟩
    · rfl
    · rw [(List.cons.inj hpq).1]
      rfl
    · have hlen := congrArg List.length hpq
      have hpos := List.length_pos_of_ne_nil hq
      simp only [dumps, List.length_append, List.length_cons, List.length_nil] at hlen
      omega
  | cons f fs =>
    obtain ⟨key, v⟩ := f
    rw [dumps_dict] at hpq
    rcases p with _ | ⟨c1, _ | ⟨c2, p⟩⟩
    · rfl
    · rw [(List.cons.inj hpq).1]
      rfl
    · simp only [List.cons_append, List.cons.injEq] at hpq
      obtain ⟨rfl, rfl, hpq⟩ := hpq
      have hnone := fun k => members_cut (fun f hf => hfs f (List.mem_cons_of_mem _ hf)) (hfs _ List.mem_cons_self)
        hpq hq k
      unfold loads
      rw [if_neg (by simp), skip_other (by decide), value_members, hnone]
      rfl

end pyjson

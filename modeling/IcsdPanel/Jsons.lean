-- JSON values, their text as Go's `json.Marshal` writes it, and Python's
-- reading of a decoded object.
import Mathlib.Tactic.Common

namespace jsons

/-- A number is kept as its text. -/
inductive Json
  | null
  | bool (b : Bool)
  | num (text : String)
  | str (s : String)
  | arr (xs : List Json)
  | obj (fields : List (String × Json))

/-! ## Text -/

def hex4 (n : Nat) : List Char :=
  [Nat.digitChar (n / 4096 % 16), Nat.digitChar (n / 256 % 16), Nat.digitChar (n / 16 % 16), Nat.digitChar (n % 16)]

/-- What Go writes for a character of a string; `<`, `>` and `&` are escaped
so that the text may stand in HTML. -/
def escape (c : Char) : List Char :=
  if c = '"' ∨ c = '\\' then ['\\', c]
  else if c.toNat = 8 then ['\\', 'b']
  else if c.toNat = 12 then ['\\', 'f']
  else if c = '\n' then ['\\', 'n']
  else if c = '\r' then ['\\', 'r']
  else if c = '\t' then ['\\', 't']
  else if c.toNat < 32 ∨ c = '<' ∨ c = '>' ∨ c = '&' ∨ c.toNat = 0x2028 ∨ c.toNat = 0x2029 then
    '\\' :: 'u' :: hex4 c.toNat
  else [c]

def quote (s : String) : String := "\"" ++ String.ofList (s.toList.flatMap escape) ++ "\""

mutual

/-- `json.Marshal` -/
def encode : Json → String
  | .null => "null"
  | .bool b => if b then "true" else "false"
  | .num t => t
  | .str s => quote s
  | .arr xs => "[" ++ encodeItems xs ++ "]"
  | .obj fs => "\x7b" ++ encodeFields fs ++ "\x7d"

def encodeItems : List Json → String
  | [] => ""
  | [x] => encode x
  | x :: y :: xs => encode x ++ "," ++ encodeItems (y :: xs)

def encodeField : String × Json → String
  | (k, v) => quote k ++ ":" ++ encode v

def encodeFields : List (String × Json) → String
  | [] => ""
  | [x] => encodeField x
  | x :: y :: xs => encodeField x ++ "," ++ encodeFields (y :: xs)

end

/-! ## Reading -/

/-- `msg.get(k)`, also for what is no object. -/
def Json.get (j : Json) (k : String) : Option Json :=
  match j with
  | .obj fs => fs.lookup k
  | _ => none

/-- Whether Python takes a value for true. -/
def truthy : Json → Bool
  | .null => false
  | .bool b => b
  | .num t => (t.toList.takeWhile fun c => c ≠ 'e' && c ≠ 'E').any fun c => '1' ≤ c && c ≤ '9'
  | .str s => s ≠ ""
  | .arr xs => !xs.isEmpty
  | .obj fs => !fs.isEmpty

/-- Python's `str` of a string or of nothing. -/
def strOf : Option Json → String
  | some (.str s) => s
  | some j => encode j
  | none => ""

end jsons

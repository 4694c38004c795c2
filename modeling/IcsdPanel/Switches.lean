-- Dumps that switch to a database: the pattern of `otherDatabase`, the
-- statements of an SQL text, and which statements the pattern finds.
import IcsdPanel.Disk
import IcsdPanel.Patterns

open patterns

namespace icsd_panel.switches

open disk

/-! ## `otherDatabase` -/

def byte (c : Char) : UInt8 := UInt8.ofNat c.toNat

def bytes (s : String) : Bytes := s.toList.map byte

def newline (b : UInt8) : Bool := b = 10

/-- `\s` -/
def white (b : UInt8) : Bool := b = 9 || b = 10 || b = 12 || b = 13 || b = 32

/-- `\d` -/
def digit (b : UInt8) : Bool := 48 ≤ b && b ≤ 57

/-- Not a backquote, a `;` or white. -/
def nameByte (b : UInt8) : Bool := !(b = byte '`' || b = byte ';' || white b)

/-- A letter in any case. The long s is an `S` too. -/
def letter (c : Char) : Pattern UInt8 :=
  let plain := .sat fun b => b = byte c || b = byte c + 32
  if c = 'S' then .alt plain (.seq (.sat fun b => b = 0xC5) (.sat fun b => b = 0xBF)) else plain

def spelled : List Char → Pattern UInt8
  | [] => .eps
  | c :: w => .seq (letter c) (spelled w)

/-- A word in any case. -/
def word (w : String) : Pattern UInt8 := spelled w.toList

def exactly : Bytes → Pattern UInt8
  | [] => .eps
  | b :: s => .seq (.sat fun c => c = b) (exactly s)

def sign (s : String) : Pattern UInt8 := exactly (bytes s)

def whites : Pattern UInt8 := .many1 white

def keyword : Pattern UInt8 :=
  .alt (word "USE") (.seq (word "CREATE") (.seq whites (.alt (word "DATABASE") (word "SCHEMA"))))

def ifNotExists : Pattern UInt8 :=
  .alt
    (.seq (sign "/*!") (.seq (.many1 digit) (.seq whites (.seq (word "IF") (.seq whites (.seq (word "NOT")
      (.seq whites (.seq (word "EXISTS") (.seq (.many white) (.seq (sign "*/") (.many white)))))))))))
    (.seq (word "IF") (.seq whites (.seq (word "NOT") (.seq whites (.seq (word "EXISTS") whites)))))

/-- What stands before the name. -/
def front : Pattern UInt8 := .seq keyword (.seq whites (.seq (.opt ifNotExists) (.opt (sign "`"))))

/-- The pattern behind its `^`: the search takes it at the starts of the lines
only. -/
def reUseDB : Pattern UInt8 :=
  .seq (.many white) (.seq front (.seq (.cap (.many1 nameByte)) (.opt (sign "`"))))

def headSize : Nat := 256 * 1024

def otherDatabase (text name : Bytes) : Bytes :=
  ((reUseDB.findAll newline 0 true (text.take headSize)).find? fun n => n ≠ name).getD []

example : otherDatabase (bytes "-- dump\nCREATE DATABASE /*!32312 IF NOT EXISTS*/ `blog`;\n") (bytes "shop") =
    bytes "blog" := by decide

/-! ## Lines that switch -/

/-- The text behind a letter in any case. The long s is an s too. -/
def behindCase (c : Char) : Bytes → Option Bytes
  | [] => none
  | b :: s =>
    if b = byte c ∨ b = byte c + 32 then some s
    else if c = 'S' ∧ b = 0xC5 ∧ s.head? = some 0xBF then some (s.drop 1)
    else none

def behindSpelled : List Char → Bytes → Option Bytes
  | [], s => some s
  | c :: w, s => (behindCase c s).bind (behindSpelled w)

def behindWord (w : String) : Bytes → Option Bytes := behindSpelled w.toList

def behindSign (p : String) (s : Bytes) : Option Bytes :=
  if (bytes p).isPrefixOf s then some (s.drop (bytes p).length) else none

/-- Behind all the bytes of a kind, of which there is one at least. -/
def behindSome (p : UInt8 → Bool) (s : Bytes) : Option Bytes := if s.head?.any p then some (s.dropWhile p) else none

/-- Behind `USE`, `CREATE DATABASE` or `CREATE SCHEMA`. -/
def behindOpening (s : Bytes) : Option Bytes :=
  (behindWord "USE" s).or do
    let s ← behindWord "CREATE" s
    let s ← behindSome white s
    (behindWord "DATABASE" s).or (behindWord "SCHEMA" s)

def behindIfNotExists (s : Bytes) : Option Bytes := do
  let s ← behindWord "IF" s
  let s ← behindSome white s
  let s ← behindWord "NOT" s
  let s ← behindSome white s
  behindWord "EXISTS" s

/-- Behind `IF NOT EXISTS`, which may stand in `/*!` and a number. -/
def behindClause (s : Bytes) : Option Bytes :=
  (do
    let s ← behindSign "/*!" s
    let s ← behindSome digit s
    let s ← behindSome white s
    let s ← behindIfNotExists s
    let s ← behindSign "*/" (s.dropWhile white)
    some (s.dropWhile white)).or
  (do
    let s ← behindIfNotExists s
    behindSome white s)

/-- The name that a text starts with, perhaps behind a backquote. -/
def nameAt (s : Bytes) : Option Bytes :=
  let n := (if s.head? = some (byte '`') then s.drop 1 else s).takeWhile nameByte
  if n = [] then none else some n

/-- The database that a line switches to, when it starts so. -/
def switched (line : Bytes) : Option Bytes := do
  let s ← behindOpening (line.dropWhile white)
  let s ← behindSome white s
  ((behindClause s).bind nameAt).or (nameAt s)

example : switched (bytes "  create schema if not exists blog;") = some (bytes "blog") := by decide
/-! ## The statements of a text -/

/-- What the settings of the server make of a text: whether a backslash keeps
the next byte in quotes, and whether `/*M!` starts code too. -/
structure Dialect where
  backslash : Bool
  mariadb : Bool

inductive Lexeme
  | word (s : Bytes)
  | quoted (q : UInt8) (s : Bytes)
  | stop
  | other (b : UInt8)
deriving DecidableEq

/-- A lexeme, the text from it on, and the text behind it. -/
structure Token where
  lexeme : Lexeme
  here : Bytes
  behind : Bytes
deriving DecidableEq

def blank (b : UInt8) : Bool := white b || b = 11

def quote (b : UInt8) : Bool := b = byte '\'' || b = byte '"' || b = byte '`'

/-- A letter, a digit, one of `_$.-`, or a part of a longer character. -/
def wordByte (b : UInt8) : Bool :=
  digit b || (byte 'A' ≤ b && b ≤ byte 'Z') || (byte 'a' ≤ b && b ≤ byte 'z') || b = byte '_' || b = byte '$' ||
    b = byte '.' || b = byte '-' || 128 ≤ b

def upper (b : UInt8) : UInt8 := if byte 'a' ≤ b ∧ b ≤ byte 'z' then b - 32 else b

/-- What is in the quotes, and what follows them. Two quotes stand for one, and
a backslash may keep the next byte, but not in backquotes. -/
def unquote (d : Dialect) (q : UInt8) : Bytes → Bytes × Bytes
  | [] => ([], [])
  | [c] => if c = q then ([], []) else ([c], [])
  | c :: e :: s =>
    if c = q then if e = q then (q :: (unquote d q s).1, (unquote d q s).2) else ([], e :: s)
    else if d.backslash ∧ c = byte '\\' ∧ q ≠ byte '`' then (e :: (unquote d q s).1, (unquote d q s).2)
    else (c :: (unquote d q (e :: s)).1, (unquote d q (e :: s)).2)

def afterComment : Bytes → Bytes
  | [] => []
  | c :: s => if c = byte '*' ∧ s.head? = some (byte '/') then s.drop 1 else afterComment s

/-- Whether a comment up to the end of the line starts here. -/
def lineComment (s : Bytes) : Bool :=
  s.head? = some (byte '#') || (bytes "--").isPrefixOf s && (s.drop 2).head?.all blank

/-- The text in a comment that is code: `/*!` or `/*M!`, and a version. -/
def codeStart (d : Dialect) (s : Bytes) : Option Bytes :=
  if (bytes "/*!").isPrefixOf s then some ((s.drop 3).dropWhile digit)
  else if d.mariadb ∧ (bytes "/*M!").isPrefixOf s then some ((s.drop 4).dropWhile digit)
  else none

/-- A `DELIMITER` line: what ends a statement from then on, and the text behind
the line. -/
def delimiterLine (d : Dialect) (s : Bytes) : Option (Bytes × Bytes) :=
  let line := s.takeWhile fun b => b ≠ 10
  let arg := (line.drop 9).dropWhile blank
  let next := match arg with
    | q :: t => if quote q then (unquote d q t).1 else arg.takeWhile fun b => !blank b
    | [] => []
  if (line.take 9).map upper = bytes "DELIMITER" ∧ (line.drop 9).head?.any blank ∧ next ≠ [] then
    some (next, s.dropWhile fun b => b ≠ 10)
  else none

/-- The bytes of a word. It goes no further than to the end of the statement. -/
def takeWord (stop : Bytes) : Bytes → Bytes × Bytes
  | [] => ([], [])
  | c :: s =>
    if wordByte c && !stop.isPrefixOf (c :: s) then (c :: (takeWord stop s).1, (takeWord stop s).2)
    else ([], c :: s)

/-- The tokens of a text, as the client reads it: `stop` ends a statement, and
so does a line that sets it. Comments are passed over, unless they are code. The
fuel is the length. -/
def tokensFrom (d : Dialect) : Nat → Bool → Bytes → Bytes → List Token
  | 0, _, _, _ => []
  | _, _, _, [] => []
  | k + 1, inside, stop, c :: s =>
    if blank c then tokensFrom d k inside stop s
    else match delimiterLine d (c :: s), codeStart d (c :: s) with
      | some (next, rest), _ => ⟨.stop, c :: s, rest⟩ :: tokensFrom d k inside next rest
      | none, code =>
        if stop.isPrefixOf (c :: s) then
          ⟨.stop, c :: s, (c :: s).drop stop.length⟩ :: tokensFrom d k inside stop ((c :: s).drop stop.length)
        else if lineComment (c :: s) then tokensFrom d k inside stop (s.dropWhile fun b => b ≠ 10)
        else match code with
          | some rest => tokensFrom d k true stop rest
          | none =>
            if (bytes "/*").isPrefixOf (c :: s) then tokensFrom d k inside stop (afterComment (s.drop 1))
            else if inside ∧ (bytes "*/").isPrefixOf (c :: s) then tokensFrom d k false stop (s.drop 1)
            else if quote c then
              ⟨.quoted c (unquote d c s).1, c :: s, (unquote d c s).2⟩ :: tokensFrom d k inside stop (unquote d c s).2
            else if wordByte c then
              ⟨.word (takeWord stop (c :: s)).1, c :: s, (takeWord stop (c :: s)).2⟩ ::
                tokensFrom d k inside stop (takeWord stop (c :: s)).2
            else ⟨.other c, c :: s, s⟩ :: tokensFrom d k inside stop s

/-- The tokens in the head of a text. Where the head is cut, what stands at its
end may go on. -/
def headTokens (d : Dialect) (text : Bytes) : List Token :=
  (tokensFrom d (text.take headSize).length false (bytes ";") (text.take headSize)).filter fun t =>
    t.behind ≠ [] || text.length ≤ headSize

def statements (d : Dialect) (text : Bytes) : List (List Token) :=
  (headTokens d text).splitOnP fun t => t.lexeme = .stop

def Lexeme.is (w : String) : Lexeme → Bool
  | .word s => s.map upper = bytes w
  | _ => false

def Lexeme.name? : Lexeme → Option Bytes
  | .word s => some s
  | .quoted _ s => some s
  | _ => none

def Lexeme.kind (l : Lexeme) : Bool := l.is "DATABASE" || l.is "SCHEMA"

/-- The database after `DATABASE` or `SCHEMA`. -/
def created : List Lexeme → Option Bytes
  | i :: n :: e :: ls =>
    if i.is "IF" && n.is "NOT" && e.is "EXISTS" then ls.head?.bind Lexeme.name? else i.name?
  | ls => ls.head?.bind Lexeme.name?

/-- The database after `CREATE`, or `CREATE OR REPLACE`. -/
def replaced : List Lexeme → Option Bytes
  | o :: r :: k :: ls =>
    if o.is "OR" && r.is "REPLACE" && k.kind then created ls else if o.kind then created (r :: k :: ls) else none
  | k :: ls => if k.kind then created ls else none
  | [] => none

/-- The database that a statement switches to, or makes. -/
def database : List Lexeme → Option Bytes
  | a :: b :: ls => if a.is "USE" then b.name? else if a.is "CREATE" then replaced (b :: ls) else none
  | _ => none

def databaseOf (s : List Token) : Option Bytes := database (s.map Token.lexeme)

example : (statements ⟨true, true⟩ (bytes "DELIMITER $$\nUSE a;b$$ /*M!100100 CREATE OR REPLACE SCHEMA c */$$")).map
    databaseOf = [none, some (bytes "a"), some (bytes "c"), none] := by decide

/-- A statement in the head names another database. -/
def Foreign (d : Dialect) (text name : Bytes) : Prop :=
  ∃ s ∈ statements d text, ∃ n, databaseOf s = some n ∧ n ≠ name

/-! ## The words of the pattern -/

def skipWhite (s : Bytes) : Bytes := s.dropWhile white

theorem skipWhite_append {w : Bytes} (h : ∀ b ∈ w, white b = true) (s : Bytes) : skipWhite (w ++ s) = skipWhite s :=
  List.dropWhile_append_of_pos h

theorem skipWhite_cons {b : UInt8} (h : white b = false) (s : Bytes) : skipWhite (b :: s) = b :: s :=
  List.dropWhile_cons_of_neg (by simp [h])

/-- The letters that a keyword starts with, as bytes. -/
def initial (b : UInt8) : Bool := b = byte 'U' || b = byte 'u' || b = byte 'C' || b = byte 'c'

theorem initial_not_white {b : UInt8} (h : initial b = true) : white b = false := by
  simp only [initial, Bool.or_eq_true, decide_eq_true_eq] at h
  rcases h with ((rfl | rfl) | rfl) | rfl <;> rfl

/-- The pattern takes the text for a first word. -/
def Keyed (k : Bytes) : Prop := (word "USE").Takes k ∨ (word "CREATE").Takes k

theorem letter_takes {c : Char} {x : Bytes} (h : (letter c).Takes x) :
    x = [byte c] ∨ x = [byte c + 32] ∨ c = 'S' ∧ x = [0xC5, 0xBF] := by
  have hplain : ∀ {y}, (Pattern.sat fun b => b = byte c || b = byte c + 32).Takes y →
      y = [byte c] ∨ y = [byte c + 32] := by
    rintro y ⟨b, rfl, hb⟩
    simp only [Bool.or_eq_true, decide_eq_true_eq] at hb
    rcases hb with rfl | rfl
    · exact .inl rfl
    · exact .inr rfl
  unfold letter at h
  dsimp only at h
  by_cases hc : c = 'S'
  · rw [if_pos hc] at h
    rcases h with h | ⟨y, z, rfl, ⟨b, rfl, hb⟩, d, rfl, hd⟩
    · rcases hplain h with h | h
      · exact .inl h
      · exact .inr (.inl h)
    · rw [decide_eq_true_eq] at hb hd
      exact .inr (.inr ⟨hc, by rw [hb, hd]; rfl⟩)
  · rw [if_neg hc] at h
    rcases hplain h with h | h
    · exact .inl h
    · exact .inr (.inl h)

/-- A property of the bytes of the letters is one of the bytes of the word. -/
theorem spelled_all {p : UInt8 → Bool} {w : List Char} (hw : (w.all fun c => p (byte c) && p (byte c + 32)) = true)
    (h5 : p 0xC5 = true) (hbf : p 0xBF = true) {x : Bytes} (h : (spelled w).Takes x) : ∀ b ∈ x, p b = true := by
  induction w generalizing x with
  | nil =>
    have hx : x = [] := h
    rw [hx]
    exact fun b hb => absurd hb List.not_mem_nil
  | cons c w ih =>
    rw [List.all_cons, Bool.and_eq_true, Bool.and_eq_true] at hw
    obtain ⟨hc, hw⟩ := hw
    obtain ⟨y, z, rfl, hy, hz⟩ := h
    intro b hb
    rcases List.mem_append.mp hb with hb | hb
    · rcases letter_takes hy with rfl | rfl | ⟨-, rfl⟩
      · exact List.mem_singleton.mp hb ▸ hc.1
      · exact List.mem_singleton.mp hb ▸ hc.2
      · rcases List.mem_cons.mp hb with rfl | hb
        · exact h5
        · exact List.mem_singleton.mp hb ▸ hbf
    · exact ih hw hz b hb

/-- A word without white bytes. -/
theorem spelled_solid {w : List Char} (hw : (w.all fun c => !white (byte c) && !white (byte c + 32)) = true)
    {x : Bytes} (h : (spelled w).Takes x) : ∀ b ∈ x, white b = false := by
  intro b hb
  have hall := spelled_all (p := fun b => !white b) hw (by decide) (by decide) h b hb
  simpa using hall

theorem spelled_cons {c : Char} {w : List Char} (hc : c ≠ 'S') {x : Bytes} (h : (spelled (c :: w)).Takes x) :
    ∃ y, x = byte c :: y ∨ x = (byte c + 32) :: y := by
  obtain ⟨y, z, rfl, hy, -⟩ := h
  rcases letter_takes hy with rfl | rfl | ⟨hS, -⟩
  · exact ⟨z, .inl rfl⟩
  · exact ⟨z, .inr rfl⟩
  · exact absurd hS hc

theorem keyword_initial {k : Bytes} (h : Keyed k) : ∃ b y, k = b :: y ∧ initial b = true := by
  rcases h with h | h
  · rcases spelled_cons (by decide) h with ⟨y, h | h⟩
    · exact ⟨_, y, h, by decide⟩
    · exact ⟨_, y, h, by decide⟩
  · rcases spelled_cons (by decide) h with ⟨y, h | h⟩
    · exact ⟨_, y, h, by decide⟩
    · exact ⟨_, y, h, by decide⟩

theorem keyword_name {k : Bytes} (h : Keyed k) : ∀ b ∈ k, nameByte b = true := by
  rcases h with h | h
  · exact spelled_all (by decide) (by decide) (by decide) h
  · exact spelled_all (by decide) (by decide) (by decide) h

theorem whites_takes {x : Bytes} (h : whites.Takes x) : ∃ b y, x = b :: y ∧ ∀ c ∈ b :: y, white c = true := by
  obtain ⟨y, z, rfl, ⟨b, rfl, hb⟩, hz⟩ := h
  refine ⟨b, z, rfl, ?_⟩
  intro c hc
  rcases List.mem_cons.mp hc with rfl | hc
  · exact hb
  · exact hz c hc

/-- A keyword and something white after it stand where the front does. -/
theorem front_takes {x : Bytes} (h : front.Takes x) :
    ∃ k b y, x = k ++ b :: y ∧ Keyed k ∧ white b = true := by
  obtain ⟨k, z, rfl, hk, w, v, rfl, hw, -⟩ := h
  obtain ⟨b, y, rfl, hb⟩ := whites_takes hw
  have hwhite := hb b List.mem_cons_self
  rcases hk with hk | ⟨c, d, rfl, hc, w', e, rfl, hw', -⟩
  · exact ⟨k, b, y ++ v, rfl, .inl hk, hwhite⟩
  · obtain ⟨b', y', rfl, hb'⟩ := whites_takes hw'
    exact ⟨c, b', y' ++ e ++ (b :: y ++ v), by simp, .inr hc, hb' b' List.mem_cons_self⟩

/-! ## What starts in a match -/

/-- Where a line starts in a word of the pattern (or where the word starts,
with `first`), there is no keyword, or only what is white before what follows
the word. -/
def Quiet (first : Bool) (a : Pattern UInt8) : Prop :=
  ∀ x, a.Takes x → ∀ before y rest, x = before ++ y → lineStart newline first before = true →
    (∀ b ∈ (skipWhite (y ++ rest)).head?, initial b = false) ∨ skipWhite (y ++ rest) = skipWhite rest

variable {first : Bool} {a b : Pattern UInt8}

theorem lineStart_append (other : Bool) {x y : Bytes} (hy : y ≠ []) (h : lineStart newline first (x ++ y) = true) :
    lineStart newline other y = true := by
  unfold lineStart at h ⊢
  rw [List.getLast?_append_of_ne_nil x hy] at h
  rwa [List.getLast?_eq_some_getLast hy] at h ⊢

theorem quiet_seq (ha : Quiet first a) (hb : Quiet true b) : Quiet first (.seq a b) := by
  rintro x ⟨v, w, rfl, hv, hw⟩ before y rest hx hstart
  rcases List.append_eq_append_iff.mp hx with ⟨before', rfl, hw'⟩ | ⟨y', hv', rfl⟩
  · have hline : lineStart newline true before' = true := by
      by_cases hnil : before' = []
      · rw [hnil]
        rfl
      · exact lineStart_append true hnil hstart
    exact hb w hw before' y rest hw' hline
  · rw [List.append_assoc]
    rcases ha v hv before y' (w ++ rest) hv' hstart with h | h
    · exact .inl h
    · rw [h]
      exact hb w hw [] w rest rfl rfl

theorem quiet_alt (ha : Quiet first a) (hb : Quiet first b) : Quiet first (.alt a b) := by
  rintro x (hx | hx)
  · exact ha x hx
  · exact hb x hx

theorem quiet_eps : Quiet first .eps := by
  intro x hx before y rest hxy _
  have hnil : before ++ y = [] := hxy.symm.trans hx
  rw [(List.append_eq_nil_iff.mp hnil).2]
  exact .inr rfl

theorem quiet_opt (ha : Quiet first a) : Quiet first (.opt a) := quiet_alt ha quiet_eps

theorem quiet_white (h : ∀ x, a.Takes x → ∀ b ∈ x, white b = true) : Quiet first a := by
  intro x hx before y rest hxy _
  refine .inr (skipWhite_append ?_ rest)
  intro c hc
  exact h x hx c (hxy ▸ List.mem_append_right before hc)

theorem quiet_many : Quiet first (.many white) := quiet_white fun _ hx => hx

theorem quiet_whites : Quiet first whites := by
  refine quiet_white fun x hx => ?_
  obtain ⟨b, y, rfl, hy⟩ := whites_takes hx
  exact hy

/-- No line starts in a word without white bytes. -/
theorem quiet_solid (h : ∀ x, a.Takes x → ∀ b ∈ x, white b = false) : Quiet false a := by
  intro x hx before y rest hxy hstart
  unfold lineStart at hstart
  cases hlast : before.getLast? with
  | none =>
    rw [hlast] at hstart
    cases hstart
  | some c =>
    rw [hlast] at hstart
    have hc : c = 10 := of_decide_eq_true hstart
    have hmem : c ∈ x := hxy ▸ List.mem_append_left y (List.mem_of_mem_getLast? hlast)
    have hwhite := h x hx c hmem
    rw [hc] at hwhite
    cases hwhite

/-- The same for one that does not start as a keyword does. -/
theorem quiet_other (h : ∀ x, a.Takes x → ∀ b ∈ x, white b = false)
    (hhead : ∀ x, a.Takes x → ∃ b y, x = b :: y ∧ initial b = false) : Quiet true a := by
  intro x hx before y rest hxy hstart
  cases before with
  | nil =>
    obtain ⟨b, z, rfl, hb⟩ := hhead x hx
    have hy : y = b :: z := hxy.symm
    rw [hy, List.cons_append, skipWhite_cons (h _ hx b List.mem_cons_self)]
    refine .inl fun c hc => ?_
    rw [List.head?_cons, Option.mem_some_iff] at hc
    rw [← hc, hb]
  | cons c before =>
    refine quiet_solid h x hx (c :: before) y rest hxy ?_
    rwa [lineStart_cons] at hstart ⊢

theorem quiet_word {c : Char} {w : List Char}
    (hw : ((c :: w).all fun d => !white (byte d) && !white (byte d + 32)) = true)
    (hc : initial (byte c) = false ∧ initial (byte c + 32) = false) : Quiet true (spelled (c :: w)) := by
  refine quiet_other (fun x hx => spelled_solid hw hx) ?_
  rintro x ⟨y, z, rfl, hy, -⟩
  rcases letter_takes hy with rfl | rfl | ⟨-, rfl⟩
  · exact ⟨_, z, rfl, hc.1⟩
  · exact ⟨_, z, rfl, hc.2⟩
  · exact ⟨_, _, rfl, by decide⟩

theorem exactly_takes {s x : Bytes} (h : (exactly s).Takes x) : x = s := by
  induction s generalizing x with
  | nil => exact h
  | cons b s ih =>
    obtain ⟨y, z, rfl, ⟨c, rfl, hc⟩, hz⟩ := h
    rw [ih hz, of_decide_eq_true hc]
    rfl

theorem quiet_exactly {b : UInt8} {s : Bytes} (hs : ((b :: s).all fun c => !white c) = true) (hb : initial b = false) :
    Quiet true (exactly (b :: s)) := by
  refine quiet_other (fun x hx => ?_) fun x hx => ⟨b, s, exactly_takes hx, hb⟩
  rw [exactly_takes hx]
  simpa using hs

theorem quiet_digits : Quiet true (.many1 digit) := by
  have hdigit : ∀ c, digit c = true → white c = false ∧ initial c = false := by
    intro c hc
    refine ⟨Bool.eq_false_iff.mpr fun h => ?_, Bool.eq_false_iff.mpr fun h => ?_⟩
    · simp only [white, Bool.or_eq_true, decide_eq_true_eq] at h
      rcases h with (((rfl | rfl) | rfl) | rfl) | rfl <;> exact absurd hc (by decide)
    · simp only [initial, Bool.or_eq_true, decide_eq_true_eq] at h
      rcases h with ((rfl | rfl) | rfl) | rfl <;> exact absurd hc (by decide)
  have hall : ∀ x, (Pattern.many1 digit).Takes x → ∃ b y, x = b :: y ∧ ∀ c ∈ b :: y, digit c = true := by
    rintro x ⟨y, z, rfl, ⟨b, rfl, hb⟩, hz⟩
    refine ⟨b, z, rfl, fun c hc => ?_⟩
    rcases List.mem_cons.mp hc with rfl | hc
    · exact hb
    · exact hz c hc
  refine quiet_other (fun x hx c hc => ?_) fun x hx => ?_
  · obtain ⟨b, y, rfl, hy⟩ := hall x hx
    exact (hdigit c (hy c hc)).1
  · obtain ⟨b, y, rfl, hy⟩ := hall x hx
    exact ⟨b, y, rfl, (hdigit b (hy b List.mem_cons_self)).2⟩

theorem quiet_ifNotExists : Quiet true ifNotExists := by
  have hif : Quiet true (word "IF") := quiet_word (by decide) (by decide)
  have hnot : Quiet true (word "NOT") := quiet_word (by decide) (by decide)
  have hexists : Quiet true (word "EXISTS") := quiet_word (by decide) (by decide)
  have hopen : Quiet true (sign "/*!") := quiet_exactly (by decide) (by decide +kernel)
  have hclose : Quiet true (sign "*/") := quiet_exactly (by decide) (by decide +kernel)
  refine quiet_alt ?_ ?_
  · refine quiet_seq hopen (quiet_seq quiet_digits (quiet_seq quiet_whites (quiet_seq hif ?_)))
    refine quiet_seq quiet_whites (quiet_seq hnot (quiet_seq quiet_whites (quiet_seq hexists ?_)))
    exact quiet_seq quiet_many (quiet_seq hclose quiet_many)
  · refine quiet_seq hif (quiet_seq quiet_whites (quiet_seq hnot ?_))
    exact quiet_seq quiet_whites (quiet_seq hexists quiet_whites)

theorem quiet_front : Quiet false front := by
  have hsolid (w : List Char) (hw : (w.all fun d => !white (byte d) && !white (byte d + 32)) = true) :
      Quiet false (spelled w) := quiet_solid fun x hx => spelled_solid hw hx
  have hdatabase : Quiet true (word "DATABASE") := quiet_word (by decide) (by decide)
  have hschema : Quiet true (word "SCHEMA") := quiet_word (by decide) (by decide)
  have hkeyword : Quiet false keyword :=
    quiet_alt (hsolid _ (by decide))
      (quiet_seq (hsolid _ (by decide)) (quiet_seq quiet_whites (quiet_alt hdatabase hschema)))
  have hmark : Quiet true (sign "`") := quiet_exactly (by decide) (by decide +kernel)
  exact quiet_seq hkeyword (quiet_seq quiet_whites (quiet_seq (quiet_opt quiet_ifNotExists) (quiet_opt hmark)))

theorem exactly_group {s : Bytes} {m r : Match UInt8} (h : r ∈ (exactly s).runs m) : r.group = m.group := by
  induction s generalizing m with
  | nil => rw [List.mem_singleton.mp h]
  | cons b s ih =>
    obtain ⟨n, hn, hr⟩ := List.mem_flatMap.mp h
    have hsame : n.group = m.group := by
      unfold Pattern.runs at hn
      split at hn
      · cases hn
      · split at hn
        · rw [List.mem_singleton.mp hn]
        · cases hn
    rw [ih hr, hsame]

/-- The name and what the pattern allows after it have nothing white. -/
theorem name_takes {z : Bytes} (h : (Pattern.seq (.cap (.many1 nameByte)) (.opt (sign "`"))).Takes z) :
    ∀ b ∈ z, white b = false := by
  have hname : ∀ b, nameByte b = true → white b = false := by
    intro b hb
    simp only [nameByte, Bool.not_eq_true', Bool.or_eq_false_iff] at hb
    exact hb.2
  obtain ⟨y, v, rfl, ⟨c, l, rfl, ⟨d, rfl, hd⟩, hl⟩, hv⟩ := h
  have hmark : ∀ b ∈ v, white b = false := by
    rcases hv with hv | hv
    · have hsign : ((bytes "`").all fun b => !white b) = true := by decide
      rw [exactly_takes hv]
      simpa using hsign
    · have hnil : v = [] := hv
      rw [hnil]
      simp
  intro b hb
  rcases List.mem_append.mp hb with hb | hb
  · rcases List.mem_append.mp hb with hb | hb
    · exact hname b (List.mem_singleton.mp hb ▸ hd)
    · exact hname b (hl b hb)
  · exact hmark b hb

/-- A match: what is white, the front, and the name. -/
theorem first_parts {t : Bytes} {m : Match UInt8} (h : reUseDB.first t = some m) :
    ∃ w x s z, t = w ++ (x ++ s) ∧ (∀ b ∈ w, white b = true) ∧ front.Takes x ∧ m.group = s.takeWhile nameByte ∧
      m.group ≠ [] ∧ s = z ++ m.rest ∧ ∀ b ∈ z, white b = false := by
  obtain ⟨m1, hm1, h1⟩ := head_runs_seq h
  obtain ⟨m2, hm2, h2⟩ := head_runs_seq h1
  obtain ⟨w, hw, hwhite⟩ := takes_of_mem hm1
  obtain ⟨x, hx, hfront⟩ := takes_of_mem hm2
  obtain ⟨z, hz, hname⟩ := takes_of_mem (List.mem_of_mem_head? h2)
  have hgroup := head_group h2 fun n s hs => exactly_group hs
  exact ⟨w, x, m2.rest, z, by rw [← hx]; exact hw, hwhite, hfront, hgroup.1, hgroup.2, hz, name_takes hname⟩

/-- What a match starts with, behind what is white. -/
theorem first_keyword {u : Bytes} {n : Match UInt8} (h : reUseDB.first u = some n) :
    ∃ k b y, skipWhite u = k ++ b :: y ∧ Keyed k ∧ white b = true := by
  obtain ⟨w, x, s, -, rfl, hw, hx, -⟩ := first_parts h
  obtain ⟨k, b, y, rfl, hk, hb⟩ := front_takes hx
  refine ⟨k, b, y ++ s, ?_, hk, hb⟩
  obtain ⟨c, l, rfl, hc⟩ := keyword_initial hk
  rw [skipWhite_append hw, List.append_assoc, List.cons_append, List.cons_append,
    skipWhite_cons (initial_not_white hc)]
  rfl

/-- What is white before a match changes nothing. -/
theorem first_white {w : Bytes} (hw : ∀ b ∈ w, white b = true) (s : Bytes) :
    reUseDB.first (w ++ s) = reUseDB.first s := by
  have hstuck : ∀ x, (Pattern.seq front (.seq (.cap (.many1 nameByte)) (.opt (sign "`")))).Takes x →
      ∃ c y, x = c :: y ∧ white c = false := by
    rintro x ⟨y, z, rfl, hy, -⟩
    obtain ⟨k, b, v, rfl, hk, -⟩ := front_takes hy
    obtain ⟨c, l, rfl, hc⟩ := keyword_initial hk
    exact ⟨c, _, rfl, initial_not_white hc⟩
  unfold Pattern.first reUseDB
  rw [runs_many_seq hstuck, runs_many_seq hstuck]
  show (Pattern.runs _ ⟨[], skipWhite (w ++ s)⟩).head? = (Pattern.runs _ ⟨[], skipWhite s⟩).head?
  rw [skipWhite_append hw]

theorem lineStart_false {before : Bytes} (h : lineStart newline false before = true) :
    ∃ v, before = v ++ [10] := by
  unfold lineStart at h
  cases hlast : before.getLast? with
  | none =>
    rw [hlast] at h
    cases h
  | some c =>
    rw [hlast] at h
    have hc : c = 10 := of_decide_eq_true h
    rw [hc] at hlast
    exact List.getLast?_eq_some_iff.mp hlast

/-- A match that starts in another one, at the start of a line, has its name, or
it starts at its name, which is a keyword then. -/
theorem match_in_match {t : Bytes} {m : Match UInt8} (h : reUseDB.first t = some m) {before u : Bytes}
    {n : Match UInt8} (ht : t = before ++ u) (hstart : lineStart newline false before = true)
    (hlen : m.rest.length < u.length) (hn : reUseDB.first u = some n) :
    n.group = m.group ∨ Keyed m.group := by
  obtain ⟨w, x, s, z, htw, hw, hx, hgroup, hne, hz, hzwhite⟩ := first_parts h
  obtain ⟨k, b, y, hk, hkeyword, hb⟩ := first_keyword hn
  have hsame : ∀ v, before ++ v = w → n.group = m.group := by
    intro v hv
    have hbefore : ∀ c ∈ before, white c = true := fun c hc => hw c (hv ▸ List.mem_append_left v hc)
    rw [ht, first_white hbefore, hn] at h
    rw [Option.some.inj h]
  have hname : skipWhite s = s := by
    cases s with
    | nil => rfl
    | cons c s =>
      have hc : white c = false := by
        by_contra hc
        have hbyte : nameByte c = false := by simp [nameByte, (Bool.not_eq_false _).mp hc]
        rw [List.takeWhile_cons_of_neg (by simp [hbyte])] at hgroup
        exact hne hgroup
      exact skipWhite_cons hc s
  have hfound : skipWhite u = s → Keyed m.group := by
    intro hu
    have hbyte : nameByte b = false := by simp [nameByte, hb]
    rw [hgroup, ← hu, hk, List.takeWhile_append_of_pos (keyword_name hkeyword),
      List.takeWhile_cons_of_neg (by simp [hbyte]), List.append_nil]
    exact hkeyword
  rcases List.append_eq_append_iff.mp (ht.symm.trans htw) with ⟨w', hww, -⟩ | ⟨before', hbefore, hxs⟩
  · exact .inl (hsame w' hww.symm)
  · by_cases hnil : before' = []
    · rw [hnil, List.append_nil] at hbefore
      exact .inl (hsame [] (by rw [List.append_nil, hbefore]))
    · have hline : lineStart newline false before' = true := lineStart_append false hnil (hbefore ▸ hstart)
      rcases List.append_eq_append_iff.mp hxs with ⟨late, hlate, hs⟩ | ⟨x', hx', hu⟩
      · by_cases hnone : late = []
        · rw [hnone, List.nil_append] at hs
          exact .inr (hfound (hs ▸ hname))
        · obtain ⟨v, hv⟩ := lineStart_false (lineStart_append false hnone (hlate ▸ hline))
          have hmem : (10 : UInt8) ∈ late := hv ▸ List.mem_append_right v List.mem_cons_self
          rcases List.append_eq_append_iff.mp (hs.symm.trans hz) with ⟨z', hz', -⟩ | ⟨c, -, hrest⟩
          · exact absurd (hzwhite 10 (hz' ▸ List.mem_append_left z' hmem)) (by decide)
          · rw [hrest, List.length_append] at hlen
            omega
      · rcases quiet_front x hx before' x' s hx' hline with hquiet | hsame
        · obtain ⟨c, l, rfl, hc⟩ := keyword_initial hkeyword
          rw [← hu, hk] at hquiet
          exact absurd (hquiet c rfl) (by simp [hc])
        · exact .inr (hfound (by rw [hu, hsame, hname]))

/-! ## What the pattern finds in a line -/

variable {C : Pattern UInt8 → Prop}

theorem leads_letter (c : Char) : (letter c).Leads (behindCase c) C := by
  have hplain := leads_sat (C := C) fun b : UInt8 => b = byte c || b = byte c + 32
  unfold letter
  by_cases hc : c = 'S'
  · subst hc
    have hlong := leads_seq (leads_sat (C := fun _ => True) fun b : UInt8 => b = 0xC5)
      (leads_sat (C := C) fun b : UInt8 => b = 0xBF) fun _ _ => trivial
    refine (leads_alt hplain hlong fun s => ?_).congr fun s => ?_
    · cases s with
      | nil => exact .inl rfl
      | cons b s =>
        by_cases hb : b = 0xC5
        · exact .inl (by rw [hb]; rfl)
        · exact .inr (by simp [behindLetter, hb])
    · cases s with
      | nil => rfl
      | cons b s =>
        by_cases hb : b = byte 'S' ∨ b = byte 'S' + 32
        · simp [behindLetter, behindCase, hb]
        · cases s with
          | nil => simp [behindLetter, behindCase, hb]
          | cons d s =>
            by_cases h5 : b = 0xC5
            · subst h5
              simp [behindLetter, behindCase, hb]
            · simp [behindLetter, behindCase, hb, h5]
  · simp only [if_neg hc]
    refine hplain.congr fun s => ?_
    cases s with
    | nil => rfl
    | cons b s => simp [behindCase, behindLetter, hc]

theorem leads_spelled (w : List Char) : (spelled w).Leads (behindSpelled w) C := by
  induction w with
  | nil => exact leads_eps
  | cons c w ih => exact leads_seq (leads_letter (C := fun _ => True) c) ih fun _ _ => trivial

theorem leads_sign (p : List UInt8) :
    (exactly p).Leads (fun s => if p.isPrefixOf s then some (s.drop p.length) else none) C := by
  induction p with
  | nil => exact leads_eps
  | cons b p ih =>
    refine (leads_seq (leads_sat (C := fun _ => True) fun c : UInt8 => c = b) ih fun _ _ => trivial).congr fun s => ?_
    cases s with
    | nil => rfl
    | cons c s =>
      by_cases hc : c = b
      · simp [behindLetter, hc]
      · simp [behindLetter, hc, Ne.symm hc]

theorem leads_some (p : UInt8 → Bool) : (Pattern.many1 p).Leads (behindSome p) (Pattern.StartsOff p) := by
  refine (leads_seq (leads_sat (C := fun _ => True) p) (leads_many p) fun _ _ => trivial).congr fun s => ?_
  cases s with
  | nil => rfl
  | cons c s => cases hc : p c <;> simp [behindSome, behindLetter, hc]

theorem startsOff_spelled {c : Char} {w : List Char} (p : UInt8 → Bool)
    (hc : p (byte c) = false ∧ p (byte c + 32) = false ∧ p 0xC5 = false) : (spelled (c :: w)).StartsOff p := by
  rintro x ⟨y, z, rfl, hy, -⟩
  rcases letter_takes hy with rfl | rfl | ⟨-, rfl⟩
  · exact ⟨_, z, rfl, hc.1⟩
  · exact ⟨_, z, rfl, hc.2.1⟩
  · exact ⟨_, _, rfl, hc.2.2⟩

theorem startsOff_exactly {b : UInt8} {s : Bytes} {p : UInt8 → Bool} (hb : p b = false) :
    (exactly (b :: s)).StartsOff p := fun _ hx => ⟨b, s, exactly_takes hx, hb⟩

theorem behindSpelled_head {c : Char} {w : List Char} {s t : Bytes} (h : behindSpelled (c :: w) s = some t) :
    ∃ b v, s = b :: v ∧ (b = byte c ∨ b = byte c + 32 ∨ c = 'S' ∧ b = 0xC5) := by
  unfold behindSpelled at h
  cases s with
  | nil => cases h
  | cons b v =>
    refine ⟨b, v, rfl, ?_⟩
    unfold behindCase at h
    simp only at h
    by_cases h1 : b = byte c ∨ b = byte c + 32
    · exact h1.elim .inl fun h2 => .inr (.inl h2)
    · by_cases h2 : c = 'S' ∧ b = 0xC5 ∧ v.head? = some 0xBF
      · exact .inr (.inr ⟨h2.1, h2.2.1⟩)
      · rw [if_neg h1, if_neg h2] at h
        cases h

/-- Two words that start with different letters do not stand at one place. -/
theorem behindSpelled_one {c d : Char} {v w : List Char}
    (hcd : ∀ b : UInt8, b = byte c ∨ b = byte c + 32 ∨ c = 'S' ∧ b = 0xC5 →
      ¬ (b = byte d ∨ b = byte d + 32 ∨ d = 'S' ∧ b = 0xC5)) (s : Bytes) :
    behindSpelled (c :: v) s = none ∨ behindSpelled (d :: w) s = none := by
  by_contra hboth
  rw [not_or] at hboth
  obtain ⟨t, ht⟩ := Option.ne_none_iff_exists'.mp hboth.1
  obtain ⟨u, hu⟩ := Option.ne_none_iff_exists'.mp hboth.2
  obtain ⟨b, x, rfl, hb⟩ := behindSpelled_head ht
  obtain ⟨b', x', hx, hb'⟩ := behindSpelled_head hu
  rw [← (List.cons.inj hx).1] at hb'
  exact hcd b hb hb'

theorem leads_keyword : keyword.Leads behindOpening C := by
  have hkind : (Pattern.alt (word "DATABASE") (word "SCHEMA")).Leads
      (fun s => (behindWord "DATABASE" s).or (behindWord "SCHEMA" s)) C := by
    refine leads_alt (leads_spelled _) (leads_spelled _) (behindSpelled_one ?_)
    rintro b (rfl | rfl | ⟨h, -⟩)
    · decide
    · decide
    · exact absurd h (by decide)
  have hoff : ∀ k, (Pattern.seq (.alt (word "DATABASE") (word "SCHEMA")) k).StartsOff white := by
    intro k
    refine startsOff_seq fun x hx => ?_
    rcases hx with hx | hx
    · exact startsOff_spelled white (by decide) x hx
    · exact startsOff_spelled white (by decide) x hx
  have hcreate := leads_seq (leads_spelled (C := fun _ => True) "CREATE".toList)
    (leads_seq (leads_some white) hkind fun k _ => hoff k) fun _ _ => trivial
  refine leads_alt (leads_spelled "USE".toList) hcreate fun s => ?_
  have hone : behindWord "USE" s = none ∨ behindWord "CREATE" s = none := by
    refine behindSpelled_one ?_ s
    rintro b (rfl | rfl | ⟨h, -⟩)
    · decide
    · decide
    · exact absurd h (by decide)
  rcases hone with h | h
  · exact .inl h
  · right
    change (behindWord "CREATE" s).bind _ = none
    rw [h]
    rfl

theorem startsOff_word {c : Char} {w : List Char} {k : Pattern UInt8}
    (hc : white (byte c) = false ∧ white (byte c + 32) = false) :
    (Pattern.seq (spelled (c :: w)) k).StartsOff white :=
  startsOff_seq (startsOff_spelled white ⟨hc.1, hc.2, by decide⟩)

theorem startsOff_whites {k : Pattern UInt8} : (Pattern.seq whites k).StartsOff digit := by
  refine startsOff_seq fun x hx => ?_
  obtain ⟨b, y, rfl, hb⟩ := whites_takes hx
  refine ⟨b, y, rfl, ?_⟩
  have hwhite := hb b List.mem_cons_self
  simp only [white, Bool.or_eq_true, decide_eq_true_eq] at hwhite
  rcases hwhite with (((rfl | rfl) | rfl) | rfl) | rfl <;> rfl

/-- `IF NOT EXISTS` before a pattern. -/
theorem leads_ifNotExists {a : Pattern UInt8} {f : Bytes → Option Bytes} (ha : a.Leads f C) :
    (Pattern.seq (word "IF") (.seq whites (.seq (word "NOT") (.seq whites (.seq (word "EXISTS") a))))).Leads
      (fun s => (behindIfNotExists s).bind f) C := by
  have hexists := leads_seq (leads_spelled (C := fun _ => True) "EXISTS".toList) ha fun _ _ => trivial
  have hnot := leads_seq (leads_spelled (C := fun _ => True) "NOT".toList)
    (leads_seq (leads_some white) hexists fun _ _ => startsOff_seq (startsOff_word (by decide))) fun _ _ => trivial
  have hif := leads_seq (leads_spelled (C := fun _ => True) "IF".toList)
    (leads_seq (leads_some white) hnot fun _ _ => startsOff_seq (startsOff_word (by decide))) fun _ _ => trivial
  refine hif.congr fun s => ?_
  simp only [behindIfNotExists, Option.bind_eq_bind, Option.bind_assoc]
  rfl

theorem leads_clause : ifNotExists.Leads behindClause (Pattern.StartsOff white) := by
  have hclose := leads_seq (leads_sign (C := fun _ => True) (bytes "*/")) (leads_many white) fun _ _ => trivial
  have hend := leads_seq (leads_many white) hclose fun _ _ => startsOff_seq (startsOff_seq (startsOff_exactly (by decide)))
  have hcoded := leads_seq (leads_sign (C := fun _ => True) (bytes "/*!"))
    (leads_seq (leads_some digit) (leads_seq (leads_some white) (leads_ifNotExists hend)
      fun _ _ => startsOff_seq (startsOff_word (by decide))) fun _ _ => startsOff_seq startsOff_whites) fun _ _ => trivial
  refine (leads_alt hcoded (leads_ifNotExists (leads_some white)) fun s => ?_).congr fun s => ?_
  · cases hif : behindWord "IF" s with
    | none =>
      right
      simp [behindIfNotExists, hif]
    | some t =>
      left
      obtain ⟨b, v, rfl, hb⟩ := behindSpelled_head hif
      have hslash : b ≠ byte '/' := by
        rintro rfl
        rcases hb with hb | hb | ⟨hb, -⟩
        · exact absurd hb (by decide)
        · exact absurd hb (by decide)
        · exact absurd hb (by decide)
      have hno : (bytes "/*!").isPrefixOf (b :: v) = false := by
        change (byte '/' == b && _) = false
        rw [beq_eq_false_iff_ne.mpr hslash.symm, Bool.false_and]
      simp [hno]
  · rfl

/-- The name, and a backquote in front of it. -/
theorem head_name (m : Match UInt8) :
    (((Pattern.seq (.opt (sign "`")) (.seq (.cap (.many1 nameByte)) (.opt (sign "`")))).runs m).head?).map Match.group =
      nameAt m.rest := by
  have hname := head_group_eq nameByte (b := sign "`") fun n s hs => exactly_group hs
  obtain ⟨g, s⟩ := m
  generalize hN : (Pattern.seq (.cap (.many1 nameByte)) (.opt (sign "`")) : Pattern UInt8) = N at hname
  have hopt : (Pattern.seq (.opt (sign "`")) N).runs ⟨g, s⟩ =
      (Pattern.seq (sign "`") N).runs ⟨g, s⟩ ++ N.runs ⟨g, s⟩ := by
    simp [Pattern.opt, Pattern.runs, List.flatMap_append]
  have hmark : (Pattern.seq (sign "`") N).runs ⟨g, s⟩ =
      ((if (bytes "`").isPrefixOf s then some (s.drop (bytes "`").length) else none).map
        fun t => N.runs ⟨g, t⟩).getD [] :=
    leads_sign (C := fun _ => True) (bytes "`") N trivial ⟨g, s⟩
  have hquote : (bytes "`").isPrefixOf s = decide (s.head? = some (byte '`')) := by
    cases s with
    | nil => rfl
    | cons c s =>
      change (byte '`' == c && true) = decide (some c = some (byte '`'))
      by_cases hc : c = byte '`' <;> simp [hc, Ne.symm]
  rw [hopt, hmark, hquote, List.head?_append]
  unfold nameAt
  by_cases hs : s.head? = some (byte '`')
  · have hnone : N.runs ⟨g, s⟩ = [] := by
      have hhead := hname ⟨g, s⟩
      rw [if_pos, Option.map_eq_none_iff, List.head?_eq_none_iff] at hhead
      · exact hhead
      · cases s with
        | nil => cases hs
        | cons c s =>
          obtain rfl : c = byte '`' := Option.some.inj hs
          rfl
    simp only [hs, decide_true, if_true, Option.map_some, Option.getD_some, hnone, List.head?_nil, Option.or_none]
    exact hname ⟨g, s.drop 1⟩
  · simp only [hs, decide_false, Bool.false_eq_true, if_false, Option.map_none, Option.getD_none, List.head?_nil,
      Option.none_or]
    exact hname ⟨g, s⟩

theorem startsOff_name : (Pattern.seq (.cap (.many1 nameByte)) (.opt (sign "`")) : Pattern UInt8).StartsOff white := by
  refine startsOff_seq ?_
  rintro x ⟨y, z, rfl, ⟨b, rfl, hb⟩, -⟩
  refine ⟨b, z, rfl, ?_⟩
  simp only [nameByte, Bool.not_eq_true', Bool.or_eq_false_iff] at hb
  exact hb.2

theorem startsOff_keyword : keyword.StartsOff white :=
  startsOff_alt (startsOff_spelled white (by decide)) (startsOff_word (by decide))

theorem startsOff_clause : ifNotExists.StartsOff white :=
  startsOff_alt (startsOff_seq (startsOff_exactly (by decide))) (startsOff_word (by decide))

/-- The pattern finds in a line what the line switches to. -/
theorem first_eq (line : Bytes) : (reUseDB.first line).map Match.group = switched line := by
  have hassoc : ∀ (a b k : Pattern UInt8) m, (Pattern.seq (.seq a b) k).runs m = (Pattern.seq a (.seq b k)).runs m := by
    intro a b k m
    simp only [Pattern.runs, List.flatMap_assoc]
  generalize hN : (Pattern.seq (.cap (.many1 nameByte)) (.opt (sign "`")) : Pattern UInt8) = N
  have hmarked : (Pattern.seq (.opt (sign "`")) N).StartsOff white :=
    startsOff_opt (startsOff_exactly (by decide)) (hN ▸ startsOff_name)
  have hname : ∀ s, (((Pattern.seq (.opt (sign "`")) N).runs ⟨[], s⟩).head?).map Match.group = nameAt s :=
    fun s => hN ▸ head_name ⟨[], s⟩
  have hclause : ∀ s, (((Pattern.seq (.opt ifNotExists) (.seq (.opt (sign "`")) N)).runs ⟨[], s⟩).head?).map Match.group =
      ((behindClause s).bind nameAt).or (nameAt s) := by
    intro s
    have hopt : (Pattern.seq (.opt ifNotExists) (.seq (.opt (sign "`")) N)).runs ⟨[], s⟩ =
        (Pattern.seq ifNotExists (.seq (.opt (sign "`")) N)).runs ⟨[], s⟩ ++
          (Pattern.seq (.opt (sign "`")) N).runs ⟨[], s⟩ := by
      simp [Pattern.opt, Pattern.runs, List.flatMap_append]
    rw [hopt, leads_clause _ hmarked, List.head?_append, ← hname s]
    cases behindClause s with
    | none => simp
    | some t =>
      simp only [Option.map_some, Option.getD_some, Option.bind_some, ← hname t]
      cases ((Pattern.seq (.opt (sign "`")) N).runs ⟨[], t⟩).head? <;> rfl
  have hfront : (Pattern.seq front N).StartsOff white := startsOff_seq (startsOff_seq startsOff_keyword)
  have hrest : (Pattern.seq (.seq (.opt ifNotExists) (.opt (sign "`"))) N).StartsOff white :=
    startsOff_assoc (startsOff_opt startsOff_clause hmarked)
  have hwhole : reUseDB = .seq (.many white) (.seq front N) := by rw [← hN]; rfl
  rw [hwhole, Pattern.first, runs_many_seq hfront]
  simp only [front]
  rw [hassoc, leads_keyword (C := fun _ => True) _ trivial]
  unfold switched
  cases behindOpening (line.dropWhile white) with
  | none => rfl
  | some s =>
    change (((Pattern.seq (.seq whites (.seq (.opt ifNotExists) (.opt (sign "`")))) N).runs ⟨[], s⟩).head?).map
      Match.group = (behindSome white s).bind fun s => ((behindClause s).bind nameAt).or (nameAt s)
    rw [hassoc, whites, leads_some white _ hrest]
    cases behindSome white s with
    | none => rfl
    | some t =>
      change (((Pattern.seq (.seq (.opt ifNotExists) (.opt (sign "`"))) N).runs ⟨[], t⟩).head?).map Match.group = _
      rw [hassoc]
      exact hclause t

/-! ## What `otherDatabase` says -/

/-- The name is the word `USE` or `CREATE`, in any case. -/
def Keyword (name : Bytes) : Prop := behindWord "USE" name = some [] ∨ behindWord "CREATE" name = some []

/-- A line of the head switches to another database, at its start. -/
def OtherLine (text name : Bytes) : Prop :=
  ∃ before line n, text.take headSize = before ++ line ∧ lineStart newline true before = true ∧
    switched line = some n ∧ n ≠ name

theorem behindCase_takes {c : Char} {x : Bytes} (h : (letter c).Takes x) (s : Bytes) : behindCase c (x ++ s) = some s := by
  rcases letter_takes h with rfl | rfl | ⟨rfl, rfl⟩
  · exact if_pos (.inl rfl)
  · exact if_pos (.inr rfl)
  · rfl

theorem behindSpelled_takes {w : List Char} {x : Bytes} (h : (spelled w).Takes x) : behindSpelled w x = some [] := by
  induction w generalizing x with
  | nil => exact congrArg some h
  | cons c w ih =>
    obtain ⟨y, z, rfl, hy, hz⟩ := h
    rw [behindSpelled, behindCase_takes hy, Option.bind_some, ih hz]

theorem Keyed.keyword {k : Bytes} (h : Keyed k) : Keyword k := h.imp behindSpelled_takes behindSpelled_takes

/-- A line that switches is one where the pattern matches. -/
theorem atLine_iff {text n : Bytes} :
    reUseDB.AtLine newline true (text.take headSize) n ↔ ∃ before line, text.take headSize = before ++ line ∧
      lineStart newline true before = true ∧ switched line = some n := by
  constructor
  · rintro ⟨before, line, m, hs, hstart, hm, rfl⟩
    refine ⟨before, line, hs, hstart, ?_⟩
    rw [← first_eq, hm]
    rfl
  · rintro ⟨before, line, hs, hstart, hn⟩
    rw [← first_eq, Option.map_eq_some_iff] at hn
    obtain ⟨m, hm, rfl⟩ := hn
    exact ⟨before, line, m, hs, hstart, hm, rfl⟩

theorem group_ne_nil {start : Bool} {s n : Bytes} (h : reUseDB.AtLine newline start s n) : n ≠ [] := by
  obtain ⟨_, _, m, _, _, hm, rfl⟩ := h
  obtain ⟨_, _, _, _, _, _, _, _, hne, _⟩ := first_parts hm
  exact hne

theorem otherDatabase_eq_nil {text name : Bytes} :
    otherDatabase text name = [] ↔ ∀ n ∈ reUseDB.findAll newline 0 true (text.take headSize), n = name := by
  unfold otherDatabase
  cases hfind : (reUseDB.findAll newline 0 true (text.take headSize)).find? fun n => n ≠ name with
  | none => simpa using hfind
  | some n =>
    have hmem := List.mem_of_find?_eq_some hfind
    have hne : n ≠ name := by simpa using List.find?_some hfind
    constructor
    · intro hnil
      exact absurd hnil (group_ne_nil (findAll_atLine hmem))
    · intro hall
      exact absurd (hall n hmem) hne

theorem otherLine_of_other {text name : Bytes} (h : otherDatabase text name ≠ []) : OtherLine text name := by
  rw [Ne, otherDatabase_eq_nil] at h
  simp only [not_forall] at h
  obtain ⟨n, hmem, hne⟩ := h
  obtain ⟨before, line, hs, hstart, hn⟩ := atLine_iff.mp (findAll_atLine hmem)
  exact ⟨before, line, n, hs, hstart, hn, hne⟩

theorem other_of_otherLine {text name : Bytes} (hname : ¬ Keyword name) (h : OtherLine text name) :
    otherDatabase text name ≠ [] := by
  obtain ⟨before, line, n, hs, hstart, hn, hne⟩ := h
  have hline := atLine_iff.mpr ⟨before, line, hs, hstart, hn⟩
  intro hnil
  rw [otherDatabase_eq_nil] at hnil
  refine hne (@atLine_of_findAll _ _ _ (fun n => n = name) rfl ?_ _ _ _ hnil (fun _ _ _ _ hlen => ?_) _ hline)
  · intro t m hm hgood before u k ht hstart hlen hk
    rcases match_in_match hm ht hstart hlen hk with hsame | hkeyword
    · exact hsame.trans hgood
    · exact absurd (hgood ▸ hkeyword.keyword) hname
  · exact absurd hlen (Nat.not_lt_zero _)

/-- The statement has only white bytes before it on its line, and is written as
a line that switches to `n`. -/
def Plain (text : Bytes) (s : List Token) (n : Bytes) : Prop :=
  ∃ t ∈ s.head?, switched t.here = some n ∧ ∃ before blanks, text.take headSize = before ++ (blanks ++ t.here) ∧
    lineStart newline true before = true ∧ ∀ b ∈ blanks, white b = true

/-- No statement passes when all that name another database are plain. -/
theorem plain_told {d : Dialect} {text name : Bytes} (hname : ¬ Keyword name)
    (h : ∀ s ∈ statements d text, ∀ n, databaseOf s = some n → n ≠ name → Plain text s n)
    (hnil : otherDatabase text name = []) : ∀ s ∈ statements d text, ∀ n, databaseOf s = some n → n = name := by
  intro s hs n hn
  by_contra hne
  obtain ⟨t, -, hswitch, before, blanks, hhead, hstart, hwhite⟩ := h s hs n hn hne
  have hline : switched (blanks ++ t.here) = some n := by
    unfold switched at hswitch ⊢
    rwa [List.dropWhile_append_of_pos hwhite]
  exact other_of_otherLine hname ⟨before, blanks ++ t.here, n, hhead, hstart, hline, hne⟩ hnil

def foreignText : Bytes := bytes "SELECT 1; USE `blog`;"

end icsd_panel.switches

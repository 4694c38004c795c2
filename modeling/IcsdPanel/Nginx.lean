-- The sites of an nginx configuration: `parseNginxConf`, the configurations as
-- trees, the texts that are laid out from them, and what the parser makes of
-- such a text.
import IcsdPanel.Handlers
import IcsdPanel.Texts

open texts

namespace icsd_panel.nginx

/-! ## `parseNginxConf` -/

structure Site where
  names : List Str
  ssl : Bool
  certPath : Str
  root : Str
  proxyPass : Str
deriving DecidableEq, Repr

def Site.empty : Site := ⟨[], false, [], [], []⟩

/-- What the parser keeps while it goes over the text. The stack has its top
first. -/
structure Parser where
  out : List Site
  stack : List Str
  cur : Option Site
  serverDepth : Int
  word : Str
  words : List Str
deriving DecidableEq, Repr

def Parser.start : Parser := ⟨[], [], none, -1, [], []⟩

/-- `flush`: the word is over. -/
def Parser.flush (p : Parser) : Parser :=
  if p.word = [] then p else { p with words := p.words ++ [p.word], word := [] }

def usable (n : Str) : Bool := n ≠ "_".toList && n ≠ "localhost".toList && n ≠ "\"\"".toList

/-- Whether an argument of `listen` stands for TLS. -/
def tlsArg (a : Str) : Bool := a = "ssl".toList || a = "443".toList || ":443".toList.isSuffixOf a

/-- A directive in the current server. `own` when it is in no block of it. -/
def Site.directive (own : Bool) (s : Site) : List Str → Site
  | [] => s
  | name :: args =>
    if name = "server_name".toList then
      if own then { s with names := s.names ++ args.filter usable } else s
    else if name = "ssl_certificate".toList then
      match args with
      | [] => s
      | a :: _ => { s with certPath := a, ssl := true }
    else if name = "listen".toList then { s with ssl := s.ssl || args.any tlsArg }
    else if name = "root".toList then
      match args with
      | [] => s
      | a :: _ => if s.root = [] then { s with root := a } else s
    else if name = "proxy_pass".toList then
      match args with
      | [] => s
      | a :: _ => if s.proxyPass = [] then { s with proxyPass := a } else s
    else s

/-- The end of a directive. -/
def Parser.semi (p : Parser) : Parser :=
  { p with
    cur := p.cur.map fun s => s.directive ((p.stack.length : Int) = p.serverDepth + 1) p.words
    words := [] }

/-- The start of a block. -/
def Parser.open (p : Parser) : Parser :=
  let p := if p.words.head? = some "server".toList ∧ p.cur = none then
    { p with cur := some .empty, serverDepth := p.stack.length } else p
  { p with stack := p.words.head?.getD [] :: p.stack, words := [] }

/-- The end of a block. -/
def Parser.close (p : Parser) : Parser :=
  match p.stack with
  | [] => { p with words := [] }
  | _ :: stack =>
    let p := { p with stack := stack, words := [] }
    match p.cur with
    | some s =>
      if (stack.length : Int) = p.serverDepth then
        { p with out := if s.names = [] then p.out else p.out ++ [s], cur := none, serverDepth := -1 }
      else p
    | none => p

/-- One turn of the loop. -/
def Parser.step (p : Parser) (ch : Char) : Parser :=
  if ch = ' ' ∨ ch = '\t' ∨ ch = '\r' then p.flush
  else if ch = ';' then p.flush.semi
  else if ch = '\x7b' then p.flush.open
  else if ch = '\x7d' then p.flush.close
  else { p with word := p.word ++ [ch] }

/-- The text without what follows a `#` in its line, in one line. -/
def source (text : Str) : Str :=
  [' '].intercalate ((text.splitOn '\n').map fun l => l.takeWhile fun c => c ≠ '#')

def parseNginxConf (text : Str) : List Site := ((source text).foldl Parser.step .start).out

/-! ## Configurations -/

def blank (c : Char) : Bool := c = ' ' || c = '\t' || c = '\r' || c = '\n'

/-- A character that ends a word. -/
def delimiter (c : Char) : Bool := blank c || c = ';' || c = '\x7b' || c = '\x7d'

/-- A word without quotes, backslashes and braces. It does not start with `#`,
but may have one. -/
structure Word where
  text : Str
  ne_nil : text ≠ []
  plain : ∀ c ∈ text, delimiter c = false ∧ c ≠ '"' ∧ c ≠ '\'' ∧ c ≠ '\\'
  head_ne : text.head? ≠ some '#'

inductive Item
  | directive (name : Word) (args : List Word)
  | block (name : Word) (args : List Word) (body : List Item)

inductive Token
  | word (w : Word)
  | semi
  | open
  | close

mutual

def Item.tokens : Item → List Token
  | .directive name args => (name :: args).map .word ++ [.semi]
  | .block name args body => (name :: args).map .word ++ [.open] ++ tokens body ++ [.close]

def tokens : List Item → List Token
  | [] => []
  | i :: is => i.tokens ++ tokens is

end

/-- The texts that are laid out from a list of tokens: blanks and comments
stand between them, and a comment starts where a word could. -/
inductive Layout : List Token → Str → Prop
  | nil : Layout [] []
  | last {body : Str} (h : '\n' ∉ body) : Layout [] ('#' :: body)
  | blank {ts : List Token} {s : Str} {c : Char} (hc : blank c = true) (h : Layout ts s) : Layout ts (c :: s)
  | comment {ts : List Token} {body s : Str} (hbody : '\n' ∉ body) (h : Layout ts s) :
      Layout ts ('#' :: (body ++ '\n' :: s))
  | semi {ts : List Token} {s : Str} (h : Layout ts s) : Layout (.semi :: ts) (';' :: s)
  | open {ts : List Token} {s : Str} (h : Layout ts s) : Layout (.open :: ts) ('\x7b' :: s)
  | close {ts : List Token} {s : Str} (h : Layout ts s) : Layout (.close :: ts) ('\x7d' :: s)
  | word {ts : List Token} {w : Word} {s : Str} (hs : ∀ c ∈ s.head?, delimiter c = true) (h : Layout ts s) :
      Layout (.word w :: ts) (w.text ++ s)

/-! ## The text without its comments -/

/-- `source`, character by character. -/
def uncomment : Bool → Str → Str
  | _, [] => []
  | inside, c :: s =>
    if c = '\n' then ' ' :: uncomment false s
    else if inside || c = '#' then uncomment true s
    else c :: uncomment false s

theorem uncomment_newline (inside : Bool) (s : Str) :
    uncomment inside ('\n' :: s) = ' ' :: uncomment false s := by
  cases inside <;> rfl

theorem uncomment_inside {c : Char} (hc : c ≠ '\n') (s : Str) : uncomment true (c :: s) = uncomment true s := by
  rw [uncomment, if_neg hc]
  rfl

theorem uncomment_hash (s : Str) : uncomment false ('#' :: s) = uncomment true s := rfl

theorem uncomment_plain {c : Char} (hc : c ≠ '\n') (hhash : c ≠ '#') (s : Str) :
    uncomment false (c :: s) = c :: uncomment false s := by
  rw [uncomment, if_neg hc, if_neg (by simpa using hhash)]

theorem intercalate_cons {c : Char} {l : Str} {ls : List Str} :
    [' '].intercalate ((c :: l) :: ls) = c :: [' '].intercalate (l :: ls) := by
  cases ls <;> simp [List.intercalate]

theorem intercalate_nil {l : Str} {ls : List Str} :
    [' '].intercalate ([] :: l :: ls) = ' ' :: [' '].intercalate (l :: ls) := by
  simp [List.intercalate]

/-- The first line of a text with what the comment rule leaves of it. -/
theorem uncomment_lines (text : Str) : ∀ l ls, text.splitOn '\n' = l :: ls →
    uncomment false text = [' '].intercalate ((l :: ls).map fun l => l.takeWhile fun c => c ≠ '#') ∧
    uncomment true text = [' '].intercalate ([] :: ls.map fun l => l.takeWhile fun c => c ≠ '#') := by
  induction text with
  | nil =>
    intro l ls h
    cases h
    exact ⟨rfl, rfl⟩
  | cons c text ih =>
    intro l ls h
    obtain ⟨m, ms, hm⟩ : ∃ m ms, text.splitOn '\n' = m :: ms := by
      cases hs : text.splitOn '\n' with
      | nil => exact absurd hs (List.splitOn_ne_nil '\n' text)
      | cons m ms => exact ⟨m, ms, rfl⟩
    obtain ⟨hfalse, htrue⟩ := ih m ms hm
    by_cases hc : c = '\n'
    · rw [hc, lines.splitOn_self, hm] at h
      cases h
      rw [hc, uncomment_newline, uncomment_newline, hfalse, List.map_cons, List.map_cons, List.takeWhile_nil,
        List.map_cons, intercalate_nil]
      exact ⟨rfl, rfl⟩
    · rw [lines.splitOn_other hc hm] at h
      cases h
      rw [uncomment_inside hc]
      refine ⟨?_, htrue⟩
      by_cases hhash : c = '#'
      · rw [hhash, uncomment_hash, htrue]
        simp
      · rw [uncomment_plain hc hhash, hfalse, List.map_cons, List.map_cons,
          List.takeWhile_cons_of_pos (by simpa using hhash), intercalate_cons]

theorem source_eq (text : Str) : source text = uncomment false text := by
  obtain ⟨l, ls, h⟩ : ∃ l ls, text.splitOn '\n' = l :: ls := by
    cases hs : text.splitOn '\n' with
    | nil => exact absurd hs (List.splitOn_ne_nil '\n' text)
    | cons l ls => exact ⟨l, ls, rfl⟩
  rw [(uncomment_lines text l ls h).1, source, h]

theorem uncomment_comment {body : Str} (h : '\n' ∉ body) (s : Str) :
    uncomment true (body ++ '\n' :: s) = ' ' :: uncomment false s := by
  induction body with
  | nil => exact uncomment_newline true s
  | cons c body ih =>
    rw [List.mem_cons, not_or] at h
    rw [List.cons_append, uncomment_inside (Ne.symm h.1), ih h.2]

theorem uncomment_last {body : Str} (h : '\n' ∉ body) : uncomment true body = [] := by
  induction body with
  | nil => rfl
  | cons c body ih =>
    rw [List.mem_cons, not_or] at h
    rw [uncomment_inside (Ne.symm h.1), ih h.2]

theorem uncomment_word {w s : Str} (h : ∀ c ∈ w, c ≠ '\n' ∧ c ≠ '#') :
    uncomment false (w ++ s) = w ++ uncomment false s := by
  induction w with
  | nil => rfl
  | cons c w ih =>
    obtain ⟨hc, hhash⟩ := h c List.mem_cons_self
    rw [List.cons_append, uncomment_plain hc hhash, ih fun x hx => h x (List.mem_cons_of_mem c hx),
      List.cons_append]

/-! ## From characters to tokens -/

/-- A token, taken at once. -/
def Parser.feed (p : Parser) : Token → Parser
  | .word w => { p with words := p.words ++ [w.text] }
  | .semi => p.semi
  | .open => p.open
  | .close => p.close

variable {p : Parser}

theorem flush_of_nil (h : p.word = []) : p.flush = p := if_pos h

theorem flush_word (p : Parser) : p.flush.word = [] := by
  unfold Parser.flush
  split
  · assumption
  · rfl

@[simp] theorem semi_word : p.semi.word = p.word := rfl

@[simp] theorem open_word : p.open.word = p.word := by
  unfold Parser.open
  split <;> rfl

@[simp] theorem close_word : p.close.word = p.word := by
  unfold Parser.close
  split
  · rfl
  · dsimp only
    split
    · split <;> rfl
    · rfl

theorem step_blank {c : Char} (h : c = ' ' ∨ c = '\t' ∨ c = '\r') : p.step c = p.flush := if_pos h

/-- A character that ends a word ends it first. -/
theorem step_flush {c : Char} (h : delimiter c = true) (hc : c ≠ '\n') : p.flush.step c = p.step c := by
  have hflush : p.flush.flush = p.flush := flush_of_nil (flush_word p)
  have hcases : (c = ' ' ∨ c = '\t' ∨ c = '\r') ∨ c = ';' ∨ c = '\x7b' ∨ c = '\x7d' := by
    simpa [delimiter, blank, hc, or_assoc] using h
  rcases hcases with hb | rfl | rfl | rfl
  · rw [step_blank hb, step_blank hb, hflush]
  · show p.flush.flush.semi = p.flush.semi
    rw [hflush]
  · show p.flush.flush.open = p.flush.open
    rw [hflush]
  · show p.flush.flush.close = p.flush.close
    rw [hflush]

theorem step_letter {c : Char} (h : delimiter c = false) : p.step c = { p with word := p.word ++ [c] } := by
  simp only [delimiter, blank, Bool.or_eq_false_iff, decide_eq_false_iff_not] at h
  obtain ⟨⟨⟨⟨⟨⟨h1, h2⟩, h3⟩, -⟩, h4⟩, h5⟩, h6⟩ := h
  unfold Parser.step
  rw [if_neg (by simp [h1, h2, h3]), if_neg h4, if_neg h5, if_neg h6]

theorem foldl_letters {w : Str} (h : ∀ c ∈ w, delimiter c = false) :
    w.foldl Parser.step p = { p with word := p.word ++ w } := by
  induction w generalizing p with
  | nil => simp
  | cons c w ih =>
    rw [List.foldl_cons, step_letter (h c List.mem_cons_self), ih fun x hx => h x (List.mem_cons_of_mem c hx)]
    simp

/-- The letters of a word and its end make the word. -/
theorem flush_letters (w : Word) (hp : p.word = []) :
    ({ p with word := p.word ++ w.text } : Parser).flush = p.feed (.word w) := by
  obtain ⟨out, stack, cur, depth, word, words⟩ := p
  have hword : word = [] := hp
  subst hword
  exact if_neg w.ne_nil

/-- The end of a word may come before what ends it. -/
theorem foldl_flush {s : Str} (h : ∀ c ∈ s.head?, delimiter c = true) :
    ((uncomment false s).foldl Parser.step p).flush = ((uncomment false s).foldl Parser.step p.flush).flush := by
  cases s with
  | nil =>
    show p.flush = p.flush.flush
    rw [flush_of_nil (flush_word p)]
  | cons c s =>
    have hc := h c rfl
    by_cases hnl : c = '\n'
    · rw [hnl, uncomment_newline, List.foldl_cons, List.foldl_cons, step_flush (c := ' ') rfl (by decide)]
    · have hhash : c ≠ '#' := by
        rintro rfl
        exact absurd hc (by decide)
      rw [uncomment_plain hnl hhash, List.foldl_cons, List.foldl_cons, step_flush hc hnl]

/-- A text laid out from tokens is read as these tokens, when no word has a
`#`. -/
theorem foldl_layout {ts : List Token} {text : Str} (h : Layout ts text)
    (hhash : ∀ w, Token.word w ∈ ts → '#' ∉ w.text) (hp : p.word = []) :
    ((uncomment false text).foldl Parser.step p).flush = ts.foldl Parser.feed p := by
  induction h generalizing p with
  | nil => exact flush_of_nil hp
  | last hbody =>
    rw [uncomment_hash, uncomment_last hbody]
    exact flush_of_nil hp
  | @blank ts s c hc h ih =>
    have hstep : ∀ c, (c = ' ' ∨ c = '\t' ∨ c = '\r') → p.step c = p := fun c hc => by
      rw [step_blank hc, flush_of_nil hp]
    by_cases hnl : c = '\n'
    · rw [hnl, uncomment_newline, List.foldl_cons, hstep ' ' (.inl rfl), ih hhash hp]
    · have hother : c = ' ' ∨ c = '\t' ∨ c = '\r' := by simpa [blank, hnl, or_assoc] using hc
      have hne : c ≠ '#' := by
        rintro rfl
        exact absurd hc (by decide)
      rw [uncomment_plain hnl hne, List.foldl_cons, hstep c hother, ih hhash hp]
  | comment hbody h ih =>
    rw [uncomment_hash, uncomment_comment hbody, List.foldl_cons, step_blank (.inl rfl), flush_of_nil hp,
      ih hhash hp]
  | semi h ih =>
    rw [uncomment_plain (by decide) (by decide), List.foldl_cons, List.foldl_cons,
      ← ih (fun w hw => hhash w (List.mem_cons_of_mem _ hw)) (p := p.feed .semi) (by simpa [Parser.feed] using hp)]
    show ((uncomment false _).foldl Parser.step p.flush.semi).flush = _
    rw [flush_of_nil hp]
    rfl
  | «open» h ih =>
    rw [uncomment_plain (by decide) (by decide), List.foldl_cons, List.foldl_cons,
      ← ih (fun w hw => hhash w (List.mem_cons_of_mem _ hw)) (p := p.feed .open) (by simpa [Parser.feed] using hp)]
    show ((uncomment false _).foldl Parser.step p.flush.open).flush = _
    rw [flush_of_nil hp]
    rfl
  | close h ih =>
    rw [uncomment_plain (by decide) (by decide), List.foldl_cons, List.foldl_cons,
      ← ih (fun w hw => hhash w (List.mem_cons_of_mem _ hw)) (p := p.feed .close) (by simpa [Parser.feed] using hp)]
    show ((uncomment false _).foldl Parser.step p.flush.close).flush = _
    rw [flush_of_nil hp]
    rfl
  | @word ts w s hs h ih =>
    have hplain : ∀ c ∈ w.text, c ≠ '\n' ∧ c ≠ '#' := by
      intro c hc
      refine ⟨?_, ?_⟩
      · rintro rfl
        exact absurd (w.plain _ hc).1 (by decide)
      · rintro rfl
        exact hhash w List.mem_cons_self hc
    rw [uncomment_word hplain, List.foldl_append, foldl_letters fun c hc => (w.plain c hc).1, foldl_flush hs,
      List.foldl_cons, ← ih (fun w hw => hhash w (List.mem_cons_of_mem _ hw)) (p := p.feed (.word w)) hp,
      flush_letters w hp]

/-! ## From tokens to items -/

/-- A block in a server, or one that is no server, only adds to the stack. -/
theorem open_other (h : ¬ (p.words.head? = some "server".toList ∧ p.cur = none)) :
    p.open = { p with stack := p.words.head?.getD [] :: p.stack, words := [] } := by
  unfold Parser.open
  rw [if_neg h]

theorem foldl_feed_words (ws : List Word) :
    (ws.map Token.word).foldl Parser.feed p = { p with words := p.words ++ ws.map Word.text } := by
  induction ws generalizing p with
  | nil => simp
  | cons w ws ih =>
    rw [List.map_cons, List.foldl_cons, ih]
    simp [Parser.feed]

mutual

/-- What an item in a server makes of its site. -/
def Item.fill (own : Bool) (s : Site) : Item → Site
  | .directive name args => s.directive own ((name :: args).map Word.text)
  | .block _ _ body => fill false s body

def fill (own : Bool) (s : Site) : List Item → Site
  | [] => s
  | i :: is => fill own (i.fill own s) is

end

mutual

/-- The sites of the server blocks in an item, as the parser finds them: what
stands in a server block belongs to it. -/
def Item.sites : Item → List Site
  | .directive _ _ => []
  | .block name _ body =>
    if name.text = "server".toList then
      let s := fill true .empty body
      if s.names = [] then [] else [s]
    else sites body

def sites : List Item → List Site
  | [] => []
  | i :: is => i.sites ++ sites is

end

mutual

/-- In a server only its site changes. -/
theorem Item.foldl_inside (i : Item) {out : List Site} {stack : List Str} {s : Site} {depth : Int}
    (h : depth + 1 ≤ stack.length) :
    i.tokens.foldl Parser.feed ⟨out, stack, some s, depth, [], []⟩ =
      ⟨out, stack, some (i.fill ((stack.length : Int) = depth + 1) s), depth, [], []⟩ := by
  match i with
  | .directive name args =>
    rw [Item.tokens, List.foldl_append, foldl_feed_words]
    rfl
  | .block name args body =>
    have hbody := @foldl_inside body out (name.text :: stack) s depth (by rw [List.length_cons]; omega)
    have hown : ¬ (((name.text :: stack).length : Int) = depth + 1) := by
      rw [List.length_cons]
      omega
    have hne : ¬ ((stack.length : Int) = depth) := by omega
    rw [decide_eq_false hown] at hbody
    rw [Item.tokens, List.foldl_append, List.foldl_append, List.foldl_append, foldl_feed_words]
    show [Token.close].foldl Parser.feed ((tokens body).foldl Parser.feed
      (Parser.open ⟨out, stack, some s, depth, [], [] ++ (name :: args).map Word.text⟩)) = _
    have hopen : Parser.open ⟨out, stack, some s, depth, [], [] ++ (name :: args).map Word.text⟩ =
        ⟨out, name.text :: stack, some s, depth, [], []⟩ :=
      open_other fun h => Option.some_ne_none s h.2
    rw [hopen, hbody]
    show Parser.close ⟨out, name.text :: stack, some (fill false s body), depth, [], []⟩ = _
    simp only [Parser.close, if_neg hne]
    rfl

theorem foldl_inside (is : List Item) {out : List Site} {stack : List Str} {s : Site} {depth : Int}
    (h : depth + 1 ≤ stack.length) :
    (tokens is).foldl Parser.feed ⟨out, stack, some s, depth, [], []⟩ =
      ⟨out, stack, some (fill ((stack.length : Int) = depth + 1) s is), depth, [], []⟩ := by
  match is with
  | [] => rfl
  | i :: is =>
    rw [tokens, List.foldl_append, Item.foldl_inside i h, foldl_inside is h]
    rfl

end

mutual

/-- Outside of the servers the parser comes back to where it was, with the
sites that it found. -/
theorem Item.foldl_outside (i : Item) {out : List Site} {stack : List Str} :
    i.tokens.foldl Parser.feed ⟨out, stack, none, -1, [], []⟩ = ⟨out ++ i.sites, stack, none, -1, [], []⟩ := by
  match i with
  | .directive name args =>
    rw [Item.tokens, List.foldl_append, foldl_feed_words, Item.sites, List.append_nil]
    rfl
  | .block name args body =>
    rw [Item.tokens, List.foldl_append, List.foldl_append, List.foldl_append, foldl_feed_words]
    show [Token.close].foldl Parser.feed ((tokens body).foldl Parser.feed
      (Parser.open ⟨out, stack, none, -1, [], [] ++ (name :: args).map Word.text⟩)) = _
    by_cases hname : name.text = "server".toList
    · have hopen : Parser.open ⟨out, stack, none, -1, [], [] ++ (name :: args).map Word.text⟩ =
          ⟨out, name.text :: stack, some .empty, stack.length, [], []⟩ := by
        simp [Parser.open, hname]
      have hbody := @foldl_inside body out (name.text :: stack) .empty stack.length
        (by rw [List.length_cons]; omega)
      rw [decide_eq_true (by rw [List.length_cons]; omega)] at hbody
      rw [hopen, hbody, Item.sites, if_pos hname]
      show Parser.close ⟨out, name.text :: stack, some (fill true .empty body), stack.length, [], []⟩ = _
      simp only [Parser.close, if_true]
      split <;> simp
    · have hopen : Parser.open ⟨out, stack, none, -1, [], [] ++ (name :: args).map Word.text⟩ =
          ⟨out, name.text :: stack, none, -1, [], []⟩ :=
        open_other fun h => hname (Option.some.inj h.1)
      rw [hopen, foldl_outside body, Item.sites, if_neg hname]
      rfl

theorem foldl_outside (is : List Item) {out : List Site} {stack : List Str} :
    (tokens is).foldl Parser.feed ⟨out, stack, none, -1, [], []⟩ = ⟨out ++ sites is, stack, none, -1, [], []⟩ := by
  match is with
  | [] =>
    rw [sites, List.append_nil]
    rfl
  | i :: is =>
    rw [tokens, List.foldl_append, Item.foldl_outside i, foldl_outside is, sites, List.append_assoc]

end

/-- What the parser finds in a text that is laid out from items. -/
theorem parse_layout {is : List Item} {text : Str} (h : Layout (tokens is) text)
    (hhash : ∀ w, Token.word w ∈ tokens is → '#' ∉ w.text) : parseNginxConf text = sites is := by
  have hflush (p : Parser) : p.flush.out = p.out := by
    unfold Parser.flush
    split <;> rfl
  have hrun := foldl_layout h hhash (p := .start) rfl
  have hout := @foldl_outside is [] []
  rw [parseNginxConf, source_eq, ← hflush, hrun]
  exact congrArg Parser.out hout

/-! ## The names of a server -/

/-- The names that an item gives to the server it stands in. -/
def Item.ownNames : Item → List Str
  | .directive name args =>
    if name.text = "server_name".toList then (args.map Word.text).filter usable else []
  | .block _ _ _ => []

def ownNames (body : List Item) : List Str := body.flatMap Item.ownNames

mutual

/-- The bodies of the server blocks, in their order. -/
def Item.servers : Item → List (List Item)
  | .directive _ _ => []
  | .block name _ body => if name.text = "server".toList then body :: servers body else servers body

def servers : List Item → List (List Item)
  | [] => []
  | i :: is => i.servers ++ servers is

end

mutual

/-- The bodies of the server blocks that stand in another one. -/
def Item.nested : Item → List (List Item)
  | .directive _ _ => []
  | .block name _ body => if name.text = "server".toList then servers body else nested body

def nested : List Item → List (List Item)
  | [] => []
  | i :: is => i.nested ++ nested is

end

/-- One list of names for each server that has one. -/
def named (bodies : List (List Item)) : List (List Str) := (bodies.map ownNames).filter fun names => names ≠ []

theorem named_append (as bs : List (List Item)) : named (as ++ bs) = named as ++ named bs := by
  unfold named
  rw [List.map_append, List.filter_append]

theorem named_eq_nil {bodies : List (List Item)} : named bodies = [] ↔ ∀ body ∈ bodies, ownNames body = [] := by
  simp [named, List.filter_eq_nil_iff]

theorem directive_names (own : Bool) (s : Site) (name : Word) (args : List Word) :
    (s.directive own ((name :: args).map Word.text)).names =
      s.names ++ if own then (Item.directive name args).ownNames else [] := by
  rw [List.map_cons]
  unfold Site.directive Item.ownNames
  by_cases hname : name.text = "server_name".toList
  · cases own <;> simp [hname]
  · simp only [if_neg hname]
    cases args <;> repeat' split
    all_goals simp

mutual

/-- A block in a server leaves its names as they are. -/
theorem Item.fill_names_other (i : Item) (s : Site) : (i.fill false s).names = s.names := by
  match i with
  | .directive name args => rw [Item.fill, directive_names, if_neg Bool.false_ne_true, List.append_nil]
  | .block _ _ body => rw [Item.fill, fill_names_other body]

theorem fill_names_other (is : List Item) (s : Site) : (fill false s is).names = s.names := by
  match is with
  | [] => rfl
  | i :: is => rw [fill, fill_names_other is, Item.fill_names_other i]

end

theorem fill_names (is : List Item) (s : Site) : (fill true s is).names = s.names ++ ownNames is := by
  induction is generalizing s with
  | nil => simp [fill, ownNames]
  | cons i is ih =>
    have hi : (i.fill true s).names = s.names ++ i.ownNames := by
      cases i with
      | directive name args => rw [Item.fill, directive_names, if_pos rfl]
      | block name args body =>
        rw [Item.fill, fill_names_other, Item.ownNames, List.append_nil]
    rw [fill, ih, hi, ownNames, ownNames, List.flatMap_cons, List.append_assoc]

mutual

/-- The sites have the names of their servers. What is missing are the servers
in a server. -/
theorem Item.sites_sublist (i : Item) :
    (i.sites.map Site.names).Sublist (named i.servers) ∧
      (named i.servers).length = i.sites.length + (named i.nested).length := by
  match i with
  | .directive name args => exact ⟨List.Sublist.refl _, rfl⟩
  | .block name args body =>
    rw [Item.sites, Item.servers, Item.nested]
    by_cases hname : name.text = "server".toList
    · have hnames : (fill true .empty body).names = ownNames body := fill_names body .empty
      rw [if_pos hname, if_pos hname, if_pos hname, ← List.singleton_append, named_append]
      dsimp only
      rw [hnames]
      by_cases hnil : ownNames body = []
      · have hnone : named [body] = [] := named_eq_nil.mpr (by simpa using hnil)
        rw [if_pos hnil, hnone, List.nil_append]
        exact ⟨List.nil_sublist _, (Nat.zero_add _).symm⟩
      · have hone : named [body] = [ownNames body] := by simp [named, hnil]
        rw [if_neg hnil, hone, List.map_singleton, hnames]
        exact ⟨List.sublist_append_left _ _, List.length_append⟩
    · rw [if_neg hname, if_neg hname, if_neg hname]
      exact sites_sublist body

theorem sites_sublist (is : List Item) :
    ((sites is).map Site.names).Sublist (named (servers is)) ∧
      (named (servers is)).length = (sites is).length + (named (nested is)).length := by
  match is with
  | [] => exact ⟨List.Sublist.refl _, rfl⟩
  | i :: is =>
    obtain ⟨hi, hlen⟩ := Item.sites_sublist i
    obtain ⟨his, hlens⟩ := sites_sublist is
    rw [sites, servers, nested, named_append, named_append, List.map_append]
    refine ⟨hi.append his, ?_⟩
    rw [List.length_append, List.length_append, List.length_append, hlen, hlens]
    omega

end

theorem sites_names (is : List Item) :
    (sites is).map Site.names = named (servers is) ↔ ∀ body ∈ nested is, ownNames body = [] := by
  obtain ⟨hsub, hlen⟩ := sites_sublist is
  rw [← named_eq_nil]
  constructor
  · intro h
    have hsame := congrArg List.length h
    rw [List.length_map] at hsame
    exact List.eq_nil_of_length_eq_zero (by omega)
  · intro h
    rw [h, List.length_nil, Nat.add_zero] at hlen
    exact hsub.eq_of_length (by rw [List.length_map, hlen])

/-- When no word has a `#`, there is one site for each server block with a name
of its own, however the text is laid out, if and only if no server block with a
name stands in another one. -/
theorem sites_listed {items : List Item} {text : Str} (h : Layout (tokens items) text)
    (hhash : ∀ w, Token.word w ∈ tokens items → '#' ∉ w.text) :
    ((parseNginxConf text).map Site.names = named (servers items) ∧
      ∀ other, Layout (tokens items) other → parseNginxConf other = parseNginxConf text) ↔
      ∀ body ∈ nested items, ownNames body = [] := by
  rw [← sites_names, parse_layout h hhash]
  refine and_iff_left ?_
  intro other hother
  exact parse_layout hother hhash

def plainWord (s : Str) (h : (s ≠ [] ∧ s.head? ≠ some '#') ∧
    s.all (fun c => !delimiter c && c ≠ '"' && c ≠ '\'' && c ≠ '\\') = true) : Word where
  text := s
  ne_nil := h.1.1
  plain := fun c hc => by simpa [and_assoc] using List.all_eq_true.mp h.2 c hc
  head_ne := h.1.2

/-- `server{server_name a b;}` -/
def oneServer : List Item :=
  [.block (plainWord "server".toList (by decide)) [] [.directive (plainWord "server_name".toList (by decide))
    [plainWord "a".toList (by decide), plainWord "b".toList (by decide)]]]

/-- A word in front of a delimiter. -/
theorem Layout.delimited {ts : List Token} {w : Word} {c : Char} {s : Str} (hc : delimiter c = true)
    (h : Layout ts (c :: s)) : Layout (.word w :: ts) (w.text ++ c :: s) := by
  refine .word (fun d hd => ?_) h
  rw [List.head?_cons, Option.mem_some_iff] at hd
  rw [← hd, hc]

theorem oneServer_layout : Layout (tokens oneServer) "server\x7bserver_name a b;\x7d".toList :=
  .delimited (w := plainWord "server".toList (by decide)) rfl
    (.open (.delimited (w := plainWord "server_name".toList (by decide)) rfl
      (.blank rfl (.delimited (w := plainWord "a".toList (by decide)) rfl
        (.blank rfl (.delimited (w := plainWord "b".toList (by decide)) rfl (.semi (.close .nil))))))))

theorem one_server : (parseNginxConf "server\x7bserver_name a b;\x7d".toList).map Site.names =
      named (servers oneServer) ∧
    ∀ other, Layout (tokens oneServer) other →
      parseNginxConf other = parseNginxConf "server\x7bserver_name a b;\x7d".toList :=
  (sites_listed oneServer_layout (by
    intro w hw
    have hall : (tokens oneServer).all (fun t => match t with
      | .word w => decide ('#' ∉ w.text)
      | _ => true) = true := by decide
    exact of_decide_eq_true (List.all_eq_true.mp hall (.word w) hw))).mpr (by decide)

/-- `server{root /a#b;server_name x;}` -/
def hashServer : List Item :=
  [.block (plainWord "server".toList (by decide)) []
    [.directive (plainWord "root".toList (by decide)) [plainWord "/a#b".toList (by decide)],
      .directive (plainWord "server_name".toList (by decide)) [plainWord "x".toList (by decide)]]]

theorem hashServer_layout : Layout (tokens hashServer) "server\x7broot /a#b;server_name x;\x7d".toList :=
  .delimited (w := plainWord "server".toList (by decide)) rfl
    (.open (.delimited (w := plainWord "root".toList (by decide)) rfl
      (.blank rfl (.delimited (w := plainWord "/a#b".toList (by decide)) rfl
        (.semi (.delimited (w := plainWord "server_name".toList (by decide)) rfl
          (.blank rfl (.delimited (w := plainWord "x".toList (by decide)) rfl (.semi (.close .nil))))))))))

/-- A `#` in a word cuts its line: the server has lost its name, and its end. -/
theorem name_cut : ¬ ∀ (items : List Item) (text : Str), Layout (tokens items) text →
    (parseNginxConf text).map Site.names = named (servers items) ∧
      ∀ other, Layout (tokens items) other → parseNginxConf other = parseNginxConf text := by
  intro h
  have hsites := (h hashServer _ hashServer_layout).1
  rw [parseNginxConf] at hsites
  revert hsites
  decide

end icsd_panel.nginx

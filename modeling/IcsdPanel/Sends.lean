-- The messages of the alerts: one for each channel that is on and complete, what is
-- told of how it went, and that this never names a token.
import IcsdPanel.Channels
import IcsdPanel.Replacing

open replacing texts

namespace icsd_panel.sends

open channels

/-! ## `send` -/

/-- What comes of the request to a bot: an exception with its text, or an answer. -/
inductive Call
  | raised (text : Str)
  | answered (status : Nat) (ok : Bool) (description : Str)

/-- `_bot`: nothing, or the text of what it raises. -/
def bot : Call → Option Str
  | .raised text => some text
  | .answered status ok description =>
    if status = 200 ∧ ok = true then none
    else some (if description ≠ [] then description else "HTTP ".toList ++ (toString status).toList)

def stars : Str := ['*', '*', '*']

/-- `SECRET_KEYS`, as far as they are set. -/
def tokens (cfg : Config) : List Str := ([Channel.telegram, .bale].map fun ch => (cfg ch).token).filter (· ≠ [])

/-- The text without the tokens. -/
def masked (cfg : Config) (text : Str) : Str := (tokens cfg).foldl (fun err tok => replace tok stars err) text

structure Result where
  channel : Channel
  ok : Bool
  error : Str

/-- A row of `notify_log`. -/
structure Row where
  ts : Int
  channel : Channel
  ok : Bool
  error : Str

def resultOf (cfg : Config) (calls : Channel → Call) (job : Job) : Result :=
  let err := masked cfg ((bot (calls job.ch)).getD [])
  ⟨job.ch, err = [], err⟩

/-- `send`, from how the requests went: the results, and the rows. -/
def send (cfg : Config) (calls : Channel → Call) (clock : Channel → Int) : List Result × List Row :=
  let results := (jobs cfg).map (resultOf cfg calls)
  (results, results.map fun r => ⟨clock r.channel, r.channel, r.ok, r.error.take 300⟩)

/-! ## Tokens -/

variable {cfg : Config} {tok text : Str} {toks : List Str} {ch : Channel}

theorem apart_stars (h : '*' ∉ tok) : Apart tok stars := by
  intro c hc hmem
  have hstar : c = '*' := by simpa [stars] using hmem
  exact h (hstar ▸ hc)

/-- A text that a token is not in stays without it. -/
theorem mask_keeps (hstar : '*' ∉ tok) (htok : tok ≠ []) (h : ¬ tok <:+: text) :
    ¬ tok <:+: toks.foldl (fun err tok => replace tok stars err) text := by
  induction toks generalizing text with
  | nil => exact h
  | cons other toks ih =>
    refine ih fun hinfix => h ?_
    exact infix_replaceFrom (apart_stars hstar) (List.cons_ne_nil _ _) htok hinfix

theorem mask_removes (hstar : '*' ∉ tok) (htok : tok ≠ []) (hmem : tok ∈ toks) :
    ¬ tok <:+: toks.foldl (fun err tok => replace tok stars err) text := by
  induction toks generalizing text with
  | nil => cases hmem
  | cons other toks ih =>
    rw [List.foldl_cons]
    rcases List.mem_cons.mp hmem with rfl | hmem
    · exact mask_keeps hstar htok (not_infix_replaceFrom (apart_stars hstar) (List.cons_ne_nil _ _) htok)
    · exact ih hmem

theorem token_mem (htok : (cfg ch).token ≠ []) : (cfg ch).token ∈ tokens cfg := by
  refine List.mem_filter.mpr ⟨List.mem_map.mpr ⟨ch, ?_, rfl⟩, by simpa using htok⟩
  cases ch <;> simp

theorem masked_eq_nil : masked cfg text = [] ↔ text = [] := by
  have hstars : stars ≠ [] := List.cons_ne_nil _ _
  unfold masked
  induction tokens cfg generalizing text with
  | nil => rfl
  | cons tok toks ih => exact ih.trans (replace_eq_nil hstars)

/-- A message goes to each channel that is on and complete, and each is told of once, in
order. It counts as sent when the bot took it or the exception has no text. What is told
and logged never has a stored token in it, of whichever channel, as long as the token
has no star. -/
theorem send_told (cfg : Config) (calls : Channel → Call) (clock : Channel → Int) :
    (send cfg calls clock).1.map Result.channel = (jobs cfg).map Job.ch ∧
      (∀ r ∈ (send cfg calls clock).1, r.ok = true ↔
        bot (calls r.channel) = none ∨ bot (calls r.channel) = some []) ∧
      (send cfg calls clock).2 = (send cfg calls clock).1.map (fun r => ⟨clock r.channel, r.channel, r.ok, r.error.take 300⟩) ∧
      ∀ ch, (cfg ch).token ≠ [] → '*' ∉ (cfg ch).token →
        (∀ r ∈ (send cfg calls clock).1, ¬ (cfg ch).token <:+: r.error) ∧
          ∀ row ∈ (send cfg calls clock).2, ¬ (cfg ch).token <:+: row.error := by
  have hclean (ch : Channel) (htok : (cfg ch).token ≠ []) (hstar : '*' ∉ (cfg ch).token) :
      ∀ r ∈ (send cfg calls clock).1, ¬ (cfg ch).token <:+: r.error := by
    intro r hr
    obtain ⟨job, -, rfl⟩ := List.mem_map.mp hr
    exact mask_removes hstar htok (token_mem htok)
  refine ⟨?_, fun r hr => ?_, rfl, fun ch htok hstar => ⟨hclean ch htok hstar, fun row hrow => ?_⟩⟩
  · simp [send, resultOf, List.map_map, Function.comp_def]
  · obtain ⟨job, -, rfl⟩ := List.mem_map.mp hr
    simp only [resultOf, decide_eq_true_eq, masked_eq_nil]
    cases bot (calls job.ch) with
    | none => simp
    | some text => simp
  · obtain ⟨r, hr, rfl⟩ := List.mem_map.mp hrow
    exact fun h => hclean ch htok hstar r hr (h.trans (List.take_prefix 300 r.error).isInfix)

end icsd_panel.sends

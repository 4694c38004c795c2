-- The interval of the samples: what the reader of a session hands to the
-- sampler through a channel with one place, and when the sampler has it.
import IcsdPanel.Runs

open runs

namespace icsd_panel.tickers

/-! ## The reader and the sampler -/

/-- Where the sampler is. `resetting d` is between the receive of `d` and
`t.Reset(d)`. -/
inductive Sampler
  | priming
  | waiting
  | resetting (d : Int)
  | sampling
deriving DecidableEq, Repr

/-- What both share, and the ticker. Times are in seconds. -/
structure Agent where
  interval : Int
  reset : Option Int
  period : Int
  sampler : Sampler
deriving DecidableEq, Repr

/-- A turn of one of them. A message is one turn of the reader: between the
record of the interval and the send nobody else looks at the interval. -/
inductive Turn
  | session
  | cfg (interval : Int)
  | other
  | primed
  | receive
  | reset
  | tick
  | sampled
deriving DecidableEq, Repr

/-- `New`, and the start of `sampler`. -/
def new (interval : Int) : Agent := ⟨interval, none, interval, .priming⟩

def valid (n : Int) : Bool := 2 ≤ n && n ≤ 300

/-- `a.reset <- d`, unless the place is taken. -/
def send (s : Agent) (d : Int) : Option Int :=
  match s.reset with
  | none => some d
  | some old => some old

/-- The reader's `case "cfg"`. -/
def onCfg (s : Agent) (n : Int) : Agent :=
  if valid n = true ∧ n ≠ s.interval then { s with interval := n, reset := send s n } else s

/-- A turn. One that cannot be taken changes nothing. -/
def step (s : Agent) : Turn → Agent
  | .session => s
  | .cfg n => onCfg s n
  | .other => s
  | .primed => if s.sampler = .priming then { s with sampler := .waiting } else s
  | .receive =>
    match s.sampler, s.reset with
    | .waiting, some d => { s with sampler := .resetting d, reset := none }
    | _, _ => s
  | .reset =>
    match s.sampler with
    | .resetting d => { s with sampler := .waiting, period := d }
    | _ => s
  | .tick => if s.sampler = .waiting then { s with sampler := .sampling } else s
  | .sampled => if s.sampler = .sampling then { s with sampler := .waiting } else s

/-- The interval of the last valid message, or the one of the start. -/
def lastValid (n : Int) : List Turn → Int
  | [] => n
  | .cfg m :: ts => lastValid (if valid m then m else n) ts
  | _ :: ts => lastValid n ts

/-! ## Agreement -/

/-- When nothing is under way, the ticker has the recorded interval. -/
def Agreed (s : Agent) : Prop := s.reset = none → s.sampler = .waiting → s.period = s.interval

/-- A new interval finds the place of the channel free. -/
def Heard (s : Agent) (t : Turn) : Prop :=
  ∀ n, t = .cfg n → valid n = true → n ≠ s.interval → s.reset = none

/-- The recorded interval is on its way to the ticker, or there. -/
def Carried (s : Agent) : Prop :=
  match s.reset, s.sampler with
  | some d, _ => d = s.interval
  | none, .resetting d => d = s.interval
  | none, _ => s.period = s.interval

theorem Carried.agreed {s : Agent} (h : Carried s) : Agreed s := by
  intro hreset hwait
  simpa [Carried, hreset, hwait] using h

theorem carried_new (n : Int) : Carried (new n) := rfl

theorem carried_cfg {s : Agent} {n : Int} (h : Carried s) (hheard : Heard s (.cfg n)) : Carried (onCfg s n) := by
  unfold onCfg
  split
  · rename_i hnew
    have hfree := hheard n rfl hnew.1 hnew.2
    simp [Carried, send, hfree]
  · exact h

theorem carried_step {s : Agent} {t : Turn} (h : Carried s) (hheard : Heard s t) : Carried (step s t) := by
  obtain ⟨interval, reset, period, sampler⟩ := s
  cases t with
  | session => exact h
  | cfg n => exact carried_cfg h hheard
  | other => exact h
  | primed | receive | reset | tick | sampled => cases sampler <;> cases reset <;> exact h

/-- The reader records the interval of each valid message. -/
theorem step_interval (s : Agent) (t : Turn) : (step s t).interval = lastValid s.interval [t] := by
  obtain ⟨interval, reset, period, sampler⟩ := s
  cases t with
  | cfg n =>
    simp only [step, onCfg, lastValid]
    by_cases hv : valid n = true
    · by_cases hn : n = interval <;> simp [hv, hn]
    · simp [hv]
  | session => rfl
  | other => rfl
  | primed | receive | reset | tick | sampled => cases sampler <;> cases reset <;> rfl

theorem lastValid_cons (n : Int) (t : Turn) (ts : List Turn) :
    lastValid n (t :: ts) = lastValid (lastValid n [t]) ts := by
  cases t <;> rfl

theorem final_interval (s : Agent) (ts : List Turn) : (final step s ts).interval = lastValid s.interval ts := by
  induction ts generalizing s with
  | nil => rfl
  | cons t ts ih => rw [final, ih, step_interval, ← lastValid_cons]

/-- While each new interval finds the place of the channel free, the sampler
that waits with nothing to receive has the interval of the last valid
message. -/
theorem interval_agreed (n : Int) (ts : List Turn) (h : Throughout step Heard (new n) ts) :
    Throughout step (fun s _ => Agreed s) (new n) ts ∧ Agreed (final step (new n) ts) ∧
      (final step (new n) ts).interval = lastValid n ts := by
  obtain ⟨hall, hlast⟩ := throughout_of_invariant (I := Carried) (Q := fun s _ => Agreed s)
    (fun s t hs ht => ⟨carried_step hs ht, hs.agreed⟩) (carried_new n) h
  exact ⟨hall, hlast.agreed, final_interval (new n) ts⟩

instance (s : Agent) (t : Turn) : Decidable (Heard s t) :=
  match t with
  | .cfg n => decidable_of_iff (valid n = true → n ≠ s.interval → s.reset = none)
      ⟨fun h m hm => by cases hm; exact h, fun h => h n rfl⟩
  | .session | .other | .primed | .receive | .reset | .tick | .sampled => .isTrue fun _ h => by cases h

/-- Two changes, the second during a sample. -/
def calmTurns : List Turn :=
  [.session, .primed, .cfg 10, .receive, .reset, .tick, .session, .cfg 20, .sampled, .receive, .reset]

theorem calm_agreed : Agreed (final step (new 5) calmTurns) ∧ lastValid 5 calmTurns = 20 := by
  obtain ⟨-, hagreed, -⟩ := interval_agreed 5 calmTurns (by decide)
  exact ⟨hagreed, by decide⟩

/-- A change that finds the place taken is lost. -/
theorem change_lost : ¬ ∀ n ts, Agreed (final step (new n) ts) := by
  intro h
  have hlost := h 5 [.session, .primed, .tick, .cfg 10, .cfg 20, .sampled, .receive, .reset] (by decide) (by decide)
  exact absurd hlost (by decide)

end icsd_panel.tickers

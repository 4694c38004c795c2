-- The hub waits for a job of an agent: it asks every few seconds until the job has
-- ended, while the connection to the agent comes and goes.
import IcsdPanel.Registry
import IcsdPanel.Replies

open texts

namespace icsd_panel.polls

open registry

variable {ρ : Type}

/-! ## The loop -/

/-- What a turn of the loop meets: the time is over, an answer, or an `RPCError`. -/
inductive Turn (ρ : Type)
  | late
  | answered (j : Job ρ)
  | failed (status : Nat) (message : Str)

/-- How `wait_job` ended, or the misses after which it still waits. -/
inductive Wait (ρ : Type)
  | waiting (misses : Nat)
  | returned (j : Job ρ)
  | raised (status : Nat) (message : Str)

def maxMisses : Nat := 40

/-- `wait_job`, turn by turn. -/
def waitJob (misses : Nat) : List (Turn ρ) → Wait ρ
  | [] => .waiting misses
  | .late :: _ => .raised 504 "کار بیش از حد طول کشید".toList
  | .answered j :: turns => if j.state ≠ .running then .returned j else waitJob 0 turns
  | .failed status message :: turns =>
    -- the agent connects again: about two minutes of patience
    if (status = 503 ∨ status = 504) ∧ misses < maxMisses then waitJob (misses + 1) turns
    else .raised status message

/-- A miss: the agent is away for now. -/
def Turn.Miss : Turn ρ → Prop
  | .failed status _ => status = 503 ∨ status = 504
  | _ => False

/-- The job runs still. -/
def Turn.Running : Turn ρ → Prop
  | .answered j => j.state = .running
  | _ => False

/-- After `n` misses in a row there are never more than forty. -/
def Patient (n : Nat) (turns : List (Turn ρ)) : Prop :=
  ∀ before misses after, turns = before ++ misses ++ after → (∀ t ∈ misses, t.Miss) →
    (if before = [] then n else 0) + misses.length ≤ maxMisses

variable {turns turns' : List (Turn ρ)} {t : Turn ρ} {j : Job ρ} {n : Nat} {id : Str}

theorem patient_nil (h : n ≤ maxMisses) : Patient n ([] : List (Turn ρ)) := by
  rintro before misses after heq -
  have hnil : before ++ misses = [] := (List.append_eq_nil_iff.mp heq.symm).1
  obtain ⟨rfl, rfl⟩ := List.append_eq_nil_iff.mp hnil
  simpa using h

theorem Patient.le (h : Patient n turns) : n ≤ maxMisses := by
  simpa using h [] [] turns rfl (by simp)

/-- A turn that is no miss ends a row of them. -/
theorem patient_cons_running (ht : ¬ t.Miss) (hn : n ≤ maxMisses) : Patient n (t :: turns) ↔ Patient 0 turns := by
  constructor
  · intro h before misses after heq hmiss
    have := h (t :: before) misses after (by rw [heq]; simp) hmiss
    split <;> simpa using this
  · intro h before misses after heq hmiss
    cases before with
    | nil =>
      cases misses with
      | nil => simpa using hn
      | cons x misses =>
        obtain ⟨rfl, -⟩ := List.cons.inj heq
        exact absurd (hmiss t List.mem_cons_self) ht
    | cons x before =>
      obtain ⟨rfl, htail⟩ := List.cons.inj heq
      have := h before misses after htail hmiss
      split at this <;> simpa using this

theorem patient_cons_miss (ht : t.Miss) : Patient n (t :: turns) ↔ Patient (n + 1) turns := by
  constructor
  · intro h before misses after heq hmiss
    cases before with
    | nil =>
      have := h [] (t :: misses) after (by rw [heq]; simp) (by simpa using ⟨ht, hmiss⟩)
      simp only [if_true, List.length_cons] at this ⊢
      omega
    | cons x before =>
      have := h (t :: x :: before) misses after (by rw [heq]; simp) hmiss
      simpa using this
  · intro h before misses after heq hmiss
    cases before with
    | nil =>
      cases misses with
      | nil =>
        have := h.le
        simp only [if_true, List.length_nil]
        omega
      | cons x misses =>
        obtain ⟨-, htail⟩ := List.cons.inj heq
        have := h [] misses after htail fun y hy => hmiss y (List.mem_cons_of_mem x hy)
        simp only [if_true, List.length_cons] at this ⊢
        omega
    | cons x before =>
      obtain ⟨-, htail⟩ := List.cons.inj heq
      have := h before misses after htail hmiss
      simp only [reduceCtorEq, if_false, Nat.zero_add]
      split at this <;> omega

/-- The loop goes on after turns of which each is a miss or an answer that the job
runs, with never more than forty misses in a row. -/
theorem waitJob_append (hgo : ∀ t ∈ turns, t.Miss ∨ t.Running) (hp : Patient n turns) (turns' : List (Turn ρ)) :
    ∃ misses, misses ≤ maxMisses ∧ waitJob n (turns ++ turns') = waitJob misses turns' := by
  induction turns generalizing n with
  | nil => exact ⟨n, hp.le, rfl⟩
  | cons t turns ih =>
    have hrest : ∀ t ∈ turns, t.Miss ∨ t.Running := fun x hx => hgo x (List.mem_cons_of_mem t hx)
    cases t with
    | late => simpa [Turn.Miss, Turn.Running] using hgo .late
    | answered j =>
      have hrun : j.state = .running := by simpa [Turn.Miss, Turn.Running] using hgo (.answered j)
      have hp' := (patient_cons_running (by simp [Turn.Miss]) hp.le).mp hp
      simpa [waitJob, hrun] using ih hrest hp'
    | failed status message =>
      have hmiss : status = 503 ∨ status = 504 := by
        simpa [Turn.Miss, Turn.Running] using hgo (.failed status message)
      have hp' := (patient_cons_miss (t := .failed status message) hmiss).mp hp
      have hlt : n < maxMisses := hp'.le
      simpa [waitJob, hmiss, hlt] using ih hrest hp'

/-- `wait_job` returns a job exactly when this is the first answer of an end, every turn
before it was a miss or an answer that the job runs, and the agent was never away for
more than forty turns in a row. -/
theorem returned_iff (hn : n ≤ maxMisses) : waitJob n turns = .returned j ↔
    ∃ before after, turns = before ++ .answered j :: after ∧ j.state ≠ .running ∧
      (∀ t ∈ before, t.Miss ∨ t.Running) ∧ Patient n before := by
  constructor
  · intro h
    induction turns generalizing n with
    | nil => cases h
    | cons t turns ih =>
      cases t with
      | late => cases h
      | answered j' =>
        rw [waitJob] at h
        split at h
        next hend =>
          cases h
          exact ⟨[], turns, rfl, hend, by simp, patient_nil hn⟩
        next hrun =>
          obtain ⟨before, after, rfl, hend, hgo, hp⟩ := ih (Nat.zero_le _) h
          have hrun' : (Turn.answered j').Running := not_not.mp hrun
          refine ⟨.answered j' :: before, after, rfl, hend, ?_, ?_⟩
          · simpa using ⟨.inr hrun', hgo⟩
          · exact (patient_cons_running (by simp [Turn.Miss]) hn).mpr hp
      | failed status message =>
        rw [waitJob] at h
        split at h
        next hmiss =>
          obtain ⟨before, after, rfl, hend, hgo, hp⟩ := ih hmiss.2 h
          have hmiss' : (Turn.failed (ρ := ρ) status message).Miss := hmiss.1
          refine ⟨.failed status message :: before, after, rfl, hend, ?_, ?_⟩
          · simpa using ⟨.inl hmiss', hgo⟩
          · exact (patient_cons_miss hmiss').mpr hp
        next => cases h
  · rintro ⟨before, after, rfl, hend, hgo, hp⟩
    obtain ⟨misses, -, heq⟩ := waitJob_append hgo hp (.answered j :: after)
    rw [heq, waitJob, if_pos hend]

def runningJob : Job Unit := ⟨['a'], ['k'], [], .running, 100, 0, [], [], none⟩

/-- The agent is away for one turn, then its job runs, then it has ended. -/
theorem returned_after_miss : ∃ before after,
    [.failed 503 [], .answered runningJob, .answered endedJob] = before ++ .answered endedJob :: after ∧
      endedJob.state ≠ .running ∧ (∀ t ∈ before, t.Miss ∨ t.Running) ∧ Patient 0 before :=
  (returned_iff (Nat.zero_le _)).mp rfl

/-! ## The hub and the agent -/

/-- How a call fails without an answer of the agent. -/
inductive Fault
  | away | cut | monitor | slow
deriving DecidableEq

/-- The `RPCError` of a fault: its status and its text. -/
def Fault.error : Fault → Nat × String
  | .away => (503, "این سرور الان به پنل وصل نیست")
  | .cut => (503, "ارتباط با agent قطع شد")
  | .monitor => (409, "این سرور در حالت «فقط مانیتورینگ» است؛ برای مدیریت، agent را با --upgrade نصب کنید")
  | .slow => (504, "agent در زمان مقرر پاسخ نداد")

/-- What the agent may answer in place of what `jobStatus` gives: all its slots are taken,
its handler panics, or it only monitors by now. -/
inductive Refusal
  | busy
  | panicked (p : String)
  | monitoring

/-- The text of the error in the answer. -/
def Refusal.error : Refusal → String
  | .busy => replies.busy
  | .panicked p => (replies.Outcome.reply "" (.panicked p)).error
  | .monitoring => (replies.Outcome.reply "" (handlers.handle none "job.status" "{}")).error

/-- Where a call of the hub is: its request on the way, or the answer on the way back. -/
inductive Line (ρ : Type)
  | asked
  | answer (r : Except String (Job ρ))

/-- The agent, the turns of the loop so far, and the call of the present one. -/
structure Net (ρ : Type) where
  agent : Runner ρ
  turns : List (Turn ρ)
  call : Option (Line ρ)

/-- The hub begins to wait, when the agent has made some moves. -/
def begin (ms : List (registry.Move ρ)) : Net ρ := ⟨runs.final registry.step registry.start ms, [], none⟩

/-- The agent goes on, the loop begins a turn, in time or late, and the call of the turn
is carried out, answered or given up. -/
inductive Move (ρ : Type)
  | agent (m : registry.Move ρ)
  | ask (late : Bool)
  | serve
  | refuse (f : Refusal)
  | hear
  | fail (f : Fault)

/-- What the loop makes of an answer. -/
def heard : Except String (Job ρ) → Turn ρ
  | .ok j => .answered j
  | .error msg => .failed 400 (msg.toList.take 1000)

def Net.endTurn (t : Turn ρ) (h : Net ρ) : Net ρ := { h with turns := h.turns ++ [t], call := none }

def Net.waits (h : Net ρ) : Bool :=
  match waitJob 0 h.turns with
  | .waiting _ => true
  | _ => false

/-- One move, when the hub waits for the job `id`. -/
def step (id : Str) (h : Net ρ) : Move ρ → Net ρ
  | .agent m => { h with agent := registry.step h.agent m }
  | .ask late =>
    if h.waits ∧ h.call.isNone then if late then h.endTurn .late else { h with call := some .asked } else h
  | .serve =>
    match h.call with
    | some .asked => { h with call := some (.answer (h.agent.jobStatus id)) }
    | _ => h
  | .refuse f =>
    match h.call with
    | some .asked => { h with call := some (.answer (.error f.error)) }
    | _ => h
  | .hear =>
    match h.call with
    | some (.answer r) => h.endTurn (heard r)
    | _ => h
  | .fail f => if h.call.isSome then h.endTurn (.failed f.error.1 f.error.2.toList) else h

/-- What is said of the job is its own, and an end that is said is the job as the agent
has it. -/
def Told (id : Str) (r : Runner ρ) (j : Job ρ) : Prop :=
  j.id = id ∧ (j.state ≠ .running → ∃ p : Nat, r.all[p]? = some j)

/-- All that the hub was told, or will be. -/
structure Honest (id : Str) (h : Net ρ) : Prop where
  placed : Placed h.agent
  turns : ∀ j, .answered j ∈ h.turns → Told id h.agent j
  answer : ∀ j, h.call = some (.answer (.ok j)) → Told id h.agent j

variable {h : Net ρ} {r : Runner ρ} {ms0 : List (registry.Move ρ)} {ms : List (Move ρ)}

theorem Told.step (ht : Told id r j) (m : registry.Move ρ) : Told id (registry.step r m) j := by
  refine ⟨ht.1, fun hend => ?_⟩
  obtain ⟨p, hp⟩ := ht.2 hend
  refine ⟨p, ?_⟩
  rw [step_get hp, after_ended hend]

theorem told_status (hp : Placed r) (hj : r.jobStatus id = .ok j) : Told id r j := by
  unfold Runner.jobStatus at hj
  split at hj
  next => cases hj
  next j' hget =>
    cases hj
    obtain ⟨p, hid, hat⟩ := Option.bind_eq_some_iff.mp hget
    obtain ⟨j', hj', hsame⟩ := hp id p hid
    rw [hat] at hj'
    cases hj'
    exact ⟨hsame, fun _ => ⟨p, hat⟩⟩

/-- A turn ends with what the hub was told, or with nothing about the job. -/
theorem Honest.endTurn (hh : Honest id h) (ht : ∀ j, t = .answered j → Told id h.agent j) :
    Honest id (h.endTurn t) where
  placed := hh.placed
  turns j hj := by
    rcases List.mem_append.mp hj with hj | hj
    · exact hh.turns j hj
    · exact ht j (List.mem_singleton.mp hj).symm
  answer j hj := by cases hj

theorem honest_begin : Honest id (begin ms0) where
  placed := runs.final_invariant (P := fun _ => True) (fun _ _ h _ => placed_step h) placed_start fun _ _ => trivial
  turns j hj := by simp [begin] at hj
  answer j hj := by cases hj

theorem honest_step (hh : Honest id h) (m : Move ρ) : Honest id (step id h m) := by
  cases m with
  | agent m =>
    refine ⟨placed_step hh.placed, fun j hj => ?_, fun j hj => ?_⟩
    · exact (hh.turns j hj).step m
    · exact (hh.answer j hj).step m
  | ask late =>
    simp only [step]
    split
    · split
      · exact hh.endTurn fun j hj => by cases hj
      · exact ⟨hh.placed, hh.turns, fun j hj => by cases hj⟩
    · exact hh
  | serve =>
    simp only [step]
    split
    · refine ⟨hh.placed, hh.turns, fun j hj => ?_⟩
      simp only [Option.some.injEq, Line.answer.injEq] at hj
      exact told_status hh.placed hj
    · exact hh
  | refuse f =>
    simp only [step]
    split
    · exact ⟨hh.placed, hh.turns, fun j hj => by cases hj⟩
    · exact hh
  | hear =>
    simp only [step]
    split
    next r hr =>
      refine hh.endTurn fun j hj => ?_
      cases r with
      | error msg => cases hj
      | ok j' =>
        cases hj
        exact hh.answer j hr
    · exact hh
  | fail f =>
    simp only [step]
    split
    · exact hh.endTurn fun j hj => by cases hj
    · exact hh

theorem honest_run : Honest id (runs.final (step id) (begin ms0) ms) :=
  runs.final_invariant (P := fun _ => True) (fun _ m hh _ => honest_step hh m) honest_begin fun _ _ => trivial

/-- What the agent has of an ended job stays, whatever the hub and the agent do. -/
theorem kept_step {p : Nat} (hp : h.agent.all[p]? = some j) (hend : j.state ≠ .running) (m : Move ρ) :
    (step id h m).agent.all[p]? = some j := by
  cases m with
  | agent m =>
    change (registry.step h.agent m).all[p]? = some j
    rw [step_get hp, after_ended hend]
  | ask late =>
    simp only [step]
    split
    · split <;> exact hp
    · exact hp
  | serve =>
    simp only [step]
    split <;> exact hp
  | refuse f =>
    simp only [step]
    split <;> exact hp
  | hear =>
    simp only [step]
    split <;> exact hp
  | fail f =>
    simp only [step]
    split <;> exact hp

/-- The turn that ends the loop. -/
theorem returned_mem (h : waitJob n turns = .returned j) : .answered j ∈ turns ∧ j.state ≠ .running := by
  induction turns generalizing n with
  | nil => cases h
  | cons t turns ih =>
    cases t with
    | late => cases h
    | answered j' =>
      rw [waitJob] at h
      split at h
      next hend =>
        cases h
        exact ⟨List.mem_cons_self, hend⟩
      next => exact (ih h).imp_left (List.mem_cons_of_mem _)
    | failed status message =>
      rw [waitJob] at h
      split at h
      · exact (ih h).imp_left (List.mem_cons_of_mem _)
      · cases h

/-- A call fails, and the next one is answered. -/
def askTwice : List (Move Unit) := [.ask false, .serve, .fail .cut, .ask false, .serve, .hear]

/-- What `jobStatus` says of a job that it does not find. -/
def unknownJob : String := "کار پیدا نشد (شاید agent دوباره راه‌اندازی شده)"

theorem refusal_ne (f : Refusal) : f.error ≠ unknownJob := by
  cases f with
  | busy => decide
  | monitoring => decide
  | panicked p =>
    intro heq
    have hfirst := congrArg (fun s : String => s.toList.head?) heq
    simp only [Refusal.error, replies.Outcome.reply, String.toList_append] at hfirst
    revert hfirst
    simp [unknownJob]

/-- The hub cuts a text, but not this one. -/
theorem unknown_of_take {msg : String} (h : msg.toList.take 1000 = unknownJob.toList) : msg = unknownJob := by
  have hshort : (msg.toList.take 1000).length < 1000 := by
    rw [h]
    decide
  have hlen : msg.toList.length ≤ 1000 := by
    rw [List.length_take] at hshort
    omega
  rw [List.take_of_length_le hlen] at h
  exact String.toList_injective h

/-- The moves of the agent in a run. -/
def agentMoves (ms : List (Move ρ)) : List (registry.Move ρ) :=
  ms.filterMap fun m => match m with
    | .agent m => some m
    | _ => none

/-- At some moment from the end of `ms0` on the agent had no job of the id. -/
def Missing (id : Str) (ms0 ms : List (registry.Move ρ)) : Prop :=
  ∃ before after msg, ms = before ++ after ∧ ms0 <+: before ∧
    (runs.final registry.step registry.start before).jobStatus id = .error msg

/-- The agent made the moves `ms`, and where the job was said to be unknown there was a
moment at which it was. -/
structure Grounded (id : Str) (ms0 ms : List (registry.Move ρ)) (h : Net ρ) : Prop where
  later : ms0 <+: ms
  agent : h.agent = runs.final registry.step registry.start ms
  turns : .failed 400 unknownJob.toList ∈ h.turns → Missing id ms0 ms
  answer : h.call = some (.answer (.error unknownJob)) → Missing id ms0 ms

variable {rs : List (registry.Move ρ)}

theorem Missing.more (h : Missing id ms0 rs) (m : registry.Move ρ) : Missing id ms0 (rs ++ [m]) := by
  obtain ⟨before, after, msg, rfl, hpre, herr⟩ := h
  exact ⟨before, after ++ [m], msg, by simp, hpre, herr⟩

theorem Grounded.endTurn (hg : Grounded id ms0 rs h)
    (ht : t = .failed 400 unknownJob.toList → Missing id ms0 rs) : Grounded id ms0 rs (h.endTurn t) where
  later := hg.later
  agent := hg.agent
  turns hmem := by
    rcases List.mem_append.mp hmem with hmem | hmem
    · exact hg.turns hmem
    · exact ht (List.mem_singleton.mp hmem).symm
  answer hcall := by cases hcall

theorem grounded_agent (hg : Grounded id ms0 rs h) (m : registry.Move ρ) :
    Grounded id ms0 (rs ++ [m]) (step id h (.agent m)) where
  later := hg.later.trans (List.prefix_append _ _)
  agent := by
    rw [runs.final_append, ← hg.agent]
    rfl
  turns hmem := (hg.turns hmem).more m
  answer hcall := (hg.answer hcall).more m

/-- The other moves leave the agent. -/
theorem grounded_step (hg : Grounded id ms0 rs h) {m : Move ρ} (hm : agentMoves [m] = []) :
    Grounded id ms0 rs (step id h m) := by
  cases m with
  | agent m => cases hm
  | ask late =>
    simp only [step]
    split
    · split
      · exact hg.endTurn fun ht => by cases ht
      · exact ⟨hg.later, hg.agent, hg.turns, fun hcall => by cases hcall⟩
    · exact hg
  | serve =>
    simp only [step]
    split
    · refine ⟨hg.later, hg.agent, hg.turns, fun hcall => ?_⟩
      simp only [Option.some.injEq, Line.answer.injEq] at hcall
      exact ⟨rs, [], unknownJob, by simp, hg.later, by rw [← hg.agent]; exact hcall⟩
    · exact hg
  | refuse f =>
    simp only [step]
    split
    · refine ⟨hg.later, hg.agent, hg.turns, fun hcall => ?_⟩
      simp only [Option.some.injEq, Line.answer.injEq, Except.error.injEq] at hcall
      exact absurd hcall (refusal_ne f)
    · exact hg
  | hear =>
    simp only [step]
    split
    next r hr =>
      refine hg.endTurn fun ht => ?_
      cases r with
      | error msg =>
        simp only [heard, Turn.failed.injEq, true_and] at ht
        exact hg.answer (unknown_of_take ht ▸ hr)
      | ok j => cases ht
    · exact hg
  | fail f =>
    simp only [step]
    split
    · refine hg.endTurn fun ht => ?_
      cases f <;> simp [Fault.error] at ht
    · exact hg

theorem agentMoves_cons (m : Move ρ) (ms : List (Move ρ)) : agentMoves (m :: ms) = agentMoves [m] ++ agentMoves ms := by
  simp only [agentMoves]
  rw [← List.filterMap_append, List.singleton_append]

theorem grounded_final (hg : Grounded id ms0 rs h) (ms : List (Move ρ)) :
    Grounded id ms0 (rs ++ agentMoves ms) (runs.final (step id) h ms) := by
  induction ms generalizing h rs with
  | nil => simpa [agentMoves, runs.final] using hg
  | cons m ms ih =>
    rw [agentMoves_cons, ← List.append_assoc]
    cases m with
    | agent m => exact ih (grounded_agent hg m)
    | _ => exact ih (by simpa [agentMoves] using grounded_step hg rfl)

theorem grounded_begin : Grounded id ms0 ms0 (begin ms0) where
  later := List.prefix_refl _
  agent := rfl
  turns hmem := by simp [begin] at hmem
  answer hcall := by cases hcall

/-- The turn that makes the loop raise. -/
theorem raised_mem {status : Nat} {message : Str} (h : waitJob n turns = .raised status message)
    (hstatus : status ≠ 504) : .failed status message ∈ turns := by
  induction turns generalizing n with
  | nil => cases h
  | cons t turns ih =>
    cases t with
    | late =>
      simp only [waitJob, Wait.raised.injEq] at h
      exact absurd h.1.symm hstatus
    | answered j =>
      rw [waitJob] at h
      split at h
      · cases h
      · exact List.mem_cons_of_mem _ (ih h)
    | failed status' message' =>
      rw [waitJob] at h
      split at h
      · exact List.mem_cons_of_mem _ (ih h)
      · cases h
        exact List.mem_cons_self

/-- `wait_job` is told that the job is unknown only when the agent was started again, or
when the job had ended more than six hours before another one started. An agent that is
busy, panics or only monitors says something else. -/
theorem unknown_forgotten (hids : (drawn (ms0 ++ agentMoves ms)).Nodup) (hstarted : id ∈ drawn ms0)
    (hret : waitJob 0 (runs.final (step id) (begin ms0) ms).turns = .raised 400 unknownJob.toList) :
    ∃ p j before m after, (runs.final registry.step registry.start ms0).all[p]? = some j ∧ j.id = id ∧
      ms0 ++ agentMoves ms = before ++ m :: after ∧
      p < (runs.final registry.step registry.start before).all.length ∧
      Forgets (runs.final registry.step registry.start before) p m := by
  have hmem := raised_mem hret (by decide)
  obtain ⟨before, after, msg, hcut, hpre, herr⟩ := (grounded_final grounded_begin ms).turns hmem
  obtain ⟨between, rfl⟩ := hpre
  -- the job has a place since before the hub asks
  have hstart : id ∈ (runs.final registry.step registry.start ms0).all.map Job.id := by
    rw [ids_run]
    exact List.mem_append_right _ hstarted
  obtain ⟨j, hj, rfl⟩ := List.mem_map.mp hstart
  obtain ⟨p, hp⟩ := List.mem_iff_getElem?.mp hj
  obtain ⟨j', hj', hid⟩ := id_run hp between
  rw [← runs.final_append] at hj'
  have hids' : (drawn (ms0 ++ between)).Nodup := by
    rw [hcut, drawn_append] at hids
    exact (List.nodup_append.mp hids).1
  have hforgot : ¬ runs.Throughout registry.step (Spares p) registry.start (ms0 ++ between) := by
    intro hspared
    have hok := jobStatus_ok.mpr ⟨p, (get_final hids').mpr ⟨⟨j', hj', hid⟩, hspared⟩, hj'⟩
    rw [herr] at hok
    cases hok
  rw [runs.throughout_iff] at hforgot
  push Not at hforgot
  obtain ⟨first, m, rest, heq, hspares⟩ := hforgot
  unfold Spares at hspares
  push Not at hspares
  refine ⟨p, j, first, m, rest ++ after, hp, rfl, ?_, hspares.1, hspares.2⟩
  rw [hcut, heq, List.append_assoc, List.cons_append]

/-- The agent is started again while the hub waits. -/
def lostJob : List (Move Unit) := [.agent .restart, .ask false, .serve, .hear]

theorem lost_forgotten : ∃ p j before m after,
    (runs.final registry.step registry.start twoJobs).all[p]? = some j ∧ j.id = ['b'] ∧
      twoJobs ++ agentMoves lostJob = before ++ m :: after ∧
      p < (runs.final registry.step registry.start before).all.length ∧
      Forgets (runs.final registry.step registry.start before) p m :=
  @unknown_forgotten Unit ['b'] twoJobs lostJob (by decide) (by decide) rfl

end icsd_panel.polls

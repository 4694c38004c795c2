-- The samples that wait in the agent while the link is down: the sampler
-- pushes, sessions take a batch and put back what they could not send.
import IcsdPanel.Slices
import Mathlib.Data.List.Perm.Basic

open slices

namespace icsd_panel.buffers

/-! ## A line in front of a link -/

/-- What a line of at most `n` keeps of the samples that came to wait in it. -/
def newest {α : Type} (n : Nat) (xs : List α) : List α := xs.drop (xs.length - n)

/-- What it drops. -/
def oldest {α : Type} (n : Nat) (xs : List α) : List α := xs.take (xs.length - n)

/-- Who has which samples: the link, the session, the line, or nobody. -/
structure Line (α : Type) where
  produced : List α
  handed : List α
  batch : List α
  queue : List α
  dropped : List α

inductive Line.Step {α : Type} (n : Nat) : Line α → Line α → Prop
  | rest (l : Line α) : Step n l l
  | push (l : Line α) (s : α) : Step n l
      { l with
        produced := l.produced ++ [s]
        queue := newest n (l.queue ++ [s])
        dropped := l.dropped ++ oldest n (l.queue ++ [s]) }
  | take (l : Line α) (h : l.batch = []) : Step n l { l with batch := l.queue, queue := [] }
  | sent (l : Line α) (s : α) (rest : List α) (h : l.batch = s :: rest) : Step n l
      { l with handed := l.handed ++ [s], batch := rest }
  | requeue (l : Line α) : Step n l
      { l with
        batch := []
        queue := newest n (l.batch ++ l.queue)
        dropped := l.dropped ++ oldest n (l.batch ++ l.queue) }

/-- No sample is out of order, twice, or gone without being dropped, and no more
than `n` wait. -/
structure Line.Orderly {α : Type} (n : Nat) (l : Line α) : Prop where
  order : (l.handed ++ l.batch ++ l.queue).Sublist l.produced
  all : (l.handed ++ l.batch ++ l.queue ++ l.dropped).Perm l.produced
  bound : l.queue.length ≤ n

section Line

variable {α : Type} {n : Nat} {xs : List α}

theorem newest_length : (newest n xs).length ≤ n := by
  simp only [newest, List.length_drop]
  omega

theorem newest_sublist : (newest n xs).Sublist xs := List.drop_sublist _ _

theorem newest_of_le (h : xs.length ≤ n) : newest n xs = xs := by
  simp [newest, Nat.sub_eq_zero_of_le h]

theorem oldest_of_le (h : xs.length ≤ n) : oldest n xs = [] := by
  simp [oldest, Nat.sub_eq_zero_of_le h]

theorem newest_oldest_perm : (newest n xs ++ oldest n xs).Perm xs := by
  refine List.perm_append_comm.trans ?_
  rw [oldest, newest, List.take_append_drop]

/-- Trimming what waits keeps the account of all samples. -/
theorem trim_perm {as ds ps : List α} (h : (as ++ xs ++ ds).Perm ps) :
    (as ++ newest n xs ++ (ds ++ oldest n xs)).Perm ps := by
  refine List.Perm.trans ?_ h
  have h1 : (newest n xs ++ (ds ++ oldest n xs)).Perm (xs ++ ds) := by
    rw [← List.append_assoc]
    refine List.perm_append_right_iff _ |>.mpr List.perm_append_comm |>.trans ?_
    rw [List.append_assoc]
    exact (List.Perm.append_left ds newest_oldest_perm).trans List.perm_append_comm
  rw [List.append_assoc, List.append_assoc]
  exact List.Perm.append_left as h1

theorem Line.Step.orderly {l l' : Line α} (hs : Line.Step n l l') (h : l.Orderly n) : l'.Orderly n := by
  obtain ⟨horder, hall, hbound⟩ := h
  cases hs with
  | rest => exact ⟨horder, hall, hbound⟩
  | push s =>
    refine ⟨?_, ?_, newest_length⟩
    · refine (List.Sublist.append_left newest_sublist _).trans ?_
      rw [← List.append_assoc]
      exact horder.append_right [s]
    · refine trim_perm ?_
      have := hall.append_right [s]
      refine List.Perm.trans ?_ this
      simp only [List.append_assoc]
      exact List.Perm.append_left _ (List.Perm.append_left _
        (List.Perm.append_left _ List.perm_append_comm))
  | take hb =>
    rw [hb, List.append_nil] at horder hall
    exact ⟨by simpa using horder, by simpa using hall, Nat.zero_le n⟩
  | sent s rest hb =>
    rw [hb] at horder hall
    exact ⟨by simpa using horder, by simpa using hall, hbound⟩
  | requeue =>
    rw [List.append_assoc] at horder
    rw [List.append_assoc l.handed] at hall
    refine ⟨?_, ?_, newest_length⟩
    · rw [List.append_nil]
      exact (List.Sublist.append_left newest_sublist _).trans horder
    · rw [List.append_nil]
      exact trim_perm hall

end Line

/-! ## The agent -/

def maxBuffered : Nat := 120

/-- Between two connections, connected, or with a batch of which the samples
before `i` are sent. -/
inductive Session
  | out
  | idle
  | sending (batch : Slice) (i : Nat)

/-- The queue of the agent and the session that empties it. What was produced,
handed to the connection and dropped is kept for the record only. -/
structure Agent (α : Type) where
  heap : Heap α
  queue : Slice
  session : Session
  produced : List α
  handed : List α
  dropped : List α

def Agent.start (α : Type) : Agent α := ⟨⟨fun _ => [], 0⟩, .nil, .out, [], [], []⟩

variable {α : Type} [Inhabited α]

/-- `push` -/
def push (s : α) (extra : Nat) (a : Agent α) : Agent α :=
  let (h, q) := append a.heap a.queue [s] extra
  let excess := q.len - maxBuffered
  if 0 < excess then
    let (h', q') := append h (q.upTo 0) (values h (q.since excess)) extra
    { a with heap := h', queue := q', produced := a.produced ++ [s], dropped := a.dropped ++ values h (q.upTo excess) }
  else { a with heap := h, queue := q, produced := a.produced ++ [s] }

/-- `take`, and the batch when there is one. -/
def take (a : Agent α) : Agent α :=
  { a with
    queue := .nil
    session := if 0 < a.queue.len then .sending a.queue 0 else .idle }

/-- `requeue` -/
def requeue (rest : Slice) (extra : Nat) (a : Agent α) : Agent α :=
  let (h, q) := append a.heap rest (values a.heap a.queue) extra
  let excess := q.len - maxBuffered
  if 0 < excess then
    { a with heap := h, queue := q.since excess, dropped := a.dropped ++ values h (q.upTo excess) }
  else { a with heap := h, queue := q }

/-- What can happen next: the sampler pushes; a session starts, takes what waits,
sends the next sample of its batch, fails to, or ends. -/
inductive Move (α : Type)
  | push (s : α) (extra : Nat)
  | connect
  | take
  | sent
  | failed (extra : Nat)
  | leave

/-- A move out of turn does nothing. -/
def Agent.move (a : Agent α) : Move α → Agent α
  | .push s extra => buffers.push s extra a
  | .connect =>
    match a.session with
    | .out => { a with session := .idle }
    | _ => a
  | .take =>
    match a.session with
    | .idle => buffers.take a
    | _ => a
  | .sent =>
    match a.session with
    | .sending batch i =>
      match (values a.heap batch)[i]? with
      | some s => { a with
          handed := a.handed ++ [s]
          session := if i + 1 = batch.len then .idle else .sending batch (i + 1) }
      | none => a
    | _ => a
  | .failed extra =>
    match a.session with
    | .sending batch i => { requeue (batch.since i) extra a with session := .out }
    | _ => a
  | .leave =>
    match a.session with
    | .idle => { a with session := .out }
    | _ => a

def run (ms : List (Move α)) (a : Agent α) : Agent α := ms.foldl Agent.move a

/-! ## The agent is such a line -/

def queued (a : Agent α) : List α := values a.heap a.queue

def inBatch (a : Agent α) : List α :=
  match a.session with
  | .sending batch i => (values a.heap batch).drop i
  | _ => []

def lineOf (a : Agent α) : Line α := ⟨a.produced, a.handed, inBatch a, queued a, a.dropped⟩

/-- The batch is a slice of its own, apart from the queue. -/
structure Tidy (a : Agent α) : Prop where
  queue : Valid a.heap a.queue
  batch : ∀ b i, a.session = .sending b i → Valid a.heap b ∧ Apart a.queue b ∧ i < b.len

/-- A slice beside the queue is as it was. -/
def Beside (a a' : Agent α) : Prop :=
  ∀ b, Valid a.heap b → Apart a.queue b →
    Valid a'.heap b ∧ Apart a'.queue b ∧ values a'.heap b = values a.heap b

variable {a : Agent α} {s : α} {e : Nat}

/-- `push` appends and trims, and touches nothing beside the queue. -/
theorem push_spec (hq : Valid a.heap a.queue) :
    Valid (push s e a).heap (push s e a).queue ∧ Beside a (push s e a) ∧
    queued (push s e a) = newest maxBuffered (queued a ++ [s]) ∧
    (push s e a).dropped = a.dropped ++ oldest maxBuffered (queued a ++ [s]) := by
  have h1 := append_spec hq [s] e
  unfold push
  generalize append a.heap a.queue [s] e = r1 at h1 ⊢
  have hlen : (queued a ++ [s]).length = r1.2.len := by
    rw [← length_values h1.valid, h1.shows]
    rfl
  simp only
  split
  · have hcut : values r1.1 (r1.2.since (r1.2.len - maxBuffered)) =
        newest maxBuffered (queued a ++ [s]) := by
      rw [values_since, h1.shows, newest, hlen]
      rfl
    have h2 := append_spec (valid_upTo h1.valid (Nat.zero_le _))
      (values r1.1 (r1.2.since (r1.2.len - maxBuffered))) e
    generalize append r1.1 (r1.2.upTo 0) (values r1.1 (r1.2.since (r1.2.len - maxBuffered))) e = r2
      at h2 ⊢
    refine ⟨h2.valid, fun b hb ha => ?_, ?_, ?_⟩
    · obtain ⟨hb1, ha1, hv1⟩ := h1.beside b hb ha
      obtain ⟨hb2, ha2, hv2⟩ := h2.beside b hb1 ha1
      exact ⟨hb2, ha2, hv2.trans hv1⟩
    · have hv := h2.shows
      rw [values_upTo (Nat.zero_le _), List.take_zero, List.nil_append, hcut] at hv
      exact hv
    · rw [oldest, hlen, values_upTo (Nat.sub_le _ _), h1.shows]
      rfl
  · have hle : (queued a ++ [s]).length ≤ maxBuffered := by omega
    refine ⟨h1.valid, h1.beside, ?_, ?_⟩
    · rw [newest_of_le hle]
      exact h1.shows
    · rw [oldest_of_le hle, List.append_nil]

/-- `requeue` puts the rest in front and trims. -/
theorem requeue_spec {rest : Slice} (hr : Valid a.heap rest) :
    Valid (requeue rest e a).heap (requeue rest e a).queue ∧
    queued (requeue rest e a) = newest maxBuffered (values a.heap rest ++ queued a) ∧
    (requeue rest e a).dropped =
      a.dropped ++ oldest maxBuffered (values a.heap rest ++ queued a) := by
  have h1 := append_spec hr (values a.heap a.queue) e
  unfold requeue
  generalize append a.heap rest (values a.heap a.queue) e = r1 at h1 ⊢
  have hlen : (values a.heap rest ++ queued a).length = r1.2.len := by
    rw [← length_values h1.valid, h1.shows]
    rfl
  simp only
  split
  · refine ⟨valid_since h1.valid (Nat.sub_le _ _), ?_, ?_⟩
    · rw [newest, hlen]
      exact values_since.trans (congrArg _ h1.shows)
    · rw [oldest, hlen, values_upTo (Nat.sub_le _ _), h1.shows]
      rfl
  · have hle : (values a.heap rest ++ queued a).length ≤ maxBuffered := by omega
    refine ⟨h1.valid, ?_, ?_⟩
    · rw [newest_of_le hle]
      exact h1.shows
    · rw [oldest_of_le hle, List.append_nil]

theorem push_session (a : Agent α) : (push s e a).session = a.session ∧
    (push s e a).handed = a.handed ∧ (push s e a).produced = a.produced ++ [s] := by
  unfold push
  simp only
  split <;> exact ⟨rfl, rfl, rfl⟩

theorem requeue_session (rest : Slice) (a : Agent α) : (requeue rest e a).handed = a.handed ∧
    (requeue rest e a).produced = a.produced := by
  unfold requeue
  simp only
  split <;> exact ⟨rfl, rfl⟩

/-- What waits in the queue at a move, before it is trimmed. -/
def waiting (a : Agent α) : Move α → List α
  | .push s _ => queued a ++ [s]
  | .take =>
    match a.session with
    | .idle => []
    | _ => queued a
  | .failed _ =>
    match a.session with
    | .sending _ _ => inBatch a ++ queued a
    | _ => queued a
  | _ => queued a

/-- A move keeps the batch apart from the queue, is a step of the line, and
trims what waits. -/
structure Moves (a : Agent α) (m : Move α) : Prop where
  tidy : Tidy (a.move m)
  step : Line.Step maxBuffered (lineOf a) (lineOf (a.move m))
  queued : queued (a.move m) = newest maxBuffered (waiting a m)
  dropped : (a.move m).dropped = a.dropped ++ oldest maxBuffered (waiting a m)

theorem moves_push (h : Tidy a) : Moves a (.push s e) := by
  obtain ⟨hvalid, hbeside, hqueued, hdropped⟩ := push_spec (s := s) (e := e) h.queue
  obtain ⟨hsession, hhanded, hproduced⟩ := push_session (s := s) (e := e) a
  have hbatch : inBatch (push s e a) = inBatch a := by
    unfold inBatch
    rw [hsession]
    cases hb : a.session with
    | out => rfl
    | idle => rfl
    | sending b i =>
      obtain ⟨hv, ha, -⟩ := h.batch b i hb
      simp only [(hbeside b hv ha).2.2]
  refine ⟨⟨hvalid, fun b i hb => ?_⟩, ?_, hqueued, hdropped⟩
  · have hb' : a.session = .sending b i := hsession.symm.trans hb
    obtain ⟨hv, ha, hlt⟩ := h.batch b i hb'
    obtain ⟨hv', ha', -⟩ := hbeside b hv ha
    exact ⟨hv', ha', hlt⟩
  · have : lineOf (push s e a) = { lineOf a with
        produced := a.produced ++ [s]
        queue := newest maxBuffered (queued a ++ [s])
        dropped := a.dropped ++ oldest maxBuffered (queued a ++ [s]) } := by
      unfold lineOf
      rw [hproduced, hhanded, hbatch, hqueued, hdropped]
    change Line.Step maxBuffered (lineOf a) (lineOf (push s e a))
    rw [this]
    exact .push (lineOf a) s

theorem moves_take (h : Tidy a) (hs : a.session = .idle) : Moves a .take := by
  have hmove : a.move .take = take a := by simp [Agent.move, hs]
  have hw : waiting a .take = [] := by simp [waiting, hs]
  have hbatch : inBatch a = [] := by simp [inBatch, hs]
  have htaken : inBatch (take a) = queued a := by
    unfold inBatch take
    by_cases hlen : 0 < a.queue.len
    · simp only [hlen, if_true, List.drop_zero]
      rfl
    · simp only [hlen, if_false]
      exact (values_of_len (by omega)).symm
  refine ⟨⟨?_, fun b i hb => ?_⟩, ?_, ?_, ?_⟩
  · rw [hmove]
    exact valid_nil
  · rw [hmove] at hb ⊢
    unfold take at hb
    simp only at hb
    split at hb
    · cases hb
      exact ⟨h.queue, apart_nil, by assumption⟩
    · cases hb
  · have : lineOf (a.move .take) = { lineOf a with batch := queued a, queue := [] } := by
      rw [hmove]
      unfold lineOf
      rw [htaken]
      rfl
    rw [this]
    exact .take (lineOf a) hbatch
  · rw [hmove, hw]
    rfl
  · rw [hmove, hw]
    exact (List.append_nil _).symm

theorem moves_sent (h : Tidy a) (hle : (queued a).length ≤ maxBuffered) {batch : Slice} {i : Nat}
    (hs : a.session = .sending batch i) : Moves a .sent := by
  obtain ⟨hv, ha, hlt⟩ := h.batch batch i hs
  have hi : i < (values a.heap batch).length := by rwa [length_values hv]
  have hmove : a.move .sent = { a with
      handed := a.handed ++ [(values a.heap batch)[i]]
      session := if i + 1 = batch.len then .idle else .sending batch (i + 1) } := by
    simp [Agent.move, hs, List.getElem?_eq_getElem hi]
  have hw : waiting a .sent = queued a := rfl
  have hrest : inBatch (a.move .sent) = (values a.heap batch).drop (i + 1) := by
    rw [hmove]
    unfold inBatch
    simp only
    split
    · rename_i b j hb
      split at hb
      · cases hb
      · cases hb
        rfl
    · rename_i hne
      split at hne
      · refine (List.drop_eq_nil_of_le ?_).symm
        rw [length_values hv]
        omega
      · exact absurd rfl (hne batch (i + 1))
  refine ⟨⟨?_, fun b j hb => ?_⟩, ?_, ?_, ?_⟩
  · rw [hmove]
    exact h.queue
  · rw [hmove] at hb ⊢
    simp only at hb
    split at hb
    · cases hb
    · cases hb
      exact ⟨hv, ha, by omega⟩
  · have : lineOf (a.move .sent) = { lineOf a with
        handed := a.handed ++ [(values a.heap batch)[i]]
        batch := (values a.heap batch).drop (i + 1) } := by
      unfold lineOf
      rw [hrest, hmove]
      rfl
    rw [this]
    refine .sent (lineOf a) _ _ ?_
    have : inBatch a = (values a.heap batch).drop i := by simp [inBatch, hs]
    exact this.trans (List.drop_eq_getElem_cons hi)
  · rw [hw, newest_of_le hle, hmove]
    rfl
  · rw [hw, oldest_of_le hle, hmove, List.append_nil]

theorem moves_failed (h : Tidy a) {batch : Slice} {i : Nat} (hs : a.session = .sending batch i) :
    Moves a (.failed e) := by
  obtain ⟨hv, -, hlt⟩ := h.batch batch i hs
  obtain ⟨hvalid, hqueued, hdropped⟩ := requeue_spec (e := e) (valid_since hv (Nat.le_of_lt hlt))
  obtain ⟨hhanded, hproduced⟩ := requeue_session (e := e) (batch.since i) a
  have hmove : a.move (.failed e) = { requeue (batch.since i) e a with session := .out } := by
    simp [Agent.move, hs]
  have hin : inBatch a = (values a.heap batch).drop i := by simp [inBatch, hs]
  have hw : waiting a (.failed e) = inBatch a ++ queued a := by simp [waiting, hs]
  rw [values_since, ← hin, ← hw] at hqueued hdropped
  generalize requeue (batch.since i) e a = b at hvalid hqueued hdropped hhanded hproduced hmove
  refine ⟨⟨?_, fun b j hb => ?_⟩, ?_, ?_, ?_⟩
  · rw [hmove]
    exact hvalid
  · rw [hmove] at hb
    cases hb
  · have : lineOf (a.move (.failed e)) = { lineOf a with
        batch := []
        queue := newest maxBuffered (inBatch a ++ queued a)
        dropped := a.dropped ++ oldest maxBuffered (inBatch a ++ queued a) } := by
      rw [hmove, ← hw, ← hqueued, ← hdropped]
      unfold lineOf
      simp only [hhanded, hproduced]
      rfl
    rw [this]
    exact .requeue (lineOf a)
  · rw [hmove]
    exact hqueued
  · rw [hmove]
    exact hdropped

/-- A move that touches neither queue nor batch. -/
theorem moves_of_session (h : Tidy a) (hle : (queued a).length ≤ maxBuffered) {m : Move α}
    (x : Session) (hmove : a.move m = { a with session := x })
    (hsame : x = a.session ∨ (∀ b i, x ≠ .sending b i) ∧ inBatch a = [])
    (hw : waiting a m = queued a) : Moves a m := by
  have hbatch : inBatch { a with session := x } = inBatch a := by
    rcases hsame with rfl | ⟨hne, hnil⟩
    · rfl
    · rw [hnil]
      cases x with
      | out => rfl
      | idle => rfl
      | sending b i => exact absurd rfl (hne b i)
  refine ⟨⟨?_, fun b i hb => ?_⟩, ?_, ?_, ?_⟩
  · rw [hmove]
    exact h.queue
  · rw [hmove] at hb ⊢
    rcases hsame with rfl | ⟨hne, -⟩
    · exact h.batch b i hb
    · exact absurd hb (hne b i)
  · have : lineOf (a.move m) = lineOf a := by
      rw [hmove]
      unfold lineOf
      rw [hbatch]
      rfl
    rw [this]
    exact .rest _
  · rw [hw, newest_of_le hle, hmove]
    rfl
  · rw [hw, oldest_of_le hle, hmove, List.append_nil]

/-- A move out of turn. -/
theorem moves_rest (h : Tidy a) (hle : (queued a).length ≤ maxBuffered) {m : Move α}
    (hmove : a.move m = a) (hw : waiting a m = queued a) : Moves a m :=
  moves_of_session h hle a.session hmove (.inl rfl) hw

theorem moves (h : Tidy a) (hle : (queued a).length ≤ maxBuffered) (m : Move α) : Moves a m := by
  cases m with
  | push s e => exact moves_push h
  | connect =>
    cases hs : a.session with
    | out =>
      have hmove : a.move .connect = { a with session := .idle } := by simp [Agent.move, hs]
      exact moves_of_session h hle .idle hmove (.inr ⟨nofun, by simp [inBatch, hs]⟩) rfl
    | idle => exact moves_rest h hle (by simp [Agent.move, hs]) rfl
    | sending b i => exact moves_rest h hle (by simp [Agent.move, hs]) rfl
  | take =>
    cases hs : a.session with
    | out => exact moves_rest h hle (by simp [Agent.move, hs]) (by simp [waiting, hs])
    | idle => exact moves_take h hs
    | sending b i => exact moves_rest h hle (by simp [Agent.move, hs]) (by simp [waiting, hs])
  | sent =>
    cases hs : a.session with
    | out => exact moves_rest h hle (by simp [Agent.move, hs]) rfl
    | idle => exact moves_rest h hle (by simp [Agent.move, hs]) rfl
    | sending b i => exact moves_sent h hle hs
  | failed e =>
    cases hs : a.session with
    | out => exact moves_rest h hle (by simp [Agent.move, hs]) (by simp [waiting, hs])
    | idle => exact moves_rest h hle (by simp [Agent.move, hs]) (by simp [waiting, hs])
    | sending b i => exact moves_failed h hs
  | leave =>
    cases hs : a.session with
    | out => exact moves_rest h hle (by simp [Agent.move, hs]) rfl
    | idle =>
      have hmove : a.move .leave = { a with session := .out } := by simp [Agent.move, hs]
      exact moves_of_session h hle .out hmove (.inr ⟨nofun, by simp [inBatch, hs]⟩) rfl
    | sending b i => exact moves_rest h hle (by simp [Agent.move, hs]) rfl

/-! ## The law -/

theorem run_orderly (ms : List (Move α)) (h : Tidy a) (ho : (lineOf a).Orderly maxBuffered) :
    Tidy (run ms a) ∧ (lineOf (run ms a)).Orderly maxBuffered := by
  unfold run
  induction ms generalizing a with
  | nil => exact ⟨h, ho⟩
  | cons m ms ih =>
    have hm := moves h ho.bound m
    exact ih hm.tidy (hm.step.orderly ho)

/-- At every moment of every run: what the connection got, what the session has
in hand and what waits are samples in the order in which they were produced,
none twice; all others were dropped; no more than 120 wait. And each move drops
the oldest of those that wait, as many as are more than 120. -/
theorem kept_in_order (ms : List (Move α)) :
    let a := run ms (.start α)
    (a.handed ++ inBatch a ++ queued a).Sublist a.produced ∧
    (a.handed ++ inBatch a ++ queued a ++ a.dropped).Perm a.produced ∧
    (queued a).length ≤ 120 ∧
    ∀ m, queued (a.move m) = newest 120 (waiting a m) ∧
      (a.move m).dropped = a.dropped ++ oldest 120 (waiting a m) := by
  intro a
  have hstart : Tidy (Agent.start α) := ⟨valid_nil, nofun⟩
  obtain ⟨ht, ho⟩ := run_orderly ms hstart ⟨List.Sublist.refl _, List.Perm.refl _, Nat.zero_le _⟩
  refine ⟨ho.order, ho.all, ho.bound, fun m => ?_⟩
  have hm := moves ht ho.bound m
  exact ⟨hm.queued, hm.dropped⟩

/-- A sample that is in hand while 120 newer ones come to wait. -/
def outlasting : List (Move Nat) := [.push 0 0, .connect, .take] ++ (List.range' 1 120).map (.push · 0)

/-- The next push drops the oldest sample of the queue, and the older one that is in
hand stays. -/
theorem hand_outlasts : ¬ ∀ (ms : List (Move Nat)) (m : Move Nat),
    let a := run ms (.start Nat)
    ∃ gone, (a.move m).dropped = a.dropped ++ gone ∧
      (gone ++ inBatch (a.move m) ++ queued (a.move m)).Sublist (a.move m).produced := by
  intro h
  obtain ⟨gone, hgone, hsub⟩ := h outlasting (.push 121 0)
  have hbefore : (run outlasting (.start Nat)).dropped = [] := by decide +kernel
  have hafter : ((run outlasting (.start Nat)).move (.push 121 0)).dropped = [1] := by decide +kernel
  have hhand : inBatch ((run outlasting (.start Nat)).move (.push 121 0)) = [0] := by decide +kernel
  have hall : ((run outlasting (.start Nat)).move (.push 121 0)).produced = List.range 122 := by decide +kernel
  rw [hbefore, hafter, List.nil_append] at hgone
  rw [← hgone, hhand, hall] at hsub
  have hturned : [1, 0].Sublist (List.range 122) := (List.sublist_append_left _ _).trans hsub
  revert hturned
  decide +kernel

end icsd_panel.buffers

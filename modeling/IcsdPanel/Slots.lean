-- The handlers of the agent: each request gets one of eight slots or is told that the
-- agent is busy, and each is answered once, over the connection that it came by.
import IcsdPanel.Replies
import IcsdPanel.Runs

open jsons

namespace icsd_panel.slots

open handlers replies

/-! ## The agent -/

/-- The capacity of `slots` -/
def maxHandlers : Nat := 8

/-- A goroutine of a request: the number of the request, and whether the answer was sent. -/
structure Task where
  no : Nat
  conn : Nat
  request : Inbound
  replied : Bool

/-- A frame that was handed to a connection, for a request. -/
structure Sent where
  no : Nat
  conn : Nat
  frame : Json

/-- The tokens in `slots`, the goroutines, the requests that were read, and the answers. -/
structure Agent where
  taken : Nat
  tasks : List Task
  reads : List (Nat × Inbound)
  sent : List Sent

def start : Agent := ⟨0, [], [], []⟩

def busyFrames (i : Inbound) : List Json := send ⟨"res", i.id, none, false, busy⟩

/-- The answer is sent, and then the slot is given back: other goroutines run in between. -/
inductive Move
  | read (conn : Nat) (request : Inbound)
  | reply (no : Nat) (outcome : Outcome)
  | release (no : Nat)

def Task.Waits (no : Nat) (t : Task) : Prop := t.no = no ∧ t.replied = false

instance (no : Nat) : DecidablePred (Task.Waits no) := fun _ => inferInstanceAs (Decidable (_ ∧ _))

def Task.answered (no : Nat) (t : Task) : Task := if t.Waits no then { t with replied := true } else t

def Task.Over (no : Nat) (t : Task) : Prop := t.no = no ∧ t.replied = true

instance (no : Nat) : DecidablePred (Task.Over no) := fun _ => inferInstanceAs (Decidable (_ ∧ _))

/-- The "req" case of `reader`, and the goroutine that it starts. A session that ends
takes no handler with it: its connection only fails to send. -/
def step (a : Agent) : Move → Agent
  | .read conn i =>
    let a' := { a with reads := a.reads ++ [(conn, i)] }
    if a.taken < maxHandlers then
      { a' with taken := a.taken + 1, tasks := a.tasks ++ [⟨a.reads.length, conn, i, false⟩] }
    else { a' with sent := a.sent ++ (busyFrames i).map (Sent.mk a.reads.length conn) }
  | .reply no o =>
    match a.tasks.find? fun t => t.Waits no with
    | none => a
    | some t =>
      { a with
        tasks := a.tasks.map (Task.answered no)
        sent := a.sent ++ (send (Outcome.reply t.request.id o)).map (Sent.mk t.no t.conn) }
  | .release no =>
    match a.tasks.find? fun t => t.Over no with
    | none => a
    | some _ => { a with taken := a.taken - 1, tasks := a.tasks.filter fun t => ¬ t.Over no }

/-- The frames for a request, each with the connection that it was handed to. -/
def Agent.framesOf (a : Agent) (no : Nat) : List (Nat × Json) :=
  (a.sent.filter fun x => x.no = no).map fun x => (x.conn, x.frame)

/-! ## The fate of a request -/

variable {a : Agent} {no n conn : Nat} {i : Inbound} {o : Outcome} {t : Task} {m : Move}

/-- No goroutine has still to answer. -/
def Agent.Settled (a : Agent) (no : Nat) : Prop := ∀ t ∈ a.tasks, ¬ t.Waits no

inductive Fate (ms : List Move) (a : Agent) (no conn : Nat) (i : Inbound) : Prop
  | waiting (hframes : a.framesOf no = []) (htask : ∃ t ∈ a.tasks, t.Waits no)
  | refused (hframes : a.framesOf no = (busyFrames i).map (Prod.mk conn)) (hsettled : a.Settled no)
  | answered (o : Outcome) (ho : .reply no o ∈ ms)
      (hframes : a.framesOf no = (send (Outcome.reply i.id o)).map (Prod.mk conn)) (hsettled : a.Settled no)

structure Good (ms : List Move) (a : Agent) : Prop where
  taken : a.taken = a.tasks.length
  few : a.taken ≤ maxHandlers
  distinct : (a.tasks.map Task.no).Nodup
  known : ∀ t ∈ a.tasks, a.reads[t.no]? = some (t.conn, t.request)
  fate : ∀ no conn i, a.reads[no]? = some (conn, i) → Fate ms a no conn i
  silent : ∀ no, a.reads.length ≤ no → a.framesOf no = []

theorem good_start : Good [] start where
  taken := rfl
  few := Nat.zero_le _
  distinct := List.nodup_nil
  known t ht := by simp [start] at ht
  fate no conn i h := by simp [start] at h
  silent no _ := by simp [start, Agent.framesOf]

theorem Fate.later {ms ms' : List Move} {a' : Agent} (h : Fate ms a no conn i) (hms : ms ⊆ ms')
    (hframes : a'.framesOf no = a.framesOf no) (htasks : ∀ t, t ∈ a'.tasks ∧ t.Waits no ↔ t ∈ a.tasks ∧ t.Waits no) :
    Fate ms' a' no conn i := by
  have hsettled (hs : a.Settled no) : a'.Settled no := fun t ht hw => hs t ((htasks t).mp ⟨ht, hw⟩).1 hw
  cases h with
  | waiting hnone htask =>
    obtain ⟨t, ht⟩ := htask
    exact .waiting (hframes.trans hnone) ⟨t, (htasks t).mpr ht⟩
  | refused hbusy hs => exact .refused (hframes.trans hbusy) (hsettled hs)
  | answered o ho hsent hs => exact .answered o (hms ho) (hframes.trans hsent) (hsettled hs)

theorem framesOf_append (xs : List Sent) (taken : Nat) (tasks : List Task) (reads : List (Nat × Inbound)) :
    Agent.framesOf ⟨taken, tasks, reads, a.sent ++ xs⟩ no =
      a.framesOf no ++ (xs.filter fun x => x.no = no).map fun x => (x.conn, x.frame) := by
  simp [Agent.framesOf]

/-- The frames of one request, looked for as those of another. -/
theorem frames_mk (fs : List Json) : (((fs.map (Sent.mk n conn)).filter fun x => x.no = no).map fun x => (x.conn, x.frame)) =
    if n = no then fs.map (Prod.mk conn) else [] := by
  by_cases h : n = no
  · rw [if_pos h, List.filter_eq_self.mpr, List.map_map]
    · rfl
    · simp [h]
  · rw [if_neg h, List.filter_eq_nil_iff.mpr]
    · rfl
    · simp [h]

/-! ## One step -/

theorem task_read {ms : List Move} (h : Good ms a) (ht : t ∈ a.tasks) : t.no < a.reads.length :=
  (List.getElem?_eq_some_iff.mp (h.known t ht)).1

theorem getElem?_reads {x y : Nat × Inbound} (h : (a.reads ++ [x])[no]? = some y) :
    a.reads[no]? = some y ∨ no = a.reads.length ∧ y = x := by
  rcases lt_trichotomy no a.reads.length with hlt | heq | hgt
  · rw [List.getElem?_append_left hlt] at h
    exact .inl h
  · subst heq
    simp only [List.getElem?_append_right (Nat.le_refl _), Nat.sub_self, List.getElem?_cons_zero, Option.some.injEq] at h
    exact .inr ⟨rfl, h.symm⟩
  · have hnone : (a.reads ++ [x])[no]? = none := by
      rw [List.getElem?_eq_none_iff, List.length_append, List.length_singleton]
      omega
    rw [hnone] at h
    cases h

/-- There was a slot. -/
theorem good_taken {ms : List Move} (h : Good ms a) (hslot : a.taken < maxHandlers) (conn : Nat) (i : Inbound) :
    Good (ms ++ [.read conn i])
      ⟨a.taken + 1, a.tasks ++ [⟨a.reads.length, conn, i, false⟩], a.reads ++ [(conn, i)], a.sent⟩ where
  taken := by simp [h.taken]
  few := hslot
  distinct := by
    rw [List.map_append, List.nodup_append]
    refine ⟨h.distinct, List.nodup_singleton _, ?_⟩
    simp only [List.map_cons, List.map_nil, List.mem_map, List.mem_singleton]
    rintro _ ⟨t, ht, rfl⟩ _ rfl heq
    have := task_read h ht
    omega
  known := by
    intro t ht
    rcases List.mem_append.mp ht with ht | ht
    · rw [List.getElem?_append_left (task_read h ht)]
      exact h.known t ht
    · rw [List.mem_singleton.mp ht]
      simp
  fate := by
    intro no conn' i' hread
    rcases getElem?_reads hread with hold | ⟨rfl, hnew⟩
    · have hlt := (List.getElem?_eq_some_iff.mp hold).1
      refine (h.fate no conn' i' hold).later (List.subset_append_left ms _) rfl fun t => ?_
      rw [List.mem_append, List.mem_singleton]
      refine ⟨?_, fun ht => ⟨.inl ht.1, ht.2⟩⟩
      rintro ⟨ht | rfl, hw⟩
      · exact ⟨ht, hw⟩
      · exact absurd hw.1 (by simp only; omega)
    · exact .waiting (h.silent _ (Nat.le_refl _)) ⟨_, List.mem_append_right _ (List.mem_singleton_self _), rfl, rfl⟩
  silent := by
    intro no hno
    rw [List.length_append, List.length_singleton] at hno
    exact h.silent no (by omega)

/-- There was none. -/
theorem good_refused {ms : List Move} (h : Good ms a) (conn : Nat) (i : Inbound) :
    Good (ms ++ [.read conn i])
      ⟨a.taken, a.tasks, a.reads ++ [(conn, i)], a.sent ++ (busyFrames i).map (Sent.mk a.reads.length conn)⟩ where
  taken := h.taken
  few := h.few
  distinct := h.distinct
  known := by
    intro t ht
    rw [List.getElem?_append_left (task_read h ht)]
    exact h.known t ht
  fate := by
    intro no conn' i' hread
    rcases getElem?_reads hread with hold | ⟨rfl, hnew⟩
    · have hlt := (List.getElem?_eq_some_iff.mp hold).1
      refine (h.fate no conn' i' hold).later (List.subset_append_left ms _) ?_ fun t => Iff.rfl
      rw [framesOf_append, frames_mk, if_neg (by omega), List.append_nil]
    · cases hnew
      refine .refused ?_ ?_
      · rw [framesOf_append, frames_mk, if_pos rfl, h.silent _ (Nat.le_refl _), List.nil_append]
      · intro t ht hw
        have := task_read h ht
        have := hw.1
        omega
  silent := by
    intro no hno
    rw [List.length_append, List.length_singleton] at hno
    rw [framesOf_append, frames_mk, if_neg (by omega), h.silent no (by omega), List.append_nil]

theorem answered_no : (Task.answered no t).no = t.no := by
  unfold Task.answered
  split <;> rfl

theorem answered_waits : t.Waits n ∧ n ≠ no ↔ (Task.answered no t).Waits n := by
  unfold Task.answered
  by_cases hw : t.Waits no
  · rw [if_pos hw]
    constructor
    · rintro ⟨hn, hne⟩
      exact absurd (hn.1.symm.trans hw.1) hne
    · rintro ⟨-, hfalse⟩
      cases hfalse
  · rw [if_neg hw]
    refine ⟨And.left, fun hn => ⟨hn, ?_⟩⟩
    rintro rfl
    exact hw hn

theorem answered_of_ne (h : t.no ≠ no) : Task.answered no t = t := by
  unfold Task.answered
  rw [if_neg fun hw => h hw.1]

theorem good_replied {ms : List Move} (h : Good ms a) (ht : t ∈ a.tasks) (hw : t.Waits no) (o : Outcome) :
    Good (ms ++ [.reply no o])
      ⟨a.taken, a.tasks.map (Task.answered no), a.reads,
        a.sent ++ (send (Outcome.reply t.request.id o)).map (Sent.mk t.no t.conn)⟩ where
  taken := by simp [h.taken]
  few := h.few
  distinct := by
    rw [List.map_map]
    have hsame : Task.no ∘ Task.answered no = Task.no := funext fun t => answered_no
    rw [hsame]
    exact h.distinct
  known := by
    intro u hu
    obtain ⟨v, hv, rfl⟩ := List.mem_map.mp hu
    have hkeep : ((Task.answered no v).conn, (Task.answered no v).request) = (v.conn, v.request) := by
      unfold Task.answered
      split <;> rfl
    rw [answered_no, hkeep]
    exact h.known v hv
  fate := by
    intro n conn' i' hread
    have hsettled (hs : ∀ u ∈ a.tasks, u.Waits n → n = no) :
        ∀ u ∈ a.tasks.map (Task.answered no), ¬ u.Waits n := by
      intro u hu hwaits
      obtain ⟨v, hv, rfl⟩ := List.mem_map.mp hu
      obtain ⟨hv', hne⟩ := answered_waits.mpr hwaits
      exact hne (hs v hv hv')
    by_cases hn : n = no
    · subst hn
      have hmine : (conn', i') = (t.conn, t.request) := by
        have := h.known t ht
        rw [hw.1, hread] at this
        exact Option.some.inj this
      cases hmine
      refine .answered o (List.mem_append_right _ (List.mem_singleton_self _)) ?_ (hsettled fun _ _ _ => rfl)
      have hnone : a.framesOf n = [] := by
        cases h.fate n t.conn t.request hread with
        | waiting hframes _ => exact hframes
        | refused _ hs => exact absurd hw (hs t ht)
        | answered _ _ _ hs => exact absurd hw (hs t ht)
      rw [framesOf_append, frames_mk, if_pos hw.1, hnone, List.nil_append]
    · have hframes : Agent.framesOf ⟨a.taken, a.tasks.map (Task.answered no), a.reads,
          a.sent ++ (send (Outcome.reply t.request.id o)).map (Sent.mk t.no t.conn)⟩ n = a.framesOf n := by
        rw [framesOf_append, frames_mk, if_neg (by rw [hw.1]; exact Ne.symm hn), List.append_nil]
      refine (h.fate n conn' i' hread).later (List.subset_append_left ms _) hframes fun u => ?_
      constructor
      · rintro ⟨hu, hwaits⟩
        obtain ⟨v, hv, rfl⟩ := List.mem_map.mp hu
        have hne : v.no ≠ no := fun heq => hn (hwaits.1.symm.trans (answered_no.trans heq))
        rw [answered_of_ne hne] at hwaits ⊢
        exact ⟨hv, hwaits⟩
      · rintro ⟨hu, hwaits⟩
        have hne : u.no ≠ no := fun heq => hn (hwaits.1.symm.trans heq)
        exact ⟨List.mem_map.mpr ⟨u, hu, answered_of_ne hne⟩, hwaits⟩
  silent := by
    intro n hn
    have hlt := task_read h ht
    rw [framesOf_append, frames_mk, if_neg (by simp only at hn; omega), List.append_nil]
    exact h.silent n hn

theorem not_waits_of_over (h : t.Over no) : ¬ t.Waits n := by
  rintro ⟨-, hfalse⟩
  have := h.2
  rw [hfalse] at this
  cases this

/-- One goroutine is over, the one with the number. -/
theorem length_release {ts : List Task} (hnodup : (ts.map Task.no).Nodup) (ht : t ∈ ts) (hover : t.Over no) :
    (ts.filter fun t => ¬ t.Over no).length + 1 = ts.length := by
  induction ts with
  | nil => cases ht
  | cons u ts ih =>
    rw [List.map_cons, List.nodup_cons] at hnodup
    rcases List.mem_cons.mp ht with rfl | ht
    · rw [List.filter_cons_of_neg (by simpa using hover), List.filter_eq_self.mpr, List.length_cons]
      intro v hv
      simp only [decide_eq_true_eq]
      intro hv'
      exact hnodup.1 (List.mem_map.mpr ⟨v, hv, hv'.1.trans hover.1.symm⟩)
    · have hu : ¬ u.Over no := fun hu => hnodup.1 (List.mem_map.mpr ⟨t, ht, hover.1.trans hu.1.symm⟩)
      rw [List.filter_cons_of_pos (by simpa using hu), List.length_cons, List.length_cons, ih hnodup.2 ht]

theorem good_released {ms : List Move} (h : Good ms a) (ht : t ∈ a.tasks) (hover : t.Over no) :
    Good (ms ++ [.release no]) ⟨a.taken - 1, a.tasks.filter fun t => ¬ t.Over no, a.reads, a.sent⟩ where
  taken := by
    have := length_release h.distinct ht hover
    have := h.taken
    simp only
    omega
  few := Nat.le_trans (Nat.sub_le _ _) h.few
  distinct := (List.filter_sublist.map Task.no).nodup h.distinct
  known u hu := h.known u (List.mem_filter.mp hu).1
  fate n conn i hread := by
    refine (h.fate n conn i hread).later (List.subset_append_left ms _) rfl fun u => ?_
    rw [List.mem_filter]
    refine ⟨fun hu => ⟨hu.1.1, hu.2⟩, fun hu => ⟨⟨hu.1, ?_⟩, hu.2⟩⟩
    simp only [decide_eq_true_eq]
    exact fun hover => not_waits_of_over hover hu.2
  silent := h.silent

theorem Good.more {ms : List Move} (h : Good ms a) (m : Move) : Good (ms ++ [m]) a where
  taken := h.taken
  few := h.few
  distinct := h.distinct
  known := h.known
  fate n conn i hread := (h.fate n conn i hread).later (List.subset_append_left ms _) rfl fun _ => Iff.rfl
  silent := h.silent

theorem good_step {ms : List Move} (h : Good ms a) (m : Move) : Good (ms ++ [m]) (step a m) := by
  cases m with
  | read conn i =>
    simp only [step]
    split
    next hslot => exact good_taken h hslot conn i
    next => exact good_refused h conn i
  | reply no o =>
    simp only [step]
    split
    next => exact h.more _
    next t hfind =>
      exact good_replied h (List.mem_of_find?_eq_some hfind) (by simpa using List.find?_some hfind) o
  | release no =>
    simp only [step]
    split
    next => exact h.more _
    next t hfind => exact good_released h (List.mem_of_find?_eq_some hfind) (by simpa using List.find?_some hfind)

theorem good_run (ms : List Move) : Good ms (runs.final step start ms) := by
  induction ms using List.reverseRecOn with
  | nil => exact good_start
  | append_singleton ms m ih =>
    rw [runs.final_append]
    exact good_step ih m

/-! ## The laws -/

/-- In every run at most eight handlers hold a slot, each slot that is taken is held by
one of them, and the next request is refused exactly when there are eight. -/
theorem handlers_few (ms : List Move) :
    let a := runs.final step start ms
    a.tasks.length ≤ maxHandlers ∧ a.taken = a.tasks.length ∧ ∀ conn i,
      ((step a (.read conn i)).framesOf a.reads.length = (busyFrames i).map (Prod.mk conn) ↔
        a.tasks.length = maxHandlers) := by
  intro a
  have h : Good ms a := good_run ms
  refine ⟨h.taken ▸ h.few, h.taken, fun conn i => ?_⟩
  have hbusy : busyFrames i ≠ [] := List.cons_ne_nil _ _
  simp only [step]
  split
  next hslot =>
    refine iff_of_false ?_ (by have := h.taken; omega)
    have hnone := h.silent a.reads.length (Nat.le_refl _)
    intro heq
    exact hbusy (List.map_eq_nil_iff.mp (heq.symm.trans hnone))
  next hslot =>
    refine iff_of_true ?_ (by have := h.taken; have := h.few; omega)
    rw [framesOf_append, frames_mk, if_pos rfl, h.silent _ (Nat.le_refl _), List.nil_append]

theorem send_length (e : Envelope) : (send e).length ≤ 1 := by
  unfold send
  cases e.json <;> simp

theorem send_id {e : Envelope} {f : Json} (hf : f ∈ send e) : idOf f = e.id :=
  (envelope_get (Option.mem_toList.mp hf)).2.1

/-- In every run each request that was read has its handler at work, or was answered
once, with its own id and over its own connection: that the agent is busy, or what its
handler ended with. Nothing else is ever answered. -/
theorem answered_once (ms : List Move) :
    let a := runs.final step start ms
    (∀ no conn i, a.reads[no]? = some (conn, i) →
      Fate ms a no conn i ∧ (a.framesOf no).length ≤ 1 ∧ ∀ x ∈ a.framesOf no, x.1 = conn ∧ idOf x.2 = i.id) ∧
    ∀ no, a.reads.length ≤ no → a.framesOf no = [] := by
  intro a
  have h : Good ms a := good_run ms
  refine ⟨fun no conn i hread => ⟨h.fate no conn i hread, ?_⟩, h.silent⟩
  have hsent (e : Envelope) (hid : e.id = i.id) (heq : a.framesOf no = (send e).map (Prod.mk conn)) :
      (a.framesOf no).length ≤ 1 ∧ ∀ x ∈ a.framesOf no, x.1 = conn ∧ idOf x.2 = i.id := by
    rw [heq]
    refine ⟨by simpa using send_length e, fun x hx => ?_⟩
    obtain ⟨f, hf, rfl⟩ := List.mem_map.mp hx
    exact ⟨rfl, (send_id hf).trans hid⟩
  cases h.fate no conn i hread with
  | waiting hframes _ => simp [hframes]
  | refused hframes _ => exact hsent _ rfl hframes
  | answered o _ hframes _ => exact hsent _ (by cases o <;> rfl) hframes

end icsd_panel.slots

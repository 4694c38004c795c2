-- The answer of the agent to a request, and what the hub makes of it: Go drops
-- empty fields, and the hub looks at the error text only.
import IcsdPanel.Handlers

open jsons

namespace icsd_panel.replies

open handlers

/-! ## The agent -/

/-- A request frame. -/
structure Inbound where
  id : String
  op : String
  args : String

/-- The fields of `Envelope` that answers use. -/
structure Envelope where
  t : String
  id : String
  d : Option Value
  ok : Bool
  error : String

/-- The object that `json.Marshal` writes, `omitempty` fields left out; nothing
when the value cannot be written. -/
def Envelope.json (e : Envelope) : Option Json :=
  let text (k s : String) : List (String × Json) := if s = "" then [] else [(k, .str s)]
  let fields (d : List (String × Json)) : Json :=
    .obj ([("t", .str e.t)] ++ text "id" e.id ++ d ++ (if e.ok then [("ok", .bool true)] else []) ++
      text "error" e.error)
  match e.d with
  | none => some (fields [])
  | some (some j) => some (fields [("d", j)])
  | some none => none

/-- `send`: the frames that the connection gets. -/
def send (e : Envelope) : List Json := e.json.toList

def busy : String := "agent مشغول است؛ چند لحظه بعد"

def Outcome.reply (id : String) : Outcome → Envelope
  | .returned d err => ⟨"res", id, d, err = none, err.getD ""⟩
  | .panicked p => ⟨"res", id, none, false, "خطای داخلی agent: " ++ p⟩

/-- What `reader` does for a request, when a slot is free or none is. -/
def request (r : Runner) (free : Bool) (i : Inbound) : List Json :=
  if free then send (Outcome.reply i.id (handle r i.op i.args))
  else send ⟨"res", i.id, none, false, busy⟩

/-! ## The hub -/

def maxMessage : Nat := 4 * 1024 * 1024

def size (f : Json) : Nat := (encode f).length

/-- `str(msg.get("id", ""))` -/
def idOf (f : Json) : String := strOf (f.get "id")

/-- The message that `agent_ws` completes a pending call with. -/
def incoming (pending : List String) (f : Json) : Option (String × Json) :=
  if maxMessage < size f then none
  else if strOf (f.get "t") = "res" ∧ idOf f ∈ pending then some (idOf f, f)
  else none

inductive Answer
  | value (d : Option Json)
  | raised (message : String) (status : Nat)

/-- The end of `call`: with a message, or when its time is over. -/
def answer : Option Json → Answer
  | none => .raised "agent در زمان مقرر پاسخ نداد" 504
  | some m =>
    if truthy ((m.get "error").getD .null) then
      .raised (String.ofList ((strOf (m.get "error")).toList.take 1000)) 400
    else .value (m.get "d")

/-- What the call with the id `rid` ends with when a frame reaches the hub. -/
def callGets (pending : List String) (rid : String) (f : Json) : Answer :=
  answer ((incoming pending f).bind fun x => if x.1 = rid then some x.2 else none)

/-! ## The law -/

/-- The agent hands over one frame, with the id of the request, and the call
that waits for it returns a value exactly when `Handle` ran and returned no
error; else it raises. -/
def Answered (r : Runner) (free : Bool) (i : Inbound) : Prop :=
  ∃ f, request r free i = [f] ∧ idOf f = i.id ∧ ∀ pending, i.id ∈ pending →
    ((∃ d, callGets pending i.id f = .value d) ↔
      free = true ∧ ∃ d, handle r i.op i.args = .returned d none)

/-- What `Handle` returned can be written; an error has a text (or is too long
for the hub anyway), and a value is not too long for the hub. -/
def Plain (id : String) : Outcome → Prop
  | .panicked _ => True
  | .returned d err => ∃ f, (Outcome.reply id (.returned d err)).json = some f ∧
    match err with
    | none => size f ≤ maxMessage
    | some text => text ≠ "" ∨ maxMessage < size f

/-- The fields of a frame, with or without a value. -/
theorem fields_get (t id error : String) (d : List (String × Json)) (ok : Bool)
    (hd : d = [] ∨ ∃ j, d = [("d", j)]) :
    let f : Json := .obj ([("t", .str t)] ++ (if id = "" then [] else [("id", .str id)]) ++ d ++
      (if ok then [("ok", .bool true)] else []) ++ if error = "" then [] else [("error", .str error)])
    strOf (f.get "t") = t ∧ idOf f = id ∧
      f.get "error" = if error = "" then none else some (.str error) := by
  intro f
  refine ⟨rfl, ?_, ?_⟩
  · unfold idOf f Json.get
    by_cases h : id = ""
    · rcases hd with rfl | ⟨j, rfl⟩ <;> cases ok <;> by_cases he : error = "" <;>
        simp [h, he, strOf, List.lookup_cons]
    · simp [h, strOf, List.lookup_cons]
  · unfold f Json.get
    by_cases h : id = "" <;> rcases hd with rfl | ⟨j, rfl⟩ <;> cases ok <;> by_cases he : error = "" <;>
      simp [h, he, List.lookup_cons]

theorem envelope_get {e : Envelope} {f : Json} (h : e.json = some f) :
    strOf (f.get "t") = e.t ∧ idOf f = e.id ∧
      f.get "error" = if e.error = "" then none else some (.str e.error) := by
  unfold Envelope.json at h
  cases hd : e.d with
  | none =>
    rw [hd] at h
    rw [← Option.some.inj h]
    exact fields_get e.t e.id e.error [] e.ok (.inl rfl)
  | some v =>
    cases v with
    | none => simp [hd] at h
    | some j =>
      rw [hd] at h
      rw [← Option.some.inj h]
      exact fields_get e.t e.id e.error [("d", j)] e.ok (.inr ⟨j, rfl⟩)

/-- What a call gets from a frame for it. -/
theorem callGets_eq {e : Envelope} {f : Json} (h : e.json = some f) (ht : e.t = "res")
    {pending : List String} (hp : e.id ∈ pending) :
    (∃ d, callGets pending e.id f = .value d) ↔ size f ≤ maxMessage ∧ e.error = "" := by
  obtain ⟨h1, h2, h3⟩ := envelope_get h
  unfold callGets incoming
  by_cases hsize : maxMessage < size f
  · rw [if_pos hsize]
    refine iff_of_false ?_ (by omega)
    rintro ⟨d, hd⟩
    cases hd
  · rw [if_neg hsize, if_pos ⟨h1.trans ht, by rw [h2]; exact hp⟩]
    simp only [Option.bind_some, h2, if_true, answer, h3]
    by_cases he : e.error = ""
    · simp only [he, if_true, Option.getD_none, truthy, Bool.false_eq_true, if_false]
      exact iff_of_true ⟨_, rfl⟩ ⟨by omega, trivial⟩
    · have htrue : truthy (.str e.error) = true := by simp [truthy, he]
      simp only [he, if_false, Option.getD_some, htrue, if_true, and_false, iff_false]
      rintro ⟨d, hd⟩
      cases hd

theorem send_eq {e : Envelope} {f : Json} : send e = [f] ↔ e.json = some f := by
  unfold send
  cases e.json with
  | none => simp
  | some g => simp

theorem panicked_json (id p : String) : ∃ f, (Outcome.reply id (.panicked p)).json = some f :=
  ⟨_, rfl⟩

/-- Every request is answered as it should be exactly when no slot is free or
`Handle` returned something plain. -/
theorem answered_iff (r : Runner) (free : Bool) (i : Inbound) :
    Answered r free i ↔ free = false ∨ Plain i.id (handle r i.op i.args) := by
  unfold Answered request
  cases free with
  | false =>
    refine iff_of_true ?_ (.inl rfl)
    obtain ⟨f, hf⟩ : ∃ f, (⟨"res", i.id, none, false, busy⟩ : Envelope).json = some f := ⟨_, rfl⟩
    refine ⟨f, send_eq.mpr hf, (envelope_get hf).2.1, fun pending hp => ?_⟩
    rw [callGets_eq hf rfl hp]
    simp [busy]
  | true =>
    simp only [if_true, Bool.true_eq_false, false_or, true_and]
    cases handle r i.op i.args with
    | panicked p =>
      refine iff_of_true ?_ trivial
      obtain ⟨f, hf⟩ := panicked_json i.id p
      refine ⟨f, send_eq.mpr hf, (envelope_get hf).2.1, fun pending hp => ?_⟩
      have := callGets_eq hf rfl hp
      simp only [Outcome.reply] at this
      rw [this]
      simp
    | returned d err =>
      unfold Plain
      constructor
      · rintro ⟨f, hf, -, hlaw⟩
        have hjson := send_eq.mp hf
        refine ⟨f, hjson, ?_⟩
        have hget := hlaw [i.id] (List.mem_singleton_self _)
        have heq := callGets_eq hjson rfl (List.mem_singleton_self (Outcome.reply i.id (.returned d err)).id)
        have hiff := heq.symm.trans hget
        cases err with
        | none => exact (hiff.mpr ⟨d, rfl⟩).1
        | some text =>
          simp only [Outcome.reply, Option.getD_some] at hiff
          by_contra hbad
          push Not at hbad
          obtain ⟨d', hd'⟩ := hiff.mp ⟨hbad.2, hbad.1⟩
          cases hd'
      · rintro ⟨f, hjson, hplain⟩
        refine ⟨f, send_eq.mpr hjson, (envelope_get hjson).2.1, fun pending hp => ?_⟩
        refine (callGets_eq hjson rfl hp).trans ?_
        cases err with
        | none => exact iff_of_true ⟨hplain, rfl⟩ ⟨d, rfl⟩
        | some text =>
          refine iff_of_false ?_ (by simp)
          rintro ⟨hsize, htext⟩
          rcases hplain with h | h
          · exact h htext
          · omega

/-! ## An error without a text -/

/-- The agent of a server whose `nginx` may be touched, and whose `systemctl`
fails and prints a blank. -/
def blankRunner : Runner := some fun op =>
  if op = "svc.action" then
    some (svcAction ⟨["nginx"], []⟩ (fun _ => .ok ⟨"nginx", "restart"⟩)
      fun _ => ⟨" \n", false, some "exit status 1"⟩)
  else none

theorem blank_output_no_text : handle blankRunner "svc.action" "\x7b\x7d" = .returned none (some "") := by
  rfl

/-- The restart failed, and its call returns as if it had not. -/
theorem blank_output_succeeds : ¬ Answered blankRunner true ⟨"5f0c", "svc.action", "\x7b\x7d"⟩ := by
  rintro ⟨f, hf, -, hlaw⟩
  have hjson : f = .obj [("t", .str "res"), ("id", .str "5f0c")] := by
    have : request blankRunner true ⟨"5f0c", "svc.action", "\x7b\x7d"⟩ =
        send (Outcome.reply "5f0c" (.returned none (some ""))) := by
      rw [← blank_output_no_text]
      rfl
    rw [this] at hf
    exact (List.head_eq_of_cons_eq hf).symm
  subst hjson
  obtain ⟨d, hd⟩ := ((hlaw ["5f0c"] (List.mem_singleton_self _)).mp ⟨none, rfl⟩).2
  rw [blank_output_no_text] at hd
  cases hd

end icsd_panel.replies

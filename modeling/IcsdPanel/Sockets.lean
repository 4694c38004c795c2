-- The sockets of the agent of one server, the calls that the hub makes over them,
-- and what takes its access away. Tasks take turns at every `await`: a move is what
-- a task does between two of them.
import IcsdPanel.Live
import IcsdPanel.Replies

open dicts jsons

namespace icsd_panel.sockets

open live replies

/-! ## State -/

/-- The row of the server. A secret stands for its SHA-256, which is all that the
hub keeps, and `host` for the dump of which `host_json` holds 4000 characters. -/
structure Row where
  secret : Option String
  host : Option String
deriving DecidableEq

/-- `json.loads` of `host_json`: a dump that was cut is no JSON any more. -/
def parses (host : Option String) : Bool := (host.getD "").length ≤ 4000

/-- What the sockets use of a `Live` object. Requests are pending under their
ids; `manage` is the mode among the `caps`. -/
structure Live where
  ws : Option Nat
  manage : Bool
  pending : Dict String Nat
  lock : Option Nat

def Live.new : Live := ⟨none, false, .empty, none⟩

/-- Where a handler `agent_ws` is: suspended in one of its awaits, or over. -/
inductive Stage
  | accepting | refusing | replacing | greeting | reading | yielding | ended
deriving DecidableEq

/-- It has authenticated and is not over. -/
def Stage.known : Stage → Bool
  | .replacing | .greeting | .reading | .yielding => true
  | _ => false

/-- It has registered its socket and is not over. -/
def Stage.joined : Stage → Bool
  | .greeting | .reading | .yielding => true
  | _ => false

/-- A socket with its handler: the secret that its header carries for this
server, and its `Live` object once it has one. A socket that the hub closed gives
at most the message that a pending `receive_text` got before. -/
structure Conn where
  stage : Stage
  isOpen : Bool
  secret : Option String
  lv : Nat
deriving DecidableEq

/-- A task that waits until the socket it closes is closed. -/
inductive Task
  | closing | finished
deriving DecidableEq

/-- The future of a call. -/
inductive Fut
  | waits
  | reply (m : Json)
  | lost

def Fut.done : Fut → Bool
  | .waits => false
  | _ => true

inductive CallStage
  | locking
  | sending
  | waiting
  | finished (a : Answer)

def CallStage.isOver : CallStage → Bool
  | .finished _ => true
  | _ => false

structure Call where
  stage : CallStage
  rid : String
  lv : Nat
  ws : Nat
  fut : Fut

structure Hub where
  row : Option Row
  live : Option Nat
  objects : Nat → Live
  fresh : Nat
  conns : Dict Nat Conn
  enrolls : Dict Nat Task
  deletes : Dict Nat Task
  calls : Dict Nat Call

/-- A server that was created and did not enroll yet. -/
def start : Hub := ⟨some ⟨none, none⟩, none, fun _ => .new, 0, .empty, .empty, .empty, .empty⟩

/-! ## Small changes -/

def Hub.setConn (h : Hub) (j : Nat) (c : Conn) : Hub := { h with conns := h.conns.set j c }

def Hub.setLive (h : Hub) (l : Nat) (lv : Live) : Hub :=
  { h with objects := Function.update h.objects l lv }

def Hub.setCall (h : Hub) (i : Nat) (x : Call) : Hub := { h with calls := h.calls.set i x }

/-- The hub closes a socket. -/
def shut (j : Nat) (h : Hub) : Hub :=
  match h.conns.get j with
  | some c => h.setConn j { c with isOpen := false }
  | none => h

/-- A handler is over, and its socket with it. -/
def leave (j : Nat) (c : Conn) (h : Hub) : Hub := h.setConn j { c with stage := .ended, isOpen := false }

/-- `live.get` -/
def getLive (h : Hub) : Nat × Hub :=
  match h.live with
  | some l => (l, h)
  | none => (h.fresh, { h.setLive h.fresh .new with live := some h.fresh, fresh := h.fresh + 1 })

/-- `_authenticate` -/
def authenticate (h : Hub) (secret : Option String) : Bool :=
  match h.row with
  | some r => decide (secret ≠ none ∧ r.secret = secret)
  | none => false

/-! ## The handler -/

/-- From the registration to the next await, or to a line that raises before it. -/
def register (j : Nat) (c : Conn) (raises : Bool) (h : Hub) : Hub :=
  let h := h.setLive c.lv { h.objects c.lv with ws := some j }
  if raises then leave j c h else h.setConn j { c with stage := .greeting }

/-- What follows `accept`. -/
def accepted (j : Nat) (c : Conn) (raises : Bool) (h : Hub) : Hub :=
  if authenticate h c.secret then
    let (l, h) := getLive h
    let c := { c with lv := l }
    match (h.objects l).ws with
    | some old =>
      (shut old (h.setLive l { h.objects l with ws := none })).setConn j { c with stage := .replacing }
    | none => register j c raises h
  else h.setConn j { c with stage := .refusing, isOpen := false }

/-- A pending future is completed with the status 503. -/
def Call.lose (x : Call) : Call :=
  match x.fut with
  | .waits => { x with fut := .lost }
  | _ => x

def Call.get (x : Call) (m : Json) : Call :=
  match x.fut with
  | .waits => { x with fut := .reply m }
  | _ => x

/-- The pending calls of a `Live` object are completed so. -/
def loseAll (lv : Live) (calls : Dict Nat Call) : Dict Nat Call :=
  calls.mapVal fun i x => if lv.pending.entries.any fun e => e.2 = i then x.lose else x

/-- The `finally` of the handler. -/
def cleanUp (j : Nat) (c : Conn) (h : Hub) : Hub :=
  let lv := h.objects c.lv
  if lv.ws = some j then
    let h := { h with calls := loseAll lv h.calls }
    leave j c (h.setLive c.lv { lv with ws := none, pending := .empty })
  else leave j c h

/-- The next `receive_text`; of a socket that is closed it raises. -/
def again (j : Nat) (c : Conn) (h : Hub) : Hub :=
  if c.isOpen then h.setConn j { c with stage := .reading } else cleanUp j c h

/-- The lines between the first message and the loop. -/
def greeted (j : Nat) (c : Conn) (h : Hub) : Hub :=
  if parses (h.row.bind Row.host) then again j c h else leave j c h

/-- A message, by what the loop does with it. A sample says nothing about sockets. -/
inductive Message
  | skipped
  | ignored
  | sample (raw : Raw) (cpus : Int)
  | res (m : Json)
  | hello (host : String) (manage : Bool)

/-- The pending call of a reply is completed. -/
def complete (l : Nat) (m : Json) (h : Hub) : Hub :=
  let lv := h.objects l
  match lv.pending.get (idOf m) with
  | none => h
  | some i =>
    let h := h.setLive l { lv with pending := lv.pending.erase (idOf m) }
    match h.calls.get i with
    | none => h
    | some x => h.setCall i (x.get m)

def received (j : Nat) (c : Conn) (msg : Message) (h : Hub) : Hub :=
  let rest (h : Hub) := h.setConn j { c with stage := .yielding }
  match msg with
  | .skipped => again j c h
  | .ignored => rest h
  | .sample _ _ => rest h
  | .res m => rest (complete c.lv m h)
  | .hello host manage =>
    let h := { h with row := h.row.map fun (r : Row) => { r with host := some host } }
    rest (h.setLive c.lv { h.objects c.lv with manage := manage })

/-! ## Enrolling and deleting -/

/-- `enroll` from the `UPDATE` on, up to its await. -/
def enroll (k : Nat) (secret host : String) (h : Hub) : Hub :=
  match h.row with
  | none => h
  | some _ =>
    let h := { h with row := some ⟨some secret, some host⟩ }
    match h.live.bind fun l => (h.objects l).ws with
    | some j => { shut j h with enrolls := h.enrolls.set k .closing }
    | none => { h with enrolls := h.enrolls.set k .finished }

/-- `delete_server` after its await. -/
def forget (k : Nat) (h : Hub) : Hub :=
  { h with row := none, live := none, deletes := h.deletes.set k .finished }

/-- `delete_server` up to its await, or to its end where there is no socket. -/
def delete (k : Nat) (h : Hub) : Hub :=
  match h.live.bind fun l => (h.objects l).ws with
  | some j => { shut j h with deletes := h.deletes.set k .closing }
  | none => forget k h

/-! ## Calls -/

/-- `call` up to the lock. -/
def call (i : Nat) (rid : String) (h : Hub) : Hub :=
  let ends (a : Answer) := h.setCall i ⟨.finished a, rid, 0, 0, .waits⟩
  match h.live with
  | none => ends (.raised "این سرور الان به پنل وصل نیست" 503)
  | some l =>
    let lv := h.objects l
    match lv.ws with
    | none => ends (.raised "این سرور الان به پنل وصل نیست" 503)
    | some j =>
      if !lv.manage then
        ends (.raised "این سرور در حالت «فقط مانیتورینگ» است؛ برای مدیریت، agent را با --upgrade نصب کنید" 409)
      else
        let lv := { lv with pending := lv.pending.set rid i }
        if lv.lock = none then
          (h.setLive l { lv with lock := some i }).setCall i ⟨.sending, rid, l, j, .waits⟩
        else (h.setLive l lv).setCall i ⟨.locking, rid, l, j, .waits⟩

/-- A call that waited for the lock gets it. -/
def locked (i : Nat) (x : Call) (h : Hub) : Hub :=
  let lv := h.objects x.lv
  if lv.lock = none then
    (h.setLive x.lv { lv with lock := some i }).setCall i { x with stage := .sending }
  else h

def unlock (l : Nat) (h : Hub) : Hub := h.setLive l { h.objects l with lock := none }

/-- The request went out, over a socket whose handler is still there. -/
def sent (i : Nat) (x : Call) (h : Hub) : Hub :=
  match h.conns.get x.ws with
  | some c =>
    if c.stage = .ended then h else (unlock x.lv h).setCall i { x with stage := .waiting }
  | none => h

/-- The end of `call`. -/
def finish (i : Nat) (x : Call) (a : Answer) (h : Hub) : Hub :=
  let lv := h.objects x.lv
  (h.setLive x.lv { lv with pending := lv.pending.erase x.rid }).setCall i { x with stage := .finished a }

def cut : Answer := .raised "ارتباط با agent قطع شد" 503

/-- `wait_for` comes back with the future. -/
def resumed (i : Nat) (x : Call) (h : Hub) : Hub :=
  match x.fut with
  | .waits => h
  | .reply m => finish i x (answer (some m)) h
  | .lost => finish i x cut h

/-! ## Moves -/

inductive Move
  | connect (j : Nat) (secret : Option String)
  | accepted (j : Nat) (raises : Bool)
  | dropped (j : Nat)
  | refused (j : Nat)
  | replaced (j : Nat) (raises : Bool)
  | greeted (j : Nat)
  | ungreeted (j : Nat)
  | received (j : Nat) (msg : Message)
  | woke (j : Nat)
  | lost (j : Nat)
  | enroll (k : Nat) (secret host : String)
  | enrolled (k : Nat)
  | delete (k : Nat)
  | deleted (k : Nat)
  | call (i : Nat) (rid : String)
  | locked (i : Nat)
  | sent (i : Nat)
  | unsent (i : Nat)
  | timedOut (i : Nat)
  | resumed (i : Nat)

/-- A handler goes on where it is suspended. -/
def Hub.at (h : Hub) (j : Nat) (p : Stage → Bool) (f : Conn → Hub) : Hub :=
  match h.conns.get j with
  | some c => if p c.stage then f c else h
  | none => h

def CallStage.isLocking : CallStage → Bool
  | .locking => true
  | _ => false

def CallStage.isSending : CallStage → Bool
  | .sending => true
  | _ => false

def CallStage.isWaiting : CallStage → Bool
  | .waiting => true
  | _ => false

/-- A call goes on where it is suspended. -/
def Hub.atCall (h : Hub) (i : Nat) (p : CallStage → Bool) (f : Call → Hub) : Hub :=
  match h.calls.get i with
  | some x => if p x.stage then f x else h
  | none => h

/-- A move out of turn does nothing. -/
def Hub.move (h : Hub) : Move → Hub
  | .connect j secret =>
    if h.conns.get j = none then h.setConn j ⟨.accepting, true, secret, 0⟩ else h
  | .accepted j raises => h.at j (· = .accepting) fun c => sockets.accepted j c raises h
  | .dropped j =>
    h.at j (fun s => s = .accepting || s = .refusing || s = .replacing) fun c => leave j c h
  | .refused j => h.at j (· = .refusing) fun c => leave j c h
  | .replaced j raises => h.at j (· = .replacing) fun c => register j c raises h
  | .greeted j => h.at j (· = .greeting) fun c => sockets.greeted j c h
  | .ungreeted j => h.at j (· = .greeting) fun c => leave j c h
  | .received j msg => h.at j (· = .reading) fun c => sockets.received j c msg h
  | .woke j => h.at j (· = .yielding) fun c => again j c h
  | .lost j => h.at j (fun s => s = .reading || s = .yielding) fun c => cleanUp j c h
  | .enroll k secret host =>
    if h.enrolls.get k = none then sockets.enroll k secret host h else h
  | .enrolled k =>
    if h.enrolls.get k = some .closing then { h with enrolls := h.enrolls.set k .finished } else h
  | .delete k => if h.deletes.get k = none then sockets.delete k h else h
  | .deleted k => if h.deletes.get k = some .closing then forget k h else h
  | .call i rid => if (h.calls.get i).isNone then sockets.call i rid h else h
  | .locked i => h.atCall i CallStage.isLocking fun x => sockets.locked i x h
  | .sent i => h.atCall i CallStage.isSending fun x => sockets.sent i x h
  | .unsent i => h.atCall i CallStage.isSending fun x => finish i x cut (unlock x.lv h)
  | .timedOut i => h.atCall i CallStage.isWaiting fun x => finish i x (answer none) h
  | .resumed i => h.atCall i CallStage.isWaiting fun x => sockets.resumed i x h

/-- The handler goes on receiving over this socket. -/
def Reads (c : Conn) : Prop := (c.stage = .reading ∨ c.stage = .yielding) ∧ c.isOpen = true

/-- The socket of a handler is registered. -/
def isRegistered (h : Hub) (j : Nat) : Bool :=
  (h.conns.get j).any fun c => (h.objects c.lv).ws = some j

/-- No handshake and no revocation is under way. -/
def Settled (h : Hub) : Prop :=
  (∀ e ∈ h.conns.entries, e.2.stage = .reading ∨ e.2.stage = .yielding ∨ e.2.stage = .ended) ∧
    (∀ e ∈ h.enrolls.entries, e.2 = .finished) ∧ ∀ e ∈ h.deletes.entries, e.2 = .finished

instance (h : Hub) : Decidable (Settled h) := inferInstanceAs (Decidable (_ ∧ _ ∧ _))

/-- The agent enrolls and connects. -/
def connected (secret : String) : List Move :=
  [.enroll 1 secret "\x7b\x7d", .connect 1 (some secret), .accepted 1 false]

/-! ## What the small changes leave -/

variable {h : Hub} {j q l : Nat} {c : Conn}

@[simp] theorem setConn_get : (h.setConn j c).conns.get q = if q = j then some c else h.conns.get q :=
  Dict.get_set

@[simp] theorem setConn_row : (h.setConn j c).row = h.row := rfl

@[simp] theorem setConn_live : (h.setConn j c).live = h.live := rfl

@[simp] theorem setConn_objects : (h.setConn j c).objects = h.objects := rfl

@[simp] theorem setConn_deletes : (h.setConn j c).deletes = h.deletes := rfl

@[simp] theorem setConn_calls : (h.setConn j c).calls = h.calls := rfl

@[simp] theorem setLive_objects {lv : Live} :
    (h.setLive l lv).objects q = if q = l then lv else h.objects q := Function.update_apply _ _ _ _

@[simp] theorem setLive_row {lv : Live} : (h.setLive l lv).row = h.row := rfl

@[simp] theorem setLive_live {lv : Live} : (h.setLive l lv).live = h.live := rfl

@[simp] theorem setLive_conns {lv : Live} : (h.setLive l lv).conns = h.conns := rfl

@[simp] theorem setLive_deletes {lv : Live} : (h.setLive l lv).deletes = h.deletes := rfl

@[simp] theorem setLive_calls {lv : Live} : (h.setLive l lv).calls = h.calls := rfl

@[simp] theorem setCall_get {x : Call} :
    (h.setCall j x).calls.get q = if q = j then some x else h.calls.get q := Dict.get_set

@[simp] theorem setCall_objects {x : Call} : (h.setCall j x).objects = h.objects := rfl

@[simp] theorem setCall_conns {x : Call} : (h.setCall j x).conns = h.conns := rfl

@[simp] theorem shut_get : (shut j h).conns.get q =
    (h.conns.get q).map fun c => if q = j then { c with isOpen := false } else c := by
  unfold shut
  split
  · rename_i c hc
    rw [setConn_get]
    split
    · rename_i hq
      rw [hq, hc]
      rfl
    · cases h.conns.get q <;> rfl
  · rename_i hc
    by_cases hq : q = j
    · rw [hq, hc]
      rfl
    · cases h.conns.get q <;> simp [hq]

/-- Nothing but the open flag of one socket changes. -/
theorem shut_same : (shut j h).row = h.row ∧ (shut j h).live = h.live ∧
    (shut j h).objects = h.objects ∧ (shut j h).deletes = h.deletes ∧ (shut j h).calls = h.calls := by
  unfold shut
  split <;> exact ⟨rfl, rfl, rfl, rfl, rfl⟩

theorem Reads.joined (hr : Reads c) : c.stage.joined = true := by
  rcases hr.1 with hs | hs <;> rw [hs] <;> rfl

theorem known_of_joined (hj : c.stage.joined = true) : c.stage.known = true := by
  cases hs : c.stage <;> rw [hs] at hj <;> first | rfl | cases hj

/-- The sockets and what is about them are as before. -/
structure SameNet (h h' : Hub) : Prop where
  row : h'.row = h.row
  live : h'.live = h.live
  conns : h'.conns = h.conns
  deletes : h'.deletes = h.deletes
  ws : ∀ l, (h'.objects l).ws = (h.objects l).ws

theorem SameNet.refl (h : Hub) : SameNet h h := ⟨rfl, rfl, rfl, rfl, fun _ => rfl⟩

theorem SameNet.trans {a b c : Hub} (h1 : SameNet a b) (h2 : SameNet b c) : SameNet a c :=
  ⟨h2.row.trans h1.row, h2.live.trans h1.live, h2.conns.trans h1.conns, h2.deletes.trans h1.deletes,
    fun l => (h2.ws l).trans (h1.ws l)⟩

theorem sameNet_setCall (h : Hub) (i : Nat) (x : Call) : SameNet h (h.setCall i x) :=
  ⟨rfl, rfl, rfl, rfl, fun _ => rfl⟩

theorem sameNet_setLive (h : Hub) {lv : Live} (hws : lv.ws = (h.objects l).ws) :
    SameNet h (h.setLive l lv) := by
  refine ⟨rfl, rfl, rfl, rfl, fun q => ?_⟩
  rw [setLive_objects]
  split
  · rename_i hq
    rw [hws, hq]
  · rfl

theorem sameNet_set (h : Hub) {lv : Live} (i : Nat) (x : Call) (hws : lv.ws = (h.objects l).ws) :
    SameNet h ((h.setLive l lv).setCall i x) :=
  (sameNet_setLive h hws).trans (sameNet_setCall _ _ _)

theorem sameNet_complete (h : Hub) (l : Nat) (m : Json) : SameNet h (complete l m h) := by
  unfold complete
  simp only
  split
  · exact .refl h
  · split
    · exact sameNet_setLive h rfl
    · exact sameNet_set h _ _ rfl

theorem sameNet_finish (h : Hub) (i : Nat) (x : Call) (a : Answer) : SameNet h (finish i x a h) :=
  sameNet_set h _ _ rfl

theorem sameNet_call (h : Hub) (i : Nat) (rid : String) : SameNet h (call i rid h) := by
  unfold call
  cases hlive : h.live with
  | none => exact sameNet_setCall _ _ _
  | some l =>
    simp only
    split
    · exact sameNet_setCall _ _ _
    · split
      · exact sameNet_setCall _ _ _
      · split
        · exact sameNet_set h _ _ rfl
        · exact sameNet_set h _ _ rfl

theorem sameNet_locked (h : Hub) (i : Nat) (x : Call) : SameNet h (locked i x h) := by
  unfold locked
  simp only
  split
  · exact sameNet_set h _ _ rfl
  · exact .refl h

theorem sameNet_sent (h : Hub) (i : Nat) (x : Call) : SameNet h (sent i x h) := by
  unfold sent
  split
  · split
    · exact .refl h
    · exact sameNet_set h _ _ rfl
  · exact .refl h

theorem sameNet_resumed (h : Hub) (i : Nat) (x : Call) : SameNet h (resumed i x h) := by
  unfold resumed
  split
  · exact .refl h
  · exact sameNet_finish _ _ _ _
  · exact sameNet_finish _ _ _ _

theorem atCall_sameNet {i : Nat} {p : CallStage → Bool} {f : Call → Hub}
    (hf : ∀ x, SameNet h (f x)) : SameNet h (h.atCall i p f) := by
  unfold Hub.atCall
  split
  · split
    · exact hf _
    · exact .refl h
  · exact .refl h

/-- Whether a move deletes the row of the server. -/
def deletesRow (h : Hub) : Move → Bool
  | .delete k => h.deletes.get k = none && (h.live.bind fun l => (h.objects l).ws) = none
  | .deleted k => h.deletes.get k = some .closing
  | _ => false

/-- The moves of the calls. -/
def Move.ofCall : Move → Bool
  | .call _ _ | .locked _ | .sent _ | .unsent _ | .timedOut _ | .resumed _ => true
  | _ => false

theorem sameNet_move {m : Move} (hm : m.ofCall) : SameNet h (h.move m) := by
  cases m with
  | call i rid =>
    simp only [Hub.move]
    split
    · exact sameNet_call h i rid
    · exact .refl h
  | locked i => exact atCall_sameNet fun x => sameNet_locked h i x
  | sent i => exact atCall_sameNet fun x => sameNet_sent h i x
  | unsent i =>
    refine atCall_sameNet fun x => ?_
    have hunlock : SameNet h (unlock x.lv h) := sameNet_setLive h rfl
    exact hunlock.trans (sameNet_finish _ i x cut)
  | timedOut i => exact atCall_sameNet fun x => sameNet_finish h i x _
  | resumed i => exact atCall_sameNet fun x => sameNet_resumed h i x
  | _ => cases hm

/-! ## The row -/

theorem cleanUp_row : (cleanUp j c h).row = h.row := by
  unfold cleanUp
  simp only
  split <;> rfl

theorem again_row : (again j c h).row = h.row := by
  unfold again
  split
  · rfl
  · exact cleanUp_row

theorem register_row {raises : Bool} : (register j c raises h).row = h.row := by
  unfold register
  cases raises <;> rfl

theorem accepted_row {raises : Bool} : (accepted j c raises h).row = h.row := by
  have hget : (getLive h).2.row = h.row := by
    unfold getLive
    split <;> rfl
  unfold accepted
  split
  · generalize getLive h = g at hget ⊢
    obtain ⟨l, g⟩ := g
    simp only at hget ⊢
    split
    · rw [setConn_row, shut_same.1]
      exact hget
    · exact register_row.trans hget
  · rfl

theorem received_row {msg : Message} (hr : h.row ≠ none) : (received j c msg h).row ≠ none := by
  cases msg with
  | skipped => exact again_row.symm ▸ hr
  | ignored => exact hr
  | sample raw cpus => exact hr
  | res m => exact (sameNet_complete h c.lv m).row.symm ▸ hr
  | hello host manage => simpa [received] using hr

theorem at_row {p : Stage → Bool} {f : Conn → Hub} (hr : h.row ≠ none) (hf : ∀ c, (f c).row ≠ none) :
    (h.at j p f).row ≠ none := by
  unfold Hub.at
  split
  · split
    · exact hf _
    · exact hr
  · exact hr

/-- Only a deletion takes the row away. -/
theorem row_move {m : Move} (hr : h.row ≠ none) (hd : deletesRow h m = false) : (h.move m).row ≠ none := by
  by_cases hcall : m.ofCall = true
  · rw [(sameNet_move hcall).row]
    exact hr
  unfold Hub.move
  cases m with
  | connect j secret =>
    simp only
    split <;> exact hr
  | accepted j raises => exact at_row hr fun c => accepted_row.symm ▸ hr
  | dropped j => exact at_row hr fun c => hr
  | refused j => exact at_row hr fun c => hr
  | replaced j raises => exact at_row hr fun c => register_row.symm ▸ hr
  | greeted j =>
    refine at_row hr fun c => ?_
    unfold greeted
    split
    · exact again_row.symm ▸ hr
    · exact hr
  | ungreeted j => exact at_row hr fun c => hr
  | received j msg => exact at_row hr fun c => received_row hr
  | woke j => exact at_row hr fun c => again_row.symm ▸ hr
  | lost j => exact at_row hr fun c => cleanUp_row.symm ▸ hr
  | enroll k secret host =>
    simp only
    split
    · unfold enroll
      split
      · exact hr
      · simp only
        split
        · rw [shut_same.1]
          simp
        · simp
    · exact hr
  | enrolled k =>
    simp only
    split <;> exact hr
  | delete k =>
    simp only
    split
    · rename_i hk
      unfold delete
      split
      · rename_i j hws
        exact shut_same.1.symm ▸ hr
      · rename_i hws
        simp [deletesRow, hk, hws] at hd
    · exact hr
  | deleted k =>
    simp only
    split
    · rename_i hk
      simp [deletesRow, hk] at hd
    · exact hr
  | call i rid => exact absurd rfl hcall
  | locked i => exact absurd rfl hcall
  | sent i => exact absurd rfl hcall
  | unsent i => exact absurd rfl hcall
  | timedOut i => exact absurd rfl hcall
  | resumed i => exact absurd rfl hcall

end icsd_panel.sockets

-- Uploads that cross on one server: any number of senders, each with its own
-- loop. A request can be lost, be carried out late, or lose its answer.
import IcsdPanel.Calm
import IcsdPanel.Dicts
import IcsdPanel.Runs
import IcsdPanel.Senders
import IcsdPanel.Uploads

open dicts effects

namespace icsd_panel.crossings

open paths disk machine policy files uploads senders

/-! ## State -/

/-- What a sender is given: a text of the editor, a file of the form, or a
backup on another server. -/
inductive Task
  | writeBytes (path : String) (data : Bytes) (ifMtime : Int)
  | upload (path : String) (data : Bytes)
  | copy (path : String)
deriving DecidableEq, Repr

/-- Where a sender is: about to send, waiting for an answer, or over. -/
inductive Phase
  | ready | waiting | failed | done
deriving DecidableEq, Repr

/-- A sender. Its request is in `flight` until the agent carries it out, and then
its answer, an error or a reply, is on the way back. The last four are not in the
code: the bytes it handed over, those that the agent took, the name of its temporary
file, and, once its last chunk was accepted, the place and what was there then. -/
structure Client where
  path : String
  ifMtime : Int
  content : Option Bytes
  loop : Loop
  vars : Vars
  phase : Phase
  chunk : Chunk
  flight : Option WriteArgs
  reply : Option (Option WriteReply)
  given : Bytes
  taken : Bytes
  name : Option Name
  installed : Option (Loc × Option Node)

/-- A sender before its first turn. -/
def Client.new (path : String) (ifMtime : Int) (content : Option Bytes) (loop : Loop) : Client where
  path
  ifMtime
  content
  loop
  vars := ⟨0, ""⟩
  phase := .ready
  chunk := ⟨[], false⟩
  flight := none
  reply := none
  given := []
  taken := []
  name := none
  installed := none

/-- The form has read its first chunk. -/
def Task.client : Task → Client
  | .writeBytes path data ifMtime => .new path ifMtime (some data) (.bytes data)
  | .upload path data => .new path 0 (some data) (.form (data.take chunkSize) (data.drop chunkSize))
  | .copy path => .new path 0 none .copy

/-- The server, the senders, and the names that were drawn so far. -/
structure Net where
  disk : Disk
  clients : Dict Nat Client
  used : List Name

def start (d : Disk) : Net := ⟨d, .empty, []⟩

def Net.setClient (h : Net) (k : Nat) (c : Client) : Net := { h with clients := h.clients.set k c }

/-! ## Moves -/

/-- A new sender, a turn of one, the agent that carries a request out or answers
the abort of a copy, and the ways in which a call ends for its sender. -/
inductive Move
  | begin (k : Nat) (t : Task)
  | send (k : Nat) (part : ReadReply)
  | serve (k : Nat) (e : Env)
  | hear (k : Nat)
  | giveUp (k : Nat)
  | lose (k : Nat)
  | abort (k : Nat) (e : Env)

def sent (part : ReadReply) (c : Client) : Client :=
  let chunk := c.loop.chunk c.vars part
  { c with
    phase := .waiting
    chunk
    flight := some (request c.path c.ifMtime c.vars chunk)
    given := c.given ++ chunk.data }

/-- The client after the agent carried its request out, with the disk then. Nobody
waits for the answer of a sender that gave up. -/
def served (e : Env) (i : WriteArgs) (r : Option WriteReply) (d : Disk) (c : Client) : Client :=
  let c := { c with flight := none, reply := if c.phase = .waiting then some r else none }
  match r with
  | none => c
  | some (.more _ _) =>
    { c with
      taken := c.taken ++ c.chunk.data
      name := if i.offset = 0 then some (tempName (e.luck 0).draw) else c.name }
  | some (.done real _ _) =>
    { c with taken := c.taken ++ c.chunk.data, installed := some (real, d.get real) }

def heard (r : Option WriteReply) (c : Client) : Client :=
  match r with
  | none => { c with phase := .failed, reply := none }
  | some r =>
    { c with
      reply := none
      vars := c.vars.after c.chunk r
      loop := if c.chunk.final then c.loop else c.loop.next
      phase := if c.chunk.final then .done else .ready }

/-- Carries `f` out when the client `k` is there. -/
def Net.at (h : Net) (k : Nat) (f : Client → Net) : Net :=
  match h.clients.get k with
  | some c => f c
  | none => h

/-- What the agent does in a move. -/
def Net.work (pol : Policy) (h : Net) : Move → World
  | .serve k e =>
    match (h.clients.get k).bind Client.flight with
    | some i => (fsWrite pol i e (World.start h.disk)).2
    | none => World.start h.disk
  | .abort k e =>
    match h.clients.get k with
    | some c =>
      -- Only a copy that failed cleans up.
      if c.phase = .failed ∧ c.content = none ∧ c.vars.upload ≠ "" then
        (fsAbort pol ⟨c.path, c.vars.upload⟩ e (World.start h.disk)).2
      else World.start h.disk
    | none => World.start h.disk
  | _ => World.start h.disk

/-- The agent carries the request `i` of the client `k` out. -/
def serve (pol : Policy) (k : Nat) (e : Env) (i : WriteArgs) (c : Client) (h : Net) : Net :=
  let r := fsWrite pol i e (World.start h.disk)
  { disk := r.2.disk
    clients := h.clients.set k (served e i r.1.toOption r.2.disk c)
    used := if i.offset = 0 then tempName (e.luck 0).draw :: h.used else h.used }

def Net.move (pol : Policy) (h : Net) (m : Move) : Net :=
  match m with
  | .begin k t => if h.clients.get k = none then h.setClient k t.client else h
  | .send k part => h.at k fun c => if c.phase = .ready then h.setClient k (sent part c) else h
  | .serve k e => h.at k fun c =>
    match c.flight with
    | some i => serve pol k e i c h
    | none => h
  | .hear k => h.at k fun c =>
    match c.reply with
    | some r => h.setClient k (heard r c)
    | none => h
  | .giveUp k => h.at k fun c =>
    if c.phase = .waiting then h.setClient k { c with phase := .failed, reply := none } else h
  | .lose k => h.at k fun c => h.setClient k { c with flight := none }
  | .abort _ _ => { h with disk := (h.work pol m).disk }

/-! ## What is assumed -/

/-- The request that the agent carries out in a move. -/
def Net.asked (h : Net) : Move → Option (Env × WriteArgs)
  | .serve k e => ((h.clients.get k).bind Client.flight).map fun i => (e, i)
  | _ => none

/-- No entry of the disk has the name. -/
def Unnamed (d : Disk) (n : Name) : Prop := ∀ dir, d.get (dir ++ [n]) = none

instance (d : Disk) (n : Name) : Decidable (Unnamed d n) :=
  decidable_of_iff (∀ q ∈ d.tree.known, q.getLast? = some n → d.get q = none) <| by
    constructor
    · intro h dir
      by_contra hne
      have hsome : (d.get (dir ++ [n])).isSome := Option.isSome_iff_ne_none.mpr hne
      exact hne (h _ (d.tree.covers _ hsome) (by simp))
    · rintro h q - hq
      obtain ⟨dir, rfl⟩ := List.getLast?_eq_some_iff.mp hq
      exact h dir

instance (q : Loc) : Decidable (IsTemp q) :=
  decidable_of_iff (q.getLast?.any isUploadName = true) <| by
    unfold IsTemp
    constructor
    · intro h
      obtain ⟨n, hn, hname⟩ := Option.any_eq_true _ _ |>.mp h
      obtain ⟨dir, rfl⟩ := List.getLast?_eq_some_iff.mp hn
      exact ⟨dir, n, rfl, hname⟩
    · rintro ⟨dir, n, rfl, hname⟩
      simpa using hname

/-- `os.CreateTemp` draws a name that is new, and no target has the name of a
temporary file. -/
def Assumed (pol : Policy) (h : Net) (m : Move) : Prop :=
  ∀ x ∈ h.asked m,
    (x.2.offset = 0 → tempName (x.1.luck 0).draw ∉ h.used ∧
      Unnamed h.disk (tempName (x.1.luck 0).draw)) ∧
    ∀ real ∈ (check pol h.disk x.2.path true).toOption, ¬ IsTemp real

instance (pol : Policy) (h : Net) (m : Move) : Decidable (Assumed pol h m) :=
  inferInstanceAs (Decidable (∀ x ∈ h.asked m, _ ∧ _))

/-! ## What is promised -/

/-- The bytes of a sender: what it was given to send, or what the copy read. -/
def Client.bytes (c : Client) : Bytes := c.content.getD c.given

/-- Every file but the temporary ones is as it was at first, or has all the bytes
of a sender whose last chunk was accepted. -/
def Whole (d0 : Disk) (cs : Dict Nat Client) (d : Disk) : Prop :=
  ∀ q, ¬ IsTemp q → d.get q = d0.get q ∨
    ∃ k c f, cs.get k = some c ∧ c.installed = some (q, some (.file f)) ∧ f.content = c.bytes ∧
      d.get q = some (.file f)

/-- What a sender that ended well installed: all its bytes. -/
def Delivered (c : Client) : Prop :=
  c.phase = .done → ∃ q f, c.installed = some (q, some (.file f)) ∧ f.content = c.bytes

/-- What a move installs is at the place that `check` finds for the path of its sender. -/
def Placed (pol : Policy) (h : Net) (m : Move) : Prop :=
  ∀ k c q x, (h.move pol m).clients.get k = some c → c.installed = some (q, x) →
    (h.clients.get k).bind Client.installed ≠ some (q, x) → check pol h.disk c.path true = .ok q

/-! ## The invariant -/

variable {pol : Policy} {d d' d0 : Disk} {e : Env} {i : WriteArgs} {r : Option WriteReply} {c : Client}
  {h : Net} {k : Nat} {n : Name} {b : Bytes} {q : Loc}

/-- At most one entry of the disk has the name, and it is a file with the bytes. -/
def Holds (d : Disk) (n : Name) (b : Bytes) : Prop :=
  ∃ dir, ∀ dir', d.get (dir' ++ [n]) ≠ none →
    dir' = dir ∧ ∃ f, d.get (dir' ++ [n]) = some (.file f) ∧ f.content = b

/-- The loop and the agent agree on how far the upload is. -/
structure Synced (d : Disk) (c : Client) : Prop where
  offset : c.vars.offset = c.taken.length
  first : c.vars.offset = 0 → c.vars.upload = ""
  temp : c.vars.offset ≠ 0 → c.name = some c.vars.upload ∧ Holds d c.vars.upload c.taken

/-- A request is on its way that the agent did not carry out yet. -/
structure Flying (d : Disk) (c : Client) (i : WriteArgs) : Prop where
  phase : c.phase = .waiting ∨ c.phase = .failed
  reply : c.reply = none
  asked : i = request c.path c.ifMtime c.vars c.chunk
  synced : Synced d c
  place : c.loop.At c.content c.taken
  chunk : ∃ part, c.chunk = c.loop.chunk c.vars part
  given : c.given = c.taken ++ c.chunk.data
  fresh : c.installed = none

/-- The agent has taken a chunk that was not the last, and its answer is on the way. -/
structure Taken (d : Disk) (c : Client) (n : Name) : Prop where
  offset : c.vars.offset + c.chunk.data.length = c.taken.length
  temp : c.name = some n ∧ Holds d n c.taken
  final : c.chunk.final = false
  data : c.chunk.data ≠ []
  place : c.loop.next.At c.content c.taken
  given : c.given = c.taken
  fresh : c.installed = none

/-- Nothing more of the sender will reach the agent. -/
structure Past (c : Client) : Prop where
  phase : c.phase ≠ .ready
  reply : ∀ r, c.reply = some (some r) → uploadOf c.vars.upload r = c.vars.upload ∧
    c.chunk.final = true ∧ c.installed ≠ none
  done : c.phase = .done → c.installed ≠ none
  whole : ∀ q x, c.installed = some (q, x) → ∃ f, x = some (.file f) ∧ f.content = c.bytes

inductive Sound (d : Disk) (c : Client) : Prop
  | ready (hphase : c.phase = .ready) (hflight : c.flight = none) (hreply : c.reply = none)
      (hsync : Synced d c) (hat : c.loop.At c.content c.taken) (hgiven : c.given = c.taken)
      (hfresh : c.installed = none)
  | flying {i : WriteArgs} (hflight : c.flight = some i) (h : Flying d c i)
  | taken {w : Int} {n : Name} (hphase : c.phase = .waiting) (hflight : c.flight = none)
      (hreply : c.reply = some (some (.more w n))) (h : Taken d c n)
  | past (hflight : c.flight = none) (h : Past c)

structure Good (d0 : Disk) (h : Net) : Prop where
  named : ∀ k c n, h.clients.get k = some c → c.name = some n → n ∈ h.used ∧ isUploadName n = true
  apart : ∀ j k c c' n, h.clients.get j = some c → h.clients.get k = some c' → c.name = some n →
    c'.name = some n → j = k
  quoted : ∀ k c, h.clients.get k = some c → c.vars.upload ≠ "" → c.name = some c.vars.upload
  sound : ∀ k c, h.clients.get k = some c → Sound h.disk c
  whole : Whole d0 h.clients h.disk

/-! ## What a chunk changes -/

/-- The name of the temporary file of a request. -/
def nameOf (e : Env) (i : WriteArgs) : Name :=
  if i.offset = 0 then tempName (e.luck 0).draw else i.upload

theorem named_eq {dir : Loc} (hn : Named e d i dir n) : n = nameOf e i := by
  unfold nameOf
  split
  · exact hn.2 ‹_›
  · have := hn.1
    unfold deeds.TempName at this
    rw [if_neg ‹_›] at this
    exact this.1

/-- Entries with another name of a temporary file stay. -/
theorem wrote_same (hw : Wrote e pol d i r d')
    (hreal : ∀ real ∈ (check pol d i.path true).toOption, ¬ IsTemp real)
    (hn : isUploadName n = true) (hne : n ≠ nameOf e i) (dir : Loc) :
    d'.get (dir ++ [n]) = d.get (dir ++ [n]) := by
  have hother {dir' : Loc} {m : Name} (hm : Named e d i dir' m) : dir ++ [n] ≠ dir' ++ [m] := by
    intro h
    rw [List.append_inj_right' h rfl |> List.singleton_inj.mp, named_eq hm] at hne
    exact hne rfl
  cases hw with
  | refused => rfl
  | broken hadm htemp hsame => exact hsame _ (hother htemp)
  | more hadm hoff hfinal htemp hsame hget hbytes => exact hsame _ (hother htemp)
  | done hadm hoff hfinal htemp hsame hget hgone hbytes hdate =>
    refine hsame _ (hother htemp) ?_
    rintro rfl
    refine hreal _ ?_ ⟨dir, n, rfl, hn⟩
    rw [deeds.admitWrite_check hadm]
    rfl

theorem holds_of_same (hs : ∀ dir, d'.get (dir ++ [n]) = d.get (dir ++ [n])) (hh : Holds d n b) :
    Holds d' n b := by
  obtain ⟨dir, hdir⟩ := hh
  refine ⟨dir, fun dir' hne => ?_⟩
  rw [hs] at hne ⊢
  exact hdir dir' hne

/-- The bytes of the temporary file after the chunk of a sender, and that no other
entry has its name. -/
theorem bytes_after (hf : Flying d c i) {dir : Loc} (hn : Named e d i dir n)
    (hfresh : i.offset = 0 → Unnamed d (tempName (e.luck 0).draw)) :
    overlay (bytesBefore d i (dir ++ [n])) i.offset.toNat c.chunk.data = c.taken ++ c.chunk.data ∧
      ∀ dir', dir' ≠ dir → d.get (dir' ++ [n]) = none := by
  have hoff : i.offset = (c.taken.length : Int) := by
    rw [hf.asked, request, hf.synced.offset]
  by_cases h0 : i.offset = 0
  · have htaken : c.taken = [] := by
      rw [← List.length_eq_zero_iff]
      omega
    rw [bytesBefore, if_pos h0, h0, htaken]
    refine ⟨overlay_end [] _, fun dir' _ => ?_⟩
    rw [hn.2 h0]
    exact hfresh h0 dir'
  · have hname := hn.1
    unfold deeds.TempName at hname
    rw [if_neg h0] at hname
    obtain ⟨hup, hfound⟩ := hname
    have hvars : c.vars.offset ≠ 0 := by
      rw [hf.synced.offset]
      omega
    have hquote : n = c.vars.upload := by rw [hup, hf.asked, request]
    obtain ⟨-, dir0, hdir⟩ := hf.synced.temp hvars
    rw [← hquote] at hdir
    obtain ⟨-, f, hopen, -⟩ := deeds.findUpload_ok hfound
    have hget := (openNoFollow_ok hopen).2
    obtain ⟨rfl, f', hf', hbytes⟩ := hdir dir (by rw [hget]; simp)
    refine ⟨?_, fun dir' hne => ?_⟩
    · rw [bytesBefore, if_neg h0, hf', hoff, Int.toNat_natCast]
      simp only
      rw [hbytes]
      exact overlay_end _ _
    · by_contra h
      exact hne (hdir dir' h).1

/-! ## What a request leaves of its sender -/

theorem past_of_flying (hf : Flying d c i) {c' : Client} (hphase : c'.phase = c.phase)
    (hinst : c'.installed = none) (hreply : ∀ r, c'.reply ≠ some (some r)) : Past c' where
  phase := by
    rw [hphase]
    rcases hf.phase with h | h <;> rw [h] <;> simp
  reply r hr := absurd hr (hreply r)
  done hd := by
    rw [hphase] at hd
    rcases hf.phase with h | h <;> rw [h] at hd <;> cases hd
  whole q x hx := by
    rw [hinst] at hx
    cases hx

/-- The last chunk ends the bytes of the sender. -/
theorem bytes_of_final (hf : Flying d c i) (hfinal : c.chunk.final = true) :
    c.taken ++ c.chunk.data = c.content.getD c.given := by
  obtain ⟨part, hchunk⟩ := hf.chunk
  cases hcontent : c.content with
  | none => exact hf.given.symm
  | some data =>
    have hat := hf.place
    rw [hcontent] at hat
    have hlast := (chunk_at part hat hf.synced.offset).2
    rw [← hchunk] at hlast
    exact (hlast hfinal data rfl).symm

theorem sound_served (hf : Flying d c i) (hw : Wrote e pol d i r d')
    (hfresh : i.offset = 0 → Unnamed d (tempName (e.luck 0).draw)) : Sound d' (served e i r d' c) := by
  have hdata {real : Loc} {data : Bytes} (hadm : admitWrite pol d i = .ok (real, data)) :
      data = c.chunk.data := by
    have := deeds.admitWrite_data hadm
    rw [hf.asked, request] at this
    cases this
    rfl
  have hbad : Sound d' (served e i none d' c) := by
    refine .past rfl (past_of_flying hf rfl hf.fresh fun r hr => ?_)
    unfold served at hr
    simp only at hr
    split at hr <;> cases hr
  cases hw with
  | refused => exact hbad
  | broken => exact hbad
  | @more real data n f _ hadm hoff hfinal htemp hsame hget hbytes =>
    cases hdata hadm
    obtain ⟨hafter, halone⟩ := bytes_after hf htemp hfresh
    have hmore : c.chunk.final = false := by
      rw [hf.asked, request] at hfinal
      exact hfinal
    rcases hf.phase with hphase | hphase
    · have hreply : (served e i (some (.more (wrap64 (i.offset + c.chunk.data.length)) n)) d' c).reply =
          some (some (.more (wrap64 (i.offset + c.chunk.data.length)) n)) := by
        simp only [served, if_pos hphase]
      refine .taken hphase rfl hreply ?_
      obtain ⟨part, hchunk⟩ := hf.chunk
      refine ⟨?_, ⟨?_, real.dropLast, fun dir' hne => ?_⟩, hmore, ?_, ?_, hf.given, hf.fresh⟩
      · simp only [served, List.length_append, hf.synced.offset]
      · simp only [served]
        split
        · rename_i h0
          rw [htemp.2 h0]
        · rename_i h0
          have hvars : c.vars.offset ≠ 0 := fun h => h0 (by rw [hf.asked, request, h]; rfl)
          rw [(hf.synced.temp hvars).1, named_eq htemp, nameOf, if_neg h0, hf.asked, request]
      · have hdir : dir' = real.dropLast := by
          by_contra hdir
          rw [hsame _ fun h => hdir (List.append_inj_left' h rfl)] at hne
          exact hne (halone dir' hdir)
        subst hdir
        exact ⟨rfl, f, hget, hbytes.trans hafter⟩
      · simp only [served]
        rw [hchunk] at hmore ⊢
        exact (chunk_at _ hf.place hf.synced.offset).1 hmore
      · simp only [served]
        rw [hchunk] at hmore ⊢
        exact next_at hf.place hf.synced.offset hmore
    · refine .past rfl (past_of_flying hf rfl hf.fresh fun r hr => ?_)
      simp only [served, hphase] at hr
      cases hr
  | @done real data n f _ hadm hoff hfinal htemp hsame hget hgone hbytes hdate =>
    cases hdata hadm
    have hlast : c.chunk.final = true := by
      rw [hf.asked, request] at hfinal
      exact hfinal
    refine .past rfl ⟨?_, fun r hr => ⟨?_, hlast, ?_⟩, fun _ => ?_, fun q x hx => ?_⟩
    · simp only [served]
      rcases hf.phase with h | h <;> rw [h] <;> simp
    · simp only [served] at hr
      split at hr <;> cases hr
      rfl
    · simp [served]
    · simp [served]
    · simp only [served, hget, Option.some.injEq, Prod.mk.injEq] at hx
      refine ⟨f, hx.2.symm, ?_⟩
      rw [hbytes, (bytes_after hf htemp hfresh).1]
      exact bytes_of_final hf hlast

/-! ## What a request leaves of the others -/

theorem synced_of_same (hs : ∀ n, c.name = some n → ∀ dir, d'.get (dir ++ [n]) = d.get (dir ++ [n]))
    (h : Synced d c) : Synced d' c :=
  ⟨h.offset, h.first, fun hv => ⟨(h.temp hv).1, holds_of_same (hs _ (h.temp hv).1) (h.temp hv).2⟩⟩

theorem sound_of_same (hs : ∀ n, c.name = some n → ∀ dir, d'.get (dir ++ [n]) = d.get (dir ++ [n]))
    (h : Sound d c) : Sound d' c := by
  cases h with
  | ready hphase hflight hreply hsync hat hgiven hfresh =>
    exact .ready hphase hflight hreply (synced_of_same hs hsync) hat hgiven hfresh
  | flying hflight h => exact .flying hflight { h with synced := synced_of_same hs h.synced }
  | taken hphase hflight hreply h =>
    exact .taken hphase hflight hreply
      { h with temp := ⟨h.temp.1, holds_of_same (hs _ h.temp.1) h.temp.2⟩ }
  | past hflight h => exact .past hflight h

theorem sound_installed {x : Option Node} (h : Sound d c) (hx : c.installed = some (q, x)) :
    Past c ∧ ∃ f, x = some (.file f) ∧ f.content = c.bytes := by
  cases h with
  | ready _ _ _ _ _ _ hfresh => rw [hfresh] at hx; cases hx
  | flying _ h => rw [h.fresh] at hx; cases hx
  | taken _ _ _ h => rw [h.fresh] at hx; cases hx
  | past _ h => exact ⟨h, h.whole q x hx⟩

theorem flying_of_flight (h : Sound d c) (hi : c.flight = some i) : Flying d c i := by
  cases h with
  | ready _ hflight => rw [hflight] at hi; cases hi
  | flying hflight h =>
    rw [hflight] at hi
    cases hi
    exact h
  | taken _ hflight => rw [hflight] at hi; cases hi
  | past hflight => rw [hflight] at hi; cases hi

theorem whole_of_agree {cs : Dict Nat Client} (ha : Agree d d') (h : Whole d0 cs d) : Whole d0 cs d' := by
  intro q hq
  rw [ha q hq]
  exact h q hq

/-- A client that installed nothing may become anything. -/
theorem whole_set {cs : Dict Nat Client} {c' : Client} (hc : ∀ c, cs.get k = some c → c.installed = none)
    (h : Whole d0 cs d) : Whole d0 (cs.set k c') d := by
  intro q hq
  rcases h q hq with h | ⟨j, x, f, hx, hinst, hbytes, hget⟩
  · exact .inl h
  · refine .inr ⟨j, x, f, ?_, hinst, hbytes, hget⟩
    rw [Dict.get_set, if_neg]
    · exact hx
    · rintro rfl
      rw [hc x hx] at hinst
      cases hinst

theorem served_name (e : Env) (i : WriteArgs) (r : Option WriteReply) (d : Disk) (c : Client) :
    (served e i r d c).name = c.name ∨
      i.offset = 0 ∧ (served e i r d c).name = some (tempName (e.luck 0).draw) := by
  rcases r with _ | ⟨w, n⟩ | ⟨real, size, mtime⟩
  · exact .inl rfl
  · by_cases h0 : i.offset = 0
    · exact .inr ⟨h0, by simp only [served, if_pos h0]⟩
    · exact .inl (by simp only [served, if_neg h0])
  · exact .inl rfl

theorem served_vars : (served e i r d c).vars = c.vars := by
  rcases r with _ | ⟨w, n⟩ | ⟨real, size, mtime⟩ <;> rfl

/-! ## Every move -/

/-- A change of one sender on its own, or a new one. -/
theorem good_setClient (hg : Good d0 h) {c' : Client}
    (hname : ∀ n, c'.name = some n → ∃ c, h.clients.get k = some c ∧ c.name = some n)
    (hquote : c'.vars.upload ≠ "" → c'.name = some c'.vars.upload) (hsound : Sound h.disk c')
    (hinst : ∀ c, h.clients.get k = some c → c.installed ≠ none →
      c'.installed = c.installed ∧ c'.bytes = c.bytes) : Good d0 (h.setClient k c') := by
  have hget (j : Nat) : (h.setClient k c').clients.get j = if j = k then some c' else h.clients.get j :=
    Dict.get_set
  have hback {j : Nat} {x : Client} {n : Name} (hx : (h.setClient k c').clients.get j = some x)
      (hn : x.name = some n) : ∃ y, h.clients.get j = some y ∧ y.name = some n := by
    rw [hget] at hx
    split at hx
    · rename_i hj
      cases hx
      exact hj ▸ hname n hn
    · exact ⟨x, hx, hn⟩
  refine ⟨fun j x n hx hn => ?_, fun j j' x y n hx hy hn hn' => ?_, fun j x hx hu => ?_,
    fun j x hx => ?_, fun q hq => ?_⟩
  · obtain ⟨y, hy, hyn⟩ := hback hx hn
    exact hg.named j y n hy hyn
  · obtain ⟨x', hx', hxn⟩ := hback hx hn
    obtain ⟨y', hy', hyn⟩ := hback hy hn'
    exact hg.apart j j' x' y' n hx' hy' hxn hyn
  · rw [hget] at hx
    split at hx
    · cases hx
      exact hquote hu
    · exact hg.quoted j x hx hu
  · rw [hget] at hx
    split at hx
    · cases hx
      exact hsound
    · exact hg.sound j x hx
  · rcases hg.whole q hq with h1 | ⟨j, x, f, hx, hf, hbytes, hq⟩
    · exact .inl h1
    · by_cases hj : j = k
      · subst hj
        obtain ⟨hi, hb⟩ := hinst x hx (by rw [hf]; simp)
        exact .inr ⟨j, c', f, (hget j).trans (if_pos rfl), hi.trans hf, hb ▸ hbytes, hq⟩
      · exact .inr ⟨j, x, f, (hget j).trans ((if_neg hj).trans hx), hf, hbytes, hq⟩

theorem good_serve (hg : Good d0 h) (hc : h.clients.get k = some c) (hi : c.flight = some i)
    (hfresh : i.offset = 0 → tempName (e.luck 0).draw ∉ h.used ∧ Unnamed h.disk (tempName (e.luck 0).draw))
    (hreal : ∀ real ∈ (check pol h.disk i.path true).toOption, ¬ IsTemp real) :
    Good d0 (serve pol k e i c h) ∧
      Always (Whole d0 (serve pol k e i c h).clients) (fsWrite pol i e (World.start h.disk)).2 := by
  have hf := flying_of_flight (hg.sound k c hc) hi
  obtain ⟨hw, hsudden⟩ := fsWrite_run e pol i h.disk
  generalize hr : (fsWrite pol i e (World.start h.disk)).1.toOption = r at hw
  generalize hd : (fsWrite pol i e (World.start h.disk)).2 = w at hw hsudden
  have hserve : serve pol k e i c h = ⟨w.disk, h.clients.set k (served e i r w.disk c),
      if i.offset = 0 then tempName (e.luck 0).draw :: h.used else h.used⟩ := by
    unfold serve
    simp only [hr, hd]
  rw [hserve]
  have hused {n : Name} (hn : n ∈ h.used) :
      n ∈ if i.offset = 0 then tempName (e.luck 0).draw :: h.used else h.used := by
    split
    · exact List.mem_cons_of_mem _ hn
    · exact hn
  have hget (j : Nat) : (h.clients.set k (served e i r w.disk c)).get j =
      if j = k then some (served e i r w.disk c) else h.clients.get j := Dict.get_set
  have hsound := sound_served hf hw fun h0 => (hfresh h0).2
  -- The entries of the other senders have other names.
  have hother {j : Nat} {x : Client} {n : Name} (hj : j ≠ k) (hx : h.clients.get j = some x)
      (hn : x.name = some n) (dir : Loc) : w.disk.get (dir ++ [n]) = h.disk.get (dir ++ [n]) := by
    obtain ⟨hin, hup⟩ := hg.named j x n hx hn
    refine wrote_same hw hreal hup ?_ dir
    rintro rfl
    unfold nameOf at hin hn
    split at hin
    · exact (hfresh ‹_›).1 hin
    · rename_i h0
      rw [if_neg h0, hf.asked] at hn
      have hv : c.vars.offset ≠ 0 := fun hv => h0 (by rw [hf.asked, request, hv]; rfl)
      exact hj (hg.apart j k x c _ hx hc hn (hf.synced.temp hv).1)
  have hstay : Whole d0 (h.clients.set k (served e i r w.disk c)) h.disk := by
    refine whole_set (fun x hx => ?_) hg.whole
    cases hc.symm.trans hx
    exact hf.fresh
  have hwhole : Whole d0 (h.clients.set k (served e i r w.disk c)) w.disk := by
    generalize w.disk = d1 at hw hsound hstay hget ⊢
    have hquiet (ha : Agree h.disk d1) := whole_of_agree ha hstay
    cases hw with
    | refused => exact hstay
    | broken hadm htemp hsame => exact hquiet (hsame.agree htemp.isTemp)
    | more hadm hoff hfinal htemp hsame hget' hbytes => exact hquiet (hsame.agree htemp.isTemp)
    | @done real data n f _ hadm hoff hfinal htemp hsame hget' hgone hbytes hdate =>
      intro q hq
      by_cases hqr : q = real
      · subst hqr
        refine .inr ⟨k, _, f, (hget k).trans (if_pos rfl), ?_, ?_, hget'⟩
        · simp only [served, hget']
        · obtain ⟨-, f', hf', hb⟩ := sound_installed hsound (q := q) (x := d1.get q) rfl
          rw [hget'] at hf'
          cases hf'
          exact hb
      · have hqt : q ≠ real.dropLast ++ [n] := by
          rintro rfl
          exact hq htemp.isTemp
        rw [hsame q hqt hqr]
        exact hstay q hq
  refine ⟨⟨fun j x n hx hn => ?_, fun j j' x y n hx hy hn hn' => ?_, fun j x hx hu => ?_,
    fun j x hx => ?_, hwhole⟩, ?_⟩
  · simp only at hx
    rw [hget] at hx
    split at hx
    · cases hx
      rcases served_name e i r w.disk c with hsame | ⟨h0, hnew⟩
      · obtain ⟨hin, hup⟩ := hg.named k c n hc (hsame ▸ hn)
        exact ⟨hused hin, hup⟩
      · rw [hnew] at hn
        cases hn
        refine ⟨?_, denied.tempName_isUploadName _⟩
        simp only
        rw [if_pos h0]
        exact List.mem_cons_self
    · obtain ⟨hin, hup⟩ := hg.named j x n hx hn
      exact ⟨hused hin, hup⟩
  · -- A new name is none of those that were drawn before.
    have hclash {j : Nat} {x : Client} (hj : j ≠ k) (hx : h.clients.get j = some x) (hn : x.name = some n)
        (hn' : (served e i r w.disk c).name = some n) : False := by
      rcases served_name e i r w.disk c with hsame | ⟨h0, hnew⟩
      · exact hj (hg.apart j k x c n hx hc hn (hsame ▸ hn'))
      · rw [hnew] at hn'
        cases hn'
        exact (hfresh h0).1 (hg.named j x _ hx hn).1
    simp only at hx hy
    rw [hget] at hx hy
    split at hx
    · rename_i hj
      cases hx
      split at hy
      · rename_i hj'
        exact hj.trans hj'.symm
      · rename_i hj'
        exact (hclash hj' hy hn' hn).elim
    · rename_i hj
      split at hy
      · cases hy
        exact (hclash hj hx hn hn').elim
      · exact hg.apart j j' x y n hx hy hn hn'
  · simp only at hx
    rw [hget] at hx
    split at hx
    · cases hx
      rw [served_vars] at hu ⊢
      rcases served_name e i r w.disk c with hsame | ⟨h0, hnew⟩
      · rw [hsame]
        exact hg.quoted k c hc hu
      · have hv : c.vars.offset = 0 := by
          rw [hf.asked, request] at h0
          exact Int.natCast_eq_zero.mp h0
        exact absurd (hf.synced.first hv) hu
    · exact hg.quoted j x hx hu
  · simp only at hx ⊢
    rw [hget] at hx
    split at hx
    · cases hx
      exact hsound
    · rename_i hj
      exact sound_of_same (fun n hn => hother hj hx hn) (hg.sound j x hx)
  · refine hsudden.mono fun d1 hd1 => ?_
    rcases hd1 with h1 | h1
    · exact whole_of_agree h1 hstay
    · exact whole_of_agree h1 hwhole

theorem task_ready (t : Task) : t.client.phase = .ready ∧ t.client.flight = none ∧ t.client.reply = none ∧
    t.client.vars = ⟨0, ""⟩ ∧ t.client.given = [] ∧ t.client.taken = [] ∧ t.client.name = none ∧
    t.client.installed = none ∧ t.client.loop.At t.client.content [] := by
  cases t with
  | writeBytes path data ifMtime => exact ⟨rfl, rfl, rfl, rfl, rfl, rfl, rfl, rfl, rfl, List.nil_prefix⟩
  | upload path data =>
    refine ⟨rfl, rfl, rfl, rfl, rfl, rfl, rfl, rfl, ?_, ?_⟩ <;> simp [Task.client, Client.new]
  | copy path => exact ⟨rfl, rfl, rfl, rfl, rfl, rfl, rfl, rfl, rfl⟩

theorem good_begin (hg : Good d0 h) (hk : h.clients.get k = none) (t : Task) :
    Good d0 (h.setClient k t.client) := by
  obtain ⟨hphase, hflight, hreply, hvars, hgiven, htaken, hname, hinst, hat⟩ := task_ready t
  refine good_setClient hg (fun n hn => ?_) (fun hu => ?_) (.ready hphase hflight hreply ⟨?_, fun _ => ?_,
    fun hv => ?_⟩ (htaken ▸ hat) (hgiven.trans htaken.symm) hinst) fun c hc => ?_
  · rw [hname] at hn
    cases hn
  · rw [hvars] at hu
    exact absurd rfl hu
  · rw [hvars, htaken]
    rfl
  · rw [hvars]
  · rw [hvars] at hv
    exact absurd rfl hv
  · rw [hk] at hc
    cases hc

theorem good_send (hg : Good d0 h) (hc : h.clients.get k = some c) (hphase : c.phase = .ready)
    (part : ReadReply) : Good d0 (h.setClient k (sent part c)) := by
  cases hg.sound k c hc with
  | ready _ hflight hreply hsync hat hgiven hfresh =>
    refine good_setClient hg (fun n hn => ⟨c, hc, hn⟩) (hg.quoted k c hc) (.flying rfl
      ⟨.inl rfl, hreply, rfl, ⟨hsync.offset, hsync.first, hsync.temp⟩, hat, ⟨part, rfl⟩, ?_, hfresh⟩)
      fun c' hc' hinst => ?_
    · simp only [sent, hgiven]
    · cases hc.symm.trans hc'
      exact absurd hfresh hinst
  | flying _ h => rcases h.phase with h | h <;> rw [hphase] at h <;> cases h
  | taken h => rw [hphase] at h; cases h
  | past _ h => exact absurd hphase h.phase

theorem good_hear (hg : Good d0 h) (hc : h.clients.get k = some c) (hr : c.reply = some r) :
    Good d0 (h.setClient k (heard r c)) := by
  cases hg.sound k c hc with
  | ready _ _ hreply => rw [hr] at hreply; cases hreply
  | flying _ hf => rw [hf.reply] at hr; cases hr
  | @taken w n hphase hflight hreply ht =>
    rw [hr] at hreply
    cases hreply
    have hpos : 0 < c.chunk.data.length := List.length_pos_iff.mpr ht.data
    refine good_setClient hg (fun m hm => ⟨c, hc, hm⟩) (fun _ => ht.temp.1) ?_ fun c' hc' hinst => ?_
    · refine .ready ?_ hflight rfl ⟨ht.offset, fun h0 => ?_, fun _ => ht.temp⟩ ?_ ht.given ht.fresh
      · simp only [heard, ht.final, Bool.false_eq_true, if_false]
      · simp only [heard, Vars.after] at h0
        omega
      · simp only [heard, ht.final, Bool.false_eq_true, if_false]
        exact ht.place
    · cases hc.symm.trans hc'
      exact absurd ht.fresh hinst
  | past hflight hp =>
    cases r with
    | none =>
      refine good_setClient hg (fun m hm => ⟨c, hc, hm⟩) (hg.quoted k c hc) (.past hflight
        ⟨by simp [heard], fun r hr => ?_, fun hd => ?_, hp.whole⟩) fun c' hc' _ => ?_
      · cases hr
      · cases hd
      · cases hc.symm.trans hc'
        exact ⟨rfl, rfl⟩
    | some r =>
      obtain ⟨hup, hfinal, hinst⟩ := hp.reply r hr
      refine good_setClient hg (fun m hm => ⟨c, hc, hm⟩) (fun hu => ?_) (.past hflight
        ⟨by simp [heard, hfinal], fun r hr => ?_, fun _ => hinst, hp.whole⟩) fun c' hc' _ => ?_
      · simp only [heard, Vars.after, hup] at hu ⊢
        exact hg.quoted k c hc hu
      · cases hr
      · cases hc.symm.trans hc'
        exact ⟨rfl, rfl⟩

theorem good_giveUp (hg : Good d0 h) (hc : h.clients.get k = some c) (hphase : c.phase = .waiting) :
    Good d0 (h.setClient k { c with phase := .failed, reply := none }) := by
  refine good_setClient hg (fun m hm => ⟨c, hc, hm⟩) (hg.quoted k c hc) ?_ fun c' hc' _ => ?_
  · cases hg.sound k c hc with
    | ready h => rw [hphase] at h; cases h
    | flying hflight hf =>
      exact .flying hflight ⟨.inr rfl, rfl, hf.asked, ⟨hf.synced.offset, hf.synced.first, hf.synced.temp⟩,
        hf.place, hf.chunk, hf.given, hf.fresh⟩
    | taken _ hflight _ ht =>
      refine .past hflight ⟨by simp, by simp, by simp, fun q x hx => ?_⟩
      rw [ht.fresh] at hx
      cases hx
    | past hflight hp => exact .past hflight ⟨by simp, by simp, by simp, hp.whole⟩
  · cases hc.symm.trans hc'
    exact ⟨rfl, rfl⟩

theorem good_lose (hg : Good d0 h) (hc : h.clients.get k = some c) :
    Good d0 (h.setClient k { c with flight := none }) := by
  refine good_setClient hg (fun m hm => ⟨c, hc, hm⟩) (hg.quoted k c hc) ?_ fun c' hc' _ => ?_
  · cases hg.sound k c hc with
    | ready hphase _ hreply hsync hat hgiven hfresh =>
      exact .ready hphase rfl hreply ⟨hsync.offset, hsync.first, hsync.temp⟩ hat hgiven hfresh
    | flying _ hf =>
      refine .past rfl (past_of_flying hf rfl hf.fresh fun r hr => ?_)
      rw [hf.reply] at hr
      cases hr
    | taken hphase _ hreply ht =>
      exact .taken hphase rfl hreply ⟨ht.offset, ht.temp, ht.final, ht.data, ht.place, ht.given, ht.fresh⟩
    | past _ hp => exact .past rfl ⟨hp.phase, hp.reply, hp.done, hp.whole⟩
  · cases hc.symm.trans hc'
    exact ⟨rfl, rfl⟩

/-- The abort of a copy removes at most its own temporary file. -/
theorem good_abort (hg : Good d0 h) (hc : h.clients.get k = some c) (hphase : c.phase = .failed)
    (hu : c.vars.upload ≠ "") (ha : Aborted pol h.disk ⟨c.path, c.vars.upload⟩ d') :
    Good d0 { h with disk := d' } := by
  have hname := hg.quoted k c hc hu
  have hagree : Agree h.disk d' := by
    cases ha with
    | kept => exact fun _ _ => rfl
    | removed hcheck hfound hsame hgone =>
      exact hsame.agree ⟨_, _, rfl, (hg.named k c _ hc hname).2⟩
  -- What the abort leaves of the entries with the name of the upload.
  have hown {b : Bytes} (hh : Holds h.disk c.vars.upload b) : Holds d' c.vars.upload b := by
    cases ha with
    | kept => exact hh
    | @removed real _ hcheck hfound hsame hgone =>
      obtain ⟨dir, hdir⟩ := hh
      refine ⟨dir, fun dir' hne => ?_⟩
      by_cases hd : dir' = real.dropLast
      · rw [hd] at hne
        exact absurd hgone hne
      · rw [hsame _ fun heq => hd (List.append_inj_left' heq rfl)] at hne ⊢
        exact hdir dir' hne
  refine ⟨hg.named, hg.apart, hg.quoted, fun j x hx => ?_, whole_of_agree hagree hg.whole⟩
  by_cases hj : j = k
  · subst hj
    cases hc.symm.trans hx
    cases hg.sound j c hc with
    | ready h => rw [hphase] at h; cases h
    | flying hflight hf =>
      refine .flying hflight { hf with synced := ⟨hf.synced.offset, hf.synced.first, fun hv => ?_⟩ }
      exact ⟨hname, hown (hf.synced.temp hv).2⟩
    | taken h => rw [hphase] at h; cases h
    | past hflight hp => exact .past hflight hp
  · refine sound_of_same (fun n hn dir => ?_) (hg.sound j x hx)
    cases ha with
    | kept => rfl
    | removed hcheck hfound hsame hgone =>
      refine hsame _ fun heq => ?_
      obtain rfl : n = c.vars.upload := List.singleton_inj.mp (List.append_inj_right' heq rfl)
      exact hj (hg.apart j k x c _ hx hc hn hname)

theorem good_move (hg : Good d0 h) {m : Move} (ha : Assumed pol h m) :
    Good d0 (h.move pol m) ∧ Always (Whole d0 (h.move pol m).clients) (h.work pol m) := by
  have hstill {g : Net} (hgood : Good d0 g) (hd : g.disk = h.disk) :
      Good d0 g ∧ Always (Whole d0 g.clients) (World.start h.disk) :=
    ⟨hgood, hd ▸ hgood.whole, lawful_start h.disk⟩
  cases m with
  | begin k t =>
    simp only [Net.move, Net.work]
    split
    · exact hstill (good_begin hg ‹_› t) rfl
    · exact hstill hg rfl
  | send k part =>
    simp only [Net.move, Net.work, Net.at]
    split
    · split
      · exact hstill (good_send hg ‹_› ‹_› part) rfl
      · exact hstill hg rfl
    · exact hstill hg rfl
  | serve k e =>
    simp only [Net.move, Net.work, Net.at]
    cases hc : h.clients.get k with
    | none => exact hstill hg rfl
    | some c =>
      simp only [Option.bind_some]
      cases hi : c.flight with
      | none => exact hstill hg rfl
      | some i =>
        have hask : (e, i) ∈ h.asked (.serve k e) := by
          simp [Net.asked, hc, hi]
        exact good_serve hg hc hi (ha _ hask).1 (ha _ hask).2
  | hear k =>
    simp only [Net.move, Net.work, Net.at]
    split
    · split
      · exact hstill (good_hear hg ‹_› ‹_›) rfl
      · exact hstill hg rfl
    · exact hstill hg rfl
  | giveUp k =>
    simp only [Net.move, Net.work, Net.at]
    split
    · split
      · exact hstill (good_giveUp hg ‹_› ‹_›) rfl
      · exact hstill hg rfl
    · exact hstill hg rfl
  | lose k =>
    simp only [Net.move, Net.work, Net.at]
    split
    · exact hstill (good_lose hg ‹_›) rfl
    · exact hstill hg rfl
  | abort k e =>
    simp only [Net.move, Net.work]
    split
    · rename_i c hc
      split
      · rename_i hcond
        obtain ⟨hphase, -, hu⟩ := hcond
        obtain ⟨hab, hquiet⟩ := fsAbort_run e pol ⟨c.path, c.vars.upload⟩ h.disk
        have hgood := good_abort hg hc hphase hu hab
        refine ⟨hgood, hquiet.mono fun d1 hd1 => whole_of_agree hd1 hg.whole⟩
      · exact hstill hg rfl
    · exact hstill hg rfl

/-! ## The place of what is installed -/

/-- A move that leaves what every sender installed. -/
theorem placed_of_same {m : Move} (hs : ∀ k c, (h.move pol m).clients.get k = some c → c.installed ≠ none →
    (h.clients.get k).bind Client.installed = c.installed) : Placed pol h m := by
  intro k c q x hc hx hne
  rw [hs k c hc (by rw [hx]; simp)] at hne
  exact absurd hx hne

/-- A turn of one sender that installs nothing. -/
theorem placed_setClient {m : Move} {y : Client} (hmove : h.move pol m = h.setClient k y)
    (hinst : y.installed ≠ none → (h.clients.get k).bind Client.installed = y.installed) : Placed pol h m := by
  refine placed_of_same fun j x hx hne => ?_
  have hget : (h.setClient k y).clients.get j = if j = k then some y else h.clients.get j := Dict.get_set
  rw [hmove, hget] at hx
  split at hx
  next hj =>
    cases hx
    exact hj ▸ hinst hne
  next => rw [hx, Option.bind_some]

theorem placed_serve (hg : Good d0 h) (hc : h.clients.get k = some c) (hi : c.flight = some i) :
    Placed pol h (.serve k e) := by
  have hf := flying_of_flight (hg.sound k c hc) hi
  have hmove : h.move pol (.serve k e) = serve pol k e i c h := by
    simp only [Net.move, Net.at, hc, hi]
  intro j x q y hx hy hne
  obtain ⟨hw, -⟩ := fsWrite_run e pol i h.disk
  simp only [hmove, serve, Dict.get_set] at hx
  split at hx
  next hj =>
    cases hx
    cases hr : (fsWrite pol i e (World.start h.disk)).1.toOption with
    | none =>
      rw [hr] at hy
      exact absurd (hy.symm.trans hf.fresh) (Option.some_ne_none _)
    | some reply =>
      rw [hr] at hw hy
      cases hw with
      | more => exact absurd (hy.symm.trans hf.fresh) (Option.some_ne_none _)
      | done hadm =>
        have hpath : i.path = c.path := by rw [hf.asked, request]
        cases hy
        change check pol h.disk c.path true = _
        exact hpath ▸ deeds.admitWrite_check hadm
  next => exact absurd (by rw [hx, Option.bind_some, hy]) hne

theorem placed_move (hg : Good d0 h) (m : Move) : Placed pol h m := by
  have hstill (hmove : h.move pol m = h) : Placed pol h m :=
    placed_of_same fun k c hc _ => by rw [← hmove, hc, Option.bind_some]
  cases m with
  | begin k t =>
    by_cases hk : h.clients.get k = none
    · exact placed_setClient (if_pos hk) fun hne => absurd (by cases t <;> rfl) hne
    · exact hstill (if_neg hk)
  | send k part =>
    cases hc : h.clients.get k with
    | none => exact hstill (by simp only [Net.move, Net.at, hc])
    | some c =>
      by_cases hp : c.phase = .ready
      · exact placed_setClient (k := k) (y := sent part c) (by simp only [Net.move, Net.at, hc, if_pos hp]) fun _ => by
          rw [hc]
          rfl
      · exact hstill (by simp only [Net.move, Net.at, hc, if_neg hp])
  | serve k e =>
    cases hc : h.clients.get k with
    | none => exact hstill (by simp only [Net.move, Net.at, hc])
    | some c =>
      cases hi : c.flight with
      | none => exact hstill (by simp only [Net.move, Net.at, hc, hi])
      | some i => exact placed_serve hg hc hi
  | hear k =>
    cases hc : h.clients.get k with
    | none => exact hstill (by simp only [Net.move, Net.at, hc])
    | some c =>
      cases hr : c.reply with
      | none => exact hstill (by simp only [Net.move, Net.at, hc, hr])
      | some r =>
        refine placed_setClient (k := k) (y := heard r c) (by simp only [Net.move, Net.at, hc, hr]) fun _ => ?_
        rw [hc]
        cases r <;> rfl
  | giveUp k =>
    cases hc : h.clients.get k with
    | none => exact hstill (by simp only [Net.move, Net.at, hc])
    | some c =>
      by_cases hp : c.phase = .waiting
      · exact placed_setClient (k := k) (y := { c with phase := .failed, reply := none })
          (by simp only [Net.move, Net.at, hc, if_pos hp]) fun _ => by rw [hc]; rfl
      · exact hstill (by simp only [Net.move, Net.at, hc, if_neg hp])
  | lose k =>
    cases hc : h.clients.get k with
    | none => exact hstill (by simp only [Net.move, Net.at, hc])
    | some c =>
      exact placed_setClient (k := k) (y := { c with flight := none }) (by simp only [Net.move, Net.at, hc]) fun _ => by
        rw [hc]
        rfl
  | abort k e => exact placed_of_same fun j c hc _ => by rw [show h.clients.get j = some c from hc, Option.bind_some]

theorem good_start (d : Disk) : Good d (start d) where
  named k c n hc := by cases hc
  apart j k c c' n hc := by cases hc
  quoted k c hc := by cases hc
  sound k c hc := by cases hc
  whole q _ := .inl rfl

theorem delivered_of_sound (h : Sound d c) : Delivered c := by
  intro hd
  cases h with
  | ready hphase => rw [hd] at hphase; cases hphase
  | flying _ hf => rcases hf.phase with h | h <;> rw [hd] at h <;> cases h
  | taken hphase => rw [hd] at hphase; cases hphase
  | past _ hp =>
    obtain ⟨⟨q, x⟩, hx⟩ := Option.ne_none_iff_exists'.mp (hp.done hd)
    obtain ⟨f, rfl, hf⟩ := hp.whole q x hx
    exact ⟨q, f, hx, hf⟩

theorem good_run (pol : Policy) (d : Disk) (ms : List Move)
    (ha : runs.Throughout (Net.move pol) (Assumed pol) (start d) ms) :
    runs.Throughout (Net.move pol)
      (fun h m => Always (Whole d (h.move pol m).clients) (h.work pol m) ∧ Placed pol h m) (start d) ms ∧
    Good d (runs.final (Net.move pol) (start d) ms) := by
  refine runs.throughout_of_invariant (I := Good d)
    (Q := fun h m => Always (Whole d (h.move pol m).clients) (h.work pol m) ∧ Placed pol h m)
    (fun h m hI hP => ?_) (good_start d) ha
  obtain ⟨hgood, hwhole⟩ := good_move hI hP
  exact ⟨hgood, hwhole, placed_move hI m⟩

/-- In every run of senders each file, but for the temporary ones, is at every
moment of every request as it was at first, or has all the bytes of one sender
whose last chunk was accepted, and is at the place that `check` found for the path of
that sender. A sender that ended well installed all its bytes. -/
theorem uploads_whole (pol : Policy) (d : Disk) (ms : List Move)
    (ha : runs.Throughout (Net.move pol) (Assumed pol) (start d) ms) :
    runs.Throughout (Net.move pol)
      (fun h m => Always (Whole d (h.move pol m).clients) (h.work pol m) ∧ Placed pol h m) (start d) ms ∧
    ∀ k c, (runs.final (Net.move pol) (start d) ms).clients.get k = some c → Delivered c := by
  obtain ⟨hall, hgood⟩ := good_run pol d ms ha
  exact ⟨hall, fun k c hc => delivered_of_sound (hgood.sound k c hc)⟩

/-- A server that lets the panel write below `/srv`. -/
def srvPolicy : Policy := normalize ⟨["/srv"], [], 0, ""⟩

def srvDisk : Disk := Disk.bare.put ["srv"] (.dir ⟨0o755, 0, 0⟩)

example : check srvPolicy srvDisk "/srv/a" true = .ok ["srv", "a"] := by decide +kernel

/-- A copy in two chunks, with a save of the editor to the same file between them. -/
def crossing : List Move :=
  [.begin 0 (.copy "/srv/a"), .begin 1 (.writeBytes "/srv/a" [9] 0),
    .send 0 ⟨[1], 2, false, 0⟩, .serve 0 (calm 0 []), .send 1 ⟨[], 0, true, 0⟩, .serve 1 (calm 1 []),
    .hear 0, .send 0 ⟨[2], 2, true, 0⟩, .hear 1, .serve 0 (calm 2 []), .hear 0]

theorem crossing_whole :
    runs.Throughout (Net.move srvPolicy)
      (fun h m => Always (Whole srvDisk (h.move srvPolicy m).clients) (h.work srvPolicy m) ∧ Placed srvPolicy h m)
      (start srvDisk) crossing ∧
    ∀ k c, (runs.final (Net.move srvPolicy) (start srvDisk) crossing).clients.get k = some c → Delivered c :=
  uploads_whole srvPolicy srvDisk crossing (by decide +kernel)

example : ((runs.final (Net.move srvPolicy) (start srvDisk) crossing).disk.get ["srv", "a"]).map
    (fun | .file f => f.content | _ => []) = some [1, 2] := by decide +kernel

end icsd_panel.crossings

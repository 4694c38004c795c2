-- A restore and its dump: what a dump that ended well left on the disk, what a
-- failed one left, and that the client which changes the database starts only
-- after a whole dump of it.
import IcsdPanel.Dumps
import IcsdPanel.Packing

open effects sinks

namespace icsd_panel.restores

open paths disk machine policy files archives packing dumps
open contents (createDest_ok readFile_disk)
open deeds (OneMore)

variable {α : Type} {e : Shop} {g : Formats} {d : DB} {c : DockerDB} {file l : Loc} {d0 : Disk}
  {base ev : List Event}

/-! ## The file of a dump -/

theorem triple_onDisk {x : Sys α} {P T : World → Prop} {Q : α → World → Prop} {C : List Event → Prop}
    (h : Proc.Triple e.env P x Q T) :
    Proc.Triple e (fun s => P s.world ∧ C s.events) (onDisk x) (fun a s => Q a s.world ∧ C s.events)
      (fun s => T s.world ∧ C s.events) := by
  rintro s ⟨hP, hC⟩
  have h := h s.world hP
  unfold onDisk
  rcases hrun : x e.env s.world with ⟨r, w⟩
  rw [hrun] at h
  cases r with
  | ok a => exact ⟨h, hC⟩
  | error er => exact ⟨h, hC⟩

/-- The disk is `d0` with one file more, at `l`, and `xs` in it. -/
def Holds (d0 : Disk) (l : Loc) (xs : Bytes) (w : World) : Prop :=
  OneMore d0 l w.disk ∧ ∃ f, w.disk.get l = some (.file f) ∧ f.content = xs

/-- A write at the end of the file. -/
theorem holds_put {w : World} {xs : Bytes} (ys : Bytes) (now : Int) (h : Holds d0 l xs w) :
    Holds d0 l (xs ++ ys) (w.did (outcome (putBytes w.disk l xs.length ys now)).deed) ∧
      (outcome (putBytes w.disk l xs.length ys now)).value = .ok () := by
  obtain ⟨⟨hnone, -, hrest⟩, f, hf, rfl⟩ := h
  unfold putBytes
  split
  · rename_i hys
    rw [hys, List.append_nil]
    exact ⟨⟨⟨hnone, ⟨f, hf⟩, hrest⟩, f, hf, rfl⟩, rfl⟩
  · simp only [updateFile, hf, outcome]
    have hput := Disk.get_put_self (d := w.disk) (l := l)
      (n := .file { f with
        content := overlay f.content f.content.length ys, mtime := now, byPanel := true })
      (fits_over hf (by simp [Node.isDir]))
    refine ⟨⟨⟨hnone, ⟨_, hput⟩, fun q hq => ?_⟩, _, hput, overlay_end _ _⟩, trivial⟩
    rw [did_disk]
    exact (Disk.get_put_ne hq).trans (hrest q hq)

theorem triple_writeAt_end {e : Env} {xs ys : Bytes} :
    Proc.Triple e (Holds d0 l xs) (writeAt l xs.length ys) (fun _ => Holds d0 l (xs ++ ys))
      (fun w => OneMore d0 l w.disk) := by
  unfold writeAt
  refine Proc.triple_ite (fun h => absurd h (by omega)) fun _ => ?_
  refine Proc.triple_ite (fun hys => Proc.triple_pure fun w hw => ?_) fun _ => ?_
  · rw [hys, List.append_nil]
    exact hw
  intro w hw
  unfold call
  cases hfault : (e.luck w.calls).fault with
  | none =>
    obtain ⟨hput, hval⟩ := holds_put ys (e.luck w.calls).now hw
    simp only [hfault, Int.toNat_natCast, hval]
    exact hput
  | some k =>
    obtain ⟨hput, -⟩ := holds_put (ys.take k) (e.luck w.calls).now hw
    simp only [hfault, Int.toNat_natCast]
    exact hput.1

/-- Whether an event is a client that changes a database. -/
def Event.changes : Event → Bool
  | .ran cmd _ _ =>
    match cmd.work with
    | some (.change, _) => true
    | _ => false
  | .closed _ => false

theorem changes_ran {cmd : Cmd} {a : Answer} {dsk : Disk} (h : ∀ t, cmd.work ≠ some (.change, t)) :
    Event.changes (.ran cmd a dsk) = false := by
  rcases hw : cmd.work with - | ⟨k, t⟩
  · simp [Event.changes, hw]
  · cases k with
    | dump => simp [Event.changes, hw]
    | change => exact absurd hw (h t)

/-- Since the events `base` no database was changed. -/
def Idle (base ev : List Event) : Prop := ∃ new, ev = new ++ base ∧ ∀ v ∈ new, Event.changes v = false

theorem idle_refl : Idle base base := ⟨[], rfl, by simp⟩

theorem Idle.cons (h : Idle base ev) {v : Event} (hv : Event.changes v = false) : Idle base (v :: ev) := by
  obtain ⟨new, rfl, hnew⟩ := h
  refine ⟨v :: new, rfl, fun x hx => ?_⟩
  rcases List.mem_cons.mp hx with rfl | hx
  · exact hv
  · exact hnew x hx

/-- The agent with the file of its dump, after the events `ev`. -/
def At (d0 : Disk) (l : Loc) (ev : List Event) (xs : Bytes) (s : Desk) : Prop :=
  Holds d0 l xs s.world ∧ s.events = ev

/-- The agent with the file of its dump begun. -/
def Begun (d0 : Disk) (l : Loc) (base : List Event) (s : Desk) : Prop :=
  OneMore d0 l s.world.disk ∧ Idle base s.events

theorem At.begun {xs : Bytes} {s : Desk} (h : At d0 l ev xs s) (hev : Idle base ev) :
    Begun d0 l base s := ⟨h.1.1, by rw [h.2]; exact hev⟩

theorem triple_put (hev : Idle base ev) (xs ys : Bytes) :
    Proc.Triple e (At d0 l ev xs) (put l xs.length ys) (fun _ => At d0 l ev (xs ++ ys)) (Begun d0 l base) :=
  Proc.triple_weaken (triple_onDisk (C := fun v => v = ev) triple_writeAt_end) (fun _ h => h)
    (fun _ _ h => h) fun _ h => ⟨h.1, by rw [h.2]; exact hev⟩

theorem triple_closeFile {xs : Bytes} (hev : Idle base ev) :
    Proc.Triple e (At d0 l ev xs) (closeFile l) (fun _ => At d0 l (.closed l :: ev) xs)
      (Begun d0 l base) := by
  unfold closeFile
  refine Proc.triple_bind (M := fun _ => At d0 l ev xs) ?_ fun _ => ?_
  · exact Proc.triple_weaken (triple_onDisk (C := fun v => v = ev)
      (triple_pause (P := Holds d0 l xs) fun w hw => hw)) (fun _ h => h) (fun _ _ h => h)
      fun _ h => At.begun h hev
  · rintro s ⟨hs, rfl⟩
    exact ⟨hs, rfl⟩

/-- The close of a file whose dump failed. -/
theorem keeps_closeFile : Proc.Keeps e (Begun d0 l base) (closeFile l) := by
  unfold closeFile
  refine Proc.triple_bind (M := fun _ => Begun d0 l base) ?_ fun _ s hs => ⟨hs.1, hs.2.cons rfl⟩
  exact triple_onDisk (triple_pause (P := fun w => OneMore d0 l w.disk) fun w hw => hw)

/-! ## A dump that ended well -/

theorem triple_copyOut {out : List Bytes} (hev : Idle base ev) :
    Proc.Triple e (At d0 l ev []) (copyOut g d l out)
      (fun st s => Fed (coder g d.engine) (At d0 l ev) st out.flatten s ∧
        (d.engine ≠ "mysql" → st.held = [])) (Begun d0 l base) := by
  unfold copyOut
  refine Proc.triple_ite (fun hmy => ?_) fun _ => ?_
  · refine Proc.triple_weaken (triple_acceptAll (triple_put hev)) (fun s hs => fed_empty hs)
      (fun st s hs => ⟨?_, fun h => absurd hmy h⟩) fun _ h => h
    simpa using hs
  · refine Proc.triple_weaken (triple_direct (triple_put hev) rfl) (fun s hs => fed_empty hs)
      (fun st s hs => ⟨?_, fun _ => hs.2⟩) fun _ h => h
    simpa using hs.1

/-- The event of a dump that went well. -/
def Went (d : DB) (c : DockerDB) (ev : List Event) (a : Answer) (ev' : List Event) : Prop :=
  a.failed = none ∧ ∃ dsk, ev' = .ran (dumpCmd d c) a dsk :: ev

theorem dumpCmd_work_ne (t : Place) : (dumpCmd d c).work ≠ some (.change, t) := by
  unfold dumpCmd
  split
  · simp [Cmd.work, work]
  · split
    · simp [Cmd.work, work]
    · split <;> simp [Cmd.work, work]

theorem Went.idle {a : Answer} {ev' : List Event} (h : Went d c ev a ev') (hev : Idle base ev) :
    Idle base ev' := by
  obtain ⟨-, dsk, rfl⟩ := h
  exact hev.cons (changes_ran dumpCmd_work_ne)

theorem triple_runDump (hev : Idle base ev) :
    Proc.Triple e (At d0 l ev []) (runDump g d c l)
      (fun st s => ∃ a ev', Went d c ev a ev' ∧ Fed (coder g d.engine) (At d0 l ev') st a.out.flatten s ∧
        (d.engine ≠ "mysql" → st.held = [])) (Begun d0 l base) := by
  unfold runDump
  refine Proc.triple_bind
    (M := fun a s => ∃ dsk, At d0 l (.ran (dumpCmd d c) a dsk :: ev) [] s) ?_ fun a => ?_
  · rintro s ⟨hs, rfl⟩
    exact ⟨s.world.disk, hs, rfl⟩
  rintro s ⟨dsk, hs⟩
  have hran : Idle base (.ran (dumpCmd d c) a dsk :: ev) := hev.cons (changes_ran dumpCmd_work_ne)
  refine Proc.triple_bind (Proc.triple_attempt (triple_copyOut hran)) (fun r => ?_) s hs
  cases hfail : a.failed with
  | some err =>
    refine Proc.triple_fail fun s hs => ?_
    cases r with
    | ok st => exact At.begun hs.1.1.1 hran
    | error er => exact hs
  | none =>
    cases r with
    | ok st => exact Proc.triple_pure fun s hs => ⟨a, _, ⟨hfail, dsk, rfl⟩, hs.1, hs.2⟩
    | error er => exact Proc.triple_fail fun s hs => hs

/-- The file reads as the whole output of the dump. -/
theorem triple_writeDump (hev : Idle base ev) :
    Proc.Triple e (At d0 l ev []) (writeDump g d c l)
      (fun _ s => ∃ a ev' xs, Went d c ev a ev' ∧ At d0 l ev' xs s ∧
        (coder g d.engine).read xs = some a.out.flatten) (Begun d0 l base) := by
  unfold writeDump
  refine Proc.triple_orElseFirst (M := Begun d0 l base) ?_ keeps_closeFile
  refine Proc.triple_bind (triple_runDump hev) fun st => ?_
  rintro s ⟨a, ev', hwent, hfed, hheld⟩
  have hran := hwent.idle hev
  refine Proc.triple_bind (triple_flush (triple_put hran)) (fun st2 => ?_) s hfed
  rintro s2 ⟨hfed2, hheld2⟩
  refine Proc.triple_ite (P := Fed (coder g d.engine) (At d0 l ev') st2 a.out.flatten)
    (fun _ => ?_) (fun hpg => Proc.triple_pure fun s3 hs3 => ?_) s2 hfed2
  · refine Proc.triple_weaken (triple_finish (triple_put hran) hheld2) (fun _ h => h) ?_ fun _ h => h
    rintro _ s3 ⟨xs, hxs, hread⟩
    exact ⟨a, ev', xs, hwent, hxs, hread⟩
  · unfold coder at hs3 ⊢
    rw [if_neg hpg] at hs3 ⊢
    exact ⟨a, ev', _, hwent, fed_plain hs3 hheld2, rfl⟩

/-- A whole dump of a database in `file`, whose place `l` was free on the disk
`d0`. -/
def Saved (g : Formats) (engine : String) (a : Answer) (d0 : Disk) (file l : Loc) (disk : Disk) : Prop :=
  d0.get l = none ∧ entryAt disk file = .ok l ∧ ∃ f, disk.get l = some (.file f) ∧
    (coder g engine).read f.content = some a.out.flatten ∧ 20 ≤ f.content.length

theorem triple_dumpInto (he : entryAt d0 file = .ok l) (hev : Idle base ev) :
    Proc.Triple e (At d0 l ev []) (dumpInto g d c file l)
      (fun _ s => ∃ a ev', Went d c ev a ev' ∧ s.events = .closed l :: ev' ∧
        Saved g d.engine a d0 file l s.world.disk) (Begun d0 l base) := by
  unfold dumpInto
  refine Proc.triple_bind (triple_writeDump hev) fun _ => ?_
  rintro s ⟨a, ev', xs, hwent, hat, hread⟩
  have hran := hwent.idle hev
  have hclosed : Idle base (.closed l :: ev') := hran.cons rfl
  refine Proc.triple_bind (triple_closeFile hran) (fun _ => ?_) s hat
  have hstat : Proc.Triple e (At d0 l (.closed l :: ev') xs)
      (onDisk (act fun _ d => (stat d file).map fun n => (⟨none, n⟩ : Change (Loc × Node))))
      (fun v s => At d0 l (.closed l :: ev') xs s ∧ nodeSize v.2 = xs.length)
      (At d0 l (.closed l :: ev') xs) := by
    refine Proc.triple_weaken (triple_onDisk (C := fun v => v = .closed l :: ev')
      (Q := fun v w => Holds d0 l xs w ∧ nodeSize v.2 = xs.length) (T := Holds d0 l xs)
      (triple_act (fun luck w ch hw hc => ?_) fun w hw => hw)) (fun _ h => h)
      (fun _ _ h => ⟨⟨h.1.1, h.2⟩, h.1.2⟩) fun _ h => h
    obtain ⟨hone, f, hf, rfl⟩ : Holds d0 l xs w := hw
    rw [stat_entry (entryAt_grow hone.grows he) hf] at hc
    cases hc
    exact ⟨⟨hone, f, hf, rfl⟩, rfl⟩
  refine Proc.triple_bind (Proc.triple_attempt hstat) fun r => ?_
  cases r with
  | error er => exact Proc.triple_fail fun s hs => At.begun hs hclosed
  | ok v =>
    refine Proc.triple_ite (fun _ => Proc.triple_fail fun s hs => At.begun hs.1 hclosed) fun hsize =>
      Proc.triple_pure fun s hs => ?_
    obtain ⟨⟨⟨hone, f, hf, rfl⟩, hev⟩, hv⟩ := hs
    exact ⟨a, ev', hwent, hev, hone.1, entryAt_grow hone.grows he, f, hf, hread, by omega⟩

/-- The new file of a dump. -/
theorem triple_createDest {s0 : Desk} :
    Proc.Triple e (· = s0) (onDisk (createDest file))
      (fun l s => entryAt s0.world.disk file = .ok l ∧ At s0.world.disk l s0.events [] s)
      (fun s => s.world.disk = s0.world.disk ∧ s.events = s0.events) := by
  rintro s rfl
  unfold onDisk
  rcases hrun : createDest file e.env s.world with ⟨r, w⟩
  cases r with
  | ok l =>
    obtain ⟨he, hnone, f, hempty, hdisk⟩ := createDest_ok hrun
    have hf : w.disk.get l = some (.file f) := by
      rw [hdisk]
      exact Disk.get_put_self (fits_new he hnone)
    refine ⟨he, ⟨⟨hnone, ⟨f, hf⟩, fun q hq => ?_⟩, f, hf, hempty⟩, rfl⟩
    rw [hdisk]
    exact Disk.get_put_ne hq
  | error er =>
    have hsame : Proc.Triple e.env (· = s.world) (createDest file) (fun _ _ => True)
        (fun w => w.disk = s.world.disk) :=
      triple_act (fun _ _ _ _ _ => trivial) fun w hw => by rw [hw]; rfl
    have h := hsame s.world rfl
    rw [hrun] at h
    exact ⟨h, rfl⟩

/-- A dump that ended well: of a command that did, whole, at least 20 bytes,
closed, and at a place that was free. -/
theorem dumpTo_done {n : Nat} {s s' : Desk} (h : dumpTo g d c file e s = (.ok n, s')) :
    ∃ l a ev', Went d c s.events a ev' ∧ s'.events = .closed l :: ev' ∧
      Saved g d.engine a s.world.disk file l s'.world.disk := by
  have hrule : Proc.Triple e (· = s) (dumpTo g d c file)
      (fun _ s' => ∃ l a ev', Went d c s.events a ev' ∧ s'.events = .closed l :: ev' ∧
        Saved g d.engine a s.world.disk file l s'.world.disk)
      (fun _ => True) := by
    unfold dumpTo
    refine Proc.triple_bind (Proc.triple_weaken triple_createDest (fun _ h => h) (fun _ _ h => h)
      fun _ _ => trivial) fun l => ?_
    rintro s1 ⟨he, hat⟩
    refine Proc.triple_orElseFirst (M := fun _ => True) (Proc.triple_weaken (triple_dumpInto he idle_refl)
      (fun _ h => h) ?_ fun _ _ => trivial) (Proc.triple_of_state fun _ _ => trivial) s1 hat
    rintro _ s2 ⟨a, ev', hwent, hev, hsaved⟩
    exact ⟨l, a, ev', hwent, hev, hsaved⟩
  exact hrule.ok rfl h

/-! ## A dump that failed -/

/-- The disk is as it was. -/
def Same (s s' : Desk) : Prop := ∀ q, s'.world.disk.get q = s.world.disk.get q

/-- The removal of the file at `l` failed, and all else is as it was. -/
def Unremoved (e : Shop) (file : Loc) (s s' : Desk) : Prop :=
  ∃ l w er, s.world.disk.get l = none ∧ (∀ q, q ≠ l → s'.world.disk.get q = s.world.disk.get q) ∧
    remove file e.env w = (.error er, s'.world)

/-- The removal of the new file. -/
theorem triple_remove_new {e : Env} (he : entryAt d0 file = .ok l) :
    Proc.Triple e (fun w => OneMore d0 l w.disk) (remove file) (fun _ w => ∀ q, w.disk.get q = d0.get q)
      (fun w => OneMore d0 l w.disk) := by
  refine triple_act (fun luck w ch hone hc => ?_) fun w hw => hw
  obtain ⟨l', n, he', hn, hnames, hdeed⟩ := removeEntry_ok hc
  rw [entryAt_grow hone.grows he] at he'
  cases he'
  intro q
  rw [hdeed, did_disk, Deed.apply]
  by_cases hq : q = l
  · rw [hq, Disk.get_remove hnames, if_pos rfl, hone.1]
  · rw [Disk.get_remove_ne hq]
    exact hone.2.2 q hq

/-- What a failed dump leaves: the disk as it was, or its own file when the
removal of that fails too. -/
theorem dumpTo_failed {er : GoError} {s s' : Desk} (h : dumpTo g d c file e s = (.error er, s')) :
    (Same s s' ∨ Unremoved e file s s') ∧ Idle s.events s'.events := by
  have hcreate := @triple_createDest e file s s rfl
  unfold dumpTo at h
  rcases hnew : onDisk (createDest file) e s with ⟨r, s1⟩
  rw [hnew] at hcreate
  cases r with
  | error er' =>
    rw [Proc.bind_run_error hnew] at h
    cases h
    exact ⟨.inl fun q => by rw [hcreate.1], by rw [hcreate.2]; exact idle_refl⟩
  | ok l =>
    obtain ⟨he, hat⟩ := hcreate
    rw [Proc.bind_run_ok hnew] at h
    have hinto := triple_dumpInto (e := e) (g := g) (d := d) (c := c) he idle_refl s1 hat
    rcases hrun : dumpInto g d c file l e s1 with ⟨r, s2⟩
    rw [hrun] at hinto
    cases r with
    | ok n =>
      rw [Proc.orElseFirst_run_ok hrun] at h
      cases h
    | error er' =>
      rw [Proc.orElseFirst_run_error hrun] at h
      cases h
      refine ⟨?_, hinto.2⟩
      have hgone := triple_remove_new (e := e.env) he s2.world hinto.1
      rcases hrm : remove file e.env s2.world with ⟨r, w⟩
      rw [hrm] at hgone
      have hw : (onDisk (remove file) e s2).2.world = w := by
        unfold onDisk
        rw [hrm]
      cases r with
      | ok u =>
        refine .inl fun q => ?_
        rw [hw]
        exact hgone q
      | error er' =>
        refine .inr ⟨l, s2.world, er', hgone.1, fun q hq => ?_, by rw [hw, hrm]⟩
        rw [hw]
        exact hgone.2.2 q hq

/-! ## The job of a restore -/

/-- The database that the job is for. -/
def placeOf (d : DB) (c : DockerDB) : Place :=
  ⟨d.engine, if d.whereAt = "native" then none else some c.name, d.name⟩

theorem dumpCmd_work (h : d.engine = "mysql" ∨ d.engine = "postgres") :
    (dumpCmd d c).work = some (.dump, placeOf d c) := by
  unfold dumpCmd placeOf
  by_cases hn : d.whereAt = "native" <;> rcases h with h | h <;>
    simp [hn, h, Cmd.work, work]

/-- The job of a restore has its dump: before the events `ev1`, and closed. -/
def Backed (e : Shop) (g : Formats) (pol : Policy) (p : RestorePlan) (s0 : Desk) (earlier : List Event)
    (disk : Disk) : Prop :=
  ∃ ev1 l a dump dsk stamp, earlier = ev1 ++ .closed l :: .ran dump a dsk :: s0.events ∧
    dump.work = some (.dump, placeOf p.d p.c) ∧ a.failed = none ∧
    Saved g p.d.engine a s0.world.disk
      (place e.env.cwd (CleanPath.child (safetyDir pol) (safetyName p.d stamp))) l disk

/-- Each client that changed a database since `s0` changed the one of the job,
and had its dump. -/
def AllBacked (e : Shop) (g : Formats) (pol : Policy) (p : RestorePlan) (s0 : Desk) (events : List Event) :
    Prop :=
  ∀ later cmd a disk earlier t, events = later ++ .ran cmd a disk :: earlier → s0.events <:+ earlier →
    cmd.work = some (.change, t) → t = placeOf p.d p.c ∧ Backed e g pol p s0 earlier disk

variable {pol : Policy} {p : RestorePlan} {s0 : Desk} {events : List Event}

theorem allBacked_start : AllBacked e g pol p s0 s0.events := by
  intro later cmd a disk earlier t h hsuf
  have := hsuf.length_le
  have hlen := congrArg List.length h
  rw [List.length_append, List.length_cons] at hlen
  omega

/-- One event more: when it is a client that changes a database, the dump is
there. -/
theorem AllBacked.cons (h : AllBacked e g pol p s0 events) {v : Event}
    (hv : ∀ cmd a disk t, v = .ran cmd a disk → cmd.work = some (.change, t) →
      t = placeOf p.d p.c ∧ Backed e g pol p s0 events disk) :
    AllBacked e g pol p s0 (v :: events) := by
  intro later cmd a disk earlier t heq hsuf hwork
  cases later with
  | nil =>
    cases heq
    exact hv cmd a disk t rfl hwork
  | cons x later =>
    cases heq
    exact h later cmd a disk earlier t rfl hsuf hwork

theorem Backed.cons {disk : Disk} (h : Backed e g pol p s0 events disk) (v : Event) :
    Backed e g pol p s0 (v :: events) disk := by
  obtain ⟨ev1, l, a, dump, dsk, stamp, hev, hrest⟩ := h
  exact ⟨v :: ev1, l, a, dump, dsk, stamp, by rw [hev]; rfl, hrest⟩

theorem Idle.allBacked (h : Idle s0.events events) : AllBacked e g pol p s0 events := by
  obtain ⟨new, rfl, hnew⟩ := h
  induction new with
  | nil => exact allBacked_start
  | cons v new ih =>
    refine AllBacked.cons (ih fun x hx => hnew x (List.mem_cons_of_mem v hx)) fun cmd a disk t hv hwork => ?_
    have hno := hnew v List.mem_cons_self
    rw [hv] at hno
    simp [Event.changes, hwork] at hno

/-- The job after its dump. -/
def Ready (e : Shop) (g : Formats) (pol : Policy) (p : RestorePlan) (s0 : Desk) (s : Desk) : Prop :=
  AllBacked e g pol p s0 s.events ∧ Backed e g pol p s0 s.events s.world.disk

/-- A command that changes no database. -/
theorem triple_start_look {cmd : Cmd} (h : ∀ t, cmd.work ≠ some (.change, t)) :
    Proc.Keeps e (Ready e g pol p s0) (start cmd) := by
  rintro s ⟨hall, hback⟩
  refine ⟨AllBacked.cons hall fun cmd' a disk t hv hwork => ?_, hback.cons _⟩
  cases hv
  exact absurd hwork (h t)

theorem restoreScript_ne : restoreScript ≠ dumpScript := by decide

theorem triple_readFile_ready {q : Loc} :
    Proc.Keeps e (Ready e g pol p s0) (onDisk (readFile q)) := by
  refine Proc.triple_of_state fun s hs => ?_
  have hdisk : (readFile q e.env s.world).2.disk = s.world.disk := readFile_disk Prod.mk.eta.symm
  refine ⟨hs.1, ?_⟩
  unfold onDisk
  simp only [hdisk]
  exact hs.2

/-- The client gets its file for the database of the dump. -/
theorem triple_restoreCmd {content : Bytes} :
    Proc.Triple e (Ready e g pol p s0) (restoreCmd g p.d p.c content)
      (fun cmd s => Ready e g pol p s0 s ∧ cmd.work = some (.change, placeOf p.d p.c))
      (Ready e g pol p s0) := by
  unfold restoreCmd
  refine Proc.triple_ite (fun hmy => ?_) fun hmy => ?_
  · refine Proc.triple_ite (fun _ => Proc.triple_fail fun s hs => hs) fun _ => ?_
    cases otherDatabase g (g.peek content) p.d.name with
    | some other => exact Proc.triple_fail fun s hs => hs
    | none =>
      refine Proc.triple_ite (fun hn => ?_) fun hn => Proc.triple_pure fun s hs => ⟨hs, ?_⟩
      · unfold mysqlHasSandbox
        refine Proc.triple_bind (M := fun _ => Ready e g pol p s0) (Proc.triple_bind
          (triple_start_look fun t => by simp [Cmd.work, work]) fun a => Proc.triple_pure fun s hs => hs)
          fun sandbox => Proc.triple_pure fun s hs => ⟨hs, ?_⟩
        cases sandbox <;> simp [Cmd.work, work, placeOf, hn, hmy]
      · simp [Cmd.work, work, placeOf, hn, hmy, restoreScript_ne]
  · have hpg : p.d.engine = "postgres" := p.known.resolve_left hmy
    unfold pgOwner
    refine Proc.triple_bind (M := fun _ => Ready e g pol p s0) ?_ fun role =>
      Proc.triple_pure fun s hs => ⟨hs, ?_⟩
    · refine Proc.triple_bind (triple_start_look fun t => ?_) fun a => ?_
      · split <;> simp [Cmd.work, work]
      · split <;> exact Proc.triple_pure fun s hs => hs
    · split <;> simp [Cmd.work, work, restoreDb, placeOf, *]

theorem triple_runRestore {safety : CleanPath} {cmd : Cmd}
    (hcmd : cmd.work = some (.change, placeOf p.d p.c)) :
    Proc.Triple e (Ready e g pol p s0) (runRestore p.d safety cmd)
      (fun _ s => AllBacked e g pol p s0 s.events) (fun s => AllBacked e g pol p s0 s.events) := by
  unfold runRestore
  refine Proc.triple_bind (M := fun _ s => AllBacked e g pol p s0 s.events) ?_ fun a => ?_
  · rintro s ⟨hall, hback⟩
    refine AllBacked.cons hall fun cmd' a disk t hv hwork => ?_
    cases hv
    rw [hcmd] at hwork
    cases hwork
    exact ⟨rfl, hback⟩
  · exact Proc.triple_ite (fun _ => Proc.triple_fail fun s hs => hs) fun _ => Proc.triple_pure fun s hs => hs

/-- The directory of the dump: nothing goes for it. -/
theorem triple_safetyDir {q : Loc} :
    Proc.Triple e (· = s0) (onDisk (mkdirAll q 0o700))
      (fun _ s => Grows s0.world.disk s.world.disk ∧ s.events = s0.events)
      (fun s => s.events = s0.events) := by
  have hgrows : Proc.Keeps e.env (fun w => Grows s0.world.disk w.disk) (mkdirAll q 0o700) := by
    refine keeps_mkdirAll (fun w hw => hw) fun w q' ch hw _ _ hc => ?_
    obtain ⟨l, -, hnone, hdeed⟩ := mkdir_ok hc
    rw [hdeed, did_disk]
    exact hw.trans (grows_put fun m hm => by rw [hnone] at hm; cases hm)
  exact Proc.triple_weaken (triple_onDisk (C := fun v => v = s0.events) hgrows)
    (fun s hs => by rw [hs]; exact ⟨Grows.refl _, rfl⟩) (fun _ _ h => h) fun _ h => h.2

theorem absent_of_grows {d d' : Disk} {q : Loc} (h : Grows d d') (hq : d'.get q = none) : d.get q = none := by
  cases hn : d.get q with
  | none => rfl
  | some n =>
    obtain ⟨n', hn', -⟩ := h q n hn
    rw [hq] at hn'
    cases hn'

theorem triple_restoreJob :
    Proc.Triple e (· = s0) (restoreJob g pol p) (fun _ s => AllBacked e g pol p s0 s.events)
      (fun s => AllBacked e g pol p s0 s.events) := by
  unfold restoreJob
  refine Proc.triple_bind (M := fun cwd s => cwd = e.env.cwd ∧ s = s0) (fun s hs => ⟨rfl, hs⟩) fun cwd => ?_
  rintro s ⟨rfl, rfl⟩
  refine Proc.triple_bind (Proc.triple_weaken triple_safetyDir (fun _ h => h) (fun _ _ h => h) fun s' hs' => ?_)
    (fun _ => ?_) s rfl
  · rw [hs']
    exact allBacked_start
  refine Proc.triple_bind (M := fun _ s' => Grows s.world.disk s'.world.disk ∧ s'.events = s.events)
    (fun s' hs' => hs') fun stamp => ?_
  rintro s1 ⟨hgrows, hev⟩
  let safety := CleanPath.child (safetyDir pol) (safetyName p.d stamp)
  refine Proc.triple_bind (P := (· = s1)) (M := fun r s' => match r with
    | .ok _ => Ready e g pol p s s'
    | .error _ => AllBacked e g pol p s s'.events)
    (T := fun s' => AllBacked e g pol p s s'.events) ?_ (fun r => ?_) s1 rfl
  · rintro s' rfl
    rcases hrun : dumpTo g p.d p.c (place e.env.cwd safety) e s' with ⟨r, s2⟩
    rw [Proc.attempt_run hrun]
    cases r with
    | error er =>
      have hidle := (dumpTo_failed hrun).2
      rw [hev] at hidle
      exact hidle.allBacked
    | ok n =>
      obtain ⟨l, a, ev', ⟨hfail, dsk, rfl⟩, hev2, hnone, hsaved⟩ := dumpTo_done hrun
      rw [hev] at hev2
      refine ⟨?_, [], l, a, dumpCmd p.d p.c, dsk, stamp, hev2, dumpCmd_work p.known, hfail,
        absent_of_grows hgrows hnone, hsaved⟩
      rw [hev2]
      exact ((idle_refl.cons (changes_ran dumpCmd_work_ne)).cons rfl).allBacked
  · cases r with
    | error er => exact Proc.triple_fail fun s' hs' => hs'
    | ok n =>
      refine Proc.triple_bind (M := fun _ => Ready e g pol p s) ?_ fun f => ?_
      · exact Proc.triple_weaken triple_readFile_ready (fun _ h => h) (fun _ _ h => h) fun _ h => h.1
      · refine Proc.triple_bind (Proc.triple_weaken triple_restoreCmd (fun _ h => h) (fun _ _ h => h)
          fun _ h => h.1) fun cmd => ?_
        rintro s' ⟨hready, hcmd⟩
        exact triple_runRestore hcmd s' hready

/-- In every run of the job the client that changes the database starts after a
whole dump of it, at a place that was free. And a dump that fails leaves the
disk as it was, unless the removal of its own file fails. -/
theorem restores_undoable (g : Formats) (pol : Policy) (p : RestorePlan) (e : Shop) (s : Desk) :
    AllBacked e g pol p s (restoreJob g pol p e s).2.events ∧
      ∀ d c file, match dumpTo g d c file e s with
        | (.ok _, _) => True
        | (.error _, s') => Same s s' ∨ Unremoved e file s s' := by
  refine ⟨triple_restoreJob.state rfl, fun d c file => ?_⟩
  rcases hrun : dumpTo g d c file e s with ⟨r, s'⟩
  cases r with
  | ok n => trivial
  | error er => exact (dumpTo_failed hrun).1

/-! ## A shop -/

def shopDb : DB := ⟨"postgres", "native", "shop", 0⟩

def shopFile : Loc := ["var", "backups", "icsd", "db-shop-20260101-000000.dump"]

def rawFormats : Formats := ⟨.plain, fun _ => true, id, fun _ => []⟩

def shopPlan : RestorePlan := ⟨shopDb, ⟨"", "postgres", ""⟩, shopFile, .inr rfl⟩

/-- Surroundings where the dump breaks off after three bytes, and where the
fourth call, the removal of its file, fails. -/
def shopBroken : Shop where
  env := { calm 0 [] with luck := fun n => { calmLuck 0 with fault := if n = 3 then some 0 else none } }
  answer _ := ⟨[[80, 71, 68]], "pg_dump: error: connection to server was lost", some "exit status 1"⟩
  containers := []

def shopDesk : Desk := ⟨World.start contents.siteDisk, []⟩

/-- Surroundings where no call fails and each command prints the same. -/
def shopWell : Shop := { shopBroken with
  env := calm 0 []
  answer := fun _ => ⟨[List.replicate 30 80], "", none⟩ }

/-- The desk of the shop, with a dump in the backups. -/
def shopFull : Desk :=
  ⟨World.start (contents.siteDisk.put shopFile (.file ⟨[80], 0, ⟨0o600, 0, 0⟩, true⟩)), []⟩

def Event.cmd : Event → Option Cmd
  | .ran cmd _ _ => some cmd
  | .closed _ => none

example : (restoreJob rawFormats confinement.webPolicy shopPlan shopWell shopFull).2.events.map Event.cmd =
    [some (.host ["runuser", "-u", "postgres", "--", "pg_restore", "--clean", "--if-exists", "--no-owner", "-d",
        "shop"]),
      some (.host ["runuser", "-u", "postgres", "--", "psql", "-XAt", "-F", "|", "-v", "db=shop", "-d",
        "postgres"]),
      none, some (.host ["runuser", "-u", "postgres", "--", "pg_dump", "-Fc", "shop"])] := by decide +kernel

/-- A part of a dump stays when it cannot be removed. -/
theorem part_stays : ¬ ∀ g pol p e s, AllBacked e g pol p s (restoreJob g pol p e s).2.events ∧
    ∀ d c file, match dumpTo g d c file e s with
      | (.ok _, _) => True
      | (.error _, s') => Same s s' := by
  intro h
  have hsame := (h rawFormats confinement.webPolicy shopPlan shopBroken shopDesk).2 shopDb ⟨"", "postgres", ""⟩
    shopFile
  have hfail : (dumpTo rawFormats shopDb ⟨"", "postgres", ""⟩ shopFile shopBroken shopDesk).1.isOk = false := by
    decide +kernel
  have hpart : ((dumpTo rawFormats shopDb ⟨"", "postgres", ""⟩ shopFile shopBroken shopDesk).2.world.disk.get
      shopFile).isSome = true := by decide +kernel
  have hfree : (shopDesk.world.disk.get shopFile).isSome = false := by decide +kernel
  generalize dumpTo rawFormats shopDb ⟨"", "postgres", ""⟩ shopFile shopBroken shopDesk = r at *
  obtain ⟨r, s'⟩ := r
  cases r with
  | ok n => cases hfail
  | error er =>
    rw [hsame shopFile, hfree] at hpart
    cases hpart

end icsd_panel.restores

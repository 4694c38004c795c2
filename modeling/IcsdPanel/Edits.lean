-- The editor of the panel: a small file of a server as a text, and the text
-- saved again.
import IcsdPanel.Crossings
import IcsdPanel.Downloads
import IcsdPanel.Runes

open effects

namespace icsd_panel.edits

open paths disk machine policy files senders downloads crossings unicode

def editMax : Nat := 2 * 1024 * 1024

structure HttpError where
  status : Nat
  detail : String
deriving DecidableEq, Repr

/-- The text that the editor shows. -/
structure EditReply where
  path : String
  text : String
  mtime : Int
  size : Nat
deriving DecidableEq, Repr

/-- The text of a file: that of its bytes, or a character for each byte. -/
def textOf (data : Bytes) : String := (decode data).getD (latin1 data)

def fsRead (path : String) (ask : Nat → Nat → ReadReply) : Except HttpError EditReply :=
  if editMax < (ask 0 0).size then
    .error ⟨413, "برای ویرایش در مرورگر بزرگ است (بیش از ۲ مگابایت)؛ دانلود کنید"⟩
  else if 0 ∈ (readWhole ask).take 8192 then .error ⟨415, "فایل متنی نیست؛ دانلود کنید"⟩
  else .ok ⟨path, textOf (readWhole ask), (ask 0 0).mtime, (ask 0 0).size⟩

/-- The bytes that `fs_write` hands over to `_write_bytes`. -/
def fsWrite (text : String) : Except HttpError Bytes :=
  if editMax < (utf8 text).length then .error ⟨413, "بزرگ‌تر از ۲ مگابایت"⟩ else .ok (utf8 text)

/-! ## The file and the saves -/

/-- The file that the agent opens for reading. -/
def Opens (pol : Policy) (d : Disk) (path : String) (f : FileData) : Prop :=
  ∃ real l, check pol d path false = .ok real ∧ openFile d real = .ok (l, f)

/-- The answers of the agent about a disk that nobody changes. -/
def Answers (pol : Policy) (d : Disk) (path : String) (ask : Nat → Nat → ReadReply) : Prop :=
  ∀ k offset : Nat, ∃ e w, files.fsRead pol ⟨path, offset, chunkSize⟩ e (World.start d) = (.ok (ask k offset), w)

/-- A save of the text that ended well, in some run of the senders, installed
the bytes. -/
def Saved (text : String) (content : Bytes) : Prop :=
  ∃ data pol d ms k c q f, fsWrite text = .ok data ∧
    runs.Throughout (Net.move pol) (Assumed pol) (start d) ms ∧
    (runs.final (Net.move pol) (start d) ms).clients.get k = some c ∧ c.content = some data ∧
    c.phase = .done ∧ c.installed = some (q, some (.file f)) ∧ f.content = content

variable {pol : Policy} {d : Disk} {path text : String} {f : FileData} {ask : Nat → Nat → ReadReply}
  {reply : EditReply} {bytes : Bytes}

/-- What the agent answers is the chunk of the file that it opened. -/
theorem triple_fsRead (e : Env) (pol : Policy) (d : Disk) (i : ReadArgs) :
    Proc.Triple e (fun w => w.disk = d) (files.fsRead pol i)
      (fun r _ => ∃ f, Opens pol d i.path f ∧ r = readChunk f i.offset i.length) fun _ => True := by
  unfold files.fsRead checked
  refine Proc.triple_bind (M := fun real w => w.disk = d ∧ check pol d i.path false = .ok real)
    (triple_ask (fun w a hw ha => ⟨hw, hw ▸ ha⟩) fun _ _ => trivial) fun real => ?_
  refine Proc.triple_bind (M := fun _ w => w.disk = d ∧ check pol d i.path false = .ok real)
    (triple_askOs (fun w a hw _ => hw) fun _ _ => trivial) fun x => ?_
  split
  · refine Proc.triple_bind (M := fun f _ => Opens pol d i.path f)
      (triple_readFile (fun w l f hw hf => ⟨real, l, hw.2, hw.1 ▸ hf⟩) fun _ _ => trivial) fun f => ?_
    exact Proc.triple_ite (fun _ => triple_fail _ fun _ _ => trivial)
      fun _ => Proc.triple_pure fun _ hf => ⟨f, hf, rfl⟩
  · exact triple_fail _ fun _ _ => trivial

theorem Opens.unique {f g : FileData} (hf : Opens pol d path f) (hg : Opens pol d path g) : f = g := by
  obtain ⟨real, l, hreal, hl⟩ := hf
  obtain ⟨real', l', hreal', hl'⟩ := hg
  cases hreal.symm.trans hreal'
  cases hl.symm.trans hl'
  rfl

theorem ask_eq (ho : Opens pol d path f) (h : Answers pol d path ask) :
    ask = fun _ (offset : Nat) => readChunk f offset chunkSize := by
  funext k offset
  obtain ⟨e, w, hrun⟩ := h k offset
  obtain ⟨g, hg, hr⟩ := (triple_fsRead e pol d _).ok (start_disk d) hrun
  rw [hr, hg.unique ho]

theorem fsRead_text (ho : Opens pol d path f) (ha : Answers pol d path ask)
    (h : fsRead path ask = .ok reply) : reply.text = textOf f.content ∧ f.content.length ≤ editMax := by
  rw [ask_eq ho ha] at h
  unfold fsRead at h
  rw [readWhole_unchanged] at h
  split at h
  · cases h
  · rename_i hsize
    split at h <;> cases h
    exact ⟨rfl, Nat.le_of_not_lt hsize⟩

theorem fsWrite_ok {data : Bytes} : fsWrite text = .ok data ↔ data = utf8 text ∧ data.length ≤ editMax := by
  unfold fsWrite
  constructor
  · intro h
    split at h <;> cases h
    exact ⟨rfl, Nat.le_of_not_lt ‹_›⟩
  · rintro ⟨rfl, h⟩
    rw [if_neg (Nat.not_lt.mpr h)]

/-- The text of a file is its bytes if and only if they are those of a text. -/
theorem utf8_textOf (data : Bytes) : utf8 (textOf data) = data ↔ IsText data := by
  constructor
  · intro h
    rw [← h]
    exact isText_utf8 _
  · intro h
    unfold textOf
    cases hdec : decode data with
    | none => exact absurd h (decode_none.mp hdec)
    | some s => exact utf8_of_decode hdec

theorem Saved.bytes_eq (h : Saved text bytes) : bytes = utf8 text := by
  obtain ⟨data, pol, d, ms, k, c, q, f, hdata, hrun, hc, hcontent, hdone, hq, rfl⟩ := h
  obtain ⟨rfl, -⟩ := fsWrite_ok.mp hdata
  obtain ⟨q', g, hq', hg⟩ := delivered_of_sound ((good_run pol d ms hrun).2.sound k c hc) hdone
  cases hq.symm.trans hq'
  rw [hg, Client.bytes, hcontent]
  rfl

/-- The text of a small file is saved as the bytes of the file if and only if they
are UTF-8. -/
theorem saved_text (ho : Opens pol d path f) (ha : Answers pol d path ask)
    (hread : fsRead path ask = .ok reply) :
    (fsWrite reply.text = .ok f.content ↔ IsText f.content) ∧
    ∀ content, Saved reply.text content → (content = f.content ↔ IsText f.content) := by
  obtain ⟨htext, hsize⟩ := fsRead_text ho ha hread
  rw [htext]
  refine ⟨?_, fun content hs => ?_⟩
  · rw [← utf8_textOf]
    exact fsWrite_ok.trans ⟨fun h => h.1.symm, fun h => ⟨h.symm, hsize⟩⟩
  · rw [hs.bytes_eq, utf8_textOf]

/-! ## A file on a server -/

/-- A file that opens is answered for. -/
theorem answers_of_opens (h : Opens pol d path f) :
    Answers pol d path fun _ (offset : Nat) => readChunk f offset chunkSize := by
  obtain ⟨real, l, hreal, hopen⟩ := h
  obtain ⟨hl, hf⟩ := openFile_ok hopen
  have hlook : d.look l = some (.file f) := by rw [Disk.look, if_neg (Disk.get_ne_nil hf), hf]
  intro k offset
  refine ⟨calm 0 [], { World.start d with reads := [l] }, ?_⟩
  unfold files.fsRead checked askOs
  rw [Proc.bind_run_ok (ask_ok (w := World.start d) hreal), Proc.bind_run_ok (ask_ok (a := (l, .file f)) ?_)]
  · have hread : readFile real (calm 0 []) (World.start d) = (.ok f, { World.start d with reads := [l] }) := by
      unfold readFile
      rw [start_disk, hopen]
      rfl
    refine (Proc.bind_run_ok hread).trans ?_
    rw [if_neg (Int.not_lt.mpr (Int.natCast_nonneg offset))]
    rfl
  · simp only [start_disk, stat_run hl hlook]
    rfl

theorem fsRead_opened (path : String) (hsize : f.content.length ≤ editMax)
    (hnul : 0 ∉ f.content.take 8192) : fsRead path (fun _ (offset : Nat) => readChunk f offset chunkSize) =
      .ok ⟨path, textOf f.content, unix f.mtime, f.content.length⟩ := by
  unfold fsRead
  rw [readWhole_unchanged, if_neg hnul]
  exact if_neg (Nat.not_lt.mpr hsize)

/-- A server with one file. -/
def fileDisk (content : Bytes) : Disk := srvDisk.put ["srv", "a"] (.file ⟨content, 0, ⟨0o644, 0, 0⟩, false⟩)

example : textOf [0xC3, 0xA9] = "é" := by decide +kernel

theorem opens_ascii : Opens srvPolicy (fileDisk [104, 105]) "/srv/a" ⟨[104, 105], 0, ⟨0o644, 0, 0⟩, false⟩ :=
  ⟨["srv", "a"], ["srv", "a"], by decide +kernel, by decide +kernel⟩

theorem saved_ascii : (fsWrite (textOf [104, 105]) = .ok [104, 105] ↔ IsText [104, 105]) ∧
    ∀ content, Saved (textOf [104, 105]) content → (content = [104, 105] ↔ IsText [104, 105]) := by
  have h := saved_text opens_ascii (answers_of_opens opens_ascii)
    (fsRead_opened "/srv/a" (by decide) (by decide))
  exact h

theorem opens_latin1 : Opens srvPolicy (fileDisk [0xE9]) "/srv/a" ⟨[0xE9], 0, ⟨0o644, 0, 0⟩, false⟩ :=
  ⟨["srv", "a"], ["srv", "a"], by decide +kernel, by decide +kernel⟩

/-- The moves of one save of the editor. -/
def save (path : String) (data : Bytes) : List Move :=
  [.begin 0 (.writeBytes path data 0), .send 0 ⟨[], 0, true, 0⟩, .serve 0 (calm 0 []), .hear 0]

theorem saved_e_acute : Saved "é" [0xC3, 0xA9] := by
  have hend : ((runs.final (Net.move srvPolicy) (start (fileDisk [0xE9]))
      (save "/srv/a" [0xC3, 0xA9])).clients.get 0).any (fun c => decide (c.content = some [0xC3, 0xA9] ∧
        c.phase = .done ∧ c.installed = some (["srv", "a"],
          some (.file ⟨[0xC3, 0xA9], 0, ⟨0o644, 0, 0⟩, true⟩)))) = true := by decide +kernel
  obtain ⟨c, hc, hdone⟩ := Option.any_eq_true _ _ |>.mp hend
  obtain ⟨hcontent, hphase, hinst⟩ := of_decide_eq_true hdone
  exact ⟨_, srvPolicy, fileDisk [0xE9], save "/srv/a" [0xC3, 0xA9], 0, c, _, _, fsWrite_ok.mpr (by decide +kernel),
    by decide +kernel, hc, hcontent, hphase, hinst, rfl⟩

/-- A file in Latin-1 is saved as other bytes. -/
theorem latin1_changed : ¬ ∀ pol d path f ask reply content, Opens pol d path f → Answers pol d path ask →
    fsRead path ask = .ok reply → Saved reply.text content → content = f.content := by
  intro h
  have htext : textOf [0xE9] = "é" := by decide +kernel
  have := h srvPolicy (fileDisk [0xE9]) "/srv/a" _ _ _ [0xC3, 0xA9] opens_latin1
    (answers_of_opens opens_latin1) (fsRead_opened "/srv/a" (by decide) (by decide)) (htext ▸ saved_e_acute)
  cases this

end icsd_panel.edits

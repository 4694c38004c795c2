-- The senders of the panel: the editor, the upload form, and the copy between
-- two servers. Each sends a file to an agent in chunks, with one loop.
import IcsdPanel.Files

namespace icsd_panel.senders

open paths disk files

/-- `CHUNK` of `manage.py` and of `backups.py`. -/
def chunkSize : Nat := 512 * 1024

/-- What a loop sends in one turn. -/
structure Chunk where
  data : Bytes
  final : Bool
deriving DecidableEq, Repr

/-- The variables `offset` and `upload` of a loop. -/
structure Vars where
  offset : Nat
  upload : Name
deriving DecidableEq, Repr

/-- What a loop has left: the editor the whole text, the form the chunk in hand
and what it did not read yet, the copy nothing, as it reads the other server. -/
inductive Loop
  | bytes (data : Bytes)
  | form (chunk rest : Bytes)
  | copy
deriving DecidableEq, Repr

/-- The `args` of one turn. The guard of the editor goes with the first. -/
def request (path : String) (ifMtime : Int) (v : Vars) (c : Chunk) : WriteArgs where
  path
  data := some c.data
  offset := v.offset
  final := c.final
  upload := v.upload
  ifMtime := if v.offset = 0 then ifMtime else 0

/-- The chunk of a turn. `part` is what the other server answered, for a copy. -/
def Loop.chunk (v : Vars) (part : ReadReply) : Loop → Chunk
  | .bytes data =>
    let chunk := (data.drop v.offset).take chunkSize
    ⟨chunk, data.length ≤ v.offset + chunk.length⟩
  | .form chunk rest => ⟨chunk, rest.take chunkSize = []⟩
  | .copy => ⟨part.data, part.eof || part.data = []⟩

/-- The loop after a turn that was not the last. -/
def Loop.next : Loop → Loop
  | .form _ rest => .form (rest.take chunkSize) (rest.drop chunkSize)
  | l => l

/-- `(res or {}).get("upload", upload)` -/
def uploadOf (old : Name) : WriteReply → Name
  | .more _ n => n
  | .done _ _ _ => old

def Vars.after (v : Vars) (c : Chunk) (r : WriteReply) : Vars :=
  ⟨v.offset + c.data.length, uploadOf v.upload r⟩

/-! ## What is sent -/

/-- The loop is at the byte `sent.length` of what it was given to send. A copy
was given nothing. -/
def Loop.At (content : Option Bytes) (sent : Bytes) : Loop → Prop
  | .bytes data => content = some data ∧ sent <+: data
  | .form chunk rest => content = some (sent ++ chunk ++ rest) ∧ chunk = (chunk ++ rest).take chunkSize
  | .copy => content = none

variable {l : Loop} {v : Vars} {content : Option Bytes} {sent : Bytes}

theorem take_ne_nil {data : Bytes} (h : data ≠ []) : data.take chunkSize ≠ [] := by
  simp [chunkSize, h]

/-- A chunk that is not the last has bytes, and the last one ends the content. -/
theorem chunk_at (part : ReadReply) (h : l.At content sent) (hv : v.offset = sent.length) :
    ((l.chunk v part).final = false → (l.chunk v part).data ≠ []) ∧
    ((l.chunk v part).final = true → ∀ data, content = some data →
      data = sent ++ (l.chunk v part).data) := by
  cases l with
  | bytes data =>
    obtain ⟨rfl, rest, rfl⟩ := h
    simp only [Loop.chunk, hv, List.drop_left, decide_eq_false_iff_not, decide_eq_true_eq,
      List.length_append, Option.some.injEq, forall_eq']
    refine ⟨fun hmore => ?_, fun hlast => ?_⟩
    · apply take_ne_nil
      rintro rfl
      simp at hmore
    · have : rest.length ≤ chunkSize := by
        rw [List.length_take] at hlast
        omega
      rw [List.take_of_length_le this]
  | form chunk rest =>
    obtain ⟨rfl, hchunk⟩ := h
    simp only [Loop.chunk, decide_eq_false_iff_not, decide_eq_true_eq, Option.some.injEq, forall_eq']
    refine ⟨fun hmore => ?_, fun hlast => ?_⟩
    · rw [hchunk]
      apply take_ne_nil
      intro h
      rw [(List.append_eq_nil_iff.mp h).2] at hmore
      exact hmore rfl
    · have : rest = [] := by
        by_contra h
        exact take_ne_nil h hlast
      rw [this, List.append_nil]
  | copy =>
    refine ⟨fun hmore => ?_, fun _ data hdata => ?_⟩
    · simp only [Loop.chunk, Bool.or_eq_false_iff, decide_eq_false_iff_not] at hmore ⊢
      exact hmore.2
    · rw [show content = none from h] at hdata
      cases hdata

/-- The loop goes on behind its chunk. -/
theorem next_at (h : l.At content sent) (hv : v.offset = sent.length)
    (hmore : (l.chunk v part).final = false) :
    l.next.At content (sent ++ (l.chunk v part).data) := by
  cases l with
  | bytes data =>
    obtain ⟨rfl, rest, rfl⟩ := h
    refine ⟨rfl, ?_⟩
    simp only [Loop.chunk, hv, List.drop_left]
    exact List.prefix_append_right_inj sent |>.mpr (List.take_prefix _ _)
  | form chunk rest =>
    obtain ⟨rfl, -⟩ := h
    refine ⟨?_, ?_⟩
    · simp [Loop.chunk]
    · rw [List.take_append_drop]
  | copy => exact h

end icsd_panel.senders

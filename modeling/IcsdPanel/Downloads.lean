-- The panel reads a file of a server in chunks: the editor a small one, the
-- download one of any size. The length is fixed by the first answer, but each
-- chunk is read from the file as it is then.
import IcsdPanel.Senders

namespace icsd_panel.downloads

open paths disk files senders

/-! ## Reading in chunks -/

/-- One answer to `fs.read`. The agent looks at the file, and then reads it. -/
def fileReply (looked read : FileData) (offset : Nat) : ReadReply :=
  let data := (readChunk read offset chunkSize).data
  { data
    size := looked.content.length
    eof := looked.content.length ≤ wrap64 (offset + data.length)
    mtime := unix looked.mtime }

/-- The loop of `fs_read` and of `stream`, from its `k`-th request on: what it
adds to the `offset` bytes that it has. -/
def readOn (ask : Nat → Nat → ReadReply) (size k offset : Nat) : Bytes :=
  if offset < size then
    if hchunk : (ask k offset).data = [] then []
    else
      have : 0 < (ask k offset).data.length := List.length_pos_iff.mpr hchunk
      (ask k offset).data ++ readOn ask size (k + 1) (offset + (ask k offset).data.length)
  else []
termination_by size - offset

/-- The bytes of the first answer, and of the loop after it. -/
def readWhole (ask : Nat → Nat → ReadReply) : Bytes :=
  (ask 0 0).data ++ readOn ask (ask 0 0).size 1 (ask 0 0).data.length

/-- What `fs_download` sends: the length in its header, and its body. -/
structure Download where
  announced : Nat
  streamed : Bytes

def fsDownload (ask : Nat → Nat → ReadReply) : Download := ⟨(ask 0 0).size, readWhole ask⟩

/-- A file that only grows, at each look of the agent. -/
structure Growing where
  look : Nat → FileData
  grows : ∀ n, (look n).content <+: (look (n + 1)).content

/-- Each request looks at the file twice. -/
def Growing.ask (g : Growing) (k offset : Nat) : ReadReply :=
  fileReply (g.look (2 * k)) (g.look (2 * k + 1)) offset

/-- The body is the beginning of the file, as long as the header says. -/
def Growing.Exact (g : Growing) : Prop :=
  ∀ n, (fsDownload g.ask).streamed = (g.look n).content.take (fsDownload g.ask).announced

/-- The requests for a file of `size` bytes. -/
def turns (size : Nat) : Nat := max 1 ((size + (chunkSize - 1)) / chunkSize)

/-! ## What is streamed -/

variable {g : Growing} {ask : Nat → Nat → ReadReply} {size k m n offset : Nat}

theorem chunkSize_pos : 0 < chunkSize := by decide

theorem readOn_stop (h : size ≤ offset) : readOn ask size k offset = [] := by
  rw [readOn, if_neg (Nat.not_lt.mpr h)]

theorem readOn_chunk (h : offset < size) (hne : (ask k offset).data ≠ []) :
    readOn ask size k offset = (ask k offset).data ++
      readOn ask size (k + 1) (offset + (ask k offset).data.length) := by
  rw [readOn, if_pos h, dif_neg hne]

theorem Growing.look_le (g : Growing) (h : m ≤ n) : (g.look m).content <+: (g.look n).content := by
  induction n, h using Nat.le_induction with
  | base => exact List.prefix_refl _
  | succ n _ ih => exact ih.trans (g.grows n)

/-- The requests reach the end of the file, and none is made behind it. -/
theorem turns_reach (size : Nat) : size ≤ turns size * chunkSize ∧
    ∀ k, 0 < k → k < turns size → k * chunkSize < size := by
  have hpos := chunkSize_pos
  have hdiv := Nat.div_add_mod (size + (chunkSize - 1)) chunkSize
  have hmod := Nat.mod_lt (size + (chunkSize - 1)) hpos
  rw [Nat.mul_comm] at hdiv
  unfold turns
  generalize (size + (chunkSize - 1)) / chunkSize = q at hdiv ⊢
  refine ⟨?_, fun k h0 hk => ?_⟩
  · have := Nat.mul_le_mul_right chunkSize (Nat.le_max_right 1 q)
    omega
  · have := Nat.mul_le_mul_right chunkSize (show k + 1 ≤ q by omega)
    rw [Nat.add_mul] at this
    omega

theorem turns_mul {m : Nat} (h : 0 < m) : turns (m * chunkSize) = m := by
  obtain ⟨hreach, hbefore⟩ := turns_reach (m * chunkSize)
  have hle := Nat.le_of_mul_le_mul_right hreach chunkSize_pos
  rcases Nat.lt_or_eq_of_le hle with hlt | heq
  · exact absurd (hbefore m h hlt) (Nat.lt_irrefl _)
  · exact heq.symm

theorem turns_pos (size : Nat) : 0 < turns size := Nat.lt_of_lt_of_le Nat.one_pos (Nat.le_max_left 1 _)

theorem take_of_look {f h : Bytes} (hf : f <+: h) (hn : n ≤ f.length) : f.take n = h.take n := by
  obtain ⟨t, rfl⟩ := hf
  rw [List.take_append_of_le_length hn]

/-- The chunk of a request, of a file with bytes behind the offset: all that the
file has when it is read, up to the size of a chunk. -/
theorem ask_data (g : Growing) (k offset : Nat) :
    (g.ask k offset).data = ((g.look (2 * k + 1)).content.drop offset).take chunkSize := rfl

theorem announced_eq (g : Growing) : (fsDownload g.ask).announced = (g.look 0).content.length := rfl

theorem length_look_le (g : Growing) (n : Nat) : (g.look 0).content.length ≤ (g.look n).content.length :=
  (g.look_le (Nat.zero_le n)).length_le

/-- The loop from the request `k` on, when the requests before it gave whole
chunks: what the last request finds, up to its chunk. -/
theorem readOn_growing (g : Growing) {k : Nat} (hk : 0 < k)
    (hle : k ≤ turns (g.look 0).content.length) :
    readOn g.ask (g.look 0).content.length k (k * chunkSize) =
      ((g.look (2 * turns (g.look 0).content.length - 1)).content.take
        (turns (g.look 0).content.length * chunkSize)).drop (k * chunkSize) := by
  obtain ⟨hreach, hbefore⟩ := turns_reach (g.look 0).content.length
  have hdata := ask_data g
  have hpos := chunkSize_pos
  have hlong := length_look_le g
  generalize (g.look 0).content.length = size at *
  generalize turns size = t at *
  -- The size of a chunk is too large to compute with.
  generalize chunkSize = c at *
  induction hleft : t - k generalizing k with
  | zero =>
    obtain rfl : k = t := by omega
    rw [readOn_stop hreach, List.drop_eq_nil_of_le (by rw [List.length_take]; omega)]
  | succ left ih =>
    have hlt : k < t := by omega
    have hoff := hbefore k hk hlt
    have hlook := hlong (2 * k + 1)
    have hlen : (g.ask k (k * c)).data.length = min c ((g.look (2 * k + 1)).content.length - k * c) := by
      rw [hdata, List.length_take, List.length_drop]
    have hne : (g.ask k (k * c)).data ≠ [] := by
      apply List.ne_nil_of_length_pos
      omega
    have hchunk : (g.ask k (k * c)).data =
        ((g.look (2 * k + 1)).content.take (k * c + c)).drop (k * c) := by
      rw [hdata, List.take_drop]
    rw [readOn_chunk hoff hne]
    rcases Nat.lt_or_eq_of_le (show k + 1 ≤ t from hlt) with hmore | rfl
    · have hnext := hbefore (k + 1) (by omega) hmore
      have hend := Nat.mul_le_mul_right c (show k + 1 ≤ t from hlt)
      rw [Nat.succ_mul] at hend hnext
      have hwhole : (g.ask k (k * c)).data.length = c := by omega
      have hstep := ih (k := k + 1) (by omega) (by omega) (by omega)
      rw [Nat.succ_mul] at hstep
      -- The chunk is the same at the last request.
      rw [hwhole, hstep, hchunk, take_of_look (g.look_le (show 2 * k + 1 ≤ 2 * t - 1 by omega)) (by omega)]
      rw [← List.take_drop, ← List.drop_drop]
      conv_rhs => rw [← List.take_append_drop c (List.drop _ _)]
      rw [List.take_drop, List.take_drop, List.take_take, Nat.min_eq_left hend]
    · rw [Nat.succ_mul] at hreach
      rw [readOn_stop (by omega), List.append_nil, hchunk, Nat.succ_mul k c,
        show 2 * (k + 1) - 1 = 2 * k + 1 by omega]

/-- A download streams what its last request finds, up to whole chunks. -/
theorem streamed_eq (g : Growing) : (fsDownload g.ask).streamed =
    (g.look (2 * turns (g.look 0).content.length - 1)).content.take
      (turns (g.look 0).content.length * chunkSize) := by
  have hrest := readOn_growing g Nat.one_pos (turns_pos _)
  obtain ⟨hreach, hbefore⟩ := turns_reach (g.look 0).content.length
  have hlong := length_look_le g 1
  have hpos := turns_pos (g.look 0).content.length
  change (g.ask 0 0).data ++ readOn g.ask (g.look 0).content.length 1 (g.ask 0 0).data.length = _
  have hdata : (g.ask 0 0).data = (g.look 1).content.take chunkSize := rfl
  generalize turns (g.look 0).content.length = t at *
  rcases Nat.lt_or_eq_of_le (show 1 ≤ t from hpos) with hmore | rfl
  · have hsize := hbefore 1 Nat.one_pos hmore
    have hend := Nat.mul_le_mul_right chunkSize hpos
    rw [Nat.one_mul] at hsize hrest
    have hlen : (g.ask 0 0).data.length = chunkSize := by
      rw [hdata, List.length_take]
      omega
    rw [hlen, hrest, hdata, take_of_look (g.look_le (show 1 ≤ 2 * t - 1 by omega)) (by omega)]
    conv_rhs => rw [← List.take_append_drop chunkSize (List.take _ _)]
    rw [List.take_take, Nat.min_eq_left (by omega)]
  · rw [readOn_stop, List.append_nil, hdata, Nat.one_mul]
    rw [hdata, List.length_take]
    omega

/-- A file that nobody changes is read as it is. -/
theorem readWhole_unchanged (f : FileData) :
    readWhole (fun _ offset => readChunk f offset chunkSize) = f.content := by
  have := streamed_eq ⟨fun _ => f, fun _ => List.prefix_refl _⟩
  exact this.trans (List.take_of_length_le (turns_reach f.content.length).1)

/-- A download is as long as its header says if and only if the file was of whole
chunks at the first look, or is no longer than then when its last chunk is read. -/
theorem download_exact (g : Growing) : g.Exact ↔
    (0 < (g.look 0).content.length ∧ chunkSize ∣ (g.look 0).content.length) ∨
      (g.look (2 * turns (g.look 0).content.length - 1)).content.length =
        (g.look 0).content.length := by
  have hlong := length_look_le g (2 * turns (g.look 0).content.length - 1)
  have hsize := announced_eq g
  have hreach := (turns_reach (g.look 0).content.length).1
  -- What is streamed is as long as the header says.
  have hlen : g.Exact ↔ (fsDownload g.ask).streamed.length = (g.look 0).content.length := by
    constructor
    · intro h
      rw [h 0, hsize, List.take_length]
    · intro h n
      rw [hsize, ← take_of_look (g.look_le (Nat.zero_le n)) (Nat.le_refl _),
        take_of_look (g.look_le (Nat.zero_le _)) (Nat.le_refl _), ← h, streamed_eq,
        List.length_take, ← List.take_take, List.take_length]
  rw [hlen, streamed_eq, List.length_take]
  constructor
  · intro h
    by_cases hlast : (g.look (2 * turns (g.look 0).content.length - 1)).content.length =
        (g.look 0).content.length
    · exact .inr hlast
    · have hmul : turns (g.look 0).content.length * chunkSize = (g.look 0).content.length := by omega
      refine .inl ⟨?_, _, hmul.symm.trans (Nat.mul_comm _ _)⟩
      have := Nat.mul_pos (turns_pos (g.look 0).content.length) chunkSize_pos
      omega
  · rintro (⟨hpos, m, hm⟩ | hlast)
    · rw [Nat.mul_comm] at hm
      have hturns : turns (g.look 0).content.length = m := by
        rw [hm]
        refine turns_mul (Nat.pos_of_ne_zero ?_)
        rintro rfl
        omega
      rw [hturns] at hlong ⊢
      omega
    · omega

/-- A log of `n` bytes more than 512 KiB. -/
def logOf (n : Nat) : FileData := ⟨List.replicate (chunkSize + n) 10, 0, ⟨0o644, 0, 0⟩, false⟩

theorem length_logOf (n : Nat) : (logOf n).content.length = chunkSize + n := List.length_replicate

/-- A log with a byte more than 512 KiB, that gets another between two looks. -/
def growingLog : Growing where
  look n := logOf (n + 1)
  grows n := by
    unfold logOf
    rw [← Nat.add_assoc chunkSize (n + 1), List.replicate_succ']
    exact List.prefix_append _ _

theorem length_growingLog (n : Nat) : (growingLog.look n).content.length = chunkSize + (n + 1) :=
  length_logOf (n + 1)

/-- The download of the log has bytes behind its announced length. -/
theorem log_runs_on : ¬ growingLog.Exact := by
  intro h
  have hlen := congrArg List.length (h 0)
  rw [streamed_eq, announced_eq, List.length_take, List.length_take] at hlen
  simp only [length_growingLog] at hlen
  have htwo : turns (chunkSize + (0 + 1)) = 2 := by decide
  have hbig : 4 ≤ chunkSize := by decide
  rw [htwo] at hlen
  omega

end icsd_panel.downloads

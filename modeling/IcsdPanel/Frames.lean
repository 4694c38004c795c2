-- The logs of a container: frames with a header of eight bytes, cut anywhere
-- by the limit of the read, and what `demux` makes of them.
import IcsdPanel.Answers

namespace icsd_panel.frames

open disk answers

/-! ## Frames -/

inductive Output
  | stdout
  | stderr

def Output.byte : Output → UInt8
  | .stdout => 1
  | .stderr => 2

/-- A frame: its length fits the four bytes of its header. -/
structure Frame where
  output : Output
  payload : Bytes
  fits : payload.length < 2 ^ 32

def bytes32 (n : Nat) : Bytes :=
  [UInt8.ofNat (n / 2 ^ 24), UInt8.ofNat (n / 2 ^ 16), UInt8.ofNat (n / 2 ^ 8), UInt8.ofNat n]

def Frame.encode (f : Frame) : Bytes := [f.output.byte, 0, 0, 0] ++ bytes32 f.payload.length ++ f.payload

def encode (fs : List Frame) : Bytes := fs.flatMap Frame.encode

def payloads (fs : List Frame) : Bytes := fs.flatMap Frame.payload

theorem be32_bytes32 {n : Nat} (h : n < 2 ^ 32) : be32 (bytes32 n) = n := by
  simp only [be32, bytes32, List.foldl, UInt8.toNat_ofNat']
  omega

theorem length_encode (f : Frame) : f.encode.length = 8 + f.payload.length := by
  simp [Frame.encode, bytes32]
  omega

/-! ## The loop -/

/-- A run of the loop of `demux`, from the bytes at its start to the text. -/
inductive Demuxed : Bytes → Bytes → Prop
  | done {b : Bytes} (h : b.length < 8) : Demuxed b []
  | turn {b out : Bytes} (h : 8 ≤ b.length)
      (rest : Demuxed ((b.drop 8).drop (be32 ((b.drop 4).take 4))) out) :
      Demuxed b ((b.drop 8).take (be32 ((b.drop 4).take 4)) ++ out)

/-- The loop ends on all bytes. -/
theorem demuxed (k : Nat) (b : Bytes) (h : b.length ≤ k) : Demuxed b (demuxFrames k b) := by
  induction k generalizing b with
  | zero =>
    have hnil : b.length < 8 := by omega
    exact .done hnil
  | succ k ih =>
    unfold demuxFrames
    split
    · exact .done ‹_›
    · refine .turn (by omega) (ih _ ?_)
      simp only [List.length_drop]
      omega

/-- The loop has one outcome. -/
theorem Demuxed.unique {b x y : Bytes} (hx : Demuxed b x) (hy : Demuxed b y) : x = y := by
  induction hx generalizing y with
  | done h =>
    cases hy with
    | done _ => rfl
    | turn h' _ => omega
  | turn h rest ih =>
    cases hy with
    | done h' => omega
    | turn h' rest' => rw [ih rest']

/-! ## Frames that are cut -/

/-- The loop on a frame and what is after it, cut behind its header. -/
theorem demuxed_frame (f : Frame) {b out : Bytes} {m : Nat}
    (h : Demuxed (b.take (m - f.payload.length)) out) :
    Demuxed ((f.encode ++ b).take (8 + m)) (f.payload.take m ++ out) := by
  have hcut : (f.encode ++ b).take (8 + m) =
      [f.output.byte, 0, 0, 0] ++ bytes32 f.payload.length ++ (f.payload ++ b).take m := by
    have hhead : ([f.output.byte, 0, 0, 0] ++ bytes32 f.payload.length).length = 8 := rfl
    unfold Frame.encode
    rw [List.append_assoc, ← hhead, List.take_length_add_append]
  have hsize : be32 ((((f.encode ++ b).take (8 + m)).drop 4).take 4) = f.payload.length := by
    rw [hcut]
    exact be32_bytes32 f.fits
  have hrest : ((f.encode ++ b).take (8 + m)).drop 8 = (f.payload ++ b).take m := by
    rw [hcut]
    rfl
  have htext : ((f.payload ++ b).take m).take f.payload.length = f.payload.take m := by
    rw [List.take_take, Nat.min_comm, ← List.take_take, List.take_left]
  have hnext : ((f.payload ++ b).take m).drop f.payload.length = b.take (m - f.payload.length) := by
    rw [List.drop_take, List.drop_left]
  have hturn := @Demuxed.turn ((f.encode ++ b).take (8 + m)) out
    (by rw [hcut]; simp [bytes32])
    (by rw [hsize, hrest, hnext]; exact h)
  rw [hsize, hrest, htext] at hturn
  exact hturn

theorem demuxed_nil : Demuxed [] [] := .done (by simp)

/-- Frames cut anywhere: a prefix of what was sent, and all of it when nothing
is cut. -/
theorem demuxed_cut (fs : List Frame) (n : Nat) :
    ∃ out, Demuxed ((encode fs).take n) out ∧ out <+: payloads fs ∧
      ((encode fs).length ≤ n → out = payloads fs) := by
  induction fs generalizing n with
  | nil => exact ⟨[], by simpa [encode] using demuxed_nil, List.nil_prefix, fun _ => rfl⟩
  | cons f fs ih =>
    have hencode : encode (f :: fs) = f.encode ++ encode fs := List.flatMap_cons
    have hpayloads : payloads (f :: fs) = f.payload ++ payloads fs := List.flatMap_cons
    have hlen := length_encode f
    rw [hencode, hpayloads, List.length_append]
    by_cases hn : n < 8
    · refine ⟨[], .done ?_, List.nil_prefix, fun h => by omega⟩
      rw [List.length_take]
      omega
    obtain ⟨m, rfl⟩ : ∃ m, n = 8 + m := ⟨n - 8, by omega⟩
    obtain ⟨out, hout, hprefix, hall⟩ := ih (m - f.payload.length)
    refine ⟨f.payload.take m ++ out, demuxed_frame f hout, ?_, fun h => ?_⟩
    · by_cases hm : m ≤ f.payload.length
      -- The cut is in this frame, and nothing is after it.
      · rw [show m - f.payload.length = 0 by omega, List.take_zero] at hout
        rw [hout.unique demuxed_nil, List.append_nil]
        exact (List.take_prefix _ _).trans (List.prefix_append _ _)
      · rw [List.take_of_length_le (by omega)]
        exact (List.prefix_append_right_inj _).mpr hprefix
    · rw [List.take_of_length_le (by omega), hall (by omega)]

/-- A header of a frame is there, so `demux` goes into its loop. -/
theorem demux_encode {fs : List Frame} {n : Nat} (h : 8 ≤ n ∨ fs = []) :
    demux ((encode fs).take n) = demuxFrames ((encode fs).take n).length ((encode fs).take n) := by
  cases fs with
  | nil => simp [encode, demux, demuxFrames]
  | cons f fs =>
    have hn : 8 ≤ n := h.resolve_right (by simp)
    obtain ⟨m, rfl⟩ : ∃ m, n = 8 + m := ⟨n - 8, by omega⟩
    have hkind : f.output.byte = 1 ∨ f.output.byte = 2 := by
      cases f.output <;> simp [Output.byte]
    have hlen : 8 ≤ ((encode (f :: fs)).take (8 + m)).length := by
      rw [List.length_take, encode, List.flatMap_cons, List.length_append, length_encode]
      omega
    have hshape : ∃ b, (encode (f :: fs)).take (8 + m) = f.output.byte :: 0 :: 0 :: 0 :: b := by
      rw [show 8 + m = (4 + m) + 1 + 1 + 1 + 1 by omega]
      exact ⟨_, rfl⟩
    obtain ⟨b, hb⟩ := hshape
    rw [hb] at hlen ⊢
    refine if_neg ?_
    rintro (hshort | ⟨h1, h2⟩)
    · omega
    · exact hkind.elim h1 h2

/-- `demux` of frames that are cut nowhere or after a header: a prefix of the
payloads, and all of them when nothing is cut. Its loop ends on all bytes. -/
theorem demux_frames (fs : List Frame) (n : Nat) (h : 8 ≤ n ∨ fs = []) :
    demux ((encode fs).take n) <+: payloads fs ∧ demux (encode fs) = payloads fs ∧
      ∀ b, Demuxed b (demuxFrames b.length b) := by
  refine ⟨?_, ?_, fun b => demuxed _ b (Nat.le_refl _)⟩
  · obtain ⟨out, hout, hprefix, -⟩ := demuxed_cut fs n
    rw [demux_encode h, (demuxed _ _ (Nat.le_refl _)).unique hout]
    exact hprefix
  · obtain ⟨out, hout, -, hall⟩ := demuxed_cut fs ((encode fs).length + 8)
    have hwhole : (encode fs).take ((encode fs).length + 8) = encode fs := List.take_of_length_le (by omega)
    rw [hwhole] at hout
    rw [← hwhole, demux_encode (.inl (by omega)), hwhole, (demuxed _ _ (Nat.le_refl _)).unique hout]
    exact hall (by omega)

/-- Two frames, the second cut in its header. -/
theorem two_frames : demux ((encode [⟨.stdout, [111, 10], by decide⟩, ⟨.stderr, [101], by decide⟩]).take 13) <+:
    [111, 10, 101] :=
  (demux_frames [⟨.stdout, [111, 10], by decide⟩, ⟨.stderr, [101], by decide⟩] 13 (.inl (by decide))).1

end icsd_panel.frames

-- What JSON makes of a Go string: the bytes that are no character are replaced,
-- each by U+FFFD. Only the bytes of a text come back.
import IcsdPanel.Runes

namespace unicode

variable {b a rest : List UInt8} {c : Char} {x : UInt8}

/-! ## Characters in bytes -/

theorem decodeRune_eq (h : decodeRune b = some c) : ∃ rest, b = String.utf8EncodeChar c ++ rest := by
  obtain ⟨l, hl⟩ := ByteArray.exists_of_utf8DecodeChar?_eq_some h
  have htake : b.take 4 = String.utf8EncodeChar c ++ l.data.toList := by
    rw [← List.toByteArray_inj, hl, List.toByteArray_append]
    congr 1
    exact ByteArray.ext (by simp)
  refine ⟨l.data.toList ++ b.drop 4, ?_⟩
  rw [← List.append_assoc, ← htake, List.take_append_drop]

/-- An ASCII byte is not part of a longer character. -/
theorem encode_ascii (h : x ∈ String.utf8EncodeChar c) (hx : x.toNat < 128) :
    String.utf8EncodeChar c = [x] := by
  have hhigh : ∀ y k : UInt8, 128 ≤ k.toNat → x ≠ y ||| k := by
    rintro y k hk rfl
    rw [UInt8.toNat_or] at hx
    have := @Nat.right_le_or y.toNat k.toNat
    omega
  match hsize : c.utf8Size, c.utf8Size_pos, c.utf8Size_le_four with
  | 1, _, _ =>
    rw [String.utf8EncodeChar_eq_singleton hsize] at h ⊢
    rw [List.mem_singleton.mp h]
  | 2, _, _ =>
    rw [String.utf8EncodeChar_eq_cons_cons hsize] at h
    simp [hhigh _ 0xc0 (by decide), hhigh _ 0x80 (by decide)] at h
  | 3, _, _ =>
    rw [String.utf8EncodeChar_eq_cons_cons_cons hsize] at h
    simp [hhigh _ 0xe0 (by decide), hhigh _ 0x80 (by decide)] at h
  | 4, _, _ =>
    rw [String.utf8EncodeChar_eq_cons_cons_cons_cons hsize] at h
    simp [hhigh _ 0xf0 (by decide), hhigh _ 0x80 (by decide)] at h

theorem decodeRune_ascii (ha : a ≠ []) (hx : x.toNat < 128) :
    decodeRune (a ++ x :: rest) = decodeRune a := by
  have hback : ∀ c, decodeRune a = some c → decodeRune (a ++ x :: rest) = some c := by
    intro c hc
    obtain ⟨l, rfl⟩ := decodeRune_eq hc
    rw [List.append_assoc]
    exact decodeRune_encode c _
  cases hdec : decodeRune (a ++ x :: rest) with
  | none =>
    cases ha' : decodeRune a with
    | none => rfl
    | some c => rw [hback c ha'] at hdec; cases hdec
  | some c =>
    obtain ⟨l, hl⟩ := decodeRune_eq hdec
    rcases List.append_eq_append_iff.mp hl with ⟨m, hm, hx'⟩ | ⟨m, rfl, -⟩
    · cases m with
      | nil =>
        rw [List.append_nil] at hm
        rw [← hm, ← List.append_nil (String.utf8EncodeChar c)]
        exact (decodeRune_encode c []).symm
      | cons y m =>
        obtain ⟨rfl, -⟩ := List.cons.inj hx'
        have hone := encode_ascii (c := c) (by rw [hm]; simp) hx
        rw [hm] at hone
        have hlen := congrArg List.length hone
        have hpos := List.length_pos_iff.mpr ha
        simp only [List.length_append, List.length_cons, List.length_nil] at hlen
        omega
    · exact (decodeRune_encode c m).symm

theorem runesFrom_ascii {n : Nat} (hn : n ≤ a.length) (hx : x.toNat < 128) :
    runesFrom n (a ++ x :: rest) = runesFrom n a ++ runes (x :: rest) := by
  induction a generalizing n with
  | nil =>
    obtain rfl : n = 0 := Nat.le_zero.mp hn
    rfl
  | cons y a ih =>
    cases n with
    | succ n => exact ih (Nat.le_of_succ_le_succ hn)
    | zero =>
      have hdec := @decodeRune_ascii _ rest _ (List.cons_ne_nil y a) hx
      rw [List.cons_append] at hdec ⊢
      rw [runesFrom, runesFrom, hdec]
      cases hc : decodeRune (y :: a) with
      | none => exact congrArg _ (ih (Nat.zero_le _))
      | some c =>
        obtain ⟨l, hl⟩ := decodeRune_eq hc
        have hlen := congrArg List.length hl
        simp only [List.length_cons, List.length_append, String.length_utf8EncodeChar] at hlen
        exact congrArg _ (ih (by omega))

/-- An ASCII byte is a character of its own wherever it stands. -/
theorem runes_ascii (a rest : List UInt8) (hx : x.toNat < 128) :
    runes (a ++ x :: rest) = runes a ++ runes (x :: rest) :=
  runesFrom_ascii (Nat.zero_le _) hx

theorem mem_runesFrom {n : Nat} (h : some c ∈ runesFrom n b) : ∀ y ∈ String.utf8EncodeChar c, y ∈ b := by
  induction b generalizing n with
  | nil => cases n <;> cases h
  | cons y b ih =>
    cases n with
    | succ n => exact fun z hz => List.mem_cons_of_mem y (ih h z hz)
    | zero =>
      rw [runesFrom] at h
      cases hc : decodeRune (y :: b) with
      | none =>
        rw [hc] at h
        rcases List.mem_cons.mp h with h | h
        · cases h
        · exact fun z hz => List.mem_cons_of_mem y (ih h z hz)
      | some c' =>
        rw [hc] at h
        rcases List.mem_cons.mp h with h | h
        · cases h
          obtain ⟨l, hl⟩ := decodeRune_eq hc
          intro z hz
          rw [hl]
          exact List.mem_append_left l hz
        · exact fun z hz => List.mem_cons_of_mem y (ih h z hz)

/-- Bytes that all belong to characters are those of a text. -/
theorem text_of_runes {n : Nat} (hn : n ≤ b.length) (h : none ∉ runesFrom n b) :
    ∃ cs : List Char, b.drop n = cs.flatMap String.utf8EncodeChar := by
  induction b generalizing n with
  | nil => exact ⟨[], by simp⟩
  | cons y b ih =>
    cases n with
    | succ n => exact ih (Nat.le_of_succ_le_succ hn) h
    | zero =>
      rw [runesFrom] at h
      cases hc : decodeRune (y :: b) with
      | none => rw [hc] at h; exact absurd List.mem_cons_self h
      | some c =>
        rw [hc] at h
        obtain ⟨l, hl⟩ := decodeRune_eq hc
        have hlen := congrArg List.length hl
        simp only [List.length_cons, List.length_append, String.length_utf8EncodeChar] at hlen
        obtain ⟨cs, hcs⟩ := ih (n := c.utf8Size - 1) (by omega) fun hnone => h (List.mem_cons_of_mem _ hnone)
        refine ⟨c :: cs, ?_⟩
        have hdrop : b.drop (c.utf8Size - 1) = l := by
          have hsize := c.utf8Size_pos
          have := congrArg (List.drop c.utf8Size) hl
          rwa [← String.length_utf8EncodeChar c, List.drop_left, String.length_utf8EncodeChar,
            show c.utf8Size = (c.utf8Size - 1) + 1 by omega, List.drop_succ_cons] at this
        rw [List.drop_zero, List.flatMap_cons, ← hcs, hdrop]
        exact hl

/-! ## Replacing -/

/-- The character for a byte that is none. -/
def replacement : Char := '\uFFFD'

/-- A Go string as it comes out of JSON. -/
def replaced (b : List UInt8) : String := String.ofList ((runes b).map fun r => r.getD replacement)

theorem replaced_utf8 (s : String) : replaced (utf8 s) = s := by
  unfold replaced
  rw [runes_utf8, List.map_map]
  simp [Function.comp_def]

theorem replaced_ascii (a rest : List UInt8) (hx : x.toNat < 128) :
    replaced (a ++ x :: rest) = replaced a ++ replaced (x :: rest) := by
  unfold replaced
  rw [runes_ascii a rest hx, List.map_append, String.ofList_append]

/-- What is not a text is marked. -/
theorem replacement_mem (h : ¬ IsText b) : replacement ∈ (replaced b).toList := by
  unfold replaced
  rw [String.toList_ofList]
  by_cases hnone : none ∈ runes b
  · exact List.mem_map.mpr ⟨none, hnone, rfl⟩
  · obtain ⟨cs, hcs⟩ := text_of_runes (Nat.zero_le _) hnone
    refine absurd ?_ h
    have hb : b = utf8 (String.ofList cs) := by
      rw [utf8, String.toList_ofList, ← hcs, List.drop_zero]
    rw [hb]
    exact isText_utf8 _

theorem replaced_of_text (h : IsText b) : utf8 (replaced b) = b := by
  cases hdec : decode b with
  | none => exact absurd h (decode_none.mp hdec)
  | some s =>
    rw [← utf8_of_decode hdec, replaced_utf8]

theorem utf8_replaced_iff : utf8 (replaced b) = b ↔ IsText b :=
  ⟨fun h => h ▸ isText_utf8 _, replaced_of_text⟩

theorem mem_replaced (h : c ∈ (replaced b).toList) :
    c = replacement ∨ ∀ y ∈ String.utf8EncodeChar c, y ∈ b := by
  unfold replaced at h
  rw [String.toList_ofList, List.mem_map] at h
  obtain ⟨r, hr, rfl⟩ := h
  cases r with
  | none => exact .inl rfl
  | some c => exact .inr (mem_runesFrom hr)

/-! ## Bytes as characters -/

/-- The bytes of a string whose characters stand for bytes. -/
def bytes (n : String) : List UInt8 := n.toList.map fun c => UInt8.ofNat c.toNat

/-- Each character stands for a byte. -/
def Coded (n : String) : Prop := ∀ c ∈ n.toList, c.toNat < 256

instance (n : String) : Decidable (Coded n) := List.decidableBAll _ n.toList

theorem toNat_ofByte (y : UInt8) : (Char.ofNat y.toNat).toNat = y.toNat := by
  have hlt : y.toNat < 256 := y.toNat_lt
  have hvalid : y.toNat.isValidChar := Or.inl (by omega)
  rw [Char.ofNat, dif_pos hvalid]
  rfl

theorem ofByte_toNat (h : c.toNat < 256) : Char.ofNat (UInt8.ofNat c.toNat).toNat = c := by
  rw [UInt8.toNat_ofNat', Nat.mod_eq_of_lt h, Char.ofNat_toNat]

theorem toList_latin1 (b : List UInt8) : (latin1 b).toList = b.map fun y => Char.ofNat y.toNat :=
  String.toList_ofList

@[simp] theorem bytes_latin1 (b : List UInt8) : bytes (latin1 b) = b := by
  unfold bytes
  rw [toList_latin1, List.map_map]
  conv => rhs; rw [← List.map_id b]
  refine List.map_congr_left fun y _ => ?_
  simp [toNat_ofByte]

theorem latin1_bytes {n : String} (h : Coded n) : latin1 (bytes n) = n := by
  rw [← String.toList_inj, toList_latin1]
  unfold bytes
  rw [List.map_map]
  conv => rhs; rw [← List.map_id n.toList]
  exact List.map_congr_left fun c hc => ofByte_toNat (h c hc)

end unicode

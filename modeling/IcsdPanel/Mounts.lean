-- The disks of a sample: which lines of the mount table they come from, and where a
-- mount point with blanks in its path leads.
import IcsdPanel.Orders
import Mathlib.Algebra.Order.Field.Rat
import Mathlib.Algebra.Order.Floor.Ring
import Mathlib.Data.List.Find
import Mathlib.Data.List.Infix
import Mathlib.Data.Rat.Floor

open orders

namespace icsd_panel.mounts

abbrev Bytes := List UInt8

/-! ## Go's strings -/

/-- The characters of `unicode.IsSpace` in UTF-8. None of them is inside another
character, so a blank is found wherever its bytes stand. -/
def spaces : List Bytes :=
  [[9], [10], [11], [12], [13], [32], [0xc2, 0x85], [0xc2, 0xa0], [0xe1, 0x9a, 0x80]] ++
    (List.range 11).map (fun k => [0xe2, 0x80, 0x80 + UInt8.ofNat k]) ++
    [[0xe2, 0x80, 0xa8], [0xe2, 0x80, 0xa9], [0xe2, 0x80, 0xaf], [0xe2, 0x81, 0x9f], [0xe3, 0x80, 0x80]]

/-- How many bytes the blank has that a text starts with. -/
def spaceLen (b : Bytes) : Nat := ((spaces.find? fun w => w.isPrefixOf b).map List.length).getD 0

def flush (word : Bytes) : List Bytes := if word = [] then [] else [word]

/-- The words of the bytes after the first `n`, when one has begun. -/
def fieldsFrom : Nat → Bytes → Bytes → List Bytes
  | _, word, [] => flush word
  | n + 1, word, _ :: b => fieldsFrom n word b
  | 0, word, c :: b =>
    match spaceLen (c :: b) with
    | 0 => fieldsFrom 0 (word ++ [c]) b
    | n + 1 => flush word ++ fieldsFrom n [] b

/-- `strings.Fields` -/
def fields (b : Bytes) : List Bytes := fieldsFrom 0 [] b

def backslash : UInt8 := 92

def octalDigit (c : UInt8) : Option Nat := if 48 ≤ c ∧ c < 56 then some (c - 48).toNat else none

/-- `strconv.ParseUint(s, 8, 8)` of three bytes. -/
def parseOctal (x y z : UInt8) : Option UInt8 := do
  let v := 64 * (← octalDigit x) + 8 * (← octalDigit y) + (← octalDigit z)
  if v < 256 then some (UInt8.ofNat v) else none

/-- The byte that an escape at the front stands for. -/
def escaped : Bytes → Option UInt8
  | c :: x :: y :: z :: _ => if c = backslash then parseOctal x y z else none
  | _ => none

def unescapeFrom : Nat → Bytes → Bytes
  | _, [] => []
  | n + 1, _ :: b => unescapeFrom n b
  | 0, c :: b =>
    match escaped (c :: b) with
    | some v => v :: unescapeFrom 3 b
    | none => c :: unescapeFrom 0 b

/-- `unescapeMount` -/
def unescapeMount (s : Bytes) : Bytes := if backslash ∈ s then unescapeFrom 0 s else s

/-! ## The disks -/

/-- `syscall.Statfs_t` -/
structure Statfs where
  blocks : UInt64
  bsize : UInt64
  bfree : UInt64
  bavail : UInt64
  files : UInt64
  ffree : UInt64

structure Disk where
  mount : Bytes
  device : Bytes
  fs : Bytes
  total : UInt64
  used : UInt64
  free : UInt64
  pct : ℚ
  inodesPct : ℚ

def realFS : List Bytes := ["ext2", "ext3", "ext4", "xfs", "btrfs", "zfs", "f2fs", "reiserfs", "jfs"].map fun s =>
  s.toList.map fun c => UInt8.ofNat c.toNat

/-- `float64(int64(v*100+0.5)) / 100`, of what is not negative. -/
def round2 (v : ℚ) : ℚ := (⌊v * 100 + 1 / 2⌋ : ℤ) / 100

def pct (part whole : ℚ) : ℚ :=
  if whole ≤ 0 then 0
  else
    let v := part / whole * 100
    if v < 0 then 0 else if 100 < v then 100 else round2 v

/-- The device, the mount point and the type of a line, when a disk may be there. -/
def parseMount (line : Bytes) : Option (Bytes × Bytes × Bytes) :=
  match fields line with
  | dev :: path :: fs :: _ => if fs ∈ realFS then some (dev, unescapeMount path, fs) else none
  | _ => none

def diskOf (mount dev fs : Bytes) (st : Statfs) : Disk :=
  let total := st.blocks * st.bsize
  let free := st.bavail * st.bsize
  let used := total - st.bfree * st.bsize
  { mount := mount
    device := dev
    fs := fs
    total := total
    used := used
    free := free
    -- Same formula as df: used / (used + available).
    pct := pct used.toNat (used + free).toNat
    inodesPct := if 0 < st.files then pct (st.files - st.ffree).toNat st.files.toNat else 0 }

/-- The disk of a line, as `syscall.Statfs` answers. -/
def entryOf (statfs : Bytes → Option Statfs) (line : Bytes) : Option Disk :=
  match parseMount line with
  | none => none
  | some (dev, mount, fs) =>
    match statfs mount with
    | none => none
    | some st => if st.blocks = 0 then none else some (diskOf mount dev fs st)

/-- One turn of the loop of `readDisks` -/
def turn (statfs : Bytes → Option Statfs) (out : List Disk) (line : Bytes) : List Disk :=
  match parseMount line with
  | none => out
  | some (dev, _, _) =>
    -- a device that was seen is not asked again
    if dev ∈ out.map Disk.device then out else out ++ (entryOf statfs line).toList

/-- `readDisks`, for a `sort.Slice` that may turn ties around. -/
def readDisks (sort : List Disk → List Disk) (statfs : Bytes → Option Statfs) (lines : List Bytes) : List Disk :=
  sort (lines.foldl (turn statfs) [])

/-! ## Which lines the disks come from -/

variable {statfs : Bytes → Option Statfs} {line : Bytes} {lines : List Bytes} {d d' : Disk} {out : List Disk}

/-- The line gives the disk, and no line before it gives one of the same device. -/
def First (statfs : Bytes → Option Statfs) (lines : List Bytes) (d : Disk) : Prop :=
  ∃ before line after, lines = before ++ line :: after ∧ entryOf statfs line = some d ∧
    ∀ l ∈ before, ∀ d', entryOf statfs l = some d' → d'.device ≠ d.device

theorem entry_device (h : entryOf statfs line = some d) : ∃ mount fs, parseMount line = some (d.device, mount, fs) := by
  unfold entryOf at h
  split at h
  · cases h
  next dev mount fs hparse =>
    split at h
    · cases h
    · split at h
      · cases h
      · cases h
        exact ⟨mount, fs, hparse⟩

/-- A turn adds the disk of its line, when its device is new. -/
theorem turn_eq : turn statfs out line = out ++ ((entryOf statfs line).filter fun d => d.device ∉ out.map Disk.device).toList := by
  unfold turn
  split
  next hparse =>
    have hnone : entryOf statfs line = none := by simp [entryOf, hparse]
    simp [hnone]
  next dev mount fs hparse =>
    have hdev (d : Disk) (h : entryOf statfs line = some d) : d.device = dev := by
      obtain ⟨mount', fs', heq⟩ := entry_device h
      rw [hparse] at heq
      cases heq
      rfl
    cases hentry : entryOf statfs line with
    | none => simp
    | some d =>
      by_cases hseen : dev ∈ out.map Disk.device
      · rw [if_pos hseen, Option.filter_some, if_neg (by simpa [hdev d hentry] using hseen)]
        simp
      · rw [if_neg hseen, Option.filter_some, if_pos (by simpa [hdev d hentry] using hseen)]

/-- No line gives a disk of the device. -/
def Fresh (statfs : Bytes → Option Statfs) (lines : List Bytes) (dev : Bytes) : Prop :=
  ∀ l ∈ lines, ∀ d', entryOf statfs l = some d' → d'.device ≠ dev

theorem first_snoc : First statfs (lines ++ [line]) d ↔
    First statfs lines d ∨ entryOf statfs line = some d ∧ Fresh statfs lines d.device := by
  constructor
  · rintro ⟨before, l, after, heq, hl, hno⟩
    rcases List.eq_nil_or_concat after with rfl | ⟨after, x, rfl⟩
    · obtain ⟨rfl, hline⟩ := List.append_inj' heq rfl
      cases hline
      exact .inr ⟨hl, hno⟩
    · rw [List.concat_eq_append, ← List.cons_append, ← List.append_assoc] at heq
      obtain ⟨rfl, -⟩ := List.append_inj' heq rfl
      exact .inl ⟨before, l, after, rfl, hl, hno⟩
  · rintro (⟨before, l, after, rfl, hl, hno⟩ | ⟨hl, hno⟩)
    · exact ⟨before, l, after ++ [line], by simp, hl, hno⟩
    · exact ⟨lines, line, [], rfl, hl, hno⟩

/-- A device that some line gives has a first one. -/
theorem first_exists (lines : List Bytes) {dev : Bytes} (h : ¬ Fresh statfs lines dev) :
    ∃ d, First statfs lines d ∧ d.device = dev := by
  induction lines using List.reverseRecOn with
  | nil => exact absurd (fun l hl => by cases hl) h
  | append_singleton lines line ih =>
    by_cases hold : Fresh statfs lines dev
    · unfold Fresh at h
      push Not at h
      obtain ⟨l, hl, d, hd, hdev⟩ := h
      rcases List.mem_append.mp hl with hl | hl
      · exact absurd hdev (hold l hl d hd)
      · rw [List.mem_singleton.mp hl] at hd
        refine ⟨d, first_snoc.mpr (.inr ⟨hd, ?_⟩), hdev⟩
        rwa [hdev]
    · obtain ⟨d, hfirst, hdev⟩ := ih hold
      exact ⟨d, first_snoc.mpr (.inl hfirst), hdev⟩

theorem fresh_iff {dev : Bytes} (hmem : ∀ d, d ∈ out ↔ First statfs lines d) :
    dev ∉ out.map Disk.device ↔ Fresh statfs lines dev := by
  constructor
  · intro hno
    by_contra hseen
    obtain ⟨d, hfirst, rfl⟩ := first_exists lines hseen
    exact hno (List.mem_map.mpr ⟨d, (hmem d).mpr hfirst, rfl⟩)
  · intro hfresh hseen
    obtain ⟨d, hd, rfl⟩ := List.mem_map.mp hseen
    obtain ⟨before, l, after, rfl, hl, -⟩ := (hmem d).mp hd
    exact hfresh l (by simp) d hl rfl

/-- After some lines the disks are those that come first for their device. -/
theorem mem_turns (statfs : Bytes → Option Statfs) (lines : List Bytes) : ((lines.foldl (turn statfs) []).map Disk.device).Nodup ∧
    ∀ d, d ∈ lines.foldl (turn statfs) [] ↔ First statfs lines d := by
  induction lines using List.reverseRecOn with
  | nil => simp [First]
  | append_singleton lines line ih =>
    obtain ⟨hnodup, hmem⟩ := ih
    rw [List.foldl_append, List.foldl_cons, List.foldl_nil, turn_eq]
    generalize lines.foldl (turn statfs) [] = out at *
    constructor
    · rw [List.map_append, List.nodup_append]
      refine ⟨hnodup, ?_, ?_⟩
      · cases Option.filter (fun d => d.device ∉ out.map Disk.device) (entryOf statfs line) <;> simp
      · rintro _ hx _ hy rfl
        obtain ⟨d, hd, rfl⟩ := List.mem_map.mp hy
        have hfresh := (Option.filter_eq_some_iff.mp (Option.mem_toList.mp hd)).2
        exact absurd hx (by simpa using hfresh)
    · intro d
      rw [List.mem_append, hmem, first_snoc, ← fresh_iff hmem, Option.mem_toList,
        Option.filter_eq_some_iff]
      simp

theorem pct_bounds (part whole : ℚ) : 0 ≤ pct part whole ∧ pct part whole ≤ 100 := by
  unfold pct
  split
  · exact ⟨le_rfl, by norm_num⟩
  · simp only
    split
    · exact ⟨le_rfl, by norm_num⟩
    next hneg =>
      split
      · exact ⟨by norm_num, le_rfl⟩
      next hbig =>
        push Not at hneg hbig
        generalize part / whole * 100 = v at *
        unfold round2
        constructor
        · have h0 : 0 ≤ ⌊v * 100 + 1 / 2⌋ := Int.floor_nonneg.mpr (by linarith)
          have h0' : (0 : ℚ) ≤ (⌊v * 100 + 1 / 2⌋ : ℤ) := by exact_mod_cast h0
          linarith
        · have h1 : ⌊v * 100 + 1 / 2⌋ < 10001 := by
            rw [Int.floor_lt]
            push_cast
            linarith
          have h1' : ((⌊v * 100 + 1 / 2⌋ : ℤ) : ℚ) ≤ 10000 := by exact_mod_cast Int.le_of_lt_add_one h1
          linarith

def Disk.Shares (d : Disk) : Prop := (0 ≤ d.pct ∧ d.pct ≤ 100) ∧ 0 ≤ d.inodesPct ∧ d.inodesPct ≤ 100

theorem entry_shares (h : entryOf statfs line = some d) : d.Shares := by
  unfold entryOf at h
  split at h
  · cases h
  · split at h
    · cases h
    next st hst =>
      split at h
      · cases h
      · cases h
        refine ⟨pct_bounds _ _, ?_⟩
        simp only [diskOf]
        split
        · exact pct_bounds _ _
        · exact ⟨le_rfl, by norm_num⟩

/-- Go's `<=` on strings. -/
def bytesLe (a b : Bytes) : Bool := lexLe UInt8.toNat a b

/-- For every mount table, and whatever the system says of the mounts: the disks stand
sorted by their mount points, no two are of one device, and they are exactly those that
a line gives before any other line of its device. Their shares are at most a hundred. -/
theorem disks_told (sort : List Disk → List Disk) (statfs : Bytes → Option Statfs) (lines : List Bytes)
    (hperm : ∀ l, (sort l).Perm l) (hsort : ∀ l, (sort l).Pairwise fun a b => bytesLe a.mount b.mount = true) :
    let out := readDisks sort statfs lines
    out.Pairwise (fun a b => bytesLe a.mount b.mount = true) ∧ (out.map Disk.device).Nodup ∧
      (∀ d, d ∈ out ↔ First statfs lines d) ∧ ∀ d ∈ out, d.Shares := by
  intro out
  obtain ⟨hnodup, hmem⟩ := mem_turns statfs lines
  have hfirst (d : Disk) : d ∈ out ↔ First statfs lines d := (hperm _).mem_iff.trans (hmem d)
  refine ⟨hsort _, ((hperm _).map Disk.device).nodup_iff.mpr hnodup, hfirst, fun d hd => ?_⟩
  obtain ⟨before, line, after, -, hentry, -⟩ := (hfirst d).mp hd
  exact entry_shares hentry

/-- A disk that is mounted at "/" and once more at "/b". -/
def twoMounts : List Bytes :=
  [[47, 100, 32, 47, 98, 32, 120, 102, 115, 32, 114], [47, 100, 32, 47, 32, 120, 102, 115, 32, 114]]

theorem twoMounts_told :
    let out := readDisks (fun l => l.mergeSort fun a b => bytesLe a.mount b.mount)
      (fun _ => some ⟨100, 4096, 50, 40, 10, 5⟩) twoMounts
    out.Pairwise (fun a b => bytesLe a.mount b.mount = true) ∧ (out.map Disk.device).Nodup ∧
      (∀ d, d ∈ out ↔ First (fun _ => some ⟨100, 4096, 50, 40, 10, 5⟩) twoMounts d) ∧ ∀ d ∈ out, d.Shares :=
  disks_told (fun l => l.mergeSort fun a b => bytesLe a.mount b.mount) (fun _ => some ⟨100, 4096, 50, 40, 10, 5⟩)
    twoMounts (fun l => l.mergeSort_perm _) (sorted_lexLe UInt8.toNat Disk.mount)

/-! ## Blanks in a path -/

def octal (c : UInt8) : Bytes := [48 + c / 64, 48 + c / 8 % 8, 48 + c % 8]

/-- How the kernel writes a name into the table: the bytes of a set in octal, all others
as they are. The set has the backslash, and neither the slash nor a byte of a longer character. -/
structure Encoder (set : List UInt8) (enc : Bytes → Bytes) : Prop where
  nil : enc [] = []
  cons : ∀ c p, enc (c :: p) = if c ∈ set then backslash :: octal c ++ enc p else c :: enc p
  escapes : backslash ∈ set
  slash : 47 ∉ set
  low : ∀ c ∈ set, c < 128

/-- The name has no blank that is written as it is. -/
def plain (set : List UInt8) : Bytes → Bool
  | [] => true
  | c :: p => (c ∈ set || spaceLen (c :: p) = 0) && plain set p

variable {c : UInt8} {p q rest : Bytes} {set : List UInt8} {enc : Bytes → Bytes}

theorem octal_read : ∀ n < 256, parseOctal (48 + UInt8.ofNat n / 64) (48 + UInt8.ofNat n / 8 % 8) (48 + UInt8.ofNat n % 8) =
    some (UInt8.ofNat n) := by
  decide +kernel

theorem escaped_octal : escaped (backslash :: octal c ++ rest) = some c := by
  have h := octal_read c.toNat c.toNat_lt
  rw [UInt8.ofNat_toNat] at h
  simpa [escaped, octal] using h

theorem escaped_other (h : c ≠ backslash) : escaped (c :: p) = none := by
  unfold escaped
  split
  next heq =>
    cases heq
    rw [if_neg h]
  next => rfl

theorem Encoder.escape (h : Encoder set enc) (hc : c ∈ set) : enc (c :: p) = backslash :: octal c ++ enc p := by
  rw [h.cons, if_pos hc]

theorem Encoder.letter (h : Encoder set enc) (hc : c ∉ set) : enc (c :: p) = c :: enc p := by
  rw [h.cons, if_neg hc]

/-- The escapes are read back. -/
theorem unescape_encoded (h : Encoder set enc) (p : Bytes) : unescapeFrom 0 (enc p) = p := by
  induction p with
  | nil => rw [h.nil, unescapeFrom]
  | cons c p ih =>
    by_cases hc : c ∈ set
    · have hesc : escaped (backslash :: (octal c ++ enc p)) = some c := escaped_octal
      rw [h.escape hc, List.cons_append, unescapeFrom, hesc]
      simp only [octal, List.cons_append, List.nil_append, unescapeFrom, ih]
    · have hne : c ≠ backslash := by
        rintro rfl
        exact hc h.escapes
      rw [h.letter hc, unescapeFrom, escaped_other hne, ih]

theorem unescapeMount_eq (s : Bytes) : unescapeMount s = unescapeFrom 0 s := by
  unfold unescapeMount
  split
  · rfl
  next h =>
    induction s with
    | nil => rfl
    | cons c s ih =>
      rw [List.mem_cons, not_or] at h
      rw [unescapeFrom, escaped_other (Ne.symm h.1)]
      simp only
      rw [← ih h.2]

/-- A blank starts with a byte that a graphic character does not start with, and its
other bytes are high. -/
theorem spaces_shape : (spaces.all fun w => match w with
    | [] => false
    | c :: u => (c ≤ 32 || 128 ≤ c) && u.all fun x => 128 ≤ x) = true := by
  rfl

theorem space_cases {w : Bytes} (hw : w ∈ spaces) : ∃ c u, w = c :: u ∧ (c ≤ 32 ∨ 128 ≤ c) ∧ ∀ x ∈ u, 128 ≤ x := by
  have h := List.all_eq_true.mp spaces_shape w hw
  cases w with
  | nil => cases h
  | cons c u =>
    simp only [Bool.and_eq_true, Bool.or_eq_true, decide_eq_true_eq, List.all_eq_true] at h
    exact ⟨c, u, rfl, h.1, h.2⟩

theorem spaceLen_graphic (hlo : 32 < c) (hhi : c < 128) : spaceLen (c :: rest) = 0 := by
  unfold spaceLen
  rw [List.find?_eq_none.mpr]
  · rfl
  · intro w hw hpre
    obtain ⟨x, u, rfl, hx, -⟩ := space_cases hw
    rw [List.isPrefixOf_cons_cons, Bool.and_eq_true, beq_iff_eq] at hpre
    rw [hpre.1] at hx
    rcases hx with hx | hx
    · exact absurd hlo (UInt8.not_lt.mpr hx)
    · exact absurd hhi (UInt8.not_lt.mpr hx)

theorem spaceLen_blank : spaceLen (32 :: rest) = 1 := by
  rfl

/-- High bytes come from the name. -/
theorem prefix_encoded (h : Encoder set enc) {u : Bytes} (hu : ∀ x ∈ u, 128 ≤ x) :
    u.isPrefixOf (enc p ++ 32 :: rest) = u.isPrefixOf p := by
  induction u generalizing p with
  | nil => simp
  | cons x u ih =>
    have hx : 128 ≤ x := hu x List.mem_cons_self
    have hne {y : UInt8} (hy : y < 128) : (x == y) = false := by
      rw [beq_eq_false_iff_ne]
      rintro rfl
      exact absurd hy (UInt8.not_lt.mpr hx)
    cases p with
    | nil => simp [h.nil, List.isPrefixOf_cons_cons, hne (show (32 : UInt8) < 128 by decide)]
    | cons c p =>
      by_cases hc : c ∈ set
      · rw [h.escape hc, List.cons_append, List.cons_append, List.isPrefixOf_cons_cons, List.isPrefixOf_cons_cons,
          hne (h.low c hc), hne (show backslash < 128 by decide), Bool.false_and, Bool.false_and]
      · rw [h.letter hc, List.cons_append, List.isPrefixOf_cons_cons, List.isPrefixOf_cons_cons,
          ih fun y hy => hu y (List.mem_cons_of_mem x hy)]

theorem spaceLen_encoded (h : Encoder set enc) : spaceLen (c :: (enc p ++ 32 :: rest)) = spaceLen (c :: p) := by
  have hsame (w : Bytes) (hw : w ∈ spaces) :
      w.isPrefixOf (c :: (enc p ++ 32 :: rest)) = w.isPrefixOf (c :: p) := by
    obtain ⟨x, u, rfl, -, hu⟩ := space_cases hw
    rw [List.isPrefixOf_cons_cons, List.isPrefixOf_cons_cons, prefix_encoded h hu]
  unfold spaceLen
  rw [List.find?_congr hsame]

theorem fields_letter {word : Bytes} (h : spaceLen (c :: rest) = 0) :
    fieldsFrom 0 word (c :: rest) = fieldsFrom 0 (word ++ [c]) rest := by
  rw [fieldsFrom, h]

theorem fields_blank {word : Bytes} : fieldsFrom 0 word (32 :: rest) = flush word ++ fieldsFrom 0 [] rest := by
  rw [fieldsFrom, spaceLen_blank]

/-- A word of graphic characters. -/
theorem fields_graphic (word w rest : Bytes) (hw : ∀ c ∈ w, 32 < c ∧ c < 128) :
    fieldsFrom 0 word (w ++ rest) = fieldsFrom 0 (word ++ w) rest := by
  induction w generalizing word with
  | nil => rw [List.nil_append, List.append_nil]
  | cons c w ih =>
    obtain ⟨hlo, hhi⟩ := hw c List.mem_cons_self
    rw [List.cons_append, fields_letter (spaceLen_graphic hlo hhi), ih _ fun x hx => hw x (List.mem_cons_of_mem c hx),
      List.append_assoc, List.singleton_append]

theorem octal_graphic : ∀ n < 128, ∀ x ∈ backslash :: octal (UInt8.ofNat n), 32 < x ∧ x < 128 := by
  have hall : ((List.range 128).all fun n => (backslash :: octal (UInt8.ofNat n)).all fun x => 32 < x && x < 128) = true := by
    decide +kernel
  intro n hn x hx
  simpa using List.all_eq_true.mp (List.all_eq_true.mp hall n (List.mem_range.mpr hn)) x hx

/-- An escape is four letters of the word. -/
theorem fields_escape {word : Bytes} (hc : c < 128) :
    fieldsFrom 0 word (backslash :: octal c ++ rest) = fieldsFrom 0 (word ++ backslash :: octal c) rest := by
  have hgraphic := octal_graphic c.toNat (UInt8.lt_iff_toNat_lt.mp hc)
  rw [UInt8.ofNat_toNat] at hgraphic
  exact fields_graphic word (backslash :: octal c) rest hgraphic

/-- A name without such blanks is one word. -/
theorem fields_plain (h : Encoder set enc) (word rest : Bytes) (hp : plain set p = true) :
    fieldsFrom 0 word (enc p ++ 32 :: rest) = flush (word ++ enc p) ++ fieldsFrom 0 [] rest := by
  induction p generalizing word with
  | nil => rw [h.nil, List.nil_append, List.append_nil, fields_blank]
  | cons c p ih =>
    rw [plain, Bool.and_eq_true, Bool.or_eq_true, decide_eq_true_eq, decide_eq_true_eq] at hp
    by_cases hc : c ∈ set
    · rw [h.escape hc, List.append_assoc, fields_escape (h.low c hc), ih _ hp.2, List.append_assoc]
    · rw [h.letter hc, List.cons_append, fields_letter, ih _ hp.2, List.append_assoc, List.singleton_append]
      rw [spaceLen_encoded h]
      exact hp.1.resolve_left hc

/-- A name with one is cut there. -/
theorem fields_cut (h : Encoder set enc) (word rest : Bytes) (hp : plain set p = false) :
    ∃ a b tail, p = a ++ b ∧ b ≠ [] ∧ fieldsFrom 0 word (enc p ++ 32 :: rest) = flush (word ++ enc a) ++ tail := by
  induction p generalizing word with
  | nil => cases hp
  | cons c p ih =>
    by_cases hc : c ∈ set
    · have hp' : plain set p = false := by simpa [plain, hc] using hp
      obtain ⟨a, b, tail, rfl, hb, heq⟩ := ih (word ++ backslash :: octal c) hp'
      refine ⟨c :: a, b, tail, rfl, hb, ?_⟩
      rw [h.escape hc, List.append_assoc, fields_escape (h.low c hc), heq, h.escape hc, List.append_assoc]
    · by_cases hspace : spaceLen (c :: p) = 0
      · have hp' : plain set p = false := by simpa [plain, hc, hspace] using hp
        obtain ⟨a, b, tail, rfl, hb, heq⟩ := ih (word ++ [c]) hp'
        refine ⟨c :: a, b, tail, rfl, hb, ?_⟩
        rw [h.letter hc, List.cons_append, fields_letter, heq, h.letter hc, List.append_assoc, List.singleton_append]
        rwa [spaceLen_encoded h]
      · obtain ⟨n, hn⟩ := Nat.exists_eq_succ_of_ne_zero hspace
        refine ⟨[], c :: p, fieldsFrom n [] (enc p ++ 32 :: rest), rfl, List.cons_ne_nil _ _, ?_⟩
        rw [h.letter hc, List.cons_append, fieldsFrom, spaceLen_encoded h, hn, h.nil, List.append_nil]

theorem realFS_graphic {fs : Bytes} (hfs : fs ∈ realFS) : (∀ c ∈ fs, 32 < c ∧ c < 128) ∧ fs ≠ [] := by
  simp only [realFS, List.map_cons, List.map_nil, List.mem_cons, List.not_mem_nil, or_false] at hfs
  rcases hfs with rfl | rfl | rfl | rfl | rfl | rfl | rfl | rfl | rfl <;> exact ⟨by simp, by simp⟩

theorem flush_encoded (h : Encoder set enc) (hp : p ≠ []) : flush (enc p) = [enc p] := by
  unfold flush
  rw [if_neg]
  cases p with
  | nil => exact absurd rfl hp
  | cons c p =>
    rw [h.cons]
    split <;> simp

/-- The line of a mount: the device, the mount point, the type and what follows. -/
def lineOf (dev path fs opts : Bytes) : Bytes := dev ++ 32 :: (path ++ 32 :: (fs ++ 32 :: opts))

/-- However the kernel encodes names: for a device with no blank that is left as it is,
and a real file system, the line of a mount names its mount point exactly when there
is none in the path either. -/
theorem mount_read_back {setDev : List UInt8} {encDev : Bytes → Bytes} (henc : Encoder set enc)
    (hencDev : Encoder setDev encDev) (dev p fs opts : Bytes) (hdev : dev ≠ []) (hplain : plain setDev dev = true)
    (hroot : p.head? = some 47) (hfs : fs ∈ realFS) :
    (parseMount (lineOf (encDev dev) (enc p) fs opts)).map (fun x => x.2.1) = some p ↔ plain set p = true := by
  obtain ⟨p, rfl⟩ : ∃ p', p = 47 :: p' := by
    cases p with
    | nil => cases hroot
    | cons c p =>
      cases hroot
      exact ⟨p, rfl⟩
  obtain ⟨hfsg, hfsn⟩ := realFS_graphic hfs
  unfold parseMount lineOf fields
  rw [fields_plain hencDev [] _ hplain, List.nil_append, flush_encoded hencDev hdev]
  cases hcase : plain set (47 :: p) with
  | true =>
    have hrest : fieldsFrom 0 [] (fs ++ 32 :: opts) = fs :: fieldsFrom 0 [] opts := by
      rw [fields_graphic [] fs _ hfsg, List.nil_append, fields_blank, flush, if_neg hfsn, List.singleton_append]
    rw [fields_plain henc [] _ hcase, List.nil_append, flush_encoded henc (List.cons_ne_nil _ _), hrest]
    simp [hfs, unescapeMount_eq, unescape_encoded henc]
  | false =>
    refine iff_of_false ?_ Bool.false_ne_true
    have hgraphic : spaceLen (47 :: p) = 0 := spaceLen_graphic (by decide) (by decide)
    have hp : plain set p = false := by simpa [plain, hgraphic] using hcase
    obtain ⟨a, b, tail, rfl, hb, hcut⟩ := fields_cut henc [47] (fs ++ 32 :: opts) hp
    have hword : fieldsFrom 0 [] (enc (47 :: (a ++ b)) ++ 32 :: (fs ++ 32 :: opts)) = enc (47 :: a) :: tail := by
      rw [henc.letter henc.slash, List.cons_append, fields_letter (by rwa [spaceLen_encoded henc]), List.nil_append, hcut,
        List.singleton_append, ← henc.letter henc.slash, flush_encoded henc (List.cons_ne_nil _ _), List.singleton_append]
    rw [hword, List.singleton_append]
    -- what is named is the path before the blank
    have hne : unescapeMount (enc (47 :: a)) ≠ 47 :: (a ++ b) := by
      rw [unescapeMount_eq, unescape_encoded henc]
      simpa using hb
    cases tail with
    | nil => simp
    | cons fs' tail =>
      by_cases hreal : fs' ∈ realFS
      · simpa [hreal] using hne
      · simp [hreal]

/-- The encoder of a set. -/
def mangle (set : List UInt8) (p : Bytes) : Bytes := p.flatMap fun c => if c ∈ set then backslash :: octal c else [c]

theorem mangle_encoder (hback : backslash ∈ set) (hslash : 47 ∉ set) (hlow : ∀ c ∈ set, c < 128) : Encoder set (mangle set) where
  nil := rfl
  cons c p := by
    unfold mangle
    rw [List.flatMap_cons]
    split <;> rfl
  escapes := hback
  slash := hslash
  low := hlow

/-- A disk at "/m d", from a device with a "#" in its name. -/
theorem blank_read_back :
    (parseMount (lineOf (mangle [32, 9, 10, 92, 35] [47, 35]) (mangle [32, 9, 10, 92] [47, 109, 32, 100])
        [120, 102, 115] [114, 119])).map (fun x => x.2.1) = some [47, 109, 32, 100] ↔
      plain [32, 9, 10, 92] [47, 109, 32, 100] = true :=
  mount_read_back (mangle_encoder (by decide) (by decide) (by simp)) (mangle_encoder (by decide) (by decide) (by simp)) [47, 35]
    [47, 109, 32, 100] [120, 102, 115] [114, 119] (List.cons_ne_nil _ _) rfl rfl
    (List.mem_of_elem_eq_true rfl)

end icsd_panel.mounts

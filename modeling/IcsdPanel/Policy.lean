-- The policy of a server: which paths a request may name. `resolve` follows
-- the links of the part of a path that is there, so the answer of a check is
-- a place that a link cannot move any more.
import IcsdPanel.Machine

namespace icsd_panel.policy

open paths disk machine

/-! ## The policy file -/

/-- The parts of `policy.json` that the file operations read. -/
structure PolicyFile where
  roots : List String
  readOnly : List String
  maxMB : Int
  backupDir : String

/-- A loaded policy: its roots are clean, absolute paths. -/
structure Policy where
  roots : List Loc
  readOnly : List Loc
  maxMB : Int
  backupDir : CleanPath
  proper : ∀ r ∈ roots ++ readOnly, Proper r
  backup_proper : backupDir.abs = true → Proper backupDir.parts
  maxMB_pos : 0 < maxMB

def defaultBackupDir : String := "/var/backups/icsd"

/-- `unicode.IsSpace`. -/
def isSpace (c : Char) : Bool :=
  c.toNat ∈ [0x09, 0x0A, 0x0B, 0x0C, 0x0D, 0x20, 0x85, 0xA0, 0x1680, 0x2028, 0x2029, 0x202F, 0x205F,
    0x3000] || (0x2000 ≤ c.toNat && c.toNat ≤ 0x200A)

/-- `strings.TrimSpace`. -/
def trimSpace (s : String) : String :=
  String.ofList ((s.toList.dropWhile isSpace).reverse.dropWhile isSpace).reverse

/-- One root of the file, when it is an absolute path. -/
def cleanRoot (r : String) : Option Loc :=
  let r := trimSpace r
  if r ≠ "" ∧ isAbs r = true then some (clean r).parts else none

theorem cleanRoot_proper {r : String} {l : Loc} (h : cleanRoot r = some l) : Proper l := by
  unfold cleanRoot at h
  generalize trimSpace r = s at h
  simp only [Option.ite_none_right_eq_some, Option.some.injEq] at h
  obtain ⟨⟨_, habs⟩, rfl⟩ := h
  exact clean_proper habs

/-- `Policy.normalize`. -/
def normalize (p : PolicyFile) : Policy where
  roots := p.roots.filterMap cleanRoot
  readOnly := p.readOnly.filterMap cleanRoot
  maxMB := if p.maxMB ≤ 0 then 512 else p.maxMB
  backupDir := clean (if p.backupDir = "" then defaultBackupDir else p.backupDir)
  proper r hr := by
    rw [← List.filterMap_append] at hr
    obtain ⟨raw, _, hraw⟩ := List.mem_filterMap.mp hr
    exact cleanRoot_proper hraw
  backup_proper h := clean_proper h
  maxMB_pos := by split <;> omega

/-! ## The checks of a path -/

/-- `resolve` from a path and the names that were taken off its end, the path
from its last name to its first. -/
def resolveRev (d : Disk) : List Name → List Name → Except Errno Loc
  | [], rest => .ok rest
  | n :: up, rest =>
    match evalSymlinks d (up.reverse ++ [n]) with
    | .ok real => .ok (real ++ rest)
    | .error .noent => resolveRev d up (n :: rest)
    | .error e => .error e

/-- `resolve` of a clean absolute path: it follows the links of the part that
is there. -/
def resolve (d : Disk) (p : Loc) : Except GoError Loc :=
  (resolveRev d p.reverse []).mapError .os

def notAbsolute : GoError := .text "مسیر باید مطلق باشد"

/-- `resolve` of the text of a path. -/
def resolveText (d : Disk) (raw : String) : Except GoError Loc :=
  if isAbs raw then resolve d (clean raw).parts else .error notAbsolute

/-- `resolve(p.BackupDir)`. -/
def resolveBackup (pol : Policy) (d : Disk) : Except GoError Loc :=
  if pol.backupDir.abs then resolve d pol.backupDir.parts else .error notAbsolute

def alwaysDenied : List Loc :=
  [["etc", "icsd-agent"], ["etc", "shadow"], ["etc", "gshadow"], ["etc", "sudoers"],
    ["etc", "sudoers.d"]]

/-- Paths that are never read or written, whatever the roots. -/
def deniedLexical (p : Loc) : Bool :=
  alwaysDenied.any (within p) || p.any fun part => part = ".ssh" || part = ".gnupg"

/-- `/home/<user>/.<anything>`, and what is below it. -/
def homeDotfile : Loc → Bool
  | home :: _ :: n :: _ => home = "home" && hasPrefix n "."
  | _ => false

def errDenied : GoError := .text "خارج از مسیرهای مجاز این سرور (policy.json)"

def errHome : GoError :=
  .text "فایل‌های پنهانِ پوشهٔ خانهٔ کاربران (.bashrc، .profile…) از پنل نوشتنی نیستند"

def errRoot : GoError := .text "پوشه‌های اصلی را نمی‌شود حذف یا جابه‌جا کرد"

/-- Whether a resolved path is in a root. -/
def inRoot (d : Disk) (real r : Loc) : Bool :=
  match resolve d r with
  | .ok rr => within real rr
  | .error _ => false

/-- `Runner.inBackupDir`. -/
def inBackupDir (pol : Policy) (d : Disk) (real : Loc) : Bool :=
  match resolveBackup pol d with
  | .ok bd => within real bd
  | .error _ => false

/-- Whether a resolved path is in one of the writable roots. -/
def inWritable (pol : Policy) (d : Disk) (real : Loc) : Bool :=
  pol.roots.any (inRoot d real) || inBackupDir pol d real

/-- `Policy.Check` of a resolved path. -/
def verdict (pol : Policy) (d : Disk) (real : Loc) (write : Bool) : Except GoError Loc :=
  if deniedLexical real then .error errDenied
  else if write && homeDotfile real then .error errHome
  else if inWritable pol d real then .ok real
  else if !write && pol.readOnly.any (inRoot d real) then .ok real
  else .error errDenied

/-- `Policy.Check` of a clean absolute path. -/
def checkPath (pol : Policy) (d : Disk) (p : Loc) (write : Bool) : Except GoError Loc :=
  match resolve d p with
  | .error e => .error e
  | .ok real => verdict pol d real write

/-- `Policy.Check`. -/
def check (pol : Policy) (d : Disk) (raw : String) (write : Bool) : Except GoError Loc :=
  if isAbs raw then checkPath pol d (clean raw).parts write else .error notAbsolute

/-- Whether a resolved path is what a root of the policy leads to. -/
def isRootOf (d : Disk) (real r : Loc) : Bool :=
  match resolve d r with
  | .ok rr => rr = real
  | .error _ => false

/-- `Policy.IsRoot`. -/
def isRoot (pol : Policy) (d : Disk) (real : Loc) : Bool :=
  (pol.roots ++ pol.readOnly).any (isRootOf d real) ||
    (match resolveBackup pol d with
      | .ok rr => rr = real
      | .error _ => false) ||
    real = []

/-- The last lines of `Policy.CheckEntry`, on the entry itself. -/
def admitEntry (pol : Policy) (d : Disk) (entry : Loc) : Except GoError Loc :=
  if deniedLexical entry || homeDotfile entry then .error errDenied
  else if isRoot pol d entry then .error errRoot
  else .ok entry

/-- `Policy.CheckEntry`: the entry itself, a link stays a link. -/
def checkEntry (pol : Policy) (d : Disk) (raw : String) : Except GoError Loc :=
  if isAbs raw then
    match (clean raw).parts.getLast? with
    | none => .error errDenied
    | some base =>
      match checkPath pol d (clean raw).parts.dropLast true with
      | .error e => .error e
      | .ok parent => admitEntry pol d (parent ++ [base])
  else .error notAbsolute

/-! ## What the checks promise -/

variable {pol : Policy} {d : Disk} {p q real : Loc} {raw : String} {write : Bool}

theorem resolveRev_resolved {rev rest : List Name} (hp : Proper (rev.reverse ++ rest))
    (hrest : rest = [] ∨ ∃ x xs, rest = x :: xs ∧
      evalSymlinks d (rev.reverse ++ [x]) = .error .noent)
    (h : resolveRev d rev rest = .ok real) : Resolved d real := by
  induction rev generalizing rest with
  | nil =>
    simp only [resolveRev, Except.ok.injEq] at h
    subst h
    refine ⟨by simpa using hp, ?_⟩
    rcases hrest with rfl | ⟨x, xs, rfl, hx⟩
    · exact Or.inl (Or.inl rfl)
    · have hx1 : Ordinary x := hp x (by simp)
      have hend := walk_snoc 255 hx1 (Or.inl rfl) (show walk d false 255 [] [] = .ok [] from rfl) hx
      exact Or.inr ⟨[], x, xs, rfl, hend.1, hend.2⟩
  | cons n up ih =>
    unfold resolveRev at h
    have hassoc : (n :: up).reverse ++ rest = up.reverse ++ (n :: rest) := by simp
    split at h
    · rename_i l hl
      cases h
      obtain ⟨hplain, hprop⟩ := walk_ok 255 (Or.inl rfl) (by simp [Proper]) hl
      have hrestp : Proper rest := (proper_append.mp hp).2
      refine ⟨proper_append.mpr ⟨hprop, hrestp⟩, ?_⟩
      rcases hrest with rfl | ⟨x, xs, rfl, hx⟩
      · rw [List.append_nil]; exact Or.inl hplain
      · rw [List.reverse_cons] at hx
        obtain ⟨h1, h2⟩ := walk_snoc 255 (hrestp x List.mem_cons_self) (Or.inl rfl) hl hx
        exact Or.inr ⟨l, x, xs, rfl, h1, h2⟩
    · rename_i hnoent
      exact ih (by rw [← hassoc]; exact hp) (Or.inr ⟨n, rest, rfl, hnoent⟩) h
    · cases h

/-- What `resolve` gives leads to its own place, as far as it leads anywhere. -/
theorem resolve_resolved (hp : Proper p) (h : resolve d p = .ok real) : Resolved d real := by
  unfold resolve at h
  cases hr : resolveRev d p.reverse [] with
  | error e => rw [hr] at h; cases h
  | ok l =>
    rw [hr] at h
    cases h
    exact resolveRev_resolved (by simpa using hp) (Or.inl rfl) hr

theorem verdict_ok (h : verdict pol d real write = .ok q) :
    q = real ∧ deniedLexical real = false ∧ (write = true → homeDotfile real = false ∧
      inWritable pol d real = true) := by
  unfold verdict at h
  split at h
  · cases h
  · rename_i hden
    split at h
    · cases h
    · rename_i hhome
      split at h
      · cases h
        refine ⟨rfl, by simpa using hden, fun hw => ⟨?_, ‹_›⟩⟩
        simpa [hw] using hhome
      · split at h
        · rename_i hro
          cases h
          refine ⟨rfl, by simpa using hden, fun hw => ?_⟩
          simp [hw] at hro
        · cases h

theorem checkPath_ok (hp : Proper p) (h : checkPath pol d p write = .ok real) :
    Resolved d real ∧ deniedLexical real = false ∧
      (write = true → homeDotfile real = false ∧ inWritable pol d real = true) := by
  unfold checkPath at h
  split at h
  · cases h
  · rename_i l hl
    obtain ⟨rfl, h1, h2⟩ := verdict_ok h
    exact ⟨resolve_resolved hp hl, h1, h2⟩

/-- A path that passed the check leads to its own place, is not a path that
is never touched and, for writing, is in a writable root. -/
theorem check_ok (h : check pol d raw write = .ok real) :
    Resolved d real ∧ deniedLexical real = false ∧
      (write = true → homeDotfile real = false ∧ inWritable pol d real = true) := by
  unfold check at h
  split at h
  · exact checkPath_ok (clean_proper ‹_›) h
  · cases h

theorem checkEntry_ok (h : checkEntry pol d raw = .ok q) :
    ∃ parent base, q = parent ++ [base] ∧ Ordinary base ∧ Resolved d parent ∧
      inWritable pol d parent = true ∧ deniedLexical q = false ∧ homeDotfile q = false ∧
      isRoot pol d q = false := by
  unfold checkEntry at h
  split at h
  · rename_i habs
    split at h
    · cases h
    · rename_i base hbase
      split at h
      · cases h
      · rename_i parent hpar
        have hproper := clean_proper habs
        obtain ⟨h1, _, h2⟩ := checkPath_ok (proper_above (List.dropLast_prefix _) hproper) hpar
        have hb := hproper base (List.mem_of_getLast? hbase)
        unfold admitEntry at h
        split at h
        · cases h
        · rename_i hden
          split at h
          · cases h
          · rename_i hroot
            cases h
            simp only [Bool.or_eq_true, not_or, Bool.not_eq_true] at hden hroot
            exact ⟨parent, base, rfl, hb, h1, (h2 rfl).2, hden.1, hden.2, hroot⟩
  · cases h

/-! ## The paths that are never touched -/

theorem deniedLexical_below (h : p <+: q) (hp : deniedLexical p = true) :
    deniedLexical q = true := by
  unfold deniedLexical at hp ⊢
  rw [Bool.or_eq_true] at hp ⊢
  rcases hp with hp | hp
  · left
    obtain ⟨r, hr, hw⟩ := List.any_eq_true.mp hp
    exact List.any_eq_true.mpr ⟨r, hr, (within_iff q r).mpr (((within_iff p r).mp hw).trans h)⟩
  · right
    obtain ⟨x, hx, hd⟩ := List.any_eq_true.mp hp
    exact List.any_eq_true.mpr ⟨x, h.subset hx, hd⟩

theorem homeDotfile_below (h : p <+: q) (hp : homeDotfile p = true) : homeDotfile q = true := by
  obtain ⟨r, rfl⟩ := h
  unfold homeDotfile at hp
  split at hp
  · exact hp
  · cases hp

end icsd_panel.policy

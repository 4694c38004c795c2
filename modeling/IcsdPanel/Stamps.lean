-- The names of backups. A name carries the local time at which the backup was
-- made, and a prune takes the sorted names for the order of their making.
import IcsdPanel.Prunes

open effects

namespace icsd_panel.stamps

open paths disk machine policy files archives prunes

/-! ## Two orders of one list -/

variable {α : Type} {s m : List α} {lt : α → α → Prop} {x y : α} {k : Nat}

theorem perm_of_subset (hm : m.Nodup) (hsub : m ⊆ s) (hlen : s.length ≤ m.length) : m.Perm s :=
  (List.subperm_of_subset hm hsub).perm_of_length_le hlen

/-- What is before the cut of a sorted list comes before what is behind it. -/
theorem lt_of_cut (hs : s.Pairwise lt) (hx : x ∈ s.take k) (hy : y ∈ s) (hny : y ∉ s.take k) : lt x y := by
  rw [← List.take_append_drop k s] at hs hy
  rcases List.mem_append.mp hy with h | h
  · exact absurd h hny
  · exact (List.pairwise_append.mp hs).2.2 x hx y h

/-- All but `keep` of a sorted list are all but `keep` of a part of it in another
order, if and only if there are no more than these, or the part is the whole and
the order agrees across its cut. -/
theorem take_iff (keep : Nat) (hlt : ∀ a b, lt a b → ¬ lt b a) (hs : s.Pairwise lt) (hm : m.Nodup) (hsub : m ⊆ s) :
    (∀ n, n ∈ s.take (s.length - keep) ↔ n ∈ m.take (m.length - keep)) ↔
      s.length ≤ keep ∨ (s ⊆ m ∧ ∀ x ∈ m.take (m.length - keep), ∀ y ∈ m,
        y ∉ m.take (m.length - keep) → lt x y) := by
  have hnodup : s.Nodup := hs.imp fun {a b} h hab => by
    subst hab
    exact hlt a a h h
  have hle : m.length ≤ s.length := (List.subperm_of_subset hm hsub).length_le
  have hcut (l : List α) : (l.take (l.length - keep)).length = l.length - keep := by
    rw [List.length_take]
    omega
  constructor
  · intro h
    have hperm : (s.take (s.length - keep)).Perm (m.take (m.length - keep)) :=
      (List.perm_ext_iff_of_nodup (hnodup.sublist (List.take_sublist _ _))
        (hm.sublist (List.take_sublist _ _))).mpr h
    have hlen := hperm.length_eq
    rw [hcut, hcut] at hlen
    rcases Nat.lt_or_ge keep s.length with hmany | hfew
    · have hall := perm_of_subset hm hsub (by omega)
      refine .inr ⟨hall.symm.subset, fun x hx y hy hny => ?_⟩
      exact lt_of_cut hs ((h x).mpr hx) (hsub hy) fun hy' => hny ((h y).mp hy')
    · exact .inl hfew
  · rintro (hfew | ⟨hback, hord⟩) n
    · rw [Nat.sub_eq_zero_of_le hfew, Nat.sub_eq_zero_of_le (hle.trans hfew)]
      rfl
    · have hlen : m.length = s.length :=
        Nat.le_antisymm hle (List.subperm_of_subset hnodup hback).length_le
      -- Both parts have the same size, and each is closed downwards.
      have hone : m.take (m.length - keep) ⊆ s.take (s.length - keep) := by
        intro z hz
        by_contra hnz
        have hout : ∃ x ∈ s.take (s.length - keep), x ∉ m.take (m.length - keep) := by
          by_contra hnone
          have hin : s.take (s.length - keep) ⊆ m.take (m.length - keep) := fun x hx => by
            by_contra hx'
            exact hnone ⟨x, hx, hx'⟩
          have hperm := perm_of_subset (hnodup.sublist (List.take_sublist _ _)) hin
            (by rw [hcut, hcut, hlen])
          exact hnz (hperm.symm.subset hz)
        obtain ⟨x, hx, hnx⟩ := hout
        have hzx := hord z hz x (hback (List.mem_of_mem_take hx)) hnx
        exact hlt x z (lt_of_cut hs hx (hsub (List.mem_of_mem_take hz)) hnz) hzx
      have hperm := perm_of_subset (hm.sublist (List.take_sublist _ _)) hone (by rw [hcut, hcut, hlen])
      exact ⟨fun h => hperm.symm.subset h, fun h => hone h⟩

/-! ## The names -/

/-- What a clock on the wall shows. -/
structure Civil where
  year : Nat
  month : Nat
  day : Nat
  hour : Nat
  minute : Nat
  second : Nat
  range : year < 10000 ∧ month ≤ 12 ∧ day ≤ 31 ∧ hour < 24 ∧ minute < 60 ∧ second < 60

/-- The date and the time, in numbers of two digits. -/
def Civil.date (c : Civil) : List Nat := [c.year / 100, c.year % 100, c.month, c.day]

def Civil.time (c : Civil) : List Nat := [c.hour, c.minute, c.second]

def twoDigits (n : Nat) : List Char := [Nat.digitChar (n / 10), Nat.digitChar (n % 10)]

/-- `Format("20060102-150405")` -/
def Civil.format (c : Civil) : String :=
  String.ofList (c.date.flatMap twoDigits ++ '-' :: c.time.flatMap twoDigits)

/-- A time zone: what the clock of the server shows at an instant. -/
abbrev Zone := Int → Civil

def stamp (zone : Zone) (now : Int) : String := (zone now).format

inductive Engine
  | postgres | mysql
deriving DecidableEq, Repr

def Engine.name : Engine → String
  | .postgres => "postgres"
  | .mysql => "mysql"

inductive Kind
  | db (engine : Engine)
  | files
deriving DecidableEq, Repr

def Kind.ext : Kind → String
  | .db engine => dumpExt engine.name
  | .files => tarGzSuffix

/-- A backup that `backup.run` made: its prefix is an accepted one. -/
structure Made where
  kind : Kind
  prefixName : String
  time : Int
  accepted : isPrefixName prefixName = true

def Made.name (zone : Zone) (m : Made) : Name := m.prefixName ++ "-" ++ stamp zone m.time ++ m.kind.ext

variable {zone : Zone} {a b : Made}

theorem stamp_length (zone : Zone) (now : Int) : (stamp zone now).toList.length = 15 := by
  simp [stamp, Civil.format, Civil.date, Civil.time, twoDigits]

theorem civil_small (c : Civil) : ∀ n ∈ c.date ++ c.time, n < 100 := by
  have := c.range
  simp only [Civil.date, Civil.time, List.cons_append, List.nil_append, List.mem_cons, List.not_mem_nil,
    or_false]
  rintro n (rfl | rfl | rfl | rfl | rfl | rfl | rfl) <;> omega

theorem digitChar_ne_dot : ∀ r < 10, Nat.digitChar r ≠ '.' := by decide

theorem twoDigits_no_dot {n : Nat} (h : n < 100) : '.' ∉ twoDigits n := by
  have h1 := digitChar_ne_dot (n / 10) (by omega)
  have h2 := digitChar_ne_dot (n % 10) (by omega)
  simp [twoDigits, h1.symm, h2.symm]

theorem stamp_no_dot (zone : Zone) (now : Int) : '.' ∉ (stamp zone now).toList := by
  have hsmall := civil_small (zone now)
  unfold stamp Civil.format
  rw [String.toList_ofList]
  intro h
  rcases List.mem_append.mp h with h | h
  · obtain ⟨n, hn, h⟩ := List.mem_flatMap.mp h
    exact twoDigits_no_dot (hsmall n (List.mem_append_left _ hn)) h
  · rcases List.mem_cons.mp h with h | h
    · cases h
    · obtain ⟨n, hn, h⟩ := List.mem_flatMap.mp h
      exact twoDigits_no_dot (hsmall n (List.mem_append_right _ hn)) h

theorem prefix_no_dot {p : String} (h : isPrefixName p = true) : '.' ∉ p.toList := by
  unfold isPrefixName at h
  split at h
  · rename_i hp
    rw [hp]
    simp
  · rename_i c cs hp
    rw [hp]
    simp only [Bool.and_eq_true, List.all_eq_true] at h
    obtain ⟨⟨hc, -⟩, hcs⟩ := h
    intro hmem
    rcases List.mem_cons.mp hmem with rfl | hmem
    · exact absurd hc (by decide)
    · exact absurd (hcs '.' hmem) (by decide)

theorem ext_dot (k : Kind) : ∃ cs, k.ext.toList = '.' :: cs := by
  cases k with
  | files => exact ⟨_, rfl⟩
  | db engine => cases engine <;> exact ⟨_, rfl⟩

/-- The part of a name before its extension. -/
theorem name_stem (zone : Zone) (m : Made) : (m.name zone).toList.takeWhile (· ≠ '.') =
    m.prefixName.toList ++ ['-'] ++ (stamp zone m.time).toList := by
  obtain ⟨cs, hext⟩ := ext_dot m.kind
  have hlist : (m.name zone).toList = (m.prefixName.toList ++ ['-'] ++ (stamp zone m.time).toList) ++ '.' :: cs := by
    simp [Made.name, hext]
  rw [hlist, List.takeWhile_append_of_pos]
  · simp
  · intro c hc
    simp only [List.mem_append, List.mem_singleton] at hc
    rw [decide_eq_true_iff]
    rintro rfl
    rcases hc with (hc | hc) | hc
    · exact prefix_no_dot m.accepted hc
    · cases hc
    · exact stamp_no_dot zone m.time hc

/-- A name tells its prefix. -/
theorem prefix_of_name (h : a.name zone = b.name zone) : a.prefixName = b.prefixName := by
  have hstem := name_stem zone a
  rw [h, name_stem] at hstem
  have hlen : (stamp zone b.time).toList.length = (stamp zone a.time).toList.length := by
    rw [stamp_length, stamp_length]
  obtain ⟨hpre, -⟩ := List.append_inj' hstem hlen
  exact (String.toList_inj.mp (List.append_cancel_right hpre)).symm

theorem hasPrefix_name (zone : Zone) (m : Made) : hasPrefix (m.name zone) (m.prefixName ++ "-") = true := by
  simp [hasPrefix, Made.name, List.isPrefixOf_iff_prefix, List.append_assoc]

/-! ## The order of the names -/

/-- The earlier reading of a clock. -/
def Civil.Before (c c' : Civil) : Prop :=
  List.Lex (· < ·) c.date c'.date ∨ c.date = c'.date ∧ List.Lex (· < ·) c.time c'.time

theorem lex_append {u v w z : List Char} (hlen : u.length = v.length) (h : List.Lex (· < ·) u v) :
    List.Lex (· < ·) (u ++ w) (v ++ z) := by
  induction h with
  | nil => cases hlen
  | rel hab => exact .rel hab
  | cons _ ih => exact .cons (ih (Nat.succ.inj hlen))

theorem lex_append_left {u w z : List Char} (h : List.Lex (· < ·) w z) :
    List.Lex (· < ·) (u ++ w) (u ++ z) := by
  induction u with
  | nil => exact h
  | cons c u ih => exact .cons ih

theorem digitChar_lt : ∀ m < 10, ∀ n < 10, m < n → Nat.digitChar m < Nat.digitChar n := by decide

theorem twoDigits_lt {m n : Nat} (h : m < n) (hn : n < 100) : List.Lex (· < ·) (twoDigits m) (twoDigits n) := by
  unfold twoDigits
  rcases Nat.lt_or_eq_of_le (Nat.div_le_div_right (c := 10) (Nat.le_of_lt h)) with hlt | heq
  · exact .rel (digitChar_lt _ (by omega) _ (by omega) hlt)
  · rw [heq]
    exact .cons (.rel (digitChar_lt _ (by omega) _ (by omega) (by omega)))

theorem flatMap_lt {xs ys : List Nat} (hlen : xs.length = ys.length) (hys : ∀ y ∈ ys, y < 100)
    (h : List.Lex (· < ·) xs ys) : List.Lex (· < ·) (xs.flatMap twoDigits) (ys.flatMap twoDigits) := by
  induction h with
  | nil => cases hlen
  | rel hab =>
    rw [List.flatMap_cons, List.flatMap_cons]
    exact lex_append rfl (twoDigits_lt hab (hys _ List.mem_cons_self))
  | cons _ ih =>
    rw [List.flatMap_cons, List.flatMap_cons]
    exact lex_append_left (ih (Nat.succ.inj hlen) fun y hy => hys y (List.mem_cons_of_mem _ hy))

/-- Stamps are in the order of the readings of the clock. -/
theorem format_lt {c c' : Civil} (h : c.Before c') : c.format < c'.format := by
  have hsmall := civil_small c'
  show List.Lex (· < ·) c.format.toList c'.format.toList
  unfold Civil.format
  rw [String.toList_ofList, String.toList_ofList]
  rcases h with h | ⟨hdate, htime⟩
  · exact lex_append rfl (flatMap_lt rfl (fun y hy => hsmall y (List.mem_append_left _ hy)) h)
  · rw [hdate]
    exact lex_append_left (.cons (flatMap_lt rfl (fun y hy => hsmall y (List.mem_append_right _ hy)) htime))

/-- The names of a prefix are in the order of their stamps. -/
theorem name_lt (hpre : a.prefixName = b.prefixName) (h : (zone a.time).Before (zone b.time)) :
    a.name zone < b.name zone := by
  have hlist (m : Made) : (m.name zone).toList =
      (m.prefixName ++ "-").toList ++ ((stamp zone m.time).toList ++ m.kind.ext.toList) := by
    simp [Made.name]
  show List.Lex (· < ·) (a.name zone).toList (b.name zone).toList
  rw [hlist, hlist, hpre]
  refine lex_append_left (lex_append ?_ (format_lt h))
  rw [stamp_length, stamp_length]

/-! ## A directory of backups -/

/-- The backups of a prefix that are in a directory, by their last making, the
oldest first. -/
def made (zone : Zone) (hist : List Made) (d : Disk) (l : Loc) (pre : String) : List Name :=
  (((hist.filter fun m => m.prefixName = pre).map (Made.name zone)).dedup).filter fun n =>
    (d.get (l ++ [n])).any Node.isFile

/-- The backups of the prefix of a request that are not among the newest `keep`. -/
def outdated (zone : Zone) (hist : List Made) (d : Disk) (l : Loc) (i : PruneArgs) : List Name :=
  (made zone hist d l i.prefixName).take ((made zone hist d l i.prefixName).length - i.keep.toNat)

/-- When no removal fails, the prune removes the outdated backups of its prefix,
and none of another prefix. -/
def Exact (zone : Zone) (hist : List Made) (pol : Policy) (d : Disk) (l : Loc) (i : PruneArgs) : Prop :=
  ∀ e, Faultless e →
    (∀ q, ((d.get q).isSome ∧ (pruned pol i e d).get q = none) ↔ ∃ n ∈ outdated zone hist d l i, q = l ++ [n]) ∧
    ∀ m ∈ hist, m.prefixName ≠ i.prefixName → (pruned pol i e d).get (l ++ [m.name zone]) = d.get (l ++ [m.name zone])

variable {hist : List Made} {pol : Policy} {d : Disk} {l : Loc} {i : PruneArgs} {n : Name} {pre : String}

theorem mem_made : n ∈ made zone hist d l pre ↔
    (∃ m ∈ hist, m.prefixName = pre ∧ m.name zone = n) ∧ ∃ f, d.get (l ++ [n]) = some (.file f) := by
  unfold made
  rw [List.mem_filter, any_isFile_iff, List.mem_dedup, List.mem_map]
  simp only [List.mem_filter, decide_eq_true_eq, and_assoc]

theorem made_subset (zone : Zone) (hist : List Made) (d : Disk) (l : Loc) (pre : String) :
    made zone hist d l pre ⊆ backupsOf d l pre := by
  intro n hn
  obtain ⟨⟨m, -, rfl, rfl⟩, hf⟩ := mem_made.mp hn
  exact mem_backupsOf.mpr ⟨hasPrefix_name zone m, hf⟩

theorem backupsOf_sorted (d : Disk) (l : Loc) (pre : String) : (backupsOf d l pre).Pairwise (· < ·) := by
  have : IsTrans Name fun a b => ¬ b < a := ⟨fun _ _ _ => String.le_trans⟩
  have : Std.Total fun a b : Name => ¬ b < a := ⟨fun a b => String.le_total a b⟩
  have hsorted : (backupsOf d l pre).Pairwise fun a b => ¬ b < a :=
    (List.pairwise_insertionSort _ _).filter _
  refine (hsorted.and (nodup_backupsOf d l pre)).imp fun {a b} h => ?_
  by_contra hlt
  exact h.2 (String.le_antisymm h.1 hlt)

theorem made_nodup (zone : Zone) (hist : List Made) (d : Disk) (l : Loc) (pre : String) :
    (made zone hist d l pre).Nodup := (List.nodup_dedup _).filter _

/-- What a prune removes are its victims. -/
theorem removed_iff {e : Env} (hi : Accepted i) (hl : leads pol d i.dir = some l) (he : Faultless e) (q : Loc) :
    ((d.get q).isSome ∧ (pruned pol i e d).get q = none) ↔ ∃ n ∈ victims d l i, q = l ++ [n] := by
  obtain ⟨gone, -, hall, hend⟩ := pruned_run (e := e) hi hl
  rw [hend, hall he]
  constructor
  · rintro ⟨hq, hnone⟩
    split at hnone
    · obtain ⟨n, hn, rfl⟩ := List.mem_map.mp ‹_›
      exact ⟨n, hn, rfl⟩
    · rw [hnone] at hq
      cases hq
  · rintro ⟨n, hn, rfl⟩
    obtain ⟨f, hf⟩ := (mem_backupsOf.mp (List.mem_of_mem_take hn)).2
    exact ⟨by rw [hf]; rfl, if_pos (List.mem_map_of_mem hn)⟩

theorem exact_iff_victims (hi : Accepted i) (hl : leads pol d i.dir = some l) :
    Exact zone hist pol d l i ↔ ∀ n, n ∈ victims d l i ↔ n ∈ outdated zone hist d l i := by
  constructor
  · intro h n
    have he : Faultless (calm 0 []) := fun _ => rfl
    have hq := (removed_iff hi hl he (l ++ [n])).symm.trans ((h _ he).1 (l ++ [n]))
    simpa using hq
  · intro h e he
    refine ⟨fun q => ?_, fun m hm hne => ?_⟩
    · rw [removed_iff hi hl he]
      simp only [h]
    · obtain ⟨gone, -, hall, hend⟩ := pruned_run (e := e) hi hl
      rw [hend, hall he, if_neg]
      intro hmem
      obtain ⟨n, hn, hname⟩ := List.mem_map.mp hmem
      obtain rfl := List.singleton_inj.mp (List.append_cancel_left hname)
      obtain ⟨⟨m', -, hpre, hsame⟩, -⟩ := mem_made.mp (List.mem_of_mem_take ((h _).mp hn))
      exact hne ((prefix_of_name hsame).symm.trans hpre)

/-- The victims are the outdated ones, in terms of the names. -/
theorem victims_iff (zone : Zone) (hist : List Made) (d : Disk) (l : Loc) (hi : Accepted i) :
    (∀ n, n ∈ victims d l i ↔ n ∈ outdated zone hist d l i) ↔
      (backupsOf d l i.prefixName).length ≤ i.keep ∨
        (∀ n ∈ backupsOf d l i.prefixName, n ∈ made zone hist d l i.prefixName) ∧
          ∀ x ∈ outdated zone hist d l i, ∀ y ∈ made zone hist d l i.prefixName,
            y ∉ outdated zone hist d l i → x < y := by
  have hkeep : (backupsOf d l i.prefixName).length ≤ i.keep.toNat ↔
      (backupsOf d l i.prefixName).length ≤ i.keep := by
    have := hi.2
    omega
  rw [← hkeep]
  exact take_iff i.keep.toNat (fun _ _ => String.lt_asymm) (backupsOf_sorted d l i.prefixName)
    (made_nodup zone hist d l i.prefixName) (made_subset zone hist d l i.prefixName)

/-- While the clock of the server runs forward, and every file with the prefix before
a hyphen is a backup of the prefix, a prune is exact. -/
theorem exact_of_clock (hi : Accepted i) (hl : leads pol d i.dir = some l)
    (hclock : (hist.filter fun m => m.prefixName = i.prefixName).Pairwise
      fun a b => (zone a.time).Before (zone b.time))
    (hown : ∀ n ∈ backupsOf d l i.prefixName, n ∈ made zone hist d l i.prefixName) :
    Exact zone hist pol d l i := by
  have hnames : (made zone hist d l i.prefixName).Pairwise (· < ·) := by
    refine List.Pairwise.filter _ (List.Pairwise.sublist (List.dedup_sublist _) ?_)
    refine List.pairwise_map.mpr (hclock.imp_of_mem fun {a b} ha hb h => name_lt ?_ h)
    rw [of_decide_eq_true (List.mem_filter.mp ha).2, of_decide_eq_true (List.mem_filter.mp hb).2]
  rw [exact_iff_victims hi hl, victims_iff zone hist d l hi]
  exact .inr ⟨hown, fun x hx y hy hny => lt_of_cut hnames hx hy hny⟩

/-- A prune is exact if and only if the directory has no more files with its prefix
before a hyphen than it keeps, or all of them are backups of the prefix, and the name
of each outdated one is before those of the others. -/
theorem prune_exact (zone : Zone) (hist : List Made) (pol : Policy) (d : Disk) (l : Loc) (i : PruneArgs)
    (hi : Accepted i) (hl : leads pol d i.dir = some l) : Exact zone hist pol d l i ↔
      (backupsOf d l i.prefixName).length ≤ i.keep ∨
        (∀ n ∈ backupsOf d l i.prefixName, n ∈ made zone hist d l i.prefixName) ∧
          ∀ x ∈ outdated zone hist d l i, ∀ y ∈ made zone hist d l i.prefixName,
            y ∉ outdated zone hist d l i → x < y := by
  rw [exact_iff_victims hi hl, victims_iff zone hist d l hi]

/-- A clock in the first minute of a year. -/
def newYear : Zone := fun t => ⟨2026, 1, 1, 0, 0, t.toNat % 60, by omega⟩

def nightly (kind : Kind) (pre : String) (time : Int) (h : isPrefixName pre = true) : Made := ⟨kind, pre, time, h⟩

def backups : Loc := ["backups"]

def backupsPolicy : Policy := normalize ⟨[], [], 0, "/backups"⟩

/-- A backup directory with these files. -/
def backupsDisk (names : List Name) : Disk :=
  names.foldl (fun d n => d.put (backups ++ [n]) backupFile) (Disk.bare.put backups folder)

theorem prune_p7 : Exact newYear [nightly .files "p7" 0 (by decide), nightly .files "p7" 1 (by decide)]
    backupsPolicy (backupsDisk ["p7-20260101-000000.tar.gz", "p7-20260101-000001.tar.gz"]) backups
    ⟨"", "p7", 1⟩ :=
  (prune_exact newYear _ backupsPolicy _ backups ⟨"", "p7", 1⟩ (by decide +kernel) (by decide +kernel)).mpr
    (.inr ⟨by decide +kernel, by decide +kernel⟩)

/-- The only backup of a site goes, because that of another prefix is taken for a
later one. -/
theorem prune_takes_last : ¬ ∀ zone hist pol d l i, Accepted i → leads pol d i.dir = some l →
    Exact zone hist pol d l i := by
  intro h
  have hexact := h newYear [nightly .files "site" 0 (by decide), nightly (.db .mysql) "site-db" 1 (by decide)]
    backupsPolicy (backupsDisk ["site-20260101-000000.tar.gz", "site-db-20260101-000001.sql.gz"]) backups
    ⟨"", "site", 1⟩ (by decide +kernel) (by decide +kernel)
  obtain ⟨n, hn, -⟩ := ((hexact (calm 0 []) fun _ => rfl).1 ["backups", "site-20260101-000000.tar.gz"]).mp
    ⟨by decide +kernel, by decide +kernel⟩
  have hnone : outdated newYear [nightly .files "site" 0 (by decide), nightly (.db .mysql) "site-db" 1 (by decide)]
      (backupsDisk ["site-20260101-000000.tar.gz", "site-db-20260101-000001.sql.gz"]) backups
      ⟨"", "site", 1⟩ = [] := by decide +kernel
  rw [hnone] at hn
  cases hn

end icsd_panel.stamps

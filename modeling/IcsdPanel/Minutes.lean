-- What the hub keeps of each minute: the samples are summed up in memory, and a
-- flush writes the row of the minute or merges into the row that is there.
import IcsdPanel.Live
import IcsdPanel.Means
import IcsdPanel.Runs

open dicts means

namespace icsd_panel.minutes

open alerts live

/-! ## Roundings -/

theorem floor_bounds (q : ℚ) : (q.floor : ℚ) ≤ q ∧ q < q.floor + 1 :=
  ⟨Int.floor_le q, Int.lt_floor_add_one q⟩

theorem roundEven_near (q : ℚ) : |(roundEven q : ℚ) - q| ≤ 1 / 2 := by
  obtain ⟨hle, hlt⟩ := floor_bounds q
  unfold roundEven
  simp only
  rw [abs_le]
  split
  · constructor <;> linarith
  · split
    · push_cast
      constructor <;> linarith
    · split
      · constructor <;> linarith
      · push_cast
        constructor <;> linarith

/-- The result is the floor or one more, and the floor only up to the middle. -/
theorem roundEven_cases (q : ℚ) :
    (roundEven q = q.floor ∧ q - q.floor ≤ 1 / 2) ∨ (roundEven q = q.floor + 1 ∧ 1 / 2 ≤ q - q.floor) := by
  unfold roundEven
  simp only
  split
  · exact .inl ⟨rfl, by linarith⟩
  · split
    · exact .inr ⟨rfl, by linarith⟩
    · split
      · exact .inl ⟨rfl, by linarith⟩
      · exact .inr ⟨rfl, by linarith⟩

theorem roundEven_mono {p q : ℚ} (hpq : p ≤ q) : roundEven p ≤ roundEven q := by
  obtain ⟨hp, hp'⟩ := floor_bounds p
  obtain ⟨hq, hq'⟩ := floor_bounds q
  have hfloor : p.floor ≤ q.floor := Int.floor_le_floor hpq
  rcases lt_or_eq_of_le hfloor with hlt | heq
  · rcases roundEven_cases p with ⟨h, -⟩ | ⟨h, -⟩ <;>
    rcases roundEven_cases q with ⟨h', -⟩ | ⟨h', -⟩ <;> omega
  · rcases roundEven_cases p with ⟨h, hhalf⟩ | ⟨h, hhalf⟩
    · rcases roundEven_cases q with ⟨h', -⟩ | ⟨h', -⟩ <;> omega
    · rcases roundEven_cases q with ⟨h', hhalf'⟩ | ⟨h', -⟩
      · -- both lie in the middle between the same two integers
        have : p = q := by
          rw [heq] at hhalf
          linarith
        rw [this]
      · omega

theorem round2_near : Nearest (1 / 200) round2 where
  near q := by
    have h := roundEven_near (q * 100)
    have heq : round2 q - q = ((roundEven (q * 100) : ℚ) - q * 100) / 100 := by
      unfold round2
      ring
    rw [heq, abs_div, abs_of_pos (by norm_num : (0 : ℚ) < 100), div_le_iff₀ (by norm_num)]
    linarith

theorem round2_mono : Monotone round2 := by
  intro p q hpq
  unfold round2
  have h : roundEven (p * 100) ≤ roundEven (q * 100) := roundEven_mono (by linarith)
  have : (roundEven (p * 100) : ℚ) ≤ roundEven (q * 100) := by exact_mod_cast h
  linarith

theorem sqlRound2_near : Nearest (1 / 200) sqlRound2 where
  near q := by
    unfold sqlRound2
    rw [abs_le]
    split
    · obtain ⟨hle, hlt⟩ := floor_bounds (q * 100 + 1 / 2)
      constructor <;> linarith
    · have hle : q * 100 - 1 / 2 ≤ (q * 100 - 1 / 2).ceil := Rat.le_ceil
      have hlt : (((q * 100 - 1 / 2).ceil - 1 : Int) : ℚ) < q * 100 - 1 / 2 :=
        Rat.lt_ceil_iff.mp (Int.sub_one_lt_of_le (Int.le_refl _))
      push_cast at hlt
      constructor <;> linarith

/-! ## Calls and what they add -/

/-- The live objects of the servers and the table `samples_1m`. -/
structure Store where
  lives : Sid → Live
  table : Minutes

/-- A sample of a server, or a flush of what is summed up for it: at the end of
a connection, or when the hub stops. -/
inductive Call
  | ingest (sid : Sid) (raw : Raw) (now : ℚ)
  | flush (sid : Sid)

def Store.call (h : Store) : Call → Store
  | .ingest sid raw now =>
    let (_, lv, t, _) := ingest sid raw now (h.lives sid) h.table
    ⟨Function.update h.lives sid lv, t⟩
  | .flush sid =>
    let (lv, t) := flush sid (h.lives sid) h.table
    ⟨Function.update h.lives sid lv, t⟩

/-- A sample as the hub takes it: its server, the second that it is assigned to
and its point. -/
structure Reading where
  sid : Sid
  ts : Int
  point : Point

/-- The second that `ingest` assigns to a sample. -/
def assigned (raw : Raw) (now : ℚ) : Int := truncate (sampleTime raw.sample.ts now)

/-- The point of a sample, with the slow parts that it goes without. -/
def pointIn (lv : Live) (raw : Raw) (now : ℚ) : Point :=
  pointOf ⟨truncate (sampleTime raw.sample.ts now * 1000), raw.sample.fast, mergeSlow lv.last raw⟩

/-- The reading that a call adds. -/
def reading (h : Store) : Call → List Reading
  | .ingest sid raw now => [⟨sid, assigned raw now, pointIn (h.lives sid) raw now⟩]
  | .flush _ => []

/-- The row that a flush writes. -/
def hit (sid : Sid) (lv : Live) : List (Sid × Int) := if lv.accN ≠ 0 then [(sid, lv.accMinute)] else []

/-- The row that a sample of another minute sends away. -/
def turned (sid : Sid) (lv : Live) (ts : Int) : List (Sid × Int) :=
  if lv.accN ≠ 0 ∧ minuteOf ts ≠ lv.accMinute then [(sid, lv.accMinute)] else []

/-- The rows that a call writes. -/
def written (h : Store) : Call → List (Sid × Int)
  | .ingest sid raw now => turned sid (h.lives sid) (assigned raw now)
  | .flush sid => hit sid (h.lives sid)

/-- A store, with the readings and the writes of rows that led to it. -/
structure Told where
  store : Store
  readings : List Reading
  writes : List (Sid × Int)

def Told.call (s : Told) (c : Call) : Told :=
  ⟨s.store.call c, s.readings ++ reading s.store c, s.writes ++ written s.store c⟩

def fresh : Told := ⟨⟨fun _ => .new, .empty⟩, [], []⟩

/-- The points of a server that fall in a minute. -/
def Told.points (s : Told) (sid : Sid) (m : Int) : List Point :=
  (s.readings.filter fun r => r.sid = sid ∧ minuteOf r.ts = m).map Reading.point

/-- How many flushes hit a row. -/
def Told.flushes (s : Told) (sid : Sid) (m : Int) : Nat := s.writes.count (sid, m)

def total (f : Field) (ps : List Point) : ℚ := (ps.map fun p => p f).sum

/-- The highest CPU value of points. -/
def Peak (x : ℚ) (ps : List Point) : Prop := (∃ p ∈ ps, p .cpu = x) ∧ ∀ p ∈ ps, p .cpu ≤ x

/-- The CPU values of samples do not lie below zero. -/
def Call.Sound : Call → Prop
  | .ingest _ raw _ => 0 ≤ raw.sample.fast .cpu
  | .flush _ => True

/-- What a row says of the points of its minute after `k` flushes. -/
structure Sums (row : MinuteRow) (k : Nat) (ps : List Point) : Prop where
  some : ps ≠ []
  hit : 0 < k
  n : row.n = ps.length
  cpuMax : ∃ x, Peak x ps ∧ row.cpuMax = round2 x
  avg : ∀ f, |row.avg f - total f ps / ps.length| ≤ k * (1 / 200)

/-- A minute has a row that sums it up, or no row and no points. -/
def Tells (row : Option MinuteRow) (k : Nat) (ps : List Point) : Prop :=
  match row with
  | none => ps = [] ∧ k = 0
  | some r => Sums r k ps

@[simp] theorem tells_none {k : Nat} {ps : List Point} : Tells none k ps ↔ ps = [] ∧ k = 0 := Iff.rfl

@[simp] theorem tells_some {row : MinuteRow} {k : Nat} {ps : List Point} :
    Tells (some row) k ps ↔ Sums row k ps := Iff.rfl

/-! ## What is summed up -/

/-- The points summed up in memory. -/
structure Part (lv : Live) (ps : List Point) : Prop where
  n : lv.accN = ps.length
  acc : ∀ f, lv.acc f = total f ps
  cpuMax : ps = [] ∧ lv.accCpuMax = 0 ∨ Peak lv.accCpuMax ps

/-- The points of a server, by minute, are those in its rows and, for the last
minute, those in memory. -/
def Books (sid : Sid) (lv : Live) (t : Minutes) (points : Int → List Point) (k : Int → Nat) : Prop :=
  ∃ ps, Part lv ps ∧ ∀ m, ∃ old, points m = old ++ (if lv.accMinute = m then ps else []) ∧
    Tells (t.get (sid, m)) (k m) old

variable {sid : Sid} {lv : Live} {t : Minutes} {points : Int → List Point} {k : Int → Nat}
variable {ps qs : List Point} {p : Point} {x y : ℚ} {m : Int}

theorem total_append (f : Field) : total f (ps ++ qs) = total f ps + total f qs := by
  simp [total]

theorem Peak.append (hx : Peak x ps) (hy : Peak y qs) : Peak (max x y) (ps ++ qs) := by
  obtain ⟨⟨p, hp, hpx⟩, hle⟩ := hx
  obtain ⟨⟨q, hq, hqy⟩, hle'⟩ := hy
  constructor
  · rcases le_total x y with h | h
    · exact ⟨q, List.mem_append_right _ hq, by rw [max_eq_right h, hqy]⟩
    · exact ⟨p, List.mem_append_left _ hp, by rw [max_eq_left h, hpx]⟩
  · intro r hr
    rcases List.mem_append.mp hr with hr | hr
    · exact (hle r hr).trans (le_max_left x y)
    · exact (hle' r hr).trans (le_max_right x y)

theorem peak_single (p : Point) : Peak (p .cpu) [p] := by simp [Peak]

theorem Part.add (h : Part lv ps) (hp : 0 ≤ p .cpu) (minute : Int) :
    Part (addPoint minute p lv) (ps ++ [p]) where
  n := by simp [addPoint, h.n]
  acc f := by simp [addPoint, h.acc f, total]
  cpuMax := by
    right
    rcases h.cpuMax with ⟨rfl, hzero⟩ | hpeak
    · have : max lv.accCpuMax (p .cpu) = p .cpu := by rw [hzero, max_eq_right hp]
      rw [addPoint, this]
      exact peak_single p
    · exact hpeak.append (peak_single p)

/-- The row of the minute in memory. -/
theorem sums_minuteRow (h : Part lv ps) (hne : ps ≠ []) : Sums (minuteRow lv) 1 ps where
  some := hne
  hit := Nat.zero_lt_one
  n := h.n
  cpuMax := by
    rcases h.cpuMax with ⟨hnil, -⟩ | hpeak
    · exact absurd hnil hne
    · exact ⟨_, hpeak, rfl⟩
  avg f := by
    have := round2_near.near (lv.acc f / lv.accN)
    simp only [minuteRow]
    rw [h.acc f, h.n] at this ⊢
    simpa using this

theorem sums_mergeRow {old new : MinuteRow} {k : Nat} (ho : Sums old k ps) (hn : Sums new 1 qs) :
    Sums (mergeRow old new) (k + 1) (ps ++ qs) where
  some := by simp [ho.some]
  hit := Nat.succ_pos k
  n := by simp [mergeRow, ho.n, hn.n]
  cpuMax := by
    obtain ⟨x, hx, hox⟩ := ho.cpuMax
    obtain ⟨y, hy, hny⟩ := hn.cpuMax
    refine ⟨max x y, hx.append hy, ?_⟩
    simp only [mergeRow]
    rw [hox, hny, round2_mono.map_max]
  avg f := by
    have hpos : (0 : ℚ) < ps.length := by exact_mod_cast List.length_pos_iff.mpr ho.some
    have hpos' : (0 : ℚ) < qs.length := by exact_mod_cast List.length_pos_iff.mpr hn.some
    have hle : ((1 : Nat) : ℚ) * (1 / 200) ≤ k * (1 / 200) := by
      have : (1 : ℚ) ≤ k := by exact_mod_cast ho.hit
      push_cast
      linarith
    have := merge_near sqlRound2_near hpos hpos' (ho.avg f) (hn.avg f) hle
    simp only [mergeRow]
    rw [ho.n, hn.n, total_append, List.length_append]
    push_cast
    linarith

/-- A flush puts the points in memory to those of the row. -/
theorem tells_putRow {old : List Point} {k : Nat} (ht : Tells (t.get (sid, m)) k old)
    (h : Part lv ps) (hne : ps ≠ []) :
    Tells ((putRow t (sid, m) (minuteRow lv)).get (sid, m)) (k + 1) (old ++ ps) := by
  unfold putRow
  cases hrow : t.get (sid, m) with
  | none =>
    rw [hrow] at ht
    obtain ⟨rfl, rfl⟩ := tells_none.mp ht
    simpa using sums_minuteRow h hne
  | some r =>
    rw [hrow] at ht
    simpa using sums_mergeRow (tells_some.mp ht) (sums_minuteRow h hne)

theorem get_putRow_ne {key key' : Sid × Int} {r : MinuteRow} (h : key' ≠ key) :
    (putRow t key r).get key' = t.get key' := by
  unfold putRow
  split <;> rw [Dict.get_set_ne h]

theorem flush_empties (sid : Sid) (lv : Live) (t : Minutes) : (flush sid lv t).1.accN = 0 := by
  unfold flush
  split
  · assumption
  · rfl

/-- A flush keeps the books of its server. -/
theorem books_flush (h : Books sid lv t points k) :
    Books sid (flush sid lv t).1 (flush sid lv t).2 points
      (fun m => k m + (hit sid lv).count (sid, m)) := by
  obtain ⟨ps, hpart, hbooks⟩ := h
  unfold flush hit
  by_cases hn : lv.accN = 0
  · refine ⟨ps, by simpa [hn] using hpart, fun m => ?_⟩
    obtain ⟨old, hold, ht⟩ := hbooks m
    exact ⟨old, by simpa [hn] using hold, by simpa [hn] using ht⟩
  · have hne : ps ≠ [] := by
      rintro rfl
      exact hn hpart.n
    refine ⟨[], ?_, fun m => ?_⟩
    · rw [if_neg hn]
      exact ⟨rfl, fun f => rfl, .inl ⟨rfl, rfl⟩⟩
    · obtain ⟨old, hold, ht⟩ := hbooks m
      rw [if_neg hn]
      by_cases hm : lv.accMinute = m
      · subst hm
        exact ⟨old ++ ps, by simpa using hold, by simpa [hn] using tells_putRow ht hpart hne⟩
      · refine ⟨old, by simpa [hm] using hold, ?_⟩
        have hkey : (sid, m) ≠ (sid, lv.accMinute) := by
          intro heq
          exact hm (Prod.mk.inj heq).2.symm
        simp only
        rw [get_putRow_ne hkey]
        simpa [hn, Ne.symm hkey] using ht

/-- A point goes to the minute in memory, or to a new one. -/
theorem books_add {minute : Int} (h : Books sid lv t points k) (hp : 0 ≤ p .cpu)
    (hm : lv.accN = 0 ∨ minute = lv.accMinute) :
    Books sid (addPoint minute p lv) t (fun m => points m ++ if minute = m then [p] else []) k := by
  obtain ⟨ps, hpart, hbooks⟩ := h
  refine ⟨ps ++ [p], hpart.add hp minute, fun m => ?_⟩
  obtain ⟨old, hold, ht⟩ := hbooks m
  refine ⟨old, ?_, ht⟩
  have hminute : (addPoint minute p lv).accMinute = if lv.accN = 0 then minute else lv.accMinute := rfl
  by_cases hn : lv.accN = 0
  · have hnil : ps = [] := by
      rw [hpart.n] at hn
      exact List.eq_nil_of_length_eq_zero hn
    simp [hminute, hn, hold, hnil]
  · rcases hm with hzero | rfl
    · exact absurd hzero hn
    · simp only [hminute, ite_self, hold]
      by_cases hm : lv.accMinute = m <;> simp [hm]

/-! ## Runs -/

theorem Books.congr {lv' : Live} (h : Books sid lv t points k) (hn : lv'.accN = lv.accN)
    (hacc : lv'.acc = lv.acc) (hmax : lv'.accCpuMax = lv.accCpuMax)
    (hminute : lv'.accMinute = lv.accMinute) : Books sid lv' t points k := by
  obtain ⟨ps, hpart, hbooks⟩ := h
  refine ⟨ps, ⟨?_, ?_, ?_⟩, ?_⟩
  · rw [hn, hpart.n]
  · rw [hacc]
    exact hpart.acc
  · rw [hmax]
    exact hpart.cpuMax
  · rw [hminute]
    exact hbooks

/-- The books of all servers. -/
def Kept (s : Told) : Prop :=
  ∀ sid, Books sid (s.store.lives sid) s.store.table (s.points sid) (s.flushes sid)

theorem kept_fresh : Kept fresh := by
  intro sid
  refine ⟨[], ⟨rfl, fun f => rfl, .inl ⟨rfl, rfl⟩⟩, fun m => ⟨[], ?_, ?_⟩⟩
  · simp only [fresh, Told.points, List.filter_nil, List.map_nil, List.nil_append]
    exact (ite_self []).symm
  · simp [fresh, Told.flushes]

/-- `_accumulate` is a flush where the minute changes, and one point more. -/
theorem books_accumulate (ts : Int) (h : Books sid lv t points k) (hp : 0 ≤ p .cpu) :
    Books sid (accumulate sid ts p lv t).1 (accumulate sid ts p lv t).2
      (fun m => points m ++ if minuteOf ts = m then [p] else [])
      (fun m => k m + (turned sid lv ts).count (sid, m)) := by
  unfold accumulate turned
  by_cases hc : lv.accN ≠ 0 ∧ minuteOf ts ≠ lv.accMinute
  · rw [if_pos hc]
    have hf := books_flush h
    unfold hit at hf
    rw [if_pos hc.1] at hf
    simpa [hc] using books_add hf hp (.inl (flush_empties sid lv t))
  · rw [if_neg hc]
    have hm : lv.accN = 0 ∨ minuteOf ts = lv.accMinute := by
      by_cases hn : lv.accN = 0
      · exact .inl hn
      · exact .inr (not_not.mp fun hne => hc ⟨hn, hne⟩)
    simpa [hc] using books_add h hp hm

/-- Points and writes of another server leave the books of a server alone. -/
theorem Books.other {t' : Minutes} {points' : Int → List Point} {k' : Int → Nat}
    (h : Books sid lv t points k) (ht : ∀ m, t'.get (sid, m) = t.get (sid, m)) (hp : points' = points)
    (hk : k' = k) : Books sid lv t' points' k' := by
  obtain ⟨ps, hpart, hbooks⟩ := h
  refine ⟨ps, hpart, fun m => ?_⟩
  rw [ht m, hp, hk]
  exact hbooks m

theorem get_flush_ne {other : Sid} (hne : other ≠ sid) (m : Int) :
    (flush sid lv t).2.get (other, m) = t.get (other, m) := by
  unfold flush
  split
  · rfl
  · exact get_putRow_ne fun heq => hne (Prod.mk.inj heq).1

theorem get_accumulate_ne {other : Sid} {ts : Int} (hne : other ≠ sid) (m : Int) :
    (accumulate sid ts p lv t).2.get (other, m) = t.get (other, m) := by
  unfold accumulate
  split
  · exact get_flush_ne hne m
  · rfl

theorem points_call (s : Told) (c : Call) (m : Int) :
    (s.call c).points sid m = s.points sid m ++
      ((reading s.store c).filter fun r => r.sid = sid ∧ minuteOf r.ts = m).map Reading.point := by
  simp [Told.points, Told.call]

theorem flushes_call (s : Told) (c : Call) (m : Int) :
    (s.call c).flushes sid m = s.flushes sid m + (written s.store c).count (sid, m) := by
  simp [Told.flushes, Told.call]

/-- `ingest` keeps the books of its server. -/
theorem books_ingest {raw : Raw} (now : ℚ) (h : Books sid lv t points k)
    (hcpu : 0 ≤ raw.sample.fast .cpu) :
    Books sid (ingest sid raw now lv t).2.1 (ingest sid raw now lv t).2.2.1
      (fun m => points m ++ if minuteOf (assigned raw now) = m then [pointIn lv raw now] else [])
      (fun m => k m + (turned sid lv (assigned raw now)).count (sid, m)) := by
  have hp : 0 ≤ pointIn lv raw now .cpu := by simpa [pointIn, pointOf] using hcpu
  unfold ingest
  simp only
  generalize hs : some _ = last
  generalize hring : pushRing _ _ = ring
  have hlv : Books sid { lv with last := last, lastTs := now, ring := ring } t points k :=
    h.congr rfl rfl rfl rfl
  have hacc := books_accumulate (assigned raw now) hlv hp
  split
  · exact hacc.congr rfl rfl rfl rfl
  · exact hacc

theorem get_ingest_ne {other : Sid} {raw : Raw} {now : ℚ} (hne : other ≠ sid) (m : Int) :
    (ingest sid raw now lv t).2.2.1.get (other, m) = t.get (other, m) := by
  unfold ingest
  simp only
  split <;> exact get_accumulate_ne hne m

theorem kept_ingest {s : Told} (h : Kept s) (sid : Sid) (raw : Raw) (now : ℚ)
    (hcpu : 0 ≤ raw.sample.fast .cpu) : Kept (s.call (.ingest sid raw now)) := by
  intro q
  by_cases hq : q = sid
  · subst hq
    have hbooks := books_ingest now (h q) hcpu
    have hpoints : (s.call (.ingest q raw now)).points q = fun m => s.points q m ++
        if minuteOf (assigned raw now) = m then [pointIn (s.store.lives q) raw now] else [] := by
      funext m
      rw [points_call]
      by_cases hm : minuteOf (assigned raw now) = m <;> simp [reading, hm]
    have hflushes : (s.call (.ingest q raw now)).flushes q = fun m => s.flushes q m +
        (turned q (s.store.lives q) (assigned raw now)).count (q, m) := by
      funext m
      exact flushes_call s _ m
    have hlives : (s.call (.ingest q raw now)).store.lives q =
        (ingest q raw now (s.store.lives q) s.store.table).2.1 := by
      simp [Told.call, Store.call]
    rw [hpoints, hflushes, hlives]
    exact hbooks
  · have hlives : (s.call (.ingest sid raw now)).store.lives q = s.store.lives q := by
      simp [Told.call, Store.call, hq]
    rw [hlives]
    refine (h q).other (fun m => get_ingest_ne hq m) ?_ ?_
    · funext m
      rw [points_call]
      simp [reading, Ne.symm hq]
    · funext m
      rw [flushes_call]
      simp only [written, turned]
      split <;> simp [Ne.symm hq]

theorem kept_flush {s : Told} (h : Kept s) (sid : Sid) : Kept (s.call (.flush sid)) := by
  intro q
  by_cases hq : q = sid
  · subst hq
    have hpoints : (s.call (.flush q)).points q = s.points q := by
      funext m
      rw [points_call]
      simp [reading]
    have hflushes : (s.call (.flush q)).flushes q = fun m => s.flushes q m +
        (hit q (s.store.lives q)).count (q, m) := by
      funext m
      exact flushes_call s _ m
    have hlives : (s.call (.flush q)).store.lives q =
        (flush q (s.store.lives q) s.store.table).1 := by
      simp [Told.call, Store.call]
    rw [hpoints, hflushes, hlives]
    exact books_flush (h q)
  · have hlives : (s.call (.flush sid)).store.lives q = s.store.lives q := by
      simp [Told.call, Store.call, hq]
    rw [hlives]
    refine (h q).other (fun m => get_flush_ne hq m) ?_ ?_
    · funext m
      rw [points_call]
      simp [reading]
    · funext m
      rw [flushes_call]
      simp only [written, hit]
      split <;> simp [Ne.symm hq]

theorem kept_call {s : Told} {c : Call} (h : Kept s) (hc : c.Sound) : Kept (s.call c) := by
  cases c with
  | ingest sid raw now => exact kept_ingest h sid raw now hc
  | flush sid => exact kept_flush h sid

/-- After a last flush of a server its rows say exactly what was ingested. -/
theorem rows_tell (cs : List Call) (hcs : ∀ c ∈ cs, c.Sound) (sid : Sid) (m : Int) :
    let s := (runs.final Told.call fresh cs).call (.flush sid)
    Tells (s.store.table.get (sid, m)) (s.flushes sid m) (s.points sid m) := by
  intro s
  have hkept : Kept (runs.final Told.call fresh cs) :=
    runs.final_invariant (fun _ _ h hc => kept_call h hc) kept_fresh hcs
  obtain ⟨ps, hpart, hbooks⟩ := kept_flush hkept sid sid
  have hnone : ps = [] := by
    refine List.eq_nil_of_length_eq_zero ?_
    rw [← hpart.n]
    simpa [Told.call, Store.call] using flush_empties sid _ _
  obtain ⟨old, hold, ht⟩ := hbooks m
  have : s.points sid m = old := by simpa [hnone] using hold
  rw [this]
  exact ht

/-- A sample that has a time in seconds and a CPU value. -/
def cpuSample (ts : Int) (cpu : ℚ) : Raw :=
  ⟨⟨ts * 1000, fun f => if f = .cpu then cpu else 0, ⟨none, none, none⟩⟩, false, false⟩

/-- Three busy samples, the end of the connection, and three idle ones. -/
def reconnected : List Call :=
  [0, 5, 10].map (fun i : Nat => .ingest "s1" (cpuSample (960 + i) 100) (960 + i)) ++ [.flush "s1"] ++
    [15, 20, 25].map (fun i : Nat => .ingest "s1" (cpuSample (960 + i) 0) (960 + i))

theorem reconnected_row :
    (∀ c ∈ reconnected, c.Sound) ∧
    let s := (runs.final Told.call fresh reconnected).call (.flush "s1")
    Tells (s.store.table.get ("s1", 960)) (s.flushes "s1" 960) (s.points "s1" 960) ∧
    (s.store.table.get ("s1", 960)).map (fun r => (r.avg .cpu, r.cpuMax, r.n)) = some (50, 100, 6) := by
  have hsound : ∀ c ∈ reconnected, c.Sound := by
    intro c hc
    simp only [reconnected, List.map_cons, List.map_nil, List.cons_append, List.nil_append,
      List.mem_cons, List.not_mem_nil, or_false] at hc
    rcases hc with rfl | rfl | rfl | rfl | rfl | rfl | rfl <;> simp [Call.Sound, cpuSample]
  exact ⟨hsound, rows_tell reconnected hsound "s1" 960, by decide +kernel⟩

end icsd_panel.minutes

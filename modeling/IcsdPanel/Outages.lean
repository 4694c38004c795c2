-- When the link returns the agent sends what waited, and the hub dates each
-- sample: by the agent's clock, unless this looks wrong.
import IcsdPanel.Buffers
import IcsdPanel.Live

namespace icsd_panel.outages

open alerts live buffers

/-- The times, in milliseconds, of the samples that are taken every `interval`
seconds in an outage. -/
def taken (first : Int) (interval n : Nat) : List Int :=
  (List.range n).map fun (k : Nat) => first + 1000 * interval * k

/-- A sample and the time at which the hub gets it. -/
abbrev Arrival := Raw × ℚ

def Arrival.ts (x : Arrival) : Int := x.1.sample.ts

/-- What the hub has of a server: its live state and its minutes. -/
abbrev Kept := Live × Minutes

def receive (sid : Sid) (x : Arrival) (s : Kept) : Kept :=
  let (_, lv, t, _) := ingest sid x.1 x.2 s.1 s.2
  (lv, t)

def receiveAll (sid : Sid) (xs : List Arrival) (s : Kept) : Kept := xs.foldl (fun s x => receive sid x s) s

/-- The newest point of the ring, and the minute that it is summed up in, are
those of the second `t`. -/
def StoredUnder (t : Int) (lv : Live) : Prop :=
  (∃ p, lv.ring.getLast? = some (t, p)) ∧ lv.accMinute = minuteOf t ∧ 0 < lv.accN

variable {lv : Live}

theorem accumulate_minute (sid : Sid) (ts : Int) (p : Point) (lv : Live) (t : Minutes) :
    (accumulate sid ts p lv t).1.accMinute = minuteOf ts ∧
    0 < (accumulate sid ts p lv t).1.accN ∧ (accumulate sid ts p lv t).1.ring = lv.ring := by
  unfold accumulate
  split
  · rename_i h
    unfold flush
    rw [if_neg h.1]
    exact ⟨rfl, Nat.zero_lt_one, rfl⟩
  · rename_i h
    refine ⟨?_, Nat.succ_pos _, rfl⟩
    unfold addPoint
    simp only
    split
    · rfl
    · rename_i hn
      by_contra hne
      exact h ⟨hn, Ne.symm hne⟩

theorem pushRing_last (ring : List (Int × Point)) (x : Int × Point) :
    (pushRing ring x).getLast? = some x := by
  have : ¬ (ring ++ [x]).length ≤ ring.length + 1 - ringSize := by
    rw [List.length_append, List.length_singleton, ringSize]
    omega
  rw [pushRing, List.getLast?_drop, if_neg this, List.getLast?_concat]

/-- `ingest` stores a sample under the second of `sampleTime`. -/
theorem receive_stores (sid : Sid) (x : Arrival) (s : Kept) :
    StoredUnder (truncate (sampleTime x.ts x.2)) (receive sid x s).1 := by
  unfold receive ingest Arrival.ts
  simp only
  generalize hr : accumulate sid _ _ _ s.2 = r
  obtain ⟨hminute, hn, hring⟩ := accumulate_minute sid (truncate (sampleTime x.1.sample.ts x.2)) _ _ s.2
  rw [hr] at hminute hn hring
  simp only at hring
  have hlast := pushRing_last s.1.ring (truncate (sampleTime x.1.sample.ts x.2), pointOf
    ⟨truncate (sampleTime x.1.sample.ts x.2 * 1000), x.1.sample.fast, mergeSlow s.1.last x.1⟩)
  rw [← hring] at hlast
  split
  · exact ⟨⟨_, hlast⟩, hminute, hn⟩
  · exact ⟨⟨_, hlast⟩, hminute, hn⟩

/-! ## Own second or time of reception -/

theorem truncate_div (ts : Int) (h : 0 ≤ ts) : truncate ((ts : ℚ) / 1000) = ts / 1000 := by
  have hq : (0 : ℚ) ≤ (ts : ℚ) / 1000 := div_nonneg (by exact_mod_cast h) (by norm_num)
  rw [truncate, if_pos hq]
  exact_mod_cast Rat.floor_intCast_div_natCast ts 1000

theorem truncate_of_nonneg {q : ℚ} (h : 0 ≤ q) : truncate q = ⌊q⌋ := by
  rw [truncate, if_pos h]
  rfl

/-- With the clocks in agreement a sample keeps its own second exactly when it
is no more than 900 seconds old. -/
theorem sampleTime_own {ts : Int} {now : ℚ} (hts : 0 < ts) (hclock : (ts : ℚ) / 1000 ≤ now) :
    truncate (sampleTime ts now) = ts / 1000 ↔ now - (ts : ℚ) / 1000 ≤ 900 := by
  have h0 : (0 : ℚ) < (ts : ℚ) / 1000 := div_pos (by exact_mod_cast hts) (by norm_num)
  unfold sampleTime
  simp only [hts.ne', if_false]
  by_cases hold : (ts : ℚ) / 1000 < now - 900
  · rw [if_pos (.inr hold)]
    refine iff_of_false (fun heq => ?_) (by linarith)
    rw [← truncate_div ts hts.le, truncate_of_nonneg (by linarith), truncate_of_nonneg h0.le] at heq
    have h1 := Int.lt_floor_add_one now
    have h2 := Int.floor_le ((ts : ℚ) / 1000)
    have h3 := Int.floor_le now
    have h4 := Int.lt_floor_add_one ((ts : ℚ) / 1000)
    rw [heq] at h1
    linarith
  · have hnew : ¬ (now + 60 < (ts : ℚ) / 1000 ∨ (ts : ℚ) / 1000 < now - 900) := by
      rintro (h | h)
      · linarith
      · exact hold h
    rw [if_neg hnew]
    exact iff_of_true (truncate_div ts hts.le) (by linarith)

theorem StoredUnder.unique {t₁ t₂ : Int} (h₁ : StoredUnder t₁ lv) (h₂ : StoredUnder t₂ lv) : t₁ = t₂ := by
  obtain ⟨⟨p, hp⟩, -⟩ := h₁
  obtain ⟨⟨p', hp'⟩, -⟩ := h₂
  rw [hp] at hp'
  exact (Prod.mk.inj (Option.some.inj hp')).1

/-- Each sample that arrives is stored under its own second. -/
def OwnSeconds (sid : Sid) (xs : List Arrival) (s : Kept) : Prop :=
  ∀ pre x post, xs = pre ++ x :: post → StoredUnder (x.ts / 1000) (receiveAll sid (pre ++ [x]) s).1

/-- Every sample that is still in the buffer when the link returns is stored
under its own second exactly when it reaches the hub no more than 900 seconds
after it was taken. -/
theorem own_second_iff (sid : Sid) (first : Int) (interval n : Nat) (xs : List Arrival) (s : Kept)
    (hfirst : 0 < first) (hbuffer : xs.map Arrival.ts = newest maxBuffered (taken first interval n))
    (hclock : ∀ x ∈ xs, (x.ts : ℚ) / 1000 ≤ x.2) :
    OwnSeconds sid xs s ↔ ∀ x ∈ xs, x.2 - (x.ts : ℚ) / 1000 ≤ 900 := by
  have hpos (x : Arrival) (hx : x ∈ xs) : 0 < x.ts := by
    have hmem : x.ts ∈ newest maxBuffered (taken first interval n) := by
      rw [← hbuffer]
      exact List.mem_map_of_mem hx
    obtain ⟨k, -, hk⟩ := List.mem_map.mp (newest_sublist.subset hmem)
    have : (0 : Int) ≤ 1000 * (interval : Int) * (k : Int) :=
      mul_nonneg (mul_nonneg (by norm_num) (Int.natCast_nonneg _)) (Int.natCast_nonneg _)
    omega
  have hone (pre : List Arrival) (x : Arrival) (hx : x ∈ xs) :
      StoredUnder (x.ts / 1000) (receiveAll sid (pre ++ [x]) s).1 ↔ x.2 - (x.ts : ℚ) / 1000 ≤ 900 := by
    have hrecv : receiveAll sid (pre ++ [x]) s = receive sid x (receiveAll sid pre s) := by
      simp [receiveAll]
    have hs := receive_stores sid x (receiveAll sid pre s)
    rw [hrecv, ← sampleTime_own (hpos x hx) (hclock x hx)]
    constructor
    · exact fun h => hs.unique h
    · intro h
      rw [← h]
      exact hs
  constructor
  · intro h x hx
    obtain ⟨pre, post, rfl⟩ := List.append_of_mem hx
    exact (hone pre x hx).mp (h pre x post rfl)
  · rintro h pre x post rfl
    have hx : x ∈ pre ++ x :: post := by simp
    exact (hone pre x hx).mpr (h x hx)

theorem mem_newest_taken {first ts : Int} {interval n : Nat}
    (h : ts ∈ newest maxBuffered (taken first interval n)) :
    ∃ k : Nat, ts = first + 1000 * interval * k ∧ n ≤ k + 120 ∧ k < n := by
  rw [newest, taken, ← List.map_drop, List.mem_map] at h
  obtain ⟨k, hk, rfl⟩ := h
  obtain ⟨j, hj⟩ := List.mem_iff_getElem?.mp hk
  rw [List.getElem?_drop, List.getElem?_eq_some_iff] at hj
  obtain ⟨hlt, hval⟩ := hj
  simp only [List.length_map, List.length_range, List.getElem_range, maxBuffered] at hlt hval
  exact ⟨k, rfl, by omega, by omega⟩

/-- An interval of at most seven seconds fits: what a link brings within a
minute of the next sample is young enough. -/
theorem short_intervals_fit {first : Int} {interval n : Nat} {xs : List Arrival}
    (hbuffer : xs.map Arrival.ts = newest maxBuffered (taken first interval n))
    (hshort : interval ≤ 7)
    (hsoon : ∀ x ∈ xs, x.2 ≤ ((first + 1000 * interval * n : Int) : ℚ) / 1000 + 60) :
    ∀ x ∈ xs, x.2 - (x.ts : ℚ) / 1000 ≤ 900 := by
  intro x hx
  have hmem : x.ts ∈ newest maxBuffered (taken first interval n) := by
    rw [← hbuffer]
    exact List.mem_map_of_mem hx
  obtain ⟨k, hk, hn, hkn⟩ := mem_newest_taken hmem
  have hage : (first + 1000 * interval * n : Int) - x.ts ≤ 1000 * 840 := by
    rw [hk]
    have h1 : (n : Int) - k ≤ 120 := by omega
    have h2 : (interval : Int) ≤ 7 := by exact_mod_cast hshort
    have h3 : (interval : Int) * ((n : Int) - k) ≤ 7 * 120 :=
      mul_le_mul h2 h1 (by omega) (by norm_num)
    linarith
  have hq : ((first + 1000 * interval * n : Int) : ℚ) - (x.ts : ℚ) ≤ 1000 * 840 := by exact_mod_cast hage
  have := hsoon x hx
  linarith

/-! ## Every ten seconds, for twenty minutes -/

def sampleAt (ts : Int) : Raw := ⟨⟨ts, fun _ => 0, ⟨none, none, none⟩⟩, false, false⟩

/-- What waits after an outage of 120 intervals, as it comes in `later` seconds
after the last sample. -/
def arrivals (interval : Nat) (later : ℚ) : List Arrival :=
  (newest maxBuffered (taken 1000000 interval 120)).map fun ts =>
    (sampleAt ts, 1000 + 119 * interval + later)

theorem five_seconds_keep : OwnSeconds "s1" (arrivals 5 1) (.new, .empty) :=
  (own_second_iff "s1" 1000000 5 120 (arrivals 5 1) (.new, .empty) (by decide)
    (by decide +kernel) (by decide +kernel)).mpr (by decide +kernel)

/-- The oldest sample of the buffer when they come every ten seconds. -/
def oldestArrival : Arrival := (sampleAt 1000000, 1000 + 119 * (10 : Nat) + 1)

/-- Ten seconds is an interval that the hub can be configured with, but the
oldest of 120 samples is then dated by its reception. -/
theorem ten_seconds_move :
    (arrivals 10 1).map Arrival.ts = newest maxBuffered (taken 1000000 10 120) ∧
    (∀ x ∈ arrivals 10 1, (x.ts : ℚ) / 1000 ≤ x.2) ∧
    ¬ OwnSeconds "s1" (arrivals 10 1) (.new, .empty) := by
  refine ⟨by decide +kernel, by decide +kernel, fun h => ?_⟩
  have hts : newest maxBuffered (taken 1000000 10 120) =
      1000000 :: (newest maxBuffered (taken 1000000 10 120)).tail := by decide +kernel
  have hhead := congrArg (List.map fun ts => (sampleAt ts, (1000 + 119 * (10 : Nat) + 1 : ℚ))) hts
  rw [List.map_cons] at hhead
  obtain ⟨⟨p, hp⟩, -⟩ := h [] oldestArrival _ hhead
  have hring : ((receiveAll "s1" ([] ++ [oldestArrival]) (.new, .empty)).1.ring.getLast?).map
      Prod.fst = some 2191 := by decide +kernel
  rw [hp] at hring
  have hsame : oldestArrival.ts / 1000 = 2191 := Option.some.inj hring
  exact absurd hsame (by decide)

end icsd_panel.outages

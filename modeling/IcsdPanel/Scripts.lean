-- A store that is brought up to date by a list of scripts. Several processes may do so
-- at once, each may be of another version, and each may be cut off at any time.
import IcsdPanel.Runs
import Mathlib.Data.List.Induction

namespace scripts

variable {S : Type}

/-- A script either changes the store as a whole, or fails and leaves it. -/
abbrev Script (S : Type) := S → Option S

/-- The store: how many scripts it says it has seen, and what they made. -/
structure Store (S : Type) where
  version : Nat
  data : S

/-- A process that brings the store up to date: its next script, and how many it knows. -/
structure Proc where
  next : Nat
  limit : Nat
deriving DecidableEq

/-- The store, the processes at work, the scripts that were committed, and how many
scripts each process knew that came to its end. -/
structure World (S : Type) where
  store : Store S
  procs : List Proc
  log : List Nat
  ready : List Nat

/-- A process reads the version, goes one script further, or is cut off. -/
inductive Move
  | start (limit : Nat)
  | advance (k : Nat)
  | stop (k : Nat)

/-- The next script of a process, or its end. A script that fails ends the process. -/
def advance (ss : List (Script S)) (w : World S) (k : Nat) (p : Proc) : World S :=
  if p.next < p.limit then
    match (ss[p.next]?).bind fun script => script w.store.data with
    | some d => { w with
        store := ⟨p.next + 1, d⟩
        procs := w.procs.set k { p with next := p.next + 1 }
        log := w.log ++ [p.next] }
    | none => { w with procs := w.procs.eraseIdx k }
  else { w with procs := w.procs.eraseIdx k, ready := w.ready ++ [p.limit] }

def step (ss : List (Script S)) (w : World S) : Move → World S
  | .start limit => { w with procs := w.procs ++ [⟨w.store.version, limit⟩] }
  | .advance k =>
    match w.procs[k]? with
    | none => w
    | some p => advance ss w k p
  | .stop k => { w with procs := w.procs.eraseIdx k }

def begin (empty : S) : World S := ⟨⟨0, empty⟩, [], [], []⟩

/-- What the first scripts make of a store, one after the other. -/
def upTo (ss : List (Script S)) (empty : S) : Nat → Option S
  | 0 => some empty
  | n + 1 => (upTo ss empty n).bind fun d => (ss[n]?).bind fun script => script d

/-- A script fails where it was run already. -/
def Once (ss : List (Script S)) (empty : S) : Prop :=
  ∀ v i script d, i < v → upTo ss empty v = some d → ss[i]? = some script → script d = none

variable {ss : List (Script S)} {empty : S} {w : World S} {p : Proc} {k : Nat}

structure Good (ss : List (Script S)) (empty : S) (w : World S) : Prop where
  data : upTo ss empty w.store.version = some w.store.data
  behind : ∀ p ∈ w.procs, p.next ≤ w.store.version
  log : w.log = List.range w.store.version
  ready : ∀ n ∈ w.ready, n ≤ w.store.version

theorem good_begin : Good ss empty (begin empty) where
  data := rfl
  behind p hp := by simp [begin] at hp
  log := rfl
  ready n hn := by simp [begin] at hn

theorem Good.erase (hg : Good ss empty w) (k : Nat) : Good ss empty { w with procs := w.procs.eraseIdx k } where
  data := hg.data
  behind p hp := hg.behind p (List.mem_of_mem_eraseIdx hp)
  log := hg.log
  ready := hg.ready

/-- A script that runs well is the one after the last. -/
theorem next_eq (hg : Good ss empty w) (honce : Once ss empty) (hp : p ∈ w.procs) {d : S}
    (hrun : ((ss[p.next]?).bind fun script => script w.store.data) = some d) : p.next = w.store.version := by
  obtain ⟨script, hscript, hd⟩ := Option.bind_eq_some_iff.mp hrun
  refine Nat.le_antisymm (hg.behind p hp) ?_
  by_contra hlt
  have hfail := honce _ _ script _ (Nat.lt_of_not_le hlt) hg.data hscript
  rw [hfail] at hd
  cases hd

theorem good_advance (hg : Good ss empty w) (honce : Once ss empty) (hp : w.procs[k]? = some p) :
    Good ss empty (advance ss w k p) := by
  have hmem : p ∈ w.procs := List.mem_of_getElem? hp
  unfold advance
  split
  next hknown =>
    split
    next d hrun =>
      have hnext := next_eq hg honce hmem hrun
      constructor
      case data =>
        simp only [hnext] at hrun ⊢
        rw [upTo, hg.data, Option.bind_some]
        exact hrun
      case behind =>
        intro q hq
        rcases List.mem_or_eq_of_mem_set hq with hq | rfl
        · have := hg.behind q hq
          simp only
          omega
        · exact Nat.le_refl _
      case log =>
        simp only [hnext, hg.log]
        rw [List.range_succ]
      case ready =>
        intro n hn
        have := hg.ready n hn
        simp only
        omega
    next => exact hg.erase k
  next hdone =>
    refine ⟨hg.data, (hg.erase k).behind, hg.log, fun n hn => ?_⟩
    rcases List.mem_append.mp hn with hn | hn
    · exact hg.ready n hn
    · rw [List.mem_singleton.mp hn]
      exact Nat.le_trans (Nat.le_of_not_lt hdone) (hg.behind p hmem)

theorem good_step (hg : Good ss empty w) (honce : Once ss empty) (m : Move) : Good ss empty (step ss w m) := by
  cases m with
  | start limit =>
    refine ⟨hg.data, fun p hp => ?_, hg.log, hg.ready⟩
    rcases List.mem_append.mp hp with hp | hp
    · exact hg.behind p hp
    · rw [List.mem_singleton.mp hp]
      exact Nat.le_refl _
  | advance k =>
    simp only [step]
    split
    next => exact hg
    next p hp => exact good_advance hg honce hp
  | stop k => exact hg.erase k

/-- In every run the store is what its first scripts make, each was committed once and in
order, and a process that came to its end finds all that it knows. -/
theorem good_run (honce : Once ss empty) (ms : List Move) : Good ss empty (runs.final (step ss) (begin empty) ms) :=
  runs.final_invariant (P := fun _ => True) (fun _ m hg _ => good_step hg honce m) good_begin fun _ _ => trivial

/-! ## A process that is left alone -/

/-- All scripts run well on what is before them. -/
def Runnable (ss : List (Script S)) (empty : S) : Prop := ∀ v ≤ ss.length, (upTo ss empty v).isSome

/-- The turns of one process until its end. -/
theorem advances (hg : Good ss empty w) (honce : Once ss empty) (hrun : Runnable ss empty) (n : Nat)
    (hp : w.procs[k]? = some p) (hnext : p.next = w.store.version) (hlimit : p.limit ≤ ss.length)
    (hn : p.limit - p.next = n) :
    p.limit ∈ (runs.final (step ss) w (List.replicate (n + 1) (.advance k))).ready ∧
      (runs.final (step ss) w (List.replicate (n + 1) (.advance k))).store.version = max p.limit w.store.version := by
  induction n generalizing w p with
  | zero =>
    have hdone : ¬ p.next < p.limit := by omega
    simp only [List.replicate, runs.final, step, hp, advance, if_neg hdone]
    exact ⟨List.mem_append_right _ (List.mem_singleton_self _), by omega⟩
  | succ n ih =>
    have hmore : p.next < p.limit := by omega
    obtain ⟨d, hd⟩ : ∃ d, ((ss[p.next]?).bind fun script => script w.store.data) = some d := by
      have hsome := hrun (w.store.version + 1) (by omega)
      rw [upTo, hg.data, Option.bind_some, ← hnext] at hsome
      exact Option.isSome_iff_exists.mp hsome
    have hk : k < w.procs.length := (List.getElem?_eq_some_iff.mp hp).1
    have hstep : step ss w (.advance k) = { w with
        store := ⟨p.next + 1, d⟩
        procs := w.procs.set k { p with next := p.next + 1 }
        log := w.log ++ [p.next] } := by
      simp only [step, hp, advance, if_pos hmore, hd]
    have hg' := good_step hg honce (.advance k)
    rw [hstep] at hg'
    rw [List.replicate_succ, runs.final, hstep]
    have hlater := ih hg' (p := { p with next := p.next + 1 }) (by simp [hk]) rfl hlimit (by simp only; omega)
    refine ⟨hlater.1, hlater.2.trans ?_⟩
    simp only
    omega

/-- Whatever happened before, a process that starts and is left alone comes to its end,
and the store has then all the scripts that it knows. -/
theorem completes (hg : Good ss empty w) (honce : Once ss empty) (hrun : Runnable ss empty) {limit : Nat}
    (hlimit : limit ≤ ss.length) :
    let w' := runs.final (step ss) w (.start limit :: List.replicate (limit - w.store.version + 1) (.advance w.procs.length))
    limit ∈ w'.ready ∧ w'.store.version = max limit w.store.version := by
  have hg' := good_step hg honce (.start limit)
  exact advances hg' honce hrun _ (p := ⟨w.store.version, limit⟩) (by simp [step]) rfl hlimit rfl

end scripts

-- What an agent says of its host: the text of it in `servers.host_json`, and who
-- reads it back. How the panel then writes an answer with the host in it, where a lone
-- surrogate has no bytes, is not part of this.
import IcsdPanel.Loads

open objects pyjson

namespace icsd_panel.hosts

variable {fl : Floats}

/-! ## The text of a host -/

/-- A host object, as `json.loads` gives it: its keys are distinct, and no integer
has more digits than `int` takes. -/
structure Host (fl : Floats) where
  fields : List (Text × Value fl.F)
  distinct : (fields.map Prod.fst).Nodup
  digits : ∀ f ∈ fields, ∀ n, f.2 = .int n → ((intText n).filter digit).length ≤ maxDigits

/-- `isinstance(v, (str, int, float))` -/
def scalar : Value fl.F → Bool
  | .bool _ | .int _ | .float _ | .str _ => true
  | .none | .list _ | .dict _ => false

def Host.kept (h : Host fl) : List (Text × Value fl.F) := h.fields.filter fun f => scalar f.2

def maxHost : Nat := 4000

/-- `json.dumps(host)[:4000]` -/
def Host.stored (h : Host fl) : List Char := (dumps fl (.dict h.kept)).take maxHost

/-- A number is finite. -/
def Finite : Value fl.F → Prop
  | .float x => x.isFinite = true
  | _ => True

/-! ## Readers -/

structure Row where
  id : Nat
  hostJson : Option (List Char)

/-- `json.loads(host_json or "{}")`. `none` is an exception. -/
def hostOf (fl : Floats) (text : Option (List Char)) : Option (Value fl.F) :=
  match text with
  | some (c :: s) => loads fl (c :: s)
  | _ => loads fl ['\x7b', '\x7d']

/-- What `server_row` gives of the host. -/
def serverRow (fl : Floats) (row : Row) : Option (Nat × Value fl.F) :=
  (hostOf fl row.hostJson).map fun host => (row.id, host)

def overview (fl : Floats) (rows : List Row) : Option (List (Nat × Value fl.F)) := rows.mapM (serverRow fl)

/-- The host that the socket of an agent starts with. -/
def handshake (fl : Floats) (rows : List Row) (sid : Nat) : Option (Value fl.F) :=
  hostOf fl ((rows.find? fun r => r.id = sid).bind Row.hostJson)

/-- `enroll` and `hello`: the row of the server gets the text. -/
def report (rows : List Row) (sid : Nat) (h : Host fl) : List Row :=
  rows.map fun r => if r.id = sid then { r with hostJson := some h.stored } else r

/-! ## What is stored -/

theorem plain_of_scalar {v : Value fl.F} (hs : scalar v = true) (hf : Finite v)
    (hd : ∀ n, v = .int n → ((intText n).filter digit).length ≤ maxDigits) : Plain fl v := by
  cases v with
  | none => cases hs
  | list xs => cases hs
  | dict fs => cases hs
  | bool b => trivial
  | str t => trivial
  | int n => exact hd n rfl
  | float x => exact hf

variable {h : Host fl}

theorem kept_plain (hfinite : ∀ f ∈ h.kept, Finite f.2) : ∀ f ∈ h.kept, Plain fl f.2 := by
  intro f hf
  obtain ⟨hmem, hscalar⟩ := List.mem_filter.mp hf
  exact plain_of_scalar hscalar (hfinite f hf) (h.digits f hmem)

theorem kept_distinct (h : Host fl) : (h.kept.map Prod.fst).Nodup :=
  h.distinct.sublist (List.filter_sublist.map Prod.fst)

/-- A text that is short enough is read back. -/
theorem loads_stored (hfinite : ∀ f ∈ h.kept, Finite f.2) (hlen : (dumps fl (.dict h.kept)).length ≤ maxHost) :
    loads fl h.stored = some (.dict h.kept) := by
  unfold Host.stored
  rw [List.take_of_length_le hlen]
  exact loads_dumps (kept_distinct h) (kept_plain hfinite)

/-- One that is too long is an error. -/
theorem loads_stored_long (hfinite : ∀ f ∈ h.kept, Finite f.2)
    (hlen : maxHost < (dumps fl (.dict h.kept)).length) : loads fl h.stored = none := by
  refine loads_cut (kept_plain hfinite) (List.take_append_drop maxHost _) ?_
  intro hnil
  have hdrop := List.drop_eq_nil_iff.mp hnil
  omega

theorem hostOf_stored {host : Value fl.F} (hload : loads fl h.stored = some host) :
    hostOf fl (some h.stored) = some host := by
  cases hs : h.stored with
  | nil =>
    rw [hs] at hload
    cases hload
  | cons c s => rwa [hs] at hload

theorem mapM_isSome {α β : Type} {g : α → Option β} {xs : List α} (hall : ∀ x ∈ xs, (g x).isSome) :
    (xs.mapM g).isSome := by
  induction xs with
  | nil => rfl
  | cons x xs ih =>
    obtain ⟨y, hy⟩ := Option.isSome_iff_exists.mp (hall x List.mem_cons_self)
    obtain ⟨ys, hys⟩ := Option.isSome_iff_exists.mp (ih fun z hz => hall z (List.mem_cons_of_mem x hz))
    rw [List.mapM_cons, hy]
    show (xs.mapM g >>= fun ys => pure (y :: ys)).isSome
    rw [hys]
    rfl

/-- The rows of a table can be read after a report, when those of the other
servers could. -/
theorem serverRow_report {rows : List Row} {sid : Nat} {host : Value fl.F} (hload : loads fl h.stored = some host)
    (hothers : ∀ r ∈ rows, r.id ≠ sid → (serverRow fl r).isSome) :
    ∀ r ∈ report rows sid h, (serverRow fl r).isSome := by
  intro r hr
  obtain ⟨r', hr', rfl⟩ := List.mem_map.mp hr
  by_cases hid : r'.id = sid
  · rw [if_pos hid]
    unfold serverRow
    rw [hostOf_stored hload]
    rfl
  · rw [if_neg hid]
    exact hothers r' hr' hid

theorem handshake_report {rows : List Row} {sid : Nat} {host : Value fl.F} (hload : loads fl h.stored = some host) :
    (handshake fl (report rows sid h) sid).isSome := by
  unfold handshake
  cases hfind : (report rows sid h).find? fun r => r.id = sid with
  | none => rfl
  | some r =>
    have hid : r.id = sid := by simpa using List.find?_some hfind
    obtain ⟨r', hr', heq⟩ := List.mem_map.mp (List.mem_of_find?_eq_some hfind)
    by_cases hid' : r'.id = sid
    · rw [if_pos hid'] at heq
      rw [Option.bind_some, ← heq]
      show (hostOf fl (some h.stored)).isSome
      rw [hostOf_stored hload]
      rfl
    · rw [if_neg hid'] at heq
      exact absurd (heq ▸ hid) hid'

/-- What is stored is the host that was sent, with finite numbers, and no reader of
the table fails for it, just when its text is not cut and no number that is kept
is infinite or no number. -/
theorem host_stored (h : Host fl) :
    (loads fl h.stored = some (.dict h.kept) ∧ (∀ f ∈ h.kept, Finite f.2) ∧
      ∀ rows sid, (∀ r ∈ rows, r.id ≠ sid → (serverRow fl r).isSome) →
        (∀ r ∈ report rows sid h, (serverRow fl r).isSome) ∧ (overview fl (report rows sid h)).isSome ∧
          (handshake fl (report rows sid h) sid).isSome) ↔
      (dumps fl (.dict h.kept)).length ≤ maxHost ∧ ∀ f ∈ h.kept, Finite f.2 := by
  constructor
  · rintro ⟨hload, hfinite, -⟩
    refine ⟨?_, hfinite⟩
    by_contra hlen
    rw [loads_stored_long hfinite (Nat.not_le.mp hlen)] at hload
    cases hload
  · rintro ⟨hlen, hfinite⟩
    have hload := loads_stored hfinite hlen
    refine ⟨hload, hfinite, fun rows sid hothers => ?_⟩
    have hrows := serverRow_report hload hothers
    exact ⟨hrows, mapM_isSome hrows, handshake_report hload⟩

/-- The one float 1.5. -/
def oneFloat : Floats where
  F := Unit
  repr := fun _ => ⟨['1'], ['.', '5'], []⟩
  ofText := fun s => if s = ['1', '.', '5'] then .fin () else .inf false
  whole := fun _ => rfl
  pointed := fun _ => .inl (by decide)
  ofText_repr := fun _ => rfl

/-- `{"load": 1.5}` -/
def loadedHost : Host oneFloat where
  fields := [(⟨points "load", by decide, by decide⟩, .float (.fin ()))]
  distinct := by decide
  digits := by
    intro f hf n hn
    rw [List.mem_singleton.mp hf] at hn
    cases hn

example : String.ofList loadedHost.stored = "\x7b\"load\": 1.5\x7d" := by decide +kernel

theorem joined_replicate (n : Nat) : joined (List.replicate n 120) = true := by
  induction n with
  | zero => rfl
  | succ n ih =>
    cases n with
    | zero => rfl
    | succ n =>
      rw [List.replicate_succ, List.replicate_succ, joined, ← List.replicate_succ, ih]
      rfl

/-- `{"a": "xxx…"}`, with 4000 letters. -/
def longHost : Host oneFloat where
  fields := [(⟨points "a", by decide, by decide⟩,
    .str ⟨List.replicate maxHost 120, fun n hn => by rw [List.eq_of_mem_replicate hn]; decide, joined_replicate _⟩)]
  distinct := by decide
  digits := by
    intro f hf n hn
    rw [List.mem_singleton.mp hf] at hn
    cases hn

/-- A long text is cut, and the row cannot be read. -/
theorem long_host_lost : ¬ ∀ (fl : Floats) (h : Host fl), loads fl h.stored = some (.dict h.kept) ∧
    (∀ f ∈ h.kept, Finite f.2) ∧ ∀ rows sid, (∀ r ∈ rows, r.id ≠ sid → (serverRow fl r).isSome) →
      (∀ r ∈ report rows sid h, (serverRow fl r).isSome) ∧ (overview fl (report rows sid h)).isSome ∧
        (handshake fl (report rows sid h) sid).isSome := by
  intro hall
  have hfinite : ∀ f ∈ longHost.kept, Finite f.2 := by
    intro f hf
    rw [List.mem_singleton.mp (List.mem_filter.mp hf).1]
    trivial
  have hload := (hall oneFloat longHost).1
  rw [loads_stored_long hfinite] at hload
  · cases hload
  · have hlen := @length_flatMap_escape (List.replicate maxHost 120)
      (fun n hn => by rw [List.eq_of_mem_replicate hn]; decide)
    rw [List.length_replicate] at hlen
    have hkept : longHost.kept = longHost.fields := rfl
    rw [hkept, longHost, dumps_dict, pyjson.inner]
    simp only [dumps, quote, List.length_cons, List.length_append]
    omega

end icsd_panel.hosts

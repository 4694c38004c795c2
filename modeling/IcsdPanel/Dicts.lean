-- Python's `dict`: its keys in the order in which they came, each once.
import Mathlib.Data.List.Nodup
import Mathlib.Tactic.Common

namespace dicts

structure Dict (κ ν : Type) where
  entries : List (κ × ν)
  distinct : (entries.map Prod.fst).Nodup

namespace Dict

variable {κ ν : Type} [DecidableEq κ]

def empty : Dict κ ν := ⟨[], List.nodup_nil⟩

def keys (d : Dict κ ν) : List κ := d.entries.map Prod.fst

/-- `d.get(k)` -/
def get (d : Dict κ ν) (k : κ) : Option ν := (d.entries.find? fun e => e.1 = k).map Prod.snd

/-- `d.pop(k, None)` -/
def erase (d : Dict κ ν) (k : κ) : Dict κ ν where
  entries := d.entries.filter fun e => e.1 ≠ k
  distinct := d.distinct.sublist ((List.filter_sublist).map Prod.fst)

theorem map_fst_update (es : List (κ × ν)) (k : κ) (v : ν) :
    (es.map fun e => if e.1 = k then (k, v) else e).map Prod.fst = es.map Prod.fst := by
  rw [List.map_map]
  refine List.map_congr_left fun e _ => ?_
  by_cases h : e.1 = k <;> simp [h]

/-- `d[k] = v`: an old key keeps its place. -/
def set (d : Dict κ ν) (k : κ) (v : ν) : Dict κ ν :=
  if h : k ∈ d.keys then
    ⟨d.entries.map fun e => if e.1 = k then (k, v) else e, by
      rw [map_fst_update]
      exact d.distinct⟩
  else
    ⟨d.entries ++ [(k, v)], by
      rw [List.map_append, List.nodup_append]
      refine ⟨d.distinct, List.nodup_singleton k, ?_⟩
      rintro a ha b hb rfl
      rw [List.mem_singleton.mp hb] at ha
      exact h ha⟩

variable {d : Dict κ ν} {k q : κ} {v : ν}

theorem mem_entries : (k, v) ∈ d.entries ↔ d.get k = some v := by
  unfold get
  constructor
  · intro h
    have hsome : (d.entries.find? fun e => e.1 = k).isSome := by
      rw [List.find?_isSome]
      exact ⟨(k, v), h, by simp⟩
    obtain ⟨e, he⟩ := Option.isSome_iff_exists.mp hsome
    have hk : e.1 = k := by simpa using List.find?_some he
    have hmem := List.mem_of_find?_eq_some he
    have : e = (k, v) := List.inj_on_of_nodup_map d.distinct hmem h (by simpa using hk)
    rw [he, this]
    rfl
  · intro h
    rw [Option.map_eq_some_iff] at h
    obtain ⟨e, he, rfl⟩ := h
    have hk : e.1 = k := by simpa using List.find?_some he
    have hmem := List.mem_of_find?_eq_some he
    rw [← hk]
    exact hmem

theorem mem_keys : k ∈ d.keys ↔ (d.get k).isSome := by
  unfold keys
  rw [List.mem_map, Option.isSome_iff_exists]
  constructor
  · rintro ⟨⟨k', v⟩, h, rfl⟩
    exact ⟨v, mem_entries.mp h⟩
  · rintro ⟨v, h⟩
    exact ⟨(k, v), mem_entries.mpr h, rfl⟩

@[simp] theorem get_empty : (empty : Dict κ ν).get k = none := rfl

theorem get_ext {d d' : Dict κ ν} (h : ∀ v, (k, v) ∈ d.entries ↔ (q, v) ∈ d'.entries) :
    d.get k = d'.get q := by
  refine Option.ext fun v => ?_
  rw [← mem_entries, ← mem_entries]
  exact h v

theorem get_erase : (d.erase k).get q = if q = k then none else d.get q := by
  split
  · rename_i h
    subst h
    rw [Option.eq_none_iff_forall_ne_some]
    intro v hv
    have := mem_entries.mpr hv
    simp [erase] at this
  · rename_i h
    refine get_ext fun v => ?_
    simp [erase, h]

@[simp] theorem get_erase_self : (d.erase k).get k = none := by simp [get_erase]

theorem get_erase_ne (h : q ≠ k) : (d.erase k).get q = d.get q := by simp [get_erase, h]

theorem get_set : (d.set k v).get q = if q = k then some v else d.get q := by
  by_cases hk : k ∈ d.keys
  · unfold set
    rw [dif_pos hk]
    split
    · rename_i h
      subst h
      refine mem_entries.mp (List.mem_map.mpr ?_)
      obtain ⟨e, he, heq⟩ := List.mem_map.mp hk
      exact ⟨e, he, by rw [if_pos heq]⟩
    · rename_i h
      refine get_ext fun u => ?_
      simp only [List.mem_map]
      constructor
      · rintro ⟨e, he, heq⟩
        split at heq
        · cases heq
          exact absurd rfl h
        · rw [← heq]
          exact he
      · intro hu
        exact ⟨_, hu, by rw [if_neg h]⟩
  · unfold set
    rw [dif_neg hk]
    split
    · rename_i h
      subst h
      exact mem_entries.mp (by simp)
    · rename_i h
      refine get_ext fun u => ?_
      simp [h]

@[simp] theorem get_set_self : (d.set k v).get k = some v := by simp [get_set]

theorem get_set_ne (h : q ≠ k) : (d.set k v).get q = d.get q := by simp [get_set, h]

/-- `DELETE … WHERE`: the entries that `p` keeps. -/
def filter (p : κ → ν → Bool) (d : Dict κ ν) : Dict κ ν where
  entries := d.entries.filter fun e => p e.1 e.2
  distinct := d.distinct.sublist ((List.filter_sublist).map Prod.fst)

theorem get_filter {p : κ → ν → Bool} : (d.filter p).get k = (d.get k).filter (p k) := by
  refine Option.ext fun v => ?_
  rw [← mem_entries, Option.filter_eq_some_iff, ← mem_entries]
  exact List.mem_filter

/-- All values changed, each by its key. -/
def mapVal (f : κ → ν → ν) (d : Dict κ ν) : Dict κ ν where
  entries := d.entries.map fun e => (e.1, f e.1 e.2)
  distinct := by
    rw [List.map_map]
    exact d.distinct

theorem get_mapVal {f : κ → ν → ν} : (d.mapVal f).get k = (d.get k).map (f k) := by
  refine Option.ext fun v => ?_
  rw [← mem_entries, Option.map_eq_some_iff]
  constructor
  · intro h
    obtain ⟨e, he, heq⟩ := List.mem_map.mp h
    cases heq
    exact ⟨e.2, mem_entries.mp he, rfl⟩
  · rintro ⟨u, hu, rfl⟩
    exact List.mem_map.mpr ⟨(k, u), mem_entries.mpr hu, rfl⟩

end Dict

end dicts

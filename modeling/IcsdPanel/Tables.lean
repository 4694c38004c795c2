-- Tables of rows that have an id: a new row gets an id that no row of the table has,
-- and an update changes the row with its id.
import Mathlib.Data.List.MinMax
import Mathlib.Data.List.Nodup

namespace tables

variable {ρ : Type} {id : ρ → Nat} {rows : List ρ} {r : ρ} {n : Nat} {f : ρ → ρ}

/-- The id of a new row: one more than the largest. So an id comes again when the last
row is gone. -/
def newId (id : ρ → Nat) (rows : List ρ) : Nat := (rows.map id).foldr max 0 + 1

/-- The table with a new row, which is made for its id. -/
def insert (id : ρ → Nat) (row : Nat → ρ) (rows : List ρ) : List ρ := rows ++ [row (newId id rows)]

/-- The table with the row of an id changed. -/
def update (id : ρ → Nat) (n : Nat) (f : ρ → ρ) (rows : List ρ) : List ρ :=
  rows.map fun r => if id r = n then f r else r

theorem newId_fresh (hr : r ∈ rows) : id r < newId id rows :=
  Nat.lt_succ_of_le (List.le_max_of_le' 0 (List.mem_map_of_mem hr) le_rfl)

/-- A row with the new id goes with the rows that are there. -/
theorem append_ids (h : (rows.map id).Nodup) (hr : id r = newId id rows) : ((rows ++ [r]).map id).Nodup := by
  rw [List.map_append, List.nodup_append]
  refine ⟨h, List.nodup_singleton _, ?_⟩
  rintro x hx y hy rfl
  obtain ⟨r', hr', rfl⟩ := List.mem_map.mp hx
  exact (newId_fresh hr').ne ((List.mem_singleton.mp hy).trans hr)

theorem insert_ids {row : Nat → ρ} (h : (rows.map id).Nodup) (hrow : ∀ n, id (row n) = n) :
    ((insert id row rows).map id).Nodup := append_ids h (hrow _)

theorem update_ids (hf : ∀ r, id r = n → id (f r) = n) : (update id n f rows).map id = rows.map id := by
  rw [update, List.map_map]
  refine List.map_congr_left fun r _ => ?_
  rw [Function.comp_apply]
  split
  next hr => rw [hf r hr, hr]
  next => rfl

/-- A row that is not the one of the update stays. -/
theorem mem_update_of_ne (hr : r ∈ rows) (hne : id r ≠ n) : r ∈ update id n f rows :=
  List.mem_map.mpr ⟨r, hr, if_neg hne⟩

end tables

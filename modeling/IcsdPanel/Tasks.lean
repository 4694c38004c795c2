-- The runs of the backup plans as tasks: `_running` has at most one for each plan, from
-- its start to the callback after its end.
import IcsdPanel.Dicts

open dicts

namespace icsd_panel.tasks

/-- A task in `_running`, with what it is about. -/
structure BackupTask (α : Type) where
  about : α
  done : Bool
deriving DecidableEq

variable {α β : Type} {running : Dict Nat (BackupTask α)} {plans : List β} {idOf : β → Nat} {id id' : Nat} {p : β}
  {t : BackupTask α}

/-- What `start` asks before anything else, or the status and the text of its refusal. -/
def askedPlan (running : Dict Nat (BackupTask α)) (plans : List β) (idOf : β → Nat) (id : Nat) : Except (Nat × String) β :=
  if (running.get id).isSome then .error (409, "این برنامه همین الان در حال اجراست")
  else match plans.find? fun p => idOf p = id with
    | none => .error (404, "برنامه پیدا نشد")
    | some p => .ok p

/-- The callback of a task that is done. -/
def reap (id : Nat) (running : Dict Nat (BackupTask α)) : Dict Nat (BackupTask α) :=
  match running.get id with
  | some ⟨_, true⟩ => running.erase id
  | _ => running

theorem askedPlan_ok (h : askedPlan running plans idOf id = .ok p) : running.get id = none ∧ p ∈ plans ∧ idOf p = id := by
  unfold askedPlan at h
  split at h
  · cases h
  next hidle =>
    split at h
    · cases h
    next hfind =>
      cases h
      exact ⟨by simpa using hidle, List.mem_of_find?_eq_some hfind, by simpa using List.find?_some hfind⟩

theorem askedPlan_idle (hidle : running.get id = none) (hp : plans.find? (fun p => idOf p = id) = some p) :
    askedPlan running plans idOf id = .ok p := by
  unfold askedPlan
  rw [hidle, hp]
  rfl

theorem reap_get (h : (reap id running).get id' = some t) : running.get id' = some t := by
  unfold reap at h
  split at h
  · rw [Dict.get_erase] at h
    split at h
    · cases h
    · exact h
  · exact h

/-- The callback leaves the tasks that go on. -/
theorem reap_kept {x : α} (h : running.get id' = some ⟨x, false⟩) : (reap id running).get id' = some ⟨x, false⟩ := by
  unfold reap
  split
  next y hdone =>
    rw [Dict.get_erase_ne, h]
    rintro rfl
    rw [h] at hdone
    cases hdone
  next => exact h

end icsd_panel.tasks

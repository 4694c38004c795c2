-- The units that the panel may touch: what `systemctl` gets for a request that
-- is let through, and when the policy stands behind it.
import IcsdPanel.Handlers

namespace icsd_panel.units

open handlers

variable {p : Services} {decode : String → Except String SvcArgs} {args : String} {i : SvcArgs}
  {argv : List String}

/-- A request that `svcAction` lets through. -/
def Accepted (p : Services) (i : SvcArgs) : Prop :=
  i.action ∈ ["start", "stop", "restart", "reload", "enable", "disable"] ∧ unitName i.name = true ∧
    serviceAllowed p i.name = true

instance : Decidable (Accepted p i) := inferInstanceAs (Decidable (_ ∧ _ ∧ _))

/-- The handler runs the command `argv`: how it goes makes a difference. -/
def Runs (p : Services) (decode : String → Except String SvcArgs) (args : String) (argv : List String) : Prop :=
  ∃ exec exec', (∀ a, a ≠ argv → exec a = exec' a) ∧ svcAction p decode exec args ≠ svcAction p decode exec' args

/-- The command has an operand, and names a unit that the policy allows. -/
def Lawful (p : Services) (argv : List String) : Prop :=
  ∃ verb u, argv = ["systemctl", verb, u ++ ".service"] ∧ (u ++ ".service").toList.head? ≠ some '-' ∧
    (∃ a ∈ p.services, pathMatch a u = true) ∧
    ∀ d ∈ p.denySvc, pathMatch d u = false ∧ pathMatch d (u ++ ".service") = false

/-- The name is no option, and the policy says the same of it with and without
its suffix. -/
def Plain (p : Services) (name : String) : Prop :=
  name.toList.head? ≠ some '-' ∧ (∀ d ∈ p.denySvc, pathMatch d (name ++ ".service") = false) ∧
    (".service".toList <:+ name.toList →
      (∃ a ∈ p.services, pathMatch a name = true) ∧ ∀ d ∈ p.denySvc, pathMatch d name = false)

theorem trimSuffix_of_not {s suffix : String} (h : ¬ suffix.toList <:+ s.toList) : trimSuffix s suffix = s := by
  unfold trimSuffix
  rw [if_neg]
  rwa [List.isSuffixOf_iff_suffix]

/-- What the policy says of a name that it lets through. -/
theorem serviceAllowed_ok {unit : String} (h : serviceAllowed p unit = true) :
    (∃ a ∈ p.services, pathMatch a (trimSuffix unit ".service") = true) ∧
      ∀ d ∈ p.denySvc, pathMatch d (trimSuffix unit ".service") = false := by
  unfold serviceAllowed at h
  dsimp only at h
  split at h
  · cases h
  · split at h
    · cases h
    · rename_i hdeny
      refine ⟨List.any_eq_true.mp h, fun d hd => ?_⟩
      by_contra hmatch
      exact hdeny (List.any_eq_true.mpr ⟨d, hd, by simpa using hmatch⟩)

theorem svcAction_refused (hargs : decode args = .ok i) (h : ¬ Accepted p i) (exec exec' : List String → Exec) :
    svcAction p decode exec args = svcAction p decode exec' args := by
  unfold svcAction
  simp only [hargs]
  split
  · rfl
  · rename_i haction
    split
    · rfl
    · rename_i hname
      refine absurd ⟨not_not.mp haction, ?_⟩ h
      simpa using hname

theorem svcAction_accepted (hargs : decode args = .ok i) (h : Accepted p i) (exec : List String → Exec) :
    svcAction p decode exec args =
      match (run "1m30s" (exec ["systemctl", i.action, i.name ++ ".service"])).2 with
      | some err => .returned none (some err)
      | none => .returned (some (some (.obj [
          ("active", .str (policy.trimSpace (run "10s" (exec ["systemctl", "is-active", i.name ++ ".service"])).1)),
          ("name", .str i.name)]))) none := by
  obtain ⟨haction, hname, hallowed⟩ := h
  unfold svcAction
  cases hrun : (run "1m30s" (exec ["systemctl", i.action, i.name ++ ".service"])).2 <;>
    simp only [hargs, haction, hname, hallowed, hrun, not_true_eq_false, if_false, Bool.not_true, Bool.or_self,
      Bool.false_eq_true]

/-- The handler runs no commands but two, both with the name and the suffix. -/
theorem Runs.command (hargs : decode args = .ok i) (h : Runs p decode args argv) :
    Accepted p i ∧ ∃ verb, argv = ["systemctl", verb, i.name ++ ".service"] := by
  obtain ⟨exec, exec', hsame, hdiff⟩ := h
  by_cases hacc : Accepted p i
  · refine ⟨hacc, ?_⟩
    by_contra hno
    have hother : ∀ verb, exec ["systemctl", verb, i.name ++ ".service"] =
        exec' ["systemctl", verb, i.name ++ ".service"] :=
      fun verb => hsame _ fun he => hno ⟨verb, he.symm⟩
    apply hdiff
    rw [svcAction_accepted hargs hacc, svcAction_accepted hargs hacc, hother, hother]
  · exact absurd (svcAction_refused hargs hacc exec exec') hdiff

/-- The command of the action is run. -/
theorem runs_action (hargs : decode args = .ok i) (h : Accepted p i) :
    Runs p decode args ["systemctl", i.action, i.name ++ ".service"] := by
  refine ⟨fun _ => ⟨"", false, none⟩,
    fun a => if a = ["systemctl", i.action, i.name ++ ".service"] then ⟨"", false, some "x"⟩ else ⟨"", false, none⟩,
    fun a ha => (if_neg ha).symm, ?_⟩
  rw [svcAction_accepted hargs h, svcAction_accepted hargs h, if_pos rfl]
  have hwell : (run "1m30s" ⟨"", false, none⟩).2 = none := rfl
  have hfailed : (run "1m30s" ⟨"", false, some "x"⟩).2 = some "x" := by decide
  rw [hwell, hfailed]
  simp

theorem append_service_inj {u v : String} (h : u ++ ".service" = v ++ ".service") : u = v := by
  have hlist := congrArg String.toList h
  rw [String.toList_append, String.toList_append] at hlist
  exact String.toList_inj.mp (List.append_cancel_right hlist)

theorem head_append_service (u : String) (h : u ≠ "") :
    (u ++ ".service").toList.head? = u.toList.head? := by
  rw [String.toList_append]
  cases hl : u.toList with
  | nil => exact absurd (String.toList_eq_nil_iff.mp hl) h
  | cons c cs => rfl

theorem lawful_iff {verb : String} (h : Accepted p i) :
    Lawful p ["systemctl", verb, i.name ++ ".service"] ↔ Plain p i.name := by
  have hne : i.name ≠ "" := by
    rintro hempty
    have := h.2.1
    rw [hempty] at this
    exact absurd this (by decide)
  constructor
  · rintro ⟨verb', u, heq, hhead, hallow, hdeny⟩
    simp only [List.cons.injEq, and_true, true_and] at heq
    obtain rfl := append_service_inj heq.2
    rw [head_append_service _ hne] at hhead
    exact ⟨hhead, fun d hd => (hdeny d hd).2, fun _ => ⟨hallow, fun d hd => (hdeny d hd).1⟩⟩
  · rintro ⟨hhead, hfull, hsuffix⟩
    have hname : (∃ a ∈ p.services, pathMatch a i.name = true) ∧ ∀ d ∈ p.denySvc, pathMatch d i.name = false := by
      by_cases hs : ".service".toList <:+ i.name.toList
      · exact hsuffix hs
      · have hok := serviceAllowed_ok h.2.2
        rwa [trimSuffix_of_not hs] at hok
    refine ⟨verb, i.name, rfl, ?_, hname.1, fun d hd => ⟨hname.2 d hd, hfull d hd⟩⟩
    rw [head_append_service _ hne]
    exact hhead

/-- The commands of an accepted request are lawful exactly when its name is
plain. -/
theorem commands_lawful (hargs : decode args = .ok i) (h : Accepted p i) :
    (∀ argv, Runs p decode args argv → Lawful p argv) ↔ Plain p i.name := by
  constructor
  · intro hall
    exact (lawful_iff h).mp (hall _ (runs_action hargs h))
  · rintro hplain argv hruns
    obtain ⟨-, verb, rfl⟩ := hruns.command hargs
    exact (lawful_iff h).mpr hplain

/-! ## Names that are not plain -/

/-- What `normalize` adds to `deny_services`. -/
def alwaysDenied : List String :=
  ["ssh*", "sshd*", "icsd-agent*", "systemd-*", "dbus*", "getty*", "user@*", "networking*", "debug-shell*", "ufw*",
    "fail2ban*", "auditd*", "apparmor*", "firewalld*", "nftables*", "iptables*", "netfilter*", "polkit*",
    "cloud-init*", "sudo*", "emergency*", "rescue*", "serial-getty*"]

theorem nginx_lawful : Plain ⟨["nginx"], alwaysDenied⟩ "nginx" ∧
    ∀ argv, Runs ⟨["nginx"], alwaysDenied⟩ (fun _ => .ok ⟨"nginx", "reload"⟩) "" argv →
      Lawful ⟨["nginx"], alwaysDenied⟩ argv := by
  have hplain : Plain ⟨["nginx"], alwaysDenied⟩ "nginx" :=
    ⟨by decide, by decide +kernel, fun h => absurd h (by decide)⟩
  exact ⟨hplain, (commands_lawful (i := ⟨"nginx", "reload"⟩) rfl (by decide +kernel)).mpr hplain⟩

/-- A name that starts with a dash is an option of `systemctl`. -/
theorem option_runs : ¬ ∀ p decode args i, decode args = .ok i → Accepted p i →
    ∀ argv, Runs p decode args argv → Lawful p argv := by
  intro h
  have hacc : Accepted ⟨["*"], alwaysDenied⟩ ⟨"-Hroot@10.0.0.9", "stop"⟩ := by decide +kernel
  have hlaw := h ⟨["*"], alwaysDenied⟩ (fun _ => .ok ⟨"-Hroot@10.0.0.9", "stop"⟩) "" _ rfl hacc _
    (runs_action rfl hacc)
  exact ((lawful_iff hacc).mp hlaw).1 (by decide)

end icsd_panel.units

-- The roots of a policy: a request that takes an entry takes all below it, so a
-- root stands as long as nothing on the way to it is taken.
import IcsdPanel.Calm
import IcsdPanel.JobDeeds
import IcsdPanel.Runs
import IcsdPanel.Ways

open effects runs

namespace icsd_panel.standing

open paths disk ways machine policy files archives requests deeds

variable {d d' : Disk} {p l q r s t : Loc} {n : Node} {sh : Shape}

/-! ## What stands -/

/-- The path leads to the place, and something of the shape is there. -/
def Stands (p l : Loc) (sh : Shape) (d : Disk) : Prop := ∃ n, stat d p = .ok (l, n) ∧ n.shape = sh

theorem Stands.grow (h : Stands p l sh d) (hg : Grows d d') : Stands p l sh d' := by
  obtain ⟨n, hstat, hsh⟩ := h
  obtain ⟨hl, hn⟩ := stat_ok hstat
  have hl' : follow d' p = .ok l := walk_grow hg hl
  unfold Disk.look at hn
  split at hn
  · rename_i h0
    exact ⟨n, stat_run hl' (by rw [Disk.look, if_pos h0]; exact hn), hsh⟩
  · rename_i h0
    obtain ⟨n', hn', hs⟩ := hg l n hn
    exact ⟨n', stat_run hl' (by rw [Disk.look, if_neg h0]; exact hn'), hs.trans hsh⟩

/-- A change that leaves the way to a place, and puts nothing else there. -/
theorem Stands.same (h : Stands p l sh d) (hway : ∀ v ∈ way d p, d'.get v = d.get v)
    (hplace : d'.get l = d.get l ∨ d'.get l = none) : Stands p l sh d' := by
  obtain ⟨n, hstat, hsh⟩ := h
  obtain ⟨hl, hn⟩ := stat_ok hstat
  have hl' : follow d' p = .ok l := (walk_same fun v hv => congrArg _ (hway v hv)).trans hl
  refine ⟨n, stat_run hl' ?_, hsh⟩
  unfold Disk.look at hn ⊢
  split at hn
  · rename_i h0
    rw [if_pos h0]
    exact hn
  · rename_i h0
    rw [if_neg h0]
    rcases hplace with hsame | hnone
    · rw [hsame]
      exact hn
    · -- a walk ends at something
      rcases (follow_ok hl').1 with h1 | ⟨m, hm, -⟩
      · exact absurd h1 h0
      · rw [hnone] at hm
        cases hm

theorem Stands.clear (h : Stands p l sh d) (stuck : Option Loc) (hway : ∀ v ∈ way d p, ¬ s <+: v) :
    Stands p l sh (d.removeBelow s stuck) := by
  refine h.same (fun v hv => Disk.get_removeBelow_else stuck (hway v hv)) ?_
  rw [Disk.get_removeBelow]
  split
  · exact .inr rfl
  · exact .inl rfl

theorem Stands.move (h : Stands p l sh d) (hs : s ≠ []) (ht : t ≠ []) (hp : Proper t)
    (hdir : d.IsDirAt t.dropLast) (hst : ¬ s <+: t) (hfree : d.get t = none)
    (hway : ∀ v ∈ way d p, ¬ s <+: v) : Stands p l sh (d.move s t) := by
  have hthere := h
  obtain ⟨n, hstat, -⟩ := hthere
  obtain ⟨hl, hn⟩ := stat_ok hstat
  refine h.same (fun v hv => ?_) ?_
  · exact Disk.get_move_else (hway v hv) (Disk.free_above ht hfree (way_onward hl v hv).there)
  · by_cases h0 : l = []
    · refine .inl (Disk.get_move_else ?_ ?_)
      · rw [h0, List.prefix_nil]
        exact hs
      · rw [h0, List.prefix_nil]
        exact ht
    · have hlsome : (d.get l).isSome := by
        unfold Disk.look at hn
        rw [if_neg h0] at hn
        rw [hn]
        rfl
      rw [Disk.get_move hs ht hp hdir hst, if_neg (Disk.free_above ht hfree hlsome)]
      split
      · exact .inr rfl
      · exact .inl rfl

/-! ## What a request takes -/

/-- What a policy names: its roots, and the backup directory. -/
def roots (pol : Policy) (cwd : Loc) : List Loc := pol.roots ++ pol.readOnly ++ [place cwd pol.backupDir]

/-- An entry that no root needs: neither on the way to one, nor above. -/
def Spared (pol : Policy) (cwd : Loc) (d : Disk) (s : Loc) : Prop :=
  ∀ p ∈ roots pol cwd, ∀ v ∈ way d p, ¬ s <+: v

instance decidableSpared (pol : Policy) (cwd : Loc) (d : Disk) (s : Loc) : Decidable (Spared pol cwd d s) :=
  inferInstanceAs (Decidable (∀ p ∈ roots pol cwd, ∀ v ∈ way d p, ¬ s <+: v))

/-- The requests that take entries, or unpack some. -/
def Taking : Request → Prop
  | .delete _ | .rename _ | .extract _ => True
  | _ => False

/-- The entries that a request takes, each on the disk of its turn, are spared
ones. What `IsRoot` refuses is not taken. -/
def Careful (pol : Policy) (cwd : Loc) (d : Disk) (er : Env × Request) : Prop :=
  match er.2 with
  | .rename i => ∀ s t, admitRename pol d i = .ok (s, t) → Spared pol cwd d s
  | .delete paths => ∀ p d1 s, DeleteTurn pol er.1 d paths p d1 → Removable pol d1 p s →
      Spared pol cwd d1 s
  | _ => True

variable {pol : Policy} {cwd real : Loc} {d1 : Disk} {δ : Deed} {c : Codec} {er : Env × Request}

theorem grow_grows (h : GrowDeed d1 real d δ) : Grows d (δ.apply d) := by
  cases h with
  | dir _ _ _ _ hnone _ => exact grows_put fun m hm => by rw [hnone] at hm; cases hm
  | newFile _ _ hnone _ => exact grows_put fun m hm => by rw [hnone] at hm; cases hm
  | oldFile _ hold => exact grows_put fun m hm => by rw [hold] at hm; cases hm; rfl
  | oldDir _ hold => exact grows_put fun m hm => by rw [hold] at hm; cases hm; rfl

/-- A careful request leaves the roots where they are, at every moment. -/
theorem always_stands (hp : p ∈ roots pol cwd) (hkind : Taking er.2) (h : Careful pol cwd d er)
    (hs : Stands p l sh d) : Always (Stands p l sh) (served c pol d er) ∧ Stands p l sh (next c pol d er) := by
  obtain ⟨e, r⟩ := er
  have hfine : Fine ⟨fun d δ => Stands p l sh d → Stands p l sh (δ.apply d), fun _ => True, d⟩
      (served c pol d (e, r)) := by
    refine handle_fine rfl (fun _ _ => trivial) (fun d' δ hδ hs' => ?_) ?_ ?_
    · cases hδ with
      | rename hδ =>
        obtain ⟨rfl, hadm, hn, hfree, hdir, hout⟩ := hδ
        obtain ⟨_, ht, _⟩ := admitRename_ok hadm
        obtain ⟨parent, base, rfl, hbase, hres, _⟩ := checkEntry_ok ht
        exact hs'.move (Disk.get_ne_nil hn) (by simp)
          (proper_append.mpr ⟨hres.1, by simpa [Proper] using hbase⟩) hdir hout hfree (h _ _ hadm p hp)
      | _ => exact hkind.elim
    · rintro paths rfl raw d' q stuck hturn hrem hs'
      exact hs'.clear stuck (h raw d' q hturn hrem p hp)
    · rintro i rfl
      exact ⟨fun _ _ _ _ hgrow hs' => hs'.grow (grow_grows hgrow),
        fun _ _ _ _ _ _ _ _ hgrow hs' => hs'.grow (grow_grows hgrow), fun _ _ _ _ _ _ _ _ => trivial⟩
  have hfirst : Stands p l sh (served c pol d (e, r)).first := by rw [hfine.first]; exact hs
  obtain ⟨hlawful, hend⟩ := hfine.lawful.given (F := Stands p l sh)
    (B := fun d δ => Stands p l sh (δ.apply d)) (fun _ _ hA hF => hA hF) (fun _ _ hB _ => hB) hfirst
  exact ⟨⟨hfirst, hlawful⟩, hend⟩

/-! ## Runs -/

/-- In a run of careful requests every root that was there stands, where it was
and at every moment. -/
theorem roots_stand (c : Codec) (pol : Policy) (cwd : Loc) (d : Disk) (run : List (Env × Request))
    (h : Throughout (next c pol) (fun d er => Taking er.2 ∧ Careful pol cwd d er) d run)
    (p l : Loc) (n : Node) (hp : p ∈ roots pol cwd) (hn : stat d p = .ok (l, n)) :
    Throughout (next c pol) (fun d er => Always (Stands p l n.shape) (served c pol d er)) d run ∧
      Stands p l n.shape (final (next c pol) d run) :=
  throughout_of_invariant (I := Stands p l n.shape)
    (fun _ _ hs h => (always_stands (c := c) hp h.1 h.2 hs).symm) ⟨n, hn, rfl⟩ h

/-- A shop with its data as a root of its own. -/
def shopPolicy : Policy := normalize ⟨["/srv", "/srv/shop/data"], [], 0, ""⟩

def dataRoot : Loc := ["srv", "shop", "data"]

def folder : Node := .dir ⟨0o755, 0, 0⟩

def shopDisk : Disk :=
  (((Disk.bare.put ["srv"] folder).put ["srv", "shop"] folder).put dataRoot folder).put
    ["srv", "shop", "old"] folder

/-- A run that moves an old folder out of the shop and then removes it. -/
def tidying : List (Env × Request) :=
  [(calm 0 [], .rename ⟨"/srv/shop/old", "/srv/old"⟩), (calm 0 [], .delete ["/srv/old"])]

theorem data_stands :
    Throughout (next countedCodec shopPolicy) (fun d er =>
      Always (Stands dataRoot dataRoot folder.shape) (served countedCodec shopPolicy d er)) shopDisk tidying ∧
      Stands dataRoot dataRoot folder.shape (final (next countedCodec shopPolicy) shopDisk tidying) := by
  have hrename : Careful shopPolicy [] shopDisk (calm 0 [], .rename ⟨"/srv/shop/old", "/srv/old"⟩) := by
    intro s t hadm
    have hok : admitRename shopPolicy shopDisk ⟨"/srv/shop/old", "/srv/old"⟩ =
        .ok (["srv", "shop", "old"], ["srv", "old"]) := by decide +kernel
    obtain ⟨rfl, -⟩ := Prod.mk.inj (Except.ok.inj (hok.symm.trans hadm))
    decide +kernel
  have hdelete : Careful shopPolicy [] (next countedCodec shopPolicy shopDisk
      (calm 0 [], .rename ⟨"/srv/shop/old", "/srv/old"⟩)) (calm 0 [], .delete ["/srv/old"]) := by
    intro raw d1 s hturn hrem
    have hok : checkEntry shopPolicy (next countedCodec shopPolicy shopDisk
        (calm 0 [], .rename ⟨"/srv/shop/old", "/srv/old"⟩)) "/srv/old" = .ok ["srv", "old"] := by decide +kernel
    have hcheck := hrem.checked
    obtain ⟨hraw, hd⟩ := deleteTurn_single hturn
    rw [hraw, hd, hok] at hcheck
    rw [← Except.ok.inj hcheck, hd]
    decide +kernel
  exact roots_stand countedCodec shopPolicy [] shopDisk tidying ⟨⟨trivial, hrename⟩, ⟨trivial, hdelete⟩, trivial⟩
    dataRoot dataRoot folder (by decide +kernel) (by decide +kernel)

/-- The removal of a folder takes the root in it. -/
theorem delete_takes_root : ¬ ∀ c pol cwd d run p l n, (∀ er ∈ run, Taking er.2) →
    p ∈ roots pol cwd → stat d p = .ok (l, n) → Stands p l n.shape (final (next c pol) d run) := by
  intro h
  obtain ⟨n, hn, -⟩ := h countedCodec shopPolicy [] shopDisk [(calm 0 [], .delete ["/srv/shop"])]
    dataRoot dataRoot folder (by simp [Taking]) (by decide +kernel) (by decide +kernel)
  have hgone : stat (final (next countedCodec shopPolicy) shopDisk
      [(calm 0 [], .delete ["/srv/shop"])]) dataRoot = .error .noent := by decide +kernel
  rw [hgone] at hn
  cases hn

end icsd_panel.standing

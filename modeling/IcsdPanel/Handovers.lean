-- A newer connection of the agent takes over from the older one: which sockets are
-- read, and which one is registered.
import IcsdPanel.Runs
import IcsdPanel.Sockets

open dicts

namespace icsd_panel.handovers

open sockets

/-! ## The law -/

/-- At most one socket is read, it is the one that is registered, and a socket
whose handler is over is not. -/
structure Law (h : Hub) : Prop where
  single : ∀ i j c d, h.conns.get i = some c → Reads c → h.conns.get j = some d → Reads d → i = j
  registered : ∀ j c, h.conns.get j = some c → Reads c → (h.objects c.lv).ws = some j
  released : ∀ j c, h.conns.get j = some c → c.stage = .ended → ∀ l, (h.objects l).ws ≠ some j

/-- Whether a handshake that comes back from its hand-over finds no socket
registered, and no line between a registration and the loop raises. -/
def smooth (h : Hub) : Move → Bool
  | .accepted _ raises => !raises
  | .replaced j raises => !raises && (h.conns.get j).all fun c => (h.objects c.lv).ws = none
  | .greeted j => parses (h.row.bind Row.host) || !isRegistered h j
  | .ungreeted j => !isRegistered h j
  | _ => true

variable {h h' : Hub} {j l : Nat} {c : Conn}

/-! ## The invariant -/

structure Good (h : Hub) : Prop where
  one : ∀ q c, h.conns.get q = some c → c.stage.joined = true → c.isOpen = true →
    (h.objects c.lv).ws = some q
  owner : ∀ l q, (h.objects l).ws = some q →
    ∃ c, h.conns.get q = some c ∧ c.stage.joined = true ∧ c.lv = l
  home : ∃ l, (∀ q c, h.conns.get q = some c → c.stage.known = true → c.lv = l) ∧
    (h.live = some l ∨ h.live = none ∧
      (h.row = none ∨ ∀ q c, h.conns.get q = some c → c.stage.known = false))

theorem Good.law (hg : Good h) : Law h where
  single i j c d hc hrc hd hrd := by
    obtain ⟨l, hl, -⟩ := hg.home
    have hi := hg.one i c hc hrc.joined hrc.2
    have hj := hg.one j d hd hrd.joined hrd.2
    rw [hl i c hc (known_of_joined hrc.joined)] at hi
    rw [hl j d hd (known_of_joined hrd.joined)] at hj
    exact Option.some.inj (hi.symm.trans hj)
  registered j c hc hr := hg.one j c hc hr.joined hr.2
  released j c hc hs l hws := by
    obtain ⟨d, hd, hjoined, -⟩ := hg.owner l j hws
    cases hc.symm.trans hd
    rw [hs] at hjoined
    cases hjoined

/-- Who did not register is registered nowhere. -/
theorem Good.not_owner (hg : Good h) (hc : h.conns.get j = some c) (hs : c.stage.joined = false)
    (l : Nat) : (h.objects l).ws ≠ some j := by
  intro hws
  obtain ⟨d, hd, hjoined, -⟩ := hg.owner l j hws
  cases hc.symm.trans hd
  rw [hs] at hjoined
  cases hjoined

/-- Who is not registered with its own object is registered nowhere. -/
theorem Good.not_owner_of (hg : Good h) (hc : h.conns.get j = some c)
    (hws : (h.objects c.lv).ws ≠ some j) (l : Nat) : (h.objects l).ws ≠ some j := by
  intro hl
  obtain ⟨d, hd, -, rfl⟩ := hg.owner l j hl
  cases hc.symm.trans hd
  exact hws hl

theorem good_same (hg : Good h) (hs : SameNet h h') : Good h' where
  one q c hc hj ho := by
    rw [hs.ws]
    exact hg.one q c (by rw [← hs.conns]; exact hc) hj ho
  owner l q hws := by
    rw [hs.conns]
    exact hg.owner l q (by rw [← hs.ws]; exact hws)
  home := by
    rw [hs.conns, hs.live, hs.row]
    exact hg.home

/-- One handler changes, and stays as much of a handler as it was. -/
theorem good_setConn (hg : Good h) {c' : Conn} (hno : c'.stage.joined = false → ∀ l, (h.objects l).ws ≠ some j)
    (hone : c'.stage.joined = true → c'.isOpen = true → (h.objects c'.lv).ws = some j)
    (hown : c'.stage.joined = true → ∀ l, (h.objects l).ws = some j → c'.lv = l)
    (hknown : c'.stage.known = true → ∃ c, h.conns.get j = some c ∧ c.stage.known = true ∧ c'.lv = c.lv) :
    Good (h.setConn j c') where
  one q x hx hj ho := by
    rw [setConn_get] at hx
    split at hx
    · rename_i hq
      cases hx
      rw [hq]
      exact hone hj ho
    · exact hg.one q x hx hj ho
  owner l q hws := by
    rw [setConn_get]
    split
    · rename_i hq
      rw [setConn_objects, hq] at hws
      have hj : c'.stage.joined = true := by
        by_contra hj
        exact hno (Bool.eq_false_iff.mpr hj) l hws
      exact ⟨c', rfl, hj, hown hj l hws⟩
    · exact hg.owner l q hws
  home := by
    obtain ⟨l, hl, hlive⟩ := hg.home
    refine ⟨l, fun q x hx hk => ?_, ?_⟩
    · rw [setConn_get] at hx
      split at hx
      · cases hx
        obtain ⟨c, hc, hkc, hlv⟩ := hknown hk
        rw [hlv]
        exact hl j c hc hkc
      · exact hl q x hx hk
    · refine hlive.imp id fun hnone => ⟨hnone.1, hnone.2.imp id fun hall q x hx => ?_⟩
      rw [setConn_get] at hx
      split at hx
      · cases hx
        by_contra hk
        obtain ⟨c, hc, hkc, -⟩ := hknown (Bool.eq_true_of_not_eq_false hk)
        rw [hall j c hc] at hkc
        cases hkc
      · exact hall q x hx

theorem good_leave (hg : Good h) (hno : ∀ l, (h.objects l).ws ≠ some j) : Good (leave j c h) :=
  good_setConn hg (fun _ => hno) nofun nofun nofun

/-- A handler goes on within its loop. -/
theorem good_stage (hg : Good h) (hc : h.conns.get j = some c) (hj : c.stage.joined = true) {s : Stage}
    (hs : s.joined = true) : Good (h.setConn j { c with stage := s }) := by
  refine good_setConn hg (fun hno => ?_) (fun _ ho => hg.one j c hc hj ho) (fun _ l hws => ?_)
    (fun _ => ⟨c, hc, known_of_joined hj, rfl⟩)
  · exact absurd (hs.symm.trans hno) (by simp)
  · obtain ⟨d, hd, -, hlv⟩ := hg.owner l j hws
    cases hc.symm.trans hd
    exact hlv

theorem good_shut (hg : Good h) (j : Nat) : Good (shut j h) := by
  obtain ⟨hrow, hlive, hobj, -, -⟩ := shut_same (h := h) (j := j)
  have hback {q : Nat} {x : Conn} (hx : (shut j h).conns.get q = some x) :
      ∃ c, h.conns.get q = some c ∧ x.stage = c.stage ∧ x.lv = c.lv ∧ (x.isOpen = true → c.isOpen = true) := by
    rw [shut_get, Option.map_eq_some_iff] at hx
    obtain ⟨c, hc, rfl⟩ := hx
    refine ⟨c, hc, ?_⟩
    split
    · exact ⟨rfl, rfl, nofun⟩
    · exact ⟨rfl, rfl, id⟩
  refine ⟨fun q x hx hj ho => ?_, fun l q hws => ?_, ?_⟩
  · obtain ⟨c, hc, hs, hlv, hopen⟩ := hback hx
    rw [hobj, hlv]
    exact hg.one q c hc (by rw [← hs]; exact hj) (hopen ho)
  · rw [hobj] at hws
    obtain ⟨c, hc, hj, hlv⟩ := hg.owner l q hws
    refine ⟨_, by rw [shut_get, hc]; rfl, ?_, ?_⟩
    · split <;> exact hj
    · split <;> exact hlv
  · obtain ⟨l, hl, hrest⟩ := hg.home
    rw [hlive, hrow]
    refine ⟨l, fun q x hx hk => ?_, hrest.imp id fun hnone => ⟨hnone.1, hnone.2.imp id fun hall q x hx => ?_⟩⟩
    · obtain ⟨c, hc, hs, hlv, -⟩ := hback hx
      rw [hlv]
      exact hl q c hc (by rw [← hs]; exact hk)
    · obtain ⟨c, hc, hs, -, -⟩ := hback hx
      rw [hs]
      exact hall q c hc

/-! ## The handler -/

theorem good_cleanUp (hg : Good h) (hc : h.conns.get j = some c) : Good (cleanUp j c h) := by
  unfold cleanUp
  simp only
  split
  · rename_i hws
    -- The two changes keep the invariant only together.
    refine ⟨fun q x hx hj ho => ?_, fun l q hl => ?_, ?_⟩
    · simp only [leave, setConn_get, setLive_conns] at hx
      split at hx
      · cases hx
        cases hj
      · rename_i hq
        have hreg := hg.one q x hx hj ho
        simp only [leave, setConn_objects, setLive_objects]
        split
        · rename_i hlv
          rw [hlv, hws] at hreg
          exact absurd (Option.some.inj hreg).symm hq
        · exact hreg
    · simp only [leave, setConn_objects, setLive_objects] at hl
      split at hl
      · cases hl
      · rename_i hne
        obtain ⟨d, hd, hjoined, hlv⟩ := hg.owner l q hl
        simp only [leave, setConn_get, setLive_conns]
        rw [if_neg]
        · exact ⟨d, hd, hjoined, hlv⟩
        · rintro rfl
          cases hc.symm.trans hd
          exact hne hlv.symm
    · obtain ⟨l, hl, hrest⟩ := hg.home
      refine ⟨l, fun q x hx hk => ?_, hrest.imp id fun hnone => ⟨hnone.1, hnone.2.imp id fun hall q x hx => ?_⟩⟩
      · simp only [leave, setConn_get, setLive_conns] at hx
        split at hx
        · cases hx
          cases hk
        · exact hl q x hx hk
      · simp only [leave, setConn_get, setLive_conns] at hx
        split at hx
        · cases hx
          rfl
        · exact hall q x hx
  · rename_i hws
    exact good_leave hg (hg.not_owner_of hc hws)

theorem good_again (hg : Good h) (hc : h.conns.get j = some c) (hj : c.stage.joined = true) :
    Good (again j c h) := by
  unfold again
  split
  · exact good_stage hg hc hj rfl
  · exact good_cleanUp hg hc

theorem good_received (hg : Good h) (hc : h.conns.get j = some c) (hj : c.stage.joined = true)
    (msg : Message) : Good (received j c msg h) := by
  cases msg with
  | skipped => exact good_again hg hc hj
  | ignored => exact good_stage hg hc hj rfl
  | sample raw cpus => exact good_stage hg hc hj rfl
  | res m =>
    have hs := sameNet_complete h c.lv m
    exact good_stage (good_same hg hs) (by rw [hs.conns]; exact hc) hj rfl
  | hello host manage =>
    have hrow : Good { h with row := h.row.map fun (r : Row) => { r with host := some host } } := by
      refine ⟨hg.one, hg.owner, ?_⟩
      obtain ⟨l, hl, hrest⟩ := hg.home
      refine ⟨l, hl, hrest.imp id fun hnone => ⟨hnone.1, hnone.2.imp (fun hr => ?_) id⟩⟩
      rw [hr]
      rfl
    have hmode : Good (({ h with row := h.row.map fun (r : Row) => { r with host := some host } } : Hub).setLive
        c.lv { h.objects c.lv with manage := manage }) := good_same hrow (sameNet_setLive _ rfl)
    exact good_stage hmode hc hj rfl

/-- A socket is registered where none is. -/
theorem good_register (hg : Good h) (hc : h.conns.get j = some c) (hs : c.stage.joined = false)
    {d : Conn} (hd : d.lv = l ∧ d.stage = .greeting) (hws : (h.objects l).ws = none)
    (hall : ∀ q c, h.conns.get q = some c → c.stage.known = true → c.lv = l)
    (hlive : h.live = some l ∨ h.live = none ∧ h.row = none) {lv : sockets.Live} (hlv : lv.ws = some j) :
    Good ((h.setLive l lv).setConn j d) := by
  obtain ⟨rfl, hstage⟩ := hd
  refine ⟨fun q x hx hj ho => ?_, fun l' q hl => ?_, ?_⟩
  · rw [setConn_get, setLive_conns] at hx
    rw [setConn_objects, setLive_objects]
    split at hx
    · rename_i hq
      cases hx
      rw [if_pos rfl, hlv, hq]
    · have hreg := hg.one q x hx hj ho
      split
      · rename_i heq
        rw [heq, hws] at hreg
        cases hreg
      · exact hreg
  · rw [setConn_objects, setLive_objects] at hl
    rw [setConn_get, setLive_conns]
    split at hl
    · rename_i heq
      cases hlv.symm.trans hl
      exact ⟨d, if_pos rfl, by rw [hstage]; rfl, heq.symm⟩
    · obtain ⟨x, hx, hj, hxl⟩ := hg.owner l' q hl
      rw [if_neg]
      · exact ⟨x, hx, hj, hxl⟩
      · rintro rfl
        exact hg.not_owner hc hs l' hl
  · refine ⟨d.lv, fun q x hx hk => ?_, hlive.imp id fun hnone => ⟨hnone.1, .inl hnone.2⟩⟩
    rw [setConn_get, setLive_conns] at hx
    split at hx
    · cases hx
      rfl
    · exact hall q x hx hk

theorem good_replaced (hg : Good h) (hc : h.conns.get j = some c) (hs : c.stage = .replacing)
    (hws : (h.objects c.lv).ws = none) : Good (register j c false h) := by
  obtain ⟨l, hall, hlive⟩ := hg.home
  have hl : c.lv = l := hall j c hc (by rw [hs]; rfl)
  unfold register
  simp only [Bool.false_eq_true, if_false]
  have hlv : ({ h.objects c.lv with ws := some j } : sockets.Live).ws = some j := rfl
  refine good_register (d := { c with stage := .greeting }) hg hc (by rw [hs]; rfl) ⟨rfl, rfl⟩ hws (by rw [hl]; exact hall) ?_ hlv
  rw [hl]
  refine hlive.imp id fun hnone => ⟨hnone.1, hnone.2.resolve_right fun hno => ?_⟩
  have := hno j c hc
  rw [hs] at this
  cases this

/-- `live.get` for a handshake that authenticates gives the one object that there is. -/
theorem good_getLive (hg : Good h) (hrow : h.row ≠ none) :
    Good (getLive h).2 ∧ (getLive h).2.conns = h.conns ∧ (getLive h).2.live = some (getLive h).1 ∧
    ∀ q c, h.conns.get q = some c → c.stage.known = true → c.lv = (getLive h).1 := by
  obtain ⟨l, hall, hlive⟩ := hg.home
  unfold getLive
  cases hl : h.live with
  | some l' =>
    rw [hl] at hlive
    rcases hlive with heq | ⟨hno, -⟩
    · cases heq
      exact ⟨hg, rfl, hl, hall⟩
    · cases hno
  | none =>
    rw [hl] at hlive
    have hnone := ((hlive.resolve_left nofun).2).resolve_left hrow
    have hknown {q : Nat} {x : Conn} (hx : h.conns.get q = some x) : x.stage.known ≠ true := by
      rw [hnone q x hx]
      simp
    refine ⟨⟨fun q x hx hj _ => absurd (known_of_joined hj) (hknown hx), fun l' q hws => ?_, ?_⟩, rfl, rfl,
      fun q x hx hk => absurd hk (hknown hx)⟩
    · simp only [setLive_objects] at hws
      split at hws
      · cases hws
      · obtain ⟨x, hx, hj, -⟩ := hg.owner l' q hws
        exact absurd (known_of_joined hj) (hknown hx)
    · exact ⟨h.fresh, fun q x hx hk => absurd hk (hknown hx), .inl rfl⟩

theorem good_accepted (hg : Good h) (hc : h.conns.get j = some c) (hs : c.stage = .accepting) :
    Good (accepted j c false h) := by
  unfold accepted
  split
  · rename_i hauth
    have hrow : h.row ≠ none := by
      intro hnone
      rw [authenticate, hnone] at hauth
      cases hauth
    have hgl := good_getLive hg hrow
    generalize getLive h = g at hgl ⊢
    obtain ⟨l, g⟩ := g
    obtain ⟨hgood, hconns, hlive, hall⟩ := hgl
    simp only at hgood hconns hlive hall ⊢
    rw [← hconns] at hc hall
    split
    · rename_i old hold
      -- The old socket is the only open one that is registered.
      have hback {q : Nat} {x : Conn} (hx : (shut old (g.setLive l
          { g.objects l with ws := none })).conns.get q = some x) :
          ∃ y, g.conns.get q = some y ∧ x.stage = y.stage ∧ x.lv = y.lv ∧
            (x.isOpen = true → q ≠ old ∧ y.isOpen = true) := by
        rw [shut_get, Option.map_eq_some_iff, setLive_conns] at hx
        obtain ⟨y, hy, rfl⟩ := hx
        refine ⟨y, hy, ?_⟩
        split
        · exact ⟨rfl, rfl, by simp⟩
        · rename_i hq
          exact ⟨rfl, rfl, fun ho => ⟨hq, ho⟩⟩
      refine ⟨fun q x hx hj ho => ?_, fun l' q hws => ?_, l, fun q x hx hk => ?_, ?_⟩
      · rw [setConn_get] at hx
        split at hx
        · cases hx
          cases hj
        · obtain ⟨y, hy, hst, hlv, hopen⟩ := hback hx
          rw [hst] at hj
          have hreg := hgood.one q y hy hj (hopen ho).2
          rw [hall q y hy (known_of_joined hj), hold] at hreg
          exact absurd (Option.some.inj hreg).symm (hopen ho).1
      · rw [setConn_objects, shut_same.2.2.1, setLive_objects] at hws
        split at hws
        · cases hws
        · rename_i hne
          obtain ⟨y, hy, hj, hlv⟩ := hgood.owner l' q hws
          exact absurd (hlv.symm.trans (hall q y hy (known_of_joined hj))) hne
      · rw [setConn_get] at hx
        split at hx
        · cases hx
          rfl
        · obtain ⟨y, hy, hst, hlv, -⟩ := hback hx
          rw [hlv]
          exact hall q y hy (by rw [← hst]; exact hk)
      · rw [setConn_live, shut_same.2.1]
        exact .inl hlive
    · rename_i hws
      unfold register
      simp only [Bool.false_eq_true, if_false]
      have hlv : ({ g.objects l with ws := some j } : sockets.Live).ws = some j := rfl
      exact good_register (d := { c with lv := l, stage := .greeting }) hgood hc (by rw [hs]; rfl)
        ⟨rfl, rfl⟩ hws hall (.inl hlive) hlv
  · refine good_setConn hg (fun _ => hg.not_owner hc (by rw [hs]; rfl)) ?_ ?_ ?_ <;> simp [Stage.joined, Stage.known]

/-! ## Every move -/

theorem good_revoked (hg : Good h) (hrow : h.row = none → h'.row = none) (hlive : h'.live = h.live)
    (hobj : h'.objects = h.objects) (hconns : h'.conns = h.conns) : Good h' where
  one q c hc hj ho := by
    rw [hobj]
    exact hg.one q c (by rw [← hconns]; exact hc) hj ho
  owner l q hws := by
    rw [hconns]
    exact hg.owner l q (by rw [← hobj]; exact hws)
  home := by
    obtain ⟨l, hall, hrest⟩ := hg.home
    rw [hconns, hlive]
    exact ⟨l, hall, hrest.imp id fun hnone => ⟨hnone.1, hnone.2.imp hrow id⟩⟩

theorem good_forget (hg : Good h) (k : Nat) : Good (forget k h) where
  one := hg.one
  owner := hg.owner
  home := by
    obtain ⟨l, hall, -⟩ := hg.home
    exact ⟨l, hall, .inr ⟨rfl, .inl rfl⟩⟩

theorem good_enroll (hg : Good h) (k : Nat) (secret host : String) : Good (enroll k secret host h) := by
  unfold enroll
  split
  · exact hg
  · rename_i r hr
    have hno : h.row = none → (some ⟨some secret, some host⟩ : Option Row) = none := by
      rw [hr]
      nofun
    simp only
    split
    · have hg' : Good { h with row := some ⟨some secret, some host⟩ } := good_revoked hg hno rfl rfl rfl
      exact good_revoked (good_shut hg' _) id rfl rfl rfl
    · exact good_revoked hg hno rfl rfl rfl

theorem good_delete (hg : Good h) (k : Nat) : Good (delete k h) := by
  unfold delete
  split
  · exact good_revoked (good_shut hg _) id rfl rfl rfl
  · exact good_forget hg k

theorem good_at {p : Stage → Bool} {f : Conn → Hub} (hg : Good h)
    (hf : ∀ c, h.conns.get j = some c → p c.stage = true → Good (f c)) : Good (h.at j p f) := by
  unfold Hub.at
  split
  · split
    · exact hf _ (by assumption) (by assumption)
    · exact hg
  · exact hg

theorem good_move (hg : Good h) (m : Move) (hm : smooth h m) : Good (h.move m) := by
  by_cases hcall : m.ofCall = true
  · exact good_same hg (sameNet_move hcall)
  unfold Hub.move
  cases m with
  | connect j secret =>
    simp only
    split
    · rename_i hnew
      refine good_setConn hg (fun _ l hws => ?_) (fun hj => ?_) (fun hj => ?_) fun hk => ?_
      · obtain ⟨c, hc, -⟩ := hg.owner l j hws
        rw [hnew] at hc
        cases hc
      · cases hj
      · cases hj
      · cases hk
    · exact hg
  | accepted j raises =>
    have hr : raises = false := by simpa [smooth] using hm
    subst hr
    exact good_at hg fun c hc hs => good_accepted hg hc (of_decide_eq_true hs)
  | dropped j =>
    refine good_at hg fun c hc hs => good_leave hg (hg.not_owner hc ?_)
    cases hst : c.stage <;> rw [hst] at hs <;> first | rfl | cases hs
  | refused j =>
    refine good_at hg fun c hc hs => good_leave hg (hg.not_owner hc ?_)
    rw [of_decide_eq_true hs]
    rfl
  | replaced j raises =>
    simp only [smooth, Bool.and_eq_true, Bool.not_eq_true'] at hm
    obtain ⟨rfl, hm⟩ := hm
    refine good_at hg fun c hc hs => good_replaced hg hc (of_decide_eq_true hs) ?_
    rw [hc] at hm
    simpa using hm
  | greeted j =>
    refine good_at hg fun c hc hs => ?_
    have hjoined : c.stage.joined = true := by rw [of_decide_eq_true hs]; rfl
    unfold sockets.greeted
    split
    · exact good_again hg hc hjoined
    · rename_i hp
      refine good_leave hg (hg.not_owner_of hc ?_)
      simpa [smooth, isRegistered, hc, hp] using hm
  | ungreeted j =>
    refine good_at hg fun c hc hs => good_leave hg (hg.not_owner_of hc ?_)
    simpa [smooth, isRegistered, hc] using hm
  | received j msg =>
    refine good_at hg fun c hc hs => good_received hg hc ?_ msg
    rw [of_decide_eq_true hs]
    rfl
  | woke j =>
    refine good_at hg fun c hc hs => good_again hg hc ?_
    rw [of_decide_eq_true hs]
    rfl
  | lost j => exact good_at hg fun c hc _ => good_cleanUp hg hc
  | enroll k secret host =>
    simp only
    split
    · exact good_enroll hg k secret host
    · exact hg
  | enrolled k =>
    simp only
    split
    · exact good_revoked hg id rfl rfl rfl
    · exact hg
  | delete k =>
    simp only
    split
    · exact good_delete hg k
    · exact hg
  | deleted k =>
    simp only
    split
    · exact good_forget hg k
    · exact hg
  | call i rid => exact absurd rfl hcall
  | locked i => exact absurd rfl hcall
  | sent i => exact absurd rfl hcall
  | unsent i => exact absurd rfl hcall
  | timedOut i => exact absurd rfl hcall
  | resumed i => exact absurd rfl hcall

/-- In every run with smooth hand-overs at most one socket is read at every moment,
it is the registered one, and no handler that is over leaves its socket registered. -/
theorem smooth_keeps_law (ms : List Move) (hm : runs.Throughout Hub.move (fun h m => smooth h m) start ms) :
    Law (runs.final Hub.move start ms) := by
  have hstart : Good start := by
    refine ⟨nofun, nofun, 0, nofun, .inr ⟨rfl, .inr nofun⟩⟩
  exact (runs.throughout_of_invariant (I := Good) (Q := fun _ _ => True)
    (fun h m hI hP => ⟨good_move hI m hP, trivial⟩) hstart hm).2.law

/-! ## A third connection, and a greeting that fails -/

def reconnected : List Move :=
  connected "secret" ++ [.greeted 1, .connect 2 (some "secret"), .accepted 2 false, .lost 1, .replaced 2 false, .greeted 2]

theorem reconnected_law : Law (runs.final Hub.move start reconnected) :=
  smooth_keeps_law _ (by decide +kernel)

/-- The second connection waits until the first is closed, and a third one comes. -/
def overtaken : List Move :=
  connected "secret" ++ [.greeted 1, .connect 2 (some "secret"), .accepted 2 false, .connect 3 (some "secret"),
    .accepted 3 false, .greeted 3, .replaced 2 false, .greeted 2, .lost 1]

/-- Two sockets are read when all has settled, and the agent that goes away before
its greeting stays registered. -/
theorem two_readers :
    (Settled (runs.final Hub.move start overtaken) ∧ ¬ Law (runs.final Hub.move start overtaken)) ∧
      ¬ Law (runs.final Hub.move start (connected "secret" ++ [.ungreeted 1])) := by
  refine ⟨⟨by decide +kernel, fun hl => ?_⟩, fun hl => ?_⟩
  · have h2 : (runs.final Hub.move start overtaken).conns.get 2 =
        some ⟨.reading, true, some "secret", 0⟩ := by decide +kernel
    have h3 : (runs.final Hub.move start overtaken).conns.get 3 =
        some ⟨.reading, true, some "secret", 0⟩ := by decide +kernel
    exact absurd (hl.single 2 3 _ _ h2 ⟨.inl rfl, rfl⟩ h3 ⟨.inl rfl, rfl⟩) (by decide)
  · exact hl.released 1 ⟨.ended, false, some "secret", 0⟩ (by decide +kernel) rfl 0 (by decide +kernel)

end icsd_panel.handovers

-- A new secret and the deletion of the server take away the access of the sockets
-- that authenticated before. Both close the one socket that is registered.
import IcsdPanel.Runs
import IcsdPanel.Sockets

open dicts

namespace icsd_panel.revocations

open sockets

/-! ## The law -/

/-- A socket that is read has authenticated with the secret that is valid now. -/
def Law (h : Hub) : Prop :=
  ∀ j c, h.conns.get j = some c → Reads c → ∃ r, h.row = some r ∧ r.secret = c.secret

/-- It has authenticated, and its socket is open. -/
def Trusted (c : Conn) : Prop := c.stage.known = true ∧ c.isOpen = true

instance (c : Conn) : Decidable (Trusted c) := inferInstanceAs (Decidable (_ ∧ _))

/-- Every socket that has authenticated is the one that `enroll` and
`delete_server` look at. -/
def Visible (h : Hub) : Prop :=
  ∀ e ∈ h.conns.entries, Trusted e.2 → h.live = some e.2.lv ∧ (h.objects e.2.lv).ws = some e.1

instance (h : Hub) : Decidable (Visible h) :=
  inferInstanceAs (Decidable (∀ e ∈ h.conns.entries, _))

/-- Whether a secret or the server goes while each socket that authenticated is
visible, and no handshake authenticates while a deletion closes its socket. -/
def orderly (h : Hub) : Move → Bool
  | .enroll _ _ _ => decide (Visible h)
  | .delete _ => decide (Visible h)
  | .accepted j _ =>
    (h.deletes.entries.all fun e => e.2 ≠ .closing) ||
      !(h.conns.get j).any fun c => authenticate h c.secret
  | _ => true

variable {h h' : Hub} {j : Nat} {c : Conn}

/-! ## Moves that let nobody in -/

structure Narrows (h h' : Hub) : Prop where
  conns : ∀ q c', h'.conns.get q = some c' → Trusted c' →
    ∃ c, h.conns.get q = some c ∧ Trusted c ∧ c.secret = c'.secret
  row : h'.row.map Row.secret = h.row.map Row.secret
  deletes : ∀ k, h'.deletes.get k = some .closing → h.deletes.get k = some .closing

theorem Narrows.refl (h : Hub) : Narrows h h := ⟨fun _ c hc ht => ⟨c, hc, ht, rfl⟩, rfl, fun _ => id⟩

theorem Narrows.trans {h'' : Hub} (h1 : Narrows h h') (h2 : Narrows h' h'') : Narrows h h'' where
  conns q c' hc ht := by
    obtain ⟨c1, hc1, ht1, hs1⟩ := h2.conns q c' hc ht
    obtain ⟨c0, hc0, ht0, hs0⟩ := h1.conns q c1 hc1 ht1
    exact ⟨c0, hc0, ht0, hs0.trans hs1⟩
  row := h2.row.trans h1.row
  deletes k hk := h1.deletes k (h2.deletes k hk)

theorem narrows_same (hs : SameNet h h') : Narrows h h' where
  conns q c hc ht := ⟨c, by rw [← hs.conns]; exact hc, ht, rfl⟩
  row := by rw [hs.row]
  deletes k hk := by
    rw [hs.deletes] at hk
    exact hk

theorem narrows_setLive (h : Hub) (l : Nat) (lv : sockets.Live) : Narrows h (h.setLive l lv) :=
  ⟨fun _ c hc ht => ⟨c, hc, ht, rfl⟩, rfl, fun _ => id⟩

/-- A handler that is known goes on, or ends. -/
theorem narrows_setConn {c' : Conn} (hc : h.conns.get j = some c)
    (ht : Trusted c' → Trusted c) (hs : c.secret = c'.secret) : Narrows h (h.setConn j c') where
  conns q x hx htx := by
    rw [setConn_get] at hx
    split at hx
    · rename_i hq
      cases hx
      exact ⟨c, by rw [hq]; exact hc, ht htx, hs⟩
    · exact ⟨x, hx, htx, rfl⟩
  row := rfl
  deletes _ := id

/-- After a socket is closed, the others are as trusted as they were. -/
theorem narrows_shut (h : Hub) (j : Nat) : Narrows h (shut j h) where
  conns q x hx htx := by
    rw [shut_get, Option.map_eq_some_iff] at hx
    obtain ⟨c, hc, rfl⟩ := hx
    split at htx
    · cases htx.2
    · rename_i hq
      exact ⟨c, hc, htx, by rw [if_neg hq]⟩
  row := by rw [shut_same.1]
  deletes k hk := by
    rw [shut_same.2.2.2.1] at hk
    exact hk

/-- A closed socket is trusted no more. -/
theorem not_trusted_shut {x : Conn} (hx : (shut j h).conns.get j = some x) : ¬ Trusted x := by
  rw [shut_get, Option.map_eq_some_iff] at hx
  obtain ⟨c, -, rfl⟩ := hx
  rw [if_pos rfl]
  rintro ⟨-, ho⟩
  cases ho

theorem narrows_leave (hc : h.conns.get j = some c) : Narrows h (leave j c h) :=
  narrows_setConn hc (by rintro ⟨hk, -⟩; cases hk) rfl

theorem narrows_cleanUp (hc : h.conns.get j = some c) : Narrows h (cleanUp j c h) := by
  unfold cleanUp
  simp only
  split
  · have hlose : Narrows h ({ h with calls := loseAll (h.objects c.lv) h.calls }) :=
      ⟨fun _ c hc ht => ⟨c, hc, ht, rfl⟩, rfl, fun _ => id⟩
    exact (hlose.trans (narrows_setLive _ _ _)).trans (narrows_leave hc)
  · exact narrows_leave hc

theorem narrows_again (hc : h.conns.get j = some c) (hk : c.stage.known = true) :
    Narrows h (again j c h) := by
  unfold again
  split
  · exact narrows_setConn hc (fun ht => ⟨hk, ht.2⟩) rfl
  · exact narrows_cleanUp hc

theorem narrows_register (hc : h.conns.get j = some c) (hk : c.stage.known = true) (raises : Bool) :
    Narrows h (register j c raises h) := by
  unfold register
  simp only
  split
  · exact (narrows_setLive _ _ _).trans (narrows_leave hc)
  · exact (narrows_setLive _ _ _).trans (narrows_setConn hc (fun ht => ⟨hk, ht.2⟩) rfl)

theorem narrows_received (hc : h.conns.get j = some c) (hk : c.stage.known = true) (msg : Message) :
    Narrows h (received j c msg h) := by
  have hrest {h' : Hub} (hn : Narrows h h') (hc : h'.conns.get j = some c) :
      Narrows h (h'.setConn j { c with stage := .yielding }) :=
    hn.trans (narrows_setConn hc (fun ht => ⟨hk, ht.2⟩) rfl)
  cases msg with
  | skipped => exact narrows_again hc hk
  | ignored => exact hrest (.refl h) hc
  | sample raw cpus => exact hrest (.refl h) hc
  | res m =>
    have hs := sameNet_complete h c.lv m
    exact hrest (narrows_same hs) (by rw [hs.conns]; exact hc)
  | hello host manage =>
    have hrow : Narrows h { h with row := h.row.map fun r => { r with host := some host } } :=
      ⟨fun _ c hc ht => ⟨c, hc, ht, rfl⟩, by cases h.row <;> rfl, fun _ => id⟩
    exact hrest (hrow.trans (narrows_setLive _ _ _)) hc

theorem narrows_at {p : Stage → Bool} {f : Conn → Hub}
    (hf : ∀ c, h.conns.get j = some c → p c.stage = true → Narrows h (f c)) : Narrows h (h.at j p f) := by
  unfold Hub.at
  split
  · split
    · exact hf _ (by assumption) (by assumption)
    · exact .refl h
  · exact .refl h

/-- The moves that grant nothing and revoke nothing. -/
theorem narrows_move {m : Move} (hm : ∀ j r, m ≠ .accepted j r) (hc : ∀ j s, m ≠ .connect j s)
    (he : ∀ k s t, m ≠ .enroll k s t) (hd : ∀ k, m ≠ .delete k) (hd' : ∀ k, m ≠ .deleted k) :
    Narrows h (h.move m) := by
  by_cases hcall : m.ofCall = true
  · exact narrows_same (sameNet_move hcall)
  unfold Hub.move
  cases m with
  | connect j secret => exact absurd rfl (hc j secret)
  | accepted j raises => exact absurd rfl (hm j raises)
  | dropped j => exact narrows_at fun c hc _ => narrows_leave hc
  | refused j => exact narrows_at fun c hc _ => narrows_leave hc
  | replaced j raises =>
    refine narrows_at fun c hc hs => narrows_register hc ?_ raises
    rw [of_decide_eq_true hs]
    rfl
  | greeted j =>
    refine narrows_at fun c hc hs => ?_
    unfold sockets.greeted
    split
    · refine narrows_again hc ?_
      rw [of_decide_eq_true hs]
      rfl
    · exact narrows_leave hc
  | ungreeted j => exact narrows_at fun c hc _ => narrows_leave hc
  | received j msg =>
    refine narrows_at fun c hc hs => narrows_received hc ?_ msg
    rw [of_decide_eq_true hs]
    rfl
  | woke j =>
    refine narrows_at fun c hc hs => narrows_again hc ?_
    rw [of_decide_eq_true hs]
    rfl
  | lost j => exact narrows_at fun c hc _ => narrows_cleanUp hc
  | enroll k s t => exact absurd rfl (he k s t)
  | enrolled k =>
    simp only
    split
    · exact ⟨fun _ c hc ht => ⟨c, hc, ht, rfl⟩, rfl, fun _ => id⟩
    · exact .refl h
  | delete k => exact absurd rfl (hd k)
  | deleted k => exact absurd rfl (hd' k)
  | call i rid => exact absurd rfl hcall
  | locked i => exact absurd rfl hcall
  | sent i => exact absurd rfl hcall
  | unsent i => exact absurd rfl hcall
  | timedOut i => exact absurd rfl hcall
  | resumed i => exact absurd rfl hcall

/-! ## The invariant -/

/-- While a deletion closes its socket, nobody is trusted. -/
structure Good (h : Hub) : Prop where
  current : ∀ q c, h.conns.get q = some c → Trusted c → ∃ r, h.row = some r ∧ r.secret = c.secret
  deleting : ∀ k, h.deletes.get k = some .closing → ∀ q c, h.conns.get q = some c → ¬ Trusted c

theorem Good.narrows (hg : Good h) (hn : Narrows h h') : Good h' where
  current q c' hc ht := by
    obtain ⟨c, hc, ht, hs⟩ := hn.conns q c' hc ht
    obtain ⟨r, hr, hsec⟩ := hg.current q c hc ht
    have hrow := hn.row
    rw [hr] at hrow
    obtain ⟨r', hr', hsec'⟩ := Option.map_eq_some_iff.mp hrow
    exact ⟨r', hr', by rw [hsec', hsec, hs]⟩
  deleting k hk q c' hc ht := by
    obtain ⟨c, hc, ht, -⟩ := hn.conns q c' hc ht
    exact hg.deleting k (hn.deletes k hk) q c hc ht

/-- When nobody is trusted, the row does not matter. -/
theorem good_of_none (hnone : ∀ q c, h.conns.get q = some c → ¬ Trusted c) : Good h :=
  ⟨fun q c hc ht => absurd ht (hnone q c hc), fun _ _ => hnone⟩

/-- `enroll` and `delete_server` close all that they see. -/
theorem none_trusted (hv : Visible h) {q : Nat} {x : Conn}
    (hx : (match h.live.bind fun l => (h.objects l).ws with
      | some j => (shut j h).conns.get q
      | none => h.conns.get q) = some x) : ¬ Trusted x := by
  intro ht
  cases hws : h.live.bind fun l => (h.objects l).ws with
  | some j =>
    rw [hws] at hx
    obtain ⟨c, hc, htc, -⟩ := (narrows_shut h j).conns q x hx ht
    obtain ⟨hlive, hreg⟩ := hv _ (Dict.mem_entries.mpr hc) htc
    rw [hlive] at hws
    have hq : q = j := Option.some.inj (hreg.symm.trans hws)
    subst hq
    exact not_trusted_shut hx ht
  | none =>
    rw [hws] at hx
    obtain ⟨hlive, hreg⟩ := hv _ (Dict.mem_entries.mpr hx) ht
    rw [hlive] at hws
    cases hreg.symm.trans hws

theorem good_enroll (hg : Good h) (hv : Visible h) (k : Nat) (secret host : String) :
    Good (enroll k secret host h) := by
  unfold enroll
  split
  · exact hg
  · simp only
    split
    · rename_i r hr j hws
      refine good_of_none fun q x hx => none_trusted hv (q := q) ?_
      rw [hws]
      simp only [shut_get] at hx ⊢
      exact hx
    · rename_i r hr hws
      refine good_of_none fun q x hx => none_trusted hv (q := q) ?_
      rw [hws]
      exact hx

theorem good_delete (hv : Visible h) (k : Nat) : Good (delete k h) := by
  unfold delete
  split
  · rename_i j hws
    refine good_of_none fun q x hx => none_trusted hv (q := q) ?_
    rw [hws]
    exact hx
  · rename_i hws
    refine good_of_none fun q x hx => none_trusted hv (q := q) ?_
    rw [hws]
    exact hx

/-- A handshake that authenticates has the secret that is valid now. -/
theorem accepted_conns (hauth : authenticate h c.secret = true) (raises : Bool) :
    (accepted j c raises h).row = h.row ∧ (accepted j c raises h).deletes = h.deletes ∧
    ∀ q x, (accepted j c raises h).conns.get q = some x → Trusted x →
      x.secret = c.secret ∨ ∃ y, h.conns.get q = some y ∧ Trusted y ∧ y.secret = x.secret := by
  have hget : (getLive h).2.row = h.row ∧ (getLive h).2.deletes = h.deletes ∧
      (getLive h).2.conns = h.conns := by
    unfold getLive
    split <;> exact ⟨rfl, rfl, rfl⟩
  unfold accepted
  rw [if_pos hauth]
  generalize getLive h = g at hget ⊢
  obtain ⟨l, g⟩ := g
  obtain ⟨hrow, hdel, hconns⟩ := hget
  simp only at hrow hdel hconns ⊢
  split
  · rename_i old hold
    have hn := (narrows_setLive g l { g.objects l with ws := none }).trans (narrows_shut _ old)
    refine ⟨?_, ?_, fun q x hx ht => ?_⟩
    · rw [setConn_row, shut_same.1]
      exact hrow
    · rw [setConn_deletes, shut_same.2.2.2.1]
      exact hdel
    · rw [setConn_get] at hx
      split at hx
      · cases hx
        exact .inl rfl
      · obtain ⟨y, hy, hty, hs⟩ := hn.conns q x hx ht
        rw [hconns] at hy
        exact .inr ⟨y, hy, hty, hs⟩
  · unfold register
    refine ⟨?_, ?_, fun q x hx ht => ?_⟩
    · cases raises <;> exact hrow
    · cases raises <;> exact hdel
    · cases raises <;> simp only [leave, setConn_get, setLive_conns, hconns, if_true,
        Bool.false_eq_true, if_false] at hx <;> split at hx
      · cases hx
        exact .inl rfl
      · exact .inr ⟨x, hx, ht, rfl⟩
      · cases hx
        exact .inl rfl
      · exact .inr ⟨x, hx, ht, rfl⟩

theorem good_accepted (hg : Good h) (hc : h.conns.get j = some c)
    (hnew : authenticate h c.secret = true → ∀ k, h.deletes.get k ≠ some .closing) (raises : Bool) :
    Good (accepted j c raises h) := by
  by_cases hauth : authenticate h c.secret = true
  · obtain ⟨hrow, hdel, hconns⟩ := accepted_conns (j := j) hauth raises
    refine ⟨fun q x hx ht => ?_, fun k hk => ?_⟩
    · rw [hrow]
      rcases hconns q x hx ht with hsec | ⟨y, hy, hty, hsec⟩
      · unfold authenticate at hauth
        split at hauth
        · rename_i r hr
          rw [decide_eq_true_eq] at hauth
          exact ⟨r, hr, hauth.2.trans hsec.symm⟩
        · cases hauth
      · obtain ⟨r, hr, hr'⟩ := hg.current q y hy hty
        exact ⟨r, hr, hr'.trans hsec⟩
    · rw [hdel] at hk
      exact absurd hk (hnew hauth k)
  · unfold accepted
    rw [if_neg hauth]
    exact hg.narrows (narrows_setConn hc (by rintro ⟨-, ho⟩; cases ho) rfl)

theorem good_move (hg : Good h) (m : Move) (ho : orderly h m) : Good (h.move m) := by
  cases m with
  | connect j secret =>
    simp only [Hub.move]
    split
    · have hn : Narrows h (h.setConn j ⟨.accepting, true, secret, 0⟩) := by
        refine ⟨fun q x hx ht => ?_, rfl, fun _ => id⟩
        rw [setConn_get] at hx
        split at hx
        · cases hx
          cases ht.1
        · exact ⟨x, hx, ht, rfl⟩
      exact hg.narrows hn
    · exact hg
  | accepted j raises =>
    simp only [Hub.move, Hub.at]
    split
    · rename_i c hc
      split
      · refine good_accepted hg hc (fun hauth k hk => ?_) raises
        simp only [orderly, hc, Option.any_some, hauth, Bool.not_true, Bool.or_false] at ho
        have := List.all_eq_true.mp ho _ (Dict.mem_entries.mpr hk)
        simp at this
      · exact hg
    · exact hg
  | enroll k secret host =>
    simp only [Hub.move]
    split
    · exact good_enroll hg (of_decide_eq_true ho) k secret host
    · exact hg
  | delete k =>
    simp only [Hub.move]
    split
    · exact good_delete (of_decide_eq_true ho) k
    · exact hg
  | deleted k =>
    simp only [Hub.move]
    split
    · rename_i hk
      exact good_of_none (hg.deleting k hk)
    · exact hg
  | _ => exact hg.narrows (narrows_move (by simp) (by simp) (by simp) (by simp) (by simp))

/-- In every orderly run a socket that is read has at every moment authenticated
with the secret that is valid then, whether or not handshakes are under way. -/
theorem orderly_keeps_law (ms : List Move)
    (ho : runs.Throughout Hub.move (fun h m => orderly h m) start ms) :
    Law (runs.final Hub.move start ms) := by
  have hstart : Good start := good_of_none fun q c hc => by cases hc
  have hgood := (runs.throughout_of_invariant (I := Good) (Q := fun _ _ => True)
    (fun h m hI hP => ⟨good_move hI m hP, trivial⟩) hstart ho).2
  intro j c hc hr
  refine hgood.current j c hc ⟨?_, hr.2⟩
  rcases hr.1 with hs | hs <;> rw [hs] <;> rfl

/-! ## A handshake that waits while the secret changes -/

/-- The agent connects, connects again, and the hub closes the old socket. -/
def reconnecting : List Move := connected "first" ++ [.greeted 1, .connect 2 (some "first"), .accepted 2 false]

def arrived : List Move := [.replaced 2 false, .greeted 2, .lost 1]

theorem renewed_law :
    Law (runs.final Hub.move start (reconnecting ++ arrived ++ [.enroll 2 "second" "\x7b\x7d"])) :=
  orderly_keeps_law _ (by decide +kernel)

/-- Something happens while the second socket waits for the close of the first. -/
def meanwhile (x : Move) : List Move := reconnecting ++ x :: arrived

theorem reads_on {h : Hub} (hconn : h.conns.get 2 = some ⟨.reading, true, some "first", 0⟩)
    (hrow : ∀ r ∈ h.row, r.secret ≠ some "first") : ¬ Law h := by
  intro hl
  obtain ⟨r, hr, hsec⟩ := hl 2 _ hconn ⟨.inl rfl, rfl⟩
  exact hrow r hr hsec

/-- A new secret, or the deletion, comes in between: it sees no socket to close, and
the handler reads on. -/
theorem old_secret_reads :
    (Settled (runs.final Hub.move start (meanwhile (.enroll 2 "second" "{}"))) ∧
      ¬ Law (runs.final Hub.move start (meanwhile (.enroll 2 "second" "{}")))) ∧
    Settled (runs.final Hub.move start (meanwhile (.delete 1))) ∧
      ¬ Law (runs.final Hub.move start (meanwhile (.delete 1))) :=
  ⟨⟨by decide +kernel, reads_on (by decide +kernel) (by decide +kernel)⟩,
    by decide +kernel, reads_on (by decide +kernel) (by decide +kernel)⟩

end icsd_panel.revocations

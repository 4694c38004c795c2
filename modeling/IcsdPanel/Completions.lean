-- The calls that wait for the agent: which reply completes which call, and what
-- becomes of them when the connection that carried their requests ends.
import IcsdPanel.Runs
import IcsdPanel.Sockets

open dicts jsons

namespace icsd_panel.completions

open sockets replies

/-! ## The law -/

/-- A call from one moment to the next: a future that is done stays as it is, a
reply that completes it carries its id, and what is over stays over. -/
structure Goes (x y : Call) : Prop where
  rid : y.rid = x.rid
  fut : x.fut.done = true → y.fut = x.fut
  own : ∀ m, x.fut.done = false → y.fut = .reply m → x.rid = idOf m
  finished : ∀ a, x.stage = .finished a → y.stage = .finished a

/-- Every call goes on so, and when a handler ends, each call whose request was sent
over its connection is completed, with the status 503 if it was not. -/
structure Fair (h h' : Hub) : Prop where
  goes : ∀ i x, h.calls.get i = some x → ∃ y, h'.calls.get i = some y ∧ Goes x y
  released : ∀ j c c', h.conns.get j = some c → c.stage ≠ .ended → h'.conns.get j = some c' →
    c'.stage = .ended → ∀ i x, h.calls.get i = some x → x.stage.isWaiting = true → x.ws = j →
      ∃ y, h'.calls.get i = some y ∧ y.fut = if x.fut.done then x.fut else .lost

/-- The calls have different ids, and none waits that was sent over a connection
whose handler is over. -/
structure Law (h : Hub) : Prop where
  ids : ∀ i k x y, h.calls.get i = some x → h.calls.get k = some y → x.rid = y.rid → i = k
  served : ∀ j c, h.conns.get j = some c → c.stage = .ended →
    ∀ i x, h.calls.get i = some x → x.stage.isWaiting = true → x.ws = j → x.fut.done = true

def isOpen (h : Hub) (j : Nat) : Bool := (h.conns.get j).any Conn.isOpen

/-- The handler that a move ends without completing what is pending. -/
def abandons (h : Hub) : Move → Option Nat
  | .greeted j =>
    if parses (h.row.bind Row.host) && (isOpen h j || isRegistered h j) then none else some j
  | .ungreeted j => some j
  | .received j .skipped => if isOpen h j || isRegistered h j then none else some j
  | .woke j => if isOpen h j || isRegistered h j then none else some j
  | .lost j => if isRegistered h j then none else some j
  | _ => none

/-- Whether a call draws an id that no other has, and a handler that ends without
completing what is pending leaves no call that waits for it. -/
def served (h : Hub) (m : Move) : Bool :=
  (match m with
    | .call _ rid => h.calls.entries.all fun e => e.2.rid ≠ rid
    | _ => true) &&
  (abandons h m).all fun j => h.calls.entries.all fun e =>
    !(e.2.stage.isWaiting && e.2.ws = j && !e.2.fut.done)

variable {h h' : Hub} {i j l : Nat} {c : Conn} {x y : Call}

/-! ## Calls one by one -/

theorem Goes.refl (x : Call) : Goes x x where
  rid := rfl
  fut _ := rfl
  own m hd hf := by
    rw [hf] at hd
    cases hd
  finished _ := id

theorem Goes.trans {z : Call} (h1 : Goes x y) (h2 : Goes y z) : Goes x z where
  rid := h2.rid.trans h1.rid
  fut hd := by
    have hy := h1.fut hd
    rw [h2.fut (by rw [hy]; exact hd), hy]
  own m hd hf := by
    cases hy : y.fut.done with
    | true =>
      rw [h2.fut hy] at hf
      exact h1.own m hd hf
    | false => exact h1.rid ▸ h2.own m hy hf
  finished a ha := h2.finished a (h1.finished a ha)

/-- Only the place of the call changes, and it was not over. -/
theorem goes_stage {s : CallStage} (hs : x.stage.isOver = false) : Goes x { x with stage := s } where
  rid := rfl
  fut _ := rfl
  own m hd hf := by
    rw [show x.fut = .reply m from hf] at hd
    cases hd
  finished a ha := by
    rw [ha] at hs
    cases hs

theorem lose_fut : x.lose.fut = if x.fut.done then x.fut else .lost := by
  cases hf : x.fut <;> simp [Call.lose, Fut.done, hf]

theorem lose_rest : x.lose.rid = x.rid ∧ x.lose.lv = x.lv ∧ x.lose.ws = x.ws ∧ x.lose.stage = x.stage := by
  unfold Call.lose
  cases x.fut <;> exact ⟨rfl, rfl, rfl, rfl⟩

theorem goes_lose : Goes x x.lose where
  rid := lose_rest.1
  fut hd := by rw [lose_fut, if_pos hd]
  own m hd hf := by
    rw [lose_fut, hd] at hf
    cases hf
  finished a ha := by rw [lose_rest.2.2.2, ha]

theorem get_fut {m : Json} : (x.get m).fut = if x.fut.done then x.fut else .reply m := by
  cases hf : x.fut <;> simp [Call.get, Fut.done, hf]

theorem get_rest {m : Json} :
    (x.get m).rid = x.rid ∧ (x.get m).lv = x.lv ∧ (x.get m).ws = x.ws ∧ (x.get m).stage = x.stage := by
  unfold Call.get
  cases x.fut <;> exact ⟨rfl, rfl, rfl, rfl⟩

theorem get_done {m : Json} : (x.get m).fut.done = true := by
  rw [get_fut]
  split
  · assumption
  · rfl

theorem goes_get {m : Json} (hid : x.rid = idOf m) : Goes x (x.get m) where
  rid := get_rest.1
  fut hd := by rw [get_fut, if_pos hd]
  own m' hd hf := by
    rw [get_fut, hd] at hf
    cases hf
    exact hid
  finished a ha := by rw [get_rest.2.2.2, ha]

theorem not_over_of_waiting (hs : x.stage.isWaiting = true) : x.stage.isOver = false := by
  cases hx : x.stage <;> rw [hx] at hs <;> first | rfl | cases hs

/-! ## The invariant -/

/-- A handler that has registered its socket with an object, and may be over. -/
def Was (h : Hub) (j l : Nat) : Prop :=
  ∃ c, h.conns.get j = some c ∧ (c.stage.joined = true ∨ c.stage = .ended) ∧ c.lv = l

/-- No call waits for what comes over the connection. -/
def Free (h : Hub) (j : Nat) : Prop :=
  ∀ i x, h.calls.get i = some x → x.stage.isWaiting = true → x.ws = j → x.fut.done = true

structure Good (h : Hub) : Prop where
  law : Law h
  pend : ∀ i x, h.calls.get i = some x → x.stage.isOver = false → x.fut.done = false →
    (h.objects x.lv).pending.get x.rid = some i
  sound : ∀ l rid i, (h.objects l).pending.get rid = some i →
    ∃ x, h.calls.get i = some x ∧ x.stage.isOver = false ∧ x.rid = rid ∧ x.lv = l
  conn : ∀ i x, h.calls.get i = some x → x.stage.isOver = false → Was h x.ws x.lv
  owner : ∀ l j, (h.objects l).ws = some j → Was h j l
  low : ∀ i x, h.calls.get i = some x → x.stage.isOver = false → x.lv < h.fresh
  live : ∀ l, h.live = some l → l < h.fresh

/-- Nothing is sent over a connection that was not registered. -/
theorem Good.free (hg : Good h) (hc : h.conns.get j = some c)
    (hs : c.stage.joined = false ∧ c.stage ≠ .ended) : Free h j := by
  rintro i x hx hw rfl
  obtain ⟨d, hd, hst, -⟩ := hg.conn i x hx (not_over_of_waiting hw)
  cases hc.symm.trans hd
  rcases hst with hst | hst
  · rw [hs.1] at hst
    cases hst
  · exact absurd hst hs.2

/-- Moves that leave the calls, and end a handler only when nobody waits for it. -/
structure Spares (h h' : Hub) : Prop where
  calls : h'.calls = h.calls
  pend : ∀ l rid, (h'.objects l).pending.get rid = (h.objects l).pending.get rid
  ws : ∀ l j, (h'.objects l).ws = some j → (h.objects l).ws = some j ∨ Was h' j l
  was : ∀ j l, Was h j l → Was h' j l
  ended : ∀ j c', h'.conns.get j = some c' → c'.stage = .ended →
    (∃ c, h.conns.get j = some c ∧ c.stage = .ended) ∨ Free h j
  fresh : h.fresh ≤ h'.fresh
  live : ∀ l, h'.live = some l → h.live = some l ∨ l < h'.fresh

theorem Spares.refl (h : Hub) : Spares h h :=
  ⟨rfl, fun _ _ => rfl, fun _ _ => .inl, fun _ _ => id, fun _ c hc hs => .inl ⟨c, hc, hs⟩, le_rfl, fun _ => .inl⟩

theorem Spares.trans {h'' : Hub} (h1 : Spares h h') (h2 : Spares h' h'') : Spares h h'' where
  calls := h2.calls.trans h1.calls
  pend l rid := (h2.pend l rid).trans (h1.pend l rid)
  ws l j hl := by
    rcases h2.ws l j hl with hl | hw
    · exact (h1.ws l j hl).imp id (h2.was j l)
    · exact .inr hw
  was j l hw := h2.was j l (h1.was j l hw)
  ended j c hc hs := by
    rcases h2.ended j c hc hs with ⟨d, hd, hds⟩ | hf
    · exact h1.ended j d hd hds
    · unfold Free at hf
      rw [h1.calls] at hf
      exact .inr hf
  fresh := h1.fresh.trans h2.fresh
  live l hl := by
    rcases h2.live l hl with hl | hlt
    · exact (h1.live l hl).imp id fun hlt => lt_of_lt_of_le hlt h2.fresh
    · exact .inr hlt

theorem Good.spares (hg : Good h) (hs : Spares h h') : Good h' where
  law := by
    refine ⟨?_, fun j c hc hst => ?_⟩
    · rw [hs.calls]
      exact hg.law.ids
    · rw [hs.calls]
      rcases hs.ended j c hc hst with ⟨d, hd, hds⟩ | hf
      · exact hg.law.served j d hd hds
      · exact hf
  pend i x hx ho hd := by
    rw [hs.calls] at hx
    rw [hs.pend]
    exact hg.pend i x hx ho hd
  sound l rid i hp := by
    rw [hs.pend] at hp
    rw [hs.calls]
    exact hg.sound l rid i hp
  conn i x hx ho := by
    rw [hs.calls] at hx
    exact hs.was _ _ (hg.conn i x hx ho)
  owner l j hl := by
    rcases hs.ws l j hl with hl | hw
    · exact hs.was j l (hg.owner l j hl)
    · exact hw
  low i x hx ho := by
    rw [hs.calls] at hx
    exact lt_of_lt_of_le (hg.low i x hx ho) hs.fresh
  live l hl := by
    rcases hs.live l hl with hl | hlt
    · exact lt_of_lt_of_le (hg.live l hl) hs.fresh
    · exact hlt

theorem Spares.fair (hs : Spares h h') : Fair h h' where
  goes i x hx := ⟨x, by rw [hs.calls]; exact hx, .refl x⟩
  released j c c' hc hne hc' hst i x hx hw hws := by
    refine ⟨x, by rw [hs.calls]; exact hx, ?_⟩
    rcases hs.ended j c' hc' hst with ⟨d, hd, hds⟩ | hf
    · cases hc.symm.trans hd
      exact absurd hds hne
    · rw [if_pos (hf i x hx hw hws)]

/-! ## Handlers -/

theorem spares_setConn {c' : Conn}
    (hwas : ∀ l, Was h j l → (c'.stage.joined = true ∨ c'.stage = .ended) ∧ c'.lv = l)
    (hend : c'.stage = .ended → (∃ c, h.conns.get j = some c ∧ c.stage = .ended) ∨ Free h j) :
    Spares h (h.setConn j c') where
  calls := rfl
  pend _ _ := rfl
  ws _ _ := .inl
  was q l hw := by
    unfold Was
    simp only [setConn_get]
    by_cases hq : q = j
    · rw [hq] at hw ⊢
      rw [if_pos rfl]
      exact ⟨c', rfl, hwas l hw⟩
    · rw [if_neg hq]
      exact hw
  ended q d hd hs := by
    rw [setConn_get] at hd
    split at hd
    · rename_i hq
      cases hd
      rw [hq]
      exact hend hs
    · exact .inl ⟨d, hd, hs⟩
  fresh := le_rfl
  live _ := .inl

theorem spares_setLive {lv : sockets.Live} (hp : lv.pending = (h.objects l).pending)
    (hw : ∀ j, lv.ws = some j → (h.objects l).ws = some j ∨ Was h j l) : Spares h (h.setLive l lv) where
  calls := rfl
  pend q rid := by
    rw [setLive_objects]
    split
    · rename_i hq
      rw [hp, hq]
    · rfl
  ws q j hq := by
    rw [setLive_objects] at hq
    split at hq
    · rename_i heq
      rw [heq]
      exact hw j hq
    · exact .inl hq
  was _ _ := id
  ended _ c hc hs := .inl ⟨c, hc, hs⟩
  fresh := le_rfl
  live _ := .inl

theorem spares_shut (h : Hub) (j : Nat) : Spares h (shut j h) := by
  unfold shut
  split
  · rename_i c hc
    refine spares_setConn (fun l hw => ?_) fun hs => .inl ⟨c, hc, hs⟩
    obtain ⟨d, hd, hst, hlv⟩ := hw
    cases hc.symm.trans hd
    exact ⟨hst, hlv⟩
  · exact .refl h

theorem spares_leave (hc : h.conns.get j = some c) (hf : Free h j) : Spares h (leave j c h) := by
  refine spares_setConn (fun l hw => ⟨.inr rfl, ?_⟩) fun _ => .inr hf
  obtain ⟨d, hd, -, hlv⟩ := hw
  cases hc.symm.trans hd
  exact hlv

/-- A handler goes on after its registration. -/
theorem spares_stage (hc : h.conns.get j = some c) {s : Stage} (hs : s.joined = true) :
    Spares h (h.setConn j { c with stage := s }) := by
  refine spares_setConn (fun l hw => ⟨.inl hs, ?_⟩) fun he => ?_
  · obtain ⟨d, hd, -, hlv⟩ := hw
    cases hc.symm.trans hd
    exact hlv
  · rw [show s = .ended from he] at hs
    cases hs

/-- A handler that has not registered yet goes where it does not either. -/
theorem spares_before {c' : Conn} (hc : h.conns.get j = some c) (hs : c.stage.joined = false ∧ c.stage ≠ .ended)
    (hs' : c'.stage ≠ .ended) : Spares h (h.setConn j c') := by
  refine spares_setConn (fun l hw => ?_) fun he => absurd he hs'
  obtain ⟨d, hd, hst, -⟩ := hw
  cases hc.symm.trans hd
  rcases hst with hst | hst
  · rw [hs.1] at hst
    cases hst
  · exact absurd hst hs.2

theorem spares_register (hg : Good h) (hc : h.conns.get j = some c)
    (hs : c.stage.joined = false ∧ c.stage ≠ .ended) {d : Conn} (raises : Bool) :
    Spares h (register j d raises h) := by
  have hno (l : Nat) : ¬ Was h j l := by
    rintro ⟨x, hx, hst, -⟩
    cases hc.symm.trans hx
    rcases hst with hst | hst
    · rw [hs.1] at hst
      cases hst
    · exact hs.2 hst
  -- The registration and the new place of the handler, in the other order.
  have hboth {d' : Conn} (hst : d'.stage.joined = true ∨ d'.stage = .ended) (hlv : d'.lv = d.lv) :
      Spares h ((h.setConn j d').setLive d.lv { h.objects d.lv with ws := some j }) := by
    refine (spares_setConn (fun l hw => absurd hw (hno l)) fun _ => .inr (hg.free hc hs)).trans
      (spares_setLive rfl fun q hq => ?_)
    cases hq
    exact .inr ⟨d', by rw [setConn_get, if_pos rfl], hst, hlv⟩
  unfold register
  simp only
  split
  · exact hboth (.inr rfl) rfl
  · exact hboth (.inl rfl) rfl

theorem spares_getLive (hg : Good h) : Spares h (getLive h).2 := by
  unfold getLive
  cases hl : h.live with
  | some l => exact .refl h
  | none =>
    refine ⟨rfl, fun q rid => ?_, fun q j hq => ?_, fun _ _ => id, fun _ c hc hs => .inl ⟨c, hc, hs⟩,
      Nat.le_succ _, fun q hq => ?_⟩
    · simp only [setLive_objects]
      split
      · rename_i hq
        -- No call uses the new object yet.
        have hnone : (h.objects h.fresh).pending.get rid = none := by
          rw [Option.eq_none_iff_forall_ne_some]
          intro i hi
          obtain ⟨x, hx, ho, -, hlv⟩ := hg.sound _ _ _ hi
          exact absurd (hg.low i x hx ho) (by omega)
        rw [hq, hnone]
        rfl
      · rfl
    · simp only [setLive_objects] at hq
      split at hq
      · cases hq
      · exact .inl hq
    · cases hq
      exact .inr (Nat.lt_succ_self _)

theorem spares_accepted (hg : Good h) (hc : h.conns.get j = some c) (hs : c.stage = .accepting)
    (raises : Bool) : Spares h (accepted j c raises h) := by
  have hbefore : c.stage.joined = false ∧ c.stage ≠ .ended := by
    rw [hs]
    exact ⟨rfl, nofun⟩
  unfold accepted
  split
  · have hget := spares_getLive hg
    have hconns : (getLive h).2.conns = h.conns := by
      unfold getLive
      split <;> rfl
    generalize getLive h = g at hget hconns ⊢
    obtain ⟨l, g⟩ := g
    simp only at hget hconns ⊢
    rw [← hconns] at hc
    have hgood := hg.spares hget
    split
    · rename_i old hold
      have hclear : Spares g (g.setLive l { g.objects l with ws := none }) := spares_setLive rfl nofun
      have hshut := hclear.trans (spares_shut _ old)
      refine (hget.trans hshut).trans ?_
      obtain ⟨x, hx, hst⟩ : ∃ x, (shut old (g.setLive l { g.objects l with ws := none })).conns.get j =
          some x ∧ x.stage = c.stage := by
        rw [shut_get, setLive_conns, hc]
        refine ⟨_, rfl, ?_⟩
        split <;> rfl
      rw [← hst] at hbefore
      exact spares_before hx hbefore nofun
    · exact hget.trans (spares_register hgood hc hbefore raises)
  · exact spares_before hc hbefore nofun

/-! ## The clean-up -/

theorem any_values {d : Dict String Nat} {i : Nat} :
    (d.entries.any fun e => e.2 = i) = true ↔ ∃ rid, d.get rid = some i := by
  simp only [List.any_eq_true, decide_eq_true_eq, Prod.exists]
  constructor
  · rintro ⟨rid, k, hmem, rfl⟩
    exact ⟨rid, Dict.mem_entries.mp hmem⟩
  · rintro ⟨rid, hget⟩
    exact ⟨rid, i, Dict.mem_entries.mpr hget, rfl⟩

/-- What the clean-up makes of a call. -/
def lostIn (lv : sockets.Live) (i : Nat) (x : Call) : Call :=
  if lv.pending.entries.any fun e => e.2 = i then x.lose else x

theorem lostIn_rest {lv : sockets.Live} : (lostIn lv i x).rid = x.rid ∧ (lostIn lv i x).lv = x.lv ∧
    (lostIn lv i x).ws = x.ws ∧ (lostIn lv i x).stage = x.stage ∧ Goes x (lostIn lv i x) := by
  unfold lostIn
  split
  · exact ⟨lose_rest.1, lose_rest.2.1, lose_rest.2.2.1, lose_rest.2.2.2, goes_lose⟩
  · exact ⟨rfl, rfl, rfl, rfl, .refl x⟩

theorem loseAll_get {lv : sockets.Live} {calls : Dict Nat Call} {y : Call}
    (hy : (loseAll lv calls).get i = some y) : ∃ x, calls.get i = some x ∧ lostIn lv i x = y :=
  Option.map_eq_some_iff.mp (Dict.get_mapVal.symm.trans hy)

/-- A call of the object that is not done is completed. -/
theorem Good.lostIn_fut (hg : Good h) (hx : h.calls.get i = some x) (ho : x.stage.isOver = false) :
    (lostIn (h.objects x.lv) i x).fut = if x.fut.done then x.fut else .lost := by
  cases hd : x.fut.done with
  | true => exact lostIn_rest.2.2.2.2.fut hd
  | false =>
    unfold lostIn
    rw [if_pos (any_values.mpr ⟨_, hg.pend i x hx ho hd⟩), lose_fut, hd]

theorem cleanUp_registered (hg : Good h) (hc : h.conns.get j = some c)
    (hws : (h.objects c.lv).ws = some j) : Good (cleanUp j c h) ∧ Fair h (cleanUp j c h) := by
  unfold cleanUp
  simp only
  rw [if_pos hws]
  have hconns {q : Nat} : (leave j c (({ h with calls := loseAll (h.objects c.lv) h.calls } : Hub).setLive c.lv
      { h.objects c.lv with ws := none, pending := .empty })).conns.get q =
      if q = j then some { c with stage := .ended, isOpen := false } else h.conns.get q := setConn_get
  have hobj {q : Nat} : (leave j c (({ h with calls := loseAll (h.objects c.lv) h.calls } : Hub).setLive c.lv
      { h.objects c.lv with ws := none, pending := .empty })).objects q =
      if q = c.lv then { h.objects c.lv with ws := none, pending := .empty } else h.objects q :=
    setLive_objects
  have hcalls : (leave j c (({ h with calls := loseAll (h.objects c.lv) h.calls } : Hub).setLive c.lv
      { h.objects c.lv with ws := none, pending := .empty })).calls = loseAll (h.objects c.lv) h.calls := rfl
  have hfresh : (leave j c (({ h with calls := loseAll (h.objects c.lv) h.calls } : Hub).setLive c.lv
      { h.objects c.lv with ws := none, pending := .empty })).fresh = h.fresh := rfl
  have hlive : (leave j c (({ h with calls := loseAll (h.objects c.lv) h.calls } : Hub).setLive c.lv
      { h.objects c.lv with ws := none, pending := .empty })).live = h.live := rfl
  generalize leave j c (({ h with calls := loseAll (h.objects c.lv) h.calls } : Hub).setLive c.lv
    { h.objects c.lv with ws := none, pending := .empty }) = g at hconns hobj hcalls hfresh hlive ⊢
  have hwas {q l : Nat} (hw : Was h q l) : Was g q l := by
    obtain ⟨d, hd, hst, hlv⟩ := hw
    unfold Was
    rw [hconns]
    split
    · rename_i hq
      rw [hq] at hd
      cases hc.symm.trans hd
      exact ⟨_, rfl, .inr rfl, hlv⟩
    · exact ⟨d, hd, hst, hlv⟩
  -- Whoever waits for this connection uses the same object.
  have hsame {i : Nat} {x : Call} (hx : h.calls.get i = some x) (hw : x.stage.isWaiting = true) (hj : x.ws = j) :
      (lostIn (h.objects c.lv) i x).fut = if x.fut.done then x.fut else .lost := by
    obtain ⟨d, hd, -, hlv⟩ := hg.conn i x hx (not_over_of_waiting hw)
    rw [hj] at hd
    cases hc.symm.trans hd
    rw [hlv]
    exact hg.lostIn_fut hx (not_over_of_waiting hw)
  refine ⟨⟨⟨fun i k x y hx hy heq => ?_, fun q d hd hst i y hy hw hq => ?_⟩, fun i y hy ho hd => ?_,
    fun l rid i hp => ?_, fun i y hy ho => ?_, fun l q hq => ?_, fun i y hy ho => ?_, fun l hl => ?_⟩,
    fun i x hx => ?_, fun q d d' hd hne hd' hst i x hx hw hq => ?_⟩
  · rw [hcalls] at hx hy
    obtain ⟨x0, hx0, rfl⟩ := loseAll_get hx
    obtain ⟨y0, hy0, rfl⟩ := loseAll_get hy
    rw [lostIn_rest.1, lostIn_rest.1] at heq
    exact hg.law.ids i k x0 y0 hx0 hy0 heq
  · rw [hcalls] at hy
    obtain ⟨x, hx, rfl⟩ := loseAll_get hy
    rw [lostIn_rest.2.2.2.1] at hw
    rw [lostIn_rest.2.2.1] at hq
    rw [hconns] at hd
    split at hd
    · rename_i heq
      rw [hsame hx hw (hq.trans heq)]
      split
      · assumption
      · rfl
    · have hdone := hg.law.served q d hd hst i x hx hw hq
      rw [lostIn_rest.2.2.2.2.fut hdone]
      exact hdone
  · rw [hcalls] at hy
    obtain ⟨x, hx, rfl⟩ := loseAll_get hy
    rw [lostIn_rest.2.2.2.1] at ho
    have hxd : x.fut.done = false := by
      by_contra hne
      rw [lostIn_rest.2.2.2.2.fut (Bool.eq_true_of_not_eq_false hne)] at hd
      exact hne hd
    have hne : x.lv ≠ c.lv := by
      intro heq
      rw [← heq, hg.lostIn_fut hx ho, hxd] at hd
      cases hd
    rw [lostIn_rest.1, lostIn_rest.2.1, hobj, if_neg hne]
    exact hg.pend i x hx ho hxd
  · rw [hobj] at hp
    split at hp
    · cases hp
    · obtain ⟨x, hx, ho, hrid, hlv⟩ := hg.sound l rid i hp
      refine ⟨lostIn (h.objects c.lv) i x, ?_, ?_, ?_, ?_⟩
      · rw [hcalls]
        exact Dict.get_mapVal.trans (by rw [hx]; rfl)
      · rw [lostIn_rest.2.2.2.1]
        exact ho
      · rw [lostIn_rest.1]
        exact hrid
      · rw [lostIn_rest.2.1]
        exact hlv
  · rw [hcalls] at hy
    obtain ⟨x, hx, rfl⟩ := loseAll_get hy
    rw [lostIn_rest.2.2.2.1] at ho
    rw [lostIn_rest.2.2.1, lostIn_rest.2.1]
    exact hwas (hg.conn i x hx ho)
  · rw [hobj] at hq
    split at hq
    · cases hq
    · exact hwas (hg.owner l q hq)
  · rw [hcalls] at hy
    obtain ⟨x, hx, rfl⟩ := loseAll_get hy
    rw [lostIn_rest.2.2.2.1] at ho
    rw [lostIn_rest.2.1, hfresh]
    exact hg.low i x hx ho
  · rw [hlive] at hl
    rw [hfresh]
    exact hg.live l hl
  · refine ⟨lostIn (h.objects c.lv) i x, ?_, lostIn_rest.2.2.2.2⟩
    rw [hcalls]
    exact Dict.get_mapVal.trans (by rw [hx]; rfl)
  · refine ⟨lostIn (h.objects c.lv) i x, ?_, ?_⟩
    · rw [hcalls]
      exact Dict.get_mapVal.trans (by rw [hx]; rfl)
    · rw [hconns] at hd'
      split at hd'
      · rename_i heq
        exact hsame hx hw (hq.trans heq)
      · cases hd.symm.trans hd'
        exact absurd hst hne

/-- A handler ends with the clean-up, or nobody waits for it. -/
theorem cleanUp_both (hg : Good h) (hc : h.conns.get j = some c)
    (hfree : (h.objects c.lv).ws ≠ some j → Free h j) : Good (cleanUp j c h) ∧ Fair h (cleanUp j c h) := by
  by_cases hws : (h.objects c.lv).ws = some j
  · exact cleanUp_registered hg hc hws
  · unfold cleanUp
    simp only
    rw [if_neg hws]
    have hs := spares_leave hc (hfree hws)
    exact ⟨hg.spares hs, hs.fair⟩

theorem again_both (hg : Good h) (hc : h.conns.get j = some c)
    (hfree : c.isOpen = false → (h.objects c.lv).ws ≠ some j → Free h j) :
    Good (again j c h) ∧ Fair h (again j c h) := by
  unfold again
  split
  · have hs := spares_stage hc (s := .reading) rfl
    exact ⟨hg.spares hs, hs.fair⟩
  · rename_i ho
    exact cleanUp_both hg hc (hfree (Bool.eq_false_iff.mpr ho))

/-! ## The calls -/

def AllGo (h h' : Hub) : Prop :=
  ∀ i x, h.calls.get i = some x → ∃ y, h'.calls.get i = some y ∧ Goes x y

/-- Where no handler ends, the calls only have to go on. -/
theorem fair_of_go (hgo : AllGo h h')
    (hno : ∀ q d, h'.conns.get q = some d → d.stage = .ended → ∃ c, h.conns.get q = some c ∧ c.stage = .ended) :
    Fair h h' where
  goes := hgo
  released q d d' hd hne hd' hst := by
    obtain ⟨c, hc, hcs⟩ := hno q d' hd' hst
    cases hd.symm.trans hc
    exact absurd hcs hne

theorem allGo_setCall (hx : h.calls.get i = some x) (hg : Goes x y) : AllGo h (h.setCall i y) := by
  intro k z hz
  rw [setCall_get]
  split
  · rename_i hk
    rw [hk, hx] at hz
    cases hz
    exact ⟨y, rfl, hg⟩
  · exact ⟨z, hz, .refl z⟩

/-- A call that is not over changes its place, and waits for no handler that is. -/
theorem good_place (hg : Good h) (hx : h.calls.get i = some x) (ho : x.stage.isOver = false)
    {s : CallStage} (hs : s.isOver = false)
    (hws : s.isWaiting = true → ∀ c, h.conns.get x.ws = some c → c.stage ≠ .ended) :
    Good (h.setCall i { x with stage := s }) := by
  have hback {k : Nat} {z : Call} (hz : (h.setCall i { x with stage := s }).calls.get k = some z) :
      ∃ z0, h.calls.get k = some z0 ∧ z.rid = z0.rid ∧ z.lv = z0.lv ∧ z.ws = z0.ws ∧ z.fut = z0.fut ∧
        (z.stage.isOver = false → z0.stage.isOver = false) ∧
        (z.stage = z0.stage ∨ z.stage = s ∧ z.ws = x.ws) := by
    rw [setCall_get] at hz
    split at hz
    · rename_i hk
      cases hz
      exact ⟨x, by rw [hk]; exact hx, rfl, rfl, rfl, rfl, fun _ => ho, .inr ⟨rfl, rfl⟩⟩
    · exact ⟨z, hz, rfl, rfl, rfl, rfl, id, .inl rfl⟩
  refine ⟨⟨fun a b u v hu hv heq => ?_, fun q d hd hst k z hz hw hq => ?_⟩, fun k z hz hzo hd => ?_,
    fun l rid k hp => ?_, fun k z hz hzo => ?_, hg.owner, fun k z hz hzo => ?_, hg.live⟩
  · obtain ⟨u0, hu0, hur, -⟩ := hback hu
    obtain ⟨v0, hv0, hvr, -⟩ := hback hv
    exact hg.law.ids a b u0 v0 hu0 hv0 (by rw [← hur, ← hvr, heq])
  · obtain ⟨z0, hz0, -, -, hzw, hzf, -, hstage⟩ := hback hz
    rw [hzf]
    rcases hstage with hsame | ⟨hnew, hx'⟩
    · exact hg.law.served q d hd hst k z0 hz0 (by rw [← hsame]; exact hw) (by rw [← hzw]; exact hq)
    · rw [hnew] at hw
      exact absurd hst (hws hw d (by rw [← hx', hq]; exact hd))
  · obtain ⟨z0, hz0, hr, hl, -, hf, hov, -⟩ := hback hz
    rw [hr, hl]
    exact hg.pend k z0 hz0 (hov hzo) (by rw [← hf]; exact hd)
  · obtain ⟨z, hz, hzo, hr, hl⟩ := hg.sound l rid k hp
    by_cases hk : k = i
    · rw [hk] at hz ⊢
      cases hx.symm.trans hz
      exact ⟨{ x with stage := s }, by rw [setCall_get, if_pos rfl], hs, hr, hl⟩
    · exact ⟨z, by rw [setCall_get, if_neg hk]; exact hz, hzo, hr, hl⟩
  · obtain ⟨z0, hz0, -, hl, hw, -, hov, -⟩ := hback hz
    rw [hw, hl]
    exact hg.conn k z0 hz0 (hov hzo)
  · obtain ⟨z0, hz0, -, hl, -, -, hov, -⟩ := hback hz
    rw [hl]
    exact hg.low k z0 hz0 (hov hzo)

/-- A call leaves the table of what is pending, completed or over. -/
theorem good_erase (hg : Good h) (hx : h.calls.get i = some x) (ho : x.stage.isOver = false)
    (hrest : y.rid = x.rid ∧ y.lv = x.lv ∧ y.ws = x.ws)
    (hy : y.stage.isOver = true ∨ y.fut.done = true) {lv : sockets.Live}
    (hlv : lv = { h.objects x.lv with pending := (h.objects x.lv).pending.erase x.rid }) :
    Good ((h.setLive x.lv lv).setCall i y) := by
  obtain ⟨hyr, hyl, hyw⟩ := hrest
  subst hlv
  have hpend {l : Nat} {rid : String} {k : Nat} (hk : k ≠ i ∨ rid ≠ x.rid)
      (hp : (h.objects l).pending.get rid = some k) :
      ((((h.setLive x.lv { h.objects x.lv with pending := (h.objects x.lv).pending.erase x.rid }).setCall i
        y).objects l).pending.get rid) = some k := by
    simp only [setCall_objects, setLive_objects]
    split
    · rename_i heq
      rw [heq] at hp
      refine (Dict.get_erase_ne ?_).trans hp
      rintro rfl
      obtain ⟨z, hz, -, hzr, -⟩ := hg.sound _ _ _ hp
      rcases hk with hk | hk
      · exact hk (hg.law.ids k i z x hz hx hzr)
      · exact hk rfl
    · exact hp
  have hget {k : Nat} : ((h.setLive x.lv { h.objects x.lv with
      pending := (h.objects x.lv).pending.erase x.rid }).setCall i y).calls.get k =
      if k = i then some y else h.calls.get k := setCall_get
  refine ⟨⟨fun a b u v hu hv heq => ?_, fun q d hd hst k z hz hw hq => ?_⟩, fun k z hz hzo hd => ?_,
    fun l rid k hp => ?_, fun k z hz hzo => ?_, fun l q hq => ?_, fun k z hz hzo => ?_, hg.live⟩
  · rw [hget] at hu hv
    have hid {a : Nat} {u : Call} (hu : (if a = i then some y else h.calls.get a) = some u) :
        ∃ u0, h.calls.get a = some u0 ∧ u.rid = u0.rid := by
      split at hu
      · rename_i ha
        cases hu
        exact ⟨x, by rw [ha]; exact hx, hyr⟩
      · exact ⟨u, hu, rfl⟩
    obtain ⟨u0, hu0, hur⟩ := hid hu
    obtain ⟨v0, hv0, hvr⟩ := hid hv
    exact hg.law.ids a b u0 v0 hu0 hv0 (by rw [← hur, ← hvr, heq])
  · rw [hget] at hz
    split at hz
    · cases hz
      rcases hy with hy | hy
      · rw [not_over_of_waiting hw] at hy
        cases hy
      · exact hy
    · exact hg.law.served q d hd hst k z hz hw hq
  · rw [hget] at hz
    split at hz
    · cases hz
      rcases hy with hy | hy
      · rw [hzo] at hy
        cases hy
      · rw [hd] at hy
        cases hy
    · rename_i hk
      exact hpend (.inl hk) (hg.pend k z hz hzo hd)
  · have hold : (h.objects l).pending.get rid = some k ∧ ¬ (l = x.lv ∧ rid = x.rid) := by
      simp only [setCall_objects, setLive_objects] at hp
      split at hp
      · rename_i heq
        by_cases hr : rid = x.rid
        · rw [hr, Dict.get_erase_self] at hp
          cases hp
        · rw [heq]
          rw [Dict.get_erase_ne hr] at hp
          exact ⟨hp, fun hboth => hr hboth.2⟩
      · rename_i hne
        exact ⟨hp, fun hboth => hne hboth.1⟩
    obtain ⟨z, hz, hzo, hzr, hzl⟩ := hg.sound l rid k hold.1
    refine ⟨z, ?_, hzo, hzr, hzl⟩
    rw [hget, if_neg]
    · exact hz
    · rintro rfl
      cases hx.symm.trans hz
      exact hold.2 ⟨hzl.symm, hzr.symm⟩
  · rw [hget] at hz
    split at hz
    · cases hz
      rw [hyw, hyl]
      exact hg.conn i x hx ho
    · exact hg.conn k z hz hzo
  · simp only [setCall_objects, setLive_objects] at hq
    split at hq
    · rename_i heq
      rw [heq]
      exact hg.owner _ q hq
    · exact hg.owner l q hq
  · rw [hget] at hz
    split at hz
    · cases hz
      rw [hyl]
      exact hg.low i x hx ho
    · exact hg.low k z hz hzo

theorem complete_both (hg : Good h) (l : Nat) (m : Json) :
    Good (complete l m h) ∧ AllGo h (complete l m h) := by
  unfold complete
  simp only
  split
  · exact ⟨hg, fun i x hx => ⟨x, hx, .refl x⟩⟩
  · rename_i i hp
    obtain ⟨x, hx, ho, hrid, rfl⟩ := hg.sound l _ i hp
    rw [show (h.setLive x.lv _).calls = h.calls from rfl, hx, ← hrid]
    refine ⟨good_erase hg hx ho ?_ (.inr get_done) rfl, ?_⟩
    · exact ⟨get_rest.1, get_rest.2.1, get_rest.2.2.1⟩
    · exact allGo_setCall (h := h.setLive x.lv _) hx (goes_get hrid)

theorem finish_both (hg : Good h) (hx : h.calls.get i = some x) (ho : x.stage.isOver = false) (a : Answer) :
    Good (finish i x a h) ∧ AllGo h (finish i x a h) :=
  ⟨good_erase (y := { x with stage := .finished a }) hg hx ho ⟨rfl, rfl, rfl⟩ (.inl rfl) rfl,
    allGo_setCall (h := h.setLive x.lv _) hx (goes_stage ho)⟩

theorem spares_lock (h : Hub) (l : Nat) (o : Option Nat) :
    Spares h (h.setLive l { h.objects l with lock := o }) := spares_setLive rfl fun _ => .inl

/-- A new call with an id of its own. -/
theorem good_new (hg : Good h) (hnew : h.calls.get i = none)
    (hfresh : ∀ k z, h.calls.get k = some z → z.rid ≠ x.rid) (hx : x.stage.isWaiting = false)
    (hlive : x.stage.isOver = false → Was h x.ws x.lv ∧ x.lv < h.fresh)
    {h' : Hub} (hcalls : h'.calls = h.calls) (hconns : h'.conns = h.conns)
    (hws : ∀ l, (h'.objects l).ws = (h.objects l).ws)
    (hpend : ∀ l rid, (h'.objects l).pending.get rid =
      if l = x.lv ∧ rid = x.rid ∧ x.stage.isOver = false then some i else (h.objects l).pending.get rid)
    (hrest : h'.live = h.live ∧ h'.fresh = h.fresh) : Good (h'.setCall i x) := by
  have hget {k : Nat} : (h'.setCall i x).calls.get k = if k = i then some x else h.calls.get k := by
    rw [setCall_get, hcalls]
  have hwas {j l : Nat} (hw : Was h j l) : Was (h'.setCall i x) j l := by
    unfold Was
    rw [setCall_conns, hconns]
    exact hw
  have hne {k : Nat} {z : Call} (hz : h.calls.get k = some z) : k ≠ i := by
    rintro rfl
    rw [hnew] at hz
    cases hz
  refine ⟨⟨fun a b u v hu hv heq => ?_, fun q d hd hst k z hz hw hq => ?_⟩, fun k z hz hzo hd => ?_,
    fun l rid k hp => ?_, fun k z hz hzo => ?_, fun l q hq => ?_, fun k z hz hzo => ?_, fun l hl => ?_⟩
  · rw [hget] at hu hv
    split at hu <;> split at hv
    · rename_i ha hb
      exact ha.trans hb.symm
    · cases hu
      exact absurd heq.symm (hfresh b v hv)
    · cases hv
      exact absurd heq (hfresh a u hu)
    · exact hg.law.ids a b u v hu hv heq
  · rw [hget] at hz
    rw [setCall_conns, hconns] at hd
    split at hz
    · cases hz
      rw [hx] at hw
      cases hw
    · exact hg.law.served q d hd hst k z hz hw hq
  · rw [hget] at hz
    rw [setCall_objects, hpend]
    split at hz
    · rename_i hk
      cases hz
      rw [if_pos ⟨rfl, rfl, hzo⟩, hk]
    · rw [if_neg fun hboth => hfresh k z hz hboth.2.1]
      exact hg.pend k z hz hzo hd
  · rw [setCall_objects, hpend] at hp
    rw [hget]
    split at hp
    · rename_i hboth
      cases hp
      rw [if_pos rfl]
      exact ⟨x, rfl, hboth.2.2, hboth.2.1.symm, hboth.1.symm⟩
    · obtain ⟨z, hz, hzo, hr, hl⟩ := hg.sound l rid k hp
      rw [if_neg (hne hz)]
      exact ⟨z, hz, hzo, hr, hl⟩
  · rw [hget] at hz
    split at hz
    · cases hz
      exact hwas (hlive hzo).1
    · exact hwas (hg.conn k z hz hzo)
  · rw [setCall_objects, hws] at hq
    exact hwas (hg.owner l q hq)
  · rw [hget] at hz
    have hlow : (h'.setCall i x).fresh = h.fresh := hrest.2
    rw [hlow]
    split at hz
    · cases hz
      exact (hlive hzo).2
    · exact hg.low k z hz hzo
  · have hlive' : (h'.setCall i x).live = h.live := hrest.1
    have hlow : (h'.setCall i x).fresh = h.fresh := hrest.2
    rw [hlive'] at hl
    rw [hlow]
    exact hg.live l hl

theorem allGo_new (hnew : h.calls.get i = none) (hcalls : h'.calls = h.calls) : AllGo h (h'.setCall i x) := by
  intro k z hz
  refine ⟨z, ?_, .refl z⟩
  rw [setCall_get, hcalls, if_neg]
  · exact hz
  · rintro rfl
    rw [hnew] at hz
    cases hz

theorem call_both (hg : Good h) (hnew : h.calls.get i = none) {rid : String}
    (hfresh : ∀ k z, h.calls.get k = some z → z.rid ≠ rid) :
    Good (call i rid h) ∧ AllGo h (call i rid h) := by
  have hover (a : Answer) : Good (h.setCall i ⟨.finished a, rid, 0, 0, .waits⟩) ∧
      AllGo h (h.setCall i ⟨.finished a, rid, 0, 0, .waits⟩) := by
    refine ⟨good_new (x := ⟨.finished a, rid, 0, 0, .waits⟩) hg hnew hfresh rfl (fun ho => ?_) rfl rfl
      (fun _ => rfl) (fun l r => ?_) ⟨rfl, rfl⟩, allGo_new hnew rfl⟩
    · cases ho
    · rw [if_neg]
      rintro ⟨-, -, ho⟩
      cases ho
  unfold call
  cases hl : h.live with
  | none => exact hover _
  | some l =>
    simp only
    cases hws : (h.objects l).ws with
    | none => exact hover _
    | some j =>
      simp only
      split
      · exact hover _
      · have hwas := hg.owner l j hws
        have hlow := hg.live l hl
        -- The call is pending under its id, with the lock or without it.
        have hput (lv : sockets.Live) (s : CallStage) (hw : s.isWaiting = false) (ho : s.isOver = false)
            (hlw : lv.ws = (h.objects l).ws) (hlp : lv.pending = (h.objects l).pending.set rid i) :
            Good ((h.setLive l lv).setCall i ⟨s, rid, l, j, .waits⟩) := by
          refine good_new hg hnew hfresh hw (fun _ => ⟨hwas, hlow⟩) rfl rfl (fun q => ?_) (fun q r => ?_)
            ⟨rfl, rfl⟩
          · rw [setLive_objects]
            split
            · rename_i hq
              rw [hlw, hq]
            · rfl
          · rw [setLive_objects]
            by_cases hq : q = l
            · rw [if_pos hq, hq, hlp]
              simp only [Dict.get_set, ho, and_true, true_and]
            · simp only [hq, false_and, if_false]
        split
        · exact ⟨hput _ _ rfl rfl hws.symm rfl, allGo_new hnew rfl⟩
        · exact ⟨hput _ _ rfl rfl hws.symm rfl, allGo_new hnew rfl⟩

/-! ## Every move -/

theorem free_of_served {m : Move} (hs : served h m = true) (ha : abandons h m = some j) : Free h j := by
  intro i x hx hw hj
  unfold served at hs
  rw [Bool.and_eq_true, ha] at hs
  have := List.all_eq_true.mp hs.2 _ (Dict.mem_entries.mpr hx)
  simpa [hw, hj] using this

theorem registered_iff (hc : h.conns.get j = some c) :
    isRegistered h j = decide ((h.objects c.lv).ws = some j) := by
  unfold isRegistered
  rw [hc]
  rfl

theorem isOpen_eq (hc : h.conns.get j = some c) : isOpen h j = c.isOpen := by
  unfold isOpen
  rw [hc]
  rfl

/-- Without the clean-up, a closed socket that is not registered is abandoned. -/
theorem abandoned (hc : h.conns.get j = some c) (ho : c.isOpen = false) (hws : (h.objects c.lv).ws ≠ some j) :
    (isOpen h j || isRegistered h j) = false := by
  rw [isOpen_eq hc, registered_iff hc, ho, decide_eq_false hws]
  rfl

theorem both_of_spares (hg : Good h) (hs : Spares h h') : Good h' ∧ Fair h h' := ⟨hg.spares hs, hs.fair⟩

theorem both_at {p : Stage → Bool} {f : Conn → Hub} (hg : Good h)
    (hf : ∀ c, h.conns.get j = some c → p c.stage = true → Good (f c) ∧ Fair h (f c)) :
    Good (h.at j p f) ∧ Fair h (h.at j p f) := by
  unfold Hub.at
  split
  · split
    · exact hf _ (by assumption) (by assumption)
    · exact both_of_spares hg (.refl h)
  · exact both_of_spares hg (.refl h)

theorem both_atCall {p : CallStage → Bool} {f : Call → Hub} (hg : Good h)
    (hf : ∀ x, h.calls.get i = some x → p x.stage = true → Good (f x) ∧ AllGo h (f x)) :
    Good (h.atCall i p f) ∧ AllGo h (h.atCall i p f) := by
  unfold Hub.atCall
  split
  · split
    · exact hf _ (by assumption) (by assumption)
    · exact ⟨hg, fun i x hx => ⟨x, hx, .refl x⟩⟩
  · exact ⟨hg, fun i x hx => ⟨x, hx, .refl x⟩⟩

theorem received_both (hg : Good h) (hc : h.conns.get j = some c) {msg : Message}
    (hs : served h (.received j msg) = true) :
    Good (received j c msg h) ∧ Fair h (received j c msg h) := by
  cases msg with
  | skipped =>
    refine again_both hg hc fun ho hws => free_of_served hs ?_
    simp only [abandons, abandoned hc ho hws, Bool.false_eq_true, if_false]
  | ignored => exact both_of_spares hg (spares_stage hc rfl)
  | sample raw cpus => exact both_of_spares hg (spares_stage hc rfl)
  | res m =>
    obtain ⟨hgood, hgo⟩ := complete_both hg c.lv m
    have hconns := (sameNet_complete h c.lv m).conns
    have hrest : Spares (complete c.lv m h) ((complete c.lv m h).setConn j { c with stage := .yielding }) :=
      spares_stage (by rw [hconns]; exact hc) rfl
    refine ⟨hgood.spares hrest, fair_of_go hgo fun q d hd hst => ?_⟩
    simp only [received, setConn_get, hconns] at hd
    split at hd
    · cases hd
      cases hst
    · exact ⟨d, hd, hst⟩
  | hello host manage =>
    have hrow : Spares h { h with row := h.row.map fun (r : Row) => { r with host := some host } } :=
      ⟨rfl, fun _ _ => rfl, fun _ _ => .inl, fun _ _ => id, fun _ c hc hs => .inl ⟨c, hc, hs⟩, le_rfl,
        fun _ => .inl⟩
    have hmode : Spares h (({ h with row := h.row.map fun (r : Row) => { r with host := some host } } :
        Hub).setLive c.lv { h.objects c.lv with manage := manage }) :=
      hrow.trans (spares_setLive rfl fun _ => .inl)
    refine both_of_spares hg (hmode.trans ?_)
    exact spares_stage (by exact hc) rfl

/-- The moves of the calls end no handler. -/
theorem fair_ofCall {m : Move} (hm : m.ofCall = true) (hgo : AllGo h (h.move m)) : Fair h (h.move m) :=
  fair_of_go hgo fun q d hd hst => ⟨d, by rw [← (sameNet_move hm).conns]; exact hd, hst⟩

/-- A call gets on from one of its places to the next. -/
theorem place_both (hg : Good h) (hx : h.calls.get i = some x) (ho : x.stage.isOver = false)
    {s : CallStage} (hs : s.isOver = false)
    (hws : s.isWaiting = true → ∀ c, h.conns.get x.ws = some c → c.stage ≠ .ended) (o : Option Nat) :
    Good ((h.setLive x.lv { h.objects x.lv with lock := o }).setCall i { x with stage := s }) ∧
      AllGo h ((h.setLive x.lv { h.objects x.lv with lock := o }).setCall i { x with stage := s }) :=
  ⟨good_place (hg.spares (spares_lock h x.lv o)) hx ho hs hws,
    allGo_setCall (h := h.setLive x.lv _) hx (goes_stage ho)⟩

theorem calls_move (hg : Good h) {m : Move} (hm : m.ofCall = true) (hs : served h m = true) :
    Good (h.move m) ∧ AllGo h (h.move m) := by
  have hstay : Good h ∧ AllGo h h := ⟨hg, fun i x hx => ⟨x, hx, .refl x⟩⟩
  unfold Hub.move
  cases m with
  | call i rid =>
    simp only
    split
    · rename_i hnew
      refine call_both hg (Option.isNone_iff_eq_none.mp hnew) fun k z hz => ?_
      unfold served at hs
      rw [Bool.and_eq_true] at hs
      have := List.all_eq_true.mp hs.1 _ (Dict.mem_entries.mpr hz)
      simpa using this
    · exact hstay
  | locked i =>
    refine both_atCall hg fun x hx hst => ?_
    have ho : x.stage.isOver = false := by
      cases hxs : x.stage <;> rw [hxs] at hst <;> first | rfl | cases hst
    unfold sockets.locked
    simp only
    split
    · refine place_both hg hx ho rfl (fun hw => ?_) _
      cases hw
    · exact hstay
  | sent i =>
    refine both_atCall hg fun x hx hst => ?_
    have ho : x.stage.isOver = false := by
      cases hxs : x.stage <;> rw [hxs] at hst <;> first | rfl | cases hst
    unfold sockets.sent
    split
    · rename_i c hc
      split
      · exact hstay
      · rename_i hne
        refine place_both hg hx ho rfl (fun _ d hd => ?_) none
        cases hc.symm.trans hd
        exact hne
    · exact hstay
  | unsent i =>
    refine both_atCall hg fun x hx hst => ?_
    have ho : x.stage.isOver = false := by
      cases hxs : x.stage <;> rw [hxs] at hst <;> first | rfl | cases hst
    exact finish_both (hg.spares (spares_lock h x.lv none)) hx ho cut
  | timedOut i => exact both_atCall hg fun x hx hst => finish_both hg hx (not_over_of_waiting hst) _
  | resumed i =>
    refine both_atCall hg fun x hx hst => ?_
    unfold sockets.resumed
    split
    · exact hstay
    · exact finish_both hg hx (not_over_of_waiting hst) _
    · exact finish_both hg hx (not_over_of_waiting hst) _
  | _ => cases hm

theorem good_move (hg : Good h) (m : Move) (hs : served h m = true) :
    Good (h.move m) ∧ Fair h (h.move m) := by
  by_cases hcall : m.ofCall = true
  · obtain ⟨hgood, hgo⟩ := calls_move hg hcall hs
    exact ⟨hgood, fair_ofCall hcall hgo⟩
  have hstay := both_of_spares hg (.refl h)
  have hplain {h' : Hub} (hc : h'.calls = h.calls) (ho : h'.objects = h.objects) (hn : h'.conns = h.conns)
      (hf : h'.fresh = h.fresh) (hl : h'.live = h.live ∨ h'.live = none) : Good h' ∧ Fair h h' := by
    refine both_of_spares hg ⟨hc, fun l r => by rw [ho], fun l j hj => .inl (by rw [← ho]; exact hj),
      fun j l hw => ?_, fun q d hd hst => .inl ⟨d, by rw [← hn]; exact hd, hst⟩, hf.ge, fun l hlv => ?_⟩
    · unfold Was
      rw [hn]
      exact hw
    · rcases hl with hl | hl
      · exact .inl (hl.symm.trans hlv)
      · rw [hl] at hlv
        cases hlv
  unfold Hub.move
  cases m with
  | connect j secret =>
    simp only
    split
    · rename_i hnew
      refine both_of_spares hg (spares_setConn (fun l hw => ?_) fun he => ?_)
      · obtain ⟨d, hd, -⟩ := hw
        rw [hnew] at hd
        cases hd
      · cases he
    · exact hstay
  | accepted j raises =>
    exact both_at hg fun c hc hst => both_of_spares hg (spares_accepted hg hc (of_decide_eq_true hst) raises)
  | dropped j =>
    refine both_at hg fun c hc hst => both_of_spares hg (spares_leave hc (hg.free hc ?_))
    simp only [Bool.or_eq_true, decide_eq_true_eq] at hst
    rcases hst with (hst | hst) | hst <;> rw [hst] <;> exact ⟨rfl, by simp⟩
  | refused j =>
    refine both_at hg fun c hc hst => both_of_spares hg (spares_leave hc (hg.free hc ?_))
    rw [of_decide_eq_true hst]
    exact ⟨rfl, by simp⟩
  | replaced j raises =>
    refine both_at hg fun c hc hst => both_of_spares hg (spares_register hg hc ?_ raises)
    rw [of_decide_eq_true hst]
    exact ⟨rfl, by simp⟩
  | greeted j =>
    refine both_at hg fun c hc hst => ?_
    unfold sockets.greeted
    split
    · rename_i hp
      refine again_both hg hc fun ho hws => free_of_served hs ?_
      simp only [abandons, abandoned hc ho hws, Bool.and_false, Bool.false_eq_true, if_false]
    · rename_i hp
      refine both_of_spares hg (spares_leave hc (free_of_served hs ?_))
      simp only [abandons, Bool.eq_false_iff.mpr hp, Bool.false_and, Bool.false_eq_true, if_false]
  | ungreeted j =>
    exact both_at hg fun c hc _ => both_of_spares hg (spares_leave hc (free_of_served hs rfl))
  | received j msg => exact both_at hg fun c hc _ => received_both hg hc hs
  | woke j =>
    refine both_at hg fun c hc _ => again_both hg hc fun ho hws => free_of_served hs ?_
    simp only [abandons, abandoned hc ho hws, Bool.false_eq_true, if_false]
  | lost j =>
    refine both_at hg fun c hc _ => cleanUp_both hg hc fun hws => free_of_served hs ?_
    simp only [abandons, registered_iff hc, decide_eq_false hws, Bool.false_eq_true, if_false]
  | enroll k secret host =>
    simp only
    split
    · unfold sockets.enroll
      split
      · exact hstay
      · simp only
        split
        · rename_i q _
          have hrow : Spares h { h with row := some ⟨some secret, some host⟩ } :=
            ⟨rfl, fun _ _ => rfl, fun _ _ => .inl, fun _ _ => id, fun _ c hc hs => .inl ⟨c, hc, hs⟩, le_rfl,
              fun _ => .inl⟩
          have hs' := hrow.trans (spares_shut _ q)
          exact both_of_spares hg ⟨hs'.calls, hs'.pend, hs'.ws, hs'.was, hs'.ended, hs'.fresh, hs'.live⟩
        · exact hplain rfl rfl rfl rfl (.inl rfl)
    · exact hstay
  | enrolled k =>
    simp only
    split
    · exact hplain rfl rfl rfl rfl (.inl rfl)
    · exact hstay
  | delete k =>
    simp only
    split
    · unfold sockets.delete
      split
      · rename_i q _
        have hs' := spares_shut h q
        exact both_of_spares hg ⟨hs'.calls, hs'.pend, hs'.ws, hs'.was, hs'.ended, hs'.fresh, hs'.live⟩
      · exact hplain rfl rfl rfl rfl (.inr rfl)
    · exact hstay
  | deleted k =>
    simp only
    split
    · exact hplain rfl rfl rfl rfl (.inr rfl)
    · exact hstay
  | call i rid => exact absurd rfl hcall
  | locked i => exact absurd rfl hcall
  | sent i => exact absurd rfl hcall
  | unsent i => exact absurd rfl hcall
  | timedOut i => exact absurd rfl hcall
  | resumed i => exact absurd rfl hcall

/-- In every run in which each handler that ends completes what is pending, or
leaves nobody waiting, a reply completes only the call that drew its id, each call
completes once, and when a connection ends the calls sent over it are completed. -/
theorem served_keeps_law (ms : List Move) (hs : runs.Throughout Hub.move (fun h m => served h m) start ms) :
    runs.Throughout Hub.move (fun h m => Law h ∧ Fair h (h.move m)) start ms ∧
      Law (runs.final Hub.move start ms) := by
  have hstart : Good start := by
    refine ⟨⟨nofun, nofun⟩, nofun, nofun, nofun, nofun, nofun, nofun⟩
  have hall := runs.throughout_of_invariant (I := Good) (Q := fun h m => Law h ∧ Fair h (h.move m))
    (fun h m hI hP => ⟨(good_move hI m hP).1, hI.law, (good_move hI m hP).2⟩) hstart hs
  exact ⟨hall.1, hall.2.law⟩

/-! ## A call whose connection is replaced -/

/-- The agent connects, and a request goes out. -/
def asked : List Move :=
  connected "secret" ++ [.greeted 1, .received 1 (.hello "\x7b\x7d" true), .woke 1, .call 1 "a1", .sent 1]

theorem asked_law :
    runs.Throughout Hub.move (fun h m => Law h ∧ Fair h (h.move m)) start (asked ++ [.lost 1, .resumed 1]) ∧
      Law (runs.final Hub.move start (asked ++ [.lost 1, .resumed 1])) :=
  served_keeps_law _ (by decide +kernel)

def replacing : List Move :=
  asked ++ [.connect 2 (some "secret"), .accepted 2 false, .replaced 2 false, .greeted 2, .lost 1]

/-- The handler of the replaced connection is over, and the call waits on. -/
theorem replaced_call_waits : ¬ Law (runs.final Hub.move start replacing) := by
  intro hl
  have hcall : (runs.final Hub.move start replacing).calls.get 1 = some ⟨.waiting, "a1", 0, 1, .waits⟩ := by
    rfl
  have hconn : (runs.final Hub.move start replacing).conns.get 1 = some ⟨.ended, false, some "secret", 0⟩ := by
    decide +kernel
  have hdone := hl.served 1 _ hconn rfl 1 _ hcall rfl rfl
  cases hdone

end icsd_panel.completions

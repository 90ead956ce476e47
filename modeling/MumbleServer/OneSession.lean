import MumbleServer.LocalLogin

/-! # One connection, one session

A connection stores the session of its last login, and `OnClose` ends that one.  As long as no
login is granted while the stored session is still there, a connection never has two sessions, and
nothing of a session outlives its connection.

The invariant gives every session that is there to somebody who will see it through: either
`handleAuthenticate` still has it in its hands (`Handler.holds`), or the connection stores it and
`Close` has not passed the point where it takes up the stored session (`Phase.Awaits`).  The
CryptSetup decides between the two: it is only queued while `done` is open, so a `Close` that
comes later finds the session stored. -/

namespace MumbleServer.LocalLogin

open List Option UserManager Registry Fades

/-! ### Who sees a session through -/

/-- The session that `handleAuthenticate` still has to set up or to end. -/
def Handler.holds : Handler → Option SessionRef
  | .numbering ref | .stamping ref | .binding ref | .beginning ref | .backing ref
  | .undoing ref | .ciphering ref | .aborting ref | .leaving ref | .removing ref => some ref
  | _ => none

/-- The session that the connection stores by now. -/
def Handler.stored : Handler → Option SessionRef
  | .binding ref | .beginning ref | .ciphering ref | .syncing ref | .committing ref => some ref
  | _ => none

/-- The session that is not bound yet, or not any more. -/
def Handler.unbound : Handler → Option SessionRef
  | .numbering ref | .stamping ref | .binding ref | .undoing ref | .removing ref => some ref
  | _ => none

attribute [local simp] Handler.holds Handler.stored Handler.unbound

/-- `Close` is going to end the session. -/
def Phase.Awaits (r : Registry) (x : SessionRef) : Phase → Prop
  | .live | .marked | .ended | .closed => True
  | .reading sid => sid = x.sessionID
  | .leaving ref => ref = x
  | .removing ref => ref = x ∧ r.snapshot x = none
  | .gone => False

section seated
variable (u : UserManager) (r : Registry) (mine : SessionRef → Prop)

/-- What holds of a connection and the sessions it obtained. -/
structure Seated (c : Seat) : Prop where
  own : ∀ x, c.handler.holds = some x ∨ c.handler.stored = some x → mine x
  stored : ∀ x, c.handler.stored = some x → c.session = x
  numbered : ∀ x, c.handler = .stamping x → c.session.sessionID = x.sessionID
  unbound : ∀ x, c.handler.unbound = some x → r.snapshot x = none
  accounted : ∀ x, mine x → Lives u r x → c.handler.holds = some x ∨
    (c.handler.holds = none ∧ c.session = x ∧ c.phase.Awaits r x)

/-- Nobody else gets a session back. -/
def Wanes (u u' : UserManager) (r r' : Registry) (x : SessionRef) : Prop :=
  (u.snapshotRef x = none → u'.snapshotRef x = none) ∧ (r.snapshot x = none → r'.snapshot x = none)

end seated

section seated
variable {u u' : UserManager} {r r' : Registry} {mine : SessionRef → Prop} {c : Seat}
variable {x : SessionRef} {h' : Handler}

theorem Wanes.lives (h : Wanes u u' r r' x) (hl : Lives u' r' x) : Lives u r x := by
  rcases hl with hl | hl
  · exact .inl fun hnone => hl (h.1 hnone)
  · exact .inr fun hnone => hl (h.2 hnone)

theorem Wanes.awaits (h : Wanes u u' r r' x) {p : Phase} (hp : p.Awaits r x) : p.Awaits r' x := by
  cases p with
  | removing ref => exact ⟨hp.1, h.2 hp.2⟩
  | live | marked | ended | closed | reading sid | leaving ref | gone => exact hp

theorem Handler.holds_of_unbound {h : Handler} (hx : h.unbound = some x) : h.holds = some x := by
  cases h with
  | numbering | stamping | binding | undoing | removing => exact hx
  | idle | checking | counting | asking | adding | beginning | backing | ciphering | syncing
  | committing | activating | aborting | leaving => cases hx

section
variable (h : Seated u r mine c)
include h

theorem Seated.wane (hw : ∀ x, mine x → Wanes u u' r r' x) : Seated u' r' mine c where
  __ := h
  unbound := fun x hx =>
    (hw x (h.own x (.inl (Handler.holds_of_unbound hx)))).2 (h.unbound x hx)
  accounted := by
    intro x hx hl
    rcases h.accounted x hx ((hw x hx).lives hl) with hh | ⟨hh, hs, hp⟩
    · exact .inl hh
    · exact .inr ⟨hh, hs, (hw x hx).awaits hp⟩

/-- `handleAuthenticate` has no session in its hands, or one that is gone, and is done with it. -/
theorem Seated.rest (hh : ∀ x, c.handler.holds = some x → ¬ Lives u r x)
    (hholds : h'.holds = none) (hstored : h'.stored = none) (hunbound : h'.unbound = none)
    (hnum : ∀ x, h' ≠ .stamping x) : Seated u r mine { c with handler := h' } where
  own := by rw [hholds, hstored]; simp
  stored := by rw [hstored]; simp
  numbered := fun x hx => absurd hx (hnum x)
  unbound := by rw [hunbound]; simp
  accounted := by
    intro x hx hl
    rcases h.accounted x hx hl with hx' | ⟨-, hs, hp⟩
    · exact absurd hl (hh x hx')
    · exact .inr ⟨hholds, hs, hp⟩

theorem Seated.carry (hx : c.handler.holds = some x)
    (hholds : h'.holds = some x) {session : SessionRef}
    (hstored : ∀ y, h'.stored = some y → y = x ∧ session = y)
    (hnum : ∀ y, h' = .stamping y → session.sessionID = y.sessionID)
    (hunbound : ∀ y, h'.unbound = some y → r.snapshot y = none) :
    Seated u r mine { c with handler := h', session := session } where
  own := by
    rintro y (hy | hy)
    · exact h.own y (.inl (hx.trans (hholds.symm.trans hy)))
    · exact h.own y (.inl ((hstored y hy).1 ▸ hx))
  stored := fun y hy => (hstored y hy).2
  numbered := hnum
  unbound := hunbound
  accounted := by
    intro y hy hl
    rcases h.accounted y hy hl with hy' | ⟨hnone, -⟩
    · exact .inl (hholds.trans (hx.symm.trans hy'))
    · rw [hx] at hnone
      cases hnone

/-- The CryptSetup is queued: the session is left to the connection, which is not closed. -/
theorem Seated.handOver (hx : c.handler = .ciphering x)
    (hp : c.phase.accepts = true) : Seated u r mine { c with handler := .syncing x } where
  own := by
    rintro y (hy | hy) <;> cases hy
    exact h.own x (.inl (by rw [hx, Handler.holds]))
  stored := by
    rintro y ⟨⟩
    exact h.stored x (by rw [hx, Handler.stored])
  numbered := by simp
  unbound := by simp
  accounted := by
    intro y hy hl
    have hphase : c.phase.Awaits r y := by
      cases hc : c.phase with
      | live | marked => trivial
      | ended | closed | reading sid | leaving ref | removing ref | gone =>
        rw [hc] at hp
        cases hp
    rcases h.accounted y hy hl with hy' | ⟨hnone, hs, -⟩
    · rw [hx, Handler.holds] at hy'
      cases hy'
      exact .inr ⟨rfl, h.stored x (by rw [hx, Handler.stored]), hphase⟩
    · exact .inr ⟨rfl, hs, hphase⟩

section
variable (hx : c.handler.stored = some x) (hn : c.handler.holds = none)
include hx hn

theorem Seated.goOn (hholds : h'.holds = none)
    (hstored : ∀ y, h'.stored = some y → y = x) (hunbound : h'.unbound = none)
    (hnum : ∀ y, h' ≠ .stamping y) : Seated u r mine { c with handler := h' } where
  own := by
    rintro y (hy | hy)
    · rw [hholds] at hy
      cases hy
    · exact hstored y hy ▸ h.own x (.inr hx)
  stored := fun y hy => (hstored y hy).symm ▸ h.stored x hx
  numbered := fun y hy => absurd hy (hnum y)
  unbound := by rw [hunbound]; simp
  accounted := by
    intro y hy hl
    rcases h.accounted y hy hl with hy' | ⟨-, hs, hp⟩
    · rw [hn] at hy'
      cases hy'
    · exact .inr ⟨hholds, hs, hp⟩

theorem Seated.takeBack : Seated u r mine { c with handler := .aborting x } where
  own := by
    rintro y (hy | hy) <;> cases hy
    exact h.own x (.inr hx)
  stored := by simp
  numbered := by simp
  unbound := by simp
  accounted := by
    intro y hy hl
    rcases h.accounted y hy hl with hy' | ⟨-, hs, -⟩
    · rw [hn] at hy'
      cases hy'
    · exact .inl (congrArg some ((h.stored x hx).symm.trans hs))

end

theorem Seated.phase {p : Phase}
    (hp : ∀ x, mine x → Lives u r x → c.session = x → c.phase.Awaits r x → p.Awaits r x) :
    Seated u r mine { c with phase := p } where
  __ := h
  accounted := by
    intro x hx hl
    rcases h.accounted x hx hl with hh | ⟨hh, hs, ha⟩
    · exact .inl hh
    · exact .inr ⟨hh, hs, hp x hx hl hs ha⟩

end

variable {mine' : SessionRef → Prop}

theorem Seated.obtain (hmine : ∀ y, mine' y ↔ y = x ∨ mine y) (hdead : ∀ y, mine y → ¬ Lives u r y)
    (hnone : r.snapshot x = none) : Seated u r mine' { c with handler := .numbering x } where
  own := by
    rintro y (hy | hy) <;> cases hy
    exact (hmine x).mpr (.inl rfl)
  stored := by simp
  numbered := by simp
  unbound := by
    rintro y ⟨⟩
    exact hnone
  accounted := by
    intro y hy hl
    rcases (hmine y).mp hy with rfl | hy
    · exact .inl rfl
    · exact absurd hl (hdead y hy)

theorem Seated.congr (h : Seated u r mine c) (hmine : ∀ y, mine' y ↔ mine y) :
    Seated u r mine' c := by
  obtain rfl : mine' = mine := funext fun y => propext (hmine y)
  exact h

end seated

/-! ### All connections -/

/-- The tables fit together, and every session that a connection obtained has somebody who sees
it through. -/
structure Inv (u : UserManager) (r : Registry) (seats : List Seat)
    (obtained : List (ℕ × SessionRef)) : Prop where
  fit : Fit u r
  indexed : u.Indexed
  fresh : ∀ k x, (k, x) ∈ obtained → x.generation ≤ u.generation
  valid : ∀ k x, (k, x) ∈ obtained → x.valid = true
  apart : ∀ k k' x, (k, x) ∈ obtained → (k', x) ∈ obtained → k = k'
  owned : ∀ k x, (k, x) ∈ obtained → k < seats.length
  seated : ∀ k c, seats[k]? = some c → Seated u r (fun x => (k, x) ∈ obtained) c

variable {u' : UserManager} {r' : Registry}

section inv
variable {u : UserManager} {r : Registry} {seats : List Seat} {obtained : List (ℕ × SessionRef)}
  {k : ℕ} {c : Seat} (h : Inv u r seats obtained)
include h

theorem Inv.fade (hf : Fades u u' r r') : Inv u' r' seats obtained where
  __ := hf
  fresh := fun k x hx => (h.fresh k x hx).trans hf.generation
  __ := h
  seated := fun k c hk => (h.seated k c hk).wane fun x hx =>
    ⟨hf.record x (h.fresh k x hx), hf.binding x (h.fresh k x hx)⟩

theorem Inv.set {c' : Seat} (hs : Seated u r (fun x => (k, x) ∈ obtained) c') :
    Inv u r (seats.set k c') obtained where
  __ := h
  owned := by simpa using h.owned
  seated := by
    intro j d hj
    rcases getElem?_set_cases hj with ⟨rfl, rfl⟩ | ⟨-, hj⟩
    · exact hs
    · exact h.seated j d hj

theorem Inv.connect : Inv u r (seats ++ [({} : Seat)]) obtained where
  __ := h
  owned := by
    intro k x hx
    have := h.owned k x hx
    rw [length_append]
    omega
  seated := by
    intro j d hj
    rcases getElem?_concat_cases hj with ⟨rfl, rfl⟩ | hj
    · -- Nothing was obtained on the new connection.
      have hnone : ∀ x, (seats.length, x) ∉ obtained := fun x hx =>
        absurd (h.owned _ x hx) (Nat.lt_irrefl _)
      exact ⟨by simp, by simp, by simp,
        by simp, fun x hx => absurd hx (hnone x)⟩
    · exact h.seated j d hj

theorem Inv.bind (hk : seats[k]? = some c) {x : SessionRef} (hc : c.handler = .binding x)
    (hb : r.bind x localEdgeID = .ok r') :
    Inv u r' (seats.set k { c with handler := .beginning x }) obtained := by
  have hseat := h.seated k c hk
  have hmine : (k, x) ∈ obtained := hseat.own x (.inl (by rw [hc, Handler.holds]))
  have hnone : r.snapshot x = none := hseat.unbound x (by rw [hc, Handler.unbound])
  have hother : ∀ y, y ≠ x → r'.snapshot y = r.snapshot y := fun y hy =>
    (snapshot_bind hb hnone y).trans (if_neg hy)
  refine ⟨⟨h.fit.users, valid_bind h.fit.registry hb hnone, ?_⟩, h.indexed, h.fresh,
    h.valid, h.apart, by simpa using h.owned, ?_⟩
  · obtain ⟨-, rfl⟩ := bind_cases hb hnone
    intro e he
    rcases mem_cons.mp he with rfl | he
    · exact h.fresh k x hmine
    · exact h.fit.bindings e he
  · intro j d hj
    rcases getElem?_set_cases hj with ⟨rfl, rfl⟩ | ⟨hne, hj⟩
    · refine ⟨?_, ?_, by simp, by simp, ?_⟩
      · rintro y (hy | hy) <;> cases hy <;> exact hmine
      · rintro y ⟨⟩
        exact hseat.stored x (by rw [hc, Handler.stored])
      · intro y hy hl
        by_cases hyx : y = x
        · exact .inl (congrArg some hyx.symm)
        · have hl' : Lives u r y := by rwa [Lives, ← hother y hyx]
          have hold := hseat.accounted y hy hl'
          rw [hc] at hold
          rcases hold with hold | ⟨hold, -⟩
          · exact absurd (some.inj hold).symm hyx
          · cases hold
    · exact (h.seated j d hj).wane fun y hy =>
        ⟨id, fun hn => (hother y (by rintro rfl; exact hne (h.apart _ _ _ hy hmine))).trans hn⟩

theorem Inv.add (hk : seats[k]? = some c) (hn : c.handler.holds = none)
    (hdead : ¬ Lives u r c.session) {w stored : User} (ha : u.add w = (u', some stored)) :
    Inv u' r (seats.set k { c with handler := .numbering stored.ref })
      ((k, stored.ref) :: obtained) := by
  have hf := Fades.add h.fit h.indexed ha
  have hnew : ∀ j, (j, stored.ref) ∉ obtained := fun j hj =>
    fresh_of_add ha (h.fresh j _ hj) rfl
  obtain ⟨hgen, hnext⟩ := generation_of_add ha
  have hvalid : stored.ref.valid = true := by
    have hpos := (unused_of_add ha h.fit.users).2
    have hg : stored.sessionGeneration ≠ 0 := hgen ▸ Nat.succ_ne_zero _
    simp [SessionRef.valid, User.ref, hg, Nat.pos_iff_ne_zero.mp hpos]
  have hkept := h.fade hf
  refine ⟨hkept.fit, hkept.indexed, ?_, ?_, ?_, ?_, ?_⟩
  · intro j x hx
    rcases mem_cons.mp hx with heq | hx
    · cases heq
      exact (hgen.trans hnext.symm).le
    · exact hkept.fresh j x hx
  · intro j x hx
    rcases mem_cons.mp hx with heq | hx
    · cases heq
      exact hvalid
    · exact h.valid j x hx
  · intro j j' x hx hx'
    rcases mem_cons.mp hx with heq | hx <;> rcases mem_cons.mp hx' with heq' | hx'
    · exact (congrArg Prod.fst heq).trans (congrArg Prod.fst heq').symm
    · cases heq
      exact absurd hx' (hnew j')
    · cases heq'
      exact absurd hx (hnew j)
    · exact h.apart j j' x hx hx'
  · intro j x hx
    rw [length_set]
    rcases mem_cons.mp hx with heq | hx
    · cases heq
      exact (List.getElem?_eq_some_iff.mp hk).1
    · exact h.owned j x hx
  · intro j d hj
    rcases getElem?_set_cases hj with ⟨rfl, rfl⟩ | ⟨hne, hj⟩
    · -- What the connection obtained before and is still there would be what it stores.
      have hmine : ∀ y, (j, y) ∈ (j, stored.ref) :: obtained ↔ y = stored.ref ∨ (j, y) ∈ obtained :=
        fun y => by simp
      refine Seated.obtain hmine ?_ (h.fit.unbound ha)
      intro y hy hl
      have hl' : Lives u r y :=
        Wanes.lives ⟨hf.record y (h.fresh j y hy), hf.binding y (h.fresh j y hy)⟩ hl
      rcases (h.seated j c hk).accounted y hy hl' with hy' | ⟨-, hs, -⟩
      · rw [hn] at hy'
        cases hy'
      · exact hdead (hs ▸ hl')
    · exact (hkept.seated j d hj).congr fun y => by simp [hne]

end inv

/-! ### The steps -/

namespace Conn
variable (c : Conn) (m : Message)

theorem enqueue_eq_some {c c' : Conn} {m : Message} (h : c.enqueue m = some c') :
    c'.toSeat = c.toSeat ∧ c.phase.accepts = true := by
  unfold enqueue at h
  split_ifs at h with hroom
  cases h
  exact ⟨rfl, hroom.1⟩

@[simp] theorem offer_toSeat : (c.offer m).toSeat = c.toSeat := by
  unfold offer
  cases h : c.enqueue m with
  | none => rfl
  | some c' => exact (enqueue_eq_some h).1

@[simp] theorem reject_toSeat (type : RejectType) (reason : String) :
    (c.reject type reason).toSeat = { c.toSeat with handler := .idle } := by
  have hoffer : (c.reject type reason).toSeat =
      { (c.offer (.reject type reason)).toSeat with handler := .idle } := rfl
  rw [hoffer, offer_toSeat]

@[simp] theorem write_toSeat : c.write.toSeat = c.toSeat := by
  unfold write
  split
  · rfl
  · split <;> rfl

theorem close_toSeat : c.close.toSeat = c.toSeat ∨
    c.phase = .live ∧ c.close.toSeat = { c.toSeat with phase := .marked } := by
  unfold close
  split_ifs with h
  · exact .inl rfl
  · exact .inr ⟨not_not.mp (not_or.mp h).2, rfl⟩

theorem close_handler : c.close.handler = c.handler := by
  unfold close
  split <;> rfl

end Conn

theorem Seated.close {u : UserManager} {r : Registry} {mine : SessionRef → Prop} {c : Conn}
    (h : Seated u r mine c.toSeat) : Seated u r mine c.close.toSeat := by
  rcases c.close_toSeat with heq | ⟨-, heq⟩
  · exact heq ▸ h
  · rw [heq]
    exact h.phase fun _ _ _ _ _ => trivial

namespace System
variable {s : System} {k : ℕ} {c : Conn}

def Inv (s : System) : Prop :=
  LocalLogin.Inv s.users s.registry (s.conns.map Conn.toSeat) s.obtained

theorem seat_of_conn (hk : s.conns[k]? = some c) :
    (s.conns.map Conn.toSeat)[k]? = some c.toSeat := by
  rw [getElem?_map, hk, map_some]

theorem inv_setConn
    (h : LocalLogin.Inv s.users s.registry ((s.conns.map Conn.toSeat).set k c.toSeat) s.obtained) :
    (s.setConn k c).Inv := by
  show LocalLogin.Inv s.users s.registry ((s.conns.set k c).map Conn.toSeat) s.obtained
  rwa [map_set]

section steps
variable (h : s.Inv) (hk : s.conns[k]? = some c)
variable {x : SessionRef}
include h hk

theorem Inv.seat : Seated s.users s.registry (fun x => (k, x) ∈ s.obtained) c.toSeat :=
  h.seated k _ (seat_of_conn hk)

variable {c' : Conn}

/-- The seat of a connection changes, and the tables fade. -/
theorem Inv.turn (hf : Fades s.users u' s.registry r')
    (hs : Seated u' r' (fun x => (k, x) ∈ s.obtained) c.toSeat →
      Seated u' r' (fun x => (k, x) ∈ s.obtained) c'.toSeat) :
    ({ s with users := u', registry := r' }.setConn k c').Inv := by
  have hkept : LocalLogin.Inv u' r' (s.conns.map Conn.toSeat) s.obtained := h.fade hf
  exact inv_setConn (hkept.set (hs (hkept.seated k _ (seat_of_conn hk))))

theorem Inv.move (hs : Seated s.users s.registry (fun x => (k, x) ∈ s.obtained) c.toSeat →
      Seated s.users s.registry (fun x => (k, x) ∈ s.obtained) c'.toSeat) : (s.setConn k c').Inv :=
  h.turn hk (refl h.fit h.indexed) hs

section handler
variable {h₀ h' : Handler} (hc : c.handler = h₀)
include hc

theorem Inv.reject (hn : h₀.holds = none) (type : RejectType) (reason : String) :
    (s.setConn k (c.reject type reason)).Inv := by
  refine h.move hk fun hseat => ?_
  rw [Conn.reject_toSeat]
  exact hseat.rest (by rw [hc, hn]; simp) rfl rfl rfl (by simp)

theorem Inv.prepare (hn : h₀.holds = none) (hholds : h'.holds = none) (hstored : h'.stored = none)
    (hunbound : h'.unbound = none) (hnum : ∀ x, h' ≠ .stamping x) :
    (s.setConn k { c with handler := h' }).Inv :=
  h.move hk fun hseat => hseat.rest (by rw [hc, hn]; simp) hholds hstored hunbound hnum

theorem Inv.carry (hx : h₀.holds = some x) (hholds : h'.holds = some x)
    (hstored : ∀ y, h'.stored = some y → y = x ∧ c.session = y) (hnum : ∀ y, h' ≠ .stamping y)
    (hf : Fades s.users u' s.registry r')
    (hunbound : ∀ y, h'.unbound = some y → r'.snapshot y = none) :
    ({ s with users := u', registry := r' }.setConn k { c with handler := h' }).Inv :=
  h.turn hk hf fun hseat =>
    hseat.carry (hc ▸ hx) hholds hstored (fun y hy => absurd hy (hnum y)) hunbound

/-- The session in the hands of `handleAuthenticate` is not bound any more, and its record is
removed. -/
theorem Inv.finish (hx : h₀.holds = some x) (hunbound : h₀.unbound = some x)
    (hc' : c'.toSeat = { c.toSeat with handler := .idle }) :
    ({ s with users := (s.users.removeIfGeneration x).1 }.setConn k c').Inv := by
  have hnone : s.registry.snapshot x = none := (h.seat hk).unbound x (hc ▸ hunbound)
  refine h.turn hk (remove h.fit h.indexed x) fun hseat => ?_
  rw [hc']
  refine hseat.rest ?_ rfl rfl rfl (by simp)
  intro y hy hl
  obtain rfl : x = y := some.inj (hx.symm.trans (hc ▸ hy))
  rcases hl with hl | hl
  · exact hl (by rw [snapshotRef_remove, if_pos rfl])
  · exact hl hnone

/-- What `sendSync` and the commit come to is left to the connection, or taken back. -/
theorem Inv.sync (hx : h₀.stored = some x) (hn : h₀.holds = none) :
    (s.setConn k { c with handler := .aborting x }).Inv :=
  h.move hk fun hseat => hseat.takeBack (hc ▸ hx) (hc ▸ hn)

end handler

/-! ### The phases of `handleAuthenticate` -/

section phases
variable {ok : Bool}

theorem Inv.adding {u : User} (hc : c.handler = .adding u) (hdead : ¬ s.Live c.session) :
    (s.advance k c ok).Inv := by
  simp only [System.advance, hc]
  rcases ha : s.users.add u with ⟨users, _ | stored⟩
  · refine h.turn hk (add h.fit h.indexed ha) fun hseat => ?_
    rw [Conn.reject_toSeat]
    exact hseat.rest (by rw [hc]; simp) rfl rfl rfl (by simp)
  · exact inv_setConn (LocalLogin.Inv.add h (seat_of_conn hk) (by rw [hc]; rfl) hdead ha)

theorem Inv.numbering (hc : c.handler = .numbering x) : (s.advance k c ok).Inv := by
  simp only [System.advance, hc]
  refine h.move hk fun hseat => hseat.carry (x := x) (hc ▸ rfl) rfl (by simp) ?_ ?_
  · rintro y ⟨⟩
    rfl
  · exact fun y hy => hseat.unbound y (hc ▸ hy)

theorem Inv.stamping (hc : c.handler = .stamping x) : (s.advance k c ok).Inv := by
  simp only [System.advance, hc]
  refine h.move hk fun hseat => hseat.carry (x := x) (hc ▸ rfl) rfl ?_ (by simp) ?_
  · rintro y ⟨⟩
    have hid : c.session.sessionID = x.sessionID := hseat.numbered x hc
    rw [hid]
    exact ⟨rfl, rfl⟩
  · exact fun y hy => hseat.unbound y (hc ▸ hy)

theorem Inv.binding (hc : c.handler = .binding x) : (s.advance k c ok).Inv := by
  simp only [System.advance, hc]
  cases hb : s.registry.bind x localEdgeID with
  | error e =>
    exact h.carry hk hc rfl rfl (by simp) (by simp) (refl h.fit h.indexed)
      (fun y hy => (h.seat hk).unbound y (hc ▸ hy))
  | ok r => exact inv_setConn (LocalLogin.Inv.bind h (seat_of_conn hk) hc hb)

theorem Inv.beginning (hc : c.handler = .beginning x) : (s.advance k c ok).Inv := by
  have hs : c.session = x := (h.seat hk).stored x (hc ▸ rfl)
  have hrefl := refl h.fit h.indexed
  simp only [System.advance, hc]
  split_ifs
  · exact Inv.carry (s := { s with sinks := k :: s.sinks }) h hk hc rfl rfl (by simp [hs])
      (by simp) hrefl (by simp)
  · exact h.carry hk hc rfl rfl (by simp) (by simp) hrefl (by simp)

theorem Inv.ciphering (hc : c.handler = .ciphering x) : (s.advance k c ok).Inv := by
  simp only [System.advance, hc]
  cases he : c.enqueue .cryptSetup with
  | none => exact h.carry hk hc rfl rfl (by simp) (by simp) (refl h.fit h.indexed) (by simp)
  | some c' =>
    obtain ⟨hsame, haccepts⟩ := Conn.enqueue_eq_some he
    refine h.move hk fun hseat => ?_
    show Seated _ _ _ { c'.toSeat with handler := .syncing x }
    rw [hsame]
    exact hseat.handOver hc haccepts

theorem Inv.committing (hc : c.handler = .committing x) : (s.advance k c ok).Inv := by
  simp only [System.advance, hc]
  split
  · rename_i r hr
    exact h.turn hk (commit h.fit h.indexed hr) fun hseat =>
      hseat.goOn (x := x) (hc ▸ rfl) (hc ▸ rfl) rfl (by simp) rfl (by simp)
  · exact h.sync hk hc rfl rfl

theorem Inv.aborting (hc : c.handler = .aborting x) : (s.advance k c ok).Inv := by
  simp only [System.advance, hc]
  refine h.move hk fun hseat => ?_
  have hclosed : Seated s.users s.registry (fun x => (k, x) ∈ s.obtained)
      (if ok then c.close else c).toSeat := by
    split
    · exact hseat.close
    · exact hseat
  refine hclosed.carry (x := x) ?_ rfl (by simp) (by simp) (by simp)
  have hh : (if ok then c.close else c).handler = .aborting x := by
    split
    · rw [c.close_handler, hc]
    · exact hc
  rw [hh, Handler.holds]

end phases

/-- Every access of `handleAuthenticate` keeps the invariant, if the stored session is gone when a
new one is added. -/
theorem Inv.advance (hcare : ∀ u, c.handler = .adding u → ¬ s.Live c.session) (ok : Bool) :
    (s.advance k c ok).Inv := by
  cases hc : c.handler with
  | adding u => exact h.adding hk hc (hcare u hc)
  | numbering x => exact h.numbering hk hc
  | stamping x => exact h.stamping hk hc
  | binding x => exact h.binding hk hc
  | beginning x => exact h.beginning hk hc
  | ciphering x => exact h.ciphering hk hc
  | committing x => exact h.committing hk hc
  | aborting x => exact h.aborting hk hc
  | idle =>
    simp only [System.advance, hc]
    exact h
  | checking a | counting a =>
    simp only [System.advance, hc]
    split_ifs
    all_goals
      first
        | exact h.reject hk hc rfl _ _
        | exact h.prepare hk hc rfl rfl rfl rfl (by simp)
  | asking answer =>
    cases answer <;> simp only [System.advance, hc]
    case allowed u => exact h.prepare hk hc rfl rfl rfl rfl (by simp)
    all_goals exact h.reject hk hc rfl _ _
  | backing x | leaving x =>
    simp only [System.advance, hc]
    refine h.carry hk hc rfl rfl (by simp) (by simp) (unbind h.fit h.indexed x) ?_
    rintro y ⟨⟩
    rw [snapshot_unbind h.fit.registry, if_pos rfl]
  | undoing x =>
    simp only [System.advance, hc]
    exact h.finish hk hc rfl rfl (c.reject_toSeat _ _)
  | removing x =>
    simp only [System.advance, hc]
    exact h.finish hk hc rfl rfl rfl
  | syncing x =>
    simp only [System.advance, hc]
    split_ifs
    · exact h.move hk fun hseat =>
        hseat.goOn (x := x) (hc ▸ rfl) (hc ▸ rfl) rfl (by simp) rfl (by simp)
    · exact h.sync hk hc rfl rfl
  | activating x =>
    simp only [System.advance, hc]
    exact h.move hk fun hseat => hseat.rest (by rw [hc]; simp) rfl rfl rfl (by simp)

theorem Inv.release : (s.release k c).Inv := by
  unfold System.release
  cases hp : c.phase with
  | live | gone => exact h
  | marked | ended => exact h.move hk fun hseat => hseat.phase fun _ _ _ _ _ => trivial
  | closed =>
    refine h.move hk fun hseat => hseat.phase fun x _ _ hs _ => ?_
    exact congrArg SessionRef.sessionID hs
  | reading sid =>
    refine h.move hk fun hseat => hseat.phase fun x hx _ hs ha => ?_
    rw [hp] at ha
    have hsid : sid = x.sessionID := ha
    have hx' : SessionRef.mk sid c.session.generation = x := by rw [hsid, hs]
    rw [hx', if_pos (h.valid k x hx)]
    rfl
  | leaving ref =>
    refine h.turn hk (unbind h.fit h.indexed ref) fun hseat =>
      hseat.phase fun x _ _ _ ha => ?_
    rw [hp] at ha
    have hx : ref = x := ha
    exact ⟨hx, by rw [hx, snapshot_unbind h.fit.registry, if_pos rfl]⟩
  | removing ref =>
    refine h.turn hk (remove h.fit h.indexed ref) fun hseat =>
      hseat.phase fun x _ hl _ ha => ?_
    rw [hp] at ha
    obtain ⟨rfl, hnone⟩ : ref = x ∧ s.registry.snapshot x = none := ha
    rcases hl with hl | hl
    · exact absurd (by rw [snapshotRef_remove, if_pos rfl]) hl
    · exact absurd hnone hl

theorem Inv.dispatch (p : Packet) : (s.dispatch k c p).Inv := by
  unfold System.dispatch
  by_cases hidle : c.running = false ∨ c.handler ≠ .idle
  · rw [if_pos hidle]
    exact h
  · have hc : c.handler = .idle := not_not.mp (not_or.mp hidle).2
    rw [if_neg hidle]
    cases p with
    | version => exact h
    | authenticate a =>
      dsimp only [Conn.authenticate]
      split_ifs
      · exact h.reject hk hc rfl _ _
      · exact h.reject hk hc rfl _ _
      · exact h.prepare hk hc rfl rfl rfl rfl (by simp)
    | ping | other reply =>
      dsimp only
      split_ifs
      · exact h
      · exact h.move hk fun hseat => (c.offer_toSeat _).symm ▸ hseat

theorem Inv.act (a : ConnAction)
    (hcare : ∀ u, c.handler = .adding u → ¬ s.Live c.session) : (s.act k c a).Inv := by
  cases a with
  | dispatch p => exact h.dispatch hk p
  | advance ok => exact h.advance hk hcare ok
  | release => exact h.release hk
  | write => exact h.move hk fun hseat => c.write_toSeat.symm ▸ hseat
  | deliver =>
    dsimp only [System.act]
    split_ifs
    · exact h.move hk fun hseat => (c.offer_toSeat _).symm ▸ hseat
    · exact h
  | kill | flushed expired =>
    dsimp only [System.act]
    split_ifs
    · exact h.move hk fun hseat => hseat.close
    · exact h
  | hangup =>
    dsimp only [System.act]
    split_ifs
    · exact h
    · exact h.move hk fun hseat => hseat.close

end steps

/-- Whatever others do to the tables, no session comes back. -/
theorem Inv.tableAct (h : s.Inv) (a : TableAction) : (s.tableAct a).Inv := by
  cases a with
  | beginClose ref =>
    dsimp only [System.tableAct]
    split
    · rename_i r e hr
      exact h.fade (beginClose h.fit h.indexed hr)
    · exact h
  | commit ref =>
    dsimp only [System.tableAct]
    split
    · rename_i r hr
      exact h.fade (commit h.fit h.indexed hr)
    · exact h
  | unbind ref => exact h.fade (unbind h.fit h.indexed ref)
  | remove ref => exact h.fade (remove h.fit h.indexed ref)
  | update sid fn => exact h.fade (update h.fit h.indexed sid fun _ => rfl)
  | identity ref check fn => exact h.fade (identity h.fit h.indexed ref check fn)
  | login u edge =>
    dsimp only [System.tableAct]
    rcases ha : s.users.add u with ⟨users, _ | stored⟩
    · exact h.fade (add h.fit h.indexed ha)
    · have hadd := add h.fit h.indexed ha
      dsimp only
      cases hb : s.registry.bind stored.ref edge with
      | error e => exact h.fade (hadd.trans (remove hadd.fit hadd.indexed stored.ref))
      | ok r => exact h.fade (login h.fit h.indexed ha hb)

theorem Inv.start (maxUsers : ℕ) : (start maxUsers).Inv where
  fit := ⟨valid_new maxUsers, nodup_nil, by simp [System.start]⟩
  indexed := indexed_new maxUsers
  fresh := by simp [System.start]
  valid := by simp [System.start]
  apart := by simp [System.start]
  owned := by simp [System.start]
  seated := by simp [System.start]

/-- When `handleAuthenticate` is about to add a user, the session that the connection stores has
neither a record nor a binding. -/
def FreshLogin (s : System) : Event → Prop
  | .conn k _ =>
    match s.conns[k]? with
    | some c =>
      match c.handler with
      | .adding _ => ¬ s.Live c.session
      | _ => True
    | none => True
  | _ => True

instance (s : System) (e : Event) : Decidable (s.FreshLogin e) := by
  unfold FreshLogin
  split
  · split
    · split <;> infer_instance
    · infer_instance
  · infer_instance

theorem Inv.step (s : System) (e : Event) (h : s.Inv) (hfresh : s.FreshLogin e) :
    (s.step e).Inv := by
  cases e with
  | connect =>
    show LocalLogin.Inv _ _ ((s.conns ++ [({} : Conn).offer .version]).map Conn.toSeat) _
    rw [map_append]
    exact LocalLogin.Inv.connect h
  | table a => exact h.tableAct a
  | conn k a =>
    unfold System.step
    dsimp only
    cases hk : s.conns[k]? with
    | none => exact h
    | some c =>
      refine h.act hk a fun u hc => ?_
      simpa only [FreshLogin, hk, hc] using hfresh

/-- At most one session of every connection is there. -/
def OneSession (s : System) : Prop :=
  ∀ k x y, (k, x) ∈ s.obtained → (k, y) ∈ s.obtained → s.Live x → s.Live y → x = y

/-- Nothing is left of the sessions of a connection: no record, no binding, and no name, which
means that a name that stands for the session ID is that of a later session. -/
def Forgotten (s : System) (k : ℕ) : Prop :=
  ∀ x, (k, x) ∈ s.obtained → ¬ s.Live x ∧ ∀ name, s.users.named name = some x.sessionID →
    ∃ u, s.users.snapshot x.sessionID = some u ∧ u.name = name ∧ u.ref ≠ x

theorem Inv.oneSession (h : s.Inv) : s.OneSession := by
  intro k x y hx hy hlx hly
  obtain ⟨c, hc⟩ : ∃ c, (s.conns.map Conn.toSeat)[k]? = some c :=
    ⟨_, getElem?_eq_getElem (h.owned k x hx)⟩
  rcases (h.seated k c hc).accounted x hx hlx with hx' | ⟨hn, hx', -⟩ <;>
    rcases (h.seated k c hc).accounted y hy hly with hy' | ⟨hn', hy', -⟩
  · exact some.inj (hx'.symm.trans hy')
  · rw [hn'] at hx'
    cases hx'
  · rw [hn] at hy'
    cases hy'
  · exact hx'.symm.trans hy'

theorem Inv.forgotten (h : s.Inv) {k : ℕ} {c : Conn} (hk : s.conns[k]? = some c)
    (hp : c.phase = .gone) (hidle : c.handler = .idle) : s.Forgotten k := by
  intro x hx
  have hdead : ¬ s.Live x := by
    intro hl
    rcases (h.seat hk).accounted x hx hl with hx' | ⟨-, -, ha⟩
    · rw [hidle] at hx'
      cases hx'
    · rw [hp] at ha
      exact ha
  refine ⟨hdead, fun name hn => ?_⟩
  obtain ⟨u, hu, hname⟩ := h.indexed.of_named hn
  refine ⟨u, hu, hname, ?_⟩
  rintro rfl
  exact hdead (.inl (by rw [snapshotRef_eq_some.mpr ⟨hu, rfl⟩]; simp))

end System

/-- **One connection, one session**: in every run in which no login is granted to a connection
whose stored session is still there, a connection has at most one session at any time, and when
its `Close` and `handleAuthenticate` are done nothing of its sessions is left. -/
theorem one_session_per_connection (maxUsers : ℕ) (events : List Event)
    (h : Along System.step System.FreshLogin (.start maxUsers) events) :
    (run System.step (.start maxUsers) events).OneSession ∧
      ∀ k c, (run System.step (.start maxUsers) events).conns[k]? = some c → c.phase = .gone →
        c.handler = .idle → (run System.step (.start maxUsers) events).Forgotten k := by
  have hinv : (run System.step (.start maxUsers) events).Inv :=
    run_inv System.Inv.step (System.Inv.start maxUsers) h
  exact ⟨hinv.oneSession, fun k c hk hp hidle => hinv.forgotten hk hp hidle⟩

def guest (name : String) : User := ⟨⟨7, 0, false, "", false, false, 0, 0, [], []⟩, 0, 0, 0, name⟩

/-- A client authenticates and everything goes well. -/
def login (name : String) : List Event :=
  .conn 0 (.dispatch (.authenticate { username := name, answer := .allowed (guest name) })) ::
    List.replicate 12 (.conn 0 (.advance true))

/-- The client hangs up, and `Close` does its work. -/
def leave : List Event := .conn 0 .hangup :: List.replicate 6 (.conn 0 .release)

theorem one_session_per_connection_visit :
    Along System.step System.FreshLogin (.start 10) (.connect :: login "alice" ++ leave) ∧
    (run System.step (.start 10) (.connect :: login "alice")).Live ⟨1, 1⟩ ∧
    (run System.step (.start 10) (.connect :: login "alice" ++ leave)).Forgotten 0 :=
  have h : Along System.step System.FreshLogin (.start 10) (.connect :: login "alice" ++ leave) := by
    decide +kernel
  have hk : (run System.step (.start 10) (.connect :: login "alice" ++ leave)).conns[0]? =
      some { phase := .gone, session := ⟨1, 1⟩, state := .closed, running := false,
             queue := [.version, .cryptSetup],
             log := [.queued .version, .created ⟨1, 1⟩, .queued .cryptSetup] } := by
    decide +kernel
  ⟨h, by decide +kernel, (one_session_per_connection 10 _ h).2 0 _ hk rfl rfl⟩

/-- A client authenticates a second time under another name: both sessions are there, and the first
one outlives the connection with its record, its binding and its name. -/
theorem second_login_leaks_session :
    ¬(run System.step (.start 10) (.connect :: login "alice" ++ login "bob")).OneSession ∧
    ((run System.step (.start 10) (.connect :: login "alice" ++ login "bob" ++ leave)).conns.map
      fun c => (c.phase, c.handler)) = [(.gone, .idle)] ∧
    (run System.step (.start 10)
      (.connect :: login "alice" ++ login "bob" ++ leave)).users.named "alice" = some 1 ∧
    ¬(run System.step (.start 10)
      (.connect :: login "alice" ++ login "bob" ++ leave)).Forgotten 0 := by
  refine ⟨fun h => ?_, by decide +kernel, by decide +kernel, fun h => ?_⟩
  · have heq := h 0 ⟨1, 1⟩ ⟨2, 2⟩ (by decide +kernel) (by decide +kernel) (by decide +kernel)
      (by decide +kernel)
    cases heq
  · exact absurd (h ⟨1, 1⟩ (by decide +kernel)).1 (by decide +kernel)

end MumbleServer.LocalLogin

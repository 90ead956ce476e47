import MumbleServer.AuthRollback
import MumbleServer.SessionIDs

/-! # A login alone

`handleAuthenticate` is one function in `ServerOps.login`, and a goroutine among others in
`LocalLogin`, `SessionIDs` and `AuthRollback`, each time with what the results there are about.
When nothing else runs and nothing fails outside the tables, all of them leave the same users and
the same registry.  So do the cleanups that follow. -/

namespace MumbleServer

open LocalLogin (localEdgeID)

/-- The users and the registry after a login that nothing disturbs. -/
def admitted (m : UserManager) (r : Registry) (u : User) : UserManager × Registry :=
  match m.add u with
  | (m, none) => (m, r)
  | (m, some stored) =>
    match r.bind stored.ref localEdgeID with
    | .error _ => ((m.removeIfGeneration stored.ref).1, r)
    | .ok r => (m, r.modify stored.ref fun e => { e with state := .active })

/-- `sendSync` sends what is left to the session. -/
theorem AuthRollback.Login.run_sending {s : Login} {ref : SessionRef} {left : ℕ}
    (hs : s.stage = .sending ref left) (hsend : s.tables.sends ref true = true) :
    run step s (List.replicate (left + 1) (.advance true)) =
      { s with stage := .committing ref } := by
  induction left generalizing s with
  | zero => simp [step, advance, hs, hsend]
  | succ left ih =>
    rw [List.replicate_succ, run_cons, step, advance, hs]
    dsimp only
    rw [if_pos hsend]
    exact ih rfl hsend

section alone
variable {m m' : UserManager} {r r' : Registry} {u stored : User} (hfit : Fit m r)
include hfit

/-- A session that was just added and bound is syncing and can be made Active. -/
theorem Fit.commit (ha : m.add u = (m', some stored))
    (hb : r.bind stored.ref localEdgeID = .ok r') :
    (r'.snapshot stored.ref).any (fun e => decide (e.state = .syncing)) = true ∧
      r'.commitActive stored.ref =
        .ok (r'.modify stored.ref fun e => { e with state := .active }) := by
  have hsnap := (Registry.snapshot_bind hb (hfit.unbound ha) stored.ref).trans (if_pos rfl)
  rw [Registry.commitActive, hsnap]
  exact ⟨rfl, rfl⟩

theorem ServerOps.login_alone {cfg : Config} {s : Site} (hm : s.users = m)
    (hr : s.state.registry = r) :
    ((login cfg s u localEdgeID).1.users, (login cfg s u localEdgeID).1.state.registry) =
      admitted m r { u with channelID := joinChannelFor cfg s u.userID } := by
  unfold login admitted
  rw [hm, hr]
  rcases ha : m.add { u with channelID := joinChannelFor cfg s u.userID } with ⟨m', _ | stored⟩
  · rw [← hr]
    rfl
  · dsimp only
    cases hb : r.bind stored.ref localEdgeID with
    | error e =>
      rw [← hr]
      rfl
    | ok r' =>
      dsimp only
      rw [(hfit.commit ha hb).2]
      rfl

theorem SessionIDs.login_alone :
    run (fun (x : UserManager × Registry × Task) ok => advance x.1 x.2.1 ok x.2.2)
      (m, r, .adding u localEdgeID) [true, true, true, true] =
    ((admitted m r u).1, (admitted m r u).2, .done) := by
  unfold admitted
  rcases ha : m.add u with ⟨m', _ | stored⟩
  · simp [advance, ha]
  · cases hb : r.bind stored.ref localEdgeID with
    | error e => simp [advance, ha, hb]
    | ok r' =>
      obtain ⟨hsync, hc⟩ := hfit.commit ha hb
      simp [advance, ha, hb, hsync, hc]

section localLogin
open LocalLogin

attribute [local simp] List.replicate System.step System.act System.advance System.setConn
  Conn.reject Conn.enqueue System.isSyncing

theorem LocalLogin.login_alone {s : System} (hm : s.users = m) (hr : s.registry = r) {k : ℕ}
    {c : Conn} (hk : s.conns[k]? = some c) (hc : c.handler = .adding u)
    (hopen : c.phase.accepts = true ∧ c.queue.length < Connection.queueSize) :
    let now := run System.step s (List.replicate 9 (.conn k (.advance true)))
    (now.users, now.registry) = admitted m r u := by
  obtain ⟨hlt, rfl⟩ := List.getElem?_eq_some_iff.mp hk
  unfold admitted
  rcases ha : m.add u with ⟨m', _ | stored⟩
  · simp [hlt, hc, ha, hm, hr]
  · cases hb : r.bind stored.ref localEdgeID with
    | error e => simp [hlt, hc, ha, hb, hm, hr]
    | ok r' =>
      obtain ⟨hsync, hcommit⟩ := hfit.commit ha hb
      simp [hlt, hc, ha, hb, hsync, hcommit, hm, hr, hopen]

end localLogin

section authRollback
open AuthRollback

attribute [local simp] List.replicate Login.step Login.advance Tables.remove Tables.sends
  Tables.syncing

theorem AuthRollback.login_alone {s : Login} (hm : s.tables.users = m) (hr : s.tables.registry = r)
    (hs : s.stage = .adding u) (hopen : s.phase.accepts = true) (hq : s.tables.queues = []) :
    ∃ n, let now := run Login.step s (List.replicate n (.advance true))
      (now.stage = .refused ∨ now.stage = .admitted) ∧
        (now.tables.users, now.tables.registry) = admitted m r u := by
  unfold admitted
  rcases ha : m.add u with ⟨m', _ | stored⟩
  · exact ⟨1, by simp [hs, hm, hr, ha]⟩
  · cases hb : r.bind stored.ref localEdgeID with
    | error e => exact ⟨5, by simp [hs, hm, hr, ha, hb]⟩
    | ok r' =>
      obtain ⟨hsync, hcommit⟩ := hfit.commit ha hb
      refine ⟨7 + (s.initial + 1) + 2, ?_⟩
      rw [List.replicate_add, List.replicate_add, run_append, run_append]
      obtain ⟨x, hx⟩ : ∃ x, run Login.step s (List.replicate 7 (.advance true)) = x := ⟨_, rfl⟩
      have hall : x.tables.users = m' ∧ x.tables.registry = r' ∧ x.tables.queues = [stored.ref] ∧
          x.stage = .sending stored.ref s.initial := by
        rw [← hx]
        simp [hs, hm, hr, ha, hb, hq, hsync, hopen]
      obtain ⟨rfl, rfl, hqueue, hsending⟩ := hall
      rw [hx, Login.run_sending hsending (by simp [hsync, hqueue])]
      simp [hb, hsync, hcommit, hqueue]

end authRollback

end alone

/-! ### A cleanup alone -/

theorem SessionIDs.disconnect_alone {s : ServerOps.Site} {ref : SessionRef}
    (hvalid : ref.valid = true) :
    run (fun (x : UserManager × Registry × Task) ok => advance x.1 x.2.1 ok x.2.2)
      (s.users, s.state.registry, .leaving ref) [true, true] =
    ((ServerOps.disconnect s ref).users, (ServerOps.disconnect s ref).state.registry, .done) := by
  unfold ServerOps.disconnect ServerOps.unregisterConn ServerOps.detach
  rw [if_neg (by simp [hvalid])]
  simp only [run_cons, run_nil, advance, unregisterConn]
  cases s.state.registry.closeAndUnbind ref <;> rfl

/-- `enqueue` access by access, and nothing between, is the one step of `LocalLogin`. -/
theorem LocalLogin.enqueue_alone {s : Connection.Conn Message} {c : Conn} {i : ℕ} {m : Message}
    (hi : s.routines[i]? = some (.checking m)) (hq : s.queue.map Prod.snd = c.queue)
    (hdone : s.doneCloses = if c.phase.accepts then 0 else 1) :
    let now := run Connection.Conn.step s (List.replicate 4 (.advance i false))
    now.queue.map Prod.snd = (c.offer m).queue ∧
      (now.routines[i]? = some .queued ↔ (c.enqueue m).isSome) := by
  obtain ⟨hlt, hi⟩ := List.getElem?_eq_some_iff.mp hi
  have hlen := congrArg List.length hq
  rw [List.length_map] at hlen
  by_cases ha : c.phase.accepts <;> by_cases hroom : c.queue.length < Connection.queueSize <;>
    simp [List.replicate, Connection.Conn.step, Connection.Conn.move, Connection.Conn.put,
      Connection.Conn.panicked, Conn.offer, Conn.enqueue, hlt, hi, hdone, hlen, hq, ha, hroom]

end MumbleServer

import MumbleServer.HomeRights
import MumbleServer.VoiceRouting
import MumbleServer.Whereabouts

/-! # How users get into channels

What the records are after a user was moved: by a UserState, where the right to speak is looked up
when the user is already in the new channel, and by the removal of a channel, where it is looked up
from the old one. -/

namespace MumbleServer.ServerOps

open List Option UserManager Moderation
open Acl (Permission Subject subjectOf)

/-! ### Records -/

section records
variable {st : State} {sid : ℕ} {m : Member}

theorem snapshot_of_member (h : st.member sid = some m) :
    st.server.users.snapshot m.user.sessionID = some m.user := by
  obtain ⟨u, hu, rfl⟩ := map_eq_some_iff.mp h
  rwa [(mem_of_snapshot hu).2]

theorem member_of_snapshot {u : User} (h : st.server.users.snapshot sid = some u) :
    st.member sid = some ⟨u, st.profiles sid⟩ :=
  congrArg (Option.map _) h

theorem snapshot_eq_map (st : State) (sid : ℕ) :
    st.server.users.snapshot sid = (st.member sid).map Member.user := by
  unfold State.member
  cases st.server.users.snapshot sid <;> rfl

theorem sessionID_ne_zero (hv : st.server.users.Valid) {u : User}
    (h : st.server.users.snapshot u.sessionID = some u) : u.sessionID ≠ 0 :=
  (hv.pool.inUse_lt _ (hv.inUse u (mem_of_snapshot h).1)).1.ne'

theorem aclCheck_of_member (pol : Policy) (hv : st.server.users.Valid)
    (h : st.member sid = some m) (cid : ℕ) :
    aclCheck pol st.server (subjectOf m.user) cid Permission.speak =
      speaks pol st.server.world m.user cid :=
  aclCheck_speak_of_snapshot pol (snapshot_of_member h)
    (sessionID_ne_zero hv (snapshot_of_member h)) cid

theorem valid_updateState (hv : st.server.users.Valid) (sid : ℕ) (fn : Member → Member) :
    (st.updateUser sid fn).server.users.Valid := by
  unfold State.updateUser
  split
  · exact hv
  · exact valid_updateUser hv sid _

/-- What becomes of suppress: a move sets it anew, and otherwise a message may set it. -/
theorem suppress_applyUserState (us : UserState) (maySpeak : Option Bool) (p : Profile) :
    (applyUserState us maySpeak p).1.suppress =
      match maySpeak with
      | none => us.suppress.getD p.suppress
      | some b => !b := by
  obtain ⟨_, _, _, _, hself, -⟩ := applySelfVoiceState_spec p.toVoiceState us
  unfold applyUserState
  rw [hself]
  dsimp only
  obtain ⟨_, _, _, _, hadmin, -⟩ := applyAdminVoiceState_spec _ _
  rw [hadmin]
  cases maySpeak <;> rfl

theorem suppress_entered (maySpeak : Bool) (m : Member) :
    (entered maySpeak m).profile.suppress = !maySpeak := by
  simp [entered, applyChannelEnterEffects]

end records

/-! ### One user is moved -/

/-- A user has been moved to a channel and has got the profile `p`; nobody else has changed. -/
structure Moved (st : State) (target : Member) (cid : ℕ) (p : Profile) (st' : State) : Prop where
  world : st'.server.world = st.server.world
  valid : st'.server.users.Valid
  member : ∃ revision, ∀ sid, st'.member sid =
    if sid = target.user.sessionID then
      some ⟨{ target.user with channelID := cid, authorizationRevision := revision }, p⟩
    else st.member sid

section moved
variable {st : State} {target : Member} (hv : st.server.users.Valid)
  (ht : st.member target.user.sessionID = some target)
include hv ht

theorem moved_of_setChannel (cid : ℕ) {fn : Member → Member} {f : Profile → Profile}
    (hfn : ∀ m, fn m = { m with profile := f m.profile }) :
    Moved st target cid (f target.profile)
      ((st.setChannel target.user.sessionID cid).updateUser target.user.sessionID fn) := by
  obtain rfl : fn = fun m => { m with profile := f m.profile } := funext hfn
  obtain ⟨revision, hmoved⟩ := member_setChannel ht cid
  have hself := hmoved target.user.sessionID
  rw [if_pos rfl] at hself
  refine ⟨(world_updateUser _ _).trans (world_updateUser _ _),
    valid_updateState (valid_updateState hv _ _) _ _, revision, fun sid => ?_⟩
  rw [member_updateProfile, hself, hmoved]
  split_ifs <;> rfl

/-- A UserState that has passed the checks moves its target, with suppress after the right to
speak there. -/
theorem applyChecked_moved (pol : Policy) (actor : ℕ) {us : UserState} {cid : ℕ}
    (hcid : us.channelID = some cid) :
    Moved st target cid
      (applyUserState us (some (speaks pol st.server.world
        { target.user with channelID := cid } cid)) target.profile).1
      (applyChecked pol st actor target.user us).1 := by
  obtain ⟨revision, hmoved⟩ := member_setChannel ht cid
  have hself := hmoved target.user.sessionID
  rw [if_pos rfl] at hself
  have hmay : aclCheck pol (st.setChannel target.user.sessionID cid).server
      (subjectOf target.user) cid Permission.speak =
      speaks pol st.server.world { target.user with channelID := cid } cid := by
    have hvalid : (st.setChannel target.user.sessionID cid).server.users.Valid :=
      valid_updateState hv _ _
    have hcheck := aclCheck_of_member pol hvalid hself cid
    rw [State.setChannel, world_updateUser] at hcheck
    exact hcheck
  unfold applyChecked
  rw [hcid]
  dsimp only [moveUser]
  rw [hmay]
  exact moved_of_setChannel hv ht cid (f := fun p => (applyUserState us _ p).1)
    fun _ => rfl

/-- A user of a channel that is to be removed gets suppress after the right to speak in the parent
from where it was. -/
theorem evict_moved (cfg : Config) (parentID : ℕ) :
    Moved st target parentID
      (entered (speaks cfg.pol st.server.world target.user parentID) target).profile
      (evict cfg parentID st target.user).1 := by
  unfold evict
  rw [aclCheck_of_member cfg.pol hv ht]
  exact moved_of_setChannel hv ht parentID (f := fun p => { p with
    toVoiceState := (applyChannelEnterEffects p.toVoiceState {} _).1 }) fun _ => rfl

end moved

/-! ### All users of a channel are moved -/

/-- All of `us` have been moved to the parent of the channel they were in. -/
structure Evicted (cfg : Config) (parentID : ℕ) (st : State) (us : List User) (st' : State) :
    Prop where
  world : st'.server.world = st.server.world
  valid : st'.server.users.Valid
  others : ∀ sid, sid ∉ us.map User.sessionID → st'.member sid = st.member sid
  moved : ∀ u ∈ us, ∃ revision, st'.member u.sessionID =
    some ⟨{ u with channelID := parentID, authorizationRevision := revision },
      (entered (speaks cfg.pol st.server.world u parentID)
        ⟨u, st.profiles u.sessionID⟩).profile⟩

theorem evictAll_evicted (cfg : Config) (parentID : ℕ) {st : State}
    (hv : st.server.users.Valid) (us : List User)
    (hus : ∀ u ∈ us, st.server.users.snapshot u.sessionID = some u)
    (hnodup : (us.map User.sessionID).Nodup) :
    Evicted cfg parentID st us (evictAll cfg parentID st us).1 := by
  induction us generalizing st with
  | nil => exact ⟨rfl, hv, fun _ _ => rfl, fun _ hu => absurd hu not_mem_nil⟩
  | cons u rest ih =>
    obtain ⟨hnew, hnodup⟩ := nodup_cons.mp hnodup
    have hu := member_of_snapshot (hus u mem_cons_self)
    have hmoved : Moved st ⟨u, st.profiles u.sessionID⟩ parentID _
        (evict cfg parentID st u).1 := evict_moved hv hu cfg parentID
    obtain ⟨hworld, hvalid, revision, hmember⟩ := hmoved
    have hne : ∀ v ∈ rest, v.sessionID ≠ u.sessionID := by
      intro v hv heq
      exact hnew (heq ▸ mem_map_of_mem hv)
    have hkept : ∀ v ∈ rest, (evict cfg parentID st u).1.member v.sessionID =
        some ⟨v, st.profiles v.sessionID⟩ := by
      intro v hv
      rw [hmember, if_neg (hne v hv)]
      exact member_of_snapshot (hus v (mem_cons_of_mem _ hv))
    have hrest := ih hvalid (fun v hv => snapshot_of_member (hkept v hv)) hnodup
    refine ⟨hrest.world.trans hworld, hrest.valid, fun sid hsid => ?_, fun v hmem => ?_⟩
    · rw [map_cons, mem_cons, not_or] at hsid
      rw [evictAll_cons, hrest.others sid hsid.2, hmember, if_neg hsid.1]
    · rcases mem_cons.mp hmem with rfl | hmem
      · refine ⟨revision, ?_⟩
        rw [evictAll_cons, hrest.others _ hnew, hmember, if_pos rfl]
      · obtain ⟨revision, hv⟩ := hrest.moved v hmem
        have hprofile : (evict cfg parentID st u).1.profiles v.sessionID =
            st.profiles v.sessionID :=
          congrArg Member.profile (some.inj
            ((member_of_snapshot (snapshot_of_member (hkept v hmem))).symm.trans (hkept v hmem)))
        refine ⟨revision, ?_⟩
        rw [hprofile, hworld] at hv
        exact hv

section vacate
variable {cfg : Config} {st : State} {ch : Channel}

theorem mem_occupants {u : User} {id : ℕ} :
    u ∈ st.server.users.bySession.filter (fun u => decide (u.channelID = id)) ↔
      u ∈ st.server.users.bySession ∧ u.channelID = id := by
  simp

theorem vacate_evicted (hv : st.server.users.Valid) :
    Evicted cfg ch.parentID st
      (st.server.users.bySession.filter fun u => decide (u.channelID = ch.id))
      (vacate cfg st ch).1 := by
  have hall := evictAll_evicted cfg ch.parentID hv
    (st.server.users.bySession.filter fun u => decide (u.channelID = ch.id))
    (fun u hu => snapshot_of_mem hv (mem_occupants.mp hu).1)
    (hv.nodup.sublist (filter_sublist.map _))
  exact { hall with }

end vacate

/-! ### Logins -/

section login
variable {s : Site}
variable {m m' : UserManager}

theorem channelID_of_add {u stored : User}
    (hadd : m.add u = (m', some stored)) : stored.channelID = u.channelID := by
  obtain ⟨pool, -, -, hstored, -⟩ := add_some hadd
  rw [hstored]

theorem snapshot_remove_added (hv : m.Valid) {u stored v : User}
    (hadd : m.add u = (m', some stored)) {sid : ℕ}
    (h : (m'.removeIfGeneration stored.ref).1.snapshot sid = some v) :
    m.snapshot sid = some v := by
  obtain rfl := (mem_of_snapshot h).2
  have href : (m'.removeIfGeneration stored.ref).1.snapshotRef v.ref = some v :=
    snapshotRef_eq_some.mpr ⟨h, rfl⟩
  rw [snapshotRef_remove] at href
  split_ifs at href with heq
  have hsnap := (snapshotRef_eq_some.mp href).1
  rw [(snapshot_added hadd hv).2] at hsnap
  split_ifs at hsnap
  · exact absurd (congrArg User.ref (some.inj hsnap).symm) heq
  · exact hsnap

/-- The registry takes a new session in. -/
def admits (r : Registry) (ref : SessionRef) (edge : String) : Bool :=
  match r.bind ref edge with
  | .error _ => false
  | .ok r =>
    match r.commitActive ref with
    | .error _ => false
    | .ok _ => true

/-- Nobody is stored, or the record that was stored is taken out again, or somebody new is there
who is not suppressed. -/
theorem login_cases (cfg : Config) (hv : s.users.Valid) (u : User) (edge : String) :
    (login cfg s u edge).1.rows = s.rows ∧
    (login cfg s u edge).1.state.server.world = s.state.server.world ∧
    (login cfg s u edge).1.users.Valid ∧
    (((∀ stored ∈ (s.users.add { u with channelID := joinChannelFor cfg s u.userID }).2,
          admits s.state.registry stored.ref edge = false) ∧
        ∀ sid m, (login cfg s u edge).1.state.member sid = some m →
          s.state.member sid = some m) ∨
      ∃ stored, (s.users.add { u with channelID := joinChannelFor cfg s u.userID }).2 =
          some stored ∧
        admits s.state.registry stored.ref edge = true ∧
        stored.channelID = joinChannelFor cfg s u.userID ∧
        s.state.member stored.sessionID = none ∧
        ∀ sid, (login cfg s u edge).1.state.member sid =
          if sid = stored.sessionID then some ⟨stored, {}⟩ else s.state.member sid) := by
  unfold login
  rcases hadd : s.users.add { u with channelID := joinChannelFor cfg s u.userID }
    with ⟨users, _ | stored⟩
  · refine ⟨rfl, rfl, valid_add hv hadd, .inl ⟨fun _ h => absurd h (by simp), fun sid m hm => ?_⟩⟩
    rw [← hm]
    unfold State.member UserManager.snapshot
    exact congrArg (fun l => Option.map _ (List.find? _ l)) (same_of_add hadd).1.symm
  · have hvalid := valid_add hv hadd
    -- the record is taken out again when the registry refuses the session
    have hback : ∀ sid m, (s.setUsers (users.removeIfGeneration stored.ref).1).state.member sid =
        some m → s.state.member sid = some m := by
      intro sid m hm
      obtain ⟨v, hsnap, rfl⟩ := map_eq_some_iff.mp hm
      exact member_of_snapshot (snapshot_remove_added hv hadd hsnap)
    dsimp only
    unfold admits
    rcases hbind : s.state.registry.bind stored.ref edge with e | r
    · refine ⟨rfl, rfl, valid_remove hvalid _ _ _, .inl ⟨fun v h => ?_, hback⟩⟩
      obtain rfl := some.inj h
      rw [hbind]
    · dsimp only
      rcases hcommit : r.commitActive stored.ref with e | r'
      · refine ⟨rfl, rfl, valid_remove hvalid _ _ _, .inl ⟨fun v h => ?_, hback⟩⟩
        obtain rfl := some.inj h
        rw [hbind]
        dsimp only
        rw [hcommit]
      · refine ⟨rfl, rfl, hvalid, .inr ⟨stored, rfl, ?_, channelID_of_add hadd, ?_, fun sid => ?_⟩⟩
        · rw [hbind]
          dsimp only
          rw [hcommit]
        · exact congrArg (Option.map _) (snapshot_added hadd hv).1
        · unfold State.member
          dsimp only
          rw [(snapshot_added hadd hv).2]
          split_ifs with hsid
          · rw [map_some, hsid, Function.update_self]
          · rw [Function.update_of_ne hsid]
            rfl

end login

end MumbleServer.ServerOps

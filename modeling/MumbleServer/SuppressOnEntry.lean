import MumbleServer.HomeVoice

/-! # Suppress on entry

A client that enters a channel is to be suppressed there exactly if it may not speak there.  A move
by a UserState sees to it: the right to speak is looked up when the user is already in the new
channel.  A login looks nothing up, and the removal of a channel looks the right up while the user
is still in the channel that goes away, so that groups such as `in` and `sub` are answered for the
wrong place. -/

namespace MumbleServer.ServerOps

open UserManager
open Option
open Acl (Permission Subject subjectOf)
open Moderation (Policy State Profile Member UserState aclCheck speaks)

/-- A session is in a channel where it was not before. -/
def PutIn (s s' : Site) (sid : ℕ) (m' : Member) : Prop :=
  s'.state.member sid = some m' ∧
    ∀ m, s.state.member sid = some m → m.user.ref = m'.user.ref →
      m.user.channelID ≠ m'.user.channelID

/-- Whoever the operation puts into a channel is suppressed exactly if it may not speak there, in
the state that results. -/
def SuppressFollows (cfg : Config) (s : Site) (op : Op) : Prop :=
  ∀ sid m', PutIn s (step cfg s op) sid m' →
    m'.profile.suppress =
      !aclCheck cfg.pol (step cfg s op).state.server (subjectOf m'.user) m'.user.channelID
        Permission.speak

/-- Those in a channel may speak in its parent from there exactly if they may speak in the parent
when they are in it. -/
def SameFromParent (pol : Policy) (s : Site) (ch : Channel) : Prop :=
  ch.id ≠ ch.parentID → ∀ u ∈ s.users.bySession, u.channelID = ch.id →
    speaks pol s.state.server.world u ch.parentID =
      speaks pol s.state.server.world { u with channelID := ch.parentID } ch.parentID

/-- Who logs in may speak in the channel it is put into, and a channel is removed whose users may
speak in the parent from where they are exactly if they may speak there. -/
def Consistent (cfg : Config) (s : Site) : Op → Prop
  | .login u edge =>
    ∀ stored ∈ (s.users.add { u with channelID := joinChannelFor cfg s u.userID }).2,
      admits s.state.registry stored.ref edge = true →
        speaks cfg.pol s.state.server.world stored stored.channelID = true
  | .channelRemove c id _ => ∀ ch ∈ reached cfg s c id, SameFromParent cfg.pol s ch
  | _ => True

/-! ### Operations that put nobody anywhere -/

/-- Whoever is there was there, in the same channel. -/
def Stays (s s' : Site) : Prop :=
  ∀ sid m', s'.state.member sid = some m' →
    ∃ m, s.state.member sid = some m ∧ m.user = m'.user

section stays
variable {s s' s'' : Site}

theorem Stays.not_putIn (h : Stays s s') {sid : ℕ} {m' : Member} : ¬PutIn s s' sid m' := by
  rintro ⟨hm', hput⟩
  obtain ⟨m, hm, hu⟩ := h sid m' hm'
  exact hput m hm (by rw [hu]) (by rw [hu])

theorem Stays.refl (s : Site) : Stays s s := fun _ m hm => ⟨m, hm, rfl⟩

theorem Stays.trans (h : Stays s s') (h' : Stays s' s'') : Stays s s'' := by
  intro sid m'' hm''
  obtain ⟨m', hm', hu'⟩ := h' sid m'' hm''
  obtain ⟨m, hm, hu⟩ := h sid m' hm'
  exact ⟨m, hm, hu.trans hu'⟩

theorem stays_of_members (h : ∀ sid m, s'.state.member sid = some m →
    s.state.member sid = some m) : Stays s s' :=
  fun sid m hm => ⟨m, h sid m hm, rfl⟩

theorem stays_of_edit {P : Channels → ℕ → List ℕ → Prop} {outs : List Output}
    (he : Edit P s s' outs) : Stays s s' := by
  induction he with
  | quiet | announce => exact .refl _
  | create _ _ _ _ _ _ _ hc =>
    obtain ⟨-, -, -, -, -, rfl⟩ := create_cases hc
    exact stays_of_members fun _ _ hm => hm
  | update => exact stays_of_members fun _ _ hm => hm
  | links id desired dbOk _ hu =>
    rcases updateLinks_cases hu with ⟨rfl, -⟩ | ⟨node, -, -, rfl, -⟩
    · exact .refl _
    · exact stays_of_members fun _ _ hm => hm
  | trans _ _ ih ih' => exact ih.trans ih'

theorem member_remove (s : Site) (id : ℕ) (dbOk : Bool) (sid : ℕ) :
    (s.remove id dbOk).1.state.member sid = s.state.member sid := by
  rcases remove_cases s id dbOk with hr | ⟨-, -, hr⟩ <;> rw [hr]
  rfl

theorem users_remove (s : Site) (id : ℕ) (dbOk : Bool) : (s.remove id dbOk).1.users = s.users := by
  rcases remove_cases s id dbOk with hr | ⟨-, -, hr⟩ <;> rw [hr]
  rfl

theorem stays_removeUser (s : Site) (ref : SessionRef) : Stays s (removeUser s ref) := by
  refine stays_of_members fun sid m hm => ?_
  obtain ⟨u, hu, rfl⟩ := map_eq_some_iff.mp hm
  exact member_of_snapshot (snapshot_of_remove hu)

theorem stays_unregisterConn (s : Site) (ref : SessionRef) : Stays s (unregisterConn s ref) := by
  refine stays_of_members fun sid m hm => ?_
  unfold unregisterConn detach at hm
  split_ifs at hm
  · exact hm
  · split at hm <;> exact hm

theorem stays_kick (s : Site) (ref : SessionRef) : Stays s (kick s ref) := by
  unfold kick
  cases hk : kicked s ref with
  | none => exact .refl s
  | some s' =>
    refine Stays.trans ?_ (stays_unregisterConn s' ref)
    obtain ⟨u, r, e, -, -, rfl⟩ := kicked_cases hk
    exact stays_removeUser _ ref

theorem stays_editACL (cfg : Config) (hv : s.users.Valid) (db : Acl.Database) :
    Stays s (editACL cfg s db).1 := by
  intro sid m' hm'
  obtain ⟨-, -, hmembers⟩ := member_refreshSuppressStates cfg
    { s.state with
      server := { s.state.server with world := { s.state.server.world with db := db } } }
    hv s.users.bySession fun u hu => snapshot_of_mem hv hu
  obtain ⟨m, hm, hu, -⟩ := hmembers sid m' hm'
  exact ⟨m, hm, hu.symm⟩

/-- The operations that may put somebody into a channel. -/
def Op.moves : Op → Bool
  | .login .. | .userState .. | .channelRemove .. => true
  | _ => false

theorem stays_step (cfg : Config) (hv : s.users.Valid) {op : Op} (hop : op.moves = false) :
    Stays s (step cfg s op) := by
  cases op with
  | login | userState | channelRemove => cases hop
  | channelState | restCreate | restUpdate => exact stays_of_edit (step_edit cfg s rfl)
  | restDelete id dbOk =>
    exact stays_of_members fun sid m hm => (member_remove s id dbOk sid).symm.trans hm
  | disconnect ref => exact (stays_unregisterConn s ref).trans (stays_removeUser _ ref)
  | kick ref => exact stays_kick s ref
  | editACL db => exact stays_editACL cfg hv db

end stays

/-! ### Logins -/

section entering
variable {cfg : Config} {s : Site}

/-- Who logs in is not suppressed, whatever it may do. -/
theorem suppressFollows_login (hv : s.users.Valid) (u : User) (edge : String) :
    SuppressFollows cfg s (.login u edge) ↔ Consistent cfg s (.login u edge) := by
  obtain ⟨-, hworld, hvalid, hcases⟩ := login_cases cfg hv u edge
  rcases hcases with ⟨hrefused, hback⟩ | ⟨stored, hadd, hadmit, -, hfresh, hmember⟩
  · refine iff_of_true (fun sid m' hput => ?_) fun stored hstored hadmit => ?_
    · exact absurd hput (stays_of_members hback).not_putIn
    · rw [hrefused stored hstored] at hadmit
      cases hadmit
  · have hself := hmember stored.sessionID
    rw [if_pos rfl] at hself
    have hcheck : aclCheck cfg.pol (step cfg s (.login u edge)).state.server (subjectOf stored)
        stored.channelID Permission.speak =
        speaks cfg.pol s.state.server.world stored stored.channelID :=
      hworld ▸ aclCheck_of_member cfg.pol hvalid hself stored.channelID
    constructor
    · intro h v hv _
      obtain rfl := some.inj (hadd.symm.trans hv)
      have hput : PutIn s (step cfg s (.login u edge)) stored.sessionID ⟨stored, {}⟩ := by
        refine ⟨hself, fun m hm => ?_⟩
        rw [hfresh] at hm
        cases hm
      have hsup := h _ _ hput
      rw [hcheck] at hsup
      simpa using hsup
    · intro h sid m' hput
      have hm' := hput.1
      rw [show (step cfg s (.login u edge)).state.member sid = _ from hmember sid] at hm'
      split_ifs at hm'
      · obtain rfl := some.inj hm'
        rw [hcheck, h stored hadd hadmit]
        rfl
      · exact absurd rfl (hput.2 m' hm' rfl)

/-! ### UserState -/

theorem suppressFollows_userState (hv : s.users.Valid) (rateAllows : Bool) (c : SessionRef)
    (us : UserState) : SuppressFollows cfg s (.userState rateAllows c us) := by
  intro sid m' hput
  rcases handleUserState_cases cfg.pol s.state rateAllows c us with
    ⟨-, hl⟩ | ⟨st₁, actor, target, us', hl, ht, -, -, -, hstate⟩
  · exact absurd hput (stays_of_members fun sid m hm => hl.member sid ▸ hm).not_putIn
  · have hstep : (step cfg s (.userState rateAllows c us)).state =
      (Moderation.applyChecked cfg.pol st₁ actor target.user us').1 := hstate
    have ht₁ : st₁.member target.user.sessionID = some target := by
      rw [hl.member, Voice.sessionID_of_member ht, ht]
    have hv₁ : st₁.server.users.Valid := hl.server ▸ hv
    obtain ⟨hm', hnew⟩ := hput
    rw [hstep] at hm' ⊢
    cases hcid : us'.channelID with
    | none =>
      unfold Moderation.applyChecked at hm'
      rw [hcid] at hm'
      dsimp only at hm'
      rw [Moderation.member_updateRecord] at hm'
      split_ifs at hm' with hsid
      · rw [ht₁, map_some] at hm'
        obtain rfl := some.inj hm'
        rw [hsid, ← hl.member, ht₁] at hnew
        exact absurd rfl (hnew target rfl rfl)
      · rw [hl.member] at hm'
        exact absurd rfl (hnew m' hm' rfl)
    | some cid =>
      obtain ⟨hworld, hvalid, revision, hmember⟩ :=
        applyChecked_moved hv₁ ht₁ cfg.pol actor hcid
      rw [aclCheck_of_member cfg.pol hvalid hm', hworld]
      rw [hmember] at hm'
      split_ifs at hm'
      · obtain rfl := some.inj hm'
        rw [suppress_applyUserState]
        rfl
      · rw [hl.member] at hm'
        exact absurd rfl (hnew m' hm' rfl)

/-! ### ChannelRemove -/

/-- The rights of a user at home do not depend on channels that go away elsewhere. -/
theorem speaks_remove (pol : Policy) (h : Planted s) (id : ℕ) (dbOk : Bool) {u : User}
    (hhome : s.channels.has u.channelID = true) (hne : u.channelID ≠ id) :
    speaks pol (s.remove id dbOk).1.state.server.world u u.channelID =
      speaks pol s.state.server.world u u.channelID := by
  have hplanted := h.remove id dbOk
  rcases remove_cases s id dbOk with hr | ⟨-, -, hr⟩
  · rw [hr]
  · rw [hr] at hplanted ⊢
    have hhas : (s.setChannels (s.channels.filter fun c => decide (c.id ≠ id))).channels.has
        u.channelID = true := by
      show Channels.has (s.channels.filter _) _ = true
      rwa [Channels.has, getChannel_filter_ne hne]
    obtain ⟨p, hp⟩ := hplanted.path hhas
    have hgrows : Grows (s.channels.filter fun c => decide (c.id ≠ id)) s.channels :=
      grows_of_sublist h.ids_nodup List.filter_sublist
    have hsame : Acl.permissionsOf pol.fold (s.setChannels
        (s.channels.filter fun c => decide (c.id ≠ id))).state.server.world u u.channelID =
        Acl.permissionsOf pol.fold s.state.server.world u u.channelID :=
      Acl.permissionsOf_grows pol.fold rfl hgrows hp
    rw [speaks, hsame, speaks]

theorem aclCheck_of_vacated (h : Planted s) (hv : s.users.Valid) {ch : Channel}
    (hch : s.channels.getChannel ch.id = some ch) (hne : ch.id ≠ ch.parentID) (dbOk : Bool)
    {sid : ℕ} {m : Member} (hm : (vacate cfg s.state ch).1.member sid = some m)
    (hhome : m.user.channelID = ch.parentID) :
    aclCheck cfg.pol (Site.remove { s with state := (vacate cfg s.state ch).1 } ch.id
        dbOk).1.state.server (subjectOf m.user) m.user.channelID Permission.speak =
      speaks cfg.pol s.state.server.world m.user ch.parentID := by
  have hout : Evicted cfg ch.parentID s.state _ (vacate cfg s.state ch).1 := vacate_evicted hv
  have hchannels := channels_vacate cfg s ch
  have hplanted : Planted { s with state := (vacate cfg s.state ch).1 } := h.congr hchannels rfl
  have hvalid : (Site.remove { s with state := (vacate cfg s.state ch).1 } ch.id
      dbOk).1.users.Valid := (users_remove _ _ _).symm ▸ hout.valid
  have hparent : Channels.has (Site.channels { s with state := (vacate cfg s.state ch).1 })
      m.user.channelID = true := by
    rw [hchannels, hhome]
    exact h.hasParent hch
  rw [aclCheck_of_member cfg.pol hvalid ((member_remove _ _ _ sid).trans hm),
    speaks_remove cfg.pol hplanted ch.id dbOk hparent (hhome ▸ hne.symm), hhome]
  exact congrArg (fun w => speaks cfg.pol w m.user ch.parentID) hout.world

/-- Who is moved out of a channel that is removed gets suppress after what it may do from there. -/
theorem suppressFollows_channelRemove (h : Planted s) (hv : s.users.Valid) (c : SessionRef)
    (id : ℕ) (dbOk : Bool) :
    SuppressFollows cfg s (.channelRemove c id dbOk) ↔
      Consistent cfg s (.channelRemove c id dbOk) := by
  rcases handleChannelRemove_cases cfg s c id dbOk with
    ⟨hnone, hsame, -⟩ | ⟨ch, hreached, hch, hremove⟩
  · refine iff_of_true (fun sid m' hput => ?_) fun ch hch => ?_
    · rw [show step cfg s (.channelRemove c id dbOk) = s from hsame] at hput
      exact absurd hput (Stays.refl s).not_putIn
    · rw [hnone] at hch
      cases hch
  · obtain rfl := id_of_getChannel hch
    have hout : Evicted cfg ch.parentID s.state _ (vacate cfg s.state ch).1 := vacate_evicted hv
    have hstep : step cfg s (.channelRemove c ch.id dbOk) =
        (Site.remove { s with state := (vacate cfg s.state ch).1 } ch.id dbOk).1 :=
      congrArg Prod.fst hremove
    unfold SuppressFollows PutIn
    rw [hstep]
    simp only [member_remove]
    constructor
    · intro hfollows ch' hch' hne u hu hchannel
      obtain rfl := some.inj (hreached.symm.trans hch')
      obtain ⟨revision, hmoved⟩ := hout.moved u (mem_occupants.mpr ⟨hu, hchannel⟩)
      have hsup := hfollows _ _ ⟨hmoved, fun m hm _ => ?_⟩
      · rw [aclCheck_of_vacated h hv hch hne dbOk hmoved rfl, suppress_entered,
          Bool.not_inj_iff] at hsup
        exact hsup
      · have hbefore := member_of_snapshot (snapshot_of_mem hv hu)
        obtain rfl := some.inj (hbefore.symm.trans hm)
        exact hchannel.trans_ne hne
    · rintro hsame sid m' ⟨hm', hnew⟩
      by_cases hmem : sid ∈ (s.users.bySession.filter fun u => decide (u.channelID = ch.id)).map
          User.sessionID
      · obtain ⟨u, hu, rfl⟩ := List.mem_map.mp hmem
        obtain ⟨hin, hchannel⟩ := mem_occupants.mp hu
        obtain ⟨revision, hmoved⟩ := hout.moved u hu
        obtain rfl := some.inj (hm'.symm.trans hmoved)
        have hne : ch.id ≠ ch.parentID := by
          rw [← hchannel]
          exact hnew _ (member_of_snapshot (snapshot_of_mem hv hin)) rfl
        rw [aclCheck_of_vacated h hv hch hne dbOk hmoved rfl, suppress_entered,
          hsame ch hreached hne u hin hchannel]
        rfl
      · rw [hout.others sid hmem] at hm'
        exact absurd rfl (hnew m' hm' rfl)

end entering

/-- **Suppress follows Speak on entry**, for each operation of a server with a channel tree, exactly
if the operation is consistent. -/
theorem suppress_follows_speak_iff (cfg : Config) {s : Site} (hs : Planted s)
    (hvalid : s.users.Valid) (op : Op) : SuppressFollows cfg s op ↔ Consistent cfg s op := by
  cases op with
  | login u edge => exact suppressFollows_login hvalid u edge
  | userState rateAllows c us =>
    exact iff_of_true (suppressFollows_userState hvalid rateAllows c us) trivial
  | channelRemove c id dbOk => exact suppressFollows_channelRemove hs hvalid c id dbOk
  | _ =>
    refine iff_of_true (fun _ _ hput => ?_) trivial
    exact absurd hput (stays_step cfg hvalid rfl).not_putIn

instance (pol : Policy) (s : Site) (ch : Channel) : Decidable (SameFromParent pol s ch) :=
  inferInstanceAs (Decidable (ch.id ≠ ch.parentID → ∀ u ∈ s.users.bySession,
    u.channelID = ch.id → speaks pol s.state.server.world u ch.parentID =
      speaks pol s.state.server.world { u with channelID := ch.parentID } ch.parentID))

/-- A user whom a channel does not keep from speaking in the root is moved there when the channel
is removed. -/
theorem suppress_follows_speak_lounge :
    let s := run (step config) newSite (linkedLounge ++ [.login superUser "local"])
    (reached config s ⟨2, 2⟩ 1).isSome = true ∧
    (s.users.bySession.map (fun u => u.channelID) = [0, 1]) ∧
    SuppressFollows config s (.channelRemove ⟨2, 2⟩ 1 true) := by
  intro s
  have hs : Disciplined config.pol s :=
    run_inv (disciplined_step config)
      (disciplined_start config.pol planted_newSite (valid_new 10) rfl)
      (by decide +kernel)
  refine ⟨by decide +kernel, by decide +kernel, ?_⟩
  have hop : ∀ ch ∈ reached config s ⟨2, 2⟩ 1, SameFromParent config.pol s ch := by
    decide +kernel
  exact (suppress_follows_speak_iff config hs.toPlanted hs.valid _).mpr hop

/-- A session that is put into a channel with suppress the wrong way round. -/
def misled (cfg : Config) (s : Site) (op : Op) (sid : ℕ) : Bool :=
  ((step cfg s op).state.member sid).any fun m' =>
    ((s.state.member sid).all fun m => decide (m.user.channelID ≠ m'.user.channelID)) &&
      decide (m'.profile.suppress = aclCheck cfg.pol (step cfg s op).state.server
        (subjectOf m'.user) m'.user.channelID Permission.speak)

theorem not_suppressFollows_of_misled {cfg : Config} {s : Site} {op : Op} (sid : ℕ)
    (h : misled cfg s op sid = true) : ¬SuppressFollows cfg s op := by
  intro hfollows
  unfold misled at h
  cases hm' : (step cfg s op).state.member sid with
  | none =>
    rw [hm'] at h
    cases h
  | some m' =>
    rw [hm', any_some, Bool.and_eq_true] at h
    have hput : PutIn s (step cfg s op) sid m' := by
      refine ⟨hm', fun m hm _ => ?_⟩
      have hne := h.1
      rw [hm, all_some] at hne
      exact of_decide_eq_true hne
    have hsup := hfollows sid m' hput
    rw [of_decide_eq_true h.2] at hsup
    exact (Bool.eq_not_self _).mp hsup

/-- Nobody may speak in the root channel and a user logs in; and those in the root channel may not
speak there, and a user comes to be in it because the channel it was in is removed. -/
theorem suppress_misses_speak :
    ¬SuppressFollows config
      (run (step config) newSite (linkedLounge ++ [.editACL (gagged "all")]))
      (.login bob "local") ∧
    ¬SuppressFollows config
      (run (step config) newSite (linkedLounge ++ [.restCreate 2 0 "Attic" "" 0 false 0,
        .login bob "local", .userState true ⟨2, 2⟩ { channelID := some 2 },
        .editACL (gagged "in"), .login superUser "local"]))
      (.channelRemove ⟨3, 3⟩ 2 true) := by
  exact ⟨not_suppressFollows_of_misled 2 (by decide +kernel),
    not_suppressFollows_of_misled 2 (by decide +kernel)⟩

end MumbleServer.ServerOps

import MumbleServer.Entering

/-! # No Speak at home

Normal voice is routed into every channel of the link component where the sender may speak; that
somebody without Speak in its own channel is not heard anywhere rests on the flag suppress alone.
Moves and edits of the access control lists set the flag.  Three operations do not see to it: a
login stores the record without it, an administrator may clear it, and when a channel is removed
the right to speak in the parent is looked up while the user is still in the old channel. -/

namespace MumbleServer.ServerOps

open List Option UserManager Moderation Voice
open Acl (Permission Subject subjectOf)

/-- Who may not speak in the channel it is in is suppressed.  The super user may speak nowhere, and
in a channel that is gone nobody is heard. -/
def Hushed (pol : Policy) (w : Acl.World) (m : Member) : Prop :=
  m.profile.suppress = true ∨ speaks pol w m.user m.user.channelID = true ∨
    m.user.isSuperUser = true ∨ w.channels.has m.user.channelID = false

/-- The invariant: everybody is hushed, and was put into a channel that the database knows. -/
structure Disciplined (pol : Policy) (s : Site) : Prop extends Planted s where
  valid : s.users.Valid
  members : ∀ sid m, s.state.member sid = some m →
    m.user.channelID ∈ s.rows ∧ Hushed pol s.state.server.world m

namespace Disciplined
variable {pol : Policy} {s s' : Site} (h : Disciplined pol s)
include h

variable {st : State}

theorem settle (hworld : st.server.world = s.state.server.world) (hvalid : st.server.users.Valid)
    (hmembers : ∀ sid m, st.member sid = some m →
      s.state.member sid = some m ∨ (m.user.channelID ∈ s.rows ∧
        Hushed pol s.state.server.world m)) : Disciplined pol { s with state := st } where
  toPlanted := h.toPlanted.congr (congrArg Acl.World.channels hworld) rfl
  valid := hvalid
  members := by
    intro sid m hm
    show m.user.channelID ∈ s.rows ∧ Hushed pol st.server.world m
    rw [hworld]
    rcases hmembers sid m hm with hm | hm
    · exact h.members sid m hm
    · exact hm

/-! ### UserState -/

section userState
variable {target : Member}

theorem enterChannel {cid : ℕ} (hc : s.channels.has cid = true) {p : Profile}
    (hmoved : Moved s.state target cid p st) (hsup : p.suppress = false →
      speaks pol s.state.server.world { target.user with channelID := cid } cid = true) :
    Disciplined pol { s with state := st } := by
  obtain ⟨revision, hmember⟩ := hmoved.member
  refine h.settle hmoved.world hmoved.valid fun sid m hm => ?_
  rw [hmember] at hm
  split_ifs at hm with hsid
  · obtain rfl := some.inj hm
    refine .inr ⟨h.mem_rows hc, ?_⟩
    cases hp : p.suppress with
    | true => exact .inl hp
    | false => exact .inr (.inl (hsup hp))
  · exact .inl hm

variable (ht : s.state.member target.user.sessionID = some target)
include ht

/-- A record changes that does not move; suppress is cleared only where the user may speak. -/
theorem updateRecord (us : UserState)
    (hclear : us.suppress = some false →
      speaks pol s.state.server.world target.user target.user.channelID = true ∨
        target.user.isSuperUser = true) :
    Disciplined pol { s with state :=
      Moderation.updateRecord s.state target.user.sessionID us none } := by
  refine h.settle (world_updateUser _ _) (valid_updateState h.valid _ _) fun sid m hm => ?_
  rw [member_updateRecord] at hm
  split_ifs at hm with hsid
  · rw [ht, map_some] at hm
    obtain rfl := some.inj hm
    obtain ⟨hrow, hhush⟩ := h.members _ _ ht
    refine .inr ⟨hrow, ?_⟩
    unfold Hushed
    rw [suppress_applyUserState]
    rcases hsup : us.suppress with _ | _ | _
    · exact hhush
    · rcases hclear hsup with hs | hs
      · exact .inr (.inl hs)
      · exact .inr (.inr (.inl hs))
    · exact .inl rfl
  · exact .inl hm

theorem applyChecked (actor : ℕ) (us : UserState)
    (hc : ∀ cid, us.channelID = some cid → s.channels.has cid = true)
    (hclear : us.suppress = some false → us.channelID = none →
      speaks pol s.state.server.world target.user target.user.channelID = true ∨
        target.user.isSuperUser = true) :
    Disciplined pol { s with state :=
      (applyChecked pol s.state actor target.user us).1 } := by
  cases hcid : us.channelID with
  | none =>
    unfold Moderation.applyChecked
    rw [hcid]
    exact h.updateRecord ht us fun hsup => hclear hsup hcid
  | some cid =>
    refine h.enterChannel (hc cid hcid) (applyChecked_moved h.valid ht pol actor hcid) ?_
    rw [suppress_applyUserState]
    simp

end userState

theorem listenOnly (hl : ListenOnly s.state st) : Disciplined pol { s with state := st } := by
  refine h.settle (by rw [hl.server]) (by rw [hl.server]; exact h.valid) fun sid m hm => ?_
  exact .inl (hl.member sid ▸ hm)

theorem userState (rateAllows : Bool) (c : SessionRef) (us : UserState)
    (hclear : us.suppress = some false → us.channelID = none →
      ∀ target, s.state.member (us.session.getD c.sessionID) = some target →
        speaks pol s.state.server.world target.user target.user.channelID = true ∨
          target.user.isSuperUser = true) :
    Disciplined pol { s with state :=
      (handleUserState pol s.state rateAllows c us).state } := by
  rcases handleUserState_cases pol s.state rateAllows c us with
    ⟨-, hl⟩ | ⟨st₁, actor, target, us', hl, ht, hsuppress, hchannel, hhas, hstate⟩
  · exact h.listenOnly hl
  · have hsid := sessionID_of_member ht
    rw [hstate]
    refine (h.listenOnly hl).applyChecked ?_ actor us' (fun cid hcid => ?_) ?_
    · show st₁.member _ = _
      rw [hl.member, hsid, ht]
    · show st₁.server.world.channels.has cid = true
      rw [hl.server]
      exact hhas cid hcid
    · show _ → _ → speaks pol st₁.server.world _ _ = true ∨ _
      rw [hl.server, hsuppress, hchannel]
      exact fun hsup hcid => hclear hsup hcid target ht

end Disciplined

/-! ### Channels -/

variable {cfg : Config}

section channels
variable {pol : Policy} {s s' : Site}

/-- The channels change, and those that stay are where they were. -/
theorem Disciplined.reshape (h : Disciplined pol s) (hplanted : Planted s')
    (hworld : s'.state.server.world = { s.state.server.world with channels := s'.channels })
    (husers : s'.users = s.users) (hprofiles : s'.state.profiles = s.state.profiles)
    (hrows : ∀ id ∈ s.rows, id ∈ s'.rows)
    (hold : ∀ id ∈ s.rows, s'.channels.has id = true → s.channels.has id = true)
    (hgrows : Grows s.channels s'.channels ∨ Grows s'.channels s.channels) :
    Disciplined pol s' where
  toPlanted := hplanted
  valid := husers ▸ h.valid
  members := by
    intro sid m hm
    have hm' : s.state.member sid = some m := by
      rw [← hm]
      show Option.map _ (s.users.snapshot sid) = Option.map _ (s'.users.snapshot sid)
      rw [husers, hprofiles]
    obtain ⟨hrow, hhush⟩ := h.members sid m hm'
    refine ⟨hrows _ hrow, ?_⟩
    cases hhome : s'.channels.has m.user.channelID with
    | false => exact .inr (.inr (.inr hhome))
    | true =>
      have hhome' := hold _ hrow hhome
      have hsame : Acl.permissionsOf pol.fold s.state.server.world m.user m.user.channelID =
          Acl.permissionsOf pol.fold s'.state.server.world m.user m.user.channelID := by
        rcases hgrows with hg | hg
        · obtain ⟨p, hp⟩ := h.toPlanted.path hhome'
          exact Acl.permissionsOf_grows pol.fold hworld hg hp
        · obtain ⟨p, hp⟩ := hplanted.path hhome
          refine (Acl.permissionsOf_grows pol.fold ?_ hg hp).symm
          rw [hworld]
      rcases hhush with hs | hs | hs | hs
      · exact .inl hs
      · refine .inr (.inl ?_)
        rwa [speaks, ← hsame]
      · exact .inr (.inr (.inl hs))
      · exact absurd (hs.symm.trans hhome') Bool.false_ne_true

theorem Disciplined.rename (h : Disciplined pol s) {f : Channel → Channel}
    (hid : ∀ d, (f d).id = d.id) (hparent : ∀ d, (f d).parentID = d.parentID)
    (hinherit : ∀ d, (f d).inheritACL = d.inheritACL) :
    Disciplined pol (s.setChannels (s.channels.map f)) := by
  refine h.reshape (h.toPlanted.rename hid hparent) rfl rfl rfl (fun _ hid => hid)
    (fun id _ hhas => ?_) (.inl (grows_map s.channels hid hparent hinherit))
  exact (has_map hid id).symm.trans hhas

theorem Disciplined.prune (h : Disciplined pol s) {cs : Channels} (hsub : cs.Sublist s.channels)
    (hplanted : Planted (s.setChannels cs)) : Disciplined pol (s.setChannels cs) := by
  have hgrows : Grows cs s.channels := grows_of_sublist h.toPlanted.ids_nodup hsub
  refine h.reshape hplanted rfl rfl rfl (fun _ hid => hid) (fun id _ hhas => ?_) (.inr hgrows)
  obtain ⟨n, hn⟩ := isSome_iff_exists.mp hhas
  obtain ⟨n', hn', -⟩ := hgrows id n hn
  simp [Channels.has, hn']

theorem inheritACL_relink (cs : Channels) (node : Channel) (desired : List ℕ) (d : Channel) :
    (cs.relink node desired d).inheritACL = d.inheritACL := by
  unfold Channels.relink
  split_ifs <;> rfl

theorem Disciplined.edit (h : Disciplined pol s) {P : Channels → ℕ → List ℕ → Prop}
    {outs : List Output} (he : Edit P s s' outs) : Disciplined pol s' := by
  induction he with
  | quiet => exact h
  | announce => exact h
  | @create s s' ch newID parentID name description position temporary maxUsers hc =>
    have hplanted := h.toPlanted.create hc
    have hcs := h.toPlanted.channels_create hc
    have hfresh := h.toPlanted.notMem_create hc
    obtain ⟨hnew, -, hid, -, -, rfl⟩ := create_cases hc
    refine h.reshape hplanted rfl rfl rfl (fun _ hid => mem_cons_of_mem _ hid)
      (fun id hrow hhas => ?_) (.inl (hcs ▸ grows_cons hfresh))
    rw [hcs, has_iff] at hhas
    rcases mem_cons.mp hhas with rfl | hmem
    · exact absurd (hid ▸ hrow) hnew
    · exact has_iff.mpr hmem
  | update s id opts =>
    refine h.rename (fun d => ?_) (fun d => ?_) (fun d => ?_) <;> split <;> rfl
  | links id desired dbOk _ hu =>
    rcases updateLinks_cases hu with ⟨rfl, -⟩ | ⟨node, -, -, rfl, -⟩
    · exact h
    · exact h.rename (relink_id _ _) (relink_parentID _ _) (inheritACL_relink _ _ _)
  | trans _ _ ih ih' => exact ih' (ih h)

theorem Disciplined.remove (h : Disciplined pol s) (id : ℕ) (dbOk : Bool) :
    Disciplined pol (s.remove id dbOk).1 := by
  have hplanted := h.toPlanted.remove id dbOk
  rcases remove_cases s id dbOk with hr | ⟨-, -, hr⟩
  · rw [hr]
    exact h
  · rw [hr] at hplanted ⊢
    exact h.prune filter_sublist hplanted

/-- What the removal of a channel asks: whoever may speak in the parent from the channel may speak
there. -/
def MayFollow (pol : Policy) (s : Site) (ch : Channel) : Prop :=
  ∀ u ∈ s.users.bySession, u.channelID = ch.id →
    speaks pol s.state.server.world u ch.parentID = true →
      speaks pol s.state.server.world { u with channelID := ch.parentID } ch.parentID = true

theorem Disciplined.vacate (h : Disciplined cfg.pol s) {ch : Channel}
    (hp : s.channels.has ch.parentID = true) (hmay : MayFollow cfg.pol s ch) :
    Disciplined cfg.pol { s with state := (vacate cfg s.state ch).1 } := by
  have hout : Evicted cfg ch.parentID s.state _ (ServerOps.vacate cfg s.state ch).1 :=
    vacate_evicted h.valid
  refine h.settle hout.world hout.valid fun sid m hm => ?_
  by_cases hmem : sid ∈ (s.users.bySession.filter fun u => decide (u.channelID = ch.id)).map
      User.sessionID
  · obtain ⟨u, hu, rfl⟩ := mem_map.mp hmem
    obtain ⟨hin, hchannel⟩ := mem_occupants.mp hu
    obtain ⟨revision, hmoved⟩ := hout.moved u hu
    obtain rfl := some.inj (hm.symm.trans hmoved)
    refine .inr ⟨h.mem_rows hp, ?_⟩
    unfold Hushed
    rw [suppress_entered]
    cases hspeak : speaks cfg.pol s.state.server.world u ch.parentID with
    | true => exact .inr (.inl (hmay u hin hchannel hspeak))
    | false => exact .inl rfl
  · exact .inl (hout.others sid hmem ▸ hm)

theorem Disciplined.channelRemove (h : Disciplined cfg.pol s) (c : SessionRef) (id : ℕ)
    (dbOk : Bool) (hmay : ∀ ch ∈ s.channels.getChannel id, MayFollow cfg.pol s ch) :
    Disciplined cfg.pol (handleChannelRemove cfg s c id dbOk).1 := by
  refine handleChannelRemove_rule cfg s c id h fun ch hch => ?_
  exact (h.vacate (h.toPlanted.hasParent hch) (hmay ch hch)).remove id dbOk

theorem Disciplined.clean (h : Disciplined pol s) : Disciplined pol (clean s) :=
  h.prune (cleanLoop_sublist _ _ _) h.toPlanted.clean.1

end channels

/-! ### Sessions -/

section sessions
variable {pol : Policy} {s : Site}

section
variable (h : Disciplined pol s) (ref : SessionRef)
include h ref

theorem Disciplined.removeUser : Disciplined pol (removeUser s ref) := by
  refine h.settle rfl (valid_remove h.valid _ _ _) fun sid m hm => .inl ?_
  obtain ⟨u, hu, rfl⟩ := map_eq_some_iff.mp hm
  exact congrArg (Option.map _) (snapshot_of_remove hu)

theorem Disciplined.unregisterConn : Disciplined pol (unregisterConn s ref) := by
  unfold ServerOps.unregisterConn
  split_ifs
  · exact h
  · refine Disciplined.clean ?_
    unfold detach
    split
    · exact h
    · exact h.settle rfl h.valid fun _ _ hm => .inl hm

theorem Disciplined.kick : Disciplined pol (kick s ref) := by
  refine kick_rule h fun s' hk => .unregisterConn ?_ ref
  obtain ⟨u, r, e, -, -, rfl⟩ := kicked_cases hk
  refine Disciplined.removeUser (s := { s with state := { s.state with registry := r } }) ?_ ref
  exact h.settle rfl h.valid fun _ _ hm => .inl hm

end

theorem Disciplined.login (h : Disciplined cfg.pol s) (u : User) (edge : String)
    (hspeak : ∀ stored ∈ (s.users.add { u with channelID := joinChannelFor cfg s u.userID }).2,
      stored.isSuperUser = true ∨
        speaks cfg.pol s.state.server.world stored stored.channelID = true) :
    Disciplined cfg.pol (login cfg s u edge).1 := by
  obtain ⟨hrows, hworld, hvalid, hcases⟩ := login_cases cfg h.valid u edge
  generalize (ServerOps.login cfg s u edge).1 = s' at *
  obtain ⟨st, rows⟩ := s'
  obtain rfl : rows = s.rows := hrows
  refine h.settle hworld hvalid fun sid m hm => ?_
  rcases hcases with ⟨-, hback⟩ | ⟨stored, hadd, -, hchannel, -, hmember⟩
  · exact .inl (hback sid m hm)
  · rw [hmember] at hm
    split_ifs at hm with hsid
    · obtain rfl := some.inj hm
      refine .inr ⟨?_, ?_⟩
      · show stored.channelID ∈ s.rows
        rw [hchannel]
        exact h.mem_rows (has_joinChannelFor cfg h.toPlanted u.userID)
      · rcases hspeak stored hadd with hs | hs
        · exact .inr (.inr (.inl hs))
        · exact .inr (.inl hs)
    · exact .inl hm

theorem snapshot_updateProfile (st : State) (sid other : ℕ) (f : Profile → Profile) :
    (st.updateUser sid fun m => { m with profile := f m.profile }).server.users.snapshot other =
      st.server.users.snapshot other := by
  rw [snapshot_eq_map, snapshot_eq_map, member_updateProfile]
  split_ifs with hsid
  · rw [hsid, Option.map_map]
    rfl
  · rfl

/-- The refresh leaves the users alone and sets suppress for all whom it goes through. -/
theorem member_refreshSuppressStates (cfg : Config) (st : State) (hv : st.server.users.Valid)
    (us : List User) (hus : ∀ u ∈ us, st.server.users.snapshot u.sessionID = some u) :
    (refreshSuppressStates cfg st us).1.server.world = st.server.world ∧
    (refreshSuppressStates cfg st us).1.server.users.Valid ∧
    ∀ sid m', (refreshSuppressStates cfg st us).1.member sid = some m' →
      ∃ m, st.member sid = some m ∧ m'.user = m.user ∧
        (sid ∉ us.map User.sessionID → m' = m) ∧
        (sid ∈ us.map User.sessionID → m'.profile.suppress =
          !speaks cfg.pol st.server.world m.user m.user.channelID) := by
  induction us generalizing st with
  | nil =>
    refine ⟨rfl, hv, fun sid m' hm => ⟨m', hm, rfl, fun _ => rfl, fun hin => ?_⟩⟩
    cases hin
  | cons u rest ih =>
    have hu := hus u mem_cons_self
    have hmay := aclCheck_speak_of_snapshot cfg.pol hu (sessionID_ne_zero hv hu) u.channelID
    unfold refreshSuppressStates
    rw [hmay]
    generalize hb : speaks cfg.pol st.server.world u u.channelID = b
    obtain ⟨hw1, hv1, hm1⟩ := ih _
      (valid_updateState hv u.sessionID fun m =>
        { m with profile := { m.profile with suppress := !b } })
      fun v hv => (snapshot_updateProfile st u.sessionID _ fun p =>
        { p with suppress := !b }).trans (hus v (mem_cons_of_mem _ hv))
    refine ⟨hw1.trans (world_updateUser _ _), hv1, fun sid m' hm => ?_⟩
    obtain ⟨m, hm, huser, hout, hin⟩ := hm1 sid m' hm
    rw [world_updateUser] at hin
    rw [member_updateProfile st u.sessionID (fun p => { p with suppress := !b })] at hm
    split_ifs at hm with hsid
    · obtain ⟨m₀, hm₀, rfl⟩ := map_eq_some_iff.mp hm
      have hm₀u : m₀.user = u := by
        have hsame := snapshot_of_member hm₀
        rw [sessionID_of_member hm₀, hu] at hsame
        exact (some.inj hsame).symm
      refine ⟨m₀, hsid ▸ hm₀, huser, fun hnot => absurd ?_ hnot, fun _ => ?_⟩
      · rw [hsid]
        exact mem_cons_self
      · by_cases hrest : sid ∈ rest.map User.sessionID
        · exact hin hrest
        · rw [hout hrest, hm₀u, hb]
    · refine ⟨m, hm, huser, fun hnot => hout fun hr => hnot (mem_cons_of_mem _ hr),
        fun hmem => hin ((mem_cons.mp hmem).resolve_left hsid)⟩

theorem Disciplined.editACL (h : Disciplined cfg.pol s) (db : Acl.Database) :
    Disciplined cfg.pol (editACL cfg s db).1 := by
  obtain ⟨hworld, hvalid, hmembers⟩ := member_refreshSuppressStates cfg
    { s.state with
      server := { s.state.server with world := { s.state.server.world with db := db } } }
    h.valid s.users.bySession fun u hu => snapshot_of_mem h.valid hu
  have hcs := congrArg Acl.World.channels hworld
  refine { toPlanted := h.toPlanted.congr hcs rfl, valid := hvalid, members := ?_ }
  intro sid m' hm'
  obtain ⟨m, hm, huser, -, hsup⟩ := hmembers sid m' hm'
  have hm₀ : s.state.member sid = some m := hm
  obtain ⟨hmem, hsid⟩ := mem_of_snapshot (snapshot_of_member hm)
  have hset := hsup (sessionID_of_member hm ▸ mem_map_of_mem hmem)
  have hhush : Hushed cfg.pol { s.state.server.world with db := db } m' := by
    unfold Hushed
    rw [hset, huser]
    cases speaks cfg.pol { s.state.server.world with db := db } m.user m.user.channelID with
    | true => exact .inr (.inl rfl)
    | false => exact .inl rfl
  exact ⟨huser ▸ (h.members sid m hm₀).1,
    (congrArg (fun w => Hushed cfg.pol w m') hworld).mpr hhush⟩

end sessions

/-! ### Runs -/

/-- Who logs in may speak in the channel it is put into, suppress is cleared only for who may speak
where it is, and whoever may speak in the parent of a channel that is removed may still speak there
after the move. -/
def Considerate (cfg : Config) (s : Site) : Op → Prop
  | .login u _ =>
    ∀ stored ∈ (s.users.add { u with channelID := joinChannelFor cfg s u.userID }).2,
      stored.isSuperUser = true ∨
        speaks cfg.pol s.state.server.world stored stored.channelID = true
  | .userState _ c us =>
    us.suppress = some false → us.channelID = none →
      ∀ target ∈ s.state.member (us.session.getD c.sessionID),
        speaks cfg.pol s.state.server.world target.user target.user.channelID = true ∨
          target.user.isSuperUser = true
  | .channelRemove _ id _ => ∀ ch ∈ s.channels.getChannel id, MayFollow cfg.pol s ch
  | _ => True

theorem disciplined_step (cfg : Config) (s : Site) (op : Op) (h : Disciplined cfg.pol s)
    (hop : Considerate cfg s op) : Disciplined cfg.pol (step cfg s op) := by
  cases op with
  | login u edge => exact h.login u edge hop
  | userState rateAllows c us => exact h.userState rateAllows c us hop
  | channelState | restCreate | restUpdate => exact h.edit (step_edit cfg s rfl)
  | channelRemove c id dbOk => exact h.channelRemove c id dbOk hop
  | restDelete id dbOk => exact h.remove id dbOk
  | disconnect ref => exact (h.unregisterConn ref).removeUser ref
  | kick ref => exact h.kick ref
  | editACL db => exact h.editACL db

/-! ### Voice -/

section voice
variable {pol : Policy} {s : Site} {sid : ℕ} {m : Member}

/-- Who may not speak where it is reaches nobody, unless it should be suppressed and is not. -/
theorem Disciplined.no_way (h : Disciplined pol s) (hm : s.state.member sid = some m)
    (hvoice : silenced m.profile.toVoiceState = false)
    (hspeak : aclCheck pol s.state.server (subjectOf m.user) m.user.channelID Permission.speak =
      false) (dst : ℕ) (c : Context) (v : UInt32) : ¬Way pol s.state m dst c v := by
  have hcheck := aclCheck_speak_of_snapshot pol (snapshot_of_member hm)
    (sessionID_ne_zero h.valid (snapshot_of_member hm))
  have hnowhere : ∀ cid, s.state.server.world.channels.Connected m.user.channelID cid →
      aclCheck pol s.state.server (subjectOf m.user) cid Permission.speak = false := by
    intro cid hconn
    rcases (h.members sid m hm).2 with hs | hs | hs | hs
    · simp [silenced, hs] at hvoice
    · rw [hcheck, hs] at hspeak
      cases hspeak
    · rw [hcheck]
      exact speaks_superUser pol _ hs cid
    · rcases hconn.cases_head with rfl | ⟨d, hlink, -⟩
      · exact hspeak
      · exact absurd (hs.symm.trans hlink.2.1) Bool.false_ne_true
  intro hway
  cases hway with
  | occupant hconn hmay | listener hconn hmay =>
    exact absurd (hmay.symm.trans (hnowhere _ hconn)) (by decide)

end voice

theorem disciplined_start (pol : Policy) {s : Site} (hs : Planted s) (hvalid : s.users.Valid)
    (husers : s.users.bySession = []) : Disciplined pol s where
  toPlanted := hs
  valid := hvalid
  members := by
    intro sid m hm
    have hmem := (mem_of_snapshot (snapshot_of_member hm)).1
    rw [show s.state.server.users.bySession = [] from husers] at hmem
    cases hmem

/-- **No Speak at home, no voice anywhere**: in every run of considerate operations from a server
with a channel tree and nobody on it, normal voice of a sender who may not speak in the channel it
is in goes to nobody. -/
theorem no_speak_at_home_no_voice (cfg : Config) {s : Site} (hs : Planted s)
    (hvalid : s.users.Valid) (husers : s.users.bySession = []) (ops : List Op)
    (h : Along (step cfg) (Considerate cfg) s ops) (channelCrypto : List (ℕ × String))
    (resolveVoiceTarget : ℕ → UInt8 → Voice.Frame → List Voice.Recipient) (order : Voice.Order)
    (horder : order.Of (run (step cfg) s ops).state) (sender : SessionRef) (f : Voice.Frame)
    (htarget : f.target = 0) (m : Member)
    (hm : (run (step cfg) s ops).state.member sender.sessionID = some m)
    (hspeak : aclCheck cfg.pol (run (step cfg) s ops).state.server (subjectOf m.user)
      m.user.channelID Permission.speak = false) :
    ∀ batch ∈ Voice.routeRef cfg.pol ⟨(run (step cfg) s ops).state, channelCrypto⟩
      resolveVoiceTarget order sender f, batch.recipients = [] := by
  have hend := run_inv (disciplined_step cfg) (disciplined_start cfg.pol hs hvalid husers) h
  intro batch hbatch
  exact recipients_of_no_way cfg.pol _ resolveVoiceTarget horder sender htarget hm
    (fun hvoice => hend.no_way hm hvoice hspeak) hbatch

/-! ### Runs where it holds and where it does not -/

instance (pol : Policy) (s : Site) (ch : Channel) : Decidable (MayFollow pol s ch) :=
  inferInstanceAs (Decidable (∀ u ∈ s.users.bySession, u.channelID = ch.id →
    speaks pol s.state.server.world u ch.parentID = true →
      speaks pol s.state.server.world { u with channelID := ch.parentID } ch.parentID = true))

instance (cfg : Config) (s : Site) : ∀ op : Op, Decidable (Considerate cfg s op)
  | .login u _ => inferInstanceAs (Decidable
      (∀ stored ∈ (s.users.add { u with channelID := joinChannelFor cfg s u.userID }).2,
        stored.isSuperUser = true ∨
          speaks cfg.pol s.state.server.world stored stored.channelID = true))
  | .userState _ c us => inferInstanceAs (Decidable
      (us.suppress = some false → us.channelID = none →
        ∀ target ∈ s.state.member (us.session.getD c.sessionID),
          speaks cfg.pol s.state.server.world target.user target.user.channelID = true ∨
            target.user.isSuperUser = true))
  | .channelRemove _ id _ => inferInstanceAs (Decidable
      (∀ ch ∈ s.channels.getChannel id, MayFollow cfg.pol s ch))
  | .channelState .. | .restCreate .. | .restUpdate .. | .restDelete .. | .disconnect ..
  | .kick .. | .editACL .. => isTrue trivial

/-- One row for the root channel: the group may mute others there, and may not speak. -/
def gagged (group : String) : Acl.Database where
  acls := [⟨1, 1, 0, 0, true, false, none, group, "", false, false, Permission.muteDeafen,
    Permission.speak⟩]
  groups := []
  accounts := []

/-- A channel that is linked with the root, and a user in it. -/
def linkedLounge : List Op :=
  [.restCreate 1 0 "Lounge" "" 0 false 0,
    .restUpdate 0 ⟨none, none, none, none, none, none, [], []⟩ (some [1]) true,
    .login (client 7 "alice") "local", enter]

/-- The voice of a session after a run. -/
def voiceAfter (ops : List Op) (sender : SessionRef) : Option (List SessionRef) :=
  (Voice.routeRef config.pol ⟨(run (step config) newSite ops).state, []⟩ (fun _ _ _ => [])
    (Voice.tableOrder (run (step config) newSite ops).state) sender Voice.plainFrame).map
      fun b => b.recipients.map Voice.VoiceRecipient.session

/-- The right of a session to speak in the channel it is in, after a run. -/
def speakAtHome (ops : List Op) (sid : ℕ) : Option Bool :=
  ((run (step config) newSite ops).state.member sid).map fun m =>
    aclCheck config.pol (run (step config) newSite ops).state.server (subjectOf m.user)
      m.user.channelID Permission.speak

def bob : User := client 8 "bob"

def superUser : User := { client 9 "SuperUser" with isSuperUser := true }

/-- The access control lists change while the user is there. -/
theorem no_speak_at_home_no_voice_gagged :
    speakAtHome (linkedLounge ++ [.login bob "local", .editACL (gagged "all")]) 2 = some false ∧
    ∀ batch ∈ Voice.routeRef config.pol
      ⟨(run (step config) newSite
        (linkedLounge ++ [.login bob "local", .editACL (gagged "all")])).state, []⟩
      (fun _ _ _ => []) (Voice.tableOrder (run (step config) newSite
        (linkedLounge ++ [.login bob "local", .editACL (gagged "all")])).state) ⟨2, 2⟩
      Voice.plainFrame, batch.recipients = [] := by
  refine ⟨by decide +kernel, ?_⟩
  exact no_speak_at_home_no_voice config planted_newSite (valid_new 10) rfl _
    (by decide +kernel) [] _ _ (tableOrder_of _) ⟨2, 2⟩ plainFrame rfl
    ⟨{ bob with sessionID := 2, sessionGeneration := 2, authorizationRevision := 1 },
      { suppress := true }⟩ (by decide +kernel) (by decide +kernel)

/-- Who may not speak in the root channel is heard in the linked one: after a login, when somebody
clears suppress, and after the channel it was in is removed. -/
theorem heard_without_speak :
    let login := linkedLounge ++ [.editACL (gagged "all"), .login bob "local"]
    let cleared := linkedLounge ++ [.login bob "local", .editACL (gagged "all"),
      .userState true ⟨1, 1⟩ { session := some 2, suppress := some false }]
    let removed := linkedLounge ++ [.restCreate 2 0 "Attic" "" 0 false 0, .login bob "local",
      .userState true ⟨2, 2⟩ { channelID := some 2 }, .editACL (gagged "in"),
      .login superUser "local", .channelRemove ⟨3, 3⟩ 2 true]
    (speakAtHome login 2 = some false ∧ voiceAfter login ⟨2, 2⟩ = some [⟨1, 1⟩]) ∧
    (speakAtHome cleared 2 = some false ∧ voiceAfter cleared ⟨2, 2⟩ = some [⟨1, 1⟩]) ∧
    (speakAtHome removed 2 = some false ∧ voiceAfter removed ⟨2, 2⟩ = some [⟨1, 1⟩]) := by
  decide +kernel

end MumbleServer.ServerOps

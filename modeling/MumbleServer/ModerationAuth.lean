import MumbleServer.Moderation

/-! # UserState authorization

What a UserState message may do: `Authorized` lists the permissions the sender needs, in terms of
the message and of the state before it, and `Explained` says of two versions of a record that the
message asked for what differs.  `userState_sound` connects them with the handler. -/

namespace MumbleServer.Moderation

open List Option UserManager Fallible
open Acl (Permission Subject subjectOf)

/-! ### Records -/

section records
variable (st : State) (sid : ℕ) (fn : Member → Member)

theorem member_updateUser (other : ℕ) :
    (st.updateUser sid fn).member other =
      if other = sid then
        (st.member sid).map fun m =>
          ⟨updated m.user (fun u => (fn ⟨u, m.profile⟩).user), (fn m).profile⟩
      else st.member other := by
  unfold State.updateUser
  cases hs : st.server.users.snapshot sid with
  | none =>
    split_ifs with ho
    · simp [State.member, ho, hs]
    · rfl
  | some u =>
    have hsid := (mem_of_snapshot hs).2
    have hu : (updated u fun u => (fn ⟨u, st.profiles sid⟩).user).sessionID = sid := by
      rw [updated_sessionID, hsid]
    simp only [State.member, updateUser, hs]
    split_ifs with ho
    · subst ho
      have hself := snapshot_put_self
        (v := updated u fun u => (fn ⟨u, st.profiles other⟩).user) (by rw [hu]; exact hs)
      rw [hu] at hself
      simp [hself]
    · rw [snapshot_put_of_ne (by rw [hu]; exact ho)]
      simp [Function.update_of_ne ho]

variable {st} in
@[simp] theorem world_updateUser : (st.updateUser sid fn).server.world = st.server.world := by
  unfold State.updateUser
  split <;> rfl

variable {st} in
@[simp] theorem listeners_updateUser : (st.updateUser sid fn).listeners = st.listeners := by
  unfold State.updateUser
  split <;> rfl

variable {st} in
@[simp] theorem registry_updateUser : (st.updateUser sid fn).registry = st.registry := by
  unfold State.updateUser
  split <;> rfl

theorem updated_id (u : User) : updated u (fun u => u) = u := by
  have hpin : pinned u u = u := rfl
  have hauth : authorizationChanged u u = false := authorizationChanged_eq_false.mpr rfl
  unfold updated
  rw [hpin, hauth]
  rfl

theorem member_updateProfile (f : Profile → Profile) (other : ℕ) :
    (st.updateUser sid fun m => { m with profile := f m.profile }).member other =
      if other = sid then (st.member sid).map fun m => { m with profile := f m.profile }
      else st.member other := by
  rw [member_updateUser]
  simp only [updated_id]

theorem member_updateRecord (us : UserState) (maySpeak : Option Bool) (other : ℕ) :
    (updateRecord st sid us maySpeak).member other =
      if other = sid then
        (st.member sid).map fun m =>
          { m with profile := (applyUserState us maySpeak m.profile).1 }
      else st.member other :=
  member_updateProfile st sid (fun p => (applyUserState us maySpeak p).1) other

end records

/-! ### What a message needs and what it may change -/

def Room (sv : Acl.Server) (channelID : ℕ) : Prop :=
  ∀ ch, sv.world.channels.getChannel channelID = some ch →
    ch.maxUsers = 0 ∨ countInChannel sv channelID < ch.maxUsers

/-- The first channel on the way to the root that is not temporary. -/
def FirstPermanent (channels : Channels) (channelID cid : ℕ) : Prop :=
  ∃ pre post, channels.ancestorChain channelID = pre ++ cid :: post ∧
    (∀ c ∈ pre, ∃ ch, channels.getChannel c = some ch ∧ ch.isTemporary = true) ∧
    ∃ ch, channels.getChannel cid = some ch ∧ ch.isTemporary = false

/-- The sender may do to the target what the message asks for. -/
structure Authorized (pol : Policy) (sv : Acl.Server) (sender target : User) (us : UserState) :
    Prop where
  superUser : target.isSuperUser = true → sender.isSuperUser = true
  selfOnly : target.sessionID ≠ sender.sessionID → us.hasSelfOnly = false
  suppress : us.suppress ≠ some true
  muteDeafen : us.hasAdminVoice = true →
    aclCheck pol sv (subjectOf sender) target.channelID Permission.muteDeafen = true
  permanent : us.hasMuteDeafSuppress = true →
    ∃ cid, FirstPermanent sv.world.channels target.channelID cid ∧
      aclCheck pol sv (subjectOf sender) cid Permission.muteDeafen = true
  comment : target.sessionID ≠ sender.sessionID → ∀ comment, us.comment = some comment →
    comment = "" ∧ aclCheck pol sv (subjectOf sender) rootChannelID Permission.resetUser = true
  texture : target.sessionID ≠ sender.sessionID → ∀ texture, us.texture = some texture →
    texture = [] ∧ aclCheck pol sv (subjectOf sender) rootChannelID Permission.resetUser = true
  source : target.sessionID ≠ sender.sessionID → us.channelID.isSome = true →
    aclCheck pol sv (subjectOf sender) target.channelID Permission.move = true
  destination : ∀ cid, us.channelID = some cid →
    aclCheck pol sv (subjectOf sender) cid Permission.move = true ∨
      aclCheck pol sv (subjectOf target) cid Permission.enter = true
  room : ∀ cid, us.channelID = some cid →
    Room sv cid ∨ aclCheck pol sv (subjectOf sender) cid Permission.write = true

/-- What differs between two versions of a record is what the message asks for.  Muting and
deafening go together, and a move takes the priority away and sets suppress anew. -/
structure Explained (us : UserState) (before after : Member) : Prop where
  user : after.user = { before.user with
    channelID := after.user.channelID
    authorizationRevision := after.user.authorizationRevision }
  revision : after.user.authorizationRevision ≠ before.user.authorizationRevision →
    us.channelID.isSome = true
  channel : after.user.channelID ≠ before.user.channelID →
    us.channelID = some after.user.channelID
  mute : after.profile.mute ≠ before.profile.mute ∨ after.profile.deaf ≠ before.profile.deaf →
    us.mute.isSome = true ∨ us.deaf.isSome = true
  suppress : after.profile.suppress ≠ before.profile.suppress →
    us.suppress = some after.profile.suppress ∨ us.channelID.isSome = true
  prioritySpeaker : after.profile.prioritySpeaker ≠ before.profile.prioritySpeaker →
    us.prioritySpeaker = some after.profile.prioritySpeaker ∨ us.channelID.isSome = true
  selfMute : after.profile.selfMute ≠ before.profile.selfMute ∨
      after.profile.selfDeaf ≠ before.profile.selfDeaf →
    us.selfMute.isSome = true ∨ us.selfDeaf.isSome = true
  recording : after.profile.recording ≠ before.profile.recording →
    us.recording = some after.profile.recording
  texture : after.profile.texture ≠ before.profile.texture →
    us.texture = some after.profile.texture
  comment : after.profile.comment ≠ before.profile.comment →
    us.comment = some after.profile.comment
  pluginIdentity : after.profile.pluginIdentity ≠ before.profile.pluginIdentity →
    us.pluginIdentity = some after.profile.pluginIdentity
  pluginContext : after.profile.pluginContext ≠ before.profile.pluginContext →
    us.pluginContext = some after.profile.pluginContext

/-- The fields that nobody but their owner changes. -/
def Profile.selfOnly (p : Profile) : Bool × Bool × Bool × String × List UInt8 :=
  (p.selfMute, p.selfDeaf, p.recording, p.pluginIdentity, p.pluginContext)

variable {us : UserState} {before after : Member}

theorem Explained.selfOnly (h : Explained us before after) (hus : us.hasSelfOnly = false) :
    after.profile.selfOnly = before.profile.selfOnly := by
  simp only [UserState.hasSelfOnly, Bool.or_eq_false_iff] at hus
  obtain ⟨⟨⟨⟨hmute, hdeaf⟩, hcontext⟩, hidentity⟩, hrecording⟩ := hus
  have hunset : ∀ {α : Type} {x y : α} {o : Option α}, o.isSome = false → (x ≠ y → o = some x) →
      x = y := by
    intro α x y o ho hxy
    by_contra hne
    simp [hxy hne] at ho
  have hvoice : after.profile.selfMute = before.profile.selfMute ∧
      after.profile.selfDeaf = before.profile.selfDeaf := by
    have := mt h.selfMute (by simp [hmute, hdeaf])
    simpa only [not_or, not_not] using this
  unfold Profile.selfOnly
  rw [hvoice.1, hvoice.2, hunset hrecording h.recording, hunset hidentity h.pluginIdentity,
    hunset hcontext h.pluginContext]

/-- The output is no UserState about anything but listening. -/
def Output.Quiet : Output → Prop
  | .reply us => us.hasHandled = false
  | .broadcast _ us => us.hasHandled = false
  | _ => True

/-- The output is no UserState at all. -/
def Output.Untold : Output → Prop
  | .reply _ => False
  | .broadcast _ _ => False
  | _ => True

theorem Output.Untold.quiet {o : Output} (h : o.Untold) : o.Quiet := by
  cases o with
  | reply us | broadcast except us => exact h.elim
  | _ => trivial

/-- The output does not refuse the message. -/
def Output.Accepting : Output → Prop
  | .denied _ => False
  | _ => True

/-! ### Listening -/

/-- Only what sessions listen to differs. -/
structure ListenOnly (st st' : State) : Prop where
  server : st'.server = st.server
  profiles : st'.profiles = st.profiles
  registry : st'.registry = st.registry

section listening
variable {pol : Policy} {target : User} {st st' st'' : State}

theorem ListenOnly.refl (st : State) : ListenOnly st st := ⟨rfl, rfl, rfl⟩

theorem ListenOnly.trans (h : ListenOnly st st') (h' : ListenOnly st' st'') : ListenOnly st st'' :=
  ⟨h'.server.trans h.server, h'.profiles.trans h.profiles, h'.registry.trans h.registry⟩

theorem ListenOnly.member (h : ListenOnly st st') (sid : ℕ) : st'.member sid = st.member sid := by
  unfold State.member
  rw [h.server, h.profiles]

variable (pol target)

theorem listen_spec (st : State) (cid : ℕ) :
    ListenOnly st (listen pol target st cid).1 ∧
      ∀ o ∈ (listen pol target st cid).2.1, o.Quiet ∧ o.Accepting := by
  unfold listen
  split
  · exact ⟨.refl st, by simp⟩
  · split_ifs
    all_goals exact ⟨⟨rfl, rfl, rfl⟩, by simp [Output.Quiet, Output.Accepting]⟩

theorem listenAll_spec (st : State) (cids : List ℕ) :
    ListenOnly st (listenAll pol target st cids).1 ∧
      ∀ o ∈ (listenAll pol target st cids).2.1, o.Quiet ∧ o.Accepting := by
  induction cids generalizing st with
  | nil => exact ⟨.refl st, by simp [listenAll]⟩
  | cons cid rest ih =>
    obtain ⟨hone, hout⟩ := listen_spec pol target st cid
    obtain ⟨hrest, houts⟩ := ih (listen pol target st cid).1
    refine ⟨hone.trans hrest, fun o ho => ?_⟩
    rcases mem_append.mp ho with ho | ho
    · exact hout o ho
    · exact houts o ho

theorem unlistenAll_spec (st : State) (cids : List ℕ) :
    ListenOnly st (unlistenAll target st cids).1 := by
  induction cids generalizing st with
  | nil => exact .refl st
  | cons cid rest ih =>
    unfold unlistenAll
    split_ifs
    · refine ListenOnly.trans ?_ (ih _)
      exact ⟨rfl, rfl, rfl⟩
    · exact ih st

theorem adjustVolumes_spec (st : State) (vas : List VolumeAdjustment) :
    ListenOnly st (adjustVolumes target st vas).1 := by
  induction vas generalizing st with
  | nil => exact .refl st
  | cons va rest ih =>
    unfold adjustVolumes
    split_ifs
    · refine ListenOnly.trans ?_ (ih _)
      exact ⟨rfl, rfl, rfl⟩
    · exact ih st

theorem applyListening_spec (st : State) (actor : ℕ) (us : UserState) :
    ListenOnly st (applyListening pol target st actor us).1 ∧
      ∀ o ∈ (applyListening pol target st actor us).2, o.Quiet ∧ o.Accepting := by
  obtain ⟨hadd, hout⟩ := listenAll_spec pol target st us.listeningChannelAdd
  have hall := (hadd.trans (unlistenAll_spec target _ us.listeningChannelRemove)).trans
    (adjustVolumes_spec target _ us.listeningVolumeAdjustment)
  unfold applyListening
  dsimp only
  split_ifs
  · exact ⟨hall, hout⟩
  · refine ⟨hall, fun o ho => ?_⟩
    rcases mem_append.mp ho with ho | ho
    · exact hout o ho
    · simp only [mem_cons, not_mem_nil, or_false] at ho
      rcases ho with rfl | rfl <;> exact ⟨rfl, trivial⟩

end listening

/-! ### The checks -/

/-- A check that fails sends no UserState. -/
def Silent {α : Type} (p : Check α) : Prop :=
  ∀ st outs, p.on st = .error outs → ∀ o ∈ outs, o.Quiet

/-- The check reads nothing of what sessions listen to, and no UserState goes out if it fails. -/
structure Discreet {α : Type} (p : Check α) : Prop where
  agrees : ∀ st st', ListenOnly st st' → p.Agrees st st'
  untold : ∀ st outs, p.on st = .error outs → ∀ o ∈ outs, o.Untold

section checks
variable {α β : Type} {st : State}
variable {outs : List Output} {f : α → Check β} {p : Check α}

theorem on_bind_eq_ok {b : β} :
    (p >>= f).on st = .ok b ↔ ∃ a, p.on st = .ok a ∧ (f a).on st = .ok b := by
  rw [on_bind]
  cases p.on st with
  | error e =>
    constructor
    · intro h
      cases h
    · rintro ⟨a, ha, -⟩
      cases ha
  | ok a =>
    constructor
    · intro h
      exact ⟨a, rfl, h⟩
    · rintro ⟨a', ha, h⟩
      cases ha
      exact h

theorem on_pure_eq_ok {a b : α} : (pure a : Check α).on st = .ok b ↔ a = b := by
  rw [on_pure, Except.ok.injEq]

theorem on_look_eq_ok {f : State → α} {a : α} : (look f).on st = .ok a ↔ f st = a := by
  rw [look, on_ask, Except.ok.injEq]

theorem refuseIf_eq_ok {b : Bool} {u : Unit} : (refuseIf b outs).on st = .ok u ↔ b = false := by
  cases b with
  | false => exact ⟨fun _ => rfl, fun _ => rfl⟩
  | true =>
    constructor
    · intro h
      cases h
    · intro h
      cases h

theorem checkIf_eq_ok {b : Bool} {p : Check Unit} {u : Unit} :
    (checkIf b p).on st = .ok u ↔ (b = true → p.on st = .ok u) := by
  cases b with
  | false => exact ⟨fun _ => by simp, fun _ => rfl⟩
  | true => exact ⟨fun h _ => h, fun h => h rfl⟩

theorem discreet_pure (a : α) : Discreet (pure a : Check α) where
  agrees _ _ _ := rfl
  untold st outs h := by cases h

theorem discreet_throw (h : ∀ o ∈ outs, o.Untold) : Discreet (throw outs : Check α) where
  agrees _ _ _ := rfl
  untold st outs' he := by
    cases he
    exact h

theorem discreet_look {f : State → α} (h : ∀ st st', ListenOnly st st' → f st = f st') :
    Discreet (look f) where
  agrees st st' hl := agrees_ask (congrArg Except.ok (h st st' hl))
  untold st outs h := by cases h

theorem discreet_server (f : Acl.Server → α) : Discreet (look fun st => f st.server) :=
  discreet_look fun _ _ hl => by rw [hl.server]

theorem Discreet.bind (hp : Discreet p) (hf : ∀ a, Discreet (f a)) : Discreet (p >>= f) where
  agrees st st' hl := (hp.agrees st st' hl).bind fun a => (hf a).agrees st st' hl
  untold st outs h := by
    rw [on_bind] at h
    cases hr : p.on st with
    | error e =>
      rw [hr] at h
      cases h
      exact hp.untold st outs hr
    | ok a =>
      rw [hr] at h
      exact (hf a).untold st outs h

theorem discreet_refuseIf (h : ∀ o ∈ outs, o.Untold) (b : Bool) : Discreet (refuseIf b outs) := by
  cases b with
  | false => exact discreet_pure ()
  | true => exact discreet_throw h

theorem Discreet.checkIf {p : Check Unit} (hp : Discreet p) (b : Bool) :
    Discreet (checkIf b p) := by
  cases b with
  | false => exact discreet_pure ()
  | true => exact hp

theorem untold_nil : ∀ o ∈ ([] : List Output), o.Untold := by simp

theorem untold_deny (channelID : ℕ) (type : DenyType) (reason : String) :
    ∀ o ∈ deny channelID type reason, o.Untold := by
  simp [deny, Output.Untold]

end checks

section handler
variable {pol : Policy} {st : State} {sender : User} {target : Member} {admin : Bool}
  {us : UserState}

theorem firstPermanentLoop_ok {chain : List ℕ} {cid : ℕ}
    (h : (firstPermanentLoop chain).on st = .ok (some cid)) :
    ∃ pre post, chain = pre ++ cid :: post ∧
      (∀ c ∈ pre, ∃ ch, st.server.world.channels.getChannel c = some ch ∧ ch.isTemporary = true) ∧
      ∃ ch, st.server.world.channels.getChannel cid = some ch ∧ ch.isTemporary = false := by
  induction chain with
  | nil => cases on_pure_eq_ok.mp h
  | cons c rest ih =>
    obtain ⟨found, hfound, h⟩ := on_bind_eq_ok.mp h
    rw [on_look_eq_ok] at hfound
    cases found with
    | none => cases on_pure_eq_ok.mp h
    | some ch =>
      dsimp only at h
      split_ifs at h with htemp
      · obtain ⟨pre, post, hchain, hpre, hcid⟩ := ih h
        refine ⟨c :: pre, post, by rw [hchain, cons_append], ?_, hcid⟩
        exact forall_mem_cons.mpr ⟨⟨ch, hfound, htemp⟩, hpre⟩
      · obtain rfl := some.inj (on_pure_eq_ok.mp h)
        exact ⟨[], rest, rfl, by simp, ch, hfound, by simpa using htemp⟩

theorem checkPermanent_ok (h : (checkPermanent pol sender target).on st = .ok ()) :
    ∃ cid, FirstPermanent st.server.world.channels target.user.channelID cid ∧
      aclCheck pol st.server (subjectOf sender) cid Permission.muteDeafen = true := by
  obtain ⟨permanent, hperm, h⟩ := on_bind_eq_ok.mp h
  obtain ⟨chain, hchain, hperm⟩ := on_bind_eq_ok.mp hperm
  rw [on_look_eq_ok] at hchain
  subst hchain
  cases permanent with
  | none => cases h
  | some cid =>
    obtain ⟨may, hmay, h⟩ := on_bind_eq_ok.mp h
    rw [allowed, on_look_eq_ok] at hmay
    rw [refuseIf_eq_ok, Bool.not_eq_false'] at h
    exact ⟨cid, firstPermanentLoop_ok hperm, hmay.trans h⟩

theorem checkVoice_ok (h : (checkVoice pol sender target us).on st = .ok ()) :
    us.suppress ≠ some true ∧
    (us.hasAdminVoice = true →
      aclCheck pol st.server (subjectOf sender) target.user.channelID Permission.muteDeafen = true) ∧
    (us.hasMuteDeafSuppress = true →
      ∃ cid, FirstPermanent st.server.world.channels target.user.channelID cid ∧
        aclCheck pol st.server (subjectOf sender) cid Permission.muteDeafen = true) := by
  rw [checkVoice, checkIf_eq_ok] at h
  simp only [on_bind_eq_ok, refuseIf_eq_ok, checkIf_eq_ok, allowed, on_look_eq_ok,
    Bool.not_eq_false', exists_and_left, exists_eq_left', exists_const] at h
  refine ⟨fun hs => ?_, fun hv => (h hv).2.1, fun hm => ?_⟩
  · have hv : us.hasAdminVoice = true := by
      simp [UserState.hasAdminVoice, UserState.hasMuteDeafSuppress, hs]
    have hclear := (h hv).1
    simp [hs] at hclear
  · exact checkPermanent_ok ((h (by simp [UserState.hasAdminVoice, hm])).2.2 hm)

theorem checkReset_ok {isEmpty : Bool} {reason : String}
    (h : (checkReset pol sender target isEmpty reason).on st = .ok ()) :
    isEmpty = true ∧
      aclCheck pol st.server (subjectOf sender) rootChannelID Permission.resetUser = true := by
  simp only [checkReset, on_bind_eq_ok, refuseIf_eq_ok, allowed, on_look_eq_ok,
    Bool.not_eq_false', exists_and_left, exists_eq_left', exists_const] at h
  exact ⟨h.2, h.1⟩

theorem checkComment_ok (h : (checkComment pol sender target true us).on st = .ok ())
    {comment : String} (hc : us.comment = some comment) :
    comment = "" ∧
      aclCheck pol st.server (subjectOf sender) rootChannelID Permission.resetUser = true := by
  rw [checkComment, hc] at h
  obtain ⟨_, hreset, -⟩ := on_bind_eq_ok.mp h
  obtain ⟨hempty, hmay⟩ := checkReset_ok (checkIf_eq_ok.mp hreset rfl)
  exact ⟨by simpa using hempty, hmay⟩

theorem checkTexture_ok (h : (checkTexture pol sender target true us).on st = .ok ())
    {texture : List UInt8} (ht : us.texture = some texture) :
    texture = [] ∧
      aclCheck pol st.server (subjectOf sender) rootChannelID Permission.resetUser = true := by
  rw [checkTexture, ht] at h
  obtain ⟨_, -, hreset⟩ := on_bind_eq_ok.mp h
  obtain ⟨hempty, hmay⟩ := checkReset_ok (checkIf_eq_ok.mp hreset rfl)
  exact ⟨by simpa using hempty, hmay⟩

theorem room_of_not_full {channelID : ℕ} {subject : Subject}
    (h : (channelIsFull pol channelID subject).on st = .ok false) :
    Room st.server channelID ∨ aclCheck pol st.server subject channelID Permission.write = true := by
  by_cases hw : aclCheck pol st.server subject channelID Permission.write = true
  · exact .inr hw
  · left
    intro ch hch
    obtain ⟨found, hfound, h⟩ := on_bind_eq_ok.mp h
    rw [on_look_eq_ok, hch] at hfound
    subst hfound
    dsimp only at h
    split_ifs at h with hzero
    · exact .inl hzero
    · obtain ⟨may, hmay, h⟩ := on_bind_eq_ok.mp h
      rw [allowed, on_look_eq_ok] at hmay
      rw [if_neg (by rwa [← hmay])] at h
      obtain ⟨count, hcount, h⟩ := on_bind_eq_ok.mp h
      rw [on_look_eq_ok] at hcount
      rw [on_pure_eq_ok, ← hcount] at h
      exact .inr (by simpa using h)

theorem checkMove_ok (h : (checkMove pol sender target admin us).on st = .ok ()) {cid : ℕ}
    (hc : us.channelID = some cid) :
    (admin = true →
      aclCheck pol st.server (subjectOf sender) target.user.channelID Permission.move = true) ∧
    (aclCheck pol st.server (subjectOf sender) cid Permission.move = true ∨
      aclCheck pol st.server (subjectOf target.user) cid Permission.enter = true) ∧
    (Room st.server cid ∨
      aclCheck pol st.server (subjectOf sender) cid Permission.write = true) := by
  rw [checkMove, hc] at h
  simp only [on_bind_eq_ok, refuseIf_eq_ok, checkIf_eq_ok, allowed, on_look_eq_ok,
    Bool.not_eq_false', exists_and_left, exists_eq_left', exists_const] at h
  obtain ⟨-, -, hsource, hdest, full, hfull, hroom⟩ := h
  subst hroom
  refine ⟨hsource, ?_, room_of_not_full hfull⟩
  by_cases hm : aclCheck pol st.server (subjectOf sender) cid Permission.move = true
  · exact .inl hm
  · exact .inr (hdest (by simpa using hm))

@[simp] theorem dropRecording_channelID (us : UserState) (p : Profile) :
    (us.dropRecording p).channelID = us.channelID := by
  unfold UserState.dropRecording
  split_ifs <;> rfl

theorem firstPermanentLoop_discreet (chain : List ℕ) : Discreet (firstPermanentLoop chain) := by
  induction chain with
  | nil => exact discreet_pure none
  | cons cid rest ih =>
    refine (discreet_server fun sv => sv.world.channels.getChannel cid).bind fun found => ?_
    cases found with
    | none => exact discreet_pure none
    | some ch =>
      dsimp only
      split_ifs
      · exact ih
      · exact discreet_pure _

theorem allowed_discreet (subject : Subject) (channelID : ℕ) (perm : Permission) :
    Discreet (allowed pol subject channelID perm) :=
  discreet_server fun sv => aclCheck pol sv subject channelID perm

theorem channelIsFull_discreet (channelID : ℕ) (subject : Subject) :
    Discreet (channelIsFull pol channelID subject) := by
  refine (discreet_server fun sv => sv.world.channels.getChannel channelID).bind fun found => ?_
  cases found with
  | none => exact discreet_pure _
  | some ch =>
    dsimp only
    split_ifs
    · exact discreet_pure _
    · refine (allowed_discreet _ _ _).bind fun may => ?_
      split_ifs
      · exact discreet_pure _
      · exact (discreet_server fun sv => countInChannel sv channelID).bind fun _ =>
          discreet_pure _

theorem checkPermanent_discreet : Discreet (checkPermanent pol sender target) := by
  refine ((discreet_server fun sv => sv.world.channels.ancestorChain target.user.channelID).bind
    fun _ => firstPermanentLoop_discreet _).bind fun permanent => ?_
  cases permanent with
  | none => exact discreet_throw (untold_deny _ _ _)
  | some cid =>
    exact (allowed_discreet _ _ _).bind fun _ => discreet_refuseIf (untold_deny _ _ _) _

theorem checkVoice_discreet : Discreet (checkVoice pol sender target us) :=
  Discreet.checkIf ((discreet_refuseIf (untold_deny _ _ _) _).bind fun _ =>
    (allowed_discreet _ _ _).bind fun _ => (discreet_refuseIf (untold_deny _ _ _) _).bind fun _ =>
    checkPermanent_discreet.checkIf _) _

theorem checkReset_discreet (isEmpty : Bool) (reason : String) :
    Discreet (checkReset pol sender target isEmpty reason) :=
  (allowed_discreet _ _ _).bind fun _ => (discreet_refuseIf (untold_deny _ _ _) _).bind fun _ =>
    discreet_refuseIf (untold_deny _ _ _) _

theorem checkComment_discreet : Discreet (checkComment pol sender target admin us) := by
  unfold checkComment
  split
  · exact discreet_pure _
  · exact ((checkReset_discreet _ _).checkIf _).bind fun _ =>
      discreet_refuseIf (untold_deny _ _ _) _

theorem checkTexture_discreet : Discreet (checkTexture pol sender target admin us) := by
  unfold checkTexture
  split
  · exact discreet_pure _
  · exact (discreet_refuseIf (untold_deny _ _ _) _).bind fun _ =>
      (checkReset_discreet _ _).checkIf _

theorem checkRecording_discreet : Discreet (checkRecording pol target us) := by
  have hpresent : Discreet (look fun st => (st.registry.snapshot target.user.ref).isSome) :=
    discreet_look fun _ _ hl => by rw [hl.registry]
  refine Discreet.checkIf (hpresent.bind fun present => discreet_throw ?_) _
  split_ifs
  · simp [Output.Untold]
  · exact untold_nil

theorem checkMove_discreet : Discreet (checkMove pol sender target admin us) := by
  unfold checkMove
  split
  · exact discreet_pure _
  · rename_i channelID _
    refine (discreet_server fun sv => sv.world.channels.getChannel channelID).bind fun _ =>
      (discreet_refuseIf untold_nil _).bind fun _ =>
      (discreet_refuseIf untold_nil _).bind fun _ => Discreet.bind (Discreet.checkIf ?_ _) fun _ =>
      (allowed_discreet _ _ _).bind fun _ => Discreet.bind (Discreet.checkIf ?_ _) fun _ =>
      (channelIsFull_discreet _ _).bind fun _ => discreet_refuseIf (untold_deny _ _ _) _
    · exact (allowed_discreet _ _ _).bind fun _ => discreet_refuseIf (untold_deny _ _ _) _
    · exact (allowed_discreet _ _ _).bind fun _ => discreet_refuseIf (untold_deny _ _ _) _

theorem checkAll_discreet : Discreet (checkAll pol sender target admin us) :=
  (discreet_refuseIf untold_nil _).bind fun _ => (discreet_refuseIf untold_nil _).bind fun _ =>
    checkVoice_discreet.bind fun _ => checkComment_discreet.bind fun _ =>
    checkTexture_discreet.bind fun _ => checkRecording_discreet.bind fun _ =>
    (discreet_refuseIf untold_nil _).bind fun _ => checkMove_discreet.bind fun _ => discreet_pure _

theorem checkAll_silent : Silent (checkAll pol sender target admin us) :=
  fun st outs h o ho => (checkAll_discreet.untold st outs h o ho).quiet

/-- A message that passes the checks is authorized. -/
theorem checkAll_ok {us' : UserState}
    (h : (checkAll pol sender target (isAdminOp sender target.user) us).on st = .ok us')
    (hsuper : target.user.isSuperUser = true → sender.isSuperUser = true) :
    us' = us.dropRecording target.profile ∧ Authorized pol st.server sender target.user us := by
  simp only [checkAll, on_bind_eq_ok, refuseIf_eq_ok, on_pure_eq_ok] at h
  obtain ⟨_, -, _, hself, _, hvoice, _, hcomment, _, htexture, _, -, _, -, _, hmove, hus⟩ := h
  have hother : target.user.sessionID ≠ sender.sessionID →
      isAdminOp sender target.user = true := decide_eq_true
  obtain ⟨hsup, hmd, hperm⟩ := checkVoice_ok hvoice
  refine ⟨hus.symm, ?_⟩
  constructor
  · exact hsuper
  · intro hne
    simpa [hother hne] using hself
  · exact hsup
  · exact hmd
  · exact hperm
  · intro hne comment hc
    rw [hother hne] at hcomment
    exact checkComment_ok hcomment hc
  · intro hne texture ht
    rw [hother hne] at htexture
    exact checkTexture_ok htexture ht
  · intro hne hc
    obtain ⟨cid, hcid⟩ := isSome_iff_exists.mp hc
    exact (checkMove_ok hmove (by simpa using hcid)).1 (hother hne)
  · intro cid hcid
    exact (checkMove_ok hmove (by simpa using hcid)).2.1
  · intro cid hcid
    exact (checkMove_ok hmove (by simpa using hcid)).2.2

end handler

/-! ### The updates -/

section updates

/-- What the self-mute cascade touches, and that it shows in the message. -/
theorem applySelfVoiceState_spec (vs : VoiceState) (us : UserState) :
    ∃ mute deaf mute' deaf', applySelfVoiceState vs us =
        ({ vs with selfMute := mute, selfDeaf := deaf, recording := us.recording.getD vs.recording },
          { us with selfMute := mute', selfDeaf := deaf' }) ∧
      (us.selfMute = none → us.selfDeaf = none → mute = vs.selfMute ∧ deaf = vs.selfDeaf) ∧
      mute'.getD vs.selfMute = mute ∧ deaf'.getD vs.selfDeaf = deaf ∧
      (mute'.isSome || deaf'.isSome) = (us.selfMute.isSome || us.selfDeaf.isSome) := by
  rcases us with ⟨_, _, _, _, _, _, _, _, selfMute, selfDeaf⟩
  rcases selfDeaf with _ | _ | _ <;> rcases selfMute with _ | _ | _
  all_goals exact ⟨_, _, _, _, rfl, by simp, rfl, rfl, rfl⟩

/-- What the mute cascade touches, and that it shows in the message. -/
theorem applyAdminVoiceState_spec (vs : VoiceState) (us : UserState) :
    ∃ mute deaf mute' deaf', applyAdminVoiceState vs us =
        ({ vs with
            mute := mute
            deaf := deaf
            suppress := us.suppress.getD vs.suppress
            prioritySpeaker := us.prioritySpeaker.getD vs.prioritySpeaker },
          { us with mute := mute', deaf := deaf' }) ∧
      (us.mute = none → us.deaf = none → mute = vs.mute ∧ deaf = vs.deaf) ∧
      mute'.getD vs.mute = mute ∧ deaf'.getD vs.deaf = deaf ∧
      (mute'.isSome || deaf'.isSome) = (us.mute.isSome || us.deaf.isSome) := by
  rcases us with ⟨_, _, _, _, _, mute, deaf⟩
  rcases deaf with _ | _ | _ <;> rcases mute with _ | _ | _
  all_goals exact ⟨_, _, _, _, rfl, by simp, rfl, rfl, rfl⟩

theorem eq_some_of_getD_ne {α : Type} {o : Option α} {d : α} (h : o.getD d ≠ d) :
    o = some (o.getD d) := by
  cases o with
  | none => exact absurd rfl h
  | some a => rfl

theorem sent_of_changed {a b : Option Bool} {x y x' y' : Bool}
    (hstay : a = none → b = none → x' = x ∧ y' = y) (h : x' ≠ x ∨ y' ≠ y) :
    a.isSome = true ∨ b.isSome = true := by
  by_contra hnot
  simp only [not_or, Bool.not_eq_true, isSome_eq_false_iff, isNone_iff_eq_none] at hnot
  obtain ⟨hx, hy⟩ := hstay hnot.1 hnot.2
  exact h.elim (fun h => h hx) fun h => h hy

theorem applyUserState_explained {maySpeak : Option Bool} {u u' : User} (p : Profile)
    (hmove : maySpeak.isSome = us.channelID.isSome) (huser : u' = { u with
      channelID := u'.channelID
      authorizationRevision := u'.authorizationRevision })
    (hrev : u'.authorizationRevision ≠ u.authorizationRevision → us.channelID.isSome = true)
    (hchan : u'.channelID ≠ u.channelID → us.channelID = some u'.channelID) :
    Explained us ⟨u, p⟩ ⟨u', (applyUserState us maySpeak p).1⟩ := by
  obtain ⟨sm, sd, sm', sd', hself, hselfStay, -⟩ := applySelfVoiceState_spec p.toVoiceState us
  obtain ⟨m, d, m', d', hadmin, hadminStay, -⟩ := applyAdminVoiceState_spec
    { p.toVoiceState with
      selfMute := sm, selfDeaf := sd, recording := us.recording.getD p.recording }
    { us with selfMute := sm', selfDeaf := sd' }
  unfold applyUserState
  rw [hself]
  dsimp only
  rw [hadmin]
  rcases maySpeak with _ | b
  · exact ⟨huser, hrev, hchan, sent_of_changed hadminStay, fun h => .inl (eq_some_of_getD_ne h),
      fun h => .inl (eq_some_of_getD_ne h), sent_of_changed hselfStay, eq_some_of_getD_ne,
      eq_some_of_getD_ne, eq_some_of_getD_ne, eq_some_of_getD_ne, eq_some_of_getD_ne⟩
  · exact ⟨huser, hrev, hchan, sent_of_changed hadminStay, fun _ => .inr hmove.symm,
      fun _ => .inr hmove.symm, sent_of_changed hselfStay, eq_some_of_getD_ne,
      eq_some_of_getD_ne, eq_some_of_getD_ne, eq_some_of_getD_ne, eq_some_of_getD_ne⟩

theorem updated_channelID (u : User) (channelID : ℕ) :
    ∃ revision, updated u (fun u => { u with channelID := channelID }) =
      { u with channelID := channelID, authorizationRevision := revision } := by
  unfold updated
  split_ifs
  · exact ⟨_, rfl⟩
  · exact ⟨_, rfl⟩

variable {pol : Policy} {st : State} {target : Member} {us : UserState} {actor : ℕ}

theorem member_setChannel (ht : st.member target.user.sessionID = some target) (cid : ℕ) :
    ∃ revision, ∀ sid, (st.setChannel target.user.sessionID cid).member sid =
      if sid = target.user.sessionID then
        some ⟨{ target.user with channelID := cid, authorizationRevision := revision },
          target.profile⟩
      else st.member sid := by
  obtain ⟨revision, hu⟩ := updated_channelID target.user cid
  refine ⟨revision, fun sid => ?_⟩
  rw [State.setChannel, member_updateUser, ht, map_some, ← hu]

theorem echo_accepting (sid : ℕ) (moved : Bool) (m : Member) :
    ∀ o ∈ echo actor sid moved m us, o.Accepting := by
  intro o ho
  unfold echo at ho
  dsimp only at ho
  split_ifs at ho
  all_goals
    simp only [mem_append, mem_cons, not_mem_nil, or_false] at ho
    try rcases ho with (rfl | rfl) | rfl
    all_goals trivial

/-- What the updates do: the target's record changes as the message explains, no other does, and
nothing is refused. -/
theorem applyChecked_spec (pol : Policy) (actor : ℕ) (us : UserState)
    (ht : st.member target.user.sessionID = some target) :
    (∃ after, Explained us target after ∧
      ∀ sid, (applyChecked pol st actor target.user us).1.member sid =
        if sid = target.user.sessionID then some after else st.member sid) ∧
    ∀ o ∈ (applyChecked pol st actor target.user us).2, o.Accepting := by
  unfold applyChecked
  cases hc : us.channelID with
  | none =>
    refine ⟨⟨⟨target.user, (applyUserState us none target.profile).1⟩, ?_, fun sid => ?_⟩, ?_⟩
    · exact applyUserState_explained target.profile (by rw [hc]; rfl) rfl (fun h => absurd rfl h)
        fun h => absurd rfl h
    · rw [member_updateRecord, ht, map_some]
    · simpa only [updatedRecord, ht, map_some, nil_append] using echo_accepting _ _ _
  | some cid =>
    obtain ⟨revision, hmoved⟩ := member_setChannel ht cid
    have hself := hmoved target.user.sessionID
    rw [if_pos rfl] at hself
    have hsome : ∀ b : Bool, (some b).isSome = us.channelID.isSome := fun _ => by rw [hc]; rfl
    simp only [moveUser, updatedRecord, hself, map_some]
    generalize aclCheck pol (st.setChannel target.user.sessionID cid).server
      (subjectOf target.user) cid Permission.speak = maySpeak
    refine ⟨⟨⟨{ target.user with channelID := cid, authorizationRevision := revision },
      (applyUserState us (some maySpeak) target.profile).1⟩,
      applyUserState_explained target.profile (hsome _) rfl (fun _ => by rw [hc]; rfl)
        (fun _ => hc), fun sid => ?_⟩, fun o ho => ?_⟩
    · rw [member_updateRecord, hself, hmoved]
      split_ifs <;> rfl
    · rcases mem_append.mp ho with ho | ho
      · split_ifs at ho
        · rw [mem_singleton.mp ho]
          trivial
        · cases ho
      · exact echo_accepting _ _ _ o ho

end updates

theorem Explained.of_dropRecording {p : Profile} (h : Explained (us.dropRecording p) before after) :
    Explained us before after := by
  unfold UserState.dropRecording at h
  split_ifs at h
  · exact { h with recording := fun hr => (by cases h.recording hr) }
  · exact h

/-! ### The handler -/

section handling
variable (pol : Policy) (st : State) (rateAllows : Bool) (c : SessionRef) (us : UserState)

/-- The handler stops after listening. -/
def Handled.Refused (r : Handled) : Prop :=
  r.applied = false ∧ ListenOnly st r.state ∧ ∀ o ∈ r.outputs, o.Quiet

/-- The handler goes through with the message. -/
def Handled.Accepted (r : Handled) : Prop :=
  r.applied = true ∧ (∀ o ∈ r.outputs, o.Accepting) ∧
  ∃ sender before after, st.server.users.snapshot c.sessionID = some sender ∧
    before.user.sessionID = us.session.getD c.sessionID ∧
    st.member before.user.sessionID = some before ∧
    Authorized pol st.server sender before.user us ∧ Explained us before after ∧
    ∀ sid, r.state.member sid = if sid = before.user.sessionID then some after else st.member sid

variable {st c us} in
theorem finishUserState_cases {sender : User} {target : Member} {st' : State} {out : List Output}
    (hs : st.server.users.snapshot c.sessionID = some sender)
    (hsid : target.user.sessionID = us.session.getD c.sessionID)
    (ht : st.member target.user.sessionID = some target) (hl : ListenOnly st st')
    (ho : ∀ o ∈ out, o.Quiet ∧ o.Accepting)
    (hsuper : target.user.isSuperUser = true → sender.isSuperUser = true) :
    (finishUserState pol st' out sender target us.strip).Refused st ∨
      (finishUserState pol st' out sender target us.strip).Accepted pol st c us := by
  unfold finishUserState
  cases hc : (checkAll pol sender target (isAdminOp sender target.user) us.strip).on st' with
  | error outs =>
    refine .inl ⟨rfl, hl, fun o hmem => ?_⟩
    rcases mem_append.mp hmem with hmem | hmem
    · exact (ho o hmem).1
    · exact checkAll_silent st' outs hc o hmem
  | ok us' =>
    obtain ⟨rfl, hauth⟩ := checkAll_ok hc hsuper
    obtain ⟨⟨after, hexp, hmember⟩, hacc⟩ := applyChecked_spec pol sender.sessionID
      (us.strip.dropRecording target.profile) ((hl.member _).trans ht)
    rw [hl.server] at hauth
    refine .inr ⟨rfl, fun o hmem => ?_, sender, target, after, hs, hsid, ht, { hauth with },
      { hexp.of_dropRecording with }, fun sid => ?_⟩
    · rcases mem_append.mp hmem with hmem | hmem
      · exact (ho o hmem).2
      · exact hacc o hmem
    · rw [← hl.member]
      exact hmember sid

theorem refusal_untold {sender target : User} {outs : List Output}
    (h : refusal rateAllows sender target us = some outs) : ∀ o ∈ outs, o.Untold := by
  unfold refusal at h
  split_ifs at h
  all_goals
    obtain rfl := some.inj h
    simp [deny, Output.Untold]

theorem superUser_of_refusal {sender target : User} (h : refusal rateAllows sender target us = none)
    (ht : target.isSuperUser = true) : sender.isSuperUser = true := by
  unfold refusal at h
  split_ifs at h with hsuper
  simpa [ht] using hsuper

/-- What the handler can do: stop after listening, or change one record. -/
theorem handleUserState_cases :
    (handleUserState pol st rateAllows c us).Refused st ∨
      (handleUserState pol st rateAllows c us).Accepted pol st c us := by
  have hdrop : ∀ outs : List Output, (∀ o ∈ outs, o.Untold) →
      Handled.Refused st ⟨st, outs, false⟩ :=
    fun outs hq => ⟨rfl, .refl st, fun o ho => (hq o ho).quiet⟩
  unfold handleUserState
  split_ifs with hactive
  · exact .inl (hdrop [] untold_nil)
  cases hs : st.server.users.snapshot c.sessionID with
  | none => exact .inl (hdrop [] untold_nil)
  | some sender =>
    cases ht : st.member (us.session.getD c.sessionID) with
    | none => exact .inl (hdrop [] untold_nil)
    | some target =>
      have hsid : target.user.sessionID = us.session.getD c.sessionID := by
        obtain ⟨u, hu, rfl⟩ := map_eq_some_iff.mp ht
        exact (mem_of_snapshot hu).2
      rw [← hsid] at ht
      dsimp only
      unfold handleTarget
      cases hr : refusal rateAllows sender target.user us with
      | some outs => exact .inl (hdrop outs (refusal_untold rateAllows us hr))
      | none =>
        have hsuper := superUser_of_refusal rateAllows us hr
        split_ifs
        · obtain ⟨hl, ho⟩ := applyListening_spec pol target.user st sender.sessionID us
          exact finishUserState_cases pol hs hsid ht hl ho hsuper
        · exact finishUserState_cases pol hs hsid ht (.refl st) (by simp) hsuper

/-- **Authorization of UserState messages.**  A record that changes is the target's, the sender was
authorized by the state before the message, the message explains what has changed, and the fields
of the owner change for the sender alone.  A message that is denied or dropped changes no record,
and no UserState goes out but for what the client listens to. -/
theorem userState_sound :
    (∀ sid, (handleUserState pol st rateAllows c us).state.member sid ≠ st.member sid →
      sid = us.session.getD c.sessionID ∧
      ∃ sender before after, st.server.users.snapshot c.sessionID = some sender ∧
        st.member sid = some before ∧
        (handleUserState pol st rateAllows c us).state.member sid = some after ∧
        Authorized pol st.server sender before.user us ∧ Explained us before after ∧
        (sid ≠ c.sessionID → after.profile.selfOnly = before.profile.selfOnly)) ∧
    ((handleUserState pol st rateAllows c us).applied = false ∨
        (∃ d, .denied d ∈ (handleUserState pol st rateAllows c us).outputs) →
      (∀ sid, (handleUserState pol st rateAllows c us).state.member sid = st.member sid) ∧
      ∀ o ∈ (handleUserState pol st rateAllows c us).outputs, o.Quiet) := by
  rcases handleUserState_cases pol st rateAllows c us with ⟨-, hl, hq⟩ | ⟨happ, hacc, hsome⟩
  · exact ⟨fun sid hne => absurd (hl.member sid) hne, fun _ => ⟨hl.member, hq⟩⟩
  · obtain ⟨sender, before, after, hs, hsid, hb, hauth, hexp, hmember⟩ := hsome
    have hsender := (mem_of_snapshot hs).2
    constructor
    · intro sid hne
      rw [hmember] at hne ⊢
      split_ifs at hne ⊢ with heq
      · subst heq
        refine ⟨hsid, sender, before, after, hs, hb, rfl, hauth, hexp, fun hother => ?_⟩
        exact hexp.selfOnly (hauth.selfOnly (by rwa [hsender]))
      · exact absurd rfl hne
    · rintro (hfalse | ⟨d, hd⟩)
      · rw [happ] at hfalse
        cases hfalse
      · exact (hacc _ hd).elim

end handling

end MumbleServer.Moderation

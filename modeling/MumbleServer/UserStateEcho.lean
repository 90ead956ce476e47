import MumbleServer.ModerationAuth

/-! # UserState broadcasts

`handleUserState` broadcasts no new message: it changes the client's own in place and sends that to
everybody (`docs/features/0007-userstate-field-presence.md`).  `Shown` is what another client shows
of a user, and `Shown.apply` what it makes of a UserState.  A broadcast is truthful if it turns a
correct copy of the target's record into one of the new record, and if every value in it is the
server's own (`Backed`).

The voice flags, the channel, the texture and the comment are truthful for every message
(`applyUserState_shows`).  The three hashes are not: they are no part of what the handler looks at,
so that they go out as the client has sent them. -/

namespace MumbleServer.Moderation

open List
open Acl (Permission Subject subjectOf)

/-! ### What clients see -/

/-- What a client shows of a user; the hashes are those it was told. -/
structure Shown where
  name : String
  userID : UInt32
  channelID : ℕ
  voice : VoiceState
  texture : List UInt8
  comment : String
  hash : Option String
  commentHash : Option (List UInt8)
  textureHash : Option (List UInt8)
  listening : ℕ → Bool

/-- A UserState changes the fields that it has. -/
def Shown.apply (v : Shown) (us : UserState) : Shown where
  name := us.name.getD v.name
  userID := us.userID.getD v.userID
  channelID := us.channelID.getD v.channelID
  voice :=
    { mute := us.mute.getD v.voice.mute
      deaf := us.deaf.getD v.voice.deaf
      suppress := us.suppress.getD v.voice.suppress
      selfMute := us.selfMute.getD v.voice.selfMute
      selfDeaf := us.selfDeaf.getD v.voice.selfDeaf
      prioritySpeaker := us.prioritySpeaker.getD v.voice.prioritySpeaker
      recording := us.recording.getD v.voice.recording }
  texture := us.texture.getD v.texture
  comment := us.comment.getD v.comment
  hash := us.hash.or v.hash
  commentHash := us.commentHash.or v.commentHash
  textureHash := us.textureHash.or v.textureHash
  listening cid := (v.listening cid || us.listeningChannelAdd.contains cid) &&
    !us.listeningChannelRemove.contains cid

/-- A UserState about a session. -/
def Shown.hear (sid : ℕ) (v : Shown) (us : UserState) : Shown :=
  if us.session = some sid then v.apply us else v

/-- The copy agrees with the record.  The server keeps the hash of a certificate, which it does not
tell by itself, and no hashes of comments and textures. -/
structure Copies (st : State) (m : Member) (v : Shown) : Prop where
  name : v.name = m.user.name
  userID : v.userID = m.user.userID
  channelID : v.channelID = m.user.channelID
  voice : v.voice = m.profile.toVoiceState
  texture : v.texture = m.profile.texture
  comment : v.comment = m.profile.comment
  hash : v.hash = none ∨ v.hash = some m.user.certHash
  commentHash : v.commentHash = none
  textureHash : v.textureHash = none
  listening : ∀ cid, v.listening cid = true ↔ (m.user.sessionID, cid) ∈ st.listeners

/-- A correct copy of the record of a session. -/
def Correct (st : State) (sid : ℕ) (v : Shown) : Prop :=
  ∃ m, st.member sid = some m ∧ Copies st m v

/-- Every value in the message is the server's own. -/
structure Backed (st : State) (actor : ℕ) (m : Member) (us : UserState) : Prop where
  session : us.session = some m.user.sessionID
  actor : us.actor = some actor
  name : ∀ x ∈ us.name, x = m.user.name
  userID : ∀ x ∈ us.userID, x = m.user.userID
  channelID : ∀ x ∈ us.channelID, x = m.user.channelID
  mute : ∀ x ∈ us.mute, x = m.profile.mute
  deaf : ∀ x ∈ us.deaf, x = m.profile.deaf
  suppress : ∀ x ∈ us.suppress, x = m.profile.suppress
  selfMute : ∀ x ∈ us.selfMute, x = m.profile.selfMute
  selfDeaf : ∀ x ∈ us.selfDeaf, x = m.profile.selfDeaf
  prioritySpeaker : ∀ x ∈ us.prioritySpeaker, x = m.profile.prioritySpeaker
  recording : ∀ x ∈ us.recording, x = m.profile.recording
  texture : ∀ x ∈ us.texture, x = m.profile.texture
  comment : ∀ x ∈ us.comment, x = m.profile.comment
  hash : ∀ x ∈ us.hash, x = m.user.certHash
  commentHash : us.commentHash = none
  textureHash : us.textureHash = none
  pluginContext : us.pluginContext = none
  pluginIdentity : us.pluginIdentity = none
  temporaryAccessTokens : us.temporaryAccessTokens = []
  listeningChannelAdd : ∀ cid ∈ us.listeningChannelAdd,
    (m.user.sessionID, cid) ∈ st.listeners ∨ cid ∈ us.listeningChannelRemove
  listeningChannelRemove : ∀ cid ∈ us.listeningChannelRemove,
    (m.user.sessionID, cid) ∉ st.listeners
  listeningVolumeAdjustment : us.listeningVolumeAdjustment = []

/-! ### What is sent -/

/-- The echo of a message on the wire.  The handler takes the presence bit from a recording flag
that is no change, and `Marshal` writes a flag that is true without it. -/
def UserState.onWire (us b : UserState) : UserState :=
  if b.hasBroadcast = true ∧ us.recording = some true then { b with recording := some true } else b

/-- The UserState that a session gets; `Broadcast` skips one session, and there is none with the
ID 0. -/
def Output.heard (us : UserState) (actor obs : ℕ) : Output → Option UserState
  | .reply b => if obs = actor then some b else none
  | .broadcast except b => if obs = except then none else some (us.onWire b)
  | _ => none

/-- What a session makes of the outputs. -/
def Shown.hearAll (us : UserState) (actor obs sid : ℕ) (v : Shown) (outs : List Output) : Shown :=
  (outs.filterMap (Output.heard us actor obs)).foldl (Shown.hear sid) v

/-- The handler tells the truth about the target of the message. -/
structure Truthful (st : State) (actor sid : ℕ) (us : UserState) (r : Handled) : Prop where
  shown : ∀ obs v, obs ≠ 0 → Correct st sid v →
    Correct r.state sid (v.hearAll us actor obs sid r.outputs)
  backed : ∀ except b, Output.broadcast except b ∈ r.outputs →
    ∃ m, r.state.member sid = some m ∧ Backed r.state actor m (us.onWire b)

/-- The message passes the checks and has a field that is broadcast. -/
def Echoed (pol : Policy) (st : State) (rateAllows : Bool) (c : SessionRef) (sender : User)
    (target : Member) (us : UserState) : Prop :=
  st.registry.active c = true ∧ refusal rateAllows sender target.user us = none ∧
  (checkAll pol sender target (isAdminOp sender target.user) us.strip).on st =
    .ok (us.strip.dropRecording target.profile) ∧
  (us.strip.dropRecording target.profile).hasBroadcast = true

/-- The hashes in the message are the server's own. -/
structure Vouched (target : Member) (us : UserState) : Prop where
  hash : ∀ x ∈ us.hash, x = target.user.certHash
  commentHash : us.commentHash = none
  textureHash : us.textureHash = none

/-! ### The update shows in the message -/

section update

theorem getD_mem {α : Type} {o : Option α} {d x y : α} (h : o.getD d = y) (hx : x ∈ o) : x = y := by
  rw [Option.mem_def.mp hx] at h
  exact h

/-- The message that is left says what the update has done. -/
structure Shows (us : UserState) (p p' : Profile) (b : UserState) : Prop where
  rest : b = { us with
    mute := b.mute
    deaf := b.deaf
    suppress := b.suppress
    selfMute := b.selfMute
    selfDeaf := b.selfDeaf
    prioritySpeaker := b.prioritySpeaker }
  mute : b.mute.getD p.mute = p'.mute
  deaf : b.deaf.getD p.deaf = p'.deaf
  suppress : b.suppress.getD p.suppress = p'.suppress
  selfMute : b.selfMute.getD p.selfMute = p'.selfMute
  selfDeaf : b.selfDeaf.getD p.selfDeaf = p'.selfDeaf
  prioritySpeaker : b.prioritySpeaker.getD p.prioritySpeaker = p'.prioritySpeaker
  recording : us.recording.getD p.recording = p'.recording
  texture : us.texture.getD p.texture = p'.texture
  comment : us.comment.getD p.comment = p'.comment
  broadcast : b.hasBroadcast = us.hasBroadcast

/-- **The update shows.** Whatever the message asks for and whatever the record was, the cascades
and the effects of a move put into the message what they do to the record. -/
theorem applyUserState_shows (us : UserState) {maySpeak : Option Bool}
    (hmove : maySpeak.isSome = us.channelID.isSome) (p : Profile) :
    Shows us p (applyUserState us maySpeak p).1 (applyUserState us maySpeak p).2 := by
  obtain ⟨sm, sd, sm', sd', hself, -, hsm, hsd, hselfSent⟩ :=
    applySelfVoiceState_spec p.toVoiceState us
  obtain ⟨m, d, m', d', hadmin, -, hm, hd, hadminSent⟩ := applyAdminVoiceState_spec
    { p.toVoiceState with
      selfMute := sm, selfDeaf := sd, recording := us.recording.getD p.recording }
    { us with selfMute := sm', selfDeaf := sd' }
  unfold applyUserState
  rw [hself]
  dsimp only
  rw [hadmin]
  dsimp only at hadminSent
  cases maySpeak with
  | none =>
    refine ⟨rfl, hm, hd, rfl, hsm, hsd, rfl, rfl, rfl, rfl, ?_⟩
    simp only [UserState.hasBroadcast, UserState.hasAdminVoice, UserState.hasMuteDeafSuppress,
      hselfSent, hadminSent]
  | some b =>
    refine ⟨rfl, hm, hd, ?_, hsm, hsd, ?_, rfl, rfl, rfl, ?_⟩
    · dsimp only [applyChannelEnterEffects]
      split_ifs with hsuppress
      · rfl
      · cases b <;> simpa using hsuppress
    · dsimp only [applyChannelEnterEffects]
      split_ifs with hpriority
      · rfl
      · simpa using hpriority
    · -- a move is broadcast in any case
      rw [Option.isSome_some] at hmove
      simp only [UserState.hasBroadcast, applyChannelEnterEffects, ← hmove, Bool.or_true,
        Bool.true_or]

end update

/-! ### Copies and the echo -/

section echo
variable {st st' : State} {us : UserState} {target : Member} {v : Shown} {p' : Profile}
  {b : UserState} {revision actor : ℕ}
variable {p : Profile}

theorem onWire_eq (us b : UserState) : us.onWire b = { b with
    recording := if b.hasBroadcast = true ∧ us.recording = some true then some true
      else b.recording } := by
  unfold UserState.onWire
  split_ifs <;> rfl

theorem dropRecording_eq (us : UserState) (p : Profile) :
    us.dropRecording p = { us with recording := (us.dropRecording p).recording } := by
  unfold UserState.dropRecording
  split_ifs <;> rfl

/-- What the checks leave of a recording is what the record has in the end. -/
theorem recording_of_dropRecording (us : UserState) (p : Profile) :
    (us.dropRecording p).recording.getD p.recording = us.recording.getD p.recording := by
  unfold UserState.dropRecording
  split_ifs with h
  · simp [h]
  · rfl

/-- The record after the update, with the message that was checked. -/
def echoedRecord (target : Member) (us : UserState) (revision : ℕ) (p' : Profile) : Member :=
  ⟨{ target.user with
      channelID := us.channelID.getD target.user.channelID
      authorizationRevision := revision }, p'⟩

/-- The message as it is echoed. -/
def echoedMessage (b : UserState) (actor sid : ℕ) : UserState :=
  { b with pluginContext := none, pluginIdentity := none, session := some sid, actor := some actor }

section
variable (h : Shows (us.strip.dropRecording p) p p' b)
include h

theorem Shows.exists_message :
    ∃ mute deaf suppress selfMute selfDeaf prioritySpeaker recording, b = { us.strip with
      mute := mute
      deaf := deaf
      suppress := suppress
      selfMute := selfMute
      selfDeaf := selfDeaf
      prioritySpeaker := prioritySpeaker
      recording := recording } := by
  have hrest := h.rest
  rw [dropRecording_eq] at hrest
  exact ⟨_, _, _, _, _, _, _, hrest⟩

theorem Shows.content :
    us.texture.getD p.texture = p'.texture ∧ us.comment.getD p.comment = p'.comment := by
  have htexture := h.texture
  have hcomment := h.comment
  rw [dropRecording_eq] at htexture hcomment
  exact ⟨htexture, hcomment⟩

theorem Shows.recording_onWire (actor sid : ℕ) :
    (us.onWire (echoedMessage b actor sid)).recording.getD p.recording = p'.recording := by
  have hrecording : us.recording.getD p.recording = p'.recording :=
    (recording_of_dropRecording us.strip p).symm.trans h.recording
  have hleft : b.recording = (us.strip.dropRecording p).recording := by rw [h.rest]
  rw [onWire_eq]
  dsimp only
  split_ifs with htrue
  · rw [← hrecording, htrue.2]
  · show b.recording.getD p.recording = _
    rw [hleft, h.recording]

end

/-- The echo makes a correct copy one of the new record. -/
theorem Copies.echo (hv : Copies st target v) (hname : us.name = none)
    (h : Shows (us.strip.dropRecording target.profile) target.profile p' b)
    (hvouched : Vouched target us) (hlisten : st'.listeners = st.listeners) :
    Copies st' (echoedRecord target us revision p')
      (v.hear target.user.sessionID (us.onWire (echoedMessage b actor target.user.sessionID))) := by
  have hrecording := h.recording_onWire actor target.user.sessionID
  obtain ⟨mute, deaf, suppress, selfMute, selfDeaf, prioritySpeaker, recording, rfl⟩ :=
    h.exists_message
  rw [onWire_eq] at hrecording ⊢
  have hsession : (echoedMessage { us.strip with
      mute := mute, deaf := deaf, suppress := suppress, selfMute := selfMute
      selfDeaf := selfDeaf, prioritySpeaker := prioritySpeaker, recording := recording } actor
      target.user.sessionID).session = some target.user.sessionID := rfl
  unfold Shown.hear
  rw [if_pos hsession]
  refine ⟨?_, hv.userID, ?_, ?_, ?_, ?_, ?_, ?_, ?_, ?_⟩
  · show us.name.getD v.name = _
    rw [hname]
    exact hv.name
  · show us.channelID.getD v.channelID = us.channelID.getD target.user.channelID
    rw [hv.channelID]
  · show VoiceState.mk _ _ _ _ _ _ _ = _
    rw [hv.voice]
    exact VoiceState.mk.injEq .. |>.mpr ⟨h.mute, h.deaf, h.suppress, h.selfMute, h.selfDeaf,
      h.prioritySpeaker, hrecording⟩
  · show us.texture.getD v.texture = p'.texture
    rw [hv.texture]
    exact h.content.1
  · show us.comment.getD v.comment = p'.comment
    rw [hv.comment]
    exact h.content.2
  · show us.hash.or v.hash = none ∨ us.hash.or v.hash = some target.user.certHash
    cases hh : us.hash with
    | none => exact hv.hash
    | some x => exact .inr (congrArg some (hvouched.hash x hh))
  · show us.commentHash.or v.commentHash = none
    rw [hvouched.commentHash]
    exact hv.commentHash
  · show us.textureHash.or v.textureHash = none
    rw [hvouched.textureHash]
    exact hv.textureHash
  · intro cid
    rw [hlisten]
    refine Iff.trans ?_ (hv.listening cid)
    show (v.listening cid || [].contains cid) && !List.contains [] cid ↔ _
    simp

/-- Without a field that is broadcast nothing changes that is shown. -/
theorem Copies.still (hv : Copies st target v)
    (h : Shows (us.strip.dropRecording target.profile) target.profile p' b)
    (hb : b.hasBroadcast = false) (hlisten : st'.listeners = st.listeners) :
    Copies st' (echoedRecord target us revision p') v := by
  have hleft : b.recording = (us.strip.dropRecording target.profile).recording := by rw [h.rest]
  have hrecording := h.recording
  obtain ⟨htexture, hcomment⟩ := h.content
  rw [← hleft] at hrecording
  obtain ⟨mute, deaf, suppress, selfMute, selfDeaf, prioritySpeaker, recording, rfl⟩ :=
    h.exists_message
  simp only [UserState.hasBroadcast, UserState.hasAdminVoice, UserState.hasMuteDeafSuppress,
    Bool.or_eq_false_iff, Option.isSome_eq_false_iff, Option.isNone_iff_eq_none] at hb
  obtain ⟨⟨⟨⟨⟨⟨rfl, rfl⟩, rfl⟩, ⟨⟨rfl, rfl⟩, rfl⟩, rfl⟩, hchannel⟩, htex⟩, hcom⟩ := hb
  refine ⟨hv.name, hv.userID, ?_, ?_, ?_, ?_, hv.hash, hv.commentHash, hv.textureHash, ?_⟩
  · have hnone : us.channelID = none := hchannel
    show _ = us.channelID.getD target.user.channelID
    rw [hnone]
    exact hv.channelID
  · rw [hv.voice]
    exact VoiceState.mk.injEq .. |>.mpr ⟨h.mute, h.deaf, h.suppress, h.selfMute, h.selfDeaf,
      h.prioritySpeaker, hrecording⟩
  · have hnone : us.texture = none := htex
    rw [hnone] at htexture
    exact hv.texture.trans htexture
  · have hnone : us.comment = none := hcom
    rw [hnone] at hcomment
    exact hv.comment.trans hcomment
  · intro cid
    rw [hlisten]
    exact hv.listening cid

theorem backed_echo (hname : us.name = none)
    (h : Shows (us.strip.dropRecording target.profile) target.profile p' b)
    (hvouched : Vouched target us) :
    Backed st' actor (echoedRecord target us revision p')
      (us.onWire (echoedMessage b actor target.user.sessionID)) := by
  have hrecording := h.recording_onWire actor target.user.sessionID
  obtain ⟨mute, deaf, suppress, selfMute, selfDeaf, prioritySpeaker, recording, rfl⟩ :=
    h.exists_message
  rw [onWire_eq] at hrecording ⊢
  refine ⟨rfl, rfl, ?_, ?_, ?_, fun x => getD_mem h.mute, fun x => getD_mem h.deaf,
    fun x => getD_mem h.suppress, fun x => getD_mem h.selfMute, fun x => getD_mem h.selfDeaf,
    fun x => getD_mem h.prioritySpeaker, fun x => getD_mem hrecording,
    fun x => getD_mem h.content.1, fun x => getD_mem h.content.2, hvouched.hash,
    hvouched.commentHash, hvouched.textureHash, rfl, rfl, rfl, ?_, ?_, rfl⟩
  · intro x hx
    have hx : x ∈ us.name := hx
    rw [hname] at hx
    cases hx
  · intro x hx
    cases hx
  · intro x hx
    exact getD_mem (d := target.user.channelID) rfl hx
  · intro cid hcid
    cases hcid
  · intro cid hcid
    cases hcid

end echo

/-! ### Hearing -/

section hearing
variable (us : UserState) (actor obs sid : ℕ) (v : Shown)

theorem hearAll_append (outs outs' : List Output) :
    v.hearAll us actor obs sid (outs ++ outs') =
      (v.hearAll us actor obs sid outs).hearAll us actor obs sid outs' := by
  unfold Shown.hearAll
  rw [filterMap_append, foldl_append]

theorem hearAll_untold {outs : List Output} (h : ∀ o ∈ outs, o.Untold) :
    v.hearAll us actor obs sid outs = v := by
  have hnone : outs.filterMap (Output.heard us actor obs) = [] := by
    refine filterMap_eq_nil_iff.mpr fun o ho => ?_
    have huntold := h o ho
    cases o with
    | reply b | broadcast except b => exact huntold.elim
    | _ => rfl
  rw [Shown.hearAll, hnone]
  rfl

theorem hasBroadcast_shared (b : UserState) :
    ({ b with pluginContext := none, pluginIdentity := none } : UserState).hasBroadcast =
      b.hasBroadcast := rfl

theorem hearAll_echo (hobs : obs ≠ 0) (moved : Bool) (m : Member) (b : UserState) :
    v.hearAll us actor obs sid (echo actor sid moved m b) =
      if b.hasBroadcast = true then v.hear sid (us.onWire (echoedMessage b actor sid)) else v := by
  unfold echo
  dsimp only
  rw [hasBroadcast_shared]
  cases b.hasBroadcast with
  | false => rfl
  | true =>
    rw [if_neg (by decide), if_pos rfl, append_assoc, hearAll_append]
    have hrest : ∀ o ∈ (if moved then [Output.enterStates sid] else []) ++
        (if b.recording.isSome then
          [.recordingAnnouncement m.user.name m.profile.recording] else []), o.Untold := by
      intro o ho
      rcases mem_append.mp ho with ho | ho
      all_goals
        split_ifs at ho
        · rw [mem_singleton.mp ho]
          trivial
        · cases ho
    rw [hearAll_untold us actor obs sid _ hrest]
    show List.foldl _ _ (List.filterMap _ [_]) = _
    rw [filterMap_cons, Output.heard, if_neg hobs]
    rfl

theorem broadcast_mem_echo {moved : Bool} {m : Member} {b b' : UserState} {except : ℕ} :
    Output.broadcast except b' ∈ echo actor sid moved m b ↔
      b.hasBroadcast = true ∧ except = 0 ∧ b' = echoedMessage b actor sid := by
  unfold echo
  dsimp only
  rw [hasBroadcast_shared]
  cases b.hasBroadcast with
  | false => simp
  | true =>
    simp only [Bool.true_eq_false, if_false, mem_append, true_and]
    constructor
    · rintro ((h | h) | h)
      · simpa [echoedMessage] using h
      · split_ifs at h <;> simp at h
      · split_ifs at h <;> simp at h
    · rintro ⟨rfl, rfl⟩
      exact .inl (.inl mem_cons_self)

end hearing

/-! ### Listening -/

section listening
variable (pol : Policy) (target : User) (st : State)

theorem listen_added (cid : ℕ) :
    (∀ o ∈ (listen pol target st cid).2.1, o.Untold) ∧
    ∀ d, (target.sessionID, d) ∈ (listen pol target st cid).1.listeners ↔
      (target.sessionID, d) ∈ st.listeners ∨ d ∈ (listen pol target st cid).2.2 := by
  unfold listen
  split
  · simp
  · split_ifs
    all_goals simp [Output.Untold, or_comm]

theorem listenAll_added (cids : List ℕ) :
    (∀ o ∈ (listenAll pol target st cids).2.1, o.Untold) ∧
    ∀ d, (target.sessionID, d) ∈ (listenAll pol target st cids).1.listeners ↔
      (target.sessionID, d) ∈ st.listeners ∨ d ∈ (listenAll pol target st cids).2.2 := by
  induction cids generalizing st with
  | nil => simp [listenAll]
  | cons cid rest ih =>
    obtain ⟨hout, hone⟩ := listen_added pol target st cid
    obtain ⟨houts, hrest⟩ := ih (listen pol target st cid).1
    refine ⟨fun o ho => ?_, fun d => ?_⟩
    · rcases mem_append.mp ho with ho | ho
      · exact hout o ho
      · exact houts o ho
    · show _ ∈ (listenAll pol target (listen pol target st cid).1 rest).1.listeners ↔
        _ ∨ d ∈ (listen pol target st cid).2.2 ++
          (listenAll pol target (listen pol target st cid).1 rest).2.2
      rw [hrest, hone, mem_append, or_assoc]

theorem unlistenAll_removed (cids : List ℕ) (d : ℕ) :
    (target.sessionID, d) ∈ (unlistenAll target st cids).1.listeners ↔
      (target.sessionID, d) ∈ st.listeners ∧ d ∉ (unlistenAll target st cids).2 := by
  induction cids generalizing st with
  | nil => simp [unlistenAll]
  | cons cid rest ih =>
    unfold unlistenAll
    split_ifs with hin
    · dsimp only
      rw [ih]
      simp only [mem_filter, decide_eq_true_eq, mem_cons, not_or, ne_eq, Prod.mk.injEq,
        true_and, and_assoc]
    · exact ih st

theorem adjustVolumes_listeners (vas : List VolumeAdjustment) :
    (adjustVolumes target st vas).1.listeners = st.listeners := by
  induction vas generalizing st with
  | nil => rfl
  | cons va rest ih =>
    unfold adjustVolumes
    split_ifs
    · exact ih _
    · exact ih st

theorem applyListening_told (actor : ℕ) (us : UserState) :
    ∃ added removed adjusted out, (∀ o ∈ out, Output.Untold o) ∧
      (∀ d, (target.sessionID, d) ∈ (applyListening pol target st actor us).1.listeners ↔
        ((target.sessionID, d) ∈ st.listeners ∨ d ∈ added) ∧ d ∉ removed) ∧
      ((applyListening pol target st actor us).2 = out ∧ added = [] ∧ removed = [] ∨
        (applyListening pol target st actor us).2 = out ++ [
          .reply { session := some target.sessionID, actor := some actor
                   listeningChannelAdd := added, listeningChannelRemove := removed
                   listeningVolumeAdjustment := adjusted },
          .broadcast actor { session := some target.sessionID, actor := some actor
                             listeningChannelAdd := added
                             listeningChannelRemove := removed }]) := by
  obtain ⟨hout, hadded⟩ := listenAll_added pol target st us.listeningChannelAdd
  unfold applyListening
  dsimp only
  split_ifs with hnone
  · simp only [Bool.and_eq_true, List.isEmpty_iff] at hnone
    refine ⟨_, _, [], _, hout, fun d => ?_, .inl ⟨rfl, hnone.1.1, hnone.1.2⟩⟩
    rw [adjustVolumes_listeners, unlistenAll_removed, hadded]
  · refine ⟨_, _, _, _, hout, fun d => ?_, .inr rfl⟩
    rw [adjustVolumes_listeners, unlistenAll_removed, hadded]

end listening

theorem hear_listening (v : Shown) (sid actor : ℕ) (added removed : List ℕ)
    (adjusted : List VolumeAdjustment) :
    v.hear sid { session := some sid, actor := some actor, listeningChannelAdd := added
                 listeningChannelRemove := removed, listeningVolumeAdjustment := adjusted } =
      { v with listening := fun d => (v.listening d || added.contains d) &&
        !removed.contains d } := by
  unfold Shown.hear
  rw [if_pos rfl]
  rfl

theorem applyListening_truthful (pol : Policy) (st : State) (actor : ℕ) (us : UserState)
    (target : Member) :
    (∀ obs v, Copies st target v → Copies (applyListening pol target.user st actor us).1 target
      (v.hearAll us actor obs target.user.sessionID
        (applyListening pol target.user st actor us).2)) ∧
    ∀ except b, Output.broadcast except b ∈ (applyListening pol target.user st actor us).2 →
      ∀ (st' : State) (u : User) (p : Profile),
        st'.listeners = (applyListening pol target.user st actor us).1.listeners →
        u.sessionID = target.user.sessionID → Backed st' actor ⟨u, p⟩ (us.onWire b) := by
  obtain ⟨added, removed, adjusted, out, hout, hlisteners, hsent⟩ :=
    applyListening_told pol target.user st actor us
  refine ⟨fun obs v hv => ?_, fun except b hb st' u p hst hu => ?_⟩
  · have hcopy : ∀ shown : ℕ → Bool, (∀ d, shown d = true ↔
        ((target.user.sessionID, d) ∈ st.listeners ∨ d ∈ added) ∧ d ∉ removed) →
        Copies (applyListening pol target.user st actor us).1 target
          { v with listening := shown } := fun shown hshown =>
      { hv with listening := fun d => (hshown d).trans (hlisteners d).symm }
    rcases hsent with ⟨hsent, rfl, rfl⟩ | hsent
    · rw [hsent, hearAll_untold us actor obs _ v hout]
      exact hcopy v.listening fun d => by simpa using hv.listening d
    · rw [hsent, hearAll_append, hearAll_untold us actor obs _ v hout]
      have hshown := hcopy (fun d => (v.listening d || added.contains d) && !removed.contains d)
        fun d => by simp [hv.listening d]
      unfold Shown.hearAll
      by_cases hobs : obs = actor
      · rw [filterMap_cons, Output.heard, if_pos hobs, filterMap_cons, Output.heard,
          if_pos hobs]
        rw [← hear_listening v target.user.sessionID actor added removed adjusted] at hshown
        exact hshown
      · rw [filterMap_cons, Output.heard, if_neg hobs, filterMap_cons, Output.heard,
          if_neg hobs]
        rw [← hear_listening v target.user.sessionID actor added removed []] at hshown
        exact hshown
  · rcases hsent with ⟨hsent, -, -⟩ | hsent
    · rw [hsent] at hb
      exact (hout _ hb).elim
    · rw [hsent] at hb
      rcases mem_append.mp hb with hb | hb
      · exact (hout _ hb).elim
      · simp only [mem_cons, reduceCtorEq, Output.broadcast.injEq, not_mem_nil, or_false,
          false_or] at hb
        obtain ⟨rfl, rfl⟩ := hb
        refine ⟨congrArg some hu.symm, rfl, ?_, ?_, ?_, ?_, ?_, ?_, ?_, ?_, ?_, ?_, ?_, ?_, ?_, rfl,
          rfl, rfl, rfl, rfl, fun d hd => ?_, fun d hd => ?_, rfl⟩
        any_goals
          intro x hx
          cases hx
        · rw [hu, hst, hlisteners]
          by_cases hrem : d ∈ removed
          · exact .inr hrem
          · exact .inl ⟨.inr hd, hrem⟩
        · rw [hu, hst, hlisteners]
          exact fun h => h.2 hd

/-! ### The handler -/

section handler
variable {pol : Policy} {st : State} {rateAllows : Bool} {c : SessionRef} {us : UserState}
  {sender : User} {target : Member}
variable {st' : State}

theorem listeners_updateRecord (st : State) (sid : ℕ) (us : UserState) (maySpeak : Option Bool) :
    (updateRecord st sid us maySpeak).listeners = st.listeners := listeners_updateUser sid _

theorem applyChecked_eq (pol : Policy) (actor : ℕ) (us : UserState)
    (ht : st.member target.user.sessionID = some target) :
    ∃ maySpeak revision out, maySpeak.isSome = us.channelID.isSome ∧
      (∀ o ∈ out, Output.Untold o) ∧
      (applyChecked pol st actor target.user us).1.member target.user.sessionID =
        some (echoedRecord target us revision (applyUserState us maySpeak target.profile).1) ∧
      (applyChecked pol st actor target.user us).1.listeners = st.listeners ∧
      (applyChecked pol st actor target.user us).2 = out ++ echo actor target.user.sessionID
        maySpeak.isSome
        (echoedRecord target us revision (applyUserState us maySpeak target.profile).1)
        (applyUserState us maySpeak target.profile).2 := by
  unfold applyChecked
  cases hc : us.channelID with
  | none =>
    have hrecord : echoedRecord target us target.user.authorizationRevision
        (applyUserState us none target.profile).1 =
        ⟨target.user, (applyUserState us none target.profile).1⟩ := by
      rw [echoedRecord, hc]
      rfl
    refine ⟨none, target.user.authorizationRevision, [], rfl, untold_nil, ?_, ?_, ?_⟩
    · rw [hrecord]
      dsimp only
      rw [member_updateRecord, if_pos rfl, ht, Option.map_some]
    · dsimp only
      rw [listeners_updateRecord]
    · rw [hrecord]
      dsimp only
      rw [updatedRecord, ht, Option.map_some]
  | some cid =>
    obtain ⟨revision, hmoved⟩ := member_setChannel ht cid
    have hself := hmoved target.user.sessionID
    rw [if_pos rfl] at hself
    have hrecord : ∀ p', echoedRecord target us revision p' =
        ⟨{ target.user with channelID := cid, authorizationRevision := revision }, p'⟩ := by
      intro p'
      rw [echoedRecord, hc]
      rfl
    have hmember : (moveUser pol st actor target.user cid).1.member target.user.sessionID = _ :=
      hself
    have hlisten : (moveUser pol st actor target.user cid).1.listeners = st.listeners := by
      dsimp only [moveUser]
      rw [State.setChannel, listeners_updateUser]
    have hout : ∀ o ∈ (moveUser pol st actor target.user cid).2.1, o.Untold := by
      intro o ho
      dsimp only [moveUser] at ho
      split_ifs at ho
      · rw [mem_singleton.mp ho]
        trivial
      · cases ho
    refine ⟨some (moveUser pol st actor target.user cid).2.2, revision,
      (moveUser pol st actor target.user cid).2.1, rfl, hout, ?_, ?_, ?_⟩
    · rw [hrecord]
      dsimp only
      rw [member_updateRecord, if_pos rfl, hmember, Option.map_some]
    · dsimp only
      rw [listeners_updateRecord, hlisten]
    · rw [hrecord]
      dsimp only
      rw [updatedRecord, hmember, Option.map_some]

/-- What was told of listening is true, and nothing else has happened. -/
structure Told (us : UserState) (actor : ℕ) (target : Member) (st st' : State)
    (out : List Output) : Prop where
  listenOnly : ListenOnly st st'
  copies : ∀ obs v, Copies st target v →
    Copies st' target (v.hearAll us actor obs target.user.sessionID out)
  backed : ∀ except b, Output.broadcast except b ∈ out → ∀ (st'' : State) (u : User) (p : Profile),
    st''.listeners = st'.listeners → u.sessionID = target.user.sessionID →
      Backed st'' actor ⟨u, p⟩ (us.onWire b)

theorem told_listening (pol : Policy) (st : State) (actor : ℕ) (us : UserState)
    (target : Member) :
    Told us actor target st
      (if us.hasListening then applyListening pol target.user st actor us else (st, [])).1
      (if us.hasListening then applyListening pol target.user st actor us else (st, [])).2 := by
  split_ifs
  · obtain ⟨hcopies, hbacked⟩ := applyListening_truthful pol st actor us target
    exact ⟨(applyListening_spec pol target.user st actor us).1, hcopies, hbacked⟩
  · exact ⟨.refl st, fun _ _ hv => hv, fun _ _ hb => by cases hb⟩

/-- The end of the handler: a check fails, or the message is applied and echoed. -/
theorem finishUserState_told (out : List Output)
    (ht : st.member target.user.sessionID = some target)
    (hsuper : target.user.isSuperUser = true → sender.isSuperUser = true)
    (hl : ListenOnly st st') :
    (∃ outs, (∀ o ∈ outs, Output.Untold o) ∧
      (checkAll pol sender target (isAdminOp sender target.user) us.strip).on st = .error outs ∧
      finishUserState pol st' out sender target us.strip = ⟨st', out ++ outs, false⟩) ∨
    ∃ moved revision quiet p' b,
      Shows (us.strip.dropRecording target.profile) target.profile p' b ∧
      (∀ o ∈ quiet, Output.Untold o) ∧
      (checkAll pol sender target (isAdminOp sender target.user) us.strip).on st =
        .ok (us.strip.dropRecording target.profile) ∧
      (finishUserState pol st' out sender target us.strip).state.member target.user.sessionID =
        some (echoedRecord target us revision p') ∧
      (finishUserState pol st' out sender target us.strip).state.listeners = st'.listeners ∧
      (finishUserState pol st' out sender target us.strip).outputs = out ++ (quiet ++
        echo sender.sessionID target.user.sessionID moved
          (echoedRecord target us revision p') b) := by
  have hsame : (checkAll pol sender target (isAdminOp sender target.user) us.strip).on st =
      (checkAll pol sender target (isAdminOp sender target.user) us.strip).on st' :=
    checkAll_discreet.agrees st st' hl
  unfold finishUserState
  cases hc : (checkAll pol sender target (isAdminOp sender target.user) us.strip).on st' with
  | error outs =>
    exact .inl ⟨outs, checkAll_discreet.untold st' outs hc, hsame.trans hc, rfl⟩
  | ok us' =>
    obtain ⟨rfl, -⟩ := checkAll_ok hc hsuper
    obtain ⟨maySpeak, revision, quiet, hmove, hquiet, hmember, hlisteners, houtputs⟩ :=
      applyChecked_eq pol sender.sessionID (us.strip.dropRecording target.profile)
        ((hl.member _).trans ht)
    have hrecord : ∀ p', echoedRecord target (us.strip.dropRecording target.profile) revision p' =
        echoedRecord target us revision p' := fun p' => by
      rw [echoedRecord, dropRecording_channelID]
      rfl
    rw [hrecord] at hmember houtputs
    exact .inr ⟨_, revision, quiet, _, _, applyUserState_shows _ hmove target.profile, hquiet,
      hsame.trans hc, hmember, hlisteners, congrArg (out ++ ·) houtputs⟩

theorem truthful_of_untold {outs : List Output} {actor sid : ℕ} (h : ∀ o ∈ outs, Output.Untold o) :
    Truthful st actor sid us ⟨st, outs, false⟩ where
  shown obs v _ hv := by
    rw [hearAll_untold us actor obs sid v h]
    exact hv
  backed except b hb := (h _ hb).elim

/-- A broadcast of the handler is true if the hashes in the message are the server's own. -/
theorem truthful_finish {out : List Output}
    (ht : st.member target.user.sessionID = some target)
    (hsuper : target.user.isSuperUser = true → sender.isSuperUser = true)
    (hname : us.name = none) (htold : Told us sender.sessionID target st st' out)
    (hvouched : (checkAll pol sender target (isAdminOp sender target.user) us.strip).on st =
        .ok (us.strip.dropRecording target.profile) →
      (us.strip.dropRecording target.profile).hasBroadcast = true → Vouched target us) :
    Truthful st sender.sessionID target.user.sessionID us
      (finishUserState pol st' out sender target us.strip) := by
  have hcopy : ∀ {v}, Correct st target.user.sessionID v → Copies st target v := by
    rintro v ⟨m, hm, hv⟩
    rw [ht] at hm
    exact Option.some.inj hm ▸ hv
  rcases finishUserState_told out ht hsuper htold.listenOnly with
    ⟨outs, houts, -, hfinish⟩ |
    ⟨moved, revision, quiet, p', b, hshows, hquiet, hchecked, hmember, hlisteners, houtputs⟩
  · have hmember : st'.member target.user.sessionID = some target :=
      (htold.listenOnly.member _).trans ht
    rw [hfinish]
    refine ⟨fun obs v _ hv => ⟨target, hmember, ?_⟩, fun except b hb => ?_⟩
    · dsimp only
      rw [hearAll_append, hearAll_untold us sender.sessionID obs _ _ houts]
      exact htold.copies obs v (hcopy hv)
    · rcases mem_append.mp hb with hb | hb
      · exact ⟨target, hmember, htold.backed except b hb st' target.user target.profile rfl rfl⟩
      · exact (houts _ hb).elim
  · refine ⟨fun obs v hobs hv => ⟨_, hmember, ?_⟩, fun except b' hb => ⟨_, hmember, ?_⟩⟩
    · have hv := htold.copies obs v (hcopy hv)
      rw [houtputs, hearAll_append, hearAll_append,
        hearAll_untold us sender.sessionID obs _ _ hquiet, hearAll_echo _ _ _ _ _ hobs]
      split_ifs with hb
      · exact hv.echo hname hshows (hvouched hchecked (hshows.broadcast ▸ hb)) hlisteners
      · exact hv.still hshows (by simpa using hb) hlisteners
    · rw [houtputs] at hb
      rcases mem_append.mp hb with hb | hb
      · exact htold.backed except b' hb _ _ _ hlisteners rfl
      rcases mem_append.mp hb with hb | hb
      · exact (hquiet _ hb).elim
      · obtain ⟨hbroadcast, -, rfl⟩ := (broadcast_mem_echo _ _).mp hb
        exact backed_echo hname hshows (hvouched hchecked (hshows.broadcast ▸ hbroadcast))

theorem name_of_refusal (h : refusal rateAllows sender target.user us = none) : us.name = none := by
  unfold refusal at h
  split_ifs at h with _ hname
  simpa using hname

/-- What was not the server's own is told all the same. -/
theorem vouched_of_truthful {out : List Output}
    (ht : st.member target.user.sessionID = some target)
    (hsuper : target.user.isSuperUser = true → sender.isSuperUser = true)
    (hl : ListenOnly st st')
    (htruth : Truthful st sender.sessionID target.user.sessionID us
      (finishUserState pol st' out sender target us.strip))
    (hchecked : (checkAll pol sender target (isAdminOp sender target.user) us.strip).on st =
      .ok (us.strip.dropRecording target.profile))
    (hbroadcast : (us.strip.dropRecording target.profile).hasBroadcast = true) :
    Vouched target us := by
  rcases finishUserState_told out ht hsuper hl with
    ⟨outs, -, herror, -⟩ | ⟨moved, revision, quiet, p', b, hshows, -, -, hmember, -, houtputs⟩
  · rw [hchecked] at herror
    cases herror
  · have hsent : Output.broadcast 0 (echoedMessage b sender.sessionID target.user.sessionID) ∈
        (finishUserState pol st' out sender target us.strip).outputs := by
      rw [houtputs]
      refine mem_append_right _ (mem_append_right _ ((broadcast_mem_echo _ _).mpr ?_))
      exact ⟨hshows.broadcast.trans hbroadcast, rfl, rfl⟩
    obtain ⟨m, hm, hbacked⟩ := htruth.backed 0 _ hsent
    rw [hmember] at hm
    obtain rfl := Option.some.inj hm
    obtain ⟨mute, deaf, suppress, selfMute, selfDeaf, prioritySpeaker, recording, rfl⟩ :=
      hshows.exists_message
    rw [onWire_eq] at hbacked
    exact ⟨hbacked.hash, hbacked.commentHash, hbacked.textureHash⟩

end handler

/-- **UserState broadcasts.** What `handleUserState` sends about the target makes a correct copy of
its record one of the new record, and every value in it is the server's own, exactly if the message
is not echoed or its hashes are the server's own: those of the comment and the texture are missing,
and that of the certificate is missing or is the one the server has stored. -/
theorem broadcast_truthful_iff (pol : Policy) (st : State) (rateAllows : Bool) (c : SessionRef)
    (us : UserState) :
    Truthful st c.sessionID (us.session.getD c.sessionID) us
        (handleUserState pol st rateAllows c us) ↔
      ∀ sender target, st.server.users.snapshot c.sessionID = some sender →
        st.member (us.session.getD c.sessionID) = some target →
        Echoed pol st rateAllows c sender target us → Vouched target us := by
  unfold handleUserState
  by_cases hactive : st.registry.active c = false
  · rw [if_pos hactive]
    refine ⟨fun _ sender target _ _ h => ?_, fun _ => truthful_of_untold untold_nil⟩
    exact absurd (h.1.symm.trans hactive) (by decide)
  rw [if_neg hactive]
  rw [Bool.not_eq_false] at hactive
  cases hs : st.server.users.snapshot c.sessionID with
  | none => exact ⟨fun _ _ _ h => (by cases h), fun _ => truthful_of_untold untold_nil⟩
  | some sender =>
    cases ht : st.member (us.session.getD c.sessionID) with
    | none => exact ⟨fun _ _ _ _ h => (by cases h), fun _ => truthful_of_untold untold_nil⟩
    | some target =>
      have hsid : us.session.getD c.sessionID = target.user.sessionID := by
        obtain ⟨u, hu, rfl⟩ := Option.map_eq_some_iff.mp ht
        exact (UserManager.mem_of_snapshot hu).2.symm
      have hsender : c.sessionID = sender.sessionID := (UserManager.mem_of_snapshot hs).2.symm
      rw [hsid] at ht
      dsimp only
      rw [hsid, hsender]
      unfold handleTarget
      cases hr : refusal rateAllows sender target.user us with
      | some outs =>
        refine ⟨fun _ sender' target' hs' ht' h => ?_,
          fun _ => truthful_of_untold (refusal_untold rateAllows us hr)⟩
        obtain rfl := Option.some.inj hs'
        obtain rfl := Option.some.inj ht'
        exact absurd (h.2.1.symm.trans hr) (by simp)
      | none =>
        have hsuper := superUser_of_refusal rateAllows us hr
        have htold := told_listening pol st sender.sessionID us target
        dsimp only
        refine ⟨fun htruth sender' target' hs' ht' h => ?_, fun h => ?_⟩
        · obtain rfl := Option.some.inj hs'
          obtain rfl := Option.some.inj ht'
          exact vouched_of_truthful ht hsuper htold.listenOnly htruth h.2.2.1 h.2.2.2
        · refine truthful_finish ht hsuper (name_of_refusal hr) htold ?_
          exact fun hchecked hbroadcast =>
            h sender target rfl rfl ⟨hactive, hr, hchecked, hbroadcast⟩

/-- One Active user in the root channel, without a certificate. -/
def oneUser : State where
  server := ⟨⟨1, [⟨0, 0, "Root", "", 0, 0, false, [], true⟩], ⟨[], [], []⟩, none, []⟩,
    ((UserManager.new 10).add ⟨⟨7, 0, false, "", false, false, 0, 0, [], []⟩, 0, 0, 0, "alice"⟩).1⟩
  profiles := fun _ => {}
  registry := ⟨[("local", 1)], [⟨⟨1, 1⟩, "local", .active, true⟩]⟩
  listeners := []
  volumes := []

/-- A client mutes itself, and adds the hash of a certificate. -/
def forgedHash : UserState := { selfMute := some true, hash := some "00ff" }

/-- The hash goes to everybody, and the server has no such hash. -/
theorem broadcast_untruthful :
    ¬Truthful oneUser 1 1 forgedHash
      (handleUserState ⟨id, 0, 0, true, 0, 0⟩ oneUser true ⟨1, 1⟩ forgedHash) := by
  intro h
  have hsent : Output.broadcast 0 { forgedHash with session := some 1, actor := some 1 } ∈
      (handleUserState ⟨id, 0, 0, true, 0, 0⟩ oneUser true ⟨1, 1⟩ forgedHash).outputs := by
    decide +kernel
  have hrecord : ((handleUserState ⟨id, 0, 0, true, 0, 0⟩ oneUser true ⟨1, 1⟩
      forgedHash).state.member 1).map (fun m => m.user.certHash) = some "" := by
    decide +kernel
  obtain ⟨m, hm, hbacked⟩ := h.backed _ _ hsent
  rw [hm] at hrecord
  have hempty : m.user.certHash = "" := Option.some.inj hrecord
  have hhash := hbacked.hash "00ff" rfl
  rw [hempty] at hhash
  exact absurd hhash (by decide)

end MumbleServer.Moderation

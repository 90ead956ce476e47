import MumbleServer.AclCache
import MumbleServer.Registry

/-! # UserState messages

`internal/mumble/handlers.go`, `handleUserState`: a client changes itself or, as an administrator,
somebody else.  The message says which fields it sets; the handler checks all of them, then moves
the target and updates its record, and broadcasts what has changed.  Changes to what a client
listens to have a path of their own and are made before the checks.

The record of a session has two parts here: the `User` of the user manager, on which permissions
depend, and the `Profile`, which holds the rest of what the handler can change.

A protobuf field with its presence bit is an `Option`; a field that was not sent has the default
value in the source, and so `us.Suppress` is `us.suppress.getD false`. -/

namespace MumbleServer.Moderation

open Acl (Permission Subject subjectOf)

/-! ### Messages and records -/

/-- `messages.VolumeAdjustment`; the factor as its bits. -/
structure VolumeAdjustment where
  listeningChannel : ℕ
  factor : UInt32
deriving DecidableEq

structure UserState where
  session : Option ℕ := none
  actor : Option ℕ := none
  name : Option String := none
  userID : Option UInt32 := none
  channelID : Option ℕ := none
  mute : Option Bool := none
  deaf : Option Bool := none
  suppress : Option Bool := none
  selfMute : Option Bool := none
  selfDeaf : Option Bool := none
  texture : Option (List UInt8) := none
  pluginContext : Option (List UInt8) := none
  pluginIdentity : Option String := none
  comment : Option String := none
  hash : Option String := none
  commentHash : Option (List UInt8) := none
  textureHash : Option (List UInt8) := none
  prioritySpeaker : Option Bool := none
  recording : Option Bool := none
  temporaryAccessTokens : List String := []
  listeningChannelAdd : List ℕ := []
  listeningChannelRemove : List ℕ := []
  listeningVolumeAdjustment : List VolumeAdjustment := []
deriving DecidableEq

namespace UserState
variable (us : UserState)

/-- Fields of `selfOnlyUserStateFields`. -/
def hasSelfOnly : Bool :=
  us.selfMute.isSome || us.selfDeaf.isSome || us.pluginContext.isSome ||
    us.pluginIdentity.isSome || us.recording.isSome

def hasMuteDeafSuppress : Bool := us.mute.isSome || us.deaf.isSome || us.suppress.isSome

/-- Fields of `adminVoiceUserStateFields`. -/
def hasAdminVoice : Bool := us.hasMuteDeafSuppress || us.prioritySpeaker.isSome

/-- Fields of `broadcastUserStateFields`. -/
def hasBroadcast : Bool :=
  us.selfMute.isSome || us.selfDeaf.isSome || us.recording.isSome || us.hasAdminVoice ||
    us.channelID.isSome || us.texture.isSome || us.comment.isSome

/-- Fields of `handledUserStateFields`. -/
def hasHandled : Bool := us.hasBroadcast || us.pluginContext.isSome || us.pluginIdentity.isSome

/-- `SetFields` is not 0. -/
def hasAny : Bool :=
  us.hasHandled || us.session.isSome || us.actor.isSome || us.name.isSome || us.userID.isSome ||
    us.hash.isSome || us.commentHash.isSome || us.textureHash.isSome

def hasListening : Bool :=
  !us.listeningChannelAdd.isEmpty || !us.listeningChannelRemove.isEmpty ||
    !us.listeningVolumeAdjustment.isEmpty

end UserState

structure VoiceState where
  mute : Bool := false
  deaf : Bool := false
  suppress : Bool := false
  selfMute : Bool := false
  selfDeaf : Bool := false
  prioritySpeaker : Bool := false
  recording : Bool := false
deriving DecidableEq

/-- The part of a user record that permissions do not depend on. -/
structure Profile extends VoiceState where
  pluginIdentity : String := ""
  pluginContext : List UInt8 := []
  texture : List UInt8 := []
  comment : String := ""
deriving DecidableEq

structure Member where
  user : User
  profile : Profile
deriving DecidableEq

inductive DenyType where
  | permission
  | superUser
  | userName
  | textTooLong
  | temporaryChannel
  | channelFull
  | channelListenerLimit
  | userListenerLimit
deriving DecidableEq

structure PermissionDenied where
  channelID : ℕ := 0
  session : ℕ := 0
  permission : Permission := 0
  type : DenyType
  reason : String := ""
deriving DecidableEq

inductive Output where
  /-- The sender is told that the message is refused. -/
  | denied (d : PermissionDenied)
  /-- The sender is told that it may not listen to a channel. -/
  | listenDenied (d : PermissionDenied)
  /-- A UserState to the sender. -/
  | reply (us : UserState)
  /-- A UserState to everybody but one session. -/
  | broadcast (except : ℕ) (us : UserState)
  | permissionQuery (session channelID : ℕ) (permissions : Permission)
  /-- A UserRemove, after which the connection is closed. -/
  | removeThenClose (ref : SessionRef) (reason : String)
  /-- `RefreshEnterStatesFor`. -/
  | enterStates (session : ℕ)
  /-- The text message about a recording for old clients. -/
  | recordingAnnouncement (name : String) (recording : Bool)
deriving DecidableEq

/-! ### The server -/

/-- What the handler reads of the configuration; a limit of 0 is none. -/
structure Policy where
  fold : Char → Char
  maxTextLength : ℕ
  maxImageLength : ℕ
  recordingAllowed : Bool
  maxChannelListeners : ℕ
  maxListenersPerUser : ℕ

/-- The state the handler works on.  Listening relations are pairs of a session and a channel. -/
structure State where
  server : Acl.Server
  profiles : ℕ → Profile
  registry : Registry
  listeners : List (ℕ × ℕ)
  volumes : List ((ℕ × ℕ) × UInt32)

def State.member (st : State) (sid : ℕ) : Option Member :=
  (st.server.users.snapshot sid).map fun u => ⟨u, st.profiles sid⟩

def State.updateUser (st : State) (sid : ℕ) (fn : Member → Member) : State :=
  match st.server.users.snapshot sid with
  | none => st
  | some u =>
    { st with
      server := { st.server with
        users := (st.server.users.updateUser sid fun u => (fn ⟨u, st.profiles sid⟩).user).1 }
      profiles := Function.update st.profiles sid (fn ⟨u, st.profiles sid⟩).profile }

def State.setChannel (st : State) (sid channelID : ℕ) : State :=
  st.updateUser sid fun m => { m with user := { m.user with channelID := channelID } }

section permissions
variable (pol : Policy) (sv : Acl.Server)

def aclPermissions (subject : Subject) (channelID : ℕ) : Permission :=
  (Acl.source pol.fold).direct sv (subject, channelID)

def aclCheck (subject : Subject) (channelID : ℕ) (perm : Permission) : Bool :=
  decide (aclPermissions pol sv subject channelID &&& perm = perm)

def countInChannel (channelID : ℕ) : ℕ :=
  sv.users.bySession.countP fun u => decide (u.channelID = channelID)

end permissions

/-! ### Listening -/

section listening
variable (pol : Policy) (target : User)

/-- The body of the first loop of `applyListening`: the channel is listened to, or the sender is
told why not. -/
def listen (st : State) (cid : ℕ) : State × List Output × List ℕ :=
  match st.server.world.channels.getChannel cid with
  | none => (st, [], [])
  | some _ =>
    if aclCheck pol st.server (subjectOf target) cid Permission.listen = false then
      (st, [.listenDenied ⟨cid, target.sessionID, Permission.listen, .permission, ""⟩], [])
    else if 0 < pol.maxChannelListeners ∧
        pol.maxChannelListeners < st.listeners.countP (fun l => decide (l.2 = cid)) + 1 then
      (st, [.listenDenied ⟨cid, target.sessionID, 0, .channelListenerLimit,
        "Channel listener limit reached"⟩], [])
    else if 0 < pol.maxListenersPerUser ∧ pol.maxListenersPerUser <
        st.listeners.countP (fun l => decide (l.1 = target.sessionID)) + 1 then
      (st, [.listenDenied ⟨cid, target.sessionID, 0, .userListenerLimit,
        "User listener limit reached"⟩], [])
    else if (target.sessionID, cid) ∈ st.listeners then (st, [], [])
    else ({ st with listeners := (target.sessionID, cid) :: st.listeners }, [], [cid])

/-- The first loop of `applyListening`, with what was sent and the channels that were added. -/
def listenAll (st : State) : List ℕ → State × List Output × List ℕ
  | [] => (st, [], [])
  | cid :: rest =>
    let (st, out, added) := listen pol target st cid
    let (st, outs, addeds) := listenAll st rest
    (st, out ++ outs, added ++ addeds)

/-- The second loop of `applyListening`. -/
def unlistenAll (st : State) : List ℕ → State × List ℕ
  | [] => (st, [])
  | cid :: rest =>
    if (target.sessionID, cid) ∈ st.listeners then
      let r := unlistenAll { st with
        listeners := st.listeners.filter (fun l => decide (l ≠ (target.sessionID, cid)))
        volumes := st.volumes.filter (fun v => decide (v.1 ≠ (target.sessionID, cid))) } rest
      (r.1, cid :: r.2)
    else unlistenAll st rest

/-- The third loop of `applyListening`. -/
def adjustVolumes (st : State) : List VolumeAdjustment → State × List VolumeAdjustment
  | [] => (st, [])
  | va :: rest =>
    if (target.sessionID, va.listeningChannel) ∈ st.listeners then
      let r := adjustVolumes { st with
        volumes := ((target.sessionID, va.listeningChannel), va.factor) ::
          st.volumes.filter fun v => decide (v.1 ≠ (target.sessionID, va.listeningChannel)) } rest
      (r.1, va :: r.2)
    else adjustVolumes st rest

/-- `applyListening`: what has taken effect goes to everybody, the volumes to the sender alone. -/
def applyListening (st : State) (actor : ℕ) (us : UserState) : State × List Output :=
  let (st, out, added) := listenAll pol target st us.listeningChannelAdd
  let (st, removed) := unlistenAll target st us.listeningChannelRemove
  let (st, adjusted) := adjustVolumes target st us.listeningVolumeAdjustment
  if added.isEmpty && removed.isEmpty && adjusted.isEmpty then (st, out)
  else
    let base : UserState := {
      session := some target.sessionID
      actor := some actor
      listeningChannelAdd := added
      listeningChannelRemove := removed }
    (st, out ++ [.reply { base with listeningVolumeAdjustment := adjusted },
      .broadcast actor base])

end listening

/-! ### The checks

The handler looks at the state one access at a time; a permission query counts as one.  A check
that fails ends the handler with what it sends. -/

/-- A part of the handler. -/
abbrev Check (α : Type) : Type := Fallible State (List Output) α

def look {α : Type} (f : State → α) : Check α := Fallible.ask fun st => .ok (f st)

def refuseIf (b : Bool) (outs : List Output) : Check Unit := if b then throw outs else pure ()

/-- A check that is made only in some cases. -/
def checkIf (b : Bool) (p : Check Unit) : Check Unit := if b then p else pure ()

def deny (channelID : ℕ) (type : DenyType) (reason : String) : List Output :=
  [.denied { channelID := channelID, type := type, reason := reason }]

section handler
variable (pol : Policy)

/-- `aclCheck`, as an access. -/
def allowed (subject : Subject) (channelID : ℕ) (perm : Permission) : Check Bool :=
  look fun st => aclCheck pol st.server subject channelID perm

def channelIsFull (channelID : ℕ) (subject : Subject) : Check Bool := do
  match ← look fun st => st.server.world.channels.getChannel channelID with
  | none => pure false
  | some ch =>
    if ch.maxUsers = 0 then pure false
    else do
      let mayWrite ← allowed pol subject channelID Permission.write
      if mayWrite then pure false
      else do
        let count ← look fun st => countInChannel st.server channelID
        pure (decide (ch.maxUsers ≤ count))

/-- The loop of `firstPermanentChannel`. -/
def firstPermanentLoop : List ℕ → Check (Option ℕ)
  | [] => pure none
  | cid :: rest => do
      match ← look fun st => st.server.world.channels.getChannel cid with
      | none => pure none
      | some ch => if ch.isTemporary then firstPermanentLoop rest else pure (some cid)

def firstPermanentChannel (channelID : ℕ) : Check (Option ℕ) := do
  let chain ← look fun st => st.server.world.channels.ancestorChain channelID
  firstPermanentLoop chain

variable (sender : User) (target : Member) (isAdminOp : Bool) (us : UserState)

/-- Muting also needs the right outside temporary channels. -/
def checkPermanent : Check Unit := do
  let permanent ← firstPermanentChannel target.user.channelID
  match permanent with
  | none => throw outside
  | some cid =>
    let may ← allowed pol (subjectOf sender) cid Permission.muteDeafen
    refuseIf (!may) outside
where
  outside : List Output := deny target.user.channelID .temporaryChannel
    "No mute/deafen permission outside temporary channel"

/-- Mute, deaf, suppress and priority speaker; suppress can only be cleared. -/
def checkVoice : Check Unit :=
  checkIf us.hasAdminVoice do
    refuseIf (us.suppress.getD false)
      (deny target.user.channelID .permission "No mute/deafen permission")
    let may ← allowed pol (subjectOf sender) target.user.channelID Permission.muteDeafen
    refuseIf (!may) (deny target.user.channelID .permission "No mute/deafen permission")
    checkIf us.hasMuteDeafSuppress (checkPermanent pol sender target)

/-- What belongs to another user can only be cleared, by who may reset it. -/
def checkReset (isEmpty : Bool) (reason : String) : Check Unit := do
  let may ← allowed pol (subjectOf sender) rootChannelID Permission.resetUser
  refuseIf (!may) (deny rootChannelID .permission "No permission to reset user content")
  refuseIf (!isEmpty) (deny target.user.channelID .textTooLong reason)

def checkComment : Check Unit :=
  match us.comment with
  | none => pure ()
  | some comment => do
      checkIf isAdminOp (checkReset pol sender target (comment == "")
        "May only clear another user's comment")
      refuseIf (decide (0 < pol.maxTextLength ∧ pol.maxTextLength < comment.utf8ByteSize))
        (deny target.user.channelID .textTooLong "Comment too long")

/-- As for the comment, with the size first. -/
def checkTexture : Check Unit :=
  match us.texture with
  | none => pure ()
  | some texture => do
      refuseIf (decide (0 < pol.maxImageLength ∧ pol.maxImageLength < texture.length))
        (deny target.user.channelID .textTooLong "Texture too large")
      checkIf isAdminOp (checkReset pol sender target texture.isEmpty
        "May only clear another user's texture")

/-- A client that starts to record where this is forbidden is disconnected, if it is still there. -/
def checkRecording : Check Unit :=
  checkIf (us.recording.getD false && !target.profile.recording && !pol.recordingAllowed) do
    let present ← look fun st => (st.registry.snapshot target.user.ref).isSome
    throw (if present then
      [.removeThenClose target.user.ref "Recording is not allowed on this server"] else [])

def checkMove : Check Unit :=
  match us.channelID with
  | none => pure ()
  | some channelID => do
      let channel ← look fun st => st.server.world.channels.getChannel channelID
      refuseIf channel.isNone []
      -- asking for the channel one is in drops the whole message
      refuseIf (decide (channelID = target.user.channelID)) []
      checkIf isAdminOp do
        let may ← allowed pol (subjectOf sender) target.user.channelID Permission.move
        refuseIf (!may) (deny target.user.channelID .permission "No move permission")
      let may ← allowed pol (subjectOf sender) channelID Permission.move
      checkIf (!may) do
        let mayEnter ← allowed pol (subjectOf target.user) channelID Permission.enter
        refuseIf (!mayEnter) (deny channelID .permission "Permission denied")
      let full ← channelIsFull pol channelID (subjectOf sender)
      refuseIf full (deny channelID .channelFull "Channel is full")

/-- A recording that is in the state asked for is not a change. -/
def UserState.dropRecording (us : UserState) (p : Profile) : UserState :=
  if us.recording = some p.recording then { us with recording := none } else us

/-- All checks after listening; what is left of the message. -/
def checkAll : Check UserState := do
  refuseIf (!us.hasAny) []
  refuseIf (isAdminOp && us.hasSelfOnly) []
  checkVoice pol sender target us
  checkComment pol sender target isAdminOp us
  checkTexture pol sender target isAdminOp us
  checkRecording pol target us
  refuseIf (!(us.dropRecording target.profile).hasHandled) []
  checkMove pol sender target isAdminOp (us.dropRecording target.profile)
  pure (us.dropRecording target.profile)

end handler

/-! ### The update -/

/-- `applySelfVoiceState`: deafening oneself mutes, unmuting undeafens. -/
def applySelfVoiceState (vs : VoiceState) (us : UserState) : VoiceState × UserState :=
  let (vs, us) : VoiceState × UserState :=
    match us.selfDeaf with
    | none => (vs, us)
    | some true => ({ vs with selfDeaf := true, selfMute := true }, { us with selfMute := some true })
    | some false => ({ vs with selfDeaf := false }, us)
  let (vs, us) : VoiceState × UserState :=
    match us.selfMute with
    | none => (vs, us)
    | some true => ({ vs with selfMute := true }, us)
    | some false =>
      ({ vs with selfMute := false, selfDeaf := false }, { us with selfDeaf := some false })
  ({ vs with recording := us.recording.getD vs.recording }, us)

def applyAdminVoiceState (vs : VoiceState) (us : UserState) : VoiceState × UserState :=
  let (vs, us) : VoiceState × UserState :=
    match us.deaf with
    | none => (vs, us)
    | some true => ({ vs with deaf := true, mute := true }, { us with mute := some true })
    | some false => ({ vs with deaf := false }, us)
  let (vs, us) : VoiceState × UserState :=
    match us.mute with
    | none => (vs, us)
    | some true => ({ vs with mute := true }, us)
    | some false => ({ vs with mute := false, deaf := false }, { us with deaf := some false })
  ({ vs with
      suppress := us.suppress.getD vs.suppress
      prioritySpeaker := us.prioritySpeaker.getD vs.prioritySpeaker }, us)

/-- `applyChannelEnterEffects`, and what it puts into the message: priority ends, and suppress
follows the right to speak. -/
def applyChannelEnterEffects (vs : VoiceState) (us : UserState) (maySpeak : Bool) :
    VoiceState × UserState :=
  ({ vs with prioritySpeaker := false, suppress := !maySpeak },
    { us with
      prioritySpeaker := if vs.prioritySpeaker then some false else us.prioritySpeaker
      suppress := if maySpeak = vs.suppress then some (!maySpeak) else us.suppress })

/-- The function given to the last `UpdateUser`, with the message to echo; `maySpeak` after a move. -/
def applyUserState (us : UserState) (maySpeak : Option Bool) (p : Profile) : Profile × UserState :=
  let (vs, us) := applySelfVoiceState p.toVoiceState us
  let (vs, us) := applyAdminVoiceState vs us
  let (vs, us) :=
    match maySpeak with
    | none => (vs, us)
    | some maySpeak => applyChannelEnterEffects vs us maySpeak
  ({ toVoiceState := vs
     texture := us.texture.getD p.texture
     comment := us.comment.getD p.comment
     pluginIdentity := us.pluginIdentity.getD p.pluginIdentity
     pluginContext := us.pluginContext.getD p.pluginContext }, us)

/-! ### The handler -/

/-- What the handler leaves behind; `applied` if the message has passed the checks. -/
structure Handled where
  state : State
  outputs : List Output
  applied : Bool

section handling
variable (pol : Policy)

/-- The end of `handleUserState`: the echo, without what is not sent to clients. -/
def echo (actor sid : ℕ) (moved : Bool) (m : Member) (us : UserState) : List Output :=
  let us := { us with pluginContext := none, pluginIdentity := none }
  if us.hasBroadcast = false then []
  else
    let us := { us with session := some sid, actor := some actor }
    [.broadcast 0 us] ++ (if moved then [.enterStates sid] else []) ++
      (if us.recording.isSome then [.recordingAnnouncement m.user.name m.profile.recording] else [])

/-- The move: the new state, what the mover is sent, and whether it may speak there. -/
def moveUser (st : State) (actor : ℕ) (target : User) (channelID : ℕ) :
    State × List Output × Bool :=
  let st := st.setChannel target.sessionID channelID
  (st,
    if target.sessionID = actor then
      [.permissionQuery target.sessionID channelID
        (aclPermissions pol st.server (subjectOf target) channelID)] else [],
    aclCheck pol st.server (subjectOf target) channelID Permission.speak)

/-- The last `UpdateUser`. -/
def updateRecord (st : State) (sid : ℕ) (us : UserState) (maySpeak : Option Bool) : State :=
  st.updateUser sid fun m => { m with profile := (applyUserState us maySpeak m.profile).1 }

/-- What the last `UpdateUser` gives back: the new record, and the message to echo. -/
def updatedRecord (st : State) (sid : ℕ) (us : UserState) (maySpeak : Option Bool) :
    Option (Member × UserState) :=
  (st.member sid).map fun m =>
    ({ m with profile := (applyUserState us maySpeak m.profile).1 },
      (applyUserState us maySpeak m.profile).2)

/-- The updates of a message that has passed the checks. -/
def applyChecked (st : State) (actor : ℕ) (target : User) (us : UserState) : State × List Output :=
  let (st, out, maySpeak) : State × List Output × Option Bool :=
    match us.channelID with
    | none => (st, [], none)
    | some channelID =>
      let (st, out, maySpeak) := moveUser pol st actor target channelID
      (st, out, some maySpeak)
  (updateRecord st target.sessionID us maySpeak,
    match updatedRecord st target.sessionID us maySpeak with
    | none => out
    | some (m, us) => out ++ echo actor target.sessionID maySpeak.isSome m us)

/-- The message without what has its own path or is not supported: listening, self-registration
and temporary tokens. -/
def UserState.strip (us : UserState) : UserState :=
  { us with
    userID := none
    temporaryAccessTokens := []
    listeningChannelAdd := []
    listeningChannelRemove := []
    listeningVolumeAdjustment := [] }

/-- `isAdminOp`: the message is about somebody else. -/
def isAdminOp (sender target : User) : Bool := decide (target.sessionID ≠ sender.sessionID)

/-- What ends the handler before the message takes any effect. -/
def refusal (rateAllows : Bool) (sender target : User) (us : UserState) : Option (List Output) :=
  if target.isSuperUser && !sender.isSuperUser then
    some (deny target.channelID .superUser "Cannot modify SuperUser")
  else if us.name.isSome then some [.denied { type := .userName }]
  else if !isAdminOp sender target && !rateAllows then some []
  else if us.hasListening && isAdminOp sender target then some []
  else none

/-- `handleUserState` from the checks of the fields on; `out` is what has been sent so far. -/
def finishUserState (st : State) (out : List Output) (sender : User) (target : Member)
    (us : UserState) : Handled :=
  match (checkAll pol sender target (isAdminOp sender target.user) us).on st with
  | .error outs => ⟨st, out ++ outs, false⟩
  | .ok us =>
    let r := applyChecked pol st sender.sessionID target.user us
    ⟨r.1, out ++ r.2, true⟩

/-- `handleUserState`, with the two records it has read. -/
def handleTarget (st : State) (rateAllows : Bool) (sender : User) (target : Member)
    (us : UserState) : Handled :=
  match refusal rateAllows sender target.user us with
  | some outs => ⟨st, outs, false⟩
  | none =>
    let r := if us.hasListening then applyListening pol target.user st sender.sessionID us
      else (st, [])
    finishUserState pol r.1 r.2 sender target us.strip

/-- `handleUserState`, for a connection that owns the session `c`; `rateAllows` is the answer of
the rate limiter. -/
def handleUserState (st : State) (rateAllows : Bool) (c : SessionRef) (us : UserState) : Handled :=
  if st.registry.active c = false then ⟨st, [], false⟩
  else
    match st.server.users.snapshot c.sessionID, st.member (us.session.getD c.sessionID) with
    | some sender, some target => handleTarget pol st rateAllows sender target us
    | _, _ => ⟨st, [], false⟩

end handling

end MumbleServer.Moderation

import MumbleServer.ChannelLinks
import MumbleServer.ModerationAuth

/-! # The operations of a server on its users and channels

What clients, the REST interface and disconnects do to the channel tree, the users and the
listening relations (`internal/mumble/handlers.go`, `internal/handler/server.go`), one completed
operation after the other.  Channels go away in three ways: by a ChannelRemove of a client, by the
REST interface, and when a session ends and temporary channels are left empty.

The channel manager, the user manager and the listeners know nothing of each other; each operation
is the sequence of calls that the source makes.  The IDs of channels come from the database, which
never gives an ID twice because rows are only marked as deleted: `rows` are the IDs it has given.
`Output` is what goes to the clients. -/

namespace MumbleServer.ServerOps

open Acl (Permission Subject subjectOf)
open Moderation (Policy State Profile PermissionDenied UserState aclCheck countInChannel)

/-- `messages.ChannelState`, as a client sends it; what is not sent has the default value. -/
structure ChannelState where
  channelID : ℕ := 0
  parent : ℕ := 0
  name : String := ""
  description : String := ""
  position : Int := 0
  temporary : Bool := false
  maxUsers : ℕ := 0
  links : List ℕ := []
  linksAdd : List ℕ := []
  linksRemove : List ℕ := []
deriving DecidableEq

inductive Output
  /-- `BroadcastChannelState`. -/
  | channel (ch : Channel)
  /-- A ChannelRemove to everybody. -/
  | channelRemove (id : ℕ)
  /-- `refreshEnterStatesFor`: all channels to one session. -/
  | refresh (session : ℕ) (tree : List Channel)
  /-- What concerns users, and refusals. -/
  | user (o : Moderation.Output)
deriving DecidableEq

/-- The server, with the IDs of the channel rows of the database. -/
structure Site where
  state : State
  rows : List ℕ

/-- The configuration; a default channel of 0 is none. -/
structure Config where
  pol : Policy
  defaultChannel : ℕ

/-- What the database answers to a ChannelState: to the row of a new channel, to the new metadata,
and to the transaction of the links. -/
structure Answers where
  insert : Bool
  update : Bool
  links : Bool
deriving DecidableEq

def refused (d : PermissionDenied) : List Output := [.user (.denied d)]

namespace Site
variable (s : Site)

def channels : Channels := s.state.server.world.channels

def users : UserManager := s.state.server.users

def setChannels (cs : Channels) : Site :=
  { s with state := { s.state with
      server := { s.state.server with world := { s.state.server.world with channels := cs } } } }

def setUsers (m : UserManager) : Site :=
  { s with state := { s.state with server := { s.state.server with users := m } } }

/-- `Create`; `newID` is the ID that the database assigns. -/
def create (newID parentID : ℕ) (name description : String) (position : Int) (temporary : Bool)
    (maxUsers : ℕ) : Site × Option Channel :=
  if newID ∈ s.rows then (s, none)
  else
    match s.channels.create newID parentID name description position temporary maxUsers with
    | (_, none) => (s, none)
    | (cs, some ch) => ({ s.setChannels cs with rows := newID :: s.rows }, some ch)

/-- `BroadcastChannelState` for channels that are looked up again. -/
def announce (ids : List ℕ) : List Output :=
  ids.filterMap fun id => (s.channels.getChannel id).map .channel

/-- `UpdateLinks` with its broadcasts. -/
def updateLinks (id : ℕ) (desired : List ℕ) (dbOk : Bool) : Site × Option (List Output) :=
  match s.channels.updateLinks id desired dbOk with
  | none => (s, none)
  | some (cs, changed) => (s.setChannels cs, some ((s.setChannels cs).announce changed))

end Site

/-! ### ChannelState -/

section channelState
variable (cfg : Config) (s : Site) (u : User) (m : ChannelState)

def ChannelState.opts : Channels.UpdateOpts where
  name := if m.name = "" then none else some m.name
  description := if m.description = "" then none else some m.description
  position := if m.position = 0 then none else some m.position
  maxUsers := if m.maxUsers = 0 then none else some m.maxUsers
  temporary := if m.temporary then some true else none
  links := none
  linksAdd := []
  linksRemove := []

def ChannelState.hasMetadataChange : Bool :=
  decide (m.name ≠ "") || decide (m.description ≠ "") || decide (m.position ≠ 0) ||
    decide (m.maxUsers ≠ 0) || m.temporary

def ChannelState.hasLinkChange : Bool :=
  !m.links.isEmpty || !m.linksAdd.isEmpty || !m.linksRemove.isEmpty

def ChannelState.desiredLinks (links : List ℕ) : List ℕ :=
  ((if m.links.isEmpty then links else m.links) ++ m.linksAdd).filter
    fun id => decide (id ∉ m.linksRemove)

/-- The checks of `handleChannelState` for a channel that exists. -/
def mayUpdate (ch : Channel) : Bool :=
  let may := fun (id : ℕ) (perm : Permission) =>
    aclCheck cfg.pol s.state.server (subjectOf u) id perm
  let desired := m.desiredLinks ch.links
  (!m.hasMetadataChange || may m.channelID Permission.write) &&
    (!m.hasLinkChange ||
      (desired.all (fun id => decide (id ∈ ch.links) || (decide (id ≠ m.channelID) &&
          may m.channelID Permission.linkChannel && may id Permission.linkChannel)) &&
        ch.links.all fun id => decide (id ∈ desired) ||
          may m.channelID Permission.linkChannel || may id Permission.linkChannel))

/-- A client creates a channel; a parent of 0 is the root. -/
def createChannel (newID : ℕ) (inserts : Bool) : Site × List Output :=
  if aclCheck cfg.pol s.state.server (subjectOf u) m.parent Permission.makeChannel = false then
    (s, refused { channelID := m.parent, type := .permission, reason := "Cannot create channel" })
  else if inserts = false then
    (s, refused { type := .permission, reason := "Cannot create channel" })
  else
    match s.create newID m.parent m.name m.description m.position m.temporary m.maxUsers with
    | (s, none) => (s, refused { type := .permission, reason := "Cannot create channel" })
    | (s, some ch) => (s, [.channel ch])

def updateMetadata (dbOk : Bool) : Site × List Output :=
  if m.hasMetadataChange then
    let s := s.setChannels (s.channels.update m.channelID m.opts)
    (s, if dbOk then s.announce [m.channelID] else [])
  else (s, [])

/-- A client changes a channel that exists: the metadata first, then the links. -/
def updateChannel (ch : Channel) (db : Answers) : Site × List Output :=
  if mayUpdate cfg s u m ch = false then
    (s, refused { channelID := m.channelID, type := .permission })
  else
    let (s, out) := updateMetadata s m db.update
    if m.hasLinkChange then
      match s.updateLinks m.channelID (m.desiredLinks ch.links) db.links with
      | (s, none) => (s, out ++ refused { channelID := m.channelID, type := .permission })
      | (s, some outs) => (s, out ++ outs)
    else (s, out)

def handleChannelState (c : SessionRef) (newID : ℕ) (db : Answers) : Site × List Output :=
  if s.state.registry.active c = false then (s, [])
  else
    match s.users.snapshot c.sessionID with
    | none => (s, [])
    | some u =>
      if m.channelID = 0 then createChannel cfg s u m newID db.insert
      else
        match s.channels.getChannel m.channelID with
        | none => (s, [])
        | some ch => updateChannel cfg s u m ch db

end channelState

/-! ### ChannelRemove -/

section channelRemove
variable (cfg : Config)

/-- The record of a user who has entered a channel. -/
def entered (maySpeak : Bool) (m : Moderation.Member) : Moderation.Member :=
  { m with profile := { m.profile with
      toVoiceState :=
        (Moderation.applyChannelEnterEffects m.profile.toVoiceState {} maySpeak).1 } }

@[simp] theorem entered_user (maySpeak : Bool) (m : Moderation.Member) :
    (entered maySpeak m).user = m.user := rfl

/-- A user of a channel that is to be removed is moved to the parent.  The right to speak there is
looked up while the user is still in the old channel. -/
def evict (parentID : ℕ) (st : State) (u : User) : State × List Output :=
  let maySpeak := aclCheck cfg.pol st.server (subjectOf u) parentID Permission.speak
  let moved := st.setChannel u.sessionID parentID
  (moved.updateUser u.sessionID (entered maySpeak),
    match moved.member u.sessionID with
    | none => []
    | some m =>
      [.user (.broadcast 0 (Moderation.applyChannelEnterEffects m.profile.toVoiceState
        { session := some u.sessionID, channelID := some parentID } maySpeak).2)])

def evictAll (parentID : ℕ) (st : State) : List User → State × List Output
  | [] => (st, [])
  | u :: rest =>
    let (st, out) := evict cfg parentID st u
    let (st, outs) := evictAll parentID st rest
    (st, out ++ outs)

theorem evictAll_cons (parentID : ℕ) (st : State) (u : User) (rest : List User) :
    evictAll cfg parentID st (u :: rest) =
      ((evictAll cfg parentID (evict cfg parentID st u).1 rest).1,
        (evict cfg parentID st u).2 ++
          (evictAll cfg parentID (evict cfg parentID st u).1 rest).2) := rfl

/-- `RemoveChannel` of the listeners. -/
def unlistenChannel (st : State) (id : ℕ) : State × List Output :=
  ({ st with
      listeners := st.listeners.filter (fun l => decide (l.2 ≠ id))
      volumes := st.volumes.filter (fun v => decide (v.1.2 ≠ id)) },
    (st.listeners.filter (fun l => decide (l.2 = id))).map fun l =>
      .user (.broadcast 0 { session := some l.1, listeningChannelRemove := [id] }))

/-- Users and listeners leave a channel. -/
def vacate (st : State) (ch : Channel) : State × List Output :=
  let (st, out) := evictAll cfg ch.parentID st
    (st.server.users.bySession.filter fun u => decide (u.channelID = ch.id))
  let (st, outs) := unlistenChannel st ch.id
  (st, out ++ outs)

/-- `Remove` of the channel manager. -/
def Site.remove (s : Site) (id : ℕ) (dbOk : Bool) : Site × Bool :=
  if dbOk = false then (s, false)
  else (s.setChannels (s.channels.remove id).1, (s.channels.remove id).2)

def handleChannelRemove (s : Site) (c : SessionRef) (id : ℕ) (dbOk : Bool) : Site × List Output :=
  if s.state.registry.active c = false then (s, [])
  else
    match s.users.snapshot c.sessionID with
    | none => (s, [])
    | some u =>
      if aclCheck cfg.pol s.state.server (subjectOf u) id Permission.write = false then
        (s, refused { channelID := id, type := .permission })
      else
        match s.channels.getChannel id with
        | none => (s, [])
        | some ch =>
          let (st, outs) := vacate cfg s.state ch
          let (s, removed) := Site.remove { s with state := st } id dbOk
          (s, outs ++ if removed then [.channelRemove id] else [])

end channelRemove

/-! ### The REST interface -/

section rest
variable (s : Site)

/-- `CreateChannel`. -/
def restCreate (newID parentID : ℕ) (name description : String) (position : Int) (temporary : Bool)
    (maxUsers : ℕ) : Site × List Output :=
  match s.create newID parentID name description position temporary maxUsers with
  | (s, none) => (s, [])
  | (s, some ch) => (s, [.channel ch])

/-- The options without links. -/
def metadataOnly (opts : Channels.UpdateOpts) : Channels.UpdateOpts :=
  { opts with links := none, linksAdd := [], linksRemove := [] }

/-- There is something to update besides the links. -/
def hasMetadata (opts : Channels.UpdateOpts) : Bool :=
  opts.name.isSome || opts.description.isSome || opts.position.isSome || opts.maxUsers.isSome ||
    opts.temporary.isSome

def restMetadata (id : ℕ) (opts : Channels.UpdateOpts) : Site :=
  if hasMetadata opts then s.setChannels (s.channels.update id (metadataOnly opts)) else s

/-- `UpdateChannel`; the links are not among the options here. -/
def restUpdate (id : ℕ) (opts : Channels.UpdateOpts) (links : Option (List ℕ)) (dbOk : Bool) :
    Site × List Output :=
  if s.channels.has id = false then (s, [])
  else
    let s := restMetadata s id opts
    if hasMetadata opts && !dbOk then (s, [])
    else
      match links with
      | none => (s, s.announce [id])
      | some desired =>
        match s.updateLinks id desired dbOk with
        | (s', none) => (s', s.announce [id])
        | (s', some outs) => (s', s.announce [id] ++ outs)

/-- `DeleteChannel`: neither users nor listeners are looked at. -/
def restDelete (id : ℕ) (dbOk : Bool) : Site × List Output :=
  let (s, removed) := s.remove id dbOk
  (s, if removed then [.channelRemove id] else [])

end rest

/-! ### Users come and go -/

section sessions
variable (cfg : Config) (s : Site)

def joinChannelFor (userID : UInt32) : ℕ :=
  let subject : Subject := ⟨0, userID, 0⟩
  if s.channels.has cfg.defaultChannel = false then rootChannelID
  else if aclCheck cfg.pol s.state.server subject cfg.defaultChannel Permission.enter = false then
    rootChannelID
  else
    match (Moderation.channelIsFull cfg.pol cfg.defaultChannel subject).on s.state with
    | .ok false => cfg.defaultChannel
    | _ => rootChannelID

/-- `handleAuthenticate` for a user whom the identity authority lets in, up to the commit of the
initial sync. -/
def login (u : User) (edge : String) : Site × List Output :=
  match s.users.add { u with channelID := joinChannelFor cfg s u.userID } with
  | (users, none) => (s.setUsers users, [])
  | (users, some stored) =>
    match s.state.registry.bind stored.ref edge with
    | .error _ => (s.setUsers (users.removeIfGeneration stored.ref).1, [])
    | .ok r =>
      match r.commitActive stored.ref with
      | .error _ => (s.setUsers (users.removeIfGeneration stored.ref).1, [])
      | .ok r =>
        ({ s with state := { s.state with
            server := { s.state.server with users := users }
            registry := r
            profiles := Function.update s.state.profiles stored.sessionID {} } }, [])

/-- What `UnregisterConn` does while the session is unbound. -/
def detach (st : State) (ref : SessionRef) : State :=
  match st.registry.closeAndUnbind ref with
  | .error _ => st
  | .ok (r, _) =>
    { st with
      registry := r
      listeners := st.listeners.filter (fun l => decide (l.1 ≠ ref.sessionID))
      volumes := st.volumes.filter (fun v => decide (v.1.1 ≠ ref.sessionID)) }

/-- `CleanEmptyTempChannels`, as the server calls it. -/
def clean : Site :=
  s.setChannels (s.channels.cleanEmptyTempChannels fun id =>
    decide (0 < countInChannel s.state.server id))

def unregisterConn (ref : SessionRef) : Site :=
  if ref.valid = false then s else clean { s with state := detach s.state ref }

/-- `RemoveIfGeneration`. -/
def removeUser (ref : SessionRef) : Site := s.setUsers (s.users.removeIfGeneration ref).1

/-- `OnClose`. -/
def disconnect (ref : SessionRef) : Site := removeUser (unregisterConn s ref) ref

/-- `KickSessionRef` up to the removal of the user. -/
def kicked (ref : SessionRef) : Option Site :=
  match s.users.snapshotRef ref, s.state.registry.beginClose ref with
  | some _, .ok (r, _) => some (removeUser { s with state := { s.state with registry := r } } ref)
  | _, _ => none

/-- `KickSessionRef`. -/
def kick (ref : SessionRef) : Site :=
  match kicked s ref with
  | some s => unregisterConn s ref
  | none => s

def refreshSuppressStates (st : State) : List User → State × List Output
  | [] => (st, [])
  | u :: rest =>
    let maySpeak := aclCheck cfg.pol st.server (subjectOf u) u.channelID Permission.speak
    let changed := (st.member u.sessionID).any fun m => decide (maySpeak = m.profile.suppress)
    let st := st.updateUser u.sessionID fun m =>
      { m with profile := { m.profile with suppress := !maySpeak } }
    let (st, outs) := refreshSuppressStates st rest
    (st, (if changed then
      [.user (.broadcast 0 { session := some u.sessionID, suppress := some (!maySpeak) })]
      else []) ++ outs)

/-- An edit of the access control lists by the REST interface, with its refresh. -/
def editACL (db : Acl.Database) : Site × List Output :=
  let st := { s.state with
    server := { s.state.server with world := { s.state.server.world with db := db } } }
  let (st, outs) := refreshSuppressStates cfg st st.server.users.bySession
  ({ s with state := st }, outs ++ st.server.users.bySession.map fun u =>
    .refresh u.sessionID st.server.world.channels.getTree)

end sessions

/-! ### Operations -/

inductive Op
  | login (u : User) (edge : String)
  | userState (rateAllows : Bool) (c : SessionRef) (us : UserState)
  | channelState (c : SessionRef) (m : ChannelState) (newID : ℕ) (db : Answers)
  | channelRemove (c : SessionRef) (id : ℕ) (dbOk : Bool)
  | restCreate (newID parentID : ℕ) (name description : String) (position : Int)
      (temporary : Bool) (maxUsers : ℕ)
  | restUpdate (id : ℕ) (opts : Channels.UpdateOpts) (links : Option (List ℕ)) (dbOk : Bool)
  | restDelete (id : ℕ) (dbOk : Bool)
  | disconnect (ref : SessionRef)
  | kick (ref : SessionRef)
  | editACL (db : Acl.Database)

/-- What the handler of a UserState sends. -/
def relay (st : State) : Moderation.Output → Output
  | .enterStates sid => .refresh sid st.server.world.channels.getTree
  | o => .user o

def perform (cfg : Config) (s : Site) : Op → Site × List Output
  | .login u edge => login cfg s u edge
  | .userState rateAllows c us =>
    let h := Moderation.handleUserState cfg.pol s.state rateAllows c us
    ({ s with state := h.state }, h.outputs.map (relay h.state))
  | .channelState c m newID db => handleChannelState cfg s m c newID db
  | .channelRemove c id dbOk => handleChannelRemove cfg s c id dbOk
  | .restCreate newID parentID name description position temporary maxUsers =>
    restCreate s newID parentID name description position temporary maxUsers
  | .restUpdate id opts links dbOk => restUpdate s id opts links dbOk
  | .restDelete id dbOk => restDelete s id dbOk
  | .disconnect ref => (disconnect s ref, [])
  | .kick ref => (kick s ref, [])
  | .editACL db => editACL cfg s db

def step (cfg : Config) (s : Site) (op : Op) : Site := (perform cfg s op).1

/-! ### Edits of the channels -/

/-- Nothing that concerns channels. -/
def Quiet (outs : List Output) : Prop := ∀ o ∈ outs, ∃ d, o = .user d

/-- What the operations that create and change channels come down to, with what they send; `P` is
asked of every change of links. -/
inductive Edit (P : Channels → ℕ → List ℕ → Prop) : Site → Site → List Output → Prop
  | quiet (s : Site) {outs : List Output} : Quiet outs → Edit P s s outs
  | announce (s : Site) (id : ℕ) : Edit P s s (s.announce [id])
  | create {s s' : Site} {ch : Channel} (newID parentID : ℕ) (name description : String)
      (position : Int) (temporary : Bool) (maxUsers : ℕ) :
      s.create newID parentID name description position temporary maxUsers = (s', some ch) →
      Edit P s s' [.channel ch]
  | update (s : Site) (id : ℕ) (opts : Channels.UpdateOpts) :
      Edit P s (s.setChannels (s.channels.update id (metadataOnly opts))) []
  | links {s s' : Site} {outs : List Output} (id : ℕ) (desired : List ℕ) (dbOk : Bool) :
      P s.channels id desired → s.updateLinks id desired dbOk = (s', some outs) → Edit P s s' outs
  | trans {s s' s'' : Site} {outs outs' : List Output} :
      Edit P s s' outs → Edit P s' s'' outs' → Edit P s s'' (outs ++ outs')

variable (cfg : Config) {dbOk : Bool}

section edits
variable {P : Channels → ℕ → List ℕ → Prop} {s : Site}

theorem quiet_refused (d : PermissionDenied) : Quiet (refused d) := by
  intro o ho
  obtain rfl := List.mem_singleton.mp ho
  exact ⟨_, rfl⟩

theorem Edit.nothing (s : Site) : Edit P s s [] := .quiet s (by simp [Quiet])

theorem site_of_create_none {s' : Site} {newID parentID : ℕ} {name description : String}
    {position : Int} {temporary : Bool} {maxUsers : ℕ}
    (h : s.create newID parentID name description position temporary maxUsers = (s', none)) :
    s' = s := by
  unfold Site.create at h
  split_ifs at h
  · cases h
    rfl
  · split at h <;> cases h
    rfl

theorem site_of_updateLinks_none {s' : Site} {id : ℕ} {desired : List ℕ}
    (h : s.updateLinks id desired dbOk = (s', none)) : s' = s := by
  unfold Site.updateLinks at h
  split at h <;> cases h
  rfl

theorem createChannel_edit (u : User) (m : ChannelState) (newID : ℕ) (inserts : Bool) :
    Edit P s (createChannel cfg s u m newID inserts).1
      (createChannel cfg s u m newID inserts).2 := by
  unfold createChannel
  split_ifs
  · exact .quiet s (quiet_refused _)
  · exact .quiet s (quiet_refused _)
  · rcases hc : s.create newID m.parent m.name m.description m.position m.temporary m.maxUsers
      with ⟨s', _ | ch⟩
    · obtain rfl := site_of_create_none hc
      exact .quiet s' (quiet_refused _)
    · exact .create newID m.parent m.name m.description m.position m.temporary m.maxUsers hc

theorem updateMetadata_edit (m : ChannelState) (dbOk : Bool) :
    Edit P s (updateMetadata s m dbOk).1 (updateMetadata s m dbOk).2 := by
  unfold updateMetadata
  split_ifs
  · exact (Edit.update s m.channelID m.opts).trans (.announce _ _)
  · exact .update s m.channelID m.opts
  · exact .nothing s

theorem updateChannel_edit (u : User) (m : ChannelState) (ch : Channel) (db : Answers)
    (hP : m.hasLinkChange = true →
      P (updateMetadata s m db.update).1.channels m.channelID (m.desiredLinks ch.links)) :
    Edit P s (updateChannel cfg s u m ch db).1 (updateChannel cfg s u m ch db).2 := by
  unfold updateChannel
  split_ifs with _ hlinks
  · exact .quiet s (quiet_refused _)
  · rcases hu : (updateMetadata s m db.update).1.updateLinks m.channelID
      (m.desiredLinks ch.links) db.links with ⟨s', _ | outs⟩ <;> dsimp only <;> rw [hu]
    · obtain rfl := site_of_updateLinks_none hu
      exact (updateMetadata_edit m db.update).trans (.quiet _ (quiet_refused _))
    · exact (updateMetadata_edit m db.update).trans (.links _ _ db.links (hP hlinks) hu)
  · exact updateMetadata_edit m db.update

theorem handleChannelState_edit (m : ChannelState) (c : SessionRef) (newID : ℕ) (db : Answers)
    (hP : ∀ ch, s.channels.getChannel m.channelID = some ch → m.hasLinkChange = true →
      P (updateMetadata s m db.update).1.channels m.channelID (m.desiredLinks ch.links)) :
    Edit P s (handleChannelState cfg s m c newID db).1
      (handleChannelState cfg s m c newID db).2 := by
  unfold handleChannelState
  by_cases hactive : s.state.registry.active c = false
  · rw [if_pos hactive]
    exact .nothing s
  · rw [if_neg hactive]
    cases s.users.snapshot c.sessionID with
    | none => exact .nothing s
    | some u =>
      dsimp only
      by_cases hnew : m.channelID = 0
      · rw [if_pos hnew]
        exact createChannel_edit cfg u m newID db.insert
      · rw [if_neg hnew]
        cases hch : s.channels.getChannel m.channelID with
        | none => exact .nothing s
        | some ch => exact updateChannel_edit cfg u m ch db (hP ch hch)

theorem restCreate_edit (newID parentID : ℕ) (name description : String) (position : Int)
    (temporary : Bool) (maxUsers : ℕ) :
    Edit P s (restCreate s newID parentID name description position temporary maxUsers).1
      (restCreate s newID parentID name description position temporary maxUsers).2 := by
  unfold restCreate
  rcases hc : s.create newID parentID name description position temporary maxUsers with ⟨s', _ | ch⟩
  · obtain rfl := site_of_create_none hc
    exact .nothing s'
  · exact .create newID parentID name description position temporary maxUsers hc

theorem restMetadata_edit (id : ℕ) (opts : Channels.UpdateOpts) :
    Edit P s (restMetadata s id opts) [] := by
  unfold restMetadata
  split_ifs
  · exact .update s id opts
  · exact .nothing s

theorem restUpdate_edit (id : ℕ) (opts : Channels.UpdateOpts) (links : Option (List ℕ))
    (dbOk : Bool)
    (hP : ∀ desired, links = some desired → P (restMetadata s id opts).channels id desired) :
    Edit P s (restUpdate s id opts links dbOk).1 (restUpdate s id opts links dbOk).2 := by
  unfold restUpdate
  split_ifs
  · exact .nothing s
  · exact restMetadata_edit id opts
  · cases links with
    | none => exact (restMetadata_edit id opts).trans (.announce _ id)
    | some desired =>
      dsimp only
      have hmeta : Edit P s (restMetadata s id opts) ((restMetadata s id opts).announce [id]) :=
        (restMetadata_edit id opts).trans (.announce _ id)
      rcases hu : (restMetadata s id opts).updateLinks id desired dbOk with ⟨s', _ | outs⟩
      · obtain rfl := site_of_updateLinks_none hu
        exact hmeta
      · exact hmeta.trans (.links id desired dbOk (hP desired rfl) hu)

end edits

/-! ### What the operations come down to -/

section reached
variable (cfg : Config) (s : Site) (c : SessionRef) (id : ℕ)

/-- The channel that a ChannelRemove is about, if the sender may edit it. -/
def reached : Option Channel :=
  if s.state.registry.active c = false then none
  else
    match s.users.snapshot c.sessionID with
    | none => none
    | some u =>
      if aclCheck cfg.pol s.state.server (subjectOf u) id Permission.write = false then none
      else s.channels.getChannel id

/-- A ChannelRemove is dropped or refused, or the channel is vacated and then removed. -/
theorem handleChannelRemove_cases (dbOk : Bool) :
    (reached cfg s c id = none ∧ (handleChannelRemove cfg s c id dbOk).1 = s ∧
      ((handleChannelRemove cfg s c id dbOk).2 = [] ∨
        (handleChannelRemove cfg s c id dbOk).2 =
          refused { channelID := id, type := .permission })) ∨
    ∃ ch, reached cfg s c id = some ch ∧ s.channels.getChannel id = some ch ∧
      handleChannelRemove cfg s c id dbOk =
        ((Site.remove { s with state := (vacate cfg s.state ch).1 } id dbOk).1,
          (vacate cfg s.state ch).2 ++
            if (Site.remove { s with state := (vacate cfg s.state ch).1 } id dbOk).2 then
              [.channelRemove id] else []) := by
  unfold reached handleChannelRemove
  split_ifs with hactive
  · exact .inl ⟨rfl, rfl, .inl rfl⟩
  · cases s.users.snapshot c.sessionID with
    | none => exact .inl ⟨rfl, rfl, .inl rfl⟩
    | some u =>
      dsimp only
      split_ifs
      · exact .inl ⟨rfl, rfl, .inr rfl⟩
      · cases hch : s.channels.getChannel id with
        | none => exact .inl ⟨rfl, rfl, .inl rfl⟩
        | some ch => exact .inr ⟨ch, rfl, rfl, rfl⟩

theorem handleChannelRemove_rule {P : Site → Prop} (h : P s)
    (hv : ∀ ch, s.channels.getChannel id = some ch →
      P (Site.remove { s with state := (vacate cfg s.state ch).1 } id dbOk).1) :
    P (handleChannelRemove cfg s c id dbOk).1 := by
  rcases handleChannelRemove_cases cfg s c id dbOk with ⟨-, hsame, -⟩ | ⟨ch, -, hch, hremove⟩
  · rwa [hsame]
  · rw [hremove]
    exact hv ch hch

end reached

theorem kicked_cases {s s' : Site} {ref : SessionRef} (hk : kicked s ref = some s') :
    ∃ u r e, s.users.snapshotRef ref = some u ∧ s.state.registry.beginClose ref = .ok (r, e) ∧
      s' = removeUser { s with state := { s.state with registry := r } } ref := by
  unfold kicked at hk
  split at hk
  · rename_i u r e hu hclose
    exact ⟨u, r, e, hu, hclose, (Option.some.inj hk).symm⟩
  · cases hk

theorem kick_rule {P : Site → Prop} {s : Site} {ref : SessionRef} (h : P s)
    (hk : ∀ s', kicked s ref = some s' → P (unregisterConn s' ref)) : P (kick s ref) := by
  unfold kick
  cases hs : kicked s ref with
  | none => exact h
  | some s' => exact hk s' hs

/-- The operations that create and change channels. -/
def Op.edits : Op → Bool
  | .channelState .. | .restCreate .. | .restUpdate .. => true
  | _ => false

theorem step_edit (s : Site) {op : Op} (hop : op.edits = true) :
    Edit (fun _ _ _ => True) s (step cfg s op) (perform cfg s op).2 := by
  cases op with
  | channelState c m newID db =>
    exact handleChannelState_edit cfg m c newID db fun _ _ _ => trivial
  | restCreate newID parentID name description position temporary maxUsers =>
    exact restCreate_edit newID parentID name description position temporary maxUsers
  | restUpdate id opts links dbOk =>
    exact restUpdate_edit id opts links dbOk fun _ _ => trivial
  | _ => cases hop

end MumbleServer.ServerOps

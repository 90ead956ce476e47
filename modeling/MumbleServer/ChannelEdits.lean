import MumbleServer.ChannelMirror
import MumbleServer.LinkGraph

/-! # A ChannelState for a channel that exists

`handleChannelState` with both sides of the channel manager.  The checks come first, then the
metadata are updated and announced, and then the links.  The second step can still fail: a link is
wanted to a channel that does not exist, which happens if the channel has a link to one that is
gone and the message does not drop it, or the transaction fails.  The sender is refused then, and
the metadata stay. -/

namespace MumbleServer.ChannelStore

open Option
open Channels (UpdateOpts)
open ServerOps (Site Config ChannelState Output refused mayUpdate)
open Moderation (State)
variable {s : Store}

/-- The server, with its channel manager. -/
structure Desk where
  state : State
  store : Store

/-- The server as the checks see it: the channels are those in memory. -/
def Desk.site (d : Desk) : Site where
  state := { d.state with server := { d.state.server with
    world := { d.state.server.world with channels := d.store.memory } } }
  rows := d.store.table.records.map fun r => r.id

/-- What becomes of the statements: the ID for a new channel, and whether the others succeed. -/
structure Outcome where
  newID : ℕ
  create : Bool
  update : Bool
  links : Tx

/-- What the statements come to, if there is one answer to all of them. -/
def Outcome.all (newID : ℕ) (ok : Bool) : Outcome := ⟨newID, true, ok, ⟨ok, fun _ => ok, ok⟩⟩

/-! ### Links in memory and in the database -/

/-- Memory and database have the same channels with the same links. -/
def Paired (s : Store) : Prop := AgreeOn Shown.links s

theorem paired_of_agree (h : Agree s) : Paired s := by
  intro id
  have hsame := congrArg (Option.map Shown.links) (agree_iff.mp h id)
  rwa [map_map, map_map] at hsame

theorem Paired.updateLinks (h : Paired s) (id : ℕ) (desired : List ℕ) (tx : Tx) :
    Paired (s.updateLinks id desired tx).1 := by
  refine AgreeOn.updateLinks (fun x y links hxy => ?_) h id desired tx
  rw [hxy]

/-- An update of the metadata keeps the links, in memory and in the database, whether it fails or
not. -/
theorem Paired.update (h : Paired s) {opts : UpdateOpts}
    (hlinks : hasLinkUpdates opts = false) (id : ℕ) (ok : Bool) :
    Paired (s.update id opts ok).1 := by
  have hmemory : ∀ other, ((s.edit id opts).memory.getChannel other).map
      (fun c => (shown c).links) = (s.memory.getChannel other).map fun c => (shown c).links := by
    intro other
    rw [getChannel_edit]
    split_ifs with hid
    · rw [map_map, hid]
      exact map_congr fun c _ => newLinks_eq hlinks c.links
    · rfl
  have hedit : Paired (s.edit id opts) := fun other => (hmemory other).trans (h other)
  unfold Store.update
  cases s.memory.getChannel id with
  | none => exact h
  | some n =>
    split_ifs
    · exact hedit
    · exact hedit
    · intro other
      refine (hedit other).trans ?_
      show (s.row other).map _ = (Table.row (s.table.write s.serverID id _) s.serverID other).map _
      rw [Table.row_write]
      split_ifs with hid
      · rw [map_map, hid]
        refine map_congr fun r _ => ?_
        show r.links = if hasLinkUpdates opts then _ else r.links
        rw [hlinks]
        rfl
      · rfl

/-- The updates of the server say nothing of links; those go by `UpdateLinks`. -/
def Plain : Call → Prop
  | .update _ opts _ => hasLinkUpdates opts = false
  | _ => True

theorem paired_step (h : Paired s) {call : Call} (hplain : Plain call) : Paired (step s call) := by
  cases call with
  | create newID parentID name description position temporary maxUsers ok =>
    exact AgreeOn.create h newID parentID name description position temporary maxUsers ok
  | update id opts ok => exact h.update hplain id ok
  | remove id ok => exact AgreeOn.remove h id ok
  | updateLinks id desired tx => exact h.updateLinks id desired tx
  | clean hasUsers order ok => exact AgreeOn.clean h hasUsers order ok _

theorem paired_run (h : Paired s) {calls : List Call}
    (hplain : ∀ call ∈ calls, Plain call) : Paired (run step s calls) := by
  induction calls generalizing s with
  | nil => exact h
  | cons call calls ih =>
    rw [List.forall_mem_cons] at hplain
    exact ih (paired_step h hplain.1) hplain.2

/-! ### The handler -/

section handler
variable (s : Store) (m : ChannelState)

/-- `BroadcastChannelState` for channels that are looked up again. -/
def announce (ids : List ℕ) : List Output :=
  ids.filterMap fun id => (s.memory.getChannel id).map .channel

def editMetadata (ok : Bool) : Store × List Output :=
  if m.hasMetadataChange = false then (s, [])
  else
    match s.update m.channelID m.opts ok with
    | (s, false) => (s, [])
    | (s, true) => (s, announce s [m.channelID])

def editLinks (desired : List ℕ) (tx : Tx) : Store × List Output :=
  if m.hasLinkChange = false then (s, [])
  else
    match s.updateLinks m.channelID desired tx with
    | (s, none) => (s, refused { channelID := m.channelID, type := .permission })
    | (s, some changed) => (s, announce s changed)

/-- The metadata first, then the links. -/
def editChannel (ch : Channel) (o : Outcome) : Store × List Output :=
  let (s, out) := editMetadata s m o.update
  let (s, outs) := editLinks s m (m.desiredLinks ch.links) o.links
  (s, out ++ outs)

def createChannel (cfg : Config) (d : Desk) (u : User) (o : Outcome) : Desk × List Output :=
  if Moderation.aclCheck cfg.pol d.site.state.server (Acl.subjectOf u) m.parent
      Acl.Permission.makeChannel = false then
    (d, refused { channelID := m.parent, type := .permission, reason := "Cannot create channel" })
  else
    match d.store.create o.newID m.parent m.name m.description m.position m.temporary m.maxUsers
        o.create with
    | (s, none) =>
      ({ d with store := s }, refused { type := .permission, reason := "Cannot create channel" })
    | (s, some ch) => ({ d with store := s }, [.channel ch])

/-- The sender of a message, if it is dealt with. -/
def sender (d : Desk) (c : SessionRef) : Option User :=
  if d.state.registry.active c = false then none else d.state.server.users.snapshot c.sessionID

def handleChannelState (cfg : Config) (d : Desk) (c : SessionRef) (o : Outcome) :
    Desk × List Output :=
  match sender d c with
  | none => (d, [])
  | some u =>
    if m.channelID = 0 then createChannel m cfg d u o
    else
      match d.store.memory.getChannel m.channelID with
      | none => (d, [])
      | some ch =>
        if mayUpdate cfg d.site u m ch = false then
          (d, refused { channelID := m.channelID, type := .permission })
        else
          ({ d with store := (editChannel d.store m ch o).1 }, (editChannel d.store m ch o).2)

end handler

/-! ### What is asked for -/

/-- The channel has the metadata that the message sets. -/
def Granted (m : ChannelState) (c : Channel) : Prop :=
  (m.name ≠ "" → c.name = m.name) ∧ (m.description ≠ "" → c.description = m.description) ∧
    (m.position ≠ 0 → c.position = m.position) ∧ (m.maxUsers ≠ 0 → c.maxUsers = m.maxUsers) ∧
    (m.temporary = true → c.isTemporary = true)

/-- What the message asks for is in force, as the channels are looked up: the metadata, the links
of the channel, and those of the others to it. -/
structure InForce (m : ChannelState) (desired : List ℕ) (look : ℕ → Option Channel) : Prop where
  metadata : ∀ c ∈ look m.channelID, Granted m c
  links : m.hasLinkChange = true → ∀ c ∈ look m.channelID, ∀ l, l ∈ c.links ↔ l ∈ desired
  back : m.hasLinkChange = true → ∀ id, id ≠ m.channelID → ∀ c ∈ look id,
    (m.channelID ∈ c.links ↔ id ∈ desired)

/-- The channels of the rows. -/
def Store.stored (s : Store) (id : ℕ) : Option Channel := (s.row id).map fun r => r.channel

def isDenied : Output → Bool
  | .user (.denied _) => true
  | _ => false

def isChannelState : Output → Bool
  | .channel _ => true
  | _ => false

/-- If the sender is refused then nothing has changed, in memory or in the database, and no
ChannelState was sent; and otherwise all that was asked for is in force, in both. -/
def Consistent (m : ChannelState) (desired : List ℕ) (before after : Store) (outs : List Output) :
    Prop :=
  if outs.any isDenied then after = before ∧ outs.any isChannelState = false
  else InForce m desired after.memory.getChannel ∧ InForce m desired after.stored

/-- What the handler does is consistent. -/
def AllOrNothing (cfg : Config) (d : Desk) (m : ChannelState) (c : SessionRef) (o : Outcome)
    (desired : List ℕ) : Prop :=
  Consistent m desired d.store (handleChannelState m cfg d c o).1.store
    (handleChannelState m cfg d c o).2

/-- All statements of the transaction succeed. -/
def Tx.succeeds (tx : Tx) (updated : List (ℕ × List ℕ)) : Bool :=
  tx.begins && (updated.all fun e => tx.updates e.1) && tx.commits

/-- The links cannot be set: one is to the channel itself or to one that does not exist, or the
transaction fails. -/
def linksRefused (s : Store) (m : ChannelState) (ch : Channel) (tx : Tx) : Bool :=
  m.hasLinkChange &&
    ((m.desiredLinks ch.links).any (fun l => decide (l = m.channelID) || !s.memory.has l) ||
      (!s.memory.linksStable ch (m.desiredLinks ch.links) &&
        !tx.succeeds (s.linkUpdates ch (m.desiredLinks ch.links))))

/-- When a message for the channel `ch` is dealt with as a whole: one that is not looked at asks for
nothing new; if the links cannot be set, then no metadata are set, or the database refuses them and
they are as they were; and if the links can be set, then the database takes the metadata or has
them, and the message does not only drop links to channels that are gone. -/
def Whole (cfg : Config) (d : Desk) (m : ChannelState) (c : SessionRef) (o : Outcome)
    (ch : Channel) : Prop :=
  match sender d c with
  | none => InForce m (m.desiredLinks ch.links) d.store.memory.getChannel ∧
      InForce m (m.desiredLinks ch.links) d.store.stored
  | some u =>
    mayUpdate cfg d.site u m ch = true →
      if linksRefused d.store m ch o.links then
        m.hasMetadataChange = true → o.update = false ∧ Granted m ch
      else
        (m.hasMetadataChange = true →
          o.update = true ∨ ∀ c ∈ d.store.stored m.channelID, Granted m c) ∧
        (m.hasLinkChange = true →
          d.store.memory.linksStable ch (m.desiredLinks ch.links) = true →
            ∀ l ∈ ch.links, l ≠ m.channelID ∧ d.store.memory.has l = true)

end MumbleServer.ChannelStore

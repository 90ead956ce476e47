import MumbleServer.Registry

/-! # Incarnations of an edge

An edge that loses its link connects again under the same ID, as a new incarnation
(`internal/cluster/remoteedgeserver.go`).  Each link has a goroutine that reads from it and
authenticates clients (`AuthenticateRemote`), and each session that is ready has one that syncs it
(`TransportReadyRemote`).  Whoever finds that a link is lost, or that it is replaced, closes it:
`close` cleans up the sessions of the incarnation, one after the other, and takes the edge out of
the registry.

Each access to the user table, the registry and the control queues is a step, and between two steps
of one goroutine the others may do anything; what `UnregisterConn` does under the transition lock is
one step.  The identity authority answers when it likes and what it likes; all other reasons to
reject a client are part of its answer.

Sessions should belong to the incarnation that authenticated them (`System.Owned`), and one that is
closed should leave nothing behind (`System.Gone`). -/

namespace MumbleServer.EdgeIncarnation

/-! ### Goroutines -/

/-- Where a goroutine stands: what it does next. -/
inductive Thread where
  /-- `AuthenticateRemote`: the check of the incarnation. -/
  | checking (i : EdgeInstance)
  /-- It waits for the identity authority. -/
  | asking (i : EdgeInstance)
  | adding (i : EdgeInstance) (u : User)
  | binding (i : EdgeInstance) (ref : SessionRef)
  /-- The session could not be bound and its user is removed. -/
  | undoing (i : EdgeInstance) (ref : SessionRef)
  /-- `TransportReadyRemote`: the two checks of `remoteSessionOwned`. -/
  | readying (i : EdgeInstance) (ref : SessionRef)
  | owning (i : EdgeInstance) (ref : SessionRef)
  | loading (ref : SessionRef)
  /-- `BeginSync`. -/
  | syncing (ref : SessionRef)
  /-- A session is cleaned up: `DisconnectRemote`, `closeFailedSync`, `controlFailed`. -/
  | unregistering (ref : SessionRef)
  | removing (ref : SessionRef)
  /-- `close`: `EdgeDisconnected` asks for the sessions. -/
  | closing (i : EdgeInstance)
  | sweeping (i : EdgeInstance) (refs : List SessionRef)
  | sweepRemoving (i : EdgeInstance) (ref : SessionRef) (refs : List SessionRef)
  /-- `RemoveEdge`. -/
  | dropping (i : EdgeInstance)
  | closed (i : EdgeInstance)
  | returned
deriving DecidableEq

/-- What the goroutines share, the goroutines, and who authenticated which session. -/
structure System where
  users : UserManager
  registry : Registry := ⟨[], []⟩
  control : List SessionRef := []
  nextGen : String → ℕ := fun _ => 0
  /-- Links that have said hello and are not registered yet. -/
  hellos : List EdgeInstance := []
  links : List EdgeInstance := []
  threads : List Thread := []
  origin : List (SessionRef × EdgeInstance) := []

namespace System
variable (s : System)

/-- `UnregisterConn`. -/
def unregister (ref : SessionRef) : System :=
  match s.registry.closeAndUnbind ref with
  | .ok (registry, _) =>
    { s with registry := registry, control := s.control.filter fun x => decide (x ≠ ref) }
  | .error _ => s

/-- `RemoveIfGeneration`. -/
def removeUser (ref : SessionRef) : System :=
  { s with users := (s.users.removeIfGeneration ref).1 }

def beginSync (ref : SessionRef) : System :=
  if (s.registry.snapshot ref).any (fun e => decide (e.state = .syncing)) ∧ ref ∉ s.control then
    { s with control := ref :: s.control }
  else s

/-- This is the incarnation the registry has. -/
def registered (i : EdgeInstance) : Prop :=
  s.registry.edgeGeneration i.edgeID = some i.generation

instance (i : EdgeInstance) : Decidable (s.registered i) :=
  inferInstanceAs (Decidable (_ = _))

/-- A step of a goroutine, with the answer of the identity authority. -/
def advance (answer : Option User) : Thread → System × Thread
  | .checking i => (s, if s.registered i then .asking i else .returned)
  | .asking i =>
    match answer with
    | none => (s, .returned)
    | some u => (s, .adding i u)
  | .adding i u =>
    match s.users.add u with
    | (users, none) => ({ s with users := users }, .returned)
    | (users, some stored) =>
      ({ s with users := users, origin := (stored.ref, i) :: s.origin }, .binding i stored.ref)
  | .binding i ref =>
    match s.registry.bind ref i.edgeID with
    | .ok registry => ({ s with registry := registry }, .returned)
    | .error _ => (s, .undoing i ref)
  | .undoing _ ref => (s.removeUser ref, .returned)
  | .readying i ref => (s, if s.registered i then .owning i ref else .returned)
  | .owning i ref =>
    (s, if (s.registry.snapshot ref).any (fun e => decide (e.edge = i.edgeID)) then .loading ref
      else .returned)
  | .loading ref => (s, if (s.users.snapshotRef ref).isSome then .syncing ref else .returned)
  | .syncing ref => (s.beginSync ref, .returned)
  | .unregistering ref => (s.unregister ref, .removing ref)
  | .removing ref => (s.removeUser ref, .returned)
  | .closing i => (s, .sweeping i (s.registry.sessionsForEdge i))
  | .sweeping i [] => (s, .dropping i)
  | .sweeping i (ref :: refs) => (s.unregister ref, .sweepRemoving i ref refs)
  | .sweepRemoving i ref refs => (s.removeUser ref, .sweeping i refs)
  | .dropping i => ({ s with registry := s.registry.removeEdge i }, .closed i)
  | .closed i => (s, .closed i)
  | .returned => (s, .returned)

end System

def Thread.closer : Thread → Option EdgeInstance
  | .closing i => some i
  | .sweeping i _ => some i
  | .sweepRemoving i _ _ => some i
  | .dropping i => some i
  | .closed i => some i
  | _ => none

inductive Event where
  /-- A link says hello, and is registered. -/
  | hello (edge : String)
  | register (i : EdgeInstance)
  | authenticate (i : EdgeInstance)
  | ready (i : EdgeInstance) (ref : SessionRef)
  /-- Somebody cleans up a session, or takes its control queue away. -/
  | clean (ref : SessionRef)
  | abort (ref : SessionRef)
  /-- `CommitSync`. -/
  | commit (ref : SessionRef)
  /-- A link is lost or replaced; it is closed once. -/
  | close (i : EdgeInstance)
  | step (k : ℕ) (answer : Option User)

namespace System
variable (s : System)

def spawn (t : Thread) : System := { s with threads := s.threads ++ [t] }

def hello (edge : String) : System :=
  { s with
    nextGen := Function.update s.nextGen edge (s.nextGen edge + 1)
    hellos := ⟨edge, s.nextGen edge + 1⟩ :: s.hellos }

/-- `RegisterEdge`; a link that is refused goes away. -/
def register (i : EdgeInstance) : System :=
  if i ∈ s.hellos then
    match s.registry.registerEdge i with
    | .ok registry =>
      { s with registry := registry, hellos := s.hellos.erase i, links := i :: s.links }
    | .error _ => { s with hellos := s.hellos.erase i }
  else s

def commit (ref : SessionRef) : System :=
  match s.registry.commitActive ref with
  | .ok registry => { s with registry := registry }
  | .error _ => s

def step : Event → System
  | .hello edge => s.hello edge
  | .register i => s.register i
  | .authenticate i => if i ∈ s.links then s.spawn (.checking i) else s
  | .ready i ref => if (ref, i) ∈ s.origin then s.spawn (.readying i ref) else s
  | .clean ref => s.spawn (.unregistering ref)
  | .abort ref => { s with control := s.control.filter fun x => decide (x ≠ ref) }
  | .commit ref => s.commit ref
  | .close i =>
    if i ∈ s.links ∧ ∀ t ∈ s.threads, t.closer ≠ some i then s.spawn (.closing i) else s
  | .step k answer =>
    match s.threads[k]? with
    | none => s
    | some t =>
      { (s.advance answer t).1 with threads := s.threads.set k (s.advance answer t).2 }

def start (maxUsers : ℕ) : System := { users := UserManager.new maxUsers }

end System

/-! ### What is claimed, and when -/

/-- Every session that is bound is bound to the incarnation that authenticated it. -/
def System.Owned (s : System) : Prop :=
  ∀ e ∈ s.registry.sessions, ∃ i, (e.ref, i) ∈ s.origin ∧ i.edgeID = e.edge ∧ s.registered i

/-- An incarnation that has finished closing has left nothing behind; a record that another
goroutine is about to remove is not left behind. -/
def System.Gone (s : System) : Prop :=
  ∀ ref i, (ref, i) ∈ s.origin → .closed i ∈ s.threads →
    (∀ e ∈ s.registry.sessions, e.ref ≠ ref) ∧ ref ∉ s.control ∧
    ∀ u ∈ s.users.bySession, u.ref = ref → .removing ref ∈ s.threads

/-- The incarnation through which a client is being authenticated, after the check. -/
def Thread.inflight : Thread → Option EdgeInstance
  | .asking i => some i
  | .adding i _ => some i
  | .binding i _ => some i
  | .undoing i _ => some i
  | _ => none

/-- The incarnation that a goroutine is closing, after it has asked for the sessions. -/
def Thread.sweeps : Thread → Option EdgeInstance
  | .sweeping i _ => some i
  | .sweepRemoving i _ _ => some i
  | .dropping i => some i
  | _ => none

/-- A goroutine may go on: it does not begin to authenticate through an incarnation that is being
closed, nor to close one through which a client is being authenticated. -/
def System.MayGo (s : System) : Thread → Prop
  | .checking i => ∀ t ∈ s.threads, t.sweeps ≠ some i
  | .closing i => ∀ t ∈ s.threads, t.inflight ≠ some i
  | _ => True

instance (s : System) : ∀ t, Decidable (s.MayGo t)
  | .checking i => inferInstanceAs (Decidable (∀ t ∈ s.threads, t.sweeps ≠ some i))
  | .closing i => inferInstanceAs (Decidable (∀ t ∈ s.threads, t.inflight ≠ some i))
  | .asking _ | .adding _ _ | .binding _ _ | .undoing _ _ | .readying _ _ | .owning _ _
  | .loading _ | .syncing _ | .unregistering _ | .removing _ | .sweeping _ _
  | .sweepRemoving _ _ _ | .dropping _ | .closed _ | .returned => isTrue trivial

/-- Closing an incarnation does not overlap with authenticating through it. -/
def Apart (s : System) : Event → Prop
  | .step k _ => ∀ t ∈ s.threads[k]?, s.MayGo t
  | _ => True

instance (s : System) : ∀ e, Decidable (Apart s e)
  | .step k _ => inferInstanceAs (Decidable (∀ t ∈ s.threads[k]?, s.MayGo t))
  | .hello _ | .register _ | .authenticate _ | .ready _ _ | .clean _ | .abort _ | .commit _
  | .close _ => isTrue trivial

end MumbleServer.EdgeIncarnation

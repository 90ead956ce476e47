import MumbleServer.Connection
import MumbleServer.SessionTables

/-! # Logging in on the local edge

`Conn` (`internal/connection/conn.go`) and `handleAuthenticate` of the server
(`internal/mumble/handlers.go`).  The read loop of a connection dispatches one message after the
other; what a handler queues is written by the write loop; a Reject starts a goroutine that closes
the connection when the queue is empty or 250 ms are over (`CloseAfterFlush`); and `Close` calls
`OnClose`, which ends the session that the connection knows at that moment.

Each access of such a goroutine to what it shares with the others is a step.  A connection is known
by its position in `conns`; `obtained` remembers which sessions a connection got, `log` what
happened on a connection and in which order, and no step reads them.  Everybody else who works on
the tables of sessions is a free event. -/

namespace MumbleServer.LocalLogin

open Connection (ConnState queueSize)

/-! ### Connections -/

/-- `messages.RejectType`, as far as it is used here. -/
inductive RejectType
  | invalidUsername
  | wrongUserPW
  | wrongServerPW
  | usernameInUse
  | serverFull
  | authenticatorFail
deriving DecidableEq

inductive Message
  | version
  | reject (type : RejectType) (reason : String)
  | cryptSetup
  | ping
  /-- Any other message, which the client gets because it has a session. -/
  | control
deriving DecidableEq

def Message.isReject : Message → Bool
  | .reject _ _ => true
  | _ => false

/-- What the identity authority says about a login. -/
inductive Answer
  | failed
  | denied
  | allowed (u : User)
deriving DecidableEq

/-- An Authenticate, with what the ban list and the identity authority have to say about it. -/
structure Attempt where
  username : String
  banned : Bool := false
  authority : Bool := true
  /-- The authority is an external one and there is no password. -/
  passwordMissing : Bool := false
  answer : Answer
deriving DecidableEq

/-- What the access of `handleAuthenticate` is that comes next. -/
inductive Handler
  | idle
  /-- `SnapshotByName`, `Count`, `Authenticate`, `Add`. -/
  | checking (a : Attempt)
  | counting (a : Attempt)
  | asking (answer : Answer)
  | adding (u : User)
  /-- `SetSessionID`, `SetSessionGeneration`, `Bind`, `BeginSync`. -/
  | numbering (ref : SessionRef)
  | stamping (ref : SessionRef)
  | binding (ref : SessionRef)
  | beginning (ref : SessionRef)
  /-- `Unbind` and `RemoveIfGeneration`, when the session could not be set up. -/
  | backing (ref : SessionRef)
  | undoing (ref : SessionRef)
  /-- `sendSync`: its CryptSetup, and the rest; `CommitSyncAndAnnounce`, `SetActive`. -/
  | ciphering (ref : SessionRef)
  | syncing (ref : SessionRef)
  | committing (ref : SessionRef)
  | activating (ref : SessionRef)
  /-- `closeFailedSync`: `AbortSync`, `UnregisterConn` and `RemoveIfGeneration`. -/
  | aborting (ref : SessionRef)
  | leaving (ref : SessionRef)
  | removing (ref : SessionRef)
deriving DecidableEq

/-- How far `Close` has come. -/
inductive Phase
  | live
  /-- The state is set and `done` is closed next. -/
  | marked
  /-- The socket is closed next. -/
  | ended
  /-- `OnClose` reads the session ID next, and then the generation. -/
  | closed
  | reading (sid : ℕ)
  /-- `UnregisterConn` and `RemoveIfGeneration` of `OnClose` are next. -/
  | leaving (ref : SessionRef)
  | removing (ref : SessionRef)
  | gone
deriving DecidableEq

/-- `done` is not closed. -/
def Phase.accepts : Phase → Bool
  | .live | .marked => true
  | _ => false

def Phase.connected : Phase → Bool
  | .live | .marked | .ended => true
  | _ => false

/-- What is remembered of a connection. -/
inductive Note
  | queued (m : Message)
  | created (ref : SessionRef)
deriving DecidableEq

/-- What matters of a connection for its sessions. -/
structure Seat where
  handler : Handler := .idle
  phase : Phase := .live
  /-- `sessionID` and `sessionGeneration`. -/
  session : SessionRef := ⟨0, 0⟩
deriving DecidableEq

/-- `Conn`; `closer` says whether some `CloseAfterFlush` was started. -/
structure Conn extends Seat where
  state : ConnState := .authenticating
  running : Bool := true
  closer : Bool := false
  queue : List Message := []
  wire : List Message := []
  log : List Note := []
deriving DecidableEq

namespace Conn

def enqueue (c : Conn) (m : Message) : Option Conn :=
  if c.phase.accepts ∧ c.queue.length < queueSize then
    some { c with queue := c.queue ++ [m], log := c.log ++ [.queued m] }
  else none

/-- A message is queued if that is possible, and nobody asks. -/
def offer (c : Conn) (m : Message) : Conn := (c.enqueue m).getD c

/-- `SendReject`, with which `handleAuthenticate` returns. -/
def reject (c : Conn) (type : RejectType) (reason : String) : Conn :=
  { c.offer (.reject type reason) with handler := .idle, closer := true }

/-- The first step of `Close`.  `SetActive` may have overwritten the state of a connection that is
being closed; closing that one again panics. -/
def close (c : Conn) : Conn :=
  if c.state = .closed ∨ c.phase ≠ .live then c
  else { c with state := .closed, phase := .marked }

/-- `handleAuthenticate` before its first access. -/
def authenticate (c : Conn) (a : Attempt) : Conn :=
  if a.banned then c.reject .wrongServerPW "Banned"
  else if a.username = "" then c.reject .invalidUsername "Username required"
  else { c with handler := .checking a }

def write (c : Conn) : Conn :=
  match c.queue with
  | [] => c
  | m :: rest => if c.phase.connected then { c with queue := rest, wire := c.wire ++ [m] } else c

end Conn

/-! ### The server -/

def localEdgeID : String := "local"

/-- There is a record of the session or a binding. -/
def Lives (u : UserManager) (r : Registry) (x : SessionRef) : Prop :=
  u.snapshotRef x ≠ none ∨ r.snapshot x ≠ none

structure System where
  users : UserManager
  registry : Registry
  conns : List Conn := []
  /-- The connections that the control transport has made a queue for. -/
  sinks : List ℕ := []
  obtained : List (ℕ × SessionRef) := []
deriving DecidableEq

/-- A message that the read loop dispatches. -/
inductive Packet
  | version
  | authenticate (a : Attempt)
  | ping
  /-- Any other message, which the client is answered directly or not. -/
  | other (reply : Bool)
deriving DecidableEq

/-- What others do to the tables of sessions. -/
inductive TableAction
  | beginClose (ref : SessionRef)
  | commit (ref : SessionRef)
  | unbind (ref : SessionRef)
  | remove (ref : SessionRef)
  /-- A client of another edge authenticates. -/
  | login (u : User) (edge : String)
  /-- `UpdateUser`, which nobody uses to change a name, and `updateIdentity`. -/
  | update (sid : ℕ) (fn : User → User)
  | identity (ref : SessionRef) (checkGeneration : Bool) (fn : User → User)

inductive ConnAction
  /-- The read loop dispatches a message. -/
  | dispatch (p : Packet)
  /-- `handleAuthenticate` goes on; the control transport agrees or not. -/
  | advance (ok : Bool)
  /-- The control transport or the voice path writes to the client, or closes the connection. -/
  | deliver
  | kill
  | write
  /-- The read loop ends; a `CloseAfterFlush` closes. -/
  | hangup
  | flushed (expired : Bool)
  /-- `Close` goes on. -/
  | release

inductive Event
  | connect
  | conn (k : ℕ) (a : ConnAction)
  | table (a : TableAction)

namespace System
variable (s : System)

def setConn (k : ℕ) (c : Conn) : System := { s with conns := s.conns.set k c }

/-- Dispatch of a message by `Run`. -/
def dispatch (k : ℕ) (c : Conn) (p : Packet) : System :=
  if c.running = false ∨ c.handler ≠ .idle then s
  else
    match p with
    | .version => s
    | .authenticate a => s.setConn k (c.authenticate a)
    | .ping => if c.state = .authenticating then s else s.setConn k (c.offer .ping)
    | .other reply =>
      if c.state = .authenticating ∨ reply = false then s else s.setConn k (c.offer .control)

def isSyncing (ref : SessionRef) : Bool :=
  (s.registry.snapshot ref).any (fun e => decide (e.state = .syncing))

/-- The accesses of `handleAuthenticate`. -/
def advance (k : ℕ) (c : Conn) (ok : Bool) : System :=
  match c.handler with
  | .idle => s
  | .checking a =>
    if (s.users.named a.username).isSome then
      s.setConn k (c.reject .usernameInUse "Username in use")
    else s.setConn k { c with handler := .counting a }
  | .counting a =>
    if s.users.maxUsers ≤ s.users.bySession.length ∧ 0 < s.users.maxUsers then
      s.setConn k (c.reject .serverFull "Server full")
    else if a.authority = false then
      s.setConn k (c.reject .authenticatorFail "Identity service unavailable")
    else if a.passwordMissing then s.setConn k (c.reject .wrongServerPW "Password required")
    else s.setConn k { c with handler := .asking a.answer }
  | .asking .failed =>
    s.setConn k (c.reject .authenticatorFail "Identity service unavailable")
  | .asking .denied => s.setConn k (c.reject .wrongUserPW "Invalid credentials")
  | .asking (.allowed u) => s.setConn k { c with handler := .adding u }
  | .adding u =>
    match s.users.add u with
    | (users, none) => { s with users := users }.setConn k (c.reject .serverFull "Server full")
    | (users, some stored) =>
      { s with users := users, obtained := (k, stored.ref) :: s.obtained }.setConn k
        { c with handler := .numbering stored.ref, log := c.log ++ [Note.created stored.ref] }
  | .numbering ref =>
    s.setConn k
      { c with handler := .stamping ref, session := ⟨ref.sessionID, c.session.generation⟩ }
  | .stamping ref =>
    s.setConn k
      { c with handler := .binding ref, session := ⟨c.session.sessionID, ref.generation⟩ }
  | .binding ref =>
    match s.registry.bind ref localEdgeID with
    | .error _ => s.setConn k { c with handler := .undoing ref }
    | .ok r => { s with registry := r }.setConn k { c with handler := .beginning ref }
  | .beginning ref =>
    if ok ∧ s.isSyncing ref then
      { s with sinks := k :: s.sinks }.setConn k { c with handler := .ciphering ref }
    else s.setConn k { c with handler := .backing ref }
  | .backing ref =>
    { s with registry := s.registry.unbind ref }.setConn k { c with handler := .undoing ref }
  | .undoing ref =>
    { s with users := (s.users.removeIfGeneration ref).1 }.setConn k
      (c.reject .authenticatorFail "Session setup failed")
  | .ciphering ref =>
    match c.enqueue .cryptSetup with
    | some c => s.setConn k { c with handler := .syncing ref }
    | none => s.setConn k { c with handler := .aborting ref }
  | .syncing ref =>
    if ok ∧ s.isSyncing ref then s.setConn k { c with handler := .committing ref }
    else s.setConn k { c with handler := .aborting ref }
  | .committing ref =>
    match ok, s.registry.commitActive ref with
    | true, .ok r => { s with registry := r }.setConn k { c with handler := .activating ref }
    | _, _ => s.setConn k { c with handler := .aborting ref }
  | .activating _ => s.setConn k { c with handler := .idle, state := .active }
  | .aborting ref =>
    s.setConn k { (if ok then c.close else c) with handler := .leaving ref }
  | .leaving ref =>
    { s with registry := s.registry.unbind ref }.setConn k { c with handler := .removing ref }
  | .removing ref =>
    { s with users := (s.users.removeIfGeneration ref).1 }.setConn k { c with handler := .idle }

/-- `Close` after its first step, with `OnClose`. -/
def release (k : ℕ) (c : Conn) : System :=
  match c.phase with
  | .live | .gone => s
  | .marked => s.setConn k { c with phase := .ended }
  | .ended => s.setConn k { c with phase := .closed }
  | .closed => s.setConn k { c with phase := .reading c.session.sessionID }
  | .reading sid =>
    s.setConn k
      { c with phase :=
        if (SessionRef.mk sid c.session.generation).valid then
          .leaving ⟨sid, c.session.generation⟩
        else .gone }
  | .leaving ref =>
    { s with registry := s.registry.unbind ref }.setConn k { c with phase := .removing ref }
  | .removing ref =>
    { s with users := (s.users.removeIfGeneration ref).1 }.setConn k { c with phase := .gone }

def act (k : ℕ) (c : Conn) : ConnAction → System
  | .dispatch p => s.dispatch k c p
  | .advance ok => s.advance k c ok
  | .deliver => if k ∈ s.sinks then s.setConn k (c.offer .control) else s
  | .kill => if k ∈ s.sinks then s.setConn k c.close else s
  | .write => s.setConn k c.write
  | .hangup =>
    if c.running = false ∨ c.handler ≠ .idle then s
    else s.setConn k { c.close with running := false }
  | .flushed expired =>
    if c.closer ∧ (c.queue = [] ∨ expired) then s.setConn k c.close else s
  | .release => s.release k c

/-- What others do to the tables. -/
def tableAct : TableAction → System
  | .beginClose ref =>
    match s.registry.beginClose ref with
    | .ok (r, _) => { s with registry := r }
    | .error _ => s
  | .commit ref =>
    match s.registry.commitActive ref with
    | .ok r => { s with registry := r }
    | .error _ => s
  | .unbind ref => { s with registry := s.registry.unbind ref }
  | .remove ref => { s with users := (s.users.removeIfGeneration ref).1 }
  | .login u edge =>
    match s.users.add u with
    | (users, none) => { s with users := users }
    | (users, some stored) =>
      match s.registry.bind stored.ref edge with
      | .error _ => { s with users := (users.removeIfGeneration stored.ref).1 }
      | .ok r => { s with users := users, registry := r }
  | .update sid fn =>
    { s with users := (s.users.updateUser sid (fun u => { fn u with name := u.name })).1 }
  | .identity ref check fn => { s with users := (s.users.updateIdentity ref check fn).1 }

/-- One step; a new connection is greeted with the version of the server. -/
def step (s : System) : Event → System
  | .connect => { s with conns := s.conns ++ [({} : Conn).offer .version] }
  | .conn k a =>
    match s.conns[k]? with
    | none => s
    | some c => s.act k c a
  | .table a => s.tableAct a

def start (maxUsers : ℕ) : System :=
  { users := .new maxUsers, registry := ⟨[(localEdgeID, 1)], []⟩ }

def Live (ref : SessionRef) : Prop := Lives s.users s.registry ref

instance (ref : SessionRef) : Decidable (s.Live ref) :=
  inferInstanceAs (Decidable (_ ∨ _))

end System

end MumbleServer.LocalLogin

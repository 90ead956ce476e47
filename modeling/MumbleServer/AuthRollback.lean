import MumbleServer.TargetHistory
import MumbleServer.LocalLogin

/-! # What a failed login leaves behind

`handleAuthenticate` of the server (`internal/mumble/handlers.go`) writes one table after the other:
the users, the registry, the control transport, and in `sendSync` the table of connections.  When it
fails it takes back what it wrote, with `closeFailedSync` (`internal/mumble/control_transport.go`).
Meanwhile somebody may close the connection, and `OnClose` (`internal/mumble/localedge.go`) cleans up
as well; and if the control queue of the session fails, so does `controlFailed`.  All three end with
`UnregisterConn` and `RemoveIfGeneration`.

Each access to a table is a step.  The lock under which `CloseAndUnbind` cleans up is left out, so
that there are more runs here than in the source.  Clients store voice targets meanwhile, which may
name the session, and once it is admitted the session may have some of its own and listen to
channels.  `obtained` remembers the session that the login got. -/

namespace MumbleServer.AuthRollback

open Registry
open UserManager
open Voice (Targets VoiceTarget removeVoiceTargetsLocked storeVoiceTarget)

/-! ### The tables -/

/-- The tables that know of sessions. -/
structure Tables where
  users : UserManager
  registry : Registry
  /-- `sessions` of the control transport. -/
  queues : List SessionRef := []
  /-- `conns`: the connection of a session ID. -/
  conns : List (ℕ × ℕ) := []
  /-- `voiceTargets`. -/
  targets : Targets := []
  /-- Sessions and the channels they listen to. -/
  listeners : List (ℕ × ℕ) := []
deriving DecidableEq

namespace Tables
variable (t : Tables) (ref : SessionRef)

def syncing : Bool := (t.registry.snapshot ref).any fun e => decide (e.state = .syncing)

/-- No cleanup has marked the session or unbound it. -/
def standing : Bool := (t.registry.snapshot ref).any fun e => decide (e.state ≠ .closing)

def bound : Prop := t.registry.snapshot ref ≠ none

def recorded : Prop := t.users.snapshotRef ref ≠ none

/-- The control transport takes an initial message of the session. -/
def sends (ok : Bool) : Bool := ok && decide (ref ∈ t.queues) && t.syncing ref

/-- `take`, for `Detach` and `AbortSync`. -/
def take : Tables := { t with queues := t.queues.filter fun q => decide (q ≠ ref) }

def beginClose : Tables :=
  match t.registry.beginClose ref with
  | .ok (r, _) => { t with registry := r }
  | .error _ => t

def unbind : Tables := { t with registry := t.registry.unbind ref }

/-- `RemoveIfGeneration`. -/
def remove : Tables := { t with users := (t.users.removeIfGeneration ref).1 }

/-- The server as `storeVoiceTarget` sees it. -/
def state (w : Acl.World) : Moderation.State :=
  ⟨⟨w, t.users⟩, fun _ => {}, t.registry, t.listeners, []⟩

end Tables

/-! ### The cleanup of a session -/

/-- What the access of `UnregisterConn` and `RemoveIfGeneration` is that comes next. -/
inductive Cleanup
  /-- `CloseAndUnbind` looks for the session and marks it. -/
  | leaving
  /-- The queue, the connection with the voice targets, and the listeners. -/
  | detaching
  | clearing
  | silencing
  | unbinding
  /-- `RemoveIfGeneration`. -/
  | removing
  | finished
deriving DecidableEq

/-- `CloseAndUnbind` marks the session.  If it is not bound, what cleans the tables is not
called. -/
def Tables.leave (t : Tables) (ref : SessionRef) : Tables × Cleanup :=
  match t.registry.snapshot ref with
  | none => (t, .removing)
  | some _ =>
    ({ t with registry := t.registry.modify ref fun e => { e with state := .closing } },
      .detaching)

def Tables.clean (t : Tables) (ref : SessionRef) : Cleanup → Tables × Cleanup
  | .leaving => t.leave ref
  | .detaching => (t.take ref, .clearing)
  | .clearing =>
    ({ t with
        conns := AssocList.delete t.conns ref.sessionID
        targets := removeVoiceTargetsLocked t.targets ref.sessionID }, .silencing)
  | .silencing =>
    ({ t with listeners := t.listeners.filter fun l => decide (l.1 ≠ ref.sessionID) }, .unbinding)
  | .unbinding => (t.unbind ref, .removing)
  | .removing => (t.remove ref, .finished)
  | .finished => (t, .finished)

/-! ### A login and the end of its connection -/

/-- What the access of `handleAuthenticate` is that comes next. -/
inductive Stage
  /-- The checks that come before anything is written; the authority would let the user in. -/
  | asking (u : User)
  | adding (u : User)
  /-- `SetSessionID`, `SetSessionGeneration`, `Bind`, `BeginSync`. -/
  | numbering (ref : SessionRef)
  | stamping (ref : SessionRef)
  | binding (ref : SessionRef)
  | beginning (ref : SessionRef)
  /-- `BeginClose`, `Unbind` and `RemoveIfGeneration`, when the session could not be set up. -/
  | closing (ref : SessionRef)
  | backing (ref : SessionRef)
  | undoing (ref : SessionRef)
  /-- `sendSync`: its CryptSetup, `registerConnOnly`, and the initial messages that are left. -/
  | ciphering (ref : SessionRef)
  | registering (ref : SessionRef)
  | sending (ref : SessionRef) (left : ℕ)
  /-- `CommitSyncAndAnnounce`: the barrier is queued, and when it is written the session is Active. -/
  | committing (ref : SessionRef)
  | awaiting (ref : SessionRef)
  /-- `closeFailedSync`: `AbortSync` and the cleanup. -/
  | aborting (ref : SessionRef)
  | cleaning (ref : SessionRef) (c : Cleanup)
  /-- It has returned, with a Reject or an error, or without. -/
  | refused
  | admitted
deriving DecidableEq

/-- How far `Close` has come. -/
inductive Phase
  | live
  /-- The state is set and `done` is closed next. -/
  | marked
  /-- The socket is closed next. -/
  | ended
  /-- `OnClose` reads the session ID next, and then the generation. -/
  | closed
  | reading (sid : ℕ)
  | cleaning (ref : SessionRef) (c : Cleanup)
  /-- There was no session to clean up. -/
  | gone
deriving DecidableEq

/-- `done` is not closed. -/
def Phase.accepts : Phase → Bool
  | .live | .marked => true
  | _ => false

/-- How far `controlFailed` has come. -/
inductive Failure
  | idle
  /-- `BeginCloseAndNotify` is next. -/
  | notifying (ref : SessionRef)
  | cleaning (ref : SessionRef) (c : Cleanup)
deriving DecidableEq

structure Login where
  tables : Tables
  stage : Stage
  /-- The connection, and how many initial messages `sendSync` has for it. -/
  conn : ℕ
  initial : ℕ
  phase : Phase := .live
  failure : Failure := .idle
  /-- `sessionID` and `sessionGeneration` of the connection. -/
  session : SessionRef := ⟨0, 0⟩
  obtained : Option SessionRef := none
deriving DecidableEq

inductive Event
  /-- `handleAuthenticate` goes on; what it depends on besides the tables is well or not. -/
  | advance (ok : Bool)
  /-- Somebody calls `Close`, which then goes on. -/
  | close
  | release
  /-- The control queue of the session fails, and `controlFailed` goes on. -/
  | fail
  | recover
  /-- A client stores a voice target; the world has the channels. -/
  | voiceTarget (w : Acl.World) (c : SessionRef) (vt : VoiceTarget)
  /-- The handler of a UserState of the session makes it listen to a channel. -/
  | listen (cid : ℕ)

namespace Login
variable (s : Login)

/-- The first step of `Close`. -/
def close : Login := if s.phase = .live then { s with phase := .marked } else s

/-- The accesses of `handleAuthenticate`. -/
def advance (ok : Bool) : Login :=
  match s.stage with
  | .asking u => { s with stage := if ok then .adding u else .refused }
  | .adding u =>
    match s.tables.users.add u with
    | (users, none) => { s with tables.users := users, stage := .refused }
    | (users, some stored) =>
      { s with
        tables.users := users, stage := .numbering stored.ref, obtained := some stored.ref }
  | .numbering ref =>
    { s with stage := .stamping ref, session := ⟨ref.sessionID, s.session.generation⟩ }
  | .stamping ref =>
    { s with stage := .binding ref, session := ⟨s.session.sessionID, ref.generation⟩ }
  | .binding ref =>
    match s.tables.registry.bind ref LocalLogin.localEdgeID with
    | .error _ => { s with stage := .undoing ref }
    | .ok r => { s with tables.registry := r, stage := .beginning ref }
  | .beginning ref =>
    if ok ∧ s.tables.syncing ref ∧ ref ∉ s.tables.queues then
      { s with tables.queues := ref :: s.tables.queues, stage := .ciphering ref }
    else { s with stage := .closing ref }
  | .closing ref => { s with tables := s.tables.beginClose ref, stage := .backing ref }
  | .backing ref => { s with tables := s.tables.unbind ref, stage := .undoing ref }
  | .undoing ref => { s with tables := s.tables.remove ref, stage := .refused }
  | .ciphering ref =>
    { s with stage := if ok ∧ s.phase.accepts then .registering ref else .aborting ref }
  | .registering ref =>
    { s with
      tables.conns := AssocList.put s.tables.conns ref.sessionID s.conn
      stage := .sending ref s.initial }
  | .sending ref left =>
    if s.tables.sends ref ok then
      { s with stage := match left with
        | 0 => .committing ref
        | left + 1 => .sending ref left }
    else { s with stage := .aborting ref }
  | .committing ref =>
    { s with stage := if s.tables.sends ref ok then .awaiting ref else .aborting ref }
  | .awaiting ref =>
    match ok, s.tables.registry.commitActive ref with
    | true, .ok r => { s with tables.registry := r, stage := .admitted }
    | _, _ => { s with stage := .aborting ref }
  | .aborting ref =>
    -- the sink, which is the connection, is closed if there still was a queue
    { (if ref ∈ s.tables.queues then s.close else s) with
      tables := s.tables.take ref
      stage := .cleaning ref .leaving }
  | .cleaning ref c =>
    let (t, c) := s.tables.clean ref c
    { s with tables := t, stage := if c = .finished then .refused else .cleaning ref c }
  | .refused | .admitted => s

/-- `Close` after its first step, with `OnClose`. -/
def release : Login :=
  match s.phase with
  | .live | .gone => s
  | .marked => { s with phase := .ended }
  | .ended => { s with phase := .closed }
  | .closed => { s with phase := .reading s.session.sessionID }
  | .reading sid =>
    { s with phase :=
      if (SessionRef.mk sid s.session.generation).valid then
        .cleaning ⟨sid, s.session.generation⟩ .leaving
      else .gone }
  | .cleaning ref c =>
    let (t, c) := s.tables.clean ref c
    { s with tables := t, phase := .cleaning ref c }

def fail : Login :=
  match s.failure, s.obtained with
  | .idle, some ref =>
    if ref ∈ s.tables.queues then { s with failure := .notifying ref } else s
  | _, _ => s

/-- `controlFailed`. -/
def recover : Login :=
  match s.failure with
  | .idle => s
  | .notifying ref =>
    { s with tables := s.tables.beginClose ref, failure := .cleaning ref .leaving }
  | .cleaning ref c =>
    let (t, c) := s.tables.clean ref c
    { s with tables := t, failure := .cleaning ref c }

def voiceTarget (w : Acl.World) (c : SessionRef) (vt : VoiceTarget) : Login :=
  { s with tables.targets := storeVoiceTarget (s.tables.state w) s.tables.targets c vt }

/-- `Add` of the listener manager.  The messages of the client are dispatched by the goroutine of
`handleAuthenticate`, when that has returned. -/
def listen (cid : ℕ) : Login :=
  match s.stage, s.obtained with
  | .admitted, some ref =>
    { s with tables.listeners := s.tables.listeners.insert (ref.sessionID, cid) }
  | _, _ => s

def step (s : Login) : Event → Login
  | .advance ok => s.advance ok
  | .close => s.close
  | .release => s.release
  | .fail => s.fail
  | .recover => s.recover
  | .voiceTarget w c vt => s.voiceTarget w c vt
  | .listen cid => s.listen cid

/-- `handleAuthenticate` has returned, and so has whoever else cleans up. -/
def Rested : Prop :=
  (s.stage = .refused ∨ s.stage = .admitted) ∧
  (s.phase = .live ∨ s.phase = .gone ∨ ∃ ref, s.phase = .cleaning ref .finished) ∧
  (s.failure = .idle ∨ ∃ ref, s.failure = .cleaning ref .finished)

end Login

/-- Some voice target is of the session or names it. -/
def Mentions (ts : Targets) (ref : SessionRef) : Prop :=
  ∃ sid tid spec, ts.Has sid tid spec ∧ (spec.owner = ref ∨ ∃ n ∈ spec.sessions, n.2 = ref)

/-- Targets are stored under the ID of their session, and the sessions they name under theirs. -/
def Keyed (ts : Targets) : Prop :=
  ∀ sid tid spec, ts.Has sid tid spec →
    spec.owner.sessionID = sid ∧ ∀ n ∈ spec.sessions, n.2.sessionID = n.1

/-- Nothing of a session is in the tables.  IDs are used again, so what was in the tables for its ID
before the login is not of the session. -/
structure Gone (base t : Tables) (conn : ℕ) (ref : SessionRef) : Prop where
  record : ¬t.recorded ref
  name : ∀ name, t.users.named name ≠ some ref.sessionID
  binding : ¬t.bound ref
  queue : ref ∉ t.queues
  conn : (ref.sessionID, conn) ∈ t.conns → (ref.sessionID, conn) ∈ base.conns
  target : ¬Mentions t.targets ref
  listener : ∀ cid, (ref.sessionID, cid) ∈ t.listeners → (ref.sessionID, cid) ∈ base.listeners

/-- The server before a login: the tables of sessions are in order, and no table has a reference to
a session that there never was. -/
structure Ready (s : Login) : Prop where
  fit : Fit s.tables.users s.tables.registry
  indexed : s.tables.users.Indexed
  queues : ∀ q ∈ s.tables.queues, q.generation ≤ s.tables.users.generation
  keyed : Keyed s.tables.targets
  targets : ∀ ref, Mentions s.tables.targets ref → ref.generation ≤ s.tables.users.generation
  stage : ∃ u, s.stage = .asking u
  phase : s.phase = .live
  failure : s.failure = .idle
  obtained : s.obtained = none

/-- A message of the client `c` stores a target of the session or one that names it. -/
def touches (ref c : SessionRef) (vt : VoiceTarget) : Bool :=
  decide (c = ref) || (vt.targets.flatMap Voice.Target.session).contains ref.sessionID

/-- The CryptSetup was queued, and `handleAuthenticate` has not failed since. -/
def Stage.synced : Stage → Bool
  | .registering _ | .sending _ _ | .committing _ | .awaiting _ | .admitted => true
  | _ => false

/-- Nothing is entered for the session once a cleanup has begun: `registerConnOnly` enters the
connection, a voice target of the session or one that names it is stored, and the session begins to
listen only while no cleanup has marked it; and no target names it before its CryptSetup was
queued. -/
def timely (s : Login) : Event → Bool
  | .advance _ =>
    match s.stage with
    | .registering ref => s.tables.standing ref
    | _ => true
  | .voiceTarget _ c vt => s.obtained.all fun ref =>
      touches ref c vt && (s.tables.registry.snapshot ref).isSome →
        s.stage.synced && s.tables.standing ref
  | .listen _ => decide (s.stage = .admitted) → s.obtained.all s.tables.standing
  | _ => true

/-! ### What a cleanup does to the tables -/

/-- The tables that no step of a login spoils. -/
structure Sound (t : Tables) : Prop where
  users : t.users.Valid
  indexed : t.users.Indexed
  registry : t.registry.Valid
  keyed : Keyed t.targets

/-- Nothing is added to the tables but voice targets that have nothing to do with a session. -/
structure Shrinks (x : SessionRef) (t t' : Tables) : Prop where
  users : ∀ sid u, t'.users.snapshot sid = some u → t.users.snapshot sid = some u
  generation : t'.users.generation = t.users.generation
  bound : ∀ ref, t'.bound ref → t.bound ref
  standing : ∀ ref, t'.standing ref = true → t.standing ref = true
  queues : t'.queues ⊆ t.queues
  conns : t'.conns ⊆ t.conns
  targets : Mentions t'.targets x → Mentions t.targets x
  listeners : t'.listeners ⊆ t.listeners

theorem Shrinks.refl (x : SessionRef) (t : Tables) : Shrinks x t t :=
  ⟨fun _ _ h => h, rfl, fun _ h => h, fun _ h => h, fun _ h => h, fun _ h => h, id, fun _ h => h⟩

theorem Shrinks.recorded {x : SessionRef} {t t' : Tables} (h : Shrinks x t t') {ref : SessionRef}
    (hr : t'.recorded ref) : t.recorded ref := by
  obtain ⟨u, hu⟩ := Option.ne_none_iff_exists'.mp hr
  obtain ⟨hs, hg⟩ := snapshotRef_eq_some.mp hu
  have hu' : t.users.snapshotRef ref = some u :=
    snapshotRef_eq_some.mpr ⟨h.users _ _ hs, hg⟩
  exact Option.ne_none_iff_exists'.mpr ⟨u, hu'⟩

section targets
variable {ts : Targets} {ref : SessionRef}

theorem Mentions.of_remove {gone : ℕ}
    (h : Mentions (removeVoiceTargetsLocked ts gone) ref) : Mentions ts ref := by
  obtain ⟨sid, tid, spec, hspec, hor⟩ := h
  obtain ⟨old, hold, rfl, -⟩ := Voice.has_removeVoiceTargets hspec
  refine ⟨sid, tid, old, hold, hor.imp id ?_⟩
  rintro ⟨n, hn, href⟩
  exact ⟨n, (AssocList.mem_delete hn).1, href⟩

theorem Keyed.remove (h : Keyed ts) (gone : ℕ) : Keyed (removeVoiceTargetsLocked ts gone) := by
  intro sid tid spec hspec
  obtain ⟨old, hold, rfl, -⟩ := Voice.has_removeVoiceTargets hspec
  exact ⟨(h sid tid old hold).1, fun n hn => (h sid tid old hold).2 n (AssocList.mem_delete hn).1⟩

/-- A session that goes has no targets and is in none. -/
theorem Keyed.not_mentions (h : Keyed ts) :
    ¬Mentions (removeVoiceTargetsLocked ts ref.sessionID) ref := by
  rintro ⟨sid, tid, spec, hspec, hor⟩
  obtain ⟨old, hold, rfl, hne⟩ := Voice.has_removeVoiceTargets hspec
  obtain ⟨howner, hnamed⟩ := h sid tid old hold
  rcases hor with hor | ⟨n, hn, hor⟩
  · exact hne (howner.symm.trans (congrArg SessionRef.sessionID hor))
  · obtain ⟨hn, hgone⟩ := AssocList.mem_delete hn
    exact hgone ((hnamed n hn).symm.trans (congrArg SessionRef.sessionID hor))

variable {st : Moderation.State} {c : SessionRef} {vt : VoiceTarget}

theorem Keyed.store (h : Keyed ts) : Keyed (storeVoiceTarget st ts c vt) := by
  intro sid tid spec hspec
  rcases Voice.has_storeVoiceTarget hspec with hold | ⟨rfl, -, -, rfl⟩
  · exact h sid tid spec hold
  · exact ⟨rfl, fun n hn => (Voice.bound_eq_some_iff.mp (Voice.mem_namedSessions.mp hn).2).1⟩

/-- A session that a message puts into the targets is one that it touches, and it is bound. -/
theorem Mentions.of_store (h : Mentions (storeVoiceTarget st ts c vt) ref) :
    Mentions ts ref ∨ (touches ref c vt = true ∧ st.registry.snapshot ref ≠ none) := by
  obtain ⟨sid, tid, spec, hspec, hor⟩ := h
  rcases Voice.has_storeVoiceTarget hspec with hold | ⟨rfl, -, hbound, rfl⟩
  · exact .inl ⟨sid, tid, spec, hold, hor⟩
  · refine .inr ?_
    rcases hor with rfl | ⟨n, hn, rfl⟩
    · exact ⟨by simp [touches], (Voice.bound_eq_some_iff.mp hbound).2.2⟩
    · obtain ⟨hid, hb⟩ := Voice.mem_namedSessions.mp hn
      obtain ⟨hn1, -, hsnap⟩ := Voice.bound_eq_some_iff.mp hb
      refine ⟨?_, hsnap⟩
      rw [touches, hn1, List.contains_iff_mem.mpr hid, Bool.or_true]

end targets

section tables
variable {base t : Tables} {ref x y : SessionRef}

open Tables

theorem standing_modify {f : Entry → Entry} :
    standing { t with registry := t.registry.modify ref f } x =
      if x = ref then (t.registry.snapshot x).any fun e => decide ((f e).state ≠ .closing)
      else t.standing x := by
  unfold standing
  rw [snapshot_modify]
  split_ifs
  · exact Option.any_map ..
  · rfl

theorem bound_modify {f : Entry → Entry} :
    bound { t with registry := t.registry.modify ref f } x ↔ t.bound x := by
  unfold bound
  rw [snapshot_modify]
  split_ifs <;> simp

/-- An entry that is marked stays so. -/
theorem Shrinks.modify {f : Entry → Entry} (hf : t.standing ref = true ∨ ∀ e, (f e).state = .closing) :
    Shrinks x t { t with registry := t.registry.modify ref f } :=
  { Shrinks.refl x t with
    bound := fun _ h => bound_modify.mp h
    standing := fun y h => by
      rw [standing_modify] at h
      split_ifs at h with hy
      · rcases hf with hf | hf
        · rw [hy, hf]
        · simp [hf] at h
      · exact h }

theorem Shrinks.take : Shrinks x t (t.take ref) :=
  { Shrinks.refl x t with queues := List.filter_subset_self _ }

theorem Shrinks.remove : Shrinks x t (t.remove ref) :=
  { Shrinks.refl x t with
    users := fun _ _ h => snapshot_of_remove h
    generation := generation_remove _ _ _ _ }

theorem bound_unbind (h : t.registry.Valid) : (t.unbind ref).bound x ↔ t.bound x ∧ x ≠ ref := by
  unfold Tables.bound Tables.unbind
  rw [snapshot_unbind h]
  split_ifs with hx <;> simp [hx]

theorem Shrinks.unbind (h : t.registry.Valid) : Shrinks x t (t.unbind ref) :=
  { Shrinks.refl x t with
    bound := fun _ hy => ((bound_unbind h).mp hy).1
    standing := fun y hy => by
      unfold Tables.standing Tables.unbind at hy
      rw [snapshot_unbind h] at hy
      split_ifs at hy
      · cases hy
      · exact hy }

theorem not_mem_take : ref ∉ (t.take ref).queues := by simp [take]

theorem not_recorded_remove : ¬(t.remove ref).recorded ref := by
  unfold Tables.recorded Tables.remove
  simp [snapshotRef_remove]

/-- `BeginClose` marks the session, or there is nothing to mark. -/
theorem beginClose_rule {P : Tables → Prop} (h : P t)
    (hmark : P { t with registry := t.registry.modify ref fun e => { e with state := .closing } }) :
    P (t.beginClose ref) := by
  unfold Tables.beginClose Registry.beginClose
  cases t.registry.snapshot ref with
  | none => exact h
  | some e =>
    by_cases he : e.state = .closing
    · simpa [he] using h
    · simpa [he] using hmark

theorem Shrinks.beginClose : Shrinks x t (t.beginClose ref) :=
  beginClose_rule (.refl x t) (.modify (.inr fun _ => rfl))

theorem bound_beginClose : (t.beginClose ref).bound x ↔ t.bound x :=
  beginClose_rule (P := fun t' => t'.bound x ↔ t.bound x) Iff.rfl bound_modify

theorem leave_cases (t : Tables) (ref : SessionRef) :
    (¬t.bound ref ∧ t.leave ref = (t, .removing)) ∨ (t.bound ref ∧ t.leave ref =
      ({ t with registry := t.registry.modify ref fun e => { e with state := .closing } },
        .detaching)) := by
  unfold leave bound
  cases t.registry.snapshot ref with
  | none => exact .inl ⟨fun h => h rfl, rfl⟩
  | some e => exact .inr ⟨by simp, rfl⟩

variable (hs : Sound t)
include hs

theorem Sound.remove : Sound (t.remove ref) :=
  { hs with
    users := valid_remove hs.users _ _ _
    indexed := indexed_remove hs.indexed _ _ _ }

theorem Sound.unbind : Sound (t.unbind ref) :=
  { hs with registry := valid_unbind hs.registry ref }

theorem Sound.modify (f : Entry → Entry) : Sound { t with registry := t.registry.modify ref f } :=
  { hs with registry := valid_modify hs.registry ref f }

theorem Sound.beginClose : Sound (t.beginClose ref) := beginClose_rule hs (hs.modify _)

/-- Whatever a cleanup does next, the tables stay in order and nothing is added. -/
theorem Sound.clean (ref : SessionRef) (c : Cleanup) :
    Sound (t.clean ref c).1 ∧ ∀ x, Shrinks x t (t.clean ref c).1 := by
  cases c with
  | leaving =>
    rcases leave_cases t ref with ⟨-, h⟩ | ⟨-, h⟩
    · rw [Tables.clean, h]
      exact ⟨hs, fun x => .refl x t⟩
    · rw [Tables.clean, h]
      exact ⟨hs.modify _, fun _ => .modify (.inr fun _ => rfl)⟩
  | detaching => exact ⟨{ hs with }, fun _ => .take⟩
  | clearing =>
    refine ⟨{ hs with keyed := hs.keyed.remove _ }, fun x => ?_⟩
    exact { Shrinks.refl x t with
      conns := List.filter_subset_self _
      targets := Mentions.of_remove }
  | silencing =>
    exact ⟨{ hs with }, fun x => { Shrinks.refl x t with listeners := List.filter_subset_self _ }⟩
  | unbinding => exact ⟨hs.unbind, fun _ => .unbind hs.registry⟩
  | removing => exact ⟨hs.remove, fun _ => .remove⟩
  | finished => exact ⟨hs, fun x => .refl x t⟩

/-- A cleanup of another session leaves a binding, and so does any but the unbinding. -/
theorem bound_clean {c : Cleanup} (h : x ≠ ref ∨ c ≠ .unbinding) :
    (t.clean ref c).1.bound x ↔ t.bound x := by
  cases c with
  | leaving =>
    rcases leave_cases t ref with ⟨-, h⟩ | ⟨-, h⟩
    · rw [clean, h]
    · rw [clean, h]
      exact bound_modify
  | unbinding =>
    have hne : x ≠ ref := h.resolve_right fun h => h rfl
    exact (bound_unbind hs.registry).trans (and_iff_left hne)
  | detaching | clearing | silencing | removing | finished => exact Iff.rfl

end tables

/-! ### How far a cleanup has come -/

/-- The connection was entered for the session, or a voice target has to do with it. -/
def known (base t : Tables) (conn : ℕ) (ref : SessionRef) : Prop :=
  ((ref.sessionID, conn) ∈ t.conns ∧ (ref.sessionID, conn) ∉ base.conns) ∨ Mentions t.targets ref

/-- Something was entered for the session. -/
def entered (base t : Tables) (conn : ℕ) (ref : SessionRef) : Prop :=
  known base t conn ref ∨
    ∃ cid, (ref.sessionID, cid) ∈ t.listeners ∧ (ref.sessionID, cid) ∉ base.listeners

/-- What a cleanup of a session has achieved. -/
def Progress (base t : Tables) (conn : ℕ) (ref : SessionRef) : Cleanup → Prop
  | .leaving => True
  | .detaching => t.standing ref = false
  | .clearing => t.standing ref = false ∧ ref ∉ t.queues
  | .silencing => t.standing ref = false ∧ ref ∉ t.queues ∧ ¬known base t conn ref
  | .unbinding => t.standing ref = false ∧ ref ∉ t.queues ∧ ¬entered base t conn ref
  | .removing => ¬t.bound ref ∧ ref ∉ t.queues ∧ ¬entered base t conn ref
  | .finished => ¬t.bound ref ∧ ref ∉ t.queues ∧ ¬entered base t conn ref ∧ ¬t.recorded ref

/-- A session that is not bound has no queue, and nothing is entered for it. -/
structure Linked (base t : Tables) (conn : ℕ) (ref : SessionRef) : Prop where
  queue : ref ∈ t.queues → t.bound ref
  conn : entered base t conn ref → t.bound ref

theorem bound_of_any {t : Tables} {ref : SessionRef} {p : Entry → Bool}
    (h : (t.registry.snapshot ref).any p = true) : t.bound ref := by
  intro hnone
  rw [hnone] at h
  cases h

theorem standing_of_commitActive {t : Tables} {ref : SessionRef} {r : Registry}
    (h : t.registry.commitActive ref = .ok r) : t.standing ref = true := by
  unfold commitActive at h
  unfold Tables.standing
  cases he : t.registry.snapshot ref with
  | none =>
    rw [he] at h
    cases h
  | some e =>
    rw [he] at h
    dsimp only at h
    split_ifs at h with hsync
    simp [hsync]

section progress
variable {base t t' : Tables} {conn : ℕ} {ref x : SessionRef} {c : Cleanup}

section shrinks
variable (h : Shrinks ref t t')
include h

theorem Shrinks.not_standing (hn : t.standing ref = false) : t'.standing ref = false :=
  Bool.eq_false_iff.mpr fun hs => Bool.eq_false_iff.mp hn (h.standing ref hs)

theorem Shrinks.not_known (hn : ¬known base t conn ref) : ¬known base t' conn ref :=
  fun hk => hn (hk.imp (And.imp_left (@h.conns _)) h.targets)

theorem Shrinks.not_entered (hn : ¬entered base t conn ref) : ¬entered base t' conn ref := by
  rintro (hk | ⟨cid, hl, hb⟩)
  · exact h.not_known (hn ∘ .inl) hk
  · exact hn (.inr ⟨cid, h.listeners hl, hb⟩)

theorem Progress.shrinks (hp : Progress base t conn ref c) : Progress base t' conn ref c := by
  have hb : ¬t.bound ref → ¬t'.bound ref := fun hn hb => hn (h.bound ref hb)
  have hq : ref ∉ t.queues → ref ∉ t'.queues := fun hn hq => hn (h.queues hq)
  cases c with
  | leaving => trivial
  | detaching => exact h.not_standing hp
  | clearing => exact ⟨h.not_standing hp.1, hq hp.2⟩
  | silencing => exact ⟨h.not_standing hp.1, hq hp.2.1, h.not_known hp.2.2⟩
  | unbinding => exact ⟨h.not_standing hp.1, hq hp.2.1, h.not_entered hp.2.2⟩
  | removing => exact ⟨hb hp.1, hq hp.2.1, h.not_entered hp.2.2⟩
  | finished =>
    exact ⟨hb hp.1, hq hp.2.1, h.not_entered hp.2.2.1, fun hr => hp.2.2.2 (h.recorded hr)⟩

end shrinks

theorem Progress.clean (hs : Sound t) (hl : Linked base t conn ref)
    (hp : Progress base t conn ref c) :
    Progress base (t.clean ref c).1 conn ref (t.clean ref c).2 := by
  have hsh := (hs.clean ref c).2 ref
  cases c with
  | leaving =>
    rcases leave_cases t ref with ⟨hb, h⟩ | ⟨-, h⟩
    · rw [Tables.clean, h]
      exact ⟨hb, fun hq => hb (hl.queue hq), fun he => hb (hl.conn he)⟩
    · rw [Tables.clean, h]
      show Tables.standing _ ref = false
      rw [standing_modify, if_pos rfl]
      simp
  | detaching => exact ⟨hsh.not_standing hp, not_mem_take⟩
  | clearing =>
    refine ⟨hp.1, hp.2, ?_⟩
    rintro (hc | hm)
    · exact (AssocList.mem_delete hc.1).2 rfl
    · exact hs.keyed.not_mentions hm
  | silencing =>
    refine ⟨hp.1, hp.2.1, ?_⟩
    rintro (hk | ⟨cid, hl, -⟩)
    · exact hp.2.2 hk
    · simpa using (List.mem_filter.mp hl).2
  | unbinding =>
    refine ⟨fun hb => ((bound_unbind hs.registry).mp hb).2 rfl, ?_⟩
    exact ⟨hp.2.1, fun he => hp.2.2 he⟩
  | removing => exact ⟨hp.1, hp.2.1, hp.2.2, not_recorded_remove⟩
  | finished => exact hp

/-- A cleanup unbinds the session after all that was entered for it is gone. -/
theorem Linked.clean (hs : Sound t) (hl : Linked base t conn ref)
    (hp : x = ref → Progress base t conn ref c) : Linked base (t.clean x c).1 conn ref := by
  have hsh := (hs.clean x c).2 ref
  have hentered : entered base (t.clean x c).1 conn ref → entered base t conn ref :=
    fun he => by_contra fun hn => hsh.not_entered hn he
  by_cases h : ref ≠ x ∨ c ≠ .unbinding
  · refine ⟨fun hq => ?_, fun he => ?_⟩
    · exact (bound_clean hs h).mpr (hl.queue (hsh.queues hq))
    · exact (bound_clean hs h).mpr (hl.conn (hentered he))
  · obtain ⟨hx, hc⟩ := not_or.mp h
    obtain rfl := not_not.mp hx
    obtain rfl := not_not.mp hc
    obtain ⟨-, hq, he⟩ := hp rfl
    exact ⟨fun h => absurd h hq, fun h => absurd h he⟩

theorem Linked.shrinks (hl : Linked base t conn ref) (hsh : Shrinks ref t t')
    (hb : t'.bound ref ↔ t.bound ref) : Linked base t' conn ref :=
  ⟨fun hq => hb.mpr (hl.queue (hsh.queues hq)),
    fun he => hb.mpr (hl.conn (by_contra fun hn => hsh.not_entered hn he))⟩

end progress

end MumbleServer.AuthRollback

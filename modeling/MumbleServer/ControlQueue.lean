import MumbleServer.Registry

/-! # Control queues

`internal/cluster/control.go`: what a session is sent goes through a bounded queue of its own, from
which a worker writes to the sink.  During the initial sync there are two lanes: the messages of
the sync itself go to the queue, and everything else is deferred.  `CommitSync` puts a barrier in
the queue, waits for the worker to answer it, and then moves the deferred messages to the queue and
makes the session active.  A final message closes the queue.

Here is one queue with its worker: what each operation does under the lock of the queue, and the
worker one access at a time.  Beside it `Log` keeps what the operations have accepted, and
`Line.Inv` relates the two: what was written and what is still to be written is what was accepted,
lane after lane. -/

namespace MumbleServer.Control

open List

/-! ### The queue -/

inductive Error where
  | invalidSession
  | sessionBound
  | staleSession
  | invalidState
  | closed
  | overflow
  | deadline
  | sink
deriving DecidableEq

variable {M : Type}

/-- `controlCommand`: it is flushed if it has a context, and `done` is the call that waits for it. -/
structure Command (M : Type) where
  message : Option M
  flush : Bool := false
  final : Bool := false
  done : Option ℕ := none

/-- `controlSession`. -/
structure Session (M : Type) where
  limit : ℕ
  queue : List (Command M) := []
  deferred : List M := []
  stopped : Bool := false
  closed : Bool := false
  committing : Bool := false
  failed : Option Error := none

namespace Session
variable (cs : Session M) (state : SessionState)

def stopLocked : Session M := { cs with closed := true, deferred := [], stopped := true }

def failLocked (err : Error) : Session M :=
  if cs.stopped then cs else { cs with failed := some err }.stopLocked

/-- `enqueueLocked`: the channel holds one command more than the limit, for a barrier or a final
message. -/
def enqueueLocked (cmd : Command M) (reserved : Bool) : Session M × Except Error Unit :=
  if reserved = false ∧ cs.limit ≤ cs.queue.length then (cs.failLocked .overflow, .error .overflow)
  else if cs.queue.length < cs.limit + 1 then ({ cs with queue := cs.queue ++ [cmd] }, .ok ())
  else (cs.failLocked .overflow, .error .overflow)

def sendInitial (m : M) : Session M × Except Error Unit :=
  if cs.closed then (cs, .error .closed)
  else if state ≠ .syncing ∨ cs.committing then (cs, .error .invalidState)
  else cs.enqueueLocked { message := some m } false

def send (m : M) : Session M × Except Error Unit :=
  if cs.closed then (cs, .error .closed)
  else
    match state with
    | .syncing =>
      if cs.limit ≤ cs.deferred.length then (cs.failLocked .overflow, .error .overflow)
      else ({ cs with deferred := cs.deferred ++ [m] }, .ok ())
    | .active => cs.enqueueLocked { message := some m } false
    | .closing => (cs, .error .invalidState)

/-- The first part of `CommitSyncAndAnnounce`: the barrier. -/
def startCommit (call : ℕ) : Session M × Except Error Unit :=
  if cs.closed ∨ state ≠ .syncing ∨ cs.committing then (cs, .error .invalidState)
  else { cs with committing := true }.enqueueLocked
    { message := none, flush := true, done := some call } true

/-- The loop over the deferred messages. -/
def enqueueAll (cs : Session M) : List M → Session M × Except Error Unit
  | [] => (cs, .ok ())
  | m :: rest =>
    match cs.enqueueLocked { message := some m } false with
    | (cs, .error err) => (cs, .error err)
    | (cs, .ok ()) => enqueueAll cs rest

/-- The last part of `CommitSyncAndAnnounce`, with the state of the session if it is bound: after
it the session is active. -/
def finishCommit (state : Option SessionState) : Session M × Except Error Unit :=
  let cs := { cs with committing := false }
  if state ≠ some .syncing ∨ cs.closed then (cs, .error .invalidState)
  else
    match cs.enqueueAll cs.deferred with
    | (cs, .error err) => (cs, .error err)
    | (cs, .ok ()) => ({ cs with deferred := [] }, .ok ())

/-- The first part of `close`, for `SendThenClose` and `CloseAfterFlush`.  A session that is bound
is never in the state `StateClosed`. -/
def startClose (final : Option M) (call : ℕ) : Session M × Except Error Unit :=
  if cs.closed then (cs, .error .closed)
  else { cs with closed := true, deferred := [] }.enqueueLocked
    { message := final, flush := true, final := true, done := some call } true

end Session

/-! ### The worker -/

inductive Worker (M : Type) where
  /-- It waits for a command or for the stop. -/
  | idle
  /-- It has taken a command and looks at the stop once more. -/
  | holding (cmd : Command M)
  | writing (cmd : Command M) (m : M)
  | flushing (cmd : Command M)
  | failing (cmd : Command M) (err : Error)
  | answering (cmd : Command M) (err : Option Error)
  | exited

/-- What the operations on a queue have accepted: `SendInitial`, `Send` while the session was
syncing and while it was active, and the final message.  `committed` if `CommitSync` has gone
through. -/
structure Log (M : Type) where
  initial : List M := []
  deferred : List M := []
  active : List M := []
  final : Option M := none
  committed : Bool := false

/-- The order in which the accepted messages belong on the wire. -/
def Log.stream (log : Log M) : List M :=
  log.initial ++ (if log.committed then log.deferred else []) ++ log.active ++ log.final.toList

/-- A queue with its worker, what was written to the sink and what the worker has answered. -/
structure Line (M : Type) where
  cs : Session M
  worker : Worker M := .idle
  written : List M := []
  answers : List (ℕ × Option Error) := []
  log : Log M := {}

/-- What the worker does after the message of a command was written. -/
def afterWrite (cmd : Command M) : Worker M :=
  if cmd.flush then .flushing cmd else .answering cmd none

/-- The next access of `run`.  `ok` is what the sink answers; where the worker waits, it says which
of two ready cases is taken. -/
def Line.work (l : Line M) (ok : Bool) : Line M :=
  match l.worker with
  | .idle =>
    if ok then
      match l.cs.queue with
      | [] => l
      | cmd :: rest => { l with cs := { l.cs with queue := rest }, worker := .holding cmd }
    else if l.cs.stopped then { l with worker := .exited }
    else l
  | .holding cmd =>
    if l.cs.stopped then { l with worker := .exited }
    else
      match cmd.message with
      | some m => { l with worker := .writing cmd m }
      | none => { l with worker := afterWrite cmd }
  | .writing cmd m =>
    { l with
      written := l.written ++ [m]
      worker := if ok then afterWrite cmd else .failing cmd .sink }
  | .flushing cmd =>
    { l with worker := if ok then .answering cmd none else .failing cmd .sink }
  | .failing cmd err => { l with cs := l.cs.failLocked err, worker := .answering cmd (some err) }
  | .answering cmd err =>
    { l with
      answers := l.answers ++ cmd.done.toList.map (fun call => (call, err))
      worker := if err.isSome || cmd.final then .exited else .idle }
  | .exited => l

/-! ### The operations on a line -/

/-- The result of an operation, and what it has accepted if it went through. -/
def Line.record (l : Line M) (r : Session M × Except Error Unit) (accept : Log M → Log M) :
    Line M × Except Error Unit :=
  ({ l with
      cs := r.1
      log := match r.2 with
        | .ok () => accept l.log
        | .error _ => l.log }, r.2)

section operations
variable (l : Line M) (state : SessionState)

def Line.sendInitial (m : M) : Line M × Except Error Unit :=
  l.record (l.cs.sendInitial state m) fun log => { log with initial := log.initial ++ [m] }

def Line.send (m : M) : Line M × Except Error Unit :=
  l.record (l.cs.send state m) fun log =>
    match state with
    | .syncing => { log with deferred := log.deferred ++ [m] }
    | .active => { log with active := log.active ++ [m] }
    | .closing => log

def Line.startCommit (call : ℕ) : Line M × Except Error Unit :=
  l.record (l.cs.startCommit state call) fun log => log

def Line.finishCommit (state : Option SessionState) : Line M × Except Error Unit :=
  l.record (l.cs.finishCommit state) fun log => { log with committed := true }

def Line.startClose (final : Option M) (call : ℕ) : Line M × Except Error Unit :=
  l.record (l.cs.startClose final call) fun log => { log with final := final }

def Line.fail (err : Error) : Line M := { l with cs := l.cs.failLocked err }

def Line.stop : Line M := { l with cs := l.cs.stopLocked }

end operations

/-! ### What holds of a line -/

/-- The command the worker is busy with. -/
def Worker.hand : Worker M → List (Command M)
  | .holding cmd => [cmd]
  | .writing cmd _ => [cmd]
  | .flushing cmd => [cmd]
  | .failing cmd _ => [cmd]
  | .answering cmd _ => [cmd]
  | _ => []

/-- The message the worker has taken and not written yet. -/
def Worker.unwritten : Worker M → List M
  | .holding cmd => cmd.message.toList
  | .writing _ m => [m]
  | _ => []

/-- The worker goes on with the next command. -/
def Worker.healthy : Worker M → Bool
  | .answering _ err => err.isNone
  | .exited => false
  | _ => true

/-- The commands that are not answered yet. -/
def Line.pending (l : Line M) : List (Command M) := l.worker.hand ++ l.cs.queue

/-- What was written and what is to be written is the stream; a worker that has exited has written
a part of it. -/
def Line.Ordered (l : Line M) : Prop :=
  l.written ++ l.worker.unwritten ++ l.cs.queue.filterMap Command.message = l.log.stream ∨
    l.worker = .exited ∧ l.written <+: l.log.stream

/-- Only the last pending command may be a barrier, and none is pending once it was answered. -/
def Line.Barred (l : Line M) : Prop :=
  (l.cs.committing = false ∧ (∀ cmd ∈ l.pending, cmd.done = none) ∧ l.answers = []) ∨
    (l.cs.committing = true ∧
      ((∃ pre barrier, l.pending = pre ++ [barrier] ∧ (∀ cmd ∈ pre, cmd.done = none) ∧
          l.answers = []) ∨
        l.pending = []))

/-- The invariant of a line, with the state of its session. -/
structure Line.Inv (state : Option SessionState) (l : Line M) : Prop where
  ordered : l.Ordered
  /-- While the queue is open the worker is there and nothing final is under way. -/
  running : l.cs.closed = false → l.cs.stopped = false ∧ l.worker.healthy = true ∧
    (∀ cmd ∈ l.pending, cmd.final = false) ∧ l.log.final = none
  /-- During the sync the stream has the initial messages only. -/
  syncing : state = some .syncing → l.log.active = [] ∧ l.log.committed = false
  deferred : l.cs.closed = false → state = some .syncing →
    l.cs.deferred = l.log.deferred ∧ l.cs.deferred.length ≤ l.cs.limit
  barred : l.cs.closed = false → state = some .syncing → l.Barred

variable {cs : Session M}

section lines
variable {l l' : Line M} {state state' : Option SessionState}

/-- A line that is closed has its order to keep and nothing else. -/
theorem Line.Inv.of_closed (hc : l.cs.closed = true) (ho : l.Ordered)
    (hs : state = some .syncing → l.log.active = [] ∧ l.log.committed = false) : l.Inv state where
  ordered := ho
  running h := by rw [hc] at h; cases h
  syncing := hs
  deferred h := by rw [hc] at h; cases h
  barred h := by rw [hc] at h; cases h

theorem Line.Inv.mono (h : l.Inv state) (hs : state' = some .syncing → state = some .syncing) :
    l.Inv state' :=
  ⟨h.ordered, h.running, fun h' => h.syncing (hs h'), fun hc h' => h.deferred hc (hs h'),
    fun hc h' => h.barred hc (hs h')⟩

theorem Line.Ordered.written_prefix (h : l.Ordered) : l.written <+: l.log.stream := by
  rcases h with h | ⟨-, h⟩
  · rw [← h, append_assoc]
    exact prefix_append _ _
  · exact h

theorem Line.Ordered.append (h : l.Ordered) (cmds : List (Command M)) (hw : l'.worker = l.worker)
    (hwritten : l'.written = l.written) (hq : l'.cs.queue = l.cs.queue ++ cmds)
    (hs : l'.log.stream = l.log.stream ++ cmds.filterMap Command.message) : l'.Ordered := by
  rcases h with h | ⟨hexit, h⟩
  · left
    rw [hw, hwritten, hq, hs, ← h, filterMap_append, ← append_assoc]
  · right
    rw [hw, hwritten, hs]
    exact ⟨hexit, h.trans (prefix_append _ _)⟩

theorem Line.stream_of_open (h : l.Inv state) (hc : l.cs.closed = false) :
    l.log.stream = l.log.initial ++ (if l.log.committed then l.log.deferred else []) ++
      l.log.active := by
  rw [Log.stream, (h.running hc).2.2.2, Option.toList_none, append_nil]

theorem Line.stream_of_syncing (h : l.Inv (some .syncing)) (hc : l.cs.closed = false) :
    l.log.stream = l.log.initial := by
  obtain ⟨ha, hcom⟩ := h.syncing rfl
  rw [stream_of_open h hc, ha, hcom]
  simp

open Line

theorem Line.Inv.shut (h : l.Inv state) (hc : cs.closed = true) (hq : cs.queue = l.cs.queue) :
    Inv state { l with cs := cs } := by
  refine .of_closed hc ?_ h.syncing
  have ho := h.ordered
  unfold Ordered at ho ⊢
  rwa [hq]

end lines

/-! ### What the operations keep -/

section operations
variable {l : Line M} {state : SessionState}

@[simp] theorem Session.failLocked_queue (cs : Session M) (err : Error) :
    (cs.failLocked err).queue = cs.queue := by
  unfold failLocked
  split_ifs <;> rfl

theorem Session.failLocked_closed (h : cs.closed = false → cs.stopped = false) (err : Error) :
    (cs.failLocked err).closed = true := by
  unfold failLocked
  split_ifs with hs
  · by_contra hc
    rw [h (by simpa using hc)] at hs
    cases hs
  · rfl

theorem Session.enqueueLocked_cases (cs : Session M) (cmd : Command M) (reserved : Bool) :
    cs.enqueueLocked cmd reserved = ({ cs with queue := cs.queue ++ [cmd] }, .ok ()) ∨
      cs.enqueueLocked cmd reserved = (cs.failLocked .overflow, .error .overflow) := by
  unfold enqueueLocked
  split_ifs
  · exact .inr rfl
  · exact .inl rfl
  · exact .inr rfl

section
variable {state : Option SessionState} (h : l.Inv state)
include h

theorem Line.Inv.fail (err : Error) : (l.fail err).Inv state :=
  h.shut (Session.failLocked_closed (fun hc => (h.running hc).1) err)
    (Session.failLocked_queue l.cs err)

theorem Line.Inv.stop : l.stop.Inv state :=
  h.shut rfl rfl

theorem Line.Inv.push (hc : l.cs.closed = false) (cmd : Command M) {log : Log M}
    (hcs : cs = { l.cs with committing := cs.committing, queue := l.cs.queue ++ [cmd] })
    (hfinal : cmd.final = false) (hlog : log.final = none)
    (hstream : log.stream = l.log.stream ++ cmd.message.toList)
    (hsync : state = some .syncing → log.active = [] ∧ log.committed = false ∧
      log.deferred = l.log.deferred ∧ Barred { l with cs := cs, log := log }) :
    Inv state { l with cs := cs, log := log } := by
  obtain ⟨hstop, hhealthy, hpending, -⟩ := h.running hc
  have hq : cs.queue = l.cs.queue ++ [cmd] := by rw [hcs]
  constructor
  · refine h.ordered.append [cmd] rfl rfl hq ?_
    rw [hstream]
    cases hm : cmd.message <;> simp [hm]
  · intro _
    refine ⟨by rw [hcs]; exact hstop, hhealthy, fun x hx => ?_, hlog⟩
    have hx' : x ∈ l.pending ++ [cmd] := by
      unfold pending at hx ⊢
      rwa [hq, ← append_assoc] at hx
    rcases mem_append.mp hx' with hx' | hx'
    · exact hpending x hx'
    · rw [mem_singleton.mp hx']
      exact hfinal
  · exact fun hs => ⟨(hsync hs).1, (hsync hs).2.1⟩
  · intro _ hs
    have hd := h.deferred hc hs
    rw [hcs]
    exact ⟨hd.1.trans (hsync hs).2.2.1.symm, hd.2⟩
  · exact fun _ hs => (hsync hs).2.2.2

end

theorem Line.Inv.sendInitial (h : l.Inv (some state)) (m : M) :
    (l.sendInitial state m).1.Inv (some state) := by
  unfold Line.sendInitial Session.sendInitial
  split_ifs with hc hs
  · exact h
  · exact h
  · obtain ⟨rfl, hcom⟩ : state = .syncing ∧ l.cs.committing = false := by simpa using hs
    have hc : l.cs.closed = false := by simpa using hc
    obtain ⟨ha, hcommitted⟩ := h.syncing rfl
    have hlog := (h.running hc).2.2.2
    rcases l.cs.enqueueLocked_cases { message := some m } false with he | he
    · rw [he]
      refine h.push hc { message := some m } rfl rfl hlog ?_ fun _ => ⟨ha, hcommitted, rfl, ?_⟩
      · rw [stream_of_syncing h hc]
        simp [Log.stream, ha, hcommitted, hlog]
      · -- no barrier was there, and none has come
        rcases h.barred hc rfl with ⟨-, hdone, hans⟩ | ⟨htrue, -⟩
        · refine .inl ⟨hcom, fun x hx => ?_, hans⟩
          unfold pending at hx
          rw [← append_assoc] at hx
          rcases mem_append.mp hx with hx | hx
          · exact hdone x hx
          · rw [mem_singleton.mp hx]
        · rw [hcom] at htrue
          cases htrue
    · rw [he]
      exact h.fail .overflow

theorem Line.Inv.send (h : l.Inv (some state)) (m : M) : (l.send state m).1.Inv (some state) := by
  unfold Line.send Session.send
  by_cases hc : l.cs.closed = true
  · rw [if_pos hc]
    exact h
  rw [if_neg hc]
  have hc : l.cs.closed = false := by simpa using hc
  cases state with
  | syncing =>
    split_ifs with hfull
    · exact h.fail .overflow
    · obtain ⟨ha, hcommitted⟩ := h.syncing rfl
      obtain ⟨hd, -⟩ := h.deferred hc rfl
      refine ⟨?_, h.running, h.syncing, fun _ _ => ⟨?_, ?_⟩, h.barred⟩
      · refine h.ordered.append [] rfl rfl (append_nil _).symm ?_
        simp [record, Log.stream, hcommitted]
      · show l.cs.deferred ++ [m] = l.log.deferred ++ [m]
        rw [hd]
      · show (l.cs.deferred ++ [m]).length ≤ l.cs.limit
        rw [length_append, length_singleton]
        omega
  | active =>
    have hlog := (h.running hc).2.2.2
    rcases l.cs.enqueueLocked_cases { message := some m } false with he | he
    · rw [he]
      refine h.push hc { message := some m } rfl rfl hlog ?_ (fun hs => by cases hs)
      simp [Log.stream, hlog]
    · rw [he]
      exact h.fail .overflow
  | closing => exact h

theorem Line.Inv.startCommit (h : l.Inv (some state)) (call : ℕ) :
    (l.startCommit state call).1.Inv (some state) := by
  unfold Line.startCommit Session.startCommit
  split_ifs with hs
  · exact h
  · obtain ⟨hc, rfl, hcom⟩ : l.cs.closed = false ∧ state = .syncing ∧ l.cs.committing = false := by
      simpa using hs
    obtain ⟨ha, hcommitted⟩ := h.syncing rfl
    rcases ({ l.cs with committing := true } : Session M).enqueueLocked_cases
      { message := none, flush := true, done := some call } true with he | he
    · rw [he]
      refine h.push hc { message := none, flush := true, done := some call } rfl rfl
        (h.running hc).2.2.2 (append_nil _).symm fun _ => ⟨ha, hcommitted, rfl, ?_⟩
      rcases h.barred hc rfl with ⟨-, hdone, hans⟩ | ⟨htrue, -⟩
      · exact .inr ⟨rfl, .inl ⟨l.pending, _, (append_assoc ..).symm, hdone, hans⟩⟩
      · rw [hcom] at htrue
        cases htrue
    · rw [he]
      have hclosed : (({ l.cs with committing := true } : Session M).failLocked .overflow).closed =
          true := by
        apply Session.failLocked_closed
        exact fun _ => (h.running hc).1
      exact h.shut hclosed (by simp)

theorem Line.Inv.startClose {state : Option SessionState} (h : l.Inv state) (final : Option M)
    (call : ℕ) : (l.startClose final call).1.Inv state := by
  unfold Line.startClose Session.startClose
  split_ifs with hc
  · exact h
  · have hc : l.cs.closed = false := by simpa using hc
    rcases ({ l.cs with closed := true, deferred := [] } : Session M).enqueueLocked_cases
      { message := final, flush := true, final := true, done := some call } true with he | he
    · rw [he]
      refine .of_closed rfl ?_ h.syncing
      refine h.ordered.append [{ message := final, flush := true, final := true, done := some call }]
        rfl rfl rfl ?_
      rw [stream_of_open h hc]
      cases final <;> rfl
    · rw [he]
      have hclosed : (({ l.cs with closed := true, deferred := [] } : Session M).failLocked
          .overflow).closed = true := by
        apply Session.failLocked_closed
        intro hopen
        cases hopen
      exact h.shut hclosed (by simp)

theorem Session.enqueueAll_of_room (cs : Session M) (ms : List M)
    (h : cs.queue.length + ms.length ≤ cs.limit) :
    cs.enqueueAll ms =
      ({ cs with queue := cs.queue ++ ms.map fun m => { message := some m } }, .ok ()) := by
  induction ms generalizing cs with
  | nil => simp [enqueueAll]
  | cons m rest ih =>
    rw [length_cons] at h
    have hone : cs.enqueueLocked { message := some m } false =
        ({ cs with queue := cs.queue ++ [{ message := some m }] }, .ok ()) := by
      unfold enqueueLocked
      rw [if_neg (by omega), if_pos (by omega)]
    have hroom : (cs.queue ++ [({ message := some m } : Command M)]).length + rest.length ≤
        cs.limit := by
      rw [length_append, length_singleton]
      omega
    rw [enqueueAll, hone]
    dsimp only
    rw [ih _ hroom]
    simp

/-- When the barrier was answered, nothing is in the way of the deferred messages. -/
theorem Line.Inv.pending_of_answered (h : l.Inv (some .syncing)) (hc : l.cs.closed = false)
    (hans : l.answers ≠ []) : l.pending = [] := by
  rcases h.barred hc rfl with ⟨-, -, hnil⟩ | ⟨-, ⟨_, _, -, -, hnil⟩ | hp⟩
  · exact absurd hnil hans
  · exact absurd hnil hans
  · exact hp

variable {cmd : Command M}

section
variable {state : Option SessionState} (h : l.Inv state)
include h

/-- The deferred messages fit, and after them the session is active. -/
theorem Line.Inv.finishCommit (hans : l.answers ≠ []) :
    (l.finishCommit state).2 ≠ .error .overflow ∧
      ((l.finishCommit state).2 = .ok () → (l.finishCommit state).1.Inv (some .active)) ∧
      ((l.finishCommit state).2 ≠ .ok () → (l.finishCommit state).1.Inv state) := by
  unfold Line.finishCommit Session.finishCommit
  dsimp only
  split_ifs with hs
  · refine ⟨by simp [record], by simp [record], fun _ => ?_⟩
    have hshut : l.cs.closed = false → state ≠ some .syncing := by
      intro hc
      rcases hs with hs | hs
      · exact hs
      · rw [hc] at hs
        cases hs
    exact ⟨h.ordered, h.running, h.syncing, fun hc hs' => absurd hs' (hshut hc),
      fun hc hs' => absurd hs' (hshut hc)⟩
  · obtain ⟨rfl, hc⟩ : state = some .syncing ∧ l.cs.closed = false := by simpa using hs
    have hp := h.pending_of_answered hc hans
    have hq : l.cs.queue = [] := (append_eq_nil_iff.mp hp).2
    obtain ⟨hd, hlen⟩ := h.deferred hc rfl
    obtain ⟨ha, hcommitted⟩ := h.syncing rfl
    have hroom := Session.enqueueAll_of_room { l.cs with committing := false } l.cs.deferred
      (by rw [hq]; simpa using hlen)
    rw [hroom]
    refine ⟨by simp [record], fun _ => ?_, by simp [record]⟩
    obtain ⟨hstop, hhealthy, -, hlog⟩ := h.running hc
    have hhand : l.worker.hand = [] := (append_eq_nil_iff.mp hp).1
    have hmessages : ∀ ms : List M,
        (ms.map fun m => ({ message := some m } : Command M)).filterMap Command.message = ms := by
      intro ms
      rw [filterMap_map]
      exact filterMap_some
    constructor
    · refine h.ordered.append _ rfl rfl rfl ?_
      rw [hmessages, stream_of_syncing h hc, hd]
      simp [record, Log.stream, ha, hlog]
    · intro _
      refine ⟨hstop, hhealthy, fun cmd hcmd => ?_, hlog⟩
      have hcmd' : cmd ∈ l.cs.deferred.map fun m => ({ message := some m } : Command M) := by
        simpa [pending, record, hhand, hq] using hcmd
      obtain ⟨m, -, rfl⟩ := mem_map.mp hcmd'
      rfl
    · intro hs
      cases hs
    · intro _ hs
      cases hs
    · intro _ hs
      cases hs

theorem Line.Inv.proceed
    (hw : l.worker ≠ .exited) {w : Worker M} {written : List M} (hhand : w.hand = l.worker.hand)
    (hmessages : written ++ w.unwritten = l.written ++ l.worker.unwritten)
    (hhealthy : w.healthy = true) : Inv state { l with worker := w, written := written } := by
  have hpending : pending { l with worker := w, written := written } = l.pending := by
    unfold pending
    rw [hhand]
  constructor
  · left
    rcases h.ordered with ho | ⟨hexit, -⟩
    · rw [hmessages]
      exact ho
    · exact absurd hexit hw
  · intro hc
    obtain ⟨hstop, -, hfinal, hlog⟩ := h.running hc
    exact ⟨hstop, hhealthy, by rw [hpending]; exact hfinal, hlog⟩
  · exact h.syncing
  · exact h.deferred
  · intro hc hs
    unfold Barred
    rw [hpending]
    exact h.barred hc hs

theorem Line.Inv.exit (hc : l.cs.closed = true) : Inv state { l with worker := .exited } :=
  .of_closed hc (.inr ⟨rfl, h.ordered.written_prefix⟩) h.syncing

theorem Line.Inv.closed_of_stopped (hs : l.cs.stopped = true) : l.cs.closed = true := by
  by_contra hc
  rw [(h.running (by simpa using hc)).1] at hs
  cases hs

theorem Line.Inv.receive (hw : l.worker = .idle) {rest : List (Command M)}
    (hq : l.cs.queue = cmd :: rest) :
    Inv state { l with cs := { l.cs with queue := rest }, worker := .holding cmd } := by
  have hpending : pending { l with cs := { l.cs with queue := rest }, worker := .holding cmd } =
      l.pending := by
    unfold pending
    rw [hw, hq]
    rfl
  constructor
  · left
    rcases h.ordered with ho | ⟨hexit, -⟩
    · rw [hw, hq] at ho
      rw [← ho]
      cases hm : cmd.message <;> simp [Worker.unwritten, hm]
    · rw [hw] at hexit
      cases hexit
  · intro hc
    obtain ⟨hstop, -, hfinal, hlog⟩ := h.running hc
    exact ⟨hstop, rfl, by rw [hpending]; exact hfinal, hlog⟩
  · exact h.syncing
  · exact h.deferred
  · intro hc hs
    have hb := h.barred hc hs
    unfold Barred at hb ⊢
    rwa [hpending]

end

/-- The barrier is answered when it was the last command. -/
theorem Line.Barred.answer (h : l.Barred) {err : Option Error}
    (hw : l.worker = .answering cmd err) :
    Barred { l with
      answers := l.answers ++ cmd.done.toList.map (fun call => (call, err))
      worker := .idle } := by
  have hpending : l.pending = cmd :: l.cs.queue := by
    unfold pending
    rw [hw]
    rfl
  unfold Barred at h ⊢
  rw [hpending] at h
  rcases h with ⟨hcom, hdone, hans⟩ | ⟨hcom, ⟨pre, barrier, hp, hdone, hans⟩ | hp⟩
  · left
    rw [forall_mem_cons] at hdone
    exact ⟨hcom, hdone.2, by simp [hans, hdone.1]⟩
  · right
    refine ⟨hcom, ?_⟩
    cases pre with
    | nil => exact .inr (List.cons.inj hp).2
    | cons first pre =>
      obtain ⟨rfl, hrest⟩ := List.cons.inj hp
      rw [forall_mem_cons] at hdone
      exact .inl ⟨pre, barrier, hrest, hdone.2, by simp [hans, hdone.1]⟩
  · cases hp

theorem Line.Inv.answer {state : Option SessionState} (h : l.Inv state) {err : Option Error}
    (hw : l.worker = .answering cmd err) :
    Inv state { l with
      answers := l.answers ++ cmd.done.toList.map (fun call => (call, err))
      worker := if err.isSome || cmd.final then .exited else .idle } := by
  have ho := h.ordered
  by_cases hc : l.cs.closed = true
  · refine .of_closed hc ?_ h.syncing
    split_ifs
    · exact .inr ⟨rfl, ho.written_prefix⟩
    · left
      rcases ho with ho | ⟨hexit, -⟩
      · rw [hw] at ho
        exact ho
      · rw [hw] at hexit
        cases hexit
  · have hc : l.cs.closed = false := by simpa using hc
    obtain ⟨hstop, hhealthy, hfinal, hlog⟩ := h.running hc
    unfold pending at hfinal
    rw [hw] at hhealthy hfinal
    have herr : err.isSome = false := by simpa [Worker.healthy] using hhealthy
    rw [Worker.hand, singleton_append, forall_mem_cons] at hfinal
    rw [herr, hfinal.1]
    refine ⟨?_, fun _ => ⟨hstop, rfl, hfinal.2, hlog⟩, h.syncing, h.deferred,
      fun _ hs => (h.barred hc hs).answer hw⟩
    rcases ho with ho | ⟨hexit, -⟩
    · rw [hw] at ho
      exact .inl ho
    · rw [hw] at hexit
      cases hexit

theorem Line.Inv.work {state : Option SessionState} (h : l.Inv state) (ok : Bool) :
    (l.work ok).Inv state := by
  have hafter : ∀ cmd : Command M, (afterWrite cmd).hand = [cmd] ∧ (afterWrite cmd).unwritten = [] ∧
      (afterWrite cmd).healthy = true := by
    intro cmd
    unfold afterWrite
    split_ifs <;> exact ⟨rfl, rfl, rfl⟩
  unfold Line.work
  cases hw : l.worker with
  | idle =>
    dsimp only
    split_ifs with hok hs
    · cases hq : l.cs.queue with
      | nil => exact h
      | cons cmd rest => exact h.receive hw hq
    · exact h.exit (h.closed_of_stopped hs)
    · exact h
  | holding cmd =>
    dsimp only
    split_ifs with hs
    · exact h.exit (h.closed_of_stopped hs)
    · cases hm : cmd.message with
      | some m =>
        refine h.proceed (by simp [hw]) (by rw [hw]; rfl) ?_ rfl
        simp [hw, Worker.unwritten, hm]
      | none =>
        refine h.proceed (by simp [hw]) (by rw [hw]; exact (hafter cmd).1) ?_ (hafter cmd).2.2
        rw [(hafter cmd).2.1, hw, Worker.unwritten, hm, Option.toList_none]
  | writing cmd m =>
    cases ok with
    | true =>
      refine h.proceed (by simp [hw]) (by rw [hw]; exact (hafter cmd).1) ?_ (hafter cmd).2.2
      rw [if_pos rfl, (hafter cmd).2.1, hw, append_nil, Worker.unwritten]
    | false =>
      refine h.proceed (by simp [hw]) (by rw [hw]; rfl) ?_ rfl
      simp [hw, Worker.unwritten]
  | flushing cmd =>
    cases ok with
    | true | false => exact h.proceed (by simp [hw]) (by rw [hw]; rfl) (by rw [hw]; rfl) rfl
  | failing cmd err =>
    have hf := h.fail err
    refine .of_closed (Session.failLocked_closed (fun hc => (h.running hc).1) err) ?_ h.syncing
    rcases hf.ordered with ho | ⟨hexit, -⟩
    · left
      simpa [Line.fail, hw, Worker.unwritten] using ho
    · simp [Line.fail, hw] at hexit
  | answering cmd err => exact h.answer hw
  | exited => exact h

end operations

end MumbleServer.Control
